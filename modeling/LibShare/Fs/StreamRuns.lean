import LibShare.Fs.Stream

/-!
# libshare — a stream is a file with a position

What a stream reads and writes is what a byte string with a position gives and takes
(`ByteFile`), and a flush stores that string. `stream_refines` is the result for every
run of steps that meet `Safe`:

* A step that loads more of the file finds a format whose blocks are searched for the
  offset, or an empty buffer. A content that is read as a whole is put behind what the
  buffer has, and the buffer is then cut to the part that was missing:
  two writes at the end of a compressed file are enough (`compressed_file_damaged`).
* A flush does not fail to write. The stream is marked clean before it is known that it
  is, so that the next flush succeeds without a write.
-/

namespace LibShare.Fs

open Mem

/-! ## Files with a position -/

/-- A byte string and a position in it. -/
structure ByteFile where
  content : Bytes
  pos : Nat

inductive StreamOp
  | setpos (pos : Nat)
  | read (size : Nat)
  | write (data : Bytes)
  | flush

/-- What a call returns, and the bytes that a read copies. -/
inductive StreamOut
  | status (r : Except Sherr Unit)
  | read (r : Except Sherr Bytes)
  | count (r : Except Sherr Nat)
deriving DecidableEq

/-- A call on a stream. -/
def StreamOp.run (layer : FileLayer) (s : Shfstream) : StreamOp → Option (StreamOut × Shfstream)
  | .setpos pos => some (.status (shfstreamSetpos s pos).1, (shfstreamSetpos s pos).2)
  | .read size => (shfstreamRead layer s size).map fun r => (.read r.1, r.2)
  | .write data => (shfstreamWrite layer s data).map fun r => (.count r.1, r.2)
  | .flush => (shfstreamFlush layer s).map fun r => (.status r.1, r.2)

/-- The bytes from the position on, as many as there are. -/
def ByteFile.peek (f : ByteFile) (size : Nat) : Bytes := (f.content.drop f.pos).take size

/-- Bytes over the content and beyond its end. -/
def ByteFile.put (f : ByteFile) (data : Bytes) : ByteFile :=
  { content := f.content.take f.pos ++ data ++ f.content.drop (f.pos + data.length)
    pos := f.pos + data.length }

/-- The file cannot be read, and why. -/
def FileLayer.Faulty (layer : FileLayer) (err : Sherr) : Prop :=
  err = .io ∧ (∃ k, layer.blockFault k = true) ∨ err = .perm ∧ layer.memFault = true

/-- What the calls are for. A read or write fails only when the file cannot be read. -/
inductive ByteFile.Step (layer : FileLayer) (f : ByteFile) : StreamOp → StreamOut → ByteFile → Prop
  | setpos {pos : Nat} : pos ≤ f.content.length →
      Step layer f (.setpos pos) (.status (.ok ())) { f with pos := pos }
  | beyond {pos : Nat} : f.content.length < pos →
      Step layer f (.setpos pos) (.status (.error .inval)) f
  | read (size : Nat) :
      Step layer f (.read size) (.read (.ok (f.peek size)))
        { f with pos := f.pos + (f.peek size).length }
  | unread {size : Nat} {err : Sherr} : layer.Faulty err →
      Step layer f (.read size) (.read (.error err)) f
  | write (data : Bytes) : Step layer f (.write data) (.count (.ok data.length)) (f.put data)
  | unwritten {data : Bytes} {err : Sherr} : layer.Faulty err →
      Step layer f (.write data) (.count (.error err)) f
  | flush : Step layer f .flush (.status (.ok ())) f

/-- The states of a stream on a file in the runs whose steps meet a condition, with the
file that the calls so far make of its content. -/
inductive StreamRun (Ok : FileLayer → Shfstream → StreamOp → Prop) (file : Shfl) :
    Shfstream → ByteFile → Prop
  | opened {create : Bool} {s : Shfstream} : shfstreamInit create file = .ok s →
      StreamRun Ok file s { content := file.bytes, pos := 0 }
  | step {layer : FileLayer} {s s' : Shfstream} {f f' : ByteFile} {op : StreamOp}
      {out : StreamOut} :
      StreamRun Ok file s f → Ok layer s op → op.run layer s = some (out, s') →
      f.Step layer op out f' → StreamRun Ok file s' f'

/-! ## What a step asks for -/

/-- How much of the file a call loads. -/
def StreamOp.load (s : Shfstream) : StreamOp → Nat
  | .setpos _ => 0
  | .read size =>
    if min size (s.max - s.pos) = 0 then 0 else s.maxSeek (min size (s.max - s.pos))
  | .write data => if data.length = 0 then 0 else Nat.max (s.pos + data.length) s.max
  | .flush => 0

/-- The blocks are searched for the offset. -/
def Shformat.seeks : Shformat → Bool
  | .null => true
  | .binary => true
  | .database => true
  -- nothing is read where there is no content
  | .reference ref => !ref.hasContent
  | _ => false

/-- The content is copied without a look at the room in the map. -/
def Shformat.unbounded : Shformat → Bool
  | .external => true
  | .reference ref => ref.unbounded
  | _ => false

/-- More of the file can be loaded: the format is searched, or nothing has been loaded yet and
the content has room. -/
def Shfstream.Loads (s : Shfstream) (size : Nat) : Prop :=
  size ≤ s.buff.dataOf ∨ s.file.format.seeks ∨
    s.buff.dataOf = 0 ∧ (s.file.format.unbounded →
      s.file.content.length ≤ (shfstreamAllocExpand s size).buff.dataMax)

/-- A step that does not reach the defects of streams. -/
structure Safe (layer : FileLayer) (s : Shfstream) (op : StreamOp) : Prop where
  load : s.Loads (op.load s)
  flush : op = .flush → s.dirty = true → layer.writeFault = none

/-! ## The map -/

/-- The buffer holds the beginning of a content. -/
structure Holds (D : Bytes) (buf : Shbuf) : Prop where
  le_max : buf.dataOf ≤ buf.dataMax
  le_length : buf.dataOf ≤ D.length
  contents : buf.contents = D.take buf.dataOf

variable {D : Bytes} {buf : Shbuf} {layer : FileLayer}

/-- The buffer has the room that was asked for, and no less than before. -/
theorem shbufGrowanon_max (buf : Shbuf) (len : Nat) :
    len ≤ (shbufGrowanon buf len).dataMax ∧ buf.dataMax ≤ (shbufGrowanon buf len).dataMax := by
  unfold shbufGrowanon
  split_ifs with h
  · exact ⟨h, Nat.le_refl _⟩
  · show len ≤ (len / 4096 + 1) * 4096 ∧ buf.dataMax ≤ (len / 4096 + 1) * 4096
    omega

/-- A buffer that grows has the contents it had. -/
theorem shbufGrowanon_of (buf : Shbuf) (len : Nat) :
    (shbufGrowanon buf len).dataOf = buf.dataOf := by
  unfold shbufGrowanon
  split_ifs <;> rfl

/-- A buffer that grows has the bytes it had. -/
theorem slice_growanon (len : Nat) {a n : Nat} (h : a + n ≤ buf.dataMax) :
    slice (shbufGrowanon buf len).data a n = slice buf.data a n := by
  unfold shbufGrowanon
  split_ifs
  · rfl
  · refine slice_congr fun i _ hi => ?_
    exact if_pos (by omega)

/-- A buffer that grows holds what it held. -/
theorem Holds.grow (h : Holds D buf) (len : Nat) : Holds D (shbufGrowanon buf len) where
  le_max := by
    rw [shbufGrowanon_of]
    exact Nat.le_trans h.le_max (shbufGrowanon_max buf len).2
  le_length := by
    rw [shbufGrowanon_of]
    exact h.le_length
  contents := by
    rw [Shbuf.contents, shbufGrowanon_of, slice_growanon len (by rw [Nat.zero_add]; exact h.le_max)]
    exact h.contents

/-- The next bytes of the content are put behind those that are there. -/
theorem Holds.cat (h : Holds D buf) {n : Nat} (hlen : buf.dataOf + n ≤ D.length)
    (hmax : buf.dataOf + n ≤ buf.dataMax) :
    ∃ buf', shbufCatmap buf ((D.drop buf.dataOf).take n) = some buf' ∧ Holds D buf' ∧
      buf'.dataOf = buf.dataOf + n ∧ buf'.dataMax = buf.dataMax := by
  have hn : ((D.drop buf.dataOf).take n).length = n := by
    rw [List.length_take, List.length_drop]
    omega
  refine ⟨_, if_pos (by rw [hn]; exact hmax), ⟨?_, ?_, ?_⟩, ?_, rfl⟩
  · show buf.dataOf + _ ≤ buf.dataMax
    rw [hn]
    exact hmax
  · show buf.dataOf + _ ≤ D.length
    rw [hn]
    exact hlen
  · show slice (poke buf.data buf.dataOf _) 0 (buf.dataOf + _) = D.take (buf.dataOf + _)
    rw [slice_append, Nat.zero_add, slice_poke, slice_poke_ne (by omega), hn, List.take_add]
    exact congrArg (· ++ _) h.contents
  · show buf.dataOf + _ = buf.dataOf + n
    rw [hn]

/-- What is asked for leaves room for one more block. -/
theorem allocLen_le (size : Nat) : size + blockDataSize ≤ allocLen size := by
  have hblock : blockDataSize = 3976 := rfl
  have hmax : (size / 4096 + 2) * 4096 ≤ Nat.max (4 * 4096) ((size / 4096 + 2) * 4096) :=
    Nat.le_max_right _ _
  unfold allocLen
  dsimp only
  omega

/-! ## Reading -/

/-- The offset of a block, or the end of the content. -/
def blockOf (D : Bytes) (k : Nat) : Nat := min (k * blockDataSize) D.length

/-- One block after the other. -/
theorem blockOf_succ (D : Bytes) (k : Nat) :
    blockOf D k + min blockDataSize (D.length - blockOf D k) = blockOf D (k + 1) := by
  have hmul : (k + 1) * blockDataSize = k * blockDataSize + blockDataSize := Nat.succ_mul _ _
  unfold blockOf
  omega

/-- The last block ends where the data end. -/
theorem blockOf_blocksFor (D : Bytes) : blockOf D (blocksFor D) = D.length := by
  have hblock : blockDataSize = 3976 := rfl
  unfold blockOf blocksFor
  rw [hblock]
  omega

/-- No block begins behind the data. -/
theorem blockOf_le (D : Bytes) (k : Nat) : blockOf D k ≤ D.length := Nat.min_le_right _ _

/-- Before the end of the data a block begins at a multiple of its size. -/
theorem dvd_blockOf {D : Bytes} {k : Nat} (h : blockOf D k < D.length) :
    blockDataSize ∣ blockOf D k := by
  have hk : blockOf D k = k * blockDataSize := by
    unfold blockOf at h ⊢
    omega
  rw [hk]
  exact Nat.dvd_mul_left _ _

/-- What a read from an offset leaves: the beginning of the content, up to the
end of a block. -/
structure ReadTo (layer : FileLayer) (D : Bytes) (buf : Shbuf) (goal : Nat)
    (r : Except Sherr Unit) (buf' : Shbuf) : Prop where
  holds : Holds D buf'
  max : buf'.dataMax = buf.dataMax
  grows : buf.dataOf ≤ buf'.dataOf
  aligned : buf'.dataOf < D.length → blockDataSize ∣ buf'.dataOf
  done : r = .ok () → min goal D.length ≤ buf'.dataOf
  fault : ∀ err, r = .error err → layer.Faulty err

/-- One block of a content that has been loaded up to a block. -/
theorem preadBlock_seek {k of : Nat} (len : Nat) (h : Holds D buf) (halign : blockDataSize ∣ of)
    (hof : of ≤ D.length) (hbuf : buf.dataOf = Nat.max of (blockOf D k))
    (hroom : blockOf D (k + 1) ≤ buf.dataMax) :
    ∃ buf', preadBlock D (blockOf D k) (min blockDataSize (D.length - blockOf D k)) of len buf =
      some buf' ∧ Holds D buf' ∧ buf'.dataOf = Nat.max of (blockOf D (k + 1)) ∧
      buf'.dataMax = buf.dataMax := by
  have hnext := blockOf_succ D k
  have hle := blockOf_le D (k + 1)
  generalize hbLen : min blockDataSize (D.length - blockOf D k) = bLen at *
  unfold preadBlock auxPreadBlock
  split_ifs with hfull hpart
  · -- the blocks from the offset on
    have hat : buf.dataOf = blockOf D k := by
      rw [hbuf]
      rcases hfull with rfl | hle
      · exact Nat.max_eq_right (Nat.zero_le _)
      · exact Nat.max_eq_right hle
    have hmin : min bLen (buf.dataMax - buf.dataOf) = bLen := by omega
    obtain ⟨buf', hcat, hholds, hof', hmax⟩ := h.cat (n := bLen) (by omega) (by omega)
    refine ⟨buf', ?_, hholds, ?_, hmax⟩
    · dsimp only [PreadBuff.map]
      rw [hmin, ← hat]
      exact hcat
    · rw [hof', hat, hnext]
      rcases hfull with rfl | hle
      · exact (Nat.max_eq_right (Nat.zero_le _)).symm
      · exact (Nat.max_eq_right (by omega)).symm
  · -- the block that ends where the offset is
    have hend : of = blockOf D (k + 1) := by
      obtain ⟨q, hq⟩ := halign
      have hk : blockOf D k = k * blockDataSize := by
        unfold blockOf at hfull ⊢
        omega
      have hq1 : k + 1 ≤ q := by
        by_contra hlt
        have : blockDataSize * q ≤ blockDataSize * k := Nat.mul_le_mul_left _ (by omega)
        rw [Nat.mul_comm blockDataSize k] at this
        omega
      have hmul : blockDataSize * (k + 1) ≤ blockDataSize * q := Nat.mul_le_mul_left _ hq1
      rw [Nat.mul_comm blockDataSize (k + 1)] at hmul
      have : blockOf D (k + 1) ≤ (k + 1) * blockDataSize := Nat.min_le_left _ _
      omega
    have hnone : min bLen (blockOf D k + bLen - of) = 0 := by omega
    obtain ⟨buf', hcat, hholds, hof', hmax⟩ := h.cat (n := 0) (by have := h.le_length; omega)
      (by have := h.le_max; omega)
    refine ⟨buf', ?_, hholds, ?_, hmax⟩
    · rw [← hcat]
      dsimp only [PreadBuff.map]
      rw [hnone, if_neg (by omega), List.take_zero, List.take_zero]
    · rw [hof', hbuf, ← hend]
      exact (Nat.max_eq_left (by omega)).trans (Nat.max_self of).symm
  · -- the blocks before the offset are passed over
    refine ⟨buf, rfl, h, ?_, rfl⟩
    rw [hbuf]
    have h1 : Nat.max of (blockOf D k) = of := Nat.max_eq_left (by omega)
    have h2 : Nat.max of (blockOf D (k + 1)) = of := Nat.max_eq_left (by omega)
    rw [h1, h2]

/-- The blocks that are left, when the map has room for one more than is asked for. -/
theorem preadLoop_seek (layer : FileLayer) {of len : Nat} (halign : blockDataSize ∣ of)
    (hof : of ≤ D.length) (hlen : len ≠ 0) :
    ∀ (n k : Nat) (buf : Shbuf), k + n = blocksFor D → Holds D buf →
      buf.dataOf = Nat.max of (blockOf D k) → blockOf D k ≤ of + len →
      of + len + blockDataSize ≤ buf.dataMax →
      ∃ r buf', preadLoop layer D of len n k (blockOf D k) buf = some (r, buf') ∧
        ReadTo layer D buf (of + len) r buf' := by
  -- induction on the blocks that are left; `k` of them have been read
  intro n
  induction n with
  | zero =>
    intro k buf hk h hbuf _ _
    have hall : buf.dataOf = D.length := by
      rw [hbuf, show k = blocksFor D from hk, blockOf_blocksFor]
      exact Nat.max_eq_right hof
    exact ⟨.ok (), buf, rfl, h, rfl, Nat.le_refl _, fun hlt => absurd hall (Nat.ne_of_lt hlt),
      fun _ => by rw [hall]; exact Nat.min_le_right _ _, fun _ herr => by cases herr⟩
  | succ n ih =>
    intro k buf hk h hbuf hgoal hroom
    rw [preadLoop]
    by_cases hfault : layer.blockFault k = true
    · -- the block cannot be read
      rw [if_pos hfault]
      refine ⟨.error .io, buf, rfl, h, rfl, Nat.le_refl _, ?_, (fun hok => by cases hok), ?_⟩
      · intro hlt
        rw [hbuf] at hlt ⊢
        rcases Nat.le_total of (blockOf D k) with hle | hle
        · rw [show Nat.max of (blockOf D k) = blockOf D k from Nat.max_eq_right hle] at hlt ⊢
          exact dvd_blockOf hlt
        · rw [show Nat.max of (blockOf D k) = of from Nat.max_eq_left hle]
          exact halign
      · intro err herr
        cases herr
        exact .inl ⟨rfl, k, hfault⟩
    · rw [if_neg hfault]
      dsimp only
      have hnext := blockOf_succ D k
      have hfit : blockOf D (k + 1) ≤ buf.dataMax := by omega
      obtain ⟨buf', hread, h', hbuf', hmax⟩ :=
        preadBlock_seek (k := k) len h halign hof hbuf hfit
      have hgrows : buf.dataOf ≤ buf'.dataOf := by
        rw [hbuf, hbuf']
        exact Nat.max_le.mpr ⟨Nat.le_max_left _ _, Nat.le_trans (by omega) (Nat.le_max_right _ _)⟩
      rw [hread]
      dsimp only
      rw [hnext]
      split_ifs with hbreak
      · -- the loop is left once the goal has been passed
        refine ⟨.ok (), buf', rfl, h', hmax, hgrows, ?_, ?_, fun _ herr => by cases herr⟩
        · intro hlt
          have hat : Nat.max of (blockOf D (k + 1)) = blockOf D (k + 1) :=
            Nat.max_eq_right (by omega)
          rw [hbuf', hat] at hlt ⊢
          exact dvd_blockOf hlt
        · intro _
          rw [hbuf']
          have hpast : of + len ≤ blockOf D (k + 1) := by omega
          exact Nat.le_trans (Nat.min_le_left _ _) (Nat.le_trans hpast (Nat.le_max_right _ _))
      · have hgoal' : blockOf D (k + 1) ≤ of + len := by omega
        obtain ⟨r, buf'', hloop, hto⟩ := ih (k + 1) buf' (by omega) h' hbuf' hgoal' (by omega)
        exact ⟨r, buf'', hloop, hto.holds, hto.max.trans hmax, Nat.le_trans hgrows hto.grows,
          hto.aligned, hto.done, hto.fault⟩

/-- The blocks that are left, when the whole content is read into the map, as far as there
is room. -/
theorem preadLoop_whole (layer : FileLayer) :
    ∀ (n k : Nat) (buf : Shbuf), k + n = blocksFor D → Holds D buf →
    buf.dataOf = min (blockOf D k) buf.dataMax →
    ∃ r buf', preadLoop layer D 0 0 n k (blockOf D k) buf = some (r, buf') ∧ Holds D buf' ∧
      buf'.dataMax = buf.dataMax ∧ (r = .ok () → buf'.dataOf = min D.length buf.dataMax) ∧
      (∀ err, r = .error err → layer.Faulty err) := by
  intro n
  induction n with
  | zero =>
    intro k buf hk h hbuf
    refine ⟨.ok (), buf, rfl, h, rfl, fun _ => ?_, fun _ herr => by cases herr⟩
    rw [hbuf, show k = blocksFor D from hk, blockOf_blocksFor]
  | succ n ih =>
    intro k buf hk h hbuf
    rw [preadLoop]
    by_cases hfault : layer.blockFault k = true
    · rw [if_pos hfault]
      refine ⟨.error .io, buf, rfl, h, rfl, (fun hok => by cases hok), fun err herr => ?_⟩
      cases herr
      exact .inl ⟨rfl, k, hfault⟩
    · rw [if_neg hfault]
      dsimp only
      have hnext := blockOf_succ D k
      have hle := blockOf_le D (k + 1)
      generalize hbLen : min blockDataSize (D.length - blockOf D k) = bLen at *
      obtain ⟨buf', hcat, h', hof', hmax⟩ := h.cat (n := min bLen (buf.dataMax - buf.dataOf))
        (by omega) (by omega)
      -- once the map is full, nothing is taken from a block
      have hread : preadBlock D (blockOf D k) bLen 0 0 buf = some buf' := by
        rw [preadBlock, auxPreadBlock, if_pos (.inl rfl), ← hcat]
        dsimp only [PreadBuff.map]
        by_cases hfull : buf.dataOf = blockOf D k
        · rw [hfull]
        · have hzero : min bLen (buf.dataMax - buf.dataOf) = 0 := by omega
          rw [hzero, List.take_zero, List.take_zero]
      rw [hread]
      dsimp only
      rw [hnext, if_neg (fun hbad => hbad.1 rfl)]
      obtain ⟨r, buf'', hloop, h'', hmax', hdone, herr⟩ :=
        ih (k + 1) buf' (by omega) h' (by rw [hof', hmax]; omega)
      exact ⟨r, buf'', hloop, h'', hmax'.trans hmax, fun hok => by rw [hdone hok, hmax], herr⟩

/-- `shfs_aux_pread` from an offset that has been reached. -/
theorem pread_seek (layer : FileLayer) {len : Nat} (h : Holds D buf) (hlen : len ≠ 0)
    (halign : buf.dataOf < D.length → blockDataSize ∣ buf.dataOf)
    (hroom : buf.dataOf + len + blockDataSize ≤ buf.dataMax) :
    ∃ r buf', pread layer D buf.dataOf len buf = some (r, buf') ∧
      ReadTo layer D buf (buf.dataOf + len) r buf' := by
  rw [pread]
  by_cases hend : D.length ≤ buf.dataOf
  · have hall : buf.dataOf = D.length := Nat.le_antisymm h.le_length hend
    by_cases hzero : buf.dataOf = 0
    · -- an empty content is read from its beginning, and nothing is found
      rw [if_neg (fun hbad => hbad.1 hzero)]
      have hstart : (0 : Nat) = blockOf D 0 := by unfold blockOf; omega
      rw [hzero]
      have hloop := preadLoop_seek (D := D) layer
        (Nat.dvd_zero blockDataSize) (Nat.zero_le _) hlen (blocksFor D) 0 buf (Nat.zero_add _) h
        (by rw [hzero, ← hstart]; rfl) (by rw [← hstart]; exact Nat.zero_le _) (by omega)
      rw [← hstart] at hloop
      exact hloop
    · rw [if_pos ⟨hzero, hend⟩]
      exact ⟨.ok (), buf, rfl, h, rfl, Nat.le_refl _, fun hlt => absurd hall (Nat.ne_of_lt hlt),
        (fun _ => by rw [hall]; exact Nat.min_le_right _ _), fun _ herr => nomatch herr⟩
  · rw [if_neg (fun hbad => hend hbad.2)]
    have hstart : (0 : Nat) = blockOf D 0 := by unfold blockOf; omega
    have hloop := preadLoop_seek (D := D) layer
      (halign (by omega)) (by omega) hlen (blocksFor D) 0 buf (Nat.zero_add _) h
      (by rw [← hstart]; exact (Nat.max_eq_left (Nat.zero_le _)).symm)
      (by rw [← hstart]; exact Nat.zero_le _) hroom
    rw [← hstart] at hloop
    exact hloop

/-- `shfs_aux_read` into a map with nothing in it. -/
theorem pread_whole (layer : FileLayer) (h : Holds D buf) (hzero : buf.dataOf = 0) :
    ∃ r buf', pread layer D 0 0 buf = some (r, buf') ∧ Holds D buf' ∧
      buf'.dataMax = buf.dataMax ∧ (r = .ok () → buf'.dataOf = min D.length buf.dataMax) ∧
      (∀ err, r = .error err → layer.Faulty err) := by
  have hstart : (0 : Nat) = blockOf D 0 := by unfold blockOf; omega
  rw [pread, if_neg (fun hbad => hbad.1 rfl)]
  have hloop := preadLoop_whole layer (blocksFor D) 0 buf (Nat.zero_add _) h
    (by rw [hzero, ← hstart, Nat.zero_min])
  rw [← hstart] at hloop
  exact hloop

theorem cheat_zero (r : Option (Except Sherr Unit × Shbuf)) : cheat 0 0 r = r := by
  rcases r with _ | ⟨err | u, buf⟩ <;> rfl

/-- What the whole of a content is read to: as much as the map has room for. -/
structure ReadWhole (layer : FileLayer) (D : Bytes) (buf : Shbuf) (r : Except Sherr Unit)
    (buf' : Shbuf) : Prop where
  holds : Holds D buf'
  max : buf'.dataMax = buf.dataMax
  done : r = .ok () → buf'.dataOf = min D.length buf.dataMax
  fault : ∀ err, r = .error err → layer.Faulty err

/-- A full read into a map with nothing in it. -/
theorem read_whole (layer : FileLayer) (h : Holds D buf) (hzero : buf.dataOf = 0) :
    ∀ (format : Shformat), format.hasContent = true →
      (format.unbounded = true → D.length ≤ buf.dataMax) →
      ∃ r buf', shfsReadOf layer D format buf 0 0 = some (r, buf') ∧
      ReadWhole layer D buf r buf' := by
  have hpread : ∃ r buf', pread layer D 0 0 buf = some (r, buf') ∧
      ReadWhole layer D buf r buf' := by
    obtain ⟨r, buf', hrun, hholds, hmax, hdone, hfault⟩ := pread_whole layer h hzero
    exact ⟨r, buf', hrun, hholds, hmax, hdone, hfault⟩
  intro format
  induction format with
  | null => exact fun hno => nomatch hno
  | binary => exact fun _ _ => hpread
  | database => exact fun _ _ => hpread
  | compress =>
    intro _ _
    rw [shfsReadOf, cheat_zero]
    exact hpread
  | external =>
    intro _ hfits
    rw [shfsReadOf, cheat_zero, memRead]
    by_cases hfault : layer.memFault = true
    · rw [if_pos hfault]
      refine ⟨.error .perm, buf, rfl, h, rfl, (fun hok => nomatch hok), fun err herr => ?_⟩
      cases herr
      exact .inr ⟨rfl, hfault⟩
    · have hroom := hfits rfl
      rw [if_neg hfault]
      obtain ⟨buf', hcat, hholds, hof, hmax⟩ := h.cat (n := D.length) (by omega) (by omega)
      rw [hzero, List.drop_zero, List.take_length] at hcat
      refine ⟨.ok (), buf', by rw [hcat]; rfl, hholds, hmax, fun _ => ?_,
        fun _ herr => nomatch herr⟩
      rw [hof, hzero, Nat.zero_add, Nat.min_eq_left hroom]
  | reference ref ih =>
    intro hcontent hfits
    rw [shfsReadOf, cheat_zero]
    exact ih hcontent hfits

/-- A format that is not searched is read as a whole and cut. -/
theorem readOf_cut {format : Shformat} (hseek : format.seeks = false) (size : Nat) :
    shfsReadOf layer D format buf 0 size = cheat 0 size (shfsReadOf layer D format buf 0 0) := by
  cases format with
  | null => cases hseek
  | binary => cases hseek
  | database => cases hseek
  | compress => rw [shfsReadOf, shfsReadOf, cheat_zero]
  | external => rw [shfsReadOf, shfsReadOf, cheat_zero]
  | reference ref => rw [shfsReadOf, shfsReadOf, cheat_zero]

/-- A buffer that is cut to some size holds what is left. -/
theorem Holds.truncate (h : Holds D buf) {size : Nat} (hsize : size ≠ 0) :
    Holds D (shbufTruncate buf size) ∧ (shbufTruncate buf size).dataOf = min size buf.dataOf := by
  have hcut : (shbufTruncate buf size).contents = D.take (min size buf.dataOf) := by
    rw [shbufTruncate_spec h.le_max, if_neg hsize, h.contents, List.take_take]
  have hof : (shbufTruncate buf size).dataOf = min size buf.dataOf := by
    have hlen := congrArg List.length hcut
    rw [Shbuf.length_contents, List.length_take] at hlen
    have := h.le_length
    omega
  exact ⟨⟨shbufTruncate_max h.le_max size,
    by rw [hof]; exact Nat.le_trans (Nat.min_le_right _ _) h.le_length, by rw [hof]; exact hcut⟩,
      hof⟩

/-- A format without content has nothing to be read. -/
theorem readOf_none : ∀ {format : Shformat}, format.hasContent = false → ∀ (of size : Nat),
    shfsReadOf layer D format buf of size = some (.error .noent, buf) := by
  intro format
  induction format with
  | null => exact fun _ _ _ => rfl
  | binary => exact fun hno => nomatch hno
  | database => exact fun hno => nomatch hno
  | compress => exact fun hno => nomatch hno
  | external => exact fun hno => nomatch hno
  | reference ref ih =>
    intro hno of size
    rw [shfsReadOf, ih hno 0 0]
    rfl

/-- A format whose blocks are searched is read from the offset on. -/
theorem readOf_seeks {format : Shformat} (hseek : format.seeks = true)
    (hcontent : format.hasContent = true) (of size : Nat) :
    shfsReadOf layer D format buf of size = pread layer D of size buf := by
  cases format with
  | null => cases hcontent
  | binary => rfl
  | database => rfl
  | compress => cases hseek
  | external => cases hseek
  | reference ref =>
    rw [Shformat.seeks, show ref.hasContent = true from hcontent] at hseek
    cases hseek

/-- What loading more of a file does to the buffer. -/
structure Loaded (layer : FileLayer) (file : Shfl) (D : Bytes) (buf : Shbuf) (goal : Nat)
    (r : Except Sherr Unit) (buf' : Shbuf) : Prop where
  holds : Holds D buf'
  max : buf'.dataMax = buf.dataMax
  grows : buf.dataOf ≤ buf'.dataOf
  /-- what is left to be loaded is in the file -/
  rest : buf'.dataOf < D.length → file.bytes = D
  aligned : file.format.seeks = true → buf'.dataOf < D.length → blockDataSize ∣ buf'.dataOf
  done : r = .ok () ∨ r = .error .noent → min goal D.length ≤ buf'.dataOf
  fault : ∀ err, r = .error err → err = .noent ∨ layer.Faulty err

/-- A content that is read as a whole, into a map with nothing in it. -/
theorem load_whole {file : Shfl} {len : Nat} (h : Holds file.content buf) (hzero : buf.dataOf = 0)
    (hseek : file.format.seeks = false) (hcontent : file.format.hasContent = true)
    (hfits : file.format.unbounded = true → file.content.length ≤ buf.dataMax) (hlen : len ≠ 0)
    (hroom : len ≤ buf.dataMax) :
    ∃ r buf', shfsReadOf layer file.content file.format buf 0 len = some (r, buf') ∧
      Loaded layer file file.content buf len r buf' := by
  have hbytes : file.bytes = file.content := if_pos hcontent
  obtain ⟨r, buf₁, hrun, hwhole⟩ := read_whole layer h hzero file.format hcontent hfits
  rw [readOf_cut hseek, hrun]
  rcases r with err | u
  · refine ⟨.error err, buf₁, rfl, hwhole.holds, hwhole.max,
      by omega, fun _ => hbytes, (fun hs => nomatch hseek.symm.trans hs), ?_, fun err' herr =>
        .inr (hwhole.fault err' herr)⟩
    rintro (hok | hnoent)
    · cases hok
    · cases hnoent
      rcases hwhole.fault .noent rfl with ⟨hbad, -⟩ | ⟨hbad, -⟩ <;> cases hbad
  · obtain ⟨hholds, hof⟩ := hwhole.holds.truncate hlen
    have hmax : (shbufTruncate buf₁ len).dataMax = buf₁.dataMax := by
      unfold shbufTruncate
      dsimp only
      split_ifs <;> rfl
    refine ⟨.ok (), shbufTruncate buf₁ len, ?_, hholds, hmax.trans hwhole.max,
      by omega, fun _ => hbytes, (fun hs => nomatch hseek.symm.trans hs), ?_, fun _ herr =>
        nomatch herr⟩
    · show some (Except.ok (), if len ≠ 0 then shbufTruncate buf₁ len else buf₁) = _
      rw [if_pos hlen]
    · intro _
      rw [hof, hwhole.done rfl]
      omega

/-- More of a file is loaded, or all of it has been. -/
theorem load_more (layer : FileLayer) {file : Shfl} (len : Nat) (h : Holds D buf) (hlen : len ≠ 0)
    (hroom : buf.dataOf + len + blockDataSize ≤ buf.dataMax)
    (halign : file.format.seeks = true → buf.dataOf < D.length → blockDataSize ∣ buf.dataOf)
    (hfile : file.bytes = D ∨ buf.dataOf = D.length ∧ file.bytes.length ≤ D.length)
    (hload : file.format.seeks = true ∨ buf.dataOf = 0 ∧
      (file.format.unbounded = true → file.content.length ≤ buf.dataMax)) :
    ∃ r buf', shfsReadOf layer file.content file.format buf buf.dataOf len = some (r, buf') ∧
      Loaded layer file D buf (buf.dataOf + len) r buf' := by
  -- nothing is left to be loaded
  have hsame : D.length ≤ buf.dataOf → ∀ r, (r = .ok () ∨ r = .error .noent) →
      Loaded layer file D buf (buf.dataOf + len) r buf := by
    intro hall r hr
    refine ⟨h, rfl, Nat.le_refl _, fun hlt => absurd hall (Nat.not_le.mpr hlt), halign,
      fun _ => Nat.le_trans (Nat.min_le_right _ _) hall, fun err herr => ?_⟩
    rcases hr with rfl | rfl
    · cases herr
    · cases herr
      exact .inl rfl
  by_cases hcontent : file.format.hasContent = true
  · have hbytes : file.bytes = file.content := if_pos hcontent
    rw [hbytes] at hfile
    by_cases hseek : file.format.seeks = true
    · rw [readOf_seeks hseek hcontent]
      by_cases hrest : buf.dataOf ≠ 0 ∧ file.content.length ≤ buf.dataOf
      · refine ⟨.ok (), buf, by rw [pread, if_pos hrest], hsame ?_ _ (.inl rfl)⟩
        rcases hfile with heq | ⟨hall, -⟩
        · rw [← heq]
          exact hrest.2
        · exact Nat.le_of_eq hall.symm
      · have heq : file.content = D := by
          rcases hfile with heq | ⟨hall, hle⟩
          · exact heq
          · have hD : D = [] := List.length_eq_zero_iff.mp (by omega)
            have hC : file.content = [] := List.length_eq_zero_iff.mp (by omega)
            rw [hC, hD]
        rw [heq]
        obtain ⟨r, buf', hrun, hto⟩ := pread_seek layer h hlen (halign hseek) hroom
        refine ⟨r, buf', hrun, hto.holds, hto.max, hto.grows, fun _ => hbytes.trans heq, fun _ =>
          hto.aligned, ?_, fun err herr => .inr (hto.fault err herr)⟩
        rintro (hok | hnoent)
        · exact hto.done hok
        · rcases hto.fault .noent hnoent with ⟨hbad, -⟩ | ⟨hbad, -⟩ <;> cases hbad
    · obtain hbad | ⟨hzero, hfits⟩ := hload
      · exact absurd hbad hseek
      · have heq : file.content = D := by
          rcases hfile with heq | ⟨hall, hle⟩
          · exact heq
          · have hD : D = [] := List.length_eq_zero_iff.mp (by omega)
            have hC : file.content = [] := List.length_eq_zero_iff.mp (by omega)
            rw [hC, hD]
        subst heq
        rw [hzero, Nat.zero_add]
        exact load_whole h hzero (by simpa using hseek) hcontent hfits hlen (by omega)
  · have hbytes : file.bytes = [] := if_neg hcontent
    refine ⟨.error .noent, buf, readOf_none (by simpa using hcontent) _ _, hsame ?_ _ (.inr rfl)⟩
    rcases hfile with heq | ⟨hall, -⟩
    · rw [← heq, hbytes]
      exact Nat.zero_le _
    · exact Nat.le_of_eq hall.symm

/-! ## Streams -/

/-- The stream stands for a byte string with a position. -/
structure Tracks (s : Shfstream) (f : ByteFile) : Prop where
  isOpen : s.isOpen = true
  max : s.max = f.content.length
  pos : s.pos = f.pos
  pos_le : f.pos ≤ f.content.length
  holds : Holds f.content s.buff
  /-- the content does not get shorter -/
  stored : s.file.bytes.length ≤ f.content.length
  /-- what has not been loaded is in the file -/
  clean : s.dirty = false ∨ s.buff.dataOf < f.content.length → s.file.bytes = f.content
  /-- a stream that has been written to is all in the map -/
  whole : s.dirty = true → f.content.length ≤ s.buff.dataOf
  aligned : s.file.format.seeks = true → s.buff.dataOf < f.content.length →
    blockDataSize ∣ s.buff.dataOf

variable {s : Shfstream} {f : ByteFile}

/-- The stream with another map of the same content. -/
theorem Tracks.withBuff (h : Tracks s f) {buff : Shbuf} (hholds : Holds f.content buff)
    (hgrows : s.buff.dataOf ≤ buff.dataOf)
    (hrest : buff.dataOf < f.content.length → s.file.bytes = f.content)
    (halign : s.file.format.seeks = true →
      buff.dataOf < f.content.length → blockDataSize ∣ buff.dataOf) :
    Tracks { s with buff := buff } f where
  isOpen := h.isOpen
  max := h.max
  pos := h.pos
  pos_le := h.pos_le
  holds := hholds
  stored := h.stored
  clean hcase := hcase.elim (fun hclean => h.clean (.inl hclean)) hrest
  whole hdirty := Nat.le_trans (h.whole hdirty) hgrows
  aligned := halign

/-- More room for the buffer changes nothing that can be seen. -/
theorem Tracks.expand (h : Tracks s f) (size : Nat) : Tracks (shfstreamAllocExpand s size) f :=
  h.withBuff (h.holds.grow _) (Nat.le_of_eq (shbufGrowanon_of _ _).symm)
    (by rw [shbufGrowanon_of]; exact fun hlt => h.clean (.inr hlt))
    (by rw [shbufGrowanon_of]; exact h.aligned)

/-- The file has the content that is tracked, or the buffer holds all of it. -/
theorem Tracks.file_cases (h : Tracks s f) :
    s.file.bytes = f.content ∨
      s.buff.dataOf = f.content.length ∧ s.file.bytes.length ≤ f.content.length := by
  by_cases hlt : s.buff.dataOf < f.content.length
  · exact .inl (h.clean (.inr hlt))
  · exact .inr ⟨Nat.le_antisymm h.holds.le_length (Nat.not_lt.mp hlt), h.stored⟩

/-- What `shfstream_alloc` leaves: the stream, with the bytes that were asked for in the map. -/
structure Alloced (layer : FileLayer) (s : Shfstream) (f : ByteFile) (size : Nat)
    (r : Except Sherr Unit) (s' : Shfstream) : Prop where
  tracks : Tracks s' f
  room : size ≤ s'.buff.dataMax
  dirty : s'.dirty = s.dirty
  file : s'.file = s.file
  done : r = .ok () → min size f.content.length ≤ s'.buff.dataOf
  fault : ∀ err, r = .error err → layer.Faulty err

/-- The load proper, in a map that has grown. -/
theorem alloc_load (layer : FileLayer) {size : Nat} (h : Tracks s f)
    (hroom : size + blockDataSize ≤ s.buff.dataMax) (hmore : s.buff.dataOf < size)
    (hload : s.file.format.seeks = true ∨ s.buff.dataOf = 0 ∧
      (s.file.format.unbounded = true → s.file.content.length ≤ s.buff.dataMax)) :
    ∃ r buff, shfsReadOf layer s.file.content s.file.format s.buff s.buff.dataOf
        (size - s.buff.dataOf) = some (r, buff) ∧
      Loaded layer s.file f.content s.buff size r buff := by
  obtain ⟨r, buff, hrun, hloaded⟩ := load_more layer (size - s.buff.dataOf) h.holds
    (by omega) (by omega) h.aligned h.file_cases hload
  rw [show s.buff.dataOf + (size - s.buff.dataOf) = size by omega] at hloaded
  exact ⟨r, buff, hrun, hloaded⟩

/-- `shfstream_alloc` on a stream that stands for a byte string. -/
theorem alloc_spec (layer : FileLayer) {size : Nat} (h : Tracks s f) (hload : s.Loads size) :
    ∃ r s', shfstreamAlloc layer s size = some (r, s') ∧ Alloced layer s f size r s' := by
  rw [shfstreamAlloc]
  by_cases hhere : size < s.buff.dataOf
  · rw [if_pos hhere]
    exact ⟨.ok (), s, rfl, h, Nat.le_trans (Nat.le_of_lt hhere) h.holds.le_max, rfl, rfl,
      (fun _ => Nat.le_trans (Nat.min_le_left _ _) (Nat.le_of_lt hhere)), fun _ herr =>
        nomatch herr⟩
  rw [if_neg hhere]
  dsimp only
  -- the buffer is enlarged, and what it lacks is read from the file
  have hexp := h.expand size
  have hof : (shfstreamAllocExpand s size).buff.dataOf = s.buff.dataOf := shbufGrowanon_of _ _
  have hroom : size + blockDataSize ≤ (shfstreamAllocExpand s size).buff.dataMax :=
    Nat.le_trans (allocLen_le size) (shbufGrowanon_max _ _).1
  have hlen : min size (shfstreamAllocExpand s size).buff.dataMax -
      (shfstreamAllocExpand s size).buff.dataOf = size - s.buff.dataOf := by
    rw [hof]
    omega
  rw [hlen]
  split_ifs with hzero
  · have hall : s.buff.dataOf = size := by omega
    exact ⟨.ok (), _, rfl, hexp, by omega, rfl, rfl,
      (fun _ => by rw [hof, hall]; exact Nat.min_le_left _ _), fun _ herr => nomatch herr⟩
  · have hcase : s.file.format.seeks = true ∨ s.buff.dataOf = 0 ∧
        (s.file.format.unbounded = true → s.file.content.length ≤
          (shfstreamAllocExpand s size).buff.dataMax) := by
      rcases hload with hle | hcase
      · omega
      · exact hcase
    obtain ⟨r, buff, hrun, hloaded⟩ :=
      alloc_load (s := shfstreamAllocExpand s size) layer hexp hroom
      (by rw [hof]; omega) (by rw [hof]; exact hcase)
    rw [hof] at hrun
    have htracks : Tracks { shfstreamAllocExpand s size with buff := buff } f :=
      hexp.withBuff hloaded.holds hloaded.grows hloaded.rest hloaded.aligned
    have hsize : size ≤ buff.dataMax := by
      rw [hloaded.max]
      omega
    rw [hof, hrun]
    -- the file may end early, which is no error
    rcases r with err | u
    · by_cases hnoent : err = .noent
      · subst hnoent
        exact ⟨.ok (), _, rfl, htracks, hsize, rfl, rfl, (fun _ => hloaded.done (.inr rfl)),
          fun _ herr => nomatch herr⟩
      · refine ⟨.error err, { shfstreamAllocExpand s size with buff := buff }, ?_, htracks,
          hsize, rfl, rfl, (fun hok => nomatch hok), fun err' herr => ?_⟩
        · cases err <;> first | rfl | exact absurd rfl hnoent
        · cases herr
          exact (hloaded.fault err rfl).resolve_left hnoent
    · exact ⟨.ok (), _, rfl, htracks, hsize, rfl, rfl, (fun _ => hloaded.done (.inl rfl)),
        fun _ herr => nomatch herr⟩

/-- Bytes of the buffer are those of the data. -/
theorem Holds.slice (h : Holds D buf) {a n : Nat} (hle : a + n ≤ buf.dataOf) :
    slice buf.data a n = (D.drop a).take n := by
  have hdrop := @Shbuf.drop_contents buf a (by omega)
  rw [h.contents, show buf.dataOf - a = n + (buf.dataOf - a - n) by omega, slice_append] at hdrop
  have htake := congrArg (List.take n) hdrop
  rw [List.take_append_of_le_length (Nat.le_of_eq (length_slice _ _ _).symm), List.drop_take,
    List.take_take, Nat.min_eq_left (by omega)] at htake
  rw [htake, List.take_of_length_le (Nat.le_of_eq (length_slice _ _ _))]

/-- A position within the content can be taken. -/
theorem Tracks.setpos (h : Tracks s f) {pos : Nat} (hle : pos ≤ f.content.length) :
    (shfstreamSetpos s pos).1 = .ok () ∧ Tracks (shfstreamSetpos s pos).2
    { f with pos := pos } := by
  rw [shfstreamSetpos, if_neg (by rw [h.max]; omega)]
  exact ⟨rfl, h.isOpen, h.max, rfl, hle, h.holds, h.stored, h.clean, h.whole, h.aligned⟩

/-- What a call on the stream is: a step of the byte string, which the stream then stands for. -/
structure Stepped (layer : FileLayer) (s : Shfstream) (f : ByteFile) (op : StreamOp)
    (out : StreamOut) (s' : Shfstream) (f' : ByteFile) : Prop where
  run : op.run layer s = some (out, s')
  step : f.Step layer op out f'
  tracks : Tracks s' f'
  stored : op = .flush → out = .status (.ok ()) → s'.file.bytes = f'.content

/-- `setpos` is a step of the byte file. -/
theorem setpos_step (layer : FileLayer) (h : Tracks s f) (pos : Nat) :
    ∃ out s' f', Stepped layer s f (.setpos pos) out s' f' := by
  by_cases hle : pos ≤ f.content.length
  · obtain ⟨hok, htracks⟩ := h.setpos hle
    exact ⟨_, _, _, by rw [StreamOp.run, hok], .setpos hle, htracks, fun hop => nomatch hop⟩
  · refine ⟨_, s, f, ?_, .beyond (Nat.not_le.mp hle), h, fun hop => nomatch hop⟩
    rw [StreamOp.run, shfstreamSetpos, if_pos (by rw [h.max]; omega)]

/-- A read whose load fails. -/
theorem read_error {size : Nat} {err : Sherr} {s₁ : Shfstream} (hopen : s.isOpen = true)
    (hsome : min size (s.max - s.pos) ≠ 0)
    (halloc : shfstreamAlloc layer s (s.maxSeek (min size (s.max - s.pos))) =
      some (.error err, s₁)) :
    shfstreamRead layer s size = some (.error err, s₁) := by
  rw [shfstreamRead, hopen, if_neg (by decide)]
  dsimp only
  rw [if_neg hsome, halloc]

/-- A read of what has been loaded. -/
theorem read_ok {size : Nat} {s₁ : Shfstream} (hopen : s.isOpen = true)
    (hsome : min size (s.max - s.pos) ≠ 0)
    (halloc : shfstreamAlloc layer s (s.maxSeek (min size (s.max - s.pos))) = some (.ok (), s₁))
    (hfits : s₁.pos + min size (s.max - s.pos) ≤ s₁.buff.dataMax) :
    shfstreamRead layer s size = some (.ok (LibShare.slice s₁.buff.data s₁.pos
      (min size (s.max - s.pos))), (shfstreamSetpos s₁ (s₁.pos + min size (s.max - s.pos))).2) := by
  rw [shfstreamRead, hopen, if_neg (by decide)]
  dsimp only
  rw [if_neg hsome, halloc]
  dsimp only
  rw [if_pos hfits]

/-- A read is a step of the byte file, once what it needs is loaded. -/
theorem read_step (layer : FileLayer) (h : Tracks s f) (size : Nat)
    (hload : s.Loads (StreamOp.load s (.read size))) :
    ∃ out s' f', Stepped layer s f (.read size) out s' f' := by
  have hmax := h.max
  have hpos := h.pos
  have hpos_le := h.pos_le
  -- as many bytes as there are
  have hpeek : f.peek size = (f.content.drop f.pos).take (min size (s.max - s.pos)) := by
    rw [ByteFile.peek, hmax, hpos, List.take_eq_take_min, List.length_drop]
  have hlength : (f.peek size).length = min size (s.max - s.pos) := by
    rw [hpeek, List.length_take, List.length_drop]
    omega
  by_cases hzero : min size (s.max - s.pos) = 0
  · have hnone : f.peek size = [] := by rw [hpeek, hzero, List.take_zero]
    refine ⟨.read (.ok []), s, { f with pos := f.pos + (f.peek size).length }, ?_, ?_, ?_,
      fun hop => nomatch hop⟩
    · rw [StreamOp.run, shfstreamRead, h.isOpen, if_neg (by decide)]
      dsimp only
      rw [if_pos hzero]
      rfl
    · have hstep : f.Step layer (.read size) _ _ := .read size
      rwa [hnone] at hstep ⊢
    · rw [hnone]
      exact h
  · rw [StreamOp.load, if_neg hzero] at hload
    obtain ⟨r, s₁, halloc, hs₁⟩ := alloc_spec layer h hload
    rcases r with err | u
    · exact ⟨.read (.error err), s₁, f, by rw [StreamOp.run, read_error h.isOpen hzero halloc]; rfl,
        .unread (hs₁.fault err rfl), hs₁.tracks, fun hop => nomatch hop⟩
    · have hseek : s.pos + min size (s.max - s.pos) ≤ s.maxSeek (min size (s.max - s.pos)) := by
        have := Nat.le_max_left (min size (s.max - s.pos)) 16777216
        exact Nat.le_min.mpr ⟨Nat.add_le_add_left this _, by omega⟩
      have hthere : s₁.pos + min size (s.max - s.pos) ≤ s₁.buff.dataOf := by
        have hdone := hs₁.done rfl
        rw [hs₁.tracks.pos, ← hpos]
        refine Nat.le_trans (Nat.le_min.mpr ⟨hseek, ?_⟩) hdone
        omega
      have hbytes : slice s₁.buff.data s₁.pos (min size (s.max - s.pos)) = f.peek size := by
        rw [hs₁.tracks.holds.slice hthere, hs₁.tracks.pos, hpeek]
      have hend : f.pos + (f.peek size).length ≤ f.content.length := by omega
      obtain ⟨-, htracks⟩ := hs₁.tracks.setpos hend
      refine ⟨.read (.ok (f.peek size)), _, _, ?_, .read size, htracks, fun hop => nomatch hop⟩
      rw [StreamOp.run, read_ok h.isOpen hzero halloc
        (Nat.le_trans hthere hs₁.tracks.holds.le_max), hbytes, hlength, hs₁.tracks.pos]
      rfl

/-- The content grows to the end of what is written. -/
theorem ByteFile.length_put (f : ByteFile) (data : Bytes) (hpos : f.pos ≤ f.content.length) :
    (f.put data).content.length = Nat.max f.content.length (f.pos + data.length) := by
  show (f.content.take f.pos ++ data ++ f.content.drop (f.pos + data.length)).length = max _ _
  rw [List.length_append, List.length_append, List.length_take, List.length_drop]
  omega

/-- The map with the bytes copied into it. -/
def Shbuf.copied (buf : Shbuf) (pos : Nat) (data : Bytes) : Shbuf :=
  { buf with data := poke buf.data pos data, dataOf := Nat.max buf.dataOf (pos + data.length) }

/-- Bytes that are copied into a map with all of the content. -/
theorem Holds.put {f : ByteFile} (h : Holds f.content buf) (hall : f.content.length ≤ buf.dataOf)
    (hpos : f.pos ≤ f.content.length) (data : Bytes) (hroom : f.pos + data.length ≤ buf.dataMax) :
    Holds (f.put data).content (Shbuf.copied buf f.pos data) := by
  have hof : buf.dataOf = f.content.length := Nat.le_antisymm h.le_length hall
  have hlen := f.length_put data hpos
  have hend : (Shbuf.copied buf f.pos data).dataOf = (f.put data).content.length := by
    rw [hlen, ← hof]
    rfl
  refine ⟨Nat.max_le.mpr ⟨h.le_max, hroom⟩, Nat.le_of_eq hend, ?_⟩
  · rw [Shbuf.contents, hend, List.take_length, hlen]
    show LibShare.slice (poke buf.data f.pos data) 0 _ = _
    -- before, over and behind the bytes that are copied
    have hsum : Nat.max f.content.length (f.pos + data.length) =
        f.pos + (data.length + (f.content.length - (f.pos + data.length))) := by
      rcases Nat.le_total f.content.length (f.pos + data.length) with hle | hle
      · rw [show Nat.max f.content.length (f.pos + data.length) = f.pos + data.length from
          Nat.max_eq_right hle]
        omega
      · rw [show Nat.max f.content.length (f.pos + data.length) = f.content.length from
          Nat.max_eq_left hle]
        omega
    rw [hsum, slice_append, slice_append, Nat.zero_add, slice_poke,
      slice_poke_ne (.inl (Nat.le_of_eq (Nat.zero_add _))), slice_poke_ne (.inr (Nat.le_refl _)),
      h.slice (by omega), List.drop_zero, ByteFile.put, List.append_assoc]
    congr 2
    by_cases hmore : f.pos + data.length ≤ f.content.length
    · rw [h.slice (by omega), List.take_of_length_le (by rw [List.length_drop])]
    · rw [show f.content.length - (f.pos + data.length) = 0 by omega,
        List.drop_of_length_le (by omega)]
      rfl

/-- What a write does to the stream, field by field. -/
theorem copyIn_eq (s : Shfstream) (data : Bytes) : s.copyIn data =
    { file := s.file
      buff := shbufGrowanon (Shbuf.copied s.buff s.pos data)
        (allocLen (Nat.max s.max (s.pos + data.length)))
      pos := s.pos + data.length
      max := Nat.max s.max (s.pos + data.length)
      isOpen := s.isOpen
      dirty := true } := by
  have hpos : ¬ Nat.max s.max (s.pos + data.length) < s.pos + data.length :=
    Nat.not_lt.mpr (Nat.le_max_right _ _)
  exact congrArg Prod.snd (if_neg hpos)

/-- The bytes that are copied into the buffer are those that are put into the byte file. -/
theorem Tracks.copyIn (h : Tracks s f) (data : Bytes) (hall : f.content.length ≤ s.buff.dataOf)
    (hfits : s.pos + data.length ≤ s.buff.dataMax) : Tracks (s.copyIn data) (f.put data) := by
  have hlen := f.length_put data h.pos_le
  have hof : s.buff.dataOf = f.content.length := Nat.le_antisymm h.holds.le_length hall
  have hput : Holds (f.put data).content (Shbuf.copied s.buff s.pos data) := by
    have hfits' : f.pos + data.length ≤ s.buff.dataMax := by rwa [← h.pos]
    rw [h.pos]
    exact h.holds.put hall h.pos_le data hfits'
  have hwhole : (shbufGrowanon (Shbuf.copied s.buff s.pos data)
      (allocLen (Nat.max s.max (s.pos + data.length)))).dataOf = (f.put data).content.length := by
    rw [shbufGrowanon_of, hlen, ← hof, ← h.pos]
    rfl
  rw [copyIn_eq]
  refine ⟨h.isOpen, ?_, ?_, ?_, hput.grow _, ?_, ?_, fun _ => Nat.le_of_eq hwhole.symm,
    fun _ hlt => absurd hwhole (Nat.ne_of_lt hlt)⟩
  · rw [hlen, h.max, h.pos]
  · show s.pos + data.length = f.pos + data.length
    rw [h.pos]
  · rw [hlen]
    exact Nat.le_max_right _ _
  · rw [hlen]
    exact Nat.le_trans h.stored (Nat.le_max_left _ _)
  · rintro (hclean | hlt)
    · cases hclean
    · exact absurd hwhole (Nat.ne_of_lt hlt)

/-- A write is a step of the byte file, once what it needs is loaded. -/
theorem write_step (layer : FileLayer) (h : Tracks s f) (data : Bytes)
    (hload : s.Loads (StreamOp.load s (.write data))) :
    ∃ out s' f', Stepped layer s f (.write data) out s' f' := by
  by_cases hzero : data.length = 0
  · have hnil : data = [] := List.length_eq_zero_iff.mp hzero
    subst hnil
    have hsame : f.put [] = f := by
      rw [ByteFile.put, List.append_nil, List.length_nil, Nat.add_zero, List.take_append_drop]
    refine ⟨.count (.ok 0), s, f, ?_, ?_, h, fun hop => nomatch hop⟩
    · rw [StreamOp.run, shfstreamWrite, h.isOpen, if_neg (by decide), if_pos hzero]
      rfl
    · have hstep : f.Step layer (.write []) _ _ := .write []
      rwa [hsame] at hstep
  · rw [StreamOp.load, if_neg hzero] at hload
    obtain ⟨r, s₁, halloc, hs₁⟩ := alloc_spec layer h hload
    have htr := hs₁.tracks
    rcases r with err | u
    · refine ⟨.count (.error err), s₁, f, ?_, .unwritten (hs₁.fault err rfl), htr, fun hop =>
        nomatch hop⟩
      rw [StreamOp.run, shfstreamWrite, h.isOpen, if_neg (by decide), if_neg hzero, halloc]
      rfl
    · -- all of the content has been loaded
      have hall : f.content.length ≤ s₁.buff.dataOf := by
        refine Nat.le_trans (Nat.le_min.mpr ⟨?_, Nat.le_refl _⟩) (hs₁.done rfl)
        rw [← h.max]
        exact Nat.le_max_right _ _
      have hfits : s₁.pos + data.length ≤ s₁.buff.dataMax := by
        rw [htr.pos, ← h.pos]
        exact Nat.le_trans (Nat.le_max_left _ _) hs₁.room
      refine ⟨.count (.ok data.length), s₁.copyIn data, f.put data, ?_, .write data,
        htr.copyIn data hall hfits, fun hop => nomatch hop⟩
      rw [StreamOp.run, shfstreamWrite, h.isOpen, if_neg (by decide), if_neg hzero, halloc]
      dsimp only
      rw [if_pos hfits]
      rfl

/-- A file that has been written has a content. -/
theorem hasContent_written : ∀ format : Shformat, format.written.hasContent = true := by
  intro format
  induction format with
  | reference ref ih => exact ih
  | _ => rfl

/-- The file holds what has been put into it. -/
theorem Shfl.bytes_put (file : Shfl) (data : Bytes) : (file.put data).bytes = data :=
  if_pos (hasContent_written file.format)

/-- A flush is a step of the byte file, unless it fails to write. -/
theorem flush_step (layer : FileLayer) (h : Tracks s f)
    (hwrite : s.dirty = true → layer.writeFault = none) :
    ∃ out s' f', Stepped layer s f .flush out s' f' := by
  by_cases hdirty : s.dirty = true
  · -- all of the content is in the map
    have hall : s.buff.dataOf = f.content.length :=
      Nat.le_antisymm h.holds.le_length (h.whole hdirty)
    have hbytes : (s.file.put s.buff.contents).bytes = f.content := by
      rw [Shfl.bytes_put, h.holds.contents, hall, List.take_length]
    have htracks : Tracks { s with file := s.file.put s.buff.contents, dirty := false } f :=
      ⟨h.isOpen, h.max, h.pos, h.pos_le, h.holds, Nat.le_of_eq (congrArg List.length hbytes),
        fun _ => hbytes, (fun hbad => nomatch hbad), fun _ hlt => absurd hall (Nat.ne_of_lt hlt)⟩
    refine ⟨.status (.ok ()), _, f, ?_, .flush, htracks, fun _ _ => hbytes⟩
    rw [StreamOp.run, shfstreamFlush, if_neg (by rw [h.isOpen]; decide),
      if_neg (by rw [hdirty]; decide)]
    dsimp only
    rw [if_neg (by rw [h.max, hall, Nat.sub_self]; exact fun hbad => hbad rfl), hwrite hdirty]
    rfl
  · have hclean : s.dirty = false := by simpa using hdirty
    refine ⟨.status (.ok ()), s, f, ?_, .flush, h, fun _ _ => h.clean (.inl hclean)⟩
    rw [StreamOp.run, shfstreamFlush, h.isOpen, hclean, if_neg (by decide), if_pos rfl]
    rfl

/-- Step lemma. -/
theorem Tracks.step (h : Tracks s f) {op : StreamOp} (hsafe : Safe layer s op) :
    ∃ out s' f', Stepped layer s f op out s' f' := by
  cases op with
  | setpos pos => exact setpos_step layer h pos
  | read size => exact read_step layer h size hsafe.load
  | write data => exact write_step layer h data hsafe.load
  | flush => exact flush_step layer h (hsafe.flush rfl)

/-- A new stream tracks its file from the first byte on. -/
theorem tracks_init {create : Bool} {file : Shfl} (hsize : file.size = file.bytes.length)
    (h : shfstreamInit create file = .ok s) : Tracks s { content := file.bytes, pos := 0 } := by
  have hempty : Holds file.bytes shbufInit := ⟨Nat.le_refl _, Nat.zero_le _, rfl⟩
  unfold shfstreamInit at h
  split_ifs at h with hnull hcreate
  · cases h
    have hbytes : file.bytes = [] := if_neg (by rw [hnull]; decide)
    exact ⟨rfl, by rw [hbytes]; rfl, rfl, Nat.zero_le _, hempty, Nat.le_refl _, fun _ => rfl,
      (fun hbad => nomatch hbad), fun _ _ => Nat.dvd_zero _⟩
  · cases h
    exact ⟨rfl, hsize, rfl, Nat.zero_le _, hempty, Nat.le_refl _, fun _ => rfl,
      (fun hbad => nomatch hbad), fun _ _ => Nat.dvd_zero _⟩

/-- The byte string after a step is determined by what the step returned. -/
theorem ByteFile.Step.unique {op : StreamOp} {out : StreamOut} {f' f'' : ByteFile}
    (h : f.Step layer op out f') (h' : f.Step layer op out f'') : f'' = f' := by
  cases h <;> cases h' <;> rfl

/-- Run lemma. -/
theorem StreamRun.tracks {file : Shfl} (hsize : file.size = file.bytes.length)
    (h : StreamRun Safe file s f) : Tracks s f := by
  induction h with
  | opened hopen => exact tracks_init hsize hopen
  | step _ hsafe hrun hstep ih =>
    obtain ⟨out, s', f', hstepped⟩ := ih.step hsafe
    cases hrun.symm.trans hstepped.run
    rw [← hstep.unique hstepped.step]
    exact hstepped.tracks

/-- **Refinement.** In every run of safe steps on a file whose inode has the size of its content,
every call does what it does to a byte string with a position, and a flush that succeeds
has stored the byte string. -/
theorem stream_refines (file : Shfl) (hsize : file.size = file.bytes.length) (s : Shfstream)
    (f : ByteFile) (hrun : StreamRun Safe file s f) (layer : FileLayer) (op : StreamOp)
    (hsafe : Safe layer s op) :
    ∃ out s' f', op.run layer s = some (out, s') ∧ f.Step layer op out f' ∧ s'.pos = f'.pos ∧
      s'.max = f'.content.length ∧
      (op = .flush → out = .status (.ok ()) → s'.file.bytes = f'.content) := by
  obtain ⟨out, s', f', hstepped⟩ := (hrun.tracks hsize).step hsafe
  exact ⟨out, s', f', hstepped.run, hstepped.step, hstepped.tracks.pos, hstepped.tracks.max,
    hstepped.stored⟩

/-- Nothing fails. -/
def FileLayer.calm : FileLayer :=
  { blockFault := fun _ => false, memFault := false, writeFault := none }

/-- A file with the content "hello". -/
def helloFile (format : Shformat) : Shfl :=
  { format := format, size := 5, content := [104, 101, 108, 108, 111] }

/-- The stream on that file. -/
def helloStream (format : Shformat) : Shfstream :=
  { file := helloFile format
    buff := shbufInit
    pos := 0
    max := 5
    isOpen := true
    dirty := false }

/-- Behind the first byte of a binary file, five others are written, and flushed. -/
theorem stream_refines_hello : ∃ s s',
    StreamRun Safe (helloFile .binary) s ⟨[104, 69, 76, 76, 79, 33], 6⟩ ∧
    StreamOp.run .calm s .flush = some (.status (.ok ()), s') ∧
    s'.file.bytes = [104, 69, 76, 76, 79, 33] := by
  have hfacts : (StreamOp.run .calm (helloStream .binary) (.setpos 1)).bind (fun r =>
      (StreamOp.run .calm r.2 (.write [69, 76, 76, 79, 33])).map fun r' =>
        (decide (r.1 = .status (.ok ())), r.2.file.format.seeks, decide (r'.1 = .count (.ok 5)))) =
      some (true, true, true) := by decide +kernel
  obtain ⟨⟨out₁, s₁⟩, hseek, hrest⟩ := Option.bind_eq_some_iff.mp hfacts
  obtain ⟨⟨out₂, s₂⟩, hwrite, hpair⟩ := Option.map_eq_some_iff.mp hrest
  simp only [Prod.mk.injEq, decide_eq_true_eq] at hpair
  obtain ⟨rfl, hseeks, rfl⟩ := hpair
  have hopen : StreamRun Safe (helloFile .binary) (helloStream .binary)
      ⟨(helloFile .binary).bytes, 0⟩ :=
    .opened (show shfstreamInit false (helloFile .binary) = .ok (helloStream .binary) from rfl)
  have hrun := hopen.step ⟨.inr (.inl rfl), fun hop => by cases hop⟩ hseek (.setpos (by decide))
  have hrun := hrun.step ⟨.inr (.inl hseeks), fun hop => by cases hop⟩ hwrite (.write _)
  obtain ⟨out, s', f', hflush, hstep, -, -, hstored⟩ :=
    stream_refines (helloFile .binary) rfl s₂ _ hrun .calm .flush ⟨.inl (Nat.zero_le _),
      fun _ _ => rfl⟩
  cases hstep
  exact ⟨s₂, s', hrun, hflush, hstored rfl rfl⟩

/-- What the calls return, one after the other. -/
def StreamOp.outs (layer : FileLayer) : List StreamOp → Shfstream → Option (List StreamOut)
  | [], _ => some []
  | op :: ops, s => (op.run layer s).bind fun r => (outs layer ops r.2).map (r.1 :: ·)

/-- A run with a result begins with a step that has one. -/
theorem StreamOp.outs_cons {op : StreamOp} {ops : List StreamOp} {out : StreamOut}
    {outs : List StreamOut}
    (h : StreamOp.outs layer (op :: ops) s = some (out :: outs)) :
    ∃ s', op.run layer s = some (out, s') ∧ StreamOp.outs layer ops s' = some outs := by
  obtain ⟨⟨_, s'⟩, hrun, hmap⟩ := Option.bind_eq_some_iff.mp h
  obtain ⟨_, houts, heq⟩ := Option.map_eq_some_iff.mp hmap
  cases heq
  exact ⟨s', hrun, houts⟩

/-- Two bytes are written at the end of a compressed file, and the file is read. The second
write has put the content behind the buffer once more, and has cut off what was there. -/
theorem compressed_file_damaged : ¬ ∀ (file : Shfl), file.size = file.bytes.length →
    ∀ (s : Shfstream) (f : ByteFile), StreamRun (fun _ _ _ => True) file s f →
    ∀ (layer : FileLayer) (op : StreamOp),
    ∃ out s' f', op.run layer s = some (out, s') ∧ f.Step layer op out f' ∧ s'.pos = f'.pos ∧
      s'.max = f'.content.length ∧
      (op = .flush → out = .status (.ok ()) → s'.file.bytes = f'.content) := by
  intro hall
  have hopen : StreamRun (fun _ _ _ => True) (helloFile .compress) (helloStream .compress)
      ⟨(helloFile .compress).bytes, 0⟩ :=
    .opened (show shfstreamInit false (helloFile .compress) = .ok (helloStream .compress) from rfl)
  have houts : StreamOp.outs .calm [.setpos 5, .write [88], .write [89], .setpos 0, .read 10]
      (helloStream .compress) = some [.status (.ok ()), .count (.ok 1), .count (.ok 1),
        .status (.ok ()), .read (.ok [104, 0, 0, 0, 0, 0, 89])] := by decide +kernel
  obtain ⟨s₁, hseek, houts⟩ := StreamOp.outs_cons houts
  obtain ⟨s₂, hwrite, houts⟩ := StreamOp.outs_cons houts
  obtain ⟨s₃, hagain, houts⟩ := StreamOp.outs_cons houts
  obtain ⟨s₄, hback, houts⟩ := StreamOp.outs_cons houts
  obtain ⟨s₅, hread, -⟩ := StreamOp.outs_cons houts
  have hrun := hopen.step trivial hseek (.setpos (by decide))
  have hrun := hrun.step trivial hwrite (.write [88])
  have hrun := hrun.step trivial hagain (.write [89])
  have hrun := hrun.step trivial hback (.setpos (Nat.zero_le _))
  obtain ⟨out, s', f', hrun', hstep, -⟩ := hall (helloFile .compress) rfl s₄ _ hrun .calm (.read 10)
  rw [hread] at hrun'
  cases hrun'
  -- the byte string reads "helloXY"
  exact nomatch hstep

end LibShare.Fs
