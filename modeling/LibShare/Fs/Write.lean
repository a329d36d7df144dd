import LibShare.Fs.Content

/-!
# libshare — writing the content of an inode

Writing reuses the blocks of the chain and adds new ones at its end. The
position of a new block is looked for before the block it follows has been
stored. If that block is new too, and the journal that its name selects is the
one it lies in, the same free block is found a second time, and the chain comes
out one block short.

* `SlotsFound` — every block that the write adds finds a position.
* `SlotsApart` — no position is found twice either.
* `loop_chain` — the chain after the loop of `shfs_aux_pwrite`, in every case.
-/

namespace LibShare.Fs

/-! ## The positions of new blocks -/

/-- Each of the `n` blocks that a write adds after `blk` finds a position. -/
def SlotsFound (env : Env) : Nat → Shfs → Block → Prop
  | 0, _, _ => True
  | n + 1, fs, blk =>
    match shfsAuxPwriteCreate env fs blk with
    | .error _ => False
    | .ok (fs, blk, nblk) => SlotsFound env n (fs.store blk) nblk

/-- No block that a write adds is followed by another one whose position is
looked for in the journal it lies in itself. `n` blocks are to be added after
`blk`, which is not in the store yet if its position is free. -/
def SlotsApart (env : Env) : Nat → Shfs → Block → Prop
  | 0, _, _ => True
  | n + 1, fs, blk =>
    (fs.live blk.pos ∨ env.journalIndex blk.name ≠ blk.pos.jno) ∧
      match shfsAuxPwriteCreate env fs blk with
      | .error _ => False
      | .ok (fs, blk, nblk) => SlotsApart env n (fs.store blk) nblk

instance decSlotsFound (env : Env) : (n : Nat) → (fs : Shfs) → (blk : Block) →
    Decidable (SlotsFound env n fs blk)
  | 0, _, _ => inferInstanceAs (Decidable True)
  | n + 1, fs, blk =>
    match h : shfsAuxPwriteCreate env fs blk with
    | .error _ => isFalse (by rw [SlotsFound, h]; exact not_false)
    | .ok (fs', blk', nblk) =>
      have : Decidable (SlotsFound env n (fs'.store blk') nblk) :=
        decSlotsFound env n (fs'.store blk') nblk
      decidable_of_iff (SlotsFound env n (fs'.store blk') nblk) (by rw [SlotsFound, h])

instance decSlotsApart (env : Env) : (n : Nat) → (fs : Shfs) → (blk : Block) →
    Decidable (SlotsApart env n fs blk)
  | 0, _, _ => inferInstanceAs (Decidable True)
  | n + 1, fs, blk =>
    match h : shfsAuxPwriteCreate env fs blk with
    | .error _ => isFalse (by rw [SlotsApart, h]; exact fun hcon => hcon.2)
    | .ok (fs', blk', nblk) =>
      have : Decidable (SlotsApart env n (fs'.store blk') nblk) :=
        decSlotsApart env n (fs'.store blk') nblk
      decidable_of_iff ((fs.live blk.pos ∨ env.journalIndex blk.name ≠ blk.pos.jno) ∧
        SlotsApart env n (fs'.store blk') nblk) (by rw [SlotsApart, h])

/-- Stores that a scan cannot tell apart. -/
structure SameSlots (fs fs' : Shfs) : Prop where
  live_iff : ∀ p, fs.live p ↔ fs'.live p
  size_eq : fs.size = fs'.size
  births_eq : fs.births = fs'.births

/-- A block is created alike in such stores. -/
theorem create_congr (env : Env) {fs fs' : Shfs} (h : SameSlots fs fs') (blk : Block) :
    (∃ err, shfsAuxPwriteCreate env fs blk = .error err ∧
      shfsAuxPwriteCreate env fs' blk = .error err) ∨
    ∃ fs1 fs1' blk1 nblk, shfsAuxPwriteCreate env fs blk = .ok (fs1, blk1, nblk) ∧
      shfsAuxPwriteCreate env fs' blk = .ok (fs1', blk1, nblk) ∧
      SameSlots (fs1.store blk1) (fs1'.store blk1) := by
  have hscan := scanRetry_congr (env.journalIndex blk.name) fs' h.live_iff h.size_eq
  unfold shfsAuxPwriteCreate shfsJournalScan
  cases hres : scanRetry fs (env.journalIndex blk.name) with
  | error err =>
    rw [hscan, hres]
    exact Or.inl ⟨err, rfl, rfl⟩
  | ok r =>
    obtain ⟨-, -, heq, -⟩ := scanRetry_ok hres
    have hb : r.1.births = fs.births := by rw [heq]
    rw [hscan, hres]
    simp only [Except.map, hb, h.births_eq]
    refine Or.inr ⟨_, _, _, _, rfl, rfl, ?_, rfl, by simp [Shfs.store, Shfs.born, hb, h.births_eq]⟩
    intro p
    by_cases hp : p = blk.pos
    · subst hp
      simp [Shfs.live, Shfs.store, Shfs.born]
    · have hblock : r.1.block p = fs.block p := by rw [heq]
      have := h.live_iff p
      simpa [Shfs.live, Shfs.store, Shfs.born, hp, hblock] using this

/-- Whether positions are found depends on the free blocks only. -/
theorem slotsFound_congr {env : Env} : ∀ {n : Nat} {fs fs' : Shfs} {blk : Block},
    SameSlots fs fs' → (SlotsFound env n fs blk ↔ SlotsFound env n fs' blk) := by
  intro n
  induction n with
  | zero =>
    intro fs fs' blk _
    exact Iff.rfl
  | succ n ih =>
    intro fs fs' blk h
    obtain ⟨err, h1, h2⟩ | ⟨fs1, fs1', blk1, nblk, h1, h2, hsame⟩ := create_congr env h blk
    · simp only [SlotsFound, h1, h2]
    · simp only [SlotsFound, h1, h2]
      exact ih hsame

/-- Whether they are apart depends on the free blocks only. -/
theorem slotsApart_congr {env : Env} : ∀ {n : Nat} {fs fs' : Shfs} {blk : Block},
    SameSlots fs fs' → (SlotsApart env n fs blk ↔ SlotsApart env n fs' blk) := by
  intro n
  induction n with
  | zero =>
    intro fs fs' blk _
    exact Iff.rfl
  | succ n ih =>
    intro fs fs' blk h
    simp only [SlotsApart, h.live_iff blk.pos]
    refine and_congr_right fun _ => ?_
    obtain ⟨err, h1, h2⟩ | ⟨fs1, fs1', blk1, nblk, h1, h2, hsame⟩ := create_congr env h blk
    · simp only [h1, h2]
    · simp only [h1, h2]
      exact ih hsame

/-- What `shfs_aux_pwrite_create` returns: the block with its next position,
and a new block for that position, the highest free one of its journal. -/
structure Created (env : Env) (fs fs1 : Shfs) (blk blk1 nblk : Block) : Prop where
  blk_eq : blk1 = { blk with npos := nblk.pos }
  jno_eq : nblk.pos.jno = env.journalIndex blk.name
  top : TopFree fs1 nblk.pos
  block_eq : fs1.block = fs.block
  size_le : ∀ j, fs.size j ≤ fs1.size j
  type_eq : nblk.type = .aux
  npos_eq : nblk.npos = Idx.zero
  fpos_eq : nblk.fpos = Idx.zero
  size_eq : nblk.size = 0
  again : TopFree fs blk.pos → env.journalIndex blk.name = blk.pos.jno → nblk.pos = blk.pos

/-- What is known of a new block. -/
theorem create_ok {env : Env} {fs fs1 : Shfs} {blk blk1 nblk : Block}
    (h : shfsAuxPwriteCreate env fs blk = .ok (fs1, blk1, nblk)) :
    Created env fs fs1 blk blk1 nblk := by
  unfold shfsAuxPwriteCreate at h
  split at h
  · cases h
  · next fs' idx hscan =>
    obtain ⟨hjno, htop, heq, hle⟩ := shfsJournalScan_ok hscan
    simp only [Except.ok.injEq, Prod.mk.injEq] at h
    obtain ⟨hfs, hblk, hnblk⟩ := h
    subst hfs hblk hnblk
    refine ⟨rfl, hjno, ⟨htop.ino_pos, htop.inMap, htop.size_le, htop.free, htop.above⟩, ?_, hle,
      rfl, rfl, rfl, rfl, fun hfree hj => ?_⟩
    · show fs'.block = fs.block
      rw [heq]
    · unfold shfsJournalScan at hscan
      rw [hj, scanRetry_top hfree] at hscan
      cases hscan
      rfl

/-! ## One pass -/

/-- A block that has been given its part of the data and stored. -/
structure Stored (fs fs' : Shfs) (blk : Block) (len : Nat) : Prop where
  block_eq : ∃ mtime, fs'.block =
    Function.update fs.block blk.pos { auxSeal blk len with mtime := mtime }
  size_eq : fs'.size = fs.size
  births_eq : fs'.births = fs.births

/-- The block that the store holds, or a block unlike the one to be written. -/
def Outdated (fs : Shfs) (oblk blk : Block) (data : Bytes) : Prop :=
  fs.block blk.pos = oblk ∨ (oblk.type = .null ∧ blk.type ≠ .null) ∨ (oblk.size = 0 ∧ data ≠ [])

/-- A block that is out of date is stored. -/
theorem auxStore_stored (env : Env) {fs : Shfs} (oblk blk : Block) (data : Bytes)
    (hmap : fs.inMap blk.pos) (hold : Outdated fs oblk blk data) :
    ∃ fs', auxStore env fs oblk (auxSeal blk (data.take blockDataSize).length) = (fs', .ok ()) ∧
      Stored fs fs' blk (data.take blockDataSize).length := by
  unfold auxStore
  split
  · next heq =>
    refine ⟨fs, rfl, ⟨(auxSeal blk (data.take blockDataSize).length).mtime, ?_⟩, rfl, rfl⟩
    rcases hold with hstore | ⟨hnull, hne⟩ | ⟨hzero, hdata⟩
    · rw [← heq, ← hstore, Function.update_eq_self]
    · rw [heq] at hnull
      exact absurd hnull hne
    · -- a block of size zero is not the one with data in it
      rw [heq] at hzero
      have hpos := List.length_pos_iff.mpr hdata
      have hb := blockDataSize_pos
      simp only [auxSeal, List.length_take] at hzero
      omega
  · have hmap' : fs.inMap (auxSeal blk (data.take blockDataSize).length).pos := hmap
    simp only [shfsInodeWriteBlock_ok hmap']
    exact ⟨_, rfl, ⟨_, rfl⟩, rfl, rfl⟩

theorem shfsAuxPwriteBlock_zero (blk : Block) (chunk : Bytes) (wof : Nat) :
    shfsAuxPwriteBlock blk chunk wof 0 =
      ({ blk with raw := overlay blk.raw 0 chunk }, wof + chunk.length) := by
  simp [shfsAuxPwriteBlock]

/-- One pass of the write loop: the block with its part of the data is stored,
and the loop goes on with the next one. -/
theorem loop_step {env : Env} {fs fs1 : Shfs} {blk blk1 nblk oblk : Block} {data : Bytes}
    (fuel wof : Nat) (segCrc : UInt64) (hpos : blk.pos.ino ≠ 0)
    (hnext : auxNext env fs blk (data.drop blockDataSize) = .ok (fs1, blk1, nblk))
    (hmap : fs1.inMap blk1.pos) (hold : Outdated fs1 oblk blk1 data) :
    ∃ fs2 wof' segCrc', Stored fs1 fs2
        { blk1 with raw := overlay blk1.raw 0 (data.take blockDataSize) }
        (data.take blockDataSize).length ∧
      shfsAuxPwriteLoop env 0 (fuel + 1) fs blk oblk data wof segCrc =
        shfsAuxPwriteLoop env 0 fuel fs2 nblk nblk (data.drop blockDataSize) wof' segCrc' := by
  simp only [shfsAuxPwriteLoop, if_neg hpos, hnext, shfsAuxPwriteBlock_zero]
  generalize hblk : ({ blk1 with raw := overlay blk1.raw 0 (data.take blockDataSize) } : Block) =
    blk2
  have hpos2 : blk2.pos = blk1.pos := by rw [← hblk]
  have htype2 : blk2.type = blk1.type := by rw [← hblk]
  have hold2 : Outdated fs1 oblk blk2 data := by
    unfold Outdated at hold ⊢
    rw [hpos2, htype2]
    exact hold
  obtain ⟨fs2, hstore, hstored⟩ := auxStore_stored env oblk blk2 data (hpos2 ▸ hmap) hold2
  rw [hstore]
  exact ⟨fs2, _, _, hstored, rfl⟩

/-- The end of the chain: there is no next block. -/
theorem loop_end (env : Env) (fuel : Nat) (fs : Shfs) (oblk : Block) (data : Bytes) (wof : Nat)
    (segCrc : UInt64) :
    shfsAuxPwriteLoop env 0 (fuel + 1) fs Block.zero oblk data wof segCrc =
      some (fs, .ok segCrc) := by
  simp [shfsAuxPwriteLoop, Block.zero, Idx.zero]

section Stored

variable {fs fs' : Shfs} {blk : Block} {len : Nat}

/-- The other blocks are as they were. -/
theorem Stored.block_ne (h : Stored fs fs' blk len) {p : Idx} (hp : p ≠ blk.pos) :
    fs'.block p = fs.block p := by
  obtain ⟨mtime, heq⟩ := h.block_eq
  rw [heq, Function.update_of_ne hp]

/-- The block itself has its size, its checksum and its time. -/
theorem Stored.block_self (h : Stored fs fs' blk len) :
    ∃ mtime, fs'.block blk.pos = { auxSeal blk len with mtime := mtime } := by
  obtain ⟨mtime, heq⟩ := h.block_eq
  exact ⟨mtime, by rw [heq, Function.update_self]⟩

/-- The block is in use, and the others are as they were. -/
theorem Stored.live_iff (h : Stored fs fs' blk len) (htype : blk.type ≠ .null) (p : Idx) :
    fs'.live p ↔ p = blk.pos ∨ fs.live p := by
  unfold Shfs.live
  by_cases hp : p = blk.pos
  · subst hp
    obtain ⟨mtime, heq⟩ := h.block_self
    rw [heq]
    simpa [auxSeal] using htype
  · rw [h.block_ne hp]
    simp [hp]

/-- The journals have the lengths they had. -/
theorem Stored.inMap_iff (h : Stored fs fs' blk len) (p : Idx) : fs'.inMap p ↔ fs.inMap p := by
  unfold Shfs.inMap
  rw [h.size_eq]

-- Storing some other block does not move the highest free one.
/-- Another block that was free at the top is so still. -/
theorem Stored.topFree (h : Stored fs fs' blk len) (htype : blk.type ≠ .null) {q : Idx}
    (hq : TopFree fs q) (hne : q ≠ blk.pos) : TopFree fs' q where
  ino_pos := hq.ino_pos
  inMap := (h.inMap_iff q).mpr hq.inMap
  size_le := by
    rw [h.size_eq]
    exact hq.size_le
  free := by
    rw [h.live_iff htype]
    rintro (heq | hlive)
    · exact hne heq
    · exact hq.free hlive
  above := by
    intro ino h1 h2
    rw [h.size_eq] at h2
    exact (h.live_iff htype _).mpr (Or.inr (hq.above ino h1 h2))

end Stored

/-! ## The loop -/

/-- A block keeps its identity: what is written into it is content, and a next
position if it had none. -/
structure SameNode (b b' : Block) : Prop where
  type_eq : b'.type = b.type
  fpos_eq : b'.fpos = b.fpos
  name_eq : b'.name = b.name
  npos_eq : b.npos.ino ≠ 0 → b'.npos = b.npos

/-- The chain of blocks after the loop has begun with `blk`, which the blocks
`old` followed. -/
structure Written (fs fs' : Shfs) (blk : Block) (old L : List Idx) : Prop where
  chain : Chain (nextOf fs') (some blk.pos) L
  cells : ∀ p ∈ L, p = blk.pos ∨ p ∈ old ∨ ¬ fs.live p
  frame : ∀ p, p ∉ L → fs'.block p = fs.block p
  live : ∀ p ∈ L, fs'.live p
  inMap : ∀ p ∈ L, fs'.inMap p
  pos_eq : ∀ p ∈ L, (fs'.block p).pos = p
  head_type : (fs'.block blk.pos).type = blk.type
  head_fpos : (fs'.block blk.pos).fpos = blk.fpos
  head_same : fs.block blk.pos = blk → SameNode blk (fs'.block blk.pos)
  kept : ∀ p ∈ L, p ≠ blk.pos → fs.live p → SameNode (fs.block p) (fs'.block p)
  fresh : ∀ p ∈ L, p ≠ blk.pos → ¬ fs.live p →
    (fs'.block p).type = .aux ∧ (fs'.block p).fpos = Idx.zero
  size_le : ∀ j, fs.size j ≤ fs'.size j

/-- The blocks of a chain carry the sizes of their parts of some bytes. -/
def Chunked (fs : Shfs) : Nat → List Idx → Prop
  | _, [] => True
  | n, p :: L => (fs.block p).size = min blockDataSize n ∧ Chunked fs (n - blockDataSize) L

/-- Blocks of the same sizes hold the same content as far as sizes go. -/
theorem chunked_congr {fs fs' : Shfs} : ∀ {L : List Idx} {n : Nat},
    (∀ p ∈ L, (fs'.block p).size = (fs.block p).size) → Chunked fs n L → Chunked fs' n L := by
  intro L
  induction L with
  | nil =>
    intro n _ _
    trivial
  | cons p L ih =>
    rintro n heq ⟨h1, h2⟩
    exact ⟨by rw [heq p (by simp), h1], ih (fun q hq => heq q (by simp [hq])) h2⟩

/-- The chain holds the data if no position was found twice, else it is too
short for it. -/
structure Fits (apart : Prop) (fs : Shfs) (L : List Idx) (data : Bytes) : Prop where
  whole : apart → (content fs L).take data.length = data
  short : ¬ apart → L.length < blocksFor data
  sizes : ∃ n, Chunked fs n L ∧ (apart → n = data.length)

/-- The block that the loop is about to write is the last one of the chain: one
that the store holds, or one that has just been given a free position. -/
structure AtEnd (fs : Shfs) (blk : Block) : Prop where
  ino_ne : blk.pos.ino ≠ 0
  type_ne : blk.type ≠ .null
  npos_eq : blk.npos.ino = 0
  inMap : fs.inMap blk.pos
  slot : fs.live blk.pos ∨ TopFree fs blk.pos ∧ blk.type = .aux ∧ blk.fpos = Idx.zero

-- The block that has been stored, as far as the chain is concerned.
/-- The first bytes of the content are those of the first block. -/
theorem Stored.head {fs fs' : Shfs} {blk : Block} {raw : Vector UInt8 blockDataSize} {len : Nat}
    (h : Stored fs fs' { blk with raw := raw } len) :
    (fs'.block blk.pos).pos = blk.pos ∧ (fs'.block blk.pos).npos = blk.npos ∧
      (fs'.block blk.pos).type = blk.type ∧ (fs'.block blk.pos).fpos = blk.fpos ∧
      (fs'.block blk.pos).name = blk.name ∧ (fs'.block blk.pos).raw = raw ∧
      (fs'.block blk.pos).size = len := by
  obtain ⟨mtime, heq⟩ := h.block_self
  have heq' : fs'.block blk.pos = { auxSeal { blk with raw := raw } len with mtime := mtime } := heq
  rw [heq']
  exact ⟨rfl, rfl, rfl, rfl, rfl, rfl, rfl⟩

theorem nextOf_congr {fs fs' : Shfs} {p : Idx} (h : fs'.block p = fs.block p) :
    nextOf fs' p = nextOf fs p := by
  unfold nextOf
  rw [h]

/-- The data is at its end: the chain is the block alone. -/
theorem loop_last {env : Env} {fuel : Nat} {fs fs' : Shfs} {blk oblk : Block} {data : Bytes}
    {wof : Nat} {segCrc : UInt64} {r : Except Sherr UInt64} (hend : AtEnd fs blk)
    (hold : Outdated fs oblk blk data) (hrest : data.drop blockDataSize = [])
    (h : shfsAuxPwriteLoop env 0 fuel fs blk oblk data wof segCrc = some (fs', r)) :
    ∃ crc, r = .ok crc ∧ Written fs fs' blk [] [blk.pos] ∧
      (content fs' [blk.pos]).take data.length = data ∧ Chunked fs' data.length [blk.pos] := by
  obtain _ | fuel := fuel
  · simp [shfsAuxPwriteLoop] at h
  have hnext : auxNext env fs blk (data.drop blockDataSize) = .ok (fs, blk, Block.zero) := by
    simp [auxNext, hend.npos_eq, hrest]
  obtain ⟨fs2, wof', crc', hstored, heq⟩ := loop_step fuel wof segCrc hend.ino_ne hnext
    hend.inMap hold
  rw [heq] at h
  obtain _ | fuel := fuel
  · simp [shfsAuxPwriteLoop] at h
  rw [loop_end] at h
  simp only [Option.some.injEq, Prod.mk.injEq] at h
  obtain ⟨rfl, rfl⟩ := h
  obtain ⟨hpos, hnpos, htype, hfpos, hname, hraw, hsize⟩ := hstored.head
  refine ⟨crc', rfl, ⟨⟨rfl, ?_⟩, ?_, ?_, ?_, ?_, ?_, htype, hfpos, ?_, ?_, ?_, ?_⟩, ?_,
    by rw [hsize, List.length_take], trivial⟩
  · show nextOf fs2 blk.pos = none
    rw [nextOf, hnpos, Idx.ref_of_eq hend.npos_eq]
  · intro p hp
    exact Or.inl (List.mem_singleton.mp hp)
  · intro p hp
    exact hstored.block_ne fun heq => hp (List.mem_singleton.mpr heq)
  · intro p hp
    exact (hstored.live_iff hend.type_ne p).mpr (Or.inl (List.mem_singleton.mp hp))
  · intro p hp
    rw [List.mem_singleton.mp hp]
    exact (hstored.inMap_iff _).mpr hend.inMap
  · intro p hp
    rw [List.mem_singleton.mp hp, hpos]
  · intro _
    exact ⟨htype, hfpos, hname, fun hne => absurd hend.npos_eq hne⟩
  · intro p hp hne _
    exact absurd (List.mem_singleton.mp hp) hne
  · intro p hp hne _
    exact absurd (List.mem_singleton.mp hp) hne
  · intro j
    rw [hstored.size_eq]
  · refine content_take_cons ?_ ?_
    · rw [hraw, overlay_toList _ (List.length_take_le _ _), List.take_left]
    · rw [hrest]
      rfl

/-- A position that has been found is not in use yet. -/
theorem Created.live_iff {env : Env} {fs fs1 : Shfs} {blk blk1 nblk : Block}
    (hc : Created env fs fs1 blk blk1 nblk) (p : Idx) : fs1.live p ↔ fs.live p := by
  rw [Shfs.live, Shfs.live, hc.block_eq]

-- The blocks in use once the block before the new one has been stored.
/-- What is in use after the first of two new blocks has been stored. -/
theorem Created.live_stored {env : Env} {fs fs1 fs2 : Shfs} {blk blk1 nblk : Block}
    {raw : Vector UInt8 blockDataSize} {len : Nat} (hc : Created env fs fs1 blk blk1 nblk)
    (hs : Stored fs1 fs2 { blk1 with raw := raw } len) (htype : blk.type ≠ .null) (p : Idx) :
    fs2.live p ↔ p = blk.pos ∨ fs.live p := by
  rw [hs.live_iff (by rw [hc.blk_eq]; exact htype), hc.live_iff, hc.blk_eq]

/-- A new block behind the one that has been stored: unless it was given the
position of that block once more, that block stays in front of it. -/
theorem Written.cons_new {env : Env} {fs fs1 fs2 fs' : Shfs} {blk blk1 nblk : Block}
    {raw : Vector UInt8 blockDataSize} {len : Nat} {L : List Idx} (hend : AtEnd fs blk)
    (hc : Created env fs fs1 blk blk1 nblk)
    (hs : Stored fs1 fs2 { blk1 with raw := raw } len) (hne : nblk.pos ≠ blk.pos)
    (hw : Written fs2 fs' nblk [] L) :
    blk.pos ∉ L ∧ Written fs fs' blk [] (blk.pos :: L) := by
  have hpos1 : blk1.pos = blk.pos := by rw [hc.blk_eq]
  have htype1 : blk1.type = blk.type := by rw [hc.blk_eq]
  have hlive := hc.live_stored hs hend.type_ne
  -- the blocks behind are new
  have hnew : ∀ p ∈ L, ¬ fs.live p ∧ p ≠ blk.pos := by
    intro p hp
    rcases hw.cells p hp with rfl | hold | hfree
    · exact ⟨fun hl => hc.top.free ((hc.live_iff _).mpr hl), hne⟩
    · cases hold
    · rw [hlive, not_or] at hfree
      exact ⟨hfree.2, hfree.1⟩
  have hnot : blk.pos ∉ L := fun hmem => (hnew _ hmem).2 rfl
  have hback : fs'.block blk.pos = fs2.block blk.pos := hw.frame _ hnot
  obtain ⟨hpos, hnpos, htype, hfpos, hname, -, -⟩ := hs.head
  rw [hpos1] at hpos hnpos htype hfpos hname
  have hmapLe : ∀ p, fs1.inMap p → fs'.inMap p := by
    intro p hp
    refine ⟨hp.1, Nat.lt_of_lt_of_le hp.2 ?_⟩
    rw [← hs.size_eq]
    exact hw.size_le _
  refine ⟨hnot, ⟨rfl, ?_⟩, ?_, ?_, ?_, ?_, ?_, ?_, ?_, ?_, ?_, ?_, ?_⟩
  · have hnext : nextOf fs' blk.pos = some nblk.pos := by
      rw [nextOf, hback, hnpos, hc.blk_eq]
      exact hc.top.ref
    rw [hnext]
    exact hw.chain
  · intro p hp
    rcases List.mem_cons.mp hp with rfl | hp
    · exact Or.inl rfl
    · exact Or.inr (Or.inr (hnew p hp).1)
  · intro p hp
    rw [List.mem_cons, not_or] at hp
    rw [hw.frame p hp.2, hs.block_ne (by rw [hpos1]; exact hp.1), hc.block_eq]
  · intro p hp
    rcases List.mem_cons.mp hp with rfl | hp
    · show (fs'.block blk.pos).type ≠ .null
      rw [hback, htype, htype1]
      exact hend.type_ne
    · exact hw.live p hp
  · intro p hp
    rcases List.mem_cons.mp hp with rfl | hp
    · exact hmapLe _ ⟨hend.inMap.1, Nat.lt_of_lt_of_le hend.inMap.2 (hc.size_le _)⟩
    · exact hw.inMap p hp
  · intro p hp
    rcases List.mem_cons.mp hp with rfl | hp
    · rw [hback, hpos]
    · exact hw.pos_eq p hp
  · rw [hback, htype, htype1]
  · rw [hback, hfpos, hc.blk_eq]
  · intro _
    refine ⟨by rw [hback, htype, htype1], by rw [hback, hfpos, hc.blk_eq],
      by rw [hback, hname, hc.blk_eq], fun hne => absurd hend.npos_eq hne⟩
  · intro p hp hpne hl
    rcases List.mem_cons.mp hp with rfl | hp
    · exact absurd rfl hpne
    · exact absurd hl (hnew p hp).1
  · intro p hp hpne _
    rcases List.mem_cons.mp hp with rfl | hp
    · exact absurd rfl hpne
    by_cases hpn : p = nblk.pos
    · subst hpn
      rw [hw.head_type, hw.head_fpos]
      exact ⟨hc.type_eq, hc.fpos_eq⟩
    · refine hw.fresh p hp hpn ?_
      rw [hlive, not_or]
      exact ⟨hpne, (hnew p hp).1⟩
  · intro j
    refine (hc.size_le j).trans ?_
    rw [← hs.size_eq]
    exact hw.size_le j

/-- A new block in the place of the one that has just been stored: the chain
goes on as if that block had not been there. -/
theorem Written.replace_new {env : Env} {fs fs1 fs2 fs' : Shfs} {blk blk1 nblk : Block}
    {raw : Vector UInt8 blockDataSize} {len : Nat} {L : List Idx} (hend : AtEnd fs blk)
    (hc : Created env fs fs1 blk blk1 nblk)
    (hs : Stored fs1 fs2 { blk1 with raw := raw } len) (heq : nblk.pos = blk.pos)
    (hw : Written fs2 fs' nblk [] L) : Written fs fs' blk [] L := by
  have hpos1 : blk1.pos = blk.pos := by rw [hc.blk_eq]
  have hlive := hc.live_stored hs hend.type_ne
  have hdead : ¬ fs.live blk.pos := by
    rw [← hc.live_iff, ← heq]
    exact hc.top.free
  -- a block in its own place has been reserved, so it is an empty one
  have haux : blk.type = .aux ∧ blk.fpos = Idx.zero := by
    rcases hend.slot with hl | ⟨-, h⟩
    · exact absurd hl hdead
    · exact h
  -- nothing but that block and free ones is written
  have hnew : ∀ p ∈ L, p = blk.pos ∨ ¬ fs.live p := by
    intro p hp
    rcases hw.cells p hp with rfl | hold | hfree
    · exact Or.inl heq
    · cases hold
    · rw [hlive, not_or] at hfree
      exact Or.inr hfree.2
  have hmem : blk.pos ∈ L := heq ▸ hw.chain.head_mem
  refine ⟨?_, ?_, ?_, hw.live, hw.inMap, hw.pos_eq, ?_, ?_, ?_, ?_, ?_, ?_⟩
  · rw [← heq]
    exact hw.chain
  · intro p hp
    rcases hnew p hp with rfl | hfree
    · exact Or.inl rfl
    · exact Or.inr (Or.inr hfree)
  · intro p hp
    have hpne : p ≠ blk.pos := fun h => hp (h ▸ hmem)
    rw [hw.frame p hp, hs.block_ne (by rw [hpos1]; exact hpne), hc.block_eq]
  · rw [← heq, hw.head_type, hc.type_eq, haux.1]
  · rw [← heq, hw.head_fpos, hc.fpos_eq, haux.2]
  · intro hstored
    refine absurd ?_ hdead
    rw [Shfs.live, hstored]
    exact hend.type_ne
  · intro p hp hpne hl
    rcases hnew p hp with rfl | hfree
    · exact absurd rfl hpne
    · exact absurd hl hfree
  · intro p hp hpne hfree
    refine hw.fresh p hp (by rw [heq]; exact hpne) ?_
    rw [hlive, not_or]
    exact ⟨hpne, hfree⟩
  · intro j
    refine (hc.size_le j).trans ?_
    rw [← hs.size_eq]
    exact hw.size_le j

/-- The new block is the last of the chain in turn. -/
theorem Created.atEnd {env : Env} {fs fs1 fs2 : Shfs} {blk blk1 nblk : Block}
    {raw : Vector UInt8 blockDataSize} {len : Nat} (hc : Created env fs fs1 blk blk1 nblk)
    (hs : Stored fs1 fs2 { blk1 with raw := raw } len) (htype : blk.type ≠ .null) :
    AtEnd fs2 nblk where
  ino_ne := by
    have := hc.top.ino_pos
    omega
  type_ne := by
    rw [hc.type_eq]
    decide
  npos_eq := by rw [hc.npos_eq]; rfl
  inMap := (hs.inMap_iff _).mpr hc.top.inMap
  slot := by
    by_cases hpos : nblk.pos = blk.pos
    · exact Or.inl ((hc.live_stored hs htype _).mpr (Or.inl hpos))
    · refine Or.inr ⟨hs.topFree ?_ hc.top ?_, hc.type_eq, hc.fpos_eq⟩
      · rw [hc.blk_eq]
        exact htype
      · rw [hc.blk_eq]
        exact hpos

/-- When the position of the block is found a second time. -/
theorem Created.again_iff {env : Env} {fs fs1 : Shfs} {blk blk1 nblk : Block}
    (hc : Created env fs fs1 blk blk1 nblk) (hend : AtEnd fs blk) :
    nblk.pos = blk.pos ↔ ¬ (fs.live blk.pos ∨ env.journalIndex blk.name ≠ blk.pos.jno) := by
  rw [not_or, not_not]
  constructor
  · intro heq
    refine ⟨?_, ?_⟩
    · rw [← hc.live_iff, ← heq]
      exact hc.top.free
    · rw [← hc.jno_eq, heq]
  · rintro ⟨hdead, hjno⟩
    rcases hend.slot with hlive | ⟨htop, -⟩
    · exact absurd hlive hdead
    · exact hc.again htop hjno

/-- A full block in front of the rest. -/
theorem Fits.chunked_cons {apart : Prop} {fs : Shfs} {p : Idx} {L : List Idx} {data : Bytes}
    (h : Fits apart fs L (data.drop blockDataSize)) (hrest : data.drop blockDataSize ≠ [])
    (hsize : (fs.block p).size = min blockDataSize data.length) :
    ∃ n, Chunked fs n (p :: L) ∧ (apart → n = data.length) := by
  obtain ⟨n, hchunk, heq⟩ := h.sizes
  have hlen := List.length_pos_iff.mpr hrest
  rw [List.length_drop] at hlen heq
  refine ⟨n + blockDataSize, ⟨by rw [hsize]; omega, ?_⟩, fun ha => ?_⟩
  · rw [Nat.add_sub_cancel]
    exact hchunk
  · rw [heq ha]
    omega

/-- The loop from the last block of the chain on. -/
theorem loop_new {env : Env} : ∀ {fuel : Nat} {fs fs' : Shfs} {blk oblk : Block} {data : Bytes}
    {wof : Nat} {segCrc : UInt64} {r : Except Sherr UInt64}, AtEnd fs blk →
    Outdated fs oblk blk data →
    shfsAuxPwriteLoop env 0 fuel fs blk oblk data wof segCrc = some (fs', r) →
    (¬ SlotsFound env (blocksFor data - 1) fs blk ∧ ∃ err, r = .error err) ∨
    (SlotsFound env (blocksFor data - 1) fs blk ∧ ∃ crc L, r = .ok crc ∧
      Written fs fs' blk [] L ∧ L.length ≤ blocksFor data ∧
      Fits (SlotsApart env (blocksFor data - 1) fs blk) fs' L data) := by
  intro fuel
  induction fuel with
  | zero =>
    intro fs fs' blk oblk data wof segCrc r _ _ h
    simp [shfsAuxPwriteLoop] at h
  | succ fuel ih =>
    intro fs fs' blk oblk data wof segCrc r hend hold h
    by_cases hrest : data.drop blockDataSize = []
    · obtain ⟨crc, hr, hw, htake, hchunk⟩ := loop_last hend hold hrest h
      have hn : blocksFor data = 1 := blocksFor_last hrest
      rw [hn]
      exact Or.inr ⟨trivial, crc, _, hr, hw, Nat.le_refl _, fun _ => htake,
        fun hnot => absurd trivial hnot, _, hchunk, fun _ => rfl⟩
    -- more data: a block is created before this one is stored
    have hn : blocksFor data - 1 = (blocksFor (data.drop blockDataSize) - 1) + 1 := by
      have := blocksFor_pos (data.drop blockDataSize)
      rw [blocksFor_drop hrest]
      omega
    cases hcreate : shfsAuxPwriteCreate env fs blk with
    | error err =>
      have hnext : auxNext env fs blk (data.drop blockDataSize) = .error err := by
        simp only [auxNext, hend.npos_eq, if_true, ne_eq, hrest, not_false_eq_true, hcreate]
      simp only [shfsAuxPwriteLoop, if_neg hend.ino_ne, hnext, Option.some.injEq,
        Prod.mk.injEq] at h
      refine Or.inl ⟨?_, err, h.2.symm⟩
      rw [hn, SlotsFound, hcreate]
      exact not_false
    | ok c =>
      obtain ⟨fs1, blk1, nblk⟩ := c
      have hc := create_ok hcreate
      have hnext : auxNext env fs blk (data.drop blockDataSize) = .ok (fs1, blk1, nblk) := by
        simp only [auxNext, hend.npos_eq, if_true, ne_eq, hrest, not_false_eq_true, hcreate]
      have hmap1 : fs1.inMap blk1.pos := by
        rw [hc.blk_eq]
        exact ⟨hend.inMap.1, Nat.lt_of_lt_of_le hend.inMap.2 (hc.size_le _)⟩
      have hold1 : Outdated fs1 oblk blk1 data := by
        unfold Outdated at hold ⊢
        rw [hc.blk_eq, hc.block_eq]
        exact hold
      obtain ⟨fs2, wof', crc', hs, heq⟩ := loop_step fuel wof segCrc hend.ino_ne hnext hmap1 hold1
      rw [heq] at h
      have hsame : SameSlots (fs1.store blk1) fs2 := by
        refine ⟨fun p => ?_, hs.size_eq.symm, hs.births_eq.symm⟩
        rw [hc.live_stored hs hend.type_ne, Shfs.live]
        by_cases hp : p = blk.pos
        · have hp1 : p = blk1.pos := by rw [hp, hc.blk_eq]
          have htype : blk1.type ≠ .null := by
            rw [hc.blk_eq]
            exact hend.type_ne
          rw [hp1, Shfs.store_self]
          simp [htype, ← hp1, hp]
        · rw [Shfs.store_ne _ _ (by rw [hc.blk_eq]; exact hp), hc.block_eq]
          simp [hp, Shfs.live]
      have hfound : SlotsFound env (blocksFor data - 1) fs blk ↔
          SlotsFound env (blocksFor (data.drop blockDataSize) - 1) fs2 nblk := by
        rw [hn, SlotsFound, hcreate]
        exact slotsFound_congr hsame
      have hapart : SlotsApart env (blocksFor data - 1) fs blk ↔
          (fs.live blk.pos ∨ env.journalIndex blk.name ≠ blk.pos.jno) ∧
          SlotsApart env (blocksFor (data.drop blockDataSize) - 1) fs2 nblk := by
        rw [hn, SlotsApart, hcreate]
        exact and_congr_right fun _ => slotsApart_congr hsame
      rw [hfound, hapart]
      rcases ih (hc.atEnd hs hend.type_ne) (Or.inr (Or.inr ⟨hc.size_eq, hrest⟩)) h with
        ⟨hnot, herr⟩ | ⟨hyes, crc, L, hr, hw, hlen, hfits⟩
      · exact Or.inl ⟨hnot, herr⟩
      refine Or.inr ⟨hyes, crc, ?_⟩
      by_cases hpos : nblk.pos = blk.pos
      · -- found a second time: this block is lost
        have hshort : L.length < blocksFor data := by
          rw [blocksFor_drop hrest]
          omega
        have hno := (hc.again_iff hend).mp hpos
        obtain ⟨n, hchunk, -⟩ := hfits.sizes
        exact ⟨L, hr, hw.replace_new hend hc hs hpos, Nat.le_of_lt hshort,
          fun hboth => absurd hboth.1 hno, fun _ => hshort, n, hchunk,
          fun hboth => absurd hboth.1 hno⟩
      · obtain ⟨hnot, hw'⟩ := hw.cons_new hend hc hs hpos
        have hslot : fs.live blk.pos ∨ env.journalIndex blk.name ≠ blk.pos.jno := by
          by_contra hcon
          exact hpos ((hc.again_iff hend).mpr hcon)
        obtain ⟨-, -, -, -, -, hraw, hsize⟩ := hs.head
        have hpos1 : blk1.pos = blk.pos := by rw [hc.blk_eq]
        rw [hpos1] at hraw hsize
        refine ⟨blk.pos :: L, hr, hw', ?_, fun hboth => ?_, fun hcon => ?_, ?_⟩
        · rw [blocksFor_drop hrest, List.length_cons]
          omega
        · refine content_take_cons ?_ (hfits.whole hboth.2)
          rw [hw.frame _ hnot, hraw, overlay_toList _ (List.length_take_le _ _), List.take_left]
        · have := hfits.short fun h2 => hcon ⟨hslot, h2⟩
          rw [blocksFor_drop hrest, List.length_cons]
          omega
        · obtain ⟨n, hchunk⟩ := hfits.chunked_cons hrest
            (by rw [hw.frame _ hnot, hsize, List.length_take])
          exact ⟨n, hchunk.1, fun hboth => hchunk.2 hboth.2⟩

/-! ## Existing blocks -/

/-- The blocks of a chain are in the store. -/
def AllStored (fs : Shfs) (L : List Idx) : Prop :=
  ∀ p ∈ L, fs.live p ∧ fs.inMap p ∧ (fs.block p).pos = p ∧ p.ino ≠ 0

-- Storing a block again does not change which blocks are in use.
/-- A block that was in use takes no free block away. -/
theorem Stored.sameSlots {fs fs' : Shfs} {blk : Block} {len : Nat} (h : Stored fs fs' blk len)
    (htype : blk.type ≠ .null) (hlive : fs.live blk.pos) : SameSlots fs fs' := by
  refine ⟨fun p => ?_, h.size_eq.symm, h.births_eq.symm⟩
  rw [h.live_iff htype]
  constructor
  · exact Or.inr
  · rintro (rfl | hp)
    · exact hlive
    · exact hp

/-- An existing block is given its part of the data, and the blocks behind it
theirs. -/
theorem Written.cons_old {fs fs2 fs' : Shfs} {blk : Block} {raw : Vector UInt8 blockDataSize}
    {len : Nat} {q : Idx} {old L : List Idx} (hblk : fs.block blk.pos = blk)
    (hchain : Chain (nextOf fs) (some blk.pos) (blk.pos :: q :: old))
    (hall : AllStored fs (blk.pos :: q :: old)) (hs : Stored fs fs2 { blk with raw := raw } len)
    (hw : Written fs2 fs' (fs.block q) old L) :
    blk.pos ∉ L ∧ Written fs fs' blk (q :: old) (blk.pos :: L) := by
  obtain ⟨hlive, hmap, -, -⟩ := hall blk.pos (by simp)
  obtain ⟨hqlive, -, hqpos, -⟩ := hall q (by simp)
  have htype : blk.type ≠ .null := by
    rw [← hblk]
    exact hlive
  have hsame : SameSlots fs fs2 := hs.sameSlots htype hlive
  have hnodup := hchain.nodup
  rw [List.nodup_cons, List.mem_cons, not_or] at hnodup
  obtain ⟨⟨hneq, hnold⟩, -⟩ := hnodup
  have hq2 : fs2.block q = fs.block q := hs.block_ne (Ne.symm hneq)
  -- the rest is written to `q`, to the blocks behind it and to free ones
  have hnot : blk.pos ∉ L := by
    intro hmem
    rcases hw.cells _ hmem with heq | hin | hfree
    · rw [hqpos] at heq
      exact hneq heq
    · exact hnold hin
    · exact hfree ((hsame.live_iff _).mp hlive)
  have hback : fs'.block blk.pos = fs2.block blk.pos := hw.frame _ hnot
  obtain ⟨hpos, hnpos, htype2, hfpos, hname, -, -⟩ := hs.head
  have hne : ∀ p ∈ L, p ≠ blk.pos := fun p hp heq => hnot (heq ▸ hp)
  -- the fields in their order; the block itself is the first case of each, the rest is `hw`
  refine ⟨hnot, ⟨rfl, ?_⟩, ?_, ?_, ?_, ?_, ?_, ?_, ?_, ?_, ?_, ?_, ?_⟩
  · have hnext : nextOf fs' blk.pos = some (fs.block q).pos := by
      rw [nextOf, hback, hnpos, hqpos, ← hchain.2.1, nextOf, hblk]
    rw [hnext]
    exact hw.chain
  · intro p hp
    rcases List.mem_cons.mp hp with rfl | hp
    · exact Or.inl rfl
    · rcases hw.cells p hp with heq | hin | hfree
      · rw [hqpos] at heq
        exact Or.inr (Or.inl (by simp [heq]))
      · exact Or.inr (Or.inl (by simp [hin]))
      · exact Or.inr (Or.inr fun hl => hfree ((hsame.live_iff p).mp hl))
  · intro p hp
    rw [List.mem_cons, not_or] at hp
    rw [hw.frame p hp.2, hs.block_ne hp.1]
  · intro p hp
    rcases List.mem_cons.mp hp with rfl | hp
    · show (fs'.block blk.pos).type ≠ .null
      rw [hback, htype2]
      exact htype
    · exact hw.live p hp
  · intro p hp
    rcases List.mem_cons.mp hp with rfl | hp
    · refine ⟨hmap.1, Nat.lt_of_lt_of_le hmap.2 ?_⟩
      rw [hsame.size_eq]
      exact hw.size_le _
    · exact hw.inMap p hp
  · intro p hp
    rcases List.mem_cons.mp hp with rfl | hp
    · rw [hback, hpos]
    · exact hw.pos_eq p hp
  · rw [hback, htype2]
  · rw [hback, hfpos]
  · intro _
    exact ⟨by rw [hback, htype2], by rw [hback, hfpos], by rw [hback, hname],
      fun _ => by rw [hback, hnpos]⟩
  · intro p hp hpne hl
    rcases List.mem_cons.mp hp with rfl | hp
    · exact absurd rfl hpne
    by_cases hpq : p = q
    · subst hpq
      have := hw.head_same (by rw [hqpos, hq2])
      rw [hqpos] at this
      exact this
    · have := hw.kept p hp (by rw [hqpos]; exact hpq) ((hsame.live_iff p).mp hl)
      rw [hs.block_ne (hne p hp)] at this
      exact this
  · intro p hp hpne hfree
    rcases List.mem_cons.mp hp with rfl | hp
    · exact absurd rfl hpne
    refine hw.fresh p hp ?_ fun hl => hfree ((hsame.live_iff p).mpr hl)
    rw [hqpos]
    rintro rfl
    exact hfree hqlive
  · intro j
    rw [hsame.size_eq]
    exact hw.size_le j

-- A chain that nothing has been done to.
/-- Nothing is to be written. -/
theorem Written.refl {fs : Shfs} {blk : Block} {old : List Idx} (hblk : fs.block blk.pos = blk)
    (hchain : Chain (nextOf fs) (some blk.pos) (blk.pos :: old))
    (hall : AllStored fs (blk.pos :: old)) : Written fs fs blk old (blk.pos :: old) where
  chain := hchain
  cells := by
    intro p hp
    rcases List.mem_cons.mp hp with rfl | hp
    · exact Or.inl rfl
    · exact Or.inr (Or.inl hp)
  frame := fun _ _ => rfl
  live := fun p hp => (hall p hp).1
  inMap := fun p hp => (hall p hp).2.1
  pos_eq := fun p hp => (hall p hp).2.2.1
  head_type := by rw [hblk]
  head_fpos := by rw [hblk]
  head_same := fun _ => ⟨by rw [hblk], by rw [hblk], by rw [hblk], fun _ => by rw [hblk]⟩
  kept := fun p _ _ _ => ⟨rfl, rfl, rfl, fun _ => rfl⟩
  fresh := fun p hp _ hfree => absurd (hall p hp).1 hfree
  size_le := fun _ => Nat.le_refl _

/-- The number of blocks to be added to a chain. -/
def blocksAfter (data : Bytes) (old : List Idx) : Nat := blocksFor data - (old.length + 1)

/-- What the loop of `shfs_aux_pwrite` leaves of a chain that begins with the block. Where no block
can be added at all, the chain is what it was. -/
def LoopLeaves (env : Env) (old : List Idx) (fs fs' : Shfs) (blk : Block) (data : Bytes)
    (r : Except Sherr UInt64) :
    Prop :=
  (¬ SlotsFound env (blocksAfter data old) fs (fs.block (old.getLastD blk.pos)) ∧
    (∃ err, r = .error err) ∧
    ((∃ err, shfsAuxPwriteCreate env fs (fs.block (old.getLastD blk.pos)) = .error err) →
      Written fs fs' blk old (blk.pos :: old))) ∨
  (SlotsFound env (blocksAfter data old) fs (fs.block (old.getLastD blk.pos)) ∧
    ∃ crc L, r = .ok crc ∧ Written fs fs' blk old L ∧
      Fits (SlotsApart env (blocksAfter data old) fs (fs.block (old.getLastD blk.pos))) fs' L data)

/-- The last block of a chain. -/
theorem loop_chain_end {env : Env} {fuel : Nat} {fs fs' : Shfs} {blk : Block}
    {data : Bytes} {wof : Nat}
    {segCrc : UInt64} {r : Except Sherr UInt64} (hblk : fs.block blk.pos = blk)
    (hchain : Chain (nextOf fs) (some blk.pos) [blk.pos]) (hall : AllStored fs [blk.pos])
    (h : shfsAuxPwriteLoop env 0 fuel fs blk blk data wof segCrc = some (fs', r)) :
    LoopLeaves env [] fs fs' blk data r := by
  obtain ⟨hlive, hmap, -, hino⟩ := hall blk.pos List.mem_cons_self
  have hnpos : blk.npos.ino = 0 := by
    by_contra hne
    have hnone : nextOf fs blk.pos = none := hchain.2
    rw [nextOf, hblk, Idx.ref_of_ne hne] at hnone
    cases hnone
  have hend : AtEnd fs blk := by
    refine ⟨hino, ?_, hnpos, hmap, Or.inl hlive⟩
    rw [← hblk]
    exact hlive
  unfold LoopLeaves
  rw [List.getLastD_nil, hblk]
  rcases loop_new hend (Or.inl hblk) h with ⟨hnot, herr⟩ | ⟨hyes, crc, L, hr, hw, -, hfits⟩
  · refine Or.inl ⟨hnot, herr, ?_⟩
    rintro ⟨err, hcreate⟩
    -- nothing has been stored
    have hrest : data.drop blockDataSize ≠ [] := by
      intro hnil
      rw [blocksFor_last hnil] at hnot
      exact hnot trivial
    have hnext : auxNext env fs blk (data.drop blockDataSize) = .error err := by
      simp only [auxNext, hnpos, if_true, ne_eq, hrest, not_false_eq_true, hcreate]
    obtain _ | fuel := fuel
    · simp [shfsAuxPwriteLoop] at h
    simp only [shfsAuxPwriteLoop, if_neg hino, hnext, Option.some.injEq, Prod.mk.injEq] at h
    rw [← h.1]
    exact Written.refl hblk hchain hall
  · exact Or.inr ⟨hyes, crc, L, hr, hw, hfits⟩

/-- One block of the chain takes one block of the data. -/
theorem blocksAfter_cons (data : Bytes) (q : Idx) (old : List Idx) :
    blocksAfter data (q :: old) = blocksAfter (data.drop blockDataSize) old := by
  unfold blocksAfter
  rw [List.length_cons]
  by_cases hrest : data.drop blockDataSize = []
  · rw [blocksFor_last hrest, hrest]
    show 1 - (old.length + 1 + 1) = 1 - (old.length + 1)
    omega
  · rw [blocksFor_drop hrest]
    omega

/-- A block with its part of the data, in front of a chain that fits the rest. -/
theorem Fits.cons_old {apart : Prop} {fs : Shfs} {p : Idx} {L : List Idx} {data : Bytes}
    (h : Fits apart fs L (data.drop blockDataSize)) (hpos : 0 < L.length)
    (hraw : (fs.block p).raw.toList.take (data.take blockDataSize).length = data.take blockDataSize)
    (hsize : (fs.block p).size = min blockDataSize data.length) : Fits apart fs (p :: L) data := by
  have hmore : ¬ apart → data.drop blockDataSize ≠ [] := by
    intro hcon hnil
    have hlt := h.short hcon
    rw [hnil] at hlt
    have hone : blocksFor [] = 1 := rfl
    omega
  refine ⟨fun hapart => content_take_cons hraw (h.whole hapart), fun hcon => ?_, ?_⟩
  · have hlt := h.short hcon
    rw [blocksFor_drop (hmore hcon), List.length_cons]
    omega
  · by_cases hrest : data.drop blockDataSize = []
    · -- the blocks behind are left without data
      obtain ⟨n, hchunk, heqn⟩ := h.sizes
      have hn : n = 0 := by
        rw [heqn (by_contra fun hcon => hmore hcon hrest), hrest]
        rfl
      refine ⟨data.length, ⟨hsize, ?_⟩, fun _ => rfl⟩
      have hlen := congrArg List.length hrest
      rw [List.length_drop, List.length_nil] at hlen
      rw [hlen, ← hn]
      exact hchunk
    · exact h.chunked_cons hrest hsize

/-- The loop of `shfs_aux_pwrite` from a block that the store holds. -/
theorem loop_chain {env : Env} : ∀ {old : List Idx} {fuel : Nat} {fs fs' : Shfs} {blk : Block}
    {data : Bytes} {wof : Nat} {segCrc : UInt64} {r : Except Sherr UInt64},
    fs.block blk.pos = blk → Chain (nextOf fs) (some blk.pos) (blk.pos :: old) →
    AllStored fs (blk.pos :: old) →
    shfsAuxPwriteLoop env 0 fuel fs blk blk data wof segCrc = some (fs', r) →
    LoopLeaves env old fs fs' blk data r := by
  -- induction on the old blocks behind this one
  intro old
  induction old with
  | nil =>
    intro fuel fs fs' blk data wof segCrc r hblk hchain hall h
    exact loop_chain_end hblk hchain hall h
  | cons q old ih =>
    intro fuel fs fs' blk data wof segCrc r hblk hchain hall h
    obtain ⟨hlive, hmap, -, hino⟩ := hall blk.pos (by simp)
    obtain ⟨-, hqmap, hqpos, hqino⟩ := hall q (by simp)
    have hnpos : blk.npos = q := by
      have hsome : nextOf fs blk.pos = some q := hchain.2.1
      rw [nextOf, hblk] at hsome
      exact (Idx.ref_eq_some hsome).1.symm
    have hnext : auxNext env fs blk (data.drop blockDataSize) = .ok (fs, blk, fs.block q) := by
      simp only [auxNext, hnpos, if_neg hqino, shfsInodeReadBlock_ok hqmap]
    obtain _ | fuel := fuel
    · simp [shfsAuxPwriteLoop] at h
    -- a step writes this block, and those behind it stay as they were
    obtain ⟨fs2, wof', crc', hs, heq⟩ := loop_step fuel wof segCrc hino hnext hmap (Or.inl hblk)
    rw [heq] at h
    have hsame : SameSlots fs fs2 := by
      refine hs.sameSlots ?_ hlive
      rw [← hblk]
      exact hlive
    have hnodup := hchain.nodup
    have hback : ∀ p ∈ q :: old, fs2.block p = fs.block p := by
      intro p hp
      refine hs.block_ne ?_
      rintro rfl
      exact (List.nodup_cons.mp hnodup).1 hp
    have hlast : fs2.block (old.getLastD q) = fs.block (old.getLastD q) :=
      hback _ List.getLastD_mem_cons
    have hchain2 : Chain (nextOf fs2) (some (fs.block q).pos) ((fs.block q).pos :: old) := by
      rw [hqpos]
      exact Chain.congr ⟨rfl, hchain.2.2⟩ fun p hp => nextOf_congr (hback p hp)
    have hall2 : AllStored fs2 ((fs.block q).pos :: old) := by
      rw [hqpos]
      intro p hp
      obtain ⟨h1, h2, h3, h4⟩ := hall p (List.mem_cons_of_mem _ hp)
      refine ⟨(hsame.live_iff p).mp h1, (hs.inMap_iff p).mpr h2, ?_, h4⟩
      rw [hback p hp]
      exact h3
    have hih := ih (by rw [hqpos, hback q List.mem_cons_self]) hchain2 hall2 h
    unfold LoopLeaves at hih ⊢
    rw [hqpos, hlast, ← slotsFound_congr hsame, ← slotsApart_congr hsame,
      ← blocksAfter_cons data q] at hih
    rw [List.getLastD_cons]
    rcases hih with ⟨hnot, herr, hfull⟩ | ⟨hyes, crc, L, hr, hw, hfits⟩
    · -- no slot for a new block: what is written are the old ones
      refine Or.inl ⟨hnot, herr, ?_⟩
      rintro ⟨err, hcreate⟩
      have hfail : ∃ err, shfsAuxPwriteCreate env fs2 (fs.block (old.getLastD q)) = .error err := by
        obtain ⟨err', -, h2⟩ | ⟨_, _, _, _, h1, -⟩ :=
          create_congr env hsame (fs.block (old.getLastD q))
        · exact ⟨err', h2⟩
        · rw [h1] at hcreate
          cases hcreate
      exact (Written.cons_old hblk hchain hall hs (hfull hfail)).2
    · obtain ⟨hnotin, hw'⟩ := Written.cons_old hblk hchain hall hs hw
      obtain ⟨-, -, -, -, -, hraw, hsize⟩ := hs.head
      refine Or.inr ⟨hyes, crc, blk.pos :: L, hr, hw',
        hfits.cons_old (List.length_pos_of_mem hw.chain.head_mem) ?_ ?_⟩
      · rw [hw.frame _ hnotin, hraw, overlay_toList _ (List.length_take_le _ _), List.take_left]
      · rw [hw.frame _ hnotin, hsize, List.length_take]

end LibShare.Fs
