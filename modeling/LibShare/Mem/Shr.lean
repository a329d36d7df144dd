import LibShare.Base
import LibShare.Lib.Blocks

/-!
# libshare — the SHR224 digest

The streaming digest of `shmem_alg_shr.c`. A context takes in blocks of eight
bytes: a block is added to one of twelve words and to a checksum (`hashBlock`).
Bytes that do not make up a block yet are pending. The digest of 28 bytes is made
from the checksum and the words (`shr224_shrink`).

`shr224_result` writes the pending bytes once more, so that they come twice. From
four bytes on the two copies make up another block; fewer stay pending, and
nothing of them goes into the digest.

* `shr224_streaming` — the digest does not depend on how a message is split.
* `shr224_keeps_byte_iff` — which bytes of a message go into the digest.
-/

namespace LibShare.Mem

/-! ## Contexts -/

/-- What has been taken in by a `shr224_t`. -/
structure ShrHash where
  data : Vector UInt64 12
  dataIdx : UInt64
  crcA : UInt32
  crcB : UInt64

/-- `shr224_t`. Fewer than eight bytes are pending. -/
structure Shr224 extends ShrHash where
  buff : Vector UInt8 8
  buffLen : Fin 8
  /-- the suffix to apply in an HMAC digest -/
  suff : Bytes

/-- The pending input. -/
def Shr224.pending (ctx : Shr224) : Bytes := ctx.buff.toList.take ctx.buffLen

/-- `shr224_crc`. -/
def shr224Crc (h : ShrHash) : UInt64 := htonll (h.crcA.toUInt64 + (h.crcB <<< 32))

-- places in the buffer
local instance buffPlace : NeZero 8 := ⟨by decide⟩

/-- `shr224_init`. -/
def shr224Init : Shr224 :=
  { data := Vector.replicate 12 0x2222222222222222
    dataIdx := 0
    crcA := 1
    crcB := 0
    buff := Vector.replicate 8 0
    buffLen := 0
    suff := List.replicate 28 0 }

/-- A block is taken in. -/
def hashBlock (h : ShrHash) (block : Bytes) : ShrHash :=
  let val := leWord64 block
  let idx : Fin 12 := ⟨h.dataIdx.toNat % 12, Nat.mod_lt _ (by decide)⟩
  let crcA := h.crcA + val.toUInt32
  { data := h.data.set idx (h.data[idx] ^^^ val)
    -- checksum
    crcA := crcA
    crcB := crcA.toUInt64 + h.crcB
    -- transition to next chunk
    dataIdx := h.dataIdx + 1 }

/-- The loop of `shr224_write`, over the data from the current offset on. -/
def shr224WriteLoop : Nat → Shr224 → Bytes → Shr224
  | 0, ctx, _ => ctx
  | fuel + 1, ctx, data =>
    if data = [] then ctx
    else
      let len := min (8 - ctx.buffLen.val) data.length
      let block := ctx.pending ++ data.take len
      if h : block.length < 8 then
        { ctx with buff := Vector.ofFn fun i => block.getD i 0, buffLen := ⟨block.length, h⟩ }
      else
        -- perform hash
        let ctx := { ctx with toShrHash := hashBlock ctx.toShrHash block, buffLen := 0 }
        shr224WriteLoop fuel ctx (data.drop len)

/-- `shr224_write`. Each pass takes a byte at least. -/
def shr224Write (ctx : Shr224) (data : Bytes) : Shr224 := shr224WriteLoop data.length ctx data

/-! ## Digests -/

/-- The 32-bit words of a byte string; what does not make up a word is left out. -/
def leWords : Bytes → List UInt32
  | b0 :: b1 :: b2 :: b3 :: rest => leWord32 [b0, b1, b2, b3] :: leWords rest
  | _ => []

/-- The loop of `shr224_shrink`, over the words from number `i` on. -/
def shrinkLoop : List UInt32 → Nat → UInt32 → List UInt32 → List UInt32
  | [], _, _, digest => digest
  | val :: rest, i, a, digest =>
    let a := a + val
    shrinkLoop rest (i + 1) a (digest.modify (i % 7) (· ^^^ htonl a))

/-- `shr224_shrink`. The other sum that it keeps does not go into the digest. -/
def shr224Shrink (crc : UInt64) (data : Bytes) : Bytes :=
  let a : UInt32 := if crc ≠ 0 then (1 : UInt32) + crc.toUInt32 + (crc >>> 32).toUInt32 else 1
  (shrinkLoop (leWords data) 0 a (List.replicate 7 0)).flatMap leBytes32

/-- The context that `shr224_result` makes the digest from. -/
def Shr224.flush (ctx : Shr224) : Shr224 :=
  if ctx.buffLen ≠ 0 then shr224Write ctx ctx.pending else ctx

/-- What `shr224_result` hands to `shr224_shrink`: the checksum and the words. -/
def Shr224.handed (ctx : Shr224) : UInt64 × Vector UInt64 12 :=
  (shr224Crc ctx.flush.toShrHash, ctx.flush.data)

/-- `shr224_result`: the digest. -/
def shr224Result (ctx : Shr224) : Bytes :=
  shr224Shrink ctx.handed.1 (ctx.handed.2.toList.flatMap leBytes64)

/-- `shr224_result_key`: the bytes of the key, of the algorithm `SHALG_SHR224`. -/
def shr224ResultKey (ctx : Shr224) : Bytes :=
  leBytes16 (htons 0x104) ++ leBytes16 (shr224Crc ctx.flush.toShrHash).toUInt16 ++ shr224Result ctx

/-- `shr224`. -/
def shr224 (data : Bytes) : Bytes := shr224Result (shr224Write shr224Init data)

/-! ## Streaming -/

variable {ctx : Shr224} {data m : Bytes}

theorem Shr224.length_pending (ctx : Shr224) : ctx.pending.length = ctx.buffLen := by
  have hlt := ctx.buffLen.isLt
  unfold Shr224.pending
  rw [List.length_take, Vector.length_toList, Nat.min_eq_left (by omega)]

/-- What a context stands for: the blocks of a stream have been taken in, and the
rest of it is pending. -/
structure Shr224.Shows (ctx : Shr224) (h : ShrHash) (stream : Bytes) : Prop where
  hash : ctx.toShrHash = (blocks 8 stream).foldl hashBlock h
  pending : ctx.pending = rest 8 stream

theorem pending_ofFn {block : Bytes} (hlt : block.length < 8) :
    (Vector.ofFn fun i : Fin 8 => block.getD i 0).toList.take block.length = block := by
  apply List.ext_getElem
  · rw [List.length_take, Vector.length_toList, Nat.min_eq_left (by omega)]
  · intro i h1 h2
    rw [List.getElem_take, Vector.getElem_toList, Vector.getElem_ofFn, List.getD_eq_getElem?_getD,
      List.getElem?_eq_getElem h2, Option.getD_some]

theorem Shr224.shows_self (ctx : Shr224) : ctx.Shows ctx.toShrHash ctx.pending := by
  have hshort : ctx.pending.length < 8 := by
    rw [ctx.length_pending]
    exact ctx.buffLen.isLt
  exact ⟨by rw [blocks_short hshort]; rfl, (rest_short hshort).symm⟩

/-- The loop of `shr224_write` takes in the blocks of the pending bytes and the
data together. -/
theorem shr224WriteLoop_shows : ∀ (fuel : Nat) (ctx : Shr224) (data : Bytes), data.length ≤ fuel →
    (shr224WriteLoop fuel ctx data).Shows ctx.toShrHash (ctx.pending ++ data) ∧
      (shr224WriteLoop fuel ctx data).suff = ctx.suff := by
  intro fuel
  induction fuel with
  | zero =>
    intro ctx data hfuel
    obtain rfl : data = [] := List.length_eq_zero_iff.mp (Nat.le_zero.mp hfuel)
    rw [List.append_nil]
    exact ⟨ctx.shows_self, rfl⟩
  | succ fuel ih =>
    intro ctx data hfuel
    have hpending := ctx.length_pending
    have hlt := ctx.buffLen.isLt
    rw [shr224WriteLoop]
    split
    · next hnil =>
      rw [hnil, List.append_nil]
      exact ⟨ctx.shows_self, rfl⟩
    · next hdata =>
      have hpos := List.length_pos_iff.mpr hdata
      have hblock : (ctx.pending ++ data.take (min (8 - ctx.buffLen.val) data.length)).length =
          min 8 (ctx.buffLen.val + data.length) := by
        rw [List.length_append, hpending, List.length_take]
        omega
      dsimp only
      split
      · -- the data does not make up a block
        next hshort =>
        have hall : ctx.pending ++ data.take (min (8 - ctx.buffLen.val) data.length) =
            ctx.pending ++ data := by
          rw [List.take_of_length_le (by omega)]
        have hshort' : (ctx.pending ++ data).length < 8 := by
          rw [← hall]
          exact hshort
        refine ⟨⟨?_, ?_⟩, rfl⟩
        · rw [blocks_short hshort']
          rfl
        · rw [rest_short hshort', ← hall]
          exact pending_ofFn hshort
      · -- a block is hashed, and the rest of the data is written behind it
        next hlong =>
        have hlen : 8 ≤ (ctx.pending ++ data).length := by
          rw [List.length_append, hpending]
          omega
        have hmin : min (8 - ctx.buffLen.val) data.length = 8 - ctx.buffLen.val := by omega
        have htake : (ctx.pending ++ data).take 8 = ctx.pending ++
            data.take (8 - ctx.buffLen.val) := by
          rw [List.take_append, hpending, List.take_of_length_le (by omega)]
        have hdrop : (ctx.pending ++ data).drop 8 = data.drop (8 - ctx.buffLen.val) := by
          rw [List.drop_append, hpending, List.drop_of_length_le (by omega), List.nil_append]
        rw [hmin]
        obtain ⟨hshows, hsuff⟩ := ih
          { ctx with
            toShrHash := hashBlock ctx.toShrHash (ctx.pending ++ data.take (8 - ctx.buffLen.val))
            buffLen := 0 }
          (data.drop (8 - ctx.buffLen.val)) (by rw [List.length_drop]; omega)
        refine ⟨⟨?_, ?_⟩, hsuff⟩
        · rw [blocks_long (by decide) hlen, List.foldl_cons, htake, hdrop]
          exact hshows.hash
        · rw [rest_long (by decide) hlen, hdrop]
          exact hshows.pending

/-- `shr224_write`. -/
theorem shr224Write_shows (ctx : Shr224) (data : Bytes) :
    (shr224Write ctx data).Shows ctx.toShrHash (ctx.pending ++ data) :=
  (shr224WriteLoop_shows _ ctx data (Nat.le_refl _)).1

theorem shr224Write_suff (ctx : Shr224) (data : Bytes) : (shr224Write ctx data).suff = ctx.suff :=
  (shr224WriteLoop_shows _ ctx data (Nat.le_refl _)).2

/-- A stream that is continued. -/
theorem Shr224.Shows.write {h : ShrHash} {stream : Bytes} (hs : ctx.Shows h stream) (data : Bytes) :
    (shr224Write ctx data).Shows h (stream ++ data) := by
  have hw := shr224Write_shows ctx data
  rw [hs.hash, hs.pending] at hw
  refine ⟨?_, ?_⟩
  · rw [hw.hash, blocks_append (by decide) data stream, List.foldl_append]
  · rw [hw.pending, ← rest_append (by decide)]

/-- What `shr224_shrink` is given after a stream: the pending bytes come twice. -/
theorem Shr224.Shows.flush {h : ShrHash} {stream : Bytes} (hs : ctx.Shows h stream) :
    ctx.flush.toShrHash = (blocks 8 (stream ++ rest 8 stream)).foldl hashBlock h := by
  unfold Shr224.flush
  split
  · rw [(hs.write ctx.pending).hash, hs.pending]
  · next hzero =>
    have hnil : rest 8 stream = [] := by
      have hlen := ctx.length_pending
      rw [not_not.mp hzero, hs.pending] at hlen
      exact List.length_eq_zero_iff.mp hlen
    rw [hnil, List.append_nil]
    exact hs.hash

/-- The chunks of a message, one by one. -/
theorem shr224Write_foldl_shows :
    ∀ (chunks : List Bytes) {ctx : Shr224} {h : ShrHash} {stream : Bytes}, ctx.Shows h stream →
      (chunks.foldl shr224Write ctx).Shows h (stream ++ chunks.flatten) := by
  intro chunks
  induction chunks with
  | nil =>
    intro ctx h stream hs
    rw [List.flatten_nil, List.append_nil]
    exact hs
  | cons chunk chunks ih =>
    intro ctx h stream hs
    rw [List.flatten_cons, ← List.append_assoc]
    exact ih (hs.write chunk)

theorem Shr224.Shows.handed {ctx' : Shr224} {h : ShrHash} {stream : Bytes} (hs : ctx.Shows h stream)
    (hs' : ctx'.Shows h stream) : ctx.handed = ctx'.handed := by
  unfold Shr224.handed
  rw [hs.flush, hs'.flush]

/-- The digest depends on the data that has been written, and not on how it was
split, whatever the context held before. -/
theorem shr224_streaming (ctx : Shr224) (chunks : List Bytes) :
    shr224Result (chunks.foldl shr224Write ctx) =
      shr224Result (shr224Write ctx chunks.flatten) := by
  have hchunks := shr224Write_foldl_shows chunks ctx.shows_self
  have hwhole := shr224Write_shows ctx chunks.flatten
  unfold shr224Result
  rw [hchunks.handed hwhole]

/-! ## Which bytes go into the digest -/

/-- What the blocks of a message with its last bytes twice make of a context. -/
def ShrHash.final (h : ShrHash) (m : Bytes) : ShrHash :=
  (blocks 8 (m ++ rest 8 m)).foldl hashBlock h

theorem ShrHash.final_long {h : ShrHash} (hm : 8 ≤ m.length) :
    h.final m = (hashBlock h (m.take 8)).final (m.drop 8) := by
  have hlong : 8 ≤ (m ++ rest 8 m).length := by
    rw [List.length_append]
    omega
  unfold ShrHash.final
  rw [blocks_long (by decide) hlong, List.foldl_cons, List.take_append_of_le_length hm,
    List.drop_append_of_le_length hm, rest_long (by decide) hm]

/-- From four bytes on, two copies of them make up a block. -/
theorem ShrHash.final_mid {h : ShrHash} (hm : m.length < 8) (h4 : 4 ≤ m.length) :
    h.final m = hashBlock h ((m ++ m).take 8) := by
  have hlong : 8 ≤ (m ++ m).length := by
    rw [List.length_append]
    omega
  have hdrop : ((m ++ m).drop 8).length < 8 := by
    rw [List.length_drop, List.length_append]
    omega
  unfold ShrHash.final
  rw [rest_short hm, blocks_long (by decide) hlong, blocks_short hdrop]
  rfl

/-- Fewer than four bytes are lost. -/
theorem ShrHash.final_short {h : ShrHash} (hm : m.length < 4) : h.final m = h := by
  have hshort : (m ++ m).length < 8 := by
    rw [List.length_append]
    omega
  unfold ShrHash.final
  rw [rest_short (by omega), blocks_short hshort]
  rfl

/-- Different blocks leave different words. -/
theorem hashBlock_ne {h : ShrHash} {x y : Bytes} (hx : x.length = 8) (hy : y.length = 8)
    (hne : x ≠ y) : (hashBlock h x).data ≠ (hashBlock h y).data := by
  intro heq
  have hword := congrArg (fun d : Vector UInt64 12 => d[h.dataIdx.toNat % 12]) heq
  simp only [hashBlock, Fin.getElem_fin, Vector.getElem_set_self, UInt64.xor_right_inj] at hword
  exact hne (leWord64_inj hx hy hword)

/-- The same block leaves different words different. -/
theorem hashBlock_keeps_ne {h h' : ShrHash} (hidx : h.dataIdx = h'.dataIdx) (hne : h.data ≠ h'.data)
    (block : Bytes) : (hashBlock h block).dataIdx = (hashBlock h' block).dataIdx ∧
      (hashBlock h block).data ≠ (hashBlock h' block).data := by
  refine ⟨congrArg (· + 1) hidx, ?_⟩
  intro heq
  apply hne
  ext i hi
  have hword := congrArg (fun d : Vector UInt64 12 => d[i]) heq
  simp only [hashBlock, Fin.getElem_fin, Vector.getElem_set, ← hidx] at hword
  split at hword
  · next hi' =>
    subst hi'
    exact congrArg _ ((UInt64.xor_left_inj _).mp hword)
  · exact congrArg _ hword

/-- The same stream leaves different words different. -/
theorem foldl_hashBlock_keeps_ne : ∀ (bs : List Bytes) {h h' : ShrHash}, h.dataIdx = h'.dataIdx →
    h.data ≠ h'.data → (bs.foldl hashBlock h).data ≠ (bs.foldl hashBlock h').data := by
  intro bs
  induction bs with
  | nil =>
    intro h h' _ hne
    exact hne
  | cons block bs ih =>
    intro h h' hidx hne
    obtain ⟨hidx', hne'⟩ := hashBlock_keeps_ne hidx hne block
    exact ih hidx' hne'

/-- A byte of a message goes into the digest: it belongs to a complete block, or to
at least four bytes after the last one. -/
def Covered (len i : Nat) : Prop := i < len / 8 * 8 ∨ 4 ≤ len % 8

instance (len i : Nat) : Decidable (Covered len i) := inferInstanceAs (Decidable (_ ∨ _))

/-- Two messages that differ in one byte, from one context. -/
theorem ShrHash.final_set {x y : UInt8} (hxy : x ≠ y) (v : Bytes) :
    ∀ (u : Bytes) (h : ShrHash),
      if Covered (u ++ x :: v).length u.length then
        (h.final (u ++ x :: v)).data ≠ (h.final (u ++ y :: v)).data
      else h.final (u ++ x :: v) = h.final (u ++ y :: v) := by
  have hsum : ∀ (u : Bytes) (b : UInt8), (u ++ b :: v).length = u.length + (v.length + 1) := by
    intro u b
    rw [List.length_append, List.length_cons]
  refine blocks_induction (n := 8) (by decide) ?_ ?_
  · intro u hu h
    have hne : u ++ x :: v ≠ u ++ y :: v := by
      intro heq
      cases List.append_cancel_left heq
      exact hxy rfl
    by_cases hlong : 8 ≤ (u ++ x :: v).length
    · -- the byte is in the first block, and what follows is the same
      have hlong' : 8 ≤ (u ++ y :: v).length := by
        rw [hsum] at hlong ⊢
        exact hlong
      have hdrop : (u ++ x :: v).drop 8 = (u ++ y :: v).drop 8 := by
        obtain ⟨k, hk⟩ : ∃ k, 8 - u.length = k + 1 := ⟨7 - u.length, by omega⟩
        rw [List.drop_append, List.drop_append, hk, List.drop_succ_cons, List.drop_succ_cons]
      have htake : (u ++ x :: v).take 8 ≠ (u ++ y :: v).take 8 := by
        intro htake
        apply hne
        rw [← List.take_append_drop 8 (u ++ x :: v), ← List.take_append_drop 8 (u ++ y :: v),
          htake, hdrop]
      have hcovered : Covered (u ++ x :: v).length u.length := Or.inl (by omega)
      rw [if_pos hcovered, ShrHash.final_long hlong, ShrHash.final_long hlong', hdrop]
      refine foldl_hashBlock_keeps_ne _ rfl (hashBlock_ne ?_ ?_ htake)
      · rw [List.length_take, Nat.min_eq_left hlong]
      · rw [List.length_take, Nat.min_eq_left hlong']
    · have hx := hsum u x
      have hy := hsum u y
      by_cases h4 : 4 ≤ (u ++ x :: v).length
      · have hcovered : Covered (u ++ x :: v).length u.length := Or.inr (by omega)
        rw [if_pos hcovered, ShrHash.final_mid (by omega) h4,
          ShrHash.final_mid (by omega) (by omega)]
        refine hashBlock_ne ?_ ?_ ?_
        · rw [List.length_take, List.length_append]
          omega
        · rw [List.length_take, List.length_append]
          omega
        · intro htake
          apply hne
          -- the message is what the block begins with
          have hprefix := congrArg (List.take (u ++ x :: v).length) htake
          rw [List.take_take, List.take_take, Nat.min_eq_left (by omega), List.take_left',
            hx.trans hy.symm, List.take_left'] at hprefix
          · exact hprefix
          · rfl
          · rfl
      · have hcovered : ¬ Covered (u ++ x :: v).length u.length := by
          unfold Covered
          omega
        rw [if_neg hcovered, ShrHash.final_short (by omega), ShrHash.final_short (by omega)]
  · intro u hu ih h
    have hlong : ∀ b, 8 ≤ (u ++ b :: v).length := fun b => by
      rw [hsum]
      omega
    have htake : ∀ b, (u ++ b :: v).take 8 = u.take 8 := fun b => List.take_append_of_le_length hu
    have hdrop : ∀ b, (u ++ b :: v).drop 8 = u.drop 8 ++ b :: v := fun b =>
      List.drop_append_of_le_length hu
    have hcovered : Covered (u ++ x :: v).length u.length ↔
        Covered (u.drop 8 ++ x :: v).length (u.drop 8).length := by
      unfold Covered
      rw [hsum, hsum, List.length_drop]
      omega
    rw [ShrHash.final_long (hlong x), ShrHash.final_long (hlong y), htake, htake, hdrop, hdrop]
    simp only [hcovered]
    exact ih _

/-- Two messages that differ in one byte leave `shr224_shrink` with different
contexts just when the byte belongs to a complete block, or to at least four bytes
after the last one. -/
theorem shr224_keeps_byte_iff (m m' : Bytes) (i : Nat) (hlen : m.length = m'.length)
    (hdiff : ∀ j, m[j]? ≠ m'[j]? ↔ j = i) :
    (shr224Write shr224Init m).handed ≠ (shr224Write shr224Init m').handed ↔
      Covered m.length i := by
  have hi : i < m.length := by
    by_contra hge
    have hne := (hdiff i).mpr rfl
    rw [List.getElem?_eq_none (by omega), List.getElem?_eq_none (by omega)] at hne
    exact hne rfl
  -- the messages are the same before and behind the byte
  have htake : m'.take i = m.take i := by
    apply List.ext_getElem?
    intro j
    rw [List.getElem?_take, List.getElem?_take]
    split
    · next hj =>
      by_contra hne
      exact absurd ((hdiff j).mp (Ne.symm hne)) (by omega)
    · rfl
  have hdrop : m'.drop (i + 1) = m.drop (i + 1) := by
    apply List.ext_getElem?
    intro j
    rw [List.getElem?_drop, List.getElem?_drop]
    by_contra hne
    exact absurd ((hdiff _).mp (Ne.symm hne)) (by omega)
  have hm : m = m.take i ++ m[i] :: m.drop (i + 1) := by
    rw [← List.drop_eq_getElem_cons hi, List.take_append_drop]
  have hm' : m' = m.take i ++ m'[i] :: m.drop (i + 1) := by
    rw [← htake, ← hdrop, ← List.drop_eq_getElem_cons (by omega), List.take_append_drop]
  have hxy : m[i] ≠ m'[i] := by
    intro heq
    have hne := (hdiff i).mpr rfl
    rw [List.getElem?_eq_getElem hi, List.getElem?_eq_getElem (by omega), heq] at hne
    exact hne rfl
  -- so they differ in one byte, which is hashed behind the same beginning
  have hfinal := ShrHash.final_set hxy (m.drop (i + 1)) (m.take i) shr224Init.toShrHash
  have hpos : (m.take i).length = i := by
    rw [List.length_take, Nat.min_eq_left (by omega)]
  rw [← hm, ← hm', hpos] at hfinal
  have hflush : ∀ msg : Bytes, (shr224Write shr224Init msg).flush.toShrHash =
      shr224Init.toShrHash.final msg := fun msg =>
    Shr224.Shows.flush (shr224Write_shows shr224Init msg)
  unfold Shr224.handed
  rw [hflush, hflush]
  split at hfinal
  · next hcovered =>
    refine iff_of_true ?_ hcovered
    intro heq
    exact hfinal (congrArg Prod.snd heq)
  · next hcovered =>
    refine iff_of_false ?_ hcovered
    intro hne
    exact hne (by rw [hfinal])

/-- Of four bytes the last one is covered: another one is handed to the digest. -/
theorem shr224_keeps_byte_iff_four : Covered [1, 2, 3, 4].length 3 ∧
    (shr224Write shr224Init [1, 2, 3, 4]).handed ≠ (shr224Write shr224Init [1, 2, 3, 5]).handed :=
  ⟨by decide, (shr224_keeps_byte_iff [1, 2, 3, 4] [1, 2, 3, 5] 3 rfl (by
    intro j
    rcases j with _ | _ | _ | _ | j <;> simp)).mpr (by decide)⟩

/-- Two messages of one byte, and a different one, leave the same context. -/
theorem shr224_loses_byte : (∀ j : Nat, ([1] : Bytes)[j]? ≠ ([2] : Bytes)[j]? ↔ j = 0) ∧
    (shr224Write shr224Init [1]).handed = (shr224Write shr224Init [2]).handed := by
  refine ⟨?_, by decide⟩
  intro j
  rcases j with _ | j <;> simp

end LibShare.Mem
