import LibShare.Mem.Base64
import LibShare.Mem.Buf

/-!
# libshare — appending to a buffer of any kind

`shbuf_grow` and `shbuf_cat` of `shmem_buf.c` for buffers whose memory is on the
heap, is a mapped file (`shbuf_file`), or is lent by a caller (`shbuf_map`).

* Sizes are `size_t`. The number of blocks is an `int`, and so is their size in
  bytes, which wraps where it does not fit.
* An allocation has a result where it is less than half of what addresses can
  tell. Memory that the allocator did not hand out cannot be enlarged, and an
  attempt to do so has no result.
* A copy behind the end of the memory has no result.

`shbuf_cat` goes on whatever `shbuf_grow` tells. `catInside_iff` says when the
copy is inside of the memory nevertheless.
-/

namespace LibShare.Mem

/-! ## Kinds of buffers -/

/-- Where the memory of a buffer comes from. -/
inductive Origin
  | heap
  /-- a mapped file (`SHBUF_FMAP`) -/
  | fmap
  /-- a caller (`SHBUF_PREALLOC`), who may have a block of the heap -/
  | prealloc (block : Bool)
deriving DecidableEq

/-- `shbuf_t`, with its origin and its position. -/
structure BufState extends Shbuf where
  origin : Origin
  /-- `data` is `NULL` -/
  null : Bool
  dataPos : Nat
  inside : dataOf ≤ dataMax
  empty : null = true → dataMax = 0

/-- `shbuf_init`. -/
def BufState.init : BufState :=
  { shbufInit with
    origin := .heap
    null := true
    dataPos := 0
    inside := Nat.le_refl 0
    empty := fun _ => rfl }

/-- `shbuf_map`. -/
def BufState.map (data : Bytes) (block : Bool) : BufState :=
  { data := poke (fun _ => 0) 0 data
    dataOf := data.length
    dataMax := data.length
    mapped := false
    origin := .prealloc block
    null := false
    dataPos := 0
    inside := Nat.le_refl _
    empty := nofun }

theorem fileMapLen_pos (stSize : Nat) : 0 < fileMapLen stSize := by
  unfold fileMapLen sharePageSize
  omega

/-- A buffer that `shbuf_growmap` has mapped is full. -/
theorem shbufGrowmap_full {buf : Shbuf} {len : Nat} (h : buf.dataMax < len) :
    (shbufGrowmap buf len).dataOf = (shbufGrowmap buf len).dataMax := by
  unfold shbufGrowmap
  rw [if_neg (Nat.not_le_of_lt h)]

/-- `shbuf_file` of a file with some content. -/
def BufState.file (content : Bytes) : BufState :=
  { shbufGrowmap { shbufInit with data := fun i => content.getD i 0, mapped := true }
      (fileMapLen content.length) with
    origin := .fmap, null := false, dataPos := 0
    inside := Nat.le_of_eq (shbufGrowmap_full (fileMapLen_pos content.length)), empty := nofun }

/-! ## Growth -/

/-- The size of the allocation that `shbuf_grow` asks for, as a `size_t`. -/
def growSize (len : Nat) : Nat := cSize (cInt (cInt ((len + 1) % 2 ^ 64 / 8192 + 1 : Nat) * 8192))

/-- The allocator can enlarge the memory, or there is none yet. -/
def BufState.Owns (s : BufState) : Prop :=
  s.origin ≠ .fmap ∧ (s.origin = .prealloc false → s.null = true)

instance (s : BufState) : Decidable s.Owns := inferInstanceAs (Decidable (_ ∧ _))

/-- The origin after an allocation. -/
def Origin.grown : Origin → Origin
  | .prealloc _ => .prealloc true
  | origin => origin

/-- After an allocation that succeeds: `calloc`, or `realloc` where there is memory. -/
def BufState.enlarged (s : BufState) (max : Nat) (h : s.dataMax < max) : BufState :=
  { data := fun i => if s.null = true ∧ i < max then 0 else s.data i,
    dataOf := s.dataOf, dataMax := max, mapped := s.mapped,
    origin := s.origin.grown, null := false, dataPos := s.dataPos,
    inside := Nat.le_trans s.inside (Nat.le_of_lt h), empty := nofun }

/-- After an allocation that fails. -/
def BufState.dropped (s : BufState) : BufState :=
  { s with dataOf := 0, dataMax := 0, null := true, inside := Nat.le_refl 0, empty := fun _ => rfl }

@[simp] theorem BufState.enlarged_dataOf (s : BufState) (max : Nat) (h : s.dataMax < max) :
    (s.enlarged max h).dataOf = s.dataOf := rfl

@[simp] theorem BufState.enlarged_dataMax (s : BufState) (max : Nat) (h : s.dataMax < max) :
    (s.enlarged max h).dataMax = max := rfl

@[simp] theorem BufState.dropped_dataOf (s : BufState) : s.dropped.dataOf = 0 := rfl

@[simp] theorem BufState.dropped_dataMax (s : BufState) : s.dropped.dataMax = 0 := rfl

/-- `shbuf_grow`: its status and the buffer. -/
def BufState.grow (s : BufState) (len : Nat) : Option (Option Sherr × BufState) :=
  if h : growSize len ≤ s.dataMax then some (none, s)
  else if s.origin = .fmap then some (some .opnotsupp, s)
  else if s.Owns then
    if calloc (growSize len) = none then some (some .nobufs, s.dropped)
    else some (none, s.enlarged (growSize len) (Nat.lt_of_not_le h))
  else none

/-- The copy of `shbuf_cat`. -/
def BufState.write (s : BufState) (data : Bytes) : Option BufState :=
  if h : s.dataOf + data.length ≤ s.dataMax then
    some
      { s with
        data := poke s.data s.dataOf data
        dataOf := s.dataOf + data.length
        inside := h
        empty := s.empty }
  else none

/-- The length that `shbuf_cat` asks `shbuf_grow` for. -/
def BufState.catLen (s : BufState) (n : Nat) : Nat := (s.dataOf + n + 1) % 2 ^ 64

/-- `shbuf_cat`, which does not heed the status. -/
def BufState.cat (s : BufState) (data : Bytes) : Option BufState :=
  (s.grow (s.catLen data.length)).bind fun grown => grown.2.write data

/-- The bytes that are appended lie inside of the memory of the buffer, or the
buffer is left as it is. -/
def BufState.CatInside (s : BufState) (data : Bytes) : Prop :=
  ∃ err s', s.grow (s.catLen data.length) = some (err, s') ∧
    (s'.dataOf + data.length ≤ s'.dataMax ∨ s.cat data = some s)

/-- There is room for the bytes and no attempt to make more, or the memory can be
enlarged to what they need. -/
def BufState.CatFits (s : BufState) (n : Nat) : Prop :=
  s.dataOf + n ≤ s.dataMax ∧ (s.origin = .fmap ∨ growSize (s.catLen n) ≤ s.dataMax) ∨
    s.Owns ∧ (n = 0 ∨ Fits (s.dataOf + n))

/-! ## Sizes -/

/-- The block count of a length is exact where the size in bytes is less than 2^31. -/
theorem growSize_of_fits {len : Nat} (h : shbufBlocks len < 2 ^ 31) :
    growSize len = shbufBlocks len := by
  unfold growSize shbufBlocks at *
  have hwrap : (len + 1) % 2 ^ 64 = len + 1 := Nat.mod_eq_of_lt (by omega)
  have hcount : cInt (((len + 1) / 8192 + 1 : Nat) : Int) = ((len + 1) / 8192 + 1 : Nat) :=
    cInt_of_lt (by omega) (by omega)
  rw [hwrap, hcount]
  have hsize : cInt ((((len + 1) / 8192 + 1 : Nat) : Int) * 8192) =
      (((len + 1) / 8192 + 1) * 8192 : Nat) :=
    (cInt_of_lt (by omega) (by omega)).trans (by push_cast; rfl)
  rw [hsize]
  exact cSize_of_lt (by omega)

/-- A size that can be allocated is of an `int`, in whole blocks. -/
theorem growSize_bound {len : Nat} (h : growSize len < 2 ^ 63) : growSize len ≤ 2 ^ 31 - 8192 := by
  unfold growSize cSize cInt at *
  omega

/-- An allocation holds the bytes just when their size does not wrap. -/
theorem fits_of_allocated {s : BufState} {n : Nat} (h : growSize (s.catLen n) < 2 ^ 63)
    (hroom : s.dataOf + n ≤ growSize (s.catLen n)) : Fits (s.dataOf + n) := by
  have hbound := growSize_bound h
  have hlen : s.catLen n = s.dataOf + n + 1 := Nat.mod_eq_of_lt (by omega)
  -- a count of 2^18 blocks is the one that is negative at once
  rcases Nat.lt_or_ge (s.dataOf + n + 2) (2 ^ 31 - 8192) with hlt | hge
  · unfold Fits shbufBlocks
    omega
  · have hcount : (s.dataOf + n + 1 + 1) % 2 ^ 64 / 8192 + 1 = 2 ^ 18 := by omega
    rw [hlen, growSize, hcount] at h
    exact absurd h (by decide)

theorem fits_allocated {s : BufState} {n : Nat} (h : Fits (s.dataOf + n)) :
    growSize (s.catLen n) = shbufBlocks (s.dataOf + n + 1) := by
  have hlen : s.catLen n = s.dataOf + n + 1 := by
    have hblocks := shbufBlocks_le (s.dataOf + n + 1)
    exact Nat.mod_eq_of_lt (by unfold Fits at h; omega)
  rw [hlen]
  exact growSize_of_fits h

/-! ## Appending -/

variable {s : BufState}

/-- What a growth does: nothing where there is room, a refusal of a mapped file, a
block of the size asked for, the loss of the memory, or an attempt to enlarge what
the allocator does not have. -/
theorem BufState.grow_cases (s : BufState) (len : Nat) :
    (growSize len ≤ s.dataMax ∧ s.grow len = some (none, s)) ∨
    (s.dataMax < growSize len ∧ s.origin = .fmap ∧ s.grow len = some (some .opnotsupp, s)) ∨
    (∃ h : s.dataMax < growSize len, s.Owns ∧ growSize len < 2 ^ 63 ∧
      s.grow len = some (none, s.enlarged (growSize len) h)) ∨
    (s.dataMax < growSize len ∧ s.Owns ∧ 2 ^ 63 ≤ growSize len ∧
      s.grow len = some (some .nobufs, s.dropped)) ∨
    (s.dataMax < growSize len ∧ s.origin ≠ .fmap ∧ ¬ s.Owns ∧ s.grow len = none) := by
  unfold BufState.grow calloc
  split
  · next hroom => exact .inl ⟨hroom, rfl⟩
  · next hroom =>
    have hlt := Nat.lt_of_not_le hroom
    split
    · next hfmap => exact .inr (.inl ⟨hlt, hfmap, rfl⟩)
    · next hfmap =>
      split
      · next howns =>
        by_cases hsize : growSize len < 2 ^ 63
        · rw [if_pos hsize]
          exact .inr (.inr (.inl ⟨hlt, howns, hsize, rfl⟩))
        · rw [if_neg hsize]
          exact .inr (.inr (.inr (.inl ⟨hlt, howns, Nat.le_of_not_lt hsize, rfl⟩)))
      · next howns => exact .inr (.inr (.inr (.inr ⟨hlt, hfmap, howns, rfl⟩)))

/-- A mapped file is not grown. -/
theorem BufState.grow_fmap (h : s.origin = .fmap) (len : Nat) :
    ∃ err, s.grow len = some (err, s) := by
  unfold BufState.grow
  split
  · exact ⟨none, rfl⟩
  · exact ⟨some .opnotsupp, rfl⟩

theorem BufState.write_eq_some {data : Bytes} {s' : BufState} (h : s.write data = some s') :
    s.dataOf + data.length ≤ s.dataMax ∧ s'.dataOf = s.dataOf + data.length ∧
      s'.dataPos = s.dataPos := by
  unfold BufState.write at h
  split at h
  · next hroom =>
    cases h
    exact ⟨hroom, rfl, rfl⟩
  · cases h

/-- An append that leaves the buffer as it is had the room. -/
theorem BufState.catInside_iff_of_grow {data : Bytes} {err : Option Sherr} {s' : BufState}
    (hgrow : s.grow (s.catLen data.length) = some (err, s')) :
    s.CatInside data ↔ s'.dataOf + data.length ≤ s'.dataMax := by
  constructor
  · rintro ⟨err', s'', hrun, hkept⟩
    rw [hgrow] at hrun
    obtain ⟨-, rfl⟩ := Prod.mk.inj (Option.some.inj hrun)
    rcases hkept with hin | hcat
    · exact hin
    · unfold BufState.cat at hcat
      rw [hgrow] at hcat
      exact (BufState.write_eq_some hcat).1
  · intro hin
    exact ⟨err, s', hgrow, .inl hin⟩

/-- On the heap, a growth is the one of byte buffers. -/
theorem BufState.grow_heap {len : Nat} (horigin : s.origin = .heap)
    (hnull : s.dataMax = 0 → s.null = true)
    (hfits : shbufBlocks len < 2 ^ 31) :
    ∃ s', s.grow len = some (none, s') ∧ s'.toShbuf = s.toShbuf.grown len := by
  have hsize := growSize_of_fits hfits
  have howns : s.Owns := ⟨by rw [horigin]; nofun, by rw [horigin]; nofun⟩
  unfold Shbuf.grown
  dsimp only
  rw [← hsize] at hfits ⊢
  rcases s.grow_cases len with ⟨hroom, hgrow⟩ | ⟨-, hfmap, -⟩ | ⟨hlt, -, -, hgrow⟩ | ⟨-,
      -, hbig, -⟩ |
    ⟨-, -, hnot, -⟩
  · exact ⟨s, hgrow, (if_pos hroom).symm⟩
  · rw [horigin] at hfmap
    cases hfmap
  · refine ⟨_, hgrow, ?_⟩
    rw [if_neg (Nat.not_le.mpr hlt)]
    generalize growSize len = max at hlt
    by_cases hzero : s.dataMax = 0
    · -- `calloc`
      rw [if_pos hzero]
      simp [BufState.enlarged, hnull hzero]
    · -- `realloc`
      rw [if_neg hzero]
      have hfalse : s.null = false := Bool.eq_false_iff.mpr fun h => hzero (s.empty h)
      simp [BufState.enlarged, hfalse]
  · omega
  · exact absurd howns hnot

/-- On the heap, an append is the one of byte buffers. -/
theorem BufState.cat_heap {data : Bytes} (horigin : s.origin = .heap)
    (hnull : s.dataMax = 0 → s.null = true)
    (hfits : Fits (s.dataOf + data.length)) :
    (s.cat data).map (·.toShbuf) = shbufCat s.toShbuf data := by
  have hlen : s.catLen data.length = s.dataOf + data.length + 1 := by
    have hle := shbufBlocks_le (s.dataOf + data.length + 1)
    unfold Fits at hfits
    exact Nat.mod_eq_of_lt (by omega)
  obtain ⟨s', hgrow, hsame⟩ := BufState.grow_heap horigin hnull hfits
  obtain ⟨-, hof, hmax⟩ := Shbuf.grown_spec s.inside (s.dataOf + data.length + 1)
  have hroom : s'.dataOf + data.length ≤ s'.dataMax := by
    rw [hsame]
    omega
  unfold BufState.cat shbufCat shbufGrow
  rw [hlen, hgrow, Option.bind_some, BufState.write, dif_pos hroom,
    if_pos (show shbufBlocks _ < 2 ^ 31 from hfits), ← hsame]
  rfl

/-- The bytes appended are inside of the memory just when there is room for them
and the buffer is a mapped file or is not to grow, or when the memory is the
allocator's and what they need is less than 2^31 bytes. -/
theorem catInside_iff (s : BufState) (data : Bytes) : s.CatInside data ↔ s.CatFits data.length := by
  have hinside := s.inside
  rcases s.grow_cases (s.catLen data.length) with ⟨hroom, hgrow⟩ | ⟨hlt, hfmap, hgrow⟩ |
    ⟨hlt, howns, hsize, hgrow⟩ | ⟨hlt, howns, hbig, hgrow⟩ | ⟨hlt, hfile, hnot, hgrow⟩
  · -- nothing is allocated
    rw [BufState.catInside_iff_of_grow hgrow]
    constructor
    · intro hin
      exact .inl ⟨hin, .inr hroom⟩
    · rintro (⟨hin, -⟩ | ⟨-, hzero | hfits⟩)
      · exact hin
      · omega
      · have hsize := fits_allocated hfits
        have hle := shbufBlocks_le (s.dataOf + data.length + 1)
        omega
  · -- the status of a mapped file is not heeded
    rw [BufState.catInside_iff_of_grow hgrow]
    constructor
    · intro hin
      exact .inl ⟨hin, .inl hfmap⟩
    · rintro (⟨hin, -⟩ | ⟨⟨hheap, -⟩, -⟩)
      · exact hin
      · exact absurd hfmap hheap
  · -- a block of the size asked for, which need not be the size needed
    rw [BufState.catInside_iff_of_grow hgrow, BufState.enlarged_dataOf, BufState.enlarged_dataMax]
    constructor
    · intro hin
      exact .inr ⟨howns, .inr (fits_of_allocated hsize hin)⟩
    · rintro (⟨hin, -⟩ | ⟨-, hzero | hfits⟩)
      · omega
      · omega
      · have hexact := fits_allocated hfits
        have hle := shbufBlocks_le (s.dataOf + data.length + 1)
        omega
  · -- the memory is lost, and nothing fits into none
    rw [BufState.catInside_iff_of_grow hgrow, BufState.dropped_dataOf, BufState.dropped_dataMax]
    constructor
    · intro hin
      exact .inr ⟨howns, .inl (by omega)⟩
    · rintro (⟨-, hfmap | hroom⟩ | ⟨-, hzero | hfits⟩)
      · exact absurd hfmap howns.1
      · omega
      · omega
      · have hexact := fits_allocated hfits
        unfold Fits at hfits
        omega
  · -- the memory of a caller
    constructor
    · rintro ⟨err, s', hrun, -⟩
      rw [hgrow] at hrun
      cases hrun
    · rintro (⟨-, hfmap | hroom⟩ | ⟨howns, -⟩)
      · exact absurd hfmap hfile
      · omega
      · exact absurd howns hnot

/-- A file is full when it is mapped. Whatever is appended to it is written behind the map. -/
theorem file_catInside (content data : Bytes) :
    (BufState.file content).CatInside data ↔ data = [] := by
  have hfull : (BufState.file content).dataOf = (BufState.file content).dataMax :=
    shbufGrowmap_full (fileMapLen_pos content.length)
  obtain ⟨err, hgrow⟩ :=
    BufState.grow_fmap (s := BufState.file content) rfl ((BufState.file content).catLen data.length)
  rw [BufState.catInside_iff_of_grow hgrow, hfull, ← List.length_eq_zero_iff]
  omega

/-- An empty file is mapped with 16384 bytes, and the byte appended to it is written behind them. -/
theorem mapped_file_overrun :
    (BufState.file []).dataMax = 16384 ∧ ¬ (BufState.file []).CatInside [1] :=
  ⟨rfl, fun hin => List.cons_ne_nil _ _ ((file_catInside [] [1]).mp hin)⟩

end LibShare.Mem
