import LibShare.Base
import LibShare.Lib.Memory

/-!
# libshare — memory buffers

The growing byte buffers of `shmem_buf.c`. A buffer on the heap is an allocation
of `data_max` bytes, of which the first `data_of` are its contents.

* Memory is taken to suffice. What a byte beyond the allocation holds is what the
  allocation finds there: a file is extended with zeros, the first allocation of
  a buffer is zeroed, and `realloc` promises nothing.
* `shbuf_grow` counts blocks of 8192 bytes in an `int`. A buffer that would need
  2^31 bytes has no result.
* The bytes that are put into a buffer are not its own.

The operations on a heap buffer are those on a byte list (`BufOp.spec`), except
for `shbuf_truncate`, which takes a length of zero for nothing to do
(`shbuf_refines_iff`).
-/

namespace LibShare.Mem

/-! ## Buffers -/

/-- `shbuf_t`. -/
structure Shbuf where
  data : Memory
  dataOf : Nat
  dataMax : Nat
  /-- a file is mapped (`fd > 0`) -/
  mapped : Bool

/-- `shbuf_init`. -/
def shbufInit : Shbuf := { data := fun _ => 0, dataOf := 0, dataMax := 0, mapped := false }

/-- The size of the allocation that `shbuf_grow` asks for. -/
def shbufBlocks (len : Nat) : Nat := ((len + 1) / 8192 + 1) * 8192

/-- A buffer on the heap with the allocation that `shbuf_grow` asks for. -/
def Shbuf.grown (buf : Shbuf) (len : Nat) : Shbuf :=
  let max := shbufBlocks len
  if max ≤ buf.dataMax then buf
  else if buf.dataMax = 0 then
    -- `calloc`
    { buf with data := fun i => if i < max then 0 else buf.data i, dataMax := max }
  else { buf with dataMax := max }

/-- `shbuf_grow` of a buffer on the heap. -/
def shbufGrow (buf : Shbuf) (len : Nat) : Option Shbuf :=
  if shbufBlocks len < 2 ^ 31 then some (buf.grown len) else none

/-- `shbuf_growmap` of a file, on a host with pages of 4096 bytes. -/
def shbufGrowmap (buf : Shbuf) (len : Nat) : Shbuf :=
  if len ≤ buf.dataMax then buf
  else
    let max := max len 4096 / 4096 * 4096
    { buf with dataOf := max, dataMax := max }

/-- `SHARE_PAGE_SIZE`. -/
def sharePageSize : Nat := 8192

/-- How much `shbuf_file` maps of a file: whole pages, and at least two. -/
def fileMapLen (stSize : Nat) : Nat := sharePageSize * max 1 (max (stSize / sharePageSize) 2)

/-- The bytes in use. -/
def Shbuf.contents (buf : Shbuf) : Bytes := slice buf.data 0 buf.dataOf

/-- `shbuf_cat` of a buffer on the heap. -/
def shbufCat (buf : Shbuf) (data : Bytes) : Option Shbuf :=
  (shbufGrow buf (buf.dataOf + data.length + 1)).map fun buf =>
    { buf with data := poke buf.data buf.dataOf data, dataOf := buf.dataOf + data.length }

/-- `shbuf_trim`. A buffer without an allocation has no bytes. -/
def shbufTrim (buf : Shbuf) (len : Nat) : Shbuf :=
  let len := min len buf.dataOf
  if buf.dataMax = 0 ∨ len = 0 then buf
  else if buf.dataOf = len then
    { buf with data := poke buf.data 0 (List.replicate len 0), dataOf := 0 }
  else
    let nlen := buf.dataOf - len
    let data := poke buf.data 0 (slice buf.data len nlen)
    { buf with data := poke data nlen (List.replicate (buf.dataMax - nlen) 0), dataOf := nlen }

/-- `shbuf_clear`. -/
def shbufClear (buf : Shbuf) : Shbuf := shbufTrim buf buf.dataOf

/-- `shbuf_truncate`. -/
def shbufTruncate (buf : Shbuf) (len : Nat) : Shbuf :=
  let len := min len buf.dataOf
  if buf.dataMax = 0 ∨ len = 0 then buf
  else if buf.dataOf = len then buf
  else
    let nlen := buf.dataOf - len
    { buf with data := poke buf.data len (List.replicate nlen 0), dataOf := len }

/-- The loop of `shbuf_padd`. -/
def shbufPaddLoop : Nat → Shbuf → Option Shbuf
  | 0, buf => some buf
  | n + 1, buf => (shbufCat buf [0]).bind (shbufPaddLoop n)

/-- `shbuf_padd`. -/
def shbufPadd (buf : Shbuf) (len : Nat) : Option Shbuf := shbufPaddLoop (len - buf.dataOf) buf

/-- `shbuf_append`. -/
def shbufAppend (fromBuff toBuff : Shbuf) : Option Shbuf := shbufCat toBuff fromBuff.contents

/-- The operations on a buffer. -/
inductive BufOp
  | cat (data : Bytes)
  | trim (len : Nat)
  | truncate (len : Nat)
  | clear
  | padd (len : Nat)
  | append (fromBuff : Shbuf)

/-- What an operation does to a buffer. -/
def BufOp.run (buf : Shbuf) : BufOp → Option Shbuf
  | .cat data => shbufCat buf data
  | .trim len => some (shbufTrim buf len)
  | .truncate len => some (shbufTruncate buf len)
  | .clear => some (shbufClear buf)
  | .padd len => shbufPadd buf len
  | .append fromBuff => shbufAppend fromBuff buf

/-! ## Byte lists -/

/-- What an operation is for, on a byte list. -/
def BufOp.spec (xs : Bytes) : BufOp → Bytes
  | .cat data => xs ++ data
  | .trim len => xs.drop len
  | .truncate len => xs.take len
  | .clear => []
  | .padd len => xs ++ List.replicate (len - xs.length) 0
  | .append fromBuff => xs ++ fromBuff.contents

/-- A run on a buffer shows the byte list of the run on byte lists in every state,
within its allocation. -/
def Shbuf.Refines (buf : Shbuf) (xs : Bytes) : List BufOp → Prop
  | [] => buf.contents = xs ∧ buf.dataOf ≤ buf.dataMax
  | op :: ops => (buf.contents = xs ∧ buf.dataOf ≤ buf.dataMax) ∧
      ∃ buf', op.run buf = some buf' ∧ buf'.Refines (op.spec xs) ops

/-- The contents may grow to a length: the allocation is less than 2^31 bytes. -/
def Fits (len : Nat) : Prop := shbufBlocks (len + 1) < 2 ^ 31

instance (len : Nat) : Decidable (Fits len) := inferInstanceAs (Decidable (_ < _))

/-- An operation that is not a truncation of a filled buffer to nothing, and does
not need a larger allocation than there can be. -/
def BufOp.Sound (len : Nat) : BufOp → Prop
  | .cat data => Fits (len + data.length)
  | .truncate n => n = 0 → len = 0
  | .padd n => len < n → Fits n
  | .append fromBuff => Fits (len + fromBuff.dataOf)
  | .trim _ | .clear => True

/-- Every operation of a run is sound where it is applied. -/
def BufOp.SoundAlong (xs : Bytes) : List BufOp → Prop
  | [] => True
  | op :: ops => op.Sound xs.length ∧ SoundAlong (op.spec xs) ops

instance (len : Nat) : (op : BufOp) → Decidable (op.Sound len)
  | .cat data => inferInstanceAs (Decidable (Fits (len + data.length)))
  | .truncate n => inferInstanceAs (Decidable (n = 0 → len = 0))
  | .padd n => inferInstanceAs (Decidable (len < n → Fits n))
  | .append fromBuff => inferInstanceAs (Decidable (Fits (len + fromBuff.dataOf)))
  | .trim _ => isTrue trivial
  | .clear => isTrue trivial

instance BufOp.decidableSoundAlong :
    (xs : Bytes) → (ops : List BufOp) → Decidable (SoundAlong xs ops)
  | _, [] => isTrue trivial
  | xs, op :: ops =>
    have := decidableSoundAlong (op.spec xs) ops
    inferInstanceAs (Decidable (op.Sound xs.length ∧ SoundAlong (op.spec xs) ops))

/-! ## What the operations do -/

variable {buf buf' : Shbuf}

@[simp] theorem Shbuf.length_contents : buf.contents.length = buf.dataOf := length_slice _ _ _

theorem shbufBlocks_le (len : Nat) : len ≤ shbufBlocks len := by
  unfold shbufBlocks
  omega

/-- The contents split at an offset. -/
theorem Shbuf.contents_split {n : Nat} (h : n ≤ buf.dataOf) :
    buf.contents = slice buf.data 0 n ++ slice buf.data n (buf.dataOf - n) := by
  have hsum : n + (buf.dataOf - n) = buf.dataOf := by omega
  have hsplit := slice_append buf.data (buf.dataOf - n) n 0
  rw [hsum, Nat.zero_add] at hsplit
  exact hsplit

theorem Shbuf.take_contents {n : Nat} (h : n ≤ buf.dataOf) :
    buf.contents.take n = slice buf.data 0 n := by
  rw [Shbuf.contents_split h, List.take_append_of_le_length (by simp),
    List.take_of_length_le (by simp)]

theorem Shbuf.drop_contents {n : Nat} (h : n ≤ buf.dataOf) :
    buf.contents.drop n = slice buf.data n (buf.dataOf - n) := by
  rw [Shbuf.contents_split h, List.drop_append_of_le_length (by simp),
    List.drop_of_length_le (by simp), List.nil_append]

/-- Growing a buffer leaves its contents alone. -/
theorem Shbuf.grown_spec (hle : buf.dataOf ≤ buf.dataMax) (len : Nat) :
    (buf.grown len).contents = buf.contents ∧ (buf.grown len).dataOf = buf.dataOf ∧
      len ≤ (buf.grown len).dataMax := by
  have hblocks := shbufBlocks_le len
  unfold Shbuf.grown
  dsimp only
  split
  · exact ⟨rfl, rfl, by omega⟩
  · split
    · next hzero =>
      have hof : buf.dataOf = 0 := by omega
      refine ⟨?_, rfl, hblocks⟩
      unfold Shbuf.contents
      rw [hof]
      rfl
    · exact ⟨rfl, rfl, hblocks⟩

/-- An allocation is not made smaller. -/
theorem Shbuf.le_grown (buf : Shbuf) (len : Nat) : buf.dataMax ≤ (buf.grown len).dataMax := by
  unfold Shbuf.grown
  dsimp only
  split
  · exact Nat.le_refl _
  · next hless =>
    split
    · exact Nat.le_of_lt (Nat.not_le.mp hless)
    · exact Nat.le_of_lt (Nat.not_le.mp hless)

/-- `shbuf_cat` appends, where the allocation is possible. -/
theorem shbufCat_spec (hle : buf.dataOf ≤ buf.dataMax) (data : Bytes) :
    if Fits (buf.dataOf + data.length) then
      ∃ buf', shbufCat buf data = some buf' ∧ buf'.contents = buf.contents ++ data ∧
        buf'.dataOf ≤ buf'.dataMax
    else shbufCat buf data = none := by
  obtain ⟨hsame, hof, hmax⟩ := Shbuf.grown_spec hle (buf.dataOf + data.length + 1)
  unfold shbufCat shbufGrow Fits
  split
  · refine ⟨_, rfl, ?_, ?_⟩
    · unfold Shbuf.contents at hsame ⊢
      dsimp only
      rw [hof] at hsame ⊢
      rw [slice_append, Nat.zero_add, slice_poke, slice_poke_ne (by omega), hsame]
    · show (buf.grown _).dataOf + data.length ≤ (buf.grown _).dataMax
      omega
  · rfl

theorem shbufTrim_spec (hle : buf.dataOf ≤ buf.dataMax) (len : Nat) :
    (shbufTrim buf len).contents = buf.contents.drop len ∧
      (shbufTrim buf len).dataOf ≤ (shbufTrim buf len).dataMax := by
  have hmin : buf.contents.drop len = buf.contents.drop (min len buf.dataOf) := by
    rw [List.drop_eq_drop_min, Shbuf.length_contents]
  rw [hmin]
  unfold shbufTrim
  dsimp only
  split
  · next hnone =>
    have hzero : min len buf.dataOf = 0 := by omega
    rw [hzero]
    exact ⟨rfl, hle⟩
  · split
    · next hall =>
      refine ⟨?_, Nat.zero_le _⟩
      rw [Shbuf.drop_contents (Nat.min_le_right _ _), ← hall, Nat.sub_self]
      rfl
    · refine ⟨?_, ?_⟩
      · -- the bytes moved down are not reached by what is cleared after them
        rw [Shbuf.drop_contents (Nat.min_le_right _ _)]
        have hread := slice_poke buf.data (slice buf.data (min len buf.dataOf)
          (buf.dataOf - min len buf.dataOf)) 0
        rw [length_slice] at hread
        exact (slice_poke_ne (Or.inl (Nat.le_of_eq (Nat.zero_add _)))).trans hread
      · show buf.dataOf - min len buf.dataOf ≤ buf.dataMax
        omega

theorem shbufClear_spec (hle : buf.dataOf ≤ buf.dataMax) :
    (shbufClear buf).contents = [] ∧ (shbufClear buf).dataOf ≤ (shbufClear buf).dataMax := by
  obtain ⟨hcontents, hmax⟩ := shbufTrim_spec hle buf.dataOf
  refine ⟨?_, hmax⟩
  rw [List.drop_of_length_le (by simp)] at hcontents
  exact hcontents

theorem shbufTruncate_max (hle : buf.dataOf ≤ buf.dataMax) (len : Nat) :
    (shbufTruncate buf len).dataOf ≤ (shbufTruncate buf len).dataMax := by
  unfold shbufTruncate
  dsimp only
  split
  · exact hle
  · split
    · exact hle
    · show min len buf.dataOf ≤ buf.dataMax
      omega

/-- `shbuf_truncate` keeps the first bytes, and keeps all bytes where it is asked
to keep none. -/
theorem shbufTruncate_spec (hle : buf.dataOf ≤ buf.dataMax) (len : Nat) :
    (shbufTruncate buf len).contents = if len = 0 then buf.contents else buf.contents.take len := by
  have hmin : buf.contents.take len = buf.contents.take (min len buf.dataOf) := by
    rw [List.take_eq_take_min, Shbuf.length_contents]
  rw [hmin]
  unfold shbufTruncate
  dsimp only
  split
  · next hnone =>
    split
    · rfl
    · have hempty : buf.contents = [] := List.length_eq_zero_iff.mp (by simp; omega)
      rw [hempty, List.take_nil]
  · next hsome =>
    have hne : ¬ len = 0 := by omega
    rw [if_neg hne]
    split
    · next hall => rw [← hall, List.take_of_length_le (by simp)]
    · rw [Shbuf.take_contents (Nat.min_le_right _ _)]
      exact slice_poke_ne (Or.inl (Nat.le_of_eq (Nat.zero_add _)))

theorem Fits.mono {m n : Nat} (h : Fits n) (hle : m ≤ n) : Fits m := by
  have hblocks : shbufBlocks (m + 1) ≤ shbufBlocks (n + 1) := by
    unfold shbufBlocks
    omega
  exact Nat.lt_of_le_of_lt hblocks h

/-- The loop of `shbuf_padd`, one byte at a time. -/
theorem shbufPaddLoop_spec : ∀ (n : Nat) {buf : Shbuf}, buf.dataOf ≤ buf.dataMax →
    if n = 0 ∨ Fits (buf.dataOf + n) then
      ∃ buf', shbufPaddLoop n buf = some buf' ∧
        buf'.contents = buf.contents ++ List.replicate n 0 ∧ buf'.dataOf ≤ buf'.dataMax
    else shbufPaddLoop n buf = none := by
  intro n
  induction n with
  | zero =>
    intro buf hle
    rw [if_pos (Or.inl rfl)]
    exact ⟨buf, rfl, (List.append_nil _).symm, hle⟩
  | succ n ih =>
    intro buf hle
    have hcat := shbufCat_spec hle [0]
    rw [List.length_singleton] at hcat
    by_cases hone : Fits (buf.dataOf + 1)
    · rw [if_pos hone] at hcat
      obtain ⟨buf1, hrun, hcontents, hle1⟩ := hcat
      have hof : buf1.dataOf = buf.dataOf + 1 := by
        have hlen := congrArg List.length hcontents
        rw [List.length_append, Shbuf.length_contents, Shbuf.length_contents] at hlen
        exact hlen
      have hrest := ih hle1
      have hloop : shbufPaddLoop (n + 1) buf = shbufPaddLoop n buf1 := by
        rw [shbufPaddLoop, hrun, Option.bind_some]
      have hsum : buf1.dataOf + n = buf.dataOf + (n + 1) := by omega
      rw [hsum] at hrest
      rw [hloop]
      by_cases hall : Fits (buf.dataOf + (n + 1))
      · rw [if_pos (Or.inr hall)] at hrest ⊢
        obtain ⟨buf', hrun', hcontents', hle'⟩ := hrest
        refine ⟨buf', hrun', ?_, hle'⟩
        rw [hcontents', hcontents, List.append_assoc]
        rfl
      · rw [if_neg (by rintro (h | h); exact absurd h (Nat.succ_ne_zero n); exact hall h)]
        have hn : n ≠ 0 := by
          rintro rfl
          exact hall hone
        rw [if_neg (by rintro (h | h); exact hn h; exact hall h)] at hrest
        exact hrest
    · rw [if_neg hone] at hcat
      have hall : ¬ Fits (buf.dataOf + (n + 1)) := fun h => hone (h.mono (by omega))
      rw [if_neg (by rintro (h | h); exact absurd h (Nat.succ_ne_zero n); exact hall h)]
      rw [shbufPaddLoop, hcat]
      rfl

/-- An operation does what it is for just when it is sound. -/
theorem BufOp.run_spec (hle : buf.dataOf ≤ buf.dataMax) (op : BufOp) :
    (∃ buf', op.run buf = some buf' ∧ buf'.contents = op.spec buf.contents ∧
      buf'.dataOf ≤ buf'.dataMax) ↔ op.Sound buf.dataOf := by
  cases op with
  | cat data =>
    have hcat := shbufCat_spec hle data
    show (∃ buf', shbufCat buf data = some buf' ∧ _) ↔ Fits (buf.dataOf + data.length)
    split at hcat
    · next hfits => exact iff_of_true hcat hfits
    · next hfits =>
      refine iff_of_false ?_ hfits
      rintro ⟨buf', hrun, -⟩
      rw [hcat] at hrun
      cases hrun
  | trim len => exact iff_of_true ⟨_, rfl, shbufTrim_spec hle len⟩ trivial
  | clear => exact iff_of_true ⟨_, rfl, shbufClear_spec hle⟩ trivial
  | truncate len =>
    have htruncate := shbufTruncate_spec hle len
    show _ ↔ (len = 0 → buf.dataOf = 0)
    -- a length of zero takes nothing away, so nothing may be there
    constructor
    · rintro ⟨buf', hrun, hcontents, -⟩ hzero
      cases hrun
      rw [htruncate, if_pos hzero, hzero] at hcontents
      have hlen := congrArg List.length hcontents
      rw [Shbuf.length_contents] at hlen
      exact hlen
    · intro hsound
      refine ⟨_, rfl, ?_, shbufTruncate_max hle len⟩
      rw [htruncate]
      split
      · next hzero =>
        have hempty : buf.contents = [] := List.length_eq_zero_iff.mp (by simp [hsound hzero])
        rw [hempty]
        exact List.take_nil.symm
      · rfl
  | padd len =>
    have hpadd := shbufPaddLoop_spec (len - buf.dataOf) hle
    show (∃ buf', shbufPaddLoop (len - buf.dataOf) buf = some buf' ∧
      buf'.contents = buf.contents ++ List.replicate (len - buf.contents.length) 0 ∧ _) ↔
        (buf.dataOf < len → Fits len)
    rw [Shbuf.length_contents]
    split at hpadd
    · next hfits =>
      refine iff_of_true hpadd ?_
      intro hlt
      rcases hfits with hzero | hfits
      · omega
      · exact hfits.mono (by omega)
    · next hfits =>
      refine iff_of_false ?_ ?_
      · rintro ⟨buf', hrun, -⟩
        rw [hpadd] at hrun
        cases hrun
      · intro hsound
        refine hfits ?_
        rcases Nat.lt_or_ge buf.dataOf len with hlt | hge
        · exact Or.inr ((hsound hlt).mono (by omega))
        · exact Or.inl (by omega)
  | append fromBuff =>
    have hcat := shbufCat_spec hle fromBuff.contents
    rw [Shbuf.length_contents] at hcat
    show (∃ buf', shbufCat buf fromBuff.contents = some buf' ∧ _) ↔
        Fits (buf.dataOf + fromBuff.dataOf)
    split at hcat
    · next hfits => exact iff_of_true hcat hfits
    · next hfits =>
      refine iff_of_false ?_ hfits
      rintro ⟨buf', hrun, -⟩
      rw [hcat] at hrun
      cases hrun

theorem Shbuf.Refines.head {xs : Bytes} {ops : List BufOp} (h : buf.Refines xs ops) :
    buf.contents = xs ∧ buf.dataOf ≤ buf.dataMax := by
  cases ops with
  | nil => exact h
  | cons _ _ => exact h.1

/-- A buffer within its allocation shows, in every state of a run, the byte list
of the run on byte lists just when every operation of the run is sound. -/
theorem shbuf_refines_iff : ∀ (ops : List BufOp) (buf : Shbuf), buf.dataOf ≤ buf.dataMax →
    (buf.Refines buf.contents ops ↔ BufOp.SoundAlong buf.contents ops) := by
  -- induction on the calls; a call that is not sound ends the run
  intro ops
  induction ops with
  | nil =>
    intro buf hle
    exact iff_of_true ⟨rfl, hle⟩ trivial
  | cons op ops ih =>
    intro buf hle
    have hlen : buf.dataOf = buf.contents.length := Shbuf.length_contents.symm
    have hrun := BufOp.run_spec hle op
    rw [hlen] at hrun
    constructor
    · rintro ⟨-, buf', hop, hrest⟩
      obtain ⟨hcontents, hle'⟩ := hrest.head
      refine ⟨hrun.mp ⟨buf', hop, hcontents, hle'⟩, ?_⟩
      rw [← hcontents] at hrest ⊢
      exact (ih buf' hle').mp hrest
    · rintro ⟨hsound, hrest⟩
      obtain ⟨buf', hop, hcontents, hle'⟩ := hrun.mpr hsound
      refine ⟨⟨rfl, hle⟩, buf', hop, ?_⟩
      rw [← hcontents] at hrest ⊢
      exact (ih buf' hle').mpr hrest

/-- A run of all the operations on a new buffer. It does not truncate a buffer with contents to
zero. -/
theorem shbuf_refines_iff_init :
    shbufInit.Refines shbufInit.contents [.cat [1, 2, 3], .truncate 2, .trim 1, .padd 4, .clear] :=
  (shbuf_refines_iff _ shbufInit (Nat.le_refl 0)).mpr (by decide)

/-- A buffer of one byte is truncated to nothing, and still has the byte. -/
theorem shbufTruncate_keeps_byte :
    ¬ shbufInit.Refines shbufInit.contents [.cat [1], .truncate 0] := by
  rintro ⟨-, buf1, -, ⟨hone, hle⟩, buf2, hrun, hnone, -⟩
  cases hrun
  rw [shbufTruncate_spec hle 0, if_pos rfl, hone] at hnone
  cases hnone

end LibShare.Mem
