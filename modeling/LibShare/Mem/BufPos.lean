import LibShare.Lib.Runs
import LibShare.Mem.BufKinds

/-!
# libshare — the position in a buffer

`data_pos` of `shmem_buf.c`, the position up to which a buffer has been read.
`shbuf_pos_set` and `shbuf_pos_incr` do not go beyond the contents. The
operations that shorten the contents leave the position where it is, and so does
an append that loses them (`bufPos_iff`).
-/

namespace LibShare.Mem

/-! ## Operations -/

theorem shbufTrim_max (buf : Shbuf) (len : Nat) : (shbufTrim buf len).dataMax = buf.dataMax := by
  unfold shbufTrim
  dsimp only
  split
  · rfl
  · split
    · rfl
    · rfl

theorem shbufTruncate_dataMax (buf : Shbuf) (len : Nat) :
    (shbufTruncate buf len).dataMax = buf.dataMax := by
  unfold shbufTruncate
  dsimp only
  split
  · rfl
  · split
    · rfl
    · rfl

namespace BufState

/-- `shbuf_pos_set`. -/
def posSet (s : BufState) (pos : Nat) : BufState := { s with dataPos := min s.dataOf pos }

/-- `shbuf_pos_incr`. -/
def posIncr (s : BufState) (pos : Nat) : BufState := s.posSet ((s.dataPos + pos) % 2 ^ 64)

/-- `shbuf_trim`. -/
def trim (s : BufState) (len : Nat) : BufState :=
  { s with
    toShbuf := shbufTrim s.toShbuf len
    inside := (shbufTrim_spec s.inside len).2
    empty := fun h => (shbufTrim_max s.toShbuf len).trans (s.empty h) }

/-- `shbuf_truncate`. -/
def truncate (s : BufState) (len : Nat) : BufState :=
  { s with
    toShbuf := shbufTruncate s.toShbuf len
    inside := shbufTruncate_max s.inside len
    empty := fun h => (shbufTruncate_dataMax s.toShbuf len).trans (s.empty h) }

/-- `shbuf_clear`. -/
def clear (s : BufState) : BufState := s.trim s.dataOf

end BufState

/-- The operations on a buffer with a position. -/
inductive PosOp
  | cat (data : Bytes)
  | posSet (pos : Nat)
  | posIncr (pos : Nat)
  | trim (len : Nat)
  | truncate (len : Nat)
  | clear

/-- What an operation does to a buffer. -/
def PosOp.run (s : BufState) : PosOp → Option BufState
  | .cat data => s.cat data
  | .posSet pos => some (s.posSet pos)
  | .posIncr pos => some (s.posIncr pos)
  | .trim len => some (s.trim len)
  | .truncate len => some (s.truncate len)
  | .clear => some s.clear

/-- The position is within the contents. -/
def BufState.PosValid (s : BufState) : Prop := s.dataPos ≤ s.dataOf

/-- The memory for another `n` bytes cannot be had, and the contents are lost. -/
def BufState.Lost (s : BufState) (n : Nat) : Prop :=
  s.Owns ∧ s.dataMax < growSize (s.catLen n) ∧ calloc (growSize (s.catLen n)) = none

/-- The operation leaves the bytes that have been read in the buffer, or there are none. -/
def PosOp.Keeps (s : BufState) : PosOp → Prop
  | .cat data => s.Lost data.length → data = [] → s.dataPos = 0
  | .posSet _ | .posIncr _ => True
  | .trim len => s.dataPos ≤ s.dataOf - len
  | .truncate len => len = 0 ∨ s.dataPos ≤ len
  | .clear => s.dataPos = 0

/-! ## Lengths -/

variable {s : BufState}

theorem BufState.trim_dataOf (s : BufState) (len : Nat) : (s.trim len).dataOf = s.dataOf - len := by
  have hcontents := congrArg List.length (shbufTrim_spec s.inside len).1
  rw [Shbuf.length_contents, List.length_drop, Shbuf.length_contents] at hcontents
  exact hcontents

theorem BufState.truncate_dataOf (s : BufState) (len : Nat) :
    (s.truncate len).dataOf = if len = 0 then s.dataOf else min len s.dataOf := by
  have hcontents := congrArg List.length (shbufTruncate_spec s.inside len)
  rw [Shbuf.length_contents, apply_ite List.length, List.length_take, Shbuf.length_contents]
    at hcontents
  exact hcontents

/-- An append leaves the position, and adds to the contents or loses them. -/
theorem BufState.cat_spec {data : Bytes} {s' : BufState} (h : s.cat data = some s') :
    s'.dataPos = s.dataPos ∧
      (s.Lost data.length ∧ data = [] ∧ s'.dataOf = 0 ∨
        ¬ s.Lost data.length ∧ s'.dataOf = s.dataOf + data.length) := by
  unfold BufState.cat at h
  rcases s.grow_cases (s.catLen data.length) with ⟨hroom, hgrow⟩ | ⟨hlt, hfmap, hgrow⟩ |
    ⟨hlt, howns, hsize, hgrow⟩ | ⟨hlt, howns, hbig, hgrow⟩ | ⟨-, -, -, hgrow⟩
  · rw [hgrow] at h
    obtain ⟨-, hof, hpos⟩ := BufState.write_eq_some h
    exact ⟨hpos, .inr ⟨fun hlost => Nat.not_lt.mpr hroom hlost.2.1, hof⟩⟩
  · rw [hgrow] at h
    obtain ⟨-, hof, hpos⟩ := BufState.write_eq_some h
    exact ⟨hpos, .inr ⟨fun hlost => hlost.1.1 hfmap, hof⟩⟩
  · rw [hgrow] at h
    obtain ⟨-, hof, hpos⟩ := BufState.write_eq_some h
    refine ⟨hpos, .inr ⟨?_, hof⟩⟩
    rintro ⟨-, -, hnone⟩
    rw [calloc, if_pos hsize] at hnone
    cases hnone
  · rw [hgrow] at h
    obtain ⟨hin, hof, hpos⟩ := BufState.write_eq_some h
    rw [BufState.dropped_dataOf, BufState.dropped_dataMax] at hin
    -- there is no room for a byte where there is no memory
    have hempty : data = [] := List.length_eq_zero_iff.mp (by omega)
    have hlost : s.Lost data.length := ⟨howns, hlt, if_neg (Nat.not_lt.mpr hbig)⟩
    refine ⟨hpos, .inl ⟨hlost, hempty, ?_⟩⟩
    rw [hof, hempty]
    rfl
  · rw [hgrow] at h
    cases h

/-- An append of nothing that loses the contents has a result. -/
theorem BufState.cat_lost (h : s.Lost 0) : ∃ s', s.cat [] = some s' := by
  obtain ⟨howns, hlt, hnone⟩ := h
  have hgrow : s.grow (s.catLen 0) = some (some .nobufs, s.dropped) := by
    unfold BufState.grow
    rw [dif_neg (Nat.not_le.mpr hlt), if_neg howns.1, if_pos howns, if_pos hnone]
  have hcat : s.cat [] = s.dropped.write [] := by
    show (s.grow (s.catLen 0)).bind _ = _
    rw [hgrow]
    rfl
  rw [hcat]
  exact ⟨_, rfl⟩

/-! ## The position -/

/-- An operation keeps the position valid just when the bytes that have been read stay. -/
theorem PosOp.run_valid (s : BufState) (op : PosOp) (h : s.PosValid) :
    (∀ s', op.run s = some s' → s'.PosValid) ↔ op.Keeps s := by
  unfold BufState.PosValid at *
  cases op with
  | cat data =>
    show (∀ s', s.cat data = some s' → _) ↔ (s.Lost data.length → data = [] → s.dataPos = 0)
    constructor
    · rintro hall hlost rfl
      obtain ⟨s', hcat⟩ := BufState.cat_lost hlost
      have hvalid := hall s' hcat
      obtain ⟨hpos, ⟨-, -, hof⟩ | ⟨hnot, -⟩⟩ := BufState.cat_spec hcat
      · omega
      · exact absurd hlost hnot
    · intro hkeeps s' hcat
      obtain ⟨hpos, ⟨hlost, hempty, hof⟩ | ⟨-, hof⟩⟩ := BufState.cat_spec hcat
      · have hzero := hkeeps hlost hempty
        omega
      · omega
  | posSet pos =>
    refine iff_of_true ?_ trivial
    rintro s' ⟨⟩
    exact Nat.min_le_left _ _
  | posIncr pos =>
    refine iff_of_true ?_ trivial
    rintro s' ⟨⟩
    exact Nat.min_le_left _ _
  | trim len =>
    have hof := s.trim_dataOf len
    constructor
    · intro hall
      have hvalid : s.dataPos ≤ (s.trim len).dataOf := hall _ rfl
      rw [hof] at hvalid
      exact hvalid
    · rintro hkeeps s' ⟨⟩
      rw [hof]
      exact hkeeps
  | truncate len =>
    have hof := s.truncate_dataOf len
    show _ ↔ (len = 0 ∨ s.dataPos ≤ len)
    -- a length of zero is taken for nothing to do
    constructor
    · intro hall
      have hvalid : s.dataPos ≤ (s.truncate len).dataOf := hall _ rfl
      rw [hof] at hvalid
      split at hvalid
      · next hzero => exact .inl hzero
      · exact .inr (by omega)
    · rintro hkeeps s' ⟨⟩
      rw [hof]
      show s.dataPos ≤ _
      split
      · exact h
      · omega
  | clear =>
    have hof := s.trim_dataOf s.dataOf
    show _ ↔ s.dataPos = 0
    constructor
    · intro hall
      have hvalid : s.dataPos ≤ (s.trim s.dataOf).dataOf := hall _ rfl
      omega
    · rintro hkeeps s' ⟨⟩
      show s.dataPos ≤ (s.trim s.dataOf).dataOf
      omega

/-- The position is valid in every state of a run just when no operation of the run
takes away bytes that have been read. -/
theorem bufPos_iff (ops : List PosOp) (s : BufState) (h : s.PosValid) :
    AlwaysAlong PosOp.run BufState.PosValid s ops ↔ KeepsAlong PosOp.run PosOp.Keeps s ops :=
  always_iff_keeps PosOp.run_valid ops s h

/-- The two sides agree on a run of a new buffer, in which the position is set, raised, and cut
back. -/
theorem bufPos_iff_init :
    AlwaysAlong PosOp.run BufState.PosValid .init [.posSet 7, .cat [1, 2, 3], .posIncr 2,
      .truncate 2] ↔
      KeepsAlong PosOp.run PosOp.Keeps .init [.posSet 7, .cat [1, 2, 3], .posIncr 2, .truncate 2] :=
  bufPos_iff _ .init (Nat.le_refl 0)

/-- Three bytes of a caller are read, and then the buffer is cleared. -/
theorem position_behind_clear :
    ¬ AlwaysAlong PosOp.run BufState.PosValid (.map [1, 2, 3] false) [.posSet 3, .clear] := by
  rintro ⟨-, hset⟩
  obtain ⟨-, hclear⟩ := hset _ rfl
  have hvalid : 3 ≤ ((BufState.map [1, 2, 3] false).posSet 3).clear.dataOf := hclear _ rfl
  exact absurd hvalid (by decide)

end LibShare.Mem
