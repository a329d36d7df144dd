import Mathlib.Data.List.Basic
import Mathlib.Tactic.Common

/-!
# Streams in blocks

A stream is taken apart into blocks of a length and what is left over. A stream
that is extended later has the same blocks, and what was left over comes before
the extension (`blocks_append`, `rest_append`).
-/

namespace LibShare

variable {α : Type} {n : Nat} {l x y : List α}

/-- The complete blocks of a stream. -/
def blocks (n : Nat) (l : List α) : List (List α) :=
  if 0 < n ∧ n ≤ l.length then l.take n :: blocks n (l.drop n) else []
termination_by l.length
decreasing_by
  rw [List.length_drop]
  omega

/-- What the complete blocks leave over. -/
def rest (n : Nat) (l : List α) : List α :=
  if 0 < n ∧ n ≤ l.length then rest n (l.drop n) else l
termination_by l.length
decreasing_by
  rw [List.length_drop]
  omega

theorem blocks_long (hn : 0 < n) (h : n ≤ l.length) :
    blocks n l = l.take n :: blocks n (l.drop n) := by
  rw [blocks, if_pos ⟨hn, h⟩]

theorem blocks_short (h : l.length < n) : blocks n l = [] := by
  rw [blocks, if_neg (by omega)]

theorem rest_long (hn : 0 < n) (h : n ≤ l.length) : rest n l = rest n (l.drop n) := by
  rw [rest, if_pos ⟨hn, h⟩]

theorem rest_short (h : l.length < n) : rest n l = l := by
  rw [rest, if_neg (by omega)]

/-- What is proved of a short stream, and of a stream from what follows its first
block, holds of every stream. -/
theorem blocks_induction {P : List α → Prop} (hn : 0 < n) (hshort : ∀ l, l.length < n → P l)
    (hlong : ∀ l, n ≤ l.length → P (l.drop n) → P l) (l : List α) : P l := by
  by_cases h : n ≤ l.length
  · exact hlong l h (blocks_induction hn hshort hlong (l.drop n))
  · exact hshort l (by omega)
termination_by l.length
decreasing_by
  rw [List.length_drop]
  omega

theorem blocks_append (hn : 0 < n) (y : List α) :
    ∀ x : List α, blocks n (x ++ y) = blocks n x ++ blocks n (rest n x ++ y) := by
  refine blocks_induction hn ?_ ?_
  · intro x h
    rw [blocks_short h, rest_short h, List.nil_append]
  · intro x h ih
    have hlong : n ≤ (x ++ y).length := by
      rw [List.length_append]
      omega
    rw [blocks_long hn hlong, blocks_long hn h, rest_long hn h, List.take_append_of_le_length h,
      List.drop_append_of_le_length h, ih, List.cons_append]

theorem rest_append (hn : 0 < n) (y : List α) :
    ∀ x : List α, rest n (x ++ y) = rest n (rest n x ++ y) := by
  refine blocks_induction hn ?_ ?_
  · intro x h
    rw [rest_short h]
  · intro x h ih
    have hlong : n ≤ (x ++ y).length := by
      rw [List.length_append]
      omega
    rw [rest_long hn hlong, rest_long hn h, List.drop_append_of_le_length h, ih]

end LibShare
