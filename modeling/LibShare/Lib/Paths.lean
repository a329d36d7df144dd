import Mathlib.Data.List.Basic
import Mathlib.Tactic.Common

/-!
# Paths and where they lead

A path is a list of components, followed one after the other from a position: into
a name, up one level, or nowhere. A position is the levels above where one began,
and the names below that; at the root there is no level above.

* `follow_eq_add` — where a path leads from a position is that position, less the
  levels that the path climbs out of by itself, and then the names it goes into.
* `below_add_iff` — that is below the position just when the path climbs out of
  nothing that it does not go back into.
-/

namespace LibShare

variable {α : Type}

/-- A component of a path. -/
inductive Component (α : Type)
  | stay
  | up
  | into (name : α)

/-- Where a path leads. -/
structure Position (α : Type) where
  root : Bool
  ups : Nat
  names : List α

def Position.step (p : Position α) : Component α → Position α
  | .stay => p
  | .into name => { p with names := p.names ++ [name] }
  | .up =>
    if p.names ≠ [] then { p with names := p.names.dropLast }
    else if p.root then p
    else { p with ups := p.ups + 1 }

/-- A path is followed from a position. -/
def Position.follow (p : Position α) (cs : List (Component α)) : Position α :=
  cs.foldl Position.step p

/-- Where one begins without a root. -/
def Position.here : Position α := { root := false, ups := 0, names := [] }

/-- The second one is under the first one. -/
def Position.Below (p q : Position α) : Prop :=
  q.root = p.root ∧ q.ups = p.ups ∧ ∃ a rest, q.names = p.names ++ a :: rest

/-- A number of levels up, and then down. -/
def Position.add (p q : Position α) : Position α :=
  if q.ups ≤ p.names.length then
    { p with names := p.names.take (p.names.length - q.ups) ++ q.names }
  else
    { p with
      ups := if p.root then p.ups else p.ups + (q.ups - p.names.length)
      names := q.names }

/-- What the second one goes up is within the first one, or beyond the root, and it goes
down the same names again, and farther. -/
def Position.Returns (p q : Position α) : Prop :=
  (q.ups ≤ p.names.length ∨ p.root) ∧ ∃ a rest,
    q.names = p.names.drop (p.names.length - q.ups) ++ a :: rest

theorem Position.follow_append (p : Position α) (cs ds : List (Component α)) :
    p.follow (cs ++ ds) = (p.follow cs).follow ds := List.foldl_append

section Add

variable {p q : Position α}

theorem Position.add_within (h : q.ups ≤ p.names.length) :
    p.add q = { p with names := p.names.take (p.names.length - q.ups) ++ q.names } := if_pos h

theorem Position.add_beyond (h : ¬ q.ups ≤ p.names.length) :
    p.add q =
      { p with
        ups := if p.root then p.ups else p.ups + (q.ups - p.names.length)
        names := q.names } := if_neg h

theorem Position.add_here (p : Position α) : p.add here = p := by
  rw [add_within (Nat.zero_le _)]
  show { p with names := p.names.take p.names.length ++ [] } = p
  rw [List.take_length, List.append_nil]

theorem Position.step_up_some (h : p.names ≠ []) :
    p.step .up = { p with names := p.names.dropLast } := if_pos h

theorem Position.step_up_nil (h : p.names = []) :
    p.step .up = if p.root then p else { p with ups := p.ups + 1 } := by
  rw [Position.step, if_neg (not_not.mpr h)]

/-- A component leads to where it leads by itself. -/
theorem Position.add_step (hq : q.root = false) (c : Component α) :
    (p.add q).step c = p.add (q.step c) := by
  cases c with
  | stay => rfl
  | into name =>
    by_cases hle : q.ups ≤ p.names.length
    · rw [add_within hle, add_within (q := q.step (.into name)) hle]
      simp only [Position.step, List.append_assoc]
    · rw [add_beyond hle, add_beyond (q := q.step (.into name)) hle]
      rfl
  | up =>
    -- a step upwards leaves the last name, or goes on above where `q` starts
    by_cases hnames : q.names = []
    · have hup : q.step .up = { q with ups := q.ups + 1 } := by
        rw [step_up_nil hnames, hq]
        rfl
      rw [hup]
      rcases Nat.lt_trichotomy q.ups p.names.length with hlt | heq | hgt
      · -- one name less of the position is left
        have hleft : p.names.take (p.names.length - q.ups) ++ q.names ≠ [] := by
          rw [hnames, List.append_nil]
          refine List.ne_nil_of_length_pos ?_
          rw [List.length_take]
          omega
        have hless : (p.names.take (p.names.length - q.ups)).dropLast =
            p.names.take (p.names.length - (q.ups + 1)) := by
          rw [List.dropLast_eq_take, List.length_take, List.take_take]
          congr 1
          omega
        rw [add_within (Nat.le_of_lt hlt), add_within (q := { q with ups := q.ups + 1 }) hlt]
        refine (step_up_some hleft).trans ?_
        simp only [hnames, List.append_nil, hless]
      · -- nothing of it is left, and there may be a level above it
        have hnone : p.names.take (p.names.length - q.ups) ++ q.names = [] := by
          rw [hnames, heq, Nat.sub_self]
          rfl
        have hbeyond : ¬ q.ups + 1 ≤ p.names.length := by omega
        rw [add_within (Nat.le_of_eq heq), add_beyond (q := { q with ups := q.ups + 1 }) hbeyond]
        refine (step_up_nil hnone).trans ?_
        rw [hnone]
        split
        · rw [hnames]
        · rw [hnames, heq, Nat.add_sub_cancel_left]
      · -- the position has been left before
        have hbeyond : ¬ q.ups + 1 ≤ p.names.length := by omega
        rw [add_beyond (Nat.not_le_of_lt hgt), add_beyond
          (q := { q with ups := q.ups + 1 }) hbeyond]
        refine (step_up_nil (p := { p with ups := _, names := q.names }) hnames).trans ?_
        dsimp only
        split
        · rfl
        · have hone : p.ups + (q.ups - p.names.length) + 1 = p.ups +
              (q.ups + 1 - p.names.length) := by omega
          rw [hone]
    · -- the name that is left is one of `q`
      have hup : q.step .up = { q with names := q.names.dropLast } := step_up_some hnames
      rw [hup]
      by_cases hle : q.ups ≤ p.names.length
      · have hleft : p.names.take (p.names.length - q.ups) ++ q.names ≠ [] :=
          fun h => hnames (List.append_eq_nil_iff.mp h).2
        rw [add_within hle, add_within (q := { q with names := q.names.dropLast }) hle,
          step_up_some hleft, List.dropLast_append_of_ne_nil hnames]
      · rw [add_beyond hle, add_beyond (q := { q with names := q.names.dropLast }) hle]
        exact step_up_some hnames

theorem Position.root_step (q : Position α) (c : Component α) : (q.step c).root = q.root := by
  cases c with
  | stay => rfl
  | into name => rfl
  | up =>
    by_cases hnames : q.names = []
    · rw [step_up_nil hnames]
      split
      · rfl
      · rfl
    · rw [step_up_some hnames]

theorem Position.root_follow (cs : List (Component α)) : ∀ q :
    Position α, (q.follow cs).root = q.root := by
  induction cs with
  | nil => exact fun _ => rfl
  | cons c cs ih => exact fun q => (ih (q.step c)).trans (root_step q c)

/-- A path leads to where it leads by itself, from the position. -/
theorem Position.follow_eq_add (p : Position α) (cs : List (Component α)) :
    p.follow cs = p.add (here.follow cs) := by
  have hgen : ∀ (cs : List (Component α)) (q : Position α), q.root = false →
      (p.add q).follow cs = p.add (q.follow cs) := by
    intro cs
    induction cs with
    | nil => exact fun _ _ => rfl
    | cons c cs ih =>
      intro q hq
      show ((p.add q).step c).follow cs = p.add ((q.step c).follow cs)
      rw [add_step hq]
      exact ih _ ((root_step q c).trans hq)
  have hstart := hgen cs here rfl
  rwa [add_here] at hstart

/-- The names are those of the position and more, just when what was left of them is
gone down again. -/
theorem names_return (names down : List α) (m : Nat) :
    (∃ a rest, names.take m ++ down = names ++ a :: rest) ↔
    ∃ a rest, down = names.drop m ++ a :: rest := by
  have hsplit : ∀ a rest, names.take m ++ down = names ++ a :: rest ↔
      down = names.drop m ++ a :: rest := by
    intro a rest
    have hboth : names ++ a :: rest = names.take m ++ (names.drop m ++ a :: rest) := by
      rw [← List.append_assoc, List.take_append_drop]
    rw [hboth, List.append_cancel_left_eq]
  exact exists_congr fun a => exists_congr fun rest => hsplit a rest

/-- What is added to a position is below it just when it returns to it. -/
theorem Position.below_add_iff (p q : Position α) : p.Below (p.add q) ↔ p.Returns q := by
  by_cases hle : q.ups ≤ p.names.length
  · rw [add_within hle, Below, Returns, and_iff_right rfl, and_iff_right rfl,
      and_iff_right (Or.inl hle)]
    exact names_return _ _ _
  · have hall : p.names.length - q.ups = 0 := by omega
    rw [add_beyond hle, Below, Returns, and_iff_right rfl, or_iff_right hle, hall, List.drop_zero]
    refine and_congr_left fun _ => ?_
    by_cases hroot : p.root
    · exact iff_of_true (if_pos hroot) hroot
    · -- what is above a position without a root is not below it
      dsimp only
      rw [if_neg hroot]
      refine iff_of_false ?_ hroot
      omega

end Add

end LibShare
