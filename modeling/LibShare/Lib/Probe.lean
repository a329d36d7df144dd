import Mathlib.Data.List.Basic
import Mathlib.Tactic.Common

/-!
# Probe sequences

The places that are tried for a key, in order, each of them free or taken by an
entry. An entry is added at the first free place, or behind the last one
(`probeAdd`), and a key is looked for up to the first free place (`probeFind`).

Nothing but free places follows a free one (`Packed`). Adding an entry keeps that, and
keeps what is found for every other key (`probeFind_add_ne`).
-/

namespace LibShare

variable {α κ : Type} [DecidableEq κ] {key : α → κ} {k : κ} {a : α} {l : List (Option α)}

/-- The first entry with a key, before the first free place. -/
def probeFind (key : α → κ) (k : κ) : List (Option α) → Option α
  | [] => none
  | none :: _ => none
  | some a :: l => if key a = k then some a else probeFind key k l

/-- An entry takes the first free place, or a new one. -/
def probeAdd (a : α) : List (Option α) → List (Option α)
  | [] => [some a]
  | none :: l => some a :: l
  | some b :: l => some b :: probeAdd a l

/-- The places that are taken come first. -/
inductive Packed : List (Option α) → Prop
  | free {l : List (Option α)} : (∀ x ∈ l, x = none) → Packed l
  | taken {b : α} {l : List (Option α)} : Packed l → Packed (some b :: l)

theorem probeFind_free (h : ∀ x ∈ l, x = none) : probeFind key k l = none := by
  cases l with
  | nil => rfl
  | cons x l =>
    rw [h x List.mem_cons_self]
    rfl

/-- Free places behind the last one change nothing. -/
theorem Packed.append (h : Packed l) {l' : List (Option α)} (hfree : ∀ x ∈ l', x = none) :
    Packed (l ++ l') := by
  induction h with
  | free hl =>
    refine .free fun x hx => ?_
    exact (List.mem_append.mp hx).elim (hl x) (hfree x)
  | taken _ ih => exact .taken ih

theorem probeFind_append (h : Packed l) {l' : List (Option α)} (hfree : ∀ x ∈ l', x = none) :
    probeFind key k (l ++ l') = probeFind key k l := by
  induction h with
  | free hl =>
    rw [probeFind_free hl]
    refine probeFind_free fun x hx => ?_
    exact (List.mem_append.mp hx).elim (hl x) (hfree x)
  | taken _ ih => rw [List.cons_append, probeFind, probeFind, ih]

/-- Only the keys of the entries matter. -/
theorem probeFind_congr {key' : α → κ} (h : ∀ a, some a ∈ l → key' a = key a) :
    probeFind key' k l = probeFind key k l := by
  induction l with
  | nil => rfl
  | cons x l ih =>
    have hrest := ih fun a ha => h a (List.mem_cons_of_mem _ ha)
    cases x with
    | none => rfl
    | some b => rw [probeFind, probeFind, hrest, h b List.mem_cons_self]

theorem mem_probeAdd {x : Option α} (h : x ∈ probeAdd a l) : x = some a ∨ x ∈ l := by
  induction l with
  | nil => exact Or.inl (List.mem_singleton.mp h)
  | cons y l ih =>
    cases y with
    | none => exact (List.mem_cons.mp h).imp id (List.mem_cons_of_mem _)
    | some b =>
      rcases List.mem_cons.mp h with rfl | h
      · exact Or.inr List.mem_cons_self
      · exact (ih h).imp id (List.mem_cons_of_mem _)

theorem Packed.add (h : Packed l) : Packed (probeAdd a l) := by
  induction h with
  | @free l hl =>
    cases l with
    | nil => exact .taken (.free fun x hx => nomatch hx)
    | cons x l =>
      rw [List.forall_mem_cons] at hl
      rw [hl.1]
      exact .taken (.free hl.2)
  | taken _ ih => exact .taken ih

/-- An entry that is added does not hide another key. -/
theorem probeFind_add_ne (h : Packed l) (hne : key a ≠ k) :
    probeFind key k (probeAdd a l) = probeFind key k l := by
  induction h with
  | @free l hl =>
    rw [probeFind_free hl]
    cases l with
    | nil => exact if_neg hne
    | cons x l =>
      -- behind the place that was free there is no entry
      rw [List.forall_mem_cons] at hl
      rw [hl.1, probeAdd, probeFind, if_neg hne]
      exact probeFind_free hl.2
  | taken _ ih => rw [probeAdd, probeFind, probeFind, ih]

/-- An entry that has been added is found, if nothing had its key. -/
theorem probeFind_add_self (hkey : key a = k) (hfree : probeFind key k l = none) :
    probeFind key k (probeAdd a l) = some a := by
  induction l with
  | nil => exact if_pos hkey
  | cons x l ih =>
    cases x with
    | none => exact if_pos hkey
    | some b =>
      rw [probeFind] at hfree
      split at hfree
      · cases hfree
      · next hb => rw [probeAdd, probeFind, if_neg hb, ih hfree]

end LibShare
