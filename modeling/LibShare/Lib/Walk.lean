import LibShare.Lib.Chain
import Mathlib.Logic.Relation
import Mathlib.Order.WellFounded
import Mathlib.Data.Set.Finite.Basic
import Mathlib.Data.Fintype.Card

/-!
# Following references

What can be said of the cells that `next` leads to without knowing that it comes to an end.
A cell `Loops` when some cell that it leads to leads to itself again.

* `chain_or_loops` — of finitely many cells, following them either ends or loops.
* `Chain.not_loops` — not both.
-/

namespace LibShare

variable {ι : Type} {next : ι → Option ι} {p q : ι}

/-- One cell names the other. -/
def Names (next : ι → Option ι) (p q : ι) : Prop := next p = some q

/-- Following `next` from one cell leads to the other. -/
def Leads (next : ι → Option ι) : ι → ι → Prop := Relation.ReflTransGen (Names next)

/-- Following `next` from the cell comes back to a cell that has been visited. -/
def Loops (next : ι → Option ι) (p : ι) : Prop :=
  ∃ q, Leads next p q ∧ Relation.TransGen (Names next) q q

/-- The cells of a chain are the ones that it leads to. -/
theorem Chain.leads : ∀ {L : List ι} {p : ι}, Chain next (some p) L → ∀ q ∈ L, Leads next p q := by
  intro L
  induction L with
  | nil =>
    intro p h
    cases h
  | cons a L ih =>
    rintro p ⟨hs, h⟩ q hq
    obtain rfl : p = a := Option.some.inj hs
    rcases List.mem_cons.mp hq with rfl | hq
    · exact .refl
    · rcases L with _ | ⟨b, L⟩
      · cases hq
      · have hnext : next p = some b := h.1
        rw [hnext] at h
        exact .head hnext (ih h q hq)

/-- Where a chain leads to, a part of it begins. -/
theorem Chain.of_leads {L : List ι} (h : Chain next (some p) L) (hq : Leads next p q) :
    ∃ front tail, L = front ++ tail ∧ Chain next (some q) tail := by
  induction hq with
  | refl => exact ⟨[], L, rfl, h⟩
  | tail _ hstep ih =>
    obtain ⟨front, tail, rfl, hchain⟩ := ih
    rcases tail with _ | ⟨a, tail⟩
    · cases hchain
    · obtain rfl := Option.some.inj hchain.1
      have hrest := hchain.2
      rw [hstep] at hrest
      exact ⟨front ++ [_], tail, by rw [List.append_assoc]; rfl, hrest⟩

theorem Chain.mem_iff {L : List ι} (h : Chain next (some p) L) : q ∈ L ↔ Leads next p q := by
  constructor
  · exact h.leads q
  · intro hq
    obtain ⟨front, tail, rfl, htail⟩ := h.of_leads hq
    exact List.mem_append_right _ htail.head_mem

theorem Chain.not_loops {L : List ι} (h : Chain next (some p) L) : ¬ Loops next p := by
  rintro ⟨q, hq, hback⟩
  obtain ⟨front, L1, -, h1⟩ := h.of_leads hq
  obtain ⟨r, hstep, hrest⟩ := Relation.TransGen.head'_iff.mp hback
  rcases L1 with _ | ⟨a, L1⟩
  · cases h1
  · obtain rfl := Option.some.inj h1.1
    have hnext := h1.2
    rw [hstep] at hnext
    -- coming back begins the same chain again, within what is left of it
    obtain ⟨front', tail, rfl, h2⟩ := hnext.of_leads hrest
    have hlen := congrArg List.length (h1.unique h2)
    rw [List.length_cons, List.length_append] at hlen
    omega

/-- Following finitely many cells ends, or it loops. -/
theorem chain_or_loops (hfin : Set.Finite {q | Leads next p q}) :
    (∃ L, Chain next (some p) L) ∨ Loops next p := by
  by_cases hloop : Loops next p
  · exact Or.inr hloop
  left
  -- the successors of a visited cell are smaller than it is
  let after : {q // Leads next p q} → {q // Leads next p q} → Prop :=
    fun a b => Relation.TransGen (Names next) b.1 a.1
  have : Finite {q // Leads next p q} := hfin
  have : IsTrans _ after := ⟨fun a b c hab hbc => hbc.trans hab⟩
  have : Std.Irrefl after := ⟨fun a hback => hloop ⟨a.1, a.2, hback⟩⟩
  have hwf : WellFounded after := Finite.wellFounded_of_trans_of_irrefl after
  have hends : ∀ a : {q // Leads next p q}, ∃ L, Chain next (some a.1) L := by
    intro a
    induction a using hwf.induction with
    | _ a ih =>
      rcases hnext : next a.1 with _ | b
      · exact ⟨[a.1], rfl, hnext⟩
      · obtain ⟨L, hL⟩ := ih ⟨b, a.2.tail hnext⟩ (.single hnext)
        refine ⟨a.1 :: L, rfl, ?_⟩
        rw [hnext]
        exact hL
  exact hends ⟨p, .refl⟩

/-- Cells that are numbered below a bound are finitely many. -/
theorem leads_finite {next : Nat → Option Nat} {p n : Nat} (h : ∀ a b, next a = some b → b < n) :
    Set.Finite {q | Leads next p q} := by
  refine Set.Finite.subset (Set.finite_le_nat (max p n)) fun q hq => ?_
  rcases Relation.ReflTransGen.cases_tail hq with rfl | ⟨a, -, hstep⟩
  · exact Nat.le_max_left _ _
  · exact Nat.le_trans (Nat.le_of_lt (h a q hstep)) (Nat.le_max_right _ _)

end LibShare
