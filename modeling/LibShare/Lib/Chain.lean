import Mathlib.Data.List.Nodup
import Mathlib.Tactic.Common

/-!
# Chains of references

A store of cells that each name at most one successor, `next`. `Chain next s L`
says that following `next` from the reference `s` visits exactly the cells of
`L` and then comes to an end.

* `Chain.unique`, `Chain.nodup` — a chain that ends is determined by its start
  and visits no cell twice.
* `Chain.congr` — it depends on its own cells only.
-/

namespace LibShare

variable {ι : Type} {next next' : ι → Option ι}

/-- Following `next` from `s` visits the cells of the list and ends. -/
def Chain (next : ι → Option ι) : Option ι → List ι → Prop
  | s, [] => s = none
  | s, p :: L => s = some p ∧ Chain next (next p) L

theorem Chain.nil : Chain next none [] := rfl

theorem Chain.unique : ∀ {L L' : List ι} {s : Option ι}, Chain next s L → Chain next s L' → L = L'
  | [], [], _, _, _ => rfl
  | [], _ :: _, _, h, h' => by
    have heq : none = some _ := h.symm.trans h'.1
    cases heq
  | _ :: _, [], _, h, h' => by
    have heq : none = some _ := h'.symm.trans h.1
    cases heq
  | p :: L, p' :: L', _, ⟨hs, h⟩, ⟨hs', h'⟩ => by
    have heq : p = p' := Option.some.inj (hs.symm.trans hs')
    subst heq
    rw [h.unique h']

theorem Chain.head_mem {q : ι} : ∀ {L : List ι}, Chain next (some q) L → q ∈ L
  | [], h => by cases h
  | p :: L, h => by
    have hp := h.1
    cases hp
    exact List.mem_cons_self

-- The part of a chain that begins at one of its cells is a chain.
theorem Chain.suffix {p : ι} {tail : List ι} :
    ∀ {front : List ι} {s : Option ι}, Chain next s (front ++ p :: tail) →
      Chain next (some p) (p :: tail) := by
  intro front
  induction front with
  | nil =>
    intro s h
    exact ⟨rfl, h.2⟩
  | cons a front ih =>
    intro s h
    exact ih h.2

theorem Chain.nodup : ∀ {L : List ι} {s : Option ι}, Chain next s L → L.Nodup
  | [], _, _ => List.nodup_nil
  | p :: L, s, h => by
    refine List.nodup_cons.mpr ⟨?_, h.2.nodup⟩
    intro hmem
    -- a second visit would begin the same chain again
    obtain ⟨front, tail, rfl⟩ := List.append_of_mem hmem
    have hlong : Chain next (some p) (p :: (front ++ p :: tail)) := ⟨rfl, h.2⟩
    have hlen := congrArg List.length (hlong.unique h.2.suffix)
    simp only [List.length_cons, List.length_append] at hlen
    omega

/-- A chain depends on the successors of its own cells only. -/
theorem Chain.congr : ∀ {L : List ι} {s : Option ι}, Chain next s L →
    (∀ p ∈ L, next' p = next p) → Chain next' s L
  | [], _, h, _ => h
  | p :: L, _, ⟨hs, h⟩, heq => by
    refine ⟨hs, ?_⟩
    rw [heq p (by simp)]
    exact h.congr fun q hq => heq q (by simp [hq])

end LibShare
