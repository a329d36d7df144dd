import Mathlib.Data.List.Basic
import Mathlib.Data.List.Nodup

/-!
# Lists with a key

A list whose items have a key is searched for the first item with a key. `put`
takes out the first item with the key of the new one and appends the new one;
where the keys are distinct, they stay so (`nodup_putKey`), and a search finds the
new item under its key and what it found before under the others (`find_putKey`).
Appending alone keeps the keys distinct just when the key is new
(`nodup_append_iff`).
-/

namespace LibShare

variable {α κ : Type} {key : α → κ} {xs : List α} {a : α} {k : κ}

theorem nodup_append_iff :
    ((xs ++ [a]).map key).Nodup ↔ (xs.map key).Nodup ∧ key a ∉ xs.map key := by
  rw [List.map_append, List.map_singleton, ← List.concat_eq_append, List.nodup_concat]
  exact And.comm

variable [DecidableEq κ]

/-- The first item with a key. -/
def findKey (key : α → κ) (xs : List α) (k : κ) : Option α := xs.find? fun a => decide (key a = k)

/-- The list without the first item with a key. -/
def eraseKey (key : α → κ) (xs : List α) (k : κ) : List α := xs.eraseP fun a => decide (key a = k)

/-- The item takes the place of the first one with its key, at the end. -/
def putKey (key : α → κ) (xs : List α) (a : α) : List α := eraseKey key xs (key a) ++ [a]

theorem findKey_eq_none : findKey key xs k = none ↔ k ∉ xs.map key := by
  unfold findKey
  rw [List.find?_eq_none, List.mem_map]
  constructor
  · rintro hall ⟨b, hb, hkey⟩
    exact hall b hb (decide_eq_true hkey)
  · intro hnot b hb hkey
    exact hnot ⟨b, hb, of_decide_eq_true hkey⟩

/-- Of distinct keys, an item is found under its own. -/
theorem findKey_eq_some (h : (xs.map key).Nodup) :
    findKey key xs k = some a ↔ a ∈ xs ∧ key a = k := by
  unfold findKey
  constructor
  · intro hfind
    have hkey := List.find?_some hfind
    exact ⟨List.mem_of_find?_eq_some hfind, of_decide_eq_true hkey⟩
  · rintro ⟨ha, rfl⟩
    obtain ⟨b, hb⟩ := Option.isSome_iff_exists.mp
      (List.find?_isSome (p := fun b => decide (key b = key a)) |>.mpr ⟨a, ha, decide_eq_true rfl⟩)
    have hkey := List.find?_some hb
    rw [hb, List.inj_on_of_nodup_map h (List.mem_of_find?_eq_some hb) ha (of_decide_eq_true hkey)]

theorem findKey_append (xs ys : List α) (k : κ) :
    findKey key (xs ++ ys) k = (findKey key xs k).or (findKey key ys k) := List.find?_append

theorem findKey_cons (a : α) (xs : List α) (k : κ) :
    findKey key (a :: xs) k = if key a = k then some a else findKey key xs k := by
  unfold findKey
  by_cases hkey : key a = k
  · simp only [List.find?_cons, hkey, decide_true, if_true]
  · simp only [List.find?_cons, hkey, decide_false, if_false]

/-- Of distinct keys, none is left where its item is taken out. -/
theorem not_mem_eraseKey (h : (xs.map key).Nodup) (k : κ) : k ∉ (eraseKey key xs k).map key := by
  induction xs with
  | nil => exact List.not_mem_nil
  | cons b xs ih =>
    rw [List.map_cons, List.nodup_cons] at h
    unfold eraseKey at ih ⊢
    by_cases hkey : key b = k
    · simp only [List.eraseP_cons, hkey, decide_true, cond_true]
      rw [← hkey]
      exact h.1
    · simp only [List.eraseP_cons, hkey, decide_false, cond_false]
      rw [List.map_cons, List.mem_cons]
      rintro (hhead | htail)
      · exact hkey hhead.symm
      · exact ih h.2 htail

theorem nodup_eraseKey (h : (xs.map key).Nodup) (k : κ) : ((eraseKey key xs k).map key).Nodup :=
  h.sublist (List.Sublist.map key List.eraseP_sublist)

/-- An item with another key is found as before. -/
theorem findKey_eraseKey {k' : κ} (hne : k' ≠ k) :
    findKey key (eraseKey key xs k') k = findKey key xs k := by
  unfold findKey eraseKey
  induction xs with
  | nil => rfl
  | cons b xs ih =>
    by_cases hkey : key b = k'
    · simp only [List.eraseP_cons, hkey, decide_true, cond_true, List.find?_cons, hne, decide_false]
    · simp only [List.eraseP_cons, hkey, decide_false, cond_false, List.find?_cons, ih]

theorem nodup_putKey (h : (xs.map key).Nodup) (a : α) : ((putKey key xs a).map key).Nodup :=
  nodup_append_iff.mpr ⟨nodup_eraseKey h _, not_mem_eraseKey h _⟩

/-- The new item is found under its key, and under every other key what was found there. -/
theorem find_putKey (h : (xs.map key).Nodup) (a : α) (k : κ) :
    findKey key (putKey key xs a) k = if key a = k then some a else findKey key xs k := by
  unfold putKey
  rw [findKey_append, findKey_cons]
  split
  · next hkey =>
    rw [← hkey, findKey_eq_none.mpr (not_mem_eraseKey h _)]
    rfl
  · next hkey =>
    rw [findKey_eraseKey hkey]
    exact Option.or_none

/-- Where no item has the key, the new one is appended. -/
theorem putKey_of_not_mem (h : key a ∉ xs.map key) : putKey key xs a = xs ++ [a] := by
  unfold putKey eraseKey
  rw [List.eraseP_of_forall_not]
  intro b hb hkey
  exact h (List.mem_map.mpr ⟨b, hb, of_decide_eq_true hkey⟩)

end LibShare
