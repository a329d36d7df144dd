import Mathlib.Data.List.Perm.Basic
import Mathlib.Data.List.Basic

/-!
# Bucketed lists

A list of buckets, each a list of elements, where an index function says which
bucket an element belongs to. The contents of the structure is the flattened
list; the lemmas say, up to permutation, how an update of one bucket changes
the contents, and that a rebuild under another index function keeps them.

* `Placed`               — every element sits in the bucket its index names.
* `flatten_set_perm`     — contents after one bucket is replaced.
* `flatten_rebuild_perm` — contents after every element is moved.
-/

namespace LibShare.Buckets

variable {α : Type}

/-- The elements of one bucket; empty outside the range. -/
def bucket (buckets : List (List α)) (i : Nat) : List α := buckets[i]?.getD []

/-- Every element sits in the bucket that its index names. -/
def Placed (index : α → Nat) (buckets : List (List α)) : Prop :=
  ∀ i, ∀ x ∈ bucket buckets i, index x = i

/-! ## One bucket -/

theorem bucket_set_self {buckets : List (List α)} {i : Nat} (hi : i < buckets.length)
    (l : List α) : bucket (buckets.set i l) i = l := by
  simp [bucket, hi]

theorem bucket_set_ne {buckets : List (List α)} {i j : Nat} (hij : i ≠ j) (l : List α) :
    bucket (buckets.set i l) j = bucket buckets j := by
  simp [bucket, List.getElem?_set_ne hij]

theorem bucket_modify (buckets : List (List α)) (i j : Nat) (x : α)
    (hi : i < buckets.length) :
    bucket (buckets.modify i (x :: ·)) j =
      if i = j then x :: bucket buckets j else bucket buckets j := by
  unfold bucket
  rw [List.getElem?_modify]
  split
  · next heq =>
    subst heq
    simp [hi]
  · simp

theorem bucket_sublist_flatten (buckets : List (List α)) (i : Nat) :
    (bucket buckets i).Sublist buckets.flatten := by
  unfold bucket
  cases h : buckets[i]? with
  | none => exact List.nil_sublist _
  | some l => exact List.sublist_flatten_of_mem (List.mem_of_getElem? h)

/-! ## Placement -/

theorem Placed.set {index : α → Nat} {buckets : List (List α)} (h : Placed index buckets)
    {i : Nat} {l : List α} (hl : ∀ x ∈ l, index x = i) :
    Placed index (buckets.set i l) := by
  intro j x hx
  by_cases hij : i = j
  · subst hij
    by_cases hi : i < buckets.length
    · rw [bucket_set_self hi] at hx
      exact hl x hx
    · rw [List.set_eq_of_length_le (by omega)] at hx
      exact h i x hx
  · rw [bucket_set_ne hij] at hx
    exact h j x hx

/-- In a placed structure an element is found in its own bucket. -/
theorem Placed.mem_bucket {index : α → Nat} {buckets : List (List α)}
    (h : Placed index buckets) {x : α} (hx : x ∈ buckets.flatten) :
    x ∈ bucket buckets (index x) := by
  obtain ⟨l, hl, hxl⟩ := List.mem_flatten.mp hx
  obtain ⟨i, hi, hget⟩ := List.mem_iff_getElem.mp hl
  have hxi : x ∈ bucket buckets i := by
    unfold bucket
    rw [List.getElem?_eq_getElem hi, hget]
    exact hxl
  rw [h i x hxi]
  exact hxi

/-! ## Contents -/

/-- Replacing a bucket exchanges its old elements for the new ones. -/
theorem flatten_set_perm {buckets : List (List α)} {i : Nat} (hi : i < buckets.length)
    (l : List α) :
    (bucket buckets i ++ (buckets.set i l).flatten).Perm (l ++ buckets.flatten) := by
  induction buckets generalizing i with
  | nil => simp at hi
  | cons b rest ih =>
    cases i with
    | zero =>
      simp only [bucket, List.getElem?_cons_zero, Option.getD_some, List.set_cons_zero,
        List.flatten_cons]
      rw [← List.append_assoc, ← List.append_assoc]
      exact List.perm_append_comm.append_right _
    | succ k =>
      have hk : k < rest.length := by simpa using hi
      have hb : bucket (b :: rest) (k + 1) = bucket rest k := by simp [bucket]
      rw [hb]
      simp only [List.set_cons_succ, List.flatten_cons]
      calc bucket rest k ++ (b ++ (rest.set k l).flatten)
          |>.Perm (b ++ (bucket rest k ++ (rest.set k l).flatten)) := by
            rw [← List.append_assoc, ← List.append_assoc]
            exact List.perm_append_comm.append_right _
        _ |>.Perm (b ++ (l ++ rest.flatten)) := (ih hk).append_left b
        _ |>.Perm (l ++ (b ++ rest.flatten)) := by
            rw [← List.append_assoc, ← List.append_assoc]
            exact List.perm_append_comm.append_right _

/-- Pushing an element on a bucket adds it to the contents. -/
theorem flatten_modify_cons_perm {buckets : List (List α)} {i : Nat} (hi : i < buckets.length)
    (x : α) : (buckets.modify i (x :: ·)).flatten.Perm (x :: buckets.flatten) := by
  induction buckets generalizing i with
  | nil => simp at hi
  | cons b rest ih =>
    cases i with
    | zero => simp
    | succ k =>
      have hk : k < rest.length := by simpa using hi
      simp only [List.modify_succ_cons, List.flatten_cons]
      exact ((ih hk).append_left b).trans List.perm_middle

/-! ## Rebuilding -/

/-- Move an element to the bucket its index names. -/
def push (index : α → Nat) (buckets : List (List α)) (x : α) : List (List α) :=
  buckets.modify (index x) (x :: ·)

@[simp] theorem push_length (index : α → Nat) (buckets : List (List α)) (x : α) :
    (push index buckets x).length = buckets.length := by
  simp [push]

theorem Placed.push {index : α → Nat} {buckets : List (List α)} (h : Placed index buckets)
    {x : α} (hx : index x < buckets.length) : Placed index (push index buckets x) := by
  intro j y hy
  unfold Buckets.push at hy
  rw [bucket_modify buckets _ _ _ hx] at hy
  split at hy
  · next heq =>
    rcases List.mem_cons.mp hy with rfl | hmem
    · exact heq
    · exact h j y hmem
  · exact h j y hy

theorem placed_replicate_nil (index : α → Nat) (n : Nat) :
    Placed index (List.replicate n ([] : List α)) := by
  intro i x hx
  unfold bucket at hx
  rw [List.getElem?_replicate] at hx
  split at hx <;> simp at hx

/-- Pushing a list of elements one after the other keeps the placement, the
number of buckets and, up to order, all elements. -/
theorem foldl_push (index : α → Nat) {n : Nat} (xs : List α) (hxs : ∀ x ∈ xs, index x < n) :
    ∀ buckets : List (List α), buckets.length = n → Placed index buckets →
      (xs.foldl (push index) buckets).length = n ∧
      Placed index (xs.foldl (push index) buckets) ∧
      (xs.foldl (push index) buckets).flatten.Perm (xs ++ buckets.flatten) := by
  induction xs with
  | nil =>
    intro buckets hlen hp
    exact ⟨hlen, hp, List.Perm.refl _⟩
  | cons x rest ih =>
    intro buckets hlen hp
    have hx : index x < buckets.length := by
      rw [hlen]
      exact hxs x (by simp)
    have hrest : ∀ y ∈ rest, index y < n := fun y hy => hxs y (by simp [hy])
    obtain ⟨h1, h2, h3⟩ := ih hrest (push index buckets x) (by simpa using hlen) (hp.push hx)
    refine ⟨h1, h2, h3.trans ?_⟩
    calc rest ++ (push index buckets x).flatten
        |>.Perm (rest ++ x :: buckets.flatten) :=
          (flatten_modify_cons_perm hx x).append_left rest
      _ |>.Perm (x :: (rest ++ buckets.flatten)) := List.perm_middle

/-- Rebuilding from empty buckets keeps, up to order, all elements. -/
theorem flatten_rebuild_perm {index : α → Nat} {n : Nat} (xs : List α)
    (hxs : ∀ x ∈ xs, index x < n) :
    (xs.foldl (push index) (List.replicate n [])).flatten.Perm xs := by
  have h := (foldl_push index xs hxs (List.replicate n []) (by simp)
    (placed_replicate_nil index n)).2.2
  simpa using h

end LibShare.Buckets
