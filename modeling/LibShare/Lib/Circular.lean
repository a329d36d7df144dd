import Mathlib.Data.List.Basic
import Mathlib.Tactic.Common

/-!
# Circular tables and circular byte areas

Two pieces of arithmetic that ring buffers rest on.

* **Indices.** In a table of `cap` cells, `circ cap r i` is the cell `i` places
  after `r`, and `span cap r w` the number of cells from `r` up to `w`, a full
  turn when the two cursors meet. `window cap r w` lists these cells.
* **Segments.** The segments of a byte area that are in use, oldest first, are
  laid out one behind the other up to a write offset, with at most one restart
  at offset zero (`Laid`). `Gap` is the test that a further segment stays clear
  of the oldest one; `Laid.push` and `Laid.sublist` are the two moves.
-/

namespace LibShare.Circular

/-! ## Indices -/

/-- The cell `i` places after `r`. -/
def circ (cap r i : Nat) : Nat := (r + i) % cap

/-- The number of cells from `r` up to `w`. -/
def span (cap r w : Nat) : Nat := if w ≤ r then cap - r + w else w - r

/-- The cells from `r` up to `w`. -/
def window (cap r w : Nat) : List Nat := (List.range (span cap r w)).map (circ cap r)

variable {cap r w : Nat}

theorem circ_lt (hcap : 0 < cap) (r i : Nat) : circ cap r i < cap := Nat.mod_lt _ hcap

theorem circ_zero (hr : r < cap) : circ cap r 0 = r := by
  simpa [circ] using Nat.mod_eq_of_lt hr

theorem circ_circ_one (cap r i : Nat) : circ cap (circ cap r 1) i = circ cap r (i + 1) := by
  unfold circ
  rw [Nat.mod_add_mod]
  congr 1
  omega

/-- Within one turn a cell is reached once. -/
theorem circ_inj (hr : r < cap) {i j : Nat} (hi : i < cap) (hj : j < cap)
    (h : circ cap r i = circ cap r j) : i = j := by
  unfold circ at h
  rw [Nat.mod_eq, Nat.mod_eq (r + j)] at h
  split at h <;> split at h
  · rw [Nat.mod_eq_of_lt (by omega), Nat.mod_eq_of_lt (by omega)] at h
    omega
  · rw [Nat.mod_eq_of_lt (by omega)] at h
    omega
  · rw [Nat.mod_eq_of_lt (a := r + j - cap) (by omega)] at h
    omega
  · omega

/-- Within one turn every cell is reached. -/
theorem exists_circ (hr : r < cap) {idx : Nat} (hidx : idx < cap) :
    ∃ i < cap, idx = circ cap r i := by
  by_cases h : r ≤ idx
  · refine ⟨idx - r, by omega, ?_⟩
    unfold circ
    rw [Nat.add_sub_cancel' h, Nat.mod_eq_of_lt hidx]
  · refine ⟨idx + cap - r, by omega, ?_⟩
    unfold circ
    rw [show r + (idx + cap - r) = idx + cap by omega, Nat.add_mod_right, Nat.mod_eq_of_lt hidx]

theorem span_pos (hr : r < cap) : 0 < span cap r w := by
  unfold span
  split <;> omega

theorem span_le (hr : r < cap) (hw : w < cap) : span cap r w ≤ cap := by
  unfold span
  split <;> omega

theorem span_self (hr : r < cap) : span cap r r = cap := by
  unfold span
  rw [if_pos (Nat.le_refl r)]
  omega

/-- The cursor `n` places ahead is `n` cells away. -/
theorem span_circ (hr : r < cap) {n : Nat} (hn : 0 < n) (hcap : n ≤ cap) :
    span cap r (circ cap r n) = n := by
  unfold span circ
  by_cases h : r + n < cap
  · rw [Nat.mod_eq_of_lt h]
    split <;> omega
  · rw [Nat.mod_eq_sub_mod (by omega), Nat.mod_eq_of_lt (by omega)]
    split <;> omega

/-- The cell a cursor stands on is as far ahead as the window is long. -/
theorem circ_span (hr : r < cap) (hw : w < cap) : circ cap r (span cap r w) = w := by
  unfold circ span
  split
  · rw [show r + (cap - r + w) = w + cap by omega, Nat.add_mod_right, Nat.mod_eq_of_lt hw]
  · rw [show r + (w - r) = w by omega, Nat.mod_eq_of_lt hw]

/-- The cells from `r` on, split after the first one. -/
theorem map_circ_succ (hr : r < cap) (n : Nat) :
    (List.range (n + 1)).map (circ cap r) =
      r :: (List.range n).map (circ cap (circ cap r 1)) := by
  rw [List.range_succ_eq_map, List.map_cons, circ_zero hr, List.map_map]
  congr 1
  apply List.map_congr_left
  intro i _
  exact (circ_circ_one cap r i).symm

/-- The window of two cursors in table order: to the end of the table, then
from its beginning. -/
theorem window_eq_of_le (hw : w ≤ r) (hr : r < cap) :
    window cap r w = List.range' r (cap - r) ++ List.range w := by
  unfold window span
  rw [if_pos hw, List.range_add, List.map_append]
  congr 1
  · rw [List.range'_eq_map_range]
    apply List.map_congr_left
    intro i hi
    exact Nat.mod_eq_of_lt (by have := List.mem_range.mp hi; omega)
  · rw [List.map_map]
    calc List.map (circ cap r ∘ fun x => cap - r + x) (List.range w)
        = List.map id (List.range w) := by
          apply List.map_congr_left
          intro i hi
          have hlt := List.mem_range.mp hi
          show (r + (cap - r + i)) % cap = i
          rw [show r + (cap - r + i) = i + cap by omega, Nat.add_mod_right,
            Nat.mod_eq_of_lt (by omega)]
      _ = List.range w := List.map_id _

theorem window_eq_of_lt (hrw : r < w) (hw : w < cap) :
    window cap r w = List.range' r (w - r) := by
  unfold window span
  rw [if_neg (by omega), List.range'_eq_map_range]
  apply List.map_congr_left
  intro i hi
  exact Nat.mod_eq_of_lt (by have := List.mem_range.mp hi; omega)

/-! ## Segments -/

/-- One segment `(offset, length)` ends before another begins. -/
def Before (s t : Nat × Nat) : Prop := s.1 + s.2 ≤ t.1

/-- Segments one behind the other, possibly with gaps, that end by `e`. -/
structure Rising (segs : List (Nat × Nat)) (e : Nat) : Prop where
  before : segs.Pairwise Before
  pos : ∀ seg ∈ segs, 0 < seg.2
  le : ∀ seg ∈ segs, seg.1 + seg.2 ≤ e

theorem Rising.nil (e : Nat) : Rising [] e := ⟨List.Pairwise.nil, by simp, by simp⟩

theorem Rising.sublist {segs segs' : List (Nat × Nat)} {e : Nat} (h : Rising segs e)
    (hsub : segs'.Sublist segs) : Rising segs' e where
  before := h.before.sublist hsub
  pos := fun seg hseg => h.pos seg (hsub.subset hseg)
  le := fun seg hseg => h.le seg (hsub.subset hseg)

theorem Rising.mono {segs : List (Nat × Nat)} {e e' : Nat} (h : Rising segs e) (hle : e ≤ e') :
    Rising segs e' :=
  ⟨h.before, h.pos, fun seg hseg => Nat.le_trans (h.le seg hseg) hle⟩

/-- A further segment behind the others. -/
theorem Rising.append_one {segs : List (Nat × Nat)} {e len : Nat} (h : Rising segs e)
    (hlen : 0 < len) : Rising (segs ++ [(e, len)]) (e + len) := by
  refine ⟨?_, ?_, ?_⟩
  · rw [List.pairwise_append]
    refine ⟨h.before, List.pairwise_singleton _ _, ?_⟩
    intro seg hseg last hlast
    rw [List.mem_singleton] at hlast
    subst hlast
    exact h.le seg hseg
  · intro seg hseg
    rcases List.mem_append.mp hseg with hmem | hmem
    · exact h.pos seg hmem
    · rw [List.mem_singleton] at hmem
      subst hmem
      exact hlen
  · intro seg hseg
    rcases List.mem_append.mp hseg with hmem | hmem
    · have := h.le seg hmem
      omega
    · rw [List.mem_singleton] at hmem
      subst hmem
      exact Nat.le_refl _

/-- The first segment has the lowest offset. -/
theorem Rising.head_le {seg : Nat × Nat} {segs : List (Nat × Nat)} {e : Nat}
    (h : Rising (seg :: segs) e) : ∀ t ∈ seg :: segs, seg.1 ≤ t.1 := by
  intro t ht
  rcases List.mem_cons.mp ht with rfl | hmem
  · exact Nat.le_refl _
  · have hbefore : Before seg t := (List.pairwise_cons.mp h.before).1 t hmem
    unfold Before at hbefore
    omega

/-- The segments in use, oldest first: a run in the upper part of the area,
empty unless the writer has started again at offset zero, and a run that ends
by the write offset and has not reached the upper one. -/
def Laid (cap wo : Nat) (segs : List (Nat × Nat)) : Prop :=
  ∃ upper lower, segs = upper ++ lower ∧ Rising upper cap ∧ Rising lower wo ∧ wo ≤ cap ∧
    ∀ seg ∈ upper, wo ≤ seg.1

/-- A segment of length `len`, written at `wo` or, when `wrap` is set, at
offset zero, stays clear of the oldest segment, which starts at `a`. -/
def Gap (wo : Nat) (wrap : Bool) (len a : Nat) : Prop :=
  if a < wo then wrap = true → len ≤ a else wrap = false ∧ wo + len ≤ a

instance decGap (wo : Nat) (wrap : Bool) (len a : Nat) : Decidable (Gap wo wrap len a) :=
  inferInstanceAs (Decidable (if a < wo then wrap = true → len ≤ a else wrap = false ∧
    wo + len ≤ a))

theorem Laid.nil {cap wo : Nat} (h : wo ≤ cap) : Laid cap wo [] :=
  ⟨[], [], rfl, Rising.nil _, Rising.nil _, h, by simp⟩

theorem Laid.mem_bounds {cap wo : Nat} {segs : List (Nat × Nat)} (h : Laid cap wo segs) :
    ∀ seg ∈ segs, 0 < seg.2 ∧ seg.1 + seg.2 ≤ cap := by
  obtain ⟨upper, lower, rfl, hu, hl, hwo, -⟩ := h
  intro seg hseg
  rcases List.mem_append.mp hseg with hmem | hmem
  · exact ⟨hu.pos seg hmem, hu.le seg hmem⟩
  · exact ⟨hl.pos seg hmem, Nat.le_trans (hl.le seg hmem) hwo⟩

/-- Releasing segments, wherever they lie. -/
theorem Laid.sublist {cap wo : Nat} {segs segs' : List (Nat × Nat)} (h : Laid cap wo segs)
    (hsub : segs'.Sublist segs) : Laid cap wo segs' := by
  obtain ⟨upper, lower, rfl, hu, hl, hwo, habove⟩ := h
  obtain ⟨upper', lower', rfl, hu', hl'⟩ := List.sublist_append_iff.mp hsub
  exact ⟨upper', lower', rfl, hu.sublist hu', hl.sublist hl', hwo,
    fun seg hseg => habove seg (hu'.subset hseg)⟩

/-- Two segments do not share a byte. -/
def Apart (s t : Nat × Nat) : Prop := s.1 + s.2 ≤ t.1 ∨ t.1 + t.2 ≤ s.1

/-- Writing a further segment into the gap: the layout is kept, and no byte of
a segment in use is touched. -/
theorem Laid.push {cap wo : Nat} {segs : List (Nat × Nat)} (h : Laid cap wo segs) {wrap : Bool}
    {start len : Nat} (hstart : start = if wrap then 0 else wo) (hlen : 0 < len)
    (hcap : start + len ≤ cap)
    (hgap : ∀ seg, segs.head? = some seg → Gap wo wrap len seg.1) :
    Laid cap (start + len) (segs ++ [(start, len)]) ∧
      ∀ seg ∈ segs, Apart seg (start, len) := by
  obtain ⟨upper, lower, rfl, hu, hl, hwo, habove⟩ := h
  cases wrap with
  | false =>
    -- behind the lower run
    simp only [Bool.false_eq_true, if_false] at hstart
    subst hstart
    have hroom : ∀ seg ∈ upper, start + len ≤ seg.1 := by
      cases upper with
      | nil => simp
      | cons x rest =>
        have hg := hgap x rfl
        rw [Gap, if_neg (Nat.not_lt.mpr (habove x List.mem_cons_self))] at hg
        intro seg hseg
        exact Nat.le_trans hg.2 (hu.head_le seg hseg)
    refine ⟨⟨upper, lower ++ [(start, len)], by simp, hu, hl.append_one hlen, hcap, hroom⟩, ?_⟩
    intro seg hseg
    rcases List.mem_append.mp hseg with hmem | hmem
    · exact Or.inr (hroom seg hmem)
    · exact Or.inl (hl.le seg hmem)
  | true =>
    -- from offset zero: the lower run becomes the upper one
    simp only [if_true] at hstart
    subst hstart
    cases upper with
    | cons x rest =>
      have hg := hgap x rfl
      rw [Gap, if_neg (Nat.not_lt.mpr (habove x List.mem_cons_self))] at hg
      exact absurd hg.1 (by decide)
    | nil =>
      have hroom : ∀ seg ∈ lower, 0 + len ≤ seg.1 := by
        cases lower with
        | nil => simp
        | cons x rest =>
          have hg := hgap x rfl
          have hx : x.1 < wo := by
            have h1 := hl.pos x List.mem_cons_self
            have h2 := hl.le x List.mem_cons_self
            omega
          rw [Gap, if_pos hx] at hg
          intro seg hseg
          have h3 := hl.head_le seg hseg
          have h4 := hg rfl
          omega
      refine ⟨⟨lower, [(0, len)], by simp, hl.mono hwo, (Rising.nil 0).append_one hlen, hcap,
        hroom⟩, ?_⟩
      intro seg hseg
      exact Or.inr (hroom seg hseg)

end LibShare.Circular
