import LibShare.Lib.Chain

/-!
# Owned chains

A store whose cells can own a chain of other cells: `first` of a cell begins
the chain that it owns, `next` of a cell goes on in the chain that it is in, and
`live` says which cells are in use. `Owned live next first own` says that the
references of live cells are sound, with `own` naming the owner of each cell: no
reference leads to a cell that is not in use, or to a cell of another owner.

* `Owned.shrink` — references may be dropped, and cells that nothing refers to.
* `Owned.regrow` — a cell may be given a longer chain, made of cells of its old
  chain and of cells that were not in use.
-/

namespace LibShare

variable {ι : Type} {live live' : ι → Prop} {next next' first first' : ι → Option ι}
  {own own' : ι → ι}

/-- The references of live cells are sound. -/
structure Owned (live : ι → Prop) (next first : ι → Option ι) (own : ι → ι) : Prop where
  next_mem : ∀ p q, live p → next p = some q → live q ∧ own q = own p
  first_mem : ∀ p q, live p → first p = some q → live q ∧ own q = p
  /-- nothing goes on to the first cell of a chain -/
  head : ∀ p p' q, live p → live p' → first p = some q → next p' ≠ some q
  tails : ∀ p, live p → ∃ L, Chain next (next p) L
  irrefl : ∀ p, live p → own p ≠ p

/-! ## Chains in a store -/

/-- The cells of a chain that begins with a live cell. -/
theorem Owned.mem_of_chain (h : Owned live next first own) {o : ι} : ∀ {L : List ι} {s : Option ι},
    Chain next s L → (∀ q, s = some q → live q ∧ own q = o) → ∀ c ∈ L, live c ∧ own c = o := by
  intro L
  induction L with
  | nil =>
    intro s _ _ c hc
    cases hc
  | cons p L ih =>
    rintro s ⟨hs, hchain⟩ hstart c hc
    obtain ⟨hlive, hown⟩ := hstart p hs
    rcases List.mem_cons.mp hc with rfl | hc
    · exact ⟨hlive, hown⟩
    · refine ih hchain (fun q hq => ?_) c hc
      obtain ⟨h1, h2⟩ := h.next_mem p q hlive hq
      exact ⟨h1, h2.trans hown⟩

/-- The chain of a cell is its own. -/
theorem Owned.mem_chain (h : Owned live next first own) {p : ι} {L : List ι} (hp : live p)
    (hchain : Chain next (first p) L) : ∀ c ∈ L, live c ∧ own c = p :=
  h.mem_of_chain hchain fun q hq => h.first_mem p q hp hq

theorem Owned.ends (h : Owned live next first own) {p : ι} (hp : live p) :
    ∃ L, Chain next (first p) L := by
  cases hfirst : first p with
  | none => exact ⟨[], rfl⟩
  | some q =>
    obtain ⟨L, hL⟩ := h.tails q (h.first_mem p q hp hfirst).1
    exact ⟨q :: L, rfl, hL⟩

/-- Dropping references of cells that have a property, which the cells they go
on to have too, leaves a chain that ends; and so does another way to go on from
cells that come to an end. -/
theorem Chain.reroute {P : ι → Prop}
    (hnext : ∀ c, P c → next' c = next c ∨ ∃ T, Chain next' (next' c) T)
    (hstep : ∀ c d, P c → next' c = some d → P d) : ∀ {L : List ι} {s : Option ι},
    Chain next s L → (∀ q, s = some q → P q) → ∃ L', Chain next' s L' := by
  intro L
  induction L with
  | nil =>
    intro s h _
    exact ⟨[], h⟩
  | cons p L ih =>
    rintro s ⟨hs, h⟩ hstart
    have hp := hstart p hs
    rcases hnext p hp with hsame | ⟨T, hT⟩
    · rw [← hsame] at h
      obtain ⟨L', hL'⟩ := ih h fun q hq => hstep p q hp hq
      exact ⟨p :: L', hs, hL'⟩
    · exact ⟨p :: T, hs, hT⟩

-- A cell of a chain that ends goes on to a chain that ends.
theorem Chain.tail_of_mem : ∀ {L : List ι} {s : Option ι} {p : ι}, Chain next s L → p ∈ L →
    ∃ T, Chain next (next p) T := by
  intro L
  induction L with
  | nil =>
    intro s p _ hp
    cases hp
  | cons a L ih =>
    rintro s p ⟨-, h⟩ hp
    rcases List.mem_cons.mp hp with rfl | hp
    · exact ⟨L, h⟩
    · exact ih h hp

-- What follows a cell of a chain is in the chain, and not at its head.
theorem Chain.next_mem : ∀ {L : List ι} {s : Option ι} {p q : ι}, Chain next s L → p ∈ L →
    next p = some q → q ∈ L ∧ s ≠ some q := by
  intro L
  induction L with
  | nil =>
    intro s p q _ hp _
    cases hp
  | cons a L ih =>
    intro s p q h hp hnext
    have hnodup := h.nodup
    rw [List.nodup_cons] at hnodup
    have hmem : q ∈ L := by
      rcases List.mem_cons.mp hp with rfl | hp
      · have hchain := h.2
        rw [hnext] at hchain
        exact hchain.head_mem
      · exact (ih h.2 hp hnext).1
    refine ⟨List.mem_cons_of_mem _ hmem, fun hs => ?_⟩
    have hhead := h.1
    rw [hs] at hhead
    cases hhead
    exact hnodup.1 hmem

/-! ## Changes to a store -/

/-- References may be dropped, and cells that nothing refers to any more. -/
theorem Owned.shrink (h : Owned live next first own) (hlive : ∀ p, live' p → live p)
    (hnext : ∀ p, live' p → next' p = next p ∨ next' p = none)
    (hfirst : ∀ p, live' p → first' p = first p ∨ first' p = none)
    (hclosed : ∀ p q, live' p → next' p = some q ∨ first' p = some q → live' q) :
    Owned live' next' first' own := by
  have hn : ∀ p q, live' p → next' p = some q → next p = some q := by
    intro p q hp hq
    rcases hnext p hp with heq | hnone
    · rw [← heq, hq]
    · rw [hnone] at hq
      cases hq
  have hf : ∀ p q, live' p → first' p = some q → first p = some q := by
    intro p q hp hq
    rcases hfirst p hp with heq | hnone
    · rw [← heq, hq]
    · rw [hnone] at hq
      cases hq
  refine ⟨?_, ?_, ?_, ?_, fun p hp => h.irrefl p (hlive p hp)⟩
  · intro p q hp hq
    exact ⟨hclosed p q hp (Or.inl hq), (h.next_mem p q (hlive p hp) (hn p q hp hq)).2⟩
  · intro p q hp hq
    exact ⟨hclosed p q hp (Or.inr hq), (h.first_mem p q (hlive p hp) (hf p q hp hq)).2⟩
  · intro p p' q hp hp' hq hq'
    exact h.head p p' q (hlive p hp) (hlive p' hp') (hf p q hp hq) (hn p' q hp' hq')
  · intro p hp
    obtain ⟨L, hL⟩ := h.tails p (hlive p hp)
    have hstop : ∀ c, live' c → next' c = next c ∨ ∃ T, Chain next' (next' c) T := by
      intro c hc
      rcases hnext c hc with heq | hnone
      · exact Or.inl heq
      · exact Or.inr ⟨[], hnone⟩
    rcases hnext p hp with heq | hnone
    · rw [← heq] at hL
      exact Chain.reroute hstop (fun c d hc hd => hclosed c d hc (Or.inl hd)) hL
        fun q hq => hclosed p q hp (Or.inl hq)
    · exact ⟨[], hnone⟩

/-- A cell may be given another chain, of cells of its own and of cells that
were not in use, which begins where the old chain began or with a new cell.
References may be dropped outside that chain. -/
theorem Owned.regrow (h : Owned live next first own) {p : ι} {s : Option ι} {L : List ι}
    (hp : live p) (hlive : ∀ q, live' q ↔ live q ∨ q ∈ L)
    (hown : ∀ q, live q → own' q = own q) (hownL : ∀ q ∈ L, own' q = p)
    (hchain : Chain next' s L) (hhead : s = first p ∨ ∀ c, s = some c → ¬ live c)
    (hnext : ∀ q, live q → q ∉ L → next' q = next q ∨ next' q = none)
    (hfirst : ∀ q, live q → q ≠ p → first' q = first q) (hfirstp : first' p = s)
    (hfresh : ∀ q ∈ L, ¬ live q → first' q = none) : Owned live' next' first' own' := by
  have hold : ∀ q ∈ L, live q → own q = p := fun q hq hl => (hown q hl).symm.trans (hownL q hq)
  have hin : ∀ q q', q ∈ L → next' q = some q' → q' ∈ L ∧ s ≠ some q' :=
    fun q q' hq hq' => hchain.next_mem hq hq'
  have hout : ∀ q q', live' q → q ∉ L → next' q = some q' → live q ∧ next q = some q' := by
    intro q q' hq hnot hq'
    have hl : live q := by
      rcases (hlive q).mp hq with hl | hmem
      · exact hl
      · exact absurd hmem hnot
    rcases hnext q hl hnot with heq | hnone
    · exact ⟨hl, heq ▸ hq'⟩
    · rw [hnone] at hq'
      cases hq'
  have hfirst' : ∀ q q', live' q → q ≠ p → first' q = some q' → live q ∧ first q = some q' := by
    intro q q' hq hne hq'
    by_cases hl : live q
    · rw [hfirst q hl hne] at hq'
      exact ⟨hl, hq'⟩
    · rcases (hlive q).mp hq with hl' | hmem
      · exact absurd hl' hl
      · rw [hfresh q hmem hl] at hq'
        cases hq'
  have hsmem : ∀ q, s = some q → q ∈ L := by
    rintro q rfl
    exact hchain.head_mem
  refine ⟨?_, ?_, ?_, ?_, ?_⟩
  · intro q q' hq hq'
    by_cases hmem : q ∈ L
    · have hmem' := (hin q q' hmem hq').1
      exact ⟨(hlive q').mpr (Or.inr hmem'), by rw [hownL q' hmem', hownL q hmem]⟩
    · obtain ⟨hl, hq'⟩ := hout q q' hq hmem hq'
      obtain ⟨h1, h2⟩ := h.next_mem q q' hl hq'
      exact ⟨(hlive q').mpr (Or.inl h1), by rw [hown q' h1, hown q hl, h2]⟩
  · intro q q' hq hq'
    by_cases hqp : q = p
    · subst hqp
      rw [hfirstp] at hq'
      exact ⟨(hlive q').mpr (Or.inr (hsmem q' hq')), hownL q' (hsmem q' hq')⟩
    · obtain ⟨hl, hq'⟩ := hfirst' q q' hq hqp hq'
      obtain ⟨h1, h2⟩ := h.first_mem q q' hl hq'
      exact ⟨(hlive q').mpr (Or.inl h1), by rw [hown q' h1, h2]⟩
  · intro q q2 q' hq hq2 hq' hcon
    by_cases hqp : q = p
    · subst hqp
      rw [hfirstp] at hq'
      by_cases hmem : q2 ∈ L
      · exact (hin q2 q' hmem hcon).2 hq'
      · obtain ⟨hl, hcon⟩ := hout q2 q' hq2 hmem hcon
        rcases hhead with heq | hnew
        · exact h.head q q2 q' hp hl (heq ▸ hq') hcon
        · exact hnew q' hq' (h.next_mem q2 q' hl hcon).1
    · obtain ⟨hl, hq'⟩ := hfirst' q q' hq hqp hq'
      obtain ⟨h1, h2⟩ := h.first_mem q q' hl hq'
      by_cases hmem : q2 ∈ L
      · exact hqp (h2.symm.trans (hold q' (hin q2 q' hmem hcon).1 h1))
      · obtain ⟨hl2, hcon⟩ := hout q2 q' hq2 hmem hcon
        exact h.head q q2 q' hl hl2 hq' hcon
  · intro q hq
    by_cases hmem : q ∈ L
    · exact hchain.tail_of_mem hmem
    have hl : live q := by
      rcases (hlive q).mp hq with hl | hin
      · exact hl
      · exact absurd hin hmem
    -- the old way on, up to the first cell of the new chain
    have hstop : ∀ c, live' c → next' c = next c ∨ ∃ T, Chain next' (next' c) T := by
      intro c hc
      by_cases hcL : c ∈ L
      · exact Or.inr (hchain.tail_of_mem hcL)
      rcases (hlive c).mp hc with hcl | hin
      · rcases hnext c hcl hcL with heq | hnone
        · exact Or.inl heq
        · exact Or.inr ⟨[], hnone⟩
      · exact absurd hin hcL
    have hstep : ∀ c d, live' c → next' c = some d → live' d := by
      intro c d hc hd
      by_cases hcL : c ∈ L
      · exact (hlive d).mpr (Or.inr (hin c d hcL hd).1)
      · obtain ⟨hcl, hd'⟩ := hout c d hc hcL hd
        exact (hlive d).mpr (Or.inl (h.next_mem c d hcl hd').1)
    rcases hnext q hl hmem with heq | hnone
    · obtain ⟨T, hT⟩ := h.tails q hl
      rw [← heq] at hT
      exact Chain.reroute hstop hstep hT fun d hd => hstep q d hq hd
    · exact ⟨[], hnone⟩
  · intro q hq
    by_cases hl : live q
    · rw [hown q hl]
      exact h.irrefl q hl
    · rcases (hlive q).mp hq with hl' | hmem
      · exact absurd hl' hl
      · rw [hownL q hmem]
        rintro rfl
        exact hl hp

end LibShare
