import Mathlib.Tactic.Common

/-!
# Programs with a status

`Prog σ ε α` is a program that changes a state and returns a value or a status;
a program without a result has run out of passes, or its behaviour is undefined
from there on. What has been done to the state before a status is returned
stays done.

`Prog.Succeeds` and `Prog.Fails` are its two outcomes. `Prog.Reads` says that it changes
nothing.

`Prog.Keeps R x s Q` is partial correctness: a run of `x` from the state `s` that
has a result ends in a state that `R` relates to `s`, whatever the status, and a
value it returns meets `Q`. The rules follow the program's structure and name
every state in between; a loop is an induction on its number of passes.
-/

namespace LibShare

/-- A program over the state `σ` with statuses `ε`. -/
def Prog (σ ε α : Type) : Type := σ → Option (Except ε α × σ)

namespace Prog

variable {σ ε α β : Type}

/-- Nothing but a value. -/
protected def pure (a : α) : Prog σ ε α := fun s => some (.ok a, s)

/-- One program after the other, unless the first one ends with a status. -/
protected def bind (x : Prog σ ε α) (f : α → Prog σ ε β) : Prog σ ε β := fun s =>
  match x s with
  | none => none
  | some (.error e, s) => some (.error e, s)
  | some (.ok a, s) => f a s

instance : Monad (Prog σ ε) where
  pure := Prog.pure
  bind := Prog.bind

/-- The program ends with a status. -/
def fail (e : ε) : Prog σ ε α := fun s => some (.error e, s)

/-- The program has no result. -/
def undef : Prog σ ε α := fun _ => none

/-- A value that depends on the state. -/
def read (f : σ → α) : Prog σ ε α := fun s => some (.ok (f s), s)

/-- A change of the state. -/
def modify (f : σ → σ) : Prog σ ε Unit := fun s => some (.ok (), f s)

/-- The status of a program as a value. -/
def attempt (x : Prog σ ε α) : Prog σ ε (Except ε α) := fun s =>
  match x s with
  | none => none
  | some (r, s) => some (.ok r, s)

/-! ## Runs -/

section Runs

variable {x : Prog σ ε α} {f : α → Prog σ ε β} {s s' s1 : σ} {a : α} {e : ε}

@[simp] theorem pure_run (a : α) (s : σ) : (pure a : Prog σ ε α) s = some (.ok a, s) := rfl

@[simp] theorem read_run (g : σ → α) (s : σ) : (read g : Prog σ ε α) s = some (.ok (g s), s) := rfl

@[simp] theorem modify_run (g : σ → σ) (s : σ) :
    (modify g : Prog σ ε Unit) s = some (.ok (), g s) := rfl

/-- A bind runs the second program from the state that the first one leaves, unless that has
ended with a status or without a result. -/
theorem bind_run (x : Prog σ ε α) (f : α → Prog σ ε β) (s : σ) :
    (x >>= f) s = match x s with
      | none => none
      | some (.error e, s) => some (.error e, s)
      | some (.ok a, s) => f a s := rfl

/-- The first program returns a value. -/
theorem bind_ok (h : x s = some (.ok a, s1)) : (x >>= f) s = f a s1 := by
  rw [bind_run, h]

/-- A status of the first program is the status of both. -/
theorem bind_error (h : x s = some (.error e, s1)) : (x >>= f) s = some (.error e, s1) := by
  rw [bind_run, h]

/-- Without a result of the first program there is none of both. -/
theorem bind_none (h : x s = none) : (x >>= f) s = none := by
  rw [bind_run, h]

/-- An attempt turns the outcome into a value. -/
theorem attempt_run {r : Except ε α} (h : x s = some (r, s1)) :
    attempt x s = some (.ok r, s1) := by
  rw [attempt, h]

/-- An attempt that has a result has a value, which is the outcome of what was attempted. -/
theorem attempt_inv {r : Except ε (Except ε α)} (h : attempt x s = some (r, s')) :
    ∃ r1, r = .ok r1 ∧ x s = some (r1, s') := by
  unfold attempt at h
  rcases hx : x s with _ | ⟨r1, s1⟩
  · rw [hx] at h
    cases h
  · rw [hx] at h
    cases h
    exact ⟨r1, rfl, rfl⟩

/-- A run of two programs that has a result. -/
theorem bind_inv {r : Except ε β} (h : (x >>= f) s = some (r, s')) :
    (∃ e, x s = some (.error e, s') ∧ r = .error e) ∨
      ∃ a s1, x s = some (.ok a, s1) ∧ f a s1 = some (r, s') := by
  rw [bind_run] at h
  rcases hx : x s with _ | ⟨_ | a, s1⟩
  · rw [hx] at h
    cases h
  · rw [hx] at h
    cases h
    exact Or.inl ⟨_, rfl, rfl⟩
  · rw [hx] at h
    exact Or.inr ⟨a, s1, rfl, h⟩

end Runs

/-! ## Outcomes -/

section Outcomes

variable {x : Prog σ ε α} {f : α → Prog σ ε β} {s : σ}

/-- The program returns a value. -/
def Succeeds (x : Prog σ ε α) (s : σ) : Prop := ∃ a s', x s = some (.ok a, s')

instance (x : Prog σ ε α) (s : σ) : Decidable (Succeeds x s) :=
  match h : x s with
  | some (.ok a, s') => isTrue ⟨a, s', h⟩
  | some (.error _, _) => isFalse fun ⟨_, _, h'⟩ => nomatch h.symm.trans h'
  | none => isFalse fun ⟨_, _, h'⟩ => nomatch h.symm.trans h'

/-- The program ends with a status. -/
def Fails (x : Prog σ ε α) (s : σ) : Prop := ∃ e s', x s = some (.error e, s')

@[simp] theorem succeeds_modify (g : σ → σ) (s : σ) : Succeeds (modify g : Prog σ ε Unit) s :=
  ⟨(), g s, rfl⟩

@[simp] theorem not_succeeds_fail (e : ε) (s : σ) : ¬ Succeeds (fail e : Prog σ ε α) s := by
  rintro ⟨a, s', h⟩
  cases h

@[simp] theorem fails_fail (e : ε) (s : σ) : Fails (fail e : Prog σ ε α) s := ⟨e, s, rfl⟩

@[simp] theorem not_fails_pure (a : α) (s : σ) : ¬ Fails (pure a : Prog σ ε α) s := by
  rintro ⟨e, s', h⟩
  cases h

@[simp] theorem not_fails_undef (s : σ) : ¬ Fails (undef : Prog σ ε α) s := by
  rintro ⟨e, s', h⟩
  cases h

@[simp] theorem not_fails_attempt (s : σ) : ¬ Fails (attempt x) s := by
  rintro ⟨e, s', h⟩
  obtain ⟨r1, hr, -⟩ := attempt_inv h
  cases hr

/-- A bind succeeds just when both programs do, one after the other. -/
theorem succeeds_bind :
    Succeeds (x >>= f) s ↔ ∃ a s1, x s = some (.ok a, s1) ∧ Succeeds (f a) s1 := by
  constructor
  · rintro ⟨b, s', h⟩
    rcases bind_inv h with ⟨e, -, he⟩ | ⟨a, s1, hx, hf⟩
    · cases he
    · exact ⟨a, s1, hx, b, s', hf⟩
  · rintro ⟨a, s1, hx, b, s', hf⟩
    exact ⟨b, s', (bind_ok hx).trans hf⟩

/-- A bind fails just when the first program fails, or the second one does after it. -/
theorem fails_bind :
    Fails (x >>= f) s ↔ Fails x s ∨ ∃ a s1, x s = some (.ok a, s1) ∧ Fails (f a) s1 := by
  constructor
  · rintro ⟨e, s', h⟩
    rcases bind_inv h with ⟨e', hx, -⟩ | ⟨a, s1, hx, hf⟩
    · exact Or.inl ⟨e', s', hx⟩
    · exact Or.inr ⟨a, s1, hx, e, s', hf⟩
  · rintro (⟨e, s', hx⟩ | ⟨a, s1, hx, e, s', hf⟩)
    · exact ⟨e, s', bind_error hx⟩
    · exact ⟨e, s', (bind_ok hx).trans hf⟩

/-- After a program that returns a value, it is the second one that may fail. -/
theorem fails_bind_ok {a : α} {s1 : σ} (hx : x s = some (.ok a, s1)) :
    Fails (x >>= f) s ↔ Fails (f a) s1 := by
  unfold Fails
  rw [bind_ok hx]

/-- A program that has a result fails when it does not succeed. -/
theorem fails_iff (h : x s ≠ none) : Fails x s ↔ ¬ Succeeds x s := by
  rcases hx : x s with _ | ⟨_ | a, s'⟩
  · exact absurd hx h
  · refine iff_of_true ⟨_, s', hx⟩ ?_
    rintro ⟨a, s1, ha⟩
    rw [hx] at ha
    cases ha
  · refine iff_of_false ?_ (not_not.mpr ⟨a, s', hx⟩)
    rintro ⟨e, s1, he⟩
    rw [hx] at he
    cases he

/-- Two programs have a result where both have one. -/
theorem bind_ne_none (hx : x s ≠ none) (hf : ∀ a s1, x s = some (.ok a, s1) → f a s1 ≠ none) :
    (x >>= f) s ≠ none := by
  rw [bind_run]
  rcases hxs : x s with _ | ⟨_ | a, s1⟩
  · exact absurd hxs hx
  · exact Option.some_ne_none _
  · exact hf a s1 hxs

@[simp] theorem succeeds_bind_read (g : σ → α) : Succeeds (read g >>= f) s ↔ Succeeds (f (g s)) s :=
  Iff.rfl

@[simp] theorem fails_bind_read (g : σ → α) : Fails (read g >>= f) s ↔ Fails (f (g s)) s :=
  Iff.rfl

end Outcomes

/-! ## Programs that change nothing -/

section Reads

variable {x : Prog σ ε α} {f : α → Prog σ ε β}

/-- The program leaves the state as it is. -/
def Reads (x : Prog σ ε α) : Prop := ∀ s r s', x s = some (r, s') → s' = s

/-- Programs that change nothing may be bound. -/
theorem Reads.bind (hx : Reads x) (hf : ∀ a, Reads (f a)) : Reads (x >>= f) := by
  intro s r s' hrun
  rcases bind_inv hrun with ⟨e, he, -⟩ | ⟨a, s1, ha, hrest⟩
  · exact hx s _ s' he
  · rw [hf a s1 r s' hrest]
    exact hx s _ s1 ha

/-- An attempt changes what is attempted changes, which is nothing. -/
theorem Reads.attempt (hx : Reads x) : Reads x.attempt := by
  intro s r s' hrun
  obtain ⟨r1, -, hx1⟩ := attempt_inv hrun
  exact hx s r1 s' hx1

theorem reads_pure (a : α) : Reads (Pure.pure a : Prog σ ε α) := by
  intro s r s' hrun
  cases hrun
  rfl

theorem reads_fail (e : ε) : Reads (fail e : Prog σ ε α) := by
  intro s r s' hrun
  cases hrun
  rfl

theorem reads_read (g : σ → α) : Reads (read g : Prog σ ε α) := by
  intro s r s' hrun
  cases hrun
  rfl

theorem reads_undef : Reads (undef : Prog σ ε α) := by
  intro s r s' hrun
  cases hrun

end Reads

/-! ## More passes -/

section Extends

variable {x y : Prog σ ε α} {f g : α → Prog σ ε β}

/-- Where the first program has a result the second one has the same. -/
def Extends (x y : Prog σ ε α) : Prop := ∀ s r, x s = some r → y s = some r

theorem Extends.refl (x : Prog σ ε α) : Extends x x := fun _ _ h => h

/-- A program without a result is extended by every program. -/
theorem extends_undef (y : Prog σ ε α) : Extends undef y := fun _ _ h => nomatch h

/-- Both parts of a bind may be extended. -/
theorem Extends.bind (hx : Extends x y) (hf : ∀ a, Extends (f a) (g a)) :
    Extends (x >>= f) (y >>= g) := by
  rintro s ⟨r, s'⟩ hrun
  rcases bind_inv hrun with ⟨e, he, rfl⟩ | ⟨a, s1, ha, hrest⟩
  · exact bind_error (hx _ _ he)
  · rw [bind_ok (hx _ _ ha)]
    exact hf a s1 _ hrest

/-- Both branches may be extended. -/
theorem Extends.ite {c : Prop} [Decidable c] {x' y' : Prog σ ε α} (hx : Extends x x')
    (hy : Extends y y') :
    Extends (if c then x else y) (if c then x' else y') := by
  split
  · exact hx
  · exact hy

end Extends

/-! ## Partial correctness -/

/-- A run of `x` from `s` that has a result stays within `R`, and its value
meets `Q`. -/
def Keeps (R : σ → σ → Prop) (x : Prog σ ε α) (s : σ) (Q : α → σ → Prop) : Prop :=
  ∀ r s', x s = some (r, s') → R s s' ∧ ∀ a, r = .ok a → Q a s'

namespace Keeps

variable {R : σ → σ → Prop} {x : Prog σ ε α} {f : α → Prog σ ε β} {s : σ} {a : α}
  {Q : α → σ → Prop} {S : β → σ → Prop}

/-- What is known of the value may be weakened. -/
theorem mono {Q' : α → σ → Prop} (h : Keeps R x s Q) (hq : ∀ a s', R s s' → Q a s' → Q' a s') :
    Keeps R x s Q' := by
  intro r s' hrun
  obtain ⟨hr, hval⟩ := h r s' hrun
  exact ⟨hr, fun a ha => hq a s' hr (hval a ha)⟩

/-- What is known of the states may be weakened. -/
theorem weaken {R' : σ → σ → Prop} (h : Keeps R x s Q) (hr : ∀ s', R s s' → R' s s') :
    Keeps R' x s Q := by
  intro r s' hrun
  obtain ⟨h1, hval⟩ := h r s' hrun
  exact ⟨hr s' h1, hval⟩

/-- A program that returns a value at once keeps what relates the state to itself. -/
theorem pure (hr : R s s) (hq : Q a s) : Keeps R (Pure.pure a : Prog σ ε α) s Q := by
  intro r s' hrun
  cases hrun
  refine ⟨hr, ?_⟩
  intro b hb
  cases hb
  exact hq

/-- A status leaves the state as it is. -/
theorem fail {e : ε} (hr : R s s) : Keeps R (Prog.fail e : Prog σ ε α) s Q := by
  intro r s' hrun
  cases hrun
  exact ⟨hr, fun b hb => nomatch hb⟩

/-- A program without a result keeps everything. -/
theorem undef : Keeps R (Prog.undef : Prog σ ε α) s Q := by
  intro r s' hrun
  cases hrun

theorem read {g : σ → α} (hr : R s s) (hq : Q (g s) s) :
    Keeps R (Prog.read g : Prog σ ε α) s Q :=
  Keeps.pure hr hq

theorem modify {g : σ → σ} {Q : Unit → σ → Prop} (hr : R s (g s)) (hq : Q () (g s)) :
    Keeps R (Prog.modify g : Prog σ ε Unit) s Q := by
  intro r s' hrun
  cases hrun
  exact ⟨hr, fun _ _ => hq⟩

/-- The first program is known to return a value. -/
theorem of_ok {s1 : σ} (hx : x s = some (.ok a, s1)) (hr : ∀ s', R s1 s' → R s s')
    (hf : Keeps R (f a) s1 S) : Keeps R (x >>= f) s S := by
  intro r s' hrun
  rw [bind_ok hx] at hrun
  obtain ⟨h1, h2⟩ := hf r s' hrun
  exact ⟨hr s' h1, h2⟩

/-- A value that is read from the state. -/
theorem bind_read {g : σ → α} (hf : Keeps R (f (g s)) s S) : Keeps R (Prog.read g >>= f) s S :=
  of_ok (read_run g s) (fun _ h => h) hf

section Trans

variable [IsTrans σ R]

/-- One program after the other. -/
theorem bind (hx : Keeps R x s Q) (hf : ∀ a s1, R s s1 → Q a s1 → Keeps R (f a) s1 S) :
    Keeps R (x >>= f) s S := by
  intro r s' hrun
  rcases bind_inv hrun with ⟨e, he, rfl⟩ | ⟨a, s1, ha, hrest⟩
  · exact ⟨(hx _ s' he).1, fun b hb => nomatch hb⟩
  · obtain ⟨h1, hq⟩ := hx _ s1 ha
    obtain ⟨h2, hs⟩ := hf a s1 h1 (hq a rfl) r s' hrest
    exact ⟨IsTrans.trans _ _ _ h1 h2, hs⟩

/-- A program whose status is looked at. -/
theorem bind_attempt {f : Except ε α → Prog σ ε β} (hx : Keeps R x s Q)
    (hf : ∀ r s1, R s s1 → (∀ a, r = .ok a → Q a s1) → Keeps R (f r) s1 S) :
    Keeps R (attempt x >>= f) s S := by
  have hattempt : Keeps R (attempt x) s fun r s1 => ∀ a, r = .ok a → Q a s1 := by
    intro r s' hrun
    obtain ⟨r1, rfl, hxs⟩ := attempt_inv hrun
    obtain ⟨h1, hq⟩ := hx _ _ hxs
    refine ⟨h1, ?_⟩
    intro b hb
    cases hb
    exact hq
  exact bind hattempt hf

/-- A program that does not fail. -/
theorem bind_attempt_ok {f : Except ε α → Prog σ ε β} (hx : Keeps R x s Q) (hok : ¬ Fails x s)
    (hf : ∀ a s1, R s s1 → Q a s1 → Keeps R (f (.ok a)) s1 S) : Keeps R (attempt x >>= f) s S := by
  have hattempt : Keeps R (attempt x) s fun r s1 => ∃ a, r = .ok a ∧ Q a s1 := by
    intro r s' hrun
    obtain ⟨r1, rfl, hxs⟩ := attempt_inv hrun
    obtain ⟨h1, hq⟩ := hx _ _ hxs
    rcases r1 with e | a
    · exact absurd ⟨e, s', hxs⟩ hok
    · refine ⟨h1, ?_⟩
      intro b hb
      cases hb
      exact ⟨a, rfl, hq a rfl⟩
  refine bind hattempt fun r s1 h1 hr => ?_
  obtain ⟨a, rfl, hq⟩ := hr
  exact hf a s1 h1 hq

end Trans

/-- The branches are shown apart, each with its condition. -/
theorem ite {c : Prop} [Decidable c] {x y : Prog σ ε α} (hx : c → Keeps R x s Q)
    (hy : ¬ c → Keeps R y s Q) : Keeps R (if c then x else y) s Q := by
  split
  · next hc => exact hx hc
  · next hc => exact hy hc

end Keeps

end Prog

end LibShare
