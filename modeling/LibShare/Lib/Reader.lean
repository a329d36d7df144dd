import Mathlib.Tactic.Common

/-!
# Readers

A reader takes items from the front of a list and returns a value, or ends with an
error. Readers are composed with `do`.

* `Reads r bs a` — the reader returns `a` from `bs`, and leaves what comes behind.
  The rules follow the reader's structure (`Reads.bind`, `reads_many`), so that a
  reader that mirrors a writer reads what was written.
* `Yields r P` — whatever the reader returns meets `P`.
* `Shrinks r` — the reader leaves no more than there was.
* `Avoids e n r` — the reader does not end with `e` on fewer than `n` items. With
  `Shrinks` this follows the reader's structure too, and shows that a bound on the
  rounds of a loop is not met.
* `Takes e n r` — the reader takes `n` items whatever they are, and ends with `e` where
  there are fewer.
-/

namespace LibShare

variable {α β γ ε : Type}

/-- A reader of items `β` that returns an `α`, or ends with an error `ε`. -/
abbrev Reader (ε β α : Type) : Type := StateT (List β) (Except ε) α

/-- The next items, as many as are asked for. -/
def readBlock (short : ε) (n : Nat) : Reader ε β (List β) := fun bs =>
  if n ≤ bs.length then .ok (bs.take n, bs.drop n) else .error short

/-- A value after the other, as many as are asked for. -/
def readMany (r : Reader ε β α) : Nat → Reader ε β (List α)
  | 0 => pure []
  | n + 1 => do
    let a ← r
    let as ← readMany r n
    pure (a :: as)

/-- The reader returns a value from the items, and leaves those behind them. -/
def Reads (r : Reader ε β α) (bs : List β) (a : α) : Prop := ∀ rest, r (bs ++ rest) = .ok (a, rest)

/-- What the reader returns meets the condition. -/
def Yields (r : Reader ε β α) (P : α → Prop) : Prop := ∀ bs a rest, r bs = .ok (a, rest) → P a

/-- What is left is no longer than what there was. -/
def Shrinks (r : Reader ε β α) : Prop := ∀ bs a rest, r bs = .ok (a, rest) → rest.length ≤ bs.length

/-- The reader does not end with the error on fewer items. -/
def Avoids (e : ε) (n : Nat) (r : Reader ε β α) : Prop := ∀ bs, bs.length < n → r bs ≠ .error e

/-- So many items are taken, and there is no error but that there are fewer. -/
def Takes (short : ε) (n : Nat) (r : Reader ε β α) : Prop :=
  ∀ bs, (n ≤ bs.length → ∃ a, r bs = .ok (a, bs.drop n)) ∧ (bs.length < n → r bs = .error short)

/-! ## One reader after another -/

section Bind

variable {r : Reader ε β α} {f : α → Reader ε β γ} {bs mid rest : List β} {a : α} {e : ε}

/-- The second reader goes on where the first one has stopped. -/
theorem reader_bind_ok (h : r bs = .ok (a, mid)) : (r >>= f) bs = f a mid := by
  show (r bs).bind _ = _
  rw [h]
  rfl

/-- An error of the first reader is the error of both. -/
theorem reader_bind_error (h : r bs = .error e) : (r >>= f) bs = .error e := by
  show (r bs).bind _ = _
  rw [h]
  rfl

/-- Two readers that return a value have met in between. -/
theorem reader_bind_eq_ok {c : γ} (h : (r >>= f) bs = .ok (c, rest)) :
    ∃ a mid, r bs = .ok (a, mid) ∧ f a mid = .ok (c, rest) := by
  cases hr : r bs with
  | error e =>
    rw [reader_bind_error hr] at h
    cases h
  | ok p =>
    obtain ⟨a, mid⟩ := p
    rw [reader_bind_ok hr] at h
    exact ⟨a, mid, rfl, h⟩

/-- What is made of a value does not change where it is read. -/
theorem reader_map_eq (g : α → γ) (r : Reader ε β α) : g <$> r = r >>= fun a => pure (g a) :=
  (bind_pure_comp g r).symm

end Bind

/-! ## Reading what was written -/

section Reads

variable {r : Reader ε β α} {bs bs' : List β} {a : α}

theorem Reads.pure (a : α) : Reads (pure a : Reader ε β α) [] a := fun _ => rfl

/-- What two readers read stands one behind the other. -/
theorem Reads.bind {f : α → Reader ε β γ} {c : γ} (h : Reads r bs a) (hf : Reads (f a) bs' c) :
    Reads (r >>= f) (bs ++ bs') c := by
  intro rest
  rw [List.append_assoc, reader_bind_ok (h _)]
  exact hf rest

/-- What is made of a value is read where the value is. -/
theorem Reads.map (f : α → γ) (h : Reads r bs a) : Reads (f <$> r) bs (f a) := by
  intro rest
  rw [reader_map_eq, reader_bind_ok (h rest)]
  rfl

/-- A block of the right length is read. -/
theorem reads_block {short : ε} {n : Nat} (h : bs.length = n) :
    Reads (readBlock short n) bs bs := by
  intro rest
  rw [readBlock, if_pos (by rw [List.length_append]; omega), List.take_left' h, List.drop_left' h]

/-- A reader that reads what was written for each value reads all of them. -/
theorem reads_many (write : γ → List β) (back : γ → α) : ∀ {xs : List γ},
    (∀ x ∈ xs, Reads r (write x) (back x)) → Reads (readMany r xs.length) (xs.flatMap write)
    (xs.map back) := by
  intro xs
  induction xs with
  | nil => exact fun _ => Reads.pure []
  | cons x xs ih =>
    intro h
    have hrest := ih fun y hy => h y (List.mem_cons_of_mem _ hy)
    exact (h x List.mem_cons_self).bind (hrest.map (back x :: ·))

end Reads

/-! ## What is returned -/

section Yields

variable {r : Reader ε β α} {P : α → Prop}

theorem Yields.pure {a : α} (h : P a) : Yields (pure a : Reader ε β α) P := by
  rintro bs b rest hrun
  obtain ⟨rfl, -⟩ := Prod.mk.inj (Except.ok.inj hrun)
  exact h

/-- What is known of the first value may be used for the second reader. -/
theorem Yields.bind {f : α → Reader ε β γ} {Q : γ → Prop} (h : Yields r P)
    (hf : ∀ a, P a → Yields (f a) Q) :
    Yields (r >>= f) Q := by
  intro bs c rest hrun
  obtain ⟨a, mid, hr, hc⟩ := reader_bind_eq_ok hrun
  exact hf a (h bs a mid hr) mid c rest hc

/-- What is known of the value carries over to what is made of it. -/
theorem Yields.map {f : α → γ} {Q : γ → Prop} (h : Yields r P) (hf : ∀ a, P a → Q (f a)) :
    Yields (f <$> r) Q := by
  rw [reader_map_eq]
  exact h.bind fun a ha => .pure (hf a ha)

theorem yields_any (r : Reader ε β α) : Yields r fun _ => True := fun _ _ _ _ => trivial

/-- A block has the length that was asked for. -/
theorem yields_block (short : ε) (n : Nat) :
    Yields (readBlock short n : Reader ε β (List β)) fun bs => bs.length = n := by
  intro bs as rest hrun
  by_cases hle : n ≤ bs.length
  · rw [readBlock, if_pos hle] at hrun
    obtain ⟨rfl, -⟩ := Prod.mk.inj (Except.ok.inj hrun)
    exact List.length_take_of_le hle
  · rw [readBlock, if_neg hle] at hrun
    cases hrun

/-- Each of the values read in a row meets the condition. -/
theorem yields_many (h : Yields r P) (n : Nat) :
    Yields (readMany r n) fun as => as.length = n ∧ ∀ a ∈ as, P a := by
  induction n with
  | zero => exact .pure ⟨rfl, nofun⟩
  | succ n ih =>
    refine h.bind fun a ha => ih.bind ?_
    rintro as ⟨hlen, hall⟩
    refine .pure ⟨congrArg Nat.succ hlen, ?_⟩
    intro b hb
    rcases List.mem_cons.mp hb with rfl | hb
    · exact ha
    · exact hall b hb

/-- As many values are read as were asked for. -/
theorem yields_length (r : Reader ε β α) (n : Nat) :
    Yields (readMany r n) fun as => as.length = n := by
  intro bs as rest hrun
  exact (yields_many (yields_any r) n bs as rest hrun).1

end Yields

/-! ## What is left -/

section Shrinks

variable {r : Reader ε β α}

theorem Shrinks.pure (a : α) : Shrinks (pure a : Reader ε β α) := by
  rintro bs b rest hrun
  obtain ⟨-, rfl⟩ := Prod.mk.inj (Except.ok.inj hrun)
  exact Nat.le_refl _

/-- Two readers leave no more than there was. -/
theorem Shrinks.bind {f : α → Reader ε β γ} (h : Shrinks r) (hf : ∀ a, Shrinks (f a)) :
    Shrinks (r >>= f) := by
  intro bs c rest hrun
  obtain ⟨a, mid, hr, hc⟩ := reader_bind_eq_ok hrun
  exact Nat.le_trans (hf a mid c rest hc) (h bs a mid hr)

theorem Shrinks.map (f : α → γ) (h : Shrinks r) : Shrinks (f <$> r) := by
  rw [reader_map_eq]
  exact h.bind fun a => .pure (f a)

/-- A block is the front of the list. -/
theorem block_ok {short : ε} {n : Nat} {bs as rest : List β}
    (h : readBlock short n bs = .ok (as, rest)) :
    n ≤ bs.length ∧ as = bs.take n ∧ rest = bs.drop n := by
  by_cases hle : n ≤ bs.length
  · rw [readBlock, if_pos hle] at h
    obtain ⟨rfl, rfl⟩ := Prod.mk.inj (Except.ok.inj h)
    exact ⟨hle, rfl, rfl⟩
  · rw [readBlock, if_neg hle] at h
    cases h

/-- Many readers in a row leave no more than there was. -/
theorem shrinks_many (h : Shrinks r) (n : Nat) : Shrinks (readMany r n) := by
  induction n with
  | zero => exact .pure []
  | succ n ih => exact h.bind fun a => ih.bind fun as => .pure _

theorem shrinks_throw (e : ε) : Shrinks (throw e : Reader ε β α) := fun _ _ _ hrun => nomatch hrun

end Shrinks

/-! ## An error that is not met -/

section Avoids

variable {r : Reader ε β α} {e : ε} {n : Nat}

theorem Avoids.pure (a : α) : Avoids e n (pure a : Reader ε β α) := fun _ _ => nofun

/-- Behind a reader that leaves no more, the bound is as good. -/
theorem Avoids.bind {f : α → Reader ε β γ} (h : Avoids e n r) (hr : Shrinks r)
    (hf : ∀ a, Avoids e n (f a)) :
    Avoids e n (r >>= f) := by
  intro bs hlen
  cases hrun : r bs with
  | error e' =>
    rw [reader_bind_error hrun]
    rintro ⟨rfl⟩
    exact h bs hlen hrun
  | ok p =>
    obtain ⟨a, mid⟩ := p
    rw [reader_bind_ok hrun]
    exact hf a mid (Nat.lt_of_le_of_lt (hr bs a mid hrun) hlen)

/-- Behind what takes items, the bound is smaller by as many. -/
theorem Avoids.block_bind {short : ε} {k : Nat} {f : List β → Reader ε β γ} (hne : short ≠ e)
    (hf : ∀ as, Avoids e (n - k) (f as)) : Avoids e n (readBlock short k >>= f) := by
  intro bs hlen
  cases hrun : readBlock short k bs with
  | error e' =>
    rw [reader_bind_error hrun]
    rintro ⟨rfl⟩
    rw [readBlock] at hrun
    split at hrun
    · cases hrun
    · exact hne (Except.error.inj hrun)
  | ok p =>
    obtain ⟨as, mid⟩ := p
    rw [reader_bind_ok hrun]
    obtain ⟨hle, -, rfl⟩ := block_ok hrun
    refine hf as _ ?_
    rw [List.length_drop]
    omega

theorem Avoids.map (f : α → γ) (h : Avoids e n r) (hr : Shrinks r) : Avoids e n (f <$> r) := by
  rw [reader_map_eq]
  exact h.bind hr fun a => .pure (f a)

/-- What does not happen on a longer list does not happen on a shorter one. -/
theorem Avoids.mono {m : Nat} (h : Avoids e n r) (hle : m ≤ n) : Avoids e m r :=
  fun bs hlen => h bs (Nat.lt_of_lt_of_le hlen hle)

/-- No reader of a row ends with the error. -/
theorem avoids_many (h : Avoids e n r) (hr : Shrinks r) (k : Nat) : Avoids e n (readMany r k) := by
  induction k with
  | zero => exact .pure []
  | succ k ih =>
    exact h.bind hr fun a => ih.bind (shrinks_many hr k) fun as => .pure _

end Avoids

/-! ## How much is taken -/

section Takes

variable {r : Reader ε β α} {short : ε} {n : Nat}

/-- A block takes its length. -/
theorem takes_block (short : ε) (n : Nat) :
    Takes short n (readBlock short n : Reader ε β (List β)) :=
  fun bs => ⟨fun hle => ⟨bs.take n, if_pos hle⟩, fun hlt => if_neg (Nat.not_le_of_lt hlt)⟩

/-- What is done with the items takes no more of them, and cannot fail. -/
theorem Takes.bind_pure {f : α → Reader ε β γ} (h : Takes short n r) (hf : ∀ a, ∃ c, f a = pure c) :
    Takes short n (r >>= f) := by
  intro bs
  constructor
  · intro hle
    obtain ⟨a, ha⟩ := (h bs).1 hle
    obtain ⟨c, hc⟩ := hf a
    refine ⟨c, ?_⟩
    rw [reader_bind_ok ha, hc]
    rfl
  · intro hlt
    exact reader_bind_error ((h bs).2 hlt)

theorem Takes.map (f : α → γ) (h : Takes short n r) : Takes short n (f <$> r) := by
  rw [reader_map_eq]
  exact h.bind_pure fun a => ⟨f a, rfl⟩

/-- Many readers in a row take as often as much. -/
theorem takes_many (h : Takes short n r) (k : Nat) : Takes short (k * n) (readMany r k) := by
  induction k with
  | zero =>
    intro bs
    rw [Nat.zero_mul]
    exact ⟨fun _ => ⟨[], rfl⟩, fun hlt => absurd hlt (Nat.not_lt_zero _)⟩
  | succ k ih =>
    intro bs
    rw [Nat.succ_mul, readMany]
    constructor
    · intro hle
      obtain ⟨a, ha⟩ := (h bs).1 (by omega)
      obtain ⟨as, has⟩ := (ih (bs.drop n)).1 (by rw [List.length_drop]; omega)
      refine ⟨a :: as, ?_⟩
      rw [reader_bind_ok ha, reader_bind_ok has, List.drop_drop, Nat.add_comm n]
      rfl
    · intro hlt
      -- the first value or one of the others is cut off
      by_cases hfirst : bs.length < n
      · exact reader_bind_error ((h bs).2 hfirst)
      · obtain ⟨a, ha⟩ := (h bs).1 (by omega)
        rw [reader_bind_ok ha]
        exact reader_bind_error ((ih (bs.drop n)).2 (by rw [List.length_drop]; omega))

/-- A reader that takes some items leaves no more than there was. -/
theorem Takes.shrinks (h : Takes short n r) : Shrinks r := by
  intro bs a rest hrun
  by_cases hle : n ≤ bs.length
  · obtain ⟨b, hb⟩ := (h bs).1 hle
    rw [hb] at hrun
    obtain ⟨-, rfl⟩ := Prod.mk.inj (Except.ok.inj hrun)
    rw [List.length_drop]
    exact Nat.sub_le _ _
  · rw [(h bs).2 (Nat.lt_of_not_le hle)] at hrun
    cases hrun

/-- A reader that takes items ends with no other error. -/
theorem Takes.avoids {e : ε} (h : Takes short n r) (hne : short ≠ e) (k : Nat) : Avoids e k r := by
  intro bs _ hrun
  by_cases hle : n ≤ bs.length
  · obtain ⟨b, hb⟩ := (h bs).1 hle
    rw [hb] at hrun
    cases hrun
  · rw [(h bs).2 (Nat.lt_of_not_le hle)] at hrun
    exact hne (Except.error.inj hrun)

end Takes

end LibShare
