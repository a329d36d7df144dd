import LibShare.Lib.Reader

/-!
# Values with a separator between them

A relation `P` says which texts a value has. `Separated` are the texts of several values, and
`readSeparated` reads them where a reader of one value is given.

* `readSeparated_eq` — where the reader reads the texts of a value, all of them are read.
* `readSeparated_explains` — where the reader takes nothing but texts of what it returns, neither is
  anything else taken here.

A reader may end at a place from which nothing can be read on, and have taken what is not a text
(`Dead`). It must not stop with one of the errors (`bad`), and what it is given has a property that
it keeps (`G`).
-/

namespace LibShare

variable {α β ε : Type}

/-- Texts of values, with a separator between two of them. -/
inductive Separated (sep : β) (P : α → List β → Prop) : List α → List β → Prop
  | one {a : α} {t : List β} (h : P a t) : Separated sep P [a] t
  | cons {a : α} {as : List α} {t ts : List β} (h : P a t) (hs : Separated sep P as ts) :
      Separated sep P (a :: as) (t ++ sep :: ts)

/-- Values to the last that no separator follows. -/
def readSeparated [DecidableEq β] (short : ε) (sep : β) (item : Reader ε β α) :
    Nat → Reader ε β (List α)
  | 0 => fun _ => .error short
  | n + 1 => fun bs =>
    match item bs with
    | .error e => .error e
    | .ok (a, rest) =>
      if rest.head? = some sep then
        match readSeparated short sep item n rest.tail with
        | .error e => .error e
        | .ok (as, rest) => .ok (a :: as, rest)
      else .ok ([a], rest)

/-- What is read of `m` is a text of the value, or what is left is a dead end. -/
def Explains (bad : ε) (G Dead : List β → Prop) (P : α → List β → Prop) (m : List β)
    (res : Except ε (α × List β)) : Prop :=
  res ≠ .error bad ∧ ∀ a rest, res = .ok (a, rest) →
    G rest ∧ rest.length < m.length ∧ (Dead rest ∨ ∃ t, m = t ++ rest ∧ P a t)

section Separated

variable {sep : β} {P Q : α → List β → Prop} {as : List α} {t : List β}

/-- Every value but the last has a separator. -/
theorem Separated.length_le (h : Separated sep P as t) : as.length ≤ t.length + 1 := by
  induction h with
  | one => exact Nat.le_add_left _ _
  | cons _ _ ih =>
    rw [List.length_cons, List.length_append, List.length_cons]
    omega

/-- The text begins with that of the first value. -/
theorem Separated.first (h : Separated sep P as t) : ∃ a ∈ as, ∃ t₁ t₂, t = t₁ ++ t₂ ∧ P a t₁ := by
  cases h with
  | one h => exact ⟨_, List.mem_cons_self, t, [], (List.append_nil t).symm, h⟩
  | cons h _ => exact ⟨_, List.mem_cons_self, _, _, rfl, h⟩

/-- Texts that are related one by one are related as a whole. -/
theorem Separated.related {R : List β → List β → Prop}
    (hsep : ∀ t t' u u', R t t' → R u u' → R (t ++ sep :: u) (t' ++ sep :: u'))
    (h : Separated sep P as t) (hP : ∀ a ∈ as, ∀ t, P a t → ∃ t', R t t' ∧ Q a t') :
    ∃ t', R t t' ∧ Separated sep Q as t' := by
  induction h with
  | one h =>
    obtain ⟨t', hR, hQ⟩ := hP _ List.mem_cons_self _ h
    exact ⟨t', hR, .one hQ⟩
  | cons h _ ih =>
    obtain ⟨t', hR, hQ⟩ := hP _ List.mem_cons_self _ h
    obtain ⟨ts', hRs, hQs⟩ := ih fun a ha => hP a (List.mem_cons_of_mem _ ha)
    exact ⟨_, hsep _ _ _ _ hR hRs, .cons hQ hQs⟩

/-- What is in the text is a separator, or in the text of a value. -/
theorem Separated.mem (h : Separated sep P as t) {c : β} (hc : c ∈ t) :
    c = sep ∨ ∃ a ∈ as, ∃ t', P a t' ∧ c ∈ t' := by
  induction h with
  | one h => exact .inr ⟨_, List.mem_cons_self, _, h, hc⟩
  | cons h _ ih =>
    rcases List.mem_append.mp hc with hc | hc
    · exact .inr ⟨_, List.mem_cons_self, _, h, hc⟩
    · rcases List.mem_cons.mp hc with rfl | hc
      · exact .inl rfl
      · refine (ih hc).imp_right ?_
        rintro ⟨a, ha, t', ht', hct'⟩
        exact ⟨a, List.mem_cons_of_mem _ ha, t', ht', hct'⟩

variable [DecidableEq β] {short : ε} {item : Reader ε β α} {Ok : List β → Prop}

/-- Where the first value is read the same, all are. -/
theorem readSeparated_congr {m m' : List β} (h : item m = item m') (n : Nat) :
    readSeparated short sep item n m = readSeparated short sep item n m' := by
  cases n with
  | zero => rfl
  | succ n =>
    rw [readSeparated]
    dsimp only
    rw [h]

theorem readSeparated_eq (hsep : ∀ m, Ok (sep :: m)) (h : Separated sep P as t) :
    ∀ {n : Nat} {rest : List β}, (∀ a ∈ as, ∀ t', P a t' → t'.length ≤ t.length → ∀ rest, Ok rest →
      item (t' ++ rest) = .ok (a, rest)) →
      as.length ≤ n → Ok rest → rest.head? ≠ some sep →
        readSeparated short sep item n (t ++ rest) = .ok (as, rest) := by
  induction h with
  | @one a t h =>
    intro n rest hitem hn hrest hhead
    obtain ⟨n, rfl⟩ : ∃ k, n = k + 1 := ⟨n - 1, by rw [List.length_singleton] at hn; omega⟩
    rw [readSeparated]
    dsimp only
    rw [hitem a List.mem_cons_self t h (Nat.le_refl _) rest hrest]
    exact if_neg hhead
  | @cons a as t ts h hs ih =>
    intro n rest hitem hn hrest hhead
    rw [List.length_cons] at hn
    obtain ⟨n, rfl⟩ : ∃ k, n = k + 1 := ⟨n - 1, by omega⟩
    have hlen : ts.length ≤ (t ++ sep :: ts).length := by
      rw [List.length_append, List.length_cons]
      omega
    -- the value before the separator, and those behind it
    have hfirst : item (t ++ (sep :: (ts ++ rest))) = .ok (a, sep :: (ts ++ rest)) :=
      hitem a List.mem_cons_self t h (by rw [List.length_append]; omega) _ (hsep _)
    have hothers := ih (fun b hb t' ht' hle =>
      hitem b (List.mem_cons_of_mem _ hb) t' ht' (Nat.le_trans hle hlen))
      (Nat.le_of_succ_le_succ hn) hrest hhead
    rw [readSeparated, List.append_assoc, List.cons_append]
    dsimp only
    rw [hfirst]
    simp only [List.head?_cons, if_pos, List.tail_cons, hothers]

end Separated

section Explains

variable {bad e : ε} {G Dead : List β → Prop} {P : α → List β → Prop} {m rest : List β} {a : α}

theorem explains_error (h : e ≠ bad) : Explains bad G Dead P m (.error e) :=
  ⟨fun heq => h (Except.error.inj heq), fun _ _ heq => by cases heq⟩

theorem explains_ok (hG : G rest) (hlen : rest.length < m.length)
    (htext : Dead rest ∨ ∃ t, m = t ++ rest ∧ P a t) :
    Explains bad G Dead P m (.ok (a, rest)) := by
  refine ⟨(by rintro ⟨⟩), fun a' rest' heq => ?_⟩
  obtain ⟨rfl, rfl⟩ := Prod.mk.inj (Except.ok.inj heq)
  exact ⟨hG, hlen, htext⟩

variable [DecidableEq β] {sep : β} {item : Reader ε β α}

theorem readSeparated_explains {k : Nat} (hne : ∀ m, G m → m ≠ []) (hsep : ∀ m, G (sep :: m) → G m)
    (hdead : ∀ m, Dead m → m.head? ≠ some sep)
    (hitem : ∀ m, m.length ≤ k → G m → Explains bad G Dead P m (item m)) :
    ∀ (n : Nat) (m : List β), m.length ≤ n →
      m.length ≤ k → G m → Explains bad (fun rest => G rest ∧
        rest.head? ≠ some sep) Dead (Separated sep P) m
        (readSeparated bad sep item n m) := by
  intro n
  induction n with
  | zero =>
    exact fun m hn _ hG => absurd (List.length_eq_zero_iff.mp (Nat.le_zero.mp hn)) (hne m hG)
  | succ n ih =>
    intro m hn hk hG
    obtain ⟨hbad, hok⟩ := hitem m hk hG
    rw [readSeparated]
    dsimp only
    cases hres : item m with
    | error e => exact explains_error fun heq => hbad (by rw [hres, heq])
    | ok p =>
      obtain ⟨a, rest⟩ := p
      obtain ⟨hG1, hlen, htext⟩ := hok a rest hres
      dsimp only
      by_cases hhead : rest.head? = some sep
      · rw [if_pos hhead]
        obtain ⟨rest', rfl⟩ := List.head?_eq_some_iff.mp hhead
        rw [List.length_cons] at hlen
        -- the separator shows that the item was no dead end
        obtain ⟨t, rfl, ht⟩ := htext.resolve_left fun hd => hdead _ hd hhead
        obtain ⟨hbad2, hok2⟩ := ih rest' (by omega) (by omega) (hsep _ hG1)
        rw [List.tail_cons]
        cases hrest : readSeparated bad sep item n rest' with
        | error e => exact explains_error fun heq => hbad2 (by rw [hrest, heq])
        | ok q =>
          obtain ⟨as, rest2⟩ := q
          obtain ⟨hG2, hlen2, htext2⟩ := hok2 as rest2 hrest
          refine explains_ok hG2 (by rw [List.length_append, List.length_cons]; omega)
            (htext2.imp id ?_)
          rintro ⟨ts, rfl, hts⟩
          exact ⟨t ++ sep :: ts, by rw [List.append_assoc, List.cons_append], .cons ht hts⟩
      · rw [if_neg hhead]
        refine explains_ok ⟨hG1, hhead⟩ hlen (htext.imp id ?_)
        rintro ⟨t, rfl, ht⟩
        exact ⟨t, rfl, .one ht⟩

end Explains

end LibShare
