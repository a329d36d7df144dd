import LibShare.Mem.JsonPrint

/-!
# libshare — what the JSON parser accepts

The second half of what connects the parser of `shmem_json.c` with the grammar.

* `WellEscaped` — a text of which each backslash is followed by a character, and by four hexadecimal
  digits where it begins a code. The parser looks for neither.
* `parseWithOpts_iff` — of such a text nothing is read or written outside of memory, and what is
  accepted is a text of the node that is returned; or the beginning of a string that nothing ends.
* `parseString_outside` — what becomes of two texts that are not well escaped.
-/

namespace LibShare.Json

/-! ## Texts with well-formed escapes -/

/-- A text and its terminator. -/
inductive WellEscaped : Bytes → Prop
  | terminator : WellEscaped [0]
  | char {c : UInt8} {m : Bytes} (hesc : c ≠ 92) (hzero : c ≠ 0) (h : WellEscaped m) :
      WellEscaped (c :: m)
  | escape {e : UInt8} {m : Bytes} (hcode : e ≠ 117) (hzero : e ≠ 0) (h : WellEscaped m) :
      WellEscaped (92 :: e :: m)
  | code {hs m : Bytes} (hhex : Hex4 hs) (h : WellEscaped m) : WellEscaped (92 :: 117 :: (hs ++ m))

/-- A well-escaped text has at least its zero. -/
theorem WellEscaped.ne_nil {m : Bytes} (h : WellEscaped m) : m ≠ [] := by
  cases h <;> exact List.cons_ne_nil _ _

/-- An ordinary character in front may be left out. -/
theorem WellEscaped.tail {c : UInt8} {m : Bytes} (h : WellEscaped (c :: m)) (hesc : c ≠ 92)
    (hzero : c ≠ 0) :
    WellEscaped m := by
  cases h with
  | terminator => exact absurd rfl hzero
  | char _ _ h => exact h
  | escape | code => exact absurd rfl hesc

/-- Ordinary characters in front may be left out. -/
theorem WellEscaped.drop {m : Bytes} :
    ∀ {ds : Bytes}, WellEscaped (ds ++ m) → (∀ c ∈ ds, c ≠ 92 ∧ c ≠ 0) → WellEscaped m := by
  intro ds
  induction ds with
  | nil => exact fun h _ => h
  | cons c ds ih =>
    intro h hall
    have hc := hall c List.mem_cons_self
    exact ih (h.tail hc.1 hc.2) fun d hd => hall d (List.mem_cons_of_mem _ hd)

/-- The zero is the last byte. -/
theorem WellEscaped.zero {m : Bytes} (h : WellEscaped (0 :: m)) : m = [] := by
  cases h with
  | terminator => rfl
  | char _ hzero _ => exact absurd rfl hzero

/-- Only blanks are skipped. -/
theorem WellEscaped.skip {m : Bytes} (h : WellEscaped m) :
    ∃ w m', m = w ++ m' ∧ Blank w ∧ LibShare.Json.skip m = .ok m' ∧ WellEscaped m' := by
  have hstep : ∀ {c : UInt8} {m : Bytes}, ¬ (c ≠ 0 ∧ c ≤ 32) → WellEscaped (c :: m) →
      ∃ w m', c :: m = w ++ m' ∧ Blank w ∧ LibShare.Json.skip (c :: m) = .ok m' ∧
        WellEscaped m' := by
    intro c m hc h
    refine ⟨[], c :: m, rfl, blank_nil, skip_eq (w := []) blank_nil ?_ m, h⟩
    by_cases hzero : c = 0
    · exact .inl hzero
    · exact .inr (UInt8.not_le.mp fun hle => hc ⟨hzero, hle⟩)
  induction h with
  | terminator => exact hstep (by decide) .terminator
  | escape hcode hzero h => exact hstep (by decide) (.escape hcode hzero h)
  | code hhex h => exact hstep (by decide) (.code hhex h)
  | @char c m hesc hzero h ih =>
    by_cases hc : c ≠ 0 ∧ c ≤ 32
    · obtain ⟨w, m', rfl, hw, hskip, hm'⟩ := ih
      refine ⟨c :: w, m', rfl, List.forall_mem_cons.mpr ⟨hc, hw⟩, ?_, hm'⟩
      rw [LibShare.Json.skip, List.dropWhile_cons_of_pos (by simpa using hc)]
      exact hskip
    · exact hstep hc (.char hesc hzero h)

/-! ## Strings -/

/-- A string goes on to its mark, or to the end of the text. -/
def InString (m : Bytes) : Prop :=
  ∃ b s q rest, m = b ++ q :: rest ∧ (q = 34 ∨ q = 0) ∧ StringBody b s ∧ WellEscaped (q :: rest)

/-- A well-escaped text is well escaped within a string too. -/
theorem WellEscaped.inString {m : Bytes} (h : WellEscaped m) : InString m := by
  -- a second half is taken with the first, so that the induction is about two codes
  suffices hboth : InString m ∧ ∀ hs m', Hex4 hs → m = 92 :: 117 :: (hs ++ m') →
      InString m' from hboth.1
  induction h with
  | terminator =>
    exact ⟨⟨[], [], 0, [], rfl, .inr rfl, .nil, .terminator⟩, fun _ _ _ heq => by cases heq⟩
  | @char c m hesc hzero h ih =>
    refine ⟨?_, fun _ _ _ heq => absurd (List.cons.inj heq).1 hesc⟩
    by_cases hmark : c = 34
    · exact ⟨[], [], c, m, rfl, .inl hmark, .nil, .char hesc hzero h⟩
    · obtain ⟨⟨b, s, q, rest, rfl, hq, hbody, hrest⟩, -⟩ := ih
      exact ⟨c :: b, c :: s, q, rest, rfl, hq, .char hmark hesc hzero hbody, hrest⟩
  | @escape e m hcode hzero h ih =>
    refine ⟨?_, fun _ _ _ heq => absurd (List.cons.inj (List.cons.inj heq).2).1 hcode⟩
    obtain ⟨⟨b, s, q, rest, rfl, hq, hbody, hrest⟩, -⟩ := ih
    exact ⟨92 :: e :: b, unescape e :: s, q, rest, rfl, hq, .escape hcode hzero hbody, hrest⟩
  | @code hs m hhex h ih =>
    obtain ⟨hin, hnext⟩ := ih
    refine ⟨?_, ?_⟩
    · by_cases hhigh : isHigh (LibShare.Json.code hs) = true
      · by_cases hpair : ∃ hs2 m', Hex4 hs2 ∧ m = 92 :: 117 :: (hs2 ++ m')
        · obtain ⟨hs2, m', hhex2, rfl⟩ := hpair
          obtain ⟨b, s, q, rest, rfl, hq, hbody, hrest⟩ := hnext hs2 m' hhex2 rfl
          exact ⟨92 :: 117 :: (hs ++ 92 :: 117 :: (hs2 ++ b)), _, q, rest,
            by simp, hq, .pair hhex hhigh hhex2 hbody, hrest⟩
        · obtain ⟨b, s, q, rest, rfl, hq, hbody, hrest⟩ := hin
          refine ⟨92 :: 117 :: (hs ++ b), s, q, rest,
            by simp, hq, .alone hhex hhigh ?_ hbody, hrest⟩
          -- a code behind it would be a second half
          rintro ⟨m', rfl⟩
          generalize hm : [92, 117] ++ m' ++ q :: rest = m at h hpair
          cases h with
          | terminator => cases hm
          | char hesc => exact hesc (List.cons.inj hm).1.symm
          | escape hcode => exact hcode (List.cons.inj (List.cons.inj hm).2).1.symm
          | @code hs2 m2 hhex2 h2 => exact hpair ⟨hs2, m2, hhex2, rfl⟩
      · obtain ⟨b, s, q, rest, rfl, hq, hbody, hrest⟩ := hin
        exact ⟨92 :: 117 :: (hs ++ b), _, q, rest,
          by simp, hq, .code hhex (by simpa using hhigh) hbody, hrest⟩
    · intro hs2 m' hhex2 heq
      obtain ⟨-, rfl⟩ :=
        List.append_inj (List.cons.inj (List.cons.inj heq).2).2 (hhex.1.trans hhex2.1.symm)
      exact hin

/-- A backslash at the end of the text: the terminator is taken for what it escapes. -/
theorem parseString_backslash {b s : Bytes} (h : StringBody b s) :
    parseString (34 :: (b ++ [92, 0])) = .error .fault := by
  obtain ⟨k, -, -, hcount⟩ := countString_body h
  have hend : countString [92, 0] = .error .fault := rfl
  rw [parseString, if_neg (by decide), hcount, hend]
  rfl

/-- A code without digits: what is copied goes on behind the mark that the loop before it has
stopped at, and is longer than the allocation. -/
theorem parseString_short {x y : UInt8} (hx : x ≠ 34 ∧ x ≠ 92 ∧ x ≠ 0)
    (hy : y ≠ 34 ∧ y ≠ 92 ∧ y ≠ 0) (a b c : UInt8)
    (rest : Bytes) : parseString ([34, 92, 117, 34, a, b, c, x, y] ++ rest) = .error .fault := by
  have hcount : countString ([92, 117, 34, a, b, c, x, y] ++ rest) = .ok 1 := by
    rw [List.cons_append, List.cons_append, countString_escape, List.cons_append,
      countString.eq_def]
    rfl
  have hcode : parseUnicode (34 :: a :: b :: c :: x :: y :: rest) = .ok ([], x :: y :: rest) := rfl
  rw [List.cons_append, parseString, if_neg (by decide)]
  simp only [bind, Except.bind, hcount]
  simp [stringLoop, hcode, bind, Except.bind, putBytes, hx, hy]

/-- Two kinds of strings of which the parser reads or writes what is outside of memory. -/
theorem parseString_outside :
    (∀ b s : Bytes, StringBody b s → parseString (34 :: (b ++ [92, 0])) = .error .fault) ∧
      ∀ (x y a b c : UInt8) (rest : Bytes), x ≠ 34 ∧ x ≠ 92 ∧ x ≠ 0 → y ≠ 34 ∧ y ≠ 92 ∧ y ≠ 0 →
        parseString ([34, 92, 117, 34, a, b, c, x, y] ++ rest) = .error .fault :=
  ⟨fun _ _ h => parseString_backslash h, fun _ _ a b c rest hx hy =>
    parseString_short hx hy a b c rest⟩

/-- A backslash at the end of the text, and a code without digits: the allocation has room for one
character, and two are written. -/
theorem parseString_outside_two :
    parseString (34 :: ([97] ++ [92, 0])) = .error .fault ∧
      parseString ([34, 92, 117, 34, 44, 34, 98, 49, 58] ++ [49, 125, 0]) = .error .fault :=
  ⟨parseString_outside.1 [97] [97] (.char (by decide) (by decide) (by decide) .nil),
    parseString_outside.2 49 58 44 34 98 [49, 125, 0] (by decide) (by decide)⟩

/-- What a parser takes of a well-escaped text is a text of what it returns, or goes to the
terminator. -/
abbrev Accepts {α : Type} (P : α → Bytes → Prop) (m : Bytes)
    (res : Except JsonStop (α × Bytes)) : Prop :=
  Explains JsonStop.fault WellEscaped (· = [0]) P m res

/-- The text of a string. -/
def StringText (str : JsonString) (t : Bytes) : Prop :=
  ∃ b s, StringBody b s ∧ str = cString s ∧ t = 34 :: (b ++ [34])

/-- A string that goes on to the end of the text. -/
def OpenString (str : JsonString) (t : Bytes) : Prop :=
  ∃ b s, StringBody b s ∧ str = cString s ∧ t = 34 :: b

/-- A mark begins a string, which ends at its other mark or with the text. -/
theorem parseString_ok {m : Bytes} (h : WellEscaped (34 :: m)) (hint : m.length ≤ maxInt) :
    ∃ str rest, parseString (34 :: m) = .ok (str, rest) ∧ WellEscaped rest ∧
      rest.length ≤ m.length ∧
    ((∃ t, 34 :: m = t ++ rest ∧ StringText str t) ∨
      (rest = [0] ∧ ∃ t, 34 :: m = t ++ [0] ∧ OpenString str t)) := by
  obtain ⟨b, s, q, rest, rfl, hq, hbody, hrest⟩ := (h.tail (by decide) (by decide)).inString
  rw [List.length_append, List.length_cons] at hint
  have hparse := parseString_eq hq rest hbody (by omega)
  rcases hq with rfl | rfl
  · rw [if_pos rfl] at hparse
    refine ⟨cString s, rest, hparse, hrest.tail (by decide) (by decide), ?_,
      .inl ⟨34 :: (b ++ [34]), by simp, b, s, hbody, rfl, rfl⟩⟩
    rw [List.length_append, List.length_cons]
    omega
  · obtain rfl := hrest.zero
    refine ⟨cString s, [0], hparse, hrest, ?_, .inr ⟨rfl, 34 :: b, rfl, b, s, hbody, rfl, rfl⟩⟩
    rw [List.length_append]
    exact Nat.le_add_left _ _

/-- What is accepted for a string is the text of one. -/
theorem parseString_accepts {m : Bytes} (h : WellEscaped m) (hint : m.length ≤ maxInt) :
    Accepts StringText m (parseString m) := by
  cases m with
  | nil => exact absurd rfl h.ne_nil
  | cons c m =>
    by_cases hc : c = 34
    · subst hc
      obtain ⟨str, rest, hparse, hrest, hlen, htext⟩ := parseString_ok h (Nat.le_of_succ_le hint)
      rw [hparse]
      exact explains_ok hrest (Nat.lt_succ_of_le hlen) (htext.symm.imp_left And.left)
    · rw [parseString, if_pos hc]
      exact explains_error (by simp)

/-! ## Numbers -/

/-- What is taken and what is left make up the text. -/
theorem takeOne_ok (c : UInt8) (m : Bytes) :
    m = (if (takeOne c m).1 then [c] else []) ++ (takeOne c m).2 := by
  rw [takeOne]
  split
  · next h =>
    obtain ⟨m', rfl⟩ := List.head?_eq_some_iff.mp h
    rfl
  · rfl

/-- Only digits are taken. -/
theorem takeWhile_digits (m : Bytes) : ∀ c ∈ m.takeWhile isDigit, isDigit c = true :=
  fun _ hc => List.mem_takeWhile_imp hc

/-- What is taken for an exponent is one. -/
theorem parseExponent_ok (m : Bytes) :
    m = ((parseExponent m).1.elim [] fun e => e.1 :: (e.2.1.toList ++ e.2.2)) ++
      (parseExponent m).2 ∧ ∀ mark sign digits, (parseExponent m).1 = some (mark, sign, digits) →
        (mark = 101 ∨ mark = 69) ∧ (∀ d, sign = some d → d = 43 ∨ d = 45) ∧
        ∀ c ∈ digits, isDigit c = true := by
  cases m with
  | nil => exact ⟨rfl, fun _ _ _ heq => by cases heq⟩
  | cons c m =>
    rw [parseExponent]
    split
    · next hmark =>
      dsimp only
      refine ⟨?_, ?_⟩
      · rw [Option.elim_some, List.cons_append, List.append_assoc, List.takeWhile_append_dropWhile]
        cases m with
        | nil => rfl
        | cons d m =>
          by_cases hd : d = 43 ∨ d = 45
          · rw [List.head?_cons, Option.filter_some_pos (by simpa using hd)]
            rfl
          · rw [List.head?_cons, Option.filter_some_neg (by simpa using hd)]
            rfl
      · rintro _ _ _ ⟨⟩
        refine ⟨hmark, fun d hd => ?_, takeWhile_digits _⟩
        simpa using (Option.mem_filter_iff.mp hd).2
    · exact ⟨rfl, fun _ _ _ heq => by cases heq⟩

/-- The digits of the whole number, of which the first is no zero. -/
theorem whole_ok (m : Bytes) : ∃ whole rest, (if m.head?.any fun c => 49 ≤ c ∧ c ≤ 57 then
      (m.takeWhile isDigit, m.dropWhile isDigit) else ([], m)) = (whole, rest) ∧ m = whole ++ rest ∧
    (∀ c ∈ whole, isDigit c = true) ∧ (∀ c, whole.head? = some c → 49 ≤ c ∧ c ≤ 57) ∧
    ∀ c, m.head? = some c → 49 ≤ c ∧ c ≤ 57 → whole ≠ [] := by
  have hdigit : ∀ {c : UInt8}, 49 ≤ c ∧ c ≤ 57 → isDigit c = true :=
    fun hc => decide_eq_true ⟨UInt8.le_trans (by decide) hc.1, hc.2⟩
  cases m with
  | nil => exact ⟨[], [], rfl, rfl, by simp, by simp, by simp⟩
  | cons c m =>
    by_cases hc : 49 ≤ c ∧ c ≤ 57
    · refine ⟨_, _, if_pos (by simpa using hc), List.takeWhile_append_dropWhile.symm,
        takeWhile_digits _, ?_, ?_⟩
      · rw [List.takeWhile_cons_of_pos (hdigit hc), List.head?_cons]
        rintro _ ⟨⟩
        exact hc
      · rw [List.takeWhile_cons_of_pos (hdigit hc)]
        exact fun _ _ _ => List.cons_ne_nil _ _
    · refine ⟨[], c :: m, if_neg (by simpa using hc), rfl, by simp, by simp, ?_⟩
      rintro _ ⟨⟩ hc'
      exact absurd hc' hc

/-- What is taken for a fraction is one, or there is none. -/
theorem frac_ok (m : Bytes) : ∃ frac rest, (if m.head? = some 46 ∧ m.tail.head?.any isDigit then
      (m.tail.takeWhile isDigit, m.tail.dropWhile isDigit) else ([], m)) = (frac, rest) ∧
    m = (if frac = [] then [] else 46 :: frac) ++ rest ∧ ∀ c ∈ frac, isDigit c = true := by
  by_cases h : m.head? = some 46 ∧ m.tail.head?.any isDigit
  · obtain ⟨m, rfl⟩ := List.head?_eq_some_iff.mp h.1
    refine ⟨_, _, if_pos h, ?_, takeWhile_digits _⟩
    -- there is a digit behind the point
    obtain ⟨d, hd, hdigit⟩ := Option.any_eq_true _ _ |>.mp h.2
    obtain ⟨m, rfl⟩ := List.head?_eq_some_iff.mp hd
    rw [List.tail_cons, if_neg, List.cons_append, List.takeWhile_append_dropWhile]
    rw [List.takeWhile_cons_of_pos hdigit]
    exact List.cons_ne_nil _ _
  · exact ⟨[], m, if_neg h, rfl, fun _ hc => by cases hc⟩

/-- What is read of a number is its text. -/
theorem numeral_ok {c : UInt8} {m : Bytes} (hc : c = 45 ∨ isDigit c = true) :
    ∃ n rest, numeral (c :: m) = (n, rest) ∧ n.Ok ∧ c :: m = n.text ++ rest := by
  -- the parts of a number are read one behind the other
  have hneg := takeOne_ok 45 (c :: m)
  generalize hn : takeOne 45 (c :: m) = p at hneg
  obtain ⟨neg, m₁⟩ := p
  have hzero := takeOne_ok 48 m₁
  generalize hz : takeOne 48 m₁ = p at hzero
  obtain ⟨zero, m₂⟩ := p
  obtain ⟨whole, m₃, hw, hm₂, hwhole, hfirst, hne⟩ := whole_ok m₂
  obtain ⟨frac, m₄, hf, hm₃, hfrac⟩ := frac_ok m₃
  obtain ⟨hm₄, hexp⟩ := parseExponent_ok m₄
  generalize he : parseExponent m₄ = p at hm₄ hexp
  obtain ⟨exp, m₅⟩ := p
  refine ⟨{ neg, zero, whole, frac, exp }, m₅, ?_, ⟨?_, hwhole, hfirst, hfrac, hexp⟩, ?_⟩
  · rw [numeral]
    dsimp only
    rw [hn]
    dsimp only
    rw [hz]
    dsimp only
    rw [hw]
    dsimp only
    rw [hf]
    dsimp only
    rw [he]
  · -- without a sign and a zero, the first character is a digit of the whole number
    cases neg with
    | true => exact .inl rfl
    | false =>
      cases zero with
      | true => exact .inr (.inl rfl)
      | false =>
        obtain rfl : c :: m = m₁ := hneg
        obtain rfl : c :: m = m₂ := hzero
        refine .inr (.inr (hne c rfl ?_))
        have hsign : c ≠ 45 := by
          rintro rfl
          cases hn
        have hnot : c ≠ 48 := by
          rintro rfl
          cases hz
        have hdigit := of_decide_eq_true (hc.resolve_left hsign)
        refine ⟨?_, hdigit.2⟩
        rw [UInt8.le_iff_toNat_le] at hdigit ⊢
        have hval : c.toNat ≠ 48 := fun h => hnot (UInt8.toNat_inj.mp h)
        have hle := hdigit.1
        simp at hle ⊢
        omega
  · dsimp only at hneg hzero hm₄
    rw [Numeral.text, hneg, hzero, hm₂, hm₃, hm₄]
    simp only [List.append_assoc]

/-- What begins like a number is read as one. -/
theorem parseNumber_ok {c : UInt8} {m : Bytes} (hc : c = 45 ∨ isDigit c = true)
    (h : WellEscaped (c :: m)) :
    ∃ n rest, parseNumber (c :: m) = .ok (n, rest) ∧ n.Ok ∧ c :: m = n.text ++ rest ∧
      WellEscaped rest := by
  obtain ⟨n, rest, heq, hn, htext⟩ := numeral_ok (m := m) hc
  have hrest : WellEscaped rest := by
    rw [htext] at h
    refine h.drop fun d hd =>
      ⟨?_, ?_⟩ <;> rintro rfl <;> exact absurd (hn.inNumber _ hd) (by decide)
  refine ⟨n, rest, ?_, hn, htext, hrest⟩
  rw [parseNumber, heq]
  exact if_neg hrest.ne_nil

/-! ## Values -/

section Accept

variable {ν : Type} {value : JsonParser (JsonNode ν)} {P : JsonNode ν → Bytes → Prop} {m : Bytes}

theorem skip_terminator : skip [0] = .ok [0] := rfl

/-- A value, with the blanks around it. -/
theorem parseElement_accepts {k : Nat}
    (hvalue : ∀ m, m.length ≤ k → WellEscaped m → Accepts P m (value m))
    (hk : m.length ≤ k) (h : WellEscaped m) :
    Accepts (Padded Blank P) m (parseElement value m) := by
  obtain ⟨w, m₁, rfl, hw, hskip, h₁⟩ := h.skip
  rw [List.length_append] at hk
  obtain ⟨hbad, hok⟩ := hvalue m₁ (by omega) h₁
  rw [parseElement]
  simp only [hskip, bind, Except.bind]
  cases hres : value m₁ with
  | error e => exact explains_error fun heq => hbad (by rw [hres, heq])
  | ok p =>
    obtain ⟨x, rest⟩ := p
    obtain ⟨hrest, hlen, htext⟩ := hok x rest hres
    obtain ⟨w', rest, rfl, hw', hskip', hrest'⟩ := hrest.skip
    simp only [hskip', pure, Except.pure]
    rw [List.length_append] at hlen
    refine explains_ok hrest' (by rw [List.length_append]; omega) ?_
    rcases htext with hdead | ⟨t, rfl, ht⟩
    · -- nothing is skipped at the end of the text
      rw [hdead, skip_terminator, Except.ok.injEq] at hskip'
      exact .inl hskip'.symm
    · exact .inr ⟨w ++ (t ++ w'), by simp only [List.append_assoc], .mk hw ht hw'⟩

/-- What is accepted for a member is the text of one. -/
theorem parseMember_accepts {k : Nat}
    (hvalue : ∀ m, m.length ≤ k → WellEscaped m → Accepts P m (value m))
    (hk : m.length ≤ k) (hint : k ≤ maxInt) (h : WellEscaped m) :
    Accepts (Member Blank P) m (parseMember value m) := by
  obtain ⟨w, m₁, rfl, hw, hskip, h₁⟩ := h.skip
  rw [List.length_append] at hk
  obtain ⟨hbad, hok⟩ := parseString_accepts h₁ (by omega)
  rw [parseMember]
  simp only [hskip, bind, Except.bind]
  cases hres : parseString m₁ with
  | error e => exact explains_error fun heq => hbad (by rw [hres, heq])
  | ok p =>
    obtain ⟨name, m₂⟩ := p
    obtain ⟨h₂, hlen, htext⟩ := hok name m₂ hres
    obtain ⟨w', m₃, rfl, hw', hskip', h₃⟩ := h₂.skip
    simp only [hskip']
    rw [List.length_append] at hlen
    by_cases hcolon : m₃.head? = some 58
    · obtain ⟨m₄, rfl⟩ := List.head?_eq_some_iff.mp hcolon
      -- a name that nothing ends has no colon behind it
      rcases htext with hdead | ⟨t, rfl, b, s, hbody, rfl, rfl⟩
      · rw [hdead, skip_terminator, Except.ok.injEq] at hskip'
        cases hskip'
      rw [List.length_cons] at hlen
      obtain ⟨hbad', hok'⟩ :=
        parseElement_accepts hvalue (m := m₄) (by omega) (h₃.tail (by decide) (by decide))
      rw [if_neg (not_not.mpr hcolon), List.tail_cons]
      cases hval : parseElement value m₄ with
      | error e => exact explains_error fun heq => hbad' (by rw [hval, heq])
      | ok p =>
        obtain ⟨x, rest⟩ := p
        obtain ⟨hrest, hlen', htext'⟩ := hok' x rest hval
        refine explains_ok hrest ?_ (htext'.imp_right ?_)
        · simp only [List.length_append, List.length_cons]
          omega
        · rintro ⟨t, rfl, ht⟩
          exact ⟨w ++ (34 :: (b ++ 34 :: (w' ++ 58 :: t))), by simp, .mk hw hbody hw' ht⟩
    · rw [if_pos hcolon]
      exact explains_error (by simp)

/-- Items between brackets, with the closing one. -/
def Bracketed {α : Type} (close : UInt8) (Q : α → Bytes → Prop) (xs : List α) (t : Bytes) : Prop :=
  ∃ t', t = t' ++ [close] ∧ (Separated 44 Q xs t' ∨ (xs = [] ∧ Blank t'))

/-- What is accepted between brackets is a list of items, by induction on the passes. -/
theorem parseBrackets_accepts {α : Type} {item : JsonParser α} {Q : α → Bytes → Prop}
    {close : UInt8} {k n : Nat}
    (hclose : close = 93 ∨ close = 125) (hskip : ∀ m m', skip m = .ok m' → item m' = item m)
    (hitem : ∀ m, m.length ≤ k → WellEscaped m → Accepts Q m (item m)) (hn : m.length ≤ n)
    (hk : m.length ≤ k)
    (h : WellEscaped m) :
    Explains JsonStop.fault WellEscaped (fun _ => False)
      (Bracketed close Q) m (parseBrackets close item n m) := by
  have htail : ∀ {m : Bytes}, WellEscaped (close :: m) → WellEscaped m := by
    rcases hclose with rfl | rfl <;> exact fun h => h.tail (by decide) (by decide)
  have hzero : close ≠ 0 := by
    rcases hclose with rfl | rfl <;> decide
  obtain ⟨w, m₁, rfl, hw, hm₁, h₁⟩ := h.skip
  rw [parseBrackets]
  simp only [hm₁, bind, Except.bind, pure, Except.pure]
  by_cases hfirst : m₁.head? = some close
  · obtain ⟨m₂, rfl⟩ := List.head?_eq_some_iff.mp hfirst
    rw [if_pos hfirst, List.tail_cons]
    refine explains_ok (htail h₁) (by rw [List.length_append, List.length_cons]; omega)
      (.inr ⟨w ++ [close], by simp, ?_⟩)
    exact ⟨w, rfl, .inr ⟨rfl, hw⟩⟩
  rw [if_neg hfirst, readSeparated_congr (hskip _ _ hm₁)]
  have hcomma : ∀ m, WellEscaped (44 :: m) → WellEscaped m :=
    fun m h => h.tail (by decide) (by decide)
  have hdead : ∀ m : Bytes, m = [0] → m.head? ≠ some 44 := by
    rintro _ rfl
    decide
  obtain ⟨hbad, hok⟩ := readSeparated_explains (fun m (h : WellEscaped m) =>
    h.ne_nil) hcomma hdead hitem n (w ++ m₁) hn hk h
  cases hres : readSeparated JsonStop.fault 44 item n (w ++ m₁) with
  | error e => exact explains_error fun heq => hbad (by rw [hres, heq])
  | ok p =>
    obtain ⟨xs, rest⟩ := p
    obtain ⟨⟨hrest, -⟩, hlen, htext⟩ := hok xs rest hres
    dsimp only
    by_cases hend : rest.head? = some close
    · obtain ⟨rest, rfl⟩ := List.head?_eq_some_iff.mp hend
      rw [if_pos hend, List.tail_cons]
      rw [List.length_cons] at hlen
      refine explains_ok (htail hrest) (by omega) (.inr ?_)
      rcases htext with hdead | ⟨t, hm, ht⟩
      · exact absurd (List.cons.inj hdead).1 hzero
      · exact ⟨t ++ [close], by rw [hm]; simp, t, rfl, .inl ht⟩
    · rw [if_neg hend]
      exact explains_error (by simp)

end Accept

/-- What is taken of a text as a value. Only a string may go on to the end of the text. -/
def Taken (N : Numbers) (m : Bytes) (x : JsonNode N.Value) (rest : Bytes) : Prop :=
  WellEscaped rest ∧ rest.length < m.length ∧
    ((∃ t, m = t ++ rest ∧ HasText N Blank x t) ∨
      (rest = [0] ∧ ∃ str t, m = t ++ [0] ∧ OpenString str t ∧ x = .string str))

/-- One of the three names is taken for its value. -/
theorem taken_name {N : Numbers} {name m rest : Bytes} {x : JsonNode N.Value}
    (hall : ∀ c ∈ name, c ≠ 92 ∧ c ≠ 0)
    (hne : name ≠ []) (htext : HasText N Blank x name) (hm : name ++ rest = m) (h : WellEscaped m) :
    Taken N m x rest := by
  subst hm
  refine ⟨h.drop hall, ?_, .inl ⟨name, rfl, htext⟩⟩
  have hpos := List.length_pos_iff.mpr hne
  rw [List.length_append]
  omega

/-- A value that is read after a bracket, from what its brackets take. -/
theorem taken_brackets {N : Numbers} {α : Type} (node : List α → JsonNode N.Value)
    {c close : UInt8} {m : Bytes}
    {Q : α → Bytes → Prop} {res : Except JsonStop (List α × Bytes)}
    (hres : Explains JsonStop.fault WellEscaped (fun _ => False) (Bracketed close Q) m res)
    (htext : ∀ xs t, Bracketed close Q xs t → HasText N Blank (node xs) (c :: t)) :
    (res.bind fun p => .ok (node p.1, p.2)) ≠ .error .fault ∧
      ∀ x rest, (res.bind fun p => .ok (node p.1, p.2)) = .ok (x, rest) →
        Taken N (c :: m) x rest := by
  obtain ⟨hbad, hok⟩ := hres
  cases res with
  | error e => exact ⟨fun heq => hbad (by cases heq; rfl), fun _ _ heq => by cases heq⟩
  | ok p =>
    obtain ⟨xs, rest⟩ := p
    obtain ⟨hrest, hlen, hm⟩ := hok xs rest rfl
    refine ⟨by rintro ⟨⟩, ?_⟩
    rintro _ _ ⟨⟩
    refine ⟨hrest, Nat.lt_succ_of_lt hlen, .inl ?_⟩
    obtain ⟨t, rfl, ht⟩ := hm.resolve_left id
    exact ⟨c :: t, rfl, htext xs t ht⟩

/-- What is accepted for a value is the text of one, or a string that is not closed. -/
theorem parseValue_accepts (N : Numbers) :
    ∀ (n : Nat) (m : Bytes), m.length ≤ n → n ≤ maxInt → WellEscaped m →
    parseValue N n m ≠ .error .fault ∧ ∀ x rest, parseValue N n m = .ok (x, rest) →
      Taken N m x rest := by
  intro n
  induction n with
  | zero => exact fun m hn _ h => absurd (List.length_eq_zero_iff.mp (Nat.le_zero.mp hn)) h.ne_nil
  | succ n ih =>
    intro m hn hint h
    have hvalue : ∀ m, m.length ≤ n → WellEscaped m →
        Accepts (HasText N Blank) m (parseValue N n m) := by
      intro m hm h
      obtain ⟨hbad, hok⟩ := ih m hm (Nat.le_of_succ_le hint) h
      refine ⟨hbad, fun x rest hres => ?_⟩
      obtain ⟨hrest, hlen, htext⟩ := hok x rest hres
      exact ⟨hrest, hlen, htext.symm.imp_left And.left⟩
    cases m with
    | nil => exact absurd rfl h.ne_nil
    | cons c m =>
      rw [List.length_cons] at hn
      -- one of the three names, and what is behind it
      have hname : ∀ {name : Bytes} {k : Nat} {x : JsonNode N.Value}, (∀ c ∈ name, c ≠ 92 ∧ c ≠ 0) →
          name.length = k + 1 → HasText N Blank x name → name <+: c :: m →
          (Except.ok (x, m.drop k) : Except JsonStop (JsonNode N.Value × Bytes)) ≠ .error .fault ∧
            ∀ y rest, (Except.ok (x, m.drop k) : Except JsonStop (JsonNode N.Value × Bytes)) =
              .ok (y, rest) →
              Taken N (c :: m) y rest := by
        intro name k x hall hlen htext hpre
        obtain ⟨rest, hrest⟩ := hpre
        have hdrop : m.drop k = rest := by
          have hd := congrArg (List.drop (k + 1)) hrest
          rw [List.drop_left' hlen] at hd
          exact hd.symm
        rw [hdrop]
        refine ⟨by rintro ⟨⟩, ?_⟩
        rintro _ _ ⟨⟩
        exact taken_name hall (by rintro rfl; cases hlen) htext hrest h
      rw [parseValue]
      split
      · next hpre => exact hname (by simp [nullText]) rfl .null hpre
      split
      · next hpre => exact hname (by simp [falseText]) rfl .false hpre
      split
      · next hpre => exact hname (by simp [trueText]) rfl .true hpre
      split
      · next hmark =>
        subst hmark
        obtain ⟨str, rest, hparse, hrest, hlen, htext⟩ := parseString_ok h (by omega)
        simp only [hparse, bind, Except.bind, pure, Except.pure]
        refine ⟨by rintro ⟨⟩, ?_⟩
        rintro _ _ ⟨⟩
        refine ⟨hrest, Nat.lt_succ_of_le hlen, htext.imp ?_ ?_⟩
        · rintro ⟨t, ht, b, s, hbody, rfl, rfl⟩
          exact ⟨_, ht, .string hbody⟩
        · rintro ⟨hend, t, ht, hopen⟩
          exact ⟨hend, str, t, ht, hopen, rfl⟩
      split
      · next hc =>
        obtain ⟨nl, rest, hparse, hok, htext, hrest⟩ := parseNumber_ok hc h
        simp only [hparse, bind, Except.bind, pure, Except.pure]
        refine ⟨by rintro ⟨⟩, ?_⟩
        rintro _ _ ⟨⟩
        obtain ⟨d, t, ht, -⟩ := hok.first_char
        refine ⟨hrest, ?_, .inl ⟨nl.text, htext, .number hok⟩⟩
        rw [htext, ht, List.length_append, List.length_cons]
        omega
      split
      · next hc =>
        subst hc
        refine taken_brackets JsonNode.array (parseBrackets_accepts (.inl rfl) parseElement_skip
          (fun m hm h => parseElement_accepts hvalue hm h) (by omega) (by omega)
            (h.tail (by decide) (by decide))) ?_
        rintro xs _ ⟨t, rfl, ht | ⟨rfl, ht⟩⟩
        · exact .array ht
        · exact .noElements ht
      split
      · next hc =>
        subst hc
        refine taken_brackets JsonNode.object (parseBrackets_accepts (.inr rfl) parseMember_skip
          (fun m hm h => parseMember_accepts hvalue hm (Nat.le_of_succ_le hint) h) (by omega)
            (by omega) (h.tail (by decide) (by decide))) ?_
        rintro xs _ ⟨t, rfl, ht | ⟨rfl, ht⟩⟩
        · exact .object ht
        · exact .noMembers ht
      · exact ⟨by simp, fun _ _ heq => by cases heq⟩

/-! ## Documents -/

/-- What is a document: a text of its node with blanks around it, or a string that nothing ends. -/
inductive DocumentText (N : Numbers) : JsonNode N.Value → Bytes → Prop
  | closed {x : JsonNode N.Value} {t : Bytes} (h : Padded Blank (HasText N Blank) x t) :
      DocumentText N x t
  | unended {str : JsonString} {w t : Bytes} (hw : Blank w) (h : OpenString str t) :
      DocumentText N (.string str) (w ++ t)

/-- A string that is not closed is accepted at the end of the text. -/
theorem parseWithOpts_open (N : Numbers) {str : JsonString} {w t : Bytes} (hw : Blank w)
    (h : OpenString str t)
    (hint : t.length ≤ maxInt) :
    parseWithOpts N true (w ++ (t ++ [0])) = .ok (.string str, [0]) := by
  obtain ⟨b, s, hbody, rfl, rfl⟩ := h
  have hskip : skip (w ++ (34 :: b ++ [0])) = .ok (34 :: (b ++ [0])) := by
    rw [List.cons_append]
    exact skip_eq hw (.inr (by decide)) _
  have hparse := parseString_eq (.inr rfl) [] hbody hint
  rw [if_neg (by decide)] at hparse
  have hvalue : ∀ n, parseValue N (n + 1) (34 :: (b ++ [0])) = .ok (.string (cString s), [0]) := by
    intro n
    rw [parseValue]
    simp [nullText, falseText, trueText, hparse, bind, Except.bind, pure, Except.pure]
  rw [parseWithOpts]
  simp only [hskip, bind, Except.bind, List.length_cons, hvalue, if_true, skip_terminator,
    List.head?_cons, pure, Except.pure]

/-- What is parsed of a well-escaped text whose length is an `int`: never anything outside of it,
and what is accepted is what has a text there. -/
theorem parseWithOpts_iff (N : Numbers) {text : Bytes} (h : WellEscaped (text ++ [0]))
    (hint : text.length < maxInt) :
    (∀ requireNullTerminated, parseWithOpts N requireNullTerminated (text ++ [0]) ≠ .error .fault) ∧
      (∀ x rest, parseWithOpts N true (text ++ [0]) = .ok (x, rest) ↔ rest = [0] ∧
        DocumentText N x text) ∧
      ∀ x rest, parseWithOpts N false (text ++ [0]) = .ok (x, rest) →
        (∃ w t, text ++ [0] = w ++ (t ++ rest) ∧ Blank w ∧ HasText N Blank x t) ∨
        (rest = [0] ∧ DocumentText N x text) := by
  -- leading blanks are skipped; `m` is the text from the value on
  obtain ⟨w, m, hm, hw, hskip, h₁⟩ := h.skip
  have hlen := congrArg List.length hm
  rw [List.length_append, List.length_append, List.length_singleton] at hlen
  obtain ⟨hbad, hok⟩ := parseValue_accepts N m.length m (Nat.le_refl _) (by omega) h₁
  refine ⟨?_, ?_, ?_⟩
  · -- no fault in the value, nor in the blanks behind it
    intro requireNullTerminated
    rw [parseWithOpts]
    simp only [hskip, bind, Except.bind]
    cases hres : parseValue N m.length m with
    | error e => exact fun heq => hbad (by rw [hres, Except.error.inj heq])
    | ok p =>
      obtain ⟨x, rest⟩ := p
      obtain ⟨-, rest', -, -, hskip', -⟩ := (hok x rest hres).1.skip
      simp only [hskip', pure, Except.pure]
      split
      · split <;> simp
      · simp
  · -- with the end required, what is accepted is a document and every document is
    intro x rest
    refine ⟨fun hparse => ?_, ?_⟩
    · rw [parseWithOpts] at hparse
      simp only [hskip, bind, Except.bind] at hparse
      cases hres : parseValue N m.length m with
      | error e =>
        rw [hres] at hparse
        cases hparse
      | ok p =>
        obtain ⟨y, rest₁⟩ := p
        obtain ⟨hrest, -, htext⟩ := hok y rest₁ hres
        obtain ⟨w', rest₂, rfl, hw', hskip', hrest'⟩ := hrest.skip
        simp only [hres, hskip', if_true, pure, Except.pure] at hparse
        split at hparse
        · next hend =>
          cases hparse
          obtain ⟨rest₃, rfl⟩ := List.head?_eq_some_iff.mp hend
          obtain rfl := hrest'.zero
          refine ⟨rfl, ?_⟩
          rcases htext with ⟨t, rfl, ht⟩ | ⟨hdead, str, t, rfl, hopen, rfl⟩
          · have hcut : text ++ [0] = w ++ (t ++ w') ++ [0] := by simpa using hm
            obtain rfl := List.append_cancel_right hcut
            exact .closed (.mk hw ht hw')
          · -- a string that the text ends in is accepted without its closing quote
            have hcut : text ++ [0] = w ++ t ++ [0] := by simpa using hm
            obtain rfl := List.append_cancel_right hcut
            exact .unended hw hopen
        · cases hparse
    · rintro ⟨rfl, ht⟩
      cases ht with
      | closed ht =>
        obtain ⟨hw, ht, hw'⟩ := ht
        simp only [List.length_append] at hint
        simpa using (parseWithOpts_eq hw ht hw' (by omega) []).1
      | unended hw ht =>
        rw [List.length_append] at hint
        simpa using parseWithOpts_open N hw ht (by omega)
  · -- without it, the text goes on behind the value
    intro x rest hparse
    rw [parseWithOpts] at hparse
    simp only [hskip, bind, Except.bind] at hparse
    cases hres : parseValue N m.length m with
    | error e =>
      rw [hres] at hparse
      cases hparse
    | ok p =>
      obtain ⟨y, rest₁⟩ := p
      rw [hres] at hparse
      obtain ⟨rfl, rfl⟩ : y = x ∧ rest₁ = rest := Prod.mk.inj (Except.ok.inj hparse)
      obtain ⟨-, -, htext⟩ := hok y rest₁ hres
      rcases htext with ⟨t, rfl, ht⟩ | ⟨rfl, str, t, rfl, hopen, rfl⟩
      · exact .inl ⟨w, t, hm, hw, ht⟩
      · have hcut : text ++ [0] = w ++ t ++ [0] := by simpa using hm
        obtain rfl := List.append_cancel_right hcut
        exact .inr ⟨rfl, .unended hw hopen⟩

/-- `["\u0041\n"]` -/
def escapedText : Bytes := [91, 34, 92, 117, 48, 48, 52, 49, 92, 110, 34, 93]

theorem wellEscaped_escapedText : WellEscaped (escapedText ++ [0]) := by
  have hend : WellEscaped [34, 93, 0] :=
    .char (by decide) (by decide) (.char (by decide) (by decide) .terminator)
  have hcode :=
    @WellEscaped.code [48, 48, 52, 49] _ ⟨rfl, by simp [hexValue]⟩
      (.escape (e := 110) (by decide) (by decide) hend)
  exact .char (by decide) (by decide) (.char (by decide) (by decide) hcode)

/-- A text with a backslash in a string. -/
theorem parse_escapedText :
    (∀ requireNullTerminated, parseWithOpts wholeNumbers requireNullTerminated
      (escapedText ++ [0]) ≠ .error .fault) ∧ (∀ x rest,
      parseWithOpts wholeNumbers true (escapedText ++ [0]) = .ok (x, rest) ↔
        rest = [0] ∧ DocumentText wholeNumbers x escapedText) ∧
      ∀ x rest, parseWithOpts wholeNumbers false (escapedText ++ [0]) = .ok (x, rest) →
        (∃ w t, escapedText ++ [0] = w ++ (t ++ rest) ∧ Blank w ∧ HasText wholeNumbers Blank x t) ∨
          (rest = [0] ∧ DocumentText wholeNumbers x escapedText) :=
  parseWithOpts_iff wholeNumbers wellEscaped_escapedText (by decide)

end LibShare.Json
