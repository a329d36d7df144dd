import LibShare.Mem.JsonText

/-!
# libshare — the texts of a JSON node

What `shmem_json.c` takes for the text of a node, as a grammar, and the first half of what connects
the two: the parser reads each of these texts (`parseValue_eq`).

The grammar is that of the code. An escape of any character stands for the character; a code of a
surrogate that is not in a pair stands for nothing; a number may have a zero in front, or no digits
behind its sign.
-/

namespace LibShare.Json

/-! ## Strings -/

/-- Four hexadecimal digits. -/
def Hex4 (hs : Bytes) : Prop := hs.length = 4 ∧ ∀ c ∈ hs, (hexValue c).isSome

/-- Their number. -/
def code (hs : Bytes) : UInt32 := hs.foldl (fun h c => h <<< 4 + (hexValue c).getD 0) 0

/-- What is written for a code that is no high surrogate. -/
def codeBytes (uc : UInt32) : Bytes := if isLow uc ∨ uc = 0 then [] else utf8 uc

/-- What is written for a high surrogate and the code behind it. -/
def pairBytes (uc uc2 : UInt32) : Bytes := if isLow uc2 then utf8 (surrogates uc uc2) else []

/-- What is between the marks of a string, and the string. -/
inductive StringBody : Bytes → Bytes → Prop
  | nil : StringBody [] []
  | char {c : UInt8} {b s : Bytes} (hmark : c ≠ 34) (hesc : c ≠ 92) (hzero : c ≠ 0)
      (h : StringBody b s) :
      StringBody (c :: b) (c :: s)
  | escape {e : UInt8} {b s : Bytes} (hcode : e ≠ 117) (hzero : e ≠ 0) (h : StringBody b s) :
      StringBody (92 :: e :: b) (unescape e :: s)
  | code {hs b s : Bytes} (hhex : Hex4 hs) (hhigh : isHigh (code hs) = false) (h : StringBody b s) :
      StringBody (92 :: 117 :: (hs ++ b)) (codeBytes (code hs) ++ s)
  | alone {hs b s : Bytes} (hhex : Hex4 hs) (hhigh : isHigh (code hs) = true)
      (hnext : ¬ [92, 117] <+: b)
      (h : StringBody b s) : StringBody (92 :: 117 :: (hs ++ b)) s
  | pair {hs hs2 b s : Bytes} (hhex : Hex4 hs) (hhigh : isHigh (code hs) = true) (hhex2 : Hex4 hs2)
      (h : StringBody b s) :
      StringBody (92 :: 117 :: (hs ++ (92 :: 117 :: (hs2 ++ b))))
        (pairBytes (code hs) (code hs2) ++ s)

/-- The loop over hexadecimal digits computes their value. -/
theorem hexLoop_eq (m : Bytes) : ∀ (hs : Bytes) (h : UInt32), (∀ c ∈ hs, (hexValue c).isSome) →
    hexLoop hs.length h (hs ++ m) = .ok (hs.foldl (fun h c =>
      h <<< 4 + (hexValue c).getD 0) h) := by
  intro hs
  induction hs with
  | nil => exact fun _ _ => rfl
  | cons c hs ih =>
    intro h hall
    obtain ⟨d, hd⟩ := Option.isSome_iff_exists.mp (hall c List.mem_cons_self)
    rw [List.length_cons, List.cons_append, hexLoop, hd]
    dsimp only
    rw [ih _ fun b hb => hall b (List.mem_cons_of_mem _ hb), List.foldl_cons, hd, Option.getD_some]

/-- Four hexadecimal digits are read as their value. -/
theorem parseHex4_eq {hs : Bytes} (h : Hex4 hs) (m : Bytes) :
    parseHex4 (hs ++ m) = .ok (code hs) := by
  rw [parseHex4, ← h.1]
  exact hexLoop_eq m hs 0 h.2

theorem drop_hex4 {hs : Bytes} (h : Hex4 hs) (m : Bytes) : (hs ++ m).drop 4 = m :=
  List.drop_left' h.1

/-- The first half of a pair is not a second half, and not zero. -/
theorem isLow_of_isHigh {uc : UInt32} (h : isHigh uc = true) : isLow uc = false ∧ uc ≠ 0 := by
  simp only [isHigh, isLow, decide_eq_true_eq, decide_eq_false_iff_not,
    UInt32.le_iff_toNat_le] at h ⊢
  refine ⟨?_, ?_⟩
  · rintro ⟨hlow, -⟩
    have hle := h.2
    simp at hle hlow
    omega
  · rintro rfl
    simp at h

/-- A code that is no high surrogate. -/
theorem parseUnicode_code {hs : Bytes} (h : Hex4 hs) (hhigh : isHigh (code hs) = false)
    (m : Bytes) :
    parseUnicode (hs ++ m) = .ok (codeBytes (code hs), m) := by
  rw [parseUnicode, parseHex4_eq h, drop_hex4 h]
  simp only [bind, Except.bind, pure, Except.pure, codeBytes, hhigh]
  split <;> rfl

/-- A high surrogate that no code follows. -/
theorem parseUnicode_alone {hs m : Bytes} (h : Hex4 hs) (hhigh : isHigh (code hs) = true)
    (hm : m ≠ []) (hesc : m ≠ [92])
    (hnext : ¬ [92, 117] <+: m) : parseUnicode (hs ++ m) = .ok ([], m) := by
  obtain ⟨hlow, hzero⟩ := isLow_of_isHigh hhigh
  rw [parseUnicode, parseHex4_eq h, drop_hex4 h]
  simp only [bind, Except.bind, pure, Except.pure, hhigh, hlow, hzero]
  cases m with
  | nil => exact absurd rfl hm
  | cons c m =>
    by_cases hc : c = 92
    · subst hc
      cases m with
      | nil => exact absurd rfl hesc
      | cons d m =>
        have hd : d ≠ 117 := by
          rintro rfl
          exact hnext ⟨m, rfl⟩
        simp [hd]
    · simp [hc]

/-- Two escapes that make up a pair are read as one character. -/
theorem parseUnicode_pair {hs hs2 : Bytes} (h : Hex4 hs) (hhigh : isHigh (code hs) = true)
    (h2 : Hex4 hs2) (m : Bytes) :
    parseUnicode (hs ++ 92 :: 117 :: (hs2 ++ m)) = .ok (pairBytes (code hs) (code hs2), m) := by
  obtain ⟨hlow, hzero⟩ := isLow_of_isHigh hhigh
  rw [parseUnicode, parseHex4_eq h, drop_hex4 h]
  simp only [bind, Except.bind, pure, Except.pure, hhigh, hlow, hzero, parseHex4_eq h2,
    drop_hex4 h2, pairBytes]
  simp

/-- What follows a string is never taken for the second half of a pair. -/
theorem StringBody.next {b s : Bytes} (h : StringBody b s) {q : UInt8} (hq : q ≠ 92) (rest : Bytes)
    (hnext : ¬ [92, 117] <+: b) :
    b ++ q :: rest ≠ [] ∧ b ++ q :: rest ≠ [92] ∧ ¬ [92, 117] <+: b ++ q :: rest := by
  cases h with
  | nil => simp [hq, Ne.symm hq]
  | char hmark hesc hzero h => simp [hesc, Ne.symm hesc]
  | escape hcode hzero h => simp [Ne.symm hcode]
  | code | alone | pair => simp at hnext

/-- Bytes are put into the block, and the loop goes on. -/
theorem stringLoop_put (n : Nat) (bs m : Bytes) {max : Nat} {out : Bytes}
    (hlen : out.length + bs.length ≤ max) :
    (putBytes max out bs).bind (fun out => stringLoop max n out m) =
    stringLoop max n (out ++ bs) m := by
  rw [putBytes, if_pos hlen]
  rfl

/-- The second loop writes the string. -/
theorem stringLoop_eq {max : Nat} {q : UInt8} (hq : q = 34 ∨ q = 0) (rest : Bytes) {b s : Bytes}
    (h : StringBody b s) :
    ∀ {n : Nat} {out : Bytes}, b.length < n → out.length + s.length ≤ max →
      stringLoop max n out (b ++ q :: rest) = .ok (out ++ s, q :: rest) := by
  have hesc : q ≠ 92 := by
    rcases hq with rfl | rfl <;> decide
  -- an escape of a code, once it is known what is written for it
  have hunicode : ∀ {n : Nat} {out bs m s m' : Bytes}, parseUnicode m = .ok (bs, m') →
      out.length + bs.length ≤ max →
      stringLoop max n (out ++ bs) m' = .ok (out ++ (bs ++ s), q :: rest) →
      stringLoop max (n + 1) out (92 :: 117 :: m) = .ok (out ++ (bs ++ s), q :: rest) := by
    intro n out bs m s m' hparse hlen hrest
    have hstep := stringLoop_put n bs m' hlen
    simp only [Except.bind] at hstep
    rw [stringLoop]
    simp [bind, Except.bind, hparse, hstep, hrest]
  induction h with
  | nil =>
    intro n out hn _
    obtain ⟨n, rfl⟩ : ∃ k, n = k + 1 := ⟨n - 1, by omega⟩
    rw [List.nil_append, stringLoop.eq_def]
    dsimp only
    rw [if_pos hq, List.append_nil]
  | @char c b s hmark hesc hzero h ih =>
    intro n out hn hlen
    obtain ⟨n, rfl⟩ : ∃ k, n = k + 1 := ⟨n - 1, by omega⟩
    simp only [List.length_cons] at hn hlen
    have hroom : out.length + [c].length ≤ max := by
      rw [List.length_singleton]
      omega
    have hstep := stringLoop_put n [c] (b ++ q :: rest) hroom
    rw [List.cons_append, stringLoop.eq_def]
    dsimp only
    rw [if_neg (by simp [hmark, hzero]), if_pos hesc]
    have hmore : (out ++ [c]).length + s.length ≤ max := by
      rw [List.length_append, List.length_singleton]
      omega
    refine hstep.trans ((ih (by omega) hmore).trans ?_)
    rw [List.append_assoc, List.singleton_append]
  | @escape e b s hcode hzero h ih =>
    intro n out hn hlen
    obtain ⟨n, rfl⟩ : ∃ k, n = k + 1 := ⟨n - 1, by omega⟩
    simp only [List.length_cons] at hn hlen
    have hroom : out.length + [unescape e].length ≤ max := by
      rw [List.length_singleton]
      omega
    have hstep := stringLoop_put n [unescape e] (b ++ q :: rest) hroom
    rw [List.cons_append, List.cons_append, stringLoop, if_neg (by decide), if_neg (by decide)]
    dsimp only
    rw [if_neg hcode]
    have hmore : (out ++ [unescape e]).length + s.length ≤ max := by
      rw [List.length_append, List.length_singleton]
      omega
    refine hstep.trans ((ih (by omega) hmore).trans ?_)
    rw [List.append_assoc, List.singleton_append]
  | @code hs b s hhex hhigh h ih =>
    intro n out hn hlen
    obtain ⟨n, rfl⟩ : ∃ k, n = k + 1 := ⟨n - 1, by omega⟩
    simp only [List.length_cons, List.length_append] at hn hlen
    rw [List.cons_append, List.cons_append, List.append_assoc]
    refine hunicode (parseUnicode_code hhex hhigh _) (by omega) ((ih (by omega) ?_).trans ?_)
    · rw [List.length_append]
      omega
    · rw [List.append_assoc]
  | @alone hs b s hhex hhigh hnext h ih =>
    intro n out hn hlen
    obtain ⟨n, rfl⟩ : ∃ k, n = k + 1 := ⟨n - 1, by omega⟩
    simp only [List.length_cons, List.length_append] at hn
    obtain ⟨hne, hone, hpair⟩ := h.next hesc rest hnext
    rw [List.cons_append, List.cons_append, List.append_assoc]
    have hparse := parseUnicode_alone hhex hhigh hne hone hpair
    -- nothing is written for it
    refine @hunicode n out [] _ s _ hparse (by simpa using Nat.le_of_add_right_le hlen) ?_
    rw [List.append_nil]
    exact ih (by omega) hlen
  | @pair hs hs2 b s hhex hhigh hhex2 h ih =>
    intro n out hn hlen
    obtain ⟨n, rfl⟩ : ∃ k, n = k + 1 := ⟨n - 1, by omega⟩
    simp only [List.length_cons, List.length_append] at hn hlen
    rw [List.cons_append, List.cons_append, List.append_assoc, List.cons_append, List.cons_append,
      List.append_assoc]
    refine hunicode (parseUnicode_pair hhex hhigh hhex2 _) (by omega) ((ih (by omega) ?_).trans ?_)
    · rw [List.length_append]
      omega
    · rw [List.append_assoc]

/-! ## How long a string may get -/

/-- An ordinary character counts one. -/
theorem countString_cons {c : UInt8} (hmark : c ≠ 34) (hesc : c ≠ 92) (hzero : c ≠ 0) (m : Bytes) :
    countString (c :: m) = (countString m).map (· + 1) := by
  rw [countString.eq_def]
  simp [hmark, hesc, hzero]

/-- An escape counts one, whatever comes behind the backslash. -/
theorem countString_escape (e : UInt8) (m : Bytes) :
    countString (92 :: e :: m) = (countString m).map (· + 1) := by
  rw [countString.eq_def]
  simp

/-- A hexadecimal digit is no mark, no backslash and no zero. -/
theorem hex_char {c : UInt8} (h : (hexValue c).isSome) : c ≠ 34 ∧ c ≠ 92 ∧ c ≠ 0 ∧ c ≠ 117 := by
  refine ⟨?_, ?_, ?_, ?_⟩ <;> rintro rfl <;> exact absurd h (by decide)

/-- Each hexadecimal digit counts one. -/
theorem countString_hex (m : Bytes) : ∀ hs : Bytes, (∀ c ∈ hs, (hexValue c).isSome) →
    countString (hs ++ m) = (countString m).map (· + hs.length) := by
  intro hs
  induction hs with
  | nil =>
    intro _
    rw [List.nil_append]
    cases countString m <;> rfl
  | cons c hs ih =>
    intro hall
    obtain ⟨hmark, hesc, hzero, -⟩ := hex_char (hall c List.mem_cons_self)
    rw [List.cons_append, countString_cons hmark hesc hzero, ih fun b hb =>
      hall b (List.mem_cons_of_mem _ hb)]
    cases countString m <;> rfl

theorem length_utf8 (uc : UInt32) : (utf8 uc).length ≤ 4 := by
  unfold utf8
  dsimp only
  split
  · simp
  split
  · simp
  split <;> simp

theorem length_codeBytes (uc : UInt32) : (codeBytes uc).length ≤ 4 := by
  unfold codeBytes
  split
  · exact Nat.zero_le _
  · exact length_utf8 uc

theorem length_pairBytes (uc uc2 : UInt32) : (pairBytes uc uc2).length ≤ 4 := by
  unfold pairBytes
  split
  · exact length_utf8 _
  · exact Nat.zero_le _

/-- The first loop leaves room for what the second one writes: five bytes for a code, of which four
are written at most. -/
theorem countString_body {b s : Bytes} (h : StringBody b s) :
    ∃ k, s.length ≤ k ∧ k ≤ b.length ∧ ∀ m, countString (b ++ m) = (countString m).map (· + k) := by
  -- a code counts for as many characters as it has behind the backslash
  have hcode : ∀ {hs : Bytes}, Hex4 hs →
      ∀ m, countString (92 :: 117 :: (hs ++ m)) = (countString m).map (· + 5) := by
    intro hs hhex m
    rw [countString_escape, countString_hex m hs hhex.2, hhex.1]
    cases countString m <;> rfl
  induction h with
  | nil =>
    refine ⟨0, Nat.le_refl _, Nat.le_refl _, fun m => ?_⟩
    rw [List.nil_append]
    cases countString m <;> rfl
  | char hmark hesc hzero h ih =>
    obtain ⟨k, hle, hlen, hcount⟩ := ih
    refine ⟨k + 1, Nat.succ_le_succ hle, Nat.succ_le_succ hlen, fun m => ?_⟩
    rw [List.cons_append, countString_cons hmark hesc hzero, hcount]
    cases countString m <;> rfl
  | escape _ hzero h ih =>
    obtain ⟨k, hle, hlen, hcount⟩ := ih
    refine ⟨k + 1, Nat.succ_le_succ hle, Nat.le_succ_of_le (Nat.succ_le_succ hlen), fun m => ?_⟩
    rw [List.cons_append, List.cons_append, countString_escape, hcount]
    cases countString m <;> rfl
  | @code hs b s hhex hhigh h ih =>
    obtain ⟨k, hle, hlen, hcount⟩ := ih
    refine ⟨k + 5, ?_, ?_, fun m => ?_⟩
    · have hwritten := length_codeBytes (LibShare.Json.code hs)
      rw [List.length_append]
      omega
    · rw [List.length_cons, List.length_cons, List.length_append, hhex.1]
      omega
    · rw [List.cons_append, List.cons_append, List.append_assoc, hcode hhex, hcount]
      cases countString m <;> rfl
  | @alone hs b s hhex hhigh hnext h ih =>
    obtain ⟨k, hle, hlen, hcount⟩ := ih
    refine ⟨k + 5, by omega, ?_, fun m => ?_⟩
    · rw [List.length_cons, List.length_cons, List.length_append, hhex.1]
      omega
    · rw [List.cons_append, List.cons_append, List.append_assoc, hcode hhex, hcount]
      cases countString m <;> rfl
  | @pair hs hs2 b s hhex hhigh hhex2 h ih =>
    obtain ⟨k, hle, hlen, hcount⟩ := ih
    refine ⟨k + 5 + 5, ?_, ?_, fun m => ?_⟩
    · have hwritten := length_pairBytes (LibShare.Json.code hs) (LibShare.Json.code hs2)
      rw [List.length_append]
      omega
    · simp only [List.length_cons, List.length_append, hhex.1, hhex2.1]
      omega
    · rw [List.cons_append, List.cons_append, List.append_assoc, List.cons_append, List.cons_append,
        List.append_assoc, hcode hhex, hcode hhex2, hcount]
      cases countString m <;> rfl

/-- What is counted is at least the length of the string, and at most that of its text. -/
theorem countString_eq {q : UInt8} (hq : q = 34 ∨ q = 0) (rest : Bytes) {b s : Bytes}
    (h : StringBody b s) :
    ∃ k, countString (b ++ q :: rest) = .ok k ∧ s.length ≤ k ∧ k ≤ b.length := by
  obtain ⟨k, hle, hlen, hcount⟩ := countString_body h
  have hend : countString (q :: rest) = .ok 0 := by
    rw [countString.eq_def]
    exact if_pos hq
  refine ⟨k, ?_, hle, hlen⟩
  rw [hcount, hend]
  exact congrArg Except.ok (Nat.zero_add k)

/-- A string that ends with its mark, or with the text. -/
theorem parseString_eq {q : UInt8} (hq : q = 34 ∨ q = 0) (rest : Bytes) {b s : Bytes}
    (h : StringBody b s)
    (hint : b.length + 1 ≤ maxInt) :
    parseString (34 :: (b ++ q :: rest)) = .ok (cString s, if q = 34 then rest else q :: rest) := by
  obtain ⟨k, hcount, hle, hlen⟩ := countString_eq hq rest h
  have hloop : stringLoop k (b ++ q :: rest).length [] (b ++ q :: rest) =
      .ok ([] ++ s, q :: rest) :=
    stringLoop_eq hq rest h (by rw [List.length_append, List.length_cons]; omega)
      (by simpa using hle)
  have hroom : ¬ maxInt < k + 1 := by omega
  rw [parseString]
  simp only [hcount, hroom, hloop, bind, Except.bind, pure, Except.pure, if_false]
  simp

/-! ## Numbers -/

/-- The text of a number. -/
def Numeral.text (n : Numeral) : Bytes :=
  (if n.neg then [45] else []) ++ ((if n.zero then [48] else []) ++
    (n.whole ++ ((if n.frac = [] then [] else 46 :: n.frac) ++
    n.exp.elim [] fun e => e.1 :: (e.2.1.toList ++ e.2.2))))

/-- What there may be in each part. -/
structure Numeral.Ok (n : Numeral) : Prop where
  start : n.neg = true ∨ n.zero = true ∨ n.whole ≠ []
  whole : ∀ c ∈ n.whole, isDigit c = true
  first : ∀ c, n.whole.head? = some c → 49 ≤ c ∧ c ≤ 57
  frac : ∀ c ∈ n.frac, isDigit c = true
  exp : ∀ mark sign digits, n.exp = some (mark, sign, digits) →
    (mark = 101 ∨ mark = 69) ∧ (∀ d, sign = some d → d = 43 ∨ d = 45) ∧
      ∀ c ∈ digits, isDigit c = true

/-- A character that may be in a number. -/
def inNumber (c : UInt8) : Bool := isDigit c ∨ c = 46 ∨ c = 101 ∨ c = 69 ∨ c = 43 ∨ c = 45

/-- A number does not go on here. -/
def Ends (rest : Bytes) : Prop := ∃ c m, rest = c :: m ∧ inNumber c = false

/-- What stands behind a number does not go on with it. -/
theorem Ends.head {rest : Bytes} (h : Ends rest) :
    ∃ c, rest.head? = some c ∧ isDigit c = false ∧ c ≠ 46 ∧ ¬ (c = 101 ∨ c = 69) ∧
      ¬ (c = 43 ∨ c = 45) := by
  obtain ⟨c, m, rfl, hc⟩ := h
  refine ⟨c, rfl, ?_⟩
  simp only [inNumber, decide_eq_false_iff_not, not_or, Bool.not_eq_true] at hc
  tauto

/-- A run of digits is taken to its end. -/
theorem digits_eq {ds rest : Bytes} (hds : ∀ c ∈ ds, isDigit c = true)
    (hrest : ∀ c, rest.head? = some c → isDigit c = false) :
    (ds ++ rest).takeWhile isDigit = ds ∧ (ds ++ rest).dropWhile isDigit = rest := by
  have hend : rest.takeWhile isDigit = [] ∧ rest.dropWhile isDigit = rest := by
    cases rest with
    | nil => exact ⟨rfl, rfl⟩
    | cons c rest => simp [hrest c rfl]
  rw [List.takeWhile_append_of_pos hds, List.dropWhile_append_of_pos hds, hend.1, hend.2,
    List.append_nil]
  exact ⟨rfl, rfl⟩

/-- An exponent is read, or there is none. -/
theorem parseExponent_eq {exp : Option (UInt8 × Option UInt8 × Bytes)} {rest : Bytes}
    (hexp : ∀ mark sign digits, exp = some (mark, sign, digits) →
      (mark = 101 ∨ mark = 69) ∧ (∀ d, sign = some d → d = 43 ∨ d = 45) ∧
      ∀ c ∈ digits, isDigit c = true)
    (hrest : Ends rest) :
    parseExponent ((exp.elim [] fun e => e.1 :: (e.2.1.toList ++ e.2.2)) ++ rest) =
      (exp, rest) := by
  obtain ⟨c, hc, hdigit, -, hmark, hsign⟩ := hrest.head
  have hend : ∀ d, rest.head? = some d → isDigit d = false := by
    intro d hd
    rw [hc, Option.some.injEq] at hd
    rwa [← hd]
  cases exp with
  | none =>
    obtain ⟨m, rfl⟩ := List.head?_eq_some_iff.mp hc
    rw [Option.elim_none, List.nil_append, parseExponent]
    exact if_neg hmark
  | some e =>
    obtain ⟨mark, sign, digits⟩ := e
    obtain ⟨hm, hs, hd⟩ := hexp mark sign digits rfl
    rw [Option.elim_some, List.cons_append, parseExponent]
    dsimp only
    rw [if_pos hm]
    cases sign with
    | none =>
      -- what follows is a digit, or the end
      have hnone : ((digits ++ rest).head?.filter fun d => d = 43 ∨ d = 45) = none := by
        rw [Option.filter_eq_none_iff]
        intro d hd'
        cases digits with
        | nil =>
          rw [List.nil_append, hc, Option.some.injEq] at hd'
          simpa [← hd'] using hsign
        | cons x digits =>
          cases hd'
          have hx := hd _ List.mem_cons_self
          simp only [decide_eq_true_eq]
          rintro (rfl | rfl) <;> exact absurd hx (by decide)
      rw [Option.toList_none, List.nil_append, hnone]
      simp only [Option.isSome_none, Bool.false_eq_true, if_false]
      rw [(digits_eq hd hend).1, (digits_eq hd hend).2]
    | some d =>
      rw [Option.toList_some, List.singleton_append, List.cons_append, List.head?_cons,
        Option.filter_some_pos (by
        simpa using hs d rfl)]
      simp only [Option.isSome_some, if_true, List.tail_cons]
      rw [(digits_eq hd hend).1, (digits_eq hd hend).2]

/-- A character that may stand there is taken if it does. -/
theorem takeOne_eq {c : UInt8} {there : Bool} {m : Bytes} (h : there = false → m.head? ≠ some c) :
    takeOne c ((if there then [c] else []) ++ m) = (there, m) := by
  cases there with
  | false => exact if_neg (h rfl)
  | true => exact if_pos rfl

/-- A number is read to its end. -/
theorem numeral_eq {n : Numeral} (h : n.Ok) {rest : Bytes} (hrest : Ends rest) :
    numeral (n.text ++ rest) = (n, rest) := by
  obtain ⟨neg, zero, whole, frac, exp⟩ := n
  obtain ⟨hstart, hwhole, hfirst, hfrac, hexp⟩ := h
  obtain ⟨c, hc, hdigit, hdot, hmark, hsign⟩ := hrest.head
  dsimp only at hstart hwhole hfirst hfrac hexp
  -- what begins with the exponent, with the fraction, and with the whole number
  obtain ⟨e, he⟩ : ∃ e, e = (exp.elim [] fun e => e.1 :: (e.2.1.toList ++ e.2.2)) ++
      rest := ⟨_, rfl⟩
  obtain ⟨f, hf⟩ : ∃ f, f = (if frac = [] then [] else 46 :: frac) ++ e := ⟨_, rfl⟩
  have htext : Numeral.text { neg, zero, whole, frac, exp } ++ rest =
      (if neg then [45] else []) ++ ((if zero then [48] else []) ++ (whole ++ f)) := by
    rw [Numeral.text, hf, he]
    simp only [List.append_assoc]
  have hehead : ∀ d, e.head? = some d → isDigit d = false ∧ d ≠ 46 := by
    intro d hd
    rw [he] at hd
    cases exp with
    | none =>
      rw [Option.elim_none, List.nil_append, hc, Option.some.injEq] at hd
      exact ⟨hd ▸ hdigit, hd ▸ hdot⟩
    | some x =>
      rw [Option.elim_some, List.cons_append, List.head?_cons, Option.some.injEq] at hd
      rcases (hexp x.1 x.2.1 x.2.2 rfl).1 with h | h <;> rw [← hd, h] <;> decide
  have hfhead : ∀ d, f.head? = some d → isDigit d = false := by
    intro d hd
    rw [hf] at hd
    by_cases hnil : frac = []
    · rw [if_pos hnil, List.nil_append] at hd
      exact (hehead d hd).1
    · rw [if_neg hnil, List.cons_append, List.head?_cons, Option.some.injEq] at hd
      rw [← hd]
      decide
  -- without a zero in front, the whole number does not begin with one
  have hwhead : ∀ d, (whole ++ f).head? = some d → isDigit d = true → 49 ≤ d ∧ d ≤ 57 := by
    intro d hd hdig
    cases whole with
    | nil => exact absurd hdig (by rw [hfhead d hd]; exact Bool.false_ne_true)
    | cons x whole => exact hfirst d hd
  have hzero : zero = false → (whole ++ f).head? ≠ some 48 := by
    intro _ hd
    exact absurd (hwhead 48 hd rfl) (by decide)
  have hneg : neg = false → ((if zero then [48] else []) ++ (whole ++ f)).head? ≠ some 45 := by
    rintro rfl hd
    cases zero with
    | true => cases hd
    | false =>
      have hne : whole ≠ [] := by simpa using hstart
      obtain ⟨x, whole, rfl⟩ := List.exists_cons_of_ne_nil hne
      cases hd
      exact absurd (hwhole 45 List.mem_cons_self) (by decide)
  have hrun : (if (whole ++ f).head?.any fun c => 49 ≤ c ∧ c ≤ 57 then
      ((whole ++ f).takeWhile isDigit, (whole ++ f).dropWhile isDigit) else ([], whole ++ f)) =
        (whole, f) := by
    cases whole with
    | nil =>
      rw [List.nil_append, if_neg]
      rw [Option.any_eq_true]
      rintro ⟨d, hd, hrange⟩
      have hdig : isDigit d = true := by
        have h := of_decide_eq_true hrange
        exact decide_eq_true ⟨UInt8.le_trans (by decide) h.1, h.2⟩
      rw [hfhead d hd] at hdig
      cases hdig
    | cons x whole =>
      rw [if_pos, (digits_eq hwhole hfhead).1, (digits_eq hwhole hfhead).2]
      rw [List.cons_append, List.head?_cons, Option.any_some]
      exact decide_eq_true (hfirst x rfl)
  have hpart : (if f.head? = some 46 ∧ f.tail.head?.any isDigit then
      (f.tail.takeWhile isDigit, f.tail.dropWhile isDigit) else ([], f)) = (frac, e) := by
    rw [hf]
    cases frac with
    | nil =>
      rw [if_pos rfl, List.nil_append, if_neg]
      exact fun h => (hehead 46 h.1).2 rfl
    | cons x frac =>
      rw [if_neg (List.cons_ne_nil _ _), List.cons_append, List.head?_cons, List.tail_cons, if_pos,
        (digits_eq hfrac fun d hd => (hehead d hd).1).1,
          (digits_eq hfrac fun d hd => (hehead d hd).1).2]
      rw [List.cons_append, List.head?_cons, Option.any_some]
      exact ⟨rfl, hfrac x List.mem_cons_self⟩
  rw [htext, numeral, takeOne_eq hneg]
  dsimp only
  rw [takeOne_eq hzero]
  dsimp only
  rw [hrun]
  dsimp only
  rw [hpart]
  dsimp only
  rw [he, parseExponent_eq hexp hrest]

/-- A number is read as its digits, and what is behind it is left. -/
theorem parseNumber_eq {n : Numeral} (h : n.Ok) {rest : Bytes} (hrest : Ends rest) :
    parseNumber (n.text ++ rest) = .ok (n, rest) := by
  obtain ⟨c, m, rfl, -⟩ := id hrest
  rw [parseNumber, numeral_eq h hrest]
  exact if_neg (List.cons_ne_nil _ _)

/-! ## Nodes -/

/-- Characters that are skipped. -/
def Blank (w : Bytes) : Prop := ∀ c ∈ w, c ≠ 0 ∧ c ≤ 32

/-- Blanks of some kind are around the text. -/
inductive Padded {α : Type} (W : Bytes → Prop) (P : α → Bytes → Prop) : α → Bytes → Prop
  | mk {w t w' : Bytes} {a : α} (hw : W w) (h : P a t) (hw' : W w') : Padded W P a (w ++ (t ++ w'))

/-- The name of a member, a colon, and its value. -/
inductive Member {ν : Type} (W : Bytes → Prop) (P : JsonNode ν → Bytes → Prop) :
    JsonString × JsonNode ν → Bytes → Prop
  | mk {w b s w' t : Bytes} {x : JsonNode ν} (hw : W w) (hname : StringBody b s) (hw' : W w')
      (h : Padded W P x t) :
      Member W P (cString s, x) (w ++ (34 :: (b ++ 34 :: (w' ++ 58 :: t))))

/-- The texts of a node. -/
inductive HasText (N : Numbers) (W : Bytes → Prop) : JsonNode N.Value → Bytes → Prop
  | null : HasText N W .null nullText
  | false : HasText N W .false falseText
  | true : HasText N W .true trueText
  | number {n : Numeral} (h : n.Ok) : HasText N W (.number (N.value n)) n.text
  | string {b s : Bytes} (h : StringBody b s) :
      HasText N W (.string (cString s)) (34 :: (b ++ [34]))
  | noElements {w : Bytes} (hw : W w) : HasText N W (.array []) (91 :: (w ++ [93]))
  | array {xs : List (JsonNode N.Value)} {t : Bytes}
      (h : Separated 44 (Padded W (HasText N W)) xs t) :
      HasText N W (.array xs) (91 :: (t ++ [93]))
  | noMembers {w : Bytes} (hw : W w) : HasText N W (.object []) (123 :: (w ++ [125]))
  | object {xs : List (JsonString × JsonNode N.Value)} {t : Bytes}
      (h : Separated 44 (Member W (HasText N W)) xs t) :
      HasText N W (.object xs) (123 :: (t ++ [125]))

/-- An induction over a node, with the hypothesis for what is in it. -/
theorem JsonNode.ind {ν : Type} {motive : JsonNode ν → Prop} (null : motive .null)
    (false : motive .false)
    (true : motive .true) (number : ∀ x, motive (.number x)) (string : ∀ s, motive (.string s))
    (array : ∀ xs, (∀ x ∈ xs, motive x) → motive (.array xs))
    (object : ∀ xs : List (JsonString × JsonNode ν), (∀ x ∈ xs, motive x.2) → motive (.object xs))
    (node : JsonNode ν) :
    motive node := by
  refine @JsonNode.rec ν motive (fun xs => ∀ x ∈ xs, motive x) (fun xs =>
    ∀ x ∈ xs, motive x.2) (fun x => motive x.2)
    null false true number string array object ?_ ?_ ?_ ?_ ?_ node
  · exact fun x hx => by cases hx
  · intro x xs hx hxs y hy
    rcases List.mem_cons.mp hy with rfl | hy
    · exact hx
    · exact hxs y hy
  · exact fun x hx => by cases hx
  · intro x xs hx hxs y hy
    rcases List.mem_cons.mp hy with rfl | hy
    · exact hx
    · exact hxs y hy
  · exact fun _ _ hx => hx

/-! ## Texts that are read -/

/-- A place that neither a blank nor a number goes on at. -/
def Stops (rest : Bytes) : Prop := ∃ c m, rest = c :: m ∧ inNumber c = false ∧ (c = 0 ∨ 32 < c)

/-- What stops an element ends a number. -/
theorem Stops.ends {rest : Bytes} (h : Stops rest) : Ends rest := by
  obtain ⟨c, m, rfl, hc, -⟩ := h
  exact ⟨c, m, rfl, hc⟩

theorem stops_cons {c : UInt8} (h : inNumber c = false ∧ (c = 0 ∨ 32 < c)) (m : Bytes) :
    Stops (c :: m) := ⟨c, m, rfl, h⟩

/-- No character of a number is blank. -/
theorem inNumber_blank : ∀ c : UInt8, c ≤ 32 → inNumber c = false := forall_byte (by decide +kernel)

/-- Blanks end a number. -/
theorem Blank.ends {w rest : Bytes} (hw : Blank w) (h : Stops rest) : Ends (w ++ rest) := by
  cases w with
  | nil => exact h.ends
  | cons c w =>
    refine ⟨c, w ++ rest, rfl, ?_⟩
    exact inNumber_blank c (hw c List.mem_cons_self).2

/-- Blanks are skipped, up to the first other character. -/
theorem skip_eq {w : Bytes} (hw : Blank w) {c : UInt8} (hc : c = 0 ∨ 32 < c) (m : Bytes) :
    skip (w ++ c :: m) = .ok (c :: m) := by
  have hstop : (c :: m).dropWhile (fun c => decide (c ≠ 0 ∧ c ≤ 32)) = c :: m := by
    rw [List.dropWhile_cons_of_neg]
    rw [decide_eq_true_eq]
    rintro ⟨hne, hle⟩
    exact UInt8.not_lt.mpr hle (hc.resolve_left hne)
  rw [skip, List.dropWhile_append_of_pos fun d hd => decide_eq_true (hw d hd), hstop]

/-- Blanks are skipped in front of what stops an element. -/
theorem skip_stops {w rest : Bytes} (hw : Blank w) (h : Stops rest) :
    skip (w ++ rest) = .ok rest := by
  obtain ⟨c, m, rfl, -, hc⟩ := h
  exact skip_eq hw hc m

/-- What has been skipped. -/
theorem skip_ok {m m' : Bytes} (h : skip m = .ok m') :
    ∃ w c r, m = w ++ c :: r ∧ m' = c :: r ∧ Blank w ∧ (c = 0 ∨ 32 < c) := by
  have hsplit :=
    List.takeWhile_append_dropWhile (p := fun c : UInt8 => decide (c ≠ 0 ∧ c ≤ 32)) (l := m)
  rw [skip] at h
  split at h
  · cases h
  · next c r hdrop =>
    cases h
    refine ⟨_, c, r, by rw [← hdrop, hsplit], rfl,
      fun d hd => by simpa using List.mem_takeWhile_imp hd, ?_⟩
    have hc := List.head?_dropWhile_not (fun c : UInt8 => decide (c ≠ 0 ∧ c ≤ 32)) m
    rw [hdrop, List.head?_cons] at hc
    by_contra hcon
    rw [not_or] at hcon
    simp [hcon.1, UInt8.not_lt.mp hcon.2] at hc

/-- After blanks have been skipped there are none. -/
theorem skip_skip {m m' : Bytes} (h : skip m = .ok m') : skip m' = .ok m' := by
  obtain ⟨w, c, r, -, rfl, -, hc⟩ := skip_ok h
  exact skip_eq (w := []) (fun _ hd => by cases hd) hc r

/-- A number begins with its sign or a digit. -/
theorem Numeral.Ok.first_char {n : Numeral} (h : n.Ok) :
    ∃ c m, n.text = c :: m ∧ (c = 45 ∨ isDigit c = true) := by
  obtain ⟨neg, zero, whole, frac, exp⟩ := n
  cases neg with
  | true => exact ⟨45, _, rfl, .inl rfl⟩
  | false =>
    cases zero with
    | true => exact ⟨48, _, rfl, .inr rfl⟩
    | false =>
      have hne : whole ≠ [] := by simpa using h.start
      obtain ⟨c, whole, rfl⟩ := List.exists_cons_of_ne_nil hne
      exact ⟨c, _, rfl, .inr (h.whole c List.mem_cons_self)⟩

/-- A number begins with no other element's character. -/
theorem number_char : ∀ c :
    UInt8, (c = 45 ∨ isDigit c = true) → 32 < c ∧ c ≠ 93 ∧ c ≠ 110 ∧ c ≠ 102 ∧ c ≠ 116 ∧ c ≠ 34 :=
  forall_byte (by decide +kernel)

/-- A text begins with a character that is neither blank nor the end of an array. -/
theorem HasText.first {N : Numbers} {x : JsonNode N.Value} {t : Bytes} (h : HasText N Blank x t) :
    ∃ c m, t = c :: m ∧ 32 < c ∧ c ≠ 93 := by
  cases h with
  | number h =>
    obtain ⟨c, m, hcm, hc⟩ := h.first_char
    exact ⟨c, m, hcm, (number_char c hc).1, (number_char c hc).2.1⟩
  | _ => exact ⟨_, _, rfl, by decide⟩

section Read

variable {ν : Type} {value : JsonParser (JsonNode ν)} {P : JsonNode ν → Bytes → Prop}
  {x : JsonNode ν} {t rest : Bytes}

/-- The text of a value in an array or object. -/
structure Readable (value : JsonParser (JsonNode ν)) (P : JsonNode ν → Bytes → Prop)
    (x : JsonNode ν) (k : Nat) : Prop where
  eq : ∀ t, P x t → t.length ≤ k → ∀ rest, Ends rest → value (t ++ rest) = .ok (x, rest)
  first : ∀ t, P x t → ∃ c m, t = c :: m ∧ 32 < c ∧ c ≠ 93

/-- An element with blanks around it is read. -/
theorem parseElement_eq {k : Nat} (hx : Readable value P x k) (h : Padded Blank P x t)
    (hlen : t.length ≤ k) (hrest : Stops rest) :
    parseElement value (t ++ rest) = .ok (x, rest) := by
  obtain @⟨w, t, w', _, hw, h, hw'⟩ := h
  obtain ⟨c, m, rfl, hc, -⟩ := hx.first t h
  have hvalue := hx.eq _ h (by simp only [List.length_append] at hlen; omega) _ (hw'.ends hrest)
  rw [parseElement]
  simp only [List.append_assoc, List.cons_append, skip_eq hw (.inr hc), bind, Except.bind]
  rw [List.cons_append] at hvalue
  simp only [hvalue, skip_stops hw' hrest, pure, Except.pure]

/-- A member with its name, its colon and blanks is read. -/
theorem parseMember_eq {k : Nat} {name : JsonString} (hx : Readable value P x k)
    (h : Member Blank P (name, x) t)
    (hlen : t.length ≤ k) (hint : k ≤ maxInt) (hrest : Stops rest) :
    parseMember value (t ++ rest) = .ok ((name, x), rest) := by
  obtain @⟨w, b, s, w', t, _, hw, hname, hw', h⟩ := h
  simp only [List.length_append, List.length_cons] at hlen
  have helement := parseElement_eq hx h (by omega) hrest
  have hstring := parseString_eq (.inl rfl) (w' ++ 58 :: (t ++ rest)) hname (by omega)
  rw [parseMember]
  simp only [List.append_assoc, List.cons_append, skip_eq hw (.inr (by decide : (32 : UInt8) < 34)),
    bind, Except.bind]
  simp only [hstring, if_true, skip_eq hw' (.inr (by decide : (32 : UInt8) < 58)), List.head?_cons,
    List.tail_cons]
  simp [helement, pure, Except.pure]

/-- Items between brackets, where blanks before an item are skipped. -/
theorem parseBrackets_eq {α : Type} {item : JsonParser α} {Q : α → Bytes → Prop} {close : UInt8}
    {xs : List α} {n : Nat}
    (hclose : close = 93 ∨ close = 125) (hskip : ∀ m m', skip m = .ok m' → item m' = item m)
    (hfirst : ∀ a t, Q a t → ∃ w c m, t = w ++ c :: m ∧ Blank w ∧ 32 < c ∧ c ≠ close)
    (hitem : ∀ a ∈ xs, ∀ t', Q a t' → t'.length ≤ t.length → ∀ rest, Stops rest →
      item (t' ++ rest) = .ok (a, rest))
    (h : Separated 44 Q xs t) (hn : t.length < n) (rest : Bytes) :
    parseBrackets close item n (t ++ close :: rest) = .ok (xs, rest) := by
  have hstops : Stops (close :: rest) := by
    rcases hclose with rfl | rfl <;> exact stops_cons (by decide) rest
  have hcomma : (close :: rest).head? ≠ some 44 := by
    rcases hclose with rfl | rfl <;> simp
  have hread : readSeparated JsonStop.fault 44 item n (t ++ close :: rest) =
      .ok (xs, close :: rest) :=
    readSeparated_eq (fun m =>
      stops_cons (by decide) m) h hitem (h.length_le.trans hn) hstops hcomma
  -- the first item does not look like the end
  obtain ⟨a, -, t₁, t₂, ht, ha⟩ := h.first
  obtain ⟨w, c, m, rfl, hw, hc, hne⟩ := hfirst a t₁ ha
  have hfirst : skip (t ++ close :: rest) = .ok (c :: (m ++ (t₂ ++ close :: rest))) := by
    rw [ht, List.append_assoc, List.append_assoc, List.cons_append]
    exact skip_eq hw (.inr hc) _
  rw [← readSeparated_congr (hskip _ _ hfirst)] at hread
  rw [parseBrackets]
  simp only [hfirst, bind, Except.bind, List.head?_cons, Option.some.injEq, hne, if_false, hread,
    if_true, List.tail_cons, pure, Except.pure]

/-- Empty brackets are read. -/
theorem parseBrackets_nil {α : Type} {item : JsonParser α} {close : UInt8} (hclose : 32 < close)
    {w : Bytes} (hw : Blank w)
    (n : Nat) (rest : Bytes) :
    parseBrackets close item n (w ++ close :: rest) = .ok ([], rest) := by
  rw [parseBrackets]
  simp only [skip_eq hw (.inr hclose), bind, Except.bind, List.head?_cons, if_true, List.tail_cons,
    pure, Except.pure]

theorem parseElement_skip (m m' : Bytes) (h : skip m = .ok m') :
    parseElement value m' = parseElement value m := by
  rw [parseElement, parseElement, skip_skip h, h]

theorem parseMember_skip (m m' : Bytes) (h : skip m = .ok m') :
    parseMember value m' = parseMember value m := by
  rw [parseMember, parseMember, skip_skip h, h]

end Read

/-- The parser reads each text of a node, up to a place that no number goes on at. -/
theorem parseValue_eq (N : Numbers) (x : JsonNode N.Value) :
    ∀ {t : Bytes}, HasText N Blank x t → ∀ {n : Nat} {rest : Bytes}, t.length ≤ n →
      t.length ≤ maxInt → Ends rest → parseValue N n (t ++ rest) = .ok (x, rest) := by
  -- what the induction says of a child
  have readable : ∀ (x : JsonNode N.Value) {n : Nat},
      (∀ {t : Bytes}, HasText N Blank x t → ∀ {n : Nat} {rest : Bytes}, t.length ≤ n →
        t.length ≤ maxInt → Ends rest → parseValue N n (t ++ rest) = .ok (x, rest)) →
      Readable (parseValue N n) (HasText N Blank) x (min n maxInt) := fun x n ih =>
    ⟨fun t ht hlen rest hrest => ih ht (by omega) (by omega) hrest, fun t ht => ht.first⟩
  induction x using JsonNode.ind with
  | null | false | true =>
    intro t h n rest hn hint hrest
    cases h
    obtain ⟨n, rfl⟩ : ∃ k, n = k + 1 :=
      ⟨n - 1, by simp [nullText, falseText, trueText] at hn; omega⟩
    simp [parseValue, nullText, falseText, trueText]
  | number x =>
    intro t h n rest hn hint hrest
    cases h with
    | @number nl h =>
      obtain ⟨c, m, hcm, hc⟩ := h.first_char
      obtain ⟨-, -, hnull, hfalse, htrue, hmark⟩ := number_char c hc
      have hlen : nl.text.length = m.length + 1 := by rw [hcm, List.length_cons]
      obtain ⟨n, rfl⟩ : ∃ k, n = k + 1 := ⟨n - 1, by omega⟩
      have hparse := parseNumber_eq h hrest
      rw [hcm, List.cons_append] at hparse ⊢
      rw [parseValue.eq_def]
      dsimp only
      rw [if_neg (by simp [nullText, Ne.symm hnull]), if_neg (by simp [falseText, Ne.symm hfalse]),
        if_neg (by simp [trueText, Ne.symm htrue]), if_neg hmark, if_pos hc]
      simp only [hparse, bind, Except.bind, pure, Except.pure]
  | string s =>
    intro t h n rest hn hint hrest
    cases h with
    | @string b s h =>
      obtain ⟨n, rfl⟩ : ∃ k, n = k + 1 := ⟨n - 1, by rw [List.length_cons] at hn; omega⟩
      rw [List.length_cons, List.length_append] at hint
      have hparse := parseString_eq (.inl rfl) rest h (Nat.le_of_succ_le hint)
      rw [List.cons_append, List.append_assoc, List.singleton_append, parseValue.eq_def]
      simp [nullText, falseText, trueText, hparse, bind, Except.bind, pure, Except.pure]
  | array xs ih =>
    intro t h n rest hn hint hrest
    obtain ⟨n, rfl⟩ : ∃ k, n = k + 1 :=
      ⟨n - 1, by cases h <;> rw [List.length_cons] at hn <;> omega⟩
    have hbrackets : ∃ t', t = 91 :: t' ∧
        parseBrackets 93 (parseElement (parseValue N n)) n (t' ++ rest) = .ok (xs, rest) := by
      cases h with
      | @noElements w hw =>
        refine ⟨_, rfl, ?_⟩
        rw [List.append_assoc, List.singleton_append]
        exact parseBrackets_nil (by decide) hw n rest
      | @array _ t h =>
        refine ⟨_, rfl, ?_⟩
        simp only [List.length_cons, List.length_append, List.length_nil] at hn hint
        rw [List.append_assoc, List.singleton_append]
        refine parseBrackets_eq (.inl rfl) parseElement_skip ?_ ?_ h (by omega) rest
        · rintro x _ ⟨hw, h, -⟩
          obtain ⟨c, m, rfl, hc, hne⟩ := h.first
          exact ⟨_, c, _, rfl, hw, hc, hne⟩
        · exact fun x hx t' ht' hle rest hrest =>
            parseElement_eq (readable x (ih x hx)) ht' (by omega) hrest
    obtain ⟨t', rfl, hread⟩ := hbrackets
    rw [List.cons_append, parseValue.eq_def]
    simp [nullText, falseText, trueText, hread, bind, Except.bind, pure, Except.pure, isDigit]
  | object xs ih =>
    intro t h n rest hn hint hrest
    obtain ⟨n, rfl⟩ : ∃ k, n = k + 1 :=
      ⟨n - 1, by cases h <;> rw [List.length_cons] at hn <;> omega⟩
    have hbrackets : ∃ t', t = 123 :: t' ∧
        parseBrackets 125 (parseMember (parseValue N n)) n (t' ++ rest) = .ok (xs, rest) := by
      cases h with
      | @noMembers w hw =>
        refine ⟨_, rfl, ?_⟩
        rw [List.append_assoc, List.singleton_append]
        exact parseBrackets_nil (by decide) hw n rest
      | @object _ t h =>
        refine ⟨_, rfl, ?_⟩
        simp only [List.length_cons, List.length_append, List.length_nil] at hn hint
        rw [List.append_assoc, List.singleton_append]
        refine parseBrackets_eq (.inr rfl) parseMember_skip ?_ ?_ h (by omega) rest
        · rintro x _ ⟨hw, -, -, -⟩
          exact ⟨_, 34, _, rfl, hw, by decide, by decide⟩
        · exact fun x hx t' ht' hle rest hrest =>
            parseMember_eq (readable x.2 (ih x hx)) ht' (by omega)
            (Nat.min_le_right _ _) hrest
    obtain ⟨t', rfl, hread⟩ := hbrackets
    rw [List.cons_append, parseValue.eq_def]
    simp [nullText, falseText, trueText, hread, bind, Except.bind, pure, Except.pure, isDigit]

end LibShare.Json
