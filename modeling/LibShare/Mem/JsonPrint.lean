import LibShare.Mem.JsonGrammar

/-!
# libshare — printing a JSON node

* `printValue_hasText` — what `print_value` prints is a text of the node, in both formats, and every
  allocation has room for what is written to it.
* `parse_shjsonPrint` — a text that has been printed is parsed to the node that it is of.

Both are about a node whose numbers are printed as digits that stand for them (`JsonNode.Exact`),
which the numbers of a machine need not be, and of which the printer counts no more than an `int`
holds (`printSize`).
-/

namespace LibShare.Json

/-! ## Strings -/

/-- The character behind the backslash stands for the character that was escaped. -/
theorem unescape_of_short {token c : UInt8} (h : shortEscape token = some c) :
    c ≠ 117 ∧ c ≠ 0 ∧ unescape c = token := by
  have hall : ∀ token : UInt8, ∀ c ∈ shortEscape token, c ≠ 117 ∧ c ≠ 0 ∧ unescape c = token :=
    forall_byte (by decide +kernel)
  exact hall token c h

/-- The digits that are written for a control character. -/
theorem code_of_control {token : UInt8} (hlow : token < 32) (hzero : token ≠ 0) :
    Hex4 [48, 48, hexDigit (token >>> 4), hexDigit (token &&& 15)] ∧
      isHigh (code [48, 48, hexDigit (token >>> 4), hexDigit (token &&& 15)]) = false ∧
      codeBytes (code [48, 48, hexDigit (token >>> 4), hexDigit (token &&& 15)]) = [token] := by
  have hall : ∀ token : UInt8, token < 32 → token ≠ 0 →
      ([48, 48, hexDigit (token >>> 4), hexDigit (token &&& 15)].all fun c =>
        (hexValue c).isSome) = true ∧ isHigh (code [48, 48, hexDigit (token >>> 4),
          hexDigit (token &&& 15)]) = false ∧
        codeBytes (code [48, 48, hexDigit (token >>> 4), hexDigit (token &&& 15)]) = [token] :=
    forall_byte (by decide +kernel)
  obtain ⟨hhex, hcode⟩ := hall token hlow hzero
  exact ⟨⟨rfl, List.all_eq_true.mp hhex⟩, hcode⟩

/-- What is printed for a character stands for it. -/
theorem StringBody.escaped {token : UInt8} {b s : Bytes} (hzero : token ≠ 0) (h : StringBody b s) :
    StringBody (LibShare.Json.escape token ++ b) (token :: s) := by
  rw [LibShare.Json.escape]
  by_cases hplain : token > 31 ∧ token ≠ 34 ∧ token ≠ 92
  · rw [if_pos hplain]
    exact .char hplain.2.1 hplain.2.2 hzero h
  rw [if_neg hplain]
  cases hshort : shortEscape token with
  | some c =>
    obtain ⟨hcode, hne, htoken⟩ := unescape_of_short hshort
    have hbody := StringBody.escape hcode hne h
    rwa [htoken] at hbody
  | none =>
    -- the marks and the backslash have an escape of their own
    have hlow : token < 32 := by
      refine UInt8.not_le.mp fun hle =>
        hplain ⟨UInt8.lt_of_lt_of_le (by decide) hle, ?_, ?_⟩ <;> rintro rfl <;>
        cases hshort
    obtain ⟨hhex, hhigh, hbytes⟩ := code_of_control hlow hzero
    have hbody := StringBody.code hhex hhigh h
    rwa [hbytes] at hbody

/-- A string that is escaped is the body of a text. -/
theorem stringBody_escape : ∀ {s : Bytes}, 0 ∉ s → StringBody (s.flatMap escape) s := by
  intro s
  induction s with
  | nil => exact fun _ => .nil
  | cons c s ih =>
    intro h
    rw [List.mem_cons, not_or] at h
    exact (ih h.2).escaped (Ne.symm h.1)

/-- The first loop counts what the second one writes. -/
theorem length_escape (token : UInt8) : (escape token).length = escapedLen token := by
  revert token
  exact forall_byte (by decide +kernel)

/-- The length of what is escaped is what is counted for each character. -/
theorem length_flatMap_escape (s : Bytes) : (s.flatMap escape).length = (s.map escapedLen).sum := by
  rw [List.length_flatMap]
  exact congrArg List.sum (List.map_congr_left fun c _ => length_escape c)

/-- The string between its marks. -/
theorem length_quoted (str : JsonString) :
    (34 :: (str.val.flatMap escape ++ [34])).length = (str.val.map escapedLen).sum + 2 := by
  rw [List.length_cons, List.length_append, length_flatMap_escape, List.length_singleton]

/-- A string is printed with its marks, as long as the count is an `int`. -/
theorem printString_eq (str : JsonString) (hint : (str.val.map escapedLen).sum + 3 ≤ maxInt) :
    printString str = some (34 :: (str.val.flatMap escape ++ [34])) := by
  refine if_pos ⟨?_, hint⟩
  have hlen := length_quoted str
  rw [List.cons_append, hlen]
  omega

/-- A string without a zero byte is what it is as a string of C. -/
theorem cString_val (str : JsonString) : cString str.val = str := by
  refine Subtype.ext (List.takeWhile_eq_self_iff.mpr fun c hc => decide_eq_true ?_)
  rintro rfl
  exact str.property hc

/-! ## Nodes -/

/-- A number that is printed as digits that stand for it. -/
def Numbers.Exact (N : Numbers) (x : N.Value) : Prop := ∃ n :
    Numeral, n.Ok ∧ n.text = N.text x ∧ N.value n = x

/-- A node with such numbers. -/
inductive JsonNode.Exact (N : Numbers) : JsonNode N.Value → Prop
  | null : Exact N .null
  | false : Exact N .false
  | true : Exact N .true
  | number {x : N.Value} (h : N.Exact x) : Exact N (.number x)
  | string (s : JsonString) : Exact N (.string s)
  | array {xs : List (JsonNode N.Value)} (h : ∀ x ∈ xs, Exact N x) : Exact N (.array xs)
  | object {xs : List (JsonString × JsonNode N.Value)} (h : ∀ x ∈ xs, Exact N x.2) :
      Exact N (.object xs)

theorem blank_nil : Blank [] := fun _ h => by cases h

theorem blank_tabs (n : Nat) : Blank (tabs n) := by
  intro c hc
  rw [List.eq_of_mem_replicate hc]
  decide

/-- A blank that may be there. -/
theorem blank_if (fmt : Bool) {c : UInt8} (hc : c ≠ 0 ∧ c ≤ 32) :
    Blank (if fmt then [c] else []) := by
  cases fmt
  · exact blank_nil
  · exact List.forall_mem_singleton.mpr hc

/-- What is at an end of a line. -/
def newline (fmt : Bool) : Bytes := if fmt then [10] else []

theorem blank_newline (fmt : Bool) : Blank (newline fmt) := blank_if fmt (by decide)

/-- Blanks behind blanks. -/
theorem Blank.append {w w' : Bytes} (h : Blank w) (h' : Blank w') : Blank (w ++ w') := by
  intro c hc
  rcases List.mem_append.mp hc with hc | hc
  · exact h c hc
  · exact h' c hc

/-- What is between two elements is a comma with a blank that belongs to the second of them. -/
theorem separated_arrayText {ν : Type} {P : JsonNode ν → Bytes → Prop} (fmt : Bool)
    {xs : List (JsonNode ν)} {entries : List Bytes}
    (h : List.Forall₂ P xs entries) : ∀ {w : Bytes}, Blank w → entries ≠ [] →
      Separated 44 (Padded Blank P) xs (w ++ arrayText fmt entries) := by
  induction h with
  | nil => exact fun _ hne => absurd rfl hne
  | @cons x e xs entries hx hxs ih =>
    intro w hw _
    have hpad : Padded Blank P x (w ++ (e ++ [])) := .mk hw hx blank_nil
    cases hxs with
    | nil =>
      rw [List.append_nil] at hpad
      exact .one (by simpa [arrayText] using hpad)
    | @cons x' e' xs entries hx' hxs =>
      have hblank : Blank (if fmt then [32] else []) := blank_if fmt (by decide)
      have hrest := Separated.cons hpad (ih hblank (List.cons_ne_nil _ _))
      cases fmt <;> simpa [arrayText, List.intercalate] using hrest

/-- A line of an object ends behind its comma. -/
theorem separated_objectText {ν : Type} {P : JsonNode ν → Bytes → Prop} (fmt : Bool) (depth : Nat)
    {xs : List (JsonString × JsonNode ν)} {entries : List (Bytes × Bytes)}
    (h : List.Forall₂ (fun x e => e.1 = 34 :: (x.1.val.flatMap escape ++ [34]) ∧
      P x.2 e.2) xs entries) :
    ∀ {w w' : Bytes}, Blank w → Blank w' → entries ≠ [] →
      Separated 44 (Member Blank P) xs (w ++ (objectText fmt depth entries ++ w')) := by
  have hindent : Blank (if fmt then tabs depth else []) := by
    cases fmt
    · exact blank_nil
    · exact blank_tabs depth
  have htab : Blank (if fmt then [9] else []) := blank_if fmt (by decide)
  have hcolon : (if fmt then [58, 9] else [58]) = 58 :: if fmt then [(9 : UInt8)] else [] := by
    cases fmt <;> rfl
  induction h with
  | nil => exact fun _ _ hne => absurd rfl hne
  | @cons x e xs entries hx hxs ih =>
    intro w w' hw hw' _
    obtain ⟨name, x⟩ := x
    obtain ⟨str, e⟩ := e
    obtain ⟨rfl, hx⟩ := hx
    have hname := stringBody_escape name.property
    -- the member, with what is behind its value
    have hmember : ∀ {w'' : Bytes}, Blank w'' →
        Member Blank P (name, x) ((w ++ if fmt then tabs depth else []) ++
        (34 :: (name.val.flatMap escape ++ 34 ::
          ([] ++ 58 :: ((if fmt then [9] else []) ++ (e ++ w'')))))) := by
      intro w'' hw''
      have hmk := Member.mk (hw.append hindent) hname blank_nil (Padded.mk htab hx hw'')
      rwa [cString_val] at hmk
    cases hxs with
    | nil =>
      have hlast := hmember ((blank_newline fmt).append hw')
      refine .one ?_
      rw [objectText, objectText, hcolon]
      simpa [newline] using hlast
    | @cons x' e' xs entries hx' hxs =>
      have hrest :=
        Separated.cons (hmember blank_nil) (ih (blank_newline fmt) hw' (List.cons_ne_nil _ _))
      rw [objectText, hcolon, if_neg (List.cons_ne_nil _ _)]
      simpa [newline] using hrest

/-- The text of an array needs no more than has been allocated. -/
theorem length_arrayText (fmt : Bool) (entries : List Bytes) :
    (arrayText fmt entries).length ≤ (entries.map fun e => e.length + 2 + fmt.toNat).sum := by
  induction entries with
  | nil => exact Nat.le_refl _
  | cons e entries ih =>
    cases entries with
    | nil =>
      simp only [arrayText, List.intercalate_singleton, List.map_cons, List.map_nil, List.sum_cons,
        List.sum_nil]
      omega
    | cons e' entries =>
      have hstep : (arrayText fmt (e :: e' :: entries)).length =
          e.length + (1 + fmt.toNat) + (arrayText fmt (e' :: entries)).length := by
        cases fmt <;> simp [arrayText, List.intercalate] <;> omega
      rw [List.map_cons, List.sum_cons, hstep]
      omega

/-- The text of an object needs no more than has been counted. -/
theorem length_objectText (fmt : Bool) (depth : Nat) (entries : List (Bytes × Bytes)) :
    (objectText fmt depth entries).length ≤
      (entries.map fun e => e.2.length + e.1.length + 2 + if fmt then 2 + depth else 0).sum := by
  induction entries with
  | nil => exact Nat.le_refl _
  | cons e entries ih =>
    obtain ⟨name, e⟩ := e
    have hcomma : (if entries = [] then [] else [(44 : UInt8)]).length ≤ 1 := by
      split <;> simp
    rw [objectText, List.map_cons, List.sum_cons]
    cases fmt <;> simp [tabs] at ih hcomma ⊢ <;> omega

/-- An array is put together, as long as the count is an `int`. -/
theorem composeArray_eq (fmt : Bool) {entries : List Bytes} (h : entries ≠ [])
    (hint : 5 + (entries.map fun e => e.length + 2 + fmt.toNat).sum ≤ maxInt) :
    composeArray fmt entries = some (91 :: (arrayText fmt entries ++ [93])) := by
  have hlen := length_arrayText fmt entries
  rw [composeArray, if_neg h]
  refine if_pos ⟨?_, hint⟩
  rw [List.length_append, List.length_cons, List.length_singleton]
  omega

/-- The text of an object with its brackets is shorter than the block. -/
theorem length_object (fmt : Bool) (depth : Nat) (entries : List (Bytes × Bytes)) :
    (123 :: (newline fmt ++ (objectText fmt (depth + 1) entries ++
      (if fmt then tabs depth else [])) ++ [125])).length <
      7 + (if fmt then depth + 1 else 0) +
        (entries.map fun e =>
          e.2.length + e.1.length + 2 + if fmt then 2 + (depth + 1) else 0).sum := by
  have hlen := length_objectText fmt (depth + 1) entries
  have hnewline : (newline fmt).length ≤ 1 := by
    cases fmt <;> decide
  have htabs : (if fmt then tabs depth else []).length = if fmt then depth else 0 := by
    cases fmt
    · rfl
    · exact List.length_replicate
  rw [List.length_cons, List.length_append, List.length_append, List.length_append, htabs,
    List.length_singleton]
  generalize (entries.map fun e =>
    e.2.length + e.1.length + 2 + if fmt then 2 + (depth + 1) else 0).sum = total at *
  split <;> omega

/-- An object is put together, as long as the count is an `int`. -/
theorem composeObject_eq (fmt : Bool) (depth : Nat) {entries : List (Bytes × Bytes)}
    (h : entries ≠ [])
    (hint : 7 + (if fmt then depth + 1 else 0) +
      (entries.map fun e =>
        e.2.length + e.1.length + 2 + if fmt then 2 + (depth + 1) else 0).sum ≤ maxInt) :
    composeObject fmt depth entries =
      some (123 :: (newline fmt ++ (objectText fmt (depth + 1) entries ++
        (if fmt then tabs depth else [])) ++ [125])) := by
  have htext : (123 :: (if fmt then [10] else []) ++ objectText fmt (depth + 1) entries ++
      (if fmt then tabs depth else []) ++ [125] : Bytes) =
      123 :: (newline fmt ++ (objectText fmt (depth + 1) entries ++
        (if fmt then tabs depth else [])) ++ [125]) := by
    simp [newline]
  rw [composeObject, if_neg h, htext]
  exact if_pos ⟨length_object fmt depth entries, hint⟩

section Print

variable {N : Numbers} {fmt : Bool} {depth : Nat}

/-- What is printed of a node is one of its texts, and shorter than what is counted for it. -/
structure Printed (N : Numbers) (fmt : Bool) (depth : Nat) (x : JsonNode N.Value)
    (t : Bytes) : Prop where
  print : printValue N fmt depth x = some t
  hasText : HasText N Blank x t
  short : t.length < printSize N fmt depth x

/-- The elements of an array are printed one by one. -/
theorem printElements_eq {xs : List (JsonNode N.Value)}
    (hint : elementsSize N fmt depth xs ≤ maxInt)
    (h : ∀ x ∈ xs, printSize N fmt depth x ≤ maxInt → ∃ t, Printed N fmt depth x t) :
    ∃ entries, printElements N fmt depth xs = some entries ∧
      List.Forall₂ (HasText N Blank) xs entries ∧
      (entries.map fun e => e.length + 2 + fmt.toNat).sum ≤ elementsSize N fmt depth xs := by
  induction xs with
  | nil => exact ⟨[], by rw [printElements], .nil, Nat.le_refl _⟩
  | cons x xs ih =>
    rw [elementsSize] at hint
    obtain ⟨t, ht⟩ := h x List.mem_cons_self (by omega)
    obtain ⟨entries, hprints, hentries, hsum⟩ :=
      ih (by omega) fun y hy => h y (List.mem_cons_of_mem _ hy)
    refine ⟨t :: entries, ?_, .cons ht.hasText hentries, ?_⟩
    · rw [printElements, ht.print, Option.bind_some, hprints, Option.map_some]
    · have hshort := ht.short
      rw [List.map_cons, List.sum_cons, elementsSize]
      omega

/-- The members of an object are printed one by one. -/
theorem printMembers_eq {xs : List (JsonString × JsonNode N.Value)}
    (hint : membersSize N fmt depth xs ≤ maxInt)
    (h : ∀ x ∈ xs, printSize N fmt depth x.2 ≤ maxInt → ∃ t, Printed N fmt depth x.2 t) :
    ∃ entries, printMembers N fmt depth xs = some entries ∧
      List.Forall₂ (fun x e => e.1 = 34 :: (x.1.val.flatMap escape ++ [34]) ∧
        HasText N Blank x.2 e.2) xs entries ∧
      (entries.map fun e => e.2.length + e.1.length + 2 + if fmt then 2 + depth else 0).sum ≤
        membersSize N fmt depth xs := by
  induction xs with
  | nil => exact ⟨[], by rw [printMembers], .nil, Nat.le_refl _⟩
  | cons x xs ih =>
    obtain ⟨name, x⟩ := x
    rw [membersSize, memberSize] at hint
    obtain ⟨t, ht⟩ := h (name, x) List.mem_cons_self (by dsimp only; omega)
    obtain ⟨entries, hprints, hentries, hsum⟩ :=
      ih (by omega) fun y hy => h y (List.mem_cons_of_mem _ hy)
    refine ⟨(34 :: (name.val.flatMap escape ++ [34]), t) :: entries, ?_,
      .cons ⟨rfl, ht.hasText⟩ hentries, ?_⟩
    · rw [printMembers, printMember, printString_eq name (by omega), Option.bind_some, ht.print,
        Option.map_some, Option.bind_some, hprints, Option.map_some]
    · have hshort := ht.short
      dsimp only at hshort
      rw [List.map_cons, List.sum_cons, membersSize, memberSize, length_quoted]
      dsimp only
      omega

end Print

/-- The node is printed, if what is counted for it is an `int`. -/
theorem printValue_hasText (N : Numbers) (fmt : Bool) (x : JsonNode N.Value) :
    x.Exact N → ∀ depth : Nat, printSize N fmt depth x ≤ maxInt → ∃ t, Printed N fmt depth x t := by
  induction x using JsonNode.ind with
  | null => exact fun _ depth _ => ⟨nullText, by rw [printValue], .null, by rw [printSize]; decide⟩
  | false =>
    exact fun _ depth _ => ⟨falseText, by rw [printValue], .false, by rw [printSize]; decide⟩
  | true => exact fun _ depth _ => ⟨trueText, by rw [printValue], .true, by rw [printSize]; decide⟩
  | number x =>
    intro h depth _
    cases h with
    | number h =>
      obtain ⟨n, hn, htext, rfl⟩ := h
      refine ⟨N.text (N.value n), by rw [printValue], ?_,
        by rw [printSize]; exact Nat.lt_succ_self _⟩
      rw [← htext]
      exact .number hn
  | string s =>
    intro _ depth hint
    rw [printSize] at hint
    refine ⟨_, by rw [printValue, printString_eq s hint], ?_, ?_⟩
    · have htext := HasText.string (N := N) (W := Blank) (stringBody_escape s.property)
      rwa [cString_val] at htext
    · rw [length_quoted, printSize]
      exact Nat.lt_succ_self _
  | array xs ih =>
    intro h depth hint
    cases h with
    | array h =>
      rw [printSize] at hint
      obtain ⟨entries, hprint, hentries, hsum⟩ :=
        printElements_eq (by omega) fun x hx => ih x hx (h x hx) (depth + 1)
      -- an array without elements has a branch of its own in `print_array`
      by_cases hne : entries = []
      · subst hne
        cases hentries
        refine ⟨[91, 93], ?_, .noElements blank_nil, ?_⟩
        · rw [printValue, hprint, Option.bind_some]
          rfl
        · rw [printSize, elementsSize]
          decide
      · have hlen := length_arrayText fmt entries
        refine ⟨_, ?_, .array (separated_arrayText fmt hentries blank_nil hne), ?_⟩
        · rw [printValue, hprint, Option.bind_some]
          exact composeArray_eq fmt hne (by omega)
        · rw [printSize, List.nil_append, List.length_cons, List.length_append,
            List.length_singleton]
          omega
  | object xs ih =>
    intro h depth hint
    cases h with
    | object h =>
      rw [printSize] at hint
      obtain ⟨entries, hprint, hentries, hsum⟩ :=
        printMembers_eq (by omega) fun x hx => ih x hx (h x hx) (depth + 1)
      have hend : Blank (if fmt then tabs depth else []) := by
        cases fmt
        · exact blank_nil
        · exact blank_tabs depth
      -- and so has an object without members in `print_object`
      by_cases hne : entries = []
      · subst hne
        cases hentries
        have hshort : (123 :: ((if fmt then 10 :: tabs (depth - 1) else []) ++ [125])).length <
            if fmt then depth + 4 else 3 := by
          cases fmt
          · exact Nat.lt_succ_self 2
          · simp only [if_true, List.length_append, List.length_cons, tabs, List.length_replicate,
              List.length_nil]
            omega
        have hsize : (if fmt then depth + 4 else 3) ≤ 7 + if fmt then depth + 1 else 0 := by
          split <;> omega
        refine ⟨123 :: ((if fmt then 10 :: tabs (depth - 1) else []) ++ [125]), ?_,
          .noMembers ?_, ?_⟩
        · rw [printValue, hprint, Option.bind_some]
          exact (if_pos rfl).trans (if_pos ⟨hshort, by omega⟩)
        · cases fmt
          · exact blank_nil
          · exact (blank_newline true).append (blank_tabs (depth - 1))
        · rw [printSize, membersSize]
          exact Nat.lt_of_lt_of_le hshort hsize
      · have hlen := length_object fmt depth entries
        refine ⟨_, ?_, .object (separated_objectText fmt (depth + 1) hentries
          (blank_newline fmt) hend hne), ?_⟩
        · rw [printValue, hprint, Option.bind_some]
          exact composeObject_eq fmt depth hne (by omega)
        · rw [printSize]
          omega

/-! ## A text as a string of C -/

/-- The body of a string has no zero in it. -/
theorem StringBody.no_zero {b s : Bytes} (h : StringBody b s) : 0 ∉ b := by
  have hhex : ∀ {hs : Bytes}, Hex4 hs → 0 ∉ hs :=
    fun hhs hmem => (hex_char (hhs.2 0 hmem)).2.2.1 rfl
  induction h with
  | nil => exact List.not_mem_nil
  | char _ _ hzero _ ih => simp [Ne.symm hzero, ih]
  | escape _ hzero _ ih => simp [Ne.symm hzero, ih]
  | code hhs _ _ ih | alone hhs _ _ _ ih => simp [hhex hhs, ih]
  | pair hhs _ hhs2 _ ih => simp [hhex hhs, hhex hhs2, ih]

/-- The text of a number has only characters of numbers. -/
theorem Numeral.Ok.inNumber {n : Numeral} (h : n.Ok) :
    ∀ c ∈ n.text, LibShare.Json.inNumber c = true := by
  have hdigit : ∀ {c : UInt8}, isDigit c = true → LibShare.Json.inNumber c = true :=
    fun hc => by simp [LibShare.Json.inNumber, hc]
  obtain ⟨neg, zero, whole, frac, exp⟩ := n
  obtain ⟨-, hwhole, -, hfrac, hexp⟩ := h
  intro c hc
  simp only [Numeral.text, List.mem_append] at hc
  rcases hc with hc | hc | hc | hc | hc
  · cases neg
    · cases hc
    · obtain rfl := List.mem_singleton.mp hc
      rfl
  · cases zero
    · cases hc
    · obtain rfl := List.mem_singleton.mp hc
      rfl
  · exact hdigit (hwhole c hc)
  · split at hc
    · cases hc
    · rcases List.mem_cons.mp hc with rfl | hc
      · rfl
      · exact hdigit (hfrac c hc)
  · cases exp with
    | none => cases hc
    | some e =>
      obtain ⟨mark, sign, digits⟩ := e
      obtain ⟨hmark, hsign, hds⟩ := hexp mark sign digits rfl
      rw [Option.elim_some, List.mem_cons, List.mem_append] at hc
      rcases hc with rfl | hc | hc
      · rcases hmark with rfl | rfl <;> rfl
      · rcases hsign c (Option.mem_toList.mp hc) with rfl | rfl <;> rfl
      · exact hdigit (hds c hc)

theorem Numeral.Ok.no_zero {n : Numeral} (h : n.Ok) : 0 ∉ n.text :=
  fun hmem => absurd (h.inNumber 0 hmem) (by decide)

theorem Blank.no_zero {w : Bytes} (h : Blank w) : 0 ∉ w := fun hmem => (h 0 hmem).1 rfl

/-- The terminator is behind the text. -/
theorem HasText.no_zero {N : Numbers} (x : JsonNode N.Value) :
    ∀ {t : Bytes}, HasText N Blank x t → 0 ∉ t := by
  have hpadded : ∀ {x : JsonNode N.Value} {t : Bytes},
      (∀ {t : Bytes}, HasText N Blank x t → 0 ∉ t) →
      Padded Blank (HasText N Blank) x t → 0 ∉ t := by
    rintro x _ hx ⟨hw, h, hw'⟩
    simp [hw.no_zero, hw'.no_zero, hx h]
  induction x using JsonNode.ind with
  | null | false | true =>
    intro t h
    cases h
    decide
  | number x =>
    intro t h
    cases h with
    | number h => exact h.no_zero
  | string s =>
    intro t h
    cases h with
    | string h => simp [h.no_zero]
  | array xs ih =>
    intro t h
    cases h with
    | noElements hw => simp [hw.no_zero]
    | array h =>
      simp only [List.mem_cons, List.mem_append, List.not_mem_nil, or_false, not_or]
      refine ⟨by decide, fun hmem => ?_, by decide⟩
      obtain hsep | ⟨x, hx, t', ht', hmem'⟩ := h.mem hmem
      · exact absurd hsep (by decide)
      · exact hpadded (ih x hx) ht' hmem'
  | object xs ih =>
    intro t h
    cases h with
    | noMembers hw => simp [hw.no_zero]
    | object h =>
      simp only [List.mem_cons, List.mem_append, List.not_mem_nil, or_false, not_or]
      refine ⟨by decide, fun hmem => ?_, by decide⟩
      obtain hsep | ⟨x, hx, t', ht', hmem'⟩ := h.mem hmem
      · exact absurd hsep (by decide)
      · obtain ⟨hw, hname, hw', h⟩ := ht'
        have hvalue := hpadded (ih _ hx) h
        simp [hw.no_zero, hname.no_zero, hw'.no_zero, hvalue] at hmem'

/-! ## There and back -/

/-- A text with blanks around it is read as what it is the text of. -/
theorem parseWithOpts_eq {N : Numbers} {x : JsonNode N.Value} {w t w' : Bytes} (hw : Blank w)
    (h : HasText N Blank x t)
    (hw' : Blank w') (hint : t.length ≤ maxInt) (rest : Bytes) :
    parseWithOpts N true (w ++ (t ++ (w' ++ 0 :: rest))) = .ok (x, 0 :: rest) ∧
      parseWithOpts N false (w ++ (t ++ (w' ++ 0 :: rest))) = .ok (x, w' ++ 0 :: rest) := by
  obtain ⟨c, m, htext, hc, -⟩ := h.first
  have hstops : Stops (0 :: rest) := stops_cons (by decide) rest
  have hskip : skip (w ++ (t ++ (w' ++ 0 :: rest))) = .ok (t ++ (w' ++ 0 :: rest)) := by
    rw [htext, List.cons_append]
    exact skip_eq hw (.inr hc) _
  have hvalue :=
    parseValue_eq N x h (n := (t ++ (w' ++ 0 :: rest)).length)
      (by rw [List.length_append]; omega) hint
    (hw'.ends hstops)
  refine ⟨?_, ?_⟩
  · rw [parseWithOpts]
    simp only [hskip, hvalue, skip_stops hw' hstops, bind, Except.bind, pure, Except.pure, if_true,
      List.head?_cons]
  · rw [parseWithOpts]
    simp only [hskip, hvalue, bind, Except.bind, pure, Except.pure]
    rfl

/-- A node is printed, in both formats, to a text that is parsed to it. -/
theorem parse_shjsonPrint (N : Numbers) (fmt requireNullTerminated : Bool) {item : JsonNode N.Value}
    (h : item.Exact N)
    (hint : printSize N fmt 0 item ≤ maxInt) :
    ∃ text, shjsonPrint N fmt item = some text ∧ 0 ∉ text ∧ text.length < printSize N fmt 0 item ∧
      parseWithOpts N requireNullTerminated (text ++ [0]) = .ok (item, [0]) := by
  obtain ⟨t, ht⟩ := printValue_hasText N fmt item h 0 hint
  have hshort := ht.short
  obtain ⟨hwhole, hpart⟩ := parseWithOpts_eq blank_nil ht.hasText blank_nil (by omega) []
  refine ⟨t, ht.print, HasText.no_zero item ht.hasText, hshort, ?_⟩
  cases requireNullTerminated
  · exact hpart
  · exact hwhole

/-- Numbers of which each is printed with its digits. -/
def wholeNumbers : Numbers where
  Value := Nat
  text n := (Nat.toDigits 10 n).map fun c => UInt8.ofNat c.toNat
  value n := n.whole.foldl (fun k c => 10 * k + (c.toNat - 48)) 0

/-- `{"a\n": [12, null]}` -/
def pairItem : JsonNode wholeNumbers.Value :=
  .object [(cString [97, 10], .array [.number (12 : Nat), .null])]

/-- It takes 49 bytes at most, in lines. -/
theorem parse_print_pairItem :
    ∃ text, shjsonPrint wholeNumbers true pairItem = some text ∧ 0 ∉ text ∧
      text.length < printSize wholeNumbers true 0 pairItem ∧
    parseWithOpts wholeNumbers true (text ++ [0]) = .ok (pairItem, [0]) := by
  refine parse_shjsonPrint wholeNumbers true true (.object ?_) (by decide)
  intro x hx
  obtain rfl := List.mem_singleton.mp hx
  refine .array fun y hy => ?_
  rcases List.mem_cons.mp hy with rfl | hy
  · have hok :
        Numeral.Ok { neg := false, zero := false, whole := [49, 50], frac := [], exp := none } :=
      ⟨by simp, by simp [isDigit], by simp, by simp, by simp⟩
    exact .number ⟨_, hok, rfl, rfl⟩
  · obtain rfl := List.mem_singleton.mp hy
    exact .null

end LibShare.Json
