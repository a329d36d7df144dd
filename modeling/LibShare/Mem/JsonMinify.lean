import LibShare.Mem.JsonAccept

/-!
# libshare — what `shjson_Minify` leaves of a text

* `shjsonMinify_hasText` — a text with spaces and comments is left as a text of the same node.
  Nothing is left in it that a second call would take out, and the parser reads it.

`skip` skips every control character, and `shjson_Minify` only four of them. The others stay where
they are (`Kept`).
-/

namespace LibShare.Json

/-- What `shjson_Minify` takes for a space. -/
abbrev isSpace (c : UInt8) : Prop := c = 32 ∨ c = 9 ∨ c = 13 ∨ c = 10

/-- Blanks and comments. -/
inductive Spaces : Bytes → Prop
  | nil : Spaces []
  | blank {c : UInt8} {w : Bytes} (hc : c ≠ 0 ∧ c ≤ 32) (h : Spaces w) : Spaces (c :: w)
  | line {r w : Bytes} (hr : ∀ c ∈ r, c ≠ 0 ∧ c ≠ 10) (h : Spaces w) :
      Spaces (47 :: 47 :: (r ++ 10 :: w))
  | comment {r w : Bytes} (hzero : 0 ∉ r) (hend : ¬ [42, 47] <:+: 42 :: (r ++ [42]))
      (h : Spaces w) :
      Spaces (47 :: 42 :: (r ++ 42 :: 47 :: w))

/-- Blanks that are no spaces. -/
def Kept (w : Bytes) : Prop := ∀ c ∈ w, (c ≠ 0 ∧ c ≤ 32) ∧ ¬ isSpace c

/-! ## The loop without its fuel -/

/-- A comment that is dropped makes the text no longer. -/
theorem length_dropComment (m : Bytes) : (dropComment m).length ≤ m.length := by
  induction m with
  | nil => exact Nat.le_refl _
  | cons c m ih =>
    rw [dropComment]
    split
    · exact Nat.le_refl _
    · exact Nat.le_succ_of_le ih

/-- A string that is copied has been read. -/
theorem length_copyString {m : Bytes} {p : Bytes × Bytes} (h : copyString m = some p) :
    p.2.length < m.length := by
  fun_induction copyString m generalizing p with
  | case1 => cases h
  | case2 c m hc =>
    cases h
    exact Nat.lt_succ_self _
  | case3 => cases h
  | case4 d m hc ih =>
    obtain ⟨q, hq, rfl⟩ := Option.map_eq_some_iff.mp h
    have hlen := ih hq
    exact Nat.lt_succ_of_lt (Nat.lt_succ_of_lt hlen)
  | case5 c m hc hesc ih =>
    obtain ⟨q, hq, rfl⟩ := Option.map_eq_some_iff.mp h
    have hlen := ih hq
    exact Nat.lt_succ_of_lt hlen

/-- More passes than characters change nothing. -/
theorem minifyLoop_eq :
    ∀ {n : Nat} {m : Bytes}, m.length ≤ n → minifyLoop n m = shjsonMinify m := by
  intro n
  induction n using Nat.strong_induction_on with
  | h n ih =>
    intro m hn
    cases m with
    | nil => cases n <;> rfl
    | cons c m =>
      rw [List.length_cons] at hn
      obtain ⟨n, rfl⟩ : ∃ k, n = k + 1 := ⟨n - 1, by omega⟩
      -- what is left after a turn is no longer than `m`
      have hrest : ∀ {m' : Bytes}, m'.length ≤ m.length →
          minifyLoop n m' = minifyLoop m.length m' := by
        intro m' hm'
        rw [ih n (Nat.lt_succ_self n) (by omega)]
        by_cases hnm : m.length = n
        · rw [hnm, ih n (Nat.lt_succ_self n) (by omega)]
        · exact (ih m.length (by omega) hm').symm
      have hline : c = 47 → ((c :: m).dropWhile fun d => decide (d ≠ 0 ∧ d ≠ 10)).length ≤
          m.length := by
        rintro rfl
        rw [List.dropWhile_cons_of_pos (by decide)]
        exact (List.dropWhile_sublist _).length_le
      have hcomment : ((dropComment (c :: m)).drop 2).length ≤ m.length := by
        have hlen := length_dropComment (c :: m)
        rw [List.length_cons] at hlen
        rw [List.length_drop]
        omega
      have hstring : (copyString m).bind (fun p => (minifyLoop n p.2).map fun out =>
        c :: p.1 ++ out) =
          (copyString m).bind fun p => (minifyLoop m.length p.2).map fun out =>
            c :: p.1 ++ out := by
        cases hp : copyString m with
        | none => rfl
        | some p =>
          rw [Option.bind_some, Option.bind_some, hrest (Nat.le_of_lt (length_copyString hp))]
      rw [shjsonMinify, List.length_cons, minifyLoop, minifyLoop, hrest (Nat.le_refl _),
        hrest hcomment, hstring]
      split
      · rfl
      split
      · rfl
      split
      · rfl
      split
      · next h => rw [hrest (hline h.1)]
      · rfl

/-! ## What is left of the parts of a text -/

/-- `t'` is left of `t`, whatever is behind it. -/
def Minifies (t t' : Bytes) : Prop := ∀ m, shjsonMinify (t ++ m) = (shjsonMinify m).map (t' ++ ·)

theorem minifies_nil : Minifies [] [] := by
  intro m
  rw [List.nil_append]
  exact Option.map_id'.symm

/-- Two texts are minified one after the other. -/
theorem Minifies.append {t t' u u' : Bytes} (h : Minifies t t') (h' : Minifies u u') :
    Minifies (t ++ u) (t' ++ u') := by
  intro m
  rw [List.append_assoc, h, h', Option.map_map]
  congr 1
  funext out
  exact (List.append_assoc _ _ _).symm

/-- A character that stays where it is. -/
def Plain (c : UInt8) : Prop := c ≠ 0 ∧ ¬ isSpace c ∧ c ≠ 47 ∧ c ≠ 34

/-- A plain character is kept. -/
theorem minifies_plain {c : UInt8} (h : Plain c) : Minifies [c] [c] := by
  intro m
  obtain ⟨hzero, hspace, hslash, hmark⟩ := h
  rw [List.singleton_append, shjsonMinify, List.length_cons, minifyLoop, if_neg hzero,
    if_neg hspace, if_neg fun h => hslash h.1, if_neg fun h => hslash h.1, if_neg fun h =>
      hslash h.1, if_neg hmark]
  rfl

/-- A plain character in front is kept. -/
theorem Minifies.cons {c : UInt8} {t t' : Bytes} (hc : Plain c) (h : Minifies t t') :
    Minifies (c :: t) (c :: t') :=
  (minifies_plain hc).append h

/-- Plain characters are kept. -/
theorem minifies_run : ∀ {t : Bytes}, (∀ c ∈ t, Plain c) → Minifies t t := by
  intro t
  induction t with
  | nil => exact fun _ => minifies_nil
  | cons c t ih =>
    exact fun h => .cons (h c List.mem_cons_self) (ih fun d hd => h d (List.mem_cons_of_mem _ hd))

/-- A space is dropped. -/
theorem minifies_space {c : UInt8} (h : isSpace c) : Minifies [c] [] := by
  intro m
  have hzero : c ≠ 0 := by
    rintro rfl
    revert h
    simp [isSpace]
  rw [List.singleton_append, shjsonMinify, List.length_cons, minifyLoop, if_neg hzero, if_pos h]
  exact Option.map_id'.symm

/-- A comment up to the end of the line is dropped. -/
theorem minifies_line {r : Bytes} (hr : ∀ c ∈ r, c ≠ 0 ∧ c ≠ 10) :
    Minifies (47 :: 47 :: (r ++ [10])) [] := by
  intro m
  have hdrop : (47 :: 47 :: (r ++ 10 :: m)).dropWhile (fun d => decide (d ≠ 0 ∧ d ≠ 10)) =
      10 :: m := by
    rw [List.dropWhile_cons_of_pos (by decide), List.dropWhile_cons_of_pos (by decide),
      List.dropWhile_append_of_pos fun d hd =>
        decide_eq_true (hr d hd), List.dropWhile_cons_of_neg (by decide)]
  have hend : shjsonMinify (10 :: m) = shjsonMinify m := by
    simpa using minifies_space (.inr (.inr (.inr rfl))) m
  rw [List.cons_append, List.cons_append, List.append_assoc, List.singleton_append, shjsonMinify,
    List.length_cons, minifyLoop, if_neg (by decide), if_neg (by decide), if_neg (by simp),
      if_pos ⟨rfl, rfl⟩, hdrop,
    minifyLoop_eq (by simp; omega), hend]
  exact Option.map_id'.symm

/-- A comment ends at its first end. -/
theorem dropComment_eq (m : Bytes) : ∀ {r : Bytes}, 0 ∉ r → ¬ [42, 47] <:+: r ++ [42] →
    dropComment (r ++ 42 :: 47 :: m) = 42 :: 47 :: m := by
  intro r
  induction r with
  | nil => exact fun _ _ => if_pos (.inr ⟨rfl, rfl⟩)
  | cons c r ih =>
    intro hzero hend
    rw [List.mem_cons, not_or] at hzero
    rw [List.cons_append, dropComment, if_neg]
    · exact ih hzero.2 fun hin => hend (List.infix_cons hin)
    · rintro (rfl | ⟨rfl, hhead⟩)
      · exact hzero.1 rfl
      · -- the comment would end here
        refine hend (List.IsPrefix.isInfix ?_)
        cases r with
        | nil => exact absurd hhead (by simp)
        | cons d r =>
          cases hhead
          exact ⟨r ++ [42], rfl⟩

/-- A comment between its marks is dropped. -/
theorem minifies_comment {r : Bytes} (hzero : 0 ∉ r) (hend : ¬ [42, 47] <:+: 42 :: (r ++ [42])) :
    Minifies (47 :: 42 :: (r ++ [42, 47])) [] := by
  intro m
  have hdrop : dropComment (47 :: 42 :: (r ++ 42 :: 47 :: m)) = 42 :: 47 :: m := by
    rw [dropComment, if_neg (by simp)]
    exact dropComment_eq m (r := 42 :: r) (by simpa using hzero) hend
  rw [List.cons_append, List.cons_append, List.append_assoc, List.cons_append, List.cons_append,
    List.nil_append, shjsonMinify, List.length_cons, minifyLoop, if_neg (by decide),
      if_neg (by decide), if_neg (by simp), if_neg (by simp),
    if_pos ⟨rfl, rfl⟩, hdrop, List.drop_succ_cons, List.drop_succ_cons, List.drop_zero,
      minifyLoop_eq (by simp; omega)]
  exact Option.map_id'.symm

/-- An ordinary character of a string is copied. -/
theorem copyString_cons {c : UInt8} (hend : ¬ (c = 0 ∨ c = 34)) (hesc : c ≠ 92) (m : Bytes) :
    copyString (c :: m) = (copyString m).map fun p => (c :: p.1, p.2) := by
  rw [copyString.eq_def]
  dsimp only
  rw [if_neg hend, if_neg hesc]

/-- An escape of a string is copied with what is behind the backslash. -/
theorem copyString_escape (d : UInt8) (m : Bytes) :
    copyString (92 :: d :: m) = (copyString m).map fun p => (92 :: d :: p.1, p.2) := by
  rw [copyString.eq_def]
  rfl

/-- A string is copied to its mark. -/
theorem copyString_body (rest : Bytes) {b s : Bytes} (h : StringBody b s) :
    copyString (b ++ 34 :: rest) = some (b ++ [34], rest) := by
  have hhex : ∀ (hs m out rest : Bytes), (∀ c ∈ hs, (hexValue c).isSome) →
      copyString m = some (out, rest) →
      copyString (hs ++ m) = some (hs ++ out, rest) := by
    intro hs m out rest hall hm
    induction hs with
    | nil => exact hm
    | cons c hs ih =>
      obtain ⟨hmark, hesc, hzero, -⟩ := hex_char (hall c List.mem_cons_self)
      rw [List.cons_append, copyString_cons (not_or.mpr ⟨hzero, hmark⟩) hesc, ih fun d hd =>
        hall d (List.mem_cons_of_mem _ hd)]
      rfl
  induction h with
  | nil =>
    rw [List.nil_append, copyString.eq_def]
    exact if_pos (.inr rfl)
  | char hmark hesc hzero _ ih =>
    rw [List.cons_append, copyString_cons (not_or.mpr ⟨hzero, hmark⟩) hesc, ih]
    rfl
  | escape _ _ _ ih =>
    rw [List.cons_append, List.cons_append, copyString_escape, ih]
    rfl
  | @code hs b s hhs _ _ ih | @alone hs b s hhs _ _ _ ih =>
    rw [List.cons_append, List.cons_append, copyString_escape, List.append_assoc,
      hhex hs _ _ _ hhs.2 ih]
    simp
  | @pair hs hs2 b s hhs _ hhs2 _ ih =>
    rw [List.cons_append, List.cons_append, copyString_escape, List.append_assoc, List.cons_append,
      List.cons_append, List.append_assoc, hhex hs _ _ _ hhs.2
        (by rw [copyString_escape, hhex hs2 _ _ _ hhs2.2 ih]; rfl)]
    simp

/-- A string is kept as it is. -/
theorem minifies_string {b s : Bytes} (h : StringBody b s) :
    Minifies (34 :: (b ++ [34])) (34 :: (b ++ [34])) := by
  intro m
  have hcopy := copyString_body m h
  rw [List.cons_append, List.append_assoc, List.singleton_append, shjsonMinify,
    List.length_cons, minifyLoop, if_neg (by decide), if_neg (by decide), if_neg (by simp),
      if_neg (by simp), if_neg (by simp), if_pos rfl, hcopy,
    Option.bind_some, minifyLoop_eq (by simp; omega)]

/-! ## What is left of a node -/

/-- The characters of a number are plain. -/
theorem plain_of_inNumber {c : UInt8} (h : inNumber c = true) : Plain c := by
  refine ⟨?_, ?_, ?_, ?_⟩
  · rintro rfl
    cases h
  · rintro (rfl | rfl | rfl | rfl) <;> cases h
  · rintro rfl
    cases h
  · rintro rfl
    cases h

section Related

variable {N : Numbers} {W V : Bytes → Prop} {R : Bytes → Bytes → Prop}

/-- Texts of a node that differ in their blanks only, by a relation that is kept where texts are put
together. -/
theorem HasText.related (happend : ∀ {t t' u u'}, R t t' → R u u' → R (t ++ u) (t' ++ u'))
    (hplain : ∀ {t}, (∀ c ∈ t, Plain c) → R t t)
    (hstring : ∀ {b s}, StringBody b s → R (34 :: (b ++ [34])) (34 :: (b ++ [34])))
    (hblank : ∀ {w}, W w → ∃ w', R w w' ∧ V w') (x : JsonNode N.Value) :
    ∀ {t}, HasText N W x t → ∃ t', R t t' ∧ HasText N V x t' := by
  have hcons : ∀ {c : UInt8} {t t'}, Plain c → R t t' → R (c :: t) (c :: t') := fun hc h =>
    happend (t := [_]) (hplain fun d hd => List.mem_singleton.mp hd ▸ hc) h
  have hsep : ∀ t t' u u', R t t' → R u u' → R (t ++ 44 :: u) (t' ++ 44 :: u') :=
    fun _ _ _ _ h h' =>
    happend h (hcons (by simp [Plain]) h')
  -- a text between brackets
  have hbrackets : ∀ {c d : UInt8} {t t'}, Plain c → Plain d → R t t' →
      R (c :: (t ++ [d])) (c :: (t' ++ [d])) := fun hc hd h =>
    hcons hc (happend h (hplain fun e he => List.mem_singleton.mp he ▸ hd))
  have hpadded : ∀ {x : JsonNode N.Value},
      (∀ {t}, HasText N W x t → ∃ t', R t t' ∧ HasText N V x t') →
      ∀ t, Padded W (HasText N W) x t → ∃ t', R t t' ∧ Padded V (HasText N V) x t' := by
    rintro x hx _ ⟨hw, h, hw'⟩
    obtain ⟨w₁, hR₁, hW₁⟩ := hblank hw
    obtain ⟨t', hR, ht'⟩ := hx h
    obtain ⟨w₂, hR₂, hW₂⟩ := hblank hw'
    exact ⟨_, happend hR₁ (happend hR hR₂), .mk hW₁ ht' hW₂⟩
  have hmember : ∀ {x : JsonString × JsonNode N.Value},
      (∀ {t}, HasText N W x.2 t → ∃ t', R t t' ∧ HasText N V x.2 t') →
      ∀ t, Member W (HasText N W) x t → ∃ t', R t t' ∧ Member V (HasText N V) x t' := by
    rintro _ hx _ @⟨w, b, s, w', t, x, hw, hname, hw', h⟩
    obtain ⟨w₁, hR₁, hW₁⟩ := hblank hw
    obtain ⟨w₂, hR₂, hW₂⟩ := hblank hw'
    obtain ⟨t', hR, ht'⟩ := hpadded hx _ h
    refine ⟨_, ?_, .mk hW₁ hname hW₂ ht'⟩
    have hall :=
      happend hR₁ (happend (hstring hname) (happend hR₂ (hcons (c := 58) (by simp [Plain]) hR)))
    simpa using hall
  induction x using JsonNode.ind with
  | null =>
    intro t h
    cases h
    exact ⟨_, hplain (by simp [nullText, Plain]), .null⟩
  | false =>
    intro t h
    cases h
    exact ⟨_, hplain (by simp [falseText, Plain]), .false⟩
  | true =>
    intro t h
    cases h
    exact ⟨_, hplain (by simp [trueText, Plain]), .true⟩
  | number x =>
    intro t h
    cases h with
    | number h => exact ⟨_, hplain fun c hc => plain_of_inNumber (h.inNumber c hc), .number h⟩
  | string s =>
    intro t h
    cases h with
    | string h => exact ⟨_, hstring h, .string h⟩
  | array xs ih =>
    intro t h
    cases h with
    | noElements hw =>
      obtain ⟨w', hR, hW⟩ := hblank hw
      exact ⟨_, hbrackets (by simp [Plain]) (by simp [Plain]) hR, .noElements hW⟩
    | array h =>
      obtain ⟨t', hR, ht'⟩ := h.related hsep fun x hx => hpadded (ih x hx)
      exact ⟨_, hbrackets (by simp [Plain]) (by simp [Plain]) hR, .array ht'⟩
  | object xs ih =>
    intro t h
    cases h with
    | noMembers hw =>
      obtain ⟨w', hR, hW⟩ := hblank hw
      exact ⟨_, hbrackets (by simp [Plain]) (by simp [Plain]) hR, .noMembers hW⟩
    | object h =>
      obtain ⟨t', hR, ht'⟩ := h.related hsep fun x hx => hmember (ih x hx)
      exact ⟨_, hbrackets (by simp [Plain]) (by simp [Plain]) hR, .object ht'⟩

end Related

/-- With another kind of blanks. -/
theorem HasText.mono {N : Numbers} {W V : Bytes → Prop} (h : ∀ w, W w → V w)
    {x : JsonNode N.Value} {t : Bytes}
    (ht : HasText N W x t) : HasText N V x t := by
  obtain ⟨_, rfl, ht'⟩ :=
    HasText.related (R := Eq) (V := V) (fun h h' => h ▸ h' ▸ rfl) (fun _ => rfl) (fun _ => rfl)
    (fun {w} hw => ⟨w, rfl, h w hw⟩) x ht
  exact ht'

/-- What is left of a text, of which nothing more can be taken out. -/
structure Reduces (t t' : Bytes) : Prop where
  minifies : Minifies t t'
  again : Minifies t' t'
  length : t'.length ≤ t.length

/-- Two texts are reduced one after the other. -/
theorem Reduces.append {t t' u u' : Bytes} (h : Reduces t t') (h' : Reduces u u') :
    Reduces (t ++ u) (t' ++ u') where
  minifies := h.minifies.append h'.minifies
  again := h.again.append h'.again
  length := by
    rw [List.length_append, List.length_append]
    exact Nat.add_le_add h.length h'.length

theorem reduces_self {t : Bytes} (h : Minifies t t) : Reduces t t := ⟨h, h, Nat.le_refl _⟩

theorem reduces_nil {t : Bytes} (h : Minifies t []) : Reduces t [] :=
  ⟨h, minifies_nil, Nat.zero_le _⟩

/-- Spaces are reduced to those that are kept. -/
theorem reduces_spaces {w : Bytes} (h : Spaces w) : ∃ w', Reduces w w' ∧ Kept w' := by
  have hcut : ∀ {u v : Bytes}, Minifies u [] → (∃ v', Reduces v v' ∧ Kept v') →
      ∃ w', Reduces (u ++ v) w' ∧ Kept w' := by
    rintro u v hu ⟨v', hv, hkept⟩
    exact ⟨v', (reduces_nil hu).append hv, hkept⟩
  induction h with
  | nil => exact ⟨[], reduces_self minifies_nil, fun _ hc => by cases hc⟩
  | @blank c w hc _ ih =>
    by_cases hspace : isSpace c
    · exact hcut (minifies_space hspace) ih
    · obtain ⟨w', hw, hkept⟩ := ih
      have hplain : Plain c := by
        refine ⟨hc.1, hspace, ?_, ?_⟩ <;> rintro rfl <;> exact absurd hc.2 (by decide)
      exact ⟨c :: w', (reduces_self (minifies_plain hplain)).append hw,
        List.forall_mem_cons.mpr ⟨⟨hc, hspace⟩, hkept⟩⟩
  | @line r w hr _ ih => simpa using hcut (minifies_line hr) ih
  | @comment r w hzero hend _ ih => simpa using hcut (minifies_comment hzero hend) ih

/-- What is left of a text of a node is a text of the node, and nothing of it is taken out by a
second call. The parser reads the node from it, if its length is an `int`. -/
theorem shjsonMinify_hasText (N : Numbers) {x : JsonNode N.Value} {t : Bytes}
    (h : Padded Spaces (HasText N Spaces) x t) :
    ∃ t', shjsonMinify (t ++ [0]) = some t' ∧ t'.length ≤ t.length ∧
      Padded Kept (HasText N Kept) x t' ∧ shjsonMinify (t' ++ [0]) = some t' ∧
      (t'.length ≤ maxInt → parseWithOpts N true (t' ++ [0]) = .ok (x, [0])) := by
  obtain ⟨hw, h, hw'⟩ := h
  -- the text is minified part by part: blanks, the value, blanks
  obtain ⟨w₁, hR₁, hW₁⟩ := reduces_spaces hw
  obtain ⟨w₂, hR₂, hW₂⟩ := reduces_spaces hw'
  obtain ⟨t', hR, ht'⟩ :=
    HasText.related (V := Kept) Reduces.append (fun h => reduces_self (minifies_run h))
    (fun h => reduces_self (minifies_string h)) reduces_spaces x h
  have hall := hR₁.append (hR.append hR₂)
  have hend : shjsonMinify [0] = some [] := rfl
  have hblank : ∀ w, Kept w → Blank w := fun w hw c hc => (hw c hc).1
  refine ⟨w₁ ++ (t' ++ w₂), ?_, hall.length, .mk hW₁ ht' hW₂, ?_, fun hint => ?_⟩
  · rw [hall.minifies, hend, Option.map_some, List.append_nil]
  · rw [hall.again, hend, Option.map_some, List.append_nil]
  · rw [List.length_append, List.length_append] at hint
    have hparse :=
      (parseWithOpts_eq (hblank w₁ hW₁) (ht'.mono hblank) (hblank w₂ hW₂) (by omega) []).1
    rwa [List.append_assoc, List.append_assoc]

/-- `[ null ]`, with a comment in front of it and behind it -/
def remarkText : Bytes :=
  [47, 42, 42, 47] ++ (91 :: ([32] ++ (nullText ++ [32]) ++ [93]) ++ [47, 47, 10])

/-- An array with a comment in it. -/
theorem minify_remarkText :
    ∃ t', shjsonMinify (remarkText ++ [0]) = some t' ∧ t'.length ≤ remarkText.length ∧
      Padded Kept (HasText wholeNumbers Kept) (.array [.null]) t' ∧
      shjsonMinify (t' ++ [0]) = some t' ∧
    parseWithOpts wholeNumbers true (t' ++ [0]) = .ok (.array [.null], [0]) := by
  have hcomment : Padded Spaces (HasText wholeNumbers Spaces) (.array [.null]) remarkText := by
    refine .mk ?_ (.array (.one (.mk ?_ .null ?_))) ?_
    · exact .comment (r := []) (by decide) (by decide) .nil
    · exact .blank (by decide) .nil
    · exact .blank (by decide) .nil
    · exact .line (r := []) (fun _ hc => by cases hc) .nil
  obtain ⟨t', hleft, hlen, htext, hagain, hparse⟩ := shjsonMinify_hasText wholeNumbers hcomment
  exact ⟨t', hleft, hlen, htext, hagain, hparse (hlen.trans (by decide))⟩

end LibShare.Json
