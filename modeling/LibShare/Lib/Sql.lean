import Mathlib.Tactic.Common

/-!
# SQL statements as texts

The statements on tables with a numeric key, as they are written, and a reader of
such texts. A text has a character for each of its bytes. A string is written
between marks, and a mark within it twice; a number is written in decimal.

* `lex` — the tokens of a text; `Lexes` says what they are, and its rules follow
  the text from token to token.
* `Stmt.toks` — a statement as it is written. `parse` reads it again (`parse_toks`).
* A string in which marks are not doubled is read as it is meant if it has none
  (`spell_plain`).
-/

namespace LibShare.Sql

/-- A string without its terminator. -/
abbrev Text : Type := List Char

/-! ## Strings -/

/-- The quotation mark. -/
def mark : Char := Char.ofNat 39

/-- The marks of a string, written twice. -/
def escape : Text → Text
  | [] => []
  | c :: t => if c = mark then mark :: mark :: escape t else c :: escape t

/-- A string literal. -/
def spell (t : Text) : Text := mark :: (escape t ++ [mark])

/-- A string literal, or the null value. -/
def spellValue (val : Option Text) : Text := val.elim "NULL".toList spell

theorem escape_plain : ∀ {t : Text}, mark ∉ t → escape t = t
  | [], _ => rfl
  | c :: t, h => by
    rw [List.mem_cons, not_or] at h
    rw [escape, if_neg (Ne.symm h.1), escape_plain h.2]

/-- A string without marks is written as it is. -/
theorem spell_plain {t : Text} (h : mark ∉ t) : spell t = mark :: (t ++ [mark]) := by
  rw [spell, escape_plain h]

/-! ## Tokens -/

inductive Tok
  | word (t : Text)
  | str (t : Text)
  | sym (c : Char)
deriving DecidableEq

/-- What has been read of a token. -/
inductive Mode
  | start
  | word (w : Text)
  | str (s : Text)
  /-- a string up to a mark, which ends it unless another one follows -/
  | quoted (s : Text)

/-- A character of a name, of a keyword or of a number. -/
def isWord (c : Char) : Bool := c.isAlphanum || c = '_'

def IsWord (t : Text) : Prop := t ≠ [] ∧ t.all isWord = true

instance (t : Text) : Decidable (IsWord t) := inferInstanceAs (Decidable (_ ∧ _))

/-- The first character of a token. -/
def first (c : Char) : List Tok × Mode :=
  if c = mark then ([], .str []) else if isWord c then ([], .word [c])
  else if c = ' ' then ([], .start) else ([.sym c], .start)

def step : Mode → Char → List Tok × Mode
  | .start, c => first c
  | .word w, c => if isWord c then ([], .word (w ++ [c])) else (.word w :: (first c).1, (first c).2)
  | .str s, c => if c = mark then ([], .quoted s) else ([], .str (s ++ [c]))
  | .quoted s, c =>
    if c = mark then ([], .str (s ++ [mark])) else (.str s :: (first c).1, (first c).2)

def finish : Mode → Option (List Tok)
  | .start => some []
  | .word w => some [.word w]
  | .str _ => none
  | .quoted s => some [.str s]

/-- The tokens of a text. A string that does not end is an error. -/
def lex (m : Mode) : Text → Option (List Tok)
  | [] => finish m
  | c :: t => (lex (step m c).2 t).map ((step m c).1 ++ ·)

/-- The text has these tokens. -/
def Lexes (t : Text) (toks : List Tok) : Prop := lex .start t = some toks

/-! ## Reading on -/

section Lexes

variable {c : Char} {w x s t : Text} {toks : List Tok}

theorem ne_mark (h : isWord c = true) : c ≠ mark := by
  rintro rfl
  exact absurd h (by decide)

/-- In a word, its characters are read. -/
theorem lex_in_word : ∀ {x w : Text}, (∀ c ∈ x, isWord c = true) →
    lex (.word w) (x ++ t) = lex (.word (w ++ x)) t := by
  intro x
  induction x with
  | nil => simp
  | cons c x ih =>
    intro w h
    have hc := h c List.mem_cons_self
    simp only [List.cons_append, lex, step, hc, if_true]
    rw [ih fun d hd => h d (List.mem_cons_of_mem _ hd)]
    simp

/-- In a string, its characters are read, and two marks as one. -/
theorem lex_in_str : ∀ {x s : Text}, lex (.str s) (escape x ++ t) = lex (.str (s ++ x)) t := by
  intro x
  induction x with
  | nil => simp [escape]
  | cons c x ih =>
    intro s
    by_cases hc : c = mark
    · subst hc
      simp [escape, lex, step, ih]
    · simp [escape, lex, step, hc, ih]

/-- A word ends before what is no character of one. -/
theorem lex_word_end (hend : ∀ c ∈ t.head?, isWord c = false) :
    lex (.word w) t = (lex .start t).map (.word w :: ·) := by
  cases t with
  | nil => rfl
  | cons c t =>
    have hc := hend c rfl
    simp [lex, step, hc, Function.comp_def]

/-- A string ends before what is no mark. -/
theorem lex_str_end (hend : t.head? ≠ some mark) :
    lex (.quoted s) t = (lex .start t).map (.str s :: ·) := by
  cases t with
  | nil => rfl
  | cons c t =>
    have hc : c ≠ mark := fun h => hend (by rw [h]; rfl)
    simp [lex, step, hc, Function.comp_def]

theorem Lexes.nil : Lexes [] [] := rfl

theorem Lexes.blank (h : Lexes t toks) : Lexes (' ' :: t) toks := by
  have hblank : isWord ' ' = false := by decide
  have hne : ' ' ≠ mark := by decide
  simpa [Lexes, lex, step, first, hblank, hne] using h

theorem Lexes.sym (hc : c ≠ mark ∧ isWord c = false ∧ c ≠ ' ') (h : Lexes t toks) :
    Lexes (c :: t) (.sym c :: toks) := by
  unfold Lexes at h ⊢
  simp [lex, step, first, hc, h]

/-- A word, and what is no character of one behind it. -/
theorem Lexes.append (hx : IsWord x) (hend : ∀ c ∈ t.head?, isWord c = false) (h : Lexes t toks) :
    Lexes (x ++ t) (.word x :: toks) := by
  obtain ⟨hne, hword⟩ := hx
  have hall := List.all_eq_true.mp hword
  obtain ⟨c, x, rfl⟩ := List.exists_cons_of_ne_nil hne
  have hc := hall c List.mem_cons_self
  unfold Lexes at h ⊢
  -- the first character begins the word, and the others go on with it
  have hfirst : lex .start (c :: x ++ t) = lex (.word [c]) (x ++ t) := by
    simp [lex, step, first, ne_mark hc, hc]
  rw [hfirst, lex_in_word fun d hd => hall d (List.mem_cons_of_mem _ hd), lex_word_end hend, h]
  rfl

/-- A string literal, and what is no mark behind it. -/
theorem Lexes.spell_append (hend : t.head? ≠ some mark) (h : Lexes t toks) :
    Lexes (spell x ++ t) (.str x :: toks) := by
  unfold Lexes at h ⊢
  have hstart : lex .start (spell x ++ t) = lex (.str []) (escape x ++ mark :: t) := by
    simp [spell, lex, step, first]
  have hmark : lex (.str x) (mark :: t) = lex (.quoted x) t := by simp [lex, step]
  rw [hstart, lex_in_str, List.nil_append, hmark, lex_str_end hend, h]
  rfl

theorem Lexes.word (hx : IsWord x) (hc : isWord c = false) (h : Lexes (c :: t) toks) :
    Lexes (x ++ c :: t) (.word x :: toks) := .append hx (by simpa using hc) h

theorem Lexes.str (hc : c ≠ mark) (h : Lexes (c :: t) toks) :
    Lexes (spell x ++ c :: t) (.str x :: toks) :=
  .spell_append (by simpa using hc) h

/-- A word before a blank. -/
theorem Lexes.next (hx : IsWord x) (h : Lexes t toks) : Lexes (x ++ ' ' :: t) (.word x :: toks) :=
  .word hx (by decide) h.blank

/-- The last word. -/
theorem Lexes.last (hx : IsWord x) : Lexes x [.word x] := by
  have h := Lexes.append hx (t := []) (by simp) .nil
  rwa [List.append_nil] at h

/-- The last string. -/
theorem Lexes.last_str : Lexes (spell x) [.str x] := by
  have h := Lexes.spell_append (x := x) (t := []) (by simp) .nil
  rwa [List.append_nil] at h

end Lexes

/-! ## Numbers -/

/-- A number in decimal. -/
def number (n : Nat) : Text := Nat.toDigits 10 n

/-- The number that a text is. -/
def readNumber (t : Text) : Nat := Nat.ofDigitChars 10 t 0

@[simp] theorem readNumber_number (n : Nat) : readNumber (number n) = n :=
  Nat.ofDigitChars_ten_toDigits

theorem isWord_number (n : Nat) : IsWord (number n) := by
  refine ⟨Nat.toDigits_ne_nil, List.all_eq_true.mpr fun c hc => ?_⟩
  have hdigit := Nat.isDigit_of_mem_toDigits (by decide) (by decide) hc
  simp [isWord, Char.isAlphanum, hdigit]

/-! ## Statements -/

/-- A statement on tables with a numeric key. -/
inductive Stmt
  | create (table : Text)
  | addColumn (table col : Text)
  | insert (table : Text)
  | update (table col : Text) (val : Option Text) (row : Nat)
  /-- the time in place of a value -/
  | stamp (table col : Text) (row : Nat)
  | select (col table : Text) (row : Nat)
  /-- a time in seconds -/
  | seconds (col table : Text) (row : Nat)
  | find (table col val : Text)
  | delete (table : Text) (row : Nat)
  /-- every column, from a row on -/
  | dump (table : Text) (row : Nat)
  /-- two columns of the rows with a value, in descending order of a third one -/
  | top (fst snd table col val sort : Text) (limit : Nat)
deriving DecidableEq

section Stmt

variable (key : Text)

/-- The row with the key. -/
def whereRow (row : Nat) : List Tok :=
  [.word "where".toList, .word key, .sym '=', .word (number row)]

/-- A statement as it is written, where `key` is the name of the key column. -/
def Stmt.toks : Stmt → List Tok
  | create table => [.word "create".toList, .word "table".toList, .word table, .sym '(', .word key,
      .word "INTEGER".toList, .word "PRIMARY".toList, .word "KEY".toList,
        .word "ASC".toList, .sym ')']
  | addColumn table col =>
    [.word "alter".toList, .word "table".toList, .word table, .word "add".toList,
      .word "column".toList, .word col, .word "text".toList]
  | insert table =>
    [.word "insert".toList, .word "into".toList, .word table, .sym '(', .word key, .sym ')',
      .word "values".toList, .sym '(', .word "null".toList, .sym ')']
  | update table col val row =>
    .word "update".toList :: .word table :: .word "set".toList :: .word col :: .sym '=' ::
      val.elim (.word "NULL".toList) .str :: whereRow key row
  | stamp table col row =>
    .word "update".toList :: .word table :: .word "set".toList :: .word col :: .sym '=' ::
      .word "CURRENT_TIMESTAMP".toList :: whereRow key row
  | select col table row =>
    .word "select".toList :: .word col :: .word "from".toList :: .word table :: whereRow key row
  | seconds col table row =>
    .word "select".toList :: .word "strftime".toList :: .sym '(' :: .str "%s".toList ::
      .sym ',' :: .word col :: .sym ')' :: .word "from".toList :: .word table :: whereRow key row
  | find table col val =>
    [.word "select".toList, .word key, .word "from".toList, .word table, .word "where".toList,
      .word col, .sym '=', .str val]
  | delete table row =>
    .word "delete".toList :: .word "from".toList :: .word table :: whereRow key row
  | dump table row =>
    [.word "select".toList, .sym '*', .word "from".toList, .word table, .word "where".toList,
      .word key, .sym '>', .sym '=', .word (number row), .word "order".toList,
        .word "by".toList, .word key]
  | top fst snd table col val sort limit =>
    [.word "select".toList, .word fst, .sym ',', .word snd, .word "from".toList,
      .word table, .word "where".toList, .word col, .sym '=', .str val, .word "order".toList,
        .word "by".toList,
      .word sort, .word "desc".toList, .word "limit".toList, .word (number limit)]

/-- What a token says. -/
def Tok.text : Tok → Text
  | word t => t
  | str t => t
  | sym c => [c]

/-- The value that a token is. -/
def Tok.value : Tok → Option Text
  | str t => some t
  | _ => none

/-- The only statement that tokens may be, by their number and by a few of them. -/
def guess (toks : List Tok) : Stmt :=
  let word := fun i => (toks.getD i (.sym ' ')).text
  let num := fun i => readNumber (word i)
  if word 0 = "create".toList then .create (word 2)
  else if word 0 = "alter".toList then .addColumn (word 2) (word 5)
  else if word 0 = "insert".toList then .insert (word 2)
  else if word 0 = "delete".toList then .delete (word 2) (num 6)
  else if word 0 = "update".toList then
    if toks.getD 5 (.sym ' ') = .word "CURRENT_TIMESTAMP".toList then
      .stamp (word 1) (word 3) (num 9)
    else .update (word 1) (word 3) (toks.getD 5 (.sym ' ')).value (num 9)
  else if toks.length = 12 then .dump (word 3) (num 8)
  else if toks.length = 13 then .seconds (word 5) (word 8) (num 12)
  else if toks.length = 16 then .top (word 1) (word 3) (word 5) (word 7) (word 9) (word 12) (num 15)
  else match toks.getD 7 (.sym ' ') with
    | .str val => .find (word 3) (word 5) val
    | _ => .select (word 1) (word 3) (num 7)

/-- The statement that tokens are. -/
def parse (toks : List Tok) : Option Stmt := if (guess toks).toks key = toks then
  some (guess toks) else none

variable {key}

theorem guess_toks (s : Stmt) : guess (s.toks key) = s := by
  cases s with
  | update table col val row => cases val <;> simp [Stmt.toks, guess, whereRow, Tok.text, Tok.value]
  | _ => simp [Stmt.toks, guess, whereRow, Tok.text]

/-- What is written is read as it was meant. -/
theorem parse_toks (s : Stmt) : parse key (s.toks key) = some s := by
  rw [parse, guess_toks, if_pos rfl]

end Stmt

end LibShare.Sql
