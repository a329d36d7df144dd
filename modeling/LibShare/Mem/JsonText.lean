import LibShare.Base
import LibShare.Lib.Separated
import Mathlib.Data.List.TakeWhile

/-!
# libshare — JSON texts

The parser and the printer of `shmem_json.c`, and `shjson_Minify`.

* A text is what is in memory from a pointer on. Its terminator is a zero byte, and behind it there
  is nothing: a read there ends with `JsonStop.fault`, and so does a write behind an allocation.
  A parser that fails returns the place where it does, which is what `ep` points at.
* What the machine does with floating-point numbers is a parameter (`Numbers`). The parser hands it
  the digits that it has read.
* Memory is taken to suffice. The length of a string and the size of what is printed are of type
  `int`; where one is too great, there is no result (`maxInt`).
* The loops have a fuel; the length of the text is enough (`JsonAccept.lean`).
-/

namespace LibShare.Json

/-! ## Nodes -/

/-- A string of C. -/
abbrev JsonString : Type := { s : Bytes // 0 ∉ s }

/-- What a buffer is as a string of C. -/
def cString (out : Bytes) : JsonString :=
  ⟨out.takeWhile (· ≠ 0), fun h => by simpa using List.mem_takeWhile_imp h⟩

/-- `shjson_t`, with the numbers of a machine. -/
inductive JsonNode (ν : Type)
  | null
  | false
  | true
  | number (x : ν)
  | string (valuestring : JsonString)
  | array (child : List (JsonNode ν))
  | object (child : List (JsonString × JsonNode ν))

/-- The digits that `parse_number` has read. -/
structure Numeral where
  /-- the sign -/
  neg : Bool
  /-- a zero in front, of which only one is read -/
  zero : Bool
  whole : Bytes
  frac : Bytes
  /-- the mark of an exponent, its sign and its digits -/
  exp : Option (UInt8 × Option UInt8 × Bytes)

/-- The numbers of a machine: what `print_number` prints, and what `parse_number` computes. -/
structure Numbers where
  Value : Type
  text : Value → Bytes
  value : Numeral → Value

/-- Where a parser stops without a value. -/
inductive JsonStop
  /-- memory is read or written outside of what there is -/
  | fault
  /-- `ep` -/
  | malformed (ep : Bytes)
deriving DecidableEq

abbrev JsonParser (α : Type) : Type := Bytes → Except JsonStop (α × Bytes)

/-- `INT_MAX`. -/
def maxInt : Nat := 2147483647

/-! ## Characters -/

def isDigit (c : UInt8) : Bool := 48 ≤ c ∧ c ≤ 57

/-- A hexadecimal digit, as `parse_hex4` takes it. -/
def hexValue (c : UInt8) : Option UInt32 :=
  if 48 ≤ c ∧ c ≤ 57 then some (c - 48).toUInt32
  else if 65 ≤ c ∧ c ≤ 70 then some (c - 55).toUInt32
  else if 97 ≤ c ∧ c ≤ 102 then some (c - 87).toUInt32
  else none

/-- `parse_hex4`, with `k` digits to come. What is no digit ends it with 0. -/
def hexLoop : Nat → UInt32 → Bytes → Except JsonStop UInt32
  | 0, h, _ => .ok h
  | _ + 1, _, [] => .error .fault
  | k + 1, h, c :: m =>
    match hexValue c with
    | none => .ok 0
    | some d => hexLoop k (h <<< 4 + d) m

def parseHex4 (m : Bytes) : Except JsonStop UInt32 := hexLoop 4 0 m

/-- The bytes of a code, with `firstByteMark` in the first of them. -/
def utf8 (uc : UInt32) : Bytes :=
  let next (uc : UInt32) : UInt8 := ((uc ||| 0x80) &&& 0xbf).toUInt8
  if uc < 0x80 then [uc.toUInt8]
  else if uc < 0x800 then [(uc >>> 6 ||| 0xc0).toUInt8, next uc]
  else if uc < 0x10000 then [(uc >>> 12 ||| 0xe0).toUInt8, next (uc >>> 6), next uc]
  else [(uc >>> 18 ||| 0xf0).toUInt8, next (uc >>> 12), next (uc >>> 6), next uc]

def isLow (uc : UInt32) : Bool := 0xdc00 ≤ uc ∧ uc ≤ 0xdfff

def isHigh (uc : UInt32) : Bool := 0xd800 ≤ uc ∧ uc ≤ 0xdbff

/-- What a pair of surrogates stands for. -/
def surrogates (uc uc2 : UInt32) : UInt32 :=
  (0x10000 : UInt32) + (((uc &&& 0x3ff) <<< 10) ||| (uc2 &&& 0x3ff))

/-! ## Strings -/

/-- An escape of one character. -/
def unescape (c : UInt8) : UInt8 :=
  if c = 98 then 8 -- b
  else if c = 102 then 12 -- f
  else if c = 110 then 10 -- n
  else if c = 114 then 13 -- r
  else if c = 116 then 9 -- t
  else c

/-- The escape of a code, from behind its `u`: what is written, and what is left. -/
def parseUnicode (m : Bytes) : Except JsonStop (Bytes × Bytes) := do
  let uc ← parseHex4 m
  let m := m.drop 4
  if isLow uc ∨ uc = 0 then return ([], m)
  else if isHigh uc then
    match m with
    | [] => .error .fault
    | c :: m' =>
      if c ≠ 92 then return ([], m)
      else match m' with
        | [] => .error .fault
        | d :: m'' =>
          if d ≠ 117 then return ([], m)
          else
            let uc2 ← parseHex4 m''
            -- an invalid second half is skipped with the first
            return (if isLow uc2 then utf8 (surrogates uc uc2) else [], m''.drop 4)
  else return (utf8 uc, m)

/-- The first loop of `parse_string`: how long the string may get. -/
def countString : Bytes → Except JsonStop Nat
  | [] => .error .fault
  | c :: m =>
    if c = 34 ∨ c = 0 then .ok 0
    else if c = 92 then
      match m with
      | [] => .error .fault
      | _ :: m => (countString m).map (· + 1)
    else (countString m).map (· + 1)

/-- Bytes behind others, in an allocation. -/
def putBytes (max : Nat) (out bs : Bytes) : Except JsonStop Bytes :=
  if out.length + bs.length ≤ max then .ok (out ++ bs) else .error .fault

/-- The second loop: what has been written, and where it ends. -/
def stringLoop (max : Nat) : Nat → Bytes → Bytes → Except JsonStop (Bytes × Bytes)
  | 0, _, _ => .error .fault
  | _ + 1, _, [] => .error .fault
  | n + 1, out, c :: m =>
    -- the closing quote, or the end of the text
    if c = 34 ∨ c = 0 then .ok (out, c :: m)
    else if c ≠ 92 then do
      let out ← putBytes max out [c]
      stringLoop max n out m
    else
      match m with
      | [] => .error .fault
      | e :: m =>
        -- transcode utf16 to utf8
        if e = 117 then do
          let (bs, m) ← parseUnicode m
          let out ← putBytes max out bs
          stringLoop max n out m
        else do
          let out ← putBytes max out [unescape e]
          stringLoop max n out m

/-- `parse_string`. The allocation has room for the terminator too. -/
def parseString : JsonParser JsonString
  | [] => .error .fault
  | c :: m =>
    if c ≠ 34 then .error (.malformed (c :: m))
    else do
      let len ← countString m
      if maxInt < len + 1 then .error .fault
      else
        let (out, rest) ← stringLoop len m.length [] m
        return (cString out, if rest.head? = some 34 then rest.tail else rest)

/-! ## Numbers -/

/-- A character that may be there. -/
def takeOne (c : UInt8) (m : Bytes) : Bool × Bytes := if m.head? = some c then
  (true, m.tail) else (false, m)

/-- The exponent of a number. -/
def parseExponent (m : Bytes) : Option (UInt8 × Option UInt8 × Bytes) × Bytes :=
  match m with
  | [] => (none, [])
  | c :: m =>
    if c = 101 ∨ c = 69 then
      let sign := m.head?.filter fun d => d = 43 ∨ d = 45
      let m := if sign.isSome then m.tail else m
      (some (c, sign, m.takeWhile isDigit), m.dropWhile isDigit)
    else (none, c :: m)

/-- What `parse_number` reads, from left to right. -/
def numeral (m : Bytes) : Numeral × Bytes :=
  let (neg, m) := takeOne 45 m
  let (zero, m) := takeOne 48 m
  let (whole, m) := if m.head?.any fun c => 49 ≤ c ∧ c ≤ 57 then
    (m.takeWhile isDigit, m.dropWhile isDigit) else ([], m)
  let (frac, m) :=
    if m.head? = some 46 ∧ m.tail.head?.any isDigit then
      (m.tail.takeWhile isDigit, m.tail.dropWhile isDigit) else ([], m)
  let (exp, m) := parseExponent m
  ({ neg, zero, whole, frac, exp }, m)

/-- `parse_number`. It has looked at the character behind the number. -/
def parseNumber : JsonParser Numeral := fun m =>
  let (n, rest) := numeral m
  if rest = [] then .error .fault else .ok (n, rest)

/-! ## Values -/

/-- `skip`. -/
def skip (m : Bytes) : Except JsonStop Bytes :=
  match m.dropWhile fun c => c ≠ 0 ∧ c ≤ 32 with
  | [] => .error .fault
  | c :: m => .ok (c :: m)

/-- Items between brackets, from behind the first of them. -/
def parseBrackets {α : Type} (close : UInt8) (item : JsonParser α) (n : Nat) :
    JsonParser (List α) := fun m => do
  let m ← skip m
  if m.head? = some close then return ([], m.tail)
  else
    -- an item is read to the character behind it
    let (as, m) ← readSeparated JsonStop.fault 44 item n m
    if m.head? = some close then return (as, m.tail) else .error (.malformed m)

/-- An element of an array: `skip(parse_value(child, skip(value)))`. -/
def parseElement {ν : Type} (value : JsonParser (JsonNode ν)) :
    JsonParser (JsonNode ν) := fun m => do
  let m ← skip m
  let (x, m) ← value m
  return (x, ← skip m)

/-- A member of an object: its name, a colon and its value. -/
def parseMember {ν : Type} (value : JsonParser (JsonNode ν)) :
    JsonParser (JsonString × JsonNode ν) := fun m => do
  let m ← skip m
  let (string, m) ← parseString m
  let m ← skip m
  if m.head? ≠ some 58 then .error (.malformed m)
  else
    let (x, m) ← parseElement value m.tail
    return ((string, x), m)

def nullText : Bytes := [110, 117, 108, 108]
def falseText : Bytes := [102, 97, 108, 115, 101]
def trueText : Bytes := [116, 114, 117, 101]

/-- `parse_value`, `parse_array` and `parse_object`. -/
def parseValue (N : Numbers) : Nat → JsonParser (JsonNode N.Value)
  | 0, _ => .error .fault
  | _ + 1, [] =>
    -- the text has been left
    .error .fault
  | n + 1, c :: m =>
    if nullText <+: c :: m then .ok (.null, m.drop 3)
    else if falseText <+: c :: m then .ok (.false, m.drop 4)
    else if trueText <+: c :: m then .ok (.true, m.drop 3)
    else if c = 34 then do
      let (s, m) ← parseString (c :: m)
      return (.string s, m)
    else if c = 45 ∨ isDigit c then do
      let (x, m) ← parseNumber (c :: m)
      return (.number (N.value x), m)
    else if c = 91 then do
      let (xs, m) ← parseBrackets 93 (parseElement (parseValue N n)) n m
      return (.array xs, m)
    else if c = 123 then do
      let (xs, m) ← parseBrackets 125 (parseMember (parseValue N n)) n m
      return (.object xs, m)
    else .error (.malformed (c :: m))

/-- `shjson_ParseWithOpts`: the node, and `return_parse_end`. -/
def parseWithOpts (N : Numbers) (requireNullTerminated : Bool) : JsonParser (JsonNode N.Value) :=
  fun value => do
  let m ← skip value
  let (c, m) ← parseValue N m.length m
  if requireNullTerminated then do
    let m ← skip m
    if m.head? = some 0 then return (c, m) else .error (.malformed m)
  else return (c, m)

/-! ## Printing -/

/-- A text in an allocation, with its terminator. The size is an `int`. -/
def alloc (size : Nat) (text : Bytes) : Option Bytes := if text.length < size ∧ size ≤ maxInt then
  some text else none

/-- A hexadecimal digit, as `sprintf` writes it. -/
def hexDigit (d : UInt8) : UInt8 := if d < 10 then 48 + d else 87 + d

/-- A character of `"\"\\\b\f\n\r\t"` with what is written behind a backslash for it. -/
def shortEscape (token : UInt8) : Option UInt8 :=
  if token = 92 ∨ token = 34 then some token
  else if token = 8 then some 98
  else if token = 12 then some 102
  else if token = 10 then some 110
  else if token = 13 then some 114
  else if token = 9 then some 116
  else none

/-- How long a character gets. -/
def escapedLen (token : UInt8) : Nat :=
  1 + if (shortEscape token).isSome then 1 else if token < 32 then 5 else 0

/-- A character as it is printed. -/
def escape (token : UInt8) : Bytes :=
  if token > 31 ∧ token ≠ 34 ∧ token ≠ 92 then [token]
  else 92 :: (shortEscape token).elim [117, 48, 48, hexDigit (token >>> 4), hexDigit (token &&& 15)]
    fun c => [c]

/-- `print_string_ptr`. -/
def printString (str : JsonString) : Option Bytes :=
  alloc ((str.val.map escapedLen).sum + 3) (34 :: str.val.flatMap escape ++ [34])

/-- The elements of an array, with what is between two of them. -/
def arrayText (fmt : Bool) (entries : List Bytes) : Bytes :=
  List.intercalate (if fmt then [44, 32] else [44]) entries

/-- `print_array`, once the elements have been printed. -/
def composeArray (fmt : Bool) (entries : List Bytes) : Option Bytes :=
  if entries = [] then alloc 3 [91, 93]
  else alloc (5 + (entries.map fun e => e.length + 2 + fmt.toNat).sum)
    (91 :: arrayText fmt entries ++ [93])

def tabs (n : Nat) : Bytes := List.replicate n 9

/-- The members of an object, each in a line where `fmt` is set. -/
def objectText (fmt : Bool) (depth : Nat) : List (Bytes × Bytes) → Bytes
  | [] => []
  | (name, entry) :: rest =>
    (if fmt then tabs depth else []) ++ name ++ (if fmt then [58, 9] else [58]) ++ entry ++
      (if rest = [] then [] else [44]) ++ (if fmt then [10] else []) ++ objectText fmt depth rest

/-- `print_object`, once the members have been printed. -/
def composeObject (fmt : Bool) (depth : Nat) (entries : List (Bytes × Bytes)) : Option Bytes :=
  if entries = [] then
    alloc (if fmt then depth + 4 else 3) (123 ::
      (if fmt then 10 :: tabs (depth - 1) else []) ++ [125])
  else
    alloc (7 + (if fmt then depth + 1 else 0) +
        (entries.map fun e => e.2.length + e.1.length + 2 + if fmt then 2 + (depth + 1) else 0).sum)
      (123 :: (if fmt then [10] else []) ++ objectText fmt (depth + 1) entries ++
        (if fmt then tabs depth else []) ++ [125])

section Print

variable (N : Numbers) (fmt : Bool)

mutual

/-- `print_value`. -/
def printValue (depth : Nat) : JsonNode N.Value → Option Bytes
  | .null => some nullText
  | .false => some falseText
  | .true => some trueText
  | .number x => some (N.text x)
  | .string valuestring => printString valuestring
  | .array child => (printElements (depth + 1) child).bind (composeArray fmt)
  | .object child => (printMembers (depth + 1) child).bind (composeObject fmt depth)

/-- The loop of `print_array`. -/
def printElements (depth : Nat) : List (JsonNode N.Value) → Option (List Bytes)
  | [] => some []
  | x :: xs => (printValue depth x).bind fun e => (printElements depth xs).map (e :: ·)

/-- The loop of `print_object`. -/
def printMembers (depth : Nat) :
    List (JsonString × JsonNode N.Value) → Option (List (Bytes × Bytes))
  | [] => some []
  | x :: xs => (printMember depth x).bind fun e => (printMembers depth xs).map (e :: ·)

def printMember (depth : Nat) : JsonString × JsonNode N.Value → Option (Bytes × Bytes)
  | (name, x) => (printString name).bind fun str => (printValue depth x).map (str, ·)

end

mutual

/-- How much memory a node takes at most while it is printed, as the printer counts it. -/
def printSize (depth : Nat) : JsonNode N.Value → Nat
  | .null => 5
  | .false => 6
  | .true => 5
  | .number x => (N.text x).length + 1
  | .string valuestring => (valuestring.val.map escapedLen).sum + 3
  | .array child => 5 + elementsSize (depth + 1) child
  | .object child => 7 + (if fmt then depth + 1 else 0) + membersSize (depth + 1) child

def elementsSize (depth : Nat) : List (JsonNode N.Value) → Nat
  | [] => 0
  | x :: xs => printSize depth x + 2 + fmt.toNat + elementsSize depth xs

def membersSize (depth : Nat) : List (JsonString × JsonNode N.Value) → Nat
  | [] => 0
  | x :: xs => memberSize depth x + membersSize depth xs

def memberSize (depth : Nat) : JsonString × JsonNode N.Value → Nat
  | (name, x) =>
    printSize depth x + ((name.val.map escapedLen).sum + 3) + 2 + if fmt then 2 + depth else 0

end

/-- `shjson_Print` and `shjson_PrintUnformatted`. -/
def shjsonPrint (item : JsonNode N.Value) : Option Bytes := printValue N fmt 0 item

end Print

/-! ## Without what is not needed -/

/-- A string literal, from behind its first mark: what is copied, and what is left. -/
def copyString : Bytes → Option (Bytes × Bytes)
  | [] => none
  | c :: m =>
    if c = 0 ∨ c = 34 then some ([c], m)
    else if c = 92 then
      match m with
      | [] => none
      | d :: m => (copyString m).map fun p => (c :: d :: p.1, p.2)
    else (copyString m).map fun p => (c :: p.1, p.2)

/-- A comment, up to its end. -/
def dropComment : Bytes → Bytes
  | [] => []
  | c :: m => if c = 0 ∨ (c = 42 ∧ m.head? = some 47) then c :: m else dropComment m

/-- The loop of `shjson_Minify`. What it has written is never ahead of what it has read. -/
def minifyLoop : Nat → Bytes → Option Bytes
  | 0, _ => none
  | _ + 1, [] => none
  | n + 1, c :: m =>
    if c = 0 then some []
    else if c = 32 ∨ c = 9 ∨ c = 13 ∨ c = 10 then minifyLoop n m
    else if c = 47 ∧ m = [] then none
    else if c = 47 ∧ m.head? = some 47 then
      minifyLoop n ((c :: m).dropWhile fun d => d ≠ 0 ∧ d ≠ 10)
    else if c = 47 ∧ m.head? = some 42 then minifyLoop n ((dropComment (c :: m)).drop 2)
    else if c = 34 then
      (copyString m).bind fun p => (minifyLoop n p.2).map fun out => c :: p.1 ++ out
    else (minifyLoop n m).map (c :: ·)

/-- `shjson_Minify`: the text that is left, without its terminator. -/
def shjsonMinify (json : Bytes) : Option Bytes := minifyLoop json.length json

end LibShare.Json
