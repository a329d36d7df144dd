import LibShare.Base
import Mathlib.Data.Rat.Floor

/-!
# libshare — SEXE modules

Function prototypes, and the modules that `sexe_bin_write` of `sexe_bin.c` makes of
them: a header and a function, which is a record with sections behind it. A section
begins with its type and the number of its members, each of them one byte.

* A number is the rational that it stands for. Its conversion to 64 bits is
  undefined where it does not fit, and there is no module then. The conversion
  back is exact for every number that was one.
* A C string is read up to its first zero byte. The name of an upvalue that is
  missing cannot be read, and there is no module then either.
* The stream takes every byte.
-/

namespace LibShare.Sexe

/-! ## Prototypes -/

/-- `TValue`, as far as constants go. The value of a boolean is 0 or 1. -/
inductive TValue
  | nil
  | boolean (b : UInt8)
  | number (n : ℚ)
  | string (s : Bytes)
deriving DecidableEq

/-- `Upvaldesc`. -/
structure Upvaldesc where
  name : Option Bytes
  instack : UInt8
  idx : UInt8
deriving DecidableEq

/-- `LocVar`. -/
structure LocVar where
  varname : Bytes
  startpc : UInt32
  endpc : UInt32
deriving DecidableEq

/-- `Proto`, but for the functions that are defined in it. -/
structure ProtoInfo where
  k : List TValue := []
  code : List UInt32 := []
  lineinfo : List UInt32 := []
  locvars : List LocVar := []
  upvalues : List Upvaldesc := []
  source : Option Bytes := none
  linedefined : UInt32 := 0
  lastlinedefined : UInt32 := 0
  numparams : UInt8 := 0
  isVararg : Bool := false
  maxstacksize : UInt8 := 0
deriving DecidableEq

/-- `Proto`. -/
inductive Proto
  | mk (f : ProtoInfo) (p : List Proto)

/-! ## Sections -/

/-- The string that C sees. -/
def cstr (s : Bytes) : Bytes := s.takeWhile (· ≠ 0)

/-- `sexe_stack_t`, the head of a section, with what aligns its members. -/
def stack (type : UInt8) (size : Nat) : Bytes := [type, UInt8.ofNat size, 0, 0, 0, 0, 0, 0]

/-- The number of members that the head of a section tells. -/
def told (size : Nat) : Nat := (UInt8.ofNat size).toNat

/-- `SexeDumpCode`. -/
def sexeDumpCode (f : ProtoInfo) : Bytes := stack 1 f.code.length ++ f.code.flatMap leBytes32

/-- `SexeDumpCodeDebug`. -/
def sexeDumpCodeDebug (f : ProtoInfo) : Bytes :=
  stack 12 f.lineinfo.length ++ (f.lineinfo.take (told f.lineinfo.length)).flatMap leBytes32

/-- `(uint64_t)nvalue(o)`. -/
def numberValue (n : ℚ) : Option UInt64 :=
  if -1 < n ∧ n < 2 ^ 64 then some (UInt64.ofNat ⌊n⌋.toNat) else none

/-- `sexe_const_t`. -/
def const (type : UInt32) (val : UInt64) : Bytes := leBytes32 type ++ [0, 0, 0, 0] ++ leBytes64 val

/-- A constant, and the index of the literal behind it. -/
def dumpConstant (strIdx : Nat) : TValue → Option (Bytes × Nat)
  | .nil => some (const 0 0, strIdx)
  | .boolean b => some (const 1 b.toUInt64, strIdx)
  | .number n => (numberValue n).map fun val => (const 3 val, strIdx)
  | .string _ => some (const 4 (UInt64.ofNat strIdx), strIdx + 1)

/-- The loop of `SexeDumpConstants` over the constants. -/
def dumpConstantsLoop : Nat → List TValue → Option Bytes
  | _, [] => some []
  | strIdx, o :: k => do
    let (entry, strIdx) ← dumpConstant strIdx o
    let entries ← dumpConstantsLoop strIdx k
    some (entry ++ entries)

/-- The literal strings among the constants. -/
def literals (k : List TValue) : List Bytes :=
  k.filterMap fun
    | .string s => some (cstr s)
    | _ => none

/-- The literal strings in memory, each with its end. -/
def pool (lits : List Bytes) : Bytes := lits.flatMap fun s => s ++ [0]

/-- `SexeDumpConstants`. -/
def sexeDumpConstants (f : ProtoInfo) : Option Bytes := do
  let entries ← dumpConstantsLoop 0 f.k
  let buff := pool (literals f.k)
  some (stack 6 buff.length ++ buff ++ (stack 4 f.k.length ++ entries))

/-- `sexe_upval_t`. -/
def upval (u : Upvaldesc) : Bytes := [u.instack, 0, 0, 0] ++ leBytes32 u.idx.toUInt32

/-- `SexeDumpUpvalues`. -/
def sexeDumpUpvalues (f : ProtoInfo) : Bytes :=
  stack 2 f.upvalues.length ++ f.upvalues.flatMap upval

/-- `SexeDumpUpvaluesDebug`, which writes as many bytes of the names as it tells. -/
def sexeDumpUpvaluesDebug (f : ProtoInfo) : Option Bytes := do
  let names ← f.upvalues.mapM fun u => u.name
  let buff := pool (names.map cstr)
  some (stack 10 buff.length ++ buff.take (told buff.length))

/-- A name in 24 bytes, the last of which is zero. -/
def nameField (s : Bytes) : Bytes :=
  let name := (cstr s).take 23
  name ++ List.replicate (24 - name.length) 0

/-- `sexe_debug_lvar_t`. -/
def lvar (v : LocVar) : Bytes := nameField v.varname ++ leBytes32 v.startpc ++ leBytes32 v.endpc

/-- `SexeDumpLocalVarDebug`. -/
def sexeDumpLocalVarDebug (f : ProtoInfo) : Bytes :=
  stack 11 f.locvars.length ++ f.locvars.flatMap lvar

/-- `sexe_func_t`. -/
def func (f : ProtoInfo) : Bytes :=
  leBytes32 (f.source.elim 0 fun source => (shcrc (cstr source)).toUInt32) ++
    leBytes32 f.linedefined ++
    leBytes32 f.lastlinedefined ++ [f.numparams, if f.isVararg then 1 else 0, f.maxstacksize, 0]

/-! ## Functions -/

mutual

/-- `SexeDumpFunction`. Without `RUNF_STRIP` the sections for a debugger are written. -/
def sexeDumpFunction (strip : Bool) : Proto → Option Bytes
  | .mk f p => do
    let constants ← sexeDumpConstants f
    let functions ← dumpFunctions strip (told p.length) p
    let names ← (if strip then some [] else sexeDumpUpvaluesDebug f)
    some (func f ++ (sexeDumpCode f ++ ((if strip then [] else sexeDumpCodeDebug f) ++ (constants ++
      (stack 5 p.length ++ functions ++ (sexeDumpUpvalues f ++ (names ++
        ((if strip then [] else sexeDumpLocalVarDebug f) ++ stack 0 0))))))))

/-- The loop of `SexeDumpFunctions`. -/
def dumpFunctions (strip : Bool) : Nat → List Proto → Option Bytes
  | 0, _ => some []
  | _ + 1, [] => some []
  | n + 1, f :: p => do
    let bytes ← sexeDumpFunction strip f
    let rest ← dumpFunctions strip n p
    some (bytes ++ rest)

end

/-- `SEXE_SIGNATURE`. -/
def sexeSignature : Bytes := [27, 115, 69, 88]

/-- `SEXE_TAIL`. -/
def sexeTail : Bytes := [0x19, 0x93, 13, 10, 0x1a, 10]

/-- `sexe_header`, with the version of the package. The sizes are those of an `int`,
a `size_t`, an instruction and a number. -/
def sexeHeader (ver : UInt8) (modName : Bytes) : Bytes :=
  sexeSignature ++ [ver, 0, 1, 4, 8, 4, 8, 0] ++ nameField modName ++ sexeTail

/-- `sexe_bin_write`. -/
def sexeBinWrite (ver : UInt8) (strip : Bool) (modName : Bytes) (f : Proto) : Option Bytes :=
  (sexeDumpFunction strip f).map fun bytes => sexeHeader ver modName ++ bytes

end LibShare.Sexe
