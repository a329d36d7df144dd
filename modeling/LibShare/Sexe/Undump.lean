import LibShare.Lib.Reader
import LibShare.Sexe.Module

/-!
# libshare — loading SEXE modules

`sexe_undump` of `sexe_bin.c`. A reader that does not return ends with an error.

* The loop over the sections and the recursion over the functions have a bound, in
  the place of the end of the module.
* A section of a type that is not known has no members. Of two sections of one type
  the last one counts.
* The name of a local variable goes on into the numbers behind it, where it has no
  end.
-/

namespace LibShare.Sexe

/-- What a module is not loaded for: an error of the interpreter, an access behind the
end of an array, and the bound. -/
inductive LoadError
  | corrupt
  | outside
  | spent
deriving DecidableEq

/-- What is loaded from a module. -/
abbrev Loader (α : Type) : Type := Reader LoadError UInt8 α

/-- `LoadBlock`. -/
def loadBlock (size : Nat) : Loader Bytes := readBlock .corrupt size

/-- An array is read. -/
def arrayGet {α : Type} (xs : List α) (i : Nat) : Loader α := (xs[i]?).elim (throw .outside) pure

/-! ## Sections -/

/-- The literal strings in a piece of memory: those that end in it. -/
def splitLits (s : Bytes) : Bytes → List Bytes
  | [] => []
  | b :: lit => if b = 0 then s :: splitLits [] lit else splitLits (s ++ [b]) lit

/-- `SexeLoadCode`. -/
def sexeLoadCode (size : Nat) (f : ProtoInfo) : Loader ProtoInfo :=
  (fun code => { f with code }) <$> readMany (leWord32 <$> loadBlock 4) size

/-- `SexeLoadCodeDebug`. -/
def sexeLoadCodeDebug (size : Nat) (f : ProtoInfo) : Loader ProtoInfo :=
  (fun lineinfo => { f with lineinfo }) <$> readMany (leWord32 <$> loadBlock 4) size

/-- A constant, from its type and its value. -/
def constant (lits : List Bytes) (con : Bytes) : Loader TValue :=
  let type := leWord32 (con.take 4)
  let val := leWord64 ((con.drop 8).take 8)
  if type = 1 then pure (.boolean val.toUInt8)
  else if type = 3 then pure (.number val.toNat)
  else if type = 4 then
    if val.toNat < lits.length then .string <$> arrayGet lits val.toNat else pure .nil
  else pure .nil

/-- `SexeLoadConstants`. The section of the literal strings has that of the constants
behind it, whose head takes the place of its own: the type of it is the first result. -/
def sexeLoadConstants (type : UInt8) (size : Nat) (f : ProtoInfo) : Loader (UInt8 × ProtoInfo) := do
  let lit ← loadBlock (if type = 6 then size else 0)
  let stack ← loadBlock 8
  let k ← readMany (loadBlock 16 >>= constant (splitLits [] lit)) (stack.getD 1 0).toNat
  pure (stack.getD 0 0, { f with k })

/-- An upvalue, from its record. -/
def upvaldesc (upv : Bytes) : Upvaldesc :=
  { name := none, instack := upv.getD 0 0, idx := (leWord32 ((upv.drop 4).take 4)).toUInt8 }

/-- `SexeLoadUpvalues`. -/
def sexeLoadUpvalues (size : Nat) (f : ProtoInfo) : Loader ProtoInfo :=
  (fun upvalues => { f with upvalues }) <$> readMany (upvaldesc <$> loadBlock 8) size

/-- The first upvalues get names. -/
def nameUpvalues : List Bytes → List Upvaldesc → List Upvaldesc
  | s :: lits, u :: upvalues => { u with name := some s } :: nameUpvalues lits upvalues
  | _, upvalues => upvalues

/-- `SexeLoadUpvalDebug`. -/
def sexeLoadUpvalDebug (size : Nat) (f : ProtoInfo) : Loader ProtoInfo := do
  let lit ← loadBlock size
  let lits := splitLits [] lit
  -- there may be more names than upvalues
  if lits.length ≤ f.upvalues.length then pure { f with upvalues := nameUpvalues lits f.upvalues }
  else throw .outside

/-- A local variable, from its record. In a record without a zero byte the name is taken to end
with it: `strlen` runs on behind the record there, whatever lies on the stack. -/
def locVar (lvar : Bytes) : LocVar :=
  { varname := cstr lvar
    startpc := leWord32 ((lvar.drop 24).take 4)
    endpc := leWord32 ((lvar.drop 28).take 4) }

/-- `SexeLoadLocalVarDebug`. -/
def sexeLoadLocalVarDebug (size : Nat) (f : ProtoInfo) : Loader ProtoInfo :=
  (fun locvars => { f with locvars }) <$> readMany (locVar <$> loadBlock 32) size

/-! ## Functions -/

/-- A function that is being loaded. -/
structure Loading where
  f : ProtoInfo
  p : List Proto

/-- What a section does to a function, and the type that `stack` has then; `load` is
`SexeLoadFunction`. -/
def loadSection (load : Loader Proto) (type : UInt8) (size : Nat) (s : Loading) :
    Loader (UInt8 × Loading) :=
  if type = 1 then (fun f => (type, { s with f })) <$> sexeLoadCode size s.f
  else if type = 12 then (fun f => (type, { s with f })) <$> sexeLoadCodeDebug size s.f
  else if type = 6 ∨ type = 4 then
    (fun c => (c.1, { s with f := c.2 })) <$> sexeLoadConstants type size s.f
  else if type = 5 then (fun p => (type, { s with p })) <$> readMany load size
  else if type = 2 then (fun f => (type, { s with f })) <$> sexeLoadUpvalues size s.f
  else if type = 10 then (fun f => (type, { s with f })) <$> sexeLoadUpvalDebug size s.f
  else if type = 11 then (fun f => (type, { s with f })) <$> sexeLoadLocalVarDebug size s.f
  else pure (type, s)

/-- The loop over the sections of a function. -/
def loadSections (load : Loader Proto) : Nat → Loading → Loader Loading
  | 0, _ => throw .spent
  | fuel + 1, s => do
    let stack ← loadBlock 8
    let (type, s) ← loadSection load (stack.getD 0 0) (stack.getD 1 0).toNat s
    if type = 0 then pure s else loadSections load fuel s

/-- The text `#%x`. -/
def sourceText (w : UInt32) : Bytes :=
  35 :: (Nat.toDigits 16 w.toNat).map fun c => UInt8.ofNat c.toNat

/-- What `SexeLoadFunction` takes from the record of a function. -/
def startInfo (func : Bytes) : ProtoInfo :=
  let source := leWord32 (func.take 4)
  { source := if source = 0 then none else some (sourceText source)
    numparams := func.getD 12 0
    isVararg := func.getD 13 0 &&& 1 ≠ 0
    maxstacksize := func.getD 14 0 }

/-- `SexeLoadFunction`. -/
def sexeLoadFunction : Nat → Loader Proto
  | 0 => throw .spent
  | fuel + 1 => do
    let func ← loadBlock 16
    let s ← loadSections (sexeLoadFunction fuel) fuel { f := startInfo func, p := [] }
    pure (.mk s.f s.p)

/-- `SexeLoadHeader`, behind the first byte. What is not a header is passed over, unless
the rest of it is there. -/
def sexeLoadHeader : Loader Unit := do
  let s ← loadBlock 41
  if s.take 3 ≠ sexeSignature.tail then pure ()
  else if s.getD 4 0 ≠ 0 ∨ s.drop 35 ≠ sexeTail then throw .corrupt
  else pure ()

/-- `sexe_undump`, of a stream whose first byte has been read. -/
def sexeUndump (fuel : Nat) : Loader Proto := do
  sexeLoadHeader
  sexeLoadFunction fuel

end LibShare.Sexe
