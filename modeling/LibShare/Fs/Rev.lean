import LibShare.Fs.Journal
import LibShare.Lib.Prog

/-!
# libshare — revisions of a file

The repository of a file (`shfs_rev.c`, with the object keys of `shfs_obj.c`). A
revision is an inode in the repository below the file. It is named by a key, and
holds the delta that leads from its content back to that of the revision before
it. Tags are objects: an object holds a key, and it may have content of its own. The tag
BASE names the current revision, and its content is a snapshot of that
revision's content.

An inode is found by its place in the tree, and it is there once it is asked for.
What has been written to an inode stands in it as it was written, and a change of an
inode stays in the cache when it cannot be stored. `Fs/Content.lean` and
`Fs/Runs.lean` are about the blocks below.
-/

namespace LibShare.Fs

/-! ## Names -/

/-- `SHALG_ECDSA160R`. -/
def shalgEcdsa160r : UInt16 := 0x8802

/-- A key in hexadecimal. Keys of `SHALG_ECDSA160R` have a shorter form. -/
structure RevName where
  short : Bool
  code : Vector UInt32 7
deriving DecidableEq, Repr

/-- `shkey_hex`. -/
def shkeyHex (key : ShKey) : RevName :=
  if key.alg = shalgEcdsa160r then { short := true, code := key.code.set 6 0 }
  else { short := false, code := key.code }

/-- `shkey_hexgen`. -/
def shkeyHexgen (name : RevName) : Option ShKey :=
  if name.short then none else some { alg := 0, crc := 0, code := name.code }

/-- The file, or a revision in the repository of one of these inodes. -/
inductive Node
  | file
  | rev (owner : Node) (name : RevName)
deriving DecidableEq

/-- `shfs_filename` of a revision. -/
def Node.filename : Node → Option RevName
  | .file => none
  | .rev _ name => some name

/-- The name of an object: it fits the buffer it is written to, and ends without a slash. -/
def refPath (group name : Bytes) : Bytes :=
  let path := (group ++ 47 :: name).take 3940
  if path.getLast? = some 47 then path.dropLast else path

/-- The group "tag". -/
def tagGroup : Bytes := [116, 97, 103]

/-- The group "head". -/
def headGroup : Bytes := [104, 101, 97, 100]

/-- The tag "BASE". -/
def basePath : Bytes := refPath tagGroup [66, 65, 83, 69]

/-- The tag "PREV". -/
def prevPath : Bytes := refPath tagGroup [80, 82, 69, 86]

/-- "master". -/
def master : Bytes := [109, 97, 115, 116, 101, 114]

/-! ## Repositories -/

/-- An object inode. -/
structure Obj where
  key : ShKey
  format : Shinode
  data : Bytes

/-- An object that has just been made. -/
def Obj.zero : Obj := { key := ashkeyBlank, format := .null, data := [] }

/-- A file with its repository. -/
structure RevStore where
  /-- the content of the file, unless it has none -/
  content : Option Bytes
  obj : Node → Bytes → Obj
  /-- the content of the delta inode of a revision -/
  delta : Node → Bytes
  /-- the content that a revision was saved with, which nothing reads -/
  saved : Node → Option Bytes

/-- What is taken from elsewhere. -/
structure RevEnv where
  /-- `shfs_token`, made of the place of an inode and random numbers -/
  token : Node → ShKey
  shdelta : Bytes → Bytes → Except Sherr Bytes
  shpatch : Bytes → Bytes → Except Sherr Bytes

/-- Where the file layer may fail. -/
inductive RevPoint
  | readFile
  | writeFile
  | readBase
  | getRevision
  | writeDelta
  | getTag
  | writeTag
  | writeSnapshot
  | writeSnapshotEntity
  | getPrev
  | writePrev
deriving DecidableEq

/-- What a call meets. -/
structure RevCall where
  fault : RevPoint → Option Sherr
  /-- `ashkey_uniq` -/
  uniq : ShKey

/-- A function over a file and its repository. -/
abbrev Rev := Prog RevStore Sherr

/-- A failure of the file layer, if there is one. -/
def failIf : Option Sherr → Rev Unit
  | some err => Prog.fail err
  | none => return ()

/-- The status of a function that does not use the file layer. -/
def liftStatus {α : Type} : Except Sherr α → Rev α
  | .error err => Prog.fail err
  | .ok a => return a

/-! ## Objects (`shfs_obj.c`) -/

/-- An object is changed. -/
def RevStore.setObj (s : RevStore) (owner : Node) (path : Bytes) (o : Obj) : RevStore :=
  { s with obj := Function.update s.obj owner (Function.update (s.obj owner) path o) }

/-- `shfs_obj_set`. -/
def shfsObjSet (get write : Option Sherr) (owner : Node) (path : Bytes) (key : ShKey) :
    Rev Unit := do
  failIf get
  Prog.modify fun s => s.setObj owner path { s.obj owner path with key := key, format := .object }
  failIf write

/-- `shfs_obj_get`. -/
def shfsObjGet (s : RevStore) (owner : Node) (path : Bytes) : Option ShKey :=
  if (s.obj owner path).key = ashkeyBlank then none else some (s.obj owner path).key

/-! ## References -/

/-- `shfs_rev_get`, in the repository of an inode. -/
def shfsRevGet (owner : Node) (revKey : ShKey) : Option Node :=
  if revKey = ashkeyBlank then none else some (.rev owner (shkeyHex revKey))

/-- `shfs_rev_ref`. -/
def shfsRevRef (get write : Option Sherr) (owner : Node) (path : Bytes) (rev : Node) : Rev Unit :=
  match rev.filename with
  | none => Prog.fail .inval
  | some name =>
    match shkeyHexgen name with
    | none => Prog.fail .io
    | some refKey =>
      if refKey = ashkeyBlank then Prog.fail .inval
      else shfsObjSet get write owner path refKey

/-- `shfs_rev_ref_resolve`. The repository is that of the inode that has the reference. -/
def shfsRevRefResolve (s : RevStore) (owner : Node) (path : Bytes) : Option Node :=
  match shfsObjGet s owner path with
  | none => none
  | some key => shfsRevGet owner key

/-- `shfs_rev_ref_write`: `shfs_bin_write` sets the format of the object. -/
def shfsRevRefWrite (write entity : Option Sherr) (owner : Node) (path : Bytes) (data : Bytes) :
    Rev Unit := do
  failIf write
  Prog.modify fun s => s.setObj owner path { s.obj owner path with format := .binary, data := data }
  failIf entity

/-- `shfs_rev_ref_read`, into an empty buffer. -/
def shfsRevRefRead (s : RevStore) (owner : Node) (path : Bytes) : Except Sherr Bytes :=
  if (s.obj owner path).format ≠ .binary then .error .inval else .ok (s.obj owner path).data

/-- `shfs_rev_base`. -/
def shfsRevBase (s : RevStore) : Option Node := shfsRevRefResolve s .file basePath

/-- `shfs_rev_base_set`. -/
def shfsRevBaseSet (c : RevCall) (rev : Node) : Rev Unit :=
  shfsRevRef (c.fault .getTag) (c.fault .writeTag) .file basePath rev

/-- `shfs_rev_prev`. -/
def shfsRevPrev (s : RevStore) (rev : Node) : Option Node := shfsRevRefResolve s rev prevPath

/-! ## Commits -/

variable (env : RevEnv)

/-- `shfs_fstat` and `shfs_read` of the file. -/
def readWork (c : RevCall) : Rev Bytes := do
  match ← Prog.read RevStore.content with
  | none => Prog.fail .noent
  | some work =>
    failIf (c.fault .readFile)
    return work

/-- `shfs_rev_ref_read` of the tag BASE. -/
def readBase (c : RevCall) : Rev Bytes := do
  failIf (c.fault .readBase)
  liftStatus (← Prog.read fun s => shfsRevRefRead s .file basePath)

/-- The key and the delta of the revision that is to be made, in
`shfs_rev_commit`. -/
def commitDelta (c : RevCall) (work : Bytes) (base : Option Node) : Rev (ShKey × Option Bytes) := do
  match base with
  | none => return (c.uniq, none)
  | some base =>
    let head ← readBase c
    if work = head then Prog.fail .again
    else
      let diff ← liftStatus (env.shdelta work head)
      return (env.token base, some diff)

/-- `shfs_rev_delta_write`; there is nothing to write for the first revision. -/
def shfsRevDeltaWrite (c : RevCall) (rev : Node) : Option Bytes → Rev Unit
  | none => return ()
  | some diff => do
    failIf (c.fault .writeDelta)
    Prog.modify fun s => { s with delta := Function.update s.delta rev diff }

/-- The tag BASE names the new revision, and takes a snapshot of the file. -/
def saveBase (c : RevCall) (newRev : Node) (work : Bytes) : Rev Unit := do
  shfsRevBaseSet c newRev
  Prog.modify fun s => { s with saved := Function.update s.saved newRev (some work) }
  shfsRevRefWrite (c.fault .writeSnapshot) (c.fault .writeSnapshotEntity) .file basePath work

/-- The previous revision is tagged onto the new one. Its status is not looked at. -/
def tagPrev (c : RevCall) (newRev : Node) : Option Node → Rev Unit
  | none => return ()
  | some base => do
    let _ ← (shfsRevRef (c.fault .getPrev) (c.fault .writePrev) newRev prevPath base).attempt
    return ()

/-- `shfs_rev_commit`, with the new revision. -/
def shfsRevCommit (c : RevCall) : Rev Node := do
  let work ← readWork c
  let base ← Prog.read shfsRevBase
  let (revKey, diff) ← commitDelta env c work base
  failIf (c.fault .getRevision)
  let newRev := Node.rev .file (shkeyHex revKey)
  shfsRevDeltaWrite c newRev diff
  saveBase c newRev work
  tagPrev c newRev base
  return newRev

/-! ## Revisions that are read back -/

/-- The loop of `shfs_rev_read`, with the status of the last call in it. -/
def shfsRevReadLoop (s : RevStore) (iRev : Node) :
    Nat → Option Node → Bytes → Except Sherr Unit → Option (Except Sherr Bytes)
  | 0, _, _, _ => none
  | _ + 1, none, _, status => some (status.map fun _ => [])
  | fuel + 1, some rev, head, _ =>
    if env.token rev = env.token iRev then
      -- found revision in branch chain
      some (.ok head)
    else
      match env.shpatch head (s.delta rev) with
      | .error err => some (.error err)
      | .ok out => shfsRevReadLoop s iRev fuel (shfsRevPrev s rev) out (.ok ())

/-- `shfs_rev_read`, of a revision in the file's repository. -/
def shfsRevRead (fuel : Nat) (s : RevStore) (iRev : Node) : Option (Except Sherr Bytes) :=
  match shfsRevRefRead s .file basePath with
  | .error err => some (.error err)
  | .ok head => shfsRevReadLoop env s iRev fuel (shfsRevBase s) head (.error .noent)

/-- `shfs_rev_cat`, into an empty buffer. -/
def shfsRevCat (fuel : Nat) (s : RevStore) (revKey : Option ShKey) : Option (Except Sherr Bytes) :=
  let rev :=
    match revKey with
    | none => shfsRevBase s
    | some key => shfsRevGet .file key
  match rev with
  | none => some (.error .noent)
  | some rev => shfsRevRead env fuel s rev

/-! ## Other operations -/

/-- `shfs_write` of the file. -/
def writeFile (c : RevCall) (data : Bytes) : Rev Unit := do
  failIf (c.fault .writeFile)
  Prog.modify fun s => { s with content := some data }

/-- `shfs_rev_revert`. -/
def shfsRevRevert (c : RevCall) : Rev Unit := do
  let data ← readBase c
  writeFile c data

/-- The branch or the tag of a name, in `shfs_rev_switch`. -/
def switchTarget (s : RevStore) (refName : Option Bytes) : Option Node :=
  let refName := refName.getD master
  match shfsRevRefResolve s .file (refPath headGroup refName) with
  | some rev => some rev
  | none => shfsRevRefResolve s .file (refPath tagGroup refName)

/-- `shfs_rev_switch`. -/
def shfsRevSwitch (c : RevCall) (refName : Option Bytes) : Rev Unit := do
  match ← Prog.read fun s => switchTarget s refName with
  | none => Prog.fail .noent
  | some rev => shfsRevBaseSet c rev

/-- `shfs_rev_checkout`. -/
def shfsRevCheckout (c : RevCall) (key : ShKey) : Rev Unit :=
  match shfsRevGet .file key with
  | none => Prog.fail .noent
  | some rev => shfsRevBaseSet c rev

end LibShare.Fs
