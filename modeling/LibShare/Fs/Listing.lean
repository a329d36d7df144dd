import LibShare.Fs.File
import LibShare.Mem.KeyText

/-!
# libshare — listing and removal

`shfs_list_cb` (`shfs_list.c`) goes along the chain of a directory. It gives the
inode of an entry to the callback, and finds it by the text that is in the block
of the entry: `shfs_inode` makes one where there is none.

`shfs_file_remove` (`shfs_file.c`) and `shfs_dir_remove` (`shfs_dir.c`) work on
such a list. The first of them takes the count for an unsigned number, and takes
the format of the file into account only if there is no list, which is when the
listing failed. The second one takes any count but zero for an error.

The partition is not the one of the native file system.
-/

namespace LibShare.Fs

/-! ## Names -/

/-- `SHFS_PATH_MAX`. -/
def pathMax : Nat := blockDataSize - 34

/-- The path that `shfs_inode` works with leaves room for its end. -/
theorem inodePath_length (name : Bytes) (mode : Shinode) :
    (inodePath name mode).1.length < pathMax := by
  have hpos : 0 < pathMax := by decide
  have htake : (name.take (blockDataSize - 34 - 1)).length ≤ pathMax - 1 := List.length_take_le _ _
  unfold inodePath
  dsimp only
  split
  · rw [List.length_dropLast]
    omega
  · show (name.take (blockDataSize - 34 - 1)).length < pathMax
    omega

/-- The text in a block, as far as a path has room for it. -/
def rawText (raw : Vector UInt8 blockDataSize) : Bytes :=
  (raw.toList.takeWhile (· ≠ 0)).take (pathMax - 1)

/-- `shfs_filename`, as it is copied into an entry. -/
def shfsFilename (blk : Block) : Bytes :=
  if blk.type.isContainer then
    rawText blk.raw else (Mem.shkeyPrint blk.name).map fun ch => ch.toNat.toUInt8

/-! ## Listing (`shfs_list.c`) -/

/-- A callback, which has an argument of its own. There is no inode if it could
not be opened. -/
def ListCb (σ : Type) : Type := Mount → Option Nat → σ → Option (σ × Except Sherr Unit)

/-- The name that `shfs_list_cb` looks for. The slash has to fit behind the name of a
directory. -/
def listPath (blk : Block) : Option Bytes :=
  if blk.type = .directory then
    if (rawText blk.raw).length + 1 < pathMax then some (rawText blk.raw ++ [0x2f]) else none
  else some (rawText blk.raw)

variable {σ : Type}

/-- The loop of `shfs_list_cb`. What a new inode is given depends on its number. -/
def listLoop (env : Env) (acc : Nat → Access) (fspec : Bytes → Bool)
    (cb : Option (ListCb σ)) (i : Nat) :
    Nat → Mount → σ → Idx → Nat → Option (Mount × σ × Except Sherr Nat)
  | 0, _, _, _, _ => none
  | fuel + 1, m, arg, idx, tot =>
    if idx.ino = 0 then some (m, arg, .ok tot)
    else
      match shfsInodeReadBlock m.fs idx with
      | .error err => some (m, arg, .error err)
      | .ok blk =>
        -- a block that is its own successor would be listed forever
        if blk.npos = idx then some (m, arg, .error .io)
        else if blk.type ≠ .null ∧ blk.format ≠ .null ∧ fspec (rawText blk.raw) then
          -- without a callback the entries are counted only
          match cb with
          | none => listLoop env acc fspec none i fuel m arg blk.npos (tot + 1)
          | some cb =>
            match listPath blk with
            | none => none
            | some path =>
              match shfsInode env fuel m i path blk.type (acc m.inos.length) with
              | none => none
              | some (m, n) =>
                match cb m n arg with
                | none => none
                | some (arg, .error err) => some (m, arg, .error err)
                | some (arg, .ok _) =>
                  listLoop env acc fspec (some cb) i fuel m arg blk.npos (tot + 1)
        else listLoop env acc fspec cb i fuel m arg blk.npos tot

/-- `shfs_list_cb`. -/
def shfsListCb (env : Env) (acc : Nat → Access) (fuel : Nat) (m : Mount) (i : Nat)
    (fspec : Bytes → Bool) (cb : Option (ListCb σ)) (arg : σ) :
    Option (Mount × σ × Except Sherr Nat) :=
  match m.inos[i]? with
  | none => some (m, arg, .error .noent)
  | some parent =>
    if parent.blk.type.isContainer then
      listLoop env acc fspec cb i fuel m arg parent.blk.fpos 0
    else some (m, arg, .error .inval)

/-- `shfs_dirent_t`. -/
structure Dirent where
  name : Bytes
  crc : UInt64
  type : Shinode
  format : Shinode
  attr : UInt32
deriving DecidableEq

/-- An entry after `calloc`. -/
def Dirent.zero : Dirent := { name := [], crc := 0, type := .null, format := .null, attr := 0 }

/-- `shfs_dirent_cb`: the first entry that has no type is filled. An inode that could
not be opened is not looked for. -/
def shfsDirentCb : ListCb (List Dirent) := fun m n ents =>
  match n.bind fun n => m.inos[n]? with
  | none => none
  | some ino =>
    match ents.findIdx? fun ent => decide (ent.type = .null) with
    | none => none
    | some k =>
      let ent := { name := shfsFilename ino.blk, crc := ino.blk.crc, type := ino.blk.type
                   format := ino.blk.format, attr := ino.blk.attr }
      some (ents.set k ent, .ok ())

/-- `shfs_list`: the entries are counted first. -/
def shfsList (env : Env) (acc : Nat → Access) (fuel : Nat) (m : Mount) (i : Nat) :
    Option (Mount × Except Sherr (Nat × List Dirent)) :=
  match shfsListCb env acc fuel m i (fun _ => true) none () with
  | none => none
  | some (m, _, .error err) => some (m, .error err)
  | some (m, _, .ok count) =>
    match shfsListCb env acc fuel m i (fun _ => true) (some shfsDirentCb)
      (List.replicate (count + 1) Dirent.zero) with
    | none => none
    | some (m, _, .error err) => some (m, .error err)
    | some (m, ents, .ok tot) => some (m, .ok (tot, ents))

/-! ## Removal -/

/-- `SHATTR_VER`. -/
def shattrVer : UInt32 := 0x1000

/-- `shfs_inode_clear` of an open inode, or of none. -/
def Mount.clear (env : Env) (fuel : Nat) (m : Mount) :
    Option Nat → Option (Mount × Except Sherr Unit)
  | none => some (m, .ok ())
  | some c =>
    match m.inos[c]? with
    | none => some (m, .ok ())
    | some ino => (shfsInodeClear env fuel m.fs ino.blk).map fun res => (m.put c ino res, res.2.2)

/-- The loop of `shfs_file_remove` over the list, with the removal of a child. An
inode that could not be opened is used all the same. -/
def removeEnts (env : Env) (acc : Nat → Access) (fuel : Nat) (f : Nat)
    (remove : Mount → Nat → Option (Mount × Except Sherr Unit)) :
    List Dirent → Mount → Option (Mount × Except Sherr Unit)
  | [], m => some (m, .ok ())
  | ent :: ents, m =>
    if ent.type.isContainer then
      match shfsInode env fuel m f ent.name ent.type (acc m.inos.length) with
      | none => none
      | some (_, none) => none
      | some (m, some c) =>
        match remove m c with
        | none => none
        | some (m, .error err) => some (m, .error err)
        | some (m, .ok _) => removeEnts env acc fuel f remove ents m
    else
      match shfsInode env fuel m f [] ent.type (acc m.inos.length) with
      | none => none
      | some (m, c) =>
        match m.clear env fuel c with
        | none => none
        -- the status is not looked at
        | some (m, _) => removeEnts env acc fuel f remove ents m

/-- The child of a type is removed, where it has children itself, and cleared
otherwise. -/
def removeChild (env : Env) (acc : Nat → Access) (fuel : Nat) (f : Nat) (type : Shinode)
    (remove : Mount → Nat → Option (Mount × Except Sherr Unit)) (m : Mount) :
    Option (Mount × Except Sherr Unit) :=
  match shfsInode env fuel m f [] type (acc m.inos.length) with
  | none => none
  | some (_, none) => none
  | some (m, some c) =>
    match m.inos[c]? with
    | none => none
    | some child => if child.blk.type.isContainer then remove m c else m.clear env fuel (some c)

/-- The part of `shfs_file_remove` where there is no list. -/
def removeFormat (env : Env) (acc : Nat → Access) (fuel : Nat) (f : Nat) (file : Block)
    (remove : Mount → Nat → Option (Mount × Except Sherr Unit)) (m : Mount) :
    Option (Mount × Except Sherr Unit) :=
  -- version repository
  let repository : Option (Mount × Except Sherr Unit) :=
    if file.attr &&& shattrVer ≠ 0 then
      match shfsInode env fuel m f [] .repository (acc m.inos.length) with
      | none => none
      | some (_, none) => none
      | some (m, some c) => remove m c
    else some (m, .ok ())
  match repository with
  | none => none
  | some (m, .error err) => some (m, .error err)
  | some (m, .ok _) =>
    match m.inos[f]? with
    | none => none
    | some file =>
      -- specific format
      let fmt := if file.blk.format = .null ∧ file.blk.type = .binary then .aux else file.blk.format
      if fmt ≠ .null then removeChild env acc fuel f fmt remove m else some (m, .ok ())

/-- The inode of a file that has been removed. -/
def removedInode (blk : Block) : Block :=
  { blk with mtime := 0, size := 0, format := .null, attr := 0, crc := 0 }

/-- `shfs_file_remove`. -/
def shfsFileRemove (env : Env) (acc : Nat → Access) :
    Nat → Mount → Nat → Option (Mount × Except Sherr Unit)
  | 0, _, _ => none
  | fuel + 1, m, f =>
    match m.inos[f]? with
    | none => none
    | some file =>
      let below : Option (Mount × Except Sherr Unit) :=
        if file.blk.type.isContainer then
          match shfsList env acc fuel m f with
          | none => none
          -- the count is unsigned: there is no list
          | some (m, .error _) =>
            removeFormat env acc fuel f file.blk (shfsFileRemove env acc fuel) m
          | some (m, .ok (tot, ents)) =>
            -- the loop goes as far as the count
            if tot ≤ ents.length then
              removeEnts env acc fuel f (shfsFileRemove env acc fuel) (ents.take tot) m
            else none
        else some (m, .ok ())
      match below with
      | none => none
      | some (m, .error err) => some (m, .error err)
      | some (m, .ok _) =>
        match m.inos[f]? with
        | none => none
        | some file =>
          if file.blk.type = .directory then some (m, .ok ())
          else some (shfsInodeWriteEntity env (m.setBlk f file (removedInode file.blk)) f)

/-- What `shfs_dir_remove` returns: zero, or what a call has returned. The count of a list
is positive, and not an error. -/
inductive RemoveStatus
  | done
  | count (n : Nat)
  | failed (err : Sherr)
deriving DecidableEq

/-- The loop of `shfs_dir_remove` over the list, to the first entry that has no type. -/
def dirRemoveEnts (env : Env) (acc : Nat → Access) (fuel : Nat) (d : Nat)
    (remove : Mount → Option Nat → Option (Mount × RemoveStatus)) :
    List Dirent → Mount → Option (Mount × RemoveStatus)
  | [], _ => none
  | ent :: ents, m =>
    if ent.type = .null then some (m, .done)
    else
      match shfsInode env fuel m d ent.name ent.type (acc m.inos.length) with
      | none => none
      | some (m, c) =>
        match remove m c with
        | some (m, .done) => dirRemoveEnts env acc fuel d remove ents m
        | r => r

mutual

/-- `shfs_inode_remove`. -/
def shfsInodeRemove (env : Env) (acc : Nat → Access) :
    Nat → Mount → Option Nat → Option (Mount × RemoveStatus)
  | 0, _, _ => none
  | fuel + 1, m, n =>
    match n with
    -- an inode that could not be opened has no format
    | none => some (m, .done)
    | some n =>
      match (m.inos[n]?.map fun ino => ino.blk.format : Option Shinode) with
      | some .directory => shfsDirRemove env acc fuel m n
      | some .file =>
        match shfsFileRemove env acc fuel m n with
        | none => none
        | some (m, .error err) => some (m, .failed err)
        | some (m, .ok _) => some (m, .done)
      | _ => some (m, .done)

/-- `shfs_dir_remove`. -/
def shfsDirRemove (env : Env) (acc : Nat → Access) :
    Nat → Mount → Nat → Option (Mount × RemoveStatus)
  | 0, _, _ => none
  | fuel + 1, m, d =>
    match shfsList env acc fuel m d with
    | none => none
    | some (m, .error err) => some (m, .failed err)
    | some (m, .ok (0, ents)) =>
      match dirRemoveEnts env acc fuel d (shfsInodeRemove env acc fuel) ents m with
      | some (m, .done) => (m.clear env fuel (some d)).map fun res => (res.1, .done)
      | r => r
    | some (m, .ok (tot, _)) => some (m, .count tot)

end

/-! ## Paths -/

/-- The directories of a path: `shfs_dir_find` from an open inode on. -/
def shfsDirFind (env : Env) (acc : Nat → Access) (fuel : Nat) :
    List Bytes → Mount → Nat → Option (Mount × Option Nat)
  | [], m, i => some (m, some i)
  | tok :: toks, m, i =>
    match shfsInode env fuel m i tok .directory (acc m.inos.length) with
    | none => none
    | some (m, none) => some (m, none)
    | some (m, some n) => shfsDirFind env acc fuel toks m n

/-- What `strtok_r` finds between the slashes. -/
def pathTokens (path : Bytes) : List Bytes := (path.splitOn 0x2f).filter (· ≠ [])

/-- `shfs_file_find`, from the root directory on. -/
def shfsFileFind (env : Env) (acc : Nat → Access) (fuel : Nat) (m : Mount) (path : Bytes) :
    Option (Mount × Option Nat) :=
  if path = [] ∨ pathMax ≤ path.length then some (m, none)
  else
    let fpath := if path.head? = some 0x2f then path.tail else path
    if fpath = [] ∨ fpath.getLast? = some 0x2f then shfsDirFind env acc fuel (pathTokens fpath) m 0
    else
      let filename := (fpath.reverse.takeWhile (· ≠ 0x2f)).reverse
      let dirname := fpath.take (fpath.length - filename.length)
      match shfsDirFind env acc fuel (pathTokens dirname) m 0 with
      | none => none
      | some (m, none) => some (m, none)
      | some (m, some d) => shfsInode env fuel m d filename .file (acc m.inos.length)

/-- `shfs_fstat`: there is a content. -/
def shfsFstat (m : Mount) (n : Option Nat) : Except Sherr Unit :=
  match n.bind fun n => m.inos[n]? with
  | none => .error .inval
  | some ino => if ino.blk.format = .null then .error .noent else .ok ()

/-- `shfs_stat`. -/
def shfsStat (env : Env) (acc : Nat → Access) (fuel : Nat) (m : Mount) (path : Bytes) :
    Option (Mount × Except Sherr Unit) :=
  (shfsFileFind env acc fuel m path).map fun res => (res.1, shfsFstat res.1 res.2)

/-- `shfs_unlink`. -/
def shfsUnlink (env : Env) (acc : Nat → Access) (fuel : Nat) (m : Mount) (path : Bytes) :
    Option (Mount × RemoveStatus) :=
  match shfsFileFind env acc fuel m path with
  | none => none
  | some (m, none) => some (m, .failed .io)
  | some (m, some n) => shfsInodeRemove env acc fuel m (some n)

end LibShare.Fs
