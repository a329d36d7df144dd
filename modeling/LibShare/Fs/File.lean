import LibShare.Fs.Runs

/-!
# libshare — files

`shfs_read`, `shfs_write` and `shfs_truncate` (`shfs_file.c`) on files of the
binary format, whose content is that of a binary inode below the file
(`shfs_bin.c`). The other formats have code of their own, which `Formats` stands
for.

A truncation to a shorter length frees the blocks that begin after it and leaves
the reference to the first of them. It then reads as the end of the file, and a
later write stops there. A truncation to a greater length changes the recorded
size only.
-/

namespace LibShare.Fs

/-! ## Operations on files -/

/-- The content of files that are not binary. -/
structure Formats where
  read : Shinode → Mount → Nat → Option (Mount × Except Sherr Bytes)
  write : Shinode → Mount → Nat → Bytes → Option (Mount × Except Sherr Unit)

/-- `SHATTR_DB`. -/
def shattrDb : UInt32 := 8

/-- An open inode is given another block in memory. -/
def Mount.setBlk (m : Mount) (i : Nat) (ino : Ino) (blk : Block) : Mount :=
  { m with inos := m.inos.set i { ino with blk := blk } }

/-- `shfs_inode_write_entity`. -/
def shfsInodeWriteEntity (env : Env) (m : Mount) (i : Nat) : Mount × Except Sherr Unit :=
  match m.inos[i]? with
  | none => (m, .error .inval)
  | some ino =>
    let res := shfsInodeWriteBlock env m.fs ino.blk
    (m.put i ino res, res.2.2)

/-- The binary inode of a file: `shfs_inode(file, NULL, SHINODE_BINARY)`. -/
def shfsBin (env : Env) (fuel : Nat) (m : Mount) (f : Nat) (acc : Access) :
    Option (Mount × Option (Nat × Ino)) :=
  match shfsInode env fuel m f [] .binary acc with
  | none => none
  | some (m, none) => some (m, none)
  | some (m, some b) => some (m, m.inos[b]?.map fun bin => (b, bin))

/-- `shfs_bin_read`. -/
def shfsBinRead (env : Env) (fuel : Nat) (m : Mount) (f : Nat) (file : Ino) (acc : Access) :
    Option (Mount × Except Sherr Bytes) :=
  if file.blk.format ≠ .binary then some (m, .error .inval)
  else
    match shfsBin env fuel m f acc with
    | none => none
    | some (m, none) => some (m, .error .io)
    | some (m, some (_, bin)) => (shfsAuxRead fuel m.fs bin.blk).map fun res => (m, res)

/-- `shfs_read`, into an empty buffer. -/
def shfsRead (env : Env) (other : Formats) (fuel : Nat) (m : Mount) (f : Nat) (acc : Access) :
    Option (Mount × Except Sherr Bytes) :=
  match m.inos[f]? with
  | none => some (m, .error .inval)
  | some file =>
    match file.blk.format with
    | .null => some (m, .error .noent)
    | .reference | .ext | .compress | .database | .directory => other.read file.blk.format m f
    | .binary => shfsBinRead env fuel m f file acc
    | _ => some (m, .ok [])

/-- What `shfs_bin_write` and `shfs_truncate` copy from the binary inode. -/
def copyStats (file bin : Block) : Block :=
  { file with mtime := bin.mtime, size := bin.size, crc := bin.crc }

/-- `shfs_bin_write`. -/
def shfsBinWrite (env : Env) (fuel : Nat) (m : Mount) (f : Nat) (data : Bytes) (acc : Access) :
    Option (Mount × Except Sherr Unit) :=
  match shfsBin env fuel m f acc with
  | none => none
  | some (m, none) => some (m, .error .io)
  | some (m, some (b, bin)) =>
    match shfsAuxWrite env fuel m.fs bin.blk data with
    | none => none
    | some (fs, blk, .error err) => some (m.put b bin (fs, blk, .error err), .error err)
    | some (fs, blk, .ok u) =>
      let m := m.put b bin (fs, blk, .ok u)
      match m.inos[f]? with
      | none => some (m, .error .inval)
      | some file =>
        some (m.setBlk f file { copyStats file.blk blk with format := .binary }, .ok ())

/-- `shfs_write`. The daemon is notified of synchronised files, which changes
nothing here. -/
def shfsWrite (env : Env) (other : Formats) (fuel : Nat) (m : Mount) (f : Nat) (data : Bytes)
    (acc : Access) : Option (Mount × Except Sherr Unit) :=
  match m.inos[f]? with
  | none => some (m, .error .inval)
  | some file =>
    -- an attribute takes precedence over the format
    let format := if file.blk.attr &&& shattrDb ≠ 0 then .database else file.blk.format
    let res :=
      match format with
      | .reference | .ext | .compress | .database | .directory => other.write format m f data
      | _ => shfsBinWrite env fuel m f data acc
    match res with
    | none => none
    | some (m, .error err) => some (m, .error err)
    | some (m, .ok _) => some (shfsInodeWriteEntity env m f)

/-- The binary format in `shfs_truncate`. -/
def binTruncate (env : Env) (fuel : Nat) (m : Mount) (f len : Nat) (acc : Access) :
    Option (Mount × Except Sherr Unit) :=
  match shfsBin env fuel m f acc with
  | none => none
  -- `shfs_inode_truncate` of no inode does nothing, and the copy below reads through a
  -- null pointer
  | some (_, none) => none
  | some (m, some (b, bin)) =>
    match shfsInodeTruncate env fuel m.fs bin.blk len with
    | none => none
    | some (fs, blk, .error err) => some (m.put b bin (fs, blk, .error err), .error err)
    | some (fs, blk, .ok u) =>
      let m := m.put b bin (fs, blk, .ok u)
      match m.inos[f]? with
      | none => some (m, .error .inval)
      | some file => some (shfsInodeWriteEntity env (m.setBlk f file (copyStats file.blk blk)) f)

/-- `shfs_truncate`. -/
def shfsTruncate (env : Env) (fuel : Nat) (m : Mount) (f len : Nat) (acc : Access) :
    Option (Mount × Except Sherr Unit) :=
  match m.inos[f]? with
  | none => some (m, .ok ())
  | some file =>
    if file.blk.type.isContainer = false then some (m, .error .inval)
    else
      match file.blk.format with
      | .null => some (m, .error .noent)
      | .binary => binTruncate env fuel m f len acc
      | _ => some (m, .error .opnotsupp)

end LibShare.Fs
