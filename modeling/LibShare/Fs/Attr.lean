import LibShare.Fs.Listing

/-!
# libshare — attributes, formats and locks

`shfs_attr.c` and `shfs_lock.c`, with `shfs_format_set` and the compressed format of
`shfs_zlib.c`. The content of a file is below the file, in an inode of the type that the
format of the file names. The compressed format stores the content as it is.

The lock of an inode is the attribute FLOCK. It is set and cleared by the functions
for attributes in general.
-/

namespace LibShare.Fs

/-! ## Attributes (`shfs.h`) -/

/-- `SHATTR_ARCH`. -/
def shattrArch : UInt32 := 0x1

/-- `SHATTR_ENC`. -/
def shattrEnc : UInt32 := 0x10

/-- `SHATTR_FLOCK`. -/
def shattrFlock : UInt32 := 0x20

/-- `SHATTR_LINK`. -/
def shattrLink : UInt32 := 0x80

/-- `SHATTR_READ`. -/
def shattrRead : UInt32 := 0x200

/-- `SHATTR_SYNC`. -/
def shattrSync : UInt32 := 0x400

/-- `SHATTR_TEMP`. -/
def shattrTemp : UInt32 := 0x800

/-- `SHATTR_WRITE`. -/
def shattrWrite : UInt32 := 0x2000

/-- `SHATTR_EXE`. -/
def shattrExe : UInt32 := 0x4000

/-- `SHATTR_COMP`. -/
def shattrComp : UInt32 := 0x8000

/-- `SHINODE_DEFAULT_ATTR_FORMAT`. -/
def defaultAttrFormat (attr : UInt32) : Shinode :=
  if attr &&& shattrDb ≠ 0 then .database
  else if attr &&& shattrVer ≠ 0 then .revision
  else if attr &&& shattrEnc ≠ 0 then .crypt
  else if attr &&& shattrComp ≠ 0 then .compress
  else .binary

/-! ## The compressed format (`shfs_zlib.c`) -/

/-- An inode without a name below a file: `shfs_inode(file, NULL, mode)`. -/
def shfsSub (env : Env) (fuel : Nat) (m : Mount) (f : Nat) (mode : Shinode) (acc : Access) :
    Option (Mount × Option (Nat × Ino)) :=
  match shfsInode env fuel m f [] mode acc with
  | none => none
  | some (m, none) => some (m, none)
  | some (m, some b) => some (m, m.inos[b]?.map fun sub => (b, sub))

/-- `shfs_zlib_read`. -/
def shfsZlibRead (env : Env) (fuel : Nat) (m : Mount) (f : Nat) (acc : Access) :
    Option (Mount × Except Sherr Bytes) :=
  match m.inos[f]? with
  | none => some (m, .error .inval)
  | some file =>
    if file.blk.format ≠ .compress then some (m, .error .inval)
    else
      match shfsSub env fuel m f .compress acc with
      | none => none
      | some (m, none) => some (m, .error .io)
      | some (m, some (_, aux)) => (shfsAuxRead fuel m.fs aux.blk).map fun res => (m, res)

/-- `shfs_zlib_write`. -/
def shfsZlibWrite (env : Env) (fuel : Nat) (m : Mount) (f : Nat) (data : Bytes) (acc : Access) :
    Option (Mount × Except Sherr Unit) :=
  match shfsSub env fuel m f .compress acc with
  | none => none
  | some (m, none) => some (m, .error .io)
  | some (m, some (b, aux)) =>
    match shfsAuxWrite env fuel m.fs aux.blk data with
    | none => none
    | some (fs, blk, .error err) => some (m.put b aux (fs, blk, .error err), .error err)
    | some (fs, blk, .ok u) =>
      let m := m.put b aux (fs, blk, .ok u)
      match m.inos[f]? with
      | none => some (m, .error .inval)
      | some file =>
        some (m.setBlk f file { copyStats file.blk blk with format := .compress }, .ok ())

/-- The formats, with the compressed one as it is here. -/
def zlibFormats (env : Env) (fuel : Nat) (acc : Nat → Access) (other : Formats) : Formats where
  read := fun format m f =>
    if format = .compress then
      shfsZlibRead env fuel m f (acc m.inos.length) else other.read format m f
  write := fun format m f data =>
    if format = .compress then shfsZlibWrite env fuel m f data (acc m.inos.length)
    else other.write format m f data

/-! ## Formats -/

/-- `shfs_format_set`. The status of `shfs_inode_clear` is not looked at, and the inode of the file
is not written. -/
def shfsFormatSet (env : Env) (other : Formats) (acc : Nat → Access) (fuel : Nat)
    (m : Mount) (f : Nat)
    (format : Shinode) : Option (Mount × Except Sherr Unit) :=
  if format.isContainer = false then some (m, .error .inval)
  else if format = .directory then some (m, .error .inval)
  else
    match m.inos[f]? with
    | none => some (m, .error .inval)
    | some file =>
      if format = file.blk.format then some (m, .ok ())
      else
        -- the content is read in the old format, cleared and written in the new one
        match shfsRead env (zlibFormats env fuel acc other) fuel m f (acc m.inos.length) with
        | none => none
        | some (m, .error err) => some (m, .error err)
        | some (m, .ok data) =>
          match shfsInode env fuel m f [] file.blk.format (acc m.inos.length) with
          | none => none
          | some (m, c) =>
            match m.clear env fuel c with
            | none => none
            | some (m, _) =>
              if format = .compress then shfsZlibWrite env fuel m f data (acc m.inos.length)
              else shfsBinWrite env fuel m f data (acc m.inos.length)

/-! ## Setting and clearing -/

/-- `shfs_rev_clear`. -/
def shfsRevClear (env : Env) (acc : Nat → Access) (fuel : Nat) (m : Mount) (f : Nat) :
    Option (Mount × Except Sherr Unit) :=
  match shfsInode env fuel m f [] .repository (acc m.inos.length) with
  | none => none
  | some (m, c) => m.clear env fuel c

/-- The switch of `shfs_attr_set`. -/
def attrSetCase (env : Env) (other : Formats)
    (revInit : Mount → Nat → Option (Mount × Except Sherr Unit))
    (acc : Nat → Access) (fuel : Nat) (m : Mount) (f : Nat) (file : Block) (attr : UInt32) :
    Option (Mount × Except Sherr Unit) :=
  if attr = shattrArch then
    if file.type = .directory then some (m, .ok ()) else some (m, .error .opnotsupp)
  else if attr = shattrComp then
    -- files inherit
    if file.type = .directory then
      some (m, .ok ()) else shfsFormatSet env other acc fuel m f .compress
  else if attr = shattrSync then some (m, .ok ())
  else if attr = shattrTemp then some (m, .ok ())
  else if attr = shattrVer then revInit m f
  else if attr = shattrRead ∨ attr = shattrWrite ∨ attr = shattrExe then some (m, .ok ())
  else if attr = shattrDb then
    -- not a file, or it has content already
    if file.type ≠ .file ∨ file.format ≠ .null then some (m, .error .inval) else some (m, .ok ())
  else some (m, .error .opnotsupp)

/-- `shfs_attr_set`, with `shfs_rev_init`. The notification changes nothing here. -/
def shfsAttrSet (env : Env) (other : Formats)
    (revInit : Mount → Nat → Option (Mount × Except Sherr Unit))
    (acc : Nat → Access) (fuel : Nat) (m : Mount) (f : Nat) (attr : UInt32) :
    Option (Mount × Except Sherr Unit) :=
  match m.inos[f]? with
  | none => some (m, .error .inval)
  | some file =>
    if attr = 0 then some (m, .error .inval)
    else if file.blk.attr &&& attr ≠ 0 then some (m, .ok ())
    else
      -- what the attribute changes besides the flag, which is set on success only
      match attrSetCase env other revInit acc fuel m f file.blk attr with
      | none => none
      | some (m, .error err) => some (m, .error err)
      | some (m, .ok _) =>
        match m.inos[f]? with
        | none => some (m, .error .inval)
        | some file =>
          some (shfsInodeWriteEntity env (m.setBlk f file
            { file.blk with attr := file.blk.attr ||| attr }) f)

/-- The switch of `shfs_attr_unset`. -/
def attrUnsetCase (env : Env) (other : Formats) (acc : Nat → Access) (fuel : Nat)
    (m : Mount) (f : Nat)
    (file : Ino) (attr : UInt32) : Option (Mount × Except Sherr Unit) :=
  if attr = shattrComp then
    let format := defaultAttrFormat (file.blk.attr &&& ~~~attr)
    if format ≠ file.blk.format then
      shfsFormatSet env other acc fuel m f format else some (m, .ok ())
  else if attr = shattrSync then some (m, .ok ())
  else if attr = shattrTemp then some (m, .ok ())
  else if attr = shattrVer then shfsRevClear env acc fuel m f
  else if attr = shattrLink then
    -- this is a local copy now
    some (m.setBlk f file { file.blk with attr := file.blk.attr &&& ~~~shattrSync },
      .error .opnotsupp)
  else if attr = shattrRead ∨ attr = shattrWrite ∨ attr = shattrExe then some (m, .ok ())
  else if attr = shattrDb then some (m, .ok ())
  else some (m, .error .opnotsupp)

/-- `shfs_attr_unset`. -/
def shfsAttrUnset (env : Env) (other : Formats) (acc : Nat → Access) (fuel : Nat)
    (m : Mount) (f : Nat)
    (attr : UInt32) : Option (Mount × Except Sherr Unit) :=
  match m.inos[f]? with
  | none => some (m, .error .inval)
  | some file =>
    if attr = 0 then some (m, .error .inval)
    else if file.blk.attr &&& attr = 0 then some (m, .ok ())
    else
      -- the flag is taken back from what the file had before
      match attrUnsetCase env other acc fuel m f file attr with
      | none => none
      | some (m, .error err) => some (m, .error err)
      | some (m, .ok _) =>
        match m.inos[f]? with
        | none => some (m, .error .inval)
        | some now =>
          some (shfsInodeWriteEntity env (m.setBlk f now
            { now.blk with attr := file.blk.attr &&& ~~~attr }) f)

/-! ## Locks (`shfs_lock.c`) -/

/-- `_shfs_lock_verify_hier`, with a number of levels. -/
def lockVerifyHier (m : Mount) : Nat → Nat → Option (Except Sherr Unit)
  | 0, _ => none
  | fuel + 1, i =>
    match m.inos[i]? with
    | none => some (.ok ())
    | some ino =>
      if ino.blk.type = .fileLock then some (.error .opnotsupp)
      else if ino.blk.attr &&& shattrFlock ≠ 0 then some (.error .access)
      else
        match ino.parent with
        | none => some (.ok ())
        | some j => lockVerifyHier m fuel j

/-- `shfs_locked`. -/
def shfsLocked (fuel : Nat) (m : Mount) (i : Nat) : Option (Except Sherr Unit) :=
  match shfsFstat m (some i) with
  | .error err => some (.error err)
  | .ok _ => lockVerifyHier m fuel i

/-- What `shfs_lock` and `shfs_unlock` check before they change the attribute. -/
def lockCheck (m : Mount) (i : Nat) : Except Sherr Unit :=
  match shfsFstat m (some i) with
  | .error err => .error err
  | .ok _ =>
    match m.inos[i]? with
    | none => .error .inval
    | some ino => if ino.blk.type = .fileLock then .error .opnotsupp else .ok ()

/-- `shfs_lock`; its flags are not used. -/
def shfsLock (env : Env) (other : Formats)
    (revInit : Mount → Nat → Option (Mount × Except Sherr Unit))
    (acc : Nat → Access) (fuel : Nat) (m : Mount) (i : Nat) : Option (Mount × Except Sherr Unit) :=
  match lockCheck m i with
  | .error err => some (m, .error err)
  | .ok _ => shfsAttrSet env other revInit acc fuel m i shattrFlock

/-- `shfs_lock_of`: the part of the file is not used either. -/
def shfsLockOf (env : Env) (other : Formats)
    (revInit : Mount → Nat → Option (Mount × Except Sherr Unit))
    (acc : Nat → Access) (fuel : Nat) (m : Mount) (i _ofs _len : Nat) :
    Option (Mount × Except Sherr Unit) :=
  shfsLock env other revInit acc fuel m i

/-- `shfs_unlock`. -/
def shfsUnlock (env : Env) (other : Formats) (acc : Nat → Access) (fuel : Nat)
    (m : Mount) (i : Nat) :
    Option (Mount × Except Sherr Unit) :=
  match lockCheck m i with
  | .error err => some (m, .error err)
  | .ok _ => shfsAttrUnset env other acc fuel m i shattrFlock

end LibShare.Fs
