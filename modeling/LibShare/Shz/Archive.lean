import LibShare.Shz.Page

/-!
# libshare — SHZ archives: members

The members of an archive (`shmem_shz.c`). A member is a module page, which names
the index page of its content; index pages list the pages of the content's
chunks, and are chained. The file table is a binary tree of map pages, which map
a slot of a file name's key to its module page.

A chunk is a raw data page, or a zlib page that names the first of a chain of
pages with the compressed bytes. The loops take a number of passes. A buffer that
is read into has no result where it would need 2^31 bytes.
-/

namespace LibShare.Shz

open Mem

/-! ## Map pages

`right` and `left` are at offsets 8 and 12, and the slots follow. -/

/-- `SHZ_HASH_MASK`. -/
def hashMask : Nat := 240

/-- A slot of a map page, or a reference of an index page. -/
def segOf (i : Nat) : Nat := 16 + 4 * i

/-- `shz_map_set`. -/
def shzMapSet (p hnum ref : Nat) : ShzM Unit := do
  if hnum = 0 ∨ hashMask ≤ hnum then Prog.fail .inval
  else do
    let seg ← Prog.read fun z => z.fld p (segOf hnum) 4
    if seg ≠ 0 then
      if seg = ref then pure () else Prog.fail .exist
    else put p (segOf hnum) (beBytes 4 ref)

/-- `shz_map_get`. -/
def shzMapGet (p hnum : Nat) : ShzM Nat := do
  if hnum = 0 ∨ hashMask ≤ hnum then Prog.fail .inval
  else do
    let seg ← Prog.read fun z => z.fld p (segOf hnum) 4
    if seg = 0 then Prog.fail .noent else pure seg

/-- `is_shz_mod_type`. -/
def isShzModType (type : Nat) : Bool := type = pageFile || type = pageDir || type = pageZlib

/-- `shz_mod_id`: the bytes of the key. -/
def shzModId (bnum : Nat) : ShzM Bytes := do
  let blk ← shzPage bnum
  match blk with
  | none => Prog.fail .noent
  | some p => do
    let type ← Prog.read fun z => shzPageType z p
    if isShzModType type then Prog.read fun z => z.bytes p 8 32 else Prog.fail .inval

/-! ## Table trees -/

/-- The offset of the reference to a child in a map page. -/
def childOf (even : Bool) : Nat := if even then 12 else 8

/-- The child of a node that is in memory. -/
def Tree.child (even : Bool) : Tree → Tree
  | .nil => .nil
  | .node _ left right => if even then left else right

/-- A child is hung below a node. -/
def Tree.setChild (even : Bool) (child : Tree) : Tree → Tree
  | .nil => .nil
  | .node seq left right => if even then .node seq child right else .node seq left child

def Tree.isNil : Tree → Bool
  | .nil => true
  | .node _ _ _ => false

/-- The side and the slot of a key. -/
def keySide (key : ShKey) : Bool := (shkeyCrc key).toNat % 2 = 0

def keySlot (key : ShKey) : Nat := (shkeyCrc key).toNat / 2 % hashMask

/-- The child that `shz_tree_add` goes to: one in memory, else one that the map
page refers to, else a new one. A new page may move the buffer, and the map page
is then written through a pointer to where it was. -/
def addChild (even : Bool) (node : Tree) (p : Nat) : ShzM Tree := do
  if (node.child even).isNil then do
    let ref ← Prog.read fun z => z.fld p (childOf even) 4
    if ref = 0 then do
      let max ← Prog.read fun z => z.buff.dataMax
      let blk ← shzPageNew pageBranch
      match blk with
      | none => Prog.fail .io
      | some bnum => do
        let moved ← Prog.read fun z => decide (z.buff.dataMax ≠ max)
        if moved then Prog.undef
        else do
          put p (childOf even) (beBytes 4 bnum)
          shzCrcSet p
          pure (.node bnum .nil .nil)
    else pure (.node ref .nil .nil)
  else pure (node.child even)

/-- `shz_tree_add`: the tree with the nodes that have been loaded, and the status. -/
def shzTreeAdd (even : Bool) (hnum ref : Nat) : Nat → Tree → ShzM (Tree × Except Sherr Unit)
  | 0, _ => Prog.undef
  | _ + 1, .nil => pure (.nil, .ok ())
  | fuel + 1, .node seq left right => do
    let node := Tree.node seq left right
    let blk ← shzPage seq
    match blk with
    | none => pure (node, .error .io)
    | some p => do
      -- determine if node has same id ref
      let err ← Prog.attempt (shzMapSet p hnum ref)
      match err with
      | .ok _ => pure (node, .ok ())
      | .error _ => do
        let child ← Prog.attempt (addChild even node p)
        match child with
        | .error err => pure (node, .error err)
        | .ok child => do
          let added ← shzTreeAdd even hnum ref fuel child
          pure (Tree.setChild even added.1 node, added.2)

/-- The child that `shz_tree_get` goes to, if there is one: one in memory, else
one that the map page refers to. -/
def getChild (even : Bool) (node : Tree) (p : Nat) (moved : Bool) : ShzM Tree := do
  if (node.child even).isNil then
    if moved then Prog.undef
    else do
      let ref ← Prog.read fun z => z.fld p (childOf even) 4
      pure (if ref = 0 then .nil else .node ref .nil .nil)
  else pure (node.child even)

/-- `shz_tree_get`: the tree with the nodes that have been loaded, and the page
unless there is none. -/
def shzTreeGet (even : Bool) (hnum : Nat) (id : Bytes) :
    Nat → Tree → ShzM (Tree × Except Sherr Nat)
  | 0, _ => Prog.undef
  -- not map'd
  | _ + 1, .nil => pure (.nil, .error .noent)
  | fuel + 1, .node seq left right => do
    let node := Tree.node seq left right
    let blk ← shzPage seq
    match blk with
    | none => pure (node, .error .io)
    | some p => do
      let slot ← Prog.attempt (shzMapGet p hnum)
      match slot with
      | .error err => pure (node, .error err)
      | .ok refBnum => do
        let max ← Prog.read fun z => z.buff.dataMax
        let refId ← Prog.attempt (shzModId refBnum)
        match refId with
        | .error err => pure (node, .error err)
        | .ok refId =>
          -- found match
          if refId = id then pure (node, .ok refBnum)
          else do
            let moved ← Prog.read fun z => decide (z.buff.dataMax ≠ max)
            let child ← getChild even node p moved
            let found ← shzTreeGet even hnum id fuel child
            pure (Tree.setChild even found.1 node, found.2)

/-- `shkey_bin`. -/
def shkeyBin (env : Env) (data : Bytes) : ShKey := if data = [] then
  ashkeyBlank else env.keyBin data

/-- `shz_ftable_get`. -/
def shzFtableGet (env : Env) (fuel : Nat) (filename : Bytes) : ShzM Nat := do
  let key := shkeyBin env filename
  let tree ← Prog.read Arch.ftable
  if tree.isNil then Prog.fail .inval
  else do
    let found ← shzTreeGet (keySide key) (keySlot key) key.toBytes fuel tree
    Prog.modify fun z => { z with ftable := found.1 }
    match found.2 with
    | .error err => Prog.fail err
    | .ok bnum => pure bnum

/-- `shz_ftable_set`. -/
def shzFtableSet (env : Env) (fuel : Nat) (filename : Bytes) (pnum : Nat) : ShzM Unit := do
  let key := shkeyBin env filename
  let tree ← Prog.read Arch.ftable
  if tree.isNil then Prog.fail .inval
  else do
    let added ← shzTreeAdd (keySide key) (keySlot key) pnum fuel tree
    Prog.modify fun z => { z with ftable := added.1 }
    match added.2 with
    | .error err => Prog.fail err
    | .ok _ => pure ()

/-! ## Data pages -/

/-- `sizeof(shz_data_t)`, and `sizeof(shz_index_t)`. -/
def sizeofData : Nat := 16

/-- `sizeof(shz_mod_t)`. -/
def sizeofMod : Nat := 80

/-- `shz_raw_write`: the page and the number of bytes it holds. -/
def shzRawWrite (data : Bytes) : ShzM (Nat × Nat) := do
  let blk ← shzPageNew pageData
  match blk with
  | none => Prog.undef
  | some p => do
    let wLen := min (pageSize - sizeofData) data.length
    put p sizeofData (data.take wLen)
    shzPageSizeSet p (wLen + sizeofData)
    shzCrcSet p
    pure (p, wLen)

/-- `shbuf_cat` into a buffer that is read into. -/
def catTo (buff part : Bytes) : ShzM Bytes :=
  if Mem.Fits (buff.length + part.length) then pure (buff ++ part) else Prog.undef

/-- `shz_raw_read`. -/
def shzRawRead (bnum : Nat) : ShzM Bytes := do
  let blk ← shzPage bnum
  match blk with
  | none => Prog.fail .inval
  | some p => do
    let size ← Prog.read fun z => shzPageSize z p
    if size < sizeofData then Prog.fail .io
    else do
      let max ← Prog.read fun z => z.buff.dataMax
      -- the recorded size is that of a page or not
      if max < p * pageSize + size then Prog.undef
      else Prog.read fun z => z.bytes p sizeofData (size - sizeofData)

/-- The last page of a chain, if there is one, names the next one in a field. -/
def linkPage (of last p : Nat) : ShzM Unit := do
  if last = 0 then pure ()
  else do
    let lBlk ← shzPage last
    match lBlk with
    | none => pure ()
    | some l => do
      put l of (beBytes 4 p)
      shzCrcSet l

/-- The loop of `shz_zlib_write`, over the compressed bytes: the first page. -/
def zlibPages (zData : Bytes) (first last : Nat) : Nat → ShzM Nat
  | 0 => Prog.undef
  | fuel + 1 =>
    if zData = [] then pure first
    else do
      let len := min (pageSize - sizeofMod) zData.length
      let blk ← shzPageNew pageZlibData
      match blk with
      | none => Prog.fail .io
      | some p => do
        linkPage 56 last p
        shzPageSizeSet p (sizeofMod + len)
        put p sizeofMod (zData.take len)
        shzCrcSet p
        zlibPages (zData.drop len) (if first = 0 then p else first) p fuel

/-- `shz_zlib_new`. -/
def shzZlibNew (rawBnum rawLen : Nat) (id : ShKey) : ShzM Nat := do
  let blk ← shzPageNew pageZlib
  match blk with
  | none => Prog.fail .io
  | some p => do
    put p 40 (beBytes 4 rawLen)
    put p 56 (beBytes 4 rawBnum)
    put p 8 id.toBytes
    shzPageSizeSet p sizeofMod
    shzCrcSet p
    pure p

/-- `shz_zlib_write`, in segments of one meg. -/
def shzZlibWrite (env : Env) (fuel : Nat) (data : Bytes) : ShzM (Nat × Nat) := do
  let data := data.take 1048576
  let zData := env.deflate data
  let first ← zlibPages zData 0 0 fuel
  let p ← shzZlibNew first zData.length (shkeyBin env data)
  -- add to the 'archived data size' reported by archive
  Prog.modify fun z => shzZsizeIncr z data.length
  pure (p, data.length)

/-- The loop of `shz_zlib_read`: the compressed bytes. -/
def zlibBytes : Nat → Option Nat → Bytes → ShzM Bytes
  | 0, _, _ => Prog.undef
  | _ + 1, none, buff => pure buff
  | fuel + 1, some p, buff => do
    let size ← Prog.read fun z => shzPageSize z p
    if size < sizeofMod ∨ pageSize < size then Prog.fail .io
    else do
      let part ← Prog.read fun z => z.bytes p sizeofMod (size - sizeofMod)
      let buff ← catTo buff part
      -- next page
      let bnum ← Prog.read fun z => z.fld p 56 4
      if bnum = 0 then pure buff
      else do
        let blk ← shzPage bnum
        zlibBytes fuel blk buff

/-- `shzdec`. -/
def shzdec (env : Env) (data : Bytes) : Except Sherr Bytes :=
  if data = [] then .ok [] else env.inflate data

/-- `shz_zlib_read`. -/
def shzZlibRead (env : Env) (fuel : Nat) (bnum : Nat) : ShzM Bytes := do
  let blk ← shzPage bnum
  match blk with
  | none => Prog.fail .io
  | some p => do
    let type ← Prog.read fun z => shzPageType z p
    if type ≠ pageZlib then Prog.fail .io
    else do
      let seq ← Prog.read fun z => z.fld p 56 4
      let page ← shzPage seq
      let data ← zlibBytes fuel page []
      match shzdec env data with
      | .error err => Prog.fail err
      | .ok out => catTo [] out

/-! ## Index pages

The next index page is at offset 8, and the references follow. -/

/-- `SHZ_MAX_INDEX_SIZE`. -/
def maxIndexSize : Nat := (pageSize - sizeofData) / 4

/-- The first reference of an index page that is not set. -/
def freeSeg (z : Arch) (p : Nat) : Nat :=
  (List.range maxIndexSize).findIdx fun i => decide (z.fld p (segOf i) 4 = 0)

/-- `shz_index_append`. -/
def shzIndexAppend (p bnum : Nat) : ShzM Unit := do
  let i ← Prog.read fun z => freeSeg z p
  if i = maxIndexSize then Prog.fail .nobufs
  else do
    put p (segOf i) (beBytes 4 bnum)
    shzPageSizeSet p (sizeofData + (i + 1) * 4)

/-- The index page that `shz_index_add` is to append to: the current one, or a
new one that is chained to the last one. -/
def indexPage (seq lSeq : Nat) : ShzM Nat := do
  if seq ≠ 0 then do
    let blk ← shzPage seq
    match blk with
    | none => Prog.fail .io
    | some p => pure p
  else do
    -- create new index page
    let blk ← shzPageNew pageIndex
    match blk with
    | none => Prog.fail .io
    | some p => do
      -- record chain sequence
      linkPage 8 lSeq p
      pure p

/-- The loop of `shz_index_add`, over the data from the current offset on, with
the current index page, the last one and the first one. -/
def indexAddLoop (write : Bytes → ShzM (Nat × Nat)) :
    Nat → Bytes → Nat → Nat → Nat → ShzM Nat
  | 0, _, _, _, _ => Prog.undef
  | fuel + 1, data, seq, lSeq, retIdx =>
    if data = [] then pure retIdx
    else do
      let w ← write data
      let p ← indexPage seq lSeq
      let retIdx := if seq = 0 ∧ retIdx = 0 then p else retIdx
      -- add reference to data content
      let err ← Prog.attempt (shzIndexAppend p w.1)
      match err with
      | .ok _ => indexAddLoop write fuel (data.drop w.2) p lSeq retIdx
      | .error .nobufs => do
        -- create a new page
        shzCrcSet p
        indexAddLoop write fuel (data.drop w.2) 0 p retIdx
      | .error err => Prog.fail err

/-- `shz_index_write`. -/
def shzIndexWrite (write : Bytes → ShzM (Nat × Nat)) (fuel : Nat) (data : Bytes) : ShzM Nat :=
  indexAddLoop write fuel data 0 0 0

/-- The references of an index page from a number on, in `shz_index_read`. -/
def indexRefs (read : Nat → ShzM Bytes) (bnum : Nat) : Nat → Nat → Bytes → ShzM Bytes
  | 0, _, buff => pure buff
  | n + 1, i, buff => do
    let blk ← shzPage bnum
    match blk with
    | none => Prog.fail .inval
    | some p => do
      let ref ← Prog.read fun z => z.fld p (segOf i) 4
      if ref = 0 then pure buff
      else do
        -- room for the page that is referred to, whatever the reference
        alloc (lenUpTo ref)
        let part ← read ref
        let buff ← catTo buff part
        indexRefs read bnum n (i + 1) buff

/-- `shz_index_read`: the buffer with what has been appended. -/
def shzIndexRead (read : Nat → ShzM Bytes) : Nat → Nat → Bytes → ShzM Bytes
  | 0, _, _ => Prog.undef
  | fuel + 1, bnum, buff =>
    if bnum = 0 then pure buff
    else do
      let buff ← indexRefs read bnum maxIndexSize 0 buff
      -- iterate to next index page in chain
      let blk ← shzPage bnum
      match blk with
      | none => Prog.fail .inval
      | some p => do
        let next ← Prog.read fun z => z.fld p 8 4
        shzIndexRead read fuel next buff

/-! ## Modules -/

/-- The data writer of an archive. -/
def writerOf (env : Env) (fuel : Nat) (raw : Bool) : Bytes → ShzM (Nat × Nat) :=
  if raw then shzRawWrite else shzZlibWrite env fuel

/-- The data reader that belongs to it. -/
def readerOf (env : Env) (fuel : Nat) (raw : Bool) : Nat → ShzM Bytes :=
  if raw then shzRawRead else shzZlibRead env fuel

/-- `shz_mod_write`. -/
def shzModWrite (env : Env) (fuel : Nat) (modBnum : Nat) (buff : Bytes) : ShzM Unit := do
  let raw ← Prog.read fun z => decide (z.flags &&& flagRaw ≠ 0)
  let bnum ← shzIndexWrite (writerOf env fuel raw) fuel buff
  let blk ← shzPage modBnum
  match blk with
  | none => Prog.fail .io
  | some p => do
    -- the reference, the size and the checksum of the content
    put p 56 (beBytes 4 bnum)
    put p 40 (beBytes 4 buff.length)
    put p 44 (leBytes32 (shcrc32 buff))
    let now ← shtime env
    put p 72 (leBytes64 now)
    put p 64 (leBytes64 now)
    shzPageSizeSet p sizeofMod
    shzCrcSet p

/-- A new module page, with its name. -/
def entityNew (env : Env) (fuel : Nat) (filename : Bytes) (type : Nat) : ShzM Nat := do
  let blk ← shzPageNew type
  match blk with
  | none => Prog.fail .io
  | some bnum => do
    -- save the filename in the archive
    let name ← shzRawWrite filename
    -- record the file in the file table
    shzFtableSet env fuel filename bnum
    let file ← shzPage bnum
    match file with
    | none => Prog.undef
    | some p => do
      -- set filename
      put p 60 (beBytes 4 name.1)
      -- set ID key
      put p 8 (shkeyBin env filename).toBytes
      -- finalize checksum
      shzCrcSet p
      pure bnum

/-- `shz_entity_get`. A page that is found is not returned: the caller is given
`bidx`, a local variable that has no value yet. -/
def shzEntityGet (env : Env) (fuel : Nat) (bidx : Nat) (filename : Bytes) (type : Nat) :
    ShzM Nat := do
  let found ← Prog.attempt (shzFtableGet env fuel filename)
  match found with
  | .ok _ => pure bidx
  | .error _ => entityNew env fuel filename type

/-- `shz_file_write`. -/
def shzFileWrite (env : Env) (fuel : Nat) (bidx : Nat) (filename buff : Bytes) : ShzM Unit := do
  let bnum ← shzEntityGet env fuel bidx filename pageFile
  shzModWrite env fuel bnum buff

/-- `shz_data_read`. -/
def shzDataRead (env : Env) (fuel : Nat) (bnum : Nat) : ShzM Bytes := do
  let hdr ← shzPage bnum
  match hdr with
  | none => Prog.fail .inval
  | some p => do
    let type ← Prog.read fun z => shzPageType z p
    if type = pageZlib then shzZlibRead env fuel bnum else Prog.fail .opnotsupp

/-- `shz_file_read`, into an empty buffer. -/
def shzFileRead (env : Env) (fuel : Nat) (filename : Bytes) : ShzM Bytes := do
  let bidx ← shzFtableGet env fuel filename
  let file ← shzPage bidx
  match file with
  | none => Prog.fail .io
  | some p => do
    let dNum ← Prog.read fun z => z.fld p 56 4
    let max ← Prog.read fun z => z.buff.dataMax
    let buff ← shzDataRead env fuel dNum
    let moved ← Prog.read fun z => decide (z.buff.dataMax ≠ max)
    -- the page is read through a pointer to where the buffer was
    if moved then Prog.undef
    else do
      let size ← Prog.read fun z => z.fld p 40 4
      let crc ← Prog.read fun z => z.bytes p 44 4
      if size ≠ buff.length then Prog.fail .inval
      else if leBytes32 (shcrc32 buff) ≠ crc then Prog.fail .ilseq
      else pure buff

/-! ## Opening and closing -/

/-- A table is made, and its page is named at an offset of the base page. -/
def tableNew (of : Nat) : ShzM Tree := do
  let blk ← shzPageNew pageRoot
  match blk with
  | none => pure .nil
  | some p => do
    put 0 of (beBytes 4 p)
    shzPageSizeSet p sizeofData
    shzCrcSet p
    pure (.node p .nil .nil)

/-- `shz_arch_dtable_init` and `shz_arch_ftable_init`, for the table whose page is
at an offset of the base page. -/
def tableInit (of : Nat) : ShzM Tree := do
  let bnum ← Prog.read fun z => z.fld 0 of 4
  if bnum ≠ 0 then do
    let blk ← shzPage bnum
    match blk with
    | some p => pure (.node p .nil .nil)
    | none => tableNew of
  else tableNew of

/-- Both tables. -/
def tablesInit : ShzM Unit := do
  let dtable ← tableInit 56
  Prog.modify fun z => { z with dtable := dtable }
  let ftable ← tableInit 60
  Prog.modify fun z => { z with ftable := ftable }

/-- A fresh base page. -/
def baseInit (env : Env) (salt : UInt16) : ShzM Unit := do
  Prog.modify fun z => { z with bseq := 0, live := 0 }
  let blk ← shzPageNew pageBase
  match blk with
  | none => Prog.undef
  | some p => do
    put p 2 magic
    -- unique quantifier for checksum
    put p 8 (beBytes 2 salt.toNat)
    -- base header
    put p 16 (beBytes 8 pageSize)
    put p 24 (beBytes 8 0)
    let now ← shtime env
    put p 48 (leBytes64 now)
    put p 40 (leBytes64 now)
    shzPageSizeSet p 64

/-- The flags that `shz_arch_init` works with. -/
def initFlags (buf : Shbuf) (flags : UInt32) : UInt32 :=
  let flags := if buf.dataOf < pageSize then flags ||| flagFresh else flags
  if flags &&& flagTrunc ≠ 0 then flags ||| flagFresh else flags

/-- The archive in memory before `shz_arch_init`, with the pages that have been handed out
in earlier sessions. -/
def Arch.blank (buf : Shbuf) (clocks : Nat) (handed : List (Nat × Nat)) : Arch :=
  { bseq := 0, flags := 0, buff := buf, dtable := .nil, ftable := .nil, clocks := clocks
    live := 0, handed := handed }

/-- The base page is made, or the one that is there is checked. -/
def baseOpen (env : Env) (salt : UInt16) (flags : UInt32) : ShzM Unit := do
  if flags &&& flagFresh ≠ 0 then baseInit env salt
  else do
    Prog.modify fun z => { z with live := max 1 (maxSeq z) }
    let ok ← Prog.read fun z => decide (z.bytes 0 2 2 = magic ∧ shzSize z ≠ 0)
    if ok then pure () else Prog.fail .ilseq

/-- `shz_arch_init` on the buffer of the archive. -/
def shzArchInit (env : Env) (salt : UInt16) (flags : UInt32) : ShzM Unit := do
  let flags ← Prog.read fun z => initFlags z.buff flags
  -- count anything already allocated
  Prog.modify fun z => shzScan z 0 z.buff.dataMax
  let len ← Prog.read fun z => max (z.bseq * pageSize) allocSize
  alloc len
  baseOpen env salt flags
  tablesInit
  Prog.modify fun z => { z with flags := flags }

/-- What `shz_arch_free` leaves for the next `shz_arch_init`: a buffer with the
size of the archive, or a file that is cut to it and mapped again (`shbuf_file`). -/
def shzArchFree (z : Arch) : Shbuf :=
  let len := shzSize z
  if z.buff.mapped then
    let max := max (len / 8192) 2 * 8192
    { z.buff with
      data := fun i => if i < len then z.buff.data i else 0
      dataOf := max
      dataMax := max }
  else { z.buff with dataOf := len }

end LibShare.Shz
