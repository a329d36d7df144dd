import LibShare.Fs.Journal

/-!
# libshare — sharefs inodes

The operations on inodes: the auxiliary content of an inode (`shfs_aux.c`), its
truncation and removal (`shfs_inode.c`) and the linking of a new inode to its
parent (`shfs_link.c`).

An inode is a block, and it is held in memory too, as a copy of that block; the
operations work on the copy and write it back. `fpos` of an inode refers to the
first block of its chain, and `npos` of a block to the next block of the chain
that it is in. The chain of an inode with content is its content blocks; the
chain of a directory is its children.

The loops follow positions out of the store, which may form a cycle, so they
take a number of passes. Without a value the call has not returned.
-/

namespace LibShare.Fs

/-! ## Auxiliary content (`shfs_aux.c`) -/

/-- `memcpy` into a data segment. -/
def overlay (raw : Vector UInt8 blockDataSize) (of : Nat) (data : Bytes) :
    Vector UInt8 blockDataSize :=
  Vector.ofFn fun i : Fin blockDataSize =>
    if of ≤ i ∧ i < of + data.length then data.getD (i - of) 0 else raw[i]

/-- `shfs_aux_pwrite_create`: the current block with its next position, and the
next block. -/
def shfsAuxPwriteCreate (env : Env) (fs : Shfs) (blk : Block) :
    Except Sherr (Shfs × Block × Block) :=
  match shfsJournalScan env fs blk.name with
  | .error err => .error err
  | .ok (fs, idx) =>
    let blk := { blk with npos := idx }
    .ok (fs.born, blk,
      { Block.zero with
        type := .aux, pos := idx, ctime := env.birth fs.births, name := env.keyBin blk })

/-- `shfs_aux_pwrite_block`: the block with its part of the data, and the write
offset. -/
def shfsAuxPwriteBlock (blk : Block) (chunk : Bytes) (writeOf seekOf : Nat) : Block × Nat :=
  -- not past the initial seek offset
  if writeOf + chunk.length < seekOf then (blk, writeOf + chunk.length)
  else
    let wOf := if writeOf < seekOf then seekOf - writeOf else 0
    ({ blk with raw := overlay blk.raw wOf (chunk.drop wOf) }, writeOf + chunk.length)

/-- The next block reference of the loop of `shfs_aux_pwrite`: a new block while
data is pending at the end of the chain, else the existing one. -/
def auxNext (env : Env) (fs : Shfs) (blk : Block) (rest : Bytes) :
    Except Sherr (Shfs × Block × Block) :=
  if blk.npos.ino = 0 then
    if rest ≠ [] then shfsAuxPwriteCreate env fs blk else .ok (fs, blk, Block.zero)
  else
    match shfsInodeReadBlock fs blk.npos with
    | .error err => .error err
    | .ok nblk => .ok (fs, blk, nblk)

/-- The header of a block that has been given its data. -/
def auxSeal (blk : Block) (len : Nat) : Block :=
  let blk := { blk with size := len, crc := 0 }
  { blk with crc := shfsCrcInit blk }

/-- A block is written unless it is what the store holds. -/
def auxStore (env : Env) (fs : Shfs) (oblk blk : Block) : Shfs × Except Sherr Unit :=
  if oblk = blk then (fs, .ok ())
  else
    match shfsInodeWriteBlock env fs blk with
    | (fs, _, r) => (fs, r)

/-- The loop of `shfs_aux_pwrite`, over the data from the current offset on. -/
def shfsAuxPwriteLoop (env : Env) (seekOf : Nat) :
    Nat → Shfs → Block → Block → Bytes → Nat → UInt64 → Option (Shfs × Except Sherr UInt64)
  | 0, _, _, _, _, _, _ => none
  | fuel + 1, fs, blk, oblk, data, wof, segCrc =>
    if blk.pos.ino = 0 then some (fs, .ok segCrc)
    else
      let chunk := data.take blockDataSize
      let rest := data.drop blockDataSize
      -- the next block is read, or taken, before this one is stored
      match auxNext env fs blk rest with
      | .error err => some (fs, .error err)
      | .ok (fs, blk, nblk) =>
        match shfsAuxPwriteBlock blk chunk wof seekOf with
        | (blk, wof) =>
          let blk := auxSeal blk chunk.length
          match auxStore env fs oblk blk with
          | (fs, .error err) => some (fs, .error err)
          | (fs, .ok _) =>
            shfsAuxPwriteLoop env seekOf fuel fs nblk nblk rest wof (segCrc + blk.crc)

/-- The first block of the content: the inode (with its first position), the
block, and what the store holds in its place. -/
def auxFirst (env : Env) (fs : Shfs) (inode : Block) :
    Except Sherr (Shfs × Block × Block × Block) :=
  if inode.fpos.ino = 0 then
    match shfsJournalScan env fs inode.name with
    | .error err => .error err
    | .ok (fs, idx) =>
      let inode := { inode with fpos := idx }
      .ok (fs.born, inode,
        { Block.zero with
          type := .aux, pos := idx, ctime := env.birth fs.births, name := env.keyBin inode },
        Block.zero)
  else
    match shfsInodeReadBlock fs inode.fpos with
    | .error err => .error err
    | .ok blk => .ok (fs, inode, blk, blk)

/-- `shfs_aux_pwrite`: the store, the inode and the status. -/
def shfsAuxPwrite (env : Env) (fuel : Nat) (fs : Shfs) (inode : Block) (data : Bytes)
    (seekOf : Nat) : Option (Shfs × Block × Except Sherr Unit) :=
  match auxFirst env fs inode with
  | .error err => some (fs, inode, .error err)
  | .ok (fs, inode, blk, oblk) =>
    match shfsAuxPwriteLoop env seekOf fuel fs blk oblk data 0 0 with
    | none => none
    | some (fs, .error err) => some (fs, inode, .error err)
    | some (fs, .ok segCrc) =>
      some (shfsInodeWriteBlock env fs { inode with crc := segCrc, size := data.length })

/-- `shfs_aux_write`. -/
def shfsAuxWrite (env : Env) (fuel : Nat) (fs : Shfs) (inode : Block) (data : Bytes) :
    Option (Shfs × Block × Except Sherr Unit) :=
  shfsAuxPwrite env fuel fs inode data 0

/-- What `shfs_aux_pread` asks of a buffer. -/
structure PreadBuff (β : Type) where
  /-- `shbuf_size` -/
  size : β → Nat
  /-- the room that is left in a map (`SHBUF_FMAP`) -/
  room : β → Option Nat
  /-- `shbuf_cat` -/
  cat : β → Bytes → Option β

/-- A buffer on the heap that can hold what is read: `shbuf_grow` stops at 2^31 bytes. -/
def PreadBuff.heap : PreadBuff Bytes where
  size := List.length
  room := fun _ => none
  cat := fun ret data => some (ret ++ data)

/-- What one block adds to the buffer of `shfs_aux_pread`, of which `raw` is the data segment.
Differences of sizes wrap around at 64 bits. -/
def auxPreadBlock {β : Type} (B : PreadBuff β) (raw : Bytes)
    (bOf bLen seekOf seekMax : Nat) (ret : β) :
    Option β :=
  if seekOf = 0 ∨ seekOf ≤ bOf then
    -- full buffer read, as far as there is room in a map
    let len := match B.room ret with
      | some room => min bLen room
      | none => bLen
    B.cat ret (raw.take len)
  else if seekOf ≤ bOf + bLen then
    -- partial buffer read
    let rLen := min bLen (bOf + bLen - seekOf)
    let rOf := bLen - rLen
    let room := (seekMax + 2 ^ 64 - B.size ret) % 2 ^ 64
    let rLen := if seekMax ≠ 0 ∧ room < rLen then room else rLen
    B.cat ret ((raw.drop rOf).take rLen)
  else some ret

/-- The loop of `shfs_aux_pread`. -/
def shfsAuxPreadLoop {β : Type} (B : PreadBuff β) (dataLen seekOf seekMax : Nat) :
    Nat → Shfs → Idx → Nat → β → Option (Except Sherr β)
  | 0, _, _, _, _ => none
  | fuel + 1, fs, idx, bOf, ret =>
    if idx.ino = 0 then some (.ok ret)
    else
      match shfsInodeReadBlock fs idx with
      | .error err => some (.error err)
      | .ok blk =>
        let bLen := min blockDataSize (dataLen - bOf)
        match auxPreadBlock B blk.raw.toList bOf bLen seekOf seekMax ret with
        | none => none
        | some ret =>
          let bOf := bOf + bLen
          -- break out if we have exceeded the max size
          if seekMax ≠ 0 ∧ (seekMax + seekOf) % 2 ^ 64 < bOf then some (.ok ret)
          else shfsAuxPreadLoop B dataLen seekOf seekMax fuel fs blk.npos bOf ret

/-- `shfs_aux_pread`. -/
def shfsAuxPread {β : Type} (B : PreadBuff β) (fuel : Nat) (fs : Shfs) (inode : Block) (ret : β)
    (seekOf seekMax : Nat) : Option (Except Sherr β) :=
  if seekOf ≠ 0 ∧ inode.size ≤ seekOf then some (.ok ret)
  else shfsAuxPreadLoop B inode.size seekOf seekMax fuel fs inode.fpos 0 ret

/-- `shfs_aux_read`, into an empty buffer. -/
def shfsAuxRead (fuel : Nat) (fs : Shfs) (inode : Block) : Option (Except Sherr Bytes) :=
  shfsAuxPread .heap fuel fs inode [] 0 0

/-! ## Truncation and removal (`shfs_inode.c`) -/

/-- A block cut to a length: the rest of its data segment is zeroed. -/
def truncateBlock (blk : Block) (len : Nat) : Block :=
  let blk := { blk with
    size := len
    raw := if len ≠ blockDataSize then
      overlay blk.raw len (List.replicate (blockDataSize - len) 0) else blk.raw }
  { blk with crc := shfsCrcInit blk }

/-- The loop of `shfs_inode_truncate`. -/
def truncateLoop (env : Env) (inoLen : Nat) :
    Nat → Shfs → Idx → Nat → UInt64 → Option (Shfs × Except Sherr UInt64)
  | 0, _, _, _, _ => none
  | fuel + 1, fs, idx, bOf, segCrc =>
    if idx.ino = 0 then some (fs, .ok segCrc)
    else
      match shfsInodeReadBlock fs idx with
      | .error err => some (fs, .error err)
      | .ok blk =>
        let bOf' := bOf + blk.size
        if inoLen ≤ bOf then
          -- after specified length: wipe current position
          match shfsInodeClearBlock fs idx with
          | .error err => some (fs, .error err)
          | .ok fs => truncateLoop env inoLen fuel fs blk.npos bOf' (segCrc + blk.crc)
        else if inoLen ≤ bOf + blk.size then
          -- partially truncate current block
          let blk := truncateBlock blk (min blockDataSize (inoLen - bOf))
          match shfsInodeWriteBlock env fs blk with
          | (fs, _, .error err) => some (fs, .error err)
          | (fs, _, .ok _) => truncateLoop env inoLen fuel fs blk.npos bOf' (segCrc + blk.crc)
        else truncateLoop env inoLen fuel fs blk.npos bOf' (segCrc + blk.crc)

/-- `shfs_inode_truncate`: the store, the inode and the status. -/
def shfsInodeTruncate (env : Env) (fuel : Nat) (fs : Shfs) (inode : Block) (inoLen : Nat) :
    Option (Shfs × Block × Except Sherr Unit) :=
  if inode.type ≠ .binary then some (fs, inode, .error .inval)
  else if inode.size = inoLen then some (fs, inode, .ok ())
  else if inoLen < inode.size then
    match truncateLoop env inoLen fuel fs inode.fpos 0 0 with
    | none => none
    | some (fs, .error err) => some (fs, inode, .error err)
    | some (fs, .ok segCrc) =>
      some (shfsInodeWriteBlock env { fs with writes := fs.writes + 1 }
        { inode with crc := segCrc, mtime := env.clock fs.writes, size := inoLen })
  else
    -- a longer length is only noted
    some (shfsInodeWriteBlock env { fs with writes := fs.writes + 1 }
      { inode with mtime := env.clock fs.writes, size := inoLen })

/-- The loop of `shfs_inode_clear`. The position that the loop tests is the
`npos` field of the local block, which is overwritten with the block read from
there. -/
def clearLoop : Nat → Shfs → Idx → Block → Option (Shfs × Except Sherr Unit)
  | 0, _, _, _ => none
  | fuel + 1, fs, idx, blk =>
    if idx.ino = 0 then some (fs, .ok ())
    else
      match shfsInodeClearBlock fs idx with
      | .error err => some (fs, .error err)
      | .ok fs =>
        if blk.npos.ino = 0 then clearLoop fuel fs Block.zero.npos Block.zero
        else
          match shfsInodeReadBlock fs blk.npos with
          | .error err => some (fs, .error err)
          | .ok nblk => clearLoop fuel fs nblk.npos nblk

/-- The inode as `shfs_inode_clear` resets it. -/
def resetInode (inode : Block) : Block :=
  { inode with ctime := 0, mtime := 0, size := 0, format := .null, fpos := Idx.zero, crc := 0 }

/-- `shfs_inode_clear`. -/
def shfsInodeClear (env : Env) (fuel : Nat) (fs : Shfs) (inode : Block) :
    Option (Shfs × Block × Except Sherr Unit) :=
  match clearLoop fuel fs inode.fpos inode with
  | none => none
  | some (fs, .error err) => some (fs, inode, .error err)
  | some (fs, .ok _) => some (shfsInodeWriteBlock env fs (resetInode inode))

/-! ## Links (`shfs_link.c`) -/

/-- The loop of `shfs_link_find`. -/
def linkFindLoop (key : ShKey) : Nat → Shfs → Idx → Option (Except Sherr Block)
  | 0, _, _ => none
  | fuel + 1, fs, idx =>
    if idx.ino = 0 then some (.error .noent)
    else
      match shfsInodeReadBlock fs idx with
      | .error err => some (.error err)
      | .ok blk =>
        if blk.npos = idx then some (.error .io)
        else if blk.name = key then some (.ok blk)
        else linkFindLoop key fuel fs blk.npos

/-- `shfs_link_find`. -/
def shfsLinkFind (fuel : Nat) (fs : Shfs) (parent : Block) (key : ShKey) :
    Option (Except Sherr Block) :=
  if parent.type.isContainer then linkFindLoop key fuel fs parent.fpos
  else some (.error .inval)

/-- The part of `shfs_link` after the search: the store, the parent, the inode
and the status. -/
def linkNew (env : Env) (fs : Shfs) (parent inode : Block) :
    Shfs × Block × Block × Except Sherr Unit :=
  match (if parent.fpos.ino = 0 then .ok Block.zero else shfsInodeReadBlock fs parent.fpos) with
  | .error err => (fs, parent, inode, .error err)
  | .ok nblk =>
    -- assign 'next inode' reference to child
    let inode := { inode with npos := nblk.pos, pos := Idx.zero }
    match shfsJournalScan env fs inode.name with
    | .error err => (fs, parent, inode, .error err)
    | .ok (fs, idx) =>
      let inode := { inode with
        pos := idx, ctime := env.birth fs.births, mtime := env.birth fs.births }
      let inode := { inode with crc := shfsCrcInit inode }
      match shfsInodeWriteBlock env fs.born inode with
      | (fs, inode, .error err) => (fs, parent, inode, .error err)
      | (fs, inode, .ok _) =>
        -- assign 'first data' index to parent
        let parent := { parent with fpos := inode.pos }
        match shfsInodeWriteBlock env fs parent with
        | (fs, parent, r) => (fs, parent, inode, r)

/-- `shfs_link`. -/
def shfsLink (env : Env) (fuel : Nat) (fs : Shfs) (parent inode : Block) :
    Option (Shfs × Block × Block × Except Sherr Unit) :=
  if parent.type.isContainer then
    match shfsLinkFind fuel fs parent inode.name with
    | none => none
    | some (.ok _) => some (fs, parent, inode, .ok ())
    | some (.error _) => some (linkNew env fs parent inode)
  else some (fs, parent, inode, .error .notdir)

/-! ## A mounted partition

The inodes that have been opened, each with its parent. `shfs_inode` looks for a
child among them first (`shfs_cache_get`), then in the store. -/

/-- `shfs_ino_t`. -/
structure Ino where
  blk : Block
  parent : Option Nat

/-- A partition and its open inodes. -/
structure Mount where
  fs : Shfs
  inos : List Ino

/-- The path and the type that `shfs_inode` works with: a trailing slash is
dropped and makes an inode of no given type a directory. -/
def inodePath (name : Bytes) (mode : Shinode) : Bytes × Shinode :=
  let path := name.take (blockDataSize - 34 - 1)
  if path.getLast? = some 0x2f then
    (path.dropLast, if mode = .null then .directory else mode)
  else (path, if mode = .null then .file else mode)

/-- A new inode before it is linked. -/
def newInode (key : ShKey) (mode : Shinode) (path : Bytes) : Block :=
  { Block.zero with
    type := mode
    name := key
    raw := if mode.isContainer then overlay Block.zero.raw 0 path else Block.zero.raw
    format := if mode = .directory then .directory else .null }

/-- What `_shfs_inode_access_init` and `shrand` put into a new inode. They
change the copy in memory only: the inode has no partition yet. -/
structure Access where
  owner : ShKey
  attr : UInt32
  salt : UInt16

/-- `shfs_inode` below an open inode: the mount, and the number of the inode
unless it could not be opened. -/
def shfsInode (env : Env) (fuel : Nat) (m : Mount) (i : Nat) (name : Bytes) (mode : Shinode)
    (acc : Access) : Option (Mount × Option Nat) :=
  match m.inos[i]? with
  | none => some (m, none)
  | some parent =>
    let (path, mode) := inodePath name mode
    let key := env.token parent.blk.name parent.blk.salt mode path
    -- a child that is open already
    match m.inos.findIdx? fun ino => decide (ino.parent = some i ∧ ino.blk.name = key) with
    | some n => some (m, some n)
    | none =>
      -- one that is in the chain of the parent
      match shfsLinkFind fuel m.fs parent.blk key with
      | none => none
      | some (.ok blk) =>
        some ({ m with inos := m.inos ++ [{ blk := blk, parent := some i }] }, some m.inos.length)
      | some (.error .noent) =>
        -- a new one, linked in front of that chain
        match shfsLink env fuel m.fs parent.blk (newInode key mode path) with
        | none => none
        | some (fs, pblk, _, .error _) =>
          some ({ fs := fs, inos := m.inos.set i { parent with blk := pblk } }, none)
        | some (fs, pblk, blk, .ok _) =>
          let blk := { blk with owner := acc.owner, attr := acc.attr, salt := acc.salt }
          some ({ fs := fs
                  inos := m.inos.set i { parent with blk := pblk } ++
                    [{ blk := blk, parent := some i }] }, some m.inos.length)
      | some (.error _) => some (m, none)

/-- `SHATTR_READ`, `SHATTR_WRITE` and `SHATTR_EXE`: full public access. -/
def shattrPublic : UInt32 := 0x200 ||| 0x2000 ||| 0x4000

/-- `shfs_init` of a partition that has no supernode yet: the supernode in the
initial journal, and the root directory in the journal of the peer's key.
`rootKey` is the `shfs_token_init` of a directory without parent. -/
def shfsInitNew (env : Env) (peerKey rootKey : ShKey) (peerRaw : Bytes) (salt : UInt16) :
    Except Sherr Mount :=
  -- the supernode, in the initial journal
  match scanRetry Shfs.empty 0 with
  | .error err => .error err
  | .ok (fs, pos) =>
    let node := { Block.zero with type := .partition, name := peerKey, pos := pos }
    let node := { node with crc := shfsCrcInit node, ctime := env.birth fs.births }
    let node := { node with raw := overlay node.raw 0 peerRaw }
    -- the root directory, in the journal of the peer's key
    match shfsJournalScan env fs.born node.name with
    | .error err => .error err
    | .ok (fs, fpos) =>
      match shfsInodeWriteBlock env fs { node with fpos := fpos, attr := shattrPublic } with
      | (_, _, .error err) => .error err
      | (fs, _, .ok _) =>
        let root := { newInode rootKey .directory [] with pos := fpos, salt := salt }
        match shfsInodeWriteBlock env fs { root with crc := shfsCrcInit root } with
        | (_, _, .error err) => .error err
        | (fs, root, .ok _) => .ok { fs := fs, inos := [{ blk := root, parent := none }] }

end LibShare.Fs
