import LibShare.Base

/-!
# libshare — sharefs journals

The block store under a sharefs partition: `shfs_journal.c` and the block
functions of `shfs_inode.c`. A partition is a set of journals, files that hold
blocks of 4096 bytes. A block is a header and a data segment; a block whose
type is `SHINODE_NULL` is free, and `shfs_inode_clear_block` frees a block by
zeroing it.

* A position is a journal number and a block number. Position numbers are 16
  bits wide in memory, which no number below `SHFS_MAX_BLOCK` exceeds; they are
  natural numbers here.
* Journals grow by doubling and never shrink. `Shfs.size` is the length of a
  journal's map in blocks; the map of a new journal has two pages of 8192
  bytes.
* The functions that the store is independent of are the fields of `Env`: the
  journal that a key selects, the keys of blocks and paths, and the clock. The
  readings of the clock are two sequences, one for the births of blocks and one
  for their modifications, of which the store counts how far it has come.
-/

namespace LibShare.Fs

/-! ## Blocks (`shfs.h`) -/

/-- The inode types. -/
inductive Shinode
  | null
  | app
  | partition
  | peer
  | archive
  | reference
  | metadata
  | directory
  | aux
  | file
  | binary
  | compress
  | crypt
  | database
  | access
  | fileLock
  | license
  | ext
  | repository
  | revision
  | delta
  | object
  | objectKey
  | test
  | device
deriving DecidableEq, Repr

/-- `IS_INODE_CONTAINER`. -/
def Shinode.isContainer : Shinode → Bool
  | .aux | .reference | .ext | .license | .fileLock | .objectKey => false
  | _ => true

/-- `shfs_idx_t`. -/
structure Idx where
  jno : Nat
  ino : Nat
deriving DecidableEq, Repr

/-- A position after `memset`. -/
def Idx.zero : Idx := { jno := 0, ino := 0 }

/-- A position as a reference: block number zero refers to nothing. -/
def Idx.ref (pos : Idx) : Option Idx := if pos.ino = 0 then none else some pos

/-- `SHFS_MAX_BLOCK_SIZE`. -/
def maxBlockSize : Nat := 4096

/-- `sizeof(shfs_hdr_t)`: two keys, four words of 64 bits, the attributes, two
types, three positions and the salt, padded to eight bytes. -/
def sizeofHdr : Nat := 120

/-- `SHFS_BLOCK_DATA_SIZE`. -/
def blockDataSize : Nat := maxBlockSize - sizeofHdr

/-- `SHFS_MAX_BLOCK`. -/
def maxBlock : Nat := 57344

/-- `shfs_block_t`, with the fields of its `shfs_hdr_t`. -/
structure Block where
  name : ShKey
  owner : ShKey
  size : Nat
  ctime : UInt64
  mtime : UInt64
  crc : UInt64
  attr : UInt32
  type : Shinode
  format : Shinode
  pos : Idx
  npos : Idx
  fpos : Idx
  salt : UInt16
  raw : Vector UInt8 blockDataSize
deriving DecidableEq

/-- A block after `memset`. -/
def Block.zero : Block :=
  { name := ashkeyBlank, owner := ashkeyBlank, size := 0, ctime := 0, mtime := 0, crc := 0
    attr := 0, type := .null, format := .null, pos := Idx.zero, npos := Idx.zero
    fpos := Idx.zero, salt := 0, raw := Vector.replicate blockDataSize 0 }

/-- `shfs_crc_init`. -/
def shfsCrcInit (blk : Block) : UInt64 :=
  if blk.type.isContainer then shkeyCrc blk.name
  else if blk.size ≠ 0 then
    shkeyCrc blk.name + shcrc (blk.raw.toList.take (min blockDataSize blk.size))
  else 0

/-! ## The store -/

/-- What the block store takes from the rest of the library. `shfs_journal_index`
adds one to a remainder. -/
structure Env where
  journalIndex : ShKey → Nat
  journalIndex_pos : ∀ key, 0 < journalIndex key
  /-- `shkey_bin` of a block -/
  keyBin : Block → ShKey
  /-- `shfs_token_init`, of the parent's name and salt, a type and a path -/
  token : ShKey → UInt16 → Shinode → Bytes → ShKey
  /-- `shtime`, each time that a block is created -/
  birth : Nat → UInt64
  /-- `shtime`, each time that a block is modified -/
  clock : Nat → UInt64

/-- The journals of a partition. -/
structure Shfs where
  block : Idx → Block
  size : Nat → Nat
  births : Nat
  writes : Nat

/-- A partition without journals: opening one creates it with two pages. -/
def Shfs.empty : Shfs :=
  { block := fun _ => Block.zero, size := fun _ => 4, births := 0, writes := 0 }

/-- The block is in use. -/
def Shfs.live (fs : Shfs) (pos : Idx) : Prop := (fs.block pos).type ≠ .null

instance (fs : Shfs) (pos : Idx) : Decidable (fs.live pos) :=
  inferInstanceAs (Decidable ((fs.block pos).type ≠ .null))

/-- `shfs_journal_block` finds the block: it is below the size limit of a
journal, and inside the map, which `shbuf_grow` does not extend. -/
def Shfs.inMap (fs : Shfs) (pos : Idx) : Prop := pos.ino < maxBlock ∧ pos.ino < fs.size pos.jno

instance (fs : Shfs) (pos : Idx) : Decidable (fs.inMap pos) :=
  inferInstanceAs (Decidable (_ ∧ _))

/-- A block has been created. -/
def Shfs.born (fs : Shfs) : Shfs := { fs with births := fs.births + 1 }

/-- `shfs_inode_read_block`. -/
def shfsInodeReadBlock (fs : Shfs) (pos : Idx) : Except Sherr Block :=
  if fs.inMap pos then .ok (fs.block pos) else .error .io

/-- A block in the place that its header names. -/
def Shfs.store (fs : Shfs) (blk : Block) : Shfs :=
  { fs with block := Function.update fs.block blk.pos blk }

/-- `shfs_inode_write_block`: the store, the status, and the block with its
new modification time. -/
def shfsInodeWriteBlock (env : Env) (fs : Shfs) (blk : Block) : Shfs × Block × Except Sherr Unit :=
  if fs.inMap blk.pos then
    let blk := { blk with mtime := env.clock fs.writes }
    ({ fs with writes := fs.writes + 1 }.store blk, blk, .ok ())
  else (fs, blk, .error .io)

/-- `shfs_inode_clear_block`. -/
def shfsInodeClearBlock (fs : Shfs) (pos : Idx) : Except Sherr Shfs :=
  if fs.inMap pos then .ok { fs with block := Function.update fs.block pos Block.zero }
  else .error .io

/-! ## Allocation -/

/-- The loop of `_shfs_journal_scan`, from a block number downwards to one: the
first free block. A number beyond the size limit is an error. -/
def scanDown (fs : Shfs) (jno : Nat) : Nat → Except Sherr (Option Nat)
  | 0 => .ok none
  | ino + 1 =>
    if ino = 0 then .ok none
    else if maxBlock ≤ ino then .error .io
    else if fs.live { jno := jno, ino := ino } then scanDown fs jno ino
    else .ok (some ino)

/-- `_shfs_journal_scan`, from the label `retry` on. -/
def scanRetry (fs : Shfs) (jno : Nat) : Except Sherr (Shfs × Idx) :=
  match scanDown fs jno (fs.size jno) with
  | .error err => .error err
  | .ok (some ino) => .ok (fs, { jno := jno, ino := ino })
  | .ok none =>
    if maxBlock ≤ fs.size jno then .error .nospc
    else
      -- `MAX(SHARE_PAGE_SIZE, jlen) * 2`, in blocks
      scanRetry { fs with size := Function.update fs.size jno (max 2 (fs.size jno) * 2) } jno
termination_by maxBlock - fs.size jno
decreasing_by
  simp only [Function.update_self]
  omega

/-- `shfs_journal_scan`: a free block in the journal that the key selects. -/
def shfsJournalScan (env : Env) (fs : Shfs) (key : ShKey) : Except Sherr (Shfs × Idx) :=
  scanRetry fs (env.journalIndex key)

end LibShare.Fs
