import LibShare.Base
import LibShare.Lib.Prog
import LibShare.Mem.Buf

/-!
# libshare — SHZ archives: pages

The buffer of a SHZ archive (`shmem_shz.c`) and the allocation of its pages. An
archive is a sequence of pages of 1024 bytes. Page zero is the base page, which
records the size of the archive and where its two tables begin; `bseq` of the
archive in memory is the number of the next page.

* Memory is taken to suffice: `shbuf_grow` and `shbuf_growmap` do not fail, and a
  byte beyond the allocation is what the allocation finds there.
* `shbuf_grow` counts the bytes of a heap buffer in an `int`. An allocation of 2^31
  bytes or more has no result.
* Growing a buffer moves it. A pointer that is used after its buffer has moved is
  undefined behaviour, and so are a page outside of the buffer and the offset of a
  page from 2^31 on; a program then has no result.
* `live` and `handed` are not part of the source: the number of pages of the
  archive, and the pages that `shz_page_new` has handed out, each with the number
  of pages there were before.
-/

namespace LibShare.Shz

open Mem

/-! ## Constants (`shmem.h`) -/

/-- `SHZ_PAGE_SIZE`. -/
def pageSize : Nat := 1024

/-- `SHZ_ALLOC_SIZE`. -/
def allocSize : Nat := 65536

/-- `SHZ_PAGE_ROOT`. -/
def pageRoot : Nat := 1001

/-- `SHZ_PAGE_BRANCH`. -/
def pageBranch : Nat := 1002

/-- `SHZ_PAGE_DATA`. -/
def pageData : Nat := 1004

/-- `SHZ_PAGE_INDEX`. -/
def pageIndex : Nat := 10011

/-- `SHZ_PAGE_ZLIB_DATA`. -/
def pageZlibData : Nat := 10021

/-- `SHZ_PAGE_ZLIB`. -/
def pageZlib : Nat := 10022

/-- `SHZ_PAGE_DIR`. -/
def pageDir : Nat := 10102

/-- `SHZ_PAGE_FILE`. -/
def pageFile : Nat := 10104

/-- `SHZ_PAGE_BASE`. -/
def pageBase : Nat := 23123

/-- `SHZ_TRUNC`. -/
def flagTrunc : UInt32 := 0x8

/-- `SHZ_RAW`. -/
def flagRaw : UInt32 := 0x10

/-- `SHZ_FRESH`. -/
def flagFresh : UInt32 := 0x200000

/-- `SHMEM16_MAGIC` in memory. -/
def magic : Bytes := leBytes16 0x2222

/-! ## Archives -/

/-- The part of a table tree that is in memory: `shtree_t` with `shz_tree_t`. -/
inductive Tree
  | nil
  | node (seq : Nat) (left right : Tree)

/-- `shz_t`. -/
structure Arch where
  bseq : Nat
  flags : UInt32
  buff : Shbuf
  dtable : Tree
  ftable : Tree
  /-- how often the clock has been read -/
  clocks : Nat
  live : Nat
  handed : List (Nat × Nat)

/-- What the archive takes from the rest of the library and from zlib. -/
structure Env where
  /-- `shkey_bin_r` -/
  keyBin : Bytes → ShKey
  /-- what `shzenc` appends -/
  deflate : Bytes → Bytes
  /-- what `shzdec` appends -/
  inflate : Bytes → Except Sherr Bytes
  /-- `shtime` -/
  clock : Nat → UInt64

/-- An operation on an archive. -/
abbrev ShzM := Prog Arch Sherr

/-- A field of a page, in network order. -/
def Arch.fld (z : Arch) (p of w : Nat) : Nat := beAt z.buff.data (p * pageSize + of) w

/-- A part of a page. -/
def Arch.bytes (z : Arch) (p of len : Nat) : Bytes := slice z.buff.data (p * pageSize + of) len

/-- A part of a page is written. -/
def Arch.put (z : Arch) (p of : Nat) (bs : Bytes) : Arch :=
  { z with buff := { z.buff with data := poke z.buff.data (p * pageSize + of) bs } }

def put (p of : Nat) (bs : Bytes) : ShzM Unit := Prog.modify fun z => z.put p of bs

/-- A reading of the clock. -/
def shtime (env : Env) : ShzM UInt64 := do
  let n ← Prog.read Arch.clocks
  Prog.modify fun z => { z with clocks := z.clocks + 1 }
  pure (env.clock n)

/-! ## Page headers

A header is the type of the page, the magic number, a checksum and the used size,
two bytes each. -/

/-- `shz_page_type`. -/
def shzPageType (z : Arch) (p : Nat) : Nat := z.fld p 0 2

/-- `shz_page_size`. -/
def shzPageSize (z : Arch) (p : Nat) : Nat := z.fld p 6 2

/-- `shz_page_size_set`. -/
def shzPageSizeSet (p len : Nat) : ShzM Unit :=
  if len < 8 ∨ pageSize < len then Prog.fail .inval else put p 6 (beBytes 2 len)

/-- The loop of `shz_crc16`, two bytes at a time. -/
def shzCrc16Loop (a : UInt16) (b : UInt32) : Bytes → UInt16 × UInt32
  | b0 :: b1 :: rest =>
    let a := a + leWord16 b0 b1
    shzCrc16Loop a (b + a.toUInt32) rest
  | [b0] =>
    let a := a + leWord16 b0 0
    (a, b + a.toUInt32)
  | [] => (a, b)

/-- `shz_crc16`. -/
def shzCrc16 (data : Bytes) (seed : UInt16) : UInt16 :=
  let ab := shzCrc16Loop (1 + seed) 0 data
  htons (ab.1.toUInt32 + (ab.2 <<< 8)).toUInt16

/-- `shz_salt`. -/
def shzSalt (z : Arch) : UInt16 := UInt16.ofNat (z.fld 0 8 2)

/-- `shz_crc_get`. -/
def shzCrcGet (z : Arch) (p : Nat) : UInt16 :=
  let size := shzPageSize z p
  if size < 8 ∨ pageSize ≤ size then 0
  else shzCrc16 (z.bytes p 0 4 ++ [0, 0] ++ z.bytes p 6 (size - 6)) (shzSalt z)

/-- `shz_crc_set`. -/
def shzCrcSet (p : Nat) : ShzM Unit := do
  put p 4 [0, 0]
  let crc ← Prog.read fun z => shzCrcGet z p
  put p 4 (leBytes16 crc)

/-! ## Allocation -/

/-- `shz_size`. -/
def shzSize (z : Arch) : Nat := z.fld 0 16 8

/-- `shz_size_incr`. -/
def shzSizeIncr (z : Arch) (len : Nat) : Arch := z.put 0 16 (beBytes 8 (shzSize z + len))

/-- `shz_zsize_incr`. -/
def shzZsizeIncr (z : Arch) (len : Nat) : Arch := z.put 0 24 (beBytes 8 (z.fld 0 24 8 + len))

/-- `shz_avail`: the difference wraps around at 64 bits. -/
def shzAvail (z : Arch) : Nat :=
  (z.buff.dataMax + 2 ^ 64 - z.bseq * pageSize % 2 ^ 32) % 2 ^ 64

/-- The loop of `shz_scan`: how many pages follow that have a type. -/
def scanPages (d : Memory) (max : Nat) : Nat → Nat → Nat
  | 0, _ => 0
  | n + 1, sOf =>
    if max ≤ sOf then 0
    else if beAt d sOf 2 = 0 then 0
    else scanPages d max n (sOf + pageSize) + 1

/-- `shz_scan`. -/
def shzScan (z : Arch) (of max : Nat) : Arch :=
  if z.bseq ≤ of / pageSize then z
  else
    let of := of / pageSize * pageSize
    { z with bseq := z.bseq + scanPages z.buff.data max (max / pageSize + 1) of }

/-- The page numbers of a tree, in the order of `shz_arch_table_reset`. -/
def Tree.seqs : Tree → List Nat
  | .nil => []
  | .node seq left right => seq :: (left.seqs ++ right.seqs)

/-- The pages that `shz_alloc` looks up again when the buffer has moved. -/
def tableSeqs (z : Arch) : List Nat :=
  (if z.fld 0 56 4 ≠ 0 then z.dtable.seqs else []) ++
    (if z.fld 0 60 4 ≠ 0 then z.ftable.seqs else [])

/-- The number of pages that `shz_page` takes the archive for. The recorded size is
signed and is divided as such, and the quotient is then unsigned. -/
def maxSeq (z : Arch) : Nat :=
  if shzSize z < 2 ^ 63 then shzSize z / pageSize
  else (2 ^ 64 - (2 ^ 64 - shzSize z) / pageSize) % 2 ^ 64

/-- A page number, an `int`, as it is compared with an unsigned number of 64 bits. -/
def asSize (bnum : Nat) : Nat := if bnum < 2 ^ 31 then bnum else bnum + (2 ^ 64 - 2 ^ 32)

/-- A page number that `shz_page` refuses. -/
def outOfRange (z : Arch) (bnum : Nat) : Prop := maxSeq z ≤ asSize bnum

instance (z : Arch) (bnum : Nat) : Decidable (outOfRange z bnum) :=
  inferInstanceAs (Decidable (_ ≤ _))

/-- The length up to a page and the page after it, as a 32-bit number. -/
def lenUpTo (bseq : Nat) : Nat := (bseq * pageSize + pageSize) % 2 ^ 32

/-- The length that `shz_alloc` makes room for. -/
def allocLen (len : Nat) : Nat := ((len + 2 ^ 64 - 1) % 2 ^ 64 / allocSize + 1) * allocSize % 2 ^ 64

/-- `shbuf_growmap` of a file, else `shbuf_grow`. -/
def growTo (buff : Shbuf) (len : Nat) : Option Shbuf :=
  if buff.mapped then some (shbufGrowmap buff len) else shbufGrow buff len

/-- The body of `shz_alloc`, with what it does to the tables. -/
def allocWith (reset : Arch → Option Arch) (z : Arch) (len : Nat) : Option Arch :=
  if allocLen len < shzAvail z then some z
  else do
    let buff ← growTo z.buff (allocLen len)
    let z' ← reset { z with buff := buff }
    -- update internals
    some (shzScan z' z.buff.dataMax z'.buff.dataMax)

/-- A page of a table is looked up, where an allocation may follow. -/
def resetPage (alloc : Arch → Nat → Option Arch) (z : Arch) (seq : Nat) : Option Arch :=
  if seq < z.bseq ∨ outOfRange z seq then some z
  else if 2 ^ 31 ≤ seq * pageSize then none
  else alloc { z with bseq := seq + 1 } (lenUpTo (seq + 1))

/-- `shz_alloc` and `shz_arch_table_reset`, nested to a depth. -/
def allocDepth : Nat → Arch → Nat → Option Arch
  | 0, z, len => allocWith some z len
  | n + 1, z, len => allocWith (fun z => (tableSeqs z).foldlM (resetPage (allocDepth n)) z) z len

/-- `shz_alloc`. Each nested allocation is for a page of a table that the ones
before it did not reach. -/
def shzAlloc (z : Arch) (len : Nat) : Option Arch := allocDepth (tableSeqs z).length z len

/-- `shz_alloc` in a program. -/
def alloc (len : Nat) : ShzM Unit := fun z => (shzAlloc z len).map fun z => (.ok (), z)

/-- The address of a page. -/
def pageAt (bnum : Nat) : ShzM (Option Nat) := do
  let max ← Prog.read fun z => z.buff.dataMax
  if 2 ^ 31 ≤ bnum * pageSize ∨ max < (bnum + 1) * pageSize then Prog.undef else pure (some bnum)

/-- `shz_page`. The page number is an `int`. -/
def shzPage (bnum : Nat) : ShzM (Option Nat) := do
  let z ← Prog.read id
  if z.bseq ≤ bnum then
    if outOfRange z bnum then pure none
    else do
      -- allocate to suffice
      Prog.modify fun z => { z with bseq := bnum + 1 }
      alloc (lenUpTo (bnum + 1))
      pageAt bnum
  else pageAt bnum

/-- The next page number is taken. -/
def takePage (z : Arch) : Arch :=
  { z with
    bseq := z.bseq + 1
    live := max z.live (z.bseq + 1)
    handed := (z.bseq, z.live) :: z.handed }

/-- There is room for the next page. -/
def pageRoom : ShzM Unit := do
  let z ← Prog.read id
  if shzAvail z ≤ pageSize then alloc (lenUpTo z.bseq) else pure ()

/-- `shz_page_new`. -/
def shzPageNew (type : Nat) : ShzM (Option Nat) := do
  pageRoom
  -- obtain next page index number
  let bnum ← Prog.read Arch.bseq
  Prog.modify takePage
  -- increase total size of archive
  Prog.modify fun z => shzSizeIncr z pageSize
  let blk ← shzPage bnum
  match blk with
  | none => pure none
  | some p => do
    put p 2 magic
    put p 0 (beBytes 2 type)
    pure (some p)

end LibShare.Shz
