import LibShare.Mem.Buf
import LibShare.Fs.Content

/-!
# libshare — file streams

The streams of `shfs_stream.c`. A stream loads the content of its file into a buffer
from the beginning on, as far as it has been asked for, and writes the whole buffer
back when it is flushed. The buffer is a map of anonymous memory that grows by pages.

The file is taken for what the file layer gives for it: the content that `shfs_read`
finds in it, which is what the last `shfs_write` put there. How the content is read
from an offset on depends on its format (`shfs_read_of`): the blocks of a binary file
are searched for the offset, while other formats are read as a whole, after which the
buffer is cut on both sides. The chain of blocks is as long as the content needs.
Memory does not run out, and the pages have 4096 bytes.
-/

namespace LibShare.Fs

open Mem

/-! ## Files -/

/-- The format of a content. A reference has that of the file it refers to besides its own. -/
inductive Shformat
  | null
  | binary
  | database
  | compress
  | external
  | reference (ref : Shformat)
deriving DecidableEq

/-- `SHFL`, as a stream sees it. -/
structure Shfl where
  format : Shformat
  /-- the size in the inode -/
  size : Nat
  content : Bytes
deriving DecidableEq

/-- What the file layer does in a call. -/
structure FileLayer where
  /-- the block at a place in the chain cannot be read -/
  blockFault : Nat → Bool
  /-- the file outside of the partition cannot be opened -/
  memFault : Bool
  /-- the status of a write that fails, and the file it leaves -/
  writeFault : Option (Sherr × Shfl)

/-- There is a content to be read. -/
def Shformat.hasContent : Shformat → Bool
  | .null => false
  | .reference ref => ref.hasContent
  | _ => true

/-- The format after a write. -/
def Shformat.written : Shformat → Shformat
  | .null => .binary
  | .reference ref => .reference ref.written
  | format => format

/-- What a full `shfs_read` finds in the file. -/
def Shfl.bytes (file : Shfl) : Bytes := if file.format.hasContent then file.content else []

/-- `shfs_write`, where it succeeds. The inode of a reference or of an external file keeps
the size it has. -/
def Shfl.put (file : Shfl) (data : Bytes) : Shfl :=
  { format := file.format.written
    size := match file.format with
      | .external => file.size
      | .reference _ => file.size
      | _ => data.length
    content := data }

/-! ## The map -/

/-- `shbuf_growmap` of anonymous memory. -/
def shbufGrowanon (buf : Shbuf) (len : Nat) : Shbuf :=
  if len ≤ buf.dataMax then buf
  else
    { buf with
      data := fun i => if i < buf.dataMax then buf.data i else 0
      dataMax := (len / 4096 + 1) * 4096 }

/-- `shbuf_cat` into a map, which does not grow. Beyond the map nothing may be written. -/
def shbufCatmap (buf : Shbuf) (data : Bytes) : Option Shbuf :=
  if buf.dataOf + data.length ≤ buf.dataMax then
    some { buf with data := poke buf.data buf.dataOf data, dataOf := buf.dataOf + data.length }
  else none

/-! ## Reading from an offset -/

/-- The buffer of a stream, as `shfs_aux_pread` uses it. -/
def PreadBuff.map : PreadBuff Shbuf where
  size buf := buf.dataOf
  room buf := some (buf.dataMax - buf.dataOf)
  cat := shbufCatmap

/-- What `shfs_aux_pread` takes from the block at `bOf`. -/
def preadBlock (content : Bytes) (bOf bLen seekOf seekMax : Nat) (buf : Shbuf) : Option Shbuf :=
  auxPreadBlock .map (content.drop bOf) bOf bLen seekOf seekMax buf

/-- The loop of `shfs_aux_pread` over the blocks that are left, from block `k` on. -/
def preadLoop (layer : FileLayer) (content : Bytes) (seekOf seekMax : Nat) :
    Nat → Nat → Nat → Shbuf → Option (Except Sherr Unit × Shbuf)
  | 0, _, _, buf => some (.ok (), buf)
  | n + 1, k, bOf, buf =>
    if layer.blockFault k then some (.error .io, buf)
    else
      let bLen := min blockDataSize (content.length - bOf)
      match preadBlock content bOf bLen seekOf seekMax buf with
      | none => none
      | some buf =>
        let bOf := bOf + bLen
        -- break out if we have exceeded the max size
        if seekMax ≠ 0 ∧ seekMax + seekOf < bOf then some (.ok (), buf)
        else preadLoop layer content seekOf seekMax n (k + 1) bOf buf

/-- `shfs_aux_pread` into a map. -/
def pread (layer : FileLayer) (content : Bytes) (seekOf seekMax : Nat) (buf : Shbuf) :
    Option (Except Sherr Unit × Shbuf) :=
  if seekOf ≠ 0 ∧ content.length ≤ seekOf then some (.ok (), buf)
  else preadLoop layer content seekOf seekMax (blocksFor content) 0 0 buf

/-! ### The blocks of a partition -/

section Blocks

variable {fs : Shfs} {inode : Block} {L : List Idx} {D raw : Bytes} {buf : Shbuf}
  {layer : FileLayer}
variable {bOf bLen of max : Nat}

/-- No more than the given length is taken from a block. -/
theorem auxPreadBlock_take {β : Type} (B : PreadBuff β) (ret : β) :
    auxPreadBlock B (raw.take bLen) bOf bLen of max ret =
      auxPreadBlock B raw bOf bLen of max ret := by
  have hfull : ∀ len, len ≤ bLen → (raw.take bLen).take len = raw.take len := by
    intro len hlen
    rw [List.take_take, Nat.min_eq_left hlen]
  have hpart : ∀ rOf len, len ≤ bLen - rOf →
      ((raw.take bLen).drop rOf).take len = (raw.drop rOf).take len := by
    intro rOf len hlen
    rw [List.drop_take, List.take_take, Nat.min_eq_left hlen]
  unfold auxPreadBlock
  split_ifs with hat hin
  · dsimp only
    cases B.room ret with
    | none => rw [hfull _ (Nat.le_refl _)]
    | some room => rw [hfull _ (Nat.min_le_left _ _)]
  · dsimp only
    rw [hpart]
    split_ifs with hless
    · omega
    · omega
  · rfl

/-- The blocks that are left of a chain hold the content from there on. -/
theorem preadLoop_blocks (hcalm : ∀ i, layer.blockFault i = false) (hsum : max + of < 2 ^ 64) :
    ∀ {L : List Idx} {idx : Idx} {k bOf : Nat} {buf : Shbuf}, Chain (nextOf fs) idx.ref L →
      (∀ p ∈ L, fs.inMap p) →
    D.drop bOf = (content fs L).take (D.length - bOf) →
    shfsAuxPreadLoop .map D.length of max (L.length + 1) fs idx bOf buf =
      (preadLoop layer D of max L.length k bOf buf).map fun r => r.1.map fun _ => r.2 := by
  intro L
  induction L with
  | nil =>
    intro idx k bOf buf hchain _ _
    rw [shfsAuxPreadLoop, if_pos]
    · rfl
    · by_contra hne
      rw [Idx.ref_of_ne hne] at hchain
      cases hchain
  | cons p L ih =>
    rintro idx k bOf buf ⟨hs, hchain⟩ hmap hrest
    obtain ⟨rfl, hne⟩ := Idx.ref_eq_some hs
    have hraw : (fs.block p).raw.toList.length = blockDataSize := Vector.length_toList
    rw [List.length_cons, shfsAuxPreadLoop, if_neg hne,
      shfsInodeReadBlock_ok (hmap p List.mem_cons_self), preadLoop,
        if_neg (by rw [hcalm]; exact Bool.false_ne_true)]
    dsimp only
    -- the data segment and the content begin with the same bytes
    have hsame : (D.drop bOf).take (min blockDataSize (D.length - bOf)) =
        (fs.block p).raw.toList.take (min blockDataSize (D.length - bOf)) := by
      rw [hrest, content_cons, List.take_take, List.take_append_of_le_length (by rw [hraw]; omega)]
      congr 1
      omega
    have hblock : auxPreadBlock .map (fs.block p).raw.toList bOf
        (min blockDataSize (D.length - bOf)) of max buf =
        preadBlock D bOf (min blockDataSize (D.length - bOf)) of max buf := by
      rw [preadBlock, ← auxPreadBlock_take .map, ← hsame, auxPreadBlock_take .map]
    rw [hblock]
    cases preadBlock D bOf (min blockDataSize (D.length - bOf)) of max buf with
    | none => rfl
    | some buf =>
      dsimp only
      rw [Nat.mod_eq_of_lt hsum]
      split_ifs with hstop
      · rfl
      · refine ih hchain (fun q hq => hmap q (List.mem_cons_of_mem _ hq)) ?_
        rw [← List.drop_drop, hrest, content_cons, List.take_append, hraw, List.drop_append,
          List.length_take, hraw]
        have hgone : List.drop (min blockDataSize (D.length - bOf))
            (List.take (D.length - bOf) (fs.block p).raw.toList) = [] := by
          refine List.drop_eq_nil_of_le ?_
          rw [List.length_take, hraw]
          omega
        have hnone : min blockDataSize (D.length - bOf) - min (D.length - bOf) blockDataSize = 0 :=
          Nat.sub_eq_zero_of_le (Nat.le_of_eq (Nat.min_comm _ _))
        rw [hgone, List.nil_append, hnone, List.drop_zero]
        exact congrArg (fun len => (content fs L).take len) (by omega)

/-- `pread` is `shfs_aux_pread` on every partition that has the content in as many blocks as it
needs. -/
theorem pread_blocks (h : HasContent fs inode L)
    (hlen : L.length = blocksFor (contentOf fs inode L))
    (hcalm : ∀ i, layer.blockFault i = false) (hsum : max + of < 2 ^ 64) :
    shfsAuxPread .map (L.length + 1) fs inode buf of max =
      (pread layer (contentOf fs inode L) of max buf).map fun r => r.1.map fun _ => r.2 := by
  unfold shfsAuxPread pread
  rw [← h.length, ← hlen]
  split
  · rfl
  · refine preadLoop_blocks hcalm hsum h.chain h.inMap ?_
    rw [List.drop_zero, Nat.sub_zero, h.length, contentOf]

end Blocks

/-- The buffer is cut where the whole content has been put into it. -/
def cheat (seekOf size : Nat) :
    Option (Except Sherr Unit × Shbuf) → Option (Except Sherr Unit × Shbuf)
  | some (.ok _, buf) =>
    let buf := if seekOf ≠ 0 then shbufTrim buf seekOf else buf
    some (.ok (), if size ≠ 0 then shbufTruncate buf size else buf)
  | r => r

/-- `shfs_mem_read`. -/
def memRead (layer : FileLayer) (content : Bytes) (buf : Shbuf) :
    Option (Except Sherr Unit × Shbuf) :=
  if layer.memFault then some (.error .perm, buf)
  else (shbufCatmap buf content).map fun buf => (.ok (), buf)

/-- `shfs_read_of`. -/
def shfsReadOf (layer : FileLayer) (content : Bytes) :
    Shformat → Shbuf → Nat → Nat → Option (Except Sherr Unit × Shbuf)
  | .null, buf, _, _ => some (.error .noent, buf)
  | .binary, buf, seekOf, size => pread layer content seekOf size buf
  | .database, buf, seekOf, size => pread layer content seekOf size buf
  | .compress, buf, seekOf, size => cheat seekOf size (pread layer content 0 0 buf)
  | .external, buf, seekOf, size => cheat seekOf size (memRead layer content buf)
  | .reference ref, buf, seekOf, size => cheat seekOf size (shfsReadOf layer content ref buf 0 0)

/-! ## Streams -/

/-- `shfstream_t`. -/
structure Shfstream where
  file : Shfl
  buff : Shbuf
  pos : Nat
  /-- the size of the stream -/
  max : Nat
  /-- `SHFS_STREAM_OPEN` -/
  isOpen : Bool
  /-- `SHFS_STREAM_DIRTY` -/
  dirty : Bool

/-- `shfstream_init` of a stream that is not open; `create` is `SHFS_STREAM_CREATE`. -/
def shfstreamInit (create : Bool) (file : Shfl) : Except Sherr Shfstream :=
  -- `shfs_fstat`
  if file.format = .null then
    if create then
      .ok { file := file, buff := shbufInit, pos := 0, max := 0, isOpen := true, dirty := false }
    else .error .noent
  else
    .ok
      { file := file
        buff := shbufInit
        pos := 0
        max := file.size
        isOpen := true
        dirty := false }

/-- The memory that is asked for in `shfstream_alloc_expand`. -/
def allocLen (size : Nat) : Nat :=
  let len := Nat.max (4 * 4096) ((size / 4096 + 2) * 4096)
  -- read-ahead
  len + len / 2

/-- `shfstream_alloc_expand`. -/
def shfstreamAllocExpand (s : Shfstream) (size : Nat) : Shfstream :=
  { s with buff := shbufGrowanon s.buff (allocLen size) }

/-- `shfstream_alloc`. -/
def shfstreamAlloc (layer : FileLayer) (s : Shfstream) (size : Nat) :
    Option (Except Sherr Unit × Shfstream) :=
  -- already alloc'd
  if size < s.buff.dataOf then some (.ok (), s)
  else
    let s := shfstreamAllocExpand s size
    let len := min size s.buff.dataMax - s.buff.dataOf
    if len = 0 then some (.ok (), s)
    else
      -- read supplemental content
      match shfsReadOf layer s.file.content s.file.format s.buff s.buff.dataOf len with
      | none => none
      | some (.error .noent, buff) => some (.ok (), { s with buff := buff })
      | some (r, buff) => some (r, { s with buff := buff })

/-- `shfstream_setpos`. -/
def shfstreamSetpos (s : Shfstream) (pos : Nat) : Except Sherr Unit × Shfstream :=
  if s.max < pos then (.error .inval, s) else (.ok (), { s with pos := pos })

/-- `shfstream_flush`. -/
def shfstreamFlush (layer : FileLayer) (s : Shfstream) : Option (Except Sherr Unit × Shfstream) :=
  if s.isOpen = false then some (.error .badf, s)
  else if s.dirty = false then some (.ok (), s)
  else
    let loaded :=
      if s.max - s.buff.dataOf ≠ 0 then shfstreamAlloc layer s s.max else some (.ok (), s)
    match loaded with
    | none => none
    | some (.error err, s) => some (.error err, { s with dirty := false })
    | some (.ok _, s) =>
      -- the stream is clean whether it was written or not
      match layer.writeFault with
      | some (err, file) => some (.error err, { s with file := file, dirty := false })
      | none => some (.ok (), { s with file := s.file.put s.buff.contents, dirty := false })

/-- How far a read loads the file: 16 megabytes, if there are so many. -/
def Shfstream.maxSeek (s : Shfstream) (size : Nat) : Nat :=
  min (s.pos + Nat.max size 16777216) s.max

/-- `shfstream_read`, with the bytes that are copied. -/
def shfstreamRead (layer : FileLayer) (s : Shfstream) (size : Nat) :
    Option (Except Sherr Bytes × Shfstream) :=
  if s.isOpen = false then some (.error .badf, s)
  else
    let size := min size (s.max - s.pos)
    if size = 0 then some (.ok [], s)
    else
      match shfstreamAlloc layer s (s.maxSeek size) with
      | none => none
      | some (.error err, s) => some (.error err, s)
      | some (.ok _, s) =>
        -- the map must reach that far
        if s.pos + size ≤ s.buff.dataMax then
          some (.ok (slice s.buff.data s.pos size), (shfstreamSetpos s (s.pos + size)).2)
        else none

/-- `shfstream_size_set`. -/
def shfstreamSizeSet (s : Shfstream) (len : Nat) : Shfstream :=
  { shfstreamAllocExpand s len with max := len, dirty := true }

/-- The bytes are copied into the map, and the size and the position of the stream follow. -/
def Shfstream.copyIn (s : Shfstream) (data : Bytes) : Shfstream :=
  let buffOf := s.pos + data.length
  let buff := { s.buff with
    data := poke s.buff.data s.pos data
    dataOf := Nat.max s.buff.dataOf buffOf }
  let s := shfstreamSizeSet { s with buff := buff } (Nat.max s.max buffOf)
  (shfstreamSetpos s buffOf).2

/-- `shfstream_write`, with the count. -/
def shfstreamWrite (layer : FileLayer) (s : Shfstream) (data : Bytes) :
    Option (Except Sherr Nat × Shfstream) :=
  if s.isOpen = false then some (.error .badf, s)
  else if data.length = 0 then some (.ok 0, s)
  else
    match shfstreamAlloc layer s (Nat.max (s.pos + data.length) s.max) with
    | none => none
    | some (.error err, s) => some (.error err, s)
    | some (.ok _, s) =>
      if s.pos + data.length ≤ s.buff.dataMax then some (.ok data.length, s.copyIn data) else none

end LibShare.Fs
