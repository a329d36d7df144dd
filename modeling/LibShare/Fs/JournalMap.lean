import LibShare.Fs.Journal
import LibShare.Mem.BufKinds

/-!
# libshare — the map of a journal

A journal is a file that is mapped into memory (`shbuf_file` and `shbuf_growmap` of `shmem_buf.c`).
`shfs_journal_block` of `shfs_journal.c` finds a block in the map. It grows the map only for an
offset that is greater than the length, and `shbuf_grow` does not grow a map, so that an offset
beyond the map is an error. The offset that is just the length is neither
(`block_inside_iff`). `Shfs.inMap` of the block store is where the block is found and is inside.

* A page of the host has 4096 bytes or a multiple of them.
* What the system says to a call is given with the call.
* The product of a block number and the size of a block is an `int`. Where it is too great, it is
  taken modulo 2^32.
-/

namespace LibShare.Fs

/-! ## The map of a file -/

/-- `sysconf(_SC_PAGE_SIZE)`. -/
structure Host where
  pageSize : Nat
  pos : 0 < pageSize
  dvd : maxBlockSize ∣ pageSize

/-- `shbuf_t` of a file, as far as the map goes, and the length of the file. -/
structure FileMap where
  /-- `data` is not null -/
  mapped : Bool
  dataOf : Nat
  dataMax : Nat
  /-- `SHBUF_FMAP` -/
  fmap : Bool
  stSize : Nat

/-- The errors of a call of `shbuf_growmap`. -/
structure MapFaults where
  write : Option Sherr
  mmap : Bool

/-- The length that `shbuf_growmap` maps: whole pages, and at least one. -/
def mapNewlen (host : Host) (dataLen : Nat) : Nat :=
  max dataLen host.pageSize / host.pageSize * host.pageSize

/-- What `shbuf_growmap` does when the map is too short. The old map is given up before the file is
extended, so that a failure leaves none. -/
def FileMap.remap (host : Host) (faults : MapFaults) (buf : FileMap) (dataLen : Nat) :
    Except Sherr Unit × FileMap :=
  let newLen := mapNewlen host dataLen
  let missing := newLen - buf.stSize
  match (if 0 < missing then faults.write else none) with
  | some err => (.error err, { buf with mapped := false, dataMax := 0, dataOf := 0 })
  | none =>
    -- the file is extended by whole pages, until it reaches the new length
    let pages := (missing + host.pageSize - 1) / host.pageSize
    let stSize := buf.stSize + pages * host.pageSize
    if faults.mmap then
      (.error .nobufs, { buf with mapped := false, dataMax := 0, dataOf := 0, stSize := stSize })
    else
      (.ok (),
        { mapped := true
          dataMax := newLen
          dataOf := newLen
          fmap := true
          stSize := stSize })

/-- `shbuf_growmap` of a file. -/
def FileMap.growmap (host : Host) (faults : MapFaults) (buf : FileMap) (dataLen : Nat) :
    Except Sherr Unit × FileMap :=
  let mapLen := if buf.mapped then buf.dataMax else 0
  -- bufmap exceeds allocation requested
  if dataLen ≤ mapLen then (.ok (), buf) else buf.remap host faults dataLen

/-- `shbuf_file` of a file that can be opened. -/
def shbufFile (host : Host) (faults : MapFaults) (stSize : Nat) : Option FileMap :=
  let buff : FileMap :=
    { mapped := false, dataOf := 0, dataMax := 0, fmap := false, stSize := stSize }
  match buff.growmap host faults (Mem.fileMapLen stSize) with
  | (.error _, _) => none
  | (.ok _, buff) => some buff

/-- `shbuf_grow` of a map, or of memory on the heap. -/
def FileMap.grow (buf : FileMap) (dataLen : Nat) : Except Sherr FileMap :=
  let blockLen := (dataLen + 1) / 8192 + 1
  if blockLen * 8192 ≤ buf.dataMax then .ok buf
  else if buf.fmap then .error .opnotsupp
  else .ok { buf with mapped := true, dataMax := blockLen * 8192 }

/-- The maps that `shbuf_file` makes and that `shbuf_growmap` makes of them, whatever it says. -/
inductive Produced (host : Host) : FileMap → Prop
  | file {faults : MapFaults} {stSize : Nat} {buf : FileMap} :
      shbufFile host faults stSize = some buf →
      Produced host buf
  | growmap {buf : FileMap} (faults : MapFaults) (dataLen : Nat) : Produced host buf →
      Produced host (buf.growmap host faults dataLen).2

/-! ## Blocks in the map -/

/-- `SHFS_MAX_JOURNAL_SIZE`. -/
def maxJournalSize : Nat := maxBlock * maxBlockSize

/-- `ino * SHFS_MAX_BLOCK_SIZE`, an `int`, as a `size_t`. -/
def blockOffset (ino : Nat) : Nat :=
  (Int.bmod ((ino * maxBlockSize : Nat) : Int) (2 ^ 32) % 2 ^ 64).toNat

/-- `shfs_journal_block` with a map: where the block begins. -/
def shfsJournalBlock (buf : FileMap) (ino : Nat) : Option Nat :=
  let dataOf := blockOffset ino
  if maxJournalSize ≤ dataOf then none
  else
    -- expand journal as necessary
    match (if buf.dataMax < dataOf then buf.grow dataOf else .ok buf) with
    | .error _ => none
    | .ok buf => if buf.mapped then some dataOf else none

/-- What the functions make of a map: one that is mapped has pages, one that is not has nothing. -/
structure Whole (host : Host) (buf : FileMap) : Prop where
  pages : buf.mapped = true → 0 < buf.dataMax ∧ host.pageSize ∣ buf.dataMax
  unmapped : buf.mapped = false → buf.dataMax = 0
  fmap : buf.fmap = true

variable {host : Host} {buf : FileMap} {ino : Nat}

theorem mapNewlen_pos (host : Host) (dataLen : Nat) : 0 < mapNewlen host dataLen := by
  have hone : 1 ≤ max dataLen host.pageSize / host.pageSize :=
    (Nat.one_le_div_iff host.pos).mpr (Nat.le_max_right _ _)
  exact Nat.mul_pos hone host.pos

/-- A new map has whole pages, and a failure leaves nothing of the old one. -/
theorem remap_cases (faults : MapFaults) (dataLen : Nat) :
    (∃ err stSize, buf.remap host faults dataLen =
        (.error err, { buf with mapped := false, dataMax := 0, dataOf := 0, stSize := stSize })) ∨
      ∃ stSize, buf.remap host faults dataLen =
        (.ok (),
          { mapped := true
            dataMax := mapNewlen host dataLen
            dataOf := mapNewlen host dataLen
            fmap := true
            stSize := stSize }) := by
  unfold FileMap.remap
  dsimp only
  split
  · -- the file cannot be extended
    exact Or.inl ⟨_, _, rfl⟩
  · by_cases hmmap : faults.mmap = true
    · rw [if_pos hmmap]
      exact Or.inl ⟨_, _, rfl⟩
    · rw [if_neg hmmap]
      exact Or.inr ⟨_, rfl⟩

theorem whole_mapped {dataLen stSize : Nat} :
    Whole host
      { mapped := true
        dataMax := mapNewlen host dataLen
        dataOf := mapNewlen host dataLen
        fmap := true
        stSize := stSize } where
  pages _ := ⟨mapNewlen_pos host dataLen, Nat.dvd_mul_left _ _⟩
  unmapped hno := nomatch hno
  fmap := rfl

theorem Whole.growmap (h : Whole host buf) (faults : MapFaults) (dataLen : Nat) :
    Whole host (buf.growmap host faults dataLen).2 := by
  unfold FileMap.growmap
  dsimp only
  by_cases hfits : dataLen ≤ if buf.mapped = true then buf.dataMax else 0
  · rw [if_pos hfits]
    exact h
  · rw [if_neg hfits]
    rcases @remap_cases host buf faults dataLen with ⟨err, stSize, hremap⟩ | ⟨stSize, hremap⟩
    · rw [hremap]
      exact ⟨fun hyes => (nomatch hyes), fun _ => rfl, h.fmap⟩
    · rw [hremap]
      exact whole_mapped

/-- Where the calls succeed, on a host with pages of 4096 bytes, the map is as long as that of
`Mem.shbufGrowmap`, and as full. -/
theorem growmap_shbufGrowmap {host : Host} (hpage : host.pageSize = 4096) {buf buf' : FileMap}
    {b : Mem.Shbuf}
    {faults : MapFaults} {dataLen : Nat} (hmax : b.dataMax = if buf.mapped then buf.dataMax else 0)
    (hof : buf.mapped = true → b.dataOf = buf.dataOf)
    (hrun : buf.growmap host faults dataLen = (.ok (), buf')) (hlen : 0 < dataLen) :
    (Mem.shbufGrowmap b dataLen).dataMax = buf'.dataMax ∧
    (Mem.shbufGrowmap b dataLen).dataOf = buf'.dataOf := by
  unfold FileMap.growmap at hrun
  dsimp only at hrun
  rw [← hmax] at hrun
  unfold Mem.shbufGrowmap
  by_cases hroom : dataLen ≤ b.dataMax
  · rw [if_pos hroom] at hrun ⊢
    cases hrun
    by_cases hmapped : buf.mapped = true
    · rw [if_pos hmapped] at hmax
      exact ⟨hmax, hof hmapped⟩
    · rw [if_neg hmapped] at hmax
      omega
  · rw [if_neg hroom] at hrun ⊢
    rcases @remap_cases host buf faults dataLen with ⟨err, stSize, hremap⟩ | ⟨stSize, hremap⟩
    · rw [hremap] at hrun
      exact nomatch hrun
    · rw [hremap] at hrun
      cases hrun
      dsimp only
      rw [mapNewlen, hpage]
      exact ⟨rfl, rfl⟩

/-- The map of a file is the buffer of that kind. -/
theorem shbufFile_file {host : Host} (hpage : host.pageSize = 4096) {buf : FileMap}
    {faults : MapFaults} {content : Bytes}
    (hrun : shbufFile host faults content.length = some buf) :
    (Mem.BufState.file content).dataMax = buf.dataMax ∧
    (Mem.BufState.file content).dataOf = buf.dataOf := by
  unfold shbufFile at hrun
  dsimp only at hrun
  split at hrun
  · cases hrun
  · next buff hgrow =>
    cases hrun
    exact growmap_shbufGrowmap hpage rfl (fun hmapped =>
      absurd hmapped Bool.false_ne_true) hgrow (Mem.fileMapLen_pos _)

theorem Whole.file {faults : MapFaults} {stSize : Nat}
    (hrun : shbufFile host faults stSize = some buf) :
    Whole host buf := by
  unfold shbufFile FileMap.growmap at hrun
  dsimp only at hrun
  -- nothing is mapped yet, and at least two pages are asked for
  have hasked : ¬ Mem.fileMapLen stSize ≤ 0 := by
    unfold Mem.fileMapLen Mem.sharePageSize
    omega
  rw [if_neg Bool.false_ne_true, if_neg hasked] at hrun
  generalize Mem.fileMapLen stSize = dataLen at hrun
  rcases @remap_cases host _ faults dataLen with ⟨err, stSize', hremap⟩ | ⟨stSize', hremap⟩
  · rw [hremap] at hrun
    exact nomatch hrun
  · rw [hremap] at hrun
    rw [← Option.some.inj hrun]
    exact whole_mapped

theorem Produced.whole (h : Produced host buf) : Whole host buf := by
  induction h with
  | file hrun => exact Whole.file hrun
  | growmap faults dataLen _ ih => exact Whole.growmap ih faults dataLen

/-! ## Where the block is -/

/-- Offsets are multiples of the size of a block, whatever is lost of the product. -/
theorem dvd_blockOffset (ino : Nat) : maxBlockSize ∣ blockOffset ino := by
  unfold blockOffset
  rw [show maxBlockSize = 4096 from rfl]
  have hmod : Int.bmod ((ino * 4096 : Nat) : Int) (2 ^ 32) % 4294967296 =
      ((ino * 4096 : Nat) : Int) % 4294967296 := Int.bmod_emod
  generalize Int.bmod ((ino * 4096 : Nat) : Int) (2 ^ 32) = r at *
  omega

/-- Within the size of a journal nothing is lost. -/
theorem blockOffset_eq (h : ino < 2 ^ 19) : blockOffset ino = ino * maxBlockSize := by
  unfold blockOffset
  have hsize : maxBlockSize = 4096 := rfl
  have hbmod : Int.bmod ((ino * maxBlockSize : Nat) : Int) (2 ^ 32) =
      ((ino * maxBlockSize : Nat) : Int) := by
    rw [hsize, Int.bmod_eq_of_le] <;> omega
  rw [hbmod, hsize]
  omega

/-- A block is found below the size limit in a map that reaches its beginning. -/
theorem journalBlock_iff (h : Whole host buf) {dataOf : Nat} :
    shfsJournalBlock buf ino = some dataOf ↔
    dataOf = blockOffset ino ∧ blockOffset ino < maxJournalSize ∧ buf.mapped = true ∧
      blockOffset ino ≤ buf.dataMax := by
  unfold shfsJournalBlock
  dsimp only
  split
  · next hlimit =>
    exact iff_of_false (fun heq => nomatch heq) fun hright =>
      absurd hright.2.1 (Nat.not_lt.mpr hlimit)
  · next hlimit =>
    by_cases hbeyond : buf.dataMax < blockOffset ino
    · -- a map is not grown
      have hgrow : buf.grow (blockOffset ino) = .error .opnotsupp := by
        unfold FileMap.grow
        dsimp only
        rw [if_neg (by omega), if_pos h.fmap]
      rw [if_pos hbeyond, hgrow]
      exact iff_of_false (fun heq => nomatch heq) fun hright =>
        absurd hright.2.2.2 (Nat.not_le.mpr hbeyond)
    · rw [if_neg hbeyond]
      dsimp only
      by_cases hmapped : buf.mapped = true
      · rw [if_pos hmapped, Option.some.injEq]
        constructor
        · rintro rfl
          exact ⟨rfl, Nat.not_le.mp hlimit, hmapped, Nat.not_lt.mp hbeyond⟩
        · exact fun hright => hright.1.symm
      · rw [if_neg hmapped]
        exact iff_of_false (fun heq => nomatch heq) fun hright => hmapped hright.2.2.1

/-- A block that is returned is inside the map if and only if it does not begin just where the map
ends. -/
theorem block_inside_iff (host : Host) (buf : FileMap) (h : Produced host buf) (ino : Nat) :
    (∀ dataOf, shfsJournalBlock buf ino = some dataOf → dataOf + maxBlockSize ≤ buf.dataMax) ↔
      ¬ (0 < buf.dataMax ∧ blockOffset ino = buf.dataMax ∧ buf.dataMax < maxJournalSize) := by
  have hwhole := h.whole
  constructor
  · rintro hall ⟨hpos, heq, hlimit⟩
    have hmapped : buf.mapped = true := by
      by_contra hno
      rw [hwhole.unmapped (by simpa using hno)] at hpos
      exact absurd hpos (Nat.lt_irrefl 0)
    have hin :=
      hall _ ((journalBlock_iff hwhole).mpr ⟨rfl, by rwa [heq], hmapped, Nat.le_of_eq heq⟩)
    have hblock : 0 < maxBlockSize := by decide
    omega
  · intro hnot dataOf hrun
    have hfound := (journalBlock_iff hwhole).mp hrun
    rw [hfound.1]
    obtain ⟨hpos, hpages⟩ := hwhole.pages hfound.2.2.1
    -- both ends are multiples of the size of a block
    obtain ⟨a, ha⟩ := dvd_blockOffset ino
    obtain ⟨b, hb⟩ := host.dvd.trans hpages
    have hlt : blockOffset ino < buf.dataMax :=
      Nat.lt_of_le_of_ne hfound.2.2.2 fun heq => hnot ⟨hpos, heq, heq ▸ hfound.2.1⟩
    rw [ha, hb] at hlt ⊢
    have hab : a + 1 ≤ b := Nat.lt_of_mul_lt_mul_left hlt
    calc maxBlockSize * a + maxBlockSize = maxBlockSize * (a + 1) := (Nat.mul_succ _ _).symm
      _ ≤ maxBlockSize * b := Nat.mul_le_mul_left _ hab

/-- The block store takes for found what is inside the map. -/
theorem inMap_iff (h : Produced host buf) (hmapped : buf.mapped = true) (fs : Shfs) (pos : Idx)
    (hsize : fs.size pos.jno * maxBlockSize = buf.dataMax) :
    fs.inMap pos ↔ pos.ino < 2 ^ 19 ∧
      ∃ dataOf, shfsJournalBlock buf pos.ino = some dataOf ∧
      dataOf + maxBlockSize ≤ buf.dataMax := by
  have hwhole := h.whole
  have hblock : maxBlockSize = 4096 := rfl
  have hlimit : maxJournalSize = 57344 * 4096 := rfl
  rw [hblock] at hsize
  constructor
  · intro hin
    have hbelow : pos.ino < 57344 := hin.1
    have hsmall : pos.ino < 2 ^ 19 := by omega
    have hof : blockOffset pos.ino = pos.ino * 4096 := blockOffset_eq hsmall
    have hend : pos.ino * 4096 + 4096 ≤ buf.dataMax := by
      have := hin.2
      omega
    refine ⟨hsmall, blockOffset pos.ino, (journalBlock_iff hwhole).mpr ⟨rfl, ?_, hmapped, ?_⟩, ?_⟩
    · rw [hof, hlimit]
      omega
    · rw [hof]
      exact Nat.le_trans (Nat.le_add_right _ _) hend
    · rw [hof, hblock]
      exact hend
  · rintro ⟨hsmall, dataOf, hrun, hin⟩
    have hfound := (journalBlock_iff hwhole).mp hrun
    have hof : blockOffset pos.ino = pos.ino * 4096 := blockOffset_eq hsmall
    have hbelow := hfound.2.1
    rw [hof, hlimit] at hbelow
    rw [hfound.1, hof, hblock] at hin
    exact ⟨(Nat.mul_lt_mul_right (by decide : 0 < 4096)).mp hbelow, by omega⟩

/-- A host with pages of 4096 bytes. -/
def host4096 : Host := { pageSize := 4096, pos := by decide, dvd := ⟨1, rfl⟩ }

/-- The map of a new journal. -/
def newJournal : FileMap :=
  { mapped := true, dataOf := 16384, dataMax := 16384, fmap := true, stSize := 16384 }

theorem newJournal_produced : Produced host4096 newJournal :=
  @Produced.file host4096 { write := none, mmap := false } 0 newJournal rfl

/-- Block 3 of a new journal lies inside of its map of four blocks. -/
theorem block_inside_new : ∃ dataOf, shfsJournalBlock newJournal 3 = some dataOf ∧
    dataOf + maxBlockSize ≤ newJournal.dataMax := by
  have hinside := (block_inside_iff host4096 newJournal newJournal_produced 3).mpr (by decide)
  have hblock : shfsJournalBlock newJournal 3 = some 12288 := by decide
  exact ⟨12288, hblock, hinside _ hblock⟩

/-- Block four of a new journal begins where the map of four blocks ends. -/
theorem block_behind_map : ∃ dataOf, shfsJournalBlock newJournal 4 = some dataOf ∧
    ¬ dataOf + maxBlockSize ≤ newJournal.dataMax :=
  ⟨16384, by decide, by decide⟩

end LibShare.Fs
