import LibShare.Fs.Write

/-!
# libshare — a write and the read after it

`shfs_aux_write` as a whole, on an inode whose chain is sound: when it reports
success, what it leaves in the store, and when a read returns the data
(`auxWrite_spec`, `auxRead_written`).
-/

namespace LibShare.Fs

/-! ## When the blocks are found -/

/-- Every block that a write to the inode needs finds a position. -/
def WriteFound (env : Env) (fs : Shfs) (inode : Block) (data : Bytes) : List Idx → Prop
  | [] =>
    match auxFirst env fs inode with
    | .error _ => False
    | .ok (fs, _, blk, _) => SlotsFound env (blocksFor data - 1) fs blk
  | p :: old => SlotsFound env (blocksAfter data old) fs (fs.block (old.getLastD p))

/-- None of these positions is found twice. The list is the chain of the inode. -/
def WriteApart (env : Env) (fs : Shfs) (inode : Block) (data : Bytes) : List Idx → Prop
  | [] =>
    match auxFirst env fs inode with
    | .error _ => False
    | .ok (fs, _, blk, _) => SlotsApart env (blocksFor data - 1) fs blk
  | p :: old => SlotsApart env (blocksAfter data old) fs (fs.block (old.getLastD p))

instance (env : Env) (fs : Shfs) (inode : Block) (data : Bytes) :
    (L : List Idx) → Decidable (WriteFound env fs inode data L)
  | [] =>
    match h : auxFirst env fs inode with
    | .error _ => isFalse (by rw [WriteFound, h]; exact not_false)
    | .ok (fs', _, blk, _) =>
      decidable_of_iff (SlotsFound env (blocksFor data - 1) fs' blk) (by rw [WriteFound, h])
  | p :: old => inferInstanceAs
    (Decidable (SlotsFound env (blocksAfter data old) fs (fs.block (old.getLastD p))))

instance (env : Env) (fs : Shfs) (inode : Block) (data : Bytes) :
    (L : List Idx) → Decidable (WriteApart env fs inode data L)
  | [] =>
    match h : auxFirst env fs inode with
    | .error _ => isFalse (by rw [WriteApart, h]; exact not_false)
    | .ok (fs', _, blk, _) =>
      decidable_of_iff (SlotsApart env (blocksFor data - 1) fs' blk) (by rw [WriteApart, h])
  | p :: old => inferInstanceAs
    (Decidable (SlotsApart env (blocksAfter data old) fs (fs.block (old.getLastD p))))

/-- Not even the first one is found: the journal it is looked for in is full. -/
def WriteFull (env : Env) (fs : Shfs) (inode : Block) : List Idx → Prop
  | [] => ∃ err, auxFirst env fs inode = .error err
  | p :: old => ∃ err, shfsAuxPwriteCreate env fs (fs.block (old.getLastD p)) = .error err

/-! ## What is left in the store -/

/-- A chain that has been written to. -/
structure Rewritten (fs fs' : Shfs) (L : List Idx) (first : Option Idx) (L' : List Idx) :
    Prop where
  chain : Chain (nextOf fs') first L'
  cells : ∀ p ∈ L', p ∈ L ∨ ¬ fs.live p
  frame : ∀ p, p ∉ L' → fs'.block p = fs.block p
  stored : AllStored fs' L'
  kept : ∀ p ∈ L', fs.live p → SameNode (fs.block p) (fs'.block p)
  fresh : ∀ p ∈ L', ¬ fs.live p → (fs'.block p).fpos = Idx.zero
  size_le : ∀ j, fs.size j ≤ fs'.size j

theorem chain_ino_ne {fs : Shfs} : ∀ {L : List Idx} {pos : Idx}, Chain (nextOf fs) pos.ref L →
    ∀ p ∈ L, p.ino ≠ 0 := by
  intro L
  induction L with
  | nil =>
    intro pos _ p hp
    cases hp
  | cons a L ih =>
    rintro pos ⟨hs, h⟩ p hp
    obtain ⟨rfl, hne⟩ := Idx.ref_eq_some hs
    rcases List.mem_cons.mp hp with rfl | hp
    · exact hne
    · exact ih h p hp

/-- From a block of the store. -/
theorem Written.rewritten {fs fs' : Shfs} {p : Idx} {old L : List Idx}
    (hall : AllStored fs (p :: old)) (hw : Written fs fs' (fs.block p) old L) :
    Rewritten fs fs' (p :: old) (some p) L := by
  obtain ⟨hlive, -, hpos, hino⟩ := hall p (by simp)
  have hchain : Chain (nextOf fs') (some p) L := by
    have := hw.chain
    rw [hpos] at this
    exact this
  have href : Chain (nextOf fs') p.ref L := by
    rw [Idx.ref_of_ne hino]
    exact hchain
  refine ⟨hchain, ?_, hw.frame, ?_, ?_, ?_, hw.size_le⟩
  · intro q hq
    rcases hw.cells q hq with heq | hin | hfree
    · rw [hpos] at heq
      exact Or.inl (by simp [heq])
    · exact Or.inl (by simp [hin])
    · exact Or.inr hfree
  · intro q hq
    exact ⟨hw.live q hq, hw.inMap q hq, hw.pos_eq q hq, chain_ino_ne href q hq⟩
  · intro q hq hl
    by_cases hqp : q = p
    · subst hqp
      have := hw.head_same (by rw [hpos])
      rw [hpos] at this
      exact this
    · exact hw.kept q hq (by rw [hpos]; exact hqp) hl
  · intro q hq hfree
    refine (hw.fresh q hq ?_ hfree).2
    rw [hpos]
    rintro rfl
    exact hfree hlive

/-- From a first block that is new. -/
theorem Written.rewritten_new {fs fs1 fs' : Shfs} {blk : Block} {L : List Idx}
    (hblock : fs1.block = fs.block) (hsize : ∀ j, fs.size j ≤ fs1.size j)
    (htop : TopFree fs1 blk.pos) (hfpos : blk.fpos = Idx.zero) (hw : Written fs1 fs' blk [] L) :
    Rewritten fs fs' [] (some blk.pos) L := by
  have hlive : ∀ p, fs1.live p ↔ fs.live p := by
    intro p
    rw [Shfs.live, Shfs.live, hblock]
  have hfree : ∀ q ∈ L, ¬ fs.live q := by
    intro q hq
    rw [← hlive]
    rcases hw.cells q hq with rfl | hin | hfree
    · exact htop.free
    · cases hin
    · exact hfree
  refine ⟨hw.chain, fun q hq => Or.inr (hfree q hq), ?_, ?_, ?_, ?_, ?_⟩
  · intro q hq
    rw [hw.frame q hq, hblock]
  · intro q hq
    have href : Chain (nextOf fs') blk.pos.ref L := by
      rw [htop.ref]
      exact hw.chain
    exact ⟨hw.live q hq, hw.inMap q hq, hw.pos_eq q hq, chain_ino_ne href q hq⟩
  · intro q hq hl
    exact absurd hl (hfree q hq)
  · intro q hq _
    by_cases hqp : q = blk.pos
    · rw [hqp, hw.head_fpos, hfpos]
    · exact (hw.fresh q hq hqp (by rw [hlive]; exact hfree q hq)).2
  · intro j
    exact (hsize j).trans (hw.size_le j)

theorem Rewritten.refl {fs : Shfs} {L : List Idx} {first : Option Idx}
    (hchain : Chain (nextOf fs) first L) (hall : AllStored fs L) :
    Rewritten fs fs L first L where
  chain := hchain
  cells := fun _ hp => Or.inl hp
  frame := fun _ _ => rfl
  stored := hall
  kept := fun _ _ _ => ⟨rfl, rfl, rfl, fun _ => rfl⟩
  fresh := fun p hp hfree => absurd (hall p hp).1 hfree
  size_le := fun _ => Nat.le_refl _

/-- The inode itself is not in the chain. -/
theorem Rewritten.not_mem {fs fs' : Shfs} {L L' : List Idx} {first : Option Idx} {p : Idx}
    (h : Rewritten fs fs' L first L') (hlive : fs.live p) (hnot : p ∉ L) : p ∉ L' := by
  intro hmem
  rcases h.cells p hmem with hin | hfree
  · exact hnot hin
  · exact hfree hlive

/-- The inode after a write. -/
def writtenInode (inode : Block) (first : Idx) (data : Bytes) (crc mtime : UInt64) : Block :=
  { inode with fpos := first, crc := crc, size := data.length, mtime := mtime }

/-- What a write that succeeds has done: the chain has been written to, then
the inode. -/
structure Success (env : Env) (fs fs' : Shfs) (inode inode' : Block) (data : Bytes)
    (L : List Idx) (fs2 : Shfs) (first : Idx) (L' : List Idx) : Prop where
  chain : Rewritten fs fs2 L (some first) L'
  head : L = [] ∨ inode.fpos.ref = some first
  fits : Fits (WriteApart env fs inode data L) fs2 L' data
  inode_eq : ∃ crc mtime, inode' = writtenInode inode first data crc mtime
  store_eq : ∃ writes, fs' = { fs2 with writes := writes }.store inode'

/-- The end of `shfs_aux_pwrite`, once the loop has returned. -/
theorem auxPwrite_end (env : Env) {fs fs2 : Shfs} {inode : Block} (data : Bytes) (first : Idx)
    (crc : UInt64) {L : List Idx} {s : Option Idx} {L' : List Idx} (hmap : fs.inMap inode.pos)
    (hw : Rewritten fs fs2 L s L') :
    ∃ mtime writes, shfsInodeWriteBlock env fs2
        { { inode with fpos := first } with crc := crc, size := data.length } =
      ({ fs2 with writes := writes }.store (writtenInode inode first data crc mtime),
        writtenInode inode first data crc mtime, .ok ()) := by
  have hmap2 : fs2.inMap inode.pos := ⟨hmap.1, Nat.lt_of_lt_of_le hmap.2 (hw.size_le _)⟩
  have hblk : fs2.inMap ({ { inode with fpos := first } with
      crc := crc, size := data.length } : Block).pos := hmap2
  rw [shfsInodeWriteBlock_ok hblk]
  exact ⟨_, _, rfl⟩

/-- The first block of an inode that has one. -/
theorem auxFirst_old (env : Env) {fs : Shfs} {inode : Block} {p : Idx}
    (hs : inode.fpos.ref = some p) (hmap : fs.inMap p) :
    auxFirst env fs inode = .ok (fs, inode, fs.block p, fs.block p) := by
  obtain ⟨hp, hne⟩ := Idx.ref_eq_some hs
  unfold auxFirst
  rw [if_neg hne, ← hp, shfsInodeReadBlock_ok hmap]

/-- The block that an inode without content begins with. -/
structure NewFirst (fs : Shfs) (inode : Block) (data : Bytes) (fs1 : Shfs)
    (inode1 blk oblk : Block) : Prop where
  block_eq : fs1.block = fs.block
  size_le : ∀ j, fs.size j ≤ fs1.size j
  top : TopFree fs1 blk.pos
  fpos_eq : blk.fpos = Idx.zero
  atEnd : AtEnd fs1 blk
  outdated : Outdated fs1 oblk blk data
  inode_eq : inode1 = { inode with fpos := blk.pos }

theorem auxFirst_new {env : Env} {fs fs1 : Shfs} {inode inode1 blk oblk : Block} (data : Bytes)
    (hzero : inode.fpos.ino = 0) (h : auxFirst env fs inode = .ok (fs1, inode1, blk, oblk)) :
    NewFirst fs inode data fs1 inode1 blk oblk := by
  unfold auxFirst at h
  rw [if_pos hzero] at h
  cases hscan : shfsJournalScan env fs inode.name with
  | error err =>
    rw [hscan] at h
    cases h
  | ok c =>
    obtain ⟨fs0, idx⟩ := c
    rw [hscan] at h
    obtain ⟨-, htop, heq, hle⟩ := shfsJournalScan_ok hscan
    simp only [Except.ok.injEq, Prod.mk.injEq] at h
    obtain ⟨rfl, rfl, rfl, rfl⟩ := h
    -- a birth leaves the journals as they are
    have htop1 : TopFree fs0.born idx :=
      ⟨htop.ino_pos, htop.inMap, htop.size_le, htop.free, htop.above⟩
    have hend : AtEnd fs0.born
        { Block.zero with
          type := .aux, pos := idx, ctime := env.birth fs0.births,
          name := env.keyBin { inode with fpos := idx } } :=
      ⟨Nat.pos_iff_ne_zero.mp htop1.ino_pos, by simp, rfl, htop1.inMap, Or.inr ⟨htop1, rfl, rfl⟩⟩
    refine ⟨?_, hle, htop1, rfl, hend, Or.inr (Or.inl ⟨rfl, hend.type_ne⟩), rfl⟩
    show fs0.block = fs.block
    rw [heq]

/-- What a write to an inode with the chain `L` may leave. -/
def WriteLeaves (env : Env) (fs : Shfs) (inode : Block) (data : Bytes) (L : List Idx)
    (fs' : Shfs) (inode' : Block) (r : Except Sherr Unit) : Prop :=
  (¬ WriteFound env fs inode data L ∧ (∃ err, r = .error err) ∧
    (WriteFull env fs inode L → inode' = inode ∧ Rewritten fs fs' L inode.fpos.ref L)) ∨
  (WriteFound env fs inode data L ∧ r = .ok () ∧
    ∃ fs2 first L', Success env fs fs' inode inode' data L fs2 first L')

theorem auxWrite_new {env : Env} {fuel : Nat} {fs fs' : Shfs} {inode inode' : Block}
    {data : Bytes} {r : Except Sherr Unit} (hchain : Chain (nextOf fs) inode.fpos.ref [])
    (hmap : fs.inMap inode.pos)
    (h : shfsAuxWrite env fuel fs inode data = some (fs', inode', r)) :
    WriteLeaves env fs inode data [] fs' inode' r := by
  have hzero : inode.fpos.ino = 0 := by
    by_contra hne
    rw [Idx.ref_of_ne hne] at hchain
    cases hchain
  unfold shfsAuxWrite shfsAuxPwrite at h
  cases hfirst : auxFirst env fs inode with
  | error err =>
    simp only [hfirst, Option.some.injEq, Prod.mk.injEq] at h
    obtain ⟨rfl, rfl, rfl⟩ := h
    refine Or.inl ⟨?_, ⟨err, rfl⟩, fun _ => ⟨rfl, Rewritten.refl hchain (by simp [AllStored])⟩⟩
    simp only [WriteFound, hfirst, not_false_eq_true]
  | ok c =>
    obtain ⟨fs1, inode1, blk, oblk⟩ := c
    have hnew := auxFirst_new data hzero hfirst
    simp only [hfirst] at h
    cases hloop : shfsAuxPwriteLoop env 0 fuel fs1 blk oblk data 0 0 with
    | none =>
      rw [hloop] at h
      cases h
    | some res =>
      obtain ⟨fs2, r'⟩ := res
      rw [hloop] at h
      rcases loop_new hnew.atEnd hnew.outdated hloop with
        ⟨hnot, err, rfl⟩ | ⟨hyes, crc, L', rfl, hw, -, hfits⟩
      · simp only [Option.some.injEq, Prod.mk.injEq] at h
        refine Or.inl ⟨?_, ⟨err, h.2.2.symm⟩, ?_⟩
        · simp only [WriteFound, hfirst]
          exact hnot
        · rintro ⟨err', herr⟩
          rw [hfirst] at herr
          cases herr
      · have hrw := hw.rewritten_new hnew.block_eq hnew.size_le hnew.top hnew.fpos_eq
        obtain ⟨mtime, writes, hwrite⟩ := auxPwrite_end env data blk.pos crc hmap hrw
        simp only [hnew.inode_eq, hwrite, Option.some.injEq, Prod.mk.injEq] at h
        obtain ⟨rfl, rfl, rfl⟩ := h
        refine Or.inr ⟨?_, rfl, fs2, blk.pos, L', hrw, Or.inl rfl, ?_, ⟨crc, mtime, rfl⟩,
          writes, rfl⟩
        · simp only [WriteFound, hfirst]
          exact hyes
        · simp only [WriteApart, hfirst]
          exact hfits

theorem auxWrite_old {env : Env} {fuel : Nat} {fs fs' : Shfs} {inode inode' : Block}
    {data : Bytes} {r : Except Sherr Unit} {p : Idx} {old : List Idx}
    (hchain : Chain (nextOf fs) inode.fpos.ref (p :: old)) (hall : AllStored fs (p :: old))
    (hmap : fs.inMap inode.pos)
    (h : shfsAuxWrite env fuel fs inode data = some (fs', inode', r)) :
    WriteLeaves env fs inode data (p :: old) fs' inode' r := by
  obtain ⟨hs, hchain'⟩ := hchain
  obtain ⟨-, hpmap, hppos, -⟩ := hall p (by simp)
  have hinode : inode = { inode with fpos := p } := by rw [(Idx.ref_eq_some hs).1]
  unfold shfsAuxWrite shfsAuxPwrite at h
  simp only [auxFirst_old env hs hpmap] at h
  cases hloop : shfsAuxPwriteLoop env 0 fuel fs (fs.block p) (fs.block p) data 0 0 with
  | none =>
    rw [hloop] at h
    cases h
  | some res =>
    obtain ⟨fs2, r'⟩ := res
    rw [hloop] at h
    have hres := loop_chain (by rw [hppos]) (by rw [hppos]; exact ⟨rfl, hchain'⟩)
      (by rw [hppos]; exact hall) hloop
    unfold LoopLeaves at hres
    rw [hppos] at hres
    rcases hres with ⟨hnot, ⟨err, rfl⟩, hfull⟩ | ⟨hyes, crc, L', rfl, hw, hfits⟩
    · simp only [Option.some.injEq, Prod.mk.injEq] at h
      obtain ⟨rfl, rfl, rfl⟩ := h
      refine Or.inl ⟨hnot, ⟨err, rfl⟩, fun hwf => ⟨rfl, ?_⟩⟩
      rw [hs]
      exact (hfull hwf).rewritten hall
    · have hrw := hw.rewritten hall
      obtain ⟨mtime, writes, hwrite⟩ := auxPwrite_end env data p crc hmap hrw
      rw [hinode] at h
      simp only [hwrite, Option.some.injEq, Prod.mk.injEq] at h
      obtain ⟨rfl, rfl, rfl⟩ := h
      exact Or.inr ⟨hyes, rfl, fs2, p, L', hrw, Or.inr hs, hfits, ⟨crc, mtime, rfl⟩, writes, rfl⟩

/-- `shfs_aux_write`, on an inode whose chain is `L`. -/
theorem auxWrite_spec {env : Env} {fuel : Nat} {fs fs' : Shfs} {inode inode' : Block}
    {data : Bytes} {r : Except Sherr Unit} {L : List Idx}
    (hchain : Chain (nextOf fs) inode.fpos.ref L) (hall : AllStored fs L)
    (hmap : fs.inMap inode.pos)
    (h : shfsAuxWrite env fuel fs inode data = some (fs', inode', r)) :
    WriteLeaves env fs inode data L fs' inode' r := by
  cases L with
  | nil => exact auxWrite_new hchain hmap h
  | cons p old => exact auxWrite_old hchain hall hmap h

/-! ## The read after a write -/

theorem blocksFor_short {data : Bytes} {n : Nat} (hpos : 0 < n) (h : n < blocksFor data) :
    n * blockDataSize < data.length := by
  unfold blocksFor at h
  have hle : n ≤ (data.length - 1) / blockDataSize := by omega
  have hmul := (Nat.le_div_iff_mul_le blockDataSize_pos).mp hle
  have := Nat.mul_pos hpos blockDataSize_pos
  omega

/-- A write that reported success is read back exactly if no position was found
twice. -/
theorem auxRead_written {env : Env} {fs fs' fs2 : Shfs} {inode inode' : Block} {data : Bytes}
    {L L' : List Idx} {first : Idx} (hlive : fs.live inode.pos) (hnot : inode.pos ∉ L)
    (h : Success env fs fs' inode inode' data L fs2 first L') :
    (∃ fuel, shfsAuxRead fuel fs' inode' = some (.ok data)) ↔ WriteApart env fs inode data L := by
  obtain ⟨crc, mtime, hinode⟩ := h.inode_eq
  obtain ⟨writes, hstore⟩ := h.store_eq
  have hposeq : inode'.pos = inode.pos := by rw [hinode]; rfl
  have hnot' : inode.pos ∉ L' := h.chain.not_mem hlive hnot
  have hback : ∀ p ∈ L', fs'.block p = fs2.block p := by
    intro p hp
    rw [hstore, Shfs.store_ne]
    rw [hposeq]
    rintro rfl
    exact hnot' hp
  have hfirst : first ∈ L' := h.chain.chain.head_mem
  have hino : first.ino ≠ 0 := (h.chain.stored first hfirst).2.2.2
  have hchain : Chain (nextOf fs') inode'.fpos.ref L' := by
    rw [hinode]
    show Chain (nextOf fs') first.ref L'
    rw [Idx.ref_of_ne hino]
    exact h.chain.chain.congr fun p hp => nextOf_congr (hback p hp)
  have hmap : ∀ p ∈ L', fs'.inMap p := by
    intro p hp
    rw [hstore]
    exact (h.chain.stored p hp).2.1
  have hsize : inode'.size = data.length := by rw [hinode]; rfl
  have hread : ∀ fuel, L'.length < fuel →
      shfsAuxRead fuel fs' inode' = some (.ok ((content fs2 L').take data.length)) := by
    intro fuel hfuel
    rw [shfsAuxRead_chain hchain hmap hfuel, hsize, content_congr hback]
  rw [auxRead_iff hread]
  constructor
  · intro hdata
    by_contra hcon
    have hlt := h.fits.short hcon
    have hcap := blocksFor_short (List.length_pos_of_mem hfirst) hlt
    have hlen := congrArg List.length hdata
    rw [List.length_take, content_length] at hlen
    omega
  · exact h.fits.whole

end LibShare.Fs
