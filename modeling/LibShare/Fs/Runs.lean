import LibShare.Fs.Links

/-!
# libshare — runs on a partition

A partition is created by `shfs_init`, and inodes are opened, written, truncated
and cleared in any order.

* `no_dangling` — in a run of safe operations no reference ever dangles.
* `auxWrite_read_iff` — in a state that such a run reaches, a write that reported
  success is read back exactly if no position was found twice for its blocks.
-/

namespace LibShare.Fs

/-! ## A new partition -/

/-- A new partition: the supernode at the end of the initial journal, and the root
directory that it refers to. -/
structure NewPartition (m : Mount) (peerKey : ShKey) (node root : Idx) : Prop where
  apart : root ≠ node
  node_at : node.jno = 0 ∧ node.ino + 1 = m.fs.size 0 ∧ node.ino ≠ 0
  node_map : m.fs.inMap node
  node_type : (m.fs.block node).type = .partition
  node_name : (m.fs.block node).name = peerKey
  node_links : (m.fs.block node).pos = node ∧ (m.fs.block node).npos = Idx.zero ∧
    (m.fs.block node).fpos = root
  root_at : root.jno ≠ 0 ∧ root.ino ≠ 0
  root_map : m.fs.inMap root
  root_type : (m.fs.block root).type = .directory
  root_links : (m.fs.block root).pos = root ∧ (m.fs.block root).npos = Idx.zero ∧
    (m.fs.block root).fpos = Idx.zero
  root_raw : (m.fs.block root).raw = overlay Block.zero.raw 0 []
  others : ∀ p, p ≠ node → p ≠ root → m.fs.block p = Block.zero
  inos : m.inos = [{ blk := m.fs.block root, parent := none }]

theorem newPartition {env : Env} {peerKey rootKey : ShKey} {peerRaw : Bytes} {salt : UInt16}
    {m : Mount} (h : shfsInitNew env peerKey rootKey peerRaw salt = .ok m) :
    ∃ node root, NewPartition m peerKey node root := by
  unfold shfsInitNew at h
  cases hscan : scanRetry Shfs.empty 0 with
  | error err =>
    rw [hscan] at h
    cases h
  | ok c =>
  obtain ⟨fs0, pos⟩ := c
  obtain ⟨hjno, htop, heq, -⟩ := scanRetry_ok hscan
  simp only [hscan] at h
  cases hscan1 : shfsJournalScan env fs0.born peerKey with
  | error err =>
    rw [hscan1] at h
    cases h
  | ok c =>
  obtain ⟨fs1, fpos⟩ := c
  obtain ⟨hjno1, htop1, heq1, hle1⟩ := shfsJournalScan_ok hscan1
  have hblock0 : fs0.block = fun _ => Block.zero := by
    rw [heq]
    rfl
  have hblock1 : fs1.block = fun _ => Block.zero := by
    rw [heq1]
    exact hblock0
  have hkey := env.journalIndex_pos peerKey
  have hsize1 : fs1.size 0 = fs0.size 0 := scanRetry_size hscan1 0 (by omega)
  have hne : fpos ≠ pos := by
    rintro rfl
    omega
  have hmap : fs1.inMap pos := ⟨htop.inMap.1, Nat.lt_of_lt_of_le htop.inMap.2 (hle1 _)⟩
  simp only [hscan1] at h
  split at h
  · cases h
  next fs2 node _ hwrite =>
  obtain ⟨mtime, writes, hnode, hfs2⟩ := shfsInodeWriteBlock_inv hwrite
  split at h
  · cases h
  next fs3 root _ hwrite3 =>
  obtain ⟨mtime3, writes3, hroot, hfs3⟩ := shfsInodeWriteBlock_inv hwrite3
  cases h
  have hnpos : node.pos = pos := by rw [hnode]
  have hrpos : root.pos = fpos := by rw [hroot]
  have hself : fs3.block pos = node := by
    rw [hfs3, Shfs.store_ne _ _ (by rw [hrpos]; exact Ne.symm hne)]
    show fs2.block pos = node
    rw [hfs2, ← hnpos, Shfs.store_self]
  have hselfr : fs3.block fpos = root := by rw [hfs3, ← hrpos, Shfs.store_self]
  have hsize : fs3.size = fs1.size := by
    rw [hfs3]
    show fs2.size = fs1.size
    rw [hfs2]
    rfl
  have hmap3 : ∀ p, fs1.inMap p → fs3.inMap p := by
    intro p hp
    rw [Shfs.inMap, hsize]
    exact hp
  -- every block above the supernode would be in use, and none is
  have hlast : pos.ino + 1 = fs0.size 0 := by
    have hlt := htop.inMap.2
    rw [hjno] at hlt
    by_contra hcon
    refine htop.above (pos.ino + 1) (by omega) (by rw [hjno]; omega) ?_
    rw [hblock0]
    rfl
  have hino := htop.ino_pos
  have hinor := htop1.ino_pos
  refine ⟨pos, fpos, hne, ⟨hjno, ?_, by omega⟩, hmap3 _ hmap, ?_, ?_, ?_, ⟨by omega, by omega⟩,
    hmap3 _ htop1.inMap, ?_, ?_, ?_, ?_, ?_⟩
  · show pos.ino + 1 = fs3.size 0
    rw [hsize, hsize1, hlast]
  · show (fs3.block pos).type = .partition
    rw [hself, hnode]
  · show (fs3.block pos).name = peerKey
    rw [hself, hnode]
  · show (fs3.block pos).pos = pos ∧ (fs3.block pos).npos = Idx.zero ∧ (fs3.block pos).fpos = fpos
    rw [hself, hnode]
    exact ⟨rfl, rfl, rfl⟩
  · show (fs3.block fpos).type = .directory
    rw [hselfr, hroot]
    rfl
  · show (fs3.block fpos).pos = fpos ∧ (fs3.block fpos).npos = Idx.zero ∧
      (fs3.block fpos).fpos = Idx.zero
    rw [hselfr, hroot]
    exact ⟨rfl, rfl, rfl⟩
  · show (fs3.block fpos).raw = overlay Block.zero.raw 0 []
    rw [hselfr, hroot]
    rfl
  · intro p hp hpf
    show fs3.block p = Block.zero
    rw [hfs3, Shfs.store_ne _ _ (by rw [hrpos]; exact hpf)]
    show fs2.block p = Block.zero
    rw [hfs2, Shfs.store_ne _ _ (by rw [hnpos]; exact hp)]
    show fs1.block p = Block.zero
    rw [hblock1]
  · show [_] = [_]
    rw [hselfr]

section New

variable {m : Mount} {peerKey : ShKey} {node root : Idx}

theorem NewPartition.live_iff (h : NewPartition m peerKey node root) (p : Idx) :
    m.fs.live p ↔ p = node ∨ p = root := by
  by_cases hp : p = node
  · subst hp
    refine iff_of_true ?_ (Or.inl rfl)
    rw [Shfs.live, h.node_type]
    decide
  by_cases hpr : p = root
  · subst hpr
    refine iff_of_true ?_ (Or.inr rfl)
    rw [Shfs.live, h.root_type]
    decide
  · refine iff_of_false ?_ (by simp [hp, hpr])
    rw [Shfs.live, h.others p hp hpr]
    simp [Block.zero]

theorem NewPartition.nextOf (h : NewPartition m peerKey node root) {p : Idx} (hp : m.fs.live p) :
    Fs.nextOf m.fs p = none := by
  rcases (h.live_iff p).mp hp with rfl | rfl
  · rw [Fs.nextOf, h.node_links.2.1]
    rfl
  · rw [Fs.nextOf, h.root_links.2.1]
    rfl

theorem NewPartition.firstOf_node (h : NewPartition m peerKey node root) :
    firstOf m.fs node = some root := by
  rw [firstOf, h.node_links.2.2]
  exact Idx.ref_of_ne h.root_at.2

theorem NewPartition.firstOf_root (h : NewPartition m peerKey node root) :
    firstOf m.fs root = none := by
  rw [firstOf, h.root_links.2.2]
  rfl

/-- The owners of the two blocks. -/
def newOwner (node root p : Idx) : Idx := if p = root then node else Idx.zero

theorem NewPartition.sound (h : NewPartition m peerKey node root) :
    Sound m.fs (newOwner node root) := by
  refine ⟨?_, ?_, ?_, ?_, ?_, ?_⟩
  · intro p hp
    rcases (h.live_iff p).mp hp with rfl | rfl
    · exact ⟨h.node_links.1, h.node_at.2.2, h.node_map⟩
    · exact ⟨h.root_links.1, h.root_at.2, h.root_map⟩
  · intro p q hp hq
    rw [h.nextOf hp] at hq
    cases hq
  · intro p q hp hq
    rcases (h.live_iff p).mp hp with rfl | rfl
    · rw [h.firstOf_node] at hq
      cases hq
      exact ⟨(h.live_iff _).mpr (Or.inr rfl), if_pos rfl⟩
    · rw [h.firstOf_root] at hq
      cases hq
  · intro p p' q hp hp' hq
    rw [h.nextOf hp']
    simp
  · intro p hp
    exact ⟨[], h.nextOf hp⟩
  · intro p hp
    rcases (h.live_iff p).mp hp with rfl | rfl
    · rw [newOwner, if_neg (Ne.symm h.apart)]
      intro hz
      exact h.node_at.2.2 (by rw [← hz]; rfl)
    · rw [newOwner, if_pos rfl]
      exact Ne.symm h.apart

end New

/-- The root directory is the only open inode of a new partition. -/
theorem mounted_init {env : Env} {peerKey rootKey : ShKey} {peerRaw : Bytes} {salt : UInt16}
    {m : Mount} (h : shfsInitNew env peerKey rootKey peerRaw salt = .ok m) :
    (∃ own, Mounted m own) ∧ ∀ p, (m.fs.block p).type ≠ .binary := by
  obtain ⟨node, root, hnew⟩ := newPartition h
  have hpos := hnew.root_links.1
  have honly : ∀ (i : Nat) (ino : Ino), m.inos[i]? = some ino →
      i = 0 ∧ ino = { blk := m.fs.block root, parent := none } := by
    intro i ino hi
    rw [hnew.inos] at hi
    cases i with
    | zero => exact ⟨rfl, (Option.some.inj hi).symm⟩
    | succ i => cases hi
  refine ⟨⟨newOwner node root, hnew.sound, ?_, ?_, ?_, ?_⟩, fun p => ?_⟩
  · intro i ino hi
    obtain ⟨-, rfl⟩ := honly i ino hi
    exact Held.of_stored (by rw [hpos]; exact (hnew.live_iff _).mpr (Or.inr rfl)) (by rw [hpos])
  · intro i j a b hi hj _
    rw [(honly i a hi).1, (honly j b hj).1]
  · intro i j ino hi hpar
    obtain ⟨-, rfl⟩ := honly i ino hi
    cases hpar
  · intro i ino hi _
    obtain ⟨-, rfl⟩ := honly i ino hi
    rw [hpos, newOwner, if_pos rfl, newOwner, if_neg (Ne.symm hnew.apart)]
    exact ⟨(hnew.live_iff _).mpr (Or.inl rfl), rfl⟩
  · by_cases hp : p = node
    · rw [hp, hnew.node_type]
      decide
    by_cases hpr : p = root
    · rw [hpr, hnew.root_type]
      decide
    · rw [hnew.others p hp hpr]
      simp [Block.zero]

/-! ## Runs -/

/-- One operation. -/
theorem Mounted.step {env : Env} {fuel : Nat} {m m' : Mount} {own : Idx → Idx} {op : Op}
    (h : Mounted m own) (hsafe : op.Safe env m) (hrun : op.run env fuel m = some m') :
    ∃ own', Mounted m' own' := by
  cases op with
  | inode i name mode acc =>
    obtain ⟨res, hres, rfl⟩ := Option.map_eq_some_iff.mp hrun
    exact h.inode hres
  | write i data =>
    simp only [Op.run] at hrun
    cases hi : m.inos[i]? with
    | none => simp [hi] at hrun
    | some ino =>
      rw [hi] at hrun
      obtain ⟨res, hres, rfl⟩ := Option.map_eq_some_iff.mp hrun
      exact h.write hi (hsafe ino hi) hres
  | truncate i len =>
    simp only [Op.run] at hrun
    cases hi : m.inos[i]? with
    | none => simp [hi] at hrun
    | some ino =>
      rw [hi] at hrun
      obtain ⟨res, hres, rfl⟩ := Option.map_eq_some_iff.mp hrun
      exact ⟨own, h.truncate hi (hsafe ino hi) hres⟩
  | clear i =>
    simp only [Op.run] at hrun
    cases hi : m.inos[i]? with
    | none => simp [hi] at hrun
    | some ino =>
      rw [hi] at hrun
      obtain ⟨res, hres, rfl⟩ := Option.map_eq_some_iff.mp hrun
      exact ⟨own, h.clear hi (hsafe ino hi) hres⟩

/-- The mounts that a run can reach, by operations that `ok` allows. -/
inductive Reached (env : Env) (ok : Mount → Op → Prop) : Mount → Prop
  | init {peerKey rootKey : ShKey} {peerRaw : Bytes} {salt : UInt16} {m : Mount}
      (h : shfsInitNew env peerKey rootKey peerRaw salt = .ok m) : Reached env ok m
  | step {m m' : Mount} {op : Op} {fuel : Nat} (hm : Reached env ok m) (hok : ok m op)
      (h : op.run env fuel m = some m') : Reached env ok m'

/-- One journal for all keys. Blocks are taken from its end. -/
def oneJournal : Env where
  journalIndex := fun _ => 1
  journalIndex_pos := fun _ => Nat.one_pos
  keyBin := fun _ => ashkeyBlank
  token := fun _ _ _ _ => ashkeyBlank
  birth := fun _ => 0
  clock := fun _ => 0

/-- Operations on a new partition, in order. -/
def runNew (env : Env) (fuel : Nat) (ops : List Op) : Option Mount :=
  (shfsInitNew env ashkeyBlank ashkeyBlank [] 0).toOption.bind fun m =>
    ops.foldlM (fun m op => op.run env fuel m) m

/-- A binary inode below the root directory. -/
def newBinary : Op := .inode 0 [] .binary { owner := ashkeyBlank, attr := 0, salt := 0 }

theorem Reached.foldlM {env : Env} {ok : Mount → Op → Prop} {fuel : Nat} :
    ∀ {ops : List Op} {m m' : Mount}, (∀ op ∈ ops, ∀ m, ok m op) → Reached env ok m →
    ops.foldlM (fun m op => op.run env fuel m) m = some m' → Reached env ok m' := by
  intro ops
  induction ops with
  | nil =>
    intro m m' _ hm h
    cases h
    exact hm
  | cons op ops ih =>
    intro m m' hok hm h
    obtain ⟨m1, h1, h2⟩ := Option.bind_eq_some_iff.mp h
    exact ih (fun o ho => hok o (List.mem_cons_of_mem _ ho))
      (hm.step (hok op List.mem_cons_self m) h1) h2

theorem Reached.runNew {env : Env} {ok : Mount → Op → Prop} {fuel : Nat} {ops : List Op}
    {m : Mount} (hok : ∀ op ∈ ops, ∀ m, ok m op) (h : Fs.runNew env fuel ops = some m) :
    Reached env ok m := by
  obtain ⟨m0, h0, h1⟩ := Option.bind_eq_some_iff.mp h
  exact Reached.foldlM hok (Reached.init (ok_of_toOption h0)) h1

/-- A binary inode on a new partition, reached by a safe run. -/
theorem newBinary_reached {env : Env} (h : (runNew env 5 [newBinary]).map (fun m =>
      m.inos[1]?.map fun ino => ino.blk.fpos.ref) = some (some none)) :
    ∃ m ino, runNew env 5 [newBinary] = some m ∧ Reached env (Op.Safe env · ·) m ∧
      m.inos[1]? = some ino ∧ Chain (nextOf m.fs) ino.blk.fpos.ref [] := by
  obtain ⟨m, hm, hfirst⟩ := Option.map_eq_some_iff.mp h
  obtain ⟨ino, hino, href⟩ := Option.map_eq_some_iff.mp hfirst
  refine ⟨m, ino, hm, Reached.runNew (fun op hop m => ?_) hm, hino, href⟩
  rw [List.mem_singleton.mp hop]
  trivial

/-- One journal for each block of a short chain. -/
def ownJournals : Env where
  journalIndex := fun key => key.crc.toNat + 1
  journalIndex_pos := fun _ => Nat.succ_pos _
  keyBin := fun blk => { ashkeyBlank with crc := blk.name.crc + 1 }
  token := fun _ _ _ _ => { ashkeyBlank with crc := 7 }
  birth := fun _ => 0
  clock := fun _ => 0

/-! ## References -/

/-- Every mount that safe operations reach is sound. -/
theorem Reached.mounted {env : Env} {m : Mount} (h : Reached env (Op.Safe env · ·) m) :
    ∃ own, Mounted m own := by
  induction h with
  | init h => exact (mounted_init h).1
  | step _ hok hrun ih =>
    obtain ⟨own, hm⟩ := ih
    exact hm.step hok hrun

/-- In a run of safe operations no reference ever dangles. -/
theorem no_dangling {env : Env} {m : Mount} (h : Reached env (Op.Safe env · ·) m) :
    NoDangling m.fs := by
  obtain ⟨own, hm⟩ := h.mounted
  exact hm.sound.noDangling

/-- Data for two blocks. -/
def twoBlocks : Bytes := List.replicate (blockDataSize + 1) 1

/-- Nothing dangles when two blocks have been written below a binary inode. -/
theorem no_dangling_write : ∃ m, Reached ownJournals (Op.Safe ownJournals · ·) m ∧
    nextOf m.fs { jno := 8, ino := 2 } = some { jno := 9, ino := 3 } ∧ NoDangling m.fs := by
  obtain ⟨m, ino, hm, hreach, hino, hchain⟩ := @newBinary_reached ownJournals (by decide +kernel)
  have hfacts : (runNew ownJournals 5 [newBinary]).bind (fun m => m.inos[1]?.bind fun ino =>
      ((Op.write 1 twoBlocks).run ownJournals 5 m).map fun m' =>
        (decide (WriteFound ownJournals m.fs ino.blk twoBlocks []),
          nextOf m'.fs { jno := 8, ino := 2 })) =
      some (true, some { jno := 9, ino := 3 }) := by decide +kernel
  rw [hm, Option.bind_some, hino, Option.bind_some] at hfacts
  obtain ⟨m', hrun, hpair⟩ := Option.map_eq_some_iff.mp hfacts
  obtain ⟨hfound, hnext⟩ := Prod.mk.inj hpair
  have hsafe : Op.Safe ownJournals m (.write 1 twoBlocks) := by
    intro ino' hino' L hL
    cases hino.symm.trans hino'
    rw [hL.unique hchain]
    exact .inl (of_decide_eq_true hfound)
  have hreach' := hreach.step hsafe hrun
  exact ⟨m', hreach', hnext, no_dangling hreach'⟩

/-- A file of one byte is truncated to nothing. Its inode still refers to the
block that has been freed. -/
theorem truncate_dangles :
    ¬ ∀ (env : Env) (m : Mount), Reached env (fun _ _ => True) m → NoDangling m.fs := by
  intro h
  have hrun : ∃ m, runNew oneJournal 5 [newBinary, .write 1 [1], .truncate 1 0] = some m :=
    Option.isSome_iff_exists.mp (by decide +kernel)
  obtain ⟨m, hm⟩ := hrun
  have hfacts : (runNew oneJournal 5 [newBinary, .write 1 [1], .truncate 1 0]).map (fun m =>
      ((m.fs.block { jno := 1, ino := 2 }).type, (m.fs.block { jno := 1, ino := 2 }).fpos,
        (m.fs.block { jno := 1, ino := 1 }).type)) =
      some (.binary, { jno := 1, ino := 1 }, .null) := by decide +kernel
  rw [hm] at hfacts
  simp only [Option.map_some, Option.some.injEq, Prod.mk.injEq] at hfacts
  obtain ⟨htype, hfpos, hnull⟩ := hfacts
  obtain ⟨own, hown⟩ := h oneJournal m (Reached.runNew (fun _ _ _ => trivial) hm)
  have hlive : m.fs.live { jno := 1, ino := 2 } := by
    rw [Shfs.live, htype]
    decide
  have hfirst : firstOf m.fs { jno := 1, ino := 2 } = some { jno := 1, ino := 1 } := by
    rw [firstOf, hfpos]
    rfl
  exact ((hown _ hlive).2 _ hfirst).1 hnull

/-! ## The read after a write -/

/-- None of the positions for the new blocks of a write is found twice. -/
def WriteSpread (env : Env) (fs : Shfs) (inode : Block) (data : Bytes) : Prop :=
  ∀ L, Chain (nextOf fs) inode.fpos.ref L → WriteApart env fs inode data L

theorem Mounted.auxWrite_read {env : Env} {m : Mount} {own : Idx → Idx} {i fuel : Nat} {ino : Ino}
    {data : Bytes} {fs' : Shfs} {inode' : Block} (hm : Mounted m own)
    (hi : m.inos[i]? = some ino)
    (hwrite : shfsAuxWrite env fuel m.fs ino.blk data = some (fs', inode', .ok ())) :
    (∃ n, shfsAuxRead n fs' inode' = some (.ok data)) ↔ WriteSpread env m.fs ino.blk data := by
  obtain ⟨L, hchain, hall, hnot, -⟩ := hm.chain hi
  have hlive := (hm.held i ino hi).live
  have hspread : WriteSpread env m.fs ino.blk data ↔ WriteApart env m.fs ino.blk data L := by
    refine ⟨fun hs => hs L hchain, fun ha L' hL' => ?_⟩
    rw [hL'.unique hchain]
    exact ha
  rw [hspread]
  rcases auxWrite_spec hchain hall (hm.sound.cell _ hlive).2.2 hwrite with
    ⟨-, ⟨err, hr⟩, -⟩ | ⟨-, -, fs2, first, L', hsucc⟩
  · cases hr
  · exact auxRead_written hlive hnot hsucc

/-- In a state that safe operations have reached, a write that reported success
is read back exactly if none of the positions for its new blocks is found
twice. -/
theorem auxWrite_read_iff {env : Env} {m : Mount} {i fuel : Nat} {ino : Ino} {data : Bytes}
    {fs' : Shfs} {inode' : Block} (h : Reached env (Op.Safe env · ·) m)
    (hi : m.inos[i]? = some ino)
    (hwrite : shfsAuxWrite env fuel m.fs ino.blk data = some (fs', inode', .ok ())) :
    (∃ n, shfsAuxRead n fs' inode' = some (.ok data)) ↔ WriteSpread env m.fs ino.blk data := by
  obtain ⟨own, hm⟩ := h.mounted
  exact hm.auxWrite_read hi hwrite

/-- What a write to a new binary inode does, from an evaluation of it. -/
theorem newBinary_write {env : Env} (data : Bytes) (apart : Bool)
    (h : (runNew env 5 [newBinary]).map (fun m => m.inos[1]?.map fun ino => (ino.blk.fpos.ref,
      (shfsAuxWrite env 5 m.fs ino.blk data).map (fun res => res.2.2.toOption),
        decide (WriteApart env m.fs ino.blk data []))) =
      some (some (none, some (some ()), apart))) :
    ∃ (m : Mount) (ino : Ino) (fs' : Shfs) (inode' : Block), m.inos[1]? = some ino ∧
      runNew env 5 [newBinary] = some m ∧ Reached env (Op.Safe env · ·) m ∧
      shfsAuxWrite env 5 m.fs ino.blk data = some (fs', inode', .ok ()) ∧
      (WriteSpread env m.fs ino.blk data ↔ apart = true) := by
  obtain ⟨m, hm, hfacts⟩ := Option.map_eq_some_iff.mp h
  obtain ⟨ino, hino, hblk⟩ := Option.map_eq_some_iff.mp hfacts
  simp only [Prod.mk.injEq] at hblk
  obtain ⟨hfirst, hok, hapart⟩ := hblk
  obtain ⟨m', ino', hm', hreach, hino', hchain⟩ := @newBinary_reached env (by
    rw [hm, Option.map_some, hino, Option.map_some, hfirst])
  cases hm.symm.trans hm'
  cases hino.symm.trans hino'
  obtain ⟨⟨fs', inode', r⟩, hres, hr⟩ := Option.map_eq_some_iff.mp hok
  have hrok : r = .ok () := ok_of_toOption hr
  subst hrok
  refine ⟨m, ino, fs', inode', hino, hm, hreach, hres, ?_⟩
  rw [← hapart, decide_eq_true_eq]
  refine ⟨fun hs => hs [] hchain, fun ha L hL => ?_⟩
  rw [hL.unique hchain]
  exact ha

/-- Data for two blocks, which are in two journals. -/
theorem auxWrite_read_iff_two : ∃ (m : Mount) (ino : Ino) (fs' : Shfs) (inode' : Block),
    Reached ownJournals (Op.Safe ownJournals · ·) m ∧ m.inos[1]? = some ino ∧
    shfsAuxWrite ownJournals 5 m.fs ino.blk twoBlocks = some (fs', inode', .ok ()) ∧
    ∃ n, shfsAuxRead n fs' inode' = some (.ok twoBlocks) := by
  obtain ⟨m, ino, fs', inode', hino, -, hreach, hres, hspread⟩ :=
    @newBinary_write ownJournals twoBlocks true (by decide +kernel)
  exact ⟨m, ino, fs', inode', hreach, hino, hres,
    (auxWrite_read_iff hreach hino hres).mpr (hspread.mpr rfl)⟩

/-- Data for two blocks, both of which are given the last free position of the
journal: the first one is overwritten with the second. -/
theorem auxWrite_overwrites : ¬ ∀ (env : Env) (m : Mount) (i fuel : Nat) (ino : Ino)
    (data : Bytes) (fs' : Shfs) (inode' : Block), Reached env (fun _ _ => True) m →
    m.inos[i]? = some ino →
    shfsAuxWrite env fuel m.fs ino.blk data = some (fs', inode', .ok ()) →
    ∃ n, shfsAuxRead n fs' inode' = some (.ok data) := by
  intro h
  obtain ⟨m, ino, fs', inode', hino, hm, hreach, hres, hspread⟩ :=
    @newBinary_write oneJournal (List.replicate (blockDataSize + 1) 0) false (by decide +kernel)
  obtain ⟨own, hmounted⟩ := hreach.mounted
  have hread := h oneJournal m 1 5 ino _ fs' inode' (Reached.runNew (fun _ _ _ => trivial) hm)
    hino hres
  exact absurd (hspread.mp ((hmounted.auxWrite_read hino hres).mp hread)) (by decide)

end LibShare.Fs
