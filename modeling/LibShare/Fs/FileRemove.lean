import LibShare.Fs.Listing
import LibShare.Fs.FileResize

/-!
# libshare — what the removal of a file leaves

The content of a binary file is a chain of data blocks below the binary inode of the
file. `shfs_file_remove` goes through the list of the file's children, and a child
without a format is not listed. The binary inode has none, and neither have the data
blocks. Where a child is listed and has children itself, these are listed in turn, so
that the removal never comes to a data block (`content_reclaimed_iff`).

`DataChain` is the chain and what lies around it: a set of blocks that nothing else
refers to, but for the inode that the chain belongs to. It is kept by every step of a
removal, whatever the step does to the rest of the store (`DataChain.Holds`).
-/

namespace LibShare.Fs

/-! ## A chain that is left alone -/

/-- A chain of data blocks, in a set of blocks of a store. -/
structure DataChain where
  fs : Shfs
  blocks : Set Idx
  chain : List Idx
  /-- the name of the inode that the chain belongs to -/
  key : ShKey
  live : ∀ p ∈ blocks, fs.live p
  zero : Idx.zero ∉ blocks
  mem : ∀ p ∈ chain, p ∈ blocks
  bare : ∀ p ∈ chain, (fs.block p).format = .null
  mapped : ∀ p ∈ chain, fs.inMap p

variable {D : DataChain} {env : Env} {fs fs' : Shfs} {blk blk' : Block} {fuel : Nat}

/-- A block that refers to no block of the set, or to the chain as the inode that it
belongs to. -/
structure DataChain.Outside (D : DataChain) (blk : Block) : Prop where
  pos : blk.pos ∉ D.blocks
  npos : blk.npos ∉ D.blocks
  fpos : blk.fpos ∉ D.blocks ∨
    blk.type.isContainer = true ∧ blk.name = D.key ∧ Chain (nextOf D.fs) blk.fpos.ref D.chain

/-- A store that has the blocks, and in which nothing else refers to them. -/
structure DataChain.Kept (D : DataChain) (fs : Shfs) : Prop where
  same : ∀ p ∈ D.blocks, fs.block p = D.fs.block p
  size_le : ∀ j, D.fs.size j ≤ fs.size j
  outside : ∀ p, p ∉ D.blocks → D.Outside (fs.block p)

/-- A block of zeros lies outside of every chain of data. -/
theorem DataChain.Outside.zero (D : DataChain) : D.Outside Block.zero :=
  ⟨D.zero, D.zero, .inl D.zero⟩

/-- The time of a block does not matter to where it lies. -/
theorem DataChain.Outside.mtime (h : D.Outside blk) (mtime : UInt64) :
    D.Outside { blk with mtime := mtime } :=
  ⟨h.pos, h.npos, h.fpos⟩

/-- A block from outside may be stored. -/
theorem DataChain.Kept.store (h : D.Kept fs) (hblk : D.Outside blk) : D.Kept (fs.store blk) := by
  refine ⟨fun p hp => ?_, h.size_le, fun p hp => ?_⟩
  · rw [Shfs.store_ne _ _ fun heq => hblk.pos (heq ▸ hp)]
    exact h.same p hp
  · by_cases heq : p = blk.pos
    · rw [heq, Shfs.store_self]
      exact hblk
    · rw [Shfs.store_ne _ _ heq]
      exact h.outside p hp

/-- A block from outside is written, and what is written lies outside still. -/
theorem DataChain.Kept.writeBlock {r : Except Sherr Unit} (h : D.Kept fs)
    (hrun : shfsInodeWriteBlock env fs blk = (fs', blk', r)) (hblk : D.Outside blk) :
    D.Kept fs' ∧ D.Outside blk' ∧ blk'.fpos = blk.fpos ∧ blk'.name = blk.name := by
  unfold shfsInodeWriteBlock at hrun
  split at hrun
  · cases hrun
    have h' : D.Kept { fs with writes := fs.writes + 1 } := ⟨h.same, h.size_le, h.outside⟩
    exact ⟨h'.store (hblk.mtime _), hblk.mtime _, rfl, rfl⟩
  · cases hrun
    exact ⟨h, hblk, rfl, rfl⟩

/-- A block outside of the chain may be cleared. -/
theorem DataChain.Kept.clearBlock {pos : Idx} (h : D.Kept fs) (hpos : pos ∉ D.blocks)
    (hrun : shfsInodeClearBlock fs pos = .ok fs') : D.Kept fs' := by
  unfold shfsInodeClearBlock at hrun
  split at hrun
  · cases hrun
    refine ⟨fun p hp => ?_, h.size_le, fun p hp => ?_⟩
    · have hne : p ≠ pos := fun heq => hpos (heq ▸ hp)
      show Function.update fs.block pos Block.zero p = _
      rw [Function.update_of_ne hne]
      exact h.same p hp
    · show D.Outside (Function.update fs.block pos Block.zero p)
      by_cases heq : p = pos
      · rw [heq, Function.update_self]
        exact .zero D
      · rw [Function.update_of_ne heq]
        exact h.outside p hp
  · cases hrun

/-- A block that is in use is not given away. -/
theorem DataChain.Kept.scan {key : ShKey} {pos : Idx} (h : D.Kept fs)
    (hrun : shfsJournalScan env fs key = .ok (fs', pos)) : D.Kept fs' ∧ pos ∉ D.blocks := by
  obtain ⟨-, htop, hfs, hsize⟩ := shfsJournalScan_ok hrun
  have hblock : fs'.block = fs.block := by rw [hfs]
  refine ⟨⟨?_, fun j => Nat.le_trans (h.size_le j) (hsize j), ?_⟩, fun hin => htop.free ?_⟩
  · rw [hblock]
    exact h.same
  · rw [hblock]
    exact h.outside
  · rw [Shfs.live, hblock, h.same pos hin]
    exact D.live pos hin

/-- What is read at a position outside of the chain lies outside. -/
theorem DataChain.Kept.readBlock {pos : Idx} (h : D.Kept fs) (hpos : pos ∉ D.blocks)
    (hrun : shfsInodeReadBlock fs pos = .ok blk) : D.Outside blk := by
  unfold shfsInodeReadBlock at hrun
  split at hrun
  · cases hrun
    exact h.outside pos hpos
  · cases hrun

/-- A search that begins outside of the chain never comes into it. -/
theorem DataChain.Kept.linkFindLoop {key : ShKey} (h : D.Kept fs) : ∀ {fuel : Nat} {idx : Idx},
    idx ∉ D.blocks → Fs.linkFindLoop key fuel fs idx = some (.ok blk) → D.Outside blk ∧
      blk.name = key := by
  intro fuel
  induction fuel with
  | zero =>
    intro idx _ hrun
    cases hrun
  | succ fuel ih =>
    intro idx hidx hrun
    unfold Fs.linkFindLoop at hrun
    split at hrun
    · cases hrun
    split at hrun
    · cases hrun
    · next b hread =>
      have hout := h.readBlock hidx hread
      split at hrun
      · cases hrun
      split at hrun
      · next hname =>
        cases hrun
        exact ⟨hout, hname⟩
      · exact ih hout.npos hrun

/-- A new inode in front of a chain that is another one. -/
theorem DataChain.Kept.linkNew {parent pblk inode : Block} {r : Except Sherr Unit} (h : D.Kept fs)
    (hparent : D.Outside parent) (hfpos : parent.fpos ∉ D.blocks) (hinode : inode.fpos = Idx.zero)
    (hrun : Fs.linkNew env fs parent inode = (fs', pblk, blk, r)) :
    D.Kept fs' ∧ D.Outside pblk ∧ pblk.fpos ∉ D.blocks ∧
      (r = .ok () → D.Outside blk ∧ blk.fpos ∉ D.blocks ∧ blk.name = inode.name) := by
  unfold Fs.linkNew at hrun
  split at hrun
  · cases hrun
    exact ⟨h, hparent, hfpos, fun hok => nomatch hok⟩
  next nblk hnext =>
  -- the block that the new inode goes on to
  have hnpos : nblk.pos ∉ D.blocks := by
    split at hnext
    · cases hnext
      exact D.zero
    · exact (h.readBlock hfpos hnext).pos
  dsimp only at hrun
  split at hrun
  · cases hrun
    exact ⟨h, hparent, hfpos, fun hok => nomatch hok⟩
  next fs1 idx hscan =>
  obtain ⟨h1, hidx⟩ := h.scan hscan
  have hzero : inode.fpos ∉ D.blocks := by
    rw [hinode]
    exact D.zero
  have h1' : D.Kept fs1.born := ⟨h1.same, h1.size_le, h1.outside⟩
  split at hrun
  · next fs2 inode2 err hwrite =>
    cases hrun
    exact ⟨(h1'.writeBlock hwrite ⟨hidx, hnpos, .inl hzero⟩).1, hparent, hfpos, fun hok =>
      nomatch hok⟩
  · next fs2 inode2 u hwrite =>
    obtain ⟨h2, hout, hf, hname⟩ := h1'.writeBlock hwrite ⟨hidx, hnpos, .inl hzero⟩
    have hchild : inode2.pos ∉ D.blocks := hout.pos
    rcases hwrite3 : shfsInodeWriteBlock env fs2 { parent with fpos := inode2.pos }
        with ⟨fs3, pblk3, r3⟩
    simp only [hwrite3, Prod.mk.injEq] at hrun
    obtain ⟨rfl, rfl, rfl, rfl⟩ := hrun
    obtain ⟨h3, hpout, hpf, -⟩ := h2.writeBlock hwrite3 ⟨hparent.pos, hparent.npos, .inl hchild⟩
    refine ⟨h3, hpout, ?_, fun _ => ⟨hout, ?_, hname⟩⟩
    · rw [hpf]
      exact hchild
    · rw [hf]
      exact hzero

/-- The loop that clears a chain clears none of the data, if it begins outside of them. -/
theorem DataChain.Kept.clearLoop : ∀ {fuel : Nat} {fs : Shfs} {idx : Idx} {blk : Block}
    {r : Except Sherr Unit}, D.Kept fs → idx ∉ D.blocks → blk.npos ∉ D.blocks →
    Fs.clearLoop fuel fs idx blk = some (fs', r) → D.Kept fs' := by
  intro fuel
  induction fuel with
  | zero =>
    intro fs idx blk r _ _ _ hrun
    cases hrun
  | succ fuel ih =>
    intro fs idx blk r h hidx hnpos hrun
    unfold Fs.clearLoop at hrun
    split at hrun
    · cases hrun
      exact h
    split at hrun
    · cases hrun
      exact h
    · next fs1 hclear =>
      have h1 := h.clearBlock hidx hclear
      split at hrun
      · exact ih h1 D.zero D.zero hrun
      split at hrun
      · cases hrun
        exact h1
      · next nblk hread =>
        have hout := h1.readBlock hnpos hread
        exact ih h1 hout.npos hout.npos hrun

/-- An inode that does not begin the chain is cleared without a change to the data. -/
theorem DataChain.Kept.inodeClear {r : Except Sherr Unit} (h : D.Kept fs) (hblk : D.Outside blk)
    (hfpos : blk.fpos ∉ D.blocks) (hrun : shfsInodeClear env fuel fs blk = some (fs', blk', r)) :
    D.Kept fs' ∧ D.Outside blk' ∧ blk'.fpos ∉ D.blocks := by
  unfold shfsInodeClear at hrun
  split at hrun
  · cases hrun
  · next fs1 err hloop =>
    cases hrun
    exact ⟨h.clearLoop hfpos hblk.npos hloop, hblk, hfpos⟩
  · next fs1 u hloop =>
    simp only [Option.some.injEq] at hrun
    have hreset : D.Outside (resetInode blk) := ⟨hblk.pos, hblk.npos, .inl D.zero⟩
    obtain ⟨hkept, hout, hf, -⟩ := (h.clearLoop hfpos hblk.npos hloop).writeBlock hrun hreset
    refine ⟨hkept, hout, ?_⟩
    rw [hf]
    exact D.zero

/-! ## Mounts -/

/-- A mount whose store and whose open inodes leave the chain alone. -/
structure DataChain.Holds (D : DataChain) (m : Mount) : Prop where
  kept : D.Kept m.fs
  opened : ∀ (i : Nat) (ino : Ino), m.inos[i]? = some ino → D.Outside ino.blk

/-- What a step of a removal does: the chain is left alone, and an open inode that it did not
belong to is still one. -/
structure DataChain.Step (D : DataChain) (m m' : Mount) : Prop where
  holds : D.Holds m'
  others : ∀ (i : Nat) (ino : Ino), m.inos[i]? = some ino → ino.blk.fpos ∉ D.blocks →
    ∃ ino', m'.inos[i]? = some ino' ∧ ino'.blk.fpos ∉ D.blocks

variable {m m' m'' : Mount} {i : Nat} {ino : Ino} {acc : Nat → Access}

/-- A mount is a step from itself. -/
theorem DataChain.Step.refl (h : D.Holds m) : D.Step m m :=
  ⟨h, fun _ ino hi hf => ⟨ino, hi, hf⟩⟩

/-- Steps of a removal are composed. -/
theorem DataChain.Step.trans (h : D.Step m m') (h' : D.Step m' m'') : D.Step m m'' := by
  refine ⟨h'.holds, fun i ino hi hf => ?_⟩
  obtain ⟨ino', hi', hf'⟩ := h.others i ino hi hf
  exact h'.others i ino' hi' hf'

/-- An open inode is written back, from outside of the chain to outside of it. -/
theorem DataChain.Holds.put {fs' : Shfs} {blk' : Block} {r : Except Sherr Unit} (h : D.Holds m)
    (hi : m.inos[i]? = some ino) (hkept : D.Kept fs') (hout : D.Outside blk')
    (hfpos : ino.blk.fpos ∉ D.blocks → blk'.fpos ∉ D.blocks) :
    D.Step m (m.put i ino (fs', blk', r)) := by
  have hlt := (List.getElem?_eq_some_iff.mp hi).1
  refine ⟨⟨hkept, fun j a ha => ?_⟩, fun j a ha hf => ?_⟩
  · by_cases hj : i = j
    · subst hj
      rw [Mount.put, List.getElem?_set_self hlt] at ha
      cases ha
      exact hout
    · rw [Mount.put, List.getElem?_set_ne hj] at ha
      exact h.opened j a ha
  · by_cases hj : i = j
    · subst hj
      rw [hi] at ha
      cases ha
      exact ⟨_, List.getElem?_set_self hlt, hfpos hf⟩
    · exact ⟨a, by rw [Mount.put, List.getElem?_set_ne hj, ha], hf⟩

/-- An inode is opened. -/
theorem DataChain.Holds.concat {a : Ino} (h : D.Holds m) (ha : D.Outside a.blk) :
    D.Step m { m with inos := m.inos ++ [a] } := by
  refine ⟨⟨h.kept, fun j b hb => ?_⟩, fun j b hb hf => ?_⟩
  · rcases Nat.lt_trichotomy j m.inos.length with hlt | heq | hgt
    · rw [List.getElem?_append_left hlt] at hb
      exact h.opened j b hb
    · rw [heq, List.getElem?_concat_length] at hb
      cases hb
      exact ha
    · rw [List.getElem?_eq_none (by rw [List.length_append]; exact hgt)] at hb
      cases hb
  · exact ⟨b, by rw [List.getElem?_append_left (List.getElem?_eq_some_iff.mp hb).1, hb], hf⟩

/-- `shfs_inode` below an inode that the chain does not belong to. -/
theorem DataChain.Holds.inode {name : Bytes} {mode : Shinode} {a : Access} {n : Option Nat}
    (h : D.Holds m)
    (hi : m.inos[i]? = some ino) (hfpos : ino.blk.fpos ∉ D.blocks)
    (hrun : shfsInode env fuel m i name mode a = some (m', n)) :
    D.Step m m' ∧ ∀ c, n = some c →
      ∃ child, m'.inos[c]? = some child ∧ child.blk.name = childKey env ino.blk name mode := by
  have hout := h.opened i ino hi
  rcases shfsInode_cases hrun with ⟨hm, hn⟩ | ⟨ino1, hi1, hnone, -, hn, hopen⟩ | ⟨ino1, inode, fs',
      pblk, blk, err,
    hi1, -, hzero, hlink, hres⟩
  · dsimp only at hm
    subst hm
    refine ⟨.refl h, fun c hc => ?_⟩
    obtain ⟨ino1, hi1, hfind⟩ := hn c hc
    rw [hi] at hi1
    cases hi1
    obtain ⟨child, hchild, -, hname⟩ := findChild_some hfind
    exact ⟨child, hchild, hname⟩
  · rw [hi] at hi1
    cases hi1
    dsimp only at hn hopen
    subst hn
    rcases hopen with ⟨blk, hfind, hm⟩ | ⟨inode, fs', pblk, blk, -, hzero, hname, -, hlink, hm⟩
    · subst hm
      obtain ⟨hblk, hname⟩ := h.kept.linkFindLoop hfpos hfind
      refine ⟨h.concat hblk, fun c hc => ?_⟩
      cases hc
      exact ⟨_, List.getElem?_concat_length, hname⟩
    · subst hm
      obtain ⟨hkept, hpblk, hpf, hblk⟩ := h.kept.linkNew hout hfpos hzero hlink
      obtain ⟨hb, hbf, hbname⟩ := hblk rfl
      have hput : D.Step m (m.put i ino (fs', pblk, .ok ())) := h.put hi hkept hpblk fun _ => hpf
      refine ⟨hput.trans (hput.holds.concat ⟨hb.pos, hb.npos, .inl hbf⟩), fun c hc => ?_⟩
      cases hc
      refine ⟨
        { blk := { blk with owner := a.owner, attr := a.attr, salt := a.salt }
          parent := some i },
        ?_, hbname.trans hname⟩
      show ((m.inos.set i _) ++ [_])[m.inos.length]? = _
      rw [List.getElem?_append_right (by rw [List.length_set]), List.length_set, Nat.sub_self]
      rfl
  · rw [hi] at hi1
    cases hi1
    cases hres
    obtain ⟨hkept, hpblk, hpf, -⟩ := h.kept.linkNew hout hfpos hzero hlink
    exact ⟨h.put hi hkept hpblk fun _ => hpf, fun c hc => nomatch hc⟩

/-! ## Listing -/

variable {σ : Type} {fspec : Bytes → Bool} {cb : Option (ListCb σ)}

/-- Another chain is listed. -/
theorem DataChain.Holds.listLoop :
    ∀ {fuel : Nat} {m : Mount} {ino : Ino} {arg arg' : σ} {idx : Idx} {tot : Nat}
    {r : Except Sherr Nat}, D.Holds m → m.inos[i]? = some ino → ino.blk.fpos ∉ D.blocks →
    idx ∉ D.blocks →
    Fs.listLoop env acc fspec cb i fuel m arg idx tot = some (m', arg', r) → D.Step m m' := by
  intro fuel
  induction fuel with
  | zero =>
    intro m ino arg arg' idx tot r _ _ _ _ hrun
    cases hrun
  | succ fuel ih =>
    intro m ino arg arg' idx tot r h hi hfpos hidx hrun
    unfold Fs.listLoop at hrun
    split at hrun
    · cases hrun
      exact .refl h
    split at hrun
    · cases hrun
      exact .refl h
    next blk hread =>
    have hnpos := (h.kept.readBlock hidx hread).npos
    split at hrun
    · cases hrun
      exact .refl h
    split at hrun
    · split at hrun
      · exact ih h hi hfpos hnpos hrun
      split at hrun
      · cases hrun
      split at hrun
      · cases hrun
      next m1 n hinode =>
      -- the entry has been opened, or an inode made in its place
      obtain ⟨hstep, -⟩ := h.inode hi hfpos hinode
      split at hrun
      · cases hrun
      · cases hrun
        exact hstep
      · obtain ⟨ino1, hi1, hf1⟩ := hstep.others i ino hi hfpos
        exact hstep.trans (ih hstep.holds hi1 hf1 hnpos hrun)
    · exact ih h hi hfpos hnpos hrun

/-- The chain itself has nothing to list. -/
theorem DataChain.Holds.listLoop_bare (h : D.Holds m) : ∀ {T : List Idx} {fuel : Nat} {arg arg' : σ}
    {idx : Idx} {tot : Nat} {r : Except Sherr Nat}, Chain (nextOf D.fs) idx.ref T →
    (∀ p ∈ T, p ∈ D.chain) → Fs.listLoop env acc fspec cb i fuel m arg idx tot =
    some (m', arg', r) →
    m' = m ∧ r = .ok tot := by
  intro T
  induction T with
  | nil =>
    intro fuel arg arg' idx tot r hchain _ hrun
    have hidx : idx.ino = 0 := by
      by_contra hne
      rw [Idx.ref_of_ne hne] at hchain
      cases hchain
    obtain _ | fuel := fuel
    · cases hrun
    rw [Fs.listLoop, if_pos hidx] at hrun
    cases hrun
    exact ⟨rfl, rfl⟩
  | cons p T ih =>
    intro fuel arg arg' idx tot r hchain hmem hrun
    have hnodup := hchain.nodup
    obtain ⟨hs, htail⟩ := hchain
    obtain ⟨rfl, hne⟩ := Idx.ref_eq_some hs
    have hp := hmem p List.mem_cons_self
    have hmap : m.fs.inMap p :=
      ⟨(D.mapped p hp).1, Nat.lt_of_lt_of_le (D.mapped p hp).2 (h.kept.size_le _)⟩
    have hblock := h.kept.same p (D.mem p hp)
    have hself : (m.fs.block p).npos ≠ p := by
      rw [hblock]
      intro heq
      rw [nextOf, heq, Idx.ref_of_ne hne] at htail
      exact (List.nodup_cons.mp hnodup).1 htail.head_mem
    have hbare : ¬ ((m.fs.block p).type ≠ .null ∧ (m.fs.block p).format ≠ .null ∧
        fspec (rawText (m.fs.block p).raw) = true) := fun hlisted =>
          hlisted.2.1 (by rw [hblock, D.bare p hp])
    obtain _ | fuel := fuel
    · cases hrun
    simp only [Fs.listLoop, if_neg hne, shfsInodeReadBlock_ok hmap, if_neg hself,
      if_neg hbare] at hrun
    refine ih ?_ (fun q hq => hmem q (List.mem_cons_of_mem _ hq)) hrun
    rw [hblock]
    exact htail

/-- A listing is a step; that of the binary inode has no entries. -/
theorem DataChain.Holds.listCb {arg arg' : σ} {r : Except Sherr Nat} (h : D.Holds m)
    (hi : m.inos[i]? = some ino)
    (hrun : shfsListCb env acc fuel m i fspec cb arg = some (m', arg', r)) :
    D.Step m m' ∧ (ino.blk.fpos ∈ D.blocks → m' = m ∧ r = .ok 0) := by
  simp only [shfsListCb, hi] at hrun
  by_cases hfpos : ino.blk.fpos ∈ D.blocks
  · obtain ⟨hcont, -, hchain⟩ := (h.opened i ino hi).fpos.resolve_left fun hnot => hnot hfpos
    rw [if_pos hcont] at hrun
    obtain ⟨hm, hr⟩ := h.listLoop_bare hchain (fun p hp => hp) hrun
    refine ⟨?_, fun _ => ⟨hm, hr⟩⟩
    rw [hm]
    exact .refl h
  · refine ⟨?_, fun hin => absurd hin hfpos⟩
    split at hrun
    · exact h.listLoop hi hfpos hfpos hrun
    · cases hrun
      exact .refl h

/-- The list of a directory is a step; that of the binary inode is empty. -/
theorem DataChain.Holds.list {r : Except Sherr (Nat × List Dirent)} (h : D.Holds m)
    (hi : m.inos[i]? = some ino) (hrun : shfsList env acc fuel m i = some (m', r)) :
    D.Step m m' ∧ (ino.blk.fpos ∈ D.blocks → m' = m ∧ ∃ ents, r = .ok (0, ents)) := by
  unfold shfsList at hrun
  split at hrun
  · cases hrun
  · next m1 u err hcount =>
    cases hrun
    obtain ⟨hstep, hbare⟩ := h.listCb hi hcount
    exact ⟨hstep, fun hin => nomatch (hbare hin).2⟩
  next m1 u count hcount =>
  obtain ⟨hstep, hbare⟩ := h.listCb hi hcount
  by_cases hfpos : ino.blk.fpos ∈ D.blocks
  · obtain ⟨rfl, -⟩ := hbare hfpos
    split at hrun
    · cases hrun
    · next m2 ents err hlist =>
      cases hrun
      exact nomatch ((h.listCb hi hlist).2 hfpos).2
    · next m2 ents tot hlist =>
      cases hrun
      obtain ⟨hstep2, hbare2⟩ := h.listCb hi hlist
      refine ⟨hstep2, fun _ => ⟨(hbare2 hfpos).1, ents, ?_⟩⟩
      cases (hbare2 hfpos).2
      rfl
  · obtain ⟨ino1, hi1, -⟩ := hstep.others i ino hi hfpos
    refine ⟨hstep.trans ?_, fun hin => absurd hin hfpos⟩
    split at hrun
    · cases hrun
    · next hlist =>
      cases hrun
      exact (hstep.holds.listCb hi1 hlist).1
    · next hlist =>
      cases hrun
      exact (hstep.holds.listCb hi1 hlist).1

/-! ## Removal -/

/-- A type without children has no key that is the one of the chain's inode. -/
def DataChain.Unmistaken (D : DataChain) (env : Env) : Prop :=
  ∀ (name : ShKey) (salt : UInt16) (mode : Shinode), mode.isContainer = false →
    env.token name salt mode [] ≠ D.key

/-- An inode is cleared as a step, unless it is the binary inode. -/
theorem DataChain.Holds.clear {c : Option Nat} {r : Except Sherr Unit} (h : D.Holds m)
    (hc : ∀ n child, c = some n → m.inos[n]? = some child → child.blk.fpos ∉ D.blocks)
    (hrun : m.clear env fuel c = some (m', r)) : D.Step m m' := by
  obtain _ | n := c
  · cases hrun
    exact .refl h
  rw [Mount.clear] at hrun
  split at hrun
  · cases hrun
    exact .refl h
  next child hn =>
  obtain ⟨⟨fs', blk', r'⟩, hclear, heq⟩ := Option.map_eq_some_iff.mp hrun
  cases heq
  obtain ⟨hkept, hout, hf⟩ := h.kept.inodeClear (h.opened n child hn) (hc n child rfl hn) hclear
  exact h.put hn hkept hout fun _ => hf

/-- The entries of a list are removed one after the other, by induction on the list. -/
theorem DataChain.Holds.removeEnts {f : Nat}
    {remove : Mount → Nat → Option (Mount × Except Sherr Unit)}
    (hkey : D.Unmistaken env)
    (ih : ∀ {m m' : Mount} {c : Nat} {r : Except Sherr Unit}, D.Holds m →
      remove m c = some (m', r) →
      D.Step m m') : ∀ {ents : List Dirent} {m : Mount} {file : Ino} {r :
        Except Sherr Unit}, D.Holds m →
    m.inos[f]? = some file → file.blk.fpos ∉ D.blocks →
    Fs.removeEnts env acc fuel f remove ents m = some (m', r) → D.Step m m' := by
  intro ents
  induction ents with
  | nil =>
    intro m file r h _ _ hrun
    cases hrun
    exact .refl h
  | cons ent ents ihents =>
    intro m file r h hf hfpos hrun
    unfold Fs.removeEnts at hrun
    split at hrun
    · split at hrun
      · cases hrun
      · cases hrun
      next m1 c hinode =>
      obtain ⟨hstep, -⟩ := h.inode hf hfpos hinode
      split at hrun
      · cases hrun
      · next hremove =>
        cases hrun
        exact hstep.trans (ih hstep.holds hremove)
      · next m2 u hremove =>
        have hstep2 := hstep.trans (ih hstep.holds hremove)
        obtain ⟨file2, hf2, hfpos2⟩ := hstep2.others f file hf hfpos
        exact hstep2.trans (ihents hstep2.holds hf2 hfpos2 hrun)
    · next htype =>
      split at hrun
      · cases hrun
      next m1 c hinode =>
      obtain ⟨hstep, hname⟩ := h.inode hf hfpos hinode
      -- the child that is cleared has a key of its type
      have hother : ∀ n child, c = some n → m1.inos[n]? = some child →
          child.blk.fpos ∉ D.blocks := by
        intro n child hn hchild
        obtain ⟨child', hchild', hkey'⟩ := hname n hn
        rw [hchild] at hchild'
        cases hchild'
        refine (hstep.holds.opened n child hchild).fpos.resolve_right fun hin => ?_
        have hnull : ent.type ≠ .null := fun hnull => htype (by rw [hnull]; rfl)
        refine hkey file.blk.name file.blk.salt ent.type (by simpa using htype) ?_
        rw [← hin.2.1, hkey', childKey]
        simp only [inodePath, List.take_nil, List.getLast?_nil, reduceCtorEq, if_false,
          if_neg hnull]
      split at hrun
      · cases hrun
      next m2 u hclear =>
      have hstep2 := hstep.trans (hstep.holds.clear hother hclear)
      obtain ⟨file2, hf2, hfpos2⟩ := hstep2.others f file hf hfpos
      exact hstep2.trans (ihents hstep2.holds hf2 hfpos2 hrun)

/-- The removal of a child of a given type is a step. -/
theorem DataChain.Holds.removeChild {f : Nat} {file : Ino} {type : Shinode} {r : Except Sherr Unit}
    {remove : Mount → Nat → Option (Mount × Except Sherr Unit)}
    (ih : ∀ {m m' : Mount} {c : Nat} {r : Except Sherr Unit}, D.Holds m →
      remove m c = some (m', r) →
      D.Step m m') (h : D.Holds m) (hf : m.inos[f]? = some file) (hfpos : file.blk.fpos ∉ D.blocks)
    (hrun : Fs.removeChild env acc fuel f type remove m = some (m', r)) : D.Step m m' := by
  unfold Fs.removeChild at hrun
  split at hrun
  · cases hrun
  · cases hrun
  next m1 c hinode =>
  obtain ⟨hstep, -⟩ := h.inode hf hfpos hinode
  split at hrun
  · cases hrun
  next child hchild =>
  split at hrun
  · exact hstep.trans (ih hstep.holds hrun)
  · next htype =>
    -- the chain belongs to an inode with children
    refine hstep.trans (hstep.holds.clear (fun n child' hn hchild' => ?_) hrun)
    cases hn
    rw [hchild] at hchild'
    cases hchild'
    exact (hstep.holds.opened c child hchild).fpos.resolve_right fun hin => htype hin.1

/-- What a removal does for the format of the file is a step. -/
theorem DataChain.Holds.removeFormat {f : Nat} {file : Ino} {blk : Block} {r : Except Sherr Unit}
    {remove : Mount → Nat → Option (Mount × Except Sherr Unit)}
    (ih : ∀ {m m' : Mount} {c : Nat} {r : Except Sherr Unit}, D.Holds m →
      remove m c = some (m', r) →
      D.Step m m') (h : D.Holds m) (hf : m.inos[f]? = some file) (hfpos : file.blk.fpos ∉ D.blocks)
    (hrun : Fs.removeFormat env acc fuel f blk remove m = some (m', r)) : D.Step m m' := by
  unfold Fs.removeFormat at hrun
  dsimp only at hrun
  -- the version repository
  generalize hrest : (ite (blk.attr &&& shattrVer ≠ 0) _ _) = rest at hrun
  have hrepository : ∀ {m1 : Mount} {r1 : Except Sherr Unit}, rest = some (m1, r1) →
      D.Step m m1 := by
    intro m1 r1 hrep
    rw [← hrest] at hrep
    split at hrep
    · split at hrep
      · cases hrep
      · cases hrep
      · next m2 c hinode =>
        obtain ⟨hstep, -⟩ := h.inode hf hfpos hinode
        exact hstep.trans (ih hstep.holds hrep)
    · cases hrep
      exact .refl h
  split at hrun
  · cases hrun
  · cases hrun
    exact hrepository rfl
  next m1 u =>
  have hstep := hrepository rfl
  obtain ⟨file1, hf1, hfpos1⟩ := hstep.others f file hf hfpos
  simp only [hf1] at hrun
  generalize (if file1.blk.format = .null ∧
    file1.blk.type = .binary then .aux else file1.blk.format) = fmt at hrun
  split at hrun
  · exact hstep.trans (hstep.holds.removeChild ih hf1 hfpos1 hrun)
  · cases hrun
    exact hstep

/-- An open inode is written to its block as a step. -/
theorem DataChain.Holds.entity {r : Except Sherr Unit} (h : D.Holds m)
    (hrun : shfsInodeWriteEntity env m i = (m', r)) : D.Step m m' := by
  unfold shfsInodeWriteEntity at hrun
  split at hrun
  · cases hrun
    exact .refl h
  · next ino hi =>
    rcases hwrite : shfsInodeWriteBlock env m.fs ino.blk with ⟨fs', blk', r'⟩
    simp only [hwrite, Prod.mk.injEq] at hrun
    obtain ⟨rfl, -⟩ := hrun
    obtain ⟨hkept, hout, hf, -⟩ := h.kept.writeBlock hwrite (h.opened i ino hi)
    exact h.put hi hkept hout fun hnot => hf ▸ hnot

/-- The inode of a removed file is written. -/
theorem DataChain.Holds.reset {f : Nat} {file : Ino} {r : Except Sherr Unit} (h : D.Holds m)
    (hf : m.inos[f]? = some file)
    (hrun : shfsInodeWriteEntity env (m.setBlk f file (removedInode file.blk)) f = (m', r)) :
    D.Step m m' := by
  have hout := h.opened f file hf
  have hset : D.Step m (m.setBlk f file (removedInode file.blk)) :=
    h.put (r := .ok ()) hf h.kept ⟨hout.pos, hout.npos, hout.fpos⟩ fun hnot => hnot
  exact hset.trans (hset.holds.entity hrun)

/-- A removal leaves the chain alone. -/
theorem DataChain.Holds.fileRemove (hkey : D.Unmistaken env) :
    ∀ {fuel : Nat} {m m' : Mount} {f : Nat}
    {r : Except Sherr Unit}, D.Holds m → shfsFileRemove env acc fuel m f = some (m', r) →
    D.Step m m' := by
  intro fuel
  induction fuel with
  | zero =>
    intro m m' f r _ hrun
    cases hrun
  | succ fuel ih =>
    intro m m' f r h hrun
    unfold shfsFileRemove at hrun
    split at hrun
    · cases hrun
    next file hf =>
    dsimp only at hrun
    -- what is below the file
    generalize hrest : (ite (file.blk.type.isContainer = true) _ _) = rest at hrun
    have hbelow : ∀ {m1 : Mount} {r1 : Except Sherr Unit}, rest = some (m1, r1) → D.Step m m1 := by
      intro m1 r1 hrem
      rw [← hrest] at hrem
      split at hrem
      · split at hrem
        · cases hrem
        · next m2 err hlist =>
          obtain ⟨hstep, hbare⟩ := h.list hf hlist
          have hfpos : file.blk.fpos ∉ D.blocks := by
            intro hin
            obtain ⟨-, ents, heq⟩ := hbare hin
            cases heq
          obtain ⟨file2, hf2, hfpos2⟩ := hstep.others f file hf hfpos
          exact hstep.trans (hstep.holds.removeFormat ih hf2 hfpos2 hrem)
        · next m2 tot ents hlist =>
          obtain ⟨hstep, hbare⟩ := h.list hf hlist
          split at hrem
          · by_cases hfpos : file.blk.fpos ∈ D.blocks
            · -- the file is the inode of the chain
              obtain ⟨rfl, ents', heq⟩ := hbare hfpos
              cases heq
              rw [List.take_zero] at hrem
              cases hrem
              exact .refl h
            · obtain ⟨file2, hf2, hfpos2⟩ := hstep.others f file hf hfpos
              exact hstep.trans (hstep.holds.removeEnts hkey ih hf2 hfpos2 hrem)
          · cases hrem
      · cases hrem
        exact .refl h
    split at hrun
    · cases hrun
    · cases hrun
      exact hbelow rfl
    next m1 u =>
    have hstep := hbelow rfl
    split at hrun
    · cases hrun
    next file1 hf1 =>
    split at hrun
    · cases hrun
      exact hstep
    · simp only [Option.some.injEq] at hrun
      exact hstep.trans (hstep.holds.reset hf1 hrun)

/-! ## Files with content -/

/-- A file whose content `shfs_write` has stored in the binary format: its binary inode is open,
with nothing open below it, and the blocks of the chain are data blocks. -/
structure BinaryContent (env : Env) (m : Mount) (f b : Nat) (file bin : Ino)
    (L : List Idx) : Prop where
  opened : BinOpen env m f b file bin
  type_eq : bin.blk.type = .binary
  chain : Chain (nextOf m.fs) bin.blk.fpos.ref L
  data : ∀ p ∈ L, (m.fs.block p).type = .aux ∧ (m.fs.block p).format = .null
  below : ∀ (i : Nat) (ino : Ino), m.inos[i]? = some ino → ino.parent ≠ some b

/-- Free slots are zeroed. -/
def Shfs.Zeroed (fs : Shfs) : Prop := ∀ p, ¬ fs.live p → fs.block p = Block.zero

section Content

variable {own : Idx → Idx} {f b : Nat} {file bin : Ino} {L : List Idx}

/-- The chain of a binary inode, among the blocks that the inode owns. -/
def BinaryContent.dataChain (h : BinaryContent env m f b file bin L) (hm : Mounted m own) :
    DataChain where
  fs := m.fs
  blocks := { p | m.fs.live p ∧ own p = bin.blk.pos }
  chain := L
  key := bin.blk.name
  live := fun _ hp => hp.1
  zero := fun hzero => (hm.sound.cell _ hzero.1).2.1 rfl
  mem := by
    obtain ⟨L', hL', hall, -, hown⟩ := hm.chain h.opened.bin_eq
    cases h.chain.unique hL'
    exact fun p hp => ⟨(hall p hp).1, hown p hp⟩
  bare := fun p hp => (h.data p hp).2
  mapped := by
    obtain ⟨L', hL', hall, -⟩ := hm.chain h.opened.bin_eq
    cases h.chain.unique hL'
    exact fun p hp => (hall p hp).2.1

/-- A block that another one refers to, in a sound store. -/
theorem Mounted.outside (hm : Mounted m own) (h : BinaryContent env m f b file bin L) {p : Idx}
    (hp : m.fs.live p) (hpos : p ∉ (h.dataChain hm).blocks) :
    (h.dataChain hm).Outside (m.fs.block p) := by
  have hheld := hm.held b bin h.opened.bin_eq
  obtain ⟨hcell, hino, -⟩ := hm.sound.cell p hp
  refine ⟨by rw [hcell]; exact hpos, fun hnext => ?_, ?_⟩
  · have hne := (hm.sound.cell _ hnext.1).2.1
    have hown := (hm.sound.links.next_mem p _ hp (Idx.ref_of_ne hne)).2
    exact hpos ⟨hp, by rw [← hown]; exact hnext.2⟩
  · by_cases hfirst : (m.fs.block p).fpos ∈ (h.dataChain hm).blocks
    · right
      have hne := (hm.sound.cell _ hfirst.1).2.1
      have hown := (hm.sound.links.first_mem p _ hp (Idx.ref_of_ne hne)).2
      have heq : p = bin.blk.pos := by
        rw [← hown]
        exact hfirst.2
      subst heq
      refine ⟨?_, hheld.name_eq, ?_⟩
      · rw [hheld.type_eq, h.type_eq]
        rfl
      · rw [hheld.fpos_eq]
        exact h.chain
    · exact .inl hfirst

/-- No open inode belongs to the chain's blocks. -/
theorem Mounted.not_owned (hm : Mounted m own) (h : BinaryContent env m f b file bin L)
    (hi : m.inos[i]? = some ino) : own ino.blk.pos ≠ bin.blk.pos := by
  intro heq
  cases hpar : ino.parent with
  | none =>
    -- the root directory has the supernode above it, the binary inode has the file
    have hroot := (hm.root i ino hi hpar).2
    rw [heq, h.opened.own_eq hm] at hroot
    exact (hm.sound.cell _ (hm.held f file h.opened.file_eq).live).2.1 (by rw [hroot]; rfl)
  | some j =>
    obtain ⟨-, pino, hj, hown⟩ := hm.parent i j ino hi hpar
    obtain rfl := hm.apart j b pino bin hj h.opened.bin_eq (by rw [← hown, heq])
    exact h.below i ino hi hpar

/-- The content of a binary file is a chain that holds at first. -/
theorem Mounted.holds (hm : Mounted m own) (hzero : m.fs.Zeroed)
    (h : BinaryContent env m f b file bin L) :
    (h.dataChain hm).Holds m := by
  have hstored : ∀ p, p ∉ (h.dataChain hm).blocks → (h.dataChain hm).Outside (m.fs.block p) := by
    intro p hpos
    by_cases hp : m.fs.live p
    · exact hm.outside h hp hpos
    · rw [hzero p hp]
      exact .zero _
  refine ⟨⟨fun _ _ => rfl, fun _ => Nat.le_refl _, hstored⟩, fun i ino hi => ?_⟩
  have hheld := hm.held i ino hi
  have hpos : ino.blk.pos ∉ (h.dataChain hm).blocks := fun hin => hm.not_owned h hi hin.2
  obtain ⟨-, hnpos, hfpos⟩ := hm.outside h hheld.live hpos
  rw [hheld.type_eq, hheld.name_eq, hheld.fpos_eq] at hfpos
  refine ⟨hpos, ?_, hfpos⟩
  rcases hheld.npos_eq with heq | hz
  · rw [heq]
    exact hnpos
  · exact fun hin => (hm.sound.cell _ hin.1).2.1 hz

/-- In every sound mount, for every file whose content is stored in the binary format: whatever the
removal of the file does and returns, every block of the content is what it was. -/
theorem BinaryContent.fileRemove {r : Except Sherr Unit} (h : BinaryContent env m f b file bin L)
    (hm : Mounted m own) (hzero : m.fs.Zeroed)
    (hkey : ∀ (name : ShKey) (salt : UInt16) (mode : Shinode), mode.isContainer = false →
      env.token name salt mode [] ≠ bin.blk.name)
    (hrun : shfsFileRemove env acc fuel m f = some (m', r)) :
    ∀ p ∈ L, m'.fs.live p ∧ m'.fs.block p = m.fs.block p := by
  have hstep := DataChain.Holds.fileRemove (D := h.dataChain hm) hkey (hm.holds hzero h) hrun
  intro p hp
  have hmem := (h.dataChain hm).mem p hp
  have hsame := hstep.holds.kept.same p hmem
  refine ⟨?_, hsame⟩
  rw [Shfs.live, hsame]
  exact hmem.1

end Content

/-! ## Writing -/

/-- A block as `shfs_aux_pwrite` makes it. -/
def Block.IsData (blk : Block) : Prop := blk.type = .aux ∧ blk.format = .null

/-- Data blocks that lie where their headers say, one behind the other. -/
structure Ahead (fs : Shfs) (blk : Block) (T : List Idx) : Prop where
  chain : Chain (nextOf fs) blk.npos.ref T
  data : ∀ p ∈ T, (fs.block p).IsData ∧ (fs.block p).pos = p
  not_mem : blk.pos ∉ T

/-- The block that a write goes on to, if any. -/
theorem auxNext_data {fs1 : Shfs} {blk1 nblk : Block} {rest : Bytes} {T : List Idx}
    (h : Ahead fs blk T)
    (hrun : auxNext env fs blk rest = .ok (fs1, blk1, nblk)) :
    fs1.block = fs.block ∧ (∃ npos, blk1 = { blk with npos := npos }) ∧
      (nblk.IsData ∨ nblk.pos.ino = 0) ∧ ∃ T', Ahead fs1 nblk T' ∧ ∀ p ∈ T', p ∈ T := by
  unfold auxNext at hrun
  split at hrun
  · split at hrun
    · -- a new block, with nothing behind it
      unfold shfsAuxPwriteCreate at hrun
      split at hrun
      · cases hrun
      next fs0 idx hscan =>
      obtain ⟨-, -, hfs, -⟩ := shfsJournalScan_ok hscan
      cases hrun
      refine ⟨?_, ⟨idx, rfl⟩, .inl ⟨rfl, rfl⟩, [], ⟨rfl, ?_, List.not_mem_nil⟩, ?_⟩
      · show fs0.block = fs.block
        rw [hfs]
      · exact fun p hp => nomatch hp
      · exact fun p hp => nomatch hp
    · cases hrun
      exact ⟨rfl, ⟨blk.npos, rfl⟩, .inr rfl, [], ⟨rfl, (fun p hp => nomatch hp), List.not_mem_nil⟩,
        fun p hp => nomatch hp⟩
  · next hne =>
    split at hrun
    · cases hrun
    next nblk' hread =>
    cases hrun
    obtain ⟨hchain, hdata, -⟩ := h
    rw [Idx.ref_of_ne hne] at hchain
    obtain _ | ⟨p, T⟩ := T
    · cases hchain
    have hnodup := List.nodup_cons.mp hchain.nodup
    obtain ⟨hp, htail⟩ := hchain
    cases hp
    unfold shfsInodeReadBlock at hread
    split at hread
    · cases hread
      obtain ⟨hisdata, hpos⟩ := hdata _ List.mem_cons_self
      refine ⟨rfl, ⟨blk.npos, rfl⟩, .inl hisdata, T, ⟨htail, ?_, ?_⟩, fun q hq =>
        List.mem_cons_of_mem _ hq⟩
      · exact fun q hq => hdata q (List.mem_cons_of_mem _ hq)
      · rw [hpos]
        exact hnodup.1
    · cases hread

/-- A block of data that is stored changes its own block only, and to a block of data. -/
theorem auxStore_data {oblk : Block} {r : Except Sherr Unit} (hblk : blk.IsData)
    (hrun : auxStore env fs oblk blk = (fs', r)) :
    (∀ p, p ≠ blk.pos → fs'.block p = fs.block p) ∧
      (fs'.block blk.pos = fs.block blk.pos ∨ (fs'.block blk.pos).IsData) := by
  unfold auxStore at hrun
  split at hrun
  · cases hrun
    exact ⟨fun _ _ => rfl, .inl rfl⟩
  · rcases hwrite : shfsInodeWriteBlock env fs blk with ⟨fs1, blk1, r1⟩
    rw [hwrite] at hrun
    cases hrun
    unfold shfsInodeWriteBlock at hwrite
    split at hwrite
    · cases hwrite
      refine ⟨fun p hp => Shfs.store_ne _ _ hp, .inr ?_⟩
      have hself :=
        Shfs.store_self { fs with writes := fs.writes + 1 }
          { blk with mtime := env.clock fs.writes }
      rw [show blk.pos = ({ blk with mtime := env.clock fs.writes } : Block).pos from rfl, hself]
      exact hblk
    · cases hwrite
      exact ⟨fun _ _ => rfl, .inl rfl⟩

/-- What is copied into a block, and its header. -/
theorem pwriteBlock_data {chunk : Bytes} {wof wof' seekOf : Nat}
    (hrun : shfsAuxPwriteBlock blk chunk wof seekOf = (blk', wof')) (hblk : blk.IsData) :
    (auxSeal blk' chunk.length).IsData ∧ (auxSeal blk' chunk.length).pos = blk.pos := by
  unfold shfsAuxPwriteBlock at hrun
  split at hrun <;> cases hrun <;> exact ⟨hblk, rfl⟩

/-- The loop of a write stores data blocks only, if the chain that it goes along has no other. -/
theorem auxPwriteLoop_data {seekOf : Nat} :
    ∀ {fuel : Nat} {fs fs' : Shfs} {blk oblk : Block} {data : Bytes}
    {wof : Nat} {crc : UInt64} {T : List Idx} {r : Except Sherr UInt64}, blk.IsData ∨
    blk.pos.ino = 0 →
    Ahead fs blk T → shfsAuxPwriteLoop env seekOf fuel fs blk oblk data wof crc = some (fs', r) →
    ∀ p, fs'.block p = fs.block p ∨ (fs'.block p).IsData := by
  intro fuel
  induction fuel with
  | zero =>
    intro fs fs' blk oblk data wof crc T r _ _ hrun
    cases hrun
  | succ fuel ih =>
    intro fs fs' blk oblk data wof crc T r hblk hahead hrun p
    unfold shfsAuxPwriteLoop at hrun
    split at hrun
    · cases hrun
      exact .inl rfl
    next hpos =>
    dsimp only at hrun
    split at hrun
    · cases hrun
      exact .inl rfl
    next fs1 blk1 nblk hnext =>
    obtain ⟨hsame, ⟨npos, rfl⟩, hnblk, T', hahead', hsub⟩ := auxNext_data hahead hnext
    rcases hpart : shfsAuxPwriteBlock { blk with npos := npos } (data.take blockDataSize) wof seekOf
        with ⟨blk2, wof2⟩
    simp only [hpart] at hrun
    obtain ⟨hdata2, hpos2⟩ := pwriteBlock_data hpart (hblk.resolve_right hpos)
    rcases hstore : auxStore env fs1 oblk (auxSeal blk2 (data.take blockDataSize).length)
        with ⟨fs2, r2⟩
    obtain ⟨hframe, hself⟩ := auxStore_data hdata2 hstore
    rw [hpos2] at hframe hself
    -- what the store holds after this block
    have hone : fs2.block p = fs.block p ∨ (fs2.block p).IsData := by
      rw [← hsame]
      by_cases hp : p = blk.pos
      · rw [hp]
        exact hself
      · exact .inl (hframe p hp)
    rw [hstore] at hrun
    split at hrun
    · next heq =>
      cases heq
      cases hrun
      exact hone
    next fs2' u heq =>
    cases heq
    have hback : ∀ q ∈ T', fs2.block q = fs1.block q :=
      fun q hq => hframe q fun heq => hahead.not_mem (heq ▸ hsub q hq)
    have hahead2 : Ahead fs2 nblk T' := by
      refine ⟨hahead'.chain.congr fun q hq => ?_, fun q hq => ?_, hahead'.not_mem⟩
      · rw [nextOf, nextOf, hback q hq]
      · rw [hback q hq]
        exact hahead'.data q hq
    rcases ih hnblk hahead2 hrun p with heq | hdata
    · rw [heq]
      exact hone
    · exact .inr hdata

/-- A write to a content changes its own inode and blocks of data only. -/
theorem auxWrite_data {data : Bytes} {L : List Idx} {r : Except Sherr Unit}
    (hchain : Chain (nextOf fs) blk.fpos.ref L)
    (hdata : ∀ p ∈ L, (fs.block p).IsData ∧ (fs.block p).pos = p)
    (hrun : shfsAuxWrite env fuel fs blk data = some (fs', blk', r)) :
    ∀ p, p ≠ blk.pos → fs'.block p = fs.block p ∨ (fs'.block p).IsData := by
  unfold shfsAuxWrite shfsAuxPwrite at hrun
  split at hrun
  · cases hrun
    exact fun _ _ => .inl rfl
  next fs1 inode blk1 oblk hfirst =>
  -- the loop begins with a new block, or with the first one of the chain
  have hbegin : fs1.block = fs.block ∧ inode.pos = blk.pos ∧ blk1.IsData ∧
      ∃ T, Ahead fs1 blk1 T := by
    unfold auxFirst at hfirst
    split at hfirst
    · split at hfirst
      · cases hfirst
      next fs0 idx hscan =>
      obtain ⟨-, -, hfs, -⟩ := shfsJournalScan_ok hscan
      cases hfirst
      refine ⟨?_, rfl, ⟨rfl, rfl⟩, [], rfl, (fun p hp => nomatch hp), List.not_mem_nil⟩
      show fs0.block = fs.block
      rw [hfs]
    · next hne =>
      split at hfirst
      · cases hfirst
      next b hread =>
      cases hfirst
      rw [Idx.ref_of_ne hne] at hchain
      obtain _ | ⟨p, T⟩ := L
      · cases hchain
      have hnodup := List.nodup_cons.mp hchain.nodup
      obtain ⟨hp, htail⟩ := hchain
      cases hp
      unfold shfsInodeReadBlock at hread
      split at hread
      · cases hread
        obtain ⟨hisdata, hpos⟩ := hdata _ List.mem_cons_self
        refine ⟨rfl, rfl, hisdata, T, htail, fun q hq => hdata q (List.mem_cons_of_mem _ hq), ?_⟩
        rw [hpos]
        exact hnodup.1
      · cases hread
  obtain ⟨hsame, hpos, hblk1, T, hahead⟩ := hbegin
  intro p hp
  split at hrun
  · cases hrun
  · next hloop =>
    cases hrun
    rw [← hsame]
    exact auxPwriteLoop_data (.inl hblk1) hahead hloop p
  · next fs2 crc hloop =>
    simp only [Option.some.injEq] at hrun
    have hback : fs'.block p = fs2.block p := by
      unfold shfsInodeWriteBlock at hrun
      split at hrun
      · cases hrun
        exact Shfs.store_ne _ _ (by rw [← hpos] at hp; exact hp)
      · cases hrun
        rfl
    rw [hback, ← hsame]
    exact auxPwriteLoop_data (.inl hblk1) hahead hloop p

/-- A write to a file with content, or without: the content has a block, and all of its blocks are
data blocks. -/
theorem BinaryContent.write {other : Formats} {own : Idx → Idx} {f b : Nat} {file bin : Ino}
    {L : List Idx}
    {data : Bytes} {a : Access} (h : BinaryContent env m f b file bin L) (hm : Mounted m own)
    (hplain : file.blk.Plain) (hrun : shfsWrite env other fuel m f data a = some (m', .ok ())) :
    ∃ file' bin' L', BinaryContent env m' f b file' bin' L' ∧ L' ≠ [] := by
  have hopen := h.opened
  have hne := hopen.ne hm
  have hheld := hm.held b bin hopen.bin_eq
  obtain ⟨L₀, hL₀, hall, hnot, hown⟩ := hm.chain hopen.bin_eq
  cases h.chain.unique hL₀
  obtain ⟨-, -, hmap⟩ := hm.sound.cell _ hheld.live
  obtain ⟨fs1, blk1, mtime, writes, hwrite, hm'⟩ := shfsWrite_inv hopen hne hplain hrun
  generalize hblk2 : ({ copyStats file.blk blk1 with format := .binary, mtime := mtime } : Block) =
    blk2 at hm'
  have hpos2 : blk2.pos = file.blk.pos := by rw [← hblk2]; rfl
  have hname2 : blk2.name = file.blk.name := by rw [← hblk2]; rfl
  have hsalt2 : blk2.salt = file.blk.salt := by rw [← hblk2]; rfl
  subst hm'
  have hdata := auxWrite_data h.chain (fun p hp => ⟨h.data p hp, (hall p hp).2.2.1⟩) hwrite
  rcases auxWrite_spec h.chain hall hmap hwrite with ⟨-, ⟨err, hr⟩, -⟩ | ⟨-, -, fs2,
      first, L', hsucc⟩
  · cases hr
  obtain ⟨writes1, hstore⟩ := hsucc.store_eq
  obtain ⟨-, hpos1, htype1, -, hfirst⟩ := hsucc.anchor hheld
  have hname1 : blk1.name = bin.blk.name := by
    obtain ⟨crc, mtime1, rfl⟩ := hsucc.inode_eq
    rfl
  -- neither inode is a block of the content
  have hapart : ∀ q, m.fs.live q → q ∉ L → q ∉ L' := by
    intro q hq hqL hqL'
    rcases hsucc.chain.cells q hqL' with hin | hfree
    · exact hqL hin
    · exact hfree hq
  have hbin : bin.blk.pos ∉ L' := hapart _ hheld.live hnot
  have hfile : file.blk.pos ∉ L' :=
    hapart _ (hm.held f file hopen.file_eq).live fun hin =>
      hm.not_owned h hopen.file_eq (hown _ hin)
  have hfs1 : ∀ p ∈ L', fs1.block p = fs2.block p := by
    intro p hp
    rw [hstore]
    exact Shfs.store_ne _ _ fun heq => hbin (by rw [← hpos1, ← heq]; exact hp)
  have hback : ∀ p ∈ L', (({ fs1 with writes := writes } : Shfs).store blk2).block p =
      fs2.block p := by
    intro p hp
    rw [Shfs.store_ne _ _ fun heq => hfile (by rw [← hpos2, ← heq]; exact hp)]
    exact hfs1 p hp
  have hbinOpen : BinOpen env (m.put b bin (fs1, blk1, .ok ())) f b file { bin with blk := blk1 } :=
    hopen.put_bin hne hname1
  refine ⟨{ file with blk := blk2 }, { bin with blk := blk1 }, L',
    ⟨hbinOpen.put_file hne hname2 hsalt2, by
      rw [htype1, h.type_eq], ?_, fun p hp => ?_, fun i ino hi => ?_⟩,
    fun hnil => ?_⟩
  · show Chain _ blk1.fpos.ref L'
    rw [hfirst]
    refine hsucc.chain.chain.congr fun p hp => ?_
    show (Block.npos _).ref = ((fs2.block p).npos).ref
    rw [← hback p hp]
    rfl
  · show (({ fs1 with writes := writes } : Shfs).store blk2).block p |>.IsData
    rw [hback p hp]
    have hlive := (hsucc.chain.stored p hp).1
    rcases hdata p (fun heq => hbin (heq ▸ hp)) with heq | hisdata
    · rw [hfs1 p hp] at heq
      rcases hsucc.chain.cells p hp with hin | hfree
      · rw [heq]
        exact h.data p hin
      · rw [Shfs.live, heq] at hlive
        exact absurd hlive hfree
    · rw [← hfs1 p hp]
      exact hisdata
  · obtain ⟨ino1, hi1, -, hpar1, -⟩ := Mount.put_get hbinOpen.file_eq hpos2 hi
    obtain ⟨ino0, hi0, -, hpar0, -⟩ := Mount.put_get hopen.bin_eq hpos1 hi1
    rw [hpar1, hpar0]
    exact h.below i ino0 hi0
  · have hmem := hsucc.chain.chain.head_mem
    rw [hnil] at hmem
    cases hmem

/-! ## Free slots -/

/-- A block that is in use may be stored anywhere. -/
theorem Shfs.Zeroed.store (h : fs.Zeroed) (htype : blk.type ≠ .null) : (fs.store blk).Zeroed := by
  intro p hp
  by_cases heq : p = blk.pos
  · rw [heq, Shfs.live, Shfs.store_self] at hp
    exact absurd htype hp
  · rw [Shfs.live, Shfs.store_ne _ _ heq] at hp
    rw [Shfs.store_ne _ _ heq]
    exact h p hp

/-- A chain that has been written to leaves the free blocks zeros. -/
theorem Shfs.Zeroed.rewritten {L L' : List Idx} {s : Option Idx} (h : fs.Zeroed)
    (hw : Rewritten fs fs' L s L') : fs'.Zeroed := by
  intro p hp
  have hnot : p ∉ L' := fun hin => hp (hw.stored p hin).1
  rw [hw.frame p hnot]
  exact h p (by rwa [Shfs.live, hw.frame p hnot] at hp)

section Zeroed

variable {own : Idx → Idx} {f b : Nat} {file bin : Ino} {a : Access} {other : Formats}

theorem Shfs.Zeroed.writes (h : fs.Zeroed) (writes : Nat) :
    Shfs.Zeroed { fs with writes := writes } := h

/-- A new inode leaves the free blocks zeros. -/
theorem Shfs.Zeroed.linkNew {inode pblk blk : Block} {r : Except Sherr Unit} (h : m.fs.Zeroed)
    (hm : Mounted m own) (hi : m.inos[i]? = some ino) (htype : inode.type ≠ .null)
    (hfpos : inode.fpos = Idx.zero)
    (hrun : Fs.linkNew env m.fs ino.blk inode = (fs', pblk, blk, r)) :
    fs'.Zeroed := by
  have hheld := hm.held i ino hi
  obtain ⟨L, hchain, hall, -, -⟩ := hm.chain hi
  obtain ⟨-, -, hmap⟩ := hm.sound.cell _ hheld.live
  rcases linkNew_spec hchain hall hmap htype hfpos hrun with ⟨-, hsame, -⟩ | ⟨-, fs2, hl⟩
  · rw [hsame]
    exact h
  · obtain ⟨mtime, hpblk⟩ := hl.parent_eq
    obtain ⟨writes, hfs'⟩ := hl.store_eq
    have hpar : pblk.type ≠ .null := by
      rw [hpblk]
      show ino.blk.type ≠ .null
      rw [← hheld.type_eq]
      exact hheld.live
    rw [hfs']
    exact ((h.rewritten hl.chain).writes writes).store hpar

/-- A lookup that may make an inode leaves the free blocks zeros. -/
theorem Shfs.Zeroed.inode {name : Bytes} {mode : Shinode} {res : Mount × Option Nat}
    (h : m.fs.Zeroed)
    (hm : Mounted m own) (hrun : shfsInode env fuel m i name mode a = some res) :
    res.1.fs.Zeroed := by
  rcases shfsInode_cases hrun with ⟨hsame, -⟩ | ⟨ino, hi, -, -, -, ⟨blk, -, hres⟩ |
    ⟨inode, fs', pblk, blk, htype, hfpos, -, -, hlink, hres⟩⟩ |
    ⟨ino, inode, fs', pblk, blk, err, hi, htype, hfpos, hlink, hres⟩
  · rw [hsame]
    exact h
  · rw [hres]
    exact h
  · rw [hres]
    exact h.linkNew hm hi htype hfpos hlink
  · rw [hres]
    exact h.linkNew hm hi htype hfpos hlink

/-- A lookup of the binary inode leaves the free blocks zeros. -/
theorem Shfs.Zeroed.shfsBin {res : Option (Nat × Ino)} (h : m.fs.Zeroed) (hm : Mounted m own)
    (hrun : Fs.shfsBin env fuel m f a = some (m', res)) : m'.fs.Zeroed := by
  unfold Fs.shfsBin at hrun
  split at hrun
  · cases hrun
  · next hinode =>
    cases hrun
    exact h.inode hm hinode
  · next hinode =>
    cases hrun
    exact h.inode hm hinode

/-- A write leaves the free blocks zeros. -/
theorem Shfs.Zeroed.auxWrite {data : Bytes} {fs' : Shfs} {blk' : Block} (h : m.fs.Zeroed)
    (hm : Mounted m own)
    (hb : m.inos[b]? = some bin)
    (hrun : shfsAuxWrite env fuel m.fs bin.blk data = some (fs', blk', .ok ())) :
    fs'.Zeroed := by
  have hheld := hm.held b bin hb
  obtain ⟨L, hchain, hall, -, -⟩ := hm.chain hb
  obtain ⟨-, -, hmap⟩ := hm.sound.cell _ hheld.live
  rcases auxWrite_spec hchain hall hmap hrun with ⟨-, ⟨err, hr⟩, -⟩ | ⟨-, -, fs2, first, L', hsucc⟩
  · cases hr
  obtain ⟨writes, hstore⟩ := hsucc.store_eq
  obtain ⟨-, -, htype, -, -⟩ := hsucc.anchor hheld
  rw [hstore]
  refine ((h.rewritten hsucc.chain).writes writes).store ?_
  rw [htype, ← hheld.type_eq]
  exact hheld.live

/-- A block that a truncation has gone over is zeroed, or in use. -/
theorem cutBlocks_zeroed {len : Nat} : ∀ {L : List Idx} {bOf : Nat}, CutBlocks fs fs' len bOf L →
    (∀ p ∈ L, fs.live p) → ∀ p ∈ L, fs'.block p = Block.zero ∨ fs'.live p := by
  intro L
  induction L with
  | nil =>
    intro bOf _ _ p hp
    cases hp
  | cons q L ih =>
    rintro bOf ⟨hq, htail⟩ hlive p hp
    rcases List.mem_cons.mp hp with rfl | hp
    · have hp := hlive p List.mem_cons_self
      split_ifs at hq
      · exact .inl hq
      · obtain ⟨mtime, heq⟩ := hq
        right
        rw [Shfs.live, heq]
        unfold truncateBlock
        split <;> exact hp
      · right
        rw [Shfs.live, hq]
        exact hp
    · exact ih htail (fun r hr => hlive r (List.mem_cons_of_mem _ hr)) p hp

/-- A truncation leaves the free blocks zeros, those that it has freed too. -/
theorem Shfs.Zeroed.inodeTruncate {len : Nat} {fs' : Shfs} {blk' : Block} (h : m.fs.Zeroed)
    (hm : Mounted m own)
    (hb : m.inos[b]? = some bin)
    (hrun : shfsInodeTruncate env fuel m.fs bin.blk len = some (fs', blk', .ok ())) :
    fs'.Zeroed := by
  have hheld := hm.held b bin hb
  obtain ⟨L, hchain, hall, -, -⟩ := hm.chain hb
  obtain ⟨-, -, hmap⟩ := hm.sound.cell _ hheld.live
  rcases inodeTruncate_spec hchain hall hmap hrun with
    ⟨-, hres⟩ | ⟨-, -, hres⟩ | ⟨hbin, hne, fs1, b', writes, mtime, crc, rfl, hres, htr⟩
  · cases hres
  · cases hres
    exact h
  · cases hres
    have htype : bin.blk.type ≠ .null := by
      rw [hbin]
      decide
    refine Shfs.Zeroed.store (Shfs.Zeroed.writes (fun p hp => ?_) writes) htype
    rcases Nat.lt_or_gt_of_ne hne with hgrow | hshrink
    · rw [Shfs.live, htr.same hgrow.le] at hp
      rw [htr.same hgrow.le]
      exact h p hp
    by_cases hin : p ∈ L
    · exact (cutBlocks_zeroed (htr.cut hshrink) (fun q hq => (hall q hq).1) p hin).resolve_right hp
    · rw [Shfs.live, htr.frame p hin] at hp
      rw [htr.frame p hin]
      exact h p hp

/-- A read of a file leaves the free blocks zeros. -/
theorem Shfs.Zeroed.shfsRead {r : Except Sherr Bytes} (h : m.fs.Zeroed) (hm : Mounted m own)
    (hf : m.inos[f]? = some file) (hplain : file.blk.Plain)
    (hrun : Fs.shfsRead env other fuel m f a = some (m', r)) : m'.fs.Zeroed := by
  unfold Fs.shfsRead at hrun
  simp only [hf] at hrun
  have hformat := hplain.format_ne
  split at hrun
  · cases hrun
    exact h
  all_goals first
    | next hfmt => exact absurd (by rw [hfmt]; decide) hformat
    | skip
  · unfold shfsBinRead at hrun
    split at hrun
    · cases hrun
      exact h
    split at hrun
    · cases hrun
    · next hbin =>
      cases hrun
      exact h.shfsBin hm hbin
    · next hbin =>
      obtain ⟨res, -, heq⟩ := Option.map_eq_some_iff.mp hrun
      cases heq
      exact h.shfsBin hm hbin
  · cases hrun
    exact h

/-- The inode of the file is written after its binary inode. -/
theorem Shfs.Zeroed.entity {fs1 : Shfs} {blk2 : Block} {writes : Nat} (h : fs1.Zeroed)
    (hm : Mounted m own)
    (hf : m.inos[f]? = some file) (htype : blk2.type = file.blk.type) :
    (({ fs1 with writes := writes } : Shfs).store blk2).Zeroed := by
  refine (h.writes writes).store ?_
  rw [htype, ← (hm.held f file hf).type_eq]
  exact (hm.held f file hf).live

/-- In every mount that file operations reach, free slots are zeroed. -/
theorem FileReached.zeroed (h : FileReached env other m) : m.fs.Zeroed := by
  -- each kind of call leaves what is not live zeroed
  induction h with
  | init h =>
    obtain ⟨node, root, hnew⟩ := newPartition h
    intro p hp
    refine hnew.others p ?_ ?_
    · rintro rfl
      exact hp (by rw [Shfs.live, hnew.node_type]; decide)
    · rintro rfl
      exact hp (by rw [Shfs.live, hnew.root_type]; decide)
  | inode hm _ _ hrun ih =>
    obtain ⟨own, hfiled⟩ := hm.filed
    exact ih.inode hfiled.mounted hrun
  | read hm hf hplain hrun ih =>
    obtain ⟨own, hfiled⟩ := hm.filed
    exact ih.shfsRead hfiled.mounted hf hplain hrun
  | @write m m' fuel f file data a hm hf hplain hrun ih =>
    obtain ⟨own, hfiled⟩ := hm.filed
    have hbinrun := hrun
    rw [shfsWrite_plain hf hplain] at hbinrun
    rcases hbin : Fs.shfsBin env fuel m f a with _ | ⟨m1, _ | ⟨b, bin⟩⟩
    · simp only [shfsBinWrite, hbin] at hbinrun
      cases hbinrun
    · simp only [shfsBinWrite, hbin] at hbinrun
      cases hbinrun
    -- the inode of the content is opened first, then written through
    obtain ⟨own1, hm1, file', hf', hsame, hopen⟩ := hfiled.shfsBin hf hplain.type_ne hbin
    have hopen := hopen b bin rfl
    have hrun' : Fs.shfsWrite env other fuel m1 f data a = some (m', .ok ()) := by
      rw [← hrun, shfsWrite_plain hf' (hplain.congr hsame), shfsWrite_plain hf hplain]
      unfold shfsBinWrite
      rw [hopen.shfsBin, hbin]
    obtain ⟨fs1, blk1, mtime, writes, hwrite, rfl⟩ :=
      shfsWrite_inv hopen (hopen.ne hm1.mounted) (hplain.congr hsame) hrun'
    have h1 := (ih.shfsBin hfiled.mounted hbin).auxWrite hm1.mounted hopen.bin_eq hwrite
    exact h1.entity hm1.mounted hf' rfl
  | @truncate m m' fuel f len file a hm hf hplain _ hrun ih =>
    obtain ⟨own, hfiled⟩ := hm.filed
    have hbinrun := (shfsTruncate_ok hf hrun).2
    rcases hbin : Fs.shfsBin env fuel m f a with _ | ⟨m1, _ | ⟨b, bin⟩⟩
    · simp only [binTruncate, hbin] at hbinrun
      cases hbinrun
    · simp only [binTruncate, hbin] at hbinrun
      cases hbinrun
    obtain ⟨own1, hm1, file', hf', hsame, hopen⟩ := hfiled.shfsBin hf hplain.type_ne hbin
    have hopen := hopen b bin rfl
    have hbinrun' : binTruncate env fuel m1 f len a = some (m', .ok ()) := by
      rw [← hbinrun]
      unfold binTruncate
      rw [hopen.shfsBin, hbin]
    obtain ⟨fs1, blk1, mtime, writes, hcut, rfl⟩ :=
      binTruncate_inv hopen (hopen.ne hm1.mounted) hbinrun'
    have h1 := (ih.shfsBin hfiled.mounted hbin).inodeTruncate hm1.mounted hopen.bin_eq hcut
    exact h1.entity hm1.mounted hf' rfl

end Zeroed

/-! ## Removed files -/

/-- The mount is what a write to the file has left, which was open with its binary inode. -/
def StoredBy (env : Env) (m : Mount) (f b : Nat) : Prop :=
  ∃ (other : Formats) (fuel : Nat) (own : Idx →
    Idx) (m₀ : Mount) (file bin : Ino) (L : List Idx) (data : Bytes)
    (a : Access), BinaryContent env m₀ f b file bin L ∧ Mounted m₀ own ∧ file.blk.Plain ∧
      shfsWrite env other fuel m₀ f data a = some (m, .ok ())

/-- What a write has stored has a block. -/
theorem BinaryContent.ne_nil {f b : Nat} {file bin : Ino} {L : List Idx}
    (h : BinaryContent env m f b file bin L)
    (hstored : StoredBy env m f b) : L ≠ [] := by
  obtain ⟨other, fuel₀, own, m₀, file₀, bin₀, L₀, data, a, h₀, hm₀, hplain, hwrite⟩ := hstored
  obtain ⟨file', bin', L', h', hne⟩ := h₀.write hm₀ hplain hwrite
  cases h.opened.bin_eq.symm.trans h'.opened.bin_eq
  rw [h.chain.unique h'.chain]
  exact hne

/-- In every sound mount, for every file whose content is stored in the binary format and whose
removal returns zero: every block of the content is in use and is what it was, so that the removal
has freed the content if and only if there was none. After a write there is some. -/
theorem content_reclaimed_iff {own : Idx → Idx} {f b : Nat} {file bin : Ino} {L : List Idx}
    (h : BinaryContent env m f b file bin L) (hm : Mounted m own) (hzero : m.fs.Zeroed)
    (hkey : ∀ (name : ShKey) (salt : UInt16) (mode : Shinode), mode.isContainer = false →
      env.token name salt mode [] ≠ bin.blk.name)
    (hrun : shfsFileRemove env acc fuel m f = some (m', .ok ())) :
    ((∀ p ∈ L, m'.fs.block p = Block.zero) ↔ L = []) ∧
      (∀ p ∈ L, m'.fs.live p ∧ m'.fs.block p = m.fs.block p) ∧ (StoredBy env m f b → L ≠ []) := by
  have hkept := h.fileRemove hm hzero hkey hrun
  refine ⟨⟨fun hfreed => ?_, fun hnil => ?_⟩, hkept, h.ne_nil⟩
  · obtain _ | ⟨p, L⟩ := L
    · rfl
    · -- a zeroed block is not in use
      have hlive := (hkept p List.mem_cons_self).1
      rw [Shfs.live, hfreed p List.mem_cons_self] at hlive
      exact absurd rfl hlive
  · rw [hnil]
    exact fun p hp => by cases hp

/-- The keys of different types are different. -/
def keysByType : Env where
  journalIndex := fun _ => 1
  journalIndex_pos := fun _ => Nat.one_pos
  keyBin := fun _ => ashkeyBlank
  token := fun _ _ mode _ => { ashkeyBlank with crc := mode.ctorIdx.toUInt16 }
  birth := fun _ => 0
  clock := fun _ => 0

/-- A file of one byte in the root directory of a new partition. -/
def byteFile : Option Mount :=
  (shfsInitNew keysByType ashkeyBlank ashkeyBlank [] 0).toOption.bind fun m =>
    (shfsInode keysByType 5 m 0 [] .file anyone).bind fun res =>
      (shfsWrite keysByType noFormats 5 res.1 1 [1] anyone).bind fun res =>
        res.2.toOption.map fun _ => res.1

/-- The sample has been reached by file operations. -/
theorem byteFile_reached {m : Mount} (h : byteFile = some m) :
    FileReached keysByType noFormats m := by
  obtain ⟨m0, h0, h1⟩ := Option.bind_eq_some_iff.mp h
  obtain ⟨⟨m1, n⟩, h2, h3⟩ := Option.bind_eq_some_iff.mp h1
  obtain ⟨⟨m2, r⟩, h4, h5⟩ := Option.bind_eq_some_iff.mp h3
  obtain ⟨u, hu, rfl⟩ := Option.map_eq_some_iff.mp h5
  obtain rfl : r = .ok u := ok_of_toOption hu
  have hinit : FileReached keysByType noFormats m0 := .init (ok_of_toOption h0)
  have hfacts : (shfsInitNew keysByType ashkeyBlank ashkeyBlank [] 0).toOption.map (fun m =>
      (m.inos[0]?.map fun ino => ino.blk.type,
        (shfsInode keysByType 5 m 0 [] .file anyone).map fun res =>
          res.1.inos[1]?.map fun ino => (ino.blk.type, ino.blk.attr, ino.blk.format))) =
      some (some .directory, some (some (.file, 0, .null))) := by decide +kernel
  rw [h0, Option.map_some, Option.some.injEq, Prod.mk.injEq, h2, Option.map_some,
    Option.some.injEq] at hfacts
  obtain ⟨hroot, hfile⟩ := hfacts
  obtain ⟨ino, hi, htype⟩ := Option.map_eq_some_iff.mp hroot
  obtain ⟨file, hf, hblk⟩ := Option.map_eq_some_iff.mp hfile
  simp only [Prod.mk.injEq] at hblk
  obtain ⟨hftype, hattr, hformat⟩ := hblk
  have hplain : file.blk.Plain := by
    refine ⟨by rw [hftype]; decide, by rw [hattr]; rfl, by rw [hformat]; decide⟩
  exact (hinit.inode hi (by rw [htype]; decide) h2).write hf hplain h4

/-- The file and its content. -/
theorem byteFile_stored : ∃ m own file bin, byteFile = some m ∧ Mounted m own ∧ m.fs.Zeroed ∧
    BinaryContent keysByType m 1 2 file bin [{ jno := 1, ino := 7 }] ∧
    bin.blk.name = { ashkeyBlank with crc := 10 } := by
  obtain ⟨m, hm⟩ : ∃ m, byteFile = some m := Option.isSome_iff_exists.mp (by decide +kernel)
  have hfile : byteFile.map (fun m => m.inos[1]?.map fun file =>
      findChild m 1 (childKey keysByType file.blk [] .binary)) =
        some (some (some 2)) := by decide +kernel
  have hbin : byteFile.map (fun m => m.inos[2]?.map fun bin =>
    (bin.blk.type, bin.blk.name, bin.blk.fpos.ref)) =
      some (some (.binary, { ashkeyBlank with crc := 10 }, some { jno := 1, ino := 7 })) := by
        decide +kernel
  have hdata : byteFile.map (fun m => (nextOf m.fs { jno := 1, ino := 7 },
      (m.fs.block { jno := 1, ino := 7 }).type, (m.fs.block { jno := 1, ino := 7 }).format)) =
      some (none, .aux, .null) := by decide +kernel
  have hbelow : byteFile.map (fun m => m.inos.all fun ino => decide (ino.parent ≠ some 2)) =
      some true := by
    decide +kernel
  rw [hm, Option.map_some, Option.some.injEq] at hfile hbin hdata hbelow
  obtain ⟨file, hf, hfind⟩ := Option.map_eq_some_iff.mp hfile
  obtain ⟨bin, hb, hblk⟩ := Option.map_eq_some_iff.mp hbin
  simp only [Prod.mk.injEq] at hblk hdata
  obtain ⟨htype, hname, hfpos⟩ := hblk
  obtain ⟨hnext, hdata⟩ := hdata
  have hreach := byteFile_reached hm
  obtain ⟨own, hfiled⟩ := hreach.filed
  refine ⟨m, own, file, bin, hm, hfiled.mounted, hreach.zeroed,
    ⟨⟨hf, hb, hfind⟩, htype, ⟨hfpos, hnext⟩, fun p hp => ?_, fun i ino hi => ?_⟩, hname⟩
  · rw [List.mem_singleton.mp hp]
    exact hdata
  · exact of_decide_eq_true (List.all_eq_true.mp hbelow ino (List.mem_of_getElem? hi))

/-- The tokens of the sample tell its inodes apart. -/
theorem byteFile_keys {key : ShKey} (hkey : key = { ashkeyBlank with crc := 10 }) (name : ShKey)
    (salt : UInt16)
    (mode : Shinode) (hmode : mode.isContainer = false) : keysByType.token name salt mode
      [] ≠ key := by
  subst hkey
  intro heq
  have hcrc : mode.ctorIdx.toUInt16 = 10 := congrArg ShKey.crc heq
  revert hmode hcrc
  cases mode <;> decide

/-- The removal of the file. -/
theorem byteFile_removed {m : Mount} (h : byteFile = some m) :
    ∃ m', shfsFileRemove keysByType (fun _ => anyone) 5 m 1 = some (m', .ok ()) := by
  have hfacts : byteFile.map (fun m => (shfsFileRemove keysByType (fun _ => anyone) 5 m 1).map
      fun res => res.2.toOption) = some (some (some ())) := by decide +kernel
  rw [h, Option.map_some, Option.some.injEq] at hfacts
  obtain ⟨⟨m', r⟩, hrun, hr⟩ := Option.map_eq_some_iff.mp hfacts
  obtain rfl : r = .ok () := ok_of_toOption hr
  exact ⟨m', hrun⟩

/-- The file, once two more bytes have been written to it. -/
def rewrittenFile : Option Mount :=
  byteFile.bind fun m => (shfsWrite keysByType noFormats 5 m 1 [2, 3] anyone).bind fun res =>
    res.2.toOption.map fun _ => res.1

/-- What has been written is still there when the file has been removed. -/
theorem content_reclaimed_iff_rewritten : ∃ m m' file bin L, rewrittenFile = some m ∧
    BinaryContent keysByType m 1 2 file bin L ∧
    shfsFileRemove keysByType (fun _ => anyone) 5 m 1 = some (m', .ok ()) ∧ L ≠ [] ∧
      ∀ p ∈ L, m'.fs.live p := by
  obtain ⟨m₀, own₀, file₀, bin₀, hm₀, hmounted₀, -, h₀, -⟩ := byteFile_stored
  have hfacts : byteFile.bind (fun m =>
    (shfsWrite keysByType noFormats 5 m 1 [2, 3] anyone).bind fun res =>
      m.inos[1]?.bind fun file => res.1.inos[2]?.bind fun bin =>
        (shfsFileRemove keysByType (fun _ => anyone) 5 res.1 1).map fun last =>
          ((file.blk.type, file.blk.attr, file.blk.format), res.2.toOption, bin.blk.name,
            last.2.toOption)) =
      some ((.file, 0, .binary), some (), { ashkeyBlank with crc := 10 }, some ()) := by
        decide +kernel
  rw [hm₀, Option.bind_some] at hfacts
  obtain ⟨⟨m, r⟩, hwrite, hfacts⟩ := Option.bind_eq_some_iff.mp hfacts
  rw [h₀.opened.file_eq, Option.bind_some] at hfacts
  obtain ⟨bin, hbin, hfacts⟩ := Option.bind_eq_some_iff.mp hfacts
  obtain ⟨⟨m', r'⟩, hremove, hfacts⟩ := Option.map_eq_some_iff.mp hfacts
  simp only [Prod.mk.injEq] at hfacts
  obtain ⟨⟨htype, hattr, hformat⟩, hok, hname, hremoved⟩ := hfacts
  obtain rfl : r = .ok () := ok_of_toOption hok
  obtain rfl : r' = .ok () := ok_of_toOption hremoved
  have hplain : file₀.blk.Plain :=
    ⟨by rw [htype]; decide, by rw [hattr]; rfl, by rw [hformat]; decide⟩
  have hreach := (byteFile_reached hm₀).write h₀.opened.file_eq hplain hwrite
  obtain ⟨own, hfiled⟩ := hreach.filed
  obtain ⟨file, bin', L, hcontent, -⟩ := h₀.write hmounted₀ hplain hwrite
  cases hbin.symm.trans hcontent.opened.bin_eq
  obtain ⟨-, hkept, hstored⟩ :=
    content_reclaimed_iff hcontent hfiled.mounted hreach.zeroed (byteFile_keys hname) hremove
  refine ⟨m, m', file, bin, L, ?_, hcontent, hremove,
    hstored ⟨_, _, _, _, _, _, _, _, _, h₀, hmounted₀, hplain, hwrite⟩, fun p hp => (hkept p hp).1⟩
  rw [rewrittenFile, hm₀, Option.bind_some, hwrite]
  rfl

/-- The byte is still there when the file has been removed. -/
theorem removed_file_holds_block : ¬ ∀ (env : Env) (acc : Nat → Access) (fuel : Nat) (m m' : Mount)
    (own : Idx → Idx) (f b : Nat) (file bin : Ino) (L : List Idx),
    BinaryContent env m f b file bin L → Mounted m own → m.fs.Zeroed →
    (∀ (name : ShKey) (salt : UInt16) (mode : Shinode), mode.isContainer = false →
      env.token name salt mode [] ≠ bin.blk.name) →
    shfsFileRemove env acc fuel m f = some (m', .ok ()) → ∀ p ∈ L, m'.fs.block p = Block.zero := by
  intro hall
  obtain ⟨m, own, file, bin, hm, hmounted, hzero, hstored, hname⟩ := byteFile_stored
  obtain ⟨m', hrun⟩ := byteFile_removed hm
  have hkept := hstored.fileRemove hmounted hzero (byteFile_keys hname) hrun
  have hfreed := hall _ _ _ m m' own 1 2 file bin _ hstored hmounted hzero
    (byteFile_keys hname) hrun
  have hlive := (hkept _ (List.mem_singleton.mpr rfl)).1
  rw [Shfs.live, hfreed _ (List.mem_singleton.mpr rfl)] at hlive
  exact hlive rfl

end LibShare.Fs
