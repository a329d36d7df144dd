import LibShare.Fs.Paths
import LibShare.Fs.Clear
import LibShare.Fs.Entries

/-!
# libshare — what a removal removes

`shfs_inode_remove` looks at the format of an inode: directories and inodes of the format
FILE are removed, and for all others it returns zero and does nothing. A file that has
been written has the format BINARY, so that it is still there when it has been unlinked
(`unlinked_file_stays`).

`shfs_dir_remove` returns the count of the list where there are entries, and clears the
directory where there are none. That frees the first block of the directory and, by the
way `shfs_inode_clear` goes on, its second sibling (`outside_iff`). Below the directory,
whatever is open stays what it was, and an inode that is not open is made again when it
is looked up: a file without a content, and a directory with the format of one
(`below_iff`).

* `removal_removes_iff` — when a removal that returns zero has removed.
-/

namespace LibShare.Fs

section Empty

variable {env : Env} {acc : Nat → Access} {fspec : Bytes → Bool} {i : Nat}

/-- A count only goes up. Where it does not, the walk has come to no entry: it has called nothing,
and it does the same with another callback. -/
theorem listLoop_count {σ : Type} {cb : Option (ListCb σ)} :
    ∀ {fuel : Nat} {m m' : Mount} {arg arg' : σ} {idx : Idx}
    {tot tot' : Nat}, listLoop env acc fspec cb i fuel m arg idx tot = some (m', arg', .ok tot') →
    tot ≤ tot' ∧ (cb = none → m' = m) ∧ (tot' = tot → m' = m ∧ arg' = arg ∧
      ∀ {τ : Type} (cb : Option (ListCb τ)) (arg : τ),
        listLoop env acc fspec cb i fuel m arg idx tot = some (m, arg, .ok tot)) := by
  intro fuel
  induction fuel with
  | zero =>
    intro m m' arg arg' idx tot tot' hrun
    cases hrun
  | succ fuel ih =>
    intro m m' arg arg' idx tot tot' hrun
    unfold listLoop at hrun
    split at hrun
    · next hidx =>
      cases hrun
      exact ⟨Nat.le_refl _, fun _ => rfl, fun _ =>
        ⟨rfl, rfl, fun cb arg => by rw [listLoop, if_pos hidx]⟩⟩
    next hidx =>
    split at hrun
    · cases hrun
    next blk hread =>
    split at hrun
    · cases hrun
    next hself =>
    split at hrun
    · -- an entry is counted, with or without a call
      split at hrun
      · obtain ⟨hle, heq, -⟩ := ih hrun
        exact ⟨by omega, fun _ => heq rfl, fun hsame => absurd hle (by omega)⟩
      split at hrun
      · cases hrun
      split at hrun
      · cases hrun
      split at hrun
      · cases hrun
      · cases hrun
      · obtain ⟨hle, -, -⟩ := ih hrun
        exact ⟨by omega, (fun hcb => by cases hcb), fun hsame => absurd hle (by omega)⟩
    · next hlisted =>
      obtain ⟨hle, heq, hnone⟩ := ih hrun
      refine ⟨hle, heq, fun hsame => ⟨(hnone hsame).1, (hnone hsame).2.1, fun cb arg => ?_⟩⟩
      rw [listLoop, if_neg hidx, hread]
      dsimp only
      rw [if_neg hself, if_neg hlisted]
      exact (hnone hsame).2.2 cb arg

/-- A directory without entries is listed as such. -/
theorem shfsList_empty {fuel : Nat} {m m' : Mount} {dir : Ino} {ents : List Dirent}
    (hi : m.inos[i]? = some dir)
    (hrun : shfsList env acc fuel m i = some (m', .ok (0, ents))) :
    dir.blk.type.isContainer = true ∧ m' = m ∧ ents = [Dirent.zero] := by
  unfold shfsList shfsListCb at hrun
  by_cases hcont : dir.blk.type.isContainer = true
  · simp only [hi, if_pos hcont] at hrun
    split at hrun
    · cases hrun
    · cases hrun
    next m1 u count hcount =>
    obtain rfl := (listLoop_count hcount).2.1 rfl
    simp only [hi, if_pos hcont] at hrun
    split at hrun
    · cases hrun
    · cases hrun
    next m2 ents2 tot hlist =>
    simp only [Option.some.injEq, Prod.mk.injEq, Except.ok.injEq] at hrun
    obtain ⟨rfl, rfl, rfl⟩ := hrun
    -- the second walk has come to no entry, and so has the first one
    obtain ⟨hsame, hents, hagain⟩ := (listLoop_count hlist).2.2 rfl
    have hzero := (hagain none ()).symm.trans hcount
    simp only [Option.some.injEq, Prod.mk.injEq, Except.ok.injEq] at hzero
    rw [← hzero.2.2] at hents
    exact ⟨hcont, hsame, hents⟩
  · simp only [hi, if_neg hcont] at hrun
    cases hrun

end Empty

section DirRemove

variable {env : Env} {acc : Nat → Access} {fuel d : Nat} {m m' : Mount}
  {own : Idx → Idx} {dir : Ino}

/-- A directory that has been cleared. -/
structure Emptied (m m' : Mount) (d : Nat) (dir : Ino) (fs' : Shfs) (dir' : Block) : Prop where
  mount_eq : m' = m.put d dir (fs', dir', .ok ())
  reset_eq : ∃ mtime, dir' = { resetInode dir.blk with mtime := mtime }
  stored : fs'.block dir.blk.pos = dir'
  freed : ∀ p ∈ clearedBy m.fs dir.blk, p ≠ dir.blk.pos → fs'.block p = Block.zero
  frame : ∀ p, p ∉ clearedBy m.fs dir.blk → p ≠ dir.blk.pos → fs'.block p = m.fs.block p
  size_eq : fs'.size = m.fs.size

/-- A directory that is removed with success had no entries. All that is done is to clear it. -/
theorem dirRemove_done (hm : Mounted m own) (hd : m.inos[d]? = some dir)
    (hrun : shfsDirRemove env acc fuel m d = some (m', .done)) :
    dir.blk.type.isContainer = true ∧ ∃ fs' dir', Emptied m m' d dir fs' dir' := by
  obtain _ | fuel := fuel
  · cases hrun
  unfold shfsDirRemove at hrun
  split at hrun
  · cases hrun
  · cases hrun
  · next m1 ents hlist =>
    obtain ⟨hcont, rfl, rfl⟩ := shfsList_empty hd hlist
    have hents : dirRemoveEnts env acc fuel d (shfsInodeRemove env acc fuel) [Dirent.zero] m1 =
        some (m1, .done) := by
      rw [dirRemoveEnts]
      exact if_pos rfl
    rw [hents] at hrun
    simp only [Mount.clear, hd] at hrun
    obtain ⟨res, hclear, heq⟩ := Option.map_eq_some_iff.mp hrun
    obtain ⟨⟨fs', dir', r⟩, hrun', rfl⟩ := Option.map_eq_some_iff.mp hclear
    obtain ⟨mtime, writes, hdir', hr, hfs'⟩ := inodeClear_spec (hm.clearMapped hd) hrun'
    simp only at hdir' hr hfs'
    simp only [Prod.mk.injEq, and_true] at heq
    rw [← hdir'] at hfs'
    have hpos : dir'.pos = dir.blk.pos := by rw [hdir']; rfl
    have hback : ∀ p, p ≠ dir.blk.pos →
        fs'.block p = (m1.fs.wipe (clearedBy m1.fs dir.blk)).block p := by
      intro p hp
      rw [hfs', Shfs.store_ne _ _ (by rw [hpos]; exact hp)]
    refine ⟨hcont, fs', dir', by rw [← heq, hr], ⟨mtime, hdir'⟩, ?_, fun p hp hne => ?_,
      fun p hp hne => ?_, ?_⟩
    · rw [hfs', ← hpos, Shfs.store_self]
    · rw [hback p hne, wipe_mem _ hp]
    · rw [hback p hne, wipe_not_mem _ hp]
    · rw [hfs']
      rfl
  · cases hrun

section Emptied

variable {fs' : Shfs} {dir' : Block} (h : Emptied m m' d dir fs' dir')

include h

theorem Emptied.name_eq : dir'.name = dir.blk.name := by
  obtain ⟨mtime, rfl⟩ := h.reset_eq
  rfl

theorem Emptied.type_eq : dir'.type = dir.blk.type := by
  obtain ⟨mtime, rfl⟩ := h.reset_eq
  rfl

theorem Emptied.childKey_eq (name : Bytes) (mode : Shinode) :
    childKey env dir' name mode = childKey env dir.blk name mode := by
  obtain ⟨mtime, rfl⟩ := h.reset_eq
  rfl

theorem Emptied.retains (hd : m.inos[d]? = some dir) : Retains d m m' := by
  obtain ⟨mtime, hreset⟩ := h.reset_eq
  rw [h.mount_eq]
  exact .put hd (by rw [hreset]; rfl) (by rw [hreset]; rfl) (by rw [hreset]; rfl)
    fun hcon => absurd hcon (Nat.lt_irrefl d)

theorem Emptied.get (hd : m.inos[d]? = some dir) : m'.inos[d]? = some { dir with blk := dir' } := by
  rw [h.mount_eq]
  exact List.getElem?_set_self (List.getElem?_eq_some_iff.mp hd).1

end Emptied

end DirRemove

/-! ## `shfs_unlink` -/

/-- The formats that `shfs_inode_remove` looks at, and none at all. -/
def Removable (blk : Block) : Prop :=
  blk.format = .null ∨ blk.format = .directory ∨ blk.format = .file ∧ blk.type ≠ .directory

instance (blk : Block) : Decidable (Removable blk) := inferInstanceAs (Decidable (_ ∨ _))

section Unlink

variable {env : Env} {acc : Nat → Access} {fuel n : Nat} {m m' : Mount}
  {own : Idx → Idx} {ino : Ino}

/-- A removal of an open inode that returns zero: the formats of all others are kept. -/
theorem inodeRemove_done (hm : Mounted m own) (hn : m.inos[n]? = some ino)
    (hrun : shfsInodeRemove env acc fuel m (some n) = some (m', .done)) :
    Retains n m m' ∧ ∃ ino', m'.inos[n]? = some ino' ∧
      (ino'.blk.format = .null ↔ Removable ino.blk) := by
  obtain _ | fuel := fuel
  · cases hrun
  unfold shfsInodeRemove at hrun
  simp only [hn, Option.map_some] at hrun
  split at hrun
  · next hdir =>
    have hformat := Option.some.inj hdir
    obtain ⟨-, fs', dir', h⟩ := dirRemove_done hm hn hrun
    obtain ⟨mtime, hreset⟩ := h.reset_eq
    exact ⟨h.retains hn, _, h.get hn, iff_of_true (by rw [hreset]; rfl) (.inr (.inl hformat))⟩
  · next hfile =>
    have hformat := Option.some.inj hfile
    split at hrun
    · cases hrun
    · cases hrun
    next m1 u hremove =>
    cases hrun
    obtain ⟨hstep, hdone⟩ := Retains.fileRemove hm.ordered hremove
    obtain ⟨file, file', hf, hf', hreset⟩ := hdone rfl
    cases hn.symm.trans hf
    refine ⟨hstep, file', hf', ?_⟩
    rw [hreset, Removable, hformat]
    by_cases htype : ino.blk.type = .directory
    · simp [htype]
    · simp [htype]
  · next hnot hnotfile =>
    -- nothing is done
    cases hrun
    refine ⟨.refl n _, ino, hn, .inl, ?_⟩
    rintro (hnull | hdir | ⟨hfile, -⟩)
    · exact hnull
    · exact absurd (congrArg some hdir) hnot
    · exact absurd (congrArg some hfile) hnotfile

/-- After an unlink that returns zero, the path is reported as absent if and only if the format is
one that is removed. -/
theorem unlink_reports {m1 : Mount} {path : Bytes} (hm : Mounted m own)
    (hfind : shfsFileFind env acc fuel m path = some (m1, some n)) (hn : m1.inos[n]? = some ino)
    (hrun : shfsUnlink env acc fuel m path = some (m', .done)) :
    (∃ m'', shfsStat env acc fuel m' path = some (m'', .error .noent)) ↔ Removable ino.blk := by
  have hpath : ¬ (path = [] ∨ pathMax ≤ path.length) := by
    intro hbad
    rw [shfsFileFind, if_pos hbad] at hfind
    cases hfind
  rw [shfsUnlink, hfind] at hrun
  rw [shfsFileFind_eq_walkPath hpath] at hfind
  obtain ⟨own1, hm1⟩ := hm.walkPath hfind
  obtain ⟨hstep, ino', hn', hformat⟩ := inodeRemove_done hm1 hn hrun
  -- the path leads to the same inode
  have hagain : shfsFileFind env acc fuel m' path = some (m', some n) := by
    rw [shfsFileFind_eq_walkPath hpath]
    exact walkPath_again hfind hstep
  rw [← hformat, shfsStat, hagain, Option.map_some, shfsFstat, Option.bind_some, hn']
  dsimp only
  constructor
  · rintro ⟨m'', heq⟩
    by_contra hne
    rw [if_neg hne] at heq
    cases heq
  · intro hnull
    exact ⟨m', by rw [if_pos hnull]⟩

end Unlink

/-! ## Below a directory -/

/-- The steps lead to an entry that is there: each of them finds what it looks for, and makes
nothing. -/
def Leads (env : Env) (acc : Nat → Access) (fuel : Nat) :
    List (Bytes × Shinode) → Mount → Nat → Mount → Nat → Prop
  | [], m, i, m', n => m' = m ∧ n = i
  | (name, mode) :: steps, m, i, m', n =>
    ∃ m1 k, shfsInode env fuel m i name mode (acc m.inos.length) = some (m1, some k) ∧
      m1.fs = m.fs ∧ Leads env acc fuel steps m1 k m' n

/-- Directories, and a file or a directory behind them. -/
def EntryPath : List (Bytes × Shinode) → Prop
  | [] => False
  | [(_, mode)] => mode = .file ∨ mode = .directory
  | (_, mode) :: step :: steps => mode = .directory ∧ EntryPath (step :: steps)

/-- `shfs_fstat` of what the steps lead to. -/
def statBelow (env : Env) (acc : Nat → Access) (fuel : Nat) (m : Mount) (d : Nat)
    (steps : List (Bytes × Shinode)) :
    Option (Mount × Except Sherr Unit) :=
  (walkPath env acc fuel steps m d).map fun res => (res.1, shfsFstat res.1 res.2)

section Below

variable {env : Env} {acc : Nat → Access} {fuel d : Nat} {m m' : Mount}
  {own : Idx → Idx} {dir : Ino}

/-- The blocks that are freed with a directory belong to it, or to the directory that it is in. -/
theorem Mounted.clearedBy_own (hm : Mounted m own) (hd : m.inos[d]? = some dir) :
    ∀ c ∈ Fs.clearedBy m.fs dir.blk, c ≠ dir.blk.pos ∧
      (own c = dir.blk.pos ∨ own c = own dir.blk.pos) := by
  have hheld := hm.held d dir hd
  intro c hc
  by_cases hf : dir.blk.fpos.ino = 0
  · rw [Fs.clearedBy, if_pos hf] at hc
    cases hc
  have hfirst : dir.blk.fpos ≠ dir.blk.pos ∧ own dir.blk.fpos = dir.blk.pos := by
    obtain ⟨-, hown⟩ := hm.sound.links.first_mem dir.blk.pos dir.blk.fpos hheld.live
      (by rw [firstOf, hheld.fpos_eq, Idx.ref_of_ne hf])
    refine ⟨fun heq => hm.sound.links.irrefl _ hheld.live ?_, hown⟩
    rw [← heq, hown, heq]
  rw [hm.clearedBy_eq hd hf] at hc
  split at hc
  · rw [List.mem_singleton.mp hc]
    exact ⟨hfirst.1, .inl hfirst.2⟩
  · next hsib =>
    rw [not_or] at hsib
    obtain ⟨hlive, -, hne⟩ := hm.sibling hd hsib.1 hsib.2
    rcases List.mem_cons.mp hc with rfl | hc
    · -- the second sibling
      refine ⟨hne, .inr ?_⟩
      have hnext : nextOf m.fs dir.blk.pos = some dir.blk.npos := by
        rw [nextOf, ← hheld.npos_eq.resolve_right hsib.1, Idx.ref_of_ne hsib.1]
      obtain ⟨hl1, ho1⟩ := hm.sound.links.next_mem _ _ hheld.live hnext
      obtain ⟨-, ho2⟩ := hm.sound.links.next_mem _ _ hl1 (Idx.ref_of_ne hsib.2)
      exact ho2.trans ho1
    · rw [List.mem_singleton.mp hc]
      exact ⟨hfirst.1, .inl hfirst.2⟩

/-- The entries of an inode that has been opened after a directory are other blocks. -/
theorem Mounted.chain_apart {x : Nat} {ino : Ino} {L : List Idx} (hm : Mounted m own)
    (hd : m.inos[d]? = some dir)
    (hx : m.inos[x]? = some ino) (hlt : d < x) (hL : ∀ p ∈ L, own p = ino.blk.pos) :
    ∀ p ∈ L, p ∉ Fs.clearedBy m.fs dir.blk ∧ p ≠ dir.blk.pos := by
  have hpos : ino.blk.pos ≠ dir.blk.pos :=
    fun heq => Nat.ne_of_lt hlt (hm.apart d x dir ino hd hx heq.symm)
  have hown : ino.blk.pos ≠ own dir.blk.pos := by
    intro heq
    cases hpar : dir.parent with
    | some e =>
      -- the directory that it is in has been opened before it
      obtain ⟨hlt', pino, hp, hown⟩ := hm.parent d e dir hd hpar
      have := hm.apart x e ino pino hx hp (heq.trans hown)
      omega
    | none =>
      -- the supernode is owned by nothing
      obtain ⟨-, hzero⟩ := hm.root d dir hd hpar
      have hlive := hm.owner_live hx
      rw [heq, hzero] at hlive
      exact (hm.sound.cell _ hlive).2.1 rfl
  intro p hp
  refine ⟨fun hc => ?_, ?_⟩
  · rcases (hm.clearedBy_own hd p hc).2 with hcon | hcon
    · exact hpos ((hL p hp).symm.trans hcon)
    · exact hown ((hL p hp).symm.trans hcon)
  · rintro rfl
    exact hown (hL _ hp).symm

theorem linkFindLoop_congr {fs fs' : Shfs} {key : ShKey} (hsize : fs'.size = fs.size) :
    ∀ {L : List Idx} {fuel : Nat}
    {idx : Idx}, Chain (nextOf fs) idx.ref L → (∀ p ∈ L, fs'.block p = fs.block p) →
    linkFindLoop key fuel fs' idx = linkFindLoop key fuel fs idx := by
  intro L
  induction L with
  | nil =>
    intro fuel idx hchain _
    have hidx : idx.ino = 0 := by
      by_contra hne
      rw [Idx.ref_of_ne hne] at hchain
      cases hchain
    obtain _ | fuel := fuel
    · rfl
    · rw [linkFindLoop, linkFindLoop, if_pos hidx, if_pos hidx]
  | cons p L ih =>
    intro fuel idx hchain hsame
    obtain ⟨hs, htail⟩ := hchain
    obtain ⟨rfl, hne⟩ := Idx.ref_eq_some hs
    have hblock := hsame p List.mem_cons_self
    have hread : shfsInodeReadBlock fs' p = shfsInodeReadBlock fs p := by
      have hmap : fs'.inMap p ↔ fs.inMap p := by rw [Shfs.inMap, Shfs.inMap, hsize]
      by_cases hin : fs.inMap p
      · rw [shfsInodeReadBlock_ok hin, shfsInodeReadBlock_ok (hmap.mpr hin), hblock]
      · rw [shfsInodeReadBlock, shfsInodeReadBlock, if_neg hin, if_neg fun hcon =>
          hin (hmap.mp hcon)]
    obtain _ | fuel := fuel
    · rfl
    rw [linkFindLoop, linkFindLoop, if_neg hne, if_neg hne, hread]
    unfold shfsInodeReadBlock
    split
    · rfl
    next blk heq =>
    split at heq
    · cases heq
      rw [@ih fuel (fs.block p).npos htail fun q hq => hsame q (List.mem_cons_of_mem _ hq)]
    · cases heq

/-- A lookup in a store in which a directory has been cleared, below an inode that has been opened
after it. -/
theorem Mounted.inode_put {x k : Nat} {ino : Ino} {name : Bytes} {mode : Shinode} {a : Access}
    {m1 : Mount}
    {fs' : Shfs} {dir' : Block} {r : Except Sherr Unit} (hm : Mounted m own)
    (hd : m.inos[d]? = some dir)
    (hx : m.inos[x]? = some ino) (hlt : d < x) (hname : dir'.name = dir.blk.name)
    (hblock : ∀ p, p ∉ Fs.clearedBy m.fs dir.blk → p ≠ dir.blk.pos → fs'.block p = m.fs.block p)
    (hsize : fs'.size = m.fs.size) (hrun : shfsInode env fuel m x name mode a = some (m1, some k))
    (hfs : m1.fs = m.fs) :
    shfsInode env fuel (m.put d dir (fs', dir', r)) x name mode a =
      some (m1.put d dir (fs', dir', r), some k) ∧ Mounted m1 own ∧ m1.inos[d]? = some dir ∧
      ∃ child, m1.inos[k]? = some child ∧ x < k := by
  have hxput : (m.put d dir (fs', dir', r)).inos[x]? = some ino :=
    (List.getElem?_set_ne (Nat.ne_of_lt hlt)).trans hx
  have hkey : ∀ {key : ShKey}, findChild (m.put d dir (fs', dir', r)) x key = findChild m x key :=
    findChild_put hd hname
  rcases shfsInode_cases hrun with ⟨hsame, hfind⟩ | ⟨ino', hx', hnone, hcont, hk,
      ⟨blk, hfind, hres⟩ |
    ⟨inode, fs1, pblk, blk, htype, hfpos, -, -, hlink, hres⟩⟩ | ⟨_, _, _, _, _, _, -, -, -, -, hres⟩
  · -- it is open
    obtain rfl : m1 = m := hsame
    obtain ⟨ino', hx', hopen⟩ := hfind k rfl
    cases hx.symm.trans hx'
    obtain ⟨child, hchild, hpar, -⟩ := findChild_some hopen
    refine ⟨shfsInode_open hxput ?_, hm, hd, child, hchild, (hm.parent k x child hchild hpar).1⟩
    rw [hkey]
    exact hopen
  · -- it is in the chain, none of which has been freed
    cases hx.symm.trans hx'
    obtain rfl : m1 = { m with inos := m.inos ++ [{ blk := blk, parent := some x }] } := hres
    obtain rfl : k = m.inos.length := Option.some.inj hk
    obtain ⟨L, hL, -, -, hown⟩ := hm.chain hx
    have hapart := hm.chain_apart hd hx hlt hown
    have hfind' : shfsLinkFind fuel (m.put d dir (fs', dir', r)).fs ino.blk
        (childKey env ino.blk name mode) =
        some (.ok blk) := by
      rw [shfsLinkFind, if_pos hcont]
      exact (linkFindLoop_congr hsize hL fun p hp =>
        hblock p (hapart p hp).1 (hapart p hp).2).trans hfind
    obtain ⟨hheld, hbown, hnew, -⟩ := hm.found hx hnone hfind
    have hdlt := (List.getElem?_eq_some_iff.mp hd).1
    have hxlt := (List.getElem?_eq_some_iff.mp hx).1
    refine ⟨?_, hm.opened hx hheld hbown hnew, (List.getElem?_append_left hdlt).trans hd,
      { blk := blk, parent := some x }, ?_, hxlt⟩
    · rw [shfsInode_found hxput (by rw [hkey]; exact hnone) hfind']
      simp only [Mount.put, List.length_set, List.set_append_left _ _ hdlt]
    · exact List.getElem?_concat_length
  · -- nothing is made, or the store would be another one
    cases hx.symm.trans hx'
    rcases hm.linkNew hx htype hfpos hlink with ⟨⟨err, herr⟩, -, -⟩ | ⟨-, own', -, hheld, -, hfree⟩
    · cases herr
    · have hfs1 : fs1 = m.fs := by
        rw [← hfs, show m1 = _ from hres]
        rfl
      exact absurd (hfs1 ▸ hheld.live) hfree
  · cases hres

/-- What lies below such an inode is found where it was. -/
theorem Leads.put {n : Nat} {fs' : Shfs} {dir' : Block} {r : Except Sherr Unit}
    (hname : dir'.name = dir.blk.name) :
    ∀ {steps : List (Bytes × Shinode)} {m m1 : Mount} {x : Nat} {ino : Ino}, Mounted m own →
      m.inos[d]? = some dir →
    m.inos[x]? = some ino → d < x →
    (∀ p, p ∉ Fs.clearedBy m.fs dir.blk → p ≠ dir.blk.pos → fs'.block p = m.fs.block p) →
    fs'.size = m.fs.size →
    Leads env acc fuel steps m x m1 n →
    walkPath env acc fuel steps (m.put d dir (fs', dir', r)) x =
      some (m1.put d dir (fs', dir', r), some n) ∧ d < n := by
  intro steps
  induction steps with
  | nil =>
    intro m m1 x ino _ _ _ hlt _ _ hleads
    obtain ⟨rfl, rfl⟩ := hleads
    exact ⟨rfl, hlt⟩
  | cons step steps ih =>
    intro m m1 x ino hm hd hx hlt hblock hsize hleads
    obtain ⟨m2, k, hrun, hfs, hleads⟩ := hleads
    obtain ⟨hrun', hm2, hd2, child, hk, hxk⟩ :=
      hm.inode_put (r := r) hd hx hlt hname hblock hsize hrun hfs
    have hlen : (m.put d dir (fs', dir', r)).inos.length = m.inos.length := by
      rw [Mount.put, List.length_set]
    rw [walkPath, hlen, hrun']
    exact ih hm2 hd2 hk (hlt.trans hxk) (by rw [hfs]; exact hblock)
      (by rw [hfs]; exact hsize) hleads

/-- The first inode of a directory is linked if and only if its journal has room. -/
theorem linkNew_first {fs fs' : Shfs} {parent pblk inode blk : Block} {r : Except Sherr Unit}
    (hempty : parent.fpos.ino = 0) (hmap : fs.inMap parent.pos)
    (hrun : linkNew env fs parent inode = (fs', pblk, blk, r)) :
    r = .ok () ↔ ∃ res, shfsJournalScan env fs inode.name = .ok res := by
  unfold linkNew at hrun
  simp only [if_pos hempty] at hrun
  rcases hscan : shfsJournalScan env fs inode.name with err | ⟨fs1, idx⟩
  · simp only [hscan, Prod.mk.injEq] at hrun
    obtain ⟨-, -, -, rfl⟩ := hrun
    exact iff_of_false (fun hcon => nomatch hcon) fun ⟨res, hcon⟩ => nomatch hcon
  · obtain ⟨-, hfree, -, hsize⟩ := shfsJournalScan_ok hscan
    -- the scan has found a block of the map, which has not become smaller
    have hidx : fs1.born.inMap idx := hfree.inMap
    have hpar : ∀ (blk : Block) (writes : Nat),
        ({ fs1.born with writes := writes }.store blk).inMap parent.pos :=
      fun _ _ => ⟨hmap.1, Nat.lt_of_lt_of_le hmap.2 (hsize _)⟩
    simp only [hscan] at hrun
    rw [shfsInodeWriteBlock_ok (by exact hidx)] at hrun
    dsimp only at hrun
    rw [shfsInodeWriteBlock_ok (by exact hpar _ _)] at hrun
    simp only [Prod.mk.injEq] at hrun
    exact iff_of_true hrun.2.2.2.symm ⟨_, rfl⟩

/-- An inode that is looked up in an empty directory is made, if there is room for it. -/
theorem shfsInode_new {i : Nat} {ino : Ino} {name : Bytes} {mode : Shinode} {a : Access}
    (hi : m.inos[i]? = some ino)
    (hnone : findChild m i (childKey env ino.blk name mode) = none)
    (hcont : ino.blk.type.isContainer = true)
    (hempty : ino.blk.fpos.ino = 0) (hmap : m.fs.inMap ino.blk.pos) :
    ∃ m' n, shfsInode env (fuel + 1) m i name mode a = some (m', n) ∧
      (n.isSome = true ↔ ∃ r, shfsJournalScan env m.fs (childKey env ino.blk name mode) = .ok r) ∧
      ∀ k, n = some k → ∃ child, m'.inos[k]? = some child ∧
        child.blk.format = if (inodePath name mode).2 = .directory then .directory else .null := by
  have hfind : shfsLinkFind (fuel + 1) m.fs ino.blk (childKey env ino.blk name mode) =
      some (.error .noent) := by
    rw [shfsLinkFind, if_pos hcont, linkFindLoop, if_pos hempty]
  generalize hkey : childKey env ino.blk name mode = key at hnone hfind ⊢
  unfold shfsInode
  simp only [hi]
  rw [show env.token ino.blk.name ino.blk.salt (inodePath name mode).2 (inodePath name mode).1 =
    key from hkey]
  unfold findChild at hnone
  simp only [hnone, hfind]
  generalize hinode : newInode key (inodePath name mode).2 (inodePath name mode).1 = inode
  have hname : inode.name = key := by rw [← hinode]; rfl
  rw [shfsLink_noent (by rw [hname]; exact hfind)]
  rcases hnew : linkNew env m.fs ino.blk inode with ⟨fs', pblk, blk, r⟩
  have hroom := linkNew_first hempty hmap hnew
  rw [hname] at hroom
  rcases r with err | ⟨⟨⟩⟩
  · refine ⟨_, none, rfl, ?_, (fun k hk => by cases hk)⟩
    rw [← hroom]
    exact iff_of_false (fun hcon => by cases hcon) (fun hcon => by cases hcon)
  · refine ⟨_, some m.inos.length, rfl, ?_, fun k hk => ?_⟩
    · rw [← hroom]
      exact iff_of_true rfl rfl
    · cases hk
      obtain ⟨-, _, _, _, _, _, hblk⟩ := linkNew_eq hnew
      refine ⟨
        { blk := { blk with owner := a.owner, attr := a.attr, salt := a.salt }
          parent := some i }, ?_, ?_⟩
      · show (m.inos.set i _ ++ [_])[m.inos.length]? = _
        rw [List.getElem?_append_right (by rw [List.length_set]), List.length_set, Nat.sub_self]
        rfl
      · show blk.format = _
        rw [hblk, ← hinode]
        rfl

/-- The journal of a name has room when the directory has been cleared. -/
def RoomFor (env : Env) (m : Mount) (dir : Block) (name : Bytes) (mode : Shinode) : Prop :=
  ∃ res, shfsJournalScan env (m.fs.wipe (clearedBy m.fs dir)) (childKey env dir name mode) = .ok res

/-- The entries that are reported as absent: those without a content, where the first inode on the
way is open; and a file in the directory that is not open, where there is room to make it again. -/
def GoneWith (env : Env) (m : Mount) (d : Nat) (dir : Block) (m1 : Mount) (n : Nat) :
    List (Bytes × Shinode) → Prop
  | [] => False
  | (name, mode) :: steps =>
    if (findChild m d (childKey env dir name mode)).isSome then
      shfsFstat m1 (some n) = .error .noent
    else steps = [] ∧ mode = .file ∧ RoomFor env m dir name mode

theorem fstat_noent {n : Nat} {ino : Ino} (hn : m.inos[n]? = some ino) :
    shfsFstat m (some n) = .error .noent ↔ ino.blk.format = .null := by
  rw [shfsFstat, Option.bind_some, hn]
  dsimp only
  split
  · next hnull => exact iff_of_true rfl hnull
  · next hnull => exact iff_of_false (fun hcon => nomatch hcon) hnull

section Cleared

variable {fuel' n : Nat} {name : Bytes} {mode : Shinode} {steps : List (Bytes × Shinode)}
  {m1 : Mount}
  (hm : Mounted m own) (hd : m.inos[d]? = some dir)
  (hrun : shfsDirRemove env acc fuel m d = some (m', .done))

include hm hd hrun

/-- The first inode on the way is open: the entry is reported as before. -/
theorem below_open {c : Nat} (hopen : findChild m d (childKey env dir.blk name mode) = some c)
    (hleads : Leads env acc fuel' ((name, mode) :: steps) m d m1 n) :
    (∃ m2, statBelow env acc fuel' m' d ((name, mode) :: steps) = some (m2, .error .noent)) ↔
      shfsFstat m1 (some n) = .error .noent := by
  obtain ⟨-, fs', dir', h⟩ := dirRemove_done hm hd hrun
  have hd' := h.get hd
  -- the first step
  obtain ⟨m2, k, hinode, -, hleads⟩ := hleads
  rw [shfsInode_open hd hopen] at hinode
  cases hinode
  obtain ⟨child, hc, hpar, -⟩ := findChild_some hopen
  have hlt := (hm.parent c d child hc hpar).1
  have hopen' : findChild m' d (childKey env dir' name mode) = some c := by
    rw [h.childKey_eq]
    exact (h.retains hd).findChild hopen
  -- and the others
  obtain ⟨hwalk, hdn⟩ := Leads.put (r := .ok ()) h.name_eq hm hd hc hlt h.frame h.size_eq hleads
  rw [← h.mount_eq] at hwalk
  have hput : (m1.put d dir (fs', dir', .ok ())).inos[n]? = m1.inos[n]? :=
    List.getElem?_set_ne (Nat.ne_of_lt hdn)
  have hstat : statBelow env acc fuel' m' d ((name, mode) :: steps) =
      some (m1.put d dir (fs', dir', .ok ()), shfsFstat m1 (some n)) := by
    rw [statBelow, walkPath, shfsInode_open hd' hopen']
    dsimp only
    rw [hwalk, Option.map_some, shfsFstat, shfsFstat, Option.bind_some, Option.bind_some, hput]
  rw [hstat]
  constructor
  · rintro ⟨m2, heq⟩
    simp only [Option.some.injEq, Prod.mk.injEq] at heq
    exact heq.2
  · intro heq
    exact ⟨_, by rw [heq]⟩

/-- The inode is not open: another one is made in its place. -/
theorem below_closed (hclosed : findChild m d (childKey env dir.blk name mode) = none)
    (hmode : mode = .file ∨ mode = .directory) :
    (∃ m2, statBelow env acc (fuel' + 1) m' d [(name, mode)] = some (m2, .error .noent)) ↔
      mode = .file ∧ RoomFor env m dir.blk name mode := by
  obtain ⟨hcont, fs', dir', h⟩ := dirRemove_done hm hd hrun
  have hheld := hm.held d dir hd
  have hfs : m'.fs = fs' := by rw [h.mount_eq]; rfl
  have hclosed' : findChild m' d (childKey env dir' name mode) = none := by
    rw [h.childKey_eq, h.mount_eq, findChild_put hd h.name_eq]
    exact hclosed
  have hpos : dir'.pos = dir.blk.pos := by
    obtain ⟨mtime, hreset⟩ := h.reset_eq
    rw [hreset]
    rfl
  have hmap : m'.fs.inMap dir'.pos := by
    rw [hfs, hpos, Shfs.inMap, h.size_eq]
    exact (hm.sound.cell _ hheld.live).2.2
  -- a scan sees the blocks that have been freed, and the directory in its place
  have hlive : ∀ p, (m.fs.wipe (clearedBy m.fs dir.blk)).live p ↔ fs'.live p := by
    intro p
    rw [Shfs.live, Shfs.live]
    by_cases hp : p = dir.blk.pos
    · have hnot : dir.blk.pos ∉ clearedBy m.fs dir.blk := fun hc => (hm.clearedBy_own hd _ hc).1 rfl
      rw [hp, wipe_not_mem m.fs hnot, h.stored, h.type_eq, hheld.type_eq]
    · by_cases hc : p ∈ clearedBy m.fs dir.blk
      · rw [wipe_mem m.fs hc, h.freed p hc hp]
      · rw [wipe_not_mem m.fs hc, h.frame p hc hp]
  have hscan : (∃ res, shfsJournalScan env m'.fs (childKey env dir' name mode) = .ok res) ↔
      RoomFor env m dir.blk name mode := by
    have hcongr :=
      scanRetry_congr (env.journalIndex (childKey env dir.blk name mode)) fs' hlive h.size_eq.symm
    rw [RoomFor, h.childKey_eq, shfsJournalScan, shfsJournalScan, hfs, hcongr]
    rcases scanRetry (m.fs.wipe (clearedBy m.fs dir.blk))
        (env.journalIndex (childKey env dir.blk name mode)) with err | res
    · exact iff_of_false (by rintro ⟨_, hcon⟩; cases hcon) (by rintro ⟨_, hcon⟩; cases hcon)
    · exact iff_of_true ⟨_, rfl⟩ ⟨_, rfl⟩
  have hempty : dir'.fpos.ino = 0 := by
    obtain ⟨mtime, hreset⟩ := h.reset_eq
    rw [hreset]
    rfl
  obtain ⟨m2, k, hinode, hsome, hformat⟩ : ∃ m2 k,
      shfsInode env (fuel' + 1) m' d name mode (acc m'.inos.length) =
      some (m2, k) ∧ _ :=
        shfsInode_new (h.get hd) hclosed' (by rw [h.type_eq]; exact hcont) hempty hmap
  rw [← hsome.trans hscan, statBelow, walkPath, hinode]
  obtain _ | k := k
  · refine iff_of_false ?_ (fun hcon => by cases hcon.2)
    rintro ⟨m3, heq⟩
    cases heq
  · obtain ⟨child, hchild, hnull⟩ := hformat k rfl
    have hpath : (inodePath name mode).2 = mode := by
      unfold inodePath
      dsimp only
      rcases hmode with rfl | rfl <;> split <;> rfl
    show (∃ m3, some (m2, shfsFstat m2 (some k)) = some (m3, .error .noent)) ↔ _
    simp only [Option.some.injEq, Prod.mk.injEq]
    rw [exists_eq_left', fstat_noent hchild, hnull, hpath]
    rcases hmode with rfl | rfl
    · exact iff_of_true rfl ⟨rfl, rfl⟩
    · exact iff_of_false (fun hcon => by cases hcon) (fun hcon => by cases hcon.1)

/-- The entries that are reported as absent when the directory has been removed. -/
theorem below_iff :
    (∀ steps m1 n, EntryPath steps → Leads env acc fuel' steps m d m1 n →
      ∃ m2, statBelow env acc fuel' m' d steps = some (m2, .error .noent)) ↔
    ∀ steps m1 n, EntryPath steps → Leads env acc fuel' steps m d m1 n →
      GoneWith env m d dir.blk m1 n steps := by
  -- an inode that is not open has been read from the store
  have hfuel : ∀ {name mode m1 n steps}, findChild m d (childKey env dir.blk name mode) = none →
      Leads env acc fuel' ((name, mode) :: steps) m d m1 n → ∃ k, fuel' = k + 1 := by
    intro name mode m1 n steps hclosed hleads
    obtain ⟨m2, k, hinode, -, -⟩ := hleads
    obtain _ | k := fuel'
    · rcases shfsInode_cases hinode with ⟨-, hopen⟩ | ⟨ino, -, -, -, -, ⟨_, hfind, -⟩ |
        ⟨_, _, _, _, -, -, -, hfind, -, -⟩⟩ | ⟨_, _, _, _, _, _, -, -, -, -, hres⟩
      · obtain ⟨ino, hi, hsome⟩ := hopen _ rfl
        cases hd.symm.trans hi
        rw [hclosed] at hsome
        cases hsome
      · cases hfind
      · cases hfind
      · cases hres
    · exact ⟨k, rfl⟩
  constructor
  · intro hgone steps m1 n hentry hleads
    obtain _ | ⟨⟨name, mode⟩, steps⟩ := steps
    · exact hentry
    rw [GoneWith]
    cases hchild : findChild m d (childKey env dir.blk name mode) with
    | some c =>
      rw [if_pos Option.isSome_some]
      exact (below_open hm hd hrun hchild hleads).mp (hgone _ m1 n hentry hleads)
    | none =>
      rw [if_neg (by decide)]
      obtain ⟨k, rfl⟩ := hfuel hchild hleads
      obtain ⟨m2, c, hinode, hfs, hrest⟩ := hleads
      -- the inode itself is an entry, whatever is below it
      have hmode : mode = .file ∨ mode = .directory := by
        obtain _ | ⟨step, steps⟩ := steps
        · exact hentry
        · exact .inr hentry.1
      have hstat := hgone [(name, mode)] m2 c hmode ⟨m2, c, hinode, hfs, rfl, rfl⟩
      obtain ⟨rfl, hroom⟩ := (below_closed hm hd hrun hchild hmode).mp hstat
      refine ⟨?_, rfl, hroom⟩
      obtain _ | ⟨step, steps⟩ := steps
      · rfl
      · exact nomatch hentry.1
  · intro hgone steps m1 n hentry hleads
    have hcond := hgone steps m1 n hentry hleads
    obtain _ | ⟨⟨name, mode⟩, steps⟩ := steps
    · exact absurd hentry id
    rw [GoneWith] at hcond
    cases hchild : findChild m d (childKey env dir.blk name mode) with
    | some c =>
      rw [hchild, if_pos Option.isSome_some] at hcond
      exact (below_open hm hd hrun hchild hleads).mpr hcond
    | none =>
      rw [hchild, if_neg (by decide)] at hcond
      obtain ⟨k, rfl⟩ := hfuel hchild hleads
      obtain ⟨rfl, hmode, hroom⟩ := hcond
      exact (below_closed hm hd hrun hchild (.inl hmode)).mpr ⟨hmode, hroom⟩

/-- What is neither the directory nor one of its blocks is what it was, if and only if no second
sibling of the directory is freed. -/
theorem outside_iff {L : List Idx} (hL : Chain (nextOf m.fs) dir.blk.fpos.ref L) :
    ((∀ j, j ≠ d → m'.inos[j]? = m.inos[j]?) ∧
      ∀ p, m.fs.live p → p ∉ L → p ≠ dir.blk.pos → m'.fs.block p = m.fs.block p) ↔
    dir.blk.fpos.ino = 0 ∨ dir.blk.npos.ino = 0 ∨ (m.fs.block dir.blk.npos).npos.ino = 0 := by
  obtain ⟨-, fs', dir', h⟩ := dirRemove_done hm hd hrun
  obtain ⟨L', hL', -, -, hown⟩ := hm.chain hd
  cases hL.unique hL'
  have hfs : m'.fs = fs' := by rw [h.mount_eq]; rfl
  have hinos : ∀ j, j ≠ d → m'.inos[j]? = m.inos[j]? := by
    intro j hj
    rw [h.mount_eq]
    exact List.getElem?_set_ne (Ne.symm hj)
  rw [and_iff_right hinos, hfs]
  by_cases hf : dir.blk.fpos.ino = 0
  · -- nothing is freed
    refine iff_of_true (fun p _ _ hne => h.frame p ?_ hne) (.inl hf)
    rw [clearedBy, if_pos hf]
    exact List.not_mem_nil
  rw [or_iff_right hf]
  have hC := hm.clearedBy_eq hd hf
  by_cases hsib : dir.blk.npos.ino = 0 ∨ (m.fs.block dir.blk.npos).npos.ino = 0
  · refine iff_of_true (fun p _ hp hne => h.frame p ?_ hne) hsib
    rw [hC, if_pos hsib, List.mem_singleton]
    rintro rfl
    rw [Idx.ref_of_ne hf] at hL
    exact hp hL.head_mem
  · refine iff_of_false (fun hkept => ?_) hsib
    have hmem : (m.fs.block dir.blk.npos).npos ∈ clearedBy m.fs dir.blk := by
      rw [hC, if_neg hsib]
      exact List.mem_cons_self
    rw [not_or] at hsib
    obtain ⟨hlive, howned, hne⟩ := hm.sibling hd hsib.1 hsib.2
    have hsame := hkept _ hlive (fun hin => howned (hown _ hin)) hne
    rw [h.freed _ hmem hne] at hsame
    rw [Shfs.live, ← hsame] at hlive
    exact hlive rfl

end Cleared

end Below

/-! ## Removals -/

/-- Every entry below the directory is reported as absent. -/
def GoneBelow (env : Env) (acc : Nat → Access) (fuel : Nat) (m m' : Mount) (d : Nat) : Prop :=
  ∀ steps m1 n, EntryPath steps → Leads env acc fuel steps m d m1 n →
    ∃ m2, statBelow env acc fuel m' d steps = some (m2, .error .noent)

/-- The other open inodes are what they were, and so are the blocks in use but for the directory
and its chain. -/
def OutsideKept (m m' : Mount) (d : Nat) (dir : Block) (L : List Idx) : Prop :=
  (∀ j, j ≠ d → m'.inos[j]? = m.inos[j]?) ∧
    ∀ p, m.fs.live p → p ∉ L → p ≠ dir.pos → m'.fs.block p = m.fs.block p

/-- In every sound mount. A path for which `shfs_unlink` has returned zero is reported as absent if
and only if the format is one that is removed. Where `shfs_dir_remove` has returned zero, what is
below the directory is reported as absent if and only if it was before, in an inode that is open,
or is a file that is not open and can be made again; and what is outside of it is unaffected if and
only if it had no first block or no second sibling. -/
theorem removal_removes_iff {env : Env} {acc : Nat → Access} {m : Mount} {own : Idx → Idx}
    (hm : Mounted m own) :
    (∀ (fuel : Nat) (path : Bytes) (m1 m' : Mount) (n : Nat) (ino : Ino),
      shfsFileFind env acc fuel m path = some (m1, some n) → m1.inos[n]? = some ino →
      shfsUnlink env acc fuel m path = some (m', .done) →
      ((∃ m'', shfsStat env acc fuel m' path = some (m'', .error .noent)) ↔ Removable ino.blk)) ∧
    ∀ (fuel : Nat) (m' : Mount) (d : Nat) (dir : Ino) (L : List Idx), m.inos[d]? = some dir →
      Chain (nextOf m.fs) dir.blk.fpos.ref L → shfsDirRemove env acc fuel m d = some (m', .done) →
      (∀ fuel', GoneBelow env acc fuel' m m' d ↔
        ∀ steps m1 n, EntryPath steps → Leads env acc fuel' steps m d m1 n →
          GoneWith env m d dir.blk m1 n steps) ∧
      (OutsideKept m m' d dir.blk L ↔
        dir.blk.fpos.ino = 0 ∨ dir.blk.npos.ino = 0 ∨ (m.fs.block dir.blk.npos).npos.ino = 0) :=
  ⟨fun _ _ _ _ _ _ hfind hn hrun => unlink_reports hm hfind hn hrun,
    fun _ _ _ _ _ hd hL hrun => ⟨fun _ => below_iff hm hd hrun, outside_iff hm hd hrun hL⟩⟩

/-- A directory without entries is removed. -/
theorem removal_removes_iff_directory : ∃ m n m' m2 dir, oneEntry [0x61] .directory = some (m, n) ∧
    shfsUnlink keysByLength (fun _ => anyone) 5 m [0x61, 0x2f] = some (m', .done) ∧
    (∃ m'', shfsStat keysByLength (fun _ => anyone) 5 m' [0x61, 0x2f] = some (m'', .error .noent)) ∧
    m.inos[1]? = some dir ∧ shfsDirRemove keysByLength (fun _ => anyone) 5 m 1 = some (m2, .done) ∧
    OutsideKept m m2 1 dir.blk [] := by
  obtain ⟨⟨m, n⟩, hrun⟩ : ∃ res, oneEntry [0x61] .directory = some res :=
    Option.isSome_iff_exists.mp (by decide +kernel)
  have hdir : (oneEntry [0x61] .directory).map (fun res =>
    (res.2, res.1.inos[1]?.map fun dir => dir.blk.fpos)) =
      some (some 1, some Idx.zero) := by decide +kernel
  have hfind : (oneEntry [0x61] .directory).map (fun res =>
      (shfsFileFind keysByLength (fun _ => anyone) 5 res.1 [0x61, 0x2f]).map fun found =>
        (found.2, found.1.inos[1]?.map fun dir => dir.blk.format)) =
      some (some (some 1, some .directory)) := by decide +kernel
  have hunlink : (oneEntry [0x61] .directory).map (fun res =>
      (shfsUnlink keysByLength (fun _ => anyone) 5 res.1 [0x61, 0x2f]).map Prod.snd) =
        some (some .done) := by
    decide +kernel
  have hremove : (oneEntry [0x61] .directory).map (fun res =>
      (shfsDirRemove keysByLength (fun _ => anyone) 5 res.1 1).map Prod.snd) =
        some (some .done) := by
    decide +kernel
  rw [hrun, Option.map_some, Option.some.injEq] at hdir hfind hunlink hremove
  obtain ⟨rfl, hdir⟩ := Prod.mk.inj hdir
  obtain ⟨dir, hd, hfpos⟩ := Option.map_eq_some_iff.mp hdir
  obtain ⟨⟨m1, k⟩, hfound, hk⟩ := Option.map_eq_some_iff.mp hfind
  obtain ⟨rfl, hformat⟩ := Prod.mk.inj hk
  obtain ⟨dir1, hd1, hformat⟩ := Option.map_eq_some_iff.mp hformat
  obtain ⟨⟨m', r⟩, hunlinked, hr⟩ := Option.map_eq_some_iff.mp hunlink
  obtain rfl : r = .done := hr
  obtain ⟨⟨m2, r⟩, hremoved, hr⟩ := Option.map_eq_some_iff.mp hremove
  obtain rfl : r = .done := hr
  obtain ⟨m0, h0, h1⟩ := Option.bind_eq_some_iff.mp hrun
  obtain ⟨own, hm, -⟩ := (first_entry (ok_of_toOption h0) h1).1.filed
  have hempty : dir.blk.fpos.ino = 0 := by rw [hfpos]; rfl
  obtain ⟨hunlinks, hremoves⟩ := @removal_removes_iff keysByLength (fun _ => anyone) m own hm
  refine ⟨m, some 1, m', m2, dir, hrun, hunlinked, ?_, hd, hremoved, ?_⟩
  · exact (hunlinks 5 [0x61, 0x2f] m1 m' 1 dir1 hfound hd1 hunlinked).mpr (.inr (.inl hformat))
  · exact (hremoves 5 m2 1 dir [] hd (Idx.ref_of_eq hempty) hremoved).2.mpr (.inl hempty)

/-- A file of one byte in the root directory. -/
def namedFile : Option Mount :=
  (oneEntry [0x61] .file).bind fun res =>
    (shfsWrite keysByLength noFormats 5 res.1 1 [1] anyone).bind fun res =>
      res.2.toOption.map fun _ => res.1

/-- The file is reported as it was when it has been unlinked. -/
theorem unlinked_file_stays :
    ¬ ∀ (env : Env) (acc : Nat → Access) (fuel : Nat) (m m1 m' : Mount) (path : Bytes)
    (n : Nat) (ino : Ino), FileReached env noFormats m →
    shfsFileFind env acc fuel m path = some (m1, some n) → m1.inos[n]? = some ino →
      ino.blk.format ≠ .null →
    shfsUnlink env acc fuel m path = some (m', .done) →
    ∃ m'', shfsStat env acc fuel m' path = some (m'', .error .noent) := by
  intro hall
  obtain ⟨m, hm⟩ : ∃ m, namedFile = some m := Option.isSome_iff_exists.mp (by decide +kernel)
  have hreach : FileReached keysByLength noFormats m := by
    obtain ⟨⟨m1, n⟩, h1, h⟩ := Option.bind_eq_some_iff.mp hm
    obtain ⟨⟨m2, r⟩, h2, h⟩ := Option.bind_eq_some_iff.mp h
    obtain ⟨u, hu, rfl⟩ := Option.map_eq_some_iff.mp h
    obtain rfl : r = .ok u := ok_of_toOption hu
    have hfile : (oneEntry [0x61] .file).map (fun res => (res.2, res.1.inos[1]?.map fun file =>
        (file.blk.type, file.blk.attr, file.blk.format))) =
          some (some 1, some (.file, 0, .null)) := by decide +kernel
    rw [h1, Option.map_some, Option.some.injEq, Prod.mk.injEq] at hfile
    obtain ⟨rfl, hfile⟩ := hfile
    obtain ⟨file, hf, hblk⟩ := Option.map_eq_some_iff.mp hfile
    simp only [Prod.mk.injEq] at hblk
    obtain ⟨htype, hattr, hformat⟩ := hblk
    obtain ⟨m0, h0, h1'⟩ := Option.bind_eq_some_iff.mp h1
    exact (first_entry (ok_of_toOption h0) h1').1.write hf
      ⟨by rw [htype]; decide, by rw [hattr]; rfl, by rw [hformat]; decide⟩ h2
  have hfind : namedFile.map (fun m =>
    (shfsFileFind keysByLength (fun _ => anyone) 5 m [0x61]).map fun res =>
      (res.2, res.1.inos[1]?.map fun file => file.blk.format)) =
        some (some (some 1, some .binary)) := by
    decide +kernel
  have hunlink : namedFile.map (fun m =>
    (shfsUnlink keysByLength (fun _ => anyone) 5 m [0x61]).map fun res =>
      (res.2, (shfsStat keysByLength (fun _ => anyone) 5 res.1 [0x61]).map fun st =>
        st.2.toOption)) =
      some (some (.done, some (some ()))) := by decide +kernel
  rw [hm, Option.map_some, Option.some.injEq] at hfind hunlink
  obtain ⟨⟨m1, n⟩, h1, hfound⟩ := Option.map_eq_some_iff.mp hfind
  obtain ⟨⟨m', r⟩, h2, hdone⟩ := Option.map_eq_some_iff.mp hunlink
  simp only [Prod.mk.injEq] at hfound hdone
  obtain ⟨rfl, hfile⟩ := hfound
  obtain ⟨rfl, hstat⟩ := hdone
  obtain ⟨file, hf, hformat⟩ := Option.map_eq_some_iff.mp hfile
  obtain ⟨m'', hnoent⟩ := hall _ _ 5 m m1 m' _ 1 file hreach h1 hf (by rw [hformat]; decide) h2
  rw [hnoent] at hstat
  exact nomatch Option.some.inj hstat

end LibShare.Fs
