import LibShare.Fs.Handles

/-!
# libshare — clients that share a directory

Any number of clients work on one partition, each through a handle of its own.
`Agreed` is the invariant of their calls: the directories list what they own, and
every open inode of every handle is a copy of a block.

A client that creates a child while its copy of the directory is out of date takes
the children away that other clients have created since (`stale_copy_loses_child`).
`Fresh` is the condition on a call that excludes this, and `created_child_found` the
result: in a run of such calls every child that a client has opened or created is
found through a handle that is opened afterwards.
-/

namespace LibShare.Fs

/-! ## The supernode -/

/-- The supernode is the last block of the initial journal, and it refers to the
root directory. -/
structure Super (fs : Shfs) (own : Idx → Idx) (peer : Peer) (node root : Idx) : Prop where
  node_at : node.jno = 0 ∧ node.ino + 1 = fs.size 0 ∧ node.ino ≠ 0
  node_type : (fs.block node).type = .partition
  node_name : (fs.block node).name = peer.key
  node_fpos : (fs.block node).fpos = root
  root_type : (fs.block root).type = .directory
  own_root : own root = node
  own_node : own node = Idx.zero

section Super

variable {env : Env} {fs fs' : Shfs} {own : Idx → Idx} {peer : Peer} {node root : Idx}

/-- The supernode is in use. -/
theorem Super.live_node (h : Super fs own peer node root) : fs.live node := by
  rw [Shfs.live, h.node_type]
  decide

/-- The root is in use. -/
theorem Super.live_root (h : Super fs own peer node root) : fs.live root := by
  rw [Shfs.live, h.root_type]
  decide

/-- The supernode is no open inode: nothing owns it. -/
theorem Super.ne_node (h : Super fs own peer node root) (hs : Sound fs own) {blk : Block}
    (hcopy : Copy fs own blk) : blk.pos ≠ node := by
  intro heq
  have hlive := hcopy.owned
  rw [heq, h.own_node] at hlive
  exact (hs.cell _ hlive).2.1 rfl

/-- A partition that has been created is found, and its root directory is read. -/
theorem Super.shfsInit (h : Super fs own peer node root) (hs : Sound fs own) (salt : UInt16) :
    shfsInit env peer salt fs =
      .ok { fs := fs, inos := [{ blk := fs.block root, parent := none }] } := by
  obtain ⟨hjno, hino, hne⟩ := h.node_at
  have hnode : ({ jno := 0, ino := node.ino } : Idx) = node := by rw [← hjno]
  have hscan : shfsScanPartition fs peer = .ok (fs.block node) := by
    rw [shfsScanPartition, ← hino, scanPartition, if_neg hne, hnode,
      shfsInodeReadBlock_ok (hs.cell _ h.live_node).2.2]
    simp only [h.node_type, h.node_name]
    rfl
  rw [Fs.shfsInit, hscan]
  simp only [initRoot, h.node_fpos, shfsInodeReadBlock_ok (hs.cell _ h.live_root).2.2]
  rw [if_pos h.root_type]

/-- A new child changes neither the supernode nor the root. -/
theorem Super.grow (h : Super fs own peer node root) (hs : Sound fs own) {parent pblk blk : Block}
    {L : List Idx} (hcopy : Copy fs own parent) (hnew : NewChild fs fs' own parent pblk blk L) :
    Super fs' (Function.update own blk.pos parent.pos) peer node root := by
  have hframe : fs'.block node = fs.block node :=
    hnew.frame _ (hnew.ne_child h.live_node) (Ne.symm (h.ne_node hs hcopy))
  refine ⟨?_, ?_, ?_, ?_, ?_, ?_, ?_⟩
  · rw [hnew.size_eq]
    exact h.node_at
  · rw [hframe, h.node_type]
  · rw [hframe, h.node_name]
  · rw [hframe, h.node_fpos]
  · rw [(hnew.kept hcopy h.live_root).1, h.root_type]
  · rw [hnew.own_eq h.live_root, h.own_root]
  · rw [hnew.own_eq h.live_node, h.own_node]

end Super

/-! ## A handle -/

theorem getElem?_concat_cases {α : Type} {l : List α} {x a : α} {j : Nat}
    (h : (l ++ [x])[j]? = some a) : l[j]? = some a ∨ j = l.length ∧ a = x := by
  rw [List.getElem?_append] at h
  split at h
  · exact Or.inl h
  · have hlt := (List.getElem?_eq_some_iff.mp h).1
    rw [List.length_singleton] at hlt
    exact Or.inr ⟨by omega, List.mem_singleton.mp (List.mem_of_getElem? h)⟩

theorem getElem?_set_cases {α : Type} {l : List α} {x a : α} {i j : Nat}
    (h : (l.set i x)[j]? = some a) : j = i ∧ a = x ∨ j ≠ i ∧ l[j]? = some a := by
  have hlt := (List.getElem?_eq_some_iff.mp h).1
  rw [List.length_set] at hlt
  by_cases hj : j = i
  · rw [hj, List.getElem?_set_self (hj ▸ hlt), Option.some.injEq] at h
    exact Or.inl ⟨hj, h.symm⟩
  · rw [List.getElem?_set_ne (Ne.symm hj)] at h
    exact Or.inr ⟨hj, h⟩

/-- The open inodes of a handle are copies. The one without an open parent is the
root directory. -/
structure Handle (fs : Shfs) (own : Idx → Idx) (root : Idx) (inos : List Ino) : Prop where
  copy : ∀ (i : Nat) (ino : Ino), inos[i]? = some ino → Copy fs own ino.blk
  parent : ∀ (i k : Nat) (ino : Ino), inos[i]? = some ino → ino.parent = some k →
    k < i ∧ ∃ pino, inos[k]? = some pino ∧ own ino.blk.pos = pino.blk.pos
  top : ∀ (i : Nat) (ino : Ino), inos[i]? = some ino → ino.parent = none → ino.blk.pos = root

section Handle

variable {fs fs' : Shfs} {own own' : Idx → Idx} {root : Idx} {inos inos' : List Ino}

/-- The inodes stay as they are while the store grows. -/
theorem Handle.grow (h : Handle fs own root inos)
    (hcopy : ∀ blk, Copy fs own blk → Copy fs' own' blk)
    (hown : ∀ p, fs.live p → own' p = own p) : Handle fs' own' root inos := by
  refine ⟨fun i ino hi => hcopy _ (h.copy i ino hi), fun i k ino hi hpar => ?_, h.top⟩
  obtain ⟨hlt, pino, hp, heq⟩ := h.parent i k ino hi hpar
  exact ⟨hlt, pino, hp, by rw [hown _ (h.copy i ino hi).live, heq]⟩

/-- The copy of an inode is replaced. -/
theorem Handle.set (h : Handle fs own root inos) {i : Nat} {ino : Ino} {blk : Block}
    (hi : inos[i]? = some ino) (hcopy : Copy fs own blk) (hpos : blk.pos = ino.blk.pos) :
    Handle fs own root (inos.set i { ino with blk := blk }) := by
  have hlt : i < inos.length := (List.getElem?_eq_some_iff.mp hi).1
  have hback : ∀ (j : Nat) (a : Ino), (inos.set i { ino with blk := blk })[j]? = some a →
      Copy fs own a.blk ∧ ∃ b, inos[j]? = some b ∧ a.blk.pos = b.blk.pos ∧ a.parent = b.parent := by
    intro j a ha
    rcases getElem?_set_cases ha with ⟨rfl, rfl⟩ | ⟨-, ha⟩
    · exact ⟨hcopy, ino, hi, hpos, rfl⟩
    · exact ⟨h.copy j a ha, a, ha, rfl, rfl⟩
  have hforth : ∀ (j : Nat) (b : Ino), inos[j]? = some b →
      ∃ a, (inos.set i { ino with blk := blk })[j]? = some a ∧ a.blk.pos = b.blk.pos := by
    intro j b hb
    by_cases hj : j = i
    · subst hj
      rw [hi, Option.some.injEq] at hb
      rw [List.getElem?_set_self hlt, ← hb]
      exact ⟨_, rfl, hpos⟩
    · rw [List.getElem?_set_ne (Ne.symm hj)]
      exact ⟨b, hb, rfl⟩
  refine ⟨fun j a ha => (hback j a ha).1, fun j k a ha hpar => ?_, fun j a ha hpar => ?_⟩
  · obtain ⟨-, b, hb, hab, hparent⟩ := hback j a ha
    obtain ⟨hlt, p, hp, hown⟩ := h.parent j k b hb (by rw [← hparent, hpar])
    obtain ⟨p', hp', hpp⟩ := hforth k p hp
    exact ⟨hlt, p', hp', by rw [hab, hown, hpp]⟩
  · obtain ⟨-, b, hb, hab, hparent⟩ := hback j a ha
    rw [hab]
    exact h.top j b hb (by rw [← hparent, hpar])

/-- An inode is opened below another one. -/
theorem Handle.concat (h : Handle fs own root inos) {i : Nat} {ino : Ino} {blk : Block}
    (hi : inos[i]? = some ino) (hcopy : Copy fs own blk) (hown : own blk.pos = ino.blk.pos) :
    Handle fs own root (inos ++ [{ blk := blk, parent := some i }]) := by
  have hput : ∀ (j : Nat) (a : Ino), inos[j]? = some a →
      (inos ++ [({ blk := blk, parent := some i } : Ino)])[j]? = some a := by
    intro j a ha
    rw [List.getElem?_append_left (List.getElem?_eq_some_iff.mp ha).1, ha]
  refine ⟨fun j a ha => ?_, fun j k a ha hpar => ?_, fun j a ha hpar => ?_⟩
  · rcases getElem?_concat_cases ha with ha | ⟨-, rfl⟩
    · exact h.copy j a ha
    · exact hcopy
  · rcases getElem?_concat_cases ha with ha | ⟨rfl, rfl⟩
    · obtain ⟨hlt, p, hp, heq⟩ := h.parent j k a ha hpar
      exact ⟨hlt, p, hput k p hp, heq⟩
    · rw [Option.some.injEq] at hpar
      subst hpar
      exact ⟨(List.getElem?_eq_some_iff.mp hi).1, ino, hput i ino hi, hown⟩
  · rcases getElem?_concat_cases ha with ha | ⟨-, rfl⟩
    · exact h.top j a ha hpar
    · cases hpar

/-- A new handle has the root directory open. -/
theorem Handle.of_root {peer : Peer} {node : Idx} (hs : Sound fs own)
    (h : Super fs own peer node root) :
    Handle fs own root [{ blk := fs.block root, parent := none }] := by
  have honly : ∀ (i : Nat) (ino : Ino),
      [({ blk := fs.block root, parent := none } : Ino)][i]? = some ino →
      ino = { blk := fs.block root, parent := none } := by
    intro i ino hi
    exact List.mem_singleton.mp (List.mem_of_getElem? hi)
  refine ⟨fun i ino hi => ?_, fun i k ino hi hpar => ?_, fun i ino hi _ => ?_⟩
  · rw [honly i ino hi]
    exact Copy.of_stored hs h.live_root (by rw [h.own_root]; exact h.live_node)
  · rw [honly i ino hi] at hpar
    cases hpar
  · rw [honly i ino hi]
    exact (hs.cell _ h.live_root).1

/-! ## Forgetting inodes -/

/-- Some of the inodes are left, in the same order: `f` says which. -/
structure Renumbered (inos inos' : List Ino) (f : Nat → Nat) : Prop where
  mono : StrictMono f
  get : ∀ (j : Nat) (a : Ino), inos'[j]? = some a →
    ∃ b, inos[f j]? = some b ∧ a.blk = b.blk ∧ b.parent = a.parent.map f

/-- Numbers that change twice. -/
theorem Renumbered.trans {inos'' : List Ino} {f g : Nat → Nat} (h : Renumbered inos inos' f)
    (h' : Renumbered inos' inos'' g) : Renumbered inos inos'' (f ∘ g) := by
  refine ⟨h.mono.comp h'.mono, fun j a ha => ?_⟩
  obtain ⟨b, hb, hblk, hpar⟩ := h'.get j a ha
  obtain ⟨c, hc, hblk', hpar'⟩ := h.get (g j) b hb
  exact ⟨c, hc, hblk.trans hblk', by rw [hpar', hpar, Option.map_map]⟩

/-- An inode without open children is released. -/
theorem renumbered_erase {i : Nat} (hleaf : ∀ ino ∈ inos, ino.parent ≠ some i) :
    Renumbered inos (eraseIno inos i) fun j => if j < i then j else j + 1 := by
  refine ⟨fun j k hjk => ?_, fun j a ha => ?_⟩
  · split <;> split <;> omega
  rw [eraseIno, List.getElem?_map, List.getElem?_eraseIdx] at ha
  obtain ⟨b, hb, rfl⟩ := Option.map_eq_some_iff.mp ha
  refine ⟨b, ?_, rfl, ?_⟩
  · split at hb
    · rw [if_pos ‹_›, hb]
    · rw [if_neg ‹_›, hb]
  · have hmem : b ∈ inos := by
      split at hb <;> exact List.mem_of_getElem? hb
    have hne := hleaf b hmem
    cases hpar : b.parent with
    | none => rfl
    | some k =>
      have hki : k ≠ i := by
        rintro rfl
        exact hne hpar
      simp only [Option.map_some, Option.some.injEq]
      split <;> split <;> omega

/-- An inode that is closed renumbers the others. -/
theorem renumbered_free : ∀ {fuel i : Nat} {inos inos' : List Ino},
    shfsInodeFree fuel inos i = some inos' → ∃ f, Renumbered inos inos' f := by
  intro fuel
  induction fuel with
  | zero =>
    intro i inos inos' h
    cases h
  | succ fuel ih =>
    intro i inos inos' h
    rw [shfsInodeFree] at h
    split at h
    · next hnone =>
      cases h
      refine ⟨_, renumbered_erase fun ino hin hpar => ?_⟩
      have := List.findIdx?_eq_none_iff.mp hnone ino hin
      simp [hpar] at this
    · next c hc =>
      split at h
      · cases h
      · next inos1 h1 =>
        obtain ⟨f, hf⟩ := ih h1
        obtain ⟨g, hg⟩ := ih h
        exact ⟨f ∘ g, hf.trans hg⟩

/-- A handle whose numbers have changed is a handle. -/
theorem Handle.renumber (h : Handle fs own root inos) {f : Nat → Nat}
    (hr : Renumbered inos inos' f) : Handle fs own root inos' := by
  refine ⟨fun j a ha => ?_, fun j k a ha hpar => ?_, fun j a ha hpar => ?_⟩
  · obtain ⟨b, hb, hblk, -⟩ := hr.get j a ha
    rw [hblk]
    exact h.copy _ b hb
  · obtain ⟨b, hb, hblk, hbpar⟩ := hr.get j a ha
    rw [hpar] at hbpar
    obtain ⟨hlt, p, hp, hown⟩ := h.parent _ _ b hb hbpar
    have hkj : k < j := hr.mono.lt_iff_lt.mp hlt
    -- the parent has been left too: it comes first
    have hklt : k < inos'.length := Nat.lt_trans hkj (List.getElem?_eq_some_iff.mp ha).1
    obtain ⟨p', hp', hpblk, -⟩ := hr.get k _ (List.getElem?_eq_getElem hklt)
    rw [hp, Option.some.injEq] at hp'
    refine ⟨hkj, _, List.getElem?_eq_getElem hklt, ?_⟩
    rw [hblk, hown, hpblk, hp']
  · obtain ⟨b, hb, hblk, hbpar⟩ := hr.get j a ha
    rw [hblk]
    exact h.top _ b hb (by rw [hbpar, hpar]; rfl)

end Handle

/-! ## A new partition -/

/-- On an empty store the partition is a new one. -/
theorem shfsInit_empty (env : Env) (peer : Peer) (salt : UInt16) :
    shfsInit env peer salt Shfs.empty = shfsInitNew env peer.key peer.rootKey peer.raw salt := by
  have hscan : shfsScanPartition Shfs.empty peer = .error .noent := rfl
  unfold shfsInit shfsInitNew initSuper
  simp only [hscan]
  cases hnode : scanRetry Shfs.empty 0 with
  | error err => rfl
  | ok c =>
  obtain ⟨fs0, pos⟩ := c
  obtain ⟨hjno, htop, heq, -⟩ := scanRetry_ok hnode
  simp only
  cases hroot : shfsJournalScan env fs0.born peer.key with
  | error err => rfl
  | ok c =>
  obtain ⟨fs1, fpos⟩ := c
  obtain ⟨hjno1, htop1, heq1, hle1⟩ := shfsJournalScan_ok hroot
  have hmap : fs1.inMap pos := ⟨htop.inMap.1, Nat.lt_of_lt_of_le htop.inMap.2 (hle1 _)⟩
  have hne : fpos ≠ pos := by
    have := env.journalIndex_pos peer.key
    rintro rfl
    omega
  -- the block of the root directory is still free
  have hblock : fs1.block = fun _ => Block.zero := by
    rw [heq1]
    show fs0.block = _
    rw [heq]
    rfl
  have hwrite : ∀ node : Block, node.pos = pos → shfsInodeWriteBlock env fs1 node =
      ({ fs1 with writes := fs1.writes + 1 }.store { node with mtime := env.clock fs1.writes },
        { node with mtime := env.clock fs1.writes }, .ok ()) := by
    intro node hpos
    exact shfsInodeWriteBlock_ok (by rw [hpos]; exact hmap)
  have hread : ∀ node : Block, node.pos = pos →
      shfsInodeReadBlock ({ fs1 with writes := fs1.writes + 1 }.store node) fpos =
        .ok Block.zero := by
    intro node hpos
    have hin : (({ fs1 with writes := fs1.writes + 1 } : Shfs).store node).inMap fpos := htop1.inMap
    rw [shfsInodeReadBlock_ok hin, Shfs.store_ne _ _ (by rw [hpos]; exact hne)]
    show Except.ok (fs1.block fpos) = _
    rw [hblock]
  simp only
  rw [hwrite _ (by rfl)]
  simp only [initRoot]
  rw [hread _ (by rfl)]
  rfl

section New

variable {m : Mount} {peerKey : ShKey} {node root : Idx}

/-- The directories of a new partition list what they own. -/
theorem NewPartition.listed (h : NewPartition m peerKey node root) :
    Listed m.fs (newOwner node root) := by
  have hroot : newOwner node root root = node := if_pos rfl
  have hnode : newOwner node root node = Idx.zero := if_neg (Ne.symm h.apart)
  have hzero : ¬ m.fs.live Idx.zero := fun hl => (h.sound.cell _ hl).2.1 rfl
  refine ⟨h.sound, fun p hp => ?_, fun p hp hpo => ?_, fun p q hp hq heq _ => ?_,
    fun p L hp hpo hL => ?_⟩
  · rcases (h.live_iff p).mp hp with rfl | rfl
    · exact Or.inr hnode
    · rw [hroot]
      exact Or.inl ((h.live_iff _).mpr (Or.inl rfl))
  · rcases (h.live_iff p).mp hp with rfl | rfl
    · rw [hnode] at hpo
      exact absurd hpo hzero
    · rw [hroot, h.node_type]
      rfl
  · have hdiff : node ≠ Idx.zero := fun hz => hzero (hz ▸ (h.live_iff _).mpr (Or.inl rfl))
    rcases (h.live_iff p).mp hp with rfl | rfl <;> rcases (h.live_iff q).mp hq with rfl | rfl
    · rfl
    · rw [hnode, hroot] at heq
      exact absurd heq.symm hdiff
    · rw [hnode, hroot] at heq
      exact absurd heq hdiff
    · rfl
  · rcases (h.live_iff p).mp hp with rfl | rfl
    · rw [hnode] at hpo
      exact absurd hpo hzero
    · rw [hroot, h.firstOf_node] at hL
      exact hL.head_mem

/-- A new partition has its supernode and its root. -/
theorem NewPartition.super {peer : Peer} (h : NewPartition m peer.key node root) :
    Super m.fs (newOwner node root) peer node root :=
  ⟨h.node_at, h.node_type, h.node_name, h.node_links.2.2, h.root_type, if_pos rfl,
    if_neg (Ne.symm h.apart)⟩

end New

/-! ## Calls -/

/-- The directories of the partition list what they own, and the open inodes of all
handles are copies. -/
structure Agreed {κ : Type} (peer : Peer) (s : Handles κ) (own : Idx → Idx) (node root : Idx) :
    Prop where
  listed : Listed s.fs own
  super : Super s.fs own peer node root
  handle : ∀ c, Handle s.fs own root (s.inos c)

/-- A call that creates a child has a copy of its parent that knows the first child.
Calls that find the child, in memory or in the partition, are free. -/
def Fresh {κ : Type} (env : Env) (s : Handles κ) : HandleOp κ → Prop
  | .inode c i name mode _ => ∀ ino fuel, (s.inos c)[i]? = some ino →
    findChild (s.mount c) i (childKey env ino.blk name mode) = none →
    shfsLinkFind fuel s.fs ino.blk (childKey env ino.blk name mode) = some (.error .noent) →
    Current s.fs ino.blk
  | _ => True

section Calls

variable {κ : Type} {env : Env} {peer : Peer} {fuel : Nat} {s : Handles κ} {own : Idx → Idx}
  {node root : Idx} {c : κ}

/-- No handle is open on a new partition. -/
theorem NewPartition.agreed {m : Mount} (h : NewPartition m peer.key node root) :
    Agreed peer ({ fs := m.fs, inos := fun _ => [] } : Handles κ)
      (newOwner node root) node root := by
  refine ⟨h.listed, h.super, fun c => ⟨?_, ?_, ?_⟩⟩
  · intro i ino hi
    cases hi
  · intro i k ino hi
    cases hi
  · intro i ino hi
    cases hi

/-- Handles of a new partition agree. -/
theorem agreed_new (h : NewHandles env peer s) : ∃ own node root, Agreed peer s own node root := by
  obtain ⟨salt, m, hinit, rfl⟩ := h
  rw [shfsInit_empty] at hinit
  obtain ⟨node, root, hnew⟩ := newPartition hinit
  exact ⟨newOwner node root, node, root, hnew.agreed⟩

/-- What `shfs_inode` does through one of the handles: nothing, open a child that
the copy of the parent leads to, or link a new one. -/
theorem Agreed.inode_cases {i : Nat} {name : Bytes} {mode : Shinode} {acc : Access}
    {res : Mount × Option Nat} (h : Agreed peer s own node root)
    (hfresh : Fresh env s (.inode c i name mode acc))
    (hrun : shfsInode env fuel (s.mount c) i name mode acc = some res) :
    (res.1 = s.mount c ∧ ∀ n, res.2 = some n → ∃ ino, (s.inos c)[i]? = some ino ∧
      findChild (s.mount c) i (childKey env ino.blk name mode) = some n) ∨
    ∃ ino, (s.inos c)[i]? = some ino ∧
      findChild (s.mount c) i (childKey env ino.blk name mode) = none ∧
      res.2 = some (s.inos c).length ∧
      ((∃ p, s.fs.live p ∧ own p = ino.blk.pos ∧
        (s.fs.block p).name = childKey env ino.blk name mode ∧
        res.1 = { fs := s.fs, inos := s.inos c ++ [{ blk := s.fs.block p, parent := some i }] }) ∨
      ∃ fs' pblk blk L, Current s.fs ino.blk ∧ ino.blk.type.isContainer = true ∧
        Chain (nextOf s.fs) ino.blk.fpos.ref L ∧ (∀ p ∈ L, (s.fs.block p).name ≠ blk.name) ∧
        NewChild s.fs fs' own ino.blk pblk blk L ∧ blk.name = childKey env ino.blk name mode ∧
        blk.raw = (childInode env ino.blk name mode).raw ∧
        res.1 =
          { fs := fs'
            inos := (s.inos c).set i { ino with blk := pblk } ++
              [{ blk := { blk with owner := acc.owner, attr := acc.attr, salt := acc.salt }
                 parent := some i }] }) := by
  have hsound := h.listed.sound
  have htype : ∀ ino : Ino, (childInode env ino.blk name mode).type ≠ .null := fun _ =>
    inodePath_ne_null name mode
  rcases shfsInode_split hrun with hsame | ⟨ino, hi, hnone, hcont, hn, ⟨blk, hfind, hres⟩ |
    ⟨fs', pblk, blk, hnoent, hlink, hres⟩⟩ | ⟨ino, fs', pblk, blk, err, hi, hlink, hres⟩
  · exact Or.inl hsame
  · -- the child is found in the chain on the disk
    have hcopy := (h.handle c).copy i ino hi
    obtain ⟨L, hL, hall, hown⟩ := hsound.chain hcopy.first
    obtain ⟨p, hp, hblk, hkey⟩ := linkFindLoop_ok hL hall hfind
    refine Or.inr ⟨ino, hi, hnone, hn, Or.inl ⟨p, (hall p hp).1, hown p hp, ?_, ?_⟩⟩
    · rw [← hblk, hkey]
    · rw [hres, hblk]
      rfl
  · -- it is not there: the copy in memory is current, and a block is linked
    have hcopy := (h.handle c).copy i ino hi
    obtain ⟨L, hL, hall, hown⟩ := hsound.chain hcopy.first
    have hcur : Current s.fs ino.blk := by
      refine hfresh ino fuel hi hnone ?_
      rw [shfsLinkFind, if_pos hcont]
      exact hnoent
    obtain ⟨hnew, hbname⟩ := hcopy.linkNew hsound (htype ino) rfl hL hall hown hlink
    obtain ⟨-, _, _, _, _, _, hblk⟩ := linkNew_eq hlink
    refine Or.inr ⟨ino, hi, hnone, hn, Or.inr ⟨fs', pblk, blk, L, hcur, hcont, hL, ?_, hnew, hbname,
      by rw [hblk], ?_⟩⟩
    · rw [hbname]
      exact linkFindLoop_noent hL hall hnoent
    · rw [hres]
      rfl
  · -- a position has not been found: nothing has been written
    have hcopy := (h.handle c).copy i ino hi
    obtain ⟨L, hL, hall, hown⟩ := hsound.chain hcopy.first
    have hmap := (hsound.cell _ hcopy.live).2.2
    rcases linkNew_spec hL hall hmap (htype ino) rfl hlink with ⟨-, rfl, rfl⟩ | ⟨hcon, -⟩
    · have hself : (s.mount c).put i ino (s.fs, ino.blk, .error err) = s.mount c :=
        put_self hi (.error err)
      left
      rw [hres, hself]
      exact ⟨rfl, fun n hn => by cases hn⟩
    · cases hcon

/-- A call of `shfs_inode` returns. -/
theorem Agreed.inode_returns (h : Agreed peer s own node root) (c : κ) (i : Nat) (name : Bytes)
    (mode : Shinode) (acc : Access) :
    ∃ k, ∀ fuel, k ≤ fuel → ∃ res, shfsInode env fuel (s.mount c) i name mode acc = some res := by
  cases hi : (s.inos c)[i]? with
  | none =>
    refine ⟨0, fun fuel _ => ⟨(s.mount c, none), ?_⟩⟩
    simp only [shfsInode, Handles.mount, hi]
  | some ino =>
    obtain ⟨L, hL, hall, -⟩ := h.listed.sound.chain ((h.handle c).copy i ino hi).first
    refine ⟨L.length + 1, fun fuel hfuel => ?_⟩
    have hfind : ∀ key, ∃ r, shfsLinkFind fuel s.fs ino.blk key = some r := by
      intro key
      unfold shfsLinkFind
      split
      · rw [linkFindLoop_find hL hall (by omega)]
        exact ⟨_, rfl⟩
      · exact ⟨_, rfl⟩
    unfold shfsInode
    simp only [Handles.mount, hi]
    split
    · exact ⟨_, rfl⟩
    · obtain ⟨r, hr⟩ :=
        hfind (env.token ino.blk.name ino.blk.salt (inodePath name mode).2 (inodePath name mode).1)
      rw [hr]
      split
      · next hnone => cases hnone
      · exact ⟨_, rfl⟩
      · next hnoent =>
        rw [← hr] at hnoent
        rw [shfsLink_noent hnoent]
        split
        · next hnone => cases hnone
        · exact ⟨_, rfl⟩
        · exact ⟨_, rfl⟩
      · exact ⟨_, rfl⟩

variable [DecidableEq κ]

/-- One handle changes, and the partition does not. -/
theorem Agreed.put (h : Agreed peer s own node root) {inos : List Ino}
    (hc : Handle s.fs own root inos) :
    Agreed peer (s.put c { fs := s.fs, inos := inos }) own node root := by
  refine ⟨h.listed, h.super, fun d => ?_⟩
  show Handle s.fs own root (Function.update s.inos c inos d)
  by_cases hd : d = c
  · rw [hd, Function.update_self]
    exact hc
  · rw [Function.update_of_ne hd]
    exact h.handle d

/-- A partition that is opened keeps the handles in agreement. -/
theorem Agreed.init {salt : UInt16} {m : Mount} (h : Agreed peer s own node root)
    (hrun : shfsInit env peer salt s.fs = .ok m) : Agreed peer (s.put c m) own node root := by
  rw [h.super.shfsInit h.listed.sound, Except.ok.injEq] at hrun
  rw [← hrun]
  exact h.put (.of_root h.listed.sound h.super)

/-- An inode that is closed keeps the handles in agreement. -/
theorem Agreed.free {i : Nat} {inos : List Ino} (h : Agreed peer s own node root)
    (hrun : shfsInodeFree fuel (s.inos c) i = some inos) :
    Agreed peer (s.put c { fs := s.fs, inos := inos }) own node root := by
  obtain ⟨f, hf⟩ := renumbered_free hrun
  exact h.put ((h.handle c).renumber hf)

/-- A block below an open inode is opened. -/
theorem Agreed.opened {i : Nat} {ino : Ino} {p : Idx} (h : Agreed peer s own node root)
    (hi : (s.inos c)[i]? = some ino) (hp : s.fs.live p) (hpown : own p = ino.blk.pos) :
    Agreed peer
      (s.put c { fs := s.fs, inos := s.inos c ++ [{ blk := s.fs.block p, parent := some i }] }) own
      node root := by
  have hpos := (h.listed.sound.cell p hp).1
  have hlive : s.fs.live (own p) := by
    rw [hpown]
    exact ((h.handle c).copy i ino hi).live
  exact h.put ((h.handle c).concat hi (.of_stored h.listed.sound hp hlive) (by rw [hpos, hpown]))

/-- A child is linked below an open inode whose copy knows the first child. -/
theorem Agreed.linked {i : Nat} {ino : Ino} {fs' : Shfs} {pblk blk : Block} {L : List Idx}
    (h : Agreed peer s own node root) (hi : (s.inos c)[i]? = some ino) (hcur : Current s.fs ino.blk)
    (hcont : ino.blk.type.isContainer = true) (hL : Chain (nextOf s.fs) ino.blk.fpos.ref L)
    (hkeys : ∀ p ∈ L, (s.fs.block p).name ≠ blk.name)
    (hnew : NewChild s.fs fs' own ino.blk pblk blk L)
    (acc : Access) :
    Agreed peer
      (s.put c
        { fs := fs'
          inos := (s.inos c).set i { ino with blk := pblk } ++
            [{ blk := { blk with owner := acc.owner, attr := acc.attr, salt := acc.salt }
               parent := some i }] })
      (Function.update own blk.pos ino.blk.pos) node root := by
  have hcopy := (h.handle c).copy i ino hi
  have hppos : pblk.pos = ino.blk.pos := by
    obtain ⟨mtime, hpblk⟩ := hnew.parent_eq
    rw [hpblk]
  have hlt : i < (s.inos c).length := (List.getElem?_eq_some_iff.mp hi).1
  have hgrow : ∀ d, Handle fs' (Function.update own blk.pos ino.blk.pos) root (s.inos d) :=
    fun d => (h.handle d).grow (fun b hb => hb.grow hcopy hnew) fun p hp => hnew.own_eq hp
  refine ⟨h.listed.link hcopy hcur hcont hL hkeys hnew, h.super.grow h.listed.sound hcopy hnew,
    fun d => ?_⟩
  show Handle fs' _ root (Function.update s.inos c _ d)
  by_cases hd : d = c
  · rw [hd, Function.update_self]
    refine ((hgrow c).set hi (hnew.copy_parent hcopy) hppos).concat (List.getElem?_set_self hlt)
      (hnew.copy_child hcopy acc) ?_
    rw [Function.update_self, hppos]
  · rw [Function.update_of_ne hd]
    exact hgrow d

/-- A call of `shfs_inode`. What it returns is a child of the inode that it was given. -/
theorem Agreed.inode {i : Nat} {name : Bytes} {mode : Shinode} {acc : Access}
    {res : Mount × Option Nat} (h : Agreed peer s own node root)
    (hfresh : Fresh env s (.inode c i name mode acc))
    (hrun : shfsInode env fuel (s.mount c) i name mode acc = some res) :
    ∃ own', Agreed peer (s.put c res.1) own' node root ∧ Grows s.fs own res.1.fs own' ∧
      ∀ n, res.2 = some n → ∃ ino child, (s.inos c)[i]? = some ino ∧
        res.1.inos[n]? = some child ∧ own' child.blk.pos = ino.blk.pos ∧
        child.blk.name = childKey env ino.blk name mode := by
  rcases h.inode_cases hfresh hrun with ⟨hsame, hopen⟩ | ⟨ino, hi, -, hn,
      ⟨p, hp, hpown, hname, hres⟩ |
    ⟨fs', pblk, blk, L, hcur, hcont, hL, hkeys, hnew, hbname, -, hres⟩⟩
  · refine ⟨own, ?_, ?_, fun n hn => ?_⟩
    · rw [hsame]
      exact h.put (h.handle c)
    · rw [hsame]
      exact .refl _ _
    · obtain ⟨ino, hi, hfind⟩ := hopen n hn
      obtain ⟨hlt, hchild, -⟩ := List.findIdx?_eq_some_iff_getElem.mp hfind
      simp only [decide_eq_true_eq] at hchild
      have hget := List.getElem?_eq_getElem hlt
      obtain ⟨-, pino, hp, hown⟩ := (h.handle c).parent n i _ hget hchild.1
      rw [hi, Option.some.injEq] at hp
      refine ⟨ino, _, hi, by rw [hsame]; exact hget, by rw [hown, hp], hchild.2⟩
  · have hown : own (s.fs.block p).pos = ino.blk.pos := by rw [(h.listed.sound.cell p hp).1, hpown]
    refine ⟨own, ?_, ?_, fun n hn' => ?_⟩
    · rw [hres]
      exact h.opened hi hp hpown
    · rw [hres]
      exact .refl _ _
    · rw [hn, Option.some.injEq] at hn'
      rw [← hn', hres]
      exact ⟨ino, _, hi, List.getElem?_concat_length .., hown, hname⟩
  · refine ⟨Function.update own blk.pos ino.blk.pos, ?_, ?_, fun n hn' => ?_⟩
    · rw [hres]
      exact h.linked hi hcur hcont hL hkeys hnew acc
    · rw [hres]
      exact hnew.grows ((h.handle c).copy i ino hi)
    · rw [hn, Option.some.injEq] at hn'
      rw [← hn', hres]
      refine ⟨ino, { blk := { blk with owner := acc.owner, attr := acc.attr, salt := acc.salt }
                     parent := some i }, hi, ?_, Function.update_self .., hbname⟩
      have hlen : (s.inos c).length = ((s.inos c).set i { ino with blk := pblk }).length :=
        List.length_set.symm
      rw [hlen, List.getElem?_concat_length]

/-- A fresh call keeps the handles in agreement, and every child stays listed. -/
theorem Agreed.step {s' : Handles κ} {op : HandleOp κ} (h : Agreed peer s own node root)
    (hfresh : Fresh env s op) (hrun : op.run env peer fuel s = some s') :
    ∃ own', Agreed peer s' own' node root ∧ Grows s.fs own s'.fs own' := by
  cases op with
  | init c salt =>
    obtain ⟨m, hm, rfl⟩ := Option.map_eq_some_iff.mp hrun
    have hm := ok_of_toOption hm
    refine ⟨own, h.init hm, ?_⟩
    rw [h.super.shfsInit h.listed.sound, Except.ok.injEq] at hm
    rw [← hm]
    exact .refl _ _
  | inode c i name mode acc =>
    obtain ⟨res, hres, rfl⟩ := Option.map_eq_some_iff.mp hrun
    obtain ⟨own', hagreed, hgrows, -⟩ := h.inode hfresh hres
    exact ⟨own', hagreed, hgrows⟩
  | free c i =>
    obtain ⟨inos, hinos, rfl⟩ := Option.map_eq_some_iff.mp hrun
    exact ⟨own, h.free hinos, .refl _ _⟩

/-- A fresh run keeps the handles in agreement, by induction on the run. -/
theorem Agreed.run {s' : Handles κ} (h : Agreed peer s own node root)
    (hrun : HandleRun env peer (Fresh env) s s') :
    ∃ own', Agreed peer s' own' node root ∧ Grows s.fs own s'.fs own' := by
  induction hrun with
  | refl => exact ⟨own, h, .refl _ _⟩
  | step _ hfresh hstep ih =>
    obtain ⟨own1, hagreed, hgrows⟩ := ih
    obtain ⟨own2, hagreed', hgrows'⟩ := hagreed.step hfresh hstep
    exact ⟨own2, hagreed', hgrows.trans hgrows'⟩

/-- The root directory of a handle that has just been opened. -/
theorem Agreed.fresh_init {s' : Handles κ} {salt : UInt16} (h : Agreed peer s own node root)
    (hrun : (HandleOp.init c salt).run env peer fuel s = some s') (i : Nat) (name : Bytes)
    (mode : Shinode) (acc : Access) : Fresh env s' (.inode c i name mode acc) := by
  obtain ⟨m, hm, rfl⟩ := Option.map_eq_some_iff.mp hrun
  have hm := ok_of_toOption hm
  rw [h.super.shfsInit h.listed.sound, Except.ok.injEq] at hm
  intro ino _ hi _ _
  rw [← hm] at hi ⊢
  simp only [Handles.put, Function.update_self] at hi
  rw [List.mem_singleton.mp (List.mem_of_getElem? hi)]
  show (s.fs.block root).fpos = (s.fs.block (s.fs.block root).pos).fpos
  rw [(h.listed.sound.cell _ h.super.live_root).1]

/-- In a run of calls that create children below copies that know the first child,
every child that was opened or created is found through what a handle that is opened
afterwards reads of the directory. -/
theorem created_child_found {s0 s2 : Handles κ} {m1 : Mount} {i n : Nat} {name : Bytes}
    {mode : Shinode} {acc : Access} (h0 : NewHandles env peer s0)
    (hrun : HandleRun env peer (Fresh env) s0 s) (hfresh : Fresh env s (.inode c i name mode acc))
    (hcall : shfsInode env fuel (s.mount c) i name mode acc = some (m1, some n))
    (hrest : HandleRun env peer (Fresh env) (s.put c m1) s2) :
    ∃ ino child, (s.inos c)[i]? = some ino ∧ m1.inos[n]? = some child ∧
      ∃ k, ∀ fuel, k ≤ fuel → ∃ blk,
        shfsLinkFind fuel s2.fs (s2.fs.block ino.blk.pos) child.blk.name = some (.ok blk) ∧
        blk.pos = child.blk.pos := by
  -- before the call, after it, and at the end: the clients agree on who owns what
  obtain ⟨own0, node, root, hagreed0⟩ := agreed_new h0
  obtain ⟨own, hagreed, -⟩ := hagreed0.run hrun
  obtain ⟨own1, hagreed1, -, hchild⟩ := hagreed.inode hfresh hcall
  obtain ⟨own2, hagreed2, hgrows⟩ := hagreed1.run hrest
  obtain ⟨ino, child, hi, hn, hown, -⟩ := hchild n rfl
  refine ⟨ino, child, hi, hn, ?_⟩
  have hcopy : Copy m1.fs own1 child.blk := by
    refine (hagreed1.handle c).copy n child ?_
    show (Function.update s.inos c m1.inos c)[n]? = some child
    rw [Function.update_self]
    exact hn
  -- what the call has left is kept by the rest of the run
  have hlive := hgrows.live _ hcopy.live
  have hown2 : own2 child.blk.pos = ino.blk.pos := by rw [hgrows.own_eq _ hcopy.live, hown]
  have hname : (s2.fs.block child.blk.pos).name = child.blk.name := by
    rw [hgrows.name_eq _ hcopy.live]
    exact hcopy.name_eq
  have hdir : s2.fs.live (own2 child.blk.pos) := by
    rw [hgrows.own_eq _ hcopy.live]
    exact hgrows.live _ hcopy.owned
  obtain ⟨k, hfind⟩ := hagreed2.listed.find hlive hdir
  refine ⟨k, fun fuel hk => ⟨_, ?_, (hagreed2.listed.sound.cell _ hlive).1⟩⟩
  rw [← hname, ← hown2]
  exact hfind fuel _ hk rfl rfl

end Calls

/-- Keys that are the first byte of the name, in one journal. -/
def initialKeys : Env :=
  { oneJournal with token := fun _ _ _ path => { ashkeyBlank with alg := (path.headD 0).toUInt16 } }

/-- A peer. -/
def somePeer : Peer := { key := ashkeyBlank, raw := [], rootKey := ashkeyBlank }

/-- What a new inode is given. -/
def noAccess : Access := { owner := ashkeyBlank, attr := 0, salt := 0 }

/-- A new partition without open handles. -/
def newHandles (κ : Type) (env : Env) : Option (Handles κ) :=
  (shfsInit env somePeer 0 Shfs.empty).toOption.map fun m => { fs := m.fs, inos := fun _ => [] }

/-- The sample has been made anew. -/
theorem newHandles_new {κ : Type} {env : Env} {s : Handles κ} (h : newHandles κ env = some s) :
    NewHandles env somePeer s := by
  obtain ⟨m, hm, rfl⟩ := Option.map_eq_some_iff.mp h
  exact ⟨0, m, ok_of_toOption hm, rfl⟩

/-- A call in front of a run. -/
theorem HandleRun.head {κ : Type} [DecidableEq κ] {env : Env} {peer : Peer} {fuel : Nat}
    {ok : Handles κ → HandleOp κ → Prop} {s s' s'' : Handles κ} {op : HandleOp κ} (hok : ok s op)
    (hstep : op.run env peer fuel s = some s') (hrun : HandleRun env peer ok s' s'') :
    HandleRun env peer ok s s'' := by
  induction hrun with
  | refl => exact .step (.refl s) hok hstep
  | step _ hok' hstep' ih => exact .step ih hok' hstep'

/-- Calls in order. -/
def runHandles {κ : Type} [DecidableEq κ] (env : Env) (ops : List (HandleOp κ)) (s : Handles κ) :
    Option (Handles κ) :=
  ops.foldlM (fun s op => op.run env somePeer 5 s) s

/-- What is computed is a run. -/
theorem runHandles_run {κ : Type} [DecidableEq κ] {env : Env} :
    ∀ {ops : List (HandleOp κ)} {s s' : Handles κ}, runHandles env ops s = some s' →
    HandleRun env somePeer (fun _ _ => True) s s' := by
  intro ops
  induction ops with
  | nil =>
    intro s s' h
    cases h
    exact .refl s
  | cons op ops ih =>
    intro s s' h
    obtain ⟨s1, h1, h2⟩ := Option.bind_eq_some_iff.mp h
    exact .head trivial h1 (ih h2)

/-- One client creates a child, and another one opens a handle then and creates one
too. -/
theorem created_child_found_both : ∃ (s0 s s2 : Handles Bool) (m1 : Mount) (ino child : Ino),
    NewHandles initialKeys somePeer s0 ∧
    HandleRun initialKeys somePeer (Fresh initialKeys) s0 s ∧
    HandleRun initialKeys somePeer (Fresh initialKeys) (s.put true m1) s2 ∧
    (s2.inos false).length = 2 ∧ (s.inos true)[0]? = some ino ∧ m1.inos[1]? = some child ∧
    ∃ k, ∀ fuel, k ≤ fuel → ∃ blk,
      shfsLinkFind fuel s2.fs (s2.fs.block ino.blk.pos) child.blk.name = some (.ok blk) ∧
      blk.pos = child.blk.pos := by
  have hall : ((newHandles Bool initialKeys).bind fun s0 =>
      ((HandleOp.init true 0).run initialKeys somePeer 5 s0).bind fun s =>
      (shfsInode initialKeys 5 (s.mount true) 0 [120] .file noAccess).bind fun r =>
      ((HandleOp.init false 0).run initialKeys somePeer 5 (s.put true r.1)).bind fun s1 =>
      ((HandleOp.inode false 0 [121] .file noAccess).run initialKeys somePeer 5 s1).map fun s2 =>
        (r.2, (s2.inos false).length)) = some (some 1, 2) := by decide +kernel
  obtain ⟨s0, h0, hall⟩ := Option.bind_eq_some_iff.mp hall
  obtain ⟨s, h1, hall⟩ := Option.bind_eq_some_iff.mp hall
  obtain ⟨⟨m1, n⟩, h2, hall⟩ := Option.bind_eq_some_iff.mp hall
  obtain ⟨s1, h3, hall⟩ := Option.bind_eq_some_iff.mp hall
  obtain ⟨s2, h4, hall⟩ := Option.map_eq_some_iff.mp hall
  rw [Prod.mk.injEq] at hall
  obtain ⟨rfl, hlen⟩ := hall
  have hnew := newHandles_new h0
  obtain ⟨own, node, root, hagreed⟩ := agreed_new hnew
  have hrun : HandleRun initialKeys somePeer (Fresh initialKeys) s0 s :=
    .step (.refl s0) (show Fresh initialKeys s0 (.init true 0) from trivial) h1
  have hfresh := hagreed.fresh_init h1 0 [120] .file noAccess
  obtain ⟨own', hagreed', -⟩ := hagreed.run hrun
  obtain ⟨own1, hagreed1, -, -⟩ := hagreed'.inode hfresh h2
  have hrest : HandleRun initialKeys somePeer (Fresh initialKeys) (s.put true m1) s2 :=
    .step (.step (.refl _) (show Fresh initialKeys _ (.init false 0) from trivial) h3)
      (hagreed1.fresh_init h3 0 [121] .file noAccess) h4
  obtain ⟨ino, child, hi, hn, hfound⟩ := created_child_found hnew hrun hfresh h2 hrest
  exact ⟨s0, s, s2, m1, ino, child, hnew, hrun, hrest, hlen, hi, hn, hfound⟩

/-- Two clients with the root directory open. The second one creates a child after
the first one has, and the child of the first one is not found any more. -/
theorem stale_copy_loses_child : ¬ ∀ (env : Env) (peer : Peer) (s0 s s2 : Handles Bool) (c : Bool)
    (i n fuel : Nat) (name : Bytes) (mode : Shinode) (acc : Access) (m1 : Mount) (ino child : Ino),
    NewHandles env peer s0 → HandleRun env peer (fun _ _ => True) s0 s →
    shfsInode env fuel (s.mount c) i name mode acc = some (m1, some n) →
    HandleRun env peer (fun _ _ => True) (s.put c m1) s2 →
    (s.inos c)[i]? = some ino → m1.inos[n]? = some child →
    ∃ k blk, shfsLinkFind k s2.fs (s2.fs.block ino.blk.pos) child.blk.name = some (.ok blk) := by
  intro h
  have hrun : ∃ s0 s m1 s2, newHandles Bool initialKeys = some s0 ∧
      runHandles initialKeys [.init true 0, .init false 0] s0 = some s ∧
      shfsInode initialKeys 5 (s.mount true) 0 [120] .file noAccess = some (m1, some 1) ∧
      runHandles initialKeys [.inode false 0 [121] .file noAccess] (s.put true m1) = some s2 ∧
      ((s.inos true)[0]?.bind fun ino => m1.inos[1]?.bind fun child =>
        (shfsLinkFind 5 s2.fs (s2.fs.block ino.blk.pos) child.blk.name).map fun r =>
          r.toOption.isSome) = some false := by
    have hall : ((newHandles Bool initialKeys).bind fun s0 =>
        (runHandles initialKeys [.init true 0, .init false 0] s0).bind fun s =>
        (shfsInode initialKeys 5 (s.mount true) 0 [120] .file noAccess).bind fun r =>
        (runHandles initialKeys [.inode false 0 [121] .file noAccess]
          (s.put true r.1)).bind fun s2 =>
        if r.2 = some 1 then
          (s.inos true)[0]?.bind fun ino => r.1.inos[1]?.bind fun child =>
            (shfsLinkFind 5 s2.fs (s2.fs.block ino.blk.pos) child.blk.name).map fun r =>
              r.toOption.isSome
        else none) = some false := by decide +kernel
    obtain ⟨s0, h0, hall⟩ := Option.bind_eq_some_iff.mp hall
    obtain ⟨s, h1, hall⟩ := Option.bind_eq_some_iff.mp hall
    obtain ⟨⟨m1, n⟩, h2, hall⟩ := Option.bind_eq_some_iff.mp hall
    obtain ⟨s2, h3, hall⟩ := Option.bind_eq_some_iff.mp hall
    split at hall
    · next hn =>
      obtain rfl : n = some 1 := hn
      exact ⟨s0, s, m1, s2, h0, h1, h2, h3, hall⟩
    · cases hall
  obtain ⟨s0, s, m1, s2, h0, h1, h2, h3, hlost⟩ := hrun
  obtain ⟨ino, hi, hlost⟩ := Option.bind_eq_some_iff.mp hlost
  obtain ⟨child, hn, hlost⟩ := Option.bind_eq_some_iff.mp hlost
  obtain ⟨r, hr, hfail⟩ := Option.map_eq_some_iff.mp hlost
  obtain ⟨k, blk, hfind⟩ := h _ _ s0 s s2 true 0 1 5 _ _ _ m1 ino child (newHandles_new h0)
    (runHandles_run h1) h2 (runHandles_run h3) hi hn
  have hone := shfsLinkFind_mono hfind (Nat.le_max_left k 5)
  rw [shfsLinkFind_mono hr (Nat.le_max_right k 5), Option.some.injEq] at hone
  rw [hone] at hfail
  cases hfail

end LibShare.Fs
