import LibShare.Fs.File
import LibShare.Fs.Names

/-!
# libshare — an open inode is written

`shfs_inode_write_entity` writes the copy of an open inode over its block. A client that is
alone has copies that agree with the blocks in everything that links them (`SameLinks`), so
that what it writes leaves the directories as they were: `Agreed` and `Alone` are kept, and
the salts that tokens depend on (`Alone.entity`).
-/

namespace LibShare.Fs

/-! ## Links -/

theorem SameLinks.refl (blk : Block) : SameLinks blk blk := ⟨rfl, rfl, rfl, rfl, rfl⟩

/-- Links that are the same twice are the same. -/
theorem SameLinks.trans {a b c : Block} (h : SameLinks a b) (h' : SameLinks b c) :
    SameLinks a c where
  type_eq := h'.type_eq.trans h.type_eq
  name_eq := h'.name_eq.trans h.name_eq
  pos_eq := h'.pos_eq.trans h.pos_eq
  npos_eq := h'.npos_eq.trans h.npos_eq
  fpos_eq := h'.fpos_eq.trans h.fpos_eq

/-- The blocks of a store are linked as they were. -/
structure Relinked (fs fs' : Shfs) : Prop where
  size_eq : fs'.size = fs.size
  block : ∀ p, SameLinks (fs.block p) (fs'.block p)

section Relinked

variable {fs fs' : Shfs} {own : Idx → Idx} {peer : Peer} {node root : Idx}

/-- The blocks in use are the same. -/
theorem Relinked.live (h : Relinked fs fs') (p : Idx) : fs'.live p ↔ fs.live p := by
  rw [Shfs.live, Shfs.live, (h.block p).type_eq]

/-- The chains are the same. -/
theorem Relinked.nextOf (h : Relinked fs fs') : nextOf fs' = nextOf fs := by
  funext p
  rw [Fs.nextOf, Fs.nextOf, (h.block p).npos_eq]

/-- The chains begin at the same blocks. -/
theorem Relinked.firstOf (h : Relinked fs fs') : firstOf fs' = firstOf fs := by
  funext p
  rw [Fs.firstOf, Fs.firstOf, (h.block p).fpos_eq]

/-- The store is sound still. -/
theorem Relinked.sound (h : Relinked fs fs') (hs : Sound fs own) : Sound fs' own where
  cell p hp := by
    obtain ⟨hpos, hino, hmap⟩ := hs.cell p ((h.live p).mp hp)
    refine ⟨(h.block p).pos_eq.trans hpos, hino, ?_⟩
    rwa [Shfs.inMap, h.size_eq]
  links := by
    have hlive : fs'.live = fs.live := funext fun p => propext (h.live p)
    rw [hlive, h.nextOf, h.firstOf]
    exact hs.links

/-- The directories list what they own still. -/
theorem Relinked.listed (h : Relinked fs fs') (hl : Listed fs own) : Listed fs' own where
  sound := h.sound hl.sound
  rooted p hp := by
    rw [h.live]
    exact hl.rooted p ((h.live p).mp hp)
  holder p hp hown := by
    rw [(h.block _).type_eq]
    exact hl.holder p ((h.live p).mp hp) ((h.live _).mp hown)
  distinct p q hp hq heq hname := by
    rw [(h.block p).name_eq, (h.block q).name_eq] at hname
    exact hl.distinct p q ((h.live p).mp hp) ((h.live q).mp hq) heq hname
  complete p L hp hown hL := by
    rw [h.nextOf, h.firstOf] at hL
    exact hl.complete p L ((h.live p).mp hp) ((h.live _).mp hown) hL

/-- Supernode and root are what they were. -/
theorem Relinked.super (h : Relinked fs fs') (hs : Super fs own peer node root) :
    Super fs' own peer node root where
  node_at := by
    rw [h.size_eq]
    exact hs.node_at
  node_type := (h.block node).type_eq.trans hs.node_type
  node_name := (h.block node).name_eq.trans hs.node_name
  node_fpos := (h.block node).fpos_eq.trans hs.node_fpos
  root_type := (h.block root).type_eq.trans hs.root_type
  own_root := hs.own_root
  own_node := hs.own_node

/-- A copy is a copy still. -/
theorem Relinked.copy (h : Relinked fs fs') {blk : Block} (hc : Copy fs own blk) :
    Copy fs' own blk where
  live := (h.live _).mpr hc.live
  type_eq := (h.block _).type_eq.trans hc.type_eq
  name_eq := (h.block _).name_eq.trans hc.name_eq
  npos_eq := (h.block _).npos_eq.trans hc.npos_eq
  owned := (h.live _).mpr hc.owned
  first q hq := ⟨(h.live q).mpr (hc.first q hq).1, (hc.first q hq).2⟩

/-- The store has grown by nothing. -/
theorem Relinked.grows (h : Relinked fs fs') : Grows fs own fs' own where
  live p hp := (h.live p).mpr hp
  own_eq _ _ := rfl
  name_eq p _ := (h.block p).name_eq
  type_eq p _ := (h.block p).type_eq

/-- The inode that a handle has open under a number is written, with the same links. -/
theorem Copy.relink {blk blk' : Block} (hc : Copy fs own blk) (h : SameLinks blk blk') :
    Copy fs own blk' where
  live := by
    rw [h.pos_eq]
    exact hc.live
  type_eq := by rw [h.pos_eq, hc.type_eq, h.type_eq]
  name_eq := by rw [h.pos_eq, hc.name_eq, h.name_eq]
  npos_eq := by rw [h.pos_eq, hc.npos_eq, h.npos_eq]
  owned := by
    rw [h.pos_eq]
    exact hc.owned
  first q hq := by
    rw [h.pos_eq]
    rw [h.fpos_eq] at hq
    exact hc.first q hq

end Relinked

/-! ## Writing -/

section Entity

variable {env : Env} {peer : Peer} {s : Handles Unit} {own : Idx → Idx} {node root : Idx}
  {i : Nat} {ino : Ino}
  {blk : Block}

/-- What is left when the inode under a number has been given another block and written. -/
structure EntityWritten (fs : Shfs) (inos : List Ino) (i : Nat) (ino : Ino) (blk : Block)
    (m : Mount) : Prop where
  block : m.fs.block ino.blk.pos = blk
  frame : ∀ p, p ≠ ino.blk.pos → m.fs.block p = fs.block p
  size : m.fs.size = fs.size
  inos : m.inos = inos.set i { ino with blk := blk }

/-- The inode is written: the block agrees with the copy, but for the time. -/
theorem shfsInodeWriteEntity_run {m : Mount} (hi : m.inos[i]? = some ino)
    (hmap : m.fs.inMap ino.blk.pos)
    (hpos : blk.pos = ino.blk.pos) : ∃ m' mtime,
    shfsInodeWriteEntity env (m.setBlk i ino blk) i = (m', .ok ()) ∧
      EntityWritten m.fs m.inos i ino { blk with mtime := mtime } m' := by
  have hlt : i < m.inos.length := (List.getElem?_eq_some_iff.mp hi).1
  have hget : (m.setBlk i ino blk).inos[i]? = some { ino with blk := blk } :=
    List.getElem?_set_self hlt
  have hwrite : shfsInodeWriteBlock env m.fs blk =
      ({ m.fs with writes := m.fs.writes + 1 }.store { blk with mtime := env.clock m.fs.writes },
        { blk with mtime := env.clock m.fs.writes }, .ok ()) :=
    shfsInodeWriteBlock_ok (by rw [hpos]; exact hmap)
  unfold shfsInodeWriteEntity
  rw [hget]
  dsimp only [Mount.setBlk]
  rw [hwrite]
  refine ⟨_, env.clock m.fs.writes, rfl, ?_, fun p hp => ?_, rfl, ?_⟩
  · dsimp only [Mount.put]
    rw [← hpos]
    exact Shfs.store_self _ _
  · dsimp only [Mount.put]
    exact Shfs.store_ne _ _ (by rw [hpos]; exact hp)
  · dsimp only [Mount.put]
    rw [List.set_set]

/-- The copy of an inode and its block are linked in the same way. -/
theorem Alone.sameLinks (h : Alone s.fs (s.inos ())) (hagreed : Agreed peer s own node root)
    (hi : (s.inos ())[i]? = some ino) : SameLinks (s.fs.block ino.blk.pos) ino.blk := by
  have hcopy := (hagreed.handle ()).copy i ino hi
  exact ⟨hcopy.type_eq.symm, (hagreed.listed.sound.cell _ hcopy.live).1.symm, hcopy.npos_eq.symm,
    h.current i ino hi, hcopy.name_eq.symm⟩

/-- An inode that is written to its block changes no link. -/
theorem EntityWritten.relinked {m : Mount} (h : Alone s.fs (s.inos ()))
    (hagreed : Agreed peer s own node root)
    (hi : (s.inos ())[i]? = some ino) (hlinks : SameLinks ino.blk blk)
    (hw : EntityWritten s.fs (s.inos ()) i ino blk m) : Relinked s.fs m.fs where
  size_eq := hw.size
  block p := by
    by_cases hp : p = ino.blk.pos
    · rw [hp, hw.block]
      exact (h.sameLinks hagreed hi).trans hlinks
    · rw [hw.frame p hp]
      exact .refl _

/-- A client that is alone writes an inode. -/
theorem Alone.entity {m : Mount} (h : Alone s.fs (s.inos ()))
    (hagreed : Agreed peer s own node root)
    (hi : (s.inos ())[i]? = some ino) (hlinks : SameLinks ino.blk blk)
    (hsalt : blk.salt = ino.blk.salt)
    (hw : EntityWritten s.fs (s.inos ()) i ino blk m) :
    Agreed peer (s.put () m) own node root ∧ Alone m.fs m.inos ∧ Grows s.fs own m.fs own ∧
      SaltKept s.fs m.fs := by
  have hre := hw.relinked h hagreed hi hlinks
  have hhandle := hagreed.handle ()
  have hnew : Handle m.fs own root m.inos := by
    rw [hw.inos]
    exact (hhandle.grow (fun b hb => hre.copy hb) fun _ _ => rfl).set hi
      (hre.copy ((hhandle.copy i ino hi).relink hlinks)) hlinks.pos_eq
  -- an inode in memory is the one that was written, or unchanged
  have hget : ∀ {j : Nat} {a : Ino}, m.inos[j]? = some a →
      (j = i ∧ a.blk = blk) ∨ (j ≠ i ∧ (s.inos ())[j]? = some a ∧
        m.fs.block a.blk.pos = s.fs.block a.blk.pos) := by
    intro j a ha
    rw [hw.inos] at ha
    rcases getElem?_set_cases ha with ⟨hj, rfl⟩ | ⟨hj, ha⟩
    · exact Or.inl ⟨hj, rfl⟩
    · exact Or.inr ⟨hj, ha, hw.frame _ fun heq => hj (h.apart j i a ino ha hi heq)⟩
  refine ⟨⟨hre.listed hagreed.listed, hre.super hagreed.super, fun c => ?_⟩, ⟨?_, ?_, ?_⟩,
    hre.grows, ?_⟩
  · rw [put_unit]
    exact hnew
  · intro j k a b ha hb heq
    rcases hget ha with ⟨hj, hablk⟩ | ⟨hj, ha, -⟩
    · rcases hget hb with ⟨hk, -⟩ | ⟨hk, hb, -⟩
      · rw [hj, hk]
      · rw [hablk, hlinks.pos_eq] at heq
        exact absurd (h.apart k i b ino hb hi heq.symm) hk
    · rcases hget hb with ⟨hk, hbblk⟩ | ⟨hk, hb, -⟩
      · rw [hbblk, hlinks.pos_eq] at heq
        exact absurd (h.apart j i a ino ha hi heq) hj
      · exact h.apart j k a b ha hb heq
  · intro j a ha
    rcases hget ha with ⟨-, hblk⟩ | ⟨-, ha, hframe⟩
    · rw [hblk, Current, hlinks.pos_eq, hw.block]
    · rw [Current, hframe]
      exact h.current j a ha
  · intro j a ha hne
    rcases hget ha with ⟨-, hblk⟩ | ⟨-, ha, hframe⟩
    · rw [hblk, hlinks.pos_eq, hw.block]
    · rw [hframe]
      exact h.salted j a ha hne
  · -- the salt of an inode with children is in the partition already
    intro p hp hne
    refine ⟨by rw [(hre.block p).fpos_eq]; exact hne, ?_⟩
    by_cases hpp : p = ino.blk.pos
    · rw [hpp] at hne ⊢
      rw [hw.block, hsalt]
      exact h.salted i ino hi (by rw [h.current i ino hi]; exact hne)
    · rw [hw.frame p hpp]

/-- A client that is alone gives an inode another block and writes it. -/
theorem Alone.write (h : Alone s.fs (s.inos ())) (env : Env) (hagreed : Agreed peer s own node root)
    (hi : (s.inos ())[i]? = some ino) (hlinks : SameLinks ino.blk blk)
    (hsalt : blk.salt = ino.blk.salt) :
    ∃ m mtime, shfsInodeWriteEntity env ((s.mount ()).setBlk i ino blk) i = (m, .ok ()) ∧
      EntityWritten s.fs (s.inos ()) i ino { blk with mtime := mtime } m ∧
      Agreed peer (s.put () m) own node root ∧ Alone m.fs m.inos ∧ Grows s.fs own m.fs own ∧
        SaltKept s.fs m.fs := by
  have hmap := (hagreed.listed.sound.cell _ ((hagreed.handle ()).copy i ino hi).live).2.2
  have hwritten : ∃ m mtime, shfsInodeWriteEntity env ((s.mount ()).setBlk i ino blk) i =
      (m, .ok ()) ∧ EntityWritten s.fs (s.inos ()) i ino { blk with mtime := mtime } m :=
    shfsInodeWriteEntity_run hi hmap hlinks.pos_eq
  obtain ⟨m, mtime, hrun, hw⟩ := hwritten
  have hlinks' : SameLinks ino.blk { blk with mtime := mtime } :=
    ⟨hlinks.type_eq, hlinks.pos_eq, hlinks.npos_eq, hlinks.fpos_eq, hlinks.name_eq⟩
  exact ⟨m, mtime, hrun, hw, h.entity hagreed hi hlinks' hsalt hw⟩

theorem mount_put (s : Handles Unit) (m : Mount) : (s.put () m).mount () = m := by
  rw [Handles.mount, put_unit]
  rfl

theorem put_put (s : Handles Unit) (m m' : Mount) : (s.put () m).put () m' = s.put () m' := by
  simp only [Handles.put, Function.update_idem]

end Entity

/-! ## Opening a child -/

/-- A child of an open inode, with its number: `shfs_inode`. -/
def Mount.openChild (env : Env) (fuel : Nat) (m : Mount) (i : Nat) (name : Bytes) (mode : Shinode)
    (acc : Access) :
    Option (Mount × Option (Nat × Ino)) :=
  match shfsInode env fuel m i name mode acc with
  | none => none
  | some (m, none) => some (m, none)
  | some (m, some n) => some (m, m.inos[n]?.map fun child => (n, child))

/-- An inode under a number is the one that it has been, but for its children. -/
structure SameIno (a b : Ino) : Prop where
  pos_eq : b.blk.pos = a.blk.pos
  name_eq : b.blk.name = a.blk.name
  salt_eq : b.blk.salt = a.blk.salt

/-- The child that a name leads to has been opened. -/
structure ChildOpened (env : Env) (m : Mount) (own : Idx → Idx) (i : Nat) (dir : Ino) (name : Bytes)
    (mode : Shinode)
    (n : Nat) (child : Ino) : Prop where
  get : m.inos[n]? = some child
  parent : child.parent = some i
  key : child.blk.name = childKey env dir.blk name mode
  named : Named env m.fs own dir.blk.pos child.blk.pos name mode
  dir_open : ∃ a, m.inos[i]? = some a ∧ SameIno dir a

section Child

variable {env : Env} {peer : Peer} {fuel : Nat} {s : Handles Unit} {own : Idx → Idx}
  {node root : Idx} {i n : Nat}
  {dir child : Ino} {name : Bytes} {mode : Shinode} {acc : Access} {m : Mount}
  {r : Option (Nat × Ino)}

/-- An open inode below another open one has it as its parent. -/
theorem Alone.parent_eq (h : Alone s.fs (s.inos ())) (hagreed : Agreed peer s own node root)
    (hi : (s.inos ())[i]? = some dir) (hn : (s.inos ())[n]? = some child)
    (hown : own child.blk.pos = dir.blk.pos) :
    child.parent = some i := by
  have hhandle := hagreed.handle ()
  cases hpar : child.parent with
  | none =>
    -- the root directory is below the supernode, which is not open
    rw [hhandle.top n child hn hpar, hagreed.super.own_root] at hown
    exact absurd hown.symm (hagreed.super.ne_node hagreed.listed.sound (hhandle.copy i dir hi))
  | some k =>
    obtain ⟨-, pino, hk, hpown⟩ := hhandle.parent n k child hn hpar
    rw [h.apart k i pino dir hk hi (by rw [← hpown, hown])]

/-- An open child is found again. -/
theorem Alone.findChild_eq (h : Alone s.fs (s.inos ())) (hagreed : Agreed peer s own node root)
    (hn : (s.inos ())[n]? = some child) (hpar : child.parent = some i) :
    findChild (s.mount ()) i child.blk.name = some n := by
  have hhandle := hagreed.handle ()
  cases hfind : findChild (s.mount ()) i child.blk.name with
  | none =>
    have hfalse := List.findIdx?_eq_none_iff.mp hfind child (List.mem_of_getElem? hn)
    simp [hpar] at hfalse
  | some k =>
    obtain ⟨hlt, hchild, -⟩ := List.findIdx?_eq_some_iff_getElem.mp hfind
    simp only [decide_eq_true_eq] at hchild
    have hget := List.getElem?_eq_getElem hlt
    obtain ⟨-, p, hp, hown⟩ := hhandle.parent n i child hn hpar
    obtain ⟨-, q, hq, hown'⟩ := hhandle.parent k i _ hget hchild.1
    rw [hp, Option.some.injEq] at hq
    have hcopy := hhandle.copy k _ hget
    have hcopy' := hhandle.copy n child hn
    -- a directory has one child with the key
    have hpos := hagreed.listed.distinct _ _ hcopy.live hcopy'.live (by rw [hown, hown', hq])
      (by rw [hcopy.name_eq, hcopy'.name_eq, hchild.2])
    rw [h.apart k n _ child hget hn hpos]

/-- A child is opened by a client that stays alone. -/
theorem Alone.openChild (h : Alone s.fs (s.inos ())) (hagreed : Agreed peer s own node root)
    (hi : (s.inos ())[i]? = some dir)
    (hrun : (s.mount ()).openChild env fuel i name mode acc = some (m, r)) :
    ∃ own', Agreed peer (s.put () m) own' node root ∧ Alone m.fs m.inos ∧ Grows s.fs own m.fs own' ∧
      SaltKept s.fs m.fs ∧ ((r = none ∧ m = s.mount () ∧
        shfsInode env fuel (s.mount ()) i name mode acc = some (s.mount (), none)) ∨
        ∃ n child, r = some (n, child) ∧ shfsInode env fuel (s.mount ()) i name mode acc =
          some (m, some n) ∧ ChildOpened env m own' i dir name mode n child) := by
  unfold Mount.openChild at hrun
  split at hrun
  · cases hrun
  · next hres =>
    cases hrun
    obtain ⟨own', hagreed', hgrows, -⟩ := hagreed.inode (h.fresh _) hres
    obtain ⟨halone', hsalt, -⟩ := h.inode hagreed hres
    refine ⟨own', hagreed', halone', hgrows, hsalt, Or.inl ?_⟩
    rcases hagreed.inode_cases (h.fresh _) hres with ⟨hsame, -⟩ | ⟨ino, -, -, hn, -⟩
    · dsimp only at hsame
      rw [hsame] at hres
      exact ⟨rfl, hsame, hres⟩
    · cases hn
  · next n hres =>
    cases hrun
    obtain ⟨own', hagreed', hgrows, hchild⟩ := hagreed.inode (h.fresh _) hres
    obtain ⟨halone', hsalt, hparent⟩ := h.inode hagreed hres
    obtain ⟨ino, child, hi', hn, hown, hname⟩ := hchild n rfl
    rw [hi, Option.some.injEq] at hi'
    subst hi'
    obtain ⟨a, ha, hapos, hasalt⟩ := hparent dir hi
    obtain ⟨hnamed, -⟩ :=
      Alone.named_child hagreed hi hagreed' halone' hgrows ha hapos hasalt hn hown hname
    have hcopy := (hagreed.handle ()).copy i dir hi
    have hhandle := hagreed'.handle ()
    rw [put_unit] at hhandle
    have haname : a.blk.name = dir.blk.name := by
      rw [← (hhandle.copy i a ha).name_eq, ← hcopy.name_eq, hapos]
      exact hgrows.name_eq _ hcopy.live
    have hpar : child.parent = some i := by
      rw [← put_unit s m] at halone' ha hn
      exact halone'.parent_eq hagreed' ha hn (by rw [hown, hapos])
    exact ⟨own', hagreed', halone', hgrows, hsalt,
      Or.inr ⟨n, child, by rw [hn]; rfl, hres, hn, hpar, hname, hnamed, a, ha, hapos, haname,
        hasalt⟩⟩

end Child

end LibShare.Fs
