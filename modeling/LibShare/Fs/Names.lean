import LibShare.Fs.Clients

/-!
# libshare — the names of a single client

A client that is alone on its partition. The token of a child is made from the
token and the salt of its parent, the type and the path (`shfs_token_init`), and
the salt of a new inode is chosen after its block has been written: it reaches the
partition when the inode is written for another reason.

The reason is always the same: a child has been linked below it. So a salt that a
token depends on is in the partition (`Alone.salted`), and an inode that is read
back without its salt has no children yet. From this and from the directories
listing what they own it follows that names are persistent
(`names_persist`): what a name has been opened as once, it is opened as again, after
any calls, and after the partition has been closed and opened.
-/

namespace LibShare.Fs

/-! ## Tokens (`shfs_token_init`) -/

/-- The value of an inode type. -/
def Shinode.code : Shinode → UInt32
  | .null => 0
  | .app => 100
  | .partition => 101
  | .peer => 102
  | .archive => 104
  | .reference => 105
  | .metadata => 106
  | .directory => 107
  | .aux => 108
  | .file => 109
  | .binary => 110
  | .compress => 112
  | .crypt => 113
  | .database => 114
  | .access => 115
  | .fileLock => 116
  | .license => 117
  | .ext => 118
  | .repository => 120
  | .revision => 121
  | .delta => 122
  | .object => 130
  | .objectKey => 131
  | .test => 140
  | .device => 150

/-- What `shfs_token_init` makes the key of a child from: the parent's token, the
type, the path with its terminator, and the parent's salt. -/
def tokenBytes (name : ShKey) (salt : UInt16) (mode : Shinode) (path : Bytes) : Bytes :=
  name.toBytes ++ (leBytes32 mode.code ++ (path ++ (0 :: leBytes16 salt)))

/-- The inode types. -/
def Shinode.all : List Shinode :=
  [.null, .app, .partition, .peer, .archive, .reference, .metadata, .directory, .aux, .file,
    .binary, .compress, .crypt, .database, .access, .fileLock, .license, .ext, .repository,
    .revision, .delta, .object, .objectKey, .test, .device]

/-- A type is found by its code. -/
theorem Shinode.find_code (mode : Shinode) :
    Shinode.all.find? (fun m => m.code == mode.code) = some mode := by
  cases mode <;> rfl

/-- Types are told apart by their codes. -/
theorem Shinode.code_inj {mode mode' : Shinode} (h : mode.code = mode'.code) : mode = mode' := by
  have hfind := mode.find_code
  rw [h, mode'.find_code, Option.some.injEq] at hfind
  exact hfind.symm

/-- What a token is made of tells types and paths apart. -/
theorem tokenBytes_inj {name name' : ShKey} {salt salt' : UInt16} {mode mode' : Shinode}
    {path path' : Bytes} (h : tokenBytes name salt mode path = tokenBytes name' salt' mode' path') :
    mode = mode' ∧ path = path' := by
  obtain ⟨-, hrest⟩ := List.append_inj h (by rw [length_toBytes, length_toBytes])
  obtain ⟨hcode, hrest⟩ := List.append_inj hrest rfl
  obtain ⟨hpath, -⟩ := List.append_inj' hrest rfl
  refine ⟨Shinode.code_inj ?_, hpath⟩
  rw [← leWord32_leBytes32 mode.code, hcode, leWord32_leBytes32]

/-! ## A client alone -/

/-- The open inodes of a client that is alone: a block is open once, its copy knows
the first child, and a copy with children has the salt of the block. -/
structure Alone (fs : Shfs) (inos : List Ino) : Prop where
  apart : ∀ (i j : Nat) (a b : Ino), inos[i]? = some a → inos[j]? = some b →
    a.blk.pos = b.blk.pos → i = j
  current : ∀ (i : Nat) (ino : Ino), inos[i]? = some ino → Current fs ino.blk
  salted : ∀ (i : Nat) (ino : Ino), inos[i]? = some ino → ino.blk.fpos.ino ≠ 0 →
    ino.blk.salt = (fs.block ino.blk.pos).salt

/-- An inode with children keeps its salt. -/
def SaltKept (fs fs' : Shfs) : Prop :=
  ∀ p, fs.live p → (fs.block p).fpos.ino ≠ 0 →
    (fs'.block p).fpos.ino ≠ 0 ∧ (fs'.block p).salt = (fs.block p).salt

/-- Nothing has changed. -/
theorem SaltKept.refl (fs : Shfs) : SaltKept fs fs := fun _ _ h => ⟨h, rfl⟩

/-- Salts that are kept twice are kept. -/
theorem SaltKept.trans {fs fs' fs'' : Shfs} {own own' : Idx → Idx} (h : SaltKept fs fs')
    (hgrows : Grows fs own fs' own') (h' : SaltKept fs' fs'') : SaltKept fs fs'' := by
  intro p hp hne
  obtain ⟨hne1, hsalt⟩ := h p hp hne
  obtain ⟨hne2, hsalt'⟩ := h' p (hgrows.live p hp) hne1
  exact ⟨hne2, hsalt'.trans hsalt⟩

section Alone

variable {env : Env} {peer : Peer} {fuel : Nat} {s s' : Handles Unit} {own : Idx → Idx}
  {node root : Idx}

/-- A client that is alone has fresh copies, so that every call is. -/
theorem Alone.fresh (h : Alone s.fs (s.inos ())) (op : HandleOp Unit) : Fresh env s op := by
  cases op with
  | init | free => trivial
  | inode c i name mode acc => exact fun ino _ hi _ _ => h.current i ino hi

/-- Numbers do not matter to whether a client is alone. -/
theorem Alone.renumber {fs : Shfs} {inos inos' : List Ino} {f : Nat → Nat} (h : Alone fs inos)
    (hr : Renumbered inos inos' f) : Alone fs inos' := by
  refine ⟨fun i j a b hi hj hpos => ?_, fun i a hi => ?_, fun i a hi hne => ?_⟩
  · obtain ⟨a', ha, hablk, -⟩ := hr.get i a hi
    obtain ⟨b', hb, hbblk, -⟩ := hr.get j b hj
    exact hr.mono.injective (h.apart _ _ a' b' ha hb (by rw [← hablk, ← hbblk, hpos]))
  · obtain ⟨a', ha, hblk, -⟩ := hr.get i a hi
    rw [hblk]
    exact h.current _ a' ha
  · obtain ⟨a', ha, hblk, -⟩ := hr.get i a hi
    rw [hblk] at hne ⊢
    exact h.salted _ a' ha hne

/-- A handle that has just been opened. -/
theorem Alone.of_root {fs : Shfs} {own : Idx → Idx} (hs : Sound fs own)
    (h : Super fs own peer node root) :
    Alone fs [{ blk := fs.block root, parent := none }] := by
  have hpos := (hs.cell _ h.live_root).1
  have honly : ∀ (i : Nat) (ino : Ino),
      [({ blk := fs.block root, parent := none } : Ino)][i]? = some ino →
      i = 0 ∧ ino = { blk := fs.block root, parent := none } := by
    intro i ino hi
    have hlt := (List.getElem?_eq_some_iff.mp hi).1
    exact ⟨Nat.lt_one_iff.mp hlt, List.mem_singleton.mp (List.mem_of_getElem? hi)⟩
  refine ⟨fun i j a b hi hj _ => ?_, fun i a hi => ?_, fun i a hi _ => ?_⟩
  · rw [(honly i a hi).1, (honly j b hj).1]
  · rw [(honly i a hi).2, Current, hpos]
  · rw [(honly i a hi).2, hpos]

/-- A block that is found below an inode and not among its open children is not open. -/
theorem Alone.not_open (h : Alone s.fs (s.inos ())) (hagreed : Agreed peer s own node root)
    {i j : Nat} {ino a : Ino} {p : Idx} {key : ShKey} (hi : (s.inos ())[i]? = some ino)
    (hown : own p = ino.blk.pos) (hname : (s.fs.block p).name = key)
    (hnone : findChild (s.mount ()) i key = none) (ha : (s.inos ())[j]? = some a) :
    a.blk.pos ≠ p := by
  intro hpos
  have hhandle := hagreed.handle ()
  cases hpar : a.parent with
  | none =>
    -- the root directory is below the supernode, which is not open
    have hroot := hhandle.top j a ha hpar
    rw [hpos] at hroot
    rw [hroot, hagreed.super.own_root] at hown
    exact hagreed.super.ne_node hagreed.listed.sound (hhandle.copy i ino hi) hown.symm
  | some k =>
    obtain ⟨-, pino, hp, hpown⟩ := hhandle.parent j k a ha hpar
    have hki : k = i := by
      refine h.apart k i pino ino hp hi ?_
      rw [← hpown, hpos, hown]
    have haname : a.blk.name = key := by rw [← (hhandle.copy j a ha).name_eq, hpos, hname]
    have hfalse := List.findIdx?_eq_none_iff.mp hnone a (List.mem_of_getElem? ha)
    simp [hpar, hki, haname] at hfalse

/-- A child of the partition is opened. -/
theorem Alone.opened (h : Alone s.fs (s.inos ())) (hagreed : Agreed peer s own node root)
    {i : Nat} {ino : Ino} {p : Idx} {key : ShKey} (hi : (s.inos ())[i]? = some ino)
    (hp : s.fs.live p) (hown : own p = ino.blk.pos) (hname : (s.fs.block p).name = key)
    (hnone : findChild (s.mount ()) i key = none) :
    Alone s.fs (s.inos () ++ [{ blk := s.fs.block p, parent := some i }]) := by
  have hpos := (hagreed.listed.sound.cell p hp).1
  have hnew : ∀ (j : Nat) (a : Ino), (s.inos ())[j]? = some a →
      a.blk.pos ≠ (s.fs.block p).pos := by
    intro j a ha
    rw [hpos]
    exact h.not_open hagreed hi hown hname hnone ha
  refine ⟨fun j k a b ha hb heq => ?_, fun j a ha => ?_, fun j a ha hne => ?_⟩
  · rcases getElem?_concat_cases ha with ha | ⟨rfl, rfl⟩
    · rcases getElem?_concat_cases hb with hb | ⟨-, rfl⟩
      · exact h.apart j k a b ha hb heq
      · exact absurd heq (hnew j a ha)
    · rcases getElem?_concat_cases hb with hb | ⟨rfl, -⟩
      · exact absurd heq.symm (hnew k b hb)
      · rfl
  · rcases getElem?_concat_cases ha with ha | ⟨-, rfl⟩
    · exact h.current j a ha
    · rw [Current, hpos]
  · rcases getElem?_concat_cases ha with ha | ⟨-, rfl⟩
    · exact h.salted j a ha hne
    · rw [hpos]

end Alone

/-! ## A new child -/

section Linked

variable {fs fs' : Shfs} {own : Idx → Idx} {inos : List Ino} {i : Nat} {ino : Ino}
  {pblk blk : Block} {L : List Idx}

/-- The open inodes after a child has been linked: the parent, the child, and those
whose blocks have not changed. -/
theorem NewChild.get (h : NewChild fs fs' own ino.blk pblk blk L) (halone : Alone fs inos)
    (hcopy : ∀ (j : Nat) (a : Ino), inos[j]? = some a → Copy fs own a.blk)
    (hi : inos[i]? = some ino) {acc : Access} {j : Nat} {a : Ino}
    (ha : (inos.set i { ino with blk := pblk } ++
      [{ blk := { blk with owner := acc.owner, attr := acc.attr, salt := acc.salt }
         parent := some i }])[j]? = some a) :
    (j = i ∧ a.blk = pblk) ∨
    (j = inos.length ∧
      a.blk = { blk with owner := acc.owner, attr := acc.attr, salt := acc.salt }) ∨
    (inos[j]? = some a ∧ fs'.block a.blk.pos = fs.block a.blk.pos) := by
  rcases getElem?_concat_cases ha with ha | ⟨hj, rfl⟩
  · rcases getElem?_set_cases ha with ⟨hj, rfl⟩ | ⟨hj, ha⟩
    · exact Or.inl ⟨hj, rfl⟩
    · refine Or.inr (Or.inr ⟨ha, h.frame _ (h.ne_child (hcopy j a ha).live) fun heq => hj ?_⟩)
      exact halone.apart j i a ino ha hi heq
  · rw [List.length_set] at hj
    exact Or.inr (Or.inl ⟨hj, rfl⟩)

/-- A new child leaves the client alone. -/
theorem Alone.linked (halone : Alone fs inos) (h : NewChild fs fs' own ino.blk pblk blk L)
    (hcopy : ∀ (j : Nat) (a : Ino), inos[j]? = some a → Copy fs own a.blk)
    (hi : inos[i]? = some ino) (acc : Access) :
    Alone fs' (inos.set i { ino with blk := pblk } ++
      [{ blk := { blk with owner := acc.owner, attr := acc.attr, salt := acc.salt }
         parent := some i }]) := by
  obtain ⟨mtime, hpblk⟩ := h.parent_eq
  have hppos : pblk.pos = ino.blk.pos := by rw [hpblk]
  -- where an inode of the new list was before, if it was open
  have hwas : ∀ {j : Nat} {a : Ino}, (inos.set i { ino with blk := pblk } ++
      [{ blk := { blk with owner := acc.owner, attr := acc.attr, salt := acc.salt }
         parent := some i }])[j]? = some a →
      (∃ b, inos[j]? = some b ∧ a.blk.pos = b.blk.pos) ∨ j = inos.length ∧ a.blk.pos = blk.pos := by
    intro j a ha
    rcases h.get halone hcopy hi ha with ⟨rfl, hblk⟩ | ⟨hj, hblk⟩ | ⟨ha, -⟩
    · exact Or.inl ⟨ino, hi, by rw [hblk, hppos]⟩
    · exact Or.inr ⟨hj, by rw [hblk]⟩
    · exact Or.inl ⟨a, ha, rfl⟩
  refine ⟨fun j k a b ha hb heq => ?_, fun j a ha => ?_, fun j a ha hne => ?_⟩
  · rcases hwas ha with ⟨a', ha', hapos⟩ | ⟨hj, hapos⟩
    · rcases hwas hb with ⟨b', hb', hbpos⟩ | ⟨-, hbpos⟩
      · exact halone.apart j k a' b' ha' hb' (by rw [← hapos, heq, hbpos])
      · exact absurd (by rw [← hapos, heq, hbpos]) (h.ne_child (hcopy j a' ha').live)
    · rcases hwas hb with ⟨b', hb', hbpos⟩ | ⟨hk, -⟩
      · exact absurd (by rw [← hbpos, ← heq, hapos]) (h.ne_child (hcopy k b' hb').live)
      · rw [hj, hk]
  · rcases h.get halone hcopy hi ha with ⟨-, hblk⟩ | ⟨-, hblk⟩ | ⟨ha, hframe⟩
    · rw [hblk, Current, hppos, h.parent_block]
    · rw [hblk, Current, h.child_block]
    · rw [Current, hframe]
      exact halone.current j a ha
  · rcases h.get halone hcopy hi ha with ⟨-, hblk⟩ | ⟨-, hblk⟩ | ⟨ha, hframe⟩
    · rw [hblk, hppos, h.parent_block]
    · -- a new inode has no children
      rw [hblk, h.child_fpos] at hne
      exact absurd rfl hne
    · rw [hframe]
      exact halone.salted j a ha hne

/-- A new child leaves the salts that tokens depend on. -/
theorem NewChild.saltKept (h : NewChild fs fs' own ino.blk pblk blk L) (halone : Alone fs inos)
    (hi : inos[i]? = some ino) : SaltKept fs fs' := by
  intro p hp hne
  by_cases hpp : p = ino.blk.pos
  · obtain ⟨mtime, hpblk⟩ := h.parent_eq
    have hfirst : firstOf fs' ino.blk.pos = some blk.pos := h.chain.1
    rw [firstOf] at hfirst
    rw [hpp] at hne ⊢
    refine ⟨(Idx.ref_eq_some hfirst).2, ?_⟩
    rw [h.parent_block, hpblk]
    exact halone.salted i ino hi (by rw [halone.current i ino hi]; exact hne)
  · rw [h.frame p (h.ne_child hp) hpp]
    exact ⟨hne, rfl⟩

end Linked

/-! ## Calls of a single client -/

section Calls

variable {env : Env} {peer : Peer} {fuel : Nat} {s s' : Handles Unit} {own own' : Idx → Idx}
  {node root : Idx}

/-- A call of `shfs_inode`. The inode that it is given keeps its salt. -/
theorem Alone.inode (h : Alone s.fs (s.inos ())) (hagreed : Agreed peer s own node root) {i : Nat}
    {name : Bytes} {mode : Shinode} {acc : Access} {res : Mount × Option Nat}
    (hrun : shfsInode env fuel (s.mount ()) i name mode acc = some res) :
    Alone res.1.fs res.1.inos ∧ SaltKept s.fs res.1.fs ∧
      ∀ ino, (s.inos ())[i]? = some ino → ∃ a, res.1.inos[i]? = some a ∧
        a.blk.pos = ino.blk.pos ∧ a.blk.salt = ino.blk.salt := by
  have hput : ∀ {inos inos' : List Ino} {a : Ino}, inos[i]? = some a →
      (inos ++ inos')[i]? = some a := by
    intro inos inos' a ha
    rw [List.getElem?_append_left (List.getElem?_eq_some_iff.mp ha).1, ha]
  rcases hagreed.inode_cases (h.fresh _) hrun with ⟨hsame, -⟩ |
    ⟨ino, hi, hnone, -, ⟨p, hp, hpown, hname, hres⟩ | ⟨fs', pblk, blk, L, -, -, -, -, hnew,
      -, -, hres⟩⟩
  · rw [hsame]
    exact ⟨h, .refl _, fun ino hi => ⟨ino, hi, rfl, rfl⟩⟩
  · rw [hres]
    exact ⟨h.opened hagreed hi hp hpown hname hnone, .refl _, fun a ha => ⟨a, hput ha, rfl, rfl⟩⟩
  · rw [hres]
    refine ⟨h.linked hnew (hagreed.handle ()).copy hi acc, hnew.saltKept h hi, fun a ha => ?_⟩
    rw [hi, Option.some.injEq] at ha
    obtain ⟨mtime, hpblk⟩ := hnew.parent_eq
    refine ⟨{ ino with blk := pblk }, hput ?_, ?_, ?_⟩
    · exact List.getElem?_set_self (List.getElem?_eq_some_iff.mp hi).1
    · rw [hpblk, ha]
    · rw [hpblk, ha]

theorem put_unit (s : Handles Unit) (m : Mount) : (s.put () m).inos () = m.inos := by
  simp only [Handles.put, Function.update_self]

/-- Every call leaves the client alone, and the salts kept. -/
theorem Alone.step {op : HandleOp Unit} (h : Alone s.fs (s.inos ()))
    (hagreed : Agreed peer s own node root) (hrun : op.run env peer fuel s = some s') :
    Alone s'.fs (s'.inos ()) ∧ SaltKept s.fs s'.fs := by
  cases op with
  | init c salt =>
    obtain ⟨m, hm, rfl⟩ := Option.map_eq_some_iff.mp hrun
    have hm := ok_of_toOption hm
    rw [hagreed.super.shfsInit hagreed.listed.sound, Except.ok.injEq] at hm
    rw [put_unit, ← hm]
    exact ⟨.of_root hagreed.listed.sound hagreed.super, .refl _⟩
  | inode c i name mode acc =>
    obtain ⟨res, hres, rfl⟩ := Option.map_eq_some_iff.mp hrun
    obtain ⟨halone, hsalt, -⟩ := h.inode hagreed hres
    rw [put_unit]
    exact ⟨halone, hsalt⟩
  | free c i =>
    obtain ⟨inos, hinos, rfl⟩ := Option.map_eq_some_iff.mp hrun
    obtain ⟨f, hf⟩ := renumbered_free hinos
    rw [put_unit]
    exact ⟨h.renumber hf, .refl _⟩

/-- Any calls of the client, closing and opening the partition among them. -/
theorem Alone.run (h : Alone s.fs (s.inos ())) (hagreed : Agreed peer s own node root)
    (hrun : HandleRun env peer (fun _ _ => True) s s') :
    ∃ own', Agreed peer s' own' node root ∧ Alone s'.fs (s'.inos ()) ∧
      Grows s.fs own s'.fs own' ∧ SaltKept s.fs s'.fs := by
  induction hrun with
  | refl => exact ⟨own, hagreed, h, .refl _ _, .refl _⟩
  | step _ _ hstep ih =>
    obtain ⟨own1, hagreed1, halone1, hgrows1, hsalt1⟩ := ih
    obtain ⟨own2, hagreed2, hgrows2⟩ := hagreed1.step (halone1.fresh _) hstep
    obtain ⟨halone2, hsalt2⟩ := halone1.step hagreed1 hstep
    exact ⟨own2, hagreed2, halone2, hgrows1.trans hgrows2, hsalt1.trans hgrows1 hsalt2⟩

/-- The first client of a new partition is alone. -/
theorem alone_new (h : NewHandles env peer s) : Alone s.fs (s.inos ()) := by
  obtain ⟨salt, m, -, rfl⟩ := h
  refine ⟨?_, ?_, ?_⟩
  · intro i j a b hi
    cases hi
  · intro i a hi
    cases hi
  · intro i a hi
    cases hi

/-! ## Names -/

/-- The block is the child of a directory with a name and a type. -/
structure Named (env : Env) (fs : Shfs) (own : Idx → Idx) (dir p : Idx) (name : Bytes)
    (mode : Shinode) : Prop where
  live : fs.live p
  live_dir : fs.live dir
  own_eq : own p = dir
  key_eq : (fs.block p).name = childKey env (fs.block dir) name mode

variable {fs fs' : Shfs} {dir p : Idx} {name : Bytes} {mode : Shinode}

/-- A directory that owns a block has a first child. -/
theorem Listed.first_ne (h : Listed fs own) (hp : fs.live p) (hdir : fs.live (own p)) :
    (fs.block (own p)).fpos.ino ≠ 0 := by
  intro hzero
  have hnil : Chain (nextOf fs) (firstOf fs (own p)) [] := by
    show (fs.block (own p)).fpos.ref = none
    rw [Idx.ref, if_pos hzero]
  cases h.complete p [] hp hdir hnil

/-- A directory with a child has a first one. -/
theorem Named.first (h : Named env fs own dir p name mode) (hl : Listed fs own) :
    (fs.block dir).fpos.ino ≠ 0 := by
  rw [← h.own_eq]
  exact hl.first_ne h.live (by rw [h.own_eq]; exact h.live_dir)

/-- A name is kept where the salts are. -/
theorem Named.kept (h : Named env fs own dir p name mode) (hl : Listed fs own)
    (hgrows : Grows fs own fs' own') (hsalt : SaltKept fs fs') :
    Named env fs' own' dir p name mode := by
  refine ⟨hgrows.live p h.live, hgrows.live dir h.live_dir, ?_, ?_⟩
  · rw [hgrows.own_eq p h.live, h.own_eq]
  · rw [hgrows.name_eq p h.live, h.key_eq, childKey, childKey, hgrows.name_eq dir h.live_dir,
      (hsalt dir h.live_dir (h.first hl)).2]

/-- The key that the client computes from its copy is the one of the block. -/
theorem Alone.childKey_eq (h : Alone s.fs (s.inos ())) (hagreed : Agreed peer s own node root)
    {i : Nat} {ino : Ino} (hi : (s.inos ())[i]? = some ino)
    (hne : (s.fs.block ino.blk.pos).fpos.ino ≠ 0) :
    childKey env ino.blk name mode = childKey env (s.fs.block ino.blk.pos) name mode := by
  have hsalt := h.salted i ino hi (by rw [h.current i ino hi]; exact hne)
  rw [childKey, childKey, hsalt, ((hagreed.handle ()).copy i ino hi).name_eq]

/-- A child of an open inode, with the key that was asked for, has the name. -/
theorem Alone.named_child {i n : Nat} {m : Mount} {ino child a : Ino}
    (hagreed : Agreed peer s own node root)
    (hi : (s.inos ())[i]? = some ino) (hagreed' : Agreed peer (s.put () m) own' node root)
    (halone' : Alone m.fs m.inos) (hgrows : Grows s.fs own m.fs own') (ha : m.inos[i]? = some a)
    (hapos : a.blk.pos = ino.blk.pos) (hasalt : a.blk.salt = ino.blk.salt)
    (hn : m.inos[n]? = some child)
    (hown : own' child.blk.pos = ino.blk.pos)
    (hname : child.blk.name = childKey env ino.blk name mode) :
    Named env m.fs own' ino.blk.pos child.blk.pos name mode ∧
      (m.fs.block child.blk.pos).name = child.blk.name := by
  have hcopy := (hagreed.handle ()).copy i ino hi
  have hhandle := hagreed'.handle ()
  rw [put_unit] at hhandle
  have hccopy : Copy m.fs own' child.blk := hhandle.copy n child hn
  have hdir : m.fs.live ino.blk.pos := hgrows.live _ hcopy.live
  -- the directory has a child now, so that its salt is in the partition
  have hne : (m.fs.block ino.blk.pos).fpos.ino ≠ 0 := by
    rw [← hown]
    exact hagreed'.listed.first_ne hccopy.live (by rw [hown]; exact hdir)
  have hstored : (m.fs.block ino.blk.pos).salt = ino.blk.salt := by
    rw [← hasalt, ← hapos]
    refine (halone'.salted i a ha ?_).symm
    rw [halone'.current i a ha, hapos]
    exact hne
  refine ⟨⟨hccopy.live, hdir, hown, ?_⟩, hccopy.name_eq⟩
  rw [hccopy.name_eq, hname, childKey, childKey, hstored, hgrows.name_eq _ hcopy.live,
    hcopy.name_eq]

/-- What a call returns has the name that was asked for. -/
theorem Alone.named (h : Alone s.fs (s.inos ())) (hagreed : Agreed peer s own node root) {i n : Nat}
    {acc : Access} {m : Mount} {ino child : Ino} (hi : (s.inos ())[i]? = some ino)
    (hrun : shfsInode env fuel (s.mount ()) i name mode acc = some (m, some n))
    (hn : m.inos[n]? = some child) :
    ∃ own', Agreed peer (s.put () m) own' node root ∧ Alone m.fs m.inos ∧
      Grows s.fs own m.fs own' ∧ SaltKept s.fs m.fs ∧
      Named env m.fs own' ino.blk.pos child.blk.pos name mode ∧
      (m.fs.block child.blk.pos).name = child.blk.name ∧
      child.blk.name = childKey env ino.blk name mode := by
  obtain ⟨own', hagreed', hgrows, hchild⟩ := hagreed.inode (h.fresh _) hrun
  obtain ⟨halone', hsalt, hparent⟩ := h.inode hagreed hrun
  obtain ⟨ino', child', hi', hn', hown, hname⟩ := hchild n rfl
  rw [hi, Option.some.injEq] at hi'
  rw [hn, Option.some.injEq] at hn'
  subst hi' hn'
  obtain ⟨a, ha, hapos, hasalt⟩ := hparent ino hi
  obtain ⟨hnamed, hstored⟩ :=
    Alone.named_child hagreed hi hagreed' halone' hgrows ha hapos hasalt hn hown hname
  exact ⟨own', hagreed', halone', hgrows, hsalt, hnamed, hstored, hname⟩

/-- An open inode is found. -/
theorem shfsInode_open {m : Mount} {i n : Nat} {ino : Ino} {acc : Access}
    (hi : m.inos[i]? = some ino)
    (h : findChild m i (childKey env ino.blk name mode) = some n) :
    shfsInode env fuel m i name mode acc = some (m, some n) := by
  rw [findChild, childKey] at h
  simp only [shfsInode, hi, h]

/-- A block that is found is opened. -/
theorem shfsInode_found {m : Mount} {i : Nat} {ino : Ino} {acc : Access} {blk : Block}
    (hi : m.inos[i]? = some ino) (h : findChild m i (childKey env ino.blk name mode) = none)
    (hfind : shfsLinkFind fuel m.fs ino.blk (childKey env ino.blk name mode) = some (.ok blk)) :
    shfsInode env fuel m i name mode acc =
      some ({ m with inos := m.inos ++ [{ blk := blk, parent := some i }] },
        some m.inos.length) := by
  rw [findChild, childKey] at h
  rw [childKey] at hfind
  simp only [shfsInode, hi, h, hfind]

/-- A name is opened as the block that has it. -/
theorem Alone.resolves (h : Alone s.fs (s.inos ()))
    (hagreed : Agreed peer s own node root) {i : Nat}
    {ino : Ino} (hi : (s.inos ())[i]? = some ino)
    (hnamed : Named env s.fs own ino.blk.pos p name mode) (acc : Access) :
    ∃ k, ∀ fuel, k ≤ fuel → ∃ m n child,
      shfsInode env fuel (s.mount ()) i name mode acc = some (m, some n) ∧
      m.inos[n]? = some child ∧ child.blk.pos = p ∧ child.blk.name = (s.fs.block p).name := by
  have hl := hagreed.listed
  have hhandle := hagreed.handle ()
  have hkey : childKey env ino.blk name mode = (s.fs.block p).name := by
    rw [h.childKey_eq hagreed hi (hnamed.first hl), hnamed.key_eq]
  obtain ⟨k, hfind⟩ := hl.find hnamed.live (by rw [hnamed.own_eq]; exact hnamed.live_dir)
  refine ⟨k, fun fuel hk => ?_⟩
  cases hopen : findChild (s.mount ()) i (childKey env ino.blk name mode) with
  | some n =>
    -- an open child with this name
    obtain ⟨hlt, hchild, -⟩ := List.findIdx?_eq_some_iff_getElem.mp hopen
    simp only [decide_eq_true_eq] at hchild
    have hget := List.getElem?_eq_getElem hlt
    obtain ⟨-, pino, hp, hown⟩ := hhandle.parent n i _ hget hchild.1
    rw [hi, Option.some.injEq] at hp
    have hcopy := hhandle.copy n _ hget
    refine ⟨_, n, _, shfsInode_open hi hopen, hget, ?_, by rw [hchild.2, hkey]⟩
    refine hl.distinct _ p hcopy.live hnamed.live ?_ ?_
    · rw [hown, ← hp, hnamed.own_eq]
    · rw [hcopy.name_eq, hchild.2, hkey]
  | none =>
    have hcopy := hhandle.copy i ino hi
    have hlink : shfsLinkFind fuel s.fs ino.blk (childKey env ino.blk name mode) =
        some (.ok (s.fs.block p)) := by
      rw [hkey]
      refine hfind fuel ino.blk hk ?_ ?_
      · rw [hnamed.own_eq, hcopy.type_eq]
      · rw [hnamed.own_eq, h.current i ino hi]
    refine ⟨_, _, _, shfsInode_found hi hopen hlink, List.getElem?_concat_length .., ?_, rfl⟩
    exact (hl.sound.cell p hnamed.live).1

/-- What the key of a child is made from. -/
def childBytes (parent : Block) (name : Bytes) (mode : Shinode) : Bytes :=
  tokenBytes parent.name parent.salt (inodePath name mode).2 (inodePath name mode).1

/-- A name that has been opened once is opened as the same block with the same key,
after any calls of the client. Another name, which differs in the directory or in
the path or the type that `shfs_inode` makes of it, is opened as another block, if
`shkey_bin` makes different keys for the two. -/
theorem names_persist {s0 s2 : Handles Unit} {m1 : Mount} {i j n : Nat} {ino child b : Ino}
    {acc : Access} (h0 : NewHandles env peer s0)
    (hrun : HandleRun env peer (fun _ _ => True) s0 s) (hi : (s.inos ())[i]? = some ino)
    (hcall : shfsInode env fuel (s.mount ()) i name mode acc = some (m1, some n))
    (hn : m1.inos[n]? = some child)
    (hrest : HandleRun env peer (fun _ _ => True) (s.put () m1) s2)
    (hj : (s2.inos ())[j]? = some b) :
    (∀ name' mode' acc', b.blk.pos = ino.blk.pos → inodePath name' mode' = inodePath name mode →
      ∃ k, ∀ fuel, k ≤ fuel → ∃ m n' c,
        shfsInode env fuel (s2.mount ()) j name' mode' acc' = some (m, some n') ∧
        m.inos[n']? = some c ∧ c.blk.pos = child.blk.pos ∧ c.blk.name = child.blk.name) ∧
    (∀ (bin : Bytes → ShKey) name' mode' acc' fuel m n' c,
      (∀ name salt mode path, env.token name salt mode path =
        bin (tokenBytes name salt mode path)) →
      Set.InjOn bin {childBytes ino.blk name mode, childBytes b.blk name' mode'} →
      shfsInode env fuel (s2.mount ()) j name' mode' acc' = some (m, some n') →
      m.inos[n']? = some c → c.blk.pos = child.blk.pos →
      b.blk.pos = ino.blk.pos ∧ inodePath name' mode' = inodePath name mode) := by
  obtain ⟨own0, node, root, hagreed0⟩ := agreed_new h0
  obtain ⟨own, hagreed, halone, -, -⟩ := (alone_new h0).run hagreed0 hrun
  obtain ⟨own1, hagreed1, halone1, -, -, hnamed, hname, hkey⟩ :=
    halone.named hagreed hi hcall hn
  rw [← put_unit s m1] at halone1
  obtain ⟨own2, hagreed2, halone2, hgrows, hsalt⟩ := halone1.run hagreed1 hrest
  have hkept := hnamed.kept hagreed1.listed hgrows hsalt
  have hname2 : (s2.fs.block child.blk.pos).name = child.blk.name := by
    rw [hgrows.name_eq _ hnamed.live]
    exact hname
  refine ⟨fun name' mode' acc' hpos hpath => ?_, fun bin name' mode' acc' fuel' m n' c htoken hbin
    hcall' hn' hcpos => ?_⟩
  · have hnamed' : Named env s2.fs own2 b.blk.pos child.blk.pos name' mode' := by
      refine ⟨hkept.live, ?_, ?_, ?_⟩
      · rw [hpos]
        exact hkept.live_dir
      · rw [hpos, hkept.own_eq]
      · rw [hkept.key_eq, hpos, childKey, childKey, hpath]
    obtain ⟨k, hk⟩ := halone2.resolves hagreed2 hj hnamed' acc'
    refine ⟨k, fun fuel hfuel => ?_⟩
    obtain ⟨m, n', c, hrun', hc, hcpos, hcname⟩ := hk fuel hfuel
    exact ⟨m, n', c, hrun', hc, hcpos, hcname.trans hname2⟩
  · obtain ⟨own3, -, -, hgrows3, -, hnamed3, hname3, hkey3⟩ :=
      halone2.named hagreed2 hj hcall' hn'
    rw [hcpos] at hnamed3 hname3
    have hdir : b.blk.pos = ino.blk.pos := by
      rw [← hnamed3.own_eq, hgrows3.own_eq _ hkept.live, hkept.own_eq]
    refine ⟨hdir, ?_⟩
    have hone : c.blk.name = child.blk.name := by
      rw [← hname3, hgrows3.name_eq _ hkept.live, hname2]
    -- one block has one key, and both calls have made it
    have hbytes : childBytes b.blk name' mode' = childBytes ino.blk name mode := by
      refine hbin (by simp) (by simp) ?_
      rw [hkey, hkey3, childKey, childKey, htoken, htoken] at hone
      exact hone
    obtain ⟨hmode, hpath⟩ := tokenBytes_inj hbytes
    exact Prod.ext hpath hmode

end Calls

/-- Keys that add up the bytes. -/
def sumBin (data : Bytes) : ShKey := { ashkeyBlank with crc := (data.map UInt8.toUInt16).sum }

/-- One journal, with these keys. -/
def sumKeys : Env :=
  { oneJournal with token := fun name salt mode path => sumBin (tokenBytes name salt mode path) }

/-- A directory and a child of it are created, and the partition is closed and
opened. -/
theorem names_persist_reopened : ∃ (s0 s s2 : Handles Unit) (m1 : Mount) (ino child b : Ino),
    NewHandles sumKeys somePeer s0 ∧ HandleRun sumKeys somePeer (fun _ _ => True) s0 s ∧
    HandleRun sumKeys somePeer (fun _ _ => True) (s.put () m1) s2 ∧
    (s.inos ())[0]? = some ino ∧ m1.inos[1]? = some child ∧ (s2.inos ())[0]? = some b ∧
    (∃ k, ∀ fuel, k ≤ fuel → ∃ m n' c,
      shfsInode sumKeys fuel (s2.mount ()) 0 [120] .directory noAccess = some (m, some n') ∧
      m.inos[n']? = some c ∧ c.blk.pos = child.blk.pos ∧ c.blk.name = child.blk.name) ∧
    (∀ fuel m n' c, shfsInode sumKeys fuel (s2.mount ()) 0 [121] .file noAccess =
      some (m, some n') →
      m.inos[n']? = some c → c.blk.pos ≠ child.blk.pos) := by
  have hall : ((newHandles Unit sumKeys).bind fun s0 =>
      (runHandles sumKeys [.init () 0] s0).bind fun s =>
      (shfsInode sumKeys 5 (s.mount ()) 0 [120, 47] .null { noAccess with salt := 9 }).bind fun r =>
      (runHandles sumKeys [.inode () 1 [121] .file { noAccess with salt := 8 },
        .free () 0, .init () 0]
        (s.put () r.1)).bind fun s2 =>
      (s.inos ())[0]?.bind fun ino => r.1.inos[1]?.bind fun _ => (s2.inos ())[0]?.map fun b =>
        (r.2, decide (b.blk.pos = ino.blk.pos),
          decide (sumBin (childBytes ino.blk [120, 47] .null) =
            sumBin (childBytes b.blk [121] .file)))) = some (some 1, true, false) := by
    decide +kernel
  obtain ⟨s0, h0, hall⟩ := Option.bind_eq_some_iff.mp hall
  obtain ⟨s, h1, hall⟩ := Option.bind_eq_some_iff.mp hall
  obtain ⟨⟨m1, n⟩, h2, hall⟩ := Option.bind_eq_some_iff.mp hall
  obtain ⟨s2, h3, hall⟩ := Option.bind_eq_some_iff.mp hall
  obtain ⟨ino, hi, hall⟩ := Option.bind_eq_some_iff.mp hall
  obtain ⟨child, hn, hall⟩ := Option.bind_eq_some_iff.mp hall
  obtain ⟨b, hj, hall⟩ := Option.map_eq_some_iff.mp hall
  simp only [Prod.mk.injEq, decide_eq_true_eq, decide_eq_false_iff_not] at hall
  obtain ⟨rfl, hpos, hkeys⟩ := hall
  have hnew := newHandles_new h0
  obtain ⟨hsame, hother⟩ := names_persist hnew (runHandles_run h1) hi h2 hn (runHandles_run h3) hj
  refine ⟨s0, s, s2, m1, ino, child, b, hnew, runHandles_run h1, runHandles_run h3, hi, hn, hj,
    hsame [120] .directory noAccess hpos rfl, fun fuel m n' c hcall hc heq => ?_⟩
  have hbin : Set.InjOn sumBin
      {childBytes ino.blk [120, 47] .null, childBytes b.blk [121] .file} := by
    rintro x (rfl | rfl) y (rfl | rfl) hxy
    · rfl
    · exact absurd hxy hkeys
    · exact absurd hxy.symm hkeys
    · rfl
  have hpath := (hother sumBin [121] .file noAccess fuel m n' c (fun _ _ _ _ => rfl) hbin hcall hc
    heq).2
  exact absurd hpath (by decide)

/-- A directory that is asked for with a slash and no type, and then without the
slash and with the type. -/
theorem one_block_for_two_names : ¬ ∀ (env : Env) (peer : Peer) (bin : Bytes → ShKey)
    (s0 s s2 : Handles Unit) (m1 m : Mount) (i j n n' fuel fuel' : Nat) (name name' : Bytes)
    (mode mode' : Shinode) (acc acc' : Access) (ino child b c : Ino),
    (∀ name salt mode path, env.token name salt mode path = bin (tokenBytes name salt mode path)) →
    Set.InjOn bin {childBytes ino.blk name mode, childBytes b.blk name' mode'} →
    NewHandles env peer s0 → HandleRun env peer (fun _ _ => True) s0 s →
    (s.inos ())[i]? = some ino →
    shfsInode env fuel (s.mount ()) i name mode acc = some (m1, some n) →
    m1.inos[n]? = some child → HandleRun env peer (fun _ _ => True) (s.put () m1) s2 →
    (s2.inos ())[j]? = some b →
    shfsInode env fuel' (s2.mount ()) j name' mode' acc' = some (m, some n') →
    m.inos[n']? = some c → c.blk.pos = child.blk.pos →
    b.blk.pos = ino.blk.pos ∧ name' = name ∧ mode' = mode := by
  intro h
  have hall : ((newHandles Unit sumKeys).bind fun s0 =>
      (runHandles sumKeys [.init () 0] s0).bind fun s =>
      (shfsInode sumKeys 5 (s.mount ()) 0 [120, 47] .null noAccess).bind fun r =>
      (shfsInode sumKeys 5 ((s.put () r.1).mount ()) 0 [120] .directory noAccess).bind fun r' =>
      (s.inos ())[0]?.bind fun ino => r.1.inos[1]?.bind fun child =>
      ((s.put () r.1).inos ())[0]?.bind fun b => r'.1.inos[1]?.map fun c =>
        (r.2, r'.2, decide (c.blk.pos = child.blk.pos),
          decide (childBytes ino.blk [120, 47] .null = childBytes b.blk [120] .directory))) =
      some (some 1, some 1, true, true) := by
    decide +kernel
  obtain ⟨s0, h0, hall⟩ := Option.bind_eq_some_iff.mp hall
  obtain ⟨s, h1, hall⟩ := Option.bind_eq_some_iff.mp hall
  obtain ⟨⟨m1, n⟩, h2, hall⟩ := Option.bind_eq_some_iff.mp hall
  obtain ⟨⟨m, n'⟩, h3, hall⟩ := Option.bind_eq_some_iff.mp hall
  obtain ⟨ino, hi, hall⟩ := Option.bind_eq_some_iff.mp hall
  obtain ⟨child, hn, hall⟩ := Option.bind_eq_some_iff.mp hall
  obtain ⟨b, hj, hall⟩ := Option.bind_eq_some_iff.mp hall
  obtain ⟨c, hc, hall⟩ := Option.map_eq_some_iff.mp hall
  simp only [Prod.mk.injEq, decide_eq_true_eq] at hall
  obtain ⟨rfl, rfl, hpos, hbytes⟩ := hall
  have hbin : Set.InjOn sumBin
      {childBytes ino.blk [120, 47] .null, childBytes b.blk [120] .directory} := by
    rw [hbytes]
    rintro x (rfl | rfl) y (rfl | rfl) -
    all_goals rfl
  have hsame := (h sumKeys somePeer sumBin s0 s (s.put () m1) m1 m 0 0 1 1 5 5 [120, 47] [120] .null
    .directory noAccess noAccess ino child b c (fun _ _ _ _ => rfl) hbin (newHandles_new h0)
    (runHandles_run h1) hi h2 hn (.refl _) hj h3 hc hpos).2.1
  exact absurd hsame (by decide)

end LibShare.Fs
