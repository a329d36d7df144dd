import LibShare.Fs.Runs

/-!
# libshare — handles of a partition

Clients of one partition, each with a handle of its own: `shfs_init` opens one,
`shfs_inode` opens and creates inodes below an open one, `shfs_inode_free` forgets
an inode and what is open below it, and `shfs_free` closes the handle.

The journals are shared, through the files and, in one process, through its table
of open journals. The copies of the inodes are not: each handle has its own, and
what another handle has written since a copy was read does not show in it. A new
child is put in front of the chain that the copy of its parent knows, and the
copy is written over the block of the parent.

`Listed` is what a directory is for: its chain holds every block that it owns, and
no key twice. A new child keeps it if the copy of the parent knows the first child
that the block of the parent has (`Listed.link`).
-/

namespace LibShare.Fs

/-! ## Opening a partition (`shfs_partition.c`) -/

/-- The peer of a partition: its public key, its record, and the token of the root
directory (`shfs_token_init` without a parent). -/
structure Peer where
  key : ShKey
  raw : Bytes
  rootKey : ShKey

/-- The loop of `shfs_scan_partition`, from a block number of the initial journal
downwards. The search ends at the first free block. -/
def scanPartition (fs : Shfs) (key : ShKey) : Nat → Except Sherr Block
  | 0 => .error .noent
  | ino + 1 =>
    if ino = 0 then .error .noent
    else
      match shfsInodeReadBlock fs { jno := 0, ino := ino } with
      | .error err => .error err
      | .ok blk =>
        if blk.type = .null then .error .noent
        else if blk.type = .partition ∧ blk.name = key then .ok blk
        else scanPartition fs key ino

/-- `shfs_scan_partition`. -/
def shfsScanPartition (fs : Shfs) (peer : Peer) : Except Sherr Block :=
  scanPartition fs peer.key (fs.size 0)

/-- The part of `shfs_init` that stores a new supernode. -/
def initSuper (env : Env) (peer : Peer) (fs : Shfs) : Except Sherr (Shfs × Block) :=
  match scanRetry fs 0 with
  | .error err => .error err
  | .ok (fs, pos) =>
    let node := { Block.zero with type := .partition, name := peer.key, pos := pos }
    let node := { node with crc := shfsCrcInit node, ctime := env.birth fs.births }
    let node := { node with raw := overlay node.raw 0 peer.raw }
    match shfsJournalScan env fs.born node.name with
    | .error err => .error err
    | .ok (fs, fpos) =>
      match shfsInodeWriteBlock env fs { node with fpos := fpos, attr := shattrPublic } with
      | (_, _, .error err) => .error err
      | (fs, node, .ok _) => .ok (fs, node)

/-- The part of `shfs_init` that opens the root directory of a supernode, or stores
a new one. -/
def initRoot (env : Env) (peer : Peer) (salt : UInt16) (fs : Shfs) (node : Block) :
    Except Sherr Mount :=
  match shfsInodeReadBlock fs node.fpos with
  | .error err => .error err
  | .ok base =>
    if base.type = .directory then .ok { fs := fs, inos := [{ blk := base, parent := none }] }
    else
      let root := { newInode peer.rootKey .directory [] with pos := node.fpos, salt := salt }
      match shfsInodeWriteBlock env fs { root with crc := shfsCrcInit root } with
      | (_, _, .error err) => .error err
      | (fs, root, .ok _) => .ok { fs := fs, inos := [{ blk := root, parent := none }] }

/-- `shfs_init`; the salt is the one of a new root directory. -/
def shfsInit (env : Env) (peer : Peer) (salt : UInt16) (fs : Shfs) : Except Sherr Mount :=
  match shfsScanPartition fs peer with
  | .ok node => initRoot env peer salt fs node
  | .error _ =>
    match initSuper env peer fs with
    | .error err => .error err
    | .ok (fs, node) => initRoot env peer salt fs node

/-! ## Forgetting inodes (`shfs_inode.c`) -/

/-- An open inode that has no open child is released. The inodes after it move
up. -/
def eraseIno (inos : List Ino) (i : Nat) : List Ino :=
  (inos.eraseIdx i).map fun ino =>
    { ino with parent := ino.parent.map fun k => if i < k then k - 1 else k }

/-- `shfs_inode_free`: the open children first. An inode is opened after its
parent, so releasing a child does not move the inode. -/
def shfsInodeFree : Nat → List Ino → Nat → Option (List Ino)
  | 0, _, _ => none
  | fuel + 1, inos, i =>
    match inos.findIdx? fun ino => decide (ino.parent = some i) with
    | none => some (eraseIno inos i)
    | some c =>
      match shfsInodeFree fuel inos c with
      | none => none
      | some inos => shfsInodeFree fuel inos i

/-! ## Handles -/

/-- A partition and the open inodes of each handle. -/
structure Handles (κ : Type) where
  fs : Shfs
  inos : κ → List Ino

variable {κ : Type} [DecidableEq κ]

/-- The partition as one handle sees it. -/
def Handles.mount (s : Handles κ) (c : κ) : Mount := { fs := s.fs, inos := s.inos c }

/-- What a call through one handle leaves. -/
def Handles.put (s : Handles κ) (c : κ) (m : Mount) : Handles κ :=
  { fs := m.fs, inos := Function.update s.inos c m.inos }

/-- A call through a handle. -/
inductive HandleOp (κ : Type)
  /-- the handle is closed, if it is open, and opened -/
  | init (c : κ) (salt : UInt16)
  | inode (c : κ) (i : Nat) (name : Bytes) (mode : Shinode) (acc : Access)
  | free (c : κ) (i : Nat)

/-- One call. -/
def HandleOp.run (env : Env) (peer : Peer) (fuel : Nat) (s : Handles κ) :
    HandleOp κ → Option (Handles κ)
  | .init c salt => (shfsInit env peer salt s.fs).toOption.map (s.put c)
  | .inode c i name mode acc =>
    (shfsInode env fuel (s.mount c) i name mode acc).map fun res => s.put c res.1
  | .free c i =>
    (shfsInodeFree fuel (s.inos c) i).map fun inos => s.put c { fs := s.fs, inos := inos }

/-- The states that calls reach, in any order, if each of them meets a condition. -/
inductive HandleRun (env : Env) (peer : Peer) (ok : Handles κ → HandleOp κ → Prop) :
    Handles κ → Handles κ → Prop
  | refl (s : Handles κ) : HandleRun env peer ok s s
  | step {s s' s'' : Handles κ} {op : HandleOp κ} {fuel : Nat} : HandleRun env peer ok s s' →
    ok s' op → op.run env peer fuel s' = some s'' → HandleRun env peer ok s s''

/-- A new partition that no handle is open on. -/
def NewHandles (env : Env) (peer : Peer) (s : Handles κ) : Prop :=
  ∃ salt m, shfsInit env peer salt Shfs.empty = .ok m ∧ s = { fs := m.fs, inos := fun _ => [] }

/-! ## Searching a directory -/

/-- Where nothing is found no block of the chain has the name. -/
theorem linkFindLoop_noent {fs : Shfs} {key : ShKey} : ∀ {L : List Idx} {fuel : Nat} {idx : Idx},
    Chain (nextOf fs) idx.ref L → AllStored fs L →
    linkFindLoop key fuel fs idx = some (.error .noent) → ∀ p ∈ L, (fs.block p).name ≠ key := by
  intro L
  induction L with
  | nil =>
    intro fuel idx _ _ _ p hp
    cases hp
  | cons a L ih =>
    rintro fuel idx ⟨hs, hchain⟩ hall h p hp
    obtain ⟨rfl, hne⟩ := Idx.ref_eq_some hs
    obtain ⟨-, hmap, -, -⟩ := hall a List.mem_cons_self
    obtain _ | fuel := fuel
    · cases h
    simp only [linkFindLoop, if_neg hne, shfsInodeReadBlock_ok hmap] at h
    split at h
    · cases h
    split at h
    · cases h
    next hname =>
    rcases List.mem_cons.mp hp with rfl | hp
    · exact hname
    · exact ih hchain (fun q hq => hall q (List.mem_cons_of_mem _ hq)) h p hp

/-- The search of a directory finds the first block with the name. -/
theorem linkFindLoop_find {fs : Shfs} {key : ShKey} : ∀ {L : List Idx} {fuel : Nat} {idx : Idx},
    Chain (nextOf fs) idx.ref L → AllStored fs L → L.length < fuel →
    linkFindLoop key fuel fs idx =
      some (match L.find? fun p => decide ((fs.block p).name = key) with
        | some q => .ok (fs.block q)
        | none => .error .noent) := by
  intro L
  induction L with
  | nil =>
    intro fuel idx hchain _ hfuel
    obtain ⟨fuel, rfl⟩ : ∃ k, fuel = k + 1 := ⟨fuel - 1, by omega⟩
    have hidx : idx.ino = 0 := by
      by_contra hne
      rw [Idx.ref_of_ne hne] at hchain
      cases hchain
    rw [linkFindLoop, if_pos hidx]
    rfl
  | cons p L ih =>
    intro fuel idx hchain hall hfuel
    obtain ⟨fuel, rfl⟩ : ∃ k, fuel = k + 1 := ⟨fuel - 1, by omega⟩
    have hnodup := List.nodup_cons.mp hchain.nodup
    obtain ⟨hs, htail⟩ := hchain
    obtain ⟨rfl, hne⟩ := Idx.ref_eq_some hs
    obtain ⟨-, hmap, -, -⟩ := hall p List.mem_cons_self
    -- a block that refers to itself would be in the chain twice
    have hself : (fs.block p).npos ≠ p := by
      intro heq
      rw [nextOf, heq, Idx.ref_of_ne hne] at htail
      exact hnodup.1 htail.head_mem
    simp only [linkFindLoop, if_neg hne, shfsInodeReadBlock_ok hmap, if_neg hself]
    by_cases hname : (fs.block p).name = key
    · rw [if_pos hname, List.find?_cons_of_pos (by simpa using hname)]
    · rw [if_neg hname, List.find?_cons_of_neg (by simpa using hname)]
      exact ih htail (fun q hq => hall q (List.mem_cons_of_mem _ hq)) (Nat.lt_of_succ_lt_succ hfuel)

/-- A key that is in the chain is found. -/
theorem linkFindLoop_mem {fs : Shfs} {key : ShKey} {L : List Idx} {fuel : Nat} {idx : Idx}
    (hchain : Chain (nextOf fs) idx.ref L) (hall : AllStored fs L) (hfuel : L.length < fuel)
    (hkey : ∃ p ∈ L, (fs.block p).name = key) :
    ∃ q ∈ L, linkFindLoop key fuel fs idx = some (.ok (fs.block q)) ∧ (fs.block q).name = key := by
  rw [linkFindLoop_find hchain hall hfuel]
  cases hfind : L.find? fun p => decide ((fs.block p).name = key) with
  | none =>
    obtain ⟨p, hp, hpkey⟩ := hkey
    exact absurd (decide_eq_true hpkey) (List.find?_eq_none.mp hfind p hp)
  | some q =>
    have hq := List.find?_some hfind
    exact ⟨q, List.mem_of_find?_eq_some hfind, rfl, of_decide_eq_true hq⟩

-- More passes do not change the result.
/-- More passes do no harm. -/
theorem linkFindLoop_mono {key : ShKey} {fs : Shfs} {res : Except Sherr Block} :
    ∀ {fuel n : Nat} {idx : Idx}, linkFindLoop key fuel fs idx = some res → fuel ≤ n →
    linkFindLoop key n fs idx = some res := by
  intro fuel
  induction fuel with
  | zero =>
    intro n idx h _
    cases h
  | succ fuel ih =>
    intro n idx h hle
    obtain ⟨n, rfl⟩ : ∃ k, n = k + 1 := ⟨n - 1, by omega⟩
    simp only [linkFindLoop] at h ⊢
    split at h
    · next hzero => rw [if_pos hzero, h]
    next hne =>
    rw [if_neg hne]
    split at h
    · exact h
    split at h
    · next hself => rw [if_pos hself, h]
    next hself =>
    rw [if_neg hself]
    split at h
    · next hname => rw [if_pos hname, h]
    next hname =>
    rw [if_neg hname]
    exact ih h (by omega)

theorem shfsLinkFind_mono {key : ShKey} {fs : Shfs} {parent : Block} {res : Except Sherr Block}
    {fuel n : Nat} (h : shfsLinkFind fuel fs parent key = some res) (hle : fuel ≤ n) :
    shfsLinkFind n fs parent key = some res := by
  unfold shfsLinkFind at h ⊢
  split at h
  · next hcont =>
    rw [if_pos hcont]
    exact linkFindLoop_mono h hle
  · next hcont => rw [if_neg hcont, h]

/-- More passes do no harm to a lookup. -/
theorem shfsInode_mono {env : Env} {m : Mount} {i fuel n : Nat} {name : Bytes} {mode : Shinode}
    {acc : Access}
    {res : Mount × Option Nat} (h : shfsInode env fuel m i name mode acc = some res)
    (hle : fuel ≤ n) :
    shfsInode env n m i name mode acc = some res := by
  unfold shfsInode at h ⊢
  cases hi : m.inos[i]? with
  | none => simpa only [hi] using h
  | some parent =>
    simp only [hi] at h ⊢
    split at h
    · exact h
    · split at h
      · cases h
      · next blk hfind =>
        rw [shfsLinkFind_mono hfind hle]
        exact h
      · next hfind =>
        rw [shfsLinkFind_mono hfind hle]
        rw [shfsLink_noent hfind] at h
        rw [shfsLink_noent (shfsLinkFind_mono hfind hle)]
        exact h
      · next err hne hfind =>
        rw [shfsLinkFind_mono hfind hle]
        split
        · next hnone => cases hnone
        · next hok => cases hok
        · next hnoent =>
          cases hnoent
          exact absurd rfl hne
        · exact h

/-! ## Directories -/

/-- A directory lists what it owns: its chain holds every block that it owns, and
the keys of these are different. -/
structure Listed (fs : Shfs) (own : Idx → Idx) : Prop where
  sound : Sound fs own
  rooted : ∀ p, fs.live p → fs.live (own p) ∨ own p = Idx.zero
  holder : ∀ p, fs.live p → fs.live (own p) → (fs.block (own p)).type.isContainer = true
  distinct : ∀ p q, fs.live p → fs.live q → own p = own q →
    (fs.block p).name = (fs.block q).name → p = q
  complete : ∀ p L, fs.live p → fs.live (own p) →
    Chain (nextOf fs) (firstOf fs (own p)) L → p ∈ L

section Listed

variable {fs : Shfs} {own : Idx → Idx}

/-- The chain that begins with a block of a directory. -/
theorem Sound.chain (h : Sound fs own) {d idx : Idx}
    (hfirst : ∀ q, idx.ref = some q → fs.live q ∧ own q = d) :
    ∃ L, Chain (nextOf fs) idx.ref L ∧ AllStored fs L ∧ ∀ p ∈ L, own p = d := by
  have hends : ∃ L, Chain (nextOf fs) idx.ref L := by
    cases hidx : idx.ref with
    | none => exact ⟨[], rfl⟩
    | some q =>
      obtain ⟨L, hL⟩ := h.links.tails q (hfirst q hidx).1
      exact ⟨q :: L, rfl, hL⟩
  obtain ⟨L, hL⟩ := hends
  have hmem := h.links.mem_of_chain hL hfirst
  refine ⟨L, hL, fun p hp => ?_, fun p hp => (hmem p hp).2⟩
  obtain ⟨hpos, hino, hmap⟩ := h.cell p (hmem p hp).1
  exact ⟨(hmem p hp).1, hmap, hpos, hino⟩

/-- The chain of a directory. -/
theorem Sound.listing (h : Sound fs own) {d : Idx} (hd : fs.live d) :
    ∃ L, Chain (nextOf fs) (fs.block d).fpos.ref L ∧ AllStored fs L ∧ ∀ p ∈ L, own p = d :=
  h.chain fun q hq => h.links.first_mem d q hd hq

/-- Every block that a directory owns is found by its key, through any copy of the
directory that knows its first child. -/
theorem Listed.find (h : Listed fs own) {p : Idx} (hp : fs.live p) (hd : fs.live (own p)) :
    ∃ n, ∀ (fuel : Nat) (blk : Block), n ≤ fuel → blk.type = (fs.block (own p)).type →
      blk.fpos = (fs.block (own p)).fpos →
      shfsLinkFind fuel fs blk (fs.block p).name = some (.ok (fs.block p)) := by
  obtain ⟨L, hL, hall, hown⟩ := h.sound.listing hd
  refine ⟨L.length + 1, fun fuel blk hfuel htype hfpos => ?_⟩
  obtain ⟨q, hq, hfind, hname⟩ := linkFindLoop_mem hL hall hfuel
    ⟨p, h.complete p L hp hd hL, rfl⟩
  rw [shfsLinkFind, htype, h.holder p hp hd, if_pos rfl, hfpos, hfind,
    h.distinct q p (hall q hq).1 hp (hown q hq) hname]

end Listed

/-! ## Copies in memory -/

/-- The copy of an inode that a handle has. Its first position may be out of date,
but it has been one of the inode's children. -/
structure Copy (fs : Shfs) (own : Idx → Idx) (blk : Block) : Prop where
  live : fs.live blk.pos
  type_eq : (fs.block blk.pos).type = blk.type
  name_eq : (fs.block blk.pos).name = blk.name
  npos_eq : (fs.block blk.pos).npos = blk.npos
  owned : fs.live (own blk.pos)
  first : ∀ q, blk.fpos.ref = some q → fs.live q ∧ own q = blk.pos

/-- A copy that knows the first child. -/
def Current (fs : Shfs) (blk : Block) : Prop := blk.fpos = (fs.block blk.pos).fpos

/-- A copy that has just been read. -/
theorem Copy.of_stored {fs : Shfs} {own : Idx → Idx} {p : Idx} (h : Sound fs own) (hp : fs.live p)
    (hown : fs.live (own p)) : Copy fs own (fs.block p) := by
  have hpos := (h.cell p hp).1
  refine ⟨?_, ?_, ?_, ?_, ?_, ?_⟩ <;> rw [hpos]
  · exact hp
  · exact hown
  · intro q hq
    exact h.links.first_mem p q hp hq

/-- What a new child leaves of the store: every block that was in use has its owner,
its name and its type. -/
structure Grows (fs : Shfs) (own : Idx → Idx) (fs' : Shfs) (own' : Idx → Idx) : Prop where
  live : ∀ p, fs.live p → fs'.live p
  own_eq : ∀ p, fs.live p → own' p = own p
  name_eq : ∀ p, fs.live p → (fs'.block p).name = (fs.block p).name
  type_eq : ∀ p, fs.live p → (fs'.block p).type = (fs.block p).type

/-- A store has grown from itself. -/
theorem Grows.refl (fs : Shfs) (own : Idx → Idx) : Grows fs own fs own :=
  ⟨fun _ h => h, fun _ _ => rfl, fun _ _ => rfl, fun _ _ => rfl⟩

/-- Growth upon growth. -/
theorem Grows.trans {fs fs' fs'' : Shfs} {own own' own'' : Idx → Idx} (h : Grows fs own fs' own')
    (h' : Grows fs' own' fs'' own'') : Grows fs own fs'' own'' := by
  refine ⟨fun p hp => h'.live p (h.live p hp), fun p hp => ?_, fun p hp => ?_, fun p hp => ?_⟩
  · rw [h'.own_eq p (h.live p hp), h.own_eq p hp]
  · rw [h'.name_eq p (h.live p hp), h.name_eq p hp]
  · rw [h'.type_eq p (h.live p hp), h.type_eq p hp]

/-- A child has been linked below a copy, in front of the chain `L`. -/
structure NewChild (fs fs' : Shfs) (own : Idx → Idx) (parent pblk blk : Block) (L : List Idx) :
    Prop where
  parent_eq : ∃ mtime, pblk = { parent with fpos := blk.pos, mtime := mtime }
  parent_block : fs'.block parent.pos = pblk
  free : ¬ fs.live blk.pos
  child_block : fs'.block blk.pos = blk
  child_type : blk.type ≠ .null
  child_fpos : blk.fpos = Idx.zero
  jno_ne : blk.pos.jno ≠ 0
  frame : ∀ p, p ≠ blk.pos → p ≠ parent.pos → fs'.block p = fs.block p
  size_eq : fs'.size 0 = fs.size 0
  size_le : ∀ j, fs.size j ≤ fs'.size j
  chain : Chain (nextOf fs') (firstOf fs' parent.pos) (blk.pos :: L)
  sound : Sound fs' (Function.update own blk.pos parent.pos)

section Link

variable {env : Env} {fs fs' : Shfs} {own : Idx → Idx} {parent pblk blk inode : Block}
  {L : List Idx}

/-- A new inode linked to a copy of its parent is a new child. -/
theorem Copy.linkNew (hsound : Sound fs own) (hcopy : Copy fs own parent)
    (htype : inode.type ≠ .null) (hfpos : inode.fpos = Idx.zero)
    (hL : Chain (nextOf fs) parent.fpos.ref L) (hall : AllStored fs L)
    (hown : ∀ p ∈ L, own p = parent.pos)
    (hrun : Fs.linkNew env fs parent inode = (fs', pblk, blk, .ok ())) :
    NewChild fs fs' own parent pblk blk L ∧ blk.name = inode.name := by
  obtain ⟨-, -, hmap⟩ := hsound.cell _ hcopy.live
  rcases linkNew_spec hL hall hmap htype hfpos hrun with ⟨⟨err, hcon⟩, -, -⟩ | ⟨-, fs2, hlink⟩
  · cases hcon
  obtain ⟨mtime, hpblk⟩ := hlink.parent_eq
  obtain ⟨writes, hfs'⟩ := hlink.store_eq
  have hpp : pblk.pos = parent.pos := by rw [hpblk]
  have hne : blk.pos ≠ parent.pos := fun heq => hlink.free (heq ▸ hcopy.live)
  have hself : fs'.block parent.pos = pblk := by rw [hfs', ← hpp, Shfs.store_self]
  have hback : ∀ p, p ≠ parent.pos → fs'.block p = fs2.block p := by
    intro p hp
    rw [hfs', Shfs.store_ne _ _ (by rw [hpp]; exact hp)]
  have hsize : fs'.size = fs2.size := by
    rw [hfs']
    rfl
  have hfirst : firstOf fs' parent.pos = some blk.pos := by
    rw [firstOf, hself, hpblk]
    exact hlink.ref_eq
  have hnot : parent.pos ∉ blk.pos :: L := by
    rw [List.mem_cons, not_or]
    exact ⟨Ne.symm hne, fun hin => hsound.links.irrefl _ hcopy.live (hown _ hin)⟩
  -- the owners: the child belongs to its parent
  have howner : (fun q => if q ∈ blk.pos :: L then parent.pos else own q) =
      Function.update own blk.pos parent.pos := by
    funext q
    by_cases hq : q = blk.pos
    · rw [hq, if_pos List.mem_cons_self, Function.update_self]
    · rw [Function.update_of_ne hq]
      by_cases hqL : q ∈ L
      · rw [if_pos (List.mem_cons_of_mem _ hqL), hown q hqL]
      · rw [if_neg (by simp [hq, hqL])]
  refine ⟨⟨hlink.parent_eq, hself, hlink.free, ?_, ?_, hlink.fpos_eq.trans hfpos, hlink.jno_ne,
    ?_, ?_, ?_, ?_, ?_⟩, hlink.name_eq⟩
  · rw [hback _ hne, hlink.block_eq]
  · rw [hlink.type_eq]
    exact htype
  · intro p hp hpp
    rw [hback p hpp, hlink.frame p hp]
  · rw [hsize, hlink.size_eq]
  · intro j
    rw [hsize]
    exact hlink.chain.size_le j
  · rw [hfirst]
    exact hlink.chain.chain.congr fun q hq => nextOf_congr (hback q fun heq => hnot (heq ▸ hq))
  · rw [← howner]
    refine hlink.chain.sound hsound hcopy.live hown (Or.inr fun c hc => ?_) hback hsize ?_
      (by rw [hself, hpp]) (Or.inl ?_) hfirst
    · cases hc
      exact hlink.free
    · rw [Shfs.live, hself, hpblk, ← hcopy.type_eq]
      exact hcopy.live
    · rw [nextOf, hself, nextOf, hcopy.npos_eq, hpblk]

/-- The block of the new child has not been in use. -/
theorem NewChild.ne_child (h : NewChild fs fs' own parent pblk blk L) {p : Idx} (hp : fs.live p) :
    p ≠ blk.pos := by
  rintro rfl
  exact h.free hp

/-- The owners of the other blocks are what they were. -/
theorem NewChild.own_eq (h : NewChild fs fs' own parent pblk blk L) {p : Idx} (hp : fs.live p) :
    Function.update own blk.pos parent.pos p = own p :=
  Function.update_of_ne (h.ne_child hp) _ _

/-- The header of a block that was in use, except for the first position. -/
theorem NewChild.kept (h : NewChild fs fs' own parent pblk blk L) (hcopy : Copy fs own parent)
    {p : Idx} (hp : fs.live p) : (fs'.block p).type = (fs.block p).type ∧
      (fs'.block p).name = (fs.block p).name ∧ (fs'.block p).npos = (fs.block p).npos := by
  by_cases hpp : p = parent.pos
  · obtain ⟨mtime, hpblk⟩ := h.parent_eq
    rw [hpp, h.parent_block, hpblk, hcopy.type_eq, hcopy.name_eq, hcopy.npos_eq]
    exact ⟨rfl, rfl, rfl⟩
  · rw [h.frame p (h.ne_child hp) hpp]
    exact ⟨rfl, rfl, rfl⟩

/-- What has been in use is in use. -/
theorem NewChild.live (h : NewChild fs fs' own parent pblk blk L) (hcopy : Copy fs own parent)
    {p : Idx} (hp : fs.live p) : fs'.live p := by
  rw [Shfs.live, (h.kept hcopy hp).1]
  exact hp

/-- The new child is in use. -/
theorem NewChild.live_child (h : NewChild fs fs' own parent pblk blk L) : fs'.live blk.pos := by
  rw [Shfs.live, h.child_block]
  exact h.child_type

/-- The blocks in use: one more. -/
theorem NewChild.live_cases (h : NewChild fs fs' own parent pblk blk L)
    (hcopy : Copy fs own parent) {p : Idx} (hp : fs'.live p) : p = blk.pos ∨ fs.live p := by
  by_cases hpb : p = blk.pos
  · exact Or.inl hpb
  by_cases hpp : p = parent.pos
  · rw [hpp]
    exact Or.inr hcopy.live
  · rw [Shfs.live, h.frame p hpb hpp] at hp
    exact Or.inr hp

/-- The store has grown by the child. -/
theorem NewChild.grows (h : NewChild fs fs' own parent pblk blk L) (hcopy : Copy fs own parent) :
    Grows fs own fs' (Function.update own blk.pos parent.pos) :=
  ⟨fun _ hp => h.live hcopy hp, fun _ hp => h.own_eq hp, fun _ hp => (h.kept hcopy hp).2.1,
    fun _ hp => (h.kept hcopy hp).1⟩

/-- The owner of a block that was in use is not the new child. -/
theorem NewChild.live_owner (h : NewChild fs fs' own parent pblk blk L) (hl : Listed fs own)
    {p : Idx} (hp : fs.live p) (hpo : fs'.live (own p)) : fs.live (own p) := by
  rcases hl.rooted p hp with hown | hzero
  · exact hown
  · exact absurd (by rw [hzero]; rfl) (h.sound.cell _ hpo).2.1

/-- The chain of the parent has the new child in front, the others are as before. -/
theorem NewChild.complete (h : NewChild fs fs' own parent pblk blk L) (hl : Listed fs own)
    (hcopy : Copy fs own parent) (hcur : Current fs parent)
    (hL : Chain (nextOf fs) parent.fpos.ref L) {p : Idx} {L' : List Idx} (hp : fs'.live p)
    (hpo : fs'.live (Function.update own blk.pos parent.pos p))
    (hL' : Chain (nextOf fs') (firstOf fs' (Function.update own blk.pos parent.pos p)) L') :
    p ∈ L' := by
  by_cases hpar : Function.update own blk.pos parent.pos p = parent.pos
  · rw [hpar] at hL'
    rw [hL'.unique h.chain]
    rcases h.live_cases hcopy hp with rfl | hp
    · exact List.mem_cons_self
    · rw [h.own_eq hp] at hpar
      refine List.mem_cons_of_mem _ (hl.complete p L hp (by rw [hpar]; exact hcopy.live) ?_)
      rw [hpar, firstOf, ← hcur]
      exact hL
  · rcases h.live_cases hcopy hp with rfl | hp
    · exact absurd (Function.update_self ..) hpar
    rw [h.own_eq hp] at hpar hpo hL'
    have hlo := h.live_owner hl hp hpo
    obtain ⟨L0, hL0⟩ := hl.sound.links.ends hlo
    have hchain : Chain (nextOf fs') (firstOf fs' (own p)) L0 := by
      rw [firstOf_congr (h.frame _ (h.ne_child hlo) hpar)]
      refine hL0.congr fun q hq => ?_
      have hq := (hl.sound.links.mem_chain hlo hL0 q hq).1
      rw [nextOf, (h.kept hcopy hq).2.2, nextOf]
    rw [hL'.unique hchain]
    exact hl.complete p L0 hp hlo hL0

/-- A child with a new key below a copy that knows the first child. -/
theorem Listed.link (hl : Listed fs own) (hcopy : Copy fs own parent) (hcur : Current fs parent)
    (hcont : parent.type.isContainer = true) (hL : Chain (nextOf fs) parent.fpos.ref L)
    (hfresh : ∀ p ∈ L, (fs.block p).name ≠ blk.name)
    (h : NewChild fs fs' own parent pblk blk L) :
    Listed fs' (Function.update own blk.pos parent.pos) := by
  have hkey : ∀ q, fs.live q → own q = parent.pos →
      (fs'.block q).name ≠ (fs'.block blk.pos).name := by
    intro q hq hown
    rw [(h.kept hcopy hq).2.1, h.child_block]
    refine hfresh q (hl.complete q L hq (by rw [hown]; exact hcopy.live) ?_)
    rw [hown, firstOf, ← hcur]
    exact hL
  refine ⟨h.sound, ?_, ?_, ?_, fun p L' hp hpo hL' => h.complete hl hcopy hcur hL hp hpo hL'⟩
  · intro p hp
    rcases h.live_cases hcopy hp with rfl | hp
    · rw [Function.update_self]
      exact Or.inl (h.live hcopy hcopy.live)
    · rw [h.own_eq hp]
      exact (hl.rooted p hp).imp_left fun hlo => h.live hcopy hlo
  · intro p hp hpo
    rcases h.live_cases hcopy hp with rfl | hp
    · obtain ⟨mtime, hpblk⟩ := h.parent_eq
      rw [Function.update_self, h.parent_block, hpblk]
      exact hcont
    · rw [h.own_eq hp] at hpo ⊢
      have hlo := h.live_owner hl hp hpo
      rw [(h.kept hcopy hlo).1]
      exact hl.holder p hp hlo
  · intro p q hp hq heq hname
    rcases h.live_cases hcopy hp with rfl | hp
    · rcases h.live_cases hcopy hq with rfl | hq
      · rfl
      · rw [Function.update_self, h.own_eq hq] at heq
        exact absurd hname.symm (hkey q hq heq.symm)
    · rcases h.live_cases hcopy hq with rfl | hq
      · rw [Function.update_self, h.own_eq hp] at heq
        exact absurd hname (hkey p hp heq)
      · rw [h.own_eq hp, h.own_eq hq] at heq
        rw [(h.kept hcopy hp).2.1, (h.kept hcopy hq).2.1] at hname
        exact hl.distinct p q hp hq heq hname

/-- The other copies stay copies, those of the parent in other handles too. -/
theorem Copy.grow {b : Block} (hb : Copy fs own b) (hcopy : Copy fs own parent)
    (h : NewChild fs fs' own parent pblk blk L) :
    Copy fs' (Function.update own blk.pos parent.pos) b := by
  obtain ⟨htype, hname, hnpos⟩ := h.kept hcopy hb.live
  refine ⟨h.live hcopy hb.live, htype.trans hb.type_eq, hname.trans hb.name_eq,
    hnpos.trans hb.npos_eq, ?_, fun q hq => ?_⟩
  · rw [h.own_eq hb.live]
    exact h.live hcopy hb.owned
  · obtain ⟨hlive, hown⟩ := hb.first q hq
    exact ⟨h.live hcopy hlive, by rw [h.own_eq hlive, hown]⟩

/-- The copy of the parent is up to date. -/
theorem NewChild.copy_parent (h : NewChild fs fs' own parent pblk blk L)
    (hcopy : Copy fs own parent) : Copy fs' (Function.update own blk.pos parent.pos) pblk := by
  obtain ⟨mtime, hpblk⟩ := h.parent_eq
  have hgrow := hcopy.grow hcopy h
  rw [hpblk]
  refine ⟨hgrow.live, hgrow.type_eq, hgrow.name_eq, hgrow.npos_eq, hgrow.owned, fun q hq => ?_⟩
  obtain ⟨rfl, -⟩ := Idx.ref_eq_some hq
  exact ⟨h.live_child, Function.update_self ..⟩

/-- The copy of the child is up to date but for its owner, its attributes and its salt. -/
theorem NewChild.copy_child (h : NewChild fs fs' own parent pblk blk L)
    (hcopy : Copy fs own parent) (acc : Access) :
    Copy fs' (Function.update own blk.pos parent.pos)
      { blk with owner := acc.owner, attr := acc.attr, salt := acc.salt } := by
  refine ⟨h.live_child, ?_, ?_, ?_, ?_, fun q hq => ?_⟩
  · rw [h.child_block]
  · rw [h.child_block]
  · rw [h.child_block]
  · rw [Function.update_self]
    exact h.live hcopy hcopy.live
  · rw [h.child_fpos] at hq
    cases hq

end Link

end LibShare.Fs
