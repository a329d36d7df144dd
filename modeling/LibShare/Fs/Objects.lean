import LibShare.Fs.Entity
import LibShare.Fs.Listing
import LibShare.Fs.Rev

/-!
# libshare — object keys

A key that is stored below an inode under a name (`shfs_obj.c`). The inode of the name
holds the name at the start of its data segment and the key at the end (`shfs_block_obj_t`);
looking for a name creates its inode.

`Objects` relates a partition with one client to what has been set: the copies in memory
have the data of their blocks, a block with one of the names holds the key that was set last,
and a name that has a key has a block. Every call keeps it (`Objects.run`), so that
`shfs_obj_get` reads the last key (`obj_get`). A name is what `shfs_inode` makes of it: two
names that differ by a trailing slash are one (`slash_names_same_object`).
-/

namespace LibShare.Fs

/-! ## Layout (`shfs_block_obj_t`) -/

/-- The offset of the key: it starts with the next word behind the name. -/
def objKeyAt : Nat := (pathMax + 3) / 4 * 4

/-- The size of a `shfs_block_obj_t`. -/
def sizeofBlockObj : Nat := objKeyAt + 32

/-- The key in a data segment. -/
def objKey (raw : Vector UInt8 blockDataSize) : ShKey :=
  ShKey.ofBytes ((raw.toList.drop objKeyAt).take 32)

/-- What has been copied into a data segment is read back. -/
theorem overlay_slice (raw : Vector UInt8 blockDataSize) {of : Nat} {data : Bytes}
    (h : of + data.length ≤ blockDataSize) :
    ((overlay raw of data).toList.drop of).take data.length = data := by
  have hlen : (overlay raw of data).toList.length = blockDataSize := Vector.length_toList
  apply List.ext_getElem
  · rw [List.length_take, List.length_drop, hlen]
    omega
  · intro i hi hi'
    have hb : of + i < blockDataSize := by omega
    have hin : of ≤ of + i ∧ of + i < of + data.length := ⟨by omega, by omega⟩
    simp only [List.getElem_take, List.getElem_drop, Vector.getElem_toList, overlay,
      Vector.getElem_ofFn, hin, and_self, if_true, Nat.add_sub_cancel_left]
    rw [List.getD_eq_getElem?_getD, List.getElem?_eq_getElem hi', Option.getD_some]

theorem objKey_overlay (raw : Vector UInt8 blockDataSize) (key : ShKey) :
    objKey (overlay raw objKeyAt key.toBytes) = key := by
  have hlen := length_toBytes key
  rw [objKey, ← hlen, overlay_slice raw (by rw [hlen]; decide), ofBytes_toBytes]

/-- A path does not reach the key: a new inode holds none. -/
theorem objKey_newInode (key : ShKey) (name : Bytes) (mode : Shinode) :
    objKey (newInode key (inodePath name mode).2 (inodePath name mode).1).raw = ashkeyBlank := by
  have hpath := inodePath_length name mode
  have hat : pathMax ≤ objKeyAt := by decide
  have hraw : Block.zero.raw.toList = List.replicate blockDataSize 0 := Vector.toList_replicate
  have hblank : objKey Block.zero.raw = ashkeyBlank := by
    rw [objKey, hraw, List.drop_replicate, List.take_replicate]
    decide
  simp only [newInode]
  split
  · have hle : (inodePath name mode).1.length ≤ blockDataSize := by
      have hblock : pathMax ≤ blockDataSize := by decide
      omega
    rw [← hblank, objKey, objKey, overlay_toList _ hle, List.drop_append,
      List.drop_eq_nil_of_le (by omega), List.nil_append, List.drop_drop,
        Nat.add_sub_cancel' (by omega)]
  · exact hblank

/-! ## Operations (`shfs_obj.c`) -/

/-- The inode of a name: `shfs_inode(file, name, SHINODE_OBJECT)`. -/
def Mount.shfsObj (env : Env) (fuel : Nat) (m : Mount) (i : Nat) (name : Bytes) (acc : Access) :
    Option (Mount × Option (Nat × Ino)) :=
  m.openChild env fuel i name .object acc

/-- An inode that has been given a key. -/
def objBlock (blk : Block) (key : ShKey) : Block :=
  let raw := overlay blk.raw objKeyAt key.toBytes
  { blk with
    raw := raw
    size := sizeofBlockObj
    crc := shcrc (raw.toList.take sizeofBlockObj)
    format := .object }

/-- `shfs_obj_set`. -/
def Mount.shfsObjSet (env : Env) (fuel : Nat) (m : Mount) (i : Nat) (name : Bytes) (key : ShKey)
    (acc : Access) :
    Option (Mount × Except Sherr Unit) :=
  match m.shfsObj env fuel i name acc with
  | none => none
  | some (m, none) => some (m, .error .io)
  | some (m, some (n, obj)) =>
    some (shfsInodeWriteEntity env (m.setBlk n obj (objBlock obj.blk key)) n)

/-- `shfs_obj_get`. -/
def Mount.shfsObjGet (env : Env) (fuel : Nat) (m : Mount) (i : Nat) (name : Bytes) (acc : Access) :
    Option (Mount × Except Sherr ShKey) :=
  match m.shfsObj env fuel i name acc with
  | none => none
  | some (m, none) => some (m, .error .io)
  | some (m, some (_, obj)) =>
    some (m, if objKey obj.blk.raw = ashkeyBlank then .error .noent else .ok (objKey obj.blk.raw))

/-! ## What has been set -/

/-- The copies in memory have the data of their blocks. -/
def RawsStored (fs : Shfs) (inos : List Ino) : Prop :=
  ∀ (i : Nat) (ino : Ino), inos[i]? = some ino → ino.blk.raw = (fs.block ino.blk.pos).raw

/-- The tokens of different paths are different, below any inode with children. -/
def TokensDistinct (env : Env) (fs : Shfs) (N : Set Bytes) : Prop :=
  ∀ d, fs.live d → (fs.block d).fpos.ino ≠ 0 →
    Set.InjOn (fun path => env.token (fs.block d).name (fs.block d).salt .object path) N

/-- The partition holds the keys that have been set last, by the inode and the path. -/
structure Objects (env : Env) (N : Set Bytes) (fs : Shfs) (own : Idx → Idx)
    (last : Idx × Bytes → ShKey) : Prop where
  value : ∀ d p name, (inodePath name .object).1 ∈ N → Named env fs own d p name .object →
    objKey (fs.block p).raw = last (d, (inodePath name .object).1)
  known : ∀ d name, (inodePath name .object).1 ∈ N →
    last (d, (inodePath name .object).1) ≠ ashkeyBlank →
    ∃ p, Named env fs own d p name .object

section Kept

variable {env : Env} {peer : Peer} {fs fs' : Shfs} {own own' : Idx → Idx} {N : Set Bytes}
  {last : Idx × Bytes → ShKey} {d p q : Idx} {name name' : Bytes} {mode : Shinode}

theorem inodePath_object (name : Bytes) :
    inodePath name .object = ((inodePath name .object).1, .object) := by
  unfold inodePath
  dsimp only
  split <;> rfl

/-- A block that was in use had its name before. -/
theorem Named.back (h : Named env fs' own' d p name mode) (hl : Listed fs own)
    (hs' : Sound fs' own')
    (hgrows : Grows fs own fs' own') (hsalt : SaltKept fs fs') (hp : fs.live p) :
    Named env fs own d p name mode := by
  have hown : own p = d := by rw [← hgrows.own_eq p hp, h.own_eq]
  have hd : fs.live d := by
    rcases hl.rooted p hp with hd | hzero
    · rwa [hown] at hd
    · -- the owner is in use, so it has a number
      rw [hown] at hzero
      exact absurd (by rw [hzero]; rfl) (hs'.cell _ h.live_dir).2.1
  have hne : (fs.block d).fpos.ino ≠ 0 := by
    rw [← hown]
    exact hl.first_ne hp (by rw [hown]; exact hd)
  refine ⟨hp, hd, hown, ?_⟩
  rw [← hgrows.name_eq p hp, h.key_eq, childKey, childKey, hgrows.name_eq d hd, (hsalt d hd hne).2]

theorem Named.unique (h : Named env fs own d p name mode) (h' : Named env fs own d q name mode)
    (hl : Listed fs own) :
    p = q :=
  hl.distinct p q h.live h'.live (by rw [h.own_eq, h'.own_eq]) (by rw [h.key_eq, h'.key_eq])

/-- The path makes the name of an object. -/
theorem Named.path (h : Named env fs own d p name .object)
    (hpath : (inodePath name' .object).1 = (inodePath name .object).1) :
    Named env fs own d p name' .object := by
  have heq : inodePath name' .object = inodePath name .object := by
    rw [inodePath_object name', inodePath_object name, hpath]
  exact ⟨h.live, h.live_dir, h.own_eq, by rw [h.key_eq, childKey, childKey, heq]⟩

theorem TokensDistinct.back (h : TokensDistinct env fs' N) (hgrows : Grows fs own fs' own')
    (hsalt : SaltKept fs fs') :
    TokensDistinct env fs N := by
  intro d hd hne
  obtain ⟨hne', hsalt'⟩ := hsalt d hd hne
  have hinj := h d (hgrows.live d hd) hne'
  rwa [hgrows.name_eq d hd, hsalt'] at hinj

/-- One name of an inode below a directory, among the names in use. -/
theorem TokensDistinct.path_eq (h : TokensDistinct env fs N) (hl : Listed fs own)
    (hx : (inodePath name .object).1 ∈ N) (hy : (inodePath name' .object).1 ∈ N)
    (hn : Named env fs own d p name .object) (hn' : Named env fs own d p name' .object) :
    (inodePath name .object).1 = (inodePath name' .object).1 := by
  refine h d hn.live_dir (hn.first hl) hx hy ?_
  have hkey := hn.key_eq.symm.trans hn'.key_eq
  rwa [childKey, childKey, inodePath_object name, inodePath_object name'] at hkey

/-- The blocks that were in use keep their data, and new ones hold no key. -/
theorem Objects.grow (h : Objects env N fs own last) (hl : Listed fs own) (hl' : Listed fs' own')
    (hgrows : Grows fs own fs' own') (hsalt : SaltKept fs fs')
    (hraw : ∀ p, fs'.live p → (fs.live p ∧ (fs'.block p).raw = (fs.block p).raw) ∨
      (¬ fs.live p ∧ objKey (fs'.block p).raw = ashkeyBlank)) : Objects env N fs' own' last where
  value d p name hname hp := by
    rcases hraw p hp.live with ⟨hlive, heq⟩ | ⟨hfree, hblank⟩
    · rw [heq]
      exact h.value d p name hname (hp.back hl hl'.sound hgrows hsalt hlive)
    · rw [hblank]
      by_contra hne
      -- a name that has a key has had its inode
      obtain ⟨q, hq⟩ := h.known d name hname (Ne.symm hne)
      exact hfree (hp.unique (hq.kept hl hgrows hsalt) hl' ▸ hq.live)
  known d name hname hne := by
    obtain ⟨p, hp⟩ := h.known d name hname hne
    exact ⟨p, hp.kept hl hgrows hsalt⟩

end Kept

/-! ## Calls -/

section Calls

variable {env : Env} {peer : Peer} {fuel : Nat} {s s' : Handles Unit} {own own' : Idx → Idx}
  {N : Set Bytes}
  {last : Idx × Bytes → ShKey} {node root : Idx} {i : Nat} {name : Bytes} {mode : Shinode}
  {acc : Access}

/-- A call of `shfs_inode` leaves the data of the blocks as it is, and makes at most one
inode, without a key. -/
theorem Alone.raws (h : Alone s.fs (s.inos ())) (hagreed : Agreed peer s own node root)
    (hraw : RawsStored s.fs (s.inos ())) {res : Mount × Option Nat}
    (hrun : shfsInode env fuel (s.mount ()) i name mode acc = some res) :
    RawsStored res.1.fs res.1.inos ∧ ∀ p, res.1.fs.live p →
      (s.fs.live p ∧ (res.1.fs.block p).raw = (s.fs.block p).raw) ∨
      (¬ s.fs.live p ∧ objKey (res.1.fs.block p).raw = ashkeyBlank) := by
  rcases hagreed.inode_cases (h.fresh _) hrun with ⟨hsame, -⟩ |
    ⟨ino, hi, -, -, ⟨p, hp, -, -, hres⟩ | ⟨fs', pblk, blk, L, -, -, -, -, hnew, -, hbraw, hres⟩⟩
  · rw [hsame]
    exact ⟨hraw, fun p hp => Or.inl ⟨hp, rfl⟩⟩
  · rw [hres]
    refine ⟨fun j a ha => ?_, fun q hq => Or.inl ⟨hq, rfl⟩⟩
    rcases getElem?_concat_cases ha with ha | ⟨-, rfl⟩
    · exact hraw j a ha
    · rw [(hagreed.listed.sound.cell p hp).1]
  · have hcopy := (hagreed.handle ()).copy
    obtain ⟨mtime, hpblk⟩ := hnew.parent_eq
    rw [hres]
    refine ⟨fun j a ha => ?_, fun q hq => ?_⟩
    · rcases hnew.get h hcopy hi ha with ⟨-, hblk⟩ | ⟨-, hblk⟩ | ⟨ha, hframe⟩
      · have hpos : pblk.pos = ino.blk.pos := by rw [hpblk]
        rw [hblk, hpos, hnew.parent_block]
      · rw [hblk, hnew.child_block]
      · rw [hframe]
        exact hraw j a ha
    · rcases hnew.live_cases (hcopy i ino hi) hq with rfl | hlive
      · refine Or.inr ⟨hnew.free, ?_⟩
        rw [hnew.child_block, hbraw]
        exact objKey_newInode _ _ _
      · refine Or.inl ⟨hlive, ?_⟩
        by_cases hqp : q = ino.blk.pos
        · rw [hqp, hnew.parent_block, hpblk]
          exact hraw i ino hi
        · rw [hnew.frame q (hnew.ne_child hlive) hqp]

/-- A partition with one client, and what has been set in it. -/
structure Storing (env : Env) (peer : Peer) (N : Set Bytes) (s : Handles Unit) (own : Idx → Idx)
    (last : Idx × Bytes → ShKey) (node root : Idx) : Prop where
  agreed : Agreed peer s own node root
  alone : Alone s.fs (s.inos ())
  raws : RawsStored s.fs (s.inos ())
  objects : TokensDistinct env s.fs N → Objects env N s.fs own last

theorem Storing.inode (h : Storing env peer N s own last node root) {res : Mount × Option Nat}
    (hrun : shfsInode env fuel (s.mount ()) i name mode acc = some res) {own' : Idx → Idx}
    (hagreed : Agreed peer (s.put () res.1) own' node root)
    (hgrows : Grows s.fs own res.1.fs own') :
    Storing env peer N (s.put () res.1) own' last node root ∧
      (Objects env N s.fs own last → Objects env N res.1.fs own' last) := by
  obtain ⟨hstored, hraw⟩ := h.alone.raws h.agreed h.raws hrun
  obtain ⟨halone, hsalt, -⟩ := h.alone.inode h.agreed hrun
  have hgrow : Objects env N s.fs own last → Objects env N res.1.fs own' last :=
    fun hobj => hobj.grow h.agreed.listed hagreed.listed hgrows hsalt hraw
  refine ⟨⟨hagreed, ?_, ?_, fun hd => hgrow (h.objects (hd.back hgrows hsalt))⟩, hgrow⟩
  · rw [put_unit]
    exact halone
  · rw [put_unit]
    exact hstored

theorem Storing.step {op : HandleOp Unit} (h : Storing env peer N s own last node root)
    (hrun : op.run env peer fuel s = some s') :
    ∃ own', Storing env peer N s' own' last node root := by
  obtain ⟨halone, -⟩ := h.alone.step h.agreed hrun
  cases op with
  | init c salt =>
    obtain ⟨m, hm, rfl⟩ := Option.map_eq_some_iff.mp hrun
    have hm := ok_of_toOption hm
    have hagreed := h.agreed.init (c := ()) hm
    have hsound := h.agreed.listed.sound
    rw [h.agreed.super.shfsInit hsound, Except.ok.injEq] at hm
    refine ⟨own, hagreed, halone, ?_, ?_⟩
    · rw [put_unit, ← hm]
      intro j a ha
      rw [List.mem_singleton.mp (List.mem_of_getElem? ha),
        (hsound.cell _ h.agreed.super.live_root).1]
      rfl
    · rw [← hm]
      exact h.objects
  | inode c i name mode acc =>
    obtain ⟨res, hres, rfl⟩ := Option.map_eq_some_iff.mp hrun
    obtain ⟨own', hagreed, hgrows, -⟩ := h.agreed.inode (h.alone.fresh _) hres
    exact ⟨own', (h.inode hres hagreed hgrows).1⟩
  | free c i =>
    obtain ⟨inos, hinos, rfl⟩ := Option.map_eq_some_iff.mp hrun
    obtain ⟨f, hf⟩ := renumbered_free hinos
    refine ⟨own, h.agreed.free hinos, halone, ?_, h.objects⟩
    rw [put_unit]
    intro j a ha
    obtain ⟨b, hb, hblk, -⟩ := hf.get j a ha
    rw [hblk]
    exact h.raws _ b hb

/-- The inode of a name has been opened. -/
theorem Storing.obj {m : Mount} {r : Option (Nat × Ino)} {file : Ino}
    (h : Storing env peer N s own last node root)
    (hi : (s.inos ())[i]? = some file)
    (hrun : (s.mount ()).shfsObj env fuel i name acc = some (m, r)) :
    ∃ own', Storing env peer N (s.put () m) own' last node root ∧
      (Objects env N s.fs own last → Objects env N m.fs own' last) ∧
      ((r = none ∧ m = s.mount () ∧
          shfsInode env fuel (s.mount ()) i name .object acc = some (s.mount (), none)) ∨
            ∃ n obj, r = some (n, obj) ∧ m.inos[n]? = some obj ∧
        Named env m.fs own' file.blk.pos obj.blk.pos name .object) := by
  obtain ⟨own', hagreed, -, hgrows, -, ⟨rfl, rfl, hnone⟩ | ⟨n, obj, rfl, hres, hopened⟩⟩ :=
    h.alone.openChild h.agreed hi hrun
  · obtain ⟨hstoring, hobj⟩ := h.inode hnone hagreed hgrows
    exact ⟨own', hstoring, hobj, Or.inl ⟨rfl, rfl, hnone⟩⟩
  · obtain ⟨hstoring, hobj⟩ := h.inode hres hagreed hgrows
    exact ⟨own', hstoring, hobj, Or.inr ⟨n, obj, rfl, hopened.get, hopened.named⟩⟩

/-- A key is written into the inode of its name. -/
theorem Storing.set {n : Nat} {obj : Ino} {d : Idx} (h : Storing env peer N s own last node root)
    (hn : (s.inos ())[n]? = some obj) (hnamed : Named env s.fs own d obj.blk.pos name .object)
    (hname : (inodePath name .object).1 ∈ N) (key : ShKey) : ∃ m,
    shfsInodeWriteEntity env ((s.mount ()).setBlk n obj (objBlock obj.blk key)) n = (m, .ok ()) ∧
      Storing env peer N (s.put () m) own (Function.update last (d, (inodePath name .object).1) key)
        node root := by
  have hl := h.agreed.listed
  have hlinks : SameLinks obj.blk (objBlock obj.blk key) := ⟨rfl, rfl, rfl, rfl, rfl⟩
  obtain ⟨m, mtime, hrun, hw, hagreed, halone, hgrows, hsalt⟩ :=
    h.alone.write env h.agreed hn hlinks rfl
  have hblock : (m.fs.block obj.blk.pos).raw = (objBlock obj.blk key).raw := by rw [hw.block]
  have hframe : ∀ p, p ≠ obj.blk.pos → m.fs.block p = s.fs.block p := hw.frame
  -- no block becomes live by a write
  have hlive : ∀ p, m.fs.live p → s.fs.live p := by
    intro p hp
    by_cases hpo : p = obj.blk.pos
    · rw [hpo]
      exact hnamed.live
    · rwa [Shfs.live, hframe p hpo] at hp
  have hkept := hnamed.kept hl hgrows hsalt
  refine ⟨m, hrun, hagreed, by rw [put_unit]; exact halone, ?_, fun hd => ⟨?_, ?_⟩⟩
  · rw [put_unit, hw.inos]
    intro j a ha
    rcases getElem?_set_cases ha with ⟨-, rfl⟩ | ⟨hj, ha⟩
    · exact hblock.symm
    · show a.blk.raw = (m.fs.block a.blk.pos).raw
      rw [hframe _ fun heq => hj (h.alone.apart j n a obj ha hn heq)]
      exact h.raws j a ha
  · intro d' p name' hname' hp
    have hobj := h.objects (hd.back hgrows hsalt)
    by_cases hpo : p = obj.blk.pos
    · -- the inode that has been written has one name
      subst hpo
      have hdir : d' = d := hp.own_eq.symm.trans hnamed.own_eq
      subst hdir
      have hpath := hd.path_eq hagreed.listed hname' hname hp hkept
      rw [hpath, Function.update_self]
      show objKey (m.fs.block obj.blk.pos).raw = key
      rw [hblock]
      exact objKey_overlay _ _
    · rw [Function.update_of_ne]
      · show objKey (m.fs.block p).raw = _
        rw [hframe p hpo]
        exact hobj.value d' p name' hname' (hp.back hl hagreed.listed.sound hgrows hsalt
          (hlive p hp.live))
      · intro heq
        obtain ⟨rfl, hpath⟩ := Prod.ext_iff.mp heq
        exact hpo (hp.unique (hkept.path hpath) hagreed.listed)
  · -- a name that has been set is known after it
    intro d' name' hname' hne
    by_cases heq : (d', (inodePath name' .object).1) = (d, (inodePath name .object).1)
    · obtain ⟨rfl, hpath⟩ := Prod.ext_iff.mp heq
      exact ⟨_, hkept.path hpath⟩
    · rw [Function.update_of_ne heq] at hne
      obtain ⟨p, hp⟩ := (h.objects (hd.back hgrows hsalt)).known d' name' hname' hne
      exact ⟨p, hp.kept hl hgrows hsalt⟩

end Calls

/-! ## Runs -/

/-- Calls of a client that sets keys under some names: the partition, and the keys that have
been set last, by the file and the path of the name. -/
inductive ObjRun (env : Env) (peer : Peer) (N : Set Bytes) :
    Handles Unit → (Idx × Bytes → ShKey) → Prop
  | new {s : Handles Unit} : NewHandles env peer s → ObjRun env peer N s fun _ => ashkeyBlank
  | call {s s' : Handles Unit} {last : Idx × Bytes → ShKey} {op : HandleOp Unit} {fuel : Nat} :
    ObjRun env peer N s last → op.run env peer fuel s = some s' → ObjRun env peer N s' last
  | set {s : Handles Unit} {last : Idx × Bytes → ShKey} {i fuel : Nat} {file : Ino} {name : Bytes}
      {key : ShKey}
      {acc : Access} {m : Mount} : ObjRun env peer N s last → (s.inos ())[i]? = some file →
    (inodePath name .object).1 ∈ N → (s.mount ()).shfsObjSet env fuel i name key acc =
    some (m, .ok ()) →
    ObjRun env peer N (s.put () m)
      (Function.update last (file.blk.pos, (inodePath name .object).1) key)
  | failed {s : Handles Unit} {last : Idx × Bytes → ShKey} {i fuel : Nat} {file : Ino}
      {name : Bytes} {key : ShKey}
      {acc : Access} {m : Mount} {err : Sherr} :
      ObjRun env peer N s last → (s.inos ())[i]? = some file →
    (inodePath name .object).1 ∈ N → (s.mount ()).shfsObjSet env fuel i name key acc =
    some (m, .error err) →
    ObjRun env peer N (s.put () m) last
  | get {s : Handles Unit} {last : Idx × Bytes → ShKey} {i fuel : Nat} {file : Ino} {name : Bytes}
      {acc : Access}
      {m : Mount} {res : Except Sherr ShKey} :
      ObjRun env peer N s last → (s.inos ())[i]? = some file →
    (s.mount ()).shfsObjGet env fuel i name acc = some (m, res) →
    ObjRun env peer N (s.put () m) last

section Runs

variable {env : Env} {peer : Peer} {fuel : Nat} {s : Handles Unit} {own : Idx → Idx} {N : Set Bytes}
  {last : Idx × Bytes → ShKey} {node root : Idx} {i : Nat} {name : Bytes} {acc : Access}
  {file : Ino} {m : Mount}

/-- A call of `shfs_obj_set`. -/
theorem Storing.objSet {key : ShKey} {res : Except Sherr Unit}
    (h : Storing env peer N s own last node root)
    (hi : (s.inos ())[i]? = some file) (hname : (inodePath name .object).1 ∈ N)
    (hrun : (s.mount ()).shfsObjSet env fuel i name key acc = some (m, res)) :
    ∃ own', Storing env peer N (s.put () m) own' (match res with
      | .ok _ => Function.update last (file.blk.pos, (inodePath name .object).1) key
      | .error _ => last) node root := by
  unfold Mount.shfsObjSet at hrun
  split at hrun
  · cases hrun
  · next hobj =>
    cases hrun
    obtain ⟨own', hstoring, -⟩ := h.obj hi hobj
    exact ⟨own', hstoring⟩
  · next m1 n obj hobj =>
    obtain ⟨own', hstoring, -, ⟨hnone, -, -⟩ | ⟨n', obj', heq, hn, hnamed⟩⟩ := h.obj hi hobj
    · cases hnone
    · cases heq
      rw [← put_unit s m1] at hn
      obtain ⟨m2, hwrite, hset⟩ := hstoring.set hn hnamed hname key
      rw [mount_put] at hwrite
      rw [hwrite] at hrun
      cases hrun
      rw [put_put] at hset
      exact ⟨own', hset⟩

/-- A new partition holds no keys. -/
theorem objects_new (h : NewHandles env peer s) : ∃ own node root, Agreed peer s own node root ∧
    ∀ p d, s.fs.live p → s.fs.live d → own p = d → objKey (s.fs.block p).raw = ashkeyBlank := by
  obtain ⟨salt, m, hinit, rfl⟩ := h
  rw [shfsInit_empty] at hinit
  obtain ⟨node, root, hnew⟩ := newPartition hinit
  have hsound := hnew.listed.sound
  refine ⟨newOwner node root, node, root, hnew.agreed, fun p d hp hd hown => ?_⟩
  rcases (hnew.live_iff p).mp hp with rfl | rfl
  · -- nothing owns the supernode
    rw [← hown, hnew.super.own_node] at hd
    exact absurd rfl (hsound.cell _ hd).2.1
  · rw [hnew.root_raw]
    exact objKey_newInode ashkeyBlank [] .directory

theorem ObjRun.storing (h : ObjRun env peer N s last) :
    ∃ own node root, Storing env peer N s own last node root := by
  induction h with
  | new hnew =>
    obtain ⟨own, node, root, hagreed, hraw⟩ := objects_new hnew
    refine ⟨own, node, root, hagreed, alone_new hnew, ?_, fun _ =>
      ⟨fun d p name _ hp => ?_, fun d name _ hne => ?_⟩⟩
    · obtain ⟨salt, m, -, rfl⟩ := hnew
      exact fun j a ha => nomatch ha
    · exact hraw p d hp.live hp.live_dir hp.own_eq
    · exact absurd rfl hne
  | call _ hstep ih =>
    obtain ⟨own, node, root, h⟩ := ih
    obtain ⟨own', h'⟩ := h.step hstep
    exact ⟨own', node, root, h'⟩
  | set _ hi hname hset ih =>
    obtain ⟨own, node, root, h⟩ := ih
    obtain ⟨own', h'⟩ := h.objSet hi hname hset
    exact ⟨own', node, root, h'⟩
  | failed _ hi hname hset ih =>
    obtain ⟨own, node, root, h⟩ := ih
    obtain ⟨own', h'⟩ := h.objSet hi hname hset
    exact ⟨own', node, root, h'⟩
  | get _ hi hget ih =>
    obtain ⟨own, node, root, h⟩ := ih
    unfold Mount.shfsObjGet at hget
    split at hget
    · cases hget
    · next hobj =>
      cases hget
      obtain ⟨own', h', -⟩ := h.obj hi hobj
      exact ⟨own', node, root, h'⟩
    · next hobj =>
      cases hget
      obtain ⟨own', h', -⟩ := h.obj hi hobj
      exact ⟨own', node, root, h'⟩

theorem ObjRun.calls {s' : Handles Unit} (h : ObjRun env peer N s last)
    (hrun : HandleRun env peer (fun _ _ => True) s s') : ObjRun env peer N s' last := by
  induction hrun with
  | refl => exact h
  | step _ _ hstep ih => exact .call ih hstep

theorem Storing.objGet_returns (h : Storing env peer N s own last node root) (i : Nat)
    (name : Bytes) (acc : Access) :
    ∃ k, ∀ fuel, k ≤ fuel → ∃ m res, (s.mount ()).shfsObjGet env fuel i name acc =
      some (m, res) := by
  obtain ⟨k, hk⟩ := h.agreed.inode_returns () i name .object acc
  refine ⟨k, fun fuel hfuel => ?_⟩
  obtain ⟨⟨m, n⟩, hres⟩ := hk fuel hfuel
  unfold Mount.shfsObjGet Mount.shfsObj Mount.openChild
  rw [hres]
  cases n with
  | none => exact ⟨m, _, rfl⟩
  | some n =>
    dsimp only
    cases m.inos[n]? with
    | none => exact ⟨m, _, rfl⟩
    | some obj => exact ⟨m, _, rfl⟩

theorem Storing.objGet {res : Except Sherr ShKey} (hs : Storing env peer N s own last node root)
    (hd : TokensDistinct env s.fs N) (hi : (s.inos ())[i]? = some file)
    (hname : (inodePath name .object).1 ∈ N)
    (hget : (s.mount ()).shfsObjGet env fuel i name acc = some (m, res)) :
    if last (file.blk.pos, (inodePath name .object).1) = ashkeyBlank then
      res = .error .noent ∨
        res = .error .io ∧ shfsInode env fuel (s.mount ()) i name .object acc =
          some (s.mount (), none)
    else res = .ok (last (file.blk.pos, (inodePath name .object).1)) := by
  unfold Mount.shfsObjGet at hget
  split at hget
  · cases hget
  · next hobj =>
    cases hget
    obtain ⟨-, -, -, ⟨-, -, hnone⟩ | ⟨n, obj, heq, -⟩⟩ := hs.obj hi hobj
    · have hblank : last (file.blk.pos, (inodePath name .object).1) = ashkeyBlank := by
        by_contra hne
        -- the inode of a name with a key is found
        obtain ⟨p, hp⟩ := (hs.objects hd).known _ name hname hne
        obtain ⟨k, hk⟩ := hs.alone.resolves hs.agreed hi hp acc
        obtain ⟨m', n, child, hfound, -⟩ := hk (max fuel k) (le_max_right _ _)
        rw [shfsInode_mono hnone (le_max_left _ _)] at hfound
        cases hfound
      rw [if_pos hblank]
      exact Or.inr ⟨rfl, hnone⟩
    · cases heq
  · next m n obj hobj =>
    obtain ⟨own', hstoring, hkeep, ⟨hnone, -, -⟩ | ⟨n', obj', heq, hn, hnamed⟩⟩ := hs.obj hi hobj
    · cases hnone
    · cases heq
      rw [← put_unit s m] at hn
      have hraw : obj.blk.raw = (m.fs.block obj.blk.pos).raw := hstoring.raws n obj hn
      have hvalue := (hkeep (hs.objects hd)).value _ _ name hname hnamed
      rw [← hraw] at hvalue
      rw [hvalue] at hget
      cases hget
      split
      · exact Or.inl rfl
      · rfl

/-- Reading the key of a name: the key that has been set last. Where none has been set, the
inode of the name is made, and this may fail. -/
theorem obj_get (h : ObjRun env peer N s last) (hd : TokensDistinct env s.fs N)
    (hi : (s.inos ())[i]? = some file)
    (hname : (inodePath name .object).1 ∈ N) :
    (∃ k, ∀ fuel, k ≤ fuel → ∃ m res, (s.mount ()).shfsObjGet env fuel i name acc = some (m, res)) ∧
    ∀ fuel m res, (s.mount ()).shfsObjGet env fuel i name acc = some (m, res) →
      if last (file.blk.pos, (inodePath name .object).1) = ashkeyBlank then
        res = .error .noent ∨
          res = .error .io ∧ shfsInode env fuel (s.mount ()) i name .object acc =
            some (s.mount (), none)
      else res = .ok (last (file.blk.pos, (inodePath name .object).1)) := by
  obtain ⟨own, node, root, hs⟩ := h.storing
  exact ⟨hs.objGet_returns i name acc, fun fuel m res hget => hs.objGet hd hi hname hget⟩

/-! ## Repositories

`Fs.Rev` takes the objects of an inode for a function of their paths. -/

/-- The objects of a repository have the keys that have been set last, where `pos` is the position
of an inode of the repository. -/
def KeysShown (pos : Node → Idx) (last : Idx × Bytes → ShKey) (r : RevStore) : Prop :=
  ∀ owner path, (r.obj owner path).key = last (pos owner, path)

/-- The key that is read is that of the repository, unless the inode of the name cannot be made. -/
theorem KeysShown.get {pos : Node → Idx} {r : RevStore} {owner : Node} {res : Except Sherr ShKey}
    (hr : KeysShown pos last r) (h : ObjRun env peer N s last) (hd : TokensDistinct env s.fs N)
    (hi : (s.inos ())[i]? = some file) (hpos : file.blk.pos = pos owner)
    (hname : (inodePath name .object).1 ∈ N)
    (hget : (s.mount ()).shfsObjGet env fuel i name acc = some (m, res))
    (hmade : res ≠ .error .io) :
    res.toOption = shfsObjGet r owner (inodePath name .object).1 := by
  have hlast := (obj_get h hd hi hname).2 fuel m res hget
  rw [hpos, ← hr] at hlast
  unfold shfsObjGet
  split at hlast
  · next hblank =>
    rw [if_pos hblank]
    rcases hlast with rfl | ⟨rfl, -⟩
    · rfl
    · exact absurd rfl hmade
  · next hset =>
    rw [if_neg hset, hlast]
    rfl

/-- The keys are still shown when a key has been set in both. -/
theorem KeysShown.set {pos : Node → Idx} {r r' : RevStore} {owner : Node} {path : Bytes}
    {key : ShKey}
    (hr : KeysShown pos last r) (hpos : Function.Injective pos)
    (hset : shfsObjSet none none owner path key r = some (.ok (), r')) :
    KeysShown pos (Function.update last (pos owner, path) key) r' := by
  obtain rfl : r.setObj owner path { r.obj owner path with key := key, format := .object } = r' :=
    (Prod.mk.inj (Option.some.inj hset)).2
  intro owner' path'
  unfold RevStore.setObj
  dsimp only
  by_cases howner : owner' = owner
  · subst howner
    rw [Function.update_self]
    by_cases hpath : path' = path
    · rw [hpath, Function.update_self, Function.update_self]
    · rw [Function.update_of_ne hpath, Function.update_of_ne fun heq => hpath (Prod.mk.inj heq).2]
      exact hr owner' path'
  · rw [Function.update_of_ne howner, Function.update_of_ne fun heq =>
      howner (hpos (Prod.mk.inj heq).1)]
    exact hr owner' path'

/-- A key is set if the inode of its name can be opened or made. -/
theorem Storing.objSet_ok {m1 : Mount} {n : Nat} (h : Storing env peer N s own last node root)
    (hi : (s.inos ())[i]? = some file) (hname : (inodePath name .object).1 ∈ N)
    (hrun : shfsInode env fuel (s.mount ()) i name .object acc = some (m1, some n)) (key : ShKey) :
    ∃ m, (s.mount ()).shfsObjSet env fuel i name key acc = some (m, .ok ()) := by
  have hobj : (s.mount ()).shfsObj env fuel i name acc = some (m1, m1.inos[n]?.map fun obj =>
    (n, obj)) := by
    rw [Mount.shfsObj, Mount.openChild, hrun]
  obtain ⟨own', hstoring, -, ⟨-, -, hnone⟩ | ⟨n', obj, heq, hn, hnamed⟩⟩ := h.obj hi hobj
  · rw [hrun] at hnone
    cases hnone
  · rw [← put_unit s m1] at hn
    obtain ⟨m, hwrite, -⟩ := hstoring.set hn hnamed hname key
    rw [mount_put] at hwrite
    refine ⟨m, ?_⟩
    rw [Mount.shfsObjSet, hobj, heq]
    dsimp only
    rw [hwrite]

/-- The partition is closed and opened. -/
theorem Storing.reopen (h : Storing env peer N s own last node root) (fuel : Nat)
    (salt : UInt16) : ∃ s', (HandleOp.init () salt).run env peer fuel s = some s' ∧ s'.fs = s.fs ∧
      s'.inos () = [{ blk := s.fs.block root, parent := none }] := by
  refine ⟨s.put () { fs := s.fs, inos := [{ blk := s.fs.block root, parent := none }] }, ?_, rfl,
    put_unit _ _⟩
  rw [HandleOp.run, h.agreed.super.shfsInit h.agreed.listed.sound]
  rfl

end Runs

/-- With keys that add up the bytes, the sums of the paths tell the tokens apart. -/
theorem sumKeys_token {name : ShKey} {salt : UInt16} {mode : Shinode} {path path' : Bytes}
    (h : sumKeys.token name salt mode path = sumKeys.token name salt mode path') :
    (path.map UInt8.toUInt16).sum = (path'.map UInt8.toUInt16).sum := by
  have hcrc : ((tokenBytes name salt mode path).map UInt8.toUInt16).sum =
      ((tokenBytes name salt mode path').map UInt8.toUInt16).sum := congrArg ShKey.crc h
  simp only [tokenBytes, List.map_append, List.sum_append] at hcrc
  exact (UInt16.add_left_inj _).mp ((UInt16.add_right_inj _).mp ((UInt16.add_right_inj _).mp hcrc))

theorem sumKeys_distinct {path path' : Bytes}
    (h : (path.map UInt8.toUInt16).sum ≠ (path'.map UInt8.toUInt16).sum) (fs : Shfs) :
    TokensDistinct sumKeys fs {path, path'} := by
  rintro d - - x (rfl | rfl) y (rfl | rfl) hxy
  · rfl
  · exact absurd (sumKeys_token hxy) h
  · exact absurd (sumKeys_token hxy).symm h
  · rfl

/-- A key is set below the root directory, and the partition is closed and opened. -/
theorem object_set (N : Set Bytes) (hN : [97] ∈ N) (key : ShKey) :
    ∃ (s0 s s2 : Handles Unit) (m : Mount) (file file' : Ino), NewHandles sumKeys somePeer s0 ∧
      HandleRun sumKeys somePeer (fun _ _ => True) s0 s ∧ (s.inos ())[0]? = some file ∧
      (s.mount ()).shfsObjSet sumKeys 5 0 [97] key noAccess = some (m, .ok ()) ∧
      HandleRun sumKeys somePeer (fun _ _ => True) (s.put () m) s2 ∧ (s2.inos ())[0]? = some file' ∧
      file'.blk.pos = file.blk.pos := by
  have hall : ((newHandles Unit sumKeys).bind fun s0 =>
      ((HandleOp.init () 0).run sumKeys somePeer 5 s0).bind fun s =>
      (shfsInode sumKeys 5 (s.mount ()) 0 [97] .object noAccess).map fun r => r.2) =
        some (some 1) := by
    decide +kernel
  obtain ⟨s0, h0, hall⟩ := Option.bind_eq_some_iff.mp hall
  obtain ⟨s, h1, hall⟩ := Option.bind_eq_some_iff.mp hall
  obtain ⟨⟨m1, n⟩, h2, rfl⟩ := Option.map_eq_some_iff.mp hall
  have hnew := newHandles_new h0
  obtain ⟨own, node, root, hs0⟩ := (ObjRun.new (N := N) hnew).storing
  obtain ⟨s', hs', hfs, hinos⟩ := hs0.reopen 5 0
  rw [h1, Option.some.injEq] at hs'
  subst hs'
  have hi : (s.inos ())[0]? = some { blk := s0.fs.block root, parent := none } := by rw [hinos]; rfl
  obtain ⟨own1, hs⟩ := hs0.step h1
  have hname : (inodePath [97] .object).1 ∈ N := hN
  obtain ⟨m, hset⟩ := hs.objSet_ok hi hname h2 key
  obtain ⟨own2, hm⟩ := hs.objSet hi hname hset
  obtain ⟨s2, h3, hfs2, hinos2⟩ := hm.reopen 5 0
  refine ⟨s0, s, s2, m, _, { blk := m.fs.block root, parent := none }, hnew,
    .step (.refl s0) trivial h1, hi, hset, .step (.refl _) trivial h3, by rw [hinos2]; rfl, ?_⟩
  have hroot := (hm.agreed.listed.sound.cell _ hm.agreed.super.live_root).1
  exact hroot.trans (hs0.agreed.listed.sound.cell _ hs0.agreed.super.live_root).1.symm

/-- One of two names is set. -/
theorem obj_get_reopened :
    ∃ (s : Handles Unit) (last : Idx × Bytes → ShKey) (file : Ino) (k : Nat) (m : Mount),
      ObjRun sumKeys somePeer {[97], [98]} s last ∧ TokensDistinct sumKeys s.fs {[97], [98]} ∧
    (s.inos ())[0]? = some file ∧
    (s.mount ()).shfsObjGet sumKeys k 0 [97] noAccess = some (m, .ok (sumBin [1])) := by
  obtain ⟨s0, s, s2, m, file, file', hnew, hrun, hi, hset, hrest, hj, hpos⟩ :=
    object_set {[97], [98]} (Or.inl rfl) (sumBin [1])
  have hname : (inodePath [97] .object).1 ∈ ({[97], [98]} : Set Bytes) := Or.inl rfl
  have hobj := ((ObjRun.new hnew).calls hrun).set hi hname hset
  have hobj2 := hobj.calls hrest
  have hd : TokensDistinct sumKeys s2.fs {[97], [98]} := sumKeys_distinct (by decide) s2.fs
  obtain ⟨⟨k, hk⟩, hget⟩ := @obj_get _ _ _ _ _ 0 [97] noAccess file' hobj2 hd hj hname
  obtain ⟨m', res, hres⟩ := hk k le_rfl
  have hlast := hget k m' res hres
  rw [hpos, Function.update_self, if_neg (by decide)] at hlast
  exact ⟨s2, _, file', k, m', hobj2, hd, hj, by rw [hres, hlast]⟩

/-- The inode of a name and of the name with a slash is one. -/
theorem slash_names_same_object :
    ¬ ∀ (env : Env) (peer : Peer) (s0 s s2 : Handles Unit) (i j fuel fuel' : Nat)
    (file file' : Ino) (name name' : Bytes) (key : ShKey) (acc acc' : Access) (m m' : Mount)
    (res : Except Sherr ShKey), NewHandles env peer s0 → HandleRun env peer (fun _ _ => True) s0 s →
    (s.inos ())[i]? = some file → key ≠ ashkeyBlank → name.length < pathMax →
    name'.length < pathMax → name' ≠ name →
    (s.mount ()).shfsObjSet env fuel i name key acc = some (m, .ok ()) →
    HandleRun env peer (fun _ _ => True) (s.put () m) s2 → (s2.inos ())[j]? = some file' →
    file'.blk.pos = file.blk.pos → TokensDistinct env s2.fs {name, name'} →
    (s2.mount ()).shfsObjGet env fuel' j name' acc' = some (m', res) → res = .error .noent := by
  intro h
  obtain ⟨s0, s, s2, m, file, file', hnew, hrun, hi, hset, hrest, hj, hpos⟩ :=
    object_set {[97]} rfl (sumBin [1])
  have hname : (inodePath [97] .object).1 ∈ ({[97]} : Set Bytes) := rfl
  have hslash : (inodePath [97, 47] .object).1 ∈ ({[97]} : Set Bytes) := rfl
  obtain ⟨own, node, root, hs⟩ :=
    ((((ObjRun.new hnew).calls hrun).set hi hname hset).calls hrest).storing
  obtain ⟨k, hk⟩ := hs.objGet_returns 0 [97, 47] noAccess
  obtain ⟨m', res, hget⟩ := hk k le_rfl
  -- one name has a token of its own
  have hlast := hs.objGet (fun _ _ _ => Set.injOn_singleton _ _) hj hslash hget
  have hpath : (inodePath [97, 47] .object).1 = (inodePath [97] .object).1 := rfl
  rw [hpos, hpath, Function.update_self, if_neg (by decide)] at hlast
  have hnoent :=
    h sumKeys somePeer s0 s s2 0 0 5 k file file' [97] [97, 47]
      (sumBin [1]) noAccess noAccess m m' res
    hnew hrun hi (by decide) (by decide) (by decide) (by decide) hset hrest hj hpos
    (sumKeys_distinct (by decide) s2.fs) hget
  rw [hlast] at hnoent
  cases hnoent

end LibShare.Fs
