import LibShare.Fs.Entity
import LibShare.Fs.Attr
import Mathlib.Data.Nat.Count

/-!
# libshare — references

A file that refers to another inode of the same type (`shfs_ref.c`). `shfs_ref_set` stores
the peer of a partition and the tokens of the inode and of the directories above it, from
the inode upwards. `shfs_ref_get` opens the partition of the peer and goes down from its root,
from the last place that the list has room for.

The peer that is stored is the one of the file, not of the inode that is referred to; and the
reader goes through all places of the list, however many tokens have been stored.
`ref_set_get` says when a reference leads to its inode: both are in one partition, the
inode is not too deep, and no token on the way is one that the reader skips. What the reader
goes through has been stored only if the list is full.
-/

namespace LibShare.Fs

/-! ## Layout -/

/-- The size of a `shpeer_t`. -/
def sizeofPeer : Nat := 136

/-- The offset of the public key in a `shpeer_t`. -/
def peerKeyAt : Nat := 72

/-- `SHFS_MAX_REFERENCE_HIERARCHY`. -/
def maxReferenceHierarchy : Nat := (blockDataSize - sizeofPeer) / 32

/-- The record of a peer. -/
structure Peer.Record (peer : Peer) : Prop where
  length : peer.raw.length = sizeofPeer
  key : ShKey.ofBytes ((peer.raw.drop peerKeyAt).take 32) = peer.key

/-! ## Setting a reference -/

/-- The tokens of an inode and of the directories above it, as many as the list has room for. -/
def refHier : Nat → List Ino → Nat → List ShKey
  | 0, _, _ => []
  | room + 1, inos, i =>
    match inos[i]? with
    | none => []
    | some ino =>
      ino.blk.name ::
        match ino.parent with
        | none => []
        | some p => refHier room inos p

/-- The inode of a reference with its data. -/
def refBlock (blk : Block) (buff : Bytes) : Block :=
  { blk with raw := overlay Block.zero.raw 0 buff, size := buff.length, crc := shcrc buff }

/-- A file that has been given a reference. -/
def refFile (file ref : Block) : Block :=
  { file with
    mtime := ref.mtime
    size := ref.size
    crc := ref.crc
    format := .reference
    attr := file.attr ||| shattrLink }

/-- `_shfs_ref_raw_write`. -/
def Mount.shfsRefRawWrite (env : Env) (fuel : Nat) (m : Mount) (f : Nat) (buff : Bytes)
    (acc : Access) :
    Option (Mount × Except Sherr Unit) :=
  match m.openChild env fuel f [] .reference acc with
  | none => none
  | some (m, none) => some (m, .error .io)
  | some (m, some (n, inode)) =>
    if blockDataSize < buff.length then some (m, .error .toomanyrefs)
    else
      match shfsInodeWriteEntity env (m.setBlk n inode (refBlock inode.blk buff)) n with
      | (m, .error err) => some (m, .error err)
      | (m, .ok _) =>
        -- copy the stats to the file
        match m.inos[f]?, m.inos[n]? with
        | some file, some inode => some (m.setBlk f file (refFile file.blk inode.blk), .ok ())
        | _, _ => some (m, .error .inval)

/-- `shfs_ref_set`, for a file of the partition of a peer and an inode among the open ones of a
handle. -/
def Mount.shfsRefSet (env : Env) (fuel : Nat) (peer : Peer) (m : Mount) (f : Nat)
    (inos : List Ino) (t : Nat)
    (acc : Access) : Option (Mount × Except Sherr Unit) :=
  match m.inos[f]?, inos[t]? with
  | some file, some ref =>
    if file.blk.type ≠ ref.blk.type then
      some (m, .error (if ref.blk.type ≠ .directory then .isdir else .notdir))
    else
      match m.shfsRefRawWrite env fuel f
          (peer.raw ++ (refHier maxReferenceHierarchy inos t).flatMap ShKey.toBytes) acc with
      | none => none
      | some (m, .error err) => some (m, .error err)
      | some (m, .ok _) => some (shfsInodeWriteEntity env m f)
  | _, _ => some (m, .error .inval)

/-! ## Following a reference -/

/-- `_shfs_ref_raw_read`. -/
def Mount.shfsRefRawRead (env : Env) (fuel : Nat) (m : Mount) (f : Nat) (acc : Access) :
    Option (Mount × Except Sherr Bytes) :=
  match m.inos[f]? with
  | none => some (m, .error .inval)
  | some file =>
    if file.blk.format ≠ .reference then some (m, .error .inval)
    else
      match m.openChild env fuel f [] .reference acc with
      | none => none
      | some (m, none) => some (m, .error .io)
      | some (m, some (_, inode)) =>
        -- a record holds a peer and one key at least, and fits into a block
        if inode.blk.size < sizeofPeer + 32 ∨ blockDataSize < inode.blk.size then
          some (m, .error .io)
        else some (m, .ok (inode.blk.raw.toList.take inode.blk.size))

/-- `shfs_inode_load`. -/
def Mount.shfsInodeLoad (fuel : Nat) (m : Mount) (i : Nat) (key : ShKey) :
    Option (Mount × Option Nat) :=
  match m.inos[i]? with
  | none => some (m, none)
  | some parent =>
    match findChild m i key with
    | some n => some (m, some n)
    | none =>
      match shfsLinkFind fuel m.fs parent.blk key with
      | none => none
      | some (.error _) => some (m, none)
      | some (.ok blk) =>
        some ({ m with inos := m.inos ++ [{ blk := blk, parent := some i }] }, some m.inos.length)

/-- The token in a place of the list. The data of a buffer that has been filled once ends in
zeros. -/
def hierAt (buff : Bytes) (i : Nat) : ShKey :=
  ShKey.ofBytes (((buff ++ List.replicate (8192 - buff.length) 0).drop
    (sizeofPeer + 32 * i)).take 32)

/-- The reader passes over a place of the list. -/
def Skipped (base : ShKey) (buff : Bytes) (i : Nat) : Prop :=
  hierAt buff i = ashkeyBlank ∨ hierAt buff i = base

instance (base : ShKey) (buff : Bytes) (i : Nat) : Decidable (Skipped base buff i) :=
  inferInstanceAs (Decidable (_ ∨ _))

/-- The loop of `shfs_ref_get`, from a place of the list downwards: the partition, the inode that
has been reached, and how far the data has been read. -/
def refLoop (fuel : Nat) (base : ShKey) (buff : Bytes) : Nat → Mount → Nat → Nat →
    Option (Except Sherr (Mount × Nat × Nat))
  | 0, m, ref, top => some (.ok (m, ref, top))
  | i + 1, m, ref, top =>
    let top := max top (sizeofPeer + 32 * (i + 1))
    if Skipped base buff i then refLoop fuel base buff i m ref top
    else
      match m.shfsInodeLoad fuel ref (hierAt buff i) with
      | none => none
      | some (_, none) => some (.error .noent)
      | some (m, some ref) => refLoop fuel base buff i m ref top

/-- What a reference leads to: the peer of the partition, the inode in it, how far the data of
the reference has been read, and how much there is. -/
structure RefTarget where
  peer : Peer
  ref : Ino
  top : Nat
  stored : Nat

/-- `shfs_ref_get`, for a file of the partition of a peer, with the partitions that there are. -/
def Mount.shfsRefGet (env : Env) (fuel : Nat) (parts : ShKey → Shfs) (peer : Peer)
    (m : Mount) (f : Nat)
    (salt : UInt16) (acc : Access) : Option (Mount × (ShKey → Shfs) × Except Sherr RefTarget) :=
  match m.shfsRefRawRead env fuel f acc with
  | none => none
  | some (m, .error err) => some (m, Function.update parts peer.key m.fs, .error err)
  | some (m, .ok buff) =>
    let parts := Function.update parts peer.key m.fs
    let rpeer : Peer :=
      { key := ShKey.ofBytes ((buff.drop peerKeyAt).take 32)
        raw := buff.take sizeofPeer
        rootKey := peer.rootKey }
    -- the partition that the record names
    match shfsInit env rpeer salt (parts rpeer.key) with
    | .error _ => some (m, parts, .error .io)
    | .ok fs =>
      let parts := Function.update parts rpeer.key fs.fs
      let base := (m.inos[0]?.map fun root => root.blk.name).getD ashkeyBlank
      -- the path that the record holds, from its root downwards
      match refLoop fuel base buff maxReferenceHierarchy fs 0 sizeofPeer with
      | none => none
      | some (.error err) => some ({ m with fs := parts peer.key }, parts, .error err)
      | some (.ok (fs, ref, top)) =>
        some ({ m with fs := parts peer.key }, parts,
          match fs.inos[ref]? with
          | none => .error .inval
          | some ino => .ok { peer := rpeer, ref := ino, top := top, stored := buff.length })

/-! ## What has been stored -/

/-- A file has been given a reference: its inode, and the one that holds the data. -/
structure RefStored (env : Env) (m : Mount) (f : Nat) (dir : Ino) (buff : Bytes) (n : Nat)
    (file child : Ino) : Prop where
  file_get : m.inos[f]? = some file
  file_same : SameIno dir file
  format : file.blk.format = .reference
  get : m.inos[n]? = some child
  parent : child.parent = some f
  key : child.blk.name = childKey env file.blk [] .reference
  raw : child.blk.raw = overlay Block.zero.raw 0 buff
  size : child.blk.size = buff.length
  room : buff.length ≤ blockDataSize

section Set

variable {env : Env} {peer : Peer} {fuel : Nat} {s : Handles Unit} {own : Idx → Idx}
  {node root : Idx} {f n t : Nat}
  {file child : Ino} {buff : Bytes} {acc : Access} {m : Mount}

/-- The data of a reference has been written, and the file has not. -/
structure RawStored (env : Env) (s : Handles Unit) (f : Nat) (dir : Ino) (buff : Bytes) (n : Nat)
    (a child : Ino) :
    Prop where
  dir_get : (s.inos ())[f]? = some a
  dir_same : SameIno dir a
  get : (s.inos ())[n]? = some child
  parent : child.parent = some f
  key : child.blk.name = childKey env a.blk [] .reference
  raw : child.blk.raw = overlay Block.zero.raw 0 buff
  size : child.blk.size = buff.length
  room : buff.length ≤ blockDataSize

/-- `_shfs_ref_raw_write` that returns zero. -/
theorem shfsRefRawWrite_stored (h : Alone s.fs (s.inos ())) (hagreed : Agreed peer s own node root)
    (hf : (s.inos ())[f]? = some file)
    (hrun : (s.mount ()).shfsRefRawWrite env fuel f buff acc = some (m, .ok ())) :
    ∃ own' m' n a child, Agreed peer (s.put () m') own' node root ∧ Alone m'.fs m'.inos ∧
      Grows s.fs own m'.fs own' ∧ RawStored env (s.put () m') f file buff n a child ∧
      m = m'.setBlk f a (refFile a.blk child.blk) := by
  unfold Mount.shfsRefRawWrite at hrun
  split at hrun
  · cases hrun
  · cases hrun
  · next m1 n child hopen =>
    split at hrun
    · cases hrun
    · next hroom =>
      obtain ⟨own', hagreed', halone', hgrows, -, ⟨hnone, -, -⟩ | ⟨n', child', heq, -, hopened⟩⟩ :=
        h.openChild hagreed hf hopen
      · cases hnone
      · cases heq
        obtain ⟨a, ha, hsame⟩ := hopened.dir_open
        have hget := hopened.get
        rw [← put_unit s m1] at halone' hget ha
        have hlinks : SameLinks child.blk (refBlock child.blk buff) := ⟨rfl, rfl, rfl, rfl, rfl⟩
        obtain ⟨m2, mtime, hwrite, hw, hagreed2, halone2, hgrows2, -⟩ :=
          halone'.write env hagreed' hget hlinks rfl
        rw [mount_put] at hwrite
        rw [put_put] at hagreed2
        rw [hwrite] at hrun
        have hlt : f < n := ((hagreed'.handle ()).parent n f child hget hopened.parent).1
        have hn2 : m2.inos[n]? = some
            { child with blk := { refBlock child.blk buff with mtime := mtime } } := by
          rw [hw.inos]
          exact List.getElem?_set_self (List.getElem?_eq_some_iff.mp hget).1
        have hf2 : m2.inos[f]? = some a := by
          rw [hw.inos, List.getElem?_set_ne (by omega)]
          exact ha
        simp only [hf2, hn2, Option.some.injEq, Prod.mk.injEq, and_true] at hrun
        refine ⟨own', m2, n, a,
          { child with blk := { refBlock child.blk buff with mtime := mtime } },
          hagreed2, halone2, hgrows.trans hgrows2, ?_, hrun.symm⟩
        rw [← put_unit s m2] at hn2 hf2
        refine ⟨hf2, hsame, hn2, hopened.parent, ?_, rfl, rfl, Nat.le_of_not_lt hroom⟩
        show child.blk.name = _
        rw [hopened.key, childKey, childKey, hsame.name_eq, hsame.salt_eq]

/-- The file is written with the stats of the inode that holds the data. -/
theorem RawStored.write {dir a : Ino} (hr : RawStored env s f dir buff n a child)
    (h : Alone s.fs (s.inos ()))
    (hagreed : Agreed peer s own node root) : ∃ m file,
    shfsInodeWriteEntity env ((s.mount ()).setBlk f a (refFile a.blk child.blk)) f = (m, .ok ()) ∧
      Agreed peer (s.put () m) own node root ∧ Alone m.fs m.inos ∧ Grows s.fs own m.fs own ∧
      RefStored env m f dir buff n file child := by
  have hlinks : SameLinks a.blk (refFile a.blk child.blk) := ⟨rfl, rfl, rfl, rfl, rfl⟩
  obtain ⟨m, mtime, hrun, hw, hagreed', halone, hgrows, -⟩ :=
    h.write env hagreed hr.dir_get hlinks rfl
  have hlt : f < n := ((hagreed.handle ()).parent n f child hr.get hr.parent).1
  have hf : m.inos[f]? = some
      { a with blk := { refFile a.blk child.blk with mtime := mtime } } := by
    rw [hw.inos]
    exact List.getElem?_set_self (List.getElem?_eq_some_iff.mp hr.dir_get).1
  have hsame : SameIno dir { a with blk := { refFile a.blk child.blk with mtime := mtime } } :=
    ⟨hr.dir_same.pos_eq, hr.dir_same.name_eq, hr.dir_same.salt_eq⟩
  refine ⟨m, _, hrun, hagreed', halone, hgrows, hf, hsame, rfl, ?_, hr.parent, hr.key, hr.raw,
    hr.size, hr.room⟩
  rw [hw.inos, List.getElem?_set_ne (by omega)]
  exact hr.get

/-- `shfs_ref_set` that returns zero: the data is below the file. -/
theorem shfsRefSet_stored {inos : List Ino} (h : Alone s.fs (s.inos ()))
    (hagreed : Agreed peer s own node root)
    (hf : (s.inos ())[f]? = some file)
    (hrun : (s.mount ()).shfsRefSet env fuel peer f inos t acc = some (m, .ok ())) :
    ∃ own' n file' child, Agreed peer (s.put () m) own' node root ∧ Alone m.fs m.inos ∧
      Grows s.fs own m.fs own' ∧ RefStored env m f file
        (peer.raw ++ (refHier maxReferenceHierarchy inos t).flatMap ShKey.toBytes) n
        file' child := by
  unfold Mount.shfsRefSet at hrun
  split at hrun
  · split at hrun
    · cases hrun
    · split at hrun
      · cases hrun
      · cases hrun
      · next m2 _ hraw =>
        obtain ⟨own', m1, n, a, child, hagreed1, halone1, hgrows1, hstored, rfl⟩ :=
          shfsRefRawWrite_stored h hagreed hf hraw
        rw [← put_unit s m1] at halone1
        obtain ⟨m3, file', hwrite, hagreed3, halone3, hgrows3, hfile⟩ :=
          hstored.write halone1 hagreed1
        rw [mount_put] at hwrite
        rw [hwrite] at hrun
        cases hrun
        rw [put_put] at hagreed3
        exact ⟨own', n, file', child, hagreed3, halone3, hgrows1.trans hgrows3, hfile⟩
  · cases hrun

end Set

/-! ## The list of tokens -/

theorem length_flatMap_toBytes (toks : List ShKey) :
    (toks.flatMap ShKey.toBytes).length = 32 * toks.length := by
  induction toks with
  | nil => rfl
  | cons tok toks ih =>
    rw [List.flatMap_cons, List.length_append, length_toBytes, ih, List.length_cons]
    omega

/-- The places from one on. -/
theorem drop_flatMap_toBytes : ∀ (i : Nat) (toks : List ShKey),
    (toks.flatMap ShKey.toBytes).drop (32 * i) = (toks.drop i).flatMap ShKey.toBytes := by
  intro i
  induction i with
  | zero => exact fun _ => rfl
  | succ i ih =>
    intro toks
    match toks with
    | [] => simp only [List.flatMap_nil, List.drop_nil]
    | tok :: toks =>
      have hsplit : 32 * (i + 1) = tok.toBytes.length + 32 * i := by
        rw [length_toBytes]
        omega
      rw [List.flatMap_cons, hsplit, List.drop_length_add_append, ih, List.drop_succ_cons]

/-- An inode has at least its own token. -/
theorem refHier_ne_nil {inos : List Ino} {t : Nat} {ino : Ino} (h : inos[t]? = some ino) :
    refHier maxReferenceHierarchy inos t ≠ [] := by
  have hmax : maxReferenceHierarchy = 119 + 1 := by decide
  rw [hmax, refHier, h]
  exact List.cons_ne_nil _ _

/-- The places of the list: the tokens that have been stored, and blank ones. -/
theorem hierAt_eq {rec : Bytes} (hrec : rec.length = sizeofPeer) {toks : List ShKey} {i : Nat}
    (hi : i < maxReferenceHierarchy) :
    hierAt (rec ++ toks.flatMap ShKey.toBytes) i = (toks[i]?).getD ashkeyBlank := by
  have hmax : maxReferenceHierarchy = 120 := by decide
  have hpeer : sizeofPeer = 136 := rfl
  have hlen := length_flatMap_toBytes toks
  unfold hierAt
  rw [List.append_assoc, ← hrec, List.drop_length_add_append]
  by_cases hlt : i < toks.length
  · rw [List.drop_append_of_le_length (by omega), drop_flatMap_toBytes,
      List.drop_eq_getElem_cons hlt, List.flatMap_cons, List.append_assoc,
        List.take_append_of_le_length (by rw [length_toBytes]),
          List.take_of_length_le (by rw [length_toBytes]),
      ofBytes_toBytes, List.getElem?_eq_getElem hlt, Option.getD_some]
  · rw [List.drop_append, List.drop_eq_nil_of_le (by omega), List.nil_append, List.drop_replicate,
      List.take_replicate, List.length_append, List.getElem?_eq_none (by omega), Option.getD_none,
        Nat.min_eq_left (by omega)]
    decide

/-! ## The directories above an inode -/

/-- The positions from an inode up to the root directory. -/
inductive RefPath (fs : Shfs) (own : Idx → Idx) (root : Idx) : Idx → List Idx → Prop
  | root : fs.live root → RefPath fs own root root [root]
  | child {p : Idx} {P : List Idx} :
      fs.live p → p ≠ root → RefPath fs own root (own p) P → RefPath fs own root p (p :: P)

section Path

variable {fs fs' : Shfs} {own own' : Idx → Idx} {root p : Idx} {P : List Idx}

/-- A path has at least its inode. -/
theorem RefPath.length_pos (h : RefPath fs own root p P) : 0 < P.length := by
  cases h <;> exact Nat.succ_pos _

/-- All on the path are in use. -/
theorem RefPath.mem_live (h : RefPath fs own root p P) : ∀ q ∈ P, fs.live q := by
  induction h with
  | root hlive => exact fun q hq => List.mem_singleton.mp hq ▸ hlive
  | child hlive _ _ ih =>
    intro q hq
    rcases List.mem_cons.mp hq with rfl | hq
    · exact hlive
    · exact ih q hq

/-- A path stays one while the store grows. -/
theorem RefPath.grow (h : RefPath fs own root p P) (hgrows : Grows fs own fs' own') :
    RefPath fs' own' root p P := by
  induction h with
  | root hlive => exact .root (hgrows.live _ hlive)
  | child hlive hne hpath ih =>
    refine .child (hgrows.live _ hlive) hne ?_
    rwa [hgrows.own_eq _ hlive]

/-- The places of a path are the owners, one above the other. -/
theorem RefPath.get (h : RefPath fs own root p P) :
    ∀ {j : Nat}, j < P.length → P[j]? = some (own^[j] p) := by
  induction h with
  | root =>
    intro j hj
    obtain rfl : j = 0 := Nat.lt_one_iff.mp hj
    rfl
  | child _ _ _ ih =>
    intro j hj
    cases j with
    | zero => rfl
    | succ j =>
      rw [List.getElem?_cons_succ, Function.iterate_succ_apply]
      exact ih (Nat.lt_of_succ_lt_succ hj)

/-- Each of them is in use. -/
theorem RefPath.live_iterate (h : RefPath fs own root p P) :
    ∀ {j : Nat}, j < P.length → fs.live (own^[j] p) := by
  induction h with
  | root hlive =>
    intro j hj
    obtain rfl : j = 0 := Nat.lt_one_iff.mp hj
    exact hlive
  | child hlive _ _ ih =>
    intro j hj
    cases j with
    | zero => exact hlive
    | succ j =>
      rw [Function.iterate_succ_apply]
      exact ih (Nat.lt_of_succ_lt_succ hj)

/-- The root directory is at the end, and only there. -/
theorem RefPath.iterate_eq_root (h : RefPath fs own root p P) : ∀ {j : Nat}, j < P.length →
    (own^[j] p = root ↔ j + 1 = P.length) := by
  induction h with
  | root =>
    intro j hj
    obtain rfl : j = 0 := Nat.lt_one_iff.mp hj
    exact iff_of_true rfl rfl
  | child _ hne hpath ih =>
    intro j hj
    cases j with
    | zero =>
      have hpos := hpath.length_pos
      refine iff_of_false hne ?_
      rw [List.length_cons]
      omega
    | succ j =>
      rw [Function.iterate_succ_apply, ih (Nat.lt_of_succ_lt_succ hj), List.length_cons]
      omega

/-- The tokens of an open inode and of the directories above it are the names on its path. -/
theorem Handle.refPath {peer : Peer} {node : Idx} {inos : List Ino} (h : Handle fs own root inos)
    (hs : Sound fs own)
    (hsuper : Super fs own peer node root) : ∀ {t : Nat} {ino : Ino}, inos[t]? = some ino →
    ∃ P, RefPath fs own root ino.blk.pos P ∧ P.length ≤ t + 1 ∧
      ∀ room, refHier room inos t = (P.map fun p => (fs.block p).name).take room := by
  intro t
  induction t using Nat.strong_induction_on with
  | _ t ih =>
    intro ino ht
    have hcopy := h.copy t ino ht
    cases hpar : ino.parent with
    | none =>
      have hroot := h.top t ino ht hpar
      refine ⟨[root], ?_, by simp, fun room => ?_⟩
      · rw [hroot]
        exact .root hsuper.live_root
      · cases room with
        | zero => rfl
        | succ room => rw [refHier, ht]; simp [hpar, ← hroot, hcopy.name_eq]
    | some k =>
      obtain ⟨hlt, pino, hk, hown⟩ := h.parent t k ino ht hpar
      obtain ⟨P, hpath, hlen, htoks⟩ := ih k hlt hk
      have hne : ino.blk.pos ≠ root := by
        intro heq
        rw [heq, hsuper.own_root] at hown
        exact hsuper.ne_node hs (h.copy k pino hk) hown.symm
      refine ⟨ino.blk.pos :: P, .child hcopy.live hne (by rw [hown]; exact hpath), ?_,
        fun room => ?_⟩
      · rw [List.length_cons]
        omega
      · cases room with
        | zero => rfl
        | succ room => rw [refHier, ht]; simp [hpar, htoks, hcopy.name_eq]

end Path

/-! ## Going down -/

/-- A handle that only reads: its inodes are as the partition has them. -/
structure Reading (fs : Shfs) (own : Idx → Idx) (root : Idx) (m : Mount) : Prop where
  fs_eq : m.fs = fs
  handle : Handle fs own root m.inos
  exact : ∀ (i : Nat) (ino : Ino), m.inos[i]? = some ino → ino.blk = fs.block ino.blk.pos

section Reading

variable {fs : Shfs} {own : Idx → Idx} {root p : Idx} {P : List Idx} {m m' : Mount} {fuel i n : Nat}
  {ino : Ino} {key : ShKey}

/-- The reader begins with the root. -/
theorem Reading.of_root {peer : Peer} {node : Idx} (hs : Sound fs own)
    (hsuper : Super fs own peer node root) :
    Reading fs own root { fs := fs, inos := [{ blk := fs.block root, parent := none }] } := by
  refine ⟨rfl, .of_root hs hsuper, fun i ino hi => ?_⟩
  rw [List.mem_singleton.mp (List.mem_of_getElem? hi), (hs.cell _ hsuper.live_root).1]

/-- An inode is opened below another one. -/
theorem Reading.concat (h : Reading fs own root m) (hs : Sound fs own) (hi : m.inos[i]? = some ino)
    (hp : fs.live p)
    (hown : own p = ino.blk.pos) :
    Reading fs own root { m with inos := m.inos ++ [{ blk := fs.block p, parent := some i }] } := by
  have hpos := (hs.cell p hp).1
  have hlive : fs.live (own p) := by
    rw [hown]
    exact (h.handle.copy i ino hi).live
  refine ⟨h.fs_eq, h.handle.concat hi (.of_stored hs hp hlive) (by rw [hpos, hown]),
    fun j a ha => ?_⟩
  rcases getElem?_concat_cases ha with ha | ⟨-, rfl⟩
  · exact h.exact j a ha
  · rw [hpos]

/-- What `shfs_inode_load` returns is a child with the key. -/
theorem Reading.load (h : Reading fs own root m) (hs : Sound fs own) (hi : m.inos[i]? = some ino)
    (hrun : m.shfsInodeLoad fuel i key = some (m', some n)) :
    Reading fs own root m' ∧ ∃ child, m'.inos[n]? = some child ∧
      own child.blk.pos = ino.blk.pos := by
  unfold Mount.shfsInodeLoad at hrun
  rw [hi] at hrun
  dsimp only at hrun
  split at hrun
  · next k hfind =>
    cases hrun
    obtain ⟨hlt, hchild, -⟩ := List.findIdx?_eq_some_iff_getElem.mp hfind
    simp only [decide_eq_true_eq] at hchild
    have hget := List.getElem?_eq_getElem hlt
    obtain ⟨-, pino, hp, hown⟩ := h.handle.parent n i _ hget hchild.1
    rw [hi, Option.some.injEq] at hp
    exact ⟨h, _, hget, by rw [hown, hp]⟩
  · split at hrun
    · cases hrun
    · cases hrun
    · next blk hfind =>
      rw [h.fs_eq, shfsLinkFind] at hfind
      split at hfind
      · obtain ⟨L, hL, hall, hown⟩ := hs.chain (h.handle.copy i ino hi).first
        obtain ⟨p, hp, rfl, -⟩ := linkFindLoop_ok hL hall hfind
        cases hrun
        exact ⟨h.concat hs hi (hall p hp).1 (hown p hp), _, List.getElem?_concat_length ..,
          by rw [(hs.cell p (hall p hp).1).1]; exact hown p hp⟩
      · cases hfind

/-- A child is loaded by its key. -/
theorem Reading.load_child (h : Reading fs own root m) (hl : Listed fs own)
    (hi : m.inos[i]? = some ino) (hp : fs.live p)
    (hown : own p = ino.blk.pos) : ∃ m' n child, (∃ k, ∀ fuel, k ≤ fuel →
      m.shfsInodeLoad fuel i (fs.block p).name = some (m', some n)) ∧ Reading fs own root m' ∧
      m'.inos[n]? = some child ∧ child.blk.pos = p := by
  have hcopy := h.handle.copy i ino hi
  obtain ⟨k, hfind⟩ := hl.find hp (by rw [hown]; exact hcopy.live)
  cases hopen : findChild m i (fs.block p).name with
  | some n =>
    obtain ⟨hlt, hchild, -⟩ := List.findIdx?_eq_some_iff_getElem.mp hopen
    simp only [decide_eq_true_eq] at hchild
    have hget := List.getElem?_eq_getElem hlt
    obtain ⟨-, pino, hpi, hpown⟩ := h.handle.parent n i _ hget hchild.1
    rw [hi, Option.some.injEq] at hpi
    have hccopy := h.handle.copy n _ hget
    refine ⟨m, n, _, ⟨0, fun fuel _ => ?_⟩, h, hget, ?_⟩
    · simp only [Mount.shfsInodeLoad, hi, hopen]
    · exact hl.distinct _ p hccopy.live hp (by rw [hpown, ← hpi, hown])
        (by rw [hccopy.name_eq, hchild.2])
  | none =>
    refine ⟨_, _, _, ⟨k, fun fuel hfuel => ?_⟩, h.concat hl.sound hi hp hown,
      List.getElem?_concat_length .., (hl.sound.cell p hp).1⟩
    have hblk := h.exact i ino hi
    have hlink := hfind fuel ino.blk hfuel (by rw [hown, ← hblk]) (by rw [hown, ← hblk])
    simp only [Mount.shfsInodeLoad, hi, hopen]
    rw [h.fs_eq, hlink]

variable {base : ShKey} {buff : Bytes} {ref ref' top top' : Nat}

/-- An inode that the loop reaches is as far below the first one as places have not been passed
over. -/
theorem Reading.loop (hs : Sound fs own) : ∀ {i : Nat} {m : Mount} {ref top : Nat} {ino : Ino},
    Reading fs own root m → m.inos[ref]? = some ino → sizeofPeer ≤ top →
    refLoop fuel base buff i m ref top = some (.ok (m', ref', top')) →
    top' = max top (sizeofPeer + 32 * i) ∧ m'.fs = fs ∧ ∃ ino', m'.inos[ref']? = some ino' ∧
      own^[Nat.count (fun j => ¬ Skipped base buff j) i] ino'.blk.pos = ino.blk.pos := by
  intro i
  induction i with
  | zero =>
    intro m ref top ino h hi htop hrun
    cases hrun
    exact ⟨by omega, h.fs_eq, ino, hi, rfl⟩
  | succ i ih =>
    intro m ref top ino h hi htop hrun
    rw [refLoop] at hrun
    rw [Nat.count_succ]
    split at hrun
    · next hskip =>
      obtain ⟨htop', hfs, ino', hi', hown⟩ := ih h hi (le_max_of_le_left htop) hrun
      refine ⟨by omega, hfs, ino', hi', ?_⟩
      rw [if_neg (not_not.mpr hskip), Nat.add_zero]
      exact hown
    · next hload =>
      split at hrun
      · cases hrun
      · cases hrun
      · next m1 n hrun1 =>
        obtain ⟨h1, child, hchild, hcown⟩ := h.load hs hi hrun1
        obtain ⟨htop', hfs, ino', hi', hown⟩ := ih h1 hchild (le_max_of_le_left htop) hrun
        refine ⟨by omega, hfs, ino', hi', ?_⟩
        rw [if_pos hload, Function.iterate_succ_apply', hown, hcown]

/-- The loop goes down the path, if it passes over the places above it and over no other. -/
theorem Reading.loop_path (hl : Listed fs own) (hpath : RefPath fs own root p P) :
    ∀ {i : Nat} {m : Mount} {ref : Nat} (top : Nat) {ino : Ino}, Reading fs own root m →
      m.inos[ref]? = some ino →
    ino.blk.pos = own^[min i (P.length - 1)] p →
    (∀ j < i, P.length - 1 ≤ j → Skipped base buff j) →
    (∀ j < i, j < P.length - 1 → ¬ Skipped base buff j ∧
      hierAt buff j = (fs.block (own^[j] p)).name) →
    ∃ m' ref' top' ino', (∃ k, ∀ fuel, k ≤ fuel →
      refLoop fuel base buff i m ref top = some (.ok (m', ref', top'))) ∧ Reading fs own root m' ∧
        m'.inos[ref']? = some ino' ∧ ino'.blk.pos = p := by
  intro i
  induction i with
  | zero =>
    intro m ref top ino h hi hpos _ _
    rw [Nat.zero_min] at hpos
    exact ⟨m, ref, top, ino, ⟨0, fun fuel _ => rfl⟩, h, hi, hpos⟩
  | succ i ih =>
    intro m ref top ino h hi hpos habove hon
    have habove' : ∀ j < i, P.length - 1 ≤ j → Skipped base buff j :=
      fun j hj => habove j (by omega)
    have hon' := fun j (hj : j < i) => hon j (by omega)
    by_cases hlt : i < P.length - 1
    · obtain ⟨hload, hkey⟩ := hon i (by omega) hlt
      rw [Nat.min_eq_left (by omega), Function.iterate_succ_apply'] at hpos
      have hlive : fs.live (own^[i] p) := hpath.live_iterate (by omega)
      obtain ⟨m1, n, child, ⟨k1, hload1⟩, h1, hchild, hcpos⟩ := h.load_child hl hi hlive hpos.symm
      obtain ⟨m2, ref2, top2, ino2, ⟨k2, hrun⟩, h2, hi2, hpos2⟩ :=
        ih (max top (sizeofPeer + 32 * (i + 1))) h1 hchild
          (by rw [hcpos, Nat.min_eq_left (by omega)]) habove' hon'
      refine ⟨m2, ref2, top2, ino2, ⟨max k1 k2, fun fuel hfuel => ?_⟩, h2, hi2, hpos2⟩
      rw [refLoop, if_neg hload, hkey, hload1 fuel (le_trans (le_max_left _ _) hfuel)]
      exact hrun fuel (le_trans (le_max_right _ _) hfuel)
    · -- the root directory, and places that nothing has been stored in
      rw [Nat.min_eq_right (by omega)] at hpos
      obtain ⟨m2, ref2, top2, ino2, ⟨k, hrun⟩, h2, hi2, hpos2⟩ :=
        ih (max top (sizeofPeer + 32 * (i + 1))) h hi
          (by rw [hpos, Nat.min_eq_right (by omega)]) habove' hon'
      refine ⟨m2, ref2, top2, ino2, ⟨k, fun fuel hfuel => ?_⟩, h2, hi2, hpos2⟩
      rw [refLoop, if_pos (habove i (by omega) (by omega))]
      exact hrun fuel hfuel

end Reading

/-! ## References that lead to their inode -/

/-- Of the places below a bound, as many as are possible count only if all of them do. -/
theorem count_full {q : Nat → Prop} [DecidablePred q] {n b : Nat} (h : ∀ j < n, q j → j < b) :
    Nat.count q n ≤ b ∧ (Nat.count q n = b → ∀ j < b, j < n ∧ q j) := by
  have hsub : (Finset.range n).filter q ⊆ Finset.range b := by
    intro j hj
    obtain ⟨hn, hq⟩ := Finset.mem_filter.mp hj
    exact Finset.mem_range.mpr (h j (Finset.mem_range.mp hn) hq)
  rw [Nat.count_eq_card_filter_range]
  refine ⟨(Finset.card_le_card hsub).trans_eq (Finset.card_range b), fun heq j hj => ?_⟩
  have hall := Finset.eq_of_subset_of_card_le hsub (by rw [heq, Finset.card_range])
  have hmem : j ∈ (Finset.range n).filter q := by
    rw [hall]
    exact Finset.mem_range.mpr hj
  obtain ⟨hn, hq⟩ := Finset.mem_filter.mp hmem
  exact ⟨Finset.mem_range.mp hn, hq⟩

/-- `shfs_ref_get` leads to an inode of the partition of a peer, and what it returns meets a
condition. -/
def RefFound (env : Env) (parts : ShKey → Shfs) (peer : Peer) (m : Mount) (f : Nat) (salt : UInt16)
    (acc : Access)
    (tpeer : Peer) (target : Ino) (ok : RefTarget → Prop) : Prop :=
  ∃ k, ∀ fuel, k ≤ fuel → ∃ m' parts' r, m.shfsRefGet env fuel parts peer f salt acc =
    some (m', parts', .ok r) ∧ r.peer.key = tpeer.key ∧ r.ref.blk.pos = target.blk.pos ∧
      r.ref.blk.name = target.blk.name ∧ ok r

/-- The inode is in the partition, not too deep in it, and the reader passes over none of the tokens
on the way. -/
def Reachable (peer tpeer : Peer) (inos : List Ino) (t : Nat) : Prop :=
  tpeer.key = peer.key ∧ (refHier inos.length inos t).length ≤ maxReferenceHierarchy + 1 ∧
    ∀ tok ∈ (refHier inos.length inos t).dropLast,
      tok ≠ ashkeyBlank ∧ (refHier inos.length inos t).getLast? ≠ some tok

instance (peer tpeer : Peer) (inos : List Ino) (t : Nat) :
    Decidable (Reachable peer tpeer inos t) :=
  inferInstanceAs (Decidable (_ ∧ _ ∧ _))

section Get

variable {env : Env} {peer : Peer} {fuel : Nat} {s : Handles Unit} {own : Idx → Idx}
  {node root : Idx} {f n t : Nat}
  {dir file child : Ino} {buff : Bytes} {m : Mount}

/-- The data of a reference that has been stored. -/
theorem RefStored.rawRead (h : RefStored env m f dir buff n file child) (halone : Alone m.fs m.inos)
    (hagreed : Agreed peer (s.put () m) own node root) (hlen : sizeofPeer + 32 ≤ buff.length)
    (fuel : Nat) (acc : Access) :
    m.shfsRefRawRead env fuel f acc = some (m, .ok buff) := by
  have hfind : findChild m f (childKey env file.blk [] .reference) = some n := by
    have hget := h.get
    rw [← put_unit s m] at halone hget
    have hopen := halone.findChild_eq hagreed hget h.parent
    rwa [mount_put, h.key] at hopen
  have hopen : m.openChild env fuel f [] .reference acc = some (m, some (n, child)) := by
    rw [Mount.openChild, shfsInode_open h.file_get hfind]
    simp only [h.get, Option.map_some]
  have hroom : ¬ (buff.length < sizeofPeer + 32 ∨ blockDataSize < buff.length) := by
    have := h.room
    omega
  simp only [Mount.shfsRefRawRead, h.file_get, h.format, hopen, h.size, h.raw]
  rw [if_neg (by decide), if_neg hroom, overlay_toList _ h.room, List.take_left]

/-- Following a reference that has been stored: the list is gone through in the partition of the
file. -/
theorem RefStored.shfsRefGet {toks : List ShKey} (h : RefStored env m f dir buff n file child)
    (halone : Alone m.fs m.inos)
    (hagreed : Agreed peer (s.put () m) own node root) (hpeer : peer.Record)
    (hbuff : buff = peer.raw ++ toks.flatMap ShKey.toBytes) (hne : toks ≠ []) (parts : ShKey → Shfs)
    (fuel : Nat)
    (salt : UInt16) (acc : Access) : m.shfsRefGet env fuel parts peer f salt acc =
      match refLoop fuel (m.fs.block root).name buff maxReferenceHierarchy
          { fs := m.fs, inos := [{ blk := m.fs.block root, parent := none }] } 0 sizeofPeer with
      | none => none
      | some (.error err) => some (m, Function.update parts peer.key m.fs, .error err)
      | some (.ok (fs, ref, top)) =>
        some (m, Function.update parts peer.key m.fs,
          match fs.inos[ref]? with
          | none => .error .inval
          | some ino => .ok { peer := peer, ref := ino, top := top, stored := buff.length }) := by
  have hlen : sizeofPeer + 32 ≤ buff.length := by
    have hpos := List.length_pos_of_ne_nil hne
    rw [hbuff, List.length_append, hpeer.length, length_flatMap_toBytes]
    omega
  have hkey : ShKey.ofBytes ((buff.drop peerKeyAt).take 32) = peer.key := by
    have hat : peerKeyAt + 32 ≤ peer.raw.length := by
      rw [hpeer.length]
      decide
    rw [hbuff, List.drop_append_of_le_length (by omega),
      List.take_append_of_le_length (by rw [List.length_drop]; omega), hpeer.key]
  have hraw : buff.take sizeofPeer = peer.raw := by rw [hbuff, ← hpeer.length, List.take_left]
  have hinit : shfsInit env peer salt m.fs =
      .ok { fs := m.fs, inos := [{ blk := m.fs.block root, parent := none }] } :=
    hagreed.super.shfsInit hagreed.listed.sound salt
  -- the first inode of the handle is the root directory
  have hbase : (m.inos[0]?.map fun r => r.blk.name).getD ashkeyBlank = (m.fs.block root).name := by
    have hhandle := hagreed.handle ()
    rw [put_unit] at hhandle
    have hpos : 0 < m.inos.length := by
      have := (List.getElem?_eq_some_iff.mp h.file_get).1
      omega
    have hget := List.getElem?_eq_getElem hpos
    have hpar : m.inos[0].parent = none := by
      by_contra hne
      obtain ⟨k, hk⟩ := Option.ne_none_iff_exists'.mp hne
      exact absurd (hhandle.parent 0 k _ hget hk).1 (Nat.not_lt_zero k)
    have hcopy := hhandle.copy 0 _ hget
    rw [hget, Option.map_some, Option.getD_some, ← hcopy.name_eq, hhandle.top 0 _ hget hpar]
    rfl
  have hupdate : Function.update (Function.update parts peer.key m.fs) peer.key m.fs =
      Function.update parts peer.key m.fs :=
    Function.update_idem _ _ _
  unfold Mount.shfsRefGet
  rw [h.rawRead halone hagreed hlen]
  simp only [hkey, hraw, Function.update_self, hbase, hinit, hupdate]

end Get

section Path

variable {fs : Shfs} {own : Idx → Idx} {root p : Idx} {P : List Idx} {rec : Bytes}

/-- The places of the list, for an inode with a path: names, and blank ones. -/
theorem RefPath.hierAt (h : RefPath fs own root p P) (hrec : rec.length = sizeofPeer) {i : Nat}
    (hi : i < maxReferenceHierarchy) :
    Fs.hierAt (rec ++ ((P.map fun q => (fs.block q).name).take maxReferenceHierarchy).flatMap
      ShKey.toBytes) i =
      if i < P.length then (fs.block (own^[i] p)).name else ashkeyBlank := by
  rw [hierAt_eq hrec hi, List.getElem?_take_of_lt hi, List.getElem?_map]
  split
  · next hlt =>
    rw [h.get hlt]
    rfl
  · next hge =>
    rw [List.getElem?_eq_none (by omega)]
    rfl

/-- Nothing is loaded from the place of the root directory on. -/
theorem RefPath.skipped (h : RefPath fs own root p P) (hrec : rec.length = sizeofPeer) {i : Nat}
    (hi : i < maxReferenceHierarchy) (hle : P.length - 1 ≤ i) :
    Skipped (fs.block root).name
      (rec ++ ((P.map fun q => (fs.block q).name).take maxReferenceHierarchy).flatMap
        ShKey.toBytes) i := by
  rw [Skipped, h.hierAt hrec hi]
  by_cases hlt : i < P.length
  · rw [if_pos hlt, (h.iterate_eq_root hlt).mpr (by omega)]
    exact Or.inr rfl
  · rw [if_neg hlt]
    exact Or.inl rfl

/-- The tokens below the root directory. -/
theorem RefPath.mem_dropLast (h : RefPath fs own root p P) {tok : ShKey} :
    tok ∈ (P.map fun q => (fs.block q).name).dropLast ↔
      ∃ j < P.length - 1, (fs.block (own^[j] p)).name = tok := by
  rw [List.mem_iff_getElem?]
  refine ⟨fun ⟨j, hj⟩ => ?_, fun ⟨j, hlt, hj⟩ => ⟨j, ?_⟩⟩
  · have hlt := (List.getElem?_eq_some_iff.mp hj).1
    rw [List.length_dropLast, List.length_map] at hlt
    rw [List.getElem?_dropLast, if_pos (by rw [List.length_map]; exact hlt), List.getElem?_map,
      h.get (by omega)] at hj
    exact ⟨j, hlt, Option.some.inj hj⟩
  · rw [List.getElem?_dropLast, if_pos (by rw [List.length_map]; exact hlt), List.getElem?_map,
      h.get (by omega)]
    exact congrArg some hj

/-- The last token is that of the root. -/
theorem RefPath.getLast (h : RefPath fs own root p P) :
    (P.map fun q => (fs.block q).name).getLast? = some (fs.block root).name := by
  have hpos := h.length_pos
  have hroot : own^[P.length - 1] p = root := (h.iterate_eq_root (by omega)).mpr (by omega)
  rw [List.getLast?_eq_getElem?, List.length_map, List.getElem?_map, h.get (by omega), hroot]
  rfl

end Path

/-- The path of an inode leads to it, for the reader of the list. -/
def PathRead (fs : Shfs) (P : List Idx) : Prop :=
  P.length ≤ maxReferenceHierarchy + 1 ∧ ∀ tok ∈ (P.map fun q => (fs.block q).name).dropLast,
    tok ≠ ashkeyBlank ∧ (P.map fun q => (fs.block q).name).getLast? ≠ some tok

/-- The loop of the reader in a partition: it reaches an inode if and only if the path of the inode
leads to it, and it goes through the whole list. -/
theorem refLoop_iff {fs : Shfs} {own : Idx → Idx} {peer : Peer} {node root p : Idx} {P : List Idx}
    {rec buff : Bytes}
    (hl : Listed fs own) (hsuper : Super fs own peer node root) (hpath : RefPath fs own root p P)
    (hrec : rec.length = sizeofPeer)
    (hbuff : buff = rec ++ ((P.map fun q => (fs.block q).name).take maxReferenceHierarchy).flatMap
      ShKey.toBytes) :
    (∀ fuel m' ref' top' ino', refLoop fuel (fs.block root).name buff maxReferenceHierarchy
        { fs := fs, inos := [{ blk := fs.block root, parent := none }] } 0 sizeofPeer =
        some (.ok (m', ref', top')) →
      m'.inos[ref']? = some ino' →
      top' = sizeofPeer + 32 * maxReferenceHierarchy ∧ (ino'.blk.pos = p → PathRead fs P)) ∧
    (PathRead fs P → ∃ m' ref' top' ino', (∃ k, ∀ fuel, k ≤ fuel →
        refLoop fuel (fs.block root).name buff maxReferenceHierarchy
          { fs := fs, inos := [{ blk := fs.block root, parent := none }] } 0 sizeofPeer =
            some (.ok (m', ref', top'))) ∧
      m'.inos[ref']? = some ino' ∧ ino'.blk = fs.block p ∧ ino'.blk.pos = p) := by
  have hlen := hpath.length_pos
  have hreading := Reading.of_root hl.sound hsuper
  have hrootpos := (hl.sound.cell _ hsuper.live_root).1
  have hkey : ∀ j < maxReferenceHierarchy, j < P.length - 1 →
      hierAt buff j = (fs.block (own^[j] p)).name := by
    intro j hj hlt
    rw [hbuff, hpath.hierAt hrec hj, if_pos (by omega)]
  have hskip : ∀ j < maxReferenceHierarchy, P.length - 1 ≤ j →
      Skipped (fs.block root).name buff j := by
    intro j hj hle
    rw [hbuff]
    exact hpath.skipped hrec hj hle
  refine ⟨fun fuel m' ref' top' ino' hrun hi' => ?_, fun hread => ?_⟩
  · obtain ⟨htop, -, ino'', hi'', hown⟩ := hreading.loop hl.sound rfl le_rfl hrun
    refine ⟨by omega, fun hpos => ?_⟩
    rw [hi'', Option.some.injEq] at hi'
    rw [hi', hpos, hrootpos] at hown
    -- as many inodes have been loaded as there are on the path
    have hbelow : ∀ j < maxReferenceHierarchy, ¬ Skipped (fs.block root).name buff j →
        j < P.length - 1 := by
      intro j hj hload
      by_contra hle
      exact hload (hskip j hj (by omega))
    obtain ⟨hcount, hfull⟩ := count_full hbelow
    have heq := (hpath.iterate_eq_root (by omega)).mp hown
    have hall := hfull (by omega)
    refine ⟨?_, fun tok htok => ?_⟩
    · by_contra hdeep
      have := (hall (P.length - 2) (by omega)).1
      omega
    · obtain ⟨j, hj, rfl⟩ := hpath.mem_dropLast.mp htok
      obtain ⟨hlt, hload⟩ := hall j hj
      rw [Skipped, hkey j hlt hj, not_or] at hload
      rw [hpath.getLast]
      exact ⟨hload.1, fun hsome => hload.2 (Option.some.inj hsome).symm⟩
  · obtain ⟨hdepth, htoks⟩ := hread
    have hon : ∀ j < maxReferenceHierarchy, j < P.length - 1 →
        ¬ Skipped (fs.block root).name buff j ∧ hierAt buff j = (fs.block (own^[j] p)).name := by
      intro j hj hlt
      obtain ⟨hblank, hlast⟩ := htoks _ (hpath.mem_dropLast.mpr ⟨j, hlt, rfl⟩)
      rw [hpath.getLast] at hlast
      refine ⟨?_, hkey j hj hlt⟩
      rw [Skipped, hkey j hj hlt, not_or]
      exact ⟨hblank, fun heq => hlast (congrArg some heq.symm)⟩
    have hstart : (fs.block root).pos = own^[min maxReferenceHierarchy (P.length - 1)] p := by
      rw [hrootpos, Nat.min_eq_right (by omega)]
      exact ((hpath.iterate_eq_root (by omega)).mpr (by omega)).symm
    have hget :
        ({ fs := fs, inos := [{ blk := fs.block root, parent := none }] } : Mount).inos[0]? =
        some { blk := fs.block root, parent := none } := rfl
    obtain ⟨m', ref', top', ino', hrun, hread', hi', hpos⟩ :=
      hreading.loop_path hl hpath sizeofPeer hget hstart hskip hon
    exact ⟨m', ref', top', ino', hrun, hi', by rw [hread'.exact ref' ino' hi', hpos], hpos⟩

section Refs

variable {env : Env} {peer tpeer : Peer} {fuel : Nat} {s0 s : Handles Unit} {own own' : Idx → Idx}
  {node root : Idx}
  {f n t : Nat} {file file' target child : Ino} {m : Mount} {P : List Idx}

/-- Following a reference that has been stored, with the tokens of a path. -/
theorem RefStored.found {buff : Bytes} (h : RefStored env m f file buff n file' child)
    (halone : Alone m.fs m.inos)
    (hagreed : Agreed peer (s.put () m) own node root) (hpeer : peer.Record)
    (hpath : RefPath m.fs own root target.blk.pos P)
    (htarget : target.blk.name = (m.fs.block target.blk.pos).name)
    (hbuff : buff = peer.raw ++ ((P.map fun q =>
      (m.fs.block q).name).take maxReferenceHierarchy).flatMap ShKey.toBytes)
    (parts : ShKey → Shfs) (salt : UInt16) (acc : Access) (tpeer : Peer) (ok : RefTarget → Prop)
    (okay : Prop)
    (hok : ∀ r : RefTarget, r.top = sizeofPeer + 32 * maxReferenceHierarchy →
      r.stored = buff.length → (ok r ↔ okay)) :
    RefFound env parts peer m f salt acc tpeer target ok ↔ tpeer.key = peer.key ∧
      PathRead m.fs P ∧ okay := by
  have hne : (P.map fun q => (m.fs.block q).name).take maxReferenceHierarchy ≠ [] := by
    have hmax : 0 < maxReferenceHierarchy := by decide
    refine List.ne_nil_of_length_pos ?_
    rw [List.length_take, List.length_map]
    exact lt_min hmax hpath.length_pos
  have hget := fun fuel => h.shfsRefGet halone hagreed hpeer hbuff hne parts fuel salt acc
  have hl : Listed m.fs own := hagreed.listed
  have hsuper : Super m.fs own peer node root := hagreed.super
  obtain ⟨hany, hreach⟩ := refLoop_iff hl hsuper hpath hpeer.length hbuff
  constructor
  · rintro ⟨k, hk⟩
    obtain ⟨m', parts', r, hrun, hkey, hpos, -, hr⟩ := hk k le_rfl
    rw [hget] at hrun
    split at hrun
    · cases hrun
    · cases hrun
    · next hloop =>
      split at hrun
      · cases hrun
      · next ino hi =>
        cases hrun
        obtain ⟨htop, hpr⟩ := hany _ _ _ _ _ hloop hi
        exact ⟨hkey.symm, hpr hpos, (hok _ htop rfl).mp hr⟩
  · rintro ⟨hkey, hread, hokay⟩
    obtain ⟨m', ref', top', ino', ⟨k, hk⟩, hi, hblk, hpos⟩ := hreach hread
    refine ⟨k, fun fuel hfuel => ?_⟩
    have hloop := hk fuel hfuel
    have htop := (hany _ _ _ _ _ hloop hi).1
    refine ⟨m, Function.update parts peer.key m.fs,
      { peer := peer, ref := ino', top := top', stored := buff.length }, ?_, hkey.symm, hpos, ?_,
        (hok _ htop rfl).mpr hokay⟩
    · rw [hget, hloop]
      simp only [hi]
    · show ino'.blk.name = target.blk.name
      rw [hblk, htarget]

/-- The partition that is opened is the one of the file. -/
theorem RefStored.found_peer {buff : Bytes} {toks : List ShKey}
    (h : RefStored env m f file buff n file' child)
    (halone : Alone m.fs m.inos) (hagreed : Agreed peer (s.put () m) own node root)
    (hpeer : peer.Record)
    (hbuff : buff = peer.raw ++ toks.flatMap ShKey.toBytes) (hne : toks ≠ []) {parts : ShKey → Shfs}
    {salt : UInt16}
    {acc : Access} {ok : RefTarget → Prop}
    (hfound : RefFound env parts peer m f salt acc tpeer target ok) :
    tpeer.key = peer.key := by
  obtain ⟨k, hk⟩ := hfound
  obtain ⟨m', parts', r, hrun, hkey, -⟩ := hk k le_rfl
  rw [h.shfsRefGet halone hagreed hpeer hbuff hne] at hrun
  split at hrun
  · cases hrun
  · cases hrun
  · split at hrun
    · cases hrun
    · cases hrun
      exact hkey.symm

/-- After a reference has been set, it leads to the inode if and only if the inode is reachable: in
the partition of the file, not too deep, with no token on the way that the reader passes over. What
has been read has all been stored if and only if the list of tokens is full. -/
theorem ref_set_get (h0 : NewHandles env peer s0) (hrun : HandleRun env peer (fun _ _ => True) s0 s)
    (hpeer : peer.Record) (hf : (s.inos ())[f]? = some file) {inos : List Ino}
    (ht : inos[t]? = some target)
    (hsame : tpeer.key = peer.key → inos = s.inos ()) {acc : Access}
    (hset : (s.mount ()).shfsRefSet env fuel peer f inos t acc = some (m, .ok ()))
    (parts : ShKey → Shfs)
    (salt : UInt16) (acc' : Access) :
    (RefFound env parts peer m f salt acc' tpeer target (fun _ => True) ↔
      Reachable peer tpeer inos t) ∧
    (RefFound env parts peer m f salt acc' tpeer target (fun r => r.top ≤ r.stored) ↔
      Reachable peer tpeer inos t ∧ maxReferenceHierarchy ≤
        (refHier inos.length inos t).length) := by
  obtain ⟨own0, node, root, hagreed0⟩ := agreed_new h0
  obtain ⟨own, hagreed, halone, -, -⟩ := (alone_new h0).run hagreed0 hrun
  obtain ⟨own', n, file', child, hagreed', halone', hgrows, hstored⟩ :=
    shfsRefSet_stored halone hagreed hf hset
  by_cases hkey : tpeer.key = peer.key
  · obtain rfl := hsame hkey
    have hhandle := hagreed.handle ()
    obtain ⟨P, hpath, hlen, htoks⟩ := hhandle.refPath hagreed.listed.sound hagreed.super ht
    -- the path and its names are still there
    have hnames : (P.map fun q => (s.fs.block q).name) = P.map fun q => (m.fs.block q).name :=
      List.map_congr_left fun q hq => (hgrows.name_eq q (hpath.mem_live q hq)).symm
    have hlt := (List.getElem?_eq_some_iff.mp ht).1
    have hall : refHier (s.inos ()).length (s.inos ()) t = P.map fun q => (m.fs.block q).name := by
      rw [htoks, hnames, List.take_of_length_le (by rw [List.length_map]; omega)]
    have hcopy := hhandle.copy t target ht
    have htarget : target.blk.name = (m.fs.block target.blk.pos).name := by
      rw [hgrows.name_eq _ hcopy.live, hcopy.name_eq]
    have hreach : Reachable peer tpeer (s.inos ()) t ↔ tpeer.key = peer.key ∧ PathRead m.fs P := by
      rw [Reachable, PathRead, hall, List.length_map]
    have hfound :=
      hstored.found halone' hagreed' hpeer (hpath.grow hgrows) htarget
        (by rw [htoks, hnames]) parts salt acc' tpeer
    refine ⟨?_, ?_⟩
    · rw [hfound (fun _ => True) True fun _ _ _ => Iff.rfl, hreach, and_true]
    · rw [hfound (fun r => r.top ≤ r.stored) (maxReferenceHierarchy ≤ P.length) ?_, hreach, hall,
        List.length_map, and_assoc]
      intro r htop hsize
      rw [htop, hsize, List.length_append, hpeer.length, length_flatMap_toBytes, htoks,
        List.length_take, List.length_map]
      omega
  · -- the reader opens the partition of the file
    have hne := refHier_ne_nil ht
    have hnot : ∀ ok, ¬ RefFound env parts peer m f salt acc' tpeer target ok := fun ok hfound =>
      hkey (hstored.found_peer halone' hagreed' hpeer rfl hne hfound)
    exact ⟨iff_of_false (hnot _) fun hr => hkey hr.1, iff_of_false (hnot _) fun hr => hkey hr.1.1⟩

end Refs

/-- A peer with a record, by a byte of its key. -/
def recordPeer (b : UInt8) : Peer :=
  let raw := List.replicate peerKeyAt 0 ++ b :: List.replicate 63 0
  { key := ShKey.ofBytes ((raw.drop peerKeyAt).take 32)
    raw := raw
    rootKey := { ashkeyBlank with alg := 1 } }

theorem recordPeer_record (b : UInt8) : (recordPeer b).Record := ⟨rfl, rfl⟩

/-- Two files below the root directory of a new partition: the partition before and after. -/
def recordFiles (b : UInt8) : Option (Handles Unit × Handles Unit) :=
  (shfsInit sumKeys (recordPeer b) 0 Shfs.empty).toOption.bind fun m =>
  ((HandleOp.init () 0).run sumKeys (recordPeer b) 5
    { fs := m.fs, inos := fun _ => [] }).bind fun s1 =>
  ((HandleOp.inode () 0 [97] .file noAccess).run sumKeys (recordPeer b) 5 s1).bind fun s2 =>
  ((HandleOp.inode () 0 [98] .file noAccess).run sumKeys (recordPeer b) 5 s2).map fun s =>
    ({ fs := m.fs, inos := fun _ => [] }, s)

/-- The sample has been reached by calls. -/
theorem recordFiles_run {b : UInt8} {s0 s : Handles Unit} (h : recordFiles b = some (s0, s)) :
    NewHandles sumKeys (recordPeer b) s0 ∧ HandleRun sumKeys (recordPeer b)
      (fun _ _ => True) s0 s := by
  obtain ⟨m, hm, h⟩ := Option.bind_eq_some_iff.mp h
  obtain ⟨s1, h1, h⟩ := Option.bind_eq_some_iff.mp h
  obtain ⟨s2, h2, h⟩ := Option.bind_eq_some_iff.mp h
  obtain ⟨s', h3, heq⟩ := Option.map_eq_some_iff.mp h
  cases heq
  exact ⟨⟨0, m, ok_of_toOption hm, rfl⟩, .step
    (.step (.step (.refl _) trivial h1) trivial h2) trivial h3⟩

/-- A file that refers to the one beside it: the file is found, and more is read than has been
stored. -/
theorem ref_set_get_two : ∃ (s0 s : Handles Unit) (file target : Ino) (m : Mount),
    NewHandles sumKeys (recordPeer 1) s0 ∧ HandleRun sumKeys (recordPeer 1) (fun _ _ => True) s0 s ∧
    (s.inos ())[1]? = some file ∧ (s.inos ())[2]? = some target ∧
    (s.mount ()).shfsRefSet sumKeys 5 (recordPeer 1) 1 (s.inos ()) 2 noAccess = some (m, .ok ()) ∧
    RefFound sumKeys (fun _ => Shfs.empty)
      (recordPeer 1) m 1 0 noAccess (recordPeer 1) target (fun _ => True) ∧
    ¬ RefFound sumKeys (fun _ => Shfs.empty) (recordPeer 1) m 1 0 noAccess (recordPeer 1) target
      (fun r => r.top ≤ r.stored) := by
  have hall : ((recordFiles 1).bind fun r => (r.2.inos ())[1]?.bind fun _ =>
    (r.2.inos ())[2]?.bind fun _ =>
      ((r.2.mount ()).shfsRefSet sumKeys 5 (recordPeer 1) 1 (r.2.inos ()) 2 noAccess).map fun res =>
        (res.2.toOption, decide (Reachable (recordPeer 1) (recordPeer 1) (r.2.inos ()) 2),
          (refHier (r.2.inos ()).length (r.2.inos ()) 2).length)) = some (some (), true, 2) := by
    decide +kernel
  obtain ⟨⟨s0, s⟩, h0, hall⟩ := Option.bind_eq_some_iff.mp hall
  obtain ⟨file, hf, hall⟩ := Option.bind_eq_some_iff.mp hall
  obtain ⟨target, ht, hall⟩ := Option.bind_eq_some_iff.mp hall
  obtain ⟨⟨m, res⟩, hset, hall⟩ := Option.map_eq_some_iff.mp hall
  simp only [Prod.mk.injEq, decide_eq_true_eq] at hall
  obtain ⟨hres, hreach, hdepth⟩ := hall
  rw [ok_of_toOption hres] at hset
  obtain ⟨hnew, hrun⟩ := recordFiles_run h0
  obtain ⟨hfound, hstored⟩ :=
    ref_set_get hnew hrun (recordPeer_record 1) hf ht (fun _ => rfl) hset (fun _ => Shfs.empty) 0
    noAccess
  refine ⟨s0, s, file, target, m, hnew, hrun, hf, ht, hset, hfound.mpr hreach, fun hcon => ?_⟩
  have hfull := (hstored.mp hcon).2
  rw [hdepth] at hfull
  exact absurd hfull (by decide)

/-- A file that refers to a file in the partition of another peer. -/
theorem ref_in_partition_of_file :
    ¬ ∀ (env : Env) (peer tpeer : Peer) (s0 s t0 ts : Handles Unit) (f t fuel : Nat)
    (file target : Ino) (acc acc' : Access) (m : Mount) (parts : ShKey → Shfs)
    (salt : UInt16), peer.Record →
    tpeer.Record → NewHandles env peer s0 → HandleRun env peer (fun _ _ => True) s0 s →
      NewHandles env tpeer t0 →
    HandleRun env tpeer (fun _ _ => True) t0 ts → (s.inos ())[f]? = some file →
      (ts.inos ())[t]? = some target →
    file.blk.type = target.blk.type →
    (s.mount ()).shfsRefSet env fuel peer f (ts.inos ()) t acc = some (m, .ok ()) →
    RefFound env (Function.update parts tpeer.key ts.fs) peer m f salt acc' tpeer target (fun r =>
      r.top ≤ r.stored) := by
  intro h
  have hall : ((recordFiles 1).bind fun r => (recordFiles 2).bind fun q =>
      (r.2.inos ())[1]?.bind fun file => (q.2.inos ())[2]?.bind fun target =>
      ((r.2.mount ()).shfsRefSet sumKeys 5 (recordPeer 1) 1 (q.2.inos ()) 2 noAccess).map fun res =>
        (decide (file.blk.type = target.blk.type), res.2.toOption)) = some (true, some ()) := by
    decide +kernel
  obtain ⟨⟨s0, s⟩, h0, hall⟩ := Option.bind_eq_some_iff.mp hall
  obtain ⟨⟨t0, ts⟩, h1, hall⟩ := Option.bind_eq_some_iff.mp hall
  obtain ⟨file, hf, hall⟩ := Option.bind_eq_some_iff.mp hall
  obtain ⟨target, ht, hall⟩ := Option.bind_eq_some_iff.mp hall
  obtain ⟨⟨m, res⟩, hset, hall⟩ := Option.map_eq_some_iff.mp hall
  simp only [Prod.mk.injEq, decide_eq_true_eq] at hall
  obtain ⟨htype, hres⟩ := hall
  rw [ok_of_toOption hres] at hset
  obtain ⟨hnew, hrun⟩ := recordFiles_run h0
  obtain ⟨htnew, htrun⟩ := recordFiles_run h1
  have hfound :=
    h sumKeys (recordPeer 1) (recordPeer 2) s0 s t0 ts 1 2 5 file target noAccess noAccess m
    (fun _ => Shfs.empty) 0 (recordPeer_record 1)
      (recordPeer_record 2) hnew hrun htnew htrun hf ht htype hset
  obtain ⟨own0, node, root, hagreed0⟩ := agreed_new hnew
  obtain ⟨own, hagreed, halone, -, -⟩ := (alone_new hnew).run hagreed0 hrun
  obtain ⟨own', n, file', child, hagreed', halone', -, hstored⟩ :=
    shfsRefSet_stored halone hagreed hf hset
  exact absurd (hstored.found_peer halone' hagreed' (recordPeer_record 1) rfl
    (refHier_ne_nil ht) hfound) (by decide)

end LibShare.Fs
