import LibShare.Fs.Clear
import LibShare.Fs.Handles

/-!
# libshare — the supernodes of a journal directory

The partitions of peers whose keys select the same directory share the initial journal,
which holds their supernodes. A new supernode is put into the highest free block of the
journal, and the journal is doubled when there is none. `shfs_scan_partition` goes down
from the end of the journal, and ends at the first free block.

So a supernode is found if and only if every block above it is in use
(`scanPartition_iff`). That is so until the journal grows, and again when the new half has
been filled: in between, the supernodes of the old half are not found, and `shfs_init`
stores another one for the same peer (`supernode_lost`). As long as no peer is opened in
between, the roots are stable (`roots_stable`).
-/

namespace LibShare.Fs

/-! ## Opening -/

/-- The journals after a scan, whatever it returns. -/
def scanAfter (fs : Shfs) (jno : Nat) : Shfs :=
  match scanDown fs jno (fs.size jno) with
  | .error _ => fs
  | .ok (some _) => fs
  | .ok none =>
    if maxBlock ≤ fs.size jno then fs
    else scanAfter { fs with size := Function.update fs.size jno (max 2 (fs.size jno) * 2) } jno
termination_by maxBlock - fs.size jno
decreasing_by
  simp only [Function.update_self]
  omega

/-- The supernode that `shfs_init` finds, or stores. -/
def findSuper (env : Env) (peer : Peer) (fs : Shfs) : Except Sherr (Shfs × Block) :=
  match shfsScanPartition fs peer with
  | .ok node => .ok (fs, node)
  | .error _ => initSuper env peer fs

/-- What `shfs_init` leaves when it fails. -/
def initFailed (env : Env) (peer : Peer) (fs : Shfs) : Shfs :=
  match shfsScanPartition fs peer with
  | .ok _ => fs
  | .error _ =>
    match scanRetry fs 0 with
    | .error _ => scanAfter fs 0
    | .ok (fs, _) =>
      match shfsJournalScan env fs.born peer.key with
      | .error _ => scanAfter fs.born (env.journalIndex peer.key)
      | .ok (fs, _) => fs

theorem shfsInit_eq (env : Env) (peer : Peer) (salt : UInt16) (fs : Shfs) :
    shfsInit env peer salt fs = findSuper env peer fs >>= fun res =>
      initRoot env peer salt res.1 res.2 := by
  unfold shfsInit findSuper
  cases shfsScanPartition fs peer with
  | ok node => rfl
  | error err =>
    dsimp only
    cases initSuper env peer fs <;> rfl

/-! ## Runs -/

/-- A journal directory, with the supernode and the root directory of each peer that has been seen.
-/
structure Partitions where
  fs : Shfs
  seen : ShKey → Option (Idx × Idx)

/-- No peer has been seen. -/
def Partitions.empty : Partitions := { fs := Shfs.empty, seen := fun _ => none }

/-- `shfs_init` for a peer, and `shfs_free`, which stores nothing. -/
def Partitions.step (env : Env) (peer : Peer) (salt : UInt16) (s : Partitions) : Partitions :=
  match findSuper env peer s.fs with
  | .error _ => { s with fs := initFailed env peer s.fs }
  | .ok (fs, node) =>
    match initRoot env peer salt fs node with
    | .error _ => { s with fs := fs }
    | .ok m =>
      { fs := m.fs
        seen := match s.seen peer.key with
          | some _ => s.seen
          | none =>
            Function.update s.seen peer.key (m.inos.head?.map fun root =>
              (node.pos, root.blk.pos)) }

/-- The states that are reached, if each call meets a condition. -/
inductive PartitionRun (env : Env) (ok : Partitions → Peer → Prop) : Partitions → Prop
  | empty : PartitionRun env ok Partitions.empty
  | step {s : Partitions} {peer : Peer} {salt : UInt16} (h : PartitionRun env ok s)
      (hok : ok s peer) :
    PartitionRun env ok (s.step env peer salt)

/-- Every block above the position is in use. -/
def Unhidden (fs : Shfs) (p : Idx) : Prop :=
  ∀ ino, p.ino < ino → ino < fs.size 0 → ino < maxBlock ∧ fs.live { jno := 0, ino := ino }

/-- The supernode of the peer is not hidden, if it has one. -/
def Found (s : Partitions) (peer : Peer) : Prop :=
  ∀ p q, s.seen peer.key = some (p, q) → Unhidden s.fs p

/-! ## Scans -/

theorem scanAfter_block (fs : Shfs) (jno : Nat) : (scanAfter fs jno).block = fs.block ∧
    ∀ j, fs.size j ≤ (scanAfter fs jno).size j := by
  fun_induction scanAfter fs jno with
  | case1 => exact ⟨rfl, fun _ => Nat.le_refl _⟩
  | case2 => exact ⟨rfl, fun _ => Nat.le_refl _⟩
  | case3 => exact ⟨rfl, fun _ => Nat.le_refl _⟩
  | case4 fs hscan hroom ih =>
    refine ⟨ih.1, fun j => Nat.le_trans ?_ (ih.2 j)⟩
    by_cases hj : j = jno
    · subst hj
      simp only [Function.update_self]
      omega
    · simp only [Function.update_of_ne hj, Nat.le_refl]

/-- A block that is the only one with its key is found if and only if every block above it is in
use. -/
theorem scanPartition_iff {fs : Shfs} {key : ShKey} {p : Idx} (hp : p.jno = 0) (hpos : 0 < p.ino)
    (hmap : fs.inMap p)
    (htype : (fs.block p).type = .partition) (hname : (fs.block p).name = key)
    (honly : ∀ q : Idx, q.jno = 0 → (fs.block q).type = .partition →
      (fs.block q).name = key → q = p) :
    ∀ {n : Nat}, p.ino < n → n ≤ fs.size 0 →
    (scanPartition fs key n = .ok (fs.block p) ↔
      ∀ ino, p.ino < ino → ino < n → ino < maxBlock ∧ fs.live { jno := 0, ino := ino }) := by
  intro n
  induction n with
  | zero => exact fun hlt => absurd hlt (Nat.not_lt_zero _)
  | succ n ih =>
    intro hlt hle
    have hn : n ≠ 0 := by omega
    rw [scanPartition, if_neg hn]
    by_cases heq : n = p.ino
    · -- the block itself
      have hself : ({ jno := 0, ino := n } : Idx) = p := by rw [heq, ← hp]
      rw [hself, shfsInodeReadBlock_ok hmap]
      dsimp only
      rw [if_neg (by rw [htype]; decide), if_pos ⟨htype, hname⟩]
      exact iff_of_true rfl fun ino h1 h2 => by omega
    have hrest : (∀ ino, p.ino < ino → ino < n + 1 → ino < maxBlock ∧
        fs.live { jno := 0, ino := ino }) ↔
        (n < maxBlock ∧ fs.live { jno := 0, ino := n }) ∧
          ∀ ino, p.ino < ino → ino < n → ino < maxBlock ∧ fs.live { jno := 0, ino := ino } := by
      refine ⟨fun h =>
        ⟨h n (by omega) (by omega), fun ino h1 h2 => h ino h1 (by omega)⟩, fun h ino h1 h2 => ?_⟩
      by_cases hino : ino = n
      · rw [hino]
        exact h.1
      · exact h.2 ino h1 (by omega)
    rw [hrest]
    by_cases hin : n < maxBlock
    · rw [shfsInodeReadBlock_ok ⟨hin, show n < fs.size 0 by omega⟩]
      dsimp only
      by_cases hlive : fs.live { jno := 0, ino := n }
      · -- a supernode of another peer
        have hother : ¬ ((fs.block { jno := 0, ino := n }).type = .partition ∧
            (fs.block { jno := 0, ino := n }).name = key) := by
          intro hcon
          exact heq (congrArg Idx.ino (honly { jno := 0, ino := n } rfl hcon.1 hcon.2))
        rw [if_neg hlive, if_neg hother, and_iff_right ⟨hin, hlive⟩]
        exact ih (by omega) (by omega)
      · rw [if_pos (not_not.mp hlive)]
        exact iff_of_false (fun hcon => by cases hcon) fun hcon => hlive hcon.1.2
    · rw [shfsInodeReadBlock, if_neg fun hcon => hin hcon.1]
      exact iff_of_false (fun hcon => by cases hcon) fun hcon => hin hcon.1.1

/-- What a scan returns is a supernode of the initial journal. -/
theorem scanPartition_sound {fs : Shfs} {key : ShKey} {blk : Block} : ∀ {n : Nat},
    scanPartition fs key n = .ok blk →
    ∃ p : Idx, p.jno = 0 ∧ fs.block p = blk ∧ blk.type = .partition ∧ blk.name = key := by
  intro n
  induction n with
  | zero => exact fun h => nomatch h
  | succ n ih =>
    intro h
    unfold scanPartition at h
    split at h
    · exact nomatch h
    split at h
    · exact nomatch h
    next read hread =>
    split at h
    · exact nomatch h
    split at h
    · next hmatch =>
      obtain rfl := Except.ok.inj h
      refine ⟨{ jno := 0, ino := n }, rfl, ?_, hmatch⟩
      unfold shfsInodeReadBlock at hread
      split at hread
      · exact Except.ok.inj hread
      · exact nomatch hread
    · exact ih h

/-! ## Supernodes and their roots -/

/-- A supernode of the key, with the root directory that it refers to. -/
structure SuperAt (fs : Shfs) (key : ShKey) (p q : Idx) : Prop where
  jno : p.jno = 0
  ino_pos : 0 < p.ino
  inMap : fs.inMap p
  type : (fs.block p).type = .partition
  name : (fs.block p).name = key
  pos : (fs.block p).pos = p
  fpos : (fs.block p).fpos = q
  root_jno : q.jno ≠ 0
  root_inMap : fs.inMap q
  root_type : (fs.block q).type = .directory
  root_pos : (fs.block q).pos = q

theorem SuperAt.live {fs : Shfs} {key : ShKey} {p q : Idx} (h : SuperAt fs key p q) :
    fs.live p := by
  rw [Shfs.live, h.type]
  exact fun hcon => by cases hcon

theorem SuperAt.root_live {fs : Shfs} {key : ShKey} {p q : Idx} (h : SuperAt fs key p q) :
    fs.live q := by
  rw [Shfs.live, h.root_type]
  exact fun hcon => by cases hcon

/-- Other blocks may be stored, and the journals may grow. -/
theorem SuperAt.mono {fs fs' : Shfs} {key : ShKey} {p q : Idx} (h : SuperAt fs key p q)
    (hsize : ∀ j, fs.size j ≤ fs'.size j)
    (hblock : ∀ pos, fs.live pos → fs'.block pos = fs.block pos) :
    SuperAt fs' key p q := by
  have hp := hblock p h.live
  have hq := hblock q h.root_live
  exact {
    jno := h.jno
    ino_pos := h.ino_pos
    inMap := ⟨h.inMap.1, Nat.lt_of_lt_of_le h.inMap.2 (hsize _)⟩
    type := by rw [hp, h.type]
    name := by rw [hp, h.name]
    pos := by rw [hp, h.pos]
    fpos := by rw [hp, h.fpos]
    root_jno := h.root_jno
    root_inMap := ⟨h.root_inMap.1, Nat.lt_of_lt_of_le h.root_inMap.2 (hsize _)⟩
    root_type := by rw [hq, h.root_type]
    root_pos := by rw [hq, h.root_pos] }

/-- The peers that have been seen have their supernodes, and the initial journal holds no other
block. -/
structure Rooted (s : Partitions) : Prop where
  super : ∀ {key : ShKey} {p q : Idx}, s.seen key = some (p, q) → SuperAt s.fs key p q
  known : ∀ {p : Idx}, p.jno = 0 → s.fs.live p → ∃ q, s.seen (s.fs.block p).name = some (p, q)

theorem Rooted.empty : Rooted Partitions.empty where
  super h := nomatch h
  known _ hlive := absurd rfl hlive

variable {env : Env} {peer : Peer} {salt : UInt16} {s : Partitions} {p q : Idx}

theorem Rooted.only (h : Rooted s) {key : ShKey} (hseen : s.seen key = some (p, q)) {p' : Idx}
    (hjno : p'.jno = 0)
    (htype : (s.fs.block p').type = .partition) (hname : (s.fs.block p').name = key) : p' = p := by
  obtain ⟨q', hq'⟩ := h.known hjno (by rw [Shfs.live, htype]; exact fun hcon => by cases hcon)
  rw [hname, hseen] at hq'
  exact (congrArg Prod.fst (Option.some.inj hq')).symm

/-- The scan finds the supernode of a peer that has been seen if and only if it is not hidden. -/
theorem Rooted.scanRoot_iff (h : Rooted s) (hseen : s.seen peer.key = some (p, q)) :
    shfsScanPartition s.fs peer = .ok (s.fs.block p) ↔ Unhidden s.fs p := by
  have hat := h.super hseen
  have hlt : p.ino < s.fs.size 0 := by
    rw [← hat.jno]
    exact hat.inMap.2
  exact scanPartition_iff hat.jno hat.ino_pos hat.inMap hat.type hat.name
    (fun _ hjno htype hname => h.only hseen hjno htype hname) hlt (Nat.le_refl _)

/-- The scan finds nothing for a peer that has not been seen. -/
theorem Rooted.scan_unseen (h : Rooted s) (hseen : s.seen peer.key = none) :
    ∃ err, shfsScanPartition s.fs peer = .error err := by
  cases hscan : shfsScanPartition s.fs peer with
  | error err => exact ⟨err, rfl⟩
  | ok blk =>
    obtain ⟨p, hjno, hblk, htype, hname⟩ := scanPartition_sound hscan
    obtain ⟨q, hq⟩ := h.known hjno (by rw [Shfs.live, hblk, htype]; exact fun hcon => by cases hcon)
    rw [hblk, hname, hseen] at hq
    cases hq

/-- Opening the root directory of a supernode changes nothing. -/
theorem SuperAt.initRoot {fs : Shfs} {key : ShKey} (h : SuperAt fs key p q) :
    initRoot env peer salt fs (fs.block p) =
      .ok { fs := fs, inos := [{ blk := fs.block q, parent := none }] } := by
  unfold LibShare.Fs.initRoot
  rw [h.fpos, shfsInodeReadBlock_ok h.root_inMap]
  dsimp only
  rw [if_pos h.root_type]

/-- A peer that has been seen is found again, and nothing is stored. -/
theorem Rooted.init_found (h : Rooted s) (hseen : s.seen peer.key = some (p, q))
    (hfound : Unhidden s.fs p) :
    shfsInit env peer salt s.fs =
      .ok { fs := s.fs, inos := [{ blk := s.fs.block q, parent := none }] } := by
  unfold shfsInit
  rw [(h.scanRoot_iff hseen).mpr hfound]
  exact (h.super hseen).initRoot

/-! ## New supernodes -/

/-- A new supernode takes a free block of the initial journal, and refers to a free block of the
journal that the key of the peer selects. -/
theorem initSuper_ok {fs fs' : Shfs} {node : Block} (h : initSuper env peer fs = .ok (fs', node)) :
    node.type = .partition ∧ node.name = peer.key ∧ node.pos.jno = 0 ∧ 0 < node.pos.ino ∧
      fs'.inMap node.pos ∧ ¬ fs.live node.pos ∧ node.fpos.jno ≠ 0 ∧ fs'.inMap node.fpos ∧
      ¬ fs.live node.fpos ∧ fs'.block = Function.update fs.block node.pos node ∧
      ∀ j, fs.size j ≤ fs'.size j := by
  unfold initSuper at h
  split at h
  · exact nomatch h
  next fs1 pos hscan =>
  obtain ⟨hjno, htop, hfs1, hsize1⟩ := scanRetry_ok hscan
  dsimp only at h
  split at h
  · exact nomatch h
  next fs2 fpos hroot =>
  obtain ⟨hfjno, hftop, hfs2, hsize2⟩ := shfsJournalScan_ok hroot
  have hblock1 : fs1.block = fs.block := by rw [hfs1]
  have hblock2 : fs2.block = fs1.block := by
    rw [hfs2]
    rfl
  have hmap : fs2.inMap pos := ⟨htop.inMap.1, Nat.lt_of_lt_of_le htop.inMap.2 (hsize2 _)⟩
  rw [shfsInodeWriteBlock_ok (by exact hmap)] at h
  obtain ⟨rfl, rfl⟩ := Prod.mk.inj (Except.ok.inj h)
  have hfree : ∀ {p : Idx}, ¬ fs1.live p → ¬ fs.live p := by
    intro p hp
    rwa [Shfs.live, hblock1] at hp
  refine ⟨rfl, rfl, hjno, htop.ino_pos, hmap, hfree htop.free, ?_, hftop.inMap, ?_, ?_, fun j => ?_⟩
  · rw [hfjno]
    exact Nat.ne_of_gt (env.journalIndex_pos _)
  · refine hfree ?_
    have hf := hftop.free
    rwa [Shfs.live, hblock2] at hf
  · rw [Shfs.store, hblock2, hblock1]
  · exact Nat.le_trans (hsize1 j) (hsize2 j)

/-- The root directory of a new supernode is stored where the supernode says. -/
theorem initRoot_new {fs : Shfs} {node : Block} (hmap : fs.inMap node.fpos)
    (hfree : ¬ fs.live node.fpos) :
    ∃ m root, initRoot env peer salt fs node = .ok m ∧ m.inos = [{ blk := root, parent := none }] ∧
      root.type = .directory ∧ root.pos = node.fpos ∧
      m.fs.block = Function.update fs.block node.fpos root ∧ m.fs.size = fs.size := by
  unfold initRoot
  rw [shfsInodeReadBlock_ok hmap]
  dsimp only
  rw [if_neg fun hcon => hfree (by rw [Shfs.live, hcon]; exact fun hnull => by cases hnull),
    shfsInodeWriteBlock_ok (by exact hmap)]
  exact ⟨_, _, rfl, rfl, rfl, rfl, rfl, rfl⟩

/-- A call that fails stores no block. -/
theorem initFailed_block (fs : Shfs) : (initFailed env peer fs).block = fs.block ∧
    ∀ j, fs.size j ≤ (initFailed env peer fs).size j := by
  unfold initFailed
  split
  · exact ⟨rfl, fun _ => Nat.le_refl _⟩
  split
  · exact scanAfter_block fs 0
  next fs1 pos hscan =>
  obtain ⟨-, -, hfs1, hsize1⟩ := scanRetry_ok hscan
  have hblock1 : fs1.block = fs.block := by rw [hfs1]
  split
  · obtain ⟨hblock, hsize⟩ := scanAfter_block fs1.born (env.journalIndex peer.key)
    exact ⟨hblock.trans hblock1, fun j => Nat.le_trans (hsize1 j) (hsize j)⟩
  · next fs2 fpos hroot =>
    obtain ⟨-, -, hfs2, hsize2⟩ := shfsJournalScan_ok hroot
    exact ⟨(by rw [hfs2]; exact hblock1), fun j => Nat.le_trans (hsize1 j) (hsize2 j)⟩

/-! ## Every run -/

/-- The journals may grow. -/
theorem Rooted.grow (h : Rooted s) {fs : Shfs} (hblock : fs.block = s.fs.block)
    (hsize : ∀ j, s.fs.size j ≤ fs.size j) : Rooted { s with fs := fs } where
  super hseen := (h.super hseen).mono hsize fun pos _ => congrFun hblock pos
  known {p} hjno hlive := by
    dsimp only at hlive ⊢
    rw [Shfs.live, hblock] at hlive
    rw [hblock]
    exact h.known hjno hlive

/-- A new supernode and its root directory are stored in free blocks. -/
theorem Rooted.add (h : Rooted s) {fs : Shfs} {key : ShKey} {node root : Block}
    (hunseen : s.seen key = none)
    (hat : SuperAt fs key p q) (hsize : ∀ j, s.fs.size j ≤ fs.size j) (hp : ¬ s.fs.live p)
    (hq : ¬ s.fs.live q)
    (hblock : fs.block = Function.update (Function.update s.fs.block p node) q root) :
    Rooted { fs := fs, seen := Function.update s.seen key (some (p, q)) } where
  super {key' p' q'} hseen := by
    dsimp only at hseen ⊢
    by_cases hkey : key' = key
    · -- the new peer
      rw [hkey, Function.update_self] at hseen
      obtain ⟨rfl, rfl⟩ := Prod.mk.inj (Option.some.inj hseen)
      rwa [hkey]
    · rw [Function.update_of_ne hkey] at hseen
      refine (h.super hseen).mono hsize fun pos hlive => ?_
      rw [hblock, Function.update_of_ne fun hcon => hq (by rwa [hcon] at hlive),
        Function.update_of_ne fun hcon => hp (by rwa [hcon] at hlive)]
  known {p'} hjno hlive := by
    dsimp only at hlive ⊢
    by_cases hp' : p' = p
    · rw [hp', hat.name, Function.update_self]
      exact ⟨q, rfl⟩
    -- the root directories are not in the initial journal
    have hkeep : fs.block p' = s.fs.block p' := by
      rw [hblock, Function.update_of_ne fun hcon => hat.root_jno (by rw [← hcon, hjno]),
        Function.update_of_ne hp']
    rw [Shfs.live, hkeep] at hlive
    obtain ⟨q', hq'⟩ := h.known hjno hlive
    refine ⟨q', ?_⟩
    rw [hkeep, Function.update_of_ne fun hcon => ?_]
    · exact hq'
    · rw [hcon, hunseen] at hq'
      cases hq'

/-- A call for a peer that has not been seen. -/
theorem Rooted.step_unseen (h : Rooted s) (hunseen : s.seen peer.key = none) :
    Rooted (s.step env peer salt) := by
  obtain ⟨err, hscan⟩ := h.scan_unseen hunseen
  have hfind : findSuper env peer s.fs = initSuper env peer s.fs := by rw [findSuper, hscan]
  unfold Partitions.step
  rw [hfind]
  cases hsuper : initSuper env peer s.fs with
  | error err =>
    obtain ⟨hblock, hsize⟩ := @initFailed_block env peer s.fs
    exact h.grow hblock hsize
  | ok res =>
    obtain ⟨fs, node⟩ := res
    obtain ⟨htype, hname, hjno, hpos, hmap, hfree, hfjno, hfmap, hffree, hblock, hsize⟩ :=
      initSuper_ok hsuper
    have hne : node.fpos ≠ node.pos := fun hcon => hfjno (by rw [hcon, hjno])
    have hunused : ¬ fs.live node.fpos := by
      rw [Shfs.live, hblock, Function.update_of_ne hne]
      exact hffree
    obtain ⟨m, root, hroot, hinos, hrtype, hrpos, hrblock, hrsize⟩ :=
      @initRoot_new env peer salt fs node hfmap hunused
    have hnode : m.fs.block node.pos = node := by
      rw [hrblock, Function.update_of_ne hne.symm, hblock, Function.update_self]
    have hrootAt : m.fs.block node.fpos = root := by rw [hrblock, Function.update_self]
    have hat : SuperAt m.fs peer.key node.pos node.fpos := {
      jno := hjno
      ino_pos := hpos
      inMap := by rwa [Shfs.inMap, hrsize]
      type := by rw [hnode, htype]
      name := by rw [hnode, hname]
      pos := by rw [hnode]
      fpos := by rw [hnode]
      root_jno := hfjno
      root_inMap := by rwa [Shfs.inMap, hrsize]
      root_type := by rw [hrootAt, hrtype]
      root_pos := by rw [hrootAt, hrpos] }
    have hstore : m.fs.block =
        Function.update (Function.update s.fs.block node.pos node) node.fpos root := by
      rw [hrblock, hblock]
    have hnext := h.add hunseen hat (fun j => by rw [hrsize]; exact hsize j) hfree hffree hstore
    dsimp only
    rw [hroot]
    dsimp only
    rw [hunseen, hinos]
    dsimp only [List.head?, Option.map]
    rwa [hrpos]

theorem Rooted.step (h : Rooted s) (hfound : Found s peer) : Rooted (s.step env peer salt) := by
  cases hseen : s.seen peer.key with
  | none => exact h.step_unseen hseen
  | some at' =>
    obtain ⟨p, q⟩ := at'
    have hsame : s.step env peer salt = s := by
      have hscan := (h.scanRoot_iff hseen).mpr (hfound p q hseen)
      unfold Partitions.step findSuper
      rw [hscan]
      dsimp only
      rw [(h.super hseen).initRoot]
      dsimp only
      rw [hseen]
    rwa [hsame]

theorem PartitionRun.rooted (h : PartitionRun env Found s) : Rooted s := by
  induction h with
  | empty => exact Rooted.empty
  | step _ hok ih => exact ih.step hok

/-- As long as no peer is opened while its supernode is hidden, a peer that has been seen before
gets its supernode and its root directory again if and only if the supernode is not hidden. -/
theorem roots_stable {env : Env} {s : Partitions} {peer : Peer} {p q : Idx}
    (hrun : PartitionRun env Found s)
    (hseen : s.seen peer.key = some (p, q)) (salt : UInt16) :
    (shfsScanPartition s.fs peer = .ok (s.fs.block p) ∧
      ∃ m, shfsInit env peer salt s.fs = .ok m ∧ m.inos.map (fun ino => ino.blk.pos) = [q]) ↔
        Unhidden s.fs p := by
  have hrooted := hrun.rooted
  refine ⟨fun h => (hrooted.scanRoot_iff hseen).mp h.1, fun hfound =>
    ⟨(hrooted.scanRoot_iff hseen).mpr hfound, ?_⟩⟩
  refine ⟨_, hrooted.init_found hseen hfound, ?_⟩
  rw [List.map_singleton, (hrooted.super hseen).root_pos]

/-! ## Small directories -/

/-- Peers that differ in the checksums of their keys. -/
def peerOf (crc : UInt16) : Peer :=
  { key := { ashkeyBlank with crc := crc }, raw := [], rootKey := ashkeyBlank }

/-- One call for each peer. -/
def initAll (peers : List Peer) : Partitions :=
  peers.foldl (fun s peer => s.step keysByLength peer 0) Partitions.empty

theorem initAll_run {ok : Partitions → Peer → Prop} (hok : ∀ s peer, ok s peer)
    (peers : List Peer) :
    PartitionRun keysByLength ok (initAll peers) := by
  suffices ∀ s, PartitionRun keysByLength ok s →
      PartitionRun keysByLength ok (peers.foldl (fun s peer => s.step keysByLength peer 0) s) from
    this _ .empty
  induction peers with
  | nil => exact fun s h => h
  | cons peer peers ih => exact fun s h => ih _ (h.step (hok s peer))

/-- The first peer of two is opened again. -/
theorem roots_stable_two : ∃ (s : Partitions) (p q : Idx), PartitionRun keysByLength Found s ∧
    s.seen (peerOf 1).key = some (p, q) ∧ Unhidden s.fs p ∧
    ∃ m, shfsInit keysByLength (peerOf 1) 0 s.fs = .ok m ∧
      m.inos.map (fun ino => ino.blk.pos) = [q] := by
  have hfirst : PartitionRun keysByLength Found (initAll [peerOf 1]) :=
    PartitionRun.empty.step fun _ _ hcon => nomatch hcon
  have hnone : (initAll [peerOf 1]).seen (peerOf 2).key = none := by decide +kernel
  have hrun : PartitionRun keysByLength Found (initAll [peerOf 1, peerOf 2]) :=
    hfirst.step fun p q hcon => nomatch hnone.symm.trans hcon
  have hseen : (initAll [peerOf 1, peerOf 2]).seen (peerOf 1).key =
      some ({ jno := 0, ino := 3 }, { jno := 1, ino := 3 }) := by decide +kernel
  have hsize : (initAll [peerOf 1, peerOf 2]).fs.size 0 = 4 := by decide +kernel
  have hfound : Unhidden (initAll [peerOf 1, peerOf 2]).fs { jno := 0, ino := 3 } := by
    intro ino h1 h2
    rw [hsize] at h2
    exact absurd h1 (Nat.not_lt.mpr (Nat.le_of_lt_succ h2))
  exact ⟨_, _, _, hrun, hseen, hfound, ((roots_stable hrun hseen 0).mpr hfound).2⟩

/-- With the fourth peer the initial journal grows, and the first peer gets another root directory.
-/
theorem supernode_lost : ∃ (env : Env) (s : Partitions) (peer : Peer) (p q : Idx),
    PartitionRun env (fun _ _ => True) s ∧ s.seen peer.key = some (p, q) ∧
    (shfsScanPartition s.fs peer).toOption = none ∧
    ((shfsInit env peer 0 s.fs).toOption.map fun m => m.inos.map fun ino => ino.blk.pos) =
      some [{ jno := 1, ino := 6 }] ∧ q = { jno := 1, ino := 3 } := by
  refine ⟨keysByLength, initAll [peerOf 1, peerOf 2, peerOf 3, peerOf 4], peerOf 1,
    { jno := 0, ino := 3 }, { jno := 1, ino := 3 }, initAll_run (fun _ _ => trivial) _, ?_, ?_, ?_,
      rfl⟩ <;> decide +kernel

end LibShare.Fs
