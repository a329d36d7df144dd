import LibShare.Fs.Attr
import LibShare.Fs.Paths
import LibShare.Fs.FileResize
import LibShare.Fs.Clear

/-!
# libshare — the lock hierarchy

An inode is locked by the attribute FLOCK, and `shfs_locked` looks for the attribute in
the inode and in those above it. The switches of `shfs_attr_set` and `shfs_attr_unset`
have no case for FLOCK: a lock that is not there cannot be set, and a lock that is there
cannot be taken away. All calls leave the tree as it is (`LockOp.run_eq`), and a sequence
of calls keeps the law of locks if and only if none of them has anything to do
(`lock_hierarchy_iff`).
-/

namespace LibShare.Fs

/-! ## Calls -/

/-- The calls that change locks. -/
inductive LockOp
  | lock (i : Nat)
  | lockOf (i ofs len : Nat)
  | unlock (i : Nat)
deriving DecidableEq

def LockOp.target : LockOp → Nat
  | .lock i | .lockOf i _ _ | .unlock i => i

/-- The attribute FLOCK of an open inode. -/
def Mount.flock (m : Mount) (i : Nat) : Prop :=
  ∃ ino, m.inos[i]? = some ino ∧ ino.blk.attr &&& shattrFlock ≠ 0

/-- An inode that is a lock itself. -/
def Mount.isLock (m : Mount) (i : Nat) : Prop :=
  ∃ ino, m.inos[i]? = some ino ∧ ino.blk.type = .fileLock

/-- A tree of open inodes with content. -/
structure LockTree (m : Mount) : Prop where
  ordered : m.Ordered
  content : ∀ (i : Nat) (ino : Ino), m.inos[i]? = some ino → ino.blk.format ≠ .null
  parents : ∀ (i j : Nat) (ino : Ino), m.inos[i]? = some ino → ino.parent = some j →
    ∃ pino, m.inos[j]? = some pino ∧ pino.blk.type.isContainer = true

/-- An inode, or one above it. -/
def Mount.UpTo (m : Mount) : Nat → Nat → Prop :=
  Relation.ReflTransGen fun i j => ∃ ino, m.inos[i]? = some ino ∧ ino.parent = some j

section Locks

variable (env : Env) (other : Formats) (revInit : Mount → Nat → Option (Mount × Except Sherr Unit))
  (acc : Nat → Access) (fuel : Nat)

def LockOp.run (m : Mount) : LockOp → Option (Mount × Except Sherr Unit)
  | .lock i => shfsLock env other revInit acc fuel m i
  | .lockOf i ofs len => shfsLockOf env other revInit acc fuel m i ofs len
  | .unlock i => shfsUnlock env other acc fuel m i

/-- A sequence of calls, with what each of them returns. -/
def runLocks : List LockOp → Mount → Option (Mount × List (Except Sherr Unit))
  | [], m => some (m, [])
  | op :: ops, m =>
    match op.run env other revInit acc fuel m with
    | none => none
    | some (m, r) => (runLocks ops m).map fun res => (res.1, r :: res.2)

end Locks

/-- What is locked after a call that has done what it is for. -/
def LockOp.apply (m : Mount) (held : Set Nat) : LockOp → Set Nat
  | .lock i | .lockOf i _ _ => {j | j ∈ held ∨ j = i ∧ ¬ m.isLock i}
  | .unlock i => {j | j ∈ held ∧ ¬ (j = i ∧ ¬ m.isLock i)}

/-- The inodes that were locked and have not been unlocked since. -/
def heldAfter (m : Mount) (ops : List LockOp) : Set Nat :=
  ops.foldl (LockOp.apply m) {i | m.flock i}

/-- The law of locks, for a sequence of calls: they return zero, and an inode is reported as locked
at each time if and only if it or one above it is. -/
def LockLaw (env : Env) (other : Formats)
    (revInit : Mount → Nat → Option (Mount × Except Sherr Unit))
    (acc : Nat → Access) (fuel : Nat) (m : Mount) (ops : List LockOp) : Prop :=
  ∀ done, done <+: ops → ∃ m' rs, runLocks env other revInit acc fuel done m = some (m', rs) ∧
    (∀ (k : Nat) (op : LockOp), done[k]? = some op → ¬ m.isLock op.target →
      rs[k]? = some (.ok ())) ∧
    ∀ (x : Nat) (ino : Ino) (levels : Nat), m'.inos[x]? = some ino → ¬ m'.isLock x → x < levels →
      (shfsLocked levels m' x = some (.error .access) ↔ ∃ a ∈ heldAfter m done, m'.UpTo x a) ∧
      (shfsLocked levels m' x = some (.ok ()) ↔ ¬ ∃ a ∈ heldAfter m done, m'.UpTo x a)

/-- The call has nothing to do. -/
def LockOp.Idle (m : Mount) : LockOp → Prop
  | .lock i | .lockOf i _ _ => m.isLock i ∨ m.flock i
  | .unlock i => m.isLock i ∨ ¬ m.flock i

section Run

variable {env : Env} {other : Formats} {revInit : Mount → Nat → Option (Mount × Except Sherr Unit)}
  {acc : Nat → Access} {fuel : Nat} {m : Mount}

theorem lockCheck_eq (h : LockTree m) {i : Nat} {ino : Ino} (hi : m.inos[i]? = some ino) :
    lockCheck m i = if ino.blk.type = .fileLock then .error .opnotsupp else .ok () := by
  have hstat : shfsFstat m (some i) = .ok () := by
    rw [shfsFstat, Option.bind_some, hi]
    exact if_neg (h.content i ino hi)
  rw [lockCheck, hstat, hi]

/-- There is no case for FLOCK in `shfs_attr_set`. -/
theorem attrSet_flock {i : Nat} {ino : Ino} (hi : m.inos[i]? = some ino) :
    shfsAttrSet env other revInit acc fuel m i shattrFlock =
      some (m, if ino.blk.attr &&& shattrFlock ≠ 0 then .ok () else .error .opnotsupp) := by
  have hcase : attrSetCase env other revInit acc fuel m i ino.blk shattrFlock =
      some (m, .error .opnotsupp) := rfl
  rw [shfsAttrSet, hi]
  dsimp only
  rw [if_neg (by decide), hcase]
  split <;> rfl

/-- Nor is there one in `shfs_attr_unset`. -/
theorem attrUnset_flock {i : Nat} {ino : Ino} (hi : m.inos[i]? = some ino) :
    shfsAttrUnset env other acc fuel m i shattrFlock =
      some (m, if ino.blk.attr &&& shattrFlock = 0 then .ok () else .error .opnotsupp) := by
  have hcase : attrUnsetCase env other acc fuel m i ino shattrFlock =
      some (m, .error .opnotsupp) := rfl
  rw [shfsAttrUnset, hi]
  dsimp only
  rw [if_neg (by decide), hcase]
  split <;> rfl

theorem flock_iff {i : Nat} {ino : Ino} (hi : m.inos[i]? = some ino) :
    m.flock i ↔ ino.blk.attr &&& shattrFlock ≠ 0 := by
  refine ⟨fun ⟨ino', hi', hset⟩ => ?_, fun hset => ⟨ino, hi, hset⟩⟩
  cases hi.symm.trans hi'
  exact hset

theorem lock_eq (h : LockTree m) {i : Nat} {ino : Ino} (hi : m.inos[i]? = some ino)
    (hlock : ¬ m.isLock i) :
    shfsLock env other revInit acc fuel m i =
      some (m, if ino.blk.attr &&& shattrFlock ≠ 0 then .ok () else .error .opnotsupp) := by
  rw [shfsLock, lockCheck_eq h hi, if_neg fun htype => hlock ⟨ino, hi, htype⟩]
  exact attrSet_flock hi

theorem unlock_eq (h : LockTree m) {i : Nat} {ino : Ino} (hi : m.inos[i]? = some ino)
    (hlock : ¬ m.isLock i) :
    shfsUnlock env other acc fuel m i =
      some (m, if ino.blk.attr &&& shattrFlock = 0 then .ok () else .error .opnotsupp) := by
  rw [shfsUnlock, lockCheck_eq h hi, if_neg fun htype => hlock ⟨ino, hi, htype⟩]
  exact attrUnset_flock hi

theorem ok_iff {p : Prop} [Decidable p] {err : Sherr} :
    (if p then Except.ok () else Except.error err) = (.ok () : Except Sherr Unit) ↔ p := by
  split
  · next hp => exact iff_of_true rfl hp
  · next hp => exact iff_of_false (fun hcon => nomatch hcon) hp

/-- A call leaves the tree as it is. On an inode that is not a lock, it returns zero if and only if
it has nothing to do. -/
theorem LockOp.run_eq (h : LockTree m) (op : LockOp) (hop : op.target < m.inos.length) :
    ∃ r, op.run env other revInit acc fuel m = some (m, r) ∧
      (¬ m.isLock op.target → (r = .ok () ↔ op.Idle m)) := by
  have hi := List.getElem?_eq_getElem hop
  generalize m.inos[op.target] = ino at hi
  by_cases hlock : m.isLock op.target
  · -- a lock is not locked
    obtain ⟨ino', hi', htype⟩ := hlock
    cases hi.symm.trans hi'
    have hcheck := lockCheck_eq h hi
    rw [if_pos htype] at hcheck
    refine ⟨.error .opnotsupp, ?_, fun hnot => absurd ⟨ino, hi, htype⟩ hnot⟩
    cases op with
    | lock i => rw [LockOp.run, shfsLock, show lockCheck m i = _ from hcheck]
    | lockOf i ofs len => rw [LockOp.run, shfsLockOf, shfsLock, show lockCheck m i = _ from hcheck]
    | unlock i => rw [LockOp.run, shfsUnlock, show lockCheck m i = _ from hcheck]
  · cases op with
    | lock i =>
      refine ⟨_, lock_eq h hi hlock, fun _ => ?_⟩
      rw [LockOp.Idle, or_iff_right (show ¬ m.isLock i from hlock), ok_iff]
      exact (flock_iff hi).symm
    | lockOf i ofs len =>
      refine ⟨_, lock_eq h hi hlock, fun _ => ?_⟩
      rw [LockOp.Idle, or_iff_right (show ¬ m.isLock i from hlock), ok_iff]
      exact (flock_iff hi).symm
    | unlock i =>
      refine ⟨_, unlock_eq h hi hlock, fun _ => ?_⟩
      rw [LockOp.Idle, or_iff_right (show ¬ m.isLock i from hlock), ok_iff, ← not_ne_iff]
      exact not_congr (flock_iff hi).symm

/-- A sequence of calls leaves the tree as it is. -/
theorem runLocks_eq (h : LockTree m) :
    ∀ {ops : List LockOp}, (∀ op ∈ ops, op.target < m.inos.length) →
    ∃ rs, runLocks env other revInit acc fuel ops m = some (m, rs) ∧
      ∀ (k : Nat) (op : LockOp), ops[k]? = some op → ¬ m.isLock op.target →
        (rs[k]? = some (.ok ()) ↔ op.Idle m) := by
  intro ops
  induction ops with
  | nil => exact fun _ => ⟨[], rfl, fun k op hk => nomatch hk⟩
  | cons op ops ih =>
    intro hops
    obtain ⟨r, hrun, hr⟩ :=
      @LockOp.run_eq env other revInit acc fuel m h op (hops op List.mem_cons_self)
    obtain ⟨rs, hruns, hrs⟩ := ih fun op' hop' => hops op' (List.mem_cons_of_mem _ hop')
    refine ⟨r :: rs, by rw [runLocks, hrun]; dsimp only; rw [hruns]; rfl, fun k op' hk hlock => ?_⟩
    obtain _ | k := k
    · cases hk
      rw [List.getElem?_cons_zero, Option.some.injEq]
      exact hr hlock
    · exact hrs k op' hk hlock

/-- Calls that have nothing to do leave the same inodes locked. -/
theorem heldAfter_idle : ∀ {ops : List LockOp} {held : Set Nat}, (∀ op ∈ ops, op.Idle m) →
    held = {i | m.flock i} → ops.foldl (LockOp.apply m) held = held := by
  intro ops
  induction ops with
  | nil => exact fun _ _ => rfl
  | cons op ops ih =>
    intro held hidle hheld
    have hop := hidle op List.mem_cons_self
    have happly : LockOp.apply m held op = held := by
      ext j
      subst hheld
      cases op with
      | lock i =>
        refine ⟨?_, .inl⟩
        rintro (hj | ⟨rfl, hlock⟩)
        · exact hj
        · exact hop.resolve_left hlock
      | lockOf i ofs len =>
        refine ⟨?_, .inl⟩
        rintro (hj | ⟨rfl, hlock⟩)
        · exact hj
        · exact hop.resolve_left hlock
      | unlock i =>
        refine ⟨And.left, fun hj => ⟨hj, ?_⟩⟩
        rintro ⟨rfl, hlock⟩
        exact hop.resolve_left hlock hj
    rw [List.foldl_cons, happly]
    exact ih (fun op' hop' => hidle op' (List.mem_cons_of_mem _ hop')) hheld

/-- The recursion over the parents finds the attribute wherever it is set above an inode. -/
theorem lockVerifyHier_eq (h : LockTree m) :
    ∀ {levels x : Nat} {ino : Ino}, m.inos[x]? = some ino → ¬ m.isLock x →
    x < levels →
    (lockVerifyHier m levels x = some (.error .access) ∧ ∃ a ∈ {i | m.flock i}, m.UpTo x a) ∨
    (lockVerifyHier m levels x = some (.ok ()) ∧ ¬ ∃ a ∈ {i | m.flock i}, m.UpTo x a) := by
  intro levels
  induction levels with
  | zero => exact fun _ _ hlt => absurd hlt (Nat.not_lt_zero _)
  | succ levels ih =>
    intro x ino hx hlock hlt
    rw [lockVerifyHier, hx]
    dsimp only
    rw [if_neg fun htype => hlock ⟨ino, hx, htype⟩]
    by_cases hset : ino.blk.attr &&& shattrFlock ≠ 0
    · rw [if_pos hset]
      exact .inl ⟨rfl, x, ⟨ino, hx, hset⟩, .refl⟩
    rw [if_neg hset]
    have hself : ¬ m.flock x := fun hflock => hset ((flock_iff hx).mp hflock)
    cases hpar : ino.parent with
    | none =>
      refine .inr ⟨rfl, ?_⟩
      rintro ⟨a, ha, hup⟩
      rcases Relation.ReflTransGen.cases_head hup with rfl | ⟨j, ⟨ino', hx', hj⟩, -⟩
      · exact hself ha
      · cases hx.symm.trans hx'
        rw [hpar] at hj
        cases hj
    | some j =>
      obtain ⟨pino, hj, hcont⟩ := h.parents x j ino hx hpar
      have hnot : ¬ m.isLock j := by
        rintro ⟨pino', hj', htype⟩
        cases hj.symm.trans hj'
        rw [htype] at hcont
        cases hcont
      have hstep : (∃ a ∈ {i | m.flock i}, m.UpTo x a) ↔ ∃ a ∈ {i | m.flock i}, m.UpTo j a := by
        refine ⟨?_, fun ⟨a, ha, hup⟩ => ⟨a, ha, .head ⟨ino, hx, hpar⟩ hup⟩⟩
        rintro ⟨a, ha, hup⟩
        rcases Relation.ReflTransGen.cases_head hup with rfl | ⟨j', ⟨ino', hx', hj'⟩, hup'⟩
        · exact absurd ha hself
        · cases hx.symm.trans hx'
          cases hpar.symm.trans hj'
          exact ⟨a, ha, hup'⟩
      rw [hstep]
      exact ih hj hnot (Nat.lt_of_lt_of_le (h.ordered x j ino hx hpar) (Nat.le_of_lt_succ hlt))

end Run

/-- For every tree of inodes with content and every sequence of calls on them: the law of locks is
kept if and only if every call has nothing to do. -/
theorem lock_hierarchy_iff {env : Env} {other : Formats}
    {revInit : Mount → Nat → Option (Mount × Except Sherr Unit)} {acc : Nat → Access}
    {fuel : Nat} {m : Mount}
    {ops : List LockOp} (h : LockTree m) (hops : ∀ op ∈ ops, op.target < m.inos.length) :
    LockLaw env other revInit acc fuel m ops ↔ ∀ op ∈ ops, op.Idle m := by
  constructor
  · intro hlaw op hop
    by_cases hlock : m.isLock op.target
    · cases op <;> exact .inl hlock
    obtain ⟨m', rs, hrun, hreturn, -⟩ := hlaw ops (List.prefix_refl ops)
    obtain ⟨rs', hrun', hrs⟩ := @runLocks_eq env other revInit acc fuel m h ops hops
    cases hrun.symm.trans hrun'
    obtain ⟨k, hk⟩ := List.mem_iff_getElem?.mp hop
    exact (hrs k op hk hlock).mp (hreturn k op hk hlock)
  · intro hidle done hdone
    have hmem : ∀ op ∈ done, op ∈ ops := fun op hop => hdone.subset hop
    obtain ⟨rs, hrun, hrs⟩ :=
      @runLocks_eq env other revInit acc fuel m h done fun op hop => hops op (hmem op hop)
    refine ⟨m, rs, hrun, fun k op hk hlock => ?_, fun x ino levels hx hlock hlt => ?_⟩
    · exact (hrs k op hk hlock).mpr (hidle op (hmem op (List.mem_of_getElem? hk)))
    -- nothing has been locked or unlocked
    have hheld : heldAfter m done = {i | m.flock i} :=
      heldAfter_idle (fun op hop => hidle op (hmem op hop)) rfl
    have hstat : shfsLocked levels m x = lockVerifyHier m levels x := by
      rw [shfsLocked, shfsFstat, Option.bind_some, hx]
      dsimp only
      rw [if_neg (h.content x ino hx)]
    rw [hheld, hstat]
    rcases lockVerifyHier_eq h hx hlock hlt with ⟨heq, hup⟩ | ⟨heq, hup⟩
    · rw [heq]
      exact ⟨iff_of_true rfl hup, iff_of_false (fun hcon =>
        nomatch Option.some.inj hcon) (not_not.mpr hup)⟩
    · rw [heq]
      exact ⟨iff_of_false (fun hcon => nomatch Option.some.inj hcon) hup, iff_of_true rfl hup⟩

/-- The root directory of a new partition. -/
def lockRoot : Option Mount := (shfsInitNew keysByLength ashkeyBlank ashkeyBlank [] 0).toOption

theorem lockRoot_tree :
    ∃ m root, lockRoot = some m ∧ LockTree m ∧ m.inos = [root] ∧ root.blk.type = .directory ∧
      root.blk.attr = 0 := by
  obtain ⟨m, hm⟩ : ∃ m, lockRoot = some m := Option.isSome_iff_exists.mp (by decide +kernel)
  have hroot : lockRoot.map (fun m => m.inos.map fun ino =>
      (ino.parent, ino.blk.type, ino.blk.format, ino.blk.attr)) =
        some [(none, .directory, .directory, 0)] := by
    decide +kernel
  rw [hm, Option.map_some, Option.some.injEq] at hroot
  obtain ⟨root, hinos, hblk⟩ : ∃ root, m.inos = [root] ∧
      (root.parent, root.blk.type, root.blk.format, root.blk.attr) =
        (none, .directory, .directory, 0) := by
    rcases hl : m.inos with _ | ⟨a, _ | ⟨b, l⟩⟩
    · rw [hl] at hroot
      cases hroot
    · rw [hl] at hroot
      exact ⟨a, rfl, List.singleton_inj.mp hroot⟩
    · have hlength := congrArg List.length hroot
      rw [hl] at hlength
      cases hlength
  simp only [Prod.mk.injEq] at hblk
  obtain ⟨hparent, htype, hformat, hattr⟩ := hblk
  have honly : ∀ (i : Nat) (ino : Ino), m.inos[i]? = some ino → ino = root := by
    intro i ino hi
    rw [hinos] at hi
    exact List.mem_singleton.mp (List.mem_of_getElem? hi)
  refine ⟨m, root, hm, ⟨fun i j ino hi hj => ?_, fun i ino hi => ?_, fun i j ino hi hj => ?_⟩,
    hinos, htype, hattr⟩
  · rw [honly i ino hi, hparent] at hj
    cases hj
  · rw [honly i ino hi, hformat]
    decide
  · rw [honly i ino hi, hparent] at hj
    cases hj

/-- A file in a directory of a locked root directory. -/
def lockedTree : Mount where
  fs := Shfs.empty
  inos := [
    { blk := { Block.zero with type := .directory, format := .directory, attr := shattrFlock }
      parent := none },
    { blk := { Block.zero with type := .directory, format := .directory }, parent := some 0 },
    { blk := { Block.zero with type := .file, format := .binary }, parent := some 1 }]

theorem lockedTree_tree : LockTree lockedTree := by
  refine ⟨fun i j ino hi hj => ?_, fun i ino hi => ?_, fun i j ino hi hj => ?_⟩
  · rcases i with _ | _ | _ | i <;> cases hi <;> cases hj <;> decide
  · rcases i with _ | _ | _ | i <;> cases hi <;> decide
  · rcases i with _ | _ | _ | i <;> cases hi <;> cases hj
    · exact ⟨_, rfl, rfl⟩
    · exact ⟨_, rfl, rfl⟩

/-- The root directory may be locked again, and what is below it, which is locked from above,
unlocked. -/
theorem lock_hierarchy_iff_locked :
    LockLaw keysByLength noFormats (fun m _ => some (m, .ok ())) (fun _ => anyone) 5 lockedTree
      [.lock 0, .unlock 2, .lockOf 0 3 4, .unlock 1] := by
  have hroot : lockedTree.flock 0 := ⟨_, rfl, by decide⟩
  refine (lock_hierarchy_iff lockedTree_tree fun op hop => ?_).mpr fun op hop => ?_
  · simp only [List.mem_cons, List.not_mem_nil, or_false] at hop
    rcases hop with rfl | rfl | rfl | rfl <;> decide
  · simp only [List.mem_cons, List.not_mem_nil, or_false] at hop
    rcases hop with rfl | rfl | rfl | rfl
    · exact .inr hroot
    · exact .inr fun hfile => absurd ((flock_iff rfl).mp hfile) (by decide)
    · exact .inr hroot
    · exact .inr fun hdir => absurd ((flock_iff rfl).mp hdir) (by decide)

/-- A directory cannot be locked. -/
theorem lock_not_supported : ¬ ∀ (env : Env) (other : Formats)
    (revInit : Mount → Nat → Option (Mount × Except Sherr Unit)) (acc : Nat → Access)
    (fuel : Nat) (m : Mount)
    (ops : List LockOp), LockTree m → (∀ op ∈ ops, op.target < m.inos.length) →
    LockLaw env other revInit acc fuel m ops := by
  intro hall
  obtain ⟨m, root, -, htree, hinos, htype, hattr⟩ := lockRoot_tree
  have hroot : m.inos[0]? = some root := by rw [hinos]; rfl
  have hlock : ¬ m.isLock 0 := by
    rintro ⟨ino, hi, hcon⟩
    cases hroot.symm.trans hi
    rw [htype] at hcon
    cases hcon
  obtain ⟨m', rs, hrun, hreturn, -⟩ :=
    hall keysByLength noFormats (fun m _ => some (m, .ok ())) (fun _ => anyone) 5 m
    [.lock 0] htree (fun op hop =>
      by rw [List.mem_singleton.mp hop, hinos]; exact Nat.one_pos) _ (List.prefix_refl _)
  have hok := hreturn 0 (.lock 0) rfl hlock
  rw [runLocks, LockOp.run, lock_eq htree hroot hlock, hattr, if_neg (by decide)] at hrun
  cases hrun
  cases hok

end LibShare.Fs
