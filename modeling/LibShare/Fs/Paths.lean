import LibShare.Fs.Listing
import LibShare.Fs.Names
import LibShare.Fs.FileRuns

/-!
# libshare — lookups by path

`shfs_file_find` opens one inode after the other. An inode that is open keeps its number,
its name and its parent, whatever is done to it or to others, for as long as none is closed
(`Retains`): so a path that has been looked up leads to the same inode again, by the
open inodes alone (`walkPath_again`).

A removal goes to inodes that have been opened below the one it begins with. It leaves
the formats of the others as they are (`Retains.fileRemove`).
-/

namespace LibShare.Fs

/-! ## Open inodes -/

/-- The open inodes are there under their numbers, and the first of them with their formats. -/
structure Retains (b : Nat) (m m' : Mount) : Prop where
  kept : ∀ (i : Nat) (ino : Ino), m.inos[i]? = some ino → ∃ ino', m'.inos[i]? = some ino' ∧
    ino'.parent = ino.parent ∧ ino'.blk.name = ino.blk.name ∧ ino'.blk.salt = ino.blk.salt ∧
    ino'.blk.type = ino.blk.type ∧ (i < b → ino'.blk.format = ino.blk.format)
  added : ∀ (i j : Nat) (ino' : Ino), m'.inos[i]? = some ino' → m.inos.length ≤ i →
    ino'.parent = some j → j < i

/-- Parents have been opened before their children. -/
def Mount.Ordered (m : Mount) : Prop :=
  ∀ (i j : Nat) (ino : Ino), m.inos[i]? = some ino → ino.parent = some j → j < i

section Retains

variable {env : Env} {fuel b i : Nat} {m m' m'' : Mount} {ino : Ino} {name : Bytes} {mode : Shinode}

/-- In a sound mount every inode comes behind its parent. -/
theorem Mounted.ordered {own : Idx → Idx} (h : Mounted m own) : m.Ordered :=
  fun i j ino hi hj => (h.parent i j ino hi hj).1

/-- A mount retains what it has. -/
theorem Retains.refl (b : Nat) (m : Mount) : Retains b m m :=
  ⟨fun _ ino hi => ⟨ino, hi, rfl, rfl, rfl, rfl, fun _ => rfl⟩,
    fun _ _ _ hi hle _ => absurd hle (Nat.not_le.mpr (List.getElem?_eq_some_iff.mp hi).1)⟩

/-- What is retained from a lower number on is retained from a higher one on. -/
theorem Retains.weaken {b' : Nat} (h : Retains b m m') (hle : b' ≤ b) : Retains b' m m' := by
  refine ⟨fun i ino hi => ?_, h.added⟩
  obtain ⟨ino', hi', hpar, hname, hsalt, htype, hformat⟩ := h.kept i ino hi
  exact ⟨ino', hi', hpar, hname, hsalt, htype, fun hlt => hformat (Nat.lt_of_lt_of_le hlt hle)⟩

/-- What is retained twice is retained. -/
theorem Retains.trans (h : Retains b m m') (h' : Retains b m' m'') : Retains b m m'' := by
  refine ⟨fun i ino hi => ?_, fun i j ino'' hi'' hle hpar => ?_⟩
  · obtain ⟨ino', hi', hpar, hname, hsalt, htype, hformat⟩ := h.kept i ino hi
    obtain ⟨ino'', hi'', hpar', hname', hsalt', htype', hformat'⟩ := h'.kept i ino' hi'
    exact ⟨ino'', hi'', hpar'.trans hpar, hname'.trans hname, hsalt'.trans hsalt,
      htype'.trans htype, fun hlt => (hformat' hlt).trans (hformat hlt)⟩
  · by_cases hnew : m'.inos.length ≤ i
    · exact h'.added i j ino'' hi'' hnew hpar
    · -- opened by the first of the two
      have hlt := Nat.not_le.mp hnew
      obtain ⟨ino2, hi2, hpar2, -⟩ := h'.kept i m'.inos[i] (List.getElem?_eq_getElem hlt)
      rw [hi''] at hi2
      cases hi2
      exact h.added i j _ (List.getElem?_eq_getElem hlt) hle (hpar2.symm.trans hpar)

/-- The order of the inodes is retained. -/
theorem Retains.ordered (h : Retains b m m') (hm : m.Ordered) : m'.Ordered := by
  intro i j ino' hi' hpar
  by_cases hnew : m.inos.length ≤ i
  · exact h.added i j ino' hi' hnew hpar
  · have hlt := Nat.not_le.mp hnew
    obtain ⟨ino2, hi2, hpar2, -⟩ := h.kept i m.inos[i] (List.getElem?_eq_getElem hlt)
    rw [hi'] at hi2
    cases hi2
    exact hm i j _ (List.getElem?_eq_getElem hlt) (hpar2.symm.trans hpar)

/-- An open inode is given another block. -/
theorem Retains.put {fs' : Shfs} {blk' : Block} {r : Except Sherr Unit} (hi : m.inos[i]? = some ino)
    (hname : blk'.name = ino.blk.name) (hsalt : blk'.salt = ino.blk.salt)
    (htype : blk'.type = ino.blk.type)
    (hformat : i < b → blk'.format = ino.blk.format) :
    Retains b m (m.put i ino (fs', blk', r)) := by
  have hlt := (List.getElem?_eq_some_iff.mp hi).1
  refine ⟨fun j a ha => ?_, fun j k a ha hle => ?_⟩
  · by_cases hj : j = i
    · subst hj
      cases hi.symm.trans ha
      exact ⟨{ ino with blk := blk' }, List.getElem?_set_self hlt, rfl, hname, hsalt,
        htype, hformat⟩
    · exact ⟨a, (List.getElem?_set_ne (Ne.symm hj)).trans ha, rfl, rfl, rfl, rfl, fun _ => rfl⟩
  · have hlen := (List.getElem?_eq_some_iff.mp ha).1
    rw [Mount.put, List.length_set] at hlen
    omega

/-- An inode is opened below another one. -/
theorem Retains.concat {fs' : Shfs} {blk : Block} (hi : m.inos[i]? = some ino) :
    Retains b m { fs := fs', inos := m.inos ++ [{ blk := blk, parent := some i }] } := by
  have hlt := (List.getElem?_eq_some_iff.mp hi).1
  refine ⟨fun j a ha => ⟨a, ?_, rfl, rfl, rfl, rfl, fun _ => rfl⟩, fun j k a ha hle hpar => ?_⟩
  · exact (List.getElem?_append_left (List.getElem?_eq_some_iff.mp ha).1).trans ha
  · rcases getElem?_concat_cases ha with hold | ⟨rfl, rfl⟩
    · exact absurd (List.getElem?_eq_some_iff.mp hold).1 (Nat.not_lt.mpr hle)
    · cases hpar
      exact hlt

/-- An inode that is found is found again. -/
theorem Retains.findChild {key : ShKey} {n : Nat} (h : Retains b m m')
    (hfind : findChild m i key = some n) :
    Fs.findChild m' i key = some n := by
  obtain ⟨hlt, hn, hbefore⟩ := List.findIdx?_eq_some_iff_getElem.mp hfind
  obtain ⟨a, ha, hpar, hname, -⟩ := h.kept n m.inos[n] (List.getElem?_eq_getElem hlt)
  obtain ⟨hlt', heq⟩ := List.getElem?_eq_some_iff.mp ha
  refine List.findIdx?_eq_some_iff_getElem.mpr ⟨hlt', ?_, fun j hj => ?_⟩
  · rw [heq, hpar, hname]
    exact hn
  · have hjlt : j < m.inos.length := hj.trans hlt
    obtain ⟨a', ha', hpar', hname', -⟩ := h.kept j m.inos[j] (List.getElem?_eq_getElem hjlt)
    obtain ⟨hjlt', heq'⟩ := List.getElem?_eq_some_iff.mp ha'
    rw [heq', hpar', hname']
    exact hbefore j hj

/-! ## Lookups -/

/-- What is found has the name. -/
theorem linkFindLoop_name {key : ShKey} {fs : Shfs} {blk : Block} : ∀ {fuel : Nat} {idx : Idx},
    linkFindLoop key fuel fs idx = some (.ok blk) → blk.name = key := by
  intro fuel
  induction fuel with
  | zero =>
    intro idx h
    cases h
  | succ fuel ih =>
    intro idx h
    unfold linkFindLoop at h
    split at h
    · cases h
    split at h
    · cases h
    split at h
    · cases h
    split at h
    · next hname =>
      cases h
      exact hname
    · exact ih h

/-- What a lookup has led to is open below the inode it began with. -/
theorem Retains.inode {acc : Access} {n : Option Nat}
    (hrun : shfsInode env fuel m i name mode acc = some (m', n)) :
    Retains b m m' ∧ ∀ k, n = some k → ∃ ino', m'.inos[i]? = some ino' ∧
      Fs.findChild m' i (childKey env ino'.blk name mode) = some k := by
  rcases shfsInode_cases hrun with ⟨hsame, hfind⟩ | ⟨ino, hi, hnone, -, hn, ⟨blk, hfind, hres⟩ |
    ⟨inode, fs', pblk, blk, -, -, hname, -, hlink, hres⟩⟩ | ⟨ino, inode, fs', pblk, blk, err, hi, -,
      -, hlink, hres⟩
  · obtain rfl : m' = m := hsame
    exact ⟨.refl b m', hfind⟩
  · obtain rfl : m' = { m with inos := m.inos ++ [{ blk := blk, parent := some i }] } := hres
    obtain rfl : n = some m.inos.length := hn
    refine ⟨.concat hi, fun k hk => ?_⟩
    cases hk
    refine ⟨ino, (List.getElem?_append_left (List.getElem?_eq_some_iff.mp hi).1).trans hi, ?_⟩
    exact findChild_concat hnone rfl (linkFindLoop_name hfind)
  · obtain ⟨⟨fpos, mtime, hpblk⟩, npos, pos, ctime, mtime', crc, hblk⟩ := linkNew_eq hlink
    have hput : Retains b m (m.put i ino (fs', pblk, .ok ())) :=
      .put hi (by rw [hpblk]) (by rw [hpblk]) (by rw [hpblk]) fun _ => by rw [hpblk]
    have hi' : (m.put i ino (fs', pblk, .ok ())).inos[i]? = some { ino with blk := pblk } :=
      List.getElem?_set_self (List.getElem?_eq_some_iff.mp hi).1
    obtain rfl : n = some m.inos.length := hn
    obtain rfl : m' = _ := hres
    refine ⟨hput.trans (.concat hi'), fun k hk => ?_⟩
    cases hk
    have hkey : childKey env pblk name mode = childKey env ino.blk name mode := by
      rw [hpblk, childKey, childKey]
    refine ⟨{ ino with blk := pblk }, ?_, ?_⟩
    · exact (List.getElem?_append_left (List.getElem?_eq_some_iff.mp hi').1).trans hi'
    · -- the new inode is the first one of that name
      have hnone' : Fs.findChild (m.put i ino (fs', pblk, .ok ())) i
          (childKey env ino.blk name mode) = none := by
        rw [findChild_put hi (by rw [hpblk]), hnone]
      have hlen : m.inos.length = (m.put i ino (fs', pblk, .ok ())).inos.length := by
        rw [Mount.put, List.length_set]
      rw [hkey, hlen]
      refine findChild_concat hnone' rfl ?_
      show blk.name = _
      rw [hblk]
      exact hname
  · obtain ⟨⟨fpos, mtime, hpblk⟩, -⟩ := linkNew_eq hlink
    cases hres
    refine ⟨.put hi (by rw [hpblk]) (by rw [hpblk]) (by rw [hpblk]) fun _ =>
      by rw [hpblk], fun k hk => ?_⟩
    cases hk

/-- A name leads to the open inode again. -/
theorem Retains.inode_again {acc acc' : Access} {k : Nat}
    (hrun : shfsInode env fuel m i name mode acc = some (m', some k)) (h : Retains b m' m'') :
    shfsInode env fuel m'' i name mode acc' = some (m'', some k) := by
  obtain ⟨ino, hi, hfind⟩ := (Retains.inode (b := b) hrun).2 k rfl
  obtain ⟨ino', hi', -, hname, hsalt, -⟩ := h.kept i ino hi
  refine shfsInode_open hi' ?_
  rw [show childKey env ino'.blk name mode = childKey env ino.blk name mode by
    rw [childKey, childKey, hname, hsalt]]
  exact h.findChild hfind

/-! ## Paths -/

/-- The names and the types that a path is made of are looked up one below the other. -/
def walkPath (env : Env) (acc : Nat → Access) (fuel : Nat) :
    List (Bytes × Shinode) → Mount → Nat → Option (Mount × Option Nat)
  | [], m, i => some (m, some i)
  | (name, mode) :: steps, m, i =>
    match shfsInode env fuel m i name mode (acc m.inos.length) with
    | none => none
    | some (m, none) => some (m, none)
    | some (m, some n) => walkPath env acc fuel steps m n

/-- The steps of a path in `shfs_file_find`. -/
def pathSteps (path : Bytes) : List (Bytes × Shinode) :=
  let fpath := if path.head? = some 0x2f then path.tail else path
  if fpath = [] ∨ fpath.getLast? = some 0x2f then
    (pathTokens fpath).map fun tok => (tok, .directory)
  else
    let filename := (fpath.reverse.takeWhile (· ≠ 0x2f)).reverse
    ((pathTokens (fpath.take (fpath.length - filename.length))).map fun tok => (tok, .directory)) ++
      [(filename, .file)]

variable {acc : Nat → Access}

/-- A directory is found by walking its path. -/
theorem shfsDirFind_eq_walkPath : ∀ {toks : List Bytes} {m : Mount} {i : Nat},
    shfsDirFind env acc fuel toks m i = walkPath env acc fuel (toks.map fun tok =>
      (tok, .directory)) m i := by
  intro toks
  induction toks with
  | nil => intros; rfl
  | cons tok toks ih =>
    intro m i
    simp only [shfsDirFind, List.map_cons, walkPath]
    rcases shfsInode env fuel m i tok .directory (acc m.inos.length) with _ | ⟨m1, _ | n⟩
    · rfl
    · rfl
    · exact ih

/-- A path is walked up to its last step, and then that. -/
theorem walkPath_concat {step : Bytes × Shinode} :
    ∀ {steps : List (Bytes × Shinode)} {m : Mount}
      {i : Nat}, walkPath env acc fuel (steps ++ [step]) m i =
      match walkPath env acc fuel steps m i with
      | none => none
      | some (m, none) => some (m, none)
      | some (m, some d) => shfsInode env fuel m d step.1 step.2 (acc m.inos.length) := by
  intro steps
  induction steps with
  | nil =>
    intro m i
    simp only [List.nil_append, walkPath]
    split <;> simp_all
  | cons s steps ih =>
    intro m i
    obtain ⟨name, mode⟩ := s
    simp only [List.cons_append, walkPath]
    split
    · rfl
    · rfl
    · exact ih

/-- `shfs_file_find` is a walk. -/
theorem shfsFileFind_eq_walkPath {path : Bytes} (hpath : ¬ (path = [] ∨ pathMax ≤ path.length)) :
    shfsFileFind env acc fuel m path = walkPath env acc fuel (pathSteps path) m 0 := by
  rw [shfsFileFind, if_neg hpath, pathSteps]
  generalize (if path.head? = some 0x2f then path.tail else path) = fpath
  dsimp only
  split
  · exact shfsDirFind_eq_walkPath
  · rewrite [walkPath_concat, shfsDirFind_eq_walkPath]
    rcases walkPath env acc fuel _ m 0 with _ | ⟨m1, _ | d⟩ <;> rfl

/-- A walk retains all that is open. -/
theorem Retains.walkPath :
    ∀ {steps : List (Bytes × Shinode)} {m : Mount} {i : Nat}
      {n : Option Nat}, Fs.walkPath env acc fuel steps m i = some (m', n) → Retains b m m' := by
  intro steps
  induction steps with
  | nil =>
    intro m i n hrun
    cases hrun
    exact .refl b _
  | cons s steps ih =>
    intro m i n hrun
    unfold Fs.walkPath at hrun
    split at hrun
    · cases hrun
    · next hinode =>
      cases hrun
      exact (Retains.inode hinode).1
    · next hinode => exact (Retains.inode hinode).1.trans (ih hrun)

/-- A path that has been looked up leads to the same inode again. -/
theorem walkPath_again {acc' : Nat → Access} {n : Nat} :
    ∀ {steps : List (Bytes × Shinode)} {m : Mount}
      {i : Nat}, walkPath env acc fuel steps m i = some (m', some n) → Retains b m' m'' →
    walkPath env acc' fuel steps m'' i = some (m'', some n) := by
  intro steps
  induction steps with
  | nil =>
    intro m i hrun _
    cases hrun
    rfl
  | cons s steps ih =>
    intro m i hrun h
    unfold walkPath at hrun
    split at hrun
    · cases hrun
    · cases hrun
    next m1 k hinode =>
    rw [walkPath, ((Retains.walkPath hrun).trans h).inode_again hinode]
    exact ih hrun h

/-- A walk keeps the mount sound. -/
theorem Mounted.walkPath :
    ∀ {steps : List (Bytes × Shinode)} {m : Mount} {own : Idx → Idx} {i : Nat}
    {n : Option Nat}, Mounted m own → Fs.walkPath env acc fuel steps m i = some (m', n) →
    ∃ own', Mounted m' own' := by
  intro steps
  induction steps with
  | nil =>
    intro m own i n hm hrun
    cases hrun
    exact ⟨own, hm⟩
  | cons s steps ih =>
    intro m own i n hm hrun
    unfold Fs.walkPath at hrun
    split at hrun
    · cases hrun
    · next hinode =>
      cases hrun
      exact hm.inode hinode
    · next hinode =>
      obtain ⟨own', hm'⟩ := hm.inode hinode
      exact ih hm' hrun

/-! ## Removals -/

variable {σ : Type} {fspec : Bytes → Bool} {cb : Option (ListCb σ)} {f : Nat}

/-- The loop of a listing retains all that is open. -/
theorem Retains.listLoop :
    ∀ {fuel : Nat} {m : Mount} {arg arg' : σ} {idx : Idx} {tot : Nat} {r : Except Sherr Nat},
      Fs.listLoop env acc fspec cb i fuel m arg idx tot = some (m', arg', r) → Retains b m m' := by
  intro fuel
  induction fuel with
  | zero =>
    intro m arg arg' idx tot r hrun
    cases hrun
  | succ fuel ih =>
    intro m arg arg' idx tot r hrun
    unfold Fs.listLoop at hrun
    split at hrun
    · cases hrun
      exact .refl b _
    split at hrun
    · cases hrun
      exact .refl b _
    split at hrun
    · cases hrun
      exact .refl b _
    split at hrun
    · split at hrun
      · exact ih hrun
      · split at hrun
        · cases hrun
        split at hrun
        · cases hrun
        next m1 n hinode =>
        have hstep := (Retains.inode (b := b) hinode).1
        split at hrun
        · cases hrun
        · cases hrun
          exact hstep
        · exact hstep.trans (ih hrun)
    · exact ih hrun

/-- A listing retains all that is open. -/
theorem Retains.listCb {arg arg' : σ} {r : Except Sherr Nat}
    (hrun : shfsListCb env acc fuel m i fspec cb arg = some (m', arg', r)) : Retains b m m' := by
  unfold shfsListCb at hrun
  split at hrun
  · cases hrun
    exact .refl b _
  · split at hrun
    · exact .listLoop hrun
    · cases hrun
      exact .refl b _

/-- A list retains all that is open. -/
theorem Retains.list {r : Except Sherr (Nat × List Dirent)}
    (hrun : shfsList env acc fuel m i = some (m', r)) : Retains b m m' := by
  unfold shfsList at hrun
  split at hrun
  · cases hrun
  · next hcount =>
    cases hrun
    exact .listCb hcount
  next m1 u count hcount =>
  have hstep : Retains b m m1 := .listCb hcount
  split at hrun
  · cases hrun
  · next hlist =>
    cases hrun
    exact hstep.trans (.listCb hlist)
  · next hlist =>
    cases hrun
    exact hstep.trans (.listCb hlist)

/-- A removal leaves the inode, or resets it. -/
theorem shfsInodeClear_eq {fs fs' : Shfs} {blk blk' : Block} {r : Except Sherr Unit}
    (hrun : shfsInodeClear env fuel fs blk = some (fs', blk', r)) :
    blk' = blk ∨ ∃ mtime, blk' = { resetInode blk with mtime := mtime } := by
  unfold shfsInodeClear at hrun
  split at hrun
  · cases hrun
  · cases hrun
    exact .inl rfl
  · exact .inr (shfsInodeWriteBlock_eq (Option.some.inj hrun))

/-- A removal of an inode from a number on retains what comes before. -/
theorem Retains.clear {c : Option Nat} {r : Except Sherr Unit} (hc : ∀ n, c = some n → b ≤ n)
    (hrun : m.clear env fuel c = some (m', r)) : Retains b m m' := by
  obtain _ | n := c
  · cases hrun
    exact .refl b _
  rw [Mount.clear] at hrun
  split at hrun
  · cases hrun
    exact .refl b _
  next child hn =>
  obtain ⟨⟨fs', blk', r'⟩, hclear, heq⟩ := Option.map_eq_some_iff.mp hrun
  cases heq
  have hle := hc n rfl
  rcases shfsInodeClear_eq hclear with rfl | ⟨mtime, rfl⟩
  · exact .put hn rfl rfl rfl fun _ => rfl
  · exact .put hn rfl rfl rfl fun hlt => absurd hlt (Nat.not_lt.mpr hle)

/-- What is opened below an inode has a higher number. -/
theorem Mount.Ordered.child {a : Access} {k : Nat} (h : m.Ordered)
    (hrun : shfsInode env fuel m i name mode a = some (m', some k)) : m'.Ordered ∧ i < k := by
  obtain ⟨hstep, hopen⟩ := Retains.inode (b := 0) hrun
  obtain ⟨ino', -, hfind⟩ := hopen k rfl
  obtain ⟨child, hk, hpar, -⟩ := findChild_some hfind
  exact ⟨hstep.ordered h, hstep.ordered h k i child hk hpar⟩

section Remove

variable {remove : Mount → Nat → Option (Mount × Except Sherr Unit)}
  (ih : ∀ {m m' : Mount} {c : Nat} {r : Except Sherr Unit}, m.Ordered → remove m c = some (m', r) →
    Retains c m m')

include ih

/-- The removal of entries retains what is open up to their directory. -/
theorem Retains.removeEnts : ∀ {ents : List Dirent} {m : Mount} {r : Except Sherr Unit}, m.Ordered →
    Fs.removeEnts env acc fuel f remove ents m = some (m', r) → Retains (f + 1) m m' := by
  intro ents
  induction ents with
  | nil =>
    intro m r _ hrun
    cases hrun
    exact .refl _ _
  | cons ent ents ihents =>
    intro m r h hrun
    unfold Fs.removeEnts at hrun
    split at hrun
    · split at hrun
      · cases hrun
      · cases hrun
      next m1 c hinode =>
      obtain ⟨h1, hlt⟩ := h.child hinode
      have hstep := (Retains.inode (b := f + 1) hinode).1
      split at hrun
      · cases hrun
      · next hremove =>
        cases hrun
        exact hstep.trans ((ih h1 hremove).weaken hlt)
      · next hremove =>
        have hstep2 := hstep.trans ((ih h1 hremove).weaken hlt)
        exact hstep2.trans (ihents (hstep2.ordered h) hrun)
    · split at hrun
      · cases hrun
      next m1 c hinode =>
      have hstep := (Retains.inode (b := f + 1) hinode).1
      split at hrun
      · cases hrun
      next hclear =>
      have hle : ∀ n, c = some n → f + 1 ≤ n := by
        rintro n rfl
        exact (h.child hinode).2
      have hstep2 := hstep.trans (.clear hle hclear)
      exact hstep2.trans (ihents (hstep2.ordered h) hrun)

/-- The removal of a child retains what is open up to its parent. -/
theorem Retains.removeChild {type : Shinode} {r : Except Sherr Unit} (h : m.Ordered)
    (hrun : Fs.removeChild env acc fuel f type remove m = some (m', r)) : Retains (f + 1) m m' := by
  unfold Fs.removeChild at hrun
  split at hrun
  · cases hrun
  · cases hrun
  next m1 c hinode =>
  obtain ⟨h1, hlt⟩ := h.child hinode
  have hstep := (Retains.inode (b := f + 1) hinode).1
  split at hrun
  · cases hrun
  split at hrun
  · exact hstep.trans ((ih h1 hrun).weaken hlt)
  · refine hstep.trans (.clear ?_ hrun)
    rintro n ⟨⟩
    exact hlt

/-- What is removed for a format is below the file. -/
theorem Retains.removeFormat {blk : Block} {r : Except Sherr Unit} (h : m.Ordered)
    (hrun : Fs.removeFormat env acc fuel f blk remove m = some (m', r)) : Retains (f + 1) m m' := by
  unfold Fs.removeFormat at hrun
  dsimp only at hrun
  have hrepository : ∀ {m1 : Mount} {r1 : Except Sherr Unit},
      (if blk.attr &&& shattrVer ≠ 0 then
        match shfsInode env fuel m f [] .repository (acc m.inos.length) with
        | none => none
        | some (_, none) => none
        | some (m, some c) => remove m c
      else some (m, .ok ())) = some (m1, r1) → Retains (f + 1) m m1 := by
    intro m1 r1 hrep
    split at hrep
    · split at hrep
      · cases hrep
      · cases hrep
      · next m2 c hinode =>
        obtain ⟨h2, hlt⟩ := h.child hinode
        exact (Retains.inode hinode).1.trans ((ih h2 hrep).weaken hlt)
    · cases hrep
      exact .refl _ _
  split at hrun
  · cases hrun
  · next hrep =>
    cases hrun
    exact hrepository hrep
  next m1 u hrep =>
  have hstep := hrepository hrep
  split at hrun
  · cases hrun
  next file1 hf1 =>
  generalize (if file1.blk.format = .null ∧
    file1.blk.type = .binary then .aux else file1.blk.format) = fmt at hrun
  split at hrun
  · exact hstep.trans (.removeChild ih (hstep.ordered h) hrun)
  · cases hrun
    exact hstep

end Remove

/-- A removal that succeeds leaves a file without a format, and a directory with the format it had.
-/
theorem Retains.fileRemove :
    ∀ {fuel : Nat} {m m' : Mount} {f : Nat} {r : Except Sherr Unit}, m.Ordered →
    shfsFileRemove env acc fuel m f = some (m', r) → Retains f m m' ∧
      (r = .ok () → ∃ file file', m.inos[f]? = some file ∧ m'.inos[f]? = some file' ∧
        file'.blk.format = if file.blk.type = .directory then file.blk.format else .null) := by
  intro fuel
  induction fuel with
  | zero =>
    intro m m' f r _ hrun
    cases hrun
  | succ fuel ih =>
    intro m m' f r h hrun
    unfold shfsFileRemove at hrun
    split at hrun
    · cases hrun
    next file hf =>
    dsimp only at hrun
    generalize hrest : (ite (file.blk.type.isContainer = true) _ _) = rest at hrun
    have hbelow : ∀ {m1 : Mount} {r1 : Except Sherr Unit}, rest = some (m1, r1) →
        Retains (f + 1) m m1 := by
      intro m1 r1 hrem
      rw [← hrest] at hrem
      split at hrem
      · split at hrem
        · cases hrem
        · next hlist =>
          have hstep : Retains (f + 1) m _ := .list hlist
          exact hstep.trans (.removeFormat (fun ho hr => (ih ho hr).1) (hstep.ordered h) hrem)
        · next hlist =>
          have hstep : Retains (f + 1) m _ := .list hlist
          split at hrem
          · exact hstep.trans (.removeEnts (fun ho hr => (ih ho hr).1) (hstep.ordered h) hrem)
          · cases hrem
      · cases hrem
        exact .refl _ _
    split at hrun
    · cases hrun
    · cases hrun
      exact ⟨(hbelow rfl).weaken (Nat.le_succ f), fun hcon => by cases hcon⟩
    next m1 u =>
    have hstep := hbelow rfl
    obtain ⟨file1, hf1, -, -, -, htype, hformat⟩ := hstep.kept f file hf
    simp only [hf1] at hrun
    split at hrun
    · next hdir =>
      -- a directory is left as it is
      cases hrun
      refine ⟨hstep.weaken (Nat.le_succ f), fun _ => ⟨file, file1, hf, hf1, ?_⟩⟩
      rw [if_pos (htype.symm.trans hdir)]
      exact hformat (Nat.lt_succ_self f)
    · next hfile =>
      have hset : Retains f m1 (m1.setBlk f file1 (removedInode file1.blk)) :=
        .put (r := .ok ()) hf1 rfl rfl rfl fun hlt => absurd hlt (Nat.lt_irrefl f)
      have hf2 : (m1.setBlk f file1 (removedInode file1.blk)).inos[f]? =
          some { file1 with blk := removedInode file1.blk } :=
        List.getElem?_set_self (List.getElem?_eq_some_iff.mp hf1).1
      unfold shfsInodeWriteEntity at hrun
      simp only [hf2] at hrun
      rcases hwrite : shfsInodeWriteBlock env (m1.setBlk f file1 (removedInode file1.blk)).fs
        (removedInode file1.blk) with ⟨fs', blk', r'⟩
      simp only [hwrite, Option.some.injEq, Prod.mk.injEq] at hrun
      obtain ⟨rfl, -⟩ := hrun
      obtain ⟨mtime, rfl⟩ := shfsInodeWriteBlock_eq hwrite
      refine ⟨((hstep.weaken (Nat.le_succ f)).trans hset).trans
        (.put hf2 rfl rfl rfl fun hlt => absurd hlt (Nat.lt_irrefl f)), fun _ => ⟨file, _, hf,
        List.getElem?_set_self (List.getElem?_eq_some_iff.mp hf2).1, ?_⟩⟩
      rw [if_neg fun hdir => hfile (htype.trans hdir)]
      rfl

end Retains

end LibShare.Fs
