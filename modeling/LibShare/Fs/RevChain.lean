import LibShare.Fs.RevHistory

/-!
# libshare — revisions that are read back

What `shfs_rev_cat` returns for each revision of a history of commits.

The tag PREV of a revision holds the key of the one before it. It is resolved in a repository
of the revision's own, where there is an inode of that name without a delta and without a tag:
only the newest revision is ever found (`rev_cat_iff`).
-/

namespace LibShare.Fs

variable {env : RevEnv} {s s' : RevStore} {c : RevCall}

/-! ## Histories -/

/-- A commit: what it met, the content that it saved, and the revision that it returned. -/
structure Commit where
  call : RevCall
  content : Bytes
  rev : Node

/-- Contents that have been committed one after the other, the newest first. -/
inductive Commits (env : RevEnv) : List Commit → RevStore → Prop
  | start : Commits env [] RevStore.fresh
  | step {h : List Commit} {s s' : RevStore} {a : Commit} : Commits env h s →
      shfsRevCommit env a.call { s with content := some a.content } = some (.ok a.rev, s') →
      Commits env (a :: h) s'

/-- The tag BASE names the revision of a commit, and has its content. -/
def Tagged (s : RevStore) (a : Commit) : Prop :=
  ∃ name key, a.rev = .rev .file name ∧ tagKey a.rev = some key ∧
    s.obj .file basePath = { key := key, format := .binary, data := a.content }

/-- What stands in the revision of a commit about the one before it. -/
structure Follows (env : RevEnv) (s : RevStore) (a b : Commit) : Prop where
  delta : env.shdelta a.content b.content = .ok (s.delta a.rev)
  lost : a.call.fault .getPrev ≠ none → shfsRevPrev s a.rev = none
  prev : a.call.fault .getPrev = none →
    ∃ name, b.rev.filename = some name ∧ shfsRevPrev s a.rev = some (.rev a.rev name)

/-- A repository after a history of commits. -/
structure History (env : RevEnv) (h : List Commit) (s : RevStore) : Prop where
  /-- an inode that is no revision of the file has no delta and no tag -/
  untouched : ∀ node, node ∉ h.map Commit.rev → s.delta node = [] ∧ shfsRevPrev s node = none
  first : h = [] → shfsRevBase s = none
  newest : ∀ a ∈ h.head?, Tagged s a
  follows : ∀ a b t, h = a :: b :: t → Follows env s a b

/-- The tag BASE leads to the newest commit. -/
theorem Tagged.base {a : Commit} (h : Tagged s a) : shfsRevBase s = some a.rev := by
  obtain ⟨name, key, hrev, hkey, hobj⟩ := h
  rw [hrev] at hkey
  obtain ⟨hne, hname⟩ := tagKey_rev hkey
  rw [base_of_key (congrArg Obj.key hobj) hne, hname, hrev]

/-- The snapshot is the content of the newest commit. -/
theorem Tagged.read {a : Commit} (h : Tagged s a) :
    shfsRevRefRead s .file basePath = .ok a.content := by
  obtain ⟨name, key, -, -, hobj⟩ := h
  unfold shfsRevRefRead
  rw [hobj]
  exact if_neg (not_not.mpr rfl)

/-- The revision before depends on the tag PREV only. -/
theorem prev_congr {node : Node} (h : s'.obj node prevPath = s.obj node prevPath) :
    shfsRevPrev s' node = shfsRevPrev s node := by
  unfold shfsRevPrev shfsRevRefResolve shfsObjGet
  rw [h]

/-- The tag PREV by its key. -/
theorem prev_of_key {node : Node} {key : ShKey} (hkey : (s.obj node prevPath).key = key)
    (hne : key ≠ ashkeyBlank) : shfsRevPrev s node = some (.rev node (shkeyHex key)) := by
  unfold shfsRevPrev shfsRevRefResolve shfsObjGet shfsRevGet
  rw [hkey, if_neg hne]
  dsimp only
  rw [if_neg hne]

/-! ## A commit that succeeds -/

/-- The state before the tag of the previous revision. -/
theorem commit_ok {rev : Node} (h : shfsRevCommit env c s = some (.ok rev, s')) :
    ∃ work revKey key diff, CommitTags env c s work revKey key diff ∧
      rev = .rev .file (shkeyHex revKey) ∧ tagPrev c rev (shfsRevBase s)
        ((s.putDelta rev diff).save key rev work) = some (.ok (), s') := by
  rcases commit_cases h with ⟨-, hno, -⟩ | ⟨work, revKey, key, diff, htags,
      ⟨hno, -⟩ | ⟨-, -, hok, -⟩⟩
  · exact absurd rfl (hno rev)
  · exact absurd rfl (hno rev)
  · obtain ⟨rfl, hprev⟩ := hok rev rfl
    exact ⟨work, revKey, key, diff, htags, rfl, hprev⟩

theorem prevPath_ne_basePath : prevPath ≠ basePath := by decide

/-- The tag PREV of an inode is not changed by the tag BASE. -/
theorem save_obj_prev (s : RevStore) (key : ShKey) (rev node : Node) (work : Bytes) :
    (s.save key rev work).obj node prevPath = s.obj node prevPath :=
  setObj_other _ (Or.inr prevPath_ne_basePath)

/-- Only the tag PREV of the new revision is set. -/
theorem tagPrev_obj {owner node : Node} {name : RevName} {base : Option Node}
    {r : Except Sherr Unit}
    (h : tagPrev c (.rev owner name) base s = some (r, s')) (hne : node ≠ .rev owner name) :
    s'.obj node prevPath = s.obj node prevPath := by
  obtain ⟨-, -, -, -, ⟨hobj, -⟩ | ⟨b, key, -, -, -, rfl⟩⟩ := tagPrev_cases h
  · rw [hobj]
  · exact setObj_other _ (Or.inl hne)

/-- The deltas of the other revisions are what they were. -/
theorem putDelta_delta {rev node : Node} {diff : Option Bytes} (hne : node ≠ rev) :
    (s.putDelta rev diff).delta node = s.delta node := by
  rcases diff with _ | diff
  · rfl
  · exact Function.update_of_ne hne _ _

theorem putDelta_self (s : RevStore) (rev : Node) (diff : Bytes) :
    (s.putDelta rev (some diff)).delta rev = diff :=
  Function.update_self _ _ _

theorem save_delta (s : RevStore) (key : ShKey) (rev : Node) (work : Bytes) :
    (s.save key rev work).delta = s.delta := rfl

/-- One more commit. -/
theorem history_step {h : List Commit} {a : Commit} (hh : History env h s)
    (hrun : shfsRevCommit env a.call { s with content := some a.content } = some (.ok a.rev, s'))
    (hnew : a.rev ∉ h.map Commit.rev) : History env (a :: h) s' := by
  obtain ⟨work, revKey, key, diff, htags, hrev, hprev⟩ := commit_ok hrun
  obtain ⟨hwork, -, hdelta, -, -, hkey, -⟩ := htags
  cases hwork
  rw [hrev] at hprev
  have hsame := tagPrev_sameBase hprev
  obtain ⟨-, hd, -, -, hcase⟩ := tagPrev_cases hprev
  refine ⟨?_, (fun hnil => nomatch hnil), ?_, ?_⟩
  · -- other inodes are as they were
    intro node hnode
    rw [List.map_cons, List.mem_cons, not_or] at hnode
    obtain ⟨hne, hold⟩ := hnode
    rw [hrev] at hne
    obtain ⟨hdelta, htag⟩ := hh.untouched node hold
    constructor
    · rw [hd]
      exact (putDelta_delta hne).trans hdelta
    · rw [prev_congr ((tagPrev_obj hprev hne).trans (save_obj_prev _ _ _ _ _)), ← htag]
      exact prev_congr (by rw [putDelta_obj])
  · intro a' ha'
    cases ha'
    refine ⟨shkeyHex revKey, key, hrev, ?_, ?_⟩
    · rw [hrev]
      exact hkey
    · rw [hsame.obj]
      exact setObj_self _ _ _ _
  · intro a' b t heq
    cases heq
    obtain ⟨nameB, keyB, hrevB, hkeyB, -⟩ := hh.newest b rfl
    have hbase := (hh.newest b rfl).base
    have hread := (hh.newest b rfl).read
    -- the delta is made from the content of the revision before
    have hbase' : shfsRevBase { s with content := some a.content } = some b.rev := hbase
    unfold CommitDelta at hdelta
    rw [hbase'] at hdelta
    obtain ⟨-, -, head, d, hhead, -, hd', rfl⟩ := hdelta
    cases hread.symm.trans hhead
    obtain ⟨-, htag⟩ := hh.untouched a.rev hnew
    refine ⟨?_, ?_, ?_⟩
    · rw [hd', hd, hrev, save_delta, putDelta_self]
    · intro hfault
      rcases hcase with ⟨hobj, -⟩ | ⟨b', key', -, -, hnone, -⟩
      · rw [← htag]
        refine prev_congr ?_
        rw [hobj, save_obj_prev, putDelta_obj]
      · exact absurd hnone hfault
    · intro hfault
      refine ⟨nameB, by rw [hrevB]; rfl, ?_⟩
      rw [hbase'] at hcase
      rcases hcase with ⟨-, hno⟩ | ⟨b', key', hb', hkey', -, rfl⟩
      · rcases hno b.rev rfl with hnone | hfault'
        · rw [hkeyB] at hnone
          cases hnone
        · exact absurd hfault hfault'
      · cases hb'
        rw [hrevB] at hkey'
        obtain ⟨hne, hname⟩ := tagKey_rev hkey'
        rw [hrev, prev_of_key (congrArg Obj.key (setObj_self _ _ _ _)) hne, hname]

/-- A history of commits whose revisions are different inodes. -/
theorem commits_history {h : List Commit} (hrun : Commits env h s)
    (hnodup : (h.map Commit.rev).Nodup) : History env h s := by
  induction hrun with
  | start =>
    exact ⟨fun node _ => ⟨rfl, rfl⟩, fun _ => rfl, (fun a ha => nomatch ha),
      (fun a b t heq => nomatch heq)⟩
  | step _ hcommit ih =>
    rw [List.map_cons, List.nodup_cons] at hnodup
    exact history_step (ih hnodup.2) hcommit hnodup.1

/-! ## Reading back -/

/-- Passes that are not needed do not matter. -/
theorem readLoop_mono {iRev : Node} {fuel : Nat} {rev : Option Node} {head : Bytes}
    {status : Except Sherr Unit} {r : Except Sherr Bytes}
    (h : shfsRevReadLoop env s iRev fuel rev head status = some r) :
    shfsRevReadLoop env s iRev (fuel + 1) rev head status = some r := by
  induction fuel generalizing rev head status with
  | zero => cases h
  | succ fuel ih =>
    rcases rev with _ | rev
    · exact h
    · unfold shfsRevReadLoop at h ⊢
      split at h
      · next htoken =>
        rw [if_pos htoken]
        exact h
      · next htoken =>
        rw [if_neg htoken]
        split at h
        · exact h
        · exact ih h

/-- More passes do no harm to the loop. -/
theorem readLoop_le {iRev : Node} {fuel fuel' : Nat} {rev : Option Node} {head : Bytes}
    {status : Except Sherr Unit} {r : Except Sherr Bytes} (hle : fuel ≤ fuel')
    (h : shfsRevReadLoop env s iRev fuel rev head status = some r) :
    shfsRevReadLoop env s iRev fuel' rev head status = some r := by
  induction hle with
  | refl => exact h
  | step _ ih => exact readLoop_mono ih

/-- More passes do no harm to a read. -/
theorem revRead_le {fuel fuel' : Nat} {rev : Node} {r : Except Sherr Bytes} (hle : fuel ≤ fuel')
    (h : shfsRevRead env fuel s rev = some r) : shfsRevRead env fuel' s rev = some r := by
  unfold shfsRevRead at h ⊢
  split at h
  · exact h
  · exact readLoop_le hle h

/-- More passes do no harm. -/
theorem cat_le {fuel fuel' : Nat} {key : Option ShKey} {r : Except Sherr Bytes} (hle : fuel ≤ fuel')
    (h : shfsRevCat env fuel s key = some r) : shfsRevCat env fuel' s key = some r := by
  unfold shfsRevCat at h ⊢
  rcases key with _ | key
  · dsimp only at h ⊢
    split at h
    · exact h
    · exact revRead_le hle h
  · dsimp only at h ⊢
    split at h
    · exact h
    · exact revRead_le hle h

/-- What `shfs_rev_cat` returns does not depend on the number of passes. -/
theorem cat_unique {fuel fuel' : Nat} {key : Option ShKey} {r r' : Except Sherr Bytes}
    (h : shfsRevCat env fuel s key = some r) (h' : shfsRevCat env fuel' s key = some r') :
    r = r' := by
  have h1 := cat_le (Nat.le_max_left fuel fuel') h
  have h2 := cat_le (Nat.le_max_right fuel fuel') h'
  exact Option.some.inj (h1.symm.trans h2)

/-- With any number of passes the result is the same. -/
theorem cat_exists_iff {fuel : Nat} {key : Option ShKey} {r r' : Except Sherr Bytes}
    (h : shfsRevCat env fuel s key = some r) :
    (∃ fuel', shfsRevCat env fuel' s key = some r') ↔ r = r' := by
  constructor
  · rintro ⟨fuel', h'⟩
    exact cat_unique h h'
  · rintro rfl
    exact ⟨fuel, h⟩

/-- `shfs_rev_cat` of a revision starts at the newest one. -/
theorem cat_run {a : Commit} {rev : Node} {key : ShKey} {fuel : Nat} (htag : Tagged s a)
    (hkey : shfsRevGet .file key = some rev) :
    shfsRevCat env fuel s (some key) =
      shfsRevReadLoop env s rev fuel (some a.rev) a.content (.error .noent) := by
  unfold shfsRevCat shfsRevRead
  dsimp only
  rw [hkey]
  dsimp only
  rw [htag.read, htag.base]

/-- What is returned for each of the earlier revisions. -/
def lostRead (env : RevEnv) (a b : Commit) : Except Sherr Bytes :=
  if a.call.fault .getPrev = none then (env.shpatch b.content []).map fun _ => [] else .ok []

/-- The loop goes from the newest revision to an inode that is none, and ends there. -/
theorem readLoop_lost {a b : Commit} {iRev : Node} (hf : Follows env s a b)
    (hpatch : env.shpatch a.content (s.delta a.rev) = .ok b.content)
    (htoken : env.token a.rev ≠ env.token iRev)
    (hnested : ∀ name, b.rev.filename = some name → env.token (.rev a.rev name) ≠ env.token iRev)
    (hempty : ∀ name, s.delta (.rev a.rev name) = [] ∧ shfsRevPrev s (.rev a.rev name) = none) :
    shfsRevReadLoop env s iRev 3 (some a.rev) a.content (.error .noent) =
      some (lostRead env a b) := by
  unfold shfsRevReadLoop
  rw [if_neg htoken, hpatch]
  dsimp only
  unfold lostRead
  by_cases hfault : a.call.fault .getPrev = none
  · obtain ⟨name, hname, hprev⟩ := hf.prev hfault
    obtain ⟨hdelta, hnone⟩ := hempty name
    rw [if_pos hfault, hprev]
    unfold shfsRevReadLoop
    rw [if_neg (hnested name hname), hdelta]
    rcases env.shpatch b.content [] with err | out
    · rfl
    · dsimp only
      rw [hnone]
      rfl
  · rw [if_neg hfault, hf.lost hfault]
    rfl

/-- The tokens of the revisions, and of the inode that PREV leads to from the newest one,
are different. -/
structure DistinctTokens (env : RevEnv) (a : Commit) (h : List Commit) : Prop where
  revs : ((a :: h).map fun e => env.token e.rev).Nodup
  nested : ∀ b ∈ h.head?, ∀ name, b.rev.filename = some name → ∀ e ∈ a :: h,
    env.token (.rev a.rev name) ≠ env.token e.rev

/-- The revisions of a history are distinct. -/
theorem DistinctTokens.nodup {a : Commit} {h : List Commit} (hd : DistinctTokens env a h) :
    ((a :: h).map Commit.rev).Nodup := by
  have hmap : (a :: h).map (fun e =>
    env.token e.rev) = ((a :: h).map Commit.rev).map env.token := by
    rw [List.map_map]
    rfl
  have hrevs := hd.revs
  rw [hmap] at hrevs
  exact hrevs.of_map

/-- A revision of a file is in the file's own repository. -/
theorem Commits.rev_file {h : List Commit} (hrun : Commits env h s) :
    ∀ e ∈ h, ∃ name, e.rev = .rev .file name := by
  induction hrun with
  | start => exact fun e he => nomatch he
  | step _ hcommit ih =>
    rw [List.forall_mem_cons]
    obtain ⟨work, revKey, key, diff, -, hrev, -⟩ := commit_ok hcommit
    exact ⟨⟨_, hrev⟩, ih⟩

/-- After a history of commits a revision can be read back just when it is the newest one, or
when its content is empty and the inode that PREV leads to does not get in the way. -/
theorem rev_cat_iff {a e : Commit} {h : List Commit} {key : ShKey}
    (hpatch : ∀ work head diff, env.shdelta work head = .ok diff → env.shpatch work diff = .ok head)
    (hrun : Commits env (a :: h) s) (htokens : DistinctTokens env a h) (he : e ∈ a :: h)
    (hkey : shfsRevGet .file key = some e.rev) :
    (∃ fuel, shfsRevCat env fuel s (some key) = some (.ok e.content)) ↔
      e = a ∨ (e.content = [] ∧ ∃ b ∈ h.head?,
        (a.call.fault .getPrev = none → ∃ out, env.shpatch b.content [] = .ok out)) := by
  have hhist := commits_history hrun htokens.nodup
  have htag := hhist.newest a rfl
  rcases List.mem_cons.mp he with rfl | hold
  · refine iff_of_true ⟨1, ?_⟩ (Or.inl rfl)
    rw [cat_run htag hkey]
    exact if_pos rfl
  · obtain ⟨b, t, rfl⟩ := List.exists_cons_of_ne_nil (List.ne_nil_of_mem hold)
    have hne : env.token a.rev ≠ env.token e.rev := by
      intro heq
      have hrevs := htokens.revs
      rw [List.map_cons, List.nodup_cons] at hrevs
      exact hrevs.1 (heq ▸ List.mem_map_of_mem hold)
    have hf := hhist.follows a b t rfl
    have hempty : ∀ name, s.delta (.rev a.rev name) = [] ∧
        shfsRevPrev s (.rev a.rev name) = none := by
      intro name
      refine hhist.untouched _ ?_
      intro hmem
      obtain ⟨e', he', hrev'⟩ := List.mem_map.mp hmem
      -- the inode is below a revision, and not below the file
      obtain ⟨name', hname'⟩ := hrun.rev_file e' he'
      obtain ⟨name'', hname''⟩ := hrun.rev_file a List.mem_cons_self
      rw [hname', hname''] at hrev'
      cases hrev'
    have hloop := readLoop_lost hf (hpatch _ _ _ hf.delta) hne
      (fun name hname => htokens.nested b rfl name hname e he) hempty
    rw [← cat_run htag hkey] at hloop
    rw [cat_exists_iff hloop]
    have hea : e ≠ a := fun heq => hne (by rw [heq])
    unfold lostRead
    by_cases hfault : a.call.fault .getPrev = none
    · rw [if_pos hfault]
      rcases hout : env.shpatch b.content [] with err | out
      · refine iff_of_false (fun hok => nomatch hok) ?_
        rintro (heq | ⟨-, b', hb', hok⟩)
        · exact hea heq
        · cases hb'
          obtain ⟨out, hout'⟩ := hok hfault
          cases hout.symm.trans hout'
      · constructor
        · intro hok
          exact Or.inr ⟨(Except.ok.inj hok).symm, b, rfl, fun _ => ⟨out, hout⟩⟩
        · rintro (heq | ⟨hnil, -⟩)
          · exact absurd heq hea
          · rw [hnil]
            rfl
    · rw [if_neg hfault]
      constructor
      · intro hok
        exact Or.inr ⟨(Except.ok.inj hok).symm, b, rfl, fun hnone => absurd hnone hfault⟩
      · rintro (heq | ⟨hnil, -⟩)
        · exact absurd heq hea
        · rw [hnil]

/-- The revision of a key. -/
def keyRev (key : ShKey) : Node := .rev .file (shkeyHex key)

/-- Two contents that have been committed. -/
theorem commits_two : ∃ s,
    let r1 := keyRev quietCall.uniq
    let r2 := keyRev (wholeEnv.token r1)
    Commits wholeEnv [⟨quietCall, [2], r2⟩, ⟨quietCall, [1], r1⟩] s ∧
    DistinctTokens wholeEnv ⟨quietCall, [2], r2⟩ [⟨quietCall, [1], r1⟩] ∧
    shfsRevCat wholeEnv 3 s (some quietCall.uniq) = some (.ok []) := by
  have hfirst : Commits wholeEnv [⟨quietCall, [1], keyRev quietCall.uniq⟩] _ :=
    .step .start rfl
  have hrun : Commits wholeEnv
      (⟨quietCall, [2], keyRev (wholeEnv.token (keyRev quietCall.uniq))⟩ :: _) _ :=
    .step hfirst rfl
  refine ⟨_, hrun, ⟨by decide, ?_⟩, rfl⟩
  intro b hb name hname e he
  cases hb
  cases hname
  rcases List.mem_cons.mp he with rfl | he
  · decide
  · cases List.mem_singleton.mp he
    decide

/-- The newest of two revisions is found. -/
theorem rev_cat_newest : ∃ s,
    let r1 := keyRev quietCall.uniq
    let r2 := keyRev (wholeEnv.token r1)
    Commits wholeEnv [⟨quietCall, [2], r2⟩, ⟨quietCall, [1], r1⟩] s ∧
    ∃ fuel, shfsRevCat wholeEnv fuel s (some (wholeEnv.token r1)) = some (.ok [2]) := by
  obtain ⟨s, hrun, htokens, -⟩ := commits_two
  refine ⟨s, hrun, (rev_cat_iff ?_ hrun htokens List.mem_cons_self rfl).mpr (Or.inl rfl)⟩
  rintro work head diff hdelta
  cases hdelta
  rfl

/-- The first of two revisions is not: `shfs_rev_cat` succeeds, without any content. -/
theorem first_revision_lost : ∃ a b s key, Commits wholeEnv [a, b] s ∧
    (∀ work head diff, wholeEnv.shdelta work head = .ok diff →
      wholeEnv.shpatch work diff = .ok head) ∧
    shfsRevGet .file key = some b.rev ∧
    ¬ ∃ fuel, shfsRevCat wholeEnv fuel s (some key) = some (.ok b.content) := by
  obtain ⟨s, hrun, -, hcat⟩ := commits_two
  refine ⟨_, _, s, quietCall.uniq, hrun, ?_, rfl, ?_⟩
  · rintro work head diff hdelta
    cases hdelta
    rfl
  · rw [cat_exists_iff hcat]
    exact fun hok => nomatch hok

end LibShare.Fs
