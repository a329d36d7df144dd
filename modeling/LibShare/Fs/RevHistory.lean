import LibShare.Fs.Rev

/-!
# libshare — the history of a file

Whether the tag BASE and its snapshot agree, over every run of operations on a
repository.

`shfs_rev_switch` and `shfs_rev_checkout` move the tag and leave the object in the format of
a key, so that its snapshot cannot be read any more, and with it nothing can be
committed or read back (`base_agrees_iff`).
-/

namespace LibShare.Fs

variable {env : RevEnv} {s s' : RevStore} {c : RevCall}

/-! ## References -/

/-- The key that a tag takes from a revision. -/
def tagKey (rev : Node) : Option ShKey :=
  match rev.filename.bind shkeyHexgen with
  | none => none
  | some key => if key = ashkeyBlank then none else some key

/-- A key that has been taken from a revision leads back to it. -/
theorem tagKey_rev {owner : Node} {name : RevName} {key : ShKey}
    (h : tagKey (.rev owner name) = some key) :
    key ≠ ashkeyBlank ∧ shkeyHex key = name := by
  unfold tagKey at h
  obtain ⟨short, code⟩ := name
  rcases short with _ | _
  · dsimp only [Node.filename, Option.bind_some, shkeyHexgen] at h
    split at h
    · next hnone => cases hnone
    · next key' hkey =>
      cases hkey
      split at h
      · cases h
      · next hblank =>
        cases h
        exact ⟨hblank, if_neg (show ¬ (0 : UInt16) = shalgEcdsa160r by decide)⟩
  · cases h

/-- What a reference does: nothing, or it sets the key of the object. -/
theorem revRef_cases {get write : Option Sherr} {owner rev : Node} {path : Bytes}
    {r : Except Sherr Unit}
    (h : shfsRevRef get write owner path rev s = some (r, s')) :
    (s' = s ∧ (tagKey rev = none ∨ get ≠ none) ∧ r ≠ .ok ()) ∨
    ∃ key, tagKey rev = some key ∧ get = none ∧ (r = .ok () ↔ write = none) ∧
      s' = s.setObj owner path { s.obj owner path with key := key, format := .object } := by
  unfold shfsRevRef at h
  unfold tagKey
  rcases hname : rev.filename with _ | name
  · rw [hname] at h
    cases h
    exact Or.inl ⟨rfl, Or.inl rfl, fun hr => nomatch hr⟩
  · rw [hname] at h
    dsimp only [Option.bind_some] at h ⊢
    rcases hkey : shkeyHexgen name with _ | key
    · rw [hkey] at h
      cases h
      exact Or.inl ⟨rfl, Or.inl rfl, fun hr => nomatch hr⟩
    · rw [hkey] at h
      dsimp only at h ⊢
      split at h
      · next hblank =>
        cases h
        exact Or.inl ⟨rfl, Or.inl (if_pos hblank), fun hr => nomatch hr⟩
      · next hblank =>
        rw [if_neg hblank]
        rcases get with _ | err
        · right
          refine ⟨key, rfl, rfl, ?_⟩
          rcases write with _ | err
          · cases h
            exact ⟨iff_of_true rfl rfl, rfl⟩
          · cases h
            exact ⟨iff_of_false (fun hr => nomatch hr) (fun hw => nomatch hw), rfl⟩
        · cases h
          exact Or.inl ⟨rfl, Or.inr (fun hg => nomatch hg), fun hr => nomatch hr⟩

/-- An object that has been set is read back. -/
theorem setObj_self (s : RevStore) (owner : Node) (path : Bytes) (o : Obj) :
    (s.setObj owner path o).obj owner path = o := by
  unfold RevStore.setObj
  dsimp only
  rw [Function.update_self, Function.update_self]

/-- The other objects are as they were. -/
theorem setObj_other {owner owner' : Node} {path path' : Bytes} (o : Obj)
    (h : owner' ≠ owner ∨ path' ≠ path) :
    (s.setObj owner path o).obj owner' path' = s.obj owner' path' := by
  unfold RevStore.setObj
  dsimp only
  by_cases howner : owner' = owner
  · subst howner
    rw [Function.update_self, Function.update_of_ne (h.resolve_left (not_not.mpr rfl))]
  · rw [Function.update_of_ne howner]

/-- The tag BASE by its key. -/
theorem base_of_key {key : ShKey} (hkey : (s.obj .file basePath).key = key)
    (hne : key ≠ ashkeyBlank) :
    shfsRevBase s = some (.rev .file (shkeyHex key)) := by
  unfold shfsRevBase shfsRevRefResolve shfsObjGet shfsRevGet
  rw [hkey, if_neg hne]
  dsimp only
  rw [if_neg hne]

/-- The base is found by the tag BASE alone. -/
theorem base_congr (h : s'.obj .file basePath = s.obj .file basePath) :
    shfsRevBase s' = shfsRevBase s := by
  unfold shfsRevBase shfsRevRefResolve shfsObjGet
  rw [h]

/-! ## Agreement of the tag and its snapshot -/

/-- The snapshot of BASE can be read, and it is the content of the revision that the
tag names. -/
def Agrees (s : RevStore) : Prop :=
  ∃ rev data, shfsRevBase s = some rev ∧ s.saved rev = some data ∧
    shfsRevRefRead s .file basePath = .ok data

/-- There is a tag, and its snapshot cannot be read. -/
def Broken (s : RevStore) : Prop :=
  shfsRevBase s ≠ none ∧ (s.obj .file basePath).format ≠ .binary

/-- A broken history does not agree. -/
theorem Broken.not_agrees (h : Broken s) : ¬ Agrees s := by
  rintro ⟨rev, data, -, -, hread⟩
  unfold shfsRevRefRead at hread
  rw [if_pos h.2] at hread
  cases hread

/-- What the tag and the contents of revisions depend on is unchanged. -/
structure SameBase (s s' : RevStore) : Prop where
  obj : s'.obj .file basePath = s.obj .file basePath
  saved : s'.saved = s.saved

/-- The tag and its snapshot agree still if neither has changed. -/
theorem SameBase.agrees (h : SameBase s s') (ha : Agrees s) : Agrees s' := by
  obtain ⟨rev, data, hbase, hsaved, hread⟩ := ha
  refine ⟨rev, data, (base_congr h.obj).trans hbase, ?_, ?_⟩
  · rw [h.saved]
    exact hsaved
  · unfold shfsRevRefRead at hread ⊢
    rw [h.obj]
    exact hread

/-- What is broken stays so if neither has changed. -/
theorem SameBase.broken (h : SameBase s s') (hb : Broken s) : Broken s' :=
  ⟨by rw [base_congr h.obj]; exact hb.1, by rw [h.obj]; exact hb.2⟩

/-- The tag has been set and no snapshot been taken. -/
theorem broken_of_setObj {key : ShKey} (hne : key ≠ ashkeyBlank)
    (h : s'.obj .file basePath = { s.obj .file basePath with key := key, format := .object }) :
    Broken s' := by
  refine ⟨?_, ?_⟩
  · rw [base_of_key (congrArg Obj.key h) hne]
    exact Option.some_ne_none _
  · rw [h]
    exact fun hf => nomatch hf

/-! ## What a commit does -/

theorem reads_failIf (fault : Option Sherr) : Prog.Reads (failIf fault) := by
  rcases fault with _ | err
  · exact Prog.reads_pure ()
  · exact Prog.reads_fail err

/-- A call that may fail succeeds just when it has no fault. -/
theorem failIf_ok_iff {fault : Option Sherr} {u : Unit} :
    failIf fault s = some (.ok u, s') ↔ s' = s ∧ fault = none := by
  rcases fault with _ | err
  · constructor
    · intro h
      cases h
      exact ⟨rfl, rfl⟩
    · rintro ⟨rfl, -⟩
      rfl
  · exact iff_of_false (fun h => nomatch h) (fun h => nomatch h.2)

theorem reads_liftStatus {α : Type} (r : Except Sherr α) : Prog.Reads (liftStatus r) := by
  rcases r with err | a
  · exact Prog.reads_fail err
  · exact Prog.reads_pure a

/-- A status is passed on. -/
theorem liftStatus_ok_iff {α : Type} {r : Except Sherr α} {a : α} :
    liftStatus r s = some (.ok a, s') ↔ s' = s ∧ r = .ok a := by
  rcases r with err | b
  · exact iff_of_false (fun h => nomatch h) (fun h => nomatch h.2)
  · constructor
    · intro h
      cases h
      exact ⟨rfl, rfl⟩
    · rintro ⟨rfl, hr⟩
      cases hr
      rfl

theorem reads_readWork : Prog.Reads (readWork c) := by
  refine (Prog.reads_read _).bind ?_
  rintro (_ | work)
  · exact Prog.reads_fail _
  · exact (reads_failIf _).bind fun _ => Prog.reads_pure work

/-- The content of the file is read, if it has one and no fault occurs. -/
theorem readWork_ok_iff {work : Bytes} : readWork c s = some (.ok work, s') ↔
    s' = s ∧ s.content = some work ∧ c.fault .readFile = none := by
  unfold readWork
  rw [Prog.bind_ok (Prog.read_run _ _)]
  rcases s.content with _ | work'
  · exact iff_of_false (fun h => nomatch h) (fun h => nomatch h.2.1)
  · rcases c.fault .readFile with _ | err
    · constructor
      · intro h
        cases h
        exact ⟨rfl, rfl, rfl⟩
      · rintro ⟨rfl, hwork, -⟩
        cases hwork
        rfl
    · exact iff_of_false (fun h => nomatch h) (fun h => nomatch h.2.2)

theorem reads_readBase : Prog.Reads (readBase c) :=
  (reads_failIf _).bind fun _ => (Prog.reads_read _).bind fun _ => reads_liftStatus _

/-- The snapshot is read, if it can be and no fault occurs. -/
theorem readBase_ok_iff {head : Bytes} : readBase c s = some (.ok head, s') ↔
    s' = s ∧ c.fault .readBase = none ∧ shfsRevRefRead s .file basePath = .ok head := by
  unfold readBase
  rcases c.fault .readBase with _ | err
  · rw [Prog.bind_ok (a := ()) (failIf_ok_iff.mpr ⟨rfl, rfl⟩), Prog.bind_ok (Prog.read_run _ _),
      liftStatus_ok_iff]
    simp
  · exact iff_of_false (fun h => nomatch h) (fun h => nomatch h.2.1)

theorem reads_commitDelta {work : Bytes} {base : Option Node} :
    Prog.Reads (commitDelta env c work base) := by
  rcases base with _ | base
  · exact Prog.reads_pure _
  · refine reads_readBase.bind fun head => ?_
    split
    · exact Prog.reads_fail _
    · exact (reads_liftStatus _).bind fun _ => Prog.reads_pure _

/-- The revision that a commit is to make: its key and its delta. -/
def CommitDelta (env : RevEnv) (c : RevCall) (s : RevStore) (work : Bytes) (revKey : ShKey)
    (diff : Option Bytes) : Prop :=
  match shfsRevBase s with
  | none => revKey = c.uniq ∧ diff = none
  | some base => revKey = env.token base ∧ c.fault .readBase = none ∧
      ∃ head d, shfsRevRefRead s .file basePath = .ok head ∧ work ≠ head ∧
        env.shdelta work head = .ok d ∧ diff = some d

/-- The name and the delta of a commit, as they are computed. -/
theorem commitDelta_ok_iff {work : Bytes} {revKey : ShKey} {diff : Option Bytes} :
    commitDelta env c work (shfsRevBase s) s = some (.ok (revKey, diff), s') ↔
      s' = s ∧ CommitDelta env c s work revKey diff := by
  unfold CommitDelta
  rcases shfsRevBase s with _ | base
  · constructor
    · intro h
      cases h
      exact ⟨rfl, rfl, rfl⟩
    · rintro ⟨rfl, rfl, rfl⟩
      rfl
  · constructor
    · intro h
      rcases Prog.bind_inv h with ⟨e, -, he⟩ | ⟨head, s1, hread, hrest⟩
      · cases he
      · obtain ⟨rfl, hfault, hhead⟩ := readBase_ok_iff.mp hread
        split at hrest
        · cases hrest
        · next hne =>
          rcases Prog.bind_inv hrest with ⟨e, -, he⟩ | ⟨d, s2, hlift, hend⟩
          · cases he
          · obtain ⟨rfl, hdelta⟩ := liftStatus_ok_iff.mp hlift
            cases hend
            exact ⟨rfl, rfl, hfault, head, d, hhead, hne, hdelta, rfl⟩
    · rintro ⟨rfl, rfl, hfault, head, d, hhead, hne, hdelta, rfl⟩
      refine (Prog.bind_ok (readBase_ok_iff.mpr ⟨rfl, hfault, hhead⟩)).trans ?_
      rw [if_neg hne]
      exact Prog.bind_ok (liftStatus_ok_iff.mpr ⟨rfl, hdelta⟩)

/-- The delta of a revision is written. -/
def RevStore.putDelta (s : RevStore) (rev : Node) : Option Bytes → RevStore
  | none => s
  | some diff => { s with delta := Function.update s.delta rev diff }

/-- A delta is no object. -/
@[simp] theorem putDelta_obj (s : RevStore) (rev : Node) (diff : Option Bytes) :
    (s.putDelta rev diff).obj = s.obj := by
  rcases diff with _ | diff <;> rfl

@[simp] theorem putDelta_saved (s : RevStore) (rev : Node) (diff : Option Bytes) :
    (s.putDelta rev diff).saved = s.saved := by
  rcases diff with _ | diff <;> rfl

/-- A delta is written, or nothing is. -/
theorem deltaWrite_cases {rev : Node} {diff : Option Bytes} {r : Except Sherr Unit}
    (h : shfsRevDeltaWrite c rev diff s = some (r, s')) :
    (s' = s ∧ r ≠ .ok () ∧ diff ≠ none ∧ c.fault .writeDelta ≠ none) ∨
    (s' = s.putDelta rev diff ∧ r = .ok () ∧ (diff ≠ none → c.fault .writeDelta = none)) := by
  rcases diff with _ | diff
  · cases h
    exact Or.inr ⟨rfl, rfl, fun h => absurd rfl h⟩
  · unfold shfsRevDeltaWrite at h
    rcases hfault : c.fault .writeDelta with _ | err
    · rw [hfault] at h
      cases h
      exact Or.inr ⟨rfl, rfl, fun _ => rfl⟩
    · rw [hfault] at h
      cases h
      exact Or.inl ⟨rfl, (fun hr => nomatch hr), (fun hd => nomatch hd), (fun hf => nomatch hf)⟩

/-- The tag, the snapshot and the content of a revision that has been saved. -/
def RevStore.save (s : RevStore) (key : ShKey) (rev : Node) (work : Bytes) : RevStore :=
  { s with saved := Function.update s.saved rev (some work) }.setObj .file basePath
    { key := key, format := .binary, data := work }

/-- What `saveBase` does: nothing, or it sets the tag without the snapshot, or both. -/
theorem saveBase_cases {rev : Node} {work : Bytes} {r : Except Sherr Unit}
    (h : saveBase c rev work s = some (r, s')) :
    (s' = s ∧ r ≠ .ok () ∧ (tagKey rev = none ∨ c.fault .getTag ≠ none)) ∨
    ∃ key, tagKey rev = some key ∧ c.fault .getTag = none ∧
      ((r ≠ .ok () ∧ (c.fault .writeTag ≠ none ∨ c.fault .writeSnapshot ≠ none) ∧
        s'.obj .file basePath = { s.obj .file basePath with key := key, format := .object }) ∨
      (c.fault .writeTag = none ∧ c.fault .writeSnapshot = none ∧ s' = s.save key rev work)) := by
  rcases Prog.bind_inv h with ⟨e, href, rfl⟩ | ⟨u, s1, href, hrest⟩
  · rcases revRef_cases href with ⟨rfl, hno, hr⟩ | ⟨key, hkey, hget, hwrite, rfl⟩
    · exact Or.inl ⟨rfl, hr, hno⟩
    · refine Or.inr ⟨key, hkey, hget, Or.inl ⟨(fun hr => nomatch hr), Or.inl ?_,
        setObj_self _ _ _ _⟩⟩
      intro hnone
      exact nomatch hwrite.mpr hnone
  · rcases revRef_cases href with ⟨-, -, hr⟩ | ⟨key, hkey, hget, hwrite, rfl⟩
    · exact absurd rfl hr
    · refine Or.inr ⟨key, hkey, hget, ?_⟩
      rw [Prog.bind_ok (Prog.modify_run _ _)] at hrest
      unfold shfsRevRefWrite at hrest
      rcases hsnap : c.fault .writeSnapshot with _ | err
      · right
        rw [hsnap, Prog.bind_ok (a := ()) (failIf_ok_iff.mpr ⟨rfl, rfl⟩),
          Prog.bind_ok (Prog.modify_run _ _)] at hrest
        refine ⟨hwrite.mp rfl, rfl, ?_⟩
        rw [reads_failIf _ _ _ _ hrest]
        simp only [RevStore.save, RevStore.setObj, Function.update_self, Function.update_idem]
      · left
        rw [hsnap] at hrest
        cases hrest
        refine ⟨(fun hr => nomatch hr), Or.inr (fun hf => nomatch hf), ?_⟩
        simp only [RevStore.setObj, Function.update_self]

/-- The tag of the previous revision is none of the file's own. -/
theorem tagPrev_cases {owner : Node} {name : RevName} {base : Option Node} {r : Except Sherr Unit}
    (h : tagPrev c (.rev owner name) base s = some (r, s')) :
    r = .ok () ∧ s'.delta = s.delta ∧ s'.saved = s.saved ∧ s'.content = s.content ∧
      ((s'.obj = s.obj ∧ ∀ b, base = some b → tagKey b = none ∨ c.fault .getPrev ≠ none) ∨
        ∃ b key, base = some b ∧ tagKey b = some key ∧ c.fault .getPrev = none ∧
          s' = s.setObj (.rev owner name) prevPath
            { s.obj (.rev owner name) prevPath with key := key, format := .object }) := by
  rcases base with _ | base
  · cases h
    exact ⟨rfl, rfl, rfl, rfl, Or.inl ⟨rfl, fun b hb => nomatch hb⟩⟩
  · rcases Prog.bind_inv h with ⟨e, hatt, -⟩ | ⟨r1, s1, hatt, hend⟩
    · obtain ⟨_, he, -⟩ := Prog.attempt_inv hatt
      cases he
    · obtain ⟨r2, -, href⟩ := Prog.attempt_inv hatt
      cases hend
      rcases revRef_cases href with ⟨rfl, hno, -⟩ | ⟨key, hkey, hget, -, rfl⟩
      · refine ⟨rfl, rfl, rfl, rfl, Or.inl ⟨rfl, ?_⟩⟩
        intro b hb
        cases hb
        exact hno
      · exact ⟨rfl, rfl, rfl, rfl, Or.inr ⟨base, key, rfl, hkey, hget, rfl⟩⟩

/-- A commit gets as far as the tag BASE. -/
def CommitTags (env : RevEnv) (c : RevCall) (s : RevStore) (work : Bytes) (revKey key : ShKey)
    (diff : Option Bytes) : Prop :=
  s.content = some work ∧ c.fault .readFile = none ∧ CommitDelta env c s work revKey diff ∧
  c.fault .getRevision = none ∧ (diff ≠ none → c.fault .writeDelta = none) ∧
  tagKey (.rev .file (shkeyHex revKey)) = some key ∧ c.fault .getTag = none

/-- A commit has one name and one delta. -/
theorem CommitDelta.unique {work : Bytes} {revKey revKey' : ShKey} {diff diff' : Option Bytes}
    (h : CommitDelta env c s work revKey diff) (h' : CommitDelta env c s work revKey' diff') :
    revKey' = revKey ∧ diff' = diff := by
  have hrun := commitDelta_ok_iff.mpr ⟨rfl, h⟩
  have hrun' := commitDelta_ok_iff.mpr ⟨rfl, h'⟩
  cases hrun.symm.trans hrun'
  exact ⟨rfl, rfl⟩

/-- What a commit does: nothing to the tag BASE, or it sets the tag without a snapshot,
or it saves the revision and goes on to the tag of the previous one. -/
theorem commit_cases {r : Except Sherr Node} (h : shfsRevCommit env c s = some (r, s')) :
    (SameBase s s' ∧ (∀ rev, r ≠ .ok rev) ∧ ¬ ∃ work revKey key diff,
      CommitTags env c s work revKey key diff) ∨
    ∃ work revKey key diff, CommitTags env c s work revKey key diff ∧
      (((∀ rev, r ≠ .ok rev) ∧ (c.fault .writeTag ≠ none ∨ c.fault .writeSnapshot ≠ none) ∧
        s'.obj .file basePath = { s.obj .file basePath with key := key, format := .object }) ∨
      (c.fault .writeTag = none ∧ c.fault .writeSnapshot = none ∧
        let rev := Node.rev .file (shkeyHex revKey)
        let s1 := (s.putDelta rev diff).save key rev work
        (∀ rev', r = .ok rev' → rev' = rev ∧ tagPrev c rev (shfsRevBase s) s1 = some (.ok (), s')) ∧
        ((∃ rev', r = .ok rev') ∨ s' = s1))) := by
  -- the working copy is read
  rcases Prog.bind_inv h with ⟨e, hwork, rfl⟩ | ⟨work, s1, hwork, h1⟩
  · cases reads_readWork _ _ _ hwork
    refine Or.inl ⟨⟨rfl, rfl⟩, (fun _ hr => nomatch hr), ?_⟩
    rintro ⟨work, revKey, key, diff, hcontent, hread, -⟩
    cases hwork.symm.trans (readWork_ok_iff.mpr ⟨rfl, hcontent, hread⟩)
  obtain ⟨rfl, hcontent, hread⟩ := readWork_ok_iff.mp hwork
  rw [Prog.bind_ok (Prog.read_run _ _)] at h1
  -- the key and the delta of the new revision
  rcases Prog.bind_inv h1 with ⟨e, hdelta, rfl⟩ | ⟨⟨revKey, diff⟩, s2, hdelta, h2⟩
  · cases reads_commitDelta _ _ _ hdelta
    refine Or.inl ⟨⟨rfl, rfl⟩, (fun _ hr => nomatch hr), ?_⟩
    rintro ⟨work', revKey, key, diff, hcontent', -, hready, -⟩
    cases hcontent.symm.trans hcontent'
    cases hdelta.symm.trans (commitDelta_ok_iff.mpr ⟨rfl, hready⟩)
  obtain ⟨rfl, hready⟩ := commitDelta_ok_iff.mp hdelta
  -- the inode of the new revision
  rcases Prog.bind_inv h2 with ⟨e, hget, rfl⟩ | ⟨u, s3, hget, h3⟩
  · cases reads_failIf _ _ _ _ hget
    refine Or.inl ⟨⟨rfl, rfl⟩, (fun _ hr => nomatch hr), ?_⟩
    rintro ⟨work', revKey', key, diff', -, -, -, hnone, -⟩
    cases hget.symm.trans (failIf_ok_iff.mpr ⟨rfl, hnone⟩ : _ = some (.ok (), _))
  obtain ⟨rfl, hrev⟩ := failIf_ok_iff.mp hget
  -- the delta is written; a fault leaves the tag BASE as it is
  rcases Prog.bind_inv h3 with ⟨e, hwrite, rfl⟩ | ⟨u, s4, hwrite, h4⟩
  · rcases deltaWrite_cases hwrite with ⟨rfl, -, hdiff, hfault⟩ | ⟨-, hr, -⟩
    · refine Or.inl ⟨⟨rfl, rfl⟩, (fun _ hr => nomatch hr), ?_⟩
      rintro ⟨work', revKey', key, diff', hcontent', -, hready', -, hnone, -⟩
      cases hcontent.symm.trans hcontent'
      obtain ⟨-, rfl⟩ := hready.unique hready'
      exact hfault (hnone hdiff)
    · cases hr
  rcases deltaWrite_cases hwrite with ⟨-, hr, -⟩ | ⟨rfl, -, hdiff⟩
  · exact absurd rfl hr
  have htags : ∀ {key}, tagKey (.rev .file (shkeyHex revKey)) = some key → c.fault .getTag = none →
      CommitTags env c s3 work revKey key diff := by
    intro key hkey htag
    exact ⟨hcontent, hread, hready, hrev, hdiff, hkey, htag⟩
  -- the tag BASE is set and takes its snapshot
  rcases Prog.bind_inv h4 with ⟨e, hsave, rfl⟩ | ⟨u', s5, hsave, h5⟩
  · rcases saveBase_cases hsave with ⟨rfl, -, hno⟩ | ⟨key, hkey, htag, hcase⟩
    · refine Or.inl ⟨⟨by rw [putDelta_obj], by rw [putDelta_saved]⟩, (fun _ hr => nomatch hr), ?_⟩
      rintro ⟨work', revKey', key, diff', hcontent', -, hready', -, -, hkey, htag⟩
      cases hcontent.symm.trans hcontent'
      obtain ⟨rfl, -⟩ := hready.unique hready'
      rcases hno with hnone | hfault
      · rw [hkey] at hnone
        cases hnone
      · exact hfault htag
    · refine Or.inr ⟨work, revKey, key, diff, htags hkey htag, ?_⟩
      rcases hcase with ⟨-, hfault, hobj⟩ | ⟨htag', hsnap, rfl⟩
      · rw [putDelta_obj] at hobj
        exact Or.inl ⟨(fun _ hr => nomatch hr), hfault, hobj⟩
      · exact Or.inr ⟨htag', hsnap, (fun _ hr => nomatch hr), Or.inr rfl⟩
  · rcases saveBase_cases hsave with ⟨-, hr, -⟩ | ⟨key, hkey, htag, ⟨hr, -⟩ | ⟨htag', hsnap, rfl⟩⟩
    · exact absurd rfl hr
    · exact absurd rfl hr
    · refine Or.inr ⟨work, revKey, key, diff, htags hkey htag, Or.inr ⟨htag', hsnap, ?_⟩⟩
      -- the status of the tag of the previous revision is not looked at
      rcases Prog.bind_inv h5 with ⟨e, hprev, -⟩ | ⟨u'', s6, hprev, hend⟩
      · cases (tagPrev_cases hprev).1
      · cases hend
        refine ⟨?_, Or.inl ⟨_, rfl⟩⟩
        intro rev' hrev
        cases hrev
        exact ⟨rfl, hprev⟩

/-! ## Runs -/

/-- An operation on a file that has a repository. -/
inductive RevOp
  | write (data : Bytes)
  | commit
  | checkout (key : ShKey)
  | switch (refName : Option Bytes)
  | revert

/-- An operation, with what it meets. -/
structure RevEvent where
  call : RevCall
  op : RevOp

/-- The operation. Its value is not used. -/
def RevEvent.run (env : RevEnv) (ev : RevEvent) : Rev Unit :=
  match ev.op with
  | .write data => writeFile ev.call data
  | .commit => do
    let _ ← shfsRevCommit env ev.call
    return ()
  | .checkout key => shfsRevCheckout ev.call key
  | .switch refName => shfsRevSwitch ev.call refName
  | .revert => shfsRevRevert ev.call

/-- A run, with the operations and the state that each of them met. Whether an operation
succeeds does not matter. -/
inductive RevRuns (env : RevEnv) (s0 : RevStore) : List (RevStore × RevEvent) → RevStore → Prop
  | start : RevRuns env s0 [] s0
  | step {t : List (RevStore × RevEvent)} {s s' : RevStore} {ev : RevEvent}
      {r : Except Sherr Unit} :
      RevRuns env s0 t s → ev.run env s = some (r, s') → RevRuns env s0 ((s, ev) :: t) s'

/-- The tag BASE would be moved to a revision. -/
def Moves (c : RevCall) (target : Option Node) : Prop :=
  ∃ rev key, target = some rev ∧ tagKey rev = some key ∧ c.fault .getTag = none

/-- The operation does not leave the tag without a snapshot: it is no checkout or switch that
gets as far as the tag, and no commit that fails at the tag or at the snapshot. -/
def KeepsSnapshot (env : RevEnv) (s : RevStore) (ev : RevEvent) : Prop :=
  match ev.op with
  | .write _ => True
  | .commit => (∃ work revKey key diff, CommitTags env ev.call s work revKey key diff) →
      ev.call.fault .writeTag = none ∧ ev.call.fault .writeSnapshot = none
  | .checkout key => ¬ Moves ev.call (shfsRevGet .file key)
  | .switch refName => ¬ Moves ev.call (switchTarget s refName)
  | .revert => True

/-- A file without content whose repository has just been made. -/
def RevStore.fresh : RevStore where
  content := none
  obj := fun _ _ => Obj.zero
  delta := fun _ => []
  saved := fun _ => none

/-- If there is a tag, it and its snapshot agree. -/
def TagAgrees (s : RevStore) : Prop := shfsRevBase s ≠ none → Agrees s

/-- The tag agrees still if it has not changed. -/
theorem SameBase.tagAgrees (h : SameBase s s') (ha : TagAgrees s) : TagAgrees s' := by
  intro hbase
  rw [base_congr h.obj] at hbase
  exact h.agrees (ha hbase)

/-- The file is written without a change to the base. -/
theorem writeFile_sameBase {data : Bytes} {r : Except Sherr Unit}
    (h : writeFile c data s = some (r, s')) : SameBase s s' := by
  rcases Prog.bind_inv h with ⟨e, hfail, -⟩ | ⟨u, s1, hfail, hrest⟩
  · cases reads_failIf _ _ _ _ hfail
    exact ⟨rfl, rfl⟩
  · cases reads_failIf _ _ _ _ hfail
    cases hrest
    exact ⟨rfl, rfl⟩

/-- A revert leaves the base. -/
theorem revert_sameBase {r : Except Sherr Unit} (h : shfsRevRevert c s = some (r, s')) :
    SameBase s s' := by
  rcases Prog.bind_inv h with ⟨e, hread, -⟩ | ⟨data, s1, hread, hwrite⟩
  · cases reads_readBase _ _ _ hread
    exact ⟨rfl, rfl⟩
  · cases reads_readBase _ _ _ hread
    exact writeFile_sameBase hwrite

/-- What becomes of the tag and its snapshot: they are as they were, or the snapshot
is lost, or there is a new one. -/
inductive Fate (s s' : RevStore) (keeps : Prop) : Prop
  | same (base : SameBase s s') (h : keeps)
  | lost (broken : Broken s') (h : ¬ keeps)
  | saved (agrees : Agrees s') (sound : ¬ Broken s) (h : keeps)

/-- The tag is moved, and no snapshot is taken. -/
theorem baseSet_fate {rev : Node} {r : Except Sherr Unit}
    (h : shfsRevBaseSet c rev s = some (r, s')) :
    Fate s s' (¬ Moves c (some rev)) := by
  rcases revRef_cases h with ⟨rfl, hno, -⟩ | ⟨key, hkey, hget, -, rfl⟩
  · refine Fate.same ⟨rfl, rfl⟩ ?_
    rintro ⟨rev', key, hrev, hkey, hget⟩
    cases hrev
    rcases hno with hnone | hfault
    · rw [hkey] at hnone
      cases hnone
    · exact hfault hget
  · refine Fate.lost ?_ (not_not.mpr ⟨rev, key, rfl, hkey, hget⟩)
    rcases rev with _ | ⟨owner, name⟩
    · cases hkey
    · exact broken_of_setObj (tagKey_rev hkey).1 (setObj_self _ _ _ _)

/-- A checkout spoils the snapshot just when it moves the tag. -/
theorem checkout_fate {key : ShKey} {r : Except Sherr Unit}
    (h : shfsRevCheckout c key s = some (r, s')) :
    Fate s s' (¬ Moves c (shfsRevGet .file key)) := by
  unfold shfsRevCheckout at h
  rcases hrev : shfsRevGet .file key with _ | rev
  · rw [hrev] at h
    cases h
    exact Fate.same ⟨rfl, rfl⟩ fun ⟨_, _, htarget, _⟩ => nomatch htarget
  · rw [hrev] at h
    exact baseSet_fate h

/-- A switch spoils the snapshot just when it moves the tag. -/
theorem switch_fate {refName : Option Bytes} {r : Except Sherr Unit}
    (h : shfsRevSwitch c refName s = some (r, s')) :
    Fate s s' (¬ Moves c (switchTarget s refName)) := by
  unfold shfsRevSwitch at h
  rw [Prog.bind_ok (Prog.read_run _ _)] at h
  rcases hrev : switchTarget s refName with _ | rev
  · rw [hrev] at h
    cases h
    exact Fate.same ⟨rfl, rfl⟩ fun ⟨_, _, htarget, _⟩ => nomatch htarget
  · rw [hrev] at h
    exact baseSet_fate h

/-- A commit does not get as far as the tag when the snapshot cannot be read. -/
theorem CommitTags.not_broken {work : Bytes} {revKey key : ShKey} {diff : Option Bytes}
    (h : CommitTags env c s work revKey key diff) : ¬ Broken s := by
  rintro ⟨hbase, hformat⟩
  obtain ⟨-, -, hdelta, -⟩ := h
  unfold CommitDelta at hdelta
  rcases hrev : shfsRevBase s with _ | rev
  · exact hbase hrev
  · rw [hrev] at hdelta
    obtain ⟨-, -, head, d, hread, -⟩ := hdelta
    unfold shfsRevRefRead at hread
    rw [if_pos hformat] at hread
    cases hread

/-- A revision that has been saved is the one that the tag names, with its content. -/
theorem save_agrees {key : ShKey} {name : RevName} {work : Bytes}
    (hkey : tagKey (.rev .file name) = some key) : Agrees (s.save key (.rev .file name) work) := by
  obtain ⟨hne, hname⟩ := tagKey_rev hkey
  have hobj : (s.save key (.rev .file name) work).obj .file basePath =
      { key := key, format := .binary, data := work } := setObj_self _ _ _ _
  refine ⟨.rev .file name, work, ?_, Function.update_self _ _ _, ?_⟩
  · rw [base_of_key (congrArg Obj.key hobj) hne, hname]
  · unfold shfsRevRefRead
    rw [hobj]
    exact if_neg (not_not.mpr rfl)

/-- The tag PREV of a revision is not the base of the file. -/
theorem tagPrev_sameBase {name : RevName} {base : Option Node} {r : Except Sherr Unit}
    (h : tagPrev c (.rev .file name) base s = some (r, s')) : SameBase s s' := by
  obtain ⟨-, -, hsaved, -, ⟨hobj, -⟩ | ⟨b, key, -, -, -, rfl⟩⟩ := tagPrev_cases h
  · exact ⟨by rw [hobj], hsaved⟩
  · exact ⟨setObj_other _ (Or.inl fun howner => nomatch howner), rfl⟩

/-- A commit spoils the snapshot just when the tag is written and the snapshot is not. -/
theorem commit_fate {r : Except Sherr Node} (h : shfsRevCommit env c s = some (r, s')) :
    Fate s s' ((∃ work revKey key diff, CommitTags env c s work revKey key diff) →
      c.fault .writeTag = none ∧ c.fault .writeSnapshot = none) := by
  rcases commit_cases h with ⟨hsame, -, hno⟩ | ⟨work, revKey, key, diff, htags, hcase⟩
  · exact Fate.same hsame fun hex => absurd hex hno
  obtain ⟨-, -, -, -, -, hkey, -⟩ := id htags
  rcases hcase with ⟨-, hfault, hobj⟩ | ⟨htag, hsnap, hok, hend⟩
  · refine Fate.lost (broken_of_setObj (tagKey_rev hkey).1 hobj) ?_
    intro hnone
    obtain ⟨h1, h2⟩ := hnone ⟨work, revKey, key, diff, htags⟩
    rcases hfault with hfault | hfault
    · exact hfault h1
    · exact hfault h2
  · refine Fate.saved ?_ htags.not_broken fun _ => ⟨htag, hsnap⟩
    rcases hend with ⟨rev, hrev⟩ | rfl
    · exact (tagPrev_sameBase (hok rev hrev).2).agrees (save_agrees hkey)
    · exact save_agrees hkey

/-- What one operation does to the tag and its snapshot. -/
theorem run_fate {ev : RevEvent} {r : Except Sherr Unit} (h : ev.run env s = some (r, s')) :
    Fate s s' (KeepsSnapshot env s ev) := by
  obtain ⟨c, op⟩ := ev
  rcases op with data | _ | key | refName | _
  · exact Fate.same (writeFile_sameBase h) trivial
  · rcases Prog.bind_inv h with ⟨e, hcommit, -⟩ | ⟨rev, s1, hcommit, hend⟩
    · exact commit_fate hcommit
    · cases hend
      exact commit_fate hcommit
  · exact checkout_fate h
  · exact switch_fate h
  · exact Fate.same (revert_sameBase h) trivial

/-- A snapshot that is lost stays lost: nothing can be committed without it. -/
theorem run_broken {ev : RevEvent} {r : Except Sherr Unit} (h : ev.run env s = some (r, s'))
    (hb : Broken s) : Broken s' := by
  rcases run_fate h with ⟨hsame, -⟩ | ⟨hlost, -⟩ | ⟨-, hsound, -⟩
  · exact hsame.broken hb
  · exact hlost
  · exact absurd hb hsound

/-- Along a run the tag and its snapshot agree until an operation leaves the tag without one,
and from there on there is none. -/
theorem runs_fate {s0 : RevStore} {t : List (RevStore × RevEvent)} (hstart : TagAgrees s0)
    (h : RevRuns env s0 t s) :
    ((∀ e ∈ t, KeepsSnapshot env e.1 e.2) ∧ TagAgrees s) ∨
      ((∃ e ∈ t, ¬ KeepsSnapshot env e.1 e.2) ∧ Broken s) := by
  induction h with
  | start => exact Or.inl ⟨(fun e he => nomatch he), hstart⟩
  | @step t s s' ev r _ hrun ih =>
    rcases ih with ⟨hall, ha⟩ | ⟨⟨e, he, hbad⟩, hb⟩
    · rcases run_fate hrun with ⟨hsame, hkeeps⟩ | ⟨hlost, hbad⟩ | ⟨hagrees, -, hkeeps⟩
      · exact Or.inl ⟨List.forall_mem_cons.mpr ⟨hkeeps, hall⟩, hsame.tagAgrees ha⟩
      · exact Or.inr ⟨⟨(s, ev), List.mem_cons_self, hbad⟩, hlost⟩
      · exact Or.inl ⟨List.forall_mem_cons.mpr ⟨hkeeps, hall⟩, fun _ => hagrees⟩
    · exact Or.inr ⟨⟨e, List.mem_cons_of_mem _ he, hbad⟩, run_broken hrun hb⟩

/-- After a run from a repository without a tag, or from one whose tag and snapshot agree, they
agree just when none of the operations has left the tag without a snapshot. -/
theorem base_agrees_iff {s0 : RevStore} {t : List (RevStore × RevEvent)} (hstart : TagAgrees s0)
    (h : RevRuns env s0 t s) : TagAgrees s ↔ ∀ e ∈ t, KeepsSnapshot env e.1 e.2 := by
  rcases runs_fate hstart h with ⟨hall, ha⟩ | ⟨⟨e, he, hbad⟩, hb⟩
  · exact iff_of_true ha hall
  · refine iff_of_false ?_ (fun hall => hbad (hall e he))
    intro ha
    exact hb.not_agrees (ha hb.1)

/-- No failure of the file layer, and a unique key that is the number one. -/
def quietCall : RevCall :=
  { fault := fun _ => none, uniq := { alg := 0, crc := 0, code := #v[1, 0, 0, 0, 0, 0, 0] } }

/-- A delta that is the whole of the earlier content. The token of a revision is the number
after that in its name. -/
def wholeEnv : RevEnv where
  token := fun
    | .rev .file name =>
      { alg := 0, crc := 0, code := #v[name.code.toList.headD 0 + 1, 0, 0, 0, 0, 0, 0] }
    | _ => { alg := 0, crc := 0, code := #v[100, 0, 0, 0, 0, 0, 0] }
  shdelta := fun _ head => .ok head
  shpatch := fun _ diff => .ok diff

/-- Content is written and committed. -/
theorem base_agrees_after_commit : ∃ s1 s2,
    RevRuns wholeEnv .fresh [(s1, ⟨quietCall, .commit⟩), (.fresh, ⟨quietCall, .write [1]⟩)] s2 ∧
      shfsRevBase s2 ≠ none ∧ TagAgrees s2 := by
  have hrun : RevRuns wholeEnv .fresh
      [(_, ⟨quietCall, .commit⟩), (.fresh, ⟨quietCall, .write [1]⟩)] _ :=
    .step (.step .start rfl) rfl
  refine ⟨_, _, hrun, by decide, (base_agrees_iff (fun h => absurd rfl h) hrun).mpr ?_⟩
  simp [KeepsSnapshot, quietCall]

/-- After a checkout of the very revision that has been committed the snapshot cannot be
read. -/
theorem checkout_loses_snapshot : ∃ s1 s2 s3 rev t,
    writeFile quietCall [1] RevStore.fresh = some (.ok (), s1) ∧
    shfsRevCommit wholeEnv quietCall s1 = some (.ok rev, s2) ∧
    shfsRevCheckout quietCall quietCall.uniq s2 = some (.ok (), s3) ∧
    RevRuns wholeEnv RevStore.fresh t s3 ∧ shfsRevBase s3 = some rev ∧ ¬ TagAgrees s3 := by
  have hrun : RevRuns wholeEnv .fresh
      [(_, ⟨quietCall, .checkout quietCall.uniq⟩), (_, ⟨quietCall, .commit⟩),
        (.fresh, ⟨quietCall, .write [1]⟩)] _ :=
    .step (.step (.step .start rfl) rfl) rfl
  refine ⟨_, _, _, _, _, rfl, rfl, rfl, hrun, rfl, ?_⟩
  intro h
  exact Broken.not_agrees ⟨by decide, by decide⟩ (h (by decide))

end LibShare.Fs
