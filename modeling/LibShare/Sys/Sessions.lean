import LibShare.Sys.Shadow

/-!
# libshare — sessions of the shadow database

When a session is valid, what it permits, and when a login is refused. Every
function of the shadow database is described by the seeds that it loads: a seed that
is there, at a moment at which the file layer works and the seed is not expired.

`shpam_shadow_pass_set` accepts the session of any account. `shpam_shadow_set` asks for
a permission to write, which the user of the session always has, whichever
account is written (`account_update_iff`).
-/

namespace LibShare.Sys

open Mem

variable {lib : PamLib} {file file' : ShadowFile} {m m' : Moment} {uid : UInt64}
  {seed seed' : Shseed}

/-! ## Loading and storing seeds -/

/-- A seed can be loaded at a moment: the file layer works, and it is not expired. -/
def Usable (m : Moment) (seed : Shseed) : Prop :=
  m.fault = none ∧ ¬ (seed.expire ≠ 0 ∧ m.after seed.expire)

/-- A record is loaded if there is one that can be used, and otherwise the load fails. -/
theorem load_run (lib : PamLib) (m : Moment) (uid : UInt64) (file : ShadowFile) :
    (∃ seed, file.record lib uid = some seed ∧ Usable m seed ∧
      shpamPshadowLoad lib m uid file = some (.ok seed, file)) ∨
    (¬ ∃ seed, file.record lib uid = some seed ∧ Usable m seed) ∧
      ∃ err, shpamPshadowLoad lib m uid file = some (.error err, file) := by
  unfold shpamPshadowLoad ShadowFile.record Usable
  rw [Prog.bind_ok (Prog.read_run _ _)]
  rcases hattr : file.attrCred with _ | _
  · exact Or.inr ⟨by simp, .noent, rfl⟩
  · rw [if_pos (rfl : true = true), if_neg (by decide : ¬ true = false)]
    rcases hfault : m.fault with _ | err
    · dsimp only
      rw [Prog.bind_ok (Prog.read_run _ _)]
      rcases hcred : file.creds (credKey lib uid) with _ | seed
      · exact Or.inr ⟨by simp, .noent, rfl⟩
      · by_cases hexp : seed.expire ≠ 0 ∧ m.after seed.expire
        · refine Or.inr ⟨?_, .keyexpired, by simp only [if_pos hexp]; rfl⟩
          rintro ⟨seed', hseed, -, hlive⟩
          cases hseed
          exact hlive hexp
        · exact Or.inl ⟨seed, rfl, ⟨rfl, hexp⟩, by simp only [if_neg hexp]; rfl⟩
    · exact Or.inr ⟨by simp, err, rfl⟩

/-- What a load that succeeds says. -/
theorem load_ok_iff : shpamPshadowLoad lib m uid file = some (.ok seed, file') ↔
    file' = file ∧ file.record lib uid = some seed ∧ Usable m seed := by
  rcases load_run lib m uid file with ⟨seed', hrec, huse, hrun⟩ | ⟨hnone, err, hrun⟩
  · rw [hrun, hrec]
    constructor
    · intro h
      cases h
      exact ⟨rfl, rfl, huse⟩
    · rintro ⟨rfl, hseed, -⟩
      cases hseed
      rfl
  · rw [hrun]
    constructor
    · intro h
      cases h
    · rintro ⟨-, hrec, huse⟩
      exact absurd ⟨seed, hrec, huse⟩ hnone

/-- A load fails just when there is no record that can be used. -/
theorem load_fails_iff : (shpamPshadowLoad lib m uid).Fails file ↔
    ¬ ∃ seed, file.record lib uid = some seed ∧ Usable m seed := by
  rcases load_run lib m uid file with ⟨seed', hrec, huse, hrun⟩ | ⟨hnone, err, hrun⟩
  · refine iff_of_false ?_ (fun h => h ⟨seed', hrec, huse⟩)
    rintro ⟨e, s', h⟩
    rw [hrun] at h
    cases h
  · exact iff_of_true ⟨err, file, hrun⟩ hnone

/-! ## Sessions and permissions -/

/-- A session is valid at a moment: it has the key of its account's seed. -/
def ValidSession (lib : PamLib) (m : Moment) (file : ShadowFile) (priv : Shpriv) : Prop :=
  ∃ seed, file.record lib priv.uid = some seed ∧ Usable m seed ∧ sessionKey lib m seed = priv.sess

/-- A session is given for a record that can be used. -/
theorem session_ok_iff {sess : Shpriv} :
    shpamShadowSession lib m uid file = some (.ok sess, file') ↔
    file' = file ∧ ∃ seed, file.record lib uid = some seed ∧ Usable m seed ∧
      sess = { uid := uid, sess := sessionKey lib m seed } := by
  constructor
  · intro h
    rcases Prog.bind_inv h with ⟨e, -, he⟩ | ⟨seed, s1, hload, hend⟩
    · cases he
    · obtain ⟨rfl, hrec, huse⟩ := load_ok_iff.mp hload
      cases hend
      exact ⟨rfl, seed, hrec, huse, rfl⟩
  · rintro ⟨rfl, seed, hrec, huse, rfl⟩
    exact Prog.bind_ok (load_ok_iff.mpr ⟨rfl, hrec, huse⟩)

/-- A right is verified just when the session is valid. -/
theorem privVerify_ok_iff {priv : Option Shpriv} {u : Unit} :
    shpamShadowPrivVerify lib m priv file = some (.ok u, file') ↔
      file' = file ∧ ∃ sess, priv = some sess ∧ ValidSession lib m file sess := by
  rcases priv with _ | sess
  · refine iff_of_false (fun h => nomatch h) ?_
    rintro ⟨-, sess, h, -⟩
    cases h
  · constructor
    · intro h
      rcases Prog.bind_inv h with ⟨e, -, he⟩ | ⟨seed, s1, hload, hend⟩
      · cases he
      · obtain ⟨rfl, hrec, huse⟩ := load_ok_iff.mp hload
        split at hend
        · cases hend
        · next hkey =>
          cases hend
          exact ⟨rfl, sess, rfl, seed, hrec, huse, not_not.mp hkey⟩
    · rintro ⟨rfl, _, hsess, seed, hrec, huse, hkey⟩
      cases hsess
      refine (Prog.bind_ok (load_ok_iff.mpr ⟨rfl, hrec, huse⟩)).trans ?_
      rw [if_neg (not_not.mpr hkey)]
      rfl

/-- A record has a permission. -/
theorem permSeed_ok_iff {perm : UInt32} {u : Unit} :
    permSeed lib m uid perm file = some (.ok u, file') ↔
      file' = file ∧ ∃ seed, file.record lib uid = some seed ∧ Usable m seed ∧
      seed.perm &&& perm ≠ 0 := by
  unfold permSeed
  rcases load_run lib m uid file with ⟨seed, hrec, huse, hrun⟩ | ⟨hnone, err, hrun⟩
  · rw [Prog.bind_ok (Prog.attempt_run hrun)]
    by_cases hperm : seed.perm &&& perm = 0
    · simp only [if_pos hperm]
      refine iff_of_false (fun h => nomatch h) ?_
      rintro ⟨-, seed', hseed, -, hbit⟩
      rw [hrec] at hseed
      cases hseed
      exact hbit hperm
    · simp only [if_neg hperm]
      constructor
      · intro h
        cases h
        exact ⟨rfl, seed, hrec, huse, hperm⟩
      · rintro ⟨rfl, -⟩
        rfl
  · rw [Prog.bind_ok (Prog.attempt_run hrun)]
    refine iff_of_false ?_ ?_
    · intro h
      rcases err <;> cases h
    · rintro ⟨-, seed, hrec, huse, -⟩
      exact hnone ⟨seed, hrec, huse⟩

theorem load_ne_none : shpamPshadowLoad lib m uid file ≠ none := by
  rcases load_run lib m uid file with ⟨_, _, _, hrun⟩ | ⟨_, _, hrun⟩ <;> simp [hrun]

theorem permSeed_ne_none {perm : UInt32} : permSeed lib m uid perm file ≠ none := by
  unfold permSeed
  rcases load_run lib m uid file with ⟨seed, hrec, huse, hrun⟩ | ⟨hnone, err, hrun⟩
  · rw [Prog.bind_ok (Prog.attempt_run hrun)]
    dsimp only
    split <;> exact Option.some_ne_none _
  · rw [Prog.bind_ok (Prog.attempt_run hrun)]
    rcases err <;> exact Option.some_ne_none _

/-- The user of a right is that of a valid session. -/
theorem permUser_ok_iff {euid uid' : UInt64} {sess : Shpriv} :
    permUser lib euid m (some sess) file = some (.ok uid', file') ↔
      file' = file ∧ uid' = sess.uid ∧ ValidSession lib m file sess := by
  constructor
  · intro h
    rcases Prog.bind_inv h with ⟨e, -, he⟩ | ⟨u, s1, hver, hend⟩
    · cases he
    · obtain ⟨rfl, _, hsess, hvalid⟩ := privVerify_ok_iff.mp hver
      cases hsess
      cases hend
      exact ⟨rfl, rfl, hvalid⟩
  · rintro ⟨rfl, rfl, hvalid⟩
    exact Prog.bind_ok (a := ()) (privVerify_ok_iff.mpr ⟨rfl, sess, rfl, hvalid⟩)

/-- A session gives a permission: it is one that its user always has, or the seed
grants it. -/
theorem perm_ok_iff {euid : UInt64} {sess : Shpriv} {perm : UInt32} {u : Unit} :
    shpamShadowPerm lib euid m m' (some sess) perm file = some (.ok u, file') ↔
      file' = file ∧ ValidSession lib m file sess ∧
        ((euid = sess.uid ∧ perm &&& (shpermRead ||| shpermWrite) ≠ 0) ∨
          ∃ seed, file.record lib sess.uid = some seed ∧ Usable m' seed ∧
          seed.perm &&& perm ≠ 0) := by
  constructor
  · intro h
    rcases Prog.bind_inv h with ⟨e, -, he⟩ | ⟨uid, s1, huser, hend⟩
    · cases he
    · obtain ⟨rfl, rfl, hvalid⟩ := permUser_ok_iff.mp huser
      split at hend
      · next hown =>
        cases hend
        exact ⟨rfl, hvalid, Or.inl hown⟩
      · obtain ⟨rfl, hseed⟩ := permSeed_ok_iff.mp hend
        exact ⟨rfl, hvalid, Or.inr hseed⟩
  · rintro ⟨rfl, hvalid, hperm⟩
    refine (Prog.bind_ok (permUser_ok_iff.mpr ⟨rfl, rfl, hvalid⟩)).trans ?_
    split
    · rfl
    · next hown => exact permSeed_ok_iff.mpr ⟨rfl, hperm.resolve_left hown⟩

theorem privVerify_ne_none {priv : Option Shpriv} :
    shpamShadowPrivVerify lib m priv file ≠ none := by
  rcases priv with _ | sess
  · exact Option.some_ne_none _
  · refine Prog.bind_ne_none load_ne_none ?_
    intro seed s1 _
    split <;> exact Option.some_ne_none _

theorem perm_ne_none {euid : UInt64} {priv : Option Shpriv} {perm : UInt32} :
    shpamShadowPerm lib euid m m' priv perm file ≠ none := by
  refine Prog.bind_ne_none ?_ ?_
  · rcases priv with _ | sess
    · exact Option.some_ne_none _
    · exact Prog.bind_ne_none privVerify_ne_none (fun _ _ _ => Option.some_ne_none _)
  · intro uid s1 _
    split
    · exact Option.some_ne_none _
    · exact permSeed_ne_none

/-! ## Logins -/

/-- What a seed and its session have to show for a user other than its own. -/
def Verified (lib : PamLib) (c : Call) (seed : Shseed) : Prop :=
  Usable (c.moments 4) seed ∧
  sessionKey lib (c.moments 4) seed = sessionKey lib (c.moments 3) seed ∧
  Usable (c.moments 5) seed ∧ seed.perm &&& shpermVerify ≠ 0

/-- A seed refuses a login: it cannot be loaded, the password or the code is not its
own, or another user may not verify it. -/
def Refuses (lib : PamLib) (c : Call) (tree : Bool) (seed : Shseed) (accName : Option Bytes)
    (code2fa : UInt32) (passData : Bytes) : Prop :=
  tree = false ∨ ¬ Usable (c.moments 0) seed ∨
  shpamAuthVerify lib (c.moments 1) seed accName passData ≠ .ok () ∨
  shpamAuth2faVerify lib (c.moments 2) seed accName code2fa ≠ .ok () ∨
  (c.euid ≠ shpamUid accName ∧ Usable (c.moments 3) seed ∧ ¬ Verified lib c seed)

/-- A login with a record fails just when the record refuses it. -/
theorem mayLogin_fails_iff {c : Call} (hrec : file.record lib uid = some seed) :
    (mayLogin lib c uid (.ok { uid := uid, sess := sessionKey lib (c.moments 3) seed })).Fails
    file ↔
      c.euid ≠ uid ∧ ¬ Verified lib c seed := by
  unfold mayLogin
  by_cases huser : c.euid = uid
  · rw [if_pos huser]
    exact iff_of_false (Prog.not_fails_pure _ _) (fun h => h.1 huser)
  · rw [if_neg huser]
    dsimp only
    rw [Prog.fails_iff perm_ne_none]
    refine ⟨fun h => ⟨huser, fun hver => h ?_⟩, fun h => fun hok => h.2 ?_⟩
    · obtain ⟨huse4, hkey, huse5, hbit⟩ := hver
      exact ⟨(), file, perm_ok_iff.mpr ⟨rfl, ⟨seed, hrec, huse4, hkey⟩,
        Or.inr ⟨seed, hrec, huse5, hbit⟩⟩⟩
    · obtain ⟨u, s1, hrun⟩ := hok
      obtain ⟨-, ⟨seed1, hrec1, huse4, hkey⟩, hperm⟩ := perm_ok_iff.mp hrun
      cases hrec.symm.trans hrec1
      rcases hperm with ⟨hown, -⟩ | ⟨seed2, hrec2, huse5, hbit⟩
      · exact absurd hown huser
      · cases hrec.symm.trans hrec2
        exact ⟨huse4, hkey, huse5, hbit⟩

/-- A status is passed on. -/
theorem check_ok_iff {α : Type} {r : Except Sherr α} {a : α} :
    check r file = some (.ok a, file') ↔ file' = file ∧ r = .ok a := by
  rcases r with err | b
  · exact iff_of_false (fun h => nomatch h) (fun h => nomatch h.2)
  · constructor
    · intro h
      cases h
      exact ⟨rfl, rfl⟩
    · rintro ⟨rfl, hr⟩
      cases hr
      rfl

/-- A login to an account that has a seed fails when the seed refuses it. -/
theorem login_fails_iff {c : Call} {accName : Option Bytes} {code2fa : UInt32} {passData : Bytes}
    (hrec : file.record lib (shpamUid accName) = some seed) :
    (shpamShadowLogin lib c accName code2fa passData).Fails file ↔
      Refuses lib c file.tree seed accName code2fa passData := by
  unfold shpamShadowLogin Refuses
  rw [Prog.fails_bind_read]
  by_cases htree : file.tree = false
  · rw [if_pos htree]
    exact iff_of_true (Prog.fails_fail _ _) (Or.inl htree)
  rw [if_neg htree]
  by_cases huse : Usable (c.moments 0) seed
  swap
  · refine iff_of_true (Prog.fails_bind.mpr (Or.inl (load_fails_iff.mpr ?_))) (Or.inr (Or.inl huse))
    rintro ⟨seed', hrec', huse'⟩
    cases hrec.symm.trans hrec'
    exact huse huse'
  rw [Prog.fails_bind_ok (load_ok_iff.mpr ⟨rfl, hrec, huse⟩)]
  rcases hauth : shpamAuthVerify lib (c.moments 1) seed accName passData with err | u
  · exact iff_of_true ⟨err, file, rfl⟩ (Or.inr (Or.inr (Or.inl (fun h => nomatch h))))
  rw [Prog.fails_bind_ok (check_ok_iff.mpr ⟨rfl, rfl⟩)]
  rcases hcode : shpamAuth2faVerify lib (c.moments 2) seed accName code2fa with err | u'
  · exact iff_of_true ⟨err, file, rfl⟩ (Or.inr (Or.inr (Or.inr (Or.inl (fun h => nomatch h)))))
  rw [Prog.fails_bind_ok (check_ok_iff.mpr ⟨rfl, rfl⟩)]
  -- only the permission of another user is left
  simp only [htree, huse, not_true_eq_false, ne_eq, false_or]
  by_cases huse3 : Usable (c.moments 3) seed
  · have hsess := Prog.attempt_run (session_ok_iff.mpr ⟨rfl, seed, hrec, huse3, rfl⟩)
    rw [Prog.fails_bind_ok hsess, Prog.fails_bind, mayLogin_fails_iff hrec]
    simp [huse3]
  · obtain ⟨err, hsess⟩ : ∃ err, shpamShadowSession lib (c.moments 3) (shpamUid accName) file =
        some (.error err, file) := by
      rcases load_run lib (c.moments 3) (shpamUid accName) file with
        ⟨seed', hrec', huse', -⟩ | ⟨-, err, hrun⟩
      · cases hrec.symm.trans hrec'
        exact absurd huse' huse3
      · exact ⟨err, Prog.bind_error hrun⟩
    rw [Prog.fails_bind_ok (Prog.attempt_run hsess), Prog.fails_bind]
    unfold mayLogin
    by_cases huser : c.euid = shpamUid accName
    · simp [huser, huse3]
    · simp [huser, huse3]

/-! ## Updates -/

/-- The account holds the permission to write. -/
def MayWrite (lib : PamLib) (file : ShadowFile) (uid : UInt64) : Prop :=
  ∃ seed, file.record lib uid = some seed ∧ seed.perm &&& shpermWrite ≠ 0

/-- A session that an account may be changed with: a valid one, of the account itself
or of one that holds the permission to write. -/
def Authorised (lib : PamLib) (m : Moment) (file : ShadowFile) (uid : UInt64)
    (priv : Shpriv) : Prop :=
  ValidSession lib m file priv ∧ (priv.uid = uid ∨ MayWrite lib file priv.uid)

/-- What `shpam_shadow_pass_set` needs: a valid session, whose account does not matter, the
seed of the account to be changed, and signatures for the password. -/
def PassSetReady (lib : PamLib) (c : Call) (file : ShadowFile) (accName : Option Bytes)
    (priv : Shpriv)
    (passData : Bytes) : Prop :=
  ValidSession lib (c.moments 0) file priv ∧
  ∃ seed seed', file.record lib (shpamUid accName) = some seed ∧ Usable (c.moments 1) seed ∧
    shpamAuthSet lib (c.moments 2) seed accName passData = .ok seed' ∧ (c.moments 3).fault = none

/-- A record is stored just when no fault occurs. -/
theorem store_succeeds_iff : (shpamPshadowStore lib m uid seed).Succeeds file ↔ m.fault = none := by
  unfold shpamPshadowStore
  rcases hfault : m.fault with _ | err
  · exact iff_of_true (Prog.succeeds_modify _ _) rfl
  · exact iff_of_false (Prog.not_succeeds_fail err file) (fun h => nomatch h)

/-- A password is set just when all that is looked at is ready. -/
theorem passSet_succeeds_iff {c : Call} {accName : Option Bytes} {priv : Shpriv}
    {passData : Bytes} :
    (shpamShadowPassSet lib c accName (some priv) passData).Succeeds file ↔
      PassSetReady lib c file accName priv passData := by
  constructor
  · intro h
    obtain ⟨_, s1, hver, h1⟩ := Prog.succeeds_bind.mp h
    obtain ⟨rfl, _, hpriv, hvalid⟩ := privVerify_ok_iff.mp hver
    cases hpriv
    obtain ⟨seed, s2, hload, h2⟩ := Prog.succeeds_bind.mp h1
    obtain ⟨rfl, hrec, huse⟩ := load_ok_iff.mp hload
    obtain ⟨seed', s3, hcheck, h3⟩ := Prog.succeeds_bind.mp h2
    obtain ⟨rfl, hset⟩ := check_ok_iff.mp hcheck
    exact ⟨hvalid, seed, seed', hrec, huse, hset, store_succeeds_iff.mp h3⟩
  · rintro ⟨hvalid, seed, seed', hrec, huse, hset, hfault⟩
    refine Prog.succeeds_bind.mpr ⟨(), file, privVerify_ok_iff.mpr ⟨rfl, priv, rfl, hvalid⟩, ?_⟩
    refine Prog.succeeds_bind.mpr ⟨seed, file, load_ok_iff.mpr ⟨rfl, hrec, huse⟩, ?_⟩
    exact Prog.succeeds_bind.mpr ⟨seed', file, check_ok_iff.mpr ⟨rfl, hset⟩,
      store_succeeds_iff.mpr hfault⟩

/-- The accounts that are read at a moment. -/
def listed (m : Moment) (file : ShadowFile) : List Shadow :=
  if m.fault = none then file.accs.getD [] else []

/-- The accounts are listed. -/
theorem shadowList_run : shadowList m file = some (.ok (listed m file), file) := by
  unfold shadowList listed
  rcases hfault : m.fault with _ | err
  · rcases haccs : file.accs with _ | accs
    · have hread : shadowRead m file = some (.error .noent, file) := by
        unfold shadowRead
        rw [hfault]
        dsimp only
        rw [Prog.bind_ok (Prog.read_run _ _), haccs]
        rfl
      rw [Prog.bind_ok (Prog.attempt_run hread)]
      rfl
    · have hread : shadowRead m file = some (.ok accs, file) := by
        unfold shadowRead
        rw [hfault]
        dsimp only
        rw [Prog.bind_ok (Prog.read_run _ _), haccs]
        rfl
      rw [Prog.bind_ok (Prog.attempt_run hread)]
      rfl
  · have hread : shadowRead m file = some (.error err, file) := by
      unfold shadowRead
      rw [hfault]
      rfl
    rw [Prog.bind_ok (Prog.attempt_run hread)]
    rfl

/-- An account is loaded just when it is in the list. -/
theorem accountLoad_ok_iff {acc : Shadow} :
    shpamShadowAccountLoad m uid file = some (.ok acc, file') ↔
    file' = file ∧ ((listed m file).find? fun acc => acc.uid = uid) = some acc := by
  unfold shpamShadowAccountLoad
  rw [Prog.bind_ok shadowList_run]
  generalize (listed m file).find? (fun acc => acc.uid = uid) = found
  rcases found with _ | acc'
  · exact iff_of_false (fun h => nomatch h) (fun h => nomatch h.2)
  · constructor
    · intro h
      cases h
      exact ⟨rfl, rfl⟩
    · rintro ⟨rfl, h⟩
      cases h
      rfl

/-- An account is stored just when no fault occurs. -/
theorem accountStore_succeeds_iff {acc : Shadow} :
    (shpamShadowAccountStore m m' acc).Succeeds file ↔ m'.fault = none := by
  constructor
  · intro h
    obtain ⟨accs, s1, -, h⟩ := Prog.succeeds_bind.mp h
    unfold shadowWrite at h
    rcases hfault : m'.fault with _ | err
    · rfl
    · rw [hfault] at h
      exact absurd h (Prog.not_succeeds_fail err s1)
  · intro hfault
    refine Prog.succeeds_bind.mpr ⟨_, _, shadowList_run, ?_⟩
    unfold shadowWrite
    rw [hfault]
    exact Prog.succeeds_modify _ _

/-- What `shpam_shadow_set` needs besides the permission: a valid session, an account to
be changed, and a change that there is. -/
def SetReady (lib : PamLib) (c : Call) (file : ShadowFile) (uid : UInt64) (priv : Shpriv)
    (cmd : ShuserCmd) (raw : Option Bytes) (rawLen : Nat) : Prop :=
  ValidSession lib (c.moments 0) file priv ∧
  ∃ acc acc', ((listed (c.moments 2) file).find? fun acc => acc.uid = uid) = some acc ∧
    setField acc cmd raw rawLen = .ok acc' ∧ (c.moments 4).fault = none

/-- A field is set just when all is ready, and the caller is the user or may write. -/
theorem set_succeeds_iff {c : Call} {priv : Shpriv} {cmd : ShuserCmd} {raw : Option Bytes}
    {rawLen : Nat} :
    (shpamShadowSet lib c uid (some priv) cmd raw rawLen).Succeeds file ↔
      SetReady lib c file uid priv cmd raw rawLen ∧
      (c.euid = priv.uid ∨ ∃ seed, file.record lib priv.uid = some seed ∧
        Usable (c.moments 1) seed ∧ seed.perm &&& shpermWrite ≠ 0) := by
  have hbits : shpermWrite &&& (shpermRead ||| shpermWrite) ≠ 0 := by decide
  constructor
  · intro h
    obtain ⟨_, s1, hmay, h1⟩ := Prog.succeeds_bind.mp h
    obtain ⟨rfl, hvalid, hperm⟩ := perm_ok_iff.mp hmay
    obtain ⟨acc, s2, hload, h2⟩ := Prog.succeeds_bind.mp h1
    obtain ⟨rfl, hfind⟩ := accountLoad_ok_iff.mp hload
    obtain ⟨acc', s3, hcheck, h3⟩ := Prog.succeeds_bind.mp h2
    obtain ⟨rfl, hset⟩ := check_ok_iff.mp hcheck
    exact ⟨⟨hvalid, acc, acc', hfind, hset, accountStore_succeeds_iff.mp h3⟩,
      hperm.imp_left And.left⟩
  · rintro ⟨⟨hvalid, acc, acc', hfind, hset, hfault⟩, hperm⟩
    refine Prog.succeeds_bind.mpr ⟨(), file, perm_ok_iff.mpr ⟨rfl, hvalid, ?_⟩, ?_⟩
    · exact hperm.imp_left fun hown => ⟨hown, hbits⟩
    refine Prog.succeeds_bind.mpr ⟨acc, file, accountLoad_ok_iff.mpr ⟨rfl, hfind⟩, ?_⟩
    exact Prog.succeeds_bind.mpr ⟨acc', file, check_ok_iff.mpr ⟨rfl, hset⟩,
      accountStore_succeeds_iff.mpr hfault⟩

/-- `shpam_shadow_pass_set` and `shpam_shadow_set` succeed only with a session that the account may
be changed with, just when the session is such a one or the call fails for another reason.
`shpam_shadow_set` also asks a user other than the session's own for the permission. -/
theorem account_update_iff (lib : PamLib) (file : ShadowFile) (c : Call) (accName : Option Bytes)
    (uid : UInt64) (priv : Shpriv) (passData : Bytes) (cmd : ShuserCmd) (raw : Option Bytes)
    (rawLen : Nat) :
    (((shpamShadowPassSet lib c accName (some priv) passData).Succeeds file →
        Authorised lib (c.moments 0) file (shpamUid accName) priv) ↔
      (priv.uid = shpamUid accName ∨ MayWrite lib file priv.uid ∨
        ¬ PassSetReady lib c file accName priv passData)) ∧
    (((shpamShadowSet lib c uid (some priv) cmd raw rawLen).Succeeds file →
        Authorised lib (c.moments 0) file uid priv) ↔
      (priv.uid = uid ∨ MayWrite lib file priv.uid ∨ c.euid ≠ priv.uid ∨
        ¬ SetReady lib c file uid priv cmd raw rawLen)) := by
  -- when the calls succeed is known; what is left is who is authorised then
  rw [passSet_succeeds_iff, set_succeeds_iff]
  unfold Authorised
  constructor
  · constructor
    · intro h
      by_cases hready : PassSetReady lib c file accName priv passData
      · rcases (h hready).2 with hown | hwrite
        · exact Or.inl hown
        · exact Or.inr (Or.inl hwrite)
      · exact Or.inr (Or.inr hready)
    · rintro (hown | hwrite | hnot) hready
      · exact ⟨hready.1, Or.inl hown⟩
      · exact ⟨hready.1, Or.inr hwrite⟩
      · exact absurd hready hnot
  · constructor
    · intro h
      by_cases hready : SetReady lib c file uid priv cmd raw rawLen ∧ c.euid = priv.uid
      · rcases (h ⟨hready.1, Or.inl hready.2⟩).2 with hown | hwrite
        · exact Or.inl hown
        · exact Or.inr (Or.inl hwrite)
      · exact Or.inr (Or.inr ((not_and_or.mp hready).symm))
    · rintro hcond ⟨hready, hperm⟩
      refine ⟨hready.1, ?_⟩
      -- the user himself, or an account with the bit
      rcases hperm with huser | ⟨seed, hrec, -, hbit⟩
      · rcases hcond with hown | hwrite | hother | hnot
        · exact Or.inl hown
        · exact Or.inr hwrite
        · exact absurd huser hother
        · exact absurd hready hnot
      · exact Or.inr ⟨seed, hrec, hbit⟩

/-! ## A shadow file of two accounts -/

/-- Digests and signatures for runs on fixed inputs: every signature is accepted. -/
def PamLib.plain : PamLib :=
  { sha256 := fun data => data.take 32
    hmac := fun _ secret msg => secret ++ msg
    hkdfExpand := fun _ _ len => .ok (List.replicate len 0)
    algPriv := fun _ _ => .ok (Vector.replicate 312 0)
    algPub := fun _ _ => .ok (Vector.replicate 312 0)
    algSign := fun _ _ _ => .ok (Vector.replicate 312 0)
    algVer := fun _ _ _ _ => .ok ()
    pinModulo := fun len => UInt32.ofNat (10 ^ (len - 4)) }

/-- Nothing fails, and nothing expires. -/
def Moment.calm : Moment :=
  { fault := none, stamp := 1, after := fun _ => false, time := 0, rand := fun _ => 1,
    sysVerify := fun _ _ => false }

def Call.calm (euid : UInt64) : Call := { euid := euid, moments := fun _ => .calm }

/-- The account "test". -/
def testName : Option Bytes := some [116, 101, 115, 116]

/-- A seed without a password. -/
def openSeed (uid : UInt64) (perm : UInt32) : Shseed :=
  { perm := perm, uid := uid, stamp := 1, expire := 0, secret := Vector.replicate 8 uid
    auth := Vector.replicate 4 Shauth.zero }

def adminSeed : Shseed := openSeed (shpamUid none) shpermAdmin

def testSeed : Shseed := openSeed (shpamUid testName) (shpermRead ||| shpermVerify)

def adminSess : Shpriv :=
  { uid := shpamUid none, sess := sessionKey .plain .calm adminSeed }

/-- The accounts of the administrator and of the user "test". -/
def testFile : ShadowFile :=
  { tree := true
    accs := some [⟨shpamUid none, List.replicate 32 0, [], [], []⟩,
      ⟨shpamUid testName, List.replicate 32 0, [116, 101, 115, 116], [], []⟩]
    attrCred := true
    creds := fun key =>
      if key = credKey .plain (shpamUid none) then some adminSeed
      else if key = credKey .plain (shpamUid testName) then some testSeed
      else none }

/-- The administrator of the sample. -/
theorem testFile_admin : testFile.record .plain (shpamUid none) = some adminSeed := if_pos rfl

/-- The account `test` of the sample. -/
theorem testFile_test : testFile.record .plain (shpamUid testName) = some testSeed := by
  have hkey : credKey .plain (shpamUid testName) ≠ credKey .plain (shpamUid none) := by
    decide +kernel
  unfold ShadowFile.record testFile
  rw [if_pos rfl]
  simp only [if_neg hkey, if_true]

/-- Where no fault occurs a record that does not expire can be used. -/
theorem usable_calm (euid : UInt64) (i : Nat) (uid : UInt64) (perm : UInt32) :
    Usable ((Call.calm euid).moments i) (openSeed uid perm) :=
  ⟨rfl, fun h => h.1 rfl⟩

def testSess : Shpriv :=
  { uid := shpamUid testName, sess := sessionKey .plain .calm testSeed }

/-- The user "test" changes the password and the name of the administrator. -/
theorem unauthorised_updates :
    ¬ ((shpamShadowPassSet .plain (.calm (shpamUid testName)) none (some testSess)
      [120]).Succeeds testFile →
        Authorised .plain .calm testFile (shpamUid none) testSess) ∧
    ¬ ((shpamShadowSet .plain (.calm (shpamUid testName)) (shpamUid none) (some testSess) .realname
          (some [120]) 1).Succeeds testFile →
        Authorised .plain .calm testFile (shpamUid none) testSess) := by
  have hvalid : ValidSession .plain .calm testFile testSess :=
    ⟨testSeed, testFile_test, usable_calm 1 0 _ _, rfl⟩
  have hno : ¬ Authorised .plain .calm testFile (shpamUid none) testSess := by
    rintro ⟨-, hown | ⟨seed, hrec, hbit⟩⟩
    · exact absurd hown (by decide)
    · cases testFile_test.symm.trans hrec
      exact hbit (by decide)
  refine ⟨fun h => hno (h (passSet_succeeds_iff.mpr ?_)), fun h =>
    hno (h (set_succeeds_iff.mpr ?_))⟩
  · exact ⟨hvalid, adminSeed, _, testFile_admin, usable_calm _ 1 _ _, rfl, rfl⟩
  · exact ⟨⟨hvalid, _, _, rfl, rfl, rfl⟩, Or.inl rfl⟩

end LibShare.Sys
