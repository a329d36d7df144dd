import LibShare.Sys.Sessions

/-!
# libshare — removed accounts

What the removal of an account means for later logins, over every run of account
operations. `shpam_shadow_remove` takes the account from the list and leaves its seed,
which is all that `shpam_shadow_login` reads. A login to a removed account is refused only
when the seed would have refused it anyway (`login_after_remove_iff`).
-/

namespace LibShare.Sys

open Mem

variable {lib : PamLib} {file file' : ShadowFile} {m m' : Moment} {uid : UInt64}

/-! ## What operations leave as it is -/

section Frame

variable {α β : Type} {x : Pam α} {f : α → Pam β}

/-- The program changes nothing if it fails. -/
def Undone (x : Pam α) : Prop := ∀ file err file', x file = some (.error err, file') → file' = file

/-- The tree is the same, and an account that had a seed has the same seed. -/
structure Same (lib : PamLib) (uid : UInt64) (file file' : ShadowFile) : Prop where
  tree : file'.tree = file.tree
  record : ∀ seed, file.record lib uid = some seed → file'.record lib uid = some seed

/-- A file is the same for an account as itself. -/
theorem Same.refl (lib : PamLib) (uid : UInt64) (file : ShadowFile) : Same lib uid file file :=
  ⟨rfl, fun _ h => h⟩

/-- What two changes leave of an account is left by both. -/
theorem Same.trans {file'' : ShadowFile} (h : Same lib uid file file')
    (h' : Same lib uid file' file'') :
    Same lib uid file file'' :=
  ⟨h'.tree.trans h.tree, fun seed hrec => h'.record seed (h.record seed hrec)⟩

/-- Whatever the program does, it does not change the seed of the account. -/
def Leaves (lib : PamLib) (uid : UInt64) (x : Pam α) : Prop :=
  ∀ file r file', x file = some (r, file') → Same lib uid file file'

/-- A program that changes nothing leaves every account. -/
theorem leaves_of_reads (h : Prog.Reads x) : Leaves lib uid x := by
  intro file r file' hrun
  rw [h file r file' hrun]
  exact Same.refl lib uid file

/-- Programs that leave an account may be bound. -/
theorem Leaves.bind (hx : Leaves lib uid x) (hf : ∀ a, Leaves lib uid (f a)) :
    Leaves lib uid (x >>= f) := by
  intro file r file' hrun
  rcases Prog.bind_inv hrun with ⟨e, he, -⟩ | ⟨a, s1, ha, hrest⟩
  · exact hx file _ file' he
  · exact (hx file _ s1 ha).trans (hf a s1 r file' hrest)

/-- Something is read first, and then a program runs that leaves the account. -/
theorem Leaves.after (hx : Prog.Reads x) (hf : ∀ a, Leaves lib uid (f a)) :
    Leaves lib uid (x >>= f) :=
  (leaves_of_reads hx).bind hf

/-- Something is read first, and then a program runs that changes nothing when it fails. -/
theorem Undone.bind (hx : Prog.Reads x) (hf : ∀ a, Undone (f a)) : Undone (x >>= f) := by
  intro file err file' hrun
  rcases Prog.bind_inv hrun with ⟨e, he, -⟩ | ⟨a, s1, ha, hrest⟩
  · exact hx file _ file' he
  · rw [hf a s1 err file' hrest]
    exact hx file _ s1 ha

/-- What comes after the program does not fail. -/
theorem Undone.bind_safe (hx : Undone x) (hf : ∀ a file, ¬ (f a).Fails file) :
    Undone (x >>= f) := by
  intro file err file' hrun
  rcases Prog.bind_inv hrun with ⟨e, he, -⟩ | ⟨a, s1, -, hrest⟩
  · exact hx file e file' he
  · exact absurd ⟨err, file', hrest⟩ (hf a s1)

/-- A program that changes nothing has nothing to undo. -/
theorem undone_of_reads (h : Prog.Reads x) : Undone x :=
  fun file _ file' hrun => h file _ file' hrun

theorem reads_check (r : Except Sherr α) : Prog.Reads (check r) := by
  rcases r with err | a
  · exact Prog.reads_fail err
  · exact Prog.reads_pure a

end Frame

theorem reads_shadowList (m : Moment) : Prog.Reads (shadowList m) := by
  have hread : Prog.Reads (shadowRead m) := by
    unfold shadowRead
    split
    · exact Prog.reads_fail _
    · refine (Prog.reads_read _).bind ?_
      rintro (_ | accs)
      · exact Prog.reads_fail _
      · exact Prog.reads_pure accs
  refine hread.attempt.bind ?_
  rintro (err | accs)
  · exact Prog.reads_pure []
  · exact Prog.reads_pure accs

theorem reads_accountLoad (m : Moment) (uid : UInt64) :
    Prog.Reads (shpamShadowAccountLoad m uid) := by
  refine (reads_shadowList m).bind ?_
  intro accs
  split
  · exact Prog.reads_fail _
  · exact Prog.reads_pure _

theorem reads_load (m : Moment) (uid : UInt64) : Prog.Reads (shpamPshadowLoad lib m uid) := by
  intro file r file' hrun
  rcases load_run lib m uid file with ⟨_, _, _, h⟩ | ⟨_, _, h⟩
  all_goals
    rw [h] at hrun
    cases hrun
    rfl

/-- A session is looked up without a change. -/
theorem reads_session (m : Moment) (uid : UInt64) : Prog.Reads (shpamShadowSession lib m uid) :=
  (reads_load m uid).bind fun _ => Prog.reads_pure _

/-- A right is verified without a change. -/
theorem reads_privVerify (m : Moment) (priv : Option Shpriv) :
    Prog.Reads (shpamShadowPrivVerify lib m priv) := by
  rcases priv with _ | sess
  · exact Prog.reads_fail _
  · refine (reads_load m sess.uid).bind ?_
    intro seed
    split
    · exact Prog.reads_fail _
    · exact Prog.reads_pure ()

/-- The record of an account is read for its rights without a change. -/
theorem reads_permSeed (m : Moment) (uid : UInt64) (perm : UInt32) :
    Prog.Reads (permSeed lib m uid perm) := by
  refine (reads_load m uid).attempt.bind ?_
  intro r
  split
  · exact Prog.reads_fail _
  · exact Prog.reads_fail _
  · split
    · exact Prog.reads_fail _
    · exact Prog.reads_pure ()

/-- Whether a caller has a right is found out without a change. -/
theorem reads_perm (euid : UInt64) (m m' : Moment) (priv : Option Shpriv) (perm : UInt32) :
    Prog.Reads (shpamShadowPerm lib euid m m' priv perm) := by
  refine Prog.Reads.bind ?_ ?_
  · rcases priv with _ | sess
    · exact Prog.reads_pure euid
    · exact (reads_privVerify m _).bind fun _ => Prog.reads_pure _
  · intro privUid
    split
    · exact Prog.reads_pure ()
    · exact reads_permSeed m' privUid perm

/-- The list of the accounts is written without a change to the credentials. -/
theorem leaves_shadowWrite (m : Moment) (accs : List Shadow) :
    Leaves lib uid (shadowWrite m accs) := by
  unfold shadowWrite
  split
  · exact leaves_of_reads (Prog.reads_fail _)
  · intro file r file' hrun
    cases hrun
    exact ⟨rfl, fun _ h => h⟩

/-- An account is stored without a change to the credentials. -/
theorem leaves_accountStore (m m' : Moment) (acc : Shadow) :
    Leaves lib uid (shpamShadowAccountStore m m' acc) :=
  Leaves.after (reads_shadowList m) fun _ => leaves_shadowWrite m' _

/-- A seed is stored under another key. -/
theorem leaves_store {uid' : UInt64} (hkey : credKey lib uid' ≠ credKey lib uid) (m : Moment)
    (seed : Shseed) : Leaves lib uid (shpamPshadowStore lib m uid' seed) := by
  unfold shpamPshadowStore
  split
  · exact leaves_of_reads (Prog.reads_fail _)
  · intro file r file' hrun
    cases hrun
    refine ⟨rfl, ?_⟩
    intro seed' hrec
    unfold ShadowFile.record at hrec ⊢
    rcases hattr : file.attrCred with _ | _
    · rw [hattr] at hrec
      cases hrec
    · rw [hattr] at hrec
      show Function.update file.creds (credKey lib uid') (some seed) (credKey lib uid) = some seed'
      rw [Function.update_of_ne hkey.symm]
      exact hrec

/-- A record that cannot be stored leaves the file as it was. -/
theorem undone_store (m : Moment) (uid : UInt64) (seed : Shseed) :
    Undone (shpamPshadowStore lib m uid seed) := by
  intro file err file' hrun
  unfold shpamPshadowStore at hrun
  rcases hfault : m.fault with _ | err'
  · rw [hfault] at hrun
    cases hrun
  · rw [hfault] at hrun
    exact Prog.reads_fail _ file _ file' hrun

/-! ## Runs -/

/-- The operations on accounts. -/
inductive AccountOp
  | create (accName : Option Bytes) (priv : Option Shpriv)
  | login (accName : Option Bytes) (code2fa : UInt32) (passData : Bytes)
  | passSet (accName : Option Bytes) (priv : Option Shpriv) (passData : Bytes)
  | remove (uid : UInt64) (priv : Option Shpriv)
  | set (uid : UInt64) (priv : Option Shpriv) (cmd : ShuserCmd) (raw : Option Bytes) (rawLen : Nat)
  | remoteSet (uid : UInt64) (auth : Option Shauth)

/-- An operation with its status. -/
def AccountOp.run (lib : PamLib) (c : Call) : AccountOp → Pam Unit
  | .create accName priv => do
    let _ ← shpamShadowCreate lib c accName priv
    return ()
  | .login accName code2fa passData => do
    let _ ← shpamShadowLogin lib c accName code2fa passData
    return ()
  | .passSet accName priv passData => shpamShadowPassSet lib c accName priv passData
  | .remove uid priv => shpamShadowRemove lib c uid priv
  | .set uid priv cmd raw rawLen => shpamShadowSet lib c uid priv cmd raw rawLen
  | .remoteSet uid auth => shpamShadowRemoteSet lib c uid auth

/-- An operation that was called, and how it ended. -/
structure AccountEvent where
  call : Call
  op : AccountOp
  status : Except Sherr Unit

/-- A run of operations. -/
inductive Runs (lib : PamLib) : ShadowFile → List AccountEvent → ShadowFile → Prop
  | nil (file : ShadowFile) : Runs lib file [] file
  | cons {file file' file'' : ShadowFile} {ev : AccountEvent} {evs : List AccountEvent} :
    ev.op.run lib ev.call file = some (ev.status, file') → Runs lib file' evs file'' →
    Runs lib file (ev :: evs) file''

/-- An event that gives the account no new seed: it is not created, not even by
half, and no change of its passwords succeeds. -/
def AccountEvent.Quiet (lib : PamLib) (uid : UInt64) (ev : AccountEvent) : Prop :=
  match ev.op with
  | .create accName _ => credKey lib (shpamUid accName) = credKey lib uid →
      ev.status ≠ .ok () ∧ (ev.call.moments 6).fault = none
  | .passSet accName _ _ => credKey lib (shpamUid accName) = credKey lib uid → ev.status ≠ .ok ()
  | .remoteSet uid' _ => credKey lib uid' = credKey lib uid → ev.status ≠ .ok ()
  | _ => True

theorem reads_mayCreate {c : Call} {priv : Option Shpriv} :
    Prog.Reads (mayCreate lib c uid priv) := by
  unfold mayCreate
  split
  · exact Prog.reads_pure ()
  · rcases priv with _ | sess
    · dsimp only
      split
      · exact Prog.reads_fail _
      · exact Prog.reads_pure ()
    · exact reads_perm c.euid _ _ (some sess) shpermCreate

theorem reads_uidVerify : Prog.Reads (shpamShadowUidVerify lib m m' uid) :=
  (reads_accountLoad _ _).bind fun _ => (reads_load _ _).bind fun _ => Prog.reads_pure ()

/-- The two records of a new account, and its session. -/
def makeAccount (lib : PamLib) (c : Call) (accName : Option Bytes) : Pam (Option Shpriv) := do
  shpamPshadowCreate lib (c.moments 4) (shpamUid accName)
  shpamShadowAccountCreate (c.moments 5) (c.moments 6) accName
  match ← (shpamShadowSession lib (c.moments 7) (shpamUid accName)).attempt with
  | .error _ => return none
  | .ok sess => return some sess

/-- A new account leaves the record of an account with another key. -/
theorem leaves_makeAccount {c : Call} {accName : Option Bytes}
    (hkey : credKey lib (shpamUid accName) ≠ credKey lib uid) :
    Leaves lib uid (makeAccount lib c accName) := by
  refine (leaves_store hkey _ _).bind fun _ => (leaves_accountStore _ _ _).bind fun _ => ?_
  refine Leaves.after (reads_session _ _).attempt ?_
  rintro (err | sess)
  · exact leaves_of_reads (Prog.reads_pure _)
  · exact leaves_of_reads (Prog.reads_pure _)

/-- The creation of an account leaves the record of an account with another key. -/
theorem leaves_create {c : Call} {accName : Option Bytes} {priv : Option Shpriv}
    (hkey : credKey lib (shpamUid accName) ≠ credKey lib uid) :
    Leaves lib uid (shpamShadowCreate lib c accName priv) := by
  refine Leaves.after reads_mayCreate fun _ => Leaves.after reads_uidVerify.attempt ?_
  rintro (err | u)
  · cases err
    case noent => exact leaves_makeAccount hkey
    all_goals exact leaves_of_reads (Prog.reads_fail _)
  · exact leaves_of_reads (Prog.reads_fail _)

/-- Without a fault an account is stored. -/
theorem accountStore_not_fails {acc : Shadow} (hfault : m'.fault = none) :
    ¬ (shpamShadowAccountStore m m' acc).Fails file := by
  rintro ⟨err, s1, h⟩
  obtain ⟨u, s2, hok⟩ : (shpamShadowAccountStore m m' acc).Succeeds file :=
    accountStore_succeeds_iff.mpr hfault
  cases h.symm.trans hok

/-- When an account cannot be made, the file is as it was, if the last write has no fault. -/
theorem undone_makeAccount {c : Call} {accName : Option Bytes}
    (hfault : (c.moments 6).fault = none) :
    Undone (makeAccount lib c accName) := by
  refine (undone_store _ _ _).bind_safe ?_
  intro _ file h
  rcases Prog.fails_bind.mp h with h | ⟨_, s1, -, h⟩
  · exact accountStore_not_fails hfault h
  · rcases Prog.fails_bind.mp h with h | ⟨r, s2, -, h⟩
    · exact Prog.not_fails_attempt _ h
    · rcases r with err | sess
      · exact Prog.not_fails_pure _ _ h
      · exact Prog.not_fails_pure _ _ h

/-- A creation that fails, but not with the list of accounts, changes nothing. -/
theorem undone_create {c : Call} {accName : Option Bytes} {priv : Option Shpriv}
    (hfault : (c.moments 6).fault = none) : Undone (shpamShadowCreate lib c accName priv) := by
  refine Undone.bind reads_mayCreate fun _ => Undone.bind reads_uidVerify.attempt ?_
  rintro (err | u)
  · cases err
    case noent => exact undone_makeAccount hfault
    all_goals exact undone_of_reads (Prog.reads_fail _)
  · exact undone_of_reads (Prog.reads_fail _)

/-- A login changes nothing. -/
theorem reads_login {c : Call} {accName : Option Bytes} {code2fa : UInt32} {passData : Bytes} :
    Prog.Reads (shpamShadowLogin lib c accName code2fa passData) := by
  refine (Prog.reads_read _).bind ?_
  intro tree
  split
  · exact Prog.reads_fail _
  · refine (reads_load _ _).bind fun seed => (reads_check _).bind fun _ =>
      (reads_check _).bind fun _ => ?_
    refine (reads_session _ _).attempt.bind fun sess => Prog.Reads.bind ?_ fun _ =>
      Prog.reads_pure _
    unfold mayLogin
    split
    · exact Prog.reads_pure ()
    · rcases sess with err | sess
      · exact Prog.reads_undef
      · exact reads_perm c.euid _ _ (some sess) shpermVerify

/-- A password that cannot be set leaves the file as it was. -/
theorem undone_passSet {c : Call} {accName : Option Bytes} {priv : Option Shpriv}
    {passData : Bytes} :
    Undone (shpamShadowPassSet lib c accName priv passData) :=
  Undone.bind (reads_privVerify _ _) fun _ => Undone.bind (reads_load _ _) fun _ =>
    Undone.bind (reads_check _) fun _ => undone_store _ _ _

/-- A password leaves the record of an account with another key. -/
theorem leaves_passSet {c : Call} {accName : Option Bytes} {priv : Option Shpriv} {passData : Bytes}
    (hkey : credKey lib (shpamUid accName) ≠ credKey lib uid) :
    Leaves lib uid (shpamShadowPassSet lib c accName priv passData) :=
  Leaves.after (reads_privVerify _ _) fun _ => Leaves.after (reads_load _ _) fun _ =>
    Leaves.after (reads_check _) fun _ => leaves_store hkey _ _

/-- A remote method that cannot be set leaves the file as it was. -/
theorem undone_remoteSet {c : Call} {uid' : UInt64} {auth : Option Shauth} :
    Undone (shpamShadowRemoteSet lib c uid' auth) :=
  Undone.bind (reads_load _ _) fun _ => Undone.bind (reads_check _) fun _ => undone_store _ _ _

/-- A remote method leaves the record of an account with another key. -/
theorem leaves_remoteSet {c : Call} {uid' : UInt64} {auth : Option Shauth}
    (hkey : credKey lib uid' ≠ credKey lib uid) :
    Leaves lib uid (shpamShadowRemoteSet lib c uid' auth) :=
  Leaves.after (reads_load _ _) fun _ => Leaves.after (reads_check _) fun _ => leaves_store hkey _ _

/-- A removal takes the account out of the list and leaves the credentials of all. -/
theorem leaves_remove {c : Call} {uid' : UInt64} {priv : Option Shpriv} :
    Leaves lib uid (shpamShadowRemove lib c uid' priv) :=
  Leaves.after (reads_perm _ _ _ _ _) fun _ => Leaves.after (reads_load _ _) fun _ =>
    Leaves.after (Prog.reads_pure ()) fun _ => Leaves.after (reads_shadowList _) fun _ =>
      leaves_shadowWrite _ _

theorem reads_maySet {c : Call} {priv : Option Shpriv} : Prog.Reads (maySet lib c uid priv) := by
  rcases priv with _ | sess
  · unfold maySet
    dsimp only
    split
    · exact Prog.reads_fail _
    · exact Prog.reads_pure ()
  · exact reads_perm c.euid _ _ (some sess) shpermWrite

/-- A field is set without a change to the credentials. -/
theorem leaves_set {c : Call} {uid' : UInt64} {priv : Option Shpriv} {cmd : ShuserCmd}
    {raw : Option Bytes} {rawLen : Nat} :
    Leaves lib uid (shpamShadowSet lib c uid' priv cmd raw rawLen) :=
  Leaves.after reads_maySet fun _ => Leaves.after (reads_accountLoad _ _) fun _ =>
    Leaves.after (reads_check _) fun _ => leaves_accountStore _ _ _

/-- An operation that does not store under the key of the account, or is undone
when it does. -/
theorem same_of_quiet {x : Pam Unit} {r : Except Sherr Unit} {k : ShKey}
    (hleaves : k ≠ credKey lib uid → Leaves lib uid x)
    (hquiet : k = credKey lib uid → r ≠ .ok () ∧ Undone x)
    (hrun : x file = some (r, file')) : Same lib uid file file' := by
  by_cases hkey : k = credKey lib uid
  · obtain ⟨hstatus, hundone⟩ := hquiet hkey
    rcases r with err | u
    · rw [hundone file err file' hrun]
      exact Same.refl lib uid file
    · exact absurd rfl hstatus
  · exact hleaves hkey file r file' hrun

/-- One event. -/
theorem AccountEvent.Quiet.same {ev : AccountEvent} (hquiet : ev.Quiet lib uid)
    (hrun : ev.op.run lib ev.call file = some (ev.status, file')) : Same lib uid file file' := by
  obtain ⟨c, op, r⟩ := ev
  rcases op with ⟨accName, priv⟩ | ⟨accName, code2fa, passData⟩ | ⟨accName, priv, passData⟩ |
      ⟨uid', priv⟩ |
    ⟨uid', priv, cmd, raw, rawLen⟩ | ⟨uid', auth⟩
  · refine same_of_quiet (fun hkey => (leaves_create hkey).bind fun _ =>
      (leaves_of_reads (Prog.reads_pure ()))) ?_ hrun
    intro hkey
    obtain ⟨hstatus, hfault⟩ := hquiet hkey
    exact ⟨hstatus, (undone_create hfault).bind_safe fun _ _ => Prog.not_fails_pure _ _⟩
  · exact (Leaves.after reads_login fun _ =>
      (leaves_of_reads (Prog.reads_pure ()))) file r file' hrun
  · exact same_of_quiet leaves_passSet (fun hkey => ⟨hquiet hkey, undone_passSet⟩) hrun
  · exact leaves_remove file r file' hrun
  · exact leaves_set file r file' hrun
  · exact same_of_quiet leaves_remoteSet (fun hkey => ⟨hquiet hkey, undone_remoteSet⟩) hrun

/-- A run of events that give the account no new seed. -/
theorem Runs.same {evs : List AccountEvent} (hrun : Runs lib file evs file')
    (hquiet : ∀ ev ∈ evs, ev.Quiet lib uid) : Same lib uid file file' := by
  induction hrun with
  | nil file => exact Same.refl lib uid file
  | cons hstep _ ih =>
    have hone := (hquiet _ List.mem_cons_self).same hstep
    exact hone.trans (ih fun ev hmem => hquiet ev (List.mem_cons_of_mem _ hmem))

/-! ## Removal -/

/-- An account that has been removed has a seed. -/
theorem remove_record {c : Call} {priv : Option Shpriv}
    (hrun : shpamShadowRemove lib c uid priv file = some (.ok (), file')) :
    ∃ seed, file.record lib uid = some seed := by
  rcases Prog.bind_inv hrun with ⟨e, -, he⟩ | ⟨u, s1, hperm, hrest⟩
  · cases he
  · cases reads_perm _ _ _ _ _ file _ s1 hperm
    rcases Prog.bind_inv hrest with ⟨e, -, he⟩ | ⟨seed, s2, hload, -⟩
    · cases he
    · exact ⟨seed, (load_ok_iff.mp hload).2.1⟩

/-- After an account has been removed and until it has been created again, a login to
it fails exactly when the seed that it had refuses the login. The events in between
are any that give the account no new seed. -/
theorem login_after_remove_iff (lib : PamLib) (file file' file'' : ShadowFile) (c : Call)
    (uid : UInt64)
    (priv : Option Shpriv) (hremove : shpamShadowRemove lib c uid priv file = some (.ok (), file'))
    (evs : List AccountEvent) (hquiet : ∀ ev ∈ evs, ev.Quiet lib uid)
    (hrun : Runs lib file' evs file'')
    (c' : Call) (accName : Option Bytes) (hname : shpamUid accName = uid) (code2fa : UInt32)
    (passData : Bytes) :
    (shpamShadowLogin lib c' accName code2fa passData).Fails file'' ↔
      ∀ seed, file.record lib uid = some seed →
        Refuses lib c' file.tree seed accName code2fa passData := by
  -- removing leaves the seed, and so do the events between
  obtain ⟨seed, hrec⟩ := remove_record hremove
  have hsame := (leaves_remove file _ file' hremove).trans (hrun.same hquiet)
  have hrec'' := hsame.record seed hrec
  rw [← hname] at hrec''
  rw [login_fails_iff hrec'', hsame.tree]
  constructor
  · intro h seed' hrec'
    cases hrec.symm.trans hrec'
    exact h
  · intro h
    exact h seed hrec

set_option maxRecDepth 4096 in
/-- The administrator removes the account "test". -/
theorem testFile_remove : ∃ file', shpamShadowRemove .plain (.calm 1) (shpamUid testName)
    (some adminSess) testFile = some (.ok (), file') := by
  refine ⟨_, (Prog.bind_ok (a := ()) (perm_ok_iff.mpr ⟨rfl, ?_, Or.inr ?_⟩)).trans
    ((Prog.bind_ok (load_ok_iff.mpr ⟨rfl, testFile_test, usable_calm 1 2 _ _⟩)).trans rfl)⟩
  · exact ⟨adminSeed, testFile_admin, usable_calm 1 0 _ _, rfl⟩
  · exact ⟨adminSeed, testFile_admin, usable_calm 1 1 _ _, by decide⟩

/-- The record of the account `test` does not refuse its login. -/
theorem testSeed_accepts :
    ¬ Refuses .plain (.calm (shpamUid testName)) true testSeed testName 0 [] := by
  rintro (h | h | h | h | h)
  · cases h
  · exact h (usable_calm _ 0 _ _)
  · exact h (by decide)
  · exact h (by decide)
  · exact h.1 rfl

/-- The user "test" logs in after the account has been removed. -/
theorem removed_account_logs_in : ∃ file', shpamShadowRemove .plain (.calm 1) (shpamUid testName)
    (some adminSess) testFile = some (.ok (), file') ∧
    ¬ (shpamShadowLogin .plain (.calm (shpamUid testName)) testName 0 []).Fails file' := by
  obtain ⟨file', hremove⟩ := testFile_remove
  have hsame : Same .plain (shpamUid testName) testFile file' :=
    leaves_remove testFile _ file' hremove
  refine ⟨file', hremove, ?_⟩
  rw [login_fails_iff (hsame.record _ testFile_test), hsame.tree]
  exact testSeed_accepts

/-- The account `test` is removed by the administrator. Its record has been kept, so that the
condition is about the seed in it. -/
theorem login_after_remove_iff_test :
    ∃ file', shpamShadowRemove .plain (.calm 1) (shpamUid testName)
    (some adminSess) testFile = some (.ok (), file') ∧
    ((shpamShadowLogin .plain (.calm 2) testName 0 []).Fails file' ↔
      ∀ seed, testFile.record .plain (shpamUid testName) = some seed →
        Refuses .plain (.calm 2) testFile.tree seed testName 0 []) := by
  obtain ⟨file', hremove⟩ := testFile_remove
  exact ⟨file', hremove, login_after_remove_iff .plain testFile file' file' (.calm 1)
    (shpamUid testName)
    (some adminSess) hremove [] (fun _ hmem =>
      nomatch hmem) (.nil file') (.calm 2) testName rfl 0 []⟩

end LibShare.Sys
