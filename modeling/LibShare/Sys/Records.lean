import LibShare.Sys.Accounts

/-!
# libshare — records of the shadow file

The list of accounts in the shadow file as a map from account numbers to records, and
the fields of a record as `shpam_shadow_set` writes them.

* `account_file_refines_map`: in any sequence of stores and removals on an empty file a call
  succeeds just when its write does, and afterwards the record of an account is the last one
  stored, and no number occurs twice.
* `fields_kept`: what has been set in an account is what is read from it, and the name
  of the account stays as it was, in every run without a real name. A real name is written over the
  name of the account (`name_overwritten`), and never to the field from which
  `shpam_shadow_json` takes it.
-/

namespace LibShare.Sys

open Mem

/-! ## The list as a map -/

/-- The record with a number. -/
def findAccount (accs : List Shadow) (uid : UInt64) : Option Shadow :=
  accs.find? fun acc => acc.uid = uid

/-- The first account of a number is found. -/
theorem findAccount_cons (acc : Shadow) (accs : List Shadow) (uid : UInt64) :
    findAccount (acc :: accs) uid = if acc.uid = uid then some acc else findAccount accs uid := by
  rw [findAccount, List.find?_cons]
  by_cases h : acc.uid = uid
  · rw [if_pos h, decide_eq_true h]
  · rw [if_neg h, decide_eq_false h, findAccount]

/-- An account that is put is found under its number, and the others under theirs. -/
theorem findAccount_putAccount (acc : Shadow) (uid : UInt64) (accs : List Shadow) :
    findAccount (putAccount acc accs) uid =
      if acc.uid = uid then some acc else findAccount accs uid := by
  induction accs with
  | nil => rw [putAccount, findAccount_cons]
  | cons other rest ih =>
    rw [putAccount]
    split_ifs with hsame huid huid
    · rw [findAccount_cons, if_pos huid]
    · rw [findAccount_cons, findAccount_cons, if_neg huid, if_neg (hsame ▸ huid)]
    · rw [findAccount_cons, ih, if_pos huid, if_neg (fun h => hsame (h.trans huid.symm))]
    · rw [findAccount_cons, findAccount_cons, ih, if_neg huid]

/-- An account that is removed is not found, and the others are. -/
theorem findAccount_filter (remUid uid : UInt64) (accs : List Shadow) :
    findAccount (accs.filter fun acc => acc.uid ≠ remUid) uid =
      if uid = remUid then none else findAccount accs uid := by
  induction accs with
  | nil => exact (ite_self none).symm
  | cons acc rest ih =>
    by_cases hrem : acc.uid = remUid
    · rw [List.filter_cons_of_neg (by simpa using hrem), ih, findAccount_cons]
      split_ifs with huid hacc
      · rfl
      · exact absurd (hacc.symm.trans hrem) huid
      · rfl
    · rw [List.filter_cons_of_pos (by simpa using hrem), findAccount_cons, findAccount_cons, ih]
      split_ifs with hacc huid
      · exact absurd (hacc.trans huid) hrem
      · rfl
      · rfl
      · rfl

/-- The numbers after an account has been put. -/
theorem mem_uids_putAccount (acc : Shadow) (uid : UInt64) (accs : List Shadow) :
    uid ∈ (putAccount acc accs).map Shadow.uid ↔ uid = acc.uid ∨ uid ∈ accs.map Shadow.uid := by
  induction accs with
  | nil => rw [putAccount, List.map_cons, List.map_nil, List.mem_cons]
  | cons other rest ih =>
    rw [putAccount]
    split_ifs with hsame
    · rw [List.map_cons, List.map_cons, List.mem_cons, List.mem_cons, hsame]
      exact ⟨Or.inr, fun h => h.elim Or.inl id⟩
    · rw [List.map_cons, List.map_cons, List.mem_cons, List.mem_cons, ih]
      exact or_left_comm

/-- The numbers stay distinct. -/
theorem nodup_putAccount (acc : Shadow) {accs : List Shadow} (h : (accs.map Shadow.uid).Nodup) :
    ((putAccount acc accs).map Shadow.uid).Nodup := by
  induction accs with
  | nil => exact List.nodup_singleton _
  | cons other rest ih =>
    rw [List.map_cons, List.nodup_cons] at h
    rw [putAccount]
    split_ifs with hsame
    · rw [List.map_cons, List.nodup_cons, ← hsame]
      exact h
    · rw [List.map_cons, List.nodup_cons, mem_uids_putAccount, not_or]
      exact ⟨⟨hsame, h.1⟩, ih h.2⟩

/-! ## Stores and removals -/

/-- A call on the file; it reads at one moment and writes at another. -/
inductive AccountCall
  | store (read write : Moment) (acc : Shadow)
  | remove (read write : Moment) (uid : UInt64)

/-- The moment at which the file is read. -/
def AccountCall.read : AccountCall → Moment
  | .store m _ _ => m
  | .remove m _ _ => m

/-- The moment at which it is written. -/
def AccountCall.write : AccountCall → Moment
  | .store _ m' _ => m'
  | .remove _ m' _ => m'

def AccountCall.prog : AccountCall → Pam Unit
  | .store m m' acc => shpamShadowAccountStore m m' acc
  | .remove m m' uid => shpamShadowAccountRemove m m' uid

/-- The records by number. -/
abbrev AccountMap := UInt64 → Option Shadow

/-- What is to become of the map. -/
def AccountCall.edit : AccountCall → AccountMap → AccountMap
  | .store _ _ acc, map => Function.update map acc.uid (some acc)
  | .remove _ _ uid, map => Function.update map uid none

/-- The status of a call is that of its write. -/
def AccountCall.status (call : AccountCall) : Except Sherr Unit :=
  match call.write.fault with
  | none => .ok ()
  | some err => .error err

/-- The map after a call. One that cannot write changes nothing. -/
def AccountCall.spec (call : AccountCall) (map : AccountMap) : AccountMap :=
  match call.write.fault with
  | none => call.edit map
  | some _ => map

/-- The map after a list of calls, from no records. -/
def accountMap (calls : List AccountCall) : AccountMap :=
  calls.foldl (fun map call => call.spec map) fun _ => none

/-- A list of calls, with what they return. -/
def accountRun : List AccountCall → ShadowFile → Option (List (Except Sherr Unit) × ShadowFile)
  | [], file => some ([], file)
  | call :: calls, file =>
    match call.prog file with
    | none => none
    | some (res, file') => (accountRun calls file').map fun r => (res :: r.1, r.2)

/-- The records of the file are those of the map. -/
structure Tabulates (file : ShadowFile) (map : AccountMap) : Prop where
  nodup : ((file.accs.getD []).map Shadow.uid).Nodup
  find : ∀ uid, findAccount (file.accs.getD []) uid = map uid

/-- The list that a call writes. -/
def AccountCall.list : AccountCall → List Shadow → List Shadow
  | .store _ _ acc, accs => putAccount acc accs
  | .remove _ _ uid, accs => accs.filter fun acc => acc.uid ≠ uid

/-- A call whose read has no fault writes the list that it makes. -/
theorem AccountCall.prog_eq {call : AccountCall} {file : ShadowFile}
    (hread : call.read.fault = none) :
    call.prog file = shadowWrite call.write (call.list (file.accs.getD [])) file := by
  cases call with
  | store m m' acc =>
    have hlist : listed m file = file.accs.getD [] := if_pos hread
    rw [AccountCall.prog, shpamShadowAccountStore, Prog.bind_ok shadowList_run, hlist]
    rfl
  | remove m m' uid =>
    have hlist : listed m file = file.accs.getD [] := if_pos hread
    rw [AccountCall.prog, shpamShadowAccountRemove, Prog.bind_ok shadowList_run, hlist]
    rfl

/-- The list that is written is that of the map. -/
theorem Tabulates.list {file : ShadowFile} {map : AccountMap} (h : Tabulates file map)
    (call : AccountCall) :
    Tabulates { file with accs := some (call.list (file.accs.getD [])) } (call.edit map) := by
  cases call with
  | store m m' acc =>
    refine ⟨nodup_putAccount acc h.nodup, fun uid => ?_⟩
    rw [AccountCall.edit, Option.getD_some, AccountCall.list, findAccount_putAccount, h.find]
    split_ifs with huid
    · rw [huid, Function.update_self]
    · rw [Function.update_of_ne (Ne.symm huid)]
  | remove m m' uid =>
    refine ⟨h.nodup.sublist (List.filter_sublist.map Shadow.uid), fun uid' => ?_⟩
    rw [AccountCall.edit, Option.getD_some, AccountCall.list, findAccount_filter, h.find]
    split_ifs with huid
    · rw [huid, Function.update_self]
    · rw [Function.update_of_ne huid]

/-- The list is written, unless a fault occurs. -/
theorem shadowWrite_run (m' : Moment) (accs : List Shadow) (file : ShadowFile) :
    (m'.fault = none ∧ shadowWrite m' accs file = some (.ok (), { file with accs := some accs })) ∨
      ∃ err, m'.fault = some err ∧ shadowWrite m' accs file = some (.error err, file) := by
  unfold shadowWrite
  rcases m'.fault with _ | err
  · exact .inl ⟨rfl, rfl⟩
  · exact .inr ⟨err, rfl, rfl⟩

/-- Step lemma: a call whose read does not fail. -/
theorem Tabulates.call {file : ShadowFile} {map : AccountMap} (h : Tabulates file map)
    {call : AccountCall}
    (hread : call.read.fault = none) :
    ∃ file', call.prog file = some (call.status, file') ∧ Tabulates file' (call.spec map) := by
  rw [AccountCall.prog_eq hread, AccountCall.status, AccountCall.spec]
  obtain ⟨hcalm, hw⟩ | ⟨err, hfault, hw⟩ :=
    shadowWrite_run call.write (call.list (file.accs.getD [])) file
  · rw [hw, hcalm]
    exact ⟨_, rfl, h.list call⟩
  · rw [hw, hfault]
    exact ⟨file, rfl, h⟩

/-- Run lemma. -/
theorem Tabulates.run {calls : List AccountCall} (hread : ∀ call ∈ calls, call.read.fault = none)
    {file : ShadowFile} {map : AccountMap} (h : Tabulates file map) :
    ∃ file', accountRun calls file = some (calls.map AccountCall.status, file') ∧
      Tabulates file' (calls.foldl (fun map call => call.spec map) map) := by
  induction calls generalizing file map with
  | nil => exact ⟨file, rfl, h⟩
  | cons call calls ih =>
    obtain ⟨file', hrun, h'⟩ := h.call (hread call List.mem_cons_self)
    obtain ⟨file'', hrest, h''⟩ := ih (fun c hc => hread c (List.mem_cons_of_mem _ hc)) h'
    refine ⟨file'', ?_, h''⟩
    rw [accountRun, hrun]
    dsimp only
    rw [hrest]
    rfl

/-- How `_shpam_shadow_account_load` answers, given the record. -/
def loaded : Option Shadow → Except Sherr Shadow
  | none => .error .noent
  | some acc => .ok acc

/-- An account is loaded if it is in the list. -/
theorem accountLoad_run (m : Moment) (uid : UInt64) (file : ShadowFile) :
    shpamShadowAccountLoad m uid file = some (loaded (findAccount (listed m file) uid), file) := by
  rw [shpamShadowAccountLoad, Prog.bind_ok shadowList_run, findAccount]
  cases (listed m file).find? fun acc => acc.uid = uid <;> rfl

/-- **Refinement.** In any sequence of stores and removals on an empty file a call succeeds just
when its write does. Afterwards each account's record is the one that was stored last, unless it
has been removed since. -/
theorem account_file_refines_map (calls : List AccountCall) (file : ShadowFile)
    (hempty : file.accs.getD [] = []) (hread : ∀ call ∈ calls, call.read.fault = none) :
    ∃ file', accountRun calls file = some (calls.map AccountCall.status, file') ∧
      ((file'.accs.getD []).map Shadow.uid).Nodup ∧
      ∀ (m : Moment) (uid : UInt64), m.fault = none →
        shpamShadowAccountLoad m uid file' = some (loaded (accountMap calls uid), file') := by
  have hstart : Tabulates file fun _ => none := by
    refine ⟨by rw [hempty]; exact List.nodup_nil, fun uid => ?_⟩
    rw [hempty]
    rfl
  obtain ⟨file', hrun, htab⟩ := hstart.run hread
  refine ⟨file', hrun, htab.nodup, fun m uid hm => ?_⟩
  rw [accountLoad_run, show listed m file' = file'.accs.getD [] from if_pos hm,
    htab.find, accountMap]

/-- The record of an account with a name of one letter. -/
def namedAccount (uid : UInt64) (name : UInt8) : Shadow :=
  { uid := uid, geo := [], name := [name], realname := [], sharecoin := [] }

/-- Two accounts are stored. A second record of the second account is not written, and a third one
is. The first account is removed. -/
def storedCalls : List AccountCall :=
  [.store .calm .calm (namedAccount 1 97), .store .calm .calm (namedAccount 2 98),
    .store .calm { Moment.calm with fault := some .io } (namedAccount 2 99),
    .store .calm .calm (namedAccount 2 100), .remove .calm .calm 1]

/-- The third record is what is read, and nothing of the first account. -/
theorem account_file_refines_map_removed : ∃ file',
    accountRun storedCalls { testFile with accs := none } =
        some ([.ok (), .ok (), .error .io, .ok (), .ok ()], file') ∧
      shpamShadowAccountLoad .calm 2 file' = some (.ok (namedAccount 2 100), file') ∧
      shpamShadowAccountLoad .calm 1 file' = some (.error .noent, file') := by
  have hread : ∀ call ∈ storedCalls, call.read.fault = none := by
    intro call hcall
    simp only [storedCalls, List.mem_cons, List.not_mem_nil, or_false] at hcall
    rcases hcall with rfl | rfl | rfl | rfl | rfl <;> rfl
  obtain ⟨file', hrun, -, hload⟩ :=
    account_file_refines_map storedCalls { testFile with accs := none } rfl hread
  exact ⟨file', hrun, hload .calm 2 rfl, hload .calm 1 rfl⟩

/-! ## Fields of a record -/

/-- A call of `shpam_shadow_set`. -/
structure SetCall where
  call : Call
  uid : UInt64
  priv : Option Shpriv
  cmd : ShuserCmd
  raw : Option Bytes
  rawLen : Nat

def SetCall.prog (lib : PamLib) (s : SetCall) : Pam Unit :=
  shpamShadowSet lib s.call s.uid s.priv s.cmd s.raw s.rawLen

/-- The value that a call sets, if it sets one. -/
def SetCall.value (s : SetCall) : Option Bytes := if s.rawLen ≠ 0 then s.raw else none

/-- The values that have been set last in an account. -/
structure LastSet where
  realname : Option Bytes
  coinaddr : Option Bytes
  geo : Option Bytes

/-- Nothing has been set. -/
def LastSet.none : LastSet := ⟨.none, .none, .none⟩

/-- The values after a call that succeeded. -/
def LastSet.put (last : LastSet) (s : SetCall) : LastSet :=
  match s.cmd with
  | .realname => { last with realname := s.value.orElse fun _ => last.realname }
  | .coinaddr => { last with coinaddr := s.value.orElse fun _ => last.coinaddr }
  | .geo => { last with geo := s.value.orElse fun _ => last.geo }
  | _ => last

/-- The values of an account after a call. -/
def LastSet.after (last : LastSet) (uid : UInt64) (s : SetCall) : Except Sherr Unit → LastSet
  | .ok _ => if s.uid = uid then last.put s else last
  | .error _ => last

/-- The runs of `shpam_shadow_set` from a file, with what they have set in an account. Each step
meets a condition. -/
inductive SetRun (lib : PamLib) (Ok : SetCall → Prop) (uid : UInt64) (start : ShadowFile) :
    ShadowFile → LastSet → Prop
  | start : SetRun lib Ok uid start start .none
  | step {file file' : ShadowFile} {last : LastSet} {s : SetCall} {res : Except Sherr Unit} :
      SetRun lib Ok uid start file last → Ok s → s.prog lib file = some (res, file') →
      SetRun lib Ok uid start file' (last.after uid s res)

/-- Every field of an account has the value that was set last, the name of the account is
the one it had at first, and its real name is the one that was set. -/
structure FieldsKept (lib : PamLib) (uid : UInt64) (acc : Shadow) (last : LastSet)
    (file : ShadowFile) : Prop where
  realname : ∀ before m m' val len, m.fault = none → last.realname = some val →
    shpamShadowGet lib before m m' uid .realname len file =
      some (.ok (getText (strncpyName val) len), file)
  coinaddr : ∀ before m m' val len, m.fault = none → last.coinaddr = some val →
    shpamShadowGet lib before m m' uid .coinaddr len file =
      some (.ok (getText (strncpyName val) len), file)
  geo : ∀ before m m' val len, m.fault = none → last.geo = some val → 32 ≤ len →
    shpamShadowGet lib before m m' uid .geo len file = some (.ok (val.take 32, 32), file)
  json : ∀ m, m.fault = none → ∃ json, shpamShadowJson m uid file = some (.ok (some json), file) ∧
    json.id = acc.name ∧ ∀ val, last.realname = some val → json.name = addText (strncpyName val)

/-- A call that sets no real name in the account. A call for another account
does not fail to read the list to which it adds the record. -/
def SetCall.Spares (uid : UInt64) (s : SetCall) : Prop :=
  if s.uid = uid then s.cmd = .realname → s.value = none
  else (s.call.moments 3).fault = none

/-- What a call that changes the file writes to it. -/
theorem SetCall.run_cases {lib : PamLib} {s : SetCall} {file file' : ShadowFile}
    {res : Except Sherr Unit} (h : s.prog lib file = some (res, file')) :
    (file' = file ∧ ∃ err, res = .error err) ∨
      (∃ acc acc', findAccount (listed (s.call.moments 2) file) s.uid = some acc ∧
        setField acc s.cmd s.raw s.rawLen = .ok acc' ∧ res = .ok () ∧
        file' = { file with accs := some (putAccount acc' (listed (s.call.moments 3) file)) }) := by
  obtain ⟨err, hmay, hres⟩ | ⟨_, s1, hmay, h1⟩ := Prog.bind_inv h
  · exact .inl ⟨reads_maySet _ _ _ hmay, err, hres⟩
  cases reads_maySet _ _ _ hmay
  rw [Prog.bind_run, accountLoad_run] at h1
  rcases hfind : findAccount (listed (s.call.moments 2) file) s.uid with _ | acc
  · rw [hfind] at h1
    cases h1
    exact .inl ⟨rfl, .noent, rfl⟩
  rw [hfind] at h1
  rcases hset : setField acc s.cmd s.raw s.rawLen with err | acc'
  · simp only [loaded, hset] at h1
    cases h1
    exact .inl ⟨rfl, err, rfl⟩
  simp only [loaded, hset] at h1
  have hstore : shadowWrite (s.call.moments 4)
      (putAccount acc' (listed (s.call.moments 3) file)) file = some (res, file') := by
    rw [← h1, check, Prog.bind_ok (Prog.pure_run _ _), shpamShadowAccountStore,
      Prog.bind_ok shadowList_run]
  obtain ⟨-, hw⟩ | ⟨err, -, hw⟩ := shadowWrite_run (s.call.moments 4)
      (putAccount acc' (listed (s.call.moments 3) file)) file
  · cases hw.symm.trans hstore
    exact .inr ⟨acc, acc', rfl, hset, rfl, rfl⟩
  · cases hw.symm.trans hstore
    exact .inl ⟨rfl, err, rfl⟩

/-- A record that was `acc` at first has the values that were set last. -/
structure Written (acc : Shadow) (last : LastSet) (cur : Shadow) : Prop where
  name : cur.name = (last.realname.map strncpyName).getD acc.name
  sharecoin : cur.sharecoin = (last.coinaddr.map strncpyName).getD acc.sharecoin
  geo : cur.geo = (last.geo.map (List.take 32)).getD acc.geo

/-- One field changes, to the value that is given for it. -/
theorem setField_cases {acc acc' : Shadow} {s : SetCall}
    (h : setField acc s.cmd s.raw s.rawLen = .ok acc') :
    (s.cmd = .realname ∧
      acc' = { acc with name := (s.value.map strncpyName).getD acc.name }) ∨
    (s.cmd = .coinaddr ∧
      acc' = { acc with sharecoin := (s.value.map strncpyName).getD acc.sharecoin }) ∨
    (s.cmd = .geo ∧ acc' = { acc with geo := (s.value.map (List.take 32)).getD acc.geo }) := by
  obtain ⟨call, uid, priv, cmd, raw, rawLen⟩ := s
  cases cmd with
  | realname =>
    refine .inl ⟨rfl, ?_⟩
    rcases raw with _ | raw <;> by_cases hlen : rawLen = 0 <;>
      simp_all [setField, SetCall.value]
  | coinaddr =>
    refine .inr (.inl ⟨rfl, ?_⟩)
    rcases raw with _ | raw <;> by_cases hlen : rawLen = 0 <;>
      simp_all [setField, SetCall.value]
  | geo =>
    refine .inr (.inr ⟨rfl, ?_⟩)
    by_cases hlen : rawLen = 32
    · rcases raw with _ | raw <;> simp_all [setField, SetCall.value]
    · simp only [setField, ne_eq, hlen, not_false_eq_true, if_true] at h
      cases h
  | ctime => cases h
  | other => cases h

theorem getD_map_orElse {f : Bytes → Bytes} (val last : Option Bytes) (first cur : Bytes)
    (h : cur = (last.map f).getD first) :
    (val.map f).getD cur = ((val.orElse fun _ => last).map f).getD first := by
  rcases val with _ | val
  · exact h
  · rfl

/-- Step lemma: a call that changes the record. -/
theorem Written.put {acc cur cur' : Shadow} {last : LastSet} (h : Written acc last cur)
    {s : SetCall} (hset : setField cur s.cmd s.raw s.rawLen = .ok cur') :
    Written acc (last.put s) cur' := by
  obtain ⟨hcmd, rfl⟩ | ⟨hcmd, rfl⟩ | ⟨hcmd, rfl⟩ := setField_cases hset
  · rw [LastSet.put, hcmd]
    exact ⟨getD_map_orElse s.value last.realname acc.name cur.name h.name, h.sharecoin, h.geo⟩
  · rw [LastSet.put, hcmd]
    exact ⟨h.name, getD_map_orElse s.value last.coinaddr acc.sharecoin cur.sharecoin
      h.sharecoin, h.geo⟩
  · rw [LastSet.put, hcmd]
    exact ⟨h.name, h.sharecoin, getD_map_orElse s.value last.geo acc.geo cur.geo h.geo⟩

/-- A field that is set changes no number. -/
theorem setField_uid {acc acc' : Shadow} {s : SetCall}
    (h : setField acc s.cmd s.raw s.rawLen = .ok acc') : acc'.uid = acc.uid := by
  obtain ⟨-, rfl⟩ | ⟨-, rfl⟩ | ⟨-, rfl⟩ := setField_cases h <;> rfl

/-- The account that is found has the number. -/
theorem findAccount_uid {accs : List Shadow} {uid : UInt64} {acc : Shadow}
    (h : findAccount accs uid = some acc) : acc.uid = uid := by
  simpa using List.find?_some h

/-- The record of an account has what was set last. -/
def FileWritten (uid : UInt64) (acc : Shadow) (last : LastSet) (file : ShadowFile) : Prop :=
  ∃ cur, findAccount (file.accs.getD []) uid = some cur ∧ Written acc last cur

/-- Step lemma: a call on any account. -/
theorem FileWritten.step {lib : PamLib} {uid : UInt64} {acc : Shadow} {last : LastSet}
    {file file' : ShadowFile} (h : FileWritten uid acc last file) {s : SetCall}
    {res : Except Sherr Unit} (hread : s.uid ≠ uid → (s.call.moments 3).fault = none)
    (hrun : s.prog lib file = some (res, file')) :
    FileWritten uid acc (last.after uid s res) file' := by
  obtain ⟨cur, hcur, hwritten⟩ := h
  obtain ⟨rfl, err, rfl⟩ | ⟨old, new, hold, hset, rfl, rfl⟩ := SetCall.run_cases hrun
  · exact ⟨cur, hcur, hwritten⟩
  have huid : new.uid = s.uid := (setField_uid hset).trans (findAccount_uid hold)
  by_cases hsame : s.uid = uid
  · -- the list was read, since the record was found in it
    have hlist : listed (s.call.moments 2) file = file.accs.getD [] := by
      by_cases hfault : (s.call.moments 2).fault = none
      · exact if_pos hfault
      · rw [show listed (s.call.moments 2) file = [] from if_neg hfault] at hold
        cases hold
    rw [hlist, hsame, hcur] at hold
    cases hold
    refine ⟨new, ?_, ?_⟩
    · rw [Option.getD_some, findAccount_putAccount, if_pos (huid.trans hsame)]
    · rw [LastSet.after, if_pos hsame]
      exact hwritten.put hset
  · refine ⟨cur, ?_, ?_⟩
    · rw [Option.getD_some, findAccount_putAccount, if_neg (fun h => hsame (huid.symm.trans h)),
        show listed (s.call.moments 3) file = file.accs.getD [] from if_pos (hread hsame)]
      exact hcur
    · rw [LastSet.after, if_neg hsame]
      exact hwritten

/-- Run lemma: what is set is written, whichever calls these are. -/
theorem SetRun.fileWritten {lib : PamLib} {Ok : SetCall → Prop} {uid : UInt64}
    {start file : ShadowFile} {last : LastSet} {acc : Shadow}
    (hread : ∀ s, Ok s → s.uid ≠ uid → (s.call.moments 3).fault = none)
    (hacc : findAccount (start.accs.getD []) uid = some acc)
    (h : SetRun lib Ok uid start file last) : FileWritten uid acc last file := by
  induction h with
  | start => exact ⟨acc, hacc, rfl, rfl, rfl⟩
  | step _ hok hrun ih => exact ih.step (hread _ hok) hrun

/-- Run lemma: no real name is set. -/
theorem SetRun.no_realname {lib : PamLib} {uid : UInt64} {start file : ShadowFile} {last : LastSet}
    (h : SetRun lib (SetCall.Spares uid) uid start file last) : last.realname = none := by
  induction h with
  | start => rfl
  | @step file file' last s res _ hok hrun ih =>
    rcases res with err | u
    · exact ih
    · rw [LastSet.after]
      split_ifs with huid
      · rw [SetCall.Spares, if_pos huid] at hok
        rw [LastSet.put]
        split
        · rw [hok ‹_›]
          exact ih
        · exact ih
        · exact ih
        · exact ih
      · exact ih

theorem accountLoad_of_find {m : Moment} {uid : UInt64} {file : ShadowFile} {cur : Shadow}
    (hm : m.fault = none) (hcur : findAccount (file.accs.getD []) uid = some cur) :
    shpamShadowAccountLoad m uid file = some (.ok cur, file) := by
  rw [accountLoad_run, show listed m file = file.accs.getD [] from if_pos hm, hcur, loaded]

section Get

variable {lib : PamLib} {uid : UInt64} {acc : Shadow} {last : LastSet} {file : ShadowFile}
  (before : UInt64 → UInt64 → Bool) {m : Moment} (m' : Moment) {val : Bytes} {len : Nat}

/-- The real name is the one that was set last. -/
theorem FileWritten.get_realname (h : FileWritten uid acc last file) (hm : m.fault = none)
    (hval : last.realname = some val) : shpamShadowGet lib before m m' uid .realname len file =
      some (.ok (getText (strncpyName val) len), file) := by
  obtain ⟨cur, hcur, hwritten⟩ := h
  have hname : cur.name = strncpyName val := by
    rw [hwritten.name, hval, Option.map_some, Option.getD_some]
  rw [shpamShadowGet, Prog.bind_ok (accountLoad_of_find hm hcur), hname]
  rfl

/-- The coin address is the one that was set last. -/
theorem FileWritten.get_coinaddr (h : FileWritten uid acc last file) (hm : m.fault = none)
    (hval : last.coinaddr = some val) : shpamShadowGet lib before m m' uid .coinaddr len file =
      some (.ok (getText (strncpyName val) len), file) := by
  obtain ⟨cur, hcur, hwritten⟩ := h
  have hcoin : cur.sharecoin = strncpyName val := by
    rw [hwritten.sharecoin, hval, Option.map_some, Option.getD_some]
  rw [shpamShadowGet, Prog.bind_ok (accountLoad_of_find hm hcur), hcoin]
  rfl

/-- The location is the one that was set last. -/
theorem FileWritten.get_geo (h : FileWritten uid acc last file) (hm : m.fault = none)
    (hval : last.geo = some val) (hlen : 32 ≤ len) :
    shpamShadowGet lib before m m' uid .geo len file = some (.ok (val.take 32, 32), file) := by
  obtain ⟨cur, hcur, hwritten⟩ := h
  have hgeo : cur.geo = val.take 32 := by rw [hwritten.geo, hval, Option.map_some, Option.getD_some]
  rw [shpamShadowGet, Prog.bind_ok (accountLoad_of_find hm hcur), hgeo]
  dsimp only
  rw [if_neg (Nat.not_lt.mpr hlen)]
  rfl

end Get

/-- The account as JSON has the fields of its record. -/
theorem shpamShadowJson_run {m : Moment} {uid : UInt64} {file : ShadowFile} {cur : Shadow}
    (hm : m.fault = none) (hcur : findAccount (file.accs.getD []) uid = some cur) :
    shpamShadowJson m uid file = some (.ok (some
      { id := cur.name, uid := cur.uid, name := addText cur.realname,
        sharecoin := addText cur.sharecoin }), file) := by
  rw [shpamShadowJson, Prog.bind_ok (Prog.attempt_run (accountLoad_of_find hm hcur))]
  rfl

/-- **Fields.** In every run that sets no real name in an account, its fields have the
values that were set last, and its name is the one it had at first. -/
theorem fields_kept (lib : PamLib) (uid : UInt64) (acc : Shadow) (start file : ShadowFile)
    (last : LastSet) (hacc : findAccount (start.accs.getD []) uid = some acc)
    (h : SetRun lib (SetCall.Spares uid) uid start file last) :
    FieldsKept lib uid acc last file := by
  have hwritten : FileWritten uid acc last file := by
    refine h.fileWritten (fun s hok hne => ?_) hacc
    rwa [SetCall.Spares, if_neg hne] at hok
  have hnone := h.no_realname
  refine ⟨?_, ?_, ?_, ?_⟩
  · intro before m m' val len hm hval
    exact hwritten.get_realname before m' hm hval
  · intro before m m' val len hm hval
    exact hwritten.get_coinaddr before m' hm hval
  · intro before m m' val len hm hval hlen
    exact hwritten.get_geo before m' hm hval hlen
  · intro m hm
    obtain ⟨cur, hcur, hfields⟩ := hwritten
    refine ⟨_, shpamShadowJson_run hm hcur, ?_, fun val hval => ?_⟩
    · rw [hfields.name, hnone, Option.map_none, Option.getD_none]
    · rw [hnone] at hval
      cases hval

/-- The user "test" sets the coin address "ab". -/
def coinCall : SetCall :=
  ⟨.calm (shpamUid testName), shpamUid testName, none, .coinaddr, some [97, 98], 3⟩

/-- The coin address of the account `test` is set, and read back from the account. -/
theorem fields_kept_coin : ∃ file last acc,
    SetRun .plain (SetCall.Spares (shpamUid testName)) (shpamUid testName) testFile file last ∧
      last.coinaddr = some [97, 98] ∧ acc.name = [116, 101, 115, 116] ∧
      FieldsKept .plain (shpamUid testName) acc last file := by
  have hset : (coinCall.prog .plain).Succeeds testFile := by decide +kernel
  obtain ⟨u, file, hrun⟩ := hset
  have hspares : coinCall.Spares (shpamUid testName) := by
    rw [SetCall.Spares, if_pos (show coinCall.uid = shpamUid testName from rfl)]
    intro hcmd
    cases hcmd
  have h : SetRun .plain (SetCall.Spares (shpamUid testName)) (shpamUid testName) testFile file
      (LastSet.none.after (shpamUid testName) coinCall (.ok u)) := .step .start hspares hrun
  exact ⟨file, _, ⟨shpamUid testName, List.replicate 32 0, [116, 101, 115, 116], [], []⟩,
    h, rfl, rfl, fields_kept _ _ _ _ _ _ (by decide +kernel) h⟩

/-- The user "test" sets the real name "Bob". -/
def nameCall : SetCall :=
  ⟨.calm (shpamUid testName), shpamUid testName, none, .realname, some [66, 111, 98], 4⟩

/-- The account "test" has the name "Bob", and no real name. -/
theorem name_overwritten : ¬ ∀ lib uid acc start file last,
    findAccount (start.accs.getD []) uid = some acc →
    SetRun lib (fun _ => True) uid start file last → FieldsKept lib uid acc last file := by
  intro hall
  have heval : ((nameCall.prog .plain testFile).bind fun r =>
      (shpamShadowJson .calm (shpamUid testName) r.2).map Prod.fst) =
      some (.ok (some ⟨[66, 111, 98], shpamUid testName, none, none⟩)) := by decide +kernel
  obtain ⟨⟨res, file⟩, hrun, hjson⟩ := Option.bind_eq_some_iff.mp heval
  have hkept := hall .plain (shpamUid testName)
    ⟨shpamUid testName, List.replicate 32 0, [116, 101, 115, 116], [], []⟩ testFile file _
    (by decide +kernel) (SetRun.start.step trivial hrun)
  obtain ⟨json, hreport, hid, -⟩ := hkept.json .calm rfl
  rw [hreport] at hjson
  cases hjson
  exact absurd hid (by decide)

end LibShare.Sys
