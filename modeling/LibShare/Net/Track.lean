import LibShare.Fs.Db
import LibShare.Lib.Runs
import LibShare.Net.PeerText

/-!
# libshare — the trust of peers

The table of `shnet_track.c`: `shnet_track_add`, `shnet_track_mark`,
`shnet_track_remove` and `shnet_track_list`.

* A peer is in the table under the text of its address (`peerText`), with a label and,
  once it has been marked, a trust. The trust is a number, and its column is a text.
* The names of services, the look-up of hosts and the comparison of a floating-point
  number in `shnet_track_fresh` are a `System`.
* A text that does not fit its buffer has no result, and neither has a list that is
  filled beyond its end.

The list is in the descending order of the texts, and the null value is the last. So it
has the largest trusts, in descending order, where no text that comes first is of a
smaller number (`trackList_sorted`).
-/

namespace LibShare.Net

open LibShare.Sql hiding Text
open LibShare.Fs

/-! ## Functions -/

/-- What is not part of the library. The name of a service has at most 15 characters. -/
structure System where
  getservbyport : UInt16 → Option Text
  getservbyname : Text → Option UInt16
  shresolve : Text → Option (AddrType × Bytes)
  /-- `43200 / diff * fabs(cond) >= -1.0` -/
  healthy : (diff cond : Int) → Bool
  short (port : UInt16) (name : Text) : getservbyport port = some name → name.length ≤ 15

/-- `TRACK_TABLE_NAME`. -/
def trackTable : Text := "track".toList

def hostCol : Text := "host".toList
def labelCol : Text := "label".toList
def trustCol : Text := "trust".toList
def ctimeCol : Text := "ctime".toList
def mtimeCol : Text := "mtime".toList

def trackCols : List Text := [hostCol, labelCol, trustCol, ctimeCol, mtimeCol]

section Functions

variable (S : System) (E : Engine rowidCol)

/-- `shpeer_get_app`. -/
def shpeerGetApp (peer : Peer) : Text :=
  if peer.label = [] ∨ peer.label = package then
    (S.getservbyport peer.port).getD peer.label else peer.label

/-- `shnet_track_fresh`, at the time `now`. -/
def shnetTrackFresh (ctime cond now : Int) : Bool :=
  if cond ≥ 0 then true
  else if ctime > now - 172800 then true
  else S.healthy (ctime - now) cond

/-- `shnet_track_col_init`. -/
def shnetTrackColInit (db : E.Conn) : E.Conn :=
  trackCols.foldl (fun db col => (shdbColNew E db trackTable col).2) db

/-- `shnet_track_open`, of a database that is open. -/
def shnetTrackOpen (db : E.Conn) : E.Conn :=
  match shdbTableNew E db trackTable with
  | (.ok (), db) => shnetTrackColInit E db
  | (.error _, db) => db

/-- `shnet_track_add`. -/
def shnetTrackAdd (db : E.Conn) (peer : Peer) : Option (Except Sherr Unit × E.Conn) :=
  (peerText peer).map fun idStr =>
    match shdbRowFind E db trackTable hostCol idStr 0 with
    | (.ok _, db) => (.ok (), db)
    | (.error _, db) =>
      -- the host has no row yet
      match shdbRowNew E db trackTable with
      | (.error err, db) => (.error err, db)
      | (.ok rowid, db) =>
        match shdbRowSet E db trackTable rowid hostCol (some idStr) with
        | (.error err, db) => (.error err, db)
        | (.ok (), db) =>
          match shdbRowSetTime E db trackTable rowid ctimeCol with
          | (.error err, db) => (.error err, db)
          | (.ok (), db) => shdbRowSet E db trackTable rowid labelCol (some (shpeerGetApp S peer))

/-- `shnet_track_remove`. -/
def shnetTrackRemove (db : E.Conn) (peer : Peer) : Option (Except Sherr Unit × E.Conn) :=
  (peerText peer).map fun idStr =>
    match shdbRowFind E db trackTable hostCol idStr 0 with
    | (.error err, db) => (.error err, db)
    | (.ok rowid, db) => shdbRowDelete E db trackTable rowid

/-- What is added to the trust. -/
def clampCond (cond : Int32) : Int :=
  if cond < 0 then (if cond < -256 then -256 else cond.toInt)
  else if cond > 0 then (if cond > 256 then 256 else cond.toInt)
  else cond.toInt

/-- The trust after a mark. -/
def addTrust (trust : Int) (cond : Int32) : Int :=
  max (-1000000000) (min 1000000000 (trust + clampCond cond))

/-- `shnet_track_mark`, at the time `now`. -/
def shnetTrackMark (db : E.Conn) (peer : Peer) (cond : Int32) (now : Int) :
    Option (Except Sherr Unit × E.Conn) :=
  (peerText peer).map fun idStr =>
    match shdbRowFind E db trackTable hostCol idStr 0 with
    | (.error err, db) => (.error err, db)
    | (.ok rowid, db) =>
      let (str, db) := shdbRowValue E db trackTable rowid trustCol
      let trust := addTrust (atoll (str.getD [])) cond
      let (ctime, db) := if trust < 0 then shdbRowTime E db trackTable rowid ctimeCol else (0, db)
      -- a host that has lost its trust is kept only while it is fresh
      if trust < 0 ∧ shnetTrackFresh S ctime.toInt64.toInt trust now = false then
        shdbRowDelete E db trackTable rowid
      else
        match shdbRowSet E db trackTable rowid trustCol (some (decimal trust)) with
        | (.error err, db) => (.error err, db)
        | (.ok (), db) => shdbRowSetTime E db trackTable rowid mtimeCol

/-- `shdb_peer_list_cb`: the peer is put in the first place that is free. -/
def shdbPeerListCb (peerList : Option (List (Option Peer))) (args : List (Text × Option Text)) :
    Option (List (Option Peer)) :=
  peerList.bind fun list => (list.findIdx? fun p => p.isNone).map fun idx =>
    match args with
    | (_, some label) :: (_, some host) :: _ =>
      list.set idx (some (shpeerInit S.shresolve S.getservbyname label (some host)))
    | _ => list

/-- The text of the statement in `shnet_track_list`. -/
def topText (appName : Text) (listMax : Int32) : Text :=
  sprintf "select label,host from %s where label = '%s' order by trust desc limit %d"
    [trackTable, appName, decimal listMax.toInt]

/-- `shnet_track_list`. There is no list where `calloc` returns none. -/
def shnetTrackList (db : E.Conn) (peer : Peer) (listMax : Int32) :
    Option (List (Option Peer)) × E.Conn :=
  let appName := (shpeerGetApp S peer).take 135
  if listMax.toInt + 1 < 0 then (none, db)
  else
    let peerList := List.replicate (listMax.toInt + 1).toNat none
    let listMax := if listMax < 1 then 1 else if listMax > 1000 then 1000 else listMax
    match shdbExecCb E db (topText appName listMax) (shdbPeerListCb S) (some peerList) with
    | (.error _, peerList, db) => (peerList, shnetTrackColInit E db)
    | (.ok (), peerList, db) => (peerList, db)

/-- A call of a run. A mark is made at some time. -/
inductive TrackCall
  | add (peer : Peer)
  | mark (peer : Peer) (cond : Int32) (now : Int)
  | remove (peer : Peer)

/-- The database after a call. -/
def TrackCall.step (db : E.Conn) : TrackCall → Option E.Conn
  | add peer => (shnetTrackAdd S E db peer).map Prod.snd
  | mark peer cond now => (shnetTrackMark S E db peer cond now).map Prod.snd
  | remove peer => (shnetTrackRemove E db peer).map Prod.snd

end Functions

/-! ## Rows of the table -/

section Rows

variable {S : System} {E : Engine rowidCol} {db : E.Conn} {t : Table rowidCol}

/-- The names of the table and of its columns are taken for names. -/
structure TrackNames (E : Engine rowidCol) : Prop where
  table : E.IsName trackTable
  cols : ∀ col ∈ trackCols, E.IsName col

/-- The database has the table with its columns, and every row has a host. -/
structure Tracks (E : Engine rowidCol) (db : E.Conn) (t : Table rowidCol) : Prop where
  on : On E db trackTable t
  cols : t.cols = trackCols
  host : ∀ n r, t.row n = some r → (r hostCol).isSome

theorem short_cols : ∀ col ∈ trackCols, col.length ≤ 256 := by decide

/-- The columns are in lower case. -/
theorem fold_cols : ∀ col ∈ trackCols, fold col = col := by decide

theorem Tracks.column (hE : TrackNames E) (h : Tracks E db t) {col : Text}
    (hcol : col ∈ trackCols) : Column E t col where
  name := hE.cols col hcol
  short := short_cols col hcol
  has := by
    rw [Table.Has, h.cols]
    exact List.mem_map_of_mem hcol

/-- The text of an address has no marks. -/
theorem mark_peerText {peer : Peer} {idStr : Text} (h : peerText peer = some idStr) :
    mark ∉ idStr := by
  obtain ⟨-, rfl⟩ := peerText_eq h
  have hdigits : mark ∉ Nat.toDigits 10 peer.port.toNat := not_mem_digits (by decide) _
  have hhost : mark ∉ (shpeerHost peer).1 := by
    rw [shpeerHost]
    split
    · intro hmem
      rcases mem_ipv6Text hmem with h | h
      · exact absurd h (by decide)
      · exact absurd h (by decide)
    · exact not_mem_inetNtoa (by decide) (by decide) _
  rw [List.mem_append, List.mem_cons, not_or, not_or]
  exact ⟨hhost, by decide, hdigits⟩

/-- A row with the host is found, or there is none. -/
theorem trackFind (hE : TrackNames E) (h : Tracks E db t) {idStr : Text}
    (hid : mark ∉ idStr) : ∃ db', On E db' trackTable t ∧
      ((∃ n r, t.row n = some r ∧ r hostCol = some idStr ∧
          shdbRowFind E db trackTable hostCol idStr 0 = (.ok (UInt64.ofNat n), db')) ∨
        ((∀ n r, t.row n = some r → r hostCol ≠ some idStr) ∧
          shdbRowFind E db trackTable hostCol idStr 0 = (.error .noent, db'))) := by
  have hcol : Column E t hostCol := h.column hE (by decide)
  obtain ⟨hfind, hdb⟩ := shdbRowFind_spec h.on hcol hid
  refine ⟨_, h.on.same hdb, ?_⟩
  rcases hfind with ⟨n, r, hrow, hholds, hret⟩ | ⟨hnone, hret⟩
  · exact .inl ⟨n, r, hrow, hholds, Prod.ext hret rfl⟩
  · refine .inr ⟨?_, Prod.ext hret rfl⟩
    intro n r hrow hholds
    have hmem : (n, r) ∈ t.holding hostCol idStr := Table.mem_holding.mpr ⟨hrow, hholds⟩
    rw [hnone] at hmem
    cases hmem

/-- The table with a new row of a peer. -/
def addedRow (t : Table rowidCol) (n : Nat) (hkey : IsKey n) (idStr time app : Text) :
    Table rowidCol :=
  (((t.insert n hkey).update n hostCol (some idStr)).update n ctimeCol (some time)).update n
    labelCol (some app)

/-- A peer that is in the table is not added again. -/
theorem trackAdd_cases (hE : TrackNames E) (h : Tracks E db t) {peer : Peer} {idStr : Text}
    (hid : peerText peer = some idStr) : ∃ err db', shnetTrackAdd S E db peer = some (err, db') ∧
      ((∃ n r, t.row n = some r ∧ r hostCol = some idStr ∧ err = .ok () ∧ On E db' trackTable t) ∨
        ((∀ n r, t.row n = some r → r hostCol ≠ some idStr) ∧
          ((¬ t.Room ∧ (∃ e, err = .error e) ∧ On E db' trackTable t) ∨
            ∃ n hkey time, n ∉ t.keys ∧ (t.Room → n = t.nextKey) ∧ err = .ok () ∧
              On E db' trackTable (addedRow t n hkey idStr time (shpeerGetApp S peer))))) := by
  obtain ⟨db1, hon, hfind⟩ := trackFind hE h (mark_peerText hid)
  rcases hfind with ⟨n, r, hrow, hholds, hret⟩ | ⟨hnone, hret⟩
  · refine ⟨.ok (), db1, ?_, .inl ⟨n, r, hrow, hholds, rfl, hon⟩⟩
    rw [shnetTrackAdd, hid, Option.map_some, hret]
  rw [shnetTrackAdd, hid, Option.map_some, hret]
  dsimp only
  rcases hnew : shdbRowNew E db1 trackTable with ⟨err, db2⟩
  have hspec := shdbRowNew_spec hon
  rw [hnew] at hspec
  rcases hspec with ⟨n, hkey, hn, hnext, rfl, hdb⟩ | ⟨hfull, ⟨err, rfl⟩, hdb⟩
  swap
  · exact ⟨_, _, rfl, .inr ⟨hnone, .inl ⟨hfull, ⟨err, rfl⟩, hon.same hdb⟩⟩⟩
  have hon2 : On E db2 trackTable (t.insert n hkey) :=
    ⟨hon.name, hon.short, by rw [hdb]; exact Db.table_replace hon.found rfl⟩
  have hn' : (UInt64.ofNat n).toNat = n := toNat_ofNat_key hkey
  have hcol : ∀ col ∈ trackCols, Column E (t.insert n hkey) col :=
    fun col hcol => (h.column hE hcol).same rfl
  -- the host, the time and the label are set in turn, and none of them fails
  obtain ⟨hret3, hdb3⟩ :=
    shdbRowSet_spec hon2 (hcol hostCol (by decide)) (UInt64.ofNat n) (some idStr)
  rw [hn'] at hdb3
  have hon3 : On E (shdbRowSet E db2 trackTable (UInt64.ofNat n) hostCol (some idStr)).2 trackTable
      ((t.insert n hkey).update n hostCol (some idStr)) := hon2.put rfl hdb3
  rcases hset3 : shdbRowSet E db2 trackTable (UInt64.ofNat n) hostCol (some idStr) with ⟨err3, db3⟩
  rw [hset3] at hret3 hon3
  subst hret3
  obtain ⟨hret4, time, hdb4⟩ :=
    shdbRowSetTime_spec hon3 ((hcol ctimeCol (by decide)).same rfl) (UInt64.ofNat n)
  rw [hn'] at hdb4
  have hon4 : On E (shdbRowSetTime E db3 trackTable (UInt64.ofNat n) ctimeCol).2 trackTable
      (((t.insert n hkey).update n hostCol (some idStr)).update n ctimeCol (some time)) :=
        hon3.put rfl hdb4
  rcases hset4 : shdbRowSetTime E db3 trackTable (UInt64.ofNat n) ctimeCol with ⟨err4, db4⟩
  rw [hset4] at hret4 hon4
  subst hret4
  obtain ⟨hret5, hdb5⟩ :=
    shdbRowSet_spec hon4 ((hcol labelCol (by decide)).same rfl) (UInt64.ofNat n)
    (some (shpeerGetApp S peer))
  rw [hn'] at hdb5
  refine ⟨.ok (), (shdbRowSet E db4 trackTable (UInt64.ofNat n) labelCol
    (some (shpeerGetApp S peer))).2, ?_, .inr ⟨hnone,
      .inr ⟨n, hkey, time, hn, hnext, rfl, hon4.put rfl hdb5⟩⟩⟩
  dsimp only
  rw [hset3]
  dsimp only
  rw [hset4]
  dsimp only
  rw [← hret5]

/-- A peer that is not in the table is not removed. -/
theorem trackRemove_cases (hE : TrackNames E) (h : Tracks E db t) {peer : Peer} {idStr : Text}
    (hid : peerText peer = some idStr) : ∃ err db', shnetTrackRemove E db peer = some (err, db') ∧
      (((∀ n r, t.row n = some r → r hostCol ≠ some idStr) ∧ err = .error .noent ∧
        On E db' trackTable t) ∨
        ∃ n r, t.row n = some r ∧ r hostCol = some idStr ∧ err = .ok () ∧
          On E db' trackTable (t.delete (n % 2 ^ 32))) := by
  obtain ⟨db1, hon, hfind⟩ := trackFind hE h (mark_peerText hid)
  rcases hfind with ⟨n, r, hrow, hholds, hret⟩ | ⟨hnone, hret⟩
  · obtain ⟨hret2, hdb2⟩ := shdbRowDelete_spec hon (UInt64.ofNat n)
    rw [toNat_ofNat_key (t.isKey _ (Table.row_eq_some.mp hrow))] at hdb2
    refine ⟨.ok (), (shdbRowDelete E db1 trackTable (UInt64.ofNat n)).2, ?_,
      .inr ⟨n, r, hrow, hholds, rfl, hon.put rfl hdb2⟩⟩
    rw [shnetTrackRemove, hid, Option.map_some, hret]
    dsimp only
    rw [← hret2]
  · refine ⟨_, db1, ?_, .inl ⟨hnone, rfl, hon⟩⟩
    rw [shnetTrackRemove, hid, Option.map_some, hret]

/-- A mark is added to the trust, unless the row is taken out. -/
theorem trackMark_cases (hE : TrackNames E) (h : Tracks E db t) {peer : Peer} {idStr : Text}
    (hid : peerText peer = some idStr) (cond : Int32) (now : Int) : ∃ err db',
      shnetTrackMark S E db peer cond now = some (err, db') ∧
        (((∀ n r, t.row n = some r → r hostCol ≠ some idStr) ∧ err = .error .noent ∧
          On E db' trackTable t) ∨
          ∃ n r, t.row n = some r ∧ r hostCol = some idStr ∧ err = .ok () ∧
            ((addTrust (atoll ((r trustCol).getD [])) cond < 0 ∧
              On E db' trackTable (t.delete (n % 2 ^ 32))) ∨
              ∃ time, On E db' trackTable
                ((t.update n trustCol (some (decimal (addTrust
                  (atoll ((r trustCol).getD [])) cond)))).update n mtimeCol
                  (some time)))) := by
  obtain ⟨db1, hon, hfind⟩ := trackFind hE h (mark_peerText hid)
  rcases hfind with ⟨n, r, hrow, hholds, hret⟩ | ⟨hnone, hret⟩
  swap
  · refine ⟨_, db1, ?_, .inl ⟨hnone, rfl, hon⟩⟩
    rw [shnetTrackMark, hid, Option.map_some, hret]
  have hn : (UInt64.ofNat n).toNat = n := toNat_ofNat_key (t.isKey _ (Table.row_eq_some.mp hrow))
  have hcol : ∀ col ∈ trackCols, Column E t col := fun col hcol => h.column hE hcol
  rw [shnetTrackMark, hid, Option.map_some, hret]
  dsimp only
  obtain ⟨hval, hdb2⟩ := shdbRowValue_spec hon (hcol trustCol (by decide)) (UInt64.ofNat n)
  rw [hn, hrow, Option.bind_some, show fold trustCol = trustCol from rfl] at hval
  rcases hvalue : shdbRowValue E db1 trackTable (UInt64.ofNat n) trustCol with ⟨str, db2⟩
  rw [hvalue] at hval hdb2
  subst hval
  dsimp only
  have hon2 : On E db2 trackTable t := hon.same hdb2
  generalize htrust : addTrust (atoll ((r trustCol).getD [])) cond = trust
  -- reading the time of the row leaves the table as it is
  obtain ⟨ctime, db3, htime, hon3⟩ : ∃ ctime db3, (if trust < 0 then
      shdbRowTime E db2 trackTable (UInt64.ofNat n) ctimeCol else (0, db2)) = (ctime, db3) ∧
        On E db3 trackTable t := by
    split
    · exact ⟨_, _, rfl, hon2.same (shdbRowTime_spec hon2 (hcol ctimeCol (by decide)) _)⟩
    · exact ⟨_, _, rfl, hon2⟩
  rw [htime]
  dsimp only
  split
  · next hstale =>
    obtain ⟨hret4, hdb4⟩ := shdbRowDelete_spec hon3 (UInt64.ofNat n)
    rw [hn] at hdb4
    refine ⟨.ok (), (shdbRowDelete E db3 trackTable (UInt64.ofNat n)).2, ?_,
      .inr ⟨n, r, hrow, hholds, rfl, .inl ⟨by rw [htrust]; exact hstale.1, hon3.put rfl hdb4⟩⟩⟩
    rw [← hret4]
  · obtain ⟨hret4, hdb4⟩ :=
      shdbRowSet_spec hon3 (hcol trustCol (by decide)) (UInt64.ofNat n) (some (decimal trust))
    rw [hn] at hdb4
    have hon4 : On E (shdbRowSet E db3 trackTable (UInt64.ofNat n) trustCol
        (some (decimal trust))).2 trackTable
        (t.update n trustCol (some (decimal trust))) := hon3.put rfl hdb4
    rcases hset : shdbRowSet E db3 trackTable (UInt64.ofNat n) trustCol (some (decimal trust))
        with ⟨err4, db4⟩
    rw [hset] at hret4 hon4
    subst hret4
    obtain ⟨hret5, time, hdb5⟩ :=
      shdbRowSetTime_spec hon4 ((hcol mtimeCol (by decide)).same rfl) (UInt64.ofNat n)
    rw [hn] at hdb5
    refine ⟨.ok (), (shdbRowSetTime E db4 trackTable (UInt64.ofNat n) mtimeCol).2, ?_,
      .inr ⟨n, r, hrow, hholds, rfl, .inr ⟨time, by rw [htrust]; exact hon4.put rfl hdb5⟩⟩⟩
    dsimp only
    rw [← hret5]

/-! ## Runs -/

theorem hosted_update {n : Nat} {col : Text} {val : Option Text}
    (h : ∀ m r, t.row m = some r → (r hostCol).isSome)
    (hcol : fold col ≠ hostCol ∨ val.isSome) :
    ∀ m r, (t.update n col val).row m = some r → (r hostCol).isSome := by
  intro m r hr
  rw [Table.row_update] at hr
  obtain ⟨s, hs, rfl⟩ := Option.map_eq_some_iff.mp hr
  split
  · by_cases hsame : fold col = hostCol
    · rw [hsame, Function.update_self]
      exact hcol.resolve_left fun hne => hne hsame
    · rw [Function.update_of_ne (Ne.symm hsame)]
      exact h m s hs
  · exact h m s hs

theorem hosted_delete {n : Nat} (h : ∀ m r, t.row m = some r → (r hostCol).isSome) :
    ∀ m r, (t.delete n).row m = some r → (r hostCol).isSome := by
  intro m r hr
  rw [Table.row_delete] at hr
  split at hr
  · cases hr
  · exact h m r hr

theorem hosted_added {n : Nat} {hkey : IsKey n} {idStr time app : Text} (hnew : n ∉ t.keys)
    (h : ∀ m r, t.row m = some r → (r hostCol).isSome) :
    ∀ m r, (addedRow t n hkey idStr time app).row m = some r → (r hostCol).isSome := by
  refine hosted_update (hosted_update ?_ (.inl (by decide))) (.inl (by decide))
  intro m r hr
  rw [Table.row_update, Table.row_insert hnew] at hr
  obtain ⟨s, hs, rfl⟩ := Option.map_eq_some_iff.mp hr
  by_cases hm : m = n
  · rw [if_pos hm, show fold hostCol = hostCol from rfl, Function.update_self]
    rfl
  · rw [if_neg hm] at hs
    rw [if_neg hm]
    exact h m s hs

/-- After every call, the database has the table still. -/
theorem Tracks.step (hE : TrackNames E) (h : Tracks E db t) (call : TrackCall) {db' : E.Conn}
    (hstep : call.step S E db = some db') : ∃ t', Tracks E db' t' := by
  cases call with
  | add peer =>
    rcases hid : peerText peer with _ | idStr
    · rw [TrackCall.step, shnetTrackAdd, hid] at hstep
      cases hstep
    obtain ⟨err, db1, hadd, hcases⟩ := @trackAdd_cases S E db t hE h peer idStr hid
    rw [TrackCall.step, hadd] at hstep
    cases hstep
    rcases hcases with ⟨n, r, -, -, -, hon⟩ | ⟨-, ⟨-, -, hon⟩ | ⟨n, hkey, time, hnew, -, -, hon⟩⟩
    · exact ⟨t, hon, h.cols, h.host⟩
    · exact ⟨t, hon, h.cols, h.host⟩
    · exact ⟨_, hon, h.cols, hosted_added hnew h.host⟩
  | mark peer cond now =>
    rcases hid : peerText peer with _ | idStr
    · rw [TrackCall.step, shnetTrackMark, hid] at hstep
      cases hstep
    obtain ⟨err, db1, hmark, hcases⟩ := @trackMark_cases S E db t hE h peer idStr hid cond now
    rw [TrackCall.step, hmark] at hstep
    cases hstep
    rcases hcases with ⟨-, -, hon⟩ | ⟨n, r, -, -, -, ⟨-, hon⟩ | ⟨time, hon⟩⟩
    · exact ⟨t, hon, h.cols, h.host⟩
    · exact ⟨_, hon, h.cols, hosted_delete h.host⟩
    · exact ⟨_, hon, h.cols, hosted_update (hosted_update h.host (.inl (by decide)))
        (.inl (by decide))⟩
  | remove peer =>
    rcases hid : peerText peer with _ | idStr
    · rw [TrackCall.step, shnetTrackRemove, hid] at hstep
      cases hstep
    obtain ⟨err, db1, hremove, hcases⟩ := @trackRemove_cases E db t hE h peer idStr hid
    rw [TrackCall.step, hremove] at hstep
    cases hstep
    rcases hcases with ⟨-, -, hon⟩ | ⟨n, r, -, -, -, hon⟩
    · exact ⟨t, hon, h.cols, h.host⟩
    · exact ⟨_, hon, h.cols, hosted_delete h.host⟩

/-- A database that has no table of peers gets an empty one. -/
theorem tracks_open (hE : TrackNames E) (hnone : (E.db db).table trackTable = none) :
    ∃ t, Tracks E (shnetTrackOpen E db) t ∧ t.rows = [] := by
  obtain ⟨hret, hdb⟩ := shdbTableNew_spec hE.table (by decide) hnone
  have hon : On E (shdbTableNew E db trackTable).2 trackTable (.empty trackTable) :=
    ⟨hE.table, by decide, by rw [hdb]; exact Db.table_put_self _ _⟩
  have hnames : ∀ col ∈ trackCols, E.IsName col ∧ col.length ≤ 256 :=
    fun col hcol => ⟨hE.cols col hcol, short_cols col hcol⟩
  obtain ⟨t, ht, hcols, hrows⟩ := cols_on trackCols hon rfl hnames (by decide) (by decide)
  rcases hnew : shdbTableNew E db trackTable with ⟨err, db'⟩
  rw [hnew] at hret ht
  subst hret
  refine ⟨t, ⟨?_, hcols, fun n r hr => ?_⟩, hrows⟩
  · rw [shnetTrackOpen, hnew]
    exact ht
  · rw [Table.row_eq_some, hrows] at hr
    cases hr

/-! ## The list -/

/-- The trust of a row, as `shnet_track_mark` reads it: a row that was never marked has 0. -/
def trustOf (r : Row) : Int := atoll ((r trustCol).getD [])

/-- The peer that is made of a row. -/
def rowPeer (S : System) (r : Row) : Peer :=
  shpeerInit S.shresolve S.getservbyname ((r labelCol).getD []) (some ((r hostCol).getD []))

/-- The list is of the rows with the largest trusts, in descending order, and ends with
places that are free. -/
def MostTrusted (S : System) (rows : List (Nat × Row)) (n : Nat)
    (list : List (Option Peer)) : Prop :=
  ∃ sel : List (Nat × Row), sel.Perm rows ∧ (sel.Pairwise fun r s => trustOf s.2 ≤ trustOf r.2) ∧
    list = (sel.take n).map (fun r => some (rowPeer S r.2)) ++
      List.replicate (n + 1 - min n rows.length) none

/-- A row with a smaller trust has a smaller text, or `n` texts come before its own. -/
def TextOrder (rows : List (Nat × Row)) (n : Nat) : Prop :=
  ∀ r ∈ rows, ∀ s ∈ rows, trustOf r.2 < trustOf s.2 → rank (r.2 trustCol) < rank (s.2 trustCol) ∨
    n ≤ rows.countP fun c => decide (rank (r.2 trustCol) < rank (c.2 trustCol))

/-- What is related to all that follow, as far as the first `n`. -/
theorem pairwise_take {α : Type} {R : α → α → Prop} : ∀ {l : List α} {n : Nat},
    (∀ pre r post, l = pre ++ r :: post → pre.length < n → ∀ s ∈ post, R r s) →
      (l.take n).Pairwise R ∧ ∀ r ∈ l.take n, ∀ s ∈ l.drop n, R r s := by
  intro l
  induction l with
  | nil =>
    exact fun _ =>
      ⟨by rw [List.take_nil]; exact .nil, fun r hr => by rw [List.take_nil] at hr; cases hr⟩
  | cons x l ih =>
    intro n h
    cases n with
    | zero => exact ⟨.nil, fun r hr => absurd hr List.not_mem_nil⟩
    | succ n =>
      have hx : ∀ s ∈ l, R x s := h [] x l rfl (Nat.succ_pos n)
      obtain ⟨hpair, hcross⟩ := ih (n := n) fun pre r post hl hlen s hs =>
        h (x :: pre) r post (by rw [hl]; rfl) (Nat.succ_lt_succ hlen) s hs
      refine ⟨List.pairwise_cons.mpr ⟨fun s hs => hx s (List.mem_of_mem_take hs), hpair⟩, ?_⟩
      intro r hr s hs
      rw [List.take_succ_cons, List.mem_cons] at hr
      rcases hr with rfl | hr
      · exact hx s (List.mem_of_mem_drop hs)
      · exact hcross r hr s hs

/-- Of rows in the descending order of their texts, the first ones have the largest trusts. -/
theorem exists_sorted {rows sel : List (Nat × Row)} {n : Nat} (hsel : sel.Perm rows)
    (hsort : sel.Pairwise fun r s => rank (s.2 trustCol) ≤ rank (r.2 trustCol))
    (horder : TextOrder rows n) :
    ∃ sel' :
      List (Nat × Row), sel'.Perm rows ∧ (sel'.Pairwise fun r s => trustOf s.2 ≤ trustOf r.2) ∧
      sel'.take n = sel.take n := by
  have hfirst : ∀ pre r post, sel = pre ++ r :: post → pre.length < n →
      ∀ s ∈ post, trustOf s.2 ≤ trustOf r.2 := by
    rintro pre r post rfl hlen s hs
    rw [List.pairwise_append, List.pairwise_cons] at hsort
    obtain ⟨-, ⟨hafter, -⟩, -⟩ := hsort
    have hr : r ∈ rows := hsel.mem_iff.mp (List.mem_append_right _ List.mem_cons_self)
    have hs' : s ∈ rows := hsel.mem_iff.mp (List.mem_append_right _ (List.mem_cons_of_mem _ hs))
    by_contra hlt
    rcases horder r hr s hs' (not_le.mp hlt) with hless | hcount
    · exact absurd (hafter s hs) (not_le.mpr hless)
    · -- only what is before the row has a larger text
      have hpost : (r :: post).countP (fun c =>
        decide (rank (r.2 trustCol) < rank (c.2 trustCol))) = 0 := by
        rw [List.countP_eq_zero]
        intro c hc hbig
        have hbig' := of_decide_eq_true hbig
        rcases List.mem_cons.mp hc with rfl | hc
        · exact lt_irrefl _ hbig'
        · exact absurd (hafter c hc) (not_le.mpr hbig')
      rw [← hsel.countP_eq, List.countP_append, hpost, Nat.add_zero] at hcount
      exact absurd (hcount.trans List.countP_le_length) (Nat.not_le.mpr hlen)
  obtain ⟨htop, hcross⟩ := pairwise_take hfirst
  let rest := (sel.drop n).insertionSort fun r s => trustOf s.2 ≤ trustOf r.2
  have hrest : rest.Perm (sel.drop n) := List.perm_insertionSort _ _
  have htotal : Std.Total fun r s : Nat × Row => trustOf s.2 ≤ trustOf r.2 :=
    ⟨fun r s => le_total _ _⟩
  have htrans : IsTrans (Nat × Row) fun r s => trustOf s.2 ≤ trustOf r.2 :=
    ⟨fun r s u hrs hsu => le_trans hsu hrs⟩
  refine ⟨sel.take n ++ rest, ?_, ?_, ?_⟩
  · have hperm := hrest.append_left (sel.take n)
    rw [List.take_append_drop] at hperm
    exact hperm.trans hsel
  · rw [List.pairwise_append]
    exact ⟨htop, List.pairwise_insertionSort _ _, fun r hr s hs =>
      hcross r hr s (hrest.mem_iff.mp hs)⟩
  · by_cases hlen : n ≤ sel.length
    · rw [List.take_left' (List.length_take_of_le hlen)]
    · have hnone : rest = [] := by
        have hdrop : sel.drop n = [] := List.drop_eq_nil_of_le (by omega)
        rw [hdrop] at hrest
        exact hrest.eq_nil
      rw [hnone, List.append_nil, List.take_take, min_self]

/-- Each row that is selected takes the next free place. -/
theorem foldl_list (S : System) :
    ∀ (sel : List (Nat × Row)) (rows : List (List (Text × Option Text)))
    (placed : List Peer) (m : Nat),
    rows.map (List.map Prod.snd) = sel.map (fun r => [r.2 labelCol, r.2 hostCol]) →
      (∀ r ∈ sel, (r.2 labelCol).isSome ∧ (r.2 hostCol).isSome) → sel.length ≤ m →
        rows.foldl (shdbPeerListCb S) (some (placed.map some ++ List.replicate m none)) =
          some ((placed ++ sel.map fun r => rowPeer S r.2).map some ++
            List.replicate (m - sel.length) none) := by
  intro sel
  induction sel with
  | nil =>
    intro rows placed m hrows _ _
    rw [List.map_eq_nil_iff.mp hrows]
    simp
  | cons r sel ih =>
    intro rows placed m hrows hthere hlen
    obtain ⟨row, rows, rfl⟩ : ∃ row rows', rows = row :: rows' := by
      cases rows with
      | nil => cases hrows
      | cons row rows => exact ⟨row, rows, rfl⟩
    rw [List.map_cons, List.map_cons, List.cons.injEq] at hrows
    obtain ⟨hrow, hrows⟩ := hrows
    obtain ⟨hl, hh⟩ := hthere r List.mem_cons_self
    obtain ⟨l, hl⟩ := Option.isSome_iff_exists.mp hl
    obtain ⟨hst, hh⟩ := Option.isSome_iff_exists.mp hh
    rw [List.length_cons] at hlen
    obtain ⟨m, rfl⟩ := Nat.exists_eq_add_one.mpr (Nat.lt_of_lt_of_le (Nat.succ_pos _) hlen)
    -- the free place is the one behind those that are taken
    have hplace : shdbPeerListCb S (some (placed.map some ++ List.replicate (m + 1) none)) row =
        some ((placed ++ [rowPeer S r.2]).map some ++ List.replicate m none) := by
      rw [hl, hh] at hrow
      obtain ⟨⟨c1, v1⟩, row, rfl⟩ : ∃ a row', row = a :: row' := by
        cases row with
        | nil => cases hrow
        | cons a row => exact ⟨a, row, rfl⟩
      obtain ⟨⟨c2, v2⟩, row, rfl⟩ : ∃ a row', row = a :: row' := by
        cases row with
        | nil => cases hrow
        | cons a row => exact ⟨a, row, rfl⟩
      simp only [List.map_cons, List.cons.injEq] at hrow
      obtain ⟨rfl, rfl, -⟩ := hrow
      have hidx : (placed.map some ++ List.replicate (m + 1) (none : Option Peer)).findIdx?
          (fun p => p.isNone) =
          some placed.length := by
        rw [List.findIdx?_append, List.findIdx?_eq_none_iff.mpr (by simp)]
        simp [List.replicate_succ, List.findIdx?_cons]
      rw [shdbPeerListCb, Option.bind_some, hidx, Option.map_some]
      simp [List.replicate_succ, rowPeer, hl, hh]
    rw [List.foldl_cons, hplace, ih rows _ m hrows (fun s hs =>
      hthere s (List.mem_cons_of_mem _ hs)) (by omega)]
    simp

/-- The name of a service, or the label of a peer. -/
theorem length_app (S : System) {peer : Peer} (hlabel : peer.label.length ≤ 15) :
    (shpeerGetApp S peer).length ≤ 15 := by
  unfold shpeerGetApp
  split
  · cases hserv : S.getservbyport peer.port with
    | none => exact hlabel
    | some name => exact S.short _ name hserv
  · exact hlabel

theorem lexes_top {app : Text} (happ : mark ∉ app) (listMax : Int32) (hpos : 0 ≤ listMax.toInt) :
    Lexes (topText app listMax)
      ((Stmt.top labelCol hostCol trackTable labelCol app trustCol listMax.toInt.toNat).toks
        rowidCol) := by
  have hlast : number listMax.toInt.toNat ++ [] = number listMax.toInt.toNat := List.append_nil _
  rw [topText, decimal, if_neg (by omega)]
  show Lexes ("select".toList ++ ' ' ::
      (labelCol ++ ',' :: (hostCol ++ ' ' :: ("from".toList ++ ' ' :: (trackTable ++
    ' ' :: ("where".toList ++ ' ' :: (labelCol ++ ' ' :: '=' :: ' ' ::
      (mark :: (app ++ mark :: ' ' ::
      ("order".toList ++ ' ' :: ("by".toList ++ ' ' :: (trustCol ++ ' ' :: ("desc".toList ++ ' ' ::
        ("limit".toList ++ ' ' :: (number listMax.toInt.toNat ++ []))))))))))))))) _
  have hspell : ∀ rest : Text, mark :: (app ++ mark :: rest) = spell app ++ rest := by
    intro rest
    rw [spell_plain happ]
    simp
  rw [hspell, hlast]
  exact .next (by decide) <| .word (by decide)
    (by decide) <| .sym (by decide) <| .next (by decide) <|
    .next (by decide) <| .next (by decide) <| .next (by decide) <| .next (by decide) <| .sym (by
      decide) <| .blank <|
    .str (by decide) <| .blank <| .next (by decide) <| .next (by decide) <| .next (by
      decide) <| .next (by decide) <|
    .next (by decide) <| .last (isWord_number _)

/-- A list with a limit between 1 and 1000 is filled with the first rows in the order of their
texts. -/
theorem shnetTrackList_spec (hE : TrackNames E) (h : Tracks E db t) {peer : Peer}
    (hlabel : peer.label.length ≤ 15)
    (happ : mark ∉ shpeerGetApp S peer) {n : Int32} (hlow : 1 ≤ n.toInt) (hhigh : n.toInt ≤ 1000) :
    ∃ sel : List (Nat × Row), sel.Perm (t.holding labelCol (shpeerGetApp S peer)) ∧
      (sel.Pairwise fun r s => rank (s.2 trustCol) ≤ rank (r.2 trustCol)) ∧
        (shnetTrackList S E db peer n).1 = some ((sel.take n.toInt.toNat).map (fun r =>
          some (rowPeer S r.2)) ++
          List.replicate (n.toInt.toNat + 1 - min n.toInt.toNat sel.length) none) := by
  have hname : (shpeerGetApp S peer).take 135 = shpeerGetApp S peer :=
    List.take_of_length_le ((length_app S hlabel).trans (by decide))
  have hlimit : (if n < 1 then 1 else if n > 1000 then 1000 else n) = n := by
    rw [if_neg, if_neg]
    · exact fun hgt => absurd (Int32.lt_iff_toInt_lt.mp hgt) (not_lt.mpr hhigh)
    · exact fun hlt => absurd (Int32.lt_iff_toInt_lt.mp hlt) (not_lt.mpr hlow)
  have hcols : ∀ col ∈ [labelCol, hostCol, labelCol, trustCol], col ∈ trackCols := by decide
  have hruns := E.runs (c := db) (lexes_top happ n (by omega))
    (by
      intro x hx
      simp only [Stmt.names, List.mem_cons, List.not_mem_nil, or_false] at hx
      rcases hx with rfl | rfl | rfl | rfl | rfl
      · exact hE.cols _ (by decide)
      · exact hE.cols _ (by decide)
      · exact hE.table
      · exact hE.cols _ (by decide)
      · exact hE.cols _ (by decide))
    ⟨t, h.on.found, fun col hcol => (h.column hE (hcols col hcol)).has⟩
  obtain ⟨sel, hsel, hsort, hrows, herr, -⟩ := hruns.top_inv h.on.found
  refine ⟨sel, hsel, hsort, ?_⟩
  have hthere : ∀ r ∈ sel.take n.toInt.toNat, (r.2 labelCol).isSome ∧ (r.2 hostCol).isSome := by
    intro r hr
    obtain ⟨hrow, hlab⟩ := Table.mem_holding.mp (hsel.mem_iff.mp (List.mem_of_mem_take hr))
    refine ⟨?_, h.host _ _ hrow⟩
    rw [show r.2 labelCol = some (shpeerGetApp S peer) from hlab]
    rfl
  have hfill := foldl_list S (sel.take n.toInt.toNat) _ [] (n.toInt + 1).toNat hrows hthere
    (by rw [List.length_take]; omega)
  unfold shnetTrackList
  rw [if_neg (by omega), hname, hlimit]
  dsimp only
  rw [exec_rows herr]
  dsimp only
  rw [List.map_nil, List.nil_append] at hfill
  rw [hfill]
  have hsize : (n.toInt + 1).toNat - (sel.take n.toInt.toNat).length =
      n.toInt.toNat + 1 - min n.toInt.toNat sel.length := by
    rw [List.length_take]
    omega
  rw [hsize, List.nil_append, List.map_map]
  rfl

/-- In every state of a run, the list has the largest trusts of the label in descending
order, where the texts are in the order of the trusts. -/
theorem trackList_sorted (S : System) {E : Engine rowidCol} (hE : TrackNames E) {db0 db : E.Conn}
    (hnone : (E.db db0).table trackTable = none) (calls : List TrackCall)
    (hrun : calls.foldlM (fun db call => call.step S E db) (shnetTrackOpen E db0) = some db) :
    ∃ t, (E.db db).table trackTable = some t ∧ ∀ (peer : Peer) (n : Int32), peer.label.length ≤ 15 →
      mark ∉ shpeerGetApp S peer → 1 ≤ n.toInt → n.toInt ≤ 1000 →
        TextOrder (t.holding labelCol (shpeerGetApp S peer)) n.toInt.toNat →
          ∃ list, (shnetTrackList S E db peer n).1 = some list ∧
            MostTrusted S (t.holding labelCol (shpeerGetApp S peer)) n.toInt.toNat list := by
  -- the table is there in every state of the run
  have hall : ∀ (calls : List TrackCall) (db1 : E.Conn), (∃ t, Tracks E db1 t) →
      calls.foldlM (fun db call => call.step S E db) db1 = some db → ∃ t, Tracks E db t := by
    intro calls
    induction calls with
    | nil =>
      intro db1 h hrun
      cases hrun
      exact h
    | cons call calls ih =>
      rintro db1 ⟨t, h⟩ hrun
      rw [List.foldlM_cons] at hrun
      obtain ⟨db2, hstep, hrest⟩ := Option.bind_eq_some_iff.mp hrun
      exact ih db2 (h.step hE call hstep) hrest
  obtain ⟨t0, h0, -⟩ := tracks_open hE hnone
  obtain ⟨t, h⟩ := hall calls _ ⟨t0, h0⟩ hrun
  refine ⟨t, h.on.found, fun peer n hlabel happ hlow hhigh horder => ?_⟩
  obtain ⟨sel, hsel, hsort, hlist⟩ := shnetTrackList_spec hE h hlabel happ hlow hhigh
  obtain ⟨sel', hsel', hsort', htake⟩ := exists_sorted hsel hsort horder
  refine ⟨_, hlist, sel', hsel', hsort', ?_⟩
  rw [htake, hsel.length_eq]

/-- The first peer of a list has the largest trust. -/
theorem MostTrusted.first {S : System} {rows : List (Nat × Row)} {n : Nat}
    {list : List (Option Peer)}
    (h : MostTrusted S rows (n + 1) list) (hrows : rows ≠ []) :
    ∃ r ∈ rows, list.head? = some (some (rowPeer S r.2)) ∧
      ∀ s ∈ rows, trustOf s.2 ≤ trustOf r.2 := by
  obtain ⟨sel, hsel, hsort, rfl⟩ := h
  cases sel with
  | nil => exact absurd hsel.nil_eq.symm hrows
  | cons r sel =>
    refine ⟨r, hsel.mem_iff.mp List.mem_cons_self, rfl, fun s hs => ?_⟩
    rcases List.mem_cons.mp (hsel.mem_iff.mpr hs) with rfl | hs
    · exact le_rfl
    · exact (List.pairwise_cons.mp hsort).1 s hs

end Rows

/-! ## Two peers -/

section Peers

/-- No service has a name, and addresses are looked up as they are printed. -/
def plainSystem : System where
  getservbyport _ := none
  getservbyname _ := none
  shresolve := lookUp
  healthy _ _ := true
  short _ _ h := by cases h

def trackedPeer (port : UInt16) : Peer :=
  { type := .ipv4
    sinPort := htons port
    sinAddr := ⟨#[127, 0, 0, 1, 0, 0, 0, 0, 0, 0, 0, 0, 0, 0, 0, 0], rfl⟩
    label := "app".toList }

def untracked : Db rowidCol := { tables := [], last := 0, distinct := List.nodup_nil }

theorem plain_names : TrackNames (plainEngine rowidCol) := by
  have hnames : IsWord trackTable ∧ ∀ col ∈ trackCols, IsWord col := by decide
  exact ⟨hnames.1, hnames.2⟩

/-- Two peers, with these trusts. -/
def twoMarked (trust trust' : Int32) : List TrackCall :=
  [.add (trackedPeer 80), .mark (trackedPeer 80) trust 0, .add (trackedPeer 443),
    .mark (trackedPeer 443) trust' 0]

/-- The database after them. -/
def marked (trust trust' : Int32) : Option (Db rowidCol) :=
  (twoMarked trust trust').foldlM (fun db call => call.step plainSystem (plainEngine rowidCol) db)
    (shnetTrackOpen (plainEngine rowidCol) untracked)

/-- The rows of the label. -/
def appRows (db : Option (Db rowidCol)) : List (Nat × Row) :=
  ((db.bind fun db => db.table trackTable).map fun t => t.holding labelCol "app".toList).getD []

/-- The trusts 12 and 34 have two digits both. -/
theorem two_digits : ∃ db t, marked 12 34 = some db ∧ db.table trackTable = some t ∧
    ∃ list, (shnetTrackList plainSystem (plainEngine rowidCol) db
      (trackedPeer 80) 2).1 = some list ∧ MostTrusted plainSystem
        (t.holding labelCol (shpeerGetApp plainSystem (trackedPeer 80))) 2 list := by
  have hrun : (marked 12 34).isSome ∧ ∀ r ∈ appRows (marked 12 34), ∀ s ∈ appRows (marked 12 34),
      trustOf r.2 < trustOf s.2 → rank (r.2 trustCol) < rank (s.2 trustCol) := by decide +kernel
  obtain ⟨hsome, horder⟩ := hrun
  obtain ⟨db, hdb⟩ := Option.isSome_iff_exists.mp hsome
  obtain ⟨t, ht, hlist⟩ :=
    @trackList_sorted plainSystem (plainEngine rowidCol) plain_names untracked db rfl
      (twoMarked 12 34) hdb
  have ht' : db.table trackTable = some t := ht
  refine ⟨db, t, hdb, ht', hlist (trackedPeer 80) 2 (by decide) (by decide) (by decide)
    (by decide) ?_⟩
  rw [hdb, appRows, Option.bind_some, ht', Option.map_some, Option.getD_some] at horder
  exact fun r hr s hs hlt => .inl (horder r hr s hs hlt)

/-- The text of 9 is behind that of 100. -/
theorem nine_before_hundred : ∃ db t, marked 9 100 = some db ∧ db.table trackTable = some t ∧
    ∀ list, (shnetTrackList plainSystem (plainEngine rowidCol) db
      (trackedPeer 80) 1).1 = some list →
      ¬ MostTrusted plainSystem (t.holding labelCol (shpeerGetApp plainSystem (trackedPeer 80)))
        1 list := by
  have hrun : (marked 9 100).isSome ∧ ((marked 9 100).bind fun db => db.table trackTable).isSome ∧
      (((marked 9 100).bind fun db =>
        (shnetTrackList plainSystem (plainEngine rowidCol) db (trackedPeer 80) 1).1).bind
          fun list =>
          list.head?.join).map Peer.sinPort = some (htons 80) ∧
      appRows (marked 9 100) ≠ [] ∧ ∀ r ∈ appRows (marked 9 100),
        (rowPeer plainSystem r.2).sinPort = htons 80 →
          ∃ s ∈ appRows (marked 9 100), trustOf r.2 < trustOf s.2 := by
    decide +kernel
  obtain ⟨hsome, hthere, hfirst, hless⟩ := hrun
  obtain ⟨db, hdb⟩ := Option.isSome_iff_exists.mp hsome
  rw [hdb, Option.bind_some] at hthere
  obtain ⟨t, ht⟩ := Option.isSome_iff_exists.mp hthere
  refine ⟨db, t, hdb, ht, fun list hlist hmost => ?_⟩
  rw [hdb, Option.bind_some, hlist] at hfirst
  rw [hdb, appRows, Option.bind_some, ht, Option.map_some, Option.getD_some] at hless
  obtain ⟨r, hr, hhead, hmax⟩ := hmost.first hless.1
  rw [Option.bind_some, hhead] at hfirst
  obtain ⟨s, hs, hlt⟩ := hless.2 r hr (Option.some.inj hfirst)
  exact absurd (hmax s hs) (not_le.mpr hlt)

end Peers

end LibShare.Net
