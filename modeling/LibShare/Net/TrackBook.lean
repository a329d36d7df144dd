import LibShare.Lib.Runs
import LibShare.Net.Track

/-!
# libshare — tracked peers as an address book

What `shnet_track_add`, `shnet_track_mark` and `shnet_track_remove` of `shnet_track.c` do together,
against an abstract book.

* `PeerBook` — for the text of an address a label and a trust, or nothing. `PeerBook.Step` says what
  each call returns, and what it leaves.
* `bookOf` — the book that the table of the database is.

The code looks for a row by its host, and deletes it by 32 bits of its number. The rows of a run are
numbered from 1, so there is one row for a host, and within 2^32 calls the row that is found is the
row that is deleted (`tracker_refines`).
-/

namespace LibShare.Net

open LibShare.Fs LibShare.Sql

/-! ## An abstract book -/

/-- The label and the trust of each address. -/
abbrev PeerBook : Type := Text → Option (Text × Int)

/-- What a call returns, and the book that it leaves. -/
inductive PeerBook.Step (S : System) (b : PeerBook) :
    TrackCall → Except Sherr Unit → PeerBook → Prop
  | known {peer : Peer} {host : Text} (hhost : peerText peer = some host) (hthere : b host ≠ none) :
      Step S b (.add peer) (.ok ()) b
  | added {peer : Peer} {host : Text} (hhost : peerText peer = some host) (hnone : b host = none) :
      Step S b (.add peer) (.ok ()) (Function.update b host (some (shpeerGetApp S peer, 0)))
  | marked {peer : Peer} {cond : Int32} {now : Int} {host label : Text} {trust : Int}
      (hhost : peerText peer = some host) (hthere : b host = some (label, trust)) :
      Step S b (.mark peer cond now) (.ok ())
        (Function.update b host (some (label, addTrust trust cond)))
  | dropped {peer : Peer} {cond : Int32} {now : Int} {host label : Text} {trust : Int}
      (hhost : peerText peer = some host) (hthere : b host = some (label, trust))
      (hneg : addTrust trust cond < 0) :
      Step S b (.mark peer cond now) (.ok ()) (Function.update b host none)
  | removed {peer : Peer} {host : Text} (hhost : peerText peer = some host)
      (hthere : b host ≠ none) :
      Step S b (.remove peer) (.ok ()) (Function.update b host none)
  | notMarked {peer : Peer} {cond : Int32} {now : Int} {host : Text}
      (hhost : peerText peer = some host)
      (hnone : b host = none) : Step S b (.mark peer cond now) (.error .noent) b
  | notRemoved {peer : Peer} {host : Text} (hhost : peerText peer = some host)
      (hnone : b host = none) :
      Step S b (.remove peer) (.error .noent) b

/-- The trusts are in the range of a mark. -/
def PeerBook.Ranged (b : PeerBook) : Prop :=
  ∀ host label trust, b host = some (label, trust) → -1000000000 ≤ trust ∧ trust ≤ 1000000000

/-- The trust stays between its bounds. -/
theorem addTrust_range (trust : Int) (cond : Int32) :
    -1000000000 ≤ addTrust trust cond ∧ addTrust trust cond ≤ 1000000000 := by
  unfold addTrust
  omega

/-- A book with an entry in its bounds is in its bounds. -/
theorem PeerBook.Ranged.update {b : PeerBook} (h : b.Ranged) (host : Text) {e : Option (Text × Int)}
    (he : ∀ label trust, e = some (label, trust) → -1000000000 ≤ trust ∧ trust ≤ 1000000000) :
    PeerBook.Ranged (Function.update b host e) := by
  intro host' label trust hthere
  by_cases hsame : host' = host
  · rw [hsame, Function.update_self] at hthere
    exact he label trust hthere
  · rw [Function.update_of_ne hsame] at hthere
    exact h host' label trust hthere

/-- Every step leaves the book in its bounds. -/
theorem PeerBook.Step.ranged {S : System} {b b' : PeerBook} {call : TrackCall}
    {err : Except Sherr Unit}
    (hstep : b.Step S call err b') (h : b.Ranged) : b'.Ranged := by
  cases hstep with
  | known | notMarked | notRemoved => exact h
  | added =>
    refine h.update _ fun label trust he => ?_
    cases he
    decide
  | marked =>
    refine h.update _ fun label trust he => ?_
    cases he
    exact addTrust_range _ _
  | dropped | removed => exact h.update _ fun _ _ he => by cases he

/-! ## The book of a table -/

section Book

variable {t t' : Table rowidCol} {n : Nat} {host : Text} {v : Option Row}

/-- What the book has of a row. -/
def entry (r : Row) : Text × Int := ((r labelCol).getD [], trustOf r)

/-- The book that a table is. -/
def bookOf (t : Table rowidCol) : PeerBook := fun host =>
  (t.rows.find? fun r => r.2 hostCol = some host).map fun r => entry r.2

/-- Every row has a host of its own. -/
def OneRow (t : Table rowidCol) : Prop := ∀ n r, t.row n = some r → (r hostCol).isSome ∧
  ∀ m s, t.row m = some s → s hostCol = r hostCol → m = n

/-- A host has an entry just when it has a row. -/
theorem OneRow.bookOf_eq_some (h : OneRow t) {e : Text × Int} :
    bookOf t host = some e ↔ ∃ n r, t.row n = some r ∧ r hostCol = some host ∧ entry r = e := by
  rw [bookOf, Option.map_eq_some_iff]
  constructor
  · rintro ⟨⟨n, r⟩, hfind, rfl⟩
    exact ⟨n, r, Table.row_eq_some.mpr (List.mem_of_find?_eq_some hfind),
      by simpa using List.find?_some hfind, rfl⟩
  · rintro ⟨n, r, hrow, hhost, rfl⟩
    have hmem : (n, r) ∈ t.rows := Table.row_eq_some.mp hrow
    cases hfind : t.rows.find? fun r => r.2 hostCol = some host with
    | none => exact absurd hhost (by simpa using List.find?_eq_none.mp hfind _ hmem)
    | some p =>
      have hp : p.2 hostCol = some host := by simpa using List.find?_some hfind
      have hrow' : t.row p.1 = some p.2 := Table.row_eq_some.mpr (List.mem_of_find?_eq_some hfind)
      -- it is the same row, for it has the same host
      have hsame : p.1 = n := (h n r hrow).2 p.1 p.2 hrow' (hp.trans hhost.symm)
      rw [hsame, hrow, Option.some.injEq] at hrow'
      exact ⟨p, rfl, by rw [hrow']⟩

/-- A host has no entry just when it has no row. -/
theorem OneRow.bookOf_eq_none (h : OneRow t) :
    bookOf t host = none ↔ ∀ n r, t.row n = some r → r hostCol ≠ some host := by
  rw [Option.eq_none_iff_forall_ne_some]
  constructor
  · exact fun hnone n r hrow hhost => hnone _ (h.bookOf_eq_some.mpr ⟨n, r, hrow, hhost, rfl⟩)
  · intro hnone e he
    obtain ⟨n, r, hrow, hhost, -⟩ := h.bookOf_eq_some.mp he
    exact hnone n r hrow hhost

/-- A row of the host is put in the place of the one it had, or taken out. -/
structure Replaces (t t' : Table rowidCol) (n : Nat) (host : Text) (v : Option Row) : Prop where
  row : ∀ m, t'.row m = if m = n then v else t.row m
  held : ∀ r, v = some r → r hostCol = some host
  old : ∀ m r, t.row m = some r → (r hostCol = some host ↔ m = n)

/-- A table in which one row has been replaced has one row for each host. -/
theorem Replaces.oneRow (hput : Replaces t t' n host v) (h : OneRow t) : OneRow t' := by
  intro m r hr
  rw [hput.row] at hr
  split at hr
  · next hm =>
    have hhost := hput.held r hr
    refine ⟨by rw [hhost]; rfl, fun m' s hs hsame => ?_⟩
    rw [hput.row] at hs
    split at hs
    · next hm' => exact hm'.trans hm.symm
    · next hm' => exact absurd ((hput.old m' s hs).mp (hsame.trans hhost)) hm'
  · next hm =>
    refine ⟨(h m r hr).1, fun m' s hs hsame => ?_⟩
    rw [hput.row] at hs
    split at hs
    · exact absurd ((hput.old m r hr).mp (hsame.symm.trans (hput.held s hs))) hm
    · exact (h m r hr).2 m' s hs hsame

/-- The book has the new entry. -/
theorem Replaces.bookOf_eq (hput : Replaces t t' n host v) (h : OneRow t) :
    bookOf t' = Function.update (bookOf t) host (v.map entry) := by
  refine funext fun host' => Option.ext fun e => ?_
  rw [(hput.oneRow h).bookOf_eq_some]
  by_cases hsame : host' = host
  · subst hsame
    rw [Function.update_self, Option.map_eq_some_iff]
    constructor
    · rintro ⟨m, r, hr, hhost, rfl⟩
      rw [hput.row] at hr
      split at hr
      · exact ⟨r, hr, rfl⟩
      · next hm => exact absurd ((hput.old m r hr).mp hhost) hm
    · rintro ⟨r, hr, rfl⟩
      exact ⟨n, r, by rw [hput.row, if_pos rfl, hr], hput.held r hr, rfl⟩
  · rw [Function.update_of_ne hsame, h.bookOf_eq_some]
    -- the rows of the other hosts have other numbers
    constructor
    · rintro ⟨m, r, hr, hhost, rfl⟩
      rw [hput.row] at hr
      split at hr
      · exact absurd (Option.some.inj (hhost.symm.trans (hput.held r hr))) hsame
      · exact ⟨m, r, hr, hhost, rfl⟩
    · rintro ⟨m, r, hr, hhost, rfl⟩
      refine ⟨m, r, ?_, hhost, rfl⟩
      rw [hput.row, if_neg fun hm => hsame ?_, hr]
      exact Option.some.inj (hhost.symm.trans ((hput.old m r hr).mpr hm))

/-- The row of a host is the only one. -/
theorem OneRow.old (h : OneRow t) {r : Row} (hrow : t.row n = some r)
    (hhost : r hostCol = some host) :
    ∀ m s, t.row m = some s → (s hostCol = some host ↔ m = n) := by
  intro m s hs
  constructor
  · exact fun hs' => (h n r hrow).2 m s hs (hs'.trans hhost.symm)
  · rintro rfl
    rw [hrow, Option.some.injEq] at hs
    rwa [← hs]

/-- A row that is deleted takes its entry away. -/
theorem OneRow.delete (h : OneRow t) {r : Row} (hrow : t.row n = some r)
    (hhost : r hostCol = some host) :
    Replaces t (t.delete n) n host none where
  row m := Table.row_delete m
  held r hr := by cases hr
  old := h.old hrow hhost

/-- A row that is marked replaces its entry. -/
theorem OneRow.marked (h : OneRow t) {r : Row} (hrow : t.row n = some r)
    (hhost : r hostCol = some host)
    (trust time : Option Text) :
    Replaces t ((t.update n trustCol trust).update n mtimeCol time) n host
      (some (Function.update (Function.update r trustCol trust) mtimeCol time)) where
  row m := by
    rw [Table.row_update, Table.row_update, Option.map_map]
    split
    · next hm =>
      subst hm
      rw [hrow, Option.map_some, Function.comp_apply, fold_cols mtimeCol (by decide),
        fold_cols trustCol (by decide)]
    · next hm =>
      cases t.row m with
      | none => rfl
      | some s => rw [Option.map_some, Function.comp_apply]
  held s hs := by
    cases hs
    rw [Function.update_of_ne (by decide), Function.update_of_ne (by decide), hhost]
  old := h.old hrow hhost

/-- What a new row has. -/
def newRow (host time app : Text) : Row :=
  Function.update (Function.update (Function.update (fun _ => none) hostCol (some host)) ctimeCol
    (some time)) labelCol
    (some app)

/-- A row that is added makes an entry. -/
theorem added {hkey : IsKey n} {time app : Text} (hnew : n ∉ t.keys)
    (hnone : ∀ m r, t.row m = some r → r hostCol ≠ some host) :
    Replaces t (addedRow t n hkey host time app) n host (some (newRow host time app)) where
  row m := by
    rw [addedRow, Table.row_update, Table.row_update, Table.row_update, Table.row_insert hnew,
      Option.map_map, Option.map_map]
    split
    · next hm =>
      simp only [Option.map_some, Function.comp_apply]
      rfl
    · next hm =>
      cases t.row m with
      | none => rfl
      | some s => simp only [Option.map_some, Function.comp_apply]
  held r hr := by
    cases hr
    rfl
  old m r hr := by
    refine iff_of_false (hnone m r hr) ?_
    rintro rfl
    refine hnew (not_not.mp (mt Table.row_eq_none.mpr ?_))
    rw [hr]
    exact Option.some_ne_none r

end Book

/-! ## Calls -/

section Calls

variable (S : System) (E : Engine rowidCol)

/-- A call, with what it returns. -/
def TrackCall.run (db : E.Conn) : TrackCall → Option (Except Sherr Unit × E.Conn)
  | add peer => shnetTrackAdd S E db peer
  | mark peer cond now => shnetTrackMark S E db peer cond now
  | remove peer => shnetTrackRemove E db peer

theorem TrackCall.step_eq (db : E.Conn) (call : TrackCall) :
    call.step S E db = (call.run S E db).map Prod.snd := by
  cases call <;> rfl

/-- The book of the database. -/
def trackBook (db : E.Conn) : PeerBook := ((E.db db).table trackTable).elim (fun _ => none) bookOf

/-- A call that comes back is a step of the book. -/
def TrackCall.Refines (db : E.Conn) (call : TrackCall) : Prop :=
  ∀ err db', call.run S E db = some (err, db') →
  (trackBook E db).Step S call err (trackBook E db')

end Calls

section Runs

variable {S : System} {E : Engine rowidCol} {db db' : E.Conn} {t t' : Table rowidCol} {n k : Nat}
  {host : Text}
  {v : Option Row}

/-- There is one row for each host, and the rows have been numbered up to `k`. -/
structure Booked (E : Engine rowidCol) (db : E.Conn) (t : Table rowidCol) (k : Nat) : Prop where
  tracks : Tracks E db t
  oneRow : OneRow t
  keys : ∀ n ∈ t.keys, n ≤ k

/-- The book of the database is that of its table. -/
theorem Booked.book (h : Booked E db t k) : trackBook E db = bookOf t := by
  rw [trackBook, h.tracks.on.found, Option.elim_some]

/-- Nothing is changed. -/
theorem Booked.same (h : Booked E db t k) (hon : On E db' trackTable t) : Booked E db' t (k + 1) :=
  ⟨⟨hon, h.tracks.cols, h.tracks.host⟩, h.oneRow, fun n hn => (h.keys n hn).trans (Nat.le_succ k)⟩

/-- The database has the book of its new table. -/
theorem Booked.replaced (h : Booked E db t k) (hput : Replaces t t' n host v)
    (hon : On E db' trackTable t')
    (hcols : t'.cols = t.cols) (hn : n ≤ k + 1) : Booked E db' t' (k + 1) where
  tracks := ⟨hon, hcols.trans h.tracks.cols, fun m r hr => (hput.oneRow h.oneRow m r hr).1⟩
  oneRow := hput.oneRow h.oneRow
  keys m hm := by
    obtain ⟨r, hr⟩ := Option.ne_none_iff_exists'.mp (mt Table.row_eq_none.mp (not_not.mpr hm))
    rw [hput.row] at hr
    split at hr
    · next hmn => exact hmn ▸ hn
    · exact (h.keys m (not_not.mp (mt Table.row_eq_none.mpr
        (by rw [hr]; exact Option.some_ne_none r)))).trans
        (Nat.le_succ k)

/-- The numbers of the rows go up to the last one. -/
theorem Booked.mem (h : Booked E db t k) {r : Row} (hrow : t.row n = some r) : n ≤ k :=
  h.keys n (not_not.mp (mt Table.row_eq_none.mpr (by rw [hrow]; exact Option.some_ne_none r)))

/-- The row of a host is the one that is deleted, for its number has 32 bits. -/
theorem Booked.delete (h : Booked E db t k) (hk : k < 2 ^ 32) {r : Row} (hrow : t.row n = some r)
    (hhost : r hostCol = some host) : Replaces t (t.delete (n % 2 ^ 32)) n host none := by
  rw [Nat.mod_eq_of_lt (Nat.lt_of_le_of_lt (h.mem hrow) hk)]
  exact h.oneRow.delete hrow hhost

/-- One call: which rows there are decides which step of the book it is. -/
theorem Booked.step (hE : TrackNames E) (h : Booked E db t k) (hk : k < 2 ^ 32) (call : TrackCall)
    {err : Except Sherr Unit} (hrun : call.run S E db = some (err, db')) :
    ∃ t', Booked E db' t' (k + 1) ∧ (bookOf t).Step S call err (bookOf t') := by
  have hthere : ∀ {n r host}, t.row n = some r → r hostCol = some host →
      bookOf t host = some (entry r) :=
    fun hrow hhost => h.oneRow.bookOf_eq_some.mpr ⟨_, _, hrow, hhost, rfl⟩
  cases call with
  | add peer =>
    rcases hid : peerText peer with _ | host
    · rw [TrackCall.run, shnetTrackAdd, hid] at hrun
      cases hrun
    obtain ⟨err', db1, hadd, hcases⟩ := @trackAdd_cases S E db t hE h.tracks peer host hid
    rw [TrackCall.run, hadd, Option.some.injEq, Prod.mk.injEq] at hrun
    obtain ⟨rfl, rfl⟩ := hrun
    rcases hcases with ⟨n, r, hrow, hhost, rfl, hon⟩ | ⟨hnone,
        ⟨hroom, -, -⟩ | ⟨n, hkey, time, hnew, hnext, rfl, hon⟩⟩
    · refine ⟨t, h.same hon, .known hid ?_⟩
      rw [hthere hrow hhost]
      exact Option.some_ne_none _
    · -- the numbers are not used up
      exact absurd (fun n hn => Nat.lt_of_le_of_lt (h.keys n hn) (hk.trans (by decide))) hroom
    · have hroom : t.Room := fun n hn => Nat.lt_of_le_of_lt (h.keys n hn) (hk.trans (by decide))
      have hn : n ≤ k + 1 := by
        rw [hnext hroom]
        exact Nat.succ_le_succ (Table.foldr_max_le h.keys)
      have hput := @added t n host hkey time (shpeerGetApp S peer) hnew hnone
      refine ⟨_, h.replaced hput hon rfl hn, ?_⟩
      rw [hput.bookOf_eq h.oneRow]
      exact .added hid (h.oneRow.bookOf_eq_none.mpr hnone)
  | mark peer cond now =>
    rcases hid : peerText peer with _ | host
    · rw [TrackCall.run, shnetTrackMark, hid] at hrun
      cases hrun
    obtain ⟨err', db1, hmark, hcases⟩ :=
      @trackMark_cases S E db t hE h.tracks peer host hid cond now
    rw [TrackCall.run, hmark, Option.some.injEq, Prod.mk.injEq] at hrun
    obtain ⟨rfl, rfl⟩ := hrun
    rcases hcases with ⟨hnone, rfl, hon⟩ | ⟨n, r, hrow, hhost, rfl, ⟨hneg, hon⟩ | ⟨time, hon⟩⟩
    · exact ⟨t, h.same hon, .notMarked hid (h.oneRow.bookOf_eq_none.mpr hnone)⟩
    · have hput := h.delete hk hrow hhost
      refine ⟨_, h.replaced hput hon rfl ((h.mem hrow).trans (Nat.le_succ k)), ?_⟩
      rw [hput.bookOf_eq h.oneRow]
      exact .dropped hid (hthere hrow hhost) hneg
    · have hput :=
        h.oneRow.marked hrow hhost (some (decimal (addTrust (trustOf r) cond))) (some time)
      refine ⟨_, h.replaced hput hon rfl ((h.mem hrow).trans (Nat.le_succ k)), ?_⟩
      rw [hput.bookOf_eq h.oneRow]
      -- the text of the trust is read as the trust again
      have hentry : entry (Function.update
          (Function.update r trustCol (some (decimal (addTrust (trustOf r) cond)))) mtimeCol
          (some time)) = ((entry r).1, addTrust (entry r).2 cond) := by
        have hlabel : labelCol ≠ mtimeCol ∧ labelCol ≠ trustCol := by decide
        have htrust : trustCol ≠ mtimeCol := by decide
        rw [entry, Function.update_of_ne hlabel.1, Function.update_of_ne hlabel.2, trustOf,
          Function.update_of_ne htrust, Function.update_self, Option.getD_some,
            atoll_decimal, entry]
      rw [Option.map_some, hentry]
      exact .marked hid (hthere hrow hhost)
  | remove peer =>
    rcases hid : peerText peer with _ | host
    · rw [TrackCall.run, shnetTrackRemove, hid] at hrun
      cases hrun
    obtain ⟨err', db1, hremove, hcases⟩ := @trackRemove_cases E db t hE h.tracks peer host hid
    rw [TrackCall.run, hremove, Option.some.injEq, Prod.mk.injEq] at hrun
    obtain ⟨rfl, rfl⟩ := hrun
    rcases hcases with ⟨hnone, rfl, hon⟩ | ⟨n, r, hrow, hhost, rfl, hon⟩
    · exact ⟨t, h.same hon, .notRemoved hid (h.oneRow.bookOf_eq_none.mpr hnone)⟩
    · have hput := h.delete hk hrow hhost
      refine ⟨_, h.replaced hput hon rfl ((h.mem hrow).trans (Nat.le_succ k)), ?_⟩
      rw [hput.bookOf_eq h.oneRow]
      refine .removed hid ?_
      rw [hthere hrow hhost]
      exact Option.some_ne_none _

/-- A run, from a table whose rows have been numbered up to `k`. -/
theorem Booked.run (hE : TrackNames E) :
    ∀ {calls : List TrackCall} {db : E.Conn} {t : Table rowidCol} {k : Nat}, Booked E db t k →
      (bookOf t).Ranged → k + calls.length < 2 ^ 32 →
      KeepsAlong (TrackCall.step S E) (TrackCall.Refines S E) db calls ∧
        AlwaysAlong (TrackCall.step S E) (fun db => (trackBook E db).Ranged) db calls := by
  intro calls
  induction calls with
  | nil =>
    intro db t k h hrange _
    refine ⟨trivial, ?_⟩
    rw [← h.book] at hrange
    exact hrange
  | cons call calls ih =>
    intro db t k h hrange hlen
    rw [List.length_cons] at hlen
    have hrefines : call.Refines S E db := by
      intro err db' hrun
      obtain ⟨t', h', hstep⟩ := h.step hE (by omega) call hrun
      rw [h.book, h'.book]
      exact hstep
    -- what the rest of the run keeps
    have hrest : ∀ db', call.step S E db = some db' →
        KeepsAlong (TrackCall.step S E) (TrackCall.Refines S E) db' calls ∧
          AlwaysAlong (TrackCall.step S E) (fun db => (trackBook E db).Ranged) db' calls := by
      intro db' hstep
      rw [TrackCall.step_eq, Option.map_eq_some_iff] at hstep
      obtain ⟨⟨err, db1⟩, hrun, rfl⟩ := hstep
      obtain ⟨t', h', hbook⟩ := h.step hE (by omega) call hrun
      exact ih h' (hbook.ranged hrange) (by omega)
    refine ⟨⟨hrefines, fun db' hstep => (hrest db' hstep).1⟩, ?_, fun db' hstep =>
      (hrest db' hstep).2⟩
    rw [← h.book] at hrange
    exact hrange

/-- From a database that has no table of peers, every run of less than 2^32 calls is a run of the
book: an address that is added is there until it is removed, or marked below 0; a mark adds to its
trust what the mark is cut to, and no call changes what there is of another address. -/
theorem tracker_refines (S : System) {E : Engine rowidCol} (hE : TrackNames E) {db : E.Conn}
    (hnone : (E.db db).table trackTable = none) (calls : List TrackCall)
    (hlen : calls.length < 2 ^ 32) :
    trackBook E (shnetTrackOpen E db) = (fun _ => none) ∧
      KeepsAlong (TrackCall.step S E) (TrackCall.Refines S E) (shnetTrackOpen E db) calls ∧
        AlwaysAlong (TrackCall.step S E) (fun db => (trackBook E db).Ranged)
          (shnetTrackOpen E db) calls := by
  obtain ⟨t, htracks, hrows⟩ := tracks_open hE hnone
  -- the table that is opened is empty, and so is the book
  have hempty : ∀ n, t.row n = none := by
    intro n
    rw [Table.row_eq_none, Table.keys, hrows]
    exact List.not_mem_nil
  have hbooked : Booked E (shnetTrackOpen E db) t 0 := by
    refine ⟨htracks, fun n r hr => ?_, fun n hn => ?_⟩
    · rw [hempty] at hr
      cases hr
    · rw [Table.keys, hrows] at hn
      cases hn
  have hbook : bookOf t = fun _ => none := by
    funext host
    rw [bookOf, hrows]
    rfl
  refine ⟨hbooked.book.trans hbook, hbooked.run hE ?_ (by omega)⟩
  rw [hbook]
  exact fun _ _ _ hthere => by cases hthere

/-- Two peers are added and marked. -/
theorem tracker_refines_two : KeepsAlong (TrackCall.step plainSystem (plainEngine rowidCol))
    (TrackCall.Refines plainSystem (plainEngine rowidCol))
    (shnetTrackOpen (plainEngine rowidCol) untracked)
    (twoMarked 12 34) :=
  (tracker_refines plainSystem plain_names rfl (twoMarked 12 34) (by decide)).2.1

end Runs

end LibShare.Net
