import LibShare.Fs.Db
import LibShare.Lib.Runs

/-!
# libshare — rows of a database as a table

What `shdb_row_new`, `shdb_row_set`, `shdb_row_find`, `shdb_row_delete` and
`shdb_row_value` of `shfs_db.c` do together, against an abstract table.

* `Book` — an abstract table: for each row number a row, or none. `Book.Step` says what
  each call may return, and what it leaves.
* `book` — the abstract table that a table of the database is.
* `Call.Safe` — the two cases that are left out: `shdb_row_find` does not double the
  marks of the value, and `shdb_row_delete` writes the row number as 32 bits.

`rows_refine`: along every run of safe calls each of them is a step of the abstract
table, and `shdb_row_value` returns what is in it. `rowDelete_refines_iff` says that no
other removal is a step.
-/

namespace LibShare.Fs

open LibShare.Sql

/-! ## An abstract table -/

/-- The rows by their numbers. -/
abbrev Book : Type := UInt64 → Option Row

/-- The greatest number that a row can have is free. -/
def Book.Room (b : Book) : Prop := ∀ n, b n ≠ none → n.toNat < maxKey

/-- A call on a table with these columns. -/
inductive RowCall (cols : List Text)
  | rowNew
  | rowSet (rowid : UInt64) (col : { col : Text // col ∈ cols }) (text : Text)
  | rowFind (col : { col : Text // col ∈ cols }) (val : Text)
  | rowDelete (rowid : UInt64)

/-- What a call returns. -/
inductive Reply
  | row (rowid : Except Sherr UInt64)
  | status (err : Except Sherr Unit)

/-- The table after a text is set in a row. -/
def Book.set (b : Book) (rowid : UInt64) (col text : Text) : Book := fun n =>
  (b n).map fun r => if n = rowid then Function.update r (fold col) (some text) else r

/-- What a call on a table may return, and the table that it leaves. -/
inductive Book.Step {cols : List Text} (b : Book) : RowCall cols → Reply → Book → Prop
  -- the number after all others, as long as there is one
  | rowNew {rowid : UInt64} (hnew : b rowid = none) (hnext : b.Room → ∀ n, b n ≠ none → n < rowid) :
      Step b .rowNew (.row (.ok rowid)) (Function.update b rowid (some fun _ => none))
  | noRoom {err : Sherr} (hfull : ¬ b.Room) : Step b .rowNew (.row (.error err)) b
  | rowSet {rowid : UInt64} {col : { col : Text // col ∈ cols }} {text : Text} :
      Step b (.rowSet rowid col text) (.status (.ok ())) (b.set rowid col.val text)
  | found {col : { col : Text // col ∈ cols }} {val : Text} {rowid : UInt64} {r : Row}
      (hrow : b rowid = some r)
      (hval : r (fold col.val) = some val) : Step b (.rowFind col val) (.row (.ok rowid)) b
  | notFound {col : { col : Text // col ∈ cols }} {val : Text}
      (hnone : ∀ rowid r, b rowid = some r → r (fold col.val) ≠ some val) :
      Step b (.rowFind col val) (.row (.error .noent)) b
  | rowDelete {rowid : UInt64} :
      Step b (.rowDelete rowid) (.status (.ok ())) (Function.update b rowid none)

/-! ## The calls -/

section Calls

variable (E : Engine rowidCol) (table : Text) {cols : List Text}

def RowCall.run (db : E.Conn) : RowCall cols → Reply × E.Conn
  | .rowNew => let (err, db) := shdbRowNew E db table; (.row err, db)
  | .rowSet rowid col text =>
    let (err, db) := shdbRowSet E db table rowid col.val (some text); (.status err, db)
  | .rowFind col val => let (err, db) := shdbRowFind E db table col.val val 0; (.row err, db)
  | .rowDelete rowid => let (err, db) := shdbRowDelete E db table rowid; (.status err, db)

/-- The database after a call. -/
def rowStep (db : E.Conn) (call : RowCall cols) : Option E.Conn := some (call.run E table db).2

/-- The rows of the table, if there is one. -/
def book (db : E.Conn) : Book :=
  fun rowid => ((E.db db).table table).bind fun t => t.row rowid.toNat

/-- The call is a step of the abstract table. -/
def RowCall.Refines (db : E.Conn) (call : RowCall cols) : Prop :=
  (book E table db).Step call (call.run E table db).1 (book E table (call.run E table db).2)

/-- The text that is in each row and column is returned. -/
def Shows (cols : List Text) (db : E.Conn) : Prop :=
  ∀ rowid, ∀ col ∈ cols, (shdbRowValue E db table rowid col).1 =
    (book E table db rowid).bind (fun r => r (fold col)) ∧
      book E table (shdbRowValue E db table rowid col).2 = book E table db

/-- No mark is in a value to be found, and a row number has 32 bits, unless neither it
nor what is left of it is the number of a row. -/
def RowCall.Safe (db : E.Conn) : RowCall cols → Prop
  | .rowFind _ val => mark ∉ val
  | .rowDelete rowid => rowid.toNat < 2 ^ 32 ∨
      (book E table db rowid = none ∧ book E table db (UInt64.ofNat (rowid.toNat % 2 ^ 32)) = none)
  | _ => True

/-- The database has the table with these columns. -/
def Ready (cols : List Text) (db : E.Conn) : Prop :=
  ∃ t, On E db table t ∧ ∀ col ∈ cols, Column E t col

end Calls

/-! ## One call -/

section Step

variable {E : Engine rowidCol} {table : Text} {cols : List Text} {db : E.Conn} {t : Table rowidCol}

theorem book_eq (h : On E db table t) (rowid : UInt64) :
    book E table db rowid = t.row rowid.toNat := by
  rw [book, h.found, Option.bind_some]

theorem isKey_row {n : Nat} {r : Row} (h : t.row n = some r) : IsKey n :=
  t.isKey _ (Table.row_eq_some.mp h)

theorem book_ne_none (h : On E db table t) (rowid : UInt64) :
    book E table db rowid ≠ none ↔ rowid.toNat ∈ t.keys := by
  rw [book_eq h, ne_eq, Table.row_eq_none, not_not]

theorem room_iff (h : On E db table t) : t.Room ↔ (book E table db).Room := by
  constructor
  · exact fun hroom n hn => hroom _ ((book_ne_none h n).mp hn)
  · intro hroom n hn
    obtain ⟨r, hr, rfl⟩ := List.mem_map.mp hn
    have hkey := toNat_ofNat_key (t.isKey r hr)
    rw [← hkey] at hn ⊢
    exact hroom _ ((book_ne_none h _).mpr hn)

/-- The next number comes after all others. -/
theorem lt_nextKey {n : Nat} (hn : n ∈ t.keys) : n < t.nextKey :=
  Nat.lt_succ_of_le (Table.le_foldr_max hn)

theorem book_insert {db' : E.Conn} {n : Nat} {hkey : IsKey n} (hnew : n ∉ t.keys)
    (h' : On E db' table (t.insert n hkey)) (h : On E db table t) :
    book E table db' = Function.update (book E table db) (UInt64.ofNat n) (some fun _ => none) := by
  funext m
  rw [book_eq h', Table.row_insert hnew, Function.update_apply, book_eq h]
  have hsame : m.toNat = n ↔ m = UInt64.ofNat n := by
    rw [← UInt64.toNat_inj, toNat_ofNat_key hkey]
  by_cases hm : m.toNat = n
  · rw [if_pos hm, if_pos (hsame.mp hm)]
  · rw [if_neg hm, if_neg fun h => hm (hsame.mpr h)]

theorem book_update {db' : E.Conn} {rowid : UInt64} {col text : Text}
    (h' : On E db' table (t.update rowid.toNat col (some text))) (h : On E db table t) :
    book E table db' = (book E table db).set rowid col text := by
  funext m
  rw [book_eq h', Table.row_update, Book.set, book_eq h]
  simp only [UInt64.toNat_inj]

theorem book_delete {db' : E.Conn} {n : Nat} (h' : On E db' table (t.delete n))
    (h : On E db table t) (m : UInt64) :
    book E table db' m = if m.toNat = n then none else book E table db m := by
  rw [book_eq h', Table.row_delete, book_eq h]

theorem book_same {db' : E.Conn} (hdb : E.db db' = E.db db) :
    book E table db' = book E table db := by
  unfold book
  rw [hdb]

/-- A row is deleted if its number is 32 bits, or if there is nothing to delete. -/
theorem book_delete_safe {db' : E.Conn} {rowid : UInt64}
    (h' : On E db' table (t.delete (rowid.toNat % 2 ^ 32)))
    (h : On E db table t) (hsafe : rowid.toNat < 2 ^ 32 ∨
      (book E table db rowid = none ∧ book E table db
        (UInt64.ofNat (rowid.toNat % 2 ^ 32)) = none)) :
    book E table db' = Function.update (book E table db) rowid none := by
  funext m
  rw [book_delete h' h, Function.update_apply]
  rcases hsafe with hlow | ⟨hhigh, hrest⟩
  · rw [Nat.mod_eq_of_lt hlow]
    simp only [UInt64.toNat_inj]
  · -- neither of the two is there, so that nothing changes
    have hleft : m.toNat = rowid.toNat % 2 ^ 32 → book E table db m = none := by
      intro hm
      rw [← hm, UInt64.ofNat_toNat] at hrest
      exact hrest
    have hright : m = rowid → book E table db m = none := fun hm => hm ▸ hhigh
    split <;> split <;> simp_all

/-- The database is ready still, as long as the table keeps its columns. -/
theorem Ready.put (h : On E db table t) (hcols : ∀ col ∈ cols, Column E t col) {db' : E.Conn}
    {t' : Table rowidCol}
    (hdb : E.db db' = (E.db db).put t') (hname : t'.name = t.name) (hsame : t'.cols = t.cols) :
    On E db' table t' ∧ Ready E table cols db' :=
  ⟨h.put hname hdb, t', h.put hname hdb, fun col hcol => (hcols col hcol).same hsame⟩

/-- A safe call is a step of the abstract table, and leaves the database ready. -/
theorem RowCall.refines (h : Ready E table cols db) (call : RowCall cols)
    (hsafe : call.Safe E table db) :
    call.Refines E table db ∧ Ready E table cols (call.run E table db).2 := by
  obtain ⟨t, h, hcols⟩ := h
  unfold RowCall.Refines
  cases call with
  | rowNew =>
    rcases shdbRowNew_spec h with ⟨n, hkey, hnew, hnext, hret, hdb⟩ | ⟨hfull, ⟨err, hret⟩, hdb⟩
    · have hput : On E (shdbRowNew E db table).2 table (t.insert n hkey) :=
        ⟨h.name, h.short, by rw [hdb]; exact Db.table_replace h.found rfl⟩
      refine ⟨?_, _, hput, fun col hcol => (hcols col hcol).same rfl⟩
      have hnone : book E table db (UInt64.ofNat n) = none := by
        rw [book_eq h, toNat_ofNat_key hkey]
        exact Table.row_eq_none.mpr hnew
      have hlast : (book E table db).Room → ∀ m, book E table db m ≠ none → m < UInt64.ofNat n := by
        intro hroom m hm
        rw [UInt64.lt_iff_toNat_lt, toNat_ofNat_key hkey, hnext ((room_iff h).mpr hroom)]
        exact lt_nextKey ((book_ne_none h m).mp hm)
      have hstep := @Book.Step.rowNew cols _ _ hnone hlast
      rw [← book_insert hnew hput h, ← hret] at hstep
      exact hstep
    · -- a key is wanting only where the book has no room
      refine ⟨?_, t, ⟨h.name, h.short, by rw [RowCall.run]; exact hdb ▸ h.found⟩, hcols⟩
      have hstep :=
        @Book.Step.noRoom cols (book E table db) err fun hroom => hfull ((room_iff h).mpr hroom)
      rw [← hret] at hstep
      rw [show book E table (RowCall.run E table db .rowNew).2 = book E table db from book_same hdb]
      exact hstep
  | rowSet rowid col text =>
    obtain ⟨hret, hdb⟩ := shdbRowSet_spec h (hcols col.val col.property) rowid (some text)
    obtain ⟨hput, hready⟩ := Ready.put h hcols hdb rfl rfl
    refine ⟨?_, hready⟩
    have hstep := @Book.Step.rowSet cols (book E table db) rowid col text
    rw [← book_update hput h, ← hret] at hstep
    exact hstep
  | rowFind col val =>
    obtain ⟨hfind, hdb⟩ := shdbRowFind_spec h (hcols col.val col.property) hsafe
    refine ⟨?_, t, ⟨h.name, h.short, by rw [RowCall.run]; exact hdb ▸ h.found⟩, hcols⟩
    rw [show book E table (RowCall.run E table db (.rowFind col val)).2 =
      book E table db from book_same hdb]
    rcases hfind with ⟨n, r, hrow, hholds, hret⟩ | ⟨hnone, hret⟩
    · have hbook : book E table db (UInt64.ofNat n) = some r := by
        rw [book_eq h, toNat_ofNat_key (isKey_row hrow), hrow]
      have hstep := @Book.Step.found cols _ col _ _ _ hbook hholds
      rw [← hret] at hstep
      exact hstep
    · have hno : ∀ rowid r, book E table db rowid = some r → r (fold col.val) ≠ some val := by
        intro rowid r hrow hholds
        rw [book_eq h] at hrow
        have hmem := (Table.mem_holding (p := (rowid.toNat, r))).mpr ⟨hrow, hholds⟩
        rw [hnone] at hmem
        cases hmem
      have hstep := Book.Step.notFound hno
      rw [← hret] at hstep
      exact hstep
  | rowDelete rowid =>
    obtain ⟨hret, hdb⟩ := shdbRowDelete_spec h rowid
    obtain ⟨hput, hready⟩ := Ready.put h hcols hdb rfl rfl
    refine ⟨?_, hready⟩
    have hstep := @Book.Step.rowDelete cols (book E table db) rowid
    rw [← book_delete_safe hput h hsafe, ← hret] at hstep
    exact hstep

theorem Book.Step.delete_inv {b b' : Book} {rowid : UInt64} {reply : Reply}
    (h : @Book.Step cols b (.rowDelete rowid) reply b') : b' = Function.update b rowid none := by
  cases h
  rfl

/-- A removal that is not safe takes another row, or leaves its own. -/
theorem rowDelete_refines_iff (h : Ready E table cols db) (rowid : UInt64) :
    (RowCall.rowDelete rowid : RowCall cols).Refines E table db ↔
      (RowCall.rowDelete rowid : RowCall cols).Safe E table db := by
  refine ⟨fun hstep => ?_, fun hsafe => (RowCall.refines h _ hsafe).1⟩
  obtain ⟨t, h, hcols⟩ := h
  by_cases hlow : rowid.toNat < 2 ^ 32
  · exact .inl hlow
  obtain ⟨-, hdb⟩ := shdbRowDelete_spec h rowid
  obtain ⟨hput, -⟩ := Ready.put h hcols hdb rfl rfl
  have hleft : (UInt64.ofNat (rowid.toNat % 2 ^ 32)).toNat = rowid.toNat % 2 ^ 32 := by
    have hsize := rowid.toNat_lt
    exact UInt64.toNat_ofNat_of_lt' (show _ < 2 ^ 64 by omega)
  have hne : rowid.toNat ≠ rowid.toNat % 2 ^ 32 := by omega
  have hafter := fun m => (book_delete hput h m).symm.trans (congrFun hstep.delete_inv m)
  refine .inr ⟨?_, ?_⟩
  · -- its own row is as it was
    have hown := hafter rowid
    rw [if_neg hne, Function.update_self] at hown
    exact hown
  · -- the row with what is left of the number is gone
    have hother := hafter (UInt64.ofNat (rowid.toNat % 2 ^ 32))
    rw [if_pos hleft, Function.update_of_ne fun heq =>
      hne ((congrArg UInt64.toNat heq).symm.trans hleft)] at hother
    exact hother.symm

theorem shows_of_ready (h : Ready E table cols db) : Shows E table cols db := by
  obtain ⟨t, h, hcols⟩ := h
  intro rowid col hcol
  obtain ⟨hret, hdb⟩ := shdbRowValue_spec h (hcols col hcol) rowid
  rw [hret, book_eq h]
  exact ⟨rfl, book_same hdb⟩

end Step

/-! ## Runs -/

/-- Along a run of safe calls, each is a step of the abstract table, and the texts that
are in it are returned. -/
theorem rows_refine {E : Engine rowidCol} {table : Text} {cols : List Text} :
    ∀ (calls : List (RowCall cols))
    (db : E.Conn), Ready E table cols db → KeepsAlong (rowStep E table)
    (fun db call => call.Safe E table db) db calls →
      KeepsAlong (rowStep E table) (fun db call => call.Refines E table db) db calls ∧
        AlwaysAlong (rowStep E table) (Shows E table cols) db calls := by
  -- induction on the calls
  intro calls
  induction calls with
  | nil => exact fun db hready _ => ⟨trivial, shows_of_ready hready⟩
  | cons call calls ih =>
    rintro db hready ⟨hsafe, hrest⟩
    obtain ⟨hstep, hnext⟩ := call.refines hready hsafe
    obtain ⟨hsteps, hshows⟩ := ih _ hnext (hrest _ rfl)
    refine ⟨⟨hstep, ?_⟩, shows_of_ready hready, ?_⟩
    · intro db' hdb'
      cases hdb'
      exact hsteps
    · intro db' hdb'
      cases hdb'
      exact hshows

/-! ## A run -/

section Notes

def notesCols : List Text := ["text".toList]

/-- A database with an empty table of one column. -/
def notes : Db rowidCol :=
  Db.put { tables := [], last := 0, distinct := List.nodup_nil }
    (Table.addColumn (.empty "notes".toList) "text".toList List.not_mem_nil (by decide))

theorem notes_ready : Ready (plainEngine rowidCol) "notes".toList notesCols notes := by
  have hname : IsWord "notes".toList ∧ IsWord "text".toList := by decide
  refine ⟨_, ⟨hname.1, by decide, Db.table_put_self _ _⟩, fun col hcol => ?_⟩
  rw [notesCols, List.mem_singleton] at hcol
  subst hcol
  exact ⟨hname.2, by decide, List.mem_cons_self⟩

def textCol : { col : Text // col ∈ notesCols } := ⟨"text".toList, List.mem_cons_self⟩

/-- A text with a mark in it is set, and another one is looked for. -/
def noteCalls : List (RowCall notesCols) :=
  [.rowNew, .rowSet 1 textCol ['a', mark, 'b'], .rowFind textCol ['a'], .rowDelete 1]

theorem notes_refine :
    KeepsAlong (rowStep (plainEngine rowidCol) "notes".toList)
        (fun db call => call.Refines (plainEngine rowidCol) "notes".toList db) notes noteCalls ∧
      AlwaysAlong (rowStep (plainEngine rowidCol) "notes".toList)
        (Shows (plainEngine rowidCol) "notes".toList notesCols) notes noteCalls := by
  refine @rows_refine (plainEngine rowidCol) "notes".toList _ noteCalls notes notes_ready ⟨trivial,
    fun db' _ => ⟨trivial, fun db' _ => ⟨?_, fun db' _ => ⟨?_, ?_⟩⟩⟩⟩
  · show mark ∉ ['a']
    decide
  · exact .inl (by decide)
  · exact fun _ _ => trivial

end Notes

end LibShare.Fs
