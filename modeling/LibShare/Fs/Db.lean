import LibShare.Base
import LibShare.Lib.SqlTable
import LibShare.Net.PeerText

/-!
# libshare — tables of a database

The functions of `shfs_db.c` on tables, columns and rows.

* A database is a connection of an engine, and every function writes the text of a
  statement for it. `sprintf` is as far as the formats here need it.
* A row number is 64 bits.
* The log, and memory that runs out, are left out.

Each function does to the table what its statement says (`shdbRowSet_spec` and the
like), as long as the table and the columns have names that the engine takes for such.
`shdb_row_find` writes the value as it is, and does so for values without marks only.
-/

namespace LibShare.Fs

open LibShare.Sql

/-! ## Formats -/

/-- `sprintf`: a text in place of each conversion. -/
def sprintfLoop : Text → List Text → Text
  | [], _ => []
  | '%' :: '%' :: format, args => '%' :: sprintfLoop format args
  | '%' :: 'l' :: 'l' :: 'u' :: format, arg :: args => arg ++ sprintfLoop format args
  | '%' :: _ :: format, arg :: args => arg ++ sprintfLoop format args
  | c :: format, args => c :: sprintfLoop format args

def sprintf (format : String) (args : List Text) : Text := sprintfLoop format.toList args

/-- A number as `%d` and `%ld` print it. -/
def decimal (n : Int) : Text := if n < 0 then '-' :: number (-n).toNat else number n.toNat

/-- The key column of every table. -/
def rowidCol : Text := "_rowid".toList

/-- `atoll`. -/
def atoll (t : Text) : Int := Net.atoi t

theorem ofInt_natCast (n : Nat) : UInt64.ofInt n = UInt64.ofNat n := by
  have hmod : ((n : Int) % 2 ^ 64).toNat = n % 2 ^ 64 := by omega
  rw [UInt64.ofInt, hmod]
  exact UInt64.ofNat_mod_size

/-- A number that has been written is read back. -/
theorem atoll_number (n : Nat) : atoll (number n) = n := Net.atoi_digits n

/-- A number with its sign is read back. -/
theorem atoll_decimal (n : Int) : atoll (decimal n) = n := by
  unfold decimal
  split
  · next hneg =>
    -- the sign is no blank
    have hsign : atoll ('-' :: number (-n).toNat) = -Net.leadingNat (number (-n).toNat) := rfl
    rw [hsign, number, Net.leadingNat_digits]
    omega
  · next hpos =>
    rw [atoll_number]
    omega

/-! ## Functions -/

section Functions

variable (E : Engine rowidCol)

/-- `shdb_exec`. -/
def shdbExec (db : E.Conn) (sql : Text) : Except Sherr Unit × E.Conn :=
  let (out, db) := E.exec db sql
  match out.error with
  | some errmsg => (.error (if "already exists".toList <:+: errmsg then .exist else .inval), db)
  | none => (.ok (), db)

/-- `shdb_exec_cb`. -/
def shdbExecCb {α : Type} (db : E.Conn) (sql : Text)
    (func : α → List (Text × Option Text) → α) (arg : α) :
    Except Sherr Unit × α × E.Conn :=
  let (out, db) := E.exec db sql
  (if out.error.isSome then .error .inval else .ok (), out.rows.foldl func arg, db)

/-- `shdb_col_num_cb`. -/
def shdbColNumCb (_val : UInt64) (args : List (Text × Option Text)) : UInt64 :=
  match args with
  | (_, some arg) :: _ => UInt64.ofInt (atoll arg)
  | _ => 0

/-- `shdb_col_value_cb`. -/
def shdbColValueCb (_value : Option Text) (args : List (Text × Option Text)) : Option Text :=
  match args with
  | (_, some arg) :: _ => some arg
  | _ => none

/-- `shdb_table_new`. -/
def shdbTableNew (db : E.Conn) (table : Text) : Except Sherr Unit × E.Conn :=
  if table.length > 256 then (.error .inval, db)
  else shdbExec E db (sprintf "create table %s ( _rowid INTEGER PRIMARY KEY ASC )" [table])

/-- `shdb_col_new`. -/
def shdbColNew (db : E.Conn) (table col : Text) : Except Sherr Unit × E.Conn :=
  if table.length > 256 then (.error .inval, db)
  else if col.length > 256 then (.error .inval, db)
  else shdbExec E db (sprintf "alter table %s add column %s text" [table, col])

/-- `shdb_row_new`, with `sqlite3_last_insert_rowid`. -/
def shdbRowNew (db : E.Conn) (table : Text) : Except Sherr UInt64 × E.Conn :=
  if table.length > 256 then (.error .inval, db)
  else
    let (err, db) := shdbExec E db (sprintf "insert into %s (_rowid) values (null)" [table])
    (err.map fun _ => UInt64.ofNat (E.db db).last, db)

/-- `shdb_row_set`. The conversion `%Q` is of `sqlite3_mprintf`. -/
def shdbRowSet (db : E.Conn) (table : Text) (rowid : UInt64) (col : Text) (text : Option Text) :
    Except Sherr Unit × E.Conn :=
  shdbExec E db
    (sprintf "update %s set %s = %Q where _rowid = %llu" [table, col, spellValue text,
      number rowid.toNat])

/-- `shdb_row_set_time`. -/
def shdbRowSetTime (db : E.Conn) (table : Text) (rowid : UInt64) (col : Text) :
    Except Sherr Unit × E.Conn :=
  if table.length > 256 then (.error .inval, db)
  else shdbExec E db
    (sprintf "update %s set %s = CURRENT_TIMESTAMP where _rowid = %llu" [table, col,
      number rowid.toNat])

/-- `shdb_row_time`. -/
def shdbRowTime (db : E.Conn) (table : Text) (rowid : UInt64) (col : Text) : UInt64 × E.Conn :=
  if table.length > 256 then (0, db)
  else
    let (err, val, db) := shdbExecCb E db
      (sprintf "select strftime('%%s', %s) from %s where _rowid = %llu" [col, table,
        number rowid.toNat])
      shdbColNumCb 0
    (match err with
      | .error _ => 0
      | .ok () => val, db)

/-- `shdb_row_value`. -/
def shdbRowValue (db : E.Conn) (table : Text) (rowid : UInt64) (col : Text) :
    Option Text × E.Conn :=
  if table.length > 256 then (none, db)
  else if col.length > 256 then (none, db)
  else
    let (err, value, db) := shdbExecCb E db
      (sprintf "select %s from %s where _rowid = %llu" [col, table, number rowid.toNat])
        shdbColValueCb none
    (match err with
      | .error _ => none
      | .ok () => value, db)

/-- `SHSQL_LIKE`. -/
def shsqlLike : UInt32 := 1

/-- `shdb_row_find` of a value. -/
def shdbRowFind (db : E.Conn) (table col val : Text) (flags : UInt32) :
    Except Sherr UInt64 × E.Conn :=
  let sqlStr :=
    if flags &&& shsqlLike ≠ 0 then
      sprintf "select _rowid from %s where %s like '%%%s%%'" [table, col, val]
    else sprintf "select _rowid from %s where %s = '%s'" [table, col, val]
  let (err, retVal, db) := shdbExecCb E db sqlStr shdbColValueCb none
  (match err, retVal with
    | .error err, _ => .error err
    | .ok (), none => .error .noent
    | .ok (), some retVal => .ok (UInt64.ofInt (atoll retVal)), db)

/-- `shdb_row_delete`. The row is written as an `unsigned int`. -/
def shdbRowDelete (db : E.Conn) (table : Text) (rowid : UInt64) : Except Sherr Unit × E.Conn :=
  if table.length > 256 then (.error .inval, db)
  else shdbExec E db (sprintf "delete from %s where _rowid = %u" [table,
    number rowid.toUInt32.toNat])

end Functions

/-! ## Texts -/

section Texts

variable {table col : Text}

/-- The condition on the row number, as the engine reads it. -/
theorem lexes_where (row : Nat) :
    Lexes ("where".toList ++ ' ' :: (rowidCol ++ ' ' :: '=' :: ' ' :: number row))
    (whereRow rowidCol row) :=
  .next (by decide) <| .next (by decide) <| .sym (by decide) <| .blank <| .last (isWord_number row)

/-- The text of `create`, as the engine reads it. -/
theorem lexes_create (ht : IsWord table) :
    Lexes (sprintf "create table %s ( _rowid INTEGER PRIMARY KEY ASC )" [table])
      ((Stmt.create table).toks rowidCol) := by
  show Lexes ("create".toList ++ ' ' ::
      ("table".toList ++ ' ' :: (table ++ ' ' :: '(' :: ' ' :: (rowidCol ++ ' ' ::
    ("INTEGER".toList ++ ' ' :: ("PRIMARY".toList ++ ' ' ::
      ("KEY".toList ++ ' ' :: ("ASC".toList ++ ' ' ::
      ')' :: [])))))))) _
  exact .next (by decide) <| .next (by decide) <| .next ht <| .sym (by
    decide) <| .blank <| .next (by decide) <|
    .next (by decide) <| .next (by decide) <| .next (by decide) <| .next (by decide) <| .sym (by
      decide) .nil

/-- The text of `alter`, as the engine reads it. -/
theorem lexes_addColumn (ht : IsWord table) (hc : IsWord col) :
    Lexes (sprintf "alter table %s add column %s text" [table, col])
      ((Stmt.addColumn table col).toks rowidCol) := by
  show Lexes ("alter".toList ++ ' ' ::
      ("table".toList ++ ' ' :: (table ++ ' ' :: ("add".toList ++ ' ' ::
    ("column".toList ++ ' ' :: (col ++ ' ' :: "text".toList)))))) _
  exact .next (by decide) <| .next (by decide) <| .next ht <| .next (by decide) <| .next (by
    decide) <| .next hc <|
    .last (by decide)

/-- The text of `insert`, as the engine reads it. -/
theorem lexes_insert (ht : IsWord table) :
    Lexes (sprintf "insert into %s (_rowid) values (null)" [table])
      ((Stmt.insert table).toks rowidCol) := by
  show Lexes ("insert".toList ++ ' ' ::
      ("into".toList ++ ' ' :: (table ++ ' ' :: '(' :: (rowidCol ++ ')' :: ' ' ::
    ("values".toList ++ ' ' :: '(' :: ("null".toList ++ ')' :: [])))))) _
  exact .next (by decide) <| .next (by decide) <| .next ht <| .sym (by decide) <| .word (by decide)
    (by decide) <|
    .sym (by decide) <| .blank <| .next (by decide) <| .sym (by decide) <| .word (by decide)
      (by decide) <|
    .sym (by decide) .nil

/-- The value is written with its marks doubled. -/
theorem lexes_update (ht : IsWord table) (hc : IsWord col) (text : Option Text) (row : Nat) :
    Lexes (sprintf "update %s set %s = %Q where _rowid = %llu" [table, col, spellValue text,
      number row])
      ((Stmt.update table col text row).toks rowidCol) := by
  have hrest : Lexes (spellValue text ++ ' ' ::
      ("where".toList ++ ' ' :: (rowidCol ++ ' ' :: '=' :: ' ' :: number row)))
      (text.elim (.word "NULL".toList) .str :: whereRow rowidCol row) := by
    cases text with
    | none => exact .next (by decide) (lexes_where row)
    | some t => exact .str (by decide) (lexes_where row).blank
  have hlast : number row ++ [] = number row := List.append_nil _
  show Lexes ("update".toList ++ ' ' ::
      (table ++ ' ' :: ("set".toList ++ ' ' :: (col ++ ' ' :: '=' :: ' ' ::
    (spellValue text ++ ' ' :: ("where".toList ++ ' ' ::
      (rowidCol ++ ' ' :: '=' :: ' ' :: (number row ++ [])))))))) _
  rw [hlast]
  exact .next (by decide) <| .next ht <| .next (by decide) <| .next hc <| .sym (by
    decide) <| .blank hrest

/-- The text of `update` with the time, as the engine reads it. -/
theorem lexes_stamp (ht : IsWord table) (hc : IsWord col) (row : Nat) :
    Lexes (sprintf "update %s set %s = CURRENT_TIMESTAMP where _rowid = %llu" [table, col,
      number row])
      ((Stmt.stamp table col row).toks rowidCol) := by
  have hlast : number row ++ [] = number row := List.append_nil _
  show Lexes ("update".toList ++ ' ' ::
      (table ++ ' ' :: ("set".toList ++ ' ' :: (col ++ ' ' :: '=' :: ' ' ::
    ("CURRENT_TIMESTAMP".toList ++ ' ' :: ("where".toList ++ ' ' ::
      (rowidCol ++ ' ' :: '=' :: ' ' ::
      (number row ++ [])))))))) _
  rw [hlast]
  exact .next (by decide) <| .next ht <| .next (by decide) <| .next hc <| .sym (by
    decide) <| .blank <|
    .next (by decide) (lexes_where row)

/-- The text of `select`, as the engine reads it. -/
theorem lexes_select (ht : IsWord table) (hc : IsWord col) (row : Nat) :
    Lexes (sprintf "select %s from %s where _rowid = %llu" [col, table, number row])
      ((Stmt.select col table row).toks rowidCol) := by
  have hlast : number row ++ [] = number row := List.append_nil _
  show Lexes ("select".toList ++ ' ' :: (col ++ ' ' :: ("from".toList ++ ' ' :: (table ++ ' ' ::
    ("where".toList ++ ' ' :: (rowidCol ++ ' ' :: '=' :: ' ' :: (number row ++ []))))))) _
  rw [hlast]
  exact .next (by decide) <| .next hc <| .next (by decide) <| .next ht (lexes_where row)

/-- The text of `select` with seconds, as the engine reads it. -/
theorem lexes_seconds (ht : IsWord table) (hc : IsWord col) (row : Nat) :
    Lexes (sprintf "select strftime('%%s', %s) from %s where _rowid = %llu" [col, table,
      number row])
      ((Stmt.seconds col table row).toks rowidCol) := by
  have hlast : number row ++ [] = number row := List.append_nil _
  show Lexes ("select".toList ++ ' ' ::
      ("strftime".toList ++ '(' :: (spell "%s".toList ++ ',' :: ' ' :: (col ++ ')' ::
    ' ' :: ("from".toList ++ ' ' :: (table ++ ' ' ::
      ("where".toList ++ ' ' :: (rowidCol ++ ' ' :: '=' :: ' ' ::
      (number row ++ []))))))))) _
  rw [hlast]
  exact .next (by decide) <| .word (by decide)
    (by decide) <| .sym (by decide) <| .str (by decide) <|
    .sym (by decide) <| .blank <| .word hc (by decide) <| .sym (by
      decide) <| .blank <| .next (by decide) <|
    .next ht (lexes_where row)

/-- The value is written as it is. -/
theorem lexes_find (ht : IsWord table) (hc : IsWord col) {val : Text} (hval : mark ∉ val) :
    Lexes (sprintf "select _rowid from %s where %s = '%s'" [table, col, val])
      ((Stmt.find table col val).toks rowidCol) := by
  show Lexes ("select".toList ++ ' ' ::
      (rowidCol ++ ' ' :: ("from".toList ++ ' ' :: (table ++ ' ' ::
    ("where".toList ++ ' ' :: (col ++ ' ' :: '=' :: ' ' :: (mark :: (val ++ [mark])))))))) _
  rw [← spell_plain hval]
  exact .next (by decide) <| .next (by decide) <| .next (by decide) <| .next ht <| .next (by
    decide) <| .next hc <|
    .sym (by decide) <| .blank .last_str

/-- The text of `delete`, as the engine reads it. -/
theorem lexes_delete (ht : IsWord table) (row : Nat) :
    Lexes (sprintf "delete from %s where _rowid = %u" [table, number row])
      ((Stmt.delete table row).toks rowidCol) := by
  have hlast : number row ++ [] = number row := List.append_nil _
  show Lexes ("delete".toList ++ ' ' :: ("from".toList ++ ' ' :: (table ++ ' ' ::
    ("where".toList ++ ' ' :: (rowidCol ++ ' ' :: '=' :: ' ' :: (number row ++ [])))))) _
  rw [hlast]
  exact .next (by decide) <| .next (by decide) <| .next ht (lexes_where row)

end Texts

/-! ## What the functions do -/

section Specs

variable {E : Engine rowidCol} {db : E.Conn} {sql table col : Text} {t : Table rowidCol}

/-- The database has the table, under a name that is taken for one. -/
structure On (E : Engine rowidCol) (db : E.Conn) (table : Text) (t : Table rowidCol) : Prop where
  name : E.IsName table
  short : table.length ≤ 256
  found : (E.db db).table table = some t

/-- The table has the column, and its name is taken for one. -/
structure Column (E : Engine rowidCol) (t : Table rowidCol) (col : Text) : Prop where
  name : E.IsName col
  short : col.length ≤ 256
  has : t.Has col

/-- A row number is that of a key. -/
theorem toNat_ofNat_key {n : Nat} (h : IsKey n) : (UInt64.ofNat n).toNat = n := by
  have hlt : n < 2 ^ 64 := lt_of_le_of_lt h.2 (by decide)
  exact Nat.mod_eq_of_lt hlt

/-- The table is there still, with other rows. -/
theorem On.put (h : On E db table t) {db' : E.Conn} {t' : Table rowidCol} (hname : t'.name = t.name)
    (hdb : E.db db' = (E.db db).put t') : On E db' table t' where
  name := h.name
  short := h.short
  found := by
    rw [hdb]
    exact Db.table_replace h.found hname

/-- Another connection to the same database, or the same one later. -/
theorem On.same (h : On E db table t) {db' : E.Conn} (hdb : E.db db' = E.db db) :
    On E db' table t where
  name := h.name
  short := h.short
  found := by
    rw [hdb]
    exact h.found

theorem Column.same {t' : Table rowidCol} (h : Column E t col) (hcols : t'.cols = t.cols) :
    Column E t' col where
  name := h.name
  short := h.short
  has := by
    rw [Table.Has, hcols]
    exact h.has

/-- A statement that is done returns zero. -/
theorem exec_done (h : (E.exec db sql).1 = .done) :
    shdbExec E db sql = (.ok (), (E.exec db sql).2) := by
  unfold shdbExec
  rcases hexec : E.exec db sql with ⟨out, db'⟩
  rw [hexec] at h
  subst h
  rfl

/-- A statement that fails returns what its message says. -/
theorem exec_failed {errmsg : Text} (h : (E.exec db sql).1.error = some errmsg) :
    shdbExec E db sql =
    (.error (if "already exists".toList <:+: errmsg then .exist else .inval),
      (E.exec db sql).2) := by
  unfold shdbExec
  rcases hexec : E.exec db sql with ⟨out, db'⟩
  rw [hexec] at h
  dsimp only at h ⊢
  rw [h]

/-- Without an error, the rows are given to the function one by one. -/
theorem exec_rows {α : Type} {func : α → List (Text × Option Text) → α} {arg : α}
    (h : (E.exec db sql).1.error = none) : shdbExecCb E db sql func arg =
      (.ok (), (E.exec db sql).1.rows.foldl func arg, (E.exec db sql).2) := by
  unfold shdbExecCb
  rcases hexec : E.exec db sql with ⟨out, db'⟩
  rw [hexec] at h
  dsimp only at h ⊢
  rw [h]
  rfl

/-- What is kept of the rows is the first value of the last one. -/
theorem foldl_value (rows : List (List (Text × Option Text))) : ∀ value : Option Text,
    rows.foldl shdbColValueCb value =
      (rows.map (List.map Prod.snd)).getLast?.elim value fun row => row.head?.bind id := by
  induction rows with
  | nil => exact fun _ => rfl
  | cons row rows ih =>
    intro value
    rw [List.foldl_cons, ih, List.map_cons, List.getLast?_cons]
    cases hlast : (rows.map (List.map Prod.snd)).getLast? with
    | some r => rfl
    | none =>
      rcases row with _ | ⟨⟨name, _ | arg⟩, row⟩ <;> rfl

/-- A new table, without columns. -/
theorem shdbTableNew_spec (hname : E.IsName table) (hshort : table.length ≤ 256)
    (hnone : (E.db db).table table = none) :
    (shdbTableNew E db table).1 = .ok () ∧ E.db (shdbTableNew E db table).2 =
    (E.db db).put (.empty table) := by
  have hruns :=
    E.runs (c := db) (lexes_create (E.word hname)) (by simpa [Stmt.names] using hname) hnone
  obtain ⟨hout, hdb⟩ := hruns.create_inv
  rw [shdbTableNew, if_neg (Nat.not_lt.mpr hshort), exec_done hout]
  exact ⟨rfl, hdb⟩

variable (h : On E db table t)
include h

/-- A new column is added to the table. -/
theorem shdbColNew_spec (hname : E.IsName col) (hshort : col.length ≤ 256) (hnew : ¬ t.Has col)
    (hkey : fold col ≠ fold rowidCol) :
    (shdbColNew E db table col).1 = .ok () ∧
      E.db (shdbColNew E db table col).2 = (E.db db).put (t.addColumn col hnew hkey) := by
  have hruns := E.runs (c := db) (lexes_addColumn (E.word h.name) (E.word hname))
    (by simpa [Stmt.names] using ⟨h.name, hname⟩) ⟨t, h.found, hnew, hkey⟩
  obtain ⟨hout, hdb⟩ := hruns.addColumn_inv h.found hnew hkey
  rw [shdbColNew, if_neg (Nat.not_lt.mpr h.short), if_neg (Nat.not_lt.mpr hshort), exec_done hout]
  exact ⟨rfl, hdb⟩

/-- One value of one row is set. -/
theorem shdbRowSet_spec (hc : Column E t col) (rowid : UInt64) (text : Option Text) :
    (shdbRowSet E db table rowid col text).1 = .ok () ∧
      E.db (shdbRowSet E db table rowid col text).2 =
        (E.db db).put (t.update rowid.toNat col text) := by
  have hruns := E.runs (c := db) (lexes_update (E.word h.name) (E.word hc.name) text rowid.toNat)
    (by simpa [Stmt.names] using ⟨h.name, hc.name⟩) ⟨t, h.found, by simpa using hc.has⟩
  obtain ⟨hout, hdb⟩ := hruns.update_inv h.found
  rw [shdbRowSet, exec_done hout]
  exact ⟨rfl, hdb⟩

/-- One value of one row is set to the time. -/
theorem shdbRowSetTime_spec (hc : Column E t col) (rowid : UInt64) :
    (shdbRowSetTime E db table rowid col).1 = .ok () ∧ ∃ time,
      E.db (shdbRowSetTime E db table rowid col).2 =
        (E.db db).put (t.update rowid.toNat col (some time)) := by
  have hruns := E.runs (c := db) (lexes_stamp (E.word h.name) (E.word hc.name) rowid.toNat)
    (by simpa [Stmt.names] using ⟨h.name, hc.name⟩) ⟨t, h.found, by simpa using hc.has⟩
  obtain ⟨time, hout, hdb⟩ := hruns.stamp_inv h.found
  rw [shdbRowSetTime, if_neg (Nat.not_lt.mpr h.short), exec_done hout]
  exact ⟨rfl, time, hdb⟩

/-- Reading a time leaves the database as it is. -/
theorem shdbRowTime_spec (hc : Column E t col) (rowid : UInt64) :
    E.db (shdbRowTime E db table rowid col).2 = E.db db := by
  have hruns := E.runs (c := db) (lexes_seconds (E.word h.name) (E.word hc.name) rowid.toNat)
    (by simpa [Stmt.names] using ⟨hc.name, h.name⟩) ⟨t, h.found, by simpa using hc.has⟩
  rw [shdbRowTime, if_neg (Nat.not_lt.mpr h.short)]
  exact hruns.seconds_inv

/-- The value in the row is returned. -/
theorem shdbRowValue_spec (hc : Column E t col) (rowid : UInt64) :
    (shdbRowValue E db table rowid col).1 = (t.row rowid.toNat).bind (fun r => r (fold col)) ∧
      E.db (shdbRowValue E db table rowid col).2 = E.db db := by
  have hruns := E.runs (c := db) (lexes_select (E.word h.name) (E.word hc.name) rowid.toNat)
    (by simpa [Stmt.names] using ⟨hc.name, h.name⟩) ⟨t, h.found, by simpa using hc.has⟩
  obtain ⟨hrows, herr, hdb⟩ := hruns.select_inv h.found
  rw [shdbRowValue, if_neg (Nat.not_lt.mpr h.short), if_neg (Nat.not_lt.mpr hc.short),
    exec_rows herr]
  refine ⟨?_, hdb⟩
  dsimp only
  rw [foldl_value]
  unfold Output.values at hrows
  rw [hrows]
  cases t.row rowid.toNat <;> rfl

/-- A row is inserted, unless there is no room for one. -/
theorem shdbRowNew_spec :
    (∃ n, ∃ hkey : IsKey n, n ∉ t.keys ∧ (t.Room → n = t.nextKey) ∧
      (shdbRowNew E db table).1 = .ok (UInt64.ofNat n) ∧
      E.db (shdbRowNew E db table).2 = { (E.db db).put (t.insert n hkey) with last := n }) ∨
    (¬ t.Room ∧ (∃ err, (shdbRowNew E db table).1 = .error err) ∧
      E.db (shdbRowNew E db table).2 = E.db db) := by
  have hruns := E.runs (c := db) (lexes_insert (E.word h.name))
    (by simpa [Stmt.names] using h.name) ⟨t, h.found, fun _ h => absurd h List.not_mem_nil⟩
  rw [shdbRowNew, if_neg (Nat.not_lt.mpr h.short)]
  rcases hruns.insert_inv h.found with ⟨n, hkey, hnew, hnext, hout, hdb⟩ | ⟨hfull, ⟨err, hout⟩, hdb⟩
  · refine .inl ⟨n, hkey, hnew, hnext, ?_, ?_⟩
    · rw [exec_done hout]
      dsimp only
      rw [hdb]
      rfl
    · rw [exec_done hout]
      exact hdb
  · rw [exec_failed (by rw [hout])]
    exact .inr ⟨hfull, ⟨_, rfl⟩, hdb⟩

/-- One of the rows that have the value is found, if there is any. -/
theorem shdbRowFind_spec (hc : Column E t col) {val : Text} (hval : mark ∉ val) :
    ((∃ n r, t.row n = some r ∧ r (fold col) = some val ∧
      (shdbRowFind E db table col val 0).1 = .ok (UInt64.ofNat n)) ∨
      (t.holding col val = [] ∧ (shdbRowFind E db table col val 0).1 = .error .noent)) ∧
      E.db (shdbRowFind E db table col val 0).2 = E.db db := by
  have hruns := E.runs (c := db) (lexes_find (E.word h.name) (E.word hc.name) hval)
    (by simpa [Stmt.names] using ⟨h.name, hc.name⟩) ⟨t, h.found, by simpa using hc.has⟩
  obtain ⟨hrows, herr, hdb⟩ := hruns.find_inv h.found
  have hflags : ¬ (0 &&& shsqlLike ≠ 0) := by decide
  rw [shdbRowFind, if_neg hflags, exec_rows herr]
  refine ⟨?_, hdb⟩
  dsimp only
  rw [foldl_value]
  unfold Output.values at hrows
  cases hlast : ((E.exec db _).1.rows.map (List.map Prod.snd)).getLast? with
  | none =>
    rw [List.getLast?_eq_none_iff] at hlast
    rw [hlast] at hrows
    exact .inr ⟨List.map_eq_nil_iff.mp hrows.nil_eq.symm, rfl⟩
  | some last =>
    -- the last row that is selected is one of those that have the value
    obtain ⟨⟨n, r⟩, hr, rfl⟩ := List.mem_map.mp (hrows.mem_iff.mp (List.mem_of_getLast? hlast))
    obtain ⟨hrow, hholds⟩ := Table.mem_holding.mp hr
    refine .inl ⟨n, r, hrow, hholds, ?_⟩
    show Except.ok (UInt64.ofInt (atoll (number n))) = _
    rw [atoll_number, ofInt_natCast]

/-- The row whose number is the rest of the row number is deleted. -/
theorem shdbRowDelete_spec (rowid : UInt64) :
    (shdbRowDelete E db table rowid).1 = .ok () ∧
      E.db (shdbRowDelete E db table rowid).2 =
        (E.db db).put (t.delete (rowid.toNat % 2 ^ 32)) := by
  have hruns := E.runs (c := db) (lexes_delete (E.word h.name) rowid.toUInt32.toNat)
    (by simpa [Stmt.names] using h.name) ⟨t, h.found, fun _ h => absurd h List.not_mem_nil⟩
  obtain ⟨hout, hdb⟩ := hruns.delete_inv h.found
  rw [shdbRowDelete, if_neg (Nat.not_lt.mpr h.short), exec_done hout]
  exact ⟨rfl, hdb⟩

end Specs

section Columns

variable {E : Engine rowidCol} {table : Text}

/-- The columns are added one by one. -/
theorem cols_on :
    ∀ (fields : List Text) {db : E.Conn} {t : Table rowidCol}, On E db table t → t.rows = [] →
    (∀ col ∈ fields, E.IsName col ∧ col.length ≤ 256) → ((t.cols ++ fields).map fold).Nodup →
      fold rowidCol ∉ fields.map fold → ∃ t', On E
        (fields.foldl (fun db col => (shdbColNew E db table col).2) db) table t' ∧
        t'.cols = t.cols ++ fields ∧ t'.rows = [] := by
  intro fields
  induction fields with
  | nil => exact fun h hrows _ _ _ => ⟨_, h, (List.append_nil _).symm, hrows⟩
  | cons col fields ih =>
    intro db t h hrows hnames hnodup hkey
    rw [List.map_cons, List.mem_cons, not_or] at hkey
    have hnew : ¬ t.Has col := by
      rw [List.map_append, List.map_cons, List.nodup_append] at hnodup
      exact fun hhas => hnodup.2.2 _ hhas _ List.mem_cons_self rfl
    obtain ⟨hname, hshort⟩ := hnames col List.mem_cons_self
    obtain ⟨-, hdb⟩ := shdbColNew_spec h hname hshort hnew (Ne.symm hkey.1)
    have hon : On E (shdbColNew E db table col).2 table (t.addColumn col hnew (Ne.symm hkey.1)) :=
      h.put rfl hdb
    have hempty : (t.addColumn col hnew (Ne.symm hkey.1)).rows = [] := by
      simp only [Table.addColumn, Table.mapRows, hrows, List.map_nil]
    have hcols : (t.addColumn col hnew (Ne.symm hkey.1)).cols = t.cols ++ [col] := rfl
    obtain ⟨t', hon', hcols', hrows'⟩ :=
      ih hon hempty (fun c hc => hnames c (List.mem_cons_of_mem _ hc))
      (by rw [hcols, List.append_assoc]; exact hnodup) hkey.2
    exact ⟨t', hon', by rw [hcols', hcols, List.append_assoc]; rfl, hrows'⟩

end Columns

end LibShare.Fs
