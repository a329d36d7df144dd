import LibShare.Lib.Keyed
import LibShare.Lib.Sql
import Mathlib.Data.Char
import Mathlib.Data.List.Lex
import Mathlib.Data.List.Sort
import Mathlib.Order.WithBot

/-!
# Tables, and what statements do to them

A table has a numeric key and columns of texts, and a database has tables. The names
of columns and tables are compared without their case.

* `Table` — its columns are distinct, and its rows are in the order of their keys.
* `Runs` — what a statement selects, and what it leaves. Where SQL leaves a choice
  (the order of the rows, the key of a row after the largest one, the time), it is
  left here too.
* `Engine` — what executes texts. It does what a statement says where the text is one
  that fits the database; nothing is known of it otherwise.
* `plainEngine` — an engine, which makes every choice.
-/

namespace LibShare.Sql

/-- A name without its case. -/
def fold (t : Text) : Text := t.map Char.toLower

/-- The largest key. -/
def maxKey : Nat := 9223372036854775807

/-- The keys that a new row may have. -/
def IsKey (n : Nat) : Prop := 1 ≤ n ∧ n ≤ maxKey

instance (n : Nat) : Decidable (IsKey n) := inferInstanceAs (Decidable (_ ∧ _))

/-- The values of a row but for its key, by the names of their columns without their case. -/
abbrev Row : Type := Text → Option Text

/-! ## Tables -/

/-- A table whose key column has the name `key`. -/
structure Table (key : Text) where
  name : Text
  cols : List Text
  rows : List (Nat × Row)
  distinct : (cols.map fold).Nodup
  noKey : fold key ∉ cols.map fold
  sorted : rows.Pairwise fun r s => r.1 < s.1
  isKey : ∀ r ∈ rows, IsKey r.1

namespace Table

variable {key : Text} {t : Table key} {n : Nat}

/-- The table has the column. -/
def Has (t : Table key) (col : Text) : Prop := fold col ∈ t.cols.map fold

/-- The row with a key. -/
def row (t : Table key) (n : Nat) : Option Row := (findKey Prod.fst t.rows n).map Prod.snd

def keys (t : Table key) : List Nat := t.rows.map Prod.fst

theorem keys_nodup (t : Table key) : t.keys.Nodup := by
  rw [keys, List.nodup_iff_pairwise_ne, List.pairwise_map]
  exact t.sorted.imp fun h => Nat.ne_of_lt h

/-- A row is found under its key. -/
theorem row_eq_some {r : Row} : t.row n = some r ↔ (n, r) ∈ t.rows := by
  rw [row, Option.map_eq_some_iff]
  simp only [findKey_eq_some t.keys_nodup]
  constructor
  · rintro ⟨p, ⟨hp, rfl⟩, rfl⟩
    exact hp
  · exact fun h => ⟨_, ⟨h, rfl⟩, rfl⟩

/-- There is no row under a number that is not a key. -/
theorem row_eq_none : t.row n = none ↔ n ∉ t.keys := by
  rw [row, Option.map_eq_none_iff, findKey_eq_none, keys]

/-- Two tables have the same row under a key if they have the same rows with it. -/
theorem row_congr {t' : Table key} {m : Nat} {f : Row → Row}
    (h : ∀ r, (n, r) ∈ t'.rows ↔ ∃ r', (m, r') ∈ t.rows ∧ f r' = r) :
    t'.row n = (t.row m).map f := by
  refine Option.ext fun r => ?_
  rw [row_eq_some, h, Option.map_eq_some_iff]
  simp only [row_eq_some]

/-- A table without columns and rows. -/
def empty (name : Text) : Table key where
  name := name
  cols := []
  rows := []
  distinct := List.nodup_nil
  noKey := List.not_mem_nil
  sorted := .nil
  isKey := fun _ h => absurd h List.not_mem_nil

/-- Other values in the rows. -/
def mapRows (t : Table key) (f : Nat → Row → Row) : Table key where
  name := t.name
  cols := t.cols
  rows := t.rows.map fun r => (r.1, f r.1 r.2)
  distinct := t.distinct
  noKey := t.noKey
  sorted := List.pairwise_map.mpr t.sorted
  isKey := by
    intro r hr
    obtain ⟨s, hs, rfl⟩ := List.mem_map.mp hr
    exact t.isKey s hs

/-- A change to all rows changes each row by itself. -/
theorem row_mapRows (f : Nat → Row → Row) : (t.mapRows f).row n = (t.row n).map (f n) := by
  refine row_congr fun r => ?_
  simp [mapRows]

/-- A value in a row. -/
def update (t : Table key) (n : Nat) (col : Text) (val : Option Text) : Table key :=
  t.mapRows fun m r => if m = n then Function.update r (fold col) val else r

/-- A new column, without values. -/
def addColumn (t : Table key) (col : Text) (hnew : ¬ t.Has col) (hkey : fold col ≠ fold key) :
    Table key where
  name := t.name
  cols := t.cols ++ [col]
  rows := (t.mapRows fun _ r => Function.update r (fold col) none).rows
  distinct := nodup_append_iff.mpr ⟨t.distinct, hnew⟩
  noKey := by
    rw [List.map_append, List.mem_append, not_or]
    exact ⟨t.noKey, fun h => hkey (List.mem_singleton.mp h).symm⟩
  sorted := (t.mapRows _).sorted
  isKey := (t.mapRows _).isKey

/-- A new row, without values. -/
def insert (t : Table key) (n : Nat) (hkey : IsKey n) : Table key where
  name := t.name
  cols := t.cols
  rows := t.rows.filter (·.1 < n) ++ (n, fun _ => none) :: t.rows.filter (n < ·.1)
  distinct := t.distinct
  noKey := t.noKey
  sorted := by
    rw [List.pairwise_append, List.pairwise_cons]
    refine ⟨t.sorted.filter _, ⟨fun r hr =>
      of_decide_eq_true (List.mem_filter.mp hr).2, t.sorted.filter _⟩, ?_⟩
    intro r hr s hs
    have hlow : r.1 < n := of_decide_eq_true (List.mem_filter.mp hr).2
    rcases List.mem_cons.mp hs with rfl | hs
    · exact hlow
    · exact hlow.trans (of_decide_eq_true (List.mem_filter.mp hs).2)
  isKey := by
    intro r hr
    rcases List.mem_append.mp hr with hr | hr
    · exact t.isKey r (List.mem_filter.mp hr).1
    · rcases List.mem_cons.mp hr with rfl | hr
      · exact hkey
      · exact t.isKey r (List.mem_filter.mp hr).1

/-- The rows of a table after a row has been inserted. -/
theorem mem_insert (hnew : n ∉ t.keys) {hkey : IsKey n} {p : Nat × Row} :
    p ∈ (t.insert n hkey).rows ↔ p = (n, fun _ => none) ∨ p ∈ t.rows := by
  have hne : p ∈ t.rows → p.1 ≠ n := fun hp h => hnew (h ▸ List.mem_map_of_mem hp)
  simp only [insert, List.mem_append, List.mem_cons, List.mem_filter, decide_eq_true_eq]
  constructor
  · rintro (⟨h, -⟩ | rfl | ⟨h, -⟩)
    · exact .inr h
    · exact .inl rfl
    · exact .inr h
  · rintro (rfl | h)
    · exact .inr (.inl rfl)
    · rcases Nat.lt_or_gt_of_ne (hne h) with hlt | hgt
      · exact .inl ⟨h, hlt⟩
      · exact .inr (.inr ⟨h, hgt⟩)

/-- A new row is blank, and the others are as they were. -/
theorem row_insert (hnew : n ∉ t.keys) {hkey : IsKey n} (m : Nat) :
    (t.insert n hkey).row m = if m = n then some fun _ => none else t.row m := by
  refine Option.ext fun r => ?_
  rw [row_eq_some, mem_insert hnew]
  split
  · next h =>
    subst h
    have hnone : (m, r) ∉ t.rows := fun hr => hnew (List.mem_map_of_mem hr)
    simp [hnone, eq_comm]
  · next h => simp [h, row_eq_some]

/-- The table without a row. -/
def delete (t : Table key) (n : Nat) : Table key where
  name := t.name
  cols := t.cols
  rows := t.rows.filter (·.1 ≠ n)
  distinct := t.distinct
  noKey := t.noKey
  sorted := t.sorted.filter _
  isKey := fun r hr => t.isKey r (List.mem_filter.mp hr).1

/-- The row is gone, and the others are as they were. -/
theorem row_delete (m : Nat) : (t.delete n).row m = if m = n then none else t.row m := by
  refine Option.ext fun r => ?_
  rw [row_eq_some]
  split
  · next h => simp [delete, h]
  · next h => simp [delete, h, row_eq_some]

/-- One column of one row has a new value. -/
theorem row_update (m : Nat) (col : Text) (val : Option Text) : (t.update n col val).row m =
    (t.row m).map fun r => if m = n then Function.update r (fold col) val else r := row_mapRows _

/-- The rows that have a value. -/
def holding (t : Table key) (col val : Text) : List (Nat × Row) :=
  t.rows.filter fun r => r.2 (fold col) = some val

/-- The rows that hold a value in a column. -/
theorem mem_holding {col val : Text} {p : Nat × Row} :
    p ∈ t.holding col val ↔ t.row p.1 = some p.2 ∧ p.2 (fold col) = some val := by
  rw [holding, List.mem_filter, row_eq_some, decide_eq_true_eq]

/-- There is a key above those of the rows. -/
def Room (t : Table key) : Prop := ∀ n ∈ t.keys, n < maxKey

instance (t : Table key) : Decidable t.Room := inferInstanceAs (Decidable (∀ n ∈ t.keys, _))

/-- The key above those of the rows. -/
def nextKey (t : Table key) : Nat := t.keys.foldr max 0 + 1

/-- No number is greater than the maximum. -/
theorem le_foldr_max {ns : List Nat} (h : n ∈ ns) : n ≤ ns.foldr max 0 := by
  induction ns with
  | nil => cases h
  | cons m ns ih =>
    rcases List.mem_cons.mp h with rfl | h
    · exact Nat.le_max_left _ _
    · exact (ih h).trans (Nat.le_max_right _ _)

/-- The maximum of some numbers is one of them. -/
theorem foldr_max_mem {ns : List Nat} (h : ns ≠ []) : ns.foldr max 0 ∈ ns := by
  induction ns with
  | nil => exact absurd rfl h
  | cons m ns ih =>
    rw [List.foldr_cons, List.mem_cons]
    by_cases hnil : ns = []
    · left
      rw [hnil]
      exact Nat.max_zero m
    · rcases le_total (ns.foldr max 0) m with hle | hle
      · exact .inl (max_eq_left hle)
      · exact .inr (by rw [max_eq_right hle]; exact ih hnil)

/-- The key that comes next is a new one. -/
theorem nextKey_new (t : Table key) : t.nextKey ∉ t.keys :=
  fun h => absurd (le_foldr_max h) (Nat.not_succ_le_self _)

/-- As long as there is room, the key that comes next is one. -/
theorem isKey_nextKey (h : t.Room) : IsKey t.nextKey := by
  refine ⟨Nat.succ_pos _, ?_⟩
  by_cases hnil : t.keys = []
  · rw [nextKey, hnil]
    decide
  · exact h _ (foldr_max_mem hnil)

/-- The key of a new row is the last one. -/
theorem rows_insert_nextKey (h : IsKey t.nextKey) :
    (t.insert t.nextKey h).rows = t.rows ++ [(t.nextKey, fun _ => none)] := by
  have hlow : ∀ r ∈ t.rows, r.1 < t.nextKey :=
    fun r hr => Nat.lt_succ_of_le (le_foldr_max (List.mem_map_of_mem hr))
  have hall : t.rows.filter (fun r => r.1 < t.nextKey) = t.rows :=
    List.filter_eq_self.mpr fun r hr => decide_eq_true (hlow r hr)
  have hnone : t.rows.filter (fun r => t.nextKey < r.1) = [] :=
    List.filter_eq_nil_iff.mpr fun r hr h =>
      absurd (of_decide_eq_true h) (Nat.not_lt.mpr (hlow r hr).le)
  simp only [insert, hall, hnone]

/-- A value is set in the last row. -/
theorem rows_update_last {rows : List (Nat × Row)} {r : Row} (h : t.rows = rows ++ [(n, r)])
    (col : Text)
    (val : Option Text) :
    (t.update n col val).rows = rows ++ [(n, Function.update r (fold col) val)] := by
  have hsorted := t.sorted
  rw [h, List.pairwise_append] at hsorted
  have hsame : rows.map (fun s =>
    (s.1, if s.1 = n then Function.update s.2 (fold col) val else s.2)) = rows := by
    refine (List.map_congr_left fun s hs => ?_).trans (List.map_id rows)
    rw [if_neg (Nat.ne_of_lt (hsorted.2.2 s hs _ List.mem_cons_self))]
    rfl
  simp only [update, mapRows, h, List.map_append, hsame, List.map_cons, List.map_nil, if_true]

theorem foldr_max_le {ns : List Nat} {m : Nat} (h : ∀ n ∈ ns, n ≤ m) : ns.foldr max 0 ≤ m := by
  induction ns with
  | nil => exact Nat.zero_le m
  | cons n ns ih =>
    exact max_le (h n List.mem_cons_self) (ih fun k hk => h k (List.mem_cons_of_mem _ hk))

/-- There are no more rows than keys. -/
theorem length_le_maxKey (t : Table key) : t.rows.length ≤ maxKey := by
  have hcount : ∀ (rows : List (Nat × Row)) (m : Nat), rows.Pairwise (fun r s => r.1 < s.1) →
      (∀ r ∈ rows, m < r.1 ∧ r.1 ≤ maxKey) → rows.length ≤ maxKey - m := by
    intro rows
    induction rows with
    | nil => simp
    | cons r rows ih =>
      intro m hsorted hkeys
      rw [List.pairwise_cons] at hsorted
      obtain ⟨hlow, hhigh⟩ := hkeys r List.mem_cons_self
      have hrest :=
        ih r.1 hsorted.2 fun s hs => ⟨hsorted.1 s hs, (hkeys s (List.mem_cons_of_mem _ hs)).2⟩
      rw [List.length_cons]
      omega
  exact hcount t.rows 0 t.sorted t.isKey

end Table

/-! ## Databases -/

/-- The tables, and the key of the row that was inserted last. -/
structure Db (key : Text) where
  tables : List (Table key)
  last : Nat
  distinct : (tables.map (fold ∘ Table.name)).Nodup

namespace Db

variable {key : Text}

/-- The table with a name. -/
def table (db : Db key) (name : Text) : Option (Table key) :=
  findKey (fold ∘ Table.name) db.tables (fold name)

/-- The table in place of the one with its name. -/
def put (db : Db key) (t : Table key) : Db key where
  tables := putKey (fold ∘ Table.name) db.tables t
  last := db.last
  distinct := nodup_putKey db.distinct t

/-- A table that has been put is found under its name, and the others under theirs. -/
theorem table_put (db : Db key) (t : Table key) (name : Text) :
    (db.put t).table name = if fold t.name = fold name then some t else db.table name :=
  find_putKey db.distinct t (fold name)

@[simp] theorem table_put_self (db : Db key) (t : Table key) :
    (db.put t).table t.name = some t := by
  rw [table_put, if_pos rfl]

/-- The name of a table, but for its case. -/
theorem name_table {db : Db key} {name : Text} {t : Table key} (h : db.table name = some t) :
    fold t.name = fold name := by
  have hfound := List.find?_some h
  exact of_decide_eq_true hfound

/-- Another table in place of the one that has the name. -/
theorem table_replace {db : Db key} {name : Text} {t t' : Table key} (h : db.table name = some t)
    (hname : t'.name = t.name) : (db.put t').table name = some t' := by
  rw [table_put, hname, name_table h, if_pos rfl]

end Db

/-! ## Statements -/

/-- The rows that are selected, with the names of their columns, and an error. -/
structure Output where
  rows : List (List (Text × Option Text))
  error : Option Text

/-- The values of the rows. -/
def Output.values (out : Output) : List (List (Option Text)) := out.rows.map (List.map Prod.snd)

/-- No rows, and no error. -/
def Output.done : Output := { rows := [], error := none }

/-- The names of tables and columns. -/
def Stmt.names : Stmt → List Text
  | create table => [table]
  | addColumn table col => [table, col]
  | insert table => [table]
  | update table col _ _ => [table, col]
  | stamp table col _ => [table, col]
  | select col table _ => [col, table]
  | seconds col table _ => [col, table]
  | find table col _ => [table, col]
  | delete table _ => [table]
  | dump table _ => [table]
  | top fst snd table col _ sort _ => [fst, snd, table, col, sort]

section Runs

variable {key : Text}

/-- The order of values: the null value is the smallest. -/
def rank (val : Option Text) : WithBot Text := val

/-- A row of every column, the key first. -/
def dumpRow (t : Table key) (r : Nat × Row) : List (Text × Option Text) :=
  (key, some (number r.1)) :: t.cols.map fun col => (col, r.2 (fold col))

/-- A table has the columns of a statement. -/
def Fits (db : Db key) (table : Text) (cols : List Text) : Prop :=
  ∃ t, db.table table = some t ∧ ∀ col ∈ cols, t.Has col

/-- The statement fits the database: what it creates is new, and what it names is there. -/
def Stmt.Fits (db : Db key) : Stmt → Prop
  | create table => db.table table = none
  | addColumn table col => ∃ t, db.table table = some t ∧ ¬ t.Has col ∧ fold col ≠ fold key
  | insert table => Sql.Fits db table []
  | update table col _ _ => Sql.Fits db table [col]
  | stamp table col _ => Sql.Fits db table [col]
  | select col table _ => Sql.Fits db table [col]
  | seconds col table _ => Sql.Fits db table [col]
  | find table col _ => Sql.Fits db table [col]
  | delete table _ => Sql.Fits db table []
  | dump table _ => Sql.Fits db table []
  | top fst snd table col _ sort _ => Sql.Fits db table [fst, snd, col, sort]

/-- What a statement that fits may select, and the database that it may leave. -/
inductive Runs (db : Db key) : Stmt → Output → Db key → Prop
  | create {table : Text} : Runs db (.create table) .done (db.put (.empty table))
  | addColumn {table col : Text} {t : Table key} (ht : db.table table = some t) (hnew : ¬ t.Has col)
      (hkey : fold col ≠ fold key) :
      Runs db (.addColumn table col) .done (db.put (t.addColumn col hnew hkey))
  /-- the key is the next one, or any one that is not in use where there is no next one -/
  | insert {table : Text} {t : Table key} {n : Nat} (ht : db.table table = some t)
      (hnew : n ∉ t.keys)
      (hkey : IsKey n) (hnext : t.Room → n = t.nextKey) :
      Runs db (.insert table) .done { db.put (t.insert n hkey) with last := n }
  | full {table : Text} {t : Table key} {err : Text} (ht : db.table table = some t)
      (hfull : ¬ t.Room) :
      Runs db (.insert table) { rows := [], error := some err } db
  | update {table col : Text} {val : Option Text} {n : Nat} {t : Table key}
      (ht : db.table table = some t) :
      Runs db (.update table col val n) .done (db.put (t.update n col val))
  | stamp {table col : Text} {n : Nat} {t : Table key} {time : Text}
      (ht : db.table table = some t) :
      Runs db (.stamp table col n) .done (db.put (t.update n col (some time)))
  | select {col table : Text} {n : Nat} {t : Table key} {out : Output}
      (ht : db.table table = some t)
      (hrows : out.values = ((t.row n).map fun r => [r (fold col)]).toList)
        (herr : out.error = none) :
      Runs db (.select col table n) out db
  | seconds {col table : Text} {n : Nat} {t : Table key} {out : Output} {f : Row → Option Text}
      (ht : db.table table = some t) (hrows : out.values = ((t.row n).map fun r => [f r]).toList)
      (herr : out.error = none) : Runs db (.seconds col table n) out db
  | find {table col val : Text} {t : Table key} {out : Output} (ht : db.table table = some t)
      (hrows : out.values.Perm ((t.holding col val).map fun r => [some (number r.1)]))
        (herr : out.error = none) :
      Runs db (.find table col val) out db
  | delete {table : Text} {n : Nat} {t : Table key} (ht : db.table table = some t) :
      Runs db (.delete table n) .done (db.put (t.delete n))
  | dump {table : Text} {n : Nat} {t : Table key} (ht : db.table table = some t) :
      Runs db (.dump table n) { rows := (t.rows.filter (n ≤ ·.1)).map (dumpRow t), error := none }
        db
  | top {fst snd table col val sort : Text} {limit : Nat} {t : Table key} {out : Output}
      {sel : List (Nat × Row)}
      (ht : db.table table = some t) (hsel : sel.Perm (t.holding col val))
      (hsort : sel.Pairwise fun r s => rank (s.2 (fold sort)) ≤ rank (r.2 (fold sort)))
      (hrows : out.values = (sel.take limit).map fun r =>
        [r.2 (fold fst), r.2 (fold snd)]) (herr : out.error = none) :
      Runs db (.top fst snd table col val sort limit) out db

variable {db db' : Db key} {fst snd table col val sort : Text} {value : Option Text} {n limit : Nat}
  {t : Table key}
  {out : Output}

/-- What `create` does. -/
theorem Runs.create_inv (h : Runs db (.create table) out db') :
    out = .done ∧ db' = db.put (.empty table) := by
  cases h
  exact ⟨rfl, rfl⟩

/-- What `add column` does to a table without that column. -/
theorem Runs.addColumn_inv (h : Runs db (.addColumn table col) out db')
    (ht : db.table table = some t)
    (hnew : ¬ t.Has col) (hkey : fold col ≠ fold key) :
    out = .done ∧ db' = db.put (t.addColumn col hnew hkey) := by
  cases h with
  | addColumn ht' =>
    cases Option.some.inj (ht'.symm.trans ht)
    exact ⟨rfl, rfl⟩

/-- What `insert` does: a new key, the next one if there is room. -/
theorem Runs.insert_inv (h : Runs db (.insert table) out db') (ht : db.table table = some t) :
    (∃ n, ∃ hkey : IsKey n, n ∉ t.keys ∧ (t.Room → n = t.nextKey) ∧ out = .done ∧
      db' = { db.put (t.insert n hkey) with last := n }) ∨
    (¬ t.Room ∧ (∃ err, out = { rows := [], error := some err }) ∧ db' = db) := by
  cases h with
  | insert ht' hnew hkey hnext =>
    cases Option.some.inj (ht'.symm.trans ht)
    exact .inl ⟨_, hkey, hnew, hnext, rfl, rfl⟩
  | full ht' hfull =>
    cases Option.some.inj (ht'.symm.trans ht)
    exact .inr ⟨hfull, ⟨_, rfl⟩, rfl⟩

/-- What `update` does. -/
theorem Runs.update_inv (h : Runs db (.update table col value n) out db')
    (ht : db.table table = some t) :
    out = .done ∧ db' = db.put (t.update n col value) := by
  cases h with
  | update ht' =>
    cases Option.some.inj (ht'.symm.trans ht)
    exact ⟨rfl, rfl⟩

/-- What `update` with the time does. -/
theorem Runs.stamp_inv (h : Runs db (.stamp table col n) out db') (ht : db.table table = some t) :
    ∃ time, out = .done ∧ db' = db.put (t.update n col (some time)) := by
  cases h with
  | stamp ht' =>
    cases Option.some.inj (ht'.symm.trans ht)
    exact ⟨_, rfl, rfl⟩

/-- What `select` gives for a row. -/
theorem Runs.select_inv (h : Runs db (.select col table n) out db') (ht : db.table table = some t) :
    out.values = ((t.row n).map fun r => [r (fold col)]).toList ∧ out.error = none ∧ db' = db := by
  cases h with
  | select ht' hrows herr =>
    cases Option.some.inj (ht'.symm.trans ht)
    exact ⟨hrows, herr, rfl⟩

/-- A `select` of seconds changes nothing. -/
theorem Runs.seconds_inv (h : Runs db (.seconds col table n) out db') : db' = db := by
  cases h
  rfl

/-- What `select` by a value gives: the numbers of the rows, in any order. -/
theorem Runs.find_inv (h : Runs db (.find table col val) out db') (ht : db.table table = some t) :
    out.values.Perm ((t.holding col val).map fun r => [some (number r.1)]) ∧ out.error = none ∧
      db' = db := by
  cases h with
  | find ht' hrows herr =>
    cases Option.some.inj (ht'.symm.trans ht)
    exact ⟨hrows, herr, rfl⟩

/-- What `delete` does. -/
theorem Runs.delete_inv (h : Runs db (.delete table n) out db') (ht : db.table table = some t) :
    out = .done ∧ db' = db.put (t.delete n) := by
  cases h with
  | delete ht' =>
    cases Option.some.inj (ht'.symm.trans ht)
    exact ⟨rfl, rfl⟩

/-- What a `select` of the whole table gives. -/
theorem Runs.dump_inv (h : Runs db (.dump table n) out db') (ht : db.table table = some t) :
    out = { rows := (t.rows.filter (n ≤ ·.1)).map (dumpRow t), error := none } ∧ db' = db := by
  cases h with
  | dump ht' =>
    cases Option.some.inj (ht'.symm.trans ht)
    exact ⟨rfl, rfl⟩

/-- What a `select` in an order gives: the first rows of one that sorts them. -/
theorem Runs.top_inv (h : Runs db (.top fst snd table col val sort limit) out db')
    (ht : db.table table = some t) :
    ∃ sel : List (Nat × Row), sel.Perm (t.holding col val) ∧
      (sel.Pairwise fun r s => rank (s.2 (fold sort)) ≤ rank (r.2 (fold sort))) ∧
      out.values = (sel.take limit).map (fun r => [r.2 (fold fst), r.2 (fold snd)]) ∧
      out.error = none ∧ db' = db := by
  cases h with
  | top ht' hsel hsort hrows herr =>
    cases Option.some.inj (ht'.symm.trans ht)
    exact ⟨_, hsel, hsort, hrows, herr, rfl⟩

end Runs

/-! ## Engines -/

/-- What executes texts, on a connection to a database. Some words are names. -/
structure Engine (key : Text) where
  Conn : Type
  db : Conn → Db key
  IsName : Text → Prop
  exec : Conn → Text → Output × Conn
  word {x : Text} : IsName x → IsWord x
  runs {c : Conn} {sql : Text} {s : Stmt} : Lexes sql (s.toks key) → (∀ x ∈ s.names, IsName x) →
    s.Fits (db c) →
    Runs (db c) s (exec c sql).1 (db (exec c sql).2)

section Plain

variable {key : Text}

def failed (db : Db key) (err : String) : Output × Db key :=
  ({ rows := [], error := some err.toList }, db)

/-- On a table that has the columns. -/
def onTable (db : Db key) (table : Text) (cols : List Text) (f : Table key → Output × Db key) :
    Output × Db key :=
  match db.table table with
  | none => failed db "no such table"
  | some t => if ∀ col ∈ cols, fold col ∈ t.cols.map fold then f t else failed db "no such column"

/-- A statement. The time stands still, and the rows are selected in their order. -/
def run (db : Db key) : Stmt → Output × Db key
  | .create table =>
    if (db.table table).isSome then failed db "already exists" else (.done, db.put (.empty table))
  | .addColumn table col => onTable db table [] fun t =>
      if h : fold col ∉ t.cols.map fold ∧ fold col ≠ fold key then
        (.done, db.put (t.addColumn col h.1 h.2))
      else failed db "duplicate column name"
  | .insert table => onTable db table [] fun t =>
      if h : t.Room then
        (.done, { db.put (t.insert t.nextKey (Table.isKey_nextKey h)) with last := t.nextKey })
      else failed db "database or disk is full"
  | .update table col val n => onTable db table [col] fun t => (.done, db.put (t.update n col val))
  | .stamp table col n => onTable db table [col] fun t =>
      (.done, db.put (t.update n col (some "1970-01-01 00:00:00".toList)))
  | .select col table n => onTable db table [col] fun t =>
      ({ rows := ((t.row n).map fun r => [(col, r (fold col))]).toList, error := none }, db)
  | .seconds col table n => onTable db table [col] fun t =>
      ({ rows := ((t.row n).map fun r => [(col, (r (fold col)).map fun _ => number 0)]).toList
         error := none }, db)
  | .find table col val => onTable db table [col] fun t =>
      ({ rows := (t.holding col val).map fun r => [(key, some (number r.1))], error := none }, db)
  | .delete table n => onTable db table [] fun t => (.done, db.put (t.delete n))
  | .dump table n => onTable db table [] fun t =>
      ({ rows := (t.rows.filter (n ≤ ·.1)).map (dumpRow t), error := none }, db)
  | .top fst snd table col val sort limit => onTable db table [fst, snd, col, sort] fun t =>
      let sel :=
        (t.holding col val).insertionSort fun r s => rank (s.2 (fold sort)) ≤ rank (r.2 (fold sort))
      ({ rows := (sel.take limit).map fun r => [(fst, r.2 (fold fst)), (snd, r.2 (fold snd))]
         error := none }, db)

/-- A statement about a table that is there, with columns that are there. -/
theorem onTable_eq {db : Db key} {table : Text} {cols : List Text} {t : Table key}
    (ht : db.table table = some t)
    (hcols : ∀ col ∈ cols, t.Has col) (f : Table key → Output × Db key) :
    onTable db table cols f = f t := by
  unfold onTable
  rw [ht]
  exact if_pos hcols

/-- The order of a selection is total. -/
theorem sorted_insertionSort (rows : List (Nat × Row)) (sort : Text) :
    (rows.insertionSort fun r s => rank (s.2 (fold sort)) ≤ rank (r.2 (fold sort))).Pairwise
      fun r s => rank (s.2 (fold sort)) ≤ rank (r.2 (fold sort)) := by
  have : Std.Total fun r s : Nat × Row => rank (s.2 (fold sort)) ≤ rank (r.2 (fold sort)) :=
    ⟨fun r s => le_total (rank (s.2 (fold sort))) (rank (r.2 (fold sort)))⟩
  have : IsTrans (Nat × Row) fun r s => rank (s.2 (fold sort)) ≤ rank (r.2 (fold sort)) :=
    ⟨fun r s u hrs hsu => le_trans hsu hrs⟩
  exact List.pairwise_insertionSort _ rows

/-- The function that runs a statement is one of the ways to run it. -/
theorem runs_run {db : Db key} {s : Stmt} (h : s.Fits db) :
    Runs db s (run db s).1 (run db s).2 := by
  cases s with
  | create table =>
    have hnone : (db.table table).isSome = false := by
      rw [show db.table table = none from h]
      rfl
    rw [run, hnone]
    exact .create
  | addColumn table col =>
    obtain ⟨t, ht, hnew, hkey⟩ := h
    have hcols : ∀ col ∈ ([] : List Text), t.Has col := fun _ h => absurd h List.not_mem_nil
    rw [run, onTable_eq ht hcols, dif_pos ⟨hnew, hkey⟩]
    exact .addColumn ht hnew hkey
  | insert table =>
    obtain ⟨t, ht, hcols⟩ := h
    rw [run, onTable_eq ht hcols]
    -- a key is left, or the statement has no effect
    by_cases hroom : t.Room
    · rw [dif_pos hroom]
      exact .insert ht t.nextKey_new (Table.isKey_nextKey hroom) fun _ => rfl
    · rw [dif_neg hroom]
      exact .full ht hroom
  | update table col val n =>
    obtain ⟨t, ht, hcols⟩ := h
    rw [run, onTable_eq ht hcols]
    exact .update ht
  | stamp table col n =>
    obtain ⟨t, ht, hcols⟩ := h
    rw [run, onTable_eq ht hcols]
    exact .stamp ht
  | select col table n =>
    obtain ⟨t, ht, hcols⟩ := h
    rw [run, onTable_eq ht hcols]
    refine .select ht ?_ rfl
    cases t.row n <;> rfl
  | seconds col table n =>
    obtain ⟨t, ht, hcols⟩ := h
    rw [run, onTable_eq ht hcols]
    refine .seconds (f := fun r => (r (fold col)).map fun _ => number 0) ht ?_ rfl
    cases t.row n <;> rfl
  | find table col val =>
    obtain ⟨t, ht, hcols⟩ := h
    rw [run, onTable_eq ht hcols]
    refine .find ht ?_ rfl
    simp [Output.values, Function.comp_def]
  | delete table n =>
    obtain ⟨t, ht, hcols⟩ := h
    rw [run, onTable_eq ht hcols]
    exact .delete ht
  | dump table n =>
    obtain ⟨t, ht, hcols⟩ := h
    rw [run, onTable_eq ht hcols]
    exact .dump ht
  | top fst snd table col val sort limit =>
    obtain ⟨t, ht, hcols⟩ := h
    rw [run, onTable_eq ht hcols]
    refine .top ht (List.perm_insertionSort _ _) (sorted_insertionSort _ sort) ?_ rfl
    simp [Output.values, Function.comp_def]

variable (key)

/-- An engine to which every word is a name, and which knows no other text than the statements. -/
def plainEngine : Engine key where
  Conn := Db key
  db := id
  IsName := IsWord
  exec db sql := ((lex .start sql).bind (parse key)).elim (failed db "syntax error") (run db)
  word := id
  runs {db sql s} hlexes _ hfits := by
    have hparse : (lex .start sql).bind (parse key) = some s := by
      rw [show lex .start sql = some (s.toks key) from hlexes, Option.bind_some, parse_toks]
    rw [hparse, Option.elim_some]
    exact runs_run hfits

end Plain

end LibShare.Sql
