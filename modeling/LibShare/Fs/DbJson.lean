import LibShare.Fs.Db
import LibShare.Mem.Json

/-!
# libshare — tables of a database as JSON

`shdb_json_write` and `shdb_json_read` of `shfs_db.c`, with the builders of
`shmem_json.c` that they call.

* A member of a tree has a name, unless it is one of an array. A row is filled before
  it is added to its table, where the library adds it first.
* How a number is printed is a parameter of `shdb_json_read`.

The columns of a new table are made from the first record. `json_trips_iff`: the
columns and the values of a table come back, the null values too, just when it has a
row, or no columns to lose.
-/

namespace LibShare.Fs

open LibShare.Sql

/-! ## Trees -/

/-- The `type` of a node, with its value. -/
inductive JsonType
  | false
  | true
  | null
  | number (valueint : Int32) (valuedouble : UInt64)
  | string (valuestring : Option Text)
  | array
  | object
deriving DecidableEq

/-- `shjson_t`. -/
inductive Json
  | node (string : Option Text) (type : JsonType) (child : List Json)

namespace Json

def string : Json → Option Text
  | node string _ _ => string

def type : Json → JsonType
  | node _ type _ => type

def child : Json → List Json
  | node _ _ child => child

end Json

/-- The members without the first one that has the name, in any case
(`shjson_DeleteItemFromObject`). -/
def deleteItemFromObject (child : List Json) (name : Text) : List Json :=
  child.eraseP fun c => c.string.map fold = some (fold name)

/-- `shjson_str_add`, with `shjson_null_add`, to the members of an object. -/
def shjsonStrAdd (child : List Json) (name : Text) (val : Option Text) : List Json :=
  match val with
  | none => deleteItemFromObject child name ++ [.node (some name) .null []]
  | some val => deleteItemFromObject child name ++ [.node (some name) (.string (some val)) []]

/-- `shjson_obj_add`, of an object with these members. -/
def shjsonObjAdd (child : List Json) (name : Text) (members : List Json) : List Json :=
  child ++ [.node (some name) .object members]

/-! ## The builders of a single object

`Mem.Json` has the members of one object, with names of bytes. -/

/-- A C string: characters that are bytes, and no terminator. -/
def IsCText (t : Text) : Prop := ∀ c ∈ t, 0 < c.toNat ∧ c.toNat < 256

/-- Its bytes. -/
def textBytes (t : Text) : Bytes := t.map fun c => c.toNat.toUInt8

theorem lower_ofNat : ∀ n < 256, 0 < n → (Char.ofNat n).toNat.toUInt8 ≠ 0 ∧
    Mem.tolower (Char.ofNat n).toNat.toUInt8 = (Char.ofNat n).toLower.toNat.toUInt8 ∧
    0 < (Char.ofNat n).toLower.toNat ∧ (Char.ofNat n).toLower.toNat < 256 := by
  decide +kernel

/-- Letters are made small in the same way. -/
theorem lower_byte {c : Char} (h : 0 < c.toNat ∧ c.toNat < 256) : c.toNat.toUInt8 ≠ 0 ∧
    Mem.tolower c.toNat.toUInt8 = c.toLower.toNat.toUInt8 ∧ 0 < c.toLower.toNat ∧
      c.toLower.toNat < 256 := by
  have hc := lower_ofNat c.toNat h.2 h.1
  rwa [Char.ofNat_toNat] at hc

theorem IsCText.fold {t : Text} (h : IsCText t) : IsCText (fold t) := by
  intro c hc
  obtain ⟨d, hd, rfl⟩ := List.mem_map.mp hc
  exact (lower_byte (h d hd)).2.2

theorem zero_textBytes {t : Text} (h : IsCText t) : 0 ∉ textBytes t := by
  intro hmem
  obtain ⟨c, hc, hzero⟩ := List.mem_map.mp hmem
  exact (lower_byte (h c hc)).1 hzero

theorem strdup_textBytes {t : Text} (h : IsCText t) : Mem.strdup (textBytes t) = textBytes t :=
  List.takeWhile_eq_self_iff.mpr fun _ hb => decide_eq_true fun h0 => zero_textBytes h (h0 ▸ hb)

theorem foldName_textBytes {t : Text} (h : IsCText t) :
    Mem.foldName (textBytes t) = textBytes (fold t) := by
  rw [Mem.foldName, strdup_textBytes h, textBytes, textBytes, Sql.fold, List.map_map, List.map_map]
  exact List.map_congr_left fun c hc => (lower_byte (h c hc)).2.1

/-- Texts are told apart by their bytes. -/
theorem textBytes_inj :
    ∀ {t u : Text}, IsCText t → IsCText u → textBytes t = textBytes u → t = u := by
  intro t
  induction t with
  | nil =>
    intro u _ _ h
    exact (List.map_eq_nil_iff.mp h.symm).symm
  | cons c t ih =>
    intro u ht hu h
    rcases u with _ | ⟨d, u⟩
    · cases h
    obtain ⟨hhead, hrest⟩ := List.cons.inj h
    have hc := ht c List.mem_cons_self
    have hd := hu d List.mem_cons_self
    have hnat : c.toNat = d.toNat := by
      have hmod : c.toNat % 256 = d.toNat % 256 := congrArg UInt8.toNat hhead
      omega
    rw [Char.toNat_inj.mp hnat, ih (fun c hc => ht c (List.mem_cons_of_mem _ hc))
      (fun c hc => hu c (List.mem_cons_of_mem _ hc)) hrest]

/-- A name is found by its bytes. -/
theorem strcasecmp_textBytes {t u : Text} (ht : IsCText t) (hu : IsCText u) :
    Mem.strcasecmp (some (textBytes t)) (some (textBytes u)) = 0 ↔ fold t = fold u := by
  rw [Mem.strcasecmp_eq_zero, Option.map_some, Option.map_some, Option.some_inj,
    foldName_textBytes ht, foldName_textBytes hu]
  exact ⟨textBytes_inj ht.fold hu.fold, congrArg textBytes⟩

/-- A value without what is below it. -/
def flatType : JsonType → Mem.JsonValue
  | .false => .bool false
  | .true => .bool true
  | .null => .null
  | .number _ valuedouble => .number valuedouble
  | .string valuestring => .string (textBytes (valuestring.getD []))
  | .array => .array
  | .object => .object

/-- A member without what is below it. -/
def flatNode (node : Json) : Option Bytes × Mem.JsonValue :=
  (node.string.map textBytes, flatType node.type)

/-- The members have names. -/
def CNamed (child : List Json) : Prop := ∀ node ∈ child, ∃ t, node.string = some t ∧ IsCText t

/-- Of both, the first member with the name is taken out. -/
theorem flat_deleteItem {name : Text} (hname : IsCText name) : ∀ {child : List Json}, CNamed child →
    ((child.map flatNode).eraseP fun c => Mem.strcasecmp c.1 (some (textBytes name)) = 0) =
      (deleteItemFromObject child name).map flatNode := by
  intro child
  induction child with
  | nil => exact fun _ => rfl
  | cons node child ih =>
    intro hnamed
    obtain ⟨t, ht, hct⟩ := hnamed node List.mem_cons_self
    have hsame : Mem.strcasecmp (flatNode node).1 (some (textBytes name)) = 0 ↔
        node.string.map fold = some (fold name) := by
      rw [flatNode, ht, Option.map_some, Option.map_some, Option.some_inj]
      exact strcasecmp_textBytes hct hname
    unfold deleteItemFromObject at ih ⊢
    rw [List.map_cons, List.eraseP_cons, List.eraseP_cons]
    by_cases heq : node.string.map fold = some (fold name)
    · rw [decide_eq_true (hsame.mpr heq), decide_eq_true heq]
      rfl
    · rw [decide_eq_false fun h => heq (hsame.mp h), decide_eq_false heq]
      exact congrArg (flatNode node :: ·) (ih fun node hnode =>
        hnamed node (List.mem_cons_of_mem _ hnode))

/-- `shjson_str_add` of a single object and of the members of an object. -/
theorem flat_strAdd {tree : Mem.JsonTree} {child : List Json} {name : Text} {val : Option Text}
    (h : tree.members = child.map flatNode) (hnamed : CNamed child) (hname : IsCText name)
    (hval : ∀ t, val = some t → IsCText t) :
    (Mem.shjsonStrAdd tree (some (textBytes name)) (val.map textBytes)).2.members =
      (shjsonStrAdd child name val).map flatNode := by
  cases val with
  | none =>
    rw [Option.map_none, Mem.shjsonStrAdd, Option.elim_none, Mem.shjsonNullAdd,
      Mem.members_add _ _ (zero_textBytes hname), h, flat_deleteItem hname hnamed,
      shjsonStrAdd, List.map_append]
    rfl
  | some t =>
    rw [Option.map_some, Mem.shjsonStrAdd, Option.elim_some, strdup_textBytes (hval t rfl),
      Mem.members_add _ _ (zero_textBytes hname), h, flat_deleteItem hname hnamed,
      shjsonStrAdd, List.map_append]
    rfl

/-- `shjson_obj_add` of both. -/
theorem flat_objAdd {tree : Mem.JsonTree} {child : List Json} {name : Text} (members : List Json)
    (h : tree.members = child.map flatNode) (hname : IsCText name) :
    (Mem.shjsonObjAdd tree (some (textBytes name))).2.members =
    (shjsonObjAdd child name members).map flatNode := by
  rw [shjsonObjAdd, List.map_append, ← h]
  unfold Mem.shjsonObjAdd Mem.jsonAdd Mem.JsonTree.members
  simp only [Bool.false_eq_true, false_and, if_false, Mem.createItem, Option.elim_some,
    Mem.addItemToObject, Mem.addItemToArray, List.map_append, List.map_cons, List.map_nil,
      strdup_textBytes hname]
  rfl

/-! ## Writing and reading -/

/-- `id_str` after the first loop of `shdb_json_value_cb`. -/
def rowId (args : List (Text × Option Text)) : Text :=
  args.foldl (fun idStr arg => if arg.1 = rowidCol then (arg.2.getD []).take 255 else idStr) []

/-- The second loop of `shdb_json_value_cb`. -/
def rowMembers (args : List (Text × Option Text)) : List Json :=
  args.foldl (fun row arg => if arg.1 = rowidCol then row else shjsonStrAdd row arg.1 arg.2) []

/-- `shdb_json_value_cb`. -/
def shdbJsonValueCb (json : List Json) (args : List (Text × Option Text)) : List Json :=
  shjsonObjAdd json (rowId args) (rowMembers args)

/-- `sql_str` of `shdb_json_write`. The row numbers are printed as an `int`. -/
def dumpText (table : Text) (rowidOf rowidLen : UInt64) : Text :=
  sprintf "select * from %s where _rowid >= %d order by _rowid" [table,
    decimal rowidOf.toUInt32.toInt32.toInt] ++
    if rowidLen > 0 then sprintf " limit %d" [decimal rowidLen.toUInt32.toInt32.toInt] else []

section Functions

variable (E : Engine rowidCol)

/-- `shdb_json_write`. -/
def shdbJsonWrite (db : E.Conn) (table : Text) (rowidOf rowidLen : UInt64) : Option Json × E.Conn :=
  let (err, node, db) := shdbExecCb E db (dumpText table rowidOf rowidLen) shdbJsonValueCb []
  (match err with
    | .error _ => none
    | .ok () => some (.node none .object (shjsonObjAdd [] table node)), db)

/-- The columns of a new table: the members of its first record. -/
def readColumns (table : Text) (rec : Json) (db : E.Conn) : E.Conn :=
  rec.child.foldl (fun db node => node.string.elim db fun fieldName =>
    (shdbColNew E db table fieldName).2) db

/-- The text that a member is set as. -/
def fieldText (numberText : Int32 → UInt64 → Text) : JsonType → Option Text
  | .true => some "1".toList
  | .false => some "0".toList
  | .number valueint valuedouble => some (numberText valueint valuedouble)
  | .string valuestring => valuestring
  | .null | .array | .object => none

/-- The members of a record. -/
def readFields (numberText : Int32 → UInt64 → Text) (table : Text) (rowid : UInt64) (rec : Json)
    (db : E.Conn) :
    E.Conn :=
  rec.child.foldl (fun db node => (fieldText numberText node.type).elim db fun text =>
    (shdbRowSet E db table rowid (node.string.getD []) (some text)).2) db

/-- The records of a table. -/
def readRecords (numberText : Int32 → UInt64 → Text) (table : Text) (recs : List Json)
    (db : E.Conn) : E.Conn :=
  recs.foldl (fun db rec =>
    match shdbRowNew E db table with
    | (.error _, db) => db
    | (.ok rowid, db) => readFields E numberText table rowid rec db) db

/-- A member of the tree: a table. One that was there already gets more rows. -/
def readTable (numberText : Int32 → UInt64 → Text) (table : Json) (db : E.Conn) : E.Conn :=
  match table.string with
  | none | some [] => db
  | some tableName =>
    match shdbTableNew E db tableName with
    | (.ok (), db) =>
      match table.child with
      | [] => db
      | rec :: recs =>
        readRecords E numberText tableName (rec :: recs) (readColumns E tableName rec db)
    | (.error .exist, db) => readRecords E numberText tableName table.child db
    | (.error _, db) => db

/-- `shdb_json_read`. -/
def shdbJsonRead (numberText : Int32 → UInt64 → Text) (db : E.Conn) (json : Json) : E.Conn :=
  json.child.foldl (fun db table => readTable E numberText table db) db

/-- The table of the database comes back in the other one, but for its row numbers. -/
def JsonTrips (numberText : Int32 → UInt64 → Text) (db db2 : E.Conn) (table : Text)
    (t : Table rowidCol) : Prop :=
  ∃ json, (shdbJsonWrite E db table 0 0).1 = some json ∧
    ∃ t', (E.db (shdbJsonRead E numberText db2 json)).table table = some t' ∧ t'.cols = t.cols ∧
      (t'.rows.map fun r => t'.cols.map fun col => r.2 (fold col)) =
        t.rows.map fun r => t.cols.map fun col => r.2 (fold col)

end Functions

/-! ## What is written -/

section Write

variable {E : Engine rowidCol} {db : E.Conn} {table : Text} {t : Table rowidCol}

/-- The member that a value becomes. -/
def member (arg : Text × Option Text) : Json :=
  .node (some arg.1) (arg.2.elim .null fun val => .string (some val)) []

/-- The record that a row becomes. -/
def record (t : Table rowidCol) (r : Nat × Row) : Json :=
  .node (some (rowId (dumpRow t r))) .object (t.cols.map fun col => member (col, r.2 (fold col)))

/-- Among members with other names a new one replaces none. -/
theorem shjsonStrAdd_new {child : List Json} {name : Text} (val : Option Text)
    (h : ∀ c ∈ child, c.string.map fold ≠ some (fold name)) :
    shjsonStrAdd child name val = child ++ [member (name, val)] := by
  have hdelete : deleteItemFromObject child name = child :=
    List.eraseP_of_forall_not fun c hc heq => h c hc (of_decide_eq_true heq)
  cases val <;> simp [shjsonStrAdd, member, hdelete]

/-- With distinct names, each value becomes a member. -/
theorem rowMembers_eq :
    ∀ (args : List (Text × Option Text)) (row : List Json), (∀ arg ∈ args, arg.1 ≠ rowidCol) →
    (args.map fun arg => fold arg.1).Nodup →
    (∀ c ∈ row, ∀ arg ∈ args, c.string.map fold ≠ some (fold arg.1)) →
      args.foldl (fun row arg =>
        if arg.1 = rowidCol then row else shjsonStrAdd row arg.1 arg.2) row =
        row ++ args.map member := by
  intro args
  induction args with
  | nil => simp
  | cons arg args ih =>
    intro row hkey hnodup hnew
    rw [List.map_cons, List.nodup_cons] at hnodup
    rw [List.foldl_cons, if_neg (hkey arg List.mem_cons_self),
      shjsonStrAdd_new _ fun c hc => hnew c hc arg List.mem_cons_self]
    rw [ih _ (fun a ha => hkey a (List.mem_cons_of_mem _ ha)) hnodup.2]
    · simp
    · intro c hc a ha
      rcases List.mem_append.mp hc with hc | hc
      · exact hnew c hc a (List.mem_cons_of_mem _ ha)
      · -- the new member has another name than those that follow
        rw [List.mem_singleton] at hc
        subst hc
        intro hsame
        refine hnodup.1 (List.mem_map.mpr ⟨a, ha, ?_⟩)
        exact (Option.some.inj hsame).symm

theorem shdbJsonValueCb_eq (json : List Json) (r : Nat × Row) :
    shdbJsonValueCb json (dumpRow t r) = json ++ [record t r] := by
  have hcols : ∀ arg ∈ t.cols.map fun col => (col, r.2 (fold col)), arg.1 ≠ rowidCol := by
    rintro arg harg hkey
    obtain ⟨col, hcol, rfl⟩ := List.mem_map.mp harg
    refine t.noKey (List.mem_map.mpr ⟨col, hcol, ?_⟩)
    rw [show col = rowidCol from hkey]
  have hmembers : rowMembers (dumpRow t r) = t.cols.map fun col =>
    member (col, r.2 (fold col)) := by
    unfold rowMembers dumpRow
    rw [List.foldl_cons, if_pos rfl, rowMembers_eq _ _ hcols _ (fun c hc =>
      absurd hc List.not_mem_nil)]
    · simp
    · simpa [Function.comp_def] using t.distinct
  rw [shdbJsonValueCb, shjsonObjAdd, hmembers, record]

/-- The tree of a table: its rows, in their order. -/
theorem shdbJsonWrite_eq (h : On E db table t) : (shdbJsonWrite E db table 0 0).1 =
    some (.node none .object [.node (some table) .object (t.rows.map (record t))]) := by
  have hlexes : Lexes (dumpText table 0 0) ((Stmt.dump table 0).toks rowidCol) := by
    rw [dumpText, if_neg (by decide), List.append_nil]
    show Lexes ("select".toList ++ ' ' :: '*' :: ' ' ::
        ("from".toList ++ ' ' :: (table ++ ' ' :: ("where".toList ++
      ' ' :: (rowidCol ++ ' ' :: '>' :: '=' :: ' ' ::
        (number 0 ++ ' ' :: ("order".toList ++ ' ' :: ("by".toList ++
        ' ' :: rowidCol)))))))) _
    exact .next (by decide) <| .sym (by decide) <| .blank <| .next (by
      decide) <| .next (E.word h.name) <|
      .next (by decide) <| .next (by decide) <| .sym (by decide) <| .sym (by decide) <| .blank <|
      .next (by decide) <| .next (by decide) <| .next (by decide) <| .last (by decide)
  have hruns := E.runs (c := db) hlexes (by simpa [Stmt.names] using h.name)
    ⟨t, h.found, fun _ h => absurd h List.not_mem_nil⟩
  obtain ⟨hout, -⟩ := hruns.dump_inv h.found
  have hcb : ∀ (rows : List (Nat × Row)) (json : List Json),
      (rows.map (dumpRow t)).foldl shdbJsonValueCb json = json ++ rows.map (record t) := by
    intro rows
    induction rows with
    | nil => simp
    | cons r rows ih =>
      intro json
      rw [List.map_cons, List.foldl_cons, shdbJsonValueCb_eq, ih]
      simp
  have hall : t.rows.filter (fun r => (0 : Nat) ≤ r.1) = t.rows :=
    List.filter_eq_self.mpr fun r _ => by simp
  rw [shdbJsonWrite, exec_rows (by rw [hout])]
  dsimp only
  rw [hout, hcb, hall]
  rfl

end Write

/-! ## What is read -/

section Read

variable {E : Engine rowidCol} {db : E.Conn} {table : Text} {t : Table rowidCol} {cols : List Text}

/-- The values that are there are set in the last row. -/
theorem readFields_last (numberText : Int32 → UInt64 → Text) {n : UInt64}
    {rows : List (Nat × Row)} {v : Row} :
    ∀ (fields : List Text) {db : E.Conn} {t : Table rowidCol} {r : Row}, On E db table t →
      t.rows = rows ++ [(n.toNat, r)] → (∀ col ∈ fields, Column E t col) →
        ∃ t' r', On E (fields.foldl (fun db col =>
          (fieldText numberText (member (col, v (fold col))).type).elim db
            fun text => (shdbRowSet E db table n col (some text)).2) db) table t' ∧
              t'.cols = t.cols ∧
          t'.rows = rows ++ [(n.toNat, r')] ∧
          ∀ x, r' x = if x ∈ fields.map fold then (v x).or (r x) else r x := by
  intro fields
  induction fields with
  | nil => exact fun h hrows _ => ⟨_, _, h, rfl, hrows, fun x => by simp⟩
  | cons col fields ih =>
    intro db t r h hrows hcols
    have hrest : ∀ c ∈ fields, Column E t c := fun c hc => hcols c (List.mem_cons_of_mem _ hc)
    rw [List.foldl_cons]
    cases hval : v (fold col) with
    | none =>
      -- a null value is no case of the switch
      obtain ⟨t', r', hon, hsame, hrows', hr'⟩ := ih h hrows hrest
      refine ⟨t', r', hon, hsame, hrows', fun x => ?_⟩
      rw [hr', List.map_cons]
      by_cases hx : x = fold col
      · simp [hx, hval]
      · simp [hx]
    | some text =>
      obtain ⟨-, hdb⟩ := shdbRowSet_spec h (hcols col List.mem_cons_self) n (some text)
      have hon : On E (shdbRowSet E db table n col (some text)).2 table
          (t.update n.toNat col (some text)) :=
        h.put rfl hdb
      obtain ⟨t', r', hon', hsame, hrows', hr'⟩ :=
        ih hon (Table.rows_update_last hrows col (some text))
        fun c hc => (hrest c hc).same rfl
      refine ⟨t', r', hon', hsame, hrows', fun x => ?_⟩
      rw [hr', List.map_cons]
      by_cases hx : x = fold col
      · simp [hx, hval]
      · simp [hx]

/-- The table has these columns and values, and no key is larger than it must be. -/
def TableLoaded (E : Engine rowidCol) (db : E.Conn) (table : Text) (cols : List Text)
    (vals : List (List (Option Text))) :
    Prop :=
  ∃ t, On E db table t ∧ t.cols = cols ∧ (t.rows.map fun r => cols.map fun col =>
    r.2 (fold col)) = vals ∧ ∀ n ∈ t.keys, n ≤ t.rows.length

/-- A record becomes a row. -/
theorem readRecord_loaded (numberText : Int32 → UInt64 → Text) {vals : List (List (Option Text))}
    {src : Table rowidCol}
    (h : TableLoaded E db table src.cols vals) (hroom : vals.length < maxKey)
    (hnames : ∀ col ∈ src.cols, E.IsName col ∧ col.length ≤ 256) (r : Nat × Row) :
    TableLoaded E (readRecords E numberText table [record src r] db) table src.cols
      (vals ++ [src.cols.map fun col => r.2 (fold col)]) := by
  obtain ⟨t, hon, hcols, hvals, hcompact⟩ := h
  have hlen : t.rows.length = vals.length := by rw [← hvals, List.length_map]
  have hfree : t.Room := fun n hn => lt_of_le_of_lt (hcompact n hn) (hlen ▸ hroom)
  rcases shdbRowNew_spec hon with ⟨n, hkey, -, hnext, hret, hdb⟩ | ⟨hfull, -⟩
  swap
  · exact absurd hfree hfull
  have hn := hnext hfree
  subst hn
  have hput : On E (shdbRowNew E db table).2 table (t.insert t.nextKey hkey) :=
    ⟨hon.name, hon.short, by rw [hdb]; exact Db.table_replace hon.found rfl⟩
  have hnat : (UInt64.ofNat t.nextKey).toNat = t.nextKey := toNat_ofNat_key hkey
  have hrows : (t.insert t.nextKey hkey).rows = t.rows ++
      [((UInt64.ofNat t.nextKey).toNat, fun _ => none)] := by
    rw [hnat]
    exact Table.rows_insert_nextKey hkey
  have hcolumns : ∀ col ∈ src.cols, Column E (t.insert t.nextKey hkey) col := by
    intro col hcol
    refine ⟨(hnames col hcol).1, (hnames col hcol).2, ?_⟩
    show fold col ∈ t.cols.map fold
    rw [hcols]
    exact List.mem_map_of_mem hcol
  -- the fields are set in the row that was just added
  obtain ⟨t', r', hon', hsame, hrows', hr'⟩ :=
    readFields_last numberText (v := r.2) src.cols hput hrows
    hcolumns
  -- what is read is that row, set field by field
  have hread : readRecords E numberText table [record src r] db = src.cols.foldl (fun db col =>
      (fieldText numberText (member (col, r.2 (fold col))).type).elim db fun text =>
        (shdbRowSet E db table (UInt64.ofNat t.nextKey) col (some text)).2)
          (shdbRowNew E db table).2 := by
    rcases hnew : shdbRowNew E db table with ⟨err, db'⟩
    rw [hnew] at hret
    subst hret
    simp only [readRecords, List.foldl_cons, List.foldl_nil, hnew, readFields, record, Json.child,
      List.foldl_map]
    rfl
  rw [hread]
  refine ⟨t', hon', hsame.trans hcols, ?_, ?_⟩
  · have hlast : (src.cols.map fun col => r' (fold col)) = src.cols.map fun col =>
      r.2 (fold col) := by
      refine List.map_congr_left fun col hcol => ?_
      rw [hr', if_pos (List.mem_map_of_mem hcol), Option.or_none]
    rw [hrows', List.map_append, hvals, List.map_singleton, hlast]
  · -- the new key is at most one more than the rows that there were
    have hle : t.nextKey ≤ t.rows.length + 1 := Nat.succ_le_succ (Table.foldr_max_le hcompact)
    intro n hn
    rw [Table.keys, hrows', List.map_append, List.mem_append, List.map_singleton,
      List.mem_singleton, hnat] at hn
    rw [hrows', List.length_append, List.length_singleton]
    rcases hn with hn | rfl
    · exact (hcompact n hn).trans (Nat.le_succ _)
    · exact hle

/-- All records become rows, in their order. -/
theorem readRecords_loaded (numberText : Int32 → UInt64 → Text) {src : Table rowidCol}
    (hnames : ∀ col ∈ src.cols, E.IsName col ∧ col.length ≤ 256) :
    ∀ (rows : List (Nat × Row)) {db : E.Conn}
    {vals : List (List (Option Text))}, TableLoaded E db table src.cols vals →
    vals.length + rows.length ≤ maxKey →
      TableLoaded E (readRecords E numberText table (rows.map (record src)) db) table src.cols
        (vals ++ rows.map fun r => src.cols.map fun col => r.2 (fold col)) := by
  intro rows
  induction rows with
  | nil =>
    intro db vals h _
    rw [List.map_nil, List.map_nil, List.append_nil]
    exact h
  | cons r rows ih =>
    intro db vals h hroom
    rw [List.length_cons] at hroom
    have hone := readRecord_loaded numberText h (by omega) hnames r
    have hrest := ih hone (by rw [List.length_append, List.length_singleton]; omega)
    rw [List.append_assoc, List.singleton_append] at hrest
    exact hrest

/-- A new table without records gets no columns; one with records gets those of the first. -/
theorem readTable_loaded (numberText : Int32 → UInt64 → Text) {src : Table rowidCol}
    (hname : E.IsName table)
    (hshort : table.length ≤ 256) (hnames : ∀ col ∈ src.cols, E.IsName col ∧ col.length ≤ 256)
    (hempty : (E.db db).tables = []) :
    TableLoaded E (readTable E numberText (.node (some table)
      .object (src.rows.map (record src))) db) table
      (if src.rows = [] then [] else src.cols)
      (src.rows.map fun r => src.cols.map fun col => r.2 (fold col)) := by
  have hnone : (E.db db).table table = none := by
    rw [Db.table, hempty]
    rfl
  obtain ⟨hret, hdb⟩ := shdbTableNew_spec hname hshort hnone
  have hon : On E (shdbTableNew E db table).2 table (.empty table) :=
    ⟨hname, hshort, by rw [hdb]; exact Db.table_put_self _ _⟩
  obtain ⟨c, x, hcons⟩ := List.exists_cons_of_ne_nil (E.word hname).1
  rcases hnew : shdbTableNew E db table with ⟨err, db'⟩
  rw [hnew] at hret hon
  subst hret
  cases hrows : src.rows with
  | nil =>
    rw [if_pos rfl]
    refine ⟨.empty table, ?_, rfl, rfl, fun n hn => absurd hn List.not_mem_nil⟩
    simp only [readTable, Json.string, Json.child, hcons, List.map_nil]
    rw [← hcons, hnew]
    exact hon
  | cons r rows =>
    rw [if_neg (List.cons_ne_nil _ _)]
    obtain ⟨t, ht, hcols, htrows⟩ := cols_on src.cols hon rfl hnames src.distinct src.noKey
    have hbegin : TableLoaded E (src.cols.foldl (fun db col => (shdbColNew E db table col).2) db')
        table src.cols [] := by
      refine ⟨t, ht, hcols, by rw [htrows]; rfl, fun n hn => ?_⟩
      rw [Table.keys, htrows] at hn
      exact absurd hn List.not_mem_nil
    have hlen : ([] : List (List (Option Text))).length + (r :: rows).length ≤ maxKey := by
      rw [← hrows, List.length_nil, Nat.zero_add]
      exact src.length_le_maxKey
    have hall := readRecords_loaded numberText hnames (r :: rows) hbegin hlen
    have hread : readTable E numberText
        (.node (some table) .object ((r :: rows).map (record src))) db =
        readRecords E numberText table ((r :: rows).map (record src))
          (src.cols.foldl (fun db col => (shdbColNew E db table col).2) db') := by
      simp only [readTable, Json.string, Json.child, hcons, List.map_cons]
      rw [← hcons, hnew]
      simp only [readColumns, record, Json.child, List.foldl_map]
      rfl
    rw [hread]
    exact hall

/-- The table comes back just when it has a row, or no columns. -/
theorem json_trips_iff (numberText : Int32 → UInt64 → Text) (db2 : E.Conn) (h : On E db table t)
    (hnames : ∀ col ∈ t.cols, E.IsName col ∧ col.length ≤ 256) (hempty : (E.db db2).tables = []) :
    JsonTrips E numberText db db2 table t ↔ t.rows ≠ [] ∨ t.cols = [] := by
  obtain ⟨t', hon, hcols, hvals, -⟩ := readTable_loaded numberText h.name h.short hnames hempty
  have hread : shdbJsonRead E numberText db2
      (.node none .object [.node (some table) .object (t.rows.map (record t))]) =
      readTable E numberText (.node (some table) .object (t.rows.map (record t))) db2 := rfl
  constructor
  · rintro ⟨json, hjson, t'', ht'', hsame, -⟩
    rw [shdbJsonWrite_eq h] at hjson
    cases hjson
    rw [hread, hon.found] at ht''
    cases ht''
    -- a sheet without rows has lost its columns
    by_cases hrows : t.rows = []
    · rw [if_pos hrows] at hcols
      exact .inr (hsame.symm.trans hcols)
    · exact .inl hrows
  · intro hkeeps
    have hsame : t'.cols = t.cols := by
      rw [hcols]
      split
      · next hrows => exact (hkeeps.resolve_left fun hne => hne hrows).symm
      · rfl
    refine ⟨_, shdbJsonWrite_eq h, t', by rw [hread]; exact hon.found, hsame, ?_⟩
    rw [← hcols] at hvals
    exact hvals

end Read

/-! ## Two tables -/

section Sheet

def noTables : Db rowidCol := { tables := [], last := 0, distinct := List.nodup_nil }

/-- A column, and no rows. -/
def blankSheet : Table rowidCol :=
  .addColumn (.empty "sheet".toList) "note".toList List.not_mem_nil (by decide)

/-- Two rows, of which the first has the null value. -/
def sheet : Table rowidCol :=
  ((blankSheet.insert 1 (by decide)).insert 2 (by decide)).update 2 "note".toList (some "x".toList)

theorem sheet_on {t : Table rowidCol} (hname : t.name = "sheet".toList) :
    On (plainEngine rowidCol) (noTables.put t) "sheet".toList t := by
  have hword : IsWord "sheet".toList := by decide
  refine ⟨hword, by decide, ?_⟩
  show (noTables.put t).table "sheet".toList = some t
  rw [← hname, Db.table_put_self]

/-- The null value in the first row comes back. -/
theorem sheet_trips :
    JsonTrips (plainEngine rowidCol) (fun _ _ => []) (noTables.put sheet) noTables "sheet".toList
    sheet := by
  have hname : IsWord "note".toList ∧ "note".toList.length ≤ 256 := by decide
  have hnames : ∀ col ∈ sheet.cols, (plainEngine rowidCol).IsName col ∧ col.length ≤ 256 := by
    intro col hcol
    rw [show col = "note".toList from List.mem_singleton.mp hcol]
    exact hname
  exact (json_trips_iff _ (noTables : (plainEngine rowidCol).Conn) (sheet_on rfl) hnames rfl).mpr
    (.inl (by decide))

/-- Without rows, the column is lost. -/
theorem blank_sheet_lost :
    ¬ JsonTrips (plainEngine rowidCol) (fun _ _ => []) (noTables.put blankSheet) noTables
    "sheet".toList blankSheet := by
  rintro ⟨json, hjson, t', ht', hcols, -⟩
  rw [shdbJsonWrite_eq (sheet_on rfl)] at hjson
  cases hjson
  have hnone : (((plainEngine rowidCol).db
      (shdbJsonRead (plainEngine rowidCol) (fun _ _ => []) noTables
      (.node none .object [.node (some "sheet".toList)
        .object (blankSheet.rows.map (record blankSheet))]))).table
        "sheet".toList).map Table.cols = some [] := by decide +kernel
  rw [ht', Option.map_some, hcols] at hnone
  exact absurd hnone (by decide)

end Sheet

end LibShare.Fs
