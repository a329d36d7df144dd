import LibShare.Mem.Json
import Mathlib.Data.List.Basic

/-!
# libshare — JSON trees as tables of the interpreter

`sexe_table_set` and `sexe_table_get` of `sexe_table.c`.

* A table is a finite map from strings, and a list of its entries in the order in
  which `lua_next` gives them. That order is the interpreter's own: after each
  assignment it may be another one (`Order`).
* What number a string stands for is the interpreter's own too (`number`).
* The stack of the interpreter has a size. None of the functions makes it larger, and nothing
  may be written behind it. The collector does not run in the meantime.
* No function here looks into an array.

`tableTrips_iff`: a tree comes back just when it has only numbers, strings that are no
numbers, and objects, and two of its names that differ in their case only are names of
objects, and the stack has room for two values more with each level of the tree.
-/

namespace LibShare.Sexe

open LibShare.Mem (strcasecmp SameName)

/-! ## Trees and tables -/

/-- A string of C. -/
abbrev CString : Type := { s : Bytes // 0 ∉ s }

/-- `shjson_t`. A floating-point number is its 64 bits. -/
inductive Json
  | null
  | bool (b : Bool)
  | number (valuedouble : UInt64)
  | string (valuestring : CString)
  | array
  | object (child : List (CString × Json))

/-- A value of the interpreter. -/
inductive LuaValue
  | nil
  | boolean (b : Bool)
  | number (n : UInt64)
  | string (s : CString)
  | table (entries : List (CString × LuaValue))

/-- `lua_istable`. -/
def LuaValue.isTable : LuaValue → Bool
  | table _ => true
  | _ => false

/-- How the entries of a table are arranged for `lua_next`. -/
structure Order where
  arrange : List (CString × LuaValue) → List (CString × LuaValue)
  perm (entries : List (CString × LuaValue)) : (arrange entries).Perm entries

/-! ## From a tree to a table -/

/-- The stack, with its top at the front. -/
abbrev Stack : Type := List LuaValue

/-- `BASIC_STACK_SIZE`: the slots of a new state. -/
def basicStackSize : Nat := 40

/-- What the functions of `lapi.c` do that push a value, on a stack of `stacksize` slots. -/
def luaPush (stacksize : Nat) (v : LuaValue) (L : Stack) : Option Stack :=
  if L.length < stacksize then some (v :: L) else none

section Set

variable (order : Order) (stacksize : Nat)

/-- `lua_settable` of the table below the key and the value. -/
def luaSettable : Stack → Option Stack
  | .nil :: .string k :: .table entries :: L =>
    some (.table (order.arrange (eraseKey Prod.fst entries k)) :: L)
  | v :: .string k :: .table entries :: L =>
    some (.table (order.arrange (putKey Prod.fst entries (k, v))) :: L)
  | _ => none

/-- The token and the value. -/
def pushBoth (string : CString) (v : LuaValue) (L : Stack) : Option Stack :=
  (luaPush stacksize (.string string) L).bind (luaPush stacksize v)

mutual

/-- The cases of `sexe_table_field_set`. -/
def setNode (string : CString) : Json → Stack → Option Stack
  | .bool b, L => (pushBoth stacksize string (.boolean b) L).bind (luaSettable order)
  | .number valuedouble, L =>
    (pushBoth stacksize string (.number valuedouble) L).bind (luaSettable order)
  | .string valuestring, L =>
    (pushBoth stacksize string (.string valuestring) L).bind (luaSettable order)
  | .object child, L =>
    ((pushBoth stacksize string (.table []) L).bind (sexeTableFieldSet child)).bind
    (luaSettable order)
  | .null, L => some L
  | .array, L => some L

def setPair : CString × Json → Stack → Option Stack
  | (string, node), L => setNode string node L

/-- `sexe_table_field_set`. -/
def sexeTableFieldSet : List (CString × Json) → Stack → Option Stack
  | [], L => some L
  | node :: next, L => (setPair node L).bind (sexeTableFieldSet next)

end

/-- `sexe_table_set`. -/
def sexeTableSet (child : List (CString × Json)) (L : Stack) : Option Stack :=
  (luaPush stacksize (.table []) L).bind (sexeTableFieldSet order stacksize child)

end Set

/-! ## From a table to a tree -/

/-- `shjson_AddItemToObject`. -/
def addItemToObject (json : List (CString × Json)) (string : CString) (item : Json) :
    List (CString × Json) :=
  json ++ [(string, item)]

/-- `shjson_DeleteItemFromObject`: the first member that has the name, in any case. -/
def deleteItemFromObject (json : List (CString × Json)) (string : CString) :
    List (CString × Json) :=
  json.eraseP fun c => strcasecmp (some c.1.val) (some string.val) = 0

/-- `shjson_num_add`. -/
def shjsonNumAdd (json : List (CString × Json)) (name : CString) (num : UInt64) :
    List (CString × Json) :=
  addItemToObject (deleteItemFromObject json name) name (.number num)

/-- `shjson_str_add`. -/
def shjsonStrAdd (json : List (CString × Json)) (name val : CString) : List (CString × Json) :=
  addItemToObject (deleteItemFromObject json name) name (.string val)

/-- A member without what is below it. -/
def flatMember (c : CString × Json) : Option Bytes × Mem.JsonValue :=
  (some c.1.val, match c.2 with
    | .null => .null
    | .bool b => .bool b
    | .number valuedouble => .number valuedouble
    | .string valuestring => .string valuestring.val
    | .array => .array
    | .object _ => .object)

/-- The members are those of an object of `Mem.JsonTree`, from which a member has been taken out. -/
theorem flat_delete {tree : Mem.JsonTree} {json : List (CString × Json)}
    (h : tree.members = json.map flatMember)
    (name : CString) : (tree.members.eraseP fun c => strcasecmp c.1 (some name.val) = 0) =
      (deleteItemFromObject json name).map flatMember := by
  rw [h, List.eraseP_map]
  rfl

/-- `shjson_num_add` of a tree and of the members of an object. -/
theorem flat_numAdd {tree : Mem.JsonTree} {json : List (CString × Json)}
    (h : tree.members = json.map flatMember)
    (name : CString) (num : UInt64) :
    (Mem.shjsonNumAdd tree (some name.val) num).2.members =
    (shjsonNumAdd json name num).map flatMember := by
  rw [Mem.shjsonNumAdd, Mem.members_add _ _ name.property, flat_delete h, shjsonNumAdd,
    addItemToObject, List.map_append]
  rfl

/-- `shjson_str_add` of both. -/
theorem flat_strAdd {tree : Mem.JsonTree} {json : List (CString × Json)}
    (h : tree.members = json.map flatMember)
    (name val : CString) :
    (Mem.shjsonStrAdd tree (some name.val) (some val.val)).2.members =
    (shjsonStrAdd json name val).map flatMember := by
  have hdup : Mem.strdup val.val = val.val := List.takeWhile_eq_self_iff.mpr fun c hc =>
    decide_eq_true fun h0 => val.property (h0 ▸ hc)
  rw [Mem.shjsonStrAdd, Option.elim_some, hdup, Mem.members_add _ _ name.property, flat_delete h,
    shjsonStrAdd, addItemToObject, List.map_append]
  rfl

section Get

variable (number : CString → Option UInt64) (stacksize : Nat)

mutual

/-- The body of the loop of `sexe_table_field_get`, with the key and the value on the top of the
stack. `lua_isnumber` is true of a string that stands for a number. -/
def getValue (k : CString) :
    LuaValue → Stack → List (CString × Json) → Option (List (CString × Json))
  | .table entries, L, json =>
    ((luaPush stacksize .nil L).bind fun _ => getEntries entries L []).map fun obj =>
      addItemToObject json k (.object obj)
  | .number d, _, json => some (shjsonNumAdd json k d)
  | .string v, _, json => some ((number v).elim (shjsonStrAdd json k v) (shjsonNumAdd json k))
  | .boolean _, _, json => some json
  | .nil, _, json => some json

/-- `lua_next` puts the key where the last one was, and pushes the value. -/
def getPair : CString × LuaValue → Stack → List (CString × Json) → Option (List (CString × Json))
  | (k, v), L, json => (luaPush stacksize v (.string k :: L)).bind fun L => getValue k v L json

/-- The loop of `sexe_table_field_get`, where the stack has the key on top of `L`. -/
def getEntries :
    List (CString × LuaValue) → Stack → List (CString × Json) → Option (List (CString × Json))
  | [], _, json => some json
  | entry :: entries, L, json => (getPair entry L json).bind (getEntries entries L)

end

/-- `sexe_table_field_get` of the table on the top of the stack. -/
def sexeTableFieldGet (entries : List (CString × LuaValue)) (L : Stack)
    (json : List (CString × Json)) :
    Option (List (CString × Json)) :=
  (luaPush stacksize .nil L).bind fun _ => getEntries number stacksize entries L json

/-- `sexe_table_get` of the table on the top of the stack. -/
def sexeTableGet : Stack → Option Json
  | .table entries :: L =>
    (sexeTableFieldGet number stacksize entries (.table entries :: L) []).map .object
  | _ => none

end Get

/-! ## What comes back -/

mutual

/-- The trees are equal up to the order of the members. -/
def Json.Same : Json → Json → Prop
  | .null, json => json = .null
  | .bool b, json => json = .bool b
  | .number valuedouble, json => json = .number valuedouble
  | .string valuestring, json => json = .string valuestring
  | .array, json => json = .array
  | .object child, json => ∃ child', json = .object child' ∧
      (child.map Prod.fst).Perm (child'.map Prod.fst) ∧ SameMembers child child'

def SameMember : CString × Json → List (CString × Json) → Prop
  | (string, node), child' => ∃ node', (string, node') ∈ child' ∧ node.Same node'

/-- Each member is the same as one that has its name. -/
def SameMembers : List (CString × Json) → List (CString × Json) → Prop
  | [], _ => True
  | node :: next, child' => SameMember node child' ∧ SameMembers next child'

end

/-- The tree comes back from its table, which is made on top of a stack, however tables are
arranged. -/
def TableTrips (number : CString → Option UInt64) (stacksize : Nat) (L : Stack)
    (child : List (CString × Json)) : Prop :=
  ∀ order : Order, ∃ L' json, sexeTableSet order stacksize child L = some L' ∧
    sexeTableGet number stacksize L' = some json ∧ (Json.object child).Same json

def Json.isObject : Json → Bool
  | object _ => true
  | _ => false

/-- Numbers, strings that are none, and objects; and the names of two members differ not
only in their case, but for objects. -/
inductive Json.Kept (number : CString → Option UInt64) : Json → Prop
  | number (valuedouble : UInt64) : Json.Kept number (.number valuedouble)
  | string (valuestring : CString) (h : number valuestring = none) :
      Json.Kept number (.string valuestring)
  | object (child : List (CString × Json)) (nodes : ∀ c ∈ child, Json.Kept number c.2)
      (names : child.Pairwise fun c d => SameName c.1.val d.1.val → c.1 ≠ d.1 ∧ c.2.isObject ∧
        d.2.isObject) :
      Json.Kept number (.object child)

mutual

/-- How many slots `sexe_table_field_get` takes on top of the table of an object. -/
def Json.slots : Json → Nat
  | .object child => slotsOf child
  | .null => 0
  | .bool _ => 0
  | .number _ => 0
  | .string _ => 0
  | .array => 0

def slotsOfMember : CString × Json → Nat
  | (_, node) => node.slots + 2

/-- One for the end of the table, and two for a member and what it takes itself. -/
def slotsOf : List (CString × Json) → Nat
  | [] => 1
  | node :: next => max (slotsOfMember node) (slotsOf next)

end

/-! ## Induction over trees -/

/-- Induction on a tree: the leaves, and the objects whose members have been dealt with. -/
theorem Json.ind {motive : Json → Prop} (leaf : ∀ json, json.isObject = false → motive json)
    (object : ∀ child, (∀ c ∈ child, motive c.2) → motive (.object child)) : ∀ json, motive json
  | .null => leaf .null rfl
  | .bool b => leaf (.bool b) rfl
  | .number d => leaf (.number d) rfl
  | .string s => leaf (.string s) rfl
  | .array => leaf .array rfl
  | .object child => object child fun c _hc => Json.ind leaf object c.2
termination_by json => sizeOf json
decreasing_by
  have hmem := List.sizeOf_lt_of_mem _hc
  obtain ⟨string, node⟩ := c
  simp only [Prod.mk.sizeOf_spec, Json.object.sizeOf_spec] at hmem ⊢
  omega

/-- Two lists have the same members if each one of the first is in the second. -/
theorem sameMembers_iff (child child' : List (CString × Json)) :
    SameMembers child child' ↔ ∀ c ∈ child, ∃ node', (c.1, node') ∈ child' ∧ c.2.Same node' := by
  induction child with
  | nil => exact iff_of_true trivial nofun
  | cons c next ih => rw [SameMembers, ih, List.forall_mem_cons, SameMember]

/-! ## The table of a tree -/

section Fill

variable (order : Order)

mutual

/-- The value that a tree becomes, if it does. -/
def Json.toLua : Json → Option LuaValue
  | .bool b => some (.boolean b)
  | .number valuedouble => some (.number valuedouble)
  | .string valuestring => some (.string valuestring)
  | .object child => some (.table (fill child []))
  | .null => none
  | .array => none

def fillPair : CString × Json → List (CString × LuaValue) → List (CString × LuaValue)
  | (string, node), entries =>
    node.toLua.elim entries fun v => order.arrange (putKey Prod.fst entries (string, v))

/-- The entries that the members are put into. -/
def fill : List (CString × Json) → List (CString × LuaValue) → List (CString × LuaValue)
  | [], entries => entries
  | node :: next, entries => fill next (fillPair node entries)

end

mutual

/-- How many slots are taken on top of the table, to put a tree into it. -/
def Json.pushed : Json → Nat
  | .object child => pushedOf child + 2
  | .bool _ => 2
  | .number _ => 2
  | .string _ => 2
  | .null => 0
  | .array => 0

def pushedOfMember : CString × Json → Nat
  | (_, node) => node.pushed

def pushedOf : List (CString × Json) → Nat
  | [] => 0
  | node :: next => max (pushedOfMember node) (pushedOf next)

end

variable {stacksize : Nat}

/-- A push needs one slot. -/
theorem luaPush_eq (v : LuaValue) (L : Stack) :
    luaPush stacksize v L = if L.length + 1 ≤ stacksize then some (v :: L) else none := rfl

/-- A name and a value need two slots. -/
theorem pushBoth_eq (string : CString) (v : LuaValue) (L : Stack) :
    pushBoth stacksize string v L = if L.length + 2 ≤ stacksize then
      some (v :: .string string :: L) else none := by
  rw [pushBoth, luaPush_eq]
  by_cases hroom : L.length + 2 ≤ stacksize
  · rw [if_pos hroom, if_pos (by omega), Option.bind_some, luaPush_eq, List.length_cons,
      if_pos hroom]
  · rw [if_neg hroom]
    split
    · rw [Option.bind_some, luaPush_eq, List.length_cons, if_neg hroom]
    · rfl

/-- The members are put into the table on the top of the stack, if the stack has room. -/
theorem sexeTableFieldSet_eq (child : List (CString × Json))
    (h : ∀ c ∈ child, ∀ entries L, L.length + 1 ≤ stacksize →
      setPair order stacksize c (.table entries :: L) =
      if L.length + 1 + pushedOfMember c ≤ stacksize then
        some (.table (fillPair order c entries) :: L) else none) :
    ∀ entries L, L.length + 1 ≤ stacksize → sexeTableFieldSet order stacksize child
      (.table entries :: L) =
      if L.length + 1 + pushedOf child ≤ stacksize then
        some (.table (fill order child entries) :: L) else none := by
  induction child with
  | nil =>
    intro entries L hin
    rw [pushedOf, Nat.add_zero, if_pos hin]
    rfl
  | cons c next ih =>
    intro entries L hin
    rw [sexeTableFieldSet, h c List.mem_cons_self _ _ hin, pushedOf]
    have hnext := ih (fun d hd => h d (List.mem_cons_of_mem _ hd)) (fillPair order c entries) L hin
    by_cases hroom : L.length + 1 + pushedOfMember c ≤ stacksize
    · rw [if_pos hroom, Option.bind_some, hnext, fill]
      congr 1
      exact propext (by omega)
    · rw [if_neg hroom, if_neg (by omega)]
      rfl

/-- A member is set as long as the stack has the slots that its value needs. -/
theorem setPair_eq (string : CString) (node : Json) : ∀ entries L, L.length + 1 ≤ stacksize →
    setPair order stacksize (string, node) (.table entries :: L) =
      if L.length + 1 + pushedOfMember (string, node) ≤ stacksize then
        some (.table (fillPair order (string, node) entries) :: L)
      else none := by
  induction node using Json.ind generalizing string with
  | leaf node hleaf =>
    intro entries L hin
    cases node with
    | object child => cases hleaf
    | null | array => exact (if_pos hin).symm
    | bool _ | number _ | string _ =>
      rw [setPair, setNode, pushBoth_eq, List.length_cons, pushedOfMember, Json.pushed]
      split
      · rfl
      · rfl
  | object child ih =>
    intro entries L hin
    have hchild := @sexeTableFieldSet_eq order stacksize child (fun c hc =>
      ih c hc c.1) [] (.string string :: .table entries :: L)
    rw [List.length_cons, List.length_cons] at hchild
    rw [setPair, setNode, pushBoth_eq, List.length_cons, pushedOfMember, Json.pushed]
    by_cases hroom : L.length + 1 + 2 ≤ stacksize
    · rw [if_pos hroom, Option.bind_some, hchild hroom]
      by_cases hall : L.length + 1 + (pushedOf child + 2) ≤ stacksize
      · rw [if_pos hall, if_pos (by omega)]
        rfl
      · rw [if_neg hall, if_neg (by omega)]
        rfl
    · rw [if_neg hroom, if_neg (by omega)]
      rfl

/-- A tree becomes a table as long as the stack has the slots that its deepest member needs. -/
theorem sexeTableSet_eq (child : List (CString × Json)) (L : Stack) :
    sexeTableSet order stacksize child L =
      if L.length + 1 + pushedOf child ≤ stacksize then
        some (.table (fill order child []) :: L) else none := by
  rw [sexeTableSet, luaPush_eq]
  by_cases hin : L.length + 1 ≤ stacksize
  · rw [if_pos hin, Option.bind_some]
    exact sexeTableFieldSet_eq order child (fun c _ => setPair_eq order c.1 c.2) [] L hin
  · rw [if_neg hin, if_neg (by omega)]
    rfl

/-- A member as an entry. -/
def asEntry (c : CString × Json) : Option (CString × LuaValue) := (c.2.toLua order).map (c.1, ·)

/-- A member becomes an entry if it has a value, and takes the place of one with its name. -/
theorem fillPair_eq (c : CString × Json) (entries : List (CString × LuaValue)) :
    fillPair order c entries = (asEntry order c).elim entries fun e =>
      order.arrange (putKey Prod.fst entries e) := by
  obtain ⟨string, node⟩ := c
  rw [fillPair, asEntry]
  cases node.toLua order with
  | none => rfl
  | some v => rfl

/-- The names of the entries stay distinct. -/
theorem nodup_fill (child : List (CString × Json)) : ∀ {entries : List (CString × LuaValue)},
    (entries.map Prod.fst).Nodup → ((fill order child entries).map Prod.fst).Nodup := by
  induction child with
  | nil => exact id
  | cons c next ih =>
    intro entries h
    rw [fill, fillPair_eq]
    refine ih ?_
    cases asEntry order c with
    | none => exact h
    | some e => exact ((order.perm _).map Prod.fst).nodup_iff.mpr (nodup_putKey h e)

/-- Members whose names are new and differ are entries beside those that there were. -/
theorem fill_perm (child : List (CString × Json)) : ∀ {entries : List (CString × LuaValue)},
    (child.map Prod.fst).Nodup → (∀ c ∈ child, c.1 ∉ entries.map Prod.fst) →
      (fill order child entries).Perm (entries ++ child.filterMap (asEntry order)) := by
  induction child with
  | nil =>
    intro entries _ _
    rw [List.filterMap_nil, List.append_nil]
    exact .rfl
  | cons c next ih =>
    intro entries hnodup hnew
    obtain ⟨hfirst, hnext⟩ := List.nodup_cons.mp hnodup
    have hrest : ∀ d ∈ next, d.1 ∉ entries.map Prod.fst :=
      fun d hd => hnew d (List.mem_cons_of_mem _ hd)
    rw [fill, fillPair_eq]
    cases he : asEntry order c with
    | none =>
      rw [List.filterMap_cons_none he]
      exact ih hnext hrest
    | some e =>
      have hkey : e.1 = c.1 := by
        obtain ⟨v, -, rfl⟩ := Option.map_eq_some_iff.mp he
        rfl
      have hput : (order.arrange (putKey Prod.fst entries e)).Perm (entries ++ [e]) := by
        rw [putKey_of_not_mem (hkey ▸ hnew c List.mem_cons_self)]
        exact order.perm _
      rw [List.filterMap_cons_some he, Option.elim_some]
      refine (ih hnext ?_).trans ?_
      · intro d hd hmem
        rw [((hput.map Prod.fst).mem_iff), List.map_append, List.mem_append, List.map_singleton,
          List.mem_singleton] at hmem
        rcases hmem with hmem | hmem
        · exact hrest d hd hmem
        · exact hfirst (hkey ▸ hmem ▸ List.mem_map_of_mem hd)
      · rw [List.append_cons]
        exact hput.append_right _

/-- No more entries are made than there are members that become one. -/
theorem length_fill (child : List (CString × Json)) : ∀ entries : List (CString × LuaValue),
    (fill order child entries).length ≤ entries.length +
    (child.filterMap (asEntry order)).length := by
  induction child with
  | nil => exact fun _ => le_rfl
  | cons c next ih =>
    intro entries
    rw [fill, fillPair_eq]
    refine (ih _).trans ?_
    cases he : asEntry order c with
    | none =>
      rw [List.filterMap_cons_none he]
      exact le_rfl
    | some e =>
      have hput : (putKey Prod.fst entries e).length ≤ entries.length + 1 := by
        rw [putKey, List.length_append, List.length_singleton]
        exact Nat.add_le_add_right (List.eraseP_sublist.length_le) 1
      rw [List.filterMap_cons_some he, Option.elim_some, (order.perm _).length_eq, List.length_cons]
      omega

end Fill

/-! ## The tree of a table -/

section Give

variable (number : CString → Option UInt64)

mutual

/-- What a value adds, where the stack has room. -/
def readValue (k : CString) : LuaValue → List (CString × Json) → List (CString × Json)
  | .table entries, json => addItemToObject json k (.object (readEntries entries []))
  | .number d, json => shjsonNumAdd json k d
  | .string v, json => (number v).elim (shjsonStrAdd json k v) (shjsonNumAdd json k)
  | .boolean _, json => json
  | .nil, json => json

def readPair : CString × LuaValue → List (CString × Json) → List (CString × Json)
  | (k, v), json => readValue k v json

/-- What the entries add. -/
def readEntries : List (CString × LuaValue) → List (CString × Json) → List (CString × Json)
  | [], json => json
  | entry :: entries, json => readEntries entries (readPair entry json)

end

/-- What a value is read as. -/
def LuaValue.toJson : LuaValue → Option Json
  | .table entries => some (.object (readEntries number entries []))
  | .number d => some (.number d)
  | .string v => some ((number v).elim (.string v) .number)
  | .boolean _ => none
  | .nil => none

/-- An entry as a member. -/
def asMember (e : CString × LuaValue) : Option (CString × Json) := (e.2.toJson number).map (e.1, ·)

/-- Without a member of the name nothing is taken out. -/
theorem deleteItem_none {json : List (CString × Json)} {string : CString}
    (h : ∀ c ∈ json, ¬ SameName c.1.val string.val) : deleteItemFromObject json string = json := by
  refine List.eraseP_of_forall_not ?_
  intro c hc
  exact fun htrue => h c hc (of_decide_eq_true htrue)

/-- With a member of the name one member is taken out. -/
theorem deleteItem_some {json : List (CString × Json)} {string : CString} {c : CString × Json}
    (hc : c ∈ json)
    (h : SameName c.1.val string.val) :
    (deleteItemFromObject json string).length + 1 = json.length := by
  have htrue : decide (strcasecmp (some c.1.val) (some string.val) = 0) = true := decide_eq_true h
  have hpos := List.length_pos_of_mem hc
  rw [deleteItemFromObject, List.length_eraseP_of_mem hc htrue]
  omega

/-- An entry becomes a member, which takes the place of one with its name unless it is a table.
-/
theorem readPair_eq (e : CString × LuaValue) (json : List (CString × Json)) :
    readPair number e json = (asMember number e).elim json fun c =>
      (if e.2.isTable then json else deleteItemFromObject json e.1) ++ [c] := by
  obtain ⟨k, v⟩ := e
  cases v with
  | nil | boolean _ | number _ | table _ => rfl
  | string s =>
    rw [readPair, readValue, asMember, LuaValue.toJson]
    cases number s with
    | none => rfl
    | some d => rfl

/-! ### Room for reading -/

mutual

/-- How many slots are taken on top of a table, to read it. -/
def LuaValue.slots : LuaValue → Nat
  | .table entries => entrySlots entries
  | .nil => 0
  | .boolean _ => 0
  | .number _ => 0
  | .string _ => 0

def slotsOfEntry : CString × LuaValue → Nat
  | (_, v) => v.slots + 2

def entrySlots : List (CString × LuaValue) → Nat
  | [] => 1
  | e :: entries => max (slotsOfEntry e) (entrySlots entries)

end

variable {stacksize : Nat}

/-- The entries are read as long as the stack has the slots for each of them. -/
theorem getEntries_eq (entries : List (CString × LuaValue))
    (h : ∀ e ∈ entries, ∀ L json, getPair number stacksize e L json =
      if L.length + slotsOfEntry e ≤ stacksize then some (readPair number e json) else none) :
    ∀ L json, L.length + 1 ≤ stacksize → getEntries number stacksize entries L json =
      if L.length + entrySlots entries ≤ stacksize then
        some (readEntries number entries json) else none := by
  induction entries with
  | nil =>
    intro L json hin
    rw [entrySlots, if_pos hin]
    rfl
  | cons e entries ih =>
    intro L json hin
    rw [getEntries, h e List.mem_cons_self, entrySlots]
    have hrest := ih (fun d hd => h d (List.mem_cons_of_mem _ hd)) L (readPair number e json) hin
    by_cases hroom : L.length + slotsOfEntry e ≤ stacksize
    · rw [if_pos hroom, Option.bind_some, hrest, readEntries]
      congr 1
      exact propext (by omega)
    · rw [if_neg hroom, if_neg (by omega)]
      rfl

theorem entrySlots_pos (entries : List (CString × LuaValue)) : 1 ≤ entrySlots entries := by
  cases entries with
  | nil => exact Nat.le_refl 1
  | cons e entries =>
    obtain ⟨k, v⟩ := e
    rw [entrySlots, slotsOfEntry]
    omega

/-- `lua_pushnil` and the loop. -/
theorem push_getEntries (entries : List (CString × LuaValue))
    (h : ∀ e ∈ entries, ∀ L json, getPair number stacksize e L json =
      if L.length + slotsOfEntry e ≤ stacksize then
        some (readPair number e json) else none) (L : Stack)
    (json : List (CString × Json)) :
    ((luaPush stacksize .nil L).bind fun _ => getEntries number stacksize entries L json) =
      if L.length + entrySlots entries ≤ stacksize then
        some (readEntries number entries json) else none := by
  have hpos := entrySlots_pos entries
  rw [luaPush_eq]
  by_cases hin : L.length + 1 ≤ stacksize
  · rw [if_pos hin, Option.bind_some, getEntries_eq number entries h L json hin]
  · rw [if_neg hin, if_neg (by omega)]
    rfl

/-- Induction on a value: those that are no tables, and the tables whose entries have been dealt
with. -/
theorem LuaValue.ind {motive : LuaValue → Prop} (leaf : ∀ v, v.isTable = false → motive v)
    (table : ∀ entries, (∀ e ∈ entries, motive e.2) → motive (.table entries)) : ∀ v, motive v
  | .nil => leaf .nil rfl
  | .boolean b => leaf (.boolean b) rfl
  | .number d => leaf (.number d) rfl
  | .string s => leaf (.string s) rfl
  | .table entries => table entries fun e _he => LuaValue.ind leaf table e.2
termination_by v => sizeOf v
decreasing_by
  have hmem := List.sizeOf_lt_of_mem _he
  obtain ⟨k, v⟩ := e
  simp only [Prod.mk.sizeOf_spec, LuaValue.table.sizeOf_spec] at hmem ⊢
  omega

/-- An entry is read, if the stack has room. -/
theorem getPair_eq (k : CString) (v : LuaValue) : ∀ L json, getPair number stacksize (k, v) L json =
    if L.length + slotsOfEntry (k, v) ≤ stacksize then
      some (readPair number (k, v) json) else none := by
  induction v using LuaValue.ind generalizing k with
  | leaf v hleaf =>
    intro L json
    rw [getPair, luaPush_eq, List.length_cons]
    cases v with
    | table entries => cases hleaf
    | nil | boolean _ | number _ | string _ =>
      rw [slotsOfEntry, LuaValue.slots]
      split
      · rfl
      · rfl
  | table entries ih =>
    intro L json
    have hentries := @push_getEntries number stacksize entries (fun e he => ih e he e.1)
      (.table entries :: .string k :: L) []
    rw [List.length_cons, List.length_cons] at hentries
    rw [getPair, luaPush_eq, List.length_cons, slotsOfEntry, LuaValue.slots]
    by_cases hin : L.length + 1 + 1 ≤ stacksize
    · rw [if_pos hin, Option.bind_some, getValue, hentries]
      by_cases hall : L.length + (entrySlots entries + 2) ≤ stacksize
      · rw [if_pos hall, if_pos (by omega)]
        rfl
      · rw [if_neg hall, if_neg (by omega)]
        rfl
    · rw [if_neg hin, if_neg (by omega)]
      rfl

/-- A table becomes a tree as long as the stack has the slots that its deepest entry needs. -/
theorem sexeTableGet_eq (entries : List (CString × LuaValue)) (L : Stack) :
    sexeTableGet number stacksize (.table entries :: L) =
      if L.length + 1 + entrySlots entries ≤ stacksize then
        some (.object (readEntries number entries [])) else none := by
  rw [sexeTableGet, sexeTableFieldGet, push_getEntries number entries fun e _ =>
    getPair_eq number e.1 e.2, List.length_cons]
  split
  · rfl
  · rfl

/-- Reading the entry adds a member to `json` and takes none out: it has a type that is read, and no
member has its name, in any case, unless it is a table. -/
def Free (json : List (CString × Json)) (e : CString × LuaValue) : Prop :=
  (asMember number e).isSome ∧ ∀ c ∈ json, SameName c.1.val e.1.val → e.2.isTable

/-- Every entry is free of those before it. -/
def AllFree : List (CString × LuaValue) → List (CString × Json) → Prop
  | [], _ => True
  | e :: entries, json => Free number json e ∧ AllFree entries (json ++ (asMember number e).toList)

variable {number}

/-- An entry that nothing stands in the way of is added as a member. -/
theorem readPair_free {e : CString × LuaValue} {json : List (CString × Json)}
    (h : Free number json e) :
    readPair number e json = json ++ (asMember number e).toList := by
  obtain ⟨hsome, hsame⟩ := h
  obtain ⟨c, hc⟩ := Option.isSome_iff_exists.mp hsome
  rw [readPair_eq, hc, Option.elim_some, Option.toList_some]
  by_cases htable : e.2.isTable
  · rw [if_pos htable]
  · rw [if_neg htable, deleteItem_none fun d hd h => htable (hsame d hd h)]

/-- An entry that is not free adds no member. -/
theorem length_readPair (e : CString × LuaValue) (json : List (CString × Json)) :
    (readPair number e json).length ≤ json.length + 1 ∧
      ((readPair number e json).length = json.length + 1 → Free number json e) := by
  rw [readPair_eq]
  cases hc : asMember number e with
  | none => exact ⟨Nat.le_succ _, fun h => absurd h (by rw [Option.elim_none]; omega)⟩
  | some c =>
    have hsome : (asMember number e).isSome := Option.isSome_iff_exists.mpr ⟨c, hc⟩
    rw [Option.elim_some, List.length_append, List.length_singleton]
    by_cases htable : e.2.isTable
    · rw [if_pos htable]
      exact ⟨le_rfl, fun _ => ⟨hsome, fun _ _ _ => htable⟩⟩
    · rw [if_neg htable]
      refine ⟨Nat.add_le_add_right List.eraseP_sublist.length_le 1, ?_⟩
      intro hlen
      refine ⟨hsome, ?_⟩
      intro d hd hsame
      have hless := deleteItem_some hd hsame
      omega

/-- If nothing stands in the way, the members are those of the entries. -/
theorem readEntries_free : ∀ {entries : List (CString × LuaValue)} {json : List (CString × Json)},
    AllFree number entries json → readEntries number entries json = json ++
      entries.filterMap (asMember number) := by
  intro entries
  induction entries with
  | nil => exact fun _ => (List.append_nil _).symm
  | cons e entries ih =>
    rintro json ⟨he, hrest⟩
    obtain ⟨c, hc⟩ := Option.isSome_iff_exists.mp he.1
    rw [readEntries, readPair_free he, ih hrest, hc, Option.toList_some,
      List.filterMap_cons_some hc, ← List.append_cons]

/-- As many members as entries are read just where all are free. -/
theorem length_readEntries : ∀ (entries : List (CString × LuaValue)) (json : List (CString × Json)),
    (readEntries number entries json).length ≤ json.length + entries.length ∧
      ((readEntries number entries json).length = json.length + entries.length →
        AllFree number entries json) := by
  intro entries
  induction entries with
  | nil => exact fun _ => ⟨le_rfl, fun _ => trivial⟩
  | cons e entries ih =>
    intro json
    obtain ⟨hle, hfree⟩ := @length_readPair number e json
    obtain ⟨hrest, hall⟩ := ih (readPair number e json)
    rw [readEntries, List.length_cons]
    refine ⟨by omega, ?_⟩
    intro hlen
    have he := hfree (by omega)
    refine ⟨he, ?_⟩
    rw [← readPair_free he]
    exact hall (by omega)

/-- Nothing stands in the way just when every entry has a value, and entries of one name come as
tables last. -/
theorem allFree_iff : ∀ {entries : List (CString × LuaValue)} {json : List (CString × Json)},
    AllFree number entries json ↔ (∀ e ∈ entries, (asMember number e).isSome) ∧
      entries.Pairwise (fun p q => SameName p.1.val q.1.val → q.2.isTable) ∧
        ∀ c ∈ json, ∀ e ∈ entries, SameName c.1.val e.1.val → e.2.isTable := by
  intro entries
  induction entries with
  | nil => exact fun {_} => iff_of_true trivial ⟨nofun, .nil, fun _ _ => nofun⟩
  | cons e entries ih =>
    intro json
    have hkey : ∀ c ∈ (asMember number e).toList, c.1 = e.1 := by
      intro c hc
      obtain ⟨node, -, rfl⟩ := Option.map_eq_some_iff.mp (Option.mem_toList.mp hc)
      rfl
    rw [AllFree, Free, ih, List.forall_mem_cons, List.pairwise_cons]
    constructor
    · rintro ⟨⟨hsome, hhere⟩, hsomes, hpair, hrest⟩
      obtain ⟨c, hc⟩ := Option.isSome_iff_exists.mp hsome
      have hmem : c ∈ (asMember number e).toList := by rw [hc]; exact List.mem_singleton_self c
      refine ⟨⟨hsome, hsomes⟩, ⟨?_, hpair⟩, ?_⟩
      · intro q hq
        rw [← hkey c hmem]
        exact hrest c (List.mem_append_right _ hmem) q hq
      · intro d hd
        exact List.forall_mem_cons.mpr ⟨hhere d hd, hrest d (List.mem_append_left _ hd)⟩
    · rintro ⟨⟨hsome, hsomes⟩, ⟨hfirst, hpair⟩, hrest⟩
      refine ⟨⟨hsome, fun c hc => hrest c hc e List.mem_cons_self⟩, hsomes, hpair, ?_⟩
      intro c hc q hq
      rcases List.mem_append.mp hc with hc | hc
      · exact hrest c hc q (List.mem_cons_of_mem _ hq)
      · rw [hkey c hc]
        exact hfirst q hq

end Give

/-! ## The round trip -/

/-- What keeps the name keeps the names. -/
theorem names_filterMap {α β : Type} {f : CString × α → Option (CString × β)}
    {xs : List (CString × α)}
    (h : ∀ x ∈ xs, ∃ y, f x = some (x.1, y)) : (xs.filterMap f).map Prod.fst = xs.map Prod.fst := by
  induction xs with
  | nil => rfl
  | cons x xs ih =>
    obtain ⟨⟨y, hy⟩, hrest⟩ := List.forall_mem_cons.mp h
    rw [List.filterMap_cons_some hy, List.map_cons, List.map_cons, ih hrest]

section Trip

variable {number : CString → Option UInt64}

/-- Both are tables, where the names are one but for their case. -/
def BothTables (p q : CString × LuaValue) : Prop :=
  SameName p.1.val q.1.val → p.2.isTable ∧ q.2.isTable

theorem BothTables.symm {p q : CString × LuaValue} (h : BothTables p q) : BothTables q p := by
  intro hsame
  have hback : SameName p.1.val q.1.val := by
    rw [LibShare.Mem.sameName_iff] at hsame ⊢
    exact hsame.symm
  exact (h hback).symm

theorem sameName_refl (s : Bytes) : SameName s s := (LibShare.Mem.sameName_iff s s).mpr rfl

/-- Members that differ in their names as far as C tells them apart have distinct names. -/
theorem nodup_of_pairwise {child : List (CString × Json)}
    (h : child.Pairwise fun c d => SameName c.1.val d.1.val → c.1 ≠ d.1 ∧ c.2.isObject ∧
      d.2.isObject) :
    (child.map Prod.fst).Nodup := by
  rw [List.Nodup, List.pairwise_map]
  refine h.imp ?_
  intro c d hcd hsame
  exact (hcd (hsame ▸ sameName_refl _)).1 hsame

/-- An object becomes a table, and nothing else does. -/
theorem isTable_toLua {order : Order} {node : Json} {v : LuaValue} (h : node.toLua order = some v) :
    v.isTable = node.isObject := by
  cases node with
  | null | array => cases h
  | bool _ | number _ | string _ | object _ =>
    obtain rfl := Option.some.inj h
    rfl

/-- A tree of what is kept comes back. -/
theorem same_of_kept (order : Order) (node : Json) : node.Kept number → ∃ v node',
    node.toLua order = some v ∧ v.toJson number = some node' ∧ node.Same node' := by
  induction node using Json.ind with
  | leaf node hleaf =>
    intro h
    cases h with
    | number d => exact ⟨.number d, .number d, rfl, rfl, rfl⟩
    | string s hs =>
      refine ⟨.string s, .string s, rfl, ?_, rfl⟩
      rw [LuaValue.toJson, hs]
      rfl
    | object child nodes names => cases hleaf
  | object child ih =>
    rintro (_ | _ | ⟨_, hnodes, hnames⟩)
    have hnodup := nodup_of_pairwise hnames
    have hfill := @fill_perm order child [] hnodup fun _ _ => List.not_mem_nil
    rw [List.nil_append] at hfill
    -- every member is an entry, and every entry a member again
    have hentry : ∀ c ∈ child, ∃ v, asEntry order c = some (c.1, v) := by
      intro c hc
      obtain ⟨v, -, hv, -⟩ := ih c hc (hnodes c hc)
      exact ⟨v, by rw [asEntry, hv]; rfl⟩
    have hmember : ∀ e ∈ fill order child [], ∃ node', asMember number e = some (e.1, node') := by
      intro e he
      obtain ⟨c, hc, hce⟩ := List.mem_filterMap.mp (hfill.mem_iff.mp he)
      obtain ⟨v, hv, rfl⟩ := Option.map_eq_some_iff.mp hce
      obtain ⟨v', node', hv', hnode', -⟩ := ih c hc (hnodes c hc)
      rw [hv] at hv'
      obtain rfl := Option.some.inj hv'
      exact ⟨node', by rw [asMember, hnode']; rfl⟩
    have htables : (fill order child []).Pairwise BothTables := by
      rw [hfill.pairwise_iff BothTables.symm, List.pairwise_filterMap]
      refine hnames.imp ?_
      intro c d hcd e he f hf hsame
      obtain ⟨v, hv, rfl⟩ := Option.map_eq_some_iff.mp he
      obtain ⟨w, hw, rfl⟩ := Option.map_eq_some_iff.mp hf
      obtain ⟨-, hc, hd⟩ := hcd hsame
      exact ⟨(isTable_toLua hv).trans hc, (isTable_toLua hw).trans hd⟩
    have hfree : AllFree number (fill order child []) [] := by
      refine allFree_iff.mpr ⟨?_, htables.imp fun h hsame => (h hsame).2, fun _ => nofun⟩
      intro e he
      obtain ⟨node', hnode'⟩ := hmember e he
      exact Option.isSome_iff_exists.mpr ⟨_, hnode'⟩
    refine ⟨.table (fill order child []), .object (readEntries number (fill order child []) []),
      rfl, rfl, ?_⟩
    rw [readEntries_free hfree, List.nil_append]
    refine ⟨_, rfl, ?_, (sameMembers_iff _ _).mpr ?_⟩
    · rw [names_filterMap hmember, ← names_filterMap hentry]
      exact (hfill.map Prod.fst).symm
    · intro c hc
      obtain ⟨v, node', hv, hnode', hsame⟩ := ih c hc (hnodes c hc)
      refine ⟨node', ?_, hsame⟩
      refine List.mem_filterMap.mpr ⟨(c.1, v), hfill.mem_iff.mpr ?_, ?_⟩
      · exact List.mem_filterMap.mpr ⟨c, hc, by rw [asEntry, hv]; rfl⟩
      · rw [asMember, hnode']
        rfl

/-- Tables before all that is none. -/
def tablesFirst : Order where
  arrange entries := entries.filter (fun e => e.2.isTable) ++ entries.filter fun e => !e.2.isTable
  perm entries := List.filter_append_perm _ entries

/-- `p` may stand before `q` where the tables come first: it is a table if `q` is one. -/
def NotBefore (p q : CString × LuaValue) : Prop := q.2.isTable → p.2.isTable

/-- The order puts tables first. -/
theorem notBefore_arrange (entries : List (CString × LuaValue)) :
    (tablesFirst.arrange entries).Pairwise NotBefore := by
  refine List.pairwise_append.mpr ⟨?_, ?_, ?_⟩
  · exact List.Pairwise.imp_of_mem (fun hp _ _ _ =>
      (List.mem_filter.mp hp).2) (List.pairwise_of_forall fun _ _ => trivial)
  · refine List.Pairwise.imp_of_mem (fun _ hq _ htable =>
      ?_) (List.pairwise_of_forall fun _ _ => trivial)
    have hnone := (List.mem_filter.mp hq).2
    rw [htable] at hnone
    cases hnone
  · intro p hp q _ _
    exact (List.mem_filter.mp hp).2

/-- A table that is filled in that order has its tables first. -/
theorem notBefore_fill (child : List (CString × Json)) : ∀ {entries : List (CString × LuaValue)},
    entries.Pairwise NotBefore → (fill tablesFirst child entries).Pairwise NotBefore := by
  induction child with
  | nil => exact id
  | cons c next ih =>
    intro entries h
    rw [fill, fillPair_eq]
    refine ih ?_
    cases asEntry tablesFirst c with
    | none => exact h
    | some e => exact notBefore_arrange _

/-- As many members come back only if each is an entry, and each entry a member. -/
theorem all_come_back {child : List (CString × Json)}
    (hlen : (readEntries number (fill tablesFirst child []) []).length = child.length) :
    AllFree number (fill tablesFirst child [])
      [] ∧ ∀ c ∈ child, (asEntry tablesFirst c).isSome := by
  obtain ⟨hget, hfree⟩ := @length_readEntries number (fill tablesFirst child []) []
  have hfill := length_fill tablesFirst child []
  have hmap := List.length_filterMap_le (asEntry tablesFirst) child
  rw [List.length_nil, Nat.zero_add] at hget hfree hfill
  refine ⟨hfree (by omega), ?_⟩
  have hcount : child.countP (fun c => (asEntry tablesFirst c).isSome) = child.length := by
    rw [← List.length_filterMap_eq_countP]
    omega
  exact fun c hc => List.countP_eq_length.mp hcount c hc

/-- What comes back is of what is kept, if the tables are before the other entries. -/
theorem kept_of_same (node : Json) :
    ∀ {v node'}, node.toLua tablesFirst = some v → v.toJson number = some node' →
    node.Same node' → node.Kept number := by
  induction node using Json.ind with
  | leaf node hleaf =>
    intro v node' hv hnode' hsame
    cases node with
    | object child => cases hleaf
    | null | array => cases hv
    | bool b =>
      obtain rfl := Option.some.inj hv
      cases hnode'
    | number d => exact .number d
    | string s =>
      obtain rfl := Option.some.inj hv
      refine .string s ?_
      cases hnumber : number s with
      | none => rfl
      | some d =>
        -- the string has come back as a number
        rw [LuaValue.toJson, hnumber] at hnode'
        obtain rfl := Option.some.inj hnode'
        cases hsame
  | object child ih =>
    intro v node' hv hnode' hsame
    obtain rfl := Option.some.inj hv
    obtain rfl := Option.some.inj hnode'
    obtain ⟨result, hresult, hnames, hsames⟩ := hsame
    obtain rfl := Json.object.inj hresult
    have hlen := hnames.length_eq
    rw [List.length_map, List.length_map] at hlen
    obtain ⟨hfree, hsome⟩ := all_come_back hlen.symm
    obtain ⟨hmember, hpairs, -⟩ := allFree_iff.mp hfree
    rw [readEntries_free hfree, List.nil_append] at hnames hsames
    have hmember' : ∀ e ∈ fill tablesFirst child [], ∃ node',
        asMember number e = some (e.1, node') := by
      intro e he
      obtain ⟨c, hc⟩ := Option.isSome_iff_exists.mp (hmember e he)
      obtain ⟨node', -, rfl⟩ := Option.map_eq_some_iff.mp hc
      exact ⟨node', hc⟩
    have hkeys : ((fill tablesFirst child []).map Prod.fst).Nodup :=
      nodup_fill tablesFirst child List.nodup_nil
    rw [names_filterMap hmember'] at hnames
    have hnodup : (child.map Prod.fst).Nodup := hnames.nodup_iff.mpr hkeys
    have hfill := @fill_perm tablesFirst child [] hnodup fun _ _ => List.not_mem_nil
    rw [List.nil_append] at hfill
    refine .object child ?_ ?_
    · intro c hc
      obtain ⟨e, he⟩ := Option.isSome_iff_exists.mp (hsome c hc)
      obtain ⟨v, hv, rfl⟩ := Option.map_eq_some_iff.mp he
      have hentry : (c.1, v) ∈ fill tablesFirst child [] :=
        hfill.mem_iff.mpr (List.mem_filterMap.mpr ⟨c, hc, he⟩)
      obtain ⟨node', hnode'⟩ := hmember' _ hentry
      obtain ⟨node'', hmem, hsame⟩ := (sameMembers_iff _ _).mp hsames c hc
      -- under its name there is no other member
      have hunique : node'' = node' := by
        have hdistinct : (((fill tablesFirst child []).filterMap (asMember number)).map
            Prod.fst).Nodup := by
          rw [names_filterMap hmember']
          exact hkeys
        have hpair :=
          List.inj_on_of_nodup_map hdistinct hmem (List.mem_filterMap.mpr ⟨_, hentry, hnode'⟩) rfl
        exact (Prod.mk.inj hpair).2
      subst hunique
      obtain ⟨_, hback, hpair⟩ := Option.map_eq_some_iff.mp hnode'
      rw [(Prod.mk.inj hpair).2] at hback
      exact ih c hc hv hback hsame
    · have htables : (fill tablesFirst child []).Pairwise BothTables := by
        refine (hpairs.and (notBefore_fill child .nil)).imp ?_
        rintro p q ⟨hq, hp⟩ hsame
        exact ⟨hp (hq hsame), hq hsame⟩
      rw [hfill.pairwise_iff BothTables.symm, List.pairwise_filterMap] at htables
      refine ((List.pairwise_map.mp hnodup).and htables).imp_of_mem ?_
      rintro c d hc hd ⟨hne, hboth⟩ hsame
      obtain ⟨e, he⟩ := Option.isSome_iff_exists.mp (hsome c hc)
      obtain ⟨f, hf⟩ := Option.isSome_iff_exists.mp (hsome d hd)
      have htwo := hboth e he f hf
      obtain ⟨v, hv, rfl⟩ := Option.map_eq_some_iff.mp he
      obtain ⟨w, hw, rfl⟩ := Option.map_eq_some_iff.mp hf
      obtain ⟨hctable, hdtable⟩ := htwo hsame
      exact ⟨hne, (isTable_toLua hv).symm.trans hctable, (isTable_toLua hw).symm.trans hdtable⟩

/-! ### Room for a tree -/

/-- The slots of some members are those of the greatest, and two for each level. -/
theorem slotsOf_le_iff (child : List (CString × Json)) (n : Nat) :
    slotsOf child ≤ n ↔ 1 ≤ n ∧ ∀ c ∈ child, c.2.slots + 2 ≤ n := by
  induction child with
  | nil => exact (and_iff_left nofun).symm
  | cons c next ih =>
    obtain ⟨string, node⟩ := c
    rw [slotsOf, slotsOfMember, max_le_iff, ih, List.forall_mem_cons]
    exact and_left_comm

/-- The slots of some entries are those of the greatest, and two for each level. -/
theorem entrySlots_le_iff (entries : List (CString × LuaValue)) (n : Nat) :
    entrySlots entries ≤ n ↔ 1 ≤ n ∧ ∀ e ∈ entries, e.2.slots + 2 ≤ n := by
  induction entries with
  | nil => exact (and_iff_left nofun).symm
  | cons e entries ih =>
    obtain ⟨k, v⟩ := e
    rw [entrySlots, slotsOfEntry, max_le_iff, ih, List.forall_mem_cons]
    exact and_left_comm

/-- To read a table takes no less than to make it. -/
theorem pushed_le (node : Json) : node.pushed ≤ node.slots + 2 := by
  induction node using Json.ind with
  | leaf node hleaf =>
    cases node with
    | object child => cases hleaf
    | null | array => exact Nat.zero_le _
    | bool _ | number _ | string _ => exact Nat.le_refl 2
  | object child ih =>
    rw [Json.pushed, Json.slots]
    refine Nat.add_le_add_right ?_ 2
    induction child with
    | nil => exact Nat.zero_le _
    | cons c next hnext =>
      obtain ⟨hfirst, hrest⟩ := List.forall_mem_cons.mp ih
      obtain ⟨string, node⟩ := c
      exact max_le_max hfirst (hnext hrest)

/-- A tree that is kept has a value. -/
theorem toLua_of_kept {node : Json} (order : Order) (h : node.Kept number) :
    ∃ v, node.toLua order = some v := by
  cases h with
  | number d => exact ⟨_, rfl⟩
  | string s _ => exact ⟨_, rfl⟩
  | object child _ _ => exact ⟨_, rfl⟩

/-- The table of a tree of what is kept takes as many slots as the tree, however its entries are
arranged. -/
theorem slots_toLua (order : Order) (node : Json) :
    node.Kept number → ∀ {v}, node.toLua order = some v →
    v.slots = node.slots := by
  induction node using Json.ind with
  | leaf node hleaf =>
    intro h v hv
    cases h with
    | object child _ _ => cases hleaf
    | number d =>
      obtain rfl := Option.some.inj hv
      rfl
    | string s _ =>
      obtain rfl := Option.some.inj hv
      rfl
  | object child ih =>
    rintro (_ | _ | ⟨_, hnodes, hnames⟩) v hv
    obtain rfl := Option.some.inj hv
    have hfill := @fill_perm order child [] (nodup_of_pairwise hnames) fun _ _ => List.not_mem_nil
    rw [List.nil_append] at hfill
    refine eq_of_forall_ge_iff fun n => ?_
    rw [LuaValue.slots, Json.slots, entrySlots_le_iff, slotsOf_le_iff]
    refine and_congr_right fun _ => ⟨?_, ?_⟩
    · intro h c hc
      obtain ⟨v, hv⟩ := toLua_of_kept order (hnodes c hc)
      rw [← ih c hc (hnodes c hc) hv]
      refine h (c.1, v) (hfill.mem_iff.mpr (List.mem_filterMap.mpr ⟨c, hc, ?_⟩))
      rw [asEntry, hv]
      rfl
    · intro h e he
      obtain ⟨c, hc, hce⟩ := List.mem_filterMap.mp (hfill.mem_iff.mp he)
      obtain ⟨v, hv, rfl⟩ := Option.map_eq_some_iff.mp hce
      rw [ih c hc (hnodes c hc) hv]
      exact h c hc

/-- A tree comes back from its table, in whatever order tables are gone through, just
when it is of what is kept, and the stack has room for the table and what is read on top of it. -/
theorem tableTrips_iff (number : CString → Option UInt64) (stacksize : Nat) (L : Stack)
    (child : List (CString × Json)) : TableTrips number stacksize L child ↔
      (Json.object child).Kept number ∧ L.length + 1 + (Json.object child).slots ≤ stacksize := by
  constructor
  · intro h
    -- the order with tables first is enough
    obtain ⟨L', json, hset, hget, hsame⟩ := h tablesFirst
    rw [sexeTableSet_eq] at hset
    obtain ⟨-, hset⟩ := Option.ite_none_right_eq_some.mp hset
    obtain rfl := Option.some.inj hset
    rw [sexeTableGet_eq] at hget
    obtain ⟨hroom, hget⟩ := Option.ite_none_right_eq_some.mp hget
    obtain rfl := Option.some.inj hget
    have hkept := kept_of_same (.object child) rfl rfl hsame
    have hslots := slots_toLua tablesFirst _ hkept rfl
    rw [LuaValue.slots] at hslots
    exact ⟨hkept, by rw [← hslots]; exact hroom⟩
  · rintro ⟨h, hroom⟩ order
    obtain ⟨v, json, hv, hjson, hsame⟩ := same_of_kept order _ h
    obtain rfl := Option.some.inj hv
    have hslots := slots_toLua order _ h rfl
    have hpushed := pushed_le (.object child)
    rw [LuaValue.slots] at hslots
    rw [Json.pushed] at hpushed
    refine ⟨.table (fill order child []) :: L, json, ?_, ?_, hsame⟩
    · rw [sexeTableSet_eq, if_pos (by omega)]
    · rw [sexeTableGet_eq, if_pos (by omega)]
      exact hjson

end Trip

/-- The string of an `a`. -/
def nameA : CString := ⟨[97], by decide⟩

/-- A boolean does not come back, though the stack has room for it. -/
theorem boolean_dropped :
    ¬ TableTrips (fun _ => none) basicStackSize [.nil] [(nameA, .bool true)] := by
  intro h
  obtain ⟨L', json, hset, hget, hsame⟩ := h tablesFirst
  obtain rfl := Option.some.inj hset
  obtain rfl := Option.some.inj hget
  obtain ⟨child', hchild, hnames, -⟩ := hsame
  obtain rfl := Json.object.inj hchild
  exact absurd hnames.length_eq (by decide)

/-- Objects in one another. -/
def nested : Nat → Json
  | 0 => .number 0
  | depth + 1 => .object [(nameA, nested depth)]

/-- On the stack of a new state, which has one slot in use, a number may be in 19 objects, and no
more. -/
example : 1 + 1 + (nested 19).slots = basicStackSize ∧
    ¬ 1 + 1 + (nested 20).slots ≤ basicStackSize := by decide

end LibShare.Sexe
