import LibShare.Base
import LibShare.Lib.Keyed
import LibShare.Lib.Runs
import Mathlib.Data.List.TakeWhile

/-!
# libshare — members of a JSON object

The lookup and the builders of `shmem_json.c`, and the objects they build.

* A name is a C string: it ends before the first zero byte. `tolower` is the one
  of the C locale.
* The members of an object are a list. A node is named by the number of nodes
  that have been made before it, so that two nodes are never taken for one. The
  members of a member are left out, and a floating-point number is its 64 bits.
* Memory is taken to suffice.

Four of the builders take out the member that has the name. `shjson_array_add` and
`shjson_obj_add` do not, and the lookup goes on returning that member
(`jsonNames_iff`).
-/

namespace LibShare.Mem

/-! ## Names -/

def tolower (c : UInt8) : UInt8 := if 65 ≤ c ∧ c ≤ 90 then c + 32 else c

/-- The loop of `shjson_strcasecmp`. -/
def strcasecmpLoop : Bytes → Bytes → Int
  | [], [] => 0
  | [], b :: _ => - (tolower b).toNat
  | a :: _, [] => (tolower a).toNat
  | a :: s1, b :: s2 =>
    if tolower a = tolower b then if a = 0 then 0 else strcasecmpLoop s1 s2
    else (tolower a).toNat - (tolower b).toNat

/-- `shjson_strcasecmp`. -/
def strcasecmp : Option Bytes → Option Bytes → Int
  | none, none => 0
  | none, some _ => 1
  | some _, none => 1
  | some s1, some s2 => strcasecmpLoop s1 s2

/-- `shjson_strdup`. -/
def strdup (str : Bytes) : Bytes := str.takeWhile (· ≠ 0)

/-! ## Objects -/

/-- What a node is made as: its `type`, and its value. -/
inductive JsonValue
  | null
  | bool (b : Bool)
  | number (valuedouble : UInt64)
  | string (valuestring : Bytes)
  | array
  | object
deriving DecidableEq

/-- `shjson_t`, as a member. -/
structure JsonItem where
  node : Nat
  string : Option Bytes
  value : JsonValue
deriving DecidableEq

/-- An object: the nodes made for it, and its members. -/
structure JsonTree where
  made : Nat
  child : List JsonItem

/-- `shjson_init` without a text. -/
def shjsonInit : JsonTree := { made := 0, child := [] }

/-- `shjson_GetObjectItem`. -/
def getObjectItem (object : JsonTree) (string : Option Bytes) : Option JsonItem :=
  object.child.find? fun c => strcasecmp c.string string = 0

/-- `shjson_DetachItemFromArray`. -/
def detachItemFromArray (array : JsonTree) (which : Nat) : JsonTree :=
  { array with child := array.child.eraseIdx which }

/-- `shjson_DeleteItemFromObject`: the first member that has the name. -/
def deleteItemFromObject (object : JsonTree) (string : Option Bytes) : JsonTree :=
  match object.child.findIdx? fun c => strcasecmp c.string string = 0 with
  | some i => detachItemFromArray object i
  | none => object

/-- `shjson_AddItemToArray`. -/
def addItemToArray (array : JsonTree) (item : JsonItem) : JsonTree :=
  { array with child := array.child ++ [item] }

/-- `shjson_AddItemToObject`. -/
def addItemToObject (object : JsonTree) (string : Bytes) (item : JsonItem) : JsonTree :=
  addItemToArray object { item with string := some (strdup string) }

/-- `shjson_New_Item` and what the `shjson_Create` functions set. -/
def createItem (tree : JsonTree) (value : JsonValue) : JsonItem × JsonTree :=
  ({ node := tree.made, string := none, value }, { tree with made := tree.made + 1 })

/-- What the builders do: they take out the member that has the name, if they do
(`delete`), make a node, and append it. -/
def jsonAdd (delete : Bool) (value : JsonValue) (tree : JsonTree) (name : Option Bytes) :
    Nat × JsonTree :=
  let tree := if delete ∧ name.isSome then deleteItemFromObject tree name else tree
  let (node, tree) := createItem tree value
  (node.node, name.elim (addItemToArray tree node) fun name => addItemToObject tree name node)

def shjsonNumAdd (tree : JsonTree) (name : Option Bytes) (num : UInt64) : Nat × JsonTree :=
  jsonAdd true (.number num) tree name

def shjsonNullAdd (tree : JsonTree) (name : Option Bytes) : Nat × JsonTree :=
  jsonAdd true .null tree name

def shjsonBoolAdd (tree : JsonTree) (name : Option Bytes) (val : Int) : Nat × JsonTree :=
  jsonAdd true (.bool (val ≠ 0)) tree name

def shjsonArrayAdd (tree : JsonTree) (name : Option Bytes) : Nat × JsonTree :=
  jsonAdd false .array tree name

def shjsonObjAdd (tree : JsonTree) (name : Option Bytes) : Nat × JsonTree :=
  jsonAdd false .object tree name

def shjsonStrAdd (tree : JsonTree) (name : Option Bytes) (val : Option Bytes) : Nat × JsonTree :=
  val.elim (shjsonNullAdd tree name) fun val => jsonAdd true (.string (strdup val)) tree name

/-- The members without the numbers of their nodes. -/
def JsonTree.members (tree : JsonTree) : List (Option Bytes × JsonValue) :=
  tree.child.map fun c => (c.string, c.value)

/-- Taking out a member does not depend on the numbers. -/
theorem members_delete (tree : JsonTree) (name : Option Bytes) :
    (deleteItemFromObject tree name).members = tree.members.eraseP fun c =>
      strcasecmp c.1 name = 0 := by
  have herase : (deleteItemFromObject tree name).child = tree.child.eraseP fun c =>
    strcasecmp c.string name = 0 := by
    rw [List.eraseP_eq_eraseIdx, deleteItemFromObject]
    cases tree.child.findIdx? fun c => strcasecmp c.string name = 0 with
    | none => rfl
    | some i => rfl
  unfold JsonTree.members
  rw [herase, List.eraseP_map]
  rfl

/-- A builder that takes out the member with the name. -/
theorem members_add (value : JsonValue) (tree : JsonTree) {name : Bytes} (hname : 0 ∉ name) :
    (jsonAdd true value tree (some name)).2.members =
      (tree.members.eraseP fun c => strcasecmp c.1 (some name) = 0) ++ [(some name, value)] := by
  have hdup : strdup name = name := List.takeWhile_eq_self_iff.mpr fun c hc =>
    decide_eq_true fun h0 => hname (h0 ▸ hc)
  rw [← members_delete]
  unfold jsonAdd JsonTree.members
  simp only [Option.isSome_some, and_self, if_true, createItem, Option.elim_some, addItemToObject,
    addItemToArray, List.map_append, List.map_cons, List.map_nil, hdup]

/-! ## Runs -/

/-- A builder, with what it is given beside the name. -/
inductive Builder
  | num (num : UInt64)
  | null
  | bool (val : Int)
  | str (val : Option Bytes)
  | array
  | obj

/-- A call of a builder with a name. -/
structure JsonCall where
  builder : Builder
  name : Bytes

/-- What a call does. -/
def JsonCall.run (call : JsonCall) (tree : JsonTree) : Nat × JsonTree :=
  match call.builder with
  | .num num => shjsonNumAdd tree (some call.name) num
  | .null => shjsonNullAdd tree (some call.name)
  | .bool val => shjsonBoolAdd tree (some call.name) val
  | .str val => shjsonStrAdd tree (some call.name) val
  | .array => shjsonArrayAdd tree (some call.name)
  | .obj => shjsonObjAdd tree (some call.name)

/-- A run: the object, and the nodes that have been added to it with the names that
were given, the last one first. -/
structure JsonRun where
  tree : JsonTree
  added : List (Bytes × Nat)

/-- The run up to a call, and the call. -/
def JsonRun.step (s : JsonRun) (call : JsonCall) : Option JsonRun :=
  let (node, tree) := call.run s.tree
  some { tree, added := (call.name, node) :: s.added }

def JsonRun.start : JsonRun := { tree := shjsonInit, added := [] }

/-- The names are one, but for the case of their letters. -/
def SameName (s1 s2 : Bytes) : Prop := strcasecmp (some s1) (some s2) = 0

instance (s1 s2 : Bytes) : Decidable (SameName s1 s2) := inferInstanceAs (Decidable (_ = _))

/-- The node added last under a name. -/
def lastAdded (added : List (Bytes × Nat)) (name : Bytes) : Option Nat :=
  (added.find? fun p => SameName p.1 name).map Prod.snd

/-- No name occurs twice, and the lookup of a name returns the node added last under it. -/
def JsonRun.Unique (s : JsonRun) : Prop :=
  s.tree.child.Pairwise (fun c d => strcasecmp c.string d.string ≠ 0) ∧
    ∀ name, (getObjectItem s.tree (some name)).map JsonItem.node = lastAdded s.added name

/-- The builder takes out the member that has the name. -/
def Builder.Deletes : Builder → Prop
  | .array | .obj => False
  | _ => True

/-- An array or an object is added under a name that no node was added under before. -/
def JsonCall.Fresh (s : JsonRun) (call : JsonCall) : Prop :=
  call.builder.Deletes ∨ ∀ p ∈ s.added, ¬ SameName p.1 call.name

/-! ## Comparing names -/

/-- What the comparison of two names compares. -/
def foldName (s : Bytes) : Bytes := (strdup s).map tolower

/-- A name is folded up to its zero. -/
theorem foldName_cons (c : UInt8) (s : Bytes) :
    foldName (c :: s) = if c = 0 then [] else tolower c :: foldName s := by
  unfold foldName strdup
  by_cases hzero : c = 0
  · simp [hzero]
  · simp [hzero]

/-- A copy of a name is folded to the same. -/
@[simp] theorem foldName_strdup (s : Bytes) : foldName (strdup s) = foldName s := by
  unfold foldName strdup
  rw [List.takeWhile_idem]

/-- No letter becomes the end of a name. -/
theorem tolower_eq_zero_iff (c : UInt8) : tolower c = 0 ↔ c = 0 := by
  unfold tolower
  split
  · next hletter =>
    have hlow : 65 ≤ c.toNat := hletter.1
    have hhigh : c.toNat ≤ 90 := hletter.2
    constructor
    · intro h
      have hnat : (c.toNat + 32) % 256 = 0 := congrArg UInt8.toNat h
      omega
    · rintro rfl
      exact absurd hlow (by decide)
  · exact Iff.rfl

theorem foldName_eq_nil (c : UInt8) (s : Bytes) : foldName (c :: s) = [] ↔ c = 0 := by
  rw [foldName_cons]
  split
  · next hzero => exact iff_of_true rfl hzero
  · next hgoes => exact iff_of_false (List.cons_ne_nil _ _) hgoes

theorem toNat_tolower_eq_zero (c : UInt8) : (tolower c).toNat = 0 ↔ c = 0 := by
  rw [← tolower_eq_zero_iff, ← UInt8.toNat_inj]
  rfl

/-- The names are compared up to their ends, without the case of their letters. -/
theorem strcasecmpLoop_eq_zero (s1 s2 : Bytes) :
    strcasecmpLoop s1 s2 = 0 ↔ foldName s1 = foldName s2 := by
  fun_induction strcasecmpLoop s1 s2 with
  | case1 => exact iff_of_true rfl rfl
  | case2 b s2 =>
    have hend := (toNat_tolower_eq_zero b).trans (foldName_eq_nil b s2).symm
    exact ⟨fun h => (hend.mp (by omega)).symm, fun h => by rw [hend.mpr h.symm]; rfl⟩
  | case3 a s1 =>
    have hend := (toNat_tolower_eq_zero a).trans (foldName_eq_nil a s1).symm
    exact ⟨fun h => hend.mp (by omega), fun h => by rw [hend.mpr h]; rfl⟩
  | case4 s1 b s2 hsame =>
    -- both names end here
    have hzero : b = 0 := (tolower_eq_zero_iff b).mp (hsame.symm.trans rfl)
    rw [foldName_cons, foldName_cons, if_pos rfl, if_pos hzero]
    exact iff_of_true rfl rfl
  | case5 a s1 b s2 hsame hgoes ih =>
    have hgoes' : b ≠ 0 := by
      rintro rfl
      exact hgoes ((tolower_eq_zero_iff a).mp hsame)
    rw [foldName_cons, foldName_cons, if_neg hgoes, if_neg hgoes', hsame, List.cons_inj_right]
    exact ih
  | case6 a s1 b s2 hdiffer =>
    refine iff_of_false ?_ ?_
    · intro hzero
      exact hdiffer (UInt8.toNat_inj.mp (by omega))
    · rw [foldName_cons, foldName_cons]
      split
      · next ha =>
        split
        · next hb => exact absurd (congrArg tolower (ha.trans hb.symm)) hdiffer
        · exact (List.cons_ne_nil _ _).symm
      · split
        · exact List.cons_ne_nil _ _
        · exact fun h => hdiffer (List.cons.inj h).1

/-- Two names are equal to C just when they are folded to the same. -/
theorem strcasecmp_eq_zero (s1 s2 : Option Bytes) :
    strcasecmp s1 s2 = 0 ↔ s1.map foldName = s2.map foldName := by
  match s1, s2 with
  | none, none => exact iff_of_true rfl rfl
  | none, some _ => exact iff_of_false Int.one_ne_zero nofun
  | some _, none => exact iff_of_false Int.one_ne_zero nofun
  | some s1, some s2 =>
    rw [Option.map_some, Option.map_some, Option.some_inj]
    exact strcasecmpLoop_eq_zero s1 s2

/-- The same for names that are there. -/
theorem sameName_iff (s1 s2 : Bytes) : SameName s1 s2 ↔ foldName s1 = foldName s2 :=
  strcasecmpLoop_eq_zero s1 s2

/-! ## What the builders do -/

/-- The name of a member, as it is compared. -/
def itemKey (c : JsonItem) : Option Bytes := c.string.map foldName

/-- The first item of a folded name is found. -/
theorem getObjectItem_eq (object : JsonTree) (string : Option Bytes) :
    getObjectItem object string = findKey itemKey object.child (string.map foldName) := by
  unfold getObjectItem findKey itemKey
  simp only [strcasecmp_eq_zero]

/-- The first item of a folded name is deleted. -/
theorem deleteItemFromObject_eq (object : JsonTree) (string : Option Bytes) :
    deleteItemFromObject object string =
      { object with child := eraseKey itemKey object.child (string.map foldName) } := by
  unfold deleteItemFromObject eraseKey itemKey
  simp only [strcasecmp_eq_zero, List.eraseP_eq_eraseIdx]
  split
  · next i hfound => rw [hfound, detachItemFromArray]
  · next hnone => rw [hnone]

/-- What has been added last under a folded name. -/
theorem lastAdded_eq (added : List (Bytes × Nat)) (name : Bytes) :
    lastAdded added name = (findKey (fun p => foldName p.1) added (foldName name)).map
      Prod.snd := by
  unfold lastAdded findKey
  simp only [sameName_iff]

/-- The member that a builder makes. -/
def newItem (tree : JsonTree) (name : Bytes) (value : JsonValue) : JsonItem :=
  { node := tree.made, string := some (strdup name), value }

theorem itemKey_newItem (tree : JsonTree) (name : Bytes) (value : JsonValue) :
    itemKey (newItem tree name value) = some (foldName name) := congrArg some (foldName_strdup name)

/-- A builder that deletes puts its item in the place of the old one. -/
theorem jsonAdd_delete (value : JsonValue) (tree : JsonTree) (name : Bytes) :
    jsonAdd true value tree (some name) =
      (tree.made,
        { made := tree.made + 1
          child := putKey itemKey tree.child (newItem tree name value) }) := by
  unfold putKey
  rw [itemKey_newItem]
  simp [jsonAdd, deleteItemFromObject_eq, createItem, addItemToObject, addItemToArray, newItem]

/-- A builder that does not delete puts its item behind the others. -/
theorem jsonAdd_keep (value : JsonValue) (tree : JsonTree) (name : Bytes) :
    jsonAdd false value tree (some name) =
      (tree.made, { made := tree.made + 1, child := tree.child ++ [newItem tree name value] }) := by
  simp [jsonAdd, createItem, addItemToObject, addItemToArray, newItem]

/-- A call makes one node, takes out the member that has its name or does not, and
appends the node. -/
theorem JsonCall.run_eq (call : JsonCall) (tree : JsonTree) : ∃ value,
    call.builder.Deletes ∧ call.run tree = jsonAdd true value tree (some call.name) ∨
      ¬ call.builder.Deletes ∧ call.run tree = jsonAdd false value tree (some call.name) := by
  obtain ⟨builder, name⟩ := call
  cases builder with
  | num num => exact ⟨_, .inl ⟨trivial, rfl⟩⟩
  | null => exact ⟨_, .inl ⟨trivial, rfl⟩⟩
  | bool val => exact ⟨_, .inl ⟨trivial, rfl⟩⟩
  | str val =>
    -- a string that is missing is added as `null`
    cases val with
    | none => exact ⟨_, .inl ⟨trivial, rfl⟩⟩
    | some val => exact ⟨_, .inl ⟨trivial, rfl⟩⟩
  | array => exact ⟨_, .inr ⟨id, rfl⟩⟩
  | obj => exact ⟨_, .inr ⟨id, rfl⟩⟩

/-! ## The names of an object -/

variable {s : JsonRun}

/-- Names are unique just when the keys are distinct and each finds what was added last. -/
theorem JsonRun.unique_iff : s.Unique ↔ (s.tree.child.map itemKey).Nodup ∧
    ∀ name, (findKey itemKey s.tree.child (some (foldName name))).map JsonItem.node =
      (findKey (fun p => foldName p.1) s.added (foldName name)).map Prod.snd := by
  unfold JsonRun.Unique
  simp only [getObjectItem_eq, lastAdded_eq, ne_eq, strcasecmp_eq_zero, Option.map_some]
  rw [List.Nodup, List.pairwise_map]
  rfl

/-- A name is among the members just when a node has been added under it. -/
theorem JsonRun.Unique.mem_iff (h : s.Unique) (name : Bytes) :
    some (foldName name) ∈ s.tree.child.map itemKey ↔ foldName name ∈ s.added.map fun p =>
      foldName p.1 := by
  have hsame := (JsonRun.unique_iff.mp h).2 name
  rw [← not_iff_not, ← findKey_eq_none, ← findKey_eq_none]
  constructor
  · intro hnone
    rw [hnone] at hsame
    exact Option.map_eq_none_iff.mp hsame.symm
  · intro hnone
    rw [hnone] at hsame
    exact Option.map_eq_none_iff.mp hsame

/-- The new member takes the place of the one that has its name. -/
theorem JsonRun.Unique.put (h : s.Unique) (name : Bytes) (value : JsonValue) :
    JsonRun.Unique
      { tree :=
          { made := s.tree.made + 1
            child := putKey itemKey s.tree.child (newItem s.tree name value) }
        added := (name, s.tree.made) :: s.added } := by
  obtain ⟨hnodup, hlast⟩ := JsonRun.unique_iff.mp h
  refine JsonRun.unique_iff.mpr ⟨nodup_putKey hnodup _, ?_⟩
  intro other
  rw [find_putKey hnodup, itemKey_newItem, findKey_cons]
  by_cases hname : foldName name = foldName other
  · -- the new node under its own name
    rw [if_pos hname, if_pos (congrArg some hname)]
    rfl
  · rw [if_neg hname, if_neg (fun hsome => hname (Option.some.inj hsome))]
    exact hlast other

/-- A call is fresh just when it deletes, or its name is new. -/
theorem JsonCall.fresh_iff (call : JsonCall) : call.Fresh s ↔
    call.builder.Deletes ∨ foldName call.name ∉ s.added.map fun p => foldName p.1 := by
  unfold JsonCall.Fresh
  simp only [sameName_iff, List.mem_map, not_exists, not_and]

/-- One call of a run. -/
theorem JsonRun.step_of_run {call : JsonCall} {node : Nat} {tree : JsonTree}
    (h : call.run s.tree = (node, tree)) :
    s.step call = some { tree, added := (call.name, node) :: s.added } := by
  unfold JsonRun.step
  rw [h]

/-- A call leaves the names distinct and the nodes added last in their place just
when it takes out the member that has its name, or there is none. -/
theorem JsonRun.step_unique (s : JsonRun) (call : JsonCall) (h : s.Unique) :
    (∀ s', s.step call = some s' → s'.Unique) ↔ call.Fresh s := by
  rw [JsonCall.fresh_iff]
  obtain ⟨value, ⟨hdeletes, hrun⟩ | ⟨hkeeps, hrun⟩⟩ := call.run_eq s.tree
  · refine iff_of_true ?_ (.inl hdeletes)
    rw [JsonRun.step_of_run (hrun.trans (jsonAdd_delete _ _ _))]
    rintro s' ⟨⟩
    exact h.put call.name value
  · rw [JsonRun.step_of_run (hrun.trans (jsonAdd_keep _ _ _))]
    constructor
    · intro hall
      refine .inr ?_
      -- the names would not be distinct
      rw [← h.mem_iff, ← itemKey_newItem s.tree call.name value]
      exact (nodup_append_iff.mp (JsonRun.unique_iff.mp (hall _ rfl)).1).2
    · rintro (hdeletes | hfresh) s' ⟨⟩
      · exact absurd hdeletes hkeeps
      · -- nothing has the name, and appending is putting
        have hput := h.put call.name value
        rw [putKey_of_not_mem] at hput
        · exact hput
        · rw [itemKey_newItem, h.mem_iff]
          exact hfresh

/-- In every state of a run from an empty object the names are distinct, and the
lookup of a name returns the node added last under it, just when arrays and objects
are added under names that no node was added under before. -/
theorem jsonNames_iff (calls : List JsonCall) :
    AlwaysAlong JsonRun.step JsonRun.Unique .start calls ↔
      KeepsAlong JsonRun.step (fun s call => call.Fresh s) .start calls :=
  always_iff_keeps JsonRun.step_unique calls .start ⟨List.Pairwise.nil, fun _ => rfl⟩

/-- An array is added under the name of a number, and the lookup finds the number. -/
theorem array_behind_number :
    ¬ AlwaysAlong JsonRun.step JsonRun.Unique .start [⟨.num 0, [97]⟩, ⟨.array, [65]⟩] := by
  rintro ⟨-, hnum⟩
  obtain ⟨-, harray⟩ := hnum _ rfl
  obtain ⟨-, hlast⟩ := harray _ rfl
  exact absurd (hlast [97]) (by decide)

end LibShare.Mem
