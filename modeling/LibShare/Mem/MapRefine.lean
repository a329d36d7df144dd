import LibShare.Mem.Map
import Mathlib.Data.Finmap

/-!
# libshare — `shmap` refines a finite map

The abstract map is a `Finmap` from share keys to stored values. Every store
of the `shmap_set` family inserts into it, every unset erases from it, and the
hash map follows: lookups agree, the count is the number of live keys and no
key has two entries, whatever expansions happen on the way.

The invariant (`Shmap.Wf`) ties the bucket array to the mask: an entry hangs
off bucket `hash & max`, where the lookup will search for it. `findEntry` is
characterised once (`findEntry_hit`, `findEntry_miss`); each branch of
`shmapSetEnt` then exchanges one entry of the contents (`Exchange`).

Main result:

* `shmap_refines_finite_map` — after any sequence of stores and unsets.
-/

namespace LibShare.Mem

variable {P : Type}

/-! ## The abstract map -/

/-- A finite map from keys to stored values. -/
abbrev AbsMap (P : Type) := Finmap fun _ : ShKey => MapVal P

/-- The calls that store into a map or delete from it. -/
inductive MapOp (P : Type)
  | setEnt (key : ShKey) (flag : UInt32) (val : Option P) (size : Int)
  | set (key : ShKey) (val : Option P)
  | unset (key : ShKey)
  | setAstr (key : ShKey) (val : Option P)
  | setStr (key : ShKey) (val : Option P)
  | setPtr (key : ShKey) (val : Option P)
  | setBin (key : ShKey) (val : Option P) (len : Int)
  | setAbin (key : ShKey) (val : Option P) (len : Int)

/-- A call on the hash map. -/
def MapOp.run (caller : Caller P) (ht : Shmap P) : MapOp P → Shmap P
  | .setEnt key flag val size => shmapStore caller ht key flag val size
  | .set key val => shmapSet caller ht key val
  | .unset key => shmapUnset caller ht key
  | .setAstr key val => shmapSetAstr caller ht key val
  | .setStr key val => shmapSetStr caller ht key val
  | .setPtr key val => shmapSetPtr caller ht key val
  | .setBin key val len => shmapSetBin caller ht key val len
  | .setAbin key val len => shmapSetAbin caller ht key val len

/-- The map after a sequence of calls on a new one. -/
def shmapRun (caller : Caller P) (ops : List (MapOp P)) : Shmap P :=
  ops.foldl (MapOp.run caller) shmapInit

/-- Storing the caller's pointer, or erasing when it is null. -/
def AbsMap.putRef (m : AbsMap P) (key : ShKey) : Option P → AbsMap P
  | none => m.erase key
  | some p => m.insert key (.ref p)

/-- Storing a copy of `size` bytes, or erasing when the pointer is null. No
copy has a negative size. -/
def AbsMap.putCopy (caller : Caller P) (m : AbsMap P) (key : ShKey) (size : Int) :
    Option P → AbsMap P
  | none => m.erase key
  | some p => if size < 0 then m else m.insert key (.copy (caller.peek p size.toNat))

/-- What a call means for the finite map. -/
def MapOp.spec (caller : Caller P) (m : AbsMap P) : MapOp P → AbsMap P
  | .setEnt key flag val size =>
    if flag &&& shmapAlloc = 0 then m.putRef key val else m.putCopy caller key size val
  | .set key val => m.putRef key val
  | .unset key => m.erase key
  | .setAstr key val => m.putCopy caller key ((val.elim 0 caller.strlen : Nat) + 1) val
  | .setStr key val => m.putRef key val
  | .setPtr key val => m.putRef key val
  | .setBin key val _ => m.putRef key val
  | .setAbin key val len => m.putCopy caller key len val

/-- The finite map after a sequence of calls. -/
def absRun (caller : Caller P) (ops : List (MapOp P)) : AbsMap P :=
  ops.foldl (MapOp.spec caller) ∅

/-! ## The invariant -/

/-- The bucket of an entry under a mask. -/
def bucketOf (max : UInt32) (he : MapEntry P) : Nat := (he.hash &&& max).toNat

/-- The bucket array agrees with the mask and holds each key at most once. -/
structure Shmap.Wf (ht : Shmap P) : Prop where
  length_eq : ht.array.length = ht.max.toNat + 1
  placed : Buckets.Placed (bucketOf ht.max) ht.array
  hashed : ∀ he ∈ ht.entries, he.hash = shmapHashNum he.key
  nodup : (ht.entries.map MapEntry.key).Nodup
  count_eq : ht.count = UInt32.ofNat ht.entries.length

/-- The entries are exactly the bindings of the finite map. -/
def Shmap.Binds (ht : Shmap P) (m : AbsMap P) : Prop :=
  ∀ key val, m.lookup key = some val ↔ ∃ he ∈ ht.entries, he.key = key ∧ he.val = val

/-- A masked hash names a bucket of the array. -/
theorem mask_lt (hash max : UInt32) : (hash &&& max).toNat < max.toNat + 1 := by
  rw [UInt32.toNat_and]
  have := Nat.and_le_right (n := hash.toNat) (m := max.toNat)
  omega

/-- A new map has no entries. -/
theorem shmapInit_entries : (shmapInit : Shmap P).entries = [] := by
  simp [Shmap.entries, shmapInit, allocArray]

/-- A new map is well formed. -/
theorem shmapInit_wf : (shmapInit : Shmap P).Wf where
  length_eq := by simp [shmapInit, allocArray]
  placed := Buckets.placed_replicate_nil _ _
  hashed := by simp [shmapInit_entries]
  nodup := by simp [shmapInit_entries]
  count_eq := by rw [shmapInit_entries]; rfl

/-- A new map binds nothing. -/
theorem shmapInit_binds : (shmapInit : Shmap P).Binds ∅ := by
  intro key val
  simp [shmapInit_entries]

/-! ## Lookup -/

/-- Two entries of one key are the same entry. -/
theorem Shmap.Wf.entry_unique {ht : Shmap P} (h : ht.Wf) {he he' : MapEntry P}
    (hmem : he ∈ ht.entries) (hmem' : he' ∈ ht.entries) (hkey : he.key = he'.key) :
    he = he' :=
  List.inj_on_of_nodup_map h.nodup hmem hmem' hkey

/-- On a chain, the scan's test is a test of the key alone. -/
theorem isFor_iff {ht : Shmap P} (h : ht.Wf) {he : MapEntry P} (hmem : he ∈ ht.entries)
    (key : ShKey) : MapEntry.isFor (shmapHashNum key) key he = true ↔ he.key = key := by
  simp only [MapEntry.isFor, Bool.and_eq_true, beq_iff_eq]
  constructor
  · exact fun hand => hand.2
  · intro hkey
    exact ⟨by rw [h.hashed he hmem, hkey], hkey⟩

/-- An entry hangs off the bucket that a lookup of its key searches. -/
theorem mem_chain_of_mem {ht : Shmap P} (h : ht.Wf) {he : MapEntry P}
    (hmem : he ∈ ht.entries) :
    he ∈ ht.chain (shmapHashNum he.key &&& ht.max).toNat := by
  have hb := h.placed.mem_bucket hmem
  rw [bucketOf, h.hashed he hmem] at hb
  exact hb

/-- An entry of a bucket is an entry of the map. -/
theorem mem_entries_of_mem_chain {ht : Shmap P} {i : Nat} {he : MapEntry P}
    (hmem : he ∈ ht.chain i) : he ∈ ht.entries :=
  (Buckets.bucket_sublist_flatten ht.array i).subset hmem

/-- The link that `find_entry` computes. -/
def linkOf (ht : Shmap P) (key : ShKey) : Hep :=
  let bucket := (shmapHashNum key &&& ht.max).toNat
  { bucket := bucket
    pos := (ht.chain bucket).findIdx (MapEntry.isFor (shmapHashNum key) key) }

/-- A key with an entry: the link points to it. -/
theorem deref_linkOf_hit {ht : Shmap P} (h : ht.Wf) {he : MapEntry P}
    (hmem : he ∈ ht.entries) : ht.deref (linkOf ht he.key) = some he := by
  have hchain := mem_chain_of_mem h hmem
  have hlt : (linkOf ht he.key).pos < (ht.chain (linkOf ht he.key).bucket).length :=
    List.findIdx_lt_length_of_exists ⟨he, hchain, (isFor_iff h hmem _).mpr rfl⟩
  have hfound := List.findIdx_getElem (w := hlt)
  unfold Shmap.deref
  rw [List.getElem?_eq_getElem hlt]
  -- the entry at the link has the key, and the key has one entry only
  have hin := mem_entries_of_mem_chain (List.getElem_mem hlt)
  rw [h.entry_unique hin hmem ((isFor_iff h hin _).mp hfound)]

/-- A key without an entry: the link is the end of the chain. -/
theorem linkOf_miss {ht : Shmap P} (h : ht.Wf) {key : ShKey}
    (hnone : ∀ he ∈ ht.entries, he.key ≠ key) :
    (linkOf ht key).pos = (ht.chain (linkOf ht key).bucket).length := by
  unfold linkOf
  rw [List.findIdx_eq_length]
  intro he hmem
  have hin := mem_entries_of_mem_chain hmem
  rw [Bool.eq_false_iff]
  intro hfor
  exact hnone he hin ((isFor_iff h hin key).mp hfor)

/-- The link for a key that is not there is the end of its bucket. -/
theorem deref_linkOf_miss {ht : Shmap P} (h : ht.Wf) {key : ShKey}
    (hnone : ∀ he ∈ ht.entries, he.key ≠ key) : ht.deref (linkOf ht key) = none := by
  unfold Shmap.deref
  rw [linkOf_miss h hnone]
  simp

/-- `find_entry` of a key with an entry. -/
theorem findEntry_hit {ht : Shmap P} (h : ht.Wf) {he : MapEntry P} (hmem : he ∈ ht.entries)
    (val : Option (MapVal P)) : findEntry ht he.key val = (ht, linkOf ht he.key) := by
  have hd : (ht.chain (linkOf ht he.key).bucket)[(linkOf ht he.key).pos]? = some he :=
    deref_linkOf_hit h hmem
  simp only [linkOf] at hd
  simp only [findEntry, linkOf, hd]

/-- `find_entry` of a missing key without a value. -/
theorem findEntry_miss_none {ht : Shmap P} (h : ht.Wf) {key : ShKey}
    (hnone : ∀ he ∈ ht.entries, he.key ≠ key) :
    findEntry ht key none = (ht, linkOf ht key) := by
  have hd : (ht.chain (linkOf ht key).bucket)[(linkOf ht key).pos]? = none :=
    deref_linkOf_miss h hnone
  simp only [linkOf] at hd
  simp only [findEntry, linkOf, hd]

/-! ## Updates of one chain -/

/-- The contents as the entry of a key, if there is one, and the entries of
the other keys. -/
structure Split (ht : Shmap P) (key : ShKey) (old : Option (MapEntry P))
    (rest : List (MapEntry P)) : Prop where
  perm : ht.entries.Perm (old.toList ++ rest)
  old_key : ∀ he ∈ old, he.key = key
  rest_key : ∀ he ∈ rest, he.key ≠ key

/-- A key that is not there splits off nothing. -/
theorem split_miss {ht : Shmap P} {key : ShKey} (hnone : ∀ he ∈ ht.entries, he.key ≠ key) :
    Split ht key none ht.entries :=
  ⟨List.Perm.refl _, by simp, hnone⟩

/-- A map whose contents are a new entry of the key and the old entries of the
other keys is well formed when the array is. -/
theorem wf_of_put {ht ht' : Shmap P} {key : ShKey} {old : Option (MapEntry P)}
    {rest : List (MapEntry P)} {he : MapEntry P} (h : ht.Wf) (hs : Split ht key old rest)
    (hperm : ht'.entries.Perm (he :: rest)) (hkey : he.key = key)
    (hhash : he.hash = shmapHashNum key)
    (hlen : ht'.array.length = ht'.max.toNat + 1)
    (hplaced : Buckets.Placed (bucketOf ht'.max) ht'.array)
    (hcount : ht'.count = UInt32.ofNat (rest.length + 1)) : ht'.Wf where
  length_eq := hlen
  placed := hplaced
  hashed := by
    intro e hmem
    rcases List.mem_cons.mp (hperm.mem_iff.mp hmem) with rfl | hr
    · rw [hhash, hkey]
    · exact h.hashed e (hs.perm.mem_iff.mpr (List.mem_append_right _ hr))
  nodup := by
    rw [(hperm.map MapEntry.key).nodup_iff, List.map_cons, List.nodup_cons]
    constructor
    · intro hmem
      obtain ⟨e, he', hek⟩ := List.mem_map.mp hmem
      exact hs.rest_key e he' (hek.trans hkey)
    · have hnodup := (hs.perm.map MapEntry.key).nodup_iff.mp h.nodup
      rw [List.map_append] at hnodup
      exact hnodup.of_append_right
  count_eq := by rw [hcount, hperm.length_eq, List.length_cons]

/-- An entry that takes the place of the old one binds its key to its value. -/
theorem binds_of_put {ht ht' : Shmap P} {key : ShKey} {old : Option (MapEntry P)}
    {rest : List (MapEntry P)} {he : MapEntry P} {m : AbsMap P} (hb : ht.Binds m)
    (hs : Split ht key old rest) (hperm : ht'.entries.Perm (he :: rest)) (hkey : he.key = key) :
    ht'.Binds (m.insert key he.val) := by
  intro k v
  by_cases hk : k = key
  · subst hk
    rw [Finmap.lookup_insert, Option.some.injEq]
    constructor
    · rintro rfl
      exact ⟨he, hperm.mem_iff.mpr (by simp), hkey, rfl⟩
    · rintro ⟨e, hmem, hek, rfl⟩
      rcases List.mem_cons.mp (hperm.mem_iff.mp hmem) with rfl | hr
      · rfl
      · exact absurd hek (hs.rest_key e hr)
  · rw [Finmap.lookup_insert_of_ne _ hk, hb k v]
    constructor
    · rintro ⟨e, hmem, rfl, rfl⟩
      refine ⟨e, ?_, rfl, rfl⟩
      rcases List.mem_append.mp (hs.perm.mem_iff.mp hmem) with hold | hr
      · exact absurd (hs.old_key e (by simpa using hold)) hk
      · exact hperm.mem_iff.mpr (List.mem_cons_of_mem _ hr)
    · rintro ⟨e, hmem, rfl, rfl⟩
      refine ⟨e, ?_, rfl, rfl⟩
      rcases List.mem_cons.mp (hperm.mem_iff.mp hmem) with rfl | hr
      · exact absurd hkey hk
      · exact hs.perm.mem_iff.mpr (List.mem_append_right _ hr)

/-- Without its entry a key is bound to nothing. -/
theorem binds_of_drop {ht ht' : Shmap P} {key : ShKey} {old : Option (MapEntry P)}
    {m : AbsMap P} (hb : ht.Binds m) (hs : Split ht key old ht'.entries) :
    ht'.Binds (m.erase key) := by
  intro k v
  by_cases hk : k = key
  · subst hk
    rw [Finmap.lookup_erase]
    constructor
    · intro hnone
      simp at hnone
    · rintro ⟨e, hmem, hek, -⟩
      exact absurd hek (hs.rest_key e hmem)
  · rw [Finmap.lookup_erase_ne hk, hb k v]
    constructor
    · rintro ⟨e, hmem, rfl, rfl⟩
      refine ⟨e, ?_, rfl, rfl⟩
      rcases List.mem_append.mp (hs.perm.mem_iff.mp hmem) with hold | hr
      · exact absurd (hs.old_key e (by simpa using hold)) hk
      · exact hr
    · rintro ⟨e, hmem, rfl, rfl⟩
      exact ⟨e, hs.perm.mem_iff.mpr (List.mem_append_right _ hmem), rfl, rfl⟩

/-- The link for a key is in a bucket of the array. -/
theorem linkOf_bucket_lt {ht : Shmap P} (h : ht.Wf) (key : ShKey) :
    (linkOf ht key).bucket < ht.array.length := by
  rw [h.length_eq]
  exact mask_lt _ _

/-- The chain that a key's link lies on holds entries of that bucket only. -/
theorem bucketOf_of_mem_link {ht : Shmap P} (h : ht.Wf) {key : ShKey} {he : MapEntry P}
    (hmem : he ∈ ht.chain (linkOf ht key).bucket) :
    bucketOf ht.max he = (linkOf ht key).bucket :=
  h.placed _ he hmem

/-! ### Appending a missing entry -/

/-- The entry that `find_entry` appends. -/
def newEntry (key : ShKey) (val : MapVal P) : MapEntry P :=
  { hash := shmapHashNum key, key := key, val := val, sz := 0, flag := 0 }

@[simp] theorem newEntry_key (key : ShKey) (val : MapVal P) : (newEntry key val).key = key := by
  simp only [newEntry]

@[simp] theorem newEntry_hash (key : ShKey) (val : MapVal P) :
    (newEntry key val).hash = shmapHashNum key := by
  simp only [newEntry]

/-- The map after `find_entry` appended an entry. -/
def appendEntry (ht : Shmap P) (key : ShKey) (val : MapVal P) : Shmap P :=
  let bucket := (linkOf ht key).bucket
  { ht with
    array := ht.array.set bucket (ht.chain bucket ++ [newEntry key val])
    count := ht.count + 1
    free := ht.free - 1 }

/-- `find_entry` of a missing key with a value. -/
theorem findEntry_miss_some {ht : Shmap P} (h : ht.Wf) {key : ShKey}
    (hnone : ∀ he ∈ ht.entries, he.key ≠ key) (val : MapVal P) :
    findEntry ht key (some val) = (appendEntry ht key val, linkOf ht key) := by
  have hd : (ht.chain (linkOf ht key).bucket)[(linkOf ht key).pos]? = none :=
    deref_linkOf_miss h hnone
  simp only [linkOf] at hd
  simp only [findEntry, appendEntry, newEntry, linkOf, hd]

/-- A new entry is added to those that are there. -/
theorem appendEntry_perm {ht : Shmap P} (h : ht.Wf) (key : ShKey) (val : MapVal P) :
    (appendEntry ht key val).entries.Perm (newEntry key val :: ht.entries) := by
  have hp := Buckets.flatten_set_perm (linkOf_bucket_lt h key)
    (ht.chain (linkOf ht key).bucket ++ [newEntry key val])
  rw [List.append_assoc] at hp
  exact (List.perm_append_left_iff _).mp hp

/-- The appended entry is found where the scan for it ended. -/
theorem linkOf_append {ht : Shmap P} (h : ht.Wf) {key : ShKey}
    (hnone : ∀ he ∈ ht.entries, he.key ≠ key) (val : MapVal P) :
    linkOf (appendEntry ht key val) (newEntry key val).key = linkOf ht key := by
  have hlt := linkOf_bucket_lt h key
  have hmiss := linkOf_miss h hnone
  have hchain : (appendEntry ht key val).chain (linkOf ht key).bucket =
      ht.chain (linkOf ht key).bucket ++ [newEntry key val] :=
    Buckets.bucket_set_self hlt _
  rw [newEntry_key]
  simp only [linkOf] at hmiss hchain ⊢
  have hmax : (appendEntry ht key val).max = ht.max := by simp only [appendEntry]
  have hnew : [newEntry key val].findIdx (MapEntry.isFor (shmapHashNum key) key) = 0 := by
    simp [List.findIdx_cons, MapEntry.isFor]
  rw [hmax, hchain, List.findIdx_append, hnew, hmiss, if_neg (Nat.lt_irrefl _), Nat.zero_add]

/-- The map stays well formed, as long as the key is a new one. -/
theorem appendEntry_wf {ht : Shmap P} (h : ht.Wf) {key : ShKey}
    (hnone : ∀ he ∈ ht.entries, he.key ≠ key) (val : MapVal P) :
    (appendEntry ht key val).Wf := by
  refine wf_of_put h (split_miss hnone) (appendEntry_perm h key val) (newEntry_key key val)
    (newEntry_hash key val) ?_ ?_ ?_
  · simpa [appendEntry] using h.length_eq
  · refine h.placed.set ?_
    intro he hmem
    rcases List.mem_append.mp hmem with hold | hnew
    · exact bucketOf_of_mem_link h hold
    · rw [List.mem_singleton.mp hnew, bucketOf, newEntry_hash]
      simp only [linkOf]
  · show ht.count + 1 = _
    rw [h.count_eq, UInt32.ofNat_add]
    rfl

/-! ### Replacing and unlinking an entry -/

/-- A bucket is the entry at a link and the rest. -/
theorem chain_eraseIdx_perm {ht : Shmap P} {hep : Hep} {cur : MapEntry P}
    (hd : ht.deref hep = some cur) :
    (cur :: (ht.chain hep.bucket).eraseIdx hep.pos).Perm (ht.chain hep.bucket) := by
  obtain ⟨hlt, hget⟩ := List.getElem?_eq_some_iff.mp hd
  rw [← hget]
  exact List.getElem_cons_eraseIdx_perm hlt

/-- The entry that has been taken out is the one that is missing. -/
theorem unlinkEntry_perm {ht : Shmap P} {hep : Hep} {cur : MapEntry P}
    (hlt : hep.bucket < ht.array.length) (hd : ht.deref hep = some cur) :
    ht.entries.Perm (cur :: (unlinkEntry ht hep).entries) := by
  have hp : (ht.chain hep.bucket ++ (unlinkEntry ht hep).entries).Perm
      ((ht.chain hep.bucket).eraseIdx hep.pos ++ ht.entries) :=
    Buckets.flatten_set_perm hlt _
  have hcur := chain_eraseIdx_perm hd
  have hall : ((ht.chain hep.bucket).eraseIdx hep.pos ++
        (cur :: (unlinkEntry ht hep).entries)).Perm
      ((ht.chain hep.bucket).eraseIdx hep.pos ++ ht.entries) :=
    calc (ht.chain hep.bucket).eraseIdx hep.pos ++ (cur :: (unlinkEntry ht hep).entries)
        |>.Perm ((cur :: (ht.chain hep.bucket).eraseIdx hep.pos) ++
            (unlinkEntry ht hep).entries) := List.perm_middle
      _ |>.Perm (ht.chain hep.bucket ++ (unlinkEntry ht hep).entries) :=
          hcur.append_right _
      _ |>.Perm ((ht.chain hep.bucket).eraseIdx hep.pos ++ ht.entries) := hp
  exact ((List.perm_append_left_iff _).mp hall).symm

/-- What is left has no entry for the key. -/
theorem split_of_unlink {ht : Shmap P} (h : ht.Wf) {cur : MapEntry P}
    (hmem : cur ∈ ht.entries) :
    Split ht cur.key (some cur) (unlinkEntry ht (linkOf ht cur.key)).entries := by
  have hperm := unlinkEntry_perm (linkOf_bucket_lt h cur.key) (deref_linkOf_hit h hmem)
  refine ⟨hperm, by simp, ?_⟩
  have hnodup := (hperm.map MapEntry.key).nodup_iff.mp h.nodup
  rw [List.map_cons, List.nodup_cons] at hnodup
  intro he hin hkey
  have hkeys := List.mem_map_of_mem (f := MapEntry.key) hin
  rw [hkey] at hkeys
  exact hnodup.1 hkeys

/-- The map stays well formed when an entry is taken out. -/
theorem unlinkEntry_wf {ht : Shmap P} (h : ht.Wf) {cur : MapEntry P}
    (hmem : cur ∈ ht.entries) : (unlinkEntry ht (linkOf ht cur.key)).Wf := by
  have hperm := unlinkEntry_perm (linkOf_bucket_lt h cur.key) (deref_linkOf_hit h hmem)
  have hsub : ∀ he ∈ (unlinkEntry ht (linkOf ht cur.key)).entries, he ∈ ht.entries :=
    fun he hin => hperm.mem_iff.mpr (List.mem_cons_of_mem _ hin)
  refine ⟨?_, ?_, fun he hin => h.hashed he (hsub he hin), ?_, ?_⟩
  · simpa [unlinkEntry] using h.length_eq
  · refine h.placed.set ?_
    intro he hin
    exact bucketOf_of_mem_link h (List.mem_of_mem_eraseIdx hin)
  · have hnodup := (hperm.map MapEntry.key).nodup_iff.mp h.nodup
    exact hnodup.of_cons
  · show ht.count - 1 = _
    rw [h.count_eq, hperm.length_eq, List.length_cons, UInt32.ofNat_add]
    exact UInt32.add_sub_cancel _ _

/-- An entry is replaced in its place. -/
theorem replaceEntry_perm {ht : Shmap P} {hep : Hep} {cur : MapEntry P}
    (hlt : hep.bucket < ht.array.length) (hd : ht.deref hep = some cur)
    (flag : UInt32) (data : MapVal P) (size : Int) :
    ((replaceEntry ht hep cur flag data size).entries).Perm
      ({ cur with flag := flag, val := data, sz := size } :: (unlinkEntry ht hep).entries) := by
  obtain ⟨hpos, -⟩ := List.getElem?_eq_some_iff.mp hd
  set cur' : MapEntry P := { cur with flag := flag, val := data, sz := size }
  -- replacing is unlinking the old entry and hanging the new one in
  have hset : ((ht.chain hep.bucket).set hep.pos cur').Perm
      (cur' :: (ht.chain hep.bucket).eraseIdx hep.pos) :=
    List.set_perm_cons_eraseIdx hpos cur'
  have hrep := Buckets.flatten_set_perm hlt ((ht.chain hep.bucket).set hep.pos cur')
  have hunl := Buckets.flatten_set_perm hlt ((ht.chain hep.bucket).eraseIdx hep.pos)
  have hall : (Buckets.bucket ht.array hep.bucket ++
        (replaceEntry ht hep cur flag data size).entries).Perm
      (Buckets.bucket ht.array hep.bucket ++ (cur' :: (unlinkEntry ht hep).entries)) :=
    calc Buckets.bucket ht.array hep.bucket ++ (replaceEntry ht hep cur flag data size).entries
        |>.Perm ((ht.chain hep.bucket).set hep.pos cur' ++ ht.entries) := hrep
      _ |>.Perm (cur' :: ((ht.chain hep.bucket).eraseIdx hep.pos ++ ht.entries)) :=
          hset.append_right _
      _ |>.Perm (cur' :: (Buckets.bucket ht.array hep.bucket ++ (unlinkEntry ht hep).entries)) :=
          (hunl.symm).cons cur'
      _ |>.Perm (Buckets.bucket ht.array hep.bucket ++ (cur' :: (unlinkEntry ht hep).entries)) :=
          List.perm_middle.symm
  exact (List.perm_append_left_iff _).mp hall

/-- The map after a replacement, with the array of the old one. -/
theorem replaceEntry_wf {ht : Shmap P} (h : ht.Wf) {cur : MapEntry P}
    (hmem : cur ∈ ht.entries) (flag : UInt32) (data : MapVal P) (size : Int) :
    (replaceEntry ht (linkOf ht cur.key) cur flag data size).Wf := by
  have hd := deref_linkOf_hit h hmem
  have hlt := linkOf_bucket_lt h cur.key
  have hunl := unlinkEntry_perm hlt hd
  have hs : Split ht cur.key (some cur) (unlinkEntry ht (linkOf ht cur.key)).entries :=
    split_of_unlink h hmem
  refine wf_of_put h hs (replaceEntry_perm hlt hd flag data size) rfl (h.hashed cur hmem) ?_ ?_ ?_
  · simpa [replaceEntry] using h.length_eq
  · refine h.placed.set ?_
    intro he hin
    rcases List.mem_or_eq_of_mem_set hin with hold | rfl
    · exact bucketOf_of_mem_link h hold
    · have hcur : cur ∈ ht.chain (linkOf ht cur.key).bucket := List.mem_of_getElem? hd
      show bucketOf ht.max cur = _
      exact bucketOf_of_mem_link h hcur
  · show ht.count = _
    rw [h.count_eq, hunl.length_eq, List.length_cons]

/-! ## Expansion -/

/-- An expansion moves entries and loses none. -/
theorem expandArray_entries_perm (ht : Shmap P) :
    (expandArray ht).entries.Perm ht.entries :=
  Buckets.flatten_rebuild_perm ht.entries (fun he _ => mask_lt he.hash _)

/-- The map stays well formed when it is expanded. -/
theorem expandArray_wf {ht : Shmap P} (h : ht.Wf) : (expandArray ht).Wf := by
  have hperm := expandArray_entries_perm ht
  obtain ⟨hlen, hplaced, -⟩ := Buckets.foldl_push (bucketOf (ht.max * 2)) ht.entries
    (fun he _ => mask_lt he.hash _) (allocArray (ht.max * 2)) (by simp [allocArray])
    (Buckets.placed_replicate_nil _ _)
  refine ⟨hlen, hplaced, ?_, ?_, ?_⟩
  · intro he hin
    exact h.hashed he (hperm.mem_iff.mp hin)
  · exact (hperm.map MapEntry.key).nodup_iff.mpr h.nodup
  · show ht.count = _
    rw [h.count_eq, hperm.length_eq]

/-- An expanded map binds what it has bound. -/
theorem expandArray_binds {ht : Shmap P} {m : AbsMap P} (hb : ht.Binds m) :
    (expandArray ht).Binds m := by
  intro key val
  rw [hb key val]
  simp only [(expandArray_entries_perm ht).mem_iff]

/-! ## The refinement -/

/-- The hash map implements the finite map. -/
structure Refines (ht : Shmap P) (m : AbsMap P) : Prop where
  wf : ht.Wf
  binds : ht.Binds m

/-- A new map refines the empty one. -/
theorem shmapInit_refines : Refines (shmapInit : Shmap P) ∅ :=
  ⟨shmapInit_wf, shmapInit_binds⟩

/-- The tail of a store: an expansion changes nothing that is observable. -/
theorem refines_expand {ht : Shmap P} {m : AbsMap P} (h : Refines ht m) :
    Refines (if ht.max < ht.count then expandArray ht else ht) m := by
  split
  · exact ⟨expandArray_wf h.wf, expandArray_binds h.binds⟩
  · exact h

/-- Storing a value: `find_entry`, the replacing branch and the expansion. -/
theorem store_refines {ht : Shmap P} {m : AbsMap P} (h : Refines ht m) (key : ShKey)
    (flag : UInt32) (data : MapVal P) (size : Int) :
    ∃ cur, (findEntry ht key (some data)).1.deref (findEntry ht key (some data)).2 = some cur ∧
      Refines (replaceEntry (findEntry ht key (some data)).1 (findEntry ht key (some data)).2
        cur flag data size) (m.insert key data) := by
  by_cases hex : ∃ he ∈ ht.entries, he.key = key
  · obtain ⟨he, hmem, rfl⟩ := hex
    rw [findEntry_hit h.wf hmem]
    refine ⟨he, deref_linkOf_hit h.wf hmem, replaceEntry_wf h.wf hmem flag data size, ?_⟩
    exact binds_of_put h.binds (split_of_unlink h.wf hmem)
      (replaceEntry_perm (linkOf_bucket_lt h.wf he.key) (deref_linkOf_hit h.wf hmem)
        flag data size) rfl
  · have hnone : ∀ he ∈ ht.entries, he.key ≠ key := fun he hin hk => hex ⟨he, hin, hk⟩
    have hwf := appendEntry_wf h.wf hnone data
    have hmem : newEntry key data ∈ (appendEntry ht key data).entries :=
      (appendEntry_perm h.wf key data).mem_iff.mpr (by simp)
    have hlink : linkOf (appendEntry ht key data) (newEntry key data).key = linkOf ht key :=
      linkOf_append h.wf hnone data
    have hd := deref_linkOf_hit hwf hmem
    have hrep := replaceEntry_wf hwf hmem flag data size
    have hperm := replaceEntry_perm (linkOf_bucket_lt hwf _) hd flag data size
    have hb := binds_of_put (binds_of_put h.binds (split_miss hnone)
      (appendEntry_perm h.wf key data) (newEntry_key key data)) (split_of_unlink hwf hmem)
      hperm rfl
    rw [findEntry_miss_some h.wf hnone]
    rw [hlink] at hd hrep hb
    refine ⟨newEntry key data, hd, hrep, ?_⟩
    simpa using hb

/-- Deleting a key: `find_entry` without a value and the deleting branch. -/
theorem delete_refines {ht : Shmap P} {m : AbsMap P} (h : Refines ht m) (key : ShKey) :
    Refines
      (match ht.deref (findEntry ht key none).2 with
        | none => ht
        | some _ => unlinkEntry ht (findEntry ht key none).2) (m.erase key) := by
  by_cases hex : ∃ he ∈ ht.entries, he.key = key
  · obtain ⟨he, hmem, rfl⟩ := hex
    rw [findEntry_hit h.wf hmem, deref_linkOf_hit h.wf hmem]
    exact ⟨unlinkEntry_wf h.wf hmem, binds_of_drop h.binds (split_of_unlink h.wf hmem)⟩
  · have hnone : ∀ he ∈ ht.entries, he.key ≠ key := fun he hin hk => hex ⟨he, hin, hk⟩
    rw [findEntry_miss_none h.wf hnone, deref_linkOf_miss h.wf hnone]
    exact ⟨h.wf, binds_of_drop h.binds (split_miss hnone)⟩

/-- A search without a value changes nothing. -/
theorem findEntry_none_fst (ht : Shmap P) (key : ShKey) : (findEntry ht key none).1 = ht := by
  simp only [findEntry]
  split
  · rfl
  · rfl
  · next hnone => cases hnone

/-- `shmap_set_ent` with a value to store. -/
theorem setEnt_refines_insert {ht : Shmap P} {m : AbsMap P} (h : Refines ht m)
    {caller : Caller P} {key : ShKey} {flag flag' : UInt32} {val : Option P} {size size' : Int}
    {data : MapVal P} (hdata : shmapData caller flag val size = .ok (some data, flag', size')) :
    Refines (shmapStore caller ht key flag val size) (m.insert key data) := by
  obtain ⟨cur, hd, hrep⟩ := store_refines h key flag' data size'
  simp only [shmapStore, shmapSetEnt, hdata, hd]
  exact refines_expand hrep

/-- `shmap_set_ent` with nothing to store. -/
theorem setEnt_refines_erase {ht : Shmap P} {m : AbsMap P} (h : Refines ht m)
    {caller : Caller P} {key : ShKey} {flag flag' : UInt32} {val : Option P} {size size' : Int}
    (hdata : shmapData caller flag val size = .ok (none, flag', size')) :
    Refines (shmapStore caller ht key flag val size) (m.erase key) := by
  have hdel := delete_refines h key
  simp only [shmapStore, shmapSetEnt, hdata, findEntry_none_fst]
  cases hd : ht.deref (findEntry ht key none).2 with
  | none => simpa only [hd] using hdel
  | some cur => simpa only [hd] using hdel

/-! ### What `shmapData` makes of the arguments -/

/-- A NULL value has no data. -/
theorem shmapData_null (caller : Caller P) (flag : UInt32) (size : Int) :
    shmapData caller flag none size = .ok (none, ~~~shmapAlloc, 0) := by
  simp [shmapData, shmapAlloc]

/-- The mask OR'd in for a zero size leaves the `SHMAP_ALLOC` bit as it is. -/
theorem mute_and_alloc (flag : UInt32) :
    (flag ||| ~~~shmapAlloc) &&& shmapAlloc = flag &&& shmapAlloc := by
  apply UInt32.toBitVec_inj.mp
  ext i hi
  simp only [UInt32.toBitVec_and, UInt32.toBitVec_or, UInt32.toBitVec_not, BitVec.getElem_and,
    BitVec.getElem_or, BitVec.getElem_not]
  cases shmapAlloc.toBitVec[i] <;> simp

/-- Without `SHMAP_ALLOC` the pointer itself is stored. -/
theorem shmapData_ref (caller : Caller P) {flag : UInt32} (hflag : flag &&& shmapAlloc = 0)
    (p : P) (size : Int) :
    ∃ flag' size', shmapData caller flag (some p) size = .ok (some (.ref p), flag', size') := by
  have hmute : (flag ||| ~~~shmapAlloc) &&& shmapAlloc = 0 := (mute_and_alloc flag).trans hflag
  by_cases hsize : size = 0
  · exact ⟨flag ||| ~~~shmapAlloc, size, by simp [shmapData, hsize, hmute]⟩
  · exact ⟨flag, size, by simp [shmapData, hsize, hflag]⟩

/-- With `SHMAP_ALLOC` a copy is stored, unless its size is negative. -/
theorem shmapData_copy (caller : Caller P) {flag : UInt32} (hflag : flag &&& shmapAlloc ≠ 0)
    (p : P) {size : Int} (hsize : 0 ≤ size) :
    ∃ flag', shmapData caller flag (some p) size =
      .ok (some (.copy (caller.peek p size.toNat)), flag', size) := by
  have hneg : ¬ size < 0 := by omega
  have hkeep : (flag ||| ~~~shmapAlloc) &&& shmapAlloc ≠ 0 := by
    rw [mute_and_alloc]
    exact hflag
  by_cases hz : size = 0
  · exact ⟨flag ||| ~~~shmapAlloc, by simp [shmapData, hz, hkeep]⟩
  · exact ⟨flag, by simp [shmapData, hz, hflag, hneg]⟩

/-- A negative size for a copy is an error. -/
theorem shmapData_negative (caller : Caller P) {flag : UInt32} (hflag : flag &&& shmapAlloc ≠ 0)
    (p : P) {size : Int} (hsize : size < 0) :
    shmapData caller flag (some p) size = .error .nomem := by
  have hz : size ≠ 0 := by omega
  simp [shmapData, hz, hflag, hsize]

/-! ### One call, and every sequence of calls -/

/-- Storing a reference is what it is in the abstract map. -/
theorem store_ref_refines {ht : Shmap P} {m : AbsMap P} (h : Refines ht m) (caller : Caller P)
    (key : ShKey) {flag : UInt32} (hflag : flag &&& shmapAlloc = 0) (val : Option P)
    (size : Int) : Refines (shmapStore caller ht key flag val size) (m.putRef key val) := by
  cases val with
  | none => exact setEnt_refines_erase h (shmapData_null caller flag size)
  | some p =>
    obtain ⟨flag', size', hdata⟩ := shmapData_ref caller hflag p size
    exact setEnt_refines_insert h hdata

/-- Storing a copy is what it is in the abstract map. -/
theorem store_copy_refines {ht : Shmap P} {m : AbsMap P} (h : Refines ht m) (caller : Caller P)
    (key : ShKey) {flag : UInt32} (hflag : flag &&& shmapAlloc ≠ 0) (val : Option P)
    (size : Int) :
    Refines (shmapStore caller ht key flag val size) (m.putCopy caller key size val) := by
  cases val with
  | none => exact setEnt_refines_erase h (shmapData_null caller flag size)
  | some p =>
    by_cases hneg : size < 0
    · simpa [shmapStore, shmapSetEnt, AbsMap.putCopy, shmapData_negative caller hflag p hneg,
        hneg] using h
    · simp only [AbsMap.putCopy, if_neg hneg]
      obtain ⟨flag', hdata⟩ := shmapData_copy caller hflag p (Int.not_lt.mp hneg)
      exact setEnt_refines_insert h hdata

/-- Step lemma: one call of the `shmap_set` family. -/
theorem run_refines {ht : Shmap P} {m : AbsMap P} (h : Refines ht m) (caller : Caller P)
    (op : MapOp P) : Refines (op.run caller ht) (op.spec caller m) := by
  cases op with
  | setEnt key flag val size =>
    by_cases hflag : flag &&& shmapAlloc = 0
    · simp only [MapOp.spec, if_pos hflag]
      exact store_ref_refines h caller key hflag val size
    · simp only [MapOp.spec, if_neg hflag]
      exact store_copy_refines h caller key hflag val size
  | set key val => exact store_ref_refines h caller key (by decide) val 0
  | unset key => exact store_ref_refines h caller key (by decide) none 0
  | setAstr key val =>
    cases val with
    | none => exact store_ref_refines h caller key (by decide) none 0
    | some p => exact store_copy_refines h caller key (by decide) (some p) _
  | setStr key val =>
    cases val with
    | none => exact store_ref_refines h caller key (by decide) none 0
    | some p => exact store_ref_refines h caller key (by decide) (some p) _
  | setPtr key val => exact store_ref_refines h caller key (by decide) val 0
  | setBin key val len => exact store_ref_refines h caller key (by decide) val len
  | setAbin key val len => exact store_copy_refines h caller key (by decide) val len

/-- Run lemma: any sequence of calls. -/
theorem shmapRun_refines (caller : Caller P) (ops : List (MapOp P)) :
    Refines (shmapRun caller ops) (absRun caller ops) := by
  unfold shmapRun absRun
  have hstart : Refines (shmapInit : Shmap P) ∅ := shmapInit_refines
  generalize (shmapInit : Shmap P) = ht at hstart
  generalize (∅ : AbsMap P) = m at hstart
  induction ops generalizing ht m with
  | nil => exact hstart
  | cons op rest ih => exact ih _ _ (run_refines hstart caller op)

/-! ## What a caller observes -/

/-- A lookup gives what the abstract map has for the key. -/
theorem Refines.get_eq {ht : Shmap P} {m : AbsMap P} (h : Refines ht m) (key : ShKey) :
    shmapGet ht key = m.lookup key := by
  by_cases hex : ∃ he ∈ ht.entries, he.key = key
  · obtain ⟨he, hmem, rfl⟩ := hex
    have hlookup := (h.binds he.key he.val).mpr ⟨he, hmem, rfl, rfl⟩
    simp only [shmapGet, shmapGetEnt, findEntry_hit h.wf hmem, deref_linkOf_hit h.wf hmem, hlookup]
  · have hnone : ∀ he ∈ ht.entries, he.key ≠ key := fun he hin hk => hex ⟨he, hin, hk⟩
    have hlookup : m.lookup key = none := by
      rw [Option.eq_none_iff_forall_ne_some]
      intro val hval
      obtain ⟨he, hin, hk, -⟩ := (h.binds key val).mp hval
      exact hnone he hin hk
    simp only [shmapGet, shmapGetEnt, findEntry_miss_none h.wf hnone,
      deref_linkOf_miss h.wf hnone, hlookup]

/-- The keys of the abstract map are those of the entries. -/
theorem Refines.mem_keys {ht : Shmap P} {m : AbsMap P} (h : Refines ht m) (key : ShKey) :
    key ∈ m.keys ↔ key ∈ ht.entries.map MapEntry.key := by
  rw [Finmap.mem_keys, ← Finmap.lookup_isSome, Option.isSome_iff_exists, List.mem_map]
  constructor
  · rintro ⟨val, hval⟩
    obtain ⟨he, hin, hk, -⟩ := (h.binds key val).mp hval
    exact ⟨he, hin, hk⟩
  · rintro ⟨he, hin, hk⟩
    exact ⟨he.val, (h.binds key he.val).mpr ⟨he, hin, hk, rfl⟩⟩

/-- The count is the number of keys, in 32 bits. -/
theorem Refines.count_eq {ht : Shmap P} {m : AbsMap P} (h : Refines ht m) :
    shmapCount ht = UInt32.ofNat m.keys.card := by
  have hkeys : m.keys = (ht.entries.map MapEntry.key).toFinset := by
    ext key
    rw [h.mem_keys, List.mem_toFinset]
  rw [shmapCount, h.wf.count_eq, hkeys, List.toFinset_card_of_nodup h.wf.nodup, List.length_map]

/-- **Refinement.** After any sequence of stores and unsets on a new map,
lookups return what the finite map holds, the count is the number of live keys
(in `unsigned int`, the type of the counter) and no key has two entries. -/
theorem shmap_refines_finite_map (caller : Caller P) (ops : List (MapOp P)) :
    (∀ key, shmapGet (shmapRun caller ops) key = (absRun caller ops).lookup key) ∧
    shmapCount (shmapRun caller ops) = UInt32.ofNat (absRun caller ops).keys.card ∧
    ((shmapRun caller ops).entries.map MapEntry.key).Nodup := by
  have h := shmapRun_refines caller ops
  exact ⟨h.get_eq, h.count_eq, h.wf.nodup⟩

end LibShare.Mem
