import LibShare.Base
import LibShare.Lib.Buckets

/-!
# libshare — the `shmap` hash map

The chained hash map of `shmem_map.c`. A bucket is the list of the entries
that hang off one element of `ht->array`, head first. The bucket array has
`ht->max + 1` elements and an entry of hash `h` hangs off bucket `h & max`.

Two representation choices:

* **Link addresses.** `find_entry` returns the address of the link that
  points to the entry (`hep`). A link is named here by its bucket and by the
  number of entries before it (`Hep`), so `*hep` is the entry at that
  position, or nothing at the end of the chain.
* **The free list.** Unlinked entries wait on `ht->free`; `find_entry` resets
  every field of an entry it takes from there, so only their number is kept.

A stored value is the caller's own pointer, or a private copy of the bytes it
points to when `SHMAP_ALLOC` is set. `P` is the type of the caller's non-null
pointers, and `Caller` says what the map can read through them.
-/

namespace LibShare.Mem

/-! ## Data -/

/-- `SHMAP_ALLOC`: the map owns a copy of the value. -/
def shmapAlloc : UInt32 := (1 : UInt32) <<< 0

/-- `SHMAP_STRING`: a null-terminated string value. -/
def shmapString : UInt32 := (1 : UInt32) <<< 10

/-- `SHMAP_BINARY`: a binary memory segment. -/
def shmapBinary : UInt32 := (1 : UInt32) <<< 13

/-- `INITIAL_MAX`: the bucket mask of a new map. -/
def initialMax : UInt32 := 15

/-- What an entry's `val` points to. -/
inductive MapVal (P : Type)
  /-- the caller's pointer, stored as it is -/
  | ref (p : P)
  /-- memory allocated by the map, with its content -/
  | copy (data : Bytes)
deriving DecidableEq, Repr

/-- `shmap_entry_t`, less its `next` link. -/
structure MapEntry (P : Type) where
  hash : UInt32
  key : ShKey
  val : MapVal P
  sz : Int
  flag : UInt32

/-- `shmap_t`, less the iterator it embeds. -/
structure Shmap (P : Type) where
  array : List (List (MapEntry P))
  count : UInt32
  max : UInt32
  /-- the number of recycled entries -/
  free : Nat

/-- The caller's memory, as far as the map looks at it. -/
structure Caller (P : Type) where
  /-- the bytes that `memcpy` takes from a pointer -/
  peek : P → Nat → Bytes
  /-- `strlen` -/
  strlen : P → Nat

/-- The address of a link: a bucket and the number of entries before it. -/
structure Hep where
  bucket : Nat
  pos : Nat

variable {P : Type}

/-- The chain of a bucket. -/
def Shmap.chain (ht : Shmap P) (bucket : Nat) : List (MapEntry P) :=
  Buckets.bucket ht.array bucket

/-- The entry that a link points to (`*hep`). -/
def Shmap.deref (ht : Shmap P) (hep : Hep) : Option (MapEntry P) :=
  (ht.chain hep.bucket)[hep.pos]?

/-- All entries in the order of `shmap_first`, `shmap_next`. -/
def Shmap.entries (ht : Shmap P) : List (MapEntry P) := ht.array.flatten

/-! ## Operations -/

/-- `alloc_array`: `max + 1` empty buckets. -/
def allocArray (max : UInt32) : List (List (MapEntry P)) :=
  List.replicate (max.toNat + 1) []

/-- `shmap_init`. -/
def shmapInit : Shmap P :=
  { array := allocArray initialMax, count := 0, max := initialMax, free := 0 }

/-- `shmap_hash_num`: times 33 over the bytes of the key. -/
def shmapHashNum (key : ShKey) : UInt32 :=
  key.toBytes.foldl (fun hash b => hash * 33 + b.toUInt32) 0

/-- The test that ends the scan of a chain. -/
def MapEntry.isFor (hash : UInt32) (key : ShKey) (he : MapEntry P) : Bool :=
  he.hash == hash && he.key == key

/-- `find_entry`: the link to the entry of a key; a missing entry is appended
to its chain when a value is given. -/
def findEntry (ht : Shmap P) (key : ShKey) (val : Option (MapVal P)) : Shmap P × Hep :=
  let hash := shmapHashNum key
  let bucket := (hash &&& ht.max).toNat
  let chain := ht.chain bucket
  let hep : Hep := { bucket := bucket, pos := chain.findIdx (MapEntry.isFor hash key) }
  match chain[hep.pos]?, val with
  | some _, _ => (ht, hep)
  | none, none => (ht, hep)
  | none, some v =>
    -- the entry is taken from the free list, and hung behind the others
    let he : MapEntry P := { hash := hash, key := key, val := v, sz := 0, flag := 0 }
    ({ ht with
        array := ht.array.set bucket (chain ++ [he])
        count := ht.count + 1
        free := ht.free - 1 }, hep)

/-- One round of the loop of `_expand_array`: hang an entry at the head of its
bucket in the new array. -/
def rehash (newMax : UInt32) (newArray : List (List (MapEntry P))) (he : MapEntry P) :
    List (List (MapEntry P)) :=
  Buckets.push (fun e => (e.hash &&& newMax).toNat) newArray he

/-- `_expand_array`: double the mask and move every entry. -/
def expandArray (ht : Shmap P) : Shmap P :=
  let newMax := ht.max * 2
  { ht with
    array := ht.entries.foldl (rehash newMax) (allocArray newMax)
    max := newMax }

/-- The deleting branch of `shmap_set_ent`: unlink `*hep`. -/
def unlinkEntry (ht : Shmap P) (hep : Hep) : Shmap P :=
  { ht with
    array := ht.array.set hep.bucket ((ht.chain hep.bucket).eraseIdx hep.pos)
    count := ht.count - 1
    free := ht.free + 1 }

/-- The replacing branch of `shmap_set_ent`: overwrite `*hep`. -/
def replaceEntry (ht : Shmap P) (hep : Hep) (cur : MapEntry P) (flag : UInt32)
    (data : MapVal P) (size : Int) : Shmap P :=
  let cur' := { cur with flag := flag, val := data, sz := size }
  { ht with array := ht.array.set hep.bucket ((ht.chain hep.bucket).set hep.pos cur') }

/-- The value `shmap_set_ent` stores, with the attributes it stores it under.
No value is a deletion; a negative `ssize_t` makes `calloc` fail. -/
def shmapData (caller : Caller P) (flag : UInt32) (val : Option P) (size : Int) :
    Except Sherr (Option (MapVal P) × UInt32 × Int) :=
  -- a null value clears the attributes
  let flag := if val.isNone then 0 else flag
  let size := if val.isNone then 0 else size
  -- meant to mute `SHMAP_ALLOC`, but the complement is OR'd in
  let flag := if size = 0 then flag ||| ~~~shmapAlloc else flag
  if flag &&& shmapAlloc ≠ 0 then
    if size < 0 then .error .nomem
    else .ok (val.map fun p => MapVal.copy (caller.peek p size.toNat), flag, size)
  else .ok (val.map MapVal.ref, flag, size)

/-- `shmap_set_ent`. -/
def shmapSetEnt (caller : Caller P) (ht : Shmap P) (key : ShKey) (flag : UInt32)
    (val : Option P) (size : Int) : Except Sherr (Shmap P) :=
  match shmapData caller flag val size with
  | .error err => .error err
  | .ok (data, flag, size) =>
    let (ht, hep) := findEntry ht key data
    match ht.deref hep, data with
    | none, _ => .ok ht
    | some _, none => .ok (unlinkEntry ht hep)
    | some cur, some d =>
      let ht := replaceEntry ht hep cur flag d size
      -- check that the collision rate isn't too high
      .ok (if ht.max < ht.count then expandArray ht else ht)

/-- `shmap_get_ent`: the value of a key and the flag of its entry. -/
def shmapGetEnt (ht : Shmap P) (key : ShKey) : Option (MapVal P) × UInt32 :=
  let (ht, hep) := findEntry ht key none
  match ht.deref hep with
  | some he => (some he.val, he.flag)
  | none => (none, 0)

/-- `shmap_get`, which is also `shmap_get_str`, `shmap_get_ptr` and
`shmap_get_void`. -/
def shmapGet (ht : Shmap P) (key : ShKey) : Option (MapVal P) :=
  (shmapGetEnt ht key).1

/-- `shmap_count`. -/
def shmapCount (ht : Shmap P) : UInt32 := ht.count

/-! ## The `shmap_set` family

The functions below return nothing, so a failed `shmap_set_ent` leaves the map
as it was. -/

/-- A call of `shmap_set_ent` whose status is dropped. -/
def shmapStore (caller : Caller P) (ht : Shmap P) (key : ShKey) (flag : UInt32)
    (val : Option P) (size : Int) : Shmap P :=
  match shmapSetEnt caller ht key flag val size with
  | .ok ht' => ht'
  | .error _ => ht

/-- `shmap_set`. -/
def shmapSet (caller : Caller P) (ht : Shmap P) (key : ShKey) (val : Option P) : Shmap P :=
  shmapStore caller ht key 0 val 0

/-- `shmap_unset`. -/
def shmapUnset (caller : Caller P) (ht : Shmap P) (key : ShKey) : Shmap P :=
  shmapSet caller ht key none

/-- `shmap_set_astr`. -/
def shmapSetAstr (caller : Caller P) (ht : Shmap P) (key : ShKey) (val : Option P) : Shmap P :=
  match val with
  | none => shmapSet caller ht key none
  | some p => shmapStore caller ht key (shmapString ||| shmapAlloc) (some p) (caller.strlen p + 1)

/-- `shmap_set_str`. -/
def shmapSetStr (caller : Caller P) (ht : Shmap P) (key : ShKey) (val : Option P) : Shmap P :=
  match val with
  | none => shmapSet caller ht key none
  | some p => shmapStore caller ht key shmapString (some p) (caller.strlen p + 1)

/-- `shmap_set_ptr`. -/
def shmapSetPtr (caller : Caller P) (ht : Shmap P) (key : ShKey) (ptr : Option P) : Shmap P :=
  shmapStore caller ht key shmapBinary ptr 0

/-- `shmap_set_bin`. -/
def shmapSetBin (caller : Caller P) (ht : Shmap P) (key : ShKey) (data : Option P)
    (len : Int) : Shmap P :=
  shmapStore caller ht key shmapBinary data len

/-- `shmap_set_abin`, which is also `shmap_set_void`. -/
def shmapSetAbin (caller : Caller P) (ht : Shmap P) (key : ShKey) (data : Option P)
    (len : Int) : Shmap P :=
  shmapStore caller ht key (shmapBinary ||| shmapAlloc) data len

end LibShare.Mem
