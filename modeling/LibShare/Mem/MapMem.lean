import LibShare.Lib.Links
import LibShare.Mem.MapAttr

/-!
# libshare — the entries of an `shmap` in memory

The hash map of `shmem_map.c` with its pointers: an entry has an address and a `next` field, the
recycled entries are a chain through the same field, and `find_entry` returns the address of a link
(`hep`). The lists of `LibShare.Mem.Map` are what is reached from the array and from `ht->free`.

* **Representation.** `Holds` ties the memory to such a map. Every cell is in one bucket, on the
  free list, or has never been used.
* **Operations.** `find_entry` comes to the same link (`Holds.find`), and each branch of
  `shmap_set_ent` keeps the representation; the expansion moves the entries while it walks over
  them.
* `memRun_holds` — every sequence of calls.
-/

namespace LibShare.Mem

open Links

variable {P : Type}

/-! ## Memory -/

/-- `shmap_t` and its entries, by address. An entry that is recycled, or that has never been used,
has no content. -/
structure MapMem (P : Type) extends Links Nat where
  entry : Nat → Option (MapEntry P)
  free : Option Nat
  /-- the addresses from here on have not been allocated -/
  fresh : Nat
  count : UInt32
  max : UInt32

/-- `shmap_init`. -/
def memInit : MapMem P :=
  { array := List.replicate (initialMax.toNat + 1) none
    next := fun _ => none
    entry := fun _ => none
    free := none
    fresh := 0
    count := 0
    max := initialMax }

/-- A link is stored. -/
def MapMem.relink (mem : MapMem P) (s : Option Nat) (link : Link Nat) : MapMem P :=
  { mem with toLinks := mem.toLinks.store s link }

/-- The scan of `find_entry`. No chain is longer than there are addresses. -/
def MapMem.scanFor (mem : MapMem P) (key : ShKey) : Link Nat :=
  mem.scan (fun he => (mem.entry he).any (MapEntry.isFor (shmapHashNum key) key)) (mem.fresh + 1)
    (.head (shmapHashNum key &&& mem.max).toNat)

/-- An entry from the free list, or a new one. -/
def MapMem.takeEntry (mem : MapMem P) : Nat × MapMem P :=
  match mem.free with
  | some he => (he, { mem with free := mem.next he })
  | none => (mem.fresh, { mem with fresh := mem.fresh + 1 })

/-- The end of `find_entry`: a new entry for a value. -/
def MapMem.addEntry (mem : MapMem P) (hep : Link Nat) (key : ShKey) (val : MapVal P) : MapMem P :=
  let he := mem.takeEntry.1
  let mem := mem.takeEntry.2
  let mem := { mem.relink none (.after he) with
    entry := Function.update mem.entry he
      (some { hash := shmapHashNum key, key := key, val := val, sz := 0, flag := 0 }) }
  { mem.relink (some he) hep with count := mem.count + 1 }

/-- `find_entry`. -/
def memFindEntry (mem : MapMem P) (key : ShKey) (val : Option (MapVal P)) : MapMem P × Link Nat :=
  let hep := mem.scanFor key
  match mem.load hep, val with
  | some _, _ => (mem, hep)
  | none, none => (mem, hep)
  | none, some v => (mem.addEntry hep key v, hep)

/-- The deleting branch of `shmap_set_ent`. -/
def memUnlink (mem : MapMem P) (hep : Link Nat) (old : Nat) : MapMem P :=
  let mem := mem.relink (mem.next old) hep
  { mem.relink mem.free (.after old) with
    free := some old
    count := mem.count - 1
    entry := Function.update mem.entry old none }

/-- The replacing branch of `shmap_set_ent`. -/
def memReplace (mem : MapMem P) (cur : Nat) (flag : UInt32) (data : MapVal P)
    (size : Int) : MapMem P :=
  { mem with entry := Function.update mem.entry cur ((mem.entry cur).map fun he =>
      { he with flag := flag, val := data, sz := size }) }

/-- The loop of `_expand_array`, from the iterator's `next` and `index` on. -/
def expandArrayLoop (newMax : UInt32) :
    Nat → MapMem P → List (Option Nat) → Option Nat → Nat → MapMem P × List (Option Nat)
  | 0, mem, newArray, _, _ => (mem, newArray)
  | fuel + 1, mem, newArray, next, index =>
    match mem.walk mem.max.toNat next index with
    | none => (mem, newArray)
    | some (he, index) =>
      let i := ((mem.entry he).elim 0 MapEntry.hash &&& newMax).toNat
      expandArrayLoop newMax fuel (mem.relink newArray[i]?.join (.after he))
        (newArray.set i (some he)) (mem.next he) index

/-- `_expand_array`. -/
def memExpand (mem : MapMem P) : MapMem P :=
  let newMax := mem.max * 2
  let moved :=
    expandArrayLoop newMax (mem.fresh + 1) mem (List.replicate (newMax.toNat + 1) none) none 0
  { moved.1 with array := moved.2, max := newMax }

/-- `shmap_set_ent`. -/
def memSetEnt (caller : Caller P) (mem : MapMem P) (key : ShKey) (flag : UInt32) (val : Option P)
    (size : Int) :
    Except Sherr (MapMem P) :=
  match shmapData caller flag val size with
  | .error err => .error err
  | .ok (data, flag, size) =>
    let found := memFindEntry mem key data
    match found.1.load found.2, data with
    | none, _ => .ok found.1
    | some old, none => .ok (memUnlink found.1 found.2 old)
    | some cur, some d =>
      let mem := memReplace found.1 cur flag d size
      -- check that the collision rate isn't too high
      .ok (if mem.max < mem.count then memExpand mem else mem)

/-! ## Representation -/

/-- The cells of the chains hold the entries of the map. -/
structure Holds (mem : MapMem P) (ht : Shmap P) (chains : List (List Nat))
    (frees : List Nat) : Prop where
  hangs : mem.Hangs chains
  length : chains.length = ht.array.length
  content : ∀ i, (Buckets.bucket chains i).map mem.entry = (ht.chain i).map some
  free : Chain mem.next mem.free frees
  freeLen : frees.length = ht.free
  nodup : (chains.flatten ++ frees).Nodup
  used : ∀ p ∈ chains.flatten ++ frees, p < mem.fresh
  dead : ∀ p, p ∉ chains.flatten → mem.entry p = none
  count_eq : mem.count = ht.count
  max_eq : mem.max = ht.max

variable {mem : MapMem P} {ht : Shmap P} {chains : List (List Nat)} {frees : List Nat}

theorem bucket_replicate {α : Type} (n i : Nat) :
    Buckets.bucket (List.replicate n ([] : List α)) i = [] := by
  rw [Buckets.bucket, List.getElem?_replicate]
  split <;> rfl

theorem first_replicate (n : Nat) (next : Nat → Option Nat) (i : Nat) :
    Links.first { array := List.replicate n none, next := next } i = none := by
  rw [Links.first, List.getElem?_replicate]
  split <;> rfl

/-- Empty chains hang off an empty array. -/
theorem hangs_replicate (n : Nat) (next : Nat → Option Nat) :
    Links.Hangs { array := List.replicate n none, next := next } (List.replicate n []) := by
  refine ⟨by rw [List.length_replicate, List.length_replicate], fun i => ?_, ?_⟩
  · rw [first_replicate, bucket_replicate]
    exact Chain.nil
  · rw [List.flatten_replicate_nil]
    exact List.nodup_nil

/-- A new map in memory holds the new map. -/
theorem memInit_holds :
    Holds (memInit : MapMem P) shmapInit (List.replicate (initialMax.toNat + 1) []) [] where
  hangs := hangs_replicate _ _
  length := by rw [shmapInit, allocArray, List.length_replicate, List.length_replicate]
  content := by
    intro i
    rw [bucket_replicate, Shmap.chain, shmapInit, allocArray, bucket_replicate]
    rfl
  free := Chain.nil
  freeLen := rfl
  nodup := by
    rw [List.flatten_replicate_nil]
    exact List.nodup_nil
  used := by
    rw [List.flatten_replicate_nil]
    exact fun p hp => by cases hp
  dead := fun _ _ => rfl
  count_eq := rfl
  max_eq := rfl

/-- The entry in the same place. -/
theorem Holds.entry_at (h : Holds mem ht chains frees) {i k p : Nat}
    (hp : (Buckets.bucket chains i)[k]? = some p) :
    ∃ he, (ht.chain i)[k]? = some he ∧ mem.entry p = some he := by
  have hk := congrArg (fun l : List (Option (MapEntry P)) => l[k]?) (h.content i)
  simp only [List.getElem?_map, hp, Option.map_some] at hk
  obtain ⟨he, hhe, hsome⟩ := Option.map_eq_some_iff.mp hk.symm
  exact ⟨he, hhe, hsome.symm⟩

/-- A chain is as long as its bucket. -/
theorem Holds.bucket_length (h : Holds mem ht chains frees) (i : Nat) :
    (Buckets.bucket chains i).length = (ht.chain i).length := by
  have hlen := congrArg List.length (h.content i)
  rwa [List.length_map, List.length_map] at hlen

/-- No chain is longer than there are addresses. -/
theorem Holds.front_lt (h : Holds mem ht chains frees) {i : Nat} {front tail : List Nat}
    (hbucket : Buckets.bucket chains i = front ++ tail) : front.length < mem.fresh + 1 := by
  have hsub := Buckets.bucket_sublist_flatten chains i
  have hnodup : front.Nodup := by
    have hall := h.hangs.nodup.sublist hsub
    rw [hbucket] at hall
    exact hall.of_append_left
  have hrange : front ⊆ List.range mem.fresh := by
    intro p hp
    rw [List.mem_range]
    refine h.used p (List.mem_append_left _ (hsub.subset ?_))
    rw [hbucket]
    exact List.mem_append_left _ hp
  have hle := (hnodup.subperm hrange).length_le
  rw [List.length_range] at hle
  omega

/-- `find_entry` comes to the link that the lists say. -/
theorem Holds.find (h : Holds mem ht chains frees) (key : ShKey) : ∃ front tail,
    Buckets.bucket chains (linkOf ht key).bucket = front ++ tail ∧
      front.length = (linkOf ht key).pos ∧ mem.scanFor key =
        behind (.head (linkOf ht key).bucket) front ∧ mem.load (mem.scanFor key) = tail.head? := by
  obtain ⟨i, hi⟩ : ∃ i, (linkOf ht key).bucket = i := ⟨_, rfl⟩
  obtain ⟨k, hk⟩ : ∃ k, (linkOf ht key).pos = k := ⟨_, rfl⟩
  have hidx : (ht.chain i).findIdx (MapEntry.isFor (shmapHashNum key) key) = k := by
    rw [← hi, ← hk]
    rfl
  rw [hi, hk]
  have hsplit : Buckets.bucket chains i = (Buckets.bucket chains i).take k ++
      (Buckets.bucket chains i).drop k :=
    (List.take_append_drop _ _).symm
  have hklen : k ≤ (Buckets.bucket chains i).length := by
    rw [h.bucket_length, ← hidx]
    exact List.findIdx_le_length
  have hchain := h.hangs.chain i
  rw [hsplit] at hchain
  have hscan : mem.scanFor key = behind (.head i) ((Buckets.bucket chains i).take k) := by
    unfold MapMem.scanFor
    rw [h.max_eq]
    have hbucket : (shmapHashNum key &&& ht.max).toNat = i := hi
    rw [hbucket]
    refine scan_behind ?_ (h.front_lt hsplit) ?_ hchain
    · -- where the scan stops
      intro p hp
      rw [List.head?_drop] at hp
      obtain ⟨he, hhe, hentry⟩ := h.entry_at hp
      rw [← hidx] at hhe
      rw [hentry, Option.any_some]
      exact List.findIdx_of_getElem?_eq_some hhe
    · -- and where it goes on
      intro p hp
      obtain ⟨j, hj, hget⟩ := List.mem_take_iff_getElem.mp hp
      have hjk : j < (ht.chain i).findIdx (MapEntry.isFor (shmapHashNum key) key) := by omega
      obtain ⟨he, hhe, hentry⟩ := h.entry_at (List.getElem?_eq_some_iff.mpr ⟨_, hget⟩)
      obtain ⟨_, rfl⟩ := List.getElem?_eq_some_iff.mp hhe
      rw [hentry, Option.any_some]
      exact List.not_of_lt_findIdx hjk
  refine ⟨_, _, hsplit, ?_, hscan, ?_⟩
  · rw [List.length_take]
    omega
  · rw [hscan]
    exact h.hangs.load hsplit

/-! ## One chain -/

/-- The entries before and behind a cell. -/
theorem Holds.split (h : Holds mem ht chains frees) {i p : Nat} {front tail : List Nat}
    (hbucket : Buckets.bucket chains i = front ++ p :: tail) : ∃ before he after,
      ht.chain i = before ++ he :: after ∧ before.length = front.length ∧
      front.map mem.entry = before.map some ∧
        mem.entry p = some he ∧ tail.map mem.entry = after.map some := by
  have hcontent := h.content i
  rw [hbucket, List.map_append, List.map_cons] at hcontent
  obtain ⟨before, rest, hchain, hbefore, hrest⟩ := List.append_eq_map_iff.mp hcontent
  obtain ⟨he, after, rfl, hhe, hafter⟩ := List.map_eq_cons_iff.mp hrest
  have hlen := congrArg List.length hbefore
  rw [List.length_map, List.length_map] at hlen
  exact ⟨before, he, after, hchain, hlen, hbefore.symm, hhe.symm, hafter.symm⟩

/-- A bucket of the map and of the memory is replaced, and the entries of the other cells stay. -/
theorem content_set {chains : List (List Nat)} {array : List (List (MapEntry P))}
    {entry entry' : Nat → Option (MapEntry P)}
    {i : Nat} {cells : List Nat} {es : List (MapEntry P)} (hlen : chains.length = array.length)
    (hcontent : ∀ j, (Buckets.bucket chains j).map entry = (Buckets.bucket array j).map some)
    (hsame : ∀ j, i ≠ j → ∀ p ∈ Buckets.bucket chains j, entry' p = entry p)
    (hcells : cells.map entry' = es.map some) :
    ∀ j, (Buckets.bucket (chains.set i cells) j).map entry' =
      (Buckets.bucket (array.set i es) j).map some := by
  intro j
  by_cases hij : i = j
  · subst hij
    by_cases hi : i < chains.length
    · rw [Buckets.bucket_set_self hi, Buckets.bucket_set_self (by omega), hcells]
    · rw [Buckets.bucket, Buckets.bucket, List.getElem?_eq_none (by rw [List.length_set]; omega),
        List.getElem?_eq_none (by rw [List.length_set]; omega)]
      rfl
  · rw [Buckets.bucket_set_ne hij, Buckets.bucket_set_ne hij, ← hcontent j]
    exact List.map_congr_left (hsame j hij)

/-- A cell is in a chain of the array. -/
theorem Holds.bucket_lt (_h : Holds mem ht chains frees) {i p : Nat} {front tail : List Nat}
    (hbucket : Buckets.bucket chains i = front ++ p :: tail) : i < chains.length := by
  refine Nat.lt_of_not_le fun hout => ?_
  rw [Buckets.bucket, List.getElem?_eq_none hout] at hbucket
  exact absurd hbucket.symm (by simp)

theorem set_bucket {α : Type} {buckets : List (List α)} {i : Nat} (hi : i < buckets.length) :
    buckets.set i (Buckets.bucket buckets i) = buckets := by
  rw [Buckets.bucket, List.getElem?_eq_getElem hi, Option.getD_some]
  exact List.set_getElem_self hi

/-- The replacing branch. -/
theorem Holds.replace (h : Holds mem ht chains frees) {i p : Nat} {front tail : List Nat}
    {he : MapEntry P}
    (hbucket : Buckets.bucket chains i = front ++ p :: tail) (hentry : mem.entry p = some he)
    (flag : UInt32)
    (data : MapVal P) (size : Int) : Holds (memReplace mem p flag data size)
      (replaceEntry ht { bucket := i, pos := front.length } he flag data size) chains frees := by
  obtain ⟨before, he', after, hchain, hlen, hbefore, hhe, hafter⟩ := h.split hbucket
  obtain rfl := Option.some.inj (hentry.symm.trans hhe)
  have hi := h.bucket_lt hbucket
  have hin : p ∈ Buckets.bucket chains i := by simp [hbucket]
  have hnodup := h.hangs.nodup.sublist (Buckets.bucket_sublist_flatten chains i)
  rw [hbucket] at hnodup
  -- only the cell `p` is stored, and it stays where it hangs
  have hout : ∀ q, q ≠ p → (memReplace mem p flag data size).entry q = mem.entry q :=
    fun q hq => Function.update_of_ne hq _ _
  have hset : (replaceEntry ht { bucket := i, pos := front.length } he flag data size).array =
      ht.array.set i (before ++ { he with flag := flag, val := data, sz := size } :: after) := by
    simp only [replaceEntry, hchain, ← hlen, List.set_append_right _ _ (Nat.le_refl _),
      Nat.sub_self, List.set_cons_zero]
  have hcells : (front ++ p :: tail).map (memReplace mem p flag data size).entry =
      (before ++ { he with flag := flag, val := data, sz := size } :: after).map some := by
    have hfront : front.map (memReplace mem p flag data size).entry = front.map mem.entry :=
      List.map_congr_left fun q hq => hout q fun heq =>
        (List.nodup_append.mp hnodup).2.2 q hq p List.mem_cons_self heq
    have htail : tail.map (memReplace mem p flag data size).entry = tail.map mem.entry :=
      List.map_congr_left fun q hq => hout q fun heq =>
        (List.nodup_cons.mp hnodup.of_append_right).1 (heq ▸ hq)
    have hself : (memReplace mem p flag data size).entry p =
        some { he with flag := flag, val := data, sz := size } := by
      have hupdate : (memReplace mem p flag data size).entry p = (mem.entry p).map _ :=
        Function.update_self _ _ _
      rw [hupdate, hentry, Option.map_some]
    rw [List.map_append, List.map_cons, List.map_append, List.map_cons, hfront, htail, hself,
      hbefore, hafter]
  refine ⟨h.hangs, ?_, fun j => ?_, h.free, h.freeLen, h.nodup, h.used, fun q hq =>
    ?_, h.count_eq, h.max_eq⟩
  · rw [hset, List.length_set]
    exact h.length
  · have hsame : ∀ k, i ≠ k →
        ∀ q ∈ Buckets.bucket chains k, (memReplace mem p flag data size).entry q = mem.entry q := by
      intro k hik q hq
      refine hout q ?_
      rintro rfl
      exact bucket_disjoint h.hangs.nodup hik hin hq
    have hall := content_set h.length h.content hsame hcells j
    rw [← hbucket, set_bucket hi] at hall
    rw [Shmap.chain, hset]
    exact hall
  · have hne : q ≠ p := by
      rintro rfl
      exact hq ((Buckets.bucket_sublist_flatten chains i).subset hin)
    rw [hout q hne]
    exact h.dead q hq

/-- The cells of the chains, after one chain has got others. -/
theorem flatten_set_cons {chains : List (List Nat)} {i p : Nat} {cells : List Nat}
    (hi : i < chains.length)
    (hcells : (p :: Buckets.bucket chains i).Perm cells) :
    ((chains.set i cells).flatten).Perm (p :: chains.flatten) := by
  have hset := Buckets.flatten_set_perm hi cells
  have hcons : (cells ++ chains.flatten).Perm (Buckets.bucket chains i ++ p :: chains.flatten) :=
    (hcells.symm.append_right _).trans List.perm_middle.symm
  exact (List.perm_append_left_iff _).mp (hset.trans hcons)

/-- The links of cells that are not in the chains do not matter to them. -/
theorem hangs_congr {m m' : Links Nat} (h : m.Hangs chains) (harray : m'.array = m.array)
    (hnext : ∀ p ∈ chains.flatten, m'.next p = m.next p) : m'.Hangs chains := by
  refine ⟨by rw [harray, h.length], fun i => ?_, h.nodup⟩
  have hfirst : m'.first i = m.first i := by rw [Links.first, harray, Links.first]
  rw [hfirst]
  exact (h.chain i).congr fun p hp => hnext p ((Buckets.bucket_sublist_flatten chains i).subset hp)

/-- A stored link leaves the cells alone whose link it is not. -/
theorem store_next_of_ne {m : Links Nat} {s : Option Nat} {link : Link Nat} {p : Nat}
    (h : link ≠ .after p) :
    (m.store s link).next p = m.next p := by
  cases link with
  | head i => rfl
  | after q => exact Function.update_of_ne (fun heq => h (by rw [heq])) _ _

/-- A link behind a cell is behind one of the chain. -/
theorem behind_mem {i p : Nat} {front : List Nat} (h : behind (.head i) front = .after p) :
    p ∈ front := by
  rcases List.eq_nil_or_concat' front with rfl | ⟨before, b, rfl⟩
  · cases h
  · rw [behind, List.getLast?_concat, Option.elim_some] at h
    rw [← Link.after.inj h]
    exact List.mem_append_right _ (List.mem_singleton_self b)

/-- The deleting branch. -/
theorem Holds.unlink (h : Holds mem ht chains frees) {i p : Nat} {front tail : List Nat}
    (hbucket : Buckets.bucket chains i = front ++ p :: tail) :
    Holds (memUnlink mem (behind (.head i) front) p)
      (unlinkEntry ht { bucket := i, pos := front.length })
      (chains.set i (front ++ tail)) (p :: frees) := by
  obtain ⟨before, he, after, hchain, hlen, hbefore, hhe, hafter⟩ := h.split hbucket
  have hi := h.bucket_lt hbucket
  have hin : p ∈ Buckets.bucket chains i := by simp [hbucket]
  -- the cells of the chains, with and without the deleted one
  have hperm : chains.flatten.Perm (p :: (chains.set i (front ++ tail)).flatten) := by
    have hset := Buckets.flatten_set_perm hi (front ++ tail)
    rw [hbucket] at hset
    have hcons : ((front ++ tail) ++ p :: (chains.set i (front ++ tail)).flatten).Perm
        ((front ++ tail) ++ chains.flatten) := by
      refine List.Perm.trans ?_ hset
      exact List.perm_middle.trans (List.perm_middle.symm.append_right _)
    exact ((List.perm_append_left_iff _).mp hcons).symm
  have hnodup' := hperm.nodup_iff.mp h.hangs.nodup
  have hpout := (List.nodup_cons.mp hnodup').1
  have hall : ((chains.set i (front ++ tail)).flatten ++ p :: frees).Nodup := by
    refine (List.Perm.nodup_iff ?_).mp h.nodup
    exact (hperm.append_right frees).trans List.perm_middle.symm
  have hlink : ∀ q, behind (.head i) front = .after q →
      q ∈ (chains.set i (front ++ tail)).flatten := by
    intro q hq
    have hcells : front ++ tail ∈ chains.set i (front ++ tail) := List.mem_set hi _
    exact List.mem_flatten.mpr ⟨_, hcells, List.mem_append_left _ (behind_mem hq)⟩
  -- the link before the entry, and then the one of the entry
  have hchain' := h.hangs.chain i
  rw [hbucket] at hchain'
  have hafter' : Chain mem.next (mem.next p) tail :=
    (show Chain mem.next (mem.load (behind (.head i) front)) (p :: tail)
      from chain_behind hchain').2
  have htail : Chain (mem.store (mem.next p) (behind (.head i) front)).next (mem.next p) tail := by
    refine hafter'.congr fun q hq => store_next_of_ne fun hlast => ?_
    have hcells := hchain'.nodup
    exact (List.nodup_append.mp hcells).2.2 q (behind_mem hlast) q (List.mem_cons_of_mem _ hq) rfl
  have hredirect := h.hangs.redirect hi hbucket htail hnodup'.of_cons
  have hnext : ∀ q, q ≠ p → (memUnlink mem (behind (.head i) front) p).next q =
      (mem.store (mem.next p) (behind (.head i) front)).next q :=
        fun q hq => Function.update_of_ne hq _ _
  have hself : (memUnlink mem (behind (.head i) front) p).next p = mem.free :=
    Function.update_self _ _ _
  have hentry : ∀ q, q ≠ p → (memUnlink mem (behind (.head i) front) p).entry q = mem.entry q :=
    fun q hq => Function.update_of_ne hq _ _
  have hne : ∀ q ∈ (chains.set i (front ++ tail)).flatten, q ≠ p := fun q hq heq => hpout (heq ▸ hq)
  refine ⟨?_, ?_, fun j => ?_, ⟨rfl, ?_⟩, ?_, hall, fun q hq => ?_, fun q hq => ?_, ?_, h.max_eq⟩
  · exact hangs_congr hredirect rfl fun q hq => hnext q (hne q hq)
  · rw [List.length_set, unlinkEntry, List.length_set]
    exact h.length
  · have hcells : (front ++ tail).map (memUnlink mem (behind (.head i) front) p).entry =
        (before ++ after).map some := by
      rw [List.map_append, List.map_append, ← hbefore, ← hafter]
      congr 1 <;> refine List.map_congr_left fun q hq => hentry q ?_
      · exact fun heq => (List.nodup_append.mp hchain'.nodup).2.2 q hq p List.mem_cons_self heq
      · exact fun heq => (List.nodup_cons.mp hchain'.nodup.of_append_right).1 (heq ▸ hq)
    have hsame : ∀ k, i ≠ k → ∀ q ∈ Buckets.bucket chains k,
        (memUnlink mem (behind (.head i) front) p).entry q = mem.entry q := by
      intro k hik q hq
      refine hentry q ?_
      rintro rfl
      exact bucket_disjoint h.hangs.nodup hik hin hq
    have hset : (unlinkEntry ht { bucket := i, pos := front.length }).array =
        ht.array.set i (before ++ after) := by
      simp only [unlinkEntry, hchain, ← hlen, List.eraseIdx_append_of_length_le (Nat.le_refl _),
        Nat.sub_self, List.eraseIdx_cons_zero]
    rw [Shmap.chain, hset]
    exact content_set h.length h.content hsame hcells j
  · rw [hself]
    refine h.free.congr fun q hq => ?_
    have hqp : q ≠ p := by
      rintro rfl
      exact (List.nodup_append.mp h.nodup).2.2 q (hperm.mem_iff.mpr List.mem_cons_self) q hq rfl
    rw [hnext q hqp]
    refine store_next_of_ne fun hlast => ?_
    exact (List.nodup_append.mp h.nodup).2.2 q
      (hperm.mem_iff.mpr (List.mem_cons_of_mem _ (hlink q hlast))) q hq rfl
  · rw [List.length_cons, h.freeLen]
    rfl
  · refine h.used q ((hperm.append_right frees).mem_iff.mpr ?_)
    exact (List.perm_middle.mem_iff.mp hq)
  · by_cases hqp : q = p
    · rw [hqp]
      exact Function.update_self _ _ _
    · rw [hentry q hqp]
      refine h.dead q fun hin => ?_
      rcases List.mem_cons.mp (hperm.mem_iff.mp hin) with heq | hrest
      · exact hqp heq
      · exact hq hrest
  · show mem.count - 1 = ht.count - 1
    rw [h.count_eq]

/-- The entry that is taken is in no chain, and the others stay. -/
structure Taken (mem : MapMem P) (chains : List (List Nat)) (frees : List Nat) : Prop where
  links : mem.takeEntry.2.toLinks = mem.toLinks
  entry : mem.takeEntry.2.entry = mem.entry
  count : mem.takeEntry.2.count = mem.count
  max : mem.takeEntry.2.max = mem.max
  free : Chain mem.next mem.takeEntry.2.free frees.tail
  nodup : (mem.takeEntry.1 :: (chains.flatten ++ frees.tail)).Nodup
  used : ∀ p ∈ mem.takeEntry.1 :: (chains.flatten ++ frees.tail), p < mem.takeEntry.2.fresh

/-- A cell is taken from the free list, or a new one is. -/
theorem Holds.take (h : Holds mem ht chains frees) : Taken mem chains frees := by
  cases frees with
  | nil =>
    -- a new address
    have hnone : mem.free = none := h.free
    have htake : mem.takeEntry = (mem.fresh, { mem with fresh := mem.fresh + 1 }) := by
      rw [MapMem.takeEntry, hnone]
    refine ⟨by rw [htake], by rw [htake], by rw [htake], by rw [htake], ?_, ?_, ?_⟩
    · rw [htake]
      exact h.free
    · rw [htake, List.tail_nil, List.append_nil]
      refine List.nodup_cons.mpr ⟨fun hin => ?_, h.hangs.nodup⟩
      exact Nat.lt_irrefl _ (h.used _ (List.mem_append_left _ hin))
    · intro p hp
      rw [htake] at hp ⊢
      rcases List.mem_cons.mp hp with rfl | hin
      · exact Nat.lt_succ_self _
      · exact Nat.lt_succ_of_lt (h.used p hin)
  | cons q frees =>
    -- the first recycled entry
    have htake : mem.takeEntry = (q, { mem with free := mem.next q }) := by
      rw [MapMem.takeEntry, h.free.1]
    have hperm : (chains.flatten ++ q :: frees).Perm (q :: (chains.flatten ++ frees)) :=
      List.perm_middle
    refine ⟨by rw [htake], by rw [htake], by rw [htake], by rw [htake], ?_, ?_, ?_⟩
    · rw [htake]
      exact h.free.2
    · rw [htake]
      exact hperm.nodup_iff.mp h.nodup
    · intro p hp
      rw [htake] at hp ⊢
      exact h.used p (hperm.mem_iff.mpr hp)

/-- The end of `find_entry`: the new entry hangs at the end of its chain. -/
theorem Holds.add (h : Holds mem ht chains frees) {key : ShKey} {cells : List Nat}
    (hi : (linkOf ht key).bucket < chains.length)
    (hbucket : Buckets.bucket chains (linkOf ht key).bucket = cells)
    (val : MapVal P) :
    Holds (mem.addEntry (behind (.head (linkOf ht key).bucket) cells) key val)
      (appendEntry ht key val)
      (chains.set (linkOf ht key).bucket (cells ++ [mem.takeEntry.1])) frees.tail := by
  have htake := h.take
  obtain ⟨i, hidx⟩ : ∃ i, (linkOf ht key).bucket = i := ⟨_, rfl⟩
  obtain ⟨p, hp⟩ : ∃ p, mem.takeEntry.1 = p := ⟨_, rfl⟩
  have harray : (appendEntry ht key val).array =
      ht.array.set i (ht.chain i ++ [newEntry key val]) := by
    rw [← hidx]
    rfl
  rw [hidx] at hi hbucket ⊢
  rw [hp]
  have hnodup := htake.nodup
  have hused := htake.used
  rw [hp] at hnodup hused
  -- the entry that is taken is in no chain, and is not free any longer
  have hpout : p ∉ chains.flatten :=
    fun hin => (List.nodup_cons.mp hnodup).1 (List.mem_append_left _ hin)
  have hpfree : p ∉ frees.tail :=
    fun hin => (List.nodup_cons.mp hnodup).1 (List.mem_append_right _ hin)
  have hperm : ((chains.set i (cells ++ [p])).flatten).Perm (p :: chains.flatten) :=
    flatten_set_cons hi (by rw [hbucket]; exact (List.perm_append_singleton p cells).symm)
  -- the three cells that the call stores: two links and the entry itself
  have hlinks : (mem.addEntry (behind (.head i) cells) key val).toLinks =
      (mem.store none (.after p)).store (some p) (behind (.head i) cells) := by
    rw [← htake.links, ← hp]
    rfl
  have hentry : (mem.addEntry (behind (.head i) cells) key val).entry =
      Function.update mem.entry p (some (newEntry key val)) := by
    rw [← htake.entry, ← hp]
    rfl
  have hother : ∀ q, q ≠ p →
      (mem.addEntry (behind (.head i) cells) key val).entry q = mem.entry q := fun q hq => by
    rw [hentry]
    exact Function.update_of_ne hq _ _
  have hcellsIn : ∀ q ∈ cells, q ∈ chains.flatten := fun q hq => by
    rw [← hbucket] at hq
    exact (Buckets.bucket_sublist_flatten chains i).subset hq
  have hnext : ∀ q, q ≠ p → q ∉ cells →
      ((mem.store none (.after p)).store (some p) (behind (.head i) cells)).next q =
        mem.next q := by
    intro q hqp hqcells
    rw [store_next_of_ne fun hlast => hqcells (behind_mem hlast)]
    exact Function.update_of_ne hqp _ _
  refine ⟨?_, ?_, fun j => ?_, ?_, ?_, ?_, fun q hq => ?_, fun q hq => ?_, ?_, ?_⟩
  · rw [hlinks]
    have hkeep : ∀ q ∈ chains.flatten, (mem.store none (.after p)).next q = mem.next q := by
      intro q hq
      refine Function.update_of_ne ?_ _ _
      rintro rfl
      exact hpout hq
    have hfirst : (mem.store none (.after p)).Hangs chains := hangs_congr h.hangs rfl hkeep
    refine hfirst.redirect hi (hbucket.trans (List.append_nil cells).symm) ⟨rfl, ?_⟩ ?_
    · -- the new entry is the last one
      rw [store_next_of_ne fun hlast => hpout (hcellsIn p (behind_mem hlast))]
      exact Function.update_self _ _ _
    · exact hperm.nodup_iff.mpr (List.nodup_cons.mpr ⟨hpout, h.hangs.nodup⟩)
  · rw [harray, List.length_set, List.length_set]
    exact h.length
  · -- the cells of the chain hold what they held, and the last one the new value
    rw [Shmap.chain, harray]
    refine content_set h.length h.content (fun k hik q hq => hother q ?_) ?_ j
    · rintro rfl
      exact hpout ((Buckets.bucket_sublist_flatten chains k).subset hq)
    · have hold : cells.map (mem.addEntry (behind (.head i) cells) key val).entry =
          cells.map mem.entry := by
        refine List.map_congr_left fun q hq => hother q ?_
        rintro rfl
        exact hpout (hcellsIn q hq)
      have hnew : (mem.addEntry (behind (.head i) cells) key val).entry p =
          some (newEntry key val) := by
        rw [hentry]
        exact Function.update_self _ _ _
      rw [List.map_append, List.map_append, hold, ← h.content i, hbucket, List.map_singleton,
        List.map_singleton, hnew]
  · -- the list of free entries runs through none of the stored cells
    have hfree : (mem.addEntry (behind (.head i) cells) key val).free = mem.takeEntry.2.free := rfl
    rw [hfree, hlinks]
    refine htake.free.congr fun q hq => hnext q (fun heq => hpfree (heq ▸ hq)) fun hin => ?_
    exact (List.nodup_append.mp hnodup.of_cons).2.2 q (hcellsIn q hin) q hq rfl
  · rw [List.length_tail, h.freeLen]
    rfl
  · exact (hperm.append_right frees.tail).nodup_iff.mpr hnodup
  · exact hused q ((hperm.append_right frees.tail).mem_iff.mp hq)
  · have hqout : q ∉ p :: chains.flatten := fun hin => hq (hperm.mem_iff.mpr hin)
    rw [hother q fun heq => hqout (heq ▸ List.mem_cons_self)]
    exact h.dead q fun hin => hqout (List.mem_cons_of_mem _ hin)
  · show mem.takeEntry.2.count + 1 = ht.count + 1
    rw [htake.count, h.count_eq]
  · show mem.takeEntry.2.max = ht.max
    rw [htake.max, h.max_eq]

/-! ## Expansion -/

/-- Where an entry is moved to. -/
def newBucket (mem : MapMem P) (newMax : UInt32) (he : Nat) : Nat :=
  ((mem.entry he).elim 0 MapEntry.hash &&& newMax).toNat

/-- The loop of `_expand_array`: the entries that are moved hang off the new array, and nothing
else is changed. -/
structure Moving (mem mem' : MapMem P) (newMax : UInt32) (newArray : List (Option Nat))
    (moved : List (List Nat))
    (todo : List Nat) : Prop where
  hangs : Links.Hangs { array := newArray, next := mem'.next } moved
  length : moved.length = newMax.toNat + 1
  nodup : (moved.flatten ++ todo).Nodup
  others : ∀ q, q ∉ moved.flatten → mem'.next q = mem.next q
  same : mem' = { mem with next := mem'.next }

theorem newBucket_lt (mem : MapMem P) (newMax : UInt32) (he : Nat) :
    newBucket mem newMax he < newMax.toNat + 1 :=
  mask_lt _ _

/-- One round of the loop. -/
theorem Moving.step {mem mem' : MapMem P} {newMax : UInt32} {newArray : List (Option Nat)}
    {moved : List (List Nat)}
    {p : Nat} {todo : List Nat} (h : Moving mem mem' newMax newArray moved (p :: todo)) :
    Moving mem (mem'.relink newArray[newBucket mem' newMax p]?.join (.after p)) newMax
      (newArray.set (newBucket mem' newMax p) (some p))
      (Buckets.push (newBucket mem newMax) moved p) todo := by
  obtain ⟨i, hi⟩ : ∃ i, newBucket mem newMax p = i := ⟨_, rfl⟩
  have hi' : newBucket mem' newMax p = i := by
    rw [h.same]
    exact hi
  have hlt : i < moved.length := by
    rw [h.length, ← hi]
    exact newBucket_lt mem newMax p
  have hpush : Buckets.push (newBucket mem newMax) moved p =
      moved.set i (p :: Buckets.bucket moved i) := by
    rw [Buckets.push, hi, Buckets.bucket, List.getElem?_eq_getElem hlt, Option.getD_some,
      List.modify_eq_set_getElem?, List.getElem?_eq_getElem hlt]
    rfl
  have hout : p ∉ moved.flatten :=
    fun hin => (List.nodup_append.mp h.nodup).2.2 p hin p List.mem_cons_self rfl
  have hperm : ((moved.set i (p :: Buckets.bucket moved i)).flatten).Perm (p :: moved.flatten) :=
    flatten_set_cons hlt (List.Perm.refl _)
  have hnext : ∀ q, q ≠ p → (mem'.relink newArray[i]?.join (.after p)).next q = mem'.next q :=
    fun q hq => Function.update_of_ne hq _ _
  rw [hi', hpush]
  refine ⟨?_, ?_, ?_, fun q hq => ?_, ?_⟩
  · -- the link of the entry, and then the head of the bucket
    have hfirst : Links.Hangs
        { array := newArray, next := (mem'.relink newArray[i]?.join (.after p)).next } moved :=
      hangs_congr h.hangs rfl fun q hq => hnext q fun heq => hout (heq ▸ hq)
    have hself : (mem'.relink newArray[i]?.join (.after p)).next p = newArray[i]?.join :=
      Function.update_self _ _ _
    exact hfirst.cons hlt hself (hperm.nodup_iff.mpr (List.nodup_cons.mpr ⟨hout, h.hangs.nodup⟩))
  · rw [List.length_set, h.length]
  · exact (hperm.append_right todo).nodup_iff.mpr (List.perm_middle.nodup_iff.mp h.nodup)
  · have hqout : q ∉ p :: moved.flatten := fun hin => hq (hperm.mem_iff.mpr hin)
    rw [hnext q fun heq => hqout (heq ▸ List.mem_cons_self)]
    exact h.others q fun hin => hqout (List.mem_cons_of_mem _ hin)
  · rw [MapMem.relink, h.same]
    rfl

/-- The rounds of the loop, from an entry that has not been moved yet. -/
theorem expandArrayLoop_spec {mem : MapMem P} {chains : List (List Nat)} {newMax : UInt32}
    (hlen : chains.length = mem.max.toNat + 1) : ∀ (todo : List Nat) {fuel : Nat} {mem' : MapMem P}
    {newArray : List (Option Nat)} {moved : List (List Nat)} {next : Option Nat}
    {index : Nat}, todo.length < fuel →
    Moving mem mem' newMax newArray moved todo → mem'.Ahead chains next index todo →
      index ≤ mem.max.toNat + 1 →
    ∃ mem'' newArray', expandArrayLoop newMax fuel mem' newArray next index = (mem'', newArray') ∧
      Moving mem mem'' newMax newArray' (todo.foldl (Buckets.push (newBucket mem newMax)) moved)
        [] := by
  intro todo
  induction todo with
  | nil =>
    intro fuel mem' newArray moved next index hfuel hmoving hahead hindex
    obtain ⟨fuel, rfl⟩ := Nat.exists_eq_succ_of_ne_zero (Nat.ne_of_gt hfuel)
    have hmax : mem'.max = mem.max := by rw [hmoving.same]
    rcases hahead.walk hlen hindex with ⟨-, hwalk⟩ | ⟨p, index', rest, -, htodo, -⟩
    · refine ⟨mem', newArray, ?_, hmoving⟩
      rw [expandArrayLoop, hmax, hwalk]
    · cases htodo
  | cons p todo ih =>
    intro fuel mem' newArray moved next index hfuel hmoving hahead hindex
    obtain ⟨fuel, rfl⟩ :=
      Nat.exists_eq_succ_of_ne_zero (Nat.ne_of_gt (Nat.lt_of_le_of_lt (Nat.zero_le _) hfuel))
    have hmax : mem'.max = mem.max := by rw [hmoving.same]
    rcases hahead.walk hlen hindex with ⟨htodo, -⟩ | ⟨q, index', rest, hwalk, htodo, hat⟩
    · cases htodo
    · obtain ⟨rfl, rfl⟩ := List.cons.inj htodo
      -- the rest of the walk does not come back to the entry
      have hnodup := (List.nodup_append.mp hmoving.nodup).2.1
      have hkeep : ∀ q ∈ todo, (mem'.relink newArray[newBucket mem' newMax p]?.join
          (.after p)).next q =
          mem'.next q := by
        intro q hq
        refine Function.update_of_ne ?_ _ _
        rintro rfl
        exact (List.nodup_cons.mp hnodup).1 hq
      have hrest : (mem'.relink newArray[newBucket mem' newMax p]?.join (.after p)).Ahead chains
          (mem'.next p) index' todo :=
        hat.ahead.congr rfl hkeep
      have hgo := ih (Nat.lt_of_succ_lt_succ hfuel) hmoving.step hrest (hlen ▸ hat.index_le)
      rw [expandArrayLoop, hmax, hwalk]
      exact hgo

/-- Entries that are pushed into buckets, in memory and in the map. -/
theorem content_foldl {entry : Nat → Option (MapEntry P)} {newMax : UInt32} :
    ∀ {todo : List Nat} {es : List (MapEntry P)}
    {moved : List (List Nat)} {array : List (List (MapEntry P))}, todo.map entry = es.map some →
    moved.length = newMax.toNat + 1 → array.length = newMax.toNat + 1 →
    (∀ i, (Buckets.bucket moved i).map entry = (Buckets.bucket array i).map some) →
    ∀ i, (Buckets.bucket (todo.foldl (Buckets.push fun p =>
      ((entry p).elim 0 MapEntry.hash &&& newMax).toNat) moved) i).map
      entry = (Buckets.bucket (es.foldl (rehash newMax) array) i).map some := by
  intro todo
  induction todo with
  | nil =>
    intro es moved array htodo _ _ hcontent
    rw [List.map_nil] at htodo
    rw [List.map_eq_nil_iff.mp htodo.symm]
    exact hcontent
  | cons p todo ih =>
    intro es moved array htodo hmoved harray hcontent
    cases es with
    | nil => cases htodo
    | cons he es =>
      obtain ⟨hp, hrest⟩ := List.cons.inj htodo
      have hlt : (he.hash &&& newMax).toNat < newMax.toNat + 1 := mask_lt _ _
      have hidx : ((entry p).elim 0 MapEntry.hash &&& newMax).toNat =
          (he.hash &&& newMax).toNat := by
        rw [hp]
        rfl
      rw [List.foldl_cons, List.foldl_cons]
      refine ih hrest ?_ ?_ fun i => ?_
      · rw [Buckets.push_length, hmoved]
      · rw [rehash, Buckets.push_length, harray]
      · rw [rehash, Buckets.push, Buckets.push, hidx, Buckets.bucket_modify _ _ _ _ (by omega),
          Buckets.bucket_modify _ _ _ _ (by omega)]
        split
        · rw [List.map_cons, List.map_cons, hp, hcontent i]
        · exact hcontent i

/-- The cells of all chains have the entries of the map. -/
theorem Holds.flatten (h : Holds mem ht chains frees) :
    chains.flatten.map mem.entry = ht.entries.map some := by
  have hbuckets : chains.map (List.map mem.entry) = ht.array.map (List.map some) := by
    refine List.ext_getElem (by rw [List.length_map, List.length_map, h.length]) fun i h1 h2 => ?_
    rw [List.length_map] at h1 h2
    have hi := h.content i
    rw [Shmap.chain, Buckets.bucket, Buckets.bucket, List.getElem?_eq_getElem h1,
      List.getElem?_eq_getElem h2] at hi
    rw [List.getElem_map, List.getElem_map]
    exact hi
  rw [Shmap.entries, List.map_flatten, List.map_flatten, hbuckets]

/-- The chains after an expansion. -/
def expanded (mem : MapMem P) (chains : List (List Nat)) : List (List Nat) :=
  chains.flatten.foldl (Buckets.push (newBucket mem (mem.max * 2)))
    (List.replicate ((mem.max * 2).toNat + 1) [])

/-- `_expand_array`. -/
theorem Holds.expand (h : Holds mem ht chains frees) (hwf : ht.Wf) :
    Holds (memExpand mem) (expandArray ht) (expanded mem chains) frees := by
  have hlen : chains.length = mem.max.toNat + 1 := by rw [h.length, hwf.length_eq, h.max_eq]
  have hstart : Moving mem mem (mem.max * 2) (List.replicate ((mem.max * 2).toNat + 1) none)
      (List.replicate ((mem.max * 2).toNat + 1) []) chains.flatten := by
    refine ⟨hangs_replicate _ _, List.length_replicate, ?_, fun _ _ => rfl, rfl⟩
    rw [List.flatten_replicate_nil]
    exact h.hangs.nodup
  -- the loop has a turn for every entry in memory
  have hfuel : chains.flatten.length < mem.fresh + 1 := by
    have hrange : chains.flatten ⊆ List.range mem.fresh := fun p hp =>
      List.mem_range.mpr (h.used p (List.mem_append_left _ hp))
    have hle := (h.hangs.nodup.subperm hrange).length_le
    rw [List.length_range] at hle
    omega
  -- the loop has moved every cell; nothing but links and the array differ
  obtain ⟨mem', newArray, hloop, hmoved⟩ :=
    expandArrayLoop_spec hlen chains.flatten hfuel hstart h.hangs.ahead (Nat.zero_le _)
  have hexpand : memExpand mem = { mem' with array := newArray, max := mem.max * 2 } := by
    rw [memExpand, hloop]
  have hall : ((expanded mem chains).flatten).Perm chains.flatten :=
    Buckets.flatten_rebuild_perm chains.flatten fun p _ => newBucket_lt mem _ p
  have hentry : mem'.entry = mem.entry := by rw [hmoved.same]
  have hfree : mem'.free = mem.free := by rw [hmoved.same]
  have hfresh : mem'.fresh = mem.fresh := by rw [hmoved.same]
  have hcount : mem'.count = mem.count := by rw [hmoved.same]
  rw [hexpand]
  refine ⟨hmoved.hangs, ?_, fun i => ?_, ?_, h.freeLen, ?_, fun p hp => ?_, fun p hp => ?_, ?_, ?_⟩
  · have hafter := (expandArray_wf hwf).length_eq
    rw [expanded, hmoved.length, hafter, h.max_eq]
    rfl
  · have hafter : allocArray (P := P) (ht.max * 2) =
        List.replicate ((mem.max * 2).toNat + 1) [] := by
      rw [h.max_eq]
      rfl
    have hsame : (expandArray ht).array = ht.entries.foldl (rehash (mem.max * 2))
        (List.replicate ((mem.max * 2).toNat + 1) []) := by
      rw [← hafter, h.max_eq]
      rfl
    rw [Shmap.chain, hsame, hentry]
    refine content_foldl h.flatten List.length_replicate List.length_replicate (fun j => ?_) i
    rw [bucket_replicate, bucket_replicate]
    rfl
  · rw [hfree]
    refine h.free.congr fun p hp => hmoved.others p fun hin => ?_
    exact (List.nodup_append.mp h.nodup).2.2 p (hall.mem_iff.mp hin) p hp rfl
  · exact (hall.append_right frees).nodup_iff.mpr h.nodup
  · rw [hfresh]
    exact h.used p ((hall.append_right frees).mem_iff.mp hp)
  · rw [hentry]
    exact h.dead p fun hin => hp (hall.mem_iff.mpr hin)
  · rw [hcount]
    exact h.count_eq
  · rw [h.max_eq]
    rfl

/-! ## Calls -/

/-- A call of `shmap_set_ent` whose status is dropped. -/
def memStore (caller : Caller P) (mem : MapMem P) (key : ShKey) (flag : UInt32) (val : Option P)
    (size : Int) : MapMem P :=
  match memSetEnt caller mem key flag val size with
  | .ok mem' => mem'
  | .error _ => mem

/-- The link of `find_entry`, in memory and in the map, and the entry that it points to. -/
structure Found (mem : MapMem P) (ht : Shmap P) (chains : List (List Nat)) (frees : List Nat)
    (link : Link Nat)
    (hep : Hep) (p : Nat) (he : MapEntry P) : Prop where
  holds : Holds mem ht chains frees
  load : mem.load link = some p
  deref : ht.deref hep = some he
  entry : mem.entry p = some he
  place : ∃ i front tail, Buckets.bucket chains i = front ++ p :: tail ∧
    link = behind (.head i) front ∧ hep = { bucket := i, pos := front.length }

/-- A cell of a chain has its entry. -/
theorem Holds.found (h : Holds mem ht chains frees) {i p : Nat} {front tail : List Nat}
    (hbucket : Buckets.bucket chains i = front ++ p :: tail) :
    ∃ he, Found mem ht chains frees (behind (.head i) front)
      { bucket := i, pos := front.length } p he := by
  have hget : (Buckets.bucket chains i)[front.length]? = some p := by
    rw [hbucket, List.getElem?_append_right (Nat.le_refl _), Nat.sub_self]
    rfl
  obtain ⟨he, hhe, hentry⟩ := h.entry_at hget
  exact ⟨he, h, h.hangs.load hbucket, hhe, hentry, i, front, tail, hbucket, rfl, rfl⟩

/-- `find_entry` of a key with an entry. -/
theorem Holds.find_hit (h : Holds mem ht chains frees) (hwf : ht.Wf) {key : ShKey}
    (hex : ∃ he ∈ ht.entries, he.key = key)
    (val : Option (MapVal P)) : memFindEntry mem key val = (mem, mem.scanFor key) ∧
      findEntry ht key val = (ht, linkOf ht key) ∧
      ∃ p he, Found mem ht chains frees (mem.scanFor key) (linkOf ht key) p he := by
  obtain ⟨front, tail, hbucket, hpos, hscan, hload⟩ := h.find key
  obtain ⟨he, hmem, rfl⟩ := hex
  have hderef := deref_linkOf_hit hwf hmem
  cases tail with
  | nil =>
    -- the scan ends behind the last entry
    have hlen := h.bucket_length (linkOf ht he.key).bucket
    rw [hbucket, List.append_nil, hpos] at hlen
    rw [Shmap.deref, hlen, List.getElem?_eq_none (Nat.le_refl _)] at hderef
    cases hderef
  | cons p tail =>
    have hlink : linkOf ht he.key =
        { bucket := (linkOf ht he.key).bucket, pos := front.length } := by rw [hpos]
    obtain ⟨found, hfound⟩ := h.found hbucket
    rw [← hscan, ← hlink] at hfound
    refine ⟨?_, findEntry_hit hwf hmem val, p, found, hfound⟩
    simp only [memFindEntry, hload, List.head?_cons]

/-- `find_entry` of a key without an entry. -/
theorem Holds.find_miss (h : Holds mem ht chains frees) (hwf : ht.Wf) {key : ShKey}
    (hnone : ∀ he ∈ ht.entries, he.key ≠ key) :
    mem.load (mem.scanFor key) = none ∧
      mem.scanFor key = behind (.head (linkOf ht key).bucket)
        (Buckets.bucket chains (linkOf ht key).bucket) := by
  obtain ⟨front, tail, hbucket, hpos, hscan, hload⟩ := h.find key
  have hlen := h.bucket_length (linkOf ht key).bucket
  rw [← linkOf_miss hwf hnone, ← hpos, hbucket, List.length_append] at hlen
  have htail : tail = [] := List.length_eq_zero_iff.mp (by omega)
  rw [htail, List.append_nil] at hbucket
  rw [htail] at hload
  rw [hbucket]
  exact ⟨hload, hscan⟩

/-- `find_entry` with a value. -/
theorem Holds.find_value (h : Holds mem ht chains frees) (hwf : ht.Wf) (key : ShKey)
    (val : MapVal P) :
    ∃ chains' frees' p he, Found (memFindEntry mem key (some val)).1
      (findEntry ht key (some val)).1 chains' frees'
      (memFindEntry mem key (some val)).2 (findEntry ht key (some val)).2 p he := by
  by_cases hex : ∃ he ∈ ht.entries, he.key = key
  · obtain ⟨hmem, hht, p, he, hfound⟩ := h.find_hit hwf hex (some val)
    rw [hmem, hht]
    exact ⟨chains, frees, p, he, hfound⟩
  · have hnone : ∀ he ∈ ht.entries, he.key ≠ key := fun he hin hk => hex ⟨he, hin, hk⟩
    obtain ⟨hload, hscan⟩ := h.find_miss hwf hnone
    have hi : (linkOf ht key).bucket < chains.length := by
      rw [h.length]
      exact linkOf_bucket_lt hwf key
    have hadd := h.add hi rfl val
    have hmem : memFindEntry mem key (some val) =
        (mem.addEntry (mem.scanFor key) key val, mem.scanFor key) := by
      simp only [memFindEntry, hload]
    obtain ⟨he, hfound⟩ := hadd.found (Buckets.bucket_set_self hi _)
    have hpos : (linkOf ht key).pos = (Buckets.bucket chains (linkOf ht key).bucket).length := by
      rw [h.bucket_length, ← linkOf_miss hwf hnone]
    have hlink : linkOf ht key =
        Hep.mk (linkOf ht key).bucket (Buckets.bucket chains (linkOf ht key).bucket).length := by
      rw [← hpos]
    rw [hmem, findEntry_miss_some hwf hnone, hscan, hlink]
    exact ⟨_, _, _, he, hfound⟩

/-- Step lemma: a call on the memory and on the map. -/
theorem Holds.store {m : AbsMap P} (h : Holds mem ht chains frees) (href : Refines ht m)
    (caller : Caller P) (key : ShKey)
    (flag : UInt32) (val : Option P) (size : Int) : ∃ chains' frees',
      Holds (memStore caller mem key flag val size)
        (shmapStore caller ht key flag val size) chains' frees' := by
  unfold memStore memSetEnt shmapStore shmapSetEnt
  rcases shmapData caller flag val size with err | ⟨data, flag', size'⟩
  · exact ⟨chains, frees, h⟩
  · cases data with
    | none =>
      by_cases hex : ∃ he ∈ ht.entries, he.key = key
      · obtain ⟨hmem, hht, p, he, hfound⟩ := h.find_hit href.wf hex none
        obtain ⟨i, front, tail, hbucket, hlink, hhep⟩ := hfound.place
        simp only [hmem, hht, hfound.load, hfound.deref]
        rw [hlink, hhep]
        exact ⟨_, _, h.unlink hbucket⟩
      · have hnone : ∀ he ∈ ht.entries, he.key ≠ key := fun he hin hk => hex ⟨he, hin, hk⟩
        obtain ⟨hload, -⟩ := h.find_miss href.wf hnone
        have hmem : memFindEntry mem key none = (mem, mem.scanFor key) := by
          simp only [memFindEntry, hload]
        simp only [hmem, hload, findEntry_miss_none href.wf hnone, deref_linkOf_miss href.wf hnone]
        exact ⟨chains, frees, h⟩
    | some d =>
      obtain ⟨chains', frees', p, he, hfound⟩ := h.find_value href.wf key d
      obtain ⟨cur, hcur, hnext⟩ := store_refines href key flag' d size'
      obtain rfl := Option.some.inj (hcur.symm.trans hfound.deref)
      obtain ⟨i, front, tail, hbucket, hlink, hhep⟩ := hfound.place
      have hreplace := hfound.holds.replace hbucket hfound.entry flag' d size'
      rw [← hhep] at hreplace
      simp only [hfound.load, hfound.deref]
      rw [hreplace.max_eq, hreplace.count_eq]
      split
      · exact ⟨_, _, hreplace.expand hnext.wf⟩
      · exact ⟨_, _, hreplace⟩

/-- The memory after a sequence of calls on a new map. -/
def memRun (caller : Caller P) (calls : List (SetEnt P)) : MapMem P :=
  calls.foldl (fun mem call => memStore caller mem call.key call.flag call.val call.size) memInit

/-- Run lemma: the memory holds the map after every sequence of calls. -/
theorem memRun_holds (caller : Caller P) (calls : List (SetEnt P)) :
    (∃ m, Refines (mapAfter caller calls) m) ∧ ∃ chains frees, Holds (memRun caller calls)
    (mapAfter caller calls) chains frees := by
  induction calls using List.reverseRecOn with
  | nil => exact ⟨⟨_, shmapInit_refines⟩, _, _, memInit_holds⟩
  | append_singleton calls call ih =>
    obtain ⟨⟨m, href⟩, chains, frees, hholds⟩ := ih
    have hsnoc : memRun caller (calls ++ [call]) =
        memStore caller (memRun caller calls) call.key call.flag call.val call.size := by
      rw [memRun, List.foldl_append]
      rfl
    rw [hsnoc, mapAfter_snoc]
    exact ⟨store_wf href caller call.key call.flag call.val call.size,
      hholds.store href caller call.key call.flag call.val call.size⟩

end LibShare.Mem
