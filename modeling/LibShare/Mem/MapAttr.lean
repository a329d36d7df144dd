import LibShare.Mem.MapPrint

/-!
# libshare — the attributes of `shmap` entries

The flag and the size of a store, as `shmap_get_ent`, `shmap_self` and `shmap_get_ptr_list` report
them, and the values that a later call frees (`shmem_map.c`).

A store of size zero is meant to be muted: its flag loses `SHMAP_ALLOC`, as no copy is made. The
code sets the other bits instead of clearing this one (`map_flag |= ~SHMAP_ALLOC`).

* **The call.** `SetEnt` is one call of `shmap_set_ent`, and `stores` is what the last calls have
  given for each key. A call that `calloc` refuses stores nothing.
* **The contents.** `Tracks` says that the entries are those of the last calls, with the flags that
  the code makes of them. What is reported and freed follows from it.
* `attributes_iff` — the sequences of calls after which all reports are right.
-/

namespace LibShare.Mem

variable {P : Type}

/-! ## Calls -/

/-- A call of `shmap_set_ent`. -/
structure SetEnt (P : Type) where
  key : ShKey
  flag : UInt32
  val : Option P
  size : Int

/-- The map after a call. -/
def SetEnt.run (caller : Caller P) (ht : Shmap P) (call : SetEnt P) : Shmap P :=
  shmapStore caller ht call.key call.flag call.val call.size

/-- The map after a sequence of calls on a new one. -/
def mapAfter (caller : Caller P) (calls : List (SetEnt P)) : Shmap P :=
  calls.foldl (SetEnt.run caller) shmapInit

/-- `shmap_self`: the key, the value, the size and the flag of an entry. -/
def shmapSelf (he : MapEntry P) : ShKey × MapVal P × Int × UInt32 :=
  (he.key, he.val, he.sz, he.flag)

/-- `shmap_get_ptr_list`. -/
def shmapGetPtrList (ht : Shmap P) : List (MapVal P) :=
  ht.entries.filterMap fun he => if he.flag &&& shmapBinary ≠ 0 then some he.val else none

/-- The entry that gives its value to `free` in a call, whether it is unset or replaced. -/
def SetEnt.frees (caller : Caller P) (ht : Shmap P) (call : SetEnt P) : Option (MapEntry P) :=
  match shmapData caller call.flag call.val call.size with
  | .error _ => none
  | .ok (data, _, _) =>
    let found := findEntry ht call.key data
    (found.1.deref found.2).filter fun old => old.flag &&& shmapAlloc != 0

/-! ## What is stored last -/

/-- What a call gives for a key. -/
structure Stored (P : Type) where
  flag : UInt32
  val : P
  size : Int

/-- No copy has a negative size. -/
def SetEnt.Refused (call : SetEnt P) : Prop :=
  call.val.isSome ∧ call.flag &&& shmapAlloc ≠ 0 ∧ call.size < 0

instance (call : SetEnt P) : Decidable call.Refused := inferInstanceAs (Decidable (_ ∧ _ ∧ _))

/-- What is stored for each key after a call. -/
def SetEnt.record (stored : ShKey → Option (Stored P)) (call : SetEnt P) :
    ShKey → Option (Stored P) :=
  if call.Refused then stored
  else Function.update stored call.key
    (call.val.map fun p => { flag := call.flag, val := p, size := call.size })

/-- What is stored for each key after a sequence of calls. -/
def stores (calls : List (SetEnt P)) : ShKey → Option (Stored P) :=
  calls.foldl SetEnt.record fun _ => none

/-- The flag that a store should have: a store of no bytes allocates nothing. -/
def Stored.attr (s : Stored P) : UInt32 :=
  if s.size = 0 then s.flag &&& ~~~ shmapAlloc else s.flag

/-- The value that a store should have. -/
def Stored.value (caller : Caller P) (s : Stored P) : MapVal P :=
  if s.attr &&& shmapAlloc ≠ 0 then .copy (caller.peek s.val s.size.toNat) else .ref s.val

/-- The flag that a store has. -/
def Stored.muted (s : Stored P) : UInt32 :=
  if s.size = 0 then s.flag ||| ~~~ shmapAlloc else s.flag

/-- The entry of a store. -/
def Stored.entry (caller : Caller P) (key : ShKey) (s : Stored P) : MapEntry P :=
  { hash := shmapHashNum key
    key := key
    val := if s.flag &&& shmapAlloc ≠ 0 then .copy (caller.peek s.val s.size.toNat) else .ref s.val
    sz := s.size
    flag := s.muted }

/-! ## The contents of the map -/

/-- The entries are those of the last calls. -/
structure Tracks (caller : Caller P) (ht : Shmap P)
    (stored : ShKey → Option (Stored P)) : Prop where
  refines : ∃ m, Refines ht m
  entries : ∀ he, he ∈ ht.entries ↔ ∃ s, stored he.key = some s ∧ he = s.entry caller he.key

variable {caller : Caller P} {ht : Shmap P} {stored : ShKey → Option (Stored P)}

theorem Tracks.wf (h : Tracks caller ht stored) : ht.Wf := h.refines.elim fun _ hm => hm.wf

theorem tracks_init : Tracks caller (shmapInit : Shmap P) fun _ => none := by
  refine ⟨⟨∅, shmapInit_refines⟩, fun he => ?_⟩
  rw [shmapInit_entries]
  constructor
  · exact fun hin => absurd hin List.not_mem_nil
  · rintro ⟨s, hs, -⟩
    cases hs

/-- What `shmap_set_ent` makes of a value that it stores. -/
theorem shmapData_entry {s : Stored P} (hrun : s.flag &&& shmapAlloc ≠ 0 → 0 ≤ s.size)
    (key : ShKey) :
    shmapData caller s.flag (some s.val) s.size =
      .ok (some (s.entry caller key).val, s.muted, s.size) := by
  have hbit : (s.flag ||| ~~~ shmapAlloc) &&& shmapAlloc = s.flag &&& shmapAlloc :=
    mute_and_alloc s.flag
  have hmuted : s.muted &&& shmapAlloc = s.flag &&& shmapAlloc := by
    unfold Stored.muted
    split
    · exact hbit
    · rfl
  have hcode : (if s.size = 0 then s.flag ||| ~~~ shmapAlloc else s.flag) = s.muted := rfl
  simp only [shmapData, Option.isNone_some, Bool.false_eq_true, if_false, hcode, hmuted,
    Stored.entry, Option.map_some]
  by_cases halloc : s.flag &&& shmapAlloc = 0
  · rw [if_neg (not_not.mpr halloc), if_neg (not_not.mpr halloc)]
  · rw [if_pos halloc, if_pos halloc, if_neg (Int.not_lt.mpr (hrun halloc))]

theorem mem_of_split {key : ShKey} {old : Option (MapEntry P)} {rest : List (MapEntry P)}
    (hs : Split ht key old rest)
    (he : MapEntry P) : he ∈ rest ↔ he ∈ ht.entries ∧ he.key ≠ key := by
  constructor
  · exact fun hin => ⟨hs.subset he hin, hs.rest_key he hin⟩
  · rintro ⟨hin, hkey⟩
    rcases List.mem_append.mp (hs.perm.mem_iff.mp hin) with hold | hrest
    · exact absurd (hs.old_key he (Option.mem_toList.mp hold)) hkey
    · exact hrest

/-- Step lemma: the entries are those of the last calls after one more. -/
theorem Tracks.step (h : Tracks caller ht stored) (call : SetEnt P) :
    Tracks caller (call.run caller ht) (call.record stored) := by
  obtain ⟨m, hm⟩ := h.refines
  have hnext : ∃ m', Refines (call.run caller ht) m' :=
    store_wf hm caller call.key call.flag call.val call.size
  refine ⟨hnext, fun he => ?_⟩
  unfold SetEnt.record
  split
  · next hrefused =>
    -- nothing is stored
    obtain ⟨hval, halloc, hneg⟩ := hrefused
    obtain ⟨p, hp⟩ := Option.isSome_iff_exists.mp hval
    have hsame : call.run caller ht = ht := by
      rw [SetEnt.run, shmapStore, shmapSetEnt, hp, shmapData_negative caller halloc p hneg]
    rw [hsame]
    exact h.entries he
  · next hrun =>
    cases hval : call.val with
    | none =>
      -- the entry is unset
      have hdata : shmapData caller call.flag call.val call.size =
          .ok (none, ~~~ shmapAlloc, 0) := by
        rw [hval]
        exact shmapData_null caller call.flag call.size
      obtain ⟨old, hsplit⟩ := @store_none_split _ _ h.wf _ call.key _ _ _ _ _ hdata
      rw [SetEnt.run, mem_of_split hsplit, h.entries]
      by_cases hkey : he.key = call.key
      · rw [hkey, Option.map_none, Function.update_self]
        exact iff_of_false (fun hand => hand.2 rfl) (by rintro ⟨_, hs, _⟩; cases hs)
      · rw [Function.update_of_ne hkey, and_iff_left hkey]
    | some p =>
      -- the entry is replaced, or a new one
      have hpos : (Stored.mk call.flag p call.size).flag &&& shmapAlloc ≠ 0 →
          0 ≤ (Stored.mk call.flag p call.size).size :=
        fun halloc => Int.not_lt.mp fun hneg => hrun ⟨by rw [hval]; rfl, halloc, hneg⟩
      have hdata := @shmapData_entry _ caller (Stored.mk call.flag p call.size) hpos call.key
      have hdata : shmapData caller call.flag call.val call.size = _ :=
          (congrArg (shmapData caller call.flag · call.size) hval).trans hdata
      obtain ⟨old, rest, hsplit, hperm⟩ := @store_perm _ _ h.wf _ call.key _ _ _ _ _ _ hdata
      rw [SetEnt.run, hperm.mem_iff, List.mem_cons, mem_of_split hsplit, h.entries]
      by_cases hkey : he.key = call.key
      · rw [hkey, Option.map_some, Function.update_self]
        constructor
        · rintro (rfl | ⟨-, hne⟩)
          · exact ⟨_, rfl, rfl⟩
          · exact absurd rfl hne
        · rintro ⟨s, hs, hhe⟩
          rw [← Option.some.inj hs] at hhe
          exact Or.inl hhe
      · rw [Function.update_of_ne hkey, and_iff_left hkey]
        refine ⟨fun hor => hor.resolve_left ?_, Or.inr⟩
        rintro rfl
        exact hkey rfl

theorem mapAfter_snoc (calls : List (SetEnt P)) (call : SetEnt P) :
    mapAfter caller (calls ++ [call]) = call.run caller (mapAfter caller calls) := by
  rw [mapAfter, List.foldl_append]
  rfl

theorem stores_snoc (calls : List (SetEnt P)) (call : SetEnt P) :
    stores (calls ++ [call]) = call.record (stores calls) := by
  rw [stores, List.foldl_append]
  rfl

/-- Run lemma: the entries are those of the last calls after any sequence of them. -/
theorem tracks_run (caller : Caller P) (calls : List (SetEnt P)) :
    Tracks caller (mapAfter caller calls) (stores calls) := by
  induction calls using List.reverseRecOn with
  | nil => exact tracks_init
  | append_singleton calls call ih =>
    rw [mapAfter_snoc, stores_snoc]
    exact ih.step call

/-! ## What is reported and freed -/

/-- The reports are those of the last stores, and only what is allocated is freed. -/
structure Reported (caller : Caller P) (ht : Shmap P)
    (stored : ShKey → Option (Stored P)) : Prop where
  get : ∀ key, (shmapGetEnt ht key).2 = (stored key).elim 0 Stored.attr
  self : ∀ he ∈ ht.entries, ∃ s, stored he.key = some s ∧ (shmapSelf he).2.2 = (s.size, s.attr)
  all : ∀ key s, stored key = some s → ∃ he ∈ ht.entries, he.key = key
  list : shmapGetPtrList ht = ht.entries.filterMap fun he =>
    (stored he.key).bind fun s => if s.flag &&& shmapBinary ≠ 0 then some (s.value caller) else none
  frees : ∀ call he, SetEnt.frees caller ht call = some he →
    ∃ s, stored he.key = some s ∧ s.flag &&& shmapAlloc ≠ 0 ∧ s.size ≠ 0

/-- A store whose flag is the one that it should have. -/
def Stored.Exact (s : Stored P) : Prop := s.size ≠ 0 ∨ s.flag = ~~~ shmapAlloc

theorem or_eq_and_iff {flag mask : UInt32} : flag ||| mask = flag &&& mask ↔ flag = mask := by
  constructor
  · intro h
    rw [← UInt32.toBitVec_inj] at h ⊢
    ext i hi
    have hbit := congrArg (fun bits => bits[i]) h
    simp only [UInt32.toBitVec_or, UInt32.toBitVec_and, BitVec.getElem_or,
      BitVec.getElem_and] at hbit
    cases hflag : flag.toBitVec[i] <;> cases hmask : mask.toBitVec[i] <;> simp_all
  · rintro rfl
    rw [UInt32.or_self, UInt32.and_self]

theorem muted_eq_attr_iff (s : Stored P) : s.muted = s.attr ↔ s.Exact := by
  unfold Stored.muted Stored.attr Stored.Exact
  split
  · next hsize =>
    rw [or_eq_and_iff]
    exact (or_iff_right (not_not.mpr hsize)).symm
  · next hsize => exact iff_of_true rfl (Or.inl hsize)

theorem Tracks.get (h : Tracks caller ht stored) (key : ShKey) :
    (shmapGetEnt ht key).2 = (stored key).elim 0 Stored.muted := by
  cases hs : stored key with
  | none =>
    have hnone : ∀ he ∈ ht.entries, he.key ≠ key := by
      rintro he hin rfl
      obtain ⟨s, hsome, -⟩ := (h.entries he).mp hin
      rw [hs] at hsome
      cases hsome
    simp only [shmapGetEnt, findEntry_miss_none h.wf hnone, deref_linkOf_miss h.wf hnone,
      Option.elim_none]
  | some s =>
    have hin : s.entry caller key ∈ ht.entries := (h.entries _).mpr ⟨s, hs, rfl⟩
    have hhit := findEntry_hit h.wf hin none
    have hd := deref_linkOf_hit h.wf hin
    have hkey : (s.entry caller key).key = key := rfl
    rw [hkey] at hhit hd
    simp only [shmapGetEnt, hhit, hd, Option.elim_some]
    rfl

/-- What a call frees is the value of an entry that has `SHMAP_ALLOC`. -/
theorem frees_spec (h : ht.Wf) {call : SetEnt P} {he : MapEntry P}
    (hfree : call.frees caller ht = some he) :
    he ∈ ht.entries ∧ he.flag &&& shmapAlloc ≠ 0 := by
  unfold SetEnt.frees at hfree
  split at hfree
  · cases hfree
  · next data _ _ hdata =>
    obtain ⟨hd, halloc⟩ := Option.filter_eq_some_iff.mp hfree
    rw [bne_iff_ne] at halloc
    refine ⟨?_, halloc⟩
    by_cases hex : ∃ e ∈ ht.entries, e.key = call.key
    · obtain ⟨e, hin, hkey⟩ := hex
      rw [← hkey, findEntry_hit h hin] at hd
      rw [deref_linkOf_hit h hin] at hd
      rwa [← Option.some.inj hd]
    · have hnone : ∀ e ∈ ht.entries, e.key ≠ call.key := fun e hin hk => hex ⟨e, hin, hk⟩
      cases data with
      | none =>
        rw [findEntry_miss_none h hnone, deref_linkOf_miss h hnone] at hd
        cases hd
      | some data =>
        -- the new entry has no flag yet
        have happ := appendEntry_perm h call.key data
        have hmem : newEntry call.key data ∈ (appendEntry ht call.key data).entries :=
          happ.mem_iff.mpr List.mem_cons_self
        have hnew := deref_linkOf_hit (appendEntry_wf h hnone data) hmem
        rw [linkOf_append h hnone data] at hnew
        rw [findEntry_miss_some h hnone, hnew] at hd
        rw [← Option.some.inj hd] at halloc
        exact absurd (UInt32.zero_and) halloc

theorem attr_alloc {s : Stored P} (h : s.attr &&& shmapAlloc ≠ 0) :
    s.flag &&& shmapAlloc ≠ 0 ∧ s.size ≠ 0 := by
  unfold Stored.attr at h
  split at h
  · rw [UInt32.and_assoc] at h
    exact absurd (UInt32.and_zero) h
  · next hsize => exact ⟨h, hsize⟩

theorem attr_binary (s : Stored P) : s.attr &&& shmapBinary = s.flag &&& shmapBinary := by
  unfold Stored.attr
  split
  · rw [UInt32.and_assoc]
    rfl
  · rfl

theorem Stored.Exact.value {s : Stored P} (h : s.Exact) (key : ShKey) :
    (s.entry caller key).val = s.value caller := by
  have hbit : s.attr &&& shmapAlloc = s.flag &&& shmapAlloc := by
    unfold Stored.attr
    split
    · next hsize =>
      rw [h.resolve_left (not_not.mpr hsize)]
      rfl
    · rfl
  rw [Stored.value, hbit, Stored.entry]

/-- The reports are right if every flag is the one that it should be. -/
theorem Tracks.reported_iff (h : Tracks caller ht stored) :
    Reported caller ht stored ↔ ∀ key s, stored key = some s → s.Exact := by
  constructor
  · intro hrep key s hs
    have hget := hrep.get key
    rw [h.get, hs] at hget
    exact (muted_eq_attr_iff s).mp hget
  · intro hexact
    refine ⟨fun key => ?_, fun he hin => ?_, fun key s hs => ?_, ?_, fun call he hfree => ?_⟩
    · rw [h.get]
      cases hs : stored key with
      | none => rfl
      | some s => exact (muted_eq_attr_iff s).mpr (hexact key s hs)
    · obtain ⟨s, hs, hhe⟩ := (h.entries he).mp hin
      refine ⟨s, hs, ?_⟩
      rw [hhe, shmapSelf, ← (muted_eq_attr_iff s).mpr (hexact _ s hs)]
      rfl
    · exact ⟨s.entry caller key, (h.entries _).mpr ⟨s, hs, rfl⟩, rfl⟩
    · -- entry by entry
      refine List.filterMap_congr fun he hin => ?_
      obtain ⟨s, hs, hhe⟩ := (h.entries he).mp hin
      have hflag : he.flag = s.attr := by
        rw [hhe, ← (muted_eq_attr_iff s).mpr (hexact _ s hs)]
        rfl
      have hval : he.val = s.value caller := by
        rw [hhe]
        exact (hexact _ s hs).value he.key
      rw [hs, Option.bind_some, hflag, attr_binary, hval]
    · obtain ⟨hin, halloc⟩ := frees_spec h.wf hfree
      obtain ⟨s, hs, hhe⟩ := (h.entries he).mp hin
      have hflag : he.flag = s.attr := by
        rw [hhe, ← (muted_eq_attr_iff s).mpr (hexact _ s hs)]
        rfl
      rw [hflag] at halloc
      exact ⟨s, hs, attr_alloc halloc⟩

/-- A call that stores. -/
theorem record_some {call : SetEnt P} {p : P} (hval : call.val = some p) (hsize : 0 ≤ call.size)
    (stored : ShKey → Option (Stored P)) :
    call.record stored call.key = some { flag := call.flag, val := p, size := call.size } := by
  unfold SetEnt.record
  rw [if_neg fun hrefused => absurd hrefused.2.2 (Int.not_lt.mpr hsize), hval, Function.update_self]
  rfl

/-- What is stored is what some call has given. -/
theorem stores_mem :
    ∀ (calls : List (SetEnt P)) {key : ShKey} {s : Stored P}, stores calls key = some s →
    ∃ call ∈ calls, call.val = some s.val ∧ call.flag = s.flag ∧ call.size = s.size := by
  intro calls
  induction calls using List.reverseRecOn with
  | nil => exact fun h => nomatch h
  | append_singleton calls call ih =>
    intro key s h
    rw [stores_snoc, SetEnt.record] at h
    have hold : stores calls key = some s → ∃ other ∈ calls ++ [call], other.val = some s.val ∧
        other.flag = s.flag ∧ other.size = s.size := fun h => by
      obtain ⟨other, hin, hother⟩ := ih h
      exact ⟨other, List.mem_append_left _ hin, hother⟩
    split at h
    · exact hold h
    · by_cases hkey : key = call.key
      · rw [hkey, Function.update_self] at h
        obtain ⟨p, hp, rfl⟩ := Option.map_eq_some_iff.mp h
        exact ⟨call, List.mem_append_right _ (List.mem_singleton_self call), hp, rfl, rfl⟩
      · rw [Function.update_of_ne hkey] at h
        exact hold h

/-- After every call the reports are those of the last stores, if no store is of size zero but
those whose flag is all that the code sets in it. -/
theorem attributes_iff (caller : Caller P) (calls : List (SetEnt P)) :
    (∀ done, done <+: calls → Reported caller (mapAfter caller done) (stores done)) ↔
      ∀ call ∈ calls, call.val = none ∨ call.size ≠ 0 ∨ call.flag = ~~~ shmapAlloc := by
  constructor
  · intro hrep call hin
    obtain ⟨before, after, hcalls⟩ := List.append_of_mem hin
    have hprefix : before ++ [call] <+: calls := ⟨after, by rw [hcalls, List.append_assoc]; rfl⟩
    -- after the call the record is reported, which needs the flag to be right
    have hexact := (tracks_run caller (before ++ [call])).reported_iff.mp (hrep _ hprefix)
    cases hval : call.val with
    | none => exact Or.inl rfl
    | some p =>
      refine Or.inr ?_
      by_cases hsize : call.size = 0
      · have hrecord := record_some hval hsize.ge (stores before)
        rw [← stores_snoc] at hrecord
        exact hexact _ _ hrecord
      · exact Or.inl hsize
  · rintro hcalls done ⟨after, rfl⟩
    refine (tracks_run caller done).reported_iff.mpr fun key s hs => ?_
    obtain ⟨call, hin, hval, hflag, hsize⟩ := stores_mem done hs
    rcases hcalls call (List.mem_append_left _ hin) with hnone | hexact
    · rw [hnone] at hval
      cases hval
    · rwa [hsize, hflag] at hexact

set_option maxRecDepth 4096 in
/-- A pointer that `shmap_set` stores has all flags but one, and is listed as a binary segment. -/
theorem plain_store_binary :
    (shmapGetEnt (mapAfter zeroMemory [⟨ashkeyBlank, 0, some (), 0⟩]) ashkeyBlank).2 = 0xFFFFFFFE ∧
      shmapGetPtrList (mapAfter zeroMemory [⟨ashkeyBlank, 0, some (), 0⟩]) = [.ref ()] := by
  decide

end LibShare.Mem
