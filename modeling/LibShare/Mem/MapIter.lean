import LibShare.Mem.MapMem

/-!
# libshare — walking over an `shmap`

`shmap_first` and `shmap_next` of `shmem_map.c`. The iterator keeps the bucket that comes next and
the successor of the entry that it is at, which is read before the loop body runs. Unsetting the
entry relinks its chain and hangs it on the free list through the same `next` field; the saved
successor still leads to the rest of the chain (`unset_ahead`).

The index is an `unsigned int` and does not pass `max + 1`, which is less than `2 ^ 32`
(`memRun_max`).

* `iteration_visits_once` — what a loop visits whose body unsets some of the entries that it is at.
-/

namespace LibShare.Mem

open Links

variable {P : Type}

/-- `shmap_index_t` -/
structure ShmapIndex where
  tthis : Nat
  next : Option Nat
  index : Nat

/-- `shmap_next`, where the iterator has this successor and this index. -/
def shmapNext (mem : MapMem P) (next : Option Nat) (index : Nat) : Option ShmapIndex :=
  (mem.walk mem.max.toNat next index).map fun found =>
    { tthis := found.1, next := mem.next found.1, index := found.2 }

/-- `shmap_first`. -/
def shmapFirst (mem : MapMem P) : Option ShmapIndex := shmapNext mem none 0

/-- `shmap_unset` of the key of an entry. -/
def unsetThis (caller : Caller P) (mem : MapMem P) (he : Nat) : MapMem P :=
  (mem.entry he).elim mem fun ent => memStore caller mem ent.key 0 none 0

/-- The loop over a map. Its body unsets the entry in the steps that are given. -/
def visit (caller : Caller P) (unsets : Nat → Bool) : Nat → Nat → MapMem P → Option ShmapIndex →
    Option (List Nat × MapMem P)
  | _, _, mem, none => some ([], mem)
  | 0, _, _, some _ => none
  | fuel + 1, step, mem, some hi =>
    let mem := if unsets step then unsetThis caller mem hi.tthis else mem
    (visit caller unsets fuel (step + 1) mem (shmapNext mem hi.next hi.index)).map fun rest =>
      (hi.tthis :: rest.1, rest.2)

variable {mem : MapMem P} {ht : Shmap P} {chains : List (List Nat)} {frees : List Nat}

/-- No two cells hold entries of one key. -/
theorem Holds.cell_unique (h : Holds mem ht chains frees) (hwf : ht.Wf) {p q : Nat}
    {a b : MapEntry P}
    (hp : p ∈ chains.flatten) (hq : q ∈ chains.flatten) (ha : mem.entry p = some a)
    (hb : mem.entry q = some b)
    (hkey : a.key = b.key) : p = q := by
  have hkeys : (chains.flatten.map fun p => (mem.entry p).map MapEntry.key) =
      ht.entries.map fun he => some he.key := by
    have hflat := congrArg (List.map (Option.map MapEntry.key)) h.flatten
    rwa [List.map_map, List.map_map] at hflat
  have hnodup : (chains.flatten.map fun p => (mem.entry p).map MapEntry.key).Nodup := by
    rw [hkeys]
    have hsome := hwf.nodup.map (Option.some_injective ShKey)
    rwa [List.map_map] at hsome
  refine List.inj_on_of_nodup_map hnodup hp hq ?_
  rw [ha, hb, Option.map_some, Option.map_some, hkey]

/-- Unsetting the entry that the walk is at. -/
theorem unset_ahead (caller : Caller P) {m : AbsMap P} (h : Holds mem ht chains frees)
    (href : Refines ht m) {p : Nat}
    {next : Option Nat} {index : Nat} {todo : List Nat} (hat : mem.At chains p next index todo) :
    ∃ ht' m' chains' frees', Refines ht' m' ∧ Holds (unsetThis caller mem p) ht' chains' frees' ∧
      chains'.length = chains.length ∧ (unsetThis caller mem p).Ahead chains' next index todo := by
  obtain ⟨j, front, tail, hindex, hbucket, hchain, htodo⟩ := hat.place
  obtain ⟨he, hfound⟩ := h.found hbucket
  have hentry := hfound.entry
  have hmem : he ∈ ht.entries := mem_entries_of_mem_chain (List.mem_of_getElem? hfound.deref)
  obtain ⟨hfind, hht, q, ent, hq⟩ := h.find_hit href.wf ⟨he, hmem, rfl⟩ none
  obtain ⟨i, front', tail', hbucket', hlink, hhep⟩ := hq.place
  -- the entry that is found is the one that the walk is at
  have hpin : p ∈ Buckets.bucket chains j := by simp [hbucket]
  have hqin : q ∈ Buckets.bucket chains i := by simp [hbucket']
  have hent : ent = he := by
    have hderef := deref_linkOf_hit href.wf hmem
    exact Option.some.inj (hq.deref.symm.trans hderef)
  obtain rfl : q = p :=
    h.cell_unique href.wf ((Buckets.bucket_sublist_flatten chains i).subset hqin)
    ((Buckets.bucket_sublist_flatten chains j).subset hpin) hq.entry hentry (by rw [hent])
  obtain rfl : i = j := by
    by_contra hij
    exact bucket_disjoint h.hangs.nodup hij hqin hpin
  have hcells := h.hangs.nodup.sublist (Buckets.bucket_sublist_flatten chains i)
  rw [hbucket] at hcells
  have hfront : q ∉ front :=
    fun hin => (List.nodup_append.mp hcells).2.2 q hin q List.mem_cons_self rfl
  have htail : q ∉ tail := (List.nodup_cons.mp hcells.of_append_right).1
  obtain ⟨rfl, -, rfl⟩ :=
    (List.append_cons_inj_of_notMem hfront htail).mp (hbucket.symm.trans hbucket')
  have hunset : unsetThis caller mem q = memUnlink mem (behind (.head i) front) q := by
    rw [unsetThis, hentry, Option.elim_some, ← hlink]
    simp only [memStore, memSetEnt, shmapData_null, hfind, hq.load]
  have hnext := h.unlink hbucket
  have href' : Refines (unlinkEntry ht (linkOf ht he.key)) (m.erase he.key) :=
    ⟨unlinkEntry_wf href.wf hmem, binds_of_drop href.binds (split_of_unlink href.wf hmem)⟩
  have hi := h.bucket_lt hbucket
  rw [hhep] at href'
  rw [hunset]
  refine ⟨_, _, _, _, href', hnext, List.length_set,
    ⟨front, tail, Or.inr ⟨i, hindex, Buckets.bucket_set_self hi _⟩, ?_, ?_⟩, fun k _ =>
      hnext.hangs.chain k⟩
  · -- the saved successor is the first cell of what is left of the chain
    have hlast := hnext.hangs.load (Buckets.bucket_set_self hi (front ++ tail))
    have hrest := hnext.hangs.chain i
    rw [Buckets.bucket_set_self hi] at hrest
    have hsaved : next = tail.head? := by
      cases tail with
      | nil => exact hchain
      | cons b tail => exact hchain.1
    rw [hsaved, ← hlast]
    exact chain_behind hrest
  · rw [htodo, hindex, List.drop_set_of_lt (Nat.lt_succ_self i)]

/-- The loop visits what the walk has not met yet, and ends. -/
theorem visit_spec (caller : Caller P) (unsets : Nat → Bool) :
    ∀ (todo : List Nat) {fuel step : Nat} {mem : MapMem P}
    {ht : Shmap P} {m : AbsMap P} {chains : List (List Nat)} {frees : List Nat} {next : Option Nat}
    {index : Nat}, todo.length ≤ fuel → Holds mem ht chains frees → Refines ht m →
    mem.Ahead chains next index todo →
    index ≤ chains.length → ∃ mem', visit caller unsets fuel step mem (shmapNext mem next index) =
      some (todo, mem') := by
  intro todo
  induction todo with
  | nil =>
    intro fuel step mem ht m chains frees next index _ h href hahead hindex
    have hlen : chains.length = mem.max.toNat + 1 := by rw [h.length, href.wf.length_eq, h.max_eq]
    rcases hahead.walk hlen (hlen ▸ hindex) with ⟨-, hwalk⟩ | ⟨p, index', rest, -, htodo, -⟩
    · refine ⟨mem, ?_⟩
      rw [shmapNext, hwalk, Option.map_none, visit]
    · cases htodo
  | cons p todo ih =>
    intro fuel step mem ht m chains frees next index hfuel h href hahead hindex
    obtain ⟨fuel, rfl⟩ :=
      Nat.exists_eq_succ_of_ne_zero (Nat.ne_of_gt (Nat.lt_of_lt_of_le (Nat.succ_pos _) hfuel))
    have hlen : chains.length = mem.max.toNat + 1 := by rw [h.length, href.wf.length_eq, h.max_eq]
    rcases hahead.walk hlen (hlen ▸ hindex) with ⟨htodo, -⟩ | ⟨q, index', rest, hwalk, htodo, hat⟩
    · cases htodo
    · obtain ⟨rfl, rfl⟩ := List.cons.inj htodo
      rw [shmapNext, hwalk, Option.map_some, visit]
      dsimp only
      split
      · -- the entry is unset
        obtain ⟨ht', m', chains', frees', href', h', hsame, hahead'⟩ :=
          unset_ahead caller h href hat
        obtain ⟨mem', hrest⟩ :=
          @ih fuel (step + 1) _ _ _ _ _ _ _ (Nat.le_of_succ_le_succ hfuel) h' href' hahead'
          (hsame ▸ hat.index_le)
        rw [hrest]
        exact ⟨mem', rfl⟩
      · obtain ⟨mem', hrest⟩ :=
          @ih fuel (step + 1) _ _ _ _ _ _ _ (Nat.le_of_succ_le_succ hfuel) h href hat.ahead
          hat.index_le
        rw [hrest]
        exact ⟨mem', rfl⟩

/-- The cells of the chains are those that have an entry. -/
theorem Holds.live_iff (h : Holds mem ht chains frees) (p : Nat) :
    p ∈ chains.flatten ↔ (mem.entry p).isSome := by
  constructor
  · intro hin
    have hmem := List.mem_map_of_mem (f := mem.entry) hin
    rw [h.flatten] at hmem
    obtain ⟨he, -, hhe⟩ := List.mem_map.mp hmem
    rw [← hhe]
    rfl
  · intro hsome
    by_contra hout
    rw [h.dead p hout] at hsome
    cases hsome

/-- After any calls, a loop that unsets the entries it is at in any of its steps visits each entry
once and ends. -/
theorem iteration_visits_once (caller : Caller P) (calls : List (SetEnt P))
    (unsets : Nat → Bool) : ∃ visited, (∀ fuel, visited.length ≤ fuel → ∃ mem',
      visit caller unsets fuel 0 (memRun caller calls)
        (shmapFirst (memRun caller calls)) = some (visited, mem')) ∧
    visited.Nodup ∧ ∀ p, p ∈ visited ↔ ((memRun caller calls).entry p).isSome := by
  obtain ⟨⟨m, href⟩, chains, frees, h⟩ := memRun_holds caller calls
  refine ⟨chains.flatten, fun fuel hfuel => ?_, h.hangs.nodup, h.live_iff⟩
  exact visit_spec caller unsets chains.flatten hfuel h href h.hangs.ahead (Nat.zero_le _)

/-! ## The index -/

/-- The masks of the maps that there are. -/
def MaxFits (max : UInt32) : Prop := max = initialMax ∨ max % 2 = 0

theorem MaxFits.lt {max : UInt32} (h : MaxFits max) : max.toNat + 1 < 2 ^ 32 := by
  have hlt := max.toNat_lt
  rcases h with rfl | heven
  · decide
  · have hnat : max.toNat % 2 = 0 := congrArg UInt32.toNat heven
    omega

theorem MaxFits.double (max : UInt32) : MaxFits (max * 2) := by
  refine Or.inr (UInt32.toNat_inj.mp ?_)
  rw [UInt32.toNat_mod, UInt32.toNat_mul]
  show max.toNat * 2 % 2 ^ 32 % 2 = 0
  omega

theorem findEntry_max (ht : Shmap P) (key : ShKey) (val : Option (MapVal P)) :
    (findEntry ht key val).1.max = ht.max := by
  simp only [findEntry]
  split <;> rfl

/-- A call keeps the mask or doubles it. -/
theorem store_max (caller : Caller P) (ht : Shmap P) (key : ShKey) (flag : UInt32) (val : Option P)
    (size : Int) :
    (shmapStore caller ht key flag val size).max = ht.max ∨
      (shmapStore caller ht key flag val size).max = ht.max * 2 := by
  unfold shmapStore shmapSetEnt
  rcases shmapData caller flag val size with err | ⟨data, flag', size'⟩
  · exact Or.inl rfl
  · dsimp only
    have hmax := findEntry_max ht key data
    generalize findEntry ht key data = found at hmax
    rcases hderef : found.1.deref found.2 with _ | cur
    · exact Or.inl hmax
    · cases data with
      | none => exact Or.inl hmax
      | some d =>
        dsimp only
        split
        · exact Or.inr (congrArg (· * 2) hmax)
        · exact Or.inl hmax

/-- The index of a walk fits into an `unsigned int`. -/
theorem memRun_max (caller : Caller P) (calls : List (SetEnt P)) :
    (memRun caller calls).max.toNat + 1 < 2 ^ 32 := by
  obtain ⟨-, chains, frees, h⟩ := memRun_holds caller calls
  have hmap : MaxFits (mapAfter caller calls).max := by
    clear h
    induction calls using List.reverseRecOn with
    | nil => exact Or.inl rfl
    | append_singleton calls call ih =>
      rw [mapAfter_snoc]
      rcases store_max caller (mapAfter caller calls) call.key call.flag call.val call.size
          with hsame | hdouble
      · rw [SetEnt.run, hsame]
        exact ih
      · rw [SetEnt.run, hdouble]
        exact MaxFits.double _
  rw [h.max_eq]
  exact hmap.lt

end LibShare.Mem
