import LibShare.Mem.Buf
import LibShare.Mem.MapRefine

/-!
# libshare — printing and loading a map

`shmap_print` appends one record for each entry to a buffer: a `shmap_value_t` header and
the bytes of the value, back to back. `shmap_load` goes over the records again and stores a
copy of each value.

What is loaded is what was printed (`print_load_iff`): the size in the header leads from one
record to the next whatever the values hold, and a map has no key twice. The one limit is
the buffer, whose allocation must stay below 2^31 bytes (`Fits`).
-/

namespace LibShare.Mem

variable {P : Type}

/-! ## Records -/

/-- `SHMEM32_MAGIC`. -/
def shmem32Magic : UInt32 := 0x22888822

/-- `sizeof(shmap_value_t)`: four words, a key, the size, and two reserved words of 64 bits. -/
def sizeofMapValue : Nat := 72

/-- The bytes of a `shmap_value_t`. -/
def mapValue (crc stamp pf : UInt32) (name : ShKey) (sz : UInt64) : Bytes :=
  leBytes32 shmem32Magic ++ (leBytes32 crc ++ (leBytes32 stamp ++ (leBytes32 pf ++
    (name.toBytes ++ (leBytes64 sz ++ List.replicate 16 0)))))

/-- The bytes of a value. -/
def MapEntry.bytes (caller : Caller P) (he : MapEntry P) : Bytes :=
  match he.val with
  | .ref p => caller.peek p he.sz.toNat
  | .copy data => data

/-- The record of an entry. -/
def MapEntry.header (caller : Caller P) (stamp : UInt32) (he : MapEntry P) : Bytes :=
  mapValue (shcrc32 (he.bytes caller)) stamp (he.flag &&& ~~~shmapAlloc) he.key
    (UInt64.ofNat he.sz.toNat)

/-- The loop of `shmap_print`. A negative size would be taken for one of 2^63 bytes or more. -/
def printLoop (caller : Caller P) (stamp : Nat → UInt32) :
    Nat → List (MapEntry P) → Shbuf → Option Shbuf
  | _, [], buf => some buf
  | i, he :: rest, buf =>
    if he.sz = 0 then printLoop caller stamp i rest buf
    else if he.sz < 0 then none
    else
      match shbufCat buf (he.header caller (stamp i)) with
      | none => none
      | some buf =>
        match shbufCat buf (he.bytes caller) with
        | none => none
        | some buf => printLoop caller stamp (i + 1) rest buf

/-- `shmap_print`; the stamps are the times of the records. -/
def shmapPrint (caller : Caller P) (stamp : Nat → UInt32) (ht : Shmap P) (buf : Shbuf) :
    Option Shbuf :=
  printLoop caller stamp 0 ht.entries buf

/-- A buffer as the memory of a caller: the pointers are offsets. -/
def Shbuf.caller (buf : Shbuf) : Caller Nat where
  peek := fun of n => slice buf.data of n
  strlen := fun of => ((slice buf.data of (buf.dataMax - of)).takeWhile (· ≠ 0)).length

/-- A number of 64 bits as an `ssize_t`. -/
def ssize (sz : Nat) : Int := if sz < 2 ^ 63 then sz else (sz : Int) - 2 ^ 64

/-- The loop of `shmap_load`, from an offset on. A value that reaches beyond the allocation has no
result, and neither has a loop that does not end. -/
def loadLoop (buf : Shbuf) : Nat → Nat → Shmap Nat → Option (Shmap Nat)
  | 0, _, _ => none
  | fuel + 1, of, ht =>
    if of < buf.dataOf then
      let data := of + sizeofMapValue
      if buf.dataOf < data then some ht
      -- no record starts here
      else if leWord32 (slice buf.data of 4) ≠ shmem32Magic then loadLoop buf fuel data ht
      else
        let pf := leWord32 (slice buf.data (of + 12) 4)
        let name := ShKey.ofBytes (slice buf.data (of + 16) 32)
        let sz := (leWord64 (slice buf.data (of + 48) 8)).toNat
        if sz = 0 then loadLoop buf fuel data ht
        else if sz < 2 ^ 63 ∧ buf.dataMax < data + sz then none
        else
          let ht := shmapStore buf.caller ht name (pf ||| shmapAlloc) (some data) (ssize sz)
          loadLoop buf fuel ((data + sz) % 2 ^ 64) ht
    else some ht

/-- `shmap_load`. -/
def shmapLoad (fuel : Nat) (ht : Shmap Nat) (buf : Shbuf) : Option (Shmap Nat) :=
  loadLoop buf fuel 0 ht

/-- What the map holds under a key: the bytes of the value and its size. -/
def Shmap.content (caller : Caller P) (ht : Shmap P) (key : ShKey) : Option (Bytes × Int) :=
  (ht.deref (findEntry ht key none).2).map fun he => (he.bytes caller, he.sz)

/-- Every value has a size. `ssize_t` has no others, and a negative number is no size. -/
def Shmap.Sized (ht : Shmap P) : Prop := ∀ he ∈ ht.entries, 0 < he.sz ∧ he.sz < 2 ^ 63

/-- The length of what is printed. -/
def Shmap.printedSize (ht : Shmap P) : Nat :=
  (ht.entries.map fun he => sizeofMapValue + he.sz.toNat).sum

/-! ## Reading a record -/

/-- Two byte strings in a row. -/
theorem slice_eq_append {d : Memory} {a n : Nat} {x y : Bytes} (h : slice d a n = x ++ y) :
    slice d a x.length = x ∧ slice d (a + x.length) y.length = y := by
  have hlen : n = x.length + y.length := by
    rw [← List.length_append, ← h, length_slice]
  rw [hlen, slice_append] at h
  exact List.append_inj h (length_slice _ _ _)

theorem length_mapValue (crc stamp pf : UInt32) (name : ShKey) (sz : UInt64) :
    (mapValue crc stamp pf name sz).length = sizeofMapValue := by
  simp only [mapValue, List.length_append, length_toBytes, List.length_replicate]
  rfl

/-- The fields that `shmap_load` reads. -/
theorem mapValue_fields {d : Memory} {of : Nat} {crc stamp pf : UInt32} {name : ShKey} {sz : UInt64}
    (h : slice d of sizeofMapValue = mapValue crc stamp pf name sz) :
    leWord32 (slice d of 4) = shmem32Magic ∧ leWord32 (slice d (of + 12) 4) = pf ∧
      ShKey.ofBytes (slice d (of + 16) 32) = name ∧ leWord64 (slice d (of + 48) 8) = sz := by
  have hkey := length_toBytes name
  obtain ⟨hmagic, h⟩ := slice_eq_append h
  obtain ⟨-, h⟩ := slice_eq_append h
  obtain ⟨-, h⟩ := slice_eq_append h
  obtain ⟨hpf, h⟩ := slice_eq_append h
  obtain ⟨hname, h⟩ := slice_eq_append h
  obtain ⟨hsz, -⟩ := slice_eq_append h
  rw [hkey] at hname hsz
  have hpf : slice d (of + 12) 4 = leBytes32 pf := hpf
  have hname : slice d (of + 16) 32 = name.toBytes := hname
  have hsz : slice d (of + 48) 8 = leBytes64 sz := hsz
  have hmagic : slice d of 4 = leBytes32 shmem32Magic := hmagic
  rw [hmagic, hpf, hname, hsz]
  exact ⟨leWord32_leBytes32 _, leWord32_leBytes32 _, ofBytes_toBytes _, leWord64_leBytes64 _⟩

/-! ## Printing -/

/-- The records of the entries. -/
def printed (caller : Caller P) (stamp : Nat → UInt32) : Nat → List (MapEntry P) → Bytes
  | _, [] => []
  | i, he :: rest =>
    he.header caller (stamp i) ++ (he.bytes caller ++ printed caller stamp (i + 1) rest)

/-- The bytes of a value are as many as its size says. -/
def MapEntry.Whole (caller : Caller P) (he : MapEntry P) : Prop :=
  0 < he.sz ∧ he.sz < 2 ^ 63 ∧ (he.bytes caller).length = he.sz.toNat

/-- The printed records have the lengths of their headers and contents. -/
theorem length_printed {caller : Caller P} {stamp : Nat → UInt32} : ∀ {es : List (MapEntry P)},
    (∀ he ∈ es, he.Whole caller) → ∀ i, (printed caller stamp i es).length =
      (es.map fun he => sizeofMapValue + he.sz.toNat).sum := by
  intro es
  induction es with
  | nil => exact fun _ _ => rfl
  | cons he rest ih =>
    intro hwhole i
    rw [printed, List.length_append, List.length_append, MapEntry.header, length_mapValue,
      (hwhole he List.mem_cons_self).2.2, ih (fun he' hmem =>
        hwhole he' (List.mem_cons_of_mem _ hmem)),
      List.map_cons, List.sum_cons, Nat.add_assoc]

/-- The records are appended if the buffer can hold them. -/
theorem printLoop_spec {caller : Caller P} {stamp : Nat → UInt32} :
    ∀ {es : List (MapEntry P)} {i : Nat} {buf : Shbuf}, (∀ he ∈ es, he.Whole caller) →
      buf.dataOf ≤ buf.dataMax → Fits buf.dataOf →
    if Fits (buf.dataOf + (printed caller stamp i es).length) then
      ∃ buf', printLoop caller stamp i es buf = some buf' ∧
        buf'.contents = buf.contents ++ printed caller stamp i es ∧ buf'.dataOf ≤ buf'.dataMax
    else printLoop caller stamp i es buf = none := by
  intro es
  induction es with
  | nil =>
    intro i buf _ hle hfits
    rw [if_pos (by exact hfits)]
    exact ⟨buf, rfl, (List.append_nil _).symm, hle⟩
  | cons he rest ih =>
    intro i buf hwhole hle hfits
    obtain ⟨hpos, -, hlen⟩ := hwhole he List.mem_cons_self
    have hrest : ∀ he' ∈ rest, he'.Whole caller :=
      fun he' hmem => hwhole he' (List.mem_cons_of_mem _ hmem)
    have htotal : (printed caller stamp i (he :: rest)).length =
        (he.header caller (stamp i)).length +
        ((he.bytes caller).length + (printed caller stamp (i + 1) rest).length) := by
      rw [printed, List.length_append, List.length_append]
    rw [printLoop, if_neg (Int.ne_of_gt hpos), if_neg (Int.not_lt.mpr (Int.le_of_lt hpos)), htotal]
    have hhead := shbufCat_spec hle (he.header caller (stamp i))
    by_cases hfit : Fits (buf.dataOf + (he.header caller (stamp i)).length)
    · rw [if_pos hfit] at hhead
      obtain ⟨buf1, hcat1, hcont1, hle1⟩ := hhead
      have hof1 : buf1.dataOf = buf.dataOf + (he.header caller (stamp i)).length := by
        rw [← Shbuf.length_contents, hcont1, List.length_append, Shbuf.length_contents]
      have hval := shbufCat_spec hle1 (he.bytes caller)
      rw [hcat1]
      dsimp only
      by_cases hfit1 : Fits (buf1.dataOf + (he.bytes caller).length)
      · rw [if_pos hfit1] at hval
        obtain ⟨buf2, hcat2, hcont2, hle2⟩ := hval
        have hof2 : buf2.dataOf = buf1.dataOf + (he.bytes caller).length := by
          rw [← Shbuf.length_contents, hcont2, List.length_append, Shbuf.length_contents]
        have hnext := @ih (i + 1) buf2 hrest hle2 (by rwa [hof2])
        rw [hcat2]
        dsimp only
        rw [hof2, hof1, Nat.add_assoc, Nat.add_assoc] at hnext
        rw [hcont2, hcont1] at hnext
        simpa only [printed, List.append_assoc] using hnext
      · rw [if_neg hfit1] at hval
        rw [hval]
        rw [if_neg fun hcon => hfit1 (hcon.mono (by omega))]
    · rw [if_neg hfit] at hhead
      rw [hhead, if_neg fun hcon => hfit (hcon.mono (by omega))]

/-! ## Storing -/

/-- An expansion that may happen loses no entry. -/
theorem expand_entries_perm (ht : Shmap P) :
    (if ht.max < ht.count then expandArray ht else ht).entries.Perm ht.entries := by
  split
  · exact expandArray_entries_perm ht
  · exact List.Perm.refl _

/-- What is left after a split are entries of the map. -/
theorem Split.subset {ht : Shmap P} {key : ShKey} {old : Option (MapEntry P)}
    {rest : List (MapEntry P)}
    (hs : Split ht key old rest) : ∀ he ∈ rest, he ∈ ht.entries :=
  fun _ hin => hs.perm.mem_iff.mpr (List.mem_append_right _ hin)

/-- A key without an entry has no old one. -/
theorem Split.perm_of_miss {ht : Shmap P} {key : ShKey} {old : Option (MapEntry P)}
    {rest : List (MapEntry P)}
    (hs : Split ht key old rest) (hnone : ∀ he ∈ ht.entries, he.key ≠ key) :
    rest.Perm ht.entries := by
  cases old with
  | none => exact hs.perm.symm
  | some he =>
    have hin : he ∈ ht.entries := hs.perm.mem_iff.mpr List.mem_cons_self
    exact absurd (hs.old_key he rfl) (hnone he hin)

/-- A value under a key: the entries of the other keys stay. -/
theorem store_perm {ht : Shmap P} (h : ht.Wf) {caller : Caller P} {key : ShKey}
    {flag flag' : UInt32}
    {val : Option P} {size size' : Int} {data : MapVal P}
    (hdata : shmapData caller flag val size = .ok (some data, flag', size')) :
    ∃ old rest, Split ht key old rest ∧ (shmapStore caller ht key flag val size).entries.Perm
        ({ hash := shmapHashNum key, key := key, val := data, sz := size', flag := flag' } ::
          rest) := by
  by_cases hex : ∃ he ∈ ht.entries, he.key = key
  · obtain ⟨he, hmem, rfl⟩ := hex
    have hlt := linkOf_bucket_lt h he.key
    have hd := deref_linkOf_hit h hmem
    have hrep := replaceEntry_perm hlt hd flag' data size'
    have hstore : shmapStore caller ht he.key flag val size =
        (if (replaceEntry ht (linkOf ht he.key) he flag' data size').max <
            (replaceEntry ht (linkOf ht he.key) he flag' data size').count then
          expandArray (replaceEntry ht (linkOf ht he.key) he flag' data size')
        else replaceEntry ht (linkOf ht he.key) he flag' data size') := by
      simp only [shmapStore, shmapSetEnt, hdata, findEntry_hit h hmem, hd]
    refine ⟨some he, _, split_of_unlink h hmem, ?_⟩
    rw [hstore, ← h.hashed he hmem]
    exact (expand_entries_perm _).trans hrep
  · -- the entry is appended and then filled in
    have hnone : ∀ he ∈ ht.entries, he.key ≠ key := fun he hin hk => hex ⟨he, hin, hk⟩
    have hwf := appendEntry_wf h hnone data
    have happ := appendEntry_perm h key data
    have hmem : newEntry key data ∈ (appendEntry ht key data).entries :=
      happ.mem_iff.mpr List.mem_cons_self
    have hlink : linkOf (appendEntry ht key data) (newEntry key data).key = linkOf ht key :=
      linkOf_append h hnone data
    have hlt := linkOf_bucket_lt hwf (newEntry key data).key
    have hd := deref_linkOf_hit hwf hmem
    rw [hlink] at hlt hd
    have hrep := replaceEntry_perm hlt hd flag' data size'
    have hunl := unlinkEntry_perm hlt hd
    have hrest : (unlinkEntry (appendEntry ht key data) (linkOf ht key)).entries.Perm ht.entries :=
      (List.perm_cons _).mp (hunl.symm.trans happ)
    have hstore : (shmapStore caller ht key flag val size).entries.Perm
        (replaceEntry (appendEntry ht key data) (linkOf ht key)
          (newEntry key data) flag' data size').entries := by
      simp only [shmapStore, shmapSetEnt, hdata, findEntry_miss_some h hnone, hd]
      exact expand_entries_perm _
    simp only [newEntry] at hrep hstore
    exact ⟨none, _, split_miss hnone, hstore.trans (hrep.trans (hrest.cons _))⟩

/-- The map is well formed. -/
theorem store_wf {ht : Shmap P} {m : AbsMap P} (h : Refines ht m) (caller : Caller P) (key : ShKey)
    (flag : UInt32)
    (val : Option P) (size : Int) : ∃ m', Refines (shmapStore caller ht key flag val size) m' :=
  ⟨_, run_refines h caller (.setEnt key flag val size)⟩

/-! ## Loading -/

/-- The entry that is loaded for one that was printed. -/
def MapEntry.loaded (caller : Caller P) (he : MapEntry P) : MapEntry Nat :=
  { hash := shmapHashNum he.key, key := he.key, val := .copy (he.bytes caller), sz := he.sz
    flag := he.flag &&& ~~~shmapAlloc ||| shmapAlloc }

@[simp] theorem loaded_key (caller : Caller P) (he : MapEntry P) :
    (he.loaded caller).key = he.key := by
  simp only [MapEntry.loaded]

@[simp] theorem loaded_sz (caller : Caller P) (he : MapEntry P) :
    (he.loaded caller).sz = he.sz := by
  simp only [MapEntry.loaded]

@[simp] theorem loaded_bytes (caller : Caller P) (caller' : Caller Nat) (he : MapEntry P) :
    (he.loaded caller).bytes caller' = he.bytes caller := by
  simp only [MapEntry.loaded, MapEntry.bytes]

/-- The flag ALLOC is set where it has been added. -/
theorem or_alloc (flag : UInt32) : (flag ||| shmapAlloc) &&& shmapAlloc ≠ 0 := by
  have hand : (flag ||| shmapAlloc) &&& shmapAlloc = shmapAlloc := by
    apply UInt32.toBitVec_inj.mp
    ext i hi
    simp only [UInt32.toBitVec_and, UInt32.toBitVec_or, BitVec.getElem_and, BitVec.getElem_or]
    cases shmapAlloc.toBitVec[i] <;> simp
  rw [hand]
  decide

/-- A value that is copied. -/
theorem shmapData_alloc (caller : Caller P) (flag : UInt32) (p : P) {size : Int}
    (hsize : 0 < size) :
    shmapData caller (flag ||| shmapAlloc) (some p) size =
      .ok (some (.copy (caller.peek p size.toNat)), flag ||| shmapAlloc, size) := by
  have hz : size ≠ 0 := Int.ne_of_gt hsize
  have hneg : ¬ size < 0 := Int.not_lt.mpr (Int.le_of_lt hsize)
  have hflag := or_alloc flag
  simp only [shmapData, Option.isNone_some, Bool.false_eq_true, if_false, if_neg hz, if_pos hflag,
    if_neg hneg, Option.map_some]

/-- The size in a header. -/
theorem ofNat_size {sz : Int} (hpos : 0 < sz) (hlt : sz < 2 ^ 63) :
    (UInt64.ofNat sz.toNat).toNat = sz.toNat ∧ ssize sz.toNat = sz := by
  constructor
  · rw [UInt64.toNat_ofNat', Nat.mod_eq_of_lt (by omega)]
  · rw [ssize, if_pos (by omega)]
    omega

/-- One record: the value is stored under its key, and the next record follows. -/
theorem loadLoop_record {caller : Caller P} {stamp : UInt32} {he : MapEntry P}
    (hwhole : he.Whole caller)
    {buf : Shbuf} (hle : buf.dataOf ≤ buf.dataMax) (hmax : buf.dataOf < 2 ^ 64) {of : Nat}
    (hheader : slice buf.data of sizeofMapValue = he.header caller stamp)
    (hend : of + sizeofMapValue + he.sz.toNat ≤ buf.dataOf) (fuel : Nat) (ht : Shmap Nat) :
    loadLoop buf (fuel + 1) of ht = loadLoop buf fuel (of + sizeofMapValue + he.sz.toNat)
      (shmapStore buf.caller ht he.key (he.flag &&& ~~~shmapAlloc ||| shmapAlloc)
        (some (of + sizeofMapValue)) he.sz) := by
  obtain ⟨hpos, hlt, -⟩ := hwhole
  obtain ⟨hmagic, hpf, hname, hsz⟩ := mapValue_fields hheader
  obtain ⟨hsize, hssize⟩ := ofNat_size hpos hlt
  have hnat : 0 < he.sz.toNat := by omega
  rw [loadLoop, if_pos (by omega)]
  dsimp only
  rw [if_neg (by omega), if_neg (not_not.mpr hmagic), hsz, hsize,
    if_neg (by omega), if_neg (by omega), hpf, hname, hssize, Nat.mod_eq_of_lt (by omega)]

/-- All records: the loaded entries are those that were printed. -/
theorem loadLoop_printed {caller : Caller P} {stamp : Nat → UInt32} {buf : Shbuf}
    (hle : buf.dataOf ≤ buf.dataMax)
    (hmax : buf.dataOf < 2 ^ 64) :
    ∀ {es : List (MapEntry P)} {i of fuel : Nat} {ht : Shmap Nat}
      {m : AbsMap Nat}, (∀ he ∈ es, he.Whole caller) → (es.map MapEntry.key).Nodup →
    slice buf.data of (buf.dataOf - of) = printed caller stamp i es → of ≤ buf.dataOf →
      es.length < fuel →
    Refines ht m → (∀ he ∈ es, ∀ he' ∈ ht.entries, he'.key ≠ he.key) →
    ∃ ht' m', loadLoop buf fuel of ht = some ht' ∧ Refines ht' m' ∧
      ht'.entries.Perm (es.map (MapEntry.loaded caller) ++ ht.entries) := by
  intro es
  induction es with
  | nil =>
    intro i of fuel ht m _ _ hslice hof hfuel href _
    have hend : buf.dataOf = of := by
      have hlen := congrArg List.length hslice
      rw [length_slice] at hlen
      have hlen : buf.dataOf - of = 0 := hlen
      omega
    obtain ⟨fuel, rfl⟩ := Nat.exists_eq_succ_of_ne_zero (Nat.ne_of_gt hfuel)
    refine ⟨ht, m, ?_, href, List.Perm.refl _⟩
    rw [loadLoop, if_neg (by omega)]
  | cons he rest ih =>
    intro i of fuel ht m hwhole hnodup hslice hof hfuel href hfresh
    obtain ⟨fuel, rfl⟩ := Nat.exists_eq_succ_of_ne_zero (Nat.ne_of_gt (Nat.zero_lt_of_lt hfuel))
    have hhe := hwhole he List.mem_cons_self
    obtain ⟨hpos, hlt, hlen⟩ := hhe
    have hrestWhole : ∀ he' ∈ rest, he'.Whole caller :=
      fun he' hmem => hwhole he' (List.mem_cons_of_mem _ hmem)
    rw [List.map_cons, List.nodup_cons] at hnodup
    -- the header, the value and the other records
    have htotal := congrArg List.length hslice
    rw [length_slice, printed, List.length_append, List.length_append, MapEntry.header,
      length_mapValue, hlen] at htotal
    obtain ⟨hheader, hslice⟩ := slice_eq_append hslice
    obtain ⟨hvalue, hslice⟩ := slice_eq_append hslice
    rw [MapEntry.header, length_mapValue] at hheader hvalue hslice
    rw [hlen] at hvalue hslice
    rw [loadLoop_record (hwhole he List.mem_cons_self) hle hmax hheader (by omega)]
    have hdata := shmapData_alloc buf.caller (he.flag &&& ~~~shmapAlloc) (of + sizeofMapValue) hpos
    have hpeek : buf.caller.peek (of + sizeofMapValue) he.sz.toNat = he.bytes caller := hvalue
    rw [hpeek] at hdata
    obtain ⟨old, others, hsplit, hperm⟩ := @store_perm _ _ href.wf _ he.key _ _ _ _ _ _ hdata
    have hnone := hsplit.perm_of_miss (hfresh he List.mem_cons_self)
    obtain ⟨m1, href1⟩ := store_wf href buf.caller he.key (he.flag &&& ~~~shmapAlloc ||| shmapAlloc)
      (some (of + sizeofMapValue)) he.sz
    have hall : (shmapStore buf.caller ht he.key (he.flag &&& ~~~shmapAlloc ||| shmapAlloc)
        (some (of + sizeofMapValue)) he.sz).entries.Perm (he.loaded caller :: ht.entries) :=
      hperm.trans (hnone.cons _)
    have hfresh1 : ∀ he' ∈ rest,
        ∀ e ∈ (shmapStore buf.caller ht he.key (he.flag &&& ~~~shmapAlloc ||| shmapAlloc)
        (some (of + sizeofMapValue)) he.sz).entries, e.key ≠ he'.key := by
      intro he' hmem e hin
      rcases List.mem_cons.mp (hall.mem_iff.mp hin) with rfl | hold
      · intro hcon
        exact hnodup.1 (List.mem_map.mpr ⟨he', hmem, hcon.symm⟩)
      · exact hfresh he' (List.mem_cons_of_mem _ hmem) e hold
    have hnext : slice buf.data (of + sizeofMapValue + he.sz.toNat)
        (buf.dataOf - (of + sizeofMapValue + he.sz.toNat)) = printed caller stamp (i + 1) rest := by
      rw [show buf.dataOf - (of + sizeofMapValue + he.sz.toNat) =
        (printed caller stamp (i + 1) rest).length by omega]
      exact hslice
    obtain ⟨ht', m', hload, href', hperm'⟩ := ih hrestWhole hnodup.2 hnext (by omega)
      (Nat.lt_of_succ_lt_succ hfuel) href1 hfresh1
    refine ⟨ht', m', hload, href', hperm'.trans ?_⟩
    rw [List.map_cons, List.cons_append]
    exact (hall.append_left _).trans List.perm_middle

/-! ## Copies -/

/-- A copy has the size of its entry. -/
def Shmap.Copied (ht : Shmap P) : Prop :=
  ∀ he ∈ ht.entries, ∀ data, he.val = .copy data → (data.length : Int) = he.sz

/-- What is copied has the length that is recorded. -/
theorem shmapData_copied {caller : Caller P} (hpeek : ∀ p n, (caller.peek p n).length = n)
    {flag flag' : UInt32}
    {val : Option P} {size size' : Int} {data : Bytes}
    (h : shmapData caller flag val size = .ok (some (.copy data), flag', size')) :
    (data.length : Int) = size' := by
  rcases val with _ | p
  · rw [shmapData_null] at h
    exact nomatch congrArg Prod.fst (Except.ok.inj h)
  by_cases hflag : flag &&& shmapAlloc = 0
  · obtain ⟨flag1, size1, href⟩ := shmapData_ref caller hflag p size
    rw [href] at h
    exact nomatch Option.some.inj (congrArg Prod.fst (Except.ok.inj h))
  by_cases hneg : size < 0
  · rw [shmapData_negative caller hflag p hneg] at h
    exact nomatch h
  · obtain ⟨flag1, hcopy⟩ := shmapData_copy caller hflag p (Int.not_lt.mp hneg)
    rw [hcopy] at h
    obtain ⟨hval, hsize⟩ := Prod.mk.inj (Except.ok.inj h)
    obtain rfl := (Prod.mk.inj hsize).2
    obtain rfl := MapVal.copy.inj (Option.some.inj hval)
    rw [hpeek, Int.toNat_of_nonneg (Int.not_lt.mp hneg)]

/-- Without a value the entry of the key is dropped. -/
theorem store_none_split {ht : Shmap P} (h : ht.Wf) {caller : Caller P} {key : ShKey}
    {flag flag' : UInt32}
    {val : Option P} {size size' : Int}
    (hdata : shmapData caller flag val size = .ok (none, flag', size')) :
    ∃ old, Split ht key old (shmapStore caller ht key flag val size).entries := by
  simp only [shmapStore, shmapSetEnt, hdata, findEntry_none_fst]
  by_cases hex : ∃ he ∈ ht.entries, he.key = key
  · obtain ⟨he, hmem, rfl⟩ := hex
    rw [findEntry_hit h hmem, deref_linkOf_hit h hmem]
    exact ⟨some he, split_of_unlink h hmem⟩
  · have hnone : ∀ he ∈ ht.entries, he.key ≠ key := fun he hin hk => hex ⟨he, hin, hk⟩
    rw [findEntry_miss_none h hnone, deref_linkOf_miss h hnone]
    exact ⟨none, split_miss hnone⟩

/-- Every value stays one that is copied in full. -/
theorem Shmap.Copied.store {ht : Shmap P} (hcopied : ht.Copied) (h : ht.Wf) {caller : Caller P}
    (hpeek : ∀ p n, (caller.peek p n).length = n) (key : ShKey) (flag : UInt32) (val : Option P)
    (size : Int) :
    (shmapStore caller ht key flag val size).Copied := by
  cases hdata : shmapData caller flag val size with
  | error err =>
    have hsame : shmapStore caller ht key flag val size = ht := by
      simp only [shmapStore, shmapSetEnt, hdata]
    rwa [hsame]
  | ok res =>
    obtain ⟨data, flag', size'⟩ := res
    rcases data with _ | data
    · obtain ⟨old, hsplit⟩ := @store_none_split _ _ h _ key _ _ _ _ _ hdata
      exact fun he hin => hcopied he (hsplit.subset he hin)
    · obtain ⟨old, rest, hsplit, hperm⟩ := @store_perm _ _ h _ key _ _ _ _ _ _ hdata
      intro he hin copied hcopy
      rcases List.mem_cons.mp (hperm.mem_iff.mp hin) with rfl | hold
      · -- the new entry
        obtain rfl : data = .copy copied := hcopy
        exact shmapData_copied hpeek hdata
      · exact hcopied he (hsplit.subset he hold) copied hcopy

/-- Every call is one of `shmap_set_ent`. -/
theorem MapOp.run_store (caller : Caller P) (ht : Shmap P) (op : MapOp P) :
    ∃ key flag val size, op.run caller ht = shmapStore caller ht key flag val size := by
  cases op with
  | setEnt key flag val size => exact ⟨key, flag, val, size, rfl⟩
  | set key val => exact ⟨key, 0, val, 0, rfl⟩
  | unset key => exact ⟨key, 0, none, 0, rfl⟩
  | setAstr key val =>
    rcases val with _ | p
    · exact ⟨key, 0, none, 0, rfl⟩
    · exact ⟨key, shmapString ||| shmapAlloc, some p, caller.strlen p + 1, rfl⟩
  | setStr key val =>
    rcases val with _ | p
    · exact ⟨key, 0, none, 0, rfl⟩
    · exact ⟨key, shmapString, some p, caller.strlen p + 1, rfl⟩
  | setPtr key val => exact ⟨key, shmapBinary, val, 0, rfl⟩
  | setBin key val len => exact ⟨key, shmapBinary, val, len, rfl⟩
  | setAbin key val len => exact ⟨key, shmapBinary ||| shmapAlloc, val, len, rfl⟩

/-- After every run of calls the copied values are copied in full. -/
theorem shmapRun_copied {caller : Caller P} (hpeek : ∀ p n, (caller.peek p n).length = n)
    (ops : List (MapOp P)) :
    (shmapRun caller ops).Copied := by
  suffices ∀ (ht : Shmap P) (m : AbsMap P), Refines ht m → ht.Copied →
      (ops.foldl (MapOp.run caller) ht).Copied from
    this shmapInit ∅ shmapInit_refines (by simp [Shmap.Copied, shmapInit_entries])
  induction ops with
  | nil => exact fun ht m _ h => h
  | cons op ops ih =>
    intro ht m href hcopied
    refine ih _ _ (run_refines href caller op) ?_
    obtain ⟨key, flag, val, size, hrun⟩ := MapOp.run_store caller ht op
    rw [hrun]
    exact hcopied.store href.wf hpeek key flag val size

/-- Entries of right sizes can be printed as a whole. -/
theorem Shmap.Sized.whole {caller : Caller P} (hpeek : ∀ p n, (caller.peek p n).length = n)
    {ht : Shmap P}
    (h : ht.Sized) (hcopied : ht.Copied) : ∀ he ∈ ht.entries, he.Whole caller := by
  intro he hmem
  obtain ⟨hpos, hlt⟩ := h he hmem
  refine ⟨hpos, hlt, ?_⟩
  unfold MapEntry.bytes
  split
  · exact hpeek _ _
  · next data hval =>
    have hlen := hcopied he hmem data hval
    omega

/-! ## Printing and loading -/

/-- The content of an entry is found under its key. -/
theorem content_hit {caller : Caller P} {ht : Shmap P} (h : ht.Wf) {he : MapEntry P}
    (hmem : he ∈ ht.entries) :
    ht.content caller he.key = some (he.bytes caller, he.sz) := by
  rw [Shmap.content, findEntry_hit h hmem, deref_linkOf_hit h hmem, Option.map_some]

/-- There is no content under a key without an entry. -/
theorem content_miss {caller : Caller P} {ht : Shmap P} (h : ht.Wf) {key : ShKey}
    (hnone : ∀ he ∈ ht.entries, he.key ≠ key) : ht.content caller key = none := by
  rw [Shmap.content, findEntry_miss_none h hnone, deref_linkOf_miss h hnone, Option.map_none]

/-- Maps with the same entries, but for the copies, hold the same. -/
theorem content_loaded {caller : Caller P} {caller' : Caller Nat} {ht : Shmap P}
    {ht' : Shmap Nat} (h : ht.Wf)
    (h' : ht'.Wf) (hperm : ht'.entries.Perm (ht.entries.map (MapEntry.loaded caller)))
    (key : ShKey) :
    ht'.content caller' key = ht.content caller key := by
  by_cases hex : ∃ he ∈ ht.entries, he.key = key
  · obtain ⟨he, hmem, rfl⟩ := hex
    have hmem' : he.loaded caller ∈ ht'.entries := hperm.mem_iff.mpr (List.mem_map_of_mem hmem)
    rw [content_hit h hmem, ← loaded_key caller he, content_hit h' hmem', loaded_bytes, loaded_sz]
  · have hnone : ∀ he ∈ ht.entries, he.key ≠ key := fun he hin hk => hex ⟨he, hin, hk⟩
    rw [content_miss h hnone]
    refine content_miss h' fun he' hin => ?_
    obtain ⟨he, hmem, rfl⟩ := List.mem_map.mp (hperm.mem_iff.mp hin)
    rw [loaded_key]
    exact hnone he hmem

theorem Fits.lt {n : Nat} (h : Fits n) : n < 2 ^ 64 := by
  have hle := shbufBlocks_le (n + 1)
  unfold Fits at h
  omega

/-- What a map prints, if the buffer can hold it. -/
theorem shmapPrint_spec {caller : Caller P} {ht : Shmap P}
    (hwhole : ∀ he ∈ ht.entries, he.Whole caller)
    (stamp : Nat → UInt32) :
    if Fits ht.printedSize then
      ∃ buf, shmapPrint caller stamp ht shbufInit = some buf ∧
      buf.contents = printed caller stamp 0 ht.entries ∧
        buf.dataOf = ht.printedSize ∧ buf.dataOf ≤ buf.dataMax
    else shmapPrint caller stamp ht shbufInit = none := by
  have hprint :=
    @printLoop_spec _ caller stamp ht.entries 0 shbufInit hwhole (Nat.le_refl 0) (by decide)
  have hlen : (printed caller stamp 0 ht.entries).length = ht.printedSize := length_printed hwhole 0
  rw [hlen, show shbufInit.dataOf = 0 from rfl, Nat.zero_add] at hprint
  by_cases hfits : Fits ht.printedSize
  · rw [if_pos hfits] at hprint ⊢
    obtain ⟨buf, hbuf, hcont, hle⟩ := hprint
    refine ⟨buf, hbuf, hcont, ?_, hle⟩
    rw [← Shbuf.length_contents, hcont, List.length_append, hlen]
    exact Nat.zero_add _
  · rw [if_neg hfits] at hprint ⊢
    exact hprint

/-- A map whose values have a size is printed and loaded again, with the same keys and the same
bytes and size for each, if and only if the buffer can hold what is printed. -/
theorem print_load_iff (caller : Caller P) (hpeek : ∀ p n, (caller.peek p n).length = n)
    (ops : List (MapOp P))
    (hsized : (shmapRun caller ops).Sized) (stamp : Nat → UInt32) {fuel : Nat}
    (hfuel : (shmapRun caller ops).entries.length < fuel) :
    (∃ buf ht', shmapPrint caller stamp (shmapRun caller ops) shbufInit = some buf ∧
      shmapLoad fuel shmapInit buf = some ht' ∧
      (ht'.entries.map MapEntry.key).Perm ((shmapRun caller ops).entries.map MapEntry.key) ∧
      ∀ key, ht'.content buf.caller key = (shmapRun caller ops).content caller key) ↔
    Fits (shmapRun caller ops).printedSize := by
  have href := shmapRun_refines caller ops
  have hwhole := hsized.whole hpeek (shmapRun_copied hpeek ops)
  -- the bytes that are printed are all that matters of the buffer
  generalize shmapRun caller ops = ht at *
  have hprint := shmapPrint_spec hwhole stamp
  constructor
  · rintro ⟨buf, ht', hbuf, -⟩
    by_contra hfits
    rw [if_neg hfits, hbuf] at hprint
    exact nomatch hprint
  · intro hfits
    rw [if_pos hfits] at hprint
    obtain ⟨buf, hbuf, hcont, hof, hle⟩ := hprint
    have hslice : slice buf.data 0 (buf.dataOf - 0) = printed caller stamp 0 ht.entries := hcont
    obtain ⟨ht', m', hload, href', hperm⟩ :=
      loadLoop_printed hle (by rw [hof]; exact hfits.lt) hwhole href.wf.nodup
      hslice (Nat.zero_le _) hfuel shmapInit_refines (fun _ _ he' hmem =>
        by rw [shmapInit_entries] at hmem; exact nomatch hmem)
    rw [shmapInit_entries, List.append_nil] at hperm
    refine ⟨buf, ht', hbuf, hload, ?_, content_loaded href.wf href'.wf hperm⟩
    have hkeys := hperm.map MapEntry.key
    rw [List.map_map] at hkeys
    simpa only [Function.comp_def, loaded_key] using hkeys

/-! ## Small and large values -/

/-- Memory of zeros. -/
def zeroMemory : Caller Unit where
  peek := fun _ n => List.replicate n 0
  strlen := fun _ => 0

theorem zeroMemory_peek (p : Unit) (n : Nat) : (zeroMemory.peek p n).length = n :=
  List.length_replicate

/-- Three bytes under one key and a string under another. -/
theorem print_load_two : ∃ ops : List (MapOp Unit), (shmapRun zeroMemory ops).entries.length = 2 ∧
    ∃ buf ht', shmapPrint zeroMemory (fun _ => 0) (shmapRun zeroMemory ops) shbufInit = some buf ∧
      shmapLoad 3 shmapInit buf = some ht' ∧
      (ht'.entries.map MapEntry.key).Perm ((shmapRun zeroMemory ops).entries.map MapEntry.key) ∧
      ∀ key, ht'.content buf.caller key = (shmapRun zeroMemory ops).content zeroMemory key := by
  have hlen : (shmapRun zeroMemory
      [.setAbin ashkeyBlank (some ()) 3, .setStr { ashkeyBlank with crc := 1 }
        (some ())]).entries.length = 2 := by
    decide +kernel
  have hsized : (shmapRun zeroMemory
      [.setAbin ashkeyBlank (some ()) 3, .setStr { ashkeyBlank with crc := 1 }
        (some ())]).Sized := by
    unfold Shmap.Sized
    decide +kernel
  refine ⟨_, hlen, (print_load_iff zeroMemory zeroMemory_peek _ hsized (fun _ => 0) ?_).mpr
    (by decide +kernel)⟩
  rw [hlen]
  decide

/-- A map that is too large is not printed. -/
theorem print_none {caller : Caller P} (hpeek : ∀ p n, (caller.peek p n).length = n)
    {ops : List (MapOp P)}
    (hsized : (shmapRun caller ops).Sized) (hlarge : ¬ Fits (shmapRun caller ops).printedSize)
    (stamp : Nat → UInt32) : shmapPrint caller stamp (shmapRun caller ops) shbufInit = none := by
  have hprint := shmapPrint_spec (hsized.whole hpeek (shmapRun_copied hpeek ops)) stamp
  rwa [if_neg hlarge] at hprint

/-- A value of 2^31 bytes is not printed. -/
theorem large_not_printed : ∃ ops : List (MapOp Unit), (shmapRun zeroMemory ops).Sized ∧
    shmapPrint zeroMemory (fun _ => 0) (shmapRun zeroMemory ops) shbufInit = none := by
  have hsized : (shmapRun zeroMemory [.setBin ashkeyBlank (some ()) (2 ^ 31)]).Sized := by
    unfold Shmap.Sized
    decide +kernel
  have hlarge : ¬ Fits (shmapRun zeroMemory
      [.setBin ashkeyBlank (some ()) (2 ^ 31)]).printedSize := by decide +kernel
  exact ⟨_, hsized, print_none zeroMemory_peek hsized hlarge _⟩

end LibShare.Mem
