import LibShare.Sexe.Reads
import Mathlib.Data.List.Flatten
import Mathlib.Data.List.Perm.Subperm

/-!
# libshare — the round trip of a SEXE module

* `yields_loadable`: every function that is loaded has at most 255 members of a kind,
  whole numbers of 64 bits, and strings without a zero byte that fit in 255 bytes.
* `named_of_dump`, `dump_of_storable`: when a function can be written.
* `sexe_round_trip`: a module gives back what was written where the counts of all
  sections fit and the constants lose nothing; and only there, but for strings that
  are repeated and for names of local variables, whose counts are not loaded.
-/

namespace LibShare.Sexe

/-- What holds of every function that is loaded. The strings are among those of a
section, which are fewer than 256 bytes with their ends. -/
structure Loadable (f : ProtoInfo) (functions : Nat) : Prop extends Counted f functions where
  lossless : ∀ o ∈ f.k, o.Lossless
  strings : ∃ lits, (pool lits).length < 256 ∧ ∀ t ∈ literals f.k, t ∈ lits

/-- What the format has room for. -/
structure Storable (strip : Bool) (f : ProtoInfo) (functions : Nat) : Prop extends
    Counted f functions, Sized strip f where
  named : Named strip f
  lossless : ∀ o ∈ f.k, o.Lossless

/-! ## What can be loaded -/

/-- A string of the pool has its zero. -/
theorem length_pool_cons (t : Bytes) (lits : List Bytes) :
    (pool (t :: lits)).length = t.length + 1 + (pool lits).length := by
  rw [pool, List.flatMap_cons, List.length_append, List.length_append]
  rfl

/-- The strings that are told apart have no zero byte, and fit where they were. -/
theorem splitLits_fit (lit : Bytes) : ∀ {s : Bytes}, 0 ∉ s →
    (∀ t ∈ splitLits s lit, 0 ∉ t) ∧ (pool (splitLits s lit)).length ≤ s.length + lit.length := by
  induction lit with
  | nil => exact fun _ => ⟨nofun, Nat.zero_le _⟩
  | cons b lit ih =>
    intro s hs
    rw [splitLits]
    by_cases hb : b = 0
    · obtain ⟨hzero, hlen⟩ := ih (s := []) List.not_mem_nil
      rw [if_pos hb]
      constructor
      · intro t ht
        rcases List.mem_cons.mp ht with rfl | ht
        · exact hs
        · exact hzero t ht
      · rw [List.length_nil] at hlen
        rw [length_pool_cons, List.length_cons]
        omega
    · have hnot : 0 ∉ s ++ [b] := by
        rw [List.mem_append, List.mem_singleton]
        rintro (h | h)
        · exact hs h
        · exact hb h.symm
      obtain ⟨hzero, hlen⟩ := ih hnot
      rw [if_neg hb]
      refine ⟨hzero, hlen.trans ?_⟩
      rw [List.length_append, List.length_cons, List.length_nil, List.length_cons]
      omega

/-- What is read of an array is one of its items. -/
theorem yields_arrayGet {α : Type} (xs : List α) (i : Nat) :
    Yields (arrayGet xs i) fun a => a ∈ xs := by
  rw [arrayGet]
  cases hget : xs[i]? with
  | none => exact fun _ _ _ hrun => by cases hrun
  | some a => exact .pure (List.mem_of_getElem? hget)

/-- A constant that is loaded is a whole number, or one of the strings. -/
theorem constant_lossless {lits : List Bytes} (hzero : ∀ t ∈ lits, 0 ∉ t) (con : Bytes) :
    Yields (constant lits con) fun o => o.Lossless ∧ ∀ t, o = .string t → t ∈ lits := by
  unfold constant
  dsimp only
  split
  · exact .pure ⟨trivial, nofun⟩
  split
  · refine .pure ⟨⟨Nat.cast_nonneg _, ?_, Rat.den_natCast _⟩, nofun⟩
    exact_mod_cast UInt64.toNat_lt _
  split
  · split
    · refine (yields_arrayGet lits _).map ?_
      intro t hmem
      refine ⟨hzero t hmem, ?_⟩
      rintro t' h
      exact TValue.string.inj h ▸ hmem
    · -- an index without a string leaves the constant nil
      exact .pure ⟨trivial, nofun⟩
  · exact .pure ⟨trivial, nofun⟩

/-- A string without zeros is seen as a whole. -/
theorem cstr_of_not_mem {s : Bytes} (h : 0 ∉ s) : cstr s = s := by
  refine List.takeWhile_eq_self_iff.mpr ?_
  intro b hb
  refine decide_eq_true ?_
  rintro rfl
  exact h hb

/-- Constants that are loaded can be loaded. -/
theorem yields_constants {f : ProtoInfo} {n : Nat} (h : Loadable f n) (type : UInt8) {size : Nat}
    (hsize : size < 256) :
    Yields (sexeLoadConstants type size f) fun c => Loadable c.2 n := by
  refine (yields_block _ _).bind fun lit hlit => (yields_any _).bind fun head _ => ?_
  obtain ⟨hzero, hfit⟩ := splitLits_fit lit List.not_mem_nil
  have hlen : lit.length < 256 := by
    -- a section of constants alone has no strings
    rw [hlit]
    split
    · exact hsize
    · exact Nat.zero_lt_succ _
  have hone : Yields (loadBlock 16 >>= constant (splitLits [] lit)) fun o =>
      o.Lossless ∧ ∀ t, o = .string t → t ∈ splitLits [] lit :=
    (yields_any _).bind fun con _ => constant_lossless hzero con
  refine (yields_many hone _).bind ?_
  rintro k ⟨hk, hall⟩
  refine .pure
    { h with
      k := hk.trans_lt (UInt8.toNat_lt _)
      lossless := fun o ho => (hall o ho).1
      strings := ?_ }
  rw [List.length_nil, Nat.zero_add] at hfit
  refine ⟨splitLits [] lit, hfit.trans_lt hlen, ?_⟩
  intro t ht
  obtain ⟨o, ho, hstring⟩ := List.mem_filterMap.mp ht
  cases o with
  | string s =>
    obtain rfl := Option.some.inj hstring
    have hmem := (hall _ ho).2 s rfl
    rwa [cstr_of_not_mem (hzero s hmem)]
  | nil | boolean _ | number _ => cases hstring

/-- Names of upvalues change no condition. -/
theorem yields_upvalDebug {f : ProtoInfo} {n : Nat} (h : Loadable f n) (size : Nat) :
    Yields (sexeLoadUpvalDebug size f) fun g => Loadable g n := by
  refine (yields_any _).bind fun lit _ => ?_
  dsimp only
  split
  · exact .pure { h with upvalues := (length_nameUpvalues _ _).trans_lt h.upvalues }
  · exact fun _ _ _ hrun => nomatch hrun

/-- What holds of a function while it is loaded, and of those inside. -/
structure Loading.Loadable (s : Loading) : Prop where
  here : Sexe.Loadable s.f s.p.length
  inner : ∀ g ∈ s.p, g.Every Sexe.Loadable

/-- A section has no more members than it tells. -/
theorem yields_section {load : Loader Proto} (hload : Yields load (Proto.Every Loadable))
    {s : Loading}
    (h : s.Loadable) (type : UInt8) {size : Nat} (hsize : size < 256) :
    Yields (loadSection load type size s) fun c => c.2.Loadable := by
  obtain ⟨hhere, hinner⟩ := h
  have hinfo : ∀ f, Loadable f s.p.length → Loading.Loadable { s with f } :=
    fun f hf => ⟨hf, hinner⟩
  have hlt : ∀ {n : Nat}, n = size → n < 256 := fun hn => hn.trans_lt hsize
  unfold loadSection
  split
  · have hcode : Yields (sexeLoadCode size s.f) fun g => Loadable g s.p.length :=
      (yields_length _ _).map fun code hn => { hhere with code := hlt hn }
    exact hcode.map fun f hf => hinfo f hf
  split
  · have hdebug : Yields (sexeLoadCodeDebug size s.f) fun g => Loadable g s.p.length :=
      (yields_any _).map fun _ _ => { hhere with }
    exact hdebug.map fun f hf => hinfo f hf
  split
  · exact (yields_constants hhere type hsize).map fun c hc => hinfo c.2 hc
  split
  · refine (yields_many hload size).map ?_
    rintro p ⟨hn, hp⟩
    exact ⟨{ hhere with functions := hlt hn }, hp⟩
  split
  · have hupvalues : Yields (sexeLoadUpvalues size s.f) fun g => Loadable g s.p.length :=
      (yields_length _ _).map fun upvalues hn => { hhere with upvalues := hlt hn }
    exact hupvalues.map fun f hf => hinfo f hf
  split
  · exact (yields_upvalDebug hhere size).map fun f hf => hinfo f hf
  split
  · have hlocvars : Yields (sexeLoadLocalVarDebug size s.f) fun g => Loadable g s.p.length :=
      (yields_any _).map fun _ _ => { hhere with }
    exact hlocvars.map fun f hf => hinfo f hf
  · exact .pure ⟨hhere, hinner⟩

/-- Sections yield what can be loaded, if the loader of functions does. -/
theorem yields_sections {load : Loader Proto} (hload : Yields load (Proto.Every Loadable)) :
    ∀ (fuel : Nat)
      {s : Loading}, s.Loadable → Yields (loadSections load fuel s) Loading.Loadable := by
  intro fuel
  induction fuel with
  | zero => exact fun _ _ _ _ hrun => by cases hrun
  | succ fuel ih =>
    intro s hs
    rw [loadSections]
    refine (yields_any _).bind fun head _ => ?_
    refine (yields_section hload hs _ (UInt8.toNat_lt _)).bind ?_
    rintro ⟨type, s'⟩ hs'
    dsimp only
    split
    · exact .pure hs'
    · exact ih hs'

/-- Whatever a function is loaded from, it can be loaded. -/
theorem yields_loadable (fuel : Nat) : Yields (sexeLoadFunction fuel) (Proto.Every Loadable) := by
  induction fuel with
  | zero => exact fun _ _ _ hrun => by cases hrun
  | succ fuel ih =>
    rw [sexeLoadFunction]
    refine (yields_any _).bind fun func _ => ?_
    -- a function has nothing before its first section
    have hstart : Loading.Loadable { f := startInfo func, p := [] } := by
      refine ⟨⟨⟨?_, ?_, ?_, ?_⟩, ?_, [], ?_, ?_⟩, ?_⟩
      -- nothing is in the lists
      on_goal 5 => exact fun _ hin => by cases hin
      on_goal 6 => exact fun _ hin => by cases hin
      on_goal 6 => exact fun _ hin => by cases hin
      all_goals exact Nat.zero_lt_succ _
    refine (yields_sections ih fuel hstart).bind fun s hs => ?_
    exact .pure (.mk hs.here hs.inner)

/-! ## What can be written -/

/-- A lossless constant is dumped. -/
theorem dumpConstant_some {o : TValue} (h : o.Lossless) (strIdx : Nat) :
    ∃ entry strIdx', dumpConstant strIdx o = some (entry, strIdx') := by
  cases o with
  | nil | boolean _ | string _ => exact ⟨_, _, rfl⟩
  | number n =>
    obtain ⟨hpos, hhigh, -⟩ := h
    obtain ⟨val, hval, -⟩ := numberValue_toNat (lt_of_lt_of_le (by norm_num) hpos) hhigh
    exact ⟨const 3 val, strIdx, congrArg (Option.map _) hval⟩

/-- Lossless constants are dumped. -/
theorem dumpConstantsLoop_some : ∀ {k : List TValue}, (∀ o ∈ k, o.Lossless) → ∀ strIdx,
    ∃ entries, dumpConstantsLoop strIdx k = some entries := by
  intro k
  induction k with
  | nil => exact fun _ _ => ⟨[], rfl⟩
  | cons o k ih =>
    intro h strIdx
    obtain ⟨entry, strIdx', hentry⟩ := dumpConstant_some (h o List.mem_cons_self) strIdx
    obtain ⟨entries, hentries⟩ := ih (fun o ho => h o (List.mem_cons_of_mem _ ho)) strIdx'
    refine ⟨entry ++ entries, ?_⟩
    rw [dumpConstantsLoop, hentry]
    show (dumpConstantsLoop strIdx' k).bind _ = _
    rw [hentries]
    rfl

/-- The names are there just when all of them can be read. -/
theorem names_some (us : List Upvaldesc) :
    (∃ names, (us.mapM fun u => u.name) = some names) ↔ ∀ u ∈ us, u.name.isSome := by
  induction us with
  | nil => exact iff_of_true ⟨[], rfl⟩ nofun
  | cons u us ih =>
    rw [List.mapM_cons, List.forall_mem_cons, ← ih]
    constructor
    · rintro ⟨names, h⟩
      obtain ⟨name, hname, hrest⟩ := Option.bind_eq_some_iff.mp h
      obtain ⟨names', hnames, -⟩ := Option.bind_eq_some_iff.mp hrest
      exact ⟨Option.isSome_iff_exists.mpr ⟨name, hname⟩, names', hnames⟩
    · rintro ⟨hname, names, hnames⟩
      obtain ⟨name, hname⟩ := Option.isSome_iff_exists.mp hname
      refine ⟨name :: names, ?_⟩
      rw [hname, hnames]
      rfl

/-- Functions are dumped if each of them is. -/
theorem dumpFunctions_some {strip : Bool} : ∀ {p : List Proto},
    (∀ g ∈ p, ∃ bytes, sexeDumpFunction strip g = some bytes) → ∀ n,
      ∃ bytes, dumpFunctions strip n p = some bytes := by
  intro p
  induction p with
  | nil =>
    intro _ n
    cases n with
    | zero => exact ⟨[], rfl⟩
    | succ n => exact ⟨[], rfl⟩
  | cons g p ih =>
    intro h n
    cases n with
    | zero => exact ⟨[], rfl⟩
    | succ n =>
      obtain ⟨bytes, hbytes⟩ := h g List.mem_cons_self
      obtain ⟨rest, hrest⟩ := ih (fun q hq => h q (List.mem_cons_of_mem _ hq)) n
      refine ⟨bytes ++ rest, ?_⟩
      rw [dumpFunctions, hbytes, hrest]
      rfl

/-- What the format has room for is written. -/
theorem dump_of_storable {strip : Bool} {f : Proto} (h : f.Every (Storable strip)) :
    ∃ bytes, sexeDumpFunction strip f = some bytes := by
  induction h with
  | @mk f p here _ ih =>
    obtain ⟨entries, hentries⟩ := dumpConstantsLoop_some here.lossless 0
    obtain ⟨functions, hfunctions⟩ := dumpFunctions_some ih (told p.length)
    have hnames : ∃ names, (if strip then some [] else sexeDumpUpvaluesDebug f) = some names := by
      cases strip with
      | true => exact ⟨[], rfl⟩
      | false =>
        obtain ⟨names, hnames⟩ := (names_some f.upvalues).mpr (here.named rfl)
        rw [if_neg Bool.false_ne_true, sexeDumpUpvaluesDebug, hnames]
        exact ⟨_, rfl⟩
    obtain ⟨names, hnames⟩ := hnames
    rw [sexeDumpFunction, sexeDumpConstants, hentries, hfunctions, hnames]
    exact ⟨_, rfl⟩

/-- Each function has been dumped if all have. -/
theorem dump_of_dumpFunctions {strip : Bool} : ∀ {p : List Proto} {bytes : Bytes},
    dumpFunctions strip p.length p = some bytes →
      ∀ g ∈ p, ∃ bytes, sexeDumpFunction strip g = some bytes := by
  intro p
  induction p with
  | nil => exact fun _ => nofun
  | cons f p ih =>
    intro bytes h
    rw [List.length_cons, dumpFunctions] at h
    obtain ⟨first, hfirst, hrest⟩ := Option.bind_eq_some_iff.mp h
    obtain ⟨rest, hrest, -⟩ := Option.bind_eq_some_iff.mp hrest
    exact List.forall_mem_cons.mpr ⟨⟨first, hfirst⟩, ih hrest⟩

/-- A function is written only if the names that are written with it are there. -/
theorem named_of_dump {strip : Bool} {f : Proto} (h : f.Every Counted) :
    ∀ bytes, sexeDumpFunction strip f = some bytes → f.Every fun g _ => Named strip g := by
  induction h with
  | @mk f p here _ ih =>
    intro bytes hdump
    obtain ⟨_, -, hdump⟩ := Option.bind_eq_some_iff.mp hdump
    obtain ⟨functions, hfunctions, hdump⟩ := Option.bind_eq_some_iff.mp hdump
    obtain ⟨names, hnames, -⟩ := Option.bind_eq_some_iff.mp hdump
    rw [told_of_lt here.functions] at hfunctions
    refine .mk ?_ ?_
    · rintro rfl
      -- the section of the names is written
      rw [if_neg Bool.false_ne_true] at hnames
      obtain ⟨strs, hstrs, -⟩ := Option.bind_eq_some_iff.mp hnames
      exact (names_some f.upvalues).mp ⟨strs, hstrs⟩
    · intro g hg
      obtain ⟨inner, hinner⟩ := dump_of_dumpFunctions hfunctions g hg
      exact ih g hg inner hinner

/-! ## The round trip -/

/-- A header is loaded as it was dumped. -/
theorem reads_header (ver : UInt8) (modName : Bytes) :
    Reads sexeLoadHeader (sexeHeader ver modName).tail () := by
  have hname := length_nameField modName
  have htail : (sexeHeader ver modName).tail =
      [115, 69, 88, ver, 0, 1, 4, 8, 4, 8, 0] ++ nameField modName ++ sexeTail := rfl
  rw [htail, ← List.append_nil (_ ++ sexeTail)]
  refine Reads.bind (reads_block ?_) ?_
  · rw [List.length_append, List.length_append, hname]
    rfl
  · have hend : ([115, 69, 88, ver, 0, 1, 4, 8, 4, 8, 0] ++ nameField modName ++ sexeTail).drop 35 =
        sexeTail := by
      refine List.drop_left' ?_
      rw [List.length_append, hname]
      rfl
    have hsignature : ([115, 69, 88, ver, 0, 1, 4, 8, 4, 8, 0] ++ nameField modName ++
        sexeTail).take 3 =
        sexeSignature.tail := rfl
    rw [hsignature, hend, if_neg (not_not.mpr rfl), if_neg]
    · exact Reads.pure ()
    · exact not_or.mpr ⟨not_not.mpr rfl, not_not.mpr rfl⟩

/-- What is compared of two functions tells them apart as far as the property looks. -/
theorem Proto.Every.of_shown {P : ProtoInfo → Nat → Prop}
    (hP : ∀ f g n, f.shown id = g.shown id → P f n → P g n) {f : Proto} (h : f.Every P) :
    ∀ {g : Proto}, f.shown id = g.shown id → g.Every P := by
  induction h with
  | @mk f p here _ ih =>
    rintro ⟨g, q⟩ hsame
    rw [Proto.shown, Proto.shown, shownAll_eq, shownAll_eq] at hsame
    obtain ⟨hinfo, hp⟩ := Proto.mk.inj hsame
    have hlen : p.length = q.length := by
      have hmap := congrArg List.length hp
      rwa [List.length_map, List.length_map] at hmap
    refine .mk (hlen ▸ hP f g _ hinfo here) ?_
    intro r hr
    obtain ⟨r', hr', hsame'⟩ := List.mem_map.mp (hp ▸ List.mem_map_of_mem hr)
    exact ih r' hr' hsame'

/-- What can be loaded depends on what is shown. -/
theorem loadable_of_shown (f g : ProtoInfo) (n : Nat) (h : f.shown id = g.shown id)
    (hf : Loadable f n) :
    Loadable g n := by
  have hk : f.k = g.k := by
    have hmap := congrArg ProtoInfo.k h
    rwa [ProtoInfo.shown, ProtoInfo.shown, List.map_id, List.map_id] at hmap
  have hcode : (f.shown id).code = (g.shown id).code := congrArg ProtoInfo.code h
  have hupvalues : f.upvalues.length = g.upvalues.length := by
    have hmap := congrArg (fun f => f.upvalues.length) h
    rwa [ProtoInfo.shown, ProtoInfo.shown, List.length_map, List.length_map] at hmap
  obtain ⟨⟨hcount, hconst, hupval, hfunctions⟩, hlossless, hstrings⟩ := hf
  rw [hk] at hconst hlossless hstrings
  exact ⟨⟨(congrArg List.length hcode).symm.trans_lt hcount, hconst, hupvalues ▸ hupval,
    hfunctions⟩, hlossless, hstrings⟩

variable {ver : UInt8} {strip : Bool} {modName : Bytes} {f : Proto}

/-- What comes back was loaded. -/
theorem loadable_of_roundTrips (h : RoundTrips ver strip modName f) : f.Every Loadable := by
  obtain ⟨bytes, f', -, ⟨n, hload⟩, hsame⟩ := h
  obtain ⟨rest, hrun⟩ := hload n le_rfl
  obtain ⟨_, mid, -, hfunction⟩ := reader_bind_eq_ok hrun
  exact (yields_loadable n mid f' rest hfunction).of_shown loadable_of_shown hsame

/-- Where all comes back, the names have been kept. -/
theorem named_of_roundTrips (h : RoundTrips ver strip modName f) :
    f.Every fun g _ => Named strip g := by
  have hloadable := loadable_of_roundTrips h
  obtain ⟨bytes, -, hdump, -⟩ := h
  obtain ⟨body, hbody, -⟩ := Option.map_eq_some_iff.mp hdump
  exact named_of_dump (hloadable.mono fun _ _ hg => hg.toCounted) body hbody

/-- Lossless constants come back as they are. -/
theorem lossy_eq {g : ProtoInfo} (h : ∀ o ∈ g.k, o.Lossless) : ∀ o ∈ g.k, o.lossy = o :=
  fun o ho => (lossless_iff o).mpr (h o ho)

/-- Where all can be stored, all comes back. -/
theorem roundTrips_of_storable (h : f.Every (Storable strip)) : RoundTrips ver strip modName f := by
  obtain ⟨body, hbody⟩ := dump_of_storable h
  obtain ⟨f', n, hload, hshown⟩ :=
    load_dump (h.mono fun _ _ hg => ⟨hg.toCounted, hg.toSized⟩) body hbody
  refine ⟨sexeHeader ver modName ++ body, f', congrArg (Option.map _) hbody, ⟨n, ?_⟩,
    hshown.trans ?_⟩
  · intro fuel hfuel
    have hread := Reads.bind (f := fun _ =>
      sexeLoadFunction fuel) (reads_header ver modName) (hload fuel hfuel) []
    rw [List.append_nil] at hread
    exact ⟨[], hread⟩
  · exact (shown_eq_iff TValue.lossy f).mpr (h.mono fun _ _ hg => lossy_eq hg.lossless)

/-- Different strings that are among others take no more room than these. -/
theorem length_pool_le {lits lits' : List Bytes} (hdistinct : lits.Nodup)
    (hsub : ∀ t ∈ lits, t ∈ lits') :
    (pool lits).length ≤ (pool lits').length := by
  obtain ⟨lits'', hperm, hsublist⟩ := hdistinct.subperm hsub
  rw [pool, pool, ← (hperm.flatMap_right _).length_eq]
  exact (hsublist.flatMap _).length_le

/-- A SEXE module gives back every function that the format has room for. What it gives
back has the counts and the constants that fit. The strings fit if none is repeated. -/
theorem sexe_round_trip (ver : UInt8) (strip : Bool) (modName : Bytes) (f : Proto) :
    (f.Every (Storable strip) → RoundTrips ver strip modName f) ∧
      (RoundTrips ver strip modName f → f.Every fun g n => Counted g n ∧ Named strip g ∧
        (∀ o ∈ g.k, o.Lossless) ∧ ((literals g.k).Nodup → (pool (literals g.k)).length < 256)) := by
  refine ⟨roundTrips_of_storable, ?_⟩
  intro h
  refine ((loadable_of_roundTrips h).and (named_of_roundTrips h)).mono ?_
  rintro g n ⟨hloadable, hnamed⟩
  obtain ⟨lits, hfit, hsub⟩ := hloadable.strings
  refine ⟨hloadable.toCounted, hnamed, hloadable.lossless, ?_⟩
  intro hdistinct
  exact (length_pool_le hdistinct hsub).trans_lt hfit

/-- A chunk that returns 1 and "hi" comes back. -/
theorem round_trip_chunk : RoundTrips 51 false [116] (.mk
    { k := [.number 1, .string [104, 105]], code := [0x1, 0x4041, 0x180001f, 0x80001f]
      upvalues := [{ name := some [95, 69, 78, 86], instack := 1, idx := 0 }]
      isVararg := true, maxstacksize := 2 } []) := by
  refine (sexe_round_trip _ _ _ _).1 (.mk ?_ nofun)
  refine ⟨⟨by decide, by decide, by decide, by decide⟩, ⟨by decide, by decide⟩, ?_, ?_⟩
  · rintro - u hu
    rw [List.mem_singleton.mp hu]
    rfl
  · intro o ho
    rcases List.mem_cons.mp ho with rfl | ho
    · exact ⟨by norm_num, by norm_num, rfl⟩
    · rw [List.mem_singleton.mp ho]
      show (0 : UInt8) ∉ _
      decide

/-- A chunk that returns 1/2 does not. -/
theorem half_lost : ¬ RoundTrips 51 false [116] (.mk
    { k := [.number (1 / 2)], code := [0x1, 0x100001f, 0x80001f]
      upvalues := [{ name := some [95, 69, 78, 86], instack := 1, idx := 0 }]
      isVararg := true, maxstacksize := 2 } []) := by
  intro h
  obtain ⟨hloadable, -⟩ := loadable_of_roundTrips h
  obtain ⟨-, -, hwhole⟩ := hloadable.lossless _ List.mem_cons_self
  -- 1/2 would be a whole number
  have hint := (Rat.den_eq_one_iff _).mp hwhole
  have hdouble : (2 * (1 / 2 : ℚ).num : ℚ) = 1 := by rw [hint]; norm_num
  norm_cast at hdouble
  omega

end LibShare.Sexe
