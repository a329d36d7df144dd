import LibShare.Mem.MapPrint
import Mathlib.Logic.Relation

/-!
# libshare — loading arbitrary bytes

`shmap_load` of `shmem_map.c` on a buffer that nothing is known of. A header that is not all in the
buffer ends the loop. The size of a value comes from its header: it is added to the cursor, which
is an unsigned number, and nothing compares it with what is left. A size beyond the rest leads
behind the end, and one of `2 ^ 64` less a little, a negative number, leads back.

* **Rounds.** `loadRound` is what a round finds at an offset, apart from what it stores
  (`loadLoop_round`).
* **Records.** `Records` are the bytes in which every header with the magic number is followed by
  as many bytes as it says.
* `load_safe_iff` — the loop ends, reads and stores inside the buffer, and only goes forward.
-/

namespace LibShare.Mem

variable {buf : Shbuf}

/-! ## Rounds -/

/-- What a round of the loop finds. -/
inductive LoadRound
  /-- no whole header -/
  | stop
  /-- no record, or one without a value -/
  | skip (next : Nat)
  /-- a value of so many bytes, to be stored under its key -/
  | value (name : ShKey) (pf : UInt32) (data sz next : Nat)
deriving DecidableEq

/-- Where the cursor is after a round. -/
def LoadRound.next : LoadRound → Option Nat
  | .stop => none
  | .skip next => some next
  | .value _ _ _ _ next => some next

/-- The round of `shmap_load` at an offset. -/
def loadRound (buf : Shbuf) (of : Nat) : LoadRound :=
  if of < buf.dataOf then
    let data := of + sizeofMapValue
    if buf.dataOf < data then .stop
    else if leWord32 (slice buf.data of 4) ≠ shmem32Magic then .skip data
    else
      let sz := (leWord64 (slice buf.data (of + 48) 8)).toNat
      if sz = 0 then .skip data
      else .value (ShKey.ofBytes (slice buf.data (of + 16) 32))
        (leWord32 (slice buf.data (of + 12) 4)) data sz
        ((data + sz) % 2 ^ 64)
  else .stop

/-- A round of the loop does what was found. -/
theorem loadLoop_round (buf : Shbuf) (fuel of : Nat) (ht : Shmap Nat) :
    loadLoop buf (fuel + 1) of ht = match loadRound buf of with
      | .stop => some ht
      | .skip next => loadLoop buf fuel next ht
      | .value name pf data sz next =>
        if sz < 2 ^ 63 ∧ buf.dataMax < data + sz then none
        else loadLoop buf fuel next (shmapStore buf.caller ht name (pf ||| shmapAlloc) (some data)
          (ssize sz)) := by
  rw [loadLoop, loadRound]
  by_cases hof : of < buf.dataOf
  · rw [if_pos hof, if_pos hof]
    dsimp only
    by_cases hend : buf.dataOf < of + sizeofMapValue
    · rw [if_pos hend, if_pos hend]
    · rw [if_neg hend, if_neg hend]
      by_cases hmagic : leWord32 (slice buf.data of 4) ≠ shmem32Magic
      · rw [if_pos hmagic, if_pos hmagic]
      · rw [if_neg hmagic, if_neg hmagic]
        by_cases hsz : (leWord64 (slice buf.data (of + 48) 8)).toNat = 0
        · rw [if_pos hsz, if_pos hsz]
        · rw [if_neg hsz, if_neg hsz]
  · rw [if_neg hof, if_neg hof]

/-- The cursor goes from one offset to the other in a round. -/
def NextOf (buf : Shbuf) (of of' : Nat) : Prop := (loadRound buf of).next = some of'

/-- The loop ends from an offset on. -/
inductive Ends (buf : Shbuf) : Nat → Prop
  | stop {of : Nat} (h : loadRound buf of = .stop) : Ends buf of
  | round {of of' : Nat} (h : NextOf buf of of') (hrest : Ends buf of') : Ends buf of

/-- What is read and stored in a round is in the buffer, and the cursor goes forward and not behind
the end. -/
def RoundSafe (buf : Shbuf) (of : Nat) : LoadRound → Prop
  | .stop => True
  | .skip next => of + sizeofMapValue ≤ buf.dataOf ∧ of < next ∧ next ≤ buf.dataOf
  | .value _ _ data sz next =>
    of + sizeofMapValue ≤ buf.dataOf ∧ data + sz ≤ buf.dataOf ∧ of < next ∧ next ≤ buf.dataOf

/-- The loop ends, and all its rounds are safe. -/
structure LoadSafe (buf : Shbuf) : Prop where
  ends : Ends buf 0
  rounds : ∀ of, Relation.ReflTransGen (NextOf buf) 0 of → RoundSafe buf of (loadRound buf of)

/-! ## Records -/

/-- Bytes in which every size fits: headers without the magic number, headers with a value of the
size that they say, and in the end less than a header. -/
inductive Records : Bytes → Prop
  | rest {bytes : Bytes} (hlen : bytes.length < sizeofMapValue) : Records bytes
  | skipped {header bytes : Bytes} (hlen : header.length = sizeofMapValue)
      (hmagic : leWord32 (header.take 4) ≠ shmem32Magic) (hrest : Records bytes) :
      Records (header ++ bytes)
  | value {header value bytes : Bytes} (hlen : header.length = sizeofMapValue)
      (hmagic : leWord32 (header.take 4) = shmem32Magic)
      (hsize : (leWord64 ((header.drop 48).take 8)).toNat = value.length) (hrest : Records bytes) :
      Records (header ++ (value ++ bytes))

/-- A part of a header. -/
theorem slice_part (d : Memory) (of a n : Nat) (h : a + n ≤ sizeofMapValue) :
    ((slice d of sizeofMapValue).drop a).take n = slice d (of + a) n := by
  obtain ⟨m, hm⟩ := Nat.exists_eq_add_of_le h
  rw [hm, Nat.add_assoc, slice_append, List.drop_left' (length_slice d a of), slice_append,
    List.take_left' (length_slice d n _)]

/-- A round at a whole header. -/
theorem loadRound_header {of : Nat} (h : of + sizeofMapValue ≤ buf.dataOf) :
    loadRound buf of = if leWord32 ((slice buf.data of sizeofMapValue).take 4) ≠ shmem32Magic then
        .skip (of + sizeofMapValue)
      else
        let sz := (leWord64 (((slice buf.data of sizeofMapValue).drop 48).take 8)).toNat
        if sz = 0 then .skip (of + sizeofMapValue)
        else .value (ShKey.ofBytes (slice buf.data (of + 16) 32))
          (leWord32 (slice buf.data (of + 12) 4))
          (of + sizeofMapValue) sz ((of + sizeofMapValue + sz) % 2 ^ 64) := by
  have hmagic : (slice buf.data of sizeofMapValue).take 4 = slice buf.data of 4 :=
    slice_part buf.data of 0 4 (by decide)
  have hpos : 0 < sizeofMapValue := by decide
  rw [loadRound, if_pos (by omega), hmagic, slice_part buf.data of 48 8 (by decide)]
  dsimp only
  rw [if_neg (by omega)]

theorem loadRound_short {of : Nat} (h : buf.dataOf < of + sizeofMapValue) :
    loadRound buf of = .stop := by
  rw [loadRound]
  split
  · exact if_pos h
  · rfl

/-! ## Safety -/

/-- The loop is safe from here on: a round is safe, and so are those behind it. -/
def SafeFrom (buf : Shbuf) (of : Nat) : Prop :=
  Ends buf of ∧ ∀ of', Relation.ReflTransGen (NextOf buf) of of' →
    RoundSafe buf of' (loadRound buf of')

theorem SafeFrom.stop {of : Nat} (h : loadRound buf of = .stop) : SafeFrom buf of := by
  refine ⟨.stop h, fun of' hreach => ?_⟩
  rcases Relation.ReflTransGen.cases_head hreach with rfl | ⟨next, hnext, -⟩
  · rw [h]
    trivial
  · rw [NextOf, h] at hnext
    cases hnext

theorem SafeFrom.round {of next : Nat} (hround : RoundSafe buf of (loadRound buf of))
    (hnext : NextOf buf of next)
    (hrest : SafeFrom buf next) : SafeFrom buf of := by
  refine ⟨.round hnext hrest.1, fun of' hreach => ?_⟩
  rcases Relation.ReflTransGen.cases_head hreach with rfl | ⟨other, hother, hreach⟩
  · exact hround
  · obtain rfl := Option.some.inj (hother.symm.trans hnext)
    exact hrest.2 of' hreach

/-- Over records the loop is safe. -/
theorem safe_of_records (hmax : buf.dataOf < 2 ^ 63) {bytes : Bytes} (h : Records bytes) :
    ∀ {of : Nat}, of ≤ buf.dataOf → slice buf.data of (buf.dataOf - of) = bytes →
      SafeFrom buf of := by
  have hhead : 0 < sizeofMapValue := by decide
  -- by induction on the records, with the cursor at the first of them
  induction h with
  | rest hlen =>
    intro of hof hslice
    rw [← hslice, length_slice] at hlen
    exact .stop (loadRound_short (by omega))
  | @skipped header bytes hlen hmagic _ ih =>
    intro of hof hslice
    have htotal := congrArg List.length hslice
    rw [length_slice, List.length_append, hlen] at htotal
    obtain ⟨hheader, hbytes⟩ := slice_eq_append hslice
    rw [hlen] at hheader hbytes
    have hround := loadRound_header (show of + sizeofMapValue ≤ buf.dataOf by omega)
    rw [hheader, if_pos hmagic] at hround
    refine .round ?_ (congrArg LoadRound.next hround) (ih (by omega) ?_)
    · rw [hround]
      exact ⟨by omega, by omega, by omega⟩
    · rw [← hbytes]
      congr 1
      omega
  | @value header value bytes hlen hmagic hsize _ ih =>
    intro of hof hslice
    have htotal := congrArg List.length hslice
    rw [length_slice, List.length_append, List.length_append, hlen] at htotal
    obtain ⟨hheader, hbehind⟩ := slice_eq_append hslice
    rw [hlen] at hheader hbehind
    obtain ⟨-, hbytes⟩ := slice_eq_append hbehind
    have hround := loadRound_header (show of + sizeofMapValue ≤ buf.dataOf by omega)
    rw [hheader, if_neg (not_not.mpr hmagic)] at hround
    dsimp only at hround
    rw [hsize] at hround
    have hrest : SafeFrom buf (of + sizeofMapValue + value.length) := by
      refine ih (by omega) ?_
      rw [← hbytes]
      congr 1
      omega
    by_cases hzero : value.length = 0
    · -- a value without bytes is not stored
      rw [if_pos hzero] at hround
      rw [hzero, Nat.add_zero] at hrest
      refine .round ?_ (congrArg LoadRound.next hround) hrest
      rw [hround]
      exact ⟨by omega, by omega, by omega⟩
    · -- the sum of the cursor and the size does not wrap
      rw [if_neg hzero, Nat.mod_eq_of_lt (show of + sizeofMapValue + value.length < 2 ^ 64 by
        omega)] at hround
      refine .round ?_ (congrArg LoadRound.next hround) hrest
      rw [hround]
      exact ⟨by omega, by omega, by omega, by omega⟩

theorem slice_split {of n : Nat} (h : of + n ≤ buf.dataOf) : slice buf.data of (buf.dataOf - of) =
    slice buf.data of n ++ slice buf.data (of + n) (buf.dataOf - (of + n)) := by
  rw [← slice_append]
  congr 1
  omega

/-- A header, its value, and the records behind them. -/
theorem records_value {of sz : Nat}
    (hmagic : leWord32 ((slice buf.data of sizeofMapValue).take 4) = shmem32Magic)
    (hsize : (leWord64 (((slice buf.data of sizeofMapValue).drop 48).take 8)).toNat = sz)
    (hvalue : of + sizeofMapValue + sz ≤ buf.dataOf)
    (hrest : Records (slice buf.data (of + sizeofMapValue + sz)
      (buf.dataOf - (of + sizeofMapValue + sz)))) :
    Records (slice buf.data of (buf.dataOf - of)) := by
  rw [slice_split (show of + sizeofMapValue ≤ buf.dataOf by omega), slice_split hvalue]
  exact .value (length_slice _ _ _) hmagic (by rw [hsize, length_slice]) hrest

/-- Where a round with a value is safe, the cursor goes behind the value. -/
theorem value_round {name : ShKey} {pf : UInt32} {of of' sz : Nat} (hmax : buf.dataOf < 2 ^ 63)
    (hfit : of + sizeofMapValue ≤ buf.dataOf) {round : LoadRound} (hfound : round = if sz = 0 then
      .skip (of + sizeofMapValue)
      else .value name pf (of + sizeofMapValue) sz ((of + sizeofMapValue + sz) % 2 ^ 64))
    (hnext : round.next = some of') (hround : RoundSafe buf of round) :
    of + sizeofMapValue + sz ≤ buf.dataOf ∧ of' = of + sizeofMapValue + sz := by
  by_cases hzero : sz = 0
  · rw [if_pos hzero] at hfound
    subst hfound
    obtain rfl := Option.some.inj hnext
    exact ⟨by omega, by omega⟩
  · rw [if_neg hzero] at hfound
    subst hfound
    obtain ⟨-, hvalue, -, -⟩ := hround
    have hof' : (of + sizeofMapValue + sz) % 2 ^ 64 = of' := Option.some.inj hnext
    rw [Nat.mod_eq_of_lt (by omega)] at hof'
    exact ⟨hvalue, hof'.symm⟩

/-- Where the loop is safe, it goes over records. -/
theorem records_of_safe (hmax : buf.dataOf < 2 ^ 63) {of : Nat} (hends : Ends buf of) :
    (∀ of', Relation.ReflTransGen (NextOf buf) of of' → RoundSafe buf of' (loadRound buf of')) →
    of ≤ buf.dataOf →
      Records (slice buf.data of (buf.dataOf - of)) := by
  induction hends with
  | @stop of h =>
    intro _ hof
    refine .rest ?_
    rw [length_slice]
    by_contra hlong
    -- a whole header does not end the loop
    rw [loadRound_header (by omega)] at h
    split at h
    · cases h
    · dsimp only at h
      split at h <;> cases h
  | @round of of' hnext _ ih =>
    intro hsafe hof
    -- what is reached behind the round is reached from it
    have hrest := ih fun of'' hreach => hsafe of'' (Relation.ReflTransGen.head hnext hreach)
    have hround := hsafe of .refl
    by_cases hfit : of + sizeofMapValue ≤ buf.dataOf
    · have hfound := loadRound_header hfit
      by_cases hmagic : leWord32 ((slice buf.data of sizeofMapValue).take 4) = shmem32Magic
      · rw [if_neg (not_not.mpr hmagic)] at hfound
        obtain ⟨sz, hsz⟩ :
            ∃ sz, (leWord64 (((slice buf.data of sizeofMapValue).drop 48).take 8)).toNat =
              sz := ⟨_, rfl⟩
        rw [hsz] at hfound
        obtain ⟨hvalue, rfl⟩ := value_round hmax hfit hfound hnext hround
        exact records_value hmagic hsz hvalue (hrest hvalue)
      · rw [if_pos hmagic] at hfound
        rw [NextOf, hfound] at hnext
        obtain rfl := Option.some.inj hnext
        rw [slice_split hfit]
        exact .skipped (length_slice _ _ _) hmagic (hrest hfit)
    · rw [NextOf, loadRound_short (by omega)] at hnext
      cases hnext

/-- A safe loop returns, whatever map it stores into. -/
theorem SafeFrom.returns (hle : buf.dataOf ≤ buf.dataMax) {of : Nat} (h : SafeFrom buf of) :
    ∃ n, ∀ fuel, n ≤ fuel → ∀ ht, ∃ ht', loadLoop buf fuel of ht = some ht' := by
  obtain ⟨hends, hrounds⟩ := h
  induction hends with
  | stop hstop =>
    refine ⟨1, fun fuel hfuel ht => ⟨ht, ?_⟩⟩
    obtain ⟨fuel, rfl⟩ := Nat.exists_eq_add_of_le' hfuel
    rw [loadLoop_round, hstop]
  | @round of of' hnext _ ih =>
    obtain ⟨n, hn⟩ := ih fun of'' hreach => hrounds of'' (Relation.ReflTransGen.head hnext hreach)
    refine ⟨n + 1, fun fuel hfuel ht => ?_⟩
    obtain ⟨fuel, rfl⟩ := Nat.exists_eq_add_of_le' hfuel
    have hround := hrounds of .refl
    rw [← Nat.add_assoc, loadLoop_round]
    unfold NextOf at hnext
    cases hfound : loadRound buf of with
    | stop =>
      rw [hfound] at hnext
      cases hnext
    | skip next =>
      rw [hfound] at hnext
      obtain rfl := Option.some.inj hnext
      exact hn _ (Nat.le_add_left n fuel) ht
    | value name pf data sz next =>
      rw [hfound] at hnext hround
      obtain rfl := Option.some.inj hnext
      dsimp only
      rw [if_neg fun hout => by have := hround.2.1; omega]
      exact hn _ (Nat.le_add_left n fuel) _

/-- Loading a buffer is safe for the bytes in which every size fits. -/
theorem load_safe_iff (buf : Shbuf) (hmax : buf.dataOf < 2 ^ 63) :
    LoadSafe buf ↔ Records (slice buf.data 0 buf.dataOf) := by
  constructor
  · intro h
    exact records_of_safe hmax h.ends h.rounds (Nat.zero_le _)
  · intro h
    obtain ⟨hends, hrounds⟩ := safe_of_records hmax h (Nat.zero_le _) rfl
    exact ⟨hends, hrounds⟩

/-- One header, with a size that is given, and a byte behind it. -/
def headerBuf (sz : UInt64) : Shbuf :=
  { data := fun i => (mapValue 0 0 0 ashkeyBlank sz).getD i 97
    dataOf := 73
    dataMax := 8192
    mapped := false }

/-- A buffer with the header of a record that claims one byte of content, and no more. -/
theorem load_safe_letter : LoadSafe (headerBuf 1) ↔ Records (slice (headerBuf 1).data 0 73) :=
  load_safe_iff (headerBuf 1) (by decide)

set_option maxRecDepth 4096 in
theorem headerBuf_back :
    loadRound (headerBuf (0 - 72)) 0 = .value ashkeyBlank 0 72 (2 ^ 64 - 72) 0 := by
  decide

/-- A size of -72 leads back to its own header, for ever. -/
theorem load_goes_back : ¬ LoadSafe (headerBuf (0 - 72)) ∧
    ∀ (fuel : Nat) (ht : Shmap Nat), shmapLoad fuel ht (headerBuf (0 - 72)) = none := by
  constructor
  · intro h
    have hround := h.rounds 0 .refl
    rw [headerBuf_back] at hround
    exact absurd hround.2.1 (by decide)
  · intro fuel
    induction fuel with
    | zero => exact fun _ => rfl
    | succ fuel ih =>
      intro ht
      rw [shmapLoad, loadLoop_round, headerBuf_back]
      dsimp only
      rw [if_neg (by decide)]
      exact ih _

end LibShare.Mem
