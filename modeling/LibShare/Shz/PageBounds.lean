import LibShare.Shz.Invariant

/-!
# libshare — SHZ archives: the bounds of a page

`shz_page` counts a page before it makes room for it, and `shz_avail` subtracts the
pages that are counted from the room that there is. Where the page lies beyond the
buffer, the difference wraps around, and there seems to be room enough.

* `le_shzAlloc` — an allocation does not take room away.
* `pageHeld_iff` — a page that is given lies within the buffer just when it did before
  the call: no page that is missing is ever made room for. The allocation that is made
  nevertheless is not to need 2^31 bytes (`Affordable`).
* `affordable_iff` — what that means where every page of a table has been counted or is
  refused.
-/

namespace LibShare.Shz

open Mem

/-- What is expected of `shz_page`: a page that it gives lies within the buffer, and the
room is counted without wrapping around, before the page is counted and after. -/
structure PageHeld (z : Arch) (bnum : Nat) : Prop where
  within : (shzPage bnum z).isSome
  avail : shzAvail z ≤ z.buff.dataMax
  availCounted : z.bseq ≤ bnum → ¬ outOfRange z bnum →
    shzAvail { z with bseq := bnum + 1 } ≤ z.buff.dataMax

/-- A page that `shz_page` gives. -/
def Given (z : Arch) (bnum : Nat) : Prop := z.bseq ≤ bnum → ¬ outOfRange z bnum

/-- Neither the allocation for a page that is counted now, nor one for a page of a table that it
leads to, needs 2^31 bytes on the heap. -/
def Affordable (z : Arch) (bnum : Nat) : Prop :=
  z.bseq ≤ bnum → (shzAlloc { z with bseq := bnum + 1 } (lenUpTo (bnum + 1))).isSome

/-! ## Room -/

theorem shzAvail_le_iff (z : Arch) :
    shzAvail z ≤ z.buff.dataMax ↔ z.bseq * pageSize % 2 ^ 32 ≤ z.buff.dataMax := by
  unfold shzAvail
  omega

/-- A buffer that grows to a multiple of the allocation size keeps what it has. -/
theorem le_grow {buff buff' : Shbuf} {len : Nat} (hlen : allocSize ∣ len)
    (hgrow : growTo buff len = some buff') :
    buff.dataMax ≤ buff'.dataMax := by
  obtain ⟨units, rfl⟩ := hlen
  unfold allocSize at hgrow
  unfold growTo at hgrow
  split at hgrow
  · obtain rfl := Option.some.inj hgrow
    unfold shbufGrowmap
    split
    · exact Nat.le_refl _
    · next hless =>
      dsimp only
      omega
  · unfold shbufGrow at hgrow
    split at hgrow
    · obtain rfl := Option.some.inj hgrow
      exact buff.le_grown _
    · cases hgrow

theorem shzScan_buff (z : Arch) (of max : Nat) : (shzScan z of max).buff = z.buff := by
  unfold shzScan
  split <;> rfl

/-- A step of the allocation leaves at least the room there was. -/
def Kept (alloc : Arch → Option Arch) : Prop :=
  ∀ z z', alloc z = some z' → z.buff.dataMax ≤ z'.buff.dataMax

theorem kept_allocWith {reset : Arch → Option Arch} (hreset : Kept reset) (len : Nat) :
    Kept fun z => allocWith reset z len := by
  intro z z' hrun
  dsimp only at hrun
  unfold allocWith at hrun
  split at hrun
  · obtain rfl := Option.some.inj hrun
    exact Nat.le_refl _
  · obtain ⟨buff, hbuff, hrest⟩ := Option.bind_eq_some_iff.mp hrun
    obtain ⟨z1, hz1, hend⟩ := Option.bind_eq_some_iff.mp hrest
    obtain rfl := Option.some.inj hend
    rw [shzScan_buff]
    exact (le_grow (allocSize_dvd len) hbuff).trans (hreset _ _ hz1)

theorem kept_resetPages {alloc : Arch → Nat → Option Arch}
    (halloc : ∀ len, Kept fun z => alloc z len) :
    ∀ seqs : List Nat, Kept fun z => seqs.foldlM (resetPage alloc) z := by
  intro seqs
  induction seqs with
  | nil =>
    intro z z' hrun
    obtain rfl := Option.some.inj hrun
    exact Nat.le_refl _
  | cons seq seqs ih =>
    intro z z' hrun
    dsimp only at hrun
    rw [List.foldlM_cons] at hrun
    obtain ⟨z1, hone, hrest⟩ := Option.bind_eq_some_iff.mp hrun
    refine Nat.le_trans ?_ (ih _ _ hrest)
    unfold resetPage at hone
    split at hone
    · obtain rfl := Option.some.inj hone
      exact Nat.le_refl _
    split at hone
    · cases hone
    · exact halloc (lenUpTo (seq + 1)) { z with bseq := seq + 1 } _ hone

theorem kept_allocDepth : ∀ n len, Kept fun z => allocDepth n z len := by
  intro n
  induction n with
  | zero =>
    refine fun len => kept_allocWith ?_ len
    rintro z z' hrun
    obtain rfl := Option.some.inj hrun
    exact Nat.le_refl _
  | succ n ih =>
    exact fun len =>
      kept_allocWith (fun z z' hrun => kept_resetPages ih (tableSeqs z) z z' hrun) len

/-- An allocation does not take room away. -/
theorem le_shzAlloc {z z' : Arch} {len : Nat} (h : shzAlloc z len = some z') :
    z.buff.dataMax ≤ z'.buff.dataMax :=
  kept_allocDepth _ len z z' h

theorem allocDepth_of_avail {z : Arch} {len : Nat} (h : allocLen len < shzAvail z) (n : Nat) :
    allocDepth n z len = some z := by
  have hskip : ∀ reset, allocWith reset z len = some z := fun reset => if_pos h
  cases n with
  | zero => exact hskip some
  | succ n => exact hskip _

/-- No room is made for a page beyond the buffer. -/
theorem shzAlloc_beyond {z : Arch} {bnum : Nat} (hint : bnum < 2 ^ 21)
    (h : z.buff.dataMax < (bnum + 1) * pageSize) :
    shzAlloc { z with bseq := bnum + 1 }
      (lenUpTo (bnum + 1)) = some { z with bseq := bnum + 1 } := by
  refine allocDepth_of_avail ?_ _
  unfold allocLen lenUpTo shzAvail allocSize
  unfold pageSize at *
  dsimp only
  omega

/-- Where every page of a table has been counted or is refused, the one allocation for a page of the
buffer is to be smaller than what is left of the buffer, or possible. -/
theorem affordable_iff {z : Arch} {bnum : Nat} (hint : bnum < 2 ^ 21)
    (hwithin : (bnum + 1) * pageSize ≤ z.buff.dataMax)
    (hquiet : ∀ seq ∈ tableSeqs z, bnum + 1 ≤ seq → outOfRange z seq) :
    Affordable z bnum ↔ (z.bseq ≤ bnum → allocLen (lenUpTo (bnum + 1)) <
      shzAvail { z with bseq := bnum + 1 } ∨
      Allocates z.buff (lenUpTo (bnum + 1))) := by
  have hpos : 0 < z.buff.dataMax :=
    Nat.lt_of_lt_of_le (Nat.mul_pos (Nat.succ_pos _) (by decide)) hwithin
  have hroomy : Roomy { z with bseq := bnum + 1 } := ⟨hint, hwithin, hpos, hquiet⟩
  exact imp_congr_right fun _ => hroomy.alloc_isSome _

/-! ## Pages -/

theorem pageAt_isSome (bnum : Nat) (z : Arch) :
    (pageAt bnum z).isSome ↔ bnum < 2 ^ 21 ∧ (bnum + 1) * pageSize ≤ z.buff.dataMax := by
  have hrun : pageAt bnum z = (if 2 ^ 31 ≤ bnum * pageSize ∨
      z.buff.dataMax < (bnum + 1) * pageSize then
      (Prog.undef : ShzM (Option Nat)) else pure (some bnum)) z := rfl
  rw [hrun]
  split
  · next hout =>
    refine iff_of_false Bool.false_ne_true ?_
    rintro ⟨hint, hle⟩
    unfold pageSize at *
    omega
  · next hin =>
    refine iff_of_true rfl ?_
    unfold pageSize at *
    omega

theorem shzPage_counted {z : Arch} {bnum : Nat} (h : bnum < z.bseq) :
    shzPage bnum z = pageAt bnum z := by
  unfold shzPage
  rw [Prog.bind_ok (Prog.read_run _ _), if_neg (by exact Nat.not_le.mpr h)]

theorem shzPage_refused {z : Arch} {bnum : Nat} (h : z.bseq ≤ bnum) (hout : outOfRange z bnum) :
    shzPage bnum z = some (.ok none, z) := by
  unfold shzPage
  rw [Prog.bind_ok (Prog.read_run _ _), if_pos (by exact h), if_pos (by exact hout)]
  rfl

theorem shzPage_new {z z' : Arch} {bnum : Nat} (h : z.bseq ≤ bnum) (hin : ¬ outOfRange z bnum)
    (halloc : shzAlloc { z with bseq := bnum + 1 } (lenUpTo (bnum + 1)) = some z') :
    shzPage bnum z = pageAt bnum z' := by
  unfold shzPage
  rw [Prog.bind_ok (Prog.read_run _ _), if_pos (by exact h), if_neg (by exact hin),
    Prog.bind_ok (Prog.modify_run _ _), Prog.bind_ok (alloc_run halloc)]

theorem shzPage_none {z : Arch} {bnum : Nat} (h : z.bseq ≤ bnum) (hin : ¬ outOfRange z bnum)
    (halloc : shzAlloc { z with bseq := bnum + 1 } (lenUpTo (bnum + 1)) = none) :
    shzPage bnum z = none := by
  unfold shzPage
  rw [Prog.bind_ok (Prog.read_run _ _), if_pos (by exact h), if_neg (by exact hin),
    Prog.bind_ok (Prog.modify_run _ _)]
  exact Prog.bind_none (by rw [alloc, halloc]; rfl)

/-- A page that is given lies within the buffer just when it did before, and the allocation for it
is possible. -/
theorem shzPage_isSome (z : Arch) (bnum : Nat) : (shzPage bnum z).isSome ↔
    (Given z bnum → bnum < 2 ^ 21 ∧ (bnum + 1) * pageSize ≤ z.buff.dataMax ∧
      Affordable z bnum) := by
  by_cases hcount : z.bseq ≤ bnum
  · by_cases hout : outOfRange z bnum
    · rw [shzPage_refused hcount hout]
      exact iff_of_true rfl fun hgiven => absurd hout (hgiven hcount)
    · rcases halloc : shzAlloc { z with bseq := bnum + 1 } (lenUpTo (bnum + 1)) with _ | z'
      · rw [shzPage_none hcount hout halloc]
        refine iff_of_false Bool.false_ne_true fun h => ?_
        have hsome := (h fun _ => hout).2.2 hcount
        rw [halloc] at hsome
        exact Bool.false_ne_true hsome
      · rw [shzPage_new hcount hout halloc, pageAt_isSome]
        constructor
        · rintro ⟨hint, hle⟩ -
          refine ⟨hint, ?_, fun _ => by rw [halloc]; rfl⟩
          by_contra hbeyond
          obtain rfl :=
            Option.some.inj (halloc.symm.trans (shzAlloc_beyond hint (Nat.lt_of_not_le hbeyond)))
          exact hbeyond hle
        · intro h
          obtain ⟨hint, hle, -⟩ := h fun _ => hout
          have hkept := le_shzAlloc halloc
          exact ⟨hint, hle.trans hkept⟩
  · rw [shzPage_counted (Nat.lt_of_not_le hcount), pageAt_isSome]
    constructor
    · exact fun h _ => ⟨h.1, h.2, fun hle => absurd hle hcount⟩
    · intro h
      obtain ⟨hint, hle, -⟩ := h fun hle => absurd hle hcount
      exact ⟨hint, hle⟩

/-- A page that is given lies within the buffer, and the room is counted without wrapping
around, just when the page and the pages that are counted did fit before the call, and the
allocation that the page leads to does not need 2^31 bytes. -/
theorem pageHeld_iff (z : Arch) (bnum : Nat) : PageHeld z bnum ↔
    (Given z bnum → bnum < 2 ^ 21 ∧ (bnum + 1) * pageSize ≤ z.buff.dataMax ∧ Affordable z bnum) ∧
      z.bseq * pageSize % 2 ^ 32 ≤ z.buff.dataMax := by
  constructor
  · rintro ⟨hwithin, havail, -⟩
    exact ⟨(shzPage_isSome z bnum).mp hwithin, (shzAvail_le_iff z).mp havail⟩
  · rintro ⟨hwithin, havail⟩
    refine ⟨(shzPage_isSome z bnum).mpr hwithin, (shzAvail_le_iff z).mpr havail, ?_⟩
    intro _ hin
    obtain ⟨-, hle, -⟩ := hwithin fun _ => hin
    refine (shzAvail_le_iff { z with bseq := bnum + 1 }).mpr ?_
    exact (Nat.mod_le ((bnum + 1) * pageSize) (2 ^ 32)).trans hle

/-! ## An archive that records more than it has -/

/-- A base page that records the size of 100 pages, in a buffer of 64 pages. -/
def tooLarge : Arch where
  bseq := 1
  flags := 0
  buff :=
    { data := poke (fun _ => 0) 16 (beBytes 8 102400)
      dataOf := 65536
      dataMax := 65536
      mapped := false }
  dtable := .nil
  ftable := .nil
  clocks := 0
  live := 1
  handed := []

/-- Page 80 is given, and lies outside of the buffer. -/
theorem page_outside : ¬ PageHeld tooLarge 80 := by
  intro h
  have hsize : shzSize tooLarge = 102400 := by decide
  obtain ⟨hwithin, -⟩ := (pageHeld_iff tooLarge 80).mp h
  obtain ⟨-, hle, -⟩ := hwithin fun _ => by
    unfold outOfRange
    rw [maxSeq_eq (by rw [hsize]; decide), hsize]
    decide
  exact absurd hle (by decide)

end LibShare.Shz
