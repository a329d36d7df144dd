import LibShare.Shz.Archive

/-!
# libshare — SHZ archives: the invariant

What holds of an archive between operations (`Inv`): the buffer has room for its
pages, the size in the base page and the number of live pages agree with `bseq`,
and no page has been handed out while it was live. With `b` also that memory
beyond the archive is zero and that no module page names a zlib page (`Orderly`).

`Step b z z'` is what an operation may do to such an archive. Looking up a page
does nothing (`Inv.page`), a new page is the next one (`Inv.pageNew`), and a write
into a page keeps the invariant where it is `Writable`.
-/

namespace LibShare.Shz

open Mem

variable {b : Bool} {z z' z'' : Arch} {p q of n v t : Nat} {bs : Bytes}

/-! ## Fields of pages -/

@[simp] theorem Arch.put_bseq : (z.put p of bs).bseq = z.bseq := rfl

/-- The bytes of a page that a write does not reach. -/
theorem Arch.bytes_put_ne (hend : of + bs.length ≤ pageSize) {of' : Nat}
    (hend' : of' + n ≤ pageSize)
    (h : q = p → of' + n ≤ of ∨ of + bs.length ≤ of') :
    (z.put p of bs).bytes q of' n = z.bytes q of' n := by
  unfold pageSize at hend hend'
  unfold Arch.bytes Arch.put pageSize
  rcases Nat.lt_trichotomy q p with hlt | heq | hgt
  · exact slice_poke_ne (by omega)
  · have hcase := h heq
    exact slice_poke_ne (by omega)
  · exact slice_poke_ne (by omega)

/-- A write leaves the fields that it does not overlap. -/
theorem Arch.fld_put_ne (hend : of + bs.length ≤ pageSize) {of' : Nat} (hend' : of' + n ≤ pageSize)
    (h : q = p → of' + n ≤ of ∨ of + bs.length ≤ of') :
    (z.put p of bs).fld q of' n = z.fld q of' n :=
  congrArg beVal (Arch.bytes_put_ne hend hend' h)

/-- What has been written to a page is read back. -/
theorem Arch.bytes_put : (z.put p of bs).bytes p of bs.length = bs := slice_poke _ _ _

/-- A number that fits into a field is read back from it. -/
theorem Arch.fld_put {w : Nat} (h : v < 256 ^ w) : (z.put p of (beBytes w v)).fld p of w = v :=
  beAt_poke _ _ _ _ h

/-! ## The invariant -/

/-- No node of a tree is the base page. -/
def Tree.Proper : Tree → Prop
  | .nil => True
  | .node seq left right => seq ≠ 0 ∧ left.Proper ∧ right.Proper

/-- A page that is not a zlib page. -/
structure Plain (z : Arch) (p : Nat) : Prop where
  lt : p < z.bseq
  type : shzPageType z p ≠ pageZlib

/-- Memory beyond the archive is zero, and no module page names a zlib page. -/
structure Orderly (z : Arch) : Prop where
  clean : ∀ i, z.bseq * pageSize ≤ i → z.buff.data i = 0
  base : Plain z 0
  mods : ∀ p < z.bseq, isShzModType (shzPageType z p) = true → Plain z (z.fld p 56 4)

/-- What holds of an archive between operations. -/
structure Inv (b : Bool) (z : Arch) : Prop where
  pos : 1 ≤ z.bseq
  le : z.bseq ≤ 2 ^ 21
  room : z.bseq * pageSize ≤ z.buff.dataMax
  size : shzSize z / pageSize = z.bseq
  live : z.live = z.bseq
  handed : ∀ h ∈ z.handed, h.2 ≤ h.1
  dtable : z.dtable.Proper
  ftable : z.ftable.Proper
  orderly : b = true → Orderly z

/-- What an operation may do: pages are added, and the old ones keep their types. -/
structure Step (b : Bool) (z z' : Arch) : Prop where
  inv : Inv b z'
  bseq : z.bseq ≤ z'.bseq
  type : ∀ p < z.bseq, shzPageType z' p = shzPageType z p

/-- A sound archive is a step from itself. -/
theorem Inv.refl (h : Inv b z) : Step b z z := ⟨h, Nat.le_refl _, fun _ _ => rfl⟩

/-- Steps are composed. -/
theorem Step.trans (h : Step b z z') (h' : Step b z' z'') : Step b z z'' where
  inv := h'.inv
  bseq := Nat.le_trans h.bseq h'.bseq
  type p hp := (h'.type p (Nat.lt_of_lt_of_le hp h.bseq)).trans (h.type p hp)

instance : IsTrans Arch (Step b) := ⟨fun _ _ _ => Step.trans⟩

/-- The pages and their numbers stay as they are. -/
theorem Inv.same (h : Inv b z) (hbuff : z'.buff = z.buff) (hbseq : z'.bseq = z.bseq)
    (hlive : z'.live = z.live)
    (hhanded : z'.handed = z.handed) (hd : z'.dtable.Proper) (hf : z'.ftable.Proper) :
    Step b z z' := by
  obtain ⟨bseq, flags, buff, dtable, ftable, clocks, live, handed⟩ := z'
  cases hbuff
  cases hbseq
  cases hlive
  cases hhanded
  refine ⟨⟨h.pos, h.le, h.room, h.size, h.live, h.handed, hd, hf, ?_⟩, Nat.le_refl _,
    fun _ _ => rfl⟩
  intro hb
  have ho := h.orderly hb
  exact ⟨ho.clean, ⟨ho.base.lt, ho.base.type⟩, fun p hp hmod =>
    ⟨(ho.mods p hp hmod).lt, (ho.mods p hp hmod).type⟩⟩

/-- A page with its type. -/
structure IsPage (z : Arch) (p t : Nat) : Prop where
  lt : p < z.bseq
  type : shzPageType z p = t

/-- A page keeps its type in every step. -/
theorem IsPage.step (h : IsPage z p t) (hs : Step b z z') : IsPage z' p t :=
  ⟨Nat.lt_of_lt_of_le h.lt hs.bseq, (hs.type p h.lt).trans h.type⟩

/-- A page that is no compressed chunk is a plain one. -/
theorem IsPage.plain (h : IsPage z p t) (ht : t ≠ pageZlib) : Plain z p :=
  ⟨h.lt, by rw [h.type]; exact ht⟩

/-- A plain page stays one. -/
theorem Plain.step (h : Plain z p) (hs : Step b z z') : Plain z' p :=
  ⟨Nat.lt_of_lt_of_le h.lt hs.bseq, by rw [hs.type p h.lt]; exact h.type⟩

/-! ## Writing into a page -/

/-- A write that leaves the header, the size of the archive and, with `b`, the
page that a module page names as they are; or names another plain page. -/
structure Writable (b : Bool) (z : Arch) (p of : Nat) (bs : Bytes) : Prop where
  lt : p < z.bseq
  header : 4 ≤ of
  fits : of + bs.length ≤ pageSize
  base : p = 0 → of + bs.length ≤ 16 ∨ 24 ≤ of
  seq : b = true → isShzModType (shzPageType z p) = true →
    of + bs.length ≤ 56 ∨ 60 ≤ of ∨ of = 56 ∧ ∃ v, Plain z v ∧ bs = beBytes 4 v

/-- A write to where one may write changes no type. -/
theorem Writable.type (h : Writable b z p of bs) (q : Nat) :
    shzPageType (z.put p of bs) q = shzPageType z q :=
  Arch.fld_put_ne h.fits (by decide) fun _ => Or.inl (by have := h.header; omega)

/-- The page that a module page names after a write. -/
theorem Writable.mods (h : Writable true z p of bs) (hle : z.bseq ≤ 2 ^ 21) (ho : Orderly z)
    (hq : q < z.bseq) (hmod : isShzModType (shzPageType z q) = true) :
    Plain z ((z.put p of bs).fld q 56 4) := by
  by_cases hqp : q = p
  · subst hqp
    rcases h.seq rfl hmod with hbefore | hafter | ⟨hof, v, hv, hbs⟩
    · rw [Arch.fld_put_ne h.fits (by decide) fun _ => Or.inr hbefore]
      exact ho.mods q hq hmod
    · rw [Arch.fld_put_ne h.fits (by decide) fun _ => Or.inl (by omega)]
      exact ho.mods q hq hmod
    · have hsmall : v < 256 ^ 4 := by
        have := hv.lt
        omega
      rw [hof, hbs, Arch.fld_put hsmall]
      exact hv
  · rw [Arch.fld_put_ne h.fits (by decide) fun heq => absurd heq hqp]
    exact ho.mods q hq hmod

/-- A write to where one may write leaves the recorded size in order. -/
theorem Writable.orderly (h : Writable true z p of bs) (hle : z.bseq ≤ 2 ^ 21) (ho : Orderly z) :
    Orderly (z.put p of bs) := by
  have hplain : ∀ {q}, Plain z q → Plain (z.put p of bs) q := fun hq =>
    ⟨hq.lt, by rw [h.type]; exact hq.type⟩
  refine ⟨?_, hplain ho.base, ?_⟩
  · intro i hi
    have hout : p * pageSize + of + bs.length ≤ i := by
      have hnext : (p + 1) * pageSize ≤ z.bseq * pageSize := Nat.mul_le_mul_right _ h.lt
      have hfits := h.fits
      rw [Nat.succ_mul] at hnext
      rw [Arch.put_bseq] at hi
      omega
    exact (poke_of_not_mem (Or.inr hout)).trans (ho.clean i hi)
  · intro q hq hmod
    rw [h.type] at hmod
    exact hplain (h.mods hle ho hq hmod)

/-- A write keeps the invariant. -/
theorem Inv.put (h : Inv b z) (hw : Writable b z p of bs) : Step b z (z.put p of bs) := by
  have hsize : shzSize (z.put p of bs) = shzSize z :=
    Arch.fld_put_ne hw.fits (by decide) fun heq => by
      have := hw.base heq.symm
      omega
  refine ⟨{ h with size := ?_, orderly := ?_ }, Nat.le_refl _, fun q _ => hw.type q⟩
  · rw [hsize]
    exact h.size
  · intro hb
    subst hb
    exact hw.orderly h.le (h.orderly rfl)

/-- A write to where one may write is a step. -/
theorem keeps_put (h : Inv b z) (hw : Writable b z p of bs) :
    Prog.Keeps (Step b) (put p of bs) z fun _ _ => True :=
  Prog.Keeps.modify (h.put hw) trivial

/-! ## Growing the buffer -/

/-- The archive with a larger buffer. -/
def Arch.regrow (z : Arch) (dataOf max : Nat) : Arch :=
  { z with buff := { z.buff with dataOf := dataOf, dataMax := max } }

/-- A buffer that has grown is a step: no page has been touched. -/
theorem Inv.regrow (h : Inv b z) {dataOf max : Nat} (hmax : z.buff.dataMax ≤ max) :
    Step b z (z.regrow dataOf max) :=
  ⟨{ h with
      room := Nat.le_trans h.room hmax
      orderly :=
        fun hb => ⟨(h.orderly hb).clean, ⟨(h.orderly hb).base.lt, (h.orderly hb).base.type⟩,
          fun p hp hmod =>
            ⟨((h.orderly hb).mods p hp hmod).lt, ((h.orderly hb).mods p hp hmod).type⟩⟩ },
    Nat.le_refl _, fun _ _ => rfl⟩

/-- The buffer has room for the pages, and none of a table has to be looked for. -/
structure Roomy (z : Arch) : Prop where
  le : z.bseq ≤ 2 ^ 21
  room : z.bseq * pageSize ≤ z.buff.dataMax
  pos : 0 < z.buff.dataMax
  quiet : ∀ seq ∈ tableSeqs z, z.bseq ≤ seq → outOfRange z seq

/-- The recorded size of an archive that is not negative. -/
theorem maxSeq_eq (h : shzSize z < 2 ^ 63) : maxSeq z = shzSize z / pageSize := if_pos h

/-- The greatest page by the recorded size is the sequence. -/
theorem Inv.maxSeq_eq (h : Inv b z) : maxSeq z = z.bseq := by
  have hle := h.le
  have hsize := h.size
  rw [Shz.maxSeq_eq, hsize]
  unfold pageSize at hsize
  omega

/-- Page numbers are those of 64 bits or larger. -/
theorem le_asSize (n : Nat) : n ≤ asSize n := by
  unfold asSize
  split
  · exact Nat.le_refl n
  · exact Nat.le_add_right n _

/-- A page that has not been handed out is out of range. -/
theorem Inv.outOfRange (h : Inv b z) (hn : z.bseq ≤ n) : outOfRange z n := by
  unfold Shz.outOfRange
  rw [h.maxSeq_eq]
  exact Nat.le_trans hn (le_asSize n)

/-- A sound archive has room for its pages. -/
theorem Inv.roomy (h : Inv b z) : Roomy z where
  le := h.le
  room := h.room
  pos := Nat.lt_of_lt_of_le (Nat.mul_pos h.pos (by decide)) h.room
  quiet _ _ hle := h.outOfRange hle

/-- The tables stay as they are. -/
theorem foldlM_resetPage {alloc : Arch → Nat → Option Arch} :
    ∀ {seqs : List Nat}, (∀ seq ∈ seqs, z.bseq ≤ seq → outOfRange z seq) →
      seqs.foldlM (resetPage alloc) z = some z := by
  intro seqs
  induction seqs with
  | nil =>
    intro _
    rfl
  | cons seq seqs ih =>
    intro h
    have hskip : resetPage alloc z seq = some z := by
      unfold resetPage
      rw [if_pos]
      rcases Nat.lt_or_ge seq z.bseq with hlt | hge
      · exact Or.inl hlt
      · exact Or.inr (h seq List.mem_cons_self hge)
    rw [List.foldlM_cons, hskip, Option.bind_eq_bind, Option.bind_some]
    exact ih fun s hs => h s (List.mem_cons_of_mem _ hs)

/-- An allocated buffer that has grown to a length. -/
theorem grow_run {buff : Shbuf} (hpos : 0 < z.buff.dataMax) {len : Nat} (hlen : allocSize ∣ len)
    (hgrow : growTo z.buff len = some buff) :
    ∃ dataOf max, z.buff.dataMax ≤ max ∧ len ≤ max ∧
      buff = { z.buff with dataOf := dataOf, dataMax := max } := by
  obtain ⟨k, rfl⟩ := hlen
  unfold allocSize at *
  unfold growTo at hgrow
  split at hgrow
  · obtain rfl := Option.some.inj hgrow
    unfold shbufGrowmap
    split
    · exact ⟨z.buff.dataOf, z.buff.dataMax, Nat.le_refl _, by assumption, rfl⟩
    · exact ⟨_, _, by omega, by omega, rfl⟩
  · unfold shbufGrow at hgrow
    split at hgrow
    · obtain rfl := Option.some.inj hgrow
      have hblocks := shbufBlocks_le (65536 * k)
      unfold Shbuf.grown
      dsimp only
      split
      · exact ⟨z.buff.dataOf, z.buff.dataMax, Nat.le_refl _, by omega, rfl⟩
      · rw [if_neg (by omega)]
        exact ⟨z.buff.dataOf, _, by omega, by omega, rfl⟩
    · cases hgrow

/-- There can be an allocation of a length that is rounded up. -/
def Allocates (buff : Shbuf) (len : Nat) : Prop :=
  buff.mapped = true ∨ allocLen len ≤ 2 ^ 31 - allocSize

instance (buff : Shbuf) (len : Nat) : Decidable (Allocates buff len) :=
  inferInstanceAs (Decidable (_ ∨ _))

/-- What is asked for is a multiple of 64 KiB. -/
theorem allocSize_dvd (len : Nat) : allocSize ∣ allocLen len := by
  unfold allocLen allocSize
  omega

/-- The length that is asked for, rounded up, as long as it is less than 2^32. -/
theorem allocLen_eq {len : Nat} (hpos : 0 < len) (hlen : len < 2 ^ 32) :
    allocLen len = ((len - 1) / allocSize + 1) * allocSize := by
  unfold allocLen allocSize
  omega

/-- The buffer grows just when the allocation has a result. -/
theorem growTo_isSome (buff : Shbuf) (len : Nat) :
    (growTo buff (allocLen len)).isSome ↔ Allocates buff len := by
  have hdvd := allocSize_dvd len
  unfold growTo Allocates
  rcases buff.mapped with _ | _
  · have hblocks : shbufBlocks (allocLen len) < 2 ^ 31 ↔ allocLen len ≤ 2 ^ 31 - allocSize := by
      obtain ⟨k, hk⟩ := hdvd
      rw [hk]
      unfold shbufBlocks allocSize
      omega
    rw [if_neg Bool.false_ne_true, ← hblocks]
    unfold shbufGrow
    split
    · next hfits => exact iff_of_true rfl (Or.inr hfits)
    · next hfits => exact iff_of_false Bool.false_ne_true (not_or.mpr ⟨Bool.false_ne_true, hfits⟩)
  · exact iff_of_true rfl (Or.inl rfl)

/-- An allocation for the next page changes nothing but the buffer: the scan begins at its
old end, beyond the last page. -/
theorem Roomy.allocDepth (h : Roomy z) (len depth : Nat) :
    allocDepth depth z len = if allocLen len < shzAvail z then some z
      else (growTo z.buff (allocLen len)).map fun buff => { z with buff := buff } := by
  have hwith : ∀ reset : Arch → Option Arch,
      (∀ dataOf max, reset (z.regrow dataOf max) = some (z.regrow dataOf max)) →
      allocWith reset z len = if allocLen len < shzAvail z then some z
        else (growTo z.buff (allocLen len)).map fun buff => { z with buff := buff } := by
    intro reset hreset
    unfold allocWith
    split
    · rfl
    · rcases hgrow : growTo z.buff (allocLen len) with _ | buff
      · rfl
      · obtain ⟨dataOf, max, -, -, rfl⟩ := grow_run h.pos (allocSize_dvd len) hgrow
        have hr := hreset dataOf max
        have hscan : shzScan (z.regrow dataOf max) z.buff.dataMax max = z.regrow dataOf max := by
          unfold shzScan
          rw [if_pos]
          have hroom := h.room
          unfold pageSize at *
          show z.bseq ≤ z.buff.dataMax / 1024
          omega
        show (reset (z.regrow dataOf max)).bind _ = _
        rw [hr]
        exact congrArg some hscan
  rcases depth with _ | depth
  · exact hwith some fun _ _ => rfl
  · exact hwith _ fun dataOf max => foldlM_resetPage h.quiet

/-- In an archive with room the call asks for memory only if less is available than is needed.
-/
theorem Roomy.alloc (h : Roomy z) (len : Nat) :
    shzAlloc z len = if allocLen len < shzAvail z then some z
      else (growTo z.buff (allocLen len)).map fun buff => { z with buff := buff } :=
  h.allocDepth len _

/-- An allocation that has a result. -/
theorem Roomy.alloc_regrow (h : Roomy z) {len : Nat} (hpos : 0 < len) (hlen : len < 2 ^ 32)
    (halloc : shzAlloc z len = some z') :
    ∃ dataOf max, z.buff.dataMax ≤ max ∧ (shzAvail z ≤ allocSize → len ≤ max) ∧
      z' = z.regrow dataOf max := by
  rw [h.alloc] at halloc
  have hround : len ≤ allocLen len ∧ allocSize ≤ allocLen len := by
    rw [allocLen_eq hpos hlen]
    unfold allocSize
    omega
  split at halloc
  · obtain rfl := Option.some.inj halloc
    exact ⟨z.buff.dataOf, z.buff.dataMax, Nat.le_refl _, fun havail => by omega, rfl⟩
  · obtain ⟨buff, hgrow, rfl⟩ := Option.map_eq_some_iff.mp halloc
    obtain ⟨dataOf, max, hmax, hle, rfl⟩ := grow_run h.pos (allocSize_dvd len) hgrow
    exact ⟨dataOf, max, hmax, fun _ => Nat.le_trans hround.1 hle, rfl⟩

/-- An allocation has a result where it is not needed, or possible. -/
theorem Roomy.alloc_isSome (h : Roomy z) (len : Nat) :
    (shzAlloc z len).isSome ↔ allocLen len < shzAvail z ∨ Allocates z.buff len := by
  rw [h.alloc]
  split
  · next havail => exact iff_of_true rfl (Or.inl havail)
  · next havail => rw [Option.isSome_map, growTo_isSome, or_iff_right havail]

/-! ## Programs with allocations -/

/-- An allocation with a result succeeds. -/
theorem alloc_run {len : Nat} (h : shzAlloc z len = some z') : alloc len z = some (.ok (), z') := by
  rw [Shz.alloc, h]
  rfl

/-- An allocation in a program: nothing is said where it has no result. -/
theorem alloc_inv {len : Nat} {r : Except Sherr Unit} (hrun : alloc len z = some (r, z')) :
    r = .ok () ∧ shzAlloc z len = some z' := by
  obtain ⟨z1, halloc, heq⟩ := Option.map_eq_some_iff.mp hrun
  obtain ⟨rfl, rfl⟩ := Prod.mk.inj heq
  exact ⟨rfl, halloc⟩

/-! ## Pages that are looked up -/

/-- A page whose offset is an `int` and which lies inside of the buffer is found. -/
theorem pageAt_run {max : Nat} (hmax : z.buff.dataMax = max) (hlt : n * pageSize < 2 ^ 31)
    (hroom : (n + 1) * pageSize ≤ max) : pageAt n z = some (.ok (some n), z) := by
  unfold pageAt
  rw [Prog.bind_ok (Prog.read_run _ _), hmax, if_neg (by omega)]
  rfl

/-- A page of the archive is where it is, and there is no other. -/
theorem Inv.page (h : Inv b z) (n : Nat) :
    shzPage n z = some (.ok (if n < z.bseq then some n else none), z) := by
  unfold shzPage
  rw [Prog.bind_ok (Prog.read_run _ _)]
  by_cases hn : n < z.bseq
  · rw [if_pos hn, if_neg (by exact Nat.not_le.mpr hn)]
    have hnext : (n + 1) * pageSize ≤ z.bseq * pageSize := Nat.mul_le_mul_right _ hn
    have hle := h.le
    refine pageAt_run rfl ?_ (Nat.le_trans hnext h.room)
    unfold pageSize at *
    omega
  · rw [if_neg hn, if_pos (by exact Nat.le_of_not_lt hn), if_pos]
    · rfl
    · exact h.outOfRange (Nat.le_of_not_lt hn)

/-- Every page that has been handed out is found. -/
theorem Inv.page_some (h : Inv b z) (hn : n < z.bseq) : shzPage n z = some (.ok (some n), z) := by
  rw [h.page, if_pos hn]

/-! ## New pages -/

/-- The next page, with its type. -/
def newPage (t : Nat) (z : Arch) : Arch :=
  ((shzSizeIncr (takePage z) pageSize).put z.bseq 2 magic).put z.bseq 0 (beBytes 2 t)

/-- Where more than a page is available there is room for one. -/
theorem Roomy.avail (h : Roomy z) (havail : pageSize < shzAvail z) :
    (z.bseq + 1) * pageSize ≤ z.buff.dataMax := by
  have hle := h.le
  have hroom := h.room
  have hmod : z.bseq * pageSize % 2 ^ 32 = z.bseq * pageSize := by
    unfold pageSize
    omega
  have hdiff : shzAvail z ≤ z.buff.dataMax - z.bseq * pageSize := by
    unfold shzAvail
    rw [hmod, Nat.sub_add_comm hroom, Nat.add_mod_right]
    exact Nat.mod_le _ _
  rw [Nat.succ_mul]
  omega

/-- The length up to the next page, as long as there are at most 2^21. -/
theorem lenUpTo_bseq (hle : z.bseq ≤ 2 ^ 21) : lenUpTo z.bseq = (z.bseq + 1) * pageSize := by
  unfold lenUpTo pageSize
  omega

/-- The buffer can hold the next page, or can be made to. -/
def PageFits (z : Arch) : Prop := pageSize < shzAvail z ∨ Allocates z.buff (lenUpTo z.bseq)

instance (z : Arch) : Decidable (PageFits z) := inferInstanceAs (Decidable (_ ∨ _))

/-- Room can be made for every page of the archive again: it is in a file, or 64 KiB below what
a buffer on the heap can hold. -/
def Readable (z : Arch) : Prop := z.buff.mapped = true ∨ z.bseq ≤ 2 ^ 21 - 64

instance (z : Arch) : Decidable (Readable z) := inferInstanceAs (Decidable (_ ∨ _))

/-- With fewer than 2^21 - 64 pages the allocation has a result. -/
theorem allocates_upTo (hn : n < 2 ^ 21 - 64) (buff : Shbuf) : Allocates buff (lenUpTo n) := by
  have hlen : lenUpTo n = (n + 1) * pageSize := by
    unfold lenUpTo pageSize
    omega
  refine Or.inr ?_
  rw [hlen, allocLen_eq (Nat.mul_pos (Nat.succ_pos _) (by decide)) (by unfold pageSize; omega)]
  unfold allocSize pageSize
  omega

/-- With fewer than 2^21 - 64 pages a new page fits, wherever the buffer is. -/
theorem pageFits_of_lt (h : z.bseq < 2 ^ 21 - 64) : PageFits z := Or.inr (allocates_upTo h _)

/-- Room is made for a page of the archive. -/
theorem Readable.alloc (hr : Readable z) (h : Roomy z) (hn : n < z.bseq) :
    ∃ z', shzAlloc z (lenUpTo n) = some z' := by
  rw [← Option.isSome_iff_exists, h.alloc_isSome]
  rcases hr with hmapped | hle
  · exact Or.inr (Or.inl hmapped)
  · exact Or.inr (allocates_upTo (by omega) _)

/-- The buffer before a page is taken. -/
theorem Roomy.pageRoom (h : Roomy z) :
    (∃ dataOf max, z.buff.dataMax ≤ max ∧ (z.bseq + 1) * pageSize ≤ max ∧
      pageRoom z = some (.ok (), z.regrow dataOf max)) ∨ pageRoom z = none ∧ ¬ PageFits z := by
  have hlen := lenUpTo_bseq h.le
  have hlt : lenUpTo z.bseq < 2 ^ 32 := Nat.mod_lt _ (by decide)
  have hpos : 0 < lenUpTo z.bseq := by
    rw [hlen]
    exact Nat.mul_pos (Nat.succ_pos _) (by decide)
  unfold Shz.pageRoom
  rw [Prog.bind_ok (Prog.read_run _ _), id]
  split
  · next havail =>
    rcases halloc : shzAlloc z (lenUpTo z.bseq) with _ | z1
    · refine Or.inr ⟨by rw [Shz.alloc, halloc]; rfl, ?_⟩
      have hnone : ¬ (shzAlloc z (lenUpTo z.bseq)).isSome := by
        rw [halloc]
        exact Bool.false_ne_true
      rw [h.alloc_isSome] at hnone
      exact fun hfits => hnone (Or.inr (hfits.resolve_left (Nat.not_lt.mpr havail)))
    · obtain ⟨dataOf, max, hmax, hbound, rfl⟩ := h.alloc_regrow hpos hlt halloc
      refine Or.inl ⟨dataOf, max, hmax, ?_, alloc_run halloc⟩
      rw [← hlen]
      exact hbound (Nat.le_trans havail (by decide))
  · next havail =>
    exact Or.inl ⟨z.buff.dataOf, z.buff.dataMax, Nat.le_refl _,
      h.avail (Nat.lt_of_not_le havail), rfl⟩

/-- A page is taken in a buffer that has room for it, unless the offset of the page is no `int`. -/
theorem pageNew_eq (t : Nat) {dataOf max : Nat} (hbound : (z.bseq + 1) * pageSize ≤ max)
    (hbuff : pageRoom z = some (.ok (), z.regrow dataOf max)) :
    shzPageNew t z = if z.bseq < 2 ^ 21 then
      some (.ok (some z.bseq), newPage t (z.regrow dataOf max)) else none := by
  have hpage : shzPage z.bseq (shzSizeIncr (takePage (z.regrow dataOf max)) pageSize) =
      pageAt z.bseq (shzSizeIncr (takePage (z.regrow dataOf max)) pageSize) := by
    unfold shzPage
    rw [Prog.bind_ok (Prog.read_run _ _), if_neg]
    show ¬ z.bseq + 1 ≤ z.bseq
    omega
  unfold shzPageNew
  rw [Prog.bind_ok hbuff, Prog.bind_ok (Prog.read_run _ _),
    Prog.bind_ok (Prog.modify_run _ _), Prog.bind_ok (Prog.modify_run _ _)]
  split
  · next hlt =>
    have hat : shzPage z.bseq (shzSizeIncr (takePage (z.regrow dataOf max)) pageSize) =
        some (.ok (some z.bseq), shzSizeIncr (takePage (z.regrow dataOf max)) pageSize) := by
      rw [hpage]
      exact pageAt_run rfl (by unfold pageSize; omega) hbound
    exact Prog.bind_ok hat
  · next hlt =>
    have hat : shzPage z.bseq (shzSizeIncr (takePage (z.regrow dataOf max)) pageSize) = none := by
      rw [hpage]
      unfold pageAt
      rw [Prog.bind_ok (Prog.read_run _ _), if_pos (Or.inl (by unfold pageSize; omega))]
      rfl
    exact Prog.bind_none hat

/-- A new page is the next one, and the buffer has grown to hold it, where the offset of the
page is an `int` and the buffer can hold it. -/
theorem Roomy.pageNew_run (h : Roomy z) (hlt : z.bseq < 2 ^ 21) (hfits : PageFits z) (t : Nat) :
    ∃ dataOf max, z.buff.dataMax ≤ max ∧ (z.bseq + 1) * pageSize ≤ max ∧
      shzPageNew t z = some (.ok (some z.bseq), newPage t (z.regrow dataOf max)) := by
  rcases h.pageRoom with ⟨dataOf, max, hmax, hbound, hbuff⟩ | ⟨-, hnot⟩
  · exact ⟨dataOf, max, hmax, hbound, (pageNew_eq t hbound hbuff).trans (if_pos hlt)⟩
  · exact absurd hfits hnot

/-- A new page that has a result is the next one, behind a buffer that may have grown. -/
theorem Roomy.pageNew (h : Roomy z) {r : Except Sherr (Option Nat)}
    (hrun : shzPageNew t z = some (r, z')) :
    r = .ok (some z.bseq) ∧ z.bseq < 2 ^ 21 ∧
      ∃ dataOf max, z.buff.dataMax ≤ max ∧ (z.bseq + 1) * pageSize ≤ max ∧
        z' = newPage t (z.regrow dataOf max) := by
  rcases h.pageRoom with ⟨dataOf, max, hmax, hbound, hbuff⟩ | ⟨hbuff, -⟩
  · rw [pageNew_eq t hbound hbuff] at hrun
    split at hrun
    · next hlt =>
      cases hrun
      exact ⟨rfl, hlt, dataOf, max, hmax, hbound, rfl⟩
    · cases hrun
  · rw [shzPageNew, Prog.bind_none hbuff] at hrun
    cases hrun

@[simp] theorem newPage_bseq : (newPage t z).bseq = z.bseq + 1 := rfl

/-- What a new page leaves as it is: everything but its own header and the size of the archive. -/
theorem newPage_bytes {of' : Nat} (hend : of' + n ≤ pageSize) (hself : q = z.bseq → 4 ≤ of')
    (hbase : q = 0 → of' + n ≤ 16 ∨ 24 ≤ of') : (newPage t z).bytes q of' n = z.bytes q of' n := by
  have hmagic : (shzSizeIncr (takePage z) pageSize).bytes q of' n = z.bytes q of' n := by
    unfold shzSizeIncr
    rw [Arch.bytes_put_ne (by rw [length_beBytes]; decide) hend]
    · rfl
    · intro hq
      have := hbase hq
      rw [length_beBytes]
      omega
  unfold newPage
  rw [Arch.bytes_put_ne (by rw [length_beBytes]; decide) hend,
    Arch.bytes_put_ne (by decide) hend, hmagic]
  · intro hq
    have := hself hq
    exact Or.inr (by show 2 + 2 ≤ of'; omega)
  · intro hq
    have := hself hq
    rw [length_beBytes]
    omega

/-- A new page leaves all fields but its own header and what the base page counts. -/
theorem newPage_fld {of' : Nat} (hend : of' + n ≤ pageSize) (hself : q = z.bseq → 4 ≤ of')
    (hbase : q = 0 → of' + n ≤ 16 ∨ 24 ≤ of') : (newPage t z).fld q of' n = z.fld q of' n :=
  congrArg beVal (newPage_bytes hend hself hbase)

/-- A new page leaves the types of the others. -/
theorem newPage_type (hq : q ≠ z.bseq) : shzPageType (newPage t z) q = shzPageType z q :=
  newPage_fld (by decide) (fun heq => absurd heq hq) fun _ => Or.inl (by decide)

/-- A new page has the type that was asked for. -/
theorem newPage_type_self (ht : t < 65536) : shzPageType (newPage t z) z.bseq = t :=
  Arch.fld_put ht

/-- The recorded size goes up by one page, unless it wraps around. -/
theorem newPage_size (hpos : 1 ≤ z.bseq) (hsize : shzSize z + pageSize < 2 ^ 64) :
    shzSize (newPage t z) = shzSize z + pageSize := by
  unfold newPage
  rw [shzSize, Arch.fld_put_ne (by rw [length_beBytes]; decide) (by decide) fun heq => by omega,
    Arch.fld_put_ne (by decide) (by decide) fun heq => by omega]
  exact Arch.fld_put hsize

/-- The page of the archive beyond the last one is zero. -/
theorem Orderly.fresh (h : Orderly z) (of n : Nat) : z.fld z.bseq of n = 0 :=
  beAt_zero fun i hi _ => h.clean i (Nat.le_trans (Nat.le_add_right _ _) hi)

/-- The recorded size stays in order. -/
theorem Orderly.newPage (h : Orderly z) (hpos : 1 ≤ z.bseq) : Orderly (newPage t z) := by
  have hplain : ∀ {q}, Plain z q → Plain (Shz.newPage t z) q := by
    intro q hq
    refine ⟨Nat.lt_succ_of_lt hq.lt, ?_⟩
    rw [newPage_type (Nat.ne_of_lt hq.lt)]
    exact hq.type
  refine ⟨?_, hplain h.base, ?_⟩
  · intro i hi
    rw [newPage_bseq, Nat.succ_mul] at hi
    have hclean := h.clean i (by omega)
    have hone : 1 * pageSize ≤ z.bseq * pageSize := Nat.mul_le_mul_right _ hpos
    unfold pageSize at hi hone
    have h1 : i < z.bseq * pageSize + 0 ∨ z.bseq * pageSize + 0 + (beBytes 2 t).length ≤ i := by
      rw [length_beBytes]
      unfold pageSize
      omega
    have h2 : i < z.bseq * pageSize + 2 ∨ z.bseq * pageSize + 2 + magic.length ≤ i := by
      show _ ∨ z.bseq * pageSize + 2 + 2 ≤ i
      unfold pageSize
      omega
    have h3 : i < 0 * pageSize + 16 ∨
        0 * pageSize + 16 + (beBytes 8 (shzSize (takePage z) + pageSize)).length ≤ i := by
      rw [length_beBytes]
      omega
    exact (poke_of_not_mem h1).trans ((poke_of_not_mem h2).trans
      ((poke_of_not_mem h3).trans hclean))
  · intro p hp hmod
    by_cases hnew : p = z.bseq
    · -- the new page names the base page
      subst hnew
      rw [newPage_fld (by decide) (fun _ => by decide) (fun h0 => by omega), h.fresh]
      exact hplain h.base
    · rw [newPage_type hnew] at hmod
      rw [newPage_fld (by decide) (fun _ => by decide) (fun _ => Or.inr (by decide))]
      exact hplain (h.mods p (by rw [newPage_bseq] at hp; omega) hmod)

/-- A new page is a step. -/
theorem Inv.newPage (h : Inv b z) (hlt : z.bseq < 2 ^ 21)
    (hroom : (z.bseq + 1) * pageSize ≤ z.buff.dataMax) :
    Step b z (newPage t z) := by
  have hsize := h.size
  have hsmall : shzSize z + pageSize < 2 ^ 64 := by
    unfold pageSize at *
    omega
  refine ⟨⟨Nat.le_succ_of_le h.pos, hlt, hroom, ?_, ?_, ?_, h.dtable, h.ftable, ?_⟩,
    Nat.le_succ _, fun p hp => newPage_type (Nat.ne_of_lt hp)⟩
  · rw [newPage_size h.pos hsmall, newPage_bseq]
    unfold pageSize at *
    omega
  · show max z.live (z.bseq + 1) = z.bseq + 1
    rw [h.live]
    omega
  · show ∀ e ∈ (z.bseq, z.live) :: z.handed, e.2 ≤ e.1
    rw [List.forall_mem_cons]
    exact ⟨Nat.le_of_eq h.live, h.handed⟩
  · intro hb
    exact (h.orderly hb).newPage h.pos

/-- A new page keeps the invariant. -/
theorem keeps_pageNew (h : Inv b z) (ht : t < 65536) :
    Prog.Keeps (Step b) (shzPageNew t) z fun r z' =>
      r = some z.bseq ∧ z'.bseq = z.bseq + 1 ∧ IsPage z' z.bseq t := by
  intro r z' hrun
  obtain ⟨rfl, hlt, dataOf, max, hmax, hroom, rfl⟩ := h.roomy.pageNew hrun
  have hgrow : Step b z (z.regrow dataOf max) := h.regrow hmax
  refine ⟨hgrow.trans (hgrow.inv.newPage hlt hroom), ?_⟩
  intro a ha
  cases ha
  exact ⟨rfl, rfl, ⟨Nat.lt_succ_self _, newPage_type_self ht⟩⟩

end LibShare.Shz
