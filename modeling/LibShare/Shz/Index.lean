import Mathlib.Data.List.GetD
import LibShare.Shz.Content

/-!
# libshare — SHZ archives: index chains

The content of a member is a list of chunks, and the index pages of a content list
the pages of its chunks (`IndexChain`). `shz_index_write` appends to the current index
page, and goes on with a new one when the page is full.

It finds out that a page is full when the next chunk has already been stored, and the
chunk is not appended to the new page: every chunk that comes to a full page is lost.
So a content is read back where one index page holds its chunks
(`indexWrite_read_iff`), and is cut otherwise.
-/

namespace LibShare.Shz

open Mem Prog

variable {S : Nat → Prop} {z z' : Arch} {p n : Nat} {env : Env}

/-! ## Index pages -/

/-- An index page with its references, and the page after it. -/
structure IndexPage (z : Arch) (p : Nat) (refs : List Nat) (next : Nat) : Prop where
  ne : p ≠ 0
  page : IsPage z p pageIndex
  le : refs.length ≤ maxIndexSize
  seg : ∀ i < maxIndexSize, z.fld p (segOf i) 4 = refs.getD i 0
  set : ∀ r ∈ refs, r ≠ 0
  next_eq : z.fld p 8 4 = next

variable {refs : List Nat} {next : Nat}

/-- Every place of an index page lies within the page. -/
theorem segOf_fits {i : Nat} (hi : i < maxIndexSize) : segOf i + 4 ≤ pageSize := by
  unfold segOf maxIndexSize pageSize sizeofData at *
  omega

/-- An index page that may not be changed stands. -/
theorem IndexPage.within (h : IndexPage z p refs next) (hw : Within S z z') (hS : ¬ S p) :
    IndexPage z' p refs next := by
  have hsame := hw.same p h.page.lt h.ne hS
  refine ⟨h.ne, h.page.step hw.step, h.le, fun i hi => ?_, h.set, ?_⟩
  · rw [hsame.fld (segOf_fits hi), h.seg i hi]
  · rw [hsame.fld (by decide), h.next_eq]

/-- The references of an index page are at their places, and none is zero. -/
theorem IndexPage.ref (h : IndexPage z p refs next) {i : Nat} (hi : i < refs.length) :
    z.fld p (segOf i) 4 = refs[i] ∧ refs[i] ≠ 0 := by
  refine ⟨?_, h.set _ (List.getElem_mem hi)⟩
  rw [h.seg i (Nat.lt_of_lt_of_le hi h.le), List.getD_eq_getElem _ _ hi]

/-- The first free place is after the references. -/
theorem IndexPage.freeSeg (h : IndexPage z p refs next) : freeSeg z p = refs.length := by
  have hset : ∀ i < refs.length, ¬ z.fld p (segOf i) 4 = 0 := by
    intro i hi
    rw [(h.ref hi).1]
    exact (h.ref hi).2
  have hle := h.le
  unfold Shz.freeSeg
  by_cases hfull : refs.length = maxIndexSize
  · rw [hfull]
    refine (List.findIdx_eq_length.mpr fun i hi => ?_).trans List.length_range
    rw [decide_eq_false_iff_not]
    exact hset i (by rw [hfull]; exact List.mem_range.mp hi)
  · have hlt : refs.length < (List.range maxIndexSize).length := by
      rw [List.length_range]
      omega
    rw [List.findIdx_eq hlt]
    refine ⟨?_, fun j hj => ?_⟩
    · rw [List.getElem_range, decide_eq_true_eq, h.seg _ (by omega),
        List.getD_eq_default _ _ (Nat.le_refl _)]
    · rw [List.getElem_range, decide_eq_false_iff_not]
      exact hset j hj

/-- There are no more places than an index page has. -/
theorem freeSeg_le (z : Arch) (p : Nat) : freeSeg z p ≤ maxIndexSize := by
  refine Nat.le_trans List.findIdx_le_length ?_
  rw [List.length_range]

/-- Where no place is free the append says so. -/
theorem indexAppend_full {bnum : Nat} (hfull : freeSeg z p = maxIndexSize) :
    shzIndexAppend p bnum z = some (.error .nobufs, z) := by
  unfold shzIndexAppend
  rw [bind_ok (read_run _ _), if_pos hfull]
  rfl

/-- A reference is appended. -/
def Arch.appended (z : Arch) (p i bnum : Nat) : Arch :=
  (z.put p (segOf i) (beBytes 4 bnum)).put p 6 (beBytes 2 (sizeofData + (i + 1) * 4))

/-- Where a place is free the reference goes there. -/
theorem indexAppend_free {bnum : Nat} (hfree : ¬ freeSeg z p = maxIndexSize) :
    shzIndexAppend p bnum z = some (.ok (), z.appended p (freeSeg z p) bnum) := by
  have hsize : 8 ≤ sizeofData + (freeSeg z p + 1) * 4 ∧
      sizeofData + (freeSeg z p + 1) * 4 ≤ pageSize := by
    have hle := freeSeg_le z p
    unfold maxIndexSize pageSize sizeofData at *
    omega
  unfold shzIndexAppend
  rw [bind_ok (read_run _ _), if_neg hfree, bind_ok (put_run ..), sizeSet_run hsize]
  rfl

/-- A full index page takes no reference. -/
theorem IndexPage.append_full {bnum : Nat} (h : IndexPage z p refs next)
    (hfull : refs.length = maxIndexSize) : shzIndexAppend p bnum z = some (.error .nobufs, z) :=
  indexAppend_full (h.freeSeg.trans hfull)

/-- An index page that is not full takes the reference at its end. -/
theorem IndexPage.append_run {bnum : Nat} (h : IndexPage z p refs next)
    (hfree : refs.length < maxIndexSize) :
    shzIndexAppend p bnum z = some (.ok (), z.appended p refs.length bnum) := by
  rw [indexAppend_free (by rw [h.freeSeg]; exact Nat.ne_of_lt hfree), h.freeSeg]

/-- The append changes the index page only. -/
theorem IndexPage.within_appended {bnum : Nat} (h : IndexPage z p refs next) (hinv : Inv true z)
    (hfree : refs.length < maxIndexSize) (hS : S p) :
    Within S z (z.appended p refs.length bnum) := by
  have hput : Within S z (z.put p (segOf refs.length) (beBytes 4 bnum)) := by
    refine hinv.within_put (.page h.page h.ne (by decide) ?_ ?_) (Or.inr hS)
    · unfold segOf
      omega
    · rw [length_beBytes]
      exact segOf_fits hfree
  exact hput.trans (hput.step.inv.within_put
    (.before h.page.lt (by decide) (by rw [length_beBytes]; decide)) (Or.inr hS))

/-- Afterwards the page has one reference more. -/
theorem IndexPage.appended {bnum : Nat} (h : IndexPage z p refs next) (hinv : Inv true z)
    (hfree : refs.length < maxIndexSize) (hbnum : bnum ≠ 0) (hlt : bnum < 2 ^ 32) :
    IndexPage (z.appended p refs.length bnum) p (refs ++ [bnum]) next := by
  have hw : Within (fun q => q = p) z (z.appended p refs.length bnum) :=
    h.within_appended hinv hfree rfl
  have hfits : segOf refs.length + (beBytes 4 bnum).length ≤ pageSize := by
    rw [length_beBytes]
    exact segOf_fits hfree
  have hfld : ∀ {of : Nat}, 8 ≤ of → of + 4 ≤ pageSize →
      (of + 4 ≤ segOf refs.length ∨ segOf refs.length + 4 ≤ of) →
      (z.appended p refs.length bnum).fld p of 4 = z.fld p of 4 := by
    intro of h8 hend hne
    rw [Arch.appended, put_fld_ne (by rw [length_beBytes]; decide) hend
        (Or.inr (by rw [length_beBytes]; exact h8)),
      put_fld_ne hfits hend (by rw [length_beBytes]; exact hne)]
  refine ⟨h.ne, h.page.step hw.step, ?_, fun i hi => ?_, fun r hr => ?_, ?_⟩
  · rw [List.length_append, List.length_singleton]
    exact hfree
  · rcases Nat.lt_trichotomy i refs.length with hlow | rfl | hhigh
    · rw [hfld (by unfold segOf; omega) (segOf_fits hi)
        (Or.inl (by unfold segOf; omega)), h.seg i hi, List.getD_append _ _ _ _ hlow]
    · rw [Arch.appended, put_fld_ne (by rw [length_beBytes]; decide) (segOf_fits hi)
        (Or.inr (by rw [length_beBytes]; unfold segOf; omega)), Arch.fld_put hlt,
        List.getD_append_right _ _ _ _ (Nat.le_refl _), Nat.sub_self]
      rfl
    · rw [hfld (by unfold segOf; omega) (segOf_fits hi)
        (Or.inr (by unfold segOf; omega)), h.seg i hi,
          List.getD_eq_default _ _ (Nat.le_of_lt hhigh), List.getD_eq_default]
      rw [List.length_append, List.length_singleton]
      exact hhigh
  · rcases List.mem_append.mp hr with hr | hr
    · exact h.set r hr
    · rw [List.mem_singleton.mp hr]
      exact hbnum
  · rw [hfld (by decide) (by decide) (Or.inl (by unfold segOf; omega)), h.next_eq]

/-! ## New index pages -/

/-- A link changes no reference. -/
theorem IndexPage.linked {last : Nat} (h : IndexPage z last refs next)
    (hw : Within S z (z.linked 8 last p)) (hp : p < 2 ^ 32) :
    IndexPage (z.linked 8 last p) last refs p := by
  refine ⟨h.ne, h.page.step hw.step, h.le, fun i hi => ?_, h.set,
    linked_fld h.ne (by decide) (by decide) hp⟩
  rw [Arch.fld, beAt]
  show beVal ((z.linked 8 last p).bytes last (segOf i) 4) = _
  rw [linked_bytes (by decide) (segOf_fits hi) (by unfold segOf; omega)
    (Or.inr (by unfold segOf; omega))]
  exact h.seg i hi

/-- The index is continued on a new page, which is empty. -/
theorem keeps_newIndex {lSeq : Nat} (h : Inv true z) (hlast : lSeq ≠ 0 → IndexPage z lSeq refs 0) :
    Keeps (Within fun q => q = lSeq ∨ z.bseq ≤ q) (indexPage 0 lSeq) z fun p z' =>
      p = z.bseq ∧ IndexPage z' p [] 0 ∧ (lSeq ≠ 0 → IndexPage z' lSeq refs p) := by
  have hlastlt : lSeq < z.bseq := by
    by_cases h0 : lSeq = 0
    · rw [h0]
      exact h.pos
    · exact (hlast h0).page.lt
  unfold indexPage
  rw [if_neg (by decide)]
  refine bind_pageNew h (by decide) fun z1 hw1 hnext hpage hzero => ?_
  have hlast1 : lSeq < z1.bseq := Nat.lt_trans hlastlt hpage.lt
  refine bind_linkPage (hw1 (S := fun _ => False)).step.inv hlast1
    (.before hlast1 (by decide) (by rw [length_beBytes]; decide)) (Or.inr (Or.inl rfl))
      fun hw2 => ?_
  have hsame : Same z1 (z1.linked 8 lSeq z.bseq) z.bseq :=
    same_linked (by decide) (Nat.ne_of_gt hlastlt)
  refine Keeps.pure hw2.step.inv.within ⟨rfl, ⟨Nat.ne_of_gt h.pos, hpage.step hw2.step,
    Nat.zero_le _, fun i hi => ?_, (fun _ hr => nomatch hr), ?_⟩, fun h0 => ?_⟩
  · rw [hsame.fld (segOf_fits hi), hzero _ _ (by unfold segOf; omega) (segOf_fits hi)]
    rfl
  · rw [hsame.fld (by decide), hzero _ _ (by decide) (by decide)]
  · exact ((hlast h0).within (hw1 (S := fun _ => False)) id).linked hw2
      (Nat.lt_of_le_of_lt h.le (by decide))

/-! ## Chains -/

/-- The index pages from one on, with the chunks that each of them lists. -/
def IndexChain (env : Env) (fuel : Nat) (raw : Bool) (z : Arch) : Nat → List (List Bytes) → Prop
  | p, [] => p = 0
  | p, ds :: L => ∃ refs next, IndexPage z p refs next ∧
      List.Forall₂ (Chunk env fuel raw z) refs ds ∧ IndexChain env fuel raw z next L

/-- What is listed of some data, where there is room for a number of chunks of `n`
bytes before the page is full: everything, if the room suffices. -/
structure Recorded (n room : Nat) (data content : Bytes) : Prop where
  all : data.length ≤ room * n → content = data
  lost : room * n < data.length → content.length < data.length

section Recorded

variable {room k : Nat} {data content : Bytes}

theorem recorded_nil : Recorded n room [] [] :=
  ⟨fun _ => rfl, fun h => absurd h (Nat.not_lt_zero _)⟩

/-- What has been recorded is no longer than the data. -/
theorem Recorded.length_le (h : Recorded n room data content) : content.length ≤ data.length := by
  rcases Nat.lt_or_ge (room * n) data.length with hlt | hge
  · exact Nat.le_of_lt (h.lost hlt)
  · rw [h.all hge]

/-- A chunk is listed. -/
theorem Recorded.cons (hk : k = min n data.length) (h : Recorded n room (data.drop k) content) :
    Recorded n (room + 1) data (data.take k ++ content) := by
  have hlen : (data.drop k).length = data.length - k := List.length_drop
  have htake : (data.take k).length = k := by
    rw [List.length_take]
    omega
  refine ⟨fun hle => ?_, fun hlt => ?_⟩
  · rw [Nat.succ_mul] at hle
    rw [h.all (by omega), List.take_append_drop]
  · rw [Nat.succ_mul] at hlt
    have hrest := h.lost (by omega)
    rw [List.length_append, htake]
    omega

/-- A chunk comes to a full page. -/
theorem Recorded.lose {room' : Nat} (hk : k = min n data.length) (hn : 0 < n) (hne : data ≠ [])
    (h : Recorded n room' (data.drop k) content) : Recorded n 0 data content := by
  have hpos : 0 < data.length := List.length_pos_iff.mpr hne
  have hle := h.length_le
  rw [List.length_drop] at hle
  exact ⟨fun hzero => by omega, fun _ => by omega⟩

end Recorded

/-- The index from a page on that already lists some chunks: what it lists of the data
that is still to come. -/
def IndexFrom (env : Env) (fuel : Nat) (raw : Bool) (passes p : Nat) (refs : List Nat)
    (data : Bytes)
    (z : Arch) : Prop :=
  ∃ refs' ds next L, IndexPage z p (refs ++ refs') next ∧
    List.Forall₂ (Chunk env fuel raw z) refs' ds ∧ IndexChain env fuel raw z next L ∧
    L.length < passes ∧
    Recorded (chunkSize raw) (maxIndexSize - refs.length) data (ds.flatten ++ L.flatten.flatten)

section From

variable {fuel passes k w : Nat} {raw : Bool} {data : Bytes}

/-- One more chunk in front of an index. -/
theorem IndexFrom.cons (hfree : refs.length < maxIndexSize)
    (hk : k = min (chunkSize raw) data.length) (hchunk : Chunk env fuel raw z w (data.take k))
    (h : IndexFrom env fuel raw passes p (refs ++ [w]) (data.drop k) z) :
    IndexFrom env fuel raw passes p refs data z := by
  obtain ⟨refs', ds, next, L, hpage, hchunks, hchain, hlen, hrec⟩ := h
  refine ⟨w :: refs', data.take k :: ds, next, L, ?_, .cons hchunk hchunks, hchain, hlen, ?_⟩
  · rw [List.append_cons]
    exact hpage
  · have hroom : maxIndexSize - refs.length = maxIndexSize - (refs ++ [w]).length + 1 := by
      rw [List.length_append, List.length_singleton]
      omega
    rw [hroom, List.flatten_cons, List.append_assoc]
    exact hrec.cons hk

/-- More passes do no harm. -/
theorem IndexFrom.mono {passes' : Nat} (h : IndexFrom env fuel raw passes p refs data z)
    (hle : passes ≤ passes') : IndexFrom env fuel raw passes' p refs data z := by
  obtain ⟨refs', ds, next, L, hpage, hchunks, hchain, hlen, hrec⟩ := h
  exact ⟨refs', ds, next, L, hpage, hchunks, hchain, Nat.lt_of_lt_of_le hlen hle, hrec⟩

/-! ## Writing -/

/-- A chunk is appended to a page that has room, and the loop goes on. -/
theorem keeps_append {lSeq ret : Nat} {f : Except Sherr Unit → ShzM Nat} (h : Inv true z)
    (hpage : IndexPage z p refs 0) (hfree : refs.length < maxIndexSize)
    (hk : k = min (chunkSize raw) data.length) (hchunk : Chunk env fuel raw z w (data.take k))
    (hf : f (.ok ()) = indexAddLoop (writerOf env fuel raw) passes (data.drop k) p lSeq ret)
    (ih : ∀ {z : Arch} {refs : List Nat}, Inv true z → IndexPage z p refs 0 →
      Keeps (Within fun q => q = p ∨ z.bseq ≤ q)
        (indexAddLoop (writerOf env fuel raw) passes (data.drop k) p lSeq ret) z fun r z' =>
          r = ret ∧ IndexFrom env fuel raw passes p refs (data.drop k) z') :
    Keeps (Within fun q => q = p ∨ z.bseq ≤ q) (attempt (shzIndexAppend p w) >>= f) z fun r z' =>
      r = ret ∧ IndexFrom env fuel raw passes p refs data z' := by
  obtain ⟨hw0, hwlt⟩ := hchunk.lt
  have hsmall : w < 2 ^ 32 := Nat.lt_of_lt_of_le hwlt (Nat.le_trans h.le (by decide))
  have happ : ∀ {S : Nat → Prop}, S p → Within S z (z.appended p refs.length w) :=
    fun hS => hpage.within_appended h hfree hS
  have hpage1 := hpage.appended h hfree hw0 hsmall
  have hw1 : Within (fun q => q = p) z (z.appended p refs.length w) := happ rfl
  have hchunk1 : Chunk env fuel raw (z.appended p refs.length w) w (data.take k) := by
    refine hchunk.within hw1 fun q hq _ _ => ?_
    rw [hq]
    exact hpage.page
  refine Keeps.of_ok (attempt_run (hpage.append_run hfree))
    (fun _ hs => (happ (Or.inl rfl)).trans hs) ?_
  rw [hf]
  refine Keeps.mono (ih hw1.step.inv hpage1) fun r z2 hw2 hval => ?_
  refine ⟨hval.1, hval.2.cons hfree hk (hchunk1.within hw2 fun q hq _ hlt => ?_)⟩
  rw [hq.resolve_right (Nat.not_le.mpr hlt)]
  exact hpage1.page

/-- A seal changes no reference. -/
theorem IndexPage.sealed (h : IndexPage z p refs next) (hinv : Inv true z) :
    IndexPage (z.sealed p) p refs next := by
  have hw : Within (fun q => q = p) z (z.sealed p) := hinv.within_sealed h.page.lt (Or.inr rfl)
  refine ⟨h.ne, h.page.step hw.step, h.le, fun i hi => ?_, h.set, ?_⟩
  · rw [sealed_fld (segOf_fits hi) fun _ => Or.inr (by unfold segOf; omega), h.seg i hi]
  · rw [sealed_fld (by decide) fun _ => Or.inr (by decide), h.next_eq]

/-- The current page is looked up. -/
theorem IndexPage.current {b : Bool} {lSeq : Nat} (h : IndexPage z p refs next) (hinv : Inv b z) :
    indexPage p lSeq z = some (.ok p, z) := by
  unfold indexPage
  rw [if_pos h.ne, bind_ok (hinv.page_some h.page.lt)]
  rfl

/-- A chunk is stored in new pages. -/
theorem keeps_chunkIn {c : Nat} (h : Inv true z) (hne : data ≠ []) :
    Keeps (Within fun q => q = c ∨ z.bseq ≤ q) (writerOf env fuel raw data) z fun w z' =>
      Within (fun q => z.bseq ≤ q) z z' ∧ w.2 = min (chunkSize raw) data.length ∧
      Chunk env fuel raw z' w.1 (data.take w.2) :=
  ((keeps_chunk h hne).mono fun _ _ hw hq => ⟨hw, hq⟩).weaken fun _ hw =>
    hw.mono fun _ _ _ hq => Or.inr hq

/-- The loop of `shz_index_add`: with a current page, and between two pages. -/
theorem keeps_indexChain : ∀ {passes : Nat} {data : Bytes},
    (∀ {z : Arch} {seq lSeq ret : Nat} {refs : List Nat}, Inv true z → ret ≠ 0 →
      IndexPage z seq refs 0 →
      Keeps (Within fun q => q = seq ∨ z.bseq ≤ q)
        (indexAddLoop (writerOf env fuel raw) passes data seq lSeq ret) z fun r z' =>
          r = ret ∧ IndexFrom env fuel raw passes seq refs data z') ∧
    (∀ {z : Arch} {lSeq ret : Nat} {refs : List Nat}, Inv true z → (lSeq = 0 → ret = 0) →
      (lSeq ≠ 0 → ret ≠ 0 ∧ IndexPage z lSeq refs 0) →
      Keeps (Within fun q => q = lSeq ∨ z.bseq ≤ q)
        (indexAddLoop (writerOf env fuel raw) passes data 0 lSeq ret) z fun r z' =>
          ∃ next L, r = (if lSeq = 0 then next else ret) ∧
            (lSeq ≠ 0 → IndexPage z' lSeq refs next) ∧ IndexChain env fuel raw z' next L ∧
            L.length < passes ∧ Recorded (chunkSize raw) maxIndexSize data L.flatten.flatten) := by
  -- induction on the passes; the halves differ in whether a page is open to take the chunk
  intro passes
  induction passes with
  | zero =>
    intro data
    exact ⟨fun _ _ _ => Keeps.undef, fun _ _ _ => Keeps.undef⟩
  | succ passes ih =>
    intro data
    refine ⟨?_, ?_⟩
    · -- a page is open
      intro z seq lSeq ret refs h hret hpage
      refine Keeps.ite (fun hnil => Keeps.pure h.within ⟨rfl, [], [], 0, [], ?_⟩) fun hne => ?_
      · rw [List.append_nil, hnil]
        exact ⟨hpage, .nil, rfl, Nat.succ_pos _, recorded_nil⟩
      refine Keeps.bind (keeps_chunkIn h hne) fun w z1 _ hw => ?_
      obtain ⟨hw1, hk, hchunk⟩ := hw
      have h1 : Inv true z1 := hw1.step.inv
      have hpage1 := hpage.within hw1 (Nat.not_le.mpr hpage.page.lt)
      refine Keeps.of_ok (hpage1.current h1) (fun _ hs => hs) ?_
      have hret1 : (if seq = 0 ∧ ret = 0 then seq else ret) = ret :=
        if_neg fun hzero => hpage.ne hzero.1
      rw [hret1]
      have hweak : ∀ {z2 z3 : Arch}, z1.bseq ≤ z2.bseq →
          Within (fun q => q = seq ∨ z2.bseq ≤ q) z2 z3 →
          Within (fun q => q = seq ∨ z.bseq ≤ q) z2 z3 := by
        intro z2 z3 hle hw2
        have hseq := hw1.step.bseq
        exact hw2.mono fun q _ _ hq => hq.imp_right fun hq => by omega
      by_cases hfull : refs.length = maxIndexSize
      · -- the chunk comes to a full page
        refine Keeps.of_ok (attempt_run (hpage1.append_full hfull)) (fun _ hs => hs) ?_
        refine bind_crcSet h1 hpage1.page.lt (Or.inr (Or.inl rfl)) fun hw2 => ?_
        refine Keeps.weaken (Keeps.mono (ih.2 hw2.step.inv (fun h0 => absurd h0 hpage.ne)
          fun _ => ⟨hret, hpage1.sealed h1⟩) ?_) fun _ => hweak hw2.step.bseq
        rintro r z3 - ⟨next, L, hr, hpage3, hchain, hlen, hrec⟩
        rw [if_neg hpage.ne] at hr
        refine ⟨hr, [], [], next, L, ?_, .nil, hchain, Nat.lt_succ_of_lt hlen, ?_⟩
        · rw [List.append_nil]
          exact hpage3 hpage.ne
        · rw [hfull, Nat.sub_self]
          exact hrec.lose hk (chunkSize_pos raw) hne
      · have hfree : refs.length < maxIndexSize := by
          have := hpage.le
          omega
        refine Keeps.weaken (Keeps.mono (keeps_append h1 hpage1 hfree hk hchunk rfl
          fun hz hp => ih.1 hz hret hp) ?_) fun _ => hweak (Nat.le_refl _)
        rintro r z3 - ⟨hr, hfrom⟩
        exact ⟨hr, hfrom.mono (Nat.le_succ _)⟩
    · -- no page is open: a new one is made, and named by the last
      intro z lSeq ret refs h hret hlast
      refine Keeps.ite (fun hnil => Keeps.pure h.within ⟨0, [], ?_⟩) fun hne => ?_
      · rw [hnil]
        refine ⟨?_, fun h0 => (hlast h0).2, rfl, Nat.succ_pos _, recorded_nil⟩
        split
        · next h0 => exact hret h0
        · rfl
      refine Keeps.bind (keeps_chunkIn h hne) fun w z1 _ hw => ?_
      obtain ⟨hw1, hk, hchunk⟩ := hw
      have h1 : Inv true z1 := hw1.step.inv
      have hseq := hw1.step.bseq
      have hlast1 : lSeq ≠ 0 → IndexPage z1 lSeq refs 0 := fun h0 =>
        (hlast h0).2.within hw1 (Nat.not_le.mpr (hlast h0).2.page.lt)
      have hnew : Keeps (Within fun q => q = lSeq ∨ z.bseq ≤ q) (indexPage 0 lSeq) z1 fun p z2 =>
          Within (fun q => q = lSeq ∨ z1.bseq ≤ q) z1 z2 ∧
          p = z1.bseq ∧ IndexPage z2 p [] 0 ∧ (lSeq ≠ 0 → IndexPage z2 lSeq refs p) :=
        ((keeps_newIndex h1 hlast1).mono fun _ _ hw2 hq => ⟨hw2, hq⟩).weaken fun _ hw2 =>
          hw2.mono fun q _ _ hq => hq.imp_right fun hq => by omega
      refine Keeps.bind hnew fun p z2 _ hp => ?_
      obtain ⟨hw2, rfl, hpage2, hlast2⟩ := hp
      have hchunk2 : Chunk env fuel raw z2 w.1 (data.take w.2) := by
        refine hchunk.within hw2 fun q hq h0 hlt => ?_
        have hq := hq.resolve_right (by omega)
        rw [hq] at h0 ⊢
        exact (hlast1 h0).page
      have hret2 : (if (0 : Nat) = 0 ∧ ret = 0 then z1.bseq else ret) ≠ 0 := by
        split
        · exact hpage2.ne
        · next hne => exact fun h0 => hne ⟨rfl, h0⟩
      have hplt : z1.bseq < z2.bseq := hpage2.page.lt
      refine Keeps.weaken (Keeps.mono (keeps_append hw2.step.inv hpage2 (by decide) hk hchunk2 rfl
        fun hz hp => ih.1 hz hret2 hp) ?_) fun _ hw3 => hw3.mono fun q _ _ hq => Or.inr (by omega)
      rintro r z3 hw3 ⟨hr, refs', ds, next, L, hpage3, hchunks, hchain, hlen, hrec⟩
      refine ⟨z1.bseq, ds :: L, ?_, fun h0 => ?_, ⟨refs', next, hpage3, hchunks, hchain⟩,
        Nat.succ_lt_succ hlen, ?_⟩
      · rw [hr]
        by_cases h0 : lSeq = 0
        · rw [if_pos h0, if_pos ⟨rfl, hret h0⟩]
        · rw [if_neg h0, if_neg fun hzero => (hlast h0).1 hzero.2]
      · have hlt := (hlast h0).2.page.lt
        exact (hlast2 h0).within hw3 (by omega)
      · rw [List.flatten_cons, List.flatten_append]
        exact hrec

/-! ## Reading -/

/-- Making room for a page of the archive again changes no page, and there is room for it then. -/
theorem Inv.alloc {ref : Nat} (h : Inv true z) (hr : Readable z) (href : ref < z.bseq) :
    ∃ z', shzAlloc z (lenUpTo ref) = some z' ∧ Within (fun _ => False) z z' ∧ Readable z' := by
  have hle := h.le
  have hlen : 0 < lenUpTo ref ∧ lenUpTo ref < 2 ^ 32 := by
    unfold lenUpTo pageSize
    omega
  obtain ⟨z', halloc⟩ := hr.alloc h.roomy href
  obtain ⟨dataOf, max, hmax, -, rfl⟩ := h.roomy.alloc_regrow hlen.1 hlen.2 halloc
  exact ⟨_, halloc, h.within_regrow hmax, hr⟩

variable {fuel' : Nat}

/-- The chunks of a page that come after the first ones are read, if the buffer can hold them. -/
theorem indexRefs_run (hzip : raw = false → Inflates env) (hle : fuel ≤ fuel') :
    ∀ (n i : Nat) {z : Arch} (buff : Bytes) {done rest : List Nat} {ds : List Bytes}, Inv true z →
      Readable z → IndexPage z p (done ++ rest) next → done.length = i → i + n = maxIndexSize →
      List.Forall₂ (Chunk env fuel raw z) rest ds →
      if Mem.Fits (buff.length + ds.flatten.length) ∨ ds = [] then
        ∃ z', indexRefs (readerOf env fuel' raw) p n i buff z =
          some (.ok (buff ++ ds.flatten), z') ∧ Within (fun _ => False) z z' ∧ Readable z'
      else indexRefs (readerOf env fuel' raw) p n i buff z = none := by
  -- induction on the places that are left on the page; `done` are the references already read
  intro n
  induction n with
  | zero =>
    intro i z buff done rest ds h hr hpage hdone hn hchunks
    have hrest : rest = [] := by
      have hlen := hpage.le
      rw [List.length_append] at hlen
      exact List.length_eq_zero_iff.mp (by omega)
    subst hrest
    cases hchunks
    rw [if_pos (Or.inr rfl)]
    exact ⟨z, by rw [List.flatten_nil, List.append_nil]; rfl, h.within, hr⟩
  | succ n ih =>
    intro i z buff done rest ds h hr hpage hdone hn hchunks
    unfold indexRefs
    rw [bind_ok (h.page_some hpage.page.lt)]
    simp only
    rw [bind_ok (read_run _ _), hpage.seg i (by omega), ← hdone]
    cases hchunks with
    | nil =>
      -- a reference of zero ends the page
      rw [List.append_nil, List.getD_eq_default _ _ (Nat.le_refl _), if_pos rfl,
        if_pos (Or.inr rfl)]
      exact ⟨z, by rw [List.flatten_nil, List.append_nil]; rfl, h.within, hr⟩
    | @cons ref d rest ds hchunk hrest =>
      obtain ⟨z1, halloc, hw1, hr1⟩ := h.alloc hr hchunk.lt.2
      have hkept : ∀ {r : Nat} {d : Bytes}, Chunk env fuel raw z r d → Chunk env fuel raw z1 r d :=
        fun hc => hc.within hw1 fun _ hfalse => hfalse.elim
      rw [List.getD_append_right _ _ _ _ (Nat.le_refl _), Nat.sub_self, List.getD_cons_zero,
        if_neg hchunk.lt.1, bind_ok (alloc_run halloc),
          bind_ok ((hkept hchunk).read hw1.step.inv hle hzip)]
      have hpage1 : IndexPage z1 p ((done ++ [ref]) ++ rest) next := by
        rw [← List.append_cons]
        exact hpage.within hw1 id
      have hlen : (done ++ [ref]).length = done.length + 1 := by
        rw [List.length_append, List.length_singleton]
      have hsum : buff.length + (d :: ds).flatten.length = (buff ++ d).length +
          ds.flatten.length := by
        rw [List.flatten_cons, List.length_append, List.length_append, Nat.add_assoc]
      have hone : ds = [] → buff.length + (d :: ds).flatten.length = buff.length + d.length := by
        rintro rfl
        rw [List.flatten_singleton]
      -- this chunk must fit behind those before it, and then the others behind it
      by_cases hfits : Mem.Fits (buff.length + d.length)
      · have hgo := ih (done.length + 1) (buff ++ d) hw1.step.inv hr1 hpage1 hlen (by omega)
          (hrest.imp fun _ _ hc => hkept hc)
        rw [bind_ok (catTo_run hfits z1)]
        by_cases hall : Mem.Fits (buff.length + (d :: ds).flatten.length)
        · rw [if_pos (Or.inl (hsum ▸ hall))] at hgo
          obtain ⟨z', hrun, hw2, hr2⟩ := hgo
          rw [if_pos (Or.inl hall)]
          exact ⟨z', by rw [hrun, List.flatten_cons, List.append_assoc], hw1.trans hw2, hr2⟩
        · have hmore : ds ≠ [] := fun hnil => hall (hone hnil ▸ hfits)
          rw [if_neg (by rw [← hsum]; exact not_or.mpr ⟨hall, hmore⟩)] at hgo
          rw [if_neg (not_or.mpr ⟨hall, List.cons_ne_nil _ _⟩)]
          exact hgo
      · have hall : ¬ Mem.Fits (buff.length + (d :: ds).flatten.length) := by
          refine fun hall => hfits (hall.mono ?_)
          rw [hsum, List.length_append]
          exact Nat.le_add_right _ _
        rw [if_neg (not_or.mpr ⟨hall, List.cons_ne_nil _ _⟩), catTo, if_neg hfits]
        rfl

/-- Where nothing may be changed, an index stands. -/
theorem IndexChain.within (hw : Within (fun _ => False) z z') : ∀ {L : List (List Bytes)} {p : Nat},
    IndexChain env fuel raw z p L → IndexChain env fuel raw z' p L := by
  intro L
  induction L with
  | nil =>
    intro p h
    exact h
  | cons ds L ih =>
    rintro p ⟨refs, next, hpage, hchunks, hrest⟩
    exact ⟨refs, next, hpage.within hw id,
      hchunks.imp fun _ _ hc => hc.within hw fun _ hfalse => hfalse.elim, ih hrest⟩

/-- Everything that is listed is read, if the buffer can hold it. -/
theorem IndexChain.read (hzip : raw = false → Inflates env) (hle : fuel ≤ fuel') :
    ∀ {L : List (List Bytes)} {passes p : Nat} {z : Arch} (buff : Bytes), Inv true z → Readable z →
      IndexChain env fuel raw z p L → L.length < passes →
      if Mem.Fits (buff.length + L.flatten.flatten.length) ∨ L.flatten = [] then
        ∃ z', shzIndexRead (readerOf env fuel' raw) passes p buff z =
          some (.ok (buff ++ L.flatten.flatten), z')
      else shzIndexRead (readerOf env fuel' raw) passes p buff z = none := by
  -- induction on the pages of the index
  intro L
  induction L with
  | nil =>
    intro passes p z buff _ _ hchain hlen
    obtain _ | passes := passes
    · exact absurd hlen (Nat.not_lt_zero _)
    have h0 : p = 0 := hchain
    rw [if_pos (Or.inr List.flatten_nil)]
    refine ⟨z, ?_⟩
    rw [shzIndexRead, if_pos h0, List.flatten_nil, List.flatten_nil, List.append_nil]
    rfl
  | cons ds L ih =>
    rintro passes p z buff h hr ⟨refs, next, hpage, hchunks, hrest⟩ hlen
    obtain _ | passes := passes
    · exact absurd hlen (Nat.not_lt_zero _)
    rw [← List.nil_append refs] at hpage
    have hrefs :=
      indexRefs_run hzip hle maxIndexSize 0 buff h hr hpage List.length_nil (Nat.zero_add _) hchunks
    -- what is left to read must fit behind what has been read
    have hsum : buff.length + (ds :: L).flatten.flatten.length =
        (buff ++ ds.flatten).length + L.flatten.flatten.length := by
      rw [List.flatten_cons, List.flatten_append, List.length_append, List.length_append,
        Nat.add_assoc]
    rw [shzIndexRead, if_neg hpage.ne]
    by_cases hds : Mem.Fits (buff.length + ds.flatten.length) ∨ ds = []
    · rw [if_pos hds] at hrefs
      obtain ⟨z1, hrun, hw1, hr1⟩ := hrefs
      have h1 := hw1.step.inv
      have hpage1 := hpage.within hw1 id
      have hread := ih (buff ++ ds.flatten) h1 hr1 (hrest.within hw1) (Nat.lt_of_succ_lt_succ hlen)
      rw [bind_ok hrun, bind_ok (h1.page_some hpage1.page.lt)]
      simp only
      rw [bind_ok (read_run _ _), hpage1.next_eq]
      by_cases hall : Mem.Fits (buff.length + (ds :: L).flatten.flatten.length) ∨
        (ds :: L).flatten = []
      · rw [if_pos hall]
        rw [if_pos (hall.imp (fun hfits => hsum ▸ hfits) fun hnil =>
          (List.append_eq_nil_iff.mp hnil).2)] at hread
        obtain ⟨z', hread⟩ := hread
        exact ⟨z', by rw [hread, List.flatten_cons, List.flatten_append, List.append_assoc]⟩
      · rw [if_neg hall]
        rw [if_neg] at hread
        · exact hread
        · rintro (hfits | hnil)
          · exact hall (Or.inl (hsum ▸ hfits))
          · refine hall (hds.imp (fun hfits => ?_) fun hnil' => ?_)
            · rw [hsum, hnil, List.flatten_nil, List.length_nil, Nat.add_zero, List.length_append]
              exact hfits
            · rw [List.flatten_cons, hnil', hnil, List.append_nil]
    · -- the chunks of this page do not fit
      rw [if_neg hds] at hrefs
      rw [bind_none hrefs, if_neg]
      rw [not_or] at hds ⊢
      refine ⟨fun hfits => hds.1 (hfits.mono ?_), fun hnil =>
        hds.2 (List.append_eq_nil_iff.mp hnil).1⟩
      rw [hsum, List.length_append]
      exact Nat.le_add_right _ _

/-! ## What is read back -/

/-- The archives that are reached from a fresh one by `shz_file_write` and
`shz_index_write` calls. A call may fail. -/
inductive Filled (env : Env) : Arch → Prop
  | fresh {z : Arch} : Reached env z → Filled env z
  | write {fuel bidx : Nat} {name data : Bytes} {z z' : Arch} {r : Except Sherr Unit} :
      Filled env z →
      shzFileWrite env fuel bidx name data z = some (r, z') → Filled env z'
  | index {fuel : Nat} {raw : Bool} {data : Bytes} {z z' : Arch} {r : Except Sherr Nat} :
      Filled env z → shzIndexWrite (writerOf env fuel raw) fuel data z = some (r, z') →
        Filled env z'

/-- An archive that has been filled is sound. -/
theorem Filled.inv (h : Filled env z) : Inv true z := by
  induction h with
  | fresh h => exact h.inv
  | write _ hrun ih => exact (keeps_fileWrite ih _ _ hrun).1.inv
  | index _ hrun ih =>
    exact (keeps_indexAddLoop (fun hz => keeps_writerOf hz) ih (Or.inl rfl) ih.pos (Or.inl rfl)
      _ _ hrun).1.inv

/-- What has been listed is read, and appended to a buffer that can hold it. -/
theorem indexWrite_read {idx : Nat} (h : Inv true z) (hzip : raw = false → Inflates env)
    (hwrite : shzIndexWrite (writerOf env fuel raw) fuel data z = some (.ok idx, z'))
    (hr : Readable z') :
    ∃ content, Recorded (chunkSize raw) maxIndexSize data content ∧ ∀ fuel', fuel ≤ fuel' → ∀ buff,
      (Mem.Fits (buff.length + content.length) → ∃ z'',
        shzIndexRead (readerOf env fuel' raw) fuel' idx buff z' =
          some (.ok (buff ++ content), z'')) ∧
      ∀ r z'', shzIndexRead (readerOf env fuel' raw) fuel' idx buff z' = some (r, z'') →
        r = .ok (buff ++ content) := by
  have hrefs : (0 : Nat) ≠ 0 → (0 : Nat) ≠ 0 ∧ IndexPage z 0 [] 0 := fun h0 => absurd rfl h0
  obtain ⟨hw, hval⟩ := keeps_indexChain.2 h (fun _ => rfl) hrefs _ z' hwrite
  obtain ⟨next, L, hidx, -, hchain, hlen, hrec⟩ := hval idx rfl
  rw [if_pos rfl] at hidx
  subst hidx
  refine ⟨L.flatten.flatten, hrec, fun fuel' hle buff => ?_⟩
  have hread := hchain.read hzip hle buff hw.step.inv hr (Nat.lt_of_lt_of_le hlen hle)
  constructor
  · intro hfits
    rw [if_pos (Or.inl hfits)] at hread
    exact hread
  · intro r z'' hrun
    split at hread
    · obtain ⟨z1, hread⟩ := hread
      cases hread.symm.trans hrun
      rfl
    · cases hread.symm.trans hrun

/-- A content that has been stored is read back, into an empty buffer and into every one that can
hold it, if and only if one index page holds its chunks. -/
theorem indexWrite_read_iff {idx : Nat} (h : Filled env z) (hzip : raw = false → Inflates env)
    (hwrite : shzIndexWrite (writerOf env fuel raw) fuel data z = some (.ok idx, z'))
    (hr : Readable z') :
    (∃ k, ∀ fuel', k ≤ fuel' → ∀ buff, buff = [] ∨ Mem.Fits (buff.length + data.length) → ∃ z'',
      shzIndexRead (readerOf env fuel' raw) fuel' idx buff z' = some (.ok (buff ++ data), z'')) ↔
    data.length ≤ maxIndexSize * chunkSize raw := by
  obtain ⟨content, hrec, hread⟩ := indexWrite_read h.inv hzip hwrite hr
  constructor
  · rintro ⟨k, hk⟩
    by_contra hlong
    -- what has been read is what is listed, and what is lost is missing
    obtain ⟨z1, hz1⟩ := hk (max k fuel) (Nat.le_max_left _ _) [] (Or.inl rfl)
    have heq := Except.ok.inj ((hread (max k fuel) (Nat.le_max_right _ _) []).2 _ _ hz1)
    have hlost := hrec.lost (Nat.lt_of_not_le hlong)
    rw [List.nil_append, List.nil_append] at heq
    rw [heq] at hlost
    exact Nat.lt_irrefl _ hlost
  · intro hle
    rw [hrec.all hle] at hread
    refine ⟨fuel, fun fuel' hfuel buff hbuff => (hread fuel' hfuel buff).1 (hbuff.elim ?_ id)⟩
    rintro rfl
    have hmost : maxIndexSize * chunkSize raw ≤ 264241152 := by
      rcases raw with _ | _ <;> decide
    rw [List.length_nil, Nat.zero_add]
    unfold Mem.Fits Mem.shbufBlocks
    omega

/-! ## Contents that are too long -/

/-- With pages left a raw chunk is written to the next one. -/
theorem rawWrite_run (h : Inv true z) (hlt : z.bseq < 2 ^ 21 - 64) (data : Bytes) : ∃ z1,
    shzRawWrite data z = some (.ok (z.bseq, min (pageSize - sizeofData) data.length), z1) ∧
    z1.bseq = z.bseq + 1 := by
  obtain ⟨dataOf, max, -, -, hnew⟩ := h.roomy.pageNew_run (by omega) (pageFits_of_lt hlt) pageData
  have hsize : 8 ≤ min (pageSize - sizeofData) data.length + sizeofData ∧
      min (pageSize - sizeofData) data.length + sizeofData ≤ pageSize := by
    unfold pageSize sizeofData
    omega
  unfold shzRawWrite
  rw [bind_ok hnew]
  simp only
  rw [bind_ok (put_run ..), bind_ok (sizeSet_run hsize _ _), bind_ok (crcSet_run ..), pure_run]
  exact ⟨_, rfl, rfl⟩

/-- With pages left there is an index page to go on with. -/
theorem indexPage_run {seq lSeq : Nat} (h : Inv true z) (hlt : z.bseq < 2 ^ 21 - 64)
    (hseq : IndexAt z seq)
    (hlast : lSeq < z.bseq) : ∃ p z1, indexPage seq lSeq z = some (.ok p, z1) ∧
      z1.bseq ≤ z.bseq + 1 := by
  unfold indexPage
  rcases hseq with rfl | ⟨hne, hpage⟩
  · obtain ⟨dataOf, max, -, -, hnew⟩ :=
      h.roomy.pageNew_run (by omega) (pageFits_of_lt hlt) pageIndex
    have hinv := (keeps_pageNew h (by decide) _ _ hnew).1.inv
    rw [if_neg (by decide), bind_ok hnew]
    simp only
    rw [bind_ok (linkPage_run (hinv.page_some (Nat.lt_succ_of_lt hlast)) 8 z.bseq), pure_run]
    refine ⟨z.bseq, _, rfl, Nat.le_of_eq ?_⟩
    unfold Arch.linked
    split <;> rfl
  · rw [if_pos hne, bind_ok (h.page_some hpage.lt)]
    exact ⟨seq, z, rfl, Nat.le_succ _⟩

/-- An append takes the reference or says that there is no room. -/
theorem indexAppend_run (p bnum : Nat) (z : Arch) :
    ∃ r z1, shzIndexAppend p bnum z = some (r, z1) ∧ z1.bseq = z.bseq ∧
      (r = .ok () ∨ r = .error .nobufs) := by
  by_cases hfull : freeSeg z p = maxIndexSize
  · exact ⟨_, z, indexAppend_full hfull, rfl, Or.inr rfl⟩
  · exact ⟨_, _, indexAppend_free hfull, Arch.put_bseq.trans Arch.put_bseq, Or.inl rfl⟩

/-- The raw writer stores any content that the archive has room for. -/
theorem rawLoop_run :
    ∀ {passes m : Nat} {z : Arch} {data : Bytes} {seq lSeq ret : Nat}, Inv true z →
    IndexAt z seq → lSeq < z.bseq → data.length ≤ m * (pageSize - sizeofData) → m < passes →
    z.bseq + 2 * m ≤ 2 ^ 21 - 64 →
    ∃ r z', indexAddLoop shzRawWrite passes data seq lSeq ret z = some (.ok r, z') ∧
      z'.bseq ≤ z.bseq + 2 * m := by
  intro passes
  induction passes with
  | zero =>
    intro m z data seq lSeq ret _ _ _ _ hm
    exact absurd hm (Nat.not_lt_zero _)
  | succ passes ih =>
    intro m z data seq lSeq ret h hseq hlast hdata hm hroom
    unfold indexAddLoop
    by_cases hnil : data = []
    · rw [if_pos hnil]
      exact ⟨ret, z, rfl, Nat.le_add_right _ _⟩
    rw [if_neg hnil]
    have hpos : 0 < data.length := List.length_pos_iff.mpr hnil
    -- a pass takes up to two pages: one of the data, one of the index
    obtain _ | m := m
    · omega
    rw [Nat.succ_mul] at hdata
    obtain ⟨z1, hraw, hnext1⟩ := rawWrite_run h (by omega) data
    have hs1 := (keeps_rawWrite h _ _ hraw).1
    have hstep : ∀ {z z' : Arch} {seq : Nat}, IndexAt z seq → Step true z z' → IndexAt z' seq :=
      fun hat hs => hat.imp id fun hpage => ⟨hpage.1, hpage.2.step hs⟩
    have hlast1 := Nat.lt_of_lt_of_le hlast hs1.bseq
    obtain ⟨p, z2, hidx, hnext2⟩ := indexPage_run hs1.inv (by omega) (hstep hseq hs1) hlast1
    obtain ⟨hs2, hval⟩ := keeps_indexPage hs1.inv (hstep hseq hs1) hlast1 _ _ hidx
    obtain ⟨hp0, hpage⟩ := hval p rfl
    obtain ⟨r, z3, happ, hnext3, hr⟩ := indexAppend_run p z.bseq z2
    have hs3 := (keeps_indexAppend hs2.inv hpage hp0 _ _ happ).1
    have hpage3 := hpage.step hs3
    have hdrop : (data.drop (min (pageSize - sizeofData) data.length)).length ≤
        m * (pageSize - sizeofData) := by
      rw [List.length_drop]
      omega
    rw [bind_ok hraw, bind_ok hidx, bind_ok (attempt_run happ)]
    rcases hr with rfl | rfl
    · obtain ⟨r, z', hrun, hle⟩ := ih hs3.inv (Or.inr ⟨hp0, hpage3⟩)
        (Nat.lt_of_lt_of_le hlast1 (Nat.le_trans hs2.bseq hs3.bseq)) hdrop (by omega) (by omega)
      exact ⟨r, z', hrun, by omega⟩
    · -- the index page is full, and is sealed
      simp only
      rw [bind_ok (crcSet_run p z3)]
      have hs4 : Step true z3 (z3.sealed p) :=
        (keeps_crcSet hs3.inv hpage3.lt _ _ (crcSet_run p z3)).1
      have hnext4 : (z3.sealed p).bseq = z3.bseq := rfl
      obtain ⟨r, z', hrun, hle⟩ :=
        ih hs4.inv (Or.inl rfl) (hpage3.step hs4).lt hdrop (by omega) (by omega)
      exact ⟨r, z', hrun, by omega⟩

end From

/-- A fresh archive, and what it holds. -/
theorem fresh_run :
    ∃ z, shzArchInit plainEnv 1 0 (.blank shbufInit 0 []) = some (.ok (), z) ∧ z.bseq = 3 := by
  have hall : (shzArchInit plainEnv 1 0 (.blank shbufInit 0 [])).map
      (fun r => (r.1.toOption, r.2.bseq)) = some (some (), 3) := by decide +kernel
  obtain ⟨⟨r, z⟩, hrun, hz⟩ := Option.map_eq_some_iff.mp hall
  rw [Prod.mk.injEq] at hz
  have hr : r = .ok () := ok_of_toOption hz.1
  subst hr
  exact ⟨z, hrun, hz.2⟩

/-- A fresh archive has three pages. -/
theorem fresh_archive : ∃ z, Reached plainEnv z ∧ z.bseq = 3 := by
  obtain ⟨z, hrun, hz⟩ := fresh_run
  exact ⟨z, .fresh (fun _ => rfl) (by decide) hrun, hz⟩

/-- Bytes that fill a chunk and a part of another one are stored in raw pages, and are read back. -/
theorem indexWrite_read_iff_three : ∃ z z' idx, Filled plainEnv z ∧
    shzIndexWrite (writerOf plainEnv 3 true) 3 (List.replicate 1011 7) z = some (.ok idx, z') ∧
    ∃ k, ∀ fuel', k ≤ fuel' → ∀ buff, buff = [] ∨
      Mem.Fits (buff.length + (List.replicate 1011 (7 : UInt8)).length) →
      ∃ z'', shzIndexRead (readerOf plainEnv fuel' true) fuel' idx buff z' =
        some (.ok (buff ++ List.replicate 1011 7), z'') := by
  obtain ⟨z, hz, hbseq⟩ := fresh_archive
  have hm : (List.replicate 1011 (7 : UInt8)).length ≤ 2 * (pageSize - sizeofData) := by
    rw [List.length_replicate]
    decide
  obtain ⟨idx, z', hwrite, hle⟩ : ∃ idx z',
      shzIndexWrite (writerOf plainEnv 3 true) 3 (List.replicate 1011 7) z = some (.ok idx, z') ∧
        z'.bseq ≤ z.bseq + 2 * 2 :=
    rawLoop_run hz.inv (Or.inl rfl) hz.inv.pos hm (by decide) (by rw [hbseq]; decide)
  rw [hbseq] at hle
  refine ⟨z, z', idx, .fresh hz, hwrite, ?_⟩
  refine (indexWrite_read_iff (.fresh hz) (fun hraw => absurd hraw (by decide)) hwrite
    (Or.inr (Nat.le_trans hle (by decide)))).mpr ?_
  rw [List.length_replicate]
  decide

/-- One byte more than an index page holds: the last chunk is lost. -/
theorem last_chunk_lost : ∃ z z' idx, Filled plainEnv z ∧
    shzIndexWrite (writerOf plainEnv 254 true) 254 (List.replicate 254017 0) z =
      some (.ok idx, z') ∧
    ¬ ∃ k, ∀ fuel', k ≤ fuel' → ∀ buff, buff = [] ∨ Mem.Fits (buff.length + 254017) → ∃ z'',
      shzIndexRead (readerOf plainEnv fuel' true) fuel' idx buff z' =
        some (.ok (buff ++ List.replicate 254017 0), z'') := by
  obtain ⟨z, hz, hbseq⟩ := fresh_archive
  have hlen : (List.replicate 254017 (0 : UInt8)).length = 254017 := List.length_replicate
  have hm : (List.replicate 254017 (0 : UInt8)).length ≤ 253 * (pageSize - sizeofData) := by
    rw [hlen]
    decide
  obtain ⟨idx, z', hwrite, hle⟩ : ∃ idx z',
      shzIndexWrite (writerOf plainEnv 254 true) 254 (List.replicate 254017 0) z =
        some (.ok idx, z') ∧ z'.bseq ≤ z.bseq + 2 * 253 :=
    rawLoop_run hz.inv (Or.inl rfl) hz.inv.pos hm (by decide) (by rw [hbseq]; decide)
  rw [hbseq] at hle
  refine ⟨z, z', idx, .fresh hz, hwrite, ?_⟩
  rintro ⟨k, hk⟩
  obtain ⟨content, hrec, hread⟩ :=
    indexWrite_read hz.inv (fun hraw => absurd hraw (by decide)) hwrite
    (Or.inr (Nat.le_trans hle (by decide)))
  obtain ⟨z1, hz1⟩ := hk (max k 254) (Nat.le_max_left _ _) [] (Or.inl rfl)
  have heq := Except.ok.inj ((hread (max k 254) (Nat.le_max_right _ _) []).2 _ _ hz1)
  have hlost := hrec.lost (by rw [hlen]; decide)
  rw [List.nil_append, List.nil_append] at heq
  rw [← heq] at hlost
  exact Nat.lt_irrefl _ hlost

end LibShare.Shz
