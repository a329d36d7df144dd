import LibShare.Shz.Members

/-!
# libshare — SHZ archives: the contents of pages

What the data writers leave in the pages of an archive, and what the data readers
make of it. A chunk is a raw data page (`RawPage`), or a zlib page that names a chain
of pages with the compressed bytes (`ZlibPage`).

`Within S z z'` says more of an operation than `Step`: besides the base page it has
changed only pages for which `S` holds, and new ones. The writers change new pages
only, so that the chunks that are there stay readable.
-/

namespace LibShare.Shz

open Mem Prog

variable {S : Nat → Prop} {z z' z'' : Arch} {p q of n t : Nat} {bs : Bytes} {env : Env}

/-! ## Pages that stay as they are -/

/-- A page has the same bytes. -/
def Same (z z' : Arch) (q : Nat) : Prop :=
  ∀ i, q * pageSize ≤ i → i < q * pageSize + pageSize → z'.buff.data i = z.buff.data i

/-- A page that is the same has the same bytes at every place within it. -/
theorem Same.bytes (h : Same z z' q) (hend : of + n ≤ pageSize) :
    z'.bytes q of n = z.bytes q of n :=
  slice_congr fun i hi hlt => h i (by omega) (by omega)

/-- A page that is the same has the same fields. -/
theorem Same.fld (h : Same z z' q) (hend : of + n ≤ pageSize) : z'.fld q of n = z.fld q of n :=
  congrArg beVal (h.bytes hend)

/-- A write to one page leaves every other page the same. -/
theorem same_put (hend : of + bs.length ≤ pageSize) (hq : q ≠ p) : Same z (z.put p of bs) q := by
  intro i hi hlt
  refine poke_of_not_mem ?_
  -- the pages do not overlap
  rcases Nat.lt_or_gt_of_ne hq with hlow | hhigh
  · have hnext : (q + 1) * pageSize ≤ p * pageSize := Nat.mul_le_mul_right _ hlow
    rw [Nat.succ_mul] at hnext
    omega
  · have hnext : (p + 1) * pageSize ≤ q * pageSize := Nat.mul_le_mul_right _ hhigh
    rw [Nat.succ_mul] at hnext
    omega

/-- The pages that there are, but for the base page and those of `S`, are as they were. -/
def SameBut (S : Nat → Prop) (z z' : Arch) : Prop := ∀ q < z.bseq, q ≠ 0 → ¬ S q → Same z z' q

theorem SameBut.refl (S : Nat → Prop) (z : Arch) : SameBut S z z := fun _ _ _ _ _ _ _ => rfl

theorem SameBut.trans (h : SameBut S z z') (hle : z.bseq ≤ z'.bseq) (h' : SameBut S z' z'') :
    SameBut S z z'' := by
  intro q hq h0 hS i hi hlt
  rw [h' q (Nat.lt_of_lt_of_le hq hle) h0 hS i hi hlt, h q hq h0 hS i hi hlt]

theorem SameBut.mono {S' : Nat → Prop} (h : SameBut S z z')
    (hS : ∀ q < z.bseq, q ≠ 0 → S q → S' q) :
    SameBut S' z z' :=
  fun q hq h0 hn => h q hq h0 fun hq' => hn (hS q hq h0 hq')

/-- The base page, the pages of `S` and new pages may have changed, and the file table in memory
has not. -/
structure Within (S : Nat → Prop) (z z' : Arch) : Prop where
  step : Step true z z'
  same : SameBut S z z'
  ftable : z'.ftable = z.ftable

/-- An archive that is sound is within what it may become, whatever pages are given away. -/
theorem Inv.within (h : Inv true z) : Within S z z := ⟨h.refl, .refl S z, rfl⟩

/-- One step after the other stays within the pages that both may change. -/
theorem Within.trans (h : Within S z z') (h' : Within S z' z'') : Within S z z'' :=
  ⟨h.step.trans h'.step, h.same.trans h.step.bseq h'.same, h'.ftable.trans h.ftable⟩

instance : IsTrans Arch (Within S) := ⟨fun _ _ _ => Within.trans⟩

/-- More pages may be changed than are. -/
theorem Within.mono {S' : Nat → Prop} (h : Within S z z')
    (hS : ∀ q < z.bseq, q ≠ 0 → S q → S' q) : Within S' z z' :=
  ⟨h.step, h.same.mono hS, h.ftable⟩

/-- A write to the base page, or to a page that may be changed, stays within these pages. -/
theorem Inv.within_put (h : Inv true z) (hw : Writable true z p of bs) (hp : p = 0 ∨ S p) :
    Within S z (z.put p of bs) := by
  refine ⟨h.put hw, fun q _ h0 hS => same_put hw.fits ?_, rfl⟩
  rintro rfl
  exact hp.elim h0 hS

/-! ## Rules -/

section Rules

variable {α : Type} {f : Unit → ShzM α} {g : Option Nat → ShzM α} {Q : α → Arch → Prop}

/-- The rule for a write, followed by the rest of the program. -/
theorem bind_put (h : Inv true z) (hw : Writable true z p of bs) (hp : p = 0 ∨ S p)
    (hf : Within S z (z.put p of bs) → Keeps (Within S) (f ()) (z.put p of bs) Q) :
    Keeps (Within S) (put p of bs >>= f) z Q :=
  have hwithin := h.within_put hw hp
  Keeps.of_ok (put_run ..) (fun _ hs => hwithin.trans hs) (hf hwithin)

/-- A page with its checksum. -/
def Arch.sealed (z : Arch) (p : Nat) : Arch :=
  (z.put p 4 [0, 0]).put p 4 (leBytes16 (shzCrcGet (z.put p 4 [0, 0]) p))

/-- Setting the checksum of a page seals it, and nothing fails. -/
theorem crcSet_run (p : Nat) (z : Arch) : shzCrcSet p z = some (.ok (), z.sealed p) := rfl

/-- A seal changes the two bytes of the checksum and nothing else. -/
theorem sealed_bytes (hend : of + n ≤ pageSize) (h : q = p → of + n ≤ 4 ∨ 6 ≤ of) :
    (z.sealed p).bytes q of n = z.bytes q of n := by
  have hlen : (leBytes16 (shzCrcGet (z.put p 4 [0, 0]) p)).length = 2 := rfl
  rw [Arch.sealed, Arch.bytes_put_ne (by rw [hlen]; decide) hend (by rw [hlen]; exact h),
    Arch.bytes_put_ne (by decide) hend h]

/-- A seal leaves the fields that lie outside of the checksum. -/
theorem sealed_fld (hend : of + n ≤ pageSize) (h : q = p → of + n ≤ 4 ∨ 6 ≤ of) :
    (z.sealed p).fld q of n = z.fld q of n :=
  congrArg beVal (sealed_bytes hend h)

/-- A page that may be changed may be sealed. -/
theorem Inv.within_sealed (h : Inv true z) (hlt : p < z.bseq) (hp : p = 0 ∨ S p) :
    Within S z (z.sealed p) := by
  have hfirst : Within S z (z.put p 4 [0, 0]) :=
    h.within_put (.before hlt (by decide) (by decide)) hp
  exact hfirst.trans (hfirst.step.inv.within_put
    (.before (Nat.lt_of_lt_of_le hlt hfirst.step.bseq) (by decide) (by show 4 + 2 ≤ 16; decide)) hp)

/-- The rule for a seal, followed by the rest of the program. -/
theorem bind_crcSet (h : Inv true z) (hlt : p < z.bseq) (hp : p = 0 ∨ S p)
    (hf : Within S z (z.sealed p) → Keeps (Within S) (f ()) (z.sealed p) Q) :
    Keeps (Within S) (shzCrcSet p >>= f) z Q :=
  have hwithin := h.within_sealed hlt hp
  Keeps.of_ok (crcSet_run p z) (fun _ hs => hwithin.trans hs) (hf hwithin)

/-- A size between the header and the whole page is written to its field. -/
theorem sizeSet_run {len : Nat} (hlen : 8 ≤ len ∧ len ≤ pageSize) (p : Nat) (z : Arch) :
    shzPageSizeSet p len z = some (.ok (), z.put p 6 (beBytes 2 len)) := by
  rw [shzPageSizeSet, if_neg (by omega)]
  rfl

/-- The rule for the size of a page, followed by the rest of the program. -/
theorem bind_sizeSet {len : Nat} (h : Inv true z) (hlt : p < z.bseq) (hp : p = 0 ∨ S p)
    (hlen : 8 ≤ len ∧ len ≤ pageSize)
    (hf : Within S z (z.put p 6 (beBytes 2 len)) →
      Keeps (Within S) (f ()) (z.put p 6 (beBytes 2 len)) Q) :
    Keeps (Within S) (shzPageSizeSet p len >>= f) z Q :=
  have hwithin : Within S z (z.put p 6 (beBytes 2 len)) :=
    h.within_put (.before hlt (by decide) (by rw [length_beBytes]; decide)) hp
  Keeps.of_ok (sizeSet_run hlen p z) (fun _ hs => hwithin.trans hs) (hf hwithin)

/-- A page below the sequence is found, so that the rest of the program begins with it. -/
theorem bind_page (h : Inv true z) (hn : n < z.bseq) (hg : Keeps (Within S) (g (some n)) z Q) :
    Keeps (Within S) (shzPage n >>= g) z Q :=
  Keeps.of_ok (h.page_some hn) (fun _ hs => hs) hg

/-- The buffer may have been moved, with its bytes. -/
theorem Inv.within_regrow (h : Inv true z) {dataOf max : Nat} (hmax : z.buff.dataMax ≤ max) :
    Within S z (z.regrow dataOf max) :=
  ⟨h.regrow hmax, (fun _ _ _ _ _ _ _ => rfl), rfl⟩

/-- A new page changes no other one but the base page. -/
theorem same_newPage (hq : q < z.bseq) (h0 : q ≠ 0) : Same z (newPage t z) q := by
  have hsize : Same z (shzSizeIncr (takePage z) pageSize) q := by
    have hput : Same (takePage z) (shzSizeIncr (takePage z) pageSize) q :=
      same_put (by rw [length_beBytes]; decide) h0
    exact hput
  intro i hi hlt
  unfold newPage
  rw [same_put (by rw [length_beBytes]; decide) (Nat.ne_of_lt hq) i hi hlt,
    same_put (by decide) (Nat.ne_of_lt hq) i hi hlt, hsize i hi hlt]

/-- A new page is zero, but for its header. -/
theorem pageNew_within {r : Except Sherr (Option Nat)} (h : Inv true z) (ht : t < 65536)
    (hrun : shzPageNew t z = some (r, z')) :
    r = .ok (some z.bseq) ∧ (∀ {S}, Within S z z') ∧ z'.bseq = z.bseq + 1 ∧ IsPage z' z.bseq t ∧
      ∀ of n, 4 ≤ of → of + n ≤ pageSize → z'.fld z.bseq of n = 0 := by
  obtain ⟨rfl, hlt, dataOf, max, hmax, hroom, rfl⟩ := h.roomy.pageNew hrun
  have hinv : Inv true (z.regrow dataOf max) := (h.regrow hmax).inv
  have hwithin : ∀ {S}, Within S z (newPage t (z.regrow dataOf max)) :=
    (h.within_regrow hmax).trans
      ⟨hinv.newPage hlt hroom, (fun q hq h0 _ => same_newPage hq h0), rfl⟩
  refine ⟨rfl, hwithin, rfl, ⟨Nat.lt_succ_self _, newPage_type_self ht⟩, fun of n hof hend => ?_⟩
  have hpos := h.pos
  exact (newPage_fld hend (fun _ => hof) fun h0 => by omega).trans ((hinv.orderly rfl).fresh of n)

/-- The rule for a new page: it has the number that comes next and the type that was asked for,
and everything behind its header is zero. -/
theorem bind_pageNew (h : Inv true z) (ht : t < 65536)
    (hg : ∀ z1, (∀ {S}, Within S z z1) → z1.bseq = z.bseq + 1 → IsPage z1 z.bseq t →
      (∀ of n, 4 ≤ of → of + n ≤ pageSize → z1.fld z.bseq of n = 0) →
      Keeps (Within S) (g (some z.bseq)) z1 Q) :
    Keeps (Within S) (shzPageNew t >>= g) z Q := by
  intro r z' hrun
  rcases bind_inv hrun with ⟨e, he, -⟩ | ⟨blk, z1, hnew, hrest⟩
  · cases (pageNew_within h ht he).1
  obtain ⟨hblk, hs, hnext, hpage, hzero⟩ := pageNew_within h ht hnew
  cases hblk
  obtain ⟨hs', hq⟩ := hg z1 hs hnext hpage hzero r z' hrest
  exact ⟨hs.trans hs', hq⟩

end Rules

/-- A write leaves the fields of its own page that it does not overlap. -/
theorem put_fld_ne (hend : of + bs.length ≤ pageSize) {of' : Nat} (hend' : of' + n ≤ pageSize)
    (h : of' + n ≤ of ∨ of + bs.length ≤ of') : (z.put p of bs).fld p of' n = z.fld p of' n :=
  Arch.fld_put_ne hend hend' fun _ => h

/-! ## Raw pages -/

/-- A data page with its bytes. -/
structure RawPage (z : Arch) (p : Nat) (d : Bytes) : Prop where
  ne : p ≠ 0
  page : IsPage z p pageData
  fits : sizeofData + d.length ≤ pageSize
  size : shzPageSize z p = sizeofData + d.length
  data : z.bytes p sizeofData d.length = d

/-- A raw page that may not be changed holds its data still. -/
theorem RawPage.within {d : Bytes} (h : RawPage z p d) (hw : Within S z z') (hS : ¬ S p) :
    RawPage z' p d := by
  have hsame := hw.same p h.page.lt h.ne hS
  refine ⟨h.ne, h.page.step hw.step, h.fits, ?_, ?_⟩
  · rw [shzPageSize, hsame.fld (by decide)]
    exact h.size
  · rw [hsame.bytes h.fits, h.data]

/-- How many bytes the raw writer puts into a page. -/
theorem keeps_rawPage {data : Bytes} (h : Inv true z) :
    Keeps (Within fun q => z.bseq ≤ q) (shzRawWrite data) z fun w z' =>
      w.2 = min (pageSize - sizeofData) data.length ∧ RawPage z' w.1 (data.take w.2) := by
  refine bind_pageNew h (by decide) fun z1 hw1 hnext hpage hzero => ?_
  have h0 : z.bseq ≠ 0 := Nat.ne_of_gt h.pos
  have hS : z.bseq = 0 ∨ z.bseq ≤ z.bseq := Or.inr (Nat.le_refl _)
  generalize hlen : min (pageSize - sizeofData) data.length = wLen
  have htake : (data.take wLen).length = wLen := by
    rw [List.length_take]
    omega
  have hsmall : sizeofData + wLen ≤ pageSize := by
    unfold pageSize sizeofData at *
    omega
  have hfits : sizeofData + (data.take wLen).length ≤ pageSize := by
    rw [htake]
    exact hsmall
  have h1 : Inv true z1 := (hw1 (S := fun _ => False)).step.inv
  refine bind_put h1 (.page hpage h0 (by decide) (by decide) hfits) hS fun hw2 => ?_
  have hlt : z.bseq < z1.bseq := hpage.lt
  refine bind_sizeSet hw2.step.inv hlt hS (by unfold sizeofData at *; omega) fun hw3 => ?_
  refine bind_crcSet hw3.step.inv hlt hS fun hw4 => ?_
  have hpage4 := ((hpage.step hw2.step).step hw3.step).step hw4.step
  refine Keeps.pure hw4.step.inv.within ⟨rfl, h0, hpage4, hfits, ?_, ?_⟩
  · rw [shzPageSize, sealed_fld (by decide) fun _ => Or.inr (by decide), Arch.fld_put, htake,
      Nat.add_comm]
    unfold pageSize sizeofData at *
    omega
  · rw [sealed_bytes hfits fun _ => Or.inr (by decide),
      Arch.bytes_put_ne (by rw [length_beBytes]; decide) hfits fun _ =>
        Or.inr (by rw [length_beBytes]; decide)]
    exact Arch.bytes_put

/-- What a raw page holds is what a read of it returns. -/
theorem RawPage.read {b : Bool} {d : Bytes} (hp : RawPage z p d) (h : Inv b z) :
    shzRawRead p z = some (.ok d, z) := by
  have hsize : ¬ shzPageSize z p < sizeofData := by
    rw [hp.size]
    omega
  have hinside : ¬ z.buff.dataMax < p * pageSize + shzPageSize z p := by
    have hnext : (p + 1) * pageSize ≤ z.bseq * pageSize := Nat.mul_le_mul_right _ hp.page.lt
    have hroom := h.room
    have hfits := hp.fits
    rw [Nat.succ_mul] at hnext
    rw [hp.size]
    omega
  unfold shzRawRead
  rw [bind_ok (h.page_some hp.page.lt)]
  simp only
  rw [bind_ok (read_run _ _), if_neg hsize, bind_ok (read_run _ _), if_neg hinside,
    read_run, hp.size, Nat.add_sub_cancel_left, hp.data]

/-! ## Chains of zlib pages -/

/-- A page with a part of the compressed bytes, and the page after it. -/
structure ZlibPart (z : Arch) (p : Nat) (part : Bytes) (next : Nat) : Prop where
  ne : p ≠ 0
  page : IsPage z p pageZlibData
  fits : sizeofMod + part.length ≤ pageSize
  size : shzPageSize z p = sizeofMod + part.length
  data : z.bytes p sizeofMod part.length = part
  next_eq : z.fld p 56 4 = next

/-- The pages from one on, with the parts that they hold. -/
def ZlibChain (z : Arch) : Nat → List Bytes → Prop
  | p, [] => p = 0
  | p, part :: parts => ∃ next, ZlibPart z p part next ∧ ZlibChain z next parts

/-- A part of a compressed chunk that may not be changed holds its bytes and its reference
still. -/
theorem ZlibPart.within {part : Bytes} {next : Nat} (h : ZlibPart z p part next)
    (hw : Within S z z') (hS : ¬ S p) : ZlibPart z' p part next := by
  have hsame := hw.same p h.page.lt h.ne hS
  refine ⟨h.ne, h.page.step hw.step, h.fits, ?_, ?_, ?_⟩
  · rw [shzPageSize, hsame.fld (by decide)]
    exact h.size
  · rw [hsame.bytes h.fits, h.data]
  · rw [hsame.fld (by decide), h.next_eq]

/-- If no part may be changed, the chain of the parts stands. -/
theorem ZlibChain.within (hw : Within S z z')
    (hS : ∀ q, q ≠ 0 → IsPage z q pageZlibData → ¬ S q) : ∀ {parts : List Bytes} {p : Nat},
    ZlibChain z p parts → ZlibChain z' p parts := by
  intro parts
  induction parts with
  | nil =>
    intro p h
    exact h
  | cons part parts ih =>
    rintro p ⟨next, hpart, hrest⟩
    exact ⟨next, hpart.within hw (hS p hpart.ne hpart.page), ih hrest⟩

/-- What is appended to a buffer that can hold it. -/
theorem catTo_run {buff part : Bytes} (h : Mem.Fits (buff.length + part.length)) (z : Arch) :
    catTo buff part z = some (.ok (buff ++ part), z) := by
  rw [catTo, if_pos h]
  rfl

/-- A part is less than a page. -/
theorem ZlibChain.length_le : ∀ {parts : List Bytes} {p : Nat}, ZlibChain z p parts →
    parts.flatten.length ≤ parts.length * (pageSize - sizeofMod) := by
  intro parts
  induction parts with
  | nil => exact fun _ => Nat.zero_le _
  | cons part parts ih =>
    rintro p ⟨next, hpart, hrest⟩
    have hfits := hpart.fits
    have hle := ih hrest
    rw [List.flatten_cons, List.length_append, List.length_cons, Nat.succ_mul]
    omega

/-- The parts of fewer pages than there can be fit into a buffer. -/
theorem ZlibChain.fits {parts : List Bytes} (h : ZlibChain z p parts)
    (hlen : parts.length ≤ 2 ^ 21) :
    Mem.Fits parts.flatten.length := by
  have hle := h.length_le
  unfold pageSize sizeofMod at hle
  unfold Mem.Fits shbufBlocks
  omega

/-- The compressed bytes are read. -/
theorem ZlibChain.read {b : Bool} (hinv : Inv b z) :
    ∀ {parts : List Bytes} {p fuel : Nat} {buff : Bytes}, ZlibChain z p parts → parts ≠ [] →
      parts.length < fuel →
    Mem.Fits (buff.length + parts.flatten.length) →
    zlibBytes fuel (some p) buff z = some (.ok (buff ++ parts.flatten), z) := by
  intro parts
  induction parts with
  | nil =>
    intro p fuel buff _ hne
    exact absurd rfl hne
  | cons part parts ih =>
    rintro p fuel buff ⟨next, hpart, hrest⟩ - hfuel hroom
    rw [List.flatten_cons, List.length_append] at hroom
    have hone : Mem.Fits (buff.length + part.length) := hroom.mono (by omega)
    obtain _ | fuel := fuel
    · exact absurd hfuel (Nat.not_lt_zero _)
    have hsize : ¬ (shzPageSize z p < sizeofMod ∨ pageSize < shzPageSize z p) := by
      have hfits := hpart.fits
      rw [hpart.size]
      omega
    rw [zlibBytes, bind_ok (read_run _ _), if_neg hsize, bind_ok (read_run _ _), hpart.size,
      Nat.add_sub_cancel_left, hpart.data, bind_ok (catTo_run hone z), bind_ok (read_run _ _),
        hpart.next_eq]
    rcases parts with _ | ⟨part', parts⟩
    · have hzero : next = 0 := hrest
      rw [if_pos hzero, pure_run, List.flatten_singleton]
    · obtain ⟨next', hpart', hrest'⟩ := hrest
      rw [if_neg hpart'.ne, bind_ok (hinv.page_some hpart'.page.lt),
        ih ⟨next', hpart', hrest'⟩ (List.cons_ne_nil _ _) (Nat.lt_of_succ_lt_succ hfuel)
          (by rw [List.length_append, Nat.add_assoc]; exact hroom),
        List.append_assoc, ← List.flatten_cons]

/-! ## Links between pages -/

/-- The last page of a chain, if there is one, names the next one. -/
def Arch.linked (z : Arch) (of last p : Nat) : Arch :=
  if last = 0 then z else (z.put last of (beBytes 4 p)).sealed last

/-- A page that is there is linked to the next one. -/
theorem linkPage_run {last : Nat} (hlast : shzPage last z = some (.ok (some last), z))
    (of p : Nat) :
    linkPage of last p z = some (.ok (), z.linked of last p) := by
  unfold linkPage Arch.linked
  split
  · rfl
  · rw [bind_ok hlast]
    rfl

/-- A seal leaves every other page the same. -/
theorem same_sealed (hq : q ≠ p) : Same z (z.sealed p) q := by
  intro i hi hlt
  have hlen : 4 + (leBytes16 (shzCrcGet (z.put p 4 [0, 0]) p)).length ≤ pageSize := by
    show 4 + 2 ≤ pageSize
    decide
  rw [Arch.sealed, same_put hlen hq i hi hlt, same_put (by decide) hq i hi hlt]

/-- A link leaves every other page the same. -/
theorem same_linked {last : Nat} (hof : of + 4 ≤ pageSize) (hq : q ≠ last) :
    Same z (z.linked of last p) q := by
  intro i hi hlt
  unfold Arch.linked
  split
  · rfl
  · rw [same_sealed hq i hi hlt, same_put (by rw [length_beBytes]; exact hof) hq i hi hlt]

/-- The rule for a link, followed by the rest of the program. -/
theorem bind_linkPage {α : Type} {last : Nat} {f : Unit → ShzM α} {Q : α → Arch → Prop}
    (h : Inv true z) (hlast : last < z.bseq) (hw : Writable true z last of (beBytes 4 p))
    (hS : last = 0 ∨ S last)
    (hf : Within S z (z.linked of last p) → Keeps (Within S) (f ()) (z.linked of last p) Q) :
    Keeps (Within S) (linkPage of last p >>= f) z Q := by
  have hwithin : Within S z (z.linked of last p) := by
    unfold Arch.linked
    split
    · exact h.within
    · have hput : Within S z (z.put last of (beBytes 4 p)) := h.within_put hw hS
      exact hput.trans (hput.step.inv.within_sealed hlast hS)
  exact Keeps.of_ok (linkPage_run (h.page_some hlast) of p) (fun _ hs =>
    hwithin.trans hs) (hf hwithin)

/-- A link changes the reference and the checksum of its page, and nothing else. -/
theorem linked_bytes {last of' : Nat} (hof : of + 4 ≤ pageSize) (hend : of' + n ≤ pageSize)
    (h6 : 6 ≤ of') (hne : of' + n ≤ of ∨ of + 4 ≤ of') :
    (z.linked of last p).bytes last of' n = z.bytes last of' n := by
  unfold Arch.linked
  split
  · rfl
  · rw [sealed_bytes hend fun _ => Or.inr h6,
      Arch.bytes_put_ne (by rw [length_beBytes]; exact hof) hend fun _ => by
        rw [length_beBytes]
        exact hne]

/-- The reference that has been linked is read back. -/
theorem linked_fld {last : Nat} (h0 : last ≠ 0) (hof : of + 4 ≤ pageSize) (h6 : 6 ≤ of)
    (hp : p < 2 ^ 32) : (z.linked of last p).fld last of 4 = p := by
  rw [Arch.linked, if_neg h0, sealed_fld hof fun _ => Or.inr h6, Arch.fld_put hp]

/-! ## Writing zlib pages -/

/-- A part that is linked to the next page keeps its bytes and refers to that page. -/
theorem ZlibPart.linked {part : Bytes} {next last : Nat} (h : ZlibPart z last part next)
    (hw : Within S z (z.linked 56 last p)) (hp : p < 2 ^ 32) :
    ZlibPart (z.linked 56 last p) last part p := by
  refine ⟨h.ne, h.page.step hw.step, h.fits, ?_, ?_, linked_fld h.ne (by decide) (by decide) hp⟩
  · rw [shzPageSize, Arch.fld, beAt]
    show beVal ((z.linked 56 last p).bytes last 6 2) = _
    rw [linked_bytes (by decide) (by decide) (by decide) (Or.inl (by decide))]
    exact h.size
  · rw [linked_bytes (by decide) h.fits (by decide) (Or.inr (by decide)), h.data]

/-- A part of the compressed bytes is put into a page. -/
theorem bind_zlibPart {α : Type} {part : Bytes} {len : Nat} {f : Unit → ShzM α}
    {Q : α → Arch → Prop} (h : Inv true z) (h0 : p ≠ 0) (hpage : IsPage z p pageZlibData)
    (hzero : z.fld p 56 4 = 0) (hlen : part.length = len) (hfits : sizeofMod + len ≤ pageSize)
    (hS : S p)
    (hf : ∀ z', (∀ {S}, S p → Within S z z') → z'.bseq = z.bseq → ZlibPart z' p part 0 →
      Keeps (Within S) (f ()) z' Q) :
    Keeps (Within S) (shzPageSizeSet p (sizeofMod + len) >>= fun _ =>
      put p sizeofMod part >>= fun _ => shzCrcSet p >>= f) z Q := by
  subst hlen
  have hp : ∀ {S : Nat → Prop}, S p → p = 0 ∨ S p := Or.inr
  have hsize : 8 ≤ sizeofMod + part.length ∧ sizeofMod + part.length ≤ pageSize :=
    ⟨Nat.le_trans (by decide) (Nat.le_add_right sizeofMod _), hfits⟩
  -- the three writes
  have hw1 : Writable true z p 6 (beBytes 2 (sizeofMod + part.length)) :=
    .before hpage.lt (by decide) (by rw [length_beBytes]; decide)
  have hpage1 : IsPage (z.put p 6 (beBytes 2 (sizeofMod + part.length))) p pageZlibData :=
    ⟨hpage.lt, by rw [hw1.type, hpage.type]⟩
  have hw2 : Writable true (z.put p 6 (beBytes 2 (sizeofMod + part.length))) p sizeofMod part :=
    .page hpage1 h0 (by decide) (by decide) hfits
  have hwithin : ∀ {S : Nat → Prop}, S p → Within S z
      (((z.put p 6 (beBytes 2 (sizeofMod + part.length))).put p sizeofMod part).sealed p) := by
    intro S hS
    have hfirst := h.within_put hw1 (hp hS)
    have hsecond := hfirst.step.inv.within_put hw2 (hp hS)
    exact hfirst.trans (hsecond.trans (hsecond.step.inv.within_sealed hpage.lt (hp hS)))
  have hpart : ZlibPart
      (((z.put p 6 (beBytes 2 (sizeofMod + part.length))).put p sizeofMod part).sealed p) p
        part 0 := by
    refine ⟨h0, hpage.step (hwithin (S := fun q => q = p) rfl).step, hfits, ?_, ?_, ?_⟩
    · rw [shzPageSize, sealed_fld (by decide) fun _ => Or.inr (by decide),
        put_fld_ne hfits (by decide) (Or.inl (by decide)), Arch.fld_put]
      unfold pageSize at hfits
      omega
    · rw [sealed_bytes hfits fun _ => Or.inr (by decide)]
      exact Arch.bytes_put
    · rw [sealed_fld (by decide) fun _ => Or.inr (by decide),
        put_fld_ne hfits (by decide) (Or.inl (by decide)),
        put_fld_ne (by rw [length_beBytes]; decide) (by decide)
          (Or.inr (by rw [length_beBytes]; decide)), hzero]
  intro r s' hrun
  rw [bind_ok (sizeSet_run hsize p z), bind_ok (put_run ..), bind_ok (crcSet_run p _)] at hrun
  obtain ⟨hs, hq⟩ := hf _ hwithin rfl hpart r s' hrun
  exact ⟨(hwithin hS).trans hs, hq⟩

/-- The compressed bytes are stored in new pages, which are chained to the last one. -/
theorem keeps_zlibChain :
    ∀ {fuel : Nat} {z : Arch} {zData : Bytes} {first last : Nat} (part : Bytes), Inv true z →
      (last = 0 → first = 0) → (last ≠ 0 → first ≠ 0 ∧ ZlibPart z last part 0) →
    Keeps (Within fun q => q = last ∨ z.bseq ≤ q) (zlibPages zData first last fuel) z
      fun first' z' => ∃ next parts, parts.length < fuel ∧ z.bseq + parts.length ≤ z'.bseq ∧
        ZlibChain z' next parts ∧
        parts.flatten = zData ∧ first' = (if last = 0 then next else first) ∧
        (last ≠ 0 → ZlibPart z' last part next) := by
  -- `last` is the page that is to name the next one; there is none at the start
  intro fuel
  induction fuel with
  | zero =>
    intro z zData first last part _ _ _
    exact Keeps.undef
  | succ fuel ih =>
    intro z zData first last part h hfirst hlast
    refine Keeps.ite (fun hnil => Keeps.pure h.within ⟨0, [], ?_⟩) fun hne => ?_
    · -- nothing is left: the last page names no page
      refine ⟨Nat.succ_pos _, Nat.le_refl _, rfl, hnil.symm, ?_, fun h0 => (hlast h0).2⟩
      split
      · next h0 => exact hfirst h0
      · rfl
    -- a page is taken, named by the last one, and filled
    refine bind_pageNew h (by decide) fun z1 hw1 hnext hpage hzero => ?_
    have hp0 : z.bseq ≠ 0 := Nat.ne_of_gt h.pos
    have hlastlt : last < z.bseq := by
      by_cases h0 : last = 0
      · rw [h0]
        exact h.pos
      · exact (hlast h0).2.page.lt
    have hlast1 : last < z1.bseq := Nat.lt_trans hlastlt hpage.lt
    refine bind_linkPage (hw1 (S := fun _ => False)).step.inv hlast1
      (.names hlast1 fun _ => hpage.plain (by decide)) (Or.inr (Or.inl rfl)) fun hw2 => ?_
    have hpage2 := hpage.step hw2.step
    have hzero2 : (z1.linked 56 last z.bseq).fld z.bseq 56 4 = 0 := by
      rw [(same_linked (by decide) (Nat.ne_of_gt hlastlt)).fld (by decide)]
      exact hzero 56 4 (by decide) (by decide)
    generalize hlen : min (pageSize - sizeofMod) zData.length = len
    have htake : (zData.take len).length = len := by
      rw [List.length_take]
      omega
    have hfits : sizeofMod + len ≤ pageSize := by
      unfold pageSize sizeofMod at *
      omega
    refine bind_zlibPart hw2.step.inv hp0 hpage2 hzero2 htake hfits (Or.inr (Nat.le_refl _))
      fun z3 hw3 hbseq hpart => ?_
    have h3 : Inv true z3 := (hw3 (S := fun q => q = z.bseq) rfl).step.inv
    have hseq3 : z.bseq < z3.bseq := hpart.page.lt
    have hfirst2 : (if first = 0 then z.bseq else first) ≠ 0 := by
      split
      · exact hp0
      · assumption
    refine Keeps.weaken (Keeps.mono (ih _ h3 (fun h0 => absurd h0 hp0) fun _ =>
      ⟨hfirst2, hpart⟩) ?_)
      fun _ hw4 => hw4.mono fun q _ _ hq => Or.inr (by omega)
    rintro first' z4 hw4 ⟨next, parts, hfuel, hpages, hchain, hflat, rfl, hpart4⟩
    refine ⟨z.bseq, zData.take len :: parts, Nat.succ_lt_succ hfuel,
      by rw [List.length_cons]; omega, ⟨next, hpart4 hp0, hchain⟩,
      ?_, ?_, fun h0 => ?_⟩
    · rw [List.flatten_cons, hflat, List.take_append_drop]
    · rw [if_neg hp0]
      by_cases h0 : last = 0
      · rw [if_pos h0, if_pos (hfirst h0)]
      · rw [if_neg h0, if_neg (hlast h0).1]
    · -- the last page is not written any more
      have hpart1 := (hlast h0).2.within (hw1 (S := fun _ => False)) id
      have hpart2 := hpart1.linked hw2 (Nat.lt_of_le_of_lt h.le (by decide))
      have hpart3 := hpart2.within (hw3 (S := fun q => q = z.bseq) rfl) (Nat.ne_of_lt hlastlt)
      exact hpart3.within hw4 (by omega)

/-- A zlib page that names the chain of its compressed bytes, which a number of passes
reads. -/
structure ZlibPage (fuel : Nat) (z : Arch) (p : Nat) (zData : Bytes) : Prop where
  ne : p ≠ 0
  page : IsPage z p pageZlib
  chain : ∃ parts, parts.length < fuel ∧ parts.length ≤ z.bseq ∧
    ZlibChain z (z.fld p 56 4) parts ∧ parts.flatten = zData

/-- A compressed chunk stands if neither its page nor any of its parts may be changed. -/
theorem ZlibPage.within {fuel : Nat} {zData : Bytes} (h : ZlibPage fuel z p zData)
    (hw : Within S z z') (hp : ¬ S p) (hS : ∀ q, q ≠ 0 → IsPage z q pageZlibData → ¬ S q) :
    ZlibPage fuel z' p zData := by
  obtain ⟨parts, hfuel, hpages, hchain, hflat⟩ := h.chain
  refine ⟨h.ne, h.page.step hw.step, parts, hfuel, Nat.le_trans hpages hw.step.bseq, ?_, hflat⟩
  rw [(hw.same p h.page.lt h.ne hp).fld (by decide)]
  exact hchain.within hw hS

/-- The pages of a chain are plain ones. -/
theorem ZlibChain.plain {parts : List Bytes} (h : ZlibChain z p parts) (hinv : Inv true z) :
    Plain z p := by
  match parts, h with
  | [], h =>
    have h0 : p = 0 := h
    rw [h0]
    exact (hinv.orderly rfl).base
  | _ :: _, ⟨_, hpart, _⟩ => exact hpart.page.plain (by decide)

/-- A new zlib page for a chain. -/
theorem keeps_zlibPage {fuel rawBnum rawLen : Nat} {id : ShKey} {parts : List Bytes}
    (h : Inv true z) (hfuel : parts.length < fuel) (hpages : parts.length ≤ z.bseq)
    (hchain : ZlibChain z rawBnum parts) :
    Keeps (Within fun q => z.bseq ≤ q) (shzZlibNew rawBnum rawLen id) z fun p z' =>
      ZlibPage fuel z' p parts.flatten := by
  refine bind_pageNew h (by decide) fun z1 hw1 hnext hpage hzero => ?_
  have h1 : Inv true z1 := (hw1 (S := fun _ => False)).step.inv
  have h0 : z.bseq ≠ 0 := Nat.ne_of_gt h.pos
  have hS : z.bseq = 0 ∨ z.bseq ≤ z.bseq := Or.inr (Nat.le_refl _)
  have hlt : z.bseq < z1.bseq := hpage.lt
  have hplain := hchain.plain h
  have hraw : rawBnum < 2 ^ 32 := Nat.lt_of_lt_of_le hplain.lt (Nat.le_trans h.le (by decide))
  have hplain1 := hplain.step (hw1 (S := fun _ => False)).step
  have hlen : ∀ n : Nat, (beBytes 4 n).length = 4 := length_beBytes 4
  refine bind_put h1 (.clear hlt h0 (by decide) (by rw [hlen]; decide)
    (Or.inl (by rw [hlen]; decide))) hS fun hw2 => ?_
  refine bind_put hw2.step.inv (.names hlt fun _ => hplain1.step hw2.step) hS fun hw3 => ?_
  refine bind_put hw3.step.inv (.clear hlt h0 (by decide) (by rw [length_toBytes]; decide)
    (Or.inl (by rw [length_toBytes]; decide))) hS fun hw4 => ?_
  refine bind_sizeSet hw4.step.inv hlt hS (by decide) fun hw5 => ?_
  refine bind_crcSet hw5.step.inv hlt hS fun hw6 => ?_
  have hw := hw2.trans (hw3.trans (hw4.trans (hw5.trans hw6)))
  refine Keeps.pure hw6.step.inv.within ⟨h0, hpage.step hw.step, parts, hfuel,
    Nat.le_trans hpages (hw1.trans hw).step.bseq, ?_, rfl⟩
  rw [sealed_fld (by decide) fun _ => Or.inr (by decide),
    put_fld_ne (by rw [length_beBytes]; decide) (by decide)
      (Or.inr (by rw [length_beBytes]; decide)),
    put_fld_ne (by rw [length_toBytes]; decide) (by decide)
      (Or.inr (by rw [length_toBytes]; decide)),
    Arch.fld_put hraw]
  exact hchain.within (hw1.trans hw) fun q _ hq => Nat.not_le.mpr hq.lt

/-- The zlib writer stores a segment. -/
theorem keeps_zlibSegment {fuel : Nat} {data : Bytes} (h : Inv true z) :
    Keeps (Within fun q => z.bseq ≤ q) (shzZlibWrite env fuel data) z fun w z' =>
      w.2 = min 1048576 data.length ∧ ZlibPage fuel z' w.1 (env.deflate (data.take w.2)) := by
  have htake : data.take (data.take 1048576).length = data.take 1048576 := by
    rw [List.length_take, ← List.take_take, List.take_length]
  have hchain : Keeps (Within fun q => z.bseq ≤ q)
      (zlibPages (env.deflate (data.take 1048576)) 0 0 fuel) z fun first z' => ∃ parts,
        parts.length < fuel ∧ parts.length ≤ z'.bseq ∧ ZlibChain z' first parts ∧
        parts.flatten = env.deflate (data.take 1048576) := by
    refine Keeps.mono ((keeps_zlibChain [] h (fun _ => rfl) (fun h0 => absurd rfl h0)).weaken
      fun _ hw => hw.mono fun q _ h0 hq => hq.resolve_left h0) ?_
    rintro first z1 - ⟨next, parts, hfuel, hpages, hchain, hflat, hfirst, -⟩
    rw [if_pos rfl] at hfirst
    exact ⟨parts, hfuel, Nat.le_trans (Nat.le_add_left _ _) hpages, hfirst ▸ hchain, hflat⟩
  refine Keeps.bind hchain fun first z1 hw1 hparts => ?_
  obtain ⟨parts, hfuel, hpages, hchain, hflat⟩ := hparts
  have hnew : Keeps (Within fun q => z.bseq ≤ q) (shzZlibNew first
      (env.deflate (data.take 1048576)).length (shkeyBin env (data.take 1048576))) z1 fun p z' =>
      ZlibPage fuel z' p (env.deflate (data.take 1048576)) := by
    rw [← hflat]
    exact (keeps_zlibPage hw1.step.inv hfuel hpages hchain).weaken fun _ hw2 =>
      hw2.mono fun q _ _ hq => Nat.le_trans hw1.step.bseq hq
  refine Keeps.bind hnew fun p z2 hw2 hpage => ?_
  -- the archived size is in the base page
  have hlen : (beBytes 8 (z2.fld 0 24 8 + (data.take 1048576).length)).length = 8 :=
    length_beBytes _ _
  have hw3 : ∀ {S}, Within S z2 (shzZsizeIncr z2 (data.take 1048576).length) := by
    intro S
    refine hw2.step.inv.within_put ⟨hw2.step.inv.pos, by decide, by rw [hlen]; decide,
      fun _ => Or.inr (Nat.le_refl _), fun _ _ => Or.inl (by rw [hlen]; decide)⟩ (Or.inl rfl)
  refine Keeps.of_ok (modify_run _ _) (fun _ hs => hw3.trans hs)
    (Keeps.pure (hw3 (S := fun _ => False)).step.inv.within ⟨List.length_take, ?_⟩)
  rw [htake]
  exact hpage.within (hw3 (S := fun _ => False)) id fun _ _ _ => id

/-! ## Chunks -/

/-- How much of the content a writer puts into a chunk. -/
def chunkSize (raw : Bool) : Nat := if raw then pageSize - sizeofData else 1048576

/-- A page from which the reader of an archive gets a chunk. -/
structure Chunk (env : Env) (fuel : Nat) (raw : Bool) (z : Arch) (p : Nat) (d : Bytes) : Prop where
  ne : d ≠ []
  le : d.length ≤ chunkSize raw
  stored : if raw then RawPage z p d else ZlibPage fuel z p (env.deflate d)

section Chunk

variable {fuel : Nat} {raw : Bool} {d : Bytes}

theorem chunkSize_pos (raw : Bool) : 0 < chunkSize raw := by
  rcases raw with _ | _ <;> decide

/-- Either writer puts a chunk into new pages, which hold the first bytes of the data, as many
as a chunk takes. -/
theorem keeps_chunk {data : Bytes} (h : Inv true z) (hne : data ≠ []) :
    Keeps (Within fun q => z.bseq ≤ q) (writerOf env fuel raw data) z fun w z' =>
      w.2 = min (chunkSize raw) data.length ∧ Chunk env fuel raw z' w.1 (data.take w.2) := by
  have hstored : Keeps (Within fun q => z.bseq ≤ q) (writerOf env fuel raw data) z fun w z' =>
      w.2 = min (chunkSize raw) data.length ∧
      if raw then RawPage z' w.1 (data.take w.2)
      else ZlibPage fuel z' w.1 (env.deflate (data.take w.2)) := by
    rcases raw with _ | _
    · exact keeps_zlibSegment h
    · exact keeps_rawPage h
  refine hstored.mono fun w z' _ hw => ⟨hw.1, ?_, ?_, hw.2⟩
  · have hpos := chunkSize_pos raw
    have hlen : 0 < data.length := List.length_pos_iff.mpr hne
    rw [← List.length_pos_iff, List.length_take]
    omega
  · rw [List.length_take]
    omega

/-- Index pages may change. -/
theorem Chunk.within (h : Chunk env fuel raw z p d) (hw : Within S z z')
    (hS : ∀ q, S q → q ≠ 0 → q < z.bseq → IsPage z q pageIndex) : Chunk env fuel raw z' p d := by
  have hfree : ∀ {q t : Nat}, q ≠ 0 → IsPage z q t → t ≠ pageIndex → ¬ S q := by
    intro q t h0 hq ht hSq
    exact ht (hq.type.symm.trans (hS q hSq h0 hq.lt).type)
  refine ⟨h.ne, h.le, ?_⟩
  rcases raw with _ | _
  · have hpage : ZlibPage fuel z p (env.deflate d) := h.stored
    exact hpage.within hw (hfree hpage.ne hpage.page (by decide)) fun q h0 hq =>
      hfree h0 hq (by decide)
  · have hpage : RawPage z p d := h.stored
    exact hpage.within hw (hfree hpage.ne hpage.page (by decide))

/-- A chunk is on a page of the archive that is not the base page. -/
theorem Chunk.lt (h : Chunk env fuel raw z p d) : p ≠ 0 ∧ p < z.bseq := by
  rcases raw with _ | _
  · have hpage : ZlibPage fuel z p (env.deflate d) := h.stored
    exact ⟨hpage.ne, hpage.page.lt⟩
  · have hpage : RawPage z p d := h.stored
    exact ⟨hpage.ne, hpage.page.lt⟩

/-- What the zlib reader needs of zlib: `inflate` undoes `deflate` on the segments of
the zlib writer. -/
def Inflates (env : Env) : Prop :=
  ∀ d : Bytes, d ≠ [] → d.length ≤ 1048576 → shzdec env (env.deflate d) = .ok d

/-- A compressed chunk is read back, if what was deflated is inflated. -/
theorem ZlibPage.read {b : Bool} {fuel' : Nat} (h : ZlibPage fuel z p (env.deflate d))
    (hinv : Inv b z)
    (hle : fuel ≤ fuel') (hne : d ≠ []) (hsegment : d.length ≤ 1048576)
    (hdec : shzdec env (env.deflate d) = .ok d) : shzZlibRead env fuel' p z = some (.ok d, z) := by
  obtain ⟨parts, hfuel, hpages, hchain, hflat⟩ := h.chain
  -- nothing but no data is read from no compressed bytes
  have hparts : parts ≠ [] := by
    rintro rfl
    rw [← hflat, List.flatten_nil, shzdec, if_pos rfl, Except.ok.injEq] at hdec
    exact hne hdec.symm
  have hseq : z.fld p 56 4 < z.bseq := by
    match parts, hparts, hchain with
    | _ :: _, _, ⟨_, hpart, _⟩ => exact hpart.page.lt
  have hfits := hchain.fits (Nat.le_trans hpages hinv.le)
  have hout : Mem.Fits (([] : Bytes).length + d.length) := by
    rw [List.length_nil, Nat.zero_add]
    unfold Mem.Fits shbufBlocks
    omega
  unfold shzZlibRead
  rw [bind_ok (hinv.page_some h.page.lt)]
  simp only
  rw [bind_ok (read_run _ _), if_neg (not_not.mpr h.page.type), bind_ok (read_run _ _),
    bind_ok (hinv.page_some hseq),
    bind_ok (hchain.read hinv hparts (Nat.lt_of_lt_of_le hfuel hle)
      (by rw [List.length_nil, Nat.zero_add]; exact hfits)),
    List.nil_append, hflat, hdec]
  exact catTo_run hout z

/-- A chunk is read, by at least as many passes as have written it. -/
theorem Chunk.read {b : Bool} {fuel' : Nat} (h : Chunk env fuel raw z p d) (hinv : Inv b z)
    (hle : fuel ≤ fuel') (hzip : raw = false → Inflates env) :
    readerOf env fuel' raw p z = some (.ok d, z) := by
  rcases raw with _ | _
  · have hpage : ZlibPage fuel z p (env.deflate d) := h.stored
    exact hpage.read hinv hle h.ne h.le (hzip rfl d h.ne h.le)
  · have hpage : RawPage z p d := h.stored
    exact hpage.read hinv

end Chunk

end LibShare.Shz
