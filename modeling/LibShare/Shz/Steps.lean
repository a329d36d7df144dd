import LibShare.Shz.Invariant

/-!
# libshare — SHZ archives: what the operations keep

Every operation on an archive that meets the invariant stays within `Step`, whatever its
status, one lemma for each function of the source. What it writes into a page that is there
is `Writable`.
-/

namespace LibShare.Shz

open Mem Prog

variable {b : Bool} {z : Arch} {p of v t : Nat} {bs : Bytes} {env : Env}

/-! ## Headers -/

/-- A write before the field that names a page. -/
theorem Writable.before (hp : p < z.bseq) (hof : 4 ≤ of) (hend : of + bs.length ≤ 16) :
    Writable b z p of bs where
  lt := hp
  header := hof
  fits := Nat.le_trans hend (by decide)
  base _ := Or.inl hend
  seq _ _ := Or.inl (Nat.le_trans hend (by decide))

/-- A write into a page that is not the base page, clear of the field that names a page. -/
theorem Writable.clear (hp : p < z.bseq) (h0 : p ≠ 0) (hof : 4 ≤ of)
    (hend : of + bs.length ≤ pageSize)
    (hseq : of + bs.length ≤ 56 ∨ 60 ≤ of) : Writable b z p of bs where
  lt := hp
  header := hof
  fits := hend
  base heq := absurd heq h0
  seq _ _ := by
    rcases hseq with hseq | hseq
    · exact Or.inl hseq
    · exact Or.inr (Or.inl hseq)

/-- A write into a page that is no module page. -/
theorem Writable.page (hp : IsPage z p t) (h0 : p ≠ 0) (ht : isShzModType t = false) (hof : 4 ≤ of)
    (hend : of + bs.length ≤ pageSize) : Writable b z p of bs where
  lt := hp.lt
  header := hof
  fits := hend
  base heq := absurd heq h0
  seq _ hmod := by
    rw [hp.type, ht] at hmod
    cases hmod

/-- A page is named. -/
theorem Writable.names (hp : p < z.bseq) (hv : b = true → Plain z v) :
    Writable b z p 56 (beBytes 4 v) where
  lt := hp
  header := by decide
  fits := by rw [length_beBytes]; decide
  base _ := Or.inr (by decide)
  seq hb _ := Or.inr (Or.inr ⟨rfl, v, hv hb, rfl⟩)

/-- The size of a page is set as a step. -/
theorem keeps_sizeSet (h : Inv b z) (hp : p < z.bseq) (len : Nat) :
    Keeps (Step b) (shzPageSizeSet p len) z fun _ _ => True :=
  Keeps.ite (fun _ => Keeps.fail h.refl) fun _ =>
    keeps_put h (.before hp (by decide) (by rw [length_beBytes]; decide))

/-- The checksum of a page is set as a step. -/
theorem keeps_crcSet (h : Inv b z) (hp : p < z.bseq) :
    Keeps (Step b) (shzCrcSet p) z fun _ _ => True := by
  refine Keeps.bind (keeps_put h (.before hp (by decide) (by decide))) fun _ z1 hs _ => ?_
  refine Keeps.bind_read ?_
  exact keeps_put hs.inv (.before (Nat.lt_of_lt_of_le hp hs.bseq) (by decide)
    (by show 4 + 2 ≤ 16; decide))

theorem put_run (p of : Nat) (bs : Bytes) (z : Arch) :
    put p of bs z = some (.ok (), z.put p of bs) := rfl

/-- The clock is read as a step. -/
theorem keeps_shtime (h : Inv b z) : Keeps (Step b) (shtime env) z fun _ _ => True := by
  refine Keeps.bind_read ?_
  have hstep : Step b z { z with clocks := z.clocks + 1 } :=
    h.same rfl rfl rfl rfl h.dtable h.ftable
  refine Keeps.bind (Q := fun _ _ => True) (Keeps.modify hstep trivial) fun _ z1 hs _ => ?_
  exact Keeps.pure hs.inv.refl trivial

/-- A page is looked up, and there are two cases. -/
theorem keeps_page {β : Type} {f : Option Nat → ShzM β} {S : β → Arch → Prop}
    (h : Inv b z) (n : Nat)
    (hnone : Keeps (Step b) (f none) z S)
    (hsome : n < z.bseq → Keeps (Step b) (f (some n)) z S) :
    Keeps (Step b) (shzPage n >>= f) z S := by
  by_cases hn : n < z.bseq
  · exact Keeps.of_ok (h.page_some hn) (fun _ hs => hs) (hsome hn)
  · refine Keeps.of_ok (a := none) ?_ (fun _ hs => hs) hnone
    rw [h.page, if_neg hn]

/-- A new page, which there always is. -/
theorem keeps_bind_pageNew {β : Type} {f : Option Nat → ShzM β} {S : β → Arch → Prop} (h : Inv b z)
    (ht : t < 65536)
    (hf : ∀ z1, Step b z z1 → z1.bseq = z.bseq + 1 → IsPage z1 z.bseq t →
      Keeps (Step b) (f (some z.bseq)) z1 S) :
    Keeps (Step b) (shzPageNew t >>= f) z S := by
  refine Keeps.bind (keeps_pageNew h ht) fun r z1 hs hr => ?_
  obtain ⟨rfl, hnext, hpage⟩ := hr
  exact hf z1 hs hnext hpage

/-! ## Table trees -/

/-- A slot of a map page is set as a step, if it refers to a plain page. -/
theorem keeps_mapSet {hnum ref : Nat} (h : Inv b z) (hp : p < z.bseq) (h0 : p ≠ 0)
    (href : Plain z ref) :
    Keeps (Step b) (shzMapSet p hnum ref) z fun _ _ => True := by
  refine Keeps.ite (fun _ => Keeps.fail h.refl) fun hslot => Keeps.bind_read ?_
  refine Keeps.ite (fun _ => ?_) fun _ => ?_
  · exact Keeps.ite (fun _ => Keeps.pure h.refl trivial) fun _ => Keeps.fail h.refl
  · unfold hashMask at hslot
    by_cases hten : segOf hnum = 56
    · rw [hten]
      exact keeps_put h (.names hp fun _ => href)
    · refine keeps_put h (.clear hp h0 ?_ ?_ ?_)
      · unfold segOf
        omega
      · rw [length_beBytes]
        unfold segOf pageSize
        omega
      · -- the slots are four bytes each
        rw [length_beBytes]
        unfold segOf at *
        omega

/-- The children of a proper tree are proper. -/
theorem Tree.Proper.child {tree : Tree} (h : tree.Proper) (even : Bool) :
    (tree.child even).Proper := by
  rcases tree with _ | ⟨seq, left, right⟩
  · exact trivial
  · rcases even with _ | _
    · exact h.2.2
    · exact h.2.1

/-- A proper tree with a proper child is proper. -/
theorem Tree.Proper.setChild {tree child : Tree} (h : tree.Proper) (hc : child.Proper)
    (even : Bool) :
    (Tree.setChild even child tree).Proper := by
  rcases tree with _ | ⟨seq, left, right⟩
  · exact trivial
  · rcases even with _ | _
    · exact ⟨h.1, h.2.1, hc⟩
    · exact ⟨h.1, hc, h.2.2⟩

theorem Tree.proper_leaf {seq : Nat} (h : seq ≠ 0) : (Tree.node seq .nil .nil).Proper :=
  ⟨h, trivial, trivial⟩

/-- The references of a branch lie behind its header. -/
theorem childOf_le (even : Bool) : 8 ≤ childOf even ∧ childOf even ≤ 12 := by
  rcases even with _ | _ <;> decide

/-- A child is added as a step, and the child is proper. -/
theorem keeps_addChild {even : Bool} {node : Tree} (h : Inv b z) (hnode : node.Proper)
    (hp : p < z.bseq) :
    Keeps (Step b) (addChild even node p) z fun child _ => child.Proper := by
  refine Keeps.ite (fun _ => Keeps.bind_read ?_) fun _ => Keeps.pure h.refl (hnode.child even)
  refine Keeps.ite (fun _ => Keeps.bind_read ?_) fun href =>
    Keeps.pure h.refl (Tree.proper_leaf href)
  refine keeps_bind_pageNew h (by decide) fun z1 hs _ hpage => Keeps.bind_read ?_
  have hof := childOf_le even
  refine Keeps.ite (fun _ => Keeps.undef) fun _ => ?_
  have hp1 : p < z1.bseq := Nat.lt_of_lt_of_le hp hs.bseq
  refine Keeps.bind (keeps_put hs.inv (.before hp1 (by omega) (by rw [length_beBytes]; omega)))
    fun _ z2 hs2 _ => ?_
  refine Keeps.bind (keeps_crcSet hs2.inv (Nat.lt_of_lt_of_le hp1 hs2.bseq)) fun _ z3 hs3 _ => ?_
  exact Keeps.pure hs3.inv.refl (Tree.proper_leaf (Nat.ne_of_gt h.pos))

/-- A reference is added to a tree as a step, by induction on the passes. -/
theorem keeps_treeAdd {even : Bool} {hnum ref : Nat} : ∀ {fuel : Nat} {z : Arch} {tree : Tree},
    Inv b z → tree.Proper → Plain z ref →
      Keeps (Step b) (shzTreeAdd even hnum ref fuel tree) z fun r _ => r.1.Proper := by
  intro fuel
  induction fuel with
  | zero =>
    intro z tree h _ _
    exact Keeps.undef
  | succ fuel ih =>
    intro z tree h htree href
    rcases tree with _ | ⟨seq, left, right⟩
    · exact Keeps.pure h.refl htree
    · refine keeps_page h seq (Keeps.pure h.refl htree) fun hseq => ?_
      refine Keeps.bind_attempt (keeps_mapSet h hseq htree.1 href) fun r z1 hs _ => ?_
      rcases r with err | _
      · refine Keeps.bind_attempt (keeps_addChild hs.inv htree (Nat.lt_of_lt_of_le hseq hs.bseq))
          fun r z2 hs2 hchild => ?_
        rcases r with err | child
        · exact Keeps.pure hs2.inv.refl htree
        · refine Keeps.bind (ih hs2.inv (hchild child rfl) ((href.step hs).step hs2))
            fun added z3 hs3 hadded => ?_
          exact Keeps.pure hs3.inv.refl (htree.setChild hadded even)
      · exact Keeps.pure hs.inv.refl htree

/-- A module page is looked up. -/
theorem keeps_modId {bnum : Nat} (h : Inv b z) :
    Keeps (Step b) (shzModId bnum) z fun _ z' =>
      z' = z ∧ bnum < z.bseq ∧ isShzModType (shzPageType z bnum) = true := by
  refine keeps_page h bnum (Keeps.fail h.refl) fun hlt => Keeps.bind_read ?_
  exact Keeps.ite (fun hmod => Keeps.read h.refl ⟨rfl, hlt, hmod⟩) fun _ => Keeps.fail h.refl

/-- A child is looked up as a step, and is proper. -/
theorem keeps_getChild {even moved : Bool} {node : Tree} (h : Inv b z) (hnode : node.Proper) :
    Keeps (Step b) (getChild even node p moved) z fun child _ => child.Proper := by
  refine Keeps.ite (fun _ => ?_) fun _ => Keeps.pure h.refl (hnode.child even)
  refine Keeps.ite (fun _ => Keeps.undef) fun _ => Keeps.bind_read (Keeps.pure h.refl ?_)
  split
  · exact trivial
  · next href => exact Tree.proper_leaf href

/-- What is found in a table is a module page. -/
theorem keeps_treeGet {even : Bool} {hnum : Nat} {id : Bytes} :
    ∀ {fuel : Nat} {z : Arch} {tree : Tree}, Inv b z → tree.Proper →
      Keeps (Step b) (shzTreeGet even hnum id fuel tree) z fun r z' =>
        r.1.Proper ∧ ∀ bnum, r.2 = .ok bnum →
          bnum < z'.bseq ∧ isShzModType (shzPageType z' bnum) = true := by
  intro fuel
  induction fuel with
  | zero =>
    intro z tree _ _
    exact Keeps.undef
  | succ fuel ih =>
    intro z tree h htree
    rcases tree with _ | ⟨seq, left, right⟩
    · exact Keeps.pure h.refl ⟨htree, (fun _ hr => nomatch hr)⟩
    · refine keeps_page h seq (Keeps.pure h.refl ⟨htree, (fun _ hr => nomatch hr)⟩) fun hseq => ?_
      have hget : Keeps (Step b) (shzMapGet seq hnum) z fun _ _ => True := by
        refine Keeps.ite (fun _ => Keeps.fail h.refl) fun _ => Keeps.bind_read ?_
        exact Keeps.ite (fun _ => Keeps.fail h.refl) fun _ => Keeps.pure h.refl trivial
      refine Keeps.bind_attempt hget fun r z1 hs1 _ => ?_
      rcases r with err | refBnum
      · exact Keeps.pure hs1.inv.refl ⟨htree, (fun _ hr => nomatch hr)⟩
      · refine Keeps.bind_read (Keeps.bind_attempt (keeps_modId hs1.inv) fun r z2 hs2 hmod => ?_)
        rcases r with err | refId
        · exact Keeps.pure hs2.inv.refl ⟨htree, (fun _ hr => nomatch hr)⟩
        · obtain ⟨rfl, hlt, hmod⟩ := hmod refId rfl
          refine Keeps.ite (fun _ => Keeps.pure hs2.inv.refl ⟨htree, ?_⟩) fun _ =>
            Keeps.bind_read ?_
          · intro bnum hr
            cases hr
            exact ⟨hlt, hmod⟩
          · refine Keeps.bind (keeps_getChild hs2.inv htree) fun child z3 hs3 hchild => ?_
            refine Keeps.bind (ih hs3.inv hchild) fun found z4 hs4 hfound => ?_
            exact Keeps.pure hs4.inv.refl ⟨htree.setChild hfound.1 even, hfound.2⟩

/-- The part of the file table that is in memory. -/
theorem Inv.setFtable (h : Inv b z) {tree : Tree} (htree : tree.Proper) :
    Step b z { z with ftable := tree } :=
  h.same rfl rfl rfl rfl h.dtable htree

/-- A lookup in the file table is a step, and leads to a module page. -/
theorem keeps_ftableGet {fuel : Nat} {name : Bytes} (h : Inv b z) :
    Keeps (Step b) (shzFtableGet env fuel name) z fun bnum z' =>
      bnum < z'.bseq ∧ isShzModType (shzPageType z' bnum) = true := by
  refine Keeps.bind_read (Keeps.ite (fun _ => Keeps.fail h.refl) fun _ => ?_)
  refine Keeps.bind (keeps_treeGet h h.ftable) fun found z1 hs hfound => ?_
  have hset := hs.inv.setFtable hfound.1
  refine Keeps.bind (Q := fun _ z2 => z2 = { z1 with ftable := found.1 }) (Keeps.modify hset rfl)
    fun _ z2 hs2 hz2 => ?_
  subst hz2
  rcases hr : found.2 with err | bnum
  · exact Keeps.fail hs2.inv.refl
  · exact Keeps.pure hs2.inv.refl (hfound.2 bnum hr)

/-- An entry of the file table is set as a step, if it refers to a plain page. -/
theorem keeps_ftableSet {fuel pnum : Nat} {name : Bytes} (h : Inv b z) (hp : Plain z pnum) :
    Keeps (Step b) (shzFtableSet env fuel name pnum) z fun _ _ => True := by
  refine Keeps.bind_read (Keeps.ite (fun _ => Keeps.fail h.refl) fun _ => ?_)
  refine Keeps.bind (keeps_treeAdd h h.ftable hp) fun added z1 hs hadded => ?_
  refine Keeps.bind (Q := fun _ _ => True) (Keeps.modify (hs.inv.setFtable hadded) trivial)
    fun _ z2 hs2 _ => ?_
  rcases added.2 with err | _
  · exact Keeps.fail hs2.inv.refl
  · exact Keeps.pure hs2.inv.refl trivial

/-! ## Data pages -/

/-- A raw page is written as a step. -/
theorem keeps_rawWrite {data : Bytes} (h : Inv b z) :
    Keeps (Step b) (shzRawWrite data) z fun _ _ => True := by
  refine keeps_bind_pageNew h (by decide) fun z1 hs _ hpage => ?_
  have h0 : z.bseq ≠ 0 := Nat.ne_of_gt h.pos
  have hlen : sizeofData + (data.take (min (pageSize - sizeofData) data.length)).length ≤
      pageSize := by
    rw [List.length_take]
    unfold sizeofData pageSize
    omega
  refine Keeps.bind (keeps_put hs.inv (.page hpage h0 (by decide) (by decide) hlen))
    fun _ z2 hs2 _ => ?_
  have hpage2 := hpage.step hs2
  refine Keeps.bind (keeps_sizeSet hs2.inv hpage2.lt _) fun _ z3 hs3 _ => ?_
  refine Keeps.bind (keeps_crcSet hs3.inv (hpage2.step hs3).lt) fun _ z4 hs4 _ => ?_
  exact Keeps.pure hs4.inv.refl trivial

/-- The last page of a chain of zlib data pages names the next one. -/
theorem keeps_linkZlib {last : Nat} (h : Inv b z) (hlast : last < z.bseq) (hp : Plain z p) :
    Keeps (Step b) (linkPage 56 last p) z fun _ _ => True := by
  refine Keeps.ite (fun _ => Keeps.pure h.refl trivial) fun _ => ?_
  refine keeps_page h last (Keeps.pure h.refl trivial) fun _ => ?_
  refine Keeps.bind (keeps_put h (.names hlast fun _ => hp)) fun _ z1 hs _ => ?_
  exact keeps_crcSet hs.inv (Nat.lt_of_lt_of_le hlast hs.bseq)

/-- The parts of a compressed chunk are written as a step, and the first of them is a plain
page. -/
theorem keeps_zlibPages : ∀ {fuel : Nat} {z : Arch} {zData : Bytes} {first last : Nat},
    Inv b z → (b = true → Plain z first) → last < z.bseq →
      Keeps (Step b) (zlibPages zData first last fuel) z fun first' z' => b = true →
        Plain z' first' := by
  intro fuel
  induction fuel with
  | zero =>
    intro z zData first last _ _ _
    exact Keeps.undef
  | succ fuel ih =>
    intro z zData first last h hfirst hlast
    refine Keeps.ite (fun _ => Keeps.pure h.refl hfirst) fun _ => ?_
    refine keeps_bind_pageNew h (by decide) fun z1 hs1 _ hpage1 => ?_
    have h0 : z.bseq ≠ 0 := Nat.ne_of_gt h.pos
    refine Keeps.bind (keeps_linkZlib hs1.inv (Nat.lt_of_lt_of_le hlast hs1.bseq)
      (hpage1.plain (by decide))) fun _ z2 hs2 _ => ?_
    have hpage2 := hpage1.step hs2
    refine Keeps.bind (keeps_sizeSet hs2.inv hpage2.lt _) fun _ z3 hs3 _ => ?_
    have hpage3 := hpage2.step hs3
    have hlen : sizeofMod + (zData.take (min (pageSize - sizeofMod) zData.length)).length ≤
        pageSize := by
      rw [List.length_take]
      unfold sizeofMod pageSize
      omega
    refine Keeps.bind (keeps_put hs3.inv (.page hpage3 h0 (by decide) (by decide) hlen))
      fun _ z4 hs4 _ => ?_
    have hpage4 := hpage3.step hs4
    refine Keeps.bind (keeps_crcSet hs4.inv hpage4.lt) fun _ z5 hs5 _ => ?_
    have hpage5 := hpage4.step hs5
    refine ih hs5.inv ?_ hpage5.lt
    intro hb
    split
    · exact hpage5.plain (by decide)
    · exact (((((hfirst hb).step hs1).step hs2).step hs3).step hs4).step hs5

/-- The page of a compressed chunk is made as a step, if it refers to a plain page. -/
theorem keeps_zlibNew {rawBnum rawLen : Nat} {id : ShKey} (h : Inv b z)
    (hraw : b = true → Plain z rawBnum) :
    Keeps (Step b) (shzZlibNew rawBnum rawLen id) z fun _ _ => True := by
  refine keeps_bind_pageNew h (by decide) fun z1 hs1 _ hpage1 => ?_
  have h0 : z.bseq ≠ 0 := Nat.ne_of_gt h.pos
  refine Keeps.bind (keeps_put hs1.inv (.clear hpage1.lt h0 (by decide) ?_ (Or.inl ?_)))
    fun _ z2 hs2 _ => ?_
  · rw [length_beBytes]
    decide
  · rw [length_beBytes]
    decide
  have hpage2 := hpage1.step hs2
  refine Keeps.bind (keeps_put hs2.inv (.names hpage2.lt fun hb => ((hraw hb).step hs1).step hs2))
    fun _ z3 hs3 _ => ?_
  have hpage3 := hpage2.step hs3
  refine Keeps.bind (keeps_put hs3.inv (.clear hpage3.lt h0 (by decide) ?_ (Or.inl ?_)))
    fun _ z4 hs4 _ => ?_
  · rw [length_toBytes]
    decide
  · rw [length_toBytes]
    decide
  have hpage4 := hpage3.step hs4
  refine Keeps.bind (keeps_sizeSet hs4.inv hpage4.lt _) fun _ z5 hs5 _ => ?_
  refine Keeps.bind (keeps_crcSet hs5.inv (hpage4.step hs5).lt) fun _ z6 hs6 _ => ?_
  exact Keeps.pure hs6.inv.refl trivial

/-- A compressed chunk is written as a step. -/
theorem keeps_zlibWrite {fuel : Nat} {data : Bytes} (h : Inv b z) :
    Keeps (Step b) (shzZlibWrite env fuel data) z fun _ _ => True := by
  refine Keeps.bind (keeps_zlibPages h (fun hb => (h.orderly hb).base) h.pos)
    fun first z1 hs1 hfirst => ?_
  refine Keeps.bind (keeps_zlibNew hs1.inv hfirst) fun p z2 hs2 _ => ?_
  -- the archived size is in the base page
  have hpos : 0 < z2.bseq := hs2.inv.pos
  have hw : ∀ bs : Bytes, bs.length = 8 → Writable b z2 0 24 bs := by
    intro bs hlen
    refine ⟨hpos, by decide, by rw [hlen]; decide, fun _ => Or.inr (Nat.le_refl _),
      fun _ _ => Or.inl ?_⟩
    rw [hlen]
    decide
  refine Keeps.bind (Q := fun _ _ => True)
    (Keeps.modify (hs2.inv.put (hw _ (length_beBytes _ _))) trivial) fun _ z3 hs3 _ => ?_
  exact Keeps.pure hs3.inv.refl trivial

/-! ## Index pages -/

/-- The current index page, and the last one of the chain. -/
def IndexAt (z : Arch) (seq : Nat) : Prop := seq = 0 ∨ (seq ≠ 0 ∧ IsPage z seq pageIndex)

/-- A reference is appended to an index page as a step. -/
theorem keeps_indexAppend {bnum : Nat} (h : Inv b z) (hp : IsPage z p pageIndex) (h0 : p ≠ 0) :
    Keeps (Step b) (shzIndexAppend p bnum) z fun _ _ => True := by
  refine Keeps.bind_read (Keeps.ite (fun _ => Keeps.fail h.refl) fun hfull => ?_)
  have hfree : freeSeg z p < maxIndexSize := by
    have hle : freeSeg z p ≤ maxIndexSize := by
      refine Nat.le_trans List.findIdx_le_length ?_
      rw [List.length_range]
    omega
  refine Keeps.bind (keeps_put h (.page hp h0 (by decide) ?_ ?_)) fun _ z1 hs _ => ?_
  · unfold segOf
    omega
  · rw [length_beBytes]
    unfold segOf maxIndexSize pageSize sizeofData at *
    omega
  · exact keeps_sizeSet hs.inv (hp.step hs).lt _

/-- An index page is linked to the next one as a step. -/
theorem keeps_linkIndex {last : Nat} (h : Inv b z) (hlast : last < z.bseq) :
    Keeps (Step b) (linkPage 8 last p) z fun _ _ => True := by
  refine Keeps.ite (fun _ => Keeps.pure h.refl trivial) fun _ => ?_
  refine keeps_page h last (Keeps.pure h.refl trivial) fun _ => ?_
  refine Keeps.bind (keeps_put h (.before hlast (by decide) ?_)) fun _ z1 hs _ => ?_
  · rw [length_beBytes]
    decide
  · exact keeps_crcSet hs.inv (Nat.lt_of_lt_of_le hlast hs.bseq)

/-- The index page that a write goes on with, which is made if need be, as a step. -/
theorem keeps_indexPage {seq lSeq : Nat} (h : Inv b z) (hseq : IndexAt z seq)
    (hlast : lSeq < z.bseq) :
    Keeps (Step b) (indexPage seq lSeq) z fun p z' => p ≠ 0 ∧ IsPage z' p pageIndex := by
  refine Keeps.ite (fun hne => ?_) fun _ => ?_
  · refine keeps_page h seq (Keeps.fail h.refl) fun _ => Keeps.pure h.refl ⟨hne, ?_⟩
    exact (hseq.resolve_left hne).2
  · refine keeps_bind_pageNew h (by decide) fun z1 hs1 _ hpage => ?_
    refine Keeps.bind (keeps_linkIndex hs1.inv (Nat.lt_of_lt_of_le hlast hs1.bseq))
      fun _ z2 hs2 _ => ?_
    exact Keeps.pure hs2.inv.refl ⟨Nat.ne_of_gt h.pos, hpage.step hs2⟩

/-- The loop over the chunks is a step, whatever writes a chunk as one. -/
theorem keeps_indexAddLoop {write : Bytes → ShzM (Nat × Nat)}
    (hwrite : ∀ {z : Arch} {data : Bytes}, Inv b z →
      Keeps (Step b) (write data) z fun _ _ => True) :
    ∀ {fuel : Nat} {z : Arch} {data : Bytes} {seq lSeq retIdx : Nat},
      Inv b z → IndexAt z seq → lSeq < z.bseq → IndexAt z retIdx →
        Keeps (Step b) (indexAddLoop write fuel data seq lSeq retIdx) z fun idx z' =>
          IndexAt z' idx := by
  have hstep : ∀ {z z' : Arch} {seq : Nat}, IndexAt z seq → Step b z z' → IndexAt z' seq := by
    intro z z' seq hseq hs
    exact hseq.imp id fun hpage => ⟨hpage.1, hpage.2.step hs⟩
  intro fuel
  induction fuel with
  | zero =>
    intro z data seq lSeq retIdx _ _ _ _
    exact Keeps.undef
  | succ fuel ih =>
    intro z data seq lSeq retIdx h hseq hlast hret
    refine Keeps.ite (fun _ => Keeps.pure h.refl hret) fun _ => ?_
    refine Keeps.bind (hwrite h) fun w z1 hs1 _ => ?_
    have hlast1 := Nat.lt_of_lt_of_le hlast hs1.bseq
    refine Keeps.bind (keeps_indexPage hs1.inv (hstep hseq hs1) hlast1) fun p z2 hs2 hp => ?_
    have hlast2 := Nat.lt_of_lt_of_le hlast1 hs2.bseq
    have hret2 : IndexAt z2 (if seq = 0 ∧ retIdx = 0 then p else retIdx) := by
      split
      · exact Or.inr hp
      · exact hstep (hstep hret hs1) hs2
    refine Keeps.bind_attempt (keeps_indexAppend hs2.inv hp.2 hp.1) fun r z3 hs3 _ => ?_
    have hp3 := hp.2.step hs3
    rcases r with err | _
    · by_cases hfull : err = .nobufs
      · subst hfull
        refine Keeps.bind (keeps_crcSet hs3.inv hp3.lt) fun _ z4 hs4 _ => ?_
        exact ih hs4.inv (Or.inl rfl) (hp3.step hs4).lt (hstep (hstep hret2 hs3) hs4)
      · split
        · next heq => cases heq
        · next heq =>
          cases heq
          exact absurd rfl hfull
        · exact Keeps.fail hs3.inv.refl
    · exact ih hs3.inv (Or.inr ⟨hp.1, hp3⟩) (Nat.lt_of_lt_of_le hlast2 hs3.bseq) (hstep hret2 hs3)

/-! ## Members -/

/-- Either writer of a chunk is a step. -/
theorem keeps_writerOf {fuel : Nat} {raw : Bool} {data : Bytes} (h : Inv b z) :
    Keeps (Step b) (writerOf env fuel raw data) z fun _ _ => True := by
  rcases raw with _ | _
  · exact keeps_zlibWrite h
  · exact keeps_rawWrite h

/-- The page that an index begins with is a plain one. -/
theorem IndexAt.plain {seq : Nat} (h : IndexAt z seq) (ho : Orderly z) : Plain z seq := by
  rcases h with rfl | ⟨-, hpage⟩
  · exact ho.base
  · exact hpage.plain (by decide)

/-- The index of a content is named in a page, whichever page that is. -/
theorem keeps_modWrite {fuel modBnum : Nat} {buff : Bytes} (h : Inv b z) :
    Keeps (Step b) (shzModWrite env fuel modBnum buff) z fun _ _ => True := by
  refine Keeps.bind_read ?_
  refine Keeps.bind (keeps_indexAddLoop (fun hz =>
    keeps_writerOf hz) h (Or.inl rfl) h.pos (Or.inl rfl))
    fun bnum z1 hs1 hindex => ?_
  refine keeps_page hs1.inv modBnum (Keeps.fail hs1.inv.refl) fun hlt => ?_
  refine Keeps.bind (keeps_put hs1.inv (.names hlt fun hb => hindex.plain (hs1.inv.orderly hb)))
    fun _ z2 hs2 _ => ?_
  have hlt2 := Nat.lt_of_lt_of_le hlt hs2.bseq
  -- the fields after the size of the archive, and clear of the page that is named
  have hw : ∀ {z : Arch} {of : Nat} {bs : Bytes}, modBnum < z.bseq → 24 ≤ of → of + bs.length ≤ 80 →
      (of + bs.length ≤ 56 ∨ 60 ≤ of) → Writable b z modBnum of bs := by
    intro z of bs hlt hof hend hseq
    refine ⟨hlt, by omega, Nat.le_trans hend (by decide), fun _ => Or.inr hof, fun _ _ => ?_⟩
    rcases hseq with hseq | hseq
    · exact Or.inl hseq
    · exact Or.inr (Or.inl hseq)
  refine Keeps.bind (keeps_put hs2.inv (hw hlt2 (by decide) (by rw [length_beBytes]; decide)
    (Or.inl (by rw [length_beBytes]; decide)))) fun _ z3 hs3 _ => ?_
  have hlt3 := Nat.lt_of_lt_of_le hlt2 hs3.bseq
  refine Keeps.bind (keeps_put hs3.inv (hw hlt3 (by decide) (by show 44 + 4 ≤ 80; decide)
    (Or.inl (by show 44 + 4 ≤ 56; decide)))) fun _ z4 hs4 _ => ?_
  have hlt4 := Nat.lt_of_lt_of_le hlt3 hs4.bseq
  refine Keeps.bind (keeps_shtime hs4.inv) fun now z5 hs5 _ => ?_
  have hlt5 := Nat.lt_of_lt_of_le hlt4 hs5.bseq
  refine Keeps.bind (keeps_put hs5.inv (hw hlt5 (by decide) (by show 72 + 8 ≤ 80; decide)
    (Or.inr (by decide)))) fun _ z6 hs6 _ => ?_
  have hlt6 := Nat.lt_of_lt_of_le hlt5 hs6.bseq
  refine Keeps.bind (keeps_put hs6.inv (hw hlt6 (by decide) (by show 64 + 8 ≤ 80; decide)
    (Or.inr (by decide)))) fun _ z7 hs7 _ => ?_
  have hlt7 := Nat.lt_of_lt_of_le hlt6 hs7.bseq
  refine Keeps.bind (keeps_sizeSet hs7.inv hlt7 _) fun _ z8 hs8 _ => ?_
  exact keeps_crcSet hs8.inv (Nat.lt_of_lt_of_le hlt7 hs8.bseq)

/-- A new entity is made as a step. -/
theorem keeps_entityNew {fuel : Nat} {name : Bytes} (h : Inv b z) :
    Keeps (Step b) (entityNew env fuel name pageFile) z fun _ _ => True := by
  refine keeps_bind_pageNew h (by decide) fun z1 hs1 _ hpage1 => ?_
  have h0 : z.bseq ≠ 0 := Nat.ne_of_gt h.pos
  refine Keeps.bind (keeps_rawWrite hs1.inv) fun w z2 hs2 _ => ?_
  have hpage2 := hpage1.step hs2
  refine Keeps.bind (keeps_ftableSet hs2.inv (hpage2.plain (by decide))) fun _ z3 hs3 _ => ?_
  have hpage3 := hpage2.step hs3
  refine keeps_page hs3.inv z.bseq Keeps.undef fun _ => ?_
  refine Keeps.bind (keeps_put hs3.inv (.clear hpage3.lt h0 (by decide) ?_ (Or.inr (by decide))))
    fun _ z4 hs4 _ => ?_
  · rw [length_beBytes]
    decide
  have hpage4 := hpage3.step hs4
  refine Keeps.bind (keeps_put hs4.inv (.clear hpage4.lt h0 (by decide) ?_ (Or.inl ?_)))
    fun _ z5 hs5 _ => ?_
  · rw [length_toBytes]
    decide
  · rw [length_toBytes]
    decide
  refine Keeps.bind (keeps_crcSet hs5.inv (hpage4.step hs5).lt) fun _ z6 hs6 _ => ?_
  exact Keeps.pure hs6.inv.refl trivial

/-- An entity is looked up, or made, as a step. -/
theorem keeps_entityGet {fuel bidx : Nat} {name : Bytes} (h : Inv b z) :
    Keeps (Step b) (shzEntityGet env fuel bidx name pageFile) z fun _ _ => True := by
  refine Keeps.bind_attempt (keeps_ftableGet h) fun r z1 hs1 _ => ?_
  rcases r with err | found
  · exact keeps_entityNew hs1.inv
  · exact Keeps.pure hs1.inv.refl trivial

/-- A file is written as a step. -/
theorem keeps_fileWrite {fuel bidx : Nat} {name buff : Bytes} (h : Inv b z) :
    Keeps (Step b) (shzFileWrite env fuel bidx name buff) z fun _ _ => True :=
  Keeps.bind (keeps_entityGet h) fun _ _ hs _ => keeps_modWrite hs.inv

end LibShare.Shz
