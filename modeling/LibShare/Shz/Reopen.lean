import LibShare.Shz.Open

/-!
# libshare — SHZ archives: opening again

`shz_arch_init` leaves `bseq` at zero when it opens an archive that is there: `shz_scan` returns
at once, since no page has been counted yet. From there on `bseq` goes up to each page that is
looked up, and may stay below the size of the archive (`Loose`). When it has come up to the size
the archive meets the invariant again (`Loose.inv`).
-/

namespace LibShare.Shz

open Mem Prog

variable {z z' z'' : Arch} {env : Env} {n p of : Nat} {bs : Bytes}

/-! ## Archives that are not counted yet -/

/-- The pages that a table in memory has named have been reached, or are none of the archive's. -/
def Tree.Quiet (z : Arch) (tree : Tree) : Prop := ∀ seq ∈ tree.seqs, seq < z.bseq ∨ outOfRange z seq

/-- What holds of an archive that has been opened, where `bseq` may be too low. -/
structure Loose (z : Arch) : Prop where
  pos : 1 ≤ z.bseq
  le : z.bseq ≤ 2 ^ 21
  room : z.bseq * pageSize ≤ z.buff.dataMax
  reach : z.bseq ≤ maxSeq z
  live : z.live = maxSeq z
  handed : ∀ h ∈ z.handed, h.2 ≤ h.1
  dtable : z.dtable.Proper ∧ z.dtable.Quiet z
  ftable : z.ftable.Proper ∧ z.ftable.Quiet z

/-- What an operation that adds no page may do. -/
structure Reach (z z' : Arch) : Prop where
  loose : Loose z'
  bseq : z.bseq ≤ z'.bseq
  size : shzSize z' = shzSize z

/-- A loose archive reaches itself. -/
theorem Loose.refl (h : Loose z) : Reach z z := ⟨h, Nat.le_refl _, rfl⟩

/-- What is reached is reached from the first. -/
theorem Reach.trans (h : Reach z z') (h' : Reach z' z'') : Reach z z'' :=
  ⟨h'.loose, Nat.le_trans h.bseq h'.bseq, h'.size.trans h.size⟩

instance : IsTrans Arch Reach := ⟨fun _ _ _ => Reach.trans⟩

/-- An archive of few pages does not record a negative size. -/
theorem size_of_maxSeq (hpos : 1 ≤ n) (hle : n ≤ 2 ^ 21) (h : maxSeq z = n) :
    shzSize z / pageSize = n := by
  by_cases hsize : shzSize z < 2 ^ 63
  · rw [← h, maxSeq_eq hsize]
  · exfalso
    unfold maxSeq pageSize at h
    rw [if_neg hsize] at h
    omega

/-- Every page has been counted. -/
theorem Loose.inv (h : Loose z) (hcount : maxSeq z ≤ z.bseq) : Inv false z where
  pos := h.pos
  le := h.le
  room := h.room
  size := size_of_maxSeq h.pos h.le (Nat.le_antisymm hcount h.reach)
  live := h.live.trans (Nat.le_antisymm hcount h.reach)
  handed := h.handed
  dtable := h.dtable.1
  ftable := h.ftable.1
  orderly hb := by cases hb

/-- In a sound archive every tree is quiet. -/
theorem Inv.quiet {b : Bool} (h : Inv b z) (tree : Tree) : tree.Quiet z := by
  intro seq _
  rcases Nat.lt_or_ge seq z.bseq with hlt | hge
  · exact Or.inl hlt
  · exact Or.inr (h.outOfRange hge)

/-- A sound archive is loose. -/
theorem Inv.loose {b : Bool} (h : Inv b z) : Loose z where
  pos := h.pos
  le := h.le
  room := h.room
  reach := Nat.le_of_eq h.maxSeq_eq.symm
  live := h.live.trans h.maxSeq_eq.symm
  handed := h.handed
  dtable := ⟨h.dtable, h.quiet _⟩
  ftable := ⟨h.ftable, h.quiet _⟩

/-- A quiet tree stays quiet. -/
theorem Tree.Quiet.reach {tree : Tree} (h : tree.Quiet z) (hs : Reach z z') : tree.Quiet z' := by
  intro seq hseq
  rcases h seq hseq with hlt | hout
  · exact Or.inl (Nat.lt_of_lt_of_le hlt hs.bseq)
  · refine Or.inr ?_
    unfold outOfRange maxSeq at hout ⊢
    rw [hs.size]
    exact hout

/-! ## Pages that are looked up -/

/-- There is no allocation for a page beyond the buffer: what is available has wrapped around. -/
theorem allocDepth_wrap {depth len : Nat} (hlt : z.buff.dataMax < z.bseq * pageSize)
    (hle : z.bseq ≤ 2 ^ 21)
    (hlen : len < 2 ^ 32) (hpos : 0 < len) : allocDepth depth z len = some z := by
  have hmod : z.bseq * pageSize % 2 ^ 32 = z.bseq * pageSize := by
    unfold pageSize
    omega
  have havail : 2 ^ 64 - 2 ^ 31 ≤ shzAvail z := by
    unfold shzAvail
    rw [hmod, Nat.mod_eq_of_lt (by omega)]
    unfold pageSize at *
    omega
  have hround : allocLen len < 2 ^ 33 := by
    unfold allocLen allocSize
    omega
  have hwith : ∀ reset : Arch → Option Arch, allocWith reset z len = some z := by
    intro reset
    unfold allocWith
    exact if_pos (Nat.lt_of_lt_of_le hround (Nat.le_trans (by decide) havail))
  rcases depth with _ | depth
  · exact hwith some
  · exact hwith _

/-- A page of the archive that has not been reached yet. -/
theorem page_reach {r : Except Sherr (Option Nat)} (hpos : 0 < z.buff.dataMax) (hn : z.bseq ≤ n)
    (hin : ¬ outOfRange z n) (hquiet : ∀ seq ∈ tableSeqs z, n + 1 ≤ seq → outOfRange z seq)
    (hrun : shzPage n z = some (r, z')) :
    r = .ok (some n) ∧ n < 2 ^ 21 ∧ (n + 1) * pageSize ≤ z.buff.dataMax ∧
      ∃ dataOf max, z.buff.dataMax ≤ max ∧ z' =
        Arch.regrow { z with bseq := n + 1 } dataOf max := by
  unfold shzPage at hrun
  rw [Prog.bind_ok (Prog.read_run _ _), id, if_pos hn, if_neg hin,
    Prog.bind_ok (Prog.modify_run _ _)] at hrun
  rcases halloc : shzAlloc { z with bseq := n + 1 } (lenUpTo (n + 1)) with _ | z1
  · rw [Prog.bind_none (by rw [alloc, halloc]; rfl)] at hrun
    cases hrun
  rw [Prog.bind_ok (alloc_run halloc)] at hrun
  unfold pageAt at hrun
  rw [Prog.bind_ok (Prog.read_run _ _)] at hrun
  split at hrun
  · cases hrun
  · next hat =>
    rw [not_or, Nat.not_le, Nat.not_lt] at hat
    cases hrun
    obtain ⟨hsmall, hroom⟩ := hat
    have hlt : n < 2 ^ 21 := by
      unfold pageSize at hsmall
      omega
    have hlen : lenUpTo (n + 1) = (n + 2) * pageSize := by
      unfold lenUpTo pageSize
      omega
    have hlen0 : 0 < lenUpTo (n + 1) := by
      rw [hlen]
      unfold pageSize
      omega
    have hlen32 : lenUpTo (n + 1) < 2 ^ 32 := Nat.mod_lt _ (by decide)
    rcases Nat.lt_or_ge z.buff.dataMax ((n + 1) * pageSize) with hbeyond | hwithin
    · -- the buffer has not grown, and the page is beyond it
      have hsame : shzAlloc { z with bseq := n + 1 } (lenUpTo (n + 1)) =
          some { z with bseq := n + 1 } :=
        allocDepth_wrap hbeyond hlt hlen32 hlen0
      obtain rfl := Option.some.inj (halloc.symm.trans hsame)
      have hroom' : (n + 1) * pageSize ≤ z.buff.dataMax := hroom
      omega
    · have hroomy : Roomy { z with bseq := n + 1 } := ⟨hlt, hwithin, hpos, hquiet⟩
      obtain ⟨dataOf, max, hmax, -, hz'⟩ := hroomy.alloc_regrow hlen0 hlen32 halloc
      exact ⟨rfl, hlt, hwithin, dataOf, max, hmax, hz'⟩

/-- A page that is not refused is one of those that the archive is taken for. -/
theorem reach_of_range (hn : n < 2 ^ 31) (hin : ¬ outOfRange z n) : n + 1 ≤ maxSeq z := by
  unfold outOfRange asSize at hin
  rw [if_pos hn] at hin
  exact Nat.lt_of_not_le hin

/-- More pages have been reached. -/
theorem Loose.regrow (h : Loose z) {dataOf max : Nat} (hn : z.bseq ≤ n) (hlt : n < 2 ^ 21)
    (hin : ¬ outOfRange z n) (hroom : (n + 1) * pageSize ≤ z.buff.dataMax)
    (hmax : z.buff.dataMax ≤ max) :
    Reach z (Arch.regrow { z with bseq := n + 1 } dataOf max) := by
  have hreach : n + 1 ≤ maxSeq z := reach_of_range (Nat.lt_of_lt_of_le hlt (by decide)) hin
  have hquiet : ∀ {tree : Tree}, tree.Quiet z →
      tree.Quiet (Arch.regrow { z with bseq := n + 1 } dataOf max) := by
    intro tree htree seq hseq
    rcases htree seq hseq with hlt' | hout
    · exact Or.inl (Nat.lt_succ_of_lt (Nat.lt_of_lt_of_le hlt' hn))
    · exact Or.inr hout
  exact ⟨⟨Nat.succ_le_succ (Nat.zero_le _), hlt, Nat.le_trans hroom hmax, hreach, h.live, h.handed,
    ⟨h.dtable.1, hquiet h.dtable.2⟩, ⟨h.ftable.1, hquiet h.ftable.2⟩⟩, Nat.le_succ_of_le hn, rfl⟩

/-- What looking up a page does. -/
theorem Loose.page_cases {r : Except Sherr (Option Nat)} (h : Loose z)
    (hrun : shzPage n z = some (r, z')) :
    (r = .ok none ∧ z' = z ∧ outOfRange z n) ∨ (r = .ok (some n) ∧ n < z'.bseq ∧ Reach z z') := by
  rcases Nat.lt_or_ge n z.bseq with hlt | hge
  · have hnext : (n + 1) * pageSize ≤ z.bseq * pageSize := Nat.mul_le_mul_right _ hlt
    have hle := h.le
    have hat : shzPage n z = some (.ok (some n), z) := by
      unfold shzPage
      rw [Prog.bind_ok (Prog.read_run _ _), id, if_neg (Nat.not_le.mpr hlt)]
      refine pageAt_run rfl ?_ (Nat.le_trans hnext h.room)
      unfold pageSize at *
      omega
    cases hat.symm.trans hrun
    exact Or.inr ⟨rfl, hlt, h.refl⟩
  · by_cases hin : outOfRange z n
    · left
      unfold shzPage at hrun
      rw [Prog.bind_ok (Prog.read_run _ _), id, if_pos hge, if_pos hin] at hrun
      cases hrun
      exact ⟨rfl, rfl, hin⟩
    · right
      have hpos : 0 < z.buff.dataMax := Nat.lt_of_lt_of_le (Nat.mul_pos h.pos (by decide)) h.room
      have hquiet : ∀ seq ∈ tableSeqs z, n + 1 ≤ seq → outOfRange z seq := by
        intro seq hseq hnext
        have htree : seq ∈ z.dtable.seqs ∨ seq ∈ z.ftable.seqs := by
          unfold tableSeqs at hseq
          rcases List.mem_append.mp hseq with hd | hf
          · split at hd
            · exact Or.inl hd
            · cases hd
          · split at hf
            · exact Or.inr hf
            · cases hf
        rcases htree with hd | hf
        · exact (h.dtable.2 seq hd).resolve_left (by omega)
        · exact (h.ftable.2 seq hf).resolve_left (by omega)
      obtain ⟨rfl, hlt, hroom, dataOf, max, hmax, rfl⟩ := page_reach hpos hge hin hquiet hrun
      exact ⟨rfl, Nat.lt_succ_self n, h.regrow hge hlt hin hroom hmax⟩

/-- A page is looked up, and there are two cases. -/
theorem Loose.page {β : Type} {f : Option Nat → ShzM β} {S : β → Arch → Prop}
    (h : Loose z) (n : Nat)
    (hnone : outOfRange z n → Keeps Reach (f none) z S)
    (hsome : ∀ z1, Reach z z1 → n < z1.bseq → Keeps Reach (f (some n)) z1 S) :
    Keeps Reach (shzPage n >>= f) z S := by
  intro r z' hrun
  rcases Prog.bind_inv hrun with ⟨e, hpage, -⟩ | ⟨blk, z1, hpage, hrest⟩
  · rcases h.page_cases hpage with ⟨hr, -⟩ | ⟨hr, -⟩
    · cases hr
    · cases hr
  · rcases h.page_cases hpage with ⟨hr, rfl, hout⟩ | ⟨hr, hlt, hs⟩
    · cases hr
      exact hnone hout r z' hrest
    · cases hr
      obtain ⟨hs', hval⟩ := hsome z1 hs hlt r z' hrest
      exact ⟨hs.trans hs', hval⟩

/-! ## Members that are looked up -/

/-- The children of a node are quiet. -/
def Tree.Below (z : Arch) : Tree → Prop
  | .nil => True
  | .node _ left right => left.Quiet z ∧ right.Quiet z

/-- A quiet tree has quiet children. -/
theorem Tree.Quiet.below {tree : Tree} (h : tree.Quiet z) : tree.Below z := by
  rcases tree with _ | ⟨seq, left, right⟩
  · trivial
  · constructor
    · exact fun s hs => h s (List.mem_cons_of_mem _ (List.mem_append_left _ hs))
    · exact fun s hs => h s (List.mem_cons_of_mem _ (List.mem_append_right _ hs))

/-- Its children are quiet. -/
theorem Tree.Below.child {tree : Tree} (h : tree.Below z) (even : Bool) :
    (tree.child even).Quiet z := by
  rcases tree with _ | ⟨seq, left, right⟩
  · exact fun s hs => nomatch hs
  · rcases even with _ | _
    · exact h.2
    · exact h.1

/-- A node whose page has been looked for. -/
theorem Tree.quiet_node {seq : Nat} {left right : Tree} (hseq : seq < z.bseq ∨ outOfRange z seq)
    (h : (Tree.node seq left right).Below z) : (Tree.node seq left right).Quiet z := by
  intro s hs
  rcases List.mem_cons.mp hs with rfl | hs
  · exact hseq
  · rcases List.mem_append.mp hs with hl | hr
    · exact h.1 s hl
    · exact h.2 s hr

/-- A quiet tree with a quiet child is quiet. -/
theorem Tree.Quiet.setChild {tree child : Tree} (h : tree.Quiet z) (hc : child.Quiet z)
    (even : Bool) :
    (Tree.setChild even child tree).Quiet z := by
  rcases tree with _ | ⟨seq, left, right⟩
  · exact h
  · have hroot := h seq List.mem_cons_self
    have hbelow := h.below
    rcases even with _ | _
    · exact Tree.quiet_node hroot ⟨hbelow.1, hc⟩
    · exact Tree.quiet_node hroot ⟨hc, hbelow.2⟩

/-- Quiet children stay quiet. -/
theorem Tree.Below.reach {tree : Tree} (h : tree.Below z) (hs : Reach z z') : tree.Below z' := by
  rcases tree with _ | ⟨seq, left, right⟩
  · trivial
  · exact ⟨h.1.reach hs, h.2.reach hs⟩

/-- A lookup in a map page reaches a loose archive. -/
theorem loose_mapGet {hnum : Nat} (h : Loose z) :
    Keeps Reach (shzMapGet p hnum) z fun _ _ => True := by
  refine Keeps.ite (fun _ => Keeps.fail h.refl) fun _ => Keeps.bind_read ?_
  exact Keeps.ite (fun _ => Keeps.fail h.refl) fun _ => Keeps.pure h.refl trivial

/-- The id of a page is read in a loose archive. -/
theorem loose_modId {bnum : Nat} (h : Loose z) : Keeps Reach (shzModId bnum) z fun _ _ => True := by
  refine h.page bnum (fun _ => Keeps.fail h.refl) fun z1 hs _ => Keeps.bind_read ?_
  exact Keeps.ite (fun _ => Keeps.read hs.loose.refl trivial) fun _ => Keeps.fail hs.loose.refl

/-- A child is looked up in a loose archive. -/
theorem loose_getChild {even moved : Bool} {node : Tree} (h : Loose z) (hnode : node.Proper)
    (hbelow : node.Below z) :
    Keeps Reach (getChild even node p moved) z fun child z' => child.Proper ∧ child.Below z' := by
  refine Keeps.ite (fun _ => ?_) fun _ =>
    Keeps.pure h.refl ⟨hnode.child even, (hbelow.child even).below⟩
  refine Keeps.ite (fun _ => Keeps.undef) fun _ => Keeps.bind_read (Keeps.pure h.refl ?_)
  split
  · exact ⟨trivial, trivial⟩
  · next href => exact ⟨Tree.proper_leaf href, (fun s hs => nomatch hs), (fun s hs => nomatch hs)⟩

/-- A tree is searched in a loose archive, by induction on the passes. -/
theorem loose_treeGet {even : Bool} {hnum : Nat} {id : Bytes} :
    ∀ {fuel : Nat} {z : Arch} {tree : Tree}, Loose z → tree.Proper → tree.Below z →
      Keeps Reach (shzTreeGet even hnum id fuel tree) z fun r z' => r.1.Proper ∧ r.1.Quiet z' := by
  intro fuel
  induction fuel with
  | zero =>
    intro z tree _ _ _
    exact Keeps.undef
  | succ fuel ih =>
    intro z tree h htree hbelow
    rcases tree with _ | ⟨seq, left, right⟩
    · exact Keeps.pure h.refl ⟨trivial, fun s hs => nomatch hs⟩
    · refine h.page seq (fun hout => ?_) fun z1 hs1 hlt => ?_
      · exact Keeps.pure h.refl ⟨htree, Tree.quiet_node (Or.inr hout) hbelow⟩
      have hquiet1 : (Tree.node seq left right).Quiet z1 :=
        Tree.quiet_node (Or.inl hlt) (hbelow.reach hs1)
      refine Keeps.bind_attempt (loose_mapGet hs1.loose) fun r z2 hs2 _ => ?_
      have hquiet2 := hquiet1.reach hs2
      rcases r with err | refBnum
      · exact Keeps.pure hs2.loose.refl ⟨htree, hquiet2⟩
      · refine Keeps.bind_read (Keeps.bind_attempt (loose_modId hs2.loose) fun r z3 hs3 _ => ?_)
        have hquiet3 := hquiet2.reach hs3
        rcases r with err | refId
        · exact Keeps.pure hs3.loose.refl ⟨htree, hquiet3⟩
        · refine Keeps.ite (fun _ => Keeps.pure hs3.loose.refl ⟨htree, hquiet3⟩) fun _ =>
            Keeps.bind_read ?_
          refine Keeps.bind (loose_getChild hs3.loose htree hquiet3.below)
            fun child z4 hs4 hchild => ?_
          refine Keeps.bind (ih hs4.loose hchild.1 hchild.2) fun found z5 hs5 hfound => ?_
          have hquiet5 := (hquiet3.reach hs4).reach hs5
          exact Keeps.pure hs5.loose.refl ⟨htree.setChild hfound.1 even,
            hquiet5.setChild hfound.2 even⟩

/-- The file table is searched in a loose archive. -/
theorem loose_ftableGet {fuel : Nat} {name : Bytes} (h : Loose z) :
    Keeps Reach (shzFtableGet env fuel name) z fun _ _ => True := by
  refine Keeps.bind_read (Keeps.ite (fun _ => Keeps.fail h.refl) fun _ => ?_)
  refine Keeps.bind (loose_treeGet h h.ftable.1 h.ftable.2.below) fun found z1 hs hfound => ?_
  have hset : Reach z1 { z1 with ftable := found.1 } :=
    ⟨{ hs.loose with ftable := hfound }, Nat.le_refl _, rfl⟩
  refine Keeps.bind (Q := fun _ _ => True) (Keeps.modify hset trivial) fun _ z2 hs2 _ => ?_
  rcases found.2 with err | bnum
  · exact Keeps.fail hs2.loose.refl
  · exact Keeps.pure hs2.loose.refl trivial

/-! ## A module page that is written to -/

/-- A write within a page reaches a loose archive, if it leaves what the base page counts. -/
theorem Loose.put (h : Loose z) (hfits : of + bs.length ≤ pageSize)
    (hbase : p = 0 → of + bs.length ≤ 16 ∨ 24 ≤ of) : Reach z (z.put p of bs) := by
  have hsize : shzSize (z.put p of bs) = shzSize z :=
    Arch.fld_put_ne hfits (by decide) fun heq => by
      have := hbase heq.symm
      omega
  have hquiet : ∀ {tree : Tree}, tree.Quiet z → tree.Quiet (z.put p of bs) := by
    intro tree htree seq hseq
    rcases htree seq hseq with hlt | hout
    · exact Or.inl hlt
    · refine Or.inr ?_
      unfold outOfRange maxSeq at hout ⊢
      rw [hsize]
      exact hout
  refine ⟨⟨h.pos, h.le, h.room, ?_, ?_, h.handed, ⟨h.dtable.1, hquiet h.dtable.2⟩,
    ⟨h.ftable.1, hquiet h.ftable.2⟩⟩, Nat.le_refl _, hsize⟩
  · rw [maxSeq, hsize]
    exact h.reach
  · rw [maxSeq, hsize]
    exact h.live

/-- The same for the program that writes. -/
theorem loose_put (h : Loose z) (hfits : of + bs.length ≤ pageSize)
    (hbase : p = 0 → of + bs.length ≤ 16 ∨ 24 ≤ of) : Keeps Reach (put p of bs) z fun _ _ => True :=
  Keeps.modify (h.put hfits hbase) trivial

/-- A checksum is set in a loose archive. -/
theorem loose_crcSet (h : Loose z) : Keeps Reach (shzCrcSet p) z fun _ _ => True := by
  refine Keeps.bind (loose_put h (by decide) fun _ => Or.inl (by decide)) fun _ z1 hs _ =>
    Keeps.bind_read ?_
  exact loose_put hs.loose (by show 4 + 2 ≤ 1024; decide) fun _ =>
    Or.inl (by show 4 + 2 ≤ 16; decide)

/-- A size is set in a loose archive. -/
theorem loose_sizeSet {len : Nat} (h : Loose z) :
    Keeps Reach (shzPageSizeSet p len) z fun _ _ => True := by
  refine Keeps.ite (fun _ => Keeps.fail h.refl) fun _ => loose_put h ?_ fun _ => Or.inl ?_
  · rw [length_beBytes]
    decide
  · rw [length_beBytes]
    decide

/-- The clock is read in a loose archive. -/
theorem loose_shtime (h : Loose z) : Keeps Reach (shtime env) z fun _ _ => True := by
  refine Keeps.bind_read ?_
  have hstep : Reach z { z with clocks := z.clocks + 1 } := ⟨{ h with }, Nat.le_refl _, rfl⟩
  refine Keeps.bind (Q := fun _ _ => True) (Keeps.modify hstep trivial) fun _ z1 hs _ => ?_
  exact Keeps.pure hs.loose.refl trivial

/-- No content needs no page. -/
theorem loose_modWrite {fuel modBnum : Nat} (h : Loose z) :
    Keeps Reach (shzModWrite env fuel modBnum []) z fun _ _ => True := by
  refine Keeps.bind_read ?_
  have hindex : ∀ write, Keeps Reach (shzIndexWrite write fuel []) z fun _ _ => True := by
    intro write
    rcases fuel with _ | fuel
    · exact Keeps.undef
    · exact Keeps.pure h.refl trivial
  refine Keeps.bind (hindex _) fun bnum z1 hs1 _ => ?_
  have hfar : ∀ {z : Arch} {of : Nat} {bs : Bytes}, Loose z → 24 ≤ of → of + bs.length ≤ 80 →
      Keeps Reach (put modBnum of bs) z fun _ _ => True := by
    intro z of bs hz hof hend
    exact loose_put hz (Nat.le_trans hend (by decide)) fun _ => Or.inr hof
  refine hs1.loose.page modBnum (fun _ => Keeps.fail hs1.loose.refl) fun z2 hs2 _ => ?_
  refine Keeps.bind (hfar hs2.loose (by decide) (by rw [length_beBytes]; decide))
    fun _ z3 hs3 _ => ?_
  refine Keeps.bind (hfar hs3.loose (by decide) (by rw [length_beBytes]; decide))
    fun _ z4 hs4 _ => ?_
  refine Keeps.bind (hfar hs4.loose (by decide) (by show 44 + 4 ≤ 80; decide)) fun _ z5 hs5 _ => ?_
  refine Keeps.bind (loose_shtime hs5.loose) fun now z6 hs6 _ => ?_
  refine Keeps.bind (hfar hs6.loose (by decide) (by show 72 + 8 ≤ 80; decide)) fun _ z7 hs7 _ => ?_
  refine Keeps.bind (hfar hs7.loose (by decide) (by show 64 + 8 ≤ 80; decide)) fun _ z8 hs8 _ => ?_
  refine Keeps.bind (loose_sizeSet hs8.loose) fun _ z9 hs9 _ => ?_
  exact loose_crcSet hs9.loose

end LibShare.Shz
