import LibShare.Shz.Steps

/-!
# libshare — SHZ archives: opening

A fresh archive meets the invariant, whatever its buffer held before, and the tables are made or
looked up within it. With `b` the buffer is zero: a file that has just been made, or the first
allocation of a buffer on the heap.
-/

namespace LibShare.Shz

open Mem Prog

variable {b : Bool} {z z' : Arch} {env : Env}

/-! ## The first allocation -/

/-- A buffer with room for an archive, with the bytes that there were. -/
structure Opened (buf buf' : Shbuf) : Prop where
  room : allocSize ≤ buf'.dataMax
  mapped : buf'.mapped = buf.mapped
  data : 0 < buf.dataMax → buf'.data = buf.data
  zero : (∀ i, buf.data i = 0) → ∀ i, buf'.data i = 0

theorem opened_grow (buf : Shbuf) : ∃ buf', growTo buf allocSize = some buf' ∧ Opened buf buf' := by
  unfold growTo
  split
  · refine ⟨_, rfl, ?_⟩
    unfold shbufGrowmap
    split
    · next hle => exact ⟨hle, rfl, fun _ => rfl, fun h => h⟩
    · exact ⟨(by decide : allocSize ≤ max allocSize 4096 / 4096 * 4096), rfl, fun _ =>
        rfl, fun h => h⟩
  · have hblocks := shbufBlocks_le allocSize
    refine ⟨buf.grown allocSize, if_pos (by decide), ?_⟩
    unfold Shbuf.grown
    dsimp only
    split
    · next hle => exact ⟨by omega, rfl, fun _ => rfl, fun h => h⟩
    · split
      · next hzero =>
        refine ⟨hblocks, rfl, fun hpos => by omega, ?_⟩
        intro h i
        dsimp only
        split
        · rfl
        · exact h i
      · exact ⟨hblocks, rfl, fun _ => rfl, fun h => h⟩

theorem scan_first {of max : Nat} (h : z.bseq = 0) : shzScan z of max = z := by
  unfold shzScan
  rw [h, if_pos (Nat.zero_le _)]

/-- The allocation for a new archive, which has no pages and no tables in memory. -/
theorem alloc_first (hbseq : z.bseq = 0) (hd : z.dtable = .nil) (hf : z.ftable = .nil) :
    ∃ buf, Opened z.buff buf ∧ shzAlloc z allocSize = some { z with buff := buf } := by
  have hseqs : tableSeqs z = [] := by
    unfold tableSeqs
    rw [hd, hf]
    split <;> split <;> rfl
  have hround : allocLen allocSize = allocSize := by decide
  have havail : shzAvail z = z.buff.dataMax % 2 ^ 64 := by
    unfold shzAvail
    rw [hbseq, Nat.zero_mul, Nat.zero_mod, Nat.sub_zero, Nat.add_mod_right]
  unfold shzAlloc
  rw [hseqs]
  show ∃ buf, _ ∧ allocWith some z allocSize = _
  unfold allocWith
  rw [hround, havail]
  split
  · next hlt =>
    have hmod := Nat.mod_le z.buff.dataMax (2 ^ 64)
    exact ⟨z.buff, ⟨by omega, rfl, fun _ => rfl, fun h => h⟩, rfl⟩
  · obtain ⟨buf, hgrow, hopen⟩ := opened_grow z.buff
    refine ⟨buf, hopen, ?_⟩
    rw [hgrow]
    exact congrArg some (scan_first hbseq)

/-! ## Tables -/

/-- A table is named in the base page. -/
theorem Writable.table {of v : Nat} (hpos : 1 ≤ z.bseq) (hof : of = 56 ∨ of = 60) (hv : Plain z v) :
    Writable b z 0 of (beBytes 4 v) := by
  rcases hof with rfl | rfl
  · exact .names hpos fun _ => hv
  · refine ⟨hpos, by decide, ?_, fun _ => Or.inr (by decide),
      fun _ _ => Or.inr (Or.inl (by decide))⟩
    rw [length_beBytes]
    decide

theorem keeps_tableNew {of : Nat} (h : Inv b z) (hof : of = 56 ∨ of = 60) :
    Keeps (Step b) (tableNew of) z fun tree _ => tree.Proper := by
  refine keeps_bind_pageNew h (by decide) fun z1 hs1 _ hpage => ?_
  refine Keeps.bind (keeps_put hs1.inv (.table hs1.inv.pos hof (hpage.plain (by decide))))
    fun _ z2 hs2 _ => ?_
  have hpage2 := hpage.step hs2
  refine Keeps.bind (keeps_sizeSet hs2.inv hpage2.lt _) fun _ z3 hs3 _ => ?_
  refine Keeps.bind (keeps_crcSet hs3.inv (hpage2.step hs3).lt) fun _ z4 hs4 _ => ?_
  exact Keeps.pure hs4.inv.refl (Tree.proper_leaf (Nat.ne_of_gt h.pos))

theorem keeps_tableInit {of : Nat} (h : Inv b z) (hof : of = 56 ∨ of = 60) :
    Keeps (Step b) (tableInit of) z fun tree _ => tree.Proper := by
  refine Keeps.bind_read (Keeps.ite (fun hne => ?_) fun _ => keeps_tableNew h hof)
  refine keeps_page h _ (keeps_tableNew h hof) fun _ => ?_
  exact Keeps.pure h.refl (Tree.proper_leaf hne)

/-! ## A fresh base page -/

/-- An archive that has no pages yet, in a buffer that has room for some. -/
structure Bare (b : Bool) (z : Arch) : Prop where
  bseq : z.bseq = 0
  live : z.live = 0
  dtable : z.dtable = .nil
  ftable : z.ftable = .nil
  handed : ∀ h ∈ z.handed, h.2 ≤ h.1
  room : allocSize ≤ z.buff.dataMax
  zero : b = true → ∀ i, z.buff.data i = 0

theorem Bare.roomy (h : Bare b z) : Roomy z where
  le := by rw [h.bseq]; decide
  room := by rw [h.bseq, Nat.zero_mul]; exact Nat.zero_le _
  pos := Nat.lt_of_lt_of_le (by decide) h.room
  quiet := by
    have hseqs : tableSeqs z = [] := by
      unfold tableSeqs
      rw [h.dtable, h.ftable]
      split <;> split <;> rfl
    intro seq hseq
    rw [hseqs] at hseq
    cases hseq

/-- The base page with its size. -/
def baseMade (salt : UInt16) (z : Arch) : Arch :=
  (((newPage pageBase z).put 0 2 magic).put 0 8 (beBytes 2 salt.toNat)).put 0 16
    (beBytes 8 pageSize)

variable {salt : UInt16}

theorem baseMade_size : shzSize (baseMade salt z) = pageSize := Arch.fld_put (by decide)

theorem baseMade_type (h : z.bseq = 0) : shzPageType (baseMade salt z) 0 = pageBase := by
  have htype : ∀ {of : Nat} {bs : Bytes} {z : Arch}, 2 ≤ of → of + bs.length ≤ pageSize →
      shzPageType (z.put 0 of bs) 0 = shzPageType z 0 := by
    intro of bs z hof hend
    exact Arch.fld_put_ne hend (by decide) fun _ => Or.inl hof
  have hself : shzPageType (newPage pageBase z) z.bseq = pageBase := newPage_type_self (by decide)
  rw [h] at hself
  unfold baseMade
  rw [htype (by decide) (by rw [length_beBytes]; decide),
    htype (by decide) (by rw [length_beBytes]; decide), htype (by decide) (by decide), hself]

/-- Nothing but the base page is written. -/
theorem baseMade_data (h : z.bseq = 0) {i : Nat} (hi : pageSize ≤ i) :
    (baseMade salt z).buff.data i = z.buff.data i := by
  have hout : ∀ {of : Nat} {bs : Bytes} {z : Arch}, of + bs.length ≤ pageSize →
      (z.put 0 of bs).buff.data i = z.buff.data i := by
    intro of bs z hend
    exact poke_of_not_mem (Or.inr (by omega))
  unfold baseMade
  rw [hout (by rw [length_beBytes]; decide), hout (by rw [length_beBytes]; decide),
    hout (by decide)]
  unfold newPage
  rw [h, hout (by rw [length_beBytes]; decide), hout (by decide)]
  unfold shzSizeIncr
  rw [hout (by rw [length_beBytes]; decide)]
  rfl

theorem Bare.orderly (h : Bare true z) : Orderly (baseMade salt z) := by
  have hbseq : (baseMade salt z).bseq = 1 := congrArg Nat.succ h.bseq
  have htype : shzPageType (baseMade salt z) 0 = pageBase := baseMade_type h.bseq
  refine ⟨?_, ⟨by rw [hbseq]; decide, by rw [htype]; decide⟩, ?_⟩
  · intro i hi
    rw [hbseq, Nat.one_mul] at hi
    rw [baseMade_data h.bseq hi]
    exact h.zero rfl i
  · intro p hp hmod
    rw [hbseq] at hp
    rw [Nat.lt_one_iff.mp hp, htype] at hmod
    cases hmod

theorem Bare.inv (h : Bare b z) : Inv b (baseMade salt z) := by
  have hbseq : (baseMade salt z).bseq = 1 := congrArg Nat.succ h.bseq
  have hlive : (baseMade salt z).live = 1 := by
    show max z.live (z.bseq + 1) = 1
    rw [h.live, h.bseq]
    rfl
  refine ⟨by rw [hbseq], by rw [hbseq]; decide, ?_, ?_, hlive.trans hbseq.symm, ?_, ?_, ?_, ?_⟩
  · rw [hbseq, Nat.one_mul]
    exact Nat.le_trans (by decide) h.room
  · rw [baseMade_size, hbseq]
    exact Nat.div_self (by decide)
  · show ∀ e ∈ (z.bseq, z.live) :: z.handed, e.2 ≤ e.1
    rw [List.forall_mem_cons]
    exact ⟨by rw [h.live]; exact Nat.zero_le _, h.handed⟩
  · show z.dtable.Proper
    rw [h.dtable]
    trivial
  · show z.ftable.Proper
    rw [h.ftable]
    trivial
  · intro hb
    subst hb
    exact h.orderly

theorem Bare.regrow (h : Bare b z) {dataOf max : Nat} (hmax : z.buff.dataMax ≤ max) :
    Bare b (z.regrow dataOf max) :=
  ⟨h.bseq, h.live, h.dtable, h.ftable, h.handed, Nat.le_trans h.room hmax, h.zero⟩

/-- A fresh base page, whatever the buffer held. -/
theorem baseInit_inv {r : Except Sherr Unit} (h : Bare b z)
    (hrun : baseInit env salt z = some (r, z')) :
    Inv b z' := by
  unfold baseInit at hrun
  rw [Prog.bind_ok (Prog.modify_run _ _)] at hrun
  have hbare : Bare b { z with bseq := 0, live := 0 } :=
    ⟨rfl, rfl, h.dtable, h.ftable, h.handed, h.room, h.zero⟩
  rcases Prog.bind_inv hrun with ⟨e, hnew, -⟩ | ⟨blk, z1, hnew, hrest⟩
  · cases (hbare.roomy.pageNew hnew).1
  · obtain ⟨hblk, -, dataOf, max, hmax, -, rfl⟩ := hbare.roomy.pageNew hnew
    cases hblk
    dsimp only at hrest
    rw [Prog.bind_ok (put_run _ _ _ _), Prog.bind_ok (put_run _ _ _ _),
      Prog.bind_ok (put_run _ _ _ _)] at hrest
    have hinv : Inv b (baseMade salt (Arch.regrow { z with bseq := 0, live := 0 } dataOf max)) :=
      (hbare.regrow hmax).inv
    -- what follows is written behind the size
    have hw : ∀ {z : Arch} {of : Nat} {bs : Bytes}, Inv b z → 24 ≤ of → of + bs.length ≤ 56 →
        Writable b z 0 of bs := by
      intro z of bs hz hof hend
      exact ⟨hz.pos, by omega, Nat.le_trans hend (by decide), fun _ => Or.inr hof,
        fun _ _ => Or.inl hend⟩
    have hkeeps : Keeps (Step b) (do
        put 0 24 (beBytes 8 0)
        let now ← shtime env
        put 0 48 (leBytes64 now)
        put 0 40 (leBytes64 now)
        shzPageSizeSet 0 64) (baseMade salt (Arch.regrow
          { z with bseq := 0, live := 0 } dataOf max))
        fun _ _ => True := by
      refine Keeps.bind (keeps_put hinv (hw hinv (by decide) (by decide))) fun _ z2 hs2 _ => ?_
      refine Keeps.bind (keeps_shtime hs2.inv) fun now z3 hs3 _ => ?_
      refine Keeps.bind (keeps_put hs3.inv (hw hs3.inv (by decide) (by show 48 + 8 ≤ 56; decide)))
        fun _ z4 hs4 _ => ?_
      refine Keeps.bind (keeps_put hs4.inv (hw hs4.inv (by decide) (by show 40 + 8 ≤ 56; decide)))
        fun _ z5 hs5 _ => ?_
      exact keeps_sizeSet hs5.inv hs5.inv.pos _
    exact (hkeeps _ _ hrest).1.inv

/-! ## Archives -/

/-- The tables of an archive that has its base page. -/
theorem keeps_tablesInit (h : Inv b z) : Keeps (Step b) tablesInit z fun _ _ => True := by
  refine Keeps.bind (keeps_tableInit h (Or.inl rfl)) fun dtable z1 hs1 hd => ?_
  have hset : Step b z1 { z1 with dtable := dtable } :=
    hs1.inv.same rfl rfl rfl rfl hd hs1.inv.ftable
  refine Keeps.bind (Q := fun _ _ => True) (Keeps.modify hset trivial) fun _ z2 hs2 _ => ?_
  refine Keeps.bind (keeps_tableInit hs2.inv (Or.inr rfl)) fun ftable z3 hs3 hf => ?_
  exact Keeps.modify (hs3.inv.setFtable hf) trivial

/-- Where `shz_arch_init` begins: at the base page, with a buffer that has room. -/
theorem archInit_run (env : Env) (salt : UInt16) (flags : UInt32) (buf : Shbuf) (clocks : Nat)
    (handed : List (Nat × Nat)) :
    ∃ buf', Opened buf buf' ∧ shzAlloc (.blank buf clocks handed) allocSize =
      some (.blank buf' clocks handed) ∧ shzArchInit env salt flags (.blank buf clocks handed) =
      (do
        baseOpen env salt (initFlags buf flags)
        tablesInit
        Prog.modify fun z => { z with flags := initFlags buf flags } :
          ShzM Unit) (.blank buf' clocks handed) := by
  obtain ⟨buf', hopen, halloc⟩ := alloc_first (z := .blank buf clocks handed) rfl rfl rfl
  refine ⟨buf', hopen, halloc, ?_⟩
  have hmax : max ((Arch.blank buf clocks handed).bseq * pageSize) allocSize = allocSize := by
    show max (0 * pageSize) allocSize = allocSize
    decide
  unfold shzArchInit
  rw [Prog.bind_ok (Prog.read_run _ _), Prog.bind_ok (Prog.modify_run _ _), scan_first rfl,
    Prog.bind_ok (Prog.read_run _ _), hmax, Prog.bind_ok (alloc_run halloc)]
  rfl

/-- A fresh archive meets the invariant. -/
theorem archInit_fresh {buf : Shbuf} {clocks : Nat} {handed : List (Nat × Nat)} {flags : UInt32}
    {r : Except Sherr Unit} (hhanded : ∀ h ∈ handed, h.2 ≤ h.1)
    (hfresh : initFlags buf flags &&& flagFresh ≠ 0) (hzero : b = true → ∀ i, buf.data i = 0)
    (hrun : shzArchInit env salt flags (.blank buf clocks handed) = some (r, z)) : Inv b z := by
  obtain ⟨buf', hopen, -, hinit⟩ := archInit_run env salt flags buf clocks handed
  rw [hinit] at hrun
  have hbare : Bare b (.blank buf' clocks handed) :=
    ⟨rfl, rfl, rfl, rfl, hhanded, hopen.room, fun hb => hopen.zero (hzero hb)⟩
  have hbase : baseOpen env salt (initFlags buf flags) = baseInit env salt := if_pos hfresh
  rw [hbase] at hrun
  rcases Prog.bind_inv hrun with ⟨e, hinit, -⟩ | ⟨u, z1, hinit, hrest⟩
  · exact baseInit_inv hbare hinit
  · have hinv := baseInit_inv hbare hinit
    rcases Prog.bind_inv hrest with ⟨e, htables, -⟩ | ⟨u', z2, htables, hend⟩
    · exact (keeps_tablesInit hinv _ _ htables).1.inv
    · have hinv2 := (keeps_tablesInit hinv _ _ htables).1.inv
      have hset : Step b z2 { z2 with flags := initFlags buf flags } :=
        hinv2.same rfl rfl rfl rfl hinv2.dtable hinv2.ftable
      cases hend
      exact hset.inv

end LibShare.Shz
