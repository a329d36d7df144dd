import LibShare.Shz.Members
import LibShare.Shz.Reopen

/-!
# libshare — SHZ archives: sessions

Runs of opening an archive over a buffer, adding members and closing it, and the pages that
`shz_page_new` hands out on the way.

An archive that is opened again is counted up to its tables only. A member that is then added
gets pages that are in use, unless what has been looked up by then has brought the count to
the size of the archive (`pages_never_live`).
-/

namespace LibShare.Shz

open Mem Prog

variable {z z' : Arch} {env : Env}

/-! ## Runs -/

/-- An archive that is closed, in a buffer, or open. Both know the pages that have been handed
out, each with the number of pages there were before. -/
inductive Phase
  | closed (buf : Shbuf) (clocks : Nat) (handed : List (Nat × Nat))
  | opened (z : Arch)

def Phase.handed : Phase → List (Nat × Nat)
  | .closed _ _ handed => handed
  | .opened z => z.handed

/-- What is done with an archive. -/
inductive ShzEvent
  | init (salt : UInt16) (flags : UInt32)
  | write (fuel bidx : Nat) (name data : Bytes)
  | free

/-- One step. An archive that cannot be opened stays in its buffer. -/
inductive ShzStep (env : Env) : Phase → ShzEvent → Phase → Prop
  | init {buf : Shbuf} {clocks : Nat} {handed : List (Nat × Nat)} {salt : UInt16} {flags : UInt32}
      {z : Arch} :
      shzArchInit env salt flags (.blank buf clocks handed) = some (.ok (), z) →
      ShzStep env (.closed buf clocks handed) (.init salt flags) (.opened z)
  | refused {buf : Shbuf} {clocks : Nat} {handed : List (Nat × Nat)} {salt : UInt16}
      {flags : UInt32}
      {err : Sherr} {z : Arch} :
      shzArchInit env salt flags (.blank buf clocks handed) = some (.error err, z) →
      ShzStep env (.closed buf clocks handed) (.init salt flags) (.closed z.buff z.clocks z.handed)
  | write {fuel bidx : Nat} {name data : Bytes} {z z' : Arch} {r : Except Sherr Unit} :
      shzFileWrite env fuel bidx name data z = some (r, z') →
      ShzStep env (.opened z) (.write fuel bidx name data) (.opened z')
  | free {z : Arch} : ShzStep env (.opened z) .free (.closed (shzArchFree z) z.clocks z.handed)

/-- A run, with its steps and what each of them met. -/
inductive ShzRuns (env : Env) (p0 : Phase) : List (Phase × ShzEvent) → Phase → Prop
  | start : ShzRuns env p0 [] p0
  | step {t : List (Phase × ShzEvent)} {p p' : Phase} {ev : ShzEvent} :
      ShzRuns env p0 t p → ShzStep env p ev p' → ShzRuns env p0 ((p, ev) :: t) p'

/-! ## Steps that hand out no page in use -/

/-- The base page names a table, at an offset, that is in the archive. -/
def HasTable (z : Arch) (of : Nat) : Prop := z.fld 0 of 4 ≠ 0 ∧ ¬ outOfRange z (z.fld 0 of 4)

instance (z : Arch) (of : Nat) : Decidable (HasTable z of) := inferInstanceAs (Decidable (_ ∧ _))

/-- Opening makes no table in place of a page: the archive is made anew, or it has no base page and
is refused, or its tables are there, or only the second one is missing and would be the next page.
-/
def InitSafe (buf : Shbuf) (flags : UInt32) (z : Arch) : Prop :=
  initFlags buf flags &&& flagFresh ≠ 0 ∨ ¬ (z.bytes 0 2 2 = magic ∧ shzSize z ≠ 0) ∨
    HasTable z 56 ∧ (maxSeq z ≤ z.fld 0 56 4 + 1 ∨ HasTable z 60)

/-- A member needs no page, since its name is there and it has no content; or every page has been
counted when its name has been looked up. -/
def WriteSafe (env : Env) (fuel : Nat) (name data : Bytes) (z : Arch) : Prop :=
  ∀ found z1, shzFtableGet env fuel name z = some (found, z1) →
    (data = [] ∧ ∃ bnum, found = .ok bnum) ∨ maxSeq z1 ≤ z1.bseq

/-- The step hands out no page in use. Opening is about the buffer that has been allocated. -/
def StepSafe (env : Env) : Phase → ShzEvent → Prop
  | .closed buf clocks handed, .init _ flags =>
    ∀ z, shzAlloc (.blank buf clocks handed) allocSize = some z → InitSafe buf flags z
  | .opened z, .write fuel _ name data => WriteSafe env fuel name data z
  | _, _ => True

/-! ## Opening again -/

/-- A table that is in the archive. -/
theorem loose_tableInit {of : Nat} (h : Loose z) (htable : HasTable z of) :
    Keeps Reach (tableInit of) z fun tree z' => tree.Proper ∧ tree.Quiet z' := by
  refine Keeps.bind_read (Keeps.ite (fun hne => ?_) fun heq => absurd htable.1 heq)
  refine h.page _ (fun hout => absurd hout htable.2) fun z1 hs hlt => ?_
  refine Keeps.pure hs.loose.refl ⟨Tree.proper_leaf hne, ?_⟩
  exact Tree.quiet_node (Or.inl hlt) ⟨(fun s hs => nomatch hs), (fun s hs => nomatch hs)⟩

/-- The archive when its base page has been checked. -/
def Arch.checked (buf : Shbuf) (clocks : Nat) (handed : List (Nat × Nat)) : Arch :=
  let z := Arch.blank buf clocks handed
  { z with live := max 1 (maxSeq z) }

section Checked

variable {buf : Shbuf} {clocks : Nat} {handed : List (Nat × Nat)}

/-- Checking the base page changes no page. -/
theorem checked_fld (p of n : Nat) :
    (Arch.checked buf clocks handed).fld p of n = (Arch.blank buf clocks handed).fld p of n := by
  have hchecked : (Arch.checked buf clocks handed).fld p of n =
      beAt buf.data (p * pageSize + of) n := rfl
  have hblank : (Arch.blank buf clocks handed).fld p of n =
      beAt buf.data (p * pageSize + of) n := rfl
  rw [hchecked, hblank]

theorem checked_size : shzSize (.checked buf clocks handed) = shzSize (.blank buf clocks handed) :=
  checked_fld 0 16 8

theorem checked_maxSeq :
    maxSeq (.checked buf clocks handed) = maxSeq (.blank buf clocks handed) := by
  unfold maxSeq
  rw [checked_size]

theorem checked_bytes (p of n : Nat) :
    (Arch.checked buf clocks handed).bytes p of n =
    (Arch.blank buf clocks handed).bytes p of n := by
  have hchecked : (Arch.checked buf clocks handed).bytes p of n =
      slice buf.data (p * pageSize + of) n := rfl
  have hblank : (Arch.blank buf clocks handed).bytes p of n =
      slice buf.data (p * pageSize + of) n := rfl
  rw [hchecked, hblank]

theorem checked_live :
    (Arch.checked buf clocks handed).live = max 1 (maxSeq (.checked buf clocks handed)) := by
  rw [checked_maxSeq]
  rfl

theorem hasTable_checked (of : Nat) :
    HasTable (.checked buf clocks handed) of ↔ HasTable (.blank buf clocks handed) of := by
  unfold HasTable outOfRange
  rw [checked_fld, checked_maxSeq]

end Checked

/-- A page of a table has been looked up, where nothing has been counted before. -/
theorem loose_of_table {d dataOf dataMax : Nat} (hproper : d ≠ 0) (hlt : d < 2 ^ 21)
    (hin : ¬ outOfRange z d) (hroom : (d + 1) * pageSize ≤ dataMax)
    (hlive : z.live = max 1 (maxSeq z)) (hhanded : ∀ h ∈ z.handed, h.2 ≤ h.1)
    (hf : z.ftable = .nil) :
    Loose
      { Arch.regrow { z with bseq := d + 1 } dataOf dataMax with
        dtable := .node d .nil .nil } := by
  have hsize :
      maxSeq { Arch.regrow { z with bseq := d + 1 } dataOf dataMax with
        dtable := .node d .nil .nil } =
      maxSeq z := rfl
  have hreach : d + 1 ≤ maxSeq z := reach_of_range (Nat.lt_of_lt_of_le hlt (by decide)) hin
  refine ⟨Nat.succ_le_succ (Nat.zero_le _), hlt, hroom, ?_, ?_, hhanded,
    ⟨Tree.proper_leaf hproper, ?_⟩, ?_⟩
  · rw [hsize]
    exact hreach
  · rw [hsize]
    refine hlive.trans (Nat.max_eq_right ?_)
    omega
  · exact Tree.quiet_node (Or.inl (Nat.lt_succ_self d)) ⟨(fun s hs => nomatch hs),
      (fun s hs => nomatch hs)⟩
  · show z.ftable.Proper ∧ z.ftable.Quiet _
    rw [hf]
    exact ⟨trivial, fun s hs => nomatch hs⟩

/-- The first table brings the count up to its page. -/
theorem dtable_again {buf : Shbuf} {clocks : Nat} {handed : List (Nat × Nat)}
    {r : Except Sherr Tree}
    (hhanded : ∀ h ∈ handed, h.2 ≤ h.1) (hroom : allocSize ≤ buf.dataMax)
    (htable : HasTable (.checked buf clocks handed) 56)
    (hrun : tableInit 56 (.checked buf clocks handed) = some (r, z)) :
    ∃ tree, r = .ok tree ∧ Loose { z with dtable := tree } ∧ z.buff.data = buf.data ∧
      z.bseq = (Arch.checked buf clocks handed).fld 0 56 4 + 1 := by
  obtain ⟨hne, hin⟩ := htable
  unfold tableInit at hrun
  rw [Prog.bind_ok (Prog.read_run _ _), if_pos hne] at hrun
  have hpos : 0 < (Arch.checked buf clocks handed).buff.dataMax :=
    Nat.lt_of_lt_of_le (by decide) hroom
  have hquiet : ∀ n, ∀ seq ∈ tableSeqs (.checked buf clocks handed), n + 1 ≤ seq →
      outOfRange (.checked buf clocks handed) seq := by
    intro n seq hseq
    unfold tableSeqs at hseq
    rcases List.mem_append.mp hseq with hd | hf
    · split at hd <;> cases hd
    · split at hf <;> cases hf
  rcases Prog.bind_inv hrun with ⟨e, hpage, -⟩ | ⟨blk, z1, hpage, hrest⟩
  · obtain ⟨hr, -⟩ := page_reach hpos (Nat.zero_le _) hin (hquiet _) hpage
    cases hr
  · obtain ⟨hr, hlt, hwithin, dataOf, dataMax, hmax, rfl⟩ :=
      page_reach hpos (Nat.zero_le _) hin (hquiet _) hpage
    cases hr
    cases hrest
    exact ⟨_, rfl, loose_of_table hne hlt hin
      (Nat.le_trans hwithin hmax) checked_live hhanded rfl, rfl, rfl⟩

/-- Both tables of an archive that is opened again. -/
theorem tables_again {buf : Shbuf} {clocks : Nat} {handed : List (Nat × Nat)}
    {r : Except Sherr Unit}
    (hhanded : ∀ h ∈ handed, h.2 ≤ h.1) (hroom : allocSize ≤ buf.dataMax)
    (hd : HasTable (.checked buf clocks handed) 56)
    (hf : maxSeq (.checked buf clocks handed) ≤ (Arch.checked buf clocks handed).fld 0 56 4 + 1 ∨
      HasTable (.checked buf clocks handed) 60)
    (hrun : tablesInit (.checked buf clocks handed) = some (r, z)) : Loose z := by
  rcases Prog.bind_inv hrun with ⟨e, hinit, -⟩ | ⟨dtable, z1, hinit, hrest⟩
  · obtain ⟨tree, hr, -⟩ := dtable_again hhanded hroom hd hinit
    cases hr
  · obtain ⟨tree, hr, hloose, hdata, hbseq⟩ := dtable_again hhanded hroom hd hinit
    cases hr
    rw [Prog.bind_ok (Prog.modify_run _ _)] at hrest
    -- looking up has not changed the base page
    have hfld : ∀ of n, Arch.fld { z1 with dtable := dtable } 0 of n =
        (Arch.checked buf clocks handed).fld 0 of n := by
      intro of n
      unfold Arch.fld
      show beAt z1.buff.data _ _ = _
      rw [hdata]
      rfl
    have hsize : maxSeq { z1 with dtable := dtable } = maxSeq (.checked buf clocks handed) := by
      unfold maxSeq
      rw [show shzSize { z1 with dtable := dtable } =
        shzSize (.checked buf clocks handed) from hfld 16 8]
    have hset : ∀ {z2 : Arch} {ftable : Tree}, Loose z2 → ftable.Proper → ftable.Quiet z2 →
        Loose { z2 with ftable := ftable } := by
      intro z2 ftable h2 hp hq
      exact { h2 with ftable := ⟨hp, hq⟩ }
    rcases hf with hcount | htable
    · -- every page has been counted, and a table that is missing is the next one
      have hinv : Inv false { z1 with dtable := dtable } := by
        refine hloose.inv ?_
        rw [hsize]
        show _ ≤ z1.bseq
        rw [hbseq]
        exact hcount
      rcases Prog.bind_inv hrest with ⟨e, hinit2, -⟩ | ⟨ftable, z2, hinit2, hend⟩
      · exact (keeps_tableInit hinv (Or.inr rfl) _ _ hinit2).1.inv.loose
      · obtain ⟨hs, hproper⟩ := keeps_tableInit hinv (Or.inr rfl) _ _ hinit2
        cases hend
        exact hset hs.inv.loose (hproper ftable rfl) (hs.inv.quiet ftable)
    · have htable' : HasTable { z1 with dtable := dtable } 60 := by
        unfold HasTable outOfRange at htable ⊢
        rw [hfld, hsize]
        exact htable
      rcases Prog.bind_inv hrest with ⟨e, hinit2, -⟩ | ⟨ftable, z2, hinit2, hend⟩
      · exact (loose_tableInit hloose htable' _ _ hinit2).1.loose
      · obtain ⟨hs, hval⟩ := loose_tableInit hloose htable' _ _ hinit2
        cases hend
        exact hset hs.loose (hval ftable rfl).1 (hval ftable rfl).2

/-- An archive that is opened. -/
theorem init_loose {buf : Shbuf} {clocks : Nat} {handed : List (Nat × Nat)} {salt : UInt16}
    {flags : UInt32}
    {r : Except Sherr Unit} (hhanded : ∀ h ∈ handed, h.2 ≤ h.1)
    (hsafe : ∀ z, shzAlloc (.blank buf clocks handed) allocSize = some z → InitSafe buf flags z)
    (hrun : shzArchInit env salt flags (.blank buf clocks handed) = some (r, z)) :
    (r = .ok () → Loose z) ∧ ∀ h ∈ z.handed, h.2 ≤ h.1 := by
  by_cases hfresh : initFlags buf flags &&& flagFresh ≠ 0
  · have hinv : Inv false z := archInit_fresh hhanded hfresh (fun hb => by cases hb) hrun
    exact ⟨fun _ => hinv.loose, hinv.handed⟩
  · obtain ⟨buf', hopen, halloc, hinit⟩ := archInit_run env salt flags buf clocks handed
    have hsafe := hsafe _ halloc
    rw [hinit] at hrun
    have hbase : baseOpen env salt (initFlags buf flags) (.blank buf' clocks handed) =
        (if decide ((Arch.checked buf' clocks handed).bytes 0 2 2 = magic ∧
            shzSize (.checked buf' clocks handed) ≠ 0) = true
          then pure () else Prog.fail Sherr.ilseq : ShzM Unit) (.checked buf' clocks handed) := by
      unfold baseOpen
      rw [if_neg hfresh]
      rfl
    rw [checked_bytes, checked_size] at hbase
    by_cases hok : (Arch.blank buf' clocks handed).bytes 0 2 2 = magic ∧
      shzSize (.blank buf' clocks handed) ≠ 0
    · rw [if_pos (decide_eq_true hok)] at hbase
      have htables := (hsafe.resolve_left hfresh).resolve_left (not_not.mpr hok)
      rw [← hasTable_checked, ← hasTable_checked, ← checked_maxSeq, ← checked_fld] at htables
      obtain ⟨hd, hf⟩ := htables
      rw [Prog.bind_ok hbase] at hrun
      rcases Prog.bind_inv hrun with ⟨e, htables, -⟩ | ⟨u, z1, htables, hend⟩
      · have hloose : Loose z := tables_again hhanded hopen.room hd hf htables
        exact ⟨fun _ => hloose, hloose.handed⟩
      · have hloose : Loose z1 := tables_again hhanded hopen.room hd hf htables
        cases hend
        exact ⟨fun _ => { hloose with }, hloose.handed⟩
    · rw [if_neg (fun h => hok (of_decide_eq_true h))] at hbase
      rw [Prog.bind_error hbase] at hrun
      cases hrun
      exact ⟨(fun hr => by cases hr), hhanded⟩

/-! ## Adding members -/

/-- A member is added. -/
theorem write_loose {fuel bidx : Nat} {name data : Bytes} {r : Except Sherr Unit} (h : Loose z)
    (hsafe : WriteSafe env fuel name data z)
    (hrun : shzFileWrite env fuel bidx name data z = some (r, z')) :
    Loose z' := by
  have hlookup : ∀ {found z1}, shzFtableGet env fuel name z = some (found, z1) → Loose z1 := by
    intro found z1 hget
    exact (loose_ftableGet h _ _ hget).1.loose
  rcases Prog.bind_inv hrun with ⟨e, hentity, -⟩ | ⟨bnum, z2, hentity, hmod⟩
  · rcases Prog.bind_inv hentity with ⟨e', hatt, -⟩ | ⟨found, z1, hatt, hrest⟩
    · obtain ⟨_, he, -⟩ := Prog.attempt_inv hatt
      cases he
    · obtain ⟨_, hf, hget⟩ := Prog.attempt_inv hatt
      cases hf
      rcases found with err | found
      · rcases hsafe _ _ hget with ⟨-, bnum, hbnum⟩ | hcount
        · cases hbnum
        · exact (keeps_entityNew ((hlookup hget).inv hcount) _ _ hrest).1.inv.loose
      · cases hrest
  · rcases Prog.bind_inv hentity with ⟨e', -, he⟩ | ⟨found, z1, hatt, hrest⟩
    · cases he
    · obtain ⟨_, hf, hget⟩ := Prog.attempt_inv hatt
      cases hf
      rcases hsafe _ _ hget with ⟨rfl, found', rfl⟩ | hcount
      · -- there is no content, and no page is needed
        cases hrest
        exact (loose_modWrite (hlookup hget) _ _ hmod).1.loose
      · have hinv := (hlookup hget).inv hcount
        rcases found with err | found
        · have hs := (keeps_entityNew hinv _ _ hrest).1
          exact (keeps_modWrite hs.inv _ _ hmod).1.inv.loose
        · cases hrest
          exact (keeps_modWrite hinv _ _ hmod).1.inv.loose

/-! ## Whole runs -/

/-- What holds of an archive in a run. -/
def Phase.Sound : Phase → Prop
  | .closed _ _ handed => ∀ h ∈ handed, h.2 ≤ h.1
  | .opened z => Loose z

theorem Phase.Sound.handed {p : Phase} (h : p.Sound) : ∀ e ∈ p.handed, e.2 ≤ e.1 := by
  rcases p with ⟨buf, clocks, handed⟩ | z
  · exact h
  · exact Loose.handed h

theorem step_sound {p p' : Phase} {ev : ShzEvent} (h : p.Sound) (hstep : ShzStep env p ev p')
    (hsafe : StepSafe env p ev) : p'.Sound := by
  rcases hstep with hrun | hrun | hrun | _
  · exact (init_loose h hsafe hrun).1 rfl
  · exact (init_loose h hsafe hrun).2
  · exact write_loose h hsafe hrun
  · exact Loose.handed h

theorem runs_sound {p0 p : Phase} {t : List (Phase × ShzEvent)} (h0 : p0.Sound)
    (hrun : ShzRuns env p0 t p)
    (hsafe : ∀ e ∈ t, StepSafe env e.1 e.2) : p.Sound := by
  induction hrun with
  | start => exact h0
  | step _ hstep ih =>
    rw [List.forall_mem_cons] at hsafe
    exact step_sound (ih hsafe.2) hstep hsafe.1

/-- Over every run of sessions, from a buffer of any content, whose steps are safe: no page that is
handed out is one of the pages that there were. -/
theorem pages_never_live {buf : Shbuf} {clocks : Nat} {p : Phase} {t : List (Phase × ShzEvent)}
    (hrun : ShzRuns env (.closed buf clocks []) t p) (hsafe : ∀ e ∈ t, StepSafe env e.1 e.2) :
    ∀ e ∈ p.handed, e.2 ≤ e.1 := by
  have h0 : (Phase.closed buf clocks []).Sound := List.forall_mem_nil _
  exact (runs_sound h0 hrun hsafe).handed

/-- A run goes on where something holds of the archive. -/
def expect (P : Arch → Prop) [DecidablePred P] (err : Sherr) : ShzM Unit := do
  let ok ← Prog.read fun z => decide (P z)
  if ok then pure () else Prog.fail err

theorem succeeds_expect {α : Type} {P : Arch → Prop} [DecidablePred P] {err : Sherr}
    {f : Unit → ShzM α}
    (h : Succeeds (expect P err >>= f) z) : P z ∧ Succeeds (f ()) z := by
  obtain ⟨_, z1, hcheck, hrest⟩ := succeeds_bind.mp h
  unfold expect at hcheck
  rw [bind_ok (read_run _ _)] at hcheck
  by_cases hP : P z
  · rw [if_pos (decide_eq_true hP)] at hcheck
    cases hcheck
    exact ⟨hP, hrest⟩
  · rw [if_neg (fun h => hP (of_decide_eq_true h))] at hcheck
    cases hcheck

/-- The archive, when it is closed and opened again, has both tables. -/
def KeepsTables (z : Arch) : Prop :=
  ∀ z' ∈ shzAlloc (.blank (shzArchFree z) z.clocks z.handed) allocSize, HasTable z' 56 ∧
    HasTable z' 60

instance : DecidablePred KeepsTables := fun _ => inferInstanceAs (Decidable (∀ _ ∈ _, _))

/-- A fresh archive is closed and opened again, and a member is added: it gets the pages after the
tables. -/
theorem pages_never_live_reopened : ∃ z1 z2 z3, ShzRuns plainEnv (.closed shbufInit 0 [])
      [(.opened z2, .write 5 0 [97] [1, 2, 3]),
        (.closed (shzArchFree z1) z1.clocks z1.handed, .init 1 0), (.opened z1, .free),
        (.closed shbufInit 0 [], .init 1 0)] (.opened z3) ∧
    3 < z3.handed.length ∧ ∀ e ∈ z3.handed, e.2 ≤ e.1 := by
  have hrun : Succeeds (do
      shzArchInit plainEnv 1 0
      expect KeepsTables .io
      Prog.modify fun z => .blank (shzArchFree z) z.clocks z.handed
      shzArchInit plainEnv 1 0
      expect (fun z => maxSeq z ≤ z.bseq) .io
      shzFileWrite plainEnv 5 0 [97] [1, 2, 3]
      expect (fun z => 3 < z.handed.length) .io
      pure () : ShzM Unit) (.blank shbufInit 0 []) := by
    decide +kernel
  obtain ⟨_, z1, hinit, hrest⟩ := succeeds_bind.mp hrun
  obtain ⟨hheld, hrest⟩ := succeeds_expect hrest
  obtain ⟨_, _, hfree, hrest⟩ := succeeds_bind.mp hrest
  cases hfree
  obtain ⟨_, z2, hagain, hrest⟩ := succeeds_bind.mp hrest
  obtain ⟨hcounted, hrest⟩ := succeeds_expect hrest
  obtain ⟨_, z3, hwrite, hrest⟩ := succeeds_bind.mp hrest
  obtain ⟨hmore, -⟩ := succeeds_expect hrest
  have hruns : ShzRuns plainEnv (.closed shbufInit 0 [])
      [(.opened z2, .write 5 0 [97] [1, 2, 3]),
        (.closed (shzArchFree z1) z1.clocks z1.handed, .init 1 0), (.opened z1, .free),
          (.closed shbufInit 0 [], .init 1 0)] (.opened z3) :=
    .step (.step (.step (.step .start (.init hinit)) .free) (.init hagain)) (.write hwrite)
  have hinv1 : Inv false z1 :=
    archInit_fresh (List.forall_mem_nil _) (by decide) (fun hb => by cases hb) hinit
  have hsafe : ∀ z, shzAlloc (.blank (shzArchFree z1) z1.clocks z1.handed) allocSize = some z →
      InitSafe (shzArchFree z1) 0 z := by
    intro z halloc
    have htables := hheld z halloc
    exact Or.inr (Or.inr ⟨htables.1, Or.inr htables.2⟩)
  have hinv2 : Inv false z2 := ((init_loose hinv1.handed hsafe hagain).1 rfl).inv hcounted
  refine ⟨z1, z2, z3, hruns, hmore, pages_never_live hruns ?_⟩
  rw [List.forall_mem_cons, List.forall_mem_cons, List.forall_mem_cons, List.forall_mem_cons]
  refine ⟨?_, hsafe, trivial, fun _ _ => Or.inl (by decide), List.forall_mem_nil _⟩
  intro found z4 hget
  exact Or.inr (Nat.le_of_eq (keeps_ftableGet hinv2 _ _ hget).1.inv.maxSeq_eq)

/-- An archive that has a member is opened again, and another member is added: it gets a page that
is in use. -/
theorem reopened_page_live : ∃ p t, ShzRuns plainEnv (.closed shbufInit 0 []) t p ∧
    t.map Prod.snd = [.write 5 0 [98] [4], .init 1 0, .free, .write 5 0 [97] [1, 2, 3], .init 1 0] ∧
    ∃ e ∈ p.handed, e.1 < e.2 := by
  have hrun : Succeeds (do
      shzArchInit plainEnv 1 0
      shzFileWrite plainEnv 5 0 [97] [1, 2, 3]
      Prog.modify fun z => .blank (shzArchFree z) z.clocks z.handed
      shzArchInit plainEnv 1 0
      shzFileWrite plainEnv 5 0 [98] [4]
      expect (fun z => ∃ e ∈ z.handed, e.1 < e.2) .io
      pure () : ShzM Unit) (.blank shbufInit 0 []) := by
    decide +kernel
  obtain ⟨_, z1, hinit, hrest1⟩ := succeeds_bind.mp hrun
  obtain ⟨_, z2, hwrite, hrest2⟩ := succeeds_bind.mp hrest1
  obtain ⟨_, z3, hfree, hrest3⟩ := succeeds_bind.mp hrest2
  cases hfree
  obtain ⟨_, z4, hagain, hrest4⟩ := succeeds_bind.mp hrest3
  obtain ⟨_, z5, hwrite2, hlive⟩ := succeeds_bind.mp hrest4
  refine ⟨.opened z5, _, .step (.step (.step (.step (.step .start (.init hinit))
    (.write hwrite)) .free)
    (.init hagain)) (.write hwrite2), rfl, (succeeds_expect hlive).1⟩

end LibShare.Shz
