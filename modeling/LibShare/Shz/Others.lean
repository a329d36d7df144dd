import LibShare.Shz.FileTable
import LibShare.Shz.Index
import LibShare.Shz.Sessions

/-!
# libshare — SHZ archives: the other members

What `shz_file_write` of one name leaves of the members with other names.

A new name gets new pages, and its entry does not hide the key of another name
(`fileWrite_new`). A name that is in the table has its content written to a page that
the caller has made up, which changes no entry unless it is a page of a table
(`fileWrite_again`). So in an archive that is written in one session, where no such page is
hit, writing a name changes what is read of another one exactly when the name is new and
both have the same key (`read_unchanged_iff`).
-/

namespace LibShare.Shz

open Mem Prog

variable {b : Bool} {z z' z'' : Arch} {env : Env} {p q m n fuel bidx root : Nat} {name data : Bytes}
  {sides : Bool → List Nat}

/-! ## Pages that keep their keys -/

/-- Only a page and the pages from a number on have changed, and the page has kept its key. -/
structure Keyed (n p : Nat) (z z' : Arch) : Prop where
  within : Within (fun q => q = p ∨ n ≤ q) z z'
  key : p ≠ 0 → p < z.bseq → memberId z' p = memberId z p

instance : IsTrans Arch (Keyed n p) where
  trans z z' z'' h h' := by
    refine ⟨h.within.trans h'.within, fun h0 hlt => ?_⟩
    rw [h'.key h0 (Nat.lt_of_lt_of_le hlt h.within.step.bseq), h.key h0 hlt]

/-- Nothing has changed yet. -/
theorem Inv.keyed (h : Inv true z) : Keyed n p z z := ⟨h.within, fun _ _ => rfl⟩

/-- Other pages than the one with the key. -/
theorem Within.keyed (h : Within (fun q => q = 0 ∨ z.bseq ≤ q) z z') (hn : n ≤ z.bseq) :
    Keyed n p z z' := by
  refine ⟨h.mono fun q _ h0 hq => Or.inr (Nat.le_trans hn (hq.resolve_left h0)), fun h0 hlt => ?_⟩
  exact (h.same p hlt h0 fun hq => hq.elim h0 (Nat.not_le.mpr hlt)).bytes (by decide)

/-- The key is at the bytes 8 to 40 of the page. -/
theorem keyed_put {of : Nat} {bs : Bytes} (h : Inv true z) (hw : Writable true z p of bs)
    (hof : of + bs.length ≤ 8 ∨ 40 ≤ of) : Keeps (Keyed n p) (put p of bs) z fun _ _ => True := by
  refine Keeps.modify ⟨h.within_put hw (Or.inr (Or.inl rfl)), fun _ _ => ?_⟩ trivial
  exact Arch.bytes_put_ne hw.fits (by decide) fun _ => hof.symm

/-- A checksum changes no key. -/
theorem keyed_crcSet (h : Inv true z) (hp : p < z.bseq) :
    Keeps (Keyed n p) (shzCrcSet p) z fun _ _ => True := by
  refine Keeps.bind (keyed_put h (.before hp (by decide) (by decide)) (Or.inl (by decide)))
    fun _ z1 hs _ => ?_
  refine Keeps.bind_read ?_
  exact keyed_put hs.within.step.inv (.before
    (Nat.lt_of_lt_of_le hp hs.within.step.bseq) (by decide)
    (by show 4 + 2 ≤ 16; decide)) (Or.inl (by show 4 + 2 ≤ 8; decide))

/-- The clock changes no key. -/
theorem keyed_shtime (h : Inv true z) : Keeps (Keyed n p) (shtime env) z fun _ _ => True := by
  refine Keeps.bind_read ?_
  have hstep : Step true z { z with clocks := z.clocks + 1 } :=
    h.same rfl rfl rfl rfl h.dtable h.ftable
  have hkeyed : Keyed n p z { z with clocks := z.clocks + 1 } :=
    ⟨⟨hstep, (fun _ _ _ _ _ _ _ => rfl), rfl⟩, fun _ _ => rfl⟩
  refine Keeps.bind (Q := fun _ _ => True) (Keeps.modify hkeyed trivial) fun _ z1 hs _ => ?_
  exact Keeps.pure hs.within.step.inv.keyed trivial

/-- The index of a content is in new pages. -/
theorem keyed_indexWrite {raw : Bool} (h : Inv true z) (hn : n ≤ z.bseq) :
    Keeps (Keyed n p) (shzIndexWrite (writerOf env fuel raw) fuel data) z fun idx z' =>
      IndexAt z' idx := by
  have hindex : Keeps (Step true) (shzIndexWrite (writerOf env fuel raw) fuel data) z
      fun idx z' => IndexAt z' idx :=
    keeps_indexAddLoop (fun hz => keeps_writerOf hz) h (Or.inl rfl) h.pos (Or.inl rfl)
  have hrefs : (0 : Nat) ≠ 0 → (0 : Nat) ≠ 0 ∧ IndexPage z 0 [] 0 := fun h0 => absurd rfl h0
  intro r z' hrun
  have hw := (keeps_indexChain.2 h (fun _ => rfl) hrefs r z' hrun).1
  exact ⟨hw.keyed hn, (hindex r z' hrun).2⟩

/-- The content of a member is written: to new pages, and to the page that is handed over. -/
theorem keyed_modWrite (h : Inv true z) (hn : n ≤ z.bseq) :
    Keeps (Keyed n p) (shzModWrite env fuel p data) z fun _ _ => True := by
  refine Keeps.bind_read (Keeps.bind (keyed_indexWrite h hn) fun bnum z1 hs1 hidx => ?_)
  have h1 := hs1.within.step.inv
  by_cases hlt : p < z1.bseq
  · refine Keeps.of_ok (h1.page_some hlt) (fun _ hs => hs) ?_
    refine Keeps.bind (keyed_put h1 (.names hlt fun _ =>
      hidx.plain (h1.orderly rfl)) (Or.inr (by decide)))
      fun _ z2 hs2 _ => ?_
    have hw : ∀ {z : Arch} {of : Nat} {bs : Bytes}, p < z.bseq → 40 ≤ of → of + bs.length ≤ 80 →
        (of + bs.length ≤ 56 ∨ 60 ≤ of) → Writable true z p of bs := by
      intro z of bs hlt hof hend hseq
      refine ⟨hlt, by omega, Nat.le_trans hend (by decide), fun _ => Or.inr (by omega),
        fun _ _ => ?_⟩
      exact hseq.imp_right Or.inl
    have hlt2 := Nat.lt_of_lt_of_le hlt hs2.within.step.bseq
    refine Keeps.bind (keyed_put hs2.within.step.inv
      (hw hlt2 (by decide) (by rw [length_beBytes]; decide)
      (Or.inl (by rw [length_beBytes]; decide))) (Or.inr (by decide))) fun _ z3 hs3 _ => ?_
    have hlt3 := Nat.lt_of_lt_of_le hlt2 hs3.within.step.bseq
    refine Keeps.bind (keyed_put hs3.within.step.inv
      (hw hlt3 (by decide) (by show 44 + 4 ≤ 80; decide)
      (Or.inl (by show 44 + 4 ≤ 56; decide))) (Or.inr (by decide))) fun _ z4 hs4 _ => ?_
    have hlt4 := Nat.lt_of_lt_of_le hlt3 hs4.within.step.bseq
    refine Keeps.bind (keyed_shtime hs4.within.step.inv) fun now z5 hs5 _ => ?_
    have hlt5 := Nat.lt_of_lt_of_le hlt4 hs5.within.step.bseq
    refine Keeps.bind (keyed_put hs5.within.step.inv
      (hw hlt5 (by decide) (by show 72 + 8 ≤ 80; decide)
      (Or.inr (by decide))) (Or.inr (by decide))) fun _ z6 hs6 _ => ?_
    have hlt6 := Nat.lt_of_lt_of_le hlt5 hs6.within.step.bseq
    refine Keeps.bind (keyed_put hs6.within.step.inv
      (hw hlt6 (by decide) (by show 64 + 8 ≤ 80; decide)
      (Or.inr (by decide))) (Or.inr (by decide))) fun _ z7 hs7 _ => ?_
    have hlt7 := Nat.lt_of_lt_of_le hlt6 hs7.within.step.bseq
    have hsize : Keeps (Keyed n p) (put p 6 (beBytes 2 sizeofMod)) z7 fun _ _ => True :=
      keyed_put hs7.within.step.inv (.before hlt7 (by decide) (by decide)) (Or.inl (by decide))
    refine Keeps.of_ok (sizeSet_run (by decide) p z7) (fun _ hs => ?_) ?_
    · exact IsTrans.trans _ _ _ (hsize _ _ (put_run ..)).1 hs
    · exact keyed_crcSet (hsize _ _ (put_run ..)).1.within.step.inv hlt7
  · refine Keeps.of_ok (a := none) ?_ (fun _ hs => hs) (Keeps.fail h1.keyed)
    rw [h1.page, if_neg hlt]

/-! ## A new member -/

/-- The keys of the members that were there are as they were. -/
def KeysKept (z z' : Arch) : Prop := ∀ q, q ≠ 0 → IsPage z q pageFile → memberId z' q = memberId z q

/-- Where no file page may be changed the keys are kept. -/
theorem Within.keysKept {S : Nat → Prop} (h : Within S z z')
    (hS : ∀ q, S q → ¬ IsPage z q pageFile) :
    KeysKept z z' := fun q h0 hq => (h.same q hq.lt h0 fun hSq => hS q hSq hq).bytes (by decide)

/-- A raw write never fails with a status. -/
theorem not_fails_rawWrite (h : Inv b z) : ¬ Fails (shzRawWrite data) z := by
  unfold shzRawWrite
  rw [fails_bind]
  rintro (hnew | ⟨blk, z1, hnew, hrest⟩)
  · exact not_fails_pageNew h hnew
  obtain ⟨hblk, -⟩ := h.roomy.pageNew hnew
  cases hblk
  have hlen : 8 ≤ min (pageSize - sizeofData) data.length + sizeofData ∧
      min (pageSize - sizeofData) data.length + sizeofData ≤ pageSize := by
    unfold pageSize sizeofData
    omega
  simp only at hrest
  rw [fails_bind_ok (put_run ..), fails_bind_ok (sizeSet_run hlen ..),
    fails_bind_ok (crcSet_run ..)] at hrest
  exact not_fails_pure _ _ hrest

/-- A table page is no member. -/
theorem MapPage.not_file (h : MapPage z p) : ¬ IsPage z p pageFile := by
  intro hp
  rcases h.type with ht | ht
  · exact absurd (ht.symm.trans hp.type) (by decide)
  · exact absurd (ht.symm.trans hp.type) (by decide)

section Table

variable {sides' : Bool → List Nat} {key : ShKey}

/-- Where no page of the table may be changed the places for a key are the same. -/
theorem FileTable.probes_within {S : Nat → Prop} (ht : FileTable z root sides) (hw : Within S z z')
    (hS : ∀ q, TablePage root sides q → ¬ S q) (e : Bool) :
    ∀ i < hashMask, probes z' root sides e i = probes z root sides e i := by
  intro i hi
  refine List.map_congr_left fun q hq => ?_
  have hmap := ht.mapPage ⟨e, hq⟩
  exact (hw.same q hmap.lt hmap.ne (hS q ⟨e, hq⟩)).slotAt hi

/-- Pages of other kinds are written after the entry has been made. -/
theorem Entered.within {S : Nat → Prop} (h : Entered z z' root sides sides' key m)
    (hw : Within S z' z'')
    (hS : ∀ q, MapPage z' q → ¬ S q) : Entered z z'' root sides sides' key m := by
  have hS' : ∀ q, TablePage root sides' q → ¬ S q := fun q hq => hS q (h.table.mapPage hq)
  have hprobes := h.table.probes_within hw hS'
  refine ⟨h.table.within hw hS', h.slot, ?_, fun e i hi => ?_⟩
  · rw [hprobes _ _ (keySlot_lt key)]
    exact h.entry
  · rw [hprobes e i hi]
    exact h.grown e i hi

/-- Pages of other kinds are written before the entry is made. -/
theorem Entered.after {S : Nat → Prop} (ht : FileTable z root sides) (hw : Within S z z')
    (hS : ∀ q, MapPage z q → ¬ S q) (h : Entered z' z'' root sides sides' key m) :
    Entered z z'' root sides sides' key m := by
  have hprobes := ht.probes_within hw fun q hq => hS q (ht.mapPage hq)
  refine ⟨h.table, h.slot, ?_, fun e i hi => ?_⟩
  · rw [← hprobes _ _ (keySlot_lt key)]
    exact h.entry
  · rw [← hprobes e i hi]
    exact h.grown e i hi

/-- A page with a member's name and key. -/
theorem keyed_entity (key : ShKey) (ref : Nat) (h : Inv true z) (hm : m ≠ 0)
    (hpage : IsPage z m pageFile) :
    ∃ z', (do
        put m 60 (beBytes 4 ref)
        put m 8 key.toBytes
        shzCrcSet m
        pure m : ShzM Nat) z = some (.ok m, z') ∧
      Within (· = m) z z' ∧ memberId z' m = key.toBytes ∧ z'.bseq = z.bseq := by
  have hlt := hpage.lt
  have hlen : 8 + key.toBytes.length = 40 := by rw [length_toBytes]
  have hw1 : Within (· = m) z (z.put m 60 (beBytes 4 ref)) :=
    h.within_put (.clear hlt hm (by decide) (by rw [length_beBytes]; decide) (Or.inr (by decide)))
      (Or.inr rfl)
  have hw2 : Within (· = m) z ((z.put m 60 (beBytes 4 ref)).put m 8 key.toBytes) :=
    hw1.trans (hw1.step.inv.within_put
      (.clear hlt hm (by decide) (by rw [hlen]; decide) (Or.inl (by rw [hlen]; decide)))
        (Or.inr rfl))
  refine ⟨_, rfl, hw2.trans (hw2.step.inv.within_sealed hlt (Or.inr rfl)), ?_, rfl⟩
  have hread : ((z.put m 60 (beBytes 4 ref)).put m 8 key.toBytes).bytes m 8 key.toBytes.length =
      key.toBytes :=
    Arch.bytes_put
  rw [length_toBytes] at hread
  rw [memberId]
  exact (sealed_bytes (by decide) fun _ => Or.inr (by decide)).trans hread

/-- A new member gets the next page, and its entry and its key. -/
theorem entityNew_spec {r : Except Sherr Nat} (ht : FileTable z root sides) (h : Inv true z)
    (hrun : entityNew env fuel name pageFile z = some (r, z')) :
    r = .ok z.bseq ∧ Inv true z' ∧ IsPage z' z.bseq pageFile ∧
      memberId z' z.bseq = (shkeyBin env name).toBytes ∧ KeysKept z z' ∧
      ∃ sides', Entered z z' root sides sides' (shkeyBin env name) z.bseq := by
  unfold entityNew at hrun
  -- the four steps of `entityNew`: a page, the name behind it, the table, the key
  rcases bind_inv hrun with ⟨e, he, -⟩ | ⟨blk, z1, hnew, hrest⟩
  · exact absurd ⟨e, z', he⟩ (not_fails_pageNew h)
  obtain ⟨hblk, hw1, -, hpage1, -⟩ := pageNew_within h (by decide) hnew
  cases hblk
  simp only at hrest
  have hm : z.bseq ≠ 0 := Nat.ne_of_gt h.pos
  have h1 : Inv true z1 := (hw1 (S := fun _ => False)).step.inv
  have hle1 := (hw1 (S := fun _ => False)).step.bseq
  rcases bind_inv hrest with ⟨e, he, -⟩ | ⟨w, z2, hname, hrest⟩
  · exact absurd ⟨e, z', he⟩ (not_fails_rawWrite h1)
  have hw2 := (keeps_rawPage h1 _ _ hname).1
  have hw12 : Within (fun q => z.bseq ≤ q) z z2 :=
    hw1.trans (hw2.mono fun q _ _ hq => Nat.le_trans hle1 hq)
  have ht2 : FileTable z2 root sides := ht.within hw12 fun q hq => Nat.not_le.mpr (ht.mapPage hq).lt
  have hpage2 := hpage1.step hw2.step
  have hfresh : ∀ e, ∀ i < hashMask, some z.bseq ∉ probes z2 root sides e i := by
    intro e i hi hmem
    rw [ht.probes_within hw12 (fun q hq => Nat.not_le.mpr (ht.mapPage hq).lt) e i hi] at hmem
    obtain ⟨q, hq, hslot⟩ := mem_probes.mp hmem
    exact Nat.lt_irrefl _ (ht.members e i hi q hq _ hslot).lt
  have hset : Keeps (Step true) (shzFtableSet env fuel name z.bseq) z2 fun _ _ => True :=
    keeps_ftableSet hw2.step.inv (hpage2.plain (by decide))
  rcases bind_inv hrest with ⟨e, he, -⟩ | ⟨u, z3, htable, hrest⟩
  · obtain ⟨hok, -⟩ := ht2.ftableSet hw2.step.inv hm hpage2 hfresh he
    cases hok
  obtain ⟨-, z3', t, rfl, hw3, sides', hentered⟩ :=
    ht2.ftableSet hw2.step.inv hm hpage2 hfresh htable
  have hs3 := (hset _ _ htable).1
  have hpage3 := hpage2.step hs3
  rw [bind_ok (hs3.inv.page_some hpage3.lt)] at hrest
  simp only at hrest
  obtain ⟨z4, hrun4, hw4, hkey, -⟩ := keyed_entity (shkeyBin env name) w.1 hs3.inv hm hpage3
  rw [hrun4] at hrest
  cases hrest
  -- none of them writes into the key of another member
  have hnotmap : ∀ q, MapPage { z3' with ftable := t } q → ¬ q = z.bseq := by
    rintro q hq rfl
    exact hq.not_file hpage3
  have hkeys : KeysKept z z' := by
    intro q h0 hq
    have hq2 := hq.step hw12.step
    have hold : memberId z2 q = memberId z q :=
      hw12.keysKept (fun q hge hq => Nat.not_le.mpr hq.lt hge) q h0 hq
    have htable : memberId z3' q = memberId z2 q := by
      refine hw3.keysKept (fun q hS hq => ?_) q h0 hq2
      exact hS.elim (fun hp => (ht2.mapPage hp).not_file hq) (Nat.not_le.mpr hq.lt)
    have hlast := hw4.same q (hq2.step hs3).lt h0 (Nat.ne_of_lt hq.lt)
    exact (hlast.bytes (by decide)).trans (htable.trans hold)
  refine ⟨rfl, hw4.step.inv, hpage3.step hw4.step, hkey, hkeys, sides', ?_⟩
  exact (Entered.after ht hw12 (fun q hq => Nat.not_le.mpr hq.lt) hentered).within hw4 hnotmap

/-! ## Statuses of lookups -/

/-- What is at a place of the table is a file page. -/
theorem FileTable.probe_file (ht : FileTable z root sides) {e : Bool} {i : Nat} (hi : i < hashMask)
    (hq : some q ∈ probes z root sides e i) : q ≠ 0 ∧ IsPage z q pageFile := by
  obtain ⟨p, hp, hslot⟩ := mem_probes.mp hq
  exact ⟨(slotAt_eq_some.mp hslot).2, ht.members e i hi p hp q hslot⟩

/-- Where the keys are kept the same page is found. -/
theorem keysKept_find {k : Bytes} (ht : FileTable z root sides) (hkeys : KeysKept z z')
    {e : Bool} {i : Nat}
    (hi : i < hashMask) :
    probeFind (memberId z') k (probes z root sides e i) =
      probeFind (memberId z) k (probes z root sides e i) := by
  refine probeFind_congr fun q hq => ?_
  obtain ⟨h0, hfile⟩ := ht.probe_file hi hq
  exact hkeys q h0 hfile

/-- A table in which no entry has changed. -/
theorem FileTable.status_kept (ht : FileTable z root sides) (hkeys : KeysKept z z')
    (hprobes : ∀ e, ∀ i < hashMask, probes z' root sides e i = probes z root sides e i)
    (name : Bytes) :
    tableStatus env z' root sides name = tableStatus env z root sides name := by
  have hi := keySlot_lt (shkeyBin env name)
  have hfind : tableFind env z' root sides name = tableFind env z root sides name := by
    show probeFind _ _ (probes z' root sides _ _) = _
    rw [hprobes _ _ hi]
    exact keysKept_find ht hkeys hi
  unfold tableStatus
  rw [hfind]

/-- Different keys have different bytes. -/
theorem toBytes_ne {key key' : ShKey} (h : key ≠ key') : key.toBytes ≠ key'.toBytes := by
  intro heq
  apply h
  rw [← ofBytes_toBytes key, heq, ofBytes_toBytes]

/-- The entry of another key is looked up as before. -/
theorem Entered.status_ne {name' : Bytes} (h : Entered z z' root sides sides' key m)
    (ht : FileTable z root sides) (hkeys : KeysKept z z') (hm : memberId z' m = key.toBytes)
    (hne : key ≠ shkeyBin env name') :
    tableStatus env z' root sides' name' = tableStatus env z root sides name' := by
  have hi := keySlot_lt (shkeyBin env name')
  have hpacked := ht.packed (keySide (shkeyBin env name')) _ hi
  have hfind : tableFind env z' root sides' name' = tableFind env z root sides name' := by
    have hkept := keysKept_find (k := (shkeyBin env name').toBytes) ht hkeys
      (e := keySide (shkeyBin env name')) hi
    refine Eq.trans ?_ hkept
    show probeFind _ _ (probes z' root sides' _ _) = _
    rcases h.grown (keySide (shkeyBin env name')) _ hi with hg | ⟨free, hfree, hg⟩
    · rw [hg]
      refine probeFind_add_ne hpacked ?_
      rw [hm]
      exact toBytes_ne hne
    · rw [hg]
      exact probeFind_append hpacked hfree
  unfold tableStatus
  rw [hfind]

/-- The key that has been entered is found. -/
theorem Entered.status_eq {name' : Bytes}
    (h : Entered z z' root sides sides' (shkeyBin env name') m)
    (ht : FileTable z root sides) (hkeys : KeysKept z z')
    (hm : memberId z' m = (shkeyBin env name').toBytes)
    (hfree : tableFind env z root sides name' = none) :
    tableStatus env z' root sides' name' = .ok m := by
  have hfind : tableFind env z' root sides' name' = some m := by
    show probeFind _ _ (probes z' root sides' _ _) = _
    rw [h.entry]
    refine probeFind_add_self hm ?_
    rw [keysKept_find ht hkeys (keySlot_lt _)]
    exact hfree
  unfold tableStatus
  rw [if_neg h.slot, hfind]
  rfl

end Table

/-! ## Reading -/

/-- The status of reading a member: what is found is no zlib page. -/
def readError : Except Sherr Nat → Sherr
  | .error err => err
  | .ok _ => .opnotsupp

/-- No plain page is read as data. -/
theorem dataRead_run (h : Inv true z) (hp : Plain z n) :
    shzDataRead env fuel n z = some (.error .opnotsupp, z) := by
  unfold shzDataRead
  rw [bind_ok (h.page_some hp.lt)]
  simp only
  rw [bind_ok (read_run _ _), if_neg hp.type]
  rfl

/-- A member is read: its name is looked up, and that is all. -/
theorem FileTable.fileRead (ht : FileTable z root sides) (h : Inv true z) (env : Env) (name : Bytes)
    (fuel : Nat) :
    ∃ tree, FileTable { z with ftable := tree } root sides ∧
      (shzFileRead env fuel name z =
          some (.error (readError (tableStatus env z root sides name)), { z with ftable := tree }) ∨
        shzFileRead env fuel name z = none ∧ fuel ≤
          (sides (keySide (shkeyBin env name))).length + 1) := by
  obtain ⟨tree, htree, hrun⟩ := ht.ftableGet h env name fuel
  refine ⟨tree, htree, ?_⟩
  unfold shzFileRead
  rcases hrun with hrun | ⟨hrun, hle⟩
  · left
    have hget := keeps_ftableGet h _ _ hrun
    have h1 := hget.1.inv
    rcases hstatus : tableStatus env z root sides name with err | m
    · rw [hstatus] at hrun
      rw [bind_error hrun]
      rfl
    · rw [hstatus] at hrun hget
      obtain ⟨hlt, hmod⟩ := hget.2 m rfl
      rw [bind_ok hrun, bind_ok (h1.page_some hlt)]
      simp only
      rw [bind_ok (read_run _ _), bind_ok (read_run _ _),
        bind_error (dataRead_run h1 ((h1.orderly rfl).mods m hlt hmod))]
      rfl
  · exact Or.inr ⟨bind_none hrun, hle⟩

/-- A member is read with a result, by enough passes. -/
def ReadsAs (env : Env) (z : Arch) (name : Bytes) (r : Except Sherr Bytes) : Prop :=
  ∃ fuel z', shzFileRead env fuel name z = some (r, z')

/-- One pass more finds what was found. -/
theorem treeGet_extends {even : Bool} {hnum : Nat} {id : Bytes} : ∀ {fuel : Nat} {tree : Tree},
    Extends (shzTreeGet even hnum id fuel tree) (shzTreeGet even hnum id (fuel + 1) tree) := by
  intro fuel
  induction fuel with
  | zero => exact fun {_} => extends_undef _
  | succ fuel ih =>
    intro tree
    rcases tree with _ | ⟨seq, left, right⟩
    · exact .refl _
    refine .bind (.refl _) fun blk => ?_
    rcases blk with _ | p
    · exact .refl _
    refine .bind (.refl _) fun slot => ?_
    rcases slot with err | ref
    · exact .refl _
    refine .bind (.refl _) fun max => .bind (.refl _) fun refId => ?_
    rcases refId with err | refId
    · exact .refl _
    refine .ite (.refl _) (.bind (.refl _) fun moved => .bind (.refl _) fun child => ?_)
    exact .bind ih fun found => .refl _

/-- One pass more reads what was read. -/
theorem zlibBytes_extends : ∀ {fuel : Nat} {p : Option Nat} {buff : Bytes},
    Extends (zlibBytes fuel p buff) (zlibBytes (fuel + 1) p buff) := by
  intro fuel
  induction fuel with
  | zero => exact fun {_ _} => extends_undef _
  | succ fuel ih =>
    intro p buff
    rcases p with _ | p
    · exact .refl _
    refine .bind (.refl _) fun size => .ite (.refl _) (.bind (.refl _) fun part => ?_)
    refine .bind (.refl _) fun buff => .bind (.refl _) fun bnum => ?_
    exact .ite (.refl _) (.bind (.refl _) fun blk => ih)

/-- More passes do not change what is read. -/
theorem fileRead_extends :
    Extends (shzFileRead env fuel name) (shzFileRead env (fuel + 1) name) := by
  have hget : Extends (shzFtableGet env fuel name) (shzFtableGet env (fuel + 1) name) :=
    .bind (.refl _) fun tree => .ite (.refl _) (.bind treeGet_extends fun found => .refl _)
  have hdata : ∀ n, Extends (shzDataRead env fuel n) (shzDataRead env (fuel + 1) n) := by
    intro n
    refine .bind (.refl _) fun hdr => ?_
    rcases hdr with _ | p
    · exact .refl _
    refine .bind (.refl _) fun type => .ite (.bind (.refl _) fun blk => ?_) (.refl _)
    rcases blk with _ | p
    · exact .refl _
    refine .bind (.refl _) fun type =>
      .ite (.refl _) (.bind (.refl _) fun seq => .bind (.refl _) fun page => ?_)
    exact .bind zlibBytes_extends fun data => .refl _
  refine .bind hget fun bidx => .bind (.refl _) fun file => ?_
  rcases file with _ | p
  · exact .refl _
  exact .bind (.refl _) fun dNum => .bind (.refl _) fun max =>
    .bind (hdata dNum) fun buff => .refl _

/-- More passes do no harm. -/
theorem fileRead_mono {k : Nat} (h : fuel ≤ k) :
    Extends (shzFileRead env fuel name) (shzFileRead env k name) := by
  induction h with
  | refl => exact .refl _
  | step _ ih => exact fun s r hrun => fileRead_extends s r (ih s r hrun)

/-- A member is read with one result. -/
theorem ReadsAs.unique {r r' : Except Sherr Bytes} (h : ReadsAs env z name r)
    (h' : ReadsAs env z name r') :
    r = r' := by
  obtain ⟨fuel, z1, hrun⟩ := h
  obtain ⟨fuel', z2, hrun'⟩ := h'
  have hall := fileRead_mono (Nat.le_max_left fuel fuel') _ _ hrun
  have hall' := fileRead_mono (Nat.le_max_right fuel fuel') _ _ hrun'
  exact (Prod.mk.inj (Option.some.inj (hall.symm.trans hall'))).1

/-- What a read of a name comes to is the status of the table. -/
theorem FileTable.readsAs (ht : FileTable z root sides) (h : Inv true z) (env : Env) (name : Bytes)
    (r : Except Sherr Bytes) :
    ReadsAs env z name r ↔ r = .error (readError (tableStatus env z root sides name)) := by
  constructor
  · rintro ⟨fuel, z', hrun⟩
    obtain ⟨tree, -, hread | ⟨hread, -⟩⟩ := ht.fileRead h env name fuel
    · rw [hread] at hrun
      cases hrun
      rfl
    · rw [hread] at hrun
      cases hrun
  · rintro rfl
    obtain ⟨tree, -, hread | ⟨-, hle⟩⟩ := ht.fileRead h env name
      ((sides (keySide (shkeyBin env name))).length + 2)
    · exact ⟨_, _, hread⟩
    · exact absurd hle (by omega)

/-! ## Writing -/

/-- The content of a member is written to a page that is none of a table. -/
theorem FileTable.modWrite {r : Except Sherr Unit} (ht : FileTable z root sides) (h : Inv true z)
    (hp : ¬ MapPage z p) (hrun : shzModWrite env fuel p data z = some (r, z')) :
    Inv true z' ∧ KeysKept z z' ∧ FileTable z' root sides ∧
      ∀ e, ∀ i < hashMask, probes z' root sides e i = probes z root sides e i := by
  have hk := (keyed_modWrite h (Nat.le_refl _) _ _ hrun).1
  have hS : ∀ q, TablePage root sides q → ¬ (q = p ∨ z.bseq ≤ q) := by
    rintro q hq (rfl | hge)
    · exact hp (ht.mapPage hq)
    · exact Nat.not_le.mpr (ht.mapPage hq).lt hge
  refine ⟨hk.within.step.inv, fun q h0 hq =>
    ?_, ht.within hk.within hS, ht.probes_within hk.within hS⟩
  by_cases hqp : q = p
  · rw [hqp] at h0 hq ⊢
    exact hk.key h0 hq.lt
  · refine (hk.within.same q hq.lt h0 ?_).bytes (by decide)
    exact fun hS => hS.elim hqp (Nat.not_le.mpr hq.lt)

/-- A new name is written. -/
theorem fileWrite_new {err : Sherr} {r : Except Sherr Unit} (ht : FileTable z root sides)
    (h : Inv true z)
    (hnew : tableStatus env z root sides name = .error err)
    (hrun : shzFileWrite env fuel bidx name data z = some (r, z')) :
    Inv true z' ∧ KeysKept z z' ∧ ∃ sides' m, Entered z z' root sides sides' (shkeyBin env name) m ∧
      memberId z' m = (shkeyBin env name).toBytes := by
  obtain ⟨tree, htree, hget⟩ := ht.ftableGet h env name fuel
  rcases hget with hget | ⟨hget, -⟩
  · rw [hnew] at hget
    have h1 : Inv true { z with ftable := tree } := (keeps_ftableGet h _ _ hget).1.inv
    have hentity : shzEntityGet env fuel bidx name pageFile z =
        entityNew env fuel name pageFile { z with ftable := tree } := bind_ok (attempt_run hget)
    rcases bind_inv hrun with ⟨e, he, -⟩ | ⟨m, z2, he, hmod⟩
    · rw [hentity] at he
      cases (entityNew_spec htree h1 he).1
    rw [hentity] at he
    obtain ⟨hok, h2, hpage, hkey, hkeys, sides', hentered⟩ := entityNew_spec htree h1 he
    cases hok
    have hnotmap : ¬ MapPage z2 z.bseq := fun hmap => hmap.not_file hpage
    have hkeyed := (keyed_modWrite h2 (Nat.le_refl _) _ _ hmod).1
    obtain ⟨h3, hkeys2, -⟩ := hentered.table.modWrite h2 hnotmap hmod
    have hwritten := hentered.within hkeyed.within fun q hq hS => by
      rcases hS with rfl | hge
      · exact hnotmap hq
      · exact Nat.not_le.mpr hq.lt hge
    refine ⟨h3, fun q h0 hq => ?_, sides', z.bseq, ?_, ?_⟩
    · have hq1 : IsPage { z with ftable := tree } q pageFile := ⟨hq.lt, hq.type⟩
      have hq2 : IsPage z2 q pageFile := hq1.step (keeps_entityNew h1 _ _ he).1
      exact (hkeys2 q h0 hq2).trans (hkeys q h0 hq1)
    · exact ⟨hwritten.table, hwritten.slot, hwritten.entry, hwritten.grown⟩
    · exact (hkeyed.key (Nat.ne_of_gt h.pos) hpage.lt).trans hkey
  · have hentity : shzEntityGet env fuel bidx name pageFile z = none :=
      bind_none (by rw [attempt, hget])
    have hundef : shzFileWrite env fuel bidx name data z = none := bind_none hentity
    rw [hundef] at hrun
    cases hrun

/-- A name that is in the table is written: to a page that is none of a table. -/
theorem fileWrite_again {found : Nat} {r : Except Sherr Unit} (ht : FileTable z root sides)
    (h : Inv true z)
    (hfound : tableStatus env z root sides name = .ok found) (hp : ¬ MapPage z bidx)
    (hrun : shzFileWrite env fuel bidx name data z = some (r, z')) :
    Inv true z' ∧ KeysKept z z' ∧ FileTable z' root sides ∧
      ∀ e, ∀ i < hashMask, probes z' root sides e i = probes z root sides e i := by
  obtain ⟨tree, htree, hget⟩ := ht.ftableGet h env name fuel
  rcases hget with hget | ⟨hget, -⟩
  · rw [hfound] at hget
    have h1 : Inv true { z with ftable := tree } := (keeps_ftableGet h _ _ hget).1.inv
    have hentity : shzEntityGet env fuel bidx name pageFile z =
        some (.ok bidx, { z with ftable := tree }) :=
      bind_ok (attempt_run hget)
    have hmod : shzModWrite env fuel bidx data { z with ftable := tree } = some (r, z') :=
      (bind_ok hentity).symm.trans hrun
    obtain ⟨h2, hkeys, htable, hprobes⟩ :=
      htree.modWrite h1 (fun hmap => hp ⟨hmap.ne, hmap.lt, hmap.type⟩) hmod
    exact ⟨h2, fun q h0 hq => hkeys q h0 ⟨hq.lt, hq.type⟩, htable, hprobes⟩
  · have hentity : shzEntityGet env fuel bidx name pageFile z = none :=
      bind_none (by rw [attempt, hget])
    have hundef : shzFileWrite env fuel bidx name data z = none := bind_none hentity
    rw [hundef] at hrun
    cases hrun

/-! ## Fresh archives -/

/-- The file table that the base page names. -/
def ftableAt (z : Arch) : Nat := z.fld 0 60 4

/-- A table that has been made, in the next page. -/
theorem tableNew_run {of : Nat} {r : Except Sherr Tree} (h : Inv b z)
    (hrun : tableNew of z = some (r, z')) :
    r = .ok (.node z.bseq .nil .nil) ∧ ∃ z1, shzPageNew pageRoot z = some (.ok (some z.bseq), z1) ∧
      z' = ((z1.put 0 of (beBytes 4 z.bseq)).put z.bseq 6 (beBytes 2 sizeofData)).sealed
        z.bseq := by
  unfold tableNew at hrun
  rcases bind_inv hrun with ⟨e, he, -⟩ | ⟨blk, z1, hnew, hrest⟩
  · exact absurd ⟨e, z', he⟩ (not_fails_pageNew h)
  obtain ⟨hblk, -⟩ := h.roomy.pageNew hnew
  cases hblk
  simp only at hrest
  rw [bind_ok (put_run ..), bind_ok (sizeSet_run (by decide) ..), bind_ok (crcSet_run ..)] at hrest
  cases hrest
  exact ⟨rfl, z1, hnew, rfl⟩

/-- Making the other table leaves the file table named. -/
theorem tableNew_ftableAt {r : Except Sherr Tree} (h : Inv b z)
    (hrun : tableNew 56 z = some (r, z')) :
    ftableAt z' = ftableAt z := by
  obtain ⟨-, z1, hnew, rfl⟩ := tableNew_run h hrun
  obtain ⟨-, -, dataOf, max, -, -, rfl⟩ := h.roomy.pageNew hnew
  have hne : (0 : Nat) ≠ z.bseq := Nat.ne_of_lt h.pos
  unfold ftableAt
  rw [sealed_fld (by decide) fun heq => absurd heq hne,
    Arch.fld_put_ne (by rw [length_beBytes]; decide) (by decide) fun heq => absurd heq hne,
    Arch.fld_put_ne (by rw [length_beBytes]; decide) (by decide) fun _ =>
      Or.inr (by rw [length_beBytes]),
    newPage_fld (by decide) (fun _ => by decide) fun _ => Or.inr (by decide)]
  rfl

/-- A file table that has been made is empty. -/
theorem ftableNew_table {r : Except Sherr Tree} (h : Inv true z)
    (hrun : tableNew 60 z = some (r, z')) :
    ∃ tree, r = .ok tree ∧ FileTable { z' with ftable := tree } z.bseq (fun _ => []) ∧
      ∀ i < hashMask, slotAt z' i z.bseq = none := by
  obtain ⟨rfl, z1, hnew, rfl⟩ := tableNew_run h hrun
  have h0 : z.bseq ≠ 0 := Nat.ne_of_gt h.pos
  obtain ⟨-, -, hnext, hpage, hzero⟩ := pageNew_within h (by decide) hnew
  obtain ⟨z2, hz2⟩ : ∃ z2, z2 =
    ((z1.put 0 60 (beBytes 4 z.bseq)).put z.bseq 6 (beBytes 2 sizeofData)).sealed z.bseq := ⟨_, rfl⟩
  have hlt : z.bseq < z2.bseq := by
    rw [hz2]
    exact hpage.lt
  -- what follows writes only the header of the page
  have hfld : ∀ of n, of + n ≤ 2 ∨ 8 ≤ of → of + n ≤ pageSize →
      z2.fld z.bseq of n = z1.fld z.bseq of n := by
    intro of n hapart hend
    rw [hz2, sealed_fld hend fun _ => by omega,
      Arch.fld_put_ne (by rw [length_beBytes]; decide) hend fun _ => by rw [length_beBytes]; omega,
      Arch.fld_put_ne (by rw [length_beBytes]; decide) hend fun heq => absurd heq h0]
  have htype : shzPageType z2 z.bseq = pageRoot :=
    (hfld 0 2 (Or.inl (Nat.le_refl _)) (by decide)).trans hpage.type
  have hchild : ∀ e, z2.fld z.bseq (childOf e) 4 = 0 := by
    intro e
    have hof := childOf_le e
    rw [hfld _ 4 (Or.inr hof.1) (childOf_fits e), hzero _ 4 (by omega) (childOf_fits e)]
  have hnone : ∀ i < hashMask, slotAt z2 i z.bseq = none := by
    intro i hi
    have hseg := segOf_slot hi
    rw [slotAt_eq_none, hfld _ 4 (Or.inr (by omega)) hseg.2, hzero _ 4 (by omega) hseg.2]
  rw [← hz2]
  refine ⟨_, rfl, ⟨⟨rfl, h0, trivial, trivial⟩, rfl, ⟨h0, hlt, Or.inl htype⟩, hchild,
    fun _ => List.nodup_singleton _, (fun _ hq => nomatch hq), (fun _ _ hq => nomatch hq),
    fun e i hi q hq m hm => ?_, fun e i hi => .free fun x hx => ?_⟩, hnone⟩
  · rw [List.mem_singleton.mp hq] at hm
    exact nomatch (hnone i hi).symm.trans hm
  · exact (List.mem_singleton.mp hx).trans (hnone i hi)

/-- A write to the front of the base page leaves the reference to the table. -/
theorem ftableAt_put {of : Nat} {bs : Bytes} (hend : of + bs.length ≤ 60) :
    ftableAt (z.put 0 of bs) = ftableAt z :=
  Arch.fld_put_ne (Nat.le_trans hend (by decide)) (by decide) fun _ => Or.inr hend

theorem shtime_run (env : Env) (z : Arch) :
    shtime env z = some (.ok (env.clock z.clocks), { z with clocks := z.clocks + 1 }) := rfl

/-- A fresh base page names no file table. -/
theorem baseInit_ftableAt {salt : UInt16} {r : Except Sherr Unit} (h : Bare true z)
    (hrun : baseInit env salt z = some (r, z')) : ftableAt z' = 0 := by
  unfold baseInit at hrun
  rw [bind_ok (modify_run _ _)] at hrun
  have hbare : Bare true { z with bseq := 0, live := 0 } :=
    ⟨rfl, rfl, h.dtable, h.ftable, h.handed, h.room, h.zero⟩
  rcases bind_inv hrun with ⟨e, hnew, -⟩ | ⟨blk, z1, hnew, hrest⟩
  · cases (hbare.roomy.pageNew hnew).1
  obtain ⟨hblk, -, dataOf, max, -, -, rfl⟩ := hbare.roomy.pageNew hnew
  cases hblk
  have hzero : ftableAt (Arch.regrow { z with bseq := 0, live := 0 } dataOf max) = 0 :=
    beAt_zero fun i _ _ => h.zero rfl i
  have hpage : ftableAt (newPage pageBase
      (Arch.regrow { z with bseq := 0, live := 0 } dataOf max)) = 0 := by
    rw [← hzero]
    exact newPage_fld (by decide) (fun _ => by decide) fun _ => Or.inr (by decide)
  generalize newPage pageBase (Arch.regrow { z with bseq := 0, live := 0 } dataOf max) =
    z1 at hrest hpage
  simp only at hrest
  rw [bind_ok (put_run ..), bind_ok (put_run ..), bind_ok (put_run ..), bind_ok (put_run ..),
    bind_ok (shtime_run ..), bind_ok (put_run ..), bind_ok (put_run ..),
      sizeSet_run (by decide)] at hrest
  cases hrest
  have hclock : ∀ (z : Arch) (n : Nat), ftableAt { z with clocks := n } = ftableAt z :=
    fun _ _ => rfl
  rw [ftableAt_put (by rw [length_beBytes]; decide), ftableAt_put (by show 40 + 8 ≤ 60; decide),
    ftableAt_put (by show 48 + 8 ≤ 60; decide), hclock,
      ftableAt_put (by rw [length_beBytes]; decide),
    ftableAt_put (by rw [length_beBytes]; decide), ftableAt_put (by rw [length_beBytes]; decide),
    ftableAt_put (by decide), hpage]

/-- The tables of an archive whose base page names none: the file table is empty. -/
theorem tablesInit_table (h : Inv true z) (hzero : ftableAt z = 0)
    (hrun : tablesInit z = some (.ok (), z')) :
    ∃ root, FileTable z' root (fun _ => []) ∧ ∀ i < hashMask, slotAt z' i root = none := by
  unfold tablesInit at hrun
  rcases bind_inv hrun with ⟨e, -, he⟩ | ⟨dtable, z1, hd, hrest⟩
  · cases he
  obtain ⟨hs1, hproper⟩ := keeps_tableInit h (Or.inl rfl) _ _ hd
  have hzero1 : ftableAt z1 = 0 := by
    unfold tableInit at hd
    rw [bind_ok (read_run _ _)] at hd
    split at hd
    · by_cases hlt : z.fld 0 56 4 < z.bseq
      · rw [bind_ok (h.page_some hlt)] at hd
        cases hd
        exact hzero
      · have hnone := h.page (z.fld 0 56 4)
        rw [if_neg hlt] at hnone
        rw [bind_ok hnone] at hd
        rw [tableNew_ftableAt h hd, hzero]
    · rw [tableNew_ftableAt h hd, hzero]
  rw [bind_ok (modify_run _ _)] at hrest
  have hset : Step true z1 { z1 with dtable := dtable } :=
    hs1.inv.same rfl rfl rfl rfl (hproper dtable rfl) hs1.inv.ftable
  have hzero2 : Arch.fld { z1 with dtable := dtable } 0 60 4 = 0 := hzero1
  rcases bind_inv hrest with ⟨e, -, he⟩ | ⟨ftable, z2, hf, hend⟩
  · cases he
  unfold tableInit at hf
  rw [bind_ok (read_run _ _), if_neg (not_not.mpr hzero2)] at hf
  obtain ⟨tree, hok, htable, hnone⟩ := ftableNew_table hset.inv hf
  cases hok
  cases hend
  exact ⟨_, htable, hnone⟩

/-- A fresh archive, in a buffer that is zero, has an empty file table. -/
theorem archInit_table {buf : Shbuf} {clocks : Nat} {salt : UInt16} {flags : UInt32}
    (hzero : ∀ i, buf.data i = 0) (hfresh : initFlags buf flags &&& flagFresh ≠ 0)
    (hrun : shzArchInit env salt flags (.blank buf clocks []) = some (.ok (), z)) :
    ∃ root, FileTable z root (fun _ => []) ∧ ∀ i < hashMask, slotAt z i root = none := by
  obtain ⟨buf', hopen, -, hinit⟩ := archInit_run env salt flags buf clocks []
  rw [hinit] at hrun
  have hbare : Bare true (.blank buf' clocks []) :=
    ⟨rfl, rfl, rfl, rfl, List.forall_mem_nil _, hopen.room, fun _ => hopen.zero hzero⟩
  have hbase : baseOpen env salt (initFlags buf flags) = baseInit env salt := if_pos hfresh
  rw [hbase] at hrun
  rcases bind_inv hrun with ⟨e, -, he⟩ | ⟨u, z1, hbase1, hrest⟩
  · cases he
  rcases bind_inv hrest with ⟨e, -, he⟩ | ⟨u', z2, htables, hend⟩
  · cases he
  obtain ⟨root, ht, hnone⟩ :=
    tablesInit_table (baseInit_inv hbare hbase1) (baseInit_ftableAt hbare hbase1) htables
  cases hend
  have hset : FileTable { z2 with flags := initFlags buf flags } root fun _ => [] :=
    ht.frame (fun _ _ _ _ _ => rfl) (fun _ hq => ⟨hq.ne, hq.lt, hq.type⟩) (fun _ hm =>
      ⟨hm.lt, hm.type⟩)
      (ht.tree.congr fun _ _ _ => rfl) ht.nil
  exact ⟨root, hset, hnone⟩

/-! ## Runs -/

/-- A write of a name that is in the table, to the page that the caller has made up, hits no page
of a table. -/
def HitsNoTable (env : Env) (fuel bidx : Nat) (name : Bytes) (z : Arch) : Prop :=
  ∀ found z1, shzFtableGet env fuel name z = some (.ok found, z1) → ¬ MapPage z bidx

/-- The archives of one session: a fresh one, in a buffer that is zero, and what is reached from it
by writing and reading members. Both may fail. -/
inductive Session (env : Env) : Arch → Prop
  | fresh {buf : Shbuf} {clocks : Nat} {salt : UInt16} {flags : UInt32} {z : Arch} :
      (∀ i, buf.data i = 0) → initFlags buf flags &&& flagFresh ≠ 0 →
      shzArchInit env salt flags (.blank buf clocks []) = some (.ok (), z) → Session env z
  | write {fuel bidx : Nat} {name data : Bytes} {z z' : Arch} {r : Except Sherr Unit} :
      Session env z →
      HitsNoTable env fuel bidx name z → shzFileWrite env fuel bidx name data z = some (r, z') →
        Session env z'
  | read {fuel : Nat} {name : Bytes} {z z' : Arch} {r : Except Sherr Bytes} : Session env z →
      shzFileRead env fuel name z = some (r, z') → Session env z'

/-- What is looked up, and no more than is there. -/
theorem FileTable.found_iff (ht : FileTable z root sides) (h : Inv true z) {found : Nat}
    (hrun : ∃ z1, shzFtableGet env fuel name z = some (.ok found, z1)) :
    tableStatus env z root sides name = .ok found := by
  obtain ⟨z1, hrun⟩ := hrun
  obtain ⟨tree, -, hget | ⟨hget, -⟩⟩ := ht.ftableGet h env name fuel
  · rw [hget] at hrun
    exact (Prod.mk.inj (Option.some.inj hrun)).1
  · rw [hget] at hrun
    cases hrun

/-- A member is written, with a status or another. -/
theorem fileWrite_cases {r : Except Sherr Unit} (ht : FileTable z root sides) (h : Inv true z)
    (hhit : HitsNoTable env fuel bidx name z)
    (hrun : shzFileWrite env fuel bidx name data z = some (r, z')) :
    Inv true z' ∧ KeysKept z z' ∧
      ((∃ found z1, shzFtableGet env fuel name z = some (.ok found, z1)) ∧ FileTable z' root sides ∧
          (∀ e, ∀ i < hashMask, probes z' root sides e i = probes z root sides e i) ∨
        (∃ err, tableStatus env z root sides name = .error err) ∧
          ∃ sides' m, Entered z z' root sides sides' (shkeyBin env name) m ∧
            memberId z' m = (shkeyBin env name).toBytes) := by
  rcases hstatus : tableStatus env z root sides name with err | found
  · obtain ⟨h', hkeys, hnew⟩ := fileWrite_new ht h hstatus hrun
    exact ⟨h', hkeys, Or.inr ⟨⟨err, rfl⟩, hnew⟩⟩
  · obtain ⟨tree, -, hget | ⟨hget, -⟩⟩ := ht.ftableGet h env name fuel
    · rw [hstatus] at hget
      obtain ⟨h', hkeys, ht', hprobes⟩ := fileWrite_again ht h hstatus (hhit _ _ hget) hrun
      exact ⟨h', hkeys, Or.inl ⟨⟨found, _, hget⟩, ht', hprobes⟩⟩
    · have hentity : shzEntityGet env fuel bidx name pageFile z = none :=
        bind_none (by rw [attempt, hget])
      have hundef : shzFileWrite env fuel bidx name data z = none := bind_none hentity
      rw [hundef] at hrun
      cases hrun

/-- An archive of one session is sound and has a file table. -/
theorem Session.table (h : Session env z) : Inv true z ∧ ∃ root sides, FileTable z root sides := by
  induction h with
  | fresh hzero hfresh hrun =>
    obtain ⟨root, ht, -⟩ := archInit_table hzero hfresh hrun
    exact ⟨archInit_fresh (List.forall_mem_nil _) hfresh (fun _ => hzero) hrun, root, _, ht⟩
  | write _ hhit hrun ih =>
    obtain ⟨h, root, sides, ht⟩ := ih
    obtain ⟨h', -, ⟨-, ht', -⟩ | ⟨-, sides', m, hentered, -⟩⟩ := fileWrite_cases ht h hhit hrun
    · exact ⟨h', root, sides, ht'⟩
    · exact ⟨h', root, sides', hentered.table⟩
  | @read fuel name _ _ _ _ hrun ih =>
    obtain ⟨h, root, sides, ht⟩ := ih
    refine ⟨(keeps_fileRead h _ _ hrun).1.inv, root, sides, ?_⟩
    obtain ⟨tree, ht', hread | ⟨hread, -⟩⟩ := ht.fileRead h env name fuel
    · rw [hread] at hrun
      cases hrun
      exact ht'
    · rw [hread] at hrun
      cases hrun

/-- What is read of a name after another one has been written is what was read before, unless
the other one is new and has the same key. -/
theorem read_unchanged_iff {name' : Bytes} {r : Except Sherr Unit} (h : Session env z)
    (hhit : HitsNoTable env fuel bidx name z)
    (hwrite : shzFileWrite env fuel bidx name data z = some (r, z')) :
    (∀ s, ReadsAs env z' name' s ↔ ReadsAs env z name' s) ↔
      (∃ found z1, shzFtableGet env fuel name z = some (.ok found, z1)) ∨
        shkeyBin env name ≠ shkeyBin env name' := by
  obtain ⟨hinv, root, sides, ht⟩ := h.table
  have hreads := fun s => ht.readsAs hinv env name' s
  obtain ⟨hinv', hkeys, ⟨hfound, ht', hprobes⟩ | ⟨⟨err, herr⟩, sides', m, hentered, hm⟩⟩ :=
    fileWrite_cases ht hinv hhit hwrite
  · refine iff_of_true (fun s => ?_) (Or.inl hfound)
    rw [hreads, ht'.readsAs hinv', ht.status_kept hkeys hprobes]
  · have hnot : ¬ ∃ found z1, shzFtableGet env fuel name z = some (.ok found, z1) := by
      rintro ⟨found, hget⟩
      rw [ht.found_iff hinv hget] at herr
      cases herr
    rw [or_iff_right hnot]
    constructor
    · -- a new name with the same key: what was not there is found, and is no zlib page
      intro hsame heq
      have hslot : keySlot (shkeyBin env name') ≠ 0 := heq ▸ hentered.slot
      have hfree : tableFind env z root sides name' = none := by
        have hname : tableStatus env z root sides name' = .error err := by
          rw [← herr]
          unfold tableStatus tableFind
          rw [heq]
        rw [tableStatus, if_neg hslot] at hname
        rcases hfind : tableFind env z root sides name' with _ | found
        · rfl
        · rw [hfind] at hname
          cases hname
      have hbefore : tableStatus env z root sides name' = .error .noent := by
        rw [tableStatus, if_neg hslot, hfree]
        rfl
      rw [heq] at hentered hm
      have hafter := hentered.status_eq ht hkeys hm hfree
      have hread := (hsame (.error .noent)).mpr ((hreads _).mpr (by rw [hbefore]; rfl))
      rw [hentered.table.readsAs hinv' env name', hafter] at hread
      cases hread
    · intro hne s
      rw [hreads, hentered.table.readsAs hinv', hentered.status_ne ht hkeys hm hne]

/-- The page number zero hits no page of a table. -/
theorem hitsNoTable_zero : HitsNoTable env fuel 0 name z := fun _ _ _ hmap => hmap.ne rfl

/-- A member "b" and then a member "a". -/
theorem read_unchanged_iff_two : ∃ z z', Session plainEnv z ∧
    shzFileWrite plainEnv 5 0 [97] [1, 2, 3] z = some (.ok (), z') ∧
    ∀ s, ReadsAs plainEnv z' [98] s ↔ ReadsAs plainEnv z [98] s := by
  have hrun : Succeeds (do
      shzArchInit plainEnv 1 0
      shzFileWrite plainEnv 5 0 [98] [7]
      shzFileWrite plainEnv 5 0 [97] [1, 2, 3] : ShzM Unit) (.blank shbufInit 0 []) := by
    decide +kernel
  obtain ⟨_, z1, hinit, hrest⟩ := succeeds_bind.mp hrun
  obtain ⟨_, z2, hfirst, _, z3, hsecond⟩ := succeeds_bind.mp hrest
  have hfresh : Session plainEnv z1 := .fresh (fun _ => rfl) (by decide) hinit
  have hz : Session plainEnv z2 := .write hfresh hitsNoTable_zero hfirst
  have hkeys : shkeyBin plainEnv [97] ≠ shkeyBin plainEnv [98] := by decide
  exact ⟨z2, z3, hz, hsecond, (read_unchanged_iff hz hitsNoTable_zero hsecond).mpr (Or.inr hkeys)⟩

/-- Reading ends with a status. -/
def readsError (env : Env) (fuel : Nat) (name : Bytes) (err : Sherr) (z : Arch) : Bool :=
  match shzFileRead env fuel name z with
  | some (.error e, _) => decide (e = err)
  | _ => false

/-- A read with a status is what it comes to. -/
theorem readsAs_error {err : Sherr} (h : readsError env fuel name err z = true) :
    ReadsAs env z name (.error err) := by
  unfold readsError at h
  split at h
  · next e z' hrun =>
    rw [of_decide_eq_true h] at hrun
    exact ⟨fuel, z', hrun⟩
  · cases h

/-- An archive that has a member "a" is opened again, and a member "b" with another key is written:
the member "a" is not found any more. -/
theorem reopened_write_hides : ∃ t z z', ShzRuns plainEnv (.closed shbufInit 0 []) t (.opened z) ∧
    shzFileWrite plainEnv 5 0 [98] [4] z = some (.ok (), z') ∧
    ¬ ∀ s, ReadsAs plainEnv z' [97] s ↔ ReadsAs plainEnv z [97] s := by
  have hrun : Succeeds (do
      shzArchInit plainEnv 1 0
      shzFileWrite plainEnv 5 0 [97] [1, 2, 3]
      Prog.modify fun z => .blank (shzArchFree z) z.clocks z.handed
      shzArchInit plainEnv 1 0
      let before ← Prog.read (readsError plainEnv 5 [97] .opnotsupp)
      shzFileWrite plainEnv 5 0 [98] [4]
      let after ← Prog.read (readsError plainEnv 5 [97] .noent)
      if before && after then pure () else Prog.fail .io : ShzM Unit) (.blank shbufInit 0 []) := by
    decide +kernel
  obtain ⟨_, z1, hinit, hrest1⟩ := succeeds_bind.mp hrun
  obtain ⟨_, z2, hwrite, hrest2⟩ := succeeds_bind.mp hrest1
  obtain ⟨_, z3, hfree, hrest3⟩ := succeeds_bind.mp hrest2
  cases hfree
  obtain ⟨_, z4, hagain, hrest4⟩ := succeeds_bind.mp hrest3
  rw [succeeds_bind_read] at hrest4
  obtain ⟨_, z5, hwrite2, hrest5⟩ := succeeds_bind.mp hrest4
  rw [succeeds_bind_read] at hrest5
  split at hrest5
  · next hboth =>
    obtain ⟨hbefore, hafter⟩ := Bool.and_eq_true_iff.mp hboth
    refine ⟨_, z4, z5, .step (.step (.step (.step .start (.init hinit)) (.write hwrite)) .free)
      (.init hagain), hwrite2, fun hsame => ?_⟩
    have hnoent := (hsame _).mp (readsAs_error hafter)
    cases hnoent.unique (readsAs_error hbefore)
  · exact absurd hrest5 (not_succeeds_fail _ _)

end LibShare.Shz
