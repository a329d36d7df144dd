import LibShare.Shz.Table

/-!
# libshare — SHZ archives: the file table

`FileTable z root sides` says that the pages of an archive hold a file table, and that the
part of it that is in memory is the one of the pages. Its two sides have the root page in
common and nothing else.

A name is looked up in the probe sequence of its key (`FileTable.ftableGet`), and a new
one is entered there (`FileTable.ftableSet`), which adds nothing else to any other
sequence (`Entered`).
-/

namespace LibShare.Shz

open Mem Prog

variable {b even : Bool} {z z' : Arch} {env : Env} {p q m hnum : Nat}

/-! ## The table -/

/-- A file table in the pages of an archive, with the branch pages of its two sides. -/
structure FileTable (z : Arch) (root : Nat) (sides : Bool → List Nat) : Prop where
  tree : z.ftable.At z root
  nil : z.ftable.isNil = false
  page : MapPage z root
  below : ∀ e, Side z e (z.fld root (childOf e) 4) (sides e)
  nodup : ∀ e, (root :: sides e).Nodup
  apart : ∀ q ∈ sides true, q ∉ sides false
  back : ∀ e, ∀ q ∈ sides e, z.fld q (childOf (!e)) 4 = 0
  members : ∀ e, ∀ h < hashMask, Members z h (root :: sides e)
  packed : ∀ e, ∀ h < hashMask, Packed ((root :: sides e).map (slotAt z h))

section FileTable

variable {root : Nat} {sides : Bool → List Nat}

theorem FileTable.side (h : FileTable z root sides) (e : Bool) : Side z e root (root :: sides e) :=
  ⟨rfl, h.page, h.below e⟩

/-- The pages of a table. -/
def TablePage (root : Nat) (sides : Bool → List Nat) (q : Nat) : Prop := ∃ e, q ∈ root :: sides e

theorem FileTable.mapPage (h : FileTable z root sides) (hq : TablePage root sides q) :
    MapPage z q := by
  obtain ⟨e, hq⟩ := hq
  exact (h.side e).mapPage q hq

/-- The nodes that are in memory stand for pages of the table. -/
theorem FileTable.seqs (h : FileTable z root sides) :
    ∀ s ∈ z.ftable.seqs, TablePage root sides s := by
  have htree := h.tree
  have hnil := h.nil
  generalize z.ftable = tree at htree hnil
  rcases tree with _ | ⟨seq, left, right⟩
  · cases hnil
  obtain ⟨rfl, -, hleft, hright⟩ := htree
  intro s hs
  rcases List.mem_cons.mp hs with rfl | hs
  · exact ⟨true, List.mem_cons_self⟩
  rcases List.mem_append.mp hs with hs | hs
  · exact ⟨true, List.mem_cons_of_mem _ (hleft.seqs_side (h.below true) (h.back true) s hs)⟩
  · exact ⟨false, List.mem_cons_of_mem _ (hright.seqs_side (h.below false) (h.back false) s hs)⟩

/-- The nodes on the other side of the root. -/
theorem FileTable.otherSeqs (h : FileTable z root sides) (e : Bool) :
    ∀ s ∈ (z.ftable.child (!e)).seqs, s ∉ root :: sides e ∧ s ≠ 0 ∧ s < z.bseq := by
  have htree := h.tree
  have hnil := h.nil
  generalize z.ftable = tree at htree hnil
  rcases tree with _ | ⟨seq, left, right⟩
  · cases hnil
  obtain rfl := htree.1
  intro s hs
  have hmem : s ∈ sides (!e) := (htree.child (!e)).seqs_side (h.below (!e)) (h.back (!e)) s hs
  have hmap := h.mapPage ⟨!e, List.mem_cons_of_mem _ hmem⟩
  refine ⟨fun hs' => ?_, hmap.ne, hmap.lt⟩
  rcases List.mem_cons.mp hs' with rfl | hs'
  · exact (List.nodup_cons.mp (h.nodup (!e))).1 hmem
  · rcases e with _ | _
    · exact h.apart s hmem hs'
    · exact h.apart s hs' hmem

/-- A table whose pages are as they were, with what has been loaded of it. -/
theorem FileTable.frame (h : FileTable z root sides)
    (hsame : ∀ q, TablePage root sides q → Same z z' q)
    (hmap : ∀ q, MapPage z q → MapPage z' q)
    (hfile : ∀ m, IsPage z m pageFile → IsPage z' m pageFile)
    (htree : z'.ftable.At z' root) (hnil : z'.ftable.isNil = false) : FileTable z' root sides := by
  have hslot : ∀ e, ∀ i < hashMask, ∀ q ∈ root :: sides e, slotAt z' i q = slotAt z i q :=
    fun e i hi q hq => (hsame q ⟨e, hq⟩).slotAt hi
  refine ⟨htree, hnil, hmap root h.page, fun e => ?_, h.nodup, h.apart, fun e q hq => ?_,
    fun e i hi q hq m hm => ?_, fun e i hi => ?_⟩
  · exact ((h.side e).congr hmap fun q hq => (hsame q ⟨e, hq⟩).fld (childOf_fits e)).2.2
  · rw [(hsame q ⟨e, List.mem_cons_of_mem _ hq⟩).fld (childOf_fits _)]
    exact h.back e q hq
  · rw [hslot e i hi q hq] at hm
    exact hfile m (h.members e i hi q hq m hm)
  · rw [List.map_congr_left (hslot e i hi)]
    exact h.packed e i hi

/-- Writing other pages does not change the table. -/
theorem FileTable.within {S : Nat → Prop} (h : FileTable z root sides) (hw : Within S z z')
    (hS : ∀ q, TablePage root sides q → ¬ S q) : FileTable z' root sides := by
  have hsame : ∀ q, TablePage root sides q → Same z z' q := fun q hq =>
    hw.same q (h.mapPage hq).lt (h.mapPage hq).ne (hS q hq)
  refine h.frame hsame (fun q hq => hq.within hw) (fun m hm => hm.step hw.step) ?_ ?_
  · rw [hw.ftable]
    exact h.tree.congr fun s hs e => (hsame s (h.seqs s hs)).fld (childOf_fits e)
  · rw [hw.ftable]
    exact h.nil

/-- More of the table has been loaded. -/
theorem FileTable.load {tree : Tree} (h : FileTable z root sides) (htree : tree.At z root)
    (hnil : tree.isNil = false) : FileTable { z with ftable := tree } root sides :=
  h.frame (fun _ _ _ _ _ => rfl) (fun _ hq => ⟨hq.ne, hq.lt, hq.type⟩) (fun _ hm =>
    ⟨hm.lt, hm.type⟩)
    (htree.congr fun _ _ _ => rfl) hnil

/-- The entry of a name. -/
def tableFind (env : Env) (z : Arch) (root : Nat) (sides : Bool → List Nat) (name : Bytes) :
    Option Nat :=
  probeFind (memberId z) (shkeyBin env name).toBytes
    ((root :: sides (keySide (shkeyBin env name))).map (slotAt z (keySlot (shkeyBin env name))))

/-- The status of looking up a name: the key of a name may have no slot. -/
def tableStatus (env : Env) (z : Arch) (root : Nat) (sides : Bool → List Nat) (name : Bytes) :
    Except Sherr Nat :=
  if keySlot (shkeyBin env name) = 0 then
    .error .inval else lookedUp (tableFind env z root sides name)

theorem keySlot_lt (key : ShKey) : keySlot key < hashMask := Nat.mod_lt _ (by decide)

/-- A name is looked up. -/
theorem FileTable.ftableGet (ht : FileTable z root sides) (h : Inv b z) (env : Env) (name : Bytes)
    (fuel : Nat) :
    ∃ tree, FileTable { z with ftable := tree } root sides ∧
      (shzFtableGet env fuel name z = some (tableStatus env z root sides name,
        { z with ftable := tree }) ∨
        shzFtableGet env fuel name z = none ∧
          fuel ≤ (sides (keySide (shkeyBin env name))).length + 1) := by
  have hmask := keySlot_lt (shkeyBin env name)
  generalize hkey : shkeyBin env name = key at *
  have hget : ∃ tree, tree.At z root ∧ tree.isNil = false ∧
      (shzTreeGet (keySide key) (keySlot key) key.toBytes fuel z.ftable z =
          some (.ok (tree, tableStatus env z root sides name), z) ∨
        shzTreeGet (keySide key) (keySlot key) key.toBytes fuel z.ftable z = none ∧
          fuel ≤ (sides (keySide key)).length + 1) := by
    unfold tableStatus tableFind
    rw [hkey]
    have hroot : root ≠ 0 := ht.tree.ne ht.nil
    by_cases h0 : keySlot key = 0
    · rw [if_pos h0]
      refine ⟨z.ftable, ht.tree, ht.nil, ?_⟩
      rcases fuel with _ | fuel
      · exact Or.inr ⟨rfl, Nat.zero_le _⟩
      · have hlt := ((ht.side true).mapPage root List.mem_cons_self).lt
        exact Or.inl (treeGet_invalid h (by omega) ht.tree ht.nil hlt)
    · rw [if_neg h0]
      obtain ⟨tree, hat, hnil, hrun⟩ := treeGet_run key.toBytes h ⟨Nat.pos_of_ne_zero h0, hmask⟩
        ht.tree (iff_of_false (by rw [ht.nil]; exact Bool.false_ne_true) hroot)
          (ht.side (keySide key))
        (ht.members _ _ hmask)
      exact ⟨tree, hat, hnil.trans ht.nil, hrun⟩
  obtain ⟨tree, hat, hnil, hrun⟩ := hget
  refine ⟨tree, ht.load hat hnil, ?_⟩
  unfold shzFtableGet
  rw [bind_ok (read_run _ _), ht.nil, if_neg Bool.false_ne_true, hkey]
  rcases hrun with hrun | ⟨hrun, hle⟩
  · left
    rw [bind_ok hrun, bind_ok (modify_run _ _)]
    rcases tableStatus env z root sides name with err | m <;> rfl
  · exact Or.inr ⟨bind_none hrun, hle⟩

/-! ## Entering a name -/

/-- The probe sequence of a slot on a side. -/
def probes (z : Arch) (root : Nat) (sides : Bool → List Nat) (e : Bool) (i : Nat) :
    List (Option Nat) :=
  (root :: sides e).map (slotAt z i)

/-- A member has been entered for a key: its own probe sequence has it, and nothing else has been
added to any other. -/
structure Entered (z z' : Arch) (root : Nat) (sides sides' : Bool → List Nat)
    (key : ShKey) (m : Nat) :
    Prop where
  table : FileTable z' root sides'
  slot : keySlot key ≠ 0
  entry : probes z' root sides' (keySide key) (keySlot key) =
    probeAdd m (probes z root sides (keySide key) (keySlot key))
  grown : ∀ e, ∀ i < hashMask, probes z' root sides' e i = probeAdd m (probes z root sides e i) ∨
    ∃ free, (∀ x ∈ free, x = none) ∧ probes z' root sides' e i = probes z root sides e i ++ free

/-- The branch pages of the sides, where one of them has new ones. -/
def sidesAdd (sides : Bool → List Nat) (even : Bool) (ns : List Nat) (e : Bool) : List Nat :=
  if e = even then sides even ++ ns else sides e

section Enter

variable {ref : Nat} {ns : List Nat} {t : Tree}

/-- The pages of the other side are as they were. -/
theorem FileTable.other_same (ht : FileTable z root sides)
    (hw : Within (fun q => q ∈ root :: sides even ∨ z.bseq ≤ q) z z') {e : Bool} (he : e ≠ even) :
    ∀ q ∈ sides e, Same z z' q := by
  intro q hq
  have hmap := ht.mapPage ⟨e, List.mem_cons_of_mem _ hq⟩
  refine hw.same q hmap.lt hmap.ne ?_
  rintro (hmem | hge)
  · rcases List.mem_cons.mp hmem with rfl | hmem
    · exact (List.nodup_cons.mp (ht.nodup e)).1 hq
    · rcases e with _ | _ <;> rcases even with _ | _
      · exact he rfl
      · exact ht.apart q hmem hq
      · exact ht.apart q hq hmem
      · exact he rfl
  · exact absurd hmap.lt (Nat.not_lt.mpr hge)

theorem Added.probes_other (ht : FileTable z root sides)
    (hw : Within (fun q => q ∈ root :: sides even ∨ z.bseq ≤ q) z z')
    (ha : Added z z' even hnum ref root (root :: sides even) ns t) {e : Bool} (he : e ≠ even) :
    ∀ i < hashMask, probes z' root (sidesAdd sides even ns) e i =
      probeAdd ref (probes z root sides e i) ∨
      probes z' root (sidesAdd sides even ns) e i = probes z root sides e i := by
  intro i hi
  have hrest : (sides e).map (slotAt z' i) = (sides e).map (slotAt z i) :=
    List.map_congr_left fun q hq => (ht.other_same hw he q hq).slotAt hi
  have hsides : sidesAdd sides even ns e = sides e := if_neg he
  unfold probes
  rw [hsides, List.map_cons, List.map_cons, hrest]
  by_cases hne : i = hnum
  · -- the root has the slot of both sides
    subst hne
    have hadded := ha.added
    rw [List.cons_append, List.map_cons, List.map_cons] at hadded
    rcases hs : slotAt z i root with _ | m
    · rw [hs] at hadded
      rw [(List.cons.inj hadded).1]
      exact Or.inl rfl
    · rw [hs] at hadded
      rw [(List.cons.inj hadded).1]
      exact Or.inr rfl
  · have hold := (ha.others i hi hne).1
    rw [List.map_cons, List.map_cons] at hold
    rw [(List.cons.inj hold).1]
    exact Or.inr rfl

theorem Added.grown (ht : FileTable z root sides)
    (hw : Within (fun q => q ∈ root :: sides even ∨ z.bseq ≤ q) z z')
    (ha : Added z z' even hnum ref root (root :: sides even) ns t) (e : Bool) :
    ∀ i < hashMask, probes z' root (sidesAdd sides even ns) e i =
      probeAdd ref (probes z root sides e i) ∨
      ∃ free, (∀ x ∈ free, x = none) ∧
        probes z' root (sidesAdd sides even ns) e i = probes z root sides e i ++ free := by
  intro i hi
  by_cases he : e = even
  · subst he
    have hsides : root :: sidesAdd sides e ns e = root :: sides e ++ ns :=
      congrArg (root :: ·) (if_pos rfl)
    unfold probes
    rw [hsides]
    by_cases hne : i = hnum
    · rw [hne]
      exact Or.inl ha.added
    · obtain ⟨hold, hnew⟩ := ha.others i hi hne
      rw [List.map_append, hold]
      refine Or.inr ⟨_, ?_, rfl⟩
      intro x hx
      obtain ⟨n, hn, rfl⟩ := List.mem_map.mp hx
      exact hnew n hn
  · refine (ha.probes_other ht hw he i hi).imp id fun heq => ⟨[], (fun _ hx => nomatch hx), ?_⟩
    rw [heq, List.append_nil]

theorem mem_probes {e : Bool} {i : Nat} :
    some m ∈ probes z root sides e i ↔ ∃ q ∈ root :: sides e, slotAt z i q = some m := by
  unfold probes
  rw [List.mem_map]

/-- The table with the new entry. -/
theorem Added.table (ht : FileTable z root sides)
    (hw : Within (fun q => q ∈ root :: sides even ∨ z.bseq ≤ q) z z')
    (ha : Added z z' even hnum ref root (root :: sides even) ns t) (href : IsPage z ref pageFile) :
    FileTable { z' with ftable := t } root (sidesAdd sides even ns) := by
  have hlt : ∀ {e q}, q ∈ root :: sides e → q < z.bseq := fun hq => (ht.mapPage ⟨_, hq⟩).lt
  have hfile : ∀ {m}, IsPage z m pageFile → IsPage z' m pageFile := fun hm => hm.step hw.step
  -- what answers for an index now is a file page: the one added, or one that did before
  have hentry : ∀ e, ∀ i < hashMask, ∀ m, some m ∈ probes z' root (sidesAdd sides even ns) e i →
      IsPage z' m pageFile := by
    intro e i hi m hm
    have hold : ∀ {m}, some m ∈ probes z root sides e i → IsPage z' m pageFile := by
      intro m hm
      obtain ⟨q, hq, hslot⟩ := mem_probes.mp hm
      exact hfile (ht.members e i hi q hq m hslot)
    rcases ha.grown ht hw e i hi with hg | ⟨free, hfree, hg⟩
    · rw [hg] at hm
      rcases mem_probeAdd hm with heq | hm
      · cases heq
        exact hfile href
      · exact hold hm
    · rw [hg] at hm
      rcases List.mem_append.mp hm with hm | hm
      · exact hold hm
      · cases hfree _ hm
  refine ⟨ha.tree.congr fun _ _ _ => rfl, ha.nil, ?_, fun e => ?_, fun e =>
    ?_, ?_, fun e q hq => ?_, fun e i hi q hq m hm => ?_, fun e i hi => ?_⟩
  · have hroot := ht.page.within hw
    exact ⟨hroot.ne, hroot.lt, hroot.type⟩
  · have hside : Side z' e (z'.fld root (childOf e) 4) (sidesAdd sides even ns e) := by
      by_cases he : e = even
      · subst he
        have hown : sidesAdd sides e ns e = sides e ++ ns := if_pos rfl
        rw [hown]
        exact ha.side.2.2
      · have hback : z'.fld root (childOf e) 4 = z.fld root (childOf e) 4 := by
          rw [Bool.eq_not_of_ne he]
          exact ha.back root List.mem_cons_self
        have hkept : sidesAdd sides even ns e = sides e := if_neg he
        rw [hkept, hback]
        exact (ht.below e).congr (fun q hq => hq.within hw) fun q hq =>
          (ht.other_same hw he q hq).fld (childOf_fits e)
    have hmap : ∀ q, MapPage z' q → MapPage { z' with ftable := t } q :=
      fun q hq => ⟨hq.ne, hq.lt, hq.type⟩
    exact hside.congr hmap fun _ _ => rfl
  · -- the new pages lie behind all that were there
    by_cases he : e = even
    · subst he
      have hown : root :: sidesAdd sides e ns e = root :: sides e ++ ns :=
        congrArg (root :: ·) (if_pos rfl)
      rw [hown, List.nodup_append]
      exact ⟨ht.nodup e, ha.nodup, fun q hq n hn =>
        Nat.ne_of_lt (Nat.lt_of_lt_of_le (hlt hq) (ha.new n hn))⟩
    · have hkept : sidesAdd sides even ns e = sides e := if_neg he
      rw [hkept]
      exact ht.nodup e
  · -- no page is on both sides
    have hnew : ∀ {e}, ∀ q ∈ sides e, q ∉ ns := fun q hq hn =>
      absurd (hlt (List.mem_cons_of_mem _ hq)) (Nat.not_lt.mpr (ha.new q hn))
    rcases even with _ | _
    · intro q hq hmem
      rcases List.mem_append.mp hmem with hmem | hmem
      · exact ht.apart q hq hmem
      · exact hnew q hq hmem
    · intro q hq hmem
      rcases List.mem_append.mp hq with hq | hq
      · exact ht.apart q hq hmem
      · exact hnew q hmem hq
  · -- no page of a side has a child on the other one
    show z'.fld q (childOf (!e)) 4 = 0
    by_cases he : e = even
    · subst he
      have hown : sidesAdd sides e ns e = sides e ++ ns := if_pos rfl
      rw [hown] at hq
      rcases List.mem_append.mp hq with hq | hq
      · rw [ha.back q (List.mem_cons_of_mem _ hq)]
        exact ht.back e q hq
      · exact ha.backNew q hq
    · have hkept : sidesAdd sides even ns e = sides e := if_neg he
      rw [hkept] at hq
      rw [(ht.other_same hw he q hq).fld (childOf_fits _)]
      exact ht.back e q hq
  · have hm' := hentry e i hi m (mem_probes.mpr ⟨q, hq, hm⟩)
    exact ⟨hm'.lt, hm'.type⟩
  · show Packed (probes z' root (sidesAdd sides even ns) e i)
    rcases ha.grown ht hw e i hi with hg | ⟨free, hfree, hg⟩
    · rw [hg]
      exact (ht.packed e i hi).add
    · rw [hg]
      exact (ht.packed e i hi).append hfree

/-- A name is entered in the table, which never fails: a key without a slot is not entered. -/
theorem FileTable.ftableSet {name : Bytes} {fuel : Nat} {r : Except Sherr Unit}
    (ht : FileTable z root sides) (h : Inv true z) (hm : m ≠ 0) (hpage : IsPage z m pageFile)
    (hnew : ∀ e, ∀ i < hashMask, some m ∉ probes z root sides e i)
    (hrun : shzFtableSet env fuel name m z = some (r, z')) :
    r = .ok () ∧ ∃ z1 t, z' = { z1 with ftable := t } ∧
      Within (fun q => TablePage root sides q ∨ z.bseq ≤ q) z z1 ∧
      ∃ sides', Entered z z' root sides sides' (shkeyBin env name) m := by
  have hmask := keySlot_lt (shkeyBin env name)
  obtain ⟨side, hside⟩ : ∃ side, keySide (shkeyBin env name) = side := ⟨_, rfl⟩
  have hadd : Keeps (Within fun q => q ∈ root :: sides side ∨ z.bseq ≤ q)
      (shzTreeAdd side (keySlot (shkeyBin env name)) m fuel z.ftable) z fun r z' =>
        r.2 = .ok () ∧ ∃ ns, Added z z' side (keySlot (shkeyBin env name)) m root
          (root :: sides side) ns r.1 :=
    keeps_treeAddSide ⟨hm, Nat.lt_of_lt_of_le hpage.lt (Nat.le_trans h.le (by decide))⟩ hmask h
      ht.tree ht.nil
      (ht.side side) (ht.nodup side) (fun q hq heq => hnew _ _ hmask (mem_probes.mpr ⟨q, hq, heq⟩))
      (ht.back side) (ht.otherSeqs side)
  unfold shzFtableSet at hrun
  rw [bind_ok (read_run _ _), ht.nil, if_neg Bool.false_ne_true, hside] at hrun
  rcases bind_inv hrun with ⟨e, he, -⟩ | ⟨added, z1, hrun1, hrest⟩
  · exact absurd ⟨e, z', he⟩ not_fails_treeAdd
  · obtain ⟨hw, hval⟩ := hadd _ _ hrun1
    obtain ⟨hok, ns, hadded⟩ := hval added rfl
    rw [bind_ok (modify_run _ _), hok] at hrest
    cases hrest
    refine ⟨rfl, z1, added.1, rfl, hw.mono fun q _ _ hq => hq.imp_left fun hmem => ⟨side, hmem⟩, ?_⟩
    refine ⟨sidesAdd sides side ns, hadded.table ht hw hpage, Nat.ne_of_gt hadded.slot.1, ?_, ?_⟩
    · have hown : root :: sidesAdd sides side ns side = root :: sides side ++ ns :=
        congrArg (root :: ·) (if_pos rfl)
      have hentry := hadded.added
      rw [← hown] at hentry
      rw [hside]
      exact hentry
    · have hgrown := hadded.grown ht hw
      exact hgrown

end Enter

end FileTable

end LibShare.Shz
