import LibShare.Lib.Probe
import LibShare.Shz.Content

/-!
# libshare — SHZ archives: table trees

A table of an archive is a root page with a chain of branch pages on each side
(`Side`), of which a part is in memory (`Tree.At`). A key chooses the side and a
slot, and the pages of the side are tried in order for that slot: a probe sequence.

`shz_tree_get` looks a key up in the probe sequence of its slot (`treeGet_run`), and
`shz_tree_add` adds an entry to it (`keeps_treeAddSide`), on a new page where the slot is
taken on all of them (`Added`).
-/

namespace LibShare.Shz

open Mem Prog

variable {b even : Bool} {z z' : Arch} {env : Env} {p q m hnum : Nat}

/-! ## Map pages -/

/-- A page of a table. -/
structure MapPage (z : Arch) (p : Nat) : Prop where
  ne : p ≠ 0
  lt : p < z.bseq
  type : shzPageType z p = pageRoot ∨ shzPageType z p = pageBranch

/-- The page that a slot of a map page names. -/
def slotAt (z : Arch) (hnum p : Nat) : Option Nat :=
  if z.fld p (segOf hnum) 4 = 0 then none else some (z.fld p (segOf hnum) 4)

/-- The key in a module page. -/
def memberId (z : Arch) (m : Nat) : Bytes := z.bytes m 8 32

/-- The map pages on one side of a table, from a page on. -/
def Side (z : Arch) (even : Bool) : Nat → List Nat → Prop
  | p, [] => p = 0
  | p, q :: qs => p = q ∧ MapPage z q ∧ Side z even (z.fld q (childOf even) 4) qs

/-- A tree in memory whose root stands for a page. -/
def Tree.At (z : Arch) : Nat → Tree → Prop
  | _, .nil => True
  | p, .node seq left right => seq = p ∧ p ≠ 0 ∧ left.At z (z.fld p 12 4) ∧ right.At z (z.fld p 8 4)

/-- A slot that is taken holds its reference, which is not zero. -/
theorem slotAt_eq_some : slotAt z hnum p = some m ↔ z.fld p (segOf hnum) 4 = m ∧ m ≠ 0 := by
  unfold slotAt
  split
  · next h0 =>
    refine ⟨(fun h => nomatch h), ?_⟩
    rintro ⟨rfl, hne⟩
    exact absurd h0 hne
  · next hne =>
    rw [Option.some.injEq]
    refine ⟨?_, And.left⟩
    rintro rfl
    exact ⟨rfl, hne⟩

/-- A slot is free just when its reference is zero. -/
theorem slotAt_eq_none : slotAt z hnum p = none ↔ z.fld p (segOf hnum) 4 = 0 := by
  unfold slotAt
  split
  · next h0 => exact iff_of_true rfl h0
  · next hne => exact iff_of_false (fun h => nomatch h) hne

/-- Nothing hangs off a reference that is zero. -/
theorem Side.nil_of_zero {ps : List Nat} (h : Side z even 0 ps) : ps = [] := by
  match ps, h with
  | [], _ => rfl
  | _ :: _, ⟨rfl, hq, _⟩ => exact absurd rfl hq.ne

/-- Off any other reference hang a map page and what it refers to. -/
theorem Side.cons_of_ne {ps : List Nat} (h : Side z even p ps) (hp : p ≠ 0) :
    ∃ qs, ps = p :: qs ∧ MapPage z p ∧ Side z even (z.fld p (childOf even) 4) qs := by
  match ps, h with
  | [], h => exact absurd h hp
  | _ :: qs, ⟨rfl, hq, hqs⟩ => exact ⟨qs, rfl, hq, hqs⟩

/-- All pages of a side are map pages. -/
theorem Side.mapPage : ∀ {ps : List Nat} {p : Nat}, Side z even p ps → ∀ q ∈ ps, MapPage z q := by
  intro ps
  induction ps with
  | nil => exact fun _ _ hq => nomatch hq
  | cons q qs ih =>
    rintro p ⟨-, hmap, hqs⟩
    rw [List.forall_mem_cons]
    exact ⟨hmap, ih hqs⟩

/-! ## Trees in memory -/

/-- A child of the tree is where the page refers to. -/
theorem Tree.At.child {seq : Nat} {left right : Tree} (h : (Tree.node seq left right).At z p)
    (even : Bool) :
    ((Tree.node seq left right).child even).At z (z.fld p (childOf even) 4) := by
  rcases even with _ | _
  · exact h.2.2.2
  · exact h.2.2.1

/-- A tree whose child is replaced is where it was. -/
theorem Tree.At.setChild {seq : Nat} {left right child : Tree}
    (h : (Tree.node seq left right).At z p)
    (hc : child.At z (z.fld p (childOf even) 4)) :
    (Tree.setChild even child (.node seq left right)).At z p := by
  obtain ⟨hseq, hp, hleft, hright⟩ := h
  rcases even with _ | _
  · exact ⟨hseq, hp, hleft, hc⟩
  · exact ⟨hseq, hp, hc, hright⟩

theorem Tree.isNil_setChild (child tree : Tree) :
    (Tree.setChild even child tree).isNil = tree.isNil := by
  rcases tree with _ | ⟨seq, left, right⟩
  · rfl
  · rcases even with _ | _ <;> rfl

/-- A tree that is there is not at the page zero. -/
theorem Tree.At.ne {tree : Tree} (h : tree.At z p) (hnil : tree.isNil = false) : p ≠ 0 := by
  rcases tree with _ | ⟨seq, left, right⟩
  · cases hnil
  · exact h.2.1

/-- The child that a lookup goes to stands for the page that the map page names. -/
theorem getChild_run {seq : Nat} {left right : Tree} (h : (Tree.node seq left right).At z p)
    (even : Bool) :
    ∃ child, getChild even (.node seq left right) p false z = some (.ok child, z) ∧
      child.At z (z.fld p (childOf even) 4) ∧ (child.isNil = true ↔
        z.fld p (childOf even) 4 = 0) := by
  have hchild := h.child even
  unfold getChild
  rcases hnil : ((Tree.node seq left right).child even).isNil with _ | _
  · refine ⟨_, rfl, hchild, ?_⟩
    rw [hnil]
    exact iff_of_false Bool.false_ne_true (hchild.ne hnil)
  · rw [if_pos rfl, if_neg Bool.false_ne_true, bind_ok (read_run _ _), pure_run]
    by_cases h0 : z.fld p (childOf even) 4 = 0
    · rw [if_pos h0]
      exact ⟨_, rfl, trivial, iff_of_true rfl h0⟩
    · rw [if_neg h0]
      exact ⟨_, rfl, ⟨rfl, h0, trivial, trivial⟩, iff_of_false Bool.false_ne_true h0⟩

/-! ## Looking up -/

/-- The status of a lookup. -/
def lookedUp : Option Nat → Except Sherr Nat
  | none => .error .noent
  | some m => .ok m

/-- The entries of a side for a slot are members. -/
def Members (z : Arch) (hnum : Nat) (ps : List Nat) : Prop :=
  ∀ q ∈ ps, ∀ m, slotAt z hnum q = some m → IsPage z m pageFile

/-- A lookup in a map page gives what is in the slot. -/
theorem mapGet_run (hslot : 0 < hnum ∧ hnum < hashMask) (p : Nat) (z : Arch) :
    shzMapGet p hnum z = some (lookedUp (slotAt z hnum p), z) := by
  unfold shzMapGet
  rw [if_neg (by omega), bind_ok (read_run _ _)]
  rcases hs : slotAt z hnum p with _ | m
  · rw [if_pos (slotAt_eq_none.mp hs)]
    rfl
  · obtain ⟨rfl, hne⟩ := slotAt_eq_some.mp hs
    rw [if_neg hne]
    rfl

/-- The id of a member page is read. -/
theorem modId_run (h : Inv b z) (hm : IsPage z m pageFile) :
    shzModId m z = some (.ok (memberId z m), z) := by
  unfold shzModId
  rw [bind_ok (h.page_some hm.lt)]
  simp only
  rw [bind_ok (read_run _ _), hm.type, if_pos (by decide)]
  rfl

/-- A key is looked up in the probe sequence of its slot, by more passes than there are pages. -/
theorem treeGet_run (id : Bytes) (h : Inv b z) (hslot : 0 < hnum ∧ hnum < hashMask) :
    ∀ {fuel p : Nat} {tree : Tree} {ps : List Nat}, tree.At z p → (tree.isNil = true ↔ p = 0) →
      Side z even p ps → Members z hnum ps →
      ∃ tree', tree'.At z p ∧ tree'.isNil = tree.isNil ∧
        (shzTreeGet even hnum id fuel tree z = some (.ok (tree',
            lookedUp (probeFind (memberId z) id (ps.map (slotAt z hnum)))), z) ∨
          shzTreeGet even hnum id fuel tree z = none ∧ fuel ≤ ps.length) := by
  intro fuel
  induction fuel with
  | zero => exact fun {p tree ps} htree _ _ _ => ⟨tree, htree, rfl, Or.inr ⟨rfl, Nat.zero_le _⟩⟩
  | succ fuel ih =>
    intro p tree ps htree hnil hside hmem
    rcases tree with _ | ⟨seq, left, right⟩
    · rw [hnil.mp rfl] at hside
      rw [hside.nil_of_zero]
      exact ⟨.nil, trivial, rfl, Or.inl rfl⟩
    have hat := htree
    obtain ⟨rfl, hp, -⟩ := hat
    obtain ⟨qs, rfl, hmap, hrest⟩ := hside.cons_of_ne hp
    rw [shzTreeGet, bind_ok (h.page_some hmap.lt)]
    simp only
    rw [bind_ok (attempt_run (mapGet_run hslot seq z)), List.map_cons]
    rcases hs : slotAt z hnum seq with _ | m
    · exact ⟨_, htree, rfl, Or.inl rfl⟩
    have hm := hmem seq List.mem_cons_self m hs
    simp only [lookedUp, probeFind]
    rw [bind_ok (read_run _ _), bind_ok (attempt_run (modId_run h hm))]
    simp only
    by_cases hid : memberId z m = id
    · rw [if_pos hid, if_pos hid]
      exact ⟨_, htree, rfl, Or.inl rfl⟩
    rw [if_neg hid, if_neg hid, bind_ok (read_run _ _), decide_eq_false (fun hne => hne rfl)]
    obtain ⟨child, hget, hat, hchild⟩ := getChild_run htree even
    rw [bind_ok hget]
    obtain ⟨child', hat', -, hrun⟩ :=
      ih hat hchild hrest fun q hq => hmem q (List.mem_cons_of_mem _ hq)
    rcases hrun with hrun | ⟨hrun, hle⟩
    · rw [bind_ok hrun]
      exact ⟨_, htree.setChild hat', Tree.isNil_setChild _ _, Or.inl rfl⟩
    · rw [bind_none hrun]
      exact ⟨_, htree, rfl, Or.inr ⟨rfl, Nat.succ_le_succ hle⟩⟩

/-- A key without a slot is not looked for. -/
theorem treeGet_invalid {id : Bytes} {fuel : Nat} {tree : Tree} (h : Inv b z)
    (hslot : ¬ (0 < hnum ∧ hnum < hashMask)) (htree : tree.At z p) (hnil : tree.isNil = false)
    (hp : p < z.bseq) :
    shzTreeGet even hnum id (fuel + 1) tree z = some (.ok (tree, .error .inval), z) := by
  rcases tree with _ | ⟨seq, left, right⟩
  · cases hnil
  obtain ⟨rfl, -⟩ := htree
  have hget : shzMapGet seq hnum z = some (.error .inval, z) := by
    unfold shzMapGet
    rw [if_pos (by omega)]
    rfl
  rw [shzTreeGet, bind_ok (h.page_some hp)]
  simp only
  rw [bind_ok (attempt_run hget)]
  rfl

/-! ## Adding -/

/-- Every slot lies within the page and behind its header. -/
theorem segOf_slot (hslot : hnum < hashMask) : 16 ≤ segOf hnum ∧ segOf hnum + 4 ≤ pageSize := by
  unfold segOf hashMask pageSize at *
  omega

/-- A page that is the same has the same slots. -/
theorem Same.slotAt (h : Same z z' q) (hslot : hnum < hashMask) :
    slotAt z' hnum q = slotAt z hnum q := by
  unfold Shz.slotAt
  rw [h.fld (segOf_slot hslot).2]

/-- A map page stays one. -/
theorem MapPage.within {S : Nat → Prop} (h : MapPage z p) (hw : Within S z z') : MapPage z' p :=
  ⟨h.ne, Nat.lt_of_lt_of_le h.lt hw.step.bseq, by rw [hw.step.type p h.lt]; exact h.type⟩

/-- The references of a branch lie within the page. -/
theorem childOf_fits (even : Bool) : childOf even + 4 ≤ pageSize := by
  rcases even with _ | _ <;> decide

/-- A side whose pages name the same pages. -/
theorem Side.congr (hmap : ∀ q, MapPage z q → MapPage z' q) : ∀ {ps : List Nat} {p : Nat},
    Side z even p ps → (∀ q ∈ ps, z'.fld q (childOf even) 4 = z.fld q (childOf even) 4) →
    Side z' even p ps := by
  intro ps
  induction ps with
  | nil => exact fun h _ => h
  | cons q qs ih =>
    rintro p ⟨hpq, hq, hqs⟩ hfld
    refine ⟨hpq, hmap q hq, ?_⟩
    rw [hfld q List.mem_cons_self]
    exact ih hqs fun q' hq' => hfld q' (List.mem_cons_of_mem _ hq')

/-- A tree whose pages name the same pages. -/
theorem Tree.At.congr : ∀ {tree : Tree} {p : Nat}, tree.At z p →
    (∀ s ∈ tree.seqs, ∀ even, z'.fld s (childOf even) 4 = z.fld s (childOf even) 4) →
    tree.At z' p := by
  intro tree
  induction tree with
  | nil => exact fun _ _ => trivial
  | node seq left right ihl ihr =>
    rintro p ⟨rfl, hp, hleft, hright⟩ hfld
    have hroot := hfld seq List.mem_cons_self
    refine ⟨rfl, hp, ?_, ?_⟩
    · rw [show z'.fld seq 12 4 = z.fld seq 12 4 from hroot true]
      exact ihl hleft fun s hs => hfld s (List.mem_cons_of_mem _ (List.mem_append_left _ hs))
    · rw [show z'.fld seq 8 4 = z.fld seq 8 4 from hroot false]
      exact ihr hright fun s hs => hfld s (List.mem_cons_of_mem _ (List.mem_append_right _ hs))

/-- A tree below a page that has children on one side only. -/
theorem Tree.At.seqs_side :
    ∀ {tree : Tree} {p : Nat} {ps : List Nat}, tree.At z p → Side z even p ps →
    (∀ q ∈ ps, z.fld q (childOf (!even)) 4 = 0) → ∀ s ∈ tree.seqs, s ∈ ps := by
  intro tree
  induction tree with
  | nil => exact fun _ _ _ _ hs => nomatch hs
  | node seq left right ihl ihr =>
    rintro p ps ⟨rfl, hp, hleft, hright⟩ hside hback s hs
    obtain ⟨qs, rfl, hmap, hrest⟩ := hside.cons_of_ne hp
    rw [List.forall_mem_cons] at hback
    have hnone : ∀ {t : Tree}, t.At z (z.fld seq (childOf (!even)) 4) → t.seqs = [] := by
      rintro (_ | ⟨seq', l, r⟩) ht
      · rfl
      · exact absurd hback.1 ht.2.1
    rcases List.mem_cons.mp hs with rfl | hs
    · exact List.mem_cons_self
    refine List.mem_cons_of_mem _ ?_
    rcases even with _ | _
    · have hl : left.seqs = [] := hnone hleft
      rw [hl] at hs
      exact ihr hright hrest hback.2 s hs
    · have hr : right.seqs = [] := hnone hright
      rw [hr, List.append_nil] at hs
      exact ihl hleft hrest hback.2 s hs

/-- An entry has been added to the probe sequence of its slot, which may have new pages. -/
structure Added (z z' : Arch) (even : Bool) (hnum ref p : Nat) (ps ns : List Nat)
    (t : Tree) : Prop where
  slot : 0 < hnum ∧ hnum < hashMask
  tree : t.At z' p
  nil : t.isNil = false
  new : ∀ n ∈ ns, z.bseq ≤ n
  nodup : ns.Nodup
  side : Side z' even p (ps ++ ns)
  added : (ps ++ ns).map (slotAt z' hnum) = probeAdd ref (ps.map (slotAt z hnum))
  others : ∀ h < hashMask, h ≠ hnum → ps.map (slotAt z' h) = ps.map (slotAt z h) ∧
    ∀ n ∈ ns, slotAt z' h n = none
  back : ∀ q ∈ ps, z'.fld q (childOf (!even)) 4 = z.fld q (childOf (!even)) 4
  backNew : ∀ n ∈ ns, z'.fld n (childOf (!even)) 4 = 0

/-- A free slot of a map page is set. -/
theorem mapSet_free {ref : Nat} (hslot : 0 < hnum ∧ hnum < hashMask)
    (hfree : slotAt z hnum p = none) :
    shzMapSet p hnum ref z = some (.ok (), z.put p (segOf hnum) (beBytes 4 ref)) := by
  unfold shzMapSet
  rw [if_neg (by omega), bind_ok (read_run _ _), if_neg (not_not.mpr (slotAt_eq_none.mp hfree))]
  rfl

/-- A slot that is taken, or is none, is not set. -/
theorem mapSet_taken {ref : Nat} (hne : slotAt z hnum p ≠ some ref)
    (h : ¬ ((0 < hnum ∧ hnum < hashMask) ∧ slotAt z hnum p = none)) :
    ∃ err, shzMapSet p hnum ref z = some (.error err, z) := by
  unfold shzMapSet
  by_cases hslot : 0 < hnum ∧ hnum < hashMask
  · rw [if_neg (by omega), bind_ok (read_run _ _)]
    rcases hs : slotAt z hnum p with _ | m
    · exact absurd ⟨hslot, hs⟩ h
    · obtain ⟨rfl, hm⟩ := slotAt_eq_some.mp hs
      rw [if_pos hm, if_neg fun heq => hne (by rw [hs, heq])]
      exact ⟨_, rfl⟩
  · rw [if_pos (by omega)]
    exact ⟨_, rfl⟩

/-- The slot of a map page has been set. -/
theorem writable_slot {ref : Nat} (hslot : 0 < hnum ∧ hnum < hashMask) (hmap : MapPage z p) :
    Writable true z p (segOf hnum) (beBytes 4 ref) := by
  have hseg := segOf_slot hslot.2
  refine ⟨hmap.lt, by omega, by rw [length_beBytes]; exact hseg.2, fun h0 => absurd h0 hmap.ne, ?_⟩
  intro _ hmod
  rcases hmap.type with ht | ht
  · rw [ht] at hmod
    cases hmod
  · rw [ht] at hmod
    cases hmod

/-- A reference goes into a slot that is free, and the tree has it afterwards. -/
theorem added_slot {ref : Nat} {ps : List Nat} {tree : Tree} (h : Inv true z)
    (hslot : 0 < hnum ∧ hnum < hashMask) (hfree : slotAt z hnum p = none)
    (href : ref ≠ 0 ∧ ref < 2 ^ 32)
    (htree : tree.At z p) (hnil : tree.isNil = false) (hside : Side z even p (p :: ps))
    (hp : p ∉ ps) :
    Within (· ∈ p :: ps) z (z.put p (segOf hnum) (beBytes 4 ref)) ∧
      Added z (z.put p (segOf hnum) (beBytes 4 ref)) even hnum ref p (p :: ps) [] tree := by
  have hmap := hside.mapPage p List.mem_cons_self
  have hw : Within (· ∈ p :: ps) z (z.put p (segOf hnum) (beBytes 4 ref)) :=
    h.within_put (writable_slot hslot hmap) (Or.inr List.mem_cons_self)
  have hseg := segOf_slot hslot.2
  have hend : segOf hnum + (beBytes 4 ref).length ≤ pageSize := by
    rw [length_beBytes]
    exact hseg.2
  -- the children are named before the slots
  have hchild : ∀ q e, (z.put p (segOf hnum) (beBytes 4 ref)).fld q (childOf e) 4 =
      z.fld q (childOf e) 4 := by
    intro q e
    have hof := childOf_le e
    exact Arch.fld_put_ne hend (childOf_fits e) fun _ => Or.inl (by omega)
  have hslots : ∀ i < hashMask, ∀ q, ¬ (q = p ∧ i = hnum) →
      slotAt (z.put p (segOf hnum) (beBytes 4 ref)) i q = slotAt z i q := by
    intro i hi q hne
    unfold slotAt
    rw [Arch.fld_put_ne hend (segOf_slot hi).2 fun heq => ?_]
    rw [length_beBytes]
    unfold segOf
    omega
  have hset : slotAt (z.put p (segOf hnum) (beBytes 4 ref)) hnum p = some ref :=
    slotAt_eq_some.mpr ⟨Arch.fld_put href.2, href.1⟩
  refine ⟨hw, hslot, htree.congr fun s _ e =>
    hchild s e, hnil, (fun _ hn => nomatch hn), List.nodup_nil, ?_, ?_, ?_, fun q _ =>
      hchild q _, fun _ hn => nomatch hn⟩
  · rw [List.append_nil]
    exact hside.congr (fun q hq => hq.within hw) fun q _ => hchild q even
  · have hrest : ps.map (slotAt (z.put p (segOf hnum) (beBytes 4 ref)) hnum) =
        ps.map (slotAt z hnum) := by
      refine List.map_congr_left fun q hq => hslots hnum hslot.2 q ?_
      rintro ⟨rfl, -⟩
      exact hp hq
    rw [List.append_nil, List.map_cons, List.map_cons, hset, hfree, hrest]
    rfl
  · exact fun i hi hne => ⟨List.map_congr_left fun q _ => hslots i hi q fun heq => hne heq.2,
      fun _ hn => nomatch hn⟩

/-- The child of a page that names one. -/
theorem addChild_run {seq : Nat} {left right : Tree} (h : (Tree.node seq left right).At z p)
    (h0 : z.fld p (childOf even) 4 ≠ 0) :
    ∃ child, addChild even (.node seq left right) p z = some (.ok child, z) ∧
      child.At z (z.fld p (childOf even) 4) ∧ child.isNil = false := by
  have hchild := h.child even
  unfold addChild
  rcases hnil : ((Tree.node seq left right).child even).isNil with _ | _
  · exact ⟨_, rfl, hchild, hnil⟩
  · rw [if_pos rfl, bind_ok (read_run _ _), if_neg h0]
    exact ⟨_, rfl, ⟨rfl, h0, trivial, trivial⟩, rfl⟩

/-- A new branch page, which its parent names. -/
structure Branched (z z' : Arch) (even : Bool) (p : Nat) (child : Tree) : Prop where
  child : child = .node z.bseq .nil .nil
  map : MapPage z' z.bseq
  zero : ∀ of, 8 ≤ of → of + 4 ≤ pageSize → z'.fld z.bseq of 4 = 0
  named : z'.fld p (childOf even) 4 = z.bseq
  other : z'.fld p (childOf (!even)) 4 = z.fld p (childOf (!even)) 4
  slots : ∀ h < hashMask, slotAt z' h p = slotAt z h p

/-- A new branch page is put below the last one. -/
theorem keeps_branch {node : Tree} (h : Inv true z) (hmap : MapPage z p)
    (hnil : (node.child even).isNil = true) (h0 : z.fld p (childOf even) 4 = 0) :
    Keeps (Within (· = p)) (addChild even node p) z fun child z' => Branched z z' even p child := by
  have hne : z.bseq ≠ 0 := Nat.ne_of_gt h.pos
  have hpn : p ≠ z.bseq := Nat.ne_of_lt hmap.lt
  unfold addChild
  rw [if_pos hnil]
  refine Keeps.bind_read ?_
  rw [if_pos h0]
  refine Keeps.bind_read (bind_pageNew h (by decide) fun z1 hw1 hnext hpage hzero =>
    Keeps.bind_read ?_)
  have h1 : Inv true z1 := (hw1 (S := fun _ => False)).step.inv
  have hlt1 : p < z1.bseq := Nat.lt_of_lt_of_le hmap.lt (hw1 (S := fun _ => False)).step.bseq
  refine Keeps.ite (fun _ => Keeps.undef) fun _ => ?_
  have hof := childOf_le even
  have hend : childOf even + (beBytes 4 z.bseq).length ≤ pageSize := by
    rw [length_beBytes]
    exact childOf_fits even
  refine bind_put h1 (.before hlt1 (by omega) (by rw [length_beBytes]; omega)) (Or.inr rfl)
    fun hw2 => ?_
  refine bind_crcSet hw2.step.inv hlt1 (Or.inr rfl) fun hw3 => ?_
  have hfld : ∀ of n, 8 ≤ of → of + n ≤ pageSize → (of + n ≤ childOf even ∨ childOf even + 4 ≤ of) →
      ((z1.put p (childOf even) (beBytes 4 z.bseq)).sealed p).fld p of n = z.fld p of n := by
    intro of n h8 hfits hapart
    rw [sealed_fld hfits fun _ => Or.inr (by omega), Arch.fld_put_ne hend hfits fun _ => ?_,
      ((hw1 (S := fun _ => False)).same p hmap.lt hmap.ne id).fld hfits]
    rw [length_beBytes]
    exact hapart
  have hsmall : z.bseq < 256 ^ 4 := Nat.lt_of_le_of_lt h.le (by decide)
  refine Keeps.pure hw3.step.inv.within ⟨rfl, ?_, ?_, ?_, ?_, ?_⟩
  · have hpage3 := (hpage.step hw2.step).step hw3.step
    exact ⟨hne, hpage3.lt, Or.inr hpage3.type⟩
  · intro of h8 hfits
    rw [sealed_fld hfits fun heq => absurd heq.symm hpn,
      Arch.fld_put_ne hend hfits fun heq => absurd heq.symm hpn]
    exact hzero of 4 (by omega) hfits
  · rw [sealed_fld (childOf_fits even) fun _ => Or.inr (by omega), Arch.fld_put hsmall]
  · refine hfld _ 4 (childOf_le _).1 (childOf_fits _) ?_
    rcases even with _ | _
    · exact Or.inr (by decide)
    · exact Or.inl (by decide)
  · intro i hi
    have hseg := segOf_slot hi
    unfold slotAt
    rw [hfld _ 4 (by omega) hseg.2 (Or.inr (by omega))]

/-- A new page never fails with a status. -/
theorem not_fails_pageNew {t : Nat} (h : Inv b z) : ¬ Fails (shzPageNew t) z := by
  rintro ⟨e, z', hrun⟩
  cases (h.roomy.pageNew hrun).1

/-- Nor does a new branch. -/
theorem not_fails_addChild {node : Tree} (h : Inv b z) : ¬ Fails (addChild even node p) z := by
  unfold addChild
  split
  · rw [fails_bind_read]
    split
    · rw [fails_bind_read, fails_bind]
      rintro (hnew | ⟨blk, z1, hnew, hrest⟩)
      · exact not_fails_pageNew h hnew
      obtain ⟨hblk, -⟩ := h.roomy.pageNew hnew
      cases hblk
      rw [fails_bind_read] at hrest
      split at hrest
      · exact not_fails_undef _ hrest
      · rw [fails_bind_ok (put_run ..), fails_bind_ok (crcSet_run ..)] at hrest
        exact not_fails_pure _ _ hrest
    · exact not_fails_pure _ _
  · exact not_fails_pure _ _

/-- Nor does the lookup of a page. -/
theorem not_fails_page {n : Nat} : ¬ Fails (shzPage n) z := by
  have hat : ∀ z, ¬ Fails (pageAt n) z := by
    intro z
    unfold pageAt
    rw [fails_bind_read]
    split
    · exact not_fails_undef _
    · exact not_fails_pure _ _
  unfold shzPage
  rw [fails_bind_read]
  split
  · split
    · exact not_fails_pure _ _
    · rw [fails_bind_ok (modify_run _ _), fails_bind]
      rintro (⟨err, z1, hrun⟩ | ⟨u, z1, -, hrest⟩)
      · cases (alloc_inv hrun).1
      · exact hat _ hrest
  · exact hat _

/-- The status of `shz_tree_add` is part of its value. -/
theorem not_fails_treeAdd {ref : Nat} : ∀ {fuel : Nat} {z : Arch} {tree : Tree},
    ¬ Fails (shzTreeAdd even hnum ref fuel tree) z := by
  intro fuel
  induction fuel with
  | zero => exact fun {z _} => not_fails_undef z
  | succ fuel ih =>
    intro z tree
    rcases tree with _ | ⟨seq, left, right⟩
    · exact not_fails_pure _ _
    rw [shzTreeAdd, fails_bind]
    rintro (hpage | ⟨blk, z1, -, hrest⟩)
    · exact not_fails_page hpage
    rcases blk with _ | p
    · exact not_fails_pure _ _ hrest
    simp only at hrest
    rw [fails_bind] at hrest
    rcases hrest with hset | ⟨err, z2, -, hrest⟩
    · exact not_fails_attempt _ hset
    rcases err with err | _
    · simp only at hrest
      rw [fails_bind] at hrest
      rcases hrest with hadd | ⟨child, z3, -, hrest⟩
      · exact not_fails_attempt _ hadd
      rcases child with err | child
      · exact not_fails_pure _ _ hrest
      · simp only at hrest
        rw [fails_bind] at hrest
        rcases hrest with hbelow | ⟨added, z4, -, hrest⟩
        · exact ih hbelow
        · exact not_fails_pure _ _ hrest
    · exact not_fails_pure _ _ hrest

/-- The page of a node is unchanged below it: the child's result is hung there. -/
theorem Tree.At.hang {S : Nat → Prop} {seq : Nat} {left right child : Tree} (hw : Within S z z')
    (h : (Tree.node seq left right).At z p)
    (hsame : z'.fld p (childOf (!even)) 4 = z.fld p (childOf (!even)) 4)
    (hc : child.At z' (z'.fld p (childOf even) 4))
    (hother : ∀ s ∈ ((Tree.node seq left right).child (!even)).seqs, ¬ S s ∧ s ≠ 0 ∧ s < z.bseq) :
    (Tree.setChild even child (.node seq left right)).At z' p := by
  have hback : ((Tree.node seq left right).child (!even)).At z' (z'.fld p (childOf (!even)) 4) := by
    rw [hsame]
    refine (h.child (!even)).congr fun s hs e => ?_
    obtain ⟨hS, h0, hlt⟩ := hother s hs
    exact (hw.same s hlt h0 hS).fld (childOf_fits e)
  obtain ⟨hseq, hp, -⟩ := h
  rcases even with _ | _
  · exact ⟨hseq, hp, hback, hc⟩
  · exact ⟨hseq, hp, hc, hback⟩

theorem Tree.At.seqs_zero {tree : Tree} (h : tree.At z 0) : tree.seqs = [] := by
  rcases tree with _ | ⟨seq, left, right⟩
  · rfl
  · exact absurd rfl h.2.1

section Added

variable {ref : Nat} {ps ns : List Nat} {left right t : Tree}

/-- The entry has been added below a page whose slot is taken. -/
theorem Added.cons (hw : Within (fun q => q ∈ ps ∨ z.bseq ≤ q) z z')
    (h : Added z z' even hnum ref (z.fld p (childOf even) 4) ps ns t) (hmap : MapPage z p)
    (htree : (Tree.node p left right).At z p) (hp : p ∉ ps) (htaken : slotAt z hnum p ≠ none)
    (hother : ∀ s ∈ ((Tree.node p left right).child (!even)).seqs, s ∉ ps ∧ s ≠ 0 ∧ s < z.bseq) :
    Added z z' even hnum ref p (p :: ps) ns (Tree.setChild even t (.node p left right)) := by
  have hsame : Same z z' p :=
    hw.same p hmap.lt hmap.ne fun hS => hS.elim hp (Nat.not_le.mpr hmap.lt)
  have hchild := hsame.fld (childOf_fits even)
  refine ⟨h.slot, htree.hang hw (hsame.fld (childOf_fits _)) ?_ ?_, Tree.isNil_setChild _ _,
    h.new, h.nodup, ⟨rfl, hmap.within hw, ?_⟩, ?_, ?_, ?_, h.backNew⟩
  · rw [hchild]
    exact h.tree
  · intro s hs
    obtain ⟨hS, h0, hlt⟩ := hother s hs
    exact ⟨fun hs' => hs'.elim hS (Nat.not_le.mpr hlt), h0, hlt⟩
  · rw [hchild]
    exact h.side
  · obtain ⟨m, hm⟩ := Option.ne_none_iff_exists'.mp htaken
    rw [List.cons_append, List.map_cons, h.added, List.map_cons, hsame.slotAt h.slot.2,
      hm, probeAdd]
  · intro i hi hne
    obtain ⟨hold, hfree⟩ := h.others i hi hne
    rw [List.map_cons, List.map_cons, hold, hsame.slotAt hi]
    exact ⟨rfl, hfree⟩
  · rw [List.forall_mem_cons]
    exact ⟨hsame.fld (childOf_fits _), h.back⟩

/-- The entry has been added on a new page. -/
theorem Added.branch {z1 : Arch} {child : Tree} (hw1 : Within (· = p) z z1)
    (hb : Branched z z1 even p child)
    (hw2 : Within (fun q => q ∈ [z.bseq] ∨ z1.bseq ≤ q) z1 z')
    (h : Added z1 z' even hnum ref z.bseq [z.bseq] ns t) (hmap : MapPage z p)
    (htree : (Tree.node p left right).At z p) (htaken : slotAt z hnum p ≠ none)
    (hother : ∀ s ∈ ((Tree.node p left right).child (!even)).seqs, s ∉ [p] ∧ s ≠ 0 ∧ s < z.bseq) :
    Added z z' even hnum ref p [p] (z.bseq :: ns) (Tree.setChild even t (.node p left right)) := by
  -- the page itself is not written any more once its child has been named
  have hlt1 : p < z1.bseq := Nat.lt_of_lt_of_le hmap.lt hw1.step.bseq
  have hsame : Same z1 z' p := by
    refine hw2.same p hlt1 hmap.ne ?_
    rintro (hp | hp)
    · exact absurd (List.mem_singleton.mp hp) (Nat.ne_of_lt hmap.lt)
    · exact absurd hlt1 (Nat.not_lt.mpr hp)
  have hchild : z'.fld p (childOf even) 4 = z.bseq := (hsame.fld (childOf_fits even)).trans hb.named
  have hback : z'.fld p (childOf (!even)) 4 = z.fld p (childOf (!even)) 4 :=
    (hsame.fld (childOf_fits _)).trans hb.other
  have hw : Within (fun q => q = p ∨ z.bseq ≤ q) z z' := by
    refine (hw1.mono fun q _ _ hq => Or.inl hq).trans (hw2.mono fun q _ _ hq => Or.inr ?_)
    have hle := hw1.step.bseq
    rcases hq with hq | hq
    · exact Nat.le_of_eq (List.mem_singleton.mp hq).symm
    · omega
  have hslots : ∀ i < hashMask, slotAt z' i p = slotAt z i p := fun i hi =>
    (hsame.slotAt hi).trans (hb.slots i hi)
  have hfree : ∀ i < hashMask, slotAt z1 i z.bseq = none := by
    intro i hi
    have hseg := segOf_slot hi
    exact slotAt_eq_none.mpr (hb.zero _ (by omega) hseg.2)
  refine ⟨h.slot, htree.hang hw hback ?_ ?_, Tree.isNil_setChild _ _, ?_, ?_,
    ⟨rfl, hmap.within hw, ?_⟩, ?_, ?_, ?_, ?_⟩
  · rw [hchild]
    exact h.tree
  · intro s hs
    obtain ⟨hS, h0, hlt⟩ := hother s hs
    exact ⟨fun hs' =>
      hs'.elim (fun heq => hS (List.mem_singleton.mpr heq)) (Nat.not_le.mpr hlt), h0, hlt⟩
  · rw [List.forall_mem_cons]
    exact ⟨Nat.le_refl _, fun n hn => Nat.le_trans hw1.step.bseq (h.new n hn)⟩
  · rw [List.nodup_cons]
    exact ⟨fun hn => absurd (h.new _ hn) (Nat.not_le.mpr hb.map.lt), h.nodup⟩
  · rw [hchild]
    exact h.side
  · -- the slot of the page was taken, so the reference goes to the new page
    obtain ⟨m, hm⟩ := Option.ne_none_iff_exists'.mp htaken
    have hadded : (z.bseq :: ns).map (slotAt z' hnum) =
        probeAdd ref [slotAt z1 hnum z.bseq] := h.added
    rw [hfree _ h.slot.2] at hadded
    show slotAt z' hnum p :: (z.bseq :: ns).map (slotAt z' hnum) = probeAdd ref [slotAt z hnum p]
    rw [hslots _ h.slot.2, hm, hadded]
    rfl
  · intro i hi hne
    obtain ⟨hold, hnew⟩ := h.others i hi hne
    refine ⟨congrArg (fun x => [x]) (hslots i hi), ?_⟩
    rw [List.forall_mem_cons]
    exact ⟨(List.cons.inj hold).1.trans (hfree i hi), hnew⟩
  · rw [List.forall_mem_cons]
    exact ⟨hback, List.forall_mem_nil _⟩
  · rw [List.forall_mem_cons]
    refine ⟨?_, h.backNew⟩
    rw [h.back _ List.mem_cons_self]
    exact hb.zero _ (childOf_le _).1 (childOf_fits _)

end Added

/-- An entry is added to the probe sequence of its slot. -/
theorem keeps_treeAddSide {ref : Nat} (href : ref ≠ 0 ∧ ref < 2 ^ 32) (hmask : hnum < hashMask) :
    ∀ {fuel p : Nat} {z : Arch} {tree : Tree} {ps : List Nat}, Inv true z → tree.At z p →
      tree.isNil = false → Side z even p ps → ps.Nodup → (∀ q ∈ ps, slotAt z hnum q ≠ some ref) →
      (∀ q ∈ ps.tail, z.fld q (childOf (!even)) 4 = 0) →
      (∀ s ∈ (tree.child (!even)).seqs, s ∉ ps ∧ s ≠ 0 ∧ s < z.bseq) →
      Keeps (Within fun q => q ∈ ps ∨ z.bseq ≤ q) (shzTreeAdd even hnum ref fuel tree) z fun r z' =>
        r.2 = .ok () ∧ ∃ ns, Added z z' even hnum ref p ps ns r.1 := by
  -- by recursion on the depth; `ps` are the pages of this side that are left to walk
  intro fuel
  induction fuel with
  | zero => exact fun _ _ _ _ _ _ _ _ => Keeps.undef
  | succ fuel ih =>
    intro p z tree ps h htree hnil hside hnodup hnew hback hother
    rcases tree with _ | ⟨seq, left, right⟩
    · cases hnil
    have hat := htree
    obtain ⟨rfl, hp, -⟩ := hat
    obtain ⟨qs, rfl, hmap, hrest⟩ := hside.cons_of_ne hp
    rw [List.nodup_cons] at hnodup
    rw [List.tail_cons] at hback
    rw [shzTreeAdd]
    refine bind_page h hmap.lt ?_
    by_cases hfree : (0 < hnum ∧ hnum < hashMask) ∧ slotAt z hnum seq = none
    · -- the slot of this page is free, and the reference goes there
      obtain ⟨hslot, hfree⟩ := hfree
      obtain ⟨hw, hadded⟩ := added_slot h hslot hfree href htree rfl hside hnodup.1
      have hw' : Within (fun q => q ∈ seq :: qs ∨ z.bseq ≤ q) z
          (z.put seq (segOf hnum) (beBytes 4 ref)) := hw.mono fun _ _ _ hq => Or.inl hq
      refine Keeps.of_ok (attempt_run (mapSet_free hslot hfree)) (fun _ hs => hw'.trans hs) ?_
      exact Keeps.pure hw.step.inv.within ⟨rfl, [], hadded⟩
    -- the slot is taken, so the walk goes on below, on the same side
    obtain ⟨err, herr⟩ := mapSet_taken (hnew seq List.mem_cons_self) hfree
    refine Keeps.of_ok (attempt_run herr) (fun _ hs => hs) ?_
    have htaken : (0 < hnum ∧ hnum < hashMask) → slotAt z hnum seq ≠ none := fun hslot hnone =>
      hfree ⟨hslot, hnone⟩
    by_cases h0 : z.fld seq (childOf even) 4 = 0
    · -- the last page: a new one is named
      rw [h0] at hrest
      obtain rfl := hrest.nil_of_zero
      have hnone : ((Tree.node seq left right).child even).isNil = true := by
        have hchild := htree.child even
        rw [h0] at hchild
        by_contra hne
        exact hchild.ne (Bool.eq_false_of_not_eq_true hne) rfl
      have hbranch : Keeps (Within fun q =>
        q ∈ [seq] ∨ z.bseq ≤ q) (addChild even (.node seq left right) seq) z
          fun child z1 => Within (· = seq) z z1 ∧ Branched z z1 even seq child :=
        ((keeps_branch h hmap hnone h0).mono fun _ _ hw hb => ⟨hw, hb⟩).weaken fun _ hw =>
          hw.mono fun q _ _ hq => Or.inl (List.mem_singleton.mpr hq)
      refine Keeps.bind_attempt_ok hbranch (not_fails_addChild h) fun child z1 _ hb => ?_
      obtain ⟨hw1, hb⟩ := hb
      obtain rfl := hb.child
      have hne : z.bseq ≠ 0 := Nat.ne_of_gt h.pos
      have hzero : ∀ e, z1.fld z.bseq (childOf e) 4 = 0 :=
        fun e => hb.zero _ (childOf_le e).1 (childOf_fits e)
      have hside1 : Side z1 even z.bseq [z.bseq] := ⟨rfl, hb.map, hzero even⟩
      have hseg := segOf_slot hmask
      have hfree1 : slotAt z1 hnum z.bseq = none := slotAt_eq_none.mpr (hb.zero _ (by omega) hseg.2)
      have hat1 : (Tree.node z.bseq .nil .nil).At z1 z.bseq := ⟨rfl, hne, trivial, trivial⟩
      have hnew1 : ∀ q ∈ [z.bseq], slotAt z1 hnum q ≠ some ref := by
        intro q hq
        rw [List.mem_singleton.mp hq, hfree1]
        exact fun heq => nomatch heq
      have hother1 : ∀ s ∈ ((Tree.node z.bseq .nil .nil).child (!even)).seqs,
          s ∉ [z.bseq] ∧ s ≠ 0 ∧ s < z1.bseq := by
        rcases even with _ | _ <;> exact fun _ hs => nomatch hs
      have hrun := ih hw1.step.inv hat1 rfl hside1 (List.nodup_singleton _) hnew1 (fun _ hq =>
        nomatch hq) hother1
      have hbelow : Keeps (Within fun q => q ∈ [seq] ∨ z.bseq ≤ q)
          (shzTreeAdd even hnum ref fuel (.node z.bseq .nil .nil)) z1 fun r z' =>
            Within (fun q => q ∈ [z.bseq] ∨ z1.bseq ≤ q) z1 z' ∧ r.2 = .ok () ∧
              ∃ ns, Added z1 z' even hnum ref z.bseq [z.bseq] ns r.1 := by
        refine (hrun.mono fun _ _ hw hq => ⟨hw, hq⟩).weaken fun _ hw =>
          hw.mono fun q _ _ hq => Or.inr ?_
        have hle := hw1.step.bseq
        rcases hq with hq | hq
        · exact Nat.le_of_eq (List.mem_singleton.mp hq).symm
        · omega
      refine Keeps.bind hbelow fun added z2 hw2 hadded => ?_
      obtain ⟨hw, hok, ns, hadded⟩ := hadded
      refine Keeps.pure hw2.step.inv.within ⟨hok, z.bseq :: ns, ?_⟩
      exact hadded.branch hw1 hb hw hmap htree (htaken hadded.slot) hother
    · -- a next page exists, and the rest of the side is walked
      obtain ⟨child, hadd, hat, hchild⟩ := addChild_run htree h0
      refine Keeps.of_ok (attempt_run hadd) (fun _ hs => hs) ?_
      have hback0 : z.fld (z.fld seq (childOf even) 4) (childOf (!even)) 4 = 0 := by
        obtain ⟨qs', rfl, -⟩ := hrest.cons_of_ne h0
        exact hback _ List.mem_cons_self
      have hrun := ih h hat hchild hrest hnodup.2 (fun q hq => hnew q (List.mem_cons_of_mem _ hq))
        (fun q hq => hback q (List.mem_of_mem_tail hq)) ?_
      · have hbelow : Keeps (Within fun q => q ∈ seq :: qs ∨
            z.bseq ≤ q) (shzTreeAdd even hnum ref fuel child) z
            fun r z' => Within (fun q => q ∈ qs ∨ z.bseq ≤ q) z z' ∧ r.2 = .ok () ∧
              ∃ ns, Added z z' even hnum ref (z.fld seq (childOf even) 4) qs ns r.1 :=
          (hrun.mono fun _ _ hw hq => ⟨hw, hq⟩).weaken fun _ hw =>
            hw.mono fun q _ _ hq => hq.imp_left (List.mem_cons_of_mem _)
        refine Keeps.bind hbelow fun added z2 hw2 hadded => ?_
        obtain ⟨hw, hok, ns, hadded⟩ := hadded
        refine Keeps.pure hw2.step.inv.within ⟨hok, ns, ?_⟩
        refine hadded.cons hw hmap htree hnodup.1 (htaken hadded.slot) fun s hs => ?_
        obtain ⟨hS, hs'⟩ := hother s hs
        exact ⟨fun hq => hS (List.mem_cons_of_mem _ hq), hs'⟩
      · -- the rest of the side has nothing hanging on its other side
        have hnil : (child.child (!even)).seqs = [] := by
          rcases child with _ | ⟨seq', l, r⟩
          · cases hchild
          · obtain rfl := hat.1
            have hc := hat.child (!even)
            rw [hback0] at hc
            exact hc.seqs_zero
        rw [hnil]
        exact fun _ hs => nomatch hs

end LibShare.Shz
