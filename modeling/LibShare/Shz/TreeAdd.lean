import LibShare.Lib.Walk
import LibShare.Shz.Others

/-!
# libshare — SHZ archives: adding keys to the file table

`shz_tree_add` and `shz_tree_get` on the file table of an archive, for any key. A key is added if
it has a slot, and if the page of its slot is free on some page of its side or a new branch page
fits into the buffer (`Fits`): otherwise the loop adds branch pages and never ends, or writes
through a pointer to where the buffer was (`treeAdd_iff`).

`keys_found` is about runs of such calls: every key that has been added is found with its page, and
no other key is.
-/

namespace LibShare.Shz

open Mem Prog

variable {b even : Bool} {z z' z1 : Arch} {env : Env} {p q m n hnum ref fuel root : Nat}
  {key : ShKey}
  {sides : Bool → List Nat}

/-- `shz_tree_add`, on the file table. -/
def treeAdd (fuel : Nat) (key : ShKey) (ref : Nat) : ShzM Unit := do
  let tree ← Prog.read Arch.ftable
  if tree.isNil then Prog.fail .inval
  else do
    let added ← shzTreeAdd (keySide key) (keySlot key) ref fuel tree
    Prog.modify fun z => { z with ftable := added.1 }
    match added.2 with
    | .error err => Prog.fail err
    | .ok _ => pure ()

/-- `shz_tree_get`, on the file table. -/
def treeGet (fuel : Nat) (key : ShKey) : ShzM Nat := do
  let tree ← Prog.read Arch.ftable
  if tree.isNil then Prog.fail .inval
  else do
    let found ← shzTreeGet (keySide key) (keySlot key) key.toBytes fuel tree
    Prog.modify fun z => { z with ftable := found.1 }
    match found.2 with
    | .error err => Prog.fail err
    | .ok bnum => pure bnum

/-- A library in which every name has one key. -/
def keyEnv (key : ShKey) : Env :=
  { keyBin := fun _ => key, deflate := id, inflate := .ok, clock := fun _ => 0 }

theorem treeAdd_eq (fuel : Nat) (key : ShKey) (ref : Nat) :
    treeAdd fuel key ref = shzFtableSet (keyEnv key) fuel [0] ref := rfl

theorem treeGet_eq (fuel : Nat) (key : ShKey) :
    treeGet fuel key = shzFtableGet (keyEnv key) fuel [0] := rfl

/-! ## Room for a page -/

/-- The next page has an offset, and the buffer has room for it as it is: more than a page is left,
or just one in a map that the allocation does not enlarge. -/
def Fits (z : Arch) : Prop :=
  z.bseq < 2 ^ 21 ∧ (pageSize < shzAvail z ∨
    (z.buff.mapped = true ∧ shzAvail z = pageSize ∧ allocSize ∣ z.buff.dataMax))

/-- What is left of the buffer behind the pages. -/
theorem Roomy.dataMax_eq (h : Roomy z) (havail : shzAvail z ≤ pageSize)
    (hlt : z.buff.dataMax < 2 ^ 64) :
    z.buff.dataMax = z.bseq * pageSize + shzAvail z := by
  have hle := h.le
  have hroom := h.room
  unfold shzAvail at *
  unfold pageSize at *
  omega

/-- A heap buffer is enlarged by an allocation that it is not larger than. -/
theorem grown_ne {buf : Shbuf} {len : Nat} (h : buf.dataMax ≤ len) :
    (buf.grown len).dataMax ≠ buf.dataMax := by
  have hblocks : len < shbufBlocks len := by
    unfold shbufBlocks
    omega
  unfold Shbuf.grown
  dsimp only
  rw [if_neg (by omega)]
  split
  · exact Nat.ne_of_gt (by dsimp only; omega)
  · exact Nat.ne_of_gt (by dsimp only; omega)

/-- A map is enlarged unless it has the size that is asked for. -/
theorem shbufGrowmap_iff (buf : Shbuf) {len : Nat} (h : buf.dataMax ≤ len)
    (hlen : allocSize ∣ len) :
    (shbufGrowmap buf len).dataMax = buf.dataMax ↔ buf.dataMax = len := by
  obtain ⟨k, rfl⟩ := hlen
  unfold shbufGrowmap
  split
  · exact iff_of_true rfl (by omega)
  · dsimp only
    unfold allocSize at *
    omega

/-- The buffer is moved for the next page, if that is possible, unless there is room for it. -/
theorem Roomy.fits_iff (h : Roomy z) (hlt : z.bseq < 2 ^ 21) (hmax : z.buff.dataMax < 2 ^ 64) :
    (∃ z1, Shz.pageRoom z = some (.ok (), z1) ∧ z1.buff.dataMax = z.buff.dataMax) ↔ Fits z := by
  have hlen := lenUpTo_bseq h.le
  have hpos : 0 < (z.bseq + 1) * pageSize := Nat.mul_pos (Nat.succ_pos _) (by decide)
  have hsmall : (z.bseq + 1) * pageSize < 2 ^ 32 := by
    unfold pageSize
    omega
  unfold Fits Shz.pageRoom
  rw [and_iff_right hlt, bind_ok (read_run _ _), id]
  -- only without room behind the pages is anything allocated
  by_cases havail : shzAvail z ≤ pageSize
  · have hno : ¬ pageSize < shzAvail z := Nat.not_lt.mpr havail
    have hdata := h.dataMax_eq havail hmax
    have hsucc : (z.bseq + 1) * pageSize = z.bseq * pageSize + pageSize := Nat.succ_mul _ _
    rw [if_pos havail, or_iff_right hno, hlen]
    generalize hL : (z.bseq + 1) * pageSize = L at *
    have hround : L ≤ allocLen L := by
      rw [allocLen_eq hpos hsmall]
      unfold allocSize
      omega
    have hexact : z.buff.dataMax = allocLen L ↔ shzAvail z = pageSize ∧
        allocSize ∣ z.buff.dataMax := by
      constructor
      · intro heq
        exact ⟨by omega, heq ▸ allocSize_dvd L⟩
      · rintro ⟨hone, hdvd⟩
        rw [allocLen_eq hpos hsmall]
        unfold allocSize at *
        omega
    have halloc : shzAlloc z L = (growTo z.buff (allocLen L)).map fun buff =>
      { z with buff := buff } := by
      rw [h.alloc, if_neg (by omega)]
    rcases hmapped : z.buff.mapped with _ | _
    · -- on the heap an allocation is larger than what it is asked for
      refine iff_of_false ?_ fun hm => Bool.false_ne_true hm.1
      rintro ⟨z1, hrun, hsame⟩
      obtain ⟨-, hz1⟩ := alloc_inv hrun
      rw [halloc, growTo, hmapped, if_neg Bool.false_ne_true, shbufGrow] at hz1
      split at hz1
      · obtain rfl := Option.some.inj hz1
        exact grown_ne (by omega) hsame
      · cases hz1
    · -- a mapped file stays where it is when it has the very length
      rw [growTo, hmapped, if_pos rfl] at halloc
      have hiff :=
        shbufGrowmap_iff z.buff (show z.buff.dataMax ≤ allocLen L by omega) (allocSize_dvd L)
      rw [and_iff_right rfl, ← hexact, ← hiff]
      constructor
      · rintro ⟨z1, hrun, hsame⟩
        obtain ⟨-, hz1⟩ := alloc_inv hrun
        obtain rfl := Option.some.inj (halloc.symm.trans hz1)
        exact hsame
      · exact fun hsame => ⟨_, alloc_run halloc, hsame⟩
  · rw [if_neg havail]
    exact iff_of_true ⟨z, rfl, rfl⟩ (Or.inl (Nat.lt_of_not_le havail))

/-! ## Adding a key -/

/-- A new branch page, where there is room for it, and none where there is not. -/
theorem addChild_new {node : Tree} (h : Inv true z) (hmax : z.buff.dataMax < 2 ^ 64)
    (hnil : (node.child even).isNil = true) (h0 : z.fld p (childOf even) 4 = 0) :
    (Fits z → ∃ child z1, addChild even node p z = some (.ok child, z1)) ∧
      (¬ Fits z → addChild even node p z = none) := by
  unfold addChild
  rw [if_pos hnil, bind_ok (read_run _ _), if_pos h0, bind_ok (read_run _ _)]
  by_cases hlt : z.bseq < 2 ^ 21
  · have hfits := h.roomy.fits_iff hlt hmax
    rcases h.roomy.pageRoom with ⟨dataOf, max, -, hbound, hbuff⟩ | ⟨hbuff, -⟩
    · have hnew := pageNew_eq pageBranch hbound hbuff
      rw [if_pos hlt] at hnew
      have hsize : (newPage pageBranch (z.regrow dataOf max)).buff.dataMax = max := rfl
      rw [bind_ok hnew]
      dsimp only
      rw [bind_ok (read_run _ _), hsize]
      constructor
      · intro hroom
        obtain ⟨z1, hrun, heq⟩ := hfits.mpr hroom
        cases hbuff.symm.trans hrun
        have heq : max = z.buff.dataMax := heq
        rw [heq, if_neg (by simp)]
        exact ⟨_, _, rfl⟩
      · intro hroom
        have hne : max ≠ z.buff.dataMax := fun heq => hroom (hfits.mp ⟨_, hbuff, heq⟩)
        rw [if_pos (decide_eq_true hne)]
        rfl
    · -- the buffer cannot be made larger
      have hnone : ¬ Fits z := by
        intro hroom
        obtain ⟨z1, hrun, -⟩ := hfits.mpr hroom
        cases hbuff.symm.trans hrun
      exact ⟨fun hroom => absurd hroom hnone, fun _ =>
        bind_none (by rw [shzPageNew, bind_none hbuff])⟩
  · have hnew : shzPageNew pageBranch z = none := by
      rcases hrun : shzPageNew pageBranch z with _ | ⟨r, z1⟩
      · rfl
      · exact absurd (h.roomy.pageNew hrun).2.1 hlt
    exact ⟨fun hroom => absurd hroom.1 hlt, fun _ => bind_none hnew⟩

theorem returns_map {σ ε α β : Type} {x : Prog σ ε α} {g : α → β} {s : σ} :
    (∃ r s', (x >>= fun a => pure (g a)) s = some (r, s')) ↔ ∃ r s', x s = some (r, s') := by
  constructor
  · rintro ⟨r, s', hrun⟩
    rcases bind_inv hrun with ⟨e, he, -⟩ | ⟨a, s1, ha, -⟩
    · exact ⟨_, _, he⟩
    · exact ⟨_, _, ha⟩
  · rintro ⟨r, s', hrun⟩
    rcases r with e | a
    · exact ⟨_, _, bind_error hrun⟩
    · exact ⟨_, _, bind_ok hrun⟩

/-- A key is added to the pages of a side, by more passes than there are pages, if its slot is free
on one of them or there is room for another one. -/
theorem treeAddSide_iff (hslot : 0 < hnum ∧ hnum < hashMask) :
    ∀ {ps : List Nat} {fuel p : Nat} {tree : Tree}, Inv true z → z.buff.dataMax < 2 ^ 64 →
      tree.At z p → tree.isNil = false → Side z even p ps →
      (∀ q ∈ ps, slotAt z hnum q ≠ some ref) → ps.length < fuel →
      ((∃ r z', shzTreeAdd even hnum ref fuel tree z = some (r, z')) ↔
        (∃ q ∈ ps, slotAt z hnum q = none) ∨ Fits z) := by
  -- induction on the pages of the side
  intro ps
  induction ps with
  | nil =>
    intro fuel p tree _ _ htree hnil hside
    exact absurd hside (htree.ne hnil)
  | cons a qs ih =>
    intro fuel p tree h hmax htree hnil hside hnew hfuel
    obtain ⟨fuel, rfl⟩ : ∃ k, fuel = k + 1 := ⟨fuel - 1, by omega⟩
    rw [List.length_cons] at hfuel
    rcases tree with _ | ⟨seq, left, right⟩
    · cases hnil
    have hat := htree
    obtain ⟨rfl, hp, -⟩ := hat
    obtain ⟨rfl, hmap, hrest⟩ := hside
    rw [shzTreeAdd, bind_ok (h.page_some hmap.lt)]
    dsimp only
    by_cases hfree : slotAt z hnum seq = none
    · rw [bind_ok (attempt_run (mapSet_free hslot hfree))]
      exact iff_of_true ⟨_, _, rfl⟩ (Or.inl ⟨seq, List.mem_cons_self, hfree⟩)
    obtain ⟨err, herr⟩ := mapSet_taken (hnew seq List.mem_cons_self) fun hboth => hfree hboth.2
    rw [bind_ok (attempt_run herr)]
    dsimp only
    have htail : (∃ q ∈ seq :: qs, slotAt z hnum q = none) ↔ ∃ q ∈ qs, slotAt z hnum q = none := by
      rw [List.exists_mem_cons_iff, or_iff_right hfree]
    rw [htail]
    by_cases h0 : z.fld seq (childOf even) 4 = 0
    · -- the last page of the side
      rw [h0] at hrest
      obtain rfl := hrest.nil_of_zero
      have hnone : ((Tree.node seq left right).child even).isNil = true := by
        have hchild := htree.child even
        rw [h0] at hchild
        by_contra hne
        exact hchild.ne (Bool.eq_false_of_not_eq_true hne) rfl
      have hno : ¬ ∃ q ∈ ([] : List Nat), slotAt z hnum q = none := by
        rintro ⟨q, hq, _⟩
        cases hq
      rw [or_iff_right hno]
      obtain ⟨hroom, hmoved⟩ := addChild_new h hmax hnone h0
      -- the slots of a new page are free, so all that it needs is room
      by_cases hfits : Fits z
      · obtain ⟨child, z1, hadd⟩ := hroom hfits
        obtain ⟨hw, hb⟩ := keeps_branch h hmap hnone h0 _ _ hadd
        have hbranch := hb child rfl
        obtain rfl := hbranch.child
        have hseg := segOf_slot hslot.2
        have hfree1 : slotAt z1 hnum z.bseq = none :=
          slotAt_eq_none.mpr (hbranch.zero _ (by omega) hseg.2)
        have hpage := hw.step.inv.page_some hbranch.map.lt
        obtain ⟨fuel, rfl⟩ : ∃ k, fuel = k + 1 := ⟨fuel - 1, by omega⟩
        rw [bind_ok (attempt_run hadd)]
        dsimp only
        rw [shzTreeAdd]
        refine iff_of_true (returns_map.mpr ?_) hfits
        rw [bind_ok hpage]
        dsimp only
        rw [bind_ok (attempt_run (mapSet_free hslot hfree1))]
        exact ⟨_, _, rfl⟩
      · refine iff_of_false ?_ hfits
        have hundef : attempt (addChild even (.node seq left right) seq) z = none := by
          unfold attempt
          rw [hmoved hfits]
        rw [bind_none hundef]
        rintro ⟨r, z', hrun⟩
        cases hrun
    · -- the walk goes on with the next page
      obtain ⟨child, hadd, hchild, hnil'⟩ := addChild_run htree h0
      rw [bind_ok (attempt_run hadd)]
      dsimp only
      rw [returns_map]
      exact ih h hmax hchild hnil' hrest (fun q hq => hnew q (List.mem_cons_of_mem _ hq)) (by omega)

/-- The map page that is named on one side of another. -/
def sideNext (z : Arch) (even : Bool) (p : Nat) : Option Nat :=
  if z.fld p (childOf even) 4 = 0 then none else some (z.fld p (childOf even) 4)

/-- The page that a tree in memory begins at. -/
def Tree.seq : Tree → Nat
  | .nil => 0
  | .node seq _ _ => seq

/-- The key has a slot, and a map page where it is free, or there is room for one. -/
def Addable (z : Arch) (key : ShKey) : Prop :=
  keySlot key ≠ 0 ∧ ((∃ q, Leads (sideNext z (keySide key)) z.ftable.seq q ∧
    slotAt z (keySlot key) q = none) ∨
    Fits z)

theorem Side.chain : ∀ {ps : List Nat} {p : Nat}, Side z even p ps → p ≠ 0 →
    Chain (sideNext z even) (some p) ps := by
  intro ps
  induction ps with
  | nil => exact fun hside h0 => absurd hside h0
  | cons a qs ih =>
    rintro p ⟨rfl, -, hrest⟩ -
    refine ⟨rfl, ?_⟩
    unfold sideNext
    by_cases h0 : z.fld p (childOf even) 4 = 0
    · rw [h0] at hrest
      obtain rfl := hrest.nil_of_zero
      exact if_pos h0
    · rw [if_neg h0]
      exact ih hrest h0

theorem Tree.At.seq_eq {tree : Tree} (h : tree.At z p) (hnil : tree.isNil = false) :
    tree.seq = p := by
  rcases tree with _ | ⟨seq, left, right⟩
  · cases hnil
  · exact h.1

/-- `shz_tree_add` returns exactly where the key can be added, and then it succeeds. -/
theorem FileTable.treeAdd_iff (ht : FileTable z root sides) (h : Inv true z)
    (hmax : z.buff.dataMax < 2 ^ 64)
    (hm : m ≠ 0) (hpage : IsPage z m pageFile)
    (hnew : ∀ e, ∀ i < hashMask, some m ∉ probes z root sides e i) :
    (∃ n, ∀ fuel ≥ n, ∃ z', treeAdd fuel key m z = some (.ok (), z')) ↔ Addable z key := by
  have hroot := ht.tree.ne ht.nil
  have hmask := keySlot_lt key
  have hfree : (∃ q, Leads (sideNext z (keySide key)) z.ftable.seq q ∧
      slotAt z (keySlot key) q = none) ↔
      ∃ q ∈ root :: sides (keySide key), slotAt z (keySlot key) q = none := by
    have hchain := (ht.side (keySide key)).chain hroot
    rw [ht.tree.seq_eq ht.nil]
    exact exists_congr fun q => and_congr_left' hchain.mem_iff.symm
  have hadd : ∀ fuel, (∃ r z', treeAdd fuel key m z = some (r, z')) ↔
      ∃ r z', shzTreeAdd (keySide key) (keySlot key) m fuel z.ftable z = some (r, z') := by
    intro fuel
    unfold treeAdd
    rw [bind_ok (read_run _ _), ht.nil, if_neg Bool.false_ne_true]
    constructor
    · rintro ⟨r, z', hrun⟩
      rcases bind_inv hrun with ⟨e, he, -⟩ | ⟨added, z1, hadded, -⟩
      · exact ⟨_, _, he⟩
      · exact ⟨_, _, hadded⟩
    · rintro ⟨r, z', hrun⟩
      rcases r with e | ⟨tree, err | u⟩
      · exact ⟨_, _, bind_error hrun⟩
      · rw [bind_ok hrun]
        exact ⟨_, _, rfl⟩
      · rw [bind_ok hrun]
        exact ⟨_, _, rfl⟩
  have hiff : keySlot key ≠ 0 → ∀ fuel, (root :: sides (keySide key)).length < fuel →
      ((∃ r z', treeAdd fuel key m z = some (r, z')) ↔
        (∃ q ∈ root :: sides (keySide key), slotAt z (keySlot key) q = none) ∨ Fits z) := by
    intro h0 fuel hfuel
    rw [hadd]
    exact treeAddSide_iff ⟨Nat.pos_of_ne_zero h0, hmask⟩ h hmax ht.tree ht.nil
      (ht.side (keySide key))
      (fun q hq heq => hnew _ _ hmask (mem_probes.mpr ⟨q, hq, heq⟩)) hfuel
  unfold Addable
  rw [hfree]
  constructor
  · rintro ⟨n, hruns⟩
    obtain ⟨z', hrun⟩ :=
      hruns (n + ((root :: sides (keySide key)).length + 1)) (Nat.le_add_right _ _)
    -- a run that returns has found a slot
    have hset := hrun
    rw [treeAdd_eq] at hset
    obtain ⟨-, _, _, -, -, _, hentered⟩ := ht.ftableSet h hm hpage hnew hset
    exact ⟨hentered.slot, (hiff hentered.slot _ (by omega)).mp ⟨_, z', hrun⟩⟩
  · rintro ⟨h0, hroom⟩
    refine ⟨(root :: sides (keySide key)).length + 1, fun fuel hfuel => ?_⟩
    obtain ⟨r, z', hrun⟩ := (hiff h0 fuel hfuel).mpr hroom
    have hset := hrun
    rw [treeAdd_eq] at hset
    obtain ⟨rfl, -⟩ := ht.ftableSet h hm hpage hnew hset
    exact ⟨z', hrun⟩

/-! ## Runs -/

/-- What `shz_tree_add` has been called for, the last call first: a fresh archive, in a buffer that
is zero, gets new pages and keys. A key that is added is a new one, and so is its member page. -/
inductive Adds (env : Env) : Arch → List (ShKey × Nat) → Prop
  | fresh {buf : Shbuf} {clocks : Nat} {salt : UInt16} {flags : UInt32} {z : Arch} :
      (∀ i, buf.data i = 0) → initFlags buf flags &&& flagFresh ≠ 0 →
      shzArchInit env salt flags (.blank buf clocks []) = some (.ok (), z) → Adds env z []
  | pages {z z' : Arch} {L : List (ShKey × Nat)} : Adds env z L → Within (fun q =>
    z.bseq ≤ q) z z' → Adds env z' L
  | add {fuel m : Nat} {key : ShKey} {z z' : Arch} {L : List (ShKey × Nat)}
      {r : Except Sherr Unit} : Adds env z L →
      (∀ a ∈ L, a.1 ≠ key ∧ a.2 ≠ m) → m ≠ 0 → IsPage z m pageFile → memberId z m = key.toBytes →
      treeAdd fuel key m z = some (r, z') → Adds env z' ((key, m) :: L)

/-- The status that a key should be looked up with. -/
def keyStatus (L : List (ShKey × Nat)) (key : ShKey) : Except Sherr Nat :=
  if keySlot key = 0 then .error .inval else lookedUp (L.lookup key)

/-- The table has the keys that have been added. -/
structure Holds (z : Arch) (root : Nat) (sides : Bool → List Nat)
    (L : List (ShKey × Nat)) : Prop where
  inv : Inv true z
  table : FileTable z root sides
  status : ∀ key, tableStatus (keyEnv key) z root sides [0] = keyStatus L key
  slots : ∀ a ∈ L, keySlot a.1 ≠ 0
  pages : ∀ e, ∀ i < hashMask, ∀ m, some m ∈ probes z root sides e i → ∃ a ∈ L, a.2 = m
  keys : (L.map Prod.fst).Nodup

theorem holds_fresh (h : Inv true z) (ht : FileTable z root fun _ => [])
    (hnone : ∀ i < hashMask, slotAt z i root = none) : Holds z root (fun _ => []) [] := by
  have hprobes : ∀ e, ∀ i < hashMask, probes z root (fun _ => []) e i = [none] := fun e i hi =>
    congrArg (fun x => [x]) (hnone i hi)
  refine ⟨h, ht, fun key => ?_, (fun a ha => nomatch ha), fun e i hi m hm => ?_, List.nodup_nil⟩
  · have hfind : tableFind (keyEnv key) z root (fun _ => []) [0] = none := by
      show probeFind (memberId z) key.toBytes
          (probes z root (fun _ => []) (keySide key) (keySlot key)) = none
      rw [hprobes _ _ (keySlot_lt key)]
      rfl
    unfold tableStatus
    rw [hfind]
    rfl
  · rw [hprobes e i hi] at hm
    cases List.mem_singleton.mp hm

theorem Holds.within {L : List (ShKey × Nat)} (h : Holds z root sides L)
    (hw : Within (fun q => z.bseq ≤ q) z z') :
    Holds z' root sides L := by
  have hS : ∀ q, TablePage root sides q → ¬ z.bseq ≤ q :=
    fun q hq => Nat.not_le.mpr (h.table.mapPage hq).lt
  have hprobes := h.table.probes_within hw hS
  have hkeys : KeysKept z z' := hw.keysKept fun q hge hq => Nat.not_le.mpr hq.lt hge
  refine ⟨hw.step.inv, h.table.within hw hS, fun key => ?_, h.slots, fun e i hi m hm => ?_, h.keys⟩
  · rw [h.table.status_kept hkeys hprobes]
    exact h.status key
  · rw [hprobes e i hi] at hm
    exact h.pages e i hi m hm

theorem Holds.fresh_page {L : List (ShKey × Nat)} (h : Holds z root sides L)
    (hm : ∀ a ∈ L, a.2 ≠ m) :
    ∀ e, ∀ i < hashMask, some m ∉ probes z root sides e i := by
  intro e i hi hmem
  obtain ⟨a, ha, heq⟩ := h.pages e i hi m hmem
  exact hm a ha heq

/-- A key is added. -/
theorem Holds.add {L : List (ShKey × Nat)} {r : Except Sherr Unit} (h : Holds z root sides L)
    (hnew : ∀ a ∈ L, a.1 ≠ key ∧ a.2 ≠ m) (hm : m ≠ 0) (hpage : IsPage z m pageFile)
    (hid : memberId z m = key.toBytes) (hrun : treeAdd fuel key m z = some (r, z')) :
    ∃ sides', Holds z' root sides' ((key, m) :: L) := by
  rw [treeAdd_eq] at hrun
  have hstep := (keeps_ftableSet h.inv (hpage.plain (by decide)) _ _ hrun).1
  obtain ⟨-, z1, t, rfl, hw, sides', hentered⟩ :=
    h.table.ftableSet h.inv hm hpage (h.fresh_page fun a ha => (hnew a ha).2) hrun
  have hkeys : KeysKept z { z1 with ftable := t } := by
    intro q h0 hq
    refine hw.keysKept (fun q hS hq => ?_) q h0 hq
    exact hS.elim (fun hp => (h.table.mapPage hp).not_file hq) (Nat.not_le.mpr hq.lt)
  have hid' : memberId { z1 with ftable := t } m = key.toBytes := (hkeys m hm hpage).trans hid
  have hslot : keySlot key ≠ 0 := hentered.slot
  refine ⟨sides', hstep.inv, hentered.table, fun key' => ?_, ?_, fun e i hi m' hm' => ?_, ?_⟩
  · -- the key that is added, then the others
    by_cases hkey : key = key'
    · subst hkey
      have hnone : tableFind (keyEnv key) z root sides [0] = none := by
        have hstatus := h.status key
        have hlookup : L.lookup key = none := by
          rw [List.lookup_eq_none_iff]
          intro a ha
          exact bne_iff_ne.mpr (hnew a ha).1.symm
        have htable : tableStatus (keyEnv key) z root sides [0] =
            lookedUp (tableFind (keyEnv key) z root sides [0]) := if_neg hslot
        rw [htable, keyStatus, if_neg hslot, hlookup] at hstatus
        rcases hfind : tableFind (keyEnv key) z root sides [0] with _ | m'
        · rfl
        · rw [hfind] at hstatus
          cases hstatus
      have hstatus : tableStatus (keyEnv key) { z1 with ftable := t } root sides' [0] = .ok m :=
        hentered.status_eq h.table hkeys hid' hnone
      rw [hstatus, keyStatus, if_neg hslot, List.lookup_cons_self]
      rfl
    · have hstatus : tableStatus (keyEnv key') { z1 with ftable := t } root sides' [0] =
          tableStatus (keyEnv key') z root sides [0] := hentered.status_ne h.table hkeys hid' hkey
      rw [hstatus, h.status key']
      unfold keyStatus
      rw [List.lookup_cons, beq_eq_false_iff_ne.mpr (Ne.symm hkey)]
  · rw [List.forall_mem_cons]
    exact ⟨hslot, h.slots⟩
  · -- a page that answers is the new one, or has a key already
    have hold : some m' ∈ probes z root sides e i → ∃ a ∈ (key, m) :: L, a.2 = m' := by
      intro hmem
      obtain ⟨a, ha, heq⟩ := h.pages e i hi m' hmem
      exact ⟨a, List.mem_cons_of_mem _ ha, heq⟩
    rcases hentered.grown e i hi with hg | ⟨free, hfree, hg⟩
    · rw [hg] at hm'
      rcases mem_probeAdd hm' with heq | hmem
      · exact ⟨(key, m), List.mem_cons_self, (Option.some.inj heq).symm⟩
      · exact hold hmem
    · rw [hg] at hm'
      rcases List.mem_append.mp hm' with hmem | hmem
      · exact hold hmem
      · cases hfree _ hmem
  · rw [List.map_cons, List.nodup_cons]
    refine ⟨fun hmem => ?_, h.keys⟩
    obtain ⟨a, ha, heq⟩ := List.mem_map.mp hmem
    exact (hnew a ha).1 heq

theorem Adds.holds {L : List (ShKey × Nat)} (h : Adds env z L) :
    ∃ root sides, Holds z root sides L := by
  induction h with
  | fresh hzero hfresh hrun =>
    obtain ⟨root, ht, hnone⟩ := archInit_table hzero hfresh hrun
    exact ⟨root, _, holds_fresh (archInit_fresh (List.forall_mem_nil _) hfresh (fun _ =>
      hzero) hrun) ht hnone⟩
  | pages _ hw ih =>
    obtain ⟨root, sides, hL⟩ := ih
    exact ⟨root, sides, hL.within hw⟩
  | add _ hnew hm hpage hid hrun ih =>
    obtain ⟨root, sides, hL⟩ := ih
    exact ⟨root, hL.add hnew hm hpage hid hrun⟩

theorem lookup_of_mem {α β : Type} [DecidableEq α] {L : List (α × β)}
    (h : (L.map Prod.fst).Nodup) {a : α × β}
    (ha : a ∈ L) : L.lookup a.1 = some a.2 := by
  obtain ⟨front, tail, rfl⟩ := List.append_of_mem ha
  rw [List.map_append, List.map_cons] at h
  refine List.lookup_eq_some_iff.mpr ⟨front, tail, rfl, fun c hc => bne_iff_ne.mpr fun heq => ?_⟩
  exact (List.nodup_append.mp h).2.2 c.1 (List.mem_map_of_mem hc) a.1 List.mem_cons_self heq.symm

/-- A key is looked up, with enough passes. -/
theorem Holds.get {L : List (ShKey × Nat)} (h : Holds z root sides L) (key : ShKey) :
    ∃ n, ∀ fuel ≥ n, ∃ z', treeGet fuel key z = some (keyStatus L key, z') := by
  refine ⟨(sides (keySide key)).length + 2, fun fuel hfuel => ?_⟩
  obtain ⟨tree, -, hrun | ⟨-, hle⟩⟩ := h.table.ftableGet h.inv (keyEnv key) [0] fuel
  · rw [treeGet_eq, hrun, h.status key]
    exact ⟨_, rfl⟩
  · have hshort : fuel ≤ (sides (keySide key)).length + 1 := hle
    omega

/-- Where the keys are: a new key is added exactly if it has a slot and room, every key that has
been added is found, and any other one is not, if it has a slot. -/
theorem keys_found {L : List (ShKey × Nat)} (h : Adds env z L) :
    (∀ key m, (∀ a ∈ L, a.1 ≠ key ∧ a.2 ≠ m) → m ≠ 0 → IsPage z m pageFile →
      z.buff.dataMax < 2 ^ 64 →
      ((∃ n, ∀ fuel ≥ n, ∃ z', treeAdd fuel key m z = some (.ok (), z')) ↔ Addable z key)) ∧
    (∀ a ∈ L, ∃ n, ∀ fuel ≥ n, ∃ z', treeGet fuel a.1 z = some (.ok a.2, z')) ∧
    (∀ key, (∀ a ∈ L, a.1 ≠ key) →
      ((∃ n, ∀ fuel ≥ n, ∃ z', treeGet fuel key z = some (.error .noent, z')) ↔
        keySlot key ≠ 0)) := by
  obtain ⟨root, sides, hL⟩ := h.holds
  refine ⟨fun key m hnew hm hpage hmax => ?_, fun a ha => ?_, fun key hnew => ?_⟩
  · exact hL.table.treeAdd_iff hL.inv hmax hm hpage (hL.fresh_page fun a ha => (hnew a ha).2)
  · have hstatus : keyStatus L a.1 = .ok a.2 := by
      rw [keyStatus, if_neg (hL.slots a ha), lookup_of_mem hL.keys ha]
      rfl
    rw [← hstatus]
    exact hL.get a.1
  · have hlookup : L.lookup key = none := by
      rw [List.lookup_eq_none_iff]
      exact fun a ha => bne_iff_ne.mpr (hnew a ha).symm
    obtain ⟨n, hget⟩ := hL.get key
    unfold keyStatus at hget
    rw [hlookup] at hget
    -- both fuels suffice for the larger one
    constructor
    · rintro ⟨n', hnoent⟩ h0
      obtain ⟨z1, h1⟩ := hget (n + n') (Nat.le_add_right _ _)
      obtain ⟨z2, h2⟩ := hnoent (n + n') (Nat.le_add_left _ _)
      rw [if_pos h0, h2] at h1
      cases h1
    · intro h0
      rw [if_neg h0] at hget
      exact ⟨n, hget⟩

/-- A member page with a key, in a new page. -/
theorem new_member (h : Inv true z) (hlt : z.bseq < 2 ^ 21 - 64) (key : ShKey) :
    ∃ z', Within (fun q => z.bseq ≤ q) z z' ∧ IsPage z' z.bseq pageFile ∧
      memberId z' z.bseq = key.toBytes ∧ z'.bseq = z.bseq + 1 := by
  obtain ⟨dataOf, max, -, -, hnew⟩ := h.roomy.pageNew_run (by omega) (pageFits_of_lt hlt) pageFile
  obtain ⟨-, hw, hbseq, hpage, -⟩ := pageNew_within h (by decide) hnew
  obtain ⟨z', -, hw', hid, hsame⟩ :=
    keyed_entity key 0 (hw (S := fun _ => False)).step.inv (Nat.ne_of_gt h.pos) hpage
  exact ⟨z', hw.trans (hw'.mono fun q _ _ hq => Nat.le_of_eq hq.symm), hpage.step hw'.step, hid,
    hsame.trans hbseq⟩

/-- A fresh archive with a member page. -/
theorem fresh_member (key : ShKey) :
    ∃ z, Adds plainEnv z [] ∧ IsPage z 3 pageFile ∧ memberId z 3 = key.toBytes ∧ z.bseq = 4 := by
  obtain ⟨z, hrun, hbseq⟩ := fresh_run
  have hz : Adds plainEnv z [] := .fresh (fun _ => rfl) (by decide) hrun
  obtain ⟨_, _, hL⟩ := hz.holds
  obtain ⟨z', hw, hpage, hid, hsucc⟩ := new_member hL.inv (by rw [hbseq]; decide) key
  rw [hbseq] at hpage hid hsucc
  exact ⟨z', .pages hz hw, hpage, hid, hsucc⟩

/-- Keys with different slots, and one without. -/
def slotKey : ShKey := ashkeyBlank

def otherKey : ShKey := { ashkeyBlank with alg := 2 }

def noSlotKey : ShKey := { ashkeyBlank with alg := 4 }

/-- A key whose slot of the root page is free is added there. -/
theorem Holds.add_root {L : List (ShKey × Nat)} (key : ShKey) (m : Nat) (h : Holds z root sides L)
    (hslot : keySlot key ≠ 0)
    (hfree : slotAt z (keySlot key) root = none) : ∃ t, treeAdd 1 key m z =
      some (.ok (), { z.put root (segOf (keySlot key)) (beBytes 4 m) with ftable := t }) := by
  unfold treeAdd
  rw [bind_ok (read_run _ _), h.table.nil, if_neg Bool.false_ne_true]
  have hat := h.table.tree
  have hnil := h.table.nil
  generalize z.ftable = tree at hat hnil
  rcases tree with _ | ⟨seq, left, right⟩
  · cases hnil
  obtain ⟨rfl, -⟩ := hat
  have hset : shzMapSet seq (keySlot key) m z =
      some (.ok (), z.put seq (segOf (keySlot key)) (beBytes 4 m)) :=
    mapSet_free ⟨Nat.pos_of_ne_zero hslot, keySlot_lt key⟩ hfree
  have hadd : shzTreeAdd (keySide key) (keySlot key) m 1 (.node seq left right) z =
      some (.ok (.node seq left right, .ok ()), z.put seq (segOf (keySlot key)) (beBytes 4 m)) := by
    rw [shzTreeAdd, bind_ok (h.inv.page_some h.table.page.lt)]
    dsimp only
    rw [bind_ok (attempt_run hset)]
    rfl
  rw [bind_ok hadd]
  exact ⟨_, rfl⟩

/-- All slots of an empty table are free. -/
theorem Holds.free_slot (h : Holds z root sides []) (key : ShKey) :
    slotAt z (keySlot key) root = none := by
  rcases hs : slotAt z (keySlot key) root with _ | m'
  · rfl
  · obtain ⟨a, ha, -⟩ :=
      h.pages true _ (keySlot_lt key) m' (mem_probes.mpr ⟨root, List.mem_cons_self, hs⟩)
    cases ha

/-- Two keys that have been added are found. -/
theorem keys_found_two : ∃ z, Adds plainEnv z [(otherKey, 4), (slotKey, 3)] ∧
    (∃ n, ∀ fuel ≥ n, ∃ z', treeGet fuel slotKey z = some (.ok 3, z')) ∧
    ∃ n, ∀ fuel ≥ n, ∃ z', treeGet fuel otherKey z = some (.ok 4, z') := by
  obtain ⟨z, hz, hpage, hid, hbseq⟩ := fresh_member slotKey
  obtain ⟨root, sides, hL⟩ := hz.holds
  obtain ⟨t, hrun⟩ := hL.add_root slotKey 3 (by decide +kernel) (hL.free_slot _)
  have hz₁ : Adds plainEnv _ [(slotKey, 3)] :=
    .add hz (fun a ha => by cases ha) (by decide) hpage hid hrun
  obtain ⟨sides₁, hL₁⟩ := hL.add (fun a ha => by cases ha) (by decide) hpage hid hrun
  obtain ⟨z₂, hw, hpage₂, hid₂, -⟩ :=
    new_member hL₁.inv (show z.bseq < _ by rw [hbseq]; decide) otherKey
  rw [show ({ z.put root (segOf (keySlot slotKey)) (beBytes 4 3) with ftable := t } : Arch).bseq =
    4 from hbseq]
    at hpage₂ hid₂
  have hz₂ := hz₁.pages hw
  obtain ⟨root₂, sides₂, hL₂⟩ := hz₂.holds
  -- the slot of the other key is as it was in the root page
  have hroot : root₂ = root := by
    rw [← hL₂.table.tree.seq_eq hL₂.table.nil, hw.ftable, hL₁.table.tree.seq_eq hL₁.table.nil]
  have hfree : slotAt z₂ (keySlot otherKey) root₂ = none := by
    rw [hroot, (hw.same root hL₁.table.page.lt hL₁.table.page.ne
      (Nat.not_le.mpr hL₁.table.page.lt)).slotAt (keySlot_lt _), slotAt_eq_none]
    refine (Arch.fld_put_ne (segOf_slot (keySlot_lt slotKey)).2 (segOf_slot (keySlot_lt otherKey)).2
      fun _ => .inr ?_).trans (slotAt_eq_none.mp (hL.free_slot otherKey))
    decide +kernel
  obtain ⟨t₂, hrun₂⟩ := hL₂.add_root otherKey 4 (by decide +kernel) hfree
  have hnew : ∀ a ∈ [(slotKey, 3)], a.1 ≠ otherKey ∧ a.2 ≠ 4 := by decide
  have hz₃ : Adds plainEnv _ [(otherKey, 4), (slotKey, 3)] :=
    .add hz₂ hnew (by decide) hpage₂ hid₂ hrun₂
  have hfound := (keys_found hz₃).2.1
  exact ⟨_, hz₃, hfound (slotKey, 3) (by decide), hfound (otherKey, 4) List.mem_cons_self⟩

/-- The checksum of a key may give it no slot: adding it to an empty table does not return. -/
theorem no_slot_key_lost :
    ∃ z, Adds plainEnv z [] ∧ IsPage z 3 pageFile ∧ memberId z 3 = noSlotKey.toBytes ∧
      ∀ fuel, treeAdd fuel noSlotKey 3 z = none := by
  obtain ⟨z, hz, hpage, hid, -⟩ := fresh_member noSlotKey
  obtain ⟨root, sides, hL⟩ := hz.holds
  refine ⟨z, hz, hpage, hid, fun fuel => ?_⟩
  rcases hrun : treeAdd fuel noSlotKey 3 z with _ | ⟨r, z'⟩
  · rfl
  · obtain ⟨sides', hL'⟩ := hL.add (fun a ha => nomatch ha) (by decide) hpage hid hrun
    exact absurd (by decide +kernel) (hL'.slots (noSlotKey, 3) List.mem_cons_self)

end LibShare.Shz
