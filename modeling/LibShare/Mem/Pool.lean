import LibShare.Base
import Mathlib.Data.List.Perm.Basic

/-!
# libshare — memory pools

The pools of memory buffers of `shmem_pool.c`. A caller pulls a buffer out of a
pool, uses it, and pushes it back; `shpool_pull` empties the slot that a running
number selects and closes the gap (`_shpool_compact`).

A buffer is known by a number; what it holds plays no part here. `World` is a
pool with its callers: the buffers that they hold, and how many buffers there
are. Callers give away buffers that they hold, and no others.

The loop of `_shpool_compact` counts a slot only where it finds it filled, and
not one that it fills itself. The buffers that follow the gap move down by one
slot and are no longer counted (`shpoolCompact_gap`), so nothing is lost only
when the last slot is pulled (`conserved_iff_pullsLast`).
-/

namespace LibShare.Mem

/-! ## Pools -/

/-- `shpool_t`: the array, unless there is none yet, and the number of slots in
use, which is an `int`: a pool stays below 2^31 buffers. A slot is a buffer or
`NULL`. -/
structure Shpool where
  pool : Option (List (Option Nat))
  max : Nat

/-- A slot of the array. -/
def Shpool.slot (pool : Shpool) (i : Nat) : Option Nat := (pool.pool.getD []).getD i none

/-- The buffers in the slots in use. -/
def Shpool.stored (pool : Shpool) : List Nat := ((pool.pool.getD []).take pool.max).filterMap id

/-- A pool with its callers. -/
structure World where
  pool : Shpool
  /-- `_shpool_index` -/
  index : UInt32
  /-- the number of buffers there are -/
  next : Nat
  /-- the buffers that callers hold -/
  held : List Nat

/-- `shalloc_pool_incr`, with the buffer. -/
def shallocPoolIncr (pool : Shpool) (buff : Nat) : Shpool :=
  match pool.pool with
  | none => { pool := some [some buff], max := 1 }
  | some slots => { pool := some (slots.take pool.max ++ [some buff]), max := pool.max + 1 }

/-- `shalloc_pool_incr` of `NULL`: the pool is given a new buffer. -/
def World.incrNew (w : World) : World :=
  { w with pool := shallocPoolIncr w.pool w.next, next := w.next + 1 }

/-- The next slot of the first `n` after slot `i` that is filled. -/
def nextFilled (slots : List (Option Nat)) (n i : Nat) : Option Nat :=
  (List.range' (i + 1) (n - (i + 1))).find? fun j => (slots.getD j none).isSome

/-- One pass of the loop of `_shpool_compact`, with the array and the count. -/
def compactPass (n : Nat) (s : List (Option Nat) × Nat) (i : Nat) : List (Option Nat) × Nat :=
  if (s.1.getD i none).isSome then (s.1, i + 1)
  else
    match nextFilled s.1 n i with
    | some j => ((s.1.set i (s.1.getD j none)).set j none, s.2)
    | none => s

/-- `_shpool_compact`. -/
def shpoolCompact (slots : List (Option Nat)) (n : Nat) : List (Option Nat) × Nat :=
  (List.range n).foldl (compactPass n) (slots, 0)

/-- A pool of fewer than two buffers is given another one before a pull. -/
def World.ready (w : World) : World := if w.pool.max < 2 then w.incrNew else w

/-- `shpool_pull`. -/
def World.shpoolPull (w : World) : World :=
  let w := w.ready
  let idx := w.index.toNat % w.pool.max
  let buff := w.pool.slot idx
  let r := shpoolCompact ((w.pool.pool.getD []).set idx none) w.pool.max
  { w with
    pool := { pool := some r.1, max := r.2 }
    index := w.index + 1
    held := buff.toList ++ w.held }

/-- A caller gives a buffer that it holds to the pool: `shpool_put`, and
`shpool_push`, which also clears the buffer. -/
def World.shpoolPut (w : World) (buff : Nat) : Option World :=
  if buff ∈ w.held then
    some { w with pool := shallocPoolIncr w.pool buff, held := w.held.erase buff }
  else none

/-- What happens to a pool and its callers. -/
inductive PoolOp
  /-- a caller allocates a buffer of its own -/
  | init
  | pull
  | push (buff : Option Nat)
  | put (buff : Option Nat)
  | grow

/-- One operation; nothing where a caller gives away a buffer that it does not
hold. -/
def World.step (w : World) : PoolOp → Option World
  | .init => some { w with held := w.next :: w.held, next := w.next + 1 }
  | .pull => some w.shpoolPull
  | .push (some buff) | .put (some buff) => w.shpoolPut buff
  | .push none | .put none | .grow => some w.incrNew

/-- A new pool (`shpool_init`), whatever the running number is. -/
def World.new (index : UInt32) : World :=
  { pool := { pool := none, max := 0 }, index := index, next := 0, held := [] }

/-! ## Conservation -/

/-- Every slot in use holds a buffer, and each buffer is held by a caller or
stored in a slot in use, once. -/
structure World.Conserved (w : World) : Prop where
  filled : ∀ i < w.pool.max, (w.pool.slot i).isSome = true
  once : (w.held ++ w.pool.stored).Perm (List.range w.next)

/-- Every state of a run is in order. -/
def World.ConservedAlong (w : World) : List PoolOp → Prop
  | [] => w.Conserved
  | op :: ops => w.Conserved ∧ ∀ w', w.step op = some w' → w'.ConservedAlong ops

/-- The number of slots that `shpool_pull` selects from. -/
def Shpool.pullMax (pool : Shpool) : Nat := if pool.max < 2 then pool.max + 1 else pool.max

/-- The running number selects the last slot. -/
def World.PullsLast (w : World) : Prop :=
  w.index.toNat % w.pool.pullMax + 1 = w.pool.pullMax

/-- Every pull of a run takes the buffer of the last slot. -/
def World.PullsLastAlong (w : World) : List PoolOp → Prop
  | [] => True
  | op :: ops => (op = .pull → w.PullsLast) ∧ ∀ w', w.step op = some w' → w'.PullsLastAlong ops

/-! ## Pools whose slots are all filled -/

/-- The slots in use are these buffers. -/
structure Shpool.Holds (pool : Shpool) (bufs : List Nat) : Prop where
  max : pool.max = bufs.length
  slots : (pool.pool.getD []).take pool.max = bufs.map some

theorem Shpool.Holds.slot {pool : Shpool} {bufs : List Nat} (h : pool.Holds bufs) {i : Nat}
    (hi : i < bufs.length) : pool.slot i = bufs[i]? := by
  have hget : ((pool.pool.getD []).take pool.max)[i]? = (bufs.map some)[i]? := by rw [h.slots]
  rw [List.getElem?_take_of_lt (by rw [h.max]; exact hi), List.getElem?_map] at hget
  rw [List.getElem?_eq_getElem hi] at hget ⊢
  unfold Shpool.slot
  rw [List.getD_eq_getElem?_getD, hget]
  rfl

theorem Shpool.Holds.stored {pool : Shpool} {bufs : List Nat} (h : pool.Holds bufs) :
    pool.stored = bufs := by
  unfold Shpool.stored
  rw [h.slots, List.filterMap_map]
  exact List.filterMap_some

theorem map_some_filterMap_id : ∀ {slots : List (Option Nat)}, (∀ x ∈ slots, x.isSome = true) →
    (slots.filterMap id).map some = slots := by
  intro slots
  induction slots with
  | nil =>
    intro _
    rfl
  | cons x slots ih =>
    intro h
    obtain ⟨buff, rfl⟩ := Option.isSome_iff_exists.mp (h x List.mem_cons_self)
    have hrest := ih fun y hy => h y (List.mem_cons_of_mem _ hy)
    show some buff :: (slots.filterMap id).map some = some buff :: slots
    rw [hrest]

theorem World.Conserved.holds {w : World} (h : w.Conserved) : w.pool.Holds w.pool.stored := by
  have hlen : w.pool.max ≤ (w.pool.pool.getD []).length := by
    by_contra hlt
    have hslot := h.filled (w.pool.pool.getD []).length (by omega)
    unfold Shpool.slot at hslot
    rw [List.getD_eq_getElem?_getD, List.getElem?_eq_none (Nat.le_refl _)] at hslot
    cases hslot
  have hall : ∀ x ∈ (w.pool.pool.getD []).take w.pool.max, x.isSome = true := by
    intro x hx
    obtain ⟨i, hi, rfl⟩ := List.mem_iff_getElem.mp hx
    have hi' : i < w.pool.max := by
      rw [List.length_take] at hi
      omega
    have hslot := h.filled i hi'
    unfold Shpool.slot at hslot
    rw [List.getD_eq_getElem?_getD, List.getElem?_eq_getElem (by omega)] at hslot
    rw [List.getElem_take]
    exact hslot
  have hmap := map_some_filterMap_id hall
  refine ⟨?_, hmap.symm⟩
  have hcount := congrArg List.length hmap
  rw [List.length_map, List.length_take, Nat.min_eq_left hlen] at hcount
  exact hcount.symm

/-- A pool whose slots are filled, and how its buffers and the callers' make up
all of them. -/
theorem World.conserved_iff {w : World} {bufs : List Nat} (h : w.pool.Holds bufs) :
    w.Conserved ↔ (w.held ++ bufs).Perm (List.range w.next) := by
  constructor
  · intro hc
    have honce := hc.once
    rw [h.stored] at honce
    exact honce
  · intro hperm
    refine ⟨?_, ?_⟩
    · intro i hi
      rw [h.max] at hi
      rw [h.slot hi, List.getElem?_eq_getElem hi]
      rfl
    · rw [h.stored]
      exact hperm

/-! ## The operations -/

theorem Shpool.Holds.incr {pool : Shpool} {bufs : List Nat} (h : pool.Holds bufs) (buff : Nat) :
    (shallocPoolIncr pool buff).Holds (bufs ++ [buff]) := by
  have hslots := h.slots
  have hmax := h.max
  unfold shallocPoolIncr
  split
  · next hnone =>
    have hnil : bufs = [] := by
      rw [hnone] at hslots
      simpa using hslots.symm
    subst hnil
    exact ⟨rfl, rfl⟩
  · next slots hsome =>
    rw [hsome, Option.getD_some] at hslots
    refine ⟨?_, ?_⟩
    · show pool.max + 1 = (bufs ++ [buff]).length
      rw [List.length_append, ← hmax]
      rfl
    · show (slots.take pool.max ++ [some buff]).take (pool.max + 1) = (bufs ++ [buff]).map some
      rw [hslots, List.map_append, List.take_of_length_le (by simp [hmax])]
      rfl

/-- The next filled slot after a gap is the one that follows it. -/
theorem nextFilled_gap {slots : List (Option Nat)} {n i : Nat}
    (h : ∀ j, i < j → j < n → (slots.getD j none).isSome = true) :
    nextFilled slots n i = if i + 1 < n then some (i + 1) else none := by
  unfold nextFilled
  split
  · next hlt =>
    obtain ⟨m, hm⟩ : ∃ m, n - (i + 1) = m + 1 := ⟨n - (i + 2), by omega⟩
    rw [hm, List.range'_succ, List.find?_cons_of_pos]
    exact h (i + 1) (by omega) hlt
  · next hge =>
    have hzero : n - (i + 1) = 0 := by omega
    rw [hzero]
    rfl

/-- After the passes up to slot `i` from a gap at slot `k` on: the slots before
the gap are as they were, the gap has moved to slot `i`, and the count stands
still. -/
structure Gap (slots : List (Option Nat)) (n k i : Nat) (s : List (Option Nat) × Nat) : Prop where
  length : s.1.length = slots.length
  before : s.1.take k = slots.take k
  gap : i < n → s.1.getD i none = none
  after : ∀ j, i < j → j < n → (s.1.getD j none).isSome = true
  count : s.2 = k

theorem Gap.pass {slots : List (Option Nat)} {n k i : Nat} {s : List (Option Nat) × Nat}
    (h : Gap slots n k i s) (hk : k ≤ i) (hn : n ≤ slots.length) (hi : i < n) :
    Gap slots n k (i + 1) (compactPass n s i) := by
  have hlen := h.length
  unfold compactPass
  rw [h.gap hi, nextFilled_gap h.after]
  by_cases hlt : i + 1 < n
  · rw [if_pos hlt]
    refine ⟨?_, ?_, ?_, ?_, h.count⟩
    · show ((s.1.set i _).set (i + 1) none).length = slots.length
      rw [List.length_set, List.length_set, hlen]
    · show ((s.1.set i _).set (i + 1) none).take k = _
      rw [List.take_set_of_le (by omega), List.take_set_of_le (by omega)]
      exact h.before
    · intro _
      show ((s.1.set i _).set (i + 1) none).getD (i + 1) none = none
      rw [List.getD_eq_getElem?_getD, List.getElem?_set_self (by rw [List.length_set]; omega)]
      rfl
    · intro j hij hj
      show (((s.1.set i _).set (i + 1) none).getD j none).isSome = true
      rw [List.getD_eq_getElem?_getD, List.getElem?_set_ne (by omega),
        List.getElem?_set_ne (by omega), ← List.getD_eq_getElem?_getD]
      exact h.after j (by omega) hj
  · rw [if_neg hlt]
    exact ⟨hlen, h.before, fun hlt' => absurd hlt' hlt, fun j _ hj => by omega, h.count⟩

/-- Where one slot of the array is empty, the slots before it are what is left. -/
theorem shpoolCompact_gap {slots : List (Option Nat)} {n k : Nat} (hn : n ≤ slots.length)
    (hk : k < n)
    (hgap : slots.getD k none = none)
    (hfull : ∀ j < n, j ≠ k → (slots.getD j none).isSome = true) :
    (shpoolCompact slots n).1.take k = slots.take k ∧ (shpoolCompact slots n).2 = k := by
  have hpasses : ∀ i ≤ n,
      if i ≤ k then (List.range i).foldl (compactPass n) (slots, 0) = (slots, i)
      else Gap slots n k i ((List.range i).foldl (compactPass n) (slots, 0)) := by
    intro i
    induction i with
    | zero =>
      intro _
      rfl
    | succ i ih =>
      intro hi
      have hprev := ih (by omega)
      rw [List.range_succ, List.foldl_append, List.foldl_cons, List.foldl_nil]
      rcases Nat.lt_trichotomy i k with hlt | heq | hgt
      · -- a slot before the gap is counted
        rw [if_pos (by omega)] at hprev ⊢
        rw [hprev]
        unfold compactPass
        rw [if_pos (hfull i (by omega) (by omega))]
      · rw [if_pos (by omega)] at hprev
        rw [if_neg (by omega), hprev]
        have hstart : Gap slots n k i (slots, i) :=
          ⟨rfl, rfl, fun _ => heq ▸ hgap, fun j hij hj => hfull j hj (by omega), heq⟩
        exact hstart.pass (by omega) hn (by omega)
      · rw [if_neg (by omega)] at hprev ⊢
        exact hprev.pass (by omega) hn (by omega)
  have hend := hpasses n (Nat.le_refl n)
  rw [if_neg (by omega)] at hend
  exact ⟨hend.before, hend.count⟩

theorem World.Conserved.incrNew {w : World} (h : w.Conserved) : w.incrNew.Conserved := by
  rw [World.conserved_iff (h.holds.incr w.next)]
  show (w.held ++ (w.pool.stored ++ [w.next])).Perm (List.range (w.next + 1))
  rw [← List.append_assoc, List.range_succ]
  exact h.once.append_right _

theorem World.Conserved.ready {w : World} (h : w.Conserved) : w.ready.Conserved := by
  unfold World.ready
  split
  · exact h.incrNew
  · exact h

theorem World.Conserved.ready_max {w : World} (h : w.Conserved) :
    w.ready.pool.max = w.pool.pullMax := by
  unfold World.ready Shpool.pullMax
  split
  · have hgrown : w.incrNew.pool.max = (w.pool.stored ++ [w.next]).length :=
      (h.holds.incr w.next).max
    rw [hgrown, List.length_append, ← h.holds.max]
    rfl
  · rfl

theorem Shpool.pullMax_pos (pool : Shpool) : 0 < pool.pullMax := by
  unfold Shpool.pullMax
  split <;> omega

/-- `shpool_pull`: the buffers in the slots before the one that is selected are
what is left in the pool. -/
theorem World.Conserved.pull {w : World} (h : w.Conserved) {k : Nat}
    (hk : k = w.index.toNat % w.pool.pullMax) :
    ∃ buff, w.ready.pool.stored[k]? = some buff ∧ w.shpoolPull.held = buff :: w.ready.held ∧
      w.shpoolPull.pool.Holds (w.ready.pool.stored.take k) := by
  have hholds := h.ready.holds
  have hmax := h.ready_max
  have hlen := hholds.max
  have hlt : k < w.ready.pool.stored.length := by
    rw [← hlen, hmax, hk]
    exact Nat.mod_lt _ w.pool.pullMax_pos
  have hindex : w.ready.index.toNat % w.ready.pool.max = k := by
    rw [hmax, hk]
    unfold World.ready
    split <;> rfl
  have hslots : w.ready.pool.max ≤ (w.ready.pool.pool.getD []).length := by
    have hcount := congrArg List.length hholds.slots
    rw [List.length_take, List.length_map, ← hlen] at hcount
    omega
  have hgap : ((w.ready.pool.pool.getD []).set k none).getD k none = none := by
    rw [List.getD_eq_getElem?_getD, List.getElem?_set_self (by omega)]
    rfl
  have hfull : ∀ j < w.ready.pool.max, j ≠ k →
      (((w.ready.pool.pool.getD []).set k none).getD j none).isSome = true := by
    intro j hj hne
    rw [List.getD_eq_getElem?_getD, List.getElem?_set_ne (by omega), ← List.getD_eq_getElem?_getD]
    exact h.ready.filled j hj
  obtain ⟨hbefore, hcount⟩ :=
    shpoolCompact_gap (by rw [List.length_set]; exact hslots) (by omega) hgap hfull
  refine ⟨w.ready.pool.stored[k], List.getElem?_eq_getElem hlt, ?_, ?_, ?_⟩
  · show (w.ready.pool.slot (w.ready.index.toNat % w.ready.pool.max)).toList ++ w.ready.held = _
    rw [hindex, hholds.slot hlt, List.getElem?_eq_getElem hlt]
    rfl
  · show (shpoolCompact ((w.ready.pool.pool.getD []).set
        (w.ready.index.toNat % w.ready.pool.max) none)
      w.ready.pool.max).2 = (w.ready.pool.stored.take k).length
    rw [hindex, hcount, List.length_take, Nat.min_eq_left (by omega)]
  · show ((shpoolCompact ((w.ready.pool.pool.getD []).set
        (w.ready.index.toNat % w.ready.pool.max) none)
      w.ready.pool.max).1).take (shpoolCompact ((w.ready.pool.pool.getD []).set
        (w.ready.index.toNat % w.ready.pool.max) none) w.ready.pool.max).2 = _
    rw [hindex, hcount, hbefore, List.take_set_of_le (Nat.le_refl k), List.map_take, ← hholds.slots,
      List.take_take, Nat.min_eq_left (by omega)]

/-- A pull loses nothing just when it takes the buffer of the last slot. -/
theorem World.Conserved.pull_iff {w : World} (h : w.Conserved) :
    w.shpoolPull.Conserved ↔ w.PullsLast := by
  obtain ⟨buff, hbuff, hheld, hholds⟩ := h.pull rfl
  have honce := h.ready.once
  have hmax : w.ready.pool.stored.length = w.pool.pullMax := by
    rw [← h.ready.holds.max, h.ready_max]
  rw [World.conserved_iff hholds, hheld]
  show (buff :: w.ready.held ++ _).Perm (List.range w.ready.next) ↔ _
  unfold World.PullsLast
  constructor
  · intro hperm
    have h1 := hperm.length_eq
    have h2 := honce.length_eq
    rw [List.length_append, List.length_cons, List.length_take, List.length_range] at h1
    rw [List.length_append, List.length_range] at h2
    have hlt := Nat.mod_lt w.index.toNat w.pool.pullMax_pos
    omega
  · intro hlast
    refine List.Perm.trans ?_ honce
    have hsplit : w.ready.pool.stored =
        w.ready.pool.stored.take (w.index.toNat % w.pool.pullMax) ++ [buff] := by
      have hdrop := List.take_append_drop (w.index.toNat % w.pool.pullMax) w.ready.pool.stored
      rw [List.drop_eq_getElem_cons (by omega), List.drop_of_length_le (by omega)] at hdrop
      rw [List.getElem?_eq_getElem (by omega)] at hbuff
      rw [Option.some.inj hbuff] at hdrop
      exact hdrop.symm
    nth_rewrite 2 [hsplit]
    rw [← List.append_assoc]
    exact (List.perm_append_singleton buff _).symm

/-- A caller's buffer changes hands. -/
theorem World.Conserved.put {w w' : World} {buff : Nat} (h : w.Conserved)
    (hput : w.shpoolPut buff = some w') : w'.Conserved := by
  unfold World.shpoolPut at hput
  split at hput
  · next hmem =>
    cases hput
    rw [World.conserved_iff (h.holds.incr buff)]
    refine List.Perm.trans ?_ h.once
    show (w.held.erase buff ++ (w.pool.stored ++ [buff])).Perm (w.held ++ w.pool.stored)
    rw [← List.append_assoc]
    refine (List.perm_append_singleton buff _).trans ?_
    exact (List.perm_cons_erase hmem).symm.append_right _
  · cases hput

/-- One operation keeps a pool in order, unless it is a pull of another slot than
the last one. -/
theorem World.Conserved.step_iff {w w' : World} {op : PoolOp} (h : w.Conserved)
    (hstep : w.step op = some w') : w'.Conserved ↔ (op = .pull → w.PullsLast) := by
  rcases op with _ | _ | (_ | buff) | (_ | buff) | _
  case pull =>
    cases hstep
    exact ⟨fun hc _ => h.pull_iff.mp hc, fun hlast => h.pull_iff.mpr (hlast rfl)⟩
  all_goals
    refine iff_of_true ?_ (fun hop => by cases hop)
  · cases hstep
    refine ⟨h.filled, ?_⟩
    show (w.next :: (w.held ++ w.pool.stored)).Perm (List.range (w.next + 1))
    rw [List.range_succ]
    exact (h.once.cons _).trans (List.perm_append_singleton _ _).symm
  · cases hstep
    exact h.incrNew
  · exact h.put hstep
  · cases hstep
    exact h.incrNew
  · exact h.put hstep
  · cases hstep
    exact h.incrNew

theorem World.new_conserved (index : UInt32) : (World.new index).Conserved :=
  ⟨fun i hi => absurd hi (Nat.not_lt_zero i), List.Perm.refl _⟩

theorem World.ConservedAlong.head {w : World} {ops : List PoolOp} (h : w.ConservedAlong ops) :
    w.Conserved := by
  cases ops with
  | nil => exact h
  | cons _ _ => exact h.1

/-- The states of a run from one that is in order are in order just when every
pull takes the buffer of the last slot. -/
theorem World.Conserved.along_iff : ∀ {ops : List PoolOp} {w : World}, w.Conserved →
    (w.ConservedAlong ops ↔ w.PullsLastAlong ops) := by
  intro ops
  induction ops with
  | nil =>
    intro w h
    exact iff_of_true h trivial
  | cons op ops ih =>
    intro w h
    constructor
    · intro hall
      refine ⟨?_, ?_⟩
      · intro hop
        subst hop
        exact h.pull_iff.mp (hall.2 w.shpoolPull rfl).head
      · intro w' hstep
        have hnext := hall.2 w' hstep
        exact (ih hnext.head).mp hnext
    · intro hlast
      refine ⟨h, ?_⟩
      intro w' hstep
      exact (ih ((h.step_iff hstep).mpr hlast.1)).mpr (hlast.2 w' hstep)

/-- A pool conserves its buffers, in every state of every run from a new one,
just when every pull of the run takes the buffer of the last slot. -/
theorem shpool_conserves_iff (index : UInt32) (ops : List PoolOp) :
    (World.new index).ConservedAlong ops ↔ (World.new index).PullsLastAlong ops :=
  (World.new_conserved index).along_iff

/-- The first pull out of a pool of two buffers takes the first one, and the pool
is left with none. -/
theorem shpoolPull_loses_buffer :
    ¬ (World.new 0).ConservedAlong [.grow, .grow, .pull] := by
  intro h
  have hpull := (h.2 _ rfl).2 _ rfl
  have hlen := (hpull.2 _ rfl).once.length_eq
  revert hlen
  decide

end LibShare.Mem
