import LibShare.Mem.MapRefine

/-!
# libshare — locks between threads

The locks of `shmem_lock.c`: a record for each key, found through a map, with a
count of references, the thread that has the lock and a mutex. Every call is one
step. A call that waits in `pthread_mutex_lock` is a step that is not there yet.

The threads are told apart by their number (`gettid`), the records by the order
in which they were allocated. `Shared` adds to the locks what the claim of a lock
rests on: how many successful opens of a key a thread has not closed.

* A step keeps `Exclusive` unless it is a `shlock_tryopen` by the thread that has
  the lock. `exclusive_run` is the result for the runs of the other steps.
* That call counts a reference and leaves the mutex as it is, while every
  `shlock_close` unlocks the mutex: `two_threads_hold` is a run of four steps with
  two holders.
-/

namespace LibShare.Mem

/-! ## The mutex of the C library -/

/-- `pthread_mutex_t`. -/
structure Mutex where
  /-- `PTHREAD_MUTEX_RECURSIVE` -/
  recursive : Bool
  owner : Option UInt32
  count : UInt32
deriving DecidableEq

/-- `pthread_mutex_init`. -/
def mutexInit (recursive : Bool) : Mutex := { recursive := recursive, owner := none, count := 0 }

/-- How a call that locks a mutex ends. -/
inductive Locking
  | locked (mutex : Mutex)
  /-- `EAGAIN`: as many recursive locks as can be counted -/
  | again
  /-- another thread has it, or this one has it and may not have it twice -/
  | busy

/-- What a thread meets that locks a mutex. -/
def mutexLock (tid : UInt32) (mutex : Mutex) : Locking :=
  match mutex.owner with
  | none => .locked { mutex with owner := some tid, count := 1 }
  | some owner =>
    if owner = tid ∧ mutex.recursive then
      if mutex.count + 1 = 0 then .again else .locked { mutex with count := mutex.count + 1 }
    else .busy

/-- `pthread_mutex_unlock`; no mutex where it is `EPERM`. -/
def mutexUnlock (tid : UInt32) (mutex : Mutex) : Option Mutex :=
  if mutex.recursive then
    if mutex.owner = some tid then
      if mutex.count = 1 then some { mutex with owner := none, count := 0 }
      else some { mutex with count := mutex.count - 1 }
    else none
  -- the other kind does not look at who unlocks it
  else some { mutex with owner := none, count := 0 }

/-! ## Locks -/

/-- `SHLK_PRIVATE`. -/
def shlkPrivate : UInt32 := 0x80

/-- `shlock_t`, less what these functions do not use. -/
structure Shlock where
  ref : UInt32
  tid : UInt32
  mutex : Mutex
deriving DecidableEq

/-- The memory of the process that has to do with locks. -/
structure Locks where
  /-- `_lock_map`, with the places of the records in `heap` -/
  map : Shmap Nat
  heap : Nat → Shlock
  /-- how many records have been allocated -/
  size : Nat

/-- The map does not look at the records. -/
def lockCaller : Caller Nat := { peek := fun _ _ => [], strlen := fun _ => 0 }

/-- What `calloc` and `pthread_mutex_init` make of a record. -/
def shlockInit (flags : UInt32) : Shlock :=
  { ref := 0, tid := 0, mutex := mutexInit (decide (flags &&& shlkPrivate = 0)) }

/-- No lock has been asked for. -/
def noLocks : Locks := { map := shmapInit, heap := fun _ => shlockInit 0, size := 0 }

/-- `shmap_get_ptr` on the map of locks. -/
def Locks.find (locks : Locks) (key : ShKey) : Option Nat :=
  match shmapGet locks.map key with
  | some (.ref lk) => some lk
  | _ => none

/-- A record for a key that has none. -/
def Locks.create (locks : Locks) (key : ShKey) (flags : UInt32) : Locks :=
  { map := shmapSetPtr lockCaller locks.map key (some locks.size)
    heap := Function.update locks.heap locks.size (shlockInit flags)
    size := locks.size + 1 }

/-- The record of a key, which is made if there is none; `mem` says that there is memory for it. -/
def Locks.obtain (mem : Bool) (locks : Locks) (key : ShKey) (flags : UInt32) :
    Option (Locks × Nat) :=
  match locks.find key with
  | some lk => some (locks, lk)
  | none => if mem then some (locks.create key flags, locks.size) else none

/-- A change of one record. -/
def Locks.set (locks : Locks) (lk : Nat) (val : Shlock) : Locks :=
  { locks with heap := Function.update locks.heap lk val }

/-- The thread takes a reference, and leaves the mutex as it is given. -/
def Locks.take (locks : Locks) (lk : Nat) (tid : UInt32) (mutex : Mutex) : Locks :=
  locks.set lk { ref := (locks.heap lk).ref + 1, tid := tid, mutex := mutex }

/-- How a call of `shlock_open`, `shlock_tryopen` or `shlock_close` ends. -/
inductive LockEnd
  /-- the lock, or a status of zero -/
  | done
  /-- a status of one: the mutex is already locked -/
  | taken
  /-- no lock, or a status of minus one -/
  | failed
deriving DecidableEq

/-- `shlock_open`. No result: the thread waits for the mutex. -/
def shlockOpen (mem : Bool) (tid : UInt32) (locks : Locks) (key : ShKey) (flags : UInt32) :
    Option (Locks × LockEnd) :=
  match locks.obtain mem key flags with
  | none => some (locks, .failed)
  | some (locks, lk) =>
    match mutexLock tid (locks.heap lk).mutex with
    | .busy => none
    | .again => some (locks, .failed)
    | .locked mutex => some (locks.take lk tid mutex, .done)

/-- `shlock_tryopen`. -/
def shlockTryopen (mem : Bool) (tid : UInt32) (locks : Locks) (key : ShKey) (flags : UInt32) :
    Locks × LockEnd :=
  match locks.obtain mem key flags with
  | none => (locks, .failed)
  | some (locks, lk) =>
    if (locks.heap lk).ref ≠ 0 ∧ (flags &&& shlkPrivate ≠ 0 ∨ tid ≠ (locks.heap lk).tid) then
      (locks, .taken)
    else if (locks.heap lk).ref = 0 ∨ (locks.heap lk).tid ≠ tid then
      match mutexLock tid (locks.heap lk).mutex with
      | .busy => (locks, .taken)
      | .again => (locks, .failed)
      | .locked mutex => (locks.take lk tid mutex, .done)
    -- the thread has the lock: one more reference, and the mutex as it was
    else (locks.take lk tid (locks.heap lk).mutex, .done)

/-- The record after a `shlock_close` that unlocked the mutex. -/
def Shlock.release (val : Shlock) (mutex : Mutex) : Shlock :=
  { ref := val.ref - 1, tid := if val.ref - 1 = 0 then 0 else val.tid, mutex := mutex }

/-- `shlock_close`. -/
def shlockClose (tid : UInt32) (locks : Locks) (key : ShKey) : Locks × LockEnd :=
  match locks.find key with
  | none => (locks, .done)
  | some lk =>
    if (locks.heap lk).ref = 0 then (locks, .done)
    -- wrong thread calling
    else if tid ≠ (locks.heap lk).tid then (locks, .done)
    else
      match mutexUnlock tid (locks.heap lk).mutex with
      | none => (locks, .failed)
      | some mutex => (locks.set lk ((locks.heap lk).release mutex), .done)

/-! ## Runs -/

/-- What a thread calls. -/
inductive LockCall
  | shopen (mem : Bool) (flags : UInt32)
  | tryopen (mem : Bool) (flags : UInt32)
  | close

/-- A call by a thread. -/
structure LockStep where
  tid : UInt32
  key : ShKey
  call : LockCall

/-- The locks, and how many opens of a key a thread has not closed. -/
structure Shared where
  locks : Locks
  held : ShKey → UInt32 → Nat

/-- The opens of a key by a thread are counted anew. -/
def Shared.count (s : Shared) (step : LockStep) (n : Nat) : ShKey → UInt32 → Nat :=
  Function.update s.held step.key (Function.update (s.held step.key) step.tid n)

/-- The state after a call that opens. -/
def Shared.opened (s : Shared) (step : LockStep) : Locks × LockEnd → Shared
  | (locks, .done) => { locks := locks, held := s.count step (s.held step.key step.tid + 1) }
  | (locks, _) => { s with locks := locks }

/-- The state after a call that closes. -/
def Shared.closed (s : Shared) (step : LockStep) : Locks × LockEnd → Shared
  | (locks, .done) => { locks := locks, held := s.count step (s.held step.key step.tid - 1) }
  | (locks, _) => { s with locks := locks }

/-- One call. No result: the thread waits. -/
def LockStep.run (step : LockStep) (s : Shared) : Option Shared :=
  match step.call with
  | .shopen mem flags => (shlockOpen mem step.tid s.locks step.key flags).map (s.opened step)
  | .tryopen mem flags => some (s.opened step (shlockTryopen mem step.tid s.locks step.key flags))
  | .close => some (s.closed step (shlockClose step.tid s.locks step.key))

/-- The states of the runs whose steps meet a condition in the state before them. -/
inductive LockRun (Ok : Shared → LockStep → Prop) : Shared → Prop
  | start : LockRun Ok { locks := noLocks, held := fun _ _ => 0 }
  | step {s s' : Shared} {step : LockStep} :
      LockRun Ok s → Ok s step → step.run s = some s' → LockRun Ok s'

/-- The record of a key, if there is one. -/
def Locks.lock (locks : Locks) (key : ShKey) : Option Shlock :=
  (locks.find key).map locks.heap

/-- **Mutual exclusion.** A key has one holder at most, and its record counts the
opens which that thread has not closed. -/
structure Exclusive (s : Shared) : Prop where
  one : ∀ key tid tid', 0 < s.held key tid → 0 < s.held key tid' → tid = tid'
  ref : ∀ key tid, 0 < s.held key tid →
    ∃ lk, s.locks.lock key = some lk ∧ lk.ref.toNat = s.held key tid
  idle : ∀ key lk, s.locks.lock key = some lk → (∀ tid, s.held key tid = 0) → lk.ref = 0

/-- The step is no `shlock_tryopen` of a key that its thread has, unless with `SHLK_PRIVATE`. -/
def NotNested (s : Shared) (step : LockStep) : Prop :=
  match step.call with
  | .tryopen _ flags => flags &&& shlkPrivate ≠ 0 ∨ s.held step.key step.tid = 0
  | _ => True

/-! ## Records and their keys -/

/-- Every key has a record of its own. -/
structure Locks.Wf (locks : Locks) : Prop where
  refines : ∃ m, Refines locks.map m
  lt_size : ∀ key lk, locks.find key = some lk → lk < locks.size
  inj : ∀ key key' lk, locks.find key = some lk → locks.find key' = some lk → key = key'

/-- One record is set. -/
theorem Locks.set_heap (locks : Locks) (lk : Nat) (val : Shlock) :
    (locks.set lk val).heap = Function.update locks.heap lk val := rfl

/-- One record is made. -/
theorem Locks.create_heap (locks : Locks) (key : ShKey) (flags : UInt32) :
    (locks.create key flags).heap = Function.update locks.heap locks.size (shlockInit flags) := rfl

theorem noLocks_find (key : ShKey) : noLocks.find key = none := by
  rw [Locks.find, show noLocks.map = shmapInit from rfl, shmapInit_refines.get_eq,
    Finmap.lookup_empty]

/-- Without locks all is in order. -/
theorem noLocks_wf : noLocks.Wf where
  refines := ⟨∅, shmapInit_refines⟩
  lt_size key lk h := by simp [noLocks_find] at h
  inj key key' lk h := by simp [noLocks_find] at h

/-- A new record is found under its key, and the others under theirs. -/
theorem Locks.Wf.find_create {locks : Locks} (h : locks.Wf) (key : ShKey) (flags : UInt32)
    (key' : ShKey) :
    (locks.create key flags).find key' = if key' = key then
      some locks.size else locks.find key' := by
  obtain ⟨m, hm⟩ := h.refines
  have hput : Refines (locks.create key flags).map (m.putRef key (some locks.size)) :=
    store_ref_refines hm lockCaller key (by decide) (some locks.size) 0
  rw [find, hput.get_eq, AbsMap.putRef]
  split_ifs with hkey
  · rw [hkey, Finmap.lookup_insert]
  · rw [Finmap.lookup_insert_of_ne _ hkey, ← hm.get_eq, find]

/-- A new record keeps the order of the table. -/
theorem Locks.Wf.create {locks : Locks} (h : locks.Wf) (key : ShKey) (flags : UInt32) :
    (locks.create key flags).Wf where
  refines := by
    obtain ⟨m, hm⟩ := h.refines
    exact ⟨_, store_ref_refines hm lockCaller key (by decide) (some locks.size) 0⟩
  lt_size key' lk hfind := by
    rw [h.find_create] at hfind
    show lk < locks.size + 1
    split_ifs at hfind with hkey
    · cases hfind
      exact Nat.lt_succ_self _
    · exact Nat.lt_succ_of_lt (h.lt_size key' lk hfind)
  inj key₁ key₂ lk h₁ h₂ := by
    rw [h.find_create] at h₁ h₂
    -- the place of the new record is not one that is in use
    have hfresh : ∀ key', locks.find key' ≠ some locks.size := by
      intro key' hf
      exact Nat.lt_irrefl _ (h.lt_size key' _ hf)
    split_ifs at h₁ h₂ with hk₁ hk₂ hk₂
    · rw [hk₁, hk₂]
    · cases h₁
      exact absurd h₂ (hfresh key₂)
    · cases h₂
      exact absurd h₁ (hfresh key₁)
    · exact h.inj key₁ key₂ lk h₁ h₂

/-- A record that is set keeps the order of the table. -/
theorem Locks.Wf.set {locks : Locks} (h : locks.Wf) (lk : Nat) (val : Shlock) :
    (locks.set lk val).Wf where
  refines := h.refines
  lt_size := h.lt_size
  inj := h.inj

/-- The lock of the key is the record that has been set. -/
theorem Locks.lock_set_self {locks : Locks} {key : ShKey} {lk : Nat} (val : Shlock)
    (hfind : locks.find key = some lk) : (locks.set lk val).lock key = some val := by
  have hsame : (locks.set lk val).find key = some lk := hfind
  rw [lock, hsame, Option.map_some, set_heap, Function.update_self]

/-- The locks of the other keys are what they were. -/
theorem Locks.Wf.lock_set_of_ne {locks : Locks} (h : locks.Wf) {key key' : ShKey} {lk : Nat}
    (val : Shlock) (hfind : locks.find key = some lk) (hne : key' ≠ key) :
    (locks.set lk val).lock key' = locks.lock key' := by
  have hsame : (locks.set lk val).find key' = locks.find key' := rfl
  rw [lock, lock, hsame]
  cases hother : locks.find key' with
  | none => rfl
  | some lk' =>
    have hlk : lk' ≠ lk := by
      rintro rfl
      exact hne (h.inj key' key lk' hother hfind)
    rw [Option.map_some, Option.map_some, set_heap, Function.update_of_ne hlk]

/-- A new lock is initialised, and the others are what they were. -/
theorem Locks.Wf.lock_create {locks : Locks} (h : locks.Wf) (key : ShKey) (flags : UInt32)
    (key' : ShKey) : (locks.create key flags).lock key' =
      if key' = key then some (shlockInit flags) else locks.lock key' := by
  rw [lock, h.find_create]
  split_ifs with hkey
  · rw [Option.map_some, create_heap, Function.update_self]
  · cases hother : locks.find key' with
    | none => rw [lock, hother, Option.map_none, Option.map_none]
    | some lk' =>
      have hlk : lk' ≠ locks.size := Nat.ne_of_lt (h.lt_size key' lk' hother)
      rw [lock, hother, Option.map_some, Option.map_some, create_heap, Function.update_of_ne hlk]

/-! ## One lock -/

/-- No thread has the lock. -/
structure Unheld (lk : Shlock) (held : UInt32 → Nat) : Prop where
  ref : lk.ref = 0
  owner : lk.mutex.owner = none
  opens : ∀ tid, held tid = 0

/-- The thread of the record has the lock, and the mutex as often as there are references. -/
structure HeldOnce (lk : Shlock) (held : UInt32 → Nat) : Prop where
  ref : lk.ref ≠ 0
  owner : lk.mutex.owner = some lk.tid
  count : lk.mutex.count = lk.ref
  single : lk.mutex.recursive = false → lk.ref = 1
  opens : held lk.tid = lk.ref.toNat
  others : ∀ tid, tid ≠ lk.tid → held tid = 0

/-- A lock and the opens of its key. -/
def Accounted (lk : Shlock) (held : UInt32 → Nat) : Prop := Unheld lk held ∨ HeldOnce lk held

/-- Step lemma: a thread that locked the mutex takes a reference. -/
theorem Accounted.lock {lk : Shlock} {held : UInt32 → Nat} (h : Accounted lk held) {tid : UInt32}
    {mutex : Mutex} (hlock : mutexLock tid lk.mutex = .locked mutex) :
    Accounted { ref := lk.ref + 1, tid := tid, mutex := mutex }
      (Function.update held tid (held tid + 1)) := by
  right
  obtain h | h := h
  · rw [mutexLock, h.owner] at hlock
    cases hlock
    exact {
      ref := by simp [h.ref]
      owner := rfl
      count := by simp [h.ref]
      single := fun _ => by simp [h.ref]
      opens := by simp [h.ref, h.opens]
      others := fun other hne => by rw [Function.update_of_ne hne, h.opens] }
  · rw [mutexLock, h.owner] at hlock
    simp only at hlock
    split_ifs at hlock with hown hmax
    cases hlock
    obtain ⟨rfl, hrec⟩ := hown
    have hnowrap : (lk.ref + 1).toNat = lk.ref.toNat + 1 := by
      rw [h.count] at hmax
      have := lk.ref.toNat_lt
      have hne : (lk.ref + 1).toNat ≠ 0 := fun h0 => hmax (UInt32.toNat_inj.mp h0)
      rw [UInt32.toNat_add] at hne ⊢
      simp only [UInt32.toNat_one] at hne ⊢
      omega
    exact {
      ref := by rwa [h.count] at hmax
      owner := rfl
      count := by rw [h.count]
      single := fun hno => absurd (hrec.symm.trans hno) (by decide)
      opens := by rw [Function.update_self, h.opens, hnowrap]
      others := fun other hne => by rw [Function.update_of_ne hne, h.others other hne] }

/-- A thread that does not have the lock has nothing to close. -/
theorem Accounted.opens_eq_zero {lk : Shlock} {held : UInt32 → Nat} (h : Accounted lk held)
    {tid : UInt32} (hother : lk.ref = 0 ∨ tid ≠ lk.tid) : held tid = 0 := by
  obtain h | h := h
  · exact h.opens tid
  · obtain href | hne := hother
    · exact absurd href h.ref
    · exact h.others tid hne

/-- A record with a count is held by one thread, as often as it counts. -/
theorem Accounted.heldOnce {lk : Shlock} {held : UInt32 → Nat} (h : Accounted lk held)
    (href : lk.ref ≠ 0) : HeldOnce lk held := by
  obtain h | h := h
  · exact absurd h.ref href
  · exact h

theorem toNat_sub_one {n : UInt32} (h : n ≠ 0) : (n - 1).toNat = n.toNat - 1 := by
  have hpos : n.toNat ≠ 0 := fun h0 => h (UInt32.toNat_inj.mp h0)
  have hle : (1 : UInt32) ≤ n := UInt32.le_iff_toNat_le.mpr (Nat.one_le_iff_ne_zero.mpr hpos)
  rw [UInt32.toNat_sub_of_le n 1 hle, UInt32.toNat_one]

/-- Step lemma: the thread that has the lock closes it. -/
theorem HeldOnce.unlock {lk : Shlock} {held : UInt32 → Nat} (h : HeldOnce lk held) :
    ∃ mutex, mutexUnlock lk.tid lk.mutex = some mutex ∧
      Accounted (lk.release mutex) (Function.update held lk.tid (held lk.tid - 1)) := by
  have hothers : ∀ tid, tid ≠ lk.tid →
      Function.update held lk.tid (held lk.tid - 1) tid = 0 := by
    intro tid hne
    rw [Function.update_of_ne hne, h.others tid hne]
  by_cases hlast : lk.ref = 1
  · -- the last reference: the mutex becomes free
    refine ⟨{ lk.mutex with owner := none, count := 0 }, ?_, .inl ⟨?_, rfl, ?_⟩⟩
    · rw [mutexUnlock, h.count, hlast, h.owner, if_pos rfl, if_pos rfl, ite_self]
    · simp [Shlock.release, hlast]
    · intro tid
      by_cases hne : tid = lk.tid
      · rw [hne, Function.update_self, h.opens, hlast]
        rfl
      · exact hothers tid hne
  · have hrec : lk.mutex.recursive = true := by
      by_contra hno
      exact hlast (h.single (by simpa using hno))
    have hleft : lk.ref - 1 ≠ 0 := fun h0 => hlast (by
      have := congrArg UInt32.toNat h0
      rw [toNat_sub_one h.ref] at this
      have hpos : lk.ref.toNat ≠ 0 := fun h0 => h.ref (UInt32.toNat_inj.mp h0)
      exact UInt32.toNat_inj.mp (show lk.ref.toNat = 1 by simp at this; omega))
    refine ⟨{ lk.mutex with count := lk.mutex.count - 1 }, ?_, .inr ?_⟩
    · rw [mutexUnlock, if_pos hrec, if_pos h.owner, if_neg (by rw [h.count]; exact hlast)]
    · have htid : (lk.release { lk.mutex with count := lk.mutex.count - 1 }).tid = lk.tid := by
        rw [Shlock.release, if_neg hleft]
      exact {
        ref := hleft
        owner := by rw [htid]; exact h.owner
        count := by rw [Shlock.release, h.count]
        single := fun hno => absurd (hrec.symm.trans hno) (by decide)
        opens := by
          rw [htid, Function.update_self, h.opens]
          exact (toNat_sub_one h.ref).symm
        others := fun tid hne => hothers tid (htid ▸ hne) }

/-! ## All locks -/

/-- Every lock is accounted for, and a key without a record is not held. -/
structure AllAccounted (s : Shared) : Prop where
  wf : s.locks.Wf
  locks : ∀ key lk, s.locks.lock key = some lk → Accounted lk (s.held key)
  unknown : ∀ key, s.locks.lock key = none → ∀ tid, s.held key tid = 0

/-- Before the first call all is accounted for. -/
theorem allAccounted_start : AllAccounted { locks := noLocks, held := fun _ _ => 0 } where
  wf := noLocks_wf
  locks key lk h := by simp [Locks.lock, noLocks_find] at h
  unknown _ _ _ := rfl

/-- The record of a key changes together with the opens of the key. -/
theorem AllAccounted.set {s : Shared} (h : AllAccounted s) {key : ShKey} {lk : Nat}
    (hfind : s.locks.find key = some lk) {val : Shlock} {opens : UInt32 → Nat}
    (hval : Accounted val opens) :
    AllAccounted { locks := s.locks.set lk val, held := Function.update s.held key opens } where
  wf := h.wf.set lk val
  locks key' val' hlock := by
    by_cases hkey : key' = key
    · subst hkey
      rw [Locks.lock_set_self val hfind] at hlock
      cases hlock
      dsimp only
      rwa [Function.update_self]
    · rw [h.wf.lock_set_of_ne val hfind hkey] at hlock
      dsimp only
      rw [Function.update_of_ne hkey]
      exact h.locks key' val' hlock
  unknown key' hlock := by
    by_cases hkey : key' = key
    · subst hkey
      rw [Locks.lock_set_self val hfind] at hlock
      cases hlock
    · rw [h.wf.lock_set_of_ne val hfind hkey] at hlock
      dsimp only
      rw [Function.update_of_ne hkey]
      exact h.unknown key' hlock

/-- A new record that nobody holds is accounted for. -/
theorem AllAccounted.create {s : Shared} (h : AllAccounted s) {key : ShKey} (flags : UInt32)
    (hnew : s.locks.find key = none) :
    AllAccounted { s with locks := s.locks.create key flags } where
  wf := h.wf.create key flags
  locks key' val hlock := by
    rw [h.wf.lock_create] at hlock
    split_ifs at hlock with hkey
    · cases hlock
      subst hkey
      exact .inl ⟨rfl, rfl, h.unknown key' (by rw [Locks.lock, hnew, Option.map_none])⟩
    · exact h.locks key' val hlock
  unknown key' hlock := by
    rw [h.wf.lock_create] at hlock
    split_ifs at hlock with hkey
    exact h.unknown key' hlock

/-- The record of a key is found or made, and all is accounted for. -/
theorem AllAccounted.obtain {s : Shared} (h : AllAccounted s) {mem : Bool} {key : ShKey}
    {flags : UInt32} {locks : Locks} {lk : Nat}
    (hget : s.locks.obtain mem key flags = some (locks, lk)) :
    AllAccounted { s with locks := locks } ∧ locks.find key = some lk := by
  rw [Locks.obtain] at hget
  cases hfind : s.locks.find key with
  | some old =>
    rw [hfind] at hget
    cases hget
    exact ⟨h, hfind⟩
  | none =>
    rw [hfind] at hget
    dsimp only at hget
    split_ifs at hget
    cases hget
    exact ⟨h.create flags hfind, by rw [h.wf.find_create, if_pos rfl]⟩

/-- The record of a key accounts for who holds it. -/
theorem AllAccounted.at_record {s : Shared} (h : AllAccounted s) {key : ShKey} {lk : Nat}
    (hfind : s.locks.find key = some lk) : Accounted (s.locks.heap lk) (s.held key) :=
  h.locks key _ (by rw [Locks.lock, hfind, Option.map_some])

/-- The mutex of a record is locked for a thread, which takes a reference. -/
theorem AllAccounted.take {s : Shared} (h : AllAccounted s) {step : LockStep} {lk : Nat}
    (hfind : s.locks.find step.key = some lk) {mutex : Mutex}
    (hlock : mutexLock step.tid (s.locks.heap lk).mutex = .locked mutex) :
    AllAccounted (s.opened step (s.locks.take lk step.tid mutex, .done)) :=
  h.set hfind ((h.at_record hfind).lock hlock)

/-- An open keeps the account. -/
theorem allAccounted_open {s : Shared} (h : AllAccounted s) (step : LockStep) {mem : Bool}
    {flags : UInt32} {r : Locks × LockEnd}
    (hrun : shlockOpen mem step.tid s.locks step.key flags = some r) :
    AllAccounted (s.opened step r) := by
  rw [shlockOpen] at hrun
  cases hget : s.locks.obtain mem step.key flags with
  | none =>
    rw [hget] at hrun
    cases hrun
    exact h
  | some found =>
    obtain ⟨locks, lk⟩ := found
    obtain ⟨hobt, hfind⟩ := h.obtain hget
    rw [hget] at hrun
    dsimp only at hrun
    split at hrun
    · cases hrun
    · cases hrun
      exact hobt
    · rename_i mutex hlock
      cases hrun
      exact hobt.take hfind hlock

/-- A tryopen keeps the account, if it is private or the thread does not hold the lock. -/
theorem allAccounted_tryopen {s : Shared} (h : AllAccounted s) (step : LockStep) (mem : Bool)
    {flags : UInt32} (hfree : flags &&& shlkPrivate ≠ 0 ∨ s.held step.key step.tid = 0) :
    AllAccounted (s.opened step (shlockTryopen mem step.tid s.locks step.key flags)) := by
  rw [shlockTryopen]
  cases hget : s.locks.obtain mem step.key flags with
  | none => exact h
  | some found =>
    obtain ⟨locks, lk⟩ := found
    obtain ⟨hobt, hfind⟩ := h.obtain hget
    dsimp only
    split_ifs with htaken hmutex
    · exact hobt
    · split
      · exact hobt
      · exact hobt
      · rename_i mutex hlock
        exact hobt.take hfind hlock
    · -- the branch that leaves the mutex alone is for a thread that has the lock
      exfalso
      rw [not_or, not_not] at hmutex
      obtain ⟨href, htid⟩ := hmutex
      rw [not_and, not_or, not_not, not_not] at htaken
      obtain hpriv | hnone := hfree
      · exact hpriv (htaken href).1
      · have hopens := ((hobt.at_record hfind).heldOnce href).opens
        rw [show (locks.heap lk).tid = step.tid from htid] at hopens
        exact href (UInt32.toNat_inj.mp (hopens.symm.trans hnone))

/-- A close keeps the account. -/
theorem allAccounted_close {s : Shared} (h : AllAccounted s) (step : LockStep) :
    AllAccounted (s.closed step (shlockClose step.tid s.locks step.key)) := by
  -- a thread without the lock closes nothing
  have hnothing : s.held step.key step.tid = 0 → AllAccounted (s.closed step (s.locks, .done)) := by
    intro hzero
    have hsame : s.count step (s.held step.key step.tid - 1) = s.held := by
      rw [Shared.count, hzero, Nat.zero_sub, ← hzero, Function.update_eq_self,
        Function.update_eq_self]
    rw [Shared.closed, hsame]
    exact h
  rw [shlockClose]
  cases hfind : s.locks.find step.key with
  | none =>
    exact hnothing (h.unknown step.key (by rw [Locks.lock, hfind, Option.map_none]) step.tid)
  | some lk =>
    have hacc := h.at_record hfind
    dsimp only
    split_ifs with href htid
    · exact hnothing (hacc.opens_eq_zero (.inl href))
    · exact hnothing (hacc.opens_eq_zero (.inr htid))
    · rw [not_not] at htid
      obtain ⟨mutex, hunlock, hrel⟩ := (hacc.heldOnce href).unlock
      rw [← htid] at hunlock hrel
      rw [hunlock]
      exact h.set hfind hrel

/-- Step lemma. -/
theorem AllAccounted.step {s s' : Shared} (h : AllAccounted s) {step : LockStep}
    (hok : NotNested s step) (hrun : step.run s = some s') : AllAccounted s' := by
  obtain ⟨tid, key, call⟩ := step
  cases call with
  | shopen mem flags =>
    obtain ⟨r, hr, rfl⟩ := Option.map_eq_some_iff.mp hrun
    exact allAccounted_open h _ hr
  | tryopen mem flags =>
    cases hrun
    exact allAccounted_tryopen h _ mem hok
  | close =>
    cases hrun
    exact allAccounted_close h _

/-- Run lemma. -/
theorem LockRun.allAccounted {s : Shared} (h : LockRun NotNested s) : AllAccounted s := by
  induction h with
  | start => exact allAccounted_start
  | step _ hok hrun ih => exact ih.step hok hrun

/-- Where all is accounted for, no lock is held by two threads. -/
theorem AllAccounted.exclusive {s : Shared} (h : AllAccounted s) : Exclusive s := by
  -- the record of a key that is held
  have hrec : ∀ key tid, 0 < s.held key tid →
      ∃ lk, s.locks.lock key = some lk ∧ HeldOnce lk (s.held key) ∧ tid = lk.tid := by
    intro key tid hpos
    cases hlock : s.locks.lock key with
    | none => exact absurd (h.unknown key hlock tid) (Nat.ne_of_gt hpos)
    | some lk =>
      obtain hun | honce := h.locks key lk hlock
      · exact absurd (hun.opens tid) (Nat.ne_of_gt hpos)
      · refine ⟨lk, rfl, honce, ?_⟩
        by_contra hne
        exact absurd (honce.others tid hne) (Nat.ne_of_gt hpos)
  refine ⟨?_, ?_, ?_⟩
  · intro key tid tid' hpos hpos'
    obtain ⟨lk, hlock, -, htid⟩ := hrec key tid hpos
    obtain ⟨lk', hlock', -, htid'⟩ := hrec key tid' hpos'
    cases hlock.symm.trans hlock'
    rw [htid, htid']
  · intro key tid hpos
    obtain ⟨lk, hlock, honce, rfl⟩ := hrec key tid hpos
    exact ⟨lk, hlock, honce.opens.symm⟩
  · intro key lk hlock hnone
    by_contra href
    have hopens := ((h.locks key lk hlock).heldOnce href).opens
    rw [hnone] at hopens
    exact href (UInt32.toNat_inj.mp hopens.symm)

/-- **Mutual exclusion.** In every run without a `shlock_tryopen` by the thread that has
the lock, a key has one holder at most and its record counts that thread's opens. -/
theorem exclusive_run {s : Shared} (h : LockRun NotNested s) : Exclusive s :=
  h.allAccounted.exclusive

/-- The state after a list of calls. -/
def lockSteps (s : Shared) : List LockStep → Option Shared
  | [] => some s
  | step :: steps => (step.run s).bind fun s' => lockSteps s' steps

/-- Steps that all are allowed make a run. -/
theorem LockRun.steps {Ok : Shared → LockStep → Prop} (hok : ∀ s step, Ok s step) :
    ∀ (steps : List LockStep) {s s' : Shared}, LockRun Ok s → lockSteps s steps = some s' →
      LockRun Ok s' := by
  intro steps
  induction steps with
  | nil =>
    intro s s' h hrun
    cases hrun
    exact h
  | cons step steps ih =>
    intro s s' h hrun
    obtain ⟨s₁, hstep, hrest⟩ := Option.bind_eq_some_iff.mp hrun
    exact ih (h.step (hok s step) hstep) hrest

/-- A thread opens a lock twice, and the lock is recursive. -/
theorem exclusive_run_twice : ∃ s : Shared, LockRun NotNested s ∧ s.held ashkeyBlank 7 = 2 ∧
    Exclusive s := by
  have hsteps : ((lockSteps { locks := noLocks, held := fun _ _ => 0 }
      [⟨7, ashkeyBlank, .shopen true 0⟩, ⟨7, ashkeyBlank, .shopen true 0⟩]).map
        fun s => s.held ashkeyBlank 7) = some 2 := by decide +kernel
  obtain ⟨s, hrun, hheld⟩ := Option.map_eq_some_iff.mp hsteps
  obtain ⟨s₁, hfirst, hrest⟩ := Option.bind_eq_some_iff.mp hrun
  obtain ⟨s₂, hsecond, hlast⟩ := Option.bind_eq_some_iff.mp hrest
  cases hlast
  have h : LockRun NotNested s :=
    (LockRun.start.step (by exact trivial) hfirst).step (by exact trivial) hsecond
  exact ⟨s, h, hheld, exclusive_run h⟩

/-- Thread 7 opens a lock and opens it again with `shlock_tryopen`; its first
`shlock_close` leaves it a reference and the mutex free, and thread 8 opens the lock. -/
theorem two_threads_hold : ¬ ∀ s : Shared, LockRun (fun _ _ => True) s → Exclusive s := by
  intro hall
  have hsteps : ((lockSteps { locks := noLocks, held := fun _ _ => 0 }
      [⟨7, ashkeyBlank, .shopen true 0⟩, ⟨7, ashkeyBlank, .tryopen true 0⟩,
        ⟨7, ashkeyBlank, .close⟩, ⟨8, ashkeyBlank, .shopen true 0⟩]).map
        fun s => (s.held ashkeyBlank 7, s.held ashkeyBlank 8)) = some (1, 1) := by decide +kernel
  obtain ⟨s, hrun, hheld⟩ := Option.map_eq_some_iff.mp hsteps
  obtain ⟨h₇, h₈⟩ := Prod.mk.inj hheld
  have hex := hall s (LockRun.start.steps (fun _ _ => trivial) _ hrun)
  have hsame := hex.one ashkeyBlank 7 8 (by rw [h₇]; decide) (by rw [h₈]; decide)
  exact absurd hsame (by decide)

end LibShare.Mem
