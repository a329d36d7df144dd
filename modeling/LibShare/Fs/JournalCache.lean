import Mathlib.Logic.Function.Basic
import Mathlib.Data.List.Induction
import LibShare.Fs.Journal

/-!
# libshare — the cache of journals

One process has one table of 256 slots for the journals of all its partitions (`shfs_journal.c`). A
journal is kept in the slot of its number, and one that was there before is freed. A journal that
is found is told apart by its number and by the private key of the partition. Its path is made of
the public key.

Main results:

* `coherent_run` — after every run a slot holds an open journal of the slot's numbers, with the
  private key and the path of a partition that has opened it, and nothing else is open.
* `journalPath_inj` — two partitions have one path for a journal if and only if the checksums of
  their public keys agree.
* `opened_journal` — what a call returns: the number, the private key, and the path of a partition
  with that private key.

* A journal number is a `shfs_inode_off_t`, which is never negative.
* Where `calloc` fails is given with the call. A new journal has an address that was never used.
-/

namespace LibShare.Fs

/-- `MAX_JOURNAL_CACHE_SIZE`. -/
def maxJournalCacheSize : Nat := 256

/-- `SHFS_MAX_JOURNAL`. -/
def shfsMaxJournal : Nat := 57344

/-- `shfs_t`, as far as a journal is concerned: `shpeer_kpub` and `shpeer_kpriv` of its peer. -/
structure Partition where
  kpub : ShKey
  kpriv : ShKey
deriving DecidableEq

/-- `shfs_journal_t`, up to its map and the time of its last use. -/
structure CachedJournal where
  index : Nat
  path : List Char
  fsKey : ShKey
deriving DecidableEq

/-- `journal_table`, and the journals that are allocated. -/
structure JournalCache where
  table : Option (Vector (Option Nat) maxJournalCacheSize)
  heap : Nat → Option CachedJournal
  /-- the next address that `calloc` returns -/
  next : Nat

/-- What `calloc` says to the journal and to the table. -/
structure Calloc where
  journal : Bool
  table : Bool
deriving DecidableEq

def JournalCache.start : JournalCache := { table := none, heap := fun _ => none, next := 0 }

def journalSlot (index : Nat) : Fin maxJournalCacheSize :=
  ⟨index % maxJournalCacheSize, Nat.mod_lt _ (by decide)⟩

/-- `_shfs_journal_cache_get`. -/
def JournalCache.get (cache : JournalCache) (tree : Partition) (index : Nat) : Option Nat := do
  let table ← cache.table
  let addr ← table[journalSlot index]
  let jrnl ← cache.heap addr
  if tree.kpriv ≠ jrnl.fsKey then none
  else if jrnl.index ≠ index then none
  else some addr

/-- `_shfs_journal_free`. -/
def freeJournal (heap : Nat → Option CachedJournal) (slot : Option Nat) :
    Nat → Option CachedJournal :=
  match slot with
  | none => heap
  | some addr => Function.update heap addr none

/-- `_shfs_journal_cache_set` of a journal that is not in the table. -/
def JournalCache.set (cache : JournalCache) (calloc : Calloc) (tree : Partition) (index addr : Nat)
    (jrnl : CachedJournal) : JournalCache :=
  match (if cache.table.isNone && calloc.table then some (Vector.replicate _ none)
      else cache.table) with
  -- the journal is not kept, and its key stays blank
  | none => cache
  | some table =>
    let heap := freeJournal cache.heap table[journalSlot index]
    { cache with
      table := some (table.set (journalSlot index) (some addr))
      -- identify partition
      heap := Function.update heap addr (some { jrnl with fsKey := tree.kpriv }) }

/-- `shfs_journal_cache_free`. -/
def JournalCache.free (cache : JournalCache) : JournalCache :=
  match cache.table with
  | none => cache
  | some table => { cache with table := none, heap := table.toList.foldl freeJournal cache.heap }

/-- `shfs_journal_path` below `get_libshare_path()`. `%x` prints the low half of the checksum. -/
def shfsJournalPath (base : List Char) (tree : Partition) (index : Nat) : List Char :=
  if shfsMaxJournal ≤ index then []
  else base ++ "/fs".toList ++ "/_".toList ++ Nat.toDigits 16 (shcrc32 tree.kpub.toBytes).toNat ++
    "/_".toList ++ Nat.toDigits 10 index

/-- `shfs_journal_open`. -/
def shfsJournalOpen (base : List Char) (calloc : Calloc) (tree : Partition) (index : Nat)
    (cache : JournalCache) : Option Nat × JournalCache :=
  match cache.get tree index with
  | some addr => (some addr, cache)
  | none =>
    if calloc.journal then
      let addr := cache.next
      let jrnl : CachedJournal := ⟨index, shfsJournalPath base tree index, ashkeyBlank⟩
      let cache :=
        { cache with heap := Function.update cache.heap addr (some jrnl), next := addr + 1 }
      (some addr, cache.set calloc tree index addr jrnl)
    else (none, cache)

/-- A call to the cache. -/
inductive CacheOp where
  | open (calloc : Calloc) (tree : Partition) (index : Nat)
  | free
deriving DecidableEq

def JournalCache.step (base : List Char) (cache : JournalCache) : CacheOp → JournalCache
  | .open calloc tree index => (shfsJournalOpen base calloc tree index cache).2
  | .free => cache.free

/-- The cache of a process behind its calls. -/
def JournalCache.run (base : List Char) (ops : List CacheOp) : JournalCache :=
  ops.foldl (JournalCache.step base) JournalCache.start

/-! ## What a run leaves -/

/-- What is in a slot. -/
def JournalCache.slot (cache : JournalCache) (slot : Fin maxJournalCacheSize) : Option Nat :=
  cache.table.bind fun table => table[slot]

/-- A journal as one of the calls has made it, for a partition with its key. -/
def Kept (base : List Char) (ops : List CacheOp) (jrnl : CachedJournal) : Prop :=
  ∃ calloc tree, .open calloc tree jrnl.index ∈ ops ∧ tree.kpriv = jrnl.fsKey ∧
    jrnl.path = shfsJournalPath base tree jrnl.index

/-- The journal was made by a call that has found no table and could not allocate one. -/
def Unkept (base : List Char) (ops : List CacheOp) (addr : Nat) : Prop :=
  ∃ before calloc tree index after, ops = before ++ .open calloc tree index :: after ∧
    (JournalCache.run base before).table = none ∧ calloc.table = false ∧
    (shfsJournalOpen base calloc tree index (JournalCache.run base before)).1 = some addr

/-- Slots, numbers, keys and paths fit together, and nothing is open but what is in a slot. -/
structure Coherent (base : List Char) (ops : List CacheOp) (cache : JournalCache) : Prop where
  fresh : ∀ addr, cache.next ≤ addr → cache.heap addr = none
  slots : ∀ slot addr, cache.slot slot = some addr →
    ∃ jrnl, cache.heap addr = some jrnl ∧ journalSlot jrnl.index = slot ∧ Kept base ops jrnl
  live : ∀ addr jrnl, cache.heap addr = some jrnl →
    cache.slot (journalSlot jrnl.index) = some addr ∨ Unkept base ops addr

variable {base : List Char} {ops : List CacheOp} {cache : JournalCache} {calloc : Calloc}
  {tree : Partition} {index addr : Nat} {jrnl : CachedJournal}

theorem Kept.mono (h : Kept base ops jrnl) (op : CacheOp) : Kept base (ops ++ [op]) jrnl := by
  obtain ⟨calloc, tree, hop, hkey, hpath⟩ := h
  exact ⟨calloc, tree, List.mem_append_left _ hop, hkey, hpath⟩

theorem Unkept.mono (h : Unkept base ops addr) (op : CacheOp) : Unkept base (ops ++ [op]) addr := by
  obtain ⟨before, calloc, tree, index, after, rfl, hrest⟩ := h
  exact ⟨before, calloc, tree, index, after ++ [op], by simp, hrest⟩

/-- A call that changes nothing. -/
theorem Coherent.same (h : Coherent base ops cache) (op : CacheOp) :
    Coherent base (ops ++ [op]) cache where
  fresh := h.fresh
  slots slot addr hslot := by
    obtain ⟨jrnl, hjrnl, hindex, hkept⟩ := h.slots slot addr hslot
    exact ⟨jrnl, hjrnl, hindex, hkept.mono op⟩
  live addr jrnl hjrnl := (h.live addr jrnl hjrnl).imp_right fun hun => hun.mono op

/-- What is found is in the slot, and is told apart by its key and by its number. -/
theorem get_eq_some : cache.get tree index = some addr ↔
    cache.slot (journalSlot index) = some addr ∧
      ∃ jrnl, cache.heap addr = some jrnl ∧ tree.kpriv = jrnl.fsKey ∧ jrnl.index = index := by
  unfold JournalCache.get JournalCache.slot
  simp only [Option.bind_eq_bind, Option.bind_eq_some_iff]
  constructor
  · rintro ⟨table, htable, addr', hslot, jrnl, hjrnl, hrun⟩
    split at hrun
    · exact nomatch hrun
    · next hkey =>
      split at hrun
      · exact nomatch hrun
      · next hindex =>
        rw [Option.some.injEq] at hrun
        subst hrun
        exact ⟨⟨table, htable, hslot⟩, jrnl, hjrnl, not_not.mp hkey, not_not.mp hindex⟩
  · rintro ⟨⟨table, htable, hslot⟩, jrnl, hjrnl, hkey, hindex⟩
    refine ⟨table, htable, addr, hslot, jrnl, hjrnl, ?_⟩
    rw [if_neg (not_not.mpr hkey), if_neg (not_not.mpr hindex)]

/-- Either there is no table for the journal, or it has the slot and what was there is freed. -/
theorem set_cases (cache : JournalCache) (calloc : Calloc) (tree : Partition) (index addr : Nat)
    (jrnl : CachedJournal) :
    cache.table = none ∧ calloc.table = false ∧ cache.set calloc tree index addr jrnl = cache ∨
      (cache.set calloc tree index addr jrnl).next = cache.next ∧
      (cache.set calloc tree index addr jrnl).slot =
        Function.update cache.slot (journalSlot index) (some addr) ∧
      (cache.set calloc tree index addr jrnl).heap =
        Function.update (freeJournal cache.heap (cache.slot (journalSlot index))) addr
          (some { jrnl with fsKey := tree.kpriv }) := by
  -- the slots of a table that is set
  have hupdate (table : Vector (Option Nat) maxJournalCacheSize) :
      (fun slot : Fin maxJournalCacheSize => (table.set (journalSlot index) (some addr))[slot]) =
        Function.update (fun slot : Fin maxJournalCacheSize =>
          table[slot]) (journalSlot index) (some addr) := by
    funext slot
    by_cases heq : slot = journalSlot index
    · subst heq
      rw [Function.update_self]
      exact Vector.getElem_set_self _
    · rw [Function.update_of_ne heq]
      exact Vector.getElem_set_ne _ _ fun hval => heq (Fin.ext hval.symm)
  unfold JournalCache.set
  cases htable : cache.table with
  | none =>
    by_cases halloc : calloc.table = true
    · -- the table is new, so that nothing is freed
      right
      have hnone : cache.slot = fun _ => none := by
        funext slot
        rw [JournalCache.slot, htable]
        rfl
      simp only [Option.isNone_none, halloc, Bool.and_self, if_true]
      refine ⟨trivial, ?_, ?_⟩
      · rw [hnone]
        refine (hupdate _).trans ?_
        congr 1
        funext slot
        exact Vector.getElem_replicate _
      · rw [hnone]
        simp [freeJournal]
    · left
      simp [halloc]
  | some table =>
    right
    have hslot : cache.slot = fun slot : Fin maxJournalCacheSize => table[slot] := by
      funext slot
      rw [JournalCache.slot, htable]
      rfl
    simp only [Option.isNone_some, Bool.false_and, Bool.false_eq_true, if_false, hslot]
    exact ⟨trivial, hupdate table, trivial⟩

theorem freeJournal_eq (heap : Nat → Option CachedJournal) (slot : Option Nat) (addr : Nat) :
    freeJournal heap slot addr = if slot = some addr then none else heap addr := by
  cases slot with
  | none => rfl
  | some other =>
    simp only [freeJournal, Function.update_apply, Option.some.injEq, eq_comm]

/-- Nothing that a slot holds is open after the slots are freed, and the rest is as before. -/
theorem freeJournals_eq (slots : List (Option Nat)) (heap : Nat → Option CachedJournal)
    (addr : Nat) :
    slots.foldl freeJournal heap addr = if some addr ∈ slots then none else heap addr := by
  induction slots generalizing heap with
  | nil => simp
  | cons slot slots ih =>
    rw [List.foldl_cons, ih, freeJournal_eq]
    by_cases hmem : some addr ∈ slots
    · simp [hmem]
    · by_cases hslot : slot = some addr
      · simp [hslot]
      · simp [hmem, hslot, Ne.symm hslot]

theorem Coherent.start : Coherent base [] JournalCache.start where
  fresh _ _ := rfl
  slots _ _ hslot := nomatch hslot
  live _ _ hjrnl := nomatch hjrnl

theorem Coherent.free (h : Coherent base ops cache) :
    Coherent base (ops ++ [.free]) cache.free := by
  unfold JournalCache.free
  cases htable : cache.table with
  | none => exact h.same .free
  | some table =>
    have hheap (addr : Nat) := freeJournals_eq table.toList cache.heap addr
    constructor
    · intro addr haddr
      simp only [hheap, h.fresh addr haddr, ite_self]
    · exact fun slot addr hslot => nomatch hslot
    · intro addr jrnl hjrnl
      simp only [hheap] at hjrnl
      split at hjrnl
      · exact nomatch hjrnl
      · next hmem =>
        -- an open journal that is in no slot is not kept
        refine Or.inr (((h.live addr jrnl hjrnl).resolve_left fun hslot => hmem ?_).mono .free)
        rw [JournalCache.slot, htable, Option.bind_some] at hslot
        rw [← hslot]
        exact Vector.mem_toList_iff.mpr (Vector.getElem_mem _)

/-- The next address is none of those in the table. -/
theorem Coherent.ne_next (h : Coherent base ops cache) {slot : Fin maxJournalCacheSize}
    (hslot : cache.slot slot = some addr) : addr ≠ cache.next := by
  rintro rfl
  obtain ⟨jrnl, hjrnl, -⟩ := h.slots slot _ hslot
  rw [h.fresh _ (Nat.le_refl _)] at hjrnl
  exact nomatch hjrnl

/-- Without a table a journal is open and in no slot. -/
theorem Coherent.unkept (h : Coherent base ops cache) {op : CacheOp}
    (hunkept : Unkept base (ops ++ [op]) cache.next) : Coherent base (ops ++ [op])
      { cache with
        heap := Function.update cache.heap cache.next (some jrnl)
        next := cache.next + 1 } where
  fresh addr haddr :=
    (Function.update_of_ne (Nat.ne_of_gt haddr) _ _).trans (h.fresh addr (Nat.le_of_succ_le haddr))
  slots slot addr hslot := by
    obtain ⟨jrnl, hjrnl, hindex, hkept⟩ := h.slots slot addr hslot
    exact ⟨jrnl, (Function.update_of_ne (h.ne_next hslot) _ _).trans hjrnl, hindex, hkept.mono op⟩
  live addr jrnl hjrnl := by
    by_cases haddr : addr = cache.next
    · exact Or.inr (haddr ▸ hunkept)
    · simp only [Function.update_of_ne haddr] at hjrnl
      exact (h.live addr jrnl hjrnl).imp_right fun hun => hun.mono op

/-- With a table a journal takes its slot from the one that was there. -/
theorem Coherent.kept (h : Coherent base ops cache) {op : CacheOp} {after : JournalCache}
    (hkept : Kept base (ops ++ [op]) jrnl) (hnext : after.next = cache.next + 1)
    (hslot : after.slot = Function.update cache.slot (journalSlot jrnl.index) (some cache.next))
    (hself : after.heap cache.next = some jrnl)
    (hother : ∀ addr ≠ cache.next, after.heap addr =
      if cache.slot (journalSlot jrnl.index) = some addr then none else cache.heap addr) :
    Coherent base (ops ++ [op]) after where
  fresh addr haddr := by
    rw [hnext] at haddr
    rw [hother addr (Nat.ne_of_gt haddr), h.fresh addr (Nat.le_of_succ_le haddr), ite_self]
  slots slot addr hin := by
    rw [hslot] at hin
    by_cases hsame : slot = journalSlot jrnl.index
    · rw [hsame, Function.update_self, Option.some.injEq] at hin
      exact ⟨jrnl, hin ▸ hself, hsame.symm, hkept⟩
    · rw [Function.update_of_ne hsame] at hin
      obtain ⟨old, hold, hindex, hkept'⟩ := h.slots slot addr hin
      refine ⟨old, ?_, hindex, hkept'.mono op⟩
      rw [hother addr (h.ne_next hin), if_neg, hold]
      -- a journal is in the slot of its number only
      intro hboth
      obtain ⟨old', hold', hindex', -⟩ := h.slots _ addr hboth
      rw [hold, Option.some.injEq] at hold'
      exact hsame (hindex.symm.trans (hold' ▸ hindex'))
  live addr old hold := by
    by_cases haddr : addr = cache.next
    · rw [haddr, hself, Option.some.injEq] at hold
      rw [haddr, hslot, hold]
      exact Or.inl (Function.update_self _ _ _)
    · rw [hother addr haddr] at hold
      split at hold
      · exact nomatch hold
      · next hfreed =>
        refine (h.live addr old hold).imp (fun hin => ?_) fun hun => hun.mono op
        rw [hslot, Function.update_of_ne, hin]
        exact fun hsame => hfreed (hsame ▸ hin)

theorem Coherent.open (h : Coherent base ops cache) (hcache : cache = JournalCache.run base ops)
    (calloc : Calloc) (tree : Partition) (index : Nat) :
    Coherent base (ops ++ [.open calloc tree index])
      (shfsJournalOpen base calloc tree index cache).2 := by
  cases hget : cache.get tree index with
  | some addr =>
    rw [show (shfsJournalOpen base calloc tree index cache).2 = cache by rw [shfsJournalOpen, hget]]
    exact h.same _
  | none =>
    by_cases hjournal : calloc.journal = true
    · let made : CachedJournal := ⟨index, shfsJournalPath base tree index, ashkeyBlank⟩
      let alloced : JournalCache :=
        { cache with
          heap := Function.update cache.heap cache.next (some made)
          next := cache.next + 1 }
      have hopen : shfsJournalOpen base calloc tree index cache =
          (some cache.next, alloced.set calloc tree index cache.next made) := by
        rw [shfsJournalOpen, hget]
        exact if_pos hjournal
      rw [hopen]
      rcases set_cases alloced calloc tree index cache.next made with
        ⟨htable, hlack, hset⟩ | ⟨hnext, hslot, hheap⟩
      · rw [hset]
        exact h.unkept ⟨ops, calloc, tree, index, [], rfl, hcache ▸ htable, hlack,
          by rw [← hcache, hopen]⟩
      · have hkept : Kept base (ops ++ [.open calloc tree index])
            { made with fsKey := tree.kpriv } :=
          ⟨calloc, tree, List.mem_append_right _ (List.mem_singleton.mpr rfl), rfl, rfl⟩
        refine h.kept hkept hnext hslot ?_ ?_
        · rw [hheap, Function.update_self]
        · intro addr haddr
          rw [hheap, Function.update_of_ne haddr, freeJournal_eq]
          exact congrArg _ (Function.update_of_ne haddr _ _)
    · rw [show (shfsJournalOpen base calloc tree index cache).2 = cache by
        rw [shfsJournalOpen, hget]
        exact congrArg Prod.snd (if_neg hjournal)]
      exact h.same _

theorem run_concat (base : List Char) (ops : List CacheOp) (op : CacheOp) :
    JournalCache.run base (ops ++ [op]) = (JournalCache.run base ops).step base op :=
  List.foldl_concat ..

theorem coherent_run (base : List Char) (ops : List CacheOp) :
    Coherent base ops (JournalCache.run base ops) := by
  induction ops using List.reverseRecOn with
  | nil => exact Coherent.start
  | append_singleton ops op ih =>
    rw [run_concat]
    cases op with
    | «open» calloc tree index => exact ih.open rfl calloc tree index
    | free => exact ih.free

/-! ## What a call returns -/

/-- The value of a digit that `%x` prints. -/
def hexDigitVal (c : Char) : Nat := if c.toNat < 97 then c.toNat - 48 else c.toNat - 87

theorem hexDigitVal_digitChar : ∀ d < 16, hexDigitVal (Nat.digitChar d) = d := by decide

theorem foldl_hexDigitVal (n : Nat) :
    (Nat.toDigits 16 n).foldl (fun sum c => 16 * sum + hexDigitVal c) 0 = n := by
  induction n using Nat.strongRecOn with
  | _ n ih =>
    by_cases hn : n < 16
    · rw [Nat.toDigits_of_lt_base hn, List.foldl_cons, List.foldl_nil, hexDigitVal_digitChar n hn]
      omega
    · rw [Nat.toDigits_of_base_le (by decide) (Nat.not_lt.mp hn), List.foldl_concat,
        ih (n / 16) (by omega), hexDigitVal_digitChar _ (Nat.mod_lt n (by decide))]
      omega

theorem toDigits_hex_inj {m n : Nat} (h : Nat.toDigits 16 m = Nat.toDigits 16 n) : m = n := by
  rw [← foldl_hexDigitVal m, h, foldl_hexDigitVal n]

/-- Partitions are told apart in a path by what the checksum of the public key leaves of it. -/
theorem journalPath_inj (base : List Char) (tree other : Partition) (index : Nat) :
    shfsJournalPath base tree index = shfsJournalPath base other index ↔
      shfsMaxJournal ≤ index ∨ shcrc32 tree.kpub.toBytes = shcrc32 other.kpub.toBytes := by
  unfold shfsJournalPath
  by_cases hmax : shfsMaxJournal ≤ index
  · rw [if_pos hmax, if_pos hmax]
    exact iff_of_true rfl (Or.inl hmax)
  · rw [if_neg hmax, if_neg hmax, List.append_cancel_right_eq, List.append_cancel_right_eq,
      List.append_cancel_left_eq]
    exact ⟨fun h => Or.inr (UInt32.toNat_inj.mp (toDigits_hex_inj h)), fun h =>
      by rw [h.resolve_left hmax]⟩

/-- A slot has at most one open journal that is kept. -/
theorem Coherent.unique (h : Coherent base ops cache) {addr other : Nat}
    {jrnl jrnl' : CachedJournal}
    (hjrnl : cache.heap addr = some jrnl) (hjrnl' : cache.heap other = some jrnl')
    (hslot : journalSlot jrnl.index = journalSlot jrnl'.index) :
    addr = other ∨ Unkept base ops addr ∨ Unkept base ops other := by
  rcases h.live addr jrnl hjrnl with hin | hun
  · rcases h.live other jrnl' hjrnl' with hin' | hun'
    · rw [hslot, hin', Option.some.injEq] at hin
      exact Or.inl hin.symm
    · exact Or.inr (Or.inr hun')
  · exact Or.inr (Or.inl hun)

/-- A journal that is returned is in the slot of its number, or there is no table. -/
theorem returned_cases (hopen : (shfsJournalOpen base calloc tree index cache).1 = some addr) :
    ((shfsJournalOpen base calloc tree index cache).2.slot (journalSlot index) = some addr ∧
      ∃ jrnl, (shfsJournalOpen base calloc tree index cache).2.heap addr = some jrnl ∧
        tree.kpriv = jrnl.fsKey ∧ jrnl.index = index) ∨
    ((shfsJournalOpen base calloc tree index cache).2.table = none ∧
      (shfsJournalOpen base calloc tree index cache).2.heap addr =
        some ⟨index, shfsJournalPath base tree index, ashkeyBlank⟩) := by
  unfold shfsJournalOpen at hopen ⊢
  cases hget : cache.get tree index with
  | some found =>
    simp only [hget, Option.some.injEq] at hopen ⊢
    subst hopen
    exact Or.inl (get_eq_some.mp hget)
  | none =>
    simp only [hget] at hopen ⊢
    by_cases hjournal : calloc.journal = true
    · rw [if_pos hjournal] at hopen ⊢
      rw [Option.some.injEq] at hopen
      subst hopen
      dsimp only
      rcases set_cases _ calloc tree index cache.next ⟨index, shfsJournalPath base tree index,
          ashkeyBlank⟩ with
        ⟨htable, -, hset⟩ | ⟨-, hslot, hheap⟩
      · right
        rw [hset]
        exact ⟨htable, Function.update_self _ _ _⟩
      · left
        rw [hslot, hheap]
        exact ⟨Function.update_self _ _ _, _, Function.update_self _ _ _, rfl, rfl⟩
    · rw [if_neg hjournal] at hopen
      exact nomatch hopen

/-- A journal that is returned has the number, the private key and the path of a partition with that
key that has opened it, and no other open journal is kept in its slot. -/
theorem opened_journal (base : List Char) (ops : List CacheOp) (calloc : Calloc) (tree : Partition)
    (index addr : Nat)
    (hopen : (shfsJournalOpen base calloc tree index (JournalCache.run base ops)).1 = some addr) :
    let all := ops ++ [.open calloc tree index]
    let cache := JournalCache.run base all
    (∃ jrnl, cache.heap addr = some jrnl ∧ jrnl.index = index ∧
      ((jrnl.fsKey = tree.kpriv ∧ ∃ calloc' other, .open calloc' other index ∈ all ∧
          other.kpriv = tree.kpriv ∧ jrnl.path = shfsJournalPath base other index ∧
          (jrnl.path = shfsJournalPath base tree index ↔
            shfsMaxJournal ≤ index ∨ shcrc32 other.kpub.toBytes = shcrc32 tree.kpub.toBytes)) ∨
        (cache.table = none ∧ jrnl.fsKey = ashkeyBlank ∧
          jrnl.path = shfsJournalPath base tree index))) ∧
    ∀ a b jrnl jrnl', cache.heap a = some jrnl → cache.heap b = some jrnl' →
      journalSlot jrnl.index = journalSlot jrnl'.index → a = b ∨ Unkept base all a ∨
        Unkept base all b := by
  have hall := coherent_run base (ops ++ [.open calloc tree index])
  refine ⟨?_, fun a b jrnl jrnl' hjrnl hjrnl' => hall.unique hjrnl hjrnl'⟩
  have hcache : JournalCache.run base (ops ++ [.open calloc tree index]) =
      (shfsJournalOpen base calloc tree index (JournalCache.run base ops)).2 := run_concat ..
  rcases returned_cases hopen with ⟨hslot, jrnl, hjrnl, hkey, hindex⟩ | ⟨htable, hjrnl⟩
  · rw [← hcache] at hslot hjrnl
    -- what is in the slot was made by a call
    obtain ⟨made, hmade, -, calloc', other, hop, hkey', hpath⟩ := hall.slots _ _ hslot
    rw [hjrnl, Option.some.injEq] at hmade
    subst hmade hindex
    refine ⟨jrnl, hjrnl, rfl, Or.inl ⟨hkey.symm, calloc', other, hop,
      hkey'.trans hkey.symm, hpath, ?_⟩⟩
    rw [hpath, journalPath_inj]
  · rw [← hcache] at htable hjrnl
    exact ⟨_, hjrnl, rfl, Or.inr ⟨htable, rfl, rfl⟩⟩

/-- Two partitions with one private key. -/
def firstPartition : Partition := { kpub := { ashkeyBlank with crc := 1 }, kpriv := ashkeyBlank }

def secondPartition : Partition := { kpub := { ashkeyBlank with crc := 2 }, kpriv := ashkeyBlank }

/-- The journals 259 and 3 share the slot 3. The one that has been opened last is in it. -/
theorem opened_journal_second :
    ∃ jrnl, (JournalCache.run [] [.open ⟨true, true⟩ firstPartition 259,
      .open ⟨true, true⟩ secondPartition 3]).heap 1 = some jrnl ∧ jrnl.index = 3 :=
  have ⟨⟨jrnl, hjrnl, hindex, _⟩, _⟩ :=
    opened_journal [] [.open ⟨true, true⟩ firstPartition 259] ⟨true, true⟩ secondPartition 3 1 rfl
  ⟨jrnl, hjrnl, hindex⟩

/-- The second partition gets the journal of the first one, with the path of the first one. -/
theorem path_of_other :
    (shfsJournalOpen [] ⟨true, true⟩ secondPartition 3
      (JournalCache.run [] [.open ⟨true, true⟩ firstPartition 3])).1 = some 0 ∧
    ((JournalCache.run [] [.open ⟨true, true⟩ firstPartition 3,
      .open ⟨true, true⟩ secondPartition 3]).heap 0).map CachedJournal.path ≠
        some (shfsJournalPath [] secondPartition 3) := by
  decide +kernel

end LibShare.Fs
