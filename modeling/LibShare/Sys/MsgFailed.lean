import LibShare.Sys.MsgRoom

/-!
# libshare — failed writes

What is left of a write that fails? Two queues have the same future when every
later sequence of calls is answered alike on both: the same messages delivered,
the same writes accepted.

A write that is refused before it takes a slot leaves the future as it was
(`failed_write_same_future`). One that takes a slot and then finds no room in
the byte area clears the slot's source key again, but it does not move the
slot cursor back, and on an overflowing queue it does not bring back the
message whose slot it took: `evicting_write_fails` loses the oldest message to
a write that is then refused.
-/

namespace LibShare.Sys

open Circular

/-! ## Futures -/

/-- The answer to a call. -/
inductive MsgAnswer
  | write (status : Except Sherr Unit)
  | read (message : Except Sherr (ShKey × Bytes))

/-- The clock reading of a call. -/
def MsgCall.now : MsgCall → UInt64
  | .write _ now _ _ _ _ => now
  | .read _ now _ => now

/-- One call with its answer. -/
def Shmsgq.call (q : Shmsgq) : MsgCall → Shmsgq × MsgAnswer
  | .write proc now expire msgQid msgBuff destKey =>
    let (q, status) := shmsgWrite q proc now expire msgQid msgBuff destKey
    (q, .write status)
  | .read proc now expire =>
    let (q, message) := shmsgRead q proc now expire
    (q, .read message)

/-- The answers to a sequence of calls. -/
def Shmsgq.answers : Shmsgq → List MsgCall → List MsgAnswer
  | _, [] => []
  | q, call :: calls => (q.call call).2 :: (q.call call).1.answers calls

/-- Every sequence of calls made from `now` on is answered alike. -/
def SameFuture (now : UInt64) (q q' : Shmsgq) : Prop :=
  ∀ calls : List MsgCall, (∀ call ∈ calls, now ≤ call.now) → q.answers calls = q'.answers calls

theorem not_locked_later {q : Shmsgq} {now later : UInt64} (hle : now ≤ later)
    (h : ¬ q.locked now) : ¬ q.locked later := by
  rintro ⟨hne, hgt⟩
  exact h ⟨hne, UInt64.lt_of_le_of_lt hle hgt⟩

-- A call that gets the lock only sees what the lock guards.
theorem shmsgWrite_unlock {q : Shmsgq} {now : UInt64} (h : ¬ q.locked now) (proc : MsgProc)
    (expire : UInt64) (msgQid : Nat) (msgBuff : Bytes) (destKey : Option ShKey)
    (hlen : msgBuff.length < maxLen) :
    shmsgWrite q proc now expire msgQid msgBuff destKey =
      shmsgWrite (shmsgUnlock q) proc now expire msgQid msgBuff destKey := by
  have hfree : ¬ (shmsgUnlock q).locked now := fun hl => hl.1 rfl
  rw [shmsgWrite_eq, shmsgWrite_eq, if_neg (Nat.not_le.mpr hlen), if_neg (Nat.not_le.mpr hlen),
    if_neg h, if_neg hfree]
  have hslot : slotFor (shmsgUnlock q) =
      (slotFor q).map fun s => ({ s.1 with lockT := 0 }, s.2) := slotFor_lock q 0
  rw [hslot]
  cases slotFor q with
  | none => rfl
  | some s =>
    obtain ⟨b, idx⟩ := s
    have hroom : writeRoom { b with lockT := 0 } msgBuff.length =
        writeRoom b msgBuff.length := rfl
    simp only [Option.map_some, hroom]
    cases writeRoom b msgBuff.length with
    | none => rfl
    | some startOf => rfl

theorem shmsgRead_unlock {q : Shmsgq} {now : UInt64} (h : ¬ q.locked now) (proc : MsgProc)
    (expire : UInt64) :
    shmsgRead q proc now expire = shmsgRead (shmsgUnlock q) proc now expire := by
  have hfree : ¬ (shmsgUnlock q).locked now := fun hl => hl.1 rfl
  rw [shmsgRead_eq, shmsgRead_eq, if_neg h, if_neg hfree]
  rfl

/-- Releasing a lock that nobody holds makes no difference to a call: it goes
through in the same way, or it leaves both queues alone. -/
theorem call_unlock {q : Shmsgq} {now : UInt64} (h : ¬ q.locked now) {call : MsgCall}
    (hle : now ≤ call.now) :
    q.call call = (shmsgUnlock q).call call ∨
      ((q.call call).2 = ((shmsgUnlock q).call call).2 ∧ (q.call call).1 = q ∧
        ((shmsgUnlock q).call call).1 = shmsgUnlock q) := by
  have hfree := not_locked_later hle h
  cases call with
  | write proc later expire msgQid msgBuff destKey =>
    by_cases hbig : maxLen ≤ msgBuff.length
    · -- refused before the queue is looked at
      refine Or.inr ?_
      simp only [Shmsgq.call, shmsgWrite_eq, if_pos hbig, and_self]
    · have heq := shmsgWrite_unlock hfree proc expire msgQid msgBuff destKey (Nat.not_le.mp hbig)
      refine Or.inl ?_
      simp only [MsgCall.now] at heq
      simp only [Shmsgq.call, heq]
  | read proc later expire =>
    have heq := shmsgRead_unlock hfree proc expire
    refine Or.inl ?_
    simp only [MsgCall.now] at heq
    simp only [Shmsgq.call, heq]

theorem sameFuture_unlock {q : Shmsgq} {now : UInt64} (h : ¬ q.locked now) :
    SameFuture now q (shmsgUnlock q) := by
  intro calls
  induction calls with
  | nil => exact fun _ => rfl
  | cons call calls ih =>
    intro hlater
    have hrest := ih fun c hc => hlater c (List.mem_cons_of_mem _ hc)
    rcases call_unlock h (hlater call List.mem_cons_self) with heq | ⟨hans, hq, hq'⟩
    · simp only [Shmsgq.answers, heq]
    · simp only [Shmsgq.answers, hans, hq, hq', hrest]

/-! ## When a failed write leaves no trace -/

/-- The write takes no slot that it cannot use: it is refused for the size of
the message or by the lock, or there is no slot for it, or there is a slot and
room as well. -/
def NoSlotLost (q : Shmsgq) (now : UInt64) (size : Nat) : Prop :=
  maxLen ≤ size ∨ q.locked now ∨
    ((∀ idx ∈ writeScan q, (q.msg idx).isBlank = false) ∧ q.flags &&& shmsgfOverflow = 0) ∨
    RoomFor q size

/-- In every state of the queue, a write that takes no slot in vain and fails
leaves the future as it was. -/
theorem failed_write_same_future (q : Shmsgq) (proc : MsgProc) (now expire : UInt64)
    (msgQid : Nat) (msgBuff : Bytes) (destKey : Option ShKey)
    (hslot : NoSlotLost q now msgBuff.length) {err : Sherr}
    (hfail : (shmsgWrite q proc now expire msgQid msgBuff destKey).2 = .error err) :
    SameFuture now q (shmsgWrite q proc now expire msgQid msgBuff destKey).1 := by
  by_cases hbig : maxLen ≤ msgBuff.length
  · rw [shmsgWrite_eq, if_pos hbig]
    exact fun _ _ => rfl
  by_cases hlock : q.locked now
  · rw [shmsgWrite_eq, if_neg hbig, if_pos hlock]
    exact fun _ _ => rfl
  rcases hslot with h | h | ⟨hfull, hover⟩ | hroom
  · exact absurd h hbig
  · exact absurd h hlock
  · -- the table is full: the lock is released and nothing else happens
    have hnone : slotFor q = none := by
      have hfind : (writeScan q).find? (fun idx => (q.msg idx).isBlank) = none := by
        rw [List.find?_eq_none]
        intro idx hidx
        simp [hfull idx hidx]
      rw [slotFor, hfind]
      exact if_pos hover
    rw [shmsgWrite_eq, if_neg hbig, if_neg hlock, hnone]
    exact sameFuture_unlock hlock
  · -- there is room, so the write does not fail
    have hok := (shmsgWrite_ok_iff (q := shmsgUnlock q) rfl proc now expire msgQid
      (Nat.not_le.mp hbig) destKey).mpr hroom
    rw [shmsgWrite_unlock hlock proc expire msgQid msgBuff destKey (Nat.not_le.mp hbig), hok]
      at hfail
    exact absurd hfail (by simp)

/-! ## A full table

`MAX_MESSAGES_PER_QUEUE` messages of one byte fill the table and leave nearly
all of the byte area free. -/

section FullTable

-- With or without `SHMSGF_OVERFLOW`.
variable (flags : UInt32)

/-- The content of the message with this number. -/
def fillByte (n : Nat) : UInt8 := if n = 0 then 0 else 1

/-- The write of the message with this number. -/
def fillCall (n : Nat) : MsgCall := .write someProc 1 2 0 [fillByte n] none

/-- The queue after `n` of these writes. -/
def filled (n : Nat) : Shmsgq :=
  { lockT := 0, flags := flags, readIdx := 0, writeIdx := n % maxMessagesPerQueue
    readOf := 0, writeOf := n
    msg := fun i =>
      if i < n then { newMsg someProc 0 none with msgSize := 1, msgOf := i } else Shmsg.zero
    data := fun i => if i < n then fillByte i else 0 }

theorem placeMsg_filled {n : Nat} :
    placeMsg (filled flags n) n (newMsg someProc 0 none) n [fillByte n] = filled flags (n + 1) := by
  have hmsg : Function.update (filled flags n).msg n
      { newMsg someProc 0 none with msgSize := 1, msgOf := n } = (filled flags (n + 1)).msg := by
    funext i
    by_cases hi : i = n
    · subst hi
      simp [filled]
    · have hlt : i < n + 1 ↔ i < n := by omega
      rw [Function.update_of_ne hi]
      simp only [filled, hlt]
  have hdata : storeBytes (filled flags n).data n [fillByte n] = (filled flags (n + 1)).data := by
    funext i
    unfold storeBytes
    by_cases hi : i = n
    · subst hi
      simp [filled]
    · have hlt : i < n + 1 ↔ i < n := by omega
      have hout : ¬ (n ≤ i ∧ i < n + [fillByte n].length) := by
        simp only [List.length_singleton]
        omega
      rw [if_neg hout]
      simp only [filled, hlt]
  unfold placeMsg fillSlot
  rw [List.length_singleton, hmsg, hdata]
  rfl

theorem filled_run : ∀ {n : Nat}, n ≤ maxMessagesPerQueue →
    ((MsgLog.init flags).run ((List.range n).map fillCall)).queue = filled flags n := by
  intro n
  induction n with
  | zero =>
    intro _
    simp [MsgLog.run, MsgLog.init, shmsgQueueInit, filled]
  | succ n ih =>
    intro hn
    have hlt : n < maxMessagesPerQueue := hn
    have hq := ih (Nat.le_of_lt hlt)
    have hw : (filled flags n).writeIdx = n := Nat.mod_eq_of_lt hlt
    have hroom : writeRoom (filled flags n) [fillByte n].length = some n := by
      have hfree : ¬ maxLen - n < 1 := by
        have : maxMessagesPerQueue + 1 ≤ maxLen := by decide
        omega
      simp [writeRoom, wraps, filled, hfree]
    rw [List.range_succ, List.map_append, MsgLog.run, List.foldl_append]
    show (((MsgLog.init flags).run ((List.range n).map fillCall)).step (fillCall n)).queue = _
    have hone : [fillByte n].length < maxLen := by
      rw [List.length_singleton]
      decide
    have hfree : ((filled flags n).msg n).isBlank = true := by
      simp [filled, Shmsg.isBlank, Shmsg.zero]
    rw [fillCall, step_write_next (by rw [hq]; rfl) hone (by rw [hq, hw]; exact hlt)
      (by rw [hq, hw]; exact hfree) (by rw [hq]; exact hroom)]
    rw [hq, hw]
    exact placeMsg_filled flags

/-- The run that fills the table. -/
def fillCalls : List MsgCall := (List.range maxMessagesPerQueue).map fillCall

theorem fillCalls_run :
    ((MsgLog.init flags).run fillCalls).queue = filled flags maxMessagesPerQueue :=
  filled_run flags (Nat.le_refl _)

theorem filled_full : ∀ idx ∈ writeScan (filled flags maxMessagesPerQueue),
    ((filled flags maxMessagesPerQueue).msg idx).isBlank = false := by
  intro idx hidx
  have hscan : writeScan (filled flags maxMessagesPerQueue) =
      (List.range maxMessagesPerQueue).map (circ maxMessagesPerQueue 0) :=
    writeScan_meet cap_pos rfl
  rw [hscan, List.mem_map] at hidx
  obtain ⟨i, -, rfl⟩ := hidx
  have hlt := circ_lt cap_pos 0 i
  have hne : someProc.peerKey ≠ ashkeyBlank := someProc.peerKey_ne
  simp [filled, hlt, newMsg, Shmsg.isBlank, hne]

end FullTable

/-- A full table without `SHMSGF_OVERFLOW`: one more write is refused, and
nothing comes of it. -/
theorem failed_write_full_table :
    (shmsgWrite ((MsgLog.init shmsgfAnonymous).run fillCalls).queue someProc 1 2 0 [9] none).2 =
      .error .again ∧
    SameFuture 1 ((MsgLog.init shmsgfAnonymous).run fillCalls).queue
      (shmsgWrite ((MsgLog.init shmsgfAnonymous).run fillCalls).queue someProc 1 2 0
        [9] none).1 := by
  rw [fillCalls_run]
  have hfull := filled_full shmsgfAnonymous
  have hfail : (shmsgWrite (filled shmsgfAnonymous maxMessagesPerQueue) someProc 1 2 0 [9] none).2 =
      .error .again := by
    have hfind : (writeScan (filled shmsgfAnonymous maxMessagesPerQueue)).find?
        (fun idx => ((filled shmsgfAnonymous maxMessagesPerQueue).msg idx).isBlank) = none := by
      rw [List.find?_eq_none]
      intro idx hidx
      simp [hfull idx hidx]
    have hnone : slotFor (filled shmsgfAnonymous maxMessagesPerQueue) = none := by
      rw [slotFor, hfind]
      rfl
    rw [shmsgWrite_eq, if_neg (by decide), if_neg (fun h => h.1 rfl), hnone]
  exact ⟨hfail, failed_write_same_future _ someProc 1 2 0 [9] none
    (Or.inr (Or.inr (Or.inl ⟨hfull, rfl⟩))) hfail⟩

/-! ## A message lost to a write that fails -/

section Evicting

/-- A full anonymous queue that discards stale messages. -/
def evictingQueue : Shmsgq := filled (shmsgfAnonymous ||| shmsgfOverflow) maxMessagesPerQueue

-- The long message is a variable, so that its bytes are never computed.
variable {long : Bytes} (hlong : long.length = maxLen - 1)

include hlong

/-- The slot of the oldest message is given up before the write finds that it
has no room for the new one. -/
theorem shmsgWrite_evicting :
    shmsgWrite evictingQueue someProc 1 2 0 long none =
      (shmsgUnlock (fillSlot (evict evictingQueue) 0
        { newMsg someProc 0 none with srcKey := ashkeyBlank }), .error .again) := by
  have hfind : (writeScan evictingQueue).find? (fun idx => (evictingQueue.msg idx).isBlank) =
      none := by
    rw [List.find?_eq_none]
    intro idx hidx
    have hfull := filled_full (shmsgfAnonymous ||| shmsgfOverflow) idx hidx
    rw [show evictingQueue.msg idx = (filled _ maxMessagesPerQueue).msg idx from rfl, hfull]
    decide
  have hslot : slotFor evictingQueue = some (evict evictingQueue, 0) := by
    rw [slotFor, hfind]
    exact if_neg (show evictingQueue.flags &&& shmsgfOverflow ≠ 0 by decide)
  have hroom : writeRoom (evict evictingQueue) long.length = none := by
    have hof : fits (evict evictingQueue).readOf (evict evictingQueue).writeOf =
        maxLen - maxMessagesPerQueue := by decide
    have hno : ¬ (writeRoom (evict evictingQueue) long.length).isSome = true := by
      rw [writeRoom_isSome, hof, hlong]
      decide
    simpa using hno
  have hlen : ¬ maxLen ≤ long.length := by
    rw [hlong]
    decide
  rw [shmsgWrite_eq, if_neg hlen, if_neg (fun h => h.1 rfl), hslot]
  dsimp only
  rw [hroom]

theorem read_after_evicting :
    (shmsgRead (shmsgWrite evictingQueue someProc 1 2 0 long none).1 someProc 1 2).2 =
      .ok (someProc.peerKey, [1]) := by
  rw [shmsgWrite_evicting hlong]
  set q := shmsgUnlock (fillSlot (evict evictingQueue) 0
    { newMsg someProc 0 none with srcKey := ashkeyBlank }) with hq
  have hr : q.readIdx = 1 := rfl
  have hw : q.writeIdx = 1 := rfl
  -- the slot after the one that was given up
  have hmsg : q.msg 1 = { newMsg someProc 0 none with msgSize := 1, msgOf := 1 } := by
    rfl
  have hfind : shmsgReadMap q none = some 1 := by
    have hnext : shmsgReadMap q none = some q.readIdx := shmsgReadMap_next (by rw [hr]; decide)
      (by rw [hw]; decide) (by rw [hr, hmsg]; decide)
    rw [hnext, hr]
  rw [shmsgRead_found rfl (by decide) someProc 1 2 hfind, Shmsgq.content, hmsg]
  rfl

end Evicting

theorem read_before_evicting :
    (shmsgRead evictingQueue someProc 1 2).2 = .ok (someProc.peerKey, [0]) := by
  have hfind : shmsgReadMap evictingQueue none = some 0 :=
    shmsgReadMap_next (q := evictingQueue) cap_pos cap_pos (by decide)
  rw [shmsgRead_found rfl (by decide) someProc 1 2 hfind]
  rfl

theorem evicting_changes_future {long : Bytes} (hlong : long.length = maxLen - 1) :
    ¬ SameFuture 1 evictingQueue (shmsgWrite evictingQueue someProc 1 2 0 long none).1 := by
  intro hsame
  have hread := hsame [.read someProc 1 2] (by simp [MsgCall.now])
  simp only [Shmsgq.answers, Shmsgq.call, read_before_evicting, read_after_evicting hlong,
    List.cons.injEq, MsgAnswer.read.injEq, Except.ok.injEq, Prod.mk.injEq] at hread
  exact absurd hread.1.2.1 (by decide)

/-- On a full queue that discards stale messages, a message of one byte less
than the area is refused, and the oldest message is gone: the next read
delivers the second one. -/
theorem evicting_write_fails :
    (shmsgWrite ((MsgLog.init (shmsgfAnonymous ||| shmsgfOverflow)).run fillCalls).queue
      someProc 1 2 0 (List.replicate (maxLen - 1) 0) none).2 = .error .again ∧
    ¬ SameFuture 1 ((MsgLog.init (shmsgfAnonymous ||| shmsgfOverflow)).run fillCalls).queue
      (shmsgWrite ((MsgLog.init (shmsgfAnonymous ||| shmsgfOverflow)).run fillCalls).queue
        someProc 1 2 0 (List.replicate (maxLen - 1) 0) none).1 := by
  have hlong : (List.replicate (maxLen - 1) (0 : UInt8)).length = maxLen - 1 :=
    List.length_replicate
  rw [fillCalls_run, ← evictingQueue]
  refine ⟨?_, evicting_changes_future hlong⟩
  rw [shmsgWrite_evicting hlong]

end LibShare.Sys
