import LibShare.Sys.MsgFifo

/-!
# libshare — room in a message queue

Which writes does a queue accept? `shmsgWrite_eq` says once what a write does:
it is refused before it looks at the queue, or it finds no slot, or it takes a
slot (`slotFor`, which on an overflowing queue gives up the slot of the oldest
message) and then looks for room between the byte cursors. `fits` is the largest
message for which there is room there.

A drained queue is one whose reader is told `SHERR_NOMSG`. Draining does not
bring the byte cursors back to the start of the area, so what a drained queue
accepts still depends on where they stand (`drained_write_iff`).
-/

namespace LibShare.Sys

open Circular

/-! ## The slot of a write -/

/-- The queue after the slot at the read cursor has been given up. -/
def evict (q : Shmsgq) : Shmsgq :=
  { q with
    readIdx := (q.readIdx + 1) % maxMessagesPerQueue
    readOf := (q.msg q.readIdx).msgOf + (q.msg q.readIdx).msgSize }

/-- The slot a write takes, and the queue it takes it from. -/
def slotFor (q : Shmsgq) : Option (Shmsgq × Nat) :=
  match (writeScan q).find? fun idx => (q.msg idx).isBlank with
  | some idx => some (q, idx)
  | none => if q.flags &&& shmsgfOverflow = 0 then none else some (evict q, q.readIdx)

/-- The slot for a write is looked for first, and then taken. -/
theorem shmsgWriteMap_eq (q : Shmsgq) :
    shmsgWriteMap q = (slotFor q).map fun s => (takeSlot s.1 s.2, s.2) := by
  unfold shmsgWriteMap slotFor
  cases (writeScan q).find? fun idx => (q.msg idx).isBlank with
  | some idx => rfl
  | none =>
    dsimp only
    split <;> rfl

-- The lock plays no part in the choice of the slot.
/-- The slot does not depend on the lock. -/
theorem slotFor_lock (q : Shmsgq) (t : UInt64) :
    slotFor { q with lockT := t } = (slotFor q).map fun s => ({ s.1 with lockT := t }, s.2) := by
  have hscan : writeScan { q with lockT := t } = writeScan q := rfl
  unfold slotFor
  rw [hscan]
  cases (writeScan q).find? fun idx => (q.msg idx).isBlank with
  | some idx => rfl
  | none =>
    dsimp only
    split <;> rfl

/-- The lock is held by another process. -/
def Shmsgq.locked (q : Shmsgq) (now : UInt64) : Prop := q.lockT ≠ 0 ∧ q.lockT > now

instance (q : Shmsgq) (now : UInt64) : Decidable (q.locked now) :=
  inferInstanceAs (Decidable (_ ∧ _))

/-- A lock is taken unless another one is in force. -/
theorem shmsgLock_eq (q : Shmsgq) (now expire : UInt64) :
    shmsgLock q now expire =
      if q.locked now then .error .again else .ok { q with lockT := expire } := rfl

/-- What a write does, whatever the state of the queue. -/
theorem shmsgWrite_eq (q : Shmsgq) (proc : MsgProc) (now expire : UInt64) (msgQid : Nat)
    (msgBuff : Bytes) (destKey : Option ShKey) :
    shmsgWrite q proc now expire msgQid msgBuff destKey =
      if maxLen ≤ msgBuff.length then (q, .error .inval)
      else if q.locked now then (q, .error .again)
      else
        match slotFor q with
        | none => (shmsgUnlock q, .error .again)
        | some (b, idx) =>
          match writeRoom b msgBuff.length with
          | none =>
            (shmsgUnlock (fillSlot b idx { newMsg proc msgQid destKey with srcKey := ashkeyBlank }),
              .error .again)
          | some startOf =>
            (shmsgUnlock (placeMsg b idx (newMsg proc msgQid destKey) startOf msgBuff),
              .ok ()) := by
  unfold shmsgWrite
  by_cases hbig : maxLen ≤ msgBuff.length
  · rw [if_pos hbig, if_pos hbig]
  rw [if_neg hbig, if_neg hbig]
  by_cases hlock : q.locked now
  · rw [shmsgLock_eq, if_pos hlock, if_pos hlock]
  rw [shmsgLock_eq, if_neg hlock, if_neg hlock]
  dsimp only
  rw [shmsgWriteMap_eq, slotFor_lock]
  cases slotFor q with
  | none => rfl
  | some s =>
    obtain ⟨b, idx⟩ := s
    -- `shmsg_write_map_data` reads the byte cursors only
    have hroom : ∀ f, writeRoom { takeSlot { b with lockT := expire } idx with msg := f }
        msgBuff.length = writeRoom b msgBuff.length := fun _ => rfl
    simp only [Option.map_some, shmsgWriteMapData]
    rw [hroom]
    cases writeRoom b msgBuff.length with
    | none => simp [shmsgUnlock, takeSlot, fillSlot, newMsg, Shmsg.zero]
    | some startOf => simp [shmsgUnlock, takeSlot, placeMsg, fillSlot, newMsg, Shmsg.zero]

/-! ## Room between the byte cursors -/

/-- The largest message that has room between the byte cursors. A writer that
is not behind the reader may also start again at offset zero. -/
def fits (readOf writeOf : Nat) : Nat :=
  if readOf ≤ writeOf then max (maxLen - writeOf) readOf else readOf - writeOf

/-- There is room just for the sizes that fit. -/
theorem writeRoom_isSome (q : Shmsgq) (size : Nat) :
    (writeRoom q size).isSome = true ↔ size ≤ fits q.readOf q.writeOf := by
  unfold writeRoom wraps fits
  by_cases hro : q.readOf ≤ q.writeOf
  · by_cases hsize : maxLen - q.writeOf < size
    · -- behind the writer there is too little: the message starts at zero
      simp [hro, hsize]
    · simp [hro, hsize]
      omega
  · simp [hro]

/-- The queue has a slot and room for a message of this size: a slot that the
writer looks at is free and the message fits between the byte cursors, or no
such slot is free, stale messages may be discarded, and the message fits once
`read_of` is moved behind the slot at the read cursor. -/
def RoomFor (q : Shmsgq) (size : Nat) : Prop :=
  ((∃ idx ∈ writeScan q, (q.msg idx).isBlank = true) ∧ size ≤ fits q.readOf q.writeOf) ∨
  ((∀ idx ∈ writeScan q, (q.msg idx).isBlank = false) ∧ q.flags &&& shmsgfOverflow ≠ 0 ∧
    size ≤ fits ((q.msg q.readIdx).msgOf + (q.msg q.readIdx).msgSize) q.writeOf)

/-- A write to an unlocked queue succeeds exactly when the message is smaller
than the byte area and there is room for it. -/
theorem shmsgWrite_ok_iff {q : Shmsgq} (hlock : q.lockT = 0) (proc : MsgProc)
    (now expire : UInt64) (msgQid : Nat) {msgBuff : Bytes} (hlen : msgBuff.length < maxLen)
    (destKey : Option ShKey) :
    (shmsgWrite q proc now expire msgQid msgBuff destKey).2 = .ok () ↔
      RoomFor q msgBuff.length := by
  have hnot : ¬ q.locked now := fun h => h.1 hlock
  -- once the slot is chosen, only the byte cursors decide
  have hdata : ∀ b idx, slotFor q = some (b, idx) →
      ((shmsgWrite q proc now expire msgQid msgBuff destKey).2 = .ok () ↔
        msgBuff.length ≤ fits b.readOf b.writeOf) := by
    intro b idx hslot
    rw [shmsgWrite_eq, if_neg (Nat.not_le.mpr hlen), if_neg hnot, hslot, ← writeRoom_isSome b]
    dsimp only
    cases writeRoom b msgBuff.length with
    | none => simp
    | some startOf => simp
  cases hfind : (writeScan q).find? fun idx => (q.msg idx).isBlank with
  | some idx =>
    have hblank := List.find?_some hfind
    have hmem : ∃ idx ∈ writeScan q, (q.msg idx).isBlank = true :=
      ⟨idx, List.mem_of_find?_eq_some hfind, hblank⟩
    rw [hdata q idx (by rw [slotFor, hfind])]
    constructor
    · exact fun hfit => Or.inl ⟨hmem, hfit⟩
    · rintro (⟨-, hfit⟩ | ⟨hnone, -⟩)
      · exact hfit
      · obtain ⟨i, hi, hblank⟩ := hmem
        rw [hnone i hi] at hblank
        exact absurd hblank (by decide)
  | none =>
    have hnone : ∀ idx ∈ writeScan q, (q.msg idx).isBlank = false := by
      intro idx hidx
      simpa using List.find?_eq_none.mp hfind idx hidx
    have hfree : ¬ ∃ idx ∈ writeScan q, (q.msg idx).isBlank = true := by
      rintro ⟨i, hi, hblank⟩
      rw [hnone i hi] at hblank
      exact absurd hblank (by decide)
    by_cases hover : q.flags &&& shmsgfOverflow = 0
    · have hslot : slotFor q = none := by rw [slotFor, hfind, if_pos hover]
      rw [shmsgWrite_eq, if_neg (Nat.not_le.mpr hlen), if_neg hnot, hslot]
      simp [RoomFor, hfree, hover]
    · rw [hdata (evict q) q.readIdx (by rw [slotFor, hfind, if_neg hover])]
      constructor
      · exact fun hfit => Or.inr ⟨hnone, hover, hfit⟩
      · rintro (⟨hmem, -⟩ | ⟨-, -, hfit⟩)
        · exact absurd hmem hfree
        · exact hfit

/-! ## Drained queues -/

/-- What every call relies on in a queue between two calls. -/
structure Idle (q : Shmsgq) : Prop where
  unlocked : q.lockT = 0
  readIdx_lt : q.readIdx < maxMessagesPerQueue
  writeIdx_lt : q.writeIdx < maxMessagesPerQueue

/-- A new queue is idle. -/
theorem idle_init (flags : UInt32) : Idle (MsgLog.init flags).queue := ⟨rfl, cap_pos, cap_pos⟩

/-- The search for a slot leaves the index for reading within the table. -/
theorem slotFor_idle {q b : Shmsgq} (h : Idle q) {idx : Nat} (hslot : slotFor q = some (b, idx)) :
    b.readIdx < maxMessagesPerQueue := by
  unfold slotFor at hslot
  split at hslot
  · cases hslot
    exact h.readIdx_lt
  · split at hslot
    · exact absurd hslot (by simp)
    · cases hslot
      exact Nat.mod_lt _ cap_pos

/-- A write leaves the queue idle. -/
theorem idle_write {q : Shmsgq} (h : Idle q) (proc : MsgProc) (now expire : UInt64) (msgQid : Nat)
    (msgBuff : Bytes) (destKey : Option ShKey) :
    Idle (shmsgWrite q proc now expire msgQid msgBuff destKey).1 := by
  rw [shmsgWrite_eq]
  split
  · exact h
  split
  · exact h
  cases hslot : slotFor q with
  | none => exact ⟨rfl, h.readIdx_lt, h.writeIdx_lt⟩
  | some s =>
    obtain ⟨b, idx⟩ := s
    have hb := slotFor_idle h hslot
    dsimp only
    split
    · exact ⟨rfl, hb, Nat.mod_lt _ cap_pos⟩
    · exact ⟨rfl, hb, Nat.mod_lt _ cap_pos⟩

/-- The key a reader compares the destination of a message with. -/
def readerKey (q : Shmsgq) (proc : MsgProc) : Option ShKey :=
  if q.flags &&& shmsgfAnonymous = 0 then some proc.peerKey else none

/-- What a read does, whatever the state of the queue. -/
theorem shmsgRead_eq (q : Shmsgq) (proc : MsgProc) (now expire : UInt64) :
    shmsgRead q proc now expire =
      if q.locked now then (q, .error .again)
      else
        match shmsgReadMap q (readerKey q proc) with
        | none => (shmsgUnlock q, .error .nomsg)
        | some idx =>
          (shmsgUnlock (consume q idx), .ok ((q.msg idx).srcKey, q.content idx)) := by
  unfold shmsgRead
  by_cases hlock : q.locked now
  · rw [shmsgLock_eq, if_pos hlock, if_pos hlock]
  rw [shmsgLock_eq, if_neg hlock, if_neg hlock]
  dsimp only
  have hmap : shmsgReadMap { q with lockT := expire } (readerKey q proc) =
      shmsgReadMap q (readerKey q proc) := rfl
  rw [← readerKey, hmap]
  cases shmsgReadMap q (readerKey q proc) with
  | none => rfl
  | some idx => rfl

/-- A read leaves the queue idle. -/
theorem idle_read {q : Shmsgq} (h : Idle q) (proc : MsgProc) (now expire : UInt64) :
    Idle (shmsgRead q proc now expire).1 := by
  rw [shmsgRead_eq]
  split
  · exact h
  split
  · exact ⟨rfl, h.readIdx_lt, h.writeIdx_lt⟩
  · exact ⟨rfl, Nat.mod_lt _ cap_pos, h.writeIdx_lt⟩

/-- Every call leaves the queue idle. -/
theorem step_idle {log : MsgLog} (h : Idle log.queue) (call : MsgCall) :
    Idle (log.step call).queue := by
  cases call with
  | write proc now expire msgQid msgBuff destKey =>
    have hidle := idle_write h proc now expire msgQid msgBuff destKey
    simp only [MsgLog.step]
    split <;> simp_all
  | read proc now expire =>
    have hidle := idle_read h proc now expire
    simp only [MsgLog.step]
    split <;> simp_all

/-- Every run leaves the queue idle. -/
theorem run_idle (calls : List MsgCall) : ∀ {log : MsgLog}, Idle log.queue →
    Idle (log.run calls).queue := by
  induction calls with
  | nil => exact id
  | cons call calls ih => exact fun h => ih (step_idle h call)

theorem unlock_self {q : Shmsgq} (h : q.lockT = 0) : shmsgUnlock q = q := by
  rw [shmsgUnlock, ← h]

/-- A read that finds nothing changes nothing. -/
theorem drained_unchanged {q : Shmsgq} (h : Idle q) {proc : MsgProc} {now expire : UInt64}
    (hdrained : (shmsgRead q proc now expire).2 = .error .nomsg) :
    (shmsgRead q proc now expire).1 = q := by
  rw [shmsgRead_eq] at hdrained ⊢
  split
  · rfl
  · next hlock =>
    rw [if_neg hlock] at hdrained
    split
    · exact unlock_self h.unlocked
    · next idx hfind =>
      rw [hfind] at hdrained
      exact absurd hdrained (by simp)

/-- In every run, when a reader has been told that there is no message, the
next write of a message smaller than the byte area succeeds exactly when there
is a slot and room for it where the cursors now stand. -/
theorem drained_write_iff (flags : UInt32) (calls : List MsgCall) (reader : MsgProc)
    (now expire : UInt64)
    (hdrained : (shmsgRead ((MsgLog.init flags).run calls).queue reader now expire).2 =
      .error .nomsg)
    (proc : MsgProc) (now' expire' : UInt64) (msgQid : Nat) {msgBuff : Bytes}
    (hlen : msgBuff.length < maxLen) (destKey : Option ShKey) :
    (shmsgWrite (shmsgRead ((MsgLog.init flags).run calls).queue reader now expire).1
        proc now' expire' msgQid msgBuff destKey).2 = .ok () ↔
      RoomFor ((MsgLog.init flags).run calls).queue msgBuff.length := by
  have hidle := run_idle calls (idle_init flags)
  rw [drained_unchanged hidle hdrained]
  exact shmsgWrite_ok_iff hidle.unlocked proc now' expire' msgQid hlen destKey

/-! ## A drained queue that refuses

Two bytes written and read back leave both byte cursors at offset two. -/

/-- The calls of the run. -/
def twoByteCalls : List MsgCall :=
  [.write someProc 1 2 0 [1, 2] none, .read someProc 1 2]

/-- The queue after them. -/
def twoByteQueue : Shmsgq :=
  consume (placeMsg (shmsgQueueInit shmsgfAnonymous) 0 (newMsg someProc 0 none) 0 [1, 2]) 0

/-- The queue after its calls. -/
theorem twoByte_run :
    ((MsgLog.init shmsgfAnonymous).run twoByteCalls).queue = twoByteQueue := by
  have h1 : (MsgLog.init shmsgfAnonymous).step (.write someProc 1 2 0 [1, 2] none) =
      ⟨placeMsg (shmsgQueueInit shmsgfAnonymous) 0 (newMsg someProc 0 none) 0 [1, 2],
        [[1, 2]], []⟩ :=
    step_write_next rfl (by decide) (by decide) rfl (by decide)
  simp only [MsgLog.run, twoByteCalls, List.foldl_cons, List.foldl_nil, h1]
  rw [step_read_next rfl (by decide) cap_pos (Nat.lt_of_sub_eq_succ rfl) rfl]
  rfl

theorem twoByteQueue_blank (idx : Nat) : (twoByteQueue.msg idx).isBlank = true := by
  by_cases h : idx = 0
  · subst h
    rfl
  · show ((Function.update _ 0 _ : Nat → Shmsg) idx).isBlank = true
    rw [Function.update_of_ne h]
    show ((Function.update _ 0 _ : Nat → Shmsg) idx).isBlank = true
    rw [Function.update_of_ne h]
    rfl

/-- All messages have been read. -/
theorem twoByte_drained (now expire : UInt64) :
    (shmsgRead twoByteQueue someProc now expire).2 = .error .nomsg := by
  have hnone : shmsgReadMap twoByteQueue (readerKey twoByteQueue someProc) = none := by
    unfold shmsgReadMap
    rw [List.find?_eq_none]
    intro idx _
    simp [shmsgReadValid, twoByteQueue_blank]
  rw [shmsgRead_eq, if_neg (fun h => h.1 rfl), hnone]

/-- What fits is all but the two bytes that have been read. -/
theorem fits_twoByte : fits twoByteQueue.readOf twoByteQueue.writeOf = maxLen - 2 := by decide

/-- The example of the theorem: two further bytes are accepted. -/
theorem drained_write_two :
    (shmsgRead ((MsgLog.init shmsgfAnonymous).run twoByteCalls).queue someProc 1 2).2 =
      .error .nomsg ∧
    (shmsgWrite (shmsgRead ((MsgLog.init shmsgfAnonymous).run twoByteCalls).queue someProc 1 2).1
      someProc 1 2 0 [3, 4] none).2 = .ok () := by
  have hdrained : (shmsgRead ((MsgLog.init shmsgfAnonymous).run twoByteCalls).queue
      someProc 1 2).2 = .error .nomsg := by
    rw [twoByte_run]
    exact twoByte_drained 1 2
  refine ⟨hdrained, (drained_write_iff shmsgfAnonymous twoByteCalls someProc 1 2 hdrained
    someProc 1 2 0 (by decide) none).mpr (Or.inl ⟨?_, ?_⟩)⟩
  · rw [twoByte_run]
    obtain ⟨rest, hscan⟩ := writeScan_cons (q := twoByteQueue) (Nat.lt_of_sub_eq_succ rfl)
    exact ⟨_, by rw [hscan]; exact List.mem_cons_self, twoByteQueue_blank _⟩
  · rw [twoByte_run, fits_twoByte]
    decide

/-- After two bytes have been written and read back, a message of one byte
less than the area, which the size check admits, is refused. -/
theorem drained_write_refused :
    (shmsgRead ((MsgLog.init shmsgfAnonymous).run twoByteCalls).queue someProc 1 2).2 =
      .error .nomsg ∧
    (List.replicate (maxLen - 1) (0 : UInt8)).length < maxLen ∧
    (shmsgWrite (shmsgRead ((MsgLog.init shmsgfAnonymous).run twoByteCalls).queue someProc 1 2).1
      someProc 1 2 0 (List.replicate (maxLen - 1) 0) none).2 ≠ .ok () := by
  have hidle := run_idle twoByteCalls (idle_init shmsgfAnonymous)
  have hlen : (List.replicate (maxLen - 1) (0 : UInt8)).length < maxLen := by
    rw [List.length_replicate]
    decide
  rw [twoByte_run] at hidle ⊢
  refine ⟨twoByte_drained 1 2, hlen, ?_⟩
  rw [drained_unchanged hidle (twoByte_drained 1 2),
    ne_eq, shmsgWrite_ok_iff hidle.unlocked someProc 1 2 0 hlen none]
  rintro (⟨-, hfit⟩ | ⟨-, hover, -⟩)
  · rw [fits_twoByte, List.length_replicate] at hfit
    exact absurd hfit (by decide)
  · exact hover rfl

end LibShare.Sys
