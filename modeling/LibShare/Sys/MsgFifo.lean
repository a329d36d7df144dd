import LibShare.Sys.Msg
import LibShare.Lib.Circular

/-!
# libshare — message queues in order

When does an anonymous, non-overflow queue deliver what was written, in order?

The reader scans the slots from `read_idx` up to `write_idx` and takes the
first one in use, so what it will deliver is the contents of the slots in use
along that window (`unread`). Two things can go wrong in a write:

* **Slots.** A write that finds a slot but no room in the byte area leaves a
  free slot behind `write_idx`. When the cursors meet after such writes, the
  window is a full turn with free slots in it, and a write that takes one of
  them moves `write_idx` back in front of unread messages.
* **Bytes.** Room is measured against `read_of`, which is not the offset of
  the oldest unread message: it equals `write_of` both when the area is empty
  and when it is full, and it stays behind when the reader follows the writer
  to the start of the area.

`WriteOk` excludes both. Under it one call preserves the invariant
(`write_step`, `read_step`) and every run is FIFO (`run_fifo`).
-/

namespace LibShare.Sys

open Circular

/-! ## What the reader will deliver -/

/-- The slot is in use. -/
def Shmsgq.live (q : Shmsgq) (idx : Nat) : Bool := !(q.msg idx).isBlank

/-- The slots in use along the reader's window. -/
def unreadSlots (q : Shmsgq) : List Nat := (readScan q).filter q.live

/-- The content of a slot's message. -/
def Shmsgq.content (q : Shmsgq) (idx : Nat) : Bytes :=
  q.bytes (q.msg idx).msgOf (q.msg idx).msgSize

/-- The unread messages, oldest first. -/
def unread (q : Shmsgq) : List Bytes := (unreadSlots q).map q.content

/-- The unread messages with their destinations. -/
def posted (q : Shmsgq) : List (ShKey × Bytes) :=
  (unreadSlots q).map fun idx => ((q.msg idx).destKey, q.content idx)

/-- What is unread is what has been posted, without the slots. -/
theorem unread_eq_posted (q : Shmsgq) : unread q = (posted q).map Prod.snd := by
  simp [unread, posted, Function.comp_def]

/-- The byte segment of a slot's message. -/
def Shmsgq.seg (q : Shmsgq) (idx : Nat) : Nat × Nat := ((q.msg idx).msgOf, (q.msg idx).msgSize)

/-- The byte segments in use, oldest first. -/
def segs (q : Shmsgq) : List (Nat × Nat) := (unreadSlots q).map q.seg

/-- A state in which writing `size` bytes keeps the order.

* When the slot cursors meet, no free slot stands before a slot in use in the
  reader's order.
* If the byte area has room in the eyes of `shmsg_write_map_data`, the message
  fits between `write_of` and the oldest unread message. -/
structure WriteOk (q : Shmsgq) (size : Nat) : Prop where
  slots : q.readIdx = q.writeIdx → ∀ i j, i < j → j < maxMessagesPerQueue →
    q.live (circ maxMessagesPerQueue q.readIdx j) = true →
    q.live (circ maxMessagesPerQueue q.readIdx i) = true
  bytes : writeRoom q size ≠ none → ∀ idx, shmsgReadMap q none = some idx →
    Gap q.writeOf (wraps q size) size (q.msg idx).msgOf

/-- The invariant of a non-overflow queue between two calls. -/
structure Ordered (q : Shmsgq) : Prop where
  noOverflow : q.flags &&& shmsgfOverflow = 0
  unlocked : q.lockT = 0
  readIdx_lt : q.readIdx < maxMessagesPerQueue
  writeIdx_lt : q.writeIdx < maxMessagesPerQueue
  readOf_le : q.readOf ≤ maxLen
  writeOf_le : q.writeOf ≤ maxLen
  /-- slots in use lie in the reader's window -/
  inWindow : ∀ j < maxMessagesPerQueue,
    q.live (circ maxMessagesPerQueue q.readIdx j) = true →
    j < span maxMessagesPerQueue q.readIdx q.writeIdx
  laid : Laid maxLen q.writeOf (segs q)

/-- The invariant of an anonymous one. -/
structure Inv (q : Shmsgq) : Prop extends Ordered q where
  anonymous : q.flags &&& shmsgfAnonymous ≠ 0

theorem cap_pos : 0 < maxMessagesPerQueue := by decide

theorem ordered_init {flags : UInt32} (ho : flags &&& shmsgfOverflow = 0) :
    Ordered (shmsgQueueInit flags) where
  noOverflow := ho
  unlocked := rfl
  readIdx_lt := cap_pos
  writeIdx_lt := cap_pos
  readOf_le := Nat.zero_le _
  writeOf_le := Nat.zero_le _
  inWindow := by
    intro j _ hlive
    simp [Shmsgq.live, shmsgQueueInit, Shmsg.isBlank, Shmsg.zero] at hlive
  laid := by
    have hnil : segs (shmsgQueueInit flags) = [] := by
      simp [segs, unreadSlots, Shmsgq.live, shmsgQueueInit, Shmsg.isBlank, Shmsg.zero]
    rw [hnil]
    exact Laid.nil (Nat.zero_le _)

/-! ## Scans -/

/-- The loop of a read goes through the window of the queue. -/
theorem readScan_eq_window {q : Shmsgq} (hr : q.readIdx < maxMessagesPerQueue)
    (hw : q.writeIdx < maxMessagesPerQueue) :
    readScan q = window maxMessagesPerQueue q.readIdx q.writeIdx := by
  unfold readScan
  split
  · next h => exact (window_eq_of_le h hr).symm
  · next h => exact (window_eq_of_lt (Nat.not_le.mp h) hw).symm

/-- A slot of the window, by its distance from the read cursor. -/
theorem mem_unreadSlots {q : Shmsgq} (h : Ordered q) {idx : Nat} :
    idx ∈ unreadSlots q ↔ idx < maxMessagesPerQueue ∧ q.live idx = true := by
  unfold unreadSlots
  rw [List.mem_filter, readScan_eq_window h.readIdx_lt h.writeIdx_lt, window, List.mem_map]
  constructor
  · rintro ⟨⟨i, -, rfl⟩, hlive⟩
    exact ⟨circ_lt cap_pos _ _, hlive⟩
  · rintro ⟨hlt, hlive⟩
    obtain ⟨j, hj, rfl⟩ := exists_circ h.readIdx_lt hlt
    exact ⟨⟨j, List.mem_range.mpr (h.inWindow j hj hlive), rfl⟩, hlive⟩

/-- Along the reader's window, a slot is readable when it is in use: messages
in use are never empty. -/
theorem readValid_eq_live {q : Shmsgq} (h : Ordered q) {idx : Nat}
    (hidx : idx < maxMessagesPerQueue) :
    shmsgReadValid (q.msg idx) none = q.live idx := by
  unfold shmsgReadValid Shmsgq.live
  by_cases hb : (q.msg idx).isBlank
  · simp [hb]
  · have hmem : q.seg idx ∈ segs q :=
      List.mem_map_of_mem ((mem_unreadSlots h).mpr ⟨hidx, by simp [Shmsgq.live, hb]⟩)
    have hsize : (q.msg idx).msgSize ≠ 0 := by
      have := (h.laid.mem_bounds _ hmem).1
      simp only [Shmsgq.seg] at this
      omega
    simp [hb, hsize]

/-- The reader finds the oldest slot in use. -/
theorem shmsgReadMap_eq_head {q : Shmsgq} (h : Ordered q) :
    shmsgReadMap q none = (unreadSlots q).head? := by
  unfold shmsgReadMap unreadSlots
  rw [← List.head?_filter]
  congr 1
  apply List.filter_congr
  intro idx hmem
  rw [readScan_eq_window h.readIdx_lt h.writeIdx_lt, window, List.mem_map] at hmem
  obtain ⟨i, -, rfl⟩ := hmem
  exact readValid_eq_live h (circ_lt cap_pos _ _)

/-! ## Reading -/

/-- A cleared slot is free and the others are as they were. -/
theorem live_consume (q : Shmsgq) (idx j : Nat) :
    (consume q idx).live j = (decide (j ≠ idx) && q.live j) := by
  unfold Shmsgq.live consume
  by_cases h : j = idx
  · subst h
    simp [Shmsg.isBlank]
  · simp [h]

/-- A message that is consumed leaves the contents of all slots. -/
theorem content_consume (q : Shmsgq) (idx j : Nat) :
    (consume q idx).content j = q.content j := by
  unfold Shmsgq.content consume Shmsgq.bytes
  by_cases h : j = idx
  · subst h
    simp
  · simp [h]

theorem seg_consume (q : Shmsgq) (idx j : Nat) : (consume q idx).seg j = q.seg j := by
  unfold Shmsgq.seg consume
  by_cases h : j = idx
  · subst h
    simp
  · simp [h]

/-- The window has no slot twice. -/
theorem window_nodup {r w : Nat} (hr : r < maxMessagesPerQueue) (hw : w < maxMessagesPerQueue) :
    (window maxMessagesPerQueue r w).Nodup := by
  unfold window
  refine List.Nodup.map_on ?_ List.nodup_range
  intro i hi j hj hij
  have hle := span_le hr hw
  exact circ_inj hr (by have := List.mem_range.mp hi; omega)
    (by have := List.mem_range.mp hj; omega) hij

/-- No message is unread twice. -/
theorem unreadSlots_nodup {q : Shmsgq} (h : Ordered q) : (unreadSlots q).Nodup := by
  unfold unreadSlots
  rw [readScan_eq_window h.readIdx_lt h.writeIdx_lt]
  exact (window_nodup h.readIdx_lt h.writeIdx_lt).filter _

/-- The window begins with the read cursor. -/
theorem readScan_cons {q : Shmsgq} (hr : q.readIdx < maxMessagesPerQueue)
    (hw : q.writeIdx < maxMessagesPerQueue) :
    readScan q = q.readIdx ::
      (List.range (span maxMessagesPerQueue q.readIdx q.writeIdx - 1)).map
        (circ maxMessagesPerQueue (circ maxMessagesPerQueue q.readIdx 1)) := by
  have hpos := span_pos (w := q.writeIdx) hr
  rw [readScan_eq_window hr hw, window, ← map_circ_succ hr,
    show span maxMessagesPerQueue q.readIdx q.writeIdx - 1 + 1 =
      span maxMessagesPerQueue q.readIdx q.writeIdx by omega]

/-- The oldest slot in use is the one at the read cursor, or the slot at the
read cursor is free. -/
theorem head_at_cursor {q : Shmsgq} (h : Ordered q) {idx : Nat} {rest : List Nat}
    (hslots : unreadSlots q = idx :: rest) :
    idx = q.readIdx ∨ q.live q.readIdx = false := by
  by_cases hlive : q.live q.readIdx = true
  · unfold unreadSlots at hslots
    rw [readScan_cons h.readIdx_lt h.writeIdx_lt, List.filter_cons, if_pos hlive] at hslots
    exact Or.inl (List.cons.inj hslots).1.symm
  · exact Or.inr (by simpa using hlive)

/-- A message is taken out and the read cursor moves by one slot: the others
stay in the window, if the slot that the cursor leaves is not one of them. -/
theorem unreadSlots_consume {q : Shmsgq} (h : Ordered q) {idx : Nat}
    (hcursor : idx = q.readIdx ∨ q.live q.readIdx = false) :
    unreadSlots (consume q idx) = (unreadSlots q).filter (fun j => decide (j ≠ idx)) := by
  have hr := h.readIdx_lt
  have hw := h.writeIdx_lt
  have hlive : (consume q idx).live = fun j => decide (j ≠ idx) && q.live j := by
    funext j
    exact live_consume q idx j
  have hdrop : (readScan q).filter (consume q idx).live =
      (unreadSlots q).filter (fun j => decide (j ≠ idx)) := by
    rw [hlive, unreadSlots, List.filter_filter]
  rw [← hdrop]
  -- the cell left behind by the read cursor is free by now
  have hfirst : (consume q idx).live q.readIdx = false := by
    rw [live_consume]
    rcases hcursor with rfl | hfree
    · simp
    · simp [hfree]
  have hr' : (consume q idx).readIdx = circ maxMessagesPerQueue q.readIdx 1 := rfl
  have hw' : (consume q idx).writeIdx = q.writeIdx := rfl
  have hlt' : (consume q idx).readIdx < maxMessagesPerQueue := circ_lt cap_pos _ _
  unfold unreadSlots
  rw [readScan_eq_window hlt' (by rw [hw']; exact hw), hr', hw', readScan_eq_window hr hw]
  by_cases hone : span maxMessagesPerQueue q.readIdx q.writeIdx = 1
  · -- the last slot of the window was read: the cursors meet on a free table
    have hall : ∀ j < maxMessagesPerQueue, (consume q idx).live j = false := by
      intro j hj
      obtain ⟨i, hi, rfl⟩ := exists_circ hr hj
      by_contra hne
      rw [Bool.not_eq_false] at hne
      have hlive' := hne
      rw [live_consume, Bool.and_eq_true] at hlive'
      have hi0 : i = 0 := by
        have := h.inWindow i hi hlive'.2
        omega
      subst hi0
      rw [circ_zero hr, hfirst] at hne
      exact absurd hne (by decide)
    have hnil : ∀ r w, (window maxMessagesPerQueue r w).filter (consume q idx).live = [] := by
      intro r w
      rw [List.filter_eq_nil_iff]
      intro j hj
      unfold window at hj
      obtain ⟨i, -, rfl⟩ := List.mem_map.mp hj
      rw [hall _ (circ_lt cap_pos _ _)]
      decide
    rw [hnil, hnil]
  · -- otherwise the window loses its first cell
    have hpos := span_pos (w := q.writeIdx) hr
    obtain ⟨n, hn⟩ : ∃ n, span maxMessagesPerQueue q.readIdx q.writeIdx = n + 1 + 1 :=
      ⟨span maxMessagesPerQueue q.readIdx q.writeIdx - 2, by omega⟩
    have hle := span_le hr hw
    have hspan : span maxMessagesPerQueue (circ maxMessagesPerQueue q.readIdx 1) q.writeIdx =
        n + 1 := by
      have hcirc : circ maxMessagesPerQueue (circ maxMessagesPerQueue q.readIdx 1) (n + 1) =
          q.writeIdx := by
        rw [circ_circ_one, ← hn, circ_span hr hw]
      rw [← hcirc]
      exact span_circ (circ_lt cap_pos _ _) (by omega) (by omega)
    rw [window, window, hn, hspan, map_circ_succ hr (n + 1), List.filter_cons,
      if_neg (by rw [hfirst]; decide)]

/-- The order is kept when the message that comes next is consumed. -/
theorem ordered_consume {q : Shmsgq} (h : Ordered q) {idx : Nat} (hmem : idx ∈ unreadSlots q)
    (hcursor : idx = q.readIdx ∨ q.live q.readIdx = false) : Ordered (consume q idx) := by
  have hrest := unreadSlots_consume h hcursor
  have hsegs : (segs (consume q idx)).Sublist (segs q) := by
    unfold segs
    rw [hrest, List.map_congr_left fun j _ => seg_consume q idx j]
    exact List.Sublist.map _ List.filter_sublist
  have hbound := (h.laid.mem_bounds (q.seg idx) (List.mem_map_of_mem hmem)).2
  refine ⟨h.noOverflow, h.unlocked, circ_lt cap_pos _ _, h.writeIdx_lt, ?_, h.writeOf_le, ?_,
    h.laid.sublist hsegs⟩
  · show (if (q.msg idx).msgOf = q.readOf then q.readOf + (q.msg idx).msgSize else q.readOf) ≤ _
    simp only [Shmsgq.seg] at hbound
    split
    · omega
    · exact h.readOf_le
  · -- every slot in use is one of the remaining unread slots, so it is in the window
    intro j hj hlive
    have hlt := circ_lt cap_pos (consume q idx).readIdx j
    have hlive' := hlive
    rw [live_consume, Bool.and_eq_true, decide_eq_true_eq] at hlive'
    have hin : circ maxMessagesPerQueue (consume q idx).readIdx j ∈
        unreadSlots (consume q idx) := by
      rw [hrest, List.mem_filter]
      exact ⟨(mem_unreadSlots h).mpr ⟨hlt, hlive'.2⟩, by simpa using hlive'.1⟩
    have hscan := (List.mem_filter.mp hin).1
    rw [readScan_eq_window (q := consume q idx) (circ_lt cap_pos _ _) h.writeIdx_lt, window,
      List.mem_map] at hscan
    obtain ⟨i, hi, heq⟩ := hscan
    have hi' := List.mem_range.mp hi
    have hle := span_le (circ_lt cap_pos q.readIdx 1) h.writeIdx_lt
    have hij := circ_inj (circ_lt cap_pos q.readIdx 1) (Nat.lt_of_lt_of_le hi' hle) hj heq
    rw [← hij]
    exact hi'

/-- The slots in use after the oldest one is consumed. -/
theorem unreadSlots_consume_head {q : Shmsgq} (h : Ordered q) {idx : Nat} {rest : List Nat}
    (hslots : unreadSlots q = idx :: rest) : unreadSlots (consume q idx) = rest := by
  have hnd := unreadSlots_nodup h
  rw [hslots, List.nodup_cons] at hnd
  rw [unreadSlots_consume h (head_at_cursor h hslots), hslots, List.filter_cons]
  simp only [ne_eq, not_true_eq_false, decide_false, Bool.false_eq_true, if_false]
  rw [List.filter_eq_self]
  intro j hj
  simp only [decide_eq_true_eq]
  rintro rfl
  exact hnd.1 hj

-- Taking and releasing the lock around a step is invisible between two calls.
/-- The lock that a call takes is given back after the message has been consumed. -/
theorem unlock_consume_lock {q : Shmsgq} (h : q.lockT = 0) (idx : Nat) (expire : UInt64) :
    shmsgUnlock (consume { q with lockT := expire } idx) = consume q idx := by
  simp [shmsgUnlock, consume, h]

/-- A queue that is not locked is locked. -/
theorem shmsgLock_ok {q : Shmsgq} (h : q.lockT = 0) (now expire : UInt64) :
    shmsgLock q now expire = .ok { q with lockT := expire } := by
  simp [shmsgLock, h]

/-- The lock is given back, and the queue is as it was. -/
theorem unlock_lock {q : Shmsgq} (h : q.lockT = 0) (expire : UInt64) :
    shmsgUnlock { q with lockT := expire } = q := by
  cases q
  simp_all [shmsgUnlock]

/-- What a read of an anonymous queue does once it has found a slot. -/
theorem shmsgRead_found {q : Shmsgq} (hlock : q.lockT = 0)
    (hanon : q.flags &&& shmsgfAnonymous ≠ 0) (proc : MsgProc) (now expire : UInt64) {idx : Nat}
    (hfind : shmsgReadMap q none = some idx) :
    shmsgRead q proc now expire = (consume q idx, .ok ((q.msg idx).srcKey, q.content idx)) := by
  have hfind' : shmsgReadMap { q with lockT := expire } none = some idx := hfind
  simp only [shmsgRead, hanon, if_false, shmsgLock_ok hlock, hfind', unlock_consume_lock hlock]
  rfl

/-- A read of an anonymous queue delivers the oldest unread message, if there
is one, and leaves the others. -/
theorem read_step {q : Shmsgq} (h : Inv q) (proc : MsgProc) (now expire : UInt64) :
    (unread q = [] ∧ shmsgRead q proc now expire = (q, .error .nomsg)) ∨
    (∃ q' src content, shmsgRead q proc now expire = (q', .ok (src, content)) ∧
      unread q = content :: unread q' ∧ Inv q') := by
  have hscan : shmsgReadMap q none = (unreadSlots q).head? := shmsgReadMap_eq_head h.toOrdered
  cases hslots : unreadSlots q with
  | nil =>
    have hnone : shmsgReadMap { q with lockT := expire } none = none := by
      rw [hslots, List.head?_nil] at hscan
      exact hscan
    refine Or.inl ⟨by rw [unread, hslots, List.map_nil], ?_⟩
    simp only [shmsgRead, h.anonymous, if_false, shmsgLock_ok h.unlocked, hnone,
      unlock_lock h.unlocked]
  | cons idx rest =>
    rw [hslots, List.head?_cons] at hscan
    have hinv : Inv (consume q idx) :=
      ⟨ordered_consume h.toOrdered (by simp [hslots]) (head_at_cursor h.toOrdered hslots),
        h.anonymous⟩
    refine Or.inr ⟨consume q idx, (q.msg idx).srcKey, q.content idx, ?_, ?_, hinv⟩
    · exact shmsgRead_found h.unlocked h.anonymous proc now expire hscan
    · unfold unread
      rw [hslots, unreadSlots_consume_head h.toOrdered hslots, List.map_cons]
      congr 1
      exact List.map_congr_left fun j _ => (content_consume q idx j).symm

/-! ## Writing -/

/-- The loop of a write begins at the index for writing. -/
theorem writeScan_cons {q : Shmsgq} (hw : q.writeIdx < maxMessagesPerQueue) :
    ∃ rest, writeScan q = q.writeIdx :: rest := by
  unfold writeScan
  split
  · obtain ⟨n, hn⟩ : ∃ n, maxMessagesPerQueue - q.writeIdx = n + 1 :=
      ⟨maxMessagesPerQueue - q.writeIdx - 1, by omega⟩
    rw [hn, List.range'_succ]
    exact ⟨_, rfl⟩
  · obtain ⟨n, hn⟩ : ∃ n, q.readIdx + 1 - q.writeIdx = n + 1 :=
      ⟨q.readIdx - q.writeIdx, by omega⟩
    rw [hn, List.range'_succ]
    exact ⟨_, rfl⟩

/-- When the indices meet, the loop of a write goes through all slots from the index for
reading. -/
theorem writeScan_meet {q : Shmsgq} (hr : q.readIdx < maxMessagesPerQueue)
    (hmeet : q.readIdx = q.writeIdx) :
    writeScan q = (List.range maxMessagesPerQueue).map (circ maxMessagesPerQueue q.readIdx) := by
  unfold writeScan
  rw [if_pos (by omega), ← hmeet, ← window_eq_of_le (Nat.le_refl _) hr, window, span_self hr]

/-- The slot a write takes comes after every slot in use: it is `p` cells
ahead of the read cursor, and the slots in use are among the first `p`. -/
theorem find_slot {q : Shmsgq} (h : Ordered q)
    (hok : q.readIdx = q.writeIdx → ∀ i j, i < j → j < maxMessagesPerQueue →
      q.live (circ maxMessagesPerQueue q.readIdx j) = true →
      q.live (circ maxMessagesPerQueue q.readIdx i) = true) {idx : Nat}
    (hfind : (writeScan q).find? (fun i => (q.msg i).isBlank) = some idx) :
    ∃ p < maxMessagesPerQueue, idx = circ maxMessagesPerQueue q.readIdx p ∧
      q.live idx = false ∧
      (∀ j < maxMessagesPerQueue, q.live (circ maxMessagesPerQueue q.readIdx j) = true → j < p) ∧
      unreadSlots q =
        ((List.range p).map (circ maxMessagesPerQueue q.readIdx)).filter q.live := by
  have hr := h.readIdx_lt
  have hw := h.writeIdx_lt
  have hfree : q.live idx = false := by
    have := List.find?_some hfind
    simpa [Shmsgq.live] using this
  by_cases hmeet : q.readIdx = q.writeIdx
  · -- where the cursors meet, the first free slot has no message behind it
    rw [writeScan_meet hr hmeet] at hfind
    obtain ⟨p, hp, hpeq⟩ := List.mem_map.mp (List.mem_of_find?_eq_some hfind)
    have hp' := List.mem_range.mp hp
    have hbelow : ∀ j < maxMessagesPerQueue,
        q.live (circ maxMessagesPerQueue q.readIdx j) = true → j < p := by
      intro j hj hlive
      by_contra hge
      rcases Nat.lt_or_ge p j with hlt | hle
      · have := hok hmeet p j hlt hj hlive
        rw [hpeq, hfree] at this
        exact absurd this (by decide)
      · have : j = p := by omega
        subst this
        rw [hpeq, hfree] at hlive
        exact absurd hlive (by decide)
    refine ⟨p, hp', hpeq.symm, hfree, hbelow, ?_⟩
    unfold unreadSlots
    rw [readScan_eq_window hr hw, window, ← hmeet, span_self hr,
      show maxMessagesPerQueue = p + (maxMessagesPerQueue - p) by omega, List.range_add,
      List.map_append, List.filter_append,
      show p + (maxMessagesPerQueue - p) = maxMessagesPerQueue by omega]
    -- no slot from there on is in use
    rw [List.append_right_eq_self, List.filter_eq_nil_iff]
    intro x hx
    obtain ⟨y, hy, rfl⟩ := List.mem_map.mp hx
    obtain ⟨k, hk, rfl⟩ := List.mem_map.mp hy
    intro hlive
    have := hbelow _ (by have := List.mem_range.mp hk; omega) hlive
    omega
  · -- apart from each other, the write cursor stands on a free slot
    have hle := span_le hr hw
    have hlt : span maxMessagesPerQueue q.readIdx q.writeIdx < maxMessagesPerQueue := by
      unfold span
      split <;> omega
    have hcirc := circ_span hr hw
    have hblank : (q.msg q.writeIdx).isBlank = true := by
      by_contra hne
      have hlive : q.live (circ maxMessagesPerQueue q.readIdx
          (span maxMessagesPerQueue q.readIdx q.writeIdx)) = true := by
        rw [hcirc]
        simpa [Shmsgq.live] using hne
      have := h.inWindow _ hlt hlive
      omega
    obtain ⟨rest, hscan⟩ := writeScan_cons hw
    simp only [hscan, List.find?_cons, hblank, Option.some.injEq] at hfind
    subst hfind
    refine ⟨_, hlt, hcirc.symm, hfree, h.inWindow, ?_⟩
    unfold unreadSlots
    rw [readScan_eq_window hr hw, window]

/-- The queue after a slot has been filled in and the write cursor moved. -/
def fillSlot (q : Shmsgq) (idx : Nat) (m : Shmsg) : Shmsgq :=
  { q with
    writeIdx := (idx + 1) % maxMessagesPerQueue
    msg := Function.update q.msg idx m }

/-- A slot that has been filled is live unless its message is blank, and no other slot changes.
-/
theorem live_fillSlot (q : Shmsgq) (idx : Nat) (m : Shmsg) (j : Nat) :
    (fillSlot q idx m).live j = if j = idx then !m.isBlank else q.live j := by
  unfold Shmsgq.live fillSlot
  by_cases h : j = idx
  · subst h
    simp
  · simp [h]

section FillSlot

variable {q : Shmsgq} {idx p : Nat} {m : Shmsg}

-- The filled slot is the last cell of the new window.
/-- A slot behind all that are unread is filled: it comes last. -/
theorem unreadSlots_fillSlot (h : Ordered q) (hp : p < maxMessagesPerQueue)
    (hidx : idx = circ maxMessagesPerQueue q.readIdx p)
    (hslots : unreadSlots q =
      ((List.range p).map (circ maxMessagesPerQueue q.readIdx)).filter q.live) :
    unreadSlots (fillSlot q idx m) = unreadSlots q ++ (if m.isBlank then [] else [idx]) := by
  have hr := h.readIdx_lt
  have hw' : (fillSlot q idx m).writeIdx = circ maxMessagesPerQueue q.readIdx (p + 1) := by
    show (idx + 1) % maxMessagesPerQueue = _
    rw [hidx, circ, circ, Nat.mod_add_mod, Nat.add_assoc]
  have hr' : (fillSlot q idx m).readIdx = q.readIdx := rfl
  have hspan : span maxMessagesPerQueue q.readIdx (circ maxMessagesPerQueue q.readIdx (p + 1)) =
      p + 1 := span_circ hr (by omega) (by omega)
  rw [hslots, unreadSlots, readScan_eq_window (q := fillSlot q idx m) hr
    (by rw [hw']; exact circ_lt cap_pos _ _), hw', hr', window, hspan, List.range_succ,
    List.map_append, List.filter_append]
  congr 1
  · apply List.filter_congr
    intro x hx
    obtain ⟨i, hi, rfl⟩ := List.mem_map.mp hx
    have hi' := List.mem_range.mp hi
    rw [live_fillSlot, if_neg]
    intro heq
    have := circ_inj hr (by omega) hp (heq.trans hidx)
    omega
  · simp only [List.map_cons, List.map_nil, ← hidx, List.filter_cons, live_fillSlot, if_true,
      List.filter_nil]
    cases m.isBlank <;> rfl

/-- After a slot has been filled, all live slots are in the window still. -/
theorem inWindow_fillSlot (h : Ordered q) (hp : p < maxMessagesPerQueue)
    (hidx : idx = circ maxMessagesPerQueue q.readIdx p)
    (hbelow : ∀ j < maxMessagesPerQueue,
      q.live (circ maxMessagesPerQueue q.readIdx j) = true → j < p) :
    ∀ j < maxMessagesPerQueue,
      (fillSlot q idx m).live (circ maxMessagesPerQueue q.readIdx j) = true →
      j < span maxMessagesPerQueue q.readIdx (fillSlot q idx m).writeIdx := by
  have hr := h.readIdx_lt
  have hw' : (fillSlot q idx m).writeIdx = circ maxMessagesPerQueue q.readIdx (p + 1) := by
    show (idx + 1) % maxMessagesPerQueue = _
    rw [hidx, circ, circ, Nat.mod_add_mod, Nat.add_assoc]
  rw [hw', span_circ hr (by omega) (by omega)]
  intro j hj hlive
  rw [live_fillSlot] at hlive
  split at hlive
  · next heq =>
    have := circ_inj hr hj hp (heq.trans hidx)
    omega
  · have := hbelow j hj hlive
    omega

end FillSlot

/-- A slot filled in with a blank source key: nothing to read was added. -/
theorem fillSlot_blank {q : Shmsgq} (h : Ordered q) {idx p : Nat} {m : Shmsg}
    (hp : p < maxMessagesPerQueue) (hidx : idx = circ maxMessagesPerQueue q.readIdx p)
    (hfree : q.live idx = false)
    (hbelow : ∀ j < maxMessagesPerQueue,
      q.live (circ maxMessagesPerQueue q.readIdx j) = true → j < p)
    (hslots : unreadSlots q =
      ((List.range p).map (circ maxMessagesPerQueue q.readIdx)).filter q.live)
    (hm : m.isBlank = true) :
    Ordered (fillSlot q idx m) ∧ posted (fillSlot q idx m) = posted q := by
  have hun := unreadSlots_fillSlot (m := m) h hp hidx hslots
  rw [hm, if_pos rfl, List.append_nil] at hun
  -- a slot in use is not the filled one
  have hne : ∀ j ∈ unreadSlots q, j ≠ idx := by
    rintro j hj rfl
    rw [((mem_unreadSlots h).mp hj).2] at hfree
    exact absurd hfree (by decide)
  have hmsg : ∀ j ∈ unreadSlots q, (fillSlot q idx m).msg j = q.msg j := by
    intro j hj
    exact Function.update_of_ne (hne j hj) m q.msg
  have hsegs : segs (fillSlot q idx m) = segs q := by
    unfold segs
    rw [hun]
    refine List.map_congr_left fun j hj => ?_
    simp only [Shmsgq.seg, hmsg j hj]
  refine ⟨⟨h.noOverflow, h.unlocked, h.readIdx_lt, Nat.mod_lt _ cap_pos,
    h.readOf_le, h.writeOf_le, inWindow_fillSlot h hp hidx hbelow, ?_⟩, ?_⟩
  · rw [hsegs]
    exact h.laid
  · unfold posted
    rw [hun]
    refine List.map_congr_left fun j hj => ?_
    simp only [Shmsgq.content, hmsg j hj]
    rfl

/-- The queue after a message of a process has been stored at an offset. -/
def placeMsg (q : Shmsgq) (idx : Nat) (m : Shmsg) (startOf : Nat) (msgBuff : Bytes) : Shmsgq :=
  { fillSlot q idx { m with msgSize := msgBuff.length, msgOf := startOf } with
    writeOf := startOf + msgBuff.length
    data := storeBytes q.data startOf msgBuff }

/-- What lies outside of the bytes that are stored does not change. -/
theorem storeBytes_outside (data : Nat → UInt8) (of : Nat) (buff : Bytes) {i : Nat}
    (h : i < of ∨ of + buff.length ≤ i) : storeBytes data of buff i = data i := by
  unfold storeBytes
  rw [if_neg (by omega)]

/-- The bytes that have been stored are read back. -/
theorem bytes_storeBytes (q : Shmsgq) (of : Nat) (buff : Bytes) :
    ({ q with data := storeBytes q.data of buff } : Shmsgq).bytes of buff.length = buff := by
  unfold Shmsgq.bytes
  apply List.ext_getElem
  · simp
  · intro i h1 h2
    simp only [List.getElem_map, List.getElem_range, storeBytes]
    rw [if_pos (by omega), Nat.add_sub_cancel_left, List.getD_eq_getElem?_getD,
      List.getElem?_eq_getElem h2, Option.getD_some]

/-- Where a message goes, and that it ends inside the byte area. -/
theorem writeRoom_bounds {q : Shmsgq} (h : Ordered q) {size startOf : Nat}
    (hroom : writeRoom q size = some startOf) :
    startOf = (if wraps q size then 0 else q.writeOf) ∧ startOf + size ≤ maxLen := by
  have hr := h.readOf_le
  have hw := h.writeOf_le
  unfold writeRoom at hroom
  by_cases hwr : wraps q size = true
  · simp only [hwr, if_true, Bool.true_eq_false, and_false, if_false, Nat.sub_zero,
      Option.ite_none_left_eq_some, Option.some.injEq] at hroom
    obtain ⟨hfit, rfl⟩ := hroom
    exact ⟨by rw [hwr, if_pos rfl], by omega⟩
  · rw [Bool.not_eq_true] at hwr
    simp only [hwr, Bool.false_eq_true, if_false, and_true, Option.ite_none_left_eq_some,
      Option.some.injEq] at hroom
    obtain ⟨hfit, rfl⟩ := hroom
    refine ⟨by rw [hwr, if_neg (by decide)], ?_⟩
    split at hfit <;> omega

/-- A message is placed in a free slot behind the unread ones: the invariant holds, and the
message comes last. -/
theorem placeMsg_inv {q : Shmsgq} (h : Ordered q) {idx p : Nat} {m : Shmsg} {startOf : Nat}
    {msgBuff : Bytes} (hp : p < maxMessagesPerQueue)
    (hidx : idx = circ maxMessagesPerQueue q.readIdx p) (hfree : q.live idx = false)
    (hbelow : ∀ j < maxMessagesPerQueue,
      q.live (circ maxMessagesPerQueue q.readIdx j) = true → j < p)
    (hslots : unreadSlots q =
      ((List.range p).map (circ maxMessagesPerQueue q.readIdx)).filter q.live)
    (hm : m.isBlank = false) (hne : msgBuff ≠ [])
    (hroom : writeRoom q msgBuff.length = some startOf)
    (hgap : ∀ seg, (segs q).head? = some seg →
      Gap q.writeOf (wraps q msgBuff.length) msgBuff.length seg.1) :
    Ordered (placeMsg q idx m startOf msgBuff) ∧
      posted (placeMsg q idx m startOf msgBuff) = posted q ++ [(m.destKey, msgBuff)] := by
  set m' : Shmsg := { m with msgSize := msgBuff.length, msgOf := startOf } with hm'
  have hblank : m'.isBlank = false := hm
  have hlen : 0 < msgBuff.length := List.length_pos_of_ne_nil hne
  obtain ⟨hstart, hcap⟩ := writeRoom_bounds h hroom
  have hun := unreadSlots_fillSlot (m := m') h hp hidx hslots
  rw [hblank, if_neg (by decide)] at hun
  have hun' : unreadSlots (placeMsg q idx m startOf msgBuff) = unreadSlots q ++ [idx] := hun
  -- the slots of the older messages are other ones, and keep what they hold
  have hidx_ne : ∀ j ∈ unreadSlots q, j ≠ idx := by
    rintro j hj rfl
    rw [((mem_unreadSlots h).mp hj).2] at hfree
    exact absurd hfree (by decide)
  have hmsg : ∀ j ∈ unreadSlots q, (placeMsg q idx m startOf msgBuff).msg j = q.msg j := by
    intro j hj
    exact Function.update_of_ne (hidx_ne j hj) m' q.msg
  have hself : (placeMsg q idx m startOf msgBuff).msg idx = m' := by
    show Function.update q.msg idx m' idx = m'
    rw [Function.update_self]
  have hsegs : segs (placeMsg q idx m startOf msgBuff) =
      segs q ++ [(startOf, msgBuff.length)] := by
    unfold segs
    rw [hun', List.map_append, List.map_cons, List.map_nil]
    congr 1
    · refine List.map_congr_left fun j hj => ?_
      simp only [Shmsgq.seg, hmsg j hj]
    · simp only [Shmsgq.seg, hself, hm']
  obtain ⟨hlaid, hapart⟩ := h.laid.push hstart hlen hcap hgap
  refine ⟨⟨h.noOverflow, h.unlocked, h.readIdx_lt, Nat.mod_lt _ cap_pos,
    h.readOf_le, hcap, inWindow_fillSlot h hp hidx hbelow, ?_⟩, ?_⟩
  · rw [hsegs]
    exact hlaid
  · unfold posted
    rw [hun', List.map_append, List.map_cons, List.map_nil]
    congr 1
    · -- the bytes of the older messages are outside the written range
      refine List.map_congr_left fun j hj => ?_
      have haway := hapart (q.seg j) (List.mem_map_of_mem hj)
      simp only [Shmsgq.content, hmsg j hj, Shmsgq.bytes, Prod.mk.injEq, true_and]
      refine List.map_congr_left fun i hi => ?_
      have hi' := List.mem_range.mp hi
      refine storeBytes_outside q.data startOf msgBuff ?_
      simp only [Apart, Shmsgq.seg] at haway
      omega
    · simp only [Shmsgq.content, hself, hm', List.cons.injEq, Prod.mk.injEq, true_and, and_true]
      exact bytes_storeBytes q startOf msgBuff

/-- The first segment in use belongs to the slot the reader would take. -/
theorem head_segs {q : Shmsgq} (h : Ordered q) {seg : Nat × Nat}
    (hseg : (segs q).head? = some seg) :
    ∃ idx, shmsgReadMap q none = some idx ∧ seg.1 = (q.msg idx).msgOf := by
  rw [shmsgReadMap_eq_head h]
  unfold segs at hseg
  rw [List.head?_map, Option.map_eq_some_iff] at hseg
  obtain ⟨idx, hidx, rfl⟩ := hseg
  exact ⟨idx, hidx, rfl⟩

/-- The slot of a message by `proc`, before its content is placed. -/
def newMsg (proc : MsgProc) (msgQid : Nat) (destKey : Option ShKey) : Shmsg :=
  { srcKey := proc.peerKey, destKey := destKey.getD proc.destPeer, msgQid := msgQid
    msgSize := 0, msgOf := 0 }

/-- What a write does once it has found a free slot. -/
theorem shmsgWrite_found {q : Shmsgq} (hlock : q.lockT = 0) (proc : MsgProc) (now expire : UInt64)
    (msgQid : Nat) {msgBuff : Bytes} (hlen : msgBuff.length < maxLen) (destKey : Option ShKey)
    {idx : Nat} (hfind : (writeScan q).find? (fun i => (q.msg i).isBlank) = some idx) :
    shmsgWrite q proc now expire msgQid msgBuff destKey =
      match writeRoom q msgBuff.length with
      | none =>
        (fillSlot q idx { newMsg proc msgQid destKey with srcKey := ashkeyBlank }, .error .again)
      | some startOf => (placeMsg q idx (newMsg proc msgQid destKey) startOf msgBuff, .ok ()) := by
  have hscan : writeScan { q with lockT := expire } = writeScan q := rfl
  have hmap : shmsgWriteMap { q with lockT := expire } =
      some (takeSlot { q with lockT := expire } idx, idx) := by
    simp only [shmsgWriteMap, hscan, hfind]
  -- `shmsg_write_map_data` reads the byte cursors only
  have hroom : ∀ f, writeRoom { takeSlot { q with lockT := expire } idx with msg := f }
      msgBuff.length = writeRoom q msgBuff.length := fun _ => rfl
  unfold shmsgWrite
  rw [if_neg (Nat.not_le.mpr hlen), shmsgLock_ok hlock]
  simp only [hmap, shmsgWriteMapData]
  rw [hroom]
  cases writeRoom q msgBuff.length with
  | none => simp [shmsgUnlock, takeSlot, fillSlot, newMsg, Shmsg.zero, hlock]
  | some startOf =>
    simp [shmsgUnlock, takeSlot, placeMsg, fillSlot, newMsg, Shmsg.zero, hlock]

/-- A write of a non-empty message that is within the condition appends the
message when it succeeds, and adds nothing when it fails. -/
theorem write_step {q : Shmsgq} (h : Ordered q) (proc : MsgProc) (now expire : UInt64)
    (msgQid : Nat) {msgBuff : Bytes} (hne : msgBuff ≠ []) (destKey : Option ShKey)
    (hok : msgBuff.length < maxLen → WriteOk q msgBuff.length) :
    (∃ q' err, shmsgWrite q proc now expire msgQid msgBuff destKey = (q', .error err) ∧
      q'.flags = q.flags ∧ posted q' = posted q ∧ Ordered q') ∨
    (∃ q', shmsgWrite q proc now expire msgQid msgBuff destKey = (q', .ok ()) ∧
      q'.flags = q.flags ∧ posted q' = posted q ++ [(destKey.getD proc.destPeer, msgBuff)] ∧
      Ordered q') := by
  by_cases hbig : maxLen ≤ msgBuff.length
  · refine Or.inl ⟨q, .inval, ?_, rfl, rfl, h⟩
    simp only [shmsgWrite, if_pos hbig]
  · have hlen := Nat.not_le.mp hbig
    have hw := hok hlen
    cases hfind : (writeScan q).find? (fun i => (q.msg i).isBlank) with
    | none =>
      have hscan : writeScan { q with lockT := expire } = writeScan q := rfl
      refine Or.inl ⟨q, .again, ?_, rfl, rfl, h⟩
      simp only [shmsgWrite, if_neg hbig, shmsgLock_ok h.unlocked, shmsgWriteMap, hscan,
        hfind, h.noOverflow, if_true, unlock_lock h.unlocked]
    | some idx =>
      obtain ⟨p, hp, hidx, hfree, hbelow, hslots⟩ := find_slot h hw.slots hfind
      rw [shmsgWrite_found h.unlocked proc now expire msgQid hlen destKey hfind]
      cases hroom : writeRoom q msgBuff.length with
      | none =>
        have hblank := fillSlot_blank
          (m := { newMsg proc msgQid destKey with srcKey := ashkeyBlank })
          h hp hidx hfree hbelow hslots (by simp [Shmsg.isBlank])
        exact Or.inl ⟨_, _, rfl, rfl, hblank.2, hblank.1⟩
      | some startOf =>
        have hmb : (newMsg proc msgQid destKey).isBlank = false := by
          simpa [newMsg, Shmsg.isBlank] using proc.peerKey_ne
        have hgap : ∀ seg, (segs q).head? = some seg →
            Gap q.writeOf (wraps q msgBuff.length) msgBuff.length seg.1 := by
          intro seg hseg
          obtain ⟨i, hread, hof⟩ := head_segs h hseg
          rw [hof]
          exact hw.bytes (by rw [hroom]; simp) i hread
        obtain ⟨hinv, hun⟩ :=
          placeMsg_inv h hp hidx hfree hbelow hslots hmb hne hroom hgap
        exact Or.inr ⟨_, rfl, rfl, hun, hinv⟩

/-! ## Runs -/

/-- The call writes no empty message. -/
def MsgCall.NonEmpty : MsgCall → Prop
  | .write _ _ _ _ msgBuff _ => msgBuff ≠ []
  | .read _ _ _ => True

/-- The call, made in this state, keeps the order. A write of `maxLen` bytes or
more is refused before it looks at the queue. -/
def CallOk (q : Shmsgq) : MsgCall → Prop
  | .write _ _ _ _ msgBuff _ => msgBuff.length < maxLen → WriteOk q msgBuff.length
  | .read _ _ _ => True

/-- Every call of the run is within the condition in the state it finds. -/
def RunOk : MsgLog → List MsgCall → Prop
  | _, [] => True
  | log, call :: calls => CallOk log.queue call ∧ RunOk (log.step call) calls

/-- What has been accepted is what has been delivered, followed by what a
reader will still be given. -/
def Fifo (log : MsgLog) : Prop := log.accepted = log.delivered ++ unread log.queue

/-- One call, as far as it is a right one, keeps the order of the messages. -/
theorem step_fifo {log : MsgLog} {call : MsgCall} (hinv : Inv log.queue) (hfifo : Fifo log)
    (hne : call.NonEmpty) (hok : CallOk log.queue call) :
    Inv (log.step call).queue ∧ Fifo (log.step call) := by
  cases call with
  | write proc now expire msgQid msgBuff destKey =>
    rcases write_step hinv.toOrdered proc now expire msgQid hne destKey hok with
      ⟨q', err, heq, hflags, hpost, hord⟩ | ⟨q', heq, hflags, hpost, hord⟩
    · have hun : unread q' = unread log.queue := by
        rw [unread_eq_posted, hpost, ← unread_eq_posted]
      simp only [MsgLog.step, heq, Fifo, hun]
      exact ⟨⟨hord, hflags ▸ hinv.anonymous⟩, hfifo⟩
    · have hun : unread q' = unread log.queue ++ [msgBuff] := by
        rw [unread_eq_posted, hpost, List.map_append, ← unread_eq_posted]
        rfl
      simp only [MsgLog.step, heq, Fifo, hun]
      refine ⟨⟨hord, hflags ▸ hinv.anonymous⟩, ?_⟩
      rw [hfifo, List.append_assoc]
  | read proc now expire =>
    rcases read_step hinv proc now expire with ⟨-, heq⟩ | ⟨q', src, content, heq, hun, hinv'⟩
    · simp only [MsgLog.step, heq]
      exact ⟨hinv, hfifo⟩
    · simp only [MsgLog.step, heq, Fifo]
      refine ⟨hinv', ?_⟩
      rw [hfifo, hun, List.append_assoc, List.singleton_append]

/-- All calls of a run keep the order of the messages. -/
theorem run_keeps_fifo (calls : List MsgCall) : ∀ {log : MsgLog}, Inv log.queue → Fifo log →
    (∀ call ∈ calls, call.NonEmpty) → RunOk log calls →
    Inv (log.run calls).queue ∧ Fifo (log.run calls) := by
  induction calls with
  | nil =>
    intro log hinv hfifo _ _
    exact ⟨hinv, hfifo⟩
  | cons call calls ih =>
    rintro log hinv hfifo hne ⟨hok, hrest⟩
    obtain ⟨hinv', hfifo'⟩ := step_fifo hinv hfifo (hne call (by simp)) hok
    exact ih hinv' hfifo' (fun c hc => hne c (by simp [hc])) hrest

/-- The first calls of a right run are a right run. -/
theorem RunOk.take {calls : List MsgCall} : ∀ {log : MsgLog}, RunOk log calls →
    ∀ n, RunOk log (calls.take n) := by
  induction calls with
  | nil => simp [RunOk]
  | cons call calls ih =>
    rintro log ⟨hok, hrest⟩ n
    cases n with
    | zero => trivial
    | succ n => exact ⟨hok, ih hrest n⟩

/-- In every run on a new anonymous, non-overflow queue whose writes are within
the condition, every state reached has delivered a prefix of what it accepted,
and what is missing from it is what the queue still holds, in order. -/
theorem run_fifo {flags : UInt32} (hanon : flags &&& shmsgfAnonymous ≠ 0)
    (hover : flags &&& shmsgfOverflow = 0) (calls : List MsgCall)
    (hne : ∀ call ∈ calls, call.NonEmpty) (hok : RunOk (MsgLog.init flags) calls) (n : Nat) :
    let log := (MsgLog.init flags).run (calls.take n)
    log.delivered <+: log.accepted ∧ log.accepted = log.delivered ++ unread log.queue := by
  have hinit : Inv (MsgLog.init flags).queue := ⟨ordered_init hover, hanon⟩
  have hfifo : Fifo (MsgLog.init flags) := by
    simp [Fifo, MsgLog.init, unread, unreadSlots, Shmsgq.live, shmsgQueueInit, Shmsg.isBlank,
      Shmsg.zero]
  obtain ⟨-, hrun⟩ := run_keeps_fifo (calls.take n) hinit hfifo
    (fun call hcall => hne call (List.mem_of_mem_take hcall)) (hok.take n)
  exact ⟨⟨_, hrun.symm⟩, hrun⟩

/-- A process for concrete runs. -/
def someProc : MsgProc :=
  { peerKey := { ashkeyBlank with crc := 1 }, destPeer := ashkeyBlank, peerKey_ne := by decide }

/-- Any message may be written to a new queue. -/
theorem writeOk_init (flags : UInt32) (size : Nat) : WriteOk (MsgLog.init flags).queue size := by
  refine ⟨fun _ i j _ _ hlive => ?_, fun _ idx hread => ?_⟩
  · simp [MsgLog.init, Shmsgq.live, shmsgQueueInit, Shmsg.isBlank, Shmsg.zero] at hlive
  · have hvalid := List.find?_some hread
    simp [MsgLog.init, shmsgReadValid, shmsgQueueInit, Shmsg.isBlank, Shmsg.zero] at hvalid

/-- A message may be written while the slot cursors are apart, if it leaves the first unread message
as it is. -/
theorem WriteOk.of_unread {q : Shmsgq} {size idx : Nat} (hne : q.readIdx ≠ q.writeIdx)
    (hfirst : shmsgReadMap q none = some idx)
    (hgap : Gap q.writeOf (wraps q size) size (q.msg idx).msgOf) : WriteOk q size := by
  refine ⟨fun heq => absurd heq hne, fun _ i hread => ?_⟩
  rw [hfirst] at hread
  cases hread
  exact hgap

/-- Three messages, two of them written before the first read. -/
def orderedCalls : List MsgCall :=
  [.write someProc 1 2 0 [7] none, .write someProc 1 2 0 [8, 9] none, .read someProc 1 2,
    .write someProc 1 2 0 [10, 11, 12] none, .read someProc 1 2]

/-- The log of the run, whose last message is left in the queue. -/
theorem run_fifo_write_read :
    let log := (MsgLog.init shmsgfAnonymous).run (orderedCalls.take 5)
    log.delivered <+: log.accepted ∧ log.accepted = log.delivered ++ unread log.queue := by
  have hsecond : WriteOk ((MsgLog.init shmsgfAnonymous).run (orderedCalls.take 1)).queue 2 :=
    .of_unread (by decide +kernel) (show shmsgReadMap _ none = some 0 by decide +kernel)
      (by decide +kernel)
  have hthird : WriteOk ((MsgLog.init shmsgfAnonymous).run (orderedCalls.take 3)).queue 3 :=
    .of_unread (by decide +kernel) (show shmsgReadMap _ none = some 1 by decide +kernel)
      (by decide +kernel)
  exact run_fifo (by decide) (by decide) orderedCalls (by simp [orderedCalls, MsgCall.NonEmpty])
    ⟨fun _ => writeOk_init _ _, fun _ => hsecond, trivial, fun _ => hthird, trivial, trivial⟩ 5

/-! ## A run that is not in order

A message that fills the area to its last byte, followed by one of a single
byte: the second wraps and leaves `write_of` equal to `read_of`. The next write
takes the full area for an empty one. -/

/-- A write to a queue with a free slot and with room puts the message there. -/
theorem step_write_next {log : MsgLog} {proc : MsgProc} {now expire : UInt64} {msgQid : Nat}
    {msgBuff : Bytes} {destKey : Option ShKey} {startOf : Nat} (hlock : log.queue.lockT = 0)
    (hlen : msgBuff.length < maxLen) (hidx : log.queue.writeIdx < maxMessagesPerQueue)
    (hfree : (log.queue.msg log.queue.writeIdx).isBlank = true)
    (hroom : writeRoom log.queue msgBuff.length = some startOf) :
    log.step (.write proc now expire msgQid msgBuff destKey) =
      { queue := placeMsg log.queue log.queue.writeIdx (newMsg proc msgQid destKey) startOf msgBuff
        accepted := log.accepted ++ [msgBuff], delivered := log.delivered } := by
  obtain ⟨rest, hscan⟩ := writeScan_cons hidx
  have hfind : (writeScan log.queue).find? (fun i => (log.queue.msg i).isBlank) =
      some log.queue.writeIdx := by
    rw [hscan, List.find?_cons, hfree]
  simp only [MsgLog.step, shmsgWrite_found hlock proc now expire msgQid hlen destKey hfind, hroom]

/-- A readable slot at the read cursor is the one the reader takes. -/
theorem shmsgReadMap_next {q : Shmsgq} (hr : q.readIdx < maxMessagesPerQueue)
    (hw : q.writeIdx < maxMessagesPerQueue) {key : Option ShKey}
    (hvalid : shmsgReadValid (q.msg q.readIdx) key = true) :
    shmsgReadMap q key = some q.readIdx := by
  obtain ⟨n, hn⟩ : ∃ n, span maxMessagesPerQueue q.readIdx q.writeIdx = n + 1 :=
    ⟨_, (Nat.succ_pred_eq_of_pos (span_pos hr)).symm⟩
  rw [shmsgReadMap, readScan_eq_window hr hw, window, hn, map_circ_succ hr, List.find?_cons, hvalid]

/-- A read that finds a message at the index for reading takes it. -/
theorem step_read_next {log : MsgLog} {proc : MsgProc} {now expire : UInt64}
    (hlock : log.queue.lockT = 0) (hanon : log.queue.flags &&& shmsgfAnonymous ≠ 0)
    (hr : log.queue.readIdx < maxMessagesPerQueue) (hw : log.queue.writeIdx < maxMessagesPerQueue)
    (hvalid : shmsgReadValid (log.queue.msg log.queue.readIdx) none = true) :
    log.step (.read proc now expire) =
      { queue := consume log.queue log.queue.readIdx, accepted := log.accepted
        delivered := log.delivered ++ [log.queue.content log.queue.readIdx] } := by
  have hfind := shmsgReadMap_next hr hw hvalid
  simp only [MsgLog.step, shmsgRead_found hlock hanon proc now expire hfind]

section Overwriting

-- The long message is a variable, so that its bytes are never computed.
variable (long : Bytes)

/-- The calls of the run. -/
def overwritingCalls : List MsgCall :=
  [.write someProc 1 2 0 [0] none, .write someProc 1 2 0 long none, .read someProc 1 2,
    .write someProc 1 2 0 [2] none, .write someProc 1 2 0 [3] none, .read someProc 1 2]

-- The queue after each of the first five calls.
def overwriting1 : Shmsgq :=
  placeMsg (shmsgQueueInit shmsgfAnonymous) 0 (newMsg someProc 0 none) 0 [0]
def overwriting2 : Shmsgq := placeMsg overwriting1 1 (newMsg someProc 0 none) 1 long
def overwriting3 : Shmsgq := consume (overwriting2 long) 0
def overwriting4 : Shmsgq := placeMsg (overwriting3 long) 2 (newMsg someProc 0 none) 0 [2]
def overwriting5 : Shmsgq := placeMsg (overwriting4 long) 3 (newMsg someProc 0 none) 1 [3]

variable {long} (hlong : long.length = maxLen - 1)

include hlong

/-- The long message is put at offset 1. -/
theorem writeRoom_overwriting1 : writeRoom overwriting1 long.length = some 1 := by
  rw [hlong]
  decide

/-- The short message that comes next begins at the front again. -/
theorem writeRoom_overwriting3 : writeRoom (overwriting3 long) 1 = some 0 := by
  have hwo : (overwriting3 long).writeOf = maxLen := by
    show 1 + long.length = maxLen
    rw [hlong]
    decide
  have hro : (overwriting3 long).readOf = 1 := rfl
  unfold writeRoom wraps
  rw [hwo, hro]
  decide

omit hlong in
-- The byte cursors meet although the long message is unread.
/-- And the one after it at offset 1, where the long message has not been read. -/
theorem writeRoom_overwriting4 : writeRoom (overwriting4 long) 1 = some 1 := by
  have hwo : (overwriting4 long).writeOf = 1 := rfl
  have hro : (overwriting4 long).readOf = 1 := rfl
  unfold writeRoom wraps
  rw [hwo, hro]
  decide

theorem readValid_overwriting5 : shmsgReadValid ((overwriting5 long).msg 1) none = true := by
  have hsize : ((overwriting5 long).msg 1).msgSize = maxLen - 1 := hlong
  have hblank : ((overwriting5 long).msg 1).isBlank = false := rfl
  unfold shmsgReadValid
  rw [hsize, hblank]
  rfl

/-- All four messages are accepted, and the second one is delivered with another content. -/
theorem overwriting_run :
    ((MsgLog.init shmsgfAnonymous).run (overwritingCalls long)).accepted =
        [[0], long, [2], [3]] ∧
      ((MsgLog.init shmsgfAnonymous).run (overwritingCalls long)).delivered =
        [(overwriting2 long).content 0, (overwriting5 long).content 1] := by
  have hlt : long.length < maxLen := by
    rw [hlong]
    decide
  have hanon : shmsgfAnonymous &&& shmsgfAnonymous ≠ 0 := by decide
  have h1 : (MsgLog.init shmsgfAnonymous).step (.write someProc 1 2 0 [0] none) =
      ⟨overwriting1, [[0]], []⟩ :=
    step_write_next rfl (by decide) (by decide) rfl (by decide)
  have h2 : MsgLog.step ⟨overwriting1, [[0]], []⟩ (.write someProc 1 2 0 long none) =
      ⟨overwriting2 long, [[0], long], []⟩ :=
    step_write_next rfl hlt (Nat.lt_of_sub_eq_succ rfl) rfl (writeRoom_overwriting1 hlong)
  have h3 : MsgLog.step ⟨overwriting2 long, [[0], long], []⟩ (.read someProc 1 2) =
      ⟨overwriting3 long, [[0], long], [(overwriting2 long).content 0]⟩ :=
    step_read_next rfl hanon cap_pos (Nat.lt_of_sub_eq_succ rfl) rfl
  have h4 : MsgLog.step ⟨overwriting3 long, [[0], long], [(overwriting2 long).content 0]⟩
      (.write someProc 1 2 0 [2] none) =
      ⟨overwriting4 long, [[0], long, [2]], [(overwriting2 long).content 0]⟩ :=
    step_write_next rfl (by decide) (Nat.lt_of_sub_eq_succ rfl) rfl (writeRoom_overwriting3 hlong)
  have h5 : MsgLog.step ⟨overwriting4 long, [[0], long, [2]], [(overwriting2 long).content 0]⟩
      (.write someProc 1 2 0 [3] none) =
      ⟨overwriting5 long, [[0], long, [2], [3]], [(overwriting2 long).content 0]⟩ :=
    step_write_next rfl (by decide) (Nat.lt_of_sub_eq_succ rfl) rfl writeRoom_overwriting4
  have h6 : MsgLog.step ⟨overwriting5 long, [[0], long, [2], [3]], [(overwriting2 long).content 0]⟩
      (.read someProc 1 2) =
      ⟨consume (overwriting5 long) 1, [[0], long, [2], [3]],
        [(overwriting2 long).content 0, (overwriting5 long).content 1]⟩ :=
    step_read_next rfl hanon (Nat.lt_of_sub_eq_succ rfl) (Nat.lt_of_sub_eq_succ rfl)
      (readValid_overwriting5 hlong)
  simp only [MsgLog.run, overwritingCalls, List.foldl_cons, List.foldl_nil, h1, h2, h3, h4, h5, h6,
    and_self]

-- The long message now begins with the last byte written.
/-- The first byte of the long message is that of the last one. -/
theorem content_overwriting5 : ((overwriting5 long).content 1)[0]? = some 3 := by
  have hsize : ((overwriting5 long).msg 1).msgSize = maxLen - 1 := hlong
  unfold Shmsgq.content Shmsgq.bytes
  rw [hsize, List.getElem?_map, List.getElem?_range (by decide)]
  rfl

/-- What is delivered is not how the accepted messages begin. -/
theorem overwriting_not_prefix (hhead : long[0]? = some 1) :
    ¬ ((MsgLog.init shmsgfAnonymous).run (overwritingCalls long)).delivered <+:
      ((MsgLog.init shmsgfAnonymous).run (overwritingCalls long)).accepted := by
  obtain ⟨hacc, hdel⟩ := overwriting_run hlong
  rw [hacc, hdel, List.cons_prefix_cons, List.cons_prefix_cons]
  rintro ⟨-, hsecond, -⟩
  have hget := content_overwriting5 hlong
  rw [hsecond, hhead] at hget
  exact absurd hget (by decide)

end Overwriting

/-- The second message delivered is not the second message accepted: its first
byte is the content of the last write. -/
theorem overwriting_not_fifo :
    (∀ call ∈ overwritingCalls (List.replicate (maxLen - 1) 1), call.NonEmpty) ∧
      ¬ ((MsgLog.init shmsgfAnonymous).run
          (overwritingCalls (List.replicate (maxLen - 1) 1))).delivered <+:
        ((MsgLog.init shmsgfAnonymous).run
          (overwritingCalls (List.replicate (maxLen - 1) 1))).accepted := by
  have hhead : (List.replicate (maxLen - 1) (1 : UInt8))[0]? = some 1 := by
    rw [List.getElem?_replicate, if_pos (by decide)]
  refine ⟨?_, overwriting_not_prefix List.length_replicate hhead⟩
  have hne : List.replicate (maxLen - 1) (1 : UInt8) ≠ [] := by
    intro hnil
    rw [hnil] at hhead
    exact absurd hhead (by simp)
  simp [overwritingCalls, MsgCall.NonEmpty, hne]

end LibShare.Sys
