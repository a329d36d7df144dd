import LibShare.Sys.MsgFifo

/-!
# libshare — message queues shared by several peers

A queue that is not anonymous gives every reader only the messages addressed
to it. A reader may therefore take a message from the middle of its window, but
`shmsg_read` moves the shared cursor `read_idx` by one slot all the same. If
the slot the cursor leaves holds a message for somebody else, that message
falls out of the window and nobody can read it.

`PeerCallOk` excludes this, and the two ways in which a write goes wrong
(`WriteOk`). In every run of such calls each peer has been given the messages
addressed to it, in the order written, up to those it can still read
(`run_peers`).
-/

namespace LibShare.Sys

open Circular

/-! ## Runs of several peers -/

/-- A queue with the messages accepted so far, by destination, and the contents
delivered so far, by reader. -/
structure PeerLog where
  queue : Shmsgq
  accepted : List (ShKey × Bytes)
  delivered : List (ShKey × Bytes)

/-- One call. -/
def PeerLog.step (log : PeerLog) : MsgCall → PeerLog
  | .write proc now expire msgQid msgBuff destKey =>
    match shmsgWrite log.queue proc now expire msgQid msgBuff destKey with
    | (q, .ok _) =>
      { log with
        queue := q
        accepted := log.accepted ++ [(destKey.getD proc.destPeer, msgBuff)] }
    | (q, .error _) => { log with queue := q }
  | .read proc now expire =>
    match shmsgRead log.queue proc now expire with
    | (q, .ok (_, content)) =>
      { log with queue := q, delivered := log.delivered ++ [(proc.peerKey, content)] }
    | (q, .error _) => { log with queue := q }

/-- A new queue. -/
def PeerLog.init (flags : UInt32) : PeerLog :=
  { queue := shmsgQueueInit flags, accepted := [], delivered := [] }

/-- The queue after a run. -/
def PeerLog.run (log : PeerLog) (calls : List MsgCall) : PeerLog := calls.foldl PeerLog.step log

/-- The contents that a list of keyed messages has for one peer. -/
def contentsFor (peer : ShKey) (msgs : List (ShKey × Bytes)) : List Bytes :=
  (msgs.filter fun m => peer == m.1).map Prod.snd

/-- The messages that a peer can read, in the order of the scan. -/
def readable (q : Shmsgq) (peer : ShKey) : List Bytes :=
  ((readScan q).filter fun idx => shmsgReadValid (q.msg idx) (some peer)).map q.content

/-! ## What a peer can read -/

/-- What is for a peer, in two parts. -/
theorem contentsFor_append (peer : ShKey) (l l' : List (ShKey × Bytes)) :
    contentsFor peer (l ++ l') = contentsFor peer l ++ contentsFor peer l' := by
  simp [contentsFor]

/-- The unread slots that hold messages for a peer. -/
def addressed (q : Shmsgq) (peer : ShKey) : List Nat :=
  (unreadSlots q).filter fun idx => peer == (q.msg idx).destKey

/-- A message can be read by a peer just when it is live and addressed to it. -/
theorem readValid_peer {q : Shmsgq} (h : Ordered q) {idx : Nat} (hidx : idx < maxMessagesPerQueue)
    (peer : ShKey) :
    shmsgReadValid (q.msg idx) (some peer) = (q.live idx && (peer == (q.msg idx).destKey)) := by
  rw [← readValid_eq_live h hidx]
  unfold shmsgReadValid
  split
  · rfl
  · split
    · rfl
    · simp

-- Messages in use are never empty, so the reader skips none of its own.
/-- The slots that a peer can read are those addressed to it. -/
theorem filter_readValid {q : Shmsgq} (h : Ordered q) (peer : ShKey) :
    (readScan q).filter (fun idx => shmsgReadValid (q.msg idx) (some peer)) =
      addressed q peer := by
  unfold addressed unreadSlots
  rw [List.filter_filter]
  apply List.filter_congr
  intro idx hmem
  rw [readScan_eq_window h.readIdx_lt h.writeIdx_lt, window, List.mem_map] at hmem
  obtain ⟨i, -, rfl⟩ := hmem
  rw [readValid_peer h (circ_lt cap_pos _ _), Bool.and_comm]

/-- What a peer can read, by slots. -/
theorem readable_eq_addressed {q : Shmsgq} (h : Ordered q) (peer : ShKey) :
    readable q peer = (addressed q peer).map q.content := by
  rw [readable, filter_readValid h]

/-- What a peer can read, by what has been posted. -/
theorem readable_eq_posted {q : Shmsgq} (h : Ordered q) (peer : ShKey) :
    readable q peer = contentsFor peer (posted q) := by
  rw [readable_eq_addressed h, addressed, contentsFor, posted, List.filter_map, List.map_map]
  rfl

/-- A peer reads the first slot that is addressed to it. -/
theorem shmsgReadMap_peer {q : Shmsgq} (h : Ordered q) (peer : ShKey) :
    shmsgReadMap q (some peer) = (addressed q peer).head? := by
  rw [← filter_readValid h, List.head?_filter]
  rfl

/-! ## Reading -/

/-- What a read of a queue that is not anonymous does once it has found a slot. -/
theorem shmsgRead_peer {q : Shmsgq} (hlock : q.lockT = 0) (hflags : q.flags &&& shmsgfAnonymous = 0)
    (proc : MsgProc) (now expire : UInt64) :
    shmsgRead q proc now expire =
      match shmsgReadMap q (some proc.peerKey) with
      | none => (q, .error .nomsg)
      | some idx => (consume q idx, .ok ((q.msg idx).srcKey, q.content idx)) := by
  have hmap : shmsgReadMap { q with lockT := expire } (some proc.peerKey) =
      shmsgReadMap q (some proc.peerKey) := rfl
  simp only [shmsgRead, hflags, if_true, shmsgLock_ok hlock, hmap]
  cases shmsgReadMap q (some proc.peerKey) with
  | none => simp only [unlock_lock hlock]
  | some idx =>
    simp only [unlock_consume_lock hlock]
    rfl

theorem destKey_consume (q : Shmsgq) (idx j : Nat) :
    ((consume q idx).msg j).destKey = (q.msg j).destKey := by
  unfold consume
  by_cases h : j = idx
  · subst h
    simp
  · simp [h]

/-- A message that is consumed is no longer addressed. -/
theorem addressed_consume {q : Shmsgq} (h : Ordered q) {idx : Nat}
    (hcursor : idx = q.readIdx ∨ q.live q.readIdx = false) (peer : ShKey) :
    addressed (consume q idx) peer = (addressed q peer).filter (fun j => decide (j ≠ idx)) := by
  simp only [addressed, unreadSlots_consume h hcursor, destKey_consume, List.filter_filter,
    Bool.and_comm]

/-- The reader is given its oldest message; the other peers lose nothing. -/
theorem readable_consume {q : Shmsgq} (h : Ordered q) {idx : Nat} {peer : ShKey} {rest : List Nat}
    (hslots : addressed q peer = idx :: rest)
    (hcursor : idx = q.readIdx ∨ q.live q.readIdx = false)
    (hord : Ordered (consume q idx)) (other : ShKey) :
    readable q other = (if other = peer then [q.content idx] else []) ++
      readable (consume q idx) other := by
  have hmem : idx ∈ addressed q peer := by simp [hslots]
  have hcontent : ∀ l : List Nat, l.map (consume q idx).content = l.map q.content :=
    fun l => List.map_congr_left fun j _ => content_consume q idx j
  rw [readable_eq_addressed h, readable_eq_addressed hord, addressed_consume h hcursor, hcontent]
  by_cases hpeer : other = peer
  · subst hpeer
    have hnd : (addressed q other).Nodup := (unreadSlots_nodup h).filter _
    rw [hslots, List.nodup_cons] at hnd
    have hrest : rest.filter (fun j => decide (j ≠ idx)) = rest := by
      rw [List.filter_eq_self]
      intro j hj
      simp only [decide_eq_true_eq]
      rintro rfl
      exact hnd.1 hj
    rw [hslots, if_pos rfl, List.filter_cons, if_neg (by simp), hrest]
    rfl
  · -- the slot is addressed to somebody else
    have hkeep : (addressed q other).filter (fun j => decide (j ≠ idx)) = addressed q other := by
      rw [List.filter_eq_self]
      intro j hj
      simp only [decide_eq_true_eq]
      rintro rfl
      have h1 := (List.mem_filter.mp hj).2
      have h2 := (List.mem_filter.mp hmem).2
      rw [beq_iff_eq] at h1 h2
      exact hpeer (h1.trans h2.symm)
    rw [if_neg hpeer, hkeep, List.nil_append]

/-! ## Runs -/

/-- The call, made in this state, loses no message: a write keeps the order, and
a read takes the message at the read cursor unless the slot there is free. -/
def PeerCallOk (q : Shmsgq) : MsgCall → Prop
  | .write _ _ _ _ msgBuff _ => msgBuff.length < maxLen → WriteOk q msgBuff.length
  | .read proc _ _ => ∀ idx, shmsgReadMap q (some proc.peerKey) = some idx →
      idx = q.readIdx ∨ (q.msg q.readIdx).isBlank = true

/-- Every call of the run is within the condition in the state it finds. -/
def PeerRunOk : PeerLog → List MsgCall → Prop
  | _, [] => True
  | log, call :: calls => PeerCallOk log.queue call ∧ PeerRunOk (log.step call) calls

/-- The state of a queue that is not anonymous, in a run within the condition. -/
structure PeerInv (log : PeerLog) : Prop where
  ordered : Ordered log.queue
  named : log.queue.flags &&& shmsgfAnonymous = 0
  /-- what was accepted for a peer has been delivered to it or is readable -/
  kept : ∀ peer, contentsFor peer log.accepted =
    contentsFor peer log.delivered ++ readable log.queue peer

/-- A new queue keeps its invariant. -/
theorem peerInv_init {flags : UInt32} (hnamed : flags &&& shmsgfAnonymous = 0)
    (hover : flags &&& shmsgfOverflow = 0) : PeerInv (PeerLog.init flags) where
  ordered := ordered_init hover
  named := hnamed
  kept := by
    intro peer
    simp [PeerLog.init, contentsFor, readable, shmsgReadValid, shmsgQueueInit, Shmsg.isBlank,
      Shmsg.zero]

/-- A write keeps the invariant. -/
theorem write_peerInv {log : PeerLog} (h : PeerInv log) (proc : MsgProc) (now expire : UInt64)
    (msgQid : Nat) {msgBuff : Bytes} (hne : msgBuff ≠ []) (destKey : Option ShKey)
    (hok : msgBuff.length < maxLen → WriteOk log.queue msgBuff.length) :
    PeerInv (log.step (.write proc now expire msgQid msgBuff destKey)) := by
  rcases write_step h.ordered proc now expire msgQid hne destKey hok with
    ⟨q', err, heq, hflags, hpost, hord⟩ | ⟨q', heq, hflags, hpost, hord⟩
  · simp only [PeerLog.step, heq]
    refine ⟨hord, hflags ▸ h.named, fun peer => ?_⟩
    rw [readable_eq_posted hord, hpost, ← readable_eq_posted h.ordered]
    exact h.kept peer
  · simp only [PeerLog.step, heq]
    refine ⟨hord, hflags ▸ h.named, fun peer => ?_⟩
    simp only [contentsFor_append]
    rw [readable_eq_posted hord, hpost, contentsFor_append, ← readable_eq_posted h.ordered,
      h.kept peer, List.append_assoc]

/-- A read keeps the invariant. -/
theorem read_peerInv {log : PeerLog} (h : PeerInv log) (proc : MsgProc) (now expire : UInt64)
    (hok : PeerCallOk log.queue (.read proc now expire)) :
    PeerInv (log.step (.read proc now expire)) := by
  have hread := shmsgRead_peer h.ordered.unlocked h.named proc now expire
  have hhead := shmsgReadMap_peer h.ordered proc.peerKey
  cases hslots : addressed log.queue proc.peerKey with
  | nil =>
    rw [hslots, List.head?_nil] at hhead
    rw [hhead] at hread
    simp only [PeerLog.step, hread]
    exact h
  | cons idx rest =>
    rw [hslots, List.head?_cons] at hhead
    rw [hhead] at hread
    have hcursor : idx = log.queue.readIdx ∨ log.queue.live log.queue.readIdx = false := by
      rcases hok idx hhead with heq | hblank
      · exact Or.inl heq
      · exact Or.inr (by simp [Shmsgq.live, hblank])
    have hmem : idx ∈ unreadSlots log.queue := by
      have : idx ∈ addressed log.queue proc.peerKey := by simp [hslots]
      exact (List.mem_filter.mp this).1
    have hord := ordered_consume h.ordered hmem hcursor
    simp only [PeerLog.step, hread]
    refine ⟨hord, h.named, fun peer => ?_⟩
    simp only [contentsFor_append]
    rw [h.kept peer, readable_consume h.ordered hslots hcursor hord peer, List.append_assoc]
    congr 2
    by_cases hpeer : peer = proc.peerKey
    · simp [contentsFor, hpeer]
    · simp [contentsFor, hpeer]

/-- One call keeps the invariant. -/
theorem step_peerInv {log : PeerLog} {call : MsgCall} (h : PeerInv log) (hne : call.NonEmpty)
    (hok : PeerCallOk log.queue call) : PeerInv (log.step call) := by
  cases call with
  | write proc now expire msgQid msgBuff destKey =>
    exact write_peerInv h proc now expire msgQid hne destKey hok
  | read proc now expire => exact read_peerInv h proc now expire hok

/-- A run keeps the invariant, by induction on the calls. -/
theorem run_keeps_peerInv (calls : List MsgCall) : ∀ {log : PeerLog}, PeerInv log →
    (∀ call ∈ calls, call.NonEmpty) → PeerRunOk log calls → PeerInv (log.run calls) := by
  induction calls with
  | nil => exact fun h _ _ => h
  | cons call calls ih =>
    rintro log h hne ⟨hok, hrest⟩
    exact ih (step_peerInv h (hne call (by simp)) hok) (fun c hc => hne c (by simp [hc])) hrest

/-- The first calls of a right run are a right run. -/
theorem PeerRunOk.take {calls : List MsgCall} : ∀ {log : PeerLog}, PeerRunOk log calls →
    ∀ n, PeerRunOk log (calls.take n) := by
  induction calls with
  | nil => simp [PeerRunOk]
  | cons call calls ih =>
    rintro log ⟨hok, hrest⟩ n
    cases n with
    | zero => trivial
    | succ n => exact ⟨hok, ih hrest n⟩

/-- In every run on a new queue, neither anonymous nor overflowing, whose calls
are within the condition, in every state reached and for every peer: what was
accepted for the peer is what it has been given, in order, followed by what it
can still read. -/
theorem run_peers {flags : UInt32} (hnamed : flags &&& shmsgfAnonymous = 0)
    (hover : flags &&& shmsgfOverflow = 0) (calls : List MsgCall)
    (hne : ∀ call ∈ calls, call.NonEmpty) (hok : PeerRunOk (PeerLog.init flags) calls)
    (n : Nat) (peer : ShKey) :
    let log := (PeerLog.init flags).run (calls.take n)
    contentsFor peer log.accepted =
      contentsFor peer log.delivered ++ readable log.queue peer :=
  (run_keeps_peerInv (calls.take n) (peerInv_init hnamed hover)
    (fun call hcall => hne call (List.mem_of_mem_take hcall)) (hok.take n)).kept peer

-- Two further processes for concrete runs.
def peerA : MsgProc :=
  { peerKey := { ashkeyBlank with crc := 2 }, destPeer := ashkeyBlank, peerKey_ne := by decide }
def peerB : MsgProc :=
  { peerKey := { ashkeyBlank with crc := 3 }, destPeer := ashkeyBlank, peerKey_ne := by decide }

/-- A peer may be given the message at the read cursor. -/
theorem PeerCallOk.at_cursor {q : Shmsgq} {proc : MsgProc} {now expire : UInt64}
    (hread : shmsgReadMap q (some proc.peerKey) = some q.readIdx) :
    PeerCallOk q (.read proc now expire) := by
  intro idx hidx
  rw [hread] at hidx
  cases hidx
  exact .inl rfl

/-- Two messages for one peer, with one for another in between. Both read in turn. -/
def fairCalls : List MsgCall :=
  [.write someProc 1 2 0 [7] (some peerA.peerKey),
    .write someProc 1 2 0 [8, 9] (some peerB.peerKey), .read peerA 1 2,
      .write someProc 1 2 0 [10] (some peerA.peerKey), .read peerB 1 2]

/-- The second message for the first peer is still to be read. -/
theorem run_peers_two :
    let log := (PeerLog.init 0).run (fairCalls.take 5)
    (contentsFor peerA.peerKey log.accepted =
      contentsFor peerA.peerKey log.delivered ++ readable log.queue peerA.peerKey) ∧
    contentsFor peerB.peerKey log.accepted =
      contentsFor peerB.peerKey log.delivered ++ readable log.queue peerB.peerKey := by
  have hsecond : WriteOk ((PeerLog.init 0).run (fairCalls.take 1)).queue 2 :=
    .of_unread (by decide +kernel) (show shmsgReadMap _ none = some 0 by decide +kernel)
      (by decide +kernel)
  have hgiven : PeerCallOk ((PeerLog.init 0).run (fairCalls.take 2)).queue (.read peerA 1 2) :=
    .at_cursor (by decide +kernel)
  have hthird : WriteOk ((PeerLog.init 0).run (fairCalls.take 3)).queue 1 :=
    .of_unread (by decide +kernel) (show shmsgReadMap _ none = some 1 by decide +kernel)
      (by decide +kernel)
  have hlast : PeerCallOk ((PeerLog.init 0).run (fairCalls.take 4)).queue (.read peerB 1 2) :=
    .at_cursor (by decide +kernel)
  have hok : PeerRunOk (PeerLog.init 0) fairCalls :=
    ⟨fun _ => writeOk_init _ _, fun _ => hsecond, hgiven, fun _ => hthird, hlast, trivial⟩
  have hne : ∀ call ∈ fairCalls, call.NonEmpty := by simp [fairCalls, MsgCall.NonEmpty]
  exact ⟨run_peers (by decide) (by decide) fairCalls hne hok 5 peerA.peerKey,
    run_peers (by decide) (by decide) fairCalls hne hok 5 peerB.peerKey⟩

/-! ## A run that loses a message -/

/-- A message for one peer, a message for another one, and a read by the
latter. -/
def skippingCalls : List MsgCall :=
  [.write someProc 1 2 0 [1] (some peerB.peerKey), .write someProc 1 2 0 [2] (some peerA.peerKey),
    .read peerA 1 2]

/-- The first message has been accepted and not delivered, and its addressee
cannot read it. -/
theorem skipped_message_lost :
    (∀ call ∈ skippingCalls, call.NonEmpty) ∧
      contentsFor peerB.peerKey ((PeerLog.init 0).run skippingCalls).accepted = [[1]] ∧
      contentsFor peerB.peerKey ((PeerLog.init 0).run skippingCalls).delivered = [] ∧
      readable ((PeerLog.init 0).run skippingCalls).queue peerB.peerKey = [] ∧
      (shmsgRead ((PeerLog.init 0).run skippingCalls).queue peerB 1 2).2 = .error .nomsg := by
  refine ⟨by simp [skippingCalls, MsgCall.NonEmpty], ?_, ?_, ?_, ?_⟩
  · decide +kernel
  · decide +kernel
  · decide +kernel
  · rfl

end LibShare.Sys
