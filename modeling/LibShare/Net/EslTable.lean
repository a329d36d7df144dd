import LibShare.Net.EslSocket

/-!
# libshare — the socket table

`_sk_table` is indexed by descriptor, and the kernel gives the number of a
closed descriptor to the next connection. A connection is on its own when its
entry is at all times what it would be had no other connection ever used the
number: the entry of a fresh table, opened the same way and taken through the
connection's own events (`Alone`). Then what it hands to the application was
received on it, and its key and its flags are its own.

`shnet_close` resets every field of an entry that `esl_accept` and `esl_connect`
do not set, except `proc_buff`: what `esl_read` has decoded and not handed over
is still there when the number is used again. And `esl_read_data` hands over as
many bytes as a packet says it has, which may be more than the memory that it is
decoded into (`ReadsInside`). `run_alone` is the result for runs in which no
number is used again before everything is handed over, and no packet is decoded
that says so.
-/

namespace LibShare.Net

open LibShare.Mem

/-! ## The table -/

/-- `_sk_table`, with a record of the last connection on each descriptor: how
it began and what has happened on it. -/
structure EslTable where
  sock : Nat → EslSock
  conn : Nat → Option (EslOpen × List SockEvent)

/-- The table of a new process. -/
def EslTable.init : EslTable := { sock := fun _ => EslSock.zero, conn := fun _ => none }

/-- What a process does. -/
inductive TableEvent
  /-- `esl_accept` or `esl_connect` returns this descriptor -/
  | opened (fd : Nat) (o : EslOpen)
  | on (fd : Nat) (ev : SockEvent)

/-- One event. The kernel does not give a descriptor that is open, or one of a
process that is at fault. -/
def EslTable.step (t : EslTable) : TableEvent → EslTable
  | .opened fd o =>
    if (t.sock fd).live ∨ (t.sock fd).fault then t
    else
      { sock := Function.update t.sock fd ((t.sock fd).opened o)
        conn := Function.update t.conn fd (some (o, [])) }
  | .on fd ev =>
    { sock := Function.update t.sock fd ((t.sock fd).step ev)
      conn := Function.update t.conn fd ((t.conn fd).map fun c => (c.1, c.2 ++ [ev])) }

/-- The table after a list of events. -/
def EslTable.run (t : EslTable) (events : List TableEvent) : EslTable :=
  events.foldl EslTable.step t

/-- A connection by itself, on a descriptor that has not been used. -/
def soleSock (o : EslOpen) (events : List SockEvent) : EslSock :=
  (EslSock.zero.opened o).run events

/-- Every connection has handed over what it would have by itself, from its own
memory, and has the key and the `SHNET_CRYPT` flag it would have by itself. -/
def EslTable.Alone (t : EslTable) : Prop :=
  ∀ fd o events, t.conn fd = some (o, events) →
    (t.sock fd).fault = false ∧
      (t.sock fd).given = (soleSock o events).given ∧
      (t.sock fd).key = (soleSock o events).key ∧
      (t.sock fd).crypt = (soleSock o events).crypt

/-! ## Closed entries -/

/-- What is left of a connection after `shnet_close`. -/
structure EslSock.Closed (s : EslSock) : Prop where
  crypt : s.crypt = false
  recvBuff : s.recvBuff = []
  sendBuff : s.sendBuff = []
  call : s.call = none

/-- The entry is in use or has been reset. -/
def EslSock.Tidy (s : EslSock) : Prop := s.live = false → s.Closed

/-- A socket that is closed has no session and no buffers. -/
theorem closed_shnetClose (s : EslSock) : s.shnetClose.Closed := ⟨rfl, rfl, rfl, rfl⟩

/-- An open socket is tidy. -/
theorem tidy_of_live {s : EslSock} (h : s.live = true) : s.Tidy :=
  fun hdead => absurd (h.symm.trans hdead) (by decide)

/-- A write closes nothing. -/
theorem live_writeNow (s : EslSock) (u : Unset) (data : Bytes) :
    (s.writeNow u data).live = s.live := by
  unfold EslSock.writeNow
  split <;> rfl

/-- A call that begins leaves the socket tidy. -/
theorem tidy_begin {s : EslSock} (h : s.Tidy) (use : EslUse) : (s.begin use).Tidy := by
  unfold EslSock.begin
  intro hdead
  have hlive : s.live = false := by
    revert hdead
    split <;> exact id
  obtain ⟨hc, hr, hs, -⟩ := h hlive
  split
  · exact ⟨hc, hr, hs, by simp [hlive]⟩
  · exact ⟨hc, hr, hs, by simp [hlive]⟩
  · exact ⟨hc, hr, hs, by simp [hlive]⟩

/-- A call that ends closes nothing. -/
theorem live_finish (s : EslSock) (use : EslUse) : (s.finish use).live = s.live := by
  unfold EslSock.finish
  split
  · rfl
  · rfl
  · rfl
  · rw [live_writeNow]

/-- What is delivered closes nothing. -/
theorem live_append (s : EslSock) (use : EslUse) (data : Bytes) :
    (s.append use data).live = s.live := by
  unfold EslSock.append
  split <;> rfl

/-- A pass closes the socket or leaves it open. -/
theorem pass_live {s : EslSock} (h : s.live = true) (use : EslUse) :
    (s.pass use).live = true ∨ (s.pass use).Closed := by
  unfold EslSock.pass
  split
  · exact Or.inl ((live_finish s use).trans h)
  split
  · exact Or.inr (closed_shnetClose s)
  split
  · split
    · exact Or.inr ⟨rfl, rfl, rfl, rfl⟩
    · exact Or.inl ((live_append _ use _).trans h)
    · exact Or.inl h
    · exact Or.inr (closed_shnetClose _)
  split
  · exact Or.inl h
  · exact Or.inl h
  · exact Or.inr (closed_shnetClose s)

/-- Every event leaves the socket tidy. -/
theorem tidy_step {s : EslSock} (h : s.Tidy) (ev : SockEvent) : (s.step ev).Tidy := by
  unfold EslSock.step
  split
  · exact tidy_begin h _
  · exact tidy_begin h _
  · split
    · next hcrypt =>
      refine tidy_of_live ((live_writeNow s _ _).trans ?_)
      -- an entry with a session is open
      cases hlive : s.live with
      | true => rfl
      | false => exact absurd ((h hlive).crypt.symm.trans hcrypt) (by decide)
    · exact tidy_begin h _
  · split
    · exact h
    · exact tidy_begin h _
  · exact fun _ => closed_shnetClose s
  · next use bytes hcall =>
    have hlive : s.live = true := by
      cases hlive : s.live with
      | true => rfl
      | false => exact absurd ((h hlive).call.symm.trans hcall) (by simp)
    rcases pass_live (s := { s with recvBuff := s.recvBuff ++ bytes }) hlive use with hl | hc
    · exact tidy_of_live hl
    · exact fun _ => hc
  · intro hdead
    obtain ⟨hc, hr, hs, hcall⟩ := h hdead
    exact ⟨hc, hr, by simp [hs], hcall⟩
  · exact h

/-! ## Lengths beyond their blocks -/

/-- The segment of the data packet at the front of a receive buffer, if the
buffer holds a whole one. -/
def segmentAt (rbuff : Bytes) : Option Bytes :=
  if rbuff.length < 8 then none
  else if u16At rbuff 0 ≠ shmem16Magic then none
  else if htons (u16At rbuff 2) ≠ eslData then none
  else
    let size := (htons (u16At rbuff 6)).toNat
    if rbuff.length < size + 8 ∨ size = 0 then none else some ((rbuff.drop 8).take size)

/-- The event does not make the socket decode a segment whose length is beyond
the block that it is decoded into. -/
def ReadsInside (s : EslSock) : SockEvent → Prop
  | .recv bytes => s.call.isSome = true →
      (segmentAt (s.recvBuff ++ bytes)).all fun segment => (shdecode segment s.key).isSome
  | _ => True

theorem fault_writeNow (s : EslSock) (u : Unset) (data : Bytes) :
    (s.writeNow u data).fault = s.fault := by
  unfold EslSock.writeNow
  split <;> rfl

theorem fault_begin (s : EslSock) (use : EslUse) : (s.begin use).fault = s.fault := by
  unfold EslSock.begin
  split <;> rfl

theorem fault_finish (s : EslSock) (use : EslUse) : (s.finish use).fault = s.fault := by
  unfold EslSock.finish
  split
  · rfl
  · rfl
  · rfl
  · rw [fault_writeNow]

theorem fault_append (s : EslSock) (use : EslUse) (data : Bytes) :
    (s.append use data).fault = s.fault := by
  unfold EslSock.append
  split <;> rfl

/-- `esl_read_data` has a result where the segment has one. -/
theorem readData_isSome {key : ShKey} {rbuff : Bytes} (hmagic : u16At rbuff 0 = shmem16Magic)
    (hmode : htons (u16At rbuff 2) = eslData)
    (hseg : (segmentAt rbuff).all fun segment => (shdecode segment key).isSome) :
    (eslReadData key rbuff).isSome = true := by
  unfold segmentAt at hseg
  rw [if_neg (not_not.mpr hmagic), if_neg (not_not.mpr hmode)] at hseg
  unfold eslReadData
  by_cases hhead : rbuff.length < 8
  · rw [if_pos hhead]
    rfl
  rw [if_neg hhead] at hseg ⊢
  dsimp only at hseg ⊢
  generalize (htons (u16At rbuff 6)).toNat = size at hseg ⊢
  by_cases hlen : rbuff.length < size + 8
  · rw [if_pos hlen]
    rfl
  by_cases hsize : size = 0
  · rw [if_neg hlen, if_pos hsize]
    rfl
  · rw [if_neg hlen, if_neg hsize, Option.isSome_map]
    rwa [if_neg (not_or.mpr ⟨hlen, hsize⟩)] at hseg

/-- A pass reads behind no block, if the packet has as much as it says. -/
theorem fault_pass {s : EslSock} (use : EslUse)
    (hseg : (segmentAt s.recvBuff).all fun segment => (shdecode segment s.key).isSome) :
    (s.pass use).fault = s.fault := by
  unfold EslSock.pass
  split
  · exact fault_finish s use
  split
  · rfl
  next hmagic =>
  split
  · next hmode =>
    have hsome := readData_isSome (not_not.mp hmagic) hmode hseg
    split
    · next hnone =>
      rw [hnone] at hsome
      cases hsome
    · exact fault_append _ use _
    · rfl
    · rfl
  split
  · rfl
  · rfl
  · rfl

/-- An event within the condition has a result. -/
theorem fault_step {s : EslSock} {ev : SockEvent} (h : ReadsInside s ev) :
    (s.step ev).fault = s.fault := by
  unfold EslSock.step
  split
  · exact fault_begin s _
  · exact fault_begin s _
  · split
    · exact fault_writeNow s _ _
    · exact fault_begin s _
  · split
    · rfl
    · exact fault_begin s _
  · rfl
  · next use bytes hcall =>
    exact fault_pass (s := { s with recvBuff := s.recvBuff ++ bytes }) use (h (by rw [hcall]; rfl))
  · rfl
  · rfl

/-! ## Reuse -/

/-- The event does not put a new connection over payload that has not been
handed over, and does not read behind a block. -/
def ReuseOk (t : EslTable) : TableEvent → Prop
  | .opened fd _ => (t.sock fd).live = false → (t.sock fd).procBuff = []
  | .on fd ev => ReadsInside (t.sock fd) ev

/-- Every event of the run is within the condition in the state it finds. -/
def ReuseRunOk : EslTable → List TableEvent → Prop
  | _, [] => True
  | t, ev :: events => ReuseOk t ev ∧ ReuseRunOk (t.step ev) events

/-- Over a closed entry without payload, a connection begins as on a fresh one. -/
theorem opened_eq {s : EslSock} (h : s.Closed) (hfault : s.fault = false) (hproc : s.procBuff = [])
    (o : EslOpen) : s.opened o = EslSock.zero.opened o := by
  obtain ⟨hc, hr, hs, hcall⟩ := h
  cases o with
  | accept listenKey addrKey =>
    simp [EslSock.opened, EslSock.eslAccept, EslSock.zero, hc, hr, hs, hcall, hfault, hproc]
  | connect eslkey addrKey =>
    simp [EslSock.opened, EslSock.eslConnect, EslSock.zero, hr, hs, hcall, hfault, hproc]

/-- The invariant of a run within the condition: entries are tidy and not at
fault, and each is the one its last connection would have by itself. -/
structure TableInv (t : EslTable) : Prop where
  tidy : ∀ fd, (t.sock fd).Tidy
  sound : ∀ fd, (t.sock fd).fault = false
  sole : ∀ fd o events, t.conn fd = some (o, events) → t.sock fd = soleSock o events

theorem live_opened (s : EslSock) (o : EslOpen) : (s.opened o).live = true := by
  cases o with
  | accept listenKey addrKey => rfl
  | connect eslkey addrKey => rfl

theorem fault_opened (s : EslSock) (o : EslOpen) : (s.opened o).fault = s.fault := by
  cases o with
  | accept listenKey addrKey => rfl
  | connect eslkey addrKey => rfl

/-- The empty table is in order. -/
theorem tableInv_init : TableInv EslTable.init where
  tidy := fun _ _ => ⟨rfl, rfl, rfl, rfl⟩
  sound := fun _ => rfl
  sole := by
    intro fd o events h
    cases h

/-- A descriptor that is opened keeps the table in order. -/
theorem opened_inv {t : EslTable} (h : TableInv t) {fd : Nat} {o : EslOpen}
    (hok : ReuseOk t (.opened fd o)) : TableInv (t.step (.opened fd o)) := by
  unfold EslTable.step
  dsimp only
  split
  · exact h
  next hlive =>
  have hdead : (t.sock fd).live = false := by simpa using fun hl => hlive (Or.inl hl)
  have hfresh : (t.sock fd).opened o = EslSock.zero.opened o :=
    opened_eq (h.tidy fd hdead) (h.sound fd) (hok hdead) o
  refine ⟨fun fd' => ?_, fun fd' => ?_, fun fd' o' events' hconn => ?_⟩
  · by_cases hfd : fd' = fd
    · subst hfd
      simp only [Function.update_self]
      exact tidy_of_live (live_opened _ o)
    · simp only [Function.update_of_ne hfd]
      exact h.tidy fd'
  · by_cases hfd : fd' = fd
    · subst hfd
      simp only [Function.update_self]
      rw [fault_opened]
      exact h.sound fd'
    · simp only [Function.update_of_ne hfd]
      exact h.sound fd'
  · by_cases hfd : fd' = fd
    · subst hfd
      simp only [Function.update_self] at hconn ⊢
      cases hconn
      exact hfresh
    · simp only [Function.update_of_ne hfd] at hconn ⊢
      exact h.sole fd' o' events' hconn

theorem soleSock_snoc (o : EslOpen) (events : List SockEvent) (ev : SockEvent) :
    soleSock o (events ++ [ev]) = (soleSock o events).step ev := by
  simp [soleSock, EslSock.run]

/-- An event at a descriptor keeps the table in order. -/
theorem on_inv {t : EslTable} (h : TableInv t) {fd : Nat} {ev : SockEvent}
    (hok : ReuseOk t (.on fd ev)) : TableInv (t.step (.on fd ev)) := by
  refine ⟨fun fd' => ?_, fun fd' => ?_, fun fd' o' events' hconn => ?_⟩
  · by_cases hfd : fd' = fd
    · subst hfd
      simp only [EslTable.step, Function.update_self]
      exact tidy_step (h.tidy fd') ev
    · simp only [EslTable.step, Function.update_of_ne hfd]
      exact h.tidy fd'
  · by_cases hfd : fd' = fd
    · subst hfd
      simp only [EslTable.step, Function.update_self]
      exact (fault_step hok).trans (h.sound fd')
    · simp only [EslTable.step, Function.update_of_ne hfd]
      exact h.sound fd'
  · by_cases hfd : fd' = fd
    · subst hfd
      simp only [EslTable.step, Function.update_self, Option.map_eq_some_iff] at hconn ⊢
      obtain ⟨⟨o, events⟩, hprev, heq⟩ := hconn
      cases heq
      rw [soleSock_snoc, h.sole fd' o events hprev]
    · simp only [EslTable.step, Function.update_of_ne hfd] at hconn ⊢
      exact h.sole fd' o' events' hconn

/-- Every event keeps the table in order. -/
theorem step_tableInv {t : EslTable} (h : TableInv t) {ev : TableEvent} (hok : ReuseOk t ev) :
    TableInv (t.step ev) := by
  cases ev with
  | opened fd o => exact opened_inv h hok
  | on fd ev => exact on_inv h hok

/-- The table is in order after any first events of a run. -/
theorem run_tableInv (events : List TableEvent) : ∀ {t : EslTable}, TableInv t →
    ReuseRunOk t events → ∀ n, TableInv (t.run (events.take n)) := by
  induction events with
  | nil =>
    intro t h _ n
    rw [List.take_nil]
    exact h
  | cons ev events ih =>
    rintro t h ⟨hok, hrest⟩ n
    cases n with
    | zero => exact h
    | succ n => exact ih (step_tableInv h hok) hrest n

/-- In every run of a process in which no descriptor is used again while its
entry holds payload that has not been handed over, and no packet is decoded whose
length is beyond its block, every connection is on its own in every state
reached. -/
theorem run_alone (events : List TableEvent) (hok : ReuseRunOk EslTable.init events) (n : Nat) :
    (EslTable.init.run (events.take n)).Alone := by
  intro fd o evs hconn
  have hinv := run_tableInv events tableInv_init hok n
  refine ⟨hinv.sound fd, ?_⟩
  rw [hinv.sole fd o evs hconn]
  exact ⟨rfl, rfl, rfl⟩

/-! ## Two connections on one descriptor -/

/-- A data packet with a payload of two bytes. -/
def twoPacket : Bytes := EslPacket.bytes { crc := eslChecksum [97, 98], raw := [97, 98] }

/-- A connection on descriptor 5 receives two bytes and is closed after
`dataLen` of them have been read; the descriptor is then accepted again. -/
def reuseEvents (dataLen : Nat) : List TableEvent :=
  [.opened 5 (.accept ashkeyBlank ashkeyBlank), .on 5 (.read dataLen),
    .on 5 (.recv (eslControl eslInitCert ashkeyBlank)), .on 5 (.recv twoPacket), .on 5 (.recv []),
    .on 5 .close, .opened 5 (.accept ashkeyBlank ashkeyBlank), .on 5 .readb]

/-- All that was received has been read. -/
theorem run_alone_drained : (EslTable.init.run ((reuseEvents 2).take 8)).Alone := by
  refine run_alone (reuseEvents 2)
    ⟨fun _ => rfl, trivial, ?_, ?_, ?_, trivial, ?_, trivial, trivial⟩ 8
  · intro _
    decide +kernel
  · intro _
    decide +kernel
  · intro _
    decide +kernel
  · intro _
    decide +kernel

/-- One byte has been read of two: the other one is handed over on the second
connection, which has not received anything. -/
theorem reused_descriptor_leaks :
    ((EslTable.init.run (reuseEvents 1)).sock 5).given = [98] ∧
      ((EslTable.init.run (reuseEvents 1)).conn 5).isSome = true ∧
      ¬ (EslTable.init.run (reuseEvents 1)).Alone := by
  have hgiven : ((EslTable.init.run (reuseEvents 1)).sock 5).given = [98] := by decide +kernel
  have hconn : (EslTable.init.run (reuseEvents 1)).conn 5 =
      some (.accept ashkeyBlank ashkeyBlank, [.readb]) := rfl
  refine ⟨hgiven, by rw [hconn]; rfl, fun halone => ?_⟩
  have hsole := (halone 5 _ _ hconn).2.1
  rw [hgiven] at hsole
  exact absurd hsole (by decide +kernel)

end LibShare.Net
