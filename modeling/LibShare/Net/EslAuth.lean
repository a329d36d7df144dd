import LibShare.Net.EslSocket

/-!
# libshare — what the encrypted layer demands of a peer

Two guarantees that a server would want of a socket, against a peer that sends
any bytes at all.

* The session is established only by a peer that knows the key preset on the
  listening socket. `esl_read_ctrl` compares the keys of `ESL_INIT_CERT`
  messages; an `ESL_INIT_PRIV` message establishes the session with any key
  (`preset_key_iff`).
* No payload is handed over before the session is established. `esl_read_data`
  decodes a data packet with whatever key the table holds
  (`no_payload_before_session`).
-/

namespace LibShare.Net

open LibShare.Mem

/-! ## What a pass does to the session -/

/-- The part of a socket that decides about the session. -/
structure Gate where
  live : Bool
  crypt : Bool
  key : ShKey
  ctrls : List (UInt16 × ShKey)

def EslSock.gate (s : EslSock) : Gate := ⟨s.live, s.crypt, s.key, s.ctrls⟩

theorem gate_begin (s : EslSock) (use : EslUse) : (s.begin use).gate = s.gate := by
  unfold EslSock.begin
  split <;> rfl

theorem gate_writeNow (s : EslSock) (u : Unset) (data : Bytes) :
    (s.writeNow u data).gate = s.gate := by
  unfold EslSock.writeNow
  split <;> rfl

theorem gate_finish (s : EslSock) (use : EslUse) : (s.finish use).gate = s.gate := by
  unfold EslSock.finish
  split
  · rfl
  · rfl
  · rfl
  · rw [gate_writeNow]
    rfl

theorem gate_append (s : EslSock) (use : EslUse) (data : Bytes) :
    (s.append use data).gate = s.gate := by
  unfold EslSock.append
  split <;> rfl

/-- The control message at the front of a receive buffer, if the buffer holds a
whole one. -/
def ctrlAt (rbuff : Bytes) : Option (UInt16 × ShKey) :=
  if rbuff.length < 40 then none
  else if u16At rbuff 0 ≠ shmem16Magic then none
  else if htons (u16At rbuff 2) = eslData then none
  else some (htons (u16At rbuff 2), keyAt rbuff 8)

/-- The key after a control message has been accepted. -/
def keyAfter (addrKey key : ShKey) (mode : UInt16) (sKey : ShKey) : ShKey :=
  if mode = eslInitCert then shkeyXor sKey addrKey
  else if mode = eslInitPriv then shkeyXor sKey key
  else key

/-- The message establishes the session. -/
def opens (mode : UInt16) : Bool := decide (mode = eslInitCert ∨ mode = eslInitPriv)

/-- `esl_read_ctrl` on a whole message. -/
theorem eslReadCtrl_whole (addrKey key : ShKey) (crypt : Bool) {rbuff : Bytes}
    (hlen : ¬ rbuff.length < 40) :
    eslReadCtrl addrKey key crypt rbuff =
      if htons (u16At rbuff 2) = eslInitCert ∧ key ≠ ashkeyBlank ∧ key ≠ keyAt rbuff 8 then
        .error .access
      else .ok (rbuff.drop 40, keyAfter addrKey key (htons (u16At rbuff 2)) (keyAt rbuff 8),
        crypt || opens (htons (u16At rbuff 2))) := by
  unfold eslReadCtrl keyAfter opens
  rw [if_neg hlen]
  by_cases hcert : htons (u16At rbuff 2) = eslInitCert
  · simp [hcert]
  · by_cases hpriv : htons (u16At rbuff 2) = eslInitPriv
    · have hne : ¬ eslInitPriv = eslInitCert := by decide
      simp [hpriv, hne]
    · simp [hcert, hpriv]

/-- A pass over a buffer with a whole control message at its front. -/
theorem pass_ctrl {s : EslSock} {mode : UInt16} {sKey : ShKey}
    (h : ctrlAt s.recvBuff = some (mode, sKey)) (use : EslUse) :
    s.pass use =
      if mode = eslInitCert ∧ s.key ≠ ashkeyBlank ∧ s.key ≠ sKey then s.shnetClose
      else
        { s with
          recvBuff := s.recvBuff.drop 40
          key := keyAfter s.addrKey s.key mode sKey
          crypt := s.crypt || opens mode
          ctrls := s.ctrls ++ [(mode, sKey)] } := by
  unfold ctrlAt at h
  split at h
  · cases h
  next hlen =>
  split at h
  · cases h
  next hmagic =>
  split at h
  · cases h
  next hdata =>
  cases h
  unfold EslSock.pass
  rw [if_neg (by omega), if_neg hmagic, if_neg hdata,
    eslReadCtrl_whole s.addrKey s.key s.crypt hlen]
  by_cases hrefused : htons (u16At s.recvBuff 2) = eslInitCert ∧ s.key ≠ ashkeyBlank ∧
      s.key ≠ keyAt s.recvBuff 8
  · rw [if_pos hrefused, if_pos hrefused]
  · rw [if_neg hrefused, if_neg hrefused]

/-- A pass over a buffer without one leaves the session alone or ends it. -/
theorem gate_pass_other {s : EslSock} (h : ctrlAt s.recvBuff = none) (use : EslUse) :
    (s.pass use).gate = s.gate ∨
      (s.pass use).gate = { s.gate with live := false, crypt := false } := by
  unfold EslSock.pass
  split
  · exact Or.inl (gate_finish s use)
  split
  · exact Or.inr rfl
  next hmagic =>
  split
  · split
    · exact Or.inr rfl
    · exact Or.inl (gate_append _ use _)
    · exact Or.inl rfl
    · exact Or.inr rfl
  next hdata =>
  -- what is left is a control message that is not complete
  have hlen : s.recvBuff.length < 40 := by
    by_contra hlen
    rw [ctrlAt, if_neg hlen, if_neg hmagic, if_neg hdata] at h
    cases h
  rw [eslReadCtrl, if_pos hlen]
  exact Or.inl rfl

/-- The control message that an event makes the socket process. -/
def EslSock.ctrlOf (s : EslSock) : SockEvent → Option (UInt16 × ShKey)
  | .recv bytes => if s.call.isSome then ctrlAt (s.recvBuff ++ bytes) else none
  | _ => none

/-- What is no control packet opens no gate. -/
theorem gate_step_other {s : EslSock} {ev : SockEvent} (h : s.ctrlOf ev = none) :
    (s.step ev).gate = s.gate ∨
      (s.step ev).gate = { s.gate with live := false, crypt := false } := by
  unfold EslSock.step
  split
  · exact Or.inl (gate_begin s _)
  · exact Or.inl (gate_begin s _)
  · split
    · exact Or.inl (gate_writeNow s _ _)
    · exact Or.inl (gate_begin s _)
  · split
    · exact Or.inl rfl
    · exact Or.inl (gate_begin s _)
  · exact Or.inr rfl
  · next use bytes hcall =>
    rw [EslSock.ctrlOf, hcall] at h
    exact gate_pass_other (s := { s with recvBuff := s.recvBuff ++ bytes }) h use
  · exact Or.inl rfl
  · exact Or.inl rfl

/-- A control packet opens the gate, unless it is of the kind whose key is compared and has
another one. -/
theorem gate_step_ctrl {s : EslSock} {ev : SockEvent} {mode : UInt16} {sKey : ShKey}
    (h : s.ctrlOf ev = some (mode, sKey)) :
    (s.step ev).gate =
      if mode = eslInitCert ∧ s.key ≠ ashkeyBlank ∧ s.key ≠ sKey then
        { s.gate with live := false, crypt := false }
      else
        { live := s.live
          crypt := s.crypt || opens mode
          key := keyAfter s.addrKey s.key mode sKey
          ctrls := s.ctrls ++ [(mode, sKey)] } := by
  cases ev with
  | recv bytes =>
    unfold EslSock.ctrlOf at h
    cases hcall : s.call with
    | none =>
      rw [hcall] at h
      cases h
    | some use =>
      rw [hcall] at h
      rw [step_recv hcall, pass_ctrl (s := { s with recvBuff := s.recvBuff ++ bytes }) h use]
      split <;> rfl
  | _ => cases h

/-! ## The preset key -/

/-- The peer has sent a control message with this key. -/
def Presented (key : ShKey) (s : EslSock) : Prop := ∃ mode, (mode, key) ∈ s.ctrls

/-- If the session is established, the peer has presented the key. -/
def KeyEnforced (key : ShKey) (s : EslSock) : Prop := s.crypt = true → Presented key s

/-- The event does not establish the session with an `ESL_INIT_PRIV` message
while the key has not been presented. -/
def PrivOk (key : ShKey) (s : EslSock) (ev : SockEvent) : Prop :=
  ∀ sKey, s.ctrlOf ev = some (eslInitPriv, sKey) → sKey = key ∨ Presented key s

/-- Every event of the run is within the condition in the state it finds. -/
def PrivRunOk (key : ShKey) : EslSock → List SockEvent → Prop
  | _, [] => True
  | s, ev :: events => PrivOk key s ev ∧ PrivRunOk key (s.step ev) events

/-- The invariant of a socket whose listener has preset a key. -/
structure Guarded (key : ShKey) (s : EslSock) : Prop where
  enforced : KeyEnforced key s
  /-- without a session the key is still the preset one -/
  waiting : s.crypt = false → s.key = key ∨ Presented key s

/-- What has been presented stays so. -/
theorem presented_of_gate {key : ShKey} {s t : EslSock} (hsub : s.ctrls ⊆ t.ctrls)
    (h : Presented key s) : Presented key t := by
  obtain ⟨mode, hmem⟩ := h
  exact ⟨mode, hsub hmem⟩

-- Once the key has been presented, the rest takes care of itself.
/-- Where the key has been presented all is guarded. -/
theorem guarded_of_presented {key : ShKey} {s : EslSock} (h : Presented key s) : Guarded key s :=
  ⟨fun _ => h, fun _ => Or.inr h⟩

/-- Where the gate has not moved all is guarded still. -/
theorem guarded_same {key : ShKey} {s t : EslSock} (h : Guarded key s) (hg : t.gate = s.gate) :
    Guarded key t := by
  have hcrypt : t.crypt = s.crypt := congrArg Gate.crypt hg
  have hkey : t.key = s.key := congrArg Gate.key hg
  have hctrls : t.ctrls = s.ctrls := congrArg Gate.ctrls hg
  exact ⟨by simpa only [KeyEnforced, Presented, hcrypt, hctrls] using h.enforced,
    by simpa only [Presented, hcrypt, hkey, hctrls] using h.waiting⟩

/-- A socket may be closed in any state. -/
theorem guarded_close {key : ShKey} {s t : EslSock} (h : Guarded key s)
    (hg : t.gate = { s.gate with live := false, crypt := false }) : Guarded key t := by
  have hcrypt : t.crypt = false := congrArg Gate.crypt hg
  have hkey : t.key = s.key := congrArg Gate.key hg
  have hctrls : t.ctrls = s.ctrls := congrArg Gate.ctrls hg
  refine ⟨fun hc => absurd hc (by rw [hcrypt]; decide), fun _ => ?_⟩
  rw [hkey, Presented, hctrls]
  cases hs : s.crypt with
  | false => exact h.waiting hs
  | true => exact Or.inr (h.enforced hs)

/-- An event keeps the guard, if it is not a packet of the kind that is not compared. -/
theorem step_guarded {key : ShKey} (hkey : key ≠ ashkeyBlank) {s : EslSock} (h : Guarded key s)
    {ev : SockEvent} (hok : PrivOk key s ev) : Guarded key (s.step ev) := by
  cases hctrl : s.ctrlOf ev with
  | none => exact (gate_step_other hctrl).elim (guarded_same h) (guarded_close h)
  | some msg =>
    obtain ⟨mode, sKey⟩ := msg
    have hg := gate_step_ctrl hctrl
    by_cases hrefused : mode = eslInitCert ∧ s.key ≠ ashkeyBlank ∧ s.key ≠ sKey
    · rw [if_pos hrefused] at hg
      exact guarded_close h hg
    rw [if_neg hrefused] at hg
    have hctrls : (s.step ev).ctrls = s.ctrls ++ [(mode, sKey)] := congrArg Gate.ctrls hg
    have hsub : s.ctrls ⊆ (s.step ev).ctrls := by
      rw [hctrls]
      exact List.subset_append_left _ _
    have hself : sKey = key → Presented key (s.step ev) := by
      rintro rfl
      exact ⟨mode, by simp [hctrls]⟩
    -- either the key has been presented by now, or nothing has happened yet
    by_cases hpres : Presented key s
    · exact guarded_of_presented (presented_of_gate hsub hpres)
    have hs : s.crypt = false := by
      cases hs : s.crypt with
      | false => rfl
      | true => exact absurd (h.enforced hs) hpres
    have hwait : s.key = key := (h.waiting hs).resolve_right hpres
    by_cases hcert : mode = eslInitCert
    · have hmatch : s.key = sKey := by
        by_contra hne
        exact hrefused ⟨hcert, hwait ▸ hkey, hne⟩
      exact guarded_of_presented (hself (hmatch.symm.trans hwait))
    by_cases hpriv : mode = eslInitPriv
    · subst hpriv
      exact guarded_of_presented ((hok sKey hctrl).elim hself (presented_of_gate hsub))
    · have hcrypt : (s.step ev).crypt = false := by
        rw [show (s.step ev).crypt = (s.crypt || opens mode) from congrArg Gate.crypt hg, hs]
        simp [opens, hcert, hpriv]
      have hkey' : (s.step ev).key = s.key := by
        rw [show (s.step ev).key = keyAfter s.addrKey s.key mode sKey from congrArg Gate.key hg]
        simp [keyAfter, hcert, hpriv]
      refine ⟨fun hc => absurd hc (by rw [hcrypt]; decide), fun _ => Or.inl ?_⟩
      rw [hkey', hwait]

/-- The guard holds after any first events of a run. -/
theorem run_guarded {key : ShKey} (hkey : key ≠ ashkeyBlank) (events : List SockEvent) :
    ∀ {s : EslSock}, Guarded key s → PrivRunOk key s events →
      ∀ n, KeyEnforced key (s.run (events.take n)) := by
  induction events with
  | nil =>
    intro s h _ n
    rw [List.take_nil]
    exact h.enforced
  | cons ev events ih =>
    rintro s h ⟨hok, hrest⟩ n
    cases n with
    | zero => exact h.enforced
    | succ n => exact ih (step_guarded hkey h hok) hrest n

/-- An event outside the condition establishes the session at once. -/
theorem privOk_of_enforced {key : ShKey} {s : EslSock} {ev : SockEvent}
    (h : KeyEnforced key (s.step ev)) : PrivOk key s ev := by
  intro sKey hctrl
  have hne : ¬ (eslInitPriv = eslInitCert ∧ s.key ≠ ashkeyBlank ∧ s.key ≠ sKey) :=
    fun hcon => absurd hcon.1 (by decide)
  have hg := gate_step_ctrl hctrl
  rw [if_neg hne] at hg
  have hcrypt : (s.step ev).crypt = true := by
    rw [show (s.step ev).crypt = (s.crypt || opens eslInitPriv) from congrArg Gate.crypt hg]
    simp [opens]
  obtain ⟨mode, hmem⟩ := h hcrypt
  rw [show (s.step ev).ctrls = s.ctrls ++ [(eslInitPriv, sKey)] from congrArg Gate.ctrls hg,
    List.mem_append] at hmem
  rcases hmem with hold | hnew
  · exact Or.inr ⟨mode, hold⟩
  · simp only [List.mem_singleton, Prod.mk.injEq] at hnew
    exact Or.inl hnew.2.symm

/-- Where the key is enforced all along, no packet of that kind has come. -/
theorem privRunOk_of_enforced {key : ShKey} (events : List SockEvent) : ∀ {s : EslSock},
    (∀ n, KeyEnforced key (s.run (events.take n))) → PrivRunOk key s events := by
  induction events with
  | nil => exact fun _ => trivial
  | cons ev events ih => exact fun h => ⟨privOk_of_enforced (h 1), ih fun n => h (n + 1)⟩

/-- For every preset key, every descriptor and every sequence of events, that
is, every byte stream of the peer in every fragmentation: the socket has
`SHNET_CRYPT` only after a control message with the preset key, in every state
reached, exactly when no `ESL_INIT_PRIV` message with another key arrives
before one. -/
theorem preset_key_iff {key : ShKey} (hkey : key ≠ ashkeyBlank) (old : EslSock) (addrKey : ShKey)
    (events : List SockEvent) :
    (∀ n, KeyEnforced key ((old.shnetClose.eslAccept key addrKey).run (events.take n))) ↔
      PrivRunOk key (old.shnetClose.eslAccept key addrKey) events := by
  have hinit : Guarded key (old.shnetClose.eslAccept key addrKey) :=
    ⟨fun hc => absurd hc Bool.false_ne_true, fun _ => Or.inl rfl⟩
  exact ⟨privRunOk_of_enforced events, run_guarded hkey events hinit⟩

/-- A preset key for concrete runs. -/
def someKey : ShKey := { ashkeyBlank with crc := 7 }

/-- The client presents the preset key. -/
theorem preset_key_presented :
    KeyEnforced someKey ((EslSock.zero.shnetClose.eslAccept someKey ashkeyBlank).run
      ([SockEvent.readb, .recv (eslControl eslInitCert someKey)].take 2)) := by
  have hkey : someKey ≠ ashkeyBlank := by decide
  refine (preset_key_iff hkey EslSock.zero ashkeyBlank
    [.readb, .recv (eslControl eslInitCert someKey)]).mpr ⟨?_, ?_, trivial⟩ 2
  · intro sKey hctrl
    cases hctrl
  · intro sKey hctrl
    have hcert : ((EslSock.zero.shnetClose.eslAccept someKey ashkeyBlank).step .readb).ctrlOf
        (.recv (eslControl eslInitCert someKey)) = some (eslInitCert, someKey) := by
      decide +kernel
    rw [hcert] at hctrl
    cases hctrl

/-- A peer that does not know the preset key sends one `ESL_INIT_PRIV` message
with the blank key: the session is established. -/
theorem preset_key_bypassed :
    ((EslSock.zero.shnetClose.eslAccept someKey ashkeyBlank).run
      [.readb, .recv (eslControl eslInitPriv ashkeyBlank)]).crypt = true ∧
    ¬ KeyEnforced someKey ((EslSock.zero.shnetClose.eslAccept someKey ashkeyBlank).run
      [.readb, .recv (eslControl eslInitPriv ashkeyBlank)]) := by
  have hcrypt : ((EslSock.zero.shnetClose.eslAccept someKey ashkeyBlank).run
      [.readb, .recv (eslControl eslInitPriv ashkeyBlank)]).crypt = true := by
    decide +kernel
  have hctrls : ((EslSock.zero.shnetClose.eslAccept someKey ashkeyBlank).run
      [.readb, .recv (eslControl eslInitPriv ashkeyBlank)]).ctrls =
        [(eslInitPriv, ashkeyBlank)] := by
    decide +kernel
  refine ⟨hcrypt, fun h => ?_⟩
  obtain ⟨mode, hmem⟩ := h hcrypt
  rw [hctrls] at hmem
  simp only [List.mem_singleton, Prod.mk.injEq] at hmem
  exact absurd hmem.2 (by decide)

/-! ## Payload before the session -/

/-- The packet at the front of a receive buffer is a data packet. -/
def dataAt (rbuff : Bytes) : Prop :=
  4 ≤ rbuff.length ∧ u16At rbuff 0 = shmem16Magic ∧ htons (u16At rbuff 2) = eslData

/-- The event does not find a data packet while there is no session. -/
def EarlyOk (s : EslSock) : SockEvent → Prop
  | .recv bytes => s.crypt = false → s.call.isSome = true → ¬ dataAt (s.recvBuff ++ bytes)
  | _ => True

/-- Every event of the run is within the condition in the state it finds. -/
def EarlyRunOk : EslSock → List SockEvent → Prop
  | _, [] => True
  | s, ev :: events => EarlyOk s ev ∧ EarlyRunOk (s.step ev) events

/-- Nothing has been handed over or is about to be. -/
def EslSock.Silent (s : EslSock) : Prop := s.procBuff = [] ∧ s.given = []

/-- A call that begins delivers nothing. -/
theorem silent_begin {s : EslSock} (h : s.Silent) (use : EslUse) : (s.begin use).Silent := by
  obtain ⟨hproc, hgiven⟩ := h
  unfold EslSock.begin
  split
  · exact ⟨hproc, hgiven⟩
  · exact ⟨rfl, by simp [hproc, hgiven]⟩
  · exact ⟨rfl, hgiven⟩

/-- A write delivers nothing. -/
theorem silent_writeNow {s : EslSock} (h : s.Silent) (u : Unset) (data : Bytes) :
    (s.writeNow u data).Silent := by
  unfold EslSock.writeNow
  split
  · exact h
  · exact h

/-- A call that ends delivers nothing. -/
theorem silent_finish {s : EslSock} (h : s.Silent) (use : EslUse) : (s.finish use).Silent := by
  unfold EslSock.finish
  split
  · exact ⟨by simp [h.1], by simp [h.1, h.2]⟩
  · exact h
  · exact h
  · exact silent_writeNow (s := { s with call := none }) h _ _

-- Only `esl_read_data` puts anything into a buffer.
/-- A pass without a data packet delivers nothing. -/
theorem silent_pass {s : EslSock} (h : s.Silent) (use : EslUse) (hdata : ¬ dataAt s.recvBuff) :
    (s.pass use).Silent := by
  unfold EslSock.pass
  split
  · exact silent_finish h use
  next hlen =>
  split
  · exact h
  next hmagic =>
  split
  · next hmode => exact absurd ⟨Nat.not_lt.mp hlen, not_not.mp hmagic, hmode⟩ hdata
  split
  · exact h
  · exact h
  · exact h

/-- Nothing is delivered before the session, unless a data packet has come. -/
theorem silent_step {s : EslSock} (h : s.Silent) (hcrypt : s.crypt = false) {ev : SockEvent}
    (hok : EarlyOk s ev) : (s.step ev).Silent := by
  unfold EslSock.step
  split
  · exact silent_begin h _
  · exact silent_begin h _
  · split
    · exact silent_writeNow h _ _
    · exact silent_begin h _
  · split
    · exact h
    · exact silent_begin h _
  · exact h
  · next use bytes hcall =>
    exact silent_pass (s := { s with recvBuff := s.recvBuff ++ bytes }) h use
      (hok hcrypt (by rw [hcall]; rfl))
  · exact h
  · exact h

/-- Nothing is delivered by the first events of a run, as long as there is no session. -/
theorem run_silent (events : List SockEvent) : ∀ {s : EslSock}, s.Silent → EarlyRunOk s events →
    ∀ n, (∀ m ≤ n, (s.run (events.take m)).crypt = false) →
      (s.run (events.take n)).Silent := by
  induction events with
  | nil =>
    intro s h _ n _
    rw [List.take_nil]
    exact h
  | cons ev events ih =>
    rintro s h ⟨hok, hrest⟩ n hbefore
    cases n with
    | zero => exact h
    | succ n =>
      have hstep := silent_step h (hbefore 0 (Nat.zero_le _)) hok
      exact ih hstep hrest n fun m hm => hbefore (m + 1) (Nat.succ_le_succ hm)

/-- For every way a connection begins and every sequence of events in which no
data packet is found before the session is established: as long as `SHNET_CRYPT`
has not been set, no byte has been handed to the application. -/
theorem no_payload_before_session (old : EslSock) (hold : old.procBuff = []) (o : EslOpen)
    (events : List SockEvent) (hok : EarlyRunOk (old.shnetClose.opened o) events) (n : Nat)
    (hbefore : ∀ m ≤ n, ((old.shnetClose.opened o).run (events.take m)).crypt = false) :
    ((old.shnetClose.opened o).run (events.take n)).given = [] := by
  have hinit : (old.shnetClose.opened o).Silent := by
    cases o with
    | accept listenKey addrKey => exact ⟨hold, rfl⟩
    | connect eslkey addrKey => exact ⟨hold, rfl⟩
  exact (run_silent events hinit hok n hbefore).2

/-- A data packet with a payload of one byte. -/
def onePacket : Bytes := EslPacket.bytes { crc := eslChecksum [97], raw := [97] }

/-- A handshake that arrives in two parts, followed by a data packet. -/
def partedHandshake : List SockEvent :=
  [.readb, .recv ((eslControl eslInitCert someKey).take 10),
    .recv ((eslControl eslInitCert someKey).drop 10), .recv onePacket]

/-- No byte has been handed over while a part of the handshake is missing. -/
theorem no_payload_before_handshake :
    ((EslSock.zero.shnetClose.opened (.accept someKey ashkeyBlank)).run
      (partedHandshake.take 2)).given = [] := by
  have hfirst : ¬ dataAt (((EslSock.zero.shnetClose.opened (.accept someKey ashkeyBlank)).run
      (partedHandshake.take 1)).recvBuff ++ (eslControl eslInitCert someKey).take 10) :=
    fun h => absurd h.2.2 (by decide +kernel)
  have hrest : ¬ dataAt (((EslSock.zero.shnetClose.opened (.accept someKey ashkeyBlank)).run
      (partedHandshake.take 2)).recvBuff ++ (eslControl eslInitCert someKey).drop 10) :=
    fun h => absurd h.2.2 (by decide +kernel)
  have hcrypt : ((EslSock.zero.shnetClose.opened (.accept someKey ashkeyBlank)).run
      (partedHandshake.take 3)).crypt = true := by decide +kernel
  refine no_payload_before_session EslSock.zero rfl (.accept someKey ashkeyBlank) partedHandshake
    ⟨trivial, fun _ _ => hfirst, fun _ _ => hrest, fun hno => ?_, trivial⟩ 2 fun m hm => ?_
  · -- the data packet comes when there is a session
    exact absurd (hcrypt.symm.trans hno) (by decide)
  · interval_cases m
    · rfl
    · rfl
    · decide +kernel

/-- A data packet as the first packet of all: its payload is handed over, and
the socket has no session. -/
theorem payload_without_session :
    ((EslSock.zero.shnetClose.opened (.accept someKey ashkeyBlank)).run
      [.readb, .recv onePacket]).given = [97] ∧
    ∀ m ≤ 2, ((EslSock.zero.shnetClose.opened (.accept someKey ashkeyBlank)).run
      ([SockEvent.readb, .recv onePacket].take m)).crypt = false := by
  refine ⟨by decide +kernel, ?_⟩
  intro m hm
  interval_cases m
  · rfl
  · rfl
  · decide +kernel

end LibShare.Net
