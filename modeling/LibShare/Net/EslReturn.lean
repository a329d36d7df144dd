import Mathlib.Logic.Relation
import LibShare.Net.EslAuth

/-!
# libshare — whether a read call returns

`esl_readb` makes passes until less than four bytes are left. A pass over a packet of which a part
is missing takes nothing, and the handler says that the reader is to try again. The loop does so at
once, with the same bytes, while its socket yields no more. A packet whose length is beyond the
block of its decoded segment makes the reader read behind the block, and the call has no result.

`readb_returns_iff` — the call returns, with every complete packet taken and an incomplete one
left, if and only if the incomplete one has less than four bytes, or a packet is rejected before
it; and no packet before has a length beyond its block (`Overlong`).
-/

namespace LibShare.Net

open LibShare.Mem

/-- The length of the packet at the front, where all of it is there. -/
def packetLen (buff : Bytes) : Option Nat :=
  if htons (u16At buff 2) = eslData then
    if buff.length < 8 then none
    else
      let size := (htons (u16At buff 6)).toNat
      if buff.length < size + 8 then none else some (size + 8)
  else if buff.length < 40 then none
  else some 40

/-- What `shdecode` makes of the segment of a data packet. -/
def decodedAt (key : ShKey) (buff : Bytes) : Option (Option Bytes) :=
  shdecode ((buff.drop 8).take (htons (u16At buff 6)).toNat) key

/-- A packet that is there is in error: its checksum, or the key that the listen socket asks for. -/
def WrongPacket (key : ShKey) (buff : Bytes) : Prop :=
  if htons (u16At buff 2) = eslData then
    (htons (u16At buff 6)).toNat ≠ 0 ∧
      ∃ decoded, decodedAt key buff = some decoded ∧ u16At buff 4 ≠ eslChecksum (decoded.getD [])
  else htons (u16At buff 2) = eslInitCert ∧ key ≠ ashkeyBlank ∧ key ≠ keyAt buff 8

/-- A data packet says that it has more bytes than the block that its segment is decoded into. -/
def Overlong (key : ShKey) (buff : Bytes) : Prop :=
  htons (u16At buff 2) = eslData ∧ (htons (u16At buff 6)).toNat ≠ 0 ∧ decodedAt key buff = none

/-- The front of the bytes is no packet, or one in error. -/
def Rejected (key : ShKey) (buff : Bytes) : Prop :=
  4 ≤ buff.length ∧
    (u16At buff 0 ≠ shmem16Magic ∨ (packetLen buff).isSome = true ∧ WrongPacket key buff)

/-- The key after the packet at the front. -/
def keyBehind (addrKey key : ShKey) (buff : Bytes) : ShKey :=
  keyAfter addrKey key (htons (u16At buff 2)) (keyAt buff 8)

/-- A complete packet is at the front, and what is left behind it. -/
def TakesPacket (addrKey : ShKey) (a b : ShKey × Bytes) : Prop :=
  4 ≤ a.2.length ∧ ¬ Rejected a.1 a.2 ∧
    ∃ n, packetLen a.2 = some n ∧ ¬ Overlong a.1 a.2 ∧ b = (keyBehind addrKey a.1 a.2, a.2.drop n)

variable {addrKey key : ShKey} {buff : Bytes} {link : EslLink} {c : EslCall}

theorem packetLen_pos {n : Nat} (h : packetLen buff = some n) : 8 ≤ n ∧ n ≤ buff.length := by
  unfold packetLen at h
  split at h
  · split at h
    · exact nomatch h
    · dsimp only at h
      split at h
      · exact nomatch h
      · rw [Option.some.injEq] at h
        omega
  · split at h
    · exact nomatch h
    · rw [Option.some.injEq] at h
      omega

/-! ## The handlers -/

/-- What `esl_read_data` makes of its packet: nothing yet, an error, a read behind a block, or the
packet is taken. -/
theorem readData_cases (key : ShKey) (hmode : htons (u16At buff 2) = eslData) :
    (packetLen buff = none ∧ eslReadData key buff = some (buff, .error .again)) ∨
    ∃ n, packetLen buff = some n ∧
      (WrongPacket key buff ∧ (∃ left, eslReadData key buff = some (left, .error .ilseq)) ∨
        ¬ WrongPacket key buff ∧
          (Overlong key buff ∧ eslReadData key buff = none ∨
            ¬ Overlong key buff ∧ (eslReadData key buff = some (buff.drop n, .error .again) ∨
              ∃ data, eslReadData key buff = some (buff.drop n, .ok data)))) := by
  unfold packetLen WrongPacket Overlong eslReadData decodedAt
  rw [if_pos hmode, if_pos hmode]
  by_cases hhead : buff.length < 8
  · rw [if_pos hhead, if_pos hhead]
    exact Or.inl ⟨rfl, rfl⟩
  rw [if_neg hhead, if_neg hhead]
  dsimp only
  generalize (htons (u16At buff 6)).toNat = size
  by_cases hsegment : buff.length < size + 8
  · rw [if_pos hsegment, if_pos hsegment]
    exact Or.inl ⟨rfl, rfl⟩
  rw [if_neg hsegment, if_neg hsegment]
  refine Or.inr ⟨_, rfl, ?_⟩
  by_cases hsize : size = 0
  · -- only the header is taken
    rw [if_pos hsize, hsize]
    exact Or.inr ⟨fun hwrong => hwrong.1 rfl, Or.inr ⟨fun hover => hover.2.1 rfl, Or.inl rfl⟩⟩
  rw [if_neg hsize]
  cases hdecoded : shdecode ((buff.drop 8).take size) key with
  | none =>
    refine Or.inr ⟨?_, Or.inl ⟨⟨hmode, hsize, rfl⟩, rfl⟩⟩
    rintro ⟨-, decoded, hsome, -⟩
    cases hsome
  | some decoded =>
    rw [Option.map_some]
    by_cases hcrc : u16At buff 4 ≠ eslChecksum (decoded.getD [])
    · rw [if_pos hcrc]
      exact Or.inl ⟨⟨hsize, decoded, rfl, hcrc⟩, _, rfl⟩
    · rw [if_neg hcrc, List.drop_drop, Nat.add_comm 8 size]
      refine Or.inr ⟨?_, Or.inr ⟨?_, Or.inr ⟨_, rfl⟩⟩⟩
      · rintro ⟨-, decoded', hsome, hwrong⟩
        obtain rfl := Option.some.inj hsome
        exact hcrc hwrong
      · rintro ⟨-, -, hnone⟩
        cases hnone

/-- What `esl_read_ctrl` makes of its packet. -/
theorem readCtrl_cases (addrKey key : ShKey) (crypt : Bool)
    (hmode : htons (u16At buff 2) ≠ eslData) :
    (packetLen buff = none ∧ eslReadCtrl addrKey key crypt buff = .error .again) ∨
    packetLen buff = some 40 ∧
      (WrongPacket key buff ∧ eslReadCtrl addrKey key crypt buff = .error .access ∨
        ¬ WrongPacket key buff ∧ ∃ crypt', eslReadCtrl addrKey key crypt buff =
          .ok (buff.drop 40, keyBehind addrKey key buff, crypt')) := by
  unfold packetLen WrongPacket
  rw [if_neg hmode, if_neg hmode]
  by_cases hlen : buff.length < 40
  · rw [if_pos hlen, eslReadCtrl, if_pos hlen]
    exact Or.inl ⟨rfl, rfl⟩
  rw [if_neg hlen, eslReadCtrl_whole addrKey key crypt hlen]
  refine Or.inr ⟨rfl, ?_⟩
  by_cases hpreset : htons (u16At buff 2) = eslInitCert ∧ key ≠ ashkeyBlank ∧ key ≠ keyAt buff 8
  · rw [if_pos hpreset]
    exact Or.inl ⟨hpreset, rfl⟩
  · rw [if_neg hpreset]
    exact Or.inr ⟨hpreset, _, rfl⟩

/-! ## One pass -/

/-- The parts of a link that a pass over a packet leaves. -/
structure Took (addrKey : ShKey) (n : Nat) (link link' : EslLink) : Prop where
  buff : link'.recvBuff = link.recvBuff.drop n
  key : link'.key = keyBehind addrKey link.key link.recvBuff
  call : link'.call = link.call
  fault : link'.fault = link.fault

/-- Less than four bytes end the call. -/
theorem pass_short (addrKey : ShKey) (c : EslCall) (h : link.recvBuff.length < 4) :
    link.pass addrKey c = link.finish c := if_pos h

/-- A pass over four bytes or more: an error ends the call, a part of a packet changes nothing, and
a complete packet is taken or makes the reader read behind a block. -/
theorem pass_cases (addrKey : ShKey) (c : EslCall) (hlen : 4 ≤ link.recvBuff.length) :
    (Rejected link.key link.recvBuff ∧ ∃ err, link.pass addrKey c = link.abort err) ∨
    ¬ Rejected link.key link.recvBuff ∧
      (packetLen link.recvBuff = none ∧ link.pass addrKey c = link ∨
        ∃ n, packetLen link.recvBuff = some n ∧
          (Overlong link.key link.recvBuff ∧ link.pass addrKey c = link.stray ∨
            ¬ Overlong link.key link.recvBuff ∧ Took addrKey n link (link.pass addrKey c))) := by
  unfold EslLink.pass
  rw [if_neg (Nat.not_lt.mpr hlen)]
  by_cases hmagic : u16At link.recvBuff 0 ≠ shmem16Magic
  · rw [if_pos hmagic]
    exact Or.inl ⟨⟨hlen, Or.inl hmagic⟩, _, rfl⟩
  rw [if_neg hmagic]
  have hrejected : Rejected link.key link.recvBuff ↔
      (packetLen link.recvBuff).isSome = true ∧ WrongPacket link.key link.recvBuff :=
    ⟨fun h => h.2.resolve_left hmagic, fun h => ⟨hlen, Or.inr h⟩⟩
  rw [hrejected]
  by_cases hmode : htons (u16At link.recvBuff 2) = eslData
  · rw [if_pos hmode]
    -- the key stays as it is
    have hkey : keyBehind addrKey link.key link.recvBuff = link.key := by
      rw [keyBehind, keyAfter, hmode, if_neg (by decide), if_neg (by decide)]
    rcases readData_cases link.key hmode with ⟨hnone, hread⟩ | ⟨n, hsome, hcase⟩
    · rw [hread, hnone]
      exact Or.inr ⟨(fun h => by cases h.1), Or.inl ⟨rfl, rfl⟩⟩
    · rw [hsome]
      rcases hcase with ⟨hwrong, left, hread⟩ | ⟨hright,
          ⟨hover, hread⟩ | ⟨hwithin, hread | ⟨data, hread⟩⟩⟩
      · rw [hread]
        exact Or.inl ⟨⟨rfl, hwrong⟩, .ilseq, rfl⟩
      · rw [hread]
        exact Or.inr ⟨fun h => hright h.2, Or.inr ⟨n, rfl, Or.inl ⟨hover, rfl⟩⟩⟩
      · rw [hread]
        exact Or.inr ⟨fun h =>
          hright h.2, Or.inr ⟨n, rfl, Or.inr ⟨hwithin, rfl, hkey.symm, rfl, rfl⟩⟩⟩
      · rw [hread]
        refine Or.inr ⟨fun h => hright h.2, Or.inr ⟨n, rfl, Or.inr ⟨hwithin, ?_⟩⟩⟩
        cases c with
        | read dataLen => exact ⟨rfl, hkey.symm, rfl, rfl⟩
        | readb => exact ⟨rfl, hkey.symm, rfl, rfl⟩
  · rw [if_neg hmode]
    rcases readCtrl_cases addrKey link.key link.crypt hmode with ⟨hnone, hread⟩ | ⟨hsome, hcase⟩
    · rw [hread, hnone]
      exact Or.inr ⟨(fun h => by cases h.1), Or.inl ⟨rfl, rfl⟩⟩
    · rw [hsome]
      rcases hcase with ⟨hwrong, hread⟩ | ⟨hright, crypt', hread⟩
      · rw [hread]
        exact Or.inl ⟨⟨rfl, hwrong⟩, .access, rfl⟩
      · rw [hread]
        exact Or.inr ⟨fun h =>
          hright h.2, Or.inr ⟨40, rfl, Or.inr ⟨fun hover => hmode hover.1, rfl, rfl, rfl, rfl⟩⟩⟩

/-! ## Passes while the socket yields nothing -/

/-- So many passes over what the buffer has. -/
def EslLink.passes (addrKey : ShKey) (link : EslLink) (n : Nat) : EslLink :=
  link.run addrKey (List.replicate n (.sock 0))

theorem passes_add (addrKey : ShKey) (link : EslLink) (m n : Nat) :
    link.passes addrKey (m + n) = (link.passes addrKey m).passes addrKey n := by
  unfold EslLink.passes EslLink.run
  rw [List.replicate_add, List.foldl_append]

/-- A `read(2)` without a byte leaves the buffer, and the call makes its pass. -/
theorem passes_one (addrKey : ShKey) (hcall : link.call = some c) :
    link.passes addrKey 1 = link.pass addrKey c := by
  have hread : link.readBuf 0 = link := by
    simp [EslLink.readBuf]
  simp only [EslLink.passes, EslLink.run, List.replicate_one, List.foldl_cons, List.foldl_nil,
    EslLink.step, hcall, hread]

/-- What one pass does not change, no number of passes does. -/
theorem passes_same (h : link.passes addrKey 1 = link) (n : Nat) :
    link.passes addrKey n = link := by
  induction n with
  | zero => rfl
  | succ n ih => rw [passes_add, ih, h]

theorem passes_returned (hcall : link.call = none) (n : Nat) : link.passes addrKey n = link := by
  refine passes_same ?_ n
  simp only [EslLink.passes, EslLink.run, List.replicate_one, List.foldl_cons, List.foldl_nil,
    EslLink.step, hcall]

/-- The complete packets at the front are taken, one in a pass. -/
theorem passes_take {a b : ShKey × Bytes} (h : Relation.ReflTransGen (TakesPacket addrKey) a b) :
    ∀ {link : EslLink}, (link.key, link.recvBuff) = a → link.call = some c →
      ∃ n, ((link.passes addrKey n).key, (link.passes addrKey n).recvBuff) = b ∧
        (link.passes addrKey n).call = some c ∧ (link.passes addrKey n).fault = link.fault := by
  induction h using Relation.ReflTransGen.head_induction_on with
  | refl => exact fun hlink hcall => ⟨0, hlink, hcall, rfl⟩
  | head hstep _ ih =>
    rintro link rfl hcall
    obtain ⟨hlen, hright, n, hsome, hwithin, rfl⟩ := hstep
    rcases pass_cases addrKey c hlen with ⟨hwrong, -⟩ | ⟨-,
        ⟨hnone, -⟩ | ⟨n', hsome', ⟨hover, -⟩ | ⟨-, htook⟩⟩⟩
    · exact absurd hwrong hright
    · cases hnone.symm.trans hsome
    · exact absurd hover hwithin
    · obtain rfl : n = n' := Option.some.inj (hsome.symm.trans hsome')
      rw [← passes_one addrKey hcall] at htook
      obtain ⟨m, hstate, hcall', hfault⟩ :=
        ih (Prod.ext htook.key htook.buff) (htook.call.trans hcall)
      refine ⟨1 + m, ?_⟩
      rw [passes_add]
      exact ⟨hstate, hcall', hfault.trans htook.fault⟩

/-- Behind the complete packets there is an end, an error, a part of a packet, or one with a length
beyond its block. -/
theorem exists_rest (addrKey key : ShKey) (buff : Bytes) : ∃ key' rest,
    Relation.ReflTransGen (TakesPacket addrKey) (key, buff) (key', rest) ∧
      ((rest.length < 4 ∨ Rejected key' rest) ∨
        4 ≤ rest.length ∧ ¬ Rejected key' rest ∧
          (packetLen rest = none ∨ (packetLen rest).isSome = true ∧ Overlong key' rest)) := by
  by_cases hlen : buff.length < 4
  · exact ⟨key, buff, .refl, Or.inl (Or.inl hlen)⟩
  by_cases hrejected : Rejected key buff
  · exact ⟨key, buff, .refl, Or.inl (Or.inr hrejected)⟩
  cases hsome : packetLen buff with
  | none => exact ⟨key, buff, .refl, Or.inr ⟨Nat.not_lt.mp hlen, hrejected, Or.inl hsome⟩⟩
  | some n =>
    by_cases hover : Overlong key buff
    · exact ⟨key, buff, .refl, Or.inr ⟨Nat.not_lt.mp hlen, hrejected,
        Or.inr ⟨by rw [hsome]; rfl, hover⟩⟩⟩
    have hn := packetLen_pos hsome
    obtain ⟨key', rest, htaken, hrest⟩ :=
      exists_rest addrKey (keyBehind addrKey key buff) (buff.drop n)
    exact ⟨key', rest, .head ⟨Nat.not_lt.mp hlen, hrejected, n, hsome, hover, rfl⟩ htaken, hrest⟩
termination_by buff.length
decreasing_by
  rw [List.length_drop]
  omega

/-- The call has returned, and has not read behind a block. Without an error it has taken every
complete packet and left the rest. -/
def Returned (addrKey : ShKey) (link after : EslLink) : Prop :=
  after.call = none ∧ after.fault = false ∧ (after.closed = none →
    Relation.ReflTransGen (TakesPacket addrKey) (link.key, link.recvBuff) (after.key,
      after.recvBuff) ∧ packetLen after.recvBuff = none)

theorem packetLen_short (h : buff.length < 4) : packetLen buff = none := by
  unfold packetLen
  split
  · exact if_pos (by omega)
  · exact if_pos (by omega)

/-- While its socket yields nothing, a read call returns if and only if what is left behind the
complete packets, none of which has a length beyond its block, has less than four bytes or is
rejected. -/
theorem readb_returns_iff (addrKey : ShKey) (link : EslLink) (c : EslCall)
    (hcall : link.call = some c)
    (hfault : link.fault = false) :
    (∃ n, Returned addrKey link (link.passes addrKey n)) ↔
      ∃ key rest, Relation.ReflTransGen (TakesPacket addrKey) (link.key, link.recvBuff)
        (key, rest) ∧ (rest.length < 4 ∨ Rejected key rest) := by
  constructor
  · -- what is left behind the packets that are taken decides what the loop does
    rintro ⟨n, hreturned, hsound, -⟩
    obtain ⟨key, rest, htaken, hend | ⟨hlen, hright, hpart⟩⟩ :=
      exists_rest addrKey link.key link.recvBuff
    · exact ⟨key, rest, htaken, hend⟩
    · exfalso
      obtain ⟨m, hstate, hcall', -⟩ := passes_take htaken rfl hcall
      obtain ⟨rfl, rfl⟩ := Prod.mk.inj hstate
      have hsum : (link.passes addrKey m).passes addrKey n = link.passes addrKey n := by
        rw [← passes_add, Nat.add_comm, passes_add, passes_returned hreturned m]
      rcases hpart with hpart | ⟨hsome, hover⟩
      · -- the loop is stuck at the part of a packet
        have hstuck : (link.passes addrKey m).passes addrKey n = link.passes addrKey m := by
          refine passes_same ?_ n
          rw [passes_one addrKey hcall']
          rcases pass_cases addrKey c hlen with ⟨hwrong, -⟩ | ⟨-, ⟨-, hsame⟩ | ⟨k, hsome, -⟩⟩
          · exact absurd hwrong hright
          · exact hsame
          · exact nomatch hpart.symm.trans hsome
        rw [← hsum, hstuck, hcall'] at hreturned
        exact nomatch hreturned
      · -- the packet makes the reader read behind a block
        have hstray : (link.passes addrKey m).passes addrKey 1 = (link.passes addrKey m).stray := by
          rw [passes_one addrKey hcall']
          rcases pass_cases addrKey c hlen with ⟨hwrong, -⟩ | ⟨-,
              ⟨hnone, -⟩ | ⟨k, -, ⟨-, hrun⟩ | ⟨hwithin, -⟩⟩⟩
          · exact absurd hwrong hright
          · rw [hnone] at hsome
            exact nomatch hsome
          · exact hrun
          · exact absurd hover hwithin
        obtain _ | n := n
        · rw [← hsum] at hreturned
          exact nomatch hcall'.symm.trans hreturned
        · rw [Nat.add_comm, passes_add _ _ 1 n, hstray, passes_returned rfl] at hsum
          rw [Nat.add_comm n 1, ← hsum] at hsound
          exact nomatch hsound
  · -- the packets are taken one in each pass, and the pass after them returns
    rintro ⟨key, rest, htaken, hend⟩
    obtain ⟨n, hstate, hcall', hsound⟩ := passes_take htaken rfl hcall
    refine ⟨n + 1, ?_⟩
    rw [passes_add, passes_one addrKey hcall']
    rw [← hstate] at htaken
    obtain ⟨rfl, rfl⟩ := Prod.mk.inj hstate
    rw [hfault] at hsound
    generalize link.passes addrKey n = after at *
    rcases hend with hshort | hrejected
    · rw [pass_short addrKey c hshort]
      cases c with
      | read dataLen => exact ⟨rfl, hsound, fun _ => ⟨htaken, packetLen_short hshort⟩⟩
      | readb => exact ⟨rfl, hsound, fun _ => ⟨htaken, packetLen_short hshort⟩⟩
    · rcases pass_cases addrKey c hrejected.1 with ⟨-, err, habort⟩ | ⟨hright, -⟩
      · rw [habort]
        exact ⟨rfl, hsound, fun hopen => nomatch hopen⟩
      · exact absurd hrejected hright

/-- A call that has been given these bytes. -/
def reading (buff : Bytes) : EslLink :=
  { EslLink.init ashkeyBlank with recvBuff := buff, call := some .readb }

/-- A packet with two bytes, one without data, and one byte of the next. -/
def twoPackets : Bytes :=
  EslPacket.bytes { crc := eslChecksum [97, 98], raw := [97, 98] } ++
    [0x22, 0x22, 0, 0, 0, 0, 0, 0, 0x22]

/-- Both packets are taken. -/
theorem readb_returns_two : ∃ n, Returned ashkeyBlank (reading twoPackets)
    ((reading twoPackets).passes ashkeyBlank n) := by
  have hdecoded : decodedAt ashkeyBlank twoPackets = some (some [97, 98]) :=
    shdecode_short _ (by decide)
  have hfirst : TakesPacket ashkeyBlank (ashkeyBlank, twoPackets)
      (ashkeyBlank, [0x22, 0x22, 0, 0, 0, 0, 0, 0, 0x22]) := by
    refine ⟨by decide, ?_, 10, by decide +kernel, ?_, by decide +kernel⟩
    · rintro ⟨-, hmagic | ⟨-, hwrong⟩⟩
      · exact hmagic (by decide +kernel)
      · rw [WrongPacket, if_pos (by decide +kernel)] at hwrong
        obtain ⟨-, decoded, hsome, hcrc⟩ := hwrong
        obtain rfl := Option.some.inj (hdecoded.symm.trans hsome)
        exact hcrc (by decide +kernel)
    · rintro ⟨-, -, hnone⟩
      exact nomatch hdecoded.symm.trans hnone
  have hsecond : TakesPacket ashkeyBlank (ashkeyBlank, [0x22, 0x22, 0, 0, 0, 0, 0, 0, 0x22])
      (ashkeyBlank, [0x22]) := by
    refine ⟨by decide, ?_, 8, rfl, fun hover => hover.2.1 rfl, rfl⟩
    -- the packet has no data whose checksum could be wrong
    exact fun h => h.2.elim (fun hbad => hbad rfl) fun hbad => hbad.2.1 rfl
  exact (readb_returns_iff ashkeyBlank (reading twoPackets) .readb rfl rfl).mpr
    ⟨_, [0x22], .head hfirst (.single hsecond), Or.inl (by decide)⟩

/-- The first four bytes of a packet, of which no more follows. -/
theorem readb_never_returns : ¬ ∃ n, Returned ashkeyBlank (reading [0x22, 0x22, 0, 0])
    ((reading [0x22, 0x22, 0, 0]).passes ashkeyBlank n) := by
  rintro ⟨n, hreturned⟩
  rw [passes_same rfl] at hreturned
  exact nomatch hreturned.1

end LibShare.Net
