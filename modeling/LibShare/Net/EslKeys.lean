import LibShare.Net.EslAuth
import LibShare.Net.EslStream

/-!
# libshare — key agreement of the encrypted layer

A client and a server that run the handshake honestly. The client sends its key
`K` in an `ESL_INIT_CERT` message, the server sends the key `A` of the client's
address in an `ESL_INIT_PRIV` message, and each side stores the exclusive or of
the two when the other's message arrives. From then on it may write.

The two directions do not depend on each other. What a side has received and
not yet processed, what is on the way to it and what is still in the peer's
`send_buff` is, in this order, the peer's control message, if the side has no
session yet, and a row of data packets (`Framed`). So the control message is
processed before any packet, and the packets leave the session alone.

Framing is lost when the size field of a packet is not the size of its segment:
`shencode` may leave `raw_data_len` unset, and what the variable then holds need
not fit into 16 bits. `session_keys_agree` is the result for writes that cannot
do this, `misframed_packet_changes_key` what happens otherwise.
-/

namespace LibShare.Net

open LibShare.Mem

/-! ## The control message in memory -/

section Control

variable (mode : UInt16) (key : ShKey) (tail : Bytes)

/-- A control packet has forty bytes. -/
theorem length_eslControl : (eslControl mode key).length = 40 := by
  simp only [eslControl, List.length_append, length_toBytes]
  rfl

theorem control_magic : u16At (eslControl mode key ++ tail) 0 = shmem16Magic := by
  simp only [u16At, eslControl, leBytes16, List.cons_append, List.nil_append]
  exact leWord16_leBytes16 _

theorem control_mode : htons (u16At (eslControl mode key ++ tail) 2) = mode := by
  have h : u16At (eslControl mode key ++ tail) 2 = htons mode := by
    simp only [u16At, eslControl, leBytes16, List.cons_append, List.nil_append]
    exact leWord16_leBytes16 _
  rw [h, htons_htons]

/-- The key in a control packet is the one that has been put there. -/
theorem control_key : keyAt (eslControl mode key ++ tail) 8 = key := by
  have halg : u16At (eslControl mode key ++ tail) 8 = key.alg := by
    simp only [u16At, eslControl, ShKey.toBytes, leBytes16, List.cons_append, List.nil_append]
    exact leWord16_leBytes16 _
  have hcrc : u16At (eslControl mode key ++ tail) 10 = key.crc := by
    simp only [u16At, eslControl, ShKey.toBytes, leBytes16, List.cons_append, List.nil_append]
    exact leWord16_leBytes16 _
  -- past the header and the first two fields come the code words
  have hdrop : ∀ n, (eslControl mode key ++ tail).drop (12 + n) =
      (key.code.toList.flatMap leBytes32 ++ tail).drop n := by
    intro n
    rw [← List.drop_drop]
    simp only [eslControl, ShKey.toBytes, leBytes16, List.cons_append, List.nil_append,
      List.drop_succ_cons, List.drop_zero]
  unfold keyAt
  rw [halg, hcrc]
  obtain ⟨alg, crc, code⟩ := key
  congr 1
  apply Vector.ext
  intro i hi
  have hword := word_in_row tail code.toList i (by simpa using hi)
  rw [Vector.getElem_ofFn]
  rw [show 8 + 4 + 4 * i = 12 + 4 * i by omega, hdrop, hword, leWord32_leBytes32]
  simp

end Control

/-! ## Packets of a write -/

/-- The packets of the write keep their framing: `raw_data_len` is set by the
first piece, or what it holds fits into the size field. -/
def WriteFits (u : Unset) (data : Bytes) : Prop :=
  u.rawDataLen < 65536 ∨ ∀ chunk, (eslChunks data).head? = some chunk → ChunkClear chunk

/-- The packets of the passes fit, if the first length does or the first chunk sets it. -/
theorem passes_fit {k : ShKey} {u : Unset} (chunks : List Bytes) : ∀ (bOf rawDataLen : Nat),
    (∀ c ∈ chunks, c.length ≤ 8192) →
    (rawDataLen < 65536 ∨ ∀ chunk, chunks.head? = some chunk → ChunkClear chunk) →
    ∀ p ∈ eslWritePasses k u bOf rawDataLen chunks, p.Fits := by
  induction chunks with
  | nil => simp [eslWritePasses]
  | cons chunk rest ih =>
    intro bOf rawDataLen hlen hfirst p hp
    have hlen' : ∀ c ∈ rest, c.length ≤ 8192 := fun c hc => hlen c (by simp [hc])
    cases henc : shencode chunk k with
    | none =>
      -- the length is the one of the pass before
      have hraw : rawDataLen < 65536 := by
        rcases hfirst with hraw | hclear
        · exact hraw
        · exact absurd ((shencode_eq_none k).mp henc) (hclear chunk rfl)
      simp only [eslWritePasses, henc] at hp
      rcases List.mem_cons.mp hp with rfl | hp
      · simpa [EslPacket.Fits] using hraw
      · exact ih _ _ hlen' (Or.inl (by simpa using hraw)) p hp
    | some enc =>
      have hfit := (yield_of_encoded (hlen chunk (by simp)) henc).1
      simp only [eslWritePasses, henc] at hp
      rcases List.mem_cons.mp hp with rfl | hp
      · exact hfit
      · exact ih _ _ hlen' (Or.inl hfit) p hp

/-- The packets of a write fit, if the write does. -/
theorem eslWriteData_fits {k : ShKey} {u : Unset} {data : Bytes} (h : WriteFits u data) :
    ∀ p ∈ eslWriteData k u data, p.Fits :=
  passes_fit (eslChunks data) 0 u.rawDataLen (eslChunks_length data) h

/-! ## Framing -/

/-- Bytes on the way to a side: `head` and whole packets. If the sender is gone
(`whole` is not set), the last of them may be missing. -/
def Framed (bytes : Bytes) (whole : Bool) (head : Bytes) : Prop :=
  ∃ (packets : List EslPacket) (lost : Bytes), (∀ p ∈ packets, p.Fits) ∧
    (whole = true → lost = []) ∧ bytes ++ lost = head ++ packets.flatMap EslPacket.bytes

/-- Whole packets may come behind a stream that is framed. -/
theorem Framed.append {bytes head : Bytes} (h : Framed bytes true head) {packets : List EslPacket}
    (hfits : ∀ p ∈ packets, p.Fits) :
    Framed (bytes ++ packets.flatMap EslPacket.bytes) true head := by
  obtain ⟨before, lost, hbefore, hlost, heq⟩ := h
  rw [hlost rfl, List.append_nil] at heq
  refine ⟨before ++ packets, [], ?_, fun _ => rfl, ?_⟩
  · intro p hp
    exact (List.mem_append.mp hp).elim (hbefore p) (hfits p)
  · rw [heq, List.append_nil, List.flatMap_append, List.append_assoc]

/-- The sender closes its socket and drops what it has not sent. -/
theorem Framed.cut {bytes dropped head : Bytes} {whole : Bool}
    (h : Framed (bytes ++ dropped) whole head) : Framed bytes false head := by
  obtain ⟨packets, lost, hfits, -, heq⟩ := h
  refine ⟨packets, dropped ++ lost, hfits, fun hcon => absurd hcon (by decide), ?_⟩
  rw [← List.append_assoc, heq]

/-- What one side's call does to what the other side will receive. -/
inductive Emits (s t : EslSock) : Prop
  | packets (pk : List EslPacket) (hfits : ∀ p ∈ pk, p.Fits) (hopen : pk ≠ [] → s.live = true)
      (hlive : t.live = s.live) (hsend : t.sendBuff = s.sendBuff ++ pk.flatMap EslPacket.bytes)
  | closed (hlive : t.live = false) (hsend : t.sendBuff = [])

/-- Nothing has been sent. -/
theorem Emits.same {s t : EslSock} (hlive : t.live = s.live) (hsend : t.sendBuff = s.sendBuff) :
    Emits s t :=
  .packets [] (by simp) (fun h => absurd rfl h) hlive (by simp [hsend])

/-- What is sent after a change that sends nothing is what is sent. -/
theorem Emits.of_same {s s' t : EslSock} (he : Emits s' t) (hlive : s'.live = s.live)
    (hsend : s'.sendBuff = s.sendBuff) : Emits s t := by
  cases he with
  | packets pk hfits hopen hlive' hsend' =>
    exact .packets pk hfits (fun hne => hlive ▸ hopen hne) (hlive'.trans hlive) (hsend ▸ hsend')
  | closed hlive' hsend' => exact .closed hlive' hsend'

/-- What an end sends keeps the stream framed. -/
theorem Framed.emits {s t : EslSock} {bytes head : Bytes}
    (h : Framed (bytes ++ s.sendBuff) s.live head) (he : Emits s t) :
    Framed (bytes ++ t.sendBuff) t.live head := by
  cases he with
  | packets pk hfits hopen hlive hsend =>
    rw [hlive, hsend, ← List.append_assoc]
    by_cases hnil : pk = []
    · subst hnil
      simpa using h
    · rw [hopen hnil] at h ⊢
      exact h.append hfits
  | closed hlive hsend =>
    rw [hlive, hsend, List.append_nil]
    exact h.cut

/-! ## One side -/

/-- The handshake as one side sees it: the message it will receive, its key
until then and its key afterwards. -/
structure Terms where
  mode : UInt16
  sKey : ShKey
  key0 : ShKey
  addrKey : ShKey
  session : ShKey
  notData : mode ≠ eslData
  opening : opens mode = true
  accepted : ¬ (mode = eslInitCert ∧ key0 ≠ ashkeyBlank ∧ key0 ≠ sKey)
  agreed : keyAfter addrKey key0 mode sKey = session

/-- The message. -/
def Terms.hello (h : Terms) : Bytes := eslControl h.mode h.sKey

/-- The invariant of one side; `coming` is what it has not received yet. -/
structure Own (h : Terms) (s : EslSock) (coming : Bytes) (whole : Bool) : Prop where
  addr : s.addrKey = h.addrKey
  crypt_live : s.crypt = true → s.live = true
  call_live : s.call.isSome = true → s.live = true
  /-- a write that waits for the handshake will keep its framing -/
  pending : ∀ u data, s.call = some (.probe (some (u, data))) → WriteFits u data
  key : s.live = true → s.key = if s.crypt then h.session else h.key0
  framed : s.live = true →
    Framed (s.recvBuff ++ coming) whole (if s.crypt then [] else h.hello)
  encoded : ∀ k ∈ s.encoded, k = h.session
  decoded : ∀ k ∈ s.decoded, k = h.session

section OneSide

variable {h : Terms} {s : EslSock} {coming : Bytes} {whole : Bool}

/-- An end that closes keeps its terms. -/
theorem Own.close (own : Own h s coming whole) : Own h s.shnetClose coming whole where
  addr := own.addr
  crypt_live := fun hc => absurd hc (by simp [EslSock.shnetClose])
  call_live := fun hc => absurd hc (by simp [EslSock.shnetClose])
  pending := fun _ _ hc => absurd hc (by simp [EslSock.shnetClose])
  key := fun hc => absurd hc (by simp [EslSock.shnetClose])
  framed := fun hc => absurd hc (by simp [EslSock.shnetClose])
  encoded := own.encoded
  decoded := own.decoded

/-- A write puts packets under the session key behind what is on the way. -/
theorem Own.writeNow (own : Own h s coming whole) {u : Unset} {data : Bytes}
    (hw : WriteFits u data) :
    Own h (s.writeNow u data) coming whole ∧ Emits s (s.writeNow u data) := by
  unfold EslSock.writeNow
  by_cases hcrypt : s.crypt = true
  · have hlive := own.crypt_live hcrypt
    have hkey : s.key = h.session := by
      rw [own.key hlive, if_pos hcrypt]
    rw [if_pos hcrypt]
    refine ⟨⟨own.addr, own.crypt_live, own.call_live, own.pending, own.key, own.framed, ?_,
      own.decoded⟩, .packets _ (eslWriteData_fits hw) (fun _ => hlive) rfl rfl⟩
    intro k hk
    rcases List.mem_append.mp hk with hold | hnew
    · exact own.encoded k hold
    · rw [(List.mem_replicate.mp hnew).2, hkey]
  · rw [if_neg hcrypt]
    exact ⟨own, .same rfl rfl⟩

/-- A call that begins keeps the terms, and sends its packets. -/
theorem Own.begin (own : Own h s coming whole) {use : EslUse}
    (hw : ∀ u data, use = .probe (some (u, data)) → WriteFits u data) :
    Own h (s.begin use) coming whole ∧ Emits s (s.begin use) := by
  have hcall : ∀ u data, (if s.live then some use else none) = some (.probe (some (u, data))) →
      WriteFits u data := by
    intro u data heq
    split at heq
    · exact hw u data (Option.some.inj heq)
    · cases heq
  have hopen : (if s.live then some use else none).isSome = true → s.live = true := by
    cases s.live <;> simp
  unfold EslSock.begin
  split
  · exact ⟨⟨own.addr, own.crypt_live, hopen, hcall, own.key, own.framed, own.encoded,
      own.decoded⟩, .same rfl rfl⟩
  · exact ⟨⟨own.addr, own.crypt_live, hopen, hcall, own.key, own.framed, own.encoded,
      own.decoded⟩, .same rfl rfl⟩
  · exact ⟨⟨own.addr, own.crypt_live, hopen, hcall, own.key, own.framed, own.encoded,
      own.decoded⟩, .same rfl rfl⟩

-- A call that has returned is not in anybody's way.
/-- A call that has ended keeps the terms. -/
theorem Own.idle (own : Own h s coming whole) (given procBuff : Bytes) :
    Own h { s with call := none, given := given, procBuff := procBuff } coming whole :=
  ⟨own.addr, own.crypt_live, fun hc => absurd hc (by simp), fun _ _ hc => absurd hc (by simp),
    own.key, own.framed, own.encoded, own.decoded⟩

/-- A call that ends keeps the terms. -/
theorem Own.finish (own : Own h s coming whole) {use : EslUse} (hcall : s.call = some use) :
    Own h (s.finish use) coming whole ∧ Emits s (s.finish use) := by
  unfold EslSock.finish
  split
  · exact ⟨own.idle _ _, .same rfl rfl⟩
  · exact ⟨own.idle _ _, .same rfl rfl⟩
  · exact ⟨own.idle _ _, .same rfl rfl⟩
  · next u data =>
    obtain ⟨hown, hemit⟩ := (own.idle s.given s.procBuff).writeNow (own.pending u data hcall)
    exact ⟨hown, hemit.of_same rfl rfl⟩

/-- A pass before the session: the message is incomplete, or it is processed. -/
theorem Own.pass_before (own : Own h s coming whole) {use : EslUse} (hcall : s.call = some use)
    (hcrypt : s.crypt = false) :
    Own h (s.pass use) coming whole ∧ Emits s (s.pass use) := by
  have hlive := own.call_live (by rw [hcall]; rfl)
  have hkey : s.key = h.key0 := by
    rw [own.key hlive, hcrypt]
    rfl
  obtain ⟨packets, lost, hfits, hlost, heq⟩ := own.framed hlive
  rw [hcrypt, if_neg (by decide), List.append_assoc] at heq
  have hword : ∀ of, of + 1 < s.recvBuff.length →
      u16At s.recvBuff of = u16At (h.hello ++ packets.flatMap EslPacket.bytes) of := by
    intro of hof
    rw [← heq, u16At_append hof]
  by_cases hshort : s.recvBuff.length < 4
  · rw [EslSock.pass, if_pos hshort]
    exact own.finish hcall
  have hmagic : u16At s.recvBuff 0 = shmem16Magic := by
    rw [hword 0 (by omega), Terms.hello, control_magic]
  have hmode : htons (u16At s.recvBuff 2) = h.mode := by
    rw [hword 2 (by omega), Terms.hello, control_mode]
  by_cases hlen : s.recvBuff.length < 40
  · have hsame : s.pass use = s := by
      rw [EslSock.pass, if_neg hshort, if_neg (not_not.mpr hmagic),
        if_neg (by rw [hmode]; exact h.notData), eslReadCtrl, if_pos hlen]
    rw [hsame]
    exact ⟨own, .same rfl rfl⟩
  -- the whole message is in the buffer
  have hlen40 : h.hello.length = 40 := length_eslControl h.mode h.sKey
  have hprefix : h.hello <+: s.recvBuff :=
    List.prefix_of_prefix_length_le ⟨_, heq.symm⟩ (List.prefix_append _ _) (by omega)
  obtain ⟨more, hmore⟩ := hprefix
  have hrest : more ++ (coming ++ lost) = packets.flatMap EslPacket.bytes := by
    rw [← hmore, List.append_assoc] at heq
    exact List.append_cancel_left heq
  have hctrl : ctrlAt s.recvBuff = some (h.mode, h.sKey) := by
    rw [ctrlAt, if_neg hlen, if_neg (not_not.mpr hmagic), if_neg (by rw [hmode]; exact h.notData),
      hmode, ← hmore, Terms.hello, control_key]
  have hdrop : s.recvBuff.drop 40 = more := by
    rw [← hmore, ← hlen40, List.drop_left]
  rw [pass_ctrl hctrl use, if_neg (by rw [hkey]; exact h.accepted)]
  refine ⟨⟨own.addr, fun _ => hlive, fun _ => hlive, own.pending, ?_, ?_, own.encoded,
    own.decoded⟩, .same rfl rfl⟩
  · intro _
    rw [own.addr, hkey, hcrypt, h.opening, h.agreed]
    rfl
  · intro _
    rw [hcrypt, h.opening, hdrop]
    exact ⟨packets, lost, hfits, hlost, by rw [List.append_assoc, hrest]; rfl⟩

-- A packet has been taken off the buffer.
/-- A packet that has been taken off the front keeps the terms, if the keys it has brought are
the session's. -/
theorem Own.took (own : Own h s coming whole) (hcrypt : s.crypt = true)
    {rbuff : Bytes} (hframed : Framed (rbuff ++ coming) whole []) (ks : List ShKey)
    (hks : ∀ k ∈ ks, k = h.session) :
    Own h { s with recvBuff := rbuff, decoded := s.decoded ++ ks } coming whole := by
  refine ⟨own.addr, own.crypt_live, own.call_live, own.pending, own.key, fun _ => ?_, own.encoded,
    ?_⟩
  · show Framed (rbuff ++ coming) whole (if s.crypt then [] else h.hello)
    rw [if_pos hcrypt]
    exact hframed
  · intro k hk
    exact (List.mem_append.mp hk).elim (own.decoded k) (hks k)

/-- What is delivered keeps the terms. -/
theorem Own.append (own : Own h s coming whole) (use : EslUse) (data : Bytes) :
    Own h (s.append use data) coming whole ∧ Emits s (s.append use data) := by
  unfold EslSock.append
  split
  · exact ⟨⟨own.addr, own.crypt_live, own.call_live, own.pending, own.key, own.framed, own.encoded,
      own.decoded⟩, .same rfl rfl⟩
  · exact ⟨⟨own.addr, own.crypt_live, own.call_live, own.pending, own.key, own.framed, own.encoded,
      own.decoded⟩, .same rfl rfl⟩
  · exact ⟨own, .same rfl rfl⟩

/-- A pass in the session: the packet is incomplete, or it is decoded with the
session key. -/
theorem Own.pass_session (own : Own h s coming whole) {use : EslUse} (hcall : s.call = some use)
    (hcrypt : s.crypt = true) :
    Own h (s.pass use) coming whole ∧ Emits s (s.pass use) := by
  have hlive := own.call_live (by rw [hcall]; rfl)
  have hkey : s.key = h.session := by
    rw [own.key hlive, if_pos hcrypt]
  have hrow : Framed (s.recvBuff ++ coming) whole [] := by
    simpa [hcrypt] using own.framed hlive
  obtain ⟨packets, lost, hfits, hlost, heq⟩ := hrow
  rw [List.append_assoc, List.nil_append] at heq
  by_cases hshort : s.recvBuff.length < 4
  · rw [EslSock.pass, if_pos hshort]
    exact own.finish hcall
  cases packets with
  | nil =>
    -- nothing is on the way, so the buffer is empty
    rw [List.flatMap_nil, List.append_eq_nil_iff] at heq
    exact absurd (by simp [heq.1]) hshort
  | cons p ps =>
    rw [List.flatMap_cons] at heq
    have hp := hfits p (by simp)
    have hmagic : u16At s.recvBuff 0 = shmem16Magic := by
      rw [u16At_recv heq (by omega), header_magic]
    have hmode : htons (u16At s.recvBuff 2) = eslData := by
      rw [u16At_recv heq (by omega), header_mode]
    unfold EslSock.pass
    rw [if_neg hshort, if_neg (not_not.mpr hmagic), if_pos hmode]
    by_cases hlen : s.recvBuff.length < p.bytes.length
    · rw [eslReadData_incomplete hp heq hlen]
      exact ⟨own, .same rfl rfl⟩
    obtain ⟨more, hmore, hrest⟩ := recv_split heq (Nat.not_lt.mp hlen)
    have hframed : Framed (more ++ coming) whole [] := by
      refine ⟨ps, lost, fun q hq => hfits q (by simp [hq]), hlost, ?_⟩
      rw [List.append_assoc, hrest, List.nil_append]
    have hown := own.took hcrypt hframed [s.key] (by simp [hkey])
    rw [hmore]
    rcases eslReadData_complete (k := s.key) hp more with
      ⟨data, -, hread | ⟨rfl, hread⟩⟩ | ⟨-, hread | ⟨left, hread⟩⟩
    · rw [hread]
      obtain ⟨hown', hemit⟩ := hown.append use data
      exact ⟨hown', hemit.of_same rfl rfl⟩
    · rw [hread]
      exact ⟨by simpa using own.took hcrypt hframed [] (by simp), .same rfl rfl⟩
    · -- the reader reads behind a block: nothing more happens on its side
      rw [hread]
      have hend := hown.close
      exact ⟨⟨hend.addr, hend.crypt_live, hend.call_live, hend.pending, hend.key, hend.framed,
        hend.encoded, hend.decoded⟩, .closed rfl rfl⟩
    · -- the checksum is wrong: the connection is closed
      rw [hread]
      exact ⟨hown.close, .closed rfl rfl⟩

/-- One pass of the reader keeps the terms. -/
theorem Own.pass (own : Own h s coming whole) {use : EslUse} (hcall : s.call = some use) :
    Own h (s.pass use) coming whole ∧ Emits s (s.pass use) := by
  cases hcrypt : s.crypt with
  | false => exact own.pass_before hcall hcrypt
  | true => exact own.pass_session hcall hcrypt

end OneSide

/-! ## Two sides -/

/-- The sides of a connection. -/
inductive Side
  | client
  | server
deriving DecidableEq

def Side.peer : Side → Side
  | .client => .server
  | .server => .client

theorem Side.peer_ne (x : Side) : x.peer ≠ x := by
  cases x <;> decide

theorem Side.eq_peer {x y : Side} (h : y ≠ x) : y = x.peer := by
  cases x <;> cases y <;> first | rfl | exact absurd rfl h

/-- The sockets of the two sides, and the bytes on the way to each. -/
structure EslPair where
  sock : Side → EslSock
  wire : Side → Bytes

/-- What one side does, or what happens to it. -/
inductive EndEvent
  | read (dataLen : Nat)
  | readb
  | write (u : Unset) (data : Bytes)
  | verify
  | close
  /-- a `read(2)` that returns `count` bytes, or what there is -/
  | recv (count : Nat)
  /-- a `write(2)` that accepts `count` bytes -/
  | flush (count : Nat)

/-- The event as the side's socket sees it. -/
def EslPair.sockEvent (p : EslPair) (x : Side) : EndEvent → SockEvent
  | .read dataLen => .read dataLen
  | .readb => .readb
  | .write u data => .write u data
  | .verify => .verify
  | .close => .close
  | .recv count => .recv ((p.wire x).take count)
  | .flush count => .flush count

/-- One event at one side. Without a call in progress nothing is received. -/
def EslPair.step (p : EslPair) (x : Side) (ev : EndEvent) : EslPair :=
  { sock := Function.update p.sock x ((p.sock x).step (p.sockEvent x ev))
    wire := match ev with
      | .recv count =>
        if (p.sock x).call.isSome then Function.update p.wire x ((p.wire x).drop count) else p.wire
      | .flush count =>
        Function.update p.wire x.peer (p.wire x.peer ++ (p.sock x).sendBuff.take count)
      | _ => p.wire }

/-- The connection after a list of events. -/
def EslPair.run (p : EslPair) (events : List (Side × EndEvent)) : EslPair :=
  events.foldl (fun p ev => p.step ev.1 ev.2) p

/-- A client with a key connects to a server; `old` is what their descriptors
were used for before. -/
def EslPair.init (old : Side → EslSock) (eslkey listenKey addrKey addrKey' : ShKey) : EslPair :=
  { sock := fun
      | .client => (old .client).shnetClose.eslConnect eslkey addrKey'
      | .server => (old .server).shnetClose.eslAccept listenKey addrKey
    wire := fun _ => [] }

/-- The event does not write packets that break the framing. -/
def EndEvent.Fits : EndEvent → Prop
  | .write u data => WriteFits u data
  | _ => True

/-- Both sides are in the state the handshake puts them in. -/
def PairInv (terms : Side → Terms) (p : EslPair) : Prop :=
  ∀ x, Own (terms x) (p.sock x) (p.wire x ++ (p.sock x.peer).sendBuff) (p.sock x.peer).live

-- Events other than `recv` and `flush`: the socket does not look at the wire.
/-- Every event that neither receives nor flushes keeps the terms. -/
theorem Own.call {h : Terms} {s : EslSock} {coming : Bytes} {whole : Bool}
    (own : Own h s coming whole) {ev : SockEvent}
    (hrecv : ∀ bytes, ev ≠ .recv bytes) (hflush : ∀ count, ev ≠ .flush count)
    (hw : ∀ u data, ev = .write u data → WriteFits u data) :
    Own h (s.step ev) coming whole ∧ Emits s (s.step ev) := by
  unfold EslSock.step
  split
  · exact own.begin (by simp)
  · exact own.begin (by simp)
  · next u data _ =>
    split
    · exact own.writeNow (hw u data rfl)
    · refine own.begin fun u' data' heq => ?_
      cases heq
      exact hw u data rfl
  · split
    · exact ⟨own, .same rfl rfl⟩
    · exact own.begin (by simp)
  · exact ⟨own.close, .closed rfl rfl⟩
  · exact absurd rfl (hrecv _)
  · exact absurd rfl (hflush _)
  · exact ⟨own, .same rfl rfl⟩

/-- A step at one side leaves the other side with what it will receive. -/
theorem PairInv.replace {terms : Side → Terms} {p : EslPair} (h : PairInv terms p) {x : Side}
    {t : EslSock} (hown : Own (terms x) t (p.wire x ++ (p.sock x.peer).sendBuff)
      (p.sock x.peer).live) (hemit : Emits (p.sock x) t) :
    PairInv terms { p with sock := Function.update p.sock x t } := by
  intro y
  by_cases hy : y = x
  · subst hy
    simp only [Function.update_self, Function.update_of_ne y.peer_ne]
    exact hown
  · have hyx := Side.eq_peer hy
    have hpeer : y.peer = x := by
      rw [hyx]
      cases x <;> rfl
    have hold := h y
    simp only [Function.update_of_ne hy, hpeer, Function.update_self]
    rw [hpeer] at hold
    refine ⟨hold.addr, hold.crypt_live, hold.call_live, hold.pending, hold.key, fun hlive => ?_,
      hold.encoded, hold.decoded⟩
    have hframed := hold.framed hlive
    rw [← List.append_assoc] at hframed ⊢
    exact hframed.emits hemit

theorem Side.peer_peer (x : Side) : x.peer.peer = x := by
  cases x <;> rfl

/-- Bytes go from the wire to the receive buffer. -/
theorem PairInv.receive {terms : Side → Terms} {p : EslPair} (h : PairInv terms p) (x : Side)
    (count : Nat) :
    PairInv terms
      { sock := Function.update p.sock x
          { p.sock x with recvBuff := (p.sock x).recvBuff ++ (p.wire x).take count }
        wire := Function.update p.wire x ((p.wire x).drop count) } := by
  intro y
  have hold := h y
  by_cases hy : y = x
  · subst hy
    simp only [Function.update_self, Function.update_of_ne y.peer_ne]
    refine ⟨hold.addr, hold.crypt_live, hold.call_live, hold.pending, hold.key, fun hlive => ?_,
      hold.encoded, hold.decoded⟩
    have hframed := hold.framed hlive
    rw [← List.take_append_drop count (p.wire y), List.append_assoc, ← List.append_assoc] at hframed
    exact hframed
  · have hpeer : y.peer = x := by rw [Side.eq_peer hy, x.peer_peer]
    simp only [Function.update_of_ne hy, hpeer, Function.update_self]
    rw [hpeer] at hold
    exact hold

/-- Bytes go from a `send_buff` to the wire. -/
theorem PairInv.flush {terms : Side → Terms} {p : EslPair} (h : PairInv terms p) (x : Side)
    (count : Nat) :
    PairInv terms
      { sock := Function.update p.sock x
          { p.sock x with sendBuff := (p.sock x).sendBuff.drop count }
        wire := Function.update p.wire x.peer
          (p.wire x.peer ++ (p.sock x).sendBuff.take count) } := by
  intro y
  have hold := h y
  by_cases hy : y = x
  · subst hy
    simp only [Function.update_self, Function.update_of_ne y.peer_ne,
      Function.update_of_ne y.peer_ne.symm]
    exact ⟨hold.addr, hold.crypt_live, hold.call_live, hold.pending, hold.key, hold.framed,
      hold.encoded, hold.decoded⟩
  · have hyx := Side.eq_peer hy
    subst hyx
    rw [x.peer_peer] at hold
    simp only [Function.update_of_ne hy, x.peer_peer, Function.update_self]
    rw [List.append_assoc, List.take_append_drop]
    exact hold

/-- A flush takes bytes off the front of the buffer. -/
theorem step_flush (s : EslSock) (count : Nat) :
    s.step (.flush count) = { s with sendBuff := s.sendBuff.drop count } := by
  cases s with
  | mk live crypt key addrKey recvBuff procBuff sendBuff call given ctrls encoded decoded =>
    cases call <;> rfl

/-- An event at either end keeps the invariant of both. -/
theorem PairInv.step {terms : Side → Terms} {p : EslPair} (h : PairInv terms p) (x : Side)
    {ev : EndEvent} (hfits : ev.Fits) : PairInv terms (p.step x ev) := by
  -- a call that does not look at the wire
  have hquiet : ∀ sev : SockEvent, (∀ bytes, sev ≠ .recv bytes) → (∀ count, sev ≠ .flush count) →
      (∀ u data, sev = .write u data → WriteFits u data) →
      PairInv terms { p with sock := Function.update p.sock x ((p.sock x).step sev) } := by
    intro sev h1 h2 h3
    obtain ⟨hown, hemit⟩ := (h x).call h1 h2 h3
    exact h.replace hown hemit
  cases ev with
  | read dataLen => exact hquiet (.read dataLen) (by simp) (by simp) (by simp)
  | readb => exact hquiet .readb (by simp) (by simp) (by simp)
  | write u data =>
    refine hquiet (.write u data) (by simp) (by simp) fun u' data' heq => ?_
    cases heq
    exact hfits
  | verify => exact hquiet .verify (by simp) (by simp) (by simp)
  | close => exact hquiet .close (by simp) (by simp) (by simp)
  | recv count =>
    cases hcall : (p.sock x).call with
    | none =>
      have hsock : (p.sock x).step (.recv ((p.wire x).take count)) = p.sock x := by
        unfold EslSock.step
        rw [hcall]
      simp only [EslPair.step, EslPair.sockEvent, hsock, hcall, Option.isSome_none,
        Bool.false_eq_true, if_false, Function.update_eq_self]
      exact h
    | some use =>
      have hrecv := h.receive x count
      have hcall' : (Function.update p.sock x { p.sock x with
          recvBuff := (p.sock x).recvBuff ++ (p.wire x).take count } x).call = some use := by
        rw [Function.update_self]
        exact hcall
      have hpass := (hrecv x).pass hcall'
      have hnext := hrecv.replace hpass.1 hpass.2
      simp only [Function.update_self, Function.update_idem] at hnext
      have hopen : (p.sock x).call.isSome = true := by rw [hcall]; rfl
      simp only [EslPair.step, EslPair.sockEvent, step_recv hcall, if_pos hopen]
      exact hnext
  | flush count =>
    have hflush := h.flush x count
    simp only [EslPair.step, EslPair.sockEvent, step_flush]
    exact hflush

/-- A run of events keeps the invariant, by induction on the events. -/
theorem PairInv.run {terms : Side → Terms} (events : List (Side × EndEvent)) :
    ∀ {p : EslPair}, PairInv terms p → (∀ ev ∈ events, ev.2.Fits) →
      PairInv terms (p.run events) := by
  induction events with
  | nil => exact fun h _ => h
  | cons ev events ih =>
    intro p h hfits
    exact ih (h.step ev.1 (hfits ev (by simp))) fun e he => hfits e (by simp [he])

/-! ## Agreement -/

/-- Both ends merge their keys to the same one. -/
theorem shkeyXor_comm (k k' : ShKey) : shkeyXor k k' = shkeyXor k' k := by
  have hcode : Vector.zipWith (· ^^^ ·) k.code k'.code =
      Vector.zipWith (· ^^^ ·) k'.code k.code := by
    apply Vector.ext
    intro i hi
    simp [UInt32.xor_comm]
  unfold shkeyXor
  rw [hcode]

/-- The handshake of a client with a key and a server whose listening socket
has no key or the same one. -/
def handshake (eslkey addrKey addrKey' listenKey : ShKey)
    (hlisten : listenKey = ashkeyBlank ∨ listenKey = eslkey) : Side → Terms
  | .client =>
    { mode := eslInitPriv, sKey := addrKey, key0 := eslkey, addrKey := addrKey'
      session := shkeyXor eslkey addrKey
      notData := by decide
      opening := by decide
      accepted := fun hcon => absurd hcon.1 (by decide)
      agreed := by
        rw [keyAfter, if_neg (by decide), if_pos rfl, shkeyXor_comm] }
  | .server =>
    { mode := eslInitCert, sKey := eslkey, key0 := listenKey, addrKey := addrKey
      session := shkeyXor eslkey addrKey
      notData := by decide
      opening := by decide
      accepted := fun hcon => hlisten.elim (fun hb => hcon.2.1 hb) (fun hk => hcon.2.2 hk)
      agreed := by rw [keyAfter, if_pos rfl] }

/-- The invariant holds of two ends that begin. -/
theorem pairInv_init (old : Side → EslSock) (eslkey listenKey addrKey addrKey' : ShKey)
    (hlisten : listenKey = ashkeyBlank ∨ listenKey = eslkey) :
    PairInv (handshake eslkey addrKey addrKey' listenKey hlisten)
      (EslPair.init old eslkey listenKey addrKey addrKey') := by
  intro x
  cases x with
  | client =>
    refine ⟨rfl, fun hc => absurd hc Bool.false_ne_true, fun hc => absurd hc Bool.false_ne_true,
      (fun _ _ hc => nomatch hc), fun _ => rfl, fun _ => ⟨[], [], by simp, fun _ => rfl, ?_⟩,
      by simp [EslPair.init, EslSock.eslConnect], by simp [EslPair.init, EslSock.eslConnect]⟩
    simp [EslPair.init, EslSock.eslConnect, EslSock.eslAccept, EslSock.shnetClose, Side.peer,
      Terms.hello, handshake]
  | server =>
    refine ⟨rfl, fun hc => absurd hc Bool.false_ne_true, fun hc => absurd hc Bool.false_ne_true,
      (fun _ _ hc => nomatch hc), fun _ => rfl, fun _ => ⟨[], [], by simp, fun _ => rfl, ?_⟩,
      by simp [EslPair.init, EslSock.eslAccept], by simp [EslPair.init, EslSock.eslAccept]⟩
    simp [EslPair.init, EslSock.eslConnect, EslSock.eslAccept, EslSock.shnetClose, Side.peer,
      Terms.hello, handshake]

/-- For every client key, every address of the client, a listening socket
without a key or with the client's, and every sequence of events at the two
sides, that is, every interleaving and every fragmentation, whose writes keep
the framing: when both sides have `SHNET_CRYPT` they have the same key, and
every segment that one side has decoded was decoded with the key that the other
encodes with. -/
theorem session_keys_agree (old : Side → EslSock) (eslkey listenKey addrKey addrKey' : ShKey)
    (hlisten : listenKey = ashkeyBlank ∨ listenKey = eslkey) (events : List (Side × EndEvent))
    (hfits : ∀ ev ∈ events, ev.2.Fits) :
    let p := (EslPair.init old eslkey listenKey addrKey addrKey').run events
    ((p.sock .client).crypt = true → (p.sock .server).crypt = true →
      (p.sock .client).key = (p.sock .server).key) ∧
    ∀ x, ∀ k ∈ (p.sock x).encoded, ∀ k' ∈ (p.sock x.peer).decoded, k = k' := by
  intro p
  have hinv : PairInv (handshake eslkey addrKey addrKey' listenKey hlisten) p :=
    (pairInv_init old eslkey listenKey addrKey addrKey' hlisten).run events hfits
  -- the session key is the same from both sides
  have hsession : ∀ x, (handshake eslkey addrKey addrKey' listenKey hlisten x).session =
      shkeyXor eslkey addrKey := by
    intro x
    cases x <;> rfl
  have hkey : ∀ x, (p.sock x).crypt = true → (p.sock x).key = shkeyXor eslkey addrKey := by
    intro x hcrypt
    rw [(hinv x).key ((hinv x).crypt_live hcrypt), if_pos hcrypt, hsession]
  refine ⟨fun hc hs => (hkey .client hc).trans (hkey .server hs).symm, ?_⟩
  intro x k hk k' hk'
  rw [(hinv x).encoded k hk, (hinv x.peer).decoded k' hk', hsession, hsession]

/-- The two control messages are exchanged; the client's call returns. -/
def handshakeEvents : List (Side × EndEvent) :=
  [(.server, .flush 40), (.client, .readb), (.client, .recv 40), (.client, .recv 0),
    (.client, .flush 40), (.server, .readb), (.server, .recv 40)]

/-- A connection between two unused descriptors, with blank keys. -/
def blankPair : EslPair :=
  EslPair.init (fun _ => EslSock.zero) ashkeyBlank ashkeyBlank ashkeyBlank ashkeyBlank

/-- A handshake and a write. -/
theorem session_keys_agree_blank :
    let p := blankPair.run (handshakeEvents ++ [(.client, .write zeroUnset [97])])
    ((p.sock .client).crypt = true → (p.sock .server).crypt = true →
      (p.sock .client).key = (p.sock .server).key) ∧
    ∀ x, ∀ k ∈ (p.sock x).encoded, ∀ k' ∈ (p.sock x.peer).decoded, k = k' := by
  refine session_keys_agree (fun _ => EslSock.zero) ashkeyBlank ashkeyBlank ashkeyBlank ashkeyBlank
    (Or.inl rfl) (handshakeEvents ++ [(.client, .write zeroUnset [97])]) ?_
  simp [handshakeEvents, EndEvent.Fits, WriteFits, zeroUnset]

/-! ## A packet that loses the framing

A segment of 65536 bytes has a size field of zero. The reader takes the header
for an empty packet and the segment for the packets that follow. -/

/-- The key in the unset memory. -/
def strayKey : ShKey := { ashkeyBlank with code := Vector.replicate 7 1 }

/-- Unset memory that holds a control message. -/
def strayUnset : Unset :=
  { rawDataLen := 65536, rawData := fun _ i => (eslControl eslInitPriv strayKey).getD i 0 }

/-- Data that `shencode` takes for an encrypted segment. -/
def magicData : Bytes := [0x22, 0x88, 0x88, 0x22, 0, 0, 0, 0]

/-- The first bytes of the packet: a header, and the control message. -/
def strayBytes : Bytes :=
  leBytes16 shmem16Magic ++ leBytes16 eslData ++ leBytes16 (eslChecksum magicData) ++
    leBytes16 0 ++ eslControl eslInitPriv strayKey

/-- The packets of a write whose first length is unset. -/
theorem eslWriteData_stray (key : ShKey) :
    eslWriteData key strayUnset magicData =
      [{ crc := eslChecksum magicData
         raw := (List.range 65536).map (strayUnset.rawData 0) }] := by
  have hchunks : eslChunks magicData = [magicData] := by
    rw [eslChunks, if_neg (by decide), eslChunks, if_pos (by decide)]
    rfl
  have hnone : shencode magicData key = none :=
    (shencode_eq_none key).mpr (by decide)
  rw [eslWriteData, hchunks]
  simp only [eslWritePasses, hnone]
  rfl

/-- The bytes of that write begin with a header of the wrong length. -/
theorem bytes_stray (key : ShKey) : ∃ more,
    (eslWriteData key strayUnset magicData).flatMap EslPacket.bytes = strayBytes ++ more := by
  have hraw : ((List.range 65536).map (strayUnset.rawData 0)).take 40 =
      eslControl eslInitPriv strayKey := by
    rw [← List.map_take, List.take_range, show min 40 65536 = 40 from rfl]
    decide +kernel
  have hlen : ((List.range 65536).map (strayUnset.rawData 0)).length = 65536 := by
    rw [List.length_map, List.length_range]
  rw [eslWriteData_stray, List.flatMap_singleton]
  generalize (List.range 65536).map (strayUnset.rawData 0) = raw at hraw hlen
  have hsplit : raw = eslControl eslInitPriv strayKey ++ raw.drop 40 := by
    rw [← hraw, List.take_append_drop]
  have hsize : htons (UInt16.ofNat 65536) = 0 := by decide
  refine ⟨raw.drop 40, ?_⟩
  rw [EslPacket.bytes, hlen, hsize, strayBytes, List.append_assoc _ (eslControl _ _), ← hsplit]

/-- A run of both ends in two parts. -/
theorem run_append_pair (p : EslPair) (xs ys : List (Side × EndEvent)) :
    p.run (xs ++ ys) = (p.run xs).run ys := List.foldl_append

/-- After the handshake the client writes the data and the server receives the
first bytes of the packet. -/
def strayEvents : List (Side × EndEvent) :=
  [(.client, .write strayUnset magicData), (.client, .flush 48), (.server, .recv 48),
    (.server, .recv 0)]

/-- After the stray write the server waits for bytes that never come, and the client is none the
wiser. -/
theorem stray_run {p : EslPair} {use : EslUse} (hidle : (p.sock .client).call = none)
    (hcrypt : (p.sock .client).crypt = true) (hsend : (p.sock .client).sendBuff = [])
    (hwire : p.wire .server = []) (hcall : (p.sock .server).call = some use) :
    ((p.run strayEvents).sock .client).crypt = true ∧
      ((p.run strayEvents).sock .client).key = (p.sock .client).key ∧
      (p.run strayEvents).sock .server =
        ((p.sock .server).step (.recv strayBytes)).step (.recv []) := by
  obtain ⟨more, hmore⟩ := bytes_stray (p.sock .client).key
  have hlen : strayBytes.length = 48 := by decide +kernel
  -- the client's side: the packet is appended and its first bytes are sent
  have hwrite : (p.sock .client).step (.write strayUnset magicData) =
      { p.sock .client with
        sendBuff := strayBytes ++ more
        encoded := (p.sock .client).encoded ++
          List.replicate (eslWriteData (p.sock .client).key strayUnset magicData).length
            (p.sock .client).key } := by
    unfold EslSock.step
    rw [hidle]
    simp only [hcrypt, if_true, EslSock.writeNow, hsend, List.nil_append, hmore]
  have hne : Side.server ≠ Side.client := by decide
  set c := (p.sock .client).step (.write strayUnset magicData) with hc
  have h1 : p.step .client (.write strayUnset magicData) =
      { p with sock := Function.update p.sock .client c } := rfl
  have h2 : EslPair.step { p with sock := Function.update p.sock .client c } .client (.flush 48) =
      { sock := Function.update p.sock .client (c.step (.flush 48))
        wire := Function.update p.wire .server strayBytes } := by
    simp only [EslPair.step, EslPair.sockEvent, Function.update_self, Function.update_idem,
      Side.peer, hwire, List.nil_append]
    rw [hwrite, ← hlen, List.take_left]
  -- the server's side: one pass with the bytes, one without
  have hopen : (p.sock .server).call.isSome = true := by
    rw [hcall]
    rfl
  set c' := c.step (.flush 48) with hc'
  have h3 : EslPair.step
      { sock := Function.update p.sock .client c'
        wire := Function.update p.wire .server strayBytes }
      .server (.recv 48) =
      { sock := Function.update (Function.update p.sock .client c') .server
          ((p.sock .server).step (.recv strayBytes))
        wire := Function.update p.wire .server [] } := by
    simp only [EslPair.step, EslPair.sockEvent, Function.update_self, Function.update_of_ne hne,
      hopen, if_true, Function.update_idem]
    rw [List.take_of_length_le (Nat.le_of_eq hlen), List.drop_of_length_le (Nat.le_of_eq hlen)]
  have hrun : (p.run strayEvents).sock =
      Function.update (Function.update p.sock .client c') .server
        (((p.sock .server).step (.recv strayBytes)).step (.recv [])) := by
    simp only [EslPair.run, strayEvents, List.foldl_cons, List.foldl_nil, h1, h2, h3]
    simp only [EslPair.step, EslPair.sockEvent, Function.update_self, Function.update_idem,
      List.take_zero]
  have hclient : (p.run strayEvents).sock .client = c' := by
    rw [hrun, Function.update_of_ne hne.symm, Function.update_self]
  rw [hclient, hrun, Function.update_self, hc', step_flush, hwrite]
  exact ⟨hcrypt, rfl, rfl⟩

/-- Both sides have a session, and their keys differ. -/
theorem misframed_packet_changes_key :
    ((blankPair.run (handshakeEvents ++ strayEvents)).sock .client).crypt = true ∧
      ((blankPair.run (handshakeEvents ++ strayEvents)).sock .server).crypt = true ∧
      ((blankPair.run (handshakeEvents ++ strayEvents)).sock .client).key ≠
        ((blankPair.run (handshakeEvents ++ strayEvents)).sock .server).key := by
  rw [run_append_pair]
  obtain ⟨hcrypt, hkey, hserver⟩ := stray_run (p := blankPair.run handshakeEvents) rfl
    (by decide +kernel) (by decide +kernel) (by decide +kernel)
    (show _ = some EslUse.readb from rfl)
  rw [hkey, hserver]
  refine ⟨hcrypt, by decide +kernel, ?_⟩
  decide +kernel

end LibShare.Net
