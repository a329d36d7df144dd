import LibShare.Net.Esl

/-!
# libshare — the encrypted socket layer as a byte stream

When are the bytes given to the reader the bytes given to the writer?

Whatever the fragmentation, what has been received and not yet decoded
(`recv_buff`, then the stream) is a row of packets, and what the reader has
been given is what the packets before them decode to (`Inv`). So everything
depends on what a packet decodes to, which is the chunk it was made from, unless
`shencode` took the chunk for encrypted data (`yield_of_encoded`,
`yield_of_unset`).

* `run_inv` — the invariant along every list of events.
* `drain_delivers` — once nothing more is written, the reader gets the rest.
* `esl_round_trip_iff` — the exact condition under which a list of byte strings
  goes through.
-/

namespace LibShare.Net

open LibShare.Mem

/-! ## Packets -/

/-- What the reader makes of a packet. -/
def EslPacket.decode (key : ShKey) (p : EslPacket) : Option (Except Sherr Bytes) :=
  if p.raw = [] then some (.ok [])
  else
    (shdecode p.raw key).map fun decoded =>
      let rawData := decoded.getD []
      if p.crc ≠ eslChecksum rawData then .error .ilseq else .ok rawData

/-- The reader gets data out of the packet. -/
def EslPacket.Decodes (key : ShKey) (p : EslPacket) : Prop := ∃ data, p.decode key = some (.ok data)

/-- The data that the reader gets out of a packet. -/
def EslPacket.yield (key : ShKey) (p : EslPacket) : Bytes :=
  match p.decode key with
  | some (.ok data) => data
  | _ => []

/-- The size field of the packet is the size of its segment. -/
def EslPacket.Fits (p : EslPacket) : Prop := p.raw.length < 65536

/-- A packet has a header of eight bytes. -/
theorem EslPacket.length_bytes (p : EslPacket) : p.bytes.length = 8 + p.raw.length := by
  simp [EslPacket.bytes, leBytes16]
  omega

/-- A field within the first part is that of the first part. -/
theorem u16At_append {a b : Bytes} {of : Nat} (h : of + 1 < a.length) :
    u16At (a ++ b) of = u16At a of := by
  unfold u16At
  simp only [List.getD_eq_getElem?_getD]
  rw [List.getElem?_append_left (by omega), List.getElem?_append_left h]

section Header

variable (p : EslPacket) (tail : Bytes)

/-- The first field of a packet is the magic number. -/
theorem header_magic : u16At (p.bytes ++ tail) 0 = shmem16Magic := by
  simp only [u16At, EslPacket.bytes, leBytes16, List.cons_append, List.nil_append]
  exact leWord16_leBytes16 _

/-- The second field of a packet says that it has data. -/
theorem header_mode : htons (u16At (p.bytes ++ tail) 2) = eslData := by
  have h : u16At (p.bytes ++ tail) 2 = eslData := by
    simp only [u16At, EslPacket.bytes, leBytes16, List.cons_append, List.nil_append]
    exact leWord16_leBytes16 _
  rw [h]
  decide

/-- The third field of a packet is its checksum. -/
theorem header_crc : u16At (p.bytes ++ tail) 4 = p.crc := by
  simp only [u16At, EslPacket.bytes, leBytes16, List.cons_append, List.nil_append]
  exact leWord16_leBytes16 _

/-- The fourth field of a packet is its length, as long as it fits into 16 bits. -/
theorem header_size (hp : p.Fits) : (htons (u16At (p.bytes ++ tail) 6)).toNat = p.raw.length := by
  have h : u16At (p.bytes ++ tail) 6 = htons (UInt16.ofNat p.raw.length) := by
    simp only [u16At, EslPacket.bytes, leBytes16, List.cons_append, List.nil_append]
    exact leWord16_leBytes16 _
  rw [h, htons_htons]
  exact UInt16.toNat_ofNat_of_lt' hp

end Header

/-! ## One pass of the read loop -/

section Pass

variable {k : ShKey} {p : EslPacket} {rbuff stream rest : Bytes}

-- The row of packets begins inside the receive buffer; its header may be read
-- there as soon as it is complete.
/-- A field that has been received is that of the packet. -/
theorem u16At_recv (h : rbuff ++ stream = p.bytes ++ rest) {of : Nat}
    (hof : of + 1 < rbuff.length) :
    u16At rbuff of = u16At (p.bytes ++ rest) of := by
  rw [← h, u16At_append hof]

/-- An incomplete packet stays in the buffer. -/
theorem eslReadData_incomplete (hp : p.Fits) (h : rbuff ++ stream = p.bytes ++ rest)
    (hlen : rbuff.length < p.bytes.length) : eslReadData k rbuff = some (rbuff, .error .again) := by
  unfold eslReadData
  split
  · rfl
  · next h8 =>
    have hsize : (htons (u16At rbuff 6)).toNat = p.raw.length := by
      rw [u16At_recv h (by omega), header_size p rest hp]
    rw [p.length_bytes] at hlen
    simp only [hsize]
    rw [if_pos (by omega)]

-- A complete packet stands at the front of the buffer.
/-- A packet that has been received as a whole is at the front of the buffer. -/
theorem recv_split (h : rbuff ++ stream = p.bytes ++ rest) (hlen : p.bytes.length ≤ rbuff.length) :
    ∃ more, rbuff = p.bytes ++ more ∧ more ++ stream = rest := by
  have hwhole : p.bytes <+: rbuff ++ stream := ⟨rest, h.symm⟩
  have hprefix : p.bytes <+: rbuff :=
    List.prefix_of_prefix_length_le hwhole (List.prefix_append _ _) hlen
  obtain ⟨more, rfl⟩ := hprefix
  rw [List.append_assoc] at h
  exact ⟨more, rfl, List.append_cancel_left h⟩

/-- A complete packet is taken off the buffer and decoded, or is a protocol
error, or makes the reader read behind a block. -/
theorem eslReadData_complete (hp : p.Fits) (more : Bytes) :
    (∃ data, p.decode k = some (.ok data) ∧
      (eslReadData k (p.bytes ++ more) = some (more, .ok data) ∨
        data = [] ∧ eslReadData k (p.bytes ++ more) = some (more, .error .again))) ∨
    (¬ p.Decodes k ∧ (eslReadData k (p.bytes ++ more) = none ∨
      ∃ left, eslReadData k (p.bytes ++ more) = some (left, .error .ilseq))) := by
  have hlen : (p.bytes ++ more).length = 8 + p.raw.length + more.length := by
    rw [List.length_append, p.length_bytes]
  have hdrop : (p.bytes ++ more).drop 8 = p.raw ++ more := by
    simp [EslPacket.bytes, leBytes16]
  unfold eslReadData
  rw [if_neg (by omega)]
  simp only [header_size p more hp, header_crc p more, hdrop]
  rw [if_neg (by omega)]
  by_cases hempty : p.raw = []
  · refine Or.inl ⟨[], by rw [EslPacket.decode, if_pos hempty], Or.inr ⟨rfl, ?_⟩⟩
    rw [hempty, List.length_nil, if_pos rfl, List.nil_append]
  · have hpos := List.length_pos_iff.mpr hempty
    rw [if_neg (by omega), List.take_left, List.drop_left]
    unfold EslPacket.Decodes EslPacket.decode
    rw [if_neg hempty]
    cases shdecode p.raw k with
    | none => exact Or.inr ⟨by simp, Or.inl rfl⟩
    | some decoded =>
      simp only [Option.map_some]
      by_cases hbad : p.crc ≠ eslChecksum (decoded.getD [])
      · exact Or.inr ⟨by simp [hbad], Or.inr ⟨_, by rw [if_pos hbad]⟩⟩
      · exact Or.inl ⟨_, by rw [if_neg hbad], Or.inl (by rw [if_neg hbad])⟩

/-- A pass with an incomplete packet changes nothing. -/
theorem pass_incomplete {link : EslLink} (addrKey : ShKey) (c : EslCall) (hp : p.Fits)
    (h : link.recvBuff ++ link.stream = p.bytes ++ rest) (h4 : 4 ≤ link.recvBuff.length)
    (hlen : link.recvBuff.length < p.bytes.length) : link.pass addrKey c = link := by
  have hmagic : u16At link.recvBuff 0 = shmem16Magic := by
    rw [u16At_recv h (by omega), header_magic]
  have hmode : htons (u16At link.recvBuff 2) = eslData := by
    rw [u16At_recv h (by omega), header_mode]
  unfold EslLink.pass
  rw [if_neg (by omega), if_neg (by simp [hmagic]), if_pos hmode, eslReadData_incomplete hp h hlen]

theorem append_nil (link : EslLink) (c : EslCall) : link.append c [] = link := by
  cases c <;> simp [EslLink.append]

/-- A pass with a complete packet takes it off, or is the last one. -/
theorem pass_complete {link : EslLink} (addrKey : ShKey) (c : EslCall) (hp : p.Fits)
    {more : Bytes} (h : link.recvBuff = p.bytes ++ more) :
    (∃ data, p.decode link.key = some (.ok data) ∧
      link.pass addrKey c = { link with recvBuff := more }.append c data) ∨
    (¬ p.Decodes link.key ∧
      (link.pass addrKey c = link.stray ∨ link.pass addrKey c = link.abort .ilseq)) := by
  have hlen : link.recvBuff.length = 8 + p.raw.length + more.length := by
    rw [h, List.length_append, p.length_bytes]
  have hmagic : u16At link.recvBuff 0 = shmem16Magic := by rw [h, header_magic]
  have hmode : htons (u16At link.recvBuff 2) = eslData := by rw [h, header_mode]
  unfold EslLink.pass
  rw [if_neg (by omega), if_neg (by simp [hmagic]), if_pos hmode, h]
  rcases eslReadData_complete (k := link.key) hp more with
    ⟨data, hdec, hread | ⟨rfl, hread⟩⟩ | ⟨hdec, hread | ⟨left, hread⟩⟩
  · exact Or.inl ⟨data, hdec, by rw [hread]⟩
  · exact Or.inl ⟨[], hdec, by rw [hread, append_nil]⟩
  · exact Or.inr ⟨hdec, Or.inl (by rw [hread])⟩
  · exact Or.inr ⟨hdec, Or.inr (by rw [hread])⟩

end Pass

/-! ## Every list of events -/

/-- The packets that have been written, in order. -/
def packetsOf (key : ShKey) : List EslEvent → List EslPacket
  | [] => []
  | .write u data :: events => eslWriteData key u data ++ packetsOf key events
  | _ :: events => packetsOf key events

/-- The byte strings that have been written, in order. -/
def writtenOf : List EslEvent → List Bytes
  | [] => []
  | .write _ data :: events => data :: writtenOf events
  | _ :: events => writtenOf events

/-- The state of a connection on which `packets` have been written: `done` have
been decoded, `pend` are on their way. After a protocol error or a fault nothing
more is decoded. -/
structure Split (k : ShKey) (link : EslLink) (done pend : List EslPacket) : Prop where
  given : link.out ++ link.procBuff = done.flatMap (EslPacket.yield k)
  state : ((link.closed = none ∧ link.fault = false) ∧
      link.recvBuff ++ link.stream = pend.flatMap EslPacket.bytes) ∨
    ((link.closed.isSome = true ∨ link.fault = true) ∧ link.call = none ∧ ∃ p ∈ pend, ¬ p.Decodes k)

structure Inv (k : ShKey) (packets : List EslPacket) (link : EslLink) : Prop where
  sendKey_eq : link.sendKey = k
  key_eq : link.key = k
  /-- `esl_readb` has emptied `proc_buff` before it reads -/
  direct : link.call = some .readb → link.procBuff = []
  split : ∃ done pend, packets = done ++ pend ∧ Split k link done pend

/-- A new connection has nothing under way. -/
theorem inv_init (k : ShKey) : Inv k [] (EslLink.init k) where
  sendKey_eq := rfl
  key_eq := rfl
  direct := by simp [EslLink.init]
  split := ⟨[], [], rfl, rfl, Or.inl ⟨⟨rfl, rfl⟩, rfl⟩⟩

section Step

variable {k : ShKey} {packets : List EslPacket} {link : EslLink}

/-- A write puts its packets behind those that are under way. -/
theorem write_inv (h : Inv k packets link) (addrKey : ShKey) (u : Unset) (data : Bytes) :
    Inv k (packets ++ eslWriteData k u data) (link.step addrKey (.write u data)) := by
  obtain ⟨done, pend, rfl, hgiven, hstate⟩ := h.split
  refine ⟨h.sendKey_eq, h.key_eq, h.direct, done, pend ++ eslWriteData k u data,
    List.append_assoc _ _ _, hgiven, ?_⟩
  rcases hstate with ⟨hopen, hrow⟩ | ⟨hclosed, hcall, q, hq, hbad⟩
  · refine Or.inl ⟨hopen, ?_⟩
    simp only [EslLink.step, h.sendKey_eq, List.flatMap_append]
    rw [← List.append_assoc, hrow]
  · exact Or.inr ⟨hclosed, hcall, q, List.mem_append_left _ hq, hbad⟩

/-- A call that begins changes nothing of what is under way. -/
theorem call_inv (h : Inv k packets link) (addrKey : ShKey) (c : EslCall) :
    Inv k packets (link.step addrKey (.call c)) := by
  unfold EslLink.step
  by_cases hbusy : link.call.isSome ∨ link.closed.isSome ∨ link.fault
  · simpa only [if_pos hbusy] using h
  · simp only [if_neg hbusy]
    obtain ⟨done, pend, hpackets, hgiven, hstate⟩ := h.split
    obtain ⟨hopen, hrow⟩ : (link.closed = none ∧ link.fault = false) ∧
        link.recvBuff ++ link.stream = pend.flatMap EslPacket.bytes := by
      rcases hstate with hrow | ⟨hclosed, -⟩
      · exact hrow
      · exact absurd (Or.inr hclosed) hbusy
    cases c with
    | read n =>
      exact ⟨h.sendKey_eq, h.key_eq, by simp, done, pend, hpackets, hgiven, Or.inl ⟨hopen, hrow⟩⟩
    | readb =>
      refine ⟨h.sendKey_eq, h.key_eq, fun _ => rfl, done, pend, hpackets, ?_, Or.inl ⟨hopen, hrow⟩⟩
      rw [List.append_nil]
      exact hgiven

-- A call that returns moves bytes from `proc_buff` to its caller.
/-- A call that ends changes nothing of what is under way. -/
theorem finish_inv (h : Inv k packets link) (c : EslCall) : Inv k packets (link.finish c) := by
  obtain ⟨done, pend, hpackets, hgiven, hstate⟩ := h.split
  have hstate' : ∀ l : EslLink, l.closed = link.closed → l.fault = link.fault →
      l.recvBuff = link.recvBuff → l.stream = link.stream → l.call = none →
      ((l.closed = none ∧ l.fault = false) ∧
        l.recvBuff ++ l.stream = pend.flatMap EslPacket.bytes) ∨
        ((l.closed.isSome = true ∨ l.fault = true) ∧ l.call = none ∧
          ∃ p ∈ pend, ¬ p.Decodes k) := by
    intro l h0 h1 h2 h3 h4
    rw [h0, h1, h2, h3]
    rcases hstate with hrow | ⟨hc, -, hbad⟩
    · exact Or.inl hrow
    · exact Or.inr ⟨hc, h4, hbad⟩
  cases c with
  | read n =>
    refine ⟨h.sendKey_eq, h.key_eq, by simp [EslLink.finish], done, pend, hpackets, ?_,
      hstate' _ rfl rfl rfl rfl rfl⟩
    simp only [EslLink.finish]
    rw [List.append_assoc, List.take_append_drop]
    exact hgiven
  | readb =>
    exact ⟨h.sendKey_eq, h.key_eq, by simp [EslLink.finish], done, pend, hpackets, hgiven,
      hstate' _ rfl rfl rfl rfl rfl⟩

/-- A socket read moves bytes from the stream to the buffer. -/
theorem readBuf_row (link : EslLink) (count : Nat) :
    (link.readBuf count).recvBuff ++ (link.readBuf count).stream =
      link.recvBuff ++ link.stream := by
  simp only [EslLink.readBuf]
  rw [List.append_assoc, List.take_append_drop]

/-- Bytes move from the stream to the buffer. -/
theorem readBuf_inv (h : Inv k packets link) (count : Nat) :
    Inv k packets (link.readBuf count) := by
  obtain ⟨done, pend, hpackets, hgiven, hstate⟩ := h.split
  refine ⟨h.sendKey_eq, h.key_eq, h.direct, done, pend, hpackets, hgiven, ?_⟩
  rw [readBuf_row]
  exact hstate

-- Appending to `proc_buff` or to the caller's buffer adds to what is given.
/-- What is appended comes behind all that has been given out or is waiting. -/
theorem append_given (link : EslLink) {c : EslCall} (hcall : link.call = some c)
    (hdirect : link.call = some .readb → link.procBuff = []) (data : Bytes) :
    (link.append c data).out ++ (link.append c data).procBuff =
      link.out ++ link.procBuff ++ data := by
  cases c with
  | read n => simp [EslLink.append]
  | readb => simp [EslLink.append, hdirect hcall]

/-- One pass of the reader takes one packet at most, and keeps the invariant. -/
theorem pass_inv (hfits : ∀ p ∈ packets, p.Fits) (h : Inv k packets link) (addrKey : ShKey)
    {c : EslCall} (hcall : link.call = some c) : Inv k packets (link.pass addrKey c) := by
  by_cases h4 : link.recvBuff.length < 4
  · unfold EslLink.pass
    rw [if_pos h4]
    exact finish_inv h c
  obtain ⟨done, pend, rfl, hgiven, hstate⟩ := h.split
  obtain ⟨hopen, hrow⟩ : (link.closed = none ∧ link.fault = false) ∧
      link.recvBuff ++ link.stream = pend.flatMap EslPacket.bytes := by
    rcases hstate with hs | ⟨-, hnone, -⟩
    · exact hs
    · rw [hcall] at hnone
      cases hnone
  cases pend with
  | nil =>
    -- four bytes of no packet
    rw [List.flatMap_nil, List.append_eq_nil_iff] at hrow
    simp [hrow.1] at h4
  | cons p rest =>
    rw [List.flatMap_cons] at hrow
    have hp : p.Fits := hfits p (by simp)
    rcases Nat.lt_or_ge link.recvBuff.length p.bytes.length with hlt | hge
    · rw [pass_incomplete addrKey c hp hrow (by omega) hlt]
      exact h
    · obtain ⟨more, hrecv, hmore⟩ := recv_split hrow hge
      rcases pass_complete addrKey c hp hrecv with ⟨data, hdec, hpass⟩ | ⟨hdec, hpass⟩
      · rw [hpass]
        rw [h.key_eq] at hdec
        have hyield : p.yield k = data := by rw [EslPacket.yield, hdec]
        have hgiven' := append_given { link with recvBuff := more } hcall h.direct data
        refine ⟨?_, ?_, ?_, done ++ [p], rest, by simp, ?_, Or.inl ?_⟩
        · cases c <;> exact h.sendKey_eq
        · cases c <;> exact h.key_eq
        · cases c with
          | read n =>
            simp only [EslLink.append]
            rw [hcall]
            simp
          | readb => exact h.direct
        · rw [hgiven', List.flatMap_append, List.flatMap_singleton, hyield]
          show link.out ++ link.procBuff ++ data = _
          rw [hgiven]
        · cases c <;> exact ⟨hopen, hmore⟩
      · rw [h.key_eq] at hdec
        rcases hpass with hpass | hpass
        · rw [hpass]
          exact ⟨h.sendKey_eq, h.key_eq, by simp [EslLink.stray], done, p :: rest, rfl, hgiven,
            Or.inr ⟨Or.inr rfl, rfl, p, by simp, hdec⟩⟩
        · rw [hpass]
          exact ⟨h.sendKey_eq, h.key_eq, by simp [EslLink.abort], done, p :: rest, rfl, hgiven,
            Or.inr ⟨Or.inl rfl, rfl, p, by simp, hdec⟩⟩

/-- The reader may be given any number of bytes. -/
theorem sock_inv (hfits : ∀ p ∈ packets, p.Fits) (h : Inv k packets link) (addrKey : ShKey)
    (count : Nat) : Inv k packets (link.step addrKey (.sock count)) := by
  simp only [EslLink.step]
  split
  · exact h
  · next c hcall => exact pass_inv hfits (readBuf_inv h count) addrKey hcall

end Step

/-- The invariant along every list of events. -/
theorem run_inv {k : ShKey} (addrKey : ShKey) (events : List EslEvent) :
    ∀ {packets : List EslPacket} {link : EslLink}, Inv k packets link →
      (∀ p ∈ packets ++ packetsOf k events, p.Fits) →
      Inv k (packets ++ packetsOf k events) (link.run addrKey events) := by
  induction events with
  | nil =>
    intro packets link h _
    rw [packetsOf, List.append_nil]
    exact h
  | cons ev events ih =>
    intro packets link h hfits
    cases ev with
    | write u data =>
      rw [packetsOf, ← List.append_assoc] at hfits ⊢
      exact ih (write_inv h addrKey u data) hfits
    | call c => exact ih (call_inv h addrKey c) hfits
    | sock count =>
      have hleft : ∀ p ∈ packets, p.Fits := fun p hp => hfits p (List.mem_append_left _ hp)
      exact ih (sock_inv hleft h addrKey count) hfits

/-! ## The rest arrives

Every pass of a call makes progress: it moves bytes out of the stream, takes a
packet off the buffer, or returns. -/

/-- Reading what is left: the call in progress, then one `esl_readb`. -/
def drain (n : Nat) : List EslEvent :=
  List.replicate n (.sock minReadBufferSize) ++ .call .readb ::
    List.replicate n (.sock minReadBufferSize)

/-- What a pass decreases. -/
def EslLink.backlog (link : EslLink) : Nat := 2 * link.stream.length + link.recvBuff.length

/-- Nothing is in progress and nothing is on its way. -/
structure Quiet (link : EslLink) : Prop where
  returned : link.call = none
  opened : link.closed = none ∧ link.fault = false
  received : link.recvBuff = []
  streamed : link.stream = []

section Drain

variable {k : ShKey} {packets : List EslPacket} {link : EslLink}

/-- Without a call nothing happens on reception. -/
theorem run_idle (addrKey : ShKey) (h : link.call = none) (n : Nat) :
    link.run addrKey (List.replicate n (.sock minReadBufferSize)) = link := by
  induction n with
  | zero => rfl
  | succ n ih =>
    rw [List.replicate_succ, EslLink.run, List.foldl_cons]
    simp only [EslLink.step, h]
    exact ih

-- A connection on which every packet decodes is not closed.
/-- As long as all packets decode, the connection is open and has pending packets only. -/
theorem row_of_good (hgood : ∀ p ∈ packets, p.Decodes k) (h : Inv k packets link) :
    (link.closed = none ∧ link.fault = false) ∧ ∃ pend : List EslPacket, (∀ p ∈ pend, p ∈ packets) ∧
      link.recvBuff ++ link.stream = pend.flatMap EslPacket.bytes := by
  obtain ⟨done, pend, rfl, -, ⟨hopen, hrow⟩ | ⟨-, -, p, hp, hbad⟩⟩ := h.split
  · exact ⟨hopen, pend, fun p hp => List.mem_append_right _ hp, hrow⟩
  · exact absurd (hgood p (List.mem_append_right _ hp)) hbad

/-- A pass ends the call, or there is less to do than before. -/
theorem pass_progress (hfits : ∀ p ∈ packets, p.Fits)
    (hgood : ∀ p ∈ packets, p.Decodes k) (h : Inv k packets link)
    (addrKey : ShKey) {c : EslCall} (hcall : link.call = some c) :
    let next := link.step addrKey (.sock minReadBufferSize)
    (Quiet next ∧ (c = .readb → next.procBuff = [])) ∨
      (next.call = some c ∧ next.backlog < link.backlog) := by
  intro next
  have hnext : next = (link.readBuf minReadBufferSize).pass addrKey c := by
    simp only [next, EslLink.step, hcall]
  set mid := link.readBuf minReadBufferSize with hmid
  have hinv : Inv k packets mid := readBuf_inv h _
  obtain ⟨hopen, pend, hpend, hrow⟩ := row_of_good hgood hinv
  have hcall' : mid.call = some c := hcall
  have hstream : mid.stream.length = link.stream.length - 65536 := by
    simp [hmid, EslLink.readBuf, minReadBufferSize]
  have hrecv : mid.recvBuff.length = link.recvBuff.length + min 65536 link.stream.length := by
    simp [hmid, EslLink.readBuf, minReadBufferSize]
  have hbacklog : mid.backlog + min 65536 link.stream.length = link.backlog := by
    simp only [EslLink.backlog, hstream, hrecv]
    omega
  rw [hnext]
  by_cases h4 : mid.recvBuff.length < 4
  · -- the stream is used up, so the bytes that are left are whole packets: none
    refine Or.inl ?_
    have hempty : mid.stream = [] := List.length_eq_zero_iff.mp (by omega)
    have hnil : pend = [] := by
      cases pend with
      | nil => rfl
      | cons p rest =>
        have hlen := congrArg List.length hrow
        rw [hempty, List.append_nil, List.flatMap_cons, List.length_append, p.length_bytes] at hlen
        omega
    have hbuf : mid.recvBuff = [] := by
      rw [hnil, List.flatMap_nil, List.append_eq_nil_iff] at hrow
      exact hrow.1
    unfold EslLink.pass
    rw [if_pos h4]
    cases c with
    | read n => exact ⟨⟨rfl, hopen, hbuf, hempty⟩, by simp⟩
    | readb => exact ⟨⟨rfl, hopen, hbuf, hempty⟩, fun _ => h.direct hcall⟩
  · refine Or.inr ?_
    cases pend with
    | nil =>
      rw [List.flatMap_nil, List.append_eq_nil_iff] at hrow
      simp [hrow.1] at h4
    | cons p rest =>
      rw [List.flatMap_cons] at hrow
      have hp : p.Fits := hfits p (hpend p (by simp))
      rcases Nat.lt_or_ge mid.recvBuff.length p.bytes.length with hlt | hge
      · -- an incomplete packet: there was something left in the stream to read
        rw [pass_incomplete addrKey c hp hrow (by omega) hlt]
        refine ⟨hcall', ?_⟩
        have hlen := congrArg List.length hrow
        rw [List.length_append, List.length_append] at hlen
        omega
      · obtain ⟨more, heq, hmore⟩ := recv_split hrow hge
        rcases pass_complete addrKey c hp heq with ⟨data, -, hpass⟩ | ⟨hdec, -⟩
        · rw [hpass]
          have hlen : mid.recvBuff.length = 8 + p.raw.length + more.length := by
            rw [heq, List.length_append, p.length_bytes]
          have hless : 2 * mid.stream.length + more.length < link.backlog := by
            simp only [EslLink.backlog] at hbacklog ⊢
            omega
          cases c <;> exact ⟨hcall', hless⟩
        · rw [hinv.key_eq] at hdec
          exact absurd (hgood p (hpend p (by simp))) hdec

/-- Enough passes bring a call to its end. -/
theorem run_call (hfits : ∀ p ∈ packets, p.Fits)
    (hgood : ∀ p ∈ packets, p.Decodes k) (addrKey : ShKey) {c : EslCall} (n : Nat) :
    ∀ {link : EslLink}, Inv k packets link → link.call = some c → link.backlog < n →
      let last := link.run addrKey (List.replicate n (.sock minReadBufferSize))
      Quiet last ∧ (c = .readb → last.procBuff = []) := by
  induction n with
  | zero =>
    intro link _ _ hlt
    omega
  | succ n ih =>
    intro link h hcall hlt
    simp only [List.replicate_succ, EslLink.run, List.foldl_cons]
    have hnext := sock_inv hfits h addrKey minReadBufferSize
    rcases pass_progress hfits hgood h addrKey hcall with ⟨hquiet, hproc⟩ | ⟨hcall', hless⟩
    · have hidle := run_idle addrKey hquiet.returned n
      unfold EslLink.run at hidle
      rw [hidle]
      exact ⟨hquiet, hproc⟩
    · exact ih hnext hcall' (by omega)

/-- A call adds nothing to what is to be received. -/
theorem backlog_call (addrKey : ShKey) (c : EslCall) :
    (link.step addrKey (.call c)).backlog = link.backlog := by
  simp only [EslLink.step]
  split
  · rfl
  · cases c <;> rfl

/-- A run in two parts. -/
theorem run_append (addrKey : ShKey) (link : EslLink) (xs ys : List EslEvent) :
    link.run addrKey (xs ++ ys) = (link.run addrKey xs).run addrKey ys := List.foldl_append

/-- Receptions write no packets. -/
theorem packetsOf_replicate_sock (k : ShKey) (n count : Nat) :
    packetsOf k (List.replicate n (.sock count)) = [] := by
  induction n with
  | zero => rfl
  | succ n ih =>
    rw [List.replicate_succ]
    exact ih

/-- Once nothing more is written, the reader is given everything that the
packets decode to. -/
theorem drain_delivers (hfits : ∀ p ∈ packets, p.Fits)
    (hgood : ∀ p ∈ packets, p.Decodes k) (h : Inv k packets link)
    (addrKey : ShKey) {n : Nat} (hn : link.backlog < n) :
    (link.run addrKey (drain n)).out = packets.flatMap (EslPacket.yield k) := by
  -- the call in progress, if there is one, returns
  obtain ⟨hmid, hidle, hlog⟩ :
      let mid := link.run addrKey (List.replicate n (.sock minReadBufferSize))
      Inv k packets mid ∧ mid.call = none ∧ mid.backlog < n := by
    intro mid
    have hinv : Inv k packets mid := by
      have := run_inv addrKey (List.replicate n (.sock minReadBufferSize)) h
        (by rwa [packetsOf_replicate_sock, List.append_nil])
      rwa [packetsOf_replicate_sock, List.append_nil] at this
    cases hcall : link.call with
    | none =>
      have : mid = link := run_idle addrKey hcall n
      rw [this]
      exact ⟨h, hcall, hn⟩
    | some c =>
      obtain ⟨hquiet, -⟩ := run_call hfits hgood addrKey n h hcall hn
      refine ⟨hinv, hquiet.returned, ?_⟩
      simp only [mid, EslLink.backlog, hquiet.streamed, hquiet.received, List.length_nil]
      omega
  set mid := link.run addrKey (List.replicate n (.sock minReadBufferSize))
  -- then `esl_readb` takes what is left
  have hcalled := call_inv hmid addrKey .readb
  have hbusy : (mid.step addrKey (.call .readb)).call = some .readb := by
    simp [EslLink.step, hidle, (row_of_good hgood hmid).1.1, (row_of_good hgood hmid).1.2]
  have hend := run_call hfits hgood addrKey n hcalled hbusy (by rwa [backlog_call])
  have hlast := run_inv addrKey (List.replicate n (.sock minReadBufferSize)) hcalled
    (by rwa [packetsOf_replicate_sock, List.append_nil])
  rw [packetsOf_replicate_sock, List.append_nil] at hlast
  have hrun : link.run addrKey (drain n) = (mid.step addrKey (.call .readb)).run addrKey
      (List.replicate n (.sock minReadBufferSize)) := by
    rw [drain, run_append]
    rfl
  rw [hrun]
  set last := (mid.step addrKey (.call .readb)).run addrKey
    (List.replicate n (.sock minReadBufferSize))
  obtain ⟨hquiet, hproc⟩ := hend
  obtain ⟨done, pend, hpackets, hgiven, ⟨-, hrow⟩ | ⟨hclosed, -⟩⟩ := hlast.split
  · have hnil : pend = [] := by
      rw [hquiet.received, hquiet.streamed, List.append_nil] at hrow
      cases pend with
      | nil => rfl
      | cons p rest =>
        have hlen := congrArg List.length hrow
        rw [List.flatMap_cons, List.length_append, p.length_bytes, List.length_nil] at hlen
        omega
    rw [hproc rfl, List.append_nil] at hgiven
    rw [hgiven, hpackets, hnil, List.append_nil]
  · rw [hquiet.opened.1, hquiet.opened.2] at hclosed
    rcases hclosed with hclosed | hclosed
    · cases hclosed
    · cases hclosed

end Drain

/-! ## What a packet decodes to -/

/-- The chunks of a write are its data. -/
theorem eslChunks_flatten (data : Bytes) : (eslChunks data).flatten = data := by
  fun_induction eslChunks data with
  | case1 => rfl
  | case2 data hne ih => rw [List.flatten_cons, ih, List.take_append_drop]

/-- No chunk has more than 8192 bytes. -/
theorem eslChunks_length (data : Bytes) : ∀ chunk ∈ eslChunks data, chunk.length ≤ 8192 := by
  fun_induction eslChunks data with
  | case1 => simp
  | case2 data hne ih =>
    intro chunk hchunk
    rcases List.mem_cons.mp hchunk with rfl | hrest
    · exact List.length_take_le _ _
    · exact ih chunk hrest

/-- `shencode` does not take the chunk for an encrypted segment. -/
def ChunkClear (chunk : Bytes) : Prop := ¬ (8 ≤ chunk.length ∧ isCryptMagic chunk = true)

/-- A chunk that was encoded is decoded. -/
theorem yield_of_encoded {k : ShKey} {chunk enc : Bytes} (hlen : chunk.length ≤ 8192)
    (h : shencode chunk k = some enc) :
    let p : EslPacket := { crc := eslChecksum chunk, raw := enc }
    p.Fits ∧ p.decode k = some (.ok chunk) := by
  intro p
  have hbound := (length_shencode h).1
  refine ⟨by simp only [EslPacket.Fits, p]; omega, ?_⟩
  have hroom : EncodeFits chunk.length := by
    unfold EncodeFits shbufBlocks
    omega
  have hdec : shdecode enc k = some (some chunk) := shdecode_shencode hroom h
  unfold EslPacket.decode
  by_cases hempty : enc = []
  · -- only the empty chunk has an empty encoding
    have : chunk = [] := by
      by_contra hne
      exact (length_shencode h).2 hne hempty
    simp only [p, if_pos hempty, this]
  · simp only [p, if_neg hempty, hdec, Option.map_some, Option.getD_some, ne_eq,
      not_true_eq_false, if_false]

/-- The packets of a write in which no chunk is taken for an encrypted one. -/
theorem passes_of_clear {k : ShKey} {u : Unset} (chunks : List Bytes) :
    ∀ (bOf rawDataLen : Nat), (∀ c ∈ chunks, c.length ≤ 8192) → (∀ c ∈ chunks, ChunkClear c) →
      (∀ p ∈ eslWritePasses k u bOf rawDataLen chunks, p.Fits ∧ p.Decodes k) ∧
      (eslWritePasses k u bOf rawDataLen chunks).flatMap (EslPacket.yield k) = chunks.flatten := by
  induction chunks with
  | nil => simp [eslWritePasses]
  | cons chunk rest ih =>
    intro bOf rawDataLen hlen hclear
    cases henc : shencode chunk k with
    | none => exact absurd ((shencode_eq_none k).mp henc) (hclear chunk (by simp))
    | some enc =>
      obtain ⟨hfits, hdec⟩ := yield_of_encoded (hlen chunk (by simp)) henc
      obtain ⟨hrest, hflat⟩ := ih (bOf + chunk.length) enc.length
        (fun c hc => hlen c (by simp [hc])) (fun c hc => hclear c (by simp [hc]))
      simp only [eslWritePasses, henc]
      refine ⟨?_, ?_⟩
      · intro p hp
        rcases List.mem_cons.mp hp with rfl | hp
        · exact ⟨hfits, chunk, hdec⟩
        · exact hrest p hp
      · rw [List.flatMap_cons, hflat, List.flatten_cons, EslPacket.yield, hdec]

-- Zero bytes in the place of an encoded segment.
def zeroUnset : Unset := { rawDataLen := 0, rawData := fun _ _ => 0 }

/-- A packet made of zero bytes never yields as much as an eight byte chunk. -/
theorem yield_of_unset (k : ShKey) (crc : UInt16) {n : Nat} (hn : n < 65536) :
    (EslPacket.yield k { crc := crc, raw := List.replicate n 0 }).length < 8 := by
  unfold EslPacket.yield EslPacket.decode
  by_cases hempty : List.replicate n (0 : UInt8) = []
  · simp [hempty]
  · simp only [if_neg hempty]
    obtain ⟨decoded, hdec, hshort⟩ : ∃ decoded, shdecode (List.replicate n 0) k = some decoded ∧
        (decoded.getD []).length < 8 := by
      have hlen : (List.replicate n (0 : UInt8)).length = n := List.length_replicate
      by_cases h8 : n < 8
      · exact ⟨_, shdecode_short k (by rw [hlen]; exact h8), by simpa using h8⟩
      · have hmagic : isCryptMagic (List.replicate n 0) = false := by
          rw [isCryptMagic, List.take_replicate, Nat.min_eq_left (by omega)]
          decide
        exact ⟨none, shdecode_plain k (by omega) (by rw [hlen]; exact h8) hmagic, by decide⟩
    rw [hdec, Option.map_some]
    by_cases hbad : crc ≠ eslChecksum (decoded.getD [])
    · simp [hbad]
    · simp only [if_neg hbad]
      exact hshort

/-- With zeros for what is unset, a chunk that is taken for an encrypted one
makes the reader come out short. -/
theorem passes_of_magic {k : ShKey} (chunks : List Bytes) :
    ∀ (bOf rawDataLen : Nat), (∀ c ∈ chunks, c.length ≤ 8192) → rawDataLen < 65536 →
      (∀ p ∈ eslWritePasses k zeroUnset bOf rawDataLen chunks, p.Fits) ∧
      ((eslWritePasses k zeroUnset bOf rawDataLen chunks).flatMap (EslPacket.yield k)).length ≤
        chunks.flatten.length ∧
      ((∃ c ∈ chunks, ¬ ChunkClear c) →
        ((eslWritePasses k zeroUnset bOf rawDataLen chunks).flatMap (EslPacket.yield k)).length <
          chunks.flatten.length) := by
  induction chunks with
  | nil => simp [eslWritePasses]
  | cons chunk rest ih =>
    intro bOf rawDataLen hlen hraw
    have hlen' : ∀ c ∈ rest, c.length ≤ 8192 := fun c hc => hlen c (by simp [hc])
    cases henc : shencode chunk k with
    | none =>
      obtain ⟨h8, -⟩ := (shencode_eq_none k).mp henc
      have hzero : (List.range rawDataLen).map (zeroUnset.rawData bOf) =
          List.replicate rawDataLen 0 := by
        simp [zeroUnset, List.map_const']
      obtain ⟨hfits, hle, -⟩ := ih (bOf + chunk.length) rawDataLen hlen' hraw
      have hshort := yield_of_unset k (eslChecksum chunk) hraw
      simp only [eslWritePasses, henc, hzero, List.length_replicate, List.flatMap_cons,
        List.length_append, List.flatten_cons]
      refine ⟨?_, by omega, fun _ => by omega⟩
      intro p hp
      rcases List.mem_cons.mp hp with rfl | hp
      · simpa [EslPacket.Fits] using hraw
      · exact hfits p hp
    | some enc =>
      obtain ⟨hfit, hdec⟩ := yield_of_encoded (hlen chunk (by simp)) henc
      obtain ⟨hfits, hle, hlt⟩ := ih (bOf + chunk.length) enc.length hlen' hfit
      simp only [eslWritePasses, henc, List.flatMap_cons, List.length_append, List.flatten_cons]
      have hyield : (EslPacket.yield k { crc := eslChecksum chunk, raw := enc }) = chunk := by
        rw [EslPacket.yield, hdec]
      rw [hyield]
      refine ⟨?_, by omega, ?_⟩
      · intro p hp
        rcases List.mem_cons.mp hp with rfl | hp
        · exact hfit
        · exact hfits p hp
      · rintro ⟨c, hc, hmagic⟩
        rcases List.mem_cons.mp hc with rfl | hc
        · have := (shencode_eq_none k).mpr (not_not.mp hmagic)
          rw [henc] at this
          cases this
        · have := hlt ⟨c, hc, hmagic⟩
          omega

/-! ## The round trip -/

/-- No chunk of the byte string is taken for an encrypted segment. -/
def Clear (data : Bytes) : Prop := ∀ chunk ∈ eslChunks data, ChunkClear chunk

/-- Whatever the unset variables hold, however the writes, the read calls and
the socket reads interleave: the reader is given a prefix of what was written,
and it is given all of it once it goes on reading. -/
def RoundTrips (key : ShKey) (writes : List Bytes) : Prop :=
  ∀ (addrKey : ShKey) (events : List EslEvent), writtenOf events = writes →
    let link := (EslLink.init key).run addrKey events
    link.out <+: writes.flatten ∧
      ∃ n, ∀ m ≥ n, (link.run addrKey (drain m)).out = writes.flatten

/-- The packets of clear writes fit, decode, and yield what was written. -/
theorem packetsOf_clear {k : ShKey} (events : List EslEvent)
    (hclear : ∀ data ∈ writtenOf events, Clear data) :
    (∀ p ∈ packetsOf k events, p.Fits ∧ p.Decodes k) ∧
      (packetsOf k events).flatMap (EslPacket.yield k) = (writtenOf events).flatten := by
  induction events with
  | nil => simp [packetsOf, writtenOf]
  | cons ev events ih =>
    cases ev with
    | write u data =>
      obtain ⟨hgood, hyield⟩ := ih fun d hd => hclear d (by simp [writtenOf, hd])
      obtain ⟨hgood', hyield'⟩ := passes_of_clear (k := k) (u := u) (eslChunks data) 0
        u.rawDataLen (eslChunks_length data) (hclear data (by simp [writtenOf]))
      simp only [packetsOf, writtenOf, List.flatMap_append, List.flatten_cons, hyield]
      refine ⟨?_, ?_⟩
      · intro p hp
        rcases List.mem_append.mp hp with hp | hp
        · exact hgood' p hp
        · exact hgood p hp
      · rw [eslWriteData, hyield', eslChunks_flatten]
    | call c => exact ih hclear
    | sock count => exact ih hclear

/-- Writes that are clear come back. -/
theorem roundTrips_of_clear {k : ShKey} {writes : List Bytes}
    (hclear : ∀ data ∈ writes, Clear data) : RoundTrips k writes := by
  rintro addrKey events rfl link
  obtain ⟨hgood, hyield⟩ := packetsOf_clear (k := k) events hclear
  have hfits : ∀ p ∈ packetsOf k events, p.Fits := fun p hp => (hgood p hp).1
  have hinv : Inv k (packetsOf k events) link := by
    have := run_inv addrKey events (inv_init k) (by simpa using hfits)
    simpa using this
  refine ⟨?_, link.backlog + 1, fun m hm => ?_⟩
  · obtain ⟨done, pend, hpackets, hgiven, -⟩ := hinv.split
    have hpre : link.out <+: done.flatMap (EslPacket.yield k) := ⟨_, hgiven⟩
    refine hpre.trans ?_
    rw [← hyield, hpackets, List.flatMap_append]
    exact List.prefix_append _ _
  · rw [drain_delivers hfits (fun p hp => (hgood p hp).2) hinv addrKey (by omega), hyield]

theorem packetsOf_magic {k : ShKey} (writes : List Bytes) :
    let events := writes.map (EslEvent.write zeroUnset)
    (∀ p ∈ packetsOf k events, p.Fits) ∧ writtenOf events = writes ∧
      ((packetsOf k events).flatMap (EslPacket.yield k)).length ≤ writes.flatten.length ∧
      ((∃ data ∈ writes, ¬ Clear data) →
        ((packetsOf k events).flatMap (EslPacket.yield k)).length < writes.flatten.length) := by
  induction writes with
  | nil => simp [packetsOf, writtenOf]
  | cons data writes ih =>
    obtain ⟨hfits, hwritten, hle, hlt⟩ := ih
    obtain ⟨hfits', hle', hlt'⟩ := passes_of_magic (k := k) (eslChunks data) 0 0
      (eslChunks_length data) (by decide)
    rw [eslChunks_flatten] at hle' hlt'
    simp only [List.map_cons, packetsOf, writtenOf, hwritten, List.flatMap_append,
      List.length_append, List.flatten_cons, true_and]
    have hwrite : eslWriteData k zeroUnset data =
        eslWritePasses k zeroUnset 0 0 (eslChunks data) := rfl
    rw [hwrite]
    refine ⟨?_, by omega, ?_⟩
    · intro p hp
      rcases List.mem_append.mp hp with hp | hp
      · exact hfits' p hp
      · exact hfits p hp
    · rintro ⟨d, hd, hmagic⟩
      rcases List.mem_cons.mp hd with rfl | hd
      · have := hlt' (by simpa [Clear] using hmagic)
        omega
      · have := hlt ⟨d, hd, hmagic⟩
        omega

/-- The packets of two parts of a run are those of the run. -/
theorem packetsOf_append (k : ShKey) (xs ys : List EslEvent) :
    packetsOf k (xs ++ ys) = packetsOf k xs ++ packetsOf k ys := by
  induction xs with
  | nil => rfl
  | cons ev xs ih =>
    cases ev with
    | write u data => simp only [List.cons_append, packetsOf, ih, List.append_assoc]
    | call c => exact ih
    | sock count => exact ih

/-- Receptions until the end write no packets. -/
theorem packetsOf_drain (k : ShKey) (n : Nat) : packetsOf k (drain n) = [] := by
  rw [drain, packetsOf_append, packetsOf_replicate_sock, List.nil_append]
  exact packetsOf_replicate_sock k n _

/-- A write that is not clear does not come back. -/
theorem not_roundTrips_of_magic {k : ShKey} {writes : List Bytes}
    (h : ∃ data ∈ writes, ¬ Clear data) : ¬ RoundTrips k writes := by
  obtain ⟨hfits, hwritten, -, hlt⟩ := packetsOf_magic (k := k) writes
  set events := writes.map (EslEvent.write zeroUnset)
  intro hround
  obtain ⟨-, n, hall⟩ := hround ashkeyBlank events hwritten
  have hout := hall n (Nat.le_refl n)
  -- what the reader has been given is no more than what the packets yield
  have hinv : Inv k (packetsOf k events)
      (((EslLink.init k).run ashkeyBlank events).run ashkeyBlank (drain n)) := by
    have h1 := run_inv ashkeyBlank events (inv_init k) (by simpa using hfits)
    have h2 := run_inv ashkeyBlank (drain n) h1 (by simpa [packetsOf_drain] using hfits)
    simpa [packetsOf_drain] using h2
  obtain ⟨done, pend, hpackets, hgiven, -⟩ := hinv.split
  have hlen := congrArg List.length hgiven
  have hshort := hlt h
  rw [hpackets, List.flatMap_append, List.length_append] at hshort
  rw [List.length_append, hout] at hlen
  omega

/-- A list of byte strings goes through the encrypted socket layer unchanged,
whatever the fragmentation and the contents of unset memory, if and only if no
chunk of a byte string is taken for an encrypted segment. -/
theorem esl_round_trip_iff (key : ShKey) (writes : List Bytes) :
    RoundTrips key writes ↔ ∀ data ∈ writes, Clear data := by
  constructor
  · intro hround
    by_contra hnot
    simp only [not_forall] at hnot
    obtain ⟨data, hdata, hmagic⟩ := hnot
    exact not_roundTrips_of_magic ⟨data, hdata, hmagic⟩ hround
  · exact roundTrips_of_clear

/-- Eight bytes that begin with the magic word are lost. -/
theorem esl_magic_lost :
    ¬ RoundTrips ashkeyBlank [[0x22, 0x88, 0x88, 0x22, 0, 0, 0, 0]] := by
  refine not_roundTrips_of_magic ⟨_, List.mem_singleton.mpr rfl, ?_⟩
  intro hclear
  refine hclear [0x22, 0x88, 0x88, 0x22, 0, 0, 0, 0] ?_ (by decide)
  rw [eslChunks, if_neg (by decide)]
  exact List.mem_cons_self

end LibShare.Net
