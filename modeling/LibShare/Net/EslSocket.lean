import LibShare.Net.Esl

/-!
# libshare — sockets of the encrypted layer

One entry of `_sk_table` under the calls of `shnet_esl.c`: how it is opened
(`esl_accept`, `esl_connect`), what the read loop of `esl_readb` does to it,
and what `shnet_close` leaves of it. `Net/Esl.lean` has the packets and the two
functions that take them off the receive buffer, `esl_read_data` and
`esl_read_ctrl`.

* A call on a socket is in progress until its read loop ends. Each pass of the
  loop is an event of its own and brings the bytes that one `read(2)` returned:
  none for `EAGAIN` and at the end of the stream, where a pass over an empty
  buffer ends the call as well.
* `esl_write` and `esl_verify` call `esl_readb` without a buffer while the
  handshake is not complete. What is decoded in such a call is dropped.
* `shnet_close` clears the flags and frees `recv_buff` and `send_buff`.
  `shnet_accept` sets the key and adds a flag; `shnet_socket` sets the key and
  the flags.
* A packet whose length is beyond the block of its decoded segment makes the
  reader read behind the block. The process has no result then: the entry is at
  `fault`, and nothing happens on it any more.

The fields of a socket from `given` on are a record of what happened on its present
connection; no call reads them.
-/

namespace LibShare.Net

open LibShare.Mem

/-! ## Control messages -/

/-- `SHNET_ENCRYPT_PROTO_VERSION`. -/
def shnetEncryptProtoVersion : UInt16 := 1

/-- The `esl_t` that `esl_control` appends to the outgoing buffer. -/
def eslControl (mode : UInt16) (key : ShKey) : Bytes :=
  leBytes16 shmem16Magic ++ leBytes16 (htons mode) ++
    leBytes16 (htons shnetEncryptProtoVersion) ++ leBytes16 0 ++ key.toBytes

/-! ## Sockets -/

/-- A call that runs the loop of `esl_readb`. -/
inductive EslUse
  /-- `esl_read` into memory of a given size -/
  | read (dataLen : Nat)
  /-- `esl_readb` into a buffer -/
  | readb
  /-- `esl_readb` without a buffer, by `esl_verify` or for an `esl_write` -/
  | probe (pending : Option (Unset × Bytes))

/-- An entry of `_sk_table`. -/
structure EslSock where
  /-- the descriptor is open, with `SHNET_ALIVE` and `SHNET_ASYNC` -/
  live : Bool
  /-- `SHNET_CRYPT` -/
  crypt : Bool
  key : ShKey
  /-- `shkey_bin` of `addr_dst` -/
  addrKey : ShKey
  recvBuff : Bytes
  procBuff : Bytes
  sendBuff : Bytes
  call : Option EslUse
  /-- the reader has read behind a block -/
  fault : Bool
  /-- the payload handed to the application -/
  given : Bytes
  /-- the mode and the key of each control message taken off the buffer -/
  ctrls : List (UInt16 × ShKey)
  /-- the key of each segment encoded -/
  encoded : List ShKey
  /-- the key of each segment decoded -/
  decoded : List ShKey

/-- An entry that has not been used: all zero. -/
def EslSock.zero : EslSock :=
  { live := false, crypt := false, key := ashkeyBlank, addrKey := ashkeyBlank, recvBuff := []
    procBuff := [], sendBuff := [], call := none, fault := false, given := [], ctrls := []
    encoded := [], decoded := [] }

/-- `shnet_close`. -/
def EslSock.shnetClose (s : EslSock) : EslSock :=
  { s with live := false, crypt := false, recvBuff := [], sendBuff := [], call := none }

/-- `esl_accept`: the key is the one of the listening socket. -/
def EslSock.eslAccept (s : EslSock) (listenKey addrKey : ShKey) : EslSock :=
  { s with
    live := true
    key := listenKey
    addrKey := addrKey
    sendBuff := s.sendBuff ++ eslControl eslInitPriv addrKey
    given := [], ctrls := [], encoded := [], decoded := [] }

/-- `esl_connect`. -/
def EslSock.eslConnect (s : EslSock) (eslkey addrKey : ShKey) : EslSock :=
  { s with
    live := true
    crypt := false
    key := eslkey
    addrKey := addrKey
    sendBuff := s.sendBuff ++ eslControl eslInitCert eslkey
    given := [], ctrls := [], encoded := [], decoded := [] }

/-- How a connection begins. -/
inductive EslOpen
  | accept (listenKey addrKey : ShKey)
  | connect (eslkey addrKey : ShKey)

/-- The entry of a new connection, over what is left there. -/
def EslSock.opened (s : EslSock) : EslOpen → EslSock
  | .accept listenKey addrKey => s.eslAccept listenKey addrKey
  | .connect eslkey addrKey => s.eslConnect eslkey addrKey

/-! ## Calls -/

/-- `esl_write` once `SHNET_CRYPT` has been looked at for the last time. -/
def EslSock.writeNow (s : EslSock) (u : Unset) (data : Bytes) : EslSock :=
  if s.crypt then
    let packets := eslWriteData s.key u data
    { s with
      sendBuff := s.sendBuff ++ packets.flatMap EslPacket.bytes
      encoded := s.encoded ++ List.replicate packets.length s.key }
  else s

/-- `esl_readb` up to its loop. On a closed descriptor `shnet_read_buf` has no
buffer, and the call ends there. -/
def EslSock.begin (s : EslSock) (use : EslUse) : EslSock :=
  let s := match use with
    | .read _ => s
    -- pending data from an earlier `esl_read`
    | .readb => { s with given := s.given ++ s.procBuff, procBuff := [] }
    | .probe _ => { s with procBuff := [] }
  { s with call := if s.live then some use else none }

/-- The loop ends and the call returns. -/
def EslSock.finish (s : EslSock) (use : EslUse) : EslSock :=
  match use with
  | .read dataLen =>
    { s with
      call := none
      given := s.given ++ s.procBuff.take dataLen
      procBuff := s.procBuff.drop dataLen }
  | .readb => { s with call := none }
  | .probe none => { s with call := none }
  | .probe (some (u, data)) => { s with call := none }.writeNow u data

/-- `shbuf_cat` to the buffer that the call passed to `esl_readb`. -/
def EslSock.append (s : EslSock) (use : EslUse) (data : Bytes) : EslSock :=
  match use with
  | .read _ => { s with procBuff := s.procBuff ++ data }
  | .readb => { s with given := s.given ++ data }
  | .probe _ => s

/-- The reader reads behind a block. -/
def EslSock.stray (s : EslSock) : EslSock :=
  { s.shnetClose with procBuff := [], fault := true, decoded := s.decoded ++ [s.key] }

/-- The body of the loop of `esl_readb`, after `shnet_read_buf`. -/
def EslSock.pass (s : EslSock) (use : EslUse) : EslSock :=
  if s.recvBuff.length < 4 then s.finish use
  else if u16At s.recvBuff 0 ≠ shmem16Magic then s.shnetClose
  else if htons (u16At s.recvBuff 2) = eslData then
    match eslReadData s.key s.recvBuff with
    | none =>
      -- the length is beyond its block, and the code reads behind it
      s.stray
    | some (rbuff, .ok data) =>
      { s with recvBuff := rbuff, decoded := s.decoded ++ [s.key] }.append use data
    | some (rbuff, .error .again) =>
      -- the packet is not complete, or is empty
      { s with recvBuff := rbuff }
    | some (_, .error _) => { s with decoded := s.decoded ++ [s.key] }.shnetClose
  else
    match eslReadCtrl s.addrKey s.key s.crypt s.recvBuff with
    | .ok (rbuff, key, crypt) =>
      { s with
        recvBuff := rbuff, key := key, crypt := crypt
        ctrls := s.ctrls ++ [(htons (u16At s.recvBuff 2), keyAt s.recvBuff 8)] }
    | .error .again => s
    | .error _ => s.shnetClose

/-- What can happen on a socket. -/
inductive SockEvent
  | read (dataLen : Nat)
  | readb
  | write (u : Unset) (data : Bytes)
  | verify
  /-- the call in progress reads its socket and makes a pass -/
  | recv (bytes : Bytes)
  /-- the first bytes of `send_buff` are accepted by `write(2)` -/
  | flush (count : Nat)
  | close

/-- One event. A call cannot start before the one before it has returned, and
only a call in progress reads the socket. -/
def EslSock.step (s : EslSock) (ev : SockEvent) : EslSock :=
  match s.call, ev with
  | none, .read dataLen => s.begin (.read dataLen)
  | none, .readb => s.begin .readb
  | none, .write u data => if s.crypt then s.writeNow u data else s.begin (.probe (some (u, data)))
  | none, .verify => if s.crypt then s else s.begin (.probe none)
  | none, .close => s.shnetClose
  | some use, .recv bytes => { s with recvBuff := s.recvBuff ++ bytes }.pass use
  | _, .flush count => { s with sendBuff := s.sendBuff.drop count }
  | _, _ => s

theorem step_recv {s : EslSock} {use : EslUse} (hcall : s.call = some use) (bytes : Bytes) :
    s.step (.recv bytes) = { s with recvBuff := s.recvBuff ++ bytes }.pass use := by
  cases s
  cases hcall
  rfl

/-- The socket after a list of events. -/
def EslSock.run (s : EslSock) (events : List SockEvent) : EslSock := events.foldl EslSock.step s

end LibShare.Net
