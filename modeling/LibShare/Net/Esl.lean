import LibShare.Mem.Codec

/-!
# libshare — the encrypted socket layer

The data path of `shnet_esl.c` after the handshake. The writer cuts what it is
given into chunks of at most 8192 bytes and sends each one as a packet: an
eight byte header (magic, mode, checksum of the plain chunk, size of the
encoded segment) and the segment that `shencode` made of the chunk. The reader
collects what its socket gives it in `recv_buff` and takes packets off its
front.

The link is one state machine with three events: a write, the start of a read
call, and one pass of the read loop with the bytes that one `read(2)` returned.
Any interleaving of them, and any fragmentation of the stream, is a list of
events.

* Bytes that the writer still holds in `send_buff` and bytes on the wire are
  one queue, `stream`: both keep their order.
* `shencode` may leave `raw_data` and `raw_data_len` unset. What they hold then
  is uninitialised in the first pass of the write loop; later it is the length
  of the pass before and a segment that has been freed. `Unset` supplies these
  values.
* The length that `shdecode` reports comes from the packet. Where it is beyond
  the block of the decoded segment, the reader reads behind the block: the end
  is at `fault` then, and nothing is said of what it does afterwards.
* The buffers of a connection stay below 2^31 bytes.
-/

namespace LibShare.Net

open LibShare.Mem

/-! ## Packets -/

/-- `SHMEM16_MAGIC`. -/
def shmem16Magic : UInt16 := 0x2222

/-- The modes of `shnet.h` that the reader tells apart. -/
def eslData : UInt16 := 0
def eslInitCert : UInt16 := 2
def eslInitPriv : UInt16 := 3

/-- `ESL_CHECKSUM`. -/
def eslChecksum (data : Bytes) : UInt16 := htons (shcrc data).toUInt16

/-- The fields of `esl_data_t` that vary, with the encoded segment. The size
field is the low half of the segment's length. -/
structure EslPacket where
  crc : UInt16
  raw : Bytes

/-- `esl_data_t` in memory, followed by the segment. -/
def EslPacket.bytes (p : EslPacket) : Bytes :=
  leBytes16 shmem16Magic ++ leBytes16 eslData ++ leBytes16 p.crc ++
    leBytes16 (htons (UInt16.ofNat p.raw.length)) ++ p.raw

/-- The 16-bit word at an offset of a buffer. -/
def u16At (buff : Bytes) (of : Nat) : UInt16 := leWord16 (buff.getD of 0) (buff.getD (of + 1) 0)

/-! ## Writing -/

/-- The bounds of the loop of `esl_write_data`. -/
def eslChunks (data : Bytes) : List Bytes :=
  if data = [] then []
  else data.take 8192 :: eslChunks (data.drop 8192)
termination_by data.length
decreasing_by
  have := List.length_pos_iff.mpr ‹data ≠ []›
  simp only [List.length_drop]
  omega

/-- The values of unset variables in one call of `esl_write_data`: the initial
`raw_data_len`, and the memory behind `raw_data` in the pass at an offset. -/
structure Unset where
  rawDataLen : Nat
  rawData : Nat → Nat → UInt8

/-- The passes of `esl_write_data` from an offset on. -/
def eslWritePasses (key : ShKey) (u : Unset) : Nat → Nat → List Bytes → List EslPacket
  | _, _, [] => []
  | bOf, rawDataLen, chunk :: rest =>
    let raw := match shencode chunk key with
      | some enc => enc
      | none => (List.range rawDataLen).map (u.rawData bOf)
    { crc := eslChecksum chunk, raw := raw } ::
      eslWritePasses key u (bOf + chunk.length) raw.length rest

/-- `esl_write_data`. -/
def eslWriteData (key : ShKey) (u : Unset) (data : Bytes) : List EslPacket :=
  eslWritePasses key u 0 u.rawDataLen (eslChunks data)

/-! ## Reading -/

/-- `esl_read_data`: the receive buffer afterwards, and the data to append. There
is no result where a length is beyond its block. -/
def eslReadData (key : ShKey) (rbuff : Bytes) : Option (Bytes × Except Sherr Bytes) :=
  if rbuff.length < 8 then some (rbuff, .error .again)
  else
    let crc := u16At rbuff 4
    let size := (htons (u16At rbuff 6)).toNat
    if rbuff.length < size + 8 then some (rbuff, .error .again)
    else
      -- the header has been taken off, whatever comes of the rest
      let rbuff := rbuff.drop 8
      if size = 0 then some (rbuff, .error .again)
      else
        (shdecode (rbuff.take size) key).map fun decoded =>
          let rawData := decoded.getD []
          if crc ≠ eslChecksum rawData then (rbuff, .error .ilseq)
          else (rbuff.drop size, .ok rawData)

/-- A key in memory. -/
def keyAt (buff : Bytes) (of : Nat) : ShKey :=
  { alg := u16At buff of
    crc := u16At buff (of + 2)
    code := Vector.ofFn fun i : Fin 7 => leWord32 ((buff.drop (of + 4 + 4 * i)).take 4) }

/-- `shkey_xor`. -/
def shkeyXor (key1 key2 : ShKey) : ShKey :=
  { ashkeyBlank with code := Vector.zipWith (· ^^^ ·) key1.code key2.code }

/-- `esl_read_ctrl`: the receive buffer and the key afterwards, and whether the
socket is now encrypted. `addrKey` is the `shkey_bin` of the peer address. -/
def eslReadCtrl (addrKey key : ShKey) (crypt : Bool) (rbuff : Bytes) :
    Except Sherr (Bytes × ShKey × Bool) :=
  if rbuff.length < 40 then .error .again
  else
    let mode := htons (u16At rbuff 2)
    let sKey := keyAt rbuff 8
    -- the client did not send the key that the listen socket asks for
    if mode = eslInitCert ∧ key ≠ ashkeyBlank ∧ key ≠ sKey then .error .access
    else
      let key := if mode = eslInitCert then addrKey else key
      if mode = eslInitCert ∨ mode = eslInitPriv then
        .ok (rbuff.drop 40, shkeyXor sKey key, true)
      else .ok (rbuff.drop 40, key, crypt)

/-- A read call: into memory of a given size, or into a buffer. -/
inductive EslCall
  | read (dataLen : Nat)
  | readb
deriving DecidableEq

/-- The two ends of a connection, with what the applications have written and
been given. -/
structure EslLink where
  sendKey : ShKey
  sent : Bytes
  stream : Bytes
  recvBuff : Bytes
  procBuff : Bytes
  key : ShKey
  crypt : Bool
  call : Option EslCall
  closed : Option Sherr
  /-- the reader has read behind a block -/
  fault : Bool
  out : Bytes

/-- A connection after the handshake. -/
def EslLink.init (key : ShKey) : EslLink :=
  { sendKey := key, sent := [], stream := [], recvBuff := [], procBuff := [], key := key
    crypt := true, call := none, closed := none, fault := false, out := [] }

/-- The buffer that a call hands to `esl_readb`: `proc_buff`, or the caller's. -/
def EslLink.append (link : EslLink) (call : EslCall) (data : Bytes) : EslLink :=
  match call with
  | .read _ => { link with procBuff := link.procBuff ++ data }
  | .readb => { link with out := link.out ++ data }

/-- The call returns. -/
def EslLink.finish (link : EslLink) (call : EslCall) : EslLink :=
  match call with
  | .read dataLen =>
    { link with
      call := none
      out := link.out ++ link.procBuff.take dataLen
      procBuff := link.procBuff.drop dataLen }
  | .readb => { link with call := none }

/-- A protocol error: the buffer is cleared and the socket closed. -/
def EslLink.abort (link : EslLink) (err : Sherr) : EslLink :=
  { link with recvBuff := [], call := none, closed := some err }

/-- The reader reads behind a block. -/
def EslLink.stray (link : EslLink) : EslLink := { link with call := none, fault := true }

/-- The body of the loop of `esl_readb`, after `shnet_read_buf`. -/
def EslLink.pass (addrKey : ShKey) (link : EslLink) (call : EslCall) : EslLink :=
  if link.recvBuff.length < 4 then link.finish call
  else if u16At link.recvBuff 0 ≠ shmem16Magic then link.abort .ilseq
  else if htons (u16At link.recvBuff 2) = eslData then
    match eslReadData link.key link.recvBuff with
    | none =>
      -- the length is beyond its block, and the code reads behind it
      link.stray
    | some (rbuff, .ok data) => { link with recvBuff := rbuff }.append call data
    | some (rbuff, .error .again) =>
      -- the packet is not complete, or is empty
      { link with recvBuff := rbuff }
    | some (_, .error err) => link.abort err
  else
    match eslReadCtrl addrKey link.key link.crypt link.recvBuff with
    | .ok (rbuff, key, crypt) => { link with recvBuff := rbuff, key := key, crypt := crypt }
    | .error .again => link
    | .error err => link.abort err

/-- `MIN_READ_BUFFER_SIZE`. -/
def minReadBufferSize : Nat := 65536

/-- `shnet_read_buf`: one `read(2)`, which returns `count` bytes or what there
is. No byte at all is `EAGAIN`. -/
def EslLink.readBuf (link : EslLink) (count : Nat) : EslLink :=
  let rLen := min count minReadBufferSize
  { link with
    recvBuff := link.recvBuff ++ link.stream.take rLen
    stream := link.stream.drop rLen }

/-- What can happen on a connection. -/
inductive EslEvent
  /-- `esl_write` by the one end -/
  | write (u : Unset) (data : Bytes)
  /-- `esl_read` or `esl_readb` is called at the other end -/
  | call (c : EslCall)
  /-- the call in progress reads its socket and makes a pass -/
  | sock (count : Nat)

/-- One event. A second call cannot start before the first has returned, and
nothing is read from a closed socket, or after a fault. -/
def EslLink.step (addrKey : ShKey) (link : EslLink) : EslEvent → EslLink
  | .write u data =>
    { link with
      sent := link.sent ++ data
      stream := link.stream ++ (eslWriteData link.sendKey u data).flatMap EslPacket.bytes }
  | .call c =>
    if link.call.isSome ∨ link.closed.isSome ∨ link.fault then link
    else
      match c with
      | .read _ => { link with call := some c }
      -- pending data from an earlier `esl_read`
      | .readb => { link with call := some c, out := link.out ++ link.procBuff, procBuff := [] }
  | .sock count =>
    match link.call with
    | none => link
    | some c => (link.readBuf count).pass addrKey c

/-- The connection after a list of events. -/
def EslLink.run (addrKey : ShKey) (link : EslLink) (events : List EslEvent) : EslLink :=
  events.foldl (EslLink.step addrKey) link

end LibShare.Net
