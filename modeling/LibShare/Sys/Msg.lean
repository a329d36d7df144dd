import LibShare.Base

/-!
# libshare — message queues

The shared-memory message queue of `shsys_msg.c`. A queue is a memory map
that holds a table of message slots and a byte area. Four cursors move through
it: `read_idx` and `write_idx` over the slots, `read_of` and `write_of` over
the bytes. A slot is in use while its source key is not blank.

Every call takes the queue's lock for its whole duration and releases it
before it returns. That this makes a call one atomic step of the queue is an
assumption: the lock is a word that is read and then written. `shmsgWrite` and
`shmsgRead` are these steps. A call reads the clock once, and `expire` is the
lock expiration it derives from that reading.

The slot table and the byte area are total functions. Slot numbers stay below
`MAX_MESSAGES_PER_QUEUE` and byte offsets below the size of the area, which
the invariant of `Sys/MsgFifo.lean` states.
-/

namespace LibShare.Sys

/-! ## Layout (`shsys.h`) -/

/-- `MAX_MESSAGES_PER_QUEUE`. -/
def maxMessagesPerQueue : Nat := 2048

/-- `sizeof(shmsg_t)`: two keys and four words. -/
def sizeofShmsg : Nat := 2 * 32 + 4 * 4

/-- `sizeof(shmsgq_t)`: the lock, six words and the slot table. -/
def sizeofShmsgq : Nat := 8 + 6 * 4 + maxMessagesPerQueue * sizeofShmsg

/-- `MESSAGE_QUEUE_SIZE`. -/
def messageQueueSize : Nat := 4096000

/-- The size of the byte area, `MESSAGE_QUEUE_SIZE - sizeof(shmsgq_t)`. -/
def maxLen : Nat := messageQueueSize - sizeofShmsgq

/-- `SHMSGF_OVERFLOW`: discard stale messages when the queue is full. -/
def shmsgfOverflow : UInt32 := (1 : UInt32) <<< 1

/-- `SHMSGF_ANONYMOUS`: read messages whoever they are addressed to. -/
def shmsgfAnonymous : UInt32 := (1 : UInt32) <<< 2

/-- `shmsg_t`. -/
structure Shmsg where
  srcKey : ShKey
  destKey : ShKey
  msgQid : Nat
  msgSize : Nat
  msgOf : Nat

/-- A slot after `memset`. -/
def Shmsg.zero : Shmsg :=
  { srcKey := ashkeyBlank, destKey := ashkeyBlank, msgQid := 0, msgSize := 0, msgOf := 0 }

/-- `shmsgq_t`. -/
structure Shmsgq where
  lockT : UInt64
  flags : UInt32
  readIdx : Nat
  writeIdx : Nat
  readOf : Nat
  writeOf : Nat
  msg : Nat → Shmsg
  data : Nat → UInt8

/-- A queue file as `shmsg_queue_init` creates it, with its flags set. -/
def shmsgQueueInit (flags : UInt32) : Shmsgq :=
  { lockT := 0, flags := flags, readIdx := 0, writeIdx := 0, readOf := 0, writeOf := 0
    msg := fun _ => Shmsg.zero, data := fun _ => 0 }

/-- `shkey_is_blank` of a slot's source key: the slot is free. -/
def Shmsg.isBlank (m : Shmsg) : Bool := m.srcKey == ashkeyBlank

/-- The bytes of the area from an offset on (`shbuf_cat` of a message). -/
def Shmsgq.bytes (map : Shmsgq) (of size : Nat) : Bytes :=
  (List.range size).map fun i => map.data (of + i)

/-- `memcpy` into the byte area. -/
def storeBytes (data : Nat → UInt8) (of : Nat) (buff : Bytes) : Nat → UInt8 :=
  fun i => if of ≤ i ∧ i < of + buff.length then buff.getD (i - of) 0 else data i

/-! ## The lock -/

/-- `shmsg_lock`. -/
def shmsgLock (map : Shmsgq) (now expire : UInt64) : Except Sherr Shmsgq :=
  if map.lockT ≠ 0 ∧ map.lockT > now then .error .again
  else .ok { map with lockT := expire }

/-- `shmsg_unlock`. -/
def shmsgUnlock (map : Shmsgq) : Shmsgq := { map with lockT := 0 }

/-! ## Writing -/

/-- The slots that `shmsg_write_map` tries, in its order. -/
def writeScan (map : Shmsgq) : List Nat :=
  if map.readIdx ≤ map.writeIdx then
    List.range' map.writeIdx (maxMessagesPerQueue - map.writeIdx) ++ List.range map.readIdx
  else
    List.range' map.writeIdx (map.readIdx + 1 - map.writeIdx)

/-- The tail of `shmsg_write_map`: the slot is taken and cleared. -/
def takeSlot (map : Shmsgq) (idx : Nat) : Shmsgq :=
  { map with
    writeIdx := (idx + 1) % maxMessagesPerQueue
    msg := Function.update map.msg idx Shmsg.zero }

/-- `shmsg_write_map`: obtain a message slot. -/
def shmsgWriteMap (map : Shmsgq) : Option (Shmsgq × Nat) :=
  match (writeScan map).find? fun idx => (map.msg idx).isBlank with
  | some idx => some (takeSlot map idx, idx)
  | none =>
    if map.flags &&& shmsgfOverflow = 0 then none
    else
      -- overflow onto the next slot
      let idx := map.readIdx
      let msg := map.msg idx
      let map := { map with
        readIdx := (idx + 1) % maxMessagesPerQueue
        readOf := msg.msgOf + msg.msgSize }
      some (takeSlot map idx, idx)

/-- The write restarts at the beginning of the byte area. -/
def wraps (map : Shmsgq) (size : Nat) : Bool :=
  decide (map.readOf ≤ map.writeOf) && decide (maxLen - map.writeOf < size)

/-- The offset at which `shmsg_write_map_data` places a message, if it finds
room for it between the byte cursors. -/
def writeRoom (map : Shmsgq) (size : Nat) : Option Nat :=
  let startOf := if wraps map size then 0 else map.writeOf
  let endOf := if map.readOf ≤ map.writeOf ∧ wraps map size = false then maxLen else map.readOf
  if endOf - startOf < size then none else some startOf

/-- `shmsg_write_map_data`: append the message content. -/
def shmsgWriteMapData (map : Shmsgq) (idx : Nat) (msgBuff : Bytes) : Except Sherr Shmsgq :=
  match writeRoom map msgBuff.length with
  | none => .error .again
  | some startOf =>
    let msg := { map.msg idx with msgSize := msgBuff.length, msgOf := startOf }
    .ok { map with
      writeOf := startOf + msgBuff.length
      data := storeBytes map.data startOf msgBuff
      msg := Function.update map.msg idx msg }

/-- A process that has opened the queue with `shmsgget`: its own peer key,
which is not blank, and the peer it opened the queue for. -/
structure MsgProc where
  peerKey : ShKey
  destPeer : ShKey
  peerKey_ne : peerKey ≠ ashkeyBlank

/-- `shmsg_write`: the queue afterwards and the status. -/
def shmsgWrite (map : Shmsgq) (proc : MsgProc) (now expire : UInt64) (msgQid : Nat)
    (msgBuff : Bytes) (destKey : Option ShKey) : Shmsgq × Except Sherr Unit :=
  if maxLen ≤ msgBuff.length then (map, .error .inval)
  else
    match shmsgLock map now expire with
    | .error err => (map, .error err)
    | .ok map =>
      -- no free slot
      match shmsgWriteMap map with
      | none => (shmsgUnlock map, .error .again)
      | some (map, idx) =>
        let msg := { map.msg idx with
          srcKey := proc.peerKey
          destKey := destKey.getD proc.destPeer
          msgQid := msgQid }
        let map := { map with msg := Function.update map.msg idx msg }
        match shmsgWriteMapData map idx msgBuff with
        | .error err =>
          -- there is no room for the data: the slot is given back
          let msg := { map.msg idx with srcKey := ashkeyBlank }
          (shmsgUnlock { map with msg := Function.update map.msg idx msg }, .error err)
        | .ok map => (shmsgUnlock map, .ok ())

/-! ## Reading -/

/-- `shmsg_read_valid`. -/
def shmsgReadValid (msg : Shmsg) (destKey : Option ShKey) : Bool :=
  if msg.isBlank then false
  else if msg.msgSize = 0 then false
  else
    match destKey with
    | none => true
    | some key => key == msg.destKey

/-- The slots that `shmsg_read_map` tries, in its order. -/
def readScan (map : Shmsgq) : List Nat :=
  if map.writeIdx ≤ map.readIdx then
    List.range' map.readIdx (maxMessagesPerQueue - map.readIdx) ++ List.range map.writeIdx
  else
    List.range' map.readIdx (map.writeIdx - map.readIdx)

/-- `shmsg_read_map`: scan for readable content. -/
def shmsgReadMap (map : Shmsgq) (destKey : Option ShKey) : Option Nat :=
  (readScan map).find? fun idx => shmsgReadValid (map.msg idx) destKey

/-- The part of `shmsg_read` after a slot has been found. -/
def consume (map : Shmsgq) (idx : Nat) : Shmsgq :=
  let msg := map.msg idx
  { map with
    readIdx := (map.readIdx + 1) % maxMessagesPerQueue
    readOf := if msg.msgOf = map.readOf then map.readOf + msg.msgSize else map.readOf
    msg := Function.update map.msg idx { msg with srcKey := ashkeyBlank } }

/-- `shmsg_read`: the queue afterwards and, on success, the source key and the
content of the message. -/
def shmsgRead (map : Shmsgq) (proc : MsgProc) (now expire : UInt64) :
    Shmsgq × Except Sherr (ShKey × Bytes) :=
  let destKey := if map.flags &&& shmsgfAnonymous = 0 then some proc.peerKey else none
  match shmsgLock map now expire with
  | .error err => (map, .error err)
  | .ok map =>
    match shmsgReadMap map destKey with
    | none => (shmsgUnlock map, .error .nomsg)
    | some idx =>
      let msg := map.msg idx
      (shmsgUnlock (consume map idx), .ok (msg.srcKey, map.bytes msg.msgOf msg.msgSize))

/-! ## Interleavings

A run is a list of calls in the order in which they took the lock, each made by
any process. The log keeps what the successful calls accepted and delivered. -/

/-- A call by some process. -/
inductive MsgCall
  | write (proc : MsgProc) (now expire : UInt64) (msgQid : Nat) (msgBuff : Bytes)
      (destKey : Option ShKey)
  | read (proc : MsgProc) (now expire : UInt64)

/-- A queue with the contents accepted and delivered so far. -/
structure MsgLog where
  queue : Shmsgq
  accepted : List Bytes
  delivered : List Bytes

/-- One call. -/
def MsgLog.step (log : MsgLog) : MsgCall → MsgLog
  | .write proc now expire msgQid msgBuff destKey =>
    match shmsgWrite log.queue proc now expire msgQid msgBuff destKey with
    | (q, .ok _) => { log with queue := q, accepted := log.accepted ++ [msgBuff] }
    | (q, .error _) => { log with queue := q }
  | .read proc now expire =>
    match shmsgRead log.queue proc now expire with
    | (q, .ok (_, content)) => { log with queue := q, delivered := log.delivered ++ [content] }
    | (q, .error _) => { log with queue := q }

/-- A new queue. -/
def MsgLog.init (flags : UInt32) : MsgLog :=
  { queue := shmsgQueueInit flags, accepted := [], delivered := [] }

/-- The queue after a run. -/
def MsgLog.run (log : MsgLog) (calls : List MsgCall) : MsgLog := calls.foldl MsgLog.step log

end LibShare.Sys
