import LibShare.Base
import LibShare.Lib.Transfer

/-!
# libshare — the process pool

The pool of worker processes of `shsys_proc.c`. A worker is forked with two
socket pairs to its parent: a stream that carries requests down and replies up,
and a datagram pair that passes an open descriptor. A message on the stream is a
header, `shproc_req_t`, and a payload of the length that the header names.

* The stream is non-blocking. How much of it each call of `read` finds, and how
  much each call of `write` can place, is decided by the kernel and by how far
  the other process has come: `Fragments` holds these limits for the calls of one
  `shproc_read` or one `shproc_write`. A call that finds nothing, or no room, has
  the status `EAGAIN`, which is `SHERR_AGAIN`, and so has a call at the end of
  the stream.
* What a process writes stays in the stream until it is read, so a poll of one
  process may be taken as one step: what it writes late is what the other finds
  late. The parent polls from its own code, not out of the response callback.
* `int`s that hold a descriptor or a status are their 32-bit words. Offsets into
  a message are natural numbers; the source counts them in an `int`.
* `asked` and `answered` record what the parent has scheduled on a worker and the
  calls of its response callback.
-/

namespace LibShare.Sys

/-! ## Messages (`shsys.h`) -/

/-- The states of a process slot. -/
inductive ShprocState
  | none
  | idle
  | pend
  | run
deriving DecidableEq, Repr

/-- `SHPROC_NONE`, `SHPROC_IDLE`, `SHPROC_PEND`, `SHPROC_RUN`. -/
def ShprocState.code : ShprocState → UInt32
  | .none => 0
  | .idle => 1
  | .pend => 2
  | .run => 3

/-- `shproc_req_t`. -/
structure ShprocReq where
  state : UInt32
  error : UInt32
  crc : UInt32
  dataLen : UInt32
  userFd : UInt32
deriving DecidableEq, Repr

/-- `sizeof(shproc_req_t)`. -/
def sizeofReq : Nat := 20

/-- The bytes of a header. -/
def ShprocReq.toBytes (req : ShprocReq) : Bytes :=
  [req.state, req.error, req.crc, req.dataLen, req.userFd].flatMap leBytes32

/-- A header as `read` leaves it; nothing unless the read is complete. -/
def ShprocReq.ofBytes (bs : Bytes) : Option ShprocReq :=
  if bs.length = sizeofReq then
    some
      { state := leWord32 (bs.take 4)
        error := leWord32 ((bs.drop 4).take 4)
        crc := leWord32 ((bs.drop 8).take 4)
        dataLen := leWord32 ((bs.drop 12).take 4)
        userFd := leWord32 ((bs.drop 16).take 4) }
  else none

/-! ## Processes -/

/-- `shproc_t`: the record that each of the two processes has of the worker. -/
structure ShprocT where
  state : ShprocState
  userFd : UInt32
  error : UInt32
  buff : Bytes
deriving DecidableEq, Repr

/-- The limits of the calls that transfer one message: of the call for the
header, and of the calls for the payload. -/
structure Fragments where
  hdr : Nat
  body : Nat → Nat

/-- The header that `shproc_write` sends. The length is cut to 32 bits. -/
def reqHeader (state : ShprocState) (error userFd : UInt32) (data : Bytes) : ShprocReq :=
  { state := state.code
    error := error
    crc := shcrc32 data
    dataLen := UInt32.ofNat data.length
    userFd := userFd }

/-- `shproc_write`: the stream, and whether the status is zero. A header that is
cut short is not completed. -/
def shprocWrite (f : Fragments) (req : ShprocReq) (data stream : Bytes) : Bytes × Bool :=
  if f.hdr = 0 then (stream, false)
  else sendLoop f.body data.length 0 data (stream ++ req.toBytes.take f.hdr)

/-- The status of `shproc_read`: zero, one for nothing to read, or an error. -/
inductive ReadStatus
  | ok
  | nothing
  | again
deriving DecidableEq, Repr

/-- What `shproc_read` takes from the header before it reads the payload: the
parent the state, the worker the descriptor. -/
def acceptHeader (isChild : Bool) (proc : ShprocT) (req : ShprocReq) : ShprocT :=
  if isChild then { proc with userFd := req.userFd }
  else if req.state = ShprocState.run.code then { proc with state := .run }
  else if req.state = ShprocState.idle.code then { proc with state := .idle, userFd := 0 }
  else proc

/-- `shproc_read`: the record, the stream and the status. The bytes of a header
that is cut short are dropped. -/
def shprocRead (isChild : Bool) (f : Fragments) (proc : ShprocT) (stream : Bytes) :
    ShprocT × Bytes × ReadStatus :=
  let n := min sizeofReq f.hdr
  match ShprocReq.ofBytes (stream.take n) with
  | none => (proc, stream.drop n, .nothing)
  | some req =>
    let proc := acceptHeader isChild proc req
    match recvLoop f.body 32768 req.dataLen.toNat req.dataLen.toNat 0 (stream.drop n) [] with
    | (data, stream, false) => ({ proc with buff := data }, stream, .again)
    | (data, stream, true) => ({ proc with buff := data, error := req.error }, stream, .ok)

/-! ## A worker and its parent -/

/-- A request: the descriptor that goes with it, if any, and its data. -/
structure Request where
  fd : UInt32
  data : Bytes
deriving DecidableEq, Repr

/-- What the response callback is called with. -/
structure Reply where
  error : UInt32
  data : Bytes
deriving DecidableEq, Repr

/-- The request callback (`proc_req`) in a worker with memory `σ`: it is given
the descriptor and the buffer, and leaves a status and the buffer. -/
abbrev ShprocOp (σ : Type) := σ → UInt32 → Bytes → σ × Reply

/-- A slot of the pool: the parent's record, the worker, and what is between
them. -/
structure Link (σ : Type) where
  parent : ShprocT
  child : ShprocT
  mem : σ
  down : Bytes
  up : Bytes
  fds : List UInt32
  asked : List Request
  answered : List Reply

variable {σ : Type}

/-- A slot that no worker has been started in. -/
def Link.none (mem : σ) : Link σ :=
  let proc := { state := .none, userFd := 0, error := 0, buff := [] }
  { parent := proc, child := proc, mem := mem, down := [], up := [], fds := []
    asked := [], answered := [] }

/-- `shproc_fork`, in a slot without a worker: both records are idle. -/
def shprocFork (l : Link σ) : Link σ :=
  if l.parent.state ≠ .none then l
  else
    { l with
      parent := { l.parent with state := .idle, buff := [] }
      child := { l.parent with state := .idle, buff := [] }
      down := [], up := [], fds := [] }

/-- `shproc_setfd` unless there is no descriptor, and `shproc_schedule`: the slot
and whether the status is zero. -/
def shprocSchedule (f : Fragments) (r : Request) (l : Link σ) : Link σ × Bool :=
  let fd := if r.fd ≠ 0 then r.fd else l.parent.userFd
  let parent := { l.parent with userFd := fd, buff := r.data }
  match shprocWrite f (reqHeader .run 0 fd r.data) r.data l.down with
  | (down, false) => ({ l with parent := parent, down := down }, false)
  | (down, true) =>
    ({ l with
      parent := { parent with state := .pend }
      down := down
      fds := if fd ≠ 0 then l.fds ++ [fd] else l.fds
      asked := l.asked ++ [r] }, true)

/-- `shproc_child_poll`. The statuses of the two writes are not looked at. Without
a value the worker waits for a descriptor. -/
def shprocChildPoll (req : ShprocOp σ) (f w w' : Fragments) (l : Link σ) : Option (Link σ) :=
  match shprocRead true f l.child l.down with
  | (child, down, .nothing) | (child, down, .again) => some { l with child := child, down := down }
  | (child, down, .ok) =>
    let data := child.buff
    let up := (shprocWrite w (reqHeader .run 0 0 []) [] l.up).1
    -- `shproc_read_fd`
    match (if child.userFd ≠ 0 then l.fds else 0 :: l.fds) with
    | [] => none
    | fd :: fds =>
      let (mem, reply) := req l.mem fd data
      some { l with
        child := { child with state := .idle, buff := [] }
        mem := mem
        down := down
        up := (shprocWrite w' (reqHeader .idle reply.error 0 reply.data) reply.data up).1
        fds := fds }

/-- The loop of `shproc_parent_poll`, with the limits for each pass; there is
nothing more to read after the last one. -/
def parentLoop (l : Link σ) : List Fragments → Link σ
  | [] => l
  | f :: fs =>
    match shprocRead false f l.parent l.up with
    | (parent, up, .nothing) | (parent, up, .again) => { l with parent := parent, up := up }
    | (parent, up, .ok) =>
      -- not a response
      if parent.state ≠ .idle then parentLoop { l with parent := parent, up := up } fs
      else
        parentLoop { l with
          parent := { parent with error := 0 }
          up := up
          answered := l.answered ++ [{ error := parent.error, data := parent.buff }] } fs

/-- `shproc_parent_poll`. `shproc_stop` of a process that `kill` does not reach
fails in the same way, and leaves the slot as it is. -/
def shprocParentPoll (alive : Bool) (fs : List Fragments) (l : Link σ) : Link σ :=
  if l.parent.state = .none ∨ alive = false ∨ l.parent.state = .idle then l
  else parentLoop l fs

/-! ## The pool -/

/-- `shproc_pool_t`: its slots. -/
abbrev Pool (σ : Type) := List (Link σ)

/-- `shproc_init`, with a number of slots. -/
def shprocInit (n : Nat) (mem : σ) : Pool σ := List.replicate n (Link.none mem)

/-- `shproc_get`: the first slot with a state. -/
def shprocGet (pool : Pool σ) (state : ShprocState) : Option Nat :=
  pool.findIdx? fun l => decide (l.parent.state = state)

/-- `shproc_start`: a worker in the first slot without one. -/
def shprocStart (pool : Pool σ) : Pool σ × Option Nat :=
  match shprocGet pool .none with
  | some i => (pool.modify i shprocFork, some i)
  | none => (pool, none)

/-- `shproc_pull`: an idle worker, or a new one. -/
def shprocPull (pool : Pool σ) : Pool σ × Option Nat :=
  match shprocGet pool .idle with
  | some i => (pool, some i)
  | none => shprocStart pool

/-- `shproc_push`. -/
def shprocPush (f : Fragments) (r : Request) (pool : Pool σ) : Pool σ :=
  match shprocPull pool with
  | (pool, none) => pool
  | (pool, some i) => pool.modify i fun l => (shprocSchedule f r l).1

/-- The steps of the parent and of its workers, in any order. `shproc_poll` is a
`poll` of every slot. -/
inductive ProcEvent
  | start
  | push (f : Fragments) (r : Request)
  | schedule (i : Nat) (f : Fragments) (r : Request)
  | poll (i : Nat) (alive : Bool) (fs : List Fragments)
  | child (i : Nat) (f w w' : Fragments)

/-- One step. -/
def ProcEvent.run (req : ShprocOp σ) (pool : Pool σ) : ProcEvent → Option (Pool σ)
  | .start => some (shprocStart pool).1
  | .push f r => some (shprocPush f r pool)
  | .schedule i f r => some (pool.modify i fun l => (shprocSchedule f r l).1)
  | .poll i alive fs => some (pool.modify i (shprocParentPoll alive fs))
  | .child i f w w' =>
    match pool[i]? with
    | none => none
    | some l => (shprocChildPoll req f w w' l).map fun l' => pool.set i l'

/-- The pools that are reached from a new one by steps that meet a condition. -/
inductive ProcRun (req : ShprocOp σ) (n : Nat) (mem : σ) (ok : Pool σ → ProcEvent → Prop) :
    Pool σ → Prop
  | init : ProcRun req n mem ok (shprocInit n mem)
  | step {pool pool' : Pool σ} {e : ProcEvent} : ProcRun req n mem ok pool → ok pool e →
    e.run req pool = some pool' → ProcRun req n mem ok pool'

end LibShare.Sys
