import LibShare.Sys.Proc

/-!
# libshare — requests and replies of the process pool

What a worker answers is the reply to what it was asked. The parent and a worker
exchange one message at a time: the request, then a header that says that the
worker runs, then the reply. `Paired` lists where a slot of the pool can be in
that exchange, with what is in the streams.

* A step keeps `Paired` when its transfers are whole: a read of a header finds all
  of it or nothing, a read of a payload finds something, and a write has room; and
  when the worker that is given a request is idle. `requests_paired` is the result
  for the runs of such steps: every request has been answered by one call of the
  response callback, with the reply of the worker to that request, except for the
  one that a worker which is not idle still has.
* A header or a payload that is read in part is lost: `reply_lost` is a run whose
  worker is idle again without its reply.
-/

namespace LibShare.Sys

variable {σ : Type}

/-! ## Replies -/

/-- The replies of a worker to a list of requests. -/
def serve (req : ShprocOp σ) : σ → List Request → List Reply
  | _, [] => []
  | mem, r :: rs => (req mem r.fd r.data).2 :: serve req (req mem r.fd r.data).1 rs

/-- The memory of a worker after a list of requests. -/
def memAfter (req : ShprocOp σ) : σ → List Request → σ
  | mem, [] => mem
  | mem, r :: rs => memAfter req (req mem r.fd r.data).1 rs

/-- The replies to messages of less than 2^31 bytes are as short. -/
def SmallReplies (req : ShprocOp σ) : Prop :=
  ∀ mem fd data, data.length < 2 ^ 31 → (req mem fd data).2.data.length < 2 ^ 31

/-- The reply to the last request comes last. -/
theorem serve_concat (req : ShprocOp σ) (r : Request) : ∀ (mem : σ) (rs : List Request),
    serve req mem (rs ++ [r]) = serve req mem rs ++
      [(req (memAfter req mem rs) r.fd r.data).2] := by
  intro mem rs
  induction rs generalizing mem with
  | nil => rfl
  | cons r' rs ih => simp only [List.cons_append, serve, memAfter, ih]

/-- What the worker remembers after the last request. -/
theorem memAfter_concat (req : ShprocOp σ) (r : Request) : ∀ (mem : σ) (rs : List Request),
    memAfter req mem (rs ++ [r]) = (req (memAfter req mem rs) r.fd r.data).1 := by
  intro mem rs
  induction rs generalizing mem with
  | nil => rfl
  | cons r' rs ih => simp only [List.cons_append, memAfter, ih]

/-- There are as many replies as requests. -/
theorem length_serve (req : ShprocOp σ) : ∀ (mem : σ) (rs : List Request),
    (serve req mem rs).length = rs.length := by
  intro mem rs
  induction rs generalizing mem with
  | nil => rfl
  | cons r rs ih => rw [serve, List.length_cons, List.length_cons, ih]

/-! ## Messages -/

/-- Room for a whole header, and for something of the payload in every call. -/
def Fragments.Whole (f : Fragments) : Prop := sizeofReq ≤ f.hdr ∧ ∀ j, 0 < f.body j

/-- A read that finds a whole message, or nothing of it. -/
def Fragments.Clean (f : Fragments) : Prop := f.hdr = 0 ∨ f.Whole

theorem ShprocReq.length_toBytes (req : ShprocReq) : req.toBytes.length = sizeofReq := by
  rw [ShprocReq.toBytes, length_flatMap_leBytes32]
  rfl

/-- A header is read as it was written. -/
theorem ShprocReq.ofBytes_toBytes (req : ShprocReq) : ShprocReq.ofBytes req.toBytes = some req := by
  have hword : ∀ (i : Nat) (hi : i < 5), leWord32 ((req.toBytes.drop (4 * i)).take 4) =
      [req.state, req.error, req.crc, req.dataLen, req.userFd].get ⟨i, hi⟩ := by
    intro i hi
    have h := word_in_row [] [req.state, req.error, req.crc, req.dataLen, req.userFd] i hi
    rw [List.append_nil] at h
    rw [ShprocReq.toBytes, h, leWord32_leBytes32]
  rw [ShprocReq.ofBytes, if_pos req.length_toBytes]
  congr 1
  rw [ShprocReq.mk.injEq]
  exact ⟨hword 0 (by omega), hword 1 (by omega), hword 2 (by omega), hword 3 (by omega),
    hword 4 (by omega)⟩

/-- A message in the stream. -/
def message (state : ShprocState) (error userFd : UInt32) (data : Bytes) : Bytes :=
  (reqHeader state error userFd data).toBytes ++ data

/-- With whole transfers a message is written behind what is under way. -/
theorem shprocWrite_whole {f : Fragments} (hf : f.Whole) (state : ShprocState)
    (error userFd : UInt32) (data stream : Bytes) :
    shprocWrite f (reqHeader state error userFd data) data stream =
      (stream ++ message state error userFd data, true) := by
  have hhdr : f.hdr ≠ 0 := fun h => absurd hf.1 (by rw [h]; decide)
  rw [shprocWrite, if_neg hhdr, sendLoop_full hf.2 (Nat.le_refl _),
    List.take_of_length_le (by rw [ShprocReq.length_toBytes]; exact hf.1), List.append_assoc]
  rfl

/-- A whole message is read as it was written. -/
theorem shprocRead_whole {f : Fragments} (hf : f.Whole) (isChild : Bool) (proc : ShprocT)
    (state : ShprocState) (error userFd : UInt32) (data rest : Bytes)
    (hlen : data.length < 2 ^ 31) :
    shprocRead isChild f proc (message state error userFd data ++ rest) =
      ({ acceptHeader isChild proc (reqHeader state error userFd data) with
          buff := data, error := error }, rest, .ok) := by
  have hn : min sizeofReq f.hdr = (reqHeader state error userFd data).toBytes.length := by
    rw [ShprocReq.length_toBytes]
    exact Nat.min_eq_left hf.1
  have hdata : (reqHeader state error userFd data).dataLen.toNat = data.length :=
    UInt32.toNat_ofNat_of_lt' (Nat.lt_trans hlen (by decide))
  have hrecv : recvLoop f.body 32768 data.length data.length 0 (data ++ rest) [] =
      (data, rest, true) := by
    rw [recvLoop_full hf.2 (by decide) (Nat.le_refl _) (by simp), List.take_left, List.drop_left]
    rfl
  simp only [shprocRead, message, hn, List.append_assoc, List.take_left, List.drop_left,
    ShprocReq.ofBytes_toBytes, hdata, hrecv]
  rfl

/-- Where nothing has come, nothing is read. -/
theorem shprocRead_nothing {f : Fragments} {stream : Bytes} (h : f.hdr = 0 ∨ stream = [])
    (isChild : Bool) (proc : ShprocT) :
    shprocRead isChild f proc stream = (proc, stream, .nothing) := by
  have htake : stream.take (min sizeofReq f.hdr) = [] := by
    rcases h with h | h
    · rw [h, Nat.min_zero, List.take_zero]
    · rw [h, List.take_nil]
  have hdrop : stream.drop (min sizeofReq f.hdr) = stream := by
    rcases h with h | h
    · rw [h, Nat.min_zero, List.drop_zero]
    · rw [h, List.drop_nil]
  simp only [shprocRead, htake, hdrop]
  rfl

/-! ## Where an exchange can be -/

/-- The descriptors that are passed with a request. -/
def passed (r : Request) : List UInt32 := if r.fd ≠ 0 then [r.fd] else []

/-- A slot of the pool and the request that it has, if any. -/
inductive Paired (req : ShprocOp σ) (mem : σ) (l : Link σ) : Prop
  /-- no worker has been started -/
  | unused (state : l.parent.state = .none) (userFd : l.parent.userFd = 0) (down : l.down = [])
    (asked : l.asked = []) (answered : l.answered = []) (mem_eq : l.mem = mem)
  /-- every request has been answered -/
  | idle (state : l.parent.state = .idle) (userFd : l.parent.userFd = 0) (down : l.down = [])
    (up : l.up = []) (fds : l.fds = []) (answered : l.answered = serve req mem l.asked)
    (mem_eq : l.mem = memAfter req mem l.asked)
  /-- the worker has not read the request -/
  | sent (rs : List Request) (r : Request) (asked : l.asked = rs ++ [r])
    (len : r.data.length < 2 ^ 31) (state : l.parent.state = .pend)
    (down : l.down = message .run 0 r.fd r.data) (up : l.up = []) (fds : l.fds = passed r)
    (answered : l.answered = serve req mem rs) (mem_eq : l.mem = memAfter req mem rs)
  /-- the worker has replied, and the parent has not read that it runs -/
  | served (rs : List Request) (reply : Reply) (len : reply.data.length < 2 ^ 31)
    (asked : serve req mem l.asked = serve req mem rs ++ [reply]) (state : l.parent.state = .pend)
    (down : l.down = []) (up : l.up = message .run 0 0 [] ++ message .idle reply.error 0 reply.data)
    (fds : l.fds = []) (answered : l.answered = serve req mem rs)
    (mem_eq : l.mem = memAfter req mem l.asked)
  /-- the parent has not read the reply -/
  | running (rs : List Request) (reply : Reply) (len : reply.data.length < 2 ^ 31)
    (asked : serve req mem l.asked = serve req mem rs ++ [reply]) (state : l.parent.state = .run)
    (down : l.down = []) (up : l.up = message .idle reply.error 0 reply.data) (fds : l.fds = [])
    (answered : l.answered = serve req mem rs) (mem_eq : l.mem = memAfter req mem l.asked)

section Steps

variable {req : ShprocOp σ} {mem : σ} {l : Link σ}

/-- A message has at least its header. -/
theorem message_ne_nil (state : ShprocState) (error userFd : UInt32) (data : Bytes) :
    message state error userFd data ≠ [] := by
  intro h
  have hlen := congrArg List.length h
  rw [message, List.length_append, ShprocReq.length_toBytes] at hlen
  exact absurd hlen (by simp [sizeofReq])

/-- A new worker has nothing to reply to. -/
theorem Paired.fork (h : Paired req mem l) : Paired req mem (shprocFork l) := by
  by_cases hnone : l.parent.state = .none
  · rw [shprocFork, if_neg (not_not.mpr hnone)]
    cases h with
    | unused _ userFd _ asked answered mem_eq =>
      refine .idle rfl userFd rfl rfl rfl ?_ ?_
      · simp only [answered, asked, serve]
      · simp only [mem_eq, asked, memAfter]
    | idle state => simp [state] at hnone
    | sent _ _ _ _ state => simp [state] at hnone
    | served _ _ _ _ state => simp [state] at hnone
    | running _ _ _ _ state => simp [state] at hnone
  · rw [shprocFork, if_pos hnone]
    exact h

/-- An idle worker is given a request. -/
theorem Paired.schedule {f : Fragments} {r : Request} (h : Paired req mem l)
    (hidle : l.parent.state = .idle) (hf : f.Whole) (hlen : r.data.length < 2 ^ 31) :
    Paired req mem (shprocSchedule f r l).1 := by
  cases h with
  | idle _ userFd down up fds answered mem_eq =>
    have hfd : (if r.fd ≠ 0 then r.fd else l.parent.userFd) = r.fd := by
      rw [userFd]
      split
      · rfl
      · next h0 => exact (not_not.mp h0).symm
    simp only [shprocSchedule, hfd, shprocWrite_whole hf, down, fds, List.nil_append]
    exact .sent l.asked r rfl hlen rfl rfl up rfl answered mem_eq
  | unused state => simp [state] at hidle
  | sent _ _ _ _ state => simp [state] at hidle
  | served _ _ _ _ state => simp [state] at hidle
  | running _ _ _ _ state => simp [state] at hidle

/-! ## The worker -/

/-- A worker without a request does nothing. -/
theorem childPoll_nothing {f w w' : Fragments} (h : f.hdr = 0 ∨ l.down = []) :
    shprocChildPoll req f w w' l = some l := by
  rw [shprocChildPoll, shprocRead_nothing h]

/-- The worker reads a request, runs it and replies. -/
theorem childPoll_request {f w w' : Fragments} {r : Request} (hf : f.Whole) (hw : w.Whole)
    (hw' : w'.Whole) (hlen : r.data.length < 2 ^ 31) (hdown : l.down = message .run 0 r.fd r.data)
    (hup : l.up = []) (hfds : l.fds = passed r) :
    shprocChildPoll req f w w' l = some
      { l with
        child := { l.child with state := .idle, userFd := r.fd, error := 0, buff := [] }
        mem := (req l.mem r.fd r.data).1
        down := []
        up := message .run 0 0 [] ++ message .idle (req l.mem r.fd r.data).2.error 0
          (req l.mem r.fd r.data).2.data
        fds := [] } := by
  have hread : shprocRead true f l.child l.down =
      ({ l.child with userFd := r.fd, error := 0, buff := r.data }, [], .ok) := by
    rw [hdown, ← List.append_nil (message _ _ _ _), shprocRead_whole hf _ _ _ _ _ _ _ hlen]
    rfl
  have hrecv : (if r.fd ≠ 0 then l.fds else 0 :: l.fds) = [r.fd] := by
    rw [hfds, passed]
    split
    · rfl
    · next h0 => rw [not_not.mp h0]
  simp only [shprocChildPoll, hread, hrecv, shprocWrite_whole hw, shprocWrite_whole hw', hup,
    List.nil_append]

/-- A poll of the worker; a whole one takes the request. -/
theorem Paired.childPoll {f w w' : Fragments}
    (hreq : SmallReplies req) (h : Paired req mem l)
    (hf : f.Clean) (hw : w.Whole) (hw' : w'.Whole) :
    ∃ l', shprocChildPoll req f w w' l = some l' ∧ Paired req mem l' ∧ l'.parent = l.parent ∧
      l'.asked = l.asked ∧ (f.Whole → l'.down = []) := by
  -- only a request that has not been read changes anything
  by_cases hdown : l.down = []
  · exact ⟨l, childPoll_nothing (Or.inr hdown), h, rfl, rfl, fun _ => hdown⟩
  rcases hf with hzero | hf
  · refine ⟨l, childPoll_nothing (Or.inl hzero), h, rfl, rfl, fun hwhole => ?_⟩
    exact absurd hwhole.1 (by rw [hzero]; decide)
  cases h with
  | sent rs r asked len state down up fds answered mem_eq =>
    refine ⟨_, childPoll_request hf hw hw' len down up fds, ?_, rfl, rfl, fun _ => rfl⟩
    refine .served rs (req l.mem r.fd r.data).2 (hreq _ _ _ len) ?_ state rfl rfl rfl answered ?_
    · rw [asked, serve_concat, mem_eq]
    · show (req l.mem r.fd r.data).1 = _
      rw [asked, memAfter_concat, mem_eq]
  | unused _ _ down => exact absurd down hdown
  | idle _ _ down => exact absurd down hdown
  | served _ _ _ _ _ down => exact absurd down hdown
  | running _ _ _ _ _ down => exact absurd down hdown

/-! ## The parent -/

/-- The parent without a message stops reading. -/
theorem parentLoop_nothing {f : Fragments} (fs : List Fragments) (h : f.hdr = 0 ∨ l.up = []) :
    parentLoop l (f :: fs) = l := by
  rw [parentLoop, shprocRead_nothing h]

/-- The parent reads that the worker runs, and goes on. -/
theorem parentLoop_run {f : Fragments} (fs : List Fragments) {rest : Bytes} (hf : f.Whole)
    (hup : l.up = message .run 0 0 [] ++ rest) :
    parentLoop l (f :: fs) = parentLoop
      { l with parent := { l.parent with state := .run, error := 0, buff := [] }, up := rest }
      fs := by
  have hread : shprocRead false f l.parent l.up =
      ({ l.parent with state := .run, error := 0, buff := [] }, rest, .ok) := by
    rw [hup, shprocRead_whole hf _ _ _ _ _ _ _ (by decide)]
    rfl
  simp [parentLoop, hread]

/-- The parent reads the reply, and goes on. -/
theorem parentLoop_reply {f : Fragments} (fs : List Fragments) {error : UInt32} {data : Bytes}
    (hf : f.Whole) (hlen : data.length < 2 ^ 31) (hup : l.up = message .idle error 0 data) :
    parentLoop l (f :: fs) = parentLoop
      { l with
        parent := { l.parent with state := .idle, userFd := 0, error := 0, buff := data }
        up := []
        answered := l.answered ++ [{ error := error, data := data }] } fs := by
  have hread : shprocRead false f l.parent l.up =
      ({ l.parent with state := .idle, userFd := 0, error := error, buff := data }, [], .ok) := by
    rw [hup, ← List.append_nil (message _ _ _ _), shprocRead_whole hf _ _ _ _ _ _ _ hlen]
    rfl
  simp [parentLoop, hread]

/-- The passes of the loop of the parent. -/
theorem Paired.parentLoop : ∀ {fs : List Fragments} {l : Link σ}, (∀ f ∈ fs, f.Clean) →
    l.parent.state ≠ .none → Paired req mem l →
      Paired req mem (Sys.parentLoop l fs) ∧ (Sys.parentLoop l fs).asked = l.asked := by
  intro fs
  induction fs with
  | nil => exact fun _ _ h => ⟨h, rfl⟩
  | cons f fs ih =>
    intro l hclean hstate h
    have hfs : ∀ g ∈ fs, g.Clean := fun g hg => hclean g (List.mem_cons_of_mem _ hg)
    by_cases hnothing : f.hdr = 0 ∨ l.up = []
    · rw [parentLoop_nothing fs hnothing]
      exact ⟨h, rfl⟩
    rw [not_or] at hnothing
    have hf : f.Whole := (hclean f List.mem_cons_self).resolve_left hnothing.1
    cases h with
    | unused state => exact absurd state hstate
    | idle _ _ _ up => exact absurd up hnothing.2
    | sent _ _ _ _ _ _ up => exact absurd up hnothing.2
    | served rs reply len asked state down up fds answered mem_eq =>
      rw [parentLoop_run fs hf up]
      exact ih hfs nofun (.running rs reply len asked rfl down rfl fds answered mem_eq)
    | running rs reply len asked state down up fds answered mem_eq =>
      rw [parentLoop_reply fs hf len up]
      refine ih hfs nofun (.idle rfl rfl down rfl fds ?_ mem_eq)
      rw [asked, answered]

/-- A poll of the parent keeps requests and replies paired. -/
theorem Paired.parentPoll {alive : Bool} {fs : List Fragments} (h : Paired req mem l)
    (hclean : ∀ f ∈ fs, f.Clean) : Paired req mem (shprocParentPoll alive fs l) := by
  unfold shprocParentPoll
  split
  · exact h
  · next hstate =>
    rw [not_or] at hstate
    exact (h.parentLoop hclean hstate.1).1

/-- A slot whose worker has read what it was sent: one poll brings the reply. -/
theorem Paired.poll_reply {a b : Fragments} (h : Paired req mem l) (hdown : l.down = [])
    (hstate : l.parent.state ≠ .none) (ha : a.Whole) (hb : b.Whole) :
    (shprocParentPoll true [a, b] l).parent.state = .idle ∧
      (shprocParentPoll true [a, b] l).answered = serve req mem l.asked := by
  cases h with
  | unused state => exact absurd state hstate
  | idle state _ _ _ _ answered =>
    rw [shprocParentPoll, if_pos (Or.inr (Or.inr state))]
    exact ⟨state, answered⟩
  | sent _ _ _ _ _ down =>
    rw [hdown] at down
    exact absurd down.symm (message_ne_nil _ _ _ _)
  | served rs reply len asked state _ up _ answered =>
    rw [shprocParentPoll, if_neg (by simp [state]), parentLoop_run [b] ha up,
      parentLoop_reply [] hb len rfl]
    refine ⟨rfl, ?_⟩
    rw [asked, ← answered]
    rfl
  | running rs reply len asked state _ up _ answered =>
    rw [shprocParentPoll, if_neg (by simp [state]), parentLoop_reply [b] ha len up,
      parentLoop_nothing [] (Or.inr rfl)]
    refine ⟨rfl, ?_⟩
    rw [asked, ← answered]

end Steps

/-! ## Runs of the pool -/

/-- What the step writes has room, and a request goes to an idle worker. -/
def ProcEvent.Placed (pool : Pool σ) : ProcEvent → Prop
  | .start => True
  | .push f r => f.Whole ∧ r.data.length < 2 ^ 31
  | .schedule i f r => f.Whole ∧ r.data.length < 2 ^ 31 ∧
    ∀ l, pool[i]? = some l → l.parent.state = .idle
  | .poll _ _ _ => True
  | .child _ _ w w' => w.Whole ∧ w'.Whole

/-- What the step reads is not cut. -/
def ProcEvent.ReadsWhole : ProcEvent → Prop
  | .poll _ _ fs => ∀ f ∈ fs, f.Clean
  | .child _ f _ _ => f.Clean
  | _ => True

/-- The transfers of the step are whole. -/
def ProcEvent.Clean (pool : Pool σ) (ev : ProcEvent) : Prop := ev.Placed pool ∧ ev.ReadsWhole

/-- Every slot of the pool is paired. -/
def AllPaired (req : ShprocOp σ) (mem : σ) (pool : Pool σ) : Prop :=
  ∀ (i : Nat) (l : Link σ), pool[i]? = some l → Paired req mem l

section Pools

variable {req : ShprocOp σ} {mem : σ} {pool : Pool σ}

/-- A change to one worker keeps all pairs if it keeps its own. -/
theorem AllPaired.modify {i : Nat} {g : Link σ → Link σ} (h : AllPaired req mem pool)
    (hg : ∀ l, pool[i]? = some l → Paired req mem (g l)) : AllPaired req mem (pool.modify i g) := by
  intro j l hl
  rw [List.getElem?_modify] at hl
  obtain ⟨l0, h0, rfl⟩ := Option.map_eq_some_iff.mp hl
  by_cases hij : i = j
  · subst hij
    rw [if_pos rfl]
    exact hg l0 h0
  · rw [if_neg hij]
    exact h j l0 h0

/-- A worker may be replaced by one whose pairs are right. -/
theorem AllPaired.set {i : Nat} {l' : Link σ} (h : AllPaired req mem pool)
    (hl' : Paired req mem l') : AllPaired req mem (pool.set i l') := by
  intro j l hl
  rcases List.mem_or_eq_of_mem_set (List.mem_of_getElem? hl) with hmem | rfl
  · obtain ⟨k, hk⟩ := List.getElem?_of_mem hmem
    exact h k l hk
  · exact hl'

/-- The worker that is found has the state that was looked for. -/
theorem shprocGet_state {state : ShprocState} {i : Nat} (h : shprocGet pool state = some i) :
    ∃ l, pool[i]? = some l ∧ l.parent.state = state := by
  obtain ⟨hlt, hstate, -⟩ := List.findIdx?_eq_some_iff_getElem.mp h
  exact ⟨pool[i], List.getElem?_eq_getElem hlt, of_decide_eq_true hstate⟩

/-- The start of a worker keeps all pairs. -/
theorem AllPaired.start (h : AllPaired req mem pool) : AllPaired req mem (shprocStart pool).1 := by
  unfold shprocStart
  split
  · exact h.modify fun l hl => (h _ l hl).fork
  · exact h

/-- The worker that a request is pushed to is idle. -/
theorem shprocPull_idle {i : Nat} (h : (shprocPull pool).2 = some i) :
    ∀ l, (shprocPull pool).1[i]? = some l → l.parent.state = .idle := by
  intro l hl
  unfold shprocPull shprocStart at h hl
  split at h
  · next j hget =>
    rw [hget] at hl
    cases h
    obtain ⟨l0, h0, hstate⟩ := shprocGet_state hget
    rw [h0] at hl
    cases hl
    exact hstate
  · next hget =>
    rw [hget] at hl
    split at h
    · next j hnone =>
      rw [hnone] at hl
      cases h
      obtain ⟨l0, h0, hstate⟩ := shprocGet_state hnone
      rw [List.getElem?_modify, h0] at hl
      simp only [if_true, Option.map_eq_map, Option.map_some, Option.some.injEq] at hl
      rw [← hl, shprocFork, if_neg (not_not.mpr hstate)]
    · cases h

/-- The choice of a worker keeps all pairs. -/
theorem AllPaired.pull (h : AllPaired req mem pool) : AllPaired req mem (shprocPull pool).1 := by
  unfold shprocPull
  split
  · exact h
  · exact h.start

/-- A request that is sent as a whole keeps all pairs. -/
theorem AllPaired.push {f : Fragments} {r : Request} (h : AllPaired req mem pool) (hf : f.Whole)
    (hlen : r.data.length < 2 ^ 31) : AllPaired req mem (shprocPush f r pool) := by
  unfold shprocPush
  split
  · next pool' hpull =>
    have := h.pull
    rw [hpull] at this
    exact this
  · next pool' i hpull =>
    have hpaired := h.pull
    have hidle := shprocPull_idle (by rw [hpull])
    rw [hpull] at hpaired hidle
    exact hpaired.modify fun l hl => (hpaired _ l hl).schedule (hidle l hl) hf hlen

/-- Every clean event keeps all pairs. -/
theorem AllPaired.step {pool' : Pool σ} {ev : ProcEvent}
    (hreq : SmallReplies req) (h : AllPaired req mem pool)
    (hclean : ev.Clean pool) (hrun : ev.run req pool = some pool') : AllPaired req mem pool' := by
  obtain ⟨hplaced, hreads⟩ := hclean
  cases ev with
  | start =>
    cases hrun
    exact h.start
  | push f r =>
    cases hrun
    exact h.push hplaced.1 hplaced.2
  | schedule i f r =>
    cases hrun
    obtain ⟨hf, hlen, hidle⟩ := hplaced
    exact h.modify fun l hl => (h i l hl).schedule (hidle l hl) hf hlen
  | poll i alive fs =>
    cases hrun
    exact h.modify fun l hl => (h i l hl).parentPoll hreads
  | child i f w w' =>
    rw [ProcEvent.run] at hrun
    split at hrun
    · cases hrun
    · next l hl =>
      obtain ⟨l', hpoll, hpaired, -⟩ := (h i l hl).childPoll hreq hreads hplaced.1 hplaced.2
      rw [hpoll, Option.map_some, Option.some.injEq] at hrun
      rw [← hrun]
      exact h.set hpaired

/-- In a clean run all pairs are right, by induction on the run. -/
theorem allPaired_run {n : Nat} (hreq : SmallReplies req)
    (hrun : ProcRun req n mem ProcEvent.Clean pool) : AllPaired req mem pool := by
  induction hrun with
  | init =>
    intro i l hl
    obtain ⟨-, rfl⟩ := List.mem_replicate.mp (List.mem_of_getElem? hl)
    exact .unused rfl rfl rfl rfl rfl rfl
  | step _ hclean hstep ih => exact ih.step hreq hclean hstep

/-- Every request has been answered by one call with the worker's reply to it, in
order, except for the one that a worker has which is not idle. -/
def Link.Answers (req : ShprocOp σ) (mem : σ) (l : Link σ) : Prop :=
  l.answered = (serve req mem l.asked).take l.answered.length ∧
  l.asked.length = l.answered.length +
    (if l.parent.state = .pend ∨ l.parent.state = .run then 1 else 0)

/-- Paired requests and replies are answers. -/
theorem Paired.answers {l : Link σ} (h : Paired req mem l) : l.Answers req mem := by
  have hlast : ∀ {rs : List Request} {reply : Reply}, l.answered = serve req mem rs →
      serve req mem l.asked = serve req mem rs ++ [reply] →
      l.answered = (serve req mem l.asked).take l.answered.length ∧
        l.asked.length = l.answered.length + 1 := by
    intro rs reply hans hasked
    refine ⟨by rw [hasked, ← hans, List.take_left], ?_⟩
    have hlen := congrArg List.length hasked
    rw [length_serve, List.length_append, ← hans] at hlen
    exact hlen
  unfold Link.Answers
  cases h with
  | unused state _ _ asked answered =>
    rw [asked, answered, state]
    exact ⟨rfl, rfl⟩
  | idle state _ _ _ _ answered =>
    rw [answered, length_serve, state]
    refine ⟨(List.take_of_length_le (by rw [length_serve])).symm, rfl⟩
  | sent rs r asked _ state _ _ _ answered =>
    rw [if_pos (Or.inl state)]
    exact hlast answered (by rw [asked, serve_concat])
  | served rs reply _ asked state _ _ _ answered =>
    rw [if_pos (Or.inl state)]
    exact hlast answered asked
  | running rs reply _ asked state _ _ _ answered =>
    rw [if_pos (Or.inr state)]
    exact hlast answered asked

/-- In every run with whole transfers the replies are those of the requests, and a
worker is idle again once its reply has been given to the callback. A poll of the
worker and one of the parent are enough for that, whatever the sizes of the reads. -/
theorem requests_paired {n i : Nat} {l : Link σ}
    (hreq : SmallReplies req)
    (hrun : ProcRun req n mem ProcEvent.Clean pool) (hi : pool[i]? = some l) :
    l.Answers req mem ∧
    (l.parent.state ≠ .none → ∀ f w w' a b : Fragments, f.Whole → w.Whole → w'.Whole → a.Whole →
      b.Whole → ∃ pool1 pool2 l2, (ProcEvent.child i f w w').run req pool = some pool1 ∧
        (ProcEvent.poll i true [a, b]).run req pool1 = some pool2 ∧ pool2[i]? = some l2 ∧
        l2.parent.state = .idle ∧ l2.answered = serve req mem l.asked) := by
  have hpaired := allPaired_run hreq hrun i l hi
  refine ⟨hpaired.answers, fun hstate f w w' a b hf hw hw' ha hb => ?_⟩
  obtain ⟨l1, hpoll, hpaired1, hparent, hasked, hdown⟩ :=
    hpaired.childPoll hreq (Or.inr hf) hw hw'
  have hlt : i < pool.length := (List.getElem?_eq_some_iff.mp hi).1
  have hget : (pool.set i l1)[i]? = some l1 := List.getElem?_set_self hlt
  obtain ⟨hidle, hanswered⟩ := hpaired1.poll_reply (hdown hf) (by rw [hparent]; exact hstate) ha hb
  refine ⟨pool.set i l1, _, _, ?_, rfl, ?_, hidle, hanswered.trans (by rw [hasked])⟩
  · simp only [ProcEvent.run, hi, hpoll, Option.map_some]
  · rw [List.getElem?_modify, hget]
    simp

end Pools

/-- A callback that replies with the request. -/
def echoOp : ShprocOp Unit := fun mem _ data => (mem, { error := 0, data := data })

/-- Limits that cut no transfer. -/
def allRoom : Fragments := { hdr := sizeofReq, body := fun _ => 4096 }

/-- Limits of a read that finds the header, and no payload yet. -/
def headerOnly : Fragments := { hdr := sizeofReq, body := fun _ => 0 }

theorem allRoom_whole : allRoom.Whole := ⟨Nat.le_refl _, fun _ => Nat.succ_pos 4095⟩

/-- A pool of one worker that has been given a request of one byte. -/
theorem echo_pushed : ∃ pool, ProcRun echoOp 1 () ProcEvent.Clean pool ∧
    pool.map (fun l => (l.parent.state, l.asked)) = [(.pend, [{ fd := 0, data := [7] }])] := by
  refine ⟨_, .step .init (e := .push allRoom { fd := 0, data := [7] }) ?_ rfl, by decide +kernel⟩
  exact ⟨⟨allRoom_whole, by decide⟩, trivial⟩

/-- A worker that echoes is asked once, and its reply goes to the request. -/
theorem requests_paired_echo : ∃ (pool : Pool Unit) (l : Link Unit),
    ProcRun echoOp 1 () ProcEvent.Clean pool ∧ pool[0]? = some l ∧
    l.asked = [{ fd := 0, data := [7] }] ∧ l.Answers echoOp () ∧
    ∃ pool1 pool2 l2, (ProcEvent.child 0 allRoom allRoom allRoom).run echoOp pool = some pool1 ∧
      (ProcEvent.poll 0 true [allRoom, allRoom]).run echoOp pool1 = some pool2 ∧
      pool2[0]? = some l2 ∧ l2.parent.state = .idle ∧
      l2.answered = [{ error := 0, data := [7] }] := by
  obtain ⟨pool, hrun, hpool⟩ := echo_pushed
  obtain ⟨l, rfl⟩ : ∃ l, pool = [l] := List.length_eq_one_iff.mp (by
    rw [← List.length_map, hpool]
    rfl)
  rw [List.map_singleton, List.singleton_inj, Prod.mk.injEq] at hpool
  obtain ⟨hanswers, hreply⟩ := requests_paired (i := 0) (fun _ _ _ h => h) hrun rfl
  have hreply := hreply (by rw [hpool.1]; decide) _ _ _ _ _ allRoom_whole allRoom_whole
    allRoom_whole allRoom_whole allRoom_whole
  rw [hpool.2] at hreply
  exact ⟨[l], l, hrun, rfl, hpool.2, hanswers, hreply⟩

/-- The reply of a worker whose payload has not arrived when its header is read:
the worker is idle, and nothing looks for the payload any more. -/
theorem reply_lost : ¬ ∀ (σ : Type) (req : ShprocOp σ) (mem : σ) (n i : Nat) (pool : Pool σ)
    (l : Link σ), SmallReplies req → ProcRun req n mem ProcEvent.Placed pool →
    pool[i]? = some l → l.Answers req mem := by
  intro h
  have hrun : ∃ pool, ProcRun echoOp 1 () ProcEvent.Placed pool ∧
      pool.map (fun l => (l.parent.state, l.asked.length, l.answered.length)) =
        [(.idle, 1, 0)] := by
    refine ⟨_, .step (.step (.step .init (e := .push allRoom { fd := 0, data := [7] }) ?_ rfl)
      (e := .child 0 allRoom allRoom allRoom) ?_ rfl)
      (e := .poll 0 true [allRoom, headerOnly]) trivial rfl, by decide +kernel⟩
    · exact ⟨allRoom_whole, by decide⟩
    · exact ⟨allRoom_whole, allRoom_whole⟩
  obtain ⟨pool, hrun, hpool⟩ := hrun
  obtain ⟨l, rfl⟩ : ∃ l, pool = [l] := List.length_eq_one_iff.mp (by
    rw [← List.length_map, hpool]
    rfl)
  rw [List.map_singleton, List.singleton_inj, Prod.mk.injEq, Prod.mk.injEq] at hpool
  have hcount := (h Unit echoOp () 1 0 [l] l (fun _ _ _ h => h) hrun rfl).2
  rw [hpool.1, hpool.2.1, hpool.2.2] at hcount
  exact absurd hcount (by decide)

end LibShare.Sys
