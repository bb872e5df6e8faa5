import Chlibs.Infra.Transition
import Chlibs.Rpc.Server
import Chlibs.Util.Queue

/-!
# The pool of channels

The threads of `rpc_server.c`: those that give channels to the server, its workers, and the one
that deletes it. A step of the system is what a thread does under a mutex, or one operation of a
poll; threads take their steps in any order.

The channels and the endpoint functions are a `World` that answers operations and may change at
any time.
-/

namespace Chlibs.Rpc

open Infra Serial Channel Util

/-! ## The threads -/

/-- `chrpc_queue_ele_t` -/
structure QueueEle (χ : Type) where
  id : Nat
  sinceLastReq : Int
  chn : χ

/-- The parts of `chrpc_server_t` that its mutexes protect. -/
structure ServerShared (χ : Type) where
  idCounter : Nat
  numChannels : Nat
  q : Queue (QueueEle χ)
  shouldExit : Bool

/-- Where a worker is in `chrpc_server_worker_routine`. -/
inductive WorkerPhase (χ : Type) where
  /-- before it reads `should_exit` -/
  | top
  /-- before it polls the queue -/
  | ready
  /-- `rest` is what is left of `chrpc_poll_channel` -/
  | serving (ele : QueueEle χ) (rest : ServerProg ChrpcStatus)
  /-- `delete_channel` was called -/
  | deleted (ele : QueueEle χ)
  /-- `num_channels` is decremented -/
  | decremented (ele : QueueEle χ)
  | exited

/-- Where the server is between its construction and the end of `delete_chrpc_server`. -/
inductive ServerPhase where
  | running
  /-- joining the workers -/
  | stopping
  /-- emptying the queue -/
  | draining
  | deleted
  deriving DecidableEq, Repr

/-- What happened so far. A channel goes with the id it was given. -/
structure PoolLog (χ : Type) where
  /-- the arguments of `chrpc_server_give_channel` -/
  given : List χ
  /-- those for which it returned `CHRPC_SUCCESS` -/
  accepted : List (Nat × χ)
  /-- destroyed by a worker -/
  dropped : List (Nat × χ)
  /-- destroyed by `delete_chrpc_server` -/
  drained : List (Nat × χ)
  /-- the arguments of `on_disconnect` -/
  disconnected : List Nat
  /-- what `q_push` returned -/
  pushCodes : List Nat

def PoolLog.destroyed {χ : Type} (log : PoolLog χ) : List (Nat × χ) := log.dropped ++ log.drained

/-- The channels and the endpoint functions. -/
structure World (χ ω : Type) where
  init : ω → Prop
  /-- an operation of the worker that polls the channel -/
  op : χ → (o : ServerOp) → ω → o.Ans → ω → Prop
  /-- `delete_channel` -/
  destroy : χ → ω → ω → Prop
  /-- the other ends -/
  env : ω → ω → Prop

structure PoolState (χ ω : Type) where
  world : ω
  shared : ServerShared χ
  workers : List (WorkerPhase χ)
  phase : ServerPhase
  log : PoolLog χ

/-- What a worker sees. -/
structure WorkerView (χ ω : Type) where
  world : ω
  shared : ServerShared χ
  log : PoolLog χ
  phase : WorkerPhase χ

/-! ## Steps -/

section Steps

variable {χ ω : Type}

/-- Gives back the status, the code of `q_push` where it was called, and the new state. -/
def chrpcServerGiveChannel (server : ChrpcServer) (s : ServerShared χ) (chn : Option χ)
    (mms : ChannelStatus × Nat) (now : Int) : ChrpcStatus × Option Nat × ServerShared χ :=
  match chn with
  | none => (chrpcArgumentMismatch, none, s)
  | some chn =>
    if mms.1 ≠ .success ∨ mms.2 < chrpcServerBufMinSize ∨ server.attrs.maxMsgSize < mms.2 then
      (chrpcBufferTooSmall, none, s)
    else if s.numChannels = qCap s.q then (chrpcServerFull, none, s)
    else if s.idCounter = 2 ^ 64 - 1 then (chrpcServerFull, none, s)
    else
      let (code, q) := qPush s.q ⟨s.idCounter, now, chn⟩
      (chrpcSuccess, some code,
        { s with q := q, idCounter := s.idCounter + 1, numChannels := s.numChannels + 1 })

/-- A step of `chrpc_server_worker_routine`. -/
inductive WorkerStep (server : ChrpcServer) (W : World χ ω) :
    WorkerView χ ω → WorkerView χ ω → Prop
  | exit {world : ω} {shared : ServerShared χ} {log : PoolLog χ}
      (h : shared.shouldExit = true) :
      WorkerStep server W ⟨world, shared, log, .top⟩ ⟨world, shared, log, .exited⟩
  | stay {world : ω} {shared : ServerShared χ} {log : PoolLog χ}
      (h : shared.shouldExit = false) :
      WorkerStep server W ⟨world, shared, log, .top⟩ ⟨world, shared, log, .ready⟩
  /-- nothing to do -/
  | sleep {world : ω} {shared : ServerShared χ} {log : PoolLog χ} (h : (qPoll shared.q).1 ≠ 0) :
      WorkerStep server W ⟨world, shared, log, .ready⟩ ⟨world, shared, log, .top⟩
  | poll {world : ω} {shared : ServerShared χ} {log : PoolLog χ} {ele : QueueEle χ}
      {q : Queue (QueueEle χ)} {buf : Bytes} (h : qPoll shared.q = (0, some ele, q))
      (hbuf : buf.length = server.attrs.maxMsgSize) :
      WorkerStep server W ⟨world, shared, log, .ready⟩
        ⟨world, { shared with q := q }, log, .serving ele (chrpcPollChannel server ele.id buf)⟩
  | perform {world world' : ω} {shared : ServerShared χ} {log : PoolLog χ} {ele : QueueEle χ}
      {o : ServerOp} {k : o.Ans → ServerProg ChrpcStatus} {ans : o.Ans}
      (h : W.op ele.chn o world ans world') :
      WorkerStep server W ⟨world, shared, log, .serving ele (.perform o k)⟩
        ⟨world', shared, log, .serving ele (k ans)⟩
  /-- an error, a timeout or a requested disconnect -/
  | drop {world world' : ω} {shared : ServerShared χ} {log : PoolLog χ} {ele : QueueEle χ}
      {status : ChrpcStatus} {now : Int}
      (h : workerDisconnects server.attrs (now - ele.sinceLastReq) status = true)
      (hdestroy : W.destroy ele.chn world world') :
      WorkerStep server W ⟨world, shared, log, .serving ele (.done status)⟩
        ⟨world', shared, { log with dropped := (ele.id, ele.chn) :: log.dropped }, .deleted ele⟩
  | decrement {world : ω} {shared : ServerShared χ} {log : PoolLog χ} {ele : QueueEle χ} :
      WorkerStep server W ⟨world, shared, log, .deleted ele⟩
        ⟨world, { shared with numChannels := shared.numChannels - 1 }, log, .decremented ele⟩
  | disconnect {world : ω} {shared : ServerShared χ} {log : PoolLog χ} {ele : QueueEle χ} :
      WorkerStep server W ⟨world, shared, log, .decremented ele⟩
        ⟨world, shared, { log with disconnected :=
          if server.attrs.onDisconnect then ele.id :: log.disconnected else log.disconnected }, .top⟩
  /-- the channel goes back to the queue -/
  | push {world : ω} {shared : ServerShared χ} {log : PoolLog χ} {ele ele' : QueueEle χ}
      {status : ChrpcStatus} {now : Int} {code : Nat} {q : Queue (QueueEle χ)}
      (h : workerDisconnects server.attrs (now - ele.sinceLastReq) status = false)
      (hele : ele' = if status = chrpcSuccess then { ele with sinceLastReq := now } else ele)
      (hpush : qPush shared.q ele' = (code, q)) :
      WorkerStep server W ⟨world, shared, log, .serving ele (.done status)⟩
        ⟨world, { shared with q := q }, { log with pushCodes := code :: log.pushCodes }, .top⟩

/-- A step of any thread. -/
inductive PoolStep (server : ChrpcServer) (W : World χ ω) : PoolState χ ω → PoolState χ ω → Prop
  | give {s : PoolState χ ω} {chn : Option χ} {mms : ChannelStatus × Nat} {now : Int}
      {status : ChrpcStatus} {code : Option Nat} {shared' : ServerShared χ}
      (hphase : s.phase = .running ∨ s.phase = .stopping) (hnew : ∀ c ∈ chn, c ∉ s.log.given)
      (h : chrpcServerGiveChannel server s.shared chn mms now = (status, code, shared')) :
      PoolStep server W s { s with
        shared := shared'
        log := { s.log with
          given := chn.toList ++ s.log.given
          accepted := if status = chrpcSuccess then
            chn.toList.map (s.shared.idCounter, ·) ++ s.log.accepted else s.log.accepted
          pushCodes := code.toList ++ s.log.pushCodes } }
  | worker {world world' : ω} {shared shared' : ServerShared χ} {ws₁ ws₂ : List (WorkerPhase χ)}
      {w w' : WorkerPhase χ} {phase : ServerPhase} {log log' : PoolLog χ}
      (h : WorkerStep server W ⟨world, shared, log, w⟩ ⟨world', shared', log', w'⟩) :
      PoolStep server W ⟨world, shared, ws₁ ++ w :: ws₂, phase, log⟩
        ⟨world', shared', ws₁ ++ w' :: ws₂, phase, log'⟩
  | env {s : PoolState χ ω} {world' : ω} (h : W.env s.world world') :
      PoolStep server W s { s with world := world' }
  /-- `delete_chrpc_server` begins -/
  | stop {s : PoolState χ ω} (hphase : s.phase = .running) :
      PoolStep server W s { s with
        shared := { s.shared with shouldExit := true }, phase := .stopping }
  | joined {s : PoolState χ ω} (hphase : s.phase = .stopping) (h : ∀ w ∈ s.workers, w = .exited) :
      PoolStep server W s { s with phase := .draining }
  | drain {s : PoolState χ ω} {ele : QueueEle χ} {q : Queue (QueueEle χ)} {world' : ω}
      (hphase : s.phase = .draining) (h : qPoll s.shared.q = (0, some ele, q))
      (hdestroy : W.destroy ele.chn s.world world') :
      PoolStep server W s { s with
        world := world', shared := { s.shared with q := q }
        log := { s.log with drained := (ele.id, ele.chn) :: s.log.drained } }
  | deleted {s : PoolState χ ω} (hphase : s.phase = .draining) (h : (qPoll s.shared.q).1 ≠ 0) :
      PoolStep server W s { s with phase := .deleted }

/-- A server that `new_chrpc_server` has just made. -/
def poolSystem (server : ChrpcServer) (W : World χ ω) : TransitionSystem (PoolState χ ω) where
  init s := newChrpcServer server.attrs server.epSet = some server ∧ W.init s.world ∧
    (∃ q, newQueue server.attrs.maxConnections = some q ∧ s.shared = ⟨0, 0, q, false⟩) ∧
    s.workers = List.replicate server.attrs.numWorkers .top ∧ s.phase = .running ∧
    s.log = ⟨[], [], [], [], [], []⟩
  step := PoolStep server W

end Steps

end Chlibs.Rpc
