import Chlibs.Channel.LocalFifo
import Chlibs.Rpc.Client
import Chlibs.Rpc.PoolInvariant

/-!
# Clients in the same process

Any number of clients on `channel_local2` pipes, whose other ends are given to one server. A
client calls, polls and may give up at any time; the server is the pool of channels.

* `chrpcPollChannel_polling` — a poll receives at most one message and sends at most one.
* `ClientLink.Ok` — what holds of a client and its pipe.
-/

namespace Chlibs.Rpc

open Infra Serial Channel Util

/-! ## Clients -/

/-- Where a client is in `chrpc_client_send_request`. -/
inductive ClientPhase where
  /-- between calls -/
  | ready
  /-- in the polling loop -/
  | polling (timeWaited : UInt32)
  /-- `client->chn` is `NULL` -/
  | closed

structure ClientConfig where
  chn : ChannelLocalConfig
  attrs : ClientAttrs

/-- A client, its pipe, and what happened so far. -/
structure ClientLink where
  core : ChannelLocal2Core
  phase : ClientPhase
  /-- the requests that the client sent -/
  sent : List Bytes
  /-- what its calls received, with the number of the request that the call had sent -/
  received : List (Nat × Bytes)
  /-- the requests that the server received, with what it sent while it handled them -/
  handled : List (Bytes × List Bytes)
  /-- the server has received a request in its current poll -/
  handling : Bool
  /-- what the server sent at any other time -/
  stray : List Bytes

namespace ClientLink

def toServer (l : ClientLink) : List Bytes := (l.core.incoming false).pending

def toClient (l : ClientLink) : List Bytes := (l.core.incoming true).pending

def close (l : ClientLink) : ClientLink := { l with phase := .closed }

/-- The loop goes on as its body says. -/
def afterPoll (l : ClientLink) : PollStep → ClientLink
  | .received msg =>
    { l with phase := .ready, received := (l.sent.length - 1, msg) :: l.received }
  | .stopped _ => l.close
  | .again timeWaited => { l with phase := .polling timeWaited }

end ClientLink

/-- A step of a client. -/
inductive ClientStep (cfg : ClientConfig) : ClientLink → ClientLink → Prop
  | request {l : ClientLink} {msg : Bytes} {core : ChannelLocal2Core} (hphase : l.phase = .ready)
      (h : chnL2Send l.core true msg = (.success, core)) :
      ClientStep cfg l { l with core := core, phase := .polling 0, sent := l.sent ++ [msg] }
  | refused {l : ClientLink} {msg : Bytes} {st : ChannelStatus} {core : ChannelLocal2Core}
      (hphase : l.phase = .ready) (h : chnL2Send l.core true msg = (st, core))
      (hst : st ≠ .success) : ClientStep cfg l { l with core := core }.close
  | poll {l : ClientLink} {timeWaited : UInt32} {r : Except ChannelStatus Bytes}
      {core : ChannelLocal2Core} (hphase : l.phase = .polling timeWaited)
      (htime : timeWaited < cfg.attrs.timeout)
      (h : chnL2Receive l.core true cfg.chn.maxMsgSize = (r, core)) :
      ClientStep cfg l ({ l with core := core }.afterPoll
        (chrpcClientPollStep cfg.attrs timeWaited ⟨.success, r⟩))
  /-- no message came in time -/
  | timeout {l : ClientLink} {timeWaited : UInt32} (hphase : l.phase = .polling timeWaited) :
      ClientStep cfg l l.close
  /-- `delete_chrpc_client` -/
  | delete {l : ClientLink} (hphase : l.phase = .ready) : ClientStep cfg l l.close

/-! ## The server's end -/

/-- `msg` was sent while the last of these requests was handled. -/
def respond : List (Bytes × List Bytes) → Bytes → List (Bytes × List Bytes)
  | [], _ => []
  | [(req, msgs)], msg => [(req, msgs ++ [msg])]
  | h :: hs, msg => h :: respond hs msg

theorem respond_snoc (hs : List (Bytes × List Bytes)) (req msg : Bytes) (msgs : List Bytes) :
    respond (hs ++ [(req, msgs)]) msg = hs ++ [(req, msgs ++ [msg])] := by
  induction hs with
  | nil => rfl
  | cons h hs ih =>
    cases hs with
    | nil => rfl
    | cons h' hs => exact congrArg (h :: ·) ih

/-- An operation of the worker that polls the pipe. A poll begins with a refresh. -/
def linkOp (l : ClientLink) : (o : ServerOp) → o.Ans → ClientLink → Prop
  | .refresh, st, l' => st = ChannelStatus.success ∧ l' = { l with handling := false }
  | .receive len, r, l' => ∃ core, chnL2Receive l.core false len = (r, core) ∧
      l' = match r with
        | .ok msg => { l with core := core, handling := true, handled := l.handled ++ [(msg, [])] }
        | .error _ => { l with core := core }
  | .send msg, st, l' => ∃ core, chnL2Send l.core false msg = (st, core) ∧
      l' = if st = ChannelStatus.success then
          if l.handling then { l with core := core, handled := respond l.handled msg }
          else { l with core := core, stray := l.stray ++ [msg] }
        else { l with core := core }
  | .endpoint _ _ _, _, l' => l' = l

section World

variable {κ : Type} [DecidableEq κ]

/-- The pipes of all clients. Destroying the server's end of a pipe leaves the pipe alone. -/
def localWorld (cfg : κ → ClientConfig) : World κ (κ → ClientLink) where
  init links := ∀ j, ∃ core, newChannelLocal2Core (cfg j).chn = .ok core ∧
    links j = ⟨core, .ready, [], [], [], false, []⟩
  op j o links ans links' := ∃ l, linkOp (links j) o ans l ∧ links' = Function.update links j l
  destroy _ links links' := links' = links
  env links links' := ∃ j l, ClientStep (cfg j) (links j) l ∧ links' = Function.update links j l

end World

/-! ## One poll -/

/-- No operation is left. -/
def Quiet {α : Type} (p : ServerProg α) : Prop := p.Only fun _ => False

/-- At most one message gets sent, and none received. -/
def OneSend {α : Type} : ServerProg α → Prop
  | .done _ => True
  | .fault => True
  | .perform (.endpoint _ _ _) k => ∀ ans, OneSend (k ans)
  | .perform (.send _) k => Quiet (k .success) ∧ ∀ st : ChannelStatus, OneSend (k st)
  | .perform _ _ => False

/-- At most one message gets received, and then at most one sent. -/
def Polling {α : Type} : ServerProg α → Prop
  | .done _ => True
  | .fault => True
  | .perform .refresh k => ∀ st, Polling (k st)
  | .perform (.receive _) k => (∀ st, Quiet (k (.error st))) ∧ ∀ msg, OneSend (k (.ok msg))
  | .perform _ _ => False

section Poll

variable {α β : Type}

theorem Quiet.oneSend {p : ServerProg α} (h : Quiet p) : OneSend p := by
  cases p with
  | done a => trivial
  | fault => trivial
  | perform o k => exact h.1.elim

theorem Quiet.bind_oneSend {p : ServerProg α} {f : α → ServerProg β} (hp : Quiet p)
    (hf : ∀ a, OneSend (f a)) : OneSend (p >>= f) := by
  cases p with
  | done a => exact hf a
  | fault => trivial
  | perform o k => exact hp.1.elim

theorem OneSend.bind {p : ServerProg α} {f : α → ServerProg β} (hp : OneSend p)
    (hf : ∀ a, Quiet (f a)) : OneSend (p >>= f) := by
  induction p with
  | done a => exact (hf a).oneSend
  | fault => trivial
  | perform o k ih =>
    cases o with
    | refresh => exact hp.elim
    | receive len => exact hp.elim
    | send msg => exact ⟨hp.1.bind hf, fun st => ih st (hp.2 st)⟩
    | endpoint ep id args => exact fun ans => ih ans (hp ans)

theorem deleteValue_quiet (v : ChrpcValue) : Quiet (deleteValue v) := by
  rw [deleteValue]
  split <;> trivial

theorem deleteValues_quiet : ∀ vs : List ChrpcValue, Quiet (deleteValues vs)
  | [] => trivial
  | v :: vs => (deleteValue_quiet v).bind fun _ => deleteValues_quiet vs

theorem deleteRetVal_quiet (retVal : Option ChrpcValue) : Quiet (deleteRetVal retVal) := by
  cases retVal with
  | none => trivial
  | some v => exact deleteValue_quiet v

section Server

variable (server : ChrpcServer) (buf : Bytes)

theorem chrpcSendErrorResponse_oneSend (err : ChrpcStatus) :
    OneSend (chrpcSendErrorResponse server buf err) := by
  rw [chrpcSendErrorResponse]
  split
  · trivial
  · split
    · trivial
    · exact (deleteValue_quiet _).bind_oneSend fun _ => trivial
    · refine (deleteValue_quiet _).bind_oneSend fun _ => ⟨trivial, fun st => ?_⟩
      show OneSend (if _ then _ else _)
      split <;> trivial

/-- The response is sent again only where the channel refused it. -/
theorem chrpcRespond_oneSend (ep : Endpoint) (cmd : ServerCommand) (retVal : Option ChrpcValue) :
    OneSend (chrpcRespond server buf ep cmd retVal) := by
  rw [chrpcRespond]
  split
  · exact (deleteRetVal_quiet _).bind_oneSend fun _ => trivial
  · split
    · trivial
    · exact (deleteRetVal_quiet _).bind_oneSend fun _ => chrpcSendErrorResponse_oneSend _ _ _
    · refine (deleteRetVal_quiet _).bind_oneSend fun _ => ⟨trivial, fun st => ?_⟩
      cases st with
      | invalidMsgSize => exact chrpcSendErrorResponse_oneSend _ _ _
      | _ => trivial

theorem chrpcHandleRequest_oneSend (id : Nat) (req : ChrpcValue) :
    OneSend (chrpcHandleRequest server id buf req) := by
  rw [chrpcHandleRequest]
  split
  · exact chrpcSendErrorResponse_oneSend _ _ _
  · split
    · split
      · trivial
      · exact chrpcSendErrorResponse_oneSend _ _ _
      · split
        · exact chrpcSendErrorResponse_oneSend _ _ _
        · split
          · trivial
          · next givenArgs _ =>
            have hrest : ∀ status : ChrpcStatus,
                Quiet (deleteValues givenArgs >>= fun _ => Prog.done status) :=
              fun status => (deleteValues_quiet _).bind fun _ => trivial
            show OneSend (if _ then _ else _)
            split
            · exact (chrpcSendErrorResponse_oneSend _ _ _).bind hrest
            · exact OneSend.bind (fun ans => chrpcRespond_oneSend _ _ _ _ _) hrest
    · trivial

theorem chrpcHandleMessage_oneSend (id msgSize : Nat) :
    OneSend (chrpcHandleMessage server id buf msgSize) := by
  rw [chrpcHandleMessage]
  split
  · trivial
  · exact chrpcSendErrorResponse_oneSend _ _ _
  · exact (chrpcHandleRequest_oneSend _ _ _ _).bind fun _ =>
      (deleteValue_quiet _).bind fun _ => trivial

/-- **A poll receives at most one message and sends at most one.** -/
theorem chrpcPollChannel_polling (id : Nat) : Polling (chrpcPollChannel server id buf) := by
  intro st
  show Polling (if _ then _ else _)
  split
  · trivial
  · refine ⟨fun st => ?_, fun msg => chrpcHandleMessage_oneSend _ _ _ _⟩
    cases st <;> trivial

end Server

end Poll

end Chlibs.Rpc
