import Chlibs.Rpc.Dispatch
import Chlibs.Rpc.Matching
import Chlibs.Rpc.PoolInvariant

/-!
# Disconnect commands

An endpoint function tells the server to destroy the channel once its return value has been
sent. A return value that is too large is a recoverable error: where the error response is sent in
its place, the channel stays with the server.

* `chrpcPollChannel_disconnects` — the status of a poll whose endpoint asked to disconnect.
* `recorded_runs` — a record of the polls changes nothing about them.
* `disconnect_honoured_iff` — when the channel is destroyed and never queued again.
-/

namespace Chlibs.Rpc

open Infra Serial Channel Util

/-- The operations of a poll so far. -/
abbrev PollTrace := List (Prog.Event ServerOp ServerOp.Ans)

/-- The endpoint function asked to disconnect, with a return value of the declared type. -/
def AsksDisconnect (trace : PollTrace) (retVal : Option ChrpcValue) : Prop :=
  ∃ ep id args, ⟨.endpoint ep id args, (.disconnect, retVal)⟩ ∈ trace ∧
    chrpcTypeEqualsWrapper ep.ret retVal = true ∧ ∀ v ∈ retVal, v.WellFormed

/-- The response fits the buffer of the worker, and the channel did not refuse its size. -/
def ResponseFits (mms : Nat) (trace : PollTrace) (retVal : Option ChrpcValue) : Prop :=
  (responseBytes chrpcSuccess (valueBytes retVal)).length ≤ mms ∧
    ⟨.send (responseBytes chrpcSuccess (valueBytes retVal)), .invalidMsgSize⟩ ∉ trace

/-- The channel took an error response in place of the response. -/
def TookError (trace : PollTrace) : Prop :=
  ⟨.send (responseBytes chrpcBufferTooSmall []), .success⟩ ∈ trace

/-! ## One poll -/

section Poll

variable {trace : PollTrace} {status : ChrpcStatus} {retVal : Option ChrpcValue}

/-- Nothing is performed where no operation is left. -/
theorem Quiet.yields {α : Type} {p : ServerProg α} {a : α} (hp : Quiet p) (h : p.Yields trace a) :
    trace = [] :=
  List.eq_nil_iff_forall_not_mem.mpr (Prog.Only.yields hp h)

/-- A part of a poll that only sends asks for nothing. -/
theorem not_asksDisconnect_of_only {α : Type} {p : ServerProg α} {a : α}
    (hp : p.Only ServerOp.IsSend) (h : p.Yields trace a) : ¬AsksDisconnect trace retVal := by
  rintro ⟨ep, id, args, hmem, -, -⟩
  exact hp.yields h _ hmem

theorem sendError_yields {err : ChrpcStatus} (h : (sendError err).Yields trace status) :
    ∃ ans : ChannelStatus, trace = [⟨.send (responseBytes err []), ans⟩] ∧
      status = if ans = .success then chrpcSuccess else chrpcClientChannelError := by
  unfold sendError at h
  obtain ⟨ans, rest, rfl, hrest⟩ := Prog.yields_call.mp h
  by_cases hans : ans = .success
  · rw [if_neg (by simp [hans])] at hrest
    obtain ⟨rfl, rfl⟩ := Prog.yields_done.mp hrest
    exact ⟨ans, rfl, by rw [if_pos hans]⟩
  · rw [if_pos hans] at hrest
    obtain ⟨rfl, rfl⟩ := Prog.yields_done.mp hrest
    exact ⟨ans, rfl, by rw [if_neg hans]⟩

/-- The worker keeps a channel that took an error response. -/
theorem sendError_disconnects {err : ChrpcStatus} (h : (sendError err).Yields trace status)
    (attrs : ServerAttrs) (idle : Int) :
    workerDisconnects attrs idle status = true ↔
      ⟨.send (responseBytes err []), .success⟩ ∉ trace := by
  obtain ⟨ans, rfl, rfl⟩ := sendError_yields h
  by_cases hans : ans = .success
  · subst hans
    simp [workerDisconnects, chrpcSuccess, chrpcClientChannelEmpty]
  · simp [hans, Ne.symm hans, workerDisconnects, chrpcSuccess, chrpcClientChannelEmpty,
      chrpcClientChannelError]

/-- **The command survives where no error response takes the place of the response.** -/
theorem sendResponse_disconnects {mms : Nat}
    (h : (sendResponse mms .disconnect (responseBytes chrpcSuccess (valueBytes retVal))).Yields
      trace status) (attrs : ServerAttrs) (idle : Int) :
    workerDisconnects attrs idle status = true ↔
      (TookError trace → ResponseFits mms trace retVal) := by
  unfold sendResponse at h
  unfold TookError ResponseFits
  generalize responseBytes chrpcSuccess (valueBytes retVal) = msg at h ⊢
  split at h
  · next hfit =>
    obtain ⟨ans, rest, rfl, hrest⟩ := Prog.yields_call.mp h
    cases ans with
    | invalidMsgSize =>
      -- The channel refused the size: the answer is an error response.
      rw [sendError_disconnects hrest attrs idle]
      simp
    | success =>
      obtain ⟨rfl, rfl⟩ := Prog.yields_done.mp hrest
      simp [hfit, workerDisconnects, chrpcSuccess, chrpcClientChannelEmpty, chrpcDisconnect]
    | _ =>
      obtain ⟨rfl, rfl⟩ := Prog.yields_done.mp hrest
      simp [workerDisconnects, chrpcSuccess, chrpcClientChannelEmpty, chrpcClientChannelError]
  · next hfit =>
    rw [sendError_disconnects h attrs idle]
    simp [hfit]

section Server

variable {server : ChrpcServer} {buf : Bytes}
  (hmms : chrpcServerBufMinSize ≤ server.attrs.maxMsgSize)
  (hbuf : server.attrs.maxMsgSize ≤ buf.length)

include hmms hbuf in
theorem chrpcSendResponse_disconnects {id : Nat} {ep : Endpoint} {args : List ChrpcValue}
    (h : (chrpcSendResponse server id buf ep args).Yields trace status)
    (hasks : AsksDisconnect trace retVal) (idle : Int) :
    workerDisconnects server.attrs idle status = true ↔
      (TookError trace → ResponseFits server.attrs.maxMsgSize trace retVal) := by
  unfold chrpcSendResponse at h
  obtain ⟨⟨cmd, ret⟩, rest, rfl, hrest⟩ := Prog.yields_call.mp h
  obtain ⟨ep', id', args', hmem, htype, hret⟩ := hasks
  -- No endpoint is called again while the worker answers.
  have hhead : (⟨.endpoint ep' id' args', (.disconnect, retVal)⟩ : Prog.Event ServerOp ServerOp.Ans)
      = ⟨.endpoint ep id args, (cmd, ret)⟩ := by
    rcases List.mem_cons.mp hmem with heq | hmem
    · exact heq
    · exact absurd ⟨ep', id', args', hmem, htype, hret⟩
        (not_asksDisconnect_of_only (chrpcRespond_only server buf ep cmd ret) hrest)
  cases hhead
  change (chrpcRespond server buf ep .disconnect retVal).Yields rest status at hrest
  rw [chrpcRespond_eq hmms hbuf htype hret] at hrest
  rw [sendResponse_disconnects hrest server.attrs idle]
  simp [TookError, ResponseFits]

/-- A part of a poll that performs nothing does not change what was asked. -/
theorem yields_quiet_bind {α β : Type} {p : ServerProg α} {f : α → ServerProg β} {b : β}
    (hf : ∀ a, Quiet (f a)) (h : (p >>= f).Yields trace b) :
    ∃ a, p.Yields trace a ∧ (f a).Yields [] b := by
  obtain ⟨t₁, t₂, a, rfl, h₁, h₂⟩ := Prog.yields_bind.mp h
  obtain rfl := (hf a).yields h₂
  exact ⟨a, by rwa [List.append_nil], h₂⟩

/-- What is left to do after the answer is to delete values. -/
theorem yields_delete {p : ServerProg ChrpcStatus} {q : ServerProg Unit} (hq : Quiet q)
    (h : (p >>= fun st => q >>= fun _ => .done st).Yields trace status) :
    p.Yields trace status := by
  have hdone : ∀ st, Quiet (Prog.done st : ServerProg ChrpcStatus) := fun _ => trivial
  obtain ⟨st, hp, hrest⟩ := yields_quiet_bind (fun st => hq.bind fun _ => hdone st) h
  obtain ⟨_, -, hdone⟩ := yields_quiet_bind (fun _ => hdone st) hrest
  obtain ⟨-, rfl⟩ := Prog.yields_done.mp hdone
  exact hp

/-- Only the branch that calls an endpoint function asks for anything. -/
theorem chrpcHandleRequest_yields {id : Nat} {req : ChrpcValue}
    (h : (chrpcHandleRequest server id buf req).Yields trace status)
    (hasks : AsksDisconnect trace retVal) :
    ∃ ep args, (chrpcSendResponse server id buf ep args).Yields trace status := by
  have herr : ∀ err, ¬(chrpcSendErrorResponse server buf err).Yields trace status := fun err herr =>
    not_asksDisconnect_of_only (chrpcSendErrorResponse_only server buf err) herr hasks
  unfold chrpcHandleRequest at h
  split at h
  · exact absurd h (herr _)
  · split at h
    · split at h
      · exact absurd h Prog.not_yields_fault
      · exact absurd h (herr _)
      · next ep _ =>
        split at h
        · exact absurd h (herr _)
        · split at h
          · exact absurd h Prog.not_yields_fault
          · next givenArgs _ =>
            split at h
            · exact absurd (yields_delete (deleteValues_quiet givenArgs) h) (herr _)
            · exact ⟨ep, givenArgs, yields_delete (deleteValues_quiet givenArgs) h⟩
    · exact absurd h Prog.not_yields_fault

theorem chrpcHandleMessage_yields {id msgSize : Nat}
    (h : (chrpcHandleMessage server id buf msgSize).Yields trace status)
    (hasks : AsksDisconnect trace retVal) :
    ∃ ep args, (chrpcSendResponse server id buf ep args).Yields trace status := by
  unfold chrpcHandleMessage at h
  split at h
  · exact absurd h Prog.not_yields_fault
  · exact absurd hasks (not_asksDisconnect_of_only (chrpcSendErrorResponse_only server buf _) h)
  · exact chrpcHandleRequest_yields (yields_delete (deleteValue_quiet _) h) hasks

end Server

/--
**A poll whose endpoint function asked to disconnect.** The worker gives up the channel unless
the channel took an error response in place of a response that did not fit.
-/
theorem chrpcPollChannel_disconnects {server : ChrpcServer} {buf : Bytes} {id : Nat}
    (hmms : chrpcServerBufMinSize ≤ server.attrs.maxMsgSize)
    (hbuf : buf.length = server.attrs.maxMsgSize)
    (h : (chrpcPollChannel server id buf).Yields trace status)
    (hasks : AsksDisconnect trace retVal) (idle : Int) :
    workerDisconnects server.attrs idle status = true ↔
      (TookError trace → ResponseFits server.attrs.maxMsgSize trace retVal) := by
  unfold chrpcPollChannel at h
  obtain ⟨st, rest, rfl, hrest⟩ := Prog.yields_call.mp h
  split at hrest
  · obtain ⟨rfl, rfl⟩ := Prog.yields_done.mp hrest
    simp [AsksDisconnect] at hasks
  · obtain ⟨ans, rest, rfl, hhandle⟩ := Prog.yields_call.mp hrest
    have hasks' : AsksDisconnect rest retVal := by
      simpa [AsksDisconnect] using hasks
    cases ans with
    | error st =>
      have hnil : rest = [] := by
        cases st <;> exact (Prog.yields_done.mp hhandle).1
      simp [hnil, AsksDisconnect] at hasks'
    | ok msg =>
      have hlen : server.attrs.maxMsgSize ≤ (overwrite buf 0 msg).length := by
        rw [overwrite_zero, List.length_append, List.length_drop]
        omega
      obtain ⟨ep, args, hsend⟩ := chrpcHandleMessage_yields hhandle hasks'
      rw [chrpcSendResponse_disconnects hmms hlen hsend hasks' idle]
      simp [TookError, ResponseFits]

end Poll

/-! ## The record of the polls -/

/-- The operation that a poll begins with. -/
def ServerOp.beginsPoll : ServerOp → Bool
  | .refresh => true
  | _ => false

/-- The record of the latest poll of a channel, after one more operation. -/
def PollTrace.record (trace : PollTrace) (e : Prog.Event ServerOp ServerOp.Ans) : PollTrace :=
  (if e.1.beginsPoll then [] else trace) ++ [e]

section Record

variable {χ ω : Type}

/-- The world, with a record of the latest poll of each channel. -/
def World.recorded (W : World χ ω) : World χ (ω × (χ → PollTrace)) where
  init w := W.init w.1 ∧ w.2 = fun _ => []
  op chn o w ans w' := W.op chn o w.1 ans w'.1 ∧
    w'.2 chn = (w.2 chn).record ⟨o, ans⟩ ∧ ∀ c, c ≠ chn → w'.2 c = w.2 c
  destroy chn w w' := W.destroy chn w.1 w'.1 ∧ w'.2 = w.2
  env w w' := W.env w.1 w'.1 ∧ w'.2 = w.2

def PoolState.withRecord (s : PoolState χ ω) (tr : χ → PollTrace) :
    PoolState χ (ω × (χ → PollTrace)) :=
  ⟨(s.world, tr), s.shared, s.workers, s.phase, s.log⟩

def PoolState.withoutRecord (s : PoolState χ (ω × (χ → PollTrace))) : PoolState χ ω :=
  ⟨s.world.1, s.shared, s.workers, s.phase, s.log⟩

variable {server : ChrpcServer} {W : World χ ω}

theorem WorkerStep.record {world world' : ω} {shared shared' : ServerShared χ}
    {log log' : PoolLog χ} {w w' : WorkerPhase χ}
    (h : WorkerStep server W ⟨world, shared, log, w⟩ ⟨world', shared', log', w'⟩)
    (tr : χ → PollTrace) : ∃ tr', WorkerStep server W.recorded ⟨(world, tr), shared, log, w⟩
      ⟨(world', tr'), shared', log', w'⟩ := by
  cases h with
  | exit h => exact ⟨tr, .exit h⟩
  | stay h => exact ⟨tr, .stay h⟩
  | sleep h => exact ⟨tr, .sleep h⟩
  | poll h hbuf => exact ⟨tr, .poll h hbuf⟩
  | @perform _ _ _ _ ele o k ans h =>
    classical
    refine ⟨Function.update tr ele.chn ((tr ele.chn).record ⟨o, ans⟩),
      .perform ⟨h, ?_, fun c hc => ?_⟩⟩
    · show Function.update tr ele.chn _ ele.chn = _
      rw [Function.update_self]
    · show Function.update tr ele.chn _ c = _
      rw [Function.update_of_ne hc]
  | drop h hdestroy => exact ⟨tr, .drop h ⟨hdestroy, rfl⟩⟩
  | decrement => exact ⟨tr, .decrement⟩
  | disconnect => exact ⟨tr, .disconnect⟩
  | push h hele hpush => exact ⟨tr, .push h hele hpush⟩

theorem PoolStep.record {s s' : PoolState χ ω} (h : PoolStep server W s s')
    (tr : χ → PollTrace) :
    ∃ tr', PoolStep server W.recorded (s.withRecord tr) (s'.withRecord tr') := by
  cases h with
  | give hphase hnew h => exact ⟨tr, .give hphase hnew h⟩
  | worker h =>
    obtain ⟨tr', h'⟩ := h.record tr
    exact ⟨tr', .worker h'⟩
  | env h => exact ⟨tr, .env ⟨h, rfl⟩⟩
  | stop hphase => exact ⟨tr, .stop hphase⟩
  | joined hphase h => exact ⟨tr, .joined hphase h⟩
  | drain hphase h hdestroy => exact ⟨tr, .drain hphase h ⟨hdestroy, rfl⟩⟩
  | deleted hphase h => exact ⟨tr, .deleted hphase h⟩

theorem WorkerStep.unrecord {v v' : WorkerView χ (ω × (χ → PollTrace))}
    (h : WorkerStep server W.recorded v v') :
    WorkerStep server W ⟨v.world.1, v.shared, v.log, v.phase⟩
      ⟨v'.world.1, v'.shared, v'.log, v'.phase⟩ := by
  cases h with
  | exit h => exact .exit h
  | stay h => exact .stay h
  | sleep h => exact .sleep h
  | poll h hbuf => exact .poll h hbuf
  | perform h => exact .perform h.1
  | drop h hdestroy => exact .drop h hdestroy.1
  | decrement => exact .decrement
  | disconnect => exact .disconnect
  | push h hele hpush => exact .push h hele hpush

theorem PoolStep.unrecord {s s' : PoolState χ (ω × (χ → PollTrace))}
    (h : PoolStep server W.recorded s s') :
    PoolStep server W s.withoutRecord s'.withoutRecord := by
  cases h with
  | give hphase hnew h => exact .give (s := s.withoutRecord) hphase hnew h
  | worker h => exact .worker h.unrecord
  | env h => exact .env (s := s.withoutRecord) h.1
  | stop hphase => exact .stop (s := s.withoutRecord) hphase
  | joined hphase h => exact .joined (s := s.withoutRecord) hphase h
  | drain hphase h hdestroy => exact .drain (s := s.withoutRecord) hphase h hdestroy.1
  | deleted hphase h => exact .deleted (s := s.withoutRecord) hphase h

/-- **The record changes nothing**: the states that the server reaches are those that it reaches
with a record. -/
theorem recorded_runs {s : PoolState χ ω} :
    (poolSystem server W).Reachable s ↔
      ∃ tr, (poolSystem server W.recorded).Reachable (s.withRecord tr) := by
  constructor
  · intro h
    induction h with
    | init hinit =>
      obtain ⟨hserver, hworld, hrest⟩ := hinit
      exact ⟨fun _ => [], .init ⟨hserver, ⟨hworld, rfl⟩, hrest⟩⟩
    | step _ hstep ih =>
      obtain ⟨tr, hreach⟩ := ih
      obtain ⟨tr', hstep'⟩ := PoolStep.record hstep tr
      exact ⟨tr', hreach.step hstep'⟩
  · rintro ⟨tr, h⟩
    refine TransitionSystem.Reachable.map (T := poolSystem server W)
      (f := PoolState.withoutRecord) (fun s hinit => ?_) (fun s s' _ hstep => ?_) h
    · obtain ⟨hserver, hworld, hrest⟩ := hinit
      exact ⟨hserver, hworld.1, hrest⟩
    · exact .inl hstep.unrecord

/-! ## What the record says about a poll -/

theorem OneSend.only {α : Type} {p : ServerProg α} (h : OneSend p) :
    p.Only fun o => o.beginsPoll = false := by
  induction p with
  | done a => trivial
  | fault => trivial
  | perform o k ih =>
    cases o with
    | refresh => exact h.elim
    | receive len => exact h.elim
    | send msg => exact ⟨rfl, fun st => ih st (h.2 st)⟩
    | endpoint ep id args => exact ⟨rfl, fun ans => ih ans (h ans)⟩

/-- `trace` is what a worker has performed of its poll, and `rest` what is left. A poll that has
not begun has not been recorded. -/
def Serves (server : ChrpcServer) (trace : PollTrace) (id : Nat) (rest : ServerProg ChrpcStatus) :
    Prop :=
  ∃ buf, buf.length = server.attrs.maxMsgSize ∧ (rest = chrpcPollChannel server id buf ∨
    ((rest.Only fun o => o.beginsPoll = false) ∧ (chrpcPollChannel server id buf).Leaves trace rest))

theorem Serves.perform {trace : PollTrace} {id : Nat} {o : ServerOp}
    {k : o.Ans → ServerProg ChrpcStatus} (h : Serves server trace id (.perform o k)) (ans : o.Ans) :
    Serves server (trace.record ⟨o, ans⟩) id (k ans) := by
  obtain ⟨buf, hbuf, hrest | ⟨honly, hleaves⟩⟩ := h
  · refine ⟨buf, hbuf, .inr ⟨?_, ?_⟩⟩
    · -- `chn_refresh` is the first operation of a poll only.
      cases hrest
      show (if _ then _ else _ : ServerProg ChrpcStatus).Only _
      split
      · trivial
      · refine ⟨rfl, fun r => ?_⟩
        cases r with
        | error st => cases st <;> trivial
        | ok msg => exact (chrpcHandleMessage_oneSend server _ id msg.length).only
    · intro trace' status hk
      rw [← hrest]
      cases hrest
      exact .perform hk
  · refine ⟨buf, hbuf, .inr ⟨honly.2 ans, ?_⟩⟩
    rw [PollTrace.record, honly.1]
    exact hleaves.perform ans

/-- A worker that is done with its poll has recorded all of it. -/
theorem Serves.done {trace : PollTrace} {id : Nat} {status : ChrpcStatus}
    (h : Serves server trace id (.done status)) :
    ∃ buf, buf.length = server.attrs.maxMsgSize ∧
      (chrpcPollChannel server id buf).Yields trace status := by
  obtain ⟨buf, hbuf, hrest | ⟨-, hleaves⟩⟩ := h
  · cases hrest
  · have hyields := hleaves [] status (.done status)
    rw [List.append_nil] at hyields
    exact ⟨buf, hbuf, hyields⟩

/-- Every poll is recorded. -/
def Recorded (server : ChrpcServer) (s : PoolState χ (ω × (χ → PollTrace))) : Prop :=
  ∀ ele rest, .serving ele rest ∈ s.workers → Serves server (s.world.2 ele.chn) ele.id rest

section Worker

variable {world world' : ω × (χ → PollTrace)} {shared shared' : ServerShared χ}
  {ws₁ ws₂ : List (WorkerPhase χ)} {w w' : WorkerPhase χ} {phase : ServerPhase}
  {log log' : PoolLog χ}

/-- A step of a worker that performs nothing. -/
theorem Recorded.replace (h : Recorded server ⟨world, shared, ws₁ ++ w :: ws₂, phase, log⟩)
    (hworld : world'.2 = world.2)
    (hw : ∀ ele rest, w' = .serving ele rest → Serves server (world.2 ele.chn) ele.id rest) :
    Recorded server ⟨world', shared', ws₁ ++ w' :: ws₂, phase, log'⟩ := by
  intro ele rest hmem
  show Serves server (world'.2 ele.chn) ele.id rest
  rw [hworld]
  rcases List.mem_append.mp hmem with hmem | hmem
  · exact h ele rest (List.mem_append_left _ hmem)
  · rcases List.mem_cons.mp hmem with rfl | hmem
    · exact hw ele rest rfl
    · exact h ele rest (List.mem_append_right _ (List.mem_cons_of_mem _ hmem))

theorem workerStep_recorded
    (hinv : PoolInv server ⟨world, shared, ws₁ ++ w :: ws₂, phase, log⟩)
    (hrec : Recorded server ⟨world, shared, ws₁ ++ w :: ws₂, phase, log⟩)
    (h : WorkerStep server W.recorded ⟨world, shared, log, w⟩ ⟨world', shared', log', w'⟩) :
    Recorded server ⟨world', shared', ws₁ ++ w' :: ws₂, phase, log'⟩ := by
  cases h with
  | exit h => exact hrec.replace rfl fun _ _ hw => by cases hw
  | stay h => exact hrec.replace rfl fun _ _ hw => by cases hw
  | sleep h => exact hrec.replace rfl fun _ _ hw => by cases hw
  | @poll _ _ _ ele q buf h hbuf =>
    refine hrec.replace rfl fun _ _ hw => ?_
    cases hw
    exact ⟨buf, hbuf, .inl rfl⟩
  | @perform _ _ _ _ ele o k ans h =>
    obtain ⟨-, hself, hother⟩ := h
    intro ele' rest hmem
    have hserves : Serves server (world.2 ele.chn) ele.id (.perform o k) :=
      hrec ele _ (List.mem_append_right _ List.mem_cons_self)
    -- The other workers serve other channels, whose records stay as they are.
    have hothers : .serving ele' rest ∈ ws₁ ++ ws₂ →
        Serves server (world'.2 ele'.chn) ele'.id rest := by
      intro hmem
      rw [hother _ (polled_once hinv rfl hmem)]
      refine hrec ele' rest ?_
      rcases List.mem_append.mp hmem with hmem | hmem
      · exact List.mem_append_left _ hmem
      · exact List.mem_append_right _ (List.mem_cons_of_mem _ hmem)
    rcases List.mem_append.mp hmem with hmem | hmem
    · exact hothers (List.mem_append_left _ hmem)
    · rcases List.mem_cons.mp hmem with heq | hmem
      · simp only [WorkerPhase.serving.injEq] at heq
        obtain ⟨rfl, rfl⟩ := heq
        show Serves server (world'.2 ele'.chn) ele'.id (k ans)
        rw [hself]
        exact hserves.perform ans
      · exact hothers (List.mem_append_right _ hmem)
  | drop h hdestroy => exact hrec.replace hdestroy.2 fun _ _ hw => by cases hw
  | decrement => exact hrec.replace rfl fun _ _ hw => by cases hw
  | disconnect => exact hrec.replace rfl fun _ _ hw => by cases hw
  | push h hele hpush => exact hrec.replace rfl fun _ _ hw => by cases hw

end Worker

theorem poolStep_recorded {s s' : PoolState χ (ω × (χ → PollTrace))} (hinv : PoolInv server s)
    (hrec : Recorded server s) (h : PoolStep server W.recorded s s') : Recorded server s' := by
  cases h with
  | give hphase hnew h => exact hrec
  | worker h => exact workerStep_recorded hinv hrec h
  | @env _ world' h =>
    intro ele rest hmem
    show Serves server (world'.2 ele.chn) ele.id rest
    rw [h.2]
    exact hrec ele rest hmem
  | stop hphase => exact hrec
  | joined hphase h => exact hrec
  | @drain _ _ _ world' hphase h hdestroy =>
    intro ele rest hmem
    show Serves server (world'.2 ele.chn) ele.id rest
    rw [hdestroy.2]
    exact hrec ele rest hmem
  | deleted hphase h => exact hrec

theorem recorded_init {s : PoolState χ (ω × (χ → PollTrace))}
    (h : (poolSystem server W.recorded).init s) : Recorded server s := by
  obtain ⟨-, -, -, hworkers, -, -⟩ := h
  intro ele rest hmem
  rw [hworkers] at hmem
  exact absurd (List.eq_of_mem_replicate hmem) (by simp)

theorem poolSystem_recorded {s : PoolState χ (ω × (χ → PollTrace))}
    (h : (poolSystem server W.recorded).Reachable s) : PoolInv server s ∧ Recorded server s :=
  TransitionSystem.Inductive.reachable
    (TransitionSystem.Inductive.and
      (⟨fun _ => poolInv_init, fun _ _ => poolStep_inv⟩ :
        (poolSystem server W.recorded).Inductive (PoolInv server))
      (fun _ => recorded_init) fun _ _ => poolStep_recorded) h

/-- A server that runs was created. -/
theorem poolSystem_server {s : PoolState χ ω} (h : (poolSystem server W).Reachable s) :
    newChrpcServer server.attrs server.epSet = some server := by
  induction h with
  | init hinit => exact hinit.1
  | step _ _ ih => exact ih

/-! ## After the poll -/

/-- The channel is not queued again: it is destroyed as soon as the worker takes its next step. -/
def Honoured (server : ChrpcServer) (W : World χ ω) (s : PoolState χ ω) (ele : QueueEle χ)
    (status : ChrpcStatus) : Prop :=
  ∀ s', Relation.ReflTransGen (poolSystem server W).step s s' → ele.conn ∉ s'.queued ∧
    (.serving ele (.done status) ∈ s'.workers ∨ ele.conn ∈ s'.log.dropped)

section Handled

variable {s s' : PoolState χ ω} {ele : QueueEle χ} {status : ChrpcStatus}

/-- A channel is destroyed once and for all. -/
theorem poolStep_dropped (h : PoolStep server W s s') {c : Nat × χ} (hc : c ∈ s.log.dropped) :
    c ∈ s'.log.dropped := by
  cases h with
  | worker h =>
    cases h with
    | drop => exact List.mem_cons_of_mem _ hc
    | _ => exact hc
  | _ => exact hc

/-- A worker gives up the channel in its next step. -/
theorem poolStep_handled (hstatus : ∀ idle, workerDisconnects server.attrs idle status = true)
    (hserving : .serving ele (.done status) ∈ s.workers) (h : PoolStep server W s s') :
    .serving ele (.done status) ∈ s'.workers ∨ ele.conn ∈ s'.log.dropped := by
  cases h with
  | @worker world world' shared shared' ws₁ ws₂ w w' phase log log' h =>
    change .serving ele (.done status) ∈ ws₁ ++ w :: ws₂ at hserving
    show .serving ele (.done status) ∈ ws₁ ++ w' :: ws₂ ∨ _
    rcases List.mem_append.mp hserving with hmem | hmem
    · exact .inl (List.mem_append_left _ hmem)
    · rcases List.mem_cons.mp hmem with rfl | hmem
      · cases h with
        | drop => exact .inr List.mem_cons_self
        | push hkeeps => simp [hstatus] at hkeeps
      · exact .inl (List.mem_append_right _ (List.mem_cons_of_mem _ hmem))
  | _ => exact .inl hserving

/-- A channel that a worker holds or has destroyed is not in the queue. -/
theorem PoolInv.notMem_queued (hinv : PoolInv server s)
    (h : ele.conn ∈ s.held ∨ ele.conn ∈ s.log.dropped) : ele.conn ∉ s.queued := by
  have hnodup : (s.queued ++ (s.held ++ s.log.dropped ++ s.log.drained)).Nodup := by
    simpa using hinv.places_nodup.of_map
  intro hqueued
  refine (List.nodup_append.mp hnodup).2.2 _ hqueued ele.conn ?_ rfl
  rw [List.append_assoc, List.mem_append, List.mem_append]
  tauto

theorem honoured_of (h : (poolSystem server W).Reachable s)
    (hstatus : ∀ idle, workerDisconnects server.attrs idle status = true)
    (hserving : .serving ele (.done status) ∈ s.workers) : Honoured server W s ele status := by
  intro s' hrun
  have hplace : .serving ele (.done status) ∈ s'.workers ∨ ele.conn ∈ s'.log.dropped := by
    induction hrun with
    | refl => exact .inl hserving
    | tail _ hstep ih =>
      rcases ih with hserving | hdropped
      · exact poolStep_handled hstatus hserving hstep
      · exact .inr (poolStep_dropped hstep hdropped)
  refine ⟨(poolSystem_inv (h.steps hrun)).notMem_queued (hplace.imp_left fun hmem => ?_), hplace⟩
  exact List.mem_flatMap.mpr ⟨_, hmem, List.mem_singleton.mpr rfl⟩

/-- A worker that does not give up the channel can push it back. -/
theorem not_honoured_of (hinv : PoolInv server s) {idle : Int}
    (hstatus : workerDisconnects server.attrs idle status = false)
    (hserving : .serving ele (.done status) ∈ s.workers) : ¬Honoured server W s ele status := by
  intro hhonoured
  obtain ⟨world, shared, workers, phase, log⟩ := s
  obtain ⟨ws₁, ws₂, rfl⟩ := List.append_of_mem hserving
  have hroom : shared.q.toList.length < shared.q.cap := hinv.room_of_held (by
    rw [PoolState.held_mk]
    simp [WorkerPhase.held])
  let now := ele.sinceLastReq + idle
  let ele' := if status = chrpcSuccess then { ele with sinceLastReq := now } else ele
  have hconn : ele'.conn = ele.conn := by
    unfold ele'
    split <;> rfl
  obtain ⟨code, q, hpush⟩ : ∃ code q, qPush shared.q ele' = (code, q) := ⟨_, _, rfl⟩
  have hkeeps : workerDisconnects server.attrs (now - ele.sinceLastReq) status = false := by
    rwa [add_sub_cancel_left]
  have hstep : WorkerStep server W ⟨world, shared, log, .serving ele (.done status)⟩
      ⟨world, { shared with q := q }, { log with pushCodes := code :: log.pushCodes }, .top⟩ :=
    .push hkeeps rfl hpush
  refine (hhonoured _ (.single (.worker hstep))).1 ?_
  rw [PoolState.queued, (qPush_conn hpush hroom).2.1, List.map_append, List.map_singleton, hconn]
  exact List.mem_append_right _ List.mem_cons_self

end Handled

/--
**When a disconnect command is honoured.** In any run of a server, let a worker have handled a
request whose endpoint function asked to disconnect, with a return value of the declared type.
The channel is destroyed and never queued again exactly if its response fits, or the channel
does not take the error response that the server sends in place of it.
-/
theorem disconnect_honoured_iff {s : PoolState χ (ω × (χ → PollTrace))}
    (h : (poolSystem server W.recorded).Reachable s) {ele : QueueEle χ} {status : ChrpcStatus}
    (hhandled : .serving ele (.done status) ∈ s.workers) {retVal : Option ChrpcValue}
    (hasks : AsksDisconnect (s.world.2 ele.chn) retVal) :
    Honoured server W.recorded s ele status ↔
      (TookError (s.world.2 ele.chn) →
        ResponseFits server.attrs.maxMsgSize (s.world.2 ele.chn) retVal) := by
  obtain ⟨hinv, hrec⟩ := poolSystem_recorded h
  have hmms := (newChrpcServer_eq_some (poolSystem_server h)).2.2.2
  obtain ⟨buf, hbuf, hyields⟩ := (hrec ele _ hhandled).done
  have hdisconnects := chrpcPollChannel_disconnects hmms hbuf hyields hasks
  constructor
  · intro hhonoured
    by_contra hcond
    have hkeeps : workerDisconnects server.attrs 0 status = false :=
      Bool.eq_false_iff.mpr fun htrue => hcond ((hdisconnects 0).mp htrue)
    exact not_honoured_of hinv hkeeps hhandled hhonoured
  · intro hcond
    exact honoured_of h (fun idle => (hdisconnects idle).mpr hcond) hhandled

end Record

/-! ## Runs in which a request is handled -/

/-- Channels and endpoint functions that may answer anything. -/
def anyWorld : World Unit Unit :=
  ⟨fun _ => True, fun _ _ _ _ _ => True, fun _ _ _ => True, fun _ _ => True⟩

/-- A worker can go through any trace of what is left of its poll. -/
theorem anyWorld_serves {server : ChrpcServer} {shared : ServerShared Unit}
    {ws₁ ws₂ : List (WorkerPhase Unit)} {phase : ServerPhase} {log : PoolLog Unit}
    {ele : QueueEle Unit} {rest : ServerProg ChrpcStatus} {trace : PollTrace} {status : ChrpcStatus}
    (hyields : rest.Yields trace status) {tr : Unit → PollTrace}
    (h : (poolSystem server anyWorld.recorded).Reachable
      ⟨((), tr), shared, ws₁ ++ .serving ele rest :: ws₂, phase, log⟩) :
    (poolSystem server anyWorld.recorded).Reachable
      ⟨((), fun _ => trace.foldl PollTrace.record (tr ele.chn)), shared,
        ws₁ ++ .serving ele (.done status) :: ws₂, phase, log⟩ := by
  induction hyields generalizing tr with
  | done a => exact h
  | @perform o k ans trace status hk ih =>
    have hop : anyWorld.recorded.op ele.chn o ((), tr) ans
        ((), fun _ => (tr ele.chn).record ⟨o, ans⟩) := ⟨trivial, rfl, fun c hc => absurd rfl hc⟩
    exact ih (h.step (.worker (.perform hop)))

/-- A channel of a server of one worker is polled. -/
theorem anyWorld_polls {server : ChrpcServer}
    (hserver : newChrpcServer server.attrs server.epSet = some server)
    (hone : server.attrs.numWorkers = 1 ∧ server.attrs.maxConnections = 1) {buf : Bytes}
    (hbuf : buf.length = server.attrs.maxMsgSize) {trace : PollTrace} {status : ChrpcStatus}
    (hyields : (chrpcPollChannel server 0 buf).Yields trace status) :
    ∃ s : PoolState Unit (Unit × (Unit → PollTrace)),
      (poolSystem server anyWorld.recorded).Reachable s ∧
      .serving ⟨0, 5, ()⟩ (.done status) ∈ s.workers ∧
      s.world.2 () = trace.foldl PollTrace.record [] := by
  have hmms := (newChrpcServer_eq_some hserver).2.2.2
  have hqueue : ∃ q : Queue (QueueEle Unit), newQueue 1 = some q ∧ q.cap = 1 ∧
      ∃ q₁, qPush q ⟨0, 5, ()⟩ = (0, q₁) ∧ ∃ q₂, qPoll q₁ = (0, some ⟨0, 5, ()⟩, q₂) :=
    ⟨_, rfl, rfl, _, rfl, _, rfl⟩
  obtain ⟨q, hq, hcap, q₁, hpush, q₂, hpoll⟩ := hqueue
  let tr : Unit → PollTrace := fun _ => []
  let log : PoolLog Unit := ⟨[()], [(0, ())], [], [], [], [0]⟩
  have h₀ : (poolSystem server anyWorld.recorded).Reachable
      ⟨((), tr), ⟨0, 0, q, false⟩, [] ++ [.top], .running, ⟨[], [], [], [], [], []⟩⟩ :=
    .init ⟨hserver, ⟨trivial, rfl⟩, ⟨q, by rw [hone.2, hq], rfl⟩, by rw [hone.1]; rfl, rfl, rfl⟩
  have hgive : chrpcServerGiveChannel server ⟨0, 0, q, false⟩ (some ())
      (.success, server.attrs.maxMsgSize) 5 = (chrpcSuccess, some 0, ⟨1, 1, q₁, false⟩) := by
    have hsize : ¬server.attrs.maxMsgSize < chrpcServerBufMinSize := by omega
    simp [chrpcServerGiveChannel, hsize, qCap, hcap, hpush]
  have h₁ : (poolSystem server anyWorld.recorded).Reachable
      ⟨((), tr), ⟨1, 1, q₁, false⟩, [] ++ [.top], .running, log⟩ :=
    h₀.step (PoolStep.give (W := anyWorld.recorded)
      (s := ⟨((), tr), ⟨0, 0, q, false⟩, [] ++ [WorkerPhase.top], .running,
        ⟨[], [], [], [], [], []⟩⟩) (.inl rfl) (fun _ _ => List.not_mem_nil) hgive)
  have h₂ : (poolSystem server anyWorld.recorded).Reachable
      ⟨((), tr), ⟨1, 1, q₁, false⟩, [] ++ [.ready], .running, log⟩ := h₁.step (.worker (.stay rfl))
  have h₃ : (poolSystem server anyWorld.recorded).Reachable
      ⟨((), tr), ⟨1, 1, q₂, false⟩, [] ++ [.serving ⟨0, 5, ()⟩ (chrpcPollChannel server 0 buf)],
        .running, log⟩ := h₂.step (.worker (.poll hpoll hbuf))
  exact ⟨_, anyWorld_serves hyields h₃, List.mem_cons_self, rfl⟩

/-- A byte array of zeros. -/
def zeros (n : Nat) : ChrpcValue := newChrpcB8ArrayValue (List.replicate n 0)

theorem zeros_wellFormed {n : Nat} (h : n < 2 ^ 32) : (zeros n).WellFormed :=
  (Constructible.numericArray (p := .byte) (by decide) (List.replicate n 0)
    (by rwa [List.length_replicate])).wellFormed

/-- The endpoint `a`, which has no arguments and returns a byte array. -/
def zerosEndpoint : Endpoint := ⟨⟨[97], by decide⟩, some (.array (.prim .byte)), [], by decide⟩

/-- A request to it. -/
def zerosRequest : Bytes := [10, 2, 9, 11, 11, 0, 2, 0, 0, 0, 97, 0, 0, 0, 0, 0]

/-- The start of a poll that finds the request. The endpoint function returns `n` zeros, and asks
to disconnect. -/
def zerosTrace (n : Nat) : PollTrace :=
  [⟨.refresh, .success⟩, ⟨.receive 128, .ok zerosRequest⟩,
    ⟨.endpoint zerosEndpoint 0 [], (.disconnect, some (zeros n))⟩]

theorem foldl_record {trace : PollTrace} (h : ∀ e ∈ trace, e.1.IsSend) (before : PollTrace) :
    trace.foldl PollTrace.record before = before ++ trace := by
  induction trace generalizing before with
  | nil => simp
  | cons e trace ih =>
    obtain ⟨o, ans⟩ := e
    rw [List.forall_mem_cons] at h
    cases o with
    | send msg =>
      rw [List.foldl_cons, ih h.2]
      simp [PollTrace.record, ServerOp.beginsPoll]
    | _ => exact h.1.elim

/-- The request is handled in a run. -/
theorem anyWorld_disconnect {n : Nat} (hn : n < 2 ^ 32) {rest : PollTrace} {status : ChrpcStatus}
    (hrest : (sendResponse 128 .disconnect
      (responseBytes chrpcSuccess (valueBytes (some (zeros n))))).Yields rest status) :
    ∃ (server : ChrpcServer) (s : PoolState Unit (Unit × (Unit → PollTrace))),
      (poolSystem server anyWorld.recorded).Reachable s ∧
      .serving ⟨0, 5, ()⟩ (.done status) ∈ s.workers ∧ s.world.2 () = zerosTrace n ++ rest ∧
      AsksDisconnect (s.world.2 ()) (some (zeros n)) := by
  have hset : ∃ epSet, newChrpcEndpointSet [zerosEndpoint] = some epSet := ⟨_, rfl⟩
  obtain ⟨epSet, hset⟩ := hset
  obtain ⟨hwf, heps⟩ := newChrpcEndpointSet_wellFormed hset
  let server : ChrpcServer := ⟨⟨128, 1, 1, 0, true⟩, epSet⟩
  have hnul : StringsTerminated epSet zerosRequest := by
    refine ⟨(by decide : AllHoldNul [[97, 0]]), fun name cells ep _ hep _ _ => ?_⟩
    rw [heps, List.mem_singleton] at hep
    subst hep
    cases cells <;> exact allHoldNul_nil
  have haccepts : Accepts epSet zerosRequest zerosEndpoint [] := by
    refine ⟨?_, [97, 0], [], ⟨_, rfl⟩, rfl, .nil⟩
    rw [heps]
    exact List.mem_cons_self
  obtain ⟨buf, hbuf⟩ : ∃ buf : Bytes, buf.length = 128 := ⟨_, List.length_replicate (a := 0)⟩
  have hlen : 128 ≤ (overwrite buf 0 zerosRequest).length := by
    rw [overwrite_length (by rw [hbuf]; decide), hbuf]
  have hret : ∀ v ∈ some (zeros n), v.WellFormed := by
    simpa using zeros_wellFormed hn
  have htype : chrpcTypeEqualsWrapper zerosEndpoint.ret (some (zeros n)) = true := rfl
  have hresponds : (chrpcRespond server (overwrite buf 0 zerosRequest) zerosEndpoint .disconnect
      (some (zeros n))).Yields rest status := by
    have hmms : chrpcServerBufMinSize ≤ server.attrs.maxMsgSize := le_rfl
    rwa [chrpcRespond_eq hmms hlen htype hret]
  -- The poll reads the request, calls the endpoint, and responds as assumed.
  have hpoll : (chrpcPollChannel server 0 buf).Yields (zerosTrace n ++ rest) status := by
    refine Prog.yields_call.mpr ⟨_, _, rfl, Prog.yields_call.mpr ⟨_, _, rfl, ?_⟩⟩
    show (chrpcHandleMessage server 0 (overwrite buf 0 zerosRequest) zerosRequest.length).Yields _ _
    rw [chrpcHandleMessage_accepted hwf hnul haccepts]
    exact Prog.yields_call.mpr ⟨_, _, rfl, hresponds⟩
  have hserver : newChrpcServer server.attrs server.epSet = some server := rfl
  obtain ⟨s, hreach, hserving, htrace⟩ := anyWorld_polls hserver ⟨rfl, rfl⟩ hbuf hpoll
  have hsends := (chrpcRespond_only server _ zerosEndpoint .disconnect
    (some (zeros n))).yields hresponds
  rw [List.foldl_append, foldl_record hsends] at htrace
  refine ⟨server, s, hreach, hserving, htrace, zerosEndpoint, 0, [], ?_, htype, hret⟩
  rw [htrace]
  simp [zerosTrace, PollTrace.record, ServerOp.beginsPoll]

/-- A response of 16 bytes goes out, and the channel is destroyed. -/
theorem disconnect_honoured_small :
    ∃ (server : ChrpcServer) (s : PoolState Unit (Unit × (Unit → PollTrace)))
      (ele : QueueEle Unit) (status : ChrpcStatus) (retVal : Option ChrpcValue),
      (poolSystem server anyWorld.recorded).Reachable s ∧
      .serving ele (.done status) ∈ s.workers ∧ AsksDisconnect (s.world.2 ele.chn) retVal ∧
      Honoured server anyWorld.recorded s ele status := by
  have hsend : (sendResponse 128 .disconnect
      (responseBytes chrpcSuccess (valueBytes (some (zeros 0))))).Yields
      [⟨.send (responseBytes chrpcSuccess (valueBytes (some (zeros 0)))), .success⟩]
      chrpcDisconnect := by
    rw [sendResponse, if_pos (by decide)]
    exact Prog.yields_call.mpr ⟨.success, [], rfl, .done _⟩
  obtain ⟨server, s, hreach, hserving, htrace, hasks⟩ := anyWorld_disconnect (by decide) hsend
  refine ⟨server, s, _, _, _, hreach, hserving, hasks,
    (disconnect_honoured_iff hreach hserving hasks).mpr fun herr => ?_⟩
  rw [htrace] at herr
  simp [TookError, zerosTrace, responseBytes, chrpcSuccess, chrpcBufferTooSmall] at herr

/-- **A return value that is too large**: the endpoint function returns 128 bytes for a buffer of
128, the channel takes the error response, and the worker pushes the channel back. -/
theorem not_disconnect_honoured :
    ∃ (server : ChrpcServer) (s : PoolState Unit (Unit × (Unit → PollTrace)))
      (ele : QueueEle Unit) (status : ChrpcStatus) (retVal : Option ChrpcValue),
      (poolSystem server anyWorld.recorded).Reachable s ∧
      .serving ele (.done status) ∈ s.workers ∧ AsksDisconnect (s.world.2 ele.chn) retVal ∧
      ¬Honoured server anyWorld.recorded s ele status := by
  have hlong : ¬(responseBytes chrpcSuccess (valueBytes (some (zeros 128)))).length ≤ 128 := by
    decide +kernel
  have hsend : (sendResponse 128 .disconnect
      (responseBytes chrpcSuccess (valueBytes (some (zeros 128))))).Yields
      [⟨.send (responseBytes chrpcBufferTooSmall []), .success⟩] chrpcSuccess := by
    rw [sendResponse, if_neg hlong]
    exact Prog.yields_call.mpr ⟨.success, [], rfl, .done _⟩
  obtain ⟨server, s, hreach, hserving, -, hasks⟩ := anyWorld_disconnect (by decide) hsend
  have hkeeps : workerDisconnects server.attrs 0 chrpcSuccess = false := rfl
  exact ⟨server, s, _, _, _, hreach, hserving, hasks,
    not_honoured_of (poolSystem_inv hreach) hkeeps hserving⟩

end Chlibs.Rpc
