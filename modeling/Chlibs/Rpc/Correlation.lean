import Chlibs.Rpc.Matching
import Chlibs.Rpc.Messages

/-!
# Responses match requests

Messages carry no request id: a response belongs to a request because a client waits for it,
one worker at a time polls a pipe, and a poll answers at most once.

* `clientStep_ok`, `linkOp_ok` — the steps of a client and of the server's end of its pipe.
* `responses_matched` — a call receives the response to the request that it sent.
-/

namespace Chlibs.Rpc

open Infra Serial Channel Util

/-! ## One pipe -/

/-- At most one message is in flight. `sent` are the requests that the server received, and the
one that is on its way. -/
inductive Flight (l : ClientLink) : Prop
  | none (hto : l.toServer = []) (hfrom : l.toClient = [])
      (hsent : l.sent = l.handled.map Prod.fst)
  | request {req : Bytes} (hto : l.toServer = [req]) (hfrom : l.toClient = [])
      (hsent : l.sent = l.handled.map Prod.fst ++ [req])
  | response {done : List (Bytes × List Bytes)} {req resp : Bytes} (hto : l.toServer = [])
      (hfrom : l.toClient = [resp]) (hsent : l.sent = l.handled.map Prod.fst)
      (hhandled : l.handled = done ++ [(req, [resp])])

/-- What holds of a client and its pipe at all times. -/
structure ClientLink.Ok (cfg : ChannelLocalConfig) (l : ClientLink) : Prop where
  bounded : PipeBounded cfg l.core
  stray : l.stray = []
  flight : Flight l
  /-- a client that is not in a call has read what the server sent -/
  ready : l.phase = .ready → l.toServer = [] ∧ l.toClient = [] ∧
    ∀ done req msgs, l.handled = done ++ [(req, msgs)] → msgs ≠ []
  received : ∀ k msg, (k, msg) ∈ l.received →
    ∃ req, l.sent[k]? = some req ∧ l.handled[k]? = some (req, [msg])

/-- The server handles a request and has not answered it. -/
structure ClientLink.Active (l : ClientLink) : Prop where
  handling : l.handling = true
  waiting : l.phase ≠ .ready
  toServer : l.toServer = []
  toClient : l.toClient = []
  unanswered : ∃ done req, l.handled = done ++ [(req, [])]

/-- What the rest of a poll may do to the pipe. -/
def PollOk {α : Type} (l : ClientLink) (p : ServerProg α) : Prop :=
  Quiet p ∨ Polling p ∨ (OneSend p ∧ l.Active)

section Link

variable {cfg : ClientConfig} {l l' : ClientLink}

/-- Flight depends on the messages and on what happened to them. -/
theorem Flight.congr (h : Flight l) (hto : l'.toServer = l.toServer)
    (hfrom : l'.toClient = l.toClient) (hsent : l'.sent = l.sent) (hhandled : l'.handled = l.handled) :
    Flight l' := by
  cases h with
  | none h₁ h₂ h₃ => exact .none (hto.trans h₁) (hfrom.trans h₂) (by rw [hsent, h₃, hhandled])
  | request h₁ h₂ h₃ =>
    exact .request (hto.trans h₁) (hfrom.trans h₂) (by rw [hsent, h₃, hhandled])
  | response h₁ h₂ h₃ h₄ =>
    exact .response (hto.trans h₁) (hfrom.trans h₂) (by rw [hsent, h₃, hhandled])
      (hhandled.trans h₄)

/-- The client waits, or has given up. -/
theorem ClientLink.Ok.wait (h : l.Ok cfg.chn) {phase : ClientPhase} (hphase : phase ≠ .ready) :
    ClientLink.Ok cfg.chn { l with phase := phase } where
  bounded := h.bounded
  stray := h.stray
  flight := h.flight.congr rfl rfl rfl rfl
  ready := fun hready => absurd hready hphase
  received := h.received

theorem ClientLink.Ok.close (h : l.Ok cfg.chn) : l.close.Ok cfg.chn :=
  h.wait fun hphase => by cases hphase

/-- **A client reads one message for each that it sends.** -/
theorem clientStep_ok (h : l.Ok cfg.chn) (hstep : ClientStep cfg l l') : l'.Ok cfg.chn := by
  cases hstep with
  | @request msg core hphase hsend =>
    obtain ⟨hbounded, hfrom', -, hto'⟩ := chnL2Send_pending h.bounded hsend
    obtain ⟨hto, hfrom, -⟩ := h.ready hphase
    -- A client that is ready has no request in flight, so all that was sent is handled.
    have hsent : l.sent = l.handled.map Prod.fst := by
      cases h.flight with
      | none _ _ hsent => exact hsent
      | request hto' => simp [hto] at hto'
      | response _ _ hsent => exact hsent
    refine ⟨hbounded, h.stray, .request (hto' rfl hto) (hfrom'.trans hfrom) ?_,
      fun hready => by simp at hready, fun k msg' hmem => ?_⟩
    · show l.sent ++ [msg] = _
      rw [hsent]
    · obtain ⟨req, hreq, hhandled⟩ := h.received k msg' hmem
      refine ⟨req, ?_, hhandled⟩
      obtain ⟨hlt, -⟩ := List.getElem?_eq_some_iff.mp hreq
      rw [List.getElem?_append_left hlt, hreq]
  | refused hphase hsend hst =>
    obtain ⟨-, -, hsame, -⟩ := chnL2Send_pending h.bounded hsend
    rw [hsame hst]
    exact h.close
  | @poll timeWaited r core hphase htime hreceive =>
    obtain ⟨hbounded, hto', hsame, htook⟩ := chnL2Receive_pending h.bounded hreceive
    cases r with
    | error st =>
      rw [hsame st rfl]
      cases st with
      | noIncomingMsg => exact h.wait fun hphase => by cases hphase
      | _ => exact h.close
    | ok msg =>
      have htaken : l.toClient = msg :: (core.incoming true).pending := htook msg rfl
      show ClientLink.Ok cfg.chn
        ⟨core, .ready, l.sent, (l.sent.length - 1, msg) :: l.received, l.handled, l.handling, l.stray⟩
      -- Only a message that answers the request in flight can be on the way.
      cases h.flight with
      | none _ hfrom => simp [hfrom] at htaken
      | request _ hfrom => simp [hfrom] at htaken
      | @response done req resp hto hfrom hsent hhandled =>
        rw [hfrom, List.cons.injEq] at htaken
        obtain ⟨rfl, hrest⟩ := htaken
        have hempty : (core.incoming true).pending = [] := hrest.symm
        have hto' : (core.incoming false).pending = [] := hto'.trans hto
        refine ⟨hbounded, h.stray, .none hto' hempty hsent, fun _ => ⟨hto', hempty, ?_⟩, ?_⟩
        · intro done' req' msgs heq
          have hlast := (List.append_inj_right' (hhandled.symm.trans heq) rfl)
          simp only [List.cons.injEq, Prod.mk.injEq, and_true] at hlast
          rw [← hlast.2]
          exact List.cons_ne_nil _ _
        · intro k msg' hmem
          rcases List.mem_cons.mp hmem with heq | hmem
          · simp only [Prod.mk.injEq] at heq
            obtain ⟨rfl, rfl⟩ := heq
            have hlen : l.sent.length - 1 = done.length := by simp [hsent, hhandled]
            refine ⟨req, ?_, ?_⟩
            · show l.sent[l.sent.length - 1]? = some req
              rw [hlen, hsent, hhandled]
              simp
            · show l.handled[l.sent.length - 1]? = some (req, [msg'])
              rw [hlen, hhandled]
              simp
          · exact h.received k msg' hmem
  | timeout hphase => exact h.close
  | delete hphase => exact h.close

/-- What a client does leaves the worker's poll alone. -/
theorem clientStep_active (h : l.Ok cfg.chn) (hactive : l.Active) (hstep : ClientStep cfg l l') :
    l'.Active := by
  obtain ⟨handling, waiting, hto, hfrom, hunanswered⟩ := hactive
  cases hstep with
  | request hphase => exact absurd hphase waiting
  | refused hphase => exact absurd hphase waiting
  | @poll timeWaited r core hphase htime hreceive =>
    obtain ⟨-, hto', hsame, htook⟩ := chnL2Receive_pending h.bounded hreceive
    cases r with
    | error st =>
      rw [hsame st rfl]
      cases st with
      | noIncomingMsg =>
        exact ⟨handling, by simp [ClientLink.afterPoll, chrpcClientPollStep], hto, hfrom,
          hunanswered⟩
      | _ =>
        exact ⟨handling, by simp [ClientLink.afterPoll, ClientLink.close, chrpcClientPollStep],
          hto, hfrom, hunanswered⟩
    | ok msg =>
      have htaken : l.toClient = msg :: (core.incoming true).pending := htook msg rfl
      simp [hfrom] at htaken
  | timeout hphase => exact ⟨handling, by simp [ClientLink.close], hto, hfrom, hunanswered⟩
  | delete hphase => exact absurd hphase waiting

theorem clientStep_pollOk {α : Type} {p : ServerProg α} (h : l.Ok cfg.chn) (hp : PollOk l p)
    (hstep : ClientStep cfg l l') : PollOk l' p := by
  rcases hp with hquiet | hpolling | ⟨hone, hactive⟩
  · exact .inl hquiet
  · exact .inr (.inl hpolling)
  · exact .inr (.inr ⟨hone, clientStep_active h hactive hstep⟩)

/-- The server's end receives a request. -/
theorem ClientLink.Ok.receive (h : l.Ok cfg.chn) {core : ChannelLocal2Core} {len : Nat} {msg : Bytes}
    (hreceive : chnL2Receive l.core false len = (.ok msg, core)) :
    ClientLink.Ok cfg.chn
      { l with core := core, handling := true, handled := l.handled ++ [(msg, [])] } ∧
    ClientLink.Active
      { l with core := core, handling := true, handled := l.handled ++ [(msg, [])] } := by
  obtain ⟨hbounded, hfrom', -, htook⟩ := chnL2Receive_pending h.bounded hreceive
  have htaken : l.toServer = msg :: (core.incoming false).pending := htook msg rfl
  cases h.flight with
  | none hto => simp [hto] at htaken
  | response hto => simp [hto] at htaken
  | @request req hto hfrom hsent =>
    rw [hto, List.cons.injEq] at htaken
    obtain ⟨rfl, hrest⟩ := htaken
    have hempty : (core.incoming false).pending = [] := hrest.symm
    have hfrom' : (core.incoming true).pending = [] := hfrom'.trans hfrom
    have hwaiting : l.phase ≠ .ready := fun hready => by simp [(h.ready hready).1] at hto
    refine ⟨⟨hbounded, h.stray, .none hempty hfrom' ?_, fun hready => absurd hready hwaiting, ?_⟩,
      ⟨rfl, hwaiting, hempty, hfrom', l.handled, req, rfl⟩⟩
    · show l.sent = (l.handled ++ [(req, [])]).map Prod.fst
      rw [hsent, List.map_append]
      rfl
    · intro k msg' hmem
      obtain ⟨req', hreq, hhandled⟩ := h.received k msg' hmem
      obtain ⟨hlt, -⟩ := List.getElem?_eq_some_iff.mp hhandled
      refine ⟨req', hreq, ?_⟩
      show (l.handled ++ [(req, [])])[k]? = _
      rw [List.getElem?_append_left hlt, hhandled]

/-- The server's end answers the request. -/
theorem ClientLink.Ok.answer (h : l.Ok cfg.chn) (hactive : l.Active) {core : ChannelLocal2Core}
    {msg : Bytes} (hsend : chnL2Send l.core false msg = (.success, core)) :
    ClientLink.Ok cfg.chn { l with core := core, handled := respond l.handled msg } := by
  obtain ⟨hbounded, hto', -, hfrom'⟩ := chnL2Send_pending h.bounded hsend
  obtain ⟨-, hwaiting, hto, hfrom, done, req, hunanswered⟩ := hactive
  have hsent : l.sent = l.handled.map Prod.fst := by
    cases h.flight with
    | none _ _ hsent => exact hsent
    | request hto' => simp [hto] at hto'
    | response _ _ hsent => exact hsent
  have hrespond : respond l.handled msg = done ++ [(req, [msg])] := by
    rw [hunanswered, respond_snoc]
    rfl
  rw [hrespond]
  refine ⟨hbounded, h.stray, .response (hto'.trans hto) (hfrom' rfl hfrom) ?_ rfl,
    fun hready => absurd hready hwaiting, fun k msg' hmem => ?_⟩
  · show l.sent = (done ++ [(req, [msg])]).map Prod.fst
    rw [hsent, hunanswered, List.map_append, List.map_append]
    rfl
  · obtain ⟨req', hreq, hhandled⟩ := h.received k msg' hmem
    refine ⟨req', hreq, ?_⟩
    rw [hunanswered] at hhandled
    -- The last request is not answered yet, so the client has received an earlier response.
    rcases Nat.lt_or_ge k done.length with hlt | hge
    · rw [List.getElem?_append_left hlt] at hhandled
      show (done ++ [(req, [msg])])[k]? = _
      rw [List.getElem?_append_left hlt, hhandled]
    · rw [List.getElem?_append_right hge] at hhandled
      obtain ⟨-, hlast⟩ := List.mem_singleton.mp (List.mem_of_getElem? hhandled) |> Prod.mk.inj
      simp at hlast

/-- **The server's end receives one request in a poll, and answers it once.** -/
theorem linkOp_ok {α : Type} {o : ServerOp} {k : o.Ans → ServerProg α} {ans : o.Ans}
    (h : l.Ok cfg.chn) (hp : PollOk l (.perform o k)) (hop : linkOp l o ans l') :
    l'.Ok cfg.chn ∧ PollOk l' (k ans) := by
  -- Where the poll is: it is done, it looks for a request, or it owes an answer.
  rcases hp with hquiet | hpolling | ⟨hone, hactive⟩
  · exact hquiet.1.elim
  · cases o with
    | refresh =>
      obtain ⟨-, rfl⟩ := hop
      exact ⟨⟨h.bounded, h.stray, h.flight.congr rfl rfl rfl rfl, h.ready, h.received⟩,
        .inr (.inl (hpolling ans))⟩
    | receive len =>
      obtain ⟨core, hreceive, rfl⟩ := hop
      cases ans with
      | error st =>
        obtain ⟨-, -, hsame, -⟩ := chnL2Receive_pending h.bounded hreceive
        rw [hsame st rfl]
        exact ⟨h, .inl (hpolling.1 st)⟩
      | ok msg =>
        obtain ⟨hok, hactive⟩ := h.receive hreceive
        exact ⟨hok, .inr (.inr ⟨hpolling.2 msg, hactive⟩)⟩
    | send msg => exact hpolling.elim
    | endpoint ep id args => exact hpolling.elim
  · cases o with
    | refresh => exact hone.elim
    | receive len => exact hone.elim
    | send msg =>
      obtain ⟨core, hsend, rfl⟩ := hop
      by_cases hst : ans = ChannelStatus.success
      · obtain rfl : ans = ChannelStatus.success := hst
        rw [if_pos rfl, if_pos hactive.handling]
        exact ⟨h.answer hactive hsend, .inl hone.1⟩
      · obtain ⟨-, -, hsame, -⟩ := chnL2Send_pending h.bounded hsend
        rw [if_neg hst, hsame hst]
        exact ⟨h, .inr (.inr ⟨hone.2 ans, hactive⟩)⟩
    | endpoint ep id args =>
      obtain rfl : l' = l := hop
      exact ⟨h, .inr (.inr ⟨hone ans, hactive⟩)⟩

end Link

/-! ## All pipes -/

section System

variable {κ : Type} {server : ChrpcServer} {cfg : κ → ClientConfig}

/-- What holds of all clients and of the workers that poll their pipes. -/
structure MatchInv (cfg : κ → ClientConfig) (s : PoolState κ (κ → ClientLink)) : Prop where
  links : ∀ j, (s.world j).Ok (cfg j).chn
  polls : ∀ ele rest, .serving ele rest ∈ s.workers → PollOk (s.world ele.chn) rest

section Worker

variable {world world' : κ → ClientLink} {shared shared' : ServerShared κ}
  {ws₁ ws₂ : List (WorkerPhase κ)} {w w' : WorkerPhase κ} {phase : ServerPhase}
  {log log' : PoolLog κ}

/-- A step of a worker that leaves the pipes alone. -/
theorem MatchInv.replace (h : MatchInv cfg ⟨world, shared, ws₁ ++ w :: ws₂, phase, log⟩)
    (hw : ∀ ele rest, w' = .serving ele rest → PollOk (world ele.chn) rest) :
    MatchInv cfg ⟨world, shared', ws₁ ++ w' :: ws₂, phase, log'⟩ := by
  refine ⟨h.links, fun ele rest hmem => ?_⟩
  rcases List.mem_append.mp hmem with hmem | hmem
  · exact h.polls ele rest (List.mem_append_left _ hmem)
  · rcases List.mem_cons.mp hmem with rfl | hmem
    · exact hw ele rest rfl
    · exact h.polls ele rest (List.mem_append_right _ (List.mem_cons_of_mem _ hmem))

variable [DecidableEq κ]

/-- An operation on a pipe. -/
theorem MatchInv.perform {ele : QueueEle κ} {o : ServerOp} {k : o.Ans → ServerProg ChrpcStatus}
    {ans : o.Ans} {l : ClientLink}
    (hinv : PoolInv server ⟨world, shared, ws₁ ++ .serving ele (.perform o k) :: ws₂, phase, log⟩)
    (h : MatchInv cfg ⟨world, shared, ws₁ ++ .serving ele (.perform o k) :: ws₂, phase, log⟩)
    (hop : linkOp (world ele.chn) o ans l) :
    MatchInv cfg ⟨Function.update world ele.chn l, shared, ws₁ ++ .serving ele (k ans) :: ws₂,
      phase, log⟩ := by
  have hpoll : PollOk (world ele.chn) (.perform o k) :=
    h.polls ele _ (List.mem_append_right _ List.mem_cons_self)
  obtain ⟨hok, hrest⟩ := linkOp_ok (h.links ele.chn) hpoll hop
  refine ⟨fun j => ?_, fun ele' rest hmem => ?_⟩
  · by_cases hj : j = ele.chn
    · subst hj
      simpa using hok
    · simpa [hj] using h.links j
  · have hothers : .serving ele' rest ∈ ws₁ ++ ws₂ →
        PollOk (Function.update world ele.chn l ele'.chn) rest := by
      intro hmem
      have hne : ele'.chn ≠ ele.chn := polled_once hinv rfl hmem
      rw [Function.update_of_ne hne]
      refine h.polls ele' rest ?_
      rcases List.mem_append.mp hmem with hmem | hmem
      · exact List.mem_append_left _ hmem
      · exact List.mem_append_right _ (List.mem_cons_of_mem _ hmem)
    rcases List.mem_append.mp hmem with hmem | hmem
    · exact hothers (List.mem_append_left _ hmem)
    · rcases List.mem_cons.mp hmem with heq | hmem
      · simp only [WorkerPhase.serving.injEq] at heq
        obtain ⟨rfl, rfl⟩ := heq
        simpa using hrest
      · exact hothers (List.mem_append_right _ hmem)

theorem workerStep_match
    (hinv : PoolInv server ⟨world, shared, ws₁ ++ w :: ws₂, phase, log⟩)
    (hmatch : MatchInv cfg ⟨world, shared, ws₁ ++ w :: ws₂, phase, log⟩)
    (h : WorkerStep server (localWorld cfg) ⟨world, shared, log, w⟩ ⟨world', shared', log', w'⟩) :
    MatchInv cfg ⟨world', shared', ws₁ ++ w' :: ws₂, phase, log'⟩ := by
  cases h with
  | exit h => exact hmatch.replace fun _ _ hw => by cases hw
  | stay h => exact hmatch.replace fun _ _ hw => by cases hw
  | sleep h => exact hmatch.replace fun _ _ hw => by cases hw
  | poll h hbuf =>
    refine hmatch.replace fun _ _ hw => ?_
    cases hw
    exact .inr (.inl (chrpcPollChannel_polling _ _ _))
  | perform h =>
    obtain ⟨l, hop, rfl⟩ := h
    exact hmatch.perform hinv hop
  | drop h hdestroy =>
    obtain rfl := hdestroy
    exact hmatch.replace fun _ _ hw => by cases hw
  | decrement => exact hmatch.replace fun _ _ hw => by cases hw
  | disconnect => exact hmatch.replace fun _ _ hw => by cases hw
  | push h hele hpush => exact hmatch.replace fun _ _ hw => by cases hw

end Worker

variable [DecidableEq κ]

theorem poolStep_match {s s' : PoolState κ (κ → ClientLink)} (hinv : PoolInv server s)
    (hmatch : MatchInv cfg s) (h : PoolStep server (localWorld cfg) s s') : MatchInv cfg s' := by
  cases h with
  | give hphase hnew h => exact ⟨hmatch.links, hmatch.polls⟩
  | worker h => exact workerStep_match hinv hmatch h
  | env h =>
    obtain ⟨j, l, hstep, rfl⟩ := h
    refine ⟨fun i => ?_, fun ele rest hmem => ?_⟩
    · by_cases hi : i = j
      · subst hi
        simpa using clientStep_ok (hmatch.links i) hstep
      · simpa [hi] using hmatch.links i
    · have hpoll := hmatch.polls ele rest hmem
      show PollOk (Function.update s.world j l ele.chn) rest
      by_cases hj : ele.chn = j
      · subst hj
        simpa using clientStep_pollOk (hmatch.links ele.chn) hpoll hstep
      · rwa [Function.update_of_ne hj]
  | stop hphase => exact ⟨hmatch.links, hmatch.polls⟩
  | joined hphase h => exact ⟨hmatch.links, hmatch.polls⟩
  | drain hphase h hdestroy =>
    obtain rfl := hdestroy
    exact ⟨hmatch.links, hmatch.polls⟩
  | deleted hphase h => exact ⟨hmatch.links, hmatch.polls⟩

theorem matchInv_init {s : PoolState κ (κ → ClientLink)}
    (h : (poolSystem server (localWorld cfg)).init s) : MatchInv cfg s := by
  obtain ⟨-, hworld, -, hworkers, -, -⟩ := h
  refine ⟨fun j => ?_, fun ele rest hmem => ?_⟩
  · obtain ⟨core, hcore, hlink⟩ := hworld j
    obtain ⟨hbounded, hnil⟩ := newChannelLocal2Core_eq_ok hcore
    rw [hlink]
    exact ⟨hbounded, rfl, .none (hnil false) (hnil true) rfl,
      fun _ => ⟨hnil false, hnil true, by simp⟩, by simp⟩
  · rw [hworkers] at hmem
    exact absurd (List.eq_of_mem_replicate hmem) (by simp)

/--
**Responses match requests.** The message that a call of a client receives is the one message
that the server sent while it handled the request of that call, and at most one message is in
flight between the two.
-/
theorem responses_matched {s : PoolState κ (κ → ClientLink)}
    (h : (poolSystem server (localWorld cfg)).Reachable s) (j : κ) :
    (∀ k msg, (k, msg) ∈ (s.world j).received → ∃ req, (s.world j).sent[k]? = some req ∧
      (s.world j).handled[k]? = some (req, [msg])) ∧
    (s.world j).toServer.length + (s.world j).toClient.length ≤ 1 := by
  have hboth := TransitionSystem.Inductive.reachable
    (TransitionSystem.Inductive.and
      (⟨fun _ => poolInv_init, fun _ _ => poolStep_inv⟩ :
        (poolSystem server (localWorld cfg)).Inductive (PoolInv server))
      (fun _ => matchInv_init) fun _ _ => poolStep_match) h
  have hlink := hboth.2.links j
  refine ⟨hlink.received, ?_⟩
  cases hlink.flight with
  | none hto hfrom => simp [hto, hfrom]
  | request hto hfrom => simp [hto, hfrom]
  | response hto hfrom => simp [hto, hfrom]

end System

/-- A request that does not decode is answered with an error, which the client receives. -/
theorem responses_matched_error :
    ∃ (server : ChrpcServer) (cfg : Unit → ClientConfig) (s : PoolState Unit (Unit → ClientLink)),
      (poolSystem server (localWorld cfg)).Reachable s ∧
      (0, responseBytes chrpcUnexpectedEnd []) ∈ (s.world ()).received ∧
      ∃ req, (s.world ()).sent[0]? = some req ∧
        (s.world ()).handled[0]? = some (req, [responseBytes chrpcUnexpectedEnd []]) := by
  have hpipe : ∃ core, newChannelLocal2Core ⟨1, false, 128⟩ = .ok core ∧
      ∃ core₁, chnL2Send core true [0] = (.success, core₁) ∧
      ∃ core₂, chnL2Receive core₁ false 128 = (.ok [0], core₂) ∧
      ∃ core₃, chnL2Send core₂ false (responseBytes chrpcUnexpectedEnd []) = (.success, core₃) ∧
      ∃ core₄, chnL2Receive core₃ true 128
        = (.ok (responseBytes chrpcUnexpectedEnd []), core₄) :=
    ⟨_, rfl, _, rfl, _, rfl, _, rfl, _, rfl⟩
  obtain ⟨core, hcore, core₁, hsend₁, core₂, hreceive₁, core₃, hsend₂, core₄, hreceive₂⟩ := hpipe
  have hqueue : ∃ q : Queue (QueueEle Unit), newQueue 1 = some q ∧ q.cap = 1 ∧
      ∃ q₁, qPush q ⟨0, 5, ()⟩ = (0, q₁) ∧ ∃ q₂, qPoll q₁ = (0, some ⟨0, 5, ()⟩, q₂) :=
    ⟨_, rfl, rfl, _, rfl, _, rfl⟩
  obtain ⟨q, hq, hcap, q₁, hpush, q₂, hpoll⟩ := hqueue
  let server : ChrpcServer := ⟨⟨128, 1, 1, 0, true⟩, ⟨newHashMap sHash sEquals, []⟩⟩
  let cfg : Unit → ClientConfig := fun _ => ⟨⟨1, false, 128⟩, ⟨5, 100⟩⟩
  let log : PoolLog Unit := ⟨[()], [(0, ())], [], [], [], [0]⟩
  have hupdate : ∀ l l' : ClientLink,
      (fun _ : Unit => l') = Function.update (fun _ => l) () l' :=
    fun l l' => funext fun _ => (Function.update_self () l' fun _ => l).symm
  obtain ⟨buf, hbuf⟩ : ∃ buf : Bytes, buf.length = 128 := ⟨_, List.length_replicate (a := 0)⟩
  have hhandle : chrpcHandleMessage server 0 (overwrite buf 0 [0]) ([0] : Bytes).length
      = sendError chrpcUnexpectedEnd := by
    have hdecode : chrpcValueFromBuffer [0] = .error (.status chrpcUnexpectedEnd) := rfl
    have hlen : (overwrite buf 0 [0]).length = 128 := by
      rw [overwrite_length (by rw [hbuf]; decide), hbuf]
    rw [chrpcHandleMessage, take_overwrite_zero, hdecode]
    exact chrpcSendErrorResponse_eq (by decide) hlen.ge _
  -- The channel is given, and the worker looks for one.
  have h₀ : (poolSystem server (localWorld cfg)).Reachable
      ⟨fun _ => ⟨core, .ready, [], [], [], false, []⟩, ⟨0, 0, q, false⟩, [] ++ [.top], .running,
        ⟨[], [], [], [], [], []⟩⟩ :=
    .init ⟨rfl, fun _ => ⟨core, hcore, rfl⟩, ⟨q, hq, rfl⟩, rfl, rfl, rfl⟩
  have hgive : chrpcServerGiveChannel server ⟨0, 0, q, false⟩ (some ()) (.success, 128) 5
      = (chrpcSuccess, some 0, ⟨1, 1, q₁, false⟩) := by
    simp [chrpcServerGiveChannel, server, chrpcServerBufMinSize, qCap, hcap, hpush]
  have h₁ : (poolSystem server (localWorld cfg)).Reachable
      ⟨fun _ => ⟨core, .ready, [], [], [], false, []⟩, ⟨1, 1, q₁, false⟩, [] ++ [.top], .running,
        log⟩ :=
    h₀.step (PoolStep.give (W := localWorld cfg)
      (s := ⟨fun _ => ⟨core, .ready, [], [], [], false, []⟩, ⟨0, 0, q, false⟩,
        [] ++ [WorkerPhase.top], .running, ⟨[], [], [], [], [], []⟩⟩) (.inl rfl)
      (fun _ _ => List.not_mem_nil) hgive)
  have h₂ : (poolSystem server (localWorld cfg)).Reachable
      ⟨fun _ => ⟨core, .ready, [], [], [], false, []⟩, ⟨1, 1, q₁, false⟩, [] ++ [.ready], .running,
        log⟩ := h₁.step (.worker (.stay rfl))
  -- The client calls.
  have h₃ : (poolSystem server (localWorld cfg)).Reachable
      ⟨fun _ => ⟨core₁, .polling 0, [[0]], [], [], false, []⟩, ⟨1, 1, q₁, false⟩, [] ++ [.ready],
        .running, log⟩ := h₂.step (.env ⟨(), _, .request rfl hsend₁, hupdate _ _⟩)
  -- The worker polls the pipe: it receives the request, and answers.
  have h₄ : (poolSystem server (localWorld cfg)).Reachable
      ⟨fun _ => ⟨core₁, .polling 0, [[0]], [], [], false, []⟩, ⟨1, 1, q₂, false⟩,
        [] ++ [.serving ⟨0, 5, ()⟩ (chrpcPollChannel server 0 buf)], .running,
        log⟩ := h₃.step (.worker (.poll hpoll hbuf))
  have hrefresh : (localWorld cfg).op () .refresh
      (fun _ => ⟨core₁, .polling 0, [[0]], [], [], false, []⟩) ChannelStatus.success
      (fun _ => ⟨core₁, .polling 0, [[0]], [], [], false, []⟩) :=
    ⟨_, ⟨rfl, rfl⟩, hupdate _ _⟩
  have h₅ := h₄.step (.worker (.perform hrefresh))
  have hreceive : (localWorld cfg).op () (.receive 128)
      (fun _ => ⟨core₁, .polling 0, [[0]], [], [], false, []⟩) (.ok [0])
      (fun _ => ⟨core₂, .polling 0, [[0]], [], [([0], [])], true, []⟩) :=
    ⟨_, ⟨core₂, hreceive₁, rfl⟩, hupdate _ _⟩
  have h₆ : (poolSystem server (localWorld cfg)).Reachable
      ⟨fun _ => ⟨core₂, .polling 0, [[0]], [], [([0], [])], true, []⟩, ⟨1, 1, q₂, false⟩,
        [] ++ [.serving ⟨0, 5, ()⟩ (chrpcHandleMessage server 0 (overwrite buf 0 [0])
          ([0] : Bytes).length)], .running, log⟩ :=
    h₅.step (.worker (.perform hreceive))
  rw [hhandle] at h₆
  have hanswer : (localWorld cfg).op () (.send (responseBytes chrpcUnexpectedEnd []))
      (fun _ => ⟨core₂, .polling 0, [[0]], [], [([0], [])], true, []⟩) ChannelStatus.success
      (fun _ => ⟨core₃, .polling 0, [[0]], [],
        [([0], [responseBytes chrpcUnexpectedEnd []])], true, []⟩) :=
    ⟨_, ⟨core₃, hsend₂, rfl⟩, hupdate _ _⟩
  have h₇ : (poolSystem server (localWorld cfg)).Reachable
      ⟨fun _ => ⟨core₃, .polling 0, [[0]], [],
        [([0], [responseBytes chrpcUnexpectedEnd []])], true, []⟩, ⟨1, 1, q₂, false⟩,
        [] ++ [.serving ⟨0, 5, ()⟩ (.done chrpcSuccess)], .running, log⟩ :=
    h₆.step (.worker (.perform hanswer))
  -- The client reads the answer.
  have h₈ : (poolSystem server (localWorld cfg)).Reachable
      ⟨fun _ => ⟨core₄, .ready, [[0]], [(0, responseBytes chrpcUnexpectedEnd [])],
        [([0], [responseBytes chrpcUnexpectedEnd []])], true, []⟩, ⟨1, 1, q₂, false⟩,
        [] ++ [.serving ⟨0, 5, ()⟩ (.done chrpcSuccess)], .running, log⟩ :=
    h₇.step (.env ⟨(), _, .poll rfl (by decide) hreceive₂, hupdate _ _⟩)
  exact ⟨server, cfg, _, h₈, List.mem_cons_self,
    (responses_matched h₈ ()).1 0 _ List.mem_cons_self⟩

end Chlibs.Rpc
