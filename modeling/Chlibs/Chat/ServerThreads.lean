import Chlibs.Chat.Sessions

/-!
# The server among threads

The server of the chatroom, with the functions of `chatroom.c` under their locks: the workers take
turns, operation by operation. Strings are values, as in `Chlibs.Chat.Chatroom`: that workers change
their reference counts side by side is left out.

* `chatServer_refines` — what the channels come to, they come to with calls that act at once.
* `endpoints_answer` — an endpoint does nothing undefined, makes a few calls, and answers with a
  value of its type.
* `gone_forgotten` — a channel that is gone is logged out, and its name is free.
-/

namespace Chlibs.Chat

open Infra Serial Util Rpc

section Threads

variable {garbage : Garbage} {iterChainInd : Nat} {iter : Option Nat}

/-- The server among threads. -/
abbrev ServerThreads := ThreadClients UInt64 RoomCall Nat Chatroom RoomAnswer Job RoomAcc.Ans

variable {S : ServerThreads} {id : UInt64}

theorem server_matches (h : (chatServerThreads garbage iterChainInd iter).Reachable S) :
    ∃ s, chatServer.Reachable s ∧ (∀ id job, S.place id = .here job → s.place id = job) ∧
      ((∀ id, S.threads.running id = none) → Shows S.threads.data s.object) := by
  obtain ⟨s, hs, hhere, -, hidle⟩ := clients_refine chatClients _ roomData_lawful roomBody_follows
    (room_simulates garbage) ⟨newChatroomState_shows iterChainInd iter, Room.ok_empty⟩ h
  exact ⟨s, hs, fun id job hat => (hhere id job hat).1, fun hnone => (hidle hnone).1⟩

/-! ## How many calls -/

/-- No worker is far from the end of what it does. -/
def Job.Bounded : Job → Prop
  | .serving _ p => p.AtMost 2
  | .leaving p => p.AtMost 3
  | _ => True

theorem callStatus_atMost (c : RoomCall) : (callStatus c).AtMost 1 := by
  intro ans
  cases ans <;> trivial

theorem returnsStatus_atMost (c : RoomCall) :
    (callStatus c >>= fun st => pure (returnStatus st)).AtMost 2 := by
  refine ((callStatus_atMost c).bind (m := 0) ?_).mono (Nat.le_succ 1)
  exact fun st => trivial

theorem endpoint_atMost {ep : Endpoint} {func : UInt64 → List ChrpcValue → EpProg EpRet}
    (hep : (ep, func) ∈ chatEndpoints) (id : UInt64) (args : List ChrpcValue) :
    (func id args).AtMost 2 := by
  simp only [chatEndpoints, List.mem_cons, Prod.mk.injEq, List.not_mem_nil, or_false] at hep
  rcases hep with ⟨-, rfl⟩ | ⟨-, rfl⟩ | ⟨-, rfl⟩ | ⟨-, rfl⟩
  · unfold chatroomLoginEp
    split
    · trivial
    · refine (callStatus_atMost _).bind (m := 1) fun st => ?_
      cases st with
      | success => exact (callStatus_atMost _).bind (m := 0) fun _ => trivial
      | _ => trivial
  · unfold chatroomSendGlobalMsgEp
    split
    · trivial
    · exact returnsStatus_atMost _
  · unfold chatroomSendPrivateMsgEp
    split
    · exact returnsStatus_atMost _
    · trivial
  · unfold chatroomPollEp
    rw [Prog.call_bind]
    intro ans
    beta_reduce
    split
    · split <;> trivial
    · trivial
    · trivial
    · trivial

theorem chatroomOnDisconnect_atMost (id : UInt64) : (chatroomOnDisconnect id).AtMost 3 := by
  intro ans
  cases ans with
  | username username =>
    refine (callStatus_atMost _).bind (m := 1) fun st => ?_
    cases username with
    | none => trivial
    | some username =>
      simp only
      split
      · exact (callStatus_atMost _).bind (m := 0) fun _ => trivial
      · trivial
  | _ => trivial

theorem chatServer_bounded : Local chatClients roomStep .empty (fun _ _ => True)
    (fun _ _ _ => ()) fun _ _ => Job.Bounded where
  init := ⟨trivial, fun _ => trivial⟩
  moves := by
    intro id _ job job' _ hmoves
    cases hmoves with
    | serves hep _ _ => exact endpoint_atMost hep id _
    | answers => trivial
    | disconnects => exact chatroomOnDisconnect_atMost id
    | goes => trivial
  calls := by
    intro id room log job c k _ hjob hcalls
    refine ⟨trivial, ?_, fun _ _ => rfl⟩
    cases hcalls with
    | serving => exact (hjob _).mono (Nat.le_succ 1)
    | leaving => exact (hjob _).mono (Nat.le_succ 2)

theorem server_bounded (h : (chatServerThreads garbage iterChainInd iter).Reachable S)
    {ep : Endpoint} {p : EpProg EpRet} (hat : S.place id = .here (.serving ep p)) :
    p.AtMost 2 := by
  obtain ⟨s, hs, hhere, -⟩ := server_matches h
  have hjob := (chatServer_bounded.reachable chatClients hs).2 id
  rwa [hhere id _ hat] at hjob

/-! ## Schedules -/

/-- The call that comes next for a channel. -/
def Job.call : Job → Option (RoomCall × (RoomAnswer → Job))
  | .serving ep (.perform c k) => some (c, fun a => .serving ep (k a))
  | .leaving (.perform c k) => some (c, fun a => .leaving (k a))
  | _ => none

theorem Job.call_sound {job : Job} {c : RoomCall} {k : RoomAnswer → Job}
    (h : job.call = some (c, k)) : JobCalls job c k := by
  unfold Job.call at h
  split at h
  · cases h
    exact .serving
  · cases h
    exact .leaving
  · cases h

def jobCaller : chatClients.Caller := ⟨fun _ job => job.call, Job.call_sound⟩

/-- A request, or that the channel is gone. -/
def whenIdle (job' : Job) : Job → Option Job
  | .idle => some job'
  | _ => none

theorem whenIdle_sound {id : UInt64} {job₁ job job' : Job} (h₁ : JobMoves id .idle job₁)
    (h : whenIdle job₁ job = some job') : JobMoves id job job' := by
  unfold whenIdle at h
  split at h
  · cases h
    exact h₁
  · cases h

def fromIdle (id : UInt64) {job : Job} (h : JobMoves id .idle job) : chatClients.Move id :=
  ⟨whenIdle job, whenIdle_sound h⟩

/-- The worker is done with a request, or with a channel that is gone. -/
def Job.finish : Job → Option Job
  | .serving _ (.done _) => some .idle
  | .leaving (.done ()) => some .gone
  | _ => none

theorem Job.finish_sound {id : UInt64} {job job' : Job} (h : job.finish = some job') :
    JobMoves id job job' := by
  unfold Job.finish at h
  split at h
  · cases h
    exact .answers
  · cases h
    exact .goes
  · cases h

def finishes (id : UInt64) : chatClients.Move id := ⟨Job.finish, Job.finish_sound⟩

/-- The server before anybody calls. -/
def newServer : ServerThreads where
  threads := .start (newChatroomState 0 none)
  place _ := .here .idle

/-- What a schedule of the workers leads to. -/
theorem chatServerThreads_run (turns : List (ClientTurn chatClients)) (P : ServerThreads → Prop)
    [DecidablePred P]
    (h : (newServer.run (roomData ⟨0, none⟩) roomBody jobCaller turns).any (fun S => P S) = true) :
    ∃ S, (chatServerThreads ⟨0, none⟩ 0 none).Reachable S ∧ P S :=
  ThreadClients.exists_reachable h

/-- The answer that a channel is about to get. -/
def answerAt : Where RoomAnswer Job → Option (Endpoint × EpRet)
  | .here (.serving ep (.done ret)) => some (ep, ret)
  | _ => none

theorem answerAt_eq_some {w : Where RoomAnswer Job} {ep : Endpoint} {ret : EpRet}
    (h : answerAt w = some (ep, ret)) : w = .here (.serving ep (.done ret)) := by
  unfold answerAt at h
  split at h
  · cases h
    rfl
  · cases h

def goneAt : Where RoomAnswer Job → Bool
  | .here .gone => true
  | _ => false

theorem goneAt_eq_true {w : Where RoomAnswer Job} (h : goneAt w = true) : w = .here .gone := by
  unfold goneAt at h
  split at h
  · rfl
  · cases h

theorem login_args : 1 ≤ 2 := Nat.le_succ 1

theorem serves_login (id : UInt64) (name : CString) (h : name.block.length < 2 ^ 32) :
    JobMoves id .idle (.serving (chatEndpoint (literal "login") statusType 1 login_args)
      (chatroomLoginEp id [newChrpcStrValue name])) :=
  .serves loginEp_mem rfl (strArg_sound h)

theorem poll_args : 0 ≤ 2 := Nat.zero_le 2

theorem serves_poll (id : UInt64) : JobMoves id .idle
    (.serving (chatEndpoint (literal "poll") (.array messageType) 0 poll_args)
      (chatroomPollEp id [])) :=
  .serves pollEp_mem rfl nofun

/-- The login of a channel. -/
def logsIn (id : UInt64) (name : CString) (h : name.block.length < 2 ^ 32) : chatClients.Move id :=
  fromIdle id (serves_login id name h)

/-- A poll of a channel. -/
def polls (id : UInt64) : chatClients.Move id := fromIdle id (serves_poll id)

def leaves (id : UInt64) : chatClients.Move id := fromIdle id .disconnects

/-- Channel 7 logs in while channel 8, which does not, polls. Then channel 7 polls, while channel 9
is in a poll. -/
theorem polled_threads : ∃ S : ServerThreads, (chatServerThreads ⟨0, none⟩ 0 none).Reachable S ∧
    (answerAt (S.place 7)).map (fun e => e.1.ret) = some (some (.array messageType)) ∧
      (answerAt (S.place 8)).isSome ∧ (S.threads.running 9).isSome ∧
      S.threads.history.filterMap (Moment.callOf 7)
        = [.login 7 ann, .sendGlobalMsg rootSender (loginMsg ann), .poll 7 pollSize] ∧
      S.threads.history.filterMap (Moment.returnOf 7) = [.status .success, .status .success,
        .polled .success (some [⟨true, rootSender, loginMsg ann⟩])] ∧
      S.threads.history.filterMap (Moment.callOf 8) = [.poll 8 pollSize] ∧
      S.threads.history.filterMap (Moment.returnOf 8) = [.polled .channelNotRegistered none] :=
  chatServerThreads_run [.moves (logsIn 7 ann (by decide)), .moves (polls 8), .goes 7 2, .goes 8 1,
    .goes 7 6, .goes 8 2, .goes 7 1, .goes 8 2, .goes 7 8, .moves (finishes 7), .moves (polls 7),
    .moves (polls 9), .goes 9 2, .goes 7 10] _ (by decide +kernel)

/-- Channel 7, which is logged in, is gone, while channel 8 logs in. -/
theorem gone_threads : ∃ S : ServerThreads, (chatServerThreads ⟨0, none⟩ 0 none).Reachable S ∧
    goneAt (S.place 7) = true ∧
      (S.threads.history.all fun m => m.thread = 7 ∨ m.thread = 8) = true ∧
      S.threads.running 7 = none ∧ S.threads.running 8 = none ∧
      S.threads.history.filterMap (Moment.callOf 7) = [.login 7 ann,
        .sendGlobalMsg rootSender (loginMsg ann), .getUsername 7, .logout 7,
        .sendGlobalMsg rootSender (logoutMsg ann)] ∧
      (hmGet S.threads.data.mailboxes.hm bob).isSome :=
  chatServerThreads_run [.moves (logsIn 7 ann (by decide)), .goes 7 17,
    .moves (logsIn 8 bob (by decide)), .goes 8 3, .moves (finishes 7), .moves (leaves 7), .goes 7 1,
    .goes 8 17, .goes 7 21, .moves (finishes 7), .moves (finishes 8)] _ (by decide +kernel)

/-! ## Runs -/

/-- **The locks are not seen**: in every order of the operations of the workers, the channels get to
where they get to with calls that act at once, by the same calls with the same answers. A channel in
a call waits for its answer, or has it; and when no call is at work, the maps and the mailboxes hold
the room. -/
theorem chatServer_refines (h : (chatServerThreads garbage iterChainInd iter).Reachable S) :
    ∃ s, chatServer.Reachable s ∧
      (∀ id job, S.place id = .here job → s.place id = job ∧
        S.threads.history.filterMap (Moment.callOf id) = (own id s.log).map Prod.fst ∧
        S.threads.history.filterMap (Moment.returnOf id) = (own id s.log).map Prod.snd) ∧
      (∀ id k, S.place id = .waits k →
        (∃ c, JobCalls (s.place id) c k) ∨ ∃ a, s.place id = k a) ∧
      ((∀ id, S.threads.running id = none) → Shows S.threads.data s.object) := by
  obtain ⟨s, hs, hhere, hwaits, hidle⟩ := clients_refine chatClients _ roomData_lawful
    roomBody_follows (room_simulates garbage)
    ⟨newChatroomState_shows iterChainInd iter, Room.ok_empty⟩ h
  exact ⟨s, hs, hhere, hwaits, fun hnone => (hidle hnone).1⟩

theorem chatServer_refines_poll : ∃ s, chatServer.Reachable s ∧
    own 7 s.log = [(.login 7 ann, .status .success),
      (.sendGlobalMsg rootSender (loginMsg ann), .status .success),
      (.poll 7 pollSize, .polled .success (some [⟨true, rootSender, loginMsg ann⟩]))] ∧
    own 8 s.log = [(.poll 8 pollSize, .polled .channelNotRegistered none)] := by
  obtain ⟨S, h, hpolls, hidle, -, hcalls, hreturns, hcalls', hreturns'⟩ := polled_threads
  obtain ⟨s, hs, hhere, -⟩ := chatServer_refines h
  obtain ⟨⟨ep, ret⟩, hpoll, -⟩ := Option.map_eq_some_iff.mp hpolls
  obtain ⟨⟨ep', ret'⟩, hrefused⟩ := Option.isSome_iff_exists.mp hidle
  obtain ⟨-, hown, hown'⟩ := hhere 7 _ (answerAt_eq_some hpoll)
  obtain ⟨-, hown₈, hown₈'⟩ := hhere 8 _ (answerAt_eq_some hrefused)
  exact ⟨s, hs, List.zip_of_prod (hown.symm.trans hcalls) (hown'.symm.trans hreturns),
    List.zip_of_prod (hown₈.symm.trans hcalls') (hown₈'.symm.trans hreturns')⟩

/-! ## Answers -/

/-- **An endpoint does nothing undefined and answers what it should**, whatever the other workers do:
between its calls it does nothing undefined, it makes no more than two more calls, and what it
returns has the type that the RPC server checks, and fits a message. In a call, its next operation
is defined, and some worker can go on. -/
theorem endpoints_answer (h : (chatServerThreads garbage iterChainInd iter).Reachable S) :
    (∀ ep p, S.place id = .here (.serving ep p) →
      p ≠ .fault ∧ p.AtMost 2 ∧ ∀ ret, p = .done ret → EpAnswers ep ret) ∧
      ∀ c p, S.threads.running id = some (c, p) →
        (p ≠ .fault ∧ ∀ o k, p = .perform o k →
          (∃ y, (roomData garbage).soloOp o S.threads.data = some y) ∧
            S.threads.locks.attempt id o ≠ .undefined) ∧
          ∃ u, S.threads.Ready (roomData garbage) u := by
  constructor
  · intro ep p hat
    obtain ⟨s, hs, hhere, -⟩ := server_matches h
    have hjob := (chatServer_reachable hs).2 id
    rw [hhere id _ hat] at hjob
    refine ⟨?_, server_bounded h hat, ?_⟩
    · rintro rfl
      exact hjob
    · rintro ret rfl
      exact hjob.2
  · intro c p hrun
    have hthreads := threads_reachable chatClients (roomData garbage) roomBody h
    exact ⟨threads_defined roomBody_sound newChatroomState_consistent hthreads hrun,
      threads_progress roomBody_sound newChatroomState_consistent hthreads (t := id)
        (by simp [hrun])⟩

theorem endpoints_answer_poll : ∃ (S : ServerThreads) (ep : Endpoint) (ret : EpRet) (u : UInt64),
    ep.ret = some (.array messageType) ∧ S.place 7 = .here (.serving ep (.done ret)) ∧
      EpAnswers ep ret ∧ (S.threads.running 9).isSome ∧ S.threads.Ready (roomData ⟨0, none⟩) u := by
  obtain ⟨S, h, hpolls, -, hrunning, -⟩ := polled_threads
  obtain ⟨⟨ep, ret⟩, hpoll, hep⟩ := Option.map_eq_some_iff.mp hpolls
  obtain ⟨⟨c, p⟩, hrun⟩ := Option.isSome_iff_exists.mp hrunning
  have hat := answerAt_eq_some hpoll
  obtain ⟨-, u, hu⟩ := (endpoints_answer h).2 c p hrun
  exact ⟨S, ep, ret, u, hep, hat, ((endpoints_answer h).1 ep _ hat).2.2 ret rfl, hrunning, hu⟩

/-- **A channel that is gone is forgotten**: when no call is at work, it is not logged in, and every
mailbox belongs to a channel that is not gone. -/
theorem gone_forgotten (h : (chatServerThreads garbage iterChainInd iter).Reachable S)
    (hidle : ∀ id, S.threads.running id = none) :
    (∀ id, S.place id = .here .gone → hmGet S.threads.data.idMap id = none) ∧
      ∀ name mb, hmGet S.threads.data.mailboxes.hm name = some mb →
        ∃ id, hmGet S.threads.data.idMap id = some name ∧ S.place id ≠ .here .gone := by
  obtain ⟨s, hs, hhere, hshows⟩ := server_matches h
  have hshows := hshows hidle
  obtain ⟨hinv, hjobs⟩ := chatServer_reachable hs
  have hgone : ∀ id, S.place id = .here .gone → hmGet S.threads.data.idMap id = none := by
    intro id hat
    have hjob := hjobs id
    rw [hhere id _ hat] at hjob
    rw [hshows.user id]
    exact hjob.2
  refine ⟨hgone, fun name mb hget => ?_⟩
  obtain ⟨id, hid⟩ := (hinv.ok.box name).mp (hshows.bound hget)
  refine ⟨id, (hshows.user id).trans hid, fun hat => ?_⟩
  have hnone := hgone id hat
  rw [hshows.user id, hid] at hnone
  cases hnone

theorem gone_forgotten_gone : ∃ S : ServerThreads, S.place 7 = .here .gone ∧
    RoomCall.login 7 ann ∈ S.threads.history.filterMap (Moment.callOf 7) ∧
      hmGet S.threads.data.idMap 7 = none ∧
      ∃ id, hmGet S.threads.data.idMap id = some bob ∧ S.place id ≠ .here .gone := by
  obtain ⟨S, h, hgone, honly, hidle₇, hidle₈, hcalls, hbob⟩ := gone_threads
  have hthreads := threads_reachable chatClients (roomData ⟨0, none⟩) roomBody h
  -- Only channels that called could be at work.
  have hidle : ∀ id, S.threads.running id = none := by
    intro id
    by_contra hne
    obtain ⟨m, hm, hmid⟩ := Threads.called_of_running hthreads hne
    have hid := of_decide_eq_true (List.all_eq_true.mp honly m hm)
    rw [hmid] at hid
    rcases hid with rfl | rfl
    · exact hne hidle₇
    · exact hne hidle₈
  have hat := goneAt_eq_true hgone
  obtain ⟨hforgotten, hlive⟩ := gone_forgotten h hidle
  obtain ⟨mb, hmb⟩ := Option.isSome_iff_exists.mp hbob
  exact ⟨S, hat, hcalls ▸ List.mem_cons_self, hforgotten 7 hat, hlive bob mb hmb⟩

end Threads

end Chlibs.Chat
