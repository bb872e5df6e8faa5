import Chlibs.Chat.Requests
import Chlibs.Chat.Sessions

/-!
# Users

The clients of the chatroom together with the server, over whole runs.

* `Works` — what a program of a client needs of its requests, and what it makes of the answers.
* `UserOk` — the books of a client: what was typed was taken, and sent; what was pushed came from
  the server, and is shown.
* `chatUsers_local` — **each client keeps its books, whatever the others do.**
-/

namespace Chlibs.Chat

open Infra Serial Util Rpc

/-- The calls of one channel, with their answers. -/
abbrev OwnCalls := List (RoomCall × RoomAnswer)

/-! ## Calls -/

/-- The message that a call sends. -/
def sentBy : RoomCall × RoomAnswer → List ChatroomMessage
  | (.sendGlobalMsgFromId _ msg, _) => [⟨true, literal "", msg⟩]
  | (.sendPrivateMsgFromId receiver _ msg, _) => [⟨false, receiver, msg⟩]
  | _ => []

/-- What the client is to show after a call. -/
def noticesOf : RoomCall × RoomAnswer → List ChatroomMessage
  | (.sendGlobalMsgFromId _ _, .status st) | (.sendPrivateMsgFromId _ _ _, .status st) =>
    if st = .success then [] else [⟨false, errorSender, chatroomStatusAsLiteral st⟩]
  | (.poll _ _, .polled .success (some msgs)) => msgs
  | _ => []

/-- A client logs in under its name. No message of its own is refused, unless nobody has the name
of the receiver. -/
def Proper (username : CString) : RoomCall × RoomAnswer → Prop
  | (.login _ name, _) => name = username
  | (.sendGlobalMsgFromId _ _, .status st) => st = .success
  | (.sendPrivateMsgFromId _ _ _, .status st) => st = .success ∨ st = .unknownReceiver
  | _ => True

/-- A call for the channel itself. -/
def BySelf (id : UInt64) : RoomCall → Prop
  | .login id' _ => id' = id
  | .logout id' => id' = id
  | .getUsername id' => id' = id
  | .sendGlobalMsgFromId id' _ => id' = id
  | .sendGlobalMsg sender _ => sender = rootSender
  | .sendPrivateMsgFromId _ id' _ => id' = id
  | .sendPrivateMsg _ _ _ => False
  | .poll id' _ => id' = id

/-- A call with which a channel is left. -/
def Leaves : RoomCall → Prop
  | .logout _ => True
  | .getUsername _ => True
  | .sendGlobalMsg _ _ => True
  | _ => False

section Calls

variable {β : Type} {id : UInt64}

theorem callStatus_only {P : RoomCall → Prop} {c : RoomCall} {f : ChatroomStatus → EpProg β}
    (hc : P c) (hf : ∀ st, (f st).Only P) : (callStatus c >>= f).Only P := by
  unfold callStatus
  rw [Prog.call_bind]
  refine ⟨hc, fun ans => ?_⟩
  cases ans with
  | status st => exact hf st
  | _ => exact trivial

theorem endpoint_bySelf {ep : Endpoint} {func : UInt64 → List ChrpcValue → EpProg EpRet}
    (hep : (ep, func) ∈ chatEndpoints) (id : UInt64) (args : List ChrpcValue) :
    (func id args).Only (BySelf id) := by
  simp only [chatEndpoints, List.mem_cons, Prod.mk.injEq, List.not_mem_nil, or_false] at hep
  rcases hep with ⟨-, rfl⟩ | ⟨-, rfl⟩ | ⟨-, rfl⟩ | ⟨-, rfl⟩
  · unfold chatroomLoginEp
    split
    · exact trivial
    · refine callStatus_only ?_ fun st => ?_
      · exact rfl
      · cases st with
        | success => exact callStatus_only (by exact rfl) fun _ => trivial
        | _ => exact trivial
  · unfold chatroomSendGlobalMsgEp
    split
    · exact trivial
    · exact callStatus_only (by exact rfl) fun _ => trivial
  · unfold chatroomSendPrivateMsgEp
    split
    · exact callStatus_only (by exact rfl) fun _ => trivial
    · exact trivial
  · unfold chatroomPollEp
    rw [Prog.call_bind]
    refine ⟨rfl, fun ans => ?_⟩
    cases ans with
    | polled st msgs =>
      cases st with
      | success =>
        cases msgs with
        | none => exact trivial
        | some msgs =>
          simp only [pollValue_eq]
          exact trivial
      | _ => exact trivial
    | _ => exact trivial

theorem chatroomOnDisconnect_only {P : RoomCall → Prop} (hname : P (.getUsername id))
    (hlogout : P (.logout id)) (hsend : ∀ msg, P (.sendGlobalMsg rootSender msg)) :
    (chatroomOnDisconnect id).Only P := by
  unfold chatroomOnDisconnect
  rw [Prog.call_bind]
  refine ⟨hname, fun ans => ?_⟩
  cases ans with
  | username username =>
    refine callStatus_only hlogout fun st => ?_
    cases username with
    | none => exact trivial
    | some username =>
      by_cases hst : st = .success
      · simp only [if_pos hst]
        exact callStatus_only (hsend _) fun _ => trivial
      · simp only [if_neg hst]
        exact trivial
  | _ => exact trivial

end Calls

/-! ## Outlines -/

section Outlines

variable {β : Type} {id : UInt64} {v : Seen} {username : CString}

theorem Outline.and {Q Q' : Seen → β → Prop} : ∀ {p : EpProg β} {v : Seen}, Outline id Q p v →
    Outline id Q' p v → Outline id (fun v r => Q v r ∧ Q' v r) p v
  | .done _, _, h, h' => ⟨h, h'⟩
  | .fault, _, h, _ => h
  | .perform _ _, _, h, h' => fun room log hinv hseen =>
    ⟨(h room log hinv hseen).1, (h room log hinv hseen).2.and (h' room log hinv hseen).2⟩

theorem Outline.mono {Q Q' : Seen → β → Prop} (hQ : ∀ v r, Q v r → Q' v r) :
    ∀ {p : EpProg β} {v : Seen}, Outline id Q p v → Outline id Q' p v
  | .done _, _, h => hQ _ _ h
  | .fault, _, h => h
  | .perform _ _, _, h => fun room log hinv hseen =>
    ⟨(h room log hinv hseen).1, (h room log hinv hseen).2.mono hQ⟩

/-- Left alone, a program comes to its end. -/
theorem Outline.ends {Q : Seen → β → Prop} : ∀ {p : EpProg β} {room : Room} {log : ChatLog},
    ChatInv room log → Outline id Q p (seen id room log) →
      ∃ v' r, Q v' r ∧ (seen id room log).2 <+: v'.2
  | .done r, _, _, _, h => ⟨_, r, h, List.prefix_rfl⟩
  | .fault, _, _, _, h => h.elim
  | .perform c _, room, log, hinv, h => by
    obtain ⟨hallowed, hrest⟩ := h room log hinv rfl
    obtain ⟨v', r, hQ, hlog⟩ := hrest.ends (hinv.step hallowed)
    rw [seen_snoc c _ rfl] at hlog
    exact ⟨v', r, hQ, (List.prefix_append _ _).trans hlog⟩

theorem argStr_strs (strs : List CString) (i : Nat) :
    argStr (strs.map newChrpcStrValue) i = strs[i]? := by
  unfold argStr
  rw [List.map_map, List.getElem?_map]
  cases strs[i]? with
  | none => rfl
  | some s =>
    simp only [Option.map_some, Function.comp_apply, newChrpcStrValue]
    rw [if_pos s.terminatedOnce.mem]
    exact congrArg some (CString.ext (cString_block s))

/-- Somebody who is logged in speaks to all. -/
theorem sendGlobalMsgEp_speaks {msg : CString} (huser : v.1 = some username)
    (hmsg : badMessageLen msg = false) :
    Outline id (fun v' ret => v' = (v.1, v.2 ++ [(.sendGlobalMsgFromId id msg, .status .success)]) ∧
      ret = returnStatus .success)
      (chatroomSendGlobalMsgEp id ([msg].map newChrpcStrValue)) v := by
  unfold chatroomSendGlobalMsgEp
  rw [argStr_strs]
  refine outline_status fun room log hinv hseen => ⟨trivial, ?_⟩
  have hid : room.user id = v.1 := congrArg Prod.fst hseen
  have hstep : roomStep room (.sendGlobalMsgFromId id msg)
      = (.status .success, room.broadcast ⟨true, username, msg⟩) := by
    simp [roomStep, hmsg, hid, huser]
  rw [hstep]
  exact ⟨.success, rfl, by rw [← hid]; rfl, rfl⟩

/-- Somebody who is logged in speaks to one, if there is one of that name. -/
theorem sendPrivateMsgEp_speaks {receiver msg : CString} (huser : v.1 = some username)
    (hmsg : badMessageLen msg = false) :
    Outline id (fun v' ret => ∃ st, (st = .success ∨ st = .unknownReceiver) ∧
      v' = (v.1, v.2 ++ [(.sendPrivateMsgFromId receiver id msg, .status st)]) ∧
      ret = returnStatus st)
      (chatroomSendPrivateMsgEp id ([receiver, msg].map newChrpcStrValue)) v := by
  unfold chatroomSendPrivateMsgEp
  rw [argStr_strs, argStr_strs]
  refine outline_status fun room log hinv hseen => ⟨trivial, ?_⟩
  have hid : room.user id = v.1 := congrArg Prod.fst hseen
  have hstep : roomStep room (.sendPrivateMsgFromId receiver id msg)
      = room.deliver receiver ⟨false, username, msg⟩ := by
    simp [roomStep, hmsg, hid, huser]
  rw [hstep, deliver_user, hid]
  unfold Room.deliver
  split
  · exact ⟨_, rfl, _, .inr rfl, rfl, rfl⟩
  · exact ⟨_, rfl, _, .inl rfl, rfl, rfl⟩

/-- Somebody who is logged in polls what waits. -/
theorem pollEp_polls (huser : v.1 = some username) :
    Outline id (fun v' ret => ∃ msgs,
      v' = (v.1, v.2 ++ [(.poll id pollSize, .polled .success (some msgs))]) ∧
      ret = (.keepAlive, some (msgsValue msgs))) (chatroomPollEp id []) v := by
  intro room log hinv hseen
  refine ⟨trivial, ?_⟩
  have hid : room.user id = v.1 := congrArg Prod.fst hseen
  obtain ⟨hsame, ⟨msgs, hans, -⟩ | hans⟩ := roomStep_poll room id (n := pollSize) (by decide)
  · rw [seen_snoc _ _ hseen, hsame, hid, hans]
    simp only [pollValue_eq]
    exact ⟨msgs, rfl, rfl⟩
  · simp [roomStep, pollSize, hid, huser] at hans

/-- A login succeeds, or does nothing. -/
theorem loginEp_logsIn (huser : v = (none, [])) :
    Outline id (fun v' ret => (v'.1 = some username ∧ (∀ e ∈ v'.2, Proper username e) ∧
        v'.2.flatMap sentBy = [] ∧ v'.2.flatMap noticesOf = [] ∧ ret = returnStatus .success) ∨
      ∃ st, st ≠ .success ∧ v' = (none, [(.login id username, .status st)]) ∧
        ret = returnStatus st)
      (chatroomLoginEp id ([username].map newChrpcStrValue)) v := by
  unfold chatroomLoginEp
  rw [argStr_strs]
  refine outline_status fun room log hinv hseen => ⟨rfl, ?_⟩
  subst huser
  have huser : room.user id = none := congrArg Prod.fst hseen
  rcases roomStep_login room id username with ⟨hans, hvalid, -, hnew⟩ | ⟨st, hst, hans⟩
  · refine ⟨.success, hans, ?_⟩
    rw [hnew, Function.update_self]
    refine outline_announce (announcement_length hvalid).1 (fun log' hlog' => ?_) ?_
    · have hmem : (RoomCall.login id username, RoomAnswer.status .success) ∈ own id log' := by
        rw [hlog']
        exact List.mem_append_right _ List.mem_cons_self
      exact .login (mem_own.mp hmem) hvalid
    · refine .inl ⟨rfl, ?_, rfl, rfl, rfl⟩
      simp [Proper]
  · rw [hans, huser]
    refine ⟨st, rfl, ?_⟩
    cases st with
    | success => exact absurd rfl hst
    | _ => exact .inr ⟨_, hst, rfl, rfl⟩

end Outlines

/-! ## Programs -/

/-- What a client has taken from `send_q` and pushed to `recv_q`, beside its calls. -/
structure Booked (username : CString) (calls : OwnCalls) (taken pushed : List ChatroomMessage) :
    Prop where
  proper : ∀ e ∈ calls, Proper username e
  taken : calls.flatMap sentBy <+: taken
  pushed : pushed <+: calls.flatMap noticesOf

/-- Nothing is under way. -/
structure Balanced (username : CString) (calls : OwnCalls) (taken pushed : List ChatroomMessage) :
    Prop where
  proper : ∀ e ∈ calls, Proper username e
  taken : calls.flatMap sentBy = taken
  pushed : calls.flatMap noticesOf = pushed

/-- Whether the server knows the client by its name. -/
def Knows (username : CString) : Bool → Seen → Prop
  | true, v => v.1 = some username
  | false, v => v.1 = none

/-- The program of a client goes well, however its requests are answered. `on` is whether it is
logged in. -/
def Works (id : UInt64) (username : CString) :
    ClientProg Turn → Bool → OwnCalls → List ChatroomMessage → List ChatroomMessage → Prop
  | .done turn, on, calls, taken, pushed => Booked username calls taken pushed ∧
    (turn ≠ .fatal → on = true ∧ Balanced username calls taken pushed)
  | .fault, _, _, _, _ => False
  | .perform .shouldExit k, on, calls, taken, pushed => Booked username calls taken pushed ∧
    ∀ b, Works id username (k b) on calls taken pushed
  | .perform .pollSendQ k, on, calls, taken, pushed => Booked username calls taken pushed ∧
    Works id username (k none) on calls taken pushed ∧
    ∀ m, Sendable m → Works id username (k (some m)) on calls (taken ++ [m]) pushed
  | .perform (.pushRecvQ m) k, on, calls, taken, pushed => Booked username calls taken pushed ∧
    Works id username (k ()) on calls taken (pushed ++ [m])
  | .perform (.request name args) k, on, calls, taken, pushed =>
    Booked username calls taken pushed ∧ (∀ st, k (.error st) = .done .fatal) ∧
    ∃ (strs : List CString) (ep : Endpoint) (func : UInt64 → List ChrpcValue → EpProg EpRet),
      args = strs.map newChrpcStrValue ∧ (ep, func) ∈ chatEndpoints ∧ ep.name = name ∧
      List.replicate strs.length (.prim .string) = ep.args ∧
      (on = true → (requestMsg name args).length ≤ chatMaxMsgSize) ∧
      ∀ v, v.2 = calls → Knows username on v → Outline id (fun v' ret => ∃ on',
        Knows username on' v' ∧ Works id username (k (.ok ret.2)) on' v'.2 taken pushed)
        (func id args) v

section Programs

variable {id : UInt64} {username : CString} {calls : OwnCalls}
  {taken pushed : List ChatroomMessage} {on : Bool} {p : ClientProg Turn}

theorem Balanced.booked (h : Balanced username calls taken pushed) :
    Booked username calls taken pushed where
  proper := h.proper
  taken := h.taken ▸ List.prefix_rfl
  pushed := h.pushed ▸ List.prefix_rfl

theorem Works.booked (h : Works id username p on calls taken pushed) :
    Booked username calls taken pushed := by
  cases p with
  | done turn => exact h.1
  | fault => exact h.elim
  | perform o k => cases o <;> exact h.1

theorem works_goesOn (h : Balanced username calls taken pushed) :
    Works id username (.done .goesOn) true calls taken pushed :=
  ⟨h.booked, fun _ => ⟨rfl, h⟩⟩

/-- Pushing what is left of what was polled. -/
theorem clientPushAll_works (hproper : ∀ e ∈ calls, Proper username e)
    (htaken : calls.flatMap sentBy = taken) : ∀ {msgs pushed : List ChatroomMessage},
    calls.flatMap noticesOf = pushed ++ msgs →
      Works id username (clientPushAll (msgs.map fun m => (msgValue m).value) >>= fun _ =>
        pure .goesOn) true calls taken pushed
  | [], pushed, hpushed => works_goesOn ⟨hproper, htaken, by simpa using hpushed⟩
  | m :: msgs, pushed, hpushed => by
    rw [List.map_cons, clientPushAll, readMessage_msgValue]
    refine ⟨⟨hproper, htaken ▸ List.prefix_rfl, hpushed ▸ List.prefix_append _ _⟩, ?_⟩
    exact clientPushAll_works hproper htaken (by simpa using hpushed)

theorem clientPoll_works (h : Balanced username calls taken pushed) :
    Works id username clientPoll true calls taken pushed := by
  unfold clientPoll
  rw [Prog.call_bind]
  refine ⟨h.booked, fun _ => rfl, [], _, _, rfl, pollEp_mem, rfl, rfl, fun _ => ?_,
    fun v hcalls huser => (pollEp_polls huser).mono ?_⟩
  · rw [show (List.nil : List ChrpcValue) = List.map newChrpcStrValue [] from rfl,
      requestMsg_length]
    decide
  · rintro v' ret ⟨msgs, rfl, rfl⟩
    refine ⟨true, huser, clientPushAll_works ?_ ?_ ?_⟩
    · intro e he
      rcases List.mem_append.mp he with he | he
      · exact h.proper e (hcalls ▸ he)
      · rw [List.mem_singleton.mp he]
        trivial
    · rw [hcalls, List.flatMap_append, h.taken]
      exact List.append_nil _
    · rw [hcalls, List.flatMap_append, h.pushed]
      simp [noticesOf]

/-- A message that was taken from `send_q` is sent. -/
theorem Balanced.sends (h : Balanced username calls taken pushed) {c : RoomCall}
    {st : ChatroomStatus} {m : ChatroomMessage} (hsent : sentBy (c, .status st) = [m])
    (hproper : Proper username (c, .status st))
    (hnotices : noticesOf (c, .status st) =
      if st = .success then [] else [⟨false, errorSender, chatroomStatusAsLiteral st⟩]) :
    Balanced username (calls ++ [(c, .status st)]) (taken ++ [m])
      (pushed ++ if st = .success then [] else
        [⟨false, errorSender, chatroomStatusAsLiteral st⟩]) where
  proper e he := by
    rcases List.mem_append.mp he with he | he
    · exact h.proper e he
    · rwa [List.mem_singleton.mp he]
  taken := by simp [h.taken, hsent]
  pushed := by simp [h.pushed, hnotices]

theorem clientReplied_works {st : ChatroomStatus}
    (h : Balanced username calls taken (pushed ++ if st = .success then [] else
      [⟨false, errorSender, chatroomStatusAsLiteral st⟩]))
    (hbooked : Booked username calls taken pushed) :
    Works id username (clientReplied (returnStatus st).2) true calls taken pushed := by
  rw [clientReplied, readStatus_returnStatus]
  by_cases hst : st = .success
  · rw [if_pos hst, List.append_nil] at h
    rw [if_pos hst]
    exact clientPoll_works h
  · rw [if_neg hst] at h
    rw [if_neg hst]
    exact ⟨hbooked, clientPoll_works h⟩

theorem sendable_length {m : ChatroomMessage} (h : Sendable m) : badMessageLen m.msg = false := by
  obtain ⟨hpos, hlt⟩ := h.text
  rw [badMessageLen_eq_false, chatroomMaxMessageLen]
  rw [cmdBufLen] at hlt
  omega

/-- Sending a message that was taken. -/
theorem clientSendMsg_works (h : Balanced username calls taken pushed) {m : ChatroomMessage}
    (hm : Sendable m) {f : Except ChrpcStatus (Option ChrpcValue) → ClientProg Turn}
    (hfatal : ∀ st, f (.error st) = .done .fatal)
    (hreplied : ∀ ret, f (.ok ret) = clientReplied ret) :
    Works id username (clientSendMsg m >>= f) true calls (taken ++ [m]) pushed := by
  have hlen := sendable_length hm
  have hbooked : Booked username calls (taken ++ [m]) pushed :=
    ⟨h.proper, h.taken ▸ List.prefix_append _ _, h.booked.pushed⟩
  obtain ⟨generalMsg, receiver, msg⟩ := m
  have hfits : msg.chars.length < 256 := hm.text.2
  cases generalMsg with
  | true =>
    obtain ⟨rfl, -⟩ := hm.general rfl
    refine ⟨hbooked, hfatal, [msg], _, _, rfl, .tail _ (.head _), rfl, rfl, fun _ => ?_,
      fun v hcalls huser => (sendGlobalMsgEp_speaks huser hlen).mono ?_⟩
    · have hname : (literal "send_global_message").chars.length = 19 := by decide
      rw [← List.map_singleton, requestMsg_length, hname, chatMaxMsgSize]
      simp only [List.map_singleton, List.sum_singleton]
      omega
    · rintro v' ret ⟨rfl, rfl⟩
      have hsends : Balanced username
          (calls ++ [(.sendGlobalMsgFromId id msg, .status .success)])
          (taken ++ [⟨true, literal "", msg⟩]) (pushed ++ _) := h.sends rfl rfl rfl
      rw [← hcalls] at hsends
      refine ⟨true, huser, ?_⟩
      show Works id username (f (.ok (returnStatus .success).2)) true _ _ pushed
      rw [hreplied]
      exact clientReplied_works hsends
        ⟨hsends.proper, hsends.booked.taken, (List.prefix_append _ _).trans hsends.booked.pushed⟩
  | false =>
    obtain ⟨-, hreceiver, -⟩ := hm.direct rfl
    have hreceiver : receiver.chars.length < 256 := hreceiver
    refine ⟨hbooked, hfatal, [receiver, msg], _, _, rfl, .tail _ (.tail _ (.head _)), rfl, rfl,
      fun _ => ?_, fun v hcalls huser => (sendPrivateMsgEp_speaks huser hlen).mono ?_⟩
    · have hname : (literal "send_private_message").chars.length = 20 := by decide
      rw [show [newChrpcStrValue receiver, newChrpcStrValue msg]
        = [receiver, msg].map newChrpcStrValue from rfl, requestMsg_length, hname, chatMaxMsgSize]
      simp only [List.map_cons, List.map_nil, List.sum_cons, List.sum_nil]
      omega
    · rintro v' ret ⟨st, hst, rfl, rfl⟩
      have hsends : Balanced username
          (calls ++ [(.sendPrivateMsgFromId receiver id msg, .status st)])
          (taken ++ [⟨false, receiver, msg⟩]) (pushed ++ _) := h.sends rfl hst rfl
      rw [← hcalls] at hsends
      refine ⟨true, huser, ?_⟩
      show Works id username (f (.ok (returnStatus st).2)) true _ _ pushed
      rw [hreplied]
      exact clientReplied_works hsends
        ⟨hsends.proper, hsends.booked.taken, (List.prefix_append _ _).trans hsends.booked.pushed⟩

theorem clientWorkerTurn_works (h : Balanced username calls taken pushed) :
    Works id username clientWorkerTurn true calls taken pushed := by
  unfold clientWorkerTurn
  rw [Prog.call_bind]
  refine ⟨h.booked, fun b => ?_⟩
  cases b with
  | true => exact ⟨h.booked, fun _ => ⟨rfl, h⟩⟩
  | false =>
    exact ⟨h.booked, clientPoll_works h, fun m hm =>
      clientSendMsg_works h hm (fun _ => rfl) fun _ => rfl⟩

/-- **A client works**, from the beginning. -/
theorem clientLogin_works : Works id username (clientLogin username) false [] [] [] := by
  unfold clientLogin
  rw [Prog.call_bind]
  refine ⟨⟨nofun, List.prefix_rfl, List.prefix_rfl⟩, fun _ => rfl, [username], _, _, rfl,
    loginEp_mem, rfl, rfl, nofun,
    fun v hcalls huser => (loginEp_logsIn (Prod.ext huser hcalls)).mono ?_⟩
  rintro v' ret (⟨huser', hproper, hsent, hnotices, rfl⟩ | ⟨st, hst, rfl, rfl⟩)
  · simp only [readStatus_returnStatus]
    exact ⟨true, huser', works_goesOn ⟨hproper, hsent, hnotices⟩⟩
  · simp only [readStatus_returnStatus, if_neg hst]
    refine ⟨false, rfl, ⟨?_, List.prefix_rfl, List.prefix_rfl⟩, fun hfatal => absurd rfl hfatal⟩
    intro e he
    rw [List.mem_singleton.mp he]
    exact rfl

end Programs

/-! ## Clients -/

/-- What was typed was taken from `send_q` or waits there. What was pushed to `recv_q` is shown or
waits there. -/
structure Client.Accounts (c : Client) (taken pushed : List ChatroomMessage) : Prop where
  typed : c.typed.Perm (taken ++ c.sendQ)
  pushed : pushed.Perm (c.shown ++ c.recvQ)
  sendable : ∀ m ∈ c.typed, Sendable m
  prompt : ∀ line, c.prompt = .reads line → ∃ t, line.Stands t

/-- The worker waits for an answer, or is dead. -/
def Still (p : ClientProg Turn) : Prop :=
  p = .done .fatal ∨ ∃ name args k, p = .perform (.request name args) k

section Clients

variable {id : UInt64} {username : CString} {calls : OwnCalls} {on : Bool}
  {taken pushed : List ChatroomMessage} {c c' : Client}

theorem Client.Accounts.reads (h : c.Accounts taken pushed) {line line' : CmdLine} {key : UInt8}
    {msg : Option ChatroomMessage} (hprompt : c.prompt = .reads line)
    (hkey : cmdKey line key = some (msg, line')) :
    Client.Accounts { c with
      prompt := .reads line'
      sendQ := c.sendQ ++ msg.toList
      typed := c.typed ++ msg.toList } taken pushed := by
  obtain ⟨t, hstands⟩ := h.prompt line hprompt
  obtain ⟨line₁, hkey', hstands'⟩ := cmdKey_spec hstands key
  rw [hkey, Option.some.injEq, Prod.mk.injEq] at hkey'
  obtain ⟨rfl, rfl⟩ := hkey'
  refine ⟨?_, h.pushed, fun m hm => ?_, ?_⟩
  · rw [← List.append_assoc]
    exact h.typed.append_right _
  · rcases List.mem_append.mp hm with hm | hm
    · exact h.sendable m hm
    · exact Typed.key_sendable hstands (Option.mem_toList.mp hm)
  · rintro line₁ hline
    cases hline
    exact ⟨_, hstands'⟩

theorem Client.Accounts.shows (h : c.Accounts taken pushed) {msgs : List ChatroomMessage}
    {msg : ChatroomMessage} (hrecv : c.recvQ = msgs ++ [msg]) :
    Client.Accounts { c with recvQ := msgs, shown := c.shown ++ [msg] } taken pushed where
  typed := h.typed
  pushed := by
    have hpushed := h.pushed
    rw [hrecv] at hpushed
    rw [List.append_assoc]
    exact hpushed.trans (List.perm_append_comm.append_left _)
  sendable := h.sendable
  prompt := h.prompt

/-- The worker takes the last message, if there is one. -/
theorem Client.Accounts.takes (h : c.Accounts taken pushed) (p : ClientProg Turn) :
    Client.Accounts { c with worker := p, sendQ := c.sendQ.dropLast }
      (taken ++ c.sendQ.getLast?.toList) pushed where
  typed := by
    refine h.typed.trans ?_
    rw [List.append_assoc]
    refine List.Perm.append_left _ ?_
    cases hlast : c.sendQ.getLast? with
    | none => simp [List.getLast?_eq_none_iff.mp hlast]
    | some m =>
      have hsplit := List.dropLast_append_getLast? m hlast
      conv_lhs => rw [← hsplit]
      exact List.perm_append_comm
  pushed := h.pushed
  sendable := h.sendable
  prompt := h.prompt

/-- **A client moves on**: its books stay in order, and its program goes well. -/
theorem ClientMoves.works (h : ClientMoves c c') (hc : c.Accounts taken pushed)
    (hworks : Works id username c.worker on calls taken pushed) :
    c'.asked = c.asked ∧ ∃ taken' pushed', c'.Accounts taken' pushed' ∧
      Works id username c'.worker on calls taken' pushed' := by
  have hturn : ∀ {prompt : Prompt}, c.worker = .done .goesOn →
      (∀ line, prompt = .reads line → ∃ t, line.Stands t) → ∃ taken' pushed',
        Client.Accounts { c with worker := clientWorkerTurn, prompt := prompt } taken' pushed' ∧
          Works id username clientWorkerTurn on calls taken' pushed' := by
    intro prompt hat hprompt
    rw [hat] at hworks
    obtain ⟨rfl, hbalanced⟩ := hworks.2 (by intro hfatal; cases hfatal)
    exact ⟨taken, pushed, ⟨hc.typed, hc.pushed, hc.sendable, hprompt⟩,
      clientWorkerTurn_works hbalanced⟩
  cases h with
  | reads hprompt hlives hkey => exact ⟨rfl, taken, pushed, hc.reads hprompt hkey, hworks⟩
  | shows hprompt hlives hrecv => exact ⟨rfl, taken, pushed, hc.shows hrecv, hworks⟩
  | signalled hprompt =>
    exact ⟨rfl, taken, pushed, ⟨hc.typed, hc.pushed, hc.sendable, fun line hline => by cases hline⟩,
      hworks⟩
  | tells hprompt =>
    exact ⟨rfl, taken, pushed, ⟨hc.typed, hc.pushed, hc.sendable, hc.prompt⟩, hworks⟩
  | flag hat =>
    rw [hat] at hworks
    exact ⟨rfl, taken, pushed, ⟨hc.typed, hc.pushed, hc.sendable, hc.prompt⟩, hworks.2 _⟩
  | takes hat =>
    rw [hat] at hworks
    obtain ⟨-, hnone, hsome⟩ := hworks
    refine ⟨rfl, _, pushed, hc.takes _, ?_⟩
    cases hlast : c.sendQ.getLast? with
    | none => simpa using hnone
    | some m =>
      refine hsome m (hc.sendable m (hc.typed.mem_iff.mpr ?_))
      exact List.mem_append_right _ (List.mem_of_getLast? hlast)
  | pushes hat =>
    rw [hat] at hworks
    refine ⟨rfl, taken, _, ⟨hc.typed, ?_, hc.sendable, hc.prompt⟩, hworks.2⟩
    rw [← List.append_assoc]
    exact hc.pushed.append_right _
  | starts hat hprompt =>
    refine ⟨rfl, hturn hat fun line hline => ?_⟩
    cases hline
    exact ⟨_, start_stands⟩
  | turns hat hprompt => exact ⟨rfl, hturn hat hc.prompt⟩

/-- While the worker waits, only the other thread moves on. -/
theorem ClientMoves.still (h : ClientMoves c c') (hc : c.Accounts taken pushed)
    (hstill : Still c.worker) :
    c'.worker = c.worker ∧ c'.asked = c.asked ∧ c'.Accounts taken pushed := by
  have hne : ∀ {p : ClientProg Turn}, c.worker = p → ¬Still p → False := fun hat hmoves =>
    hmoves (hat ▸ hstill)
  cases h with
  | reads hprompt hlives hkey => exact ⟨rfl, rfl, hc.reads hprompt hkey⟩
  | shows hprompt hlives hrecv => exact ⟨rfl, rfl, hc.shows hrecv⟩
  | signalled hprompt =>
    exact ⟨rfl, rfl, hc.typed, hc.pushed, hc.sendable, fun line hline => by cases hline⟩
  | tells hprompt => exact ⟨rfl, rfl, hc.typed, hc.pushed, hc.sendable, hc.prompt⟩
  | flag hat => exact (hne hat (by simp [Still])).elim
  | takes hat => exact (hne hat (by simp [Still])).elim
  | pushes hat => exact (hne hat (by simp [Still])).elim
  | starts hat hprompt => exact (hne hat (by simp [Still])).elim
  | turns hat hprompt => exact (hne hat (by simp [Still])).elim

end Clients

/-! ## Clients and their workers -/

/-- The channel was left: what has been called since then is nothing to the client. -/
def Parted (id : UInt64) (username : CString) (p : ClientProg Turn)
    (taken pushed : List ChatroomMessage) (v : Seen) : Prop :=
  ∃ on calls gone, v.2 = calls ++ gone ∧ (∀ e ∈ gone, Leaves e.1) ∧
    Works id username p on calls taken pushed

/-- Where the worker of a client is, whether it has asked for something, and what the server does
for it. -/
inductive WorkOk (id : UInt64) (username : CString) (taken pushed : List ChatroomMessage)
    (v : Seen) : ClientProg Turn → Bool → Job → Prop
  | alone {p : ClientProg Turn} {on : Bool} (hworks : Works id username p on v.2 taken pushed)
      (hknows : Knows username on v) (hv : Settled v) :
      WorkOk id username taken pushed v p false .idle
  | served {name : CString} {args : List ChrpcValue}
      {k : Except ChrpcStatus (Option ChrpcValue) → ClientProg Turn} {ep : Endpoint}
      {q : EpProg EpRet} (herror : ∀ st, k (.error st) = .done .fatal)
      (hpushed : pushed <+: v.2.flatMap noticesOf)
      (hserves : Outline id (fun v' ret => Served ep v' ret ∧ ∃ on, Knows username on v' ∧
        Works id username (k (.ok ret.2)) on v'.2 taken pushed) q v) :
      WorkOk id username taken pushed v (.perform (.request name args) k) true (.serving ep q)
  -- The client does not wait for the answer.
  | deaf {ep : Endpoint} {q : EpProg EpRet} (hpushed : pushed <+: v.2.flatMap noticesOf)
      (hserves : Outline id (fun v' ret => Served ep v' ret ∧ ∃ on, Knows username on v' ∧
        Booked username v'.2 taken pushed) q v) :
      WorkOk id username taken pushed v (.done .fatal) false (.serving ep q)
  | leaving {p : ClientProg Turn} {q : EpProg Unit} (hparted : Parted id username p taken pushed v)
      (hleaves : q.Only Leaves) (hserves : Outline id Left q v) :
      WorkOk id username taken pushed v p false (.leaving q)
  | gone {p : ClientProg Turn} (hparted : Parted id username p taken pushed v) (hv : Left v ()) :
      WorkOk id username taken pushed v p false .gone

section Work

variable {id : UInt64} {username : CString} {calls calls' : OwnCalls} {v : Seen}
  {taken pushed : List ChatroomMessage} {c c' : Client} {job : Job} {p : ClientProg Turn}
  {on asked : Bool}

/-- With what was called before. -/
theorem Booked.of_prefix (h : Booked username calls' taken pushed) (hcalls : calls <+: calls')
    (hpushed : pushed <+: calls.flatMap noticesOf) : Booked username calls taken pushed where
  proper e he := h.proper e (hcalls.subset he)
  taken := by
    obtain ⟨rest, rfl⟩ := hcalls
    have htaken := h.taken
    rw [List.flatMap_append] at htaken
    exact (List.prefix_append _ _).trans htaken
  pushed := hpushed

theorem leaves_proper {e : RoomCall × RoomAnswer} (h : Leaves e.1) : Proper username e := by
  obtain ⟨c, a⟩ := e
  cases c with
  | logout id => exact trivial
  | getUsername id => exact trivial
  | sendGlobalMsg sender msg => exact trivial
  | _ => exact h.elim

/-- Leaving sends nothing, and shows nothing. -/
theorem leaves_quiet {e : RoomCall × RoomAnswer} (h : Leaves e.1) :
    sentBy e = [] ∧ noticesOf e = [] := by
  obtain ⟨c, a⟩ := e
  cases c with
  | logout id => exact ⟨rfl, rfl⟩
  | getUsername id => exact ⟨rfl, rfl⟩
  | sendGlobalMsg sender msg => exact ⟨rfl, rfl⟩
  | _ => exact h.elim

theorem flatMap_of_leaves (calls : OwnCalls) {gone : OwnCalls} (h : ∀ e ∈ gone, Leaves e.1) :
    (calls ++ gone).flatMap sentBy = calls.flatMap sentBy ∧
      (calls ++ gone).flatMap noticesOf = calls.flatMap noticesOf := by
  have hsent : gone.flatMap sentBy = [] :=
    List.flatMap_eq_nil_iff.mpr fun e he => (leaves_quiet (h e he)).1
  have hnotices : gone.flatMap noticesOf = [] :=
    List.flatMap_eq_nil_iff.mpr fun e he => (leaves_quiet (h e he)).2
  rw [List.flatMap_append, List.flatMap_append, hsent, hnotices, List.append_nil, List.append_nil]
  exact ⟨rfl, rfl⟩

theorem Parted.booked (h : Parted id username p taken pushed v) :
    Booked username v.2 taken pushed := by
  obtain ⟨on, calls, gone, hv, hgone, hworks⟩ := h
  have hbooked := hworks.booked
  obtain ⟨hsent, hnotices⟩ := flatMap_of_leaves calls hgone
  rw [hv]
  refine ⟨fun e he => ?_, ?_, ?_⟩
  · rcases List.mem_append.mp he with he | he
    · exact hbooked.proper e he
    · exact leaves_proper (hgone e he)
  · rw [hsent]
    exact hbooked.taken
  · rw [hnotices]
    exact hbooked.pushed

/-- The books are in order, also while a request is served. -/
theorem WorkOk.booked {room : Room} {log : ChatLog} (hinv : ChatInv room log)
    (h : WorkOk id username taken pushed (seen id room log) p asked job) :
    Booked username (own id log) taken pushed := by
  cases h with
  | alone hworks hknows hv => exact hworks.booked
  | served herror hpushed hserves =>
    obtain ⟨v', ret, ⟨-, on, -, hworks⟩, hcalls⟩ := hserves.ends hinv
    exact hworks.booked.of_prefix hcalls hpushed
  | deaf hpushed hserves =>
    obtain ⟨v', ret, ⟨-, on, -, hbooked⟩, hcalls⟩ := hserves.ends hinv
    exact hbooked.of_prefix hcalls hpushed
  | leaving hparted hleaves hserves => exact hparted.booked
  | gone hparted hv => exact hparted.booked

/-- Also when its channel was left, a client moves on. -/
theorem Parted.moves (h : Parted id username c.worker taken pushed v)
    (hc : c.Accounts taken pushed) (hmoves : ClientMoves c c') :
    c'.asked = c.asked ∧ ∃ taken' pushed', c'.Accounts taken' pushed' ∧
      Parted id username c'.worker taken' pushed' v := by
  obtain ⟨on, calls, gone, hv, hgone, hworks⟩ := h
  obtain ⟨hsame, taken', pushed', hc', hworks'⟩ := hmoves.works hc hworks
  exact ⟨hsame, taken', pushed', hc', on, calls, gone, hv, hgone, hworks'⟩

/-- **A client moves on by itself**, wherever the server is. -/
theorem WorkOk.moves (h : WorkOk id username taken pushed v c.worker c.asked job)
    (hc : c.Accounts taken pushed) (hmoves : ClientMoves c c') : ∃ taken' pushed',
      c'.Accounts taken' pushed' ∧ WorkOk id username taken' pushed' v c'.worker c'.asked job := by
  generalize hp : c.worker = p at h
  generalize hasked : c.asked = asked at h
  cases h with
  | alone hworks hknows hv =>
    obtain ⟨hsame, taken', pushed', hc', hworks'⟩ := hmoves.works hc (hp ▸ hworks)
    rw [hsame, hasked]
    exact ⟨taken', pushed', hc', .alone hworks' hknows hv⟩
  | served herror hpushed hserves =>
    obtain ⟨hworker, hsame, hc'⟩ := hmoves.still hc (hp ▸ .inr ⟨_, _, _, rfl⟩)
    rw [hworker, hsame, hp, hasked]
    exact ⟨taken, pushed, hc', .served herror hpushed hserves⟩
  | deaf hpushed hserves =>
    obtain ⟨hworker, hsame, hc'⟩ := hmoves.still hc (hp ▸ .inl rfl)
    rw [hworker, hsame, hp, hasked]
    exact ⟨taken, pushed, hc', .deaf hpushed hserves⟩
  | leaving hparted hleaves hserves =>
    obtain ⟨hsame, taken', pushed', hc', hparted'⟩ := Parted.moves (hp ▸ hparted) hc hmoves
    rw [hsame, hasked]
    exact ⟨taken', pushed', hc', .leaving hparted' hleaves hserves⟩
  | gone hparted hv =>
    obtain ⟨hsame, taken', pushed', hc', hparted'⟩ := Parted.moves (hp ▸ hparted) hc hmoves
    rw [hsame, hasked]
    exact ⟨taken', pushed', hc', .gone hparted' hv⟩

/-- An endpoint is known by its name. -/
theorem chatEndpoint_unique {ep ep' : Endpoint}
    {func func' : UInt64 → List ChrpcValue → EpProg EpRet} (h : (ep, func) ∈ chatEndpoints)
    (h' : (ep', func') ∈ chatEndpoints) (hname : ep.name = ep'.name) :
    ep' = ep ∧ func' = func := by
  have hpair : ∀ e ∈ chatEndpoints, ∀ e' ∈ chatEndpoints, e.1.name = e'.1.name → e' = e := by
    have hnodup : (chatEndpoints.map fun e => e.1.name).Nodup := by decide
    exact fun e he e' he' hname => (List.inj_on_of_nodup_map hnodup he he' hname).symm
  have heq := hpair _ h _ h' hname
  exact ⟨congrArg Prod.fst heq, congrArg Prod.snd heq⟩

section Asks

variable {name : CString} {args args' : List ChrpcValue}
  {k : Except ChrpcStatus (Option ChrpcValue) → ClientProg Turn} {ep : Endpoint}
  {func : UInt64 → List ChrpcValue → EpProg EpRet}

/-- The endpoint that accepts a request is the one that it is meant for, and gets its arguments. -/
theorem Works.asks
    (h : Works id username (.perform (.request name args) k) on calls taken pushed)
    (hfits : (requestMsg name args).length ≤ chatMaxMsgSize) (hep : (ep, func) ∈ chatEndpoints)
    (hmsg : Accepts chatEndpointSet (requestMsg name args) ep args') :
    args'.map ChrpcValue.type = ep.args ∧ (∀ arg ∈ args', SoundArg arg) ∧
      ∀ v, v.2 = calls → Knows username on v → Outline id (fun v' ret => ∃ on',
        Knows username on' v' ∧ Works id username (k (.ok ret.2)) on' v'.2 taken pushed)
        (func id args') v := by
  obtain ⟨-, -, strs, ep₀, func₀, rfl, hep₀, hname, htypes, -, hserves⟩ := h
  obtain ⟨hname', rfl⟩ := accepts_unique hfits hmsg
  obtain ⟨rfl, rfl⟩ := chatEndpoint_unique hep hep₀ (hname'.trans hname.symm)
  refine ⟨?_, fun arg harg => ?_, hserves⟩
  · rw [← htypes, List.map_map]
    exact List.map_const'
  · have hwf := strArgs_wellFormed hfits arg harg
    exact ⟨hwf.2.1, fun b hb => (hwf.2.2 b hb).mem⟩

/-- **A request is served as it is meant.** -/
theorem WorkOk.asks
    (h : WorkOk id username taken pushed v (.perform (.request name args) k) false .idle)
    (hfits : (requestMsg name args).length ≤ chatMaxMsgSize) (hep : (ep, func) ∈ chatEndpoints)
    (hmsg : Accepts chatEndpointSet (requestMsg name args) ep args') :
    JobMoves id .idle (.serving ep (func id args')) ∧
      WorkOk id username taken pushed v (.perform (.request name args) k) true
        (.serving ep (func id args')) := by
  cases h with
  | alone hworks hknows hv =>
    obtain ⟨htypes, hsound, hserves⟩ := hworks.asks hfits hep hmsg
    refine ⟨.serves hep htypes hsound, .served hworks.2.1 hworks.1.pushed ?_⟩
    exact (endpoint_outline hep htypes hsound hv).and (hserves v rfl hknows)

end Asks

/-- **And its answer is heard.** -/
theorem WorkOk.answered {name : CString} {args : List ChrpcValue}
    {k : Except ChrpcStatus (Option ChrpcValue) → ClientProg Turn} {ep : Endpoint}
    {cmd : ServerCommand} {ret ret' : Option ChrpcValue} {rest : Bytes}
    (h : WorkOk id username taken pushed v (.perform (.request name args) k) true
      (.serving ep (.done (cmd, ret))))
    (hmsg : chrpcClientParseResponse (returnMsg ret ++ rest) true
      = .ok (chrpcSuccess, some ret')) :
    WorkOk id username taken pushed v (k (.ok ret')) false .idle := by
  cases h with
  | served herror hpushed hserves =>
    obtain ⟨⟨hv, hanswers⟩, on, hknows, hworks⟩ := hserves
    have hsame := hmsg.symm.trans (hanswers.parses rest)
    cases hsame
    exact .alone hworks hknows hv

section Fails

variable {name : CString} {args : List ChrpcValue}
  {k : Except ChrpcStatus (Option ChrpcValue) → ClientProg Turn}

/-- Without an answer, the client is at its end. -/
theorem Works.fails
    (h : Works id username (.perform (.request name args) k) on calls taken pushed)
    (st : ChrpcStatus) : Works id username (k (.error st)) on calls taken pushed := by
  rw [h.2.1 st]
  exact ⟨h.1, fun hne => absurd rfl hne⟩

theorem Parted.fails (h : Parted id username (.perform (.request name args) k) taken pushed v)
    (st : ChrpcStatus) : Parted id username (k (.error st)) taken pushed v := by
  obtain ⟨on, calls, gone, hv, hgone, hworks⟩ := h
  exact ⟨on, calls, gone, hv, hgone, hworks.fails st⟩

theorem WorkOk.fails
    (h : WorkOk id username taken pushed v (.perform (.request name args) k) asked job)
    (st : ChrpcStatus) : WorkOk id username taken pushed v (k (.error st)) false job := by
  cases h with
  | alone hworks hknows hv => exact .alone (hworks.fails st) hknows hv
  | served herror hpushed hserves =>
    rw [herror st]
    refine .deaf hpushed (hserves.mono ?_)
    rintro v' ret ⟨hserved, on, hknows, hworks⟩
    exact ⟨hserved, on, hknows, hworks.booked⟩
  | leaving hparted hleaves hserves => exact .leaving (hparted.fails st) hleaves hserves
  | gone hparted hv => exact .gone (hparted.fails st) hv

end Fails

theorem WorkOk.unheard {ep : Endpoint} {ret : EpRet}
    (h : WorkOk id username taken pushed v p false (.serving ep (.done ret))) :
    WorkOk id username taken pushed v p false .idle := by
  cases h with
  | deaf hpushed hserves =>
    obtain ⟨⟨hv, -⟩, on, hknows, hbooked⟩ := hserves
    exact .alone ⟨hbooked, fun hne => absurd rfl hne⟩ hknows hv

theorem WorkOk.disconnects (h : WorkOk id username taken pushed v p asked .idle) :
    WorkOk id username taken pushed v p asked (.leaving (chatroomOnDisconnect id)) := by
  cases h with
  | alone hworks hknows hv =>
    refine .leaving ⟨_, v.2, [], (List.append_nil _).symm, List.forall_mem_nil _, hworks⟩ ?_
      (chatroomOnDisconnect_outline hv)
    exact chatroomOnDisconnect_only trivial trivial fun _ => trivial

theorem WorkOk.goes (h : WorkOk id username taken pushed v p asked (.leaving (.done ()))) :
    WorkOk id username taken pushed v p asked .gone := by
  cases h with
  | leaving hparted hleaves hserves => exact .gone hparted hserves

/-- What is called for a client is allowed, and is in its books. -/
theorem WorkOk.called {room : Room} {log : ChatLog} {rc : RoomCall} {k : RoomAnswer → Job}
    (hinv : ChatInv room log) (hcalls : JobCalls job rc k)
    (h : WorkOk id username taken pushed (seen id room log) p asked job) : Allowed log id rc ∧
      WorkOk id username taken pushed
        (seen id (roomStep room rc).2 (log ++ [(id, rc, (roomStep room rc).1)])) p asked
        (k (roomStep room rc).1) := by
  have hsnoc : (seen id (roomStep room rc).2 (log ++ [(id, rc, (roomStep room rc).1)])).2
      = (seen id room log).2 ++ [(rc, (roomStep room rc).1)] := own_snoc_self _ _ _
  have hstill : pushed <+: (seen id room log).2.flatMap noticesOf →
      pushed <+: (seen id (roomStep room rc).2
        (log ++ [(id, rc, (roomStep room rc).1)])).2.flatMap noticesOf := by
    intro hpushed
    rw [hsnoc, List.flatMap_append]
    exact hpushed.trans (List.prefix_append _ _)
  cases hcalls with
  | serving =>
    cases h with
    | served herror hpushed hserves =>
      obtain ⟨hallowed, hrest⟩ := hserves room log hinv rfl
      exact ⟨hallowed, .served herror (hstill hpushed) hrest⟩
    | deaf hpushed hserves =>
      obtain ⟨hallowed, hrest⟩ := hserves room log hinv rfl
      exact ⟨hallowed, .deaf (hstill hpushed) hrest⟩
  | leaving =>
    cases h with
    | leaving hparted hleaves hserves =>
      obtain ⟨on, calls, gone, hv, hgone, hworks⟩ := hparted
      obtain ⟨hallowed, hrest⟩ := hserves room log hinv rfl
      refine ⟨hallowed, .leaving ⟨on, calls, gone ++ [(rc, (roomStep room rc).1)], ?_, ?_, hworks⟩
        (hleaves.2 _) hrest⟩
      · rw [hsnoc, hv, List.append_assoc]
      · intro e he
        rcases List.mem_append.mp he with he | he
        · exact hgone e he
        · rw [List.mem_singleton.mp he]
          exact hleaves.1

end Work

/-! ## All clients -/

/-- What is called for a channel is all for itself. -/
def JobBySelf (id : UInt64) : Job → Prop
  | .serving _ p => p.Only (BySelf id)
  | .leaving p => p.Only (BySelf id)
  | _ => True

/-- A client keeps its books. -/
structure UserOk (username : CString) (id : UInt64) (v : Seen) (u : User) : Prop where
  books : ∃ taken pushed, u.client.Accounts taken pushed ∧
    WorkOk id username taken pushed v u.client.worker u.client.asked u.job
  self : JobBySelf id u.job

/-- What holds of the room and of the calls so far. -/
def UsersInv (room : Room) (log : ChatLog) : Prop :=
  ChatInv room log ∧ ∀ e ∈ log, BySelf e.1 e.2.1

section Users

variable {id : UInt64} {name : CString} {v : Seen} {u u' : User}

theorem userOk_start (name : CString) (id : UInt64) :
    UserOk name id (none, []) ⟨.start name, .idle⟩ where
  books := ⟨[], [], ⟨.refl _, .refl _, List.forall_mem_nil _, fun _ hline => by cases hline⟩,
    .alone clientLogin_works rfl .new⟩
  self := trivial

theorem jobBySelf_calls {job : Job} {c : RoomCall} {k : RoomAnswer → Job}
    (h : JobBySelf id job) (hcalls : JobCalls job c k) (a : RoomAnswer) :
    BySelf id c ∧ JobBySelf id (k a) := by
  cases hcalls with
  | serving => exact ⟨h.1, h.2 a⟩
  | leaving => exact ⟨h.1, h.2 a⟩

/-- A client and the worker that serves it move on by themselves. -/
theorem UserOk.moves (h : UserOk name id v u) (hmoves : UserMoves id u u') :
    UserOk name id v u' := by
  obtain ⟨⟨taken, pushed, hc, hwork⟩, hself⟩ := h
  have hc' : ∀ {p : ClientProg Turn} {asked : Bool},
      Client.Accounts { u.client with worker := p, asked := asked } taken pushed :=
    ⟨hc.typed, hc.pushed, hc.sendable, hc.prompt⟩
  cases hmoves with
  | client h =>
    obtain ⟨taken', pushed', hc', hwork'⟩ := hwork.moves hc h
    exact ⟨⟨taken', pushed', hc', hwork'⟩, hself⟩
  | asks hat hasked hjob hfits hep hmsg =>
    rw [hat, hasked, hjob] at hwork
    have hwork' := (hwork.asks hfits hep hmsg).2
    rw [← hat] at hwork'
    exact ⟨⟨taken, pushed, hc', hwork'⟩, endpoint_bySelf hep id _⟩
  | answered hat hasked hjob hmsg =>
    rw [hat, hasked, hjob] at hwork
    exact ⟨⟨taken, pushed, hc', hwork.answered hmsg⟩, trivial⟩
  | fails hat =>
    rw [hat] at hwork
    exact ⟨⟨taken, pushed, hc', hwork.fails _⟩, hself⟩
  | unheard hasked hjob =>
    rw [hasked, hjob] at hwork
    refine ⟨⟨taken, pushed, hc, ?_⟩, trivial⟩
    rw [hasked]
    exact hwork.unheard
  | disconnects hjob =>
    rw [hjob] at hwork
    exact ⟨⟨taken, pushed, hc, hwork.disconnects⟩,
      chatroomOnDisconnect_only rfl rfl fun _ => rfl⟩
  | goes hjob =>
    rw [hjob] at hwork
    exact ⟨⟨taken, pushed, hc, hwork.goes⟩, trivial⟩

/-- The server does for a client what it does for any channel. -/
theorem UserOk.jobMoves (h : UserOk name id v u) (hmoves : UserMoves id u u') :
    u'.job = u.job ∨ JobMoves id u.job u'.job := by
  obtain ⟨⟨taken, pushed, -, hwork⟩, -⟩ := h
  cases hmoves with
  | client h => exact .inl rfl
  | asks hat hasked hjob hfits hep hmsg =>
    rw [hat, hasked, hjob] at hwork
    rw [hjob]
    exact .inr (hwork.asks hfits hep hmsg).1
  | answered hat hasked hjob hmsg =>
    rw [hjob]
    exact .inr .answers
  | fails hat => exact .inl rfl
  | unheard hasked hjob =>
    rw [hjob]
    exact .inr .answers
  | disconnects hjob =>
    rw [hjob]
    exact .inr .disconnects
  | goes hjob =>
    rw [hjob]
    exact .inr .goes

/-- **Each client keeps its books, whatever the others do.** -/
theorem chatUsers_local (username : UInt64 → CString) :
    Local (chatUsers username) roomStep .empty UsersInv seen
      fun id => UserOk (username id) id where
  init := by
    refine ⟨⟨chatServer_local.init.1, List.forall_mem_nil _⟩, fun id => ?_⟩
    exact userOk_start (username id) id
  moves := fun h hmoves => h.moves hmoves
  calls := by
    intro id room log u c k hinv hu hcalls
    cases hcalls with
    | job hjob =>
      obtain ⟨⟨taken, pushed, hc, hwork⟩, hself⟩ := hu
      obtain ⟨hallowed, hwork'⟩ := hwork.called hinv.1 hjob
      obtain ⟨hby, hself'⟩ := jobBySelf_calls hself hjob (roomStep room c).1
      refine ⟨⟨hinv.1.step hallowed, fun e he => ?_⟩, ⟨⟨taken, pushed, hc, hwork'⟩, hself'⟩,
        fun u hu => seen_others hallowed hu⟩
      rcases List.mem_append.mp he with he | he
      · exact hinv.2 e he
      · rw [List.mem_singleton.mp he]
        exact hby

variable {username : UInt64 → CString}
  {s : AtomicClients UInt64 RoomCall RoomAnswer User Room}

theorem chatSystem_reachable (h : (chatSystem username).Reachable s) :
    UsersInv s.object s.log ∧
      ∀ id, UserOk (username id) id (seen id s.object s.log) (s.place id) :=
  (chatUsers_local username).reachable (chatUsers username) h

/-- The books of a client, with its calls. -/
theorem chatSystem_booked (h : (chatSystem username).Reachable s) (id : UInt64) :
    ∃ taken pushed, (s.place id).client.Accounts taken pushed ∧
      Booked (username id) (own id s.log) taken pushed := by
  obtain ⟨hinv, husers⟩ := chatSystem_reachable h
  obtain ⟨⟨taken, pushed, hc, hwork⟩, -⟩ := husers id
  exact ⟨taken, pushed, hc, hwork.booked hinv.1⟩

end Users

end Chlibs.Chat
