import Chlibs.Chat.Users

/-!
# From the keyboard to the screen

Any number of clients and the server, over whole runs: keys are typed, requests and responses go
over the channels, and lines are shown.

* `chatSystem_refines` — at the server, the system is the server alone.
* `client_served` — a client that is logged in is served: its requests are accepted, and it gets the
  values that are returned.
* `client_accounts` — no message is lost on the way, and none goes twice.
* `screen_true` — **what is on a screen is true.**
-/

namespace Chlibs.Chat

open Infra Serial Util Rpc

/-! ## A run -/

section Run

variable {username : UInt64 → CString} {id : UInt64} {u : User} {room : Room} {log : ChatLog}

/-- The client gets to a place, with this room and these calls. -/
def Gets (username : UInt64 → CString) (id : UInt64) (u : User) (room : Room) (log : ChatLog) :
    Prop :=
  ∃ s, (chatSystem username).Reachable s ∧ s.place id = u ∧ s.object = room ∧ s.log = log

theorem gets_start : Gets username id ⟨.start (username id), .idle⟩ .empty [] :=
  ⟨_, .init rfl, rfl, rfl, rfl⟩

theorem Gets.move {u' : User} (h : Gets username id u room log) (hmoves : UserMoves id u u') :
    Gets username id u' room log := by
  obtain ⟨s, hs, rfl, rfl, rfl⟩ := h
  exact ⟨_, hs.step (.moves hmoves), Function.update_self .., rfl, rfl⟩

theorem Gets.call {c : RoomCall} {k : RoomAnswer → Job} (h : Gets username id u room log)
    (hcalls : JobCalls u.job c k) :
    Gets username id { u with job := k (roomStep room c).1 } (roomStep room c).2
      (log ++ [(id, c, (roomStep room c).1)]) := by
  obtain ⟨s, hs, rfl, rfl, rfl⟩ := h
  exact ⟨_, hs.step (AtomicStep.calls (.job hcalls)), Function.update_self .., rfl, rfl⟩

/-- A request is sent. -/
theorem Gets.ask {c : Client} (strs : List CString)
    {k : Except ChrpcStatus (Option ChrpcValue) → ClientProg Turn} {ep : Endpoint}
    {func : UInt64 → List ChrpcValue → EpProg EpRet} (h : Gets username id ⟨c, .idle⟩ room log)
    (hat : c.worker = .perform (.request ep.name (strs.map newChrpcStrValue)) k)
    (hasked : c.asked = false) (hep : (ep, func) ∈ chatEndpoints)
    (htypes : List.replicate strs.length (.prim .string) = ep.args)
    (hfits : (requestMsg ep.name (strs.map newChrpcStrValue)).length ≤ chatMaxMsgSize) :
    Gets username id
      ⟨{ c with asked := true }, .serving ep (func id (strs.map newChrpcStrValue))⟩ room log :=
  h.move (.asks hat hasked rfl hfits hep (requestMsg_accepts hep htypes hfits))

/-- A request is answered. -/
theorem Gets.answer {c : Client} {name : CString} {args : List ChrpcValue}
    {k : Except ChrpcStatus (Option ChrpcValue) → ClientProg Turn} {ep : Endpoint} {ret : EpRet}
    (h : Gets username id ⟨c, .serving ep (.done ret)⟩ room log)
    (hat : c.worker = .perform (.request name args) k) (hasked : c.asked = true)
    (hret : EpAnswers ep ret) :
    Gets username id ⟨{ c with worker := k (.ok ret.2), asked := false }, .idle⟩ room log :=
  h.move (.answered hat hasked rfl (hret.parses []))

/-- Something is shown. -/
theorem Gets.shows {c : Client} {job : Job} {line : CmdLine}
    (h : Gets username id ⟨c, job⟩ room log) (hprompt : c.prompt = .reads line)
    (hlives : c.worker ≠ .done .fatal) (msgs : List ChatroomMessage) (msg : ChatroomMessage)
    (hrecv : c.recvQ = msgs ++ [msg]) :
    Gets username id ⟨{ c with recvQ := msgs, shown := c.shown ++ [msg] }, job⟩ room log :=
  h.move (.client (.shows hprompt hlives hrecv))

/-- `h` is typed, and sent. -/
theorem h_typed : ∃ line line', cmdKey .start 104 = some (none, line) ∧
    cmdKey line newline = some (some ⟨true, literal "", asCString [104]⟩, line') := by
  obtain ⟨line, hkey, hstands⟩ := cmdKey_spec start_stands 104
  obtain ⟨line', hkey', -⟩ := cmdKey_spec hstands newline
  exact ⟨line, line', hkey, hkey'⟩

/-- Ann logs in, types something, sends it, and gets it back: a state in which she sends it, and one
in which she sees it. -/
theorem ann_run :
    (∃ s, (chatSystem fun _ => ann).Reachable s ∧ (s.place 7).job = .idle ∧
      s.object.user 7 ≠ none ∧ ∃ k, (s.place 7).client.worker = .perform (.request
        (literal "send_global_message") [newChrpcStrValue (asCString [104])]) k) ∧
    ∃ s, (chatSystem fun _ => ann).Reachable s ∧ (s.place 7).client.worker = .done .goesOn ∧
      (s.place 7).client.typed = [⟨true, literal "", asCString [104]⟩] ∧
      (s.place 7).client.shown
        = [⟨true, rootSender, loginMsg ann⟩, ⟨true, ann, asCString [104]⟩] := by
  obtain ⟨line, line', hkey, hkey'⟩ := h_typed
  have hlives : Prog.done Turn.goesOn ≠ (.done .fatal : ClientProg Turn) := by
    intro h
    cases h
  have hstart : Gets (fun _ => ann) 7 _ _ _ := gets_start
  have hasks := hstart.ask [ann] rfl rfl loginEp_mem rfl (by rw [requestMsg_length]; decide)
  have hlogin := hasks.call .serving
  have hannounce := hlogin.call .serving
  have hin := hannounce.answer rfl rfl (returnStatus_answers rfl .success)
  have hstarts := hin.move (.client (.starts rfl rfl))
  have hreads := hstarts.move (.client (.reads rfl (by intro h; cases h) hkey))
  have hreads' := hreads.move (.client (.reads rfl (by intro h; cases h) hkey'))
  have hflag := hreads'.move (.client (.flag rfl))
  have htakes := hflag.move (.client (.takes rfl))
  have hsends := htakes.ask [asCString [104]] rfl rfl (.tail _ (.head _)) rfl
    (by rw [requestMsg_length]; decide)
  have hsend := hsends.call .serving
  have hsent := hsend.answer rfl rfl (returnStatus_answers rfl .success)
  have hpolls := hsent.ask [] rfl rfl pollEp_mem rfl (by rw [requestMsg_length]; decide)
  have hpoll := hpolls.call .serving
  have hshort : ∀ m ∈ [(⟨true, ann, asCString [104]⟩ : ChatroomMessage),
      ⟨true, rootSender, loginMsg ann⟩], m.Short := by
    intro m hm
    rcases List.mem_pair.mp hm with rfl | rfl <;> exact ⟨by decide, by decide⟩
  have hpolled := hpoll.answer rfl rfl (msgsValue_answers rfl hshort (by decide))
  have hpush := hpolled.move (.client (.pushes rfl))
  have hpush' := hpush.move (.client (.pushes rfl))
  -- The last message is shown first.
  have hshows := hpush'.shows rfl hlives [⟨true, ann, asCString [104]⟩]
    ⟨true, rootSender, loginMsg ann⟩ rfl
  have hshows' := hshows.shows rfl hlives [] ⟨true, ann, asCString [104]⟩ rfl
  obtain ⟨s, hs, hu, hroom, -⟩ := htakes
  obtain ⟨s', hs', hu', -, -⟩ := hshows'
  refine ⟨⟨s, hs, ?_, ?_, ?_⟩, s', hs', ?_, ?_, ?_⟩
  · rw [hu]
  · rw [hroom]
    intro hnone
    cases hnone
  · rw [hu]
    exact ⟨_, rfl⟩
  · rw [hu']
    rfl
  · rw [hu']
    rfl
  · rw [hu']
    rfl

end Run

/-! ## The server -/

section Server

variable {username : UInt64 → CString}
  {s : AtomicClients UInt64 RoomCall RoomAnswer User Room}

theorem job_update (place : UInt64 → User) (id : UInt64) (u : User) :
    (fun i => (Function.update place id u i).job)
      = Function.update (fun i => (place i).job) id u.job := by
  funext i
  rcases eq_or_ne i id with rfl | hi
  · rw [Function.update_self, Function.update_self]
  · rw [Function.update_of_ne hi, Function.update_of_ne hi]

/-- **Clients do not get the server to do anything else**: whatever they do, the server is where it
gets to with channels that ask for anything, with the same room and the same calls. -/
theorem chatSystem_refines (h : (chatSystem username).Reachable s) :
    chatServer.Reachable
      { object := s.object, place := fun id => (s.place id).job, log := s.log } := by
  induction h with
  | init h₀ =>
    obtain rfl := h₀
    exact .init rfl
  | @step s s' hs hstep ih =>
    cases hstep with
    | @moves id u hmoves =>
      show chatServer.Reachable
        { object := s.object, place := fun i => (Function.update s.place id u i).job, log := s.log }
      rw [job_update]
      rcases ((chatSystem_reachable hs).2 id).jobMoves hmoves with hsame | hmoves
      · rw [hsame, Function.update_eq_self id fun i => (s.place i).job]
        exact ih
      · exact ih.step (.moves hmoves)
    | @calls id c k hcalls =>
      cases hcalls with
      | job hjob =>
        have hcalls : chatClients.calls id (s.place id).job c _ := hjob
        have hstep := ih.step (AtomicStep.calls hcalls)
        rw [← job_update s.place id { s.place id with job := _ }] at hstep
        exact hstep

theorem chatSystem_refines_ann : ∃ s : AtomicClients UInt64 RoomCall RoomAnswer User Room,
    (s.place 7).client.typed = [⟨true, literal "", asCString [104]⟩] ∧ chatServer.Reachable
      { object := s.object, place := fun id => (s.place id).job, log := s.log } := by
  obtain ⟨-, s, h, -, htyped, -⟩ := ann_run
  exact ⟨s, htyped, chatSystem_refines h⟩

end Server

/-! ## Service -/

section Service

variable {username : UInt64 → CString}
  {s : AtomicClients UInt64 RoomCall RoomAnswer User Room} {id : UInt64}

/-- A request of somebody who is logged in fits a message, and is accepted as it is. -/
theorem Works.accepts {name : CString} {args : List ChrpcValue}
    {k : Except ChrpcStatus (Option ChrpcValue) → ClientProg Turn} {calls : OwnCalls}
    {taken pushed : List ChatroomMessage}
    (h : Works id (username id) (.perform (.request name args) k) true calls taken pushed) :
    (requestMsg name args).length ≤ chatMaxMsgSize ∧ ∃ ep func, (ep, func) ∈ chatEndpoints ∧
      Accepts chatEndpointSet (requestMsg name args) ep args := by
  obtain ⟨-, -, strs, ep, func, rfl, hep, rfl, htypes, hfits, -⟩ := h
  exact ⟨hfits rfl, ep, func, hep, requestMsg_accepts hep htypes (hfits rfl)⟩

/-- **Who is logged in is served.** The worker of a client does nothing undefined, and no key does.
When the server is free for the client, a request can be sent and is accepted with its arguments;
and when an endpoint has returned, the client gets the value that it returned. -/
theorem client_served (h : (chatSystem username).Reachable s) (id : UInt64) :
    let u := s.place id
    u.client.worker ≠ .fault ∧
      (∀ line key, u.client.prompt = .reads line → (cmdKey line key).isSome) ∧
      (∀ name args k, u.client.worker = .perform (.request name args) k → u.job = .idle →
        s.object.user id ≠ none → u.client.asked = false ∧
          (requestMsg name args).length ≤ chatMaxMsgSize ∧ ∃ ep func, (ep, func) ∈ chatEndpoints ∧
            Accepts chatEndpointSet (requestMsg name args) ep args) ∧
      ∀ ep cmd ret, u.client.asked = true → u.job = .serving ep (.done (cmd, ret)) →
        (returnMsg ret).length ≤ chatMaxMsgSize ∧ ∀ rest,
          chrpcClientParseResponse (returnMsg ret ++ rest) true
            = .ok (chrpcSuccess, some ret) := by
  obtain ⟨hinv, husers⟩ := chatSystem_reachable h
  obtain ⟨⟨taken, pushed, hc, hwork⟩, -⟩ := husers id
  generalize hworker : (s.place id).client.worker = p at hwork
  generalize hasked : (s.place id).client.asked = asked at hwork
  generalize hjob : (s.place id).job = job at hwork
  intro u
  refine ⟨fun hfault => ?_, fun line key hprompt => ?_, fun name args k hat hidle huser => ?_,
    fun ep cmd ret hasks hdone => ?_⟩
  · obtain rfl : p = .fault := hworker.symm.trans hfault
    cases hwork with
    | alone hworks hknows hv => exact hworks
    | leaving hparted hleaves hserves =>
      obtain ⟨on, calls, gone, -, -, hworks⟩ := hparted
      exact hworks
    | gone hparted hv =>
      obtain ⟨on, calls, gone, -, -, hworks⟩ := hparted
      exact hworks
  · obtain ⟨t, hstands⟩ := hc.prompt line hprompt
    obtain ⟨line', hkey, -⟩ := cmdKey_spec hstands key
    rw [hkey]
    rfl
  · obtain rfl : p = .perform (.request name args) k := hworker.symm.trans hat
    obtain rfl : job = .idle := hjob.symm.trans hidle
    cases hwork with
    | @alone _ on hworks hknows hv =>
      refine ⟨hasked, ?_⟩
      cases on with
      | true => exact hworks.accepts
      | false => exact absurd hknows huser
  · obtain rfl : asked = true := hasked.symm.trans hasks
    obtain rfl : job = .serving ep (.done (cmd, ret)) := hjob.symm.trans hdone
    cases hwork with
    | served herror hpushed hserves =>
      obtain ⟨⟨-, hanswers⟩, -⟩ := hserves
      exact ⟨hanswers.2.2.2, hanswers.parses⟩

theorem client_served_ann : ∃ (s : AtomicClients UInt64 RoomCall RoomAnswer User Room) (k : _),
    (s.place 7).client.worker = .perform (.request (literal "send_global_message")
      [newChrpcStrValue (asCString [104])]) k ∧ ∃ ep func, (ep, func) ∈ chatEndpoints ∧
        Accepts chatEndpointSet (requestMsg (literal "send_global_message")
          [newChrpcStrValue (asCString [104])]) ep [newChrpcStrValue (asCString [104])] := by
  obtain ⟨⟨s, h, hidle, huser, k, hat⟩, -⟩ := ann_run
  obtain ⟨-, -, hrequest, -⟩ := client_served h 7
  exact ⟨s, k, hat, (hrequest _ _ k hat hidle huser).2.2⟩

end Service

/-! ## Accounts -/

section Accounts

variable {username : UInt64 → CString}
  {s : AtomicClients UInt64 RoomCall RoomAnswer User Room} {id : UInt64}

/-- Between two turns, nothing is under way. -/
theorem WorkOk.balanced {name : CString} {taken pushed : List ChatroomMessage} {v : Seen}
    {asked : Bool} {job : Job} (h : WorkOk id name taken pushed v (.done .goesOn) asked job) :
    v.2.flatMap sentBy = taken ∧ v.2.flatMap noticesOf = pushed := by
  have hparted : Parted id name (.done .goesOn) taken pushed v →
      v.2.flatMap sentBy = taken ∧ v.2.flatMap noticesOf = pushed := by
    rintro ⟨on, calls, gone, hv, hgone, hworks⟩
    obtain ⟨-, hbalanced⟩ := hworks.2 (by intro hfatal; cases hfatal)
    obtain ⟨hsent, hnotices⟩ := flatMap_of_leaves calls hgone
    rw [hv, hsent, hnotices]
    exact ⟨hbalanced.taken, hbalanced.pushed⟩
  cases h with
  | alone hworks hknows hv =>
    obtain ⟨-, hbalanced⟩ := hworks.2 (by intro hfatal; cases hfatal)
    exact ⟨hbalanced.taken, hbalanced.pushed⟩
  | leaving hp hleaves hserves => exact hparted hp
  | gone hp hv => exact hparted hp

/-- **No message is lost on the way, and none goes twice.** What a client has sent was typed, and
what it has shown came from the server, each message no more often than that. Between two turns of
the worker, what was typed was sent or waits in `send_q`, and what came is shown or waits in
`recv_q`. -/
theorem client_accounts (h : (chatSystem username).Reachable s) (id : UInt64) :
    let c := (s.place id).client
    ((own id s.log).flatMap sentBy).Subperm c.typed ∧
      c.shown.Subperm ((own id s.log).flatMap noticesOf) ∧
      (c.worker = .done .goesOn → c.typed.Perm ((own id s.log).flatMap sentBy ++ c.sendQ) ∧
        ((own id s.log).flatMap noticesOf).Perm (c.shown ++ c.recvQ)) := by
  obtain ⟨hinv, husers⟩ := chatSystem_reachable h
  obtain ⟨⟨taken, pushed, hc, hwork⟩, -⟩ := husers id
  have hbooked := hwork.booked hinv.1
  refine ⟨?_, ?_, fun hat => ?_⟩
  · refine hbooked.taken.sublist.subperm.trans ?_
    exact (List.sublist_append_left _ _).subperm.trans hc.typed.symm.subperm
  · refine List.Subperm.trans ?_ hbooked.pushed.sublist.subperm
    exact (List.sublist_append_left _ _).subperm.trans hc.pushed.symm.subperm
  · rw [hat] at hwork
    obtain ⟨hsent, hnotices⟩ := hwork.balanced
    rw [show own id s.log = (seen id s.object s.log).2 from rfl, hsent, hnotices]
    exact ⟨hc.typed, hc.pushed⟩

theorem client_accounts_ann : ∃ s : AtomicClients UInt64 RoomCall RoomAnswer User Room,
    (s.place 7).client.typed = [⟨true, literal "", asCString [104]⟩] ∧
      (s.place 7).client.typed.Perm ((own 7 s.log).flatMap sentBy ++ (s.place 7).client.sendQ) := by
  obtain ⟨-, s, h, hat, htyped, -⟩ := ann_run
  obtain ⟨-, -, hturn⟩ := client_accounts h 7
  exact ⟨s, htyped, (hturn hat).1⟩

end Accounts

/-! ## The screen -/

section Screen

variable {username : UInt64 → CString}
  {s : AtomicClients UInt64 RoomCall RoomAnswer User Room} {id : UInt64} {calls : List RoomCall}
  {name : CString} {m : ChatroomMessage}

/-- What may be on the screen of client `id`: what was typed at some client, behind the name of that
client, and for a private message the name of this one; the logins and the logouts; and that nobody
has the name that a private message was for. -/
inductive Screen (username : UInt64 → CString)
    (s : AtomicClients UInt64 RoomCall RoomAnswer User Room) (id : UInt64) : Bytes → Prop
  | general {sender : UInt64} {text : CString}
      (htyped : ⟨true, literal "", text⟩ ∈ (s.place sender).client.typed) :
      Screen username s id (messageText ansiBrightCyanFg (username sender) text)
  | direct {sender : UInt64} {text : CString}
      (htyped : ⟨false, username id, text⟩ ∈ (s.place sender).client.typed) :
      Screen username s id (messageText ansiBrightMagentaFg (username sender) text)
  | login {user : UInt64} (hlogin : (user, .login user (username user), .status .success) ∈ s.log) :
      Screen username s id (noticeText ansiBlueFg (loginMsg (username user)))
  | logout {user : UInt64}
      (hlogin : (user, .login user (username user), .status .success) ∈ s.log)
      (hlogout : (user, .logout user, .status .success) ∈ s.log) :
      Screen username s id (noticeText ansiBlueFg (logoutMsg (username user)))
  | unknown {receiver text : CString}
      (htyped : ⟨false, receiver, text⟩ ∈ (s.place id).client.typed)
      (hunknown : (id, .sendPrivateMsgFromId receiver id text, .status .unknownReceiver) ∈ s.log) :
      Screen username s id (noticeText ansiRedFg (literal "Unknown receiver"))

/-- A name begins with no `$`. -/
theorem validName_head (h : validName name = true) : name.chars.head? ≠ some dollar := by
  intro hhead
  have hmem : dollar ∈ name.chars := List.mem_of_mem_head? hhead
  simp only [validName, Bool.and_eq_true, List.all_eq_true] at h
  have hchar := h.2 dollar hmem
  revert hchar
  decide

/-- What a user says is shown behind the name. -/
theorem clientPrintReceivedMsg_user (h : validName m.user = true) : clientPrintReceivedMsg m =
    messageText (if m.generalMsg then ansiBrightCyanFg else ansiBrightMagentaFg) m.user m.msg := by
  rw [clientPrintReceivedMsg, if_neg (validName_head h)]
  cases m.generalMsg <;> rfl

theorem clientPrintReceivedMsg_root (h : m.user = rootSender) :
    clientPrintReceivedMsg m = noticeText ansiBlueFg m.msg := by
  have hhead : rootSender.chars.head? = some dollar := by decide
  rw [clientPrintReceivedMsg, h, if_pos hhead, if_pos ((sEquals_iff _ _).mpr rfl)]

theorem clientPrintReceivedMsg_error (h : m.user = errorSender) :
    clientPrintReceivedMsg m = noticeText ansiRedFg m.msg := by
  have hhead : errorSender.chars.head? = some dollar := by decide
  have hne : ¬sEquals errorSender rootSender = true := by decide
  rw [clientPrintReceivedMsg, h, if_pos hhead, if_neg hne, if_pos ((sEquals_iff _ _).mpr rfl)]

/-- Who is logged in has called for it. -/
theorem login_of_user (hid : (roomAfter calls).user id = some name) :
    RoomCall.login id name ∈ calls := by
  induction calls using List.reverseRecOn with
  | nil => cases hid
  | append_singleton calls c ih =>
    rw [roomAfter_snoc] at hid
    rcases roomStep_user_cases (roomAfter calls) c with huser | ⟨id', name', rfl, -, huser⟩ |
      ⟨id', rfl, -, huser⟩
    · rw [huser] at hid
      exact List.mem_append_left _ (ih hid)
    · rw [huser] at hid
      by_cases hi : id = id'
      · subst hi
        rw [Function.update_self, Option.some.injEq] at hid
        rw [hid]
        exact List.mem_append_right _ List.mem_cons_self
      · rw [Function.update_of_ne hi] at hid
        exact List.mem_append_left _ (ih hid)
    · rw [huser] at hid
      by_cases hi : id = id'
      · rw [hi, Function.update_self] at hid
        cases hid
      · rw [Function.update_of_ne hi] at hid
        exact List.mem_append_left _ (ih hid)

/-- A call is by its channel, and the name of a login is that of the client. -/
theorem call_bySelf (h : (chatSystem username).Reachable s) {c : RoomCall} {a : RoomAnswer}
    (hmem : (id, c, a) ∈ s.log) : BySelf id c ∧ Proper (username id) (c, a) := by
  obtain ⟨taken, pushed, -, hbooked⟩ := chatSystem_booked h id
  exact ⟨(chatSystem_reachable h).1.2 _ hmem, hbooked.proper _ (mem_own.mpr hmem)⟩

/-- Nobody is logged in but under the name of the client. -/
theorem username_of_user (h : (chatSystem username).Reachable s) {before after : List RoomCall}
    (hlog : logCalls s.log = before ++ after) (hid : (roomAfter before).user id = some name) :
    name = username id := by
  have hmem : RoomCall.login id name ∈ logCalls s.log := by
    rw [hlog]
    exact List.mem_append_left _ (login_of_user hid)
  obtain ⟨⟨id', c, a⟩, hentry, rfl⟩ := List.mem_map.mp hmem
  obtain ⟨hby, hproper⟩ := call_bySelf h hentry
  obtain rfl : id = id' := hby
  exact hproper

/-- What a client sends was typed. -/
theorem typed_of_sent (h : (chatSystem username).Reachable s) {c : RoomCall} {a : RoomAnswer}
    (hmem : (id, c, a) ∈ s.log) (hm : m ∈ sentBy (c, a)) : m ∈ (s.place id).client.typed := by
  obtain ⟨taken, pushed, hc, hbooked⟩ := chatSystem_booked h id
  refine hc.typed.mem_iff.mpr (List.mem_append_left _ (hbooked.taken.subset ?_))
  exact List.mem_flatMap.mpr ⟨_, mem_own.mpr hmem, hm⟩

/-- A notice is of a refusal, or was polled. -/
theorem notice_cases {c : RoomCall} {a : RoomAnswer} (h : m ∈ noticesOf (c, a)) :
    (∃ id msg st, c = .sendGlobalMsgFromId id msg ∧ a = .status st ∧ st ≠ .success) ∨
      (∃ receiver id msg st, c = .sendPrivateMsgFromId receiver id msg ∧ a = .status st ∧
        st ≠ .success ∧ m = ⟨false, errorSender, chatroomStatusAsLiteral st⟩) ∨
      ∃ id n msgs, c = .poll id n ∧ a = .polled .success (some msgs) ∧ m ∈ msgs := by
  cases c with
  | sendGlobalMsgFromId id msg =>
    cases a with
    | status st =>
      by_cases hst : st = .success
      · simp [noticesOf, hst] at h
      · exact .inl ⟨id, msg, st, rfl, rfl, hst⟩
    | _ => simp [noticesOf] at h
  | sendPrivateMsgFromId receiver id msg =>
    cases a with
    | status st =>
      by_cases hst : st = .success
      · simp [noticesOf, hst] at h
      · refine .inr (.inl ⟨receiver, id, msg, st, rfl, rfl, hst, ?_⟩)
        simpa [noticesOf, hst] using h
    | _ => simp [noticesOf] at h
  | poll id n =>
    cases a with
    | polled st msgs =>
      cases st with
      | success =>
        cases msgs with
        | some msgs => exact .inr (.inr ⟨id, n, msgs, rfl, rfl, h⟩)
        | none => simp [noticesOf] at h
      | _ => simp [noticesOf] at h
    | _ => simp [noticesOf] at h
  | _ => simp [noticesOf] at h

/-- What was received is true. -/
theorem screen_of_received (h : (chatSystem username).Reachable s) {before after : List RoomCall}
    (hlog : logCalls s.log = before ++ after) (hgenuine : Genuine s.log m)
    (hreceived : Received before id name m) :
    Screen username s id (clientPrintReceivedMsg m) := by
  obtain ⟨pre, c, mid, rfl, hsends, hlogged⟩ := hreceived
  have hmem : c ∈ logCalls s.log := by
    rw [hlog]
    simp
  obtain ⟨⟨sender, c', a⟩, hentry, rfl⟩ := List.mem_map.mp hmem
  obtain ⟨hby, -⟩ := call_bySelf h hentry
  have hsplit : ∀ p rest, c' :: mid = p ++ rest →
      logCalls s.log = (pre ++ p) ++ (rest ++ after) := fun p rest hp => by
    rw [hlog, show (sender, c', a).2.1 = c' from rfl, hp]
    simp
  have hpre : logCalls s.log = pre ++ (c' :: mid ++ after) := by
    simpa using hsplit [] (c' :: mid) rfl
  -- Somebody who was logged in has sent it, or the server has.
  have huser : (roomAfter pre).user sender = some m.user →
      m.user = username sender ∧ validName m.user = true := fun hid =>
    ⟨username_of_user h hpre hid, (roomAfter_ok pre).valid hid⟩
  obtain ⟨generalMsg, user, text⟩ := m
  cases hsends with
  | generalFromId hlen hid hgeneral =>
    obtain rfl := hby
    obtain ⟨hname, hvalid⟩ := huser hid
    rw [clientPrintReceivedMsg_user hvalid]
    simp only at hgeneral hname
    subst hgeneral hname
    exact .general (typed_of_sent h hentry List.mem_cons_self)
  | general hlen hgeneral =>
    have hroot : user = rootSender := hby
    subst hroot
    rw [clientPrintReceivedMsg_root rfl]
    obtain ⟨-, user, name', hlogin, hcases⟩ := hgenuine.root rfl
    obtain ⟨-, hproper⟩ := call_bySelf h hlogin
    obtain rfl : name' = username user := hproper
    rcases hcases with rfl | ⟨rfl, hlogout⟩
    · exact .login hlogin
    · exact .logout hlogin hlogout
  | directFromId hlen hid hdirect =>
    obtain rfl := hby
    obtain ⟨hname, hvalid⟩ := huser hid
    have hreceiver : name = username id :=
      username_of_user h hpre (by simpa using hlogged [] (List.nil_prefix))
    rw [clientPrintReceivedMsg_user hvalid]
    simp only at hdirect hname
    subst hdirect hname hreceiver
    exact .direct (typed_of_sent h hentry List.mem_cons_self)
  | direct hlen hdirect => exact hby.elim

/-- **What is on a screen is true**: whatever all clients do, each line that a client has printed is a
message that was typed, shown behind the name that the client of the sender was started with, and
if it is a private message it was typed for the name of this client; or it announces a login or a
logout that happened; or it says that nobody has the name for which a private message was typed
here. -/
theorem screen_true (h : (chatSystem username).Reachable s)
    (hm : m ∈ (s.place id).client.shown) : Screen username s id (clientPrintReceivedMsg m) := by
  obtain ⟨taken, pushed, hc, hbooked⟩ := chatSystem_booked h id
  have hpushed : m ∈ pushed := hc.pushed.mem_iff.mpr (List.mem_append_left _ hm)
  obtain ⟨⟨c, a⟩, hown, hnotice⟩ := List.mem_flatMap.mp (hbooked.pushed.subset hpushed)
  have hentry := mem_own.mp hown
  obtain ⟨hby, hproper⟩ := call_bySelf h hentry
  rcases notice_cases hnotice with ⟨id', msg, st, rfl, rfl, hst⟩ |
    ⟨receiver, id', msg, st, rfl, rfl, hst, rfl⟩ | ⟨id', n, msgs, rfl, rfl, hmsgs⟩
  · -- A general message is not refused.
    exact absurd hproper hst
  · obtain rfl : st = .unknownReceiver := hproper.resolve_left hst
    obtain rfl : id' = id := hby
    rw [clientPrintReceivedMsg_error rfl]
    exact .unknown (typed_of_sent h hentry List.mem_cons_self) hentry
  · obtain rfl : id' = id := hby
    obtain ⟨before, after, hlog⟩ := List.append_of_mem hentry
    have hgenuine := (chatSystem_reachable h).1.1.polled hentry m hmsgs
    have hbefore : before ++ [(id', .poll id' n, .polled .success (some msgs))] <+: s.log := by
      rw [hlog]
      exact ⟨after, by simp⟩
    have hanswer := (atomicClients_log (chatUsers username) roomStep h).2 _ _ _ _ hbefore
    obtain ⟨name, waiting, hid, hbox, hwaits⟩ :=
      poll_answer (roomAfter_ok (logCalls before)) hanswer.symm hmsgs
    have hcalls : logCalls s.log = logCalls before ++
        logCalls ((id', .poll id' n, .polled .success (some msgs)) :: after) := by
      rw [hlog]
      exact List.map_append
    exact screen_of_received h hcalls hgenuine (received_of_waiting _ hid hbox hwaits)

theorem screen_true_ann : ∃ s : AtomicClients UInt64 RoomCall RoomAnswer User Room,
    (s.place 7).client.typed = [⟨true, literal "", asCString [104]⟩] ∧
      Screen (fun _ => ann) s 7 (clientPrintReceivedMsg ⟨true, ann, asCString [104]⟩) := by
  obtain ⟨-, s, h, -, htyped, hshown⟩ := ann_run
  have hmem : ⟨true, ann, asCString [104]⟩ ∈ (s.place 7).client.shown := by
    rw [hshown]
    exact List.mem_cons_of_mem _ List.mem_cons_self
  exact ⟨s, htyped, screen_true h hmem⟩

end Screen

end Chlibs.Chat
