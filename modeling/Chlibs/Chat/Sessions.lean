import Chlibs.Chat.Answers
import Chlibs.Chat.Delivery

/-!
# Sessions

The server of the chatroom over whole runs: any number of channels, whose requests are served at the
same time, and which may be gone at any time.

* `ChatInv` — what holds of the room and of the calls so far; `Outline`, `Settled` — of one channel.
* `chatServer_local` — **each channel keeps to its outline, whatever the others do.**
* `root_speaks` — nobody but the server speaks as `$ROOT`, and what it says happened.
* `announcements_balance` — each login and each logout is announced once.
-/

namespace Chlibs.Chat

open Infra Serial Util Rpc

/-- The calls of all channels, with their answers. -/
abbrev ChatLog := List (UInt64 × RoomCall × RoomAnswer)

/-! ## Messages -/

/-- Where a message may come from: from somebody who logged in, or it announces that somebody
did. -/
inductive Genuine (log : ChatLog) : ChatroomMessage → Prop
  | user {id : UInt64} {generalMsg : Bool} {sender msg : CString}
      (hlogin : (id, .login id sender, .status .success) ∈ log) (hvalid : validName sender = true)
      (hmsg : badMessageLen msg = false) : Genuine log ⟨generalMsg, sender, msg⟩
  | login {id : UInt64} {name : CString} (hlogin : (id, .login id name, .status .success) ∈ log)
      (hvalid : validName name = true) : Genuine log ⟨true, rootSender, loginMsg name⟩
  | logout {id : UInt64} {name : CString} (hlogin : (id, .login id name, .status .success) ∈ log)
      (hvalid : validName name = true) (hlogout : (id, .logout id, .status .success) ∈ log) :
      Genuine log ⟨true, rootSender, logoutMsg name⟩

section Genuine

variable {log log' : ChatLog} {m : ChatroomMessage} {name : CString}

theorem Genuine.mono (h : Genuine log m) (hlog : ∀ e ∈ log, e ∈ log') : Genuine log' m := by
  cases h with
  | user hlogin hvalid hmsg => exact .user (hlog _ hlogin) hvalid hmsg
  | login hlogin hvalid => exact .login (hlog _ hlogin) hvalid
  | logout hlogin hvalid hlogout => exact .logout (hlog _ hlogin) hvalid (hlog _ hlogout)

theorem validName_length (h : validName name = true) :
    0 < name.chars.length ∧ name.chars.length ≤ 20 := by
  simp only [validName, Bool.and_eq_true, decide_eq_true_eq] at h
  exact h.1

/-- `$` is in no name. -/
theorem validName_ne_root (h : validName name = true) : name ≠ rootSender := by
  rintro rfl
  revert h
  decide

theorem badMessageLen_eq_false {msg : CString} : badMessageLen msg = false ↔
    0 < msg.chars.length ∧ msg.chars.length ≤ chatroomMaxMessageLen := by
  simp only [badMessageLen, Bool.or_eq_false_iff, decide_eq_false_iff_not, not_lt]
  omega

theorem announcement_length (h : validName name = true) :
    badMessageLen (loginMsg name) = false ∧ badMessageLen (logoutMsg name) = false := by
  obtain ⟨hpos, hle⟩ := validName_length h
  have hin : (literal " has logged in").chars.length = 14 := by decide
  have hout : (literal " has logged out").chars.length = 15 := by decide
  simp only [badMessageLen_eq_false, loginMsg, logoutMsg, sAppend, List.length_append, hin, hout,
    chatroomMaxMessageLen]
  omega

theorem Genuine.short (h : Genuine log m) : m.Short := by
  have hroot : rootSender.chars.length ≤ 20 := by decide
  cases h with
  | user _ hvalid hmsg => exact ⟨(validName_length hvalid).2, (badMessageLen_eq_false.mp hmsg).2⟩
  | login _ hvalid =>
    exact ⟨hroot, (badMessageLen_eq_false.mp (announcement_length hvalid).1).2⟩
  | logout _ hvalid _ =>
    exact ⟨hroot, (badMessageLen_eq_false.mp (announcement_length hvalid).2).2⟩

end Genuine

/-! ## The room -/

/-- Who is logged in did log in, and all messages are genuine. -/
structure ChatInv (room : Room) (log : ChatLog) : Prop where
  ok : room.Ok
  known : ∀ {id name}, room.user id = some name →
    (id, .login id name, .status .success) ∈ log
  waiting : ∀ {name msgs}, room.box name = some msgs → ∀ m ∈ msgs, Genuine log m
  polled : ∀ {id c st msgs}, (id, c, .polled st (some msgs)) ∈ log → ∀ m ∈ msgs, Genuine log m

/-- What a channel may call: it speaks for itself, or makes an announcement. -/
def Allowed (log : ChatLog) (id : UInt64) : RoomCall → Prop
  | .login id' _ => id' = id
  | .logout id' => id' = id
  | .sendGlobalMsg sender msg => Genuine log ⟨true, sender, msg⟩
  | .sendPrivateMsg _ _ _ => False
  | _ => True

section Room

variable {room : Room} {log : ChatLog} {id : UInt64} {c : RoomCall}

/-- What a call makes of who is logged in. -/
theorem roomStep_user_cases (room : Room) (c : RoomCall) :
    (roomStep room c).2.user = room.user ∨
      (∃ id name, c = .login id name ∧ (roomStep room c).1 = .status .success ∧
        (roomStep room c).2.user = Function.update room.user id (some name)) ∨
      ∃ id, c = .logout id ∧ (roomStep room c).1 = .status .success ∧
        (roomStep room c).2.user = Function.update room.user id none := by
  cases c with
  | login id username =>
    simp only [roomStep]
    split_ifs
    · exact .inl rfl
    · exact .inl rfl
    · exact .inr (.inl ⟨id, username, rfl, rfl, rfl⟩)
    · exact .inl rfl
  | logout id =>
    simp only [roomStep]
    split
    · exact .inl rfl
    · exact .inr (.inr ⟨id, rfl, rfl, rfl⟩)
  | getUsername id => exact .inl rfl
  | sendGlobalMsgFromId id msg =>
    simp only [roomStep]
    split_ifs
    · exact .inl rfl
    · split <;> exact .inl rfl
  | sendGlobalMsg sender msg =>
    simp only [roomStep]
    split_ifs <;> exact .inl rfl
  | sendPrivateMsgFromId receiver id msg =>
    simp only [roomStep]
    split_ifs
    · exact .inl rfl
    · split
      · exact .inl rfl
      · exact .inl (deliver_user _ _)
  | sendPrivateMsg receiver sender msg =>
    simp only [roomStep]
    split_ifs
    · exact .inl rfl
    · exact .inl (deliver_user _ _)
  | poll id outBufLen =>
    simp only [roomStep]
    split_ifs
    · exact .inl rfl
    · split <;> exact .inl rfl

/-- What is polled was in a mailbox. -/
theorem polled_mem {st : ChatroomStatus} {msgs : List ChatroomMessage}
    (h : (roomStep room c).1 = .polled st (some msgs)) {m : ChatroomMessage} (hm : m ∈ msgs) :
    ∃ name before, room.box name = some before ∧ m ∈ before := by
  cases c with
  | poll id outBufLen =>
    simp only [roomStep] at h
    split_ifs at h with hlen
    · cases h
      simp at hm
    · split at h
      · cases h
      · next username hid =>
        cases h
        have hm := List.mem_reverse.mp (List.mem_of_mem_take hm)
        cases hbox : room.box username with
        | none => simp [hbox] at hm
        | some before =>
          rw [hbox] at hm
          exact ⟨username, before, hbox, hm⟩
  | _ =>
    simp only [roomStep, Room.deliver] at h
    repeat' split at h
    all_goals cases h

/-- What is sent is genuine. -/
theorem genuine_of_addressed (h : ChatInv room log) (hc : Allowed log id c) {name : CString}
    {m : ChatroomMessage} (hm : m ∈ addressed room name c) : Genuine log m := by
  have huser : ∀ {generalMsg id' msg}, badMessageLen msg = false →
      m ∈ ((room.user id').map fun sender => (⟨generalMsg, sender, msg⟩ : ChatroomMessage)).toList →
      Genuine log m := by
    intro generalMsg id' msg hmsg hm
    rw [Option.mem_toList] at hm
    obtain ⟨sender, hid, rfl⟩ := Option.map_eq_some_iff.mp hm
    exact .user (h.known hid) (h.ok.valid hid) hmsg
  cases c with
  | sendGlobalMsgFromId id' msg =>
    simp only [addressed] at hm
    split_ifs at hm with hbad
    · simp at hm
    · exact huser (by simpa using hbad) hm
  | sendGlobalMsg sender msg =>
    simp only [addressed] at hm
    split_ifs at hm with hbad
    · simp at hm
    · rw [List.mem_singleton.mp hm]
      exact hc
  | sendPrivateMsgFromId receiver id' msg =>
    simp only [addressed] at hm
    split_ifs at hm with hbad
    · simp at hm
    · exact huser (by simpa using (not_or.mp hbad).1) hm
  | sendPrivateMsg receiver sender msg => exact hc.elim
  | login id' username => simp [addressed] at hm
  | logout id' => simp [addressed] at hm
  | getUsername id' => simp [addressed] at hm
  | poll id' outBufLen => simp [addressed] at hm

/-- **An allowed call keeps the room and the log in order**, and no other channel sees a
difference. -/
theorem ChatInv.step (h : ChatInv room log) (hc : Allowed log id c) :
    ChatInv (roomStep room c).2 (log ++ [(id, c, (roomStep room c).1)]) where
  ok := h.ok.step c
  known {id' name} hid := by
    have hmono : ∀ {e}, e ∈ log → e ∈ log ++ [(id, c, (roomStep room c).1)] :=
      List.mem_append_left _
    rcases roomStep_user_cases room c with huser | ⟨id₁, name₁, rfl, hans, huser⟩ |
      ⟨id₁, rfl, hans, huser⟩
    · rw [huser] at hid
      exact hmono (h.known hid)
    · obtain rfl : id₁ = id := hc
      rw [huser] at hid
      by_cases hi : id' = id₁
      · rw [hi, Function.update_self, Option.some.injEq] at hid
        rw [hans, hi, hid]
        exact List.mem_append_right _ List.mem_cons_self
      · rw [Function.update_of_ne hi] at hid
        exact hmono (h.known hid)
    · rw [huser] at hid
      by_cases hi : id' = id₁
      · rw [hi, Function.update_self] at hid
        cases hid
      · rw [Function.update_of_ne hi] at hid
        exact hmono (h.known hid)
  waiting {name msgs} hbox m hm := by
    refine Genuine.mono ?_ fun e he => List.mem_append_left _ he
    cases hbefore : room.box name with
    | none =>
      rcases roomStep_box_none h.ok hbefore c with hnone | ⟨hnew, -, -⟩
      · rw [hnone] at hbox
        cases hbox
      · rw [hnew] at hbox
        cases hbox
        cases hm
    | some before =>
      rcases roomStep_box hbefore c with ⟨_, -, -, hnone⟩ | ⟨after, hafter, hperm⟩
      · rw [hnone] at hbox
        cases hbox
      · rw [hafter] at hbox
        cases hbox
        rcases List.mem_append.mp (hperm.mem_iff.mpr (List.mem_append_right _ hm)) with hm | hm
        · exact h.waiting hbefore m hm
        · exact genuine_of_addressed h hc hm
  polled {id' c' st msgs} he m hm := by
    refine Genuine.mono ?_ fun e he => List.mem_append_left _ he
    rcases List.mem_append.mp he with he | he
    · exact h.polled he m hm
    · have hans : (roomStep room c).1 = .polled st (some msgs) :=
        (congrArg (fun e : UInt64 × RoomCall × RoomAnswer => e.2.2) (List.mem_singleton.mp he)).symm
      obtain ⟨name, before, hbox, hmem⟩ := polled_mem hans hm
      exact h.waiting hbox m hmem

/-- What a channel sees: the name that it is logged in under, and its own calls. -/
abbrev Seen := Option CString × List (RoomCall × RoomAnswer)

def seen (id : UInt64) (room : Room) (log : ChatLog) : Seen := (room.user id, own id log)

theorem seen_others (hc : Allowed log id c) {u : UInt64} (hu : u ≠ id) :
    seen u (roomStep room c).2 (log ++ [(id, c, (roomStep room c).1)]) = seen u room log := by
  rw [seen, own_snoc_of_ne hu]
  refine congrArg (·, own u log) ?_
  rcases roomStep_user_cases room c with huser | ⟨_, _, rfl, -, huser⟩ | ⟨_, rfl, -, huser⟩
  · rw [huser]
  · obtain rfl := hc
    rw [huser, Function.update_of_ne hu]
  · obtain rfl := hc
    rw [huser, Function.update_of_ne hu]

end Room

/-! ## Announcements -/

/-- An announcement that went through. -/
def announces (msg : CString) : RoomCall × RoomAnswer → Bool
  | (.sendGlobalMsg sender msg', .status .success) => sender = rootSender ∧ msg' = msg
  | _ => false

/-- An announcement of a logout, of whoever it was. -/
def announcesLogout : RoomCall × RoomAnswer → Bool
  | (.sendGlobalMsg sender msg, .status .success) =>
    sender = rootSender ∧ (literal " has logged out").chars <:+ msg.chars
  | _ => false

/-- A login under a name that succeeded. -/
def loggedIn (name : CString) : RoomCall × RoomAnswer → Bool
  | (.login _ name', .status .success) => name' = name
  | _ => false

/-- A logout that succeeded. -/
def loggedOut : RoomCall × RoomAnswer → Bool
  | (.logout _, .status .success) => true
  | _ => false

/-- Neither of these, and no announcement. -/
def quiet : RoomCall × RoomAnswer → Bool
  | (.login _ _, .status .success) => false
  | (.logout _, .status .success) => false
  | (.sendGlobalMsg _ _, _) => false
  | _ => true

/-- Nothing is to be announced: the channel was logged in and out in turn, each time it said so at
once, and it announced nothing else. -/
inductive Settled : Seen → Prop
  | new : Settled (none, [])
  | quiet {user : Option CString} {calls : List (RoomCall × RoomAnswer)} {e : RoomCall × RoomAnswer}
      (h : Settled (user, calls)) (he : quiet e = true) : Settled (user, calls ++ [e])
  | login {id : UInt64} {name : CString} {calls : List (RoomCall × RoomAnswer)}
      (h : Settled (none, calls)) :
      Settled (some name, calls ++ [(.login id name, .status .success)]
        ++ [(.sendGlobalMsg rootSender (loginMsg name), .status .success)])
  | logout {id : UInt64} {name : CString} {calls : List (RoomCall × RoomAnswer)}
      (h : Settled (some name, calls)) :
      Settled (none, calls ++ [(.logout id, .status .success)]
        ++ [(.sendGlobalMsg rootSender (logoutMsg name), .status .success)])

/-- Whether it is this name. -/
def one (o : Option CString) (name : CString) : Nat := if o = some name then 1 else 0

section Settled

variable {v : Seen} {name : CString}

theorem loginMsg_inj {name' : CString} : loginMsg name = loginMsg name' ↔ name = name' := by
  refine ⟨fun h => CString.ext ?_, congrArg loginMsg⟩
  exact List.append_cancel_right (congrArg CString.chars h)

theorem logoutMsg_inj {name' : CString} : logoutMsg name = logoutMsg name' ↔ name = name' := by
  refine ⟨fun h => CString.ext ?_, congrArg logoutMsg⟩
  exact List.append_cancel_right (congrArg CString.chars h)

/-- The last letters are different. -/
theorem not_suffix_loginMsg (name : CString) :
    ¬(literal " has logged out").chars <:+ (loginMsg name).chars := by
  rintro ⟨rest, h⟩
  have hlast := congrArg List.getLast? h
  have hin : (literal " has logged in").chars.getLast? = some 110 := by decide
  have hout : (literal " has logged out").chars.getLast? = some 116 := by decide
  simp [loginMsg, sAppend, List.getLast?_append, hin, hout] at hlast

theorem loginMsg_ne_logoutMsg (name name' : CString) : loginMsg name ≠ logoutMsg name' :=
  fun h => not_suffix_loginMsg name (h ▸ List.suffix_append _ _)

/-- What is quiet is counted nowhere. -/
theorem of_quiet {e : RoomCall × RoomAnswer} (h : quiet e = true) :
    (∀ msg, announces msg e = false) ∧ announcesLogout e = false ∧
      (∀ name, loggedIn name e = false) ∧ loggedOut e = false := by
  obtain ⟨c, a⟩ := e
  cases c <;> cases a with
  | status st => cases st <;> simp_all [quiet, announces, announcesLogout, loggedIn, loggedOut]
  | _ => simp_all [quiet, announces, announcesLogout, loggedIn, loggedOut]

/-- Each login is announced. -/
theorem Settled.logins (h : Settled v) (name : CString) :
    v.2.countP (announces (loginMsg name)) = v.2.countP (loggedIn name) := by
  induction h with
  | new => rfl
  | quiet _ he ih =>
    obtain ⟨hannounces, -, hin, -⟩ := of_quiet he
    simpa [List.countP_append, hannounces, hin] using ih
  | @login id name' calls _ ih =>
    simp only [List.countP_append, List.countP_singleton]
    simp [announces, loggedIn, loginMsg_inj, ih]
  | @logout id name' calls _ ih =>
    have hne := (loginMsg_ne_logoutMsg name name').symm
    simpa [List.countP_append, announces, loggedIn, hne] using ih

/-- Each logout is announced. -/
theorem Settled.logouts (h : Settled v) : v.2.countP announcesLogout = v.2.countP loggedOut := by
  induction h with
  | new => rfl
  | quiet _ he ih =>
    obtain ⟨-, hannounces, -, hout⟩ := of_quiet he
    simpa [List.countP_append, hannounces, hout] using ih
  | @login id name' calls _ ih =>
    simpa [List.countP_append, announcesLogout, loggedOut, not_suffix_loginMsg] using ih
  | @logout id name' calls _ ih =>
    have hsuffix : (literal " has logged out").chars <:+ (logoutMsg name').chars :=
      List.suffix_append _ _
    simp only [List.countP_append, List.countP_singleton]
    simp [announcesLogout, loggedOut, hsuffix, ih]

/-- Of every name there are as many announcements that somebody logged in under it as that somebody
logged out, but for who is logged in. -/
theorem Settled.balance (h : Settled v) (name : CString) : v.2.countP (announces (loginMsg name))
    = v.2.countP (announces (logoutMsg name)) + one v.1 name := by
  induction h with
  | new => rfl
  | quiet _ he ih =>
    simpa [List.countP_append, (of_quiet he).1] using ih
  | @login id name' calls _ ih =>
    have hne := loginMsg_ne_logoutMsg name' name
    simpa [List.countP_append, announces, loginMsg_inj, hne, one] using ih
  | @logout id name' calls _ ih =>
    have hne := (loginMsg_ne_logoutMsg name name').symm
    simpa [List.countP_append, announces, logoutMsg_inj, hne, one] using ih

end Settled

/-! ## One channel -/

section Outline

variable {β : Type} {id : UInt64} {Q : Seen → β → Prop} {v : Seen}

/-- The program of a channel that sees `v` makes allowed calls and ends in `Q`, whatever the others
call in between. -/
def Outline (id : UInt64) (Q : Seen → β → Prop) : EpProg β → Seen → Prop
  | .done r, v => Q v r
  | .fault, _ => False
  | .perform c k, v => ∀ room log, ChatInv room log → seen id room log = v → Allowed log id c ∧
      Outline id Q (k (roomStep room c).1)
        (seen id (roomStep room c).2 (log ++ [(id, c, (roomStep room c).1)]))

/-- What a channel sees after a call. -/
theorem seen_snoc {room room' : Room} {log : ChatLog} (c : RoomCall) (a : RoomAnswer)
    (hseen : seen id room log = v) :
    seen id room' (log ++ [(id, c, a)]) = (room'.user id, v.2 ++ [(c, a)]) := by
  rw [seen, own_snoc_self, ← hseen]
  rfl

/-- A call that answers with a status. -/
theorem outline_status {c : RoomCall} {f : ChatroomStatus → EpProg β}
    (h : ∀ room log, ChatInv room log → seen id room log = v → Allowed log id c ∧
      ∃ st, (roomStep room c).1 = .status st ∧
        Outline id Q (f st) ((roomStep room c).2.user id, v.2 ++ [(c, .status st)])) :
    Outline id Q (callStatus c >>= f) v := by
  intro room log hinv hseen
  obtain ⟨hallowed, st, hans, hrest⟩ := h room log hinv hseen
  refine ⟨hallowed, ?_⟩
  rw [hans, seen_snoc c _ hseen]
  exact hrest

/-- **An announcement goes through.** -/
theorem outline_announce {msg : CString} {f : ChatroomStatus → EpProg β}
    (hmsg : badMessageLen msg = false)
    (hgenuine : ∀ log, own id log = v.2 → Genuine log ⟨true, rootSender, msg⟩)
    (h : Outline id Q (f .success)
      (v.1, v.2 ++ [(.sendGlobalMsg rootSender msg, .status .success)])) :
    Outline id Q (callStatus (.sendGlobalMsg rootSender msg) >>= f) v := by
  refine outline_status fun room log hinv hseen => ⟨hgenuine log ?_, .success, ?_, ?_⟩
  · rw [← hseen]
    rfl
  · simp [roomStep, hmsg]
  · have huser : (roomStep room (.sendGlobalMsg rootSender msg)).2.user id = v.1 := by
      rw [← hseen]
      simp [roomStep, hmsg, Room.broadcast, seen]
    rw [huser]
    exact h

/-- A call that changes nobody's login and announces nothing, and after which the channel is
done. -/
theorem outline_last {c : RoomCall} {f : ChatroomStatus → β} (hv : Settled v)
    (hallowed : ∀ log, Allowed log id c) (hquiet : ∀ a, quiet (c, a) = true)
    (hstatus : ∀ room : Room, (∃ st, (roomStep room c).1 = .status st) ∧
      (roomStep room c).2.user = room.user)
    (hQ : ∀ v st, Settled v → Q v (f st)) :
    Outline id Q (callStatus c >>= fun st => pure (f st)) v := by
  refine outline_status fun room log _ hseen => ?_
  obtain ⟨⟨st, hans⟩, huser⟩ := hstatus room
  refine ⟨hallowed log, st, hans, hQ _ st ?_⟩
  have hseen' : room.user id = v.1 := congrArg Prod.fst hseen
  rw [huser, hseen']
  exact hv.quiet (hquiet _)

end Outline

/-! ## Endpoints -/

section Endpoints

variable {id : UInt64} {v : Seen} {ep : Endpoint} {args : List ChrpcValue}

/-- After a request, nothing is to be announced. -/
def Served (ep : Endpoint) (v : Seen) (ret : EpRet) : Prop := Settled v ∧ EpAnswers ep ret

/-- After a channel is gone, neither, and it is logged out. -/
def Left (v : Seen) (_ : Unit) : Prop := Settled v ∧ v.1 = none

/-- A login succeeds for a name that is allowed, or changes nothing. -/
theorem roomStep_login (room : Room) (id : UInt64) (name : CString) :
    ((roomStep room (.login id name)).1 = .status .success ∧ validName name = true ∧
        room.user id = none ∧
        (roomStep room (.login id name)).2.user = Function.update room.user id (some name)) ∨
      ∃ st, st ≠ .success ∧ roomStep room (.login id name) = (.status st, room) := by
  simp only [roomStep]
  split_ifs with hvalid hid hbox
  · exact .inr ⟨_, by simp, rfl⟩
  · exact .inr ⟨_, by simp, rfl⟩
  · exact .inl ⟨rfl, hvalid, by simpa using hid, rfl⟩
  · exact .inr ⟨_, by simp, rfl⟩

theorem chatroomLoginEp_outline {username : CString} (hep : ep.ret = some statusType)
    (harg : argStr args 0 = some username) (hv : Settled v) :
    Outline id (Served ep) (chatroomLoginEp id args) v := by
  unfold chatroomLoginEp
  rw [harg]
  refine outline_status fun room log hinv hseen => ⟨rfl, ?_⟩
  obtain ⟨user, calls⟩ := v
  have huser : room.user id = user := congrArg Prod.fst hseen
  rcases roomStep_login room id username with ⟨hans, hvalid, hid, hnew⟩ | ⟨st, hst, hans⟩
  · -- The channel is logged in, and says so.
    obtain rfl : user = none := huser.symm.trans hid
    refine ⟨.success, hans, ?_⟩
    rw [hnew, Function.update_self]
    refine outline_announce (announcement_length hvalid).1 (fun log' hlog' => ?_) ?_
    · have hmem : (RoomCall.login id username, RoomAnswer.status .success) ∈ own id log' := by
        rw [hlog']
        exact List.mem_append_right _ List.mem_cons_self
      exact .login (mem_own.mp hmem) hvalid
    · exact ⟨hv.login, returnStatus_answers hep .success⟩
  · rw [hans, huser]
    refine ⟨st, rfl, ?_⟩
    cases st with
    | success => exact absurd rfl hst
    | _ => exact ⟨hv.quiet rfl, returnStatus_answers hep _⟩

theorem chatroomSendGlobalMsgEp_outline {msg : CString} (hep : ep.ret = some statusType)
    (harg : argStr args 0 = some msg) (hv : Settled v) :
    Outline id (Served ep) (chatroomSendGlobalMsgEp id args) v := by
  unfold chatroomSendGlobalMsgEp
  rw [harg]
  refine outline_last hv (fun _ => trivial) (fun _ => rfl) (fun room => ?_)
    fun v st hv => ⟨hv, returnStatus_answers hep st⟩
  simp only [roomStep]
  split_ifs
  · exact ⟨⟨_, rfl⟩, rfl⟩
  · split <;> exact ⟨⟨_, rfl⟩, rfl⟩

theorem chatroomSendPrivateMsgEp_outline {receiver msg : CString} (hep : ep.ret = some statusType)
    (hreceiver : argStr args 0 = some receiver) (hmsg : argStr args 1 = some msg)
    (hv : Settled v) : Outline id (Served ep) (chatroomSendPrivateMsgEp id args) v := by
  unfold chatroomSendPrivateMsgEp
  rw [hreceiver, hmsg]
  refine outline_last hv (fun _ => trivial) (fun _ => rfl) (fun room => ?_)
    fun v st hv => ⟨hv, returnStatus_answers hep st⟩
  simp only [roomStep]
  split_ifs
  · exact ⟨⟨_, rfl⟩, rfl⟩
  · split
    · exact ⟨⟨_, rfl⟩, rfl⟩
    · refine ⟨?_, deliver_user _ _⟩
      unfold Room.deliver
      split <;> exact ⟨_, rfl⟩

/-- A poll answers with no more messages than were asked for. -/
theorem roomStep_poll (room : Room) (id : UInt64) {n : Nat} (hn : n ≠ 0) :
    (roomStep room (.poll id n)).2.user = room.user ∧
      ((∃ msgs, (roomStep room (.poll id n)).1 = .polled .success (some msgs) ∧
          msgs.length ≤ n) ∨
        (roomStep room (.poll id n)).1 = .polled .channelNotRegistered none) := by
  simp only [roomStep, if_neg hn]
  split
  · exact ⟨rfl, .inr rfl⟩
  · refine ⟨rfl, .inl ⟨_, rfl, ?_⟩⟩
    rw [List.length_take]
    exact (Nat.min_le_left _ _).trans (Nat.min_le_right _ _)

theorem chatroomPollEp_outline (hep : ep.ret = some (.array messageType)) (hv : Settled v) :
    Outline id (Served ep) (chatroomPollEp id args) v := by
  intro room log hinv hseen
  refine ⟨trivial, ?_⟩
  obtain ⟨user, calls⟩ := v
  have hid : room.user id = user := congrArg Prod.fst hseen
  obtain ⟨huser, hcases⟩ := roomStep_poll room id (n := pollSize) (by decide)
  rw [seen_snoc _ _ hseen, huser, hid]
  have hsettled : ∀ a, Settled (user, calls ++ [(.poll id pollSize, a)]) := fun a => hv.quiet rfl
  rcases hcases with ⟨msgs, hans, hlen⟩ | hans
  · have hshort : ∀ m ∈ msgs, m.Short := fun m hm => by
      obtain ⟨name, before, hbox, hmem⟩ := polled_mem hans hm
      exact (hinv.waiting hbox m hmem).short
    rw [hans]
    simp only [pollValue_eq]
    exact ⟨hsettled _, msgsValue_answers hep hshort hlen⟩
  · rw [hans]
    exact ⟨hsettled _, msgsValue_answers hep (List.forall_mem_nil _) (Nat.zero_le _)⟩

/-- **A channel that is gone is logged out**, which is announced. -/
theorem chatroomOnDisconnect_outline (hv : Settled v) :
    Outline id Left (chatroomOnDisconnect id) v := by
  intro room log hinv hseen
  refine ⟨trivial, ?_⟩
  obtain ⟨user, calls⟩ := v
  have hid : room.user id = user := congrArg Prod.fst hseen
  have hcalls : own id log = calls := congrArg Prod.snd hseen
  have hans : (roomStep room (.getUsername id)).1 = .username user := by rw [← hid]; rfl
  rw [seen_snoc _ _ hseen, hans, show (roomStep room (.getUsername id)).2.user id = user from hid]
  have hsettled : Settled (user, calls ++ [(.getUsername id, .username user)]) := hv.quiet rfl
  -- Nobody else logs the channel in or out, so its name is still what it was.
  refine outline_status fun room' log' hinv' hseen' => ⟨rfl, ?_⟩
  have hid' : room'.user id = user := congrArg Prod.fst hseen'
  cases user with
  | none =>
    refine ⟨.channelNotRegistered, by simp [roomStep, hid'], ?_⟩
    have hnone : (roomStep room' (.logout id)).2.user id = none := by simp [roomStep, hid']
    rw [hnone]
    exact ⟨hsettled.quiet rfl, rfl⟩
  | some username =>
    refine ⟨.success, by simp [roomStep, hid'], ?_⟩
    have hnone : (roomStep room' (.logout id)).2.user id = none := by simp [roomStep, hid']
    have hvalid := hinv.ok.valid hid
    have hlogin : (.login id username, .status .success) ∈ calls :=
      hcalls ▸ mem_own.mpr (hinv.known hid)
    rw [hnone]
    refine outline_announce (announcement_length hvalid).2 (fun log'' hlog'' => ?_) ?_
    · have hmem : (RoomCall.login id username, RoomAnswer.status .success) ∈ own id log'' := by
        rw [hlog'']
        exact List.mem_append_left _ (List.mem_append_left _ hlogin)
      have hlogout : (RoomCall.logout id, RoomAnswer.status .success) ∈ own id log'' := by
        rw [hlog'']
        exact List.mem_append_right _ List.mem_cons_self
      exact .logout (mem_own.mp hmem) hvalid (mem_own.mp hlogout)
    · exact ⟨hsettled.logout, rfl⟩

end Endpoints

/-! ## All channels -/

/-- A channel by what it sees and by where its worker is. -/
def JobOk (id : UInt64) (v : Seen) : Job → Prop
  | .idle => Settled v
  | .serving ep p => Outline id (Served ep) p v
  | .leaving p => Outline id Left p v
  | .gone => Left v ()

section Server

/-- A string argument that was checked is a string. -/
theorem argStr_of_sound {args : List ChrpcValue} {n i : Nat} (hi : i < n)
    (htypes : args.map ChrpcValue.type = List.replicate n (.prim .string))
    (hargs : ∀ arg ∈ args, SoundArg arg) : ∃ s, argStr args i = some s := by
  have hlen : i < args.length := by
    rw [← List.length_map ChrpcValue.type, htypes, List.length_replicate]
    exact hi
  have htype : args[i].type = .prim .string := by
    have hget : (args.map ChrpcValue.type)[i]? = some (.prim .string) := by
      rw [htypes, List.getElem?_replicate, if_pos hi]
    rw [List.getElem?_map, List.getElem?_eq_getElem hlen] at hget
    exact Option.some.inj hget
  obtain ⟨hsized, hends⟩ := hargs args[i] (List.getElem_mem hlen)
  rw [htype] at hsized
  obtain ⟨b, hb, -⟩ := InnerValue.sized_string_iff.mp hsized
  have hnul : (0 : UInt8) ∈ b := hends b (by simp [hb, InnerValue.stringBlocks])
  refine ⟨⟨cString b, zero_notMem_cString b⟩, ?_⟩
  unfold argStr
  rw [List.getElem?_map, List.getElem?_eq_getElem hlen, Option.map_some, hb]
  exact if_pos hnul

theorem endpoint_outline {id : UInt64} {v : Seen} {ep : Endpoint}
    {func : UInt64 → List ChrpcValue → EpProg EpRet} {args : List ChrpcValue}
    (hep : (ep, func) ∈ chatEndpoints) (htypes : args.map ChrpcValue.type = ep.args)
    (hargs : ∀ arg ∈ args, SoundArg arg) (hv : Settled v) :
    Outline id (Served ep) (func id args) v := by
  simp only [chatEndpoints, List.mem_cons, Prod.mk.injEq, List.not_mem_nil, or_false] at hep
  rcases hep with ⟨rfl, rfl⟩ | ⟨rfl, rfl⟩ | ⟨rfl, rfl⟩ | ⟨rfl, rfl⟩
  · obtain ⟨username, harg⟩ := argStr_of_sound Nat.zero_lt_one htypes hargs
    exact chatroomLoginEp_outline rfl harg hv
  · obtain ⟨msg, harg⟩ := argStr_of_sound Nat.zero_lt_one htypes hargs
    exact chatroomSendGlobalMsgEp_outline rfl harg hv
  · obtain ⟨receiver, hreceiver⟩ := argStr_of_sound Nat.zero_lt_two htypes hargs
    obtain ⟨msg, hmsg⟩ := argStr_of_sound Nat.one_lt_two htypes hargs
    exact chatroomSendPrivateMsgEp_outline rfl hreceiver hmsg hv
  · exact chatroomPollEp_outline rfl hv

/-- **Each channel keeps to its outline**, whatever the others do. -/
theorem chatServer_local : Local chatClients roomStep .empty ChatInv seen JobOk where
  init := ⟨⟨Room.ok_empty, nofun, nofun, nofun⟩, fun _ => .new⟩
  moves := by
    intro id v job job' hjob hmoves
    cases hmoves with
    | serves hep htypes hargs => exact endpoint_outline hep htypes hargs hjob
    | answers => exact hjob.1
    | disconnects => exact chatroomOnDisconnect_outline hjob
    | goes => exact hjob
  calls := by
    intro id room log job c k hinv hjob hcalls
    cases hcalls with
    | serving =>
      obtain ⟨hallowed, hrest⟩ := hjob room log hinv rfl
      exact ⟨hinv.step hallowed, hrest, fun u hu => seen_others hallowed hu⟩
    | leaving =>
      obtain ⟨hallowed, hrest⟩ := hjob room log hinv rfl
      exact ⟨hinv.step hallowed, hrest, fun u hu => seen_others hallowed hu⟩

variable {s : AtomicClients UInt64 RoomCall RoomAnswer Job Room} {id : UInt64}

theorem chatServer_reachable (h : chatServer.Reachable s) :
    ChatInv s.object s.log ∧ ∀ id, JobOk id (seen id s.object s.log) (s.place id) :=
  chatServer_local.reachable chatClients h

/-- A message from `$ROOT` announces a login, or a logout. -/
theorem Genuine.root {log : ChatLog} {m : ChatroomMessage} (h : Genuine log m)
    (hroot : m.user = rootSender) : m.generalMsg = true ∧
      ∃ id name, (id, .login id name, .status .success) ∈ log ∧
        (m.msg = loginMsg name ∨
          m.msg = logoutMsg name ∧ (id, .logout id, .status .success) ∈ log) := by
  cases h with
  | user _ hvalid _ => exact absurd hroot (validName_ne_root hvalid)
  | login hlogin _ => exact ⟨rfl, _, _, hlogin, .inl rfl⟩
  | logout hlogin _ hlogout => exact ⟨rfl, _, _, hlogin, .inr ⟨rfl, hlogout⟩⟩

/-- Any other message is from somebody who logged in. -/
theorem Genuine.not_root {log : ChatLog} {m : ChatroomMessage} (h : Genuine log m)
    (hroot : m.user ≠ rootSender) :
    ∃ id, (id, .login id m.user, .status .success) ∈ log := by
  cases h with
  | user hlogin _ _ => exact ⟨_, hlogin⟩
  | login => exact absurd rfl hroot
  | logout => exact absurd rfl hroot

/-! ## A login -/

/-- A string is an argument. -/
theorem strArg_sound {s : CString} (h : s.block.length < 2 ^ 32) :
    ∀ arg ∈ [newChrpcStrValue s], SoundArg arg := by
  intro arg harg
  rw [List.mem_singleton.mp harg]
  refine ⟨InnerValue.sized_string_iff.mpr ⟨_, rfl, h⟩, fun b hb => ?_⟩
  rw [List.mem_singleton.mp hb]
  simp [CString.block]

theorem annArg_sound : ∀ arg ∈ [newChrpcStrValue ann], SoundArg arg := strArg_sound (by decide)

theorem loginEp_mem : (chatEndpoint (literal "login") statusType 1 (Nat.le_succ 1),
    chatroomLoginEp) ∈ chatEndpoints := .head _

theorem pollEp_mem : (chatEndpoint (literal "poll") (.array messageType) 0 (Nat.zero_le 2),
    chatroomPollEp) ∈ chatEndpoints := .tail _ (.tail _ (.tail _ (.head _)))

/-- The state after a call. -/
def afterCall (s : AtomicClients UInt64 RoomCall RoomAnswer Job Room) (id : UInt64) (c : RoomCall)
    (k : RoomAnswer → Job) : AtomicClients UInt64 RoomCall RoomAnswer Job Room where
  object := (roomStep s.object c).2
  place := Function.update s.place id (k (roomStep s.object c).1)
  log := s.log ++ [(id, c, (roomStep s.object c).1)]

/-- A call of an endpoint. -/
theorem serving_calls {s : AtomicClients UInt64 RoomCall RoomAnswer Job Room} (id : UInt64)
    {ep : Endpoint} {c : RoomCall} {k : RoomAnswer → EpProg EpRet} (h : chatServer.Reachable s)
    (hat : s.place id = .serving ep (.perform c k)) :
    chatServer.Reachable (afterCall s id c fun a => .serving ep (k a)) := by
  have hcalls : chatClients.calls id (s.place id) c fun a => .serving ep (k a) := by
    rw [hat]
    exact .serving
  exact h.step (AtomicStep.calls hcalls)

/-- A call for a channel that is gone. -/
theorem leaving_calls {s : AtomicClients UInt64 RoomCall RoomAnswer Job Room} (id : UInt64)
    {c : RoomCall} {k : RoomAnswer → EpProg Unit} (h : chatServer.Reachable s)
    (hat : s.place id = .leaving (.perform c k)) :
    chatServer.Reachable (afterCall s id c fun a => .leaving (k a)) := by
  have hcalls : chatClients.calls id (s.place id) c fun a => .leaving (k a) := by
    rw [hat]
    exact .leaving
  exact h.step (AtomicStep.calls hcalls)

/-- Channel 7 logs in and leaves, and channel 8 logs in under its name. -/
theorem relogin_run : ∃ s, chatServer.Reachable s ∧
    (∀ id, s.place id = .idle ∨ s.place id = .gone) ∧
    own 7 s.log = [(.login 7 ann, .status .success),
      (.sendGlobalMsg rootSender (loginMsg ann), .status .success),
      (.getUsername 7, .username (some ann)), (.logout 7, .status .success),
      (.sendGlobalMsg rootSender (logoutMsg ann), .status .success)] ∧
    (s.object.box ann).isSome := by
  have hinit : chatServer.Reachable { object := .empty, place := fun _ => .idle, log := [] } :=
    .init rfl
  have hserves := hinit.step (.moves (t := 7) (.serves loginEp_mem rfl annArg_sound))
  have hlogin := serving_calls 7 hserves rfl
  have hannounce := serving_calls 7 hlogin rfl
  have hanswers := hannounce.step (.moves (t := 7) .answers)
  have hleaves := hanswers.step (.moves (t := 7) .disconnects)
  have hname := leaving_calls 7 hleaves rfl
  have hlogout := leaving_calls 7 hname rfl
  have hfarewell := leaving_calls 7 hlogout rfl
  have hgone := hfarewell.step (.moves (t := 7) .goes)
  have hserves₈ := hgone.step (.moves (t := 8) (.serves loginEp_mem rfl annArg_sound))
  have hlogin₈ := serving_calls 8 hserves₈ rfl
  have hannounce₈ := serving_calls 8 hlogin₈ rfl
  refine ⟨_, hannounce₈.step (.moves (t := 8) .answers), fun id => ?_, rfl, rfl⟩
  by_cases hid : id = 7
  · subst hid
    exact .inr rfl
  · by_cases hid' : id = 8
    · subst hid'
      exact .inl rfl
    · exact .inl (by simp [afterCall, Function.update_of_ne, hid, hid'])

/-- Channel 7 logs in, and polls. -/
theorem poll_run : ∃ s, chatServer.Reachable s ∧
    (7, .poll 7 pollSize, .polled .success (some [⟨true, rootSender, loginMsg ann⟩])) ∈ s.log := by
  have hinit : chatServer.Reachable { object := .empty, place := fun _ => .idle, log := [] } :=
    .init rfl
  have hserves := hinit.step (.moves (t := 7) (.serves loginEp_mem rfl annArg_sound))
  have hlogin := serving_calls 7 hserves rfl
  have hannounce := serving_calls 7 hlogin rfl
  have hanswers := hannounce.step (.moves (t := 7) .answers)
  have hpolls := hanswers.step (.moves (t := 7)
    (.serves pollEp_mem (rfl : [].map ChrpcValue.type = []) nofun))
  have hpoll := serving_calls 7 hpolls rfl
  exact ⟨_, hpoll, List.mem_append_right _ (List.mem_singleton.mpr rfl)⟩

/-! ## Announcements that are heard -/

/-- **Nobody but the server speaks as `$ROOT`**, and what it says happened: whoever polls a message
from `$ROOT`, it announces a login that succeeded, or a logout. Every other message is from
somebody who logged in under the name that it bears. -/
theorem root_speaks (h : chatServer.Reachable s) {c : RoomCall} {st : ChatroomStatus}
    {msgs : List ChatroomMessage} (hpolled : (id, c, .polled st (some msgs)) ∈ s.log)
    {m : ChatroomMessage} (hm : m ∈ msgs) :
    (m.user = rootSender → m.generalMsg = true ∧
      ∃ id name, (id, .login id name, .status .success) ∈ s.log ∧
        (m.msg = loginMsg name ∨
          m.msg = logoutMsg name ∧ (id, .logout id, .status .success) ∈ s.log)) ∧
      (m.user ≠ rootSender → ∃ id, (id, .login id m.user, .status .success) ∈ s.log) := by
  have hgenuine := (chatServer_reachable h).1.polled hpolled m hm
  exact ⟨hgenuine.root, hgenuine.not_root⟩

theorem root_speaks_poll : ∃ log : ChatLog, ∃ id name,
    (id, .login id name, .status .success) ∈ log ∧
      (loginMsg ann = loginMsg name ∨
        loginMsg ann = logoutMsg name ∧ (id, .logout id, .status .success) ∈ log) := by
  obtain ⟨s, h, hpolled⟩ := poll_run
  exact ⟨s.log, ((root_speaks h hpolled List.mem_cons_self).1 rfl).2⟩

/-- **Each login and each logout is announced once**: when no channel is served, every channel has
announced as many logins under a name as it has logged in under it, and as many logouts as it has
logged out. Of every name there is one more announcement of a login than of a logout if somebody is
logged in under it, and otherwise as many. -/
theorem announcements_balance (h : chatServer.Reachable s)
    (hidle : ∀ id, s.place id = .idle ∨ s.place id = .gone) :
    (∀ id, (∀ name, (own id s.log).countP (announces (loginMsg name))
        = (own id s.log).countP (loggedIn name)) ∧
      (own id s.log).countP announcesLogout = (own id s.log).countP loggedOut) ∧
      ∀ name, s.log.countP (fun e => announces (loginMsg name) e.2)
        = s.log.countP (fun e => announces (logoutMsg name) e.2)
          + if (s.object.box name).isSome then 1 else 0 := by
  obtain ⟨hinv, hjobs⟩ := chatServer_reachable h
  have hsettled : ∀ id, Settled (seen id s.object s.log) := by
    intro id
    have hjob := hjobs id
    rcases hidle id with hat | hat
    · rwa [hat] at hjob
    · rw [hat] at hjob
      exact hjob.1
  refine ⟨fun id => ⟨(hsettled id).logins, (hsettled id).logouts⟩, fun name => ?_⟩
  have hsum : ∀ S : Finset UInt64, (∀ e ∈ s.log, e.1 ∈ S) →
      s.log.countP (fun e => announces (loginMsg name) e.2)
        = s.log.countP (fun e => announces (logoutMsg name) e.2)
          + ∑ id ∈ S, one (s.object.user id) name := by
    intro S hS
    rw [countP_eq_sum_own _ hS, countP_eq_sum_own _ hS, ← Finset.sum_add_distrib]
    exact Finset.sum_congr rfl fun id _ => (hsettled id).balance name
  have hlog : ∀ e ∈ s.log, e.1 ∈ (s.log.map Prod.fst).toFinset := fun e he =>
    List.mem_toFinset.mpr (List.mem_map_of_mem he)
  by_cases hbox : (s.object.box name).isSome
  · -- One channel is logged in under the name.
    obtain ⟨id₀, hid₀⟩ := (hinv.ok.box name).mp hbox
    have hone : ∀ id, one (s.object.user id) name = if id = id₀ then 1 else 0 := by
      intro id
      unfold one
      refine if_congr ⟨fun hid => hinv.ok.own hid hid₀, ?_⟩ rfl rfl
      rintro rfl
      exact hid₀
    rw [hsum (insert id₀ (s.log.map Prod.fst).toFinset) fun e he =>
        Finset.mem_insert_of_mem (hlog e he), if_pos hbox, Finset.sum_congr rfl fun id _ => hone id,
      Finset.sum_ite_eq', if_pos (Finset.mem_insert_self ..)]
  · have hone : ∀ id, one (s.object.user id) name = 0 := fun id =>
      if_neg fun hid => hbox ((hinv.ok.box name).mpr ⟨id, hid⟩)
    rw [hsum _ hlog, if_neg hbox, Finset.sum_congr rfl fun id _ => hone id, Finset.sum_const_zero]

theorem announcements_balance_relogin : ∃ s, chatServer.Reachable s ∧
    (own 7 s.log).countP announcesLogout = (own 7 s.log).countP loggedOut ∧
      (own 7 s.log).countP loggedOut = 1 ∧
      s.log.countP (fun e => announces (loginMsg ann) e.2)
        = s.log.countP (fun e => announces (logoutMsg ann) e.2) + 1 := by
  obtain ⟨s, h, hidle, hown, hbox⟩ := relogin_run
  obtain ⟨hcounts, hbalance⟩ := announcements_balance h hidle
  have hann := hbalance ann
  rw [if_pos hbox] at hann
  refine ⟨s, h, (hcounts 7).2, ?_, hann⟩
  rw [hown]
  decide

end Server

end Chlibs.Chat
