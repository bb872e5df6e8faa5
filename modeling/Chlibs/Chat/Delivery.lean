import Chlibs.Chat.Concurrent

/-!
# What becomes of a message

Whatever the workers call on a new chatroom:

* `mailbox_conserved` — since a name has had its mailbox, each message for it was polled once, or
  waits in the mailbox.
* `polled_origin` — a polled message was sent by whom it says, to whom it came, while the receiver
  was logged in without a break.
-/

namespace Chlibs.Chat

open Infra Serial Util Rpc

/-! ## Steps of a mailbox -/

section Steps

variable {r : Room} {name : CString} {msgs : List ChatroomMessage}

/-- What a call has for a name that has a mailbox. -/
def addressed (r : Room) (name : CString) : RoomCall → List ChatroomMessage
  | .sendGlobalMsgFromId id msg =>
    if badMessageLen msg then [] else ((r.user id).map fun sender => ⟨true, sender, msg⟩).toList
  | .sendGlobalMsg sender msg => if badMessageLen msg then [] else [⟨true, sender, msg⟩]
  | .sendPrivateMsgFromId receiver id msg =>
    if badMessageLen msg ∨ receiver ≠ name then []
    else ((r.user id).map fun sender => ⟨false, sender, msg⟩).toList
  | .sendPrivateMsg receiver sender msg =>
    if badMessageLen msg ∨ receiver ≠ name then [] else [⟨false, sender, msg⟩]
  | _ => []

/-- What a call answers with from the mailbox of a name. -/
def taken (r : Room) (name : CString) : RoomCall → List ChatroomMessage
  | .poll id outBufLen =>
    if r.user id = some name then
      match (roomStep r (.poll id outBufLen)).1 with
      | .polled _ (some msgs) => msgs
      | _ => []
    else []
  | _ => []

/-- What is polled and what stays. -/
theorem poll_perm (msgs : List ChatroomMessage) (outBufLen : Nat) :
    msgs.Perm (msgs.reverse.take (pollAmount msgs.length outBufLen) ++
      msgs.take (msgs.length - pollAmount msgs.length outBufLen)) := by
  have hle : pollAmount msgs.length outBufLen ≤ msgs.length :=
    (Nat.min_le_left _ _).trans (Nat.mod_le _ _)
  generalize pollAmount msgs.length outBufLen = n at hle
  rw [List.take_reverse]
  nth_rewrite 1 [← List.take_append_drop (msgs.length - n) msgs]
  exact List.perm_append_comm.trans ((List.reverse_perm _).symm.append_right _)

theorem deliver_box (hbox : r.box name = some msgs) (receiver : CString) (m : ChatroomMessage) :
    (r.deliver receiver m).2.box name = some (msgs ++ if receiver = name then [m] else []) := by
  unfold Room.deliver
  by_cases hr : receiver = name
  · rw [hr, hbox, if_pos rfl]
    exact Function.update_self ..
  · rw [if_neg hr, List.append_nil]
    split
    · exact hbox
    · exact (Function.update_of_ne (Ne.symm hr) ..).trans hbox

theorem deliver_box_none (hbox : r.box name = none) (receiver : CString) (m : ChatroomMessage) :
    (r.deliver receiver m).2.box name = none := by
  unfold Room.deliver
  split
  · exact hbox
  · next msgs' hreceiver =>
    have hne : name ≠ receiver := by
      rintro rfl
      simp [hbox] at hreceiver
    exact (Function.update_of_ne hne ..).trans hbox

theorem deliver_user (receiver : CString) (m : ChatroomMessage) :
    (r.deliver receiver m).2.user = r.user := by
  unfold Room.deliver
  split <;> rfl

theorem broadcast_box (hbox : r.box name = some msgs) (m : ChatroomMessage) :
    (r.broadcast m).box name = some (msgs ++ [m]) := by
  simp [Room.broadcast, hbox]

/-- **What one call does to a mailbox**: the mailbox goes away with its user, or what was in it and
what the call has for it are what the call answers with and what is in it then. -/
theorem roomStep_box (hbox : r.box name = some msgs) (c : RoomCall) :
    (∃ id, c = .logout id ∧ r.user id = some name ∧ (roomStep r c).2.box name = none) ∨
      ∃ msgs', (roomStep r c).2.box name = some msgs' ∧
        (msgs ++ addressed r name c).Perm (taken r name c ++ msgs') := by
  cases c with
  | login id username =>
    right
    refine ⟨msgs, ?_, by simp [addressed, taken]⟩
    simp only [roomStep]
    split_ifs with hvalid hid hfree
    · exact hbox
    · exact hbox
    · -- The new name is another one.
      have hne : name ≠ username := by
        rintro rfl
        simp [hbox] at hfree
      exact (Function.update_of_ne hne ..).trans hbox
    · exact hbox
  | logout id =>
    simp only [roomStep]
    cases hid : r.user id with
    | none => exact .inr ⟨msgs, hbox, by simp [addressed, taken]⟩
    | some username =>
      by_cases hn : name = username
      · exact .inl ⟨id, rfl, by rw [hn]; exact hid, by simp [hn]⟩
      · exact .inr ⟨msgs, (Function.update_of_ne hn ..).trans hbox, by simp [addressed, taken]⟩
  | getUsername id => exact .inr ⟨msgs, hbox, by simp [addressed, taken]⟩
  | sendGlobalMsgFromId id msg =>
    right
    simp only [roomStep, addressed, taken]
    split_ifs with hbad
    · exact ⟨msgs, hbox, by simp⟩
    · cases hid : r.user id with
      | none => exact ⟨msgs, hbox, by simp⟩
      | some sender => exact ⟨_, broadcast_box hbox _, by simp⟩
  | sendGlobalMsg sender msg =>
    right
    simp only [roomStep, addressed, taken]
    split_ifs with hbad
    · exact ⟨msgs, hbox, by simp⟩
    · exact ⟨_, broadcast_box hbox _, by simp⟩
  | sendPrivateMsgFromId receiver id msg =>
    right
    simp only [roomStep, addressed, taken]
    by_cases hbad : badMessageLen msg = true
    · exact ⟨msgs, by rw [if_pos hbad]; exact hbox, by simp [hbad]⟩
    · rw [if_neg hbad]
      cases hid : r.user id with
      | none => exact ⟨msgs, hbox, by simp⟩
      | some sender =>
        refine ⟨_, deliver_box hbox _ _, ?_⟩
        by_cases hr : receiver = name <;> simp [hr, hbad]
  | sendPrivateMsg receiver sender msg =>
    right
    simp only [roomStep, addressed, taken]
    by_cases hbad : badMessageLen msg = true
    · exact ⟨msgs, by rw [if_pos hbad]; exact hbox, by simp [hbad]⟩
    · rw [if_neg hbad]
      refine ⟨_, deliver_box hbox _ _, ?_⟩
      by_cases hr : receiver = name <;> simp [hr, hbad]
  | poll id outBufLen =>
    right
    simp only [roomStep, addressed, taken, List.append_nil]
    by_cases hlen : outBufLen = 0
    · exact ⟨msgs, by rw [if_pos hlen]; exact hbox, by simp [hlen]⟩
    · rw [if_neg hlen]
      cases hid : r.user id with
      | none => exact ⟨msgs, hbox, by simp⟩
      | some username =>
        by_cases hn : username = name
        · -- The newest messages are taken, the others stay.
          subst hn
          refine ⟨_, Function.update_self .., ?_⟩
          simp only [hbox, if_true, Option.getD_some]
          exact poll_perm msgs outBufLen
        · refine ⟨msgs, (Function.update_of_ne (Ne.symm hn) ..).trans hbox, ?_⟩
          simp [hn]

/-- A name without a mailbox has none after a call, or a new one. -/
theorem roomStep_box_none (hok : r.Ok) (hbox : r.box name = none) (c : RoomCall) :
    (roomStep r c).2.box name = none ∨
      (roomStep r c).2.box name = some [] ∧ addressed r name c = [] ∧ taken r name c = [] := by
  cases c with
  | login id username =>
    simp only [roomStep, addressed, taken]
    split_ifs
    · exact .inl hbox
    · exact .inl hbox
    · by_cases hn : name = username
      · exact .inr (by simp [hn])
      · exact .inl ((Function.update_of_ne hn ..).trans hbox)
    · exact .inl hbox
  | logout id =>
    left
    simp only [roomStep]
    cases r.user id with
    | none => exact hbox
    | some username =>
      by_cases hn : name = username
      · simp [hn]
      · exact (Function.update_of_ne hn ..).trans hbox
  | getUsername id => exact .inl hbox
  | sendGlobalMsgFromId id msg =>
    left
    simp only [roomStep]
    split_ifs
    · exact hbox
    · cases r.user id <;> simp [Room.broadcast, hbox]
  | sendGlobalMsg sender msg =>
    left
    simp only [roomStep]
    split_ifs
    · exact hbox
    · simp [Room.broadcast, hbox]
  | sendPrivateMsgFromId receiver id msg =>
    left
    simp only [roomStep]
    split_ifs
    · exact hbox
    · cases r.user id with
      | none => exact hbox
      | some sender => exact deliver_box_none hbox _ _
  | sendPrivateMsg receiver sender msg =>
    left
    simp only [roomStep]
    split_ifs
    · exact hbox
    · exact deliver_box_none hbox _ _
  | poll id outBufLen =>
    left
    simp only [roomStep]
    split_ifs
    · exact hbox
    · cases hid : r.user id with
      | none => exact hbox
      | some username =>
        -- Who polls has a mailbox.
        have hne : name ≠ username := by
          rintro rfl
          simpa [hbox] using (hok.box name).mpr ⟨id, hid⟩
        exact (Function.update_of_ne hne ..).trans hbox

/-- Who is logged in was so before the call, or has a new mailbox. -/
theorem roomStep_user {id : UInt64} (c : RoomCall) (hid : (roomStep r c).2.user id = some name) :
    r.user id = some name ∨ (roomStep r c).2.box name = some [] := by
  cases c with
  | login id' username =>
    simp only [roomStep] at hid ⊢
    split_ifs at hid ⊢
    · exact .inl hid
    · exact .inl hid
    · by_cases hi : id = id'
      · simp only [hi, Function.update_self, Option.some.injEq] at hid
        exact .inr (by rw [hid]; exact Function.update_self ..)
      · simp only [Function.update_of_ne hi] at hid
        exact .inl hid
    · exact .inl hid
  | logout id' =>
    simp only [roomStep] at hid
    cases hid' : r.user id' with
    | none =>
      rw [hid'] at hid
      exact .inl hid
    | some username =>
      by_cases hi : id = id'
      · simp [hid', hi] at hid
      · simp only [hid', Function.update_of_ne hi] at hid
        exact .inl hid
  | getUsername id' => exact .inl hid
  | sendGlobalMsgFromId id' msg =>
    simp only [roomStep] at hid
    split_ifs at hid
    · exact .inl hid
    · cases hid' : r.user id' <;> (rw [hid'] at hid; exact .inl hid)
  | sendGlobalMsg sender msg =>
    simp only [roomStep] at hid
    split_ifs at hid <;> exact .inl hid
  | sendPrivateMsgFromId receiver id' msg =>
    simp only [roomStep] at hid
    split_ifs at hid
    · exact .inl hid
    · cases hid' : r.user id' with
      | none =>
        rw [hid'] at hid
        exact .inl hid
      | some sender =>
        rw [hid', deliver_user] at hid
        exact .inl hid
  | sendPrivateMsg receiver sender msg =>
    simp only [roomStep] at hid
    split_ifs at hid
    · exact .inl hid
    · rw [deliver_user] at hid
      exact .inl hid
  | poll id' outBufLen =>
    simp only [roomStep] at hid
    split_ifs at hid
    · exact .inl hid
    · cases hid' : r.user id' <;> (rw [hid'] at hid; exact .inl hid)

end Steps

/-! ## Conservation -/

/-- What was sent to a name and polled from its mailbox, since it has had the mailbox. -/
structure Ledger where
  room : Room
  sent : List ChatroomMessage
  polled : List ChatroomMessage

/-- A mailbox that goes away takes its account with it. -/
def ledgerStep (name : CString) (l : Ledger) (c : RoomCall) : Ledger :=
  if ((roomStep l.room c).2.box name).isSome then
    { room := (roomStep l.room c).2
      sent := l.sent ++ addressed l.room name c
      polled := l.polled ++ taken l.room name c }
  else ⟨(roomStep l.room c).2, [], []⟩

def ledger (name : CString) (calls : List RoomCall) : Ledger :=
  calls.foldl (ledgerStep name) ⟨.empty, [], []⟩

/-- What was sent was polled or waits. -/
structure Ledger.Balanced (l : Ledger) (name : CString) : Prop where
  closed : l.room.box name = none → l.sent = [] ∧ l.polled = []
  waits : ∀ msgs, l.room.box name = some msgs → l.sent.Perm (l.polled ++ msgs)

section Conservation

variable {name : CString} {l : Ledger}

theorem Ledger.Balanced.step (hok : l.room.Ok) (h : l.Balanced name) (c : RoomCall) :
    (ledgerStep name l c).Balanced name := by
  unfold ledgerStep
  split
  · next hsome =>
    obtain ⟨msgs', hmsgs'⟩ := Option.isSome_iff_exists.mp hsome
    refine ⟨fun hnone => ?_, fun msgs hmsgs => ?_⟩
    · rw [show (roomStep l.room c).2.box name = none from hnone] at hsome
      cases hsome
    · cases hbox : l.room.box name with
      | none =>
        -- The mailbox is a new one.
        obtain ⟨hsent, hpolled⟩ := h.closed hbox
        rcases roomStep_box_none hok hbox c with hnone | ⟨hnew, haddr, htaken⟩
        · rw [hnone] at hmsgs
          cases hmsgs
        · rw [hnew] at hmsgs
          cases hmsgs
          simp [hsent, hpolled, haddr, htaken]
      | some before =>
        rcases roomStep_box hbox c with ⟨id, rfl, -, hnone⟩ | ⟨msgs₁, hnew, hperm⟩
        · rw [hnone] at hmsgs
          cases hmsgs
        · rw [hnew] at hmsgs
          cases hmsgs
          have hwaits := (h.waits before hbox).append_right (addressed l.room name c)
          rw [List.append_assoc] at hwaits
          rw [List.append_assoc]
          exact hwaits.trans (hperm.append_left l.polled)
  · next hnone =>
    refine ⟨fun _ => ⟨rfl, rfl⟩, fun msgs hmsgs => ?_⟩
    rw [show (roomStep l.room c).2.box name = some msgs from hmsgs] at hnone
    exact absurd rfl hnone

theorem ledger_snoc (calls : List RoomCall) (c : RoomCall) :
    ledger name (calls ++ [c]) = ledgerStep name (ledger name calls) c := by
  simp [ledger]

theorem ledgerStep_room (c : RoomCall) : (ledgerStep name l c).room = (roomStep l.room c).2 := by
  unfold ledgerStep
  split <;> rfl

theorem ledger_room (calls : List RoomCall) : (ledger name calls).room = roomAfter calls := by
  induction calls using List.reverseRecOn with
  | nil => rfl
  | append_singleton calls c ih => rw [ledger_snoc, ledgerStep_room, ih, roomAfter_snoc]

theorem ledger_balanced (calls : List RoomCall) : (ledger name calls).Balanced name := by
  induction calls using List.reverseRecOn with
  | nil => exact ⟨fun _ => ⟨rfl, rfl⟩, nofun⟩
  | append_singleton calls c ih =>
    rw [ledger_snoc]
    exact ih.step (by rw [ledger_room]; exact roomAfter_ok calls) c

end Conservation

/-- **No message is lost, and none is polled twice**: there is an order in which the calls act one
after the other, and by it the mailbox of each name holds what was sent to the name since it has had
the mailbox, less what was polled. -/
theorem mailbox_conserved {τ : Type} [DecidableEq τ] {garbage : Garbage} {iterChainInd : Nat}
    {iter : Option Nat} {S : RoomThreads τ}
    (h : (roomThreads τ garbage iterChainInd iter).Reachable S) :
    ∃ calls, Linearizes roomStep .empty S.history calls ∧
      ((∀ t, S.running t = none) → ∀ name mb, hmGet S.data.mailboxes.hm name = some mb →
        ∃ list msgs, S.data.boxes.load mb = some list ∧ list.Holds msgs ∧
          (ledger name calls).sent.Perm ((ledger name calls).polled ++ msgs)) := by
  obtain ⟨calls, hlin, hidle⟩ := room_linearizes h
  refine ⟨calls, hlin, fun hnone name mb hget => ?_⟩
  have hshows := hidle hnone
  obtain ⟨msgs, hmsgs⟩ := Option.isSome_iff_exists.mp (hshows.bound hget)
  obtain ⟨list, hload, hholds⟩ := hshows.box_unique hget hmsgs
  refine ⟨list, msgs, hload, hholds, (ledger_balanced calls).waits msgs ?_⟩
  rw [ledger_room]
  exact hmsgs

/-- Two workers, whose calls do not overlap: `ann` sends to `bob`, who logs out. Channel 9 logs in as
`bob`, is sent two messages, and polls one. -/
def annAndBob : List (Bool × RoomCall × RoomAnswer) :=
  [(true, .login 7 ann, .status .success),
    (false, .login 8 bob, .status .success),
    (true, .sendPrivateMsgFromId bob 7 ann, .status .success),
    (false, .logout 8, .status .success),
    (false, .login 9 bob, .status .success),
    (true, .sendPrivateMsgFromId bob 7 ann, .status .success),
    (true, .sendPrivateMsgFromId bob 7 bob, .status .success),
    (false, .poll 9 1, .polled .success (some [⟨false, ann, bob⟩]))]

theorem annAndBob_reachable : ∃ S : RoomThreads Bool,
    (roomThreads Bool ⟨0, none⟩ 0 none).Reachable S ∧ (∀ t, S.running t = none) ∧
      S.history = sequential annAndBob ∧ hmGet S.data.mailboxes.hm bob = some 2 :=
  roomThreads_run [.calls true (.login 7 ann), .goes true 8, .calls false (.login 8 bob),
    .goes false 8, .calls true (.sendPrivateMsgFromId bob 7 ann), .goes true 8,
    .calls false (.logout 8), .goes false 8, .calls false (.login 9 bob), .goes false 8,
    .calls true (.sendPrivateMsgFromId bob 7 ann), .goes true 8,
    .calls true (.sendPrivateMsgFromId bob 7 bob), .goes true 8,
    .calls false (.poll 9 1), .goes false 9] _ (by decide +kernel)

/-- Of the two messages for the second `bob`, the second was polled, and the first waits. -/
theorem mailbox_conserved_poll : ∃ (s : Chatroom) (mb : Nat) (list : ChatroomMailbox)
    (msgs : List ChatroomMessage), hmGet s.mailboxes.hm bob = some mb ∧
      s.boxes.load mb = some list ∧ list.Holds msgs ∧
      [(⟨false, ann, ann⟩ : ChatroomMessage), ⟨false, ann, bob⟩].Perm
        ([⟨false, ann, bob⟩] ++ msgs) := by
  obtain ⟨S, h, hdone, hhistory, hget⟩ := annAndBob_reachable
  obtain ⟨calls, hlin, hconserved⟩ := mailbox_conserved h
  rw [hhistory] at hlin
  obtain rfl := hlin.of_sequential
  obtain ⟨list, msgs, hload, hholds, hperm⟩ := hconserved hdone bob 2 hget
  exact ⟨S.data, 2, list, msgs, hget, hload, hholds, hperm⟩

/-! ## Origin -/

/-- The call sends `m` to `name`: its text is not refused for its length. -/
inductive Sends (r : Room) (name : CString) (m : ChatroomMessage) : RoomCall → Prop
  | generalFromId {id : UInt64} (hlen : badMessageLen m.msg = false)
      (hid : r.user id = some m.user) (hgeneral : m.generalMsg = true) :
      Sends r name m (.sendGlobalMsgFromId id m.msg)
  | general (hlen : badMessageLen m.msg = false) (hgeneral : m.generalMsg = true) :
      Sends r name m (.sendGlobalMsg m.user m.msg)
  | directFromId {id : UInt64} (hlen : badMessageLen m.msg = false)
      (hid : r.user id = some m.user) (hdirect : m.generalMsg = false) :
      Sends r name m (.sendPrivateMsgFromId name id m.msg)
  | direct (hlen : badMessageLen m.msg = false) (hdirect : m.generalMsg = false) :
      Sends r name m (.sendPrivateMsg name m.user m.msg)

theorem sends_of_addressed {r : Room} {name : CString} {m : ChatroomMessage} {c : RoomCall}
    (h : m ∈ addressed r name c) : Sends r name m c := by
  cases c with
  | login id username => simp [addressed] at h
  | logout id => simp [addressed] at h
  | getUsername id => simp [addressed] at h
  | sendGlobalMsgFromId id msg =>
    simp only [addressed] at h
    split_ifs at h with hbad
    · simp at h
    · obtain ⟨sender, hid, rfl⟩ : ∃ sender, r.user id = some sender ∧ ⟨true, sender, msg⟩ = m := by
        simpa using h
      exact .generalFromId (Bool.eq_false_iff.mpr hbad) hid rfl
  | sendGlobalMsg sender msg =>
    simp only [addressed] at h
    split_ifs at h with hbad
    · simp at h
    · obtain rfl := List.mem_singleton.mp h
      exact .general (Bool.eq_false_iff.mpr hbad) rfl
  | sendPrivateMsgFromId receiver id msg =>
    simp only [addressed] at h
    split_ifs at h with hbad
    · simp at h
    · obtain ⟨hlen, hreceiver⟩ := not_or.mp hbad
      obtain ⟨sender, hid, rfl⟩ : ∃ sender, r.user id = some sender ∧ ⟨false, sender, msg⟩ = m := by
        simpa using h
      obtain rfl := not_not.mp hreceiver
      exact .directFromId (Bool.eq_false_iff.mpr hlen) hid rfl
  | sendPrivateMsg receiver sender msg =>
    simp only [addressed] at h
    split_ifs at h with hbad
    · simp at h
    · obtain ⟨hlen, hreceiver⟩ := not_or.mp hbad
      obtain rfl := List.mem_singleton.mp h
      obtain rfl := not_not.mp hreceiver
      exact .direct (Bool.eq_false_iff.mpr hlen) rfl
  | poll id outBufLen => simp [addressed] at h

/-- `m` was sent to `name`, which has been the name of channel `id` since before that. -/
def Received (calls : List RoomCall) (id : UInt64) (name : CString) (m : ChatroomMessage) : Prop :=
  ∃ pre c mid, calls = pre ++ c :: mid ∧ Sends (roomAfter pre) name m c ∧
    ∀ p, p <+: c :: mid → (roomAfter (pre ++ p)).user id = some name

section Origin

variable {calls : List RoomCall} {id : UInt64} {name : CString} {m : ChatroomMessage}

/-- Another call during which nobody logs out. -/
theorem Received.snoc (h : Received calls id name m) {c : RoomCall}
    (hid : (roomAfter (calls ++ [c])).user id = some name) :
    Received (calls ++ [c]) id name m := by
  obtain ⟨pre, d, mid, rfl, hsends, hlogged⟩ := h
  refine ⟨pre, d, mid ++ [c], by simp, hsends, fun p hp => ?_⟩
  rw [← List.cons_append, List.prefix_concat_iff] at hp
  rcases hp with rfl | hp
  · rw [List.append_assoc] at hid
    exact hid
  · exact hlogged p hp

/-- What waits for a channel was sent to it while it was logged in. -/
theorem received_of_waiting (calls : List RoomCall) :
    ∀ {id name msgs m}, (roomAfter calls).user id = some name →
      (roomAfter calls).box name = some msgs → m ∈ msgs → Received calls id name m := by
  induction calls using List.reverseRecOn with
  | nil =>
    intro id name msgs m hid
    cases hid
  | append_singleton calls c ih =>
    intro id name msgs m hid hbox hm
    have hid' := hid
    rw [roomAfter_snoc] at hid hbox
    have hbefore : (roomAfter calls).user id = some name := by
      rcases roomStep_user c hid with hbefore | hnew
      · exact hbefore
      · rw [hnew] at hbox
        cases hbox
        cases hm
    obtain ⟨msgs₀, hbox₀⟩ :=
      Option.isSome_iff_exists.mp (((roomAfter_ok calls).box name).mpr ⟨id, hbefore⟩)
    rcases roomStep_box hbox₀ c with ⟨id', -, -, hnone⟩ | ⟨msgs', hnew, hperm⟩
    · rw [hnone] at hbox
      cases hbox
    · rw [hnew] at hbox
      cases hbox
      -- It waited already, or the call sends it.
      rcases List.mem_append.mp (hperm.mem_iff.mpr (List.mem_append_right _ hm)) with hold | hsent
      · exact (ih hbefore hbox₀ hold).snoc hid'
      · refine ⟨calls, c, [], rfl, sends_of_addressed hsent, fun p hp => ?_⟩
        rcases List.prefix_concat_iff.mp (show p <+: [] ++ [c] from hp) with rfl | hnil
        · exact hid'
        · rw [List.prefix_nil.mp hnil, List.append_nil]
          exact hbefore

/-- What a poll answers with waited for the channel. -/
theorem poll_answer {r : Room} (hok : r.Ok) {outBufLen : Nat} {msgs : List ChatroomMessage}
    (h : (roomStep r (.poll id outBufLen)).1 = .polled .success (some msgs)) (hm : m ∈ msgs) :
    ∃ name waiting, r.user id = some name ∧ r.box name = some waiting ∧ m ∈ waiting := by
  simp only [roomStep] at h
  split_ifs at h
  · cases h
    cases hm
  · cases hid : r.user id with
    | none =>
      rw [hid] at h
      cases h
    | some name =>
      obtain ⟨waiting, hbox⟩ := Option.isSome_iff_exists.mp ((hok.box name).mpr ⟨id, hid⟩)
      simp only [hid, hbox, Option.getD_some] at h
      cases h
      exact ⟨name, waiting, rfl, hbox, List.mem_reverse.mp (List.mem_of_mem_take hm)⟩

/-- **Where a message comes from**: there is an order in which the calls act one after the other,
and by it each message that a channel polls was sent to the name of the channel, by the one it
names, and since then the channel has been logged in under the name without a break. -/
theorem polled_origin {τ : Type} [DecidableEq τ] {garbage : Garbage} {iterChainInd : Nat}
    {iter : Option Nat} {S : RoomThreads τ}
    (h : (roomThreads τ garbage iterChainInd iter).Reachable S) :
    ∃ calls, Linearizes roomStep .empty S.history calls ∧
      ∀ before after id outBufLen msgs m, calls = before ++ .poll id outBufLen :: after →
        (roomStep (roomAfter before) (.poll id outBufLen)).1 = .polled .success (some msgs) →
        m ∈ msgs → ∃ name, Received before id name m := by
  obtain ⟨calls, hlin, -⟩ := room_linearizes h
  refine ⟨calls, hlin, fun before after id outBufLen msgs m _ hpoll hm => ?_⟩
  obtain ⟨name, waiting, hid, hbox, hwaits⟩ := poll_answer (roomAfter_ok before) hpoll hm
  exact ⟨name, received_of_waiting before hid hbox hwaits⟩

/-- The message that the second `bob` polls was sent when the name was theirs. -/
theorem polled_origin_poll : ∃ name,
    Linearizes roomStep .empty (sequential annAndBob) (annAndBob.map fun e => e.2.1) ∧
      Received ((annAndBob.take 7).map fun e => e.2.1) 9 name ⟨false, ann, bob⟩ := by
  obtain ⟨S, h, -, hhistory, -⟩ := annAndBob_reachable
  obtain ⟨calls, hlin, horigin⟩ := polled_origin h
  rw [hhistory] at hlin
  obtain rfl := hlin.of_sequential
  obtain ⟨name, hreceived⟩ := horigin ((annAndBob.take 7).map fun e => e.2.1) [] 9 1
    [⟨false, ann, bob⟩] _ rfl rfl List.mem_cons_self
  exact ⟨name, hlin, hreceived⟩

end Origin

end Chlibs.Chat
