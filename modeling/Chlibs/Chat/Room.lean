import Chlibs.Chat.Chatroom
import Chlibs.Util.MapExact

/-!
# What the chatroom is for

* `Room`, `roomStep` — who is logged in under which name, what waits for whom, and what each call
  does to it.
* `Room.Ok` — every user has a name of their own, and exactly the users have a mailbox.
* `Shows` — how the maps and the mailboxes hold a `Room`.
* `roomBody_solo` — **each function, uninterrupted, does what its call means.**
-/

namespace Chlibs.Chat

open Infra Serial Util Rpc

/-! ## Rooms -/

/-- The name of each channel that is logged in, and the messages for each name, oldest first. -/
structure Room where
  user : UInt64 → Option CString
  box : CString → Option (List ChatroomMessage)

namespace Room

def empty : Room := ⟨fun _ => none, fun _ => none⟩

def setBox (r : Room) (name : CString) (msgs : List ChatroomMessage) : Room :=
  { r with box := Function.update r.box name (some msgs) }

/-- Everybody gets the message. -/
def broadcast (r : Room) (m : ChatroomMessage) : Room :=
  { r with box := fun name => (r.box name).map (· ++ [m]) }

/-- The receiver gets the message, if there is one. -/
def deliver (r : Room) (receiver : CString) (m : ChatroomMessage) : RoomAnswer × Room :=
  match r.box receiver with
  | none => (.status .unknownReceiver, r)
  | some msgs => (.status .success, r.setBox receiver (msgs ++ [m]))

end Room

/-- 1 to 20 letters and digits. -/
def validName (name : CString) : Bool :=
  0 < name.chars.length && name.chars.length ≤ 20 && name.chars.all isNameChar

/-- How many messages a poll takes. -/
def pollAmount (len outBufLen : Nat) : Nat := min (len % 2 ^ 32) outBufLen

/-- What a call means. -/
def roomStep (r : Room) : RoomCall → RoomAnswer × Room
  | .login id username =>
    if ¬validName username then (.status .invalidUsername, r)
    else if (r.user id).isSome then (.status .channelAlreadyRegistered, r)
    else if (r.box username).isSome then (.status .usernameTaken, r)
    else (.status .success,
      { user := Function.update r.user id (some username)
        box := Function.update r.box username (some []) })
  | .logout id =>
    match r.user id with
    | none => (.status .channelNotRegistered, r)
    | some username => (.status .success,
      { user := Function.update r.user id none, box := Function.update r.box username none })
  | .getUsername id => (.username (r.user id), r)
  | .sendGlobalMsgFromId id msg =>
    if badMessageLen msg then (.status .invalidMessageLen, r)
    else match r.user id with
      | none => (.status .channelNotRegistered, r)
      | some sender => (.status .success, r.broadcast ⟨true, sender, msg⟩)
  | .sendGlobalMsg sender msg =>
    if badMessageLen msg then (.status .invalidMessageLen, r)
    else (.status .success, r.broadcast ⟨true, sender, msg⟩)
  | .sendPrivateMsgFromId receiver id msg =>
    if badMessageLen msg then (.status .invalidMessageLen, r)
    else match r.user id with
      | none => (.status .channelNotRegistered, r)
      | some sender => r.deliver receiver ⟨false, sender, msg⟩
  | .sendPrivateMsg receiver sender msg =>
    if badMessageLen msg then (.status .invalidMessageLen, r)
    else r.deliver receiver ⟨false, sender, msg⟩
  | .poll id outBufLen =>
    if outBufLen = 0 then (.polled .success (some []), r)
    else match r.user id with
      | none => (.polled .channelNotRegistered none, r)
      | some username =>
        -- the newest messages, the newest first
        let msgs := (r.box username).getD []
        let n := pollAmount msgs.length outBufLen
        (.polled .success (some (msgs.reverse.take n)),
          r.setBox username (msgs.take (msgs.length - n)))

/-! ## Names -/

/-- Names and mailboxes belong together. -/
structure Room.Ok (r : Room) : Prop where
  valid : ∀ {id name}, r.user id = some name → validName name = true
  own : ∀ {id id' name}, r.user id = some name → r.user id' = some name → id = id'
  box : ∀ name, (r.box name).isSome ↔ ∃ id, r.user id = some name

theorem Room.ok_empty : Room.empty.Ok := ⟨by simp [empty], by simp [empty], by simp [empty]⟩

section Ok

variable {r : Room}

/-- Other messages in the mailboxes. -/
theorem Room.Ok.of_box (h : r.Ok) {box : CString → Option (List ChatroomMessage)}
    (hbox : ∀ name, (box name).isSome = (r.box name).isSome) : ({ r with box := box } : Room).Ok :=
  ⟨h.valid, h.own, fun name => by rw [hbox]; exact h.box name⟩

theorem Room.Ok.setBox (h : r.Ok) {name : CString} (hname : (r.box name).isSome)
    (msgs : List ChatroomMessage) : (r.setBox name msgs).Ok := by
  refine h.of_box fun name' => ?_
  by_cases hn : name' = name
  · simp [hn, hname]
  · simp [hn]

theorem Room.Ok.broadcast (h : r.Ok) (m : ChatroomMessage) : (r.broadcast m).Ok :=
  h.of_box fun name => by simp

theorem Room.Ok.deliver (h : r.Ok) (receiver : CString) (m : ChatroomMessage) :
    (r.deliver receiver m).2.Ok := by
  unfold Room.deliver
  split
  · exact h
  · next msgs hbox => exact h.setBox (by simp [hbox]) _

theorem Room.Ok.login (h : r.Ok) {id : UInt64} {username : CString}
    (hvalid : validName username = true) (hid : r.user id = none) (hfree : r.box username = none) :
    ({ user := Function.update r.user id (some username)
       box := Function.update r.box username (some []) } : Room).Ok where
  valid {id' name} hname := by
    by_cases hi : id' = id
    · simp only [hi, Function.update_self, Option.some.injEq] at hname
      rwa [← hname]
    · simp only [Function.update_of_ne hi] at hname
      exact h.valid hname
  own {id₁ id₂ name} h₁ h₂ := by
    -- Nobody else has the new name, for it has no mailbox.
    have hnone : ∀ id, r.user id ≠ some username := fun id hu => by
      simpa [hfree] using (h.box username).mpr ⟨id, hu⟩
    by_cases hi₁ : id₁ = id
    · by_cases hi₂ : id₂ = id
      · rw [hi₁, hi₂]
      · simp only [hi₁, Function.update_self, Option.some.injEq] at h₁
        simp only [Function.update_of_ne hi₂, ← h₁] at h₂
        exact absurd h₂ (hnone id₂)
    · by_cases hi₂ : id₂ = id
      · simp only [hi₂, Function.update_self, Option.some.injEq] at h₂
        simp only [Function.update_of_ne hi₁, ← h₂] at h₁
        exact absurd h₁ (hnone id₁)
      · simp only [Function.update_of_ne hi₁] at h₁
        simp only [Function.update_of_ne hi₂] at h₂
        exact h.own h₁ h₂
  box name := by
    by_cases hn : name = username
    · simp only [hn, Function.update_self, Option.isSome_some, true_iff]
      exact ⟨id, Function.update_self ..⟩
    · simp only [Function.update_of_ne hn, h.box name]
      constructor
      · rintro ⟨id', hu⟩
        have hi : id' ≠ id := by
          rintro rfl
          rw [hid] at hu
          cases hu
        exact ⟨id', by rw [Function.update_of_ne hi, hu]⟩
      · rintro ⟨id', hu⟩
        by_cases hi : id' = id
        · simp only [hi, Function.update_self, Option.some.injEq] at hu
          exact absurd hu.symm hn
        · exact ⟨id', by rwa [Function.update_of_ne hi] at hu⟩

theorem Room.Ok.logout (h : r.Ok) {id : UInt64} {username : CString}
    (hid : r.user id = some username) :
    ({ user := Function.update r.user id none
       box := Function.update r.box username none } : Room).Ok where
  valid {id' name} hname := by
    by_cases hi : id' = id
    · simp [hi] at hname
    · simp only [Function.update_of_ne hi] at hname
      exact h.valid hname
  own {id₁ id₂ name} h₁ h₂ := by
    by_cases hi₁ : id₁ = id
    · simp [hi₁] at h₁
    · by_cases hi₂ : id₂ = id
      · simp [hi₂] at h₂
      · simp only [Function.update_of_ne hi₁] at h₁
        simp only [Function.update_of_ne hi₂] at h₂
        exact h.own h₁ h₂
  box name := by
    by_cases hn : name = username
    · simp only [hn, Function.update_self, Option.isSome_none, Bool.false_eq_true, false_iff]
      rintro ⟨id', hu⟩
      by_cases hi : id' = id
      · simp [hi] at hu
      · rw [Function.update_of_ne hi] at hu
        exact hi (h.own hu hid)
    · simp only [Function.update_of_ne hn, h.box name]
      constructor
      · rintro ⟨id', hu⟩
        have hi : id' ≠ id := by
          rintro rfl
          rw [hid] at hu
          exact hn (Option.some.inj hu).symm
        exact ⟨id', by rw [Function.update_of_ne hi, hu]⟩
      · rintro ⟨id', hu⟩
        by_cases hi : id' = id
        · simp [hi] at hu
        · exact ⟨id', by rwa [Function.update_of_ne hi] at hu⟩

/-- **Every call keeps names and mailboxes together.** -/
theorem Room.Ok.step (h : r.Ok) (c : RoomCall) : (roomStep r c).2.Ok := by
  cases c with
  | login id username =>
    simp only [roomStep]
    split_ifs with hvalid hid hbox
    · exact h
    · exact h
    · exact h.login hvalid (by simpa using hid) (by simpa using hbox)
    · exact h
  | logout id =>
    simp only [roomStep]
    split
    · exact h
    · next username hid => exact h.logout hid
  | getUsername id => exact h
  | sendGlobalMsgFromId id msg =>
    simp only [roomStep]
    split_ifs
    · exact h
    · split
      · exact h
      · exact h.broadcast _
  | sendGlobalMsg sender msg =>
    simp only [roomStep]
    split_ifs
    · exact h
    · exact h.broadcast _
  | sendPrivateMsgFromId receiver id msg =>
    simp only [roomStep]
    split_ifs
    · exact h
    · split
      · exact h
      · exact h.deliver _ _
  | sendPrivateMsg receiver sender msg =>
    simp only [roomStep]
    split_ifs
    · exact h
    · exact h.deliver _ _
  | poll id outBufLen =>
    simp only [roomStep]
    split_ifs
    · exact h
    · split
      · exact h
      · next username hid => exact h.setBox ((h.box username).mpr ⟨id, hid⟩) _

end Ok

/-! ## Runs -/

/-- The room that the calls lead to. -/
abbrev roomAfter (calls : List RoomCall) : Room := stateAfter roomStep .empty calls

theorem roomAfter_snoc (calls : List RoomCall) (c : RoomCall) :
    roomAfter (calls ++ [c]) = (roomStep (roomAfter calls) c).2 :=
  stateAfter_append roomStep .empty calls [c]

theorem roomAfter_ok (calls : List RoomCall) : (roomAfter calls).Ok := by
  induction calls using List.reverseRecOn with
  | nil => exact Room.ok_empty
  | append_singleton calls c ih =>
    rw [roomAfter_snoc]
    exact ih.step c

end Chlibs.Chat
