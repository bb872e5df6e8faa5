import Chlibs.Chat.Chatroom

/-!
# The locks of the chatroom

* `roomData_lawful` — what an access touches is what its lock guards.
* `roomBody_follows` — every function takes the global lock first and a mailbox under its mutex.
-/

namespace Chlibs.Chat

open Infra Serial Util Rpc

variable {garbage : Garbage} {s s' : Chatroom} {mb : Nat}

/-! ## Accesses -/

theorem heap_ext {α : Type} {h h' : Heap α}
    (hlive : h.cells.map Option.isSome = h'.cells.map Option.isSome)
    (hload : ∀ a, h.load a = h'.load a) : h = h' := by
  have hlen : h.cells.length = h'.cells.length := by simpa using congrArg List.length hlive
  have hcells : h.cells = h'.cells := by
    refine List.ext_getElem hlen fun i hi hi' => ?_
    have hi := hload i
    simpa [Heap.load, List.getElem?_eq_getElem, *] using hi
  calc h = ⟨h.cells⟩ := rfl
    _ = ⟨h'.cells⟩ := by rw [hcells]

/-- A block in the place of another. -/
theorem live_put {α : Type} {h : Heap α} {a : Nat} {x : α} (ha : h.load a = some x) (y : α) :
    (h.put a (some y)).cells.map Option.isSome = h.cells.map Option.isSome := by
  have hself := congrArg (fun h : Heap α => h.cells.map Option.isSome) (Heap.put_self ha)
  simpa only [Heap.put, List.map_set, Option.isSome_some] using hself

theorem chatroom_ext (hshape : s.shape = s'.shape) (hload : ∀ a, s.boxes.load a = s'.boxes.load a) :
    s = s' := by
  have hlive : s.boxes.cells.map Option.isSome = s'.boxes.cells.map Option.isSome :=
    congrArg RoomShape.live hshape
  have hboxes := heap_ext hlive hload
  have hid : s.idMap = s'.idMap := congrArg RoomShape.idMap hshape
  have hmailboxes : s.mailboxes = s'.mailboxes := congrArg RoomShape.mailboxes hshape
  cases s
  cases s'
  simp only at hid hmailboxes hboxes
  rw [hid, hmailboxes, hboxes]

/-- There is a mailbox at the address, and so there is its mutex. -/
theorem live_iff : (roomData garbage).live s.shape mb = true ↔ (s.boxes.load mb).isSome := by
  show (s.boxes.cells.map Option.isSome).getD mb false = true ↔ _
  rw [List.getD_eq_getElem?_getD, List.getElem?_map, Heap.load]
  cases s.boxes.cells[mb]? with
  | none => simp
  | some c => simp

/-- A call on the mailbox at an address. -/
theorem onBlock_boxes {α : Type} {p : CallM ChatroomMailbox α} {x : α} {b b' : ChatroomMailbox}
    (hload : s.boxes.load mb = some b) (hrun : p b = some (x, b')) :
    onBlock Chatroom.boxesPart mb p s = some (x, Chatroom.boxesPart.put s mb b') :=
  onBlock_of_some hload hrun

theorem load_boxes_put {b : ChatroomMailbox} (hload : s.boxes.load mb = some b)
    (b' : ChatroomMailbox) : (Chatroom.boxesPart.put s mb b').boxes.load mb = some b' :=
  @Part.load_put_self _ _ Chatroom.boxesPart s mb b hload b'

/-- A call on a mailbox keeps to it. -/
theorem onBlock_part {α : Type} {p : CallM ChatroomMailbox α} {x : α} {s₁ : Chatroom}
    (hpart : s.boxes.load mb = s'.boxes.load mb)
    (h : onBlock Chatroom.boxesPart mb p s = some (x, s₁)) :
    ∃ s₁', onBlock Chatroom.boxesPart mb p s' = some (x, s₁') ∧
      s₁'.boxes.load mb = s₁.boxes.load mb ∧ s₁'.shape = s'.shape ∧
      ∀ j, j ≠ mb → s₁'.boxes.load j = s'.boxes.load j := by
  cases hload : s.boxes.load mb with
  | none => simp [onBlock, Chatroom.boxesPart, hload] at h
  | some b =>
    cases hrun : p b with
    | none => simp [onBlock, Chatroom.boxesPart, hload, hrun] at h
    | some r =>
      obtain ⟨y, b'⟩ := r
      have hload' : s'.boxes.load mb = some b := hpart.symm.trans hload
      rw [onBlock_boxes hload hrun] at h
      cases h
      refine ⟨_, onBlock_boxes hload' hrun, ?_, ?_, fun j hj =>
        Part.load_put_of_ne Chatroom.boxesPart s' hj b'⟩
      · exact (load_boxes_put hload' b').trans (load_boxes_put hload b').symm
      · exact congrArg (RoomShape.mk s'.idMap s'.mailboxes) (live_put hload' b')

/-- **What an access touches is what its lock guards.** -/
theorem roomData_lawful : (roomData garbage).Lawful where
  ext _ _ hshape hload := chatroom_ext hshape hload
  reads := by
    intro a s s' x s₁ hf hshape h
    have hid : s.idMap = s'.idMap := congrArg RoomShape.idMap hshape
    have hmailboxes : s.mailboxes = s'.mailboxes := congrArg RoomShape.mailboxes hshape
    cases a with
    | idMapContains id =>
      cases h
      show some (hmContains s'.idMap id, s') = _
      rw [hid]
    | idMapGet id =>
      cases h
      show some (hmGet s'.idMap id, s') = _
      rw [hid]
    | mailboxesContains name =>
      cases h
      show some (hmContains s'.mailboxes.hm name, s') = _
      rw [hmailboxes]
    | mailboxesGet name =>
      cases h
      show some (hmGet s'.mailboxes.hm name, s') = _
      rw [hmailboxes]
    | idMapPut => cases hf
    | idMapRemove => cases hf
    | mailboxesPut => cases hf
    | mailboxesRemove => cases hf
    | mailboxesKvps => cases hf
    | newMailbox => cases hf
    | deleteMailbox => cases hf
    | mbLen => cases hf
    | mbPush => cases hf
    | mbPop => cases hf
  part := by
    intro a mb s s' x s₁ hf hagree h
    have hpart : s.boxes.load mb = s'.boxes.load mb := hagree.2
    have hblock : ∀ {β : Type} {p : CallM ChatroomMailbox β} {y : β},
        onBlock Chatroom.boxesPart mb p s = some (y, s₁) →
        ∃ s₁', onBlock Chatroom.boxesPart mb p s' = some (y, s₁') ∧
          s₁'.boxes.load mb = s₁.boxes.load mb ∧ (roomData garbage).Changes mb s' s₁' := by
      intro β p y hrun
      obtain ⟨s₁', hrun', hload, hshape, hothers⟩ := onBlock_part hpart hrun
      exact ⟨s₁', hrun', hload, hshape, hothers⟩
    cases a with
    | mbLen mb' =>
      cases hf
      exact hblock h
    | mbPush mb' msg =>
      cases hf
      exact hblock h
    | mbPop mb' =>
      cases hf
      exact hblock h
    | idMapContains => cases hf
    | idMapGet => cases hf
    | mailboxesContains => cases hf
    | mailboxesGet => cases hf
    | idMapPut => cases hf
    | idMapRemove => cases hf
    | mailboxesPut => cases hf
    | mailboxesRemove => cases hf
    | mailboxesKvps => cases hf
    | newMailbox => cases hf
    | deleteMailbox => cases hf

/-! ## Functions -/

section Follows

variable {Q : Phase Nat → Prop} {ph ph' : Phase Nat} {β : Type}

theorem endsIn_access {a : RoomAcc} {f : a.Ans → RoomProg β}
    (h : ph.next RoomAcc.footprint (.access a) = some ph')
    (hf : ∀ x, EndsIn RoomAcc.footprint Q (f x) ph') :
    EndsIn RoomAcc.footprint Q (access a >>= f) ph := endsIn_perform h hf

/-- With no mutex the lock may be given back. -/
def MayUnlock (ph : Phase Nat) : Prop := ph = .reading ∨ ph = .leaving ∨ ph = .writing none

/-- A function that gives the lock back, with its result. -/
theorem follows_unlock {p : RoomProg β} (hp : EndsIn RoomAcc.footprint MayUnlock p ph) :
    Follows RoomAcc.footprint (do let x ← p; safePthreadRwlockUnlock; pure x) ph := by
  refine hp.bind fun x ph hph => ?_
  rcases hph with rfl | rfl | rfl <;> exact endsIn_perform rfl fun _ => trivial

theorem follows_underRdlock {p : RoomProg β}
    (hp : EndsIn RoomAcc.footprint MayUnlock p .reading) :
    Follows RoomAcc.footprint (underRdlock p) .before :=
  endsIn_perform rfl fun _ => follows_unlock hp

theorem follows_underWrlock {p : RoomProg β}
    (hp : EndsIn RoomAcc.footprint MayUnlock p (.writing none)) :
    Follows RoomAcc.footprint (underWrlock p) .before :=
  endsIn_perform rfl fun _ => follows_unlock hp

/-- A mailbox is pushed to under its mutex. -/
theorem chatroomMailboxPush_endsIn {mb : Nat} {msg : ChatroomMessage} :
    EndsIn RoomAcc.footprint (· = .leaving) (chatroomMailboxPush mb msg) .reading ∧
      EndsIn RoomAcc.footprint (· = .writing none) (chatroomMailboxPush mb msg) (.writing none) := by
  constructor
  · refine endsIn_perform rfl fun _ => endsIn_perform (if_pos (.inr rfl)) fun _ =>
      endsIn_perform (if_pos rfl) fun _ => rfl
  · refine endsIn_perform rfl fun _ => endsIn_perform (if_pos (.inr rfl)) fun _ =>
      endsIn_perform (if_pos rfl) fun _ => rfl

theorem pollLoop_endsIn {mb : Nat} : ∀ n : Nat,
    EndsIn RoomAcc.footprint (· = .inPart mb) (pollLoop mb n) (.inPart mb)
  | 0 => rfl
  | n + 1 => by
    unfold pollLoop
    refine endsIn_access (if_pos (.inr rfl)) fun msg => ?_
    cases msg with
    | none => trivial
    | some msg =>
      refine (pollLoop_endsIn n).bind fun msgs ph hph => ?_
      exact endsIn_pure _ hph

theorem chatroomMailboxPoll_endsIn {mb outBufLen : Nat} :
    EndsIn RoomAcc.footprint (· = .leaving) (chatroomMailboxPoll mb outBufLen) .reading := by
  refine endsIn_perform rfl fun _ => endsIn_perform (if_pos (.inr rfl)) fun len => ?_
  refine (pollLoop_endsIn _).bind fun msgs ph hph => ?_
  obtain rfl := hph
  exact endsIn_perform (if_pos rfl) fun _ => rfl

theorem sendLoop_endsIn {sender msg : CString} : ∀ kvps : List (KeyVal CString Nat),
    EndsIn RoomAcc.footprint (· = .writing none) (sendLoop sender msg kvps) (.writing none)
  | [] => rfl
  | kvp :: kvps => by
    unfold sendLoop
    refine chatroomMailboxPush_endsIn.2.bind fun _ ph hph => ?_
    obtain rfl := hph
    exact sendLoop_endsIn kvps

theorem sendGlobalMsg_endsIn {sender msg : CString} :
    EndsIn RoomAcc.footprint (· = .writing none) (sendGlobalMsg sender msg) (.writing none) :=
  endsIn_access rfl fun kvps => sendLoop_endsIn kvps

theorem sendPrivateMsg_endsIn {receiver sender msg : CString} :
    EndsIn RoomAcc.footprint MayUnlock (sendPrivateMsg receiver sender msg) .reading := by
  unfold sendPrivateMsg
  refine endsIn_access rfl fun mb => ?_
  cases mb with
  | none => exact .inl rfl
  | some mb =>
    refine chatroomMailboxPush_endsIn.1.bind fun _ ph hph => ?_
    exact .inr (.inl hph)

theorem chatroomLogin_follows (id : UInt64) (username : CString) :
    Follows RoomAcc.footprint (chatroomLogin id username) .before := by
  unfold chatroomLogin
  split_ifs
  · trivial
  · trivial
  · refine follows_underWrlock ?_
    refine endsIn_access rfl fun taken => ?_
    cases taken with
    | true => exact .inr (.inr rfl)
    | false =>
      refine endsIn_access rfl fun taken => ?_
      cases taken with
      | true => exact .inr (.inr rfl)
      | false =>
        exact endsIn_access rfl fun _ => endsIn_access rfl fun _ => endsIn_access rfl fun _ =>
          .inr (.inr rfl)
  · trivial

theorem chatroomLogout_follows (id : UInt64) :
    Follows RoomAcc.footprint (chatroomLogout id) .before := by
  unfold chatroomLogout
  refine follows_underWrlock ?_
  refine endsIn_access rfl fun username => ?_
  cases username with
  | none => exact .inr (.inr rfl)
  | some username =>
    refine endsIn_access rfl fun _ => endsIn_access rfl fun mb => ?_
    cases mb with
    | none => trivial
    | some mb => exact endsIn_access rfl fun _ => endsIn_access rfl fun _ => .inr (.inr rfl)

theorem chatroomPoll_follows (id : UInt64) (outBufLen : Nat) :
    Follows RoomAcc.footprint (chatroomPoll id outBufLen) .before := by
  unfold chatroomPoll
  split_ifs
  · trivial
  · refine follows_underRdlock ?_
    refine endsIn_access rfl fun username => ?_
    cases username with
    | none => exact .inl rfl
    | some username =>
      refine endsIn_access rfl fun mb => ?_
      cases mb with
      | none => trivial
      | some mb =>
        refine chatroomMailboxPoll_endsIn.bind fun msgs ph hph => ?_
        exact .inr (.inl hph)

theorem chatroomSendGlobalMsgFromId_follows (id : UInt64) (msg : CString) :
    Follows RoomAcc.footprint (chatroomSendGlobalMsgFromId id msg) .before := by
  unfold chatroomSendGlobalMsgFromId
  split_ifs
  · trivial
  · refine follows_underWrlock ?_
    refine endsIn_access rfl fun sender => ?_
    cases sender with
    | none => exact .inr (.inr rfl)
    | some sender =>
      refine sendGlobalMsg_endsIn.bind fun _ ph hph => ?_
      exact .inr (.inr hph)

theorem chatroomSendGlobalMsg_follows (sender msg : CString) :
    Follows RoomAcc.footprint (chatroomSendGlobalMsg sender msg) .before := by
  unfold chatroomSendGlobalMsg
  split_ifs
  · trivial
  · refine follows_underWrlock (sendGlobalMsg_endsIn.bind fun _ ph hph => ?_)
    exact .inr (.inr hph)

theorem chatroomSendPrivateMsgFromId_follows (receiver : CString) (id : UInt64) (msg : CString) :
    Follows RoomAcc.footprint (chatroomSendPrivateMsgFromId receiver id msg) .before := by
  unfold chatroomSendPrivateMsgFromId
  split_ifs
  · trivial
  · refine follows_underRdlock ?_
    refine endsIn_access rfl fun sender => ?_
    cases sender with
    | none => exact .inl rfl
    | some sender => exact sendPrivateMsg_endsIn

theorem chatroomSendPrivateMsg_follows (receiver sender msg : CString) :
    Follows RoomAcc.footprint (chatroomSendPrivateMsg receiver sender msg) .before := by
  unfold chatroomSendPrivateMsg
  split_ifs
  · trivial
  · exact follows_underRdlock sendPrivateMsg_endsIn

/-- **Every function keeps to the locks.** -/
theorem roomBody_follows (c : RoomCall) : Follows RoomAcc.footprint (roomBody c) .before := by
  cases c with
  | login id username => exact (chatroomLogin_follows id username).bind fun _ _ h => h
  | logout id => exact (chatroomLogout_follows id).bind fun _ _ h => h
  | getUsername id =>
    have hp : EndsIn RoomAcc.footprint MayUnlock (access (.idMapGet id)) .reading :=
      endsIn_perform rfl fun _ => .inl rfl
    exact (follows_underRdlock hp).bind fun _ _ h => h
  | sendGlobalMsgFromId id msg =>
    exact (chatroomSendGlobalMsgFromId_follows id msg).bind fun _ _ h => h
  | sendGlobalMsg sender msg => exact (chatroomSendGlobalMsg_follows sender msg).bind fun _ _ h => h
  | sendPrivateMsgFromId receiver id msg =>
    exact (chatroomSendPrivateMsgFromId_follows receiver id msg).bind fun _ _ h => h
  | sendPrivateMsg receiver sender msg =>
    exact (chatroomSendPrivateMsg_follows receiver sender msg).bind fun _ _ h => h
  | poll id outBufLen => exact (chatroomPoll_follows id outBufLen).bind fun _ _ h => h

end Follows

end Chlibs.Chat
