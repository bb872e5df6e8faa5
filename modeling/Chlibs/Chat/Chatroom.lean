import Chlibs.Infra.Threads
import Chlibs.Rpc.Endpoint
import Chlibs.Util.ListSequence
import Chlibs.Util.MapIteration

/-!
# The chatroom

`chatroom.c` and `chatroom.h`: who is logged in, and the messages that wait for them.

* `Chatroom` — `chatroom_state_t`, less the lock; the mailboxes are in a heap, each with a mutex.
* `RoomAcc` — what the functions do to the maps and the mailboxes; `roomData` — which of it is
  guarded by which lock.
* `roomBody` — the functions, as programs under the global lock and the mutexes.

Strings are values, their characters, and a message is what its `chatroom_message_t` points to.
Their reference counts are left out: `s_copy` counts under the read lock, and
`delete_chatroom_message` under no lock, so that workers may count the same string side by side.
What is proved of threads here is about the maps, the mailboxes and the locks.
-/

namespace Chlibs.Chat

open Infra Serial Util Rpc

/-! ## Data -/

instance : DecidableEq CString := fun a b =>
  decidable_of_iff (a.chars = b.chars) ⟨CString.ext, congrArg CString.chars⟩

/-- `chatroom_status_t` -/
inductive ChatroomStatus where
  | success
  | channelAlreadyRegistered
  | usernameTaken
  | invalidUsername
  | channelNotRegistered
  | invalidMessageLen
  | unknownReceiver
  deriving DecidableEq, Repr

/-- `chatroom_message_t` -/
structure ChatroomMessage where
  generalMsg : Bool
  user : CString
  msg : CString
  deriving DecidableEq

/-- `chatroom_mailbox_t`, less the mutex -/
abbrev ChatroomMailbox := ListT ChatroomMessage

/-- `chatroom_state_t`, less the lock. The mailboxes are at the addresses that are the values of
the second map. -/
structure Chatroom where
  idMap : HashMap UInt64 CString
  mailboxes : HashMapT CString Nat
  boxes : Heap ChatroomMailbox

def chatroomMaxMessageLen : Nat := 0x100

/-- `chrpc_channel_id_hash_func`, which is cut to 32 bits. -/
def chrpcChannelIdHashFunc (id : UInt64) : UInt32 := ((id * 12342343 + 7) * 3).toUInt32

def chrpcChannelIdEqualsFunc (id0 id1 : UInt64) : Bool := id0 == id1

/-- `iter` is what stands where nobody has set the iterator. -/
def newChatroomState (iterChainInd : Nat) (iter : Option Nat) : Chatroom where
  idMap := newHashMap chrpcChannelIdHashFunc chrpcChannelIdEqualsFunc
  mailboxes := ⟨newHashMap sHash sEquals, iterChainInd, iter⟩
  boxes := .empty

/-- The mailboxes in the state. -/
def Chatroom.boxesPart : Part Chatroom (Heap ChatroomMailbox) where
  get s := s.boxes
  set s boxes := { s with boxes := boxes }
  get_set _ _ := rfl
  set_get _ := rfl

/-! ## Accesses -/

/-- What the functions do under the locks. -/
inductive RoomAcc where
  | idMapContains (id : UInt64)
  | idMapGet (id : UInt64)
  | idMapPut (id : UInt64) (username : CString)
  | idMapRemove (id : UInt64)
  | mailboxesContains (name : CString)
  | mailboxesGet (name : CString)
  | mailboxesPut (name : CString) (mb : Nat)
  | mailboxesRemove (name : CString)
  | mailboxesKvps
  | newMailbox
  | deleteMailbox (mb : Nat)
  | mbLen (mb : Nat)
  | mbPush (mb : Nat) (msg : ChatroomMessage)
  | mbPop (mb : Nat)

@[reducible] def RoomAcc.Ans : RoomAcc → Type
  | idMapContains _ => Bool
  | idMapGet _ => Option CString
  | idMapPut _ _ => Unit
  | idMapRemove _ => Bool
  | mailboxesContains _ => Bool
  | mailboxesGet _ => Option Nat
  | mailboxesPut _ _ => Unit
  | mailboxesRemove _ => Bool
  | mailboxesKvps => List (KeyVal CString Nat)
  | newMailbox => Nat
  | deleteMailbox _ => Unit
  | mbLen _ => Nat
  | mbPush _ _ => Unit
  | mbPop _ => Option ChatroomMessage

/-- `delete_list`. What is left of the list has no nodes. -/
def deleteList {α : Type} : ListT α → Option (ListT α)
  | .array al => some (.array al)
  | .linked ll => (deleteLinkedList ll).map .linked

/-- `delete_chatroom_mailbox`: every message is reached and deleted, then the list and the mailbox. -/
def deleteChatroomMailbox (mb : Nat) : CallM Chatroom Unit := fun s => do
  let (_, s) ← onBlock Chatroom.boxesPart mb lIterate s
  let list ← s.boxes.load mb
  let _ ← deleteList list
  let boxes ← s.boxes.free mb
  some ((), { s with boxes := boxes })

/-- A reset of the iterator, and `hm_next_kvp` until the map is exhausted. -/
def iterateMailboxes : CallM Chatroom (List (KeyVal CString Nat)) := fun s => do
  let (kvps, mailboxes) ← hmIterate s.mailboxes
  some (kvps, { s with mailboxes := mailboxes })

/-- `garbage` is what stands where a new list has not set its iterator. -/
def roomAccess (garbage : Garbage) : (a : RoomAcc) → Chatroom → Option (a.Ans × Chatroom)
  | .idMapContains id, s => some (hmContains s.idMap id, s)
  | .idMapGet id, s => some (hmGet s.idMap id, s)
  | .idMapPut id username, s => some ((), { s with idMap := hmPut s.idMap id username })
  | .idMapRemove id, s =>
    some ((hmRemove s.idMap id).1, { s with idMap := (hmRemove s.idMap id).2 })
  | .mailboxesContains name, s => some (hmContains s.mailboxes.hm name, s)
  | .mailboxesGet name, s => some (hmGet s.mailboxes.hm name, s)
  | .mailboxesPut name mb, s =>
    some ((), { s with mailboxes := { s.mailboxes with hm := hmPut s.mailboxes.hm name mb } })
  | .mailboxesRemove name, s =>
    some ((hmRemove s.mailboxes.hm name).1,
      { s with mailboxes := { s.mailboxes with hm := (hmRemove s.mailboxes.hm name).2 } })
  | .mailboxesKvps, s => iterateMailboxes s
  | .newMailbox, s =>
    some ((s.boxes.alloc (newList garbage .linkedList)).1,
      { s with boxes := (s.boxes.alloc (newList garbage .linkedList)).2 })
  | .deleteMailbox mb, s => deleteChatroomMailbox mb s
  | .mbLen mb, s => onBlock Chatroom.boxesPart mb (readList lLen) s
  | .mbPush mb msg, s => onBlock Chatroom.boxesPart mb (lPush msg) s
  | .mbPop mb, s => onBlock Chatroom.boxesPart mb (lPop true) s

/-- The structure of the maps only changes under the lock for writing, which the iterator belongs
to. A mailbox is used under its mutex. -/
def RoomAcc.footprint : RoomAcc → Footprint Nat
  | idMapContains _ => .reads
  | idMapGet _ => .reads
  | mailboxesContains _ => .reads
  | mailboxesGet _ => .reads
  | mbLen mb => .part mb
  | mbPush mb _ => .part mb
  | mbPop mb => .part mb
  | _ => .writes

/-- The maps, and for which addresses there is a mailbox. -/
structure RoomShape where
  idMap : HashMap UInt64 CString
  mailboxes : HashMapT CString Nat
  live : List Bool

def Chatroom.shape (s : Chatroom) : RoomShape where
  idMap := s.idMap
  mailboxes := s.mailboxes
  live := s.boxes.cells.map Option.isSome

/-- The data of the chatroom. -/
def roomData (garbage : Garbage) :
    Guarded RoomAcc RoomAcc.Ans Nat Chatroom RoomShape (Option ChatroomMailbox) where
  access := roomAccess garbage
  footprint := RoomAcc.footprint
  shape := Chatroom.shape
  part s mb := s.boxes.load mb
  live shape mb := shape.live.getD mb false

/-! ## Functions -/

abbrev RoomProg := LockProg Nat RoomAcc.Ans

/-- One access. -/
def access (a : RoomAcc) : RoomProg a.Ans := .perform (.access a) .done

def safePthreadMutexLock (mb : Nat) : RoomProg Unit := .perform (.lock mb) .done
def safePthreadMutexUnlock (mb : Nat) : RoomProg Unit := .perform (.unlock mb) .done
def safePthreadRwlockRdlock : RoomProg Unit := .perform .rdlock .done
def safePthreadRwlockWrlock : RoomProg Unit := .perform .wrlock .done
def safePthreadRwlockUnlock : RoomProg Unit := .perform .rwunlock .done

/-- What stands between the lock for reading and its unlock. -/
def underRdlock {α : Type} (p : RoomProg α) : RoomProg α := do
  safePthreadRwlockRdlock
  let x ← p
  safePthreadRwlockUnlock
  pure x

/-- What stands between the lock for writing and its unlock. -/
def underWrlock {α : Type} (p : RoomProg α) : RoomProg α := do
  safePthreadRwlockWrlock
  let x ← p
  safePthreadRwlockUnlock
  pure x

def chatroomMailboxPush (mb : Nat) (msg : ChatroomMessage) : RoomProg Unit := do
  safePthreadMutexLock mb
  access (.mbPush mb msg)
  safePthreadMutexUnlock mb

/-- The loop over `i < pop_amt`. A `msg` that was not written is no message. -/
def pollLoop (mb : Nat) : Nat → RoomProg (List ChatroomMessage)
  | 0 => pure []
  | n + 1 => do
    match ← access (.mbPop mb) with
    | none => .fault
    | some msg =>
      let msgs ← pollLoop mb n
      pure (msg :: msgs)

/-- What is written to `out_buf`. The length is cut to 32 bits. -/
def chatroomMailboxPoll (mb outBufLen : Nat) : RoomProg (List ChatroomMessage) := do
  safePthreadMutexLock mb
  let len ← access (.mbLen mb)
  let mbLen := len % 2 ^ 32
  let popAmt := if mbLen < outBufLen then mbLen else outBufLen
  let msgs ← pollLoop mb popAmt
  safePthreadMutexUnlock mb
  pure msgs

/-- `lc || uc || num` -/
def isNameChar (c : UInt8) : Bool :=
  (97 ≤ c && c ≤ 122) || (65 ≤ c && c ≤ 90) || (48 ≤ c && c ≤ 57)

def chatroomLogin (id : UInt64) (username : CString) : RoomProg ChatroomStatus :=
  if username.chars.length = 0 ∨ 20 < username.chars.length then pure .invalidUsername
  else if username.chars.head? = some 36 then pure .invalidUsername
  else if ¬username.chars.all isNameChar then pure .invalidUsername
  else underWrlock do
    if ← access (.idMapContains id) then pure .channelAlreadyRegistered
    else if ← access (.mailboxesContains username) then pure .usernameTaken
    else do
      access (.idMapPut id username)
      let mb ← access .newMailbox
      access (.mailboxesPut username mb)
      pure .success

def chatroomLogout (id : UInt64) : RoomProg ChatroomStatus := underWrlock do
  match ← access (.idMapGet id) with
  | some username => do
    let _ ← access (.idMapRemove id)
    match ← access (.mailboxesGet username) with
    | none => .fault
    | some mb => do
      let _ ← access (.mailboxesRemove username)
      access (.deleteMailbox mb)
      pure .success
  | none => pure .channelNotRegistered

/-- `NULL` if there is no such user. -/
def chatroomGetUsername (id : UInt64) : RoomProg (Option CString) :=
  underRdlock (access (.idMapGet id))

/-- `while ((kvp = hm_next_kvp(cs->mailboxes)) != HASH_MAP_EXHAUSTED)` -/
def sendLoop (sender msg : CString) : List (KeyVal CString Nat) → RoomProg Unit
  | [] => pure ()
  | kvp :: kvps => do
    chatroomMailboxPush kvp.value ⟨true, sender, msg⟩
    sendLoop sender msg kvps

/-- `_chatroom_send_global_msg`, which expects the lock for writing -/
def sendGlobalMsg (sender msg : CString) : RoomProg Unit := do
  let kvps ← access .mailboxesKvps
  sendLoop sender msg kvps

def badMessageLen (msg : CString) : Bool :=
  msg.chars.length = 0 || chatroomMaxMessageLen < msg.chars.length

def chatroomSendGlobalMsgFromId (id : UInt64) (msg : CString) : RoomProg ChatroomStatus :=
  if badMessageLen msg then pure .invalidMessageLen
  else underWrlock do
    match ← access (.idMapGet id) with
    | some sender => do
      sendGlobalMsg sender msg
      pure .success
    | none => pure .channelNotRegistered

def chatroomSendGlobalMsg (sender msg : CString) : RoomProg ChatroomStatus :=
  if badMessageLen msg then pure .invalidMessageLen
  else underWrlock do
    sendGlobalMsg sender msg
    pure .success

/-- `_chatroom_send_private_msg`, which expects the lock for reading -/
def sendPrivateMsg (receiver sender msg : CString) : RoomProg ChatroomStatus := do
  match ← access (.mailboxesGet receiver) with
  | none => pure .unknownReceiver
  | some mb => do
    chatroomMailboxPush mb ⟨false, sender, msg⟩
    pure .success

def chatroomSendPrivateMsgFromId (receiver : CString) (id : UInt64) (msg : CString) :
    RoomProg ChatroomStatus :=
  if badMessageLen msg then pure .invalidMessageLen
  else underRdlock do
    match ← access (.idMapGet id) with
    | some sender => sendPrivateMsg receiver sender msg
    | none => pure .channelNotRegistered

def chatroomSendPrivateMsg (receiver sender msg : CString) : RoomProg ChatroomStatus :=
  if badMessageLen msg then pure .invalidMessageLen
  else underRdlock (sendPrivateMsg receiver sender msg)

/-- The status and what is written, `none` if nothing was, not even `*written`. -/
def chatroomPoll (id : UInt64) (outBufLen : Nat) :
    RoomProg (ChatroomStatus × Option (List ChatroomMessage)) :=
  if outBufLen = 0 then pure (.success, some [])
  else underRdlock do
    match ← access (.idMapGet id) with
    | some username => do
      match ← access (.mailboxesGet username) with
      | none => .fault
      | some mb => do
        let msgs ← chatroomMailboxPoll mb outBufLen
        pure (.success, some msgs)
    | none => pure (.channelNotRegistered, none)

/-! ## The end -/

/-- `while ((kvp = hm_next_kvp(cs->mailboxes)) != HASH_MAP_EXHAUSTED)` -/
def deleteLoop : List (KeyVal CString Nat) → CallM Chatroom Unit
  | [] => pure ()
  | kvp :: kvps => do
    deleteChatroomMailbox kvp.value
    deleteLoop kvps

/-- `delete_chatroom_state`, which expects that nobody uses the state. What is left are the
mailboxes that were not deleted. -/
def deleteChatroomState : CallM Chatroom Unit := do
  let kvps ← iterateMailboxes
  deleteLoop kvps

/-! ## Calls -/

/-- A call of a function of `chatroom.h`. -/
inductive RoomCall where
  | login (id : UInt64) (username : CString)
  | logout (id : UInt64)
  | getUsername (id : UInt64)
  | sendGlobalMsgFromId (id : UInt64) (msg : CString)
  | sendGlobalMsg (sender msg : CString)
  | sendPrivateMsgFromId (receiver : CString) (id : UInt64) (msg : CString)
  | sendPrivateMsg (receiver sender msg : CString)
  | poll (id : UInt64) (outBufLen : Nat)
  deriving DecidableEq

inductive RoomAnswer where
  | status (st : ChatroomStatus)
  | username (name : Option CString)
  | polled (st : ChatroomStatus) (written : Option (List ChatroomMessage))
  deriving DecidableEq

def roomBody : RoomCall → RoomProg RoomAnswer
  | .login id username => do pure (.status (← chatroomLogin id username))
  | .logout id => do pure (.status (← chatroomLogout id))
  | .getUsername id => do pure (.username (← chatroomGetUsername id))
  | .sendGlobalMsgFromId id msg => do pure (.status (← chatroomSendGlobalMsgFromId id msg))
  | .sendGlobalMsg sender msg => do pure (.status (← chatroomSendGlobalMsg sender msg))
  | .sendPrivateMsgFromId receiver id msg => do
    pure (.status (← chatroomSendPrivateMsgFromId receiver id msg))
  | .sendPrivateMsg receiver sender msg => do
    pure (.status (← chatroomSendPrivateMsg receiver sender msg))
  | .poll id outBufLen => do
    let res ← chatroomPoll id outBufLen
    pure (.polled res.1 res.2)

end Chlibs.Chat
