import Chlibs.Chat.Concurrent
import Chlibs.Infra.Clients
import Chlibs.Rpc.Messages

/-!
# The server of the chatroom

The endpoints of `server.c`, and what it does when a channel is gone.

* `chatroomLoginEp`, `chatroomSendGlobalMsgEp`, `chatroomSendPrivateMsgEp`, `chatroomPollEp`,
  `chatroomOnDisconnect` — programs that call the functions of `chatroom.h`.
* `chatEndpoints` — the endpoints with their types.
* `chatClients` — the channels as clients of the chatroom: the pool serves a channel one request at
  a time, and the last thing it does for a channel is to disconnect it.

Strings are values, as in `Chlibs.Chat.Chatroom`. String arguments are expected to have an end
(`SoundArg`), which the RPC server does not check.
-/

namespace Chlibs.Chat

open Infra Serial Util Rpc

/-! ## Texts -/

/-- A string literal of ASCII characters. -/
def literal (s : String) : CString :=
  ⟨cString (s.toList.map fun c => c.val.toUInt8), zero_notMem_cString _⟩

/-- `s_append_cstr` and `s_append_string` -/
def sAppend (s t : CString) : CString :=
  ⟨s.chars ++ t.chars, by simp [s.noNul, t.noNul]⟩

def chatroomStatusAsLiteral : ChatroomStatus → CString
  | .success => literal "Success"
  | .channelAlreadyRegistered => literal "Channel is already registered"
  | .usernameTaken => literal "Username is taken"
  | .invalidUsername => literal "Given username is invalid"
  | .channelNotRegistered => literal "Channel is not registered"
  | .invalidMessageLen => literal "Invalid message length"
  | .unknownReceiver => literal "Unknown receiver"

def rootSender : CString := literal "$ROOT"

def loginMsg (username : CString) : CString := sAppend username (literal " has logged in")

def logoutMsg (username : CString) : CString := sAppend username (literal " has logged out")

/-! ## Endpoints -/

/-- Calls of the functions of `chatroom.h`. -/
abbrev EpProg := Prog RoomCall fun _ => RoomAnswer

/-- What an endpoint function returns, and `*ret`. -/
abbrev EpRet := ServerCommand × Option ChrpcValue

/-- A call that answers with its status. -/
def callStatus (c : RoomCall) : EpProg ChatroomStatus := do
  match ← Prog.call c with
  | .status st => pure st
  | _ => .fault

/-- `args[i]->value->str`: undefined if it has no end. -/
def argStr (args : List ChrpcValue) (i : Nat) : Option CString :=
  match (args.map ChrpcValue.value)[i]? with
  | some (.str b) => if (0 : UInt8) ∈ b then some ⟨cString b, zero_notMem_cString b⟩ else none
  | _ => none

def newChatroomServerSuccess : Option ChrpcValue :=
  newChrpcStructValue [newChrpcB8Value 0, newChrpcStrValue (literal "")]

def newChatroomServerError (msg : CString) : Option ChrpcValue :=
  newChrpcStructValue [newChrpcB8Value 1, newChrpcStrValue msg]

/-- What the endpoints that return a status do with it. -/
def returnStatus : ChatroomStatus → EpRet
  | .success => (.keepAlive, newChatroomServerSuccess)
  | st => (.keepAlive, newChatroomServerError (chatroomStatusAsLiteral st))

def chatroomLoginEp (id : UInt64) (args : List ChrpcValue) : EpProg EpRet :=
  match argStr args 0 with
  | none => .fault
  | some username => do
    match ← callStatus (.login id username) with
    | .success => do
      let _ ← callStatus (.sendGlobalMsg rootSender (loginMsg username))
      pure (returnStatus .success)
    | st => pure (returnStatus st)

def chatroomSendGlobalMsgEp (id : UInt64) (args : List ChrpcValue) : EpProg EpRet :=
  match argStr args 0 with
  | none => .fault
  | some msg => do
    let status ← callStatus (.sendGlobalMsgFromId id msg)
    pure (returnStatus status)

def chatroomSendPrivateMsgEp (id : UInt64) (args : List ChrpcValue) : EpProg EpRet :=
  match argStr args 0, argStr args 1 with
  | some receiver, some msg => do
    let status ← callStatus (.sendPrivateMsgFromId receiver id msg)
    pure (returnStatus status)
  | _, _ => .fault

def pollSize : Nat := 5

/-- `{ CHRPC_BYTE_T, CHRPC_STRING_T, CHRPC_STRING_T }` -/
def messageType : ChrpcType := .struct [.prim .byte, .prim .string, .prim .string]

def messageValue (msg : ChatroomMessage) : Option ChrpcValue :=
  newChrpcStructValue [newChrpcB8Value (if msg.generalMsg then 1 else 0),
    newChrpcStrValue msg.user, newChrpcStrValue msg.msg]

/-- `*ret` for the messages that were written. The array is made of no `NULL`s. -/
def pollValue (written : List ChatroomMessage) : Option (Option ChrpcValue) :=
  if written = [] then some (newChrpcCompositeEmptyArrayValue messageType)
  else (written.mapM messageValue).map newChrpcCompositeNemptyArrayValue

/-- Without a status of success, what was written is not read. -/
def chatroomPollEp (id : UInt64) (_args : List ChrpcValue) : EpProg EpRet := do
  match ← Prog.call (.poll id pollSize) with
  | .polled .success (some written) =>
    match pollValue written with
    | some ret => pure (.keepAlive, ret)
    | none => .fault
  | .polled .success none => .fault
  | .polled _ _ => pure (.keepAlive, newChrpcCompositeEmptyArrayValue messageType)
  | _ => .fault

def chatroomOnDisconnect (id : UInt64) : EpProg Unit := do
  match ← Prog.call (.getUsername id) with
  | .username username => do
    let status ← callStatus (.logout id)
    match username with
    | some username =>
      if status = .success then do
        let _ ← callStatus (.sendGlobalMsg rootSender (logoutMsg username))
        pure ()
      else pure ()
    | none => pure ()
  | _ => .fault

/-! ## The set of endpoints -/

/-- `{ CHRPC_BYTE_T, CHRPC_STRING_T }` -/
def statusType : ChrpcType := .struct [.prim .byte, .prim .string]

theorem strings_length_le {n : Nat} (h : n ≤ 2) :
    (List.replicate n (ChrpcType.prim .string)).length ≤ chrpcEndpointMaxArgs := by
  rw [List.length_replicate]
  exact h.trans (by decide)

/-- An endpoint with string arguments. -/
def chatEndpoint (name : CString) (ret : ChrpcType) (numArgs : Nat) (h : numArgs ≤ 2) : Endpoint :=
  ⟨name, some ret, List.replicate numArgs (.prim .string), strings_length_le h⟩

/-- The endpoints with their functions. -/
def chatEndpoints : List (Endpoint × (UInt64 → List ChrpcValue → EpProg EpRet)) :=
  [(chatEndpoint (literal "login") statusType 1 (Nat.le_succ 1), chatroomLoginEp),
    (chatEndpoint (literal "send_global_message") statusType 1 (Nat.le_succ 1),
      chatroomSendGlobalMsgEp),
    (chatEndpoint (literal "send_private_message") statusType 2 le_rfl, chatroomSendPrivateMsgEp),
    (chatEndpoint (literal "poll") (.array messageType) 0 (Nat.zero_le 2), chatroomPollEp)]

/-- `attrs.max_msg_size` -/
def chatMaxMsgSize : Nat := 0x1000

/-! ## Channels -/

/-- What a worker does for a channel. -/
inductive Job where
  | idle
  | serving (ep : Endpoint) (p : EpProg EpRet)
  | leaving (p : EpProg Unit)
  | gone

/-- What the server has checked of an argument: it is of its type. Its strings are expected to have
an end. -/
def SoundArg (arg : ChrpcValue) : Prop :=
  arg.value.Sized arg.type ∧ ∀ b ∈ arg.value.stringBlocks, (0 : UInt8) ∈ b

inductive JobMoves (id : UInt64) : Job → Job → Prop
  | serves {ep : Endpoint} {func : UInt64 → List ChrpcValue → EpProg EpRet} {args : List ChrpcValue}
      (hep : (ep, func) ∈ chatEndpoints) (htypes : args.map ChrpcValue.type = ep.args)
      (hargs : ∀ arg ∈ args, SoundArg arg) : JobMoves id .idle (.serving ep (func id args))
  | answers {ep : Endpoint} {ret : EpRet} : JobMoves id (.serving ep (.done ret)) .idle
  | disconnects : JobMoves id .idle (.leaving (chatroomOnDisconnect id))
  | goes : JobMoves id (.leaving (.done ())) .gone

inductive JobCalls : Job → RoomCall → (RoomAnswer → Job) → Prop
  | serving {ep : Endpoint} {c : RoomCall} {k : RoomAnswer → EpProg EpRet} :
      JobCalls (.serving ep (.perform c k)) c fun a => .serving ep (k a)
  | leaving {c : RoomCall} {k : RoomAnswer → EpProg Unit} :
      JobCalls (.leaving (.perform c k)) c fun a => .leaving (k a)

/-- The channels, by their ids. -/
def chatClients : Clients UInt64 RoomCall RoomAnswer Job where
  start _ := .idle
  moves := JobMoves
  calls _ := JobCalls

/-- The server, with what the calls mean. -/
def chatServer : TransitionSystem (AtomicClients UInt64 RoomCall RoomAnswer Job Room) :=
  atomicClients chatClients roomStep .empty

/-- The server, with the functions of `chatroom.c` under their locks. -/
def chatServerThreads (garbage : Garbage) (iterChainInd : Nat) (iter : Option Nat) :
    TransitionSystem (ThreadClients UInt64 RoomCall Nat Chatroom RoomAnswer Job RoomAcc.Ans) :=
  threadClients chatClients (roomData garbage) roomBody (newChatroomState iterChainInd iter)

end Chlibs.Chat
