import Chlibs.Chat.CommandLine
import Chlibs.Rpc.EndToEnd

/-!
# The client of the chatroom

`client.c`: one thread talks to the server, and another one reads what is typed and shows what came.
There are two mailboxes between them.

* `clientLogin`, `clientWorkerTurn` — programs that send requests.
* `clientPrintReceivedMsg` — a message on the screen.
* `Client` — where the threads are, and the mailboxes; `ClientMoves` — what they do by themselves.
* `UserMoves` — what a client and the worker that serves it do: requests and responses are the bytes
  that the RPC library makes of them.
* `chatSystem` — any number of clients, and the server.
-/

namespace Chlibs.Chat

open Infra Serial Util Rpc

/-! ## Return values -/

/-- `iv->struct_entries[i]` -/
def structEntry (iv : InnerValue) (i : Nat) : Option InnerValue :=
  match iv with
  | .entries ivs => ivs[i]?
  | _ => none

/-- `iv->b8` -/
def b8Of : InnerValue → Option UInt8
  | .num (b :: _) => some b
  | _ => none

/-- `new_string_from_cstr(iv->str)` -/
def strOf : InnerValue → Option CString
  | .str block => cstrAt block 0
  | _ => none

/-- The text of the error, if the first entry says that there is one. -/
def readStatus (ret : Option ChrpcValue) : Option (Option CString) := do
  let ret ← ret
  if (← b8Of (← structEntry ret.value 0)) = 0 then
    return none
  return some (← strOf (← structEntry ret.value 1))

def readMessage (iv : InnerValue) : Option ChatroomMessage := do
  return ⟨(← b8Of (← structEntry iv 0)) != 0, ← strOf (← structEntry iv 1),
    ← strOf (← structEntry iv 2)⟩

/-! ## Requests -/

/-- What the programs of the client do. -/
inductive ClientOp where
  | shouldExit
  | pollSendQ
  | request (name : CString) (args : List ChrpcValue)
  | pushRecvQ (msg : ChatroomMessage)

/-- A request stores something through `ret`, or its status is not `CHRPC_SUCCESS`. -/
@[reducible] def ClientOp.Ans : ClientOp → Type
  | shouldExit => Bool
  | pollSendQ => Option ChatroomMessage
  | request _ _ => Except ChrpcStatus (Option ChrpcValue)
  | pushRecvQ _ => Unit

abbrev ClientProg := Prog ClientOp ClientOp.Ans

abbrev shouldExit : ClientProg Bool := Prog.call ClientOp.shouldExit

abbrev pollSendQ : ClientProg (Option ChatroomMessage) := Prog.call ClientOp.pollSendQ

abbrev sendRequest (name : CString) (args : List ChrpcValue) :
    ClientProg (Except ChrpcStatus (Option ChrpcValue)) := Prog.call (ClientOp.request name args)

abbrev pushRecvQ (msg : ChatroomMessage) : ClientProg Unit :=
  Prog.call (ClientOp.pushRecvQ msg)

/-- How a program ends; `fatal` is `log_fatal`, which ends the process. -/
inductive Turn where
  | goesOn
  | returns
  | fatal

def errorSender : CString := literal "$ERROR"

/-- The loop over the messages that were polled. -/
def clientPushAll : List InnerValue → ClientProg Unit
  | [] => pure ()
  | iv :: ivs =>
    match readMessage iv with
    | none => .fault
    | some msg => do
      pushRecvQ msg
      clientPushAll ivs

/-- The second half of the loop of `client_worker_routine`. -/
def clientPoll : ClientProg Turn := do
  match ← sendRequest (literal "poll") [] with
  | .error _ => pure .fatal
  | .ok ret =>
    match ret.map ChrpcValue.value with
    | some (.entries ivs) => do
      clientPushAll ivs
      pure .goesOn
    | _ => .fault

def clientSendMsg (sendMsg : ChatroomMessage) :
    ClientProg (Except ChrpcStatus (Option ChrpcValue)) :=
  if sendMsg.generalMsg then
    sendRequest (literal "send_global_message") [newChrpcStrValue sendMsg.msg]
  else
    sendRequest (literal "send_private_message")
      [newChrpcStrValue sendMsg.user, newChrpcStrValue sendMsg.msg]

/-- What the worker does with what a send returned, and after that. -/
def clientReplied (ret : Option ChrpcValue) : ClientProg Turn :=
  match readStatus ret with
  | none => .fault
  | some none => clientPoll
  | some (some text) => do
    pushRecvQ ⟨false, errorSender, text⟩
    clientPoll

/-- The body of the loop of `client_worker_routine`. -/
def clientWorkerTurn : ClientProg Turn := do
  if ← shouldExit then
    pure .returns
  else
    match ← pollSendQ with
    | none => clientPoll
    | some sendMsg =>
      match ← clientSendMsg sendMsg with
      | .error _ => pure .fatal
      | .ok ret => clientReplied ret

/-- What `main` does before it starts the worker. -/
def clientLogin (username : CString) : ClientProg Turn := do
  match ← sendRequest (literal "login") [newChrpcStrValue username] with
  | .error _ => pure .fatal
  | .ok loginRet =>
    match readStatus loginRet with
    | none => .fault
    | some none => pure .goesOn
    | some (some _) => pure .fatal

/-! ## The screen -/

/-- `ANSI_CNTRL` -/
def ansiCntrl (codeStr : String) : Bytes := 0x1B :: (literal ("[" ++ codeStr ++ "m")).chars

def ansiReset : Bytes := ansiCntrl "0"
def ansiItalic : Bytes := ansiCntrl "3"
def ansiRedFg : Bytes := ansiCntrl "31"
def ansiBlueFg : Bytes := ansiCntrl "34"
def ansiBrightMagentaFg : Bytes := ansiCntrl "95"
def ansiBrightCyanFg : Bytes := ansiCntrl "96"

/-- A notice is shown in one color. -/
def noticeText (color : Bytes) (msg : CString) : Bytes :=
  color ++ ansiItalic ++ msg.chars ++ ansiReset

/-- A message is shown behind the name of its sender. -/
def messageText (color : Bytes) (sender msg : CString) : Bytes :=
  color ++ sender.chars ++ ansiReset ++ ansiItalic ++ space :: msg.chars ++ ansiReset

def clientPrintReceivedMsg (msg : ChatroomMessage) : Bytes :=
  if msg.user.chars.head? = some dollar then
    if sEquals msg.user rootSender then noticeText ansiBlueFg msg.msg
    else if sEquals msg.user errorSender then noticeText ansiRedFg msg.msg
    else []
  else if msg.generalMsg then messageText ansiBrightCyanFg msg.user msg.msg
  else messageText ansiBrightMagentaFg msg.user msg.msg

/-! ## The threads -/

/-- Where `client_cmd_prompt_routine` is. -/
inductive Prompt where
  | before
  | reads (line : CmdLine)
  | ended

/-- A client. In the mailboxes, the newest message is the last. `typed` is what was ever put into
`send_q`, and `shown` is what was ever printed. -/
structure Client where
  worker : ClientProg Turn
  asked : Bool
  prompt : Prompt
  shouldExit : Bool
  sendQ : List ChatroomMessage
  recvQ : List ChatroomMessage
  typed : List ChatroomMessage
  shown : List ChatroomMessage

def Client.start (username : CString) : Client where
  worker := clientLogin username
  asked := false
  prompt := .before
  shouldExit := false
  sendQ := []
  recvQ := []
  typed := []
  shown := []

/-- The steps of a client without the server. The functions of a mailbox have its mutex from their
beginning to their end. -/
inductive ClientMoves (c : Client) : Client → Prop
  | reads {line line' : CmdLine} {key : UInt8} {msg : Option ChatroomMessage}
      (hprompt : c.prompt = .reads line) (hlives : c.worker ≠ .done .fatal)
      (hkey : cmdKey line key = some (msg, line')) :
      ClientMoves c { c with
        prompt := .reads line'
        sendQ := c.sendQ ++ msg.toList
        typed := c.typed ++ msg.toList }
  | shows {line : CmdLine} {msgs : List ChatroomMessage} {msg : ChatroomMessage}
      (hprompt : c.prompt = .reads line) (hlives : c.worker ≠ .done .fatal)
      (hrecv : c.recvQ = msgs ++ [msg]) :
      ClientMoves c { c with recvQ := msgs, shown := c.shown ++ [msg] }
  -- `sys_sig_exit_requested`
  | signalled {line : CmdLine} (hprompt : c.prompt = .reads line) :
      ClientMoves c { c with prompt := .ended }
  | tells (hprompt : c.prompt = .ended) : ClientMoves c { c with shouldExit := true }
  | flag {k : Bool → ClientProg Turn} (hat : c.worker = .perform .shouldExit k) :
      ClientMoves c { c with worker := k c.shouldExit }
  | takes {k : Option ChatroomMessage → ClientProg Turn} (hat : c.worker = .perform .pollSendQ k) :
      ClientMoves c { c with worker := k c.sendQ.getLast?, sendQ := c.sendQ.dropLast }
  | pushes {msg : ChatroomMessage} {k : Unit → ClientProg Turn}
      (hat : c.worker = .perform (.pushRecvQ msg) k) :
      ClientMoves c { c with worker := k (), recvQ := c.recvQ ++ [msg] }
  | starts (hat : c.worker = .done .goesOn) (hprompt : c.prompt = .before) :
      ClientMoves c { c with worker := clientWorkerTurn, prompt := .reads .start }
  | turns (hat : c.worker = .done .goesOn) (hprompt : c.prompt ≠ .before) :
      ClientMoves c { c with worker := clientWorkerTurn }

/-! ## The system -/

theorem chatEndpointSet_isSome :
    (newChrpcEndpointSet (chatEndpoints.map Prod.fst)).isSome = true := by decide

/-- The set of the endpoints. -/
def chatEndpointSet : EndpointSet :=
  (newChrpcEndpointSet (chatEndpoints.map Prod.fst)).get chatEndpointSet_isSome

/-- A client, and what the server does for it. -/
structure User where
  client : Client
  job : Job

/-- The message with which a request is sent. -/
def requestMsg (name : CString) (args : List ChrpcValue) : Bytes :=
  requestBytes name (args.map chrpcValueCodec.write)

/-- The message with which a value is returned. -/
def returnMsg (ret : Option ChrpcValue) : Bytes := responseBytes chrpcSuccess (valueBytes ret)

inductive UserMoves (id : UInt64) (u : User) : User → Prop
  | client {c : Client} (h : ClientMoves u.client c) : UserMoves id u { u with client := c }
  | asks {name : CString} {args args' : List ChrpcValue}
      {k : Except ChrpcStatus (Option ChrpcValue) → ClientProg Turn} {ep : Endpoint}
      {func : UInt64 → List ChrpcValue → EpProg EpRet}
      (hat : u.client.worker = .perform (.request name args) k) (hasked : u.client.asked = false)
      (hjob : u.job = .idle) (hfits : (requestMsg name args).length ≤ chatMaxMsgSize)
      (hep : (ep, func) ∈ chatEndpoints)
      (hmsg : Accepts chatEndpointSet (requestMsg name args) ep args') :
      UserMoves id u
        { client := { u.client with asked := true }, job := .serving ep (func id args') }
  -- `rest` is what was in the buffer of the client.
  | answered {name : CString} {args : List ChrpcValue}
      {k : Except ChrpcStatus (Option ChrpcValue) → ClientProg Turn} {ep : Endpoint}
      {cmd : ServerCommand} {ret ret' : Option ChrpcValue} {rest : Bytes}
      (hat : u.client.worker = .perform (.request name args) k) (hasked : u.client.asked = true)
      (hjob : u.job = .serving ep (.done (cmd, ret)))
      (hmsg : chrpcClientParseResponse (returnMsg ret ++ rest) true
        = .ok (chrpcSuccess, some ret')) :
      UserMoves id u
        { client := { u.client with worker := k (.ok ret'), asked := false }, job := .idle }
  -- The channel breaks, or the time is up, or the server refuses the request.
  | fails {name : CString} {args : List ChrpcValue}
      {k : Except ChrpcStatus (Option ChrpcValue) → ClientProg Turn} {st : ChrpcStatus}
      (hat : u.client.worker = .perform (.request name args) k) :
      UserMoves id u { u with client := { u.client with worker := k (.error st), asked := false } }
  | unheard {ep : Endpoint} {ret : EpRet} (hasked : u.client.asked = false)
      (hjob : u.job = .serving ep (.done ret)) : UserMoves id u { u with job := .idle }
  | disconnects (hjob : u.job = .idle) :
      UserMoves id u { u with job := .leaving (chatroomOnDisconnect id) }
  | goes (hjob : u.job = .leaving (.done ())) : UserMoves id u { u with job := .gone }

inductive UserCalls (u : User) : RoomCall → (RoomAnswer → User) → Prop
  | job {c : RoomCall} {k : RoomAnswer → Job} (h : JobCalls u.job c k) :
      UserCalls u c fun a => { u with job := k a }

/-- The clients, by the ids of their channels. -/
def chatUsers (username : UInt64 → CString) : Clients UInt64 RoomCall RoomAnswer User where
  start id := ⟨.start (username id), .idle⟩
  moves := UserMoves
  calls _ := UserCalls

/-- The clients with the names that they were started with, and the server. -/
def chatSystem (username : UInt64 → CString) :
    TransitionSystem (AtomicClients UInt64 RoomCall RoomAnswer User Room) :=
  atomicClients (chatUsers username) roomStep .empty

end Chlibs.Chat
