import Chlibs.Channel.Interface
import Chlibs.Infra.Program
import Chlibs.Rpc.Endpoint
import Chlibs.Serial.ValueBuffer

/-!
# Handling requests

What a worker of `rpc_server.c` does with one channel: poll it for a message, decode and
check the request, call the endpoint, and answer.

The functions are programs over the calls that leave the worker: those on the channel, and
the endpoint function itself. `buf` is the worker's buffer of `max_msg_size` bytes. Allocations
succeed, and what is logged is left out, with the `log_warn` that lacks the argument of its `%s`.
-/

namespace Chlibs.Rpc

open Infra Serial Channel

def chrpcServerBufMinSize : Nat := 0x80

/-- `chrpc_server_command_t` -/
inductive ServerCommand where
  | disconnect
  | keepAlive
  deriving DecidableEq, Repr

/-- `chrpc_server_attrs_t`, less the sleeping time; `onDisconnect` is whether there is one. -/
structure ServerAttrs where
  maxMsgSize : Nat
  maxConnections : Nat
  numWorkers : Nat
  idleTimeout : Int
  onDisconnect : Bool

/-- The parts of `chrpc_server_t` that never change. -/
structure ChrpcServer where
  attrs : ServerAttrs
  epSet : EndpointSet

/-- `none` for `CHRPC_SERVER_CREATION_ERROR`. -/
def newChrpcServer (attrs : ServerAttrs) (eps : EndpointSet) : Option ChrpcServer :=
  if attrs.maxConnections = 0 ∨ attrs.numWorkers = 0 ∨ attrs.maxMsgSize < chrpcServerBufMinSize then
    none
  else if attrs.maxConnections < attrs.numWorkers then none
  else some ⟨attrs, eps⟩

theorem newChrpcServer_eq_some {attrs : ServerAttrs} {eps : EndpointSet} {server : ChrpcServer}
    (h : newChrpcServer attrs eps = some server) :
    server = ⟨attrs, eps⟩ ∧ 0 < attrs.maxConnections ∧ 0 < attrs.numWorkers ∧
      chrpcServerBufMinSize ≤ attrs.maxMsgSize := by
  unfold newChrpcServer at h
  split at h
  · simp at h
  · split at h
    · simp at h
    · cases h
      exact ⟨rfl, by omega, by omega, by omega⟩

/-- `req_type`: the endpoint's name, and the serialized arguments. -/
def reqType : ChrpcType := .struct [.prim .string, .array (.array (.prim .byte))]

/-- `resp_type`: a status, and the serialized return value. -/
def respType : ChrpcType := .struct [.prim .byte, .array (.prim .byte)]

/-! ## Operations -/

/-- The calls that leave the worker. -/
inductive ServerOp where
  /-- `chn_refresh` -/
  | refresh
  /-- `chn_receive` into a buffer of `len` bytes -/
  | receive (len : Nat)
  /-- `chn_send` -/
  | send (msg : Bytes)
  /-- `ep->func(id, server_state, &ret_val, args, num_args)` -/
  | endpoint (ep : Endpoint) (id : Nat) (args : List ChrpcValue)

/-- What they return: an endpoint function, its command and its return value or `NULL`. -/
abbrev ServerOp.Ans : ServerOp → Type
  | .refresh => ChannelStatus
  | .receive _ => Except ChannelStatus Bytes
  | .send _ => ChannelStatus
  | .endpoint _ _ _ => ServerCommand × Option ChrpcValue

abbrev ServerProg := Prog ServerOp ServerOp.Ans

abbrev chnRefresh : ServerProg ChannelStatus := Prog.call ServerOp.refresh

abbrev chnReceive (len : Nat) : ServerProg (Except ChannelStatus Bytes) :=
  Prog.call (ServerOp.receive len)

abbrev chnSend (msg : Bytes) : ServerProg ChannelStatus := Prog.call (ServerOp.send msg)

abbrev callEndpoint (ep : Endpoint) (id : Nat) (args : List ChrpcValue) :
    ServerProg (ServerCommand × Option ChrpcValue) := Prog.call (ServerOp.endpoint ep id args)

def deleteValue (v : ChrpcValue) : ServerProg Unit :=
  match deleteChrpcValue v with
  | .ok () => .done ()
  | .error _ => .fault

def deleteValues : List ChrpcValue → ServerProg Unit
  | [] => .done ()
  | v :: vs => do deleteValue v; deleteValues vs

/-! ## Responses -/

/-- Runs with the buffer at offset 0 of `buf`. -/
def chrpcSendErrorResponse (server : ChrpcServer) (buf : Bytes) (err : ChrpcStatus) :
    ServerProg ChrpcStatus :=
  match newChrpcStructValue [newChrpcB8Value err.toBitVec, newChrpcB8ArrayValue []] with
  | none => .fault
  | some errVal =>
    match (chrpcValueToBuffer errVal 0 server.attrs.maxMsgSize).run buf with
    | .error .fault _ => .fault
    | .error (.status st) _ => do
      deleteValue errVal
      return st
    | .ok written buf => do
      deleteValue errVal
      if (← chnSend (buf.take written)) ≠ .success then return chrpcClientChannelError
      else return chrpcSuccess

/-- Accounts for `NULL` on both sides. -/
def chrpcTypeEqualsWrapper : Option ChrpcType → Option ChrpcValue → Bool
  | none, none => true
  | some ct, some cv => chrpcTypeEquals ct cv.type
  | _, _ => false

/-- The success response, serialized on the fly. -/
def chrpcWriteResponse (retVal : Option ChrpcValue) (mms : Nat) : SWriter Nat := do
  let written ← chrpcTypeToBuffer respType 0 mms
  failIf ((← remaining mms written) < 1) chrpcBufferTooSmall
  store written [chrpcSuccess]
  let w ← chrpcValueToBufferWithLength retVal (written + 1) (← remaining mms (written + 1))
  return written + 1 + w

/-- `if (ret_val) delete_chrpc_value(ret_val);` -/
def deleteRetVal : Option ChrpcValue → ServerProg Unit
  | none => .done ()
  | some v => deleteValue v

/-- `chrpc_send_response` after the endpoint function has returned. -/
def chrpcRespond (server : ChrpcServer) (buf : Bytes) (ep : Endpoint) (cmd : ServerCommand)
    (retVal : Option ChrpcValue) : ServerProg ChrpcStatus :=
  if !chrpcTypeEqualsWrapper ep.ret retVal then do
    deleteRetVal retVal
    return chrpcServerInternalError
  else
    match (chrpcWriteResponse retVal server.attrs.maxMsgSize).run buf with
    | .error .fault _ => .fault
    | .error (.status st) buf => do
      deleteRetVal retVal
      chrpcSendErrorResponse server buf st
    | .ok totalWritten buf => do
      deleteRetVal retVal
      match ← chnSend (buf.take totalWritten) with
      | .invalidMsgSize => chrpcSendErrorResponse server buf chrpcBufferTooSmall
      | .success => return if cmd = .disconnect then chrpcDisconnect else chrpcSuccess
      | _ => return chrpcClientChannelError

def chrpcSendResponse (server : ChrpcServer) (id : Nat) (buf : Bytes) (ep : Endpoint)
    (args : List ChrpcValue) : ServerProg ChrpcStatus := do
  let (cmd, retVal) ← callEndpoint ep id args
  chrpcRespond server buf ep cmd retVal

/-! ## Requests -/

/--
Decode the arguments up to the first failure. Gives back the status, and the arguments
decoded so far, which the caller deletes.
-/
def parseArgs : List ChrpcType → List InnerValue → SRes (ChrpcStatus × List ChrpcValue)
  | [], _ => .ok (chrpcSuccess, [])
  | t :: ts, .numArr fieldBuf fieldBufLen :: cells =>
    match readBlock fieldBuf fieldBufLen >>= chrpcValueFromBuffer with
    | .error (.status st) => .ok (st, [])
    | .error .fault => .error .fault
    | .ok (field, _) =>
      if !chrpcTypeEquals t field.type then .ok (chrpcArgumentMismatch, [field])
      else do
        let (status, fields) ← parseArgs ts cells
        .ok (status, field :: fields)
  | _ :: _, _ => .error .fault

def chrpcHandleRequest (server : ChrpcServer) (id : Nat) (buf : Bytes) (req : ChrpcValue) :
    ServerProg ChrpcStatus :=
  if !chrpcTypeEquals reqType req.type then chrpcSendErrorResponse server buf chrpcBadRequest
  else
    match req.value with
    | .entries [.str endpointName, .entries argArrays] =>
      match chrpcEndpointSetLookup server.epSet endpointName with
      | none => .fault
      | some none => chrpcSendErrorResponse server buf chrpcUnknownEndpoint
      | some (some ep) =>
        if ep.args.length ≠ argArrays.length then
          chrpcSendErrorResponse server buf chrpcArgumentMismatch
        else
          match parseArgs ep.args argArrays with
          | .error _ => .fault
          | .ok (status, givenArgs) => do
            let status ←
              if status ≠ chrpcSuccess then chrpcSendErrorResponse server buf status
              else chrpcSendResponse server id buf ep givenArgs
            deleteValues givenArgs
            return status
    | _ => .fault

/-- `chrpc_poll_channel` with a message of `msgSize` bytes in the buffer. -/
def chrpcHandleMessage (server : ChrpcServer) (id : Nat) (buf : Bytes) (msgSize : Nat) :
    ServerProg ChrpcStatus :=
  match chrpcValueFromBuffer (buf.take msgSize) with
  | .error .fault => .fault
  | .error (.status st) => chrpcSendErrorResponse server buf st
  | .ok (req, _) => do
    let status ← chrpcHandleRequest server id buf req
    deleteValue req
    return status

/-- One poll of a channel. -/
def chrpcPollChannel (server : ChrpcServer) (id : Nat) (buf : Bytes) : ServerProg ChrpcStatus := do
  if (← chnRefresh) ≠ .success then return chrpcClientChannelError
  else
    match ← chnReceive server.attrs.maxMsgSize with
    | .error .noIncomingMsg => return chrpcClientChannelEmpty
    | .error _ => return chrpcClientChannelError
    | .ok msg => chrpcHandleMessage server id (overwrite buf 0 msg) msg.length

/-- Whether the worker gives up a channel after a poll. `idle` is the time since its last
request. -/
def workerDisconnects (attrs : ServerAttrs) (idle : Int) (status : ChrpcStatus) : Bool :=
  if status = chrpcClientChannelEmpty then 0 < attrs.idleTimeout && attrs.idleTimeout < idle
  else status ≠ chrpcSuccess

end Chlibs.Rpc
