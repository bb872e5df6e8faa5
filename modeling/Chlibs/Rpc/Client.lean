import Chlibs.Rpc.Server

/-!
# Sending requests

The client of `rpc_client.c`: it serializes a request into its buffer, sends it, polls its
channel until a response is there or the time is up, and parses the response out of the
same buffer.

What the channel does during one call is an argument of the call: the answer of `chn_send`,
and what each poll finds. A call may still be polling when these end.
-/

namespace Chlibs.Rpc

open Infra Serial Channel

/-- `chrpc_client_attrs_t`. `useconds_t` has 32 bits. -/
structure ClientAttrs where
  cadence : UInt32
  timeout : UInt32

/-- `chrpc_client_t`. `chn` is whether there is a channel; `buf_len` is the length of `buf`. -/
structure ChrpcClient where
  attrs : ClientAttrs
  chn : Bool
  buf : Bytes

def ChrpcClient.bufLen (client : ChrpcClient) : Nat := client.buf.length

/-- `none` for `CHRPC_CLIENT_CREATION_ERROR`. `buf` is as `malloc` leaves it. -/
def newChrpcClient (attrs : ClientAttrs) (buf : Bytes) : Option ChrpcClient :=
  if attrs.cadence = 0 then none else some ⟨attrs, true, buf⟩

/-- `delete_channel(client->chn); client->chn = NULL;` -/
def ChrpcClient.close (client : ChrpcClient) : ChrpcClient := { client with chn := false }

/-! ## The request -/

/-- The loop over the arguments. -/
def chrpcClientWriteArgs (bufLen : Nat) : List (Option ChrpcValue) → Nat → SWriter Nat
  | [], totalWritten => return totalWritten
  | arg :: args, totalWritten => do
    let written ← chrpcValueToBufferWithLength arg totalWritten (← remaining bufLen totalWritten)
    chrpcClientWriteArgs bufLen args (totalWritten + written)

/-- The request, serialized on the fly. -/
def chrpcClientWriteRequest (name : CString) (args : List (Option ChrpcValue)) (bufLen : Nat) :
    SWriter Nat := do
  let typeWritten ← chrpcTypeToBuffer reqType 0 bufLen
  failIf ((← remaining bufLen typeWritten) < 4 + name.block.length) chrpcBufferTooSmall
  store typeWritten (le32 name.block.length)
  store (typeWritten + 4) name.block
  let nameWritten := typeWritten + 4 + name.block.length
  failIf ((← remaining bufLen nameWritten) < 4) chrpcBufferTooSmall
  store nameWritten (le32 args.length)
  chrpcClientWriteArgs bufLen args (nameWritten + 4)

/-! ## Polling -/

/-- What `chn_refresh` and `chn_receive` answer at one poll. -/
structure Poll where
  refresh : ChannelStatus
  receive : Except ChannelStatus Bytes

/-- How the body of the polling loop ends. -/
inductive PollStep where
  | received (msg : Bytes)
  | stopped (chnStatus : ChannelStatus)
  | again (timeWaited : UInt32)

/-- The body of the polling loop. -/
def chrpcClientPollStep (attrs : ClientAttrs) (timeWaited : UInt32) (poll : Poll) : PollStep :=
  if poll.refresh ≠ .success then .stopped poll.refresh
  else
    match poll.receive with
    | .ok msg => .received msg
    | .error .noIncomingMsg => .again (timeWaited + attrs.cadence)
    | .error chnStatus => .stopped chnStatus

/-- The polling loop: a message, or the last status. `none` while it goes on. -/
def chrpcClientPoll (attrs : ClientAttrs) :
    List Poll → UInt32 → ChannelStatus → Option (Except ChannelStatus Bytes)
  | [], timeWaited, chnStatus =>
    if timeWaited < attrs.timeout then none else some (.error chnStatus)
  | poll :: polls, timeWaited, chnStatus =>
    if timeWaited < attrs.timeout then
      match chrpcClientPollStep attrs timeWaited poll with
      | .received msg => some (.ok msg)
      | .stopped chnStatus => some (.error chnStatus)
      | .again timeWaited => chrpcClientPoll attrs polls timeWaited .noIncomingMsg
    else some (.error chnStatus)

/-! ## The response -/

/-- The return value inside a response, and the status of parsing it. -/
def chrpcClientParseRetVal (serialRetVal : Bytes) (serialLen : Nat) :
    SRes (ChrpcStatus × Option ChrpcValue) :=
  if 0 < serialLen then
    match readBlock serialRetVal serialLen >>= chrpcValueFromBuffer with
    | .ok (retVal, _) => .ok (chrpcSuccess, some retVal)
    | .error (.status st) => .ok (st, none)
    | .error .fault => .error .fault
  else .ok (chrpcSuccess, none)

/-- `if (retVal) delete_chrpc_value(retVal);` -/
def deleteOptional : Option ChrpcValue → SRes Unit
  | none => .ok ()
  | some v => deleteChrpcValue v

/--
Parse the response at the start of `buf`. Gives back the status and what is stored through
`ret`: `none` if nothing is. `wantRet` is whether `ret` is not `NULL`.
-/
def chrpcClientParseResponse (buf : Bytes) (wantRet : Bool) :
    SRes (ChrpcStatus × Option (Option ChrpcValue)) :=
  match chrpcValueFromBuffer buf with
  | .error .fault => .error .fault
  | .error (.status _) => .ok (chrpcBadResponse, none)
  | .ok (resp, _) =>
    if !chrpcTypeEquals respType resp.type then do
      deleteChrpcValue resp
      .ok (chrpcBadResponse, none)
    else
      match resp.value with
      | .entries [.num [rpcStatus], .numArr serialRetVal serialLen] =>
        if rpcStatus ≠ chrpcSuccess then do
          deleteChrpcValue resp
          .ok (rpcStatus, none)
        else do
          let (rpcStatus, retVal) ← chrpcClientParseRetVal serialRetVal serialLen
          if rpcStatus ≠ chrpcSuccess then do
            deleteChrpcValue resp
            .ok (rpcStatus, none)
          else if wantRet then do
            deleteChrpcValue resp
            .ok (rpcStatus, some retVal)
          else do
            deleteOptional retVal
            deleteChrpcValue resp
            .ok (rpcStatus, none)
      | _ => .error .fault

/-! ## The call -/

/-- How a call ends: `ret` is what it stores through its `ret` argument. -/
inductive ClientResult where
  | returned (status : ChrpcStatus) (ret : Option (Option ChrpcValue))
  | waiting
  | undefined

/-- A call: the message it handed to `chn_send`, its result, and the client afterwards. -/
structure ClientRun where
  sent : Option Bytes
  result : ClientResult
  client : ChrpcClient

/-- A message was received into the buffer. Its length is not looked at again. -/
def chrpcClientFinish (client : ChrpcClient) (msg : Bytes) (wantRet : Bool) :
    ClientResult × ChrpcClient :=
  let buf := overwrite client.buf 0 msg
  match chrpcClientParseResponse buf wantRet with
  | .ok (status, ret) => (.returned status ret, { client with buf := buf })
  | .error _ => (.undefined, { client with buf := buf })

/-- The polling loop ended without a message. -/
def chrpcClientGiveUp (client : ChrpcClient) (chnStatus : ChannelStatus) :
    ClientResult × ChrpcClient :=
  if chnStatus = .noIncomingMsg then (.returned chrpcDisconnect none, client.close)
  else (.returned chrpcClientChannelError none, client.close)

def chrpcClientSendRequest (client : ChrpcClient) (name : CString)
    (args : List (Option ChrpcValue)) (wantRet : Bool) (chnSend : Bytes → ChannelStatus)
    (polls : List Poll) : ClientRun :=
  if !client.chn then ⟨none, .returned chrpcClientChannelError none, client⟩
  else
    match (chrpcClientWriteRequest name args client.bufLen).run client.buf with
    | .error .fault buf => ⟨none, .undefined, { client with buf := buf }⟩
    | .error (.status st) buf => ⟨none, .returned st none, { client with buf := buf }⟩
    | .ok totalWritten buf =>
      let client := { client with buf := buf }
      let msg := buf.take totalWritten
      if chnSend msg ≠ .success then
        ⟨some msg, .returned chrpcClientChannelError none, client.close⟩
      else
        match chrpcClientPoll client.attrs polls 0 .success with
        | none => ⟨some msg, .waiting, client⟩
        | some (.ok resp) =>
          let (result, client) := chrpcClientFinish client resp wantRet
          ⟨some msg, result, client⟩
        | some (.error chnStatus) =>
          let (result, client) := chrpcClientGiveUp client chnStatus
          ⟨some msg, result, client⟩

end Chlibs.Rpc
