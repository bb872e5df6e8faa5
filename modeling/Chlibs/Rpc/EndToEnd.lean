import Chlibs.Rpc.Dispatch
import Chlibs.Rpc.Polling
import Chlibs.Rpc.Response
import Chlibs.Serial.Equality

/-!
# A call from end to end

The client's request goes through the server to the endpoint, and the response back to the
client. The channel in between delivers what it accepts, unchanged and in time.

* `requestBytes_accepts` — the server accepts the request of a well-typed call.
* `chrpcClientParseResponse_value` — the client reads the value that the server has sent.
* `call_endToEnd` — the two together.
-/

namespace Chlibs.Rpc

open Infra Serial Channel

/-! ## The request at the server -/

section Request

variable {name : CString} {args : List ChrpcValue}

theorem valueBytes_length_le : ∀ {args : List ChrpcValue}, ∀ arg ∈ args,
    (chrpcValueCodec.write arg).length ≤
      ((args.map chrpcValueCodec.write).flatMap Codec.block.write).length
  | a :: as, arg, harg => by
    simp only [List.map_cons, List.flatMap_cons, List.length_append, Codec.block_write]
    rcases List.mem_cons.mp harg with rfl | hmem
    · omega
    · have ih := valueBytes_length_le arg hmem
      omega

/-- A request that fits a buffer is a value of the grammar. -/
theorem requestValue_dom {cells : List Bytes}
    (hname : name.block.length < 2 ^ 32) (hcount : cells.length < 2 ^ 32)
    (hcells : ∀ cell ∈ cells, cell.length < 2 ^ 32) :
    chrpcValueCodec.dom (requestValue name cells) := by
  have hcomp : (ChrpcType.array (.prim .byte)).IsComposite := trivial
  rw [chrpcValueCodec_dom]
  refine ⟨⟨by decide, by decide, trivial, trivial, trivial⟩, hname, ?_, trivial⟩
  refine (InnerValue.sizedArray_composite hcomp _).mpr ⟨_, rfl, by simpa using hcount, ?_⟩
  intro iv hiv
  obtain ⟨cell, hcell, rfl⟩ := List.mem_map.mp hiv
  exact (InnerValue.sizedArray_numeric (by decide) _).mpr
    ⟨cell, cell.length, rfl, hcells cell hcell, by simp [PrimType.size]⟩

/-- Decoding the cells of the arguments gives the arguments. -/
theorem argsAccepted_write : ∀ {args : List ChrpcValue}, (∀ arg ∈ args, arg.WellFormed) →
    ArgsAccepted (args.map ChrpcValue.type) (args.map chrpcValueCodec.write) args
  | [], _ => .nil
  | arg :: args, h => by
    have hread := chrpcValueFromBuffer_write (h arg List.mem_cons_self).dom []
    rw [List.append_nil] at hread
    exact .cons hread rfl (argsAccepted_write fun x hx => h x (List.mem_cons_of_mem _ hx))

theorem stringsIn_write {v : ChrpcValue} (h : v.WellFormed) :
    AllHoldNul (stringsIn (chrpcValueCodec.write v)) := by
  have hread : chrpcValueCodec.read (chrpcValueCodec.write v) = some (v, []) := by
    simpa only [List.append_nil] using chrpcValueCodec.read_write h.dom []
  rw [stringsIn, hread]
  exact fun s hs => (h.value.strings s (scalarStrings_subset _ hs)).mem

theorem stringsInArgs_write : ∀ (ts : List ChrpcType) {args : List ChrpcValue},
    (∀ arg ∈ args, arg.WellFormed) →
    AllHoldNul (stringsInArgs ts (args.map chrpcValueCodec.write))
  | [], _, _ => by simp [stringsInArgs]
  | _ :: _, [], _ => by simp [stringsInArgs]
  | t :: ts, arg :: args, h => by
    have ih := stringsInArgs_write ts fun x hx => h x (List.mem_cons_of_mem _ hx)
    rw [List.map_cons, stringsInArgs, allHoldNul_append]
    refine ⟨stringsIn_write (h arg List.mem_cons_self), ?_⟩
    cases chrpcValueCodec.read (chrpcValueCodec.write arg) with
    | none => exact allHoldNul_nil
    | some x =>
      simp only
      split
      · exact ih
      · exact allHoldNul_nil

/-- The request decodes to its name and its cells, and to nothing else. -/
theorem isRequest_requestBytes {cells : List Bytes}
    (hdom : chrpcValueCodec.dom (requestValue name cells)) :
    IsRequest (requestBytes name cells) name.block cells ∧
    ∀ name' cells', IsRequest (requestBytes name cells) name' cells' →
      name' = name.block ∧ cells' = cells := by
  have hread := chrpcValueFromBuffer_write hdom []
  rw [requestValue_write, List.append_nil] at hread
  have hreq : IsRequest (requestBytes name cells) name.block cells := ⟨_, hread⟩
  exact ⟨hreq, fun _ _ h => hreq.unique h⟩

/-- **The server accepts the request of a well-typed call**, whose strings all end. -/
theorem requestBytes_accepts {epSet : EndpointSet} {ep : Endpoint} (hep : ep ∈ epSet.endpoints)
    (hargs : ∀ arg ∈ args, arg.WellFormed) (htypes : args.map ChrpcValue.type = ep.args)
    (hlen : (requestBytes ep.name (args.map chrpcValueCodec.write)).length < 2 ^ 32) :
    Accepts epSet (requestBytes ep.name (args.map chrpcValueCodec.write)) ep args ∧
    StringsTerminated epSet (requestBytes ep.name (args.map chrpcValueCodec.write)) := by
  have hcount : args.length ≤ chrpcEndpointMaxArgs := by
    have := congrArg List.length htypes
    rw [List.length_map] at this
    exact this ▸ ep.args_length
  have hdom : chrpcValueCodec.dom (requestValue ep.name (args.map chrpcValueCodec.write)) := by
    simp only [requestBytes, Codec.block_write, List.length_append] at hlen
    refine requestValue_dom (by omega) ?_ ?_
    · rw [chrpcEndpointMaxArgs] at hcount
      rw [List.length_map]
      omega
    · intro cell hcell
      obtain ⟨arg, harg, rfl⟩ := List.mem_map.mp hcell
      have := valueBytes_length_le arg harg
      omega
  obtain ⟨hreq, huniq⟩ := isRequest_requestBytes hdom
  refine ⟨⟨hep, _, _, hreq, cString_block ep.name, htypes ▸ argsAccepted_write hargs⟩, ?_, ?_⟩
  · have hread : chrpcValueCodec.read (requestBytes ep.name (args.map chrpcValueCodec.write))
        = some (requestValue ep.name (args.map chrpcValueCodec.write), []) := by
      simpa only [requestValue_write, List.append_nil] using chrpcValueCodec.read_write hdom []
    rw [stringsIn, hread]
    intro s hs
    have hs : s = ep.name.block := by
      simpa [requestValue, requestEntries, InnerValue.scalarStrings, InnerValue.allScalarStrings,
        allScalarStrings_eq] using hs
    rw [hs]
    exact ep.name.terminatedOnce.mem
  · rintro name cells ep' hreq' - - -
    obtain ⟨-, rfl⟩ := huniq name cells hreq'
    exact stringsInArgs_write ep'.args hargs

end Request

/-! ## The response at the client -/

theorem valueBytes_eq_nil_iff (v : Option ChrpcValue) : valueBytes v = [] ↔ v = none := by
  cases v with
  | none => simp [valueBytes]
  | some v =>
    have htype : v.type.bytes ≠ [] := by
      cases v.type <;> simp [ChrpcType.bytes]
    simp [valueBytes, chrpcValueCodec_write, htype]

/-- **The client reads the value that was sent**, or the status of an error response. -/
theorem chrpcClientParseResponse_value {retVal : Option ChrpcValue}
    (h : ∀ v ∈ retVal, v.WellFormed) (hlen : (valueBytes retVal).length < 2 ^ 32) (rest : Bytes) :
    chrpcClientParseResponse (responseBytes chrpcSuccess (valueBytes retVal) ++ rest) true
      = .ok (chrpcSuccess, some retVal) := by
  have hresp : BeginsWithResponse (responseBytes chrpcSuccess (valueBytes retVal) ++ rest)
      chrpcSuccess (valueBytes retVal) := ⟨hlen, rest, rfl⟩
  rw [chrpcClientParseResponse_response hresp, responseResult, if_neg (by simp),
    chrpcClientParseRetVal_eq]
  cases retVal with
  | none => rfl
  | some v =>
    have hread := chrpcValueFromBuffer_write (h v rfl).dom []
    rw [List.append_nil] at hread
    rw [if_neg (by simp [valueBytes_eq_nil_iff]), valueBytes, hread]
    rfl

theorem chrpcClientParseResponse_error {status : ChrpcStatus} (h : status ≠ chrpcSuccess)
    (wantRet : Bool) (rest : Bytes) :
    chrpcClientParseResponse (responseBytes status [] ++ rest) wantRet = .ok (status, none) := by
  have hresp : BeginsWithResponse (responseBytes status [] ++ rest) status [] :=
    ⟨by simp, rest, rfl⟩
  rw [chrpcClientParseResponse_response hresp, responseResult, if_pos h]

/-! ## The channel -/

/-- A channel with room takes every message of `1` to `mms` bytes. -/
def chnSendBounded (mms : Nat) (msg : Bytes) : ChannelStatus :=
  if 0 < msg.length ∧ msg.length ≤ mms then .success else .invalidMsgSize

/-- The messages that the channel took from the server. -/
def accepted (trace : List (Prog.Event ServerOp ServerOp.Ans)) : List Bytes :=
  trace.filterMap fun
    | ⟨.send msg, .success⟩ => some msg
    | _ => none

/-- The polls of a client whose channel is empty some times and then has `msg`, in time. -/
def Delivers (attrs : ClientAttrs) (msg : Bytes) (polls : List Poll) : Prop :=
  ∃ k rest, k * attrs.cadence.toNat < attrs.timeout.toNat ∧
    polls = List.replicate k ⟨.success, .error .noIncomingMsg⟩ ++ ⟨.success, .ok msg⟩ :: rest

/-- A message that is delivered in time is received. -/
theorem Delivers.received {attrs : ClientAttrs} {msg : Bytes} {polls : List Poll}
    (h : Delivers attrs msg polls) :
    chrpcClientPoll attrs polls 0 .success = some (.ok msg) := by
  obtain ⟨k, rest, hk, rfl⟩ := h
  have h0 : (0 : UInt32).toNat = 0 := rfl
  obtain ⟨timeWaited, chnStatus, hwaited, heq⟩ := chrpcClientPoll_empty attrs
    (⟨.success, .ok msg⟩ :: rest) k 0 .success (by rw [h0]; omega)
  have htime : timeWaited < attrs.timeout := by
    rw [UInt32.lt_iff_toNat_lt, hwaited, h0]
    omega
  rw [emptyPolls] at heq
  rw [heq, chrpcClientPoll, if_pos htime]
  rfl

/-! ## The call -/

/-- The return value that the client stores is equal to the one the endpoint gave, or `NULL`. -/
def SameReturn : Option ChrpcValue → Option ChrpcValue → Prop
  | none, none => True
  | some v, some w => chrpcValueEquals v w = .ok true
  | _, _ => False

theorem sameReturn_self {retVal : Option ChrpcValue} (h : ∀ v ∈ retVal, v.WellFormed) :
    SameReturn retVal retVal := by
  cases retVal with
  | none => trivial
  | some v => exact chrpcValueEquals_self (h v rfl)

section Call

variable {σ : Type} {mms : Nat}

/-- The server's answer as the channel takes it: the response, or an error where it is too long. -/
theorem accepted_sendResponse {maxMsgSize : Nat} (hmin : chrpcServerBufMinSize ≤ mms)
    (hmax : mms ≤ maxMsgSize) (cmd : ServerCommand) (req : Bytes) {msg : Bytes} (hmsg : 0 < msg.length)
    (func : EndpointFunc σ) (s : σ) :
    accepted ((sendResponse maxMsgSize cmd msg).run (pollEnv req mms func) s).trace =
      if msg.length ≤ mms then [msg] else [responseBytes chrpcBufferTooSmall []] := by
  have herr : ∀ s : σ, accepted ((sendError chrpcBufferTooSmall).run (pollEnv req mms func) s).trace
      = [responseBytes chrpcBufferTooSmall []] := fun s => by
    rw [sendError_run hmin]
    rfl
  rw [sendResponse]
  by_cases hfit : msg.length ≤ mms
  · rw [if_pos (by omega), chnSend, Prog.call_bind, Prog.run_perform, if_pos hfit]
    simp only [pollEnv, if_pos (And.intro hmsg hfit)]
    rfl
  · rw [if_neg hfit]
    split
    · rw [chnSend, Prog.call_bind, Prog.run_perform]
      have hbad : ¬(0 < msg.length ∧ msg.length ≤ mms) := fun h => hfit h.2
      simp only [pollEnv, if_neg hbad]
      exact herr s
    · exact herr s

/-- **What the client makes of the answer.** -/
theorem chrpcClientSendRequest_answered {client : ChrpcClient} (hchn : client.chn = true)
    (hbuf : client.bufLen < 2 ^ 32) {name : CString} {args : List (Option ChrpcValue)}
    (hargs : ∀ arg ∈ args, ∀ v ∈ arg, v.WellFormed)
    (hreq : (requestBytes name (args.map valueBytes)).length ≤ client.bufLen)
    (send : Bytes → ChannelStatus)
    (hsend : send (requestBytes name (args.map valueBytes)) = .success)
    {retVal : Option ChrpcValue} (hret : ∀ v ∈ retVal, v.WellFormed) {polls : List Poll}
    (hpolls : Delivers client.attrs
      (if (responseBytes chrpcSuccess (valueBytes retVal)).length ≤ client.bufLen then
        responseBytes chrpcSuccess (valueBytes retVal)
      else responseBytes chrpcBufferTooSmall []) polls) :
    (chrpcClientSendRequest client name args true send polls).result =
      if (responseBytes chrpcSuccess (valueBytes retVal)).length ≤ client.bufLen then
        .returned chrpcSuccess (some retVal)
      else .returned chrpcBufferTooSmall none := by
  have hlen : 0 + client.bufLen ≤ client.buf.length := by simp [ChrpcClient.bufLen]
  have hwrite := (chrpcClientWriteRequest_fills name hargs client.bufLen).fits _ hlen hreq
  rw [chrpcClientSendRequest_received hchn name args true send polls hwrite
    (by rw [take_overwrite_zero]; exact hsend) hpolls.received, chrpcClientFinish_result]
  by_cases hfit : (responseBytes chrpcSuccess (valueBytes retVal)).length ≤ client.bufLen
  · have hpayload : (valueBytes retVal).length < 2 ^ 32 := by
      rw [responseBytes_length] at hfit
      omega
    rw [if_pos hfit, if_pos hfit, overwrite_zero, chrpcClientParseResponse_value hret hpayload]
  · rw [if_neg hfit, if_neg hfit, overwrite_zero, chrpcClientParseResponse_error
      (show chrpcBufferTooSmall ≠ chrpcSuccess by decide)]

/--
**A well-typed call goes through.** The endpoint is called exactly once, with arguments equal
to those of the client; the client returns with a value equal to the endpoint's, or reports
that the response was too long.
-/
theorem call_endToEnd {attrs : ServerAttrs} {eps : List Endpoint} {epSet : EndpointSet}
    {server : ChrpcServer} {serverBuf : Bytes} {client : ChrpcClient} {ep : Endpoint}
    {args : List ChrpcValue} (hset : newChrpcEndpointSet eps = some epSet)
    (hserver : newChrpcServer attrs epSet = some server)
    (hserverBuf : serverBuf.length = attrs.maxMsgSize) (hlimit : attrs.maxMsgSize < 2 ^ 32)
    (hmin : chrpcServerBufMinSize ≤ mms) (hmax : mms ≤ attrs.maxMsgSize)
    (hchn : client.chn = true) (hbufLen : client.bufLen = mms) (hep : ep ∈ eps)
    (hargs : ∀ arg ∈ args, arg.WellFormed) (htypes : args.map ChrpcValue.type = ep.args)
    (hreq : (requestBytes ep.name (args.map chrpcValueCodec.write)).length ≤ mms) (id : Nat)
    (func : EndpointFunc σ)
    (hret : ∀ args s, chrpcTypeEqualsWrapper ep.ret (func ep id args s).1.2 = true ∧
      ∀ v ∈ (func ep id args s).1.2, v.WellFormed) (s : σ) :
    let call := chrpcClientSendRequest client ep.name (args.map some) true (chnSendBounded mms)
    ∃ req, (∀ polls, (call polls).sent = some req) ∧
      let out := (chrpcPollChannel server id serverBuf).run (pollEnv req mms func) s
      ∃ args', calls out.trace = [(ep, id, args')] ∧
        List.Forall₂ (fun a a' => chrpcValueEquals a a' = .ok true) args args' ∧
        let retVal := (func ep id args' s).1.2
        ∃ resp, accepted out.trace = [resp] ∧ ∀ polls, Delivers client.attrs resp polls →
          if (responseBytes chrpcSuccess (valueBytes retVal)).length ≤ mms then
            ∃ ret, (call polls).result = .returned chrpcSuccess (some ret) ∧ SameReturn retVal ret
          else (call polls).result = .returned chrpcBufferTooSmall none := by
  intro call
  obtain ⟨hserverEq, -, -, hserverMin⟩ := newChrpcServer_eq_some hserver
  obtain rfl : server.attrs = attrs := by rw [hserverEq]
  obtain rfl : server.epSet = epSet := by rw [hserverEq]
  obtain ⟨hwf, rfl⟩ := newChrpcEndpointSet_wellFormed hset
  have hopt : ∀ arg ∈ args.map some, ∀ v ∈ arg, v.WellFormed := by simpa using hargs
  have hcells : (args.map some).map valueBytes = args.map chrpcValueCodec.write := by
    rw [List.map_map]
    rfl
  obtain ⟨haccepts, hnul⟩ := requestBytes_accepts hep hargs htypes (by omega)
  have hsend : chnSendBounded mms (requestBytes ep.name (args.map chrpcValueCodec.write))
      = .success := if_pos ⟨by simp [requestBytes], hreq⟩
  refine ⟨requestBytes ep.name (args.map chrpcValueCodec.write), fun polls => ?_, args, ?_, ?_, ?_⟩
  · have hsent := chrpcClientSendRequest_sent hchn ep.name hopt true (chnSendBounded mms)
      polls
    rwa [hcells, hbufLen, if_pos hreq] at hsent
  · rw [chrpcPollChannel_run (by omega), chrpcHandleMessage_accepted hwf hnul haccepts]
    exact calls_chrpcSendResponse id _ ep args _ s
  · exact List.forall₂_same.mpr fun arg harg => chrpcValueEquals_self (hargs arg harg)
  · obtain ⟨htype, hwellFormed⟩ := hret args s
    have hlen : (overwrite serverBuf 0
        (requestBytes ep.name (args.map chrpcValueCodec.write))).length = server.attrs.maxMsgSize := by
      rw [overwrite_length (by omega), hserverBuf]
    -- A response that does not fit is replaced by an error response, which always does.
    refine ⟨if (responseBytes chrpcSuccess (valueBytes (func ep id args s).1.2)).length ≤ mms then
        responseBytes chrpcSuccess (valueBytes (func ep id args s).1.2)
      else responseBytes chrpcBufferTooSmall [], ?_, fun polls hpolls => ?_⟩
    · have hpos : 0 < (responseBytes chrpcSuccess (valueBytes (func ep id args s).1.2)).length := by
        simp
      have hsend := accepted_sendResponse hmin hmax (func ep id args s).1.1
        (requestBytes ep.name (args.map chrpcValueCodec.write)) hpos func (func ep id args s).2
      have hrespond := chrpcRespond_eq hserverMin hlen.ge htype hwellFormed (func ep id args s).1.1
      rw [chrpcPollChannel_run (by omega), chrpcHandleMessage_accepted hwf hnul haccepts,
        chrpcSendResponse, callEndpoint, Prog.call_bind, Prog.run_perform]
      simp only [pollEnv, hrespond]
      refine Eq.trans ?_ (hsend.trans (by split <;> rfl))
      rfl
    · have hresult := chrpcClientSendRequest_answered hchn (by omega) hopt
        (by rw [hcells, hbufLen]; exact hreq) (chnSendBounded mms) (by rw [hcells]; exact hsend)
        hwellFormed (by rwa [hbufLen])
      rw [hbufLen] at hresult
      split
      · next hfit =>
        rw [if_pos hfit] at hresult
        exact ⟨_, hresult, sameReturn_self hwellFormed⟩
      · next hfit =>
        rw [if_neg hfit] at hresult
        exact hresult

end Call

/-- The endpoint `a` is called with the byte `5`, which it returns. -/
theorem call_endToEnd_byte :
    ∃ epSet req args', newChrpcEndpointSet
        [⟨⟨[97], by decide⟩, some (.prim .byte), [.prim .byte], by decide⟩] = some epSet ∧
      calls ((chrpcPollChannel ⟨⟨128, 1, 1, 0, false⟩, epSet⟩ 3 (List.replicate 128 7)).run
        (pollEnv req 128 fun _ _ _ s => ((.keepAlive, some ⟨.prim .byte, .num [5]⟩), s)) ()).trace
        = [(⟨⟨[97], by decide⟩, some (.prim .byte), [.prim .byte], by decide⟩, 3, args')] := by
  have hset : ∃ epSet, newChrpcEndpointSet
      [⟨⟨[97], by decide⟩, some (.prim .byte), [.prim .byte], by decide⟩] = some epSet := ⟨_, rfl⟩
  obtain ⟨epSet, hset⟩ := hset
  have hserver : newChrpcServer ⟨128, 1, 1, 0, false⟩ epSet = some ⟨⟨128, 1, 1, 0, false⟩, epSet⟩ :=
    rfl
  have hwf : (⟨.prim .byte, .num [5]⟩ : ChrpcValue).WellFormed :=
    ⟨trivial, ⟨by decide, rfl⟩, by simp [InnerValue.stringBlocks]⟩
  have hclient : (⟨⟨5, 100⟩, true, List.replicate 128 7⟩ : ChrpcClient).bufLen = 128 :=
    List.length_replicate
  have hargs : ∀ arg ∈ [(⟨.prim .byte, .num [5]⟩ : ChrpcValue)], arg.WellFormed := by
    simpa using hwf
  obtain ⟨req, -, args', hcalls, -⟩ := call_endToEnd hset hserver List.length_replicate
    (by decide) (by decide) le_rfl rfl hclient List.mem_cons_self hargs rfl (by decide) 3
    (fun _ _ _ s => ((.keepAlive, some ⟨.prim .byte, .num [5]⟩), s))
    (fun _ _ => ⟨rfl, by simpa using hwf⟩) ()
  exact ⟨epSet, req, args', hset, hcalls⟩

end Chlibs.Rpc
