import Chlibs.Rpc.Client
import Chlibs.Serial.Decode
import Chlibs.Serial.Encode

/-!
# Requests and responses on the wire

The client writes a request, and the server a response, without building its value. Both
are compared with `chrpcValueToBuffer` through the bytes that the two fill a buffer with.

* `chrpcClientWriteRequest_fills`, `chrpcWriteResponse_fills` — what the two write.
* `messages_generic` — it is what `chrpcValueToBuffer` writes, and fits when that does.
-/

namespace Chlibs.Rpc

open Infra Serial Channel

/-! ## The values that the messages stand for -/

/-- The fields of a request: a block for the endpoint's name, and the serialized arguments. -/
def requestEntries (name : Bytes) (cells : List Bytes) : InnerValue :=
  .entries [.str name, .entries (cells.map fun cell => .numArr cell cell.length)]

/-- A request to the endpoint of that name. -/
def requestValue (name : CString) (cells : List Bytes) : ChrpcValue :=
  ⟨reqType, requestEntries name.block cells⟩

/-- A response: a status, and the serialized return value, empty for `NULL`. -/
def responseValue (status : ChrpcStatus) (payload : Bytes) : ChrpcValue :=
  ⟨respType, .entries [.num [status], .numArr payload payload.length]⟩

/-- The bytes of an optional value, none for `NULL`. -/
def valueBytes : Option ChrpcValue → Bytes
  | none => []
  | some v => chrpcValueCodec.write v

/-- The bytes of a request. -/
def requestBytes (name : CString) (cells : List Bytes) : Bytes :=
  reqType.bytes ++ (Codec.block.write name.block ++
    (le32 cells.length ++ cells.flatMap Codec.block.write))

/-- The bytes of a response. -/
def responseBytes (status : ChrpcStatus) (payload : Bytes) : Bytes :=
  respType.bytes ++ (status :: Codec.block.write payload)

theorem byteArrays_write (cells : List Bytes) :
    (cells.map fun cell => InnerValue.numArr cell cell.length).flatMap (numArrCodec 1).write
      = cells.flatMap Codec.block.write := by
  rw [List.flatMap_map]
  rfl

theorem requestValue_write (name : CString) (cells : List Bytes) :
    chrpcValueCodec.write (requestValue name cells) = requestBytes name cells := by
  simp [chrpcValueCodec_write, requestValue, requestEntries, requestBytes, reqType, valueCodec,
    fieldsCodec, Codec.embed, Codec.cons, Codec.nil, primCodec_write_str, cellsCodec_write, arrayCodec,
    PrimType.size, byteArrays_write]

theorem responseValue_write (status : ChrpcStatus) (payload : Bytes) :
    chrpcValueCodec.write (responseValue status payload) = responseBytes status payload := by
  simp [chrpcValueCodec_write, responseValue, responseBytes, respType, valueCodec, fieldsCodec,
    Codec.embed, Codec.cons, Codec.nil, primCodec_write_num, numArrCodec_write, arrayCodec,
    PrimType.size]

theorem lengthPrefixed_eq (v : Option ChrpcValue) :
    lengthPrefixed v = Codec.block.write (valueBytes v) := by
  cases v <;> simp [lengthPrefixed, valueBytes]

@[simp] theorem respType_bytes : respType.bytes = [10, 2, 0, 11, 0] := rfl

@[simp] theorem responseBytes_length (status : ChrpcStatus) (payload : Bytes) :
    (responseBytes status payload).length = 10 + payload.length := by
  simp [responseBytes]
  omega

/-- A value of the request type is a request. -/
theorem sized_reqType {iv : InnerValue} (h : iv.Sized reqType) :
    ∃ name cells, iv = requestEntries name cells := by
  obtain ⟨ivs, rfl, hall⟩ := InnerValue.sized_struct_iff.mp h
  match ivs, hall with
  | [a, b], ⟨ha, hb, _⟩ =>
    obtain ⟨name, rfl, -⟩ := InnerValue.sized_string_iff.mp ha
    have hsized : b.SizedArray (InnerValue.Sized (.array (.prim .byte))) (.array (.prim .byte)) := by
      simpa [InnerValue.Sized] using hb
    have hcomp : (ChrpcType.array (.prim .byte)).IsComposite := trivial
    obtain ⟨cells, rfl, -, hcells⟩ := (InnerValue.sizedArray_composite hcomp b).mp hsized
    have hrange : cells ∈ Set.range (List.map fun cell : Bytes =>
        InnerValue.numArr cell cell.length) := by
      rw [Set.range_list_map]
      intro iv hiv
      have hcell : iv.SizedArray (InnerValue.Sized (.prim .byte)) (.prim .byte) := by
        simpa [InnerValue.Sized] using hcells iv hiv
      obtain ⟨block, n, rfl, -, hlen⟩ :=
        (InnerValue.sizedArray_numeric (p := .byte) (by decide) iv).mp hcell
      rw [PrimType.size, Nat.one_mul] at hlen
      exact ⟨block, congrArg (InnerValue.numArr block) hlen⟩
    obtain ⟨blocks, rfl⟩ := hrange
    exact ⟨name, blocks, rfl⟩

/-- A value of the response type is a response. -/
theorem sized_respType {iv : InnerValue} (h : iv.Sized respType) :
    ∃ status payload, iv = (responseValue status payload).value ∧ payload.length < 2 ^ 32 := by
  obtain ⟨ivs, rfl, hall⟩ := InnerValue.sized_struct_iff.mp h
  match ivs, hall with
  | [a, b], ⟨ha, hb, _⟩ =>
    obtain ⟨cell, rfl, hcell⟩ := (InnerValue.sized_numeric_iff (p := .byte) (by decide)).mp ha
    obtain ⟨status, rfl⟩ := List.length_eq_one_iff.mp hcell
    have hsized : b.SizedArray (InnerValue.Sized (.prim .byte)) (.prim .byte) := by
      simpa [InnerValue.Sized] using hb
    obtain ⟨payload, n, rfl, hn, hlen⟩ :=
      (InnerValue.sizedArray_numeric (p := .byte) (by decide) b).mp hsized
    rw [PrimType.size, Nat.one_mul] at hlen
    subst hlen
    exact ⟨status, payload, rfl, hn⟩

/-! ## What the client and the server write -/

/-- The loop over the arguments. -/
theorem chrpcClientWriteArgs_fills (n : Nat) : ∀ (args : List (Option ChrpcValue)) (w : Nat),
    w ≤ n → (∀ arg ∈ args, ∀ v ∈ arg, v.WellFormed) →
    Fills chrpcBufferTooSmall (chrpcClientWriteArgs n args w) w (n - w)
      ((args.map valueBytes).flatMap Codec.block.write)
      (w + ((args.map valueBytes).flatMap Codec.block.write).length)
  | [], w, _, _ => Fills.pure w
  | arg :: args, w, hw, h => by
    have harg := chrpcValueToBufferWithLength_fills (h arg List.mem_cons_self) w (n - w)
    rw [lengthPrefixed_eq] at harg
    rw [chrpcClientWriteArgs, remaining_of_le hw, pure_bind, List.map_cons, List.flatMap_cons]
    refine Fills.bind harg fun hfit => ?_
    have ih := chrpcClientWriteArgs_fills n args (w + (Codec.block.write (valueBytes arg)).length)
      (by omega) (fun x hx => h x (List.mem_cons_of_mem _ hx))
    rw [List.length_append]
    simpa only [Nat.add_assoc, Nat.sub_sub] using ih

/-- **The client writes the request**, or reports that its buffer is too small. -/
theorem chrpcClientWriteRequest_fills (name : CString) {args : List (Option ChrpcValue)}
    (h : ∀ arg ∈ args, ∀ v ∈ arg, v.WellFormed) (n : Nat) :
    Fills chrpcBufferTooSmall (chrpcClientWriteRequest name args n) 0 n
      (requestBytes name (args.map valueBytes))
      (requestBytes name (args.map valueBytes)).length := by
  have htail : (requestBytes name (args.map valueBytes)).length = reqType.bytes.length + 4
      + name.block.length + 4 + ((args.map valueBytes).flatMap Codec.block.write).length := by
    simp only [requestBytes, Codec.block_write, List.length_append, le32_length]
    omega
  rw [chrpcClientWriteRequest, htail, requestBytes, Codec.block_write, List.append_assoc]
  refine Fills.bind (chrpcTypeToBuffer_fills reqType 0 n) fun htype => ?_
  rw [remaining_of_le htype, pure_bind, Nat.zero_add]
  refine Fills.failIf (by simp; omega) fun hname => ?_
  refine Fills.bind (Fills.store (by simp; omega)) fun _ => ?_
  rw [le32_length]
  refine Fills.bind (Fills.store (by omega)) fun _ => ?_
  dsimp only
  rw [remaining_of_le (by omega), pure_bind, Nat.sub_sub, Nat.sub_sub]
  refine Fills.failIf (by simp; omega) fun hcount => ?_
  rw [List.length_map]
  refine Fills.bind (Fills.store (by simp; omega)) fun _ => ?_
  have hargs := chrpcClientWriteArgs_fills n args
    (reqType.bytes.length + 4 + name.block.length + 4) (by omega) h
  simpa only [le32_length, Nat.sub_sub, Nat.add_assoc] using hargs

/-- **The server writes the response**, or reports that its buffer is too small. -/
theorem chrpcWriteResponse_fills {retVal : Option ChrpcValue} (h : ∀ v ∈ retVal, v.WellFormed)
    (n : Nat) :
    Fills chrpcBufferTooSmall (chrpcWriteResponse retVal n) 0 n
      (responseBytes chrpcSuccess (valueBytes retVal))
      (responseBytes chrpcSuccess (valueBytes retVal)).length := by
  have hret := chrpcValueToBufferWithLength_fills h (respType.bytes.length + 1)
    (n - (respType.bytes.length + 1))
  rw [lengthPrefixed_eq] at hret
  rw [chrpcWriteResponse, responseBytes, List.length_append]
  refine Fills.bind (chrpcTypeToBuffer_fills respType 0 n) fun htype => ?_
  rw [remaining_of_le htype, pure_bind, Nat.zero_add]
  refine Fills.failIf (by simp; omega) fun hstatus => ?_
  refine Fills.bind (e := [chrpcSuccess]) (Fills.store (by rw [List.length_singleton]; omega))
    fun _ => ?_
  rw [remaining_of_le (by omega), pure_bind, List.length_singleton, Nat.sub_sub, List.length_cons,
    Nat.add_comm (Codec.block.write _).length, ← Nat.add_assoc]
  exact hret.map fun w => respType.bytes.length + 1 + w

/-! ## What the generic encoder writes -/

theorem fitsExactly_byteArray (cell : Bytes) :
    FitsExactly (.array (.prim .byte)) (.numArr cell cell.length) :=
  fitsExactly_numArr (by decide) (by simp [PrimType.size])

/-- **`chrpc_value_to_buffer` writes the same request**, for any cells. -/
theorem requestValue_fills {name : CString} (h : name.block.length < 2 ^ 32) (cells : List Bytes)
    (n : Nat) :
    Fills chrpcBufferTooSmall (chrpcValueToBuffer (requestValue name cells) 0 n) 0 n
      (requestBytes name cells) (requestBytes name cells).length := by
  have hcells : FitsExactly (.array (.array (.prim .byte)))
      (.entries (cells.map fun cell => .numArr cell cell.length)) := by
    have hcomp : (ChrpcType.array (.prim .byte)).IsComposite := trivial
    refine fitsExactly_cells hcomp fun iv hiv => ?_
    obtain ⟨cell, -, rfl⟩ := List.mem_map.mp hiv
    exact fitsExactly_byteArray cell
  rw [← requestValue_write]
  exact (fitsExactly_struct (.cons (fitsExactly_str h name.terminatedOnce)
    (.cons hcells .nil))).value 0 n

/-- **`chrpc_value_to_buffer` writes the same response**, for any payload. -/
theorem responseValue_fills (status : ChrpcStatus) (payload : Bytes) (n : Nat) :
    Fills chrpcBufferTooSmall (chrpcValueToBuffer (responseValue status payload) 0 n) 0 n
      (responseBytes status payload) (responseBytes status payload).length := by
  rw [← responseValue_write]
  exact (fitsExactly_struct (.cons (fitsExactly_num (p := .byte) (by decide) rfl)
    (.cons (fitsExactly_byteArray payload) .nil))).value 0 n

/-! ## Sending them -/

theorem newChrpcStructValue_response (err : ChrpcStatus) :
    newChrpcStructValue [newChrpcB8Value err.toBitVec, newChrpcB8ArrayValue []]
      = some (responseValue err []) := by
  have hcell : leBytes 1 err.toNat = [err] := by
    rw [leBytes, UInt8.ofNat_toNat]
    rfl
  simp [newChrpcStructValue, newChrpcB8Value, newChrpcB8ArrayValue, newNumericValue,
    newNumericArrayValue, responseValue, respType, chrpcMaxStructFields, PrimType.size, hcell]

/-- A response is deleted without a look at any string. -/
theorem deleteChrpcValue_responseValue (status : ChrpcStatus) (payload : Bytes) :
    deleteChrpcValue (responseValue status payload) = .ok () := by
  simp [deleteChrpcValue, responseValue, respType, deleteChrpcInnerValue, deleteChrpcFields,
    hasLenPrefix, chrpcTypeIsBlockable, chrpcInnerValueToBlockValue,
    chrpcInnerArrayValueToBlockValue, Bind.bind, Except.bind]

/-- Send an error response. -/
def sendError (err : ChrpcStatus) : ServerProg ChrpcStatus := do
  if (← chnSend (responseBytes err [])) ≠ .success then return chrpcClientChannelError
  else return chrpcSuccess

/-- **An error response fits any server buffer.** -/
theorem chrpcSendErrorResponse_eq {server : ChrpcServer} {buf : Bytes}
    (hmms : chrpcServerBufMinSize ≤ server.attrs.maxMsgSize)
    (hbuf : server.attrs.maxMsgSize ≤ buf.length) (err : ChrpcStatus) :
    chrpcSendErrorResponse server buf err = sendError err := by
  have hfit := (responseValue_fills err [] server.attrs.maxMsgSize).fits buf (by omega) (by
    rw [chrpcServerBufMinSize] at hmms
    simp
    omega)
  rw [chrpcSendErrorResponse, newChrpcStructValue_response]
  simp only [hfit, deleteValue, deleteChrpcValue_responseValue, take_overwrite_zero]
  rfl

theorem deleteRetVal_of_wellFormed {retVal : Option ChrpcValue} (h : ∀ v ∈ retVal, v.WellFormed) :
    deleteRetVal retVal = .done () := by
  cases retVal with
  | none => rfl
  | some v => rw [deleteRetVal, deleteValue, deleteChrpcValue_of_wellFormed (h v rfl)]

/-- Send the response to a call that went well, if it fits. -/
def sendResponse (mms : Nat) (cmd : ServerCommand) (msg : Bytes) : ServerProg ChrpcStatus :=
  if msg.length ≤ mms then do
    match ← chnSend msg with
    | .invalidMsgSize => sendError chrpcBufferTooSmall
    | .success => return if cmd = .disconnect then chrpcDisconnect else chrpcSuccess
    | _ => return chrpcClientChannelError
  else sendError chrpcBufferTooSmall

/-- **The server answers with the response, or with an error where it does not fit.** -/
theorem chrpcRespond_eq {server : ChrpcServer} {buf : Bytes}
    (hmms : chrpcServerBufMinSize ≤ server.attrs.maxMsgSize)
    (hbuf : server.attrs.maxMsgSize ≤ buf.length) {ep : Endpoint} {retVal : Option ChrpcValue}
    (htype : chrpcTypeEqualsWrapper ep.ret retVal = true) (hret : ∀ v ∈ retVal, v.WellFormed)
    (cmd : ServerCommand) :
    chrpcRespond server buf ep cmd retVal
      = sendResponse server.attrs.maxMsgSize cmd (responseBytes chrpcSuccess (valueBytes retVal)) := by
  have hfills := chrpcWriteResponse_fills hret server.attrs.maxMsgSize
  rw [chrpcRespond, if_neg (by simp [htype]), sendResponse]
  by_cases hfit : (responseBytes chrpcSuccess (valueBytes retVal)).length ≤ server.attrs.maxMsgSize
  · have hlen : (overwrite buf 0 (responseBytes chrpcSuccess (valueBytes retVal))).length
        = buf.length := overwrite_length (by omega)
    have hsend := chrpcSendErrorResponse_eq hmms (hbuf.trans hlen.ge) chrpcBufferTooSmall
    rw [hfills.fits buf (by omega) hfit, if_pos hfit]
    simp only [deleteRetVal_of_wellFormed hret, Prog.done_bind, take_overwrite_zero]
    exact hsend ▸ rfl
  · obtain ⟨buf', hrun, hsame⟩ := hfills.short buf (by omega) (by omega)
    rw [hrun, if_neg hfit]
    simp only [deleteRetVal_of_wellFormed hret, Prog.done_bind]
    exact chrpcSendErrorResponse_eq hmms (hbuf.trans hsame.length.ge) _

/-! ## The two encoders agree -/

/-- What `chrpc_value_to_buffer` makes of a value in a buffer of `n` bytes. -/
def serialize (v : ChrpcValue) (n : Nat) : SRes Bytes :=
  match (chrpcValueToBuffer v 0 n).run (List.replicate n 0) with
  | .ok written buf => .ok (buf.take written)
  | .error e _ => .error e

/-- `cell` is what `chrpc_value_to_buffer` makes of the value, and nothing for `NULL`. -/
def SerializesTo : Option ChrpcValue → Bytes → Prop
  | none, cell => cell = []
  | some v, cell => ∀ n, serialize v n =
      if cell.length ≤ n then .ok cell else .error (.status chrpcBufferTooSmall)

theorem serialize_of_fills {v : ChrpcValue} {e : Bytes} {n : Nat}
    (h : Fills chrpcBufferTooSmall (chrpcValueToBuffer v 0 n) 0 n e e.length) :
    serialize v n = if e.length ≤ n then .ok e else .error (.status chrpcBufferTooSmall) := by
  by_cases hfit : e.length ≤ n
  · simp only [serialize, h.fits (List.replicate n 0) (by simp) hfit, take_overwrite_zero,
      if_pos hfit]
  · obtain ⟨buf, hrun, -⟩ := h.short (List.replicate n 0) (by simp) (by omega)
    simp only [serialize, hrun, if_neg hfit]

/-- A well-formed value is serialized in exactly one way. -/
theorem serializesTo_iff {v : Option ChrpcValue} (h : ∀ x ∈ v, x.WellFormed) (cell : Bytes) :
    SerializesTo v cell ↔ cell = valueBytes v := by
  cases v with
  | none => rfl
  | some v =>
    have hser : ∀ n, serialize v n = if (chrpcValueCodec.write v).length ≤ n
        then .ok (chrpcValueCodec.write v) else .error (.status chrpcBufferTooSmall) :=
      fun n => serialize_of_fills (chrpcValueToBuffer_fills (h v rfl) 0 n)
    constructor
    · intro hcell
      have h1 := hcell (max cell.length (chrpcValueCodec.write v).length)
      rw [hser, if_pos (le_max_right _ _), if_pos (le_max_left _ _)] at h1
      exact (Except.ok.inj h1).symm
    · rintro rfl
      exact hser

theorem forall₂_serializesTo {args : List (Option ChrpcValue)} {cells : List Bytes}
    (h : ∀ arg ∈ args, ∀ v ∈ arg, v.WellFormed) (hcells : List.Forall₂ SerializesTo args cells) :
    cells = args.map valueBytes := by
  induction hcells with
  | nil => rfl
  | @cons arg cell args cells harg _ ih =>
    rw [(serializesTo_iff (h arg List.mem_cons_self) cell).mp harg,
      ih fun x hx => h x (List.mem_cons_of_mem _ hx), List.map_cons]

/-- The request that a call sends, or the status with which it returns before. -/
theorem chrpcClientSendRequest_sent {client : ChrpcClient} (hchn : client.chn = true)
    (name : CString) {args : List (Option ChrpcValue)} (h : ∀ arg ∈ args, ∀ v ∈ arg, v.WellFormed)
    (wantRet : Bool) (send : Bytes → ChannelStatus) (polls : List Poll) :
    if (requestBytes name (args.map valueBytes)).length ≤ client.bufLen then
      (chrpcClientSendRequest client name args wantRet send polls).sent
        = some (requestBytes name (args.map valueBytes))
    else
      (chrpcClientSendRequest client name args wantRet send polls).sent = none ∧
      (chrpcClientSendRequest client name args wantRet send polls).result
        = .returned chrpcBufferTooSmall none := by
  have hfills := chrpcClientWriteRequest_fills name h client.bufLen
  have hlen : 0 + client.bufLen ≤ client.buf.length := by simp [ChrpcClient.bufLen]
  split
  · next hfit =>
    rw [chrpcClientSendRequest, if_neg (by simp [hchn]), hfills.fits _ hlen hfit]
    simp only [take_overwrite_zero]
    split
    · rfl
    · split <;> rfl
  · next hfit =>
    obtain ⟨buf, hrun, -⟩ := hfills.short _ hlen (by omega)
    rw [chrpcClientSendRequest, if_neg (by simp [hchn]), hrun]
    exact ⟨rfl, rfl⟩

/-- The messages handed to `chn_send`. -/
def sends (trace : List (Prog.Event ServerOp ServerOp.Ans)) : List Bytes :=
  trace.filterMap fun
    | ⟨.send msg, _⟩ => some msg
    | _ => none

/--
The request that a call hands to `chn_send` is what `chrpc_value_to_buffer` makes of `req`.
Nothing is sent, and `CHRPC_BUFFER_TOO_SMALL` returned, where that does not fit.
-/
def SendsGeneric (req : ChrpcValue) (bufLen : Nat) (call : ClientRun) : Prop :=
  match serialize req bufLen with
  | .ok msg => call.sent = some msg
  | .error e => e = .status chrpcBufferTooSmall ∧ call.sent = none ∧
      call.result = .returned chrpcBufferTooSmall none

/--
The response handed to `chn_send` is what `chrpc_value_to_buffer` makes of `resp`, with an
error response behind it only if the channel refuses its size. Where it does not fit into the
buffer, an error response takes its place.
-/
def RespondsGeneric {σ : Type} (resp : ChrpcValue) (mms : Nat) (chnSend : Bytes → ChannelStatus)
    (out : Prog.Outcome ServerOp ServerOp.Ans σ ChrpcStatus) : Prop :=
  ∃ err, serialize (responseValue chrpcBufferTooSmall []) mms = .ok err ∧
    match serialize resp mms with
    | .ok msg => sends out.trace = msg :: if chnSend msg = .invalidMsgSize then [err] else []
    | .error e => e = .status chrpcBufferTooSmall ∧ sends out.trace = [err]

theorem chrpcClientSendRequest_sendsGeneric {client : ChrpcClient} (hchn : client.chn = true)
    {name : CString} (hname : name.block.length < 2 ^ 32) {args : List (Option ChrpcValue)}
    (h : ∀ arg ∈ args, ∀ v ∈ arg, v.WellFormed) (wantRet : Bool) (send : Bytes → ChannelStatus)
    (polls : List Poll) :
    SendsGeneric (requestValue name (args.map valueBytes)) client.bufLen
      (chrpcClientSendRequest client name args wantRet send polls) := by
  have hsent := chrpcClientSendRequest_sent hchn name h wantRet send polls
  rw [SendsGeneric, serialize_of_fills (requestValue_fills hname _ client.bufLen)]
  split at hsent
  · next hfit =>
    rw [if_pos hfit]
    exact hsent
  · next hfit =>
    rw [if_neg hfit]
    exact ⟨rfl, hsent⟩

theorem sends_sendError {σ : Type} (env : Prog.Env ServerOp ServerOp.Ans σ) (s : σ)
    (err : ChrpcStatus) : sends ((sendError err).run env s).trace = [responseBytes err []] := by
  rw [sendError, chnSend, Prog.call_bind, Prog.run_perform]
  split <;> rfl

theorem sends_sendResponse {σ : Type} (env : Prog.Env ServerOp ServerOp.Ans σ) (s : σ) (mms : Nat)
    (cmd : ServerCommand) (msg : Bytes) :
    sends ((sendResponse mms cmd msg).run env s).trace =
      if msg.length ≤ mms then
        msg :: if (env (.send msg) s).1 = .invalidMsgSize then [responseBytes chrpcBufferTooSmall []]
          else []
      else [responseBytes chrpcBufferTooSmall []] := by
  rw [sendResponse]
  split
  · rw [chnSend, Prog.call_bind, Prog.run_perform]
    have hcons : ∀ (ans : ChannelStatus) trace,
        sends (⟨.send msg, ans⟩ :: trace) = msg :: sends trace := fun _ _ => rfl
    rw [hcons]
    congr 1
    cases (env (.send msg) s).1 with
    | invalidMsgSize => exact sends_sendError env _ chrpcBufferTooSmall
    | _ => rfl
  · exact sends_sendError env s chrpcBufferTooSmall

/-- **The messages built on the fly are those of the generic encoder.** -/
theorem messages_generic :
    (∀ (client : ChrpcClient) (name : CString) (args : List ChrpcValue) (cells : List Bytes)
      (wantRet : Bool) (chnSend : Bytes → ChannelStatus) (polls : List Poll),
      client.chn = true → client.bufLen < 2 ^ 32 → args.length ≤ 255 →
      (∀ arg ∈ args, arg.WellFormed) → List.Forall₂ SerializesTo (args.map some) cells →
      let call := chrpcClientSendRequest client name (args.map some) wantRet chnSend polls
      (name.block.length < 2 ^ 32 → SendsGeneric (requestValue name cells) client.bufLen call) ∧
      (2 ^ 32 ≤ name.block.length →
        call.sent = none ∧ call.result = .returned chrpcBufferTooSmall none)) ∧
    (∀ {σ : Type} (attrs : ServerAttrs) (eps : EndpointSet) (server : ChrpcServer) (id : Nat)
      (buf : Bytes) (ep : Endpoint) (args : List ChrpcValue) (payload : Bytes)
      (env : Prog.Env ServerOp ServerOp.Ans σ) (s : σ),
      newChrpcServer attrs eps = some server → buf.length = server.attrs.maxMsgSize →
      let ((_, retVal), s') := env (.endpoint ep id args) s
      chrpcTypeEqualsWrapper ep.ret retVal = true → (∀ v ∈ retVal, v.WellFormed) →
      SerializesTo retVal payload →
      RespondsGeneric (responseValue chrpcSuccess payload) server.attrs.maxMsgSize
        (fun msg => (env (.send msg) s').1)
        ((chrpcSendResponse server id buf ep args).run env s)) := by
  constructor
  · intro client name args cells wantRet chnSend polls hchn hlen _ hargs hcells
    have hopt : ∀ arg ∈ args.map some, ∀ v ∈ arg, v.WellFormed := by
      simpa using hargs
    obtain rfl := forall₂_serializesTo hopt hcells
    refine ⟨fun hname => chrpcClientSendRequest_sendsGeneric hchn hname hopt wantRet chnSend polls,
      fun hname => ?_⟩
    have hsent := chrpcClientSendRequest_sent hchn name hopt wantRet chnSend polls
    rwa [if_neg] at hsent
    simp only [requestBytes, Codec.block_write, List.length_append]
    omega
  · intro σ attrs eps server id buf ep args payload env s hserver hbuf htype hret hpayload
    obtain ⟨rfl, -, -, hmms⟩ := newChrpcServer_eq_some hserver
    rw [serializesTo_iff hret] at hpayload
    subst hpayload
    -- The least buffer has room for an error response.
    have herr : serialize (responseValue chrpcBufferTooSmall []) attrs.maxMsgSize
        = .ok (responseBytes chrpcBufferTooSmall []) := by
      rw [serialize_of_fills (responseValue_fills _ _ _), if_pos]
      rw [chrpcServerBufMinSize] at hmms
      simp
      omega
    have hsends : sends ((chrpcSendResponse ⟨attrs, eps⟩ id buf ep args).run env s).trace
        = sends ((sendResponse attrs.maxMsgSize (env (.endpoint ep id args) s).1.1
          (responseBytes chrpcSuccess (valueBytes (env (.endpoint ep id args) s).1.2))).run env
          (env (.endpoint ep id args) s).2).trace := by
      rw [← chrpcRespond_eq hmms hbuf.ge htype hret]
      rfl
    refine ⟨_, herr, ?_⟩
    rw [hsends, sends_sendResponse, serialize_of_fills (responseValue_fills _ _ _)]
    split
    · next h =>
      split at h
      · next hfit =>
        cases h
        rw [if_pos hfit]
      · simp at h
    · next h =>
      split at h
      · simp at h
      · next hfit =>
        cases h
        exact ⟨rfl, if_neg hfit⟩

/-- A channel that takes every message, and endpoints that return nothing. -/
def voidEnv : Prog.Env ServerOp ServerOp.Ans Unit
  | .refresh, s => (.success, s)
  | .receive _, s => (.error .noIncomingMsg, s)
  | .send _, s => (.success, s)
  | .endpoint _ _ _, s => ((.keepAlive, none), s)

/-- The request `a(5)`, and the response of a void endpoint in the least buffer. -/
theorem messages_generic_small :
    SendsGeneric (requestValue ⟨[97], by decide⟩ [[0, 5]]) 30
      (chrpcClientSendRequest ⟨⟨1, 5⟩, true, List.replicate 30 7⟩ ⟨[97], by decide⟩
        [some ⟨.prim .byte, .num [5]⟩] true (fun _ => .success) []) ∧
    RespondsGeneric (responseValue chrpcSuccess []) 128 (fun _ => .success)
      ((chrpcSendResponse ⟨⟨128, 1, 1, 0, false⟩, ⟨Util.newHashMap sHash sEquals, []⟩⟩ 3
        (List.replicate 128 7) ⟨⟨[97], by decide⟩, none, [], by decide⟩ []).run voidEnv ()) := by
  have harg : (⟨.prim .byte, .num [5]⟩ : ChrpcValue).WellFormed :=
    ⟨trivial, ⟨by decide, rfl⟩, by simp [InnerValue.stringBlocks]⟩
  have hserver : newChrpcServer ⟨128, 1, 1, 0, false⟩ ⟨Util.newHashMap sHash sEquals, []⟩
      = some ⟨⟨128, 1, 1, 0, false⟩, ⟨Util.newHashMap sHash sEquals, []⟩⟩ := rfl
  constructor
  · have hcells : List.Forall₂ SerializesTo ([⟨.prim .byte, .num [5]⟩].map some) [[0, 5]] :=
      .cons ((serializesTo_iff (by simpa using harg) _).mpr rfl) .nil
    obtain ⟨hsends, -⟩ := messages_generic.1 ⟨⟨1, 5⟩, true, List.replicate 30 7⟩
      ⟨[97], by decide⟩ [⟨.prim .byte, .num [5]⟩] [[0, 5]] true (fun _ => .success) [] rfl
      (by decide) (by decide) (by simpa using harg) hcells
    have hsent := hsends (by decide)
    exact hsent
  · have h := messages_generic.2 _ _ _ 3 (List.replicate 128 7)
      ⟨⟨[97], by decide⟩, none, [], by decide⟩ [] [] voidEnv () hserver (by simp)
    exact h rfl (by simp) rfl

end Chlibs.Rpc
