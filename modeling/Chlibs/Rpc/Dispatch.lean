import Chlibs.Rpc.Messages

/-!
# Dispatch

What `chrpcPollChannel` makes of a message of any bytes. Either the message is accepted
(`Accepts`), and its endpoint is called, or a first check fails (`Refused`), and an error
response tells which.

* `accepts_or_refused` — one of the two is the case.
* `chrpcPollChannel_dispatch` — an endpoint is called, once, only on an accepted message.
-/

namespace Chlibs.Rpc

open Infra Serial Channel

/-! ## Accepted and refused messages -/

/-- The message decodes to a request with this name block and these serialized arguments. -/
def IsRequest (msg name : Bytes) (cells : List Bytes) : Prop :=
  ∃ r, chrpcValueFromBuffer msg = .ok (⟨reqType, requestEntries name cells⟩, r)

/-- Every cell decodes to a value of the type declared for it. -/
inductive ArgsAccepted : List ChrpcType → List Bytes → List ChrpcValue → Prop
  | nil : ArgsAccepted [] [] []
  | cons {t : ChrpcType} {cell : Bytes} {arg : ChrpcValue} {r : Nat} {ts : List ChrpcType}
      {cells : List Bytes} {args : List ChrpcValue}
      (h : chrpcValueFromBuffer cell = .ok (arg, r)) (ht : arg.type = t)
      (hrest : ArgsAccepted ts cells args) : ArgsAccepted (t :: ts) (cell :: cells) (arg :: args)

/-- What is wrong with the first cell that is not acceptable. -/
inductive ArgsRefused : List ChrpcType → List Bytes → ChrpcStatus → Prop
  | undecodable {t : ChrpcType} {cell : Bytes} {ts : List ChrpcType} {cells : List Bytes}
      {st : ChrpcStatus} (h : chrpcValueFromBuffer cell = .error (.status st)) :
      ArgsRefused (t :: ts) (cell :: cells) st
  | mismatch {t : ChrpcType} {cell : Bytes} {arg : ChrpcValue} {r : Nat} {ts : List ChrpcType}
      {cells : List Bytes} (h : chrpcValueFromBuffer cell = .ok (arg, r)) (ht : arg.type ≠ t) :
      ArgsRefused (t :: ts) (cell :: cells) chrpcArgumentMismatch
  | later {t : ChrpcType} {cell : Bytes} {arg : ChrpcValue} {r : Nat} {ts : List ChrpcType}
      {cells : List Bytes} {st : ChrpcStatus} (h : chrpcValueFromBuffer cell = .ok (arg, r))
      (ht : arg.type = t) (hrest : ArgsRefused ts cells st) :
      ArgsRefused (t :: ts) (cell :: cells) st

/-- The message is a call of `ep` with `args`. Its name is read as a C string. -/
structure Accepts (epSet : EndpointSet) (msg : Bytes) (ep : Endpoint) (args : List ChrpcValue) :
    Prop where
  mem : ep ∈ epSet.endpoints
  request : ∃ name cells, IsRequest msg name cells ∧ cString name = ep.name.chars ∧
    ArgsAccepted ep.args cells args

/-- The first check that the message fails, by the status it is answered with. -/
inductive Refused (epSet : EndpointSet) (msg : Bytes) : ChrpcStatus → Prop
  | undecodable {st : ChrpcStatus} (h : chrpcValueFromBuffer msg = .error (.status st)) :
      Refused epSet msg st
  | badRequest {req : ChrpcValue} {r : Nat} (h : chrpcValueFromBuffer msg = .ok (req, r))
      (ht : req.type ≠ reqType) : Refused epSet msg chrpcBadRequest
  | unknownEndpoint {name : Bytes} {cells : List Bytes} (h : IsRequest msg name cells)
      (hname : ∀ ep ∈ epSet.endpoints, cString name ≠ ep.name.chars) :
      Refused epSet msg chrpcUnknownEndpoint
  | argumentCount {name : Bytes} {cells : List Bytes} {ep : Endpoint} (h : IsRequest msg name cells)
      (hep : ep ∈ epSet.endpoints) (hname : cString name = ep.name.chars)
      (hlen : ep.args.length ≠ cells.length) : Refused epSet msg chrpcArgumentMismatch
  | argument {name : Bytes} {cells : List Bytes} {ep : Endpoint} {st : ChrpcStatus}
      (h : IsRequest msg name cells) (hep : ep ∈ epSet.endpoints)
      (hname : cString name = ep.name.chars) (hlen : ep.args.length = cells.length)
      (hargs : ArgsRefused ep.args cells st) : Refused epSet msg st

/-! ## The strings that decoding reaches -/

/-- The singular strings in the cells, up to the first one that is not acceptable. -/
def stringsInArgs : List ChrpcType → List Bytes → List Bytes
  | t :: ts, cell :: cells =>
    stringsIn cell ++
      match chrpcValueCodec.read cell with
      | some (arg, _) => if chrpcTypeEquals t arg.type then stringsInArgs ts cells else []
      | none => []
  | _, _ => []

/-- Every string that handling the message reaches holds a NUL, as one that ends in it does. -/
structure StringsTerminated (epSet : EndpointSet) (msg : Bytes) : Prop where
  message : AllHoldNul (stringsIn msg)
  args : ∀ name cells ep, IsRequest msg name cells → ep ∈ epSet.endpoints →
    cString name = ep.name.chars → ep.args.length = cells.length →
    AllHoldNul (stringsInArgs ep.args cells)

theorem deleteValue_of_terminated {b : Bytes} {v : ChrpcValue} {r : Nat}
    (h : AllHoldNul (stringsIn b)) (hdec : chrpcValueFromBuffer b = .ok (v, r)) :
    deleteValue v = .done () := by
  obtain ⟨hdom, -, hread⟩ := chrpcValueFromBuffer_eq_ok hdec
  rw [stringsIn, hread] at h
  rw [deleteValue, deleteChrpcValue_eq ((chrpcValueCodec_dom v).mp hdom).2, Serial.measure, if_pos h]

theorem stringsInArgs_cons {t : ChrpcType} {cell : Bytes} {ts : List ChrpcType} {cells : List Bytes}
    (h : AllHoldNul (stringsInArgs (t :: ts) (cell :: cells))) : AllHoldNul (stringsIn cell) :=
  ((allHoldNul_append _ _).mp h).1

theorem stringsInArgs_tail {t : ChrpcType} {cell : Bytes} {ts : List ChrpcType}
    {cells : List Bytes} {arg : ChrpcValue} {r : Nat}
    (h : AllHoldNul (stringsInArgs (t :: ts) (cell :: cells)))
    (hdec : chrpcValueFromBuffer cell = .ok (arg, r)) (ht : arg.type = t) :
    AllHoldNul (stringsInArgs ts cells) := by
  have hread := (chrpcValueFromBuffer_eq_ok hdec).2.2
  have hrest := ((allHoldNul_append _ _).mp h).2
  rw [hread] at hrest
  simpa [ht] using hrest

/-! ## Arguments -/

theorem argsAccepted_or_refused : ∀ (ts : List ChrpcType) (cells : List Bytes),
    ts.length = cells.length → AllHoldNul (stringsInArgs ts cells) →
    (∃ args, ArgsAccepted ts cells args) ∨ ∃ st, ArgsRefused ts cells st
  | [], [], _, _ => .inl ⟨[], .nil⟩
  | t :: ts, cell :: cells, hlen, hnul => by
    rcases chrpcValueFromBuffer_cases (stringsInArgs_cons hnul) with ⟨arg, r, hdec⟩ | ⟨st, -, hdec⟩
    · by_cases ht : arg.type = t
      · rcases argsAccepted_or_refused ts cells (by simpa using hlen)
          (stringsInArgs_tail hnul hdec ht) with ⟨args, h⟩ | ⟨st, h⟩
        · exact .inl ⟨arg :: args, .cons hdec ht h⟩
        · exact .inr ⟨st, .later hdec ht h⟩
      · exact .inr ⟨_, .mismatch hdec ht⟩
    · exact .inr ⟨st, .undecodable hdec⟩
  | [], _ :: _, hlen, _ => by simp at hlen
  | _ :: _, [], hlen, _ => by simp at hlen

theorem ArgsAccepted.length_eq {ts : List ChrpcType} {cells : List Bytes} {args : List ChrpcValue}
    (h : ArgsAccepted ts cells args) : ts.length = cells.length := by
  induction h with
  | nil => rfl
  | cons _ _ _ ih => simp [ih]

/-- A status that the decoder reports is not success. -/
theorem decodeError_ne_success {b : Bytes} {st : ChrpcStatus}
    (h : chrpcValueFromBuffer b = .error (.status st)) : st ≠ chrpcSuccess := by
  cases hread : chrpcValueCodec.read b with
  | some x => simp [chrpcValueFromBuffer_read_some hread] at h
  | none =>
    obtain ⟨st', hst, heq⟩ := chrpcValueFromBuffer_read_none hread
    by_cases hnul : AllHoldNul (reachedInValue b)
    · rw [heq, abandon_of hnul] at h
      cases h
      exact hst.ne.1
    · simp [heq, abandon_of_not hnul] at h

theorem ArgsRefused.ne_success {ts : List ChrpcType} {cells : List Bytes} {st : ChrpcStatus}
    (h : ArgsRefused ts cells st) : st ≠ chrpcSuccess := by
  induction h with
  | undecodable h => exact decodeError_ne_success h
  | mismatch _ _ => decide
  | later _ _ _ ih => exact ih

/-- One step of the parsing loop. -/
theorem parseArgs_cons (t : ChrpcType) (cell : Bytes) (ts : List ChrpcType)
    (cells : List InnerValue) :
    parseArgs (t :: ts) (.numArr cell cell.length :: cells) = match chrpcValueFromBuffer cell with
      | .error (.status st) => .ok (st, [])
      | .error .fault => .error .fault
      | .ok (field, _) =>
        if !chrpcTypeEquals t field.type then .ok (chrpcArgumentMismatch, [field])
        else parseArgs ts cells >>= fun x => .ok (x.1, field :: x.2) := by
  rw [parseArgs, readBlock_all]
  rfl

theorem parseArgs_accepted {ts : List ChrpcType} {cells : List Bytes} {args : List ChrpcValue}
    (h : ArgsAccepted ts cells args) : AllHoldNul (stringsInArgs ts cells) →
    parseArgs ts (cells.map fun cell => .numArr cell cell.length) = .ok (chrpcSuccess, args) ∧
      deleteValues args = .done () := by
  induction h with
  | nil => exact fun _ => ⟨rfl, rfl⟩
  | @cons t cell arg r ts cells args hdec ht _ ih =>
    intro hnul
    obtain ⟨hparse, hdel⟩ := ih (stringsInArgs_tail hnul hdec ht)
    constructor
    · rw [List.map_cons, parseArgs_cons, hdec]
      simp only [ht, (chrpcTypeEquals_iff t t).mpr rfl, hparse]
      rfl
    · rw [deleteValues, deleteValue_of_terminated (stringsInArgs_cons hnul) hdec, Prog.done_bind,
        hdel]

theorem parseArgs_refused {ts : List ChrpcType} {cells : List Bytes} {st : ChrpcStatus}
    (h : ArgsRefused ts cells st) : AllHoldNul (stringsInArgs ts cells) →
    ∃ args, parseArgs ts (cells.map fun cell => .numArr cell cell.length) = .ok (st, args) ∧
      deleteValues args = .done () := by
  induction h with
  | @undecodable t cell ts cells st hdec =>
    intro _
    exact ⟨[], by rw [List.map_cons, parseArgs_cons, hdec], rfl⟩
  | @mismatch t cell arg r ts cells hdec ht =>
    intro hnul
    refine ⟨[arg], ?_, ?_⟩
    · have hne : chrpcTypeEquals t arg.type = false := by
        simpa using Ne.symm ht
      rw [List.map_cons, parseArgs_cons, hdec]
      simp only [hne, Bool.not_false, if_true]
    · rw [deleteValues, deleteValue_of_terminated (stringsInArgs_cons hnul) hdec]
      rfl
  | @later t cell arg r ts cells st hdec ht _ ih =>
    intro hnul
    obtain ⟨args, hparse, hdel⟩ := ih (stringsInArgs_tail hnul hdec ht)
    refine ⟨arg :: args, ?_, ?_⟩
    · rw [List.map_cons, parseArgs_cons, hdec]
      simp only [ht, (chrpcTypeEquals_iff t t).mpr rfl, hparse]
      rfl
    · rw [deleteValues, deleteValue_of_terminated (stringsInArgs_cons hnul) hdec, Prog.done_bind,
        hdel]

/-! ## The message as a whole -/

theorem accepts_or_refused {epSet : EndpointSet} {msg : Bytes} (hnul : StringsTerminated epSet msg) :
    (∃ ep args, Accepts epSet msg ep args) ∨ ∃ st, Refused epSet msg st := by
  rcases chrpcValueFromBuffer_cases hnul.message with ⟨⟨t, iv⟩, r, hdec⟩ | ⟨st, -, hdec⟩
  · by_cases ht : t = reqType
    · subst ht
      have hdom := (chrpcValueFromBuffer_eq_ok hdec).1
      obtain ⟨name, cells, rfl⟩ := sized_reqType ((chrpcValueCodec_dom _).mp hdom).2
      have hreq : IsRequest msg name cells := ⟨r, hdec⟩
      by_cases hep : ∃ ep ∈ epSet.endpoints, cString name = ep.name.chars
      · obtain ⟨ep, hep, hname⟩ := hep
        by_cases hlen : ep.args.length = cells.length
        · rcases argsAccepted_or_refused ep.args cells hlen
            (hnul.args name cells ep hreq hep hname hlen) with ⟨args, h⟩ | ⟨st, h⟩
          · exact .inl ⟨ep, args, hep, name, cells, hreq, hname, h⟩
          · exact .inr ⟨st, .argument hreq hep hname hlen h⟩
        · exact .inr ⟨_, .argumentCount hreq hep hname hlen⟩
      · exact .inr ⟨_, .unknownEndpoint hreq fun ep h he => hep ⟨ep, h, he⟩⟩
    · exact .inr ⟨_, .badRequest hdec ht⟩
  · exact .inr ⟨st, .undecodable hdec⟩

/-- A request has one name and one list of cells. -/
theorem IsRequest.unique {msg name name' : Bytes} {cells cells' : List Bytes}
    (h : IsRequest msg name cells) (h' : IsRequest msg name' cells') :
    name' = name ∧ cells' = cells := by
  obtain ⟨r, hread⟩ := h
  obtain ⟨r', hread'⟩ := h'
  rw [hread] at hread'
  simp only [requestEntries, Except.ok.injEq, Prod.mk.injEq, ChrpcValue.mk.injEq,
    InnerValue.entries.injEq, List.cons.injEq, InnerValue.str.injEq, true_and, and_true] at hread'
  obtain ⟨⟨hname, hcells⟩, -⟩ := hread'
  refine ⟨hname.symm, (List.map_injective_iff.mpr (fun a b hab => ?_) hcells).symm⟩
  simp only [InnerValue.numArr.injEq] at hab
  exact hab.1

/-- The name of a request ends. -/
theorem IsRequest.nul_mem {msg name : Bytes} {cells : List Bytes} (h : IsRequest msg name cells)
    (hnul : AllHoldNul (stringsIn msg)) : (0 : UInt8) ∈ name := by
  obtain ⟨r, hdec⟩ := h
  rw [stringsIn, (chrpcValueFromBuffer_eq_ok hdec).2.2] at hnul
  exact hnul name (by simp [requestEntries, InnerValue.scalarStrings, InnerValue.allScalarStrings])

section Handle

variable {server : ChrpcServer} {buf msg : Bytes}

/-- The server handles a request of the right type by what its lookup finds. -/
theorem chrpcHandleMessage_request {name : Bytes} {cells : List Bytes} (h : IsRequest msg name cells)
    (hnul : AllHoldNul (stringsIn msg)) (id : Nat) :
    chrpcHandleMessage server id (overwrite buf 0 msg) msg.length
      = chrpcHandleRequest server id (overwrite buf 0 msg) ⟨reqType, requestEntries name cells⟩ := by
  obtain ⟨r, hdec⟩ := h
  rw [chrpcHandleMessage, take_overwrite_zero, hdec]
  simp only [deleteValue_of_terminated hnul hdec, Prog.done_bind, Prog.pure_eq]
  exact Prog.bind_done _

variable (hset : server.epSet.WellFormed) (hmms : chrpcServerBufMinSize ≤ server.attrs.maxMsgSize)
  (hbuf : buf.length = server.attrs.maxMsgSize) (hmsg : msg.length ≤ server.attrs.maxMsgSize)
  (hnul : StringsTerminated server.epSet msg)

include hset hnul in
/-- **An accepted message is handled by calling its endpoint and answering.** -/
theorem chrpcHandleMessage_accepted {ep : Endpoint} {args : List ChrpcValue}
    (h : Accepts server.epSet msg ep args) (id : Nat) :
    chrpcHandleMessage server id (overwrite buf 0 msg) msg.length
      = chrpcSendResponse server id (overwrite buf 0 msg) ep args := by
  obtain ⟨hep, name, cells, hreq, hname, hargs⟩ := h
  have hlookup := chrpcEndpointSetLookup_of_mem hset (hreq.nul_mem hnul.message) hep hname
  obtain ⟨hparse, hdel⟩ := parseArgs_accepted hargs
    (hnul.args name cells ep hreq hep hname hargs.length_eq)
  rw [chrpcHandleMessage_request hreq hnul.message, chrpcHandleRequest, if_neg (by simp)]
  simp only [requestEntries, hlookup, List.length_map, hargs.length_eq, hparse, hdel, ne_eq,
    not_true_eq_false, if_false, Prog.done_bind, Prog.pure_eq]
  exact Prog.bind_done _

include hset hmms hbuf hmsg hnul in
/-- **A refused message is answered with one error response.** -/
theorem chrpcHandleMessage_refused {st : ChrpcStatus} (h : Refused server.epSet msg st)
    (id : Nat) :
    chrpcHandleMessage server id (overwrite buf 0 msg) msg.length = sendError st := by
  have hlen : (overwrite buf 0 msg).length = buf.length := overwrite_length (by omega)
  have herr := chrpcSendErrorResponse_eq hmms (hlen.trans hbuf).ge
  cases h with
  | undecodable hdec =>
    rw [chrpcHandleMessage, take_overwrite_zero, hdec]
    exact herr st
  | @badRequest req r hdec ht =>
    have hne : (!chrpcTypeEquals reqType req.type) = true := by
      simpa using Ne.symm ht
    rw [chrpcHandleMessage, take_overwrite_zero, hdec]
    simp only [chrpcHandleRequest, if_pos hne, herr, deleteValue_of_terminated hnul.message hdec,
      Prog.done_bind, Prog.pure_eq]
    exact Prog.bind_done _
  | unknownEndpoint hreq hname =>
    have hlookup := chrpcEndpointSetLookup_of_notMem hset (hreq.nul_mem hnul.message) hname
    rw [chrpcHandleMessage_request hreq hnul.message, chrpcHandleRequest, if_neg (by simp)]
    simp only [requestEntries, hlookup, herr]
  | argumentCount hreq hep hname hlen =>
    have hlookup := chrpcEndpointSetLookup_of_mem hset (hreq.nul_mem hnul.message) hep hname
    rw [chrpcHandleMessage_request hreq hnul.message, chrpcHandleRequest, if_neg (by simp)]
    simp only [requestEntries, hlookup, List.length_map, if_pos hlen, herr]
  | argument hreq hep hname hlen hargs =>
    have hlookup := chrpcEndpointSetLookup_of_mem hset (hreq.nul_mem hnul.message) hep hname
    obtain ⟨args, hparse, hdel⟩ := parseArgs_refused hargs
      (hnul.args _ _ _ hreq hep hname hlen)
    rw [chrpcHandleMessage_request hreq hnul.message, chrpcHandleRequest, if_neg (by simp)]
    simp only [requestEntries, hlookup, List.length_map, hlen, hparse, hdel, hargs.ne_success, herr,
      ne_eq, not_true_eq_false, not_false_eq_true, if_true, if_false, Prog.done_bind, Prog.pure_eq]
    exact Prog.bind_done _

end Handle

/-! ## One poll -/

/-- The endpoint functions called, with the id and the arguments. -/
def calls (trace : List (Prog.Event ServerOp ServerOp.Ans)) :
    List (Endpoint × Nat × List ChrpcValue) :=
  trace.filterMap fun
    | ⟨.endpoint ep id args, _⟩ => some (ep, id, args)
    | _ => none

/-- An endpoint function, with a state of its own. -/
abbrev EndpointFunc (σ : Type) :=
  Endpoint → Nat → List ChrpcValue → σ → (ServerCommand × Option ChrpcValue) × σ

/-- A channel that holds `msg` and takes messages of 1 to `chnMax` bytes. -/
def pollEnv {σ : Type} (msg : Bytes) (chnMax : Nat) (func : EndpointFunc σ) :
    Prog.Env ServerOp ServerOp.Ans σ
  | .refresh, s => (.success, s)
  | .receive len, s => (if msg.length ≤ len then .ok msg else .error .bufferTooSmall, s)
  | .send resp, s =>
    (if 0 < resp.length ∧ resp.length ≤ chnMax then .success else .invalidMsgSize, s)
  | .endpoint ep id args, s => func ep id args s

/-- Operations that send. -/
def ServerOp.IsSend : ServerOp → Prop
  | .send _ => True
  | _ => False

theorem deleteValue_only (v : ChrpcValue) : (deleteValue v).Only ServerOp.IsSend := by
  rw [deleteValue]
  split <;> trivial

theorem deleteRetVal_only (retVal : Option ChrpcValue) :
    (deleteRetVal retVal).Only ServerOp.IsSend := by
  cases retVal with
  | none => trivial
  | some v => exact deleteValue_only v

theorem chrpcSendErrorResponse_only (server : ChrpcServer) (buf : Bytes) (err : ChrpcStatus) :
    (chrpcSendErrorResponse server buf err).Only ServerOp.IsSend := by
  rw [chrpcSendErrorResponse]
  split
  · trivial
  · split
    · trivial
    · exact (deleteValue_only _).bind fun _ => trivial
    · refine (deleteValue_only _).bind fun _ => Prog.Only.call trivial fun ans => ?_
      split <;> trivial

/-- Once an endpoint function has returned, only messages leave the worker. -/
theorem chrpcRespond_only (server : ChrpcServer) (buf : Bytes) (ep : Endpoint)
    (cmd : ServerCommand) (retVal : Option ChrpcValue) :
    (chrpcRespond server buf ep cmd retVal).Only ServerOp.IsSend := by
  rw [chrpcRespond]
  split
  · exact (deleteRetVal_only _).bind fun _ => trivial
  · split
    · trivial
    · exact (deleteRetVal_only _).bind fun _ => chrpcSendErrorResponse_only _ _ _
    · refine (deleteRetVal_only _).bind fun _ => Prog.Only.call trivial fun ans => ?_
      split
      · exact chrpcSendErrorResponse_only _ _ _
      · trivial
      · trivial

theorem calls_of_only {trace : List (Prog.Event ServerOp ServerOp.Ans)}
    (h : ∀ e ∈ trace, e.1.IsSend) : calls trace = [] := by
  rw [calls, List.filterMap_eq_nil_iff]
  rintro ⟨o, ans⟩ he
  cases o with
  | send _ => rfl
  | _ => exact (h _ he).elim

section Poll

variable {σ : Type} {server : ChrpcServer} {msg buf : Bytes} {chnMax : Nat} {func : EndpointFunc σ}

/-- A poll finds the message and handles it. -/
theorem chrpcPollChannel_run (hmsg : msg.length ≤ server.attrs.maxMsgSize) (id : Nat) (s : σ) :
    (chrpcPollChannel server id buf).run (pollEnv msg chnMax func) s =
      let out := (chrpcHandleMessage server id (overwrite buf 0 msg) msg.length).run
        (pollEnv msg chnMax func) s
      ⟨out.result, ⟨.refresh, .success⟩ :: ⟨.receive server.attrs.maxMsgSize, .ok msg⟩ :: out.trace,
        out.state⟩ := by
  rw [chrpcPollChannel, Prog.call_bind, Prog.run_perform]
  simp only [pollEnv, ne_eq, not_true_eq_false, if_false, Prog.call_bind, Prog.run_perform,
    if_pos hmsg]

/-- One error response leaves a channel that takes it. -/
theorem sendError_run (hmax : chrpcServerBufMinSize ≤ chnMax) (err : ChrpcStatus) (s : σ) :
    (sendError err).run (pollEnv msg chnMax func) s
      = ⟨some chrpcSuccess, [⟨.send (responseBytes err []), .success⟩], s⟩ := by
  have hfit : 0 < (responseBytes err []).length ∧ (responseBytes err []).length ≤ chnMax := by
    rw [chrpcServerBufMinSize] at hmax
    simp
    omega
  rw [sendError, Prog.call_bind, Prog.run_perform]
  simp only [pollEnv, if_pos hfit, ne_eq, not_true_eq_false, if_false, Prog.pure_eq, Prog.run_done]

/-- A call is made once. -/
theorem calls_chrpcSendResponse (id : Nat) (buf : Bytes) (ep : Endpoint) (args : List ChrpcValue)
    (env : Prog.Env ServerOp ServerOp.Ans σ) (s : σ) :
    calls ((chrpcSendResponse server id buf ep args).run env s).trace = [(ep, id, args)] := by
  have hrest := calls_of_only (Prog.Only.trace env (env (.endpoint ep id args) s).2
    (chrpcRespond_only server buf ep (env (.endpoint ep id args) s).1.1
      (env (.endpoint ep id args) s).1.2))
  rw [chrpcSendResponse, callEndpoint, Prog.call_bind, Prog.run_perform]
  exact congrArg ((ep, id, args) :: ·) hrest

/--
**Dispatch is exact.** An accepted message gets its endpoint called once. Any other message
calls nothing and gets one response, with the status of the first check that failed, and the
channel is kept.
-/
theorem chrpcPollChannel_dispatch {attrs : ServerAttrs} {eps : List Endpoint} {epSet : EndpointSet}
    (hset : newChrpcEndpointSet eps = some epSet) (hserver : newChrpcServer attrs epSet = some server)
    (hbuf : buf.length = attrs.maxMsgSize) (hmin : chrpcServerBufMinSize ≤ chnMax)
    (hmsg : msg.length ≤ attrs.maxMsgSize) (hnul : StringsTerminated epSet msg) (id : Nat)
    (func : EndpointFunc σ) (s : σ) :
    let out := (chrpcPollChannel server id buf).run (pollEnv msg chnMax func) s
    (∀ ep args, Accepts epSet msg ep args → calls out.trace = [(ep, id, args)]) ∧
    (∀ st, Refused epSet msg st → calls out.trace = [] ∧
      (∃ resp, serialize (responseValue st []) attrs.maxMsgSize = .ok resp ∧
        sends out.trace = [resp]) ∧
      ∃ status, out.result = some status ∧ ∀ idle, workerDisconnects attrs idle status = false) ∧
    ((∃ ep args, Accepts epSet msg ep args) ∨ ∃ st, Refused epSet msg st) := by
  obtain ⟨rfl, -, -, hmms⟩ := newChrpcServer_eq_some hserver
  have hwf := (newChrpcEndpointSet_wellFormed hset).1
  rw [chrpcPollChannel_run hmsg]
  refine ⟨fun ep args h => ?_, fun st h => ?_, accepts_or_refused hnul⟩
  · rw [chrpcHandleMessage_accepted hwf hnul h]
    exact calls_chrpcSendResponse id _ ep args _ s
  · rw [chrpcHandleMessage_refused hwf hmms hbuf hmsg hnul h, sendError_run hmin]
    refine ⟨rfl, ⟨responseBytes st [], ?_, rfl⟩, chrpcSuccess, rfl, fun idle => rfl⟩
    rw [serialize_of_fills (responseValue_fills _ _ _), if_pos]
    rw [chrpcServerBufMinSize] at hmms
    simp
    omega

end Poll

/-- The endpoint `a` takes a byte and a string. It is called with them; with two bytes it is not,
and an error response tells that the arguments do not match. -/
theorem chrpcPollChannel_dispatch_args : ∃ (ep : Endpoint) (epSet : EndpointSet),
    ep.name.chars = [97] ∧ ep.args = [.prim .byte, .prim .string] ∧
      newChrpcEndpointSet [ep] = some epSet ∧
      (let out := (chrpcPollChannel ⟨⟨128, 1, 1, 0, false⟩, epSet⟩ 3 (List.replicate 128 7)).run
        (pollEnv [10, 2, 9, 11, 11, 0, 2, 0, 0, 0, 97, 0, 2, 0, 0, 0, 2, 0, 0, 0, 0, 5,
          7, 0, 0, 0, 9, 2, 0, 0, 0, 120, 0] 128 fun _ _ _ s => ((.keepAlive, none), s)) ()
      calls out.trace = [(ep, 3, [⟨.prim .byte, .num [5]⟩, ⟨.prim .string, .str [120, 0]⟩])]) ∧
      (let out := (chrpcPollChannel ⟨⟨128, 1, 1, 0, false⟩, epSet⟩ 3 (List.replicate 128 7)).run
        (pollEnv [10, 2, 9, 11, 11, 0, 2, 0, 0, 0, 97, 0, 2, 0, 0, 0, 2, 0, 0, 0, 0, 5,
          2, 0, 0, 0, 0, 7] 128 fun _ _ _ s => ((.keepAlive, none), s)) ()
      calls out.trace = [] ∧
        ∃ resp, serialize (responseValue chrpcArgumentMismatch []) 128 = .ok resp ∧
          sends out.trace = [resp]) := by
  have hep : ∃ (ep : Endpoint) (epSet : EndpointSet), ep.name.chars = [97] ∧
      ep.args = [.prim .byte, .prim .string] ∧ newChrpcEndpointSet [ep] = some epSet :=
    ⟨⟨⟨[97], by decide⟩, none, [.prim .byte, .prim .string], by decide⟩, _, rfl, rfl, rfl⟩
  obtain ⟨ep, epSet, hname, hargs, hset⟩ := hep
  have heps := (newChrpcEndpointSet_wellFormed hset).2
  have hep : ep ∈ epSet.endpoints := by
    rw [heps]
    exact List.mem_cons_self
  have hbuf : (List.replicate 128 (7 : UInt8)).length = 128 := List.length_replicate
  have hserver : newChrpcServer ⟨128, 1, 1, 0, false⟩ epSet = some ⟨⟨128, 1, 1, 0, false⟩, epSet⟩ :=
    rfl
  have hmin : chrpcServerBufMinSize ≤ 128 := by decide
  -- The name is all of a message's strings, and the cells have none that do not end.
  have hnul : ∀ {msg : Bytes} {cells : List Bytes}, IsRequest msg [97, 0] cells →
      AllHoldNul (stringsIn msg) → AllHoldNul (stringsInArgs ep.args cells) →
      StringsTerminated epSet msg := by
    intro msg cells hreq hmsg hcells
    refine ⟨hmsg, fun name cells' ep' hreq' hep' _ _ => ?_⟩
    rw [heps, List.mem_singleton] at hep'
    rw [hep', (hreq.unique hreq').2]
    exact hcells
  rw [hargs] at hnul
  refine ⟨ep, epSet, hname, hargs, hset, ?_, ?_⟩
  · have hreq : IsRequest [10, 2, 9, 11, 11, 0, 2, 0, 0, 0, 97, 0, 2, 0, 0, 0, 2, 0, 0, 0, 0, 5,
        7, 0, 0, 0, 9, 2, 0, 0, 0, 120, 0] [97, 0] [[0, 5], [9, 2, 0, 0, 0, 120, 0]] := ⟨_, rfl⟩
    exact (chrpcPollChannel_dispatch hset hserver hbuf hmin (by decide)
      (hnul hreq (by decide +kernel) (by decide +kernel)) 3 _ ()).1 _ _
      ⟨hep, _, _, hreq, hname.symm, hargs ▸ .cons rfl rfl (.cons rfl rfl .nil)⟩
  · have hreq : IsRequest [10, 2, 9, 11, 11, 0, 2, 0, 0, 0, 97, 0, 2, 0, 0, 0, 2, 0, 0, 0, 0, 5,
        2, 0, 0, 0, 0, 7] [97, 0] [[0, 5], [0, 7]] := ⟨_, rfl⟩
    obtain ⟨hcalls, hresp, -⟩ := (chrpcPollChannel_dispatch hset hserver hbuf hmin (by decide)
      (hnul hreq (by decide +kernel) (by decide +kernel)) 3 (fun _ _ _ s => ((.keepAlive, none), s))
      ()).2.1 chrpcArgumentMismatch
      (.argument hreq hep hname.symm (by rw [hargs]; rfl)
        (hargs ▸ .later rfl rfl (.mismatch rfl (by decide))))
    exact ⟨hcalls, hresp⟩

end Chlibs.Rpc
