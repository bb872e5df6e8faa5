import Chlibs.Rpc.Messages

/-!
# The response a client reads

A client looks for the response in its whole buffer, not in the part of it that the message
fills, so that bytes left over from earlier messages can complete a message that was cut off.

* `chrpcClientParseResponse_response`, `chrpcClientParseResponse_other` — what it makes of a
  buffer.
* `outcomeFromMessage_iff` — the message alone decides what it returns exactly when the
  message is not a cut off response and no string that it deletes lacks a NUL.
-/

namespace Chlibs.Rpc

open Infra Serial Channel

/-! ## Responses in a buffer -/

/-- The buffer begins with the encoding of this response. -/
def BeginsWithResponse (b : Bytes) (status : ChrpcStatus) (payload : Bytes) : Prop :=
  payload.length < 2 ^ 32 ∧ ∃ rest, b = responseBytes status payload ++ rest

theorem responseValue_dom (status : ChrpcStatus) (payload : Bytes) :
    chrpcValueCodec.dom (responseValue status payload) ↔ payload.length < 2 ^ 32 := by
  rw [chrpcValueCodec_dom]
  constructor
  · rintro ⟨-, hsized⟩
    obtain ⟨status', payload', heq, hlen⟩ := sized_respType hsized
    simp only [responseValue, InnerValue.entries.injEq, List.cons.injEq, InnerValue.numArr.injEq]
      at heq
    rwa [heq.2.1.1]
  · intro hlen
    refine ⟨⟨by decide, by decide, trivial, trivial, trivial⟩, ⟨by decide, rfl⟩, ?_, trivial⟩
    exact ⟨by decide, hlen, by simp [PrimType.size]⟩

/-- It does if and only if a response is read from it. -/
theorem beginsWithResponse_iff {b : Bytes} {status : ChrpcStatus} {payload : Bytes} :
    BeginsWithResponse b status payload ↔
      ∃ rest, chrpcValueCodec.read b = some (responseValue status payload, rest) := by
  constructor
  · rintro ⟨hlen, rest, rfl⟩
    have hread := chrpcValueCodec.read_write ((responseValue_dom status payload).mpr hlen) rest
    rw [responseValue_write] at hread
    exact ⟨rest, hread⟩
  · rintro ⟨rest, hread⟩
    obtain ⟨hdom, rfl⟩ := chrpcValueCodec.write_read hread
    rw [responseValue_write]
    exact ⟨(responseValue_dom _ _).mp hdom, rest, rfl⟩

/-- Any other value that is read is not of the response type. -/
theorem read_type_ne {b rest : Bytes} {v : ChrpcValue}
    (hread : chrpcValueCodec.read b = some (v, rest))
    (h : ∀ status payload, ¬BeginsWithResponse b status payload) : v.type ≠ respType := by
  rintro ht
  obtain ⟨t, iv⟩ := v
  cases ht
  obtain ⟨status, payload, rfl, -⟩ :=
    sized_respType ((chrpcValueCodec_dom _).mp (chrpcValueCodec.write_read hread).1).2
  exact h status payload (beginsWithResponse_iff.mpr ⟨rest, hread⟩)

/-! ## What the client deletes -/

/-- The strings measured on the way through the serialized return value. -/
def deletedInRetVal (wantRet : Bool) (payload : Bytes) : List Bytes :=
  if payload = [] then []
  else
    match chrpcValueCodec.read payload with
    | some (retVal, _) => if wantRet then [] else retVal.value.scalarStrings
    | none => reachedInValue payload

/-- The strings measured when a client parses the response in `b`. -/
def deletedInResponse (wantRet : Bool) (b : Bytes) : List Bytes :=
  match chrpcValueCodec.read b with
  | some (⟨t, iv⟩, _) =>
    if t ≠ respType then iv.scalarStrings
    else
      match iv with
      | .entries [.num [status], .numArr payload _] =>
        if status = chrpcSuccess then deletedInRetVal wantRet payload else []
      | _ => []
  | none => reachedInValue b

/-! ## What the client returns -/

/-- **Anything but a response is a bad response.** -/
theorem chrpcClientParseResponse_other {b : Bytes}
    (h : ∀ status payload, ¬BeginsWithResponse b status payload) (wantRet : Bool) :
    chrpcClientParseResponse b wantRet =
      measure (deletedInResponse wantRet b) >>= fun _ => .ok (chrpcBadResponse, none) := by
  rw [chrpcClientParseResponse, deletedInResponse]
  cases hread : chrpcValueCodec.read b with
  | none =>
    obtain ⟨st, -, heq⟩ := chrpcValueFromBuffer_read_none hread
    by_cases hnul : AllHoldNul (reachedInValue b)
    · rw [heq, abandon_of hnul, Serial.measure, if_pos hnul]
      rfl
    · rw [heq, abandon_of_not hnul, Serial.measure, if_neg hnul]
      rfl
  | some x =>
    obtain ⟨v, rest⟩ := x
    have ht := read_type_ne hread h
    have hsized := ((chrpcValueCodec_dom v).mp (chrpcValueCodec.write_read hread).1).2
    have hne : (!chrpcTypeEquals respType v.type) = true := by simpa using Ne.symm ht
    rw [chrpcValueFromBuffer_read_some hread]
    simp only [if_pos hne, deleteChrpcValue_eq hsized, if_pos ht]

/-- What the client returns on a response, by the response. -/
def responseResult (wantRet : Bool) (status : ChrpcStatus) (payload : Bytes) :
    SRes (ChrpcStatus × Option (Option ChrpcValue)) :=
  if status ≠ chrpcSuccess then .ok (status, none)
  else do
    let (status, retVal) ← chrpcClientParseRetVal payload payload.length
    if status ≠ chrpcSuccess then .ok (status, none)
    else if wantRet then .ok (status, some retVal)
    else do
      deleteOptional retVal
      .ok (status, none)

/-- **On a response the rest of the buffer does not matter.** -/
theorem chrpcClientParseResponse_response {b : Bytes} {status : ChrpcStatus} {payload : Bytes}
    (h : BeginsWithResponse b status payload) (wantRet : Bool) :
    chrpcClientParseResponse b wantRet = responseResult wantRet status payload := by
  obtain ⟨rest, hread⟩ := beginsWithResponse_iff.mp h
  have htype : (!chrpcTypeEquals respType (responseValue status payload).type) ≠ true := by
    simp [responseValue]
  have hdel := deleteChrpcValue_responseValue status payload
  rw [chrpcClientParseResponse, chrpcValueFromBuffer_read_some hread, responseResult]
  simp only [if_neg htype]
  by_cases hst : status ≠ chrpcSuccess
  · simp only [responseValue] at hdel ⊢
    simp only [if_pos hst, hdel]
    rfl
  · simp only [responseValue] at hdel ⊢
    simp only [if_neg hst]
    cases chrpcClientParseRetVal payload payload.length with
    | error e => rfl
    | ok x => simp only [Bind.bind, Except.bind, hdel]

/-- Decoding the return value succeeds, or its failure is not a bad response. -/
theorem chrpcClientParseRetVal_eq (payload : Bytes) :
    chrpcClientParseRetVal payload payload.length =
      if payload = [] then .ok (chrpcSuccess, none)
      else
        match chrpcValueFromBuffer payload with
        | .ok (retVal, _) => .ok (chrpcSuccess, some retVal)
        | .error (.status st) => .ok (st, none)
        | .error .fault => .error .fault := by
  rw [chrpcClientParseRetVal, readBlock_all]
  by_cases h : payload = []
  · rw [if_pos h, if_neg (by simp [h])]
  · rw [if_neg h, if_pos (List.length_pos_of_ne_nil h)]
    rfl

/-- The return value, in the three ways that reading it can go. -/
theorem retVal_cases (wantRet : Bool) (payload : Bytes) :
    (∃ ret, responseResult wantRet chrpcSuccess payload =
      measure (deletedInRetVal wantRet payload) >>= fun _ => .ok (chrpcSuccess, ret)) ∨
    ∃ st, DecodeError st ∧ responseResult wantRet chrpcSuccess payload =
      measure (deletedInRetVal wantRet payload) >>= fun _ => .ok (st, none) := by
  rw [responseResult, if_neg (by simp), chrpcClientParseRetVal_eq, deletedInRetVal]
  by_cases hnil : payload = []
  · rw [if_pos hnil, if_pos hnil, measure_nil]
    exact .inl ⟨if wantRet then some none else none, by cases wantRet <;> rfl⟩
  · rw [if_neg hnil, if_neg hnil]
    cases hread : chrpcValueCodec.read payload with
    | some x =>
      obtain ⟨retVal, rest⟩ := x
      have hsized := ((chrpcValueCodec_dom _).mp (chrpcValueCodec.write_read hread).1).2
      rw [chrpcValueFromBuffer_read_some hread]
      refine .inl ⟨if wantRet then some (some retVal) else none, ?_⟩
      cases wantRet
      · simp only [Bind.bind, Except.bind, deleteOptional, deleteChrpcValue_eq hsized]
        rfl
      · rfl
    | none =>
      obtain ⟨st, hst, heq⟩ := chrpcValueFromBuffer_read_none hread
      refine .inr ⟨st, hst, ?_⟩
      by_cases hnul : AllHoldNul (reachedInValue payload)
      · rw [heq, abandon_of hnul, Serial.measure, if_pos hnul]
        simp only [Bind.bind, Except.bind, if_pos hst.ne.1]
      · rw [heq, abandon_of_not hnul, Serial.measure, if_neg hnul]
        rfl

/-- The strings that a client deletes on a response. -/
theorem deletedInResponse_response {b : Bytes} {status : ChrpcStatus} {payload : Bytes}
    (h : BeginsWithResponse b status payload) (wantRet : Bool) :
    deletedInResponse wantRet b =
      if status = chrpcSuccess then deletedInRetVal wantRet payload else [] := by
  obtain ⟨rest, hread⟩ := beginsWithResponse_iff.mp h
  rw [deletedInResponse, hread]
  rfl

/-- **A response leads to a bad response only by its own status.** -/
theorem chrpcClientParseResponse_cases {b : Bytes} {status : ChrpcStatus} {payload : Bytes}
    (h : BeginsWithResponse b status payload) (wantRet : Bool) :
    ∃ st ret, (st = chrpcBadResponse → status = chrpcBadResponse) ∧
      chrpcClientParseResponse b wantRet =
        measure (deletedInResponse wantRet b) >>= fun _ => .ok (st, ret) := by
  rw [chrpcClientParseResponse_response h, deletedInResponse_response h]
  by_cases hst : status = chrpcSuccess
  · subst hst
    rw [if_pos rfl]
    rcases retVal_cases wantRet payload with ⟨ret, heq⟩ | ⟨st, herr, heq⟩
    · exact ⟨chrpcSuccess, ret, by decide, heq⟩
    · exact ⟨st, none, fun hbad => absurd hbad herr.ne.2, heq⟩
  · rw [if_neg hst, measure_nil, responseResult, if_pos hst]
    exact ⟨status, none, id, rfl⟩

/-! ## What the outcome depends on -/

/--
When the message `msg` has come, the call returns the same status and the same value whatever
else a client's buffer of `bufLen` bytes holds, and a bad response unless the message itself
begins with a response.
-/
def OutcomeFromMessage (bufLen : Nat) (msg : Bytes) (wantRet : Bool) : Prop :=
  ∃ status ret,
    (∀ client : ChrpcClient, client.bufLen = bufLen →
      (chrpcClientFinish client msg wantRet).1 = .returned status ret) ∧
    ((∀ st payload, ¬BeginsWithResponse msg st payload) → status = chrpcBadResponse)

/-- The message is a response with its end cut off. The buffer has room for all of it. -/
def TruncatedResponse (bufLen : Nat) (msg : Bytes) : Prop :=
  ∃ status payload tail, tail ≠ [] ∧ msg ++ tail = responseBytes status payload ∧
    payload.length < 2 ^ 32 ∧ (msg ++ tail).length ≤ bufLen ∧ status ≠ chrpcBadResponse

/-- A call that received a message ends as `chrpcClientFinish` does. -/
theorem chrpcClientSendRequest_received {client : ChrpcClient} (hchn : client.chn = true)
    (name : CString) (args : List (Option ChrpcValue)) (wantRet : Bool)
    (send : Bytes → ChannelStatus) (polls : List Poll) {w : Nat} {buf resp : Bytes}
    (hwrite : (chrpcClientWriteRequest name args client.bufLen).run client.buf = .ok w buf)
    (hsend : send (buf.take w) = .success)
    (hpoll : chrpcClientPoll client.attrs polls 0 .success = some (.ok resp)) :
    (chrpcClientSendRequest client name args wantRet send polls).result
      = (chrpcClientFinish { client with buf := buf } resp wantRet).1 := by
  rw [chrpcClientSendRequest, if_neg (by simp [hchn]), hwrite]
  simp only [hsend, hpoll, ne_eq, not_true_eq_false, if_false]

theorem chrpcClientFinish_result (client : ChrpcClient) (msg : Bytes) (wantRet : Bool) :
    (chrpcClientFinish client msg wantRet).1 =
      match chrpcClientParseResponse (overwrite client.buf 0 msg) wantRet with
      | .ok (status, ret) => .returned status ret
      | .error _ => .undefined := by
  rw [chrpcClientFinish]
  split <;> simp_all

/-- A response that begins in the message is there whatever follows. -/
theorem BeginsWithResponse.append {msg : Bytes} {status : ChrpcStatus} {payload : Bytes}
    (h : BeginsWithResponse msg status payload) (rest : Bytes) :
    BeginsWithResponse (msg ++ rest) status payload :=
  ⟨h.1, by
    obtain ⟨-, tail, rfl⟩ := h
    exact ⟨tail ++ rest, List.append_assoc _ _ _⟩⟩

/-- A response that begins in a buffer begins in the message, or the message is cut off. -/
theorem BeginsWithResponse.cut {msg rest : Bytes} {status : ChrpcStatus} {payload : Bytes}
    (h : BeginsWithResponse (msg ++ rest) status payload) :
    BeginsWithResponse msg status payload ∨
      ∃ tail, tail ≠ [] ∧ msg ++ tail = responseBytes status payload ∧ tail <+: rest := by
  obtain ⟨hlen, rest', heq⟩ := h
  rcases List.append_eq_append_iff.mp heq with ⟨tail, hresp, hrest⟩ | ⟨tail, hmsg, -⟩
  · by_cases hnil : tail = []
    · exact .inl ⟨hlen, [], by rw [hresp, hnil]; simp⟩
    · exact .inr ⟨tail, hnil, hresp.symm, rest', hrest.symm⟩
  · exact .inl ⟨hlen, tail, hmsg⟩

/-- A buffer that holds the message and then `rest`. -/
theorem chrpcClientFinish_append (attrs : ClientAttrs) (msg rest : Bytes) (wantRet : Bool) :
    (chrpcClientFinish ⟨attrs, true, msg ++ rest⟩ msg wantRet).1 =
      match chrpcClientParseResponse (msg ++ rest) wantRet with
      | .ok (status, ret) => .returned status ret
      | .error _ => .undefined := by
  rw [chrpcClientFinish_result, overwrite_zero, List.drop_left]

/-- Where the outcome is the message's, every string that is deleted holds a NUL. -/
theorem OutcomeFromMessage.allHoldNul {bufLen : Nat} {msg : Bytes} {wantRet : Bool}
    (h : OutcomeFromMessage bufLen msg wantRet) {rest : Bytes}
    (hlen : (msg ++ rest).length = bufLen) : AllHoldNul (deletedInResponse wantRet (msg ++ rest)) := by
  obtain ⟨status, ret, hout, -⟩ := h
  by_contra hnul
  have hfault : chrpcClientParseResponse (msg ++ rest) wantRet = .error .fault := by
    by_cases hresp : ∃ st payload, BeginsWithResponse (msg ++ rest) st payload
    · obtain ⟨st, payload, hresp⟩ := hresp
      obtain ⟨st', ret', -, heq⟩ := chrpcClientParseResponse_cases hresp wantRet
      rw [heq, Serial.measure, if_neg hnul]
      rfl
    · rw [chrpcClientParseResponse_other (fun st payload hb => hresp ⟨st, payload, hb⟩),
        Serial.measure, if_neg hnul]
      rfl
  have hrun := hout ⟨⟨1, 1⟩, true, msg ++ rest⟩ hlen
  rw [chrpcClientFinish_append, hfault] at hrun
  exact ClientResult.noConfusion hrun

/-- A response that is cut off does not begin with a response. -/
theorem TruncatedResponse.not_begins {bufLen : Nat} {msg : Bytes}
    (h : TruncatedResponse bufLen msg) : ∀ st p, ¬BeginsWithResponse msg st p := by
  intro st p hresp
  obtain ⟨status, payload, tail, hne, heq, hlen, -, -⟩ := h
  have hwhole : BeginsWithResponse (msg ++ tail) status payload :=
    ⟨hlen, [], by rw [heq, List.append_nil]⟩
  have hsame : responseBytes st p = responseBytes status payload := by
    obtain ⟨rest, hread⟩ := beginsWithResponse_iff.mp (hresp.append tail)
    obtain ⟨rest', hread'⟩ := beginsWithResponse_iff.mp hwhole
    rw [hread, Option.some.injEq, Prod.mk.injEq] at hread'
    rw [← responseValue_write, hread'.1, responseValue_write]
  obtain ⟨-, rest, rfl⟩ := hresp
  have hlong := congrArg List.length heq
  simp only [List.length_append, hsame] at hlong
  exact hne (List.length_eq_zero_iff.mp (by omega))

/-- Where the outcome is the message's, the message is not cut off. -/
theorem OutcomeFromMessage.not_truncated {bufLen : Nat} {msg : Bytes} {wantRet : Bool}
    (h : OutcomeFromMessage bufLen msg wantRet) : ¬TruncatedResponse bufLen msg := by
  intro htrunc
  have hbad := htrunc.not_begins
  obtain ⟨status, payload, tail, -, heq, hlen, hfit, hst⟩ := htrunc
  -- The rest of the response lies behind the message by chance.
  let rest := tail ++ List.replicate (bufLen - (msg ++ tail).length) 0
  have hrest : (msg ++ rest).length = bufLen := by
    simp only [rest, ← List.append_assoc, List.length_append, List.length_replicate] at hfit ⊢
    omega
  have hresp : BeginsWithResponse (msg ++ rest) status payload :=
    ⟨hlen, List.replicate (bufLen - (msg ++ tail).length) 0, by
      rw [← heq, List.append_assoc]⟩
  obtain ⟨st, ret, hkeep, hparse⟩ := chrpcClientParseResponse_cases hresp wantRet
  rw [Serial.measure, if_pos (h.allHoldNul hrest)] at hparse
  obtain ⟨status', ret', hout, hwhole⟩ := h
  have hrun := hout ⟨⟨1, 1⟩, true, msg ++ rest⟩ hrest
  rw [chrpcClientFinish_append, hparse] at hrun
  cases hrun
  exact hst (hkeep (hwhole hbad))

/-- **The message alone decides the outcome, unless it is a cut off response.** -/
theorem outcomeFromMessage_iff {bufLen : Nat} {msg : Bytes} (hmsg : msg.length ≤ bufLen)
    (wantRet : Bool) :
    OutcomeFromMessage bufLen msg wantRet ↔
      ¬TruncatedResponse bufLen msg ∧
      ∀ rest, (msg ++ rest).length = bufLen →
        AllHoldNul (deletedInResponse wantRet (msg ++ rest)) := by
  refine ⟨fun h => ⟨h.not_truncated, fun rest => h.allHoldNul⟩, ?_⟩
  rintro ⟨htrunc, hnul⟩
  have hbuf : ∀ client : ChrpcClient, client.bufLen = bufLen →
      (msg ++ client.buf.drop msg.length).length = bufLen := by
    rintro client rfl
    simp only [ChrpcClient.bufLen, List.length_append, List.length_drop] at hmsg ⊢
    omega
  by_cases hresp : ∃ st p, BeginsWithResponse msg st p
  · obtain ⟨st, p, hresp⟩ := hresp
    -- What follows in the buffer does not matter, so it may as well be zeros.
    have hpad : (msg ++ List.replicate (bufLen - msg.length) 0).length = bufLen := by
      simp only [List.length_append, List.length_replicate]
      omega
    obtain ⟨status, ret, -, hparse⟩ := chrpcClientParseResponse_cases (hresp.append _) wantRet
    rw [Serial.measure, if_pos (hnul _ hpad), chrpcClientParseResponse_response (hresp.append _)]
      at hparse
    refine ⟨status, ret, fun client hclient => ?_, fun hno => absurd hresp (hno st p)⟩
    rw [chrpcClientFinish_result, overwrite_zero,
      chrpcClientParseResponse_response (hresp.append _), hparse]
    rfl
  · refine ⟨chrpcBadResponse, none, fun client hclient => ?_, fun _ => rfl⟩
    have hlen := hbuf client hclient
    rw [chrpcClientFinish_result, overwrite_zero]
    by_cases hwhole : ∃ st p, BeginsWithResponse (msg ++ client.buf.drop msg.length) st p
    · obtain ⟨st, p, hwhole⟩ := hwhole
      -- The leftover of the buffer completes a response only where the message is a cut one.
      rcases hwhole.cut with h | ⟨tail, hne, heq, htail⟩
      · exact absurd ⟨st, p, h⟩ hresp
      · have hst : st = chrpcBadResponse := by
          by_contra hst
          have htail := htail.length_le
          rw [List.length_append] at hlen
          exact htrunc ⟨st, p, tail, hne, heq, hwhole.1, by rw [List.length_append]; omega, hst⟩
        rw [chrpcClientParseResponse_response hwhole, responseResult, hst, if_pos (by decide)]
    · rw [chrpcClientParseResponse_other (fun st p h => hwhole ⟨st, p, h⟩), Serial.measure,
        if_pos (hnul _ hlen)]
      rfl

/-- A response with an `i64`, less the last of its 19 bytes. -/
def cutResponse : Bytes := [10, 2, 0, 11, 0, 0, 9, 0, 0, 0, 3, 1, 0, 0, 0, 0, 0, 0]

theorem nul_not_mem_nil : (0 : UInt8) ∉ ([] : Bytes) := List.not_mem_nil

/-- A call whose client's buffer was full of `b`. -/
def callWithLeftover (b : UInt8) : ClientRun :=
  chrpcClientSendRequest ⟨⟨1, 5⟩, true, List.replicate 19 b⟩ ⟨[], nul_not_mem_nil⟩ [] true
    (fun _ => .success) [⟨.success, .ok cutResponse⟩]

/--
The last byte of the return value is cut off, and is what the client's buffer held before
the call: one request and one response give two values, neither a bad response.
-/
theorem not_outcomeFromMessage_cutResponse :
    (callWithLeftover 0).result
      = .returned chrpcSuccess (some (some ⟨.prim .int64, .num [1, 0, 0, 0, 0, 0, 0, 0]⟩)) ∧
    (callWithLeftover 1).result
      = .returned chrpcSuccess (some (some ⟨.prim .int64, .num [1, 0, 0, 0, 0, 0, 0, 1]⟩)) ∧
    ¬OutcomeFromMessage 19 cutResponse true := by
  have htrunc : TruncatedResponse 19 cutResponse :=
    ⟨chrpcSuccess, [3, 1, 0, 0, 0, 0, 0, 0, 0], [0], by simp, rfl, by decide, by decide, by decide⟩
  exact ⟨rfl, rfl, fun h => h.not_truncated htrunc⟩

/-- A whole response, without a return value. -/
theorem outcomeFromMessage_iff_whole :
    OutcomeFromMessage 12 [10, 2, 0, 11, 0, 0, 0, 0, 0, 0] true := by
  have hresp : BeginsWithResponse [10, 2, 0, 11, 0, 0, 0, 0, 0, 0] chrpcSuccess [] :=
    ⟨by decide, [], rfl⟩
  refine (outcomeFromMessage_iff (by decide) true).mpr ⟨fun htrunc => ?_, fun rest _ => ?_⟩
  · exact htrunc.not_begins _ _ hresp
  · rw [deletedInResponse_response (hresp.append rest)]
    simp [deletedInRetVal, AllHoldNul]

end Chlibs.Rpc
