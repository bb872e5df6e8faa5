import Chlibs.Chat.Answers
import Chlibs.Chat.Client

/-!
# Requests of the client

What a request of the client is at the server, and what a return value is at the client.

* `requestMsg_accepts`, `accepts_unique` — a request that fits is accepted as the call that it is.
* `EpAnswers.parses` — a return value comes back as it is.
* `readStatus_returnStatus`, `readMessage_msgValue` — and the client reads it.
-/

namespace Chlibs.Chat

open Infra Serial Util Rpc

/-! ## At the server -/

section Request

variable {name : CString} {strs : List CString} {ep : Endpoint}

theorem chatEndpointSet_wellFormed :
    chatEndpointSet.WellFormed ∧ chatEndpointSet.endpoints = chatEndpoints.map Prod.fst :=
  newChrpcEndpointSet_wellFormed (Option.some_get chatEndpointSet_isSome).symm

theorem strValue_write_length (s : CString) :
    (chrpcValueCodec.write (newChrpcStrValue s)).length = s.chars.length + 6 := by
  simp [chrpcValueCodec_write, newChrpcStrValue, ChrpcType.bytes, valueCodec, primCodec_write_str,
    CString.block]
  omega

theorem requestMsg_length (name : CString) (strs : List CString) :
    (requestMsg name (strs.map newChrpcStrValue)).length =
      name.chars.length + 15 + (strs.map fun s => s.chars.length + 10).sum := by
  have hcells : (((strs.map newChrpcStrValue).map chrpcValueCodec.write).flatMap
      Codec.block.write).length = (strs.map fun s => s.chars.length + 10).sum := by
    induction strs with
    | nil => rfl
    | cons s strs ih =>
      simp only [List.map_cons, List.flatMap_cons, List.length_append, ih, Codec.block_write,
        le32_length, strValue_write_length, List.sum_cons]
      omega
  have htype : reqType.bytes.length = 6 := rfl
  simp only [requestMsg, requestBytes, List.length_append, hcells, htype, Codec.block_write,
    le32_length, CString.block, List.length_singleton]
  omega

/-- The strings of a request that fits are not too long to be values. -/
theorem strArgs_wellFormed
    (hfits : (requestMsg name (strs.map newChrpcStrValue)).length ≤ chatMaxMsgSize) :
    ∀ arg ∈ strs.map newChrpcStrValue, arg.WellFormed := by
  intro arg harg
  have hle := valueBytes_length_le arg harg
  obtain ⟨s, -, rfl⟩ := List.mem_map.mp harg
  refine (Constructible.str s ?_).wellFormed
  rw [strValue_write_length] at hle
  simp only [requestMsg, requestBytes, List.length_append, chatMaxMsgSize] at hfits
  omega

theorem requestMsg_dom
    (hfits : (requestMsg name (strs.map newChrpcStrValue)).length ≤ chatMaxMsgSize) :
    chrpcValueCodec.dom
      (requestValue name ((strs.map newChrpcStrValue).map chrpcValueCodec.write)) := by
  have hlen := requestMsg_length name strs
  rw [chatMaxMsgSize] at hfits
  refine requestValue_dom ?_ ?_ fun cell hcell => ?_
  · rw [CString.block, List.length_append, List.length_singleton]
    omega
  · have hcount : strs.length ≤ (strs.map fun s => s.chars.length + 10).sum := by
      rw [← List.length_map fun s : CString => s.chars.length + 10]
      refine List.length_le_sum_of_one_le _ fun n hn => ?_
      obtain ⟨s, -, rfl⟩ := List.mem_map.mp hn
      omega
    simp only [List.length_map]
    omega
  · obtain ⟨arg, harg, rfl⟩ := List.mem_map.mp hcell
    have hle := valueBytes_length_le arg harg
    simp only [requestMsg, requestBytes, List.length_append] at hfits
    omega

/-- **A request is a call of its endpoint.** -/
theorem requestMsg_accepts {func : UInt64 → List ChrpcValue → EpProg EpRet}
    (hep : (ep, func) ∈ chatEndpoints)
    (htypes : List.replicate strs.length (.prim .string) = ep.args)
    (hfits : (requestMsg ep.name (strs.map newChrpcStrValue)).length ≤ chatMaxMsgSize) :
    Accepts chatEndpointSet (requestMsg ep.name (strs.map newChrpcStrValue)) ep
      (strs.map newChrpcStrValue) := by
  have hmem : ep ∈ chatEndpointSet.endpoints := by
    rw [chatEndpointSet_wellFormed.2]
    exact List.mem_map_of_mem hep
  have htypes' : (strs.map newChrpcStrValue).map ChrpcValue.type = ep.args := by
    rw [← htypes, List.map_map]
    exact List.map_const'
  refine (requestBytes_accepts hmem (strArgs_wellFormed hfits) htypes' ?_).1
  rw [chatMaxMsgSize] at hfits
  unfold requestMsg at hfits
  omega

theorem argsAccepted_unique : ∀ {ts : List ChrpcType} {args args' : List ChrpcValue},
    (∀ arg ∈ args, arg.WellFormed) → ArgsAccepted ts (args.map chrpcValueCodec.write) args' →
      args' = args
  | [], [], _, _, .nil => rfl
  | _ :: _, arg :: args, _, hargs, .cons h _ hrest => by
    have hread := chrpcValueFromBuffer_write (hargs arg List.mem_cons_self).dom []
    rw [List.append_nil, h] at hread
    cases hread
    exact congrArg _ (argsAccepted_unique (fun x hx => hargs x (List.mem_cons_of_mem _ hx)) hrest)

/-- **And of nothing else.** -/
theorem accepts_unique {args' : List ChrpcValue}
    (hfits : (requestMsg name (strs.map newChrpcStrValue)).length ≤ chatMaxMsgSize)
    (h : Accepts chatEndpointSet (requestMsg name (strs.map newChrpcStrValue)) ep args') :
    ep.name = name ∧ args' = strs.map newChrpcStrValue := by
  obtain ⟨name', cells, hreq, hname, hargs⟩ := h.request
  obtain ⟨-, huniq⟩ := isRequest_requestBytes (requestMsg_dom hfits)
  obtain ⟨rfl, rfl⟩ := huniq name' cells hreq
  refine ⟨CString.ext ?_, argsAccepted_unique (strArgs_wellFormed hfits) hargs⟩
  rw [← hname, cString_block]

end Request

/-! ## At the client -/

/-- **What an endpoint returns comes back**, whatever else is in the buffer. -/
theorem EpAnswers.parses {ep : Endpoint} {ret : EpRet} (h : EpAnswers ep ret) (rest : Bytes) :
    chrpcClientParseResponse (returnMsg ret.2 ++ rest) true = .ok (chrpcSuccess, some ret.2) := by
  obtain ⟨-, -, ⟨v, hv, hwf⟩, hfits⟩ := h
  have hret : ∀ w ∈ ret.2, w.WellFormed := fun w hw => by
    obtain rfl : v = w := Option.some.inj (hv.symm.trans hw)
    exact hwf
  have hlen : (valueBytes ret.2).length < 2 ^ 32 := by
    rw [responseBytes_length, chatMaxMsgSize] at hfits
    omega
  exact chrpcClientParseResponse_value hret hlen rest

theorem strOf_block (s : CString) : strOf (.str s.block) = some s := by
  have hmem : (0 : UInt8) ∈ s.block := s.terminatedOnce.mem
  rw [strOf, cstrAt, List.drop_zero, if_pos hmem]
  exact congrArg some (CString.ext (cString_block s))

theorem readStatus_returnStatus (st : ChatroomStatus) : readStatus (returnStatus st).2
    = some (if st = .success then none else some (chatroomStatusAsLiteral st)) := by
  cases st <;> rfl

theorem readMessage_msgValue (m : ChatroomMessage) : readMessage (msgValue m).value = some m := by
  obtain ⟨generalMsg, user, msg⟩ := m
  cases generalMsg <;>
    simp [readMessage, msgValue, structEntry, newChrpcStrValue, strOf_block] <;> rfl

end Chlibs.Chat
