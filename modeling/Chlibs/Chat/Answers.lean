import Chlibs.Chat.Server

/-!
# What the endpoints return

* `EpAnswers` — a return value that the RPC server accepts of an endpoint and that fits a message.
* `returnStatus_answers`, `msgsValue_answers` — statuses and polled messages are such values.
-/

namespace Chlibs.Chat

open Infra Serial Util Rpc

/-- The return value has the type of the endpoint, and the response with it fits a message. -/
def EpAnswers (ep : Endpoint) (ret : EpRet) : Prop :=
  ret.1 = .keepAlive ∧ chrpcTypeEqualsWrapper ep.ret ret.2 = true ∧
    (∃ v, ret.2 = some v ∧ v.WellFormed) ∧
    (responseBytes chrpcSuccess (valueBytes ret.2)).length ≤ chatMaxMsgSize

theorem EpAnswers.intro {ep : Endpoint} {v : ChrpcValue} (htype : ep.ret = some v.type)
    (hv : v.WellFormed) (hlen : (chrpcValueCodec.write v).length + 10 ≤ chatMaxMsgSize) :
    EpAnswers ep (.keepAlive, some v) := by
  refine ⟨rfl, ?_, ⟨v, rfl, hv⟩, ?_⟩
  · rw [htype]
    exact (chrpcTypeEquals_iff _ _).mpr rfl
  · rw [responseBytes_length, Nat.add_comm]
    exact hlen

/-! ## Statuses -/

section Status

variable {ep : Endpoint}

/-- The struct of a byte and a text. -/
def statusValue (b8 : BitVec 8) (msg : CString) : ChrpcValue :=
  ⟨statusType, .entries [(newChrpcB8Value b8).value, (newChrpcStrValue msg).value]⟩

theorem statusValue_wellFormed (b8 : BitVec 8) {msg : CString} (h : msg.chars.length ≤ 0x100) :
    (statusValue b8 msg).WellFormed := by
  refine (Constructible.struct
    (fun f (hf : f ∈ [newChrpcB8Value b8, newChrpcStrValue msg]) => ?_) rfl).wellFormed
  rcases List.mem_pair.mp hf with rfl | rfl
  · exact .numeric (p := .byte) (by decide) b8
  · exact .str msg (by omega)

theorem statusValue_length (b8 : BitVec 8) (msg : CString) :
    (chrpcValueCodec.write (statusValue b8 msg)).length = 10 + msg.chars.length := by
  simp [chrpcValueCodec_write, statusValue, statusType, newChrpcB8Value, newNumericValue,
    newChrpcStrValue, ChrpcType.bytes, ChrpcType.fieldBytes, valueCodec, fieldsCodec, Codec.embed,
    Codec.cons, Codec.nil, primCodec_write_num, primCodec_write_str, CString.block, PrimType.size]
  omega

theorem statusValue_answers (hep : ep.ret = some statusType) (b8 : BitVec 8) (msg : CString)
    (h : msg.chars.length ≤ 0x100) : EpAnswers ep (.keepAlive, some (statusValue b8 msg)) := by
  refine .intro hep (statusValue_wellFormed b8 h) ?_
  rw [statusValue_length, chatMaxMsgSize]
  omega

/-- **Every status is an answer.** -/
theorem returnStatus_answers (hep : ep.ret = some statusType) (st : ChatroomStatus) :
    EpAnswers ep (returnStatus st) := by
  cases st with
  | success => exact statusValue_answers hep 0 (literal "") (by decide)
  | _ => exact statusValue_answers hep 1 _ (by decide)

end Status

/-! ## Messages -/

section Messages

/-- The struct of a message. -/
def msgValue (m : ChatroomMessage) : ChrpcValue :=
  ⟨messageType, .entries [(newChrpcB8Value (if m.generalMsg then 1 else 0)).value,
    (newChrpcStrValue m.user).value, (newChrpcStrValue m.msg).value]⟩

/-- A name, or `$ROOT`, and a text of which there is no more than the chatroom takes. -/
def ChatroomMessage.Short (m : ChatroomMessage) : Prop :=
  m.user.chars.length ≤ 20 ∧ m.msg.chars.length ≤ chatroomMaxMessageLen

theorem messageValue_eq (m : ChatroomMessage) : messageValue m = some (msgValue m) := rfl

variable {m : ChatroomMessage} {msgs : List ChatroomMessage}

theorem msgValue_constructible (h : m.Short) : Constructible (msgValue m) := by
  obtain ⟨huser, hmsg⟩ := h
  rw [chatroomMaxMessageLen] at hmsg
  refine .struct (fun f (hf : f ∈ [newChrpcB8Value (if m.generalMsg then 1 else 0),
    newChrpcStrValue m.user, newChrpcStrValue m.msg]) => ?_) rfl
  simp only [List.mem_cons, List.not_mem_nil, or_false] at hf
  rcases hf with rfl | rfl | rfl
  · exact .numeric (p := .byte) (by decide) _
  · exact .str _ (by omega)
  · exact .str _ (by omega)

theorem msgValue_length (m : ChatroomMessage) : ((valueCodec messageType).write
    (msgValue m).value).length = 11 + m.user.chars.length + m.msg.chars.length := by
  simp [msgValue, messageType, newChrpcB8Value, newNumericValue, newChrpcStrValue, valueCodec,
    fieldsCodec, Codec.embed, Codec.cons, Codec.nil, primCodec_write_num, primCodec_write_str,
    CString.block, PrimType.size]
  omega

/-- The array of messages. -/
def msgsValue (msgs : List ChatroomMessage) : ChrpcValue :=
  ⟨.array messageType, .entries (msgs.map fun m => (msgValue m).value)⟩

theorem mapM_messageValue (msgs : List ChatroomMessage) :
    msgs.mapM messageValue = some (msgs.map msgValue) := by
  rw [funext messageValue_eq]
  exact List.mapM_pure

theorem messageType_wellFormed : messageType.WellFormed := by
  simp [messageType, ChrpcType.WellFormed, ChrpcType.AllWellFormed, chrpcMaxStructFields]

theorem pollValue_eq (msgs : List ChatroomMessage) :
    pollValue msgs = some (some (msgsValue msgs)) := by
  cases msgs with
  | nil => rfl
  | cons m msgs =>
    have hcomp : ¬¬(msgValue m).type.IsComposite := not_not.mpr trivial
    have hsame : ¬¬∀ e ∈ msgs.map msgValue, chrpcTypeEquals (msgValue m).type e.type = true := by
      refine not_not.mpr fun e he => ?_
      obtain ⟨m', -, rfl⟩ := List.mem_map.mp he
      exact (chrpcTypeEquals_iff _ _).mpr rfl
    rw [pollValue, if_neg (List.cons_ne_nil m msgs), mapM_messageValue, List.map_cons,
      Option.map_some, newChrpcCompositeNemptyArrayValue, if_neg hcomp, if_neg hsame]
    simp only [msgsValue, List.map_map, List.map_cons]
    rfl

theorem msgsValue_constructible (h : ∀ m ∈ msgs, m.Short) (hlen : msgs.length < 2 ^ 32) :
    Constructible (msgsValue msgs) := by
  have hvalue := pollValue_eq msgs
  unfold pollValue at hvalue
  split at hvalue
  · exact .emptyArray messageType_wellFormed (Option.some.inj hvalue)
  · rw [mapM_messageValue, Option.map_some, Option.some.injEq] at hvalue
    refine .nemptyArray (by simpa using hlen) (fun e he => ?_) hvalue
    obtain ⟨m, hm, rfl⟩ := List.mem_map.mp he
    exact msgValue_constructible (h m hm)

theorem msgsValue_length (h : ∀ m ∈ msgs, m.Short) :
    (chrpcValueCodec.write (msgsValue msgs)).length ≤ 10 + 287 * msgs.length := by
  have hcells : ∀ msgs : List ChatroomMessage, (∀ m ∈ msgs, m.Short) →
      ((msgs.map fun m => (msgValue m).value).flatMap (valueCodec messageType).write).length
        ≤ 287 * msgs.length := by
    intro msgs
    induction msgs with
    | nil => exact fun _ => le_rfl
    | cons m msgs ih =>
      intro h
      obtain ⟨huser, hmsg⟩ := h m List.mem_cons_self
      rw [chatroomMaxMessageLen] at hmsg
      have ih := ih fun m hm => h m (List.mem_cons_of_mem _ hm)
      rw [List.map_cons, List.flatMap_cons, List.length_append, msgValue_length, List.length_cons]
      omega
  have hwrite : chrpcValueCodec.write (msgsValue msgs) = (ChrpcType.array messageType).bytes ++
      (le32 msgs.length ++
        (msgs.map fun m => (msgValue m).value).flatMap (valueCodec messageType).write) := by
    simp [chrpcValueCodec_write, msgsValue, valueCodec, arrayCodec, messageType, cellsCodec_write]
  have htype : (ChrpcType.array messageType).bytes.length = 6 := rfl
  rw [hwrite, List.length_append, List.length_append, htype, le32_length]
  have := hcells msgs h
  omega

/-- **Every poll is an answer.** -/
theorem msgsValue_answers {ep : Endpoint} (hep : ep.ret = some (.array messageType))
    (h : ∀ m ∈ msgs, m.Short) (hlen : msgs.length ≤ pollSize) :
    EpAnswers ep (.keepAlive, some (msgsValue msgs)) := by
  rw [pollSize] at hlen
  refine .intro hep (msgsValue_constructible h (by omega)).wellFormed ?_
  have := msgsValue_length h
  rw [chatMaxMsgSize]
  omega

end Messages

end Chlibs.Chat
