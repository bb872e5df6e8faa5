import Chlibs.Channel.FdFraming

/-!
# Messages that are too long

The receiver throws out the header of a message that is over its limit, and then looks for a
start magic in the payload.

* `Skipped` — bytes in which it finds no message.
* `thrownOut_iff` — a frame is thrown out as a whole if and only if there is no message in its
  payload.
-/

namespace Chlibs.Channel

open Infra Util

/-! ## What the receiver skips -/

/-- Bytes that a receiver with this limit reads, between frames, without finding a message in
them, and after which it is between frames again. -/
inductive Skipped (maxMsgSize : Nat) : Bytes → Prop
  | nil : Skipped maxMsgSize []
  | junk {b : UInt8} {bs : Bytes} (hb : b ≠ chnFdStartMagic) (h : Skipped maxMsgSize bs) :
      Skipped maxMsgSize (b :: bs)
  /-- the header of a message that is too long -/
  | header {len : Nat} {bs : Bytes} (hlen : maxMsgSize < len) (hlimit : len < 2 ^ 32)
      (h : Skipped maxMsgSize bs) : Skipped maxMsgSize (chnFdStartMagic :: (le32 len ++ bs))
  /-- a frame with no payload or without its end magic -/
  | frame {payload bs : Bytes} {b : UInt8} (hlen : payload.length ≤ maxMsgSize)
      (hlimit : payload.length < 2 ^ 32) (hbad : payload = [] ∨ b ≠ chnFdEndMagic)
      (h : Skipped maxMsgSize bs) :
      Skipped maxMsgSize (chnFdStartMagic :: (le32 payload.length ++ (payload ++ b :: bs)))

/-- A frame that the bytes do not complete. -/
inductive Unfinished (maxMsgSize : Nat) : Bytes → Prop
  | header {bs : Bytes} (h : bs.length < 4) : Unfinished maxMsgSize (chnFdStartMagic :: bs)
  | payload {len : Nat} {bs : Bytes} (hlen : len ≤ maxMsgSize) (hlimit : len < 2 ^ 32)
      (h : bs.length ≤ len) : Unfinished maxMsgSize (chnFdStartMagic :: (le32 len ++ bs))

/-- Somewhere in the bytes, the receiver finds a message. -/
def HasFrame (maxMsgSize : Nat) (bs : Bytes) : Prop :=
  ∃ a payload rest, bs = a ++ (chnFdWriteBuf payload ++ rest) ∧ Skipped maxMsgSize a ∧
    1 ≤ payload.length ∧ payload.length ≤ maxMsgSize ∧ payload.length < 2 ^ 32

/-- The bytes end inside a frame, with no message before it. -/
def EndsInFrame (maxMsgSize : Nat) (bs : Bytes) : Prop :=
  ∃ a b, bs = a ++ b ∧ Skipped maxMsgSize a ∧ Unfinished maxMsgSize b

/-- One of the three is true of any bytes (`reading_total`). -/
def Reading (maxMsgSize : Nat) (bs : Bytes) : Prop :=
  Skipped maxMsgSize bs ∨ EndsInFrame maxMsgSize bs ∨ HasFrame maxMsgSize bs

/-- Skipped bytes in front change nothing. -/
theorem Reading.prepend {maxMsgSize : Nat} (pre : Bytes) {bs : Bytes}
    (hpre : ∀ x, Skipped maxMsgSize x → Skipped maxMsgSize (pre ++ x))
    (h : Reading maxMsgSize bs) : Reading maxMsgSize (pre ++ bs) := by
  rcases h with h | ⟨a, b, rfl, ha, hb⟩ | ⟨a, payload, rest, rfl, ha, hpayload⟩
  · exact .inl (hpre bs h)
  · exact .inr (.inl ⟨pre ++ a, b, (List.append_assoc ..).symm, hpre a ha, hb⟩)
  · exact .inr (.inr ⟨pre ++ a, payload, rest, (List.append_assoc ..).symm, hpre a ha, hpayload⟩)

theorem reading_of_length_le (maxMsgSize : Nat) : ∀ (n : Nat) (bs : Bytes), bs.length ≤ n →
    Reading maxMsgSize bs := by
  intro n
  induction n with
  | zero =>
    intro bs hn
    rw [List.eq_nil_of_length_eq_zero (Nat.le_zero.mp hn)]
    exact .inl .nil
  | succ n ih =>
    intro bs hn
    cases bs with
    | nil => exact .inl .nil
    | cons b bs =>
      simp only [List.length_cons, Nat.succ_le_succ_iff] at hn
      by_cases hb : b = chnFdStartMagic
      · rw [hb]
        -- The cases are those of the source: is the header there, does the length fit, is the
        -- payload there, and does the end magic follow.
        by_cases hshort : bs.length < 4
        · exact .inr (.inl ⟨[], _, rfl, .nil, .header hshort⟩)
        · have hfour : (bs.take 4).length = 4 := by simp; omega
          obtain ⟨len, hlen, hlimit⟩ : ∃ len, le32 len = bs.take 4 ∧ len < 2 ^ 32 :=
            ⟨_, le32_leNat hfour, leNat_lt_of_length_four hfour⟩
          obtain ⟨tail, rfl⟩ : ∃ tail, bs = le32 len ++ tail :=
            ⟨bs.drop 4, by rw [hlen, List.take_append_drop]⟩
          clear hlen hfour hshort
          simp only [List.length_append, le32_length] at hn
          by_cases hmax : maxMsgSize < len
          · exact Reading.prepend (chnFdStartMagic :: le32 len)
              (fun x hx => .header hmax hlimit hx) (ih tail (by omega))
          · by_cases htail : tail.length ≤ len
            · exact .inr (.inl ⟨[], _, rfl, .nil, .payload (by omega) hlimit htail⟩)
            · obtain ⟨payload, b, rest, rfl, rfl⟩ : ∃ payload b rest,
                  tail = payload ++ b :: rest ∧ payload.length = len :=
                ⟨tail.take len, tail[len], tail.drop (len + 1), by simp, by simp; omega⟩
              simp only [List.length_append, List.length_cons] at hn
              by_cases hbad : payload = [] ∨ b ≠ chnFdEndMagic
              · have h := Reading.prepend
                  (chnFdStartMagic :: (le32 payload.length ++ (payload ++ [b])))
                  (fun x hx => by
                    simpa using Skipped.frame (Nat.le_of_not_lt hmax) hlimit hbad hx)
                  (ih rest (by omega))
                simpa using h
              · simp only [not_or, not_not] at hbad
                refine .inr (.inr ⟨[], payload, rest, ?_, .nil,
                  List.length_pos_iff.mpr hbad.1, by omega, hlimit⟩)
                simp [chnFdWriteBuf, hbad.2]
      · exact Reading.prepend [b] (fun x hx => .junk hb hx) (ih bs hn)

theorem reading_total (maxMsgSize : Nat) (bs : Bytes) : Reading maxMsgSize bs :=
  reading_of_length_le maxMsgSize bs.length bs (Nat.le_refl _)

/-! ## Between frames -/

/-- Between frames, or with the header of a message that is too long, which the next byte
will clear. -/
def Ready (chn : ChannelFd) : Prop :=
  chn.msgBufFill = 0 ∨ chn.msgBufFill = 5 ∧ chn.cfg.maxMsgSize < msgLength chn

/-- All that one byte does. -/
inductive ByteStep (chn chn' : ChannelFd) : Prop
  | searched (hready : Ready chn) (hq : chn'.q = chn.q) (hfill : chn'.msgBufFill ≤ 1)
  | stored (hbusy : ¬Ready chn) (hq : chn'.q = chn.q)
      (hfill : chn'.msgBufFill = chn.msgBufFill + 1)
  | dropped (hbusy : ¬Ready chn) (hq : chn'.q = chn.q) (hfill : chn'.msgBufFill = 0)
  | delivered {msg : Bytes} (hbusy : ¬Ready chn) (hlen : msg.length + 5 ≤ chn.msgBufFill)
      (hfill : chn'.msgBufFill = 0)
      (hq : chn'.q.toList = pushBounded chn.q.cap chn.cfg.writeOver chn.q.toList msg)

section Byte

variable {chn : ChannelFd}

theorem Ready.byte (h : Ready chn) (b : UInt8) :
    chnFdByte chn b = chnFdSearchByte (clearMsg chn) b := by
  rcases h with h | ⟨h, hlong⟩
  · have hclear : clearMsg chn = chn := by
      cases chn
      cases h
      rfl
    rw [chnFdByte, if_pos h, hclear]
  · rw [chnFdByte, if_neg (by omega), if_neg (by omega), if_pos hlong]

theorem chnFdByte_cases (hinv : ReceiverInv chn) (b : UInt8) : ByteStep chn (chnFdByte chn b) := by
  by_cases hready : Ready chn
  · rw [hready.byte, chnFdSearchByte]
    split
    · exact .searched hready rfl (by simp)
    · exact .searched hready rfl (by simp)
  · have h0 : chn.msgBufFill ≠ 0 := fun h => hready (.inl h)
    rw [chnFdByte, if_neg h0]
    by_cases h5 : chn.msgBufFill < 5
    · rw [if_pos h5]
      exact .stored hready rfl rfl
    · have hmax : msgLength chn ≤ chn.cfg.maxMsgSize := by
        rcases hinv.fill with h | ⟨h, -⟩
        · exact Nat.le_of_not_lt fun hlong => hready (.inr ⟨by omega, hlong⟩)
        · exact h
      rw [if_neg h5, if_neg (by omega)]
      split
      · exact .stored hready rfl rfl
      · split
        · by_cases hlen : msgLength chn = 0
          · rw [hlen]
            exact .dropped hready rfl rfl
          · refine .delivered hready ?_ (by simp) (deliverMsg_toList hlen)
            rw [List.length_take]
            omega
        · exact .dropped hready rfl rfl

theorem Ready.idle (hinv : ReceiverInv chn) : Idle (clearMsg chn) := ⟨hinv.clearMsg, rfl⟩

/-- The header of a message that is too long counts for nothing. -/
theorem Ready.foldl (h : Ready chn) {bs : Bytes} (hbs : bs ≠ []) :
    bs.foldl chnFdByte chn = bs.foldl chnFdByte (clearMsg chn) := by
  obtain ⟨b, bs, rfl⟩ := List.exists_cons_of_ne_nil hbs
  have hclear : Ready (clearMsg chn) := .inl rfl
  rw [List.foldl_cons, List.foldl_cons, h.byte, hclear.byte]
  rfl

end Byte

/-- The receiver is between frames again, with the queue it had. -/
structure SkippedTo (chn chn' : ChannelFd) : Prop where
  inv : ReceiverInv chn'
  ready : Ready chn'
  cfg : chn'.cfg = chn.cfg
  q : chn'.q = chn.q

/-- The header of a message that is too long leaves the receiver between frames. -/
theorem skippedTo_header {chn : ChannelFd} (hinv : ReceiverInv chn) (hready : Ready chn)
    {len : Nat} (hlen : chn.cfg.maxMsgSize < len) (hlimit : len < 2 ^ 32) :
    SkippedTo chn ((chnFdStartMagic :: le32 len).foldl chnFdByte chn) := by
  obtain ⟨hheader, hinv', hlength⟩ := foldl_header (Ready.idle hinv) hlimit
  rw [hready.foldl (List.cons_ne_nil _ _), hheader]
  refine ⟨hinv', .inr ⟨by simp, ?_⟩, rfl, rfl⟩
  rw [hlength]
  exact hlen

/-- A frame with no payload or without its end magic leaves the receiver between frames. -/
theorem skippedTo_frame {chn : ChannelFd} (hinv : ReceiverInv chn) (hready : Ready chn)
    {payload : Bytes} (hlen : payload.length ≤ chn.cfg.maxMsgSize)
    (hlimit : payload.length < 2 ^ 32) {b : UInt8} (hbad : payload = [] ∨ b ≠ chnFdEndMagic) :
    SkippedTo chn
      ((chnFdStartMagic :: (le32 payload.length ++ (payload ++ [b]))).foldl chnFdByte chn) := by
  have hbuf := hinv.bufLength
  unfold chnFdMsgSize at hbuf
  have hidle := Ready.idle hinv
  rw [hready.foldl (List.cons_ne_nil _ _), chnFdByte_end hidle hlen hlimit]
  split
  · next hb =>
    have hnil : payload = [] := hbad.resolve_right (not_not_intro hb)
    rw [hnil]
    have hroom : (clearMsg chn).msgBufFill + (chnFdWriteBuf []).length ≤ chn.msgBuf.length := by
      simp [chnFdWriteBuf]
      omega
    exact ⟨hidle.delivered hroom _, .inl rfl, rfl, rfl⟩
  · have hroom : (clearMsg chn).msgBufFill +
        (chnFdStartMagic :: (le32 payload.length ++ payload)).length ≤ chn.msgBuf.length := by
      simp
      omega
    exact ⟨hidle.delivered hroom 0, .inl rfl, rfl, rfl⟩

/-- **Skipped bytes leave the receiver between frames and the queue alone.** -/
theorem Skipped.run {maxMsgSize : Nat} {bs : Bytes} (h : Skipped maxMsgSize bs) :
    ∀ {chn : ChannelFd}, ReceiverInv chn → Ready chn → chn.cfg.maxMsgSize = maxMsgSize →
      SkippedTo chn (bs.foldl chnFdByte chn) := by
  induction h with
  | nil => exact fun hinv hready _ => ⟨hinv, hready, rfl, rfl⟩
  | @junk b bs hb _ ih =>
    intro chn hinv hready hmax
    have hbyte : chnFdByte chn b = clearMsg chn := by
      rw [hready.byte, chnFdSearchByte, if_neg hb]
    rw [List.foldl_cons, hbyte]
    have hrest := ih hinv.clearMsg (.inl rfl) hmax
    exact ⟨hrest.inv, hrest.ready, hrest.cfg, hrest.q⟩
  | @header len bs hlen hlimit _ ih =>
    intro chn hinv hready hmax
    have hfront := skippedTo_header hinv hready (by rw [hmax]; exact hlen) hlimit
    rw [← List.cons_append, List.foldl_append]
    have hrest := ih hfront.inv hfront.ready (by rw [hfront.cfg, hmax])
    exact ⟨hrest.inv, hrest.ready, hrest.cfg.trans hfront.cfg, hrest.q.trans hfront.q⟩
  | @frame payload bs b hlen hlimit hbad _ ih =>
    intro chn hinv hready hmax
    have hfront := skippedTo_frame hinv hready (by rw [hmax]; exact hlen) hlimit hbad
    have hsplit : chnFdStartMagic :: (le32 payload.length ++ (payload ++ b :: bs)) =
        (chnFdStartMagic :: (le32 payload.length ++ (payload ++ [b]))) ++ bs := by simp
    rw [hsplit, List.foldl_append]
    have hrest := ih hfront.inv hfront.ready (by rw [hfront.cfg, hmax])
    exact ⟨hrest.inv, hrest.ready, hrest.cfg.trans hfront.cfg, hrest.q.trans hfront.q⟩

/-- **A frame that is not finished** leaves the receiver inside it, with all its bytes. -/
theorem Unfinished.run {chn : ChannelFd} {bs : Bytes} (h : Unfinished chn.cfg.maxMsgSize bs)
    (hinv : ReceiverInv chn) (hready : Ready chn) :
    (bs.foldl chnFdByte chn).q = chn.q ∧ (bs.foldl chnFdByte chn).msgBufFill = bs.length ∧
      ReceiverInv (bs.foldl chnFdByte chn) ∧ ¬Ready (bs.foldl chnFdByte chn) := by
  have hbuf : (clearMsg chn).msgBuf.length = 1 + 4 + chn.cfg.maxMsgSize + 1 := hinv.bufLength
  have hidle := Ready.idle hinv
  cases h with
  | @header bs h =>
    have hstart : Ready (clearMsg chn) := .inl rfl
    have hinv₁ : ReceiverInv (putMsg (clearMsg chn) [chnFdStartMagic]) :=
      hidle.putMsg (by simp; omega) (.inl (by simp))
    -- The bytes behind the start magic are stored one by one, as the length is not complete.
    have hput : (chnFdStartMagic :: bs).foldl chnFdByte (clearMsg chn) =
        putMsg (clearMsg chn) (chnFdStartMagic :: bs) := by
      have hbyte : chnFdByte (clearMsg chn) chnFdStartMagic =
          putMsg (clearMsg chn) [chnFdStartMagic] := by
        rw [hstart.byte, chnFdSearchByte, if_pos rfl]
        rfl
      rw [List.foldl_cons, hbyte, foldl_chnFdByte_length hinv₁ (by simp) (by simp; omega),
        putMsg_putMsg (by simp; omega)]
      rfl
    rw [hready.foldl (List.cons_ne_nil _ _), hput]
    refine ⟨rfl, by simp, hidle.putMsg (by simp; omega) (.inl (by simp; omega)), ?_⟩
    rintro (hfill | ⟨hfill, -⟩)
    · simp at hfill
    · simp at hfill
      omega
  | @payload len bs hlen hlimit h =>
    have hput := foldl_payload hidle hlimit hlen h
    have hclear : (clearMsg chn).msgBufFill = 0 := rfl
    have hlength := msgLength_header hclear hlimit bs
    rw [hready.foldl (List.cons_ne_nil _ _), hput]
    refine ⟨rfl, by simp, ?_, ?_⟩
    · refine ⟨(putMsg_msgBuf_length (by simp; omega)).trans hinv.bufLength, hinv.depth, .inr ?_⟩
      rw [hlength]
      exact ⟨hlen, by simp; omega⟩
    · rintro (hfill | ⟨-, hlong⟩)
      · simp at hfill
      · rw [hlength] at hlong
        exact absurd hlong (Nat.not_lt.mpr hlen)

/-! ## Runs from an empty queue -/

theorem pushBounded_ne_nil {α : Type} {depth : Nat} (hdepth : 1 ≤ depth) (writeOver : Bool)
    (l : List α) (a : α) : pushBounded depth writeOver l a ≠ [] := by
  unfold pushBounded
  split
  · simp
  · split
    · simp
    · intro hnil
      simp only [hnil, List.length_nil] at *
      omega

section Run

variable {chn : ChannelFd}

theorem foldl_inv (hinv : ReceiverInv chn) (bs : Bytes) : ReceiverInv (bs.foldl chnFdByte chn) :=
  (chnFdProcessChunk_eq hinv bs).2

/-- A byte that changes the queue leaves something in it. -/
theorem chnFdByte_q_ne (hinv : ReceiverInv chn) {b : UInt8} (h : (chnFdByte chn b).q ≠ chn.q) :
    ¬Ready chn ∧ (chnFdByte chn b).q.toList ≠ [] := by
  cases chnFdByte_cases hinv b with
  | searched _ hq _ => exact absurd hq h
  | stored _ hq _ => exact absurd hq h
  | dropped _ hq _ => exact absurd hq h
  | delivered hbusy _ _ hq =>
    have := chn.q.i_lt
    refine ⟨hbusy, ?_⟩
    rw [hq]
    exact pushBounded_ne_nil (by omega) _ _ _

/-- The receiver never empties the queue. -/
theorem foldl_q_ne_nil : ∀ (bs : Bytes) {chn : ChannelFd}, ReceiverInv chn → chn.q.toList ≠ [] →
    (bs.foldl chnFdByte chn).q.toList ≠ []
  | [], _, _, h => h
  | b :: bs, chn, hinv, h => by
    have hstep : (chnFdByte chn b).q.toList ≠ [] := by
      by_cases hq : (chnFdByte chn b).q = chn.q
      · rw [hq]
        exact h
      · exact (chnFdByte_q_ne hinv hq).2
    exact foldl_q_ne_nil bs (foldl_inv hinv [b]) hstep

/-- Where the queue is empty afterwards, nothing was queued. -/
theorem q_eq_of_foldl_nil (hinv : ReceiverInv chn) {pre post : Bytes} {b : UInt8}
    (h : ((pre ++ b :: post).foldl chnFdByte chn).q.toList = []) :
    (chnFdByte (pre.foldl chnFdByte chn) b).q = (pre.foldl chnFdByte chn).q := by
  have hinv' := foldl_inv hinv pre
  rw [List.foldl_append, List.foldl_cons] at h
  by_contra hq
  exact foldl_q_ne_nil post (foldl_inv hinv' [b]) (chnFdByte_q_ne hinv' hq).2 h

/-- What is in the buffer has come since the receiver was between frames. -/
theorem fill_le_length (hinv : ReceiverInv chn) (hready : Ready chn) {bs : Bytes} (hbs : bs ≠ []) :
    (bs.foldl chnFdByte chn).msgBufFill ≤ bs.length := by
  induction bs using List.reverseRecOn with
  | nil => exact absurd rfl hbs
  | append_singleton bs b ih =>
    rw [List.foldl_append, List.foldl_cons, List.foldl_nil, List.length_append,
      List.length_singleton]
    cases chnFdByte_cases (foldl_inv hinv bs) b with
    | searched _ _ hfill => omega
    | dropped _ _ hfill => omega
    | delivered _ _ hfill _ => omega
    | stored hbusy _ hfill =>
      have hne : bs ≠ [] := by
        rintro rfl
        exact hbusy hready
      have := ih hne
      omega

/-- The frames that follow are received. -/
theorem later_run (hinv : ReceiverInv chn) (hready : Ready chn) (hq : chn.q.toList = [])
    (hlimit : chn.cfg.maxMsgSize < 2 ^ 32) {later : List Bytes}
    (hlater : ∀ msg ∈ later, 1 ≤ msg.length ∧ msg.length ≤ chn.cfg.maxMsgSize)
    (hdepth : later.length ≤ chn.cfg.queueDepth) :
    ((later.flatMap chnFdWriteBuf).foldl chnFdByte chn).q.toList = later := by
  by_cases hnil : later = []
  · rw [hnil]
    exact hq
  · have hpos : 1 ≤ later.length := List.length_pos_iff.mpr hnil
    have hbytes : (later.map Segment.message).flatMap Segment.bytes =
        later.flatMap chnFdWriteBuf := by
      rw [List.flatMap_map]
      rfl
    have hpayloads : payloads (later.map Segment.message) = later := by
      rw [payloads, List.filterMap_map]
      exact List.filterMap_some
    have hne : later.flatMap chnFdWriteBuf ≠ [] := by
      obtain ⟨msg, later, rfl⟩ := List.exists_cons_of_ne_nil hnil
      simp [chnFdWriteBuf]
    have hrun := (segments_idle (later.map Segment.message) (Ready.idle hinv) hlimit (by
      simpa [Segment.Valid] using hlater)).2
    rw [hready.foldl hne, ← hbytes, hrun, hpayloads, clearMsg_q, hq,
      foldl_pushBounded_of_le (by rw [hinv.depth]; omega) _ (by rw [hinv.depth]; exact hdepth)]

end Run

/-! ## Behind an unfinished frame -/

/-- How long the frames of these messages are together. -/
def weight (msgs : List Bytes) : Nat := (msgs.flatMap chnFdWriteBuf).length

@[simp] theorem weight_nil : weight [] = 0 := rfl

theorem weight_append (msgs msgs' : List Bytes) :
    weight (msgs ++ msgs') = weight msgs + weight msgs' := by
  simp [weight, List.flatMap_append]

theorem weight_singleton (msg : Bytes) : weight [msg] = msg.length + 6 := by
  simp [weight, chnFdWriteBuf]
  omega

theorem weight_pushBounded (depth : Nat) (writeOver : Bool) (msgs : List Bytes) (msg : Bytes) :
    weight (pushBounded depth writeOver msgs msg) ≤ weight msgs + msg.length + 6 := by
  have htail : weight msgs.tail ≤ weight msgs := by
    cases msgs with
    | nil => exact Nat.le_refl _
    | cons m msgs =>
      have := weight_append [m] msgs
      rw [List.singleton_append] at this
      rw [List.tail_cons]
      omega
  unfold pushBounded
  split
  · rw [weight_append, weight_singleton]
    omega
  · split
    · rw [weight_append, weight_singleton]
      omega
    · omega

/-- What `n` further bytes make of an unfinished frame of `k` bytes, when it is not queued:
either it is still unfinished, or one byte at least was lost. -/
theorem behind_unfinished {chn : ChannelFd} (hinv : ReceiverInv chn) (hbusy : ¬Ready chn)
    (hq : chn.q.toList = []) (bs : Bytes)
    (hfree : ∀ pre b post, bs = pre ++ b :: post →
      (pre.foldl chnFdByte chn).msgBufFill = pre.length + chn.msgBufFill →
      (chnFdByte (pre.foldl chnFdByte chn) b).q = (pre.foldl chnFdByte chn).q) :
    ((bs.foldl chnFdByte chn).q.toList = [] ∧
        (bs.foldl chnFdByte chn).msgBufFill = bs.length + chn.msgBufFill) ∨
      weight (bs.foldl chnFdByte chn).q.toList + (bs.foldl chnFdByte chn).msgBufFill + 1 ≤
        bs.length := by
  induction bs using List.reverseRecOn with
  | nil => exact .inl ⟨hq, (Nat.zero_add _).symm⟩
  | append_singleton bs b ih =>
    have hlast := hfree bs b [] rfl
    have ih := ih fun pre b' post hbs => hfree pre b' (post ++ [b]) (by rw [hbs]; simp)
    have hstep := chnFdByte_cases (foldl_inv hinv bs) b
    rw [List.foldl_append, List.foldl_cons, List.foldl_nil, List.length_append,
      List.length_singleton]
    rcases ih with ⟨hempty, hfill⟩ | hlost
    · -- Still inside the frame: the byte is stored, or the frame is dropped.
      have hsame := hlast hfill
      cases hstep with
      | searched hready _ hfill' =>
        have hlen : bs ≠ [] := by
          rintro rfl
          exact hbusy hready
        have := List.length_pos_iff.mpr hlen
        right
        rw [hsame, hempty]
        rw [weight_nil]
        omega
      | stored _ _ hfill' =>
        left
        rw [hsame, hfill', hfill]
        exact ⟨hempty, by omega⟩
      | dropped _ _ hfill' =>
        right
        rw [hsame, hempty, hfill', weight_nil]
        omega
      | delivered _ _ hfill' _ =>
        right
        rw [hsame, hempty, hfill', weight_nil]
        omega
    · right
      cases hstep with
      | searched _ hq' hfill' =>
        rw [hq']
        omega
      | stored _ hq' hfill' =>
        rw [hq']
        omega
      | dropped _ hq' hfill' =>
        rw [hq']
        omega
      | @delivered msg _ hlen hfill' hq' =>
        have := weight_pushBounded (bs.foldl chnFdByte chn).q.cap
          (bs.foldl chnFdByte chn).cfg.writeOver (bs.foldl chnFdByte chn).q.toList msg
        rw [hq']
        omega

/-! ## Messages inside a payload -/

/-- Processing the stream queues a message whose start magic is the byte `start` of it. -/
def EnqueuedFrom (chn : ChannelFd) (stream : Bytes) (start : Nat) : Prop :=
  ∃ pre b post chn₁ chn₂, stream = pre ++ b :: post ∧
    chnFdProcessChunks chn [pre] = some chn₁ ∧ chnFdProcessChunks chn [pre ++ [b]] = some chn₂ ∧
    chn₂.q ≠ chn₁.q ∧ start + chn₁.msgBufFill = pre.length

/-- The frame of `p` and the frames behind it. -/
def oversizeStream (p : Bytes) (later : List Bytes) : Bytes :=
  chnFdWriteBuf p ++ later.flatMap chnFdWriteBuf

/-- The frame of `p` is thrown out as a whole: the queue ends up with the later messages, and
no message that starts inside `p` is ever queued. -/
def ThrownOut (chn : ChannelFd) (p : Bytes) (later : List Bytes) : Prop :=
  (∀ (reads : List Bytes) (readEnd : ReadEnd), reads.flatten = oversizeStream p later →
    ∃ chn', chnFdRefresh chn reads readEnd = some (.success, chn') ∧ chn'.q.toList = later) ∧
  ∀ start, EnqueuedFrom chn (oversizeStream p later) start →
    ¬(5 ≤ start ∧ start < 5 + p.length)

/-- Read as a receiver reads it, the payload with its end magic holds no message, and where
frames follow, it ends between frames. -/
def NoMessageIn (maxMsgSize : Nat) (p : Bytes) (later : List Bytes) : Prop :=
  Skipped maxMsgSize (p ++ [chnFdEndMagic]) ∨
    later = [] ∧ EndsInFrame maxMsgSize (p ++ [chnFdEndMagic])

theorem enqueuedFrom_iff {chn : ChannelFd} (hinv : ReceiverInv chn) (stream : Bytes) (start : Nat) :
    EnqueuedFrom chn stream start ↔ ∃ pre b post, stream = pre ++ b :: post ∧
      (chnFdByte (pre.foldl chnFdByte chn) b).q ≠ (pre.foldl chnFdByte chn).q ∧
      start + (pre.foldl chnFdByte chn).msgBufFill = pre.length := by
  have hrun : ∀ bs, chnFdProcessChunks chn [bs] = some (bs.foldl chnFdByte chn) := by
    intro bs
    have := (chnFdProcessChunks_eq [bs] hinv).1
    rwa [List.flatten_cons, List.flatten_nil, List.append_nil] at this
  constructor
  · rintro ⟨pre, b, post, chn₁, chn₂, hstream, h₁, h₂, hq, hstart⟩
    rw [hrun, Option.some.injEq] at h₁ h₂
    subst h₁ h₂
    rw [List.foldl_append] at hq
    exact ⟨pre, b, post, hstream, hq, hstart⟩
  · rintro ⟨pre, b, post, hstream, hq, hstart⟩
    refine ⟨pre, b, post, _, _, hstream, hrun _, hrun _, ?_, hstart⟩
    rwa [List.foldl_append]

/-! ## Exactly when a frame is thrown out -/

section Oversize

variable {chn : ChannelFd} {p : Bytes} {later : List Bytes}

/-- The header of `p` and the front of its payload, and the rest. -/
theorem chnFdWriteBuf_split {a b : Bytes} (h : p ++ [chnFdEndMagic] = a ++ b) :
    chnFdWriteBuf p = (chnFdStartMagic :: (le32 p.length ++ a)) ++ b := by
  simp [chnFdWriteBuf, h]

/-- A byte of two joined lists is in the first or in the second one. -/
theorem byte_of_append {s t pre post : Bytes} {b : UInt8} (h : s ++ t = pre ++ b :: post) :
    (∃ post', s = pre ++ b :: post') ∨ ∃ pre', pre = s ++ pre' ∧ t = pre' ++ b :: post := by
  rcases List.append_eq_append_iff.mp h with ⟨pre', hpre, ht⟩ | ⟨rest, hs, hrest⟩
  · exact .inr ⟨pre', hpre, ht⟩
  · cases rest with
    | nil => exact .inr ⟨[], by simpa using hs.symm, hrest.symm⟩
    | cons b' rest =>
      obtain ⟨rfl, -⟩ := List.cons.inj hrest
      exact .inl ⟨rest, hs⟩

/-- Behind the frame of `p`, the queue is empty, and where frames follow, the receiver is
between frames. -/
theorem NoMessageIn.behind (h : NoMessageIn chn.cfg.maxMsgSize p later) (hinv : ReceiverInv chn)
    (hfill : chn.msgBufFill = 0) (hlong : chn.cfg.maxMsgSize < p.length)
    (hlimit : p.length < 2 ^ 32) :
    ((chnFdWriteBuf p).foldl chnFdByte chn).q = chn.q ∧
      (later = [] ∨ SkippedTo chn ((chnFdWriteBuf p).foldl chnFdByte chn)) := by
  rcases h with hskip | ⟨hlater, a, b, hsplit, ha, hb⟩
  · have hpayload := (Skipped.header hlong hlimit hskip).run hinv (.inl hfill) rfl
    rw [chnFdWriteBuf, List.append_assoc]
    exact ⟨hpayload.q, .inr hpayload⟩
  · have hskipped := (Skipped.header hlong hlimit ha).run hinv (.inl hfill) rfl
    rw [chnFdWriteBuf_split hsplit, List.foldl_append]
    rw [← hskipped.cfg] at hb
    exact ⟨(hb.run hskipped.inv hskipped.ready).1.trans hskipped.q, .inl hlater⟩

/-- Without a message in it, the frame is thrown out. -/
theorem NoMessageIn.thrownOut (h : NoMessageIn chn.cfg.maxMsgSize p later)
    (hinv : ReceiverInv chn) (hopen : chn.readOpen = true) (hfill : chn.msgBufFill = 0)
    (hq : chn.q.toList = []) (hlong : chn.cfg.maxMsgSize < p.length) (hlimit : p.length < 2 ^ 32)
    (hlater : ∀ msg ∈ later, 1 ≤ msg.length ∧ msg.length ≤ chn.cfg.maxMsgSize)
    (hdepth : later.length ≤ chn.cfg.queueDepth) : ThrownOut chn p later := by
  obtain ⟨hsame, hready⟩ := h.behind hinv hfill hlong hlimit
  have hinv' := foldl_inv hinv (chnFdWriteBuf p)
  have hempty : ((chnFdWriteBuf p).foldl chnFdByte chn).q.toList = [] := by
    rw [hsame]
    exact hq
  constructor
  · intro reads readEnd hreads
    have hqueue : ((oversizeStream p later).foldl chnFdByte chn).q.toList = later := by
      rw [oversizeStream, List.foldl_append]
      rcases hready with hnil | hready
      · rw [hnil]
        exact hempty
      · exact later_run hinv' hready.ready hempty (by rw [hready.cfg]; omega)
          (by rw [hready.cfg]; exact hlater) (by rw [hready.cfg]; exact hdepth)
    have hrun := (chnFdProcessChunks_eq reads hinv).1
    rw [hreads] at hrun
    rw [chnFdRefresh, if_neg (by simp [hopen]), hrun]
    cases readEnd with
    | wouldBlock => exact ⟨_, rfl, hqueue⟩
    | closed => exact ⟨_, rfl, hqueue⟩
  · rintro start hstart ⟨-, hlt⟩
    obtain ⟨pre, b, post, hstream, hne, hpos⟩ := (enqueuedFrom_iff hinv _ _).mp hstart
    rcases byte_of_append hstream with ⟨post', hframe⟩ | ⟨pre', rfl, hrest⟩
    · -- Within the frame of `p`, nothing is queued.
      rw [hframe] at hempty
      exact hne (q_eq_of_foldl_nil hinv hempty)
    · -- A later frame starts behind the end magic of `p`.
      rcases hready with hnil | hready
      · rw [hnil] at hrest
        simp at hrest
      · rw [List.foldl_append] at hne hpos
        have hpre : pre' ≠ [] := by
          rintro rfl
          exact (chnFdByte_q_ne hinv' hne).1 hready.ready
        have hle := fill_le_length hinv' hready.ready hpre
        have hlength : (chnFdWriteBuf p).length = p.length + 6 := by
          simp [chnFdWriteBuf]
          omega
        rw [List.length_append, hlength] at hpos
        omega

theorem Unfinished.two_le {maxMsgSize : Nat} {a b : Bytes} (h : Unfinished maxMsgSize b)
    (hsplit : p ++ [chnFdEndMagic] = a ++ b) : 2 ≤ b.length := by
  cases h with
  | payload =>
    simp
    omega
  | @header bs =>
    cases bs with
    | nil =>
      have hlast := (List.append_inj' hsplit rfl).2
      simp [chnFdEndMagic, chnFdStartMagic] at hlast
    | cons => simp

/-- A frame in the payload is queued. -/
theorem HasFrame.enqueued (h : HasFrame chn.cfg.maxMsgSize (p ++ [chnFdEndMagic]))
    (hinv : ReceiverInv chn) (hfill : chn.msgBufFill = 0) (hq : chn.q.toList = [])
    (hlong : chn.cfg.maxMsgSize < p.length) (hlimit : p.length < 2 ^ 32) (later : List Bytes) :
    ∃ start, EnqueuedFrom chn (oversizeStream p later) start ∧ 5 ≤ start ∧
      start < 5 + p.length := by
  obtain ⟨a, payload, rest, hsplit, ha, hpos, hmax, hlen⟩ := h
  have hfront : chnFdWriteBuf payload =
      (chnFdStartMagic :: (le32 payload.length ++ payload)) ++ [chnFdEndMagic] := by
    simp [chnFdWriteBuf]
  have hlengths := congrArg List.length hsplit
  simp only [hfront, List.length_append, List.length_cons, List.length_nil, le32_length] at hlengths
  have hskipped := (Skipped.header hlong hlimit ha).run hinv (.inl hfill) rfl
  refine ⟨5 + a.length, (enqueuedFrom_iff hinv _ _).mpr ⟨(chnFdStartMagic :: (le32 p.length ++ a)) ++
    (chnFdStartMagic :: (le32 payload.length ++ payload)), chnFdEndMagic,
    rest ++ later.flatMap chnFdWriteBuf, ?_, ?_⟩, by omega, by omega⟩
  · rw [oversizeStream, chnFdWriteBuf_split hsplit, hfront]
    simp
  · rw [List.foldl_append]
    generalize (chnFdStartMagic :: (le32 p.length ++ a)).foldl chnFdByte chn = inside at hskipped ⊢
    have hidle := Ready.idle hskipped.inv
    have hmax' : payload.length ≤ (clearMsg inside).cfg.maxMsgSize := by
      rw [clearMsg_cfg, hskipped.cfg]
      exact hmax
    -- The frame up to its end magic, and its end magic.
    have hstored := foldl_payload hidle hlen hmax' (Nat.le_refl _)
    have hdelivered := (frame_idle hidle hmax' hlen).2.2
    rw [if_neg (List.length_pos_iff.mp hpos), hfront, List.foldl_append, hstored, List.foldl_cons,
      List.foldl_nil] at hdelivered
    rw [hskipped.ready.foldl (List.cons_ne_nil _ _), hstored]
    constructor
    · intro hsame
      rw [hsame, putMsg_q, clearMsg_q, hskipped.q, hq] at hdelivered
      have := chn.q.i_lt
      exact pushBounded_ne_nil (by omega) _ _ _ hdelivered.symm
    · simp
      omega

/-- An unfinished frame at the end of the payload swallows bytes of the frames that follow. -/
theorem later_eq_nil_of_unfinished {a b : Bytes} (hinv : ReceiverInv chn)
    (hfill : chn.msgBufFill = 0) (hq : chn.q.toList = []) (hlong : chn.cfg.maxMsgSize < p.length)
    (hlimit : p.length < 2 ^ 32) (hsplit : p ++ [chnFdEndMagic] = a ++ b)
    (ha : Skipped chn.cfg.maxMsgSize a) (hb : Unfinished chn.cfg.maxMsgSize b)
    (hqueue : ((oversizeStream p later).foldl chnFdByte chn).q.toList = later)
    (hfree : ∀ start, EnqueuedFrom chn (oversizeStream p later) start →
      ¬(5 ≤ start ∧ start < 5 + p.length)) : later = [] := by
  have hskipped := (Skipped.header hlong hlimit ha).run hinv (.inl hfill) rfl
  rw [← hskipped.cfg] at hb
  obtain ⟨hsame, hfill', hinv', hbusy⟩ := hb.run hskipped.inv hskipped.ready
  rw [← List.foldl_append, ← chnFdWriteBuf_split hsplit] at hsame hfill' hinv' hbusy
  have hlength : (chnFdWriteBuf p).length = p.length + 6 := by
    simp [chnFdWriteBuf]
    omega
  have hlengths := congrArg List.length hsplit
  simp only [List.length_append, List.length_singleton] at hlengths
  have htwo := hb.two_le hsplit
  have hempty : ((chnFdWriteBuf p).foldl chnFdByte chn).q.toList = [] := by
    rw [hsame, hskipped.q]
    exact hq
  have hend := behind_unfinished hinv' hbusy hempty
    (later.flatMap chnFdWriteBuf) (by
      intro pre byte post hbs hinside
      by_contra hne
      -- The message would start with the first byte of `b`.
      refine hfree (5 + a.length) ((enqueuedFrom_iff hinv _ _).mpr
        ⟨chnFdWriteBuf p ++ pre, byte, post, ?_, ?_, ?_⟩) ⟨by omega, by omega⟩
      · rw [oversizeStream, hbs, List.append_assoc]
      · rwa [List.foldl_append]
      · rw [List.foldl_append, hinside, hfill', List.length_append]
        omega)
  rw [oversizeStream, List.foldl_append] at hqueue
  rcases hend with ⟨hnil, -⟩ | hlost
  · rwa [hqueue] at hnil
  · rw [hqueue, weight] at hlost
    omega

/-- **An over-long frame is thrown out as a whole if and only if there is no message in it.** -/
theorem thrownOut_iff (hchn : channelFdSystem.Reachable chn) (hopen : chn.readOpen = true)
    (hfill : chn.msgBufFill = 0) (hq : chn.q.toList = []) (hlong : chn.cfg.maxMsgSize < p.length)
    (hlimit : p.length < 2 ^ 32)
    (hlater : ∀ msg ∈ later, 1 ≤ msg.length ∧ msg.length ≤ chn.cfg.maxMsgSize)
    (hdepth : later.length ≤ chn.cfg.queueDepth) :
    ThrownOut chn p later ↔ NoMessageIn chn.cfg.maxMsgSize p later := by
  have hinv := channelFdSystem_inv hchn
  refine ⟨?_, fun h => h.thrownOut hinv hopen hfill hq hlong hlimit hlater hdepth⟩
  rintro ⟨hrefresh, hfree⟩
  have hqueue : ((oversizeStream p later).foldl chnFdByte chn).q.toList = later := by
    have hrun := (chnFdProcessChunks_eq [oversizeStream p later] hinv).1
    obtain ⟨chn', hrefresh, hlist⟩ := hrefresh [oversizeStream p later] .wouldBlock (by simp)
    rw [chnFdRefresh, if_neg (by simp [hopen]), hrun] at hrefresh
    cases hrefresh
    simpa using hlist
  rcases reading_total chn.cfg.maxMsgSize (p ++ [chnFdEndMagic]) with
    hskip | ⟨a, b, hsplit, ha, hb⟩ | hframe
  · exact .inl hskip
  · exact .inr ⟨later_eq_nil_of_unfinished hinv hfill hq hlong hlimit hsplit ha hb hqueue hfree,
      a, b, hsplit, ha, hb⟩
  · obtain ⟨start, henq, hge, hlt⟩ := hframe.enqueued hinv hfill hq hlong hlimit later
    exact absurd ⟨hge, hlt⟩ (hfree start henq)

/-- Three bytes of junk that are one byte too long, with a message behind them. -/
theorem thrownOut_iff_junk :
    ∃ chn, newChannelFd ⟨1, true, 2, 64⟩ (List.replicate 8 0) = .ok chn ∧
      ThrownOut chn [1, 2, 3] [[7]] := by
  have hnew : ∃ chn, newChannelFd ⟨1, true, 2, 64⟩ (List.replicate 8 0) = .ok chn ∧
      chn.readOpen = true ∧ chn.msgBufFill = 0 ∧ chn.q.toList = [] ∧
      chn.cfg = ⟨1, true, 2, 64⟩ := ⟨_, rfl, rfl, rfl, rfl, rfl⟩
  obtain ⟨chn, hchn, hopen, hfill, hq, hcfg⟩ := hnew
  have hskipped : Skipped 2 ([1, 2, 3] ++ [chnFdEndMagic]) :=
    .junk (by decide) (.junk (by decide) (.junk (by decide) (.junk (by decide) .nil)))
  refine ⟨chn, hchn, (thrownOut_iff (.init ⟨_, _, by decide, hchn⟩) hopen hfill hq (by simp [hcfg])
    (by decide) (by simp [hcfg]) (by simp [hcfg])).mpr ?_⟩
  rw [hcfg]
  exact .inl hskipped

/-- A payload that holds the frame of a message: the message is queued. -/
theorem not_thrownOut_frame :
    ∃ chn chn', newChannelFd ⟨1, true, 2, 64⟩ (List.replicate 8 0) = .ok chn ∧
      chnFdRefresh chn [oversizeStream [0x1E, 1, 0, 0, 0, 7, 0x2A] []] .wouldBlock =
        some (.success, chn') ∧
      chn'.q.toList = [[7]] ∧ ¬ThrownOut chn [0x1E, 1, 0, 0, 0, 7, 0x2A] [] := by
  refine ⟨_, _, rfl, rfl, rfl, ?_⟩
  rintro ⟨hrefresh, -⟩
  obtain ⟨chn', hrun, hq⟩ :=
    hrefresh [oversizeStream [0x1E, 1, 0, 0, 0, 7, 0x2A] []] .wouldBlock (by simp)
  cases hrun
  exact List.cons_ne_nil _ _ hq

end Oversize

end Chlibs.Channel
