import Chlibs.Channel.FdBytes

/-!
# Framing over a byte stream

* `chnFdProcessChunks_cut` — what the receiver makes of a stream does not depend on how
  the stream is cut into reads.
* `chnFdRefresh_framed` — a receiver that starts empty recovers the payloads of the frames in
  a stream, with junk and empty frames between them, as far as its queue has room.
-/

namespace Chlibs.Channel

open Infra Util

/-! ## Cutting a stream -/

/-- **The cuts of a stream do not matter.** -/
theorem chnFdProcessChunks_cut {chn : ChannelFd} (hchn : channelFdSystem.Reachable chn)
    {s : Bytes} {cut cut' : List Bytes} (hcut : cut.flatten = s) (hcut' : cut'.flatten = s) :
    ∃ r r', chnFdProcessChunks chn cut = some r ∧ chnFdProcessChunks chn cut' = some r' ∧
      r.msgBufFill = r'.msgBufFill ∧
      r.msgBuf.take r.msgBufFill = r'.msgBuf.take r'.msgBufFill ∧ r.q = r'.q := by
  have hinv := channelFdSystem_inv hchn
  refine ⟨_, _, (chnFdProcessChunks_eq cut hinv).1, (chnFdProcessChunks_eq cut' hinv).1, ?_⟩
  rw [hcut, hcut']
  exact ⟨rfl, rfl, rfl⟩

/-- A frame with one payload byte, cut inside its length or behind it. -/
theorem chnFdProcessChunks_cut_frame :
    ∃ chn r r', newChannelFd ⟨1, true, 2, 5⟩ (List.replicate 8 0) = .ok chn ∧
      chnFdProcessChunks chn [[0x1E, 1, 0], [0, 0, 7, 0x2A]] = some r ∧
      chnFdProcessChunks chn [[0x1E, 1, 0, 0, 0], [7, 0x2A]] = some r' ∧
      r.msgBufFill = r'.msgBufFill ∧
      r.msgBuf.take r.msgBufFill = r'.msgBuf.take r'.msgBufFill ∧ r.q = r'.q := by
  have hnew : ∃ chn, newChannelFd ⟨1, true, 2, 5⟩ (List.replicate 8 0) = .ok chn := ⟨_, rfl⟩
  obtain ⟨chn, hchn⟩ := hnew
  have hcut : [[0x1E, 1, 0], [0, 0, 7, 0x2A]].flatten = ([0x1E, 1, 0, 0, 0, 7, 0x2A] : Bytes) := rfl
  have hcut' : [[0x1E, 1, 0, 0, 0], [7, 0x2A]].flatten = ([0x1E, 1, 0, 0, 0, 7, 0x2A] : Bytes) :=
    rfl
  obtain ⟨r, r', h⟩ := chnFdProcessChunks_cut (.init ⟨_, _, by decide, hchn⟩) hcut hcut'
  exact ⟨chn, r, r', hchn, h⟩

/-! ## Bounded queues -/

/-- Adding to a queue of at most `depth`: on a full queue the oldest element goes, or the
new one is dropped. -/
def pushBounded {α : Type} (depth : Nat) (writeOver : Bool) (l : List α) (a : α) : List α :=
  if l.length < depth then l ++ [a]
  else if writeOver then l.tail ++ [a]
  else l

/-- What is left of a sequence pushed into an empty queue: its first elements, or its last. -/
theorem foldl_pushBounded {α : Type} {depth : Nat} (hdepth : 1 ≤ depth) (writeOver : Bool)
    (l : List α) :
    l.foldl (pushBounded depth writeOver) [] =
      if writeOver then l.drop (l.length - depth) else l.take depth := by
  induction l using List.reverseRecOn with
  | nil => cases writeOver <;> simp
  | append_singleton l a ih =>
    rw [List.foldl_append, ih, List.foldl_cons, List.foldl_nil, pushBounded]
    cases writeOver with
    | false =>
      simp only [Bool.false_eq_true, if_false, List.length_take]
      by_cases hlt : l.length < depth
      · rw [if_pos (by omega), List.take_of_length_le (by omega),
          List.take_of_length_le (by simp; omega)]
      · rw [if_neg (by omega), List.take_append_of_le_length (by omega)]
    | true =>
      simp only [if_true, List.length_drop, List.length_append, List.length_singleton]
      by_cases hlt : l.length < depth
      · rw [if_pos (by omega), Nat.sub_eq_zero_of_le (by omega), Nat.sub_eq_zero_of_le (by omega)]
        rfl
      · rw [if_neg (by omega), List.tail_drop, List.drop_append_of_le_length (by omega),
          show l.length + 1 - depth = l.length - depth + 1 by omega]

/-- A sequence that fits is kept whole. -/
theorem foldl_pushBounded_of_le {α : Type} {depth : Nat} (hdepth : 1 ≤ depth) (writeOver : Bool)
    {l : List α} (h : l.length ≤ depth) : l.foldl (pushBounded depth writeOver) [] = l := by
  rw [foldl_pushBounded hdepth, Nat.sub_eq_zero_of_le h, List.take_of_length_le h]
  cases writeOver <;> rfl

/-- **Delivery is a push into the bounded queue.** -/
theorem deliverMsg_toList {chn : ChannelFd} {len : Nat} (hlen : len ≠ 0) :
    (deliverMsg chn len).q.toList =
      pushBounded chn.q.cap chn.cfg.writeOver chn.q.toList ((chn.msgBuf.drop 5).take len) := by
  have hle : chn.q.toList.length ≤ chn.q.cap := by
    rw [Queue.toList_length]
    exact chn.q.len_le
  have hfull : qLen chn.q = qCap chn.q ↔ ¬chn.q.toList.length < chn.q.cap := by
    rw [Queue.toList_length] at hle ⊢
    simp only [qLen, qCap]
    omega
  unfold deliverMsg pushBounded
  rw [if_neg hlen]
  by_cases hroom : chn.q.toList.length < chn.q.cap
  · rw [if_neg (fun h => hfull.mp h hroom), if_pos hroom]
    exact (qPush_of_lt _ hroom).2
  · rw [if_pos (hfull.mpr hroom), if_neg hroom]
    cases chn.cfg.writeOver with
    | false => rfl
    | true =>
      have hpos := chn.q.i_lt
      cases hq : chn.q.toList with
      | nil =>
        rw [hq] at hroom
        exact absurd (Nat.lt_of_le_of_lt (Nat.zero_le _) hpos) hroom
      | cons a as =>
        have hpoll := (qPoll_of_cons hq).2.2
        have hlen' : as.length + 1 ≤ chn.q.cap := by simpa [hq] using hle
        have hpush := qPush_of_lt (q := (qPoll chn.q).2.2) ((chn.msgBuf.drop 5).take len)
          (by rw [hpoll, qPoll_cap]; omega)
        simp only [Bool.not_true, Bool.false_eq_true, if_false, if_true, List.tail_cons,
          hpush.2, hpoll]

/-! ## Frames -/

/-- What a stream is made of. -/
inductive Segment where
  /-- bytes between frames -/
  | junk (bs : Bytes)
  /-- a frame of length 0 -/
  | empty
  | message (payload : Bytes)

namespace Segment

/-- The bytes of a segment; frames are as `chn_fd_send` writes them. -/
def bytes : Segment → Bytes
  | junk bs => bs
  | empty => chnFdWriteBuf []
  | message payload => chnFdWriteBuf payload

/-- Junk holds no start magic, and a message is one that `chn_fd_send` accepts. -/
def Valid (maxMsgSize : Nat) : Segment → Prop
  | junk bs => chnFdStartMagic ∉ bs
  | empty => True
  | message payload => 1 ≤ payload.length ∧ payload.length ≤ maxMsgSize

def payload? : Segment → Option Bytes
  | message payload => some payload
  | _ => none

end Segment

/-- The payloads in a stream, in order. -/
def payloads (segments : List Segment) : List Bytes := segments.filterMap Segment.payload?

/-- Between frames. -/
structure Idle (chn : ChannelFd) : Prop extends ReceiverInv chn where
  idle : chn.msgBufFill = 0

/-- The length that a header at the front of `msg_buf` holds. -/
theorem msgLength_header {chn : ChannelFd} (hidle : chn.msgBufFill = 0) {n : Nat} (hn : n < 2 ^ 32)
    (bs : Bytes) : msgLength (putMsg chn (chnFdStartMagic :: (le32 n ++ bs))) = n := by
  simp only [msgLength, putMsg, hidle, overwrite_zero, List.cons_append, List.append_assoc,
    List.drop_one, List.tail_cons]
  rw [List.take_left' (le32_length n), leNat_le32 hn]

/-- The header of a frame is stored. -/
theorem foldl_header {chn : ChannelFd} (h : Idle chn) {n : Nat} (hn : n < 2 ^ 32) :
    (chnFdStartMagic :: le32 n).foldl chnFdByte chn = putMsg chn (chnFdStartMagic :: le32 n) ∧
      ReceiverInv (putMsg chn (chnFdStartMagic :: le32 n)) ∧
      msgLength (putMsg chn (chnFdStartMagic :: le32 n)) = n := by
  have hbuf := h.bufLength
  have hidle := h.idle
  unfold chnFdMsgSize at hbuf
  have hstart : chnFdByte chn chnFdStartMagic = putMsg chn [chnFdStartMagic] := by
    rw [chnFdByte, if_pos hidle, chnFdSearchByte, if_pos rfl]
  have hinv₁ : ReceiverInv (putMsg chn [chnFdStartMagic]) :=
    h.putMsg (by simp; omega) (Or.inl (by simp; omega))
  refine ⟨?_, h.putMsg (by simp; omega) (Or.inl (by simp; omega)), ?_⟩
  · rw [List.foldl_cons, hstart, foldl_chnFdByte_length hinv₁ (by simp) (by simp; omega),
      putMsg_putMsg (by simp; omega)]
    rfl
  · simpa using msgLength_header hidle hn []

/-- The payload is stored behind its header. -/
theorem foldl_payload {chn : ChannelFd} (h : Idle chn) {n : Nat} (hn : n < 2 ^ 32)
    (hmax : n ≤ chn.cfg.maxMsgSize) {bs : Bytes} (hbs : bs.length ≤ n) :
    (chnFdStartMagic :: (le32 n ++ bs)).foldl chnFdByte chn =
      putMsg chn (chnFdStartMagic :: (le32 n ++ bs)) := by
  have hbuf := h.bufLength
  have hidle := h.idle
  unfold chnFdMsgSize at hbuf
  obtain ⟨hheader, hinv, hlen⟩ := foldl_header h hn
  rw [← List.cons_append, List.foldl_append, hheader,
    foldl_chnFdByte_payload hinv (by simp) (by rw [hlen]; exact hmax)
      (by rw [hlen]; simp; omega), putMsg_putMsg (by simp; omega)]

/-- The byte behind the payload. -/
theorem chnFdByte_end {chn : ChannelFd} (h : Idle chn) {payload : Bytes}
    (hmax : payload.length ≤ chn.cfg.maxMsgSize) (hlen : payload.length < 2 ^ 32) (b : UInt8) :
    (chnFdStartMagic :: (le32 payload.length ++ (payload ++ [b]))).foldl chnFdByte chn =
      if b = chnFdEndMagic then
        deliverMsg (clearMsg (putMsg chn (chnFdWriteBuf payload))) payload.length
      else clearMsg (putMsg chn (chnFdStartMagic :: (le32 payload.length ++ payload))) := by
  have hbuf := h.bufLength
  have hidle := h.idle
  unfold chnFdMsgSize at hbuf
  have hlength := msgLength_header hidle hlen payload
  rw [← List.append_assoc, ← List.cons_append, List.foldl_append,
    foldl_payload h hlen hmax (Nat.le_refl _), List.foldl_cons, List.foldl_nil, chnFdByte,
    if_neg (by simp), if_neg (by simp; omega), hlength, if_neg (by simp; omega),
    if_neg (by simp; omega)]
  split
  · next hb =>
    rw [putMsg_putMsg (by simp; omega), hb]
    rfl
  · rfl

/-- The bytes of a frame up to its end magic are stored, and then the message is delivered. -/
theorem foldl_frame {chn : ChannelFd} (h : Idle chn) {payload : Bytes}
    (hmax : payload.length ≤ chn.cfg.maxMsgSize) (hlen : payload.length < 2 ^ 32) :
    (chnFdWriteBuf payload).foldl chnFdByte chn =
      deliverMsg (clearMsg (putMsg chn (chnFdWriteBuf payload))) payload.length := by
  have hend := chnFdByte_end h hmax hlen chnFdEndMagic
  rw [if_pos rfl] at hend
  rw [← hend, chnFdWriteBuf, List.append_assoc]

/-- A frame leaves the receiver between frames, with its payload queued. -/
theorem frame_idle {chn : ChannelFd} (h : Idle chn) {payload : Bytes}
    (hmax : payload.length ≤ chn.cfg.maxMsgSize) (hlen : payload.length < 2 ^ 32) :
    Idle ((chnFdWriteBuf payload).foldl chnFdByte chn) ∧
      ((chnFdWriteBuf payload).foldl chnFdByte chn).cfg = chn.cfg ∧
      ((chnFdWriteBuf payload).foldl chnFdByte chn).q.toList =
        if payload = [] then chn.q.toList
        else pushBounded chn.q.cap chn.cfg.writeOver chn.q.toList payload := by
  have hbuf := h.bufLength
  have hidle := h.idle
  unfold chnFdMsgSize at hbuf
  rw [foldl_frame h hmax hlen]
  refine ⟨⟨h.delivered (by simp [chnFdWriteBuf]; omega) _, by simp⟩, by simp, ?_⟩
  by_cases hp : payload = []
  · rw [if_pos hp, hp]
    rfl
  · have hmsg : ((clearMsg (putMsg chn (chnFdWriteBuf payload))).msgBuf.drop 5).take
        payload.length = payload := by
      simp only [clearMsg, putMsg, hidle, overwrite_zero, chnFdWriteBuf, List.cons_append,
        List.append_assoc, List.drop_succ_cons]
      rw [List.drop_left' (le32_length _), List.take_left]
    rw [if_neg hp, deliverMsg_toList (by simpa using hp), hmsg]
    rfl

/-- Every segment leaves the receiver between frames; only messages change the queue. -/
theorem segment_idle {chn : ChannelFd} (h : Idle chn) (hlimit : chn.cfg.maxMsgSize < 2 ^ 32)
    {seg : Segment} (hseg : seg.Valid chn.cfg.maxMsgSize) :
    Idle (seg.bytes.foldl chnFdByte chn) ∧ (seg.bytes.foldl chnFdByte chn).cfg = chn.cfg ∧
      (seg.bytes.foldl chnFdByte chn).q.toList =
        seg.payload?.toList.foldl (pushBounded chn.q.cap chn.cfg.writeOver) chn.q.toList := by
  cases seg with
  | junk bs =>
    rw [Segment.bytes, foldl_chnFdByte_junk h.idle hseg]
    exact ⟨h, rfl, rfl⟩
  | empty =>
    have hnil : ([] : Bytes).length ≤ chn.cfg.maxMsgSize := Nat.zero_le _
    have hframe := frame_idle h hnil (by simp)
    rwa [if_pos rfl] at hframe
  | message payload =>
    have hne : payload ≠ [] := List.ne_nil_of_length_pos hseg.1
    have hframe := frame_idle h hseg.2 (Nat.lt_of_le_of_lt hseg.2 hlimit)
    rwa [if_neg hne] at hframe

/-- A stream pushes its payloads one after the other. -/
theorem segments_idle : ∀ (segments : List Segment) {chn : ChannelFd}, Idle chn →
    chn.cfg.maxMsgSize < 2 ^ 32 → (∀ seg ∈ segments, seg.Valid chn.cfg.maxMsgSize) →
    Idle ((segments.flatMap Segment.bytes).foldl chnFdByte chn) ∧
      ((segments.flatMap Segment.bytes).foldl chnFdByte chn).q.toList =
        (payloads segments).foldl (pushBounded chn.q.cap chn.cfg.writeOver) chn.q.toList
  | [], _, h, _, _ => ⟨h, rfl⟩
  | seg :: segments, chn, h, hlimit, hvalid => by
    obtain ⟨hidle, hcfg, hq⟩ := segment_idle h hlimit (hvalid seg List.mem_cons_self)
    have hcap : (seg.bytes.foldl chnFdByte chn).q.cap = chn.q.cap := by
      rw [hidle.depth, h.depth, hcfg]
    obtain ⟨hidle', hq'⟩ := segments_idle segments hidle (by rwa [hcfg])
      (by rw [hcfg]; exact fun x hx => hvalid x (List.mem_cons_of_mem _ hx))
    rw [List.flatMap_cons, List.foldl_append]
    refine ⟨hidle', ?_⟩
    rw [hq', hq, hcfg, hcap, ← List.foldl_append]
    congr 1
    cases seg <;> rfl

/-- **The framing round trip.** -/
theorem chnFdRefresh_framed {chn : ChannelFd} (hchn : channelFdSystem.Reachable chn)
    (hopen : chn.readOpen = true) (hfill : chn.msgBufFill = 0) (hq : chn.q.toList = [])
    (hlimit : chn.cfg.maxMsgSize < 2 ^ 32) {segments : List Segment}
    (hvalid : ∀ seg ∈ segments, seg.Valid chn.cfg.maxMsgSize) {reads : List Bytes}
    (hreads : reads.flatten = segments.flatMap Segment.bytes) (readEnd : ReadEnd) :
    ∃ chn', chnFdRefresh chn reads readEnd = some (.success, chn') ∧ chn'.msgBufFill = 0 ∧
      chn'.q.toList =
        if (payloads segments).length ≤ chn.cfg.queueDepth then payloads segments
        else if chn.cfg.writeOver then
          (payloads segments).drop ((payloads segments).length - chn.cfg.queueDepth)
        else (payloads segments).take chn.cfg.queueDepth := by
  have hinv := channelFdSystem_inv hchn
  have hrun := (chnFdProcessChunks_eq reads hinv).1
  obtain ⟨hidle, hq'⟩ := segments_idle segments ⟨hinv, hfill⟩ hlimit hvalid
  rw [hreads] at hrun
  have hdepth : 1 ≤ chn.cfg.queueDepth := by
    have := chn.q.i_lt
    have := hinv.depth
    omega
  have hlist : ((segments.flatMap Segment.bytes).foldl chnFdByte chn).q.toList =
      if (payloads segments).length ≤ chn.cfg.queueDepth then payloads segments
      else if chn.cfg.writeOver then
        (payloads segments).drop ((payloads segments).length - chn.cfg.queueDepth)
      else (payloads segments).take chn.cfg.queueDepth := by
    rw [hq', hq, hinv.depth]
    split
    · next hle => exact foldl_pushBounded_of_le hdepth _ hle
    · exact foldl_pushBounded hdepth _ _
  rw [chnFdRefresh, if_neg (by simp [hopen]), hrun]
  cases readEnd with
  | wouldBlock => exact ⟨_, rfl, hidle.idle, hlist⟩
  | closed => exact ⟨_, rfl, hidle.idle, hlist⟩

/-- Two messages, with junk and an empty frame, into a queue of depth 1 that writes over. -/
theorem chnFdRefresh_framed_writeOver :
    ∃ chn chn', newChannelFd ⟨1, true, 2, 64⟩ (List.replicate 8 0) = .ok chn ∧
      chnFdRefresh chn
        [[0, 0x1E, 1, 0, 0, 0, 7, 0x2A, 5, 0x1E], [0, 0, 0, 0, 0x2A, 0x1E, 2, 0, 0, 0, 0x1E, 0x2A],
          [0x2A]] .wouldBlock = some (.success, chn') ∧
      chn'.msgBufFill = 0 ∧ chn'.q.toList = [[0x1E, 0x2A]] := by
  have hnew : ∃ chn, newChannelFd ⟨1, true, 2, 64⟩ (List.replicate 8 0) = .ok chn ∧
      chn.readOpen = true ∧ chn.msgBufFill = 0 ∧ chn.q.toList = [] ∧
      chn.cfg = ⟨1, true, 2, 64⟩ := ⟨_, rfl, rfl, rfl, rfl, rfl⟩
  obtain ⟨chn, hchn, hopen, hfill, hq, hcfg⟩ := hnew
  have hreads : List.flatten [[0, 0x1E, 1, 0, 0, 0, 7, 0x2A, 5, 0x1E],
      [0, 0, 0, 0, 0x2A, 0x1E, 2, 0, 0, 0, 0x1E, 0x2A], [0x2A]]
      = [Segment.junk [0], .message [7], .junk [5], .empty, .message [0x1E, 0x2A]].flatMap
        Segment.bytes := rfl
  obtain ⟨chn', hrun, hfill', hlist⟩ := chnFdRefresh_framed (.init ⟨_, _, by decide, hchn⟩)
    hopen hfill hq (by rw [hcfg]; decide) (by rw [hcfg]; simp [Segment.Valid, chnFdStartMagic])
    hreads .wouldBlock
  refine ⟨chn, chn', hchn, hrun, hfill', ?_⟩
  rw [hlist, hcfg]
  rfl

end Chlibs.Channel
