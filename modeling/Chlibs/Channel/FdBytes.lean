import Chlibs.Channel.Fd

/-!
# The receiver byte by byte

`chnFdByte` is the receiver as an automaton that takes one byte at a time. Processing a chunk
is running it over the bytes of the chunk (`chnFdProcessChunk_eq`), so what a stream leaves
behind does not depend on how it is cut into reads.

The invariant (`ReceiverInv`): once a message has got past its length, the length is within
the limit and the message has not outgrown it.
-/

namespace Chlibs.Channel

open Infra Util

/-! ## The automaton -/

/-- Append bytes to `msg_buf`. -/
def putMsg (chn : ChannelFd) (bs : Bytes) : ChannelFd :=
  { chn with
    msgBuf := overwrite chn.msgBuf chn.msgBufFill bs
    msgBufFill := chn.msgBufFill + bs.length }

/-- Looking for a start magic. -/
def chnFdSearchByte (chn : ChannelFd) (b : UInt8) : ChannelFd :=
  if b = chnFdStartMagic then putMsg chn [b] else chn

/-- One byte. A length over the limit is noticed only here, at the byte after it, and that
byte is looked at as a possible start. -/
def chnFdByte (chn : ChannelFd) (b : UInt8) : ChannelFd :=
  if chn.msgBufFill = 0 then chnFdSearchByte chn b
  else if chn.msgBufFill < 5 then putMsg chn [b]
  else if chn.cfg.maxMsgSize < msgLength chn then chnFdSearchByte (clearMsg chn) b
  else if chn.msgBufFill < 5 + msgLength chn then putMsg chn [b]
  else if b = chnFdEndMagic then deliverMsg (clearMsg (putMsg chn [b])) (msgLength chn)
  else clearMsg chn

/-- What the receiver keeps true between calls. -/
structure ReceiverInv (chn : ChannelFd) : Prop where
  bufLength : chn.msgBuf.length = chnFdMsgSize chn.cfg.maxMsgSize
  depth : chn.q.cap = chn.cfg.queueDepth
  fill : chn.msgBufFill ≤ 5 ∨
    msgLength chn ≤ chn.cfg.maxMsgSize ∧ chn.msgBufFill ≤ 5 + msgLength chn

/-! ## Stores -/

section Stores

variable {chn : ChannelFd}

theorem storeMsg_eq {bs : Bytes} (h : chn.msgBufFill + bs.length ≤ chn.msgBuf.length) :
    storeMsg chn bs = some (putMsg chn bs) := if_pos h

@[simp] theorem putMsg_nil (chn : ChannelFd) : putMsg chn [] = chn := by simp [putMsg]

@[simp] theorem putMsg_cfg (bs : Bytes) : (putMsg chn bs).cfg = chn.cfg := rfl

@[simp] theorem putMsg_q (bs : Bytes) : (putMsg chn bs).q = chn.q := rfl

@[simp] theorem putMsg_msgBufFill (bs : Bytes) :
    (putMsg chn bs).msgBufFill = chn.msgBufFill + bs.length := rfl

theorem putMsg_putMsg {a b : Bytes} (h : chn.msgBufFill + a.length ≤ chn.msgBuf.length) :
    putMsg (putMsg chn a) b = putMsg chn (a ++ b) := by
  simp only [putMsg, overwrite_overwrite h, List.length_append, Nat.add_assoc]

theorem putMsg_msgBuf_length {bs : Bytes} (h : chn.msgBufFill + bs.length ≤ chn.msgBuf.length) :
    (putMsg chn bs).msgBuf.length = chn.msgBuf.length := overwrite_length h

/-- Storing behind the length leaves the length alone. -/
theorem msgLength_putMsg {bs : Bytes} (hfill : 5 ≤ chn.msgBufFill)
    (h : chn.msgBufFill + bs.length ≤ chn.msgBuf.length) :
    msgLength (putMsg chn bs) = msgLength chn := by
  have htake := congrArg (fun l => ((l.take 5).drop 1).take 4) (take_overwrite h)
  simp only [List.take_take, Nat.min_eq_left hfill, List.drop_take] at htake
  simpa [msgLength, putMsg, List.take_take] using congrArg leNat htake

@[simp] theorem clearMsg_msgBufFill : (clearMsg chn).msgBufFill = 0 := rfl

@[simp] theorem clearMsg_cfg : (clearMsg chn).cfg = chn.cfg := rfl

@[simp] theorem clearMsg_q : (clearMsg chn).q = chn.q := rfl

@[simp] theorem deliverMsg_cfg (len : Nat) : (deliverMsg chn len).cfg = chn.cfg := by
  unfold deliverMsg
  repeat' split
  all_goals rfl

@[simp] theorem deliverMsg_msgBufFill (len : Nat) :
    (deliverMsg chn len).msgBufFill = chn.msgBufFill := by
  unfold deliverMsg
  repeat' split
  all_goals rfl

@[simp] theorem deliverMsg_msgBuf (len : Nat) : (deliverMsg chn len).msgBuf = chn.msgBuf := by
  unfold deliverMsg
  repeat' split
  all_goals rfl

end Stores

/-! ## Runs of the automaton -/

/-- Bytes that are stored one by one are stored together. -/
theorem foldl_chnFdByte_put {chn : ChannelFd} : ∀ (bs : Bytes),
    chn.msgBufFill + bs.length ≤ chn.msgBuf.length →
    (∀ as b, as.length < bs.length → chnFdByte (putMsg chn as) b = putMsg (putMsg chn as) [b]) →
    bs.foldl chnFdByte chn = putMsg chn bs := by
  intro bs
  induction bs using List.reverseRecOn with
  | nil => intro _ _; simp
  | append_singleton as b ih =>
    intro hroom hput
    simp only [List.length_append, List.length_singleton] at hroom hput
    rw [List.foldl_append, ih (by omega) fun as' b' h => hput as' b' (by omega)]
    rw [List.foldl_cons, List.foldl_nil, hput as b (by omega), putMsg_putMsg (by omega)]

/-- Up to the length. -/
theorem foldl_chnFdByte_length {chn : ChannelFd} (hinv : ReceiverInv chn)
    (hpos : chn.msgBufFill ≠ 0) {bs : Bytes} (h : chn.msgBufFill + bs.length ≤ 5) :
    bs.foldl chnFdByte chn = putMsg chn bs := by
  have hbuf := hinv.bufLength
  unfold chnFdMsgSize at hbuf
  refine foldl_chnFdByte_put bs (by omega) fun as b has => ?_
  rw [chnFdByte, if_neg (by simp; omega), if_pos (by simp; omega)]

/-- The payload. -/
theorem foldl_chnFdByte_payload {chn : ChannelFd} (hinv : ReceiverInv chn)
    (hfill : 5 ≤ chn.msgBufFill) (hmax : msgLength chn ≤ chn.cfg.maxMsgSize) {bs : Bytes}
    (h : chn.msgBufFill + bs.length ≤ 5 + msgLength chn) :
    bs.foldl chnFdByte chn = putMsg chn bs := by
  have hbuf := hinv.bufLength
  unfold chnFdMsgSize at hbuf
  refine foldl_chnFdByte_put bs (by omega) fun as b has => ?_
  have hlen : msgLength (putMsg chn as) = msgLength chn := msgLength_putMsg hfill (by omega)
  rw [chnFdByte, if_neg (by simp; omega), if_neg (by simp; omega), if_neg (by simp [hlen]; omega),
    if_pos (by simp [hlen]; omega)]

/-- Bytes before the first start magic are skipped. -/
theorem foldl_chnFdByte_junk {chn : ChannelFd} (hfill : chn.msgBufFill = 0) {junk : Bytes}
    (h : chnFdStartMagic ∉ junk) : junk.foldl chnFdByte chn = chn := by
  induction junk with
  | nil => rfl
  | cons b bs ih =>
    simp only [List.mem_cons, not_or] at h
    rw [List.foldl_cons, chnFdByte, if_pos hfill, chnFdSearchByte, if_neg (Ne.symm h.1), ih h.2]

/-! ## The invariant -/

theorem ReceiverInv.clearMsg {chn : ChannelFd} (h : ReceiverInv chn) : ReceiverInv (clearMsg chn) :=
  ⟨h.bufLength, h.depth, Or.inl (Nat.zero_le _)⟩

theorem ReceiverInv.putMsg {chn : ChannelFd} (h : ReceiverInv chn) {bs : Bytes}
    (hroom : chn.msgBufFill + bs.length ≤ chn.msgBuf.length)
    (hfill : chn.msgBufFill + bs.length ≤ 5 ∨
      5 ≤ chn.msgBufFill ∧ msgLength chn ≤ chn.cfg.maxMsgSize ∧
        chn.msgBufFill + bs.length ≤ 5 + msgLength chn) : ReceiverInv (putMsg chn bs) := by
  refine ⟨(putMsg_msgBuf_length hroom).trans h.bufLength, h.depth, ?_⟩
  rcases hfill with hle | ⟨h5, hmax, hle⟩
  · exact Or.inl hle
  · right
    rw [msgLength_putMsg h5 hroom]
    exact ⟨hmax, hle⟩

theorem deliverMsg_depth (chn : ChannelFd) (len : Nat) : (deliverMsg chn len).q.cap = chn.q.cap := by
  unfold deliverMsg
  repeat' split
  all_goals simp

/-- A cleared buffer may hold anything. -/
theorem ReceiverInv.delivered {chn : ChannelFd} (h : ReceiverInv chn) {bs : Bytes}
    (hroom : chn.msgBufFill + bs.length ≤ chn.msgBuf.length) (len : Nat) :
    ReceiverInv (deliverMsg (Channel.clearMsg (Channel.putMsg chn bs)) len) where
  bufLength := by
    rw [deliverMsg_msgBuf, deliverMsg_cfg]
    exact (putMsg_msgBuf_length hroom).trans h.bufLength
  depth := by
    rw [deliverMsg_depth, deliverMsg_cfg]
    exact h.depth
  fill := Or.inl (by simp)

/-! ## One call -/

/-- The call went from one position of the chunk to another as the automaton goes. -/
structure Advance (readChunk : Bytes) (chn : ChannelFd) (pos : Nat) (chn' : ChannelFd)
    (pos' : Nat) : Prop where
  inv : ReceiverInv chn'
  le : pos ≤ pos'
  run : (readChunk.drop pos').foldl chnFdByte chn' = (readChunk.drop pos).foldl chnFdByte chn

theorem Advance.trans {readChunk : Bytes} {chn chn' chn'' : ChannelFd} {pos pos' pos'' : Nat}
    (h : Advance readChunk chn pos chn' pos') (h' : Advance readChunk chn' pos' chn'' pos'') :
    Advance readChunk chn pos chn'' pos'' :=
  ⟨h'.inv, h.le.trans h'.le, h'.run.trans h.run⟩

/-- Running over bytes that the automaton takes. -/
theorem Advance.bytes {readChunk : Bytes} {chn chn' : ChannelFd} {pos : Nat} {bs : Bytes}
    (hinv : ReceiverInv chn') (hbs : bs <+: readChunk.drop pos)
    (hrun : bs.foldl chnFdByte chn = chn') :
    Advance readChunk chn pos chn' (pos + bs.length) := by
  obtain ⟨rest, hrest⟩ := hbs
  refine ⟨hinv, Nat.le_add_right _ _, ?_⟩
  rw [← List.drop_drop, ← hrest, List.drop_left, List.foldl_append, hrun]

/-- The bytes that `fillUpTo` copies. -/
theorem fillUpTo_eq {chn : ChannelFd} {goal : Nat} (hgoal : goal ≤ chn.msgBuf.length)
    (readChunk : Bytes) (pos : Nat) :
    ∃ bs, bs = (readChunk.drop pos).take (goal - chn.msgBufFill) ∧
      fillUpTo chn goal readChunk pos = some (putMsg chn bs, pos + bs.length) := by
  refine ⟨_, rfl, ?_⟩
  unfold fillUpTo
  split
  · next hlt =>
    have htake : (readChunk.drop pos).take
        (min (readChunk.length - pos) (goal - chn.msgBufFill))
          = (readChunk.drop pos).take (goal - chn.msgBufFill) := by
      rw [← List.length_drop, List.take_eq_take_min (i := goal - chn.msgBufFill), Nat.min_comm]
    simp only [htake, storeMsg_eq (show chn.msgBufFill + ((readChunk.drop pos).take
      (goal - chn.msgBufFill)).length ≤ chn.msgBuf.length by simp; omega)]
    simp [Nat.min_comm]
  · next hge =>
    simp [Nat.sub_eq_zero_of_le (Nat.le_of_not_lt hge)]

/-- Copying up to the end of the length. -/
theorem fillUpTo_length {chn : ChannelFd} (hinv : ReceiverInv chn) (hfill : chn.msgBufFill ≠ 0)
    (readChunk : Bytes) (pos : Nat) :
    ∃ chn' pos', fillUpTo chn 5 readChunk pos = some (chn', pos') ∧
      Advance readChunk chn pos chn' pos' ∧
      (pos' < readChunk.length → 5 ≤ chn'.msgBufFill) := by
  have hbuf := hinv.bufLength
  unfold chnFdMsgSize at hbuf
  have hgoal : 5 ≤ chn.msgBuf.length := by omega
  obtain ⟨bs, hbs, heq⟩ := fillUpTo_eq hgoal readChunk pos
  have hlen : bs.length = min (5 - chn.msgBufFill) (readChunk.length - pos) := by
    rw [hbs, List.length_take, List.length_drop]
  refine ⟨_, _, heq, ?_, fun hmore => by simp only [putMsg_msgBufFill]; omega⟩
  refine Advance.bytes ?_ (hbs ▸ List.take_prefix _ _) ?_
  · by_cases h5 : chn.msgBufFill ≤ 5
    · exact hinv.putMsg (by omega) (Or.inl (by omega))
    · have hnil : bs = [] := List.length_eq_zero_iff.mp (by omega)
      rw [hnil, putMsg_nil]
      exact hinv
  · by_cases h5 : chn.msgBufFill ≤ 5
    · exact foldl_chnFdByte_length hinv hfill (by omega)
    · have hnil : bs = [] := List.length_eq_zero_iff.mp (by omega)
      rw [hnil, putMsg_nil]
      rfl

/-- Copying up to the end of the payload. -/
theorem fillUpTo_payload {chn : ChannelFd} (hinv : ReceiverInv chn) (hfill : 5 ≤ chn.msgBufFill)
    (hmax : msgLength chn ≤ chn.cfg.maxMsgSize) (readChunk : Bytes) (pos : Nat) :
    ∃ chn' pos', fillUpTo chn (5 + msgLength chn) readChunk pos = some (chn', pos') ∧
      Advance readChunk chn pos chn' pos' ∧ msgLength chn' = msgLength chn ∧
      chn'.cfg = chn.cfg ∧
      (pos' < readChunk.length → chn'.msgBufFill = 5 + msgLength chn) := by
  have hbuf := hinv.bufLength
  unfold chnFdMsgSize at hbuf
  have hgoal : 5 + msgLength chn ≤ chn.msgBuf.length := by omega
  obtain ⟨bs, hbs, heq⟩ := fillUpTo_eq hgoal readChunk pos
  have hlen : bs.length = min (5 + msgLength chn - chn.msgBufFill) (readChunk.length - pos) := by
    rw [hbs, List.length_take, List.length_drop]
  have hle : chn.msgBufFill ≤ 5 + msgLength chn := by
    rcases hinv.fill with h | ⟨-, h⟩ <;> omega
  refine ⟨_, _, heq, ?_, msgLength_putMsg hfill (by omega), rfl, fun hmore => ?_⟩
  · refine Advance.bytes ?_ (hbs ▸ List.take_prefix _ _) ?_
    · exact hinv.putMsg (by omega) (Or.inr ⟨hfill, hmax, by omega⟩)
    · exact foldl_chnFdByte_payload hinv hfill hmax (by omega)
  · simp only [putMsg_msgBufFill]
    omega

/-- The byte after the payload. -/
theorem finishMsg_advance {chn : ChannelFd} (hinv : ReceiverInv chn)
    (hfill : chn.msgBufFill = 5 + msgLength chn) (hmax : msgLength chn ≤ chn.cfg.maxMsgSize)
    {readChunk : Bytes} {pos : Nat} (hpos : pos < readChunk.length) :
    ∃ chn', finishMsg chn (msgLength chn) readChunk pos = some (chn', pos + 1) ∧
      Advance readChunk chn pos chn' (pos + 1) := by
  have hbuf := hinv.bufLength
  unfold chnFdMsgSize at hbuf
  have hone : [readChunk[pos]] <+: readChunk.drop pos :=
    ⟨_, (List.drop_eq_getElem_cons hpos).symm⟩
  have hbyte : chnFdByte chn readChunk[pos] =
      if readChunk[pos] = chnFdEndMagic then
        deliverMsg (clearMsg (putMsg chn [readChunk[pos]])) (msgLength chn)
      else clearMsg chn := by
    rw [chnFdByte, if_neg (by omega), if_neg (by omega), if_neg (by omega), if_neg (by omega)]
  unfold finishMsg
  rw [if_pos (by omega), List.getElem?_eq_getElem hpos]
  by_cases hend : readChunk[pos] = chnFdEndMagic
  · rw [if_neg (by simpa using hend), storeMsg_eq (by simp; omega)]
    refine ⟨_, rfl, ?_⟩
    refine Advance.bytes (hinv.delivered (by simp; omega) _) hone ?_
    rw [List.foldl_cons, List.foldl_nil, hbyte, if_pos hend, hend]
  · rw [if_pos (by simpa using hend)]
    refine ⟨_, rfl, ?_⟩
    refine Advance.bytes hinv.clearMsg hone ?_
    rw [List.foldl_cons, List.foldl_nil, hbyte, if_neg hend]

/-- Throwing out a message that is too long. -/
theorem clearMsg_advance {chn : ChannelFd} (hinv : ReceiverInv chn) (hfill : 5 ≤ chn.msgBufFill)
    (hmax : chn.cfg.maxMsgSize < msgLength chn) {readChunk : Bytes} {pos : Nat}
    (hpos : pos < readChunk.length) :
    Advance readChunk chn pos (clearMsg chn) pos := by
  refine ⟨hinv.clearMsg, Nat.le_refl pos, ?_⟩
  have hbyte : ∀ b, chnFdByte (clearMsg chn) b = chnFdByte chn b := by
    intro b
    rw [chnFdByte, if_pos clearMsg_msgBufFill, chnFdByte, if_neg (by omega), if_neg (by omega),
      if_pos hmax]
  rw [List.drop_eq_getElem_cons hpos, List.foldl_cons, List.foldl_cons, hbyte]

theorem processStarted_advance {chn : ChannelFd} (hinv : ReceiverInv chn)
    (hfill : chn.msgBufFill ≠ 0) {readChunk : Bytes} {pos : Nat} (hpos : pos < readChunk.length) :
    ∃ chn' pos', processStarted chn readChunk pos = some (chn', pos') ∧
      Advance readChunk chn pos chn' pos' ∧ (pos < pos' ∨ chn'.msgBufFill = 0) := by
  obtain ⟨chn₁, pos₁, h₁, ha₁, hfill₁⟩ := fillUpTo_length hinv hfill readChunk pos
  unfold processStarted
  simp only [h₁, Option.bind_eq_bind, Option.bind_some]
  by_cases hend₁ : readChunk.length ≤ pos₁
  · rw [if_pos hend₁]
    exact ⟨chn₁, pos₁, rfl, ha₁, Or.inl (by omega)⟩
  · rw [if_neg hend₁]
    have h5 := hfill₁ (by omega)
    by_cases hmax : chn₁.cfg.maxMsgSize < msgLength chn₁
    · rw [if_pos hmax]
      exact ⟨_, _, rfl, ha₁.trans (clearMsg_advance ha₁.inv h5 hmax (by omega)), Or.inr rfl⟩
    · rw [if_neg hmax]
      obtain ⟨chn₂, pos₂, h₂, ha₂, hlen, hcfg, hfill₂⟩ :=
        fillUpTo_payload ha₁.inv h5 (by omega) readChunk pos₁
      simp only [h₂, Option.bind_some]
      by_cases hend₂ : readChunk.length ≤ pos₂
      · rw [if_pos hend₂]
        exact ⟨chn₂, pos₂, rfl, ha₁.trans ha₂, Or.inl (by omega)⟩
      · rw [if_neg hend₂, ← hlen]
        have hpos₂ : pos₂ < readChunk.length := by omega
        obtain ⟨chn₃, h₃, ha₃⟩ := finishMsg_advance ha₂.inv (by rw [hlen]; exact hfill₂ hpos₂)
          (by rw [hlen, hcfg]; omega) hpos₂
        have hle₁ := ha₁.le
        have hle₂ := ha₂.le
        exact ⟨chn₃, pos₂ + 1, h₃, (ha₁.trans ha₂).trans ha₃, Or.inl (by omega)⟩

/-- Where the search for a start magic stops. -/
theorem startOffset_spec : ∀ (bs : Bytes), match startOffset bs with
    | none => chnFdStartMagic ∉ bs
    | some n => ∃ junk rest, junk.length = n ∧ chnFdStartMagic ∉ junk ∧
        bs = junk ++ chnFdStartMagic :: rest
  | [] => by simp [startOffset]
  | b :: bs => by
    by_cases hb : b = chnFdStartMagic
    · simp only [startOffset, if_pos hb]
      exact ⟨[], bs, rfl, by simp, by rw [hb]; rfl⟩
    · have ih := startOffset_spec bs
      simp only [startOffset, if_neg hb]
      cases hs : startOffset bs with
      | none =>
        rw [hs] at ih
        simp only [Option.map_none, List.mem_cons, not_or]
        exact ⟨Ne.symm hb, ih⟩
      | some n =>
        rw [hs] at ih
        obtain ⟨junk, rest, rfl, hjunk, rfl⟩ := ih
        refine ⟨b :: junk, rest, rfl, ?_, rfl⟩
        simp only [List.mem_cons, not_or]
        exact ⟨Ne.symm hb, hjunk⟩

/-- The search: junk is skipped and the start magic is stored. -/
theorem search_advance {chn : ChannelFd} (hinv : ReceiverInv chn) (hfill : chn.msgBufFill = 0)
    {readChunk : Bytes} {pos n : Nat} (hn : startOffset (readChunk.drop pos) = some n) :
    Advance readChunk chn pos (putMsg chn [chnFdStartMagic]) (pos + n + 1) := by
  have hspec := startOffset_spec (readChunk.drop pos)
  rw [hn] at hspec
  obtain ⟨junk, rest, rfl, hjunk, hdrop⟩ := hspec
  have hbuf := hinv.bufLength
  unfold chnFdMsgSize at hbuf
  have hprefix : junk ++ [chnFdStartMagic] <+: readChunk.drop pos := ⟨rest, by rw [hdrop]; simp⟩
  have hrun : (junk ++ [chnFdStartMagic]).foldl chnFdByte chn = putMsg chn [chnFdStartMagic] := by
    rw [List.foldl_append, foldl_chnFdByte_junk hfill hjunk, List.foldl_cons, List.foldl_nil,
      chnFdByte, if_pos hfill, chnFdSearchByte, if_pos rfl]
  have hput : ReceiverInv (putMsg chn [chnFdStartMagic]) :=
    hinv.putMsg (by simp; omega) (Or.inl (by simp; omega))
  simpa [Nat.add_assoc] using Advance.bytes hput hprefix hrun

/-- **One call goes as the automaton goes**, and two calls consume a byte. -/
theorem chnFdProcessSingleMsg_advance {chn : ChannelFd} (hinv : ReceiverInv chn)
    {readChunk : Bytes} {pos : Nat} (hpos : pos < readChunk.length) :
    ∃ chn' pos', chnFdProcessSingleMsg chn readChunk pos = some (chn', pos') ∧
      Advance readChunk chn pos chn' pos' ∧
      (pos < pos' ∨ chn.msgBufFill ≠ 0 ∧ chn'.msgBufFill = 0) := by
  unfold chnFdProcessSingleMsg
  rw [if_neg (by omega)]
  by_cases hfill : chn.msgBufFill = 0
  · rw [if_pos hfill]
    -- The buffer is empty: the bytes in front of the next start magic are skipped.
    cases hn : startOffset (readChunk.drop pos) with
    | none =>
      have hspec := startOffset_spec (readChunk.drop pos)
      rw [hn] at hspec
      refine ⟨chn, _, rfl, ⟨hinv, hpos.le, ?_⟩, Or.inl hpos⟩
      rw [List.drop_length, List.foldl_nil, foldl_chnFdByte_junk hfill hspec]
    | some n =>
      have hbuf := hinv.bufLength
      unfold chnFdMsgSize at hbuf
      have ha := search_advance hinv hfill hn
      have hle := ha.le
      simp only [storeMsg_eq (show chn.msgBufFill + [chnFdStartMagic].length ≤ chn.msgBuf.length by
        simp; omega), Option.bind_eq_bind, Option.bind_some]
      by_cases hend : readChunk.length ≤ pos + n + 1
      · rw [if_pos hend]
        exact ⟨_, _, rfl, ha, Or.inl (by omega)⟩
      · rw [if_neg hend]
        have hpos : pos + n + 1 < readChunk.length := by omega
        obtain ⟨chn', pos', h, ha', hprog⟩ := processStarted_advance ha.inv (by simp) hpos
        have hle' := ha'.le
        exact ⟨chn', pos', h, ha.trans ha', Or.inl (by omega)⟩
  · rw [if_neg hfill]
    -- A message was begun in an earlier chunk and goes on at once.
    obtain ⟨chn', pos', h, ha, hprog⟩ := processStarted_advance hinv hfill hpos
    refine ⟨chn', pos', h, ha, ?_⟩
    rcases hprog with hlt | h0
    · exact Or.inl hlt
    · exact Or.inr ⟨hfill, h0⟩

/-! ## Chunks -/

/-- The loop ends within its bound, and has run the automaton over the rest of the chunk. -/
theorem processChunkLoop_eq (readChunk : Bytes) : ∀ (fuel : Nat) (chn : ChannelFd) (pos : Nat),
    ReceiverInv chn →
    2 * (readChunk.length - pos) + (if chn.msgBufFill = 0 then 0 else 1) < fuel →
    processChunkLoop readChunk fuel chn pos = some ((readChunk.drop pos).foldl chnFdByte chn) ∧
      ReceiverInv ((readChunk.drop pos).foldl chnFdByte chn)
  | 0, _, _, _, h => absurd h (Nat.not_lt_zero _)
  | fuel + 1, chn, pos, hinv, h => by
    rw [processChunkLoop]
    by_cases hpos : pos < readChunk.length
    · obtain ⟨chn', pos', hcall, ha, hprog⟩ := chnFdProcessSingleMsg_advance hinv hpos
      have hle := ha.le
      have hfuel : 2 * (readChunk.length - pos') + (if chn'.msgBufFill = 0 then 0 else 1) < fuel := by
        rcases hprog with hlt | ⟨hne, h0⟩
        · split <;> omega
        · rw [if_pos h0]
          rw [if_neg hne] at h
          omega
      have ih := processChunkLoop_eq readChunk fuel chn' pos' ha.inv hfuel
      simp only [if_pos hpos, hcall, Option.bind_eq_bind, Option.bind_some]
      rwa [ha.run] at ih
    · rw [if_neg hpos, List.drop_eq_nil_of_le (by omega), List.foldl_nil]
      exact ⟨rfl, hinv⟩

/-- **Processing a chunk is running the automaton over its bytes.** -/
theorem chnFdProcessChunk_eq {chn : ChannelFd} (hinv : ReceiverInv chn) (readChunk : Bytes) :
    chnFdProcessChunk chn readChunk = some (readChunk.foldl chnFdByte chn) ∧
      ReceiverInv (readChunk.foldl chnFdByte chn) := by
  have h := processChunkLoop_eq readChunk (2 * readChunk.length + 2) chn 0 hinv (by
    split <;> omega)
  simpa [chnFdProcessChunk] using h

/-- **Processing chunks is running the automaton over the stream they were cut from.** -/
theorem chnFdProcessChunks_eq : ∀ (chunks : List Bytes) {chn : ChannelFd}, ReceiverInv chn →
    chnFdProcessChunks chn chunks = some (chunks.flatten.foldl chnFdByte chn) ∧
      ReceiverInv (chunks.flatten.foldl chnFdByte chn)
  | [], _, hinv => ⟨rfl, hinv⟩
  | chunk :: chunks, chn, hinv => by
    obtain ⟨hchunk, hinv'⟩ := chnFdProcessChunk_eq hinv chunk
    have ih := chnFdProcessChunks_eq chunks hinv'
    rw [chnFdProcessChunks, hchunk, List.flatten_cons, List.foldl_append]
    simpa using ih

/-! ## Reachable channels -/

theorem newChannelFd_inv {cfg : ChannelFdConfig} {msgBuf : Bytes} {chn : ChannelFd}
    (hbuf : msgBuf.length = chnFdMsgSize cfg.maxMsgSize) (h : newChannelFd cfg msgBuf = .ok chn) :
    ReceiverInv chn := by
  unfold newChannelFd at h
  split at h
  · simp at h
  · split at h
    · next q hq =>
      cases h
      exact ⟨hbuf, (newQueue_eq_some hq).1, Or.inl (Nat.zero_le _)⟩
    · simp at h

/-- Only the buffer, its fill, the queue and the configuration matter. -/
theorem ReceiverInv.congr {chn chn' : ChannelFd} (h : ReceiverInv chn) (hcfg : chn'.cfg = chn.cfg)
    (hfill : chn'.msgBufFill = chn.msgBufFill) (hbuf : chn'.msgBuf = chn.msgBuf)
    (hcap : chn'.q.cap = chn.q.cap) : ReceiverInv chn' where
  bufLength := by rw [hbuf, hcfg]; exact h.bufLength
  depth := by rw [hcap, hcfg]; exact h.depth
  fill := by
    rw [msgLength, hbuf, hfill, hcfg]
    exact h.fill

theorem ChannelFd.Step.inv {chn chn' : ChannelFd} (h : ChannelFd.Step chn chn')
    (hinv : ReceiverInv chn) : ReceiverInv chn' := by
  cases h with
  | send h =>
    unfold chnFdSend at h
    repeat' split at h
    all_goals cases h
    all_goals exact hinv.congr rfl rfl rfl rfl
  | @refresh reads readEnd st hreads h =>
    obtain ⟨hrun, hinv'⟩ := chnFdProcessChunks_eq reads hinv
    unfold chnFdRefresh at h
    split at h
    · cases h
      exact hinv
    · rw [hrun] at h
      cases readEnd <;> cases h
      · exact hinv'
      · exact hinv'.congr rfl rfl rfl rfl
  | receive h =>
    unfold chnFdReceive at h
    repeat' split at h
    all_goals cases h
    · exact hinv
    · exact hinv
    · exact hinv.congr rfl rfl rfl (qPoll_cap _)

/-- **The invariant holds of every channel from its construction on.** -/
theorem channelFdSystem_inv {chn : ChannelFd} (h : channelFdSystem.Reachable chn) :
    ReceiverInv chn := by
  have hind : channelFdSystem.Inductive ReceiverInv := by
    refine ⟨?_, fun _ _ hinv hstep => ChannelFd.Step.inv hstep hinv⟩
    rintro chn ⟨cfg, msgBuf, hbuf, hnew⟩
    exact newChannelFd_inv hbuf hnew
  exact hind.reachable h

end Chlibs.Channel
