import Chlibs.Channel.FdBytes

/-!
# The accesses of the receiver

`_chn_fd_process_single_msg` once more, as it goes from one access of memory to the next: a read
or a write outside an array and a difference below zero are undefined. `Receiver` has the two loops
of `chn_fd_refresh` in its state, so that what holds at every return of a call can be stated.

* `processSingleMsgChecked_eq` — where the invariant holds, all accesses are defined.
* `chnFdRefresh_steps` — a refresh is steps of the receiver.
* `receiver_inBounds` — no call of a run leaves the arrays.
* `receiver_terminates` — a chunk is consumed within one call more than it has bytes.
-/

namespace Chlibs.Channel

open Infra Util

/-! ## Checked accesses -/

/-- `a - b`, for `size_t`. -/
def subSize (a b : Nat) : Option Nat := if b ≤ a then some (a - b) else none

/-- The bytes of an array from `off` on, `n` of them. -/
def loadBytes (bs : Bytes) (off n : Nat) : Option Bytes :=
  if off + n ≤ bs.length then some ((bs.drop off).take n) else none

/-- The loop that looks for the start magic, for a bounded number of turns. -/
def searchChecked (chn : ChannelFd) (readChunk : Bytes) : Nat → Nat → Option (ChannelFd × Nat)
  | 0, _ => none
  | fuel + 1, readChunkPos =>
    if readChunkPos < readChunk.length then do
      let b ← readChunk[readChunkPos]?
      if b = chnFdStartMagic then do
        let chn ← storeMsg chn [chnFdStartMagic]
        some (chn, readChunkPos + 1)
      else searchChecked chn readChunk fuel (readChunkPos + 1)
    else some (chn, readChunkPos)

/-- The copies of bytes of the length and of the payload. -/
def fillChecked (chn : ChannelFd) (goal : Nat) (readChunk : Bytes) (readChunkPos : Nat) :
    Option (ChannelFd × Nat) :=
  if chn.msgBufFill < goal then do
    let bytesNeeded ← subSize goal chn.msgBufFill
    let available ← subSize readChunk.length readChunkPos
    let bytesToRead := if bytesNeeded < available then bytesNeeded else available
    let bs ← loadBytes readChunk readChunkPos bytesToRead
    let chn ← storeMsg chn bs
    some (chn, readChunkPos + bytesToRead)
  else some (chn, readChunkPos)

/-- `*(uint32_t *)(msg_buf + 1)` -/
def msgLengthChecked (chn : ChannelFd) : Option Nat := (loadBytes chn.msgBuf 1 4).map leNat

/-- The payload is copied out of `msg_buf`, if it is queued. -/
def deliverChecked (chn : ChannelFd) (len : Nat) : Option ChannelFd :=
  if len = 0 then some chn
  else if qLen chn.q = qCap chn.q then
    if !chn.cfg.writeOver then some chn
    else do
      let msg ← loadBytes chn.msgBuf 5 len
      some { chn with q := (qPush (qPoll chn.q).2.2 msg).2 }
  else do
    let msg ← loadBytes chn.msgBuf 5 len
    some { chn with q := (qPush chn.q msg).2 }

def finishChecked (chn : ChannelFd) (len : Nat) (readChunk : Bytes) (readChunkPos : Nat) :
    Option (ChannelFd × Nat) :=
  if chn.msgBufFill < 5 + len + 1 then do
    let b ← readChunk[readChunkPos]?
    if b ≠ chnFdEndMagic then some (clearMsg chn, readChunkPos + 1)
    else do
      let chn ← storeMsg chn [chnFdEndMagic]
      let chn ← deliverChecked (clearMsg chn) len
      some (chn, readChunkPos + 1)
  else do
    let chn ← deliverChecked (clearMsg chn) len
    some (chn, readChunkPos)

/-- From where there is a start magic in `msg_buf` and a byte left in the chunk. -/
def startedChecked (chn : ChannelFd) (readChunk : Bytes) (readChunkPos : Nat) :
    Option (ChannelFd × Nat) := do
  let (chn, readChunkPos) ← fillChecked chn 5 readChunk readChunkPos
  if readChunk.length ≤ readChunkPos then some (chn, readChunkPos)
  else do
    let len ← msgLengthChecked chn
    if chn.cfg.maxMsgSize < len then some (clearMsg chn, readChunkPos)
    else do
      let (chn, readChunkPos) ← fillChecked chn (5 + len) readChunk readChunkPos
      if readChunk.length ≤ readChunkPos then some (chn, readChunkPos)
      else finishChecked chn len readChunk readChunkPos

/-- `_chn_fd_process_single_msg`, undefined where an access is. -/
def processSingleMsgChecked (chn : ChannelFd) (readChunk : Bytes) (readChunkPos : Nat) :
    Option (ChannelFd × Nat) :=
  if readChunk.length ≤ readChunkPos then some (chn, readChunkPos)
  else do
    let (chn, readChunkPos) ←
      if chn.msgBufFill = 0 then searchChecked chn readChunk (readChunk.length + 1) readChunkPos
      else some (chn, readChunkPos)
    if readChunk.length ≤ readChunkPos then some (chn, readChunkPos)
    else startedChecked chn readChunk readChunkPos

/-! ## All accesses are defined -/

section Checked

variable {chn : ChannelFd} {readChunk : Bytes} {pos : Nat}

theorem fillChecked_eq (goal : Nat) (hpos : pos ≤ readChunk.length) :
    fillChecked chn goal readChunk pos = fillUpTo chn goal readChunk pos := by
  unfold fillChecked fillUpTo
  split
  · next hlt =>
    have hmin : (if goal - chn.msgBufFill < readChunk.length - pos then goal - chn.msgBufFill
        else readChunk.length - pos) = min (readChunk.length - pos) (goal - chn.msgBufFill) := by
      split <;> omega
    have hload : loadBytes readChunk pos (min (readChunk.length - pos) (goal - chn.msgBufFill))
        = some ((readChunk.drop pos).take
          (min (readChunk.length - pos) (goal - chn.msgBufFill))) := if_pos (by omega)
    simp only [subSize, if_pos hlt.le, if_pos hpos, Option.bind_eq_bind, Option.bind_some, hmin,
      hload]
  · rfl

theorem deliverChecked_eq {len : Nat} (h : 5 + len ≤ chn.msgBuf.length) :
    deliverChecked chn len = some (deliverMsg chn len) := by
  have hload : loadBytes chn.msgBuf 5 len = some ((chn.msgBuf.drop 5).take len) := if_pos h
  unfold deliverChecked deliverMsg
  split
  · rfl
  · split
    · split
      · rfl
      · rw [hload]
        rfl
    · rw [hload]
      rfl

theorem msgLengthChecked_eq (h : 5 ≤ chn.msgBuf.length) :
    msgLengthChecked chn = some (msgLength chn) := by
  rw [msgLengthChecked, loadBytes, if_pos h]
  rfl

theorem finishChecked_eq {len : Nat} (h : 5 + len ≤ chn.msgBuf.length)
    (hpos : pos < readChunk.length) :
    finishChecked chn len readChunk pos = finishMsg chn len readChunk pos := by
  have hclear : deliverChecked (clearMsg chn) len = some (deliverMsg (clearMsg chn) len) :=
    deliverChecked_eq h
  unfold finishChecked finishMsg
  rw [List.getElem?_eq_getElem hpos, hclear]
  split
  · simp only [Option.bind_eq_bind, Option.bind_some, ne_eq, Option.some.injEq]
    split
    · rfl
    · by_cases hroom : chn.msgBufFill + [chnFdEndMagic].length ≤ chn.msgBuf.length
      · have hput : 5 + len ≤ (clearMsg (putMsg chn [chnFdEndMagic])).msgBuf.length := by
          show 5 + len ≤ (putMsg chn [chnFdEndMagic]).msgBuf.length
          rw [putMsg_msgBuf_length hroom]
          exact h
        rw [storeMsg_eq hroom, Option.bind_some, Option.bind_some, deliverChecked_eq hput]
        rfl
      · rw [storeMsg, if_neg hroom]
        rfl
  · rfl

theorem startedChecked_eq (hinv : ReceiverInv chn) (hfill : chn.msgBufFill ≠ 0)
    (hpos : pos < readChunk.length) :
    startedChecked chn readChunk pos = processStarted chn readChunk pos := by
  obtain ⟨chn₁, pos₁, h₁, ha₁, hfill₁⟩ := fillUpTo_length hinv hfill readChunk pos
  have hbuf := ha₁.inv.bufLength
  unfold chnFdMsgSize at hbuf
  unfold startedChecked processStarted
  rw [fillChecked_eq 5 hpos.le]
  simp only [h₁, Option.bind_eq_bind, Option.bind_some]
  by_cases hend₁ : readChunk.length ≤ pos₁
  · rw [if_pos hend₁, if_pos hend₁]
  rw [if_neg hend₁, if_neg hend₁, msgLengthChecked_eq (by omega), Option.bind_some]
  by_cases hmax : chn₁.cfg.maxMsgSize < msgLength chn₁
  · rw [if_pos hmax, if_pos hmax]
  rw [if_neg hmax, if_neg hmax, fillChecked_eq (5 + msgLength chn₁) (by omega)]
  obtain ⟨chn₂, pos₂, h₂, ha₂, -, hcfg, -⟩ :=
    fillUpTo_payload ha₁.inv (hfill₁ (by omega)) (by omega) readChunk pos₁
  have hbuf₂ := ha₂.inv.bufLength
  unfold chnFdMsgSize at hbuf₂
  simp only [h₂, Option.bind_some]
  by_cases hend₂ : readChunk.length ≤ pos₂
  · rw [if_pos hend₂, if_pos hend₂]
  rw [if_neg hend₂, if_neg hend₂]
  refine finishChecked_eq ?_ (by omega)
  rw [hcfg] at hbuf₂
  omega

/-- The loop stops where the search of the chunk does. -/
theorem searchChecked_eq (hroom : chn.msgBufFill + 1 ≤ chn.msgBuf.length) :
    ∀ (fuel pos : Nat), readChunk.length - pos < fuel → pos ≤ readChunk.length →
      searchChecked chn readChunk fuel pos = match startOffset (readChunk.drop pos) with
        | none => some (chn, readChunk.length)
        | some n => some (putMsg chn [chnFdStartMagic], pos + n + 1)
  | fuel + 1, pos, hfuel, hpos => by
    rw [searchChecked]
    by_cases hlt : pos < readChunk.length
    · rw [if_pos hlt, List.getElem?_eq_getElem hlt, List.drop_eq_getElem_cons hlt, startOffset]
      simp only [Option.bind_eq_bind, Option.bind_some]
      by_cases hb : readChunk[pos] = chnFdStartMagic
      · rw [if_pos hb, if_pos hb, storeMsg_eq hroom]
        rfl
      · rw [if_neg hb, if_neg hb, searchChecked_eq hroom fuel (pos + 1) (by omega) hlt]
        cases startOffset (readChunk.drop (pos + 1)) with
        | none => rfl
        | some n =>
          simp only [Option.map_some]
          rw [Nat.add_right_comm pos 1 n]
          rfl
    · rw [if_neg hlt, List.drop_eq_nil_of_le (by omega), Nat.le_antisymm hpos (by omega)]
      rfl

/-- **Where the invariant holds, all accesses of a call are defined.** -/
theorem processSingleMsgChecked_eq (hinv : ReceiverInv chn) (readChunk : Bytes) (pos : Nat) :
    processSingleMsgChecked chn readChunk pos = chnFdProcessSingleMsg chn readChunk pos := by
  have hbuf := hinv.bufLength
  unfold chnFdMsgSize at hbuf
  unfold processSingleMsgChecked chnFdProcessSingleMsg
  by_cases hend : readChunk.length ≤ pos
  · rw [if_pos hend, if_pos hend]
  rw [if_neg hend, if_neg hend]
  by_cases hfill : chn.msgBufFill = 0
  · have hroom : chn.msgBufFill + 1 ≤ chn.msgBuf.length := by omega
    rw [if_pos hfill, if_pos hfill, searchChecked_eq hroom _ pos (by omega) (by omega)]
    cases hn : startOffset (readChunk.drop pos) with
    | none =>
      simp only [Option.bind_eq_bind, Option.bind_some, le_refl, if_true]
    | some n =>
      have ha := search_advance hinv hfill hn
      simp only [storeMsg_eq (show chn.msgBufFill + [chnFdStartMagic].length ≤ chn.msgBuf.length
        from hroom), Option.bind_eq_bind, Option.bind_some]
      by_cases hmore : readChunk.length ≤ pos + n + 1
      · rw [if_pos hmore, if_pos hmore]
      · rw [if_neg hmore, if_neg hmore]
        exact startedChecked_eq ha.inv (by simp) (by omega)
  · rw [if_neg hfill, if_neg hfill, Option.bind_eq_bind, Option.bind_some]
    simp only [if_neg hend]
    exact startedChecked_eq hinv hfill (by omega)

end Checked

/-! ## The loops of a refresh -/

/-- A channel, and where the loops of `chn_fd_refresh` are: `read_chunk` and `read_chunk_pos`. -/
structure Receiver where
  chn : ChannelFd
  readChunk : Bytes
  readChunkPos : Nat

namespace Receiver

/-- The inner loop is at its end, or no refresh is on its way. -/
def Done (r : Receiver) : Prop := r.readChunk.length ≤ r.readChunkPos

/-- A read of any bytes, a call on the rest of the chunk, or one of the other public calls. -/
inductive Step (r : Receiver) : Receiver → Prop
  | read (hdone : r.Done) (readChunk : Bytes) : Step r ⟨r.chn, readChunk, 0⟩
  | process {chn : ChannelFd} {readChunkPos : Nat} (hmore : r.readChunkPos < r.readChunk.length)
      (h : chnFdProcessSingleMsg r.chn r.readChunk r.readChunkPos = some (chn, readChunkPos)) :
      Step r ⟨chn, r.readChunk, readChunkPos⟩
  | close (hdone : r.Done) : Step r { r with chn := { r.chn with readOpen := false } }
  | send {chn : ChannelFd} {write : Bytes → Option Nat} {msg : Bytes} {st : ChannelStatus}
      (hdone : r.Done) (h : chnFdSend r.chn write msg = (st, chn)) : Step r { r with chn := chn }
  | receive {chn : ChannelFd} {len : Nat} {ans : Except ChannelStatus Bytes} (hdone : r.Done)
      (h : chnFdReceive r.chn len = (ans, chn)) : Step r { r with chn := chn }

end Receiver

/-- From a fresh channel on. -/
def receiverSystem : TransitionSystem Receiver where
  init r := channelFdSystem.init r.chn ∧ r.readChunk = [] ∧ r.readChunkPos = 0
  step := Receiver.Step

/-- The turns of the inner loop are steps. -/
theorem processChunkLoop_steps (readChunk : Bytes) : ∀ (fuel : Nat) (chn : ChannelFd) (pos : Nat)
    {chn' : ChannelFd}, processChunkLoop readChunk fuel chn pos = some chn' →
    ∃ pos', readChunk.length ≤ pos' ∧
      Relation.ReflTransGen receiverSystem.step ⟨chn, readChunk, pos⟩ ⟨chn', readChunk, pos'⟩
  | fuel + 1, chn, pos, chn', h => by
    rw [processChunkLoop] at h
    by_cases hmore : pos < readChunk.length
    · rw [if_pos hmore] at h
      obtain ⟨⟨chn₁, pos₁⟩, hcall, hrest⟩ := Option.bind_eq_some_iff.mp h
      obtain ⟨pos', hend, hsteps⟩ := processChunkLoop_steps readChunk fuel chn₁ pos₁ hrest
      exact ⟨pos', hend, hsteps.head (Receiver.Step.process hmore hcall)⟩
    · rw [if_neg hmore] at h
      cases h
      exact ⟨pos, Nat.le_of_not_lt hmore, .refl⟩

theorem chnFdProcessChunks_steps : ∀ (chunks : List Bytes) (r : Receiver) {chn' : ChannelFd},
    r.Done → chnFdProcessChunks r.chn chunks = some chn' →
    ∃ r', r'.Done ∧ r'.chn = chn' ∧ Relation.ReflTransGen receiverSystem.step r r'
  | [], r, chn', hdone, h => by
    cases h
    exact ⟨r, hdone, rfl, .refl⟩
  | chunk :: chunks, r, chn', hdone, h => by
    rw [chnFdProcessChunks] at h
    obtain ⟨chn₁, hchunk, hrest⟩ := Option.bind_eq_some_iff.mp h
    obtain ⟨pos₁, hend, hsteps⟩ := processChunkLoop_steps chunk _ r.chn 0 hchunk
    obtain ⟨r', hdone', hchn', hsteps'⟩ :=
      chnFdProcessChunks_steps chunks ⟨chn₁, chunk, pos₁⟩ hend hrest
    exact ⟨r', hdone', hchn', (hsteps.head (Receiver.Step.read hdone chunk)).trans hsteps'⟩

/-- **A refresh is steps of the receiver.** -/
theorem chnFdRefresh_steps {r : Receiver} (hdone : r.Done) {reads : List Bytes} {readEnd : ReadEnd}
    {st : ChannelStatus} {chn' : ChannelFd}
    (h : chnFdRefresh r.chn reads readEnd = some (st, chn')) :
    ∃ r', r'.Done ∧ r'.chn = chn' ∧ Relation.ReflTransGen receiverSystem.step r r' := by
  unfold chnFdRefresh at h
  split at h
  · cases h
    exact ⟨r, hdone, rfl, .refl⟩
  · obtain ⟨chn₁, hrun, hrest⟩ := Option.bind_eq_some_iff.mp h
    obtain ⟨r₁, hdone₁, rfl, hsteps⟩ := chnFdProcessChunks_steps reads r hdone hrun
    cases readEnd with
    | wouldBlock =>
      cases hrest
      exact ⟨r₁, hdone₁, rfl, hsteps⟩
    | closed =>
      cases hrest
      exact ⟨{ r₁ with chn := { r₁.chn with readOpen := false } }, hdone₁, rfl,
        hsteps.tail (Receiver.Step.close hdone₁)⟩

/-- The channels of `channelFdSystem` are receivers between refreshes. -/
theorem exists_receiver {chn : ChannelFd} (h : channelFdSystem.Reachable chn) :
    ∃ r, receiverSystem.Reachable r ∧ r.Done ∧ r.chn = chn := by
  induction h with
  | init h0 => exact ⟨⟨_, [], 0⟩, .init ⟨h0, rfl, rfl⟩, Nat.le_refl 0, rfl⟩
  | step _ hstep ih =>
    obtain ⟨r, hr, hdone, rfl⟩ := ih
    cases hstep with
    | send hsend => exact ⟨_, hr.step (Receiver.Step.send hdone hsend), hdone, rfl⟩
    | refresh _ hrefresh =>
      obtain ⟨r', hdone', hchn', hsteps⟩ := chnFdRefresh_steps hdone hrefresh
      exact ⟨r', hr.steps hsteps, hdone', hchn'⟩
    | receive hreceive => exact ⟨_, hr.step (Receiver.Step.receive hdone hreceive), hdone, rfl⟩

/-! ## The start magic -/

/-- What is in `msg_buf` starts with the start magic. -/
def HasStart (chn : ChannelFd) : Prop := 0 < chn.msgBufFill → chn.msgBuf[0]? = some chnFdStartMagic

theorem hasStart_of_idle {chn : ChannelFd} (h : chn.msgBufFill = 0) : HasStart chn :=
  fun hpos => absurd h hpos.ne'

section Start

variable {chn chn' : ChannelFd} {readChunk : Bytes} {pos pos' : Nat}

/-- What is stored behind the start magic leaves it alone. -/
theorem hasStart_putMsg (h : HasStart chn) (hfill : chn.msgBufFill ≠ 0) {bs : Bytes}
    (hroom : chn.msgBufFill + bs.length ≤ chn.msgBuf.length) : HasStart (putMsg chn bs) := by
  intro _
  have hpos := Nat.pos_of_ne_zero hfill
  have htake : (putMsg chn bs).msgBuf.take chn.msgBufFill = chn.msgBuf.take chn.msgBufFill :=
    take_overwrite hroom
  rw [← h hpos, ← List.getElem?_take_of_lt hpos, htake, List.getElem?_take_of_lt hpos]

theorem hasStart_first (hfill : chn.msgBufFill = 0) : HasStart (putMsg chn [chnFdStartMagic]) := by
  intro _
  simp only [putMsg, hfill, overwrite_zero]
  rfl

theorem fillUpTo_start (h : HasStart chn) (hfill : chn.msgBufFill ≠ 0) {goal : Nat}
    (hpos : pos ≤ readChunk.length) (hrun : fillUpTo chn goal readChunk pos = some (chn', pos')) :
    HasStart chn' ∧ chn'.msgBufFill ≠ 0 ∧ pos' ≤ readChunk.length := by
  unfold fillUpTo at hrun
  split at hrun
  · obtain ⟨chn₁, hstore, heq⟩ := Option.bind_eq_some_iff.mp hrun
    obtain ⟨hroom, hchn₁⟩ := Option.ite_none_right_eq_some.mp hstore
    cases hchn₁
    cases heq
    refine ⟨hasStart_putMsg h hfill hroom, ?_, by omega⟩
    exact fun h0 => hfill (Nat.eq_zero_of_add_eq_zero_right h0)
  · cases hrun
    exact ⟨h, hfill, hpos⟩

/-- Where a message ends, the buffer is empty. -/
theorem finishMsg_idle {len : Nat} (hpos : pos < readChunk.length)
    (h : finishMsg chn len readChunk pos = some (chn', pos')) :
    chn'.msgBufFill = 0 ∧ pos' ≤ readChunk.length := by
  unfold finishMsg at h
  split at h
  · split at h
    · cases h
      exact ⟨rfl, hpos⟩
    · obtain ⟨chn₁, -, heq⟩ := Option.bind_eq_some_iff.mp h
      cases heq
      exact ⟨deliverMsg_msgBufFill len, hpos⟩
  · cases h
    exact ⟨deliverMsg_msgBufFill len, hpos.le⟩

/-- What is known at the return of a call. -/
structure Returned (readChunk : Bytes) (chn : ChannelFd) (pos : Nat) : Prop where
  start : HasStart chn
  pos_le : pos ≤ readChunk.length
  idle : pos < readChunk.length → chn.msgBufFill = 0

/-- At the end of the chunk, the buffer may hold anything behind the start magic. -/
theorem Returned.of_le (h : HasStart chn) (hpos : pos ≤ readChunk.length)
    (hend : readChunk.length ≤ pos) : Returned readChunk chn pos :=
  ⟨h, hpos, fun hlt => absurd hend (Nat.not_le.mpr hlt)⟩

theorem Returned.of_idle (h : chn.msgBufFill = 0) (hpos : pos ≤ readChunk.length) :
    Returned readChunk chn pos :=
  ⟨hasStart_of_idle h, hpos, fun _ => h⟩

theorem processStarted_returned (h : HasStart chn) (hfill : chn.msgBufFill ≠ 0)
    (hpos : pos ≤ readChunk.length) (hcall : processStarted chn readChunk pos = some (chn', pos')) :
    Returned readChunk chn' pos' := by
  unfold processStarted at hcall
  obtain ⟨⟨chn₁, pos₁⟩, h₁, hcall⟩ := Option.bind_eq_some_iff.mp hcall
  obtain ⟨hstart₁, hfill₁, hpos₁⟩ := fillUpTo_start h hfill hpos h₁
  dsimp only at hcall
  split at hcall
  · next hend =>
    cases hcall
    exact .of_le hstart₁ hpos₁ hend
  split at hcall
  · -- the message is too long
    cases hcall
    exact .of_idle rfl hpos₁
  obtain ⟨⟨chn₂, pos₂⟩, h₂, hcall⟩ := Option.bind_eq_some_iff.mp hcall
  obtain ⟨hstart₂, -, hpos₂⟩ := fillUpTo_start hstart₁ hfill₁ hpos₁ h₂
  dsimp only at hcall
  split at hcall
  · next hend =>
    cases hcall
    exact .of_le hstart₂ hpos₂ hend
  · next hmore =>
    obtain ⟨hidle, hpos'⟩ := finishMsg_idle (Nat.lt_of_not_le hmore) hcall
    exact .of_idle hidle hpos'

/-- **A call that stops before the end of the chunk has emptied the buffer.** -/
theorem chnFdProcessSingleMsg_returned (h : HasStart chn) (hmore : pos < readChunk.length)
    (hcall : chnFdProcessSingleMsg chn readChunk pos = some (chn', pos')) :
    Returned readChunk chn' pos' := by
  unfold chnFdProcessSingleMsg at hcall
  rw [if_neg (Nat.not_le.mpr hmore)] at hcall
  split at hcall
  · next hfill =>
    split at hcall
    · -- there is no start magic
      cases hcall
      exact .of_idle hfill (Nat.le_refl _)
    · next n hn =>
      have hspec := startOffset_spec (readChunk.drop pos)
      rw [hn] at hspec
      obtain ⟨junk, rest, hjunk, -, hdrop⟩ := hspec
      have hlen := congrArg List.length hdrop
      rw [List.length_drop, List.length_append, List.length_cons] at hlen
      obtain ⟨chn₁, hstore, hcall⟩ := Option.bind_eq_some_iff.mp hcall
      obtain ⟨hroom, hchn₁⟩ := Option.ite_none_right_eq_some.mp hstore
      cases hchn₁
      have hstart := hasStart_first hfill
      dsimp only at hcall
      split at hcall
      · next hend =>
        cases hcall
        exact .of_le hstart (by omega) hend
      · exact processStarted_returned hstart (Nat.succ_ne_zero _) (by omega) hcall
  · next hfill => exact processStarted_returned h hfill hmore.le hcall

end Start

/-! ## Runs -/

theorem chnFdByte_cfg (chn : ChannelFd) (b : UInt8) : (chnFdByte chn b).cfg = chn.cfg := by
  unfold chnFdByte chnFdSearchByte
  repeat' split
  all_goals simp

theorem foldl_chnFdByte_cfg (bs : Bytes) : ∀ chn : ChannelFd,
    (bs.foldl chnFdByte chn).cfg = chn.cfg := by
  induction bs with
  | nil => exact fun _ => rfl
  | cons b bs ih =>
    intro chn
    rw [List.foldl_cons, ih, chnFdByte_cfg]

/-- The calls leave the configuration alone, since the bytes do. -/
theorem Advance.cfg {readChunk : Bytes} {chn chn' : ChannelFd} {pos pos' : Nat}
    (h : Advance readChunk chn pos chn' pos') : chn'.cfg = chn.cfg := by
  rw [← foldl_chnFdByte_cfg (readChunk.drop pos') chn', h.run, foldl_chnFdByte_cfg]

/-- What every step keeps. -/
structure Receiver.Inv (cfg : ChannelFdConfig) (r : Receiver) : Prop where
  inv : ReceiverInv r.chn
  cfg_eq : r.chn.cfg = cfg
  start : HasStart r.chn
  pos_le : r.readChunkPos ≤ r.readChunk.length

theorem Receiver.Step.inv {cfg : ChannelFdConfig} {r r' : Receiver} (h : r.Step r')
    (hr : r.Inv cfg) : r'.Inv cfg := by
  cases h with
  | read _ readChunk => exact ⟨hr.inv, hr.cfg_eq, hr.start, Nat.zero_le _⟩
  | process hmore hcall =>
    obtain ⟨chn', pos', hcall', ha, -⟩ := chnFdProcessSingleMsg_advance hr.inv hmore
    cases hcall.symm.trans hcall'
    have hret := chnFdProcessSingleMsg_returned hr.start hmore hcall
    exact ⟨ha.inv, ha.cfg.trans hr.cfg_eq, hret.start, hret.pos_le⟩
  | close _ => exact ⟨hr.inv.congr rfl rfl rfl rfl, hr.cfg_eq, hr.start, hr.pos_le⟩
  | send _ hsend =>
    unfold chnFdSend at hsend
    repeat' split at hsend
    all_goals cases hsend
    all_goals exact ⟨hr.inv.congr rfl rfl rfl rfl, hr.cfg_eq, hr.start, hr.pos_le⟩
  | receive _ hreceive =>
    unfold chnFdReceive at hreceive
    repeat' split at hreceive
    all_goals cases hreceive
    · exact hr
    · exact hr
    · exact ⟨hr.inv.congr rfl rfl rfl (qPoll_cap _), hr.cfg_eq, hr.start, hr.pos_le⟩

/-- A fresh channel. -/
theorem newChannelFd_receiver {cfg : ChannelFdConfig} {msgBuf : Bytes} {chn : ChannelFd}
    (hnew : newChannelFd cfg msgBuf = .ok chn)
    (hbuf : msgBuf.length = chnFdMsgSize cfg.maxMsgSize) :
    Receiver.Inv cfg ⟨chn, [], 0⟩ := by
  refine ⟨newChannelFd_inv hbuf hnew, ?_, hasStart_of_idle ?_, Nat.le_refl 0⟩
  all_goals
    unfold newChannelFd at hnew
    repeat' split at hnew
    all_goals cases hnew
    all_goals rfl

theorem Receiver.Inv.steps {cfg : ChannelFdConfig} {r r' : Receiver} (hr : r.Inv cfg)
    (h : Relation.ReflTransGen receiverSystem.step r r') : r'.Inv cfg := by
  induction h with
  | refl => exact hr
  | tail _ hstep ih => exact Receiver.Step.inv hstep ih

/--
**No call of a run leaves the arrays.** At every return of a call, what is in `msg_buf` starts with
the start magic and has not outgrown a message of allowed length; and all accesses of the next call,
which are those of `_chn_fd_process_single_msg`, are defined.
-/
theorem receiver_inBounds {cfg : ChannelFdConfig} {msgBuf : Bytes} {chn : ChannelFd}
    (hnew : newChannelFd cfg msgBuf = .ok chn)
    (hbuf : msgBuf.length = chnFdMsgSize cfg.maxMsgSize) {r : Receiver}
    (hr : Relation.ReflTransGen receiverSystem.step ⟨chn, [], 0⟩ r) :
    r.chn.msgBuf.length = cfg.maxMsgSize + 6 ∧
    (5 < r.chn.msgBufFill →
      msgLength r.chn ≤ cfg.maxMsgSize ∧ r.chn.msgBufFill ≤ msgLength r.chn + 5) ∧
    (0 < r.chn.msgBufFill → r.chn.msgBuf[0]? = some chnFdStartMagic) ∧
    ∃ ret, processSingleMsgChecked r.chn r.readChunk r.readChunkPos = some ret ∧
      chnFdProcessSingleMsg r.chn r.readChunk r.readChunkPos = some ret := by
  have hinv := (newChannelFd_receiver hnew hbuf).steps hr
  have hlen := hinv.inv.bufLength
  unfold chnFdMsgSize at hlen
  rw [hinv.cfg_eq] at hlen
  refine ⟨by omega, fun hfill => ?_, hinv.start, ?_⟩
  · rcases hinv.inv.fill with hle | ⟨hmax, hle⟩
    · omega
    · rw [hinv.cfg_eq] at hmax
      exact ⟨hmax, by omega⟩
  · have hchecked := processSingleMsgChecked_eq hinv.inv r.readChunk r.readChunkPos
    by_cases hend : r.readChunk.length ≤ r.readChunkPos
    · have hcall : chnFdProcessSingleMsg r.chn r.readChunk r.readChunkPos
          = some (r.chn, r.readChunkPos) := if_pos hend
      exact ⟨_, hchecked.trans hcall, hcall⟩
    · obtain ⟨chn', pos', hcall, -, -⟩ :=
        chnFdProcessSingleMsg_advance hinv.inv (Nat.lt_of_not_le hend)
      exact ⟨_, hchecked.trans hcall, hcall⟩

/-- A message that is in the buffer up to its last byte, at the end of a chunk. -/
theorem receiver_inBounds_message :
    ∃ chn r, newChannelFd ⟨1, false, 2, 64⟩ (List.replicate 8 0) = .ok chn ∧
      Relation.ReflTransGen receiverSystem.step ⟨chn, [], 0⟩ r ∧ r.chn.msgBufFill = 6 ∧
      msgLength r.chn ≤ 2 ∧ r.chn.msgBufFill ≤ msgLength r.chn + 5 := by
  have hnew : ∃ chn, newChannelFd ⟨1, false, 2, 64⟩ (List.replicate 8 0) = .ok chn ∧
      ∃ chn', chnFdProcessSingleMsg chn [0x1E, 1, 0, 0, 0, 7] 0 = some (chn', 6) ∧
        chn'.msgBufFill = 6 := ⟨_, rfl, _, rfl, rfl⟩
  obtain ⟨chn, hchn, chn', hcall, hfill⟩ := hnew
  have hdone : Receiver.Done ⟨chn, [], 0⟩ := Nat.le_refl 0
  have hread : receiverSystem.step ⟨chn, [], 0⟩ ⟨chn, [0x1E, 1, 0, 0, 0, 7], 0⟩ :=
    Receiver.Step.read hdone _
  have hrun := (Relation.ReflTransGen.single hread).tail
    (Receiver.Step.process (show 0 < 6 by decide) hcall)
  obtain ⟨-, hmsg, -, -⟩ := receiver_inBounds hchn (by decide) hrun
  exact ⟨chn, _, hchn, hrun, hfill, hmsg (by rw [hfill]; decide)⟩

/-! ## Chunks -/

/--
So many calls from a position on, each with the position that the last one returned: it never goes
back, and it is the end of the chunk where the calls stop.
-/
inductive Calls (readChunk : Bytes) : Nat → ChannelFd → Nat → ChannelFd → Prop
  | done {chn : ChannelFd} : Calls readChunk 0 chn readChunk.length chn
  | call {k : Nat} {chn chn₁ chn' : ChannelFd} {pos pos₁ : Nat} (hmore : pos < readChunk.length)
      (h : chnFdProcessSingleMsg chn readChunk pos = some (chn₁, pos₁)) (hle : pos ≤ pos₁)
      (hle' : pos₁ ≤ readChunk.length) (hrest : Calls readChunk k chn₁ pos₁ chn') :
      Calls readChunk (k + 1) chn pos chn'

/-- With an empty buffer, every call consumes a byte. -/
theorem exists_calls_idle (readChunk : Bytes) : ∀ (left : Nat) (chn : ChannelFd) (pos : Nat),
    ReceiverInv chn → Returned readChunk chn pos → readChunk.length - pos ≤ left →
    ∃ k chn', k ≤ readChunk.length - pos ∧ Calls readChunk k chn pos chn'
  | left, chn, pos, hinv, hret, hleft => by
    rcases Nat.eq_or_lt_of_le hret.pos_le with rfl | hmore
    · exact ⟨0, chn, Nat.zero_le _, .done⟩
    obtain ⟨chn₁, pos₁, hcall, ha, hprog⟩ := chnFdProcessSingleMsg_advance hinv hmore
    have hlt : pos < pos₁ := hprog.resolve_right fun h => h.1 (hret.idle hmore)
    have hret₁ := chnFdProcessSingleMsg_returned hret.start hmore hcall
    have hpos₁ := hret₁.pos_le
    cases left with
    | zero => omega
    | succ left =>
      obtain ⟨k, chn', hk, hcalls⟩ :=
        exists_calls_idle readChunk left chn₁ pos₁ ha.inv hret₁ (by omega)
      exact ⟨k + 1, chn', by omega, .call hmore hcall ha.le hpos₁ hcalls⟩

/--
**A chunk is consumed within one call more than it has bytes.** Only the first call may find a
message in the buffer that is too long, and so consume nothing.
-/
theorem receiver_terminates {r : Receiver} (hr : receiverSystem.Reachable r) (readChunk : Bytes) :
    ∃ k chn', k ≤ readChunk.length + 1 ∧ Calls readChunk k r.chn 0 chn' := by
  have hind : receiverSystem.Inductive fun r => ∃ cfg, r.Inv cfg := by
    refine ⟨?_, fun r r' ⟨cfg, hinv⟩ hstep => ⟨cfg, Receiver.Step.inv hstep hinv⟩⟩
    rintro ⟨chn, readChunk, pos⟩ ⟨⟨cfg, msgBuf, hbuf, hnew⟩, hchunk, hpos⟩
    cases hchunk
    cases hpos
    exact ⟨cfg, newChannelFd_receiver hnew hbuf⟩
  obtain ⟨cfg, hinv⟩ := hind.reachable hr
  rcases Nat.eq_zero_or_pos readChunk.length with hnil | hmore
  · have hdone : Calls readChunk 0 r.chn readChunk.length r.chn := .done
    rw [hnil] at hdone
    exact ⟨0, r.chn, Nat.zero_le _, hdone⟩
  obtain ⟨chn₁, pos₁, hcall, ha, -⟩ := chnFdProcessSingleMsg_advance hinv.inv hmore
  have hret := chnFdProcessSingleMsg_returned hinv.start hmore hcall
  obtain ⟨k, chn', hk, hcalls⟩ :=
    exists_calls_idle readChunk (readChunk.length - pos₁) chn₁ pos₁ ha.inv hret (Nat.le_refl _)
  exact ⟨k + 1, chn', by omega, .call hmore hcall ha.le hret.pos_le hcalls⟩

theorem receiver_terminates_fresh :
    ∃ chn, newChannelFd ⟨1, false, 2, 64⟩ (List.replicate 8 0) = .ok chn ∧
      ∃ k chn', k ≤ 7 ∧ Calls [0x1E, 3, 0, 0, 0, 0x1E] k chn 0 chn' := by
  have hnew : ∃ chn, newChannelFd ⟨1, false, 2, 64⟩ (List.replicate 8 0) = .ok chn := ⟨_, rfl⟩
  obtain ⟨chn, hchn⟩ := hnew
  have hinit : receiverSystem.Reachable ⟨chn, [], 0⟩ :=
    .init ⟨⟨_, _, by decide, hchn⟩, rfl, rfl⟩
  exact ⟨chn, hchn, receiver_terminates hinit [0x1E, 3, 0, 0, 0, 0x1E]⟩

end Chlibs.Channel
