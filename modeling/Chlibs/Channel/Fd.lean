import Chlibs.Channel.Interface
import Chlibs.Infra.Bytes
import Chlibs.Infra.Transition
import Chlibs.Util.Queue

/-!
# Channels over file descriptors

`channel_fd.c`. What `read` returned into `read_chunk` is the list of its `readden` bytes.

A store outside `msg_buf` is undefined: the functions that write there return `none` for it.
-/

namespace Chlibs.Channel

open Infra Util

def chnFdStartMagic : UInt8 := 0x1E
def chnFdEndMagic : UInt8 := 0x2A

/-- `CHN_FD_MSG_SIZE`: start magic, length, payload, end magic. -/
def chnFdMsgSize (len : Nat) : Nat := 1 + 4 + len + 1

/-- `channel_fd_config_t`, less its descriptors. -/
structure ChannelFdConfig where
  queueDepth : Nat
  writeOver : Bool
  maxMsgSize : Nat
  readChunkSize : Nat

/-- `channel_fd_t`. A descriptor is open or closed (`-1`). -/
structure ChannelFd where
  cfg : ChannelFdConfig
  readOpen : Bool
  writeOpen : Bool
  msgBufFill : Nat
  msgBuf : Bytes
  q : Queue Bytes

/-- `malloc` leaves the content of `msg_buf` unspecified, so it is an argument. -/
def newChannelFd (cfg : ChannelFdConfig) (msgBuf : Bytes) : Except ChannelStatus ChannelFd :=
  if cfg.maxMsgSize = 0 ∨ cfg.queueDepth = 0 ∨ cfg.readChunkSize = 0 then .error .invalidArgs
  else
    match newQueue cfg.queueDepth with
    | some q => .ok
        { cfg := cfg, readOpen := true, writeOpen := true, msgBufFill := 0, msgBuf := msgBuf, q := q }
    | none => .error .memError

/-! ## Sending -/

/-- What `chn_fd_send` puts into `write_buf`. -/
def chnFdWriteBuf (msg : Bytes) : Bytes :=
  chnFdStartMagic :: (le32 msg.length ++ msg ++ [chnFdEndMagic])

/-- `write` is the system call: the number of bytes it wrote, or `none` for an error. -/
def chnFdSend (chn : ChannelFd) (write : Bytes → Option Nat) (msg : Bytes) :
    ChannelStatus × ChannelFd :=
  if msg.length = 0 ∨ chn.cfg.maxMsgSize < msg.length then (.invalidMsgSize, chn)
  else if !chn.writeOpen then (.cannotWrite, chn)
  else if write (chnFdWriteBuf msg) ≠ some (chnFdMsgSize msg.length) then
    (.cannotWrite, { chn with writeOpen := false })
  else (.success, chn)

/-! ## Receiving bytes -/

/-- `memcpy(msg_buf + msg_buf_fill, bs, |bs|); msg_buf_fill += |bs|` -/
def storeMsg (chn : ChannelFd) (bs : Bytes) : Option ChannelFd :=
  if chn.msgBufFill + bs.length ≤ chn.msgBuf.length then
    some { chn with
      msgBuf := overwrite chn.msgBuf chn.msgBufFill bs
      msgBufFill := chn.msgBufFill + bs.length }
  else none

/-- `*(uint32_t *)(msg_buf + 1)` -/
def msgLength (chn : ChannelFd) : Nat := leNat ((chn.msgBuf.drop 1).take 4)

/-- `msg_buf_fill = 0` -/
def clearMsg (chn : ChannelFd) : ChannelFd := { chn with msgBufFill := 0 }

/-- How many bytes stand before the first start magic, or `none` without one. -/
def startOffset : Bytes → Option Nat
  | [] => none
  | b :: bs => if b = chnFdStartMagic then some 0 else (startOffset bs).map (· + 1)

/-- Copy from the chunk until `msg_buf` holds `goal` bytes or the chunk ends. -/
def fillUpTo (chn : ChannelFd) (goal : Nat) (readChunk : Bytes) (readChunkPos : Nat) :
    Option (ChannelFd × Nat) :=
  if chn.msgBufFill < goal then do
    let bytesToRead := min (readChunk.length - readChunkPos) (goal - chn.msgBufFill)
    let chn ← storeMsg chn ((readChunk.drop readChunkPos).take bytesToRead)
    some (chn, readChunkPos + bytesToRead)
  else some (chn, readChunkPos)

/-- Queue a complete message. Empty messages are thrown out; on a full queue the oldest
message goes with `write_over`, the new one without. -/
def deliverMsg (chn : ChannelFd) (len : Nat) : ChannelFd :=
  if len = 0 then chn
  else
    let msg := (chn.msgBuf.drop 5).take len
    if qLen chn.q = qCap chn.q then
      if !chn.cfg.writeOver then chn
      else { chn with q := (qPush (qPoll chn.q).2.2 msg).2 }
    else { chn with q := (qPush chn.q msg).2 }

/-- The end of a message: the end magic, and then the queue. -/
def finishMsg (chn : ChannelFd) (len : Nat) (readChunk : Bytes) (readChunkPos : Nat) :
    Option (ChannelFd × Nat) :=
  if chn.msgBufFill < 5 + len + 1 then
    if readChunk[readChunkPos]? ≠ some chnFdEndMagic then some (clearMsg chn, readChunkPos + 1)
    else do
      let chn ← storeMsg chn [chnFdEndMagic]
      some (deliverMsg (clearMsg chn) len, readChunkPos + 1)
  else some (deliverMsg (clearMsg chn) len, readChunkPos)

/-- `_chn_fd_process_single_msg` once a start magic is in `msg_buf`. -/
def processStarted (chn : ChannelFd) (readChunk : Bytes) (readChunkPos : Nat) :
    Option (ChannelFd × Nat) := do
  let (chn, readChunkPos) ← fillUpTo chn 5 readChunk readChunkPos
  if readChunk.length ≤ readChunkPos then some (chn, readChunkPos)
  else
    let len := msgLength chn
    if chn.cfg.maxMsgSize < len then some (clearMsg chn, readChunkPos)
    else do
      let (chn, readChunkPos) ← fillUpTo chn (5 + len) readChunk readChunkPos
      if readChunk.length ≤ readChunkPos then some (chn, readChunkPos)
      else finishMsg chn len readChunk readChunkPos

/-- Gives back the new `read_chunk_pos`. -/
def chnFdProcessSingleMsg (chn : ChannelFd) (readChunk : Bytes) (readChunkPos : Nat) :
    Option (ChannelFd × Nat) :=
  if readChunk.length ≤ readChunkPos then some (chn, readChunkPos)
  else if chn.msgBufFill = 0 then
    match startOffset (readChunk.drop readChunkPos) with
    | none => some (chn, readChunk.length)
    | some n => do
      let chn ← storeMsg chn [chnFdStartMagic]
      let readChunkPos := readChunkPos + n + 1
      if readChunk.length ≤ readChunkPos then some (chn, readChunkPos)
      else processStarted chn readChunk readChunkPos
  else processStarted chn readChunk readChunkPos

/-- The inner loop of `chn_fd_refresh`, for a bounded number of iterations. -/
def processChunkLoop (readChunk : Bytes) : Nat → ChannelFd → Nat → Option ChannelFd
  | 0, _, _ => none
  | fuel + 1, chn, readChunkPos =>
    if readChunkPos < readChunk.length then do
      let (chn, readChunkPos) ← chnFdProcessSingleMsg chn readChunk readChunkPos
      processChunkLoop readChunk fuel chn readChunkPos
    else some chn

/-- A call that consumes nothing has cleared `msg_buf`, so two calls consume a byte. -/
def chnFdProcessChunk (chn : ChannelFd) (readChunk : Bytes) : Option ChannelFd :=
  processChunkLoop readChunk (2 * readChunk.length + 2) chn 0

/-- The chunks of successive reads. -/
def chnFdProcessChunks (chn : ChannelFd) : List Bytes → Option ChannelFd
  | [] => some chn
  | chunk :: chunks => do chnFdProcessChunks (← chnFdProcessChunk chn chunk) chunks

/-- What the last `read` of a refresh returned. -/
inductive ReadEnd where
  /-- `EAGAIN`, `EWOULDBLOCK` -/
  | wouldBlock
  /-- end of file, or any other error -/
  | closed
  deriving DecidableEq, Repr

/-- `reads` are the chunks that `read` returns before it ends with `readEnd`. -/
def chnFdRefresh (chn : ChannelFd) (reads : List Bytes) (readEnd : ReadEnd) :
    Option (ChannelStatus × ChannelFd) :=
  if !chn.readOpen then some (.success, chn)
  else do
    let chn ← chnFdProcessChunks chn reads
    match readEnd with
    | .wouldBlock => some (.success, chn)
    | .closed => some (.success, { chn with readOpen := false })

/-! ## Receiving messages -/

/-- What a read from an empty queue returns. -/
def emptyStatus (chn : ChannelFd) : ChannelStatus :=
  if chn.readOpen then .noIncomingMsg else .cannotRead

def chnFdIncomingLen (chn : ChannelFd) : Except ChannelStatus Nat :=
  match qPeek chn.q with
  | none => .error (emptyStatus chn)
  | some msg => .ok msg.length

/-- The message goes to the front of a buffer of `len` bytes. -/
def chnFdReceive (chn : ChannelFd) (len : Nat) : Except ChannelStatus Bytes × ChannelFd :=
  match qPeek chn.q with
  | none => (.error (emptyStatus chn), chn)
  | some msg =>
    if len < msg.length then (.error .bufferTooSmall, chn)
    else (.ok msg, { chn with q := (qPoll chn.q).2.2 })

/-! ## Runs of a channel -/

/-- What `read` can return into `read_chunk`. -/
def ReadChunks (cfg : ChannelFdConfig) (reads : List Bytes) : Prop :=
  ∀ chunk ∈ reads, chunk ≠ [] ∧ chunk.length ≤ cfg.readChunkSize

/-- The public calls. -/
inductive ChannelFd.Step : ChannelFd → ChannelFd → Prop
  | send {chn chn' : ChannelFd} {write : Bytes → Option Nat} {msg : Bytes} {st : ChannelStatus}
      (h : chnFdSend chn write msg = (st, chn')) : Step chn chn'
  | refresh {chn chn' : ChannelFd} {reads : List Bytes} {readEnd : ReadEnd} {st : ChannelStatus}
      (hreads : ReadChunks chn.cfg reads) (h : chnFdRefresh chn reads readEnd = some (st, chn')) :
      Step chn chn'
  | receive {chn chn' : ChannelFd} {len : Nat} {r : Except ChannelStatus Bytes}
      (h : chnFdReceive chn len = (r, chn')) : Step chn chn'

/-- A channel from its construction on. -/
def channelFdSystem : TransitionSystem ChannelFd where
  init chn := ∃ cfg msgBuf, msgBuf.length = chnFdMsgSize cfg.maxMsgSize ∧
    newChannelFd cfg msgBuf = .ok chn
  step := ChannelFd.Step

end Chlibs.Channel
