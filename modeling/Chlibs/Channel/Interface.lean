import Mathlib

/-!
# Channels

The statuses of `channel.h`.
-/

namespace Chlibs.Channel

/-- `channel_status_t` -/
inductive ChannelStatus where
  | success
  | invalidArgs
  | bufferTooSmall
  | invalidMsgSize
  | noIncomingMsg
  | memError
  | channelFull
  | unknownError
  | cannotWrite
  | cannotRead
  | closed
  deriving DecidableEq, Repr

end Chlibs.Channel
