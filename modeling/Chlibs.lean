import Chlibs.Channel.FdAccess
import Chlibs.Channel.FdOversize
import Chlibs.Channel.LocalFifo
import Chlibs.Chat.Screen
import Chlibs.Chat.ServerThreads
import Chlibs.Json.CodePoints
import Chlibs.Json.Hashing
import Chlibs.Json.Keys
import Chlibs.Json.Leaks
import Chlibs.Json.Numbers
import Chlibs.Json.Output
import Chlibs.Json.SelfEquality
import Chlibs.Rpc.Correlation
import Chlibs.Rpc.Disconnect
import Chlibs.Rpc.EndToEnd
import Chlibs.Serial.Release
import Chlibs.Serial.Roundtrip
import Chlibs.Serial.Truncation
import Chlibs.Serial.TypeRoundtrip
import Chlibs.Sys.Malloc
import Chlibs.Sys.Signals
import Chlibs.Util.HeapRuns
import Chlibs.Util.ListAccess
import Chlibs.Util.ListSequence
import Chlibs.Util.MapIteration
import Chlibs.Util.QueueFifo
import Chlibs.Util.StringSubstring
