import Senko.Store.ActiveExpiry
import Senko.Store.StreamIds
import Senko.Store.StreamPending
import Senko.Store.DumpStream
import Senko.Proto.ParserSafe
import Senko.Net.RoutedReplies
import Senko.Net.GlobalScan
import Senko.Net.ShardedSets
import Senko.Cluster.SlotOwners
import Senko.Cluster.Election
import Senko.Cluster.PartialResync
import Senko.Store.SetCard
import Senko.Store.ListMoves
import Senko.Store.ScoreRange
import Senko.PubSub.Slot
import Senko.Store.BitOp
import Senko.Core.Bloom
import Senko.Core.ListpackScan
import Senko.Sentinel.Election
import Senko.Ts.Aggregate
import Senko.Json.ArrayRange
