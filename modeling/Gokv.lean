import Gokv.Base.LittleEndian
import Gokv.Base.Newest
import Gokv.Base.Forgetful
import Gokv.Base.Run
import Gokv.Base.Linear
import Gokv.Base.Moments
import Gokv.Base.Links
import Gokv.Base.Weight
import Gokv.Engine.Record
import Gokv.Engine.Batch
import Gokv.Engine.Scan
import Gokv.Engine.Index
import Gokv.Engine.Hint
import Gokv.Engine.Manifest
import Gokv.Engine.Store
import Gokv.Engine.Recover
import Gokv.Engine.Compact
import Gokv.Engine.Disk
import Gokv.Engine.Invariant
import Gokv.Engine.Write
import Gokv.Engine.Local
import Gokv.Engine.Recovery
import Gokv.Engine.Reopen
import Gokv.Engine.Merge
import Gokv.Engine.Publish
import Gokv.Engine.Trail
import Gokv.Engine.Compaction
import Gokv.Engine.History
import Gokv.Engine.Refinement
import Gokv.Engine.Racing
import Gokv.Engine.Faults
import Gokv.Engine.Range
import Gokv.Engine.Abandoned
import Gokv.Engine.Tally
import Gokv.Engine.Alone
import Gokv.Engine.Merged
import Gokv.Engine.Ledger
import Gokv.Engine.Wide
import Gokv.Engine.Crash
import Gokv.Engine.Sequence
import Gokv.Engine.CrashPoint
import Gokv.Engine.Source
import Gokv.Engine.Ranges
import Gokv.Engine.Replica
import Gokv.Engine.Appending
import Gokv.Engine.Streamed
import Gokv.Engine.Replays
import Gokv.Engine.Fallback
import Gokv.Engine.Layouts
import Gokv.Engine.Convergence
import Gokv.Engine.Admission
import Gokv.Engine.Acknowledged
import Gokv.Engine.Chronicle
import Gokv.Engine.Writer
import Gokv.Engine.Lineage
import Gokv.Engine.ScanRace
import Gokv.Engine.Restart
import Gokv.Engine.Copy
import Gokv.Engine.Tidied
import Gokv.Engine.Midway
import Gokv.Engine.GivenUp
import Gokv.Engine.Shipping
import Gokv.Engine.Beside
import Gokv.Engine.Crossing
import Gokv.Engine.Sessions
import Gokv.Engine.Transparency
import Gokv.Engine.SkipList
import Gokv.Cluster.State
import Gokv.Cluster.Control
import Gokv.Cluster.CatchUp
import Gokv.Cluster.Stream
import Gokv.Cluster.Relay
import Gokv.Cluster.Rebuild
import Gokv.Cluster.World
import Gokv.Cluster.Patience
import Gokv.Cluster.Election
import Gokv.Cluster.Following
import Gokv.Client.Wire
import Gokv.Client.Connection
import Gokv.Client.Retry
import Gokv.Proto.Codec
import Gokv.Proto.BatchRequest
import Gokv.Proto.RangeReply
import Gokv.Proto.Forward
import Gokv.Proto.Handle
