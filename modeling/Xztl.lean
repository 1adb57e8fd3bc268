import Xztl.Support.TailQueue
import Xztl.Support.Fence
import Xztl.Support.Runs
import Xztl.Support.Bytes
import Xztl.Ztl.Types
import Xztl.Ztl.Provision
import Xztl.Ztl.Populate
import Xztl.Ztl.Submit
import Xztl.Ztl.Progress
import Xztl.Ztl.Write
import Xztl.Ztl.Alloc
import Xztl.Ztl.Pieces
import Xztl.Ztl.Mgmt
import Xztl.Ztl.Attempts
import Xztl.Ztl.Init
import Xztl.Ztl.NodeInit
import Xztl.Ztl.NodeCounts
import Xztl.Ztl.Concurrent
import Xztl.Ztl.Read
import Xztl.Ztl.Serve
import Xztl.Ztl.Contexts
import Xztl.Ztl.Admission
import Xztl.Ztl.Sequential
import Xztl.Zrocks.Api
import Xztl.Zrocks.Reading
import Xztl.Zrocks.Accounting
import Xztl.Zrocks.Steps
import Xztl.Zrocks.Cycle
import Xztl.Zrocks.Ownership
import Xztl.Zrocks.Stripe
import Xztl.Zrocks.Finish
import Xztl.Zrocks.Stranded
import Xztl.Zrocks.TrimRace
import Xztl.Zrocks.Depth
import Xztl.Zrocks.RoundTrip
import Xztl.Zrocks.Encoding
import Xztl.Zrocks.Report
import Xztl.Zrocks.Pointers
import Xztl.Zrocks.Rebuild
import Xztl.Zrocks.Reclaim
import Xztl.Zrocks.Candidates
import Xztl.Zrocks.Levels
import Xztl.Env.Metadata
import Xztl.Env.Types
import Xztl.Env.Record
import Xztl.Env.Flush
import Xztl.Env.Log
import Xztl.Env.Load
import Xztl.Env.Replay
import Xztl.Env.Files
import Xztl.Env.ReadFile
import Xztl.Env.Stored
import Xztl.Env.Gc
import Xztl.Env.GcBytes
import Xztl.Env.GcUnits
import Xztl.Env.Agree
import Xztl.Env.Refine
import Xztl.Env.Restart
import Xztl.Env.Codec
import Xztl.Env.Writers
import Xztl.Env.Loading
import Xztl.Env.Snapshots
import Xztl.Env.Recreate
import Xztl.Env.Valid
import Xztl.Env.Contents
import Xztl.Env.CacheReads
import Xztl.Env.ClosedReads
import Xztl.Env.EmptyCache
import Xztl.Env.Selection
import Xztl.Env.Collector
import Xztl.Env.Sizes
import Xztl.Env.Levels
import Xztl.Env.Index
import Xztl.Env.Race
import Xztl.Ztl.Map
import Xztl.Ztl.Geometry
import Xztl.Support.Mutex
import Xztl.Env.MapLock
import Xztl.Zrocks.ReadResources
import Xztl.Ztl.Mempool
import Xztl.Ztl.Latency
import Xztl.Ztl.MapRace
import Xztl.Ztl.Split
import Xztl.Support.Scanf
import Xztl.Zrocks.Options
import Xztl.Env.Errors
