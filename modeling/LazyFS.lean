import LazyFS.Support.Bytes
import LazyFS.Support.Map
import LazyFS.Support.Programs
import LazyFS.Support.Periods
import LazyFS.Support.Regex
import LazyFS.Support.Runs
import LazyFS.Support.FileSpec
import LazyFS.Model.Config
import LazyFS.Model.Memory
import LazyFS.Model.Backing
import LazyFS.Model.Page
import LazyFS.Model.Engine
import LazyFS.Model.Item
import LazyFS.Model.Cache
import LazyFS.Model.Faults
import LazyFS.Model.FileOps
import LazyFS.Model.ReadAccesses
import LazyFS.Model.Hooks
import LazyFS.Model.FaultRoutes
import LazyFS.Model.Directory
import LazyFS.Model.NameOps
import LazyFS.Model.Calls
import LazyFS.Model.LogGroups
import LazyFS.Model.Lfscheck
import LazyFS.Rep.Pages
import LazyFS.Rep.Table
import LazyFS.Rep.Store
import LazyFS.Rep.Allocate
import LazyFS.Rep.Remove
import LazyFS.Rep.Sync
import LazyFS.Rep.Items
import LazyFS.Rep.CacheOps
import LazyFS.Rep.ItemOps
import LazyFS.Rep.Invariant
import LazyFS.Rep.Marks
import LazyFS.Rep.Names
import LazyFS.Rep.Lru
import LazyFS.Rep.Tidy
import LazyFS.File.View
import LazyFS.File.Holds
import LazyFS.File.Pool
import LazyFS.File.Cached
import LazyFS.File.Opened
import LazyFS.File.Request
import LazyFS.File.Write
import LazyFS.File.WriteOp
import LazyFS.File.TruncateOp
import LazyFS.File.Read
import LazyFS.File.ReadOp
import LazyFS.File.Flush
import LazyFS.File.SyncOp
import LazyFS.File.Durable
import LazyFS.File.Ops
import LazyFS.File.Room
import LazyFS.File.Kept
import LazyFS.File.Large
import LazyFS.File.Times
import LazyFS.File.Links
import LazyFS.File.Intact
import LazyFS.Model.Report
import LazyFS.Model.Worker
import LazyFS.Hooks.Crash
import LazyFS.Hooks.Clear
import LazyFS.Hooks.Torn
import LazyFS.Hooks.Parts
import LazyFS.Hooks.Marks
import LazyFS.Hooks.Plain
import LazyFS.Hooks.Tearing
import LazyFS.Hooks.Follow
import LazyFS.Hooks.TornFiles
import LazyFS.Hooks.Stages
import LazyFS.Hooks.Calls
import LazyFS.Hooks.TornCalls
import LazyFS.Guarantees.FailedNames
import LazyFS.Guarantees.DirectoryRename
import LazyFS.Guarantees.Framing
import LazyFS.Guarantees.LogRounds
import LazyFS.Guarantees.LogGrouping
import LazyFS.Hooks.TornOps
import LazyFS.Guarantees.TornOp
import LazyFS.Rep.Slots
import LazyFS.Rep.Split
import LazyFS.Guarantees.Recency
import LazyFS.Guarantees.LruList
import LazyFS.Guarantees.MultiBlock
import LazyFS.Guarantees.NameCalls
import LazyFS.Guarantees.WriteBack
import LazyFS.Guarantees.SyncReads
import LazyFS.Guarantees.Timestamps
import LazyFS.Guarantees.FailedWrites
import LazyFS.Guarantees.FullPut
import LazyFS.Guarantees.Summary
import LazyFS.Guarantees.Growth
import LazyFS.Guarantees.BlockIds
import LazyFS.Guarantees.Clearing
import LazyFS.Guarantees.Truncation
import LazyFS.Guarantees.TornCrash
import LazyFS.Guarantees.Fsync
import LazyFS.Guarantees.Shrink
import LazyFS.Guarantees.UnsyncedReport
import LazyFS.Guarantees.CrashConsistency
import LazyFS.Guarantees.CrashFaults
import LazyFS.Guarantees.Commands
import LazyFS.Guarantees.TornSafe
import LazyFS.Guarantees.ClearFaults
import LazyFS.Guarantees.Occurrence
import LazyFS.Guarantees.Eviction
import LazyFS.Guarantees.ReadYourWrites
import LazyFS.Guarantees.Handles
import LazyFS.Guarantees.ReadBounds
import LazyFS.Guarantees.Lfscheck
import LazyFS.Guarantees.Transparent
import LazyFS.Guarantees.PowerLoss
import LazyFS.Guarantees.TornLoss
import LazyFS.Guarantees.Checkpoint
import LazyFS.Guarantees.Names
import LazyFS.Guarantees.Refinement
