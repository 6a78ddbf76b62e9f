import Cget.Lib.Prog
import Cget.Lib.Fair
import Cget.Lib.InStep
import Cget.Lib.Runs
import Cget.Lib.Slices
import Cget.Lib.Meter
import Cget.Lib.Binary64
import Cget.FileSystem
import Cget.World
import Cget.Persistence
import Cget.Commit
import Cget.Planner
import Cget.ChunkWorker
import Cget.Engine
import Cget.Scheduler
import Cget.Manager
import Cget.OutputPath
import Cget.ChunkRule
import Cget.Ownership
import Cget.Pool
import Cget.RetryPause
import Cget.Frame
import Cget.Merge
import Cget.Concatenation
import Cget.Destination
import Cget.MetadataGuard
import Cget.Reloadable
import Cget.Resume
import Cget.Sessions
import Cget.Blocking
import Cget.Selection
import Cget.RateLimiter
import Cget.Json
import Cget.JsonRoundTrip
import Cget.JsonObject
import Cget.JsonNumbers
import Cget.Layout
import Cget.Operations
import Cget.Unforced
import Cget.Transitions
import Cget.Conformance
import Cget.TaskJson
import Cget.ReadBack
import Cget.Quotas
import Cget.Coverage
import Cget.Settlement
import Cget.Delivery
import Cget.Partition
import Cget.Strings
import Cget.Network
import Cget.Bandwidth
import Cget.Config
import Cget.DecimalOptions
import Cget.Settings
import Cget.Abreast
import Cget.FinishOrder
import Cget.Visible
import Cget.Removal
import Cget.Isolation
import Cget.CreationOrder
import Cget.StoredIntegers
import Cget.SettingValues
import Cget.BandwidthFormat
import Cget.BandwidthRange
import Cget.BandwidthLanguage
import Cget.VisibleSettings
import Cget.Reconciliation
import Cget.RetryPolicy
import Cget.Appending
import Cget.Fate
import Cget.ScheduledFates
import Cget.PoolFates
import Cget.Endings
import Cget.DestinationKept
import Cget.Twins
import Cget.Records
import Cget.Uncorrupted
import Cget.Agreement
import Cget.Mismatch
import Cget.Neighbours
import Cget.Noninterference
import Cget.Refinement
import Cget.Liveness
import Cget.Tally
import Cget.Sha256
import Cget.RemoteNames
import Cget.Waiting
import Cget.Precedence
import Cget.Passes
import Cget.ConfigCommit
import Cget.CommandLine
import Cget.Retention
import Cget.Salvage
import Cget.Serving
import Cget.QueueSettles
import Cget.Contagion
