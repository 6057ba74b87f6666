import VivadoServer.Lib.StepSystem
import VivadoServer.History.Disk
import VivadoServer.History.Gaps
import VivadoServer.History.Machine
import VivadoServer.History.Page
import VivadoServer.History.Browse
import VivadoServer.History.Retention
import VivadoServer.History.Account
import VivadoServer.History.Recovery
import VivadoServer.History.Codec
import VivadoServer.History.Chunks
import VivadoServer.History.Collector
import VivadoServer.Lib.Ledger
import VivadoServer.History.Cursor
import VivadoServer.History.Frame
import VivadoServer.History.Journal
import VivadoServer.History.Durable
import VivadoServer.History.Acknowledged
import VivadoServer.History.Window
import VivadoServer.History.Directory
import VivadoServer.History.Restart
import VivadoServer.Lib.Trace
import VivadoServer.Sessions.Model
import VivadoServer.Sessions.Output
import VivadoServer.Sessions.Decoder
import VivadoServer.Lib.Utf8
import VivadoServer.Lib.Json
import VivadoServer.Sessions.Utf8
import VivadoServer.Sessions.Process
import VivadoServer.Sessions.Stat
import VivadoServer.Sessions.Supervisor
import VivadoServer.Sessions.Cleanup
import VivadoServer.Sessions.Stdin
import VivadoServer.Error
import VivadoServer.Lib.Tasks
import VivadoServer.Lib.Calls
import VivadoServer.Lib.RwLock
import VivadoServer.Sync.Model
import VivadoServer.Sync.Manager
import VivadoServer.Sync.Outline
import VivadoServer.Sync.Steps
import VivadoServer.Sync.Store
import VivadoServer.Sync.Commit
import VivadoServer.Sync.Calls
import VivadoServer.Workflows.Sessions
import VivadoServer.Workflows.Model
import VivadoServer.Workflows.Manager
import VivadoServer.Workflows.Record
import VivadoServer.Workflows.Outline
import VivadoServer.Workflows.Moves
import VivadoServer.Workflows.Steps
import VivadoServer.Workflows.Lifecycle
import VivadoServer.Lib.SortDedup
import VivadoServer.Lib.FileTree
import VivadoServer.Lib.Fold
import VivadoServer.Lib.Replacement
import VivadoServer.Lib.Triple
import VivadoServer.Sync.Path
import VivadoServer.Sync.Manifest
import VivadoServer.Sync.Scan
import VivadoServer.Sync.Closure
import VivadoServer.Sync.Plan
import VivadoServer.Sync.Pull
import VivadoServer.Sync.Disk
import VivadoServer.Sync.Transaction
import VivadoServer.Sync.Rollback
import VivadoServer.Sync.Apply
import VivadoServer.Sync.Restore
import VivadoServer.Sync.Effect
import VivadoServer.Sync.Checks
import VivadoServer.Lib.UnixPath
import VivadoServer.Sync.Grammar
import VivadoServer.Sync.Protect
import VivadoServer.Sync.Reset
import VivadoServer.Projects.Marker
import VivadoServer.Projects.Safety
import VivadoServer.Projects.Operations
import VivadoServer.Projects.Reuse
import VivadoServer.Workspace.Read
import VivadoServer.Workspace.Times
import VivadoServer.Lib.Openat
import VivadoServer.Workspace.Open
import VivadoServer.Workspace.Browse
import VivadoServer.Workspace.Inside
import VivadoServer.Workspace.Shown
import VivadoServer.Workspace.Snapshot
import VivadoServer.Workspace.Quiet
import VivadoServer.Workspace.Export
import VivadoServer.Body.Held
import VivadoServer.Body.Observed
import VivadoServer.Logging.Rotation
import VivadoServer.Diagnostics.Writer
import VivadoServer.Diagnostics.Retention
import VivadoServer.Diagnostics.Limits
import VivadoServer.Diagnostics.Account
import VivadoServer.Logging.Retained
