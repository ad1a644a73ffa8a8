import ZunServer.Runs
import ZunServer.KeyedTable
import ZunServer.EventLoop
import ZunServer.BinaryFloat
import ZunServer.DirTree
import ZunServer.UnixPath
import ZunServer.Removals
import ZunServer.DiskUsage
import ZunServer.Serde
import ZunServer.Schema
import ZunServer.Statements
import ZunServer.Redact
import ZunServer.Comfy
import ZunServer.Database
import ZunServer.Calls
import ZunServer.Completion
import ZunServer.Renditions
import ZunServer.Worker
import ZunServer.Handlers
import ZunServer.CustomPrompts
import ZunServer.Purge
import ZunServer.Server
import ZunServer.SubmitSteps
import ZunServer.Rows
import ZunServer.Lifecycle
import ZunServer.RowInvariant
import ZunServer.SingleRunner
import ZunServer.Interrupts
import ZunServer.Submission
import ZunServer.Attempts
import ZunServer.InputCache
import ZunServer.FirstUpload
import ZunServer.JobFiles
import ZunServer.Paths
import ZunServer.FileWrites
import ZunServer.ContentAddressed
import ZunServer.Retention
import ZunServer.LiveInputs
import ZunServer.Outputs
import ZunServer.RenditionFiles
import ZunServer.PurgeRuns
import ZunServer.DryRun
import ZunServer.WakeUps
import ZunServer.LongPoll
import ZunServer.Keyset
import ZunServer.Listing
import ZunServer.PromptPatches
import ZunServer.Redaction
import ZunServer.Workflows
import ZunServer.AtomicWrites
import ZunServer.Migrations
import ZunServer.Upgraded
import ZunServer.Catalog
import ZunServer.ValidRows
import ZunServer.Draining
import ZunServer.Drain
import ZunServer.QueueOrder
import ZunServer.Progress
import ZunServer.Serial
import ZunServer.PromptRaces
import ZunServer.Provenance
import ZunServer.Resubmission
import ZunServer.ComfyHttp
import ZunServer.Shutdown
import ZunServer.Backups
import ZunServer.Observers
import ZunServer.Serving
import ZunServer.UndoWindow
import ZunServer.Answers
import ZunServer.PurgeSeries
import ZunServer.RenditionSources
import ZunServer.Overtaking
import ZunServer.SubmitForms
import ZunServer.RenditionAnswers
import ZunServer.Requests
