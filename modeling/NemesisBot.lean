import NemesisBot.Lib.Runs
import NemesisBot.Security.AuditChain
import NemesisBot.Security.AuditTamper
import NemesisBot.Security.AuditSegments
import NemesisBot.Security.Merkle
import NemesisBot.Lib.Strings
import NemesisBot.Lib.Glob
import NemesisBot.Lib.Json
import NemesisBot.Lib.Cycles
import NemesisBot.Security.Command
import NemesisBot.Security.CommandQuoting
import NemesisBot.Security.ApprovalRules
import NemesisBot.Security.Matcher
import NemesisBot.Security.Auditor
import NemesisBot.Security.AuditorPrecedence
import NemesisBot.Workflow.Types
import NemesisBot.Workflow.References
import NemesisBot.Workflow.Registry
import NemesisBot.Workflow.Events
import NemesisBot.Workflow.Cancel
import NemesisBot.Workflow.Context
import NemesisBot.Workflow.Conditions
import NemesisBot.Workflow.TopologicalSort
import NemesisBot.Workflow.Scheduler
import NemesisBot.Workflow.Composite
import NemesisBot.Workflow.HonestFailure
import NemesisBot.Workflow.ScheduleOrder
import NemesisBot.Workflow.Resume
import NemesisBot.Workflow.BranchDecision
import NemesisBot.Workflow.ResumeContext
import NemesisBot.Agent.Types
import NemesisBot.Agent.ToolPairs
import NemesisBot.Agent.SendableHistory
import NemesisBot.Agent.TurnWal
import NemesisBot.Agent.SessionStore
import NemesisBot.Agent.SessionFork
import NemesisBot.Agent.CheckpointJson
import NemesisBot.Lib.Worklist
import NemesisBot.Agent.CheckpointGc
import NemesisBot.Agent.CheckpointGcSafe
import NemesisBot.Agent.Rewind
import NemesisBot.Agent.Compaction
import NemesisBot.Agent.CompactionRuns
import NemesisBot.Agent.CompactionCover
import NemesisBot.Cluster.ChangesetDelivery
import NemesisBot.Cluster.Transfer
import NemesisBot.Cluster.ExecWorkspace
import NemesisBot.Cluster.ChangesetDiff
import NemesisBot.Cluster.ChangesetFiles
import NemesisBot.Cluster.ChangesetLaw
import NemesisBot.Cluster.TaskManager
import NemesisBot.Cluster.TaskResultStore
import NemesisBot.Cluster.ContinuationKept
import NemesisBot.Cluster.Trust
import NemesisBot.Cluster.MandateSound
import NemesisBot.Taskstore.TasksRefine
import NemesisBot.Taskstore.Deliveries
import NemesisBot.Taskstore.RunLedger
import NemesisBot.Taskstore.LedgerRuns
import NemesisBot.Verify.PeBinding
import NemesisBot.Verify.SignedVerifies
import NemesisBot.Workflow.EdgeConditions
import NemesisBot.Board.PlanAgreement
import NemesisBot.Providers.StreamedReplies
import NemesisBot.Providers.Cooldown
import NemesisBot.Providers.Fallback
import NemesisBot.Board.Quota
import NemesisBot.Board.FailStreak
import NemesisBot.Board.Matcher
import NemesisBot.Board.WakePlans
import NemesisBot.Board.DispatchRuns
import NemesisBot.Board.ParentChains
import NemesisBot.Security.DenyPrefix
import NemesisBot.Security.Payloads
import NemesisBot.Security.SelfDestruct
import NemesisBot.Cron.Saving
import NemesisBot.Cron.Firing
import NemesisBot.Cluster.ChunkPlan
import NemesisBot.Cluster.Collect
import NemesisBot.Cluster.Assembly
import NemesisBot.Cluster.Outbox
import NemesisBot.Cluster.PushLoop
import NemesisBot.Cluster.PushStories
import NemesisBot.Cluster.TransferSink
import NemesisBot.Cluster.TransferPush
import NemesisBot.Cluster.SinkLandings
import NemesisBot.Cluster.SinkIndex
import NemesisBot.Cluster.SinkMoves
import NemesisBot.Cluster.SinkEnds
import NemesisBot.Cluster.DeliveredLanded
import NemesisBot.Agent.CheckpointRetention
import NemesisBot.Security.PathRules
import NemesisBot.Agent.Inbox
import NemesisBot.Agent.Prune
import NemesisBot.Utils.MessageFences
import NemesisBot.Agent.FuzzyEdit
import NemesisBot.Utils.SegmentNames
import NemesisBot.Utils.WorkPoolCancels
import NemesisBot.Verify.NeverPanics
import NemesisBot.Providers.StreamChunks
