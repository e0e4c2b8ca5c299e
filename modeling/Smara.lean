import Smara.TaskStore.ApprovalGate
import Smara.TaskStore.Attempts
import Smara.TaskStore.Decision
import Smara.TaskStore.Handouts
import Smara.TaskStore.Replay
import Smara.Store.Deletion
import Smara.Store.Redeem
import Smara.Store.Replays
import Smara.Goals.Owner
import Smara.Goals.Budget
import Smara.Goals.Approvals
import Smara.Goals.Review
import Smara.Goals.Fencing
import Smara.Session.Items
import Smara.Session.Retention
import Smara.Session.Orphans
import Smara.Session.Outcomes
import Smara.Harness.Receipts
import Smara.Harness.Allowance
import Smara.Flow.Drain
import Smara.Flow.Validation
import Smara.Research.Bounds
import Smara.Research.Validation
import Smara.Research.Watches
import Smara.Provider.Budgets
import Smara.Server.Paid
import Smara.Server.Outbox
import Smara.Server.Tasks
import Smara.Server.Cards
import Smara.Server.Gates
import Smara.Server.Confinement
import Smara.Outreach.Dispatch
import Smara.Server.Revocation
import Smara.Server.Memory
import Smara.Server.Invites
import Smara.Server.Secrets
import Smara.Server.Context
import Smara.Server.Collected
import Smara.Server.TallySync
import Smara.Ingest.Mapped
import Smara.Server.PayLinks
import Smara.Files.PatchFrame
import Smara.Store.Compaction
import Smara.Desktop.LocalApprovals
import Smara.Desktop.LocalLosses
import Smara.Desktop.Scheduler
import Smara.Desktop.Terminals
import Smara.Native.Outbox
import Smara.Native.Admission
import Smara.Native.Changes
import Smara.Native.Post
import Smara.Files.Refactor
import Smara.Agent.TaskPlanner
import Smara.Harness.Polling
import Smara.Harness.Revision
import Smara.Agent.ContextPacking
import Smara.Agent.GoalRunner
import Smara.Research.Evidence
import Smara.Provider.Streaming
import Smara.Native.QuotedPaths
import Smara.Server.Gstin
import Smara.Limiter.Bucket
import Smara.Search.CodeGraph
import Smara.Search.Index
import Smara.Desktop.Output
