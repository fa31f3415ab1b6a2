import GhostyCode.ExecPolicy.Rulesets
import GhostyCode.CommandSafety.Readonly
import GhostyCode.Conversation.Anthropic
import GhostyCode.Conversation.ChatPairing
import GhostyCode.Stream.Stored
import GhostyCode.ApplyPatch.Placement
import GhostyCode.ApplyPatch.KeptLines
import GhostyCode.Fleet.Budget
import GhostyCode.Fleet.EventReplay
import GhostyCode.Fleet.Resume
import GhostyCode.ExecPolicy.Backticks
import GhostyCode.ExecPolicy.Leads
import GhostyCode.ExecPolicy.Wrapped
import GhostyCode.ExecPolicy.Spelled
import GhostyCode.WorkGraph.PlanDiff
import GhostyCode.Tools.PatchApproval
import GhostyCode.Tools.RepoLaw
import GhostyCode.Tools.ArgRepaired
import GhostyCode.Conversation.Purge
import GhostyCode.Lane.Registry
import GhostyCode.Outbox.Reopened
import GhostyCode.State.IndexRun
import GhostyCode.Tools.ContractFrame
import GhostyCode.Tools.IndentEdit
import GhostyCode.ExecPolicy.Rendered
import GhostyCode.Stream.Chunking
import GhostyCode.WorkGraph.Paths
import GhostyCode.Compaction.Summary
import GhostyCode.Journal
import GhostyCode.Tools.ResourceAdmission
