import GajaeCode.NativeHashLines
import GajaeCode.LineDiffSearch
import GajaeCode.HashlineAtomic
import GajaeCode.SessionKeepsUp
import GajaeCode.FallbackChain
import GajaeCode.ApplyPatchEnvelope
import GajaeCode.NotebookText
import GajaeCode.SessionIndex
import GajaeCode.LedgerCompaction
import GajaeCode.LedgerReopening
import GajaeCode.TopicEpochs
import GajaeCode.RateLimitAccount
import GajaeCode.RateLimitFairness
import GajaeCode.ChatEffectFence
import GajaeCode.ReplySentStore
import GajaeCode.LeaseRelease
import GajaeCode.ConversationExclusive
import GajaeCode.TelegramWellFormed
import GajaeCode.TelegramChunks
import GajaeCode.SseStream
import GajaeCode.SecretRoundTrip
import GajaeCode.StdinReports
import GajaeCode.BracketedPaste
import GajaeCode.DeepInterview
import GajaeCode.TeamRecovery
import GajaeCode.HashlineFirstChanged
import GajaeCode.HashlineEof
import GajaeCode.HarmonyRecovery
import GajaeCode.ResumeQueue
import GajaeCode.CompactionCuts
import GajaeCode.HashlinePrint
import GajaeCode.ReplaceText
import GajaeCode.PatchReplacements
import GajaeCode.MiddleTruncation
import GajaeCode.ColumnCap
import GajaeCode.OutputSinkElision
import GajaeCode.ArtifactMirror
import GajaeCode.AppendOnlyContext
import GajaeCode.ToolOutputPruning
import GajaeCode.GateSatisfaction
import GajaeCode.SessionRepair
import GajaeCode.TaskCreation
import GajaeCode.DrainDeliveries
import GajaeCode.FailedAppend
import GajaeCode.RingBuffer
import GajaeCode.ToolCallSections
import GajaeCode.JobOutput
