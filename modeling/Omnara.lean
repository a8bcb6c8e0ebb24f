import Omnara.Kernel.Proof.CompactionPlan
import Omnara.Store.Proof.Batches
import Omnara.Store.Proof.Checkpoints
import Omnara.Store.Proof.QueueRuns
import Omnara.Daemon.Proof.OutputFile
import Omnara.Sse.Proof.EventStream
import Omnara.OpenAIChatCompletions.Proof.Replay
import Omnara.OpenAIResponses.Proof.Replay
import Omnara.Route.RequestPairing
import Omnara.Runner.Proof.ActionServer
import Omnara.Skills.Proof.Archive
import Omnara.Tools.Proof.ReadFile
import Omnara.Tools.Proof.SearchFiles
import Omnara.Kernel.Proof.StreamBrackets
import Omnara.Compaction.Proof.Window
import Omnara.Compaction.Proof.Candidate
import Omnara.OpenAIChatCompletions.Proof.Agreement
import Omnara.AnthropicMessages.Proof.Agreement
import Omnara.Catalog.McpNames
import Omnara.Catalog.PublicId
import Omnara.ModelContext.Reducer
import Omnara.Store.Proof.Histories
