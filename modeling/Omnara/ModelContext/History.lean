import Omnara.ModelContext.ContentBlocks

/-!
# The canonical history (`internal/modelcontext/history.go`)

`canonicalHistory` walks the messages of a bundle, pairs the tool-call blocks of every assistant
message with the tool results of its model call, and marks assistant messages that stopped at the
output limit. The map of results by model call is the list of the results not consumed yet: a lookup
filters it by model call, `delete` removes them.
-/

namespace ModelContext

open Json (Bytes ascii)

/-- `modelenvelope.StopReason`; `none` is the empty reason of messages that are no model outputs. -/
inductive StopReason
  | none | endTurn | toolUse | maxTokens | refusal | contentFilter | pause | contextWindow | error
  | unknown
  deriving DecidableEq

structure ProviderReplayIdentity where
  modelProviderConfigId : Bytes := []
  requestedProviderModelSlug : Bytes := []
  apiFormat : Bytes := []
  apiVariant : Bytes := []
  deriving DecidableEq

structure Message where
  id : Bytes
  modelCallContextId : Bytes := []
  role : MessageRole
  sequence : Int
  content : Bytes
  providerReplay : Bytes := []
  providerReplaySource : ProviderReplayIdentity := {}
  stopReason : StopReason := .none
  deriving DecidableEq

inductive ToolResultOutcome
  | succeeded | failed | denied | canceled | other (name : Bytes)
  deriving DecidableEq

structure ToolResultRef where
  toolCallId : Bytes
  durableId : Bytes
  modelCallContextId : Bytes
  providerCallId : Bytes := []
  name : Bytes
  input : Bytes
  outcome : ToolResultOutcome := .succeeded
  contentParts : Bytes
  deriving DecidableEq

inductive AttachmentKind
  | image | document | other (name : Bytes)
  deriving DecidableEq

structure ResolvedMedia where
  kind : AttachmentKind
  mediaType : Bytes
  filename : Bytes := []
  data : Bytes
  deriving DecidableEq

/-- The parts of a bundle the history and the provider requests are made of. The texts that are
projected from other parts are kept as they come out: `ProjectedSystemPrompt`,
`ProjectedCheckpointContent` of the checkpoint, if there is one, and
`AvailableMachinePoolsContent` and `IntegrationTargetsContent`, if the tools ask for them. -/
structure Bundle where
  messages : List Message
  toolResults : List ToolResultRef
  systemPrompt : Bytes := []
  contextCheckpoint : Option Bytes := none
  machinePools : Option Bytes := none
  integrationTargets : Option Bytes := none
  /-- The map from artifact ids. -/
  resolvedMedia : List (Bytes × ResolvedMedia) := []

inductive AssistantContentEntry
  | block (content : Bytes)
  | toolCall (result : ToolResultRef)
  deriving DecidableEq

structure HistoryEntry where
  sequence : Int
  message : Message
  assistantContent : List AssistantContentEntry := []
  toolResults : List ToolResultRef := []
  deriving DecidableEq

/-- Errors of `canonicalAssistantContent`. -/
inductive AssembleError
  /-- the error of `json.Unmarshal` -/
  | json
  /-- `content must be a JSON array` -/
  | notArray
  /-- `tool result is missing its tool call id` -/
  | missingCallId
  /-- `duplicate tool result for tool call %s` -/
  | duplicateResult (callId : Bytes)
  /-- `decode content block %d: %w` -/
  | decodeBlock (index : Nat)
  /-- `content block %d has an invalid tool call link` -/
  | invalidLink (index : Nat)
  /-- `tool call %s has no completed result` -/
  | noResult (callId : Bytes)
  /-- `tool call %s appears more than once` -/
  | repeatedCall (callId : Bytes)
  /-- `tool result has no canonical tool call block` -/
  | unusedResult
  deriving DecidableEq

/-- Errors of `CanonicalHistory`. -/
inductive HistoryError
  /-- `tool result is missing its model call context` -/
  | resultMissingContext
  /-- `model context message event sequence is required` -/
  | sequenceRequired
  /-- `message %s content: %w` -/
  | content (messageId : Bytes) (err : ContentError)
  /-- `model context has duplicate model call context messages` -/
  | duplicateContext
  /-- `tool results are linked to a non-assistant message` -/
  | nonAssistantResults
  /-- `assemble assistant message %s: %w` -/
  | assemble (messageId : Bytes) (err : AssembleError)
  /-- `tool results are missing their source model output` -/
  | resultsMissingSource
  deriving DecidableEq

/-! ## One assistant message -/

/-- The first loop of `canonicalAssistantContent` (`resultIndexByCallID`). -/
def checkResultIds : List Bytes → List ToolResultRef → Except AssembleError Unit
  | _, [] => .ok ()
  | seen, r :: results =>
    if r.toolCallId = [] then .error .missingCallId
    else if r.toolCallId ∈ seen then .error (.duplicateResult r.toolCallId)
    else checkResultIds (r.toolCallId :: seen) results

/-- The tool-call link of a block: `none` for a block of another type. -/
def blockLink (index : Nat) (block : Bytes) : Except AssembleError (Option Bytes) :=
  match decodeStringField block "type" with
  | none => .error (.decodeBlock index)
  | some kind =>
    if kind ≠ ascii "tool_call" then .ok none
    else match decodeStringField block "tool_call_id" with
      | none | some [] => .error (.invalidLink index)
      | some (c :: id) => .ok (some (c :: id))

/-- The second loop of `canonicalAssistantContent`; `used` are the indices of the results taken. -/
def assembleBlocks (results : List ToolResultRef) : Nat → List Nat → List Bytes →
    Except AssembleError (List AssistantContentEntry × List ToolResultRef)
  | _, used, [] => if used.length ≠ results.length then .error .unusedResult else .ok ([], [])
  | index, used, block :: blocks =>
    match blockLink index block with
    | .error err => .error err
    | .ok none =>
      match assembleBlocks results (index + 1) used blocks with
      | .error err => .error err
      | .ok (content, ordered) => .ok (.block block :: content, ordered)
    | .ok (some callId) =>
      match results.findIdx? (·.toolCallId = callId) with
      | none => .error (.noResult callId)
      | some i =>
        if i ∈ used then .error (.repeatedCall callId)
        else match results[i]? with
          | none => .error (.noResult callId)
          | some r =>
            match assembleBlocks results (index + 1) (i :: used) blocks with
            | .error err => .error err
            | .ok (content, ordered) => .ok (.toolCall r :: content, r :: ordered)

def canonicalAssistantContent (raw : Bytes) (results : List ToolResultRef) :
    Except AssembleError (List AssistantContentEntry × List ToolResultRef) :=
  match Json.unmarshalRawArray raw with
  | none => .error .json
  | some none => .error .notArray
  | some (some blocks) =>
    match checkResultIds [] results with
    | .error err => .error err
    | .ok () => assembleBlocks results 0 [] blocks

/-! ## The history -/

def outputLimitNotice : String :=
  "[Automatic Omnara harness notice] The preceding response reached its output limit and may be incomplete. Continue from where it stopped without repeating completed content. This notice was generated by the harness, not the user."

/-- The content of the notice entry, as `json.Marshal` writes it. -/
def noticeContent : Bytes :=
  ascii "[\x7b\"type\":\"text\",\"text\":\"" ++ ascii outputLimitNotice ++ ascii "\"\x7d]"

def noticeEntry (sequence : Int) : HistoryEntry where
  sequence := sequence
  message := { id := [], role := .user, sequence := sequence, content := noticeContent }

/-- The entries of one message: its own, and the notice after a cut-off output without tool
results. -/
def withNotice (entry : HistoryEntry) : List HistoryEntry :=
  if entry.message.role = .assistant ∧ entry.message.stopReason = .maxTokens ∧
      entry.toolResults.length = 0 then
    [entry, noticeEntry entry.message.sequence]
  else [entry]

/-- The loop of `CanonicalHistory`: contexts seen and results not consumed so far. -/
def historyLoop : List Bytes → List ToolResultRef → List Message →
    Except HistoryError (List HistoryEntry)
  | _, remaining, [] => if remaining.length ≠ 0 then .error .resultsMissingSource else .ok []
  | seen, remaining, m :: messages =>
    if m.sequence ≤ 0 then .error .sequenceRequired
    else match validateMessageContentBlocks m.role m.content with
      | .error err => .error (.content m.id err)
      | .ok () =>
        let ctx := m.modelCallContextId
        if ctx ≠ [] ∧ ctx ∈ seen then .error .duplicateContext
        else
          let seen' := if ctx ≠ [] then ctx :: seen else seen
          let results := remaining.filter (·.modelCallContextId = ctx)
          if m.role ≠ .assistant then
            if results.length ≠ 0 then .error .nonAssistantResults
            else match historyLoop seen' remaining messages with
              | .error err => .error err
              | .ok entries => .ok ({ sequence := m.sequence, message := m } :: entries)
          else match canonicalAssistantContent m.content results with
            | .error err => .error (.assemble m.id err)
            | .ok (content, ordered) =>
              match historyLoop seen' (remaining.filter (·.modelCallContextId ≠ ctx)) messages with
              | .error err => .error err
              | .ok entries => .ok (withNotice ⟨m.sequence, m, content, ordered⟩ ++ entries)

def canonicalHistory (bundle : Bundle) : Except HistoryError (List HistoryEntry) :=
  if bundle.toolResults.any (·.modelCallContextId = []) then .error .resultMissingContext
  else historyLoop [] bundle.toolResults bundle.messages

end ModelContext
