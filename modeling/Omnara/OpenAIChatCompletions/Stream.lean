import Omnara.Lib.Text
import Omnara.Model.Stream

/-!
# The chat completions stream accumulator (`internal/model/openaichatcompletions/stream.go`)

What `ConsumeStream` makes of the chunks of a provider stream. Text, reasoning and every tool call have
a block each, opened with their first delta; a finish reason stops the open ones, and a later delta
opens a new block. The decoding of a chunk, the texts of provider errors and the response made of what
was accumulated are left open (`Decoders`). Only the choice with index 0 is accepted, so there is at
most one.
-/

namespace OpenAIChatCompletions

open Json (Bytes ascii)
open Model
open ModelContext (StopReason)
open Text (formatInt trimSpace)

/-! ## Chunks -/

structure ToolCallDelta where
  index : Int
  id : Bytes
  type : Bytes
  name : Bytes
  arguments : Bytes
  deriving DecidableEq

/-- `chatStreamDelta`; the optional texts are raw JSON, empty if they are missing. -/
structure Delta where
  role : Bytes
  content : Bytes
  refusal : Bytes
  reasoning : Bytes
  reasoningContent : Bytes
  reasoningDetails : List Bytes
  toolCalls : List ToolCallDelta
  deriving DecidableEq

/-- `chatStreamChoice`; `error` is its error, if one is present. -/
structure Choice where
  index : Int
  delta : Delta
  finishReason : Bytes
  nativeFinishReason : Bytes
  error : Option Bytes
  deriving DecidableEq

structure TokenDetails where
  cachedTokens : Int := 0
  cacheWriteTokens : Int := 0
  reasoningTokens : Int := 0
  deriving DecidableEq

structure ChatUsage where
  promptTokens : Int := 0
  promptCacheHitTokens : Int := 0
  cachedTokens : Int := 0
  completionTokens : Int := 0
  openRouterCost : Bytes := []
  openRouterCostDetails : Bytes := []
  openRouterIsBYOK : Bytes := []
  promptTokensDetails : TokenDetails := {}
  completionTokensDetails : TokenDetails := {}
  deriving DecidableEq

/-- `chatStreamChunk`; `error` is its error, if one is present. -/
structure Chunk where
  id : Bytes
  model : Bytes
  provider : Bytes
  choices : List Choice
  usage : Option ChatUsage
  error : Option Bytes
  deriving DecidableEq

/-! ## State -/

structure ToolCallState where
  id : Bytes := []
  callType : Bytes := []
  name : Bytes := []
  arguments : Bytes := []
  pending : Bytes := []
  blockIndex : Int := 0
  blockOpen : Bool := false
  deriving DecidableEq

/-- The value of a field of a reasoning detail: as it came, or a text put together. -/
inductive FieldValue
  | raw (value : Bytes)
  | text (value : Bytes)
  deriving DecidableEq

structure ReasoningDetailState where
  fields : List (Bytes × FieldValue) := []
  text : Bytes := []
  summary : Bytes := []
  data : Bytes := []
  signature : Bytes := []
  deriving DecidableEq

/-- `chatStreamChoiceState`. The maps are lists of entries in the order of their first use. -/
structure ChoiceState where
  role : Bytes := []
  text : Bytes := []
  refusal : Bytes := []
  reasoning : Bytes := []
  reasoningContent : Bytes := []
  reasoningDetails : List (Bytes × ReasoningDetailState) := []
  finishReason : Bytes := []
  nativeFinishReason : Bytes := []
  textBlockIndex : Int := 0
  textBlockOpen : Bool := false
  reasoningBlockIndex : Int := 0
  reasoningBlockOpen : Bool := false
  toolCalls : List (Int × ToolCallState) := []
  deriving DecidableEq

/-- The emitter and `nextBlockIndex`. -/
structure Output where
  sink : Sink := []
  nextBlockIndex : Int := 0
  deriving DecidableEq

structure StreamAccumulator where
  out : Output := {}
  choice : Option ChoiceState := none
  id : Bytes := []
  servedModel : Bytes := []
  provider : Bytes := []
  usage : ChatUsage := {}
  usageReceived : Bool := false
  completed : Bool := false
  streamErr : Option Bytes := none
  deriving DecidableEq

/-- What is left open: `json.Unmarshal` of a chunk, `ValidateProviderJSON`, the texts of the errors of a
chunk and of a choice, the flags of the provider, and the response (`responseBody` and
`ParseResponse`). -/
structure Decoders where
  chunk : Bytes → Except Bytes Chunk
  validateProviderJSON : Bytes → Option Bytes
  chunkError : Bytes → Bytes
  choiceError : Choice → Bytes
  outputTruncated : Bytes → Bytes → Bool
  usageChunkCompletesStream : Bool
  response : StreamAccumulator → Except Bytes (StopReason × Usage)

/-! ## Deltas -/

def setEntry {κ ν : Type} [DecidableEq κ] (key : κ) (value : ν) : List (κ × ν) → List (κ × ν)
  | [] => [(key, value)]
  | (k, v) :: rest => if k = key then (key, value) :: rest else (k, v) :: setEntry key value rest

def optionalDeltaString (raw : Bytes) (field : String) : Except Bytes Bytes :=
  if raw = [] ∨ raw = ascii "null" then .ok []
  else match Json.unmarshalString raw with
    | some value => .ok value
    | none => .error (ascii "openai chat completions stream delta " ++ ascii field ++
        ascii " must be a string or null")

def rawString (raw : Option Bytes) : Bytes :=
  match raw with
  | none => []
  | some raw => if raw = [] ∨ raw = ascii "null" then [] else (Json.unmarshalString raw).getD []

def rawInt (raw : Option Bytes) : Option Int :=
  raw.bind fun raw => if raw = [] ∨ raw = ascii "null" then none else Json.unmarshalInt raw

namespace ChoiceState

def appendText (s : ChoiceState) (out : Output) (text : Bytes) : ChoiceState × Output :=
  if s.textBlockOpen then
    ({ s with text := s.text ++ text }, { out with sink := out.sink.textDelta s.textBlockIndex text })
  else
    let index := out.nextBlockIndex
    ({ s with text := s.text ++ text, textBlockIndex := index, textBlockOpen := true },
      ⟨(out.sink.blockStart index { kind := .text }).textDelta index text, index + 1⟩)

def appendReasoning (s : ChoiceState) (out : Output) (text : Bytes) : ChoiceState × Output :=
  if s.reasoningBlockOpen then
    (s, { out with sink := out.sink.thinkingDelta s.reasoningBlockIndex text })
  else
    let index := out.nextBlockIndex
    ({ s with reasoningBlockIndex := index, reasoningBlockOpen := true },
      ⟨(out.sink.blockStart index { kind := .thinking }).thinkingDelta index text, index + 1⟩)

def reasoningDetailKey (fields : List (Bytes × Bytes)) (fallback : Nat) : Bytes :=
  match rawInt (Json.lookup fields (ascii "index")) with
  | some index => ascii "index:" ++ formatInt index
  | none =>
    let id := rawString (Json.lookup fields (ascii "id"))
    if id ≠ [] then ascii "id:" ++ id else ascii "fragment:" ++ formatInt fallback

/-- One accumulated field: its new text, and the fields with it. -/
def applyField (fields : List (Bytes × Bytes)) (name : String) (text : Bytes)
    (out : List (Bytes × FieldValue)) : Bytes × List (Bytes × FieldValue) :=
  let text := text ++ rawString (Json.lookup fields (ascii name))
  (text,
    if text ≠ [] then setEntry (ascii name) (.text text) out
    else match Json.lookup fields (ascii name) with
      | some value => setEntry (ascii name) (.raw value) out
      | none => out)

/-- `chatStreamReasoningDetailState.apply`. -/
def applyDetail (d : ReasoningDetailState) (fields : List (Bytes × Bytes)) :
    ReasoningDetailState :=
  let accumulated := [ascii "text", ascii "summary", ascii "data", ascii "signature"]
  let out := fields.foldl (fun out (key, value) =>
    if accumulated.contains key then out else setEntry key (.raw value) out) d.fields
  let (text, out) := applyField fields "text" d.text out
  let (summary, out) := applyField fields "summary" d.summary out
  let (data, out) := applyField fields "data" d.data out
  let (signature, out) := applyField fields "signature" d.signature out
  ⟨out, text, summary, data, signature⟩

/-- The details of a delta, with the text to show. A detail that is no object is passed over. -/
def appendReasoningDetails (s : ChoiceState) : List Bytes → ChoiceState × Bytes
  | [] => (s, [])
  | raw :: details =>
    match Json.unmarshalRawObject raw with
    | none => s.appendReasoningDetails details
    | some fields =>
      let fields := fields.getD []
      let key := reasoningDetailKey fields s.reasoningDetails.length
      let detail := applyDetail ((s.reasoningDetails.lookup key).getD {}) fields
      let summary := rawString (Json.lookup fields (ascii "summary"))
      let visible := if summary ≠ [] then summary else rawString (Json.lookup fields (ascii "text"))
      let (s, more) := appendReasoningDetails
        { s with reasoningDetails := setEntry key detail s.reasoningDetails } details
      (s, visible ++ more)

/-- The state of a tool call with a delta's id, type and name. -/
def ToolCallDelta.named (delta : ToolCallDelta) (tool : ToolCallState) : ToolCallState :=
  { tool with
    id := if delta.id ≠ [] then delta.id else tool.id
    callType := if delta.type ≠ [] then delta.type else tool.callType
    name := if delta.name ≠ [] then delta.name else tool.name }

def applyToolDelta (s : ChoiceState) (out : Output) (delta : ToolCallDelta) :
    ChoiceState × Output :=
  let tool := ToolCallDelta.named delta ((s.toolCalls.lookup delta.index).getD {})
  let arguments := delta.arguments
  let grown := { tool with arguments := tool.arguments ++ arguments }
  if tool.blockOpen then
    ({ s with toolCalls := setEntry delta.index grown s.toolCalls },
      { out with sink := out.sink.toolArgsDelta tool.blockIndex arguments })
  else if tool.id = [] ∨ tool.name = [] then
    let waiting := { grown with pending := tool.pending ++ arguments }
    ({ s with toolCalls := setEntry delta.index waiting s.toolCalls }, out)
  else
    let index := out.nextBlockIndex
    let opened := { grown with blockIndex := index, blockOpen := true }
    let sink := out.sink.blockStart index ⟨.toolUse, tool.id, tool.name⟩
    let sink := sink.toolArgsDelta index tool.pending
    ({ s with toolCalls := setEntry delta.index opened s.toolCalls },
      ⟨sink.toolArgsDelta index arguments, index + 1⟩)

/-- The index of a tool call's block, if it is open. -/
def openTool (tool : ToolCallState) : List Int := if tool.blockOpen then [tool.blockIndex] else []

def openBlocks (s : ChoiceState) : List Int :=
  (if s.textBlockOpen then [s.textBlockIndex] else []) ++
    (if s.reasoningBlockOpen then [s.reasoningBlockIndex] else []) ++
    s.toolCalls.flatMap fun (_, tool) => openTool tool

/-- The open blocks are stopped in the order of their indices. -/
def closeOpenBlocks (s : ChoiceState) (out : Output) : ChoiceState × Output :=
  let blocks := s.openBlocks.mergeSort (· ≤ ·)
  ({ s with
      textBlockOpen := false
      reasoningBlockOpen := false
      toolCalls := s.toolCalls.map fun (index, tool) => (index, { tool with blockOpen := false }) },
    { out with sink := blocks.foldl Sink.blockStop out.sink })

def applyTexts (s : ChoiceState) (out : Output) (text refusal : Bytes) : ChoiceState × Output :=
  let (s, out) := if text ≠ [] then s.appendText out text else (s, out)
  if refusal ≠ [] then { s with refusal := s.refusal ++ refusal }.appendText out refusal
  else (s, out)

/-- The reasoning of a delta: what is shown comes from the details if there are any. -/
def applyReasoning (s : ChoiceState) (out : Output) (details : List Bytes)
    (reasoning reasoningContent : Bytes) : ChoiceState × Output :=
  let s := { s with
    reasoning := s.reasoning ++ reasoning
    reasoningContent := s.reasoningContent ++ reasoningContent }
  if details ≠ [] then
    let (s, shown) := s.appendReasoningDetails details
    if shown ≠ [] then s.appendReasoning out shown else (s, out)
  else if reasoning ≠ [] then s.appendReasoning out reasoning
  else if reasoningContent ≠ [] then s.appendReasoning out reasoningContent
  else (s, out)

def applyToolDeltas (s : ChoiceState) (out : Output) : List ToolCallDelta → ChoiceState × Output
  | [] => (s, out)
  | delta :: deltas =>
    let (s, out) := s.applyToolDelta out delta
    s.applyToolDeltas out deltas

/-- The role, the text and the reasoning of a delta. -/
def applyContent (s : ChoiceState) (out : Output) (delta : Delta)
    (texts : Bytes × Bytes × Bytes × Bytes) : ChoiceState × Output :=
  let (text, refusal, reasoning, reasoningContent) := texts
  let s := { s with role := if delta.role ≠ [] then delta.role else s.role }
  let (s, out) := s.applyTexts out text refusal
  s.applyReasoning out delta.reasoningDetails reasoning reasoningContent

/-- What a delta adds to a choice once its texts are known. -/
def applyDelta (s : ChoiceState) (out : Output) (delta : Delta)
    (texts : Bytes × Bytes × Bytes × Bytes) : ChoiceState × Output :=
  let (s, out) := s.applyContent out delta texts
  s.applyToolDeltas out delta.toolCalls

end ChoiceState

/-! ## The accumulator -/

/-- The four optional texts of a delta, checked in this order. -/
def deltaTexts (delta : Delta) : Except Bytes (Bytes × Bytes × Bytes × Bytes) := do
  let text ← optionalDeltaString delta.content "content"
  let refusal ← optionalDeltaString delta.refusal "refusal"
  let reasoning ← optionalDeltaString delta.reasoning "reasoning"
  let reasoningContent ← optionalDeltaString delta.reasoningContent "reasoning_content"
  return (text, refusal, reasoning, reasoningContent)

/-- `strings.EqualFold(s, "error")`: no other characters fold to these letters. -/
def equalFoldError (s : Bytes) : Bool :=
  s.map (fun c => if 65 ≤ c && c ≤ 90 then c + 32 else c) = ascii "error"

/-- The choice has an error, and ends the stream. -/
def Choice.fails (choice : Choice) : Bool :=
  choice.error.isSome || equalFoldError choice.finishReason

namespace StreamAccumulator

variable (d : Decoders)

def closeOpenBlocks (a : StreamAccumulator) : StreamAccumulator :=
  match a.choice with
  | none => a
  | some s =>
    let (s, out) := s.closeOpenBlocks a.out
    { a with choice := some s, out := out }

/-- The choice so far, with the finish reasons of a chunk's choice. -/
def finishing (a : StreamAccumulator) (choice : Choice) : ChoiceState :=
  let s := a.choice.getD {}
  { s with
    finishReason := if choice.finishReason ≠ [] then choice.finishReason else s.finishReason
    nativeFinishReason := if choice.nativeFinishReason ≠ []
      then choice.nativeFinishReason else s.nativeFinishReason }

def handleChoice (a : StreamAccumulator) (choice : Choice) : StreamAccumulator × Option Bytes :=
  match deltaTexts choice.delta with
  | .error err => ({ a with choice := some (a.finishing choice) }, some err)
  | .ok texts =>
    let (s, out) := (a.finishing choice).applyDelta a.out choice.delta texts
    if choice.fails then
      let (s, out) := s.closeOpenBlocks out
      ({ a with choice := some s, out := out, streamErr := some (d.choiceError choice) }, none)
    else if choice.finishReason ≠ [] then
      let (s, out) := s.closeOpenBlocks out
      ({ a with choice := some s, out := out }, none)
    else ({ a with choice := some s, out := out }, none)

/-- What a chunk says about the response as a whole. -/
def noting (a : StreamAccumulator) (chunk : Chunk) : StreamAccumulator :=
  { a with
    id := if chunk.id ≠ [] ∧ a.id = [] then chunk.id else a.id
    servedModel := if chunk.model ≠ [] then chunk.model else a.servedModel
    provider := if chunk.provider ≠ [] then chunk.provider else a.provider
    usage := chunk.usage.getD a.usage
    usageReceived := a.usageReceived || chunk.usage.isSome }

def handle (a : StreamAccumulator) (ev : SSEEvent) : StreamAccumulator × Option Bytes :=
  let data := trimSpace ev.data
  if data = [] then (a, none)
  else if data = ascii "[DONE]" then ({ a with completed := true }.closeOpenBlocks, none)
  else
    match d.chunk data with
    | .error err => (a, some (ascii "decode chat completion chunk: " ++ err))
    | .ok chunk =>
      let a := a.noting chunk
      match chunk.error with
      | some err => ({ a with streamErr := some (d.chunkError err) }.closeOpenBlocks, none)
      | none =>
        match d.validateProviderJSON data with
        | some err => (a, some (ascii "validate openai chat completions stream event: " ++ err))
        | none =>
          match chunk.choices with
          | [] => (a, none)
          | [choice] =>
            if choice.index ≠ 0 then
              (a, some (ascii "openai chat completions stream choice index must be 0 (got " ++
                formatInt choice.index ++ ascii ")"))
            else handleChoice d a choice
          | choices =>
            (a, some (ascii "openai chat completions stream chunk must contain at most one choice" ++
              ascii " (got " ++ formatInt choices.length ++ ascii ")"))

/-- The callback of `ConsumeStream`. -/
def onEvent (a : StreamAccumulator) (ev : SSEEvent) : StreamAccumulator × Option ReadError :=
  match handle d a ev with
  | (a, some err) => (a, some (.failed err))
  | (a, none) => (a, if a.completed || a.streamErr.isSome then some .terminal else none)

def hasCompleteTerminalOutcome (a : StreamAccumulator) : Bool :=
  match a.choice with
  | none => false
  | some s => trimSpace s.finishReason ≠ [] || d.outputTruncated s.finishReason s.nativeFinishReason

def error (a : StreamAccumulator) (message : Bytes) : StreamAccumulator :=
  { a with out := { a.out with sink := a.out.sink.error message } }

/-- `ConsumeStream` after the reading: the emitted events end here. -/
def finish (a : StreamAccumulator) (readErr : Option ReadError) : StreamAccumulator :=
  let a := a.closeOpenBlocks
  match readErr with
  | some (.failed message) => a.error message
  | _ =>
    match a.streamErr with
    | some message => a.error message
    | none =>
      if !a.hasCompleteTerminalOutcome d ||
          (!a.completed && !(d.usageChunkCompletesStream && a.usageReceived)) then
        a.error
          (ascii "transient: openai chat completions stream ended without a terminal chunk")
      else
        match d.response a with
        | .error message => a.error message
        | .ok (reason, usage) =>
          { a with out := { a.out with sink := a.out.sink.messageStop reason usage } }

end StreamAccumulator

/-- `ConsumeStream` on the events of a stream that ends, or fails with `readErr`, after them. -/
def consumeStream (d : Decoders) (events : List SSEEvent) (readErr : Option Bytes) :
    StreamAccumulator :=
  let (a, err) := readSSEEvents (StreamAccumulator.onEvent d) readErr {} events
  a.finish d err

end OpenAIChatCompletions
