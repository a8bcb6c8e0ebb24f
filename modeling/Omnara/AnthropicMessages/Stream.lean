import Omnara.Lib.Text
import Omnara.Model.Stream

/-!
# The Anthropic stream accumulator (`internal/model/anthropicmessages/stream.go`)

What `ConsumeStream` makes of the events of a provider stream: it opens, fills and closes one content
block after another and emits their deltas on the way. The reading of JSON is left open (`Decoders`): the
functions below decide everything else, on whatever the decoders answer. Errors are their texts.
-/

namespace AnthropicMessages

open Json (Bytes ascii)
open Model
open ModelContext (StopReason)
open Text (formatInt trimSpace)

/-- `usage`. -/
structure RawUsage where
  inputTokens : Int := 0
  outputTokens : Int := 0
  cacheCreationInputTokens : Int := 0
  cacheReadInputTokens : Int := 0
  deriving DecidableEq

def mergeAnthropicUsage (into delta : RawUsage) : RawUsage where
  inputTokens := max into.inputTokens delta.inputTokens
  outputTokens := max into.outputTokens delta.outputTokens
  cacheCreationInputTokens := max into.cacheCreationInputTokens delta.cacheCreationInputTokens
  cacheReadInputTokens := max into.cacheReadInputTokens delta.cacheReadInputTokens

/-- `anthropicStreamBlock`; `kind` is `none` for a block of an unknown type. -/
structure ActiveBlock where
  kind : Option StreamBlockKind := none
  raw : Bytes := []
  text : Bytes := []
  thinking : Bytes := []
  signature : Bytes := []
  toolInputJSON : Bytes := []
  toolID : Bytes := []
  toolName : Bytes := []
  deriving DecidableEq

structure ToolInput where
  blockIndex : Int
  rawInput : Bytes
  deriving DecidableEq

/-- `anthropicStreamAccumulator`, with the sink it emits to. -/
structure StreamAccumulator where
  sink : Sink := []
  id : Bytes := []
  servedModel : Bytes := []
  stopReasonRaw : Bytes := []
  usageRaw : RawUsage := {}
  content : List Bytes := []
  toolInputs : List ToolInput := []
  activeBlock : Option ActiveBlock := none
  activeBlockIdx : Int := 0
  nextBlockIdx : Int := 0
  sawMessageStop : Bool := false
  streamErr : Option Bytes := none
  deriving DecidableEq

/-! ## Frames -/

/-- The payload of `message_start`. -/
structure MessageStartFrame where
  id : Bytes
  model : Bytes
  usage : RawUsage

/-- The payload of a `content_block_start` or `content_block_delta`. -/
structure BlockFrame where
  index : Option Int
  raw : Bytes

/-- The payload of `message_delta`. -/
structure MessageDeltaFrame where
  stopReason : Bytes
  usage : RawUsage

/-- `content_block`. -/
structure TypedBlock where
  type : Bytes
  id : Bytes
  name : Bytes
  text : Bytes
  input : Bytes

/-- `delta`. -/
structure TypedDelta where
  type : Bytes
  text : Bytes
  thinking : Bytes
  signature : Bytes
  partialJSON : Bytes

/-- The readings of JSON: `json.Unmarshal` of each frame, `ValidateProviderJSON` with the text its error
is wrapped in, the error of an `error` event, `assemble`, and the response made of what was
accumulated (`responseBody` and `parseResponse`). -/
structure Decoders where
  validateProviderJSON : SSEEvent → Option Bytes
  messageStart : Bytes → Except Bytes MessageStartFrame
  contentBlockStart : Bytes → Except Bytes BlockFrame
  contentBlockDelta : Bytes → Except Bytes BlockFrame
  contentBlockStop : Bytes → Except Bytes (Option Int)
  messageDelta : Bytes → Except Bytes MessageDeltaFrame
  block : Bytes → Except Bytes TypedBlock
  delta : Bytes → Except Bytes TypedDelta
  providerError : Bytes → Bytes
  assemble : ActiveBlock → Except Bytes Bytes
  response : StreamAccumulator → Except Bytes (StopReason × Usage)

namespace StreamAccumulator

variable (d : Decoders)

def blockKind (type : Bytes) : Option StreamBlockKind :=
  if type = ascii "text" then some .text
  else if type = ascii "thinking" then some .thinking
  else if type = ascii "tool_use" then some .toolUse
  else none

/-- The block a `content_block_start` opens. -/
def newBlock (typed : TypedBlock) (raw : Bytes) : ActiveBlock :=
  match blockKind typed.type with
  | some .text => { kind := some .text, text := typed.text }
  | some .thinking => { kind := some .thinking }
  | some .toolUse =>
    { kind := some .toolUse, toolID := typed.id, toolName := typed.name
      toolInputJSON :=
        if typed.input = [] ∨ typed.input = ascii "null" ∨ typed.input = ascii "\x7b\x7d" then []
        else typed.input }
  | _ => { raw := raw }

def openBlock (a : StreamAccumulator) (index : Int) (raw : Bytes) :
    StreamAccumulator × Option Bytes :=
  if a.activeBlock.isSome then
    (a, some (ascii "content block index " ++ formatInt index ++ ascii " started before index " ++
      formatInt a.activeBlockIdx ++ ascii " stopped"))
  else if index ≠ a.nextBlockIdx then
    (a, some (ascii "content block started at index " ++ formatInt index ++ ascii ", want " ++
      formatInt a.nextBlockIdx))
  else
    match d.block raw with
    | .error err => (a, some (ascii "decode content_block_start payload: " ++ err))
    | .ok typed =>
      let a := { a with activeBlock := some (newBlock typed raw), activeBlockIdx := index }
      match blockKind typed.type with
      | some .text =>
        ({ a with sink := (a.sink.blockStart index { kind := .text }).textDelta index typed.text },
          none)
      | some .thinking => ({ a with sink := a.sink.blockStart index { kind := .thinking } }, none)
      | some .toolUse =>
        ({ a with sink := a.sink.blockStart index ⟨.toolUse, typed.id, typed.name⟩ }, none)
      | _ => (a, none)

def applyDelta (a : StreamAccumulator) (index : Int) (raw : Bytes) :
    StreamAccumulator × Option Bytes :=
  match a.activeBlock with
  | none => (a, some (ascii "content block delta references unopened index " ++ formatInt index))
  | some block =>
    if index ≠ a.activeBlockIdx then
      (a, some (ascii "content block delta references index " ++ formatInt index ++
        ascii " while index " ++ formatInt a.activeBlockIdx ++ ascii " is open"))
    else
      match d.delta raw with
      | .error err => (a, some (ascii "decode content_block_delta payload: " ++ err))
      | .ok typed =>
        if block.kind = none then (a, none)
        else if typed.type = ascii "text_delta" then
          ({ a with
            activeBlock := some { block with text := block.text ++ typed.text }
            sink := a.sink.textDelta index typed.text }, none)
        else if typed.type = ascii "thinking_delta" then
          ({ a with
            activeBlock := some { block with thinking := block.thinking ++ typed.thinking }
            sink := a.sink.thinkingDelta index typed.thinking }, none)
        else if typed.type = ascii "input_json_delta" then
          ({ a with
            activeBlock := some
              { block with toolInputJSON := block.toolInputJSON ++ typed.partialJSON }
            sink := a.sink.toolArgsDelta index typed.partialJSON }, none)
        else if typed.type = ascii "signature_delta" then
          ({ a with
            activeBlock := some { block with signature := block.signature ++ typed.signature } },
            none)
        else (a, none)

def closeBlock (a : StreamAccumulator) (index : Int) : StreamAccumulator × Option Bytes :=
  match a.activeBlock with
  | none => (a, some (ascii "content block stop references unopened index " ++ formatInt index))
  | some block =>
    if index ≠ a.activeBlockIdx then
      (a, some (ascii "content block stop references index " ++ formatInt index ++
        ascii " while index " ++ formatInt a.activeBlockIdx ++ ascii " is open"))
    else
      match d.assemble block with
      | .error err => (a, some err)
      | .ok rawBlock =>
        ({ a with
          content := if rawBlock = [] then a.content else a.content ++ [rawBlock]
          toolInputs := if block.kind = some .toolUse
            then a.toolInputs ++ [⟨index, trimSpace block.toolInputJSON⟩] else a.toolInputs
          sink := if block.kind = none then a.sink else a.sink.blockStop index
          activeBlock := none
          nextBlockIdx := a.nextBlockIdx + 1 }, none)

def abortOpenBlocks (a : StreamAccumulator) : StreamAccumulator :=
  match a.activeBlock with
  | some block =>
    if block.kind = none then a else { a with sink := a.sink.blockStop a.activeBlockIdx }
  | none => a

/-- `requiredAnthropicBlockIndex`, and what is done with the index. -/
def withIndex (a : StreamAccumulator) (event : String) (index : Option Int)
    (act : Int → StreamAccumulator × Option Bytes) : StreamAccumulator × Option Bytes :=
  match index with
  | none => (a, some (ascii event ++ ascii " is missing its block index"))
  | some index => act index

def handle (a : StreamAccumulator) (ev : SSEEvent) : StreamAccumulator × Option Bytes :=
  match if ev.data ≠ [] ∧ ev.event ≠ ascii "error" then d.validateProviderJSON ev else none with
  | some err => (a, some err)
  | none =>
    if ev.event = ascii "message_start" then
      match d.messageStart ev.data with
      | .error err => (a, some (ascii "decode message_start: " ++ err))
      | .ok msg =>
        ({ a with id := msg.id, servedModel := msg.model,
                  usageRaw := mergeAnthropicUsage a.usageRaw msg.usage }, none)
    else if ev.event = ascii "content_block_start" then
      match d.contentBlockStart ev.data with
      | .error err => (a, some (ascii "decode content_block_start: " ++ err))
      | .ok frame => a.withIndex "content_block_start" frame.index (openBlock d a · frame.raw)
    else if ev.event = ascii "content_block_delta" then
      match d.contentBlockDelta ev.data with
      | .error err => (a, some (ascii "decode content_block_delta: " ++ err))
      | .ok frame => a.withIndex "content_block_delta" frame.index (applyDelta d a · frame.raw)
    else if ev.event = ascii "content_block_stop" then
      match d.contentBlockStop ev.data with
      | .error err => (a, some (ascii "decode content_block_stop: " ++ err))
      | .ok index => a.withIndex "content_block_stop" index (closeBlock d a ·)
    else if ev.event = ascii "message_delta" then
      match d.messageDelta ev.data with
      | .error err => (a, some (ascii "decode message_delta: " ++ err))
      | .ok frame =>
        ({ a with
          stopReasonRaw := if frame.stopReason = [] then a.stopReasonRaw else frame.stopReason
          usageRaw := mergeAnthropicUsage a.usageRaw frame.usage }, none)
    else if ev.event = ascii "message_stop" then ({ a with sawMessageStop := true }, none)
    else if ev.event = ascii "error" then
      ({ a with streamErr := some (d.providerError ev.data) }, none)
    else (a, none)

/-- The callback of `ConsumeStream`. -/
def onEvent (a : StreamAccumulator) (ev : SSEEvent) : StreamAccumulator × Option ReadError :=
  match handle d a ev with
  | (a, some err) => (a, some (.failed err))
  | (a, none) => (a, if a.sawMessageStop || a.streamErr.isSome then some .terminal else none)

def hasCompleteTerminalOutcome (a : StreamAccumulator) : Bool :=
  a.sawMessageStop && trimSpace a.stopReasonRaw ≠ [] && a.activeBlock.isNone

def error (a : StreamAccumulator) (message : Bytes) : StreamAccumulator :=
  { a with sink := a.sink.error message }

/-- `ConsumeStream` after the reading: the emitted events end here. -/
def finish (a : StreamAccumulator) (readErr : Option ReadError) : StreamAccumulator :=
  match readErr with
  | some (.failed message) => a.abortOpenBlocks.error message
  | _ =>
    match a.streamErr with
    | some message => a.abortOpenBlocks.error message
    | none =>
      if !a.hasCompleteTerminalOutcome then
        a.abortOpenBlocks.error
          (ascii "transient: anthropic stream ended without a complete terminal outcome")
      else
        match d.response a with
        | .error message => a.error message
        | .ok (reason, usage) => { a with sink := a.sink.messageStop reason usage }

end StreamAccumulator

/-- `ConsumeStream` on the events of a stream that ends, or fails with `readErr`, after them. -/
def consumeStream (d : Decoders) (events : List SSEEvent) (readErr : Option Bytes) :
    StreamAccumulator :=
  let (a, err) := readSSEEvents (StreamAccumulator.onEvent d) readErr {} events
  a.finish d err

end AnthropicMessages
