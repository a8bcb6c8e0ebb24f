import Mathlib.Data.List.AList
import Omnara.Lib.Text
import Omnara.Model.Stream

/-!
# The Responses stream accumulator (`internal/model/openairesponses/stream.go`)

What `ConsumeStream` makes of the events of a provider stream. Every function call and reasoning item
has a block under its item id and every text part of a message one under its content key; the terminal
event carries the whole response. The reading of JSON, the quoting of names in errors and the texts of
provider errors are left open (`Decoders`).
-/

namespace OpenAIResponses

open Json (Bytes ascii)
open Model
open ModelContext (StopReason)
open Text (formatInt trimSpace)

/-! ## Frames -/

/-- The fields of `model.Response` the stream touches. -/
structure StreamResponse where
  id : Bytes := []
  servedProviderModelSlug : Bytes := []
  usage : Usage := {}
  stopReason : StopReason := .none
  deriving DecidableEq

/-- The item of `response.output_item.added`. -/
structure ItemAdded where
  id : Bytes
  type : Bytes
  callId : Bytes
  name : Bytes

/-- The payload of `response.content_part.added`, with the type of the part. -/
structure PartAdded where
  itemId : Bytes
  contentIndex : Int
  type : Bytes

/-- The payload of `response.output_text.delta`. -/
structure TextDeltaFrame where
  itemId : Bytes
  contentIndex : Int
  delta : Bytes

structure ItemDeltaFrame where
  itemId : Bytes
  delta : Bytes

/-- The readings of JSON: `openAIStreamPayloadType` (`none` for invalid JSON), `json.Unmarshal` of each
frame, `ValidateProviderJSON`; `strconv.Quote`; the error of an `error` event; and `ParseResponse`, with
the text of its error. -/
structure Decoders where
  payloadType : Bytes → Option Bytes
  validateProviderJSON : Bytes → Option Bytes
  quote : Bytes → Bytes
  responseEvidence : Bytes → Except Bytes StreamResponse
  outputItemAdded : Bytes → Except Bytes ItemAdded
  contentPartAdded : Bytes → Except Bytes PartAdded
  outputTextDelta : Bytes → Except Bytes TextDeltaFrame
  itemDelta : Bytes → Except Bytes ItemDeltaFrame
  contentPartDone : Bytes → Except Bytes (Bytes × Int)
  outputItemDone : Bytes → Except Bytes Bytes
  terminal : Bytes → Except Bytes Bytes
  responseStatus : Bytes → Except Bytes Bytes
  parseResponse : Bytes → StreamResponse × Option Bytes
  errorEvent : Bytes → Bytes → Bytes

/-! ## State -/

abbrev BlockMap := AList fun _ : Bytes => Int

def BlockMap.indices (m : BlockMap) : List Int := m.entries.map Sigma.snd

/-- `openAIStreamAccumulator`, with the sink it emits to. -/
structure StreamAccumulator where
  sink : Sink := []
  nextBlockIndex : Nat := 0
  itemBlockIndex : BlockMap := ∅
  itemContentBlockIndex : BlockMap := ∅
  seenItemIDs : List Bytes := []
  seenContentParts : List Bytes := []
  completed : Bool := false
  streamErr : Option Bytes := none
  out : StreamResponse := {}

def messageContentKey (itemId : Bytes) (contentIndex : Int) : Bytes :=
  itemId ++ ascii "/" ++ formatInt contentIndex

namespace StreamAccumulator

variable (d : Decoders)

def openBlocks (a : StreamAccumulator) : List Int :=
  a.itemBlockIndex.indices ++ a.itemContentBlockIndex.indices

def closeOpenBlocks (a : StreamAccumulator) : StreamAccumulator :=
  let indices := (List.range a.nextBlockIndex).map Int.ofNat
  { a with
    sink := (indices.filter (a.openBlocks.contains ·)).foldl Sink.blockStop a.sink
    itemBlockIndex := ∅
    itemContentBlockIndex := ∅ }

/-! ## Handlers -/

def openAIStreamEventType (ev : SSEEvent) : Except Bytes Bytes :=
  match d.payloadType ev.data with
  | none =>
    if ev.event = [] then
      .error (ascii "decode unlabeled openai-responses stream event: invalid JSON")
    else .ok ev.event
  | some [] =>
    if ev.event = [] then
      .error (ascii "unlabeled openai-responses stream event is missing type")
    else .ok ev.event
  | some payloadTypeJSON =>
    match Json.unmarshalString payloadTypeJSON with
    | none | some [] =>
      .error (ascii "openai-responses stream event type must be a non-empty string")
    | some payloadType =>
      if ev.event = [] then .ok payloadType
      else if payloadType ≠ ev.event then
        .error (ascii "openai-responses stream event label " ++ d.quote ev.event ++
          ascii " disagrees with payload type " ++ d.quote payloadType)
      else .ok ev.event

def handleResponseEvidence (a : StreamAccumulator) (event data : Bytes) :
    StreamAccumulator × Option Bytes :=
  match d.responseEvidence data with
  | .error err => (a, some (ascii "decode " ++ event ++ ascii ": " ++ err))
  | .ok evidence =>
    ({ a with out := { a.out with
      id := if evidence.id ≠ [] then evidence.id else a.out.id
      servedProviderModelSlug := if evidence.servedProviderModelSlug ≠ []
        then evidence.servedProviderModelSlug else a.out.servedProviderModelSlug
      usage := if evidence.usage ≠ {} then evidence.usage else a.out.usage } }, none)

def startItem (a : StreamAccumulator) (id : Bytes) (block : StreamBlock) : StreamAccumulator :=
  { a with
    nextBlockIndex := a.nextBlockIndex + 1
    itemBlockIndex := a.itemBlockIndex.insert id a.nextBlockIndex
    sink := a.sink.blockStart a.nextBlockIndex block }

def handleOutputItemAdded (a : StreamAccumulator) (data : Bytes) :
    StreamAccumulator × Option Bytes :=
  match d.outputItemAdded data with
  | .error err => (a, some (ascii "decode response.output_item.added: " ++ err))
  | .ok item =>
    if trimSpace item.id = [] then
      (a, some (ascii "response.output_item.added is missing item id"))
    else if a.seenItemIDs.contains item.id then
      (a, some (ascii "response.output_item.added reused item id " ++ d.quote item.id))
    else
      let seen := { a with seenItemIDs := item.id :: a.seenItemIDs }
      if item.type = ascii "function_call" then
        if trimSpace item.callId = [] then
          (seen, some (ascii "response.output_item.added function call is missing call_id"))
        else (seen.startItem item.id ⟨.toolUse, item.callId, item.name⟩, none)
      else if item.type = ascii "reasoning" then (seen.startItem item.id { kind := .thinking }, none)
      else (seen, none)

def handleContentPartAdded (a : StreamAccumulator) (data : Bytes) :
    StreamAccumulator × Option Bytes :=
  match d.contentPartAdded data with
  | .error err => (a, some (ascii "decode response.content_part.added: " ++ err))
  | .ok part =>
    if part.type ≠ ascii "output_text" then (a, none)
    else
      let key := messageContentKey part.itemId part.contentIndex
      if a.seenContentParts.contains key then
        (a, some (ascii "response.content_part.added reused content part " ++ d.quote key))
      else
        ({ a with
          seenContentParts := key :: a.seenContentParts
          nextBlockIndex := a.nextBlockIndex + 1
          itemContentBlockIndex := a.itemContentBlockIndex.insert key a.nextBlockIndex
          sink := a.sink.blockStart a.nextBlockIndex { kind := .text } }, none)

def handleOutputTextDelta (a : StreamAccumulator) (data : Bytes) :
    StreamAccumulator × Option Bytes :=
  match d.outputTextDelta data with
  | .error err => (a, some (ascii "decode response.output_text.delta: " ++ err))
  | .ok frame =>
    match a.itemContentBlockIndex.lookup (messageContentKey frame.itemId frame.contentIndex) with
    | none => (a, none)
    | some index => ({ a with sink := a.sink.textDelta index frame.delta }, none)

/-- `handleFunctionCallArgsDelta` and `handleReasoningDelta`. -/
def handleItemDelta (emit : Sink → Int → Bytes → Sink) (what : String) (a : StreamAccumulator)
    (data : Bytes) : StreamAccumulator × Option Bytes :=
  match d.itemDelta data with
  | .error err => (a, some (ascii "decode " ++ ascii what ++ ascii ": " ++ err))
  | .ok frame =>
    match a.itemBlockIndex.lookup frame.itemId with
    | none => (a, none)
    | some index => ({ a with sink := emit a.sink index frame.delta }, none)

def handleFunctionCallArgsDelta : StreamAccumulator → Bytes → StreamAccumulator × Option Bytes :=
  handleItemDelta d Sink.toolArgsDelta "response.function_call_arguments.delta"

def handleReasoningDelta : StreamAccumulator → Bytes → StreamAccumulator × Option Bytes :=
  handleItemDelta d Sink.thinkingDelta "reasoning delta"

def handleContentPartDone (a : StreamAccumulator) (data : Bytes) :
    StreamAccumulator × Option Bytes :=
  match d.contentPartDone data with
  | .error err => (a, some (ascii "decode response.content_part.done: " ++ err))
  | .ok (itemId, contentIndex) =>
    let key := messageContentKey itemId contentIndex
    match a.itemContentBlockIndex.lookup key with
    | none => (a, none)
    | some index =>
      ({ a with
        itemContentBlockIndex := a.itemContentBlockIndex.erase key
        sink := a.sink.blockStop index }, none)

def handleOutputItemDone (a : StreamAccumulator) (data : Bytes) :
    StreamAccumulator × Option Bytes :=
  match d.outputItemDone data with
  | .error err => (a, some (ascii "decode response.output_item.done: " ++ err))
  | .ok id =>
    match a.itemBlockIndex.lookup id with
    | none => (a, none)
    | some index =>
      ({ a with
        itemBlockIndex := a.itemBlockIndex.erase id
        sink := a.sink.blockStop index }, none)

def expectedStatus (event : Bytes) : Bytes :=
  if event = ascii "response.completed" then ascii "completed"
  else if event = ascii "response.failed" then ascii "failed"
  else if event = ascii "response.incomplete" then ascii "incomplete"
  else []

def handleTerminal (a : StreamAccumulator) (event data : Bytes) :
    StreamAccumulator × Option Bytes :=
  match d.terminal data with
  | .error err => (a, some (ascii "decode " ++ event ++ ascii ": " ++ err))
  | .ok response =>
    if response = [] then (a, some (event ++ ascii " payload missing response"))
    else
      match d.responseStatus response with
      | .error err => (a, some (ascii "decode " ++ event ++ ascii " response status: " ++ err))
      | .ok status =>
        if status ≠ expectedStatus event then
          (a, some (event ++ ascii " payload has response status " ++ d.quote status ++
            ascii ", want " ++ d.quote (expectedStatus event)))
        else
          let (out, err) := d.parseResponse response
          -- the error of an earlier event stays if this response has none
          ({ a with completed := true, out := out, streamErr := err.or a.streamErr }, none)

/-- `handleErrorEvent` and `recordMalformedErrorEvent`. -/
def handleErrorEvent (a : StreamAccumulator) (event data : Bytes) :
    StreamAccumulator × Option Bytes :=
  ({ a with streamErr := some (d.errorEvent event data), completed := true }, none)

def dispatch (a : StreamAccumulator) (event data : Bytes) : StreamAccumulator × Option Bytes :=
  if event = ascii "response.created" ∨ event = ascii "response.queued" ∨
      event = ascii "response.in_progress" then
    handleResponseEvidence d a event data
  else if event = ascii "response.output_item.added" then handleOutputItemAdded d a data
  else if event = ascii "response.content_part.added" then handleContentPartAdded d a data
  else if event = ascii "response.output_text.delta" then handleOutputTextDelta d a data
  else if event = ascii "response.function_call_arguments.delta" then
    handleFunctionCallArgsDelta d a data
  else if event = ascii "response.reasoning_summary_text.delta" ∨
      event = ascii "response.reasoning_text.delta" then
    handleReasoningDelta d a data
  else if event = ascii "response.content_part.done" then handleContentPartDone d a data
  else if event = ascii "response.output_item.done" then handleOutputItemDone d a data
  else if event = ascii "response.completed" ∨ event = ascii "response.failed" ∨
      event = ascii "response.incomplete" then
    handleTerminal d a event data
  else if event = ascii "response.error" ∨ event = ascii "error" then
    handleErrorEvent d a event data
  else (a, none)

def handle (a : StreamAccumulator) (ev : SSEEvent) : StreamAccumulator × Option Bytes :=
  if ev.data = [] then (a, none)
  else
    match openAIStreamEventType d ev with
    | .error err => (a, some err)
    | .ok event =>
      match if event ≠ ascii "response.error" ∧ event ≠ ascii "error"
        then d.validateProviderJSON ev.data else none with
      | some err =>
        (a, some (ascii "validate openai-responses stream event " ++ d.quote event ++
          ascii ": " ++ err))
      | none => dispatch d a event ev.data

/-! ## The stream -/

/-- The callback of `ConsumeStream`. -/
def onEvent (a : StreamAccumulator) (ev : SSEEvent) : StreamAccumulator × Option ReadError :=
  match handle d a ev with
  | (a, some err) => (a, some (.failed err))
  | (a, none) => (a, if a.completed then some .terminal else none)

def error (a : StreamAccumulator) (message : Bytes) : StreamAccumulator :=
  { a with sink := a.sink.error message }

/-- `ConsumeStream` after the reading: the emitted events end here. -/
def finish (a : StreamAccumulator) (readErr : Option ReadError) : StreamAccumulator :=
  let a := a.closeOpenBlocks
  match readErr with
  | some (.failed message) => a.error message
  | _ =>
    if !a.completed then
      a.error (ascii "transient: openai stream ended without a terminal response event")
    else
      match a.streamErr with
      | some message => a.error message
      | none => { a with sink := a.sink.messageStop a.out.stopReason a.out.usage }

end StreamAccumulator

/-- `ConsumeStream` on the events of a stream that ends, or fails with `readErr`, after them. -/
def consumeStream (d : Decoders) (events : List SSEEvent) (readErr : Option Bytes) :
    StreamAccumulator :=
  let (a, err) := readSSEEvents (StreamAccumulator.onEvent d) readErr {} events
  a.finish err

end OpenAIResponses
