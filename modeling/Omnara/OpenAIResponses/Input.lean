import Omnara.Model.Replay
import Omnara.OpenAIResponses.Response

/-!
# The input of a Responses request (`internal/model/openairesponses/input.go`, `media.go`)

`buildInput` renders the canonical history. The items of an assistant entry are the provider's own ones
if they still mean what the history says (`completeResponseReplay`), or are rebuilt from the content, and
the outputs of the entry's tool calls follow.
-/

namespace OpenAIResponses

open Json (Bytes Value Members ascii)
open Model
open ModelContext
open Text (trimSpace)

inductive ResponsesRole
  | system | user | assistant
  deriving DecidableEq

def ResponsesRole.text : ResponsesRole → Bytes
  | .system => ascii "system"
  | .user => ascii "user"
  | .assistant => ascii "assistant"

/-- The content of a message: a string or a list of maps, which may be nil. -/
inductive ItemContent
  | text (text : Bytes)
  | parts (parts : Option (List Members))
  deriving DecidableEq

/-- An item of the input: a map the builder makes, or a raw item of a replay. -/
inductive InputItem
  | message (role : ResponsesRole) (content : ItemContent)
  | functionCall (callId name arguments : Bytes)
  | functionCallOutput (callId : Bytes) (output : Option (List Members))
  | raw (item : Value)
  deriving DecidableEq

/-- `json.Marshal` of a list of maps. -/
def partsValue : Option (List Members) → Value
  | none => .null
  | some parts => .arr (parts.map .obj)

def ItemContent.value : ItemContent → Value
  | .text shown => .str shown
  | .parts maps => partsValue maps

/-- `json.Marshal` of an item. -/
def InputItem.value : InputItem → Value
  | .message role content => .obj [(ascii "content", content.value), (ascii "role", .str role.text)]
  | .functionCall callId name arguments => .obj [(ascii "arguments", .str arguments),
      (ascii "call_id", .str callId), (ascii "name", .str name),
      (ascii "type", .str (ascii "function_call"))]
  | .functionCallOutput callId output => .obj [(ascii "call_id", .str callId),
      (ascii "output", partsValue output), (ascii "type", .str (ascii "function_call_output"))]
  | .raw item => item

/-! ## Content parts -/

def textMap (textType text : Bytes) : Members :=
  [(ascii "text", .str text), (ascii "type", .str textType)]

def renderableMedia (media : List (Bytes × ResolvedMedia)) : List (Bytes × ResolvedMedia) :=
  media.filter fun (_, resolved) => isAttachmentMedia resolved.mediaType

def rendersAsInputText (resolved : ResolvedMedia) : Bool :=
  isTextDocumentMediaType resolved.mediaType && (resolved.data.isEmpty || Text.valid resolved.data)

def openaiMediaPart (enc : Encodings) (resolved : ResolvedMedia) : Option Members :=
  if rendersAsInputText resolved then
    some (textMap (ascii "input_text") (if resolved.filename = [] then resolved.data
      else ascii "File: " ++ enc.quote resolved.filename ++ [10, 10] ++ resolved.data))
  else
    let mediaType := if resolved.mediaType = ascii "text/tab-separated-values" then ascii "text/tsv"
      else resolved.mediaType
    let dataUrl := ascii "data:" ++ mediaType ++ ascii ";base64," ++ enc.base64 resolved.data
    match resolved.kind with
    | .image => some [(ascii "image_url", .str dataUrl), (ascii "type", .str (ascii "input_image"))]
    | .document => some [(ascii "file_data", .str dataUrl),
        (ascii "filename", .str (mediaFilename resolved.filename resolved.mediaType)),
        (ascii "type", .str (ascii "input_file"))]
    | .other _ => none

/-- One part of `renderOpenAIContent`; `written` is the text of a value in the part. -/
def renderOpenAIPart (enc : Encodings) (written : Bytes → Bytes)
    (media : List (Bytes × ResolvedMedia)) (textType : Bytes) (part : Fields) : List Members :=
  let type := jsonFieldText part "type"
  let text := jsonFieldText part "text"
  if type = ascii "media_ref" then
    let artifactId := jsonFieldText part "artifact_id"
    match media.lookup artifactId with
    | some resolved =>
      match openaiMediaPart enc resolved with
      | some block =>
        (match enc.artifactPublicId artifactId with
          | [] => []
          | ref => [textMap textType (ascii "artifact_id: " ++ ref)]) ++ [block]
      | none => []
    | none => if mediaRefText enc part = [] then [] else [textMap textType (mediaRefText enc part)]
  else if type = ascii "reasoning" then []
  else if trimSpace text ≠ [] then [textMap textType text]
  else if type = ascii "structured_data" then
    match ((Json.lookup part (ascii "value")).map written).getD [] with
    | [] => []
    | value => [textMap textType value]
  else if ["status", "error", "summary", "agent_ref", "tool_call_ref", "tool_result_ref",
      "interaction_ref"].any (ascii · = type) then [textMap textType (enc.payload type part)]
  else []

/-- `renderOpenAIContent` of the parts, nil if they do not decode. -/
def renderOpenAIContent (enc : Encodings) (written : Bytes → Bytes)
    (media : List (Bytes × ResolvedMedia)) (textType : Bytes) (parts : Option (List Fields)) :
    Option (List Members) :=
  parts.map fun parts => parts.flatMap (renderOpenAIPart enc written media textType)

def renderOpenAIInputContent (enc : Encodings) (media : List (Bytes × ResolvedMedia)) (raw : Bytes) :
    Option (List Members) :=
  renderOpenAIContent enc id media (ascii "input_text") (contentParts raw)

def toolResultOutput (enc : Encodings) (media : List (Bytes × ResolvedMedia))
    (result : ToolResultRef) : Option (List Members) :=
  renderOpenAIInputContent enc media result.contentParts

/-! ## Replayed outputs -/

def messageSemantics : List ResponsesContentPart → Option (List ReplaySemantic)
  | [] => some []
  | part :: parts =>
    match contentText part with
    | none => none
    | some text => (messageSemantics parts).map (textSemantic .text text ++ ·)

/-- The meaning of one item, `none` if it is not accepted. -/
def itemSemantics (item : ResponsesOutputItem) : Option (List ReplaySemantic) :=
  if item.type = ascii "message" then messageSemantics item.content
  else if item.type = ascii "reasoning" then
    if item.encryptedContent = [] then none
    else some (textSemantic .reasoning (reasoningSummaryText item))
  else if item.type = ascii "function_call" then
    if trimSpace item.callId = [] ∨ trimSpace item.name = [] ∨
        !validToolInput (inputValue item.arguments) then none
    else some [⟨.toolCall, [], item.callId, item.name, Json.decode item.arguments⟩]
  else if validProviderOnlyResponseItem item then some []
  else none

/-- The loop of `responseReplaySemantics`; `pending` says that the item before is reasoning that needs a
continuation. -/
def responseReplaySemantics : Bool → List Value → Option (List ReplaySemantic)
  | pending, [] => if pending then none else some []
  | _, raw :: raws =>
    match decodeOutputItem raw with
    | none => none
    | some item =>
      match itemSemantics item with
      | none => none
      | some semantics =>
        (responseReplaySemantics (item.type = ascii "reasoning") raws).map (semantics ++ ·)

def completeResponseReplay (source : ModelContext.Message) (content : List AssistantContentEntry)
    (target : ProviderReplayIdentity) : Option (List Value) :=
  if !identityMatches source.providerReplaySource target then none
  else match (Json.decode source.providerReplay).bind Json.listItems with
    | none | some [] => none
    | some items =>
      match responseReplaySemantics false items, canonicalSemantics none content with
      | some replayed, some canonical =>
        if sameSemantics replayed canonical then some items else none
      | _, _ => none

/-! ## Items -/

inductive BuildError
  /-- `build openai-responses history: %w` -/
  | history (err : HistoryError)
  /-- `unsupported canonical message role %q` -/
  | unsupportedRole (role : Bytes)
  /-- the error of `json.Marshal` -/
  | marshal
  deriving DecidableEq

section
variable (enc : Encodings)

/-- The closure `flush`: the message of the pending blocks. -/
def flushPending (pending : List Bytes) : Except BuildError (List InputItem) :=
  if pending = [] then .ok []
  else match marshalledParts pending with
    | none => .error .marshal
    | some parts =>
      match renderOpenAIContent enc Json.compact [] (ascii "output_text") parts with
      | none | some [] => .ok []
      | some rendered => .ok [.message .assistant (.parts (some rendered))]

/-- The loop of `appendCanonicalAssistantResponse`. -/
def canonicalAssistantItems : List Bytes → List AssistantContentEntry →
    Except BuildError (List InputItem)
  | pending, [] => flushPending enc pending
  | pending, .block content :: entries => canonicalAssistantItems (pending ++ [content]) entries
  | pending, .toolCall call :: entries =>
    match flushPending enc pending with
    | .error err => .error err
    | .ok flushed => (canonicalAssistantItems [] entries).map fun items =>
        flushed ++ .functionCall call.providerCallId call.name call.input :: items

variable (media : List (Bytes × ResolvedMedia)) (policy : RequestPolicy)
  (target : ProviderReplayIdentity)

/-- `appendAssistantResponseEntry`. -/
def assistantResponseItems (source : ModelContext.Message) (content : List AssistantContentEntry) :
    Except BuildError (List InputItem) :=
  let replayed := if policy.allowsProviderReplay source.sequence then
      completeResponseReplay source content target
    else none
  match replayed with
  | some items => .ok (items.map .raw)
  | none => canonicalAssistantItems enc [] content

def messageItems (entry : HistoryEntry) : Except BuildError (List InputItem) :=
  match entry.message.role with
  | .assistant => assistantResponseItems enc policy target entry.message entry.assistantContent
  | .user => .ok [.message .user
      (.parts (renderOpenAIInputContent enc media entry.message.content))]
  | .other name => .error (.unsupportedRole name)

def outputItem (result : ToolResultRef) : InputItem :=
  .functionCallOutput result.providerCallId (toolResultOutput enc media result)

def entryItems (entry : HistoryEntry) : Except BuildError (List InputItem) :=
  (messageItems enc media policy target entry).map
    (· ++ entry.toolResults.map (outputItem enc media))

end

def buildInput (enc : Encodings) (bundle : Bundle) (target : ProviderReplayIdentity)
    (policy : RequestPolicy) : Except BuildError (List InputItem) :=
  match canonicalHistory bundle with
  | .error err => .error (.history err)
  | .ok history =>
    match history.mapM (entryItems enc (renderableMedia bundle.resolvedMedia) policy target) with
    | .error err => .error err
    | .ok entries => .ok (
        (bundle.contextCheckpoint.toList.map fun text => .message .user (.text text)) ++
        entries.flatten ++
        (bundle.machinePools.toList ++ bundle.integrationTargets.toList).map fun text =>
          .message .system (.text text))

end OpenAIResponses
