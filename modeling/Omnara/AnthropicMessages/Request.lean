import Omnara.AnthropicMessages.Response
import Omnara.Model.Replay

/-!
# The messages of an Anthropic request (`internal/model/anthropicmessages/request.go`)

`buildMessages` renders the canonical history: the blocks of neighbouring entries of one role share a
message, an assistant entry is replayed if the provider's own blocks still mean what the history says
(`completeAnthropicReplay`) and is rebuilt with new tool ids otherwise, and the last block that can
carry it becomes the cache breakpoint. `Block` has the blocks as the builder keeps them: its own
structs, replayed blocks and the map a cache breakpoint turns a block into.
-/

namespace AnthropicMessages

open Json
open Model
open ModelContext
open Text (formatInt trimSpace)

structure CacheControl where
  type : Bytes
  ttl : Bytes
  deriving DecidableEq

def CacheControl.value (c : CacheControl) : Value :=
  .obj ((ascii "type", .str c.type) :: if c.ttl = [] then [] else [(ascii "ttl", .str c.ttl)])

/-! ## Blocks -/

structure MediaSource where
  type : Bytes
  mediaType : Bytes
  data : Bytes
  deriving DecidableEq

/-- `textBlock`, and `mediaBlock` of its two types. -/
inductive ContentPart
  | text (text : Bytes) (cacheControl : Option CacheControl)
  | image (source : MediaSource)
  | document (source : MediaSource)
  deriving DecidableEq

inductive Block
  | part (part : ContentPart)
  /-- `toolUseBlock` -/
  | toolUse (id name input : Bytes)
  /-- `toolResultBlock`; the content is nil if the result's parts do not decode -/
  | toolResult (toolUseId : Bytes) (content : Option (List ContentPart)) (isError : Bool)
  /-- a replayed block -/
  | raw (value : Value)
  /-- the map of a block with a cache breakpoint -/
  | fields (members : Members)
  deriving DecidableEq

inductive Role
  | user | assistant
  deriving DecidableEq

structure Message where
  role : Role
  content : List Block
  deriving DecidableEq

/-! ## Content parts -/

def anthropicMediaBlock (enc : Encodings) (resolved : ResolvedMedia) : Option ContentPart :=
  if resolved.kind = .image then
    some (.image ⟨ascii "base64", resolved.mediaType, enc.base64 resolved.data⟩)
  else if resolved.mediaType = ascii "application/pdf" then
    some (.document ⟨ascii "base64", resolved.mediaType, enc.base64 resolved.data⟩)
  else if isTextDocumentMediaType resolved.mediaType then
    some (.document ⟨ascii "text", ascii "text/plain", resolved.data⟩)
  else none

def renderableMedia (media : List (Bytes × ResolvedMedia)) : List (Bytes × ResolvedMedia) :=
  media.filter fun (_, resolved) => resolved.kind = .image ||
    resolved.mediaType = ascii "application/pdf" || isTextDocumentMediaType resolved.mediaType

/-- One part of a message or a tool result; `written` is the text of a value in it. -/
def renderPart (enc : Encodings) (written : Bytes → Bytes) (media : List (Bytes × ResolvedMedia))
    (part : Fields) : List ContentPart :=
  let type := jsonFieldText part "type"
  let text := jsonFieldText part "text"
  if type = ascii "media_ref" then
    let artifactId := jsonFieldText part "artifact_id"
    match media.lookup artifactId with
    | some resolved =>
      match anthropicMediaBlock enc resolved with
      | some block =>
        match enc.artifactPublicId artifactId with
        | [] => [block]
        | ref => [.text (ascii "artifact_id: " ++ ref) none, block]
      | none => []
    | none =>
      match mediaRefText enc part with
      | [] => []
      | text => [.text text none]
  else if type = ascii "reasoning" then []
  else if trimSpace text ≠ [] then [.text text none]
  else if type = ascii "structured_data" then
    match lookup part (ascii "value") with
    | none | some [] => []
    | some value => [.text (written value) none]
  else []

def renderAnthropicContent (enc : Encodings) (media : List (Bytes × ResolvedMedia)) (raw : Bytes) :
    Option (List ContentPart) :=
  (contentParts raw).map (·.flatMap (renderPart enc id media))

def messageBlocksFromParts (enc : Encodings) (media : List (Bytes × ResolvedMedia)) (raw : Bytes) :
    List Block :=
  ((renderAnthropicContent enc media raw).getD []).map .part

/-! ## Tool ids -/

def idChar (c : UInt8) : Bool :=
  (97 ≤ c && c ≤ 122) || (65 ≤ c && c ≤ 90) || (48 ≤ c && c ≤ 57) || c == 95 || c == 45

/-- `sanitizeID`; the bytes of characters beyond ASCII are no `idChar`s. -/
def sanitizeID (value : Bytes) : Bytes := value.filter idChar

/-- `hex.EncodeToString`. -/
def hexString (data : Bytes) : Bytes :=
  data.flatMap fun c : UInt8 => [hexDigit (c >>> 4), hexDigit (c &&& 15)]

/-- The loop of `anthropicToolUseID`: `none` if it has not ended after the rounds. -/
def freeId (used : List Bytes) (suffix : Bytes) : Nat → Nat → Bytes → Bytes → Option Bytes
  | rounds, index, base, id =>
    if id ∈ used then
      match rounds with
      | 0 => none
      | rounds + 1 =>
        let extra := ascii "_" ++ formatInt index
        let base := base.take (64 - suffix.length - extra.length - 1)
        freeId used suffix rounds (index + 1) base (base ++ ascii "_" ++ suffix ++ extra)
    else some id

/-- `anthropicToolUseID` under a hash function, with `used.length + 1` rounds for its loop. The caller
adds the id to the used ones. -/
def anthropicToolUseID (sha256 : Bytes → Vector UInt8 32) (result : ToolResultRef)
    (used : List Bytes) : Option Bytes :=
  let base := sanitizeID (result.modelCallContextId ++ ascii "_" ++ result.providerCallId)
  let base := if base = [] then sanitizeID result.toolCallId else base
  let base := if base = [] then ascii "toolu" else base
  let sum := sha256 (result.modelCallContextId ++ ascii ":" ++ result.toolCallId ++ ascii ":" ++
    result.providerCallId)
  let suffix := (hexString sum.toList).take 8
  let base := base.take (64 - suffix.length - 1)
  freeId used suffix (used.length + 1) 1 base (base ++ ascii "_" ++ suffix)

/-! ## Replayed outputs -/

/-- The meaning of a replayed block, if it has one; `none` if the block is not accepted. The ids that
are taken are those of earlier entries and of earlier blocks. -/
def replaySemantic (taken : List Bytes) (raw : Value) : Option (Option ReplaySemantic) :=
  match decodeContentBlock raw with
  | none => none
  | some block =>
    if block.type = ascii "text" then
      some (if trimSpace block.text = [] then none else some { kind := .text, text := block.text })
    else if block.type = ascii "thinking" then
      if block.signature = [] then none
      else some (if block.thinking = [] then none
        else some { kind := .reasoning, text := block.thinking })
    else if block.type = ascii "redacted_thinking" then
      if block.data = [] then none else some none
    else if block.type = ascii "tool_use" then
      if block.id = [] ∨ block.name = [] ∨ block.id ∈ taken ∨ !validToolInput block.input then none
      else some (some ⟨.toolCall, [], block.id, block.name, block.input⟩)
    else none

def anthropicReplaySemantics (taken : List Bytes) : List Value → Option (List ReplaySemantic)
  | [] => some []
  | raw :: rest =>
    match replaySemantic taken raw with
    | none => none
    | some none => anthropicReplaySemantics taken rest
    | some (some semantic) =>
      (anthropicReplaySemantics (callIds [semantic] ++ taken) rest).map (semantic :: ·)

/-- What an entry contributes: its blocks, the tool ids of its calls and the ids used so far. -/
structure Turn where
  blocks : List Block
  /-- the map from provider call ids, later entries last -/
  toolUseIds : List (Bytes × Bytes)
  usedIds : List Bytes
  deriving DecidableEq

def completeAnthropicReplay (source : ModelContext.Message) (content : List AssistantContentEntry)
    (target : ProviderReplayIdentity) (usedIds : List Bytes) : Option Turn :=
  if !identityMatches source.providerReplaySource target then none
  else match (decode source.providerReplay).bind listItems with
    | none | some [] => none
    | some rawBlocks =>
      match anthropicReplaySemantics usedIds rawBlocks,
          canonicalSemantics (some { kind := .media }) content with
      | some replayed, some canonical =>
        if sameSemantics replayed canonical then
          some ⟨rawBlocks.map .raw, (callIds replayed).map fun id => (id, id),
            usedIds ++ callIds replayed⟩
        else none
      | _, _ => none

/-! ## Entries -/

inductive BuildError
  /-- `build anthropic-messages history: %w` -/
  | history (err : HistoryError)
  /-- the error of `json.Marshal` -/
  | marshal
  /-- no error of the source: the loop for a tool id has not ended -/
  | unending
  deriving DecidableEq

section
variable (enc : Encodings) (sha256 : Bytes → Vector UInt8 32)

/-- The loop of `assistantTurnForEntry` that rebuilds an entry. -/
def rebuildEntries : Turn → List AssistantContentEntry → Except BuildError Turn
  | turn, [] => .ok turn
  | turn, .toolCall call :: content =>
    match anthropicToolUseID sha256 call turn.usedIds with
    | none => .error .unending
    | some id =>
      rebuildEntries ⟨turn.blocks ++ [.toolUse id call.name call.input],
        turn.toolUseIds ++ [(call.providerCallId, id)], turn.usedIds ++ [id]⟩ content
  | turn, .block raw :: content =>
    match marshalledParts [raw] with
    | none => .error .marshal
    | some parts =>
      let rendered := (parts.getD []).flatMap (renderPart enc compact [])
      rebuildEntries { turn with blocks := turn.blocks ++ rendered.map .part } content

def assistantTurnForEntry (entry : HistoryEntry) (target : ProviderReplayIdentity)
    (policy : RequestPolicy) (usedIds : List Bytes) : Except BuildError Turn :=
  let replayed := if policy.allowsProviderReplay entry.message.sequence then
      completeAnthropicReplay entry.message entry.assistantContent target usedIds
    else none
  match replayed with
  | some turn => .ok turn
  | none => rebuildEntries enc sha256 ⟨[], [], usedIds⟩ entry.assistantContent

end

/-! ## Messages -/

def appendMessageBlocks (messages : List Message) (role : Role) (blocks : List Block) :
    List Message :=
  match messages.getLast? with
  | some last =>
    if last.role = role then messages.dropLast ++ [⟨role, last.content ++ blocks⟩]
    else messages ++ [⟨role, blocks⟩]
  | none => messages ++ [⟨role, blocks⟩]

def MediaSource.value (source : MediaSource) : Value :=
  .obj [(ascii "type", .str source.type), (ascii "media_type", .str source.mediaType),
    (ascii "data", .str source.data)]

/-- `json.Marshal` of a content part. -/
def ContentPart.value : ContentPart → Value
  | .text body cacheControl =>
    .obj ([(ascii "type", .str (ascii "text")), (ascii "text", .str body)] ++
      match cacheControl with
      | some control => [(ascii "cache_control", control.value)]
      | none => [])
  | .image source => .obj [(ascii "type", .str (ascii "image")), (ascii "source", source.value)]
  | .document source =>
    .obj [(ascii "type", .str (ascii "document")), (ascii "source", source.value)]

/-- `json.Marshal` of a block; an input that is no JSON is an error, one that is nil is `null`. -/
def Block.value : Block → Option Value
  | .part p => some p.value
  | .toolUse id name input =>
    (if input = [] then some .null else decode input).map fun input =>
      .obj [(ascii "type", .str (ascii "tool_use")), (ascii "id", .str id), (ascii "name", .str name),
        (ascii "input", input)]
  | .toolResult toolUseId content isError =>
    some (.obj ([(ascii "type", .str (ascii "tool_result")), (ascii "tool_use_id", .str toolUseId),
      (ascii "content", match content with
        | some parts => .arr (parts.map ContentPart.value)
        | none => .null)] ++ if isError then [(ascii "is_error", .bool true)] else []))
  | .raw value => some value
  | .fields members => some (.obj members)

/-- The map of a block that can carry a cache breakpoint. -/
def cacheableBlock (block : Block) : Option Members :=
  match block.value with
  | some (.obj members) =>
    let map := toMap (memberMaps members)
    let type := textMember map "type"
    if type = ascii "text" then if trimSpace (textMember map "text") ≠ [] then some map else none
    else if ["tool_use", "tool_result", "image", "document"].any (ascii · = type) then some map
    else none
  | _ => none

def markBlock (control : CacheControl) (block : Block) : Option Block :=
  (cacheableBlock block).map fun map =>
    .fields (setMember (ascii "cache_control") control.value map)

def markBlocks (control : CacheControl) : List Block → Option (List Block)
  | [] => none
  | block :: blocks =>
    match markBlocks control blocks with
    | some marked => some (block :: marked)
    | none => (markBlock control block).map (· :: blocks)

def markMessages (control : CacheControl) : List Message → Option (List Message)
  | [] => none
  | message :: messages =>
    match markMessages control messages with
    | some marked => some (message :: marked)
    | none => (markBlocks control message.content).map fun blocks =>
        { message with content := blocks } :: messages

def markLastMessageCacheBreakpoint (messages : List Message) (control : Option CacheControl) :
    List Message :=
  match control with
  | none => messages
  | some control => (markMessages control messages).getD messages

structure Building where
  messages : List Message
  usedIds : List Bytes
  historyAdded : Bool

def toolResultBlock (enc : Encodings) (media : List (Bytes × ResolvedMedia))
    (toolUseIds : List (Bytes × Bytes)) (result : ToolResultRef) : Block :=
  .toolResult ((toolUseIds.reverse.lookup result.providerCallId).getD [])
    (renderAnthropicContent enc media result.contentParts) (result.outcome = .failed)

section
variable (enc : Encodings) (sha256 : Bytes → Vector UInt8 32)
variable (media : List (Bytes × ResolvedMedia)) (policy : RequestPolicy)
variable (target : ProviderReplayIdentity)

def buildEntry (b : Building) (entry : HistoryEntry) : Except BuildError Building :=
  if entry.message.role = .assistant then
    match assistantTurnForEntry enc sha256 entry target policy b.usedIds with
    | .error err => .error err
    | .ok turn =>
      let b := if turn.blocks = [] then { b with usedIds := turn.usedIds }
        else ⟨appendMessageBlocks b.messages .assistant turn.blocks, turn.usedIds, true⟩
      if entry.toolResults = [] then .ok b
      else .ok { b with
        messages := appendMessageBlocks b.messages .user
          (entry.toolResults.map (toolResultBlock enc media turn.toolUseIds))
        historyAdded := true }
  else
    let blocks := messageBlocksFromParts enc media entry.message.content
    if blocks = [] then .ok b
    else .ok { b with
      messages := appendMessageBlocks b.messages .user blocks
      historyAdded := true }

def buildEntries : Building → List HistoryEntry → Except BuildError Building
  | b, [] => .ok b
  | b, entry :: history =>
    match buildEntry enc sha256 media policy target b entry with
    | .error err => .error err
    | .ok b => buildEntries b history

end

def continueMessage : Message := ⟨.user, [.part (.text (ascii "Continue.") none)]⟩

/-- The last steps: the breakpoint and the first message. -/
def finishMessages (control : Option CacheControl) (b : Building) : List Message :=
  let messages := if b.historyAdded then markLastMessageCacheBreakpoint b.messages control
    else b.messages
  match messages with
  | [] => [continueMessage]
  | first :: _ => if first.role = .assistant then continueMessage :: messages else messages

def checkpointMessages (checkpoint : Option Bytes) (control : Option CacheControl) : List Message :=
  match checkpoint with
  | some text => appendMessageBlocks [] .user [.part (.text text control)]
  | none => []

def buildMessages (enc : Encodings) (sha256 : Bytes → Vector UInt8 32) (bundle : Bundle)
    (policy : RequestPolicy) (target : ProviderReplayIdentity) (control : Option CacheControl) :
    Except BuildError (List Message) :=
  match canonicalHistory bundle with
  | .error err => .error (.history err)
  | .ok history =>
    (buildEntries enc sha256 (renderableMedia bundle.resolvedMedia) policy target
      ⟨checkpointMessages bundle.contextCheckpoint control, [], false⟩ history).map
      (finishMessages control)

end AnthropicMessages
