import Omnara.Model.Replay
import Omnara.OpenAIChatCompletions.Response

/-!
# The messages of a chat completions request (`internal/model/openaichatcompletions/request.go`,
`media.go`, `cache_control.go`)

`buildMessages` renders the canonical history. An assistant entry is one message, replayed if the
provider's own message still means what the history says (`completeChatReplay`), followed by the
messages of its tool results. `markCacheBreakpoints` comes last.
-/

namespace OpenAIChatCompletions

open Json (Bytes Value Members ascii)
open Model
open ModelContext
open Text (trimSpace)

inductive ChatRole
  | system | user | assistant | tool
  deriving DecidableEq

/-- The content of a message: nil, a string or a list of maps. -/
inductive ChatContent
  | none
  | text (text : Bytes)
  | parts (parts : List Members)
  deriving DecidableEq

structure ChatMessage where
  role : ChatRole
  content : ChatContent := .none
  toolCalls : List ChatToolCall := []
  toolCallId : Bytes := []
  providerReplay : Option Value := none
  deriving DecidableEq

/-! ## Content parts -/

def textMap (text : Bytes) : Members :=
  [(ascii "text", .str text), (ascii "type", .str (ascii "text"))]

def rendersAsChatText (resolved : ResolvedMedia) : Bool :=
  isTextDocumentMediaType resolved.mediaType && (resolved.data.isEmpty || Text.valid resolved.data)

def rendersAsChatDocument (resolved : ResolvedMedia) : Bool :=
  rendersAsChatText resolved || resolved.mediaType = ascii "application/pdf"

def renderableMedia (media : List (Bytes × ResolvedMedia)) : List (Bytes × ResolvedMedia) :=
  media.filter fun (_, resolved) => !resolved.data.isEmpty &&
    (resolved.kind = .image || (resolved.kind = .document && rendersAsChatDocument resolved))

def chatMediaPart (enc : Encodings) (resolved : ResolvedMedia) : Option Members :=
  if rendersAsChatText resolved then
    some (textMap (if resolved.filename = [] then resolved.data
      else ascii "File: " ++ enc.quote resolved.filename ++ [10, 10] ++ resolved.data))
  else
    let mediaType := if resolved.mediaType = ascii "text/tab-separated-values" then ascii "text/tsv"
      else resolved.mediaType
    let dataUrl := ascii "data:" ++ mediaType ++ ascii ";base64," ++ enc.base64 resolved.data
    match resolved.kind with
    | .image => some [(ascii "image_url", .obj [(ascii "url", .str dataUrl)]),
        (ascii "type", .str (ascii "image_url"))]
    | .document => some [(ascii "file", .obj [(ascii "file_data", .str dataUrl),
        (ascii "filename", .str (mediaFilename resolved.filename resolved.mediaType))]),
        (ascii "type", .str (ascii "file"))]
    | .other _ => none

/-- `textFromPart`; `written` is the text of a value in the part. -/
def textFromPart (enc : Encodings) (written : Bytes → Bytes) (part : Fields) : Bytes :=
  let type := jsonFieldText part "type"
  let text := jsonFieldText part "text"
  let value := ((Json.lookup part (ascii "value")).map written).getD []
  if type = ascii "reasoning" then []
  else if trimSpace text ≠ [] then text
  else if type = ascii "structured_data" ∧ value ≠ [] then value
  else if ["status", "error", "summary", "agent_ref", "tool_call_ref", "tool_result_ref",
      "interaction_ref"].any (ascii · = type) then enc.payload type part
  else []

/-- The text of a part in `textContentFromParts`, empty if it is left out. -/
def partText (enc : Encodings) (written : Bytes → Bytes) (media : List (Bytes × ResolvedMedia))
    (part : Fields) : Bytes :=
  if jsonFieldText part "type" = ascii "media_ref" then
    if (media.lookup (jsonFieldText part "artifact_id")).isSome then [] else mediaRefText enc part
  else
    let text := textFromPart enc written part
    if trimSpace text = [] then [] else text

def textContentFromParts (enc : Encodings) (written : Bytes → Bytes)
    (media : List (Bytes × ResolvedMedia)) (parts : Option (List Fields)) : Bytes :=
  List.intercalate [10]
    (((parts.getD []).map (partText enc written media)).filter (· ≠ []))

/-- One part of `userChatContentFromParts`: its text, its maps and whether it is an attachment. -/
structure UserPart where
  text : Option Bytes := none
  maps : List Members := []
  media : Bool := false
  deriving DecidableEq

def userPart (enc : Encodings) (media : List (Bytes × ResolvedMedia)) (part : Fields) : UserPart :=
  let textOnly (text : Bytes) : UserPart := { text := some text, maps := [textMap text] }
  if jsonFieldText part "type" = ascii "media_ref" then
    let artifactId := jsonFieldText part "artifact_id"
    match media.lookup artifactId with
    | some resolved =>
      match chatMediaPart enc resolved with
      | some block => {
          maps := (match enc.artifactPublicId artifactId with
            | [] => []
            | ref => [textMap (ascii "artifact_id: " ++ ref)]) ++ [block]
          media := true }
      | none => {}
    | none => if mediaRefText enc part = [] then {} else textOnly (mediaRefText enc part)
  else
    let text := textFromPart enc id part
    if trimSpace text = [] then {} else textOnly text

def userChatContentFromParts (enc : Encodings) (media : List (Bytes × ResolvedMedia))
    (raw : Bytes) : Option ChatContent :=
  match contentParts raw with
  | none => none
  | some parts =>
    let rendered := parts.map (userPart enc media)
    if (rendered.flatMap (·.maps)).isEmpty then none
    else if rendered.any (·.media) then some (.parts (rendered.flatMap (·.maps)))
    else some (.text (List.intercalate [10] (rendered.filterMap (·.text))))

def toolResultOutput (enc : Encodings) (media : List (Bytes × ResolvedMedia))
    (result : ToolResultRef) : Bytes :=
  textContentFromParts enc id media (contentParts result.contentParts)

/-- The attachments of a tool result; only images are shown. -/
def toolResultMediaContent (enc : Encodings) (media : List (Bytes × ResolvedMedia))
    (result : ToolResultRef) : List Members :=
  ((contentParts result.contentParts).getD []).flatMap fun part =>
    if jsonFieldText part "type" ≠ ascii "media_ref" then []
    else
      let artifactId := jsonFieldText part "artifact_id"
      match media.lookup artifactId with
      | some resolved =>
        if resolved.kind ≠ .image then []
        else match chatMediaPart enc resolved with
          | some block =>
            [textMap (ascii "Attachment returned by tool " ++ result.name ++
              ascii ". tool_call_id: " ++ result.providerCallId ++ ascii ". artifact_id: " ++
              enc.artifactPublicId artifactId), block]
          | none => []
      | none => []

/-! ## Replayed outputs -/

/-- The meaning of a replayed tool call, `none` if it is not accepted. -/
def toolCallSemantic (raw : Value) : Option ReplaySemantic :=
  match decodeChatToolCall raw with
  | none => none
  | some call =>
    if call.type ≠ ascii "function" ∨ call.id = [] ∨ call.name = [] ∨
        !validToolInput (inputValue call.arguments) then none
    else some ⟨.toolCall, [], call.id, call.name, Json.decode call.arguments⟩

def chatReplaySemantics (replay : ChatResponseMessage) : Option (List ReplaySemantic) :=
  if replay.role ≠ ascii "assistant" then none
  else match textFromChatContent replay.content with
    | .error _ => none
    | .ok text =>
      let reasoning := reasoningTextFromChatMessage replay
      let text := if text = [] then replay.refusal else text
      (replay.toolCalls.mapM toolCallSemantic).map fun calls =>
        textSemantic .reasoning reasoning ++ textSemantic .text text ++ calls

def completeChatReplay (source : ModelContext.Message) (content : List AssistantContentEntry)
    (target : ProviderReplayIdentity) : Option ChatMessage :=
  if !identityMatches source.providerReplaySource target then none
  else match ((Json.decode source.providerReplay).bind Json.structMembers).bind readChatMessage with
    | none => none
    | some message =>
      match chatReplaySemantics message, canonicalSemantics (some { kind := .media }) content with
      | some replayed, some canonical =>
        if sameSemantics replayed canonical then
          match chatReplayForRequest message with
          | .ok replay => some { role := .assistant, providerReplay := some replay }
          | .error _ => none
        else none
      | _, _ => none

/-! ## Messages -/

inductive BuildError
  /-- `build openai-chat-completions history: %w` -/
  | history (err : HistoryError)
  /-- the error of `json.Marshal` -/
  | marshal
  deriving DecidableEq

section
variable (enc : Encodings) (media : List (Bytes × ResolvedMedia))

def messageFromContext (message : ModelContext.Message) : Option ChatMessage :=
  match message.role with
  | .assistant =>
    let text := textContentFromParts enc id [] (contentParts message.content)
    if trimSpace text = [] then none else some { role := .assistant, content := .text text }
  | .user => (userChatContentFromParts enc media message.content).map fun content =>
      { role := .user, content := content }
  | .other _ => none

def toolResultMessage (result : ToolResultRef) : ChatMessage where
  role := .tool
  toolCallId := result.providerCallId
  content := .text (toolResultOutput enc media result)

/-- `appendToolResultMessages`: a message a result, and one for the attachments. -/
def appendToolResultMessages (messages : List ChatMessage) (results : List ToolResultRef) :
    List ChatMessage :=
  let mediaContent := results.flatMap (toolResultMediaContent enc media)
  messages ++ results.map (toolResultMessage enc media) ++
    if mediaContent.isEmpty then [] else [{ role := .user, content := .parts mediaContent }]

def rebuiltToolCall (result : ToolResultRef) : ChatToolCall :=
  ⟨result.providerCallId, ascii "function", result.name, result.input⟩

def rebuiltMessages (entry : HistoryEntry) : Except BuildError (List ChatMessage) :=
  let raws := entry.assistantContent.filterMap fun
    | .block content => some content
    | .toolCall _ => none
  match marshalledParts raws with
  | none => .error .marshal
  | some parts =>
    let text := textContentFromParts enc Json.compact [] parts
    let calls := entry.toolResults.map rebuiltToolCall
    if text = [] ∧ calls = [] then .ok []
    else .ok (appendToolResultMessages enc media
      [{ role := .assistant, content := .text text, toolCalls := calls }] entry.toolResults)

variable (policy : RequestPolicy) (target : ProviderReplayIdentity)

def assistantMessagesForEntry (entry : HistoryEntry) : Except BuildError (List ChatMessage) :=
  let replayed := if policy.allowsProviderReplay entry.message.sequence then
      completeChatReplay entry.message entry.assistantContent target
    else none
  match replayed with
  | some replay => .ok (appendToolResultMessages enc media [replay] entry.toolResults)
  | none => rebuiltMessages enc media entry

def entryMessages (entry : HistoryEntry) : Except BuildError (List ChatMessage) :=
  if entry.message.role = .assistant then assistantMessagesForEntry enc media policy target entry
  else .ok (messageFromContext enc media entry.message).toList

def historyMessages : List HistoryEntry → Except BuildError (List ChatMessage)
  | [] => .ok []
  | entry :: history =>
    match entryMessages enc media policy target entry with
    | .error err => .error err
    | .ok messages => (historyMessages history).map (messages ++ ·)

end

/-- The messages before the history: the system prompt and the context checkpoint. -/
def openingMessages (bundle : Bundle) : List ChatMessage :=
  (if trimSpace bundle.systemPrompt = [] then []
    else [{ role := .system, content := .text bundle.systemPrompt }]) ++
  (bundle.contextCheckpoint.toList.map fun text => { role := .user, content := .text text })

def closingMessages (bundle : Bundle) : List ChatMessage :=
  (bundle.machinePools.toList ++ bundle.integrationTargets.toList).map fun text =>
    { role := .system, content := .text text }

def continueMessage : ChatMessage := { role := .user, content := .text (ascii "Continue.") }

def withOpening (messages : List ChatMessage) : List ChatMessage :=
  match messages with
  | [] => [continueMessage]
  | first :: _ =>
    if first.role = .system ∨ first.role = .user then messages else continueMessage :: messages

def buildMessages (enc : Encodings) (bundle : Bundle) (policy : RequestPolicy)
    (target : ProviderReplayIdentity) : Except BuildError (List ChatMessage) :=
  match canonicalHistory bundle with
  | .error err => .error (.history err)
  | .ok history =>
    (historyMessages enc (renderableMedia bundle.resolvedMedia) policy target history).map
      fun messages => withOpening (openingMessages bundle ++ messages ++ closingMessages bundle)

/-! ## Cache breakpoints -/

def acceptsCacheBreakpoint (message : ChatMessage) : Bool :=
  match message.providerReplay, message.content with
  | none, .parts parts => !parts.isEmpty
  | _, _ => false

/-- The content as a list of parts, for a message of another role than the assistant's. -/
def withTextParts (message : ChatMessage) : ChatMessage :=
  match message.content with
  | .text text =>
    if message.role ≠ .assistant ∧ text ≠ [] then { message with content := .parts [textMap text] }
    else message
  | _ => message

def withCacheBreakpoint (control : Value) (message : ChatMessage) : ChatMessage :=
  match message.content with
  | .parts parts =>
    { message with
      content := .parts (parts.modifyLast (Json.setMember (ascii "cache_control") control)) }
  | _ => message

/-- The last message from `index` down that can carry the breakpoint, or the first one. -/
def breakpointIndex (messages : List ChatMessage) : Nat → Nat
  | 0 => 0
  | index + 1 =>
    match messages[index + 1]? with
    | some message =>
      if message.role = .assistant ∨ message.role = .system ∨ !acceptsCacheBreakpoint message then
        breakpointIndex messages index
      else index + 1
    | none => breakpointIndex messages index

def markCacheBreakpoints (messages : List ChatMessage) (control : Value) : List ChatMessage :=
  let messages := messages.map withTextParts
  let mark (message : ChatMessage) : ChatMessage :=
    if acceptsCacheBreakpoint message then withCacheBreakpoint control message else message
  let tail := breakpointIndex messages (messages.length - 1)
  let messages := messages.modify tail mark
  if tail = 0 then messages
  else messages.modify 0 fun message => if message.role = .system then mark message else message

end OpenAIChatCompletions
