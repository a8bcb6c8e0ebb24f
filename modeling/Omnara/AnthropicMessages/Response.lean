import Omnara.AnthropicMessages.Stream
import Omnara.Model.Response

/-!
# Parsing Anthropic responses (`internal/model/anthropicmessages/response.go`)

`parseResponse` turns the content blocks of a response into parts and keeps the blocks for a replay. A
block of a tool call is written anew, with the name and the input the part has.
-/

namespace AnthropicMessages

open Json
open Model
open ModelContext (StopReason)
open Text (trimSpace)

structure ContentBlock where
  type : Bytes
  text : Bytes
  id : Bytes
  name : Bytes
  input : Option Value
  thinking : Bytes
  signature : Bytes
  data : Bytes
  deriving DecidableEq

/-- `json.Unmarshal` into a `contentBlock`. -/
def decodeContentBlock (raw : Value) : Option ContentBlock := do
  let members ← structMembers raw
  return {
    type := ← stringField members "type"
    text := ← stringField members "text"
    id := ← stringField members "id"
    name := ← stringField members "name"
    input := rawField members "input"
    thinking := ← stringField members "thinking"
    signature := ← stringField members "signature"
    data := ← stringField members "data" }

structure ErrorBody where
  type : Bytes
  errorType : Bytes
  message : Bytes
  deriving DecidableEq

def ErrorBody.present (e : ErrorBody) : Bool :=
  e.type ≠ [] || e.errorType ≠ [] || e.message ≠ []

structure MessagesResponse where
  id : Bytes
  type : Bytes
  model : Bytes
  content : List Value
  stopReason : Bytes
  usage : RawUsage
  error : ErrorBody
  requestId : Bytes

/-- `json.Unmarshal` into a `messagesResponse`. -/
def decodeMessagesResponse (body : Value) : Option MessagesResponse := do
  let members ← structMembers body
  let usage ← structField members "usage"
  let error ← structField members "error"
  return {
    id := ← stringField members "id"
    type := ← stringField members "type"
    model := ← stringField members "model"
    content := ← listField members "content"
    stopReason := ← stringField members "stop_reason"
    usage := {
      inputTokens := ← intField usage "input_tokens"
      outputTokens := ← intField usage "output_tokens"
      cacheCreationInputTokens := ← intField usage "cache_creation_input_tokens"
      cacheReadInputTokens := ← intField usage "cache_read_input_tokens" }
    error := {
      type := ← stringField error "type"
      errorType := ← stringField error "error_type"
      message := ← stringField error "message" }
    requestId := ← stringField members "request_id" }

def mapStopReason (reason : Bytes) : StopReason :=
  if reason = ascii "end_turn" then .endTurn
  else if reason = ascii "tool_use" then .toolUse
  else if reason = ascii "stop_sequence" then .endTurn
  else if reason = ascii "max_tokens" then .maxTokens
  else if reason = ascii "refusal" then .refusal
  else if reason = ascii "pause_turn" then .pause
  else if reason = ascii "model_context_window_exceeded" then .contextWindow
  else .unknown

/-- Counts that are negative or do not fit an `int` together are dropped. -/
def usageFromResponse (value : RawUsage) : Usage :=
  let total := value.inputTokens + value.cacheCreationInputTokens + value.cacheReadInputTokens
  if value.inputTokens < 0 ∨ value.outputTokens < 0 ∨ value.cacheCreationInputTokens < 0 ∨
      value.cacheReadInputTokens < 0 ∨ 2 ^ 63 ≤ total then {}
  else {
    inputTokens := total
    uncachedInputTokens := value.inputTokens
    outputTokens := value.outputTokens
    cacheWriteTokens := value.cacheCreationInputTokens
    cacheReadTokens := value.cacheReadInputTokens }

/-- The part of a tool call; a call at the cut-off of a response that was not streamed may be
incomplete. -/
def toolCallPart (block : ContentBlock) (cutOff : Bool) : ResponsePart :=
  let part := newToolCallPart block.id block.name block.input
  if cutOff then { part with toolCallError := incompleteToolCallError } else part

/-- `anthropicContentBlockForReplay` of a tool call with the name and input of its part. The input is an
object, so there is no error. -/
def toolUseForReplay (raw : Value) (part : ResponsePart) : Value :=
  match raw, part.toolInput with
  | .obj members, some input =>
    let fields := setMember (ascii "input") input (toMap members)
    .obj (setMember (ascii "name") (.str part.toolName) fields)
  | raw, _ => raw

/-- One content block: its block for the replay and its part, if it has one. -/
def parseBlock (raw : Value) (cutOff : Bool) : Except ParseError (Value × Option ResponsePart) :=
  match decodeContentBlock raw with
  | none => .error .json
  | some block =>
    if block.type = ascii "text" then
      .ok (raw, if trimSpace block.text = [] then none
        else some { type := .text, text := block.text })
    else if block.type = ascii "thinking" then
      .ok (raw, if block.thinking = [] then none
        else some { type := .reasoning, text := block.thinking })
    else if block.type = ascii "redacted_thinking" then .ok (raw, none)
    else if block.type = ascii "tool_use" then
      let part := toolCallPart block cutOff
      .ok (toolUseForReplay raw part, some part)
    else .error (.invalidName
      (ascii "anthropic messages response contains unsupported content block type") block.type)

/-- The loop over the content; `cutOff` says that the last block may be incomplete. -/
def parseBlocks (cutOff : Bool) : List Value → Except ParseError (List (Value × Option ResponsePart))
  | [] => .ok []
  | raw :: rest => do
    let block ← parseBlock raw (cutOff && rest.isEmpty)
    let blocks ← parseBlocks cutOff rest
    return block :: blocks

def parseResponse (resp : HttpResponse) (streamed : Bool) : Except ParseError Response :=
  if resp.statusCode < 200 ∨ 300 ≤ resp.statusCode then .error .http
  else match validateProviderJSON resp.body with
    | .error cause => .error (.invalid cause)
    | .ok body =>
      match decodeMessagesResponse body with
      | none => .error .json
      | some decoded =>
        if decoded.type = ascii "error" ∨ decoded.error.present then .error .provider
        else if decoded.id = [] then
          .error (.invalid (ascii "anthropic messages response is missing id"))
        else if trimSpace decoded.stopReason = [] then
          .error (.invalid (ascii "anthropic messages response is missing stop_reason"))
        else
          let reason := mapStopReason decoded.stopReason
          match parseBlocks (!streamed && reason = .maxTokens) decoded.content with
          | .error err => .error err
          | .ok blocks =>
            let content := blocks.filterMap Prod.snd
            .ok {
              id := decoded.id
              servedProviderModelSlug := decoded.model
              usage := usageFromResponse decoded.usage
              content := content
              stopReason := normalizeStopReason reason (content.any (·.type = .toolCall))
              providerReplay :=
                if blocks.isEmpty then none else some (.arr (blocks.map Prod.fst)) }

end AnthropicMessages
