import Omnara.Model.Response
import Omnara.OpenAIResponses.Stream

/-!
# Parsing Responses (`internal/model/openairesponses/response.go`)

`parseResponse` turns the output items of a response into parts and keeps the items for a replay. The
item of a function call is written anew, with the name and the arguments its part has and without its
status (`responseFunctionCallForReplay`).
-/

namespace OpenAIResponses

open Json
open Model
open ModelContext (StopReason)
open Text (trimSpace)

/-! ## Output items -/

structure ResponsesContentPart where
  type : Bytes
  text : Bytes
  refusal : Bytes
  deriving DecidableEq

def readContentPart (members : Members) : Option ResponsesContentPart := do
  return {
    type := ← stringField members "type"
    text := ← stringField members "text"
    refusal := ← stringField members "refusal" }

structure ResponsesSummaryPart where
  type : Bytes
  text : Bytes
  deriving DecidableEq

def readSummaryPart (members : Members) : Option ResponsesSummaryPart := do
  return { type := ← stringField members "type", text := ← stringField members "text" }

structure ResponsesOutputItem where
  id : Bytes
  type : Bytes
  status : Bytes
  callId : Bytes
  name : Bytes
  arguments : Bytes
  content : List ResponsesContentPart
  summary : List ResponsesSummaryPart
  encryptedContent : Bytes
  deriving DecidableEq

/-- `json.Unmarshal` into a `responsesOutputItem`; the arguments are a `ToolArgumentString`. -/
def decodeOutputItem (raw : Value) : Option ResponsesOutputItem := do
  let members ← structMembers raw
  return {
    id := ← stringField members "id"
    type := ← stringField members "type"
    status := ← stringField members "status"
    callId := ← stringField members "call_id"
    name := ← stringField members "name"
    arguments := laxStringField members "arguments"
    content := ← structsField readContentPart members "content"
    summary := ← structsField readSummaryPart members "summary"
    encryptedContent := ← stringField members "encrypted_content" }

def reasoningSummaryText (item : ResponsesOutputItem) : Bytes :=
  List.intercalate [10, 10] ((item.summary.map fun part => trimSpace part.text).filter (· ≠ []))

/-- The types of `validProviderOnlyResponseItem`. -/
def providerOnlyTypes : List String :=
  ["file_search_call", "function_call_output", "web_search_call", "computer_call",
    "computer_call_output", "tool_search_call", "tool_search_output", "compaction",
    "code_interpreter_call", "local_shell_call", "local_shell_call_output", "shell_call",
    "shell_call_output", "apply_patch_call", "apply_patch_call_output", "mcp_call",
    "mcp_list_tools", "mcp_approval_request", "mcp_approval_response", "custom_tool_call",
    "custom_tool_call_output"]

def validProviderOnlyResponseItem (item : ResponsesOutputItem) : Bool :=
  item.id ≠ [] && providerOnlyTypes.any (ascii · = item.type)

/-- The text of one content part of a message, `none` if its type is not supported. -/
def contentText (part : ResponsesContentPart) : Option Bytes :=
  if part.type = ascii "output_text" ∨ part.type = ascii "text" then some part.text
  else if part.type = ascii "refusal" then some part.refusal
  else none

/-! ## Parts and replay items -/

/-- The parts of a message, in `ParseResponse`. -/
def messageParts : List ResponsesContentPart → Except ParseError (List ResponsePart)
  | [] => .ok []
  | part :: parts =>
    match contentText part with
    | none => .error (.invalidName
        (ascii "openai-responses message has unsupported content type") part.type)
    | some text => (messageParts parts).map (textPart .text text ++ ·)

def unsupportedSummary (item : ResponsesOutputItem) : Option ResponsesSummaryPart :=
  item.summary.find? (·.type ≠ ascii "summary_text")

/-- The part of a function call; a call that has not completed may be incomplete. -/
def functionCallPart (item : ResponsesOutputItem) : ResponsePart :=
  let part := newToolCallPart item.callId item.name (inputValue item.arguments)
  if item.status ≠ [] ∧ item.status ≠ ascii "completed" then
    { part with toolCallError := incompleteToolCallError }
  else part

/-- The item of a function call with the name and arguments of its part. The arguments are a valid
input, so there is no error. -/
def responseFunctionCallForReplay (raw : Value) (name arguments : Bytes) : Value :=
  match raw with
  | .obj members =>
    let fields := setMember (ascii "arguments") (.str arguments) (toMap members)
    let fields := setMember (ascii "name") (.str name) fields
    .obj (eraseMember (ascii "status") fields)
  | raw => raw

/-- One output item: its item for the replay and its parts. -/
def parseItem (raw : Value) (item : ResponsesOutputItem) :
    Except ParseError (Value × List ResponsePart) :=
  if item.type = ascii "message" then (messageParts item.content).map fun parts => (raw, parts)
  else if item.type = ascii "reasoning" then
    match unsupportedSummary item with
    | some part => .error (.invalidName
        (ascii "openai-responses reasoning has unsupported summary type") part.type)
    | none => .ok (raw, textPart .reasoning (reasoningSummaryText item))
  else if item.type = ascii "function_call" then
    if trimSpace item.callId = [] then
      .error (.invalid (ascii "openai-responses function call is missing call_id"))
    else
      let part := functionCallPart item
      .ok (responseFunctionCallForReplay raw part.toolName (keptArguments item.arguments), [part])
  else if !validProviderOnlyResponseItem item then
    .error (.invalidName (ascii "openai-responses output has unsupported item type") item.type)
  else .ok (raw, [])

/-- The loop over the output; `seen` are the item ids so far. -/
def parseItems : List Bytes → List Value → Except ParseError (List (Value × List ResponsePart))
  | _, [] => .ok []
  | seen, raw :: raws =>
    match decodeOutputItem raw with
    | none => .error .json
    | some item =>
      if item.id ≠ [] ∧ item.id ∈ seen then
        .error (.invalidName (ascii "openai-responses output reused item id") item.id)
      else match parseItem raw item with
        | .error err => .error err
        | .ok parsed =>
          (parseItems (if item.id ≠ [] then item.id :: seen else seen) raws).map (parsed :: ·)

/-! ## Responses -/

structure ResponsesError where
  code : Option Value
  type : Bytes
  message : Bytes
  deriving DecidableEq

def ResponsesError.present (e : ResponsesError) : Bool :=
  hasCodeText e.code || e.type ≠ [] || e.message ≠ []

structure ResponsesTokenDetails where
  cachedTokens : Int
  cacheWriteTokens : Int
  reasoningTokens : Int
  deriving DecidableEq

structure ResponsesUsage where
  inputTokens : Int
  outputTokens : Int
  outputTokensDetails : ResponsesTokenDetails
  inputTokensDetails : ResponsesTokenDetails
  deriving DecidableEq

/-- `responsesResponse`, without the type of its error. -/
structure ResponsesResponse where
  id : Bytes
  model : Bytes
  status : Bytes
  error : ResponsesError
  incompleteReason : Bytes
  output : List Value
  usage : ResponsesUsage
  deriving DecidableEq

def readTokenDetails (members : Members) : Option ResponsesTokenDetails := do
  return {
    cachedTokens := ← intField members "cached_tokens"
    cacheWriteTokens := ← intField members "cache_write_tokens"
    reasoningTokens := ← intField members "reasoning_tokens" }

/-- `json.Unmarshal` into a `responsesResponse`. -/
def decodeResponsesResponse (body : Value) : Option ResponsesResponse := do
  let members ← structMembers body
  let error ← structField members "error"
  let incomplete ← structField members "incomplete_details"
  let usage ← structField members "usage"
  let _ ← stringField members "error_type"
  return {
    id := ← stringField members "id"
    model := ← stringField members "model"
    status := ← stringField members "status"
    error := {
      code := rawField error "code"
      type := ← stringField error "type"
      message := ← stringField error "message" }
    incompleteReason := ← stringField incomplete "reason"
    output := ← listField members "output"
    usage := {
      inputTokens := ← intField usage "input_tokens"
      outputTokens := ← intField usage "output_tokens"
      outputTokensDetails := ← (← structField usage "output_tokens_details") |> readTokenDetails
      inputTokensDetails := ← (← structField usage "input_tokens_details") |> readTokenDetails } }

def usageFromResponse (usage : ResponsesUsage) : Usage :=
  let cached := usage.inputTokensDetails.cachedTokens
  let written := usage.inputTokensDetails.cacheWriteTokens
  let reasoning := usage.outputTokensDetails.reasoningTokens
  if usage.inputTokens < 0 ∨ cached < 0 ∨ written < 0 ∨ usage.outputTokens < 0 ∨ reasoning < 0 ∨
      usage.inputTokens < cached ∨ usage.inputTokens - cached < written ∨
      usage.outputTokens < reasoning then {}
  else {
    inputTokens := usage.inputTokens
    uncachedInputTokens := usage.inputTokens - cached - written
    outputTokens := usage.outputTokens
    reasoningTokens := reasoning
    cacheReadTokens := cached
    cacheWriteTokens := written }

/-- A content part of some output item is a refusal. -/
def refuses (output : List Value) : Bool :=
  output.any fun raw => ((decodeOutputItem raw).map fun item =>
    item.content.any (·.type = ascii "refusal")).getD false

def stopReasonFromResponse (response : ResponsesResponse) : StopReason :=
  if response.status = ascii "failed" then .unknown
  else if response.status = ascii "incomplete" then
    if response.incompleteReason = ascii "max_output_tokens" then
      if refuses response.output then .refusal else .maxTokens
    else if response.incompleteReason = ascii "content_filter" then .contentFilter
    else .unknown
  else if response.status ≠ [] ∧ response.status ≠ ascii "completed" then .unknown
  else if refuses response.output then .refusal
  else .endTurn

/-- The checks of a decoded response before its output is read. -/
def checkResponse (decoded : ResponsesResponse) : Except ParseError Unit :=
  if decoded.status = [] ∧ decoded.error.present then .error .provider
  else if decoded.status = ascii "failed" then .error .provider
  else if decoded.status = ascii "queued" ∨ decoded.status = ascii "in_progress" then
    .error .provider
  else if decoded.status ≠ ascii "completed" ∧ decoded.status ≠ ascii "incomplete" then
    .error (.invalidName (ascii "openai-responses response has unexpected status") decoded.status)
  else if decoded.id = [] then
    .error (.invalid (ascii "openai-responses response is missing id"))
  else .ok ()

def parseResponse (resp : HttpResponse) : Except ParseError Response :=
  if resp.statusCode < 200 ∨ 300 ≤ resp.statusCode then .error .http
  else match validateProviderJSON resp.body with
    | .error cause => .error (.invalid cause)
    | .ok body =>
      match decodeResponsesResponse body with
      | none => .error .json
      | some decoded =>
        match checkResponse decoded with
        | .error err => .error err
        | .ok () =>
          match parseItems [] decoded.output with
          | .error err => .error err
          | .ok items =>
            let parts := items.flatMap Prod.snd
            let reason := stopReasonFromResponse decoded
            .ok {
              id := decoded.id
              servedProviderModelSlug := decoded.model
              usage := usageFromResponse decoded.usage
              content := parts
              stopReason := if reason = .endTurn ∧ parts.any (·.type = .toolCall) then .toolUse
                else reason
              providerReplay := if items.isEmpty then none else some (.arr (items.map Prod.fst)) }

end OpenAIResponses
