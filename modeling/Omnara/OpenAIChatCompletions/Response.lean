import Omnara.Model.Response
import Omnara.OpenAIChatCompletions.Stream

/-!
# Parsing chat completions (`internal/model/openaichatcompletions/response.go`)

`parseResponse` turns the one message of a completion into parts: the reasoning, the text (or the
refusal, if there is no text) and the tool calls. A message with reasoning or tool calls is kept for a
replay (`chatReplayForRequest`).
-/

namespace OpenAIChatCompletions

open Json
open Model
open ModelContext (StopReason)
open Text (formatInt trimSpace)

/-! ## Messages -/

/-- `chatToolCall` with its `chatFunction`. -/
structure ChatToolCall where
  id : Bytes
  type : Bytes
  name : Bytes
  arguments : Bytes
  deriving DecidableEq

/-- `json.Unmarshal` into a `chatToolCall`; the arguments are a `ToolArgumentString`. -/
def decodeChatToolCall (raw : Value) : Option ChatToolCall := do
  let members ← structMembers raw
  let function ← structField members "function"
  return {
    id := ← stringField members "id"
    type := ← stringField members "type"
    name := ← stringField function "name"
    arguments := laxStringField function "arguments" }

/-- `json.Marshal` of a `chatToolCall`. -/
def ChatToolCall.value (call : ChatToolCall) : Value :=
  .obj [(ascii "id", .str call.id), (ascii "type", .str call.type),
    (ascii "function", .obj (optionalText "name" call.name ++
      optionalText "arguments" call.arguments))]

structure ChatResponseMessage where
  role : Bytes
  content : Option Value
  refusal : Bytes
  reasoning : Bytes
  reasoningContent : Bytes
  reasoningDetails : List Value
  toolCalls : List Value
  deriving DecidableEq

/-- `json.Unmarshal` into a `chatResponseMessage`, from the members. -/
def readChatMessage (members : Members) : Option ChatResponseMessage := do
  return {
    role := ← stringField members "role"
    content := rawField members "content"
    refusal := ← stringField members "refusal"
    reasoning := ← stringField members "reasoning"
    reasoningContent := ← stringField members "reasoning_content"
    reasoningDetails := ← listField members "reasoning_details"
    toolCalls := ← listField members "tool_calls" }

/-- `json.Marshal` of a `chatResponseMessage` with content. -/
def ChatResponseMessage.value (message : ChatResponseMessage) : Value :=
  .obj ([(ascii "role", .str message.role), (ascii "content", message.content.getD .null)] ++
    optionalText "refusal" message.refusal ++ optionalText "reasoning" message.reasoning ++
    optionalText "reasoning_content" message.reasoningContent ++
    optionalList "reasoning_details" message.reasoningDetails ++
    optionalList "tool_calls" message.toolCalls)

/-- A tool call as `chatReplayForRequest` writes it. -/
def replayToolCall (raw : Value) : Except ParseError ChatToolCall :=
  match decodeChatToolCall raw with
  | none => .error .json
  | some call =>
    if call.type ≠ ascii "function" ∨ call.id = [] ∨ call.name = [] then
      .error (.invalid (ascii "chat replay has an invalid function call"))
    else match normalizeToolInput call.arguments with
      | none => .error (.invalid (ascii "tool input must be a JSON object"))
      | some input => .ok { call with arguments := input }

def chatReplayForRequest (message : ChatResponseMessage) : Except ParseError Value :=
  let role := if message.role = [] then ascii "assistant" else message.role
  if role ≠ ascii "assistant" then .error (.invalidName (ascii "chat replay has role") role)
  else match message.toolCalls.mapM replayToolCall with
    | .error err => .error err
    | .ok calls => .ok (ChatResponseMessage.value { message with
        role := role
        content := some (message.content.getD .null)
        toolCalls := calls.map ChatToolCall.value })

/-! ## Texts -/

structure ChatTextPart where
  type : Bytes
  text : Bytes
  refusal : Bytes
  deriving DecidableEq

def readChatTextPart (members : Members) : Option ChatTextPart := do
  return {
    type := ← stringField members "type"
    text := ← stringField members "text"
    refusal := ← stringField members "refusal" }

def textsFromParts : Nat → List ChatTextPart → Except ParseError (List Bytes)
  | _, [] => .ok []
  | index, part :: parts =>
    let position := ascii "openai chat completions message content part " ++ formatInt index
    if part.type ≠ ascii "text" ∧ part.type ≠ ascii "refusal" then
      .error (.invalidName (position ++ ascii " has unsupported type") part.type)
    else
      let text := if part.type = ascii "text" then part.text else part.refusal
      if text = [] then .error (.invalid (position ++ ascii " is missing text"))
      else (textsFromParts (index + 1) parts).map (text :: ·)

def textFromChatContent (content : Option Value) : Except ParseError Bytes :=
  match content with
  | none | some .null => .ok []
  | some (.str text) => .ok text
  | some (.arr items) =>
    match items.mapM fun item => (structMembers item).bind readChatTextPart with
    | none => .error (.invalid (ascii ("openai chat completions message content must be a " ++
        "string, null, or supported text-part array")))
    | some [] => .error (.invalid (ascii
        "openai chat completions message content array is empty"))
    | some parts => (textsFromParts 0 parts).map (List.intercalate [10])
  | some _ => .error (.invalid (ascii ("openai chat completions message content must be a " ++
        "string, null, or supported text-part array")))

/-- The text of one reasoning detail: its summary, or its text. -/
def detailText (detail : Value) : Bytes :=
  match structMembers detail with
  | none => []
  | some members =>
    match stringField members "type", stringField members "summary", stringField members "text" with
    | some _, some summary, some text =>
      if trimSpace summary ≠ [] then trimSpace summary else trimSpace text
    | _, _, _ => []

def reasoningTextFromDetails (details : List Value) : Bytes :=
  List.intercalate [10, 10] ((details.map detailText).filter (· ≠ []))

def reasoningTextFromChatMessage (message : ChatResponseMessage) : Bytes :=
  let text := reasoningTextFromDetails message.reasoningDetails
  if text ≠ [] then text
  else if trimSpace message.reasoning ≠ [] then trimSpace message.reasoning
  else trimSpace message.reasoningContent

def chatMessageHasReasoningReplay (message : ChatResponseMessage) : Bool :=
  trimSpace message.reasoning ≠ [] || trimSpace message.reasoningContent ≠ [] ||
    !message.reasoningDetails.isEmpty

/-! ## Responses -/

/-- `chatProviderError` with its metadata. -/
structure ChatProviderError where
  message : Bytes
  type : Bytes
  code : Option Value
  errorType : Bytes
  providerCode : Bytes
  raw : Option Value
  deriving DecidableEq

def readChatProviderError (members : Members) : Option ChatProviderError := do
  let metadata ← structField members "metadata"
  return {
    message := ← stringField members "message"
    type := ← stringField members "type"
    code := rawField members "code"
    errorType := ← stringField metadata "error_type"
    providerCode := ← stringField metadata "provider_code"
    raw := rawField metadata "raw" }

def ChatProviderError.present (e : ChatProviderError) : Bool :=
  e.message ≠ [] || e.type ≠ [] || hasCodeText e.code || e.errorType ≠ [] || e.providerCode ≠ [] ||
    (e.raw ≠ none && e.raw ≠ some .null)

structure ChatChoice where
  index : Int
  message : ChatResponseMessage
  finishReason : Bytes
  nativeFinishReason : Bytes
  error : ChatProviderError
  deriving DecidableEq

def readChatChoice (members : Members) : Option ChatChoice := do
  return {
    index := ← intField members "index"
    message := ← (← structField members "message") |> readChatMessage
    finishReason := ← stringField members "finish_reason"
    nativeFinishReason := laxStringField members "native_finish_reason"
    error := ← (← structField members "error") |> readChatProviderError }

def ChatChoice.hasError (c : ChatChoice) : Bool := equalFoldError c.finishReason || c.error.present

def readTokenDetails (members : Members) : Option TokenDetails := do
  return {
    cachedTokens := ← intField members "cached_tokens"
    cacheWriteTokens := ← intField members "cache_write_tokens"
    reasoningTokens := ← intField members "reasoning_tokens" }

/-- `json.Unmarshal` into a `chatUsage`, without the costs. -/
def readChatUsage (members : Members) : Option ChatUsage := do
  return {
    promptTokens := ← intField members "prompt_tokens"
    promptCacheHitTokens := laxIntField members "prompt_cache_hit_tokens"
    cachedTokens := laxIntField members "cached_tokens"
    completionTokens := ← intField members "completion_tokens"
    promptTokensDetails := ← (← structField members "prompt_tokens_details") |> readTokenDetails
    completionTokensDetails :=
      ← (← structField members "completion_tokens_details") |> readTokenDetails }

/-- `chatCompletionsResponse`, without the provider's name. -/
structure ChatCompletionsResponse where
  id : Bytes
  model : Bytes
  choices : List ChatChoice
  usage : ChatUsage
  error : ChatProviderError
  deriving DecidableEq

def decodeChatCompletionsResponse (body : Value) : Option ChatCompletionsResponse := do
  let members ← structMembers body
  return {
    id := ← stringField members "id"
    model := ← stringField members "model"
    choices := ← structsField readChatChoice members "choices"
    usage := ← (← structField members "usage") |> readChatUsage
    error := ← (← structField members "error") |> readChatProviderError }

def usageFromResponse (usage : ChatUsage) : Usage :=
  if usage.promptTokens < 0 ∨ usage.completionTokens < 0 then {}
  else
    let cached := if usage.promptTokensDetails.cachedTokens = 0 then
        max usage.promptCacheHitTokens usage.cachedTokens
      else usage.promptTokensDetails.cachedTokens
    let written := usage.promptTokensDetails.cacheWriteTokens
    let (cached, written) := if cached < 0 ∨ written < 0 ∨ usage.promptTokens < cached ∨
        usage.promptTokens - cached < written then (0, 0) else (cached, written)
    let reasoning := usage.completionTokensDetails.reasoningTokens
    let reasoning := if reasoning < 0 ∨ usage.completionTokens < reasoning then 0 else reasoning
    { inputTokens := usage.promptTokens
      uncachedInputTokens := usage.promptTokens - cached - written
      outputTokens := usage.completionTokens
      reasoningTokens := reasoning
      cacheReadTokens := cached
      cacheWriteTokens := written }

def mapFinishReason (reason : Bytes) : StopReason :=
  if reason = ascii "stop" then .endTurn
  else if reason = ascii "tool_calls" ∨ reason = ascii "function_call" then .toolUse
  else if reason = ascii "length" then .maxTokens
  else if reason = ascii "content_filter" then .contentFilter
  else .unknown

/-- `strings.ToLower`, as far as a name of ASCII letters can come out. -/
def toLower : Bytes → Bytes
  | 0xE2 :: 0x84 :: 0xAA :: rest => 107 :: toLower rest
  | c :: rest => (if 65 ≤ c && c ≤ 90 then c + 32 else c) :: toLower rest
  | [] => []

/-- `compat.outputTruncated`; `native` says that native finish reasons are reported. -/
def outputTruncated (native : Bool) (finishReason nativeFinishReason : Bytes) : Bool :=
  finishReason = ascii "length" ||
    (native && ["", "stop", "tool_calls", "function_call"].any (ascii · = finishReason) &&
      ["length", "max_tokens", "max_output_tokens"].any
        (ascii · = toLower (trimSpace nativeFinishReason)))

/-- One tool call: its part and the call that is kept for the replay. -/
def parseToolCall (raw : Value) : Except ParseError (ResponsePart × ChatToolCall) :=
  match decodeChatToolCall raw with
  | none => .error .json
  | some call => .ok (newToolCallPart call.id call.name (inputValue call.arguments),
      { call with
        name := if trimSpace call.name = [] then unparseableToolCallName else call.name
        arguments := keptArguments call.arguments })

/-- The parts of a message, and its replay if it has one. -/
def parseMessage (message : ChatResponseMessage) :
    Except ParseError (List ResponsePart × Option Value) :=
  match textFromChatContent message.content with
  | .error err => .error err
  | .ok text =>
    let text := if text = [] then message.refusal else text
    let reasoning := reasoningTextFromChatMessage message
    match message.toolCalls.mapM parseToolCall with
    | .error err => .error err
    | .ok calls =>
      let parts := textPart .reasoning reasoning ++ textPart .text text ++ calls.map Prod.fst
      if chatMessageHasReasoningReplay message || !calls.isEmpty then
        match chatReplayForRequest { message with
            toolCalls := calls.map fun call => call.2.value } with
        | .error err => .error err
        | .ok replay => .ok (parts, some replay)
      else .ok (parts, none)

def parseResponse (native : Bool) (resp : HttpResponse) : Except ParseError Response :=
  if resp.statusCode < 200 ∨ 300 ≤ resp.statusCode then .error .http
  else match validateProviderJSON resp.body with
    | .error cause => .error (.invalid cause)
    | .ok body =>
      match decodeChatCompletionsResponse body with
      | none => .error .json
      | some decoded =>
        if decoded.error.present then .error .provider
        else if decoded.id = [] then
          .error (.invalid (ascii "openai chat completions response is missing id"))
        else match decoded.choices with
          | [choice] =>
            if choice.index ≠ 0 then
              .error (.invalid (ascii ("openai chat completions response choice index must be 0 " ++
                "(got ") ++ formatInt choice.index ++ ascii ")"))
            else
              let truncated := outputTruncated native choice.finishReason choice.nativeFinishReason
              if !choice.hasError && !truncated && trimSpace choice.finishReason = [] then
                .error (.invalid (ascii
                  "openai chat completions choice is missing finish_reason"))
              else if choice.hasError then .error .provider
              else match parseMessage choice.message with
                | .error err => .error err
                | .ok (parts, replay) =>
                  let reason := if choice.message.refusal ≠ [] then .refusal
                    else if truncated then .maxTokens else mapFinishReason choice.finishReason
                  .ok {
                    id := decoded.id
                    servedProviderModelSlug := decoded.model
                    usage := usageFromResponse decoded.usage
                    content := parts
                    stopReason := normalizeStopReason reason (parts.any (·.type = .toolCall))
                    providerReplay := replay }
          | choices =>
            .error (.invalid (ascii ("openai chat completions response must contain exactly one " ++
              "choice (got ") ++ formatInt choices.length ++ ascii ")"))

end OpenAIChatCompletions
