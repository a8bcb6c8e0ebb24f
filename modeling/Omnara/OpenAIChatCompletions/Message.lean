import Omnara.OpenAIChatCompletions.Response

/-!
# The message a chat completions stream is assembled into (`responseMessage`)

What `responseBody` makes of the choice of the accumulator once the stream has ended.
-/

namespace OpenAIChatCompletions

open Json (Bytes Value ascii)

/-- The JSON of a field. The raw ones were decoded from a document, so they are JSON. -/
def FieldValue.value : FieldValue → Option Value
  | .raw value => Json.decode value
  | .text value => some (.str value)

namespace ChoiceState

/-- `json.Marshal` of the fields of a reasoning detail: a map is written with its keys in order. -/
def detailMessage (detail : ReasoningDetailState) : Option Value := do
  let members ← (detail.fields.mergeSort fun x y => x.1 ≤ y.1).mapM fun (key, field) =>
    field.value.map (key, ·)
  return .obj members

def reasoningDetailMessages (s : ChoiceState) : Option (List Value) :=
  s.reasoningDetails.mapM fun (_, detail) => detailMessage detail

def toolCallMessage (tool : ToolCallState) : ChatToolCall where
  id := tool.id
  type := if tool.callType = [] then ascii "function" else tool.callType
  name := tool.name
  arguments := tool.arguments

def toolCallMessages (s : ChoiceState) : List ChatToolCall :=
  (s.toolCalls.mergeSort fun x y => x.1 ≤ y.1).map fun (_, tool) => toolCallMessage tool

/-- `responseMessage`; it fails if a field of a detail is no JSON. -/
def responseMessage (s : ChoiceState) : Option ChatResponseMessage := do
  let reasoningDetails ← s.reasoningDetailMessages
  return {
    role := if s.role = [] then ascii "assistant" else s.role
    content := some (if s.text = [] then .null else .str s.text)
    refusal := s.refusal
    reasoning := s.reasoning
    reasoningContent := s.reasoningContent
    reasoningDetails
    toolCalls := s.toolCallMessages.map ChatToolCall.value }

theorem responseMessage_text {s : ChoiceState} {message : ChatResponseMessage}
    (h : s.responseMessage = some message) : textFromChatContent message.content = .ok s.text := by
  obtain ⟨details, -, h⟩ := Option.bind_eq_some_iff.mp h
  cases h
  dsimp only
  split
  · rename_i hemp
    rw [hemp]
    rfl
  · rfl

end ChoiceState

end OpenAIChatCompletions
