import Omnara.AnthropicMessages.Response

/-!
# The response an Anthropic stream is assembled into

`assemble` and `responseBody` of the accumulator as the values of the texts they write, and
`rejectIncompleteToolInputs`, which goes over the parsed response with the inputs the stream recorded.
`JsonDecoders` is what the accumulator relies on `encoding/json` for.
-/

namespace AnthropicMessages

open Json
open Model
open ModelContext (StopReason)
open Text (formatInt trimSpace)

/-- The collected input if it is JSON, and an empty object otherwise. -/
def inputOrEmpty (rawInput : Bytes) : Value := (decode rawInput).getD (.obj [])

/-- `assemble`. A block of an unknown type is kept as it came. -/
def ActiveBlock.assembled (b : ActiveBlock) : Option Value :=
  match b.kind with
  | some .text => some (.obj [(ascii "text", .str b.text), (ascii "type", .str (ascii "text"))])
  | some .thinking => some (.obj [(ascii "signature", .str b.signature),
      (ascii "thinking", .str b.thinking), (ascii "type", .str (ascii "thinking"))])
  | some .toolUse => some (.obj [(ascii "id", .str b.toolID),
      (ascii "input", inputOrEmpty (trimSpace b.toolInputJSON)), (ascii "name", .str b.toolName),
      (ascii "type", .str (ascii "tool_use"))])
  | _ => decode b.raw

/-- `json.Unmarshal` of a content block, as far as its type is concerned, and `json.Marshal` of an
assembled one. The texts were decoded from JSON, so they are written as they are. -/
structure JsonDecoders (d : Decoders) : Prop where
  block : ∀ raw typed, d.block raw = .ok typed → ∃ value members, decode raw = some value ∧
    structMembers value = some members ∧ stringField members "type" = some typed.type
  assemble : ∀ block raw, d.assemble block = .ok raw → decode raw = block.assembled

/-! ## Frames as they are written -/

def rawMember (data : Bytes) (name : String) : Bytes :=
  match unmarshalRawObject data with
  | some (some members) => (lookup members (ascii name)).getD []
  | _ => []

def stringMember (data : Bytes) (name : String) : Bytes :=
  (unmarshalString (rawMember data name)).getD []

/-- Decoders for frames whose members have their exact names and no token counts. -/
def frameDecoders (assemble : ActiveBlock → Except Bytes Bytes) : Decoders where
  validateProviderJSON ev :=
    match validateProviderJSON ev.data with
    | .error cause => some cause
    | .ok _ => none
  messageStart data :=
    let message := rawMember data "message"
    .ok ⟨stringMember message "id", stringMember message "model", {}⟩
  contentBlockStart data :=
    .ok ⟨unmarshalInt (rawMember data "index"), rawMember data "content_block"⟩
  contentBlockDelta data := .ok ⟨unmarshalInt (rawMember data "index"), rawMember data "delta"⟩
  contentBlockStop data := .ok (unmarshalInt (rawMember data "index"))
  messageDelta data := .ok ⟨stringMember (rawMember data "delta") "stop_reason", {}⟩
  block raw :=
    match (decode raw).bind structMembers with
    | none => .error []
    | some members =>
      match stringField members "type" with
      | none => .error []
      | some type => .ok ⟨type, stringMember raw "id", stringMember raw "name", stringMember raw "text",
          rawMember raw "input"⟩
  delta raw := .ok ⟨stringMember raw "type", stringMember raw "text", stringMember raw "thinking",
    stringMember raw "signature", stringMember raw "partial_json"⟩
  providerError data := data
  assemble := assemble
  response _ := .ok (.toolUse, {})

theorem frameDecoders_json {assemble : ActiveBlock → Except Bytes Bytes}
    (hassemble : ∀ block raw, assemble block = .ok raw → decode raw = block.assembled) :
    JsonDecoders (frameDecoders assemble) where
  block raw typed h := by
    unfold frameDecoders at h
    dsimp only at h
    split at h
    · cases h
    rename_i members hmembers
    split at h
    · cases h
    rename_i type htype
    cases h
    obtain ⟨value, hvalue, hmembers⟩ := Option.bind_eq_some_iff.mp hmembers
    exact ⟨value, members, hvalue, hmembers, htype⟩
  assemble := hassemble

/-! ## The response -/

namespace StreamAccumulator

def usageValue (usage : RawUsage) : Value :=
  .obj [(ascii "input_tokens", .num (formatInt usage.inputTokens)),
    (ascii "output_tokens", .num (formatInt usage.outputTokens)),
    (ascii "cache_creation_input_tokens", .num (formatInt usage.cacheCreationInputTokens)),
    (ascii "cache_read_input_tokens", .num (formatInt usage.cacheReadInputTokens))]

/-- `responseBody`; `json.Marshal` writes the members in the order of their names. -/
def responseBody (a : StreamAccumulator) : Option Value := do
  let content ← a.content.mapM decode
  return .obj [(ascii "content", .arr content), (ascii "id", .str a.id),
    (ascii "model", .str a.servedModel), (ascii "role", .str (ascii "assistant")),
    (ascii "stop_reason", .str a.stopReasonRaw), (ascii "type", .str (ascii "message")),
    (ascii "usage", usageValue a.usageRaw)]

/-- A tool call with the input that was recorded for it. An input without a text is complete, unless the
response was cut off in its block. -/
def rejectPart (a : StreamAccumulator) (stopReason : StopReason) (input : ToolInput)
    (part : ResponsePart) : ResponsePart :=
  if input.rawInput = [] ∧ (stopReason ≠ .maxTokens ∨ input.blockIndex ≠ a.nextBlockIdx - 1) then
    part
  else if input.rawInput = [] ∨ !validToolInput (inputValue input.rawInput) then
    { part with toolCallError := incompleteToolCallError }
  else part

/-- The loop over the parts: every tool call takes the next input. -/
def rejectParts (a : StreamAccumulator) (stopReason : StopReason) :
    List ToolInput → List ResponsePart → List ResponsePart
  | _, [] => []
  | inputs, part :: parts =>
    if part.type ≠ .toolCall then part :: a.rejectParts stopReason inputs parts
    else match inputs with
      | [] => part :: parts
      | input :: inputs =>
        a.rejectPart stopReason input part :: a.rejectParts stopReason inputs parts

def rejectIncompleteToolInputs (a : StreamAccumulator) (response : Response) : Response :=
  { response with content := a.rejectParts response.stopReason a.toolInputs response.content }

end StreamAccumulator

end AnthropicMessages
