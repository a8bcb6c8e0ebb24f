import Mathlib.Data.List.Forall2
import Omnara.Lib.Jsonb
import Omnara.Model.Response
import Omnara.ModelContext.Media

/-!
# What the replay matchers of the providers share

An output is replayed if the provider's own items mean what the canonical history says. Both sides are
lists of `ReplaySemantic`s: the canonical side is read from the entries of the history
(`canonicalAnthropicSemantics`, `canonicalChatSemantics` and `canonicalResponseSemantics` differ in the
treatment of attachments only) and the sides are compared one by one (`sameAnthropicSemantics` and its
two copies). The stored form of a response's parts is `StoredAs`: texts unchanged, tool inputs equal up to
their canonical form, parts with an empty text left out (`createModelOutputContentBlocksTx` in
`internal/storage/executionstore/model_outputs_content_projection.go`). The columns of the tool inputs and
of the provider's own items (`ReplayStored`) are `jsonb`.
-/

namespace Model

open Json (Bytes Value ascii)
open ModelContext
open Text (trimSpace)

inductive SemanticKind
  | text | reasoning | toolCall | media
  deriving DecidableEq

/-- `anthropicReplaySemantic`, `chatReplaySemantic` and `responseReplaySemantic`. -/
structure ReplaySemantic where
  kind : SemanticKind
  text : Bytes := []
  callId : Bytes := []
  name : Bytes := []
  input : Option Value := none
  deriving DecidableEq

/-- The meaning of one entry; `media` is the meaning of an attachment, if it has one. -/
def canonicalSemantic (media : Option ReplaySemantic) :
    AssistantContentEntry → Option ReplaySemantic
  | .toolCall call =>
    if validToolInput (inputValue call.input) then
      some ⟨.toolCall, [], call.providerCallId, call.name, Json.decode call.input⟩
    else none
  | .block content =>
    match partFields content with
    | none => none
    | some part =>
      let type := jsonFieldText part "type"
      if type = ascii "text" then some { kind := .text, text := jsonFieldText part "text" }
      else if type = ascii "reasoning" then
        some { kind := .reasoning, text := jsonFieldText part "text" }
      else if type = ascii "media_ref" then media
      else none

def canonicalSemantics (media : Option ReplaySemantic) (content : List AssistantContentEntry) :
    Option (List ReplaySemantic) :=
  content.mapM (canonicalSemantic media)

def sameSemantic (left right : ReplaySemantic) : Bool :=
  left.kind == right.kind && left.text == right.text && left.callId == right.callId &&
    left.name == right.name &&
    (left.kind != .toolCall || JsonCanonical.equal left.input right.input)

def sameSemantics : List ReplaySemantic → List ReplaySemantic → Bool
  | [], [] => true
  | left :: lefts, right :: rights => sameSemantic left right && sameSemantics lefts rights
  | _, _ => false

def textSemantic (kind : SemanticKind) (text : Bytes) : List ReplaySemantic :=
  if text = [] then [] else [{ kind := kind, text := text }]

def callIds (semantics : List ReplaySemantic) : List Bytes :=
  semantics.filterMap fun s => if s.kind = .toolCall then some s.callId else none

/-! ## Storage -/

def ResponsePart.kept (part : ResponsePart) : Bool := part.type == .toolCall || part.text != []

def ResponsePart.semantic (part : ResponsePart) : ReplaySemantic :=
  match part.type with
  | .toolCall => ⟨.toolCall, [], part.providerCallId, part.toolName, part.toolInput⟩
  | .reasoning => { kind := .reasoning, text := part.text }
  | .text | .error => { kind := .text, text := part.text }

def toolCallIds (parts : List ResponsePart) : List Bytes :=
  (parts.filter (·.type = .toolCall)).map (·.providerCallId)

/-- The type of the block a part with a text is stored as. -/
def blockType : ResponsePartType → Bytes
  | .text => ascii "text"
  | .error => ascii "error"
  | .reasoning => ascii "reasoning"
  | .toolCall => ascii "tool_call"

/-- An entry of the canonical history that stores a part. A `jsonb` column writes no white space around
the input. -/
def StoredPart (part : ResponsePart) : AssistantContentEntry → Prop
  | .block content => part.type ≠ .toolCall ∧ ∃ fields ∈ partFields content,
      jsonFieldText fields "type" = blockType part.type ∧ jsonFieldText fields "text" = part.text
  | .toolCall call => part.type = .toolCall ∧ call.providerCallId = part.providerCallId ∧
      call.name = part.toolName ∧ trimSpace call.input = call.input ∧
      JsonCanonical.equal part.toolInput (Json.decode call.input)

instance (part : ResponsePart) : ∀ entry, Decidable (StoredPart part entry)
  | .block content => inferInstanceAs (Decidable (_ ∧ ∃ fields ∈ partFields content, _))
  | .toolCall _ => inferInstanceAs (Decidable (_ ∧ _))

/-- The canonical content a response's parts come back as. -/
def StoredAs (parts : List ResponsePart) (content : List AssistantContentEntry) : Prop :=
  List.Forall₂ StoredPart (parts.filter ResponsePart.kept) content

instance (parts : List ResponsePart) (content : List AssistantContentEntry) :
    Decidable (StoredAs parts content) :=
  inferInstanceAs (Decidable (List.Forall₂ _ (parts.filter ResponsePart.kept) content))

/-- How a `jsonb` column writes numbers. The literal may change and the value does not; a number that
`numberValue` gives up on is beyond `numeric`, and its insert fails. -/
structure JsonbNumbers where
  write : Bytes → Bytes
  value : ∀ literal number, JsonCanonical.numberValue literal = some number →
    JsonCanonical.numberValue (write literal) = some number

def JsonbNumbers.asWritten : JsonbNumbers := ⟨id, fun _ _ h => h⟩

/-- The source has the replay as the column `provider_replay` gives it back. -/
def ReplayStored (numbers : JsonbNumbers) (replay : Option Value) (source : ModelContext.Message) :
    Prop :=
  Json.decode source.providerReplay = replay.map (Json.jsonb numbers.write)

instance (numbers : JsonbNumbers) (replay : Option Value) (source : ModelContext.Message) :
    Decidable (ReplayStored numbers replay source) := inferInstanceAs (Decidable (_ = _))

end Model
