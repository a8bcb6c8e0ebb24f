import Omnara.Lib.Json

/-!
# Content blocks (`internal/modelcontext/content_blocks.go`)

The blocks a message may carry, as the validation of `CanonicalHistory` accepts them. A Go string is
its bytes; `[]` is the empty string. The text of a JSON decoding error is not modelled.
-/

namespace ModelContext

open Json (Bytes ascii)

inductive MessageRole
  | user | assistant | other (name : Bytes)
  deriving DecidableEq

/-- Errors of one content block, without its position. -/
inductive BlockError
  /-- `%s is required` -/
  | required (field : Bytes)
  /-- `%s must be a string` -/
  | notString (field : Bytes)
  /-- `unsupported field %q` -/
  | unsupportedField (field : Bytes)
  /-- `unsupported type %q` -/
  | unsupportedType (kind : Bytes)
  /-- `%s is only valid on model outputs` -/
  | onlyModelOutput (kind : Bytes)
  deriving DecidableEq

inductive ContentError
  /-- `unsupported message role %q` -/
  | unsupportedRole (role : Bytes)
  /-- the error of `json.Unmarshal` -/
  | json
  /-- `must be a JSON array` -/
  | notArray
  /-- `content block %d must be a JSON object` -/
  | blockNotObject (index : Nat)
  /-- `content block %d: %w` -/
  | block (index : Nat) (err : BlockError)
  deriving DecidableEq

abbrev Fields := List (Bytes × Bytes)

def requiredContentBlockString (fields : Fields) (name : String) : Except BlockError Bytes :=
  match Json.lookup fields (ascii name) with
  | none => .error (.required (ascii name))
  | some raw =>
    match Json.unmarshalString raw with
    | none => .error (.notString (ascii name))
    | some value => .ok value

/-- Go ranges over the map in any order; this reports the first field in the order of the text. -/
def requireOnlyContentBlockFields (fields : Fields) (allowed : List String) :
    Except BlockError Unit :=
  match fields.find? fun f => !(allowed.map ascii).contains f.1 with
  | some f => .error (.unsupportedField f.1)
  | none => .ok ()

/-- The shape `validateTextContentBlock`, `validateReasoningContentBlock`,
`validateMediaRefContentBlock` and `validateToolCallContentBlock` share: `type` and one string
field, which some kinds require to be non-empty. -/
def validateStringBlock (fields : Fields) (name : String) (nonEmpty : Bool) :
    Except BlockError Unit :=
  match requireOnlyContentBlockFields fields ["type", name] with
  | .error err => .error err
  | .ok () =>
    match requiredContentBlockString fields name with
    | .error err => .error err
    | .ok value => if nonEmpty && value.isEmpty then .error (.required (ascii name)) else .ok ()

def validateTextContentBlock (fields : Fields) : Except BlockError Unit :=
  validateStringBlock fields "text" false

def validateReasoningContentBlock (fields : Fields) : Except BlockError Unit :=
  validateStringBlock fields "text" false

def validateMediaRefContentBlock (fields : Fields) : Except BlockError Unit :=
  validateStringBlock fields "artifact_id" true

def validateToolCallContentBlock (fields : Fields) : Except BlockError Unit :=
  validateStringBlock fields "tool_call_id" true

/-- One block of a message (the function literal of `validateMessageContentBlocks`). -/
def validateMessageBlock (role : MessageRole) (fields : Fields) : Except BlockError Unit :=
  match requiredContentBlockString fields "type" with
  | .error err => .error err
  | .ok kind =>
    if kind = ascii "text" then validateTextContentBlock fields
    else if kind = ascii "media_ref" then validateMediaRefContentBlock fields
    else if kind = ascii "reasoning" then
      if role ≠ .assistant then .error (.onlyModelOutput kind)
      else validateReasoningContentBlock fields
    else if kind = ascii "error" then
      if role ≠ .assistant then .error (.onlyModelOutput kind) else validateTextContentBlock fields
    else if kind = ascii "tool_call" then
      if role ≠ .assistant then .error (.onlyModelOutput kind)
      else validateToolCallContentBlock fields
    else .error (.unsupportedType kind)

/-- The loop of `validateContentBlockArray`. -/
def validateBlocks (validate : Fields → Except BlockError Unit) : Nat → List Bytes →
    Except ContentError Unit
  | _, [] => .ok ()
  | index, raw :: blocks =>
    match Json.unmarshalRawObject raw with
    | none | some none => .error (.blockNotObject index)
    | some (some fields) =>
      match validate fields with
      | .error err => .error (.block index err)
      | .ok () => validateBlocks validate (index + 1) blocks

def validateContentBlockArray (content : Bytes) (validate : Fields → Except BlockError Unit) :
    Except ContentError Unit :=
  match Json.unmarshalRawArray content with
  | none => .error .json
  | some none => .error .notArray
  | some (some blocks) => validateBlocks validate 0 blocks

def validateMessageContentBlocks (role : MessageRole) (content : Bytes) :
    Except ContentError Unit :=
  match role with
  | .other name => .error (.unsupportedRole name)
  | .user | .assistant => validateContentBlockArray content (validateMessageBlock role)

/-! ## Decoding one string field of a block into a struct -/

def lowerByte (c : UInt8) : UInt8 := if 65 ≤ c && c ≤ 90 then c + 32 else c

/-- `json.Unmarshal` into a struct with one string field. Members match the field name without
regard to case (the names used here have no other case folding), a later member replaces an earlier
one, `null` leaves the field alone, and a value of another type is an error. -/
def decodeStringField (raw : Bytes) (name : String) : Option Bytes :=
  match Json.unmarshalRawObject raw with
  | none => none
  | some none => some []
  | some (some fields) =>
    fields.foldl (fun field f =>
      if f.1.map lowerByte = (ascii name).map lowerByte then
        match field, Json.unmarshalString f.2 with
        | some old, some value => some (if Json.opening f.2 = some 110 then old else value)
        | _, _ => none
      else field) (some [])

end ModelContext
