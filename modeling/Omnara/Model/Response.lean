import Omnara.Lib.JsonValue
import Omnara.Lib.Text
import Omnara.Model.Stream

/-!
# Normalised responses (`internal/model/response.go`, `internal/modelenvelope`)

The parts of a provider's response as they are stored, the validation of tool inputs
(`ValidateToolInput`, `dbsafe.JSONStrings`), the identity under which a response may be replayed, and the
comparison of JSON texts up to their canonical form (`internal/jsoncanonical`). A `json.RawMessage` is
the value its text spells, `none` if it spells none.
-/

namespace JsonCanonical

open Json (Bytes Value Members)

/-! ## Equality of JSON values -/

/-- A decimal exponent with an optional sign that fits 64 bits. -/
def exponent (digits : Bytes) : Option Int :=
  let value := match digits with
    | 43 :: digits => (Json.natOfDigits digits).map fun n => (n : Int)
    | 45 :: digits => (Json.natOfDigits digits).map fun n => -(n : Int)
    | digits => (Json.natOfDigits digits).map fun n => (n : Int)
  value.filter fun n => -2 ^ 63 ≤ n ∧ n < 2 ^ 63

/-- `big.Rat.SetString` on a JSON number. It gives up on exponents beyond a million; the exponent of
zero only has to fit. -/
def numberValue (literal : Bytes) : Option Rat :=
  let (negative, digits) := match literal with
    | 45 :: digits => (true, digits)
    | digits => (false, digits)
  let whole := digits.takeWhile Json.isDigit
  let rest := digits.dropWhile Json.isDigit
  let (fraction, rest) := match rest with
    | 46 :: rest => (rest.takeWhile Json.isDigit, rest.dropWhile Json.isDigit)
    | rest => ([], rest)
  let exp := match rest with
    | [] => some 0
    | _ :: digits => exponent digits
  match Json.natOfDigits (whole ++ fraction), exp with
  | some mantissa, some exp =>
    let value : Int := if negative then -mantissa else mantissa
    let exp := exp - fraction.length
    if mantissa = 0 then some 0
    else if 1000000 < exp.natAbs then none
    else if exp < 0 then some (mkRat value (10 ^ exp.natAbs))
    else some (value * 10 ^ exp.natAbs)
  | _, _ => none

def numbersEqual (left right : Bytes) : Bool :=
  match numberValue left, numberValue right with
  | some left, some right => left == right
  | _, _ => false

def keyCount (members : Members) : Nat := (members.map Prod.fst).eraseDups.length

mutual

def valuesEqual : Value → Value → Bool
  | .null, .null => true
  | .bool left, .bool right => left == right
  | .str left, .str right => left == right
  | .num left, .num right => numbersEqual left right
  | .arr left, .arr right => itemsEqual left right
  | .obj left, .obj right => keyCount left == keyCount right && membersEqual left right
  | _, _ => false

def itemsEqual : List Value → List Value → Bool
  | [], [] => true
  | left :: lefts, right :: rights => valuesEqual left right && itemsEqual lefts rights
  | _, _ => false

/-- A member that a later one of the same name replaces is not in the map. -/
def membersEqual : Members → Members → Bool
  | [], _ => true
  | (key, value) :: rest, right =>
    (rest.any (·.1 == key) ||
      match right.reverse.lookup key with
      | some other => valuesEqual value other
      | none => false) && membersEqual rest right

end

/-- `Equal`, on the values of the texts. -/
def equal (left right : Option Value) : Bool :=
  match left, right with
  | some left, some right => valuesEqual left right
  | _, _ => false

end JsonCanonical

namespace Model

open Json (Bytes Value Members ascii)
open ModelContext
open Text (trimSpace)

/-! ## Tool inputs -/

/-- `ValidateToolInput`: the input is a JSON object. -/
def validToolInput : Option Value → Bool
  | some (.obj _) => true
  | _ => false

/-- The value of a tool input that is given as a text; the validation cuts the white space around it. -/
def inputValue (input : Bytes) : Option Value := Json.decode (trimSpace input)

/-- `dbsafe.Text`. -/
def textSafe (text : Bytes) : Bool := Text.valid text && !text.contains 0

mutual

/-- `dbsafe.JSONStrings`. -/
def stringsSafe : Value → Bool
  | .str text => textSafe text
  | .arr items => itemsSafe items
  | .obj members => membersSafe members
  | _ => true

def itemsSafe : List Value → Bool
  | [] => true
  | item :: items => stringsSafe item && itemsSafe items

def membersSafe : Members → Bool
  | [] => true
  | (key, value) :: rest => textSafe key && stringsSafe value && membersSafe rest

end

/-! ## Parts -/

inductive ResponsePartType
  | text | error | toolCall | reasoning
  deriving DecidableEq

structure ResponsePart where
  type : ResponsePartType
  text : Bytes := []
  providerCallId : Bytes := []
  toolName : Bytes := []
  toolInput : Option Value := none
  toolCallError : Bytes := []
  deriving DecidableEq

def textPart (type : ResponsePartType) (text : Bytes) : List ResponsePart :=
  if text = [] then [] else [{ type := type, text := text }]

def incompleteToolCallError : Bytes :=
  ascii ("The tool call was incomplete and was not executed. Retry with complete arguments, " ++
    "splitting large inputs into smaller calls.")

def unparseableToolCallName : Bytes := ascii "unparseable_tool_call"

def missingNameError : Bytes :=
  ascii ("The tool call had no usable tool name and was not executed. " ++
    "Retry using an available tool name.")

def invalidInputError : Bytes :=
  ascii ("The tool arguments must be a complete JSON object and were not executed. " ++
    "Retry with valid JSON, splitting large inputs into smaller calls.")

def unsafeInputError : Bytes :=
  ascii ("The tool arguments contain unsupported characters and were not executed. " ++
    "Retry without null characters or invalid Unicode.")

def toolInputError : Option Value → Option Bytes
  | some (.obj members) => if stringsSafe (.obj members) then none else some unsafeInputError
  | _ => some invalidInputError

def keptInput (input : Option Value) : Value :=
  match toolInputError input, input with
  | none, some value => value
  | _, _ => .obj []

def newToolCallPart (id name : Bytes) (input : Option Value) : ResponsePart where
  type := .toolCall
  providerCallId := if trimSpace id ≠ [] then id else []
  toolName := if trimSpace name = [] then unparseableToolCallName else name
  toolInput := some (keptInput input)
  toolCallError := if trimSpace name = [] then missingNameError else (toolInputError input).getD []

/-- `NormalizeToolInput` of arguments that are given as a text. -/
def normalizeToolInput (arguments : Bytes) : Option Bytes :=
  if validToolInput (inputValue arguments) then some (trimSpace arguments) else none

/-- The text of the input a call keeps, for arguments that are given as a text. -/
def keptArguments (arguments : Bytes) : Bytes :=
  match toolInputError (inputValue arguments) with
  | none => trimSpace arguments
  | some _ => ascii "\x7b\x7d"

theorem toolInputError_eq_none {input : Option Value} (h : toolInputError input = none) :
    ∃ members, input = some (.obj members) := by
  unfold toolInputError at h
  split at h
  · exact ⟨_, rfl⟩
  · cases h

theorem keptInput_obj (input : Option Value) : ∃ members, keptInput input = .obj members := by
  unfold keptInput
  split
  · rename_i value hnone
    obtain ⟨members, hinp⟩ := toolInputError_eq_none hnone
    exact ⟨members, Option.some.inj hinp⟩
  · exact ⟨[], rfl⟩

theorem decode_keptArguments (arguments : Bytes) :
    Json.decode (keptArguments arguments) = some (keptInput (inputValue arguments)) := by
  unfold keptArguments keptInput
  split
  · rename_i hnone
    obtain ⟨members, hinp⟩ := toolInputError_eq_none hnone
    rw [hnone, hinp]
    exact hinp
  · rename_i err herr
    rw [herr]
    rfl

/-! ## Responses -/

/-- `ValidateProviderJSON`, with the value of the body. -/
def validateProviderJSON (body : Bytes) : Except Bytes Value :=
  if !Text.valid body then .error (ascii "provider response contains invalid UTF-8")
  else match Json.decode body with
    | none => .error (ascii "provider response is not valid JSON")
    | some value =>
      if stringsSafe value then .ok value
      else .error (ascii "provider response contains a NUL string value")

/-- `route.Response`, without its header. -/
structure HttpResponse where
  statusCode : Int
  body : Bytes
  deriving DecidableEq

inductive ParseError
  /-- an HTTP status that is no success -/
  | http
  /-- an error the provider reports in the body -/
  | provider
  /-- a response that is not as it should be: the text of the cause -/
  | invalid (cause : Bytes)
  /-- the same, with a text that ends with a quoted name -/
  | invalidName (cause name : Bytes)
  /-- a response that does not decode: the error of `json.Unmarshal` -/
  | json
  deriving DecidableEq

/-- `providererrors.CodeText` is not empty. -/
def hasCodeText : Option Value → Bool
  | some (.str text) => trimSpace text ≠ []
  | some (.num _) => true
  | _ => false

/-- `model.Response`, without the provider's request id, cost and metadata. -/
structure Response where
  id : Bytes := []
  servedProviderModelSlug : Bytes := []
  usage : Usage := {}
  content : List ResponsePart := []
  stopReason : StopReason := .none
  providerReplay : Option Value := none
  deriving DecidableEq

/-- `NormalizeStopReason`; the reasons are the known ones already. -/
def normalizeStopReason (reason : StopReason) (hasToolCalls : Bool) : StopReason :=
  if reason = .none then if hasToolCalls then .toolUse else .endTurn else reason

/-! ## Replays -/

def identityValid (i : ProviderReplayIdentity) : Bool :=
  trimSpace i.modelProviderConfigId ≠ [] && trimSpace i.requestedProviderModelSlug ≠ [] &&
    trimSpace i.apiFormat ≠ [] && trimSpace i.apiVariant ≠ []

def identityMatches (i other : ProviderReplayIdentity) : Bool :=
  identityValid i && identityValid other && i == other

structure RequestPolicy where
  providerReplayCutoffEventSequence : Int := 0
  deriving DecidableEq

def RequestPolicy.allowsProviderReplay (p : RequestPolicy) (eventSequence : Int) : Bool :=
  p.providerReplayCutoffEventSequence ≤ 0 || p.providerReplayCutoffEventSequence < eventSequence

end Model
