import Omnara.Lib.Fallible
import Omnara.Model.Response
import Omnara.ModelContext.Budget

/-!
# Preparing a request (`PrepareForSend`, `internal/model/model.go`)

Before a request is sent the client encodes it, and its estimated input is held against the window of
the model. The client is a record of what the interface of the source answers: `Prepare` may estimate
whatever it likes, depending on the whole input. What `preparedRequestWithoutInlineMedia` makes of a
body is left open (`project`): an estimate uses its length only.
-/

namespace Model

open Fallible (ensure)
open Json (Bytes ascii)
open ModelContext
open Text (trimSpace)

/-! ## Policies and clients -/

inductive CacheRetention
  | unset | none | short | long
  deriving DecidableEq

structure Capabilities where
  contextWindowTokens : Int
  maxOutputTokens : Option Int := Option.none
  defaultMaxOutputTokens : Int := 0
  defaultCacheRetention : CacheRetention := .unset
  supportsTools : Option Bool := Option.none
  supportsReasoning : Bool := false
  defaultReasoningEffort : Bytes := []
  inputModalities : List Bytes := []
  outputModalities : List Bytes := []
  deriving DecidableEq

/-- `RequestPolicy` with the fields a request is prepared with. -/
structure SendPolicy extends RequestPolicy where
  maxOutputTokens : Int := 0
  cacheRetention : CacheRetention := .unset
  supportsTools : Option Bool := Option.none
  supportsReasoning : Option Bool := Option.none
  reasoningEffort : Bytes := []
  deriving DecidableEq

def requestPolicyFromCapabilities (c : Capabilities) : SendPolicy where
  maxOutputTokens :=
    if c.defaultMaxOutputTokens = 0 then c.maxOutputTokens.getD 0 else c.defaultMaxOutputTokens
  cacheRetention := c.defaultCacheRetention
  supportsTools := c.supportsTools
  supportsReasoning := some c.supportsReasoning
  reasoningEffort := c.defaultReasoningEffort

structure OutputTokenLimits where
  minimum : Int := 0
  required : Bool := false
  deriving DecidableEq

structure InputBudgetAssessment where
  estimatedInputTokens : Int := 0
  usableInputTokens : Int := 0
  deriving DecidableEq

def InputBudgetAssessment.fits (a : InputBudgetAssessment) : Bool :=
  a.estimatedInputTokens > 0 && a.estimatedInputTokens ≤ a.usableInputTokens

def InputBudgetAssessment.overBudget (a : InputBudgetAssessment) : Bool := !a.fits

structure PreparedRequest where
  body : Bytes
  inputTokenEstimate : Int := 0
  inputBudget : InputBudgetAssessment := {}
  maxOutputTokens : Int := 0
  deriving DecidableEq

/-- The bundle of a request with its rendered media. -/
structure RequestContext where
  bundle : Bundle
  renderedMedia : List RenderedMedia := []

structure PrepareInput where
  context : RequestContext
  policy : SendPolicy

structure PrepareForSendInput extends PrepareInput where
  reserveFullOutputAllowance : Bool := false

/-- An error of a client: one that `ClassifyError` knows, or any other with its text. -/
inductive ClientError (ε : Type)
  | classified (err : ε)
  | other (message : String)
  deriving DecidableEq

structure Client (ε : Type) where
  capabilities : Capabilities
  /-- `OutputTokenLimits`, if the client is an `OutputTokenLimitProvider`. -/
  outputTokenLimits : Option (Except (ClientError ε) OutputTokenLimits) := none
  prepare : PrepareInput → Except (ClientError ε) PreparedRequest

/-! ## Errors -/

/-- The errors of `PrepareForSend`: those of the client, and invalid requests. -/
inductive PrepareError (ε : Type)
  | client (err : ClientError ε)
  | limitRequired
  | limitIncompatible (maxOutputTokens minimum : Int)
  | invalidLimits (message : String)
  | windowTooSmall
  | emptyRequest
  | textInputNotAllowed
  | inputNotAllowed (modality : InputModality)
  | textOutputNotAllowed
  deriving DecidableEq

variable {ε : Type}

/-! ## Checks -/

def outputTokenLimitsForClient (client : Client ε) : Except (PrepareError ε) OutputTokenLimits :=
  match client.outputTokenLimits with
  | none => .ok {}
  | some (.error (.classified err)) => .error (.client (.classified err))
  | some (.error (.other message)) => .error (.invalidLimits message)
  | some (.ok limits) =>
    if limits.minimum < 0 then .error (.invalidLimits "minimum output token limit cannot be negative")
    else .ok limits

def OutputTokenLimits.validate (l : OutputTokenLimits) (maxOutputTokens : Int) :
    Except (PrepareError ε) Unit :=
  if l.required ∧ maxOutputTokens = 0 then .error .limitRequired
  else if l.minimum ≤ 0 ∨ maxOutputTokens ≥ l.minimum then .ok ()
  else .error (.limitIncompatible maxOutputTokens l.minimum)

/-- An upper-case ASCII letter as a lower-case one. `strings.EqualFold` with the names of the
modalities comes to this: no other letter folds to one of theirs. -/
def lowerByte (c : UInt8) : UInt8 := if 65 ≤ c ∧ c ≤ 90 then c + 32 else c

def containsModality (values : List Bytes) (want : InputModality) : Bool :=
  values.any fun value => (trimSpace value).map lowerByte = ascii want.name

def validateRequestModalities (context : RequestContext) (c : Capabilities) :
    Except (PrepareError ε) Unit := do
  if c.inputModalities ≠ [] then
    ensure (containsModality c.inputModalities .text = true) .textInputNotAllowed
    context.renderedMedia.forM fun media =>
      match media.inputModality with
      | none => .ok ()
      | some modality =>
        ensure (containsModality c.inputModalities modality = true) (.inputNotAllowed modality)
  ensure (c.outputModalities = [] ∨ containsModality c.outputModalities .text = true)
    .textOutputNotAllowed

/-! ## The window of a request -/

def normalOutputHeadroomTokens : Int := 32768

def modelWindowForRequest (c : Capabilities) (policy : SendPolicy) : ModelWindow :=
  let reserve := min normalOutputHeadroomTokens (c.contextWindowTokens / 2)
  { contextTokens := c.contextWindowTokens
    outputReserveTokens := if policy.maxOutputTokens > 0 then min reserve policy.maxOutputTokens
      else reserve
    safetyMarginTokens := defaultSafetyMarginTokens c.contextWindowTokens }

/-- The window `PrepareForSend` admits a request by. -/
def sendWindow (c : Capabilities) (limits : OutputTokenLimits) (input : PrepareForSendInput) :
    ModelWindow :=
  let window := modelWindowForRequest c input.policy
  { window with
    outputReserveTokens :=
      if input.reserveFullOutputAllowance then input.policy.maxOutputTokens
      else max window.outputReserveTokens limits.minimum }

/-! ## Preparing -/

section
variable (project : Bytes → List RenderedMedia → Bytes) (client : Client ε)

def prepareRequest (input : PrepareInput) : Except (PrepareError ε) PreparedRequest :=
  match client.prepare input with
  | .error err => .error (.client err)
  | .ok prepared =>
    if prepared.body = [] then .error .emptyRequest
    else if prepared.inputTokenEstimate ≤ 0 then
      .ok { prepared with
        inputTokenEstimate := estimatePreparedRequest
          (project prepared.body input.context.renderedMedia) input.context.renderedMedia }
    else .ok prepared

/-- The assessment `PrepareForSend` returns with the request. -/
def PreparedRequest.assess (prepared : PreparedRequest) (maxOutputTokens usable : Int) :
    PreparedRequest :=
  { prepared with
    maxOutputTokens
    inputBudget := ⟨prepared.inputTokenEstimate, usable⟩ }

/-- The part of `PrepareForSend` after its checks: prepare, and prepare again with a smaller allowance
if the input leaves less room than the policy asks for. -/
def prepareWithin (window : ModelWindow) (input : PrepareForSendInput) :
    Except (PrepareError ε) PreparedRequest := do
  let prepared ← prepareRequest project client input.toPrepareInput
  let usable := window.usableInputTokens
  let remaining := client.capabilities.contextWindowTokens - window.safetyMarginTokens -
    prepared.inputTokenEstimate
  if !input.reserveFullOutputAllowance && input.policy.maxOutputTokens > 0 &&
      prepared.inputTokenEstimate ≤ usable && remaining < input.policy.maxOutputTokens then
    -- the reduced allowance leaves exactly the first estimate for the input
    let again ← prepareRequest project client
      { input.toPrepareInput with policy := { input.policy with maxOutputTokens := remaining } }
    .ok (again.assess remaining prepared.inputTokenEstimate)
  else .ok (prepared.assess input.policy.maxOutputTokens usable)

def prepareForSend (input : PrepareForSendInput) : Except (PrepareError ε) PreparedRequest := do
  let limits ← outputTokenLimitsForClient client
  limits.validate input.policy.maxOutputTokens
  validateRequestModalities input.context client.capabilities
  let window := sendWindow client.capabilities limits input
  ensure (¬ (client.capabilities.contextWindowTokens - window.safetyMarginTokens - limits.minimum ≤ 0
    ∧ limits.minimum > 0)) .windowTooSmall
  prepareWithin project client window input

end

end Model
