import Omnara.Compaction.Runner
import Omnara.Model.Prepare

/-!
# The request of a compaction (`largestFittingCompactionRequest`, `compactionModel`)

The search for the largest source prefix whose summary request fits, with the prepared request it
returns. `largestFittingCompactionRequest` of the runner model keeps the source end of the result only;
`largestFitting_sourceEnd` says that it is the same function. Rendering the events and wrapping the text
in a bundle are left open (`SourceEncoder`), and so is what the client makes of the bundle.
-/

namespace Compaction

open Json (Bytes)
open ModelContext (RenderedMedia)
open Model

variable {ε : Type}

/-! ## The policy -/

def preferredSummaryOutputTokens : Int := 16384

/-- The policy `compactionModel` derives from the normal one. -/
def summaryPolicy (c : Capabilities) : SendPolicy :=
  let normalPolicy := requestPolicyFromCapabilities c
  let preferred := min preferredSummaryOutputTokens (c.contextWindowTokens / 2)
  { normalPolicy with
    cacheRetention := .none
    maxOutputTokens :=
      if normalPolicy.maxOutputTokens > 0 then min preferred normalPolicy.maxOutputTokens
      else preferred }

/-- The client without manual thinking. `withoutManualThinking` is what the method of that name answers,
if the client has it. -/
def summaryClient (client : Client ε)
    (withoutManualThinking : Option (Except (ClientError ε) (Client ε))) :
    Except (PrepareError ε) (Client ε) :=
  match withoutManualThinking with
  | none => .ok client
  | some (.error err) => .error (.client err)
  | some (.ok client) => .ok client

def compactionModel (client : Client ε)
    (withoutManualThinking : Option (Except (ClientError ε) (Client ε))) :
    Except (PrepareError ε) (Client ε × SendPolicy) := do
  let normalPolicy := requestPolicyFromCapabilities client.capabilities
  let limits ← outputTokenLimitsForClient client
  let _ ← (if normalPolicy.maxOutputTokens > 0 then limits.validate normalPolicy.maxOutputTokens
    else .ok ())
  let summary ← summaryClient client withoutManualThinking
  .ok (summary, summaryPolicy client.capabilities)

/-! ## Preparing one candidate -/

structure SourceEncoder (ε : Type) where
  renderEventSource : List SourceEvent → Except ε Bytes
  /-- `compactionRequestBundle` for the run's input and prior summary -/
  compactionRequestBundle : Bytes → Except ε RequestContext

inductive CandidateError (ε : Type)
  /-- `compaction source candidates do not match loaded events` -/
  | mismatch
  | encode (err : ε)
  | prepare (err : PrepareError ε)
  deriving DecidableEq

structure PreparedCompactionRequest where
  prepared : PreparedRequest
  sourceEnd : Int
  sourceText : Bytes
  deriving DecidableEq

/-- `preparedCompactionRequest{}`: no request. -/
def PreparedCompactionRequest.empty : PreparedCompactionRequest := ⟨{ body := [] }, 0, []⟩

section
variable (project : Bytes → List RenderedMedia → Bytes) (encoder : SourceEncoder ε)
  (client : Client ε)

def prepareSource (events : List SourceEvent) (policy : SendPolicy) :
    Except (CandidateError ε) (PreparedRequest × Bytes) := do
  let sourceText ← (encoder.renderEventSource events).mapError .encode
  let context ← (encoder.compactionRequestBundle sourceText).mapError .encode
  let prepared ← (prepareForSend project client
    { context, policy, reserveFullOutputAllowance := true }).mapError .prepare
  .ok (prepared, sourceText)

/-- The closure `prepareCandidate`: the request of the events up to a source end. -/
def prepareEnd (plan : Plan) (events : List SourceEvent) (policy : SendPolicy) (sourceEnd : Int) :
    Except (CandidateError ε) PreparedCompactionRequest :=
  let count := sourceEnd - plan.eventSequenceStart + 1
  if count ≤ 0 ∨ count > events.length then .error .mismatch
  else (prepareSource project encoder client (events.take count.toNat) policy).map
    fun (prepared, sourceText) => ⟨prepared, sourceEnd, sourceText⟩

/-! ## The search -/

/-- The policy with the allowance an over-budget request leaves. -/
def fittedPolicy (policy : SendPolicy) (r : PreparedCompactionRequest) : SendPolicy :=
  { policy with
    maxOutputTokens := policy.maxOutputTokens -
      (r.prepared.inputBudget.estimatedInputTokens - r.prepared.inputBudget.usableInputTokens) }

/-- The loop over the targets: the first one above the best request that fits, if need be with a smaller
allowance. -/
def fitTargets (prepare : SendPolicy → Int → Except (CandidateError ε) PreparedCompactionRequest)
    (policy : SendPolicy) (minimum : Int) (best : PreparedCompactionRequest) :
    List Int → Except (CandidateError ε) PreparedCompactionRequest
  | [] => .ok best
  | sourceEnd :: targets =>
    if sourceEnd ≤ best.sourceEnd then fitTargets prepare policy minimum best targets
    else match prepare policy sourceEnd with
      | .error err => .error err
      | .ok candidate =>
        if candidate.prepared.inputBudget.overBudget then
          if (fittedPolicy policy candidate).maxOutputTokens < max 1 minimum then
            fitTargets prepare policy minimum best targets
          else match prepare (fittedPolicy policy candidate) sourceEnd with
            | .error err => .error err
            | .ok candidate =>
              if candidate.prepared.inputBudget.fits then .ok candidate
              else fitTargets prepare policy minimum best targets
        else .ok candidate

/-- The ends that are tried with a smaller allowance: the first complete turn, then the first end. -/
def reducedTargets (w : BoundaryWindow) (first : Int) : List Int :=
  match completeTurnSourceEnds w.sourceEvents w.witnessEvents w.candidates with
  | turn :: _ => if turn ≠ first then [turn, first] else [first]
  | [] => [first]

/-- `largestFittingCompactionRequest`. -/
def largestFitting (plan : Plan) (w : BoundaryWindow) (policy : SendPolicy) :
    Except (CandidateError ε) PreparedCompactionRequest :=
  match w.candidates with
  | [] => .ok .empty
  | first :: _ => do
    let prepare := prepareEnd project encoder client plan w.sourceEvents
    let best ← Search.searchLast (fun mid => prepare policy (w.candidates.getD mid.toNat 0))
      (fun r => !r.prepared.inputBudget.overBudget) 0 (w.candidates.length - 1)
    let limits ← (outputTokenLimitsForClient client).mapError .prepare
    fitTargets prepare policy limits.minimum (best.getD .empty) (reducedTargets w first)

end

end Compaction
