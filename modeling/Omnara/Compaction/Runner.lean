import Omnara.Compaction.Groups
import Omnara.Lib.Search

/-!
# The compaction runner (`internal/compaction/runner*.go`)

`runOnce` is one call of `run` up to the point where it returns or hands a smaller source end to
`replaceCompactionSource`; `run` is the recursion through `RunClaimed`. What the runner computes
from the log (the boundary window, the candidates, the search for the largest fitting request, the
next smaller end, the progressive policy) is modelled as it is computed. What the model provider, the
resolver, the request encoder and the store's writes answer is in `Answers`, one record per run, and is
arbitrary.
-/

namespace Compaction

/-! ## Failures -/

inductive ErrorKind
  | contextWindow | payloadTooLarge | rateLimit | transient | auth | billingAccount
  | invalidRequest | providerUnavailable | replayRejected | runtime | canceled | unknown
  deriving DecidableEq

/-- An error as `recordFailure` tells them apart: one with a compaction failure reason, a classified
provider error, `ErrModelGrantUnavailable`, or anything else. -/
inductive Cause
  | summaryNotReduced
  | sourceIrreducible
  | provider (kind : ErrorKind)
  | grantUnavailable
  | unclassified
  deriving DecidableEq

def shrinkableCompactionFailure : Cause → Bool
  | .summaryNotReduced => true
  | .sourceIrreducible => false
  | .provider kind => kind = .contextWindow || kind = .payloadTooLarge
  | .grantUnavailable | .unclassified => false

def normalizePreSendFailure : Cause → Cause
  | .grantUnavailable => .provider .auth
  | .unclassified => .provider .transient
  | cause => cause

/-! ## One run's inputs and answers -/

structure RunInput where
  plan : Plan
  turnId : Uuid
  openingInputIds : List Uuid
  openingEventSequence : Int
  runtimeLockId : Uuid
  parentModelCallContextId : Uuid

/-- `Runner.validate` (the runner's own dependencies are always set). -/
def RunInput.valid (input : RunInput) : Bool :=
  !(input.plan.projectId = Uuid.nil || input.plan.agentId = Uuid.nil ||
    input.plan.inputEventSequence ≤ 0 || input.plan.eventSequenceStart ≤ 0 ||
    input.plan.eventSequenceEnd < input.plan.eventSequenceStart ||
    input.plan.eventSequenceEnd > input.plan.inputEventSequence) &&
  !(input.turnId = Uuid.nil || input.openingInputIds.length = 0 ||
    input.runtimeLockId = Uuid.nil || input.parentModelCallContextId = Uuid.nil) &&
  !(input.openingEventSequence ≤ 0 || input.openingEventSequence > input.plan.inputEventSequence)

/-- How a run returns: one of the three run states, or an error. -/
inductive RunEnd
  | completed | retryScheduled | terminal | error
  deriving DecidableEq

/-- `InputBudgetAssessment`. -/
structure InputBudget where
  estimatedInputTokens : Int
  usableInputTokens : Int
  deriving DecidableEq

def InputBudget.fits (b : InputBudget) : Bool :=
  b.estimatedInputTokens > 0 && b.estimatedInputTokens ≤ b.usableInputTokens

/-- A step outside the runner: it worked, the run returns, or it failed with a cause that goes to
`recordFailure`. -/
inductive Answer (α : Type)
  | ok (value : α)
  | returned (result : RunEnd)
  | failed (cause : Cause)

structure Answers where
  /-- The initial claim and the lookups before the opening guard. -/
  entry : Answer Unit
  /-- Summarized-through sequence of the latest applicable checkpoint. -/
  prior : Option Int
  /-- Config snapshot, claim, model selection, resolver, revision and request policies. -/
  setup : Answer Unit
  /-- Encoding the request for a source end under an output allowance. -/
  prepare : Int → Int → Except Cause InputBudget
  policyMaxOutputTokens : Int
  minimumOutputTokens : Except Cause Int
  /-- Bytes of one rendered event; `none` if rendering fails. -/
  renderedBytes : SourceEvent → Option Nat
  /-- The summary response: whether it stopped at the output limit. -/
  respond : Answer Bool
  /-- `validateCompactionResponse` and `validateSummaryReduction`. -/
  summary : Answer Unit
  /-- The projected request with the candidate checkpoint: whether it is over budget. -/
  candidate : Answer Bool
  /-- `CountConsecutiveContextCheckpointLineage`; `none` if it or the listing of the remaining source
  fails. -/
  checkpointCount : Option Int
  /-- `PublishContextCheckpoint`; `ok false` is `ErrCheckpointBoundaryUnsafe`. -/
  publish : Answer Bool
  /-- What `recordFailure` returns once it does not shrink the source. -/
  recorded : RunEnd
  /-- `ReplaceCompactionSource`: claimed, or the run ends there (an error, or preempted). -/
  replacement : Answer Unit

/-! ## The progressive policy (`progressive.go`) -/

def defaultMaxProgressiveCheckpoints : Int := 3

structure ProgressiveCheckpointInput where
  priorSummarizedThroughEventSequence : Int
  consecutiveCheckpointCount : Int
  candidateSummarizedThroughSequence : Int
  hasRemainingSemanticSource : Bool

inductive ProgressiveReason
  /-- `candidate checkpoint does not advance the summarized event frontier` -/
  | noAdvance
  /-- `candidate checkpoint leaves no model-visible source for another compaction step` -/
  | noRemainingSource
  /-- `progressive checkpoint limit of %d was reached` -/
  | limitReached
  deriving DecidableEq

inductive ProgressiveCheckpointDecision
  | allowed
  | refused (reason : ProgressiveReason)
  deriving DecidableEq

/-- `BoundedProgressiveCheckpointPolicy.Evaluate`, the policy of a runner without one of its own;
`none` is `consecutive checkpoint count cannot be negative`. -/
def ProgressiveCheckpointInput.evaluate (input : ProgressiveCheckpointInput) :
    Option ProgressiveCheckpointDecision :=
  if input.candidateSummarizedThroughSequence ≤ input.priorSummarizedThroughEventSequence then
    some (.refused .noAdvance)
  else if !input.hasRemainingSemanticSource then some (.refused .noRemainingSource)
  else if input.consecutiveCheckpointCount < 0 then none
  else if input.consecutiveCheckpointCount ≥ defaultMaxProgressiveCheckpoints then
    some (.refused .limitReached)
  else some .allowed

/-! ## The boundary window -/

def compactionSourceNeedsLaterModelWitness (events : List SourceEvent) : Bool :=
  events.any fun e =>
    e.kind = .agentInput && compactionEventHasModelSemantics e &&
      latestModelOutputByTurn events e.turnId ≤ e.sequence

structure BoundaryWindow where
  sourceEvents : List SourceEvent
  witnessEvents : List SourceEvent
  atomicGroups : List AtomicGroup

def loadCompactionBoundaryWindow (log : AgentLog) (plan : Plan) :
    Except RangeError BoundaryWindow :=
  match loadClosedEventRange log.events plan.eventSequenceStart plan.eventSequenceEnd with
  | .error err => .error err
  | .ok sourceEvents =>
    let groups :=
      listCompactionAtomicGroups log (plan.eventSequenceStart - 1) plan.eventSequenceEnd
    if plan.eventSequenceEnd < plan.inputEventSequence &&
        compactionSourceNeedsLaterModelWitness sourceEvents then
      match loadClosedEventRange log.events plan.eventSequenceStart plan.inputEventSequence with
      | .error err => .error err
      | .ok witnessEvents => .ok ⟨sourceEvents, witnessEvents, groups⟩
    else .ok ⟨sourceEvents, sourceEvents, groups⟩

def BoundaryWindow.candidates (w : BoundaryWindow) : List Int :=
  safeCompactionSourceEndsWithWitness w.sourceEvents w.witnessEvents w.atomicGroups

/-! ## The largest fitting request -/

def prepareCandidate (plan : Plan) (events : List SourceEvent) (a : Answers)
    (sourceEnd maxOutputTokens : Int) : Except Cause InputBudget :=
  let count := sourceEnd - plan.eventSequenceStart + 1
  -- "compaction source candidates do not match loaded events"
  if count ≤ 0 ∨ count > events.length then .error .unclassified
  else a.prepare sourceEnd maxOutputTokens

/-- The second loop of `largestFittingCompactionRequest`: try the first complete turn and the first
candidate with a smaller output allowance. -/
def tryTargets (prepare : Int → Int → Except Cause InputBudget) (maxOutputTokens minimum best : Int) :
    List Int → Except Cause Int
  | [] => .ok best
  | sourceEnd :: targets =>
    if sourceEnd ≤ best then tryTargets prepare maxOutputTokens minimum best targets
    else match prepare sourceEnd maxOutputTokens with
      | .error cause => .error cause
      | .ok budget =>
        if budget.fits then .ok sourceEnd
        else
          let fitted := maxOutputTokens - (budget.estimatedInputTokens - budget.usableInputTokens)
          if fitted < max 1 minimum then
            tryTargets prepare maxOutputTokens minimum best targets
          else match prepare sourceEnd fitted with
            | .error cause => .error cause
            | .ok budget' =>
              if budget'.fits then .ok sourceEnd
              else tryTargets prepare maxOutputTokens minimum best targets

/-- `largestFittingCompactionRequest`: the source end of the chosen request, `0` for none. -/
def largestFittingCompactionRequest (plan : Plan) (w : BoundaryWindow) (a : Answers) :
    Except Cause Int :=
  match w.candidates with
  | [] => .ok 0
  | first :: rest =>
    let candidates := first :: rest
    match Search.bisect false (fun mid =>
        (prepareCandidate plan w.sourceEvents a (candidates.getD mid.toNat 0)
          a.policyMaxOutputTokens).map InputBudget.fits) 0 (candidates.length - 1) with
    | .error cause => .error cause
    | .ok best =>
      let bestEnd := if best < 0 then 0 else candidates.getD best.toNat 0
      let targets :=
        match completeTurnSourceEnds w.sourceEvents w.witnessEvents candidates with
        | turn :: _ => if turn ≠ first then [turn, first] else [first]
        | [] => [first]
      match a.minimumOutputTokens with
      | .error cause => .error cause
      | .ok minimum =>
        tryTargets (prepareCandidate plan w.sourceEvents a) a.policyMaxOutputTokens minimum bestEnd
          targets

/-! ## The next smaller end -/

def prefixBytes (renderedBytes : SourceEvent → Option Nat) : Nat → List SourceEvent →
    Option (List Nat)
  | _, [] => some []
  | total, e :: events =>
    match renderedBytes e with
    | none => none
    | some n => (prefixBytes renderedBytes (total + n) events).map ((total + n) :: ·)

/-- The last candidate whose prefix is within the target, starting from `chosen`. -/
def lastWithin (within : Int → Bool) : Int → List Int → Int
  | chosen, [] => chosen
  | chosen, candidate :: candidates =>
    if within candidate then lastWithin within candidate candidates else chosen

def smallerCandidates (plan : Plan) (w : BoundaryWindow) : List Int :=
  if w.candidates.getLast? = some plan.eventSequenceEnd then w.candidates.dropLast
  else w.candidates

/-- `nextSmallerSourceEnd`; `none` is an error and `0` means that no end is left. -/
def nextSmallerSourceEnd (log : AgentLog) (plan : Plan) (a : Answers) : Option Int :=
  match loadCompactionBoundaryWindow log plan with
  | .error _ => none
  | .ok w =>
    match smallerCandidates plan w with
    | [] => some 0
    | first :: rest =>
      match prefixBytes a.renderedBytes 0 w.sourceEvents with
      | none => none
      | some sizes =>
        let target := sizes.getLast?.getD 0 / 2
        let within := fun e : Int =>
          decide (sizes.getD (e - plan.eventSequenceStart).toNat 0 ≤ target)
        let ends := boundariesAroundTarget within 0
          (completeTurnSourceEnds w.sourceEvents w.witnessEvents (first :: rest))
        if ends.1 > 0 then some ends.1
        else if ends.2 > 0 then some ends.2
        else some (lastWithin within first (first :: rest))

/-! ## A run -/

/-- What one call of `run` comes to. -/
inductive RunStep
  | done (result : RunEnd)
  | replace (nextEnd : Int)
  deriving DecidableEq

/-- Try to continue with a smaller source; otherwise go on with `rest`. -/
def shrinkOr (log : AgentLog) (plan : Plan) (a : Answers) (rest : RunStep) : RunStep :=
  match nextSmallerSourceEnd log plan a with
  | none => .done .error
  | some nextEnd => if nextEnd > 0 then .replace nextEnd else rest

def recordFailure (log : AgentLog) (plan : Plan) (a : Answers) (cause : Cause) : RunStep :=
  if shrinkableCompactionFailure cause then shrinkOr log plan a (.done a.recorded)
  else .done a.recorded

/-- `PublishContextCheckpoint` and what follows an unsafe boundary. -/
def publishStep (log : AgentLog) (plan : Plan) (a : Answers) : RunStep :=
  match a.publish with
  | .returned result => .done result
  | .failed cause => recordFailure log plan a cause
  | .ok true => .done .completed
  | .ok false => shrinkOr log plan a (recordFailure log plan a .sourceIrreducible)

/-- A checkpoint that leaves the projected context over budget is published if the progressive policy
allows it. -/
def progressStep (log : AgentLog) (input : RunInput) (a : Answers) : RunStep :=
  match a.checkpointCount with
  | none => .done .error
  | some count =>
    let protectOpening := runnerOpeningRequiresVerbatimRetention log.events
      input.openingEventSequence input.plan.inputEventSequence
    let progression : ProgressiveCheckpointInput :=
      { priorSummarizedThroughEventSequence := a.prior.getD 0
        consecutiveCheckpointCount := count
        candidateSummarizedThroughSequence := input.plan.eventSequenceEnd
        hasRemainingSemanticSource := hasRemainingSemanticSource log.events input.plan protectOpening
          input.openingEventSequence }
    match progression.evaluate with
    | none => .done .error
    | some .allowed => publishStep log input.plan a
    | some (.refused _) => recordFailure log input.plan a .sourceIrreducible

/-- The checks of the summary and of the projected context. -/
def validateStep (log : AgentLog) (input : RunInput) (a : Answers) : RunStep :=
  match a.summary with
  | .returned result => .done result
  | .failed cause => recordFailure log input.plan a cause
  | .ok () =>
    match a.candidate with
    | .returned result => .done result
    | .failed cause => recordFailure log input.plan a cause
    | .ok true => progressStep log input a
    | .ok false => publishStep log input.plan a

def respondStep (log : AgentLog) (input : RunInput) (a : Answers) : RunStep :=
  match a.respond with
  | .returned result => .done result
  | .failed cause => recordFailure log input.plan a cause
  | .ok true => shrinkOr log input.plan a (validateStep log input a)
  | .ok false => validateStep log input a

/-- From the loaded window to the request: a smaller end than planned replaces the source. -/
def requestStep (log : AgentLog) (input : RunInput) (a : Answers) : RunStep :=
  match loadCompactionBoundaryWindow log input.plan with
  | .error _ => recordFailure log input.plan a (normalizePreSendFailure .unclassified)
  | .ok w =>
    match largestFittingCompactionRequest input.plan w a with
    | .error cause => recordFailure log input.plan a (normalizePreSendFailure cause)
    | .ok sourceEnd =>
      if sourceEnd = 0 then recordFailure log input.plan a .sourceIrreducible
      else if sourceEnd < input.plan.eventSequenceEnd then .replace sourceEnd
      else respondStep log input a

/-- One call of `run`, up to its return or its call of `replaceCompactionSource`. -/
def runOnce (log : AgentLog) (input : RunInput) (a : Answers) : RunStep :=
  if !input.valid then .done .error
  else match a.entry with
    | .returned result => .done result
    | .failed _ => .done .error
    | .ok () =>
      if runnerRejectsOpening log.events input.plan input.openingEventSequence then .done .error
      -- "compaction source starts at %d, want cumulative boundary %d"
      else if input.plan.eventSequenceStart ≠ (a.prior.map (· + 1)).getD 1 then .done .error
      else match a.setup with
        | .returned result => .done result
        | .failed cause => recordFailure log input.plan a cause
        | .ok () => requestStep log input a

/-! ## The recursion -/

inductive Outcome
  | ended (result : RunEnd)
  | outOfFuel
  deriving DecidableEq

/-- `run` with the recursion `replaceCompactionSource` → `RunClaimed` → `run`: how it ends, and the
source ends handed to `replaceCompactionSource` in order. `logs n` and `answers n` are what the
`n`-th run sees. -/
def run (logs : Nat → AgentLog) (answers : Nat → Answers) : Nat → Nat → RunInput →
    Outcome × List Int
  | 0, _, _ => (.outOfFuel, [])
  | fuel + 1, n, input =>
    match runOnce (logs n) input (answers n) with
    | .done result => (.ended result, [])
    | .replace nextEnd =>
      match (answers n).replacement with
      | .returned result => (.ended result, [nextEnd])
      | .failed _ => (.ended .error, [nextEnd])
      | .ok () =>
        let next := run logs answers fuel (n + 1)
          { input with plan := { input.plan with eventSequenceEnd := nextEnd } }
        (next.1, nextEnd :: next.2)

end Compaction
