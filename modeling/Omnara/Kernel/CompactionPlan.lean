import Omnara.Compaction.Load
import Omnara.Lib.Search

/-!
# Planning a compaction (`internal/harness/kernel/agent_executor_compaction.go`)

`planCompactionForContext` estimates where the recent tail starts, clamps that to the opening events
that have no answer yet, selects a safe boundary, moves it right until the projected request fits
the model and turns it into a checkpoint range. Store reads are arguments: the log, the atomic
groups, the latest applicable checkpoint. Whether a projected request fits (`fits`) is an arbitrary
answer, which may be an error.
-/

namespace Kernel

open Compaction

/-- The loop of `retainFromForRecentEvents` over the events from the newest to the oldest. -/
def recentStart (target : Int) : Int → Int → List SourceEvent → Int
  | retainFrom, _, [] => retainFrom
  | _, tokens, e :: older =>
    if tokens + estimateSourceEventTokens e ≥ target then e.sequence
    else recentStart target e.sequence (tokens + estimateSourceEventTokens e) older

def retainFromForRecentEvents (events : List SourceEvent) (recentTailTargetTokens : Int) : Int :=
  match events.getLast? with
  | none => 0
  | some last =>
    if recentTailTargetTokens ≤ 0 then last.sequence
    else recentStart recentTailTargetTokens last.sequence 0 events.reverse

def modelCallOpeningRequiresVerbatimRetention (events : List SourceEvent)
    (summarizedThrough openingEventSequence : Int) : Bool :=
  if openingEventSequence ≤ summarizedThrough then false
  else openingEventsRequireVerbatimRetention events openingEventSequence

section
variable {ε : Type}

/-- `firstFittingRetainFrom`; `none` is `found = false`. -/
def firstFittingRetainFrom (candidates : List Int) (desired : Int) (fits : Int → Except ε Bool) :
    Except ε (Option Int) :=
  let low := Search.search candidates.length fun i => candidates.getD i 0 ≥ desired
  match Search.bisect true (fun mid => fits (candidates.getD mid.toNat 0)) low
      (candidates.length - 1) with
  | .error err => .error err
  | .ok best => if best < 0 then .ok none else .ok (some (candidates.getD best.toNat 0))

/-- What planning can fail with: an error of the planner, or one of the fits check. -/
inductive PlanFailure (ε : Type)
  | plan (err : PlanError)
  | fits (err : ε)

/-- The context row of the model call whose request overflowed. -/
structure ContextRow where
  projectId : Uuid
  agentId : Uuid
  inputEventSequence : Int

def clampRetainFromToModelBudget (boundary : RetainBoundaryInput) (fits : Int → Except ε Bool) :
    Except (PlanFailure ε) (Option Int) :=
  match retainFromEventSequenceCandidates boundary with
  | .error err => .error (.plan err)
  | .ok candidates =>
    match firstFittingRetainFrom candidates boundary.desiredRetainFromSequence fits with
    | .error err => .error (.fits err)
    | .ok found => .ok found

/-- The desired and the maximal start of the retained tail, before boundary selection. -/
def retainLimits (events : List SourceEvent) (summarizedThrough frontier opening target : Int) :
    Int × Int :=
  let retainFrom := retainFromForRecentEvents events target
  if modelCallOpeningRequiresVerbatimRetention events summarizedThrough opening then
    (if retainFrom > opening then opening else retainFrom, opening)
  else (retainFrom, frontier + 1)

/-- The boundary input `planCompactionForContext` builds. -/
def boundaryInput (events : List SourceEvent) (atomicGroups : List AtomicGroup)
    (summarizedThrough frontier opening target : Int) : RetainBoundaryInput where
  sourceEventSequenceStart := summarizedThrough + 1
  desiredRetainFromSequence := (retainLimits events summarizedThrough frontier opening target).1
  desiredRetainTokens := target
  maximumRetainFromSequence := (retainLimits events summarizedThrough frontier opening target).2
  events := events
  atomicGroups := atomicGroups

/-- `planCompactionForContext`; `checkpoint` is the summarized-through sequence of the latest
applicable checkpoint, and `none` is `found = false`. -/
def planCompactionForContext (log : List SourceEvent) (context : ContextRow)
    (checkpoint : Option Int) (atomicGroups : List AtomicGroup) (usableInputTokens : Int)
    (openingEventSequence : Int) (fits : Int → Except ε Bool) :
    Except (PlanFailure ε) (Option Plan) :=
  let frontier := context.inputEventSequence
  let summarizedThrough := checkpoint.getD 0
  if frontier ≤ summarizedThrough + 1 then .ok none
  else
    let events := loadContextEventsForCompaction log summarizedThrough frontier
    if events.length < 2 then .ok none
    else
      let boundary := boundaryInput events atomicGroups summarizedThrough frontier
        openingEventSequence (recentTailTargetTokens usableInputTokens)
      match selectRetainFromEventSequence boundary with
      | .error err => .error (.plan err)
      | .ok none => .ok none
      | .ok (some retainFrom) =>
        match clampRetainFromToModelBudget
            { boundary with desiredRetainFromSequence := retainFrom } fits with
        | .error err => .error err
        | .ok none => .ok none
        | .ok (some retainFrom) =>
          match planCheckpoint {
              projectId := context.projectId
              agentId := context.agentId
              inputEventSequence := frontier
              summarizedThroughEventSequence := summarizedThrough
              retainFromEventSequence := retainFrom
              atomicGroups := atomicGroups } with
          | .error err => .error (.plan err)
          | .ok plan => .ok plan

end

end Kernel
