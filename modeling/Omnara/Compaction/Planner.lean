import Omnara.Compaction.Event

/-!
# The compaction planner (`internal/compaction/planner.go`)

The planner picks the first event a compacted context retains. A *source end* is the last event of
the compacted prefix; the event after it is where the context retains from. `safeCompactionSourceEnds`
lists the ends at which a settled step ends and that split no atomic group;
`selectRetainFromEventSequence` chooses among them by three strategies and `planCheckpoint` turns
the choice into a checkpoint range.

Sequences are `int64` in the source. All arithmetic on them here is `± 1` on values the validation
bounds from the other side, so `Int` loses nothing.
-/

namespace Compaction

def maxRecentTailTargetTokens : Int := 20000

def recentTailTargetTokens (usableInputTokens : Int) : Int :=
  if usableInputTokens ≤ 0 then 0
  else if usableInputTokens / 4 > maxRecentTailTargetTokens then maxRecentTailTargetTokens
  else usableInputTokens / 4

structure PlanInput where
  projectId : Uuid
  agentId : Uuid
  inputEventSequence : Int
  summarizedThroughEventSequence : Int
  retainFromEventSequence : Int
  atomicGroups : List AtomicGroup

structure Plan where
  projectId : Uuid
  agentId : Uuid
  inputEventSequence : Int
  eventSequenceStart : Int
  eventSequenceEnd : Int
  deriving DecidableEq

structure RetainBoundaryInput where
  sourceEventSequenceStart : Int
  desiredRetainFromSequence : Int
  desiredRetainTokens : Int
  maximumRetainFromSequence : Int
  events : List SourceEvent
  atomicGroups : List AtomicGroup

inductive PlanError
  | sequencesRequired
  | desiredExceedsMaximum
  | eventsNotOrdered
  | invalidAtomicGroup (kind : GroupKind)
  | projectAndAgentRequired
  | watermarkRequired
  | exceedsWatermark
  | splitsAtomicGroup (start stop : Int) (group : AtomicGroup)
  deriving DecidableEq

/-! ## Safe source ends -/

/-- `latestModelOutputByTurn` of `safeCompactionSourceEndsWithWitness`. -/
def latestModelOutputByTurn (witnessEvents : List SourceEvent) (turn : Uuid) : Int :=
  latestSequence (fun e => e.kind = .modelOutput && e.turnId = turn) witnessEvents

def compactionEventEndsSettledStep (e : SourceEvent) (latestModelOutput : Uuid → Int) : Bool :=
  match e.kind with
  | .modelOutput | .toolResult => true
  | .agentInput => latestModelOutput e.turnId > e.sequence
  | .contextCheckpoint => false

/-- The event ends a settled step and no group is split there. -/
def isSafeEnd (witnessEvents : List SourceEvent) (groups : List AtomicGroup) (e : SourceEvent) :
    Bool :=
  compactionEventHasModelSemantics e &&
    compactionEventEndsSettledStep e (latestModelOutputByTurn witnessEvents) &&
    groups.all fun g => ¬ g.SplitBy e.sequence

def safeCompactionSourceEndsWithWitness (events witnessEvents : List SourceEvent)
    (groups : List AtomicGroup) : List Int :=
  (events.filter (isSafeEnd witnessEvents groups)).map (·.sequence)

def safeCompactionSourceEnds (events : List SourceEvent) (groups : List AtomicGroup) : List Int :=
  safeCompactionSourceEndsWithWitness events events groups

/-! ## Boundary selection -/

/-- The events are in strictly increasing order after `previous`. -/
def eventsOrderedAfter : Int → List SourceEvent → Bool
  | _, [] => true
  | previous, e :: events => e.sequence > previous && eventsOrderedAfter e.sequence events

def validateAtomicGroups : List AtomicGroup → Except PlanError Unit
  | [] => .ok ()
  | g :: groups =>
    if g.startSequence ≤ 0 ∨ g.endSequence < g.startSequence then
      .error (.invalidAtomicGroup g.kind)
    else validateAtomicGroups groups

def validateRetainBoundaryInput (input : RetainBoundaryInput) : Except PlanError Unit :=
  if input.sourceEventSequenceStart ≤ 0 ∨ input.desiredRetainFromSequence ≤ 0 ∨
      input.maximumRetainFromSequence ≤ 0 then
    .error .sequencesRequired
  else if input.desiredRetainFromSequence > input.maximumRetainFromSequence then
    .error .desiredExceedsMaximum
  else if !eventsOrderedAfter 0 input.events then .error .eventsNotOrdered
  else validateAtomicGroups input.atomicGroups

/-- The token sum of `retainedTailFitsTarget`, stopping as soon as the target is exceeded. -/
def tailFits (target retainFrom : Int) : Int → List SourceEvent → Bool
  | _, [] => true
  | tokens, e :: events =>
    if e.sequence < retainFrom then tailFits target retainFrom tokens events
    else if tokens + estimateSourceEventTokens e > target then false
    else tailFits target retainFrom (tokens + estimateSourceEventTokens e) events

def retainedTailFitsTarget (input : RetainBoundaryInput) (retainFrom : Int) : Bool :=
  if input.desiredRetainTokens ≤ 0 then true
  else tailFits input.desiredRetainTokens retainFrom 0 input.events

/-- The last candidate before the target and the first one that is not. -/
def boundariesAroundTarget (beforeTarget : Int → Bool) : Int → List Int → Int × Int
  | before, [] => (before, 0)
  | before, candidate :: candidates =>
    if beforeTarget candidate then boundariesAroundTarget beforeTarget candidate candidates
    else (before, candidate)

/-- `eventBySequence` of `completeTurnSourceEnds`: the last event stored under the sequence. -/
def eventBySequence (events : List SourceEvent) (sequence : Int) : Option SourceEvent :=
  (events.filter (·.sequence = sequence)).getLast?

def completeTurnSourceEnds (events witnessEvents : List SourceEvent) (candidates : List Int) :
    List Int :=
  candidates.filter fun candidate =>
    match eventBySequence events candidate with
    | none => false
    | some e =>
      e.kind = .modelOutput && e.turnId ≠ Uuid.nil &&
        latestSequence (fun w => w.kind ≠ .contextCheckpoint && w.turnId = e.turnId)
          witnessEvents = candidate

/-- Sequence and token total of the desired turn: opening sequence (`0` if none) and tokens. -/
def turnOpening (turn : Uuid) : Int × Int → List SourceEvent → Int × Int
  | acc, [] => acc
  | (opening, tokens), e :: events =>
    if e.turnId ≠ turn then turnOpening turn (opening, tokens) events
    else
      let opening' :=
        if e.isOpeningEvent && (opening = 0 || e.sequence < opening) then e.sequence else opening
      turnOpening turn (opening', tokens + estimateSourceEventTokens e) events

/-- The turn of the first event at the desired sequence. -/
def desiredTurnId (input : RetainBoundaryInput) : Uuid :=
  ((input.events.find? (·.sequence = input.desiredRetainFromSequence)).map (·.turnId)).getD
    Uuid.nil

def wholeTurnRetainFrom (input : RetainBoundaryInput) (safeEnds : List Int) : Int :=
  if input.desiredRetainTokens ≤ 0 then 0
  else
    let turn := desiredTurnId input
    if turn = Uuid.nil then 0
    else
      let opening := turnOpening turn (0, 0) input.events
      if opening.1 ≤ input.sourceEventSequenceStart ∨
          opening.1 > input.desiredRetainFromSequence ∨
          opening.1 > input.maximumRetainFromSequence ∨
          opening.2 > input.desiredRetainTokens then 0
      else if opening.1 - 1 ∈ safeEnds then opening.1
      else 0

def wholeTurnBoundaryRetainFrom (input : RetainBoundaryInput) (safeEnds : List Int) : Int :=
  match input.events.getLast? with
  | none => 0
  | some last =>
    if input.desiredRetainTokens ≤ 0 then 0
    else
      let eligibleEnds :=
        (completeTurnSourceEnds input.events input.events safeEnds).filter fun e =>
          ¬ (e < input.sourceEventSequenceStart ∨ e ≥ input.maximumRetainFromSequence ∨
            e ≥ last.sequence)
      -- latest end before the target and first end after it
      let ends := boundariesAroundTarget (· ≤ input.desiredRetainFromSequence - 1) 0 eligibleEnds
      if ends.1 > 0 ∧ retainedTailFitsTarget input (ends.1 + 1) then ends.1 + 1
      else if ends.2 > 0 then ends.2 + 1
      else 0

/-- The loop of `SelectRetainFromEventSequence` over the safe ends: the latest end at or before the
desired one and the first end after it, among the ends inside the allowed range. -/
def nearestEnds (input : RetainBoundaryInput) : Int → List Int → Int × Int
  | latestBefore, [] => (latestBefore, 0)
  | latestBefore, e :: ends =>
    if e < input.sourceEventSequenceStart ∨ e ≥ input.maximumRetainFromSequence then
      nearestEnds input latestBefore ends
    else if e ≤ input.desiredRetainFromSequence - 1 then nearestEnds input e ends
    else (latestBefore, e)

/-- `SelectRetainFromEventSequence`; `none` is `found = false`. -/
def selectRetainFromEventSequence (input : RetainBoundaryInput) : Except PlanError (Option Int) :=
  match validateRetainBoundaryInput input with
  | .error err => .error err
  | .ok () =>
    let safeEnds := safeCompactionSourceEnds input.events input.atomicGroups
    if wholeTurnRetainFrom input safeEnds > 0 then .ok (some (wholeTurnRetainFrom input safeEnds))
    else if wholeTurnBoundaryRetainFrom input safeEnds > 0 then
      .ok (some (wholeTurnBoundaryRetainFrom input safeEnds))
    else
      let ends := nearestEnds input 0 safeEnds
      if ends.1 > 0 ∧ retainedTailFitsTarget input (ends.1 + 1) then .ok (some (ends.1 + 1))
      else if ends.2 > 0 then .ok (some (ends.2 + 1))
      else if ends.1 > 0 then .ok (some (ends.1 + 1))
      else .ok none

def allowedEnds (input : RetainBoundaryInput) : List Int :=
  (safeCompactionSourceEnds input.events input.atomicGroups).filter fun e =>
    ¬ (e < input.sourceEventSequenceStart ∨ e ≥ input.maximumRetainFromSequence)

def retainFromEventSequenceCandidates (input : RetainBoundaryInput) :
    Except PlanError (List Int) :=
  match validateRetainBoundaryInput input with
  | .error err => .error err
  | .ok () => .ok ((allowedEnds input).map (· + 1))

/-! ## The checkpoint range -/

def rangesOverlap (aStart aEnd bStart bEnd : Int) : Bool := aStart ≤ bEnd && bStart ≤ aEnd

def checkRangeSplitsNoGroup (start stop : Int) : List AtomicGroup → Except PlanError Unit
  | [] => .ok ()
  | g :: groups =>
    if g.startSequence ≤ 0 ∨ g.endSequence < g.startSequence then
      .error (.invalidAtomicGroup g.kind)
    else if start ≤ g.startSequence ∧ stop ≥ g.endSequence then
      checkRangeSplitsNoGroup start stop groups
    else if rangesOverlap start stop g.startSequence g.endSequence then
      .error (.splitsAtomicGroup start stop g)
    else checkRangeSplitsNoGroup start stop groups

/-- `PlanCheckpoint`; `none` is `found = false`. -/
def planCheckpoint (input : PlanInput) : Except PlanError (Option Plan) :=
  if input.projectId = Uuid.nil ∨ input.agentId = Uuid.nil then .error .projectAndAgentRequired
  else if input.inputEventSequence ≤ 0 then .error .watermarkRequired
  else if input.retainFromEventSequence ≤ 1 then .ok none
  else
    let start := input.summarizedThroughEventSequence + 1
    let stop := input.retainFromEventSequence - 1
    if stop < start then .ok none
    else if stop > input.inputEventSequence then .error .exceedsWatermark
    else match checkRangeSplitsNoGroup start stop input.atomicGroups with
      | .error err => .error err
      | .ok () => .ok (some {
          projectId := input.projectId
          agentId := input.agentId
          inputEventSequence := input.inputEventSequence
          eventSequenceStart := start
          eventSequenceEnd := stop })

def openingEventsRequireVerbatimRetention (events : List SourceEvent) (openingStart : Int) : Bool :=
  !events.any fun e => e.sequence > openingStart && e.kind = .modelOutput

end Compaction
