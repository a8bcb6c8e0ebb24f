import Mathlib.Data.List.Sort
import Omnara.Store.Tables

/-!
# What an agent does next (the SQL functions of `000005` and `000031`)

The queries that select tool work, model work and the time of the next wakeup, over the rows of one
agent. A join is a filter over the joined table; `EXISTS` is `any`; `LIMIT 1` is `head?`.
-/

namespace Store

/-- A row of `agent_tool_work_frontiers`. -/
structure ToolFrontier where
  turn : Id
  context : Id
  sourceEvent : Nat
  readyAt : Time
  firstCall : Id
  deriving DecidableEq

/-- A row of `agent_model_result_frontiers`. -/
structure ResultFrontier where
  turn : Id
  context : Id
  readyAt : Option Time
  createdAt : Time
  firstCall : Id
  deriving DecidableEq

namespace Db

variable (db : Db)

/-! ## Turns and stops -/

/-- `agent_stop_events`. -/
def stopSequences : List Nat :=
  (db.events.filter fun e => db.inputs.any fun i =>
    e.payload = .agentInput i.id ∧ i.kind = .control ∧ i.state = .resolved).map (·.sequence)

def stopAfter (sequence : Nat) : Bool :=
  db.stopSequences.any (sequence < ·)

/-- `agent_turn_id_at_event_sequence`. -/
def turnAt (sequence : Nat) : Option Id :=
  (((db.events.filter fun e => e.isOpening ∧ e.sequence ≤ sequence).insertionSort
    fun a b => b.sequence ≤ a.sequence).head?).map (·.turn)

def latestTurnId : Option Id :=
  (db.turns.map (·.turnSequence)).max?

def latestTurn : Option AgentTurn :=
  db.turns.find? fun t => some t.turnSequence = db.latestTurnId

/-- The `model_output` events of a context's output (`agent_events_model_output_idx` is unique). -/
def outputEvents (context : Id) : List AgentEvent :=
  db.events.filter (·.payload = .modelOutput context)

/-! ## Opening inputs -/

/-- The content input that an opening event admitted. -/
def admittedContent (e : AgentEvent) : Option (Id × Nat) :=
  (db.inputs.find? fun i => e.payload = .agentInput i.id ∧ i.kind = .content ∧
    i.state = .resolved ∧ i.admittedEvent = some e.sequence).map fun i => (i.id, e.sequence)

def turnOpeningContentInputs (turn : Id) (max : Nat) : List (Id × Nat) :=
  (db.events.filter fun e => e.turn = turn ∧ e.isOpening ∧ e.sequence ≤ max).filterMap
    db.admittedContent

/-- The latest model output or stop up to `max`, 0 if there is none. -/
def latestBoundary (max : Nat) : Nat :=
  let outputs := db.events.filterMap fun e =>
    match e.payload with
    | .modelOutput _ => some e.sequence
    | _ => none
  ((outputs ++ db.stopSequences).filter (· ≤ max)).foldl Nat.max 0

/-- `agent_model_call_opening_content_inputs`: the opening inputs no output has answered yet, or
those of the turn. -/
def modelCallOpeningContentInputs (turn : Id) (max : Nat) : List (Id × Nat) :=
  let unanswered := (db.events.filter fun e => e.isOpening ∧ db.latestBoundary max < e.sequence ∧
    e.sequence ≤ max).filterMap db.admittedContent
  let rows := if unanswered = [] then db.turnOpeningContentInputs turn max else unanswered
  rows.insertionSort fun a b => a.2 ≤ b.2

def openings (turn : Id) : List Nat :=
  (db.events.filter fun e => e.turn = turn ∧ e.isOpening).map (·.sequence)

/-- `agent_latest_unstarted_model_call_opening_inputs`. -/
def latestUnstartedOpenings : List (Id × Nat) :=
  match db.latestTurnId with
  | none => []
  | some turn =>
    match (db.openings turn).min?, (db.openings turn).max? with
    | some first, some last =>
      if (db.contexts.any fun c => first ≤ c.frontier) || db.stopAfter first then []
      else (db.modelCallOpeningContentInputs turn last).map fun o => (turn, o.2)
    | _, _ => []

/-! ## Contexts that can be continued -/

def hasLaterSemanticEvent (c : ModelCallContext) : Bool :=
  match db.latestTurn with
  | none => false
  | some t => c.frontier < t.latestSemanticEvent

/-- An attempt that replaces `c`: a later attempt of the same operation or, for a compaction, one
with a smaller source. -/
def supersedes (newer c : ModelCallContext) : Bool :=
  newer.frontier = c.frontier &&
    match newer.operation, c.operation with
    | .normal, .normal => c.attempt < newer.attempt
    | .compaction e', .compaction e => (e' = e && c.attempt < newer.attempt) || e' < e
    | _, _ => false

def isContinuableState : ContextState → Bool
  | .started => true
  | .failed (some _) => true
  | _ => false

/-- `agent_continuable_model_contexts`. -/
def isContinuable (c : ModelCallContext) : Bool :=
  (db.turnAt c.frontier).isSome && db.turnAt c.frontier = db.latestTurnId &&
  isContinuableState c.state &&
  !(db.contexts.any fun newer => supersedes newer c) &&
  !(db.contexts.any fun later => later.operation = .normal && c.frontier < later.frontier &&
    db.turnAt later.frontier = db.turnAt c.frontier) &&
  (c.operation ≠ .normal || !(db.contexts.any fun dependency =>
    dependency.operation ≠ .normal && dependency.frontier = c.frontier)) &&
  !db.stopAfter c.frontier

def continuableContexts : List ModelCallContext :=
  db.contexts.filter db.isContinuable

/-! ## Tool work -/

/-- The calls of the latest turn whose output no stop follows, with the output's event: the join
that `agent_tool_work_frontiers`, `agent_has_incomplete_tool_batch` and
`agent_model_result_frontiers` share. -/
def currentCalls : List (ToolCall × AgentEvent) :=
  db.toolCalls.flatMap fun call => (db.outputEvents call.output).filterMap fun e =>
    if some e.turn = db.latestTurnId && !db.stopAfter e.sequence then some (call, e) else none

def isToolWork (call : ToolCall) : Bool :=
  call.state = .awaitingAuthorization || (call.state = .ready && call.type ≠ .custom)

/-- `agent_tool_work_frontiers`: one row for each output that has calls to authorise or run. -/
def toolWorkFrontiers : List ToolFrontier :=
  let rows := db.currentCalls.filter fun r => isToolWork r.1 &&
    db.contexts.any fun c => c.id = r.1.output
  ((rows.map fun r => (r.1.output, r.2)).dedup).map fun group =>
    let calls := rows.filter fun r => (r.1.output, r.2) = group
    { turn := group.2.turn
      context := group.1
      sourceEvent := group.2.sequence
      readyAt := ((calls.map (·.1.createdAt)).min?).getD 0
      firstCall := ((calls.map (·.1.id)).min?).getD 0 }

def hasIncompleteToolBatch : Bool :=
  db.currentCalls.any fun r => r.1.state ≠ .completed

def resultEvents (call : Id) : List AgentEvent :=
  db.events.filter (·.payload = .toolResult call)

/-- The completed batch of an output: every call has its result and the result its event. A result
is unique for its call and an event for its result, so counting them is asking for each call. -/
def batchComplete (calls : List ToolCall) : Bool :=
  calls.all fun call => (db.results.any (·.call = call.id)) && db.resultEvents call.id ≠ []

/-- `agent_model_result_frontiers`: complete batches that no later output has consumed. -/
def modelResultFrontiers : List ResultFrontier :=
  ((db.currentCalls.map fun r => (r.1.output, r.2.turn)).dedup).filterMap fun group =>
    let calls := (db.currentCalls.filter fun r => (r.1.output, r.2.turn) = group).map (·.1)
    let maxResult := (((calls.flatMap fun c => db.resultEvents c.id).map (·.sequence)).max?).getD 0
    let consumed := db.events.any fun e => e.turn = group.2 && maxResult < e.sequence &&
      db.contexts.any fun c => e.payload = .modelOutput c.id && maxResult ≤ c.frontier
    if db.batchComplete calls && !consumed then
      some {
        turn := group.2
        context := group.1
        readyAt := ((db.results.filter fun r => r.call ∈ calls.map (·.id)).map (·.completedAt)).max?
        createdAt := ((calls.map (·.createdAt)).min?).getD 0
        firstCall := ((calls.map (·.id)).min?).getD 0 }
    else none

/-! ## Checkpoints and config changes nothing has consumed -/

def normalAtOrAfter (sequence : Nat) : Bool :=
  db.contexts.any fun c => c.operation = .normal && sequence ≤ c.frontier

/-- `agent_unconsumed_context_checkpoint_frontiers`: the turn, the event sequence and the time. -/
def unconsumedCheckpoint : Option (Id × Nat × Time) :=
  let rows := db.checkpoints.flatMap fun k =>
    (db.events.filter fun e => e.payload = .contextCheckpoint k.context &&
      some e.turn = db.latestTurnId && (db.contexts.any fun c => c.id = k.context) &&
      !db.normalAtOrAfter e.sequence && !db.stopAfter e.sequence).map fun e =>
        (e.turn, e.sequence, k.createdAt)
  (rows.insertionSort fun a b => b.2.1 ≤ a.2.1).head?

/-- `agent_unconsumed_config_change_frontiers`. A missing opening boundary is NULL, so nothing
compares with it. -/
def unconsumedConfigChange : Option (Id × Nat × Time) :=
  match db.latestTurn with
  | none => none
  | some t =>
    match ((db.turnOpeningContentInputs t.turnSequence t.latestEvent).map (·.2)).min? with
    | none => none
    | some first =>
      let rows := (db.events.filter fun e => e.turn = t.turnSequence &&
        (db.inputs.any fun i => e.payload = .agentInput i.id && i.admittedEvent = some e.sequence &&
          i.kind = .configChange && i.state = .resolved) &&
        first ≤ e.sequence && !db.normalAtOrAfter e.sequence &&
        (db.stopSequences.foldl Nat.max 0) ≤ e.sequence).map fun e =>
          (e.turn, e.sequence, e.createdAt)
      (rows.insertionSort fun a b => b.2.1 ≤ a.2.1).head?

/-- The largest frontier of a normal context, which `max` leaves NULL when there is none. -/
def maxNormalFrontier : Option Nat :=
  ((db.contexts.filter (·.operation = .normal)).map (·.frontier)).max?

/-- The CTE `truncated_output` of `agent_next_model_work`: an output cut off at its limit, without
tool calls, that no normal context has seen. -/
def truncatedOutput : Option (AgentEvent × ModelCallContext) :=
  let rows := db.outputs.flatMap fun o => (db.contexts.filter fun c => c.id = o.context &&
      c.operation = .normal && c.state = .succeeded && o.stopReason = .maxTokens &&
      !(db.toolCalls.any fun call => call.output = o.context)).flatMap fun c =>
    ((db.outputEvents o.context).filter fun e => some e.turn = db.latestTurnId &&
      !db.stopAfter e.sequence &&
      match db.maxNormalFrontier with
      | none => false
      | some f => f < e.sequence).map fun e => (e, c)
  (rows.insertionSort fun a b => a.1.sequence ≤ b.1.sequence).head?

end Db

end Store
