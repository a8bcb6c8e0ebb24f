import Omnara.Store.Frontier

/-!
# The next work of an agent

`agent_next_model_work` (`000031`), `agent_next_wakeup_ready_at` (`000005`) and the selection of
`ClaimNextAgentWork` (`agent_inputs_store.go`). The priority between tools, steering inputs, model
work and queued inputs is decided twice in the source, in SQL for the wakeup and in Go for the
claim; both are translated as they are.
-/

namespace Store

/-- `work_kind` with the context it names. -/
inductive WorkKind
  | start | resume (context : Id) | continueFrom (context : Id)
  deriving DecidableEq

/-- A row of the CTE `candidates`. -/
structure WorkCandidate where
  kind : WorkKind
  turn : Id
  watermark : Nat
  readyAt : Option Time
  deriving DecidableEq

structure ModelWork where
  kind : WorkKind
  turn : Id
  inputIds : List Id
  openingEventSequence : Nat
  readyAt : Option Time
  deriving DecidableEq

/-- `ORDER BY input_rank, queued_at, id`. -/
def AgentInput.Before (a b : AgentInput) : Prop :=
  a.rank < b.rank ∨ a.rank = b.rank ∧
    (a.queuedAt < b.queuedAt ∨ a.queuedAt = b.queuedAt ∧ a.id ≤ b.id)

instance (a b : AgentInput) : Decidable (a.Before b) :=
  inferInstanceAs (Decidable (_ ∨ _))

/-- `ORDER BY ready_at, frontier_order_created_at, frontier_order_tool_call_id`. -/
def ResultFrontier.Before (a b : ResultFrontier) : Prop :=
  a.readyAt.getD 0 < b.readyAt.getD 0 ∨ a.readyAt.getD 0 = b.readyAt.getD 0 ∧
    (a.createdAt < b.createdAt ∨ a.createdAt = b.createdAt ∧ a.firstCall ≤ b.firstCall)

instance (a b : ResultFrontier) : Decidable (a.Before b) :=
  inferInstanceAs (Decidable (_ ∨ _))

/-- The same order for tool work, whose `ready_at` is its `frontier_order_created_at`. -/
def ToolFrontier.Before (a b : ToolFrontier) : Prop :=
  a.readyAt < b.readyAt ∨ a.readyAt = b.readyAt ∧ a.firstCall ≤ b.firstCall

instance (a b : ToolFrontier) : Decidable (a.Before b) :=
  inferInstanceAs (Decidable (_ ∨ _))

namespace Db

variable (db : Db)

/-! ## Model work -/

def unstartedWork : Option WorkCandidate :=
  let rows := db.latestUnstartedOpenings
  match rows.head?, (rows.map (·.2)).max? with
  | some row, some watermark => some {
      kind := .start, turn := row.1, watermark := watermark
      readyAt := ((db.events.filter fun e => e.sequence ∈ rows.map (·.2)).map (·.createdAt)).min? }
  | _, _ => none

def retryAt? (c : ModelCallContext) : Option Time :=
  match c.state with
  | .failed (some (.retry t)) => some t
  | _ => none

def retryWork : Option WorkCandidate :=
  db.continuableContexts.findSome? fun c =>
    match retryAt? c, db.latestTurnId with
    | some t, some turn =>
      if db.hasLaterSemanticEvent c then none
      else some { kind := .resume c.id, turn := turn, watermark := c.frontier, readyAt := some t }
    | _, _ => none

def laterSemanticWork : Option WorkCandidate :=
  db.continuableContexts.findSome? fun c =>
    match db.latestTurn with
    | none => none
    | some t =>
      match db.events.find? (·.sequence = t.latestSemanticEvent) with
      | none => none
      | some e =>
        if db.hasLaterSemanticEvent c then
          some { kind := .start, turn := t.turnSequence, watermark := c.frontier
                 readyAt := some e.createdAt }
        else none

/-- A candidate that starts a call at an unconsumed event. -/
def startAt (row : Id × Nat × Time) : WorkCandidate where
  kind := .start
  turn := row.1
  watermark := row.2.1
  readyAt := some row.2.2

def completedToolsWork : Option WorkCandidate :=
  let rows := db.modelResultFrontiers.flatMap fun f =>
    (db.contexts.filter (·.id = f.context)).map fun c => (f, c)
  ((rows.insertionSort fun a b => a.1.Before b.1).head?).map fun r =>
    { kind := .continueFrom r.1.context, turn := r.1.turn, watermark := r.2.frontier
      readyAt := r.1.readyAt }

def truncatedOutputWork : Option WorkCandidate :=
  db.truncatedOutput.map fun r =>
    { kind := .continueFrom r.2.id, turn := r.1.turn, watermark := r.2.frontier
      readyAt := some r.1.createdAt }

/-- The CTE `candidates` in the order of `work_order` and `source_order`, which no two share. -/
def workCandidates : List WorkCandidate :=
  [db.unstartedWork, db.retryWork, db.laterSemanticWork, db.unconsumedConfigChange.map startAt,
    db.completedToolsWork, db.truncatedOutputWork, db.unconsumedCheckpoint.map startAt].filterMap id

/-- A candidate with its opening inputs; one without vanishes in the cross join. -/
def withOpenings (c : WorkCandidate) : Option ModelWork :=
  match db.modelCallOpeningContentInputs c.turn c.watermark with
  | [] => none
  | o :: os => some {
      kind := c.kind, turn := c.turn, inputIds := (o :: os).map (·.1)
      openingEventSequence := o.2, readyAt := c.readyAt }

def nextModelWork : Option ModelWork :=
  if db.hasIncompleteToolBatch then none else db.workCandidates.findSome? db.withOpenings

/-! ## The wakeup -/

def receivedContent (mode : DeliveryMode) : List AgentInput :=
  db.inputs.filter fun i => i.state = .received && i.mode = mode && i.kind = .content

/-- `agent_next_wakeup_ready_at` at the statement time `now`. -/
def nextWakeupReadyAt (now : Time) : Option Time :=
  if db.toolWorkFrontiers ≠ [] then some now
  else if db.hasIncompleteToolBatch then none
  else if db.receivedContent .steering ≠ [] then some now
  else match db.nextModelWork.bind (·.readyAt) with
    | some readyAt => some readyAt
    | none => if db.receivedContent .queued ≠ [] then some now else none

/-! ## The claim's selection -/

/-- `NextAgentToolWork`. -/
def nextToolWork : Option ToolFrontier :=
  (db.toolWorkFrontiers.insertionSort ToolFrontier.Before).head?

/-- `ListSteeringAgentInputsForAdmission`. -/
def steeringForAdmission : List AgentInput :=
  if db.hasIncompleteToolBatch then []
  else (db.receivedContent .steering).insertionSort AgentInput.Before

/-- `GetNextQueuedAgentInputForAdmission`. -/
def queuedForAdmission : List AgentInput :=
  ((db.receivedContent .queued).insertionSort AgentInput.Before).head?.toList

end Db

/-- The consistency errors of `ClaimNextAgentWork`. -/
inductive ClaimError
  /-- `agent has both tool work and model work for its current frontier` -/
  | toolAndModelWork
  /-- `agent has model work while its current tool batch is incomplete` -/
  | modelWorkInIncompleteBatch
  deriving DecidableEq

/-- What a claim decides, up to the point where it takes the runtime lock. -/
inductive Selection
  | tool (frontier : ToolFrontier)
  | admitInputs (inputs : List AgentInput)
  | model (work : ModelWork)
  /-- reconcile, `tool_batch_wait` -/
  | toolBatchWait
  /-- reconcile, `model_retry_wait` -/
  | modelRetryWait
  /-- reconcile, `idle` -/
  | idle
  deriving DecidableEq

/-- `is_ready` of `NextAgentModelWork`. -/
def ModelWork.isReady (work : ModelWork) (now : Time) : Bool :=
  match work.readyAt with
  | some readyAt => readyAt ≤ now
  | none => false

/-- The branch tree of `ClaimNextAgentWork`. -/
def Db.selectWork (db : Db) (now : Time) : Except ClaimError Selection :=
  match db.nextToolWork, db.nextModelWork with
  | some _, some _ => .error .toolAndModelWork
  | some frontier, none => .ok (.tool frontier)
  | none, modelWork =>
    if db.hasIncompleteToolBatch then
      if modelWork.isSome then .error .modelWorkInIncompleteBatch else .ok .toolBatchWait
    else if db.steeringForAdmission ≠ [] then .ok (.admitInputs db.steeringForAdmission)
    else match modelWork with
      | some work => if work.isReady now then .ok (.model work) else .ok .modelRetryWait
      | none =>
        if db.queuedForAdmission = [] then .ok .idle else .ok (.admitInputs db.queuedForAdmission)

end Store
