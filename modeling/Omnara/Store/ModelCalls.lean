import Omnara.Store.Write

/-!
# Transactions on model calls

`model_contexts_claims.go`, `model_contexts_compaction.go`, `model_contexts_lifecycle.go`,
`model_contexts_boundary.go`, `model_outputs_workflow.go`, `model_outputs_terminal_error.go`,
`context_checkpoints_store.go` and `agent_runtime_recovery_store.go`. Admission of managed work
(`NewManagedWorkAllowed`) is an argument; replays of a committed outcome change nothing and are left
out. The message a subagent's last output sends to its parent is an input of another agent.
-/

namespace Store

def maxModelCallRetriesPerOperation : Nat := 8

namespace Db

variable (db : Db)

/-! ## Outcomes -/

/-- `InsertModelOutputAuthority`, without its `ON CONFLICT`: a started context has no output yet. -/
def insertOutput (context : Id) (stopReason : StopReason) : Db :=
  { db with outputs := db.outputs ++ [⟨context, stopReason⟩] }

def insertCheckpoint (context : Id) (summarizedThrough : Nat) (now : Time) : Db :=
  { db with checkpoints := db.checkpoints ++ [⟨context, summarizedThrough, now⟩] }

/-- The output of a context with its event in the turn of the context's frontier. -/
def publishOutput (c : ModelCallContext) (stopReason : StopReason) (semantic : Bool) (now : Time) :
    Option Db := do
  let turn ← db.turnAt c.frontier
  (db.insertOutput c.id stopReason).appendToTurn turn (.modelOutput c.id) semantic now

/-- `recordTerminalModelCallFailureTx` on a started context: failed without recovery, an error
output, and the wakeup. -/
def recordTerminalFailure (c : ModelCallContext) (lock : Id) (teardown : Bool) (now : Time) :
    Option Db := do
  let db ← db.finishContext c.id lock (.failed none) teardown now
  let db ← db.publishOutput c .error true now
  return db.reconcileWakeup now

/-- `applyModelCallAdmissionTx` for the context a claim has just created, the last of the table. -/
def applyAdmission (allowed : Bool) (lock : Id) (now : Time) : Option Db := do
  let c ← db.contexts.getLast?
  if allowed then return db else db.recordTerminalFailure c lock false now

/-! ## Claims -/

/-- `OpeningContentInputSetMatchesInputSequence`. -/
def openingInputsMatch (frontier : Nat) (inputIds : List Id) : Bool :=
  match db.turnAt frontier with
  | none => inputIds = []
  | some turn =>
    let opening := (db.modelCallOpeningContentInputs turn frontier).map (·.1)
    inputIds.Nodup && inputIds.all (· ∈ opening) && opening.all (· ∈ inputIds)

/-- `claimNormalContextTx`; `source` is the context a continuation starts from. An existing context
of the frontier is returned without a write. -/
def claimNormalContext (lock : Id) (frontier : Nat) (inputIds : List Id) (source : Option Id)
    (allowed : Bool) (now : Time) : Option Db := do
  require (db.maxEventSequence = frontier)
  require (db.openingInputsMatch frontier inputIds)
  if (db.latestAttempt .normal frontier).isSome then return db
  let work ← db.nextModelWork
  require (work.inputIds = inputIds)
  require (work.kind = match source with
    | none => .start
    | some context => .continueFrom context)
  require (¬ db.contexts.any fun c => c.state = .started && c.frontier < frontier)
  (db.insertContext .normal frontier 1 lock).applyAdmission allowed lock now

def claimNormalModelCall (lock : Id) (frontier : Nat) (inputIds : List Id) (source : Option Id)
    (allowed : Bool) (now : Time) : Option Db := do
  require (inputIds ≠ [] ∧ 0 < frontier)
  require (db.lockActive lock now)
  db.claimNormalContext lock frontier inputIds source allowed now

def checkpointEvents : List (ContextCheckpoint × Nat) :=
  db.checkpoints.flatMap fun k =>
    (db.events.filter (·.payload = .contextCheckpoint k.context)).map fun e => (k, e.sequence)

/-- `GetLatestApplicableContextCheckpoint`. -/
def latestApplicableCheckpoint (max : Nat) : Option ContextCheckpoint :=
  (((db.checkpointEvents.filter (·.2 ≤ max)).insertionSort fun a b => b.2 ≤ a.2).head?).map (·.1)

/-- The end of the range summarized for a frontier, 0 without a checkpoint. -/
def summarizedThrough (frontier : Nat) : Nat :=
  match db.latestApplicableCheckpoint frontier with
  | some k => k.summarizedThrough
  | none => 0

def sourceEnd? : Operation → Option Nat
  | .normal => none
  | .compaction sourceEnd => some sourceEnd

/-- The CTE `latest_compaction`: the smallest source, the latest attempt. -/
def latestCompaction (frontier : Nat) : Option ModelCallContext :=
  ((db.contexts.filter fun c => c.operation ≠ .normal && c.frontier = frontier).insertionSort
    fun a b => (sourceEnd? a.operation).getD 0 < (sourceEnd? b.operation).getD 0 ∨
      sourceEnd? a.operation = sourceEnd? b.operation ∧ b.attempt ≤ a.attempt).head?

/-- The condition of the CTE `blocked` on the latest compaction. -/
def compactionAllowed (frontier sourceEnd : Nat) : Bool :=
  match db.latestCompaction frontier with
  | none => true
  | some latest => latest.state = .failed (some .reduceCompactionSource) &&
      match latest.operation with
      | .normal => false
      | .compaction latestEnd => sourceEnd < latestEnd

/-- `claimCompactionContextTx`: the database and whether a context was created. -/
def claimCompactionContext (lock parent : Id) (frontier sourceEnd : Nat) (now : Time) :
    Option (Db × Bool) := do
  let p ← db.context? parent
  require (p.operation = .normal ∧ p.frontier = frontier ∧ p.state = .failed (some .compact))
  require (db.summarizedThrough frontier < sourceEnd)
  if (db.latestAttempt (.compaction sourceEnd) frontier).isSome then return (db, false)
  require (db.lockActive lock now)
  require (db.compactionAllowed frontier sourceEnd)
  return (db.insertContext (.compaction sourceEnd) frontier 1 lock, true)

def claimCompactionModelCall (lock parent : Id) (frontier sourceEnd : Nat) (allowed : Bool)
    (now : Time) : Option Db := do
  require (0 < sourceEnd ∧ sourceEnd ≤ frontier)
  require (db.lockActive lock now)
  let claim ← db.claimCompactionContext lock parent frontier sourceEnd now
  if claim.2 then claim.1.applyAdmission allowed lock now else return claim.1

/-- `resumeCompactionContext` (`agent_executor_compaction.go`), through the runner the one caller of
`ClaimCompactionModelCall`: for a compaction context that exists, with its frontier, its source end
and the latest normal context of the frontier. The store alone does not ask whether the parent is
still current; it is this choice of arguments that keeps it from starting a compaction late. -/
def resumeCompactionContext (lock resumed : Id) (allowed : Bool) (now : Time) : Option Db := do
  let c ← db.context? resumed
  let sourceEnd ← sourceEnd? c.operation
  let parent ← db.latestAttempt .normal c.frontier
  db.claimCompactionModelCall lock parent.id c.frontier sourceEnd allowed now

/-- `ClaimNextModelCallContext`: another attempt of an operation whose latest one waits for it.
Whatever does not satisfy `InsertNextModelCallContext` is returned without a write. -/
def claimNextModelCallContext (lock predecessor : Id) (allowed : Bool) (now : Time) :
    Option Db := do
  require (db.lockActive lock now)
  let p ← db.context? predecessor
  let latest ← db.latestAttempt p.operation p.frontier
  if latest.id = p.id ∧ (retryAt? p).any (· ≤ now) ∧
      p.attempt ≤ maxModelCallRetriesPerOperation ∧
      db.isContinuable p ∧ ¬ db.hasLaterSemanticEvent p then
    (db.insertContext p.operation p.frontier (p.attempt + 1) lock).applyAdmission allowed lock now
  else return db

/-! ## Handing over to a compaction -/

/-- `resolveModelReadyBoundaryTx`: whether something later preempts the context, after steering
inputs have been admitted. -/
def resolveModelReadyBoundary (c : ModelCallContext) (now : Time) : Option (Db × Bool) :=
  if db.steeringForAdmission = [] then some (db, db.hasLaterSemanticEvent c)
  else (db.admitAndOpenTurn db.steeringForAdmission now).map fun db => (db, true)

/-- `RecordModelCallFailureAndClaimCompaction`. -/
def recordFailureAndClaimCompaction (lock parent : Id) (sourceEnd : Nat) (allowed : Bool)
    (now : Time) : Option Db := do
  require (db.lockActive lock now)
  let p ← db.context? parent
  require (p.operation = .normal ∧ p.state = .started ∧ p.runtimeLock = lock ∧
    sourceEnd ≤ p.frontier)
  require (db.summarizedThrough p.frontier < sourceEnd)
  let db ← db.finishContext parent lock (.failed (some .compact)) false now
  let boundary ← db.resolveModelReadyBoundary p now
  if boundary.2 then return boundary.1.reconcileWakeup now
  let claim ← boundary.1.claimCompactionContext lock parent p.frontier sourceEnd now
  require (claim.2 = true)
  let db ← claim.1.applyAdmission allowed lock now
  return if allowed then db.reconcileWakeup now else db

def replaceCompactionSource (lock context : Id) (nextEnd : Nat) (allowed : Bool) (now : Time) :
    Option Db := do
  require (0 < nextEnd)
  require (db.lockActive lock now)
  let c ← db.context? context
  let currentEnd ← sourceEnd? c.operation
  require (c.state = .started ∧ c.runtimeLock = lock ∧ nextEnd < currentEnd)
  require (db.summarizedThrough c.frontier + 1 ≤ nextEnd)
  let db ← db.finishContext context lock (.failed (some .reduceCompactionSource)) false now
  let boundary ← db.resolveModelReadyBoundary c now
  if boundary.2 then return boundary.1.reconcileWakeup now
  let parent ← boundary.1.latestAttempt .normal c.frontier
  let claim ← boundary.1.claimCompactionContext lock parent.id c.frontier nextEnd now
  require (claim.2 = true)
  claim.1.applyAdmission allowed lock now

/-! ## Results of a call -/

/-- `RecordRetryableModelCallFailure`. -/
def recordRetryableFailure (lock context : Id) (delay : Time) (now : Time) : Option Db := do
  require (db.lockActive lock now)
  let c ← db.context? context
  require (c.state = .started ∧ c.attempt ≤ maxModelCallRetriesPerOperation)
  let db ← db.finishContext context lock (.failed (some (.retry (now + delay)))) false now
  return db.reconcileWakeup now

/-- `RecordModelCallErrorAndCompleteContext` and `RecordTerminalCompactionFailure`, which differ in
the operation they expect. -/
def recordTerminalModelCallFailure (lock context : Id) (now : Time) : Option Db := do
  require (db.lockActive lock now)
  let c ← db.context? context
  require (c.runtimeLock = lock ∧ c.state = .started)
  db.recordTerminalFailure c lock false now

/-- `RecordModelOutputAndCompleteContext`. The deferred trigger `enforce_model_output_lineage` keeps
`error` for stopped contexts. -/
def recordModelOutput (lock context : Id) (stopReason : StopReason) (now : Time) : Option Db := do
  require (db.lockActive lock now)
  let c ← db.context? context
  require (c.operation = .normal ∧ c.runtimeLock = lock ∧ c.state = .started)
  require (stopReason ≠ .error)
  let db ← db.publishOutput c stopReason true now
  db.finishContext context lock .succeeded false now

/-- The rows `InsertToolCall` adds for the calls of an output. -/
def insertToolCalls (context : Id) (types : List ToolType) (now : Time) : Db :=
  { db with toolCalls := db.toolCalls ++ types.mapIdx fun k type =>
      ⟨db.toolCalls.length + k, context, type, .awaitingAuthorization, now⟩ }

/-- `RecordToolCallSourceAndCompleteContext`: the calls of an output, each with its type and whether
it is rejected at once. -/
def recordToolCallSource (lock context : Id) (stopReason : StopReason)
    (calls : List (ToolType × Bool)) (now : Time) : Option Db := do
  require (calls ≠ [] ∧ stopReason ≠ .error)
  require (db.lockActive lock now)
  let c ← db.context? context
  require (c.operation = .normal ∧ c.runtimeLock = lock ∧ c.state = .started)
  let published ← db.publishOutput c stopReason false now
  let inserted := published.insertToolCalls context (calls.map (·.1)) now
  let new := inserted.toolCalls.drop published.toolCalls.length
  let rejected := ((new.zip calls).filter (·.2.2)).map (·.1)
  let db ← inserted.completeCalls now rejected
  let db ← db.finishContext context lock .succeeded false now
  return db.markWakeup now

/-- The events of a closed range (`CountCheckpointRangeEvents`). -/
def rangeEvents (start stop : Nat) : List AgentEvent :=
  db.events.filter fun e => start ≤ e.sequence && e.sequence ≤ stop

/-- `CountCheckpointRangeOpenToolResults` is 0: every call proposed in the range has its result event
there. -/
def rangeClosed (start stop : Nat) : Bool :=
  db.toolCalls.all fun call => (db.outputEvents call.output).all fun source =>
    !(start ≤ source.sequence && source.sequence ≤ stop) ||
      (db.results.any (·.call = call.id) && db.resultEvents call.id ≠ [] &&
        (db.resultEvents call.id).all (·.sequence ≤ stop))

def publishContextCheckpoint (lock context : Id) (now : Time) : Option Db := do
  require (db.lockActive lock now)
  let c ← db.context? context
  let sourceEnd ← sourceEnd? c.operation
  require (c.state = .started ∧ c.runtimeLock = lock)
  let start := db.summarizedThrough c.frontier + 1
  require ((db.rangeEvents start sourceEnd).length + start = sourceEnd + 1)
  require (db.rangeClosed start sourceEnd)
  let turn ← db.turnAt c.frontier
  let published ← (db.insertCheckpoint context sourceEnd now).appendToTurn turn
    (.contextCheckpoint context) false now
  let db ← published.finishContext context lock .succeeded false now
  return db.reconcileWakeup now

/-! ## Recovery of a lock's live context -/

/-- `recoverRuntimeModelCallContextTx`. -/
def recoverRuntimeContext (lock : Id) (delay : Time) (now : Time) : Option Db :=
  match db.contexts.find? fun c => c.runtimeLock = lock && c.state = .started with
  | none => some db
  | some c =>
    if maxModelCallRetriesPerOperation < c.attempt then db.recordTerminalFailure c lock true now
    else some (db.setContextState c.id (.failed (some (.retry (now + delay)))))

end Db

end Store
