import Omnara.Store.ModelCalls

/-!
# Transactions on tool calls and runtime locks

`tool_calls_store.go`, `agent_interactions_store.go`, `agent_runtime_locks_store.go`,
`agent_runtime_lock_reaping_store.go` and the completions of processes and process actions.
Processes, actions and interactions are not modelled: a completion that asks for one of them in a
certain state is open to every call in the tool-call state it asks for. Of the replays of a committed
outcome only those that still touch the wakeup are modelled (`replayRequeue`, `replayResolution`).
-/

namespace Store

/-- `toolcatalog.IsPlatformManagedToolType`. -/
def ToolType.isPlatformManaged : ToolType → Bool
  | .builtIn | .mcp => true
  | .custom => false

namespace Db

variable (db : Db)

/-- The CTE `live_runtime` of the tool queries, which does not ask for the agent's state. -/
def lockLive (lock : Id) (now : Time) : Bool :=
  db.lock.any fun l => l.id = lock && !l.cancelRequested && now < l.leaseExpiresAt

def call? (id : Id) : Option ToolCall :=
  db.toolCalls.find? (·.id = id)

/-! ## State changes by the runtime -/

/-- A state change of one call by the runtime that holds a live lock. -/
def changeCall (lock id : Id) (allowed : ToolCall → Bool) (state : ToolState) (now : Time) :
    Option Db := do
  require (db.lockLive lock now)
  let call ← db.call? id
  require (allowed call)
  return db.setCallState id state

def markToolCallAwaitingPermission (lock id : Id) (now : Time) : Option Db :=
  db.changeCall lock id (·.state = .awaitingAuthorization) .awaitingPermission now

def markToolCallReady (lock id : Id) (now : Time) : Option Db :=
  db.changeCall lock id (·.state = .awaitingAuthorization) .ready now

/-- `StartToolCall`; without `retain` the call waits for something outside the runtime. -/
def startToolCall (lock id : Id) (retain : Bool) (now : Time) : Option Db :=
  db.changeCall lock id
    (fun call => call.state = .ready && call.type.isPlatformManaged &&
      (retain || call.type = .builtIn))
    (if retain then .running lock else .waiting) now

def releaseToolCallRuntimeOwnership (lock id : Id) (now : Time) : Option Db :=
  db.changeCall lock id (·.state = .running lock) .waiting now

def requeueRuntimeToolCall (lock id : Id) (now : Time) : Option Db := do
  let db ← db.changeCall lock id (·.state = .running lock) .ready now
  return db.markWakeup now

/-- `RequeueRuntimeToolCall` on a call that is ready already: only the wakeup is marked. -/
def replayRequeue (lock id : Id) (now : Time) : Option Db := do
  require (db.lockHeld lock)
  let call ← db.call? id
  require (call.state = .ready)
  return db.markWakeup now

/-! ## Completions -/

/-- A call in an allowed state is completed with a result. -/
def completeCallIf (id : Id) (allowed : ToolCall → Bool) (now : Time) : Option Db := do
  let call ← db.call? id
  require (allowed call)
  db.completeCall call now

/-- `CompleteToolCall`, the one completion that does not mark the wakeup; `negative` says that the
outcome is failed, denied or canceled. -/
def completeToolCall (lock id : Id) (negative : Bool) (now : Time) : Option Db := do
  require (db.lockLive lock now)
  db.completeCallIf id
    (fun call => (call.type.isPlatformManaged && call.state = .ready) ||
      (negative && (call.state = .awaitingAuthorization || call.state = .awaitingPermission))) now

def completeRuntimeToolCall (lock id : Id) (now : Time) : Option Db := do
  require (db.lockLive lock now)
  let db ← db.completeCallIf id
    (fun call => call.state = .running lock && call.type.isPlatformManaged) now
  return db.markWakeup now

def completeCustomToolCall (id : Id) (now : Time) : Option Db := do
  let db ← db.completeCallIf id (fun call => call.state = .ready && call.type = .custom) now
  return db.markWakeup now

/-- `CompleteToolCallFromProcess`, `CompleteToolCallFromStartedProcess`,
`CompleteToolCallFromProcessAction` and `CompleteWaitingBuiltInToolCall`, each with the wakeup its
callers mark. -/
def completeWaitingToolCall (id : Id) (now : Time) : Option Db := do
  let db ← db.completeCallIf id (fun call => call.state = .waiting && call.type = .builtIn) now
  return db.markWakeup now

/-! ## Interactions -/

/-- What the resolution of an interaction does to its call. -/
inductive Resolution
  /-- `MarkToolCallReadyFromInteraction` -/
  | allow
  /-- `CompleteToolCallFromPermissionInteraction` -/
  | deny
  /-- `CompleteToolCallFromQuestionInteraction` -/
  | answer
  deriving DecidableEq

/-- `applyPermissionInteractionResolutionTx` and `completeQuestionToolCallTx`. -/
def applyResolution (id : Id) (now : Time) : Resolution → Option Db
  | .allow => do
    let call ← db.call? id
    require (call.state = .awaitingPermission)
    return db.setCallState id .ready
  | .deny => db.completeCallIf id (·.state = .awaitingPermission) now
  | .answer => db.completeCallIf id
      (fun call => call.type = .builtIn && match call.state with
        | .running _ | .waiting => true
        | _ => false) now

/-- `uuidv7()` for an input; rows are never deleted. -/
def freshInput : Id := db.inputs.length

/-- A response, control or config input: delivered at once, resolved by its own event. -/
def insertResolvedInput (kind : InputKind) (now : Time) : Db :=
  { db with inputs := db.inputs ++
      [⟨db.freshInput, .resolved, 0, kind, .immediate, now, some db.nextEventSequence⟩] }

/-- `resolveAgentInteractionTx` on an open interaction of a call: the response input with its event
in the turn of the call, refused after a later stop (`AgentInteractionHasLaterStop`). -/
def resolveAgentInteraction (id : Id) (resolution : Resolution) (now : Time) : Option Db := do
  let call ← db.call? id
  let source ← db.sourceEvent call
  require (¬ db.stopAfter source.sequence)
  let responded ← (db.insertResolvedInput (.interactionResponse id) now).appendToTurn source.turn
    (.agentInput db.freshInput) true now
  let db ← responded.applyResolution id now resolution
  return db.markWakeup now

/-- `resolveAgentInteractionTx` on an interaction that is resolved already: a question completes its
call if that is still open, and the wakeup is marked. -/
def replayResolution (answered : Option Id) (now : Time) : Option Db := do
  let db ← match answered with
    | some id => db.applyResolution id now .answer
    | none => some db
  return db.markWakeup now

/-- The loop of `cancelOpenInteractionsForSteeringInputTx` over the calls of a turn whose permission
or question is canceled. -/
def cancelInteractionsOf (turn : Id) (now : Time) (db : Db) : List (Id × Resolution) → Option Db
  | [] => some db
  | (id, resolution) :: rest => do
    let call ← db.call? id
    require (resolution ≠ .allow ∧ (db.sourceEvent call).any (·.turn = turn))
    let db ← db.applyResolution id now resolution
    cancelInteractionsOf turn now db rest

/-- `cancelOpenInteractionsForSteeringInputTx`: the turn is looked up once, before the loop. -/
def cancelOpenInteractions (canceled : List (Id × Resolution)) (now : Time) : Option Db :=
  match db.currentContinuableTurn with
  | none => some db
  | some turn => cancelInteractionsOf turn now db canceled

/-! ## Runtime locks -/

/-- `AcquireAgentRuntimeLock`; `ON CONFLICT DO NOTHING` returns no row. -/
def acquireRuntimeLock (lock : Id) (lease : Time) (now : Time) : Option Db := do
  require (¬ db.archived ∧ db.lock = none)
  return { db with lock := some ⟨lock, now + lease, false⟩ }

/-- `RenewAgentRuntimeLock`. -/
def renewRuntimeLock (lock : Id) (lease : Time) (now : Time) : Option Db := do
  let held ← db.lock
  require (held.id = lock)
  return { db with lock := some { held with leaseExpiresAt := max held.leaseExpiresAt (now + lease) } }

/-- The rows of `FailRuntimeToolCalls`. -/
def runtimeCalls (lock : Id) : List ToolCall :=
  db.toolCalls.filter fun call => call.state = .running lock && call.type.isPlatformManaged

/-- `failRuntimeToolCallsTx`. -/
def failRuntimeToolCalls (lock : Id) (now : Time) : Option Db := do
  let failed ← db.completeCalls now (db.runtimeCalls lock)
  return if db.runtimeCalls lock = [] then failed else failed.markWakeup now

def deleteLock : Db := { db with lock := none }

def releaseAgentRuntimeLock (lock : Id) (delay : Time) (now : Time) : Option Db := do
  require (db.lockHeld lock)
  let db ← db.recoverRuntimeContext lock delay now
  let db ← db.failRuntimeToolCalls lock now
  return db.deleteLock.reconcileWakeup now

/-- `failQueuedRuntimeWorkTx` for the waiting calls of the processes and actions it fails. -/
def completeWaitingToolCalls (db : Db) (now : Time) : List Id → Option Db
  | [] => some db
  | id :: ids => do
    let db ← db.completeWaitingToolCall id now
    completeWaitingToolCalls db now ids

/-- `reapExpiredAgentRuntimeLockTx`; `queued` are the calls of queued processes and actions. -/
def reapExpiredAgentRuntimeLock (lock : Id) (delay : Time) (queued : List Id) (now : Time) :
    Option Db := do
  require (db.lock.any fun l => l.id = lock && l.leaseExpiresAt ≤ now)
  let db ← db.recoverRuntimeContext lock delay now
  let db ← db.failRuntimeToolCalls lock now
  let db ← db.completeWaitingToolCalls now queued
  return db.deleteLock.reconcileWakeup now

end Db

end Store
