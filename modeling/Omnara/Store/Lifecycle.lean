import Omnara.Store.Tools

/-!
# Transactions on inputs, configs and the agent

`agent_content_inputs_store.go`, `agent_inputs_backlog_store.go`, `agent_inputs_store.go`,
`agent_config_changes_store.go`, `agent_turns_store.go`, `agent_runtime_cancellation_store.go` and
`archiveAgentTx`. Processes and actions that a cancellation ends complete their calls first; since
it completes every open call of the turn, they are part of that.
-/

namespace Store

namespace Db

variable (db : Db)

/-! ## Content inputs -/

/-- `createAgentContentInputTx`; `canceled` are the interactions a steering input supersedes. -/
def createContentInput (mode : DeliveryMode) (canceled : List (Id × Resolution)) (now : Time) :
    Option Db := do
  require (¬ db.archived ∧ mode ≠ .immediate)
  let created := { db with inputs := insertAgentInput db.freshInput mode now db.inputs }
  let db ← created.cancelOpenInteractions canceled now
  return db.reconcileWakeup now

def changeInputs (f : List AgentInput → Option (List AgentInput)) (now : Time) : Option Db := do
  let inputs ← f db.inputs
  return { db with inputs := inputs }.reconcileWakeup now

def cancelQueuedBacklogInput (id : Id) (now : Time) : Option Db :=
  db.changeInputs (cancelQueuedInput id) now

def demoteInput (id : Id) (now : Time) : Option Db :=
  db.changeInputs (demoteSteeringInputToQueued id) now

/-- Promotion, which supersedes open interactions as a new steering input does. -/
def promoteInput (id : Id) (canceled : List (Id × Resolution)) (now : Time) : Option Db := do
  let inputs ← promoteQueuedInputToSteering id db.inputs
  let db ← { db with inputs := inputs }.cancelOpenInteractions canceled now
  return db.reconcileWakeup now

/-- `MoveQueuedBacklogInput`, which leaves the wakeup alone. -/
def moveInput (id : Id) (position : MovePosition) : Option Db := do
  let inputs ← moveQueuedBacklogInput id position db.inputs
  return { db with inputs := inputs }

/-! ## Config changes -/

/-- `appendEventToCurrentOrNewAgentTurnTx` for the input with its event. -/
def appendToCurrentOrNewTurn (input : Id) (now : Time) : Option Db :=
  match db.currentContinuableTurn with
  | some turn => db.appendToTurn turn (.agentInput input) true now
  | none =>
    let turn := db.nextTurnSequence
    some ((db.appendEvent turn (.agentInput input) true now).insertTurn turn)

/-- The replay of a config change, and a change that has no event of its own to append: the wakeup is
reconciled. -/
def replayConfigChange (now : Time) : Option Db :=
  some (db.reconcileWakeup now)

/-- `ChangeAgentConfig`. The source asks for an active agent before it locks the agent's row, so an
archived one is not excluded here. -/
def changeAgentConfig (now : Time) : Option Db := do
  let db ← (db.insertResolvedInput .configChange now).appendToCurrentOrNewTurn db.freshInput now
  return db.reconcileWakeup now

/-! ## Cancellation -/

def hasLiveContexts : Bool := db.contexts.any (·.state = .started)

/-- `RequestAgentRuntimeCancel`. -/
def requestRuntimeCancel : Db :=
  { db with lock := db.lock.map fun l => { l with cancelRequested := true } }

/-- The lock `cancelAgentTx` ends: any lock when it asks for it, else one already canceled. -/
def runtimeToCancel (request : Bool) : Option Id :=
  (db.lock.filter fun l => request || l.cancelRequested).map (·.id)

/-- `CancelRuntimeModelCallContextsForLifecycle`. -/
def cancelContexts (lock : Id) : Db :=
  { db with contexts := db.contexts.map fun c =>
      if c.runtimeLock = lock ∧ c.state = .started then { c with state := .canceled } else c }

/-- `terminalizeAgentModelCallsForLifecycleUnderAgentLockTx`. -/
def terminalizeContexts (lock : Option Id) : Option Db := do
  let canceled := match lock with
    | some lock => db.cancelContexts lock
    | none => db
  require (¬ canceled.hasLiveContexts)
  return canceled

/-- The received content inputs of a mode become canceled. -/
def cancelReceived (mode : DeliveryMode) : Db :=
  { db with inputs := db.inputs.map fun i =>
      if i.waits mode then { i with state := .canceled } else i }

/-- The stop event: a control input in the affected turn. Without a turn the insert of the event
fails on its foreign key. -/
def appendStop (turn : Option Id) (now : Time) : Option Db := do
  let turn ← turn
  ((db.cancelReceived .steering).insertResolvedInput .control now).appendToTurn turn
    (.agentInput db.freshInput) false now

/-- The rows of `CancelNonTerminalToolCallsForAgent`. -/
def openCalls (turn : Id) : List ToolCall :=
  db.toolCalls.filter fun call => call.state ≠ .completed &&
    (db.sourceEvent call).any (·.turn = turn)

/-- `cancelAgentTx`; `always` is `CancelRuntimeWithoutContinuableTurn`. -/
def cancelAgentTx (always : Bool) (now : Time) : Option Db := do
  let currentTurn := db.currentContinuableTurn
  let affected := currentTurn.isSome || db.hasLiveContexts
  let request := affected || always
  let requested := if request then db.requestRuntimeCancel else db
  let db ← requested.terminalizeContexts (db.runtimeToCancel request)
  let db ← if affected then db.appendStop currentTurn now else some db
  let db ← match currentTurn with
    | some turn => db.completeCalls now (db.openCalls turn)
    | none => some db
  return db.reconcileWakeup now

/-- `CancelAgent`, which does not ask whether the agent is archived. -/
def cancelAgent (now : Time) : Option Db :=
  db.cancelAgentTx false now

/-- `archiveAgentTx`. -/
def archiveAgent (now : Time) : Option Db := do
  let archived := { db with archived := true }.cancelReceived .queued
  let db ← archived.cancelAgentTx true now
  return { db with wakeup := none }

/-! ## The work claim -/

/-- `acquireAgentRuntimeLockTx` and `consumeClaimedAgentWakeupTx`. -/
def takeWork (lock : Id) (lease : Time) (now : Time) : Option Db := do
  let db ← db.acquireRuntimeLock lock lease now
  return { db with wakeup := none }

/-- What `ClaimNextAgentWork` does after its selection: reconcile, or take the lock, consume the
wakeup and admit the selected inputs. Of `validateClaimedModelWork` the opening inputs and their
first event are left; the kind of the work decides its other fields. -/
def claimSelected (lock : Id) (lease : Time) (now : Time) : Selection → Option Db
  | .toolBatchWait | .modelRetryWait | .idle => some (db.reconcileWakeup now)
  | .tool _ => do
    let db ← db.takeWork lock lease now
    db.renewRuntimeLock lock lease now
  | .model work => do
    let db ← db.takeWork lock lease now
    require (work.inputIds ≠ [] ∧ 0 < work.openingEventSequence)
    db.renewRuntimeLock lock lease now
  | .admitInputs inputs => do
    let turn := db.nextTurnSequence
    let db ← db.takeWork lock lease now
    let db ← db.admitAndOpenTurn inputs now
    -- `modelCallOpeningInputSet` at the last of the admitted events
    let opening := db.modelCallOpeningContentInputs turn (db.nextEventSequence - 1)
    require (opening ≠ [] ∧ ∀ o ∈ opening, 0 < o.2)
    db.renewRuntimeLock lock lease now

/-- `ClaimNextAgentWork` on this agent's wakeup. -/
def claimNextAgentWork (lock : Id) (lease : Time) (now : Time) : Option Db := do
  require (¬ db.archived ∧ db.lock = none ∧ db.wakeup.any (· ≤ now))
  let selection ← (db.selectWork now).toOption
  db.claimSelected lock lease now selection

end Db

end Store
