import Omnara.Store.Queue

/-!
# The writes transactions are made of

A transaction is a function to `Option Db`: `none` is any error, after which the database is as it
was. The writes below are the helpers the stores share; `now` is the statement time.

Times of one transaction are taken to be equal. Checks on data that is not modelled (actors, config
rows, texts, provider evidence) are left out, so the model commits whenever the source may.
-/

namespace Store

def require (p : Prop) [Decidable p] : Option Unit :=
  if p then some () else none

@[simp]
theorem require_eq_some {p : Prop} [Decidable p] {u : Unit} : require p = some u ↔ p := by
  unfold require
  split <;> simp_all

section
variable {α β : Type} {x : Option α} {f : α → Option β}

theorem bind_eq_some {b : β} : (x >>= f) = some b ↔ ∃ a, x = some a ∧ f a = some b :=
  Option.bind_eq_some_iff

theorem pure_eq_some {a b : α} : (pure a : Option α) = some b ↔ a = b := Option.some_inj

end

namespace Db

variable (db : Db)

/-! ## Wakeups -/

/-- `MarkAgentWakeup`. -/
def markWakeup (now : Time) : Db :=
  if db.archived then db
  else { db with wakeup := some (match db.wakeup with
    | some readyAt => min readyAt now
    | none => now) }

/-- `ReconcileAgentWakeup`. -/
def reconcileWakeup (now : Time) : Db :=
  if db.archived then db else { db with wakeup := db.nextWakeupReadyAt now }

/-! ## Events -/

/-- `appendTypedAgentEventTx`: the event takes `next_event_sequence`. -/
def appendEvent (turn : Id) (payload : Payload) (isOpening : Bool) (now : Time) : Db :=
  { db with
    events := db.events ++ [⟨db.nextEventSequence, turn, payload, isOpening, now⟩]
    nextEventSequence := db.nextEventSequence + 1 }

/-- `UpdateAgentTurnLatestEvent`. -/
def updateTurnLatestEvent (turn : Id) (event : Nat) (semantic : Bool) : Db :=
  { db with turns := db.turns.map fun t =>
      if t.turnSequence = turn then
        { t with latestEvent := event
                 latestSemanticEvent := if semantic then event else t.latestSemanticEvent }
      else t }

/-- An event appended to an existing turn, with the update of the turn's row that goes with it. -/
def appendToTurn (turn : Id) (payload : Payload) (semantic : Bool) (now : Time) : Option Db := do
  require (turn ∈ db.turns.map (·.turnSequence))
  return (db.appendEvent turn payload false now).updateTurnLatestEvent turn db.nextEventSequence
    semantic

def nextTurnSequence : Id := db.latestTurnId.getD 0 + 1

def resolveInput (id : Id) (event : Nat) : Db :=
  let resolve (i : AgentInput) := { i with state := .resolved, admittedEvent := some event }
  { db with inputs := updateInput id resolve db.inputs }

/-- One round of the loop of `admitLockedAgentInputsAndOpenTurnTx`. -/
def openWith (turn : Id) (now : Time) (input : Id) : Db :=
  (db.appendEvent turn (.agentInput input) true now).resolveInput input db.nextEventSequence

def openWithAll (turn : Id) (now : Time) (inputs : List Id) : Db :=
  inputs.foldl (fun db input => db.openWith turn now input) db

/-- `InsertAgentTurn` with the last event of the log. -/
def insertTurn (turn : Id) : Db :=
  { db with turns := db.turns ++ [⟨turn, db.nextEventSequence - 1, db.nextEventSequence - 1⟩] }

/-- `admitLockedAgentInputsAndOpenTurnTx`. -/
def admitAndOpenTurn (inputs : List AgentInput) (now : Time) : Option Db := do
  require (inputs ≠ [])
  require (inputs.length ≤ 1 ∨ ∀ i ∈ inputs, i.mode = .steering)
  require (∀ i ∈ inputs, ∃ row ∈ db.inputs, row.id = i.id ∧ row.state = .received)
  let turn := db.nextTurnSequence
  return (db.openWithAll turn now (inputs.map (·.id))).insertTurn turn

/-- `CurrentContinuableAgentTurn`. -/
def currentContinuableTurn : Option Id :=
  match db.latestTurnId with
  | none => none
  | some turn =>
    if db.continuableContexts ≠ [] || db.hasIncompleteToolBatch ||
        db.nextModelWork.any (·.turn = turn) then
      some turn
    else none

/-- The largest event sequence, 0 in an empty log (`MaxEventSequence`). -/
def maxEventSequence : Nat :=
  (db.events.map (·.sequence)).foldl Nat.max 0

/-! ## The runtime lock -/

/-- `agentRuntimeLockActiveTx`: the agent is active, the lock not canceled and not expired. -/
def lockActive (lock : Id) (now : Time) : Bool :=
  !db.archived && db.lock.any fun l => l.id = lock && !l.cancelRequested && now < l.leaseExpiresAt

/-- The lock exists (`lockAgentRuntimeForOwnedMutationTx`). -/
def lockHeld (lock : Id) : Bool :=
  db.lock.any (·.id = lock)

/-! ## Model call contexts -/

def context? (id : Id) : Option ModelCallContext :=
  db.contexts.find? (·.id = id)

def setContextState (id : Id) (state : ContextState) : Db :=
  { db with contexts := db.contexts.map fun c => if c.id = id then { c with state := state } else c }

/-- `FinishModelCallContext`; `teardown` allows a canceled or expired lock. -/
def finishContext (id lock : Id) (state : ContextState) (teardown : Bool) (now : Time) :
    Option Db := do
  require (db.lock.any fun l => l.id = lock &&
    (teardown || (!l.cancelRequested && now < l.leaseExpiresAt)))
  require (db.contexts.any fun c => c.id = id && c.runtimeLock = lock && c.state = .started)
  return db.setContextState id state

/-- `uuidv7()` for a table whose rows are never deleted. -/
def freshContext : Id := db.contexts.length

def insertContext (operation : Operation) (frontier attempt : Nat) (lock : Id) : Db :=
  { db with contexts := db.contexts ++
      [⟨db.freshContext, operation, frontier, attempt, .started, lock⟩] }

/-- The latest attempt of an operation (`GetNormalModelCallContextByIdentity`,
`GetCompactionModelCallContextByIdentity`). -/
def latestAttempt (operation : Operation) (frontier : Nat) : Option ModelCallContext :=
  ((db.contexts.filter fun c => c.operation = operation && c.frontier = frontier).insertionSort
    fun a b => b.attempt ≤ a.attempt).head?

/-! ## Tool calls -/

def setCallState (id : Id) (state : ToolState) : Db :=
  { db with toolCalls := db.toolCalls.map fun c => if c.id = id then { c with state := state } else c }

def insertResult (call : Id) (now : Time) : Db :=
  { db with results := db.results ++ [⟨call, now⟩] }

/-- The event of a call's model output (`tool_call_read_projection`). -/
def sourceEvent (call : ToolCall) : Option AgentEvent :=
  (db.outputEvents call.output).head?

/-- A call becomes `completed`: its state, its result and the result's event in the turn of its
output (`appendToolResultRecordTx`). -/
def completeCall (call : ToolCall) (now : Time) : Option Db := do
  let source ← db.sourceEvent call
  ((db.setCallState call.id .completed).insertResult call.id now).appendToTurn source.turn
    (.toolResult call.id) false now

/-- `completeCall` for each call in turn. -/
def completeCalls (db : Db) (now : Time) : List ToolCall → Option Db
  | [] => some db
  | call :: calls => do
    let db ← db.completeCall call now
    completeCalls db now calls

end Db

end Store
