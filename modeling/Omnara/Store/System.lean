import Omnara.Lib.Reach
import Omnara.Store.Lifecycle

/-!
# The transactions of one agent

`Tx` is one constructor for each transaction on an agent, with the arguments its caller chooses;
`Tx.run` is what it does. A state is the database with the time. From a launched agent the system
waits, or commits a transaction at the present time: a transaction that fails before its commit
changes nothing and is a wait. A transaction of the source that does several of these things (a
config change that also revokes machines, a daemon report on several processes) is their sequence.
`ClaimCompactionModelCall` is the one transaction whose arguments are not free: it is there as the
executor calls it, for a compaction context that exists (`Db.resumeCompactionContext`).
-/

namespace Store

/-! ## Launch -/

def Db.empty : Db where
  archived := false
  nextEventSequence := 1
  events := []
  inputs := []
  turns := []
  contexts := []
  outputs := []
  checkpoints := []
  toolCalls := []
  results := []
  lock := none
  wakeup := none

/-- `launchAgentTx`: the config change opens the first turn; a message is a queued input. -/
def Db.launch (message : Bool) (now : Time) : Option Db := do
  let created := Db.empty.insertResolvedInput .configChange now
  let db ← created.appendToCurrentOrNewTurn Db.empty.freshInput now
  let withMessage := { db with inputs := insertAgentInput db.freshInput .queued now db.inputs }
  return if message then withMessage.markWakeup now else db

/-! ## Transactions -/

inductive Tx
  -- inputs and configs
  | createContentInput (mode : DeliveryMode) (canceled : List (Id × Db.Resolution))
  | cancelQueuedBacklogInput (id : Id)
  | promoteInput (id : Id) (canceled : List (Id × Db.Resolution))
  | demoteInput (id : Id)
  | moveInput (id : Id) (position : MovePosition)
  | changeAgentConfig
  | replayConfigChange
  -- the agent
  | cancelAgent
  | archiveAgent
  -- runtime locks
  | claimNextAgentWork (lock : Id) (lease : Time)
  | renewRuntimeLock (lock : Id) (lease : Time)
  | releaseAgentRuntimeLock (lock : Id) (delay : Time)
  | reapExpiredAgentRuntimeLock (lock : Id) (delay : Time) (queued : List Id)
  -- model calls
  | claimNormalModelCall (lock : Id) (frontier : Nat) (inputIds : List Id) (source : Option Id)
      (allowed : Bool)
  | resumeCompactionContext (lock resumed : Id) (allowed : Bool)
  | claimNextModelCallContext (lock predecessor : Id) (allowed : Bool)
  | recordFailureAndClaimCompaction (lock parent : Id) (sourceEnd : Nat) (allowed : Bool)
  | replaceCompactionSource (lock context : Id) (nextEnd : Nat) (allowed : Bool)
  | recordRetryableFailure (lock context : Id) (delay : Time)
  | recordTerminalModelCallFailure (lock context : Id)
  | recordModelOutput (lock context : Id) (stopReason : StopReason)
  | recordToolCallSource (lock context : Id) (stopReason : StopReason)
      (calls : List (ToolType × Bool))
  | publishContextCheckpoint (lock context : Id)
  -- tool calls
  | markToolCallAwaitingPermission (lock id : Id)
  | markToolCallReady (lock id : Id)
  | startToolCall (lock id : Id) (retain : Bool)
  | releaseToolCallRuntimeOwnership (lock id : Id)
  | requeueRuntimeToolCall (lock id : Id)
  | replayRequeue (lock id : Id)
  | completeToolCall (lock id : Id) (negative : Bool)
  | completeRuntimeToolCall (lock id : Id)
  | completeCustomToolCall (id : Id)
  | completeWaitingToolCall (id : Id)
  | resolveAgentInteraction (id : Id) (resolution : Db.Resolution)
  | replayResolution (answered : Option Id)

def Tx.run (db : Db) (now : Time) : Tx → Option Db
  | createContentInput mode canceled => db.createContentInput mode canceled now
  | cancelQueuedBacklogInput id => db.cancelQueuedBacklogInput id now
  | promoteInput id canceled => db.promoteInput id canceled now
  | demoteInput id => db.demoteInput id now
  | moveInput id position => db.moveInput id position
  | changeAgentConfig => db.changeAgentConfig now
  | replayConfigChange => db.replayConfigChange now
  | cancelAgent => db.cancelAgent now
  | archiveAgent => db.archiveAgent now
  | claimNextAgentWork lock lease => db.claimNextAgentWork lock lease now
  | renewRuntimeLock lock lease => db.renewRuntimeLock lock lease now
  | releaseAgentRuntimeLock lock delay => db.releaseAgentRuntimeLock lock delay now
  | reapExpiredAgentRuntimeLock lock delay queued =>
    db.reapExpiredAgentRuntimeLock lock delay queued now
  | claimNormalModelCall lock frontier inputIds source allowed =>
    db.claimNormalModelCall lock frontier inputIds source allowed now
  | resumeCompactionContext lock resumed allowed =>
    db.resumeCompactionContext lock resumed allowed now
  | claimNextModelCallContext lock predecessor allowed =>
    db.claimNextModelCallContext lock predecessor allowed now
  | recordFailureAndClaimCompaction lock parent sourceEnd allowed =>
    db.recordFailureAndClaimCompaction lock parent sourceEnd allowed now
  | replaceCompactionSource lock context nextEnd allowed =>
    db.replaceCompactionSource lock context nextEnd allowed now
  | recordRetryableFailure lock context delay => db.recordRetryableFailure lock context delay now
  | recordTerminalModelCallFailure lock context => db.recordTerminalModelCallFailure lock context now
  | recordModelOutput lock context stopReason => db.recordModelOutput lock context stopReason now
  | recordToolCallSource lock context stopReason calls =>
    db.recordToolCallSource lock context stopReason calls now
  | publishContextCheckpoint lock context => db.publishContextCheckpoint lock context now
  | markToolCallAwaitingPermission lock id => db.markToolCallAwaitingPermission lock id now
  | markToolCallReady lock id => db.markToolCallReady lock id now
  | startToolCall lock id retain => db.startToolCall lock id retain now
  | releaseToolCallRuntimeOwnership lock id => db.releaseToolCallRuntimeOwnership lock id now
  | requeueRuntimeToolCall lock id => db.requeueRuntimeToolCall lock id now
  | replayRequeue lock id => db.replayRequeue lock id now
  | completeToolCall lock id negative => db.completeToolCall lock id negative now
  | completeRuntimeToolCall lock id => db.completeRuntimeToolCall lock id now
  | completeCustomToolCall id => db.completeCustomToolCall id now
  | completeWaitingToolCall id => db.completeWaitingToolCall id now
  | resolveAgentInteraction id resolution => db.resolveAgentInteraction id resolution now
  | replayResolution answered => db.replayResolution answered now

/-! ## Histories -/

structure State where
  db : Db
  now : Time

def Launched (s : State) : Prop := ∃ message, Db.launch message s.now = some s.db

inductive Step : State → State → Prop
  | wait {db : Db} {now later : Time} (h : now ≤ later) : Step ⟨db, now⟩ ⟨db, later⟩
  | commit {db db' : Db} {now later : Time} (tx : Tx) (h : now ≤ later)
      (hrun : tx.run db later = some db') : Step ⟨db, now⟩ ⟨db', later⟩

abbrev Reachable : State → Prop := Reach.Reachable Launched Step

theorem Step.now_le {s t : State} (h : Step s t) : s.now ≤ t.now := by
  cases h <;> assumption

/-- Transactions committed one after the other, each after a delay. -/
def State.commits (s : State) : List (Time × Tx) → Option State
  | [] => some s
  | (delay, tx) :: rest => do
    let db ← tx.run s.db (s.now + delay)
    State.commits ⟨db, s.now + delay⟩ rest

theorem Reachable.commits {s t : State} (h : Reachable s) {txs : List (Time × Tx)}
    (hc : s.commits txs = some t) : Reachable t := by
  induction txs generalizing s with
  | nil =>
    cases hc
    exact h
  | cons x txs ih =>
    simp only [State.commits, bind_eq_some] at hc
    obtain ⟨db, hrun, hrest⟩ := hc
    exact ih (.next h (.commit x.2 (Nat.le_add_right _ _) hrun)) hrest

def history (message : Bool) (start : Time) (txs : List (Time × Tx)) : Option State := do
  let db ← Db.launch message start
  State.commits ⟨db, start⟩ txs

theorem reachable_history {message : Bool} {start : Time} {txs : List (Time × Tx)} {s : State}
    (h : history message start txs = some s) : Reachable s := by
  simp only [history, bind_eq_some] at h
  obtain ⟨db, hlaunch, hcommits⟩ := h
  have hstart : Reachable ⟨db, start⟩ := .start ⟨message, hlaunch⟩
  exact hstart.commits hcommits

/-- The rule all invariants of the database use: true of a launched agent, and kept by every
transaction that commits. -/
theorem Reachable.invariant {P : Db → Prop}
    (hlaunch : ∀ message now db, Db.launch message now = some db → P db)
    (htx : ∀ tx now db db', P db → Tx.run db now tx = some db' → P db') {s : State}
    (h : Reachable s) : P s.db := by
  refine Reach.Reachable.invariant (P := fun s => P s.db) ?_ ?_ h
  · rintro s ⟨message, hs⟩
    exact hlaunch _ _ _ hs
  · intro s t hs hst
    cases hst with
    | wait _ => exact hs
    | commit tx _ hrun => exact htx _ _ _ _ hs hrun

end Store
