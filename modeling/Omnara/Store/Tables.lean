import Mathlib.Tactic.Common

/-!
# The rows of one agent (`migrations/000002`, `000004`, `000005`)

The tables that decide what an agent may do next, restricted to the rows of one agent. Every
transaction locks the agent's row first, so the transactions of an agent are serialised and a
database state is a value of `Db`.

Rows refer to each other by key. Where the schema makes a foreign key unique, the row is named by
that key: a model output and a checkpoint by the model call context that produced them, a tool
result by its tool call, an event by its sequence, a turn by its turn sequence. Columns that no
modelled query reads (texts, usage counters, actors, metadata) are left out.
-/

namespace Store

abbrev Id := Nat

abbrev Time := Nat

/-! ## Inputs, events and turns -/

inductive InputState
  | received | resolved | rejected | canceled
  deriving DecidableEq

/-- `input_kind`; the only control is `cancel_current`. -/
inductive InputKind
  | content | control | interactionResponse (interaction : Id) | configChange
  deriving DecidableEq

inductive DeliveryMode
  | queued | steering | immediate
  deriving DecidableEq

structure AgentInput where
  id : Id
  state : InputState
  rank : Nat
  kind : InputKind
  mode : DeliveryMode
  queuedAt : Time
  admittedEvent : Option Nat := none
  deriving DecidableEq

/-- `event_kind` with the key of the row the event carries. -/
inductive Payload
  | agentInput (input : Id)
  | modelOutput (context : Id)
  | toolResult (call : Id)
  | contextCheckpoint (context : Id)
  deriving DecidableEq

structure AgentEvent where
  sequence : Nat
  turn : Id
  payload : Payload
  isOpening : Bool
  createdAt : Time
  deriving DecidableEq

structure AgentTurn where
  turnSequence : Id
  latestEvent : Nat
  latestSemanticEvent : Nat
  deriving DecidableEq

/-! ## Model calls -/

/-- `operation_kind` with `source_event_sequence_end`, which only compactions have. -/
inductive Operation
  | normal
  | compaction (sourceEnd : Nat)
  deriving DecidableEq

/-- `recovery_kind` of a failed context; `retry_at` is set exactly for `retry`. -/
inductive Recovery
  | retry (retryAt : Time) | compact | reduceCompactionSource
  deriving DecidableEq

inductive ContextState
  | started | succeeded | failed (recovery : Option Recovery) | canceled
  deriving DecidableEq

structure ModelCallContext where
  id : Id
  operation : Operation
  /-- `input_event_sequence` -/
  frontier : Nat
  attempt : Nat
  state : ContextState
  runtimeLock : Id
  deriving DecidableEq

inductive StopReason
  | endTurn | toolUse | maxTokens | refusal | contentFilter | error
  deriving DecidableEq

structure ModelOutput where
  context : Id
  stopReason : StopReason
  deriving DecidableEq

structure ContextCheckpoint where
  /-- `producer_model_call_context_id` -/
  context : Id
  /-- `summarized_through_event_sequence` -/
  summarizedThrough : Nat
  createdAt : Time
  deriving DecidableEq

/-! ## Tool calls -/

inductive ToolType
  | builtIn | custom | mcp
  deriving DecidableEq

/-- `tool_calls.state`; a runtime lock is recorded exactly while the call runs. -/
inductive ToolState
  | awaitingAuthorization | awaitingPermission | ready | running (lock : Id) | waiting | completed
  deriving DecidableEq

structure ToolCall where
  id : Id
  /-- the context of `model_output_id` -/
  output : Id
  type : ToolType
  state : ToolState
  createdAt : Time
  deriving DecidableEq

structure ToolCallResult where
  call : Id
  completedAt : Time
  deriving DecidableEq

/-! ## The agent -/

structure RuntimeLock where
  id : Id
  leaseExpiresAt : Time
  cancelRequested : Bool
  deriving DecidableEq

structure Db where
  archived : Bool
  nextEventSequence : Nat
  events : List AgentEvent
  inputs : List AgentInput
  turns : List AgentTurn
  contexts : List ModelCallContext
  outputs : List ModelOutput
  checkpoints : List ContextCheckpoint
  toolCalls : List ToolCall
  results : List ToolCallResult
  /-- `agent_runtime_locks`, unique for an agent -/
  lock : Option RuntimeLock
  /-- `ready_at` of the agent's row of `agent_wakeups` -/
  wakeup : Option Time
  deriving DecidableEq

end Store
