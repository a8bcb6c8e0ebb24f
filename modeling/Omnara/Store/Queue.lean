import Omnara.Store.Work

/-!
# The backlog of inputs (`queries/agent_inputs.sql`, `agent_inputs_store.go`)

Received content inputs wait in one of two queues, queued and steering, ordered by rank, then by
`queued_at`, then by id. An input is moved by giving it a rank between its new neighbours; when no
rank is free all ranks are spread again and the move is tried once more. The functions act on the
rows of `agent_inputs` of one agent. Ranks are unbounded here where the column is an `int8`.
-/

namespace Store

def agentInputRankStride : Nat := 1024

/-- The condition every backlog query repeats: received content of one delivery mode. -/
def AgentInput.waits (mode : DeliveryMode) (i : AgentInput) : Bool :=
  i.state = .received && i.mode = mode && i.kind = .content

/-- The queue of a delivery mode, in the order in which inputs are admitted. -/
def backlog (mode : DeliveryMode) (rows : List AgentInput) : List AgentInput :=
  (rows.filter (·.waits mode)).insertionSort AgentInput.Before

def updateInput (id : Id) (f : AgentInput → AgentInput) (rows : List AgentInput) :
    List AgentInput :=
  rows.map fun i => if i.id = id then f i else i

/-- The rank at the end of a queue: `max(input_rank) + rank_stride`, or `rank_stride`. -/
def endRank (mode : DeliveryMode) (rows : List AgentInput) : Nat :=
  match ((rows.filter (·.waits mode)).map (·.rank)).max? with
  | some rank => rank + agentInputRankStride
  | none => agentInputRankStride

def insertAgentInput (id : Id) (mode : DeliveryMode) (queuedAt : Time) (rows : List AgentInput) :
    List AgentInput :=
  rows ++ [{ id := id, state := .received, rank := endRank mode rows, kind := .content,
             mode := mode, queuedAt := queuedAt }]

/-- The two updates that change the delivery mode of a waiting input. -/
def changeDeliveryMode (source target : DeliveryMode) (id : Id) (rows : List AgentInput) :
    Option (List AgentInput) :=
  if rows.any fun i => i.id = id && i.waits source then
    some (updateInput id (fun i => { i with mode := target, rank := endRank target rows }) rows)
  else none

/-- `PromoteQueuedInputToSteering`, when it changes the row. -/
def promoteQueuedInputToSteering : Id → List AgentInput → Option (List AgentInput) :=
  changeDeliveryMode .queued .steering

def demoteSteeringInputToQueued : Id → List AgentInput → Option (List AgentInput) :=
  changeDeliveryMode .steering .queued

/-- `CancelQueuedBacklogInput`. -/
def cancelQueuedInput (id : Id) (rows : List AgentInput) : Option (List AgentInput) :=
  if rows.any fun i => i.id = id && i.waits .queued then
    some (updateInput id (fun i => { i with state := .canceled }) rows)
  else none

/-! ## Moves -/

/-- `MoveQueuedBacklogInputPosition`. -/
inductive MovePosition
  | front | back | before (anchor : Id) | after (anchor : Id)
  deriving DecidableEq

/-- The queued inputs without the moved one, in order. -/
def others (id : Id) (rows : List AgentInput) : List AgentInput :=
  (backlog .queued rows).filter (·.id ≠ id)

/-- The strict order `(input_rank, queued_at, id) < (…)`. -/
def AgentInput.Precedes (a b : AgentInput) : Prop :=
  a.rank < b.rank ∨ a.rank = b.rank ∧
    (a.queuedAt < b.queuedAt ∨ a.queuedAt = b.queuedAt ∧ a.id < b.id)

instance (a b : AgentInput) : Decidable (a.Precedes b) :=
  inferInstanceAs (Decidable (_ ∨ _))

/-- The CTE `target`: the waiting row with the anchor's id. -/
def anchorRow (anchor : Id) (rows : List AgentInput) : Option AgentInput :=
  (backlog .queued rows).find? (·.id = anchor)

/-- `new_rank` of `MoveQueuedBacklogInputToFront`. -/
def frontRank (id : Id) (rows : List AgentInput) : Option Nat :=
  match (others id rows).head? with
  | none => some agentInputRankStride
  | some first => if 1 < first.rank then some (first.rank / 2) else none

/-- `new_rank` of `MoveQueuedBacklogInputToBack`. -/
def backRank (id : Id) (rows : List AgentInput) : Option Nat :=
  match (others id rows).getLast? with
  | none => some agentInputRankStride
  | some last => some (last.rank + agentInputRankStride)

/-- `new_rank` of `MoveQueuedBacklogInputBefore`. Without a previous neighbour the third branch
compares with NULL and fails. -/
def beforeRank (id anchor : Id) (rows : List AgentInput) : Option Nat :=
  match anchorRow anchor rows with
  | none => none
  | some target =>
    match ((others id rows).filter (·.Precedes target)).getLast? with
    | none => if 1 < target.rank then some (target.rank / 2) else none
    | some previous =>
      if previous.rank + 1 < target.rank then
        some (previous.rank + (target.rank - previous.rank) / 2)
      else none

/-- `new_rank` of `MoveQueuedBacklogInputAfter`. -/
def afterRank (id anchor : Id) (rows : List AgentInput) : Option Nat :=
  match anchorRow anchor rows with
  | none => none
  | some target =>
    match ((others id rows).filter (target.Precedes ·)).head? with
    | none => some (target.rank + agentInputRankStride)
    | some next =>
      if target.rank + 1 < next.rank then some (target.rank + (next.rank - target.rank) / 2)
      else none

def newRank (id : Id) (position : MovePosition) (rows : List AgentInput) : Option Nat :=
  match position with
  | .front => frontRank id rows
  | .back => backRank id rows
  | .before anchor => beforeRank id anchor rows
  | .after anchor => afterRank id anchor rows

/-- `moveQueuedBacklogInputOnce`: `none` when no row changed. -/
def moveQueuedBacklogInputOnce (id : Id) (position : MovePosition) (rows : List AgentInput) :
    Option (List AgentInput) :=
  match newRank id position rows with
  | none => none
  | some rank =>
    if rows.any fun i => i.id = id && i.waits .queued then
      some (updateInput id (fun i => { i with rank := rank }) rows)
    else none

/-- `RebalanceQueuedBacklogRanks`: the `row_number()`-th input gets `row_number() * rank_stride`. -/
def rebalanceQueuedBacklogRanks (rows : List AgentInput) : List AgentInput :=
  let ordered := (backlog .queued rows).map (·.id)
  rows.map fun i =>
    if i.id ∈ ordered then { i with rank := (ordered.idxOf i.id + 1) * agentInputRankStride } else i

def queuedBacklogMoveIsValid (id : Id) (position : MovePosition) (rows : List AgentInput) : Bool :=
  (rows.any fun i => i.id = id && i.waits .queued) &&
    match position with
    | .front | .back => true
    | .before anchor | .after anchor => rows.any fun i => i.id = anchor && i.waits .queued

/-- `MoveQueuedBacklogInput`; `none` is an error and leaves the rows as they are. -/
def moveQueuedBacklogInput (id : Id) (position : MovePosition) (rows : List AgentInput) :
    Option (List AgentInput) :=
  if position = .before id ∨ position = .after id then none
  else if queuedBacklogMoveIsValid id position rows then
    match moveQueuedBacklogInputOnce id position rows with
    | some moved => some moved
    | none => moveQueuedBacklogInputOnce id position (rebalanceQueuedBacklogRanks rows)
  else none

end Store
