import Omnara.Store.Proof.Queue
import Omnara.Store.Write

/-!
# Runs of the backlog

`QueueOp` are the operations on the backlog, `QueueOp.apply` what they do to the rows and
`QueueOp.spec` what they do to the two plain lists the rows stand for (`queues`). One operation
succeeds exactly when its counterpart does, with corresponding results (`step_refines`); so does a
whole run (`run_refines`).
-/

namespace Store

open List

open Reorder (Place)

variable {rows : List AgentInput} {mode : DeliveryMode} {id : Id}

/-- The admission of the head of a queue: what `openWith` does to the inputs. Steering inputs are
admitted together, one after the other. -/
def admitHead (mode : DeliveryMode) (event : Nat) (rows : List AgentInput) :
    Option (List AgentInput) :=
  (backlog mode rows).head?.map fun i =>
    updateInput i.id (fun i => { i with state := .resolved, admittedEvent := some event }) rows

inductive QueueOp
  | create (id : Id) (mode : DeliveryMode) (queuedAt : Time)
  | cancel (id : Id)
  | promote (id : Id)
  | demote (id : Id)
  | move (id : Id) (position : MovePosition)
  | admitNext (mode : DeliveryMode) (event : Nat)

/-- An operation on the rows; the id of a new row is not in use (the primary key). -/
def QueueOp.apply (rows : List AgentInput) : QueueOp → Option (List AgentInput)
  | .create id mode queuedAt =>
    if mode ≠ .immediate ∧ id ∉ rows.map (·.id) then some (insertAgentInput id mode queuedAt rows)
    else none
  | .cancel id => cancelQueuedInput id rows
  | .promote id => promoteQueuedInputToSteering id rows
  | .demote id => demoteSteeringInputToQueued id rows
  | .move id position => moveQueuedBacklogInput id position rows
  | .admitNext mode event => admitHead mode event rows

structure Queues where
  queued : List Id
  steering : List Id
  deriving DecidableEq

instance (id : Id) : (position : MovePosition) → Decidable (position.AnchorNe id)
  | .front | .back => inferInstanceAs (Decidable True)
  | .before anchor | .after anchor => inferInstanceAs (Decidable (anchor ≠ id))

def QueueOp.spec (q : Queues) : QueueOp → Option Queues
  | .create id .queued _ => some { q with queued := q.queued ++ [id] }
  | .create id .steering _ => some { q with steering := q.steering ++ [id] }
  | .create _ .immediate _ => none
  | .cancel id => if id ∈ q.queued then some { q with queued := q.queued.erase id } else none
  | .promote id => if id ∈ q.queued then some ⟨q.queued.erase id, q.steering ++ [id]⟩ else none
  | .demote id => if id ∈ q.steering then some ⟨q.queued ++ [id], q.steering.erase id⟩ else none
  | .move id position =>
    if position.AnchorNe id ∧ id ∈ q.queued ∧ position.place.ValidIn q.queued then
      some { q with queued := position.place.insert id (q.queued.erase id) }
    else none
  | .admitNext .queued _ => if q.queued = [] then none else some { q with queued := q.queued.tail }
  | .admitNext .steering _ =>
    if q.steering = [] then none else some { q with steering := q.steering.tail }
  | .admitNext .immediate _ => none

def queues (rows : List AgentInput) : Queues := ⟨order .queued rows, order .steering rows⟩

/-- The rows of one agent: distinct ids, positive ranks, and content never delivered at once (the
table's check). -/
structure QueueInv (rows : List AgentInput) : Prop where
  distinct : DistinctIds rows
  ranks : PositiveRanks rows
  modes : ∀ i ∈ rows, i.waits .immediate = false

def QueueOp.created : QueueOp → List Id
  | .create id _ _ => [id]
  | _ => []

/-- An operation on the rows corresponds to one on the lists: both fail, or both succeed with
corresponding results. -/
def Corresponds (rows : List AgentInput) (created : List Id) (result : Option (List AgentInput))
    (spec : Option Queues) : Prop :=
  (result = none ∧ spec = none) ∨
    ∃ rows', result = some rows' ∧ spec = some (queues rows') ∧ QueueInv rows' ∧
      rows'.map (·.id) = rows.map (·.id) ++ created

variable {i x : AgentInput} {f : AgentInput → AgentInput}

/-! ## Ends of queues -/

theorem endRank_pos (mode : DeliveryMode) (rows : List AgentInput) : 0 < endRank mode rows := by
  unfold endRank
  split <;> simp [agentInputRankStride]

theorem rank_lt_endRank (hi : i ∈ rows) (hw : i.waits mode = true) : i.rank < endRank mode rows := by
  have hmem : i.rank ∈ (rows.filter (·.waits mode)).map (·.rank) :=
    mem_map_of_mem (mem_filter.2 ⟨hi, hw⟩)
  unfold endRank
  split
  · rename_i rank hmax
    have hle := (List.max?_eq_some_iff.1 hmax).2 i.rank hmem
    simp only [agentInputRankStride]
    omega
  · rename_i hmax
    rw [List.max?_eq_none_iff] at hmax
    rw [hmax] at hmem
    cases hmem

theorem waits_mode (h : i.waits mode = true) : i.mode = mode := by
  simp only [AgentInput.waits, Bool.and_eq_true, decide_eq_true_eq] at h
  exact h.1.2

theorem waits_of_ne {mode' : DeliveryMode} (h : i.waits mode = true)
    (hne : mode ≠ mode') : i.waits mode' = false := by
  simp [AgentInput.waits, waits_mode h, hne]

section
variable (h : DistinctIds rows)
include h

theorem without_eq_backlog (hx : x ∈ rows) (hw : x.waits mode = false) :
    without mode x.id rows = backlog mode rows := by
  refine filter_eq_self.2 fun i hi => ?_
  obtain ⟨hi, hwi⟩ := mem_backlog.1 hi
  have hne : i.id ≠ x.id := fun he => by
    rw [h.eq_of_id hi hx he, hw] at hwi
    cases hwi
  simpa using hne

variable (hf : ∀ i, (f i).id = i.id)
include hf

theorem order_update_leave (hx : x ∈ rows) (hy : (f x).waits mode = false) :
    order mode (updateInput x.id f rows) = (order mode rows).erase x.id := by
  rw [order, backlog_update_leave h hf hx hy, map_id_without h]

theorem order_update_same (hx : x ∈ rows) (hw : x.waits mode = false) (hy : (f x).waits mode = false) :
    order mode (updateInput x.id f rows) = order mode rows := by
  rw [order, backlog_update_leave h hf hx hy, without_eq_backlog h hx hw, order]

theorem order_update_end (hx : x ∈ rows) (hw : x.waits mode = false) (hy : (f x).waits mode = true)
    (hr : (f x).rank = endRank mode rows) :
    order mode (updateInput x.id f rows) = order mode rows ++ [x.id] := by
  have hlast : ∀ i ∈ backlog mode rows, i.Before (f x) := fun i hi =>
    AgentInput.before_of_rank_lt
      (hr ▸ rank_lt_endRank (mem_backlog.1 hi).1 (mem_backlog.1 hi).2)
  have hsplit : without mode x.id rows = backlog mode rows ++ [] := by
    rw [without_eq_backlog h hx hw, append_nil]
  rw [order, backlog_update_at h hf hx hy hsplit hlast (by simp), map_append, map_cons, hf, order]
  rfl

end

/-! ## One operation -/

/-- The row `InsertAgentInput` adds. -/
def newInput (id : Id) (mode : DeliveryMode) (queuedAt : Time) (rows : List AgentInput) :
    AgentInput :=
  { id := id, state := .received, rank := endRank mode rows, kind := .content, mode := mode,
    queuedAt := queuedAt }

theorem insertAgentInput_eq (id : Id) (mode : DeliveryMode) (queuedAt : Time)
    (rows : List AgentInput) :
    insertAgentInput id mode queuedAt rows = rows ++ [newInput id mode queuedAt rows] := rfl

theorem newInput_waits {mode' : DeliveryMode} (queuedAt : Time) :
    (newInput id mode queuedAt rows).waits mode' = decide (mode = mode') := by
  by_cases h : mode = mode' <;> simp [newInput, AgentInput.waits, h]

theorem order_insert (h : DistinctIds rows) (hid : id ∉ rows.map (·.id)) (queuedAt : Time)
    (mode' : DeliveryMode) :
    order mode' (insertAgentInput id mode queuedAt rows) =
      if mode = mode' then order mode' rows ++ [id] else order mode' rows := by
  have hdist : DistinctIds (insertAgentInput id mode queuedAt rows) := by
    unfold DistinctIds
    rw [insertAgentInput_eq, map_append, map_singleton, nodup_append_comm]
    exact nodup_cons.2 ⟨hid, h⟩
  have hfil : (insertAgentInput id mode queuedAt rows).filter (·.waits mode') =
      rows.filter (·.waits mode') ++ if mode = mode' then [newInput id mode queuedAt rows] else [] := by
    rw [insertAgentInput_eq, filter_append, filter_cons, newInput_waits]
    simp
  by_cases hmode : mode = mode'
  · subst hmode
    have heq : backlog mode (insertAgentInput id mode queuedAt rows) =
        backlog mode rows ++ [newInput id mode queuedAt rows] := by
      refine backlog_eq hdist ?_ (pairwise_append.2 ⟨backlog_sorted mode rows,
        pairwise_singleton _ _, fun a ha b hb => ?_⟩)
      · rw [hfil, if_pos rfl]
        exact (backlog_perm mode rows).append_right _
      · rw [mem_singleton.1 hb]
        obtain ⟨ha, hw⟩ := mem_backlog.1 ha
        exact AgentInput.before_of_rank_lt (rank_lt_endRank ha hw)
    rw [order, heq, map_append, if_pos rfl, order]
    rfl
  · rw [if_neg hmode, order, backlog, hfil, if_neg hmode, append_nil, order, backlog]

theorem create_corresponds (hI : QueueInv rows) (hid : id ∉ rows.map (·.id)) (queuedAt : Time) :
    Corresponds rows [id] ((QueueOp.create id mode queuedAt).apply rows)
      ((QueueOp.create id mode queuedAt).spec (queues rows)) := by
  by_cases hmode : mode = .immediate
  · subst hmode
    exact .inl ⟨by simp [QueueOp.apply], rfl⟩
  · refine .inr ⟨insertAgentInput id mode queuedAt rows, ?_, ?_, ⟨?_, ?_, ?_⟩, ?_⟩
    · exact if_pos ⟨hmode, hid⟩
    · cases mode <;> simp_all [QueueOp.spec, queues, order_insert hI.distinct hid]
    · unfold DistinctIds
      rw [insertAgentInput_eq, map_append, map_singleton, nodup_append_comm]
      exact nodup_cons.2 ⟨hid, hI.distinct⟩
    · intro i hi hw
      rcases mem_append.1 hi with hi | hi
      · exact hI.ranks i hi hw
      · rw [mem_singleton.1 hi]
        exact endRank_pos mode rows
    · intro i hi
      rcases mem_append.1 hi with hi | hi
      · exact hI.modes i hi
      · rw [mem_singleton.1 hi]
        simpa [AgentInput.waits] using hmode
    · rw [insertAgentInput_eq, map_append]
      rfl

theorem QueueInv.update (hI : QueueInv rows) (hf : ∀ i, (f i).id = i.id)
    (hr : ∀ i ∈ rows, ((f i).waits .queued = true ∨ (f i).waits .steering = true) → 0 < (f i).rank)
    (hm : ∀ i ∈ rows, (f i).waits .immediate = false) : QueueInv (updateInput id f rows) := by
  refine ⟨hI.distinct.updateInput hf, hI.ranks.updateInput hr, fun i hi => ?_⟩
  obtain ⟨j, hj, rfl⟩ := mem_map.1 hi
  split
  · exact hm j hj
  · exact hI.modes j hj

theorem cancel_corresponds (hI : QueueInv rows) :
    Corresponds rows [] ((QueueOp.cancel id).apply rows) ((QueueOp.cancel id).spec (queues rows)) := by
  by_cases hid : id ∈ order .queued rows
  · obtain ⟨x, hx, rfl, hw⟩ := exists_row_of_mem_order hid
    have hf : ∀ i : AgentInput, ({ i with state := .canceled } : AgentInput).id = i.id :=
      fun _ => rfl
    have hgone : ∀ (i : AgentInput) (mode : DeliveryMode),
        AgentInput.waits mode { i with state := .canceled } = false := fun i mode => by
      simp [AgentInput.waits]
    refine .inr ⟨updateInput x.id (fun i => { i with state := .canceled }) rows, ?_, ?_,
      hI.update hf (fun i _ h => by simp [hgone] at h) (fun i _ => hgone i _), ?_⟩
    · exact if_pos ((any_waits_iff hI.distinct).2 hid)
    · simp only [QueueOp.spec, queues, order_update_leave hI.distinct hf hx (hgone x .queued),
        order_update_same hI.distinct hf hx (waits_of_ne hw (by decide)) (hgone x .steering)]
      exact if_pos hid
    · rw [map_id_updateInput hf, append_nil]
  · refine .inl ⟨?_, if_neg hid⟩
    exact if_neg fun h => hid ((any_waits_iff hI.distinct).1 h)

/-- Promotion and demotion: the row leaves one queue and joins the end of the other. -/
theorem changeDeliveryMode_spec (source target : DeliveryMode) (id : Id) (hI : QueueInv rows)
    (hne : source ≠ target) (himm : target ≠ .immediate) :
    (id ∉ order source rows ∧ changeDeliveryMode source target id rows = none) ∨
      id ∈ order source rows ∧ ∃ rows', changeDeliveryMode source target id rows = some rows' ∧
        order source rows' = (order source rows).erase id ∧
        order target rows' = order target rows ++ [id] ∧ QueueInv rows' ∧
        rows'.map (·.id) = rows.map (·.id) := by
  by_cases hid : id ∈ order source rows
  · obtain ⟨x, hx, rfl, hw⟩ := exists_row_of_mem_order hid
    let f : AgentInput → AgentInput := fun i =>
      { i with mode := target, rank := endRank target rows }
    have hf : ∀ i, (f i).id = i.id := fun _ => rfl
    have hmode : ∀ i, (f i).mode = target := fun _ => rfl
    have hjoin : (f x).waits target = true := by
      simp only [AgentInput.waits, Bool.and_eq_true, decide_eq_true_eq] at hw ⊢
      exact ⟨⟨hw.1.1, rfl⟩, hw.2⟩
    refine .inr ⟨hid, updateInput x.id f rows, ?_, ?_, ?_, ?_, map_id_updateInput hf⟩
    · exact if_pos ((any_waits_iff hI.distinct).2 hid)
    · exact order_update_leave hI.distinct hf hx (waits_of_ne hjoin (Ne.symm hne))
    · exact order_update_end hI.distinct hf hx (waits_of_ne hw hne) hjoin rfl
    · refine hI.update hf (fun _ _ _ => endRank_pos target rows) fun i _ => ?_
      simp [AgentInput.waits, hmode, himm]
  · exact .inl ⟨hid, if_neg fun h => hid ((any_waits_iff hI.distinct).1 h)⟩

section
variable (hI : QueueInv rows)
include hI

theorem promote_corresponds :
    Corresponds rows [] ((QueueOp.promote id).apply rows)
      ((QueueOp.promote id).spec (queues rows)) := by
  rcases changeDeliveryMode_spec .queued .steering id hI (by decide) (by decide) with
    ⟨hid, hnone⟩ | ⟨hid, rows', hsome, hq, hs, hI', hids⟩
  · exact .inl ⟨hnone, if_neg hid⟩
  · refine .inr ⟨rows', hsome, ?_, hI', by rw [hids, append_nil]⟩
    simp only [QueueOp.spec, queues, hq, hs]
    exact if_pos hid

theorem demote_corresponds :
    Corresponds rows [] ((QueueOp.demote id).apply rows)
      ((QueueOp.demote id).spec (queues rows)) := by
  rcases changeDeliveryMode_spec .steering .queued id hI (by decide) (by decide) with
    ⟨hid, hnone⟩ | ⟨hid, rows', hsome, hs, hq, hI', hids⟩
  · exact .inl ⟨hnone, if_neg hid⟩
  · refine .inr ⟨rows', hsome, ?_, hI', by rw [hids, append_nil]⟩
    simp only [QueueOp.spec, queues, hq, hs]
    exact if_pos hid

theorem move_corresponds {position : MovePosition} :
    Corresponds rows [] ((QueueOp.move id position).apply rows)
      ((QueueOp.move id position).spec (queues rows)) := by
  by_cases hcond : position.AnchorNe id ∧ id ∈ order .queued rows ∧
      position.place.ValidIn (order .queued rows)
  · obtain ⟨hne, hid, hval⟩ := hcond
    obtain ⟨rows', hmove, hids, hranks, hq, hs⟩ :=
      moveQueuedBacklogInput_spec hI.distinct hI.ranks hne hid hval
    refine .inr ⟨rows', hmove, ?_, ⟨?_, hranks, ?_⟩, by rw [hids, append_nil]⟩
    · simp only [QueueOp.spec, queues, hq, hs]
      exact if_pos ⟨hne, hid, hval⟩
    · unfold DistinctIds
      rw [hids]
      exact hI.distinct
    · -- a move changes ranks only, so what waits for delivery stays what it was
      intro i hi
      obtain ⟨j, hj, heq⟩ := exists_of_unranked (unranked_move hmove) hi
      rw [heq]
      exact hI.modes j hj
  · refine .inl ⟨?_, if_neg hcond⟩
    rw [QueueOp.apply, moveQueuedBacklogInput]
    split
    · rfl
    · rename_i hself
      refine if_neg fun hchk => hcond ⟨?_, (queuedBacklogMoveIsValid_iff hI.distinct).1 hchk⟩
      cases position with
      | front => trivial
      | back => trivial
      | before anchor => exact fun he => hself (.inl (by rw [he]))
      | after anchor => exact fun he => hself (.inr (by rw [he]))

theorem admitNext_corresponds (event : Nat) :
    Corresponds rows [] ((QueueOp.admitNext mode event).apply rows)
      ((QueueOp.admitNext mode event).spec (queues rows)) := by
  simp only [QueueOp.apply, admitHead]
  cases hb : backlog mode rows with
  | nil =>
    have ho : order mode rows = [] := by rw [order, hb]; rfl
    refine .inl ⟨rfl, ?_⟩
    cases mode <;> simp_all [QueueOp.spec, queues]
  | cons x rest =>
    have hmem : x ∈ backlog mode rows := hb ▸ mem_cons_self
    obtain ⟨hx, hw⟩ := mem_backlog.1 hmem
    have ho : order mode rows = x.id :: rest.map (·.id) := by rw [order, hb]; rfl
    let f : AgentInput → AgentInput := fun i =>
      { i with state := .resolved, admittedEvent := some event }
    have hf : ∀ i, (f i).id = i.id := fun _ => rfl
    have hgone : ∀ i mode, (f i).waits mode = false := fun i mode => by
      simp [f, AgentInput.waits]
    have hhead : order mode (updateInput x.id f rows) = rest.map (·.id) := by
      rw [order_update_leave hI.distinct hf hx (hgone x mode), ho, erase_cons_head]
    have hoth : ∀ mode', mode ≠ mode' → order mode' (updateInput x.id f rows) = order mode' rows :=
      fun mode' hne => order_update_same hI.distinct hf hx (waits_of_ne hw hne) (hgone x mode')
    refine .inr ⟨updateInput x.id f rows, rfl, ?_,
      hI.update hf (fun i _ h => by simp [hgone] at h) (fun i _ => hgone i _),
      by rw [map_id_updateInput hf, append_nil]⟩
    cases mode with
    | queued => simp [QueueOp.spec, queues, ho, hhead, hoth .steering (by decide)]
    | steering => simp [QueueOp.spec, queues, ho, hhead, hoth .queued (by decide)]
    | immediate => simp [hI.modes x hx] at hw

/-- **One operation on the rows is the operation on the plain lists.** -/
theorem step_refines (op : QueueOp) (hfr : ∀ id ∈ op.created, id ∉ rows.map (·.id)) :
    Corresponds rows op.created (op.apply rows) (op.spec (queues rows)) := by
  cases op with
  | create id mode queuedAt => exact create_corresponds hI (hfr id mem_cons_self) queuedAt
  | cancel id => exact cancel_corresponds hI
  | promote id => exact promote_corresponds hI
  | demote id => exact demote_corresponds hI
  | move id position => exact move_corresponds hI
  | admitNext mode event => exact admitNext_corresponds hI event

end

/-! ## Runs -/

/-- A run of operations, each a transaction: one that fails leaves the rows as they are. -/
def runRows (rows : List AgentInput) : List QueueOp → List AgentInput
  | [] => rows
  | op :: ops => runRows ((op.apply rows).getD rows) ops

def runQueues (q : Queues) : List QueueOp → Queues
  | [] => q
  | op :: ops => runQueues ((op.spec q).getD q) ops

theorem run_refines (ops : List QueueOp) : ∀ {rows : List AgentInput}, QueueInv rows →
    (rows.map (·.id) ++ ops.flatMap (·.created)).Nodup →
    queues (runRows rows ops) = runQueues (queues rows) ops ∧ QueueInv (runRows rows ops) := by
  induction ops with
  | nil => exact fun hI _ => ⟨rfl, hI⟩
  | cons op ops ih =>
    intro rows hI hnd
    rw [flatMap_cons, ← append_assoc] at hnd
    have hfr : ∀ id ∈ op.created, id ∉ rows.map (·.id) := fun id hid hmem =>
      disjoint_of_nodup_append (nodup_append.1 hnd).1 hmem hid
    rcases step_refines hI op hfr with ⟨hnone, hspec⟩ | ⟨rows', hsome, hspec, hI', hids⟩
    · -- a failed transaction: both sides stay, and its ids are still unused
      simp only [runRows, runQueues, hnone, hspec, Option.getD_none]
      refine ih hI (hnd.sublist ?_)
      exact (sublist_append_left _ _).append (List.Sublist.refl _)
    · simp only [runRows, runQueues, hsome, hspec, Option.getD_some]
      exact ih hI' (hids ▸ hnd)

/-! ## The backlog as lists -/

/-- **Moves, and every run of the backlog, are those of plain lists.** A valid move succeeds with at
most one rebalance and puts the input exactly where asked, the others keep their order; creation and
demotion append; and every run of operations ends in the lists the same run of list operations gives,
with positive ranks. -/
theorem queue_refines_lists (rows : List AgentInput) (hI : QueueInv rows) :
    (∀ id (position : MovePosition), position.AnchorNe id →
      queuedBacklogMoveIsValid id position rows = true →
      ∃ rows', moveQueuedBacklogInput id position rows = some rows' ∧
        order .queued rows' = position.place.insert id ((order .queued rows).erase id) ∧
        (order .queued rows').erase id = (order .queued rows).erase id ∧
        order .steering rows' = order .steering rows ∧ PositiveRanks rows') ∧
    (∀ id mode queuedAt, id ∉ rows.map (·.id) →
      order mode (insertAgentInput id mode queuedAt rows) = order mode rows ++ [id]) ∧
    (∀ id rows', demoteSteeringInputToQueued id rows = some rows' →
      order .queued rows' = order .queued rows ++ [id]) ∧
    ∀ ops : List QueueOp, (rows.map (·.id) ++ ops.flatMap (·.created)).Nodup →
      queues (runRows rows ops) = runQueues (queues rows) ops ∧
        PositiveRanks (runRows rows ops) := by
  refine ⟨fun id position hne hvalid => ?_, fun id mode queuedAt hid => ?_,
    fun id rows' hdemote => ?_, fun ops hnodup => ?_⟩
  · obtain ⟨hid, hplace⟩ := (queuedBacklogMoveIsValid_iff hI.distinct).1 hvalid
    obtain ⟨rows', hmove, -, hranks, hq, hs⟩ :=
      moveQueuedBacklogInput_spec hI.distinct hI.ranks hne hid hplace
    refine ⟨rows', hmove, hq, ?_, hs, hranks⟩
    rw [hq, Place.erase_insert]
    exact (hI.distinct.order_nodup .queued).not_mem_erase
  · rw [order_insert hI.distinct hid, if_pos rfl]
  · rcases changeDeliveryMode_spec .steering .queued id hI (by decide) (by decide) with
      ⟨-, hnone⟩ | ⟨-, rows'', hsome, -, hq, -, -⟩
    · cases hdemote.symm.trans hnone
    · cases hdemote.symm.trans hsome
      exact hq
  · obtain ⟨heq, hI'⟩ := run_refines ops hI hnodup
    exact ⟨heq, hI'.ranks⟩

/-- Three queued inputs on one rank, with no rank free between or before them. -/
def crowded : List AgentInput :=
  [⟨0, .received, 1, .content, .queued, 0, none⟩, ⟨1, .received, 1, .content, .queued, 1, none⟩,
    ⟨2, .received, 1, .content, .queued, 2, none⟩]

theorem queue_refines_lists_crowded :
    newRank 2 (.before 1) crowded = none ∧
      (∃ rows', moveQueuedBacklogInput 2 (.before 1) crowded = some rows' ∧
        order .queued rows' = [0, 2, 1]) ∧
      queues (runRows crowded [.create 3 .steering 9, .demote 3, .move 3 .front]) =
        ⟨[3, 0, 1, 2], []⟩ := by
  have hI : QueueInv crowded := ⟨by unfold DistinctIds; decide, by unfold PositiveRanks; decide,
    by decide⟩
  obtain ⟨hmove, -, -, hrun⟩ := queue_refines_lists crowded hI
  obtain ⟨rows', hsome, hq, -⟩ := hmove 2 (.before 1) (by unfold MovePosition.AnchorNe; decide)
    (by decide +kernel)
  refine ⟨by decide +kernel, ⟨rows', hsome, hq.trans (by decide +kernel)⟩, ?_⟩
  exact (hrun _ (by decide)).1.trans (by decide +kernel)

end Store
