import Omnara.Lib.Reorder
import Omnara.Store.Queue

/-!
# The backlog refines a pair of plain lists

Ranks are an implementation detail below the order of the queue. The chain of facts:

* a queue is the only sorted list of its rows (`backlog_eq`), ids being distinct;
* a rank that a move computes is that of the gap at the requested place (`newRank_eq`), strictly between
  the neighbours there (`newRank_spec`), so writing it reinserts the row there (`backlog_update_at`);
* the rebalanced queue has the same order and a free rank at every place
  (`order_rebalance`, `newRank_rebalance`), so a valid move succeeds (`moveQueuedBacklogInput_spec`).

`unranked_move` is what a move leaves alone.
-/

namespace Store

open List

open Reorder (Place)

variable {rows : List AgentInput} {mode : DeliveryMode} {id : Id}

variable {a b i x : AgentInput} {l rows' : List AgentInput} {f : AgentInput → AgentInput}
  {anchor : Id} {r : Nat} {position : MovePosition}

/-! ## The order -/

theorem AgentInput.before_of_rank_lt (h : a.rank < b.rank) : a.Before b := .inl h

instance : Std.Total AgentInput.Before where
  total a b := by
    unfold AgentInput.Before
    grind

instance : IsTrans AgentInput AgentInput.Before where
  trans a b c hab hbc := by
    unfold AgentInput.Before at *
    grind

theorem AgentInput.id_eq_of_before (hab : a.Before b) (hba : b.Before a) : a.id = b.id := by
  unfold AgentInput.Before at *
  grind

theorem AgentInput.precedes_of_before (h : a.Before b) (hne : a.id ≠ b.id) : a.Precedes b := by
  unfold AgentInput.Before at h
  unfold AgentInput.Precedes
  grind

theorem AgentInput.not_precedes_of_before (h : a.Before b) : ¬ b.Precedes a := by
  unfold AgentInput.Before at h
  unfold AgentInput.Precedes
  grind

theorem AgentInput.rank_le_of_before (h : a.Before b) : a.rank ≤ b.rank := by
  unfold AgentInput.Before at h
  omega

/-! ## Queues -/

/-- The ids of the rows are distinct (the primary key). -/
def DistinctIds (rows : List AgentInput) : Prop := (rows.map (·.id)).Nodup

/-- The waiting ids of a mode in the order of admission: what the queue is for. -/
def order (mode : DeliveryMode) (rows : List AgentInput) : List Id :=
  (backlog mode rows).map (·.id)

theorem DistinctIds.eq_of_id (h : DistinctIds rows) (ha : a ∈ rows)
    (hb : b ∈ rows) (hid : a.id = b.id) : a = b :=
  inj_on_of_nodup_map h ha hb hid

theorem backlog_perm (mode : DeliveryMode) (rows : List AgentInput) :
    (backlog mode rows).Perm (rows.filter (·.waits mode)) :=
  perm_insertionSort _ _

theorem backlog_sorted (mode : DeliveryMode) (rows : List AgentInput) :
    (backlog mode rows).Pairwise AgentInput.Before :=
  pairwise_insertionSort _ _

@[simp]
theorem mem_backlog : i ∈ backlog mode rows ↔ i ∈ rows ∧ i.waits mode = true := by
  rw [(backlog_perm mode rows).mem_iff, mem_filter]

theorem backlog_eq (h : DistinctIds rows)
    (hperm : l.Perm (rows.filter (·.waits mode))) (hsort : l.Pairwise AgentInput.Before) :
    backlog mode rows = l := by
  refine List.Perm.eq_of_pairwise (fun a b ha hb hab hba => ?_) (backlog_sorted mode rows) hsort
    ((backlog_perm mode rows).trans hperm.symm)
  have hb' : b ∈ rows := (mem_filter.1 (hperm.mem_iff.1 hb)).1
  exact h.eq_of_id (mem_backlog.1 ha).1 hb' (AgentInput.id_eq_of_before hab hba)

theorem DistinctIds.order_nodup (h : DistinctIds rows) (mode : DeliveryMode) :
    (order mode rows).Nodup :=
  (((backlog_perm mode rows).map _).nodup_iff).2 (h.sublist (filter_sublist.map _))

/-! ## Updates of one row -/

/-- The queue of a mode without one input, in order; for the queued mode this is `others`. -/
def without (mode : DeliveryMode) (id : Id) (rows : List AgentInput) : List AgentInput :=
  (backlog mode rows).filter (·.id ≠ id)

theorem without_perm (mode : DeliveryMode) (id : Id) (rows : List AgentInput) :
    (without mode id rows).Perm ((rows.filter (·.waits mode)).filter (·.id ≠ id)) :=
  (backlog_perm mode rows).filter _

theorem without_sorted (mode : DeliveryMode) (id : Id) (rows : List AgentInput) :
    (without mode id rows).Pairwise AgentInput.Before :=
  (backlog_sorted mode rows).filter _

theorem map_id_without (h : DistinctIds rows) :
    (without mode id rows).map (·.id) = (order mode rows).erase id := by
  rw [(h.order_nodup mode).erase_eq_filter, order, filter_map, without]
  congr 1
  refine filter_congr fun i _ => ?_
  by_cases hi : i.id = id <;> simp [hi]

theorem map_id_updateInput (hf : ∀ i, (f i).id = i.id) :
    (updateInput id f rows).map (·.id) = rows.map (·.id) := by
  rw [updateInput, map_map]
  refine map_congr_left fun i _ => ?_
  simp only [Function.comp]
  split
  · exact hf i
  · rfl

theorem DistinctIds.updateInput (h : DistinctIds rows)
    (hf : ∀ i, (f i).id = i.id) : DistinctIds (updateInput id f rows) := by
  unfold DistinctIds
  rwa [map_id_updateInput hf]

theorem filter_updateInput_perm (mode : DeliveryMode) (f : AgentInput → AgentInput)
    (h : DistinctIds rows) (hx : x ∈ rows) :
    ((Store.updateInput x.id f rows).filter (·.waits mode)).Perm
      ([f x].filter (·.waits mode) ++ (rows.filter (·.waits mode)).filter (·.id ≠ x.id)) := by
  obtain ⟨l₁, l₂, rfl⟩ := append_of_mem hx
  have hids : ∀ i, i ∈ l₁ ∨ i ∈ l₂ → i.id ≠ x.id := by
    unfold DistinctIds at h
    rw [map_append, map_cons, nodup_middle, nodup_cons, mem_append] at h
    rintro i (hi | hi) heq
    · exact h.1 (.inl (heq ▸ mem_map_of_mem hi))
    · exact h.1 (.inr (heq ▸ mem_map_of_mem hi))
  have hkeep : ∀ l : List AgentInput, (∀ i ∈ l, i.id ≠ x.id) →
      l.map (fun i => if i.id = x.id then f i else i) = l ∧
        (l.filter (·.waits mode)).filter (·.id ≠ x.id) = l.filter (·.waits mode) := by
    intro l hl
    constructor
    · conv_rhs => rw [← map_id l]
      exact map_congr_left fun i hi => if_neg (hl i hi)
    · refine filter_eq_self.2 fun i hi => ?_
      simpa using hl i (mem_filter.1 hi).1
  obtain ⟨h₁, h₁'⟩ := hkeep l₁ fun i hi => hids i (.inl hi)
  obtain ⟨h₂, h₂'⟩ := hkeep l₂ fun i hi => hids i (.inr hi)
  have hself : ([x].filter (·.waits mode)).filter (·.id ≠ x.id) = [] := by
    refine filter_eq_nil_iff.2 fun i hi => ?_
    obtain rfl := mem_singleton.1 (mem_filter.1 hi).1
    simp
  rw [Store.updateInput, map_append, map_cons, if_pos rfl, h₁, h₂,
    ← singleton_append (x := f x), ← singleton_append (x := x)]
  simp only [filter_append, h₁', h₂', hself, nil_append]
  rw [← append_assoc, ← append_assoc]
  exact perm_append_comm.append_right _

theorem backlog_update_leave (h : DistinctIds rows)
    (hf : ∀ i, (f i).id = i.id) (hx : x ∈ rows) (hy : (f x).waits mode = false) :
    backlog mode (updateInput x.id f rows) = without mode x.id rows := by
  refine backlog_eq (h.updateInput hf) ?_ (without_sorted mode x.id rows)
  have hperm := filter_updateInput_perm mode f h hx
  rw [filter_cons_of_neg (by simp [hy]), filter_nil, nil_append] at hperm
  exact (without_perm mode x.id rows).trans hperm.symm

theorem backlog_update_at (h : DistinctIds rows)
    (hf : ∀ i, (f i).id = i.id) (hx : x ∈ rows) (hy : (f x).waits mode = true)
    {l₁ l₂ : List AgentInput} (hsplit : without mode x.id rows = l₁ ++ l₂)
    (h₁ : ∀ i ∈ l₁, i.Before (f x)) (h₂ : ∀ i ∈ l₂, (f x).Before i) :
    backlog mode (updateInput x.id f rows) = l₁ ++ f x :: l₂ := by
  have hsort := hsplit ▸ without_sorted mode x.id rows
  obtain ⟨hs₁, hs₂, hs⟩ := pairwise_append.1 hsort
  refine backlog_eq (h.updateInput hf) ?_ (pairwise_append.2 ⟨hs₁,
    pairwise_cons.2 ⟨h₂, hs₂⟩, fun a ha b hb => ?_⟩)
  · have hperm := filter_updateInput_perm mode f h hx
    rw [filter_cons_of_pos (by simp [hy]), filter_nil] at hperm
    refine perm_middle.trans (List.Perm.trans (List.Perm.cons _ ?_) hperm.symm)
    exact hsplit ▸ without_perm mode x.id rows
  · rcases mem_cons.1 hb with rfl | hb
    · exact h₁ a ha
    · exact hs a ha b hb

/-! ## Ranks of moves -/

/-- The place in the plain list that a move asks for. -/
def MovePosition.place : MovePosition → Place Id
  | .front => .front
  | .back => .back
  | .before anchor => .before anchor
  | .after anchor => .after anchor

def MovePosition.AnchorNe (id : Id) : MovePosition → Prop
  | .front | .back => True
  | .before anchor | .after anchor => anchor ≠ id

/-- A rank `r` is free at the place that splits the other inputs into `l₁` and `l₂`. -/
structure FreeRank (id : Id) (position : MovePosition) (rows : List AgentInput) (r : Nat)
    (l₁ l₂ : List AgentInput) : Prop where
  split : others id rows = l₁ ++ l₂
  above : ∀ i ∈ l₁, i.rank < r
  below : ∀ i ∈ l₂, r < i.rank
  pos : 0 < r
  place : position.place.insert id ((others id rows).map (·.id)) =
    l₁.map (·.id) ++ id :: l₂.map (·.id)

theorem others_eq_without : others id rows = without .queued id rows := rfl

theorem others_sorted (id : Id) (rows : List AgentInput) :
    (others id rows).Pairwise AgentInput.Before :=
  without_sorted .queued id rows

/-- The others split at the anchor: the candidates before and after it of the two queries. -/
theorem anchor_split (h : DistinctIds rows) (hne : anchor ≠ id) {target : AgentInput}
    (ht : anchorRow anchor rows = some target) :
    target.id = anchor ∧ ∃ l₁ l₂, others id rows = l₁ ++ target :: l₂ ∧
      (others id rows).filter (·.Precedes target) = l₁ ∧
      (others id rows).filter (target.Precedes ·) = l₂ ∧ anchor ∉ l₁.map (·.id) := by
  have hid : target.id = anchor := by simpa using List.find?_some ht
  have hmem : target ∈ others id rows :=
    mem_filter.2 ⟨mem_of_find?_eq_some ht, by simpa [hid] using hne⟩
  obtain ⟨l₁, l₂, hsplit⟩ := append_of_mem hmem
  have hnd : ((others id rows).map (·.id)).Nodup := by
    rw [others_eq_without, map_id_without h]
    exact (h.order_nodup .queued).erase id
  rw [hsplit, map_append, map_cons, nodup_middle, nodup_cons, mem_append, not_or] at hnd
  obtain ⟨⟨hn₁, hn₂⟩, -⟩ := hnd
  obtain ⟨-, hs₂, hs⟩ := pairwise_append.1 (hsplit ▸ others_sorted id rows)
  have hbef : ∀ i ∈ l₁, i.Before target := fun i hi => hs i hi target mem_cons_self
  have haft : ∀ i ∈ l₂, target.Before i := (pairwise_cons.1 hs₂).1
  have hprec : ∀ i ∈ l₁, i.Precedes target := fun i hi =>
    AgentInput.precedes_of_before (hbef i hi) fun he => hn₁ (he ▸ mem_map_of_mem hi)
  have hsucc : ∀ i ∈ l₂, target.Precedes i := fun i hi =>
    AgentInput.precedes_of_before (haft i hi) fun he => hn₂ (he ▸ mem_map_of_mem hi)
  have hirr : ¬ target.Precedes target := by
    unfold AgentInput.Precedes
    grind
  refine ⟨hid, l₁, l₂, hsplit, ?_, ?_, hid ▸ hn₁⟩
  · rw [hsplit, filter_append, filter_cons_of_neg (by simpa using hirr),
      filter_eq_self.2 fun i hi => by simpa using hprec i hi,
      filter_eq_nil_iff.2 fun i hi => by
        simpa using AgentInput.not_precedes_of_before (haft i hi), append_nil]
  · rw [hsplit, filter_append, filter_cons_of_neg (by simpa using hirr),
      filter_eq_nil_iff.2 fun i hi => by
        simpa using AgentInput.not_precedes_of_before (hbef i hi),
      filter_eq_self.2 fun i hi => by simpa using hsucc i hi, nil_append]

/-- The rank between two neighbours, where there are such. -/
def gapRank : Option Nat → Option Nat → Option Nat
  | none, none => some agentInputRankStride
  | none, some next => if 1 < next then some (next / 2) else none
  | some previous, none => some (previous + agentInputRankStride)
  | some previous, some next =>
    if previous + 1 < next then some (previous + (next - previous) / 2) else none

/-- **The rank of a move** is that of the gap at the requested place. -/
theorem newRank_eq (h : DistinctIds rows) (hne : position.AnchorNe id)
    (hval : position.place.ValidIn (order .queued rows)) :
    ∃ l₁ l₂, others id rows = l₁ ++ l₂ ∧
      position.place.insert id ((others id rows).map (·.id)) = l₁.map (·.id) ++ id :: l₂.map (·.id) ∧
      newRank id position rows = gapRank (l₁.getLast?.map (·.rank)) (l₂.head?.map (·.rank)) := by
  have hanchor : ∀ anchor ∈ order .queued rows, ∃ target, anchorRow anchor rows = some target := by
    intro anchor ha
    obtain ⟨i, hi, rfl⟩ := mem_map.1 ha
    exact Option.isSome_iff_exists.1 (List.find?_isSome.2 ⟨i, hi, by simp⟩)
  cases position with
  | front =>
    refine ⟨[], others id rows, rfl, rfl, ?_⟩
    simp only [newRank, frontRank]
    cases (others id rows).head? <;> rfl
  | back =>
    refine ⟨others id rows, [], (append_nil _).symm, rfl, ?_⟩
    simp only [newRank, backRank]
    cases (others id rows).getLast? <;> rfl
  | before anchor =>
    obtain ⟨target, ht⟩ := hanchor anchor hval
    obtain ⟨hid, l₁, l₂, hsplit, hf₁, -, hnot⟩ := anchor_split h hne ht
    refine ⟨l₁, target :: l₂, hsplit, ?_, ?_⟩
    · rw [hsplit, map_append, map_cons, hid]
      exact Reorder.insertBefore_split hnot
    · simp only [newRank, beforeRank, ht, hf₁]
      cases l₁.getLast? <;> rfl
  | after anchor =>
    obtain ⟨target, ht⟩ := hanchor anchor hval
    obtain ⟨hid, l₁, l₂, hsplit, -, hf₂, hnot⟩ := anchor_split h hne ht
    refine ⟨l₁ ++ [target], l₂, by simpa using hsplit, ?_, ?_⟩
    · have hins : Reorder.insertAfter anchor id (l₁.map (·.id) ++ anchor :: l₂.map (·.id)) =
          l₁.map (·.id) ++ anchor :: id :: l₂.map (·.id) := Reorder.insertAfter_split hnot
      rw [hsplit]
      simpa [hid, MovePosition.place, Place.insert] using hins
    · simp only [newRank, afterRank, ht, hf₂, List.getLast?_concat, Option.map_some]
      cases l₂.head? <;> rfl

/-- **A rank that a move computes is free at the requested place.** -/
theorem newRank_spec (h : DistinctIds rows) (hne : position.AnchorNe id)
    (hval : position.place.ValidIn (order .queued rows)) (hr : newRank id position rows = some r) :
    ∃ l₁ l₂, FreeRank id position rows r l₁ l₂ := by
  obtain ⟨l₁, l₂, hsplit, hplace, hrank⟩ := newRank_eq h hne hval
  rw [hrank] at hr
  obtain ⟨hs₁, hs₂, -⟩ := pairwise_append.1 (hsplit ▸ others_sorted id rows)
  have hlast : ∀ last, l₁.getLast? = some last → ∀ i ∈ l₁, i.rank ≤ last.rank := by
    intro last hlast i hi
    obtain ⟨l, rfl⟩ := List.getLast?_eq_some_iff.1 hlast
    rcases mem_append.1 hi with hi | hi
    · exact AgentInput.rank_le_of_before
        ((pairwise_append.1 hs₁).2.2 i hi last mem_cons_self)
    · rw [mem_singleton.1 hi]
  have hfst : ∀ first, l₂.head? = some first → ∀ i ∈ l₂, first.rank ≤ i.rank := by
    intro first hfst i hi
    obtain ⟨l, rfl⟩ := List.head?_eq_some_iff.1 hfst
    rcases mem_cons.1 hi with rfl | hi
    · exact Nat.le_refl _
    · exact AgentInput.rank_le_of_before ((pairwise_cons.1 hs₂).1 i hi)
  have hbds : (∀ i ∈ l₁, i.rank < r) ∧ (∀ i ∈ l₂, r < i.rank) ∧ 0 < r := by
    cases hp : l₁.getLast? with
    | none =>
      obtain rfl := List.getLast?_eq_none_iff.1 hp
      cases hn : l₂.head? with
      | none =>
        obtain rfl := List.head?_eq_none_iff.1 hn
        cases hr
        simp [agentInputRankStride]
      | some first =>
        simp only [hp, hn, Option.map_none, Option.map_some, gapRank] at hr
        split at hr <;> cases hr
        refine ⟨by simp, fun i hi => ?_, by omega⟩
        have := hfst first hn i hi
        omega
    | some last =>
      cases hn : l₂.head? with
      | none =>
        obtain rfl := List.head?_eq_none_iff.1 hn
        simp only [hp, hn, Option.map_none, Option.map_some, gapRank, agentInputRankStride] at hr
        cases hr
        refine ⟨fun i hi => ?_, by simp, by omega⟩
        have := hlast last hp i hi
        omega
      | some first =>
        simp only [hp, hn, Option.map_some, gapRank] at hr
        split at hr <;> cases hr
        refine ⟨fun i hi => ?_, fun i hi => ?_, by omega⟩
        · have := hlast last hp i hi
          omega
        · have := hfst first hn i hi
          omega
  exact ⟨l₁, l₂, hsplit, hbds.1, hbds.2.1, hbds.2.2, hplace⟩

/-! ## Rebalancing -/

/-- The row with the rank that a rebalance of the order `ids` gives it. -/
def AgentInput.respread (ids : List Id) (i : AgentInput) : AgentInput :=
  { i with rank := (ids.idxOf i.id + 1) * agentInputRankStride }

theorem rebalanceQueuedBacklogRanks_eq (rows : List AgentInput) :
    rebalanceQueuedBacklogRanks rows =
      rows.map fun i => if i.id ∈ order .queued rows then i.respread (order .queued rows) else i :=
  rfl

theorem mem_order_iff (h : DistinctIds rows) (hi : i ∈ rows) :
    i.id ∈ order mode rows ↔ i.waits mode = true := by
  constructor
  · intro hid
    obtain ⟨j, hj, heq⟩ := mem_map.1 hid
    obtain ⟨hj, hw⟩ := mem_backlog.1 hj
    rwa [← h.eq_of_id hj hi heq]
  · intro hw
    exact mem_map_of_mem (mem_backlog.2 ⟨hi, hw⟩)

theorem map_id_rebalance : (rebalanceQueuedBacklogRanks rows).map (·.id) = rows.map (·.id) := by
  rw [rebalanceQueuedBacklogRanks_eq, map_map]
  refine map_congr_left fun i _ => ?_
  simp only [Function.comp]
  split <;> rfl

theorem DistinctIds.rebalance (h : DistinctIds rows) :
    DistinctIds (rebalanceQueuedBacklogRanks rows) := by
  unfold DistinctIds
  rwa [map_id_rebalance]

theorem filter_rebalance (mode : DeliveryMode) (h : DistinctIds rows) :
    (rebalanceQueuedBacklogRanks rows).filter (·.waits mode) =
      (rows.filter (·.waits mode)).map fun i =>
        if i.waits .queued then i.respread (order .queued rows) else i := by
  rw [rebalanceQueuedBacklogRanks_eq]
  have hcongr : rows.map (fun i => if i.id ∈ order .queued rows then
      i.respread (order .queued rows) else i) = rows.map fun i =>
        if i.waits .queued then i.respread (order .queued rows) else i :=
    map_congr_left fun i hi => by simp only [mem_order_iff h hi]
  rw [hcongr, filter_map]
  congr 1
  refine filter_congr fun i _ => ?_
  simp only [Function.comp]
  split <;> rfl

/-- In a rebalanced queue two inputs are at least a stride apart. -/
def Spread (l : List AgentInput) : Prop :=
  l.Pairwise (fun a b => a.rank + agentInputRankStride ≤ b.rank) ∧
    ∀ i ∈ l, agentInputRankStride ≤ i.rank

theorem Spread.sublist {l' : List AgentInput} (h : Spread l) (hl : l'.Sublist l) : Spread l' :=
  ⟨h.1.sublist hl, fun i hi => h.2 i (hl.subset hi)⟩

theorem spread_respread (h : (l.map (·.id)).Nodup) : Spread (l.map (·.respread (l.map (·.id)))) := by
  refine ⟨pairwise_map.2 (pairwise_iff_getElem.2 fun m n hm hn hmn => ?_), ?_⟩
  · have hidx : ∀ k (hk : k < l.length), (l.map (·.id)).idxOf l[k].id = k := fun k hk => by
      have := h.idxOf_getElem k (by simpa using hk)
      simpa using this
    simp only [AgentInput.respread, hidx m hm, hidx n hn, agentInputRankStride]
    omega
  · intro i hi
    obtain ⟨j, -, rfl⟩ := mem_map.1 hi
    simp only [AgentInput.respread, agentInputRankStride]
    omega

section
variable (h : DistinctIds rows)
include h

theorem backlog_rebalance :
    backlog .queued (rebalanceQueuedBacklogRanks rows) =
      (backlog .queued rows).map (·.respread (order .queued rows)) := by
  have hspread := spread_respread (l := backlog .queued rows) (h.order_nodup .queued)
  refine backlog_eq h.rebalance ?_ (hspread.1.imp fun hab => AgentInput.before_of_rank_lt ?_)
  · have hall : (rows.filter (·.waits .queued)).map (fun i =>
        if i.waits .queued then i.respread (order .queued rows) else i) =
        (rows.filter (·.waits .queued)).map (·.respread (order .queued rows)) :=
      map_congr_left fun i hi => if_pos (mem_filter.1 hi).2
    rw [filter_rebalance .queued h, hall]
    exact (backlog_perm .queued rows).map _
  · simp only [agentInputRankStride] at hab
    omega

theorem order_rebalance :
    order .queued (rebalanceQueuedBacklogRanks rows) = order .queued rows := by
  rw [order, backlog_rebalance h, map_map]
  rfl

theorem backlog_rebalance_of_ne (hmode : mode ≠ .queued) :
    backlog mode (rebalanceQueuedBacklogRanks rows) = backlog mode rows := by
  have hkeep : (rebalanceQueuedBacklogRanks rows).filter (·.waits mode) =
      rows.filter (·.waits mode) := by
    rw [filter_rebalance mode h]
    conv_rhs => rw [← map_id (rows.filter (·.waits mode))]
    refine map_congr_left fun i hi => if_neg fun hq => hmode ?_
    have hw := (mem_filter.1 hi).2
    simp only [AgentInput.waits, Bool.and_eq_true, decide_eq_true_eq] at hq hw
    exact hw.1.2.symm.trans hq.1.2
  rw [backlog, backlog, hkeep]

theorem newRank_rebalance (hne : position.AnchorNe id)
    (hval : position.place.ValidIn (order .queued rows)) :
    ∃ r, newRank id position (rebalanceQueuedBacklogRanks rows) = some r := by
  have hspread : Spread (others id (rebalanceQueuedBacklogRanks rows)) := by
    refine Spread.sublist ?_ filter_sublist
    rw [backlog_rebalance h]
    exact spread_respread (h.order_nodup .queued)
  obtain ⟨l₁, l₂, hsplit, -, hrank⟩ := newRank_eq h.rebalance hne (by rwa [order_rebalance h])
  rw [hsplit] at hspread
  rw [hrank]
  cases hp : l₁.getLast? with
  | none =>
    cases hn : l₂.head? with
    | none => exact ⟨_, rfl⟩
    | some first =>
      have hfst := hspread.2 first (mem_append_right _ (mem_of_head? hn))
      simp only [agentInputRankStride] at hfst
      exact ⟨_, if_pos (show 1 < first.rank by omega)⟩
  | some last =>
    cases hn : l₂.head? with
    | none => exact ⟨_, rfl⟩
    | some first =>
      have hgap := (pairwise_append.1 hspread.1).2.2 last (mem_of_getLast? hp) first
        (mem_of_head? hn)
      simp only [agentInputRankStride] at hgap
      exact ⟨_, if_pos (show last.rank + 1 < first.rank by omega)⟩

/-! ## Moves -/

theorem any_waits_iff :
    (rows.any fun i => i.id = id && i.waits mode) = true ↔ id ∈ order mode rows := by
  simp only [any_eq_true, Bool.and_eq_true, decide_eq_true_eq]
  constructor
  · rintro ⟨i, hi, rfl, hw⟩
    exact (mem_order_iff h hi).2 hw
  · intro hid
    obtain ⟨i, hi, rfl⟩ := mem_map.1 hid
    obtain ⟨hi, hw⟩ := mem_backlog.1 hi
    exact ⟨i, hi, rfl, hw⟩

theorem queuedBacklogMoveIsValid_iff :
    queuedBacklogMoveIsValid id position rows = true ↔
      id ∈ order .queued rows ∧ position.place.ValidIn (order .queued rows) := by
  cases position <;>
    simp only [queuedBacklogMoveIsValid, Bool.and_eq_true, any_waits_iff h, MovePosition.place,
      Place.ValidIn, and_true]

end

theorem exists_row_of_mem_order (hid : id ∈ order mode rows) :
    ∃ x ∈ rows, x.id = id ∧ x.waits mode = true := by
  obtain ⟨x, hx, rfl⟩ := mem_map.1 hid
  obtain ⟨hx, hw⟩ := mem_backlog.1 hx
  exact ⟨x, hx, rfl, hw⟩

def PositiveRanks (rows : List AgentInput) : Prop :=
  ∀ i ∈ rows, (i.waits .queued = true ∨ i.waits .steering = true) → 0 < i.rank

theorem PositiveRanks.updateInput (h : PositiveRanks rows)
    (hf : ∀ i ∈ rows, ((f i).waits .queued = true ∨ (f i).waits .steering = true) →
      0 < (f i).rank) : PositiveRanks (updateInput id f rows) := by
  intro i hi hw
  obtain ⟨j, hj, rfl⟩ := mem_map.1 hi
  split at hw
  · rw [if_pos ‹_›]
    exact hf j hj hw
  · rw [if_neg ‹_›]
    exact h j hj hw

theorem PositiveRanks.rebalance (h : PositiveRanks rows) :
    PositiveRanks (rebalanceQueuedBacklogRanks rows) := by
  intro i hi hw
  rw [rebalanceQueuedBacklogRanks_eq] at hi
  obtain ⟨j, hj, rfl⟩ := mem_map.1 hi
  split at hw
  · rw [if_pos ‹_›]
    simp only [AgentInput.respread, agentInputRankStride]
    omega
  · rw [if_neg ‹_›]
    exact h j hj hw

section
variable (h : DistinctIds rows) (hpos : PositiveRanks rows) (hne : position.AnchorNe id)
  (hid : id ∈ order .queued rows) (hval : position.place.ValidIn (order .queued rows))
include h hpos hne hid hval

/-- One attempt of a move: with a rank it reinserts the input, and touches nothing else. -/
theorem moveQueuedBacklogInputOnce_spec (hr : newRank id position rows = some r) :
    ∃ rows', moveQueuedBacklogInputOnce id position rows = some rows' ∧
      rows'.map (·.id) = rows.map (·.id) ∧ PositiveRanks rows' ∧
      order .queued rows' = position.place.insert id ((order .queued rows).erase id) ∧
      order .steering rows' = order .steering rows := by
  obtain ⟨l₁, l₂, hfree⟩ := newRank_spec h hne hval hr
  obtain ⟨x, hx, rfl, hw⟩ := exists_row_of_mem_order hid
  have hf : ∀ i : AgentInput, ({ i with rank := r } : AgentInput).id = i.id := fun _ => rfl
  refine ⟨updateInput x.id (fun i => { i with rank := r }) rows, ?_, map_id_updateInput hf,
    hpos.updateInput fun _ _ _ => hfree.pos, ?_, ?_⟩
  · rw [moveQueuedBacklogInputOnce, hr]
    exact if_pos ((any_waits_iff h).2 hid)
  · rw [order, backlog_update_at h hf hx hw hfree.split
      (fun i hi => .inl (hfree.above i hi)) (fun i hi => .inl (hfree.below i hi)),
      map_append, map_cons, ← map_id_without h, ← others_eq_without]
    exact hfree.place.symm
  · -- a queued row is no steering row before or after the move
    have hs : x.waits .steering = false := by
      simp only [AgentInput.waits, Bool.and_eq_true, decide_eq_true_eq] at hw
      simp [AgentInput.waits, hw.1.2]
    rw [order, backlog_update_leave h hf hx hs, map_id_without h, erase_of_not_mem]
    exact fun hmem => by simp [(mem_order_iff h hx).1 hmem] at hs

/-- **A valid move succeeds, after at most one rebalance, and reinserts the input.** -/
theorem moveQueuedBacklogInput_spec :
    ∃ rows', moveQueuedBacklogInput id position rows = some rows' ∧
      rows'.map (·.id) = rows.map (·.id) ∧ PositiveRanks rows' ∧
      order .queued rows' = position.place.insert id ((order .queued rows).erase id) ∧
      order .steering rows' = order .steering rows := by
  have hself : ¬ (position = .before id ∨ position = .after id) := by
    rintro (rfl | rfl) <;> exact hne rfl
  have hchk := (queuedBacklogMoveIsValid_iff h).2 ⟨hid, hval⟩
  cases hr : newRank id position rows with
  | some r =>
    obtain ⟨rows', hmove, hrest⟩ := moveQueuedBacklogInputOnce_spec h hpos hne hid hval hr
    refine ⟨rows', ?_, hrest⟩
    rw [moveQueuedBacklogInput, if_neg hself, if_pos hchk, hmove]
  | none =>
    obtain ⟨r, hr'⟩ := newRank_rebalance h hne hval
    have hid' : id ∈ order .queued (rebalanceQueuedBacklogRanks rows) := by
      rwa [order_rebalance h]
    obtain ⟨rows', hmove, hids, hpos', hq, hs⟩ :=
      moveQueuedBacklogInputOnce_spec h.rebalance hpos.rebalance hne hid'
        (by rwa [order_rebalance h]) hr'
    refine ⟨rows', ?_, hids.trans map_id_rebalance, hpos', ?_, ?_⟩
    · have hnone : moveQueuedBacklogInputOnce id position rows = none := by
        rw [moveQueuedBacklogInputOnce, hr]
      rw [moveQueuedBacklogInput, if_neg hself, if_pos hchk, hnone]
      exact hmove
    · rw [hq, order_rebalance h]
    · rw [hs, order, backlog_rebalance_of_ne h (by decide), order]

end

/-! ## A move changes ranks only -/

theorem unranked_updateRank (id rank : Id) (rows : List AgentInput) :
    (updateInput id (fun i => { i with rank := rank }) rows).map (fun i => { i with rank := 0 }) =
      rows.map fun i => { i with rank := 0 } := by
  rw [updateInput, map_map]
  refine map_congr_left fun i _ => ?_
  simp only [Function.comp_apply]
  split <;> rfl

theorem unranked_rebalance (rows : List AgentInput) :
    (rebalanceQueuedBacklogRanks rows).map (fun i => { i with rank := 0 }) =
      rows.map fun i => { i with rank := 0 } := by
  rw [rebalanceQueuedBacklogRanks, map_map]
  refine map_congr_left fun i _ => ?_
  simp only [Function.comp_apply]
  split <;> rfl

theorem unranked_moveOnce {id : Id} {rows : List AgentInput}
    (h : moveQueuedBacklogInputOnce id position rows = some rows') :
    rows'.map (fun i => { i with rank := 0 }) = rows.map fun i => { i with rank := 0 } := by
  unfold moveQueuedBacklogInputOnce at h
  split at h
  · cases h
  · split at h
    · cases h
      exact unranked_updateRank id _ rows
    · cases h

theorem unranked_move (h : moveQueuedBacklogInput id position rows = some rows') :
    rows'.map (fun i => { i with rank := 0 }) = rows.map fun i => { i with rank := 0 } := by
  unfold moveQueuedBacklogInput at h
  split at h
  · cases h
  · split at h
    · split at h
      · cases h
        exact unranked_moveOnce ‹_›
      · exact (unranked_moveOnce h).trans (unranked_rebalance _)
    · cases h

theorem exists_of_unranked
    (h : rows'.map (fun i => { i with rank := 0 }) = rows.map fun i => { i with rank := 0 })
    (hi : i ∈ rows') : ∃ j ∈ rows, i = { j with rank := i.rank } := by
  have hmem := mem_map_of_mem (f := fun i : AgentInput => { i with rank := 0 }) hi
  rw [h] at hmem
  obtain ⟨j, hj, heq⟩ := mem_map.1 hmem
  refine ⟨j, hj, ?_⟩
  obtain ⟨id, state, rank, kind, mode, queuedAt, admittedEvent⟩ := i
  simp only [AgentInput.mk.injEq] at heq ⊢
  obtain ⟨h₁, h₂, -, h₃, h₄, h₅, h₆⟩ := heq
  exact ⟨h₁.symm, h₂.symm, trivial, h₃.symm, h₄.symm, h₅.symm, h₆.symm⟩

end Store
