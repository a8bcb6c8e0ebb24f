import Mathlib.Data.List.Dedup
import Omnara.Store.Lifecycle

/-!
# The wakeup and the claim agree

`agent_next_wakeup_ready_at` and the branch tree of `ClaimNextAgentWork` decide the same priority.
The facts behind it hold in every database state:

* a row of tool work is an open call of the current batch (`hasIncompleteToolBatch_of_toolWork`);
* model work is never offered over an incomplete batch (`not_incomplete_of_modelWork`);
* model work always has a ready time (`readyAt_of_nextModelWork`), so the wakeup that reads the time
  and the claim that reads the row see the same thing; it is the time of a row, or the retry time of a
  failed call (`ReadyTime`).
-/

namespace Store

open List

namespace Db

variable {db : Db}

variable {work : ModelWork} {c : WorkCandidate}

/-! ## Tool work and model work -/

theorem hasIncompleteToolBatch_of_toolWork (h : db.toolWorkFrontiers ≠ []) :
    db.hasIncompleteToolBatch = true := by
  obtain ⟨f, hf⟩ := exists_mem_of_ne_nil _ h
  simp only [toolWorkFrontiers, mem_map, mem_dedup] at hf
  obtain ⟨_, ⟨r, hr, rfl⟩, -⟩ := hf
  obtain ⟨hcur, hwork⟩ := mem_filter.1 hr
  refine any_eq_true.2 ⟨r, hcur, ?_⟩
  simp only [isToolWork, Bool.and_eq_true, Bool.or_eq_true, decide_eq_true_eq] at hwork
  rcases hwork.1 with hs | ⟨hs, -⟩ <;> simp [hs]

theorem not_incomplete_of_modelWork (h : db.nextModelWork = some work) :
    db.hasIncompleteToolBatch = false := by
  unfold nextModelWork at h
  split at h
  · cases h
  · exact Bool.eq_false_iff.2 ‹_›

theorem nextModelWork_of_incomplete (h : db.hasIncompleteToolBatch = true) :
    db.nextModelWork = none := by
  simp [nextModelWork, h]

theorem nextToolWork_eq_none_iff : db.nextToolWork = none ↔ db.toolWorkFrontiers = [] := by
  rw [nextToolWork, List.head?_eq_none_iff, ← length_eq_zero_iff, length_insertionSort,
    length_eq_zero_iff]

/-! ## Ready times -/

inductive ReadyTime (db : Db) : Time → Prop
  | event {e : AgentEvent} (he : e ∈ db.events) : ReadyTime db e.createdAt
  | result {r : ToolCallResult} (hr : r ∈ db.results) : ReadyTime db r.completedAt
  | checkpoint {k : ContextCheckpoint} (hk : k ∈ db.checkpoints) : ReadyTime db k.createdAt
  | retry {c : ModelCallContext} {t : Time} (hc : c ∈ db.contexts) (ht : retryAt? c = some t) :
    ReadyTime db t

theorem readyTime_min {p : AgentEvent → Bool} {e : AgentEvent} (he : e ∈ db.events)
    (hp : p e = true) :
    ∃ r, ((db.events.filter p).map (·.createdAt)).min? = some r ∧ db.ReadyTime r := by
  cases hm : ((db.events.filter p).map (·.createdAt)).min? with
  | none =>
    rw [List.min?_eq_none_iff, map_eq_nil_iff, filter_eq_nil_iff] at hm
    exact absurd hp (hm e he)
  | some r =>
    obtain ⟨a, ha, rfl⟩ := mem_map.1 (List.min?_eq_some_iff.1 hm).1
    exact ⟨a.createdAt, rfl, .event (mem_filter.1 ha).1⟩

theorem readyTime_max {p : ToolCallResult → Bool} {res : ToolCallResult} (hres : res ∈ db.results)
    (hp : p res = true) :
    ∃ r, ((db.results.filter p).map (·.completedAt)).max? = some r ∧ db.ReadyTime r := by
  cases hm : ((db.results.filter p).map (·.completedAt)).max? with
  | none =>
    rw [List.max?_eq_none_iff, map_eq_nil_iff, filter_eq_nil_iff] at hm
    exact absurd hp (hm res hres)
  | some r =>
    obtain ⟨a, ha, rfl⟩ := mem_map.1 (List.max?_eq_some_iff.1 hm).1
    exact ⟨a.completedAt, rfl, .result (mem_filter.1 ha).1⟩

theorem exists_event_of_admittedContent {e : AgentEvent} {o : Id × Nat}
    (h : db.admittedContent e = some o) : o.2 = e.sequence := by
  obtain ⟨i, -, rfl⟩ := Option.map_eq_some_iff.1 h
  rfl

theorem exists_event_of_opening {turn : Id} {max : Nat} {o : Id × Nat}
    (h : o ∈ db.modelCallOpeningContentInputs turn max) : ∃ e ∈ db.events, e.sequence = o.2 := by
  simp only [modelCallOpeningContentInputs, mem_insertionSort] at h
  -- both row sources are `filterMap admittedContent` over some of the events
  split at h
  all_goals
    obtain ⟨e, he, ho⟩ := mem_filterMap.1 h
    exact ⟨e, (mem_filter.1 he).1, (exists_event_of_admittedContent ho).symm⟩

theorem exists_event_of_unstarted {row : Id × Nat} (h : row ∈ db.latestUnstartedOpenings) :
    ∃ e ∈ db.events, e.sequence = row.2 := by
  unfold latestUnstartedOpenings at h
  split at h
  · cases h
  · split at h
    · split at h
      · cases h
      · obtain ⟨o, ho, rfl⟩ := mem_map.1 h
        exact exists_event_of_opening (o := o) ho
    · cases h

theorem readyAt_of_unstartedWork (h : db.unstartedWork = some c) :
    ∃ r, c.readyAt = some r ∧ db.ReadyTime r := by
  unfold unstartedWork at h
  dsimp only at h
  split at h
  · rename_i row watermark hrow _
    cases h
    have hmem := mem_of_mem_head? hrow
    obtain ⟨e, he, hseq⟩ := exists_event_of_unstarted hmem
    exact readyTime_min he (decide_eq_true (hseq ▸ mem_map_of_mem hmem))
  · cases h

theorem readyAt_of_resultFrontier {f : ResultFrontier} (h : f ∈ db.modelResultFrontiers) :
    ∃ r, f.readyAt = some r ∧ db.ReadyTime r := by
  obtain ⟨group, hgroup, hf⟩ := mem_filterMap.1 h
  obtain ⟨r, hr, rfl⟩ := mem_map.1 (mem_dedup.1 hgroup)
  dsimp only at hf
  split at hf
  · rename_i hcond
    cases hf
    -- the batch is not empty: `r` is one of its calls, and a complete batch has its result
    simp only [Bool.and_eq_true] at hcond
    have hcall : r.1 ∈ (db.currentCalls.filter fun x =>
        (x.1.output, x.2.turn) = (r.1.output, r.2.turn)).map (·.1) :=
      mem_map_of_mem (mem_filter.2 ⟨hr, by simp⟩)
    have hdone := all_eq_true.1 hcond.1 r.1 hcall
    obtain ⟨res, hres, hid⟩ := any_eq_true.1 (Bool.and_eq_true _ _ ▸ hdone).1
    rw [decide_eq_true_eq] at hid
    exact readyTime_max hres (decide_eq_true (hid ▸ mem_map_of_mem hcall))
  · cases hf

theorem readyAt_of_retryWork (h : db.retryWork = some c) : ∃ r, c.readyAt = some r ∧ db.ReadyTime r := by
  obtain ⟨ctx, hctx, hc⟩ := exists_of_findSome?_eq_some h
  split at hc
  · rename_i t _ ht _
    split at hc
    · cases hc
    · cases hc
      exact ⟨t, rfl, .retry (mem_filter.1 hctx).1 ht⟩
  · cases hc

theorem readyAt_of_laterSemanticWork (h : db.laterSemanticWork = some c) :
    ∃ r, c.readyAt = some r ∧ db.ReadyTime r := by
  obtain ⟨ctx, -, hc⟩ := exists_of_findSome?_eq_some h
  split at hc
  · cases hc
  · split at hc
    · cases hc
    · rename_i e he
      split at hc
      · cases hc
        exact ⟨e.createdAt, rfl, .event (mem_of_find?_eq_some he)⟩
      · cases hc

theorem readyAt_of_unconsumedConfigChange {row : Id × Nat × Time}
    (h : db.unconsumedConfigChange = some row) : db.ReadyTime row.2.2 := by
  unfold unconsumedConfigChange at h
  split at h
  · cases h
  · split at h
    · cases h
    · have hmem := (mem_insertionSort _).1 (mem_of_mem_head? h)
      obtain ⟨e, he, rfl⟩ := mem_map.1 hmem
      exact .event (mem_filter.1 he).1

theorem readyAt_of_completedToolsWork (h : db.completedToolsWork = some c) :
    ∃ r, c.readyAt = some r ∧ db.ReadyTime r := by
  obtain ⟨r, hr, rfl⟩ := Option.map_eq_some_iff.1 h
  have hmem := (mem_insertionSort _).1 (mem_of_mem_head? hr)
  obtain ⟨f, hf, hrow⟩ := mem_flatMap.1 hmem
  obtain ⟨ctx, -, rfl⟩ := mem_map.1 hrow
  exact readyAt_of_resultFrontier hf

theorem readyAt_of_truncatedOutput {row : AgentEvent × ModelCallContext}
    (h : db.truncatedOutput = some row) : db.ReadyTime row.1.createdAt := by
  have hmem := (mem_insertionSort _).1 (mem_of_mem_head? h)
  obtain ⟨o, -, ho⟩ := mem_flatMap.1 hmem
  obtain ⟨c, -, hc⟩ := mem_flatMap.1 ho
  obtain ⟨e, he, rfl⟩ := mem_map.1 hc
  exact .event (mem_filter.1 (mem_filter.1 he).1).1

theorem readyAt_of_unconsumedCheckpoint {row : Id × Nat × Time}
    (h : db.unconsumedCheckpoint = some row) : db.ReadyTime row.2.2 := by
  have hmem := (mem_insertionSort _).1 (mem_of_mem_head? h)
  obtain ⟨k, hk, hrow⟩ := mem_flatMap.1 hmem
  obtain ⟨e, -, rfl⟩ := mem_map.1 hrow
  exact .checkpoint hk

theorem readyAt_of_candidate (h : c ∈ db.workCandidates) : ∃ r, c.readyAt = some r ∧ db.ReadyTime r := by
  simp only [workCandidates, mem_filterMap, mem_cons, not_mem_nil, or_false, id_eq,
    exists_eq_right] at h
  rcases h with h | h | h | h | h | h | h
  · exact readyAt_of_unstartedWork h.symm
  · exact readyAt_of_retryWork h.symm
  · exact readyAt_of_laterSemanticWork h.symm
  · obtain ⟨row, hrow, rfl⟩ := Option.map_eq_some_iff.1 h.symm
    exact ⟨row.2.2, rfl, readyAt_of_unconsumedConfigChange hrow⟩
  · exact readyAt_of_completedToolsWork h.symm
  · obtain ⟨row, hrow, rfl⟩ := Option.map_eq_some_iff.1 h.symm
    exact ⟨row.1.createdAt, rfl, readyAt_of_truncatedOutput hrow⟩
  · obtain ⟨row, hrow, rfl⟩ := Option.map_eq_some_iff.1 h.symm
    exact ⟨row.2.2, rfl, readyAt_of_unconsumedCheckpoint hrow⟩

theorem readyAt_of_withOpenings (h : db.withOpenings c = some work) : work.readyAt = c.readyAt := by
  unfold withOpenings at h
  split at h
  · cases h
  · cases h
    rfl

theorem readyAt_of_nextModelWork (h : db.nextModelWork = some work) :
    ∃ r, work.readyAt = some r ∧ db.ReadyTime r := by
  unfold nextModelWork at h
  split at h
  · cases h
  · obtain ⟨c, hc, hwork⟩ := exists_of_findSome?_eq_some h
    rw [readyAt_of_withOpenings hwork]
    exact readyAt_of_candidate hc

/-! ## Inputs -/

theorem steeringForAdmission_eq_nil_iff (h : db.hasIncompleteToolBatch = false) :
    db.steeringForAdmission = [] ↔ db.receivedContent .steering = [] := by
  simp only [steeringForAdmission, h, Bool.false_eq_true, if_false]
  rw [← length_eq_zero_iff, length_insertionSort, length_eq_zero_iff]

theorem queuedForAdmission_eq_nil_iff :
    db.queuedForAdmission = [] ↔ db.receivedContent .queued = [] := by
  rw [queuedForAdmission, Option.toList_eq_nil_iff, List.head?_eq_none_iff,
    ← length_eq_zero_iff, length_insertionSort, length_eq_zero_iff]

end Db

/-! ## Agreement -/

/-- The claim takes work: it goes on to acquire the runtime lock. -/
def Selection.picks : Selection → Bool
  | .tool _ | .admitInputs _ | .model _ => true
  | .toolBatchWait | .modelRetryWait | .idle => false

/-- What the next wakeup has to be at `t` for a selection. -/
def Selection.Agrees (t : Time) (next : Option Time) : Selection → Prop
  | .tool _ | .admitInputs _ | .model _ => ∃ r, next = some r ∧ r ≤ t
  | .modelRetryWait => ∃ r, next = some r ∧ t < r
  | .toolBatchWait | .idle => next = none

namespace Db

variable {db : Db}

/-- The selection, branch by branch: it is no error, it agrees with the wakeup, and where it takes
nothing the wakeup does not depend on the time of the statement. -/
theorem selectWork_spec (db : Db) (t : Time) : ∃ s, db.selectWork t = .ok s ∧
    s.Agrees t (db.nextWakeupReadyAt t) ∧
    (s.picks = false → ∀ t', db.nextWakeupReadyAt t' = db.nextWakeupReadyAt t) := by
  by_cases htool : db.toolWorkFrontiers = []
  · have hnone := nextToolWork_eq_none_iff.2 htool
    cases hinc : db.hasIncompleteToolBatch with
    | true =>
      refine ⟨.toolBatchWait, ?_, ?_, ?_⟩ <;>
        simp [selectWork, Selection.Agrees, nextWakeupReadyAt, hnone, htool, hinc,
          nextModelWork_of_incomplete hinc]
    | false =>
      have hsteer := steeringForAdmission_eq_nil_iff hinc
      by_cases hs : db.receivedContent .steering = []
      · cases hm : db.nextModelWork with
        | some work =>
          obtain ⟨r, hr, -⟩ := readyAt_of_nextModelWork hm
          have hnext : ∀ t', db.nextWakeupReadyAt t' = some r := fun t' => by
            simp [nextWakeupReadyAt, htool, hinc, hs, hm, hr]
          by_cases hle : r ≤ t
          · exact ⟨.model work,
              by simp [selectWork, hnone, hinc, hsteer.2 hs, hm, ModelWork.isReady, hr, hle],
              ⟨r, hnext t, hle⟩, fun h => by cases h⟩
          · exact ⟨.modelRetryWait,
              by simp [selectWork, hnone, hinc, hsteer.2 hs, hm, ModelWork.isReady, hr, hle],
              ⟨r, hnext t, Nat.lt_of_not_le hle⟩, fun _ t' => by rw [hnext, hnext]⟩
        | none =>
          by_cases hq : db.receivedContent .queued = []
          · refine ⟨.idle, ?_, ?_, ?_⟩ <;>
              simp [selectWork, Selection.Agrees, nextWakeupReadyAt, hnone, htool, hinc,
                hsteer.2 hs, hs, hm, queuedForAdmission_eq_nil_iff.2 hq, hq]
          · have hq' := mt queuedForAdmission_eq_nil_iff.1 hq
            refine ⟨.admitInputs db.queuedForAdmission, ?_, ⟨t, ?_, Nat.le_refl t⟩,
              fun h => by cases h⟩
            · simp [selectWork, hnone, hinc, hsteer.2 hs, hm, hq']
            · simp [nextWakeupReadyAt, htool, hinc, hs, hm, hq]
      · have hs' := mt hsteer.1 hs
        refine ⟨.admitInputs db.steeringForAdmission, ?_, ⟨t, ?_, Nat.le_refl t⟩,
          fun h => by cases h⟩
        · cases hm : db.nextModelWork <;> simp [selectWork, hnone, hinc, hs', hm]
        · simp [nextWakeupReadyAt, htool, hinc, hs]
  · obtain ⟨f, hf⟩ := Option.ne_none_iff_exists'.1 (mt nextToolWork_eq_none_iff.1 htool)
    have hmodel := nextModelWork_of_incomplete (hasIncompleteToolBatch_of_toolWork htool)
    exact ⟨.tool f, by simp [selectWork, hf, hmodel],
      ⟨t, by simp [nextWakeupReadyAt, htool], Nat.le_refl t⟩, fun h => by cases h⟩

/-- A claim that takes nothing commits, with no wakeup or one after its selection's time. -/
theorem claimNextAgentWork_idle {t w : Time} {s : Selection} (lock lease : Nat)
    (harch : db.archived = false) (hlock : db.lock = none) (hw : db.wakeup = some w) (hwt : w ≤ t)
    (hs : db.selectWork t = .ok s) (hp : s.picks = false) :
    db.claimNextAgentWork lock lease t = some (db.reconcileWakeup t) := by
  have hreq : require (¬ db.archived ∧ db.lock = none ∧ db.wakeup.any (· ≤ t)) = some () := by
    simp [harch, hlock, hw, hwt]
  unfold claimNextAgentWork
  rw [hreq, hs]
  cases s <;> first | rfl | cases hp

theorem reconcileWakeup_later {t w : Time} {s : Selection} (harch : db.archived = false)
    (hs : db.selectWork t = .ok s) (hp : s.picks = false) (t' : Time)
    (hw : (db.reconcileWakeup t').wakeup = some w) : t < w := by
  obtain ⟨s', hs', hagr, hstable⟩ := selectWork_spec db t
  cases hs.symm.trans hs'
  simp only [reconcileWakeup, harch, Bool.false_eq_true, if_false, hstable hp t'] at hw
  cases s <;> simp_all [Selection.Agrees, Selection.picks]

/-- **The wakeup and the claim agree.** In every state and at every time the selection is no error:
the next wakeup is due exactly when it takes work, later exactly when it waits for model work, and
NULL exactly when it finds nothing. A claim that takes nothing commits and leaves no wakeup that is
due at its selection's time, whenever its reconciliation runs. -/
theorem wakeup_agrees_with_claim (db : Db) (t : Time) :
    ∃ s, db.selectWork t = .ok s ∧
      ((∃ r, db.nextWakeupReadyAt t = some r ∧ r ≤ t) ↔ s.picks = true) ∧
      ((∃ r, db.nextWakeupReadyAt t = some r ∧ t < r) ↔ s = .modelRetryWait) ∧
      (db.nextWakeupReadyAt t = none ↔ s = .toolBatchWait ∨ s = .idle) ∧
      ¬ (db.nextToolWork.isSome ∧ db.nextModelWork.isSome) ∧
      ¬ (db.nextModelWork.isSome ∧ db.hasIncompleteToolBatch) ∧
      (db.archived = false → db.lock = none → s.picks = false →
        (∀ w, db.wakeup = some w → w ≤ t → ∀ lock lease,
          db.claimNextAgentWork lock lease t = some (db.reconcileWakeup t)) ∧
        ∀ t' w, (db.reconcileWakeup t').wakeup = some w → t < w) := by
  obtain ⟨s, hs, hagree, -⟩ := selectWork_spec db t
  have hexcl : ¬ (db.nextModelWork.isSome ∧ db.hasIncompleteToolBatch) := by
    rintro ⟨hm, hinc⟩
    simp [nextModelWork_of_incomplete hinc] at hm
  refine ⟨s, hs, ?_, ?_, ?_, ?_, hexcl, fun harch hlock hp =>
    ⟨fun w hw hwt lock lease => claimNextAgentWork_idle lock lease harch hlock hw hwt hs hp,
      fun t' w hw => reconcileWakeup_later harch hs hp t' hw⟩⟩
  · cases s <;> simp only [Selection.Agrees] at hagree <;> grind [Selection.picks]
  · cases s <;> simp only [Selection.Agrees] at hagree <;> grind
  · cases s <;> simp only [Selection.Agrees] at hagree <;> grind
  · rintro ⟨ht, hm⟩
    have htool : db.toolWorkFrontiers ≠ [] := fun h => by
      simp [nextToolWork_eq_none_iff.2 h] at ht
    exact hexcl ⟨hm, hasIncompleteToolBatch_of_toolWork htool⟩

/-- An agent whose first call failed at frontier 1 and may be retried at 10; its wakeup is 3. -/
def retryWaiting : Db where
  archived := false
  nextEventSequence := 2
  events := [⟨1, 1, .agentInput 0, true, 1⟩]
  inputs := [⟨0, .resolved, 1024, .content, .queued, 0, some 1⟩]
  turns := [⟨1, 1, 1⟩]
  contexts := [⟨0, .normal, 1, 1, .failed (some (.retry 10)), 0⟩]
  outputs := []
  checkpoints := []
  toolCalls := []
  results := []
  lock := none
  wakeup := some 3

theorem wakeup_agrees_with_claim_retryWaiting :
    retryWaiting.selectWork 5 = .ok .modelRetryWait ∧
      retryWaiting.claimNextAgentWork 0 60 5 = some (retryWaiting.reconcileWakeup 5) ∧
      (retryWaiting.reconcileWakeup 5).wakeup = some 10 ∧ 5 < 10 := by
  obtain ⟨s, hs, -, -, -, -, -, hclaim⟩ := wakeup_agrees_with_claim retryWaiting 5
  have hwait : retryWaiting.selectWork 5 = .ok .modelRetryWait := by decide +kernel
  cases hwait.symm.trans hs
  obtain ⟨hcommit, hlater⟩ := hclaim rfl rfl rfl
  have hwakeup : (retryWaiting.reconcileWakeup 5).wakeup = some 10 := by decide +kernel
  exact ⟨hwait, hcommit 3 rfl (by decide) 0 60, hwakeup, hlater 5 10 hwakeup⟩

end Db

end Store
