import Omnara.Store.Proof.Reachable

/-!
# Frontiers with complete results

Every tool call has the one event of the output that proposed it (`outputEvents_eq_singleton`), and a
completed call the one event of its result (`resultEvents_eq_singleton`). `Db.Current` places open calls
in the latest turn, `BatchInv.closed` gives every frontier the results of the calls it sees.
-/

namespace Store

namespace Db

variable {db : Db}

theorem outputEvents_eq_singleton (h : Inv db) {call : ToolCall} (hcall : call ∈ db.toolCalls) :
    ∃ e, db.outputEvents call.output = [e] := by
  have hnd : (db.events.filterMap (·.output?)).Nodup := by
    rw [h.outcome.outputEvents, h.outcome.outputs]
    refine (List.filter_sublist.map _).nodup ?_
    rw [h.context.rows.ids]
    exact List.nodup_range
  have hmem : call.output ∈ db.events.filterMap (·.output?) := by
    rw [h.outcome.outputEvents]
    exact h.batch.source call hcall
  refine AgentEvent.filter_eq_singleton hnd hmem fun e => ?_
  rw [AgentEvent.output?_eq_some, decide_eq_true_eq]

theorem resultEvents_eq_singleton (h : Inv db) {id : Id} {r : AgentEvent} (hr : r ∈ db.events)
    (hp : r.payload = .toolResult id) : db.resultEvents id = [r] := by
  have hnd : (db.events.filterMap (·.result?)).Nodup := by
    rw [h.batch.resultEvents]
    exact h.batch.nodup
  have hid : id ∈ db.events.filterMap (·.result?) :=
    List.mem_filterMap.2 ⟨r, hr, AgentEvent.result?_eq_some.2 hp⟩
  obtain ⟨e, he⟩ : ∃ e, db.resultEvents id = [e] := by
    refine AgentEvent.filter_eq_singleton hnd hid fun e => ?_
    rw [AgentEvent.result?_eq_some, decide_eq_true_eq]
  have hmem : r ∈ db.resultEvents id := List.mem_filter.2 ⟨hr, by simpa using hp⟩
  rw [he, List.mem_singleton] at hmem
  rw [he, hmem]

end Db

/-- **Result-complete frontiers.** In every state of every history a tool call has one output event;
while the call is not completed that event belongs to the latest turn and no stop follows it; and for
every model call whose frontier sees the output, a result event of the call stands after the output and
at or before the frontier, and there is no other. -/
theorem result_complete_frontiers {s : State} (h : Reachable s) :
    ∀ call ∈ s.db.toolCalls, ∃ e, s.db.outputEvents call.output = [e] ∧ (call.state ≠ .completed →
        some e.turn = s.db.latestTurnId ∧ s.db.stopAfter e.sequence = false) ∧
      ∀ c ∈ s.db.contexts, e.sequence ≤ c.frontier → ∃ r, s.db.resultEvents call.id = [r] ∧
        e.sequence < r.sequence ∧ r.sequence ≤ c.frontier := by
  obtain ⟨hinv, hcur⟩ := reachable_inv h
  intro call hcall
  obtain ⟨e, he⟩ := Db.outputEvents_eq_singleton hinv hcall
  obtain ⟨hmem, hp⟩ : e ∈ s.db.events ∧ e.payload = .modelOutput call.output := by
    have hin : e ∈ s.db.outputEvents call.output := he ▸ List.mem_cons_self
    simpa [Db.outputEvents] using hin
  refine ⟨e, he, fun hopen => hcur call hcall hopen e hmem hp, fun c hc hle => ?_⟩
  obtain ⟨r, hr, hrp, hrle⟩ := hinv.batch.closed c hc call hcall e hmem hp hle
  exact ⟨r, Db.resultEvents_eq_singleton hinv hr hrp, hinv.batch.order call hcall e hmem r hr hp hrp,
    hrle⟩

/-- Two calls of one output, one rejected at once, and the call that reads both results. -/
def batchHistory : List (Time × Tx) :=
  [(0, .claimNextAgentWork 1 100), (0, .claimNormalModelCall 1 2 [1] none true),
    (1, .recordToolCallSource 1 0 .toolUse [(.builtIn, false), (.mcp, true)]),
    (1, .markToolCallReady 1 0), (1, .completeToolCall 1 0 false),
    (1, .claimNormalModelCall 1 5 [1] (some 0) true)]

theorem result_complete_frontiers_batch : ∃ s, history true 0 batchHistory = some s ∧
    s.db.toolCalls.length = 2 ∧ (s.db.contexts.map (·.frontier)) = [2, 5] ∧
    ∀ call ∈ s.db.toolCalls, ∃ e r, s.db.outputEvents call.output = [e] ∧
      s.db.resultEvents call.id = [r] ∧ e.sequence < r.sequence ∧ r.sequence ≤ 5 := by
  have hrun : (history true 0 batchHistory).any (fun s => s.db.toolCalls.length = 2 ∧
      s.db.contexts.map (·.frontier) = [2, 5] ∧ ∀ call ∈ s.db.toolCalls,
        ∀ e ∈ s.db.outputEvents call.output, e.sequence ≤ 5) = true := by
    decide +kernel
  obtain ⟨s, hs, hfacts⟩ := (Option.any_eq_true _ _).1 hrun
  simp only [decide_eq_true_eq] at hfacts
  obtain ⟨hcalls, hfrontiers, hseen⟩ := hfacts
  obtain ⟨c, hc, hf⟩ : ∃ c ∈ s.db.contexts, c.frontier = 5 := by
    have hfive : 5 ∈ s.db.contexts.map (·.frontier) := by simp [hfrontiers]
    simpa using hfive
  refine ⟨s, hs, hcalls, hfrontiers, fun call hcall => ?_⟩
  obtain ⟨e, he, -, hclosed⟩ := result_complete_frontiers (reachable_history hs) call hcall
  have hle : e.sequence ≤ c.frontier := hf ▸ hseen call hcall e (by simp [he])
  obtain ⟨r, hr, hlt, hrle⟩ := hclosed c hc hle
  exact ⟨e, r, he, hr, hlt, hf ▸ hrle⟩

end Store
