import Omnara.Store.Proof.Progress

/-!
# Whole histories of one agent

In every state of a history its log and its tables agree, and what it has recorded it never takes back.
-/

namespace Store

open List

/-- **The log and the tables agree**: the events are numbered without a gap, and those of outputs,
checkpoints and results are the rows, in their order. Exactly the completed tool calls have a result, no
call has two, and an outcome stands after the frontier of its model call. -/
theorem history_log_agrees (run : History) (n : Nat) : let db := (run.state n).db
    db.events.map (·.sequence) = range' 1 db.events.length ∧
    db.events.filterMap (·.output?) = db.outputs.map (·.context) ∧
    db.events.filterMap (·.checkpoint?) = db.checkpoints.map (·.context) ∧
    db.events.filterMap (·.result?) = db.results.map (·.call) ∧ (db.results.map (·.call)).Nodup ∧
    (∀ x ∈ db.toolCalls, x.state = .completed ↔ x.id ∈ db.results.map (·.call)) ∧
    ∀ e ∈ db.events, ∀ c ∈ db.contexts,
      e.payload = .modelOutput c.id ∨ e.payload = .contextCheckpoint c.id → c.frontier < e.sequence := by
  obtain ⟨hlog, -, hout, hbatch, -⟩ := (reachable_inv (run.reachable n)).1
  exact ⟨hlog.sequences, hout.outputEvents, hout.checkpointEvents, hbatch.resultEvents, hbatch.nodup,
    hbatch.completed, hout.published⟩

/-- **What is recorded stays**: from a state of a history to any later one the log only grows, and a
completed tool call stays completed. -/
theorem history_grows (run : History) (m d : Nat) :
    (run.state m).db.events <+: (run.state (m + d)).db.events ∧
    ∀ x ∈ (run.state m).db.toolCalls, x.state = .completed →
      ∀ y ∈ (run.state (m + d)).db.toolCalls, y.id = x.id → y.state = .completed := by
  have hgrow : (run.state m).db.events <+: (run.state (m + d)).db.events := by
    induction d with
    | zero => exact prefix_rfl
    | succ d ih =>
      obtain ⟨hinv, hcur⟩ := reachable_inv (run.reachable (m + d))
      have hstep := run.next (m + d)
      rw [← Nat.add_assoc]
      generalize run.state (m + d + 1) = t, run.state (m + d) = s at *
      cases hstep with
      | wait _ => exact ih
      | commit tx _ hrun =>
        have hpath := (Db.tx_kept tx hinv hcur hrun).1
        clear hrun
        induction hpath with
        | refl => exact ih
        | tail _ heff ih =>
          obtain ⟨es, hx, -⟩ := heff
          exact ih.trans (hx.events ▸ prefix_append _ _)
  have hbatch := (reachable_inv (run.reachable m)).1.batch
  have hbatch' := (reachable_inv (run.reachable (m + d))).1.batch
  refine ⟨hgrow, fun x hx hdone y hy hid => ?_⟩
  have hmem := (hbatch.completed x hx).1 hdone
  rw [hbatch'.completed y hy, hid, ← hbatch'.resultEvents]
  rw [← hbatch.resultEvents] at hmem
  exact (hgrow.filterMap _).subset hmem

end Store
