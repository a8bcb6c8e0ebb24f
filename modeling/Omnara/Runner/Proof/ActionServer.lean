import Omnara.Runner.Proof.Log

/-!
# Effects and outcomes of the action server

`Good` is the invariant of the whole system. A call that is about to apply its action has an execution
of its own in the log, since the last crash, and holds the effect-boundary lock, so no other call applies
anything meanwhile; a call that is about to freeze a result other than unknown has applied its action
since the last crash. `turn_ok` says what one turn of a call does, `Good.turn` that the rest of the
system stays good with it.
-/

namespace Runner

open StateDb List

variable {cfg : Config} {action : ProcessAction} {result : ProcessActionResult}

/-! ## Reports -/

theorem actionReport_unknown {actionID : String} {report : Report}
    (h : cfg.actionReport actionID result = some report)
    (htype : result.eventType = .processActionUnknown) : cfg.Unknown report := by
  obtain ⟨body, hbody, rfl⟩ := Option.map_eq_some_iff.1 h
  obtain ⟨decoded, hdecoded, hsame⟩ := cfg.marshal_type _ _ hbody
  exact ⟨decoded, hdecoded, hsame.trans htype⟩

/-! ## The invariant -/

/-- What a phase of a call for the action says about the log and the effects. -/
def Phase.Ok (cfg : Config) (log : List Event) (effects : List String) (actionID : String) :
    Phase → Prop
  | executing => actionID ∈ executedIDs cfg.processID log ∧ actionID ∉ effects ∧
      Fresh cfg.processID log actionID
  | freezing report => cfg.Unknown report ∨ Fresh cfg.processID log actionID
  | finished (.ok (some r)) => r ∈ frozenReports cfg.processID log ∧ r.actionID = actionID
  | _ => True

structure Good (cfg : Config) (w : World) : Prop where
  durable : Durable cfg w.db w.log
  seq : ∀ c ∈ w.calls, c.action.seq = cfg.seqOf c.action.id
  calls : ∀ c ∈ w.calls, c.phase.Ok cfg w.log w.effects c.action.id
  lock : w.calls.countP (·.phase.holdsBoundary) ≤ 1
  effects : w.effects.Nodup
  executed : ∀ actionID ∈ w.effects, actionID ∈ executedIDs cfg.processID w.log
  responses : ∀ actionID r, (actionID, .ok (some r)) ∈ w.responses →
    r ∈ frozenReports cfg.processID w.log ∧ r.actionID = actionID

section Phases
variable {log : List Event} {effects : List String} {actionID : String} {phase : Phase}

variable {action : ProcessAction}

theorem Phase.Ok.concat {e : Event} (h : phase.Ok cfg log effects actionID) (he : e ≠ .crash) :
    phase.Ok cfg (log ++ [e]) effects actionID := by
  match phase with
  | executing => exact ⟨mem_executedIDs_concat.2 (.inl h.1), h.2.1, h.2.2.concat he⟩
  | freezing report => exact h.imp_right (·.concat he)
  | finished (.ok (some r)) => exact ⟨mem_frozenReports_concat.2 (.inl h.1), h.2⟩
  | begun | waiting | waitingNoEffect _ | applying | recording _ | finished (.ok none)
  | finished (.error _) => trivial

/-- Only a call that is about to apply its action looks at the effects. -/
theorem Phase.Ok.of_ne_executing {effects' : List String} (h : phase.Ok cfg log effects actionID)
    (hne : phase ≠ .executing) : phase.Ok cfg log effects' actionID := by
  match phase with
  | executing => exact absurd rfl hne
  | freezing report => exact h
  | finished (.ok (some r)) => exact h
  | begun | waiting | waitingNoEffect _ | applying | recording _ | finished (.ok none)
  | finished (.error _) => trivial

theorem freezeActionResult_ok
    (h : result.eventType = .processActionUnknown ∨ Fresh cfg.processID log action.id) :
    (cfg.freezeActionResult action result).Ok cfg log effects action.id := by
  unfold Config.freezeActionResult
  split
  · trivial
  · exact h.imp_left (actionReport_unknown ‹_›)

theorem runApplyOnce_ok : (cfg.runApplyOnce action).Ok cfg log effects action.id := by
  unfold Config.runApplyOnce
  split
  · trivial
  · split <;> trivial

theorem holdsBoundary_runApplyOnce : (cfg.runApplyOnce action).holdsBoundary = false := by
  unfold Config.runApplyOnce
  split
  · rfl
  · split <;> rfl

theorem holdsBoundary_freezeActionResult :
    (cfg.freezeActionResult action result).holdsBoundary = false := by
  unfold Config.freezeActionResult
  split <;> rfl

theorem holdsBoundary_retrySupervisorStateWrite {report : Report} {canceled : Bool}
    {result : Except RunnerError Outcome} :
    (retrySupervisorStateWrite report canceled result).holdsBoundary = false := by
  unfold retrySupervisorStateWrite
  split
  · rfl
  · rfl
  · split <;> rfl

end Phases

/-! ## Operations on the database -/

/-- What the server relies on in any operation on its database. -/
structure Harmless (cfg : Config) (w : World) (op : Op) : Prop where
  reserves : ∀ out, (Event.committed w.db op out).reserves cfg.processID = false
  rows : ∀ db out a, op.run cfg.codec w.db = .ok (db, out) → op.recorded out = some a →
    a.processID = cfg.processID → a.seq = cfg.seqOf a.id
  honest : Honest cfg w.log op

/-- An operation leaves one event in the log, and what the caller learns from it has happened. -/
theorem attempt_ok {w : World} (h : Durable cfg w.db w.log) {op : Op} (reply : Reply)
    (hop : Harmless cfg w op) :
    ∃ db e, (w.attempt cfg op reply).1 = { w with db, log := w.log ++ [e] } ∧ e ≠ .crash ∧
      Durable cfg db (w.log ++ [e]) ∧
      ∀ out, (w.attempt cfg op reply).2 = .ok out →
        e = .committed w.db op out ∧ op.run cfg.codec w.db = .ok (db, out) := by
  have hcommit : ∀ {db out}, op.run cfg.codec w.db = .ok (db, out) →
      Durable cfg db (w.log ++ [.committed w.db op out]) := fun hrun =>
    h.commit hrun (hop.reserves _) (fun a => hop.rows _ _ a hrun) hop.honest
  cases hrun : op.run cfg.codec w.db with
  | error err =>
    refine ⟨w.db, .failed op, ?_, nofun, h.failed op, ?_⟩ <;> simp [World.attempt, hrun]
  | ok x =>
    obtain ⟨db, out⟩ := x
    cases reply with
    | answered | unconfirmed =>
      refine ⟨db, .committed w.db op out, ?_, nofun, hcommit hrun, ?_⟩ <;>
        simp [World.attempt, hrun]
    | failed full =>
      refine ⟨w.db, .failed op, ?_, nofun, h.failed op, ?_⟩ <;> simp [World.attempt, hrun]

/-! ## Turns -/

structure TurnOk (cfg : Config) (w w' : World) (c c' : Call) : Prop where
  action : c'.action = c.action
  durable : Durable cfg w'.db w'.log
  later : w'.log = w.log ∨ ∃ e, e ≠ .crash ∧ w'.log = w.log ++ [e]
  phase : c'.phase.Ok cfg w'.log w'.effects c.action.id
  lock : c'.phase.holdsBoundary = true → c.phase.holdsBoundary = true ∨ w.boundaryHeld = false
  effects : w'.effects = w.effects ∨
    c.phase = .executing ∧ c'.phase.holdsBoundary = false ∧
      w'.effects = w.effects ++ [c.action.id]
  responses : w'.responses = w.responses ∨ ∃ result, c.phase = .finished result ∧
    w'.responses = w.responses ++ [(c.action.id, result)]

section Turns
variable {w w' : World} {c c' : Call}

variable {op : Op} {a : Action} {out : Outcome} {actionID : String}

variable {report : Report} {newReportID : String} {db : Db}

theorem TurnOk.silent (hw : Good cfg w) {phase : Phase} (registered : Bool) (callers : Nat)
    (hph : phase.Ok cfg w.log w.effects c.action.id)
    (hlock : phase.holdsBoundary = true → c.phase.holdsBoundary = true ∨ w.boundaryHeld = false) :
    TurnOk cfg w w c { c with phase, registered, callers } :=
  ⟨rfl, hw.durable, .inl rfl, hph, hlock, .inl rfl, .inl rfl⟩

theorem TurnOk.attempt (hw : Good cfg w) {reply : Reply} {next : Except RunnerError Outcome → Phase}
    (htgt : target op = some (cfg.supervisor, c.action.id))
    (hrows : ∀ out a, op.recorded out = some a → a.seq = cfg.seqOf a.id)
    (hfrz : Honest cfg w.log op)
    (herror : ∀ err, (next (.error err)).Ok cfg w.log w.effects c.action.id)
    (hok : ∀ db out, op.run cfg.codec w.db = .ok (db, out) →
      Durable cfg db (w.log ++ [.committed w.db op out]) →
      (next (.ok out)).Ok cfg (w.log ++ [.committed w.db op out]) w.effects c.action.id)
    (hlock : ∀ result, (next result).holdsBoundary = true → c.phase.holdsBoundary = true) :
    TurnOk cfg w (w.attempt cfg op reply).1 c
      { c with phase := next (w.attempt cfg op reply).2 } := by
  have hresv : ∀ out, (Event.committed w.db op out).reserves cfg.processID = false := by
    intro out
    cases op <;> first | rfl | cases htgt
  obtain ⟨db, e, heq, he, hdur, hout⟩ := attempt_ok hw.durable reply
    ⟨hresv, fun _ out a _ h _ => hrows out a h, hfrz⟩
  rw [heq]
  refine ⟨rfl, hdur, .inr ⟨e, he, rfl⟩, ?_, fun h => .inl (hlock _ h), .inl rfl, .inl rfl⟩
  cases hresult : (w.attempt cfg op reply).2 with
  | error err => exact (herror err).concat he
  | ok out =>
    obtain ⟨rfl, hrun⟩ := hout out hresult
    exact hok db out hrun hdur

theorem recorded_applyOnce {supervisor : Supervisor} {action : Action}
    (h : (Op.applyOnce supervisor action).recorded out = some a) :
    a = { action with effectCommitted := true } := by
  unfold Op.recorded at h
  split at h
  · rename_i heq
    cases heq
    exact (Option.some.inj h).symm
  · contradiction
  · cases h

theorem recorded_withoutEffect {supervisor : Supervisor} {action : Action}
    (h : (Op.recordActionWithoutEffect supervisor action report newReportID).recorded out = some a) :
    a = { action with effectCommitted := false } := by
  unfold Op.recorded at h
  split at h
  · contradiction
  · rename_i heq
    cases heq
    exact (Option.some.inj h).symm
  · cases h

section
variable (hw : Good cfg w)
include hw

theorem mem_of_returned (htgt : target op = some (cfg.supervisor, actionID))
    (hrun : op.run cfg.codec w.db = .ok (db, out)) {r : Report} (hr : out.evidence = some r) :
    r ∈ frozenReports cfg.processID (w.log ++ [.committed w.db op out]) ∧ r.actionID = actionID := by
  obtain ⟨-, ⟨supervisor, targetID, heq, hproc, hact, hkind⟩, -⟩ :=
    run_returned hw.durable.inv hrun hr (.inr (by simp [htgt]))
  cases heq.symm.trans htgt
  exact ⟨mem_frozenReports_concat.2 (.inr (evidence_committed.2 ⟨hr, hkind, hproc⟩)), hact⟩

/-- An action that is returned for execution was not executed before. -/
theorem executing_ok (hdur : Durable cfg db (w.log ++ [.committed w.db op out]))
    (ha : (Event.committed w.db op out).executed cfg.processID = some a) :
    Phase.Ok cfg (w.log ++ [.committed w.db op out]) w.effects a.id .executing := by
  have hnd := hdur.nodup
  rw [executedIDs_append, nodup_append] at hnd
  have hnew : a.id ∉ executedIDs cfg.processID w.log := fun hmem =>
    hnd.2.2 a.id hmem a.id (by simp [executedIDs, ha]) rfl
  refine ⟨mem_executedIDs_concat.2 (.inr ⟨a, ha, rfl⟩), fun h => hnew (hw.executed _ h), ?_⟩
  have hfr : Fresh cfg.processID w.log a.id := by
    rintro pre post hlog hmem
    rw [hlog, executedIDs_append] at hnew
    exact hnew (mem_append_left _ hmem)
  exact hfr.concat (by simp)

theorem afterApply_ok (hop : op = .applyOnce cfg.supervisor (cfg.localAction action))
    (hrun : op.run cfg.codec w.db = .ok (db, out))
    (hdur : Durable cfg db (w.log ++ [.committed w.db op out])) :
    (cfg.afterApply action (.ok out)).Ok cfg (w.log ++ [.committed w.db op out]) w.effects
      action.id := by
  subst hop
  unfold Config.afterApply
  split
  · contradiction
  · rename_i heq
    cases heq
    exact executing_ok hw hdur (a := cfg.localAction action) (if_pos rfl)
  · rename_i heq
    cases heq
    exact mem_of_returned hw rfl hrun rfl
  · trivial
  · exact freezeActionResult_ok (.inl rfl)
  · trivial
  · split <;> trivial
  · trivial

theorem finishNoEffectDecision_ok (htgt : target op = some (cfg.supervisor, action.id))
    (hrun : op.run cfg.codec w.db = .ok (db, out)) :
    (cfg.finishNoEffectDecision action (.ok out)).Ok cfg (w.log ++ [.committed w.db op out]) w.effects
      action.id := by
  unfold Config.finishNoEffectDecision
  split
  · contradiction
  · rename_i heq
    cases heq
    exact mem_of_returned hw htgt hrun rfl
  · rename_i heq
    cases heq
    exact mem_of_returned hw htgt hrun rfl
  · trivial
  · exact freezeActionResult_ok (.inl rfl)
  · trivial
  · trivial
  · trivial

theorem retrySupervisorStateWrite_ok {canceled : Bool}
    (htgt : target op = some (cfg.supervisor, actionID))
    (hrun : op.run cfg.codec w.db = .ok (db, out)) :
    (retrySupervisorStateWrite report canceled (.ok out)).Ok cfg
      (w.log ++ [.committed w.db op out]) w.effects actionID := by
  unfold retrySupervisorStateWrite
  split
  · rename_i heq
    cases heq
    exact mem_of_returned hw htgt hrun rfl
  · trivial
  · contradiction

variable (hc : c ∈ w.calls)
include hc

theorem TurnOk.apply (hph : c.phase = .applying)
    (hop : op = .applyOnce cfg.supervisor (cfg.localAction c.action)) (reply : Reply) :
    TurnOk cfg w (w.attempt cfg op reply).1 c
      { c with phase := cfg.afterApply c.action (w.attempt cfg op reply).2 } := by
  refine .attempt hw (by rw [hop]; rfl) (fun out a hrec => ?_) (by simp [Honest, hop]) (fun _ => trivial)
    (fun db out hrun hdur => afterApply_ok hw hop hrun hdur) fun _ _ => by rw [hph]; rfl
  rw [hop] at hrec
  rw [recorded_applyOnce hrec]
  exact hw.seq c hc

theorem TurnOk.record (hph : c.phase = .recording report)
    (hop : op = .recordActionWithoutEffect cfg.supervisor (cfg.localAction c.action) report newReportID)
    (reply : Reply) :
    TurnOk cfg w (w.attempt cfg op reply).1 c
      { c with phase := cfg.finishNoEffectDecision c.action (w.attempt cfg op reply).2 } := by
  have htgt : target op = some (cfg.supervisor, c.action.id) := by rw [hop]; rfl
  refine .attempt hw htgt (fun out a hrec => ?_) (by simp [Honest, hop]) (fun _ => trivial)
    (fun db out hrun _ => finishNoEffectDecision_ok hw htgt hrun) fun _ _ => by rw [hph]; rfl
  rw [hop] at hrec
  rw [recorded_withoutEffect hrec]
  exact hw.seq c hc

theorem TurnOk.freeze (hph : c.phase = .freezing report)
    (hop : op = .freezeActionReport cfg.supervisor c.action.id report newReportID) (reply : Reply)
    (canceled : Bool) :
    TurnOk cfg w (w.attempt cfg op reply).1 c
      { c with phase := retrySupervisorStateWrite report canceled (w.attempt cfg op reply).2 } := by
  have hcall := hw.calls c hc
  rw [hph] at hcall
  have htgt : target op = some (cfg.supervisor, c.action.id) := by rw [hop]; rfl
  refine .attempt hw htgt (by simp [hop, Op.recorded]) ?_ (fun err => ?_)
    (fun db out hrun _ => retrySupervisorStateWrite_ok hw htgt hrun)
    (by simp [holdsBoundary_retrySupervisorStateWrite])
  · rw [hop]
    rintro _ _ _ _ ⟨⟩ -
    exact hcall
  · -- the report is written again
    simp only [retrySupervisorStateWrite]
    split
    · trivial
    · exact hcall

theorem TurnOk.effect (hph : c.phase = .executing) (result : ProcessActionResult) :
    TurnOk cfg w { w with effects := w.effects ++ [c.action.id] } c
      { c with phase := cfg.freezeActionResult c.action result } := by
  have hcall := hw.calls c hc
  rw [hph] at hcall
  refine ⟨rfl, hw.durable, .inl rfl, freezeActionResult_ok (.inr hcall.2.2), ?_,
    .inr ⟨hph, holdsBoundary_freezeActionResult, rfl⟩, .inl rfl⟩
  simp [holdsBoundary_freezeActionResult]

theorem turn_ok {turn : Turn} (h : c.turn cfg w turn = some (w', c')) : TurnOk cfg w w' c c' := by
  have hcall := hw.calls c hc
  cases turn with
  | preflight =>
    simp only [Call.turn] at h
    split at h
    · cases h
      exact .silent hw _ _ runApplyOnce_ok (by simp [holdsBoundary_runApplyOnce])
    · cases h
  | lock =>
    simp only [Call.turn] at h
    split at h
    · cases h
    · rename_i hfree
      rw [Bool.not_eq_true] at hfree
      split at h
      · split at h
        · cases h
          exact .silent hw _ _ trivial nofun
        · cases h
          exact .silent hw _ _ trivial fun _ => .inr hfree
      · cases h
        exact .silent hw _ _ trivial fun _ => .inr hfree
      · cases h
  | apply reply =>
    simp only [Call.turn] at h
    split at h
    · cases h
      exact .apply hw hc ‹_› rfl reply
    · cases h
  | effect live =>
    simp only [Call.turn] at h
    split at h
    · cases h
      exact .effect hw hc ‹_› _
    · cases h
  | record newReportID reply =>
    simp only [Call.turn] at h
    split at h
    · cases h
      exact .record hw hc ‹_› rfl reply
    · cases h
  | freeze newReportID reply canceled =>
    simp only [Call.turn] at h
    split at h
    · cases h
      exact .freeze hw hc ‹_› rfl reply canceled
    · cases h
  | finish | leave =>
    simp only [Call.turn] at h
    split at h
    · cases h
      exact .silent hw _ _ hcall .inl
    · cases h
  | respond =>
    simp only [Call.turn] at h
    split at h
    · rename_i result callers hph hcallers
      cases h
      exact ⟨rfl, hw.durable, .inl rfl, hcall, .inl, .inl rfl, .inr ⟨result, hph, rfl⟩⟩
    · cases h

end

section
variable (h : TurnOk cfg w w' c c')
include h

/-- What a turn leaves in the log, at most one event that is no crash, keeps the phases of the other
calls. -/
theorem TurnOk.keeps {phase : Phase} (hph : phase.Ok cfg w.log w.effects actionID)
    (hoth : c.phase.holdsBoundary = true → phase.holdsBoundary = false) :
    phase.Ok cfg w'.log w'.effects actionID := by
  have hlog : phase.Ok cfg w'.log w.effects actionID := by
    obtain hlog | ⟨e, he, hlog⟩ := h.later
    · rw [hlog]
      exact hph
    · rw [hlog]
      exact hph.concat he
  obtain heffs | ⟨hexec, -, -⟩ := h.effects
  · rw [heffs]
    exact hlog
  · -- the call that has just applied its action held the lock
    refine hlog.of_ne_executing fun hne => ?_
    have := hoth (by rw [hexec]; rfl)
    rw [hne] at this
    cases this

theorem TurnOk.append : ∃ events, w'.log = w.log ++ events := by
  obtain hlog | ⟨e, -, hlog⟩ := h.later
  · exact ⟨[], by simp [hlog]⟩
  · exact ⟨[e], hlog⟩

theorem TurnOk.frozenReports {r : Report} (hr : r ∈ frozenReports cfg.processID w.log) :
    r ∈ Runner.frozenReports cfg.processID w'.log := by
  obtain ⟨events, hlog⟩ := h.append
  rw [hlog, frozenReports_append]
  exact mem_append_left _ hr

theorem TurnOk.executedIDs (hid : actionID ∈ executedIDs cfg.processID w.log) :
    actionID ∈ Runner.executedIDs cfg.processID w'.log := by
  obtain ⟨events, hlog⟩ := h.append
  rw [hlog, executedIDs_append]
  exact mem_append_left _ hid

end

theorem set_split {α : Type} {l : List α} {i : Nat} {x : α} (h : l[i]? = some x) (y : α) :
    ∃ pre post, l = pre ++ x :: post ∧ l.set i y = pre ++ y :: post := by
  obtain ⟨hi, rfl⟩ := List.getElem?_eq_some_iff.1 h
  obtain ⟨pre, post, hl, -, hset⟩ := exists_of_set hi
  exact ⟨pre, post, hl, hset⟩

section
variable {i : Nat} (hw : Good cfg w) (hc : w.calls[i]? = some c) (h : TurnOk cfg w w' c c')
include hw hc

/-- The calls after a turn: the one whose turn it was, and others, which do not hold the lock if that
one did. -/
theorem Good.others (c' : Call) : ∀ d ∈ w.calls.set i c', d = c' ∨ d ∈ w.calls ∧
    (c.phase.holdsBoundary = true → d.phase.holdsBoundary = false) := by
  obtain ⟨pre, post, hcalls, hset⟩ := set_split hc c'
  intro d hd
  rw [hset, mem_append, mem_cons] at hd
  have hd' : d = c' ∨ d ∈ pre ++ post := by
    rw [mem_append]
    tauto
  refine hd'.imp_right fun hd => ⟨?_, fun hheld => ?_⟩
  · rw [hcalls]
    exact ((sublist_cons_self c post).append_left pre).subset hd
  · have hlock := hw.lock
    rw [hcalls, countP_append, countP_cons, if_pos hheld] at hlock
    have hnone : (pre ++ post).countP (·.phase.holdsBoundary) = 0 := by
      rw [countP_append]
      omega
    simpa using countP_eq_zero.1 hnone d hd

include h

theorem Good.lock_turn : (w.calls.set i c').countP (·.phase.holdsBoundary) ≤ 1 := by
  obtain ⟨pre, post, hcalls, hset⟩ := set_split hc c'
  have hlock := hw.lock
  rw [hcalls, countP_append, countP_cons] at hlock
  rw [hset, countP_append, countP_cons]
  by_cases hheld' : c'.phase.holdsBoundary = true
  · obtain hheld | hfree := h.lock hheld'
    · simpa [hheld, hheld'] using hlock
    · -- the lock was free
      have hnone : w.calls.countP (·.phase.holdsBoundary) = 0 :=
        countP_eq_zero.2 (by simpa [World.boundaryHeld] using hfree)
      rw [hcalls, countP_append, countP_cons] at hnone
      split <;> omega
  · rw [if_neg hheld']
    omega

theorem Good.effects_turn :
    w'.effects.Nodup ∧ ∀ actionID ∈ w'.effects, actionID ∈ executedIDs cfg.processID w'.log := by
  obtain heffs | ⟨hexec, -, heffs⟩ := h.effects
  · rw [heffs]
    exact ⟨hw.effects, fun _ hid => h.executedIDs (hw.executed _ hid)⟩
  · have hcall := hw.calls c (mem_of_getElem? hc)
    rw [hexec] at hcall
    rw [heffs, nodup_append]
    refine ⟨⟨hw.effects, nodup_singleton _, ?_⟩, ?_⟩
    · rintro actionID hid _ hlast rfl
      rw [mem_singleton.1 hlast] at hid
      exact hcall.2.1 hid
    · intro actionID hid
      rw [mem_append, mem_singleton] at hid
      obtain hid | rfl := hid
      · exact h.executedIDs (hw.executed _ hid)
      · exact h.executedIDs hcall.1

theorem Good.responses_turn : ∀ actionID r, (actionID, .ok (some r)) ∈ w'.responses →
    r ∈ frozenReports cfg.processID w'.log ∧ r.actionID = actionID := by
  intro actionID r hr
  obtain hresps | ⟨result, hfinished, hresps⟩ := h.responses
  · exact (hw.responses _ _ (hresps ▸ hr)).imp_left h.frozenReports
  · have hcall := hw.calls c (mem_of_getElem? hc)
    rw [hfinished] at hcall
    rw [hresps, mem_append, mem_singleton] at hr
    obtain hr | hr := hr
    · exact (hw.responses _ _ hr).imp_left h.frozenReports
    · cases hr
      exact hcall.imp_left h.frozenReports

theorem Good.turn : Good cfg { w' with calls := w.calls.set i c' } := by
  obtain ⟨heffs, hexecuted⟩ := hw.effects_turn hc h
  have hresps := hw.responses_turn hc h
  refine ⟨h.durable, ?_, ?_, hw.lock_turn hc h, heffs, hexecuted, hresps⟩
  · intro d hd
    obtain rfl | ⟨hd, -⟩ := hw.others hc c' d hd
    · rw [h.action]
      exact hw.seq c (mem_of_getElem? hc)
    · exact hw.seq d hd
  · intro d hd
    obtain rfl | ⟨hd, hoth⟩ := hw.others hc c' d hd
    · rw [h.action]
      exact h.phase
    · exact h.keeps (hw.calls d hd) hoth

end

end Turns

/-! ## Moves -/

theorem registerCall_ok {calls calls' : List Call} (h : registerCall action calls = .ok calls') :
    calls'.countP (·.phase.holdsBoundary) = calls.countP (·.phase.holdsBoundary) ∧
    ∀ c' ∈ calls', c' = { action } ∨ ∃ c ∈ calls, c'.action = c.action ∧ c'.phase = c.phase := by
  induction calls generalizing calls' with
  | nil =>
    cases h
    exact ⟨rfl, fun c' hc' => .inl (mem_singleton.1 hc')⟩
  | cons c calls ih =>
    unfold registerCall at h
    split at h
    · split at h
      · cases h
      · cases h
        refine ⟨by simp [countP_cons], fun c' hc' => .inr ?_⟩
        obtain rfl | hc' := mem_cons.1 hc'
        · exact ⟨c, mem_cons_self, rfl, rfl⟩
        · exact ⟨c', mem_cons_of_mem _ hc', rfl, rfl⟩
    · obtain ⟨rest, hrest, rfl⟩ := Fallible.map_eq_ok.1 h
      obtain ⟨hcnt, hmem⟩ := ih hrest
      refine ⟨by simp [countP_cons, hcnt], fun c' hc' => ?_⟩
      obtain rfl | hc' := mem_cons.1 hc'
      · exact .inr ⟨c', mem_cons_self, rfl, rfl⟩
      · refine (hmem c' hc').imp_right ?_
        rintro ⟨d, hd, hsame⟩
        exact ⟨d, mem_cons_of_mem _ hd, hsame⟩

section
variable {w w' : World}

theorem Good.request (hw : Good cfg w) {calls : List Call} (hseq : action.seq = cfg.seqOf action.id)
    (h : actionCall action w.calls = .ok calls) :
    Good cfg { w with calls } := by
  unfold actionCall at h
  split at h
  · cases h
  · obtain ⟨hcnt, hmem⟩ := registerCall_ok h
    refine ⟨hw.durable, ?_, ?_, hcnt ▸ hw.lock, hw.effects, hw.executed, hw.responses⟩
    · intro c' hc'
      obtain rfl | ⟨c, hc, hact, -⟩ := hmem c' hc'
      · exact hseq
      · exact hact ▸ hw.seq c hc
    · intro c' hc'
      obtain rfl | ⟨c, hc, hact, hph⟩ := hmem c' hc'
      · trivial
      · rw [hact, hph]
        exact hw.calls c hc

theorem Good.attempt (hw : Good cfg w) {op : Op} (reply : Reply)
    (hop : Harmless cfg w op) : Good cfg (w.attempt cfg op reply).1 := by
  obtain ⟨db, e, heq, he, hdur, -⟩ := attempt_ok hw.durable reply hop
  rw [heq]
  exact ⟨hdur, hw.seq, fun c hc => (hw.calls c hc).concat he, hw.lock, hw.effects,
    fun _ hid => mem_executedIDs_concat.2 (.inl (hw.executed _ hid)),
    fun _ _ hr => (hw.responses _ _ hr).imp_left fun h => mem_frozenReports_concat.2 (.inl h)⟩

theorem Good.step (hw : Good cfg w) {move : Move} (h : w.step cfg move = some w') : Good cfg w' := by
  cases move with
  | request action =>
    simp only [World.step] at h
    split at h
    · rename_i hcond
      split at h
      · cases h
        exact hw.request hcond.2 ‹_›
      · cases h
        exact hw
    · cases h
  | turn i turn =>
    simp only [World.step, bind, Option.bind_eq_some_iff, pure, Option.some.injEq, Prod.exists] at h
    obtain ⟨c, hc, w₁, c', hturn, rfl⟩ := h
    exact hw.turn hc (turn_ok hw (mem_of_getElem? hc) hturn)
  | exhaustStorage =>
    simp only [World.step] at h
    split at h
    · cases h
    · cases h
      exact ⟨hw.durable, hw.seq, hw.calls, hw.lock, hw.effects, hw.executed, hw.responses⟩
  | crash =>
    cases h
    exact ⟨hw.durable.crash, forall_mem_nil _, forall_mem_nil _, Nat.zero_le _, hw.effects,
      fun _ hid => mem_executedIDs_concat.2 (.inl (hw.executed _ hid)),
      fun _ _ hr => (hw.responses _ _ hr).imp_left fun h => mem_frozenReports_concat.2 (.inl h)⟩
  | restart =>
    cases h
    exact ⟨hw.durable, hw.seq, hw.calls, hw.lock, hw.effects, hw.executed, hw.responses⟩
  | recover actionID newReportID reply =>
    simp only [World.step] at h
    split at h
    · cases h
    · simp only [bind, Option.bind_eq_some_iff, pure, Option.some.injEq] at h
      obtain ⟨report, hrep, rfl⟩ := h
      refine hw.attempt reply ⟨fun _ => rfl, (fun _ _ _ _ hrec => nomatch hrec), ?_⟩
      rintro _ _ _ _ ⟨⟩ -
      exact .inl (actionReport_unknown hrep rfl)
  | other op reply =>
    simp only [World.step] at h
    split at h
    · cases h
    · rename_i hcond
      cases h
      rw [not_or] at hcond
      obtain ⟨htgt, hresv⟩ := hcond
      refine hw.attempt reply ⟨fun out => ?_, ?_, ?_⟩
      · rw [← Bool.not_eq_true]
        cases op <;> exact hresv
      · intro db out a hrun hrec hproc
        obtain ⟨supervisor, hop, hsame⟩ := recorded_target hrun hrec
        simp [hop, ← hsame, hproc] at htgt
      · rintro supervisor actionID report newReportID rfl hproc
        simp [target, hproc] at htgt

theorem World.Reachable.good {w : World} (h : World.Reachable cfg w) : Good cfg w := by
  refine Reach.Reachable.invariant (P := Good cfg) ?_ ?_ h
  · rintro w ⟨hdb, hidle, hw⟩
    rw [hw]
    exact ⟨.start hdb hidle, forall_mem_nil _, forall_mem_nil _, Nat.zero_le _,
      nodup_nil, nofun, nofun⟩
  · rintro w w' hw ⟨move, hstep⟩
    exact hw.step hstep

end

/-- **Actions of a supervisor.** Whatever requests, turns of their calls, failed and unconfirmed writes,
crashes, restarts and recoveries happen in whatever order: `applyLiveAction` is called at most once for
an action; the frozen report that a caller's success stands for is the only one there ever was for the
action; and an action that was returned for execution before a crash and had no report then is reported
after it only as unknown. -/
theorem reachable_actionServer {cfg : Config} {w : World} (hw : World.Reachable cfg w) :
    w.effects.Nodup ∧
    (∀ actionID r, (actionID, .ok (some r)) ∈ w.responses → r ∈ frozenReports cfg.processID w.log ∧
      ∀ r' ∈ frozenReports cfg.processID w.log, r'.actionID = actionID → r' = r) ∧
    ∀ pre post, w.log = pre ++ .crash :: post → ∀ actionID ∈ executedIDs cfg.processID pre,
      (∀ r ∈ frozenReports cfg.processID pre, r.actionID ≠ actionID) →
      ∀ r ∈ frozenReports cfg.processID post, r.actionID = actionID →
        ∃ event, cfg.codec.event r.body = some event ∧ event.type = .processActionUnknown := by
  have hgood := hw.good
  refine ⟨hgood.effects, fun actionID r hr => ?_, hgood.durable.unknown⟩
  obtain ⟨hmem, haction⟩ := hgood.responses actionID r hr
  exact ⟨hmem, fun r' hr' haction' => hgood.durable.agree r' hr' r hmem (haction'.trans haction.symm)⟩

/-- The server of the process of `sampleRun`. -/
def sampleConfig : Config where
  processID := "proc"
  supervisorInstanceID := "instance"
  ioMode := .pipe
  codec := sampleCodec
  marshal event :=
    match event.type with
    | .processActionApplied => some appliedBody
    | .processActionUnknown => some unknownBody
    | _ => none
  marshal_type event body h := by
    have happlied : ∃ decoded ∈ decodeSampleEvent appliedBody, decoded.type = .processActionApplied := by
      decide +kernel
    have hunknown : ∃ decoded ∈ decodeSampleEvent unknownBody, decoded.type = .processActionUnknown := by
      decide +kernel
    split at h
    · rename_i htype
      obtain rfl := Option.some.inj h
      exact htype ▸ happlied
    · rename_i htype
      obtain rfl := Option.some.inj h
      exact htype ▸ hunknown
    · cases h
  decodeWriteObject payload :=
    match Json.decode payload >>= Json.structMembers with
    | some members => .ok { data := (Json.stringField members "data").getD [] }
    | none => .error "payload must be a JSON object"
  decodeEmptyPayload payload :=
    if Json.decode payload = some (.obj []) then .ok () else .error "payload must be a JSON object"
  seqOf _ := 3

/-- Two callers ask for an action and the supervisor crashes after applying it; after the restart a
third caller is told that the outcome is unknown. -/
def sampleMoves : List Move :=
  let payload := Json.ascii r#"{"data":"a"}"#
  let request : Move := .request { actionKind := .write, seq := 3, payload, id := "act" }
  [request, request, .turn 0 .preflight, .turn 0 .lock, .turn 0 (.apply .answered),
    .turn 0 (.effect (some {})), .crash, .restart, request, .turn 0 .preflight, .turn 0 .lock,
    .turn 0 (.apply .answered), .turn 0 (.freeze "rpt_1" .answered false), .turn 0 .respond]

theorem reachable_actionServer_crashed :
    ∃ w, World.Reachable sampleConfig w ∧ w.effects = ["act"] ∧ w.effects.Nodup ∧
      w.responses.map Prod.fst = ["act"] ∧
      ∀ actionID r, (actionID, .ok (some r)) ∈ w.responses → r ∈ frozenReports "proc" w.log := by
  obtain ⟨h, hh, hidle, w, hw, heffects, hresponses⟩ :
      ∃ h ∈ (sampleHistory (sampleRun.take 5)).toOption,
        (∀ a ∈ h.db.actions.rows, a.processID ≠ "proc") ∧
        ∃ w ∈ World.run sampleConfig { db := h.db } sampleMoves, w.effects = ["act"] ∧
          w.responses.map Prod.fst = ["act"] := by decide +kernel
  have hstart : World.Reachable sampleConfig { db := h.db } :=
    .start ⟨(reachable_of_sampleHistory (Fallible.mem_toOption hh)).db, hidle, rfl⟩
  have hreach := hstart.run _ (Option.mem_def.1 hw)
  obtain ⟨hnodup, hagree, -⟩ := reachable_actionServer hreach
  exact ⟨w, hreach, heffects, hnodup, hresponses, fun actionID r hr => (hagree actionID r hr).1⟩

end Runner
