import Omnara.Runner.ActionServer
import Omnara.StateDb.Proof.AtMostOnce
import Omnara.StateDb.Proof.Evidence

/-!
# What the log of a supervisor says about its reports

`run_returned` says where the report that an operation returns comes from: it was frozen before, or the
operation froze it. With it `Durable` is kept by every operation (`Durable.commit`): a report that was
returned once is in the database until the frontier has moved over its action, so all that is ever
returned for one action is one report; and an action that had no report when the supervisor crashed is
reported afterwards only by those who know nothing of its outcome.
-/

namespace Runner

open StateDb Fallible List

variable {actionID : String}

section Returned
variable {codec : Codec} {db db' : Db} {op : Op} {out : Outcome}

variable {r report : Report} {supervisor : Supervisor} {action : Action} {newReportID : String}

theorem Continues.asFrozen {r' : Report} (h : r.Continues r') : r'.asFrozen = r.asFrozen := by
  obtain ⟨hid, ⟨hproc, hact, hkind⟩, hbody, -⟩ := h
  simp only [Report.asFrozen, hid, hproc, hact, hkind, hbody]

/-- The report that was found by the id of an action whose row has the identity of the action. -/
theorem inSlot_of_existing (hinv : Inv codec db) {p : Process} {row : Action}
    (hload : db.loadActionTransitionTx supervisor action = .ok (p, some row))
    (hproc : action.processID = supervisor.processID)
    (hr : db.reportByActionTx action.id = some r) :
    r ∈ db.reports ∧ r.InSlot .actionTerminal supervisor.processID action.id := by
  obtain ⟨-, hrow, hsame⟩ := loadActionTransitionTx_ok hload
  obtain ⟨hrow, hid⟩ := Db.actionTx_eq_some.1 hrow.symm
  have hne := Action.id_ne_of_check (hinv.actionOk row hrow)
  have hident := hsame row rfl
  simp only [Db.sameActionIdentity, Bool.and_eq_true, decide_eq_true_eq] at hident
  obtain ⟨hr, hof⟩ := Db.reportByActionTx_some hr
  rw [← hid] at hof
  have hact := (Report.ofAction_iff hne).1 hof
  have hkind := (Report.kind_eq_iff (hinv.reportOk r hr)).2 (hact ▸ hne)
  obtain ⟨b, hb, hbid, hbproc⟩ := hinv.reportAction r hr hkind
  have hbrow : b = row := Table.eq_of_key hb hrow (hbid.trans hact)
  refine ⟨hr, ?_, hact.trans hid, hkind⟩
  rw [← hbproc, hbrow, hident.1.1.2, hproc]

theorem applyOnce_returned (hinv : Inv codec db)
    (h : db.applyOnce supervisor action = .ok (db', .alreadyReported r)) :
    r ∈ db.reports ∧ r.InSlot .actionTerminal supervisor.processID action.id ∧ db' = db := by
  unfold Db.applyOnce Db.validateAction at h
  simp only [bind_eq_ok, ensure_eq_ok, Prod.exists] at h
  obtain ⟨-, ⟨-, hproc, -⟩, p, existing, hload, h⟩ := h
  obtain ⟨⟨hp, -, -⟩, -, -⟩ := loadActionTransitionTx_ok hload
  obtain ⟨rfl, ⟨row, report, rfl, hrep, hd⟩ | hd | hd | hd⟩ | ⟨-, -, ⟨-, hd⟩ | ⟨-, h⟩⟩ :=
    transition_ok hinv hp h
  · cases hd
    obtain ⟨hr, hslot⟩ := inSlot_of_existing hinv hload hproc hrep
    exact ⟨hr, hslot, rfl⟩
  iterate 4 cases hd
  simp only [bind_eq_ok] at h
  obtain ⟨⟨⟩, -, db₁, -, hd⟩ := h
  cases hd

theorem recordActionWithoutEffect_returned (hinv : Inv codec db) {decision : NoEffectDecision}
    (h : db.recordActionWithoutEffect codec supervisor action report newReportID =
      .ok (db', decision)) (hd : decision = .alreadyReported r ∨ decision = .recorded r) :
    r.InSlot .actionTerminal supervisor.processID action.id ∧ r ∈ db'.reports ∧
      (r ∈ db.reports ∨ decision = .recorded r ∧ action.processID = r.processID) := by
  have hch := recordActionWithoutEffect_change hinv h
  unfold Db.recordActionWithoutEffect Db.validateAction at h
  simp only [bind_eq_ok, ensure_eq_ok, Prod.exists] at h
  obtain ⟨-, ⟨-, hproc, -⟩, -, -, p, existing, hload, h⟩ := h
  obtain ⟨⟨hp, -, -⟩, -, -⟩ := loadActionTransitionTx_ok hload
  obtain rfl | rfl := hd
  · obtain ⟨rfl, ⟨row, report, rfl, hrep, hd⟩ | hd | hd | hd⟩ | ⟨-, -, ⟨-, hd⟩ | ⟨-, h⟩⟩ :=
      transition_ok hinv hp h
    · cases hd
      obtain ⟨hr, hslot⟩ := inSlot_of_existing hinv hload hproc hrep
      exact ⟨hslot, hr, .inl hr⟩
    iterate 4 cases hd
    simp only [bind_eq_ok, Prod.exists] at h
    obtain ⟨⟨⟩, -, db₁, -, db₂, frozen, -, hd⟩ := h
    cases hd
  · cases hch with
    | unchanged hq | updated _ _ _ hq | compacted _ _ _ _ hq => cases hq.records
    | withoutEffect _ _ _ _ _ _ _ _ hkind hrproc hraction _ hins =>
      exact ⟨⟨hrproc.trans hproc, hraction, hkind⟩, (Table.mem_of_insert hins).2 (.inr rfl),
        .inr ⟨rfl, hrproc.symm⟩⟩

theorem freezeActionReport_returned
    (h : db.freezeActionReport codec supervisor actionID report newReportID = .ok (db', r)) :
    r.InSlot .actionTerminal supervisor.processID actionID ∧ r ∈ db'.reports ∧
      r.body = report.body := by
  unfold Db.freezeActionReport Db.validateActionReportInput at h
  simp only [bind_eq_ok, ensure_eq_ok] at h
  obtain ⟨-, ⟨hrproc, hraction, hrkind⟩, -, -, h⟩ := h
  split at h
  · cases h
  · obtain ⟨-, -, h⟩ := bind_eq_ok.1 h
    split at h
    · obtain ⟨-, ⟨hr, ⟨hp, ha, hk⟩, hbody, rfl⟩ | ⟨-, -, -, rfl, hins⟩⟩ := Db.freezeReportTx_ok h
      · exact ⟨⟨hp.trans hrproc, ha.trans hraction, hk.trans hrkind⟩, hr, hbody⟩
      · obtain ⟨reports, hreps, -, -, -, rfl⟩ := Db.insertFrozenReport_ok hins
        exact ⟨⟨hrproc, hraction, hrkind⟩, (Table.mem_of_insert hreps).2 (.inr rfl), rfl⟩
    · split at h
      · rename_i existing hex
        cases h
        obtain ⟨hfound, hsame⟩ := Option.filter_eq_some_iff.1 hex
        simp only [sameReportContent, Bool.and_eq_true, decide_eq_true_eq] at hsame
        obtain ⟨⟨⟨hp, ha⟩, hk⟩, hbody⟩ := hsame
        exact ⟨⟨hp.trans hrproc, ha.trans hraction, hk.trans hrkind⟩,
          (Db.reportByActionTx_some hfound).1, hbody⟩
      · cases h

theorem kind_of_freezeReportTx {frozen : Report}
    (h : db.freezeReportTx codec newReportID report = .ok (db', frozen)) :
    frozen.kind = report.kind := by
  obtain ⟨-, ⟨-, -, hkind⟩, -⟩ | ⟨-, ⟨-, -, hkind⟩, -⟩ := freezable_of_freezeReportTx h
  · exact hkind
  · exact hkind

/-- Where a report of an action that an operation returns comes from. -/
structure Returned (db db' : Db) (op : Op) (out : Outcome) (r : Report) : Prop where
  mem : ∃ r' ∈ db'.reports, r'.asFrozen = r
  slot : ∃ supervisor actionID, target op = some (supervisor, actionID) ∧
    r.InSlot .actionTerminal supervisor.processID actionID
  origin : (∃ r' ∈ db.reports, r'.asFrozen = r) ∨
    (∃ supervisor actionID report newReportID,
      op = .freezeActionReport supervisor actionID report newReportID ∧ r.body = report.body) ∨
    ∃ action, op.recorded out = some action ∧ action.id = r.actionID ∧
      action.processID = r.processID

theorem run_returned (hinv : Inv codec db) (hrun : op.run codec db = .ok (db', out))
    (hr : out.evidence = some r) (hkind : r.kind = .actionTerminal ∨ (target op).isSome = true) :
    Returned db db' op out r := by
  have hdone : ∀ {result : Except Error Db}, ¬ done result = .ok (db', out) := by
    intro result h
    obtain ⟨-, rfl⟩ := done_ok h
    cases hr
  cases op with
  | applyOnce supervisor action =>
    obtain ⟨⟨db₁, decision⟩, h, heq⟩ := map_eq_ok.1 hrun
    cases heq
    cases decision with
    | alreadyReported report =>
      cases hr
      obtain ⟨hmem, hslot, rfl⟩ := applyOnce_returned hinv h
      exact ⟨⟨report, hmem, rfl⟩, ⟨supervisor, action.id, rfl, hslot⟩, .inl ⟨report, hmem, rfl⟩⟩
    | _ => cases hr
  | recordActionWithoutEffect supervisor action =>
    obtain ⟨⟨db₁, decision⟩, h, heq⟩ := map_eq_ok.1 hrun
    cases heq
    obtain ⟨q, rfl, hd⟩ : ∃ q : Report, r = q.asFrozen ∧
        (decision = .alreadyReported q ∨ decision = .recorded q) := by
      cases decision with
      | alreadyReported q => exact ⟨q, by cases hr; rfl, .inl rfl⟩
      | recorded q => exact ⟨q, by cases hr; rfl, .inr rfl⟩
      | _ => cases hr
    obtain ⟨hslot, hmem, horigin⟩ := recordActionWithoutEffect_returned hinv h hd
    refine ⟨⟨q, hmem, rfl⟩, ⟨supervisor, action.id, rfl, hslot⟩, ?_⟩
    obtain hold | ⟨rfl, hproc⟩ := horigin
    · exact .inl ⟨q, hold, rfl⟩
    · exact .inr (.inr ⟨{ action with effectCommitted := false }, rfl, hslot.2.1.symm, hproc⟩)
  | freezeActionReport supervisor actionID report newReportID =>
    obtain ⟨⟨db₁, frozen⟩, h, heq⟩ := map_eq_ok.1 hrun
    cases heq
    cases hr
    obtain ⟨hslot, hmem, hbody⟩ := freezeActionReport_returned h
    exact ⟨⟨frozen, hmem, rfl⟩, ⟨supervisor, actionID, rfl, hslot⟩,
      .inr (.inl ⟨supervisor, actionID, report, newReportID, rfl, hbody⟩)⟩
  | freezeStartedReport =>
    obtain ⟨⟨db₁, frozen⟩, h, heq⟩ := map_eq_ok.1 hrun
    cases heq
    cases hr
    unfold Db.freezeStartedReport at h
    simp only [bind_eq_ok, ensure_eq_ok] at h
    obtain ⟨-, ⟨hstd, -⟩, p, -, -, -, hfrz⟩ := h
    cases (hkind.resolve_right nofun).symm.trans ((kind_of_freezeReportTx hfrz).trans hstd)
  | freezeTerminalReport =>
    obtain ⟨⟨db₁, frozen⟩, h, heq⟩ := map_eq_ok.1 hrun
    cases heq
    cases hr
    unfold Db.freezeTerminalReport at h
    simp only [bind_eq_ok, ensure_eq_ok, Prod.exists] at h
    obtain ⟨-, ⟨hterm, -⟩, p, -, -, -, db₂, frozen₂, hfrz, db₃, count, -, heq⟩ := h
    cases heq
    cases (hkind.resolve_right nofun).symm.trans ((kind_of_freezeReportTx hfrz).trans hterm)
  | authorizeSpawnOnce =>
    obtain ⟨⟨db₁, authorized⟩, -, heq⟩ := map_eq_ok.1 hrun
    cases heq
    cases hr
  | _ => exact absurd hrun hdone

/-- What an operation records is an action of its supervisor's process. -/
theorem recorded_target {a : Action} (hrun : op.run codec db = .ok (db', out))
    (hrec : op.recorded out = some a) :
    ∃ supervisor, target op = some (supervisor, a.id) ∧ a.processID = supervisor.processID := by
  unfold Op.recorded at hrec
  split at hrec
  · rename_i supervisor action
    cases hrec
    obtain ⟨⟨db₁, decision⟩, h, -⟩ := map_eq_ok.1 hrun
    unfold Db.applyOnce Db.validateAction at h
    simp only [bind_eq_ok, ensure_eq_ok] at h
    obtain ⟨-, ⟨-, hproc, -⟩, -⟩ := h
    exact ⟨supervisor, rfl, hproc⟩
  · rename_i supervisor action _ _ _
    cases hrec
    obtain ⟨⟨db₁, decision⟩, h, -⟩ := map_eq_ok.1 hrun
    unfold Db.recordActionWithoutEffect Db.validateAction at h
    simp only [bind_eq_ok, ensure_eq_ok] at h
    obtain ⟨-, ⟨-, hproc, -⟩, -⟩ := h
    exact ⟨supervisor, rfl, hproc⟩
  · cases hrec

end Returned

/-! ## Logs -/

/-- The report says that the outcome of its action is unknown. -/
def Config.Unknown (cfg : Config) (r : Report) : Prop :=
  ∃ event, cfg.codec.event r.body = some event ∧ event.type = .processActionUnknown

def Fresh (processID : String) (log : List Event) (actionID : String) : Prop :=
  ∀ pre post, log = pre ++ .crash :: post → actionID ∉ executedIDs processID pre

/-- An outcome that is frozen for an action of the process is unknown, or the action was not executed
before a crash. -/
def Honest (cfg : Config) (log : List Event) (op : Op) : Prop :=
  ∀ supervisor actionID report newReportID,
    op = .freezeActionReport supervisor actionID report newReportID →
    supervisor.processID = cfg.processID → cfg.Unknown report ∨ Fresh cfg.processID log actionID

section
variable {processID : String} {log : List Event} {e : Event}

variable {r : Report}

theorem executedIDs_append (log log' : List Event) :
    executedIDs processID (log ++ log') = executedIDs processID log ++ executedIDs processID log' := by
  simp [executedIDs]

theorem frozenReports_append (log log' : List Event) :
    frozenReports processID (log ++ log') =
      frozenReports processID log ++ frozenReports processID log' := by
  simp [frozenReports]

theorem mem_frozenReports_concat :
    r ∈ frozenReports processID (log ++ [e]) ↔
      r ∈ frozenReports processID log ∨ e.evidence processID = some r := by
  simp [frozenReports]

theorem mem_executedIDs_concat :
    actionID ∈ executedIDs processID (log ++ [e]) ↔
      actionID ∈ executedIDs processID log ∨ ∃ a, e.executed processID = some a ∧ a.id = actionID := by
  simp [executedIDs]

theorem evidence_committed {db : Db} {op : Op} {out : Outcome} :
    (Event.committed db op out).evidence processID = some r ↔
      out.evidence = some r ∧ r.kind = .actionTerminal ∧ r.processID = processID := by
  simp [Event.evidence, Option.filter_eq_some_iff]

theorem of_mem_frozenReports (h : r ∈ frozenReports processID log) :
    r.kind = .actionTerminal ∧ r.processID = processID := by
  obtain ⟨e, -, he⟩ := mem_filterMap.1 h
  cases e with
  | committed => exact (evidence_committed.1 he).2
  | failed => cases he
  | crash => cases he

theorem Fresh.concat (h : Fresh processID log actionID) (he : e ≠ .crash) :
    Fresh processID (log ++ [e]) actionID := by
  intro pre post hsplit
  obtain ⟨-, rfl, -⟩ | ⟨post, -, hlog⟩ := Window.concat_eq_split hsplit
  · exact absurd rfl he
  · exact h pre post hlog

end

/-- What the database remembers of the log since the supervisor was started. -/
structure Durable (cfg : Config) (db : Db) (log : List Event) : Prop where
  inv : Inv cfg.codec db
  remembers : Remembers db cfg.processID log
  rows : ∀ a ∈ db.actions, a.processID = cfg.processID → a.seq = cfg.seqOf a.id
  executed : ∀ a ∈ log.filterMap (·.executed cfg.processID), a.seq = cfg.seqOf a.id
  /-- the reports in the database were returned -/
  backed : ∀ r ∈ db.reports, r.kind = .actionTerminal → r.processID = cfg.processID →
    r.asFrozen ∈ frozenReports cfg.processID log
  /-- a report stays until the frontier moves over its action -/
  kept : ∀ r ∈ frozenReports cfg.processID log, ∀ p ∈ db.processes, p.processID = cfg.processID →
    (∃ r' ∈ db.reports, r'.asFrozen = r) ∨ cfg.seqOf r.actionID ≤ p.resolvedActionSeq
  agree : ∀ r ∈ frozenReports cfg.processID log, ∀ r' ∈ frozenReports cfg.processID log,
    r.actionID = r'.actionID → r = r'
  /-- what was executed and not reported when the supervisor crashed is reported as unknown -/
  unknown : ∀ pre post, log = pre ++ .crash :: post → ∀ actionID ∈ executedIDs cfg.processID pre,
    (∀ r ∈ frozenReports cfg.processID pre, r.actionID ≠ actionID) →
    ∀ r ∈ frozenReports cfg.processID post, r.actionID = actionID → cfg.Unknown r

namespace Durable

variable {cfg : Config} {db db' : Db} {log : List Event} {op : Op} {out : Outcome}

theorem start (hdb : Reachable cfg.codec db) (hidle : ∀ a ∈ db.actions, a.processID ≠ cfg.processID) :
    Durable cfg db [] where
  inv := hdb.inv
  remembers := .nil_of_idle hidle
  rows a ha hid := absurd hid (hidle a ha)
  executed := nofun
  backed r hr hkind hproc := by
    obtain ⟨a, ha, -, haproc⟩ := hdb.inv.reportAction r hr hkind
    exact absurd (haproc.trans hproc) (hidle a ha)
  kept := nofun
  agree := nofun
  unknown pre post h := by simp at h

section
variable (h : Durable cfg db log)
include h

theorem idle {e : Event} (hspawn : e.authorizesSpawn cfg.processID = false)
    (hexec : e.executed cfg.processID = none)
    (hout : ∀ actions, e.outstanding cfg.processID actions = actions)
    (hev : e.evidence cfg.processID = none) : Durable cfg db (log ++ [e]) := by
  have hfz : frozenReports cfg.processID (log ++ [e]) = frozenReports cfg.processID log := by
    simp [frozenReports, hev]
  have hexecuted : (log ++ [e]).filterMap (·.executed cfg.processID) =
      log.filterMap (·.executed cfg.processID) := by simp [hexec]
  refine ⟨h.inv, h.remembers.idle hspawn hexec hout, h.rows, hexecuted ▸ h.executed,
    hfz ▸ h.backed, hfz ▸ h.kept, hfz ▸ h.agree, ?_⟩
  intro pre post hsplit actionID hid hnone r hr
  obtain ⟨-, -, rfl⟩ | ⟨post, rfl, hlog⟩ := Window.concat_eq_split hsplit
  · cases hr
  · rw [mem_frozenReports_concat, hev] at hr
    exact h.unknown pre post hlog actionID hid hnone r (hr.resolve_right nofun)

theorem failed (op : Op) : Durable cfg db (log ++ [.failed op]) :=
  h.idle rfl rfl (fun _ => rfl) rfl

theorem crash : Durable cfg db (log ++ [.crash]) :=
  h.idle rfl rfl (fun _ => rfl) rfl

theorem nodup : (executedIDs cfg.processID log).Nodup := by
  rw [executedIDs, List.Nodup, pairwise_map]
  refine h.remembers.increasing.imp_of_mem fun ha hb hlt heq => ?_
  rw [h.executed _ ha, h.executed _ hb, heq] at hlt
  exact absurd hlt (Int.lt_irrefl _)

end

section
variable (h : Durable cfg db log) (hrun : op.run cfg.codec db = .ok (db', out))
include h hrun

theorem rows_commit (hrows : ∀ a, op.recorded out = some a → a.processID = cfg.processID →
      a.seq = cfg.seqOf a.id) :
    ∀ a ∈ db'.actions, a.processID = cfg.processID → a.seq = cfg.seqOf a.id := by
  intro a ha hid
  have hch := run_change h.inv hrun
  obtain ⟨ha, -⟩ | hrec := (hch.actions h.inv ((hch.inv h.inv).owned a ha)).1 ha
  · exact h.rows a ha hid
  · exact hrows a hrec hid

theorem backed_commit : ∀ r ∈ db'.reports, r.kind = .actionTerminal → r.processID = cfg.processID →
    r.asFrozen ∈ frozenReports cfg.processID (log ++ [.committed db op out]) := by
  intro r hr hkind hproc
  rw [mem_frozenReports_concat, evidence_committed]
  obtain ⟨q, hq, hcont⟩ | ⟨-, hev⟩ := (run_change h.inv hrun).reportBack hr
  · rw [Continues.asFrozen hcont]
    exact .inl (h.backed q hq (hcont.slot.2.2.symm.trans hkind) (hcont.slot.1.symm.trans hproc))
  · exact .inr ⟨hev, hkind, hproc⟩

theorem kept_commit (hresv : (Event.committed db op out).reserves cfg.processID = false) :
    ∀ r ∈ frozenReports cfg.processID (log ++ [.committed db op out]),
      ∀ p' ∈ db'.processes, p'.processID = cfg.processID →
        (∃ r' ∈ db'.reports, r'.asFrozen = r) ∨ cfg.seqOf r.actionID ≤ p'.resolvedActionSeq := by
  intro r hr p' hp' hid'
  have hch := run_change h.inv hrun
  rw [mem_frozenReports_concat, evidence_committed] at hr
  obtain hr | ⟨hev, hkind, -⟩ := hr
  · obtain ⟨p, hp, hid, hfollows⟩ := hch.followed hresv p' hp' hid'
    obtain ⟨q, hq, rfl⟩ | hle := h.kept r hr p hp hid
    · obtain ⟨hkind, hproc⟩ := of_mem_frozenReports hr
      obtain ⟨q', hq', hcont⟩ | ⟨-, -, a, ha, haid, p₁, hp₁, hp₁id, hseq⟩ | hgone :=
        hch.reportForth h.inv hq
      · exact .inl ⟨q', hq', Continues.asFrozen hcont⟩
      · -- its acknowledgement has moved the frontier to the number of the action
        refine .inr ?_
        cases Table.eq_of_key hp₁ hp' (hp₁id.trans (hproc.trans hid'.symm))
        obtain ⟨b, hb, hbid, hbproc⟩ := h.inv.reportAction q hq hkind
        cases Table.eq_of_key ha hb (haid.trans hbid.symm)
        rw [hseq, h.rows a ha (hbproc.trans hproc), haid]
        exact Int.le_refl _
      · exact absurd ⟨p', hp', hid'.trans hproc.symm⟩ hgone
    · exact .inr (Int.le_trans hle hfollows.frontier)
  · exact .inl (run_returned h.inv hrun hev (.inl hkind)).mem

/-- A report that is new is none of an action that was executed before a crash, unless it says that the
outcome is unknown. -/
theorem unknown_commit
    (hrows : ∀ a, op.recorded out = some a → a.processID = cfg.processID → a.seq = cfg.seqOf a.id)
    (hfrz : Honest cfg log op) {pre post : List Event} (hlog : log = pre ++ .crash :: post)
    (hid : actionID ∈ executedIDs cfg.processID pre)
    (hnone : ∀ r ∈ frozenReports cfg.processID pre, r.actionID ≠ actionID) {r : Report}
    (hr : (Event.committed db op out).evidence cfg.processID = some r) (hact : r.actionID = actionID) :
    cfg.Unknown r := by
  obtain ⟨hev, hkind, hproc⟩ := evidence_committed.1 hr
  obtain ⟨-, ⟨supervisor, targetID, htgt, hslot⟩, horigin⟩ := run_returned h.inv hrun hev (.inl hkind)
  obtain ⟨q, hq, rfl⟩ | ⟨_, _, report, newReportID, rfl, hbody⟩ |
    ⟨action, hrec, hactionID, hactionProc⟩ := horigin
  · -- it was returned before, after the crash
    have hmem := h.backed q hq hkind hproc
    rw [hlog, frozenReports_append, mem_append] at hmem
    obtain hmem | hmem := hmem
    · exact absurd hact (hnone _ hmem)
    · exact h.unknown pre post hlog actionID hid hnone _ hmem hact
  · cases htgt
    obtain ⟨event, hevent, htype⟩ | hfr := hfrz _ _ _ _ rfl (hslot.1.symm.trans hproc)
    · exact ⟨event, hbody ▸ hevent, htype⟩
    · exact absurd (hslot.2.1.symm.trans hact ▸ hid) (hfr pre post hlog)
  · -- an action that is recorded without effect was not executed
    obtain ⟨hidle, p, hp, hpid, hlt⟩ := (run_change h.inv hrun).records hrec
    have hactionProc := hactionProc.trans hproc
    obtain ⟨a, ha, rfl⟩ := mem_map.1 hid
    have hmem : a ∈ log.filterMap (·.executed cfg.processID) := by
      rw [hlog, filterMap_append]
      exact mem_append_left _ ha
    have hseq : a.seq = action.seq := by
      rw [h.executed a hmem, hrows _ hrec hactionProc, ← hact, hactionID]
    obtain hle | ⟨row, hrow, hrowid, -⟩ := h.remembers.behind p hp (hpid.trans hactionProc) a hmem
    · exact absurd (hseq ▸ hle) (Int.not_le.2 hlt)
    · exact absurd (hrowid.trans hactionProc.symm) (hidle row hrow)

end

/-- A report that is in the database is the only one that was ever returned for its action. -/
theorem agree_of_mem (hinv : Inv cfg.codec db)
    (hrows : ∀ a ∈ db.actions, a.processID = cfg.processID → a.seq = cfg.seqOf a.id)
    (hkept : ∀ r ∈ frozenReports cfg.processID log, ∀ p ∈ db.processes,
      p.processID = cfg.processID →
      (∃ r' ∈ db.reports, r'.asFrozen = r) ∨ cfg.seqOf r.actionID ≤ p.resolvedActionSeq)
    {q r : Report} (hq : q ∈ db.reports) (hkind : q.kind = .actionTerminal)
    (hproc : q.processID = cfg.processID) (hr : r ∈ frozenReports cfg.processID log)
    (hact : r.actionID = q.actionID) : r = q.asFrozen := by
  obtain ⟨a, ha, haid, haproc⟩ := hinv.reportAction q hq hkind
  obtain ⟨p, hp, hpid⟩ := hinv.owned a ha
  obtain ⟨r', hr', rfl⟩ | hle := hkept r hr p hp (hpid.trans (haproc.trans hproc))
  · obtain ⟨hkind', hproc'⟩ := of_mem_frozenReports hr
    rw [hinv.slot q hq r' hr' ⟨hproc'.trans hproc.symm, hact, hkind'.trans hkind.symm⟩]
  · -- the row of the action stands beyond the frontier
    have hnext := hinv.next a ha p hp hpid
    rw [hact, ← haid, ← hrows a ha (haproc.trans hproc)] at hle
    omega

/-- **Every operation on the database keeps what it remembers**: it records an action of the process
only under its sequence number, and freezes an outcome other than unknown only for an action that was
not executed before a crash. -/
theorem commit (h : Durable cfg db log) (hrun : op.run cfg.codec db = .ok (db', out))
    (hresv : (Event.committed db op out).reserves cfg.processID = false)
    (hrows : ∀ a, op.recorded out = some a → a.processID = cfg.processID → a.seq = cfg.seqOf a.id)
    (hfrz : Honest cfg log op) :
    Durable cfg db' (log ++ [.committed db op out]) := by
  have hch := run_change h.inv hrun
  have hinv := hch.inv h.inv
  have hrows' := h.rows_commit hrun hrows
  have hkept := h.kept_commit hrun hresv
  -- the report the operation returns agrees with all that were returned
  have hlast : ∀ r r', (Event.committed db op out).evidence cfg.processID = some r' →
      r ∈ frozenReports cfg.processID (log ++ [.committed db op out]) → r.actionID = r'.actionID →
      r = r' := by
    intro r r' hr' hr hact
    obtain ⟨hev, hkind, hproc⟩ := evidence_committed.1 hr'
    obtain ⟨q, hq, rfl⟩ := (run_returned h.inv hrun hev (.inl hkind)).mem
    exact agree_of_mem hinv hrows' hkept hq hkind hproc hr hact
  refine ⟨hinv, h.remembers.step h.inv hch hresv, hrows', ?_, h.backed_commit hrun, hkept, ?_, ?_⟩
  · intro a ha
    rw [filterMap_append, mem_append] at ha
    obtain ha | ha := ha
    · exact h.executed a ha
    · obtain ⟨e, he, ha⟩ := mem_filterMap.1 ha
      cases mem_singleton.1 he
      obtain ⟨hid, hrec⟩ := recorded_of_executed ha
      exact hrows { a with effectCommitted := true } hrec hid
  · intro r hr r' hr' hact
    obtain hold' | hnew' := mem_frozenReports_concat.1 hr'
    · obtain hold | hnew := mem_frozenReports_concat.1 hr
      · exact h.agree r hold r' hold' hact
      · exact (hlast r' r hnew hr' hact.symm).symm
    · exact hlast r r' hnew' hr hact
  · intro pre post hsplit actionID hid hnone r hr hact
    obtain ⟨-, -, rfl⟩ | ⟨post, rfl, hlog⟩ := Window.concat_eq_split hsplit
    · cases hr
    · obtain hr | hr := mem_frozenReports_concat.1 hr
      · exact h.unknown pre post hlog actionID hid hnone r hr hact
      · exact h.unknown_commit hrun hrows hfrz hlog hid hnone hr hact

end Durable

end Runner
