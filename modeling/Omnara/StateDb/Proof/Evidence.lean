import Omnara.StateDb.Proof.Audit

/-!
# Frozen evidence is immutable

`Change.reportBack` says where a report after a change comes from: it was there with the same id, slot
and body, or its slot was empty. `Change.reportForth` says what becomes of a report: it stays, its own
acknowledgement removes it and moves the frontier over its action, or its process is gone. Freezing into
a taken slot is decided by the content (`freezeReport_same`, `freezeReport_other`).
-/

namespace StateDb

open Fallible Table

inductive ReportState.Moves : ReportState → ReportState → Prop
  | stay (state : ReportState) : Moves state state
  | reject : Moves .pending .rejected
  | acknowledge {state : ReportState} : state = .pending ∨ state = .rejected → Moves state .acknowledged

/-- The same report, with its state possibly moved on. -/
structure Report.Continues (r r' : Report) : Prop where
  id : r'.id = r.id
  slot : r'.InSlot r.kind r.processID r.actionID
  body : r'.body = r.body
  state : r.state.Moves r'.state

theorem Report.Continues.refl (r : Report) : r.Continues r := ⟨rfl, ⟨rfl, rfl, rfl⟩, rfl, .stay _⟩

section
variable {codec : Codec} {db db' : Db} {op : Op} {out : Outcome}

/-! ## Reports over one change -/

variable {r report : Report} {newReportID : String} {supervisor : Supervisor}

/-- A report after a change was there before, or is new in an empty slot and returned. -/
theorem Change.reportBack (h : Change codec db op out db') {r' : Report} (hr' : r' ∈ db'.reports) :
    (∃ r ∈ db.reports, r.Continues r') ∨
    ((∀ r ∈ db.reports, r.id ≠ r'.id ∧ ¬ r.InSlot r'.kind r'.processID r'.actionID) ∧
      out.evidence = some r'.asFrozen) := by
  have hsame : r' ∈ db.reports → ∃ r ∈ db.reports, r.Continues r' := fun h => ⟨r', h, .refl r'⟩
  have hinserted : ∀ {frozen : Report} {reports : Table Report.id}, r' ∈ reports →
      db.reports.insert frozen = some reports →
      (∀ r ∈ db.reports, ¬ r.InSlot frozen.kind frozen.processID frozen.actionID) →
      out.evidence = some frozen.asFrozen →
      (∃ r ∈ db.reports, r.Continues r') ∨
      ((∀ r ∈ db.reports, r.id ≠ r'.id ∧ ¬ r.InSlot r'.kind r'.processID r'.actionID) ∧
        out.evidence = some r'.asFrozen) := by
    intro frozen reports hmem hins hslot hout
    obtain hmem | rfl := (mem_of_insert hins).1 hmem
    · exact .inl (hsame hmem)
    · exact .inr ⟨fun r hr => ⟨fresh_of_insert hins r hr, hslot r hr⟩, hout⟩
  have hset : ∀ {r q : Report}, r' ∈ db.reports.replace q → r ∈ db.reports → r.Continues q →
      ∃ r ∈ db.reports, r.Continues r' := by
    intro r q hmem hr hcont
    obtain rfl | ⟨hmem, -⟩ := (mem_replace ⟨r, hr, hcont.id.symm⟩).1 hmem
    · exact ⟨r, hr, hcont⟩
    · exact hsame hmem
  cases h with
  | unchanged | reserved | updated | authorized | compacted | executed => exact .inl (hsame hr')
  | withoutEffect _ _ _ _ _ _ _ _ _ _ _ hfz hins | froze _ hfz _ hins | frozeTerminal _ hfz hins =>
    exact hinserted hr' hins hfz.slot rfl
  | acknowledgedAction | released => exact .inl (hsame (mem_deleteWhere.1 hr').1)
  | acknowledgedProcess hr _ hstate =>
    exact .inl (hset hr' hr ⟨rfl, ⟨rfl, rfl, rfl⟩, rfl, .acknowledge hstate⟩)
  | rejected hr hstate => exact .inl (hset hr' hr ⟨rfl, ⟨rfl, rfl, rfl⟩, rfl, hstate ▸ .reject⟩)
  | deleted hp =>
    simp only [Db.deleteProcess, Db.processTx_eq_some.2 ⟨hp, rfl⟩, Option.any_some, decide_true,
      if_true] at hr'
    exact .inl (hsame (mem_deleteWhere.1 hr').1)

section
variable (hinv : Inv codec db)
include hinv

/-- A report stays, or its own acknowledgement settles its action, or its process is deleted. -/
theorem Change.reportForth (h : Change codec db op out db') (hr : r ∈ db.reports) :
    (∃ r' ∈ db'.reports, r.Continues r') ∨
    (op = .acknowledgeReport r.id ∧ r.kind = .actionTerminal ∧ ∃ a ∈ db.actions,
      a.id = r.actionID ∧ ∃ p' ∈ db'.processes, p'.processID = r.processID ∧
        p'.resolvedActionSeq = a.seq) ∨
    ¬ db'.Has r.processID := by
  have hsame : r ∈ db'.reports → ∃ r' ∈ db'.reports, r.Continues r' := fun h => ⟨r, h, .refl r⟩
  have hset : ∀ {q q' : Report}, db'.reports = db.reports.replace q' → q ∈ db.reports →
      q.Continues q' → ∃ r' ∈ db'.reports, r.Continues r' := by
    intro q q' hreps hq hcont
    rw [hreps]
    by_cases hid : r.id = q'.id
    · rw [eq_of_key hr hq (hid.trans hcont.id)]
      exact ⟨q', (mem_replace ⟨q, hq, hcont.id.symm⟩).2 (.inl rfl), hcont⟩
    · exact ⟨r, (mem_replace ⟨q, hq, hcont.id.symm⟩).2 (.inr ⟨hr, hid⟩), .refl r⟩
  cases h with
  | unchanged | reserved | updated | authorized | compacted | executed => exact .inl (hsame hr)
  | withoutEffect _ _ _ _ _ _ _ _ _ _ _ _ hins | froze _ _ _ hins | frozeTerminal _ _ hins =>
    exact .inl (hsame ((mem_of_insert hins).2 (.inl hr)))
  | @acknowledgedAction q a p hq hkind ha haid hproc hp hpid =>
    by_cases hra : r.actionID = a.id
    · -- the one report of the action
      have hrkind := (Report.kind_eq_iff (hinv.reportOk r hr)).2
        (hra ▸ Action.id_ne_of_check (hinv.actionOk a ha))
      obtain ⟨b, hb, hbid, hbproc⟩ := hinv.reportAction r hr hrkind
      have hba : b = a := eq_of_key hb ha (hbid.trans hra)
      have hrq : r = q := hinv.slot q hq r hr
        ⟨hbproc.symm.trans (hba ▸ hproc), hra.trans haid, hrkind.trans hkind.symm⟩
      subst hrq
      exact .inr (.inl ⟨rfl, hkind, a, ha, haid, _, Db.mem_setProcess_self hp rfl,
        hpid.trans hproc, rfl⟩)
    · exact .inl (hsame ((mem_reports_settle hinv ha).2 ⟨hr, hra⟩))
  | acknowledgedProcess hq _ hstate =>
    exact .inl (hset rfl hq ⟨rfl, ⟨rfl, rfl, rfl⟩, rfl, .acknowledge hstate⟩)
  | rejected hq hstate => exact .inl (hset rfl hq ⟨rfl, ⟨rfl, rfl, rfl⟩, rfl, hstate ▸ .reject⟩)
  | @released _ a p ha hp _ _ _ hnone =>
    refine .inl (hsame ((mem_reports_settle (p := p.resolvedAt a.seq) hinv ha).2
      ⟨hr, fun hra => ?_⟩))
    exact hnone ⟨r, hr, (Report.ofAction_iff (Action.id_ne_of_check (hinv.actionOk a ha))).2 hra⟩
  | @deleted _ p hp =>
    simp only [Db.deleteProcess, Db.processTx_eq_some.2 ⟨hp, rfl⟩, Option.any_some, decide_true,
      if_true, mem_deleteWhere, Db.Has, decide_eq_false_iff_not]
    by_cases hid : r.processID = p.processID
    · exact .inr (.inr fun ⟨q, ⟨_, hne⟩, hqid⟩ => hne (hqid.trans hid))
    · exact .inl ⟨r, ⟨hr, hid⟩, .refl r⟩

/-! ## Freezing into a taken slot -/

variable (hr : r ∈ db.reports)
include hr

theorem Inv.slotOf (hslot : report.InSlot r.kind r.processID r.actionID) :
    db.reportBySlotTx report.kind report.processID report.actionID = some r := by
  cases hfound : db.reportBySlotTx report.kind report.processID report.actionID with
  | none => exact absurd hslot.symm (Db.reportBySlotTx_eq_none.1 hfound r hr)
  | some r' =>
    obtain ⟨hr', hin⟩ := Db.reportBySlotTx_some hfound
    obtain ⟨hproc, hact, hkind⟩ := hslot
    rw [hproc, hact, hkind] at hin
    rw [hinv.slot r hr r' hr' hin]

theorem freezeReportTx_same (hslot : report.InSlot r.kind r.processID r.actionID)
    (hbody : report.body = r.body) :
    db.freezeReportTx codec newReportID report = .ok (db, r) := by
  have hsame : sameReportContent r report = true := by
    simp [sameReportContent, hslot.1, hslot.2.1, hslot.2.2, hbody]
  unfold Db.freezeReportTx
  rw [hinv.slotOf hr hslot]
  simp only [bind_eq_ok, ensure_eq_ok]
  exact ⟨(), (validateReport_congr codec hslot hbody).trans (hinv.valid r hr), (), hsame, rfl⟩

theorem Inv.reportOf {a : Action} (ha : a ∈ db.actions) (haid : a.id = r.actionID)
    (hkind : r.kind = .actionTerminal) :
    db.reportByActionTx a.id = some r := by
  have hne := Action.id_ne_of_check (hinv.actionOk a ha)
  cases hfound : db.reportByActionTx a.id with
  | none =>
    have hnone := Db.reportByActionTx_eq_none.1 hfound r hr
    simp [(Report.ofAction_iff hne).2 haid.symm] at hnone
  | some r' =>
    obtain ⟨hr', hof⟩ := Db.reportByActionTx_some hfound
    have hact := (Report.ofAction_iff hne).1 hof
    have hkind' := (Report.kind_eq_iff (hinv.reportOk r' hr')).2 (hact ▸ hne)
    -- both reports belong to the process of the action
    obtain ⟨b, hb, hbid, hbproc⟩ := hinv.reportAction r hr hkind
    obtain ⟨c, hc, hcid, hcproc⟩ := hinv.reportAction r' hr' hkind'
    have hbc : b = c := eq_of_key hb hc (hbid.trans (haid.symm.trans (hact.symm.trans hcid.symm)))
    rw [hinv.slot r hr r' hr' ⟨hcproc.symm.trans (hbc ▸ hbproc), hact.trans haid,
      hkind'.trans hkind.symm⟩]

theorem freezeReport_same {p : Process} (hp : p ∈ db.processes) (hid : p.processID = r.processID)
    (hslot : report.InSlot r.kind r.processID r.actionID) (hbody : report.body = r.body) :
    db.freezeReport codec ⟨p.processID, p.supervisorInstanceID⟩ report newReportID = .ok (db, r) := by
  have hfrz : db.freezeReportTx codec newReportID report = .ok (db, r) :=
    freezeReportTx_same hinv hr hslot hbody
  have hsupervised : db.supervised ⟨p.processID, p.supervisorInstanceID⟩ = .ok p :=
    Db.supervised_ok.2 ⟨hp, rfl, rfl⟩
  have hchk := hinv.reportOk r hr
  obtain ⟨hproc, hact, hkind⟩ := hslot
  cases hk : r.kind with
  | processStarted =>
    have hstd := hinv.started r hr hk p hp hid
    have hemp : r.actionID = "" := by
      simpa [hk] using (Report.kind_eq_iff hchk).not
    simp only [Db.freezeReport, hkind, hk, Db.freezeStartedReport, bind_eq_ok, ensure_eq_ok]
    exact ⟨(), ⟨trivial, hproc.trans hid.symm, hact.trans hemp⟩, p, hsupervised, (), hstd, hfrz⟩
  | processTerminal =>
    have hph := (hinv.terminal p hp).2 ⟨r, hr, hk, hid.symm⟩
    have hemp : r.actionID = "" := by
      simpa [hk] using (Report.kind_eq_iff hchk).not
    have hpcheck := hinv.processOk p hp
    -- the process is terminal already, so its row stays as it is
    have hsame : { p with phase := .terminal, actionAdmissionClosed := true : Process } = p := by
      have hcl : p.actionAdmissionClosed = true := by
        simp only [Process.check, hph, Bool.and_eq_true] at hpcheck
        simpa using hpcheck.1.2
      rw [← hph, ← hcl]
    have hupd : db.updateProcesses "record terminal process state" p.processID
        (fun q => q.supervisorInstanceID = p.supervisorInstanceID)
        (fun p => { p with phase := .terminal, actionAdmissionClosed := true }) = .ok (db, 1) := by
      rw [Db.updateProcesses_eq hp (by simp) (by rw [hsame]; exact hpcheck), hsame, Db.setProcess,
        replace_self hp]
    simp only [Db.freezeReport, hkind, hk, Db.freezeTerminalReport, bind_eq_ok, ensure_eq_ok,
      Prod.exists]
    exact ⟨(), ⟨trivial, hproc.trans hid.symm, hact.trans hemp⟩, p, hsupervised, (), .inr hph,
      db, r, hfrz, db, 1, hupd, rfl⟩
  | actionTerminal =>
    obtain ⟨a, ha, haid, haproc⟩ := hinv.reportAction r hr hk
    have hget := Db.actionTx_eq_some.2 ⟨ha, haid.trans hact.symm⟩
    simp only [Db.freezeReport, hkind, hk, Db.freezeActionReport, Db.validateActionReportInput,
      bind_eq_ok, ensure_eq_ok, hget]
    refine ⟨(), ⟨hproc.trans hid.symm, trivial, trivial⟩, p, hsupervised, (), haproc.trans hid.symm, ?_⟩
    split
    · exact hfrz
    · have hsame : sameReportContent r report = true := by
        simp [sameReportContent, hproc, hact, hkind, hbody]
      rw [hact, ← haid, hinv.reportOf hr ha haid hk, Option.filter_some, if_pos hsame]
      rfl

theorem freezeReport_other (hslot : report.InSlot r.kind r.processID r.actionID)
    (hbody : report.body ≠ r.body) :
    ∃ err, db.freezeReport codec supervisor report newReportID = .error err := by
  -- neither the report in the slot nor an empty slot fits
  have htx : ∀ {db₁ : Db} {frozen : Report},
      db.freezeReportTx codec newReportID report ≠ .ok (db₁, frozen) := by
    intro db₁ frozen h
    obtain ⟨-, ⟨hmem, hin, hsame, -⟩ | ⟨hnone, -⟩⟩ := Db.freezeReportTx_ok h
    · rw [hslot.1, hslot.2.1, hslot.2.2] at hin
      rw [hinv.slot r hr frozen hmem hin] at hsame
      exact hbody hsame.symm
    · exact hnone r hr hslot.symm
  have hok : ∀ x, db.freezeReport codec supervisor report newReportID ≠ .ok x := by
    rintro ⟨db₁, frozen⟩ h
    unfold Db.freezeReport at h
    split at h
    · unfold Db.freezeStartedReport at h
      simp only [bind_eq_ok] at h
      obtain ⟨-, -, p, -, -, -, h⟩ := h
      exact htx h
    · unfold Db.freezeTerminalReport at h
      simp only [bind_eq_ok, Prod.exists] at h
      obtain ⟨-, -, p, -, -, -, db₂, frozen₂, h, -⟩ := h
      exact htx h
    · rename_i hk
      unfold Db.freezeActionReport at h
      simp only [bind_eq_ok] at h
      obtain ⟨-, -, p, -, h⟩ := h
      split at h
      · cases h
      · rename_i a ha
        obtain ⟨ha, haid⟩ := Db.actionTx_eq_some.1 ha
        obtain ⟨-, -, h⟩ := bind_eq_ok.1 h
        split at h
        · exact htx h
        · split at h
          · rename_i existing hex
            rw [← haid, hinv.reportOf hr ha (haid.trans hslot.2.1) (hslot.2.2.symm.trans hk),
              Option.filter_eq_some_iff] at hex
            obtain ⟨hsome, hsame⟩ := hex
            cases hsome
            simp [sameReportContent, Ne.symm hbody] at hsame
          · cases h
  cases h : db.freezeReport codec supervisor report newReportID with
  | error err => exact ⟨err, rfl⟩
  | ok x => exact absurd h (hok x)

end

theorem deleteClosedAfterArtifacts_deletes {p : Process}
    (hp : p ∈ db.processes) (hgone : ¬ db'.Has p.processID)
    (h : db.deleteClosedAfterArtifacts supervisor = .ok db') :
    p.localClosed = true ∧ p.serverReleased = true ∧ (∀ a ∈ db.actions, a.processID ≠ p.processID) ∧
      ∀ r ∈ db.reports, r.processID = p.processID → r.state = .acknowledged := by
  obtain rfl | ⟨q, hq, hcl, rfl⟩ := deleteClosedAfterArtifacts_ok h
  · exact absurd ⟨p, hp, rfl⟩ hgone
  · obtain rfl | hne := eq_or_ne hq hp
    · exact hcl
    · refine absurd ⟨p, ?_, rfl⟩ hgone
      simp only [Db.deleteProcess, Db.processTx_eq_some.2 ⟨hq, rfl⟩, Option.any_some, decide_true,
        if_true, mem_deleteWhere, decide_eq_false_iff_not]
      exact ⟨hp, hne⟩

/-- An action with a report is not recorded again: the report is returned, whatever the new one says. -/
theorem recordActionWithoutEffect_reported (hinv : Inv codec db) (hr : r ∈ db.reports)
    (hkind : r.kind = .actionTerminal) {action : Action} {decision : NoEffectDecision}
    (hid : action.id = r.actionID)
    (h : db.recordActionWithoutEffect codec supervisor action report newReportID =
      .ok (db', decision)) :
    db' = db ∧ decision = .alreadyReported r := by
  obtain ⟨a, ha, haid, -⟩ := hinv.reportAction r hr hkind
  unfold Db.recordActionWithoutEffect at h
  simp only [bind_eq_ok, Prod.exists] at h
  obtain ⟨-, -, -, -, p, existing, hload, h⟩ := h
  obtain ⟨-, rfl, -⟩ := loadActionTransitionTx_ok hload
  rw [Db.actionTx_eq_some.2 ⟨ha, haid.trans hid.symm⟩] at h
  simp only [hid, ← haid, hinv.reportOf hr ha haid hkind] at h
  cases h
  exact ⟨rfl, rfl⟩

/-- A slot keeps the id and the body of its report for as long as it is taken. -/
theorem slot_immutable {kind : ReportKind} {processID actionID : String} (h : Reachable codec db)
    (hrun : Reach.Through (Step codec)
      (fun db => ∃ r ∈ db.reports, r.InSlot kind processID actionID) db db') {r' : Report}
    (hr : r ∈ db.reports) (hslot : r.InSlot kind processID actionID) (hr' : r' ∈ db'.reports)
    (hslot' : r'.InSlot kind processID actionID) : r'.id = r.id ∧ r'.body = r.body := by
  have huniq : ∀ {db : Db}, Inv codec db → ∀ {x y : Report}, x ∈ db.reports → y ∈ db.reports →
      x.InSlot kind processID actionID → y.InSlot kind processID actionID → x = y := by
    rintro db hinv x y hx hy hxs ⟨rfl, rfl, rfl⟩
    exact hinv.slot y hy x hx hxs
  revert r'
  refine Reach.Through.related (R := fun _ t => ∀ {r' : Report}, r' ∈ t.reports →
    r'.InSlot kind processID actionID → r'.id = r.id ∧ r'.body = r.body) hrun ?_ ?_
  · intro _ r' hr' hslot'
    rw [huniq h.inv hr' hr hslot' hslot]
    exact ⟨rfl, rfl⟩
  · rintro t u hst hsame ⟨q, hq, hqs⟩ ⟨op, out, hstep⟩ - r' hr' hslot'
    have hinv := Reachable.inv (hst.reachable h)
    obtain ⟨x, hx, hcont⟩ | ⟨hnew, -⟩ := (run_change hinv hstep).reportBack hr'
    · have hxs : x.InSlot kind processID actionID :=
        ⟨hcont.slot.1.symm.trans hslot'.1, hcont.slot.2.1.symm.trans hslot'.2.1,
          hcont.slot.2.2.symm.trans hslot'.2.2⟩
      obtain ⟨hid, hbody⟩ := hsame hx hxs
      exact ⟨hcont.id.trans hid, hcont.body.trans hbody⟩
    · -- a new report needs an empty slot
      obtain ⟨hproc, hact, hkind⟩ := hslot'
      exact absurd (hproc ▸ hact ▸ hkind ▸ hqs) (hnew q hq).2

end

/-- **Frozen evidence is immutable.** In every reachable database: over any run that keeps a slot taken,
the id and the body of its report stay; freezing the slot again returns its report when the content is
the same and fails when it is not. Over one more operation, the state of a report makes one of its
moves, and a report goes only with its own acknowledgement, which moves the frontier to the sequence
number of its action, or with its process; `DeleteClosedAfterArtifacts` deletes a process only when it is
closed, released and settled. -/
theorem reachable_evidence {codec : Codec} {db : Db} (h : Reachable codec db) :
    (∀ kind processID actionID db', Reach.Through (Step codec)
        (fun db => ∃ r ∈ db.reports, r.InSlot kind processID actionID) db db' →
      ∀ r ∈ db.reports, r.InSlot kind processID actionID →
      ∀ r' ∈ db'.reports, r'.InSlot kind processID actionID → r'.id = r.id ∧ r'.body = r.body) ∧
    (∀ r ∈ db.reports, ∀ report : Report, report.InSlot r.kind r.processID r.actionID →
      ∀ newReportID,
      (report.body = r.body → ∀ p ∈ db.processes, p.processID = r.processID →
        db.freezeReport codec ⟨p.processID, p.supervisorInstanceID⟩ report newReportID = .ok (db, r)) ∧
      (report.body ≠ r.body → ∀ supervisor,
        ∃ err, db.freezeReport codec supervisor report newReportID = .error err)) ∧
    (∀ r ∈ db.reports, r.kind = .actionTerminal →
      ∀ supervisor (action : Action) report newReportID db' decision, action.id = r.actionID →
      db.recordActionWithoutEffect codec supervisor action report newReportID = .ok (db', decision) →
      db' = db ∧ decision = .alreadyReported r) ∧
    ∀ op out db', Op.run codec db op = .ok (db', out) →
      (∀ r ∈ db.reports, ∀ r' ∈ db'.reports, r'.id = r.id → r.state.Moves r'.state) ∧
      (∀ r ∈ db.reports, (∀ r' ∈ db'.reports, r'.id ≠ r.id) →
        (op = .acknowledgeReport r.id ∧ r.kind = .actionTerminal ∧ ∃ a ∈ db.actions,
          a.id = r.actionID ∧ ∃ p' ∈ db'.processes, p'.processID = r.processID ∧
            p'.resolvedActionSeq = a.seq) ∨
        ¬ db'.Has r.processID) ∧
      ∀ supervisor, op = .deleteClosedAfterArtifacts supervisor →
        ∀ p ∈ db.processes, ¬ db'.Has p.processID →
        p.localClosed = true ∧ p.serverReleased = true ∧
          (∀ a ∈ db.actions, a.processID ≠ p.processID) ∧
          ∀ r ∈ db.reports, r.processID = p.processID → r.state = .acknowledged := by
  have hinv := h.inv
  refine ⟨?_, ?_, ?_, ?_⟩
  · intro kind processID actionID db' hrun r hr hslot r' hr' hslot'
    exact slot_immutable h hrun hr hslot hr' hslot'
  · intro r hr report hslot newReportID
    exact ⟨fun hbody p hp hid => freezeReport_same hinv hr hp hid hslot hbody,
      fun hbody supervisor => freezeReport_other hinv hr hslot hbody⟩
  · intro r hr hkind supervisor action report newReportID db' decision hid hrun
    exact recordActionWithoutEffect_reported hinv hr hkind hid hrun
  · intro op out db' hrun
    have hchange := run_change hinv hrun
    refine ⟨?_, ?_, ?_⟩
    · intro r hr r' hr' hid
      obtain ⟨x, hx, hcont⟩ | ⟨hnew, -⟩ := hchange.reportBack hr'
      · rw [← eq_of_key hx hr (hcont.id.symm.trans hid)]
        exact hcont.state
      · exact absurd hid.symm (hnew r hr).1
    · intro r hr hgone
      obtain ⟨r', hr', hcont⟩ | hrest := hchange.reportForth hinv hr
      · exact absurd hcont.id (hgone r' hr')
      · exact hrest
    · rintro supervisor rfl p hp hgone
      exact deleteClosedAfterArtifacts_deletes hp hgone (done_ok hrun).1

/-- The report of the run is frozen again, and frozen with another body. -/
theorem reachable_evidence_applied : ∃ h, sampleHistory sampleRun = .ok h ∧ ∃ r ∈ h.db.reports,
    h.db.freezeReport sampleCodec sampleSupervisor (sampleReport appliedBody) "rpt_2" = .ok (h.db, r) ∧
    ∃ err, h.db.freezeReport sampleCodec sampleSupervisor (sampleReport unknownBody) "rpt_2" = .error err := by
  obtain ⟨h, hmem, r, hr, hkind, hproc, haction, hbody, p, hp, hid, hinstance⟩ :
      ∃ h ∈ (sampleHistory sampleRun).toOption, ∃ r ∈ h.db.reports.rows,
        r.kind = .actionTerminal ∧ r.processID = "proc" ∧ r.actionID = "act" ∧ r.body = appliedBody ∧
        ∃ p ∈ h.db.processes.rows, p.processID = "proc" ∧ p.supervisorInstanceID = "instance" := by
    decide +kernel
  have hrun := mem_toOption hmem
  have hslot : ∀ body, (sampleReport body).InSlot r.kind r.processID r.actionID := fun body =>
    ⟨hproc.symm, haction.symm, hkind.symm⟩
  obtain ⟨-, hfreeze, -, -⟩ := reachable_evidence (reachable_of_sampleHistory hrun).db
  have hsame := (hfreeze r hr _ (hslot appliedBody) "rpt_2").1 hbody.symm p hp (hid.trans hproc.symm)
  rw [hid, hinstance] at hsame
  have hother : (sampleReport unknownBody).body ≠ r.body := by
    rw [hbody]
    decide +kernel
  exact ⟨h, hrun, r, hr, hsame, (hfreeze r hr _ (hslot unknownBody) "rpt_2").2 hother sampleSupervisor⟩

end StateDb
