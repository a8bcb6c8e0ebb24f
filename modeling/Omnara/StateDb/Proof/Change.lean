import Omnara.StateDb.Proof.Statements

/-!
# What one operation can do to the database

`Change` lists the kinds of change a committed operation makes, with what the operation has checked
before it; `run_change` is the one case analysis over all operations. It uses the invariant `Inv`, which
holds in every reachable database (`Proof.Invariant`): the row of an action is the only one of its
process and stands right after the frontier, so a compaction that is not blocked found no row at all.
-/

namespace StateDb

open Fallible Table

def Db.Reported (db : Db) (actionID : String) : Prop := ∃ r ∈ db.reports, r.ofAction actionID = true

structure Inv (codec : Codec) (db : Db) : Prop where
  processOk : ∀ p ∈ db.processes, p.check = true
  actionOk : ∀ a ∈ db.actions, a.check = true
  reportOk : ∀ r ∈ db.reports, r.check = true
  valid : ∀ r ∈ db.reports, validateReport codec r = .ok ()
  owned : ∀ a ∈ db.actions, ∃ p ∈ db.processes, p.processID = a.processID
  /-- the row of an action stands right after the frontier -/
  next : ∀ a ∈ db.actions, ∀ p ∈ db.processes, p.processID = a.processID →
    a.seq = p.resolvedActionSeq + 1
  /-- a process has at most one action row -/
  sole : ∀ a ∈ db.actions, ∀ b ∈ db.actions, a.processID = b.processID → a = b
  reportProcess : ∀ r ∈ db.reports, ∃ p ∈ db.processes, p.processID = r.processID
  reportAction : ∀ r ∈ db.reports, r.kind = .actionTerminal →
    ∃ a ∈ db.actions, a.id = r.actionID ∧ a.processID = r.processID
  slot : ∀ r ∈ db.reports, ∀ r' ∈ db.reports, r'.InSlot r.kind r.processID r.actionID → r' = r
  terminal : ∀ p ∈ db.processes, p.phase = .terminal ↔
    ∃ r ∈ db.reports, r.kind = .processTerminal ∧ r.processID = p.processID
  closed : ∀ p ∈ db.processes, p.localClosed = true →
    p.phase = .terminal ∧ ∀ a ∈ db.actions, a.processID = p.processID → db.Reported a.id
  noEffect : ∀ a ∈ db.actions, a.effectCommitted = false → db.Reported a.id
  started : ∀ r ∈ db.reports, r.kind = .processStarted → ∀ p ∈ db.processes,
    p.processID = r.processID →
      (p.phase = .accepted ∨ p.phase = .terminal) ∧ p.execCommitted = true ∧ p.containmentKind ≠ ""

/-- An update of a process that moves nothing back, and neither its frontier nor whether it is
terminal. -/
structure Process.Advances (p p' : Process) : Prop where
  processID : p'.processID = p.processID
  supervisorInstanceID : p'.supervisorInstanceID = p.supervisorInstanceID
  frontier : p'.resolvedActionSeq = p.resolvedActionSeq
  check : p'.check = true
  terminal : p'.phase = .terminal ↔ p.phase = .terminal
  accepted : p.phase = .accepted → p'.phase = .accepted
  exec : p.execCommitted = true → p'.execCommitted = true
  containment : p.containmentKind ≠ "" → p'.containmentKind ≠ ""

/-- The operation records no action, authorises no spawn and settles no action. -/
structure Op.Quiet (db : Db) (op : Op) (out : Outcome) : Prop where
  records : op.recorded out = none
  spawns : out ≠ .spawn true
  settles : ∀ a ∈ db.actions, op.settles db a = false

/-- A report that can be inserted: it is valid evidence for an empty slot of an existing process, and of
an existing action when it names one. -/
structure Db.Freezable (codec : Codec) (db : Db) (r : Report) : Prop where
  valid : validateReport codec r = .ok ()
  check : r.check = true
  pending : r.state = .pending
  slot : ∀ r' ∈ db.reports, ¬ r'.InSlot r.kind r.processID r.actionID
  process : ∃ p ∈ db.processes, p.processID = r.processID
  action : r.actionID ≠ "" → ∃ a ∈ db.actions, a.id = r.actionID ∧ a.processID = r.processID

inductive Change (codec : Codec) (db : Db) : Op → Outcome → Db → Prop
  | unchanged {op : Op} {out : Outcome} : op.Quiet db out → Change codec db op out db
  | reserved {process p : Process} {processes : Table Process.processID} :
      p.processID = process.processID → p.phase = .preparing → p.resolvedActionSeq = 0 →
      p.execCommitted = false → p.localClosed = false → p.check = true →
      db.processes.insert p = some processes →
      Change codec db (.reserveProcess process) .done { db with processes }
  | updated {op : Op} {out : Outcome} {p p' : Process} : p ∈ db.processes → p.Advances p' →
      (p'.localClosed = true → p.localClosed = true ∨ p.phase = .terminal ∧
        ∀ a ∈ db.actions, a.processID = p.processID → db.Reported a.id) →
      op.Quiet db out → Change codec db op out (db.setProcess p')
  | authorized {supervisor : Supervisor} {p p' : Process} : p ∈ db.processes →
      p.processID = supervisor.processID → p.Advances p' → p'.localClosed = p.localClosed →
      p.execCommitted = false → p'.execCommitted = true →
      Change codec db (.authorizeSpawnOnce supervisor) (.spawn true) (db.setProcess p')
  | compacted {op : Op} {out : Outcome} {p : Process} {seq : Int} : p ∈ db.processes →
      p.resolvedActionSeq ≤ seq → (p.resolvedAt seq).check = true →
      (∀ a ∈ db.actions, a.processID = p.processID → seq < a.seq) →
      op.Quiet db out → Change codec db op out (db.setProcess (p.resolvedAt seq))
  | executed {supervisor : Supervisor} {action : Action} {p : Process} {actions : Table Action.id} :
      p ∈ db.processes → p.processID = action.processID → p.resolvedActionSeq < action.seq →
      (∀ a ∈ db.actions, a.processID ≠ p.processID) → p.admits = true → action.check = true →
      (p.resolvedAt (action.seq - 1)).check = true →
      db.actions.insert { action with effectCommitted := true } = some actions →
      Change codec db (.applyOnce supervisor action) (.apply .execute)
        ({ db with actions }.setProcess (p.resolvedAt (action.seq - 1)))
  | withoutEffect {supervisor : Supervisor} {action : Action} {report : Report} {newReportID : String}
      {p : Process} {actions : Table Action.id} {frozen : Report} {reports : Table Report.id} :
      p ∈ db.processes → p.processID = action.processID → p.resolvedActionSeq < action.seq →
      (∀ a ∈ db.actions, a.processID ≠ p.processID) → p.localClosed = false → action.check = true →
      (p.resolvedAt (action.seq - 1)).check = true →
      db.actions.insert { action with effectCommitted := false } = some actions →
      frozen.kind = .actionTerminal → frozen.processID = action.processID →
      frozen.actionID = action.id → Db.Freezable codec { db with actions } frozen →
      db.reports.insert frozen = some reports →
      Change codec db (.recordActionWithoutEffect supervisor action report newReportID)
        (.noEffect (.recorded frozen))
        ({ db with actions, reports }.setProcess (p.resolvedAt (action.seq - 1)))
  | froze {op : Op} {frozen : Report} {reports : Table Report.id} : frozen.kind ≠ .processTerminal →
      db.Freezable codec frozen →
      (frozen.kind = .processStarted → ∀ p ∈ db.processes, p.processID = frozen.processID →
        (p.phase = .accepted ∨ p.phase = .terminal) ∧ p.execCommitted = true ∧
          p.containmentKind ≠ "") →
      db.reports.insert frozen = some reports → op.Quiet db (.frozen frozen) →
      Change codec db op (.frozen frozen) { db with reports }
  | frozeTerminal {op : Op} {frozen : Report} {reports : Table Report.id} {p : Process} :
      frozen.kind = .processTerminal → db.Freezable codec frozen →
      db.reports.insert frozen = some reports → p ∈ db.processes →
      p.processID = frozen.processID → (p.phase = .accepted ∨ p.phase = .terminal) →
      { p with phase := .terminal, actionAdmissionClosed := true : Process }.check = true →
      op.Quiet db (.frozen frozen) →
      Change codec db op (.frozen frozen)
        ({ db with reports }.setProcess { p with phase := .terminal, actionAdmissionClosed := true })
  | acknowledgedAction {r : Report} {a : Action} {p : Process} : r ∈ db.reports →
      r.kind = .actionTerminal → a ∈ db.actions → a.id = r.actionID → a.processID = r.processID →
      p ∈ db.processes → p.processID = a.processID → a.seq = p.resolvedActionSeq + 1 →
      (p.resolvedAt a.seq).check = true →
      Change codec db (.acknowledgeReport r.id) .done
        ((db.setProcess (p.resolvedAt a.seq)).deleteProcessAction a.id a.processID)
  | acknowledgedProcess {r : Report} {p p' : Process} : r ∈ db.reports → r.kind ≠ .actionTerminal →
      (r.state = .pending ∨ r.state = .rejected) →
      { r with state := .acknowledged, errorCode := "", error := "" : Report }.check = true →
      p ∈ db.processes → p.Advances p' → p'.localClosed = p.localClosed →
      Change codec db (.acknowledgeReport r.id) .done
        ((db.setReport { r with state := .acknowledged, errorCode := "", error := "" }).setProcess p')
  | rejected {r : Report} {code message : String} : r ∈ db.reports → r.state = .pending →
      { r with state := .rejected, errorCode := code, error := message : Report }.check = true →
      Change codec db (.rejectReport r.id code message) .done
        (db.setReport { r with state := .rejected, errorCode := code, error := message })
  | released {supervisor : Supervisor} {a : Action} {p : Process} : a ∈ db.actions →
      p ∈ db.processes → p.processID = a.processID → supervisor.processID = a.processID →
      a.seq = p.resolvedActionSeq + 1 → ¬ db.Reported a.id → (p.resolvedAt a.seq).check = true →
      Change codec db (.releaseAction supervisor a.id a.seq) .done
        ((db.deleteProcessAction a.id a.processID).setProcess (p.resolvedAt a.seq))
  | deleted {op : Op} {p : Process} : p ∈ db.processes → op.Quiet db .done →
      Change codec db op .done (db.deleteProcess p.processID p.supervisorInstanceID)

/-! ## Processes -/

section
variable {codec : Codec} {db db' : Db} {op : Op} {p : Process} {supervisor : Supervisor}
  {action : Action} {seq : Int} {newReportID actionID : String} {report r : Report}

theorem Process.Advances.refl (h : p.check = true) : p.Advances p :=
  ⟨rfl, rfl, rfl, h, Iff.rfl, id, id, id⟩

theorem updateProcess_change {operation : String} {cond : Process → Bool}
    {set : Process → Process} (h : db.updateProcess operation supervisor cond set = .ok db')
    (hset : ∀ p, cond p = true → (set p).check = true → p.Advances (set p))
    (hcl : ∀ p, (set p).localClosed = p.localClosed) (hquiet : op.Quiet db .done) :
    Change codec db op .done db' := by
  obtain ⟨p, hp, -, -, hcond, hchk, rfl⟩ := Db.updateProcess_ok h
  exact .updated hp (hset p hcond hchk) (fun hc => .inl (hcl p ▸ hc)) hquiet

theorem reserveProcess_change {process : Process} (h : db.reserveProcess process = .ok db') :
    Change codec db (.reserveProcess process) .done db' := by
  obtain ⟨-, -, h⟩ := bind_eq_ok.1 h
  split at h
  · obtain ⟨-, -, h⟩ := bind_eq_ok.1 h
    cases h
    exact .unchanged ⟨rfl, nofun, fun _ _ => rfl⟩
  · obtain ⟨processes, hins, hchk, rfl⟩ := Db.insertProcess_ok h
    refine .reserved ?_ ?_ ?_ ?_ ?_ hchk hins <;> rfl

theorem deleteProcessAfterArtifacts_change {accepted : Bool} (hquiet : op.Quiet db .done)
    (h : db.deleteProcessAfterArtifacts supervisor accepted = .ok db') :
    Change codec db op .done db' := by
  unfold Db.deleteProcessAfterArtifacts at h
  split at h
  · cases h
    exact .unchanged hquiet
  · rename_i p hp
    simp only [bind_eq_ok, ensure_eq_ok] at h
    obtain ⟨-, hinst, -, -, -, -, h⟩ := h
    cases h
    obtain ⟨hp, hid⟩ := Db.processTx_eq_some.1 hp
    rw [← hid, ← hinst]
    exact .deleted hp hquiet

/-- A closed process is deleted when the server has released it and nothing of it is unsettled. -/
theorem deleteClosedAfterArtifacts_ok (h : db.deleteClosedAfterArtifacts supervisor = .ok db') :
    db' = db ∨ ∃ p ∈ db.processes, (p.localClosed = true ∧ p.serverReleased = true ∧
      (∀ a ∈ db.actions, a.processID ≠ p.processID) ∧
      ∀ r ∈ db.reports, r.processID = p.processID → r.state = .acknowledged) ∧
      db' = db.deleteProcess p.processID p.supervisorInstanceID := by
  unfold Db.deleteClosedAfterArtifacts at h
  split at h
  · cases h
    exact .inl rfl
  · rename_i p hp
    simp only [bind_eq_ok, ensure_eq_ok, Db.countProcessActions_eq_zero,
      Db.countUnsettledProcessReports_eq_zero] at h
    obtain ⟨-, hinst, -, hcl, -, hacts, -, hreps, h⟩ := h
    cases h
    obtain ⟨hp, hid⟩ := Db.processTx_eq_some.1 hp
    rw [← hid] at hacts hreps ⊢
    rw [← hinst]
    exact .inr ⟨p, hp, ⟨hcl.1, hcl.2, hacts, hreps⟩, rfl⟩

theorem authorizeSpawnOnce_change {authorized : Bool}
    (h : db.authorizeSpawnOnce supervisor = .ok (db', authorized)) :
    Change codec db (.authorizeSpawnOnce supervisor) (.spawn authorized) db' := by
  unfold Db.authorizeSpawnOnce at h
  simp only [bind_eq_ok, Prod.exists] at h
  obtain ⟨db₁, count, hupd, h⟩ := h
  obtain ⟨p, hp, hid, hcond, hchk, rfl, rfl⟩ | ⟨-, rfl, rfl⟩ := Db.updateProcesses_ok hupd
  · cases h
    simp only [Bool.and_eq_true, Bool.not_eq_true', decide_eq_true_eq] at hcond
    exact .authorized hp hid ⟨rfl, rfl, rfl, hchk, Iff.rfl, id, fun _ => rfl, id⟩ rfl hcond.1.2 rfl
  · simp only [Nat.zero_ne_one, if_false, bind_eq_ok, ensure_eq_ok] at h
    obtain ⟨process, -, -, -, h⟩ := h
    cases h
    exact .unchanged ⟨rfl, nofun, fun _ _ => rfl⟩

theorem markLocalClosed_change (h : db.markLocalClosed supervisor = .ok db') :
    Change codec db (.markLocalClosed supervisor) .done db' := by
  have hquiet : Op.Quiet db (.markLocalClosed supervisor) .done := ⟨rfl, nofun, fun _ _ => rfl⟩
  obtain ⟨process, hprocess, h⟩ := bind_eq_ok.1 h
  split at h
  · cases h
    exact .unchanged hquiet
  · simp only [bind_eq_ok, ensure_eq_ok, Db.countUnresolvedProcessActions_eq_zero, Prod.exists] at h
    obtain ⟨-, hph, -, -, -, hacts, db₁, count, hupd, h⟩ := h
    cases h
    obtain ⟨hmem, hid, hinst⟩ := Db.supervised_ok.1 hprocess
    obtain ⟨hchk, rfl⟩ := Db.updateProcesses_mem hupd hmem hid (by simp [hinst])
    refine .updated hmem ⟨rfl, rfl, rfl, hchk, Iff.rfl, id, id, id⟩ (fun _ => .inr ⟨hph.1, ?_⟩)
      hquiet
    exact fun a ha haid => hacts a ha (haid.trans hid)

/-! ## Actions -/

theorem loadActionTransitionTx_ok {existing : Option Action}
    (h : db.loadActionTransitionTx supervisor action = .ok (p, existing)) :
    (p ∈ db.processes ∧ p.processID = supervisor.processID ∧
      p.supervisorInstanceID = supervisor.supervisorInstanceID) ∧
    existing = db.actionTx action.id ∧ ∀ row ∈ existing, Db.sameActionIdentity row action = true := by
  unfold Db.loadActionTransitionTx at h
  simp only [bind_eq_ok, ensure_eq_ok, Option.all_eq_true] at h
  obtain ⟨process, hprocess, -, hsame, h⟩ := h
  cases h
  exact ⟨Db.supervised_ok.1 hprocess, rfl, hsame⟩

/-- Where no row stands between the frontier and an unused sequence number, the process has no row. -/
theorem Inv.idle (hinv : Inv codec db) (hp : p ∈ db.processes) (hlt : p.resolvedActionSeq < seq)
    (hrows : ∀ a ∈ db.actions, a.processID = p.processID → p.resolvedActionSeq < a.seq → seq ≤ a.seq)
    (hunused : ∀ a ∈ db.actions, a.processID = p.processID → a.seq ≠ seq) :
    ∀ a ∈ db.actions, a.processID ≠ p.processID := by
  intro a ha hid
  have hnext := hinv.next a ha p hp hid.symm
  have hle := hrows a ha hid (by omega)
  exact hunused a ha hid (by omega)

/-- What `ApplyOnce` and `RecordActionWithoutEffect` share: an action with a row is reported or crossed
its effect boundary, one without is behind the frontier, blocked by an earlier row or not admitted, or
`record` goes on with the frontier right before it. -/
theorem transition_ok (hinv : Inv codec db) {δ : Type}
    (hp : p ∈ db.processes) {existing : Option Action} {reported : Report → δ} {conflict : Error}
    {unreported resolved blocked closed decision : δ} {refuses : Process → Bool}
    {record : Db → Process → Except Error (Db × δ)}
    (h : (match existing with
      | some row =>
        match db.reportByActionTx action.id with
        | some report => Except.ok (db, reported report)
        | none => (ensure row.effectCommitted conflict).bind fun _ => .ok (db, unreported)
      | none =>
        if action.seq ≤ p.resolvedActionSeq then .ok (db, resolved)
        else match db.compactMissingActionPrefixTx p action.seq with
          | .error (.actionBlocked _) => .ok (db, blocked)
          | .error err => .error err
          | .ok (db, process) =>
            if action.seq ≠ process.resolvedActionSeq + 1 then .ok (db, blocked)
            else if refuses process = true then .ok (db, closed)
            else record db process) = .ok (db', decision)) :
    db' = db ∧ ((∃ row r, existing = some row ∧ db.reportByActionTx action.id = some r ∧
      decision = reported r) ∨ decision = unreported ∨ decision = resolved ∨ decision = blocked) ∨
    existing = none ∧ (p.resolvedActionSeq < action.seq ∧ (p.resolvedAt (action.seq - 1)).check = true ∧
      ∀ a ∈ db.actions, a.processID = p.processID → p.resolvedActionSeq < a.seq → action.seq ≤ a.seq) ∧
      (db' = db.setProcess (p.resolvedAt (action.seq - 1)) ∧ decision = closed ∨
        refuses (p.resolvedAt (action.seq - 1)) = false ∧
          record (db.setProcess (p.resolvedAt (action.seq - 1))) (p.resolvedAt (action.seq - 1)) =
            .ok (db', decision)) := by
  cases existing with
  | some row =>
    dsimp only at h
    split at h
    · cases h
      exact .inl ⟨rfl, .inl ⟨row, _, rfl, ‹_›, rfl⟩⟩
    · obtain ⟨-, -, h⟩ := bind_eq_ok.1 h
      cases h
      exact .inl ⟨rfl, .inr (.inl rfl)⟩
  | none =>
    dsimp only at h
    split at h
    · cases h
      exact .inl ⟨rfl, .inr (.inr (.inl rfl))⟩
    rename_i hlt
    split at h
    · cases h
      exact .inl ⟨rfl, .inr (.inr (.inr rfl))⟩
    · cases h
    · rename_i db₁ p₁ hcompact
      obtain ⟨rfl, hchk, rfl, hrows⟩ := Db.compactMissingActionPrefixTx_ok hp
        (hinv.processOk p hp) (by omega) hcompact
      refine .inr ⟨rfl, ⟨by omega, hchk, hrows⟩, ?_⟩
      rw [if_neg (by simp)] at h
      split at h
      · cases h
        exact .inl ⟨rfl, rfl⟩
      · exact .inr ⟨Bool.not_eq_true _ ▸ ‹¬ _›, h⟩

theorem Inv.beyond (hinv : Inv codec db) (hp : p ∈ db.processes)
    (hrows : ∀ a ∈ db.actions, a.processID = p.processID → p.resolvedActionSeq < a.seq →
      seq ≤ a.seq) :
    ∀ a ∈ db.actions, a.processID = p.processID → seq - 1 < a.seq := by
  intro a ha hid
  have hnext := hinv.next a ha p hp hid.symm
  have hle := hrows a ha hid (by omega)
  omega

theorem applyOnce_change (hinv : Inv codec db)
    {decision : ApplyDecision} (h : db.applyOnce supervisor action = .ok (db', decision)) :
    Change codec db (.applyOnce supervisor action) (.apply decision) db' := by
  have hquiet : ∀ d, d ≠ .execute → Op.Quiet db (.applyOnce supervisor action) (.apply d) :=
    fun d hd => ⟨by cases d <;> simp [Op.recorded] at hd ⊢, nofun, fun _ _ => rfl⟩
  unfold Db.applyOnce Db.validateAction at h
  simp only [bind_eq_ok, ensure_eq_ok, Prod.exists] at h
  obtain ⟨-, ⟨hid, hproc, hseq⟩, p, existing, hload, h⟩ := h
  obtain ⟨⟨hp, hpid, -⟩, -, -⟩ := loadActionTransitionTx_ok hload
  have hact : action.check = true := by simp [Action.check, hid, hseq]
  obtain ⟨rfl, hd⟩ | ⟨rfl, ⟨hlt, hchk, hrows⟩, ⟨rfl, rfl⟩ | ⟨hadmits, h⟩⟩ := transition_ok hinv hp h
  · obtain ⟨-, -, -, -, rfl⟩ | rfl | rfl | rfl := hd <;> exact .unchanged (hquiet _ nofun)
  · exact .compacted hp (by omega) hchk (hinv.beyond hp hrows) (hquiet _ nofun)
  · simp only [bind_eq_ok, Db.ensureActionSequenceUnused, ensure_eq_ok,
      Db.processActionIDBySequence_isNone] at h
    obtain ⟨-, hunused, db₂, hins, h⟩ := h
    cases h
    obtain ⟨actions, hacts, -, -, rfl⟩ := Db.insertProcessAction_ok hins
    exact .executed hp (hpid.trans hproc.symm) (by omega)
      (hinv.idle hp (by omega) hrows fun a ha haid =>
        hunused a ha (haid.trans (hpid.trans hproc.symm)))
      (by simpa [Process.admits] using hadmits) hact hchk hacts

theorem freezable_of_freezeReportTx {frozen : Report}
    (h : db.freezeReportTx codec newReportID report = .ok (db', frozen)) :
    frozen ∈ db.reports ∧ frozen.InSlot report.kind report.processID report.actionID ∧
        frozen.body = report.body ∧ db' = db ∨
      db.Freezable codec frozen ∧ frozen.InSlot report.kind report.processID report.actionID ∧
        ∃ reports, db.reports.insert frozen = some reports ∧ db' = { db with reports } := by
  obtain ⟨hval, hex | ⟨hslot, -, -, rfl, hins⟩⟩ := Db.freezeReportTx_ok h
  · exact .inl hex
  · obtain ⟨reports, hreps, hchk, hprocess, hact, rfl⟩ := Db.insertFrozenReport_ok hins
    exact .inr ⟨⟨hval, hchk, rfl, hslot, hprocess, hact⟩, ⟨rfl, rfl, rfl⟩, reports, hreps, rfl⟩

theorem recordActionWithoutEffect_change (hinv : Inv codec db) {decision : NoEffectDecision}
    (h : db.recordActionWithoutEffect codec supervisor action report newReportID =
      .ok (db', decision)) :
    Change codec db (.recordActionWithoutEffect supervisor action report newReportID)
      (.noEffect decision) db' := by
  have hquiet : ∀ d, (∀ r, d ≠ .recorded r) → Op.Quiet db
      (.recordActionWithoutEffect supervisor action report newReportID) (.noEffect d) :=
    fun d hd => ⟨by cases d <;> simp [Op.recorded] at hd ⊢, nofun, fun _ _ => rfl⟩
  unfold Db.recordActionWithoutEffect Db.validateAction Db.validateActionReportInput at h
  simp only [bind_eq_ok, ensure_eq_ok, Prod.exists] at h
  obtain ⟨-, ⟨hid, hproc, hseq⟩, -, ⟨hrproc, hraction, hrkind⟩, p, existing, hload, h⟩ := h
  obtain ⟨⟨hp, hpid, -⟩, hex, -⟩ := loadActionTransitionTx_ok hload
  have hact : action.check = true := by simp [Action.check, hid, hseq]
  obtain ⟨rfl, hd⟩ | ⟨rfl, ⟨hlt, hchk, hrows⟩, ⟨rfl, rfl⟩ | ⟨hadmits, h⟩⟩ := transition_ok hinv hp h
  · obtain ⟨-, -, -, -, rfl⟩ | rfl | rfl | rfl := hd <;> exact .unchanged (hquiet _ nofun)
  · exact .compacted hp (by omega) hchk (hinv.beyond hp hrows) (hquiet _ nofun)
  · simp only [bind_eq_ok, Db.ensureActionSequenceUnused, ensure_eq_ok,
      Db.processActionIDBySequence_isNone, Prod.exists] at h
    obtain ⟨-, hunused, db₂, hins, db₃, frozen, hfrz, h⟩ := h
    cases h
    obtain ⟨actions, hacts, -, -, rfl⟩ := Db.insertProcessAction_ok hins
    have hidle := hinv.idle hp (by omega) hrows fun a ha haid =>
      hunused a ha (haid.trans (hpid.trans hproc.symm))
    obtain ⟨hmem, ⟨-, hslot, hkind⟩, -⟩ | ⟨hfreezable, ⟨hslotp, hslot, hkind⟩, reports,
      hreps, rfl⟩ := freezable_of_freezeReportTx hfrz
    · -- a report of the action would need its row, which was not there
      obtain ⟨a, ha, haid, -⟩ := hinv.reportAction frozen hmem (hkind.trans hrkind)
      refine absurd (haid.trans (hslot.trans hraction)) (Db.actionTx_eq_none.1 ?_ a ha)
      exact hex.symm
    · refine .withoutEffect hp (hpid.trans hproc.symm) (by omega) hidle ?_ hact hchk
        hacts (hkind.trans hrkind) (hslotp.trans (hrproc.trans hproc.symm))
        (hslot.trans hraction) ?_ hreps
      · simp only [Bool.or_eq_false_iff] at hadmits
        exact hadmits.1
      · exact ⟨hfreezable.valid, hfreezable.check, hfreezable.pending, hfreezable.slot,
          ⟨p, hp, hpid.trans (hrproc.symm.trans hslotp.symm)⟩, hfreezable.action⟩

/-! ## Reports -/

theorem Op.Quiet.frozen (hsettles : ∀ a ∈ db.actions, op.settles db a = false) :
    op.Quiet db (.frozen report) :=
  ⟨by cases op <;> rfl, nofun, hsettles⟩

theorem freezeActionReport_change {frozen : Report}
    (h : db.freezeActionReport codec supervisor actionID report newReportID = .ok (db', frozen)) :
    Change codec db (.freezeActionReport supervisor actionID report newReportID) (.frozen frozen)
      db' := by
  unfold Db.freezeActionReport Db.validateActionReportInput at h
  simp only [bind_eq_ok, ensure_eq_ok] at h
  obtain ⟨-, ⟨-, -, hrkind⟩, -, -, h⟩ := h
  split at h
  · cases h
  · obtain ⟨-, -, h⟩ := bind_eq_ok.1 h
    split at h
    · obtain ⟨-, -, -, rfl⟩ | ⟨hfreezable, ⟨-, -, hkind⟩, reports, hreps, rfl⟩ :=
        freezable_of_freezeReportTx h
      · exact .unchanged (.frozen fun _ _ => rfl)
      · have hne : frozen.kind = .actionTerminal := hkind.trans hrkind
        exact .froze (by simp [hne]) hfreezable (by simp [hne]) hreps (.frozen fun _ _ => rfl)
    · split at h
      · cases h
        exact .unchanged (.frozen fun _ _ => rfl)
      · cases h

theorem freezeStartedReport_change {frozen : Report}
    (h : db.freezeStartedReport codec supervisor report newReportID = .ok (db', frozen)) :
    Change codec db (.freezeStartedReport supervisor report newReportID) (.frozen frozen) db' := by
  unfold Db.freezeStartedReport at h
  simp only [bind_eq_ok, ensure_eq_ok] at h
  obtain ⟨-, ⟨hrkind, hrproc, -⟩, process, hprocess, -, hstd, h⟩ := h
  obtain ⟨hp, hid, -⟩ := Db.supervised_ok.1 hprocess
  obtain ⟨-, -, -, rfl⟩ | ⟨hfreezable, ⟨hproc, -, hkind⟩, reports, hreps, rfl⟩ :=
    freezable_of_freezeReportTx h
  · exact .unchanged (.frozen fun _ _ => rfl)
  · refine .froze (by simp [hkind, hrkind]) hfreezable (fun _ p hmem hpid => ?_) hreps
      (.frozen fun _ _ => rfl)
    cases eq_of_key hmem hp (hpid.trans (hproc.trans (hrproc.trans hid.symm)))
    exact hstd

theorem freezeTerminalReport_change (hinv : Inv codec db) {frozen : Report}
    (h : db.freezeTerminalReport codec supervisor report newReportID = .ok (db', frozen)) :
    Change codec db (.freezeTerminalReport supervisor report newReportID) (.frozen frozen) db' := by
  unfold Db.freezeTerminalReport at h
  simp only [bind_eq_ok, ensure_eq_ok, Prod.exists] at h
  obtain ⟨-, ⟨hrkind, hrproc, -⟩, process, hprocess, -, hph, db₁, frozen₁, hfrz, db₂, count,
    hupd, h⟩ := h
  cases h
  obtain ⟨hp, hid, hinst⟩ := Db.supervised_ok.1 hprocess
  obtain ⟨hmem, ⟨hproc, -, hkind⟩, -, rfl⟩ | ⟨hfreezable, ⟨hproc, -, hkind⟩, reports, hreps, rfl⟩ :=
    freezable_of_freezeReportTx hfrz
  · obtain ⟨p, hq, hpid, -, hchk, rfl, -⟩ | ⟨-, rfl, -⟩ := Db.updateProcesses_ok hupd
    · have hterm : p.phase = .terminal := (hinv.terminal p hq).2
        ⟨frozen, hmem, hkind.trans hrkind, hproc.trans (hrproc.trans hpid.symm)⟩
      exact .updated hq ⟨rfl, rfl, rfl, hchk, by simp [hterm], by simp [hterm], id, id⟩
        (fun hc => .inl hc) (.frozen fun _ _ => rfl)
    · exact .unchanged (.frozen fun _ _ => rfl)
  · obtain ⟨hchk, rfl⟩ := Db.updateProcesses_mem hupd hp hid (by simp [hinst])
    exact .frozeTerminal (hkind.trans hrkind) hfreezable hreps hp
      (hid.trans (hrproc.symm.trans hproc.symm)) hph hchk (.frozen fun _ _ => rfl)

theorem settles_acknowledge_process (hinv : Inv codec db) (hr : r ∈ db.reports)
    (hkind : r.kind ≠ .actionTerminal) (a : Action) :
    Op.settles db a (.acknowledgeReport r.id) = false := by
  have hchk := hinv.reportOk r hr
  simp only [Report.check, hkind, decide_false, Bool.false_and, Bool.false_or, ne_eq, not_false_eq_true,
    decide_true, Bool.true_and, Bool.and_eq_true, decide_eq_true_eq] at hchk
  simp [Op.settles, get_eq_some.2 ⟨hr, rfl⟩, Report.ofAction, hchk]

theorem releaseTerminalProcess_ok
    (h : db.releaseTerminalProcess r = .ok db') (hp : p ∈ db.processes)
    (hid : p.processID = r.processID) (hchk : p.check = true) :
    ∃ p', p.Advances p' ∧ p'.localClosed = p.localClosed ∧ db' = db.setProcess p' := by
  unfold Db.releaseTerminalProcess at h
  split at h
  · obtain ⟨⟨db₁, count⟩, hupd, rfl⟩ := map_eq_ok.1 h
    obtain ⟨hchk, rfl⟩ := Db.updateProcesses_mem hupd hp hid rfl
    exact ⟨{ p with serverReleased := true }, ⟨rfl, rfl, rfl, hchk, Iff.rfl, id, id, id⟩, rfl, rfl⟩
  · cases h
    exact ⟨p, .refl hchk, rfl, by rw [Db.setProcess, replace_self hp]⟩

theorem acknowledgeProcessReport_change (hinv : Inv codec db) (hr : r ∈ db.reports)
    (hkind : r.kind ≠ .actionTerminal) {db₁ : Db} (hrep : db.acknowledgeProcessReport r = .ok db₁)
    (hrelease : db₁.releaseTerminalProcess r = .ok db') :
    Change codec db (.acknowledgeReport r.id) .done db' := by
  obtain ⟨p, hp, hid⟩ := hinv.reportProcess r hr
  have hchk := hinv.processOk p hp
  unfold Db.acknowledgeProcessReport at hrep
  split at hrep
  · rename_i hst
    obtain ⟨hrcheck, rfl⟩ := Db.updateReport_ok hrep (get_eq_some.2 ⟨hr, rfl⟩)
      (by simpa using hst)
    obtain ⟨p', hadv, hcl, rfl⟩ := releaseTerminalProcess_ok hrelease hp hid hchk
    exact .acknowledgedProcess hr hkind hst hrcheck hp hadv hcl
  · split at hrep
    · cases hrep
      obtain ⟨p', hadv, hcl, rfl⟩ := releaseTerminalProcess_ok hrelease hp hid hchk
      exact .updated hp hadv (fun hc => .inl (hcl ▸ hc))
        ⟨rfl, nofun, fun a _ => settles_acknowledge_process hinv hr hkind a⟩
    · cases hrep

theorem acknowledgeReport_change (hinv : Inv codec db) {reportID : String}
    (h : db.acknowledgeReport reportID = .ok db') :
    Change codec db (.acknowledgeReport reportID) .done db' := by
  unfold Db.acknowledgeReport at h
  split at h
  · cases h
  · rename_i r hget
    obtain ⟨hr, rfl⟩ := get_eq_some.1 hget
    split at h
    · rename_i hkind
      obtain ⟨-, -, h⟩ := bind_eq_ok.1 h
      split at h
      · cases h
      · rename_i a ha
        obtain ⟨ha, hproc⟩ := Option.filter_eq_some_iff.1 ha
        obtain ⟨ha, haid⟩ := Db.actionTx_eq_some.1 ha
        rw [decide_eq_true_eq] at hproc
        split at h
        · cases h
        · rename_i p hp
          obtain ⟨hp, hpid⟩ := Db.processTx_eq_some.1 hp
          simp only [bind_eq_ok, ensure_eq_ok, Prod.exists] at h
          obtain ⟨-, hseq, db₁, count, hupd, h⟩ := h
          cases h
          have hid : p.processID = a.processID := hpid.trans hproc.symm
          obtain ⟨hchk, rfl⟩ := Db.updateProcesses_mem hupd hp hid rfl
          exact .acknowledgedAction hr hkind ha haid hproc hp hid hseq hchk
    · obtain ⟨db₁, hrep, h⟩ := bind_eq_ok.1 h
      exact acknowledgeProcessReport_change hinv hr ‹_› hrep h

theorem rejectReport_change {reportID code message : String}
    (h : db.rejectReport reportID code message = .ok db') :
    Change codec db (.rejectReport reportID code message) .done db' := by
  obtain ⟨-, -, h⟩ := bind_eq_ok.1 h
  split at h
  · cases h
  · rename_i r hget
    obtain ⟨hr, rfl⟩ := get_eq_some.1 hget
    split at h
    · obtain ⟨-, -, h⟩ := bind_eq_ok.1 h
      cases h
      exact .unchanged ⟨rfl, by simp, fun _ _ => rfl⟩
    · simp only [bind_eq_ok, ensure_eq_ok] at h
      obtain ⟨-, hst, h⟩ := h
      obtain ⟨hchk, rfl⟩ := Db.updateReport_ok h hget (by simpa using hst)
      exact .rejected hr hst hchk

theorem setProcess_setProcess {p' : Process} (h : p.processID = p'.processID) :
    (db.setProcess p).setProcess p' = db.setProcess p' := by
  simp only [Db.setProcess, replace_replace h]

theorem releaseFrontier_ok
    {recorded : Bool} (h : db.releaseFrontier supervisor actionID seq recorded = .ok db')
    (hp : p ∈ db.processes) (hid : p.processID = supervisor.processID)
    (hinst : p.supervisorInstanceID = supervisor.supervisorInstanceID) :
    (recorded = true → ∀ r ∈ db.reports, r.ofAction actionID = false) ∧
    (p.resolvedAt seq).check = true ∧
    db' = (if recorded then db.deleteProcessAction actionID supervisor.processID
      else db).setProcess (p.resolvedAt seq) := by
  unfold Db.releaseFrontier at h
  simp only [bind_eq_ok, ensure_eq_ok, Option.isNone_iff_eq_none, Db.reportByActionTx_eq_none,
    Prod.exists] at h
  obtain ⟨-, hrep, db₁, count, hupd, h⟩ := h
  cases h
  have hprocs : (if recorded then db.deleteProcessAction actionID supervisor.processID
      else db).processes = db.processes := by
    split <;> rfl
  obtain ⟨hchk, rfl⟩ := Db.updateProcesses_mem hupd (hprocs ▸ hp) hid (by simp [hinst])
  exact ⟨hrep, hchk, rfl⟩

theorem releaseActionTx_change (hinv : Inv codec db) {requireAbsent : Bool}
    (hop : op = .releaseAction supervisor actionID seq ∧ requireAbsent = false ∨
      op = .resolveAbsentAction supervisor actionID seq ∧ requireAbsent = true)
    (h : db.releaseActionTx supervisor actionID seq requireAbsent = .ok db') :
    Change codec db op .done db' := by
  unfold Db.releaseActionTx at h
  simp only [bind_eq_ok, ensure_eq_ok] at h
  obtain ⟨-, -, p, hprocess, -, hident, -, habsent, h⟩ := h
  obtain ⟨hp, hid, hinst⟩ := Db.supervised_ok.1 hprocess
  cases hact : db.actionTx actionID with
  | none =>
    -- no row is settled: there is none under this id
    have hquiet : op.Quiet db .done := by
      have hnone := Db.actionTx_eq_none.1 hact
      obtain ⟨rfl, -⟩ | ⟨rfl, -⟩ := hop
      · refine ⟨rfl, nofun, fun a ha => ?_⟩
        simp [Op.settles, Ne.symm (hnone a ha)]
      · exact ⟨rfl, nofun, fun _ _ => rfl⟩
    simp only [hact, Option.isNone_none, if_true, bind_eq_ok, Db.ensureActionSequenceUnused,
      ensure_eq_ok, Db.processActionIDBySequence_isNone] at h
    obtain ⟨-, hunused, h⟩ := h
    split at h
    · cases h
      exact .unchanged hquiet
    · rename_i hlt
      split at h
      · cases h
        exact .unchanged hquiet
      · cases h
      · rename_i db₁ p₁ hcompact
        obtain ⟨rfl, -, rfl, hrows⟩ := Db.compactMissingActionPrefixTx_ok hp (hinv.processOk p hp)
          (by omega) hcompact
        simp only [bind_eq_ok, ensure_eq_ok] at h
        obtain ⟨-, -, h⟩ := h
        obtain ⟨-, hchk, rfl⟩ := releaseFrontier_ok h (Db.mem_setProcess_self hp rfl) hid hinst
        simp only [Option.isSome_none, Bool.false_eq_true, if_false]
        have htwice : (db.setProcess (p.resolvedAt (seq - 1))).setProcess (p.resolvedAt seq) =
            db.setProcess (p.resolvedAt seq) := setProcess_setProcess rfl
        rw [htwice]
        refine .compacted hp (by omega) hchk (fun a ha haid => ?_) hquiet
        exact absurd haid (hinv.idle hp (by omega) hrows
          (fun b hb hbid => hunused b hb (hbid.trans hid)) a ha)
  | some a =>
    obtain ⟨ha, rfl⟩ := Db.actionTx_eq_some.1 hact
    simp only [hact, Option.all_some, Bool.and_eq_true, decide_eq_true_eq] at hident
    obtain ⟨hproc, rfl⟩ := hident
    obtain ⟨rfl, rfl⟩ : op = .releaseAction supervisor a.id a.seq ∧ requireAbsent = false := by
      refine hop.resolve_right fun hop => ?_
      simpa [hact] using habsent hop.2
    have hnext := hinv.next a ha p hp (hid.trans hproc.symm)
    simp only [hact, Option.isNone_some, Bool.false_eq_true, if_false] at h
    split at h
    · simp only [bind_eq_ok, ensure_eq_ok, false_and, exists_const] at h
    · split at h
      · simp only [bind_eq_ok, ensure_eq_ok, false_and, exists_const] at h
      · cases h
      · rename_i db₁ p₁ hcompact
        obtain ⟨rfl, -, rfl, -⟩ := Db.compactMissingActionPrefixTx_ok hp (hinv.processOk p hp)
          (by omega) hcompact
        have hp₁ : p.resolvedAt (a.seq - 1) = p := by simp [Process.resolvedAt, hnext]
        simp only [bind_eq_ok, ensure_eq_ok] at h
        obtain ⟨-, -, h⟩ := h
        rw [hp₁, Db.setProcess, replace_self hp] at h
        obtain ⟨hrep, hchk, rfl⟩ := releaseFrontier_ok h hp hid hinst
        rw [Option.isSome_some, if_pos rfl, ← hproc]
        refine .released ha hp (hid.trans hproc.symm) hproc.symm hnext ?_ hchk
        rintro ⟨r, hr, hof⟩
        simp [hrep rfl r hr] at hof

/-! ## All operations -/

theorem done_ok {result : Except Error Db} {out : Outcome} (h : done result = .ok (db', out)) :
    result = .ok db' ∧ out = .done := by
  obtain ⟨db₁, hresult, heq⟩ := map_eq_ok.1 h
  cases heq
  exact ⟨hresult, rfl⟩

/-- **What a committed operation can do.** -/
theorem run_change (hinv : Inv codec db) {out : Outcome} (hrun : Op.run codec db op = .ok (db', out)) :
    Change codec db op out db' := by
  have hquiet : ∀ {op : Op}, op.recorded .done = none → (∀ a, op.settles db a = false) →
      op.Quiet db .done := fun hrec hset => ⟨hrec, nofun, fun a _ => hset a⟩
  cases op with
  | reserveProcess =>
    obtain ⟨h, rfl⟩ := done_ok hrun
    exact reserveProcess_change h
  | markPrepared | markAccepted =>
    obtain ⟨h, rfl⟩ := done_ok hrun
    refine updateProcess_change h (fun p hcond hchk => ?_) (fun _ => rfl) (hquiet rfl fun _ => rfl)
    exact ⟨rfl, rfl, rfl, hchk, by aesop, by aesop, id, id⟩
  | deleteRejectedPreparationAfterArtifacts
  | deleteStorageExhaustedAfterArtifacts =>
    obtain ⟨h, rfl⟩ := done_ok hrun
    exact deleteProcessAfterArtifacts_change (hquiet rfl fun _ => rfl) h
  | authorizeSpawnOnce =>
    obtain ⟨⟨db₁, authorized⟩, h, heq⟩ := map_eq_ok.1 hrun
    cases heq
    exact authorizeSpawnOnce_change h
  | recordSpawned =>
    obtain ⟨h, rfl⟩ := done_ok hrun
    unfold Db.recordSpawned at h
    simp only [bind_eq_ok, ensure_eq_ok] at h
    obtain ⟨-, hkind, h⟩ := h
    exact updateProcess_change h
      (fun p _ hchk => ⟨rfl, rfl, rfl, hchk, Iff.rfl, id, id, fun _ => hkind.1⟩) (fun _ => rfl)
      (hquiet rfl fun _ => rfl)
  | closeActionAdmission | markContainmentEmpty | markServerReleased =>
    obtain ⟨h, rfl⟩ := done_ok hrun
    exact updateProcess_change h (fun p _ hchk => ⟨rfl, rfl, rfl, hchk, Iff.rfl, id, id, id⟩)
      (fun _ => rfl) (hquiet rfl fun _ => rfl)
  | markLocalClosed =>
    obtain ⟨h, rfl⟩ := done_ok hrun
    exact markLocalClosed_change h
  | deleteClosedAfterArtifacts =>
    obtain ⟨h, rfl⟩ := done_ok hrun
    obtain rfl | ⟨p, hp, -, rfl⟩ := deleteClosedAfterArtifacts_ok h
    · exact .unchanged (hquiet rfl fun _ => rfl)
    · exact .deleted hp (hquiet rfl fun _ => rfl)
  | applyOnce =>
    obtain ⟨⟨db₁, decision⟩, h, heq⟩ := map_eq_ok.1 hrun
    cases heq
    exact applyOnce_change hinv h
  | recordActionWithoutEffect =>
    obtain ⟨⟨db₁, decision⟩, h, heq⟩ := map_eq_ok.1 hrun
    cases heq
    exact recordActionWithoutEffect_change hinv h
  | freezeActionReport =>
    obtain ⟨⟨db₁, frozen⟩, h, heq⟩ := map_eq_ok.1 hrun
    cases heq
    exact freezeActionReport_change h
  | freezeStartedReport =>
    obtain ⟨⟨db₁, frozen⟩, h, heq⟩ := map_eq_ok.1 hrun
    cases heq
    exact freezeStartedReport_change h
  | freezeTerminalReport =>
    obtain ⟨⟨db₁, frozen⟩, h, heq⟩ := map_eq_ok.1 hrun
    cases heq
    exact freezeTerminalReport_change hinv h
  | acknowledgeReport =>
    obtain ⟨h, rfl⟩ := done_ok hrun
    exact acknowledgeReport_change hinv h
  | releaseAction =>
    obtain ⟨h, rfl⟩ := done_ok hrun
    exact releaseActionTx_change hinv (.inl ⟨rfl, rfl⟩) h
  | resolveAbsentAction =>
    obtain ⟨h, rfl⟩ := done_ok hrun
    exact releaseActionTx_change hinv (.inr ⟨rfl, rfl⟩) h
  | rejectReport =>
    obtain ⟨h, rfl⟩ := done_ok hrun
    exact rejectReport_change h

end

end StateDb
