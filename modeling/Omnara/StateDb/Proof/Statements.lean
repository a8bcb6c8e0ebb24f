import Omnara.StateDb.System

/-!
# What each statement of a transaction does

One lemma for each query and each write, in terms of the rows of the tables; the transactions are then
taken apart without unfolding the statements. `compactMissingActionPrefixTx_ok` and `freezeReportTx_ok`
say what the two parts that several transactions share can do.
-/

namespace StateDb

open Fallible Table

def Report.InSlot (r : Report) (kind : ReportKind) (processID actionID : String) : Prop :=
  r.processID = processID ∧ r.actionID = actionID ∧ r.kind = kind

/-- The process row with the frontier at a sequence number. -/
abbrev Process.resolvedAt (p : Process) (seq : Int) : Process := { p with resolvedActionSeq := seq }

namespace Db

variable {codec : Codec} {db db' : Db}

variable {processID actionID operation : String} {p : Process} {r : Report} {cond : Process → Bool}
  {set : Process → Process}

/-! ## Queries -/

theorem processTx_eq_some :
    db.processTx processID = some p ↔ p ∈ db.processes ∧ p.processID = processID :=
  get_eq_some

theorem processTx_eq_none :
    db.processTx processID = none ↔ ∀ p ∈ db.processes, p.processID ≠ processID :=
  get_eq_none

theorem actionTx_eq_some {a : Action} :
    db.actionTx actionID = some a ↔ a ∈ db.actions ∧ a.id = actionID :=
  get_eq_some

theorem actionTx_eq_none : db.actionTx actionID = none ↔ ∀ a ∈ db.actions, a.id ≠ actionID :=
  get_eq_none

theorem supervised_ok {supervisor : Supervisor} :
    db.supervised supervisor = .ok p ↔ p ∈ db.processes ∧ p.processID = supervisor.processID ∧
      p.supervisorInstanceID = supervisor.supervisorInstanceID := by
  unfold supervised
  cases hp : db.processTx supervisor.processID with
  | none =>
    refine ⟨nofun, fun ⟨hmem, hid, _⟩ => ?_⟩
    exact absurd hid (processTx_eq_none.1 hp p hmem)
  | some q =>
    obtain ⟨hq, hid⟩ := processTx_eq_some.1 hp
    have hiff : p ∈ db.processes ∧ p.processID = supervisor.processID ↔ q = p :=
      ⟨fun h => eq_of_key hq h.1 (hid.trans h.2.symm), fun h => h ▸ ⟨hq, hid⟩⟩
    rw [← and_assoc, hiff]
    by_cases hi : q.supervisorInstanceID = supervisor.supervisorInstanceID
    · simp only [if_pos hi, Except.ok.injEq]
      exact ⟨fun h => ⟨h, h ▸ hi⟩, And.left⟩
    · simp only [if_neg hi, reduceCtorEq, false_iff]
      exact fun h => hi (h.1 ▸ h.2)

theorem reportByActionTx_eq_none :
    db.reportByActionTx actionID = none ↔ ∀ r ∈ db.reports, r.ofAction actionID = false := by
  simp [reportByActionTx, mem_rows]

theorem reportByActionTx_some
    (h : db.reportByActionTx actionID = some r) : r ∈ db.reports ∧ r.ofAction actionID = true := by
  exact ⟨List.mem_of_find?_eq_some h, by simpa using List.find?_some h⟩

theorem reportBySlotTx_some {kind : ReportKind}
    (h : db.reportBySlotTx kind processID actionID = some r) :
    r ∈ db.reports ∧ r.InSlot kind processID actionID := by
  unfold reportBySlotTx at h
  split at h
  · have hr := List.find?_some h
    simp only [Bool.and_eq_true, decide_eq_true_eq] at hr
    exact ⟨List.mem_of_find?_eq_some h, hr.1.1, hr.1.2.trans (Eq.symm ‹_›), hr.2⟩
  · have hr := List.find?_some h
    simp only [Report.ofAction, Bool.and_eq_true, decide_eq_true_eq] at hr
    exact ⟨List.mem_of_find?_eq_some h, hr.1.1, hr.1.2.2, hr.2⟩

theorem reportBySlotTx_eq_none {kind : ReportKind} :
    db.reportBySlotTx kind processID actionID = none ↔
      ∀ r ∈ db.reports, ¬ r.InSlot kind processID actionID := by
  unfold reportBySlotTx Report.InSlot
  split
  · subst_vars
    simp [mem_rows]
  · rename_i hne
    simp only [List.find?_eq_none, mem_rows, Report.ofAction, Bool.and_eq_true, decide_eq_true_eq]
    refine forall₂_congr fun r _ => not_congr ⟨?_, ?_⟩
    · rintro ⟨⟨hp, -, ha⟩, hk⟩
      exact ⟨hp, ha, hk⟩
    · rintro ⟨hp, ha, hk⟩
      exact ⟨⟨hp, ha ▸ hne, ha⟩, hk⟩

theorem countProcessActionsBetween_eq_zero {afterSeq beforeSeq : Int} :
    db.countProcessActionsBetween processID afterSeq beforeSeq = 0 ↔
      ∀ a ∈ db.actions, a.processID = processID → afterSeq < a.seq → beforeSeq ≤ a.seq := by
  simp [countProcessActionsBetween, List.countP_eq_zero, mem_rows]

theorem processActionIDBySequence_isNone {seq : Int} :
    (db.processActionIDBySequence processID seq).isNone ↔
      ∀ a ∈ db.actions, a.processID = processID → a.seq ≠ seq := by
  simp [processActionIDBySequence, mem_rows]

theorem countUnresolvedProcessActions_eq_zero :
    db.countUnresolvedProcessActions processID = 0 ↔
      ∀ a ∈ db.actions, a.processID = processID → ∃ r ∈ db.reports, r.ofAction a.id = true := by
  simp [countUnresolvedProcessActions, List.countP_eq_zero, mem_rows]

theorem countProcessActions_eq_zero :
    db.countProcessActions processID = 0 ↔ ∀ a ∈ db.actions, a.processID ≠ processID := by
  simp [countProcessActions, List.countP_eq_zero, mem_rows]

theorem countUnsettledProcessReports_eq_zero :
    db.countUnsettledProcessReports processID = 0 ↔
      ∀ r ∈ db.reports, r.processID = processID → r.state = .acknowledged := by
  simp [countUnsettledProcessReports, List.countP_eq_zero, mem_rows]

/-! ## Writes -/

/-- An update of a process changes its one row, or nothing when the condition does not hold. -/
theorem updateProcesses_ok {count : Nat}
    (h : db.updateProcesses operation processID cond set = .ok (db', count)) :
    (∃ p ∈ db.processes, p.processID = processID ∧ cond p = true ∧ (set p).check = true ∧
      db' = db.setProcess (set p) ∧ count = 1) ∨
    (∀ p ∈ db.processes, p.processID = processID → cond p = false) ∧ db' = db ∧ count = 0 := by
  unfold updateProcesses at h
  cases hp : db.processTx processID with
  | none =>
    rw [hp] at h
    cases h
    exact .inr ⟨fun p hmem hid => absurd hid (processTx_eq_none.1 hp p hmem), rfl, rfl⟩
  | some p =>
    obtain ⟨hmem, hid⟩ := processTx_eq_some.1 hp
    simp only [hp] at h
    split at h
    · rename_i hcond
      cases h
      refine .inr ⟨fun q hq hqid => ?_, rfl, rfl⟩
      rw [eq_of_key hq hmem (hqid.trans hid.symm)]
      simpa using hcond
    · rename_i hcond
      split at h
      · cases h
        exact .inl ⟨p, hmem, hid, by simpa using hcond, ‹_›, rfl, rfl⟩
      · cases h

/-- An update of a process whose condition holds changes its row. -/
theorem updateProcesses_mem {count : Nat}
    (h : db.updateProcesses operation processID cond set = .ok (db', count)) (hp : p ∈ db.processes)
    (hid : p.processID = processID) (hcond : cond p = true) :
    (set p).check = true ∧ db' = db.setProcess (set p) := by
  obtain ⟨q, hq, hqid, -, hchk, rfl, -⟩ | ⟨hnone, -, -⟩ := updateProcesses_ok h
  · cases eq_of_key hq hp (hqid.trans hid.symm)
    exact ⟨hchk, rfl⟩
  · simp [hnone p hp hid] at hcond

theorem updateProcesses_eq (hp : p ∈ db.processes) (hcond : cond p = true)
    (hchk : (set p).check = true) :
    db.updateProcesses operation p.processID cond set = .ok (db.setProcess (set p), 1) := by
  unfold updateProcesses
  rw [processTx_eq_some.2 ⟨hp, rfl⟩]
  simp only [hcond, hchk, Bool.not_true, Bool.false_eq_true, if_false, if_true]

theorem updateProcess_ok {supervisor : Supervisor}
    (h : db.updateProcess operation supervisor cond set = .ok db') :
    ∃ p ∈ db.processes, p.processID = supervisor.processID ∧
      p.supervisorInstanceID = supervisor.supervisorInstanceID ∧ cond p = true ∧
      (set p).check = true ∧ db' = db.setProcess (set p) := by
  unfold updateProcess at h
  simp only [bind_eq_ok, ensure_eq_ok, Prod.exists] at h
  obtain ⟨db₁, count, hupd, -, hcnt, hdb⟩ := h
  cases hdb
  obtain ⟨p, hp, hid, hcond, hchk, rfl, -⟩ | ⟨-, -, rfl⟩ := updateProcesses_ok hupd
  · simp only [Bool.and_eq_true, decide_eq_true_eq] at hcond
    exact ⟨p, hp, hid, hcond.1, hcond.2, hchk, rfl⟩
  · cases hcnt

theorem updateReport_ok {reportID : String} {cond : Report → Bool}
    {set : Report → Report} (h : db.updateReport operation reportID cond set = .ok db')
    (hr : db.reports.get reportID = some r) (hcond : cond r = true) :
    (set r).check = true ∧ db' = db.setReport (set r) := by
  unfold updateReport at h
  simp only [hr, hcond, Bool.not_true, Bool.false_eq_true, if_false] at h
  split at h
  · cases h
    exact ⟨‹_›, rfl⟩
  · cases h

theorem mem_setProcess_self {p' : Process} (hp : p ∈ db.processes)
    (hid : p'.processID = p.processID) : p' ∈ (db.setProcess p').processes :=
  (mem_replace ⟨p, hp, hid.symm⟩).2 (.inl rfl)

theorem insertProcess_ok (h : db.insertProcess operation p = .ok db') :
    ∃ processes, db.processes.insert p = some processes ∧ p.check = true ∧
      db' = { db with processes } := by
  unfold insertProcess at h
  split at h
  · split at h
    · cases h
      exact ⟨_, ‹_›, ‹_›, rfl⟩
    · cases h
  · cases h

theorem insertProcessAction_ok {a : Action} (h : db.insertProcessAction operation a = .ok db') :
    ∃ actions, db.actions.insert a = some actions ∧ a.check = true ∧
      (∀ b ∈ db.actions, b.processID = a.processID → b.seq ≠ a.seq) ∧ db' = { db with actions } := by
  unfold insertProcessAction at h
  split at h
  · split at h
    · rename_i hok
      simp only [Bool.and_eq_true] at hok
      cases h
      exact ⟨_, ‹_›, hok.1.1, processActionIDBySequence_isNone.1 hok.1.2, rfl⟩
    · cases h
  · cases h

theorem insertFrozenReport_ok (h : db.insertFrozenReport operation r = .ok db') :
    ∃ reports, db.reports.insert r = some reports ∧ r.check = true ∧
      (∃ p ∈ db.processes, p.processID = r.processID) ∧
      (r.actionID ≠ "" → ∃ a ∈ db.actions, a.id = r.actionID ∧ a.processID = r.processID) ∧
      db' = { db with reports } := by
  unfold insertFrozenReport at h
  split at h
  · split at h
    · rename_i hok
      simp only [Bool.and_eq_true, Bool.or_eq_true, Option.isSome_iff_exists, Option.any_eq_true,
        decide_eq_true_eq] at hok
      obtain ⟨⟨⟨hchk, -⟩, p, hp⟩, hact⟩ := hok
      cases h
      refine ⟨_, ‹_›, hchk, ⟨p, processTx_eq_some.1 hp⟩, fun hne => ?_, rfl⟩
      obtain ⟨a, ha, hproc⟩ := hact.resolve_left hne
      obtain ⟨hmem, hid⟩ := actionTx_eq_some.1 ha
      exact ⟨a, hmem, hid, hproc⟩
    · cases h
  · cases h

/-! ## Parts of transactions -/

/-- A compaction that is not blocked leaves the frontier right before the next sequence number, and no
row of the process between the two. -/
theorem compactMissingActionPrefixTx_ok {p' : Process} {nextSeq : Int} (hp : p ∈ db.processes)
    (hchk : p.check = true) (hlt : p.resolvedActionSeq < nextSeq)
    (h : db.compactMissingActionPrefixTx p nextSeq = .ok (db', p')) :
    p' = p.resolvedAt (nextSeq - 1) ∧ p'.check = true ∧ db' = db.setProcess p' ∧
      ∀ a ∈ db.actions, a.processID = p.processID → p.resolvedActionSeq < a.seq → nextSeq ≤ a.seq := by
  unfold compactMissingActionPrefixTx at h
  split at h
  · rename_i hle
    cases h
    have hnext : nextSeq - 1 = p.resolvedActionSeq := by omega
    refine ⟨by rw [Process.resolvedAt, hnext], hchk, ?_, fun a _ _ hseq => by omega⟩
    rw [setProcess, replace_self hp]
  · simp only [bind_eq_ok, ensure_eq_ok, countProcessActionsBetween_eq_zero, Prod.exists] at h
    obtain ⟨-, hrows, db₁, count, hupd, h⟩ := h
    cases h
    obtain ⟨hchk, rfl⟩ := updateProcesses_mem hupd hp rfl (by simp)
    exact ⟨rfl, hchk, rfl, hrows⟩

/-- Freezing returns the report in the slot, which has the same content, or inserts a pending one. -/
theorem freezeReportTx_ok {newReportID : String} {report frozen : Report}
    (h : db.freezeReportTx codec newReportID report = .ok (db', frozen)) :
    validateReport codec report = .ok () ∧
    (frozen ∈ db.reports ∧ frozen.InSlot report.kind report.processID report.actionID ∧
        frozen.body = report.body ∧ db' = db ∨
      (∀ r ∈ db.reports, ¬ r.InSlot report.kind report.processID report.actionID) ∧
        report.errorCode = "" ∧ report.error = "" ∧
        frozen = { report with id := newReportID, state := .pending } ∧
        db.insertFrozenReport "freeze canonical daemon report" frozen = .ok db') := by
  unfold freezeReportTx at h
  simp only [bind_eq_ok] at h
  obtain ⟨⟨⟩, hval, h⟩ := h
  refine ⟨hval, ?_⟩
  cases hslot : db.reportBySlotTx report.kind report.processID report.actionID with
  | some existing =>
    simp only [hslot, bind_eq_ok, ensure_eq_ok] at h
    obtain ⟨-, hsame, h⟩ := h
    cases h
    obtain ⟨hmem, hin⟩ := reportBySlotTx_some hslot
    simp only [sameReportContent, Bool.and_eq_true, decide_eq_true_eq] at hsame
    exact .inl ⟨hmem, hin, hsame.2, rfl⟩
  | none =>
    simp only [hslot, bind_eq_ok, ensure_eq_ok] at h
    obtain ⟨-, hnew, h⟩ := h
    split at h
    · cases h
    · obtain ⟨db₁, hins, h⟩ := bind_eq_ok.1 h
      cases h
      exact .inr ⟨reportBySlotTx_eq_none.1 hslot, hnew.2.2.1, hnew.2.2.2, rfl, hins⟩

end Db

end StateDb
