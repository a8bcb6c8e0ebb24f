import Omnara.StateDb.Proof.Change

/-!
# The invariant of the state database

Every change an operation makes keeps `Inv` (`Change.inv`): one lemma for each way the tables are
written (`Inv.setProcess`, `Inv.reserve`, `Inv.record`, `Inv.freeze`, `Inv.settle`, `Inv.setReport`,
`Inv.restrict`), so it holds in every reachable database (`Reachable.inv`).
-/

namespace StateDb

open Fallible Table

abbrev Process.Started (p : Process) : Prop :=
  (p.phase = .accepted ∨ p.phase = .terminal) ∧ p.execCommitted = true ∧ p.containmentKind ≠ ""

section
variable {codec : Codec} {db : Db}

variable {p q : Process} {r : Report} {a : Action}

section
variable (hp : p ∈ db.processes)
include hp

theorem mem_setProcess {p' : Process} (hid : p'.processID = p.processID) :
    q ∈ (db.setProcess p').processes ↔ q = p' ∨ q ∈ db.processes ∧ q.processID ≠ p.processID := by
  rw [← hid]
  exact mem_replace ⟨p, hp, hid.symm⟩

theorem exists_setProcess {p' : Process} (hid : p'.processID = p.processID) {id : String}
    (h : ∃ q ∈ db.processes, q.processID = id) :
    ∃ q ∈ (db.setProcess p').processes, q.processID = id := by
  obtain ⟨q, hq, rfl⟩ := h
  by_cases heq : q.processID = p.processID
  · exact ⟨p', (mem_setProcess hp hid).2 (.inl rfl), hid.trans heq.symm⟩
  · exact ⟨q, (mem_setProcess hp hid).2 (.inr ⟨hq, heq⟩), rfl⟩

theorem mem_resolvedAt {seq : Int} :
    q ∈ (db.setProcess (p.resolvedAt seq)).processes ↔
      q = p.resolvedAt seq ∨ q ∈ db.processes ∧ q.processID ≠ p.processID :=
  mem_setProcess hp rfl

theorem eq_or_ne (hq : q ∈ db.processes) :
    q = p ∨ q.processID ≠ p.processID := by
  by_cases h : q.processID = p.processID
  · exact .inl (eq_of_key hq hp h)
  · exact .inr h

end

theorem Report.InSlot.symm {r' : Report} (h : r'.InSlot r.kind r.processID r.actionID) :
    r.InSlot r'.kind r'.processID r'.actionID :=
  ⟨h.1.symm, h.2.1.symm, h.2.2.symm⟩

theorem Report.ofAction_iff {actionID : String} (h : actionID ≠ "") :
    r.ofAction actionID = true ↔ r.actionID = actionID := by
  simp only [ofAction, Bool.and_eq_true, decide_eq_true_eq, and_iff_right_iff_imp]
  exact fun heq => heq ▸ h

theorem Action.id_ne_of_check (h : a.check = true) : a.id ≠ "" := by
  simp only [check, Bool.and_eq_true, decide_eq_true_eq] at h
  exact h.1

theorem Report.kind_eq_iff (h : r.check = true) : r.kind = .actionTerminal ↔ r.actionID ≠ "" := by
  simp only [check, Bool.and_eq_true, Bool.or_eq_true, decide_eq_true_eq] at h
  grind

theorem validateReport_congr (codec : Codec) {r' : Report}
    (hslot : r'.InSlot r.kind r.processID r.actionID) (hbody : r'.body = r.body) :
    validateReport codec r' = validateReport codec r := by
  obtain ⟨hproc, hact, hkind⟩ := hslot
  unfold validateReport
  rw [hproc, hact, hkind, hbody]

theorem mem_actions_settle {b : Action} (ha : a ∈ db.actions) :
    b ∈ ((db.setProcess p).deleteProcessAction a.id a.processID).actions ↔ b ∈ db.actions ∧ b ≠ a := by
  simp only [Db.deleteProcessAction, Db.setProcess, mem_deleteWhere, Bool.and_eq_false_iff,
    decide_eq_false_iff_not]
  refine and_congr_right fun hb => ⟨?_, fun hne => .inl fun hid => hne (eq_of_key hb ha hid)⟩
  rintro h rfl
  simp at h

theorem mem_reports_settle (hinv : Inv codec db) (ha : a ∈ db.actions) :
    r ∈ ((db.setProcess p).deleteProcessAction a.id a.processID).reports ↔
      r ∈ db.reports ∧ r.actionID ≠ a.id := by
  have hget : (db.setProcess p).actionTx a.id = some a := Db.actionTx_eq_some.2 ⟨ha, rfl⟩
  have hne := Action.id_ne_of_check (hinv.actionOk a ha)
  simp only [Db.deleteProcessAction, hget, Option.any_some, decide_true, Bool.and_true,
    mem_deleteWhere]
  refine and_congr_right fun hr => ?_
  rw [← Bool.not_eq_true, Bool.and_eq_true, Report.ofAction_iff hne, decide_eq_true_eq]
  refine not_congr ⟨And.right, fun hid => ⟨?_, hid⟩⟩
  have hkind := (Report.kind_eq_iff (hinv.reportOk r hr)).2 (hid ▸ hne)
  obtain ⟨b, hb, hbid, hbproc⟩ := hinv.reportAction r hr hkind
  rw [← hbproc, eq_of_key hb ha (hbid.trans hid)]

namespace Inv

variable (hinv : Inv codec db)
include hinv

variable {p p' : Process} {a : Action}

theorem setProcess (hp : p ∈ db.processes) (hid : p'.processID = p.processID)
    (hchk : p'.check = true)
    (hnext : ∀ a ∈ db.actions, a.processID = p.processID → a.seq = p'.resolvedActionSeq + 1)
    (hterm : p'.phase = .terminal ↔ p.phase = .terminal)
    (hcl : p'.localClosed = true → p.phase = .terminal ∧
      ∀ a ∈ db.actions, a.processID = p.processID → db.Reported a.id)
    (hstd : p.Started → p'.Started) : Inv codec (db.setProcess p') where
  processOk := forall_replace hchk hinv.processOk
  actionOk := hinv.actionOk
  reportOk := hinv.reportOk
  valid := hinv.valid
  owned a ha := exists_setProcess hp hid (hinv.owned a ha)
  next a ha := forall_replace (fun h => hnext a ha (h.symm.trans hid)) (hinv.next a ha)
  sole := hinv.sole
  reportProcess r hr := exists_setProcess hp hid (hinv.reportProcess r hr)
  reportAction := hinv.reportAction
  slot := hinv.slot
  terminal := by
    refine forall_replace ?_ hinv.terminal
    rw [hterm, hid]
    exact hinv.terminal p hp
  closed := by
    refine forall_replace ?_ hinv.closed
    rw [hterm, hid]
    exact hcl
  noEffect := hinv.noEffect
  started r hr hkind := forall_replace
    (fun h => hstd (hinv.started r hr hkind p hp (hid.symm.trans h))) (hinv.started r hr hkind)

theorem advance (hp : p ∈ db.processes) (hadv : p.Advances p')
    (hcl : p'.localClosed = true → p.localClosed = true ∨ p.phase = .terminal ∧
      ∀ a ∈ db.actions, a.processID = p.processID → db.Reported a.id) :
    Inv codec (db.setProcess p') := by
  refine hinv.setProcess hp hadv.processID hadv.check ?_ hadv.terminal ?_ ?_
  · intro a ha haid
    rw [hadv.frontier]
    exact hinv.next a ha p hp haid.symm
  · intro hc
    exact (hcl hc).elim (hinv.closed p hp) id
  · rintro ⟨hph, hexec, hkind⟩
    exact ⟨hph.imp hadv.accepted hadv.terminal.2, hadv.exec hexec, hadv.containment hkind⟩

/-- The frontier moves, and no row of the process is left behind it. -/
theorem resolve (hp : p ∈ db.processes) {seq : Int} (hchk : (p.resolvedAt seq).check = true)
    (hnext : ∀ a ∈ db.actions, a.processID = p.processID → a.seq = seq + 1) :
    Inv codec (db.setProcess (p.resolvedAt seq)) :=
  hinv.setProcess hp rfl hchk hnext Iff.rfl (hinv.closed p hp) id

theorem reserve {processes : Table Process.processID} (hph : p.phase = .preparing)
    (hcl : p.localClosed = false) (hchk : p.check = true)
    (hins : db.processes.insert p = some processes) : Inv codec { db with processes } := by
  have hold : ∀ q ∈ db.processes, q ∈ processes := fun q hq => (mem_of_insert hins).2 (.inl hq)
  -- nothing refers to the new process yet
  have hfr : ∀ {id : String}, (∃ q ∈ db.processes, q.processID = id) → p.processID ≠ id := by
    rintro id ⟨q, hq, rfl⟩ heq
    exact fresh_of_insert hins q hq heq.symm
  exact {
    processOk := forall_insert hins hinv.processOk hchk
    actionOk := hinv.actionOk
    reportOk := hinv.reportOk
    valid := hinv.valid
    owned := fun a ha => (hinv.owned a ha).imp fun q hq => ⟨hold q hq.1, hq.2⟩
    next := fun a ha => forall_insert hins (hinv.next a ha) fun h =>
      absurd h (hfr (hinv.owned a ha))
    sole := hinv.sole
    reportProcess := fun r hr => (hinv.reportProcess r hr).imp fun q hq => ⟨hold q hq.1, hq.2⟩
    reportAction := hinv.reportAction
    slot := hinv.slot
    terminal := by
      refine forall_insert hins hinv.terminal ⟨fun h => by simp [hph] at h, ?_⟩
      rintro ⟨r, hr, -, hid⟩
      exact absurd hid.symm (hfr (hinv.reportProcess r hr))
    closed := forall_insert hins hinv.closed fun h => by simp [hcl] at h
    noEffect := hinv.noEffect
    started := fun r hr hkind => forall_insert hins (hinv.started r hr hkind) fun h =>
      absurd h (hfr (hinv.reportProcess r hr)) }

/-- A process without action rows records its next action, with or without its report. -/
theorem record {actions : Table Action.id} {reports : Table Report.id}
    (report : Option Report) (hacts : db.actions.insert a = some actions) (hp : p ∈ db.processes)
    (hid : p.processID = a.processID) (hidle : ∀ b ∈ db.actions, b.processID ≠ p.processID)
    (hseq : a.seq = p.resolvedActionSeq + 1) (hopen : p.localClosed = false) (hchk : a.check = true)
    (hreps : ∀ r, r ∈ reports ↔ r ∈ db.reports ∨ report = some r)
    (hrep : ∀ r, report = some r → r.kind = .actionTerminal ∧ r.processID = a.processID ∧
      r.actionID = a.id ∧ Db.Freezable codec { db with actions } r)
    (heff : a.effectCommitted = true ∨ report.isSome = true) :
    Inv codec { db with actions, reports } := by
  have hall : ∀ {P : Report → Prop}, (∀ r ∈ db.reports, P r) → (∀ r, report = some r → P r) →
      ∀ r ∈ reports, P r := fun hold hnew r hr => ((hreps r).1 hr).elim (hold r) (hnew r)
  have hreported : ∀ {id : String}, db.Reported id → ∃ r ∈ reports, r.ofAction id = true :=
    fun ⟨r, hr, hof⟩ => ⟨r, (hreps r).2 (.inl hr), hof⟩
  have howner : ∀ q ∈ db.processes, q.processID = a.processID → q = p := fun q hq hqid =>
    eq_of_key hq hp (hqid.trans hid.symm)
  exact {
    processOk := hinv.processOk
    actionOk := forall_insert hacts hinv.actionOk hchk
    reportOk := hall hinv.reportOk fun r h => (hrep r h).2.2.2.check
    valid := hall hinv.valid fun r h => (hrep r h).2.2.2.valid
    owned := forall_insert hacts hinv.owned ⟨p, hp, hid⟩
    next := forall_insert hacts hinv.next fun q hq hqid => howner q hq hqid ▸ hseq
    sole := by
      refine forall_insert hacts (fun b hb => ?_) (forall_insert hacts ?_ fun _ => rfl)
      · exact forall_insert hacts (hinv.sole b hb) fun h =>
          absurd (h.trans hid.symm) (hidle b hb)
      · exact fun c hc h => absurd (h.symm.trans hid.symm) (hidle c hc)
    reportProcess := hall hinv.reportProcess fun r h => ⟨p, hp, hid.trans (hrep r h).2.1.symm⟩
    reportAction := by
      refine hall (fun r hr hkind => ?_) fun r h _ => ?_
      · obtain ⟨b, hb, hbid⟩ := hinv.reportAction r hr hkind
        exact ⟨b, (mem_of_insert hacts).2 (.inl hb), hbid⟩
      · exact ⟨a, (mem_of_insert hacts).2 (.inr rfl), (hrep r h).2.2.1.symm, (hrep r h).2.1.symm⟩
    slot := by
      refine hall (fun r hr => hall (hinv.slot r hr) fun r' h' hslot => ?_)
        fun r h => hall (fun r' hr' hslot => ?_) fun r' h' _ => Option.some.inj (h'.symm.trans h)
      · exact absurd hslot.symm ((hrep r' h').2.2.2.slot r hr)
      · exact absurd hslot ((hrep r h).2.2.2.slot r' hr')
    terminal := by
      intro q hq
      refine (hinv.terminal q hq).trans ⟨?_, ?_⟩
      · exact fun ⟨r, hr, hkind⟩ => ⟨r, (hreps r).2 (.inl hr), hkind⟩
      · rintro ⟨r, hr, hkind, hrid⟩
        obtain hr | h := (hreps r).1 hr
        · exact ⟨r, hr, hkind, hrid⟩
        · simp [(hrep r h).1] at hkind
    closed := by
      intro q hq hcl
      obtain ⟨hph, hrows⟩ := hinv.closed q hq hcl
      refine ⟨hph, forall_insert hacts (fun b hb hbid => hreported (hrows b hb hbid)) ?_⟩
      intro haid
      rw [howner q hq haid.symm, hopen] at hcl
      cases hcl
    noEffect := by
      refine forall_insert hacts (fun b hb hnone => hreported (hinv.noEffect b hb hnone)) ?_
      intro hnone
      obtain ⟨r, hr⟩ := Option.isSome_iff_exists.1 (heff.resolve_left (by simp [hnone]))
      exact ⟨r, (hreps r).2 (.inr hr),
        (Report.ofAction_iff (Action.id_ne_of_check hchk)).2 (hrep r hr).2.2.1⟩
    started := hall hinv.started fun r h hkind => by simp [(hrep r h).1] at hkind }

/-- A report goes into an empty slot; a terminal report makes its process terminal. -/
theorem freeze {frozen : Report} {reports : Table Report.id}
    (hfz : db.Freezable codec frozen) (hins : db.reports.insert frozen = some reports)
    (hp : p ∈ db.processes) (hpid : p.processID = frozen.processID)
    (hid : p'.processID = p.processID) (hchk : p'.check = true)
    (hfront : p'.resolvedActionSeq = p.resolvedActionSeq)
    (hterm : p'.phase = .terminal ↔ p.phase = .terminal ∨ frozen.kind = .processTerminal)
    (hcl : p'.localClosed = p.localClosed) (hkept : p.Started → p'.Started)
    (hstd : frozen.kind = .processStarted → p.Started) :
    Inv codec ({ db with reports }.setProcess p') := by
  have hmem : ∀ {r : Report}, r ∈ reports ↔ r ∈ db.reports ∨ r = frozen := mem_of_insert hins
  have hreported : ∀ {id : String}, db.Reported id → ∃ r ∈ reports, r.ofAction id = true :=
    fun ⟨r, hr, hof⟩ => ⟨r, hmem.2 (.inl hr), hof⟩
  exact {
    processOk := forall_replace hchk hinv.processOk
    actionOk := hinv.actionOk
    reportOk := forall_insert hins hinv.reportOk hfz.check
    valid := forall_insert hins hinv.valid hfz.valid
    owned := fun a ha => exists_setProcess hp hid (hinv.owned a ha)
    next := fun a ha => forall_replace
      (fun h => hfront ▸ hinv.next a ha p hp (hid.symm.trans h)) (hinv.next a ha)
    sole := hinv.sole
    reportProcess := forall_insert hins
      (fun r hr => exists_setProcess hp hid (hinv.reportProcess r hr))
      (exists_setProcess hp hid ⟨p, hp, hpid⟩)
    reportAction := forall_insert hins hinv.reportAction fun hkind =>
      hfz.action ((Report.kind_eq_iff hfz.check).1 hkind)
    slot := by
      refine forall_insert hins (fun r hr => ?_) (forall_insert hins ?_ fun _ => rfl)
      · exact forall_insert hins (hinv.slot r hr) fun hslot =>
          absurd hslot.symm (hfz.slot r hr)
      · exact fun r' hr' hslot => absurd hslot (hfz.slot r' hr')
    terminal := by
      -- the new report stands in the slot of `p` only
      have hslot : ∀ q : Process, (∃ r ∈ reports, r.kind = .processTerminal ∧
          r.processID = q.processID) ↔ (∃ r ∈ db.reports, r.kind = .processTerminal ∧
            r.processID = q.processID) ∨ frozen.kind = .processTerminal ∧
              p.processID = q.processID := by
        intro q
        simp only [hmem, or_and_right, exists_or, exists_eq_left, hpid]
      intro q hq
      obtain rfl | ⟨hq, hne⟩ := (mem_setProcess hp hid).1 hq
      · refine hterm.trans (.trans ?_ (hslot _).symm)
        rw [hinv.terminal p hp, hid, eq_self, and_true]
      · refine (hinv.terminal q hq).trans (.trans ?_ (hslot q).symm)
        simp [Ne.symm hne]
    closed := by
      refine forall_replace (fun hc => ?_) fun q hq hc => ?_
      · obtain ⟨hph, hall⟩ := hinv.closed p hp (hcl ▸ hc)
        exact ⟨hterm.2 (.inl hph), fun a ha haid => hreported (hall a ha (haid.trans hid))⟩
      · obtain ⟨hph, hall⟩ := hinv.closed q hq hc
        exact ⟨hph, fun a ha haid => hreported (hall a ha haid)⟩
    noEffect := fun a ha hnone => hreported (hinv.noEffect a ha hnone)
    started := by
      intro r hr hkind q hq hqid
      obtain rfl | ⟨hq, hne⟩ := (mem_setProcess hp hid).1 hq
      · obtain hr | rfl := hmem.1 hr
        · exact hkept (hinv.started r hr hkind p hp (hid.symm.trans hqid))
        · exact hkept (hstd hkind)
      · obtain hr | rfl := hmem.1 hr
        · exact hinv.started r hr hkind q hq hqid
        · exact absurd (hqid.trans hpid.symm) hne }

/-- Rows are deleted, and with a row what refers to it; a row that stays keeps its reports. -/
theorem restrict {db' : Db} (hprocs : ∀ p ∈ db'.processes, p ∈ db.processes)
    (hacts : ∀ a ∈ db'.actions, a ∈ db.actions ∧ ∃ p ∈ db'.processes, p.processID = a.processID)
    (hreps : ∀ r ∈ db'.reports, r ∈ db.reports ∧ (∃ p ∈ db'.processes, p.processID = r.processID) ∧
      ∀ a ∈ db.actions, a.id = r.actionID → a.processID = r.processID → a ∈ db'.actions)
    (hterm : ∀ r ∈ db.reports, r.kind = .processTerminal →
      ∀ p ∈ db'.processes, r.processID = p.processID → r ∈ db'.reports)
    (hreported : ∀ a ∈ db'.actions, db.Reported a.id → db'.Reported a.id) : Inv codec db' where
  processOk p hp := hinv.processOk p (hprocs p hp)
  actionOk a ha := hinv.actionOk a (hacts a ha).1
  reportOk r hr := hinv.reportOk r (hreps r hr).1
  valid r hr := hinv.valid r (hreps r hr).1
  owned a ha := (hacts a ha).2
  next a ha p hp := hinv.next a (hacts a ha).1 p (hprocs p hp)
  sole a ha b hb := hinv.sole a (hacts a ha).1 b (hacts b hb).1
  reportProcess r hr := (hreps r hr).2.1
  reportAction r hr hkind := by
    obtain ⟨a, ha, haid, haproc⟩ := hinv.reportAction r (hreps r hr).1 hkind
    exact ⟨a, (hreps r hr).2.2 a ha haid haproc, haid, haproc⟩
  slot r hr r' hr' := hinv.slot r (hreps r hr).1 r' (hreps r' hr').1
  terminal p hp := by
    refine (hinv.terminal p (hprocs p hp)).trans ⟨?_, ?_⟩
    · exact fun ⟨r, hr, hkind, hid⟩ => ⟨r, hterm r hr hkind p hp hid, hkind, hid⟩
    · exact fun ⟨r, hr, h⟩ => ⟨r, (hreps r hr).1, h⟩
  closed p hp hcl := by
    obtain ⟨hph, hrows⟩ := hinv.closed p (hprocs p hp) hcl
    exact ⟨hph, fun a ha haid => hreported a ha (hrows a (hacts a ha).1 haid)⟩
  noEffect a ha hnone := hreported a ha (hinv.noEffect a (hacts a ha).1 hnone)
  started r hr hkind p hp := hinv.started r (hreps r hr).1 hkind p (hprocs p hp)

theorem report_of_action (ha : a ∈ db.actions) {r : Report} (hr : r ∈ db.reports)
    (hid : r.actionID = a.id) : a.processID = r.processID := by
  have hne := Action.id_ne_of_check (hinv.actionOk a ha)
  obtain ⟨b, hb, hbid, hbproc⟩ := hinv.reportAction r hr
    ((Report.kind_eq_iff (hinv.reportOk r hr)).2 (hid ▸ hne))
  rwa [eq_of_key hb ha (hbid.trans hid)] at hbproc

/-- The row of an action goes, with its report if it has one, and the frontier moves over it. -/
theorem settle (ha : a ∈ db.actions) (hp : p ∈ db.processes)
    (hid : p.processID = a.processID) (hchk : (p.resolvedAt a.seq).check = true) :
    Inv codec ((db.setProcess (p.resolvedAt a.seq)).deleteProcessAction a.id a.processID) := by
  have hself : db.setProcess p = db := by rw [Db.setProcess, replace_self hp]
  have hacts : ∀ b, b ∈ (db.deleteProcessAction a.id a.processID).actions ↔
      b ∈ db.actions ∧ b ≠ a := fun b => hself ▸ mem_actions_settle (p := p) ha
  have hreps : ∀ r, r ∈ (db.deleteProcessAction a.id a.processID).reports ↔
      r ∈ db.reports ∧ r.actionID ≠ a.id := fun r => hself ▸ mem_reports_settle (p := p) hinv ha
  have hdeleted : Inv codec (db.deleteProcessAction a.id a.processID) := by
    refine hinv.restrict (fun q hq => hq) (fun b hb => ?_) (fun r hr => ?_) (fun r hr hkind _ _ _ => ?_)
      fun b hb hreported => ?_
    · exact ⟨((hacts b).1 hb).1, hinv.owned b ((hacts b).1 hb).1⟩
    · obtain ⟨hr, hra⟩ := (hreps r).1 hr
      refine ⟨hr, hinv.reportProcess r hr, fun b hb hbid _ => (hacts b).2 ⟨hb, ?_⟩⟩
      rintro rfl
      exact hra hbid.symm
    · refine (hreps r).2 ⟨hr, fun heq => ?_⟩
      have hact := (Report.kind_eq_iff (hinv.reportOk r hr)).2
        (heq ▸ Action.id_ne_of_check (hinv.actionOk a ha))
      simp [hkind] at hact
    · obtain ⟨r, hr, hof⟩ := hreported
      obtain ⟨hb, hba⟩ := (hacts b).1 hb
      refine ⟨r, (hreps r).2 ⟨hr, fun heq => hba (eq_of_key hb ha ?_)⟩, hof⟩
      rw [← (Report.ofAction_iff (Action.id_ne_of_check (hinv.actionOk b hb))).1 hof, heq]
  -- the process has no other row
  refine hdeleted.resolve hp hchk fun b hb hbid => ?_
  obtain ⟨hb, hba⟩ := (hacts b).1 hb
  exact absurd (hinv.sole b hb a ha (hbid.trans hid)) hba

theorem delete (hp : p ∈ db.processes) :
    Inv codec (db.deleteProcess p.processID p.supervisorInstanceID) := by
  have hget : db.processTx p.processID = some p := Db.processTx_eq_some.2 ⟨hp, rfl⟩
  simp only [Db.deleteProcess, hget, Option.any_some, decide_true, if_true]
  have hkept : ∀ {id : String}, (∃ q ∈ db.processes, q.processID = id) → id ≠ p.processID →
      ∃ q ∈ db.processes.deleteWhere (·.processID = p.processID), q.processID = id := by
    rintro id ⟨q, hq, rfl⟩ hne
    exact ⟨q, by simp [hq, hne], rfl⟩
  refine hinv.restrict (fun q hq => ?_) (fun a ha => ?_) (fun r hr => ?_) (fun r hr _ q hq hid => ?_)
    fun a ha => ?_
  · exact (mem_deleteWhere.1 hq).1
  · obtain ⟨ha, hne⟩ := mem_deleteWhere.1 ha
    exact ⟨ha, hkept (hinv.owned a ha) (by simpa using hne)⟩
  · obtain ⟨hr, hne⟩ := mem_deleteWhere.1 hr
    refine ⟨hr, hkept (hinv.reportProcess r hr) (by simpa using hne), fun a ha _ hproc => ?_⟩
    exact mem_deleteWhere.2 ⟨ha, hproc ▸ hne⟩
  · exact mem_deleteWhere.2 ⟨hr, hid ▸ (mem_deleteWhere.1 hq).2⟩
  · obtain ⟨ha, hne⟩ := mem_deleteWhere.1 ha
    rintro ⟨r, hr, hof⟩
    have hproc := hinv.report_of_action ha hr
      ((Report.ofAction_iff (Action.id_ne_of_check (hinv.actionOk a ha))).1 hof)
    exact ⟨r, mem_deleteWhere.2 ⟨hr, hproc ▸ hne⟩, hof⟩

theorem setReport {r r' : Report} (hr : r ∈ db.reports) (hchk : r'.check = true)
    (hid : r'.id = r.id) (hslot : r'.InSlot r.kind r.processID r.actionID) (hbody : r'.body = r.body) :
    Inv codec (db.setReport r') := by
  have hval := (validateReport_congr codec hslot hbody).trans (hinv.valid r hr)
  obtain ⟨hproc, hact, hkind⟩ := hslot
  have hmem : ∀ {x : Report}, x ∈ (db.setReport r').reports ↔
      x = r' ∨ x ∈ db.reports ∧ x.id ≠ r'.id := mem_replace ⟨r, hr, hid.symm⟩
  -- every report stands in the slot of one from before, and the other way round
  have hback : ∀ x ∈ (db.setReport r').reports, ∃ y ∈ db.reports,
      y.InSlot x.kind x.processID x.actionID :=
    forall_replace ⟨r, hr, hproc.symm, hact.symm, hkind.symm⟩ fun x hx => ⟨x, hx, rfl, rfl, rfl⟩
  have hforth : ∀ x ∈ db.reports, ∃ y ∈ (db.setReport r').reports,
      y.InSlot x.kind x.processID x.actionID := by
    intro x hx
    by_cases h : x.id = r'.id
    · rw [eq_of_key hx hr (h.trans hid)]
      exact ⟨r', hmem.2 (.inl rfl), hproc, hact, hkind⟩
    · exact ⟨x, hmem.2 (.inr ⟨hx, h⟩), rfl, rfl, rfl⟩
  have hreported : ∀ {id : String}, db.Reported id → (db.setReport r').Reported id := by
    rintro id ⟨x, hx, hof⟩
    obtain ⟨y, hy, -, hya, -⟩ := hforth x hx
    exact ⟨y, hy, by simpa only [Report.ofAction, hya] using hof⟩
  exact {
    processOk := hinv.processOk
    actionOk := hinv.actionOk
    reportOk := forall_replace hchk hinv.reportOk
    valid := forall_replace hval hinv.valid
    owned := hinv.owned
    next := hinv.next
    sole := hinv.sole
    reportProcess := by
      intro x hx
      obtain ⟨y, hy, hyp, -, -⟩ := hback x hx
      exact hyp ▸ hinv.reportProcess y hy
    reportAction := by
      intro x hx hxkind
      obtain ⟨y, hy, hyp, hya, hyk⟩ := hback x hx
      exact hyp ▸ hya ▸ hinv.reportAction y hy (hyk.trans hxkind)
    slot := by
      intro x hx x' hx' hslot
      obtain rfl | ⟨hxo, hne⟩ := hmem.1 hx <;> obtain rfl | ⟨hxo', hne'⟩ := hmem.1 hx'
      · rfl
      · rw [hproc, hact, hkind] at hslot
        exact absurd (hid ▸ congrArg Report.id (hinv.slot r hr x' hxo' hslot)) hne'
      · have hslot := hslot.symm
        rw [hproc, hact, hkind] at hslot
        exact absurd (hid ▸ congrArg Report.id (hinv.slot r hr x hxo hslot)) hne
      · exact hinv.slot x hxo x' hxo' hslot
    terminal := by
      intro p hp
      refine (hinv.terminal p hp).trans ⟨?_, ?_⟩
      · rintro ⟨x, hx, hxk, hxp⟩
        obtain ⟨y, hy, hyp, -, hyk⟩ := hforth x hx
        exact ⟨y, hy, hyk.trans hxk, hyp.trans hxp⟩
      · rintro ⟨x, hx, hxk, hxp⟩
        obtain ⟨y, hy, hyp, -, hyk⟩ := hback x hx
        exact ⟨y, hy, hyk.trans hxk, hyp.trans hxp⟩
    closed := fun p hp hcl =>
      ⟨(hinv.closed p hp hcl).1, fun a ha haid =>
        hreported ((hinv.closed p hp hcl).2 a ha haid)⟩
    noEffect := fun a ha hnone => hreported (hinv.noEffect a ha hnone)
    started := by
      intro x hx hxk p hp hpid
      obtain ⟨y, hy, hyp, -, hyk⟩ := hback x hx
      exact hinv.started y hy (hyk.trans hxk) p hp (hpid.trans hyp.symm) }

end Inv

theorem Inv.empty : Inv codec Db.empty := by
  constructor <;> simp [Db.empty]

theorem Change.inv {db' : Db} {op : Op} {out : Outcome} (hinv : Inv codec db)
    (h : Change codec db op out db') : Inv codec db' := by
  cases h with
  | unchanged => exact hinv
  | reserved _ hph _ _ hcl hchk hins => exact hinv.reserve hph hcl hchk hins
  | updated hp hadv hcl => exact hinv.advance hp hadv hcl
  | authorized hp _ hadv hcl => exact hinv.advance hp hadv fun hc => .inl (hcl ▸ hc)
  | compacted hp hle hchk hrows =>
    refine hinv.resolve hp hchk fun a ha haid => ?_
    have hnext := hinv.next a ha _ hp haid.symm
    have hlt := hrows a ha haid
    omega
  | @executed supervisor action p actions hp hid _ hidle hadmits hact hchk hins =>
    have hopen : p.localClosed = false := by
      simp only [Process.admits, Bool.and_eq_true, Bool.not_eq_true'] at hadmits
      exact hadmits.1.1.1.1
    have hresolved := hinv.resolve hp hchk fun a ha haid => absurd haid (hidle a ha)
    exact hresolved.record none hins (Db.mem_setProcess_self hp rfl) hid hidle (by simp) hopen
      hact (fun _ => (or_iff_left (by simp)).symm) (by simp) (.inl rfl)
  | @withoutEffect supervisor action _ _ p actions frozen reports hp hid _ hidle hopen hact hchk
      hins hkind hproc hslot hfz hreps =>
    have hresolved := hinv.resolve hp hchk fun a ha haid => absurd haid (hidle a ha)
    refine hresolved.record (some frozen) hins (Db.mem_setProcess_self hp rfl) hid hidle (by simp)
      hopen hact ?_ ?_ (.inr rfl)
    · intro r
      rw [mem_of_insert hreps, Option.some.injEq, eq_comm (a := r)]
      exact Iff.rfl
    · rintro r ⟨rfl⟩
      refine ⟨hkind, hproc, hslot, hfz.valid, hfz.check, hfz.pending, hfz.slot,
        ⟨_, Db.mem_setProcess_self hp rfl, hid.trans hproc.symm⟩, hfz.action⟩
  | @froze _ frozen reports hkind hfz hstd hins =>
    obtain ⟨p, hp, hpid⟩ := hfz.process
    have hsame : { db with reports }.setProcess p = { db with reports } := by
      rw [Db.setProcess, replace_self hp]
    rw [← hsame]
    exact hinv.freeze hfz hins hp hpid rfl (hinv.processOk p hp) rfl (by simp [hkind]) rfl id
      fun hk => hstd hk p hp hpid
  | frozeTerminal hkind hfz hins hp hpid _ hchk =>
    exact hinv.freeze hfz hins hp hpid rfl hchk rfl (by simp [hkind]) rfl
      (fun h => ⟨.inr rfl, h.2⟩) (by simp [hkind])
  | acknowledgedAction _ _ ha _ _ hp hpid _ hchk | released ha hp hpid _ _ _ hchk =>
    exact hinv.settle ha hp hpid hchk
  | acknowledgedProcess hr _ _ hchk hp hadv hcl =>
    have hrep := hinv.setReport hr hchk rfl ⟨rfl, rfl, rfl⟩ rfl
    exact hrep.advance hp hadv fun hc => .inl (hcl ▸ hc)
  | rejected hr _ hchk => exact hinv.setReport hr hchk rfl ⟨rfl, rfl, rfl⟩ rfl
  | deleted hp => exact hinv.delete hp

theorem Reachable.inv (h : Reachable codec db) : Inv codec db := by
  refine Reach.Reachable.invariant ?_ ?_ h
  · rintro s rfl
    exact .empty
  · rintro s t hs ⟨op, out, hrun⟩
    exact (run_change hs hrun).inv hs

end

end StateDb
