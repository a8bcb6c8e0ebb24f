import Omnara.StateDb.Proof.Invariant

/-!
# No audited violation is reachable

The audit finds nothing in a database with the invariant (`Inv.audit`), the report of an action can
always be acknowledged (`Inv.acknowledge`), and while a process is there its frontier only grows
(`frontier_le`).
-/

namespace StateDb

open Fallible List Table

section
variable {codec : Codec} {db db' : Db}

/-! ## Rows over one change -/

/-- What no change takes back in the row of a process. -/
structure Process.Follows (p p' : Process) : Prop where
  supervisorInstanceID : p'.supervisorInstanceID = p.supervisorInstanceID
  frontier : p.resolvedActionSeq ≤ p'.resolvedActionSeq
  exec : p.execCommitted = true → p'.execCommitted = true

theorem Process.Follows.refl (p : Process) : p.Follows p := ⟨rfl, Int.le_refl _, id⟩

theorem Process.Advances.follows {p p' : Process} (h : p.Advances p') : p.Follows p' :=
  ⟨h.supervisorInstanceID, h.frontier ▸ Int.le_refl _, h.exec⟩

theorem follows_setProcess {p p' q q' : Process} (hq' : q' ∈ (db.setProcess p').processes)
    (hp : p ∈ db.processes) (hid : p'.processID = p.processID) (hfollows : p.Follows p')
    (hq : q ∈ db.processes) (hqid : q'.processID = q.processID) : q.Follows q' := by
  obtain rfl | ⟨hq', -⟩ := (mem_setProcess hp hid).1 hq'
  · rw [eq_of_key hq hp (hqid.symm.trans hid)]
    exact hfollows
  · rw [eq_of_key hq' hq hqid]
    exact .refl q

theorem Change.follows {op : Op} {out : Outcome} (h : Change codec db op out db') {q q' : Process}
    (hq : q ∈ db.processes) (hq' : q' ∈ db'.processes) (hid : q'.processID = q.processID) :
    q.Follows q' := by
  have hsame : q' ∈ db.processes → q.Follows q' := fun h => by
    rw [eq_of_key h hq hid]
    exact .refl q
  cases h with
  | unchanged | froze | rejected => exact hsame hq'
  | reserved _ _ _ _ _ _ hins =>
    obtain hq' | rfl := (mem_of_insert hins).1 hq'
    · exact hsame hq'
    · exact absurd hid.symm (fresh_of_insert hins q hq)
  | updated hp hadv | authorized hp _ hadv | acknowledgedProcess _ _ _ _ hp hadv =>
    exact follows_setProcess hq' hp hadv.processID hadv.follows hq hid
  | compacted hp hle => exact follows_setProcess hq' hp rfl ⟨rfl, hle, id⟩ hq hid
  | executed hp _ hlt | withoutEffect hp _ hlt =>
    exact follows_setProcess hq' hp rfl ⟨rfl, Int.le_sub_one_of_lt hlt, id⟩ hq hid
  | frozeTerminal _ _ _ hp => exact follows_setProcess hq' hp rfl ⟨rfl, Int.le_refl _, id⟩ hq hid
  | acknowledgedAction _ _ _ _ _ hp _ hseq | released _ hp _ _ hseq =>
    exact follows_setProcess hq' hp rfl ⟨rfl, by simp only [hseq]; omega, id⟩ hq hid
  | @deleted _ p hp =>
    simp only [Db.deleteProcess, Db.processTx_eq_some.2 ⟨hp, rfl⟩, Option.any_some, decide_true,
      if_true] at hq'
    exact hsame (mem_deleteWhere.1 hq').1

def Db.Has (processID : String) (db : Db) : Prop := ∃ p ∈ db.processes, p.processID = processID

theorem frontier_le {processID : String} (h : Reachable codec db)
    (hrun : Reach.Through (Step codec) (Db.Has processID) db db') {p p' : Process}
    (hp : p ∈ db.processes) (hid : p.processID = processID) (hp' : p' ∈ db'.processes)
    (hid' : p'.processID = processID) : p.resolvedActionSeq ≤ p'.resolvedActionSeq := by
  revert p'
  refine Reach.Through.related (R := fun _ t => ∀ {p' : Process}, p' ∈ t.processes →
    p'.processID = processID → p.resolvedActionSeq ≤ p'.resolvedActionSeq) hrun ?_ ?_
  · intro _ p' hp' hid'
    exact (eq_of_key hp' hp (hid'.trans hid.symm)) ▸ Int.le_refl _
  · rintro t u hst hle ⟨q, hq, hqid⟩ ⟨op, out, hstep⟩ - p' hp' hid'
    have hch := run_change (Reachable.inv (hst.reachable h)) hstep
    exact Int.le_trans (hle hq hqid) (hch.follows hq hp' (hid'.trans hqid.symm)).frontier

/-! ## The audit -/

theorem Inv.audit (hinv : Inv codec db) : db.getInvariantViolations = {} := by
  unfold Db.getInvariantViolations
  congr 1
  · rw [any_eq_false]
    intro p hp
    simp only [Bool.and_eq_true, Bool.not_eq_true', decide_eq_true_eq, not_and, Bool.not_eq_false]
    intro hph
    obtain ⟨r, hr, hkind, hrid⟩ := (hinv.terminal p hp).1 hph
    have hne : r.actionID = "" := by
      by_contra hne
      simpa [hkind] using (Report.kind_eq_iff (hinv.reportOk r hr)).2 hne
    exact any_eq_true.2 ⟨r, hr, by simp [hkind, hrid, hne]⟩
  · simp only [any_eq_false, any_eq_true, Bool.and_eq_true, decide_eq_true_eq]
    rintro r hr ⟨p, hp, ⟨hpid, hkind⟩, hph⟩
    exact hph ((hinv.terminal p hp).2 ⟨r, hr, hkind, hpid.symm⟩)
  · simp only [any_eq_false, Bool.and_eq_true, decide_eq_true_eq, not_and]
    intro p hp hcl
    exact not_not_intro (hinv.closed p hp hcl).1
  · simp only [any_eq_false, any_eq_true, Bool.and_eq_true,
      decide_eq_true_eq, Bool.not_eq_true', any_eq_false]
    rintro p hp ⟨a, ha, ⟨haid, hcl⟩, hnone⟩
    obtain ⟨r, hr, hof⟩ := (hinv.closed p hp hcl).2 a ha haid
    exact hnone r hr hof
  · simp only [any_eq_false, Bool.and_eq_true, Bool.not_eq_true', not_and]
    intro a ha heff hnone
    obtain ⟨r, hr, hof⟩ := hinv.noEffect a ha heff
    exact hnone r hr hof
  · simp only [any_eq_false, any_eq_true, Bool.and_eq_true, decide_eq_true_eq]
    rintro a ha ⟨p, hp, hpid, hle⟩
    have hnext := hinv.next a ha p hp hpid
    omega

theorem Process.check_resolvedAt {p : Process} (h : p.check = true) {seq : Int} (hseq : 0 ≤ seq) :
    (p.resolvedAt seq).check = true := by
  simp only [check, Bool.and_eq_true, decide_eq_true_eq] at h ⊢
  tauto

theorem Inv.acknowledge (hinv : Inv codec db) {r : Report} (hr : r ∈ db.reports)
    (hkind : r.kind = .actionTerminal) : ∃ db', db.acknowledgeReport r.id = .ok db' := by
  have hchk := hinv.reportOk r hr
  have hne := (Report.kind_eq_iff hchk).1 hkind
  have hstate : r.state = .pending ∨ r.state = .rejected := by
    simp only [Report.check, hne, Bool.and_eq_true, Bool.or_eq_true, decide_eq_true_eq] at hchk
    cases hs : r.state <;> simp_all
  obtain ⟨a, ha, haid, haproc⟩ := hinv.reportAction r hr hkind
  obtain ⟨p, hp, hpid⟩ := hinv.owned a ha
  have hget : (db.actionTx r.actionID).filter (·.processID = r.processID) = some a := by
    rw [Db.actionTx_eq_some.2 ⟨ha, haid⟩, Option.filter_some, if_pos (by simpa using haproc)]
  have hseq : 0 < a.seq := by
    have := hinv.actionOk a ha
    simp only [Action.check, Bool.and_eq_true, decide_eq_true_eq] at this
    exact this.2
  have hupd : db.updateProcesses "advance resolved process action sequence" p.processID
      (fun _ => true) (·.resolvedAt a.seq) = .ok (db.setProcess (p.resolvedAt a.seq), 1) :=
    Db.updateProcesses_eq hp rfl (Process.check_resolvedAt (hinv.processOk p hp) (by omega))
  refine ⟨(db.setProcess (p.resolvedAt a.seq)).deleteProcessAction a.id a.processID, ?_⟩
  rw [hpid] at hupd
  simp only [Db.acknowledgeReport, get_eq_some.2 ⟨hr, rfl⟩, hkind, if_true,
    Db.acknowledgeActionReport, hget, Db.processTx_eq_some.2 ⟨hp, hpid.trans haproc⟩, bind_eq_ok,
    ensure_eq_ok, Prod.exists]
  exact ⟨(), hstate, (), hinv.next a ha p hp hpid, _, _, hupd, rfl⟩

end

/-- **No audited violation is reachable.** In every reachable database the audit query finds nothing, an
action row is the only one of its process and stands right after its frontier, and the report of an
action can be acknowledged; and for as long as the process has a row, its frontier never moves back. -/
theorem reachable_audit {codec : Codec} {db : Db} (h : Reachable codec db) :
    db.getInvariantViolations = {} ∧
    (∀ a ∈ db.actions, ∃ p ∈ db.processes, p.processID = a.processID ∧
      a.seq = p.resolvedActionSeq + 1 ∧ ∀ b ∈ db.actions, b.processID = p.processID → b = a) ∧
    (∀ r ∈ db.reports, r.kind = .actionTerminal → ∃ db', db.acknowledgeReport r.id = .ok db') ∧
    ∀ processID db', Reach.Through (Step codec) (Db.Has processID) db db' →
      ∀ p ∈ db.processes, p.processID = processID → ∀ p' ∈ db'.processes, p'.processID = processID →
        p.resolvedActionSeq ≤ p'.resolvedActionSeq := by
  have hinv := h.inv
  refine ⟨hinv.audit, fun a ha => ?_, fun r hr hkind => hinv.acknowledge hr hkind, ?_⟩
  · obtain ⟨p, hp, hpid⟩ := hinv.owned a ha
    exact ⟨p, hp, hpid, hinv.next a ha p hp hpid, fun b hb hbid =>
      hinv.sole b hb a ha (hbid.trans hpid)⟩
  · intro processID db' hrun p hp hid p' hp' hid'
    exact frontier_le h hrun hp hid hp' hid'

/-- A process that was spawned, applied its third action first and froze the report of it. -/
theorem reachable_audit_applied : ∃ h, sampleHistory sampleRun = .ok h ∧
    h.db.getInvariantViolations = {} ∧
    ∃ r ∈ h.db.reports, ∃ db', h.db.acknowledgeReport r.id = .ok db' := by
  obtain ⟨h, hmem, r, hr, hkind⟩ : ∃ h ∈ (sampleHistory sampleRun).toOption,
      ∃ r ∈ h.db.reports.rows, r.kind = .actionTerminal := by decide +kernel
  have hrun := mem_toOption hmem
  obtain ⟨haudit, -, hack, -⟩ := reachable_audit (reachable_of_sampleHistory hrun).db
  exact ⟨h, hrun, haudit, r, hr, hack r hr hkind⟩

end StateDb
