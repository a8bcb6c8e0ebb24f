import Omnara.Lib.Window
import Omnara.StateDb.Proof.Audit

/-!
# At-most-once effects over whole histories

The rows of actions go when they are settled, so what has been executed is remembered by the frontier
alone. `Remembers` ties the events of a reservation to the rows: the outstanding actions are the action
rows of the process (`Change.actions`), an executed sequence number is behind the frontier or is that of
the row (`Change.settled`), and a spawn was authorised only if `exec_committed` is set. A process
without a row executes nothing until it is reserved again.
-/

namespace StateDb

open List Table

section
variable {codec : Codec} {db db' : Db} {op : Op} {out : Outcome} {a : Action}

/-! ## Events and changes -/

/-- A process has a row after a change only if it had one before or is reserved. -/
theorem Change.existed (h : Change codec db op out db') {p' : Process} (hp' : p' ∈ db'.processes) :
    db.Has p'.processID ∨ (Event.committed db op out).reserves p'.processID = true := by
  have hset : ∀ {p q : Process}, p' ∈ db.processes.replace q → p ∈ db.processes →
      q.processID = p.processID → db.Has p'.processID := by
    intro p q hmem hp hid
    obtain rfl | ⟨hmem, -⟩ := (mem_replace ⟨p, hp, hid.symm⟩).1 hmem
    · exact ⟨p, hp, hid.symm⟩
    · exact ⟨p', hmem, rfl⟩
  cases h with
  | unchanged | froze | rejected => exact .inl ⟨p', hp', rfl⟩
  | reserved hid _ _ _ _ _ hins =>
    obtain hp' | rfl := (mem_of_insert hins).1 hp'
    · exact .inl ⟨p', hp', rfl⟩
    · refine .inr ?_
      have hnone := Db.processTx_eq_none.2 (fresh_of_insert hins)
      simp [Event.reserves, hid.symm, hnone]
  | updated hp hadv | authorized hp _ hadv | acknowledgedProcess _ _ _ _ hp hadv =>
    exact .inl (hset hp' hp hadv.processID)
  | compacted hp | executed hp | withoutEffect hp | frozeTerminal _ _ _ hp
  | acknowledgedAction _ _ _ _ _ hp | released _ hp => exact .inl (hset hp' hp rfl)
  | @deleted _ p hp =>
    simp only [Db.deleteProcess, Db.processTx_eq_some.2 ⟨hp, rfl⟩, Option.any_some, decide_true,
      if_true] at hp'
    exact .inl ⟨p', (mem_deleteWhere.1 hp').1, rfl⟩

/-- The row of a process that is not reserved anew follows the row it had. -/
theorem Change.followed (h : Change codec db op out db') {processID : String}
    (hresv : (Event.committed db op out).reserves processID = false) :
    ∀ p' ∈ db'.processes, p'.processID = processID →
      ∃ p ∈ db.processes, p.processID = processID ∧ p.Follows p' := by
  rintro p' hp' rfl
  obtain ⟨p, hp, hid⟩ := (h.existed hp').resolve_right (by simp [hresv])
  exact ⟨p, hp, hid, h.follows hp hp' hid.symm⟩

/-- Only the acknowledgement of its report and its release settle an action. -/
theorem settles_acknowledge_iff (hinv : Inv codec db) {r : Report} {b : Action}
    (hr : r ∈ db.reports) (ha : a ∈ db.actions) (haid : a.id = r.actionID) (hb : b ∈ db.actions) :
    Op.settles db b (.acknowledgeReport r.id) = true ↔ b = a := by
  have hne := Action.id_ne_of_check (hinv.actionOk b hb)
  simp only [Op.settles, get_eq_some.2 ⟨hr, rfl⟩, Option.any_some, Report.ofAction_iff hne]
  exact ⟨fun h => eq_of_key hb ha (h.symm.trans haid.symm), fun h => h ▸ haid.symm⟩

/-- The action rows of a process that keeps its row: those that are not settled, and the one that is
recorded. -/
theorem Change.actions (hinv : Inv codec db) (h : Change codec db op out db')
    (hhas : db'.Has a.processID) :
    a ∈ db'.actions ↔ a ∈ db.actions ∧ op.settles db a = false ∨ op.recorded out = some a := by
  have hquiet : op.Quiet db out →
      (a ∈ db.actions ↔ a ∈ db.actions ∧ op.settles db a = false ∨ op.recorded out = some a) := by
    intro hq
    rw [hq.records]
    exact ⟨fun ha => .inl ⟨ha, hq.settles a ha⟩, fun h => h.elim And.left nofun⟩
  cases h with
  | unchanged hq | updated _ _ _ hq | compacted _ _ _ _ hq | froze _ _ _ _ hq
  | frozeTerminal _ _ _ _ _ _ _ hq => exact hquiet hq
  | reserved => simp [Op.settles, Op.recorded]
  | authorized => simp [Op.settles, Op.recorded, Db.setProcess]
  | executed _ _ _ _ _ _ _ hins | withoutEffect _ _ _ _ _ _ _ hins =>
    simp only [Op.settles, Op.recorded, and_true, Option.some.injEq, eq_comm (b := a)]
    exact mem_of_insert hins
  | acknowledgedAction hr _ hmem hid _ hp =>
    simp only [mem_actions_settle hmem, Op.recorded, reduceCtorEq, or_false]
    refine and_congr_right fun ha => ?_
    rw [← Bool.not_eq_true, settles_acknowledge_iff hinv hr hmem hid ha]
  | @acknowledgedProcess r _ _ hr hkind =>
    simp [settles_acknowledge_process hinv hr hkind, Op.recorded, Db.setProcess, Db.setReport]
  | rejected => simp [Op.settles, Op.recorded, Db.setReport]
  | @released supervisor b p hb hp hpid hsup =>
    have hmem : a ∈ ((db.deleteProcessAction b.id b.processID).setProcess
        (p.resolvedAt b.seq)).actions ↔ a ∈ db.actions ∧ a ≠ b := mem_actions_settle (p := p) hb
    rw [hmem]
    simp only [Op.recorded, reduceCtorEq, or_false]
    refine and_congr_right fun ha => ?_
    rw [← Bool.not_eq_true]
    refine not_congr ⟨fun h => by simp [Op.settles, h, hsup], fun h => ?_⟩
    simp only [Op.settles, Bool.and_eq_true, decide_eq_true_eq] at h
    exact eq_of_key ha hb h.1.2.symm
  | @deleted _ p hp hq =>
    obtain ⟨q, hmem, hqid⟩ := hhas
    simp only [Db.deleteProcess, Db.processTx_eq_some.2 ⟨hp, rfl⟩, Option.any_some, decide_true,
      if_true, mem_deleteWhere, decide_eq_false_iff_not] at hmem ⊢
    rw [← hquiet hq]
    exact ⟨And.left, fun ha => ⟨ha, fun h => hmem.2 (hqid.trans h)⟩⟩

theorem Change.settled (hinv : Inv codec db) (h : Change codec db op out db')
    (ha : a ∈ db.actions) (hsettles : op.settles db a = true) {p' : Process}
    (hp' : p' ∈ db'.processes) (hid : p'.processID = a.processID) : a.seq ≤ p'.resolvedActionSeq := by
  have hquiet : ¬ op.Quiet db out := fun hq => by simp [hq.settles a ha] at hsettles
  have hset : ∀ {b : Action} {p : Process}, a = b → p ∈ db.processes → p.processID = b.processID →
      p' ∈ (db.setProcess (p.resolvedAt b.seq)).processes → a.seq ≤ p'.resolvedActionSeq := by
    rintro _ p rfl hp hpid hmem
    obtain rfl | ⟨-, hne⟩ := (mem_resolvedAt hp).1 hmem
    · exact Int.le_refl _
    · exact absurd (hid.trans hpid.symm) hne
  cases h with
  | unchanged hq | updated _ _ _ hq | compacted _ _ _ _ hq | froze _ _ _ _ hq
  | frozeTerminal _ _ _ _ _ _ _ hq | deleted _ hq => exact absurd hq hquiet
  | reserved | authorized | executed | withoutEffect | rejected => cases hsettles
  | acknowledgedAction hr _ hmem haid _ hp hpid =>
    exact hset ((settles_acknowledge_iff hinv hr hmem haid ha).1 hsettles) hp hpid hp'
  | acknowledgedProcess hr hkind => simp [settles_acknowledge_process hinv hr hkind] at hsettles
  | released hb hp hpid =>
    simp only [Op.settles, Bool.and_eq_true, decide_eq_true_eq] at hsettles
    exact hset (eq_of_key ha hb hsettles.1.2.symm) hp hpid hp'

/-- A spawn is authorised for a process whose `exec_committed` is not set yet, and sets it. -/
theorem Change.spawned {supervisor : Supervisor}
    (h : Change codec db (.authorizeSpawnOnce supervisor) (.spawn true) db') :
    ∃ p ∈ db.processes, p.processID = supervisor.processID ∧ p.execCommitted = false ∧
      ∀ p' ∈ db'.processes, p'.processID = p.processID → p'.execCommitted = true := by
  cases h with
  | unchanged hq | updated _ _ _ hq | compacted _ _ _ _ hq => exact absurd rfl hq.spawns
  | authorized hp hid hadv _ hnone hexec =>
    refine ⟨_, hp, hid, hnone, fun q hq hqid => ?_⟩
    obtain rfl | ⟨-, hne⟩ := (mem_setProcess hp hadv.processID).1 hq
    · exact hexec
    · exact absurd hqid hne

/-- An action is recorded when its process has no action row, and beyond the frontier. -/
theorem Change.records (h : Change codec db op out db') (hrec : op.recorded out = some a) :
    (∀ b ∈ db.actions, b.processID ≠ a.processID) ∧
      ∃ p ∈ db.processes, p.processID = a.processID ∧ p.resolvedActionSeq < a.seq := by
  have hquiet : ¬ op.Quiet db out := fun hq => by simp [hq.records] at hrec
  cases h with
  | unchanged hq | updated _ _ _ hq | compacted _ _ _ _ hq | froze _ _ _ _ hq
  | frozeTerminal _ _ _ _ _ _ _ hq | deleted _ hq => exact absurd hq hquiet
  | reserved | authorized | acknowledgedAction | acknowledgedProcess | rejected | released =>
    cases hrec
  | executed hp hid hlt hidle | withoutEffect hp hid hlt hidle =>
    cases hrec
    exact ⟨hid ▸ hidle, _, hp, hid, hlt⟩

/-! ## Histories -/

theorem recorded_of_executed {processID : String}
    (h : (Event.committed db op out).executed processID = some a) :
    a.processID = processID ∧ op.recorded out = some { a with effectCommitted := true } := by
  unfold Event.executed at h
  split at h
  · rename_i heq
    cases heq
    obtain ⟨hid, ha⟩ := Option.ite_none_right_eq_some.1 h
    cases ha
    exact ⟨hid, rfl⟩
  · cases h

theorem sinceReservation_concat (processID : String) (log : List Event) (e : Event) :
    sinceReservation processID (log ++ [e]) =
      if e.reserves processID then [] else sinceReservation processID log ++ [e] := by
  simp [sinceReservation]

theorem outstandingActions_concat (processID : String) (log : List Event) (e : Event) :
    outstandingActions processID (log ++ [e]) =
      e.outstanding processID (outstandingActions processID log) := by
  simp [outstandingActions]

/-- What the rows of a process remember of the events of its reservation. -/
structure Remembers (db : Db) (processID : String) (log : List Event) : Prop where
  /-- a spawn was authorised at most once -/
  spawn : log.countP (·.authorizesSpawn processID) ≤ 1
  /-- the executed sequence numbers increase -/
  increasing : (log.filterMap (·.executed processID)).Pairwise (·.seq < ·.seq)
  /-- an action was executed when none was outstanding -/
  alone : ∀ pre e post, log = pre ++ e :: post → (e.executed processID).isSome = true →
    outstandingActions processID pre = []
  outstanding : db.Has processID → ∀ a, a ∈ outstandingActions processID log ↔
    a ∈ db.actions ∧ a.processID = processID
  committed : ∀ p ∈ db.processes, p.processID = processID →
    0 < log.countP (·.authorizesSpawn processID) → p.execCommitted = true
  behind : ∀ p ∈ db.processes, p.processID = processID →
    ∀ a ∈ log.filterMap (·.executed processID), a.seq ≤ p.resolvedActionSeq ∨
      ∃ row ∈ db.actions, row.processID = processID ∧ row.seq = a.seq

namespace Remembers

variable {processID : String} {log : List Event}

theorem nil_of_idle (hidle : ∀ a ∈ db.actions, a.processID ≠ processID) : Remembers db processID [] where
  spawn := Nat.zero_le _
  increasing := .nil
  alone pre e post h := by simp at h
  outstanding _ a := ⟨nofun, fun ⟨ha, hid⟩ => absurd hid (hidle a ha)⟩
  committed _ _ _ h := by simp at h
  behind _ _ _ _ h := by simp at h

/-- The last event of a log is executed alone if the actions outstanding before it are none. -/
theorem alone_concat {e : Event} (halone : ∀ pre e post, log = pre ++ e :: post →
      (e.executed processID).isSome = true → outstandingActions processID pre = [])
    (he : (e.executed processID).isSome = true → outstandingActions processID log = []) :
    ∀ pre x post, log ++ [e] = pre ++ x :: post → (x.executed processID).isSome = true →
      outstandingActions processID pre = [] := by
  intro pre x post hsplit hx
  obtain ⟨rfl, rfl, -⟩ | ⟨post, -, hlog⟩ := Window.concat_eq_split hsplit
  · exact he hx
  · exact halone pre x post hlog hx

theorem idle {e : Event} (h : Remembers db processID log) (hspawn : e.authorizesSpawn processID = false)
    (hexec : e.executed processID = none)
    (hout : ∀ actions, e.outstanding processID actions = actions) :
    Remembers db processID (log ++ [e]) := by
  have hcnt : (log ++ [e]).countP (·.authorizesSpawn processID) =
      log.countP (·.authorizesSpawn processID) := by simp [hspawn]
  have hmap : (log ++ [e]).filterMap (·.executed processID) =
      log.filterMap (·.executed processID) := by simp [hexec]
  refine ⟨hcnt ▸ h.spawn, hmap ▸ h.increasing, alone_concat h.alone (by simp [hexec]), ?_,
    hcnt ▸ h.committed, hmap ▸ h.behind⟩
  rw [outstandingActions_concat, hout]
  exact h.outstanding

/-- The rows remember the event of a change, unless it reserves the process. -/
theorem step (h : Remembers db processID log) (hinv : Inv codec db)
    (hch : Change codec db op out db')
    (hresv : (Event.committed db op out).reserves processID = false) :
    Remembers db' processID (log ++ [.committed db op out]) := by
  -- the row of the process before the change, and what it was
  have hbef := hch.followed hresv
  have hspawned : (Event.committed db op out).authorizesSpawn processID = true →
      ∃ p ∈ db.processes, p.processID = processID ∧ p.execCommitted = false ∧
        ∀ p' ∈ db'.processes, p'.processID = p.processID → p'.execCommitted = true := by
    intro he
    unfold Event.authorizesSpawn at he
    split at he
    · rename_i heq
      cases heq
      rw [decide_eq_true_eq] at he
      exact he ▸ hch.spawned
    · cases he
  have hexecuted : ∀ a, (Event.committed db op out).executed processID = some a →
      a.processID = processID ∧ (∀ b ∈ db.actions, b.processID ≠ processID) ∧
      (∃ p ∈ db.processes, p.processID = processID ∧ p.resolvedActionSeq < a.seq) ∧
      op.recorded out = some { a with effectCommitted := true } := by
    intro a he
    obtain ⟨hid, hrec⟩ := recorded_of_executed he
    obtain ⟨hidle, hbehind⟩ := hch.records hrec
    exact ⟨hid, hid ▸ hidle, hid ▸ hbehind, hrec⟩
  have hfil : (log ++ [Event.committed db op out]).filterMap (·.executed processID) =
      log.filterMap (·.executed processID) ++
        ((Event.committed db op out).executed processID).toList := by
    cases hx : (Event.committed db op out).executed processID <;> simp [hx]
  refine ⟨?_, ?_, ?_, ?_, ?_, ?_⟩
  · rw [countP_append, countP_singleton]
    split
    · obtain ⟨p, hp, hid, hnone, -⟩ := hspawned ‹_›
      have hzero : log.countP (·.authorizesSpawn processID) = 0 := by
        by_contra hpos
        simp [h.committed p hp hid (Nat.pos_of_ne_zero hpos)] at hnone
      omega
    · exact h.spawn
  · rw [hfil, pairwise_append]
    refine ⟨h.increasing, by cases (Event.committed db op out).executed processID <;> simp,
      fun a ha b hb => ?_⟩
    obtain ⟨-, hidle, ⟨p, hp, hid, hlt⟩, -⟩ := hexecuted b (Option.mem_toList.1 hb)
    obtain hle | ⟨row, hrow, hrid, -⟩ := h.behind p hp hid a ha
    · omega
    · exact absurd hrid (hidle row hrow)
  · refine alone_concat h.alone fun hsome => ?_
    obtain ⟨a, ha⟩ := Option.isSome_iff_exists.1 hsome
    obtain ⟨-, hidle, ⟨p, hp, hid, -⟩, -⟩ := hexecuted a ha
    refine eq_nil_iff_forall_not_mem.2 fun b hb => ?_
    obtain ⟨hb, hbid⟩ := (h.outstanding ⟨p, hp, hid⟩ b).1 hb
    exact hidle b hb hbid
  · rintro ⟨p', hp', hid'⟩ a
    obtain ⟨p, hp, hid, -⟩ := hbef p' hp' hid'
    rw [outstandingActions_concat, Event.outstanding, mem_append, mem_filter,
      mem_filter, Option.mem_toList, h.outstanding ⟨p, hp, hid⟩ a, Bool.not_eq_true',
      decide_eq_true_eq]
    constructor
    · rintro (⟨⟨ha, haid⟩, hkept⟩ | ⟨ha, haid⟩)
      · exact ⟨(hch.actions hinv ⟨p', hp', hid'.trans haid.symm⟩).2 (.inl ⟨ha, hkept⟩), haid⟩
      · exact ⟨(hch.actions hinv ⟨p', hp', hid'.trans haid.symm⟩).2 (.inr ha), haid⟩
    · rintro ⟨ha, haid⟩
      obtain ⟨ha, hkept⟩ | ha := (hch.actions hinv ⟨p', hp', hid'.trans haid.symm⟩).1 ha
      · exact .inl ⟨⟨ha, haid⟩, hkept⟩
      · exact .inr ⟨ha, haid⟩
  · intro p' hp' hid' hpos
    obtain ⟨p, hp, hid, hfollows⟩ := hbef p' hp' hid'
    rw [countP_append, countP_singleton] at hpos
    split at hpos
    · obtain ⟨q, hq, hqid, -, hall⟩ := hspawned ‹_›
      exact hall p' hp' (hid'.trans hqid.symm)
    · exact hfollows.exec (h.committed p hp hid hpos)
  · intro p' hp' hid' a ha
    obtain ⟨p, hp, hid, hfollows⟩ := hbef p' hp' hid'
    rw [hfil, mem_append, Option.mem_toList] at ha
    obtain ha | ha := ha
    · obtain hle | ⟨row, hrow, hrid, hseq⟩ := h.behind p hp hid a ha
      · exact .inl (Int.le_trans hle hfollows.frontier)
      · -- the row is still there, or the frontier has moved over it
        have hhas : db'.Has row.processID := ⟨p', hp', hid'.trans hrid.symm⟩
        cases hsettles : op.settles db row with
        | false => exact .inr ⟨row, (hch.actions hinv hhas).2 (.inl ⟨hrow, hsettles⟩), hrid, hseq⟩
        | true => exact .inl (hseq ▸ hch.settled hinv hrow hsettles hp' (hid'.trans hrid.symm))
    · obtain ⟨haid, -, -, hrecorded⟩ := hexecuted a ha
      have hrow := (hch.actions hinv (a := { a with effectCommitted := true })
        ⟨p', hp', hid'.trans haid.symm⟩).2 (.inr hrecorded)
      exact .inr ⟨_, hrow, haid, rfl⟩

end Remembers

theorem History.Reachable.remembers {h : History} (hr : h.Reachable codec) :
    Inv codec h.db ∧ ∀ processID, Remembers h.db processID (sinceReservation processID h.log) := by
  refine Reach.Reachable.invariant
    (P := fun h => Inv codec h.db ∧ ∀ id, Remembers h.db id (sinceReservation id h.log)) ?_ ?_ hr
  · rintro _ rfl
    exact ⟨.empty, fun _ => .nil_of_idle (by simp [Db.empty])⟩
  · rintro s t ⟨hinv, hrem⟩ hstep
    cases hstep with
    | commit hrun =>
      have hch := run_change hinv hrun
      refine ⟨hch.inv hinv, fun processID => ?_⟩
      rw [sinceReservation_concat]
      split
      · -- a new row: nothing refers to the process
        rename_i hresv
        refine .nil_of_idle fun a ha haid => ?_
        unfold Event.reserves at hresv
        split at hresv
        · rename_i heq
          cases heq
          obtain ⟨ha, -⟩ | hrec := (hch.actions hinv ((hch.inv hinv).owned a ha)).1 ha
          · simp only [Bool.and_eq_true, Option.isNone_iff_eq_none] at hresv
            obtain ⟨p, hp, hpid⟩ := hinv.owned a ha
            exact Db.processTx_eq_none.1 hresv.2 p hp (hpid.trans haid)
          · cases hrec
        · cases hresv
      · exact (hrem processID).step hinv hch (Bool.not_eq_true _ ▸ ‹¬ _›)
    | fail op | crash =>
      refine ⟨hinv, fun processID => ?_⟩
      rw [sinceReservation_concat]
      exact (hrem processID).idle rfl rfl fun _ => rfl

/-! ## Actions that crossed their effect boundary -/

/-- What `ApplyOnce` returns for an action whose effect boundary was crossed. -/
def Db.crossedDecision (db : Db) (actionID : String) : ApplyDecision :=
  match db.reportByActionTx actionID with
  | some report => .alreadyReported report
  | none => .outcomeUnknown

theorem applyOnce_crossed {supervisor : Supervisor} {action row : Action} {decision : ApplyDecision}
    (hrow : row ∈ db.actions) (hid : action.id = row.id)
    (h : db.applyOnce supervisor action = .ok (db', decision)) :
    db' = db ∧ decision = db.crossedDecision row.id := by
  unfold Db.applyOnce at h
  simp only [Fallible.bind_eq_ok, Prod.exists] at h
  obtain ⟨-, -, p, existing, hload, h⟩ := h
  obtain ⟨-, rfl, -⟩ := loadActionTransitionTx_ok hload
  rw [Db.actionTx_eq_some.2 ⟨hrow, hid.symm⟩] at h
  unfold Db.crossedDecision
  rw [← hid]
  cases hrep : db.reportByActionTx action.id with
  | some report =>
    simp only [hrep] at h
    cases h
    exact ⟨rfl, rfl⟩
  | none =>
    simp only [hrep, Fallible.bind_eq_ok] at h
    obtain ⟨-, -, h⟩ := h
    cases h
    exact ⟨rfl, rfl⟩

theorem applyOnce_eq_crossed (hinv : Inv codec db) {p : Process} {action row : Action}
    (hp : p ∈ db.processes) (hrow : row ∈ db.actions) (hproc : row.processID = p.processID)
    (hsame : Db.sameActionIdentity row action = true) (heff : row.effectCommitted = true) :
    db.applyOnce ⟨p.processID, p.supervisorInstanceID⟩ action =
      .ok (db, db.crossedDecision row.id) := by
  have hident := hsame
  simp only [Db.sameActionIdentity, Bool.and_eq_true, decide_eq_true_eq] at hident
  obtain ⟨⟨⟨hid, hprocess⟩, -⟩, hseq⟩ := hident
  have hchk := hinv.actionOk row hrow
  simp only [Action.check, Bool.and_eq_true, decide_eq_true_eq] at hchk
  have hval : Db.validateAction action p.processID = .ok () := by
    rw [Db.validateAction, Fallible.ensure_eq_ok]
    exact ⟨hid ▸ hchk.1, hprocess.symm.trans hproc, hseq ▸ hchk.2⟩
  have hget := Db.actionTx_eq_some.2 ⟨hrow, hid⟩
  have hload : db.loadActionTransitionTx ⟨p.processID, p.supervisorInstanceID⟩ action =
      .ok (p, some row) := by
    simp only [Db.loadActionTransitionTx, hget, Fallible.bind_eq_ok, Fallible.ensure_eq_ok,
      Option.all_some]
    exact ⟨p, Db.supervised_ok.2 ⟨hp, rfl, rfl⟩, (), hsame, rfl⟩
  unfold Db.applyOnce Db.crossedDecision
  rw [hid]
  simp only [Fallible.bind_eq_ok, Prod.exists]
  refine ⟨(), hval, p, some row, hload, ?_⟩
  cases db.reportByActionTx action.id with
  | some report => rfl
  | none =>
    simp only [Fallible.bind_eq_ok, Fallible.ensure_eq_ok]
    exact ⟨(), heff, rfl⟩

end

/-- **At-most-once effects.** Over the events of one reservation of a process, whatever failed and
crashed in between: a spawn is authorised at most once; the sequence numbers of the actions returned for
execution strictly increase, and each is returned when no action recorded before is still outstanding.
While an action that crossed its effect boundary is outstanding, `ApplyOnce` for it changes nothing and
returns its frozen report, or that the outcome is unknown. -/
theorem reachable_atMostOnce {codec : Codec} {h : History} (hr : h.Reachable codec)
    (processID : String) :
    (sinceReservation processID h.log).countP (·.authorizesSpawn processID) ≤ 1 ∧
    ((sinceReservation processID h.log).filterMap (·.executed processID)).Pairwise (·.seq < ·.seq) ∧
    (∀ pre e post, sinceReservation processID h.log = pre ++ e :: post →
      (e.executed processID).isSome = true → outstandingActions processID pre = []) ∧
    ∀ row ∈ outstandingActions processID (sinceReservation processID h.log),
      row.effectCommitted = true →
      (∀ supervisor action db decision, supervisor.processID = processID → action.id = row.id →
        h.db.applyOnce supervisor action = .ok (db, decision) →
        db = h.db ∧ decision = h.db.crossedDecision row.id) ∧
      ∀ p ∈ h.db.processes, p.processID = processID →
        ∀ action, Db.sameActionIdentity row action = true →
          h.db.applyOnce ⟨processID, p.supervisorInstanceID⟩ action =
            .ok (h.db, h.db.crossedDecision row.id) := by
  obtain ⟨hinv, hrem⟩ := hr.remembers
  have hrem := hrem processID
  refine ⟨hrem.spawn, hrem.increasing, hrem.alone, fun row hrow heffect => ⟨?_, ?_⟩⟩
  · intro supervisor action db decision hsup hid hrun
    -- the operation succeeds only while the process is there, and then the row is
    have hhas : h.db.Has processID := by
      unfold Db.applyOnce at hrun
      simp only [Fallible.bind_eq_ok, Prod.exists] at hrun
      obtain ⟨-, -, p, existing, hload, -⟩ := hrun
      obtain ⟨⟨hp, hpid, -⟩, -⟩ := loadActionTransitionTx_ok hload
      exact ⟨p, hp, hpid.trans hsup⟩
    exact applyOnce_crossed ((hrem.outstanding hhas row).1 hrow).1 hid hrun
  · rintro p hp rfl action hsame
    obtain ⟨hrow, hproc⟩ := (hrem.outstanding ⟨p, hp, rfl⟩ row).1 hrow
    exact applyOnce_eq_crossed hinv hp hrow hproc hsame heffect

/-- The action of the run crossed its effect boundary and was not reported. -/
theorem reachable_atMostOnce_unreported : ∃ h, sampleHistory (sampleRun.take 6) = .ok h ∧
    ((sinceReservation "proc" h.log).filterMap (·.executed "proc")).map (·.seq) = [3] ∧
    h.db.applyOnce sampleSupervisor sampleAction = .ok (h.db, .outcomeUnknown) := by
  obtain ⟨h, hmem, hexecuted, row, hrow, heffect, hsame, hdecision, p, hp, hid, hinstance⟩ :
      ∃ h ∈ (sampleHistory (sampleRun.take 6)).toOption,
        ((sinceReservation "proc" h.log).filterMap (·.executed "proc")).map (·.seq) = [3] ∧
        ∃ row ∈ outstandingActions "proc" (sinceReservation "proc" h.log),
          row.effectCommitted = true ∧ Db.sameActionIdentity row sampleAction = true ∧
          h.db.crossedDecision row.id = .outcomeUnknown ∧
          ∃ p ∈ h.db.processes.rows, p.processID = "proc" ∧ p.supervisorInstanceID = "instance" := by
    decide +kernel
  have hrun := Fallible.mem_toOption hmem
  obtain ⟨-, -, -, hcrossed⟩ := reachable_atMostOnce (reachable_of_sampleHistory hrun) "proc"
  have happly := (hcrossed row hrow heffect).2 p hp hid sampleAction hsame
  rw [hinstance, hdecision] at happly
  exact ⟨h, hrun, hexecuted, happly⟩

end StateDb
