import Omnara.Lib.JsonValue
import Omnara.Lib.Reach
import Omnara.StateDb.Store

/-!
# Runs of the state database

`Op` lists the operations of `Store` and `Supervisor` that write; each is a serialised transaction
(`_txlock=immediate`), so a run of any number of daemon and supervisor processes is a sequence of them.
A transaction that fails, for any reason, and a crash between two transactions leave the database as it
was. `Step` is one committed operation, `History` the database with the log of everything that happened
to it. `getInvariantViolations` is the query of the audit.
-/

namespace StateDb

inductive Op
  | reserveProcess (process : Process)
  | markPrepared (supervisor : Supervisor)
  | markAccepted (supervisor : Supervisor)
  | deleteRejectedPreparationAfterArtifacts (supervisor : Supervisor)
  | deleteStorageExhaustedAfterArtifacts (supervisor : Supervisor)
  | authorizeSpawnOnce (supervisor : Supervisor)
  | recordSpawned (supervisor : Supervisor) (containmentKind containmentID : String)
  | closeActionAdmission (supervisor : Supervisor)
  | markContainmentEmpty (supervisor : Supervisor)
  | markServerReleased (supervisor : Supervisor)
  | markLocalClosed (supervisor : Supervisor)
  | deleteClosedAfterArtifacts (supervisor : Supervisor)
  | applyOnce (supervisor : Supervisor) (action : Action)
  | recordActionWithoutEffect (supervisor : Supervisor) (action : Action) (report : Report)
      (newReportID : String)
  | freezeActionReport (supervisor : Supervisor) (actionID : String) (report : Report)
      (newReportID : String)
  | freezeStartedReport (supervisor : Supervisor) (report : Report) (newReportID : String)
  | freezeTerminalReport (supervisor : Supervisor) (report : Report) (newReportID : String)
  | acknowledgeReport (reportID : String)
  | releaseAction (supervisor : Supervisor) (actionID : String) (seq : Int)
  | resolveAbsentAction (supervisor : Supervisor) (actionID : String) (seq : Int)
  | rejectReport (reportID code message : String)
  deriving DecidableEq

inductive Outcome
  | done
  | spawn (authorized : Bool)
  | apply (decision : ApplyDecision)
  | noEffect (decision : NoEffectDecision)
  | frozen (report : Report)
  deriving DecidableEq

/-- An operation whose only result is that it succeeded. -/
def done (result : Except Error Db) : Except Error (Db × Outcome) :=
  result.map fun db => (db, .done)

def Op.run (codec : Codec) (db : Db) : Op → Except Error (Db × Outcome)
  | reserveProcess process => done (db.reserveProcess process)
  | markPrepared supervisor => done (db.markPrepared supervisor)
  | markAccepted supervisor => done (db.markAccepted supervisor)
  | deleteRejectedPreparationAfterArtifacts supervisor =>
    done (db.deleteRejectedPreparationAfterArtifacts supervisor)
  | deleteStorageExhaustedAfterArtifacts supervisor =>
    done (db.deleteStorageExhaustedAfterArtifacts supervisor)
  | authorizeSpawnOnce supervisor =>
    (db.authorizeSpawnOnce supervisor).map fun (db, authorized) => (db, .spawn authorized)
  | recordSpawned supervisor containmentKind containmentID =>
    done (db.recordSpawned supervisor containmentKind containmentID)
  | closeActionAdmission supervisor => done (db.closeActionAdmission supervisor)
  | markContainmentEmpty supervisor => done (db.markContainmentEmpty supervisor)
  | markServerReleased supervisor => done (db.markServerReleased supervisor)
  | markLocalClosed supervisor => done (db.markLocalClosed supervisor)
  | deleteClosedAfterArtifacts supervisor => done (db.deleteClosedAfterArtifacts supervisor)
  | applyOnce supervisor action =>
    (db.applyOnce supervisor action).map fun (db, decision) => (db, .apply decision)
  | recordActionWithoutEffect supervisor action report newReportID =>
    (db.recordActionWithoutEffect codec supervisor action report newReportID).map
      fun (db, decision) => (db, .noEffect decision)
  | freezeActionReport supervisor actionID report newReportID =>
    (db.freezeActionReport codec supervisor actionID report newReportID).map
      fun (db, report) => (db, .frozen report)
  | freezeStartedReport supervisor report newReportID =>
    (db.freezeStartedReport codec supervisor report newReportID).map
      fun (db, report) => (db, .frozen report)
  | freezeTerminalReport supervisor report newReportID =>
    (db.freezeTerminalReport codec supervisor report newReportID).map
      fun (db, report) => (db, .frozen report)
  | acknowledgeReport reportID => done (db.acknowledgeReport reportID)
  | releaseAction supervisor actionID seq => done (db.releaseAction supervisor actionID seq)
  | resolveAbsentAction supervisor actionID seq =>
    done (db.resolveAbsentAction supervisor actionID seq)
  | rejectReport reportID code message => done (db.rejectReport reportID code message)

/-- The freeze operation for the kind of the report. -/
def Db.freezeReport (codec : Codec) (db : Db) (supervisor : Supervisor) (report : Report)
    (newReportID : String) : Except Error (Db × Report) :=
  match report.kind with
  | .processStarted => db.freezeStartedReport codec supervisor report newReportID
  | .processTerminal => db.freezeTerminalReport codec supervisor report newReportID
  | .actionTerminal => db.freezeActionReport codec supervisor report.actionID report newReportID

def Step (codec : Codec) (db db' : Db) : Prop := ∃ op out, Op.run codec db op = .ok (db', out)

def Reachable (codec : Codec) : Db → Prop := Reach.Reachable (· = Db.empty) (Step codec)

/-! ## The audit (`GetInvariantViolations`) -/

structure Violations where
  terminalProcessMissingReport : Bool := false
  terminalReportOnNonterminalProcess : Bool := false
  locallyClosedProcessNotTerminal : Bool := false
  locallyClosedProcessActionMissingReport : Bool := false
  noEffectActionMissingReport : Bool := false
  actionBehindResolvedFrontier : Bool := false
  deriving DecidableEq

def Db.getInvariantViolations (db : Db) : Violations where
  terminalProcessMissingReport := db.processes.rows.any fun process =>
    process.phase = .terminal && !db.reports.rows.any fun report =>
      report.processID = process.processID && report.actionID = "" && report.kind = .processTerminal
  terminalReportOnNonterminalProcess := db.reports.rows.any fun report =>
    db.processes.rows.any fun process =>
      process.processID = report.processID && report.kind = .processTerminal &&
        process.phase ≠ .terminal
  locallyClosedProcessNotTerminal := db.processes.rows.any fun process =>
    process.localClosed && process.phase ≠ .terminal
  locallyClosedProcessActionMissingReport := db.processes.rows.any fun process =>
    db.actions.rows.any fun action =>
      action.processID = process.processID && process.localClosed &&
        !db.reports.rows.any (·.ofAction action.id)
  noEffectActionMissingReport := db.actions.rows.any fun action =>
    !action.effectCommitted && !db.reports.rows.any (·.ofAction action.id)
  actionBehindResolvedFrontier := db.actions.rows.any fun action =>
    db.processes.rows.any fun process =>
      process.processID = action.processID && action.seq ≤ process.resolvedActionSeq

/-! ## Histories -/

def Op.recorded : Op → Outcome → Option Action
  | applyOnce _ action, .apply .execute => some { action with effectCommitted := true }
  | recordActionWithoutEffect _ action _ _, .noEffect (.recorded _) =>
    some { action with effectCommitted := false }
  | _, _ => none

/-- The operation acknowledges the report of the action or releases the action. -/
def Op.settles (db : Db) (action : Action) : Op → Bool
  | acknowledgeReport reportID => (db.reports.get reportID).any (·.ofAction action.id)
  | releaseAction supervisor actionID seq =>
    supervisor.processID = action.processID && actionID = action.id && seq = action.seq
  | _ => false

/-- A report as it was frozen, without the state of its delivery. -/
def Report.asFrozen (r : Report) : Report := { r with state := .pending, errorCode := "", error := "" }

def Outcome.evidence : Outcome → Option Report
  | apply (.alreadyReported report) => some report.asFrozen
  | noEffect (.recorded report) => some report.asFrozen
  | noEffect (.alreadyReported report) => some report.asFrozen
  | frozen report => some report.asFrozen
  | _ => none

inductive Event
  /-- the operation committed, in the database `before` -/
  | committed (before : Db) (op : Op) (outcome : Outcome)
  /-- the operation returned an error, its own or one of the database file -/
  | failed (op : Op)
  /-- every process of the machine stopped; what starts again opens the same database -/
  | crash

structure History where
  db : Db
  log : List Event

namespace History

inductive Step (codec : Codec) : History → History → Prop
  | commit {h : History} {op : Op} {db : Db} {out : Outcome} : Op.run codec h.db op = .ok (db, out) →
      Step codec h ⟨db, h.log ++ [.committed h.db op out]⟩
  | fail (h : History) (op : Op) : Step codec h ⟨h.db, h.log ++ [.failed op]⟩
  | crash (h : History) : Step codec h ⟨h.db, h.log ++ [.crash]⟩

def Reachable (codec : Codec) : History → Prop :=
  Reach.Reachable (· = ⟨.empty, []⟩) (Step codec)

theorem Reachable.db {codec : Codec} {h : History} (hr : h.Reachable codec) :
    StateDb.Reachable codec h.db := by
  induction hr with
  | start hs => exact .start (congrArg History.db hs)
  | next _ hstep ih =>
    cases hstep with
    | commit hrun => exact .next ih ⟨_, _, hrun⟩
    | fail op => exact ih
    | crash => exact ih

def commitAll (codec : Codec) : List Op → History → Except Error History
  | [], h => .ok h
  | op :: ops, h =>
    match Op.run codec h.db op with
    | .ok (db, out) => commitAll codec ops ⟨db, h.log ++ [.committed h.db op out]⟩
    | .error err => .error err

theorem Reachable.commitAll {codec : Codec} : ∀ {ops : List Op} {h h' : History},
    h.Reachable codec → commitAll codec ops h = .ok h' → h'.Reachable codec
  | [], _, _, hr, hrun => Except.ok.inj hrun ▸ hr
  | op :: ops, h, h', hr, hrun => by
    unfold History.commitAll at hrun
    split at hrun
    · exact Reachable.commitAll (.next hr (.commit ‹_›)) hrun
    · cases hrun

end History

namespace Event

def reserves (processID : String) : Event → Bool
  | committed before (.reserveProcess process) _ =>
    process.processID = processID && (before.processTx processID).isNone
  | _ => false

/-- `AuthorizeSpawnOnce` returned true for the process. -/
def authorizesSpawn (processID : String) : Event → Bool
  | committed _ (.authorizeSpawnOnce supervisor) (.spawn true) => supervisor.processID = processID
  | _ => false

/-- The action of the process that `ApplyOnce` returned for execution. -/
def executed (processID : String) : Event → Option Action
  | committed _ (.applyOnce _ action) (.apply .execute) =>
    if action.processID = processID then some action else none
  | _ => none

/-- The actions of the process that are recorded and neither acknowledged nor released, after the
event. -/
def outstanding (processID : String) (actions : List Action) : Event → List Action
  | committed before op out =>
    actions.filter (fun a => !op.settles before a) ++
      (op.recorded out).toList.filter (·.processID = processID)
  | _ => actions

/-- The frozen report of an action of the process that the operation returned. -/
def evidence (processID : String) : Event → Option Report
  | committed _ _ out =>
    out.evidence.filter fun r => r.kind = .actionTerminal && r.processID = processID
  | _ => none

end Event

/-- The events since the row of the process was last created: those of one reservation. -/
def sinceReservation (processID : String) (log : List Event) : List Event :=
  log.foldl (fun events event => if event.reserves processID then [] else events ++ [event]) []

/-- The actions of the process that are recorded and neither acknowledged nor released. -/
def outstandingActions (processID : String) (log : List Event) : List Action :=
  log.foldl (Event.outstanding processID) []

/-! ## A run -/

/-- The members that the events of `sampleRun` have. -/
def decodeSampleEvent (body : Json.Bytes) : Option ReportedEvent := do
  let members ← Json.decode body >>= Json.structMembers
  let text (name : String) : Option String :=
    (Json.stringField members name).map fun bytes => .ofList (bytes.map fun c => Char.ofNat c.toNat)
  return {
    type := match ← text "type" with
      | "process_action_applied" => .processActionApplied
      | "process_action_unknown" => .processActionUnknown
      | other => .other other
    processID := ← text "process_id"
    processActionID := ← text "process_action_id"
    stateReasonCode := ← text "state_reason_code" }

def sampleCodec : Codec where
  event := decodeSampleEvent
  observation _ := some none
  envelope _ body := some (body.length + 100)

def appliedBody : Json.Bytes := Json.ascii
  r#"{"type":"process_action_applied","process_id":"proc","process_action_id":"act"}"#

def unknownBody : Json.Bytes := Json.ascii
  r#"{"type":"process_action_unknown","process_id":"proc","process_action_id":"act",
    "state_reason_code":"action_outcome_unknown"}"#

def sampleSupervisor : Supervisor := ⟨"proc", "instance"⟩

def sampleAction : Action := { id := "act", processID := "proc", kind := .write, seq := 3 }

def sampleReport (body : Json.Bytes) : Report :=
  { processID := "proc", actionID := "act", kind := .actionTerminal, body }

/-- A process is spawned, and its action with sequence number 3 crosses its effect boundary and is
reported as applied. -/
def sampleRun : List Op :=
  [.reserveProcess
      { processID := "proc", supervisorInstanceID := "instance", supervisorToken := "token" },
    .markPrepared sampleSupervisor, .markAccepted sampleSupervisor,
    .authorizeSpawnOnce sampleSupervisor, .recordSpawned sampleSupervisor "cgroup" "1",
    .applyOnce sampleSupervisor sampleAction,
    .freezeActionReport sampleSupervisor "act" (sampleReport appliedBody) "rpt_1"]

def sampleHistory (ops : List Op) : Except Error History :=
  History.commitAll sampleCodec ops ⟨.empty, []⟩

theorem reachable_of_sampleHistory {ops : List Op} {h : History} (hrun : sampleHistory ops = .ok h) :
    h.Reachable sampleCodec :=
  History.Reachable.commitAll (.start rfl) hrun

end StateDb
