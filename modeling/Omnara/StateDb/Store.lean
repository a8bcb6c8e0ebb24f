import Omnara.StateDb.Report

/-!
# The transactions of the state database (`internal/machinedaemon/statedb`)

Each operation of `Store` and `Supervisor` that writes is one function: it returns the database the
transaction commits with its result, or the error after which the database is as it was. An operation
that both types have (`Store.FreezeRecoveredActionReport` and `Supervisor.FreezeActionReport`) is one
function of a process id and a supervisor instance id, the `Supervisor`.
-/

namespace StateDb

open Fallible (ensure)

structure Supervisor where
  processID : String
  supervisorInstanceID : String
  deriving DecidableEq

inductive ApplyDecision
  | execute
  | alreadyReported (report : Report)
  | outcomeUnknown
  | alreadyResolved
  | blocked
  | admissionClosed
  deriving DecidableEq

inductive NoEffectDecision
  | recorded (report : Report)
  | alreadyReported (report : Report)
  | lostToApply
  | alreadyResolved
  | blocked
  | admissionClosed
  deriving DecidableEq

/-- Actions of the process may cross their effect boundary (the condition of `ApplyOnce`). -/
def Process.admits (process : Process) : Bool :=
  !process.localClosed && !process.actionAdmissionClosed && process.phase = .accepted &&
    process.execCommitted && process.containmentKind ≠ ""

namespace Db

variable (codec : Codec) (db : Db)

/-! ## Processes (`process.go`) -/

def reserveProcess (process : Process) : Except Error Db := do
  ensure (process.processID ≠ "" ∧ process.supervisorInstanceID ≠ "" ∧ process.supervisorToken ≠ "")
    (.invalid "process, supervisor instance ID, and supervisor token are required")
  match db.processTx process.processID with
  | some identity =>
    ensure (identity.supervisorInstanceID = process.supervisorInstanceID ∧
        identity.supervisorToken = process.supervisorToken)
      (.processExists process.processID)
    return db
  | none =>
    db.insertProcess "reserve process state"
      { processID := process.processID
        supervisorInstanceID := process.supervisorInstanceID
        supervisorToken := process.supervisorToken }

def updateProcess (operation : String) (supervisor : Supervisor) (cond : Process → Bool)
    (set : Process → Process) : Except Error Db := do
  let (db, count) ← db.updateProcesses operation supervisor.processID
    (fun p => p.supervisorInstanceID = supervisor.supervisorInstanceID && cond p) set
  ensure (count = 1) (.stateConflict
    s!"{operation} affected {count} process rows for {supervisor.processID}")
  return db

def markPrepared (supervisor : Supervisor) : Except Error Db :=
  db.updateProcess "mark process prepared" supervisor
    (fun p => (p.phase = .preparing || p.phase = .prepared) && !p.localClosed)
    fun p => { p with phase := .prepared }

def markAccepted (supervisor : Supervisor) : Except Error Db :=
  db.updateProcess "mark process accepted" supervisor
    (fun p => (p.phase = .prepared || p.phase = .accepted) && !p.localClosed && !p.serverReleased)
    fun p => { p with phase := .accepted }

/-- The process of a supervisor (`ErrSupervisorIdentityMismatch` when there is none). -/
def supervised (supervisor : Supervisor) : Except Error Process :=
  match db.processTx supervisor.processID with
  | some process =>
    if process.supervisorInstanceID = supervisor.supervisorInstanceID then .ok process
    else .error (.supervisorIdentityMismatch supervisor.processID)
  | none => .error (.supervisorIdentityMismatch supervisor.processID)

def deleteProcessAfterArtifacts (supervisor : Supervisor) (accepted : Bool) : Except Error Db :=
  match db.processTx supervisor.processID with
  | none => .ok db
  | some process => do
    ensure (process.supervisorInstanceID = supervisor.supervisorInstanceID)
      (.supervisorIdentityMismatch supervisor.processID)
    ensure (if accepted then process.phase = .accepted ∨ process.phase = .terminal
        else process.phase = .preparing ∨ process.phase = .prepared)
      (.stateConflict s!"process {supervisor.processID} cannot be deleted")
    ensure (accepted ∨ !process.execCommitted) (.stateConflict
      s!"ungranted process {supervisor.processID} crossed the execution boundary")
    return db.deleteProcess supervisor.processID supervisor.supervisorInstanceID

def deleteRejectedPreparationAfterArtifacts (supervisor : Supervisor) : Except Error Db :=
  db.deleteProcessAfterArtifacts supervisor false

def deleteStorageExhaustedAfterArtifacts (supervisor : Supervisor) : Except Error Db :=
  db.deleteProcessAfterArtifacts supervisor true

def authorizeSpawnOnce (supervisor : Supervisor) : Except Error (Db × Bool) := do
  let (db, count) ← db.updateProcesses "commit process execution boundary" supervisor.processID
    (fun p => p.supervisorInstanceID = supervisor.supervisorInstanceID && p.phase = .accepted &&
      !p.execCommitted && !p.localClosed)
    fun p => { p with execCommitted := true }
  if count = 1 then return (db, true)
  else
    let process ← db.supervised supervisor
    ensure (process.execCommitted ∧ (process.phase = .accepted ∨ process.phase = .terminal))
      (.stateConflict s!"process {supervisor.processID} cannot cross the execution boundary")
    return (db, false)

def recordSpawned (supervisor : Supervisor) (containmentKind containmentID : String) :
    Except Error Db := do
  ensure (containmentKind ≠ "" ∧ containmentID ≠ "")
    (.invalid "spawned process containment identity is required")
  db.updateProcess "record spawned process" supervisor
    (fun p => (p.phase = .accepted || p.phase = .terminal) && p.execCommitted && !p.localClosed &&
      (p.containmentKind = "" || p.containmentKind = containmentKind) &&
      (p.containmentID = "" || p.containmentID = containmentID))
    fun p => { p with containmentKind := containmentKind, containmentID := containmentID }

def closeActionAdmission (supervisor : Supervisor) : Except Error Db :=
  db.updateProcess "close process action admission" supervisor
    (fun p => p.phase = .accepted || p.phase = .terminal)
    fun p => { p with actionAdmissionClosed := true }

def markContainmentEmpty (supervisor : Supervisor) : Except Error Db :=
  db.updateProcess "mark process containment empty" supervisor
    (fun p => p.phase = .accepted || p.phase = .terminal)
    fun p => { p with containmentEmpty := true }

def markServerReleased (supervisor : Supervisor) : Except Error Db :=
  db.updateProcess "mark process server released" supervisor (fun _ => true)
    fun p => { p with serverReleased := true }

def markLocalClosed (supervisor : Supervisor) : Except Error Db := do
  let process ← db.supervised supervisor
  if process.localClosed then return db
  else
    ensure (process.phase = .terminal ∧ process.actionAdmissionClosed ∧ process.containmentEmpty)
      (.closureBlocked s!"process {supervisor.processID}")
    ensure (db.countTerminalProcessReports supervisor.processID = 1)
      (.closureBlocked s!"process {supervisor.processID} has no frozen terminal evidence")
    ensure (db.countUnresolvedProcessActions supervisor.processID = 0)
      (.closureBlocked s!"process {supervisor.processID} has actions without frozen results")
    let (db, _) ← db.updateProcesses "close local process state" supervisor.processID
      (fun p => p.supervisorInstanceID = supervisor.supervisorInstanceID)
      fun p => { p with localClosed := true }
    return db

def deleteClosedAfterArtifacts (supervisor : Supervisor) : Except Error Db :=
  match db.processTx supervisor.processID with
  | none => .ok db
  | some process => do
    ensure (process.supervisorInstanceID = supervisor.supervisorInstanceID)
      (.supervisorIdentityMismatch supervisor.processID)
    ensure (process.localClosed ∧ process.serverReleased)
      (.closureBlocked s!"process {supervisor.processID}")
    ensure (db.countProcessActions supervisor.processID = 0)
      (.closureBlocked s!"process {supervisor.processID} retains action rows")
    ensure (db.countUnsettledProcessReports supervisor.processID = 0)
      (.closureBlocked s!"process {supervisor.processID} retains unsettled reports")
    return db.deleteProcess supervisor.processID supervisor.supervisorInstanceID

/-! ## Actions (`action.go`) -/

def validateAction (action : Action) (processID : String) : Except Error Unit :=
  ensure (action.id ≠ "" ∧ action.processID = processID ∧ 0 < action.seq)
    (.invalid "complete action identity is required")

def validateActionReportInput (report : Report) (processID actionID : String) : Except Error Unit :=
  ensure (report.processID = processID ∧ report.actionID = actionID ∧ report.kind = .actionTerminal)
    (.invalid "invalid action-terminal report")

def sameActionIdentity (left right : Action) : Bool :=
  left.id = right.id && left.processID = right.processID && left.kind = right.kind &&
    left.seq = right.seq

/-- `loadActionTransitionTx`: the process, and the row of the action if it has one. -/
def loadActionTransitionTx (supervisor : Supervisor) (action : Action) :
    Except Error (Process × Option Action) := do
  let process ← db.supervised supervisor
  let existing := db.actionTx action.id
  ensure (existing.all (sameActionIdentity · action))
    (.stateConflict s!"action {action.id} identity changed")
  return (process, existing)

def ensureActionSequenceUnused (processID : String) (seq : Int) : Except Error Unit :=
  ensure ((db.processActionIDBySequence processID seq).isNone)
    (.stateConflict s!"process {processID} sequence {seq} already belongs to an action")

/-- `compactMissingActionPrefixTx`: with the process as it is afterwards. -/
def compactMissingActionPrefixTx (process : Process) (nextSeq : Int) :
    Except Error (Db × Process) := do
  if nextSeq ≤ process.resolvedActionSeq + 1 then return (db, process)
  else
    ensure (db.countProcessActionsBetween process.processID process.resolvedActionSeq nextSeq = 0)
      (.actionBlocked "process action is blocked by an earlier sequence")
    let (db, _) ← db.updateProcesses "compact missing process action prefix" process.processID
      (fun p => p.supervisorInstanceID = process.supervisorInstanceID &&
        p.resolvedActionSeq = process.resolvedActionSeq)
      fun p => { p with resolvedActionSeq := nextSeq - 1 }
    return (db, { process with resolvedActionSeq := nextSeq - 1 })

def applyOnce (supervisor : Supervisor) (action : Action) : Except Error (Db × ApplyDecision) := do
  validateAction action supervisor.processID
  let (process, existing) ← db.loadActionTransitionTx supervisor action
  match existing with
  | some row =>
    match db.reportByActionTx action.id with
    | some report => return (db, .alreadyReported report)
    | none =>
      ensure row.effectCommitted
        (.stateConflict s!"action {action.id} has no effect or terminal evidence")
      return (db, .outcomeUnknown)
  | none =>
    if action.seq ≤ process.resolvedActionSeq then return (db, .alreadyResolved)
    else match db.compactMissingActionPrefixTx process action.seq with
      | .error (.actionBlocked _) => return (db, .blocked)
      | .error err => .error err
      | .ok (db, process) =>
        if action.seq ≠ process.resolvedActionSeq + 1 then return (db, .blocked)
        else if !process.admits then return (db, .admissionClosed)
        else
          db.ensureActionSequenceUnused action.processID action.seq
          let db ← db.insertProcessAction "commit process action effect boundary"
            { action with effectCommitted := true }
          return (db, .execute)

def recordActionWithoutEffect (supervisor : Supervisor) (action : Action) (report : Report)
    (newReportID : String) : Except Error (Db × NoEffectDecision) := do
  validateAction action supervisor.processID
  validateActionReportInput report supervisor.processID action.id
  let (process, existing) ← db.loadActionTransitionTx supervisor action
  match existing with
  | some row =>
    match db.reportByActionTx action.id with
    | some report => return (db, .alreadyReported report)
    | none =>
      ensure row.effectCommitted
        (.stateConflict s!"action {action.id} has no effect or terminal evidence")
      return (db, .lostToApply)
  | none =>
    if action.seq ≤ process.resolvedActionSeq then return (db, .alreadyResolved)
    else match db.compactMissingActionPrefixTx process action.seq with
      | .error (.actionBlocked _) => return (db, .blocked)
      | .error err => .error err
      | .ok (db, process) =>
        if action.seq ≠ process.resolvedActionSeq + 1 then return (db, .blocked)
        else if process.localClosed || process.phase ≠ .accepted && process.phase ≠ .terminal then
          return (db, .admissionClosed)
        else
          db.ensureActionSequenceUnused action.processID action.seq
          let db ← db.insertProcessAction "record process action without effect"
            { action with effectCommitted := false }
          let (db, frozen) ← db.freezeReportTx codec newReportID report
          return (db, .recorded frozen)

def freezeActionReport (supervisor : Supervisor) (actionID : String) (report : Report)
    (newReportID : String) : Except Error (Db × Report) := do
  validateActionReportInput report supervisor.processID actionID
  let _ ← db.supervised supervisor
  match db.actionTx actionID with
  | none => .error (.supervisorIdentityMismatch s!"action {actionID}")
  | some action =>
    ensure (action.processID = supervisor.processID)
      (.supervisorIdentityMismatch s!"action {actionID}")
    if action.effectCommitted then db.freezeReportTx codec newReportID report
    else match (db.reportByActionTx actionID).filter (sameReportContent · report) with
      | some existing => return (db, existing)
      | none => .error (.stateConflict s!"action {actionID} was resolved without an effect")

/-! ## Reports (`report.go`) -/

def freezeStartedReport (supervisor : Supervisor) (report : Report) (newReportID : String) :
    Except Error (Db × Report) := do
  ensure (report.kind = .processStarted ∧ report.processID = supervisor.processID ∧
      report.actionID = "")
    (.invalid "invalid process-started report")
  let process ← db.supervised supervisor
  ensure ((process.phase = .accepted ∨ process.phase = .terminal) ∧ process.execCommitted ∧
      process.containmentKind ≠ "")
    (.stateConflict s!"process {supervisor.processID} cannot freeze started evidence")
  db.freezeReportTx codec newReportID report

def freezeTerminalReport (supervisor : Supervisor) (report : Report) (newReportID : String) :
    Except Error (Db × Report) := do
  ensure (report.kind = .processTerminal ∧ report.processID = supervisor.processID ∧
      report.actionID = "")
    (.invalid "invalid process-terminal report")
  let process ← db.supervised supervisor
  ensure (process.phase = .accepted ∨ process.phase = .terminal)
    (.stateConflict s!"process {supervisor.processID} cannot freeze terminal evidence")
  let (db, frozen) ← db.freezeReportTx codec newReportID report
  let (db, _) ← db.updateProcesses "record terminal process state" supervisor.processID
    (fun p => p.supervisorInstanceID = supervisor.supervisorInstanceID)
    fun p => { p with phase := .terminal, actionAdmissionClosed := true }
  return (db, frozen)

/-- The case `ReportActionTerminal` of `AcknowledgeReport`. -/
def acknowledgeActionReport (report : Report) : Except Error Db := do
  ensure (report.state = .pending ∨ report.state = .rejected)
    (.stateConflict s!"action report {report.id}")
  match (db.actionTx report.actionID).filter (·.processID = report.processID) with
  | none => .error (.stateConflict s!"action report {report.id} has no action")
  | some action =>
    match db.processTx report.processID with
    | none => .error (.stateConflict s!"action report {report.id} has no supervisor instance ID")
    | some process =>
      ensure (action.seq = process.resolvedActionSeq + 1)
        (.actionBlocked s!"action {action.id} sequence {action.seq} follows local frontier")
      let (db, _) ← db.updateProcesses "advance resolved process action sequence" action.processID
        (fun _ => true) fun p => { p with resolvedActionSeq := action.seq }
      return db.deleteProcessAction action.id action.processID

/-- The state of a process report that is acknowledged. -/
def acknowledgeProcessReport (report : Report) : Except Error Db :=
  if report.state = .pending ∨ report.state = .rejected then
    db.updateReport "acknowledge process report" report.id
      (fun r => r.state = .pending || r.state = .rejected)
      fun r => { r with state := .acknowledged, errorCode := "", error := "" }
  else if report.state = .acknowledged then .ok db
  else .error (.stateConflict s!"process report {report.id}")

/-- `MarkTerminalProcessServerReleased`, after the terminal report is acknowledged. -/
def releaseTerminalProcess (report : Report) : Except Error Db :=
  if report.kind = .processTerminal then
    (db.updateProcesses "mark terminal process server released" report.processID (fun _ => true)
      fun p => { p with serverReleased := true }).map Prod.fst
  else .ok db

def acknowledgeReport (reportID : String) : Except Error Db :=
  match db.reports.get reportID with
  | none => .error (.stateConflict s!"report {reportID}")
  | some report =>
    if report.kind = .actionTerminal then db.acknowledgeActionReport report
    else do
      let db ← db.acknowledgeProcessReport report
      db.releaseTerminalProcess report

/-- The rest of `releaseAction` once no earlier action is outstanding: the row of the action goes, unless
it has frozen evidence, and the frontier moves to its sequence number. -/
def releaseFrontier (supervisor : Supervisor) (actionID : String) (seq : Int) (recorded : Bool) :
    Except Error Db := do
  ensure (recorded → (db.reportByActionTx actionID).isNone)
    (.stateConflict s!"action {actionID} has frozen evidence awaiting acknowledgement")
  let db := if recorded then db.deleteProcessAction actionID supervisor.processID else db
  let (db, _) ← db.updateProcesses "advance released process action sequence"
    supervisor.processID (fun p => p.supervisorInstanceID = supervisor.supervisorInstanceID)
    fun p => { p with resolvedActionSeq := seq }
  return db

/-- `releaseAction`. -/
def releaseActionTx (supervisor : Supervisor) (actionID : String) (seq : Int)
    (requireAbsent : Bool) : Except Error Db := do
  ensure (supervisor.processID ≠ "" ∧ supervisor.supervisorInstanceID ≠ "" ∧ actionID ≠ "" ∧ 0 < seq)
    (.invalid "complete process action release identity is required")
  let process ← db.supervised supervisor
  let action := db.actionTx actionID
  ensure (action.all fun a => a.processID = supervisor.processID && a.seq = seq)
    (.stateConflict s!"action {actionID} release identity changed")
  ensure (requireAbsent → action.isNone)
    (.stateConflict s!"action {actionID} unexpectedly remains recorded locally")
  if action.isNone then db.ensureActionSequenceUnused supervisor.processID seq
  if seq ≤ process.resolvedActionSeq then
    ensure action.isNone (.stateConflict s!"resolved action {actionID} remains recorded locally")
    return db
  else match db.compactMissingActionPrefixTx process seq with
    | .error (.actionBlocked detail) =>
      ensure action.isNone (.actionBlocked detail)
      return db
    | .error err => .error err
    | .ok (db, process) =>
      ensure (seq = process.resolvedActionSeq + 1)
        (.actionBlocked s!"action {actionID} sequence {seq} follows local frontier")
      db.releaseFrontier supervisor actionID seq action.isSome

def releaseAction (supervisor : Supervisor) (actionID : String) (seq : Int) : Except Error Db :=
  db.releaseActionTx supervisor actionID seq false

def resolveAbsentAction (supervisor : Supervisor) (actionID : String) (seq : Int) :
    Except Error Db :=
  db.releaseActionTx supervisor actionID seq true

def rejectReport (reportID code message : String) : Except Error Db := do
  ensure (reportID ≠ "" ∧ code ≠ "") (.invalid "report and rejection code are required")
  match db.reports.get reportID with
  | none => .error (.stateConflict s!"report {reportID}")
  | some report =>
    if report.state = .rejected then
      ensure (report.errorCode = code ∧ report.error = message)
        (.stateConflict s!"report {reportID} rejection changed")
      return db
    else
      ensure (report.state = .pending)
        (.stateConflict s!"acknowledged report {reportID} cannot be rejected")
      db.updateReport "retain rejected daemon report" reportID (fun r => r.state = .pending)
        fun r => { r with state := .rejected, errorCode := code, error := message }

end Db

end StateDb
