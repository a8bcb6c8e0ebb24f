import Omnara.Lib.Fallible
import Omnara.Lib.Json
import Omnara.Lib.Table

/-!
# The tables of the daemon's state database (`internal/machinedaemon/statedb/migrations`)

The rows of `processes`, `process_actions` and `frozen_reports`, the statements of `queries/` that
the transactions are made of, and what SQLite enforces at each statement: the CHECK constraints of a
row that is written, primary keys, UNIQUE indexes and foreign keys, and the cascade of a deletion.

A report without an action has the action id `""`; in the table that is NULL, which equals nothing
(`Report.ofAction`). The columns with a fixed set of values are enumerations, so a CHECK on such a set
holds by typing. Sequence numbers are `int64` in the source: `seq` is compared with
`resolved_action_seq + 1` only after `resolved_action_seq < seq`, so the sum does not overflow.
-/

namespace StateDb

open Json (Bytes)

/-! ## Rows -/

inductive ProcessPhase
  | preparing
  | prepared
  | accepted
  | terminal
  deriving DecidableEq

structure Process where
  processID : String
  supervisorInstanceID : String
  supervisorToken : String
  phase : ProcessPhase := .preparing
  resolvedActionSeq : Int := 0
  execCommitted : Bool := false
  containmentKind : String := ""
  containmentID : String := ""
  containmentEmpty : Bool := false
  actionAdmissionClosed : Bool := false
  localClosed : Bool := false
  serverReleased : Bool := false
  deriving DecidableEq

/-- `daemonprotocol.ProcessActionKind`, the kinds that are recorded. -/
inductive ProcessActionKind
  | write
  | interrupt
  | terminate
  deriving DecidableEq

structure Action where
  id : String
  processID : String
  kind : ProcessActionKind
  seq : Int
  effectCommitted : Bool := false
  deriving DecidableEq

inductive ReportKind
  | processStarted
  | processTerminal
  | actionTerminal
  deriving DecidableEq

inductive ReportState
  /-- the empty text, of a report that is not in the table -/
  | unset
  | pending
  | acknowledged
  | rejected
  deriving DecidableEq

structure Report where
  id : String := ""
  processID : String
  actionID : String := ""
  kind : ReportKind
  body : Bytes
  state : ReportState := .unset
  errorCode : String := ""
  error : String := ""
  deriving DecidableEq

/-- The CHECK constraints of `processes`. -/
def Process.check (p : Process) : Bool :=
  p.processID ≠ "" && p.supervisorInstanceID ≠ "" && p.supervisorToken ≠ "" &&
    0 ≤ p.resolvedActionSeq &&
    (p.containmentKind = "" && p.containmentID = "" ||
      p.containmentKind ≠ "" && p.containmentID ≠ "") &&
    (p.containmentKind = "" || p.execCommitted) &&
    (p.phase = .accepted || p.phase = .terminal || !p.execCommitted) &&
    (p.phase ≠ .terminal || p.actionAdmissionClosed) &&
    (!p.localClosed || p.actionAdmissionClosed && p.containmentEmpty &&
      (!p.execCommitted || p.phase = .terminal))

/-- The CHECK constraints of `process_actions`. -/
def Action.check (a : Action) : Bool := a.id ≠ "" && 0 < a.seq

/-- The CHECK constraints of `frozen_reports`. -/
def Report.check (r : Report) : Bool :=
  r.id ≠ "" && r.processID ≠ "" && r.state ≠ .unset && r.body.length > 0 &&
    (r.kind = .actionTerminal && r.actionID ≠ "" || r.kind ≠ .actionTerminal && r.actionID = "") &&
    (r.state ≠ .acknowledged || r.actionID = "") &&
    (r.state = .rejected && r.errorCode ≠ "" ||
      r.state ≠ .rejected && r.errorCode = "" && r.error = "")

/-- The report is about the action (`action_id = $1`). -/
def Report.ofAction (r : Report) (actionID : String) : Bool :=
  r.actionID ≠ "" && r.actionID = actionID

structure Db where
  processes : Table Process.processID
  actions : Table Action.id
  reports : Table Report.id
  deriving DecidableEq

def Db.empty : Db := ⟨.empty, .empty, .empty⟩

inductive Error
  /-- an error that is none of the sentinels below -/
  | invalid (text : String)
  /-- `ErrProcessExists` -/
  | processExists (detail : String)
  /-- `ErrSupervisorIdentityMismatch` -/
  | supervisorIdentityMismatch (detail : String)
  /-- `ErrStateConflict` -/
  | stateConflict (detail : String)
  /-- `ErrActionBlocked` -/
  | actionBlocked (detail : String)
  /-- `ErrClosureBlocked` -/
  | closureBlocked (detail : String)
  /-- `dbError` of a statement that violates a constraint -/
  | constraint (operation : String)
  deriving DecidableEq

/-! ## Statements -/

namespace Db

variable (db : Db)

def processTx (processID : String) : Option Process := db.processes.get processID

def actionTx (actionID : String) : Option Action := db.actions.get actionID

def reportByActionTx (actionID : String) : Option Report :=
  db.reports.rows.find? (·.ofAction actionID)

def reportBySlotTx (kind : ReportKind) (processID actionID : String) : Option Report :=
  if actionID = "" then
    db.reports.rows.find? fun r => r.processID = processID && r.actionID = "" && r.kind = kind
  else
    db.reports.rows.find? fun r => r.processID = processID && r.ofAction actionID && r.kind = kind

def countProcessActionsBetween (processID : String) (afterSeq beforeSeq : Int) : Nat :=
  db.actions.rows.countP fun a => a.processID = processID && afterSeq < a.seq && a.seq < beforeSeq

def processActionIDBySequence (processID : String) (seq : Int) : Option String :=
  (db.actions.rows.find? fun a => a.processID = processID && a.seq = seq).map (·.id)

def countTerminalProcessReports (processID : String) : Nat :=
  db.reports.rows.countP fun r =>
    r.processID = processID && r.actionID = "" && r.kind = .processTerminal

def countUnresolvedProcessActions (processID : String) : Nat :=
  db.actions.rows.countP fun a =>
    a.processID = processID && !db.reports.rows.any (·.ofAction a.id)

def countProcessActions (processID : String) : Nat :=
  db.actions.rows.countP (·.processID = processID)

def countUnsettledProcessReports (processID : String) : Nat :=
  db.reports.rows.countP fun r => r.processID = processID && r.state ≠ .acknowledged

def setProcess (p : Process) : Db := { db with processes := db.processes.replace p }

def setReport (r : Report) : Db := { db with reports := db.reports.replace r }

/-- `UPDATE processes SET .. WHERE process_id = $1 AND ..`, with the number of rows it affects. -/
def updateProcesses (operation processID : String) (cond : Process → Bool)
    (set : Process → Process) : Except Error (Db × Nat) :=
  match db.processTx processID with
  | none => .ok (db, 0)
  | some p =>
    if !cond p then .ok (db, 0)
    else if (set p).check then .ok (db.setProcess (set p), 1)
    else .error (.constraint operation)

/-- `UPDATE frozen_reports SET .. WHERE report_id = $1 AND ..`. -/
def updateReport (operation reportID : String) (cond : Report → Bool) (set : Report → Report) :
    Except Error Db :=
  match db.reports.get reportID with
  | none => .ok db
  | some r =>
    if !cond r then .ok db
    else if (set r).check then .ok (db.setReport (set r))
    else .error (.constraint operation)

def insertProcess (operation : String) (p : Process) : Except Error Db :=
  match db.processes.insert p with
  | some processes => if p.check then .ok { db with processes } else .error (.constraint operation)
  | none => .error (.constraint operation)

def insertProcessAction (operation : String) (a : Action) : Except Error Db :=
  match db.actions.insert a with
  | some actions =>
    if a.check && (db.processActionIDBySequence a.processID a.seq).isNone &&
        (db.processTx a.processID).isSome then
      .ok { db with actions }
    else .error (.constraint operation)
  | none => .error (.constraint operation)

/-- The unique slot index the row falls under has a row for its slot. -/
def slotTaken (r : Report) : Bool :=
  db.reports.rows.any fun other =>
    if r.actionID = "" then
      other.actionID = "" && other.processID = r.processID && other.kind = r.kind
    else other.ofAction r.actionID

def insertFrozenReport (operation : String) (r : Report) : Except Error Db :=
  match db.reports.insert r with
  | some reports =>
    if r.check && !db.slotTaken r && (db.processTx r.processID).isSome &&
        (r.actionID = "" || (db.actionTx r.actionID).any (·.processID = r.processID)) then
      .ok { db with reports }
    else .error (.constraint operation)
  | none => .error (.constraint operation)

/-- `DeleteProcessAction`, with the cascade to the action's report. -/
def deleteProcessAction (actionID processID : String) : Db :=
  { db with
    actions := db.actions.deleteWhere fun a => a.id = actionID && a.processID = processID
    reports := db.reports.deleteWhere fun r =>
      r.processID = processID && r.ofAction actionID && (db.actionTx actionID).any fun a =>
        a.processID = processID }

/-- `DeleteProcess`, with the cascade to its actions and reports (the cascade from its actions deletes
some of the same reports again). -/
def deleteProcess (processID supervisorInstanceID : String) : Db :=
  if (db.processTx processID).any (·.supervisorInstanceID = supervisorInstanceID) then
    { processes := db.processes.deleteWhere (·.processID = processID)
      actions := db.actions.deleteWhere (·.processID = processID)
      reports := db.reports.deleteWhere (·.processID = processID) }
  else db

end Db

end StateDb
