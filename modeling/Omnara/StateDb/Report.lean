import Omnara.StateDb.Schema

/-!
# The evidence a report carries (`internal/machinedaemon/statedb/report.go`)

`validateReport` and `validateReportWireEnvelope`. How `encoding/json` reads a body is the parameter
`codec`; the fields of `daemonprotocol.ReportedEvent` that only travel in the body are left out.
-/

namespace StateDb

open Json (Bytes ascii)
open Fallible (ensure)

/-- An instant, in nanoseconds from the zero `time.Time`. -/
abbrev Time := Int

def Time.isZero (t : Time) : Bool := t = 0

inductive ReportedEventType
  | processStarted
  | processFinished
  | processActionApplied
  | processActionFailed
  | processActionUnknown
  | other (text : String)
  deriving DecidableEq

inductive ProcessState
  | queued
  | starting
  | running
  | exited
  | failed
  | killed
  | unknown
  | other (text : String)
  deriving DecidableEq

structure ReportedEvent where
  type : ReportedEventType
  processID : String
  processActionID : String := ""
  state : ProcessState := .other ""
  stateReasonCode : String := ""
  stateReasonMessage : String := ""
  result : Bytes := []
  startedAt : Time := 0
  endedAt : Time := 0
  observedAt : Time := 0
  deriving DecidableEq

/-- What `encoding/json` does with the bodies of reports. -/
structure Codec where
  /-- a body decoded into a `ReportedEvent` -/
  event : Bytes → Option ReportedEvent
  /-- a result decoded into a `frozenObservation`: its output, when it has one -/
  observation : Bytes → Option (Option Bytes)
  /-- the length of the `Message` that delivers the body under a report id -/
  envelope : String → Bytes → Option Nat

/-- `daemonprotocol.MaxMessageBytes`, also `maxFrozenReportBytes`. -/
def maxMessageBytes : Nat := 1048576

def maxObservationBytes : Nat := 64 * 1024

def validProcessTerminalSourceTimes (state : ProcessState) (startedAt endedAt : Time) : Bool :=
  if !startedAt.isZero && !endedAt.isZero && startedAt > endedAt then false
  else match state with
    | .exited | .killed => !endedAt.isZero
    | .failed => startedAt.isZero || !endedAt.isZero
    | .unknown => true
    | _ => false

def validTerminalActionEvent : ReportedEventType → Bool
  | .processActionApplied | .processActionFailed | .processActionUnknown => true
  | _ => false

variable (codec : Codec)

/-- The part of `validateReport` about the kind of the report. -/
def validateEvent (kind : ReportKind) (event : ReportedEvent) : Except Error Unit :=
  match kind with
  | .processStarted =>
    ensure (event.type = .processStarted ∧ !event.startedAt.isZero ∧ !event.observedAt.isZero ∧
        event.startedAt ≤ event.observedAt)
      (.invalid "process-started report requires ordered started_at and observed_at")
  | .processTerminal => do
    ensure (event.type = .processFinished ∧ event.observedAt.isZero ∧
        validProcessTerminalSourceTimes event.state event.startedAt event.endedAt)
      (.invalid "process-terminal report has invalid terminal source evidence")
    ensure (event.state = .failed ∨ event.state = .unknown → event.stateReasonCode ≠ "")
      (.invalid "failed or unknown process report requires a reason")
  | .actionTerminal => do
    ensure (validTerminalActionEvent event.type ∧ event.observedAt.isZero)
      (.invalid "action-terminal report requires a terminal event")
    ensure (event.type ≠ .processActionApplied → event.stateReasonCode ≠ "")
      (.invalid "non-applied action report requires a reason")

/-- The part of `validateReport` about the observation in the result. -/
def validateResult (result : Bytes) : Except Error Unit :=
  if result.length = 0 ∨ result = ascii "null" then .ok ()
  else match codec.observation result with
    | none => .error (.invalid "decode frozen report result")
    | some none => .ok ()
    | some (some output) =>
      ensure (output.length ≤ maxObservationBytes) (.invalid
        s!"frozen process output is {output.length} bytes; maximum is {maxObservationBytes}")

def validateReport (report : Report) : Except Error Unit := do
  ensure (report.processID ≠ "" ∧ report.body.length ≠ 0)
    (.invalid "report process, kind, and body are required")
  ensure (report.body.length ≤ maxMessageBytes)
    (.invalid s!"frozen report is {report.body.length} bytes; maximum is {maxMessageBytes}")
  if report.kind = .actionTerminal then
    ensure (report.actionID ≠ "") (.invalid "action-terminal report requires an action")
  else
    ensure (report.actionID = "") (.invalid "process report cannot name an action")
  match codec.event report.body with
  | none => .error (.invalid "decode frozen report body")
  | some event =>
    ensure (event.processID = report.processID ∧ event.processActionID = report.actionID)
      (.invalid "frozen report body identity does not match its slot")
    validateEvent report.kind event
    validateResult codec event.result

def validateReportWireEnvelope (report : Report) : Except Error Unit :=
  match codec.event report.body, codec.envelope report.id report.body with
  | none, _ => .error (.invalid "decode frozen report for wire validation")
  | some _, none => .error (.invalid "encode frozen report for wire validation")
  | some _, some bytes =>
    ensure (bytes ≤ maxMessageBytes)
      (.invalid s!"frozen report envelope is {bytes} bytes; maximum is {maxMessageBytes}")

def sameReportContent (left right : Report) : Bool :=
  left.processID = right.processID && left.actionID = right.actionID && left.kind = right.kind &&
    left.body = right.body

/-- `freezeReportTx`: the report in the slot when it has the same content, else a new row.
`newReportID` is the id `newReportID()` returns in this call. -/
def Db.freezeReportTx (db : Db) (newReportID : String) (report : Report) :
    Except Error (Db × Report) := do
  validateReport codec report
  match db.reportBySlotTx report.kind report.processID report.actionID with
  | some existing =>
    ensure (sameReportContent existing report) (.stateConflict
      s!"report slot {report.processID}/{report.actionID} already contains different evidence")
    return (db, existing)
  | none =>
    ensure (report.id = "" ∧ report.state = .unset ∧ report.errorCode = "" ∧ report.error = "")
      (.invalid "a new frozen report cannot supply local persistence state")
    let report := { report with id := newReportID, state := .pending }
    match validateReportWireEnvelope codec report with
    | .error _ => .error (.stateConflict "frozen report is not deliverable")
    | .ok () =>
      let db ← db.insertFrozenReport "freeze canonical daemon report" report
      return (db, report)

end StateDb
