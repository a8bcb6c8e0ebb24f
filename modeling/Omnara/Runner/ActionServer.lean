import Omnara.StateDb.System

/-!
# The action server of a process supervisor (`internal/machinedaemon/runner_server.go`)

`applyOnce` and what it calls, as steps that interleave: each goroutine of the server is a `Call` with a
phase, the map of calls in flight is the list of registered calls, and the effect-boundary lock is held
by the call in a phase that holds it. `Call.turn` is one turn of one call, `World.step` any move of the
whole system: a request, a turn, a crash of the supervisor, its restart, the recovery that the daemon
runs while no supervisor is alive, and any other operation on the state database. `log`, `effects` and
`responses` record what happened since the supervisor was first started.

How `encoding/json` reads payloads and writes reports, and how the process answers, are parameters. A
request of a kind that is none of `ProcessActionKind` is refused (`validRunnerActionKind`) and is no move.
-/

namespace Runner

open Json (Bytes)
open StateDb

structure ProcessAction where
  actionKind : ProcessActionKind
  seq : Int
  payload : Bytes
  id : String
  deriving DecidableEq

structure ProcessActionResult where
  eventType : ReportedEventType
  result : Bytes := []
  stateReasonCode : String := ""
  stateReasonMessage : String := ""
  deriving DecidableEq

inductive IOMode
  | pipe
  | pty
  deriving DecidableEq

structure WritePayload where
  closeStdin : Bool := false
  data : Bytes := []
  deriving DecidableEq

structure Config where
  processID : String
  supervisorInstanceID : String
  ioMode : IOMode
  codec : Codec
  /-- `json.Marshal` of a reported event -/
  marshal : ReportedEvent → Option Bytes
  /-- the type of an event survives the encoding -/
  marshal_type : ∀ event body, marshal event = some body →
    ∃ decoded, codec.event body = some decoded ∧ decoded.type = event.type
  /-- `decodeObject` into a `WritePayload` -/
  decodeWriteObject : Bytes → Except String WritePayload
  decodeEmptyPayload : Bytes → Except String Unit
  /-- the sequence number that the action has in its process -/
  seqOf : String → Int

inductive RunnerError
  | state (err : Error)
  /-- a write that failed or was not confirmed; `full` when the error is `ErrFull` -/
  | database (full : Bool)
  /-- `errRunnerStorageExhaustion` -/
  | storageExhaustion
  | marshal
  /-- `statedb.ErrActionBlocked` -/
  | actionBlocked
  /-- `statedb.ErrStateConflict` -/
  | stateConflict
  | invalidDecision
  deriving DecidableEq

/-- What the process answers while an action is applied to it; an error is its text. -/
structure Live where
  hasTerminalResult : Bool := false
  writeInput : Except String Unit := .ok ()
  closeInput : Except String Unit := .ok ()
  /-- with whether the error is `errInterruptUnsupported` -/
  interrupt : Except (Bool × String) Unit := .ok ()
  terminateForAction : Except String Unit := .ok ()

/-! ## Results of actions -/

def unknownActionResult (code message : String) : ProcessActionResult :=
  { eventType := .processActionUnknown, stateReasonCode := code, stateReasonMessage := message }

def failedActionResult (code message : String) : ProcessActionResult :=
  { eventType := .processActionFailed, stateReasonCode := code, stateReasonMessage := message }

def terminalProcessActionResult (action : ProcessAction) : ProcessActionResult :=
  if action.actionKind ≠ .terminate then
    failedActionResult "process_not_running" "the process is already terminal"
  else { eventType := .processActionApplied, stateReasonCode := "already_stopped" }

/-- The result of `ApplyOutcomeUnknown`. -/
def outcomeUnknownResult : ProcessActionResult :=
  unknownActionResult "action_outcome_unknown"
    "the action crossed its effect boundary without durable result evidence"

/-- The result of `NoEffectLostToApply`. -/
def lostToApplyResult : ProcessActionResult :=
  unknownActionResult "action_outcome_unknown"
    "the action crossed its effect boundary before the no-effect outcome was recorded"

def maxWriteBytes : Nat := 128 * 1024

namespace Config

variable (cfg : Config)

def supervisor : Supervisor := ⟨cfg.processID, cfg.supervisorInstanceID⟩

def localAction (action : ProcessAction) : Action :=
  { id := action.id, processID := cfg.processID, kind := action.actionKind, seq := action.seq }

def decodeWritePayload (payload : Bytes) : Except String WritePayload :=
  match cfg.decodeWriteObject payload with
  | .error err => .error err
  | .ok payload =>
    if payload.data = [] ∧ !payload.closeStdin then
      .error "write payload requires non-empty data or close_stdin=true"
    else if payload.data.length > maxWriteBytes then
      .error s!"write data cannot exceed {maxWriteBytes} bytes"
    else .ok payload

def preflightActionResult (action : ProcessAction) : Option ProcessActionResult :=
  match action.actionKind with
  | .write =>
    match cfg.decodeWritePayload action.payload with
    | .error err => some (failedActionResult "invalid_payload" err)
    | .ok payload =>
      if payload.closeStdin ∧ cfg.ioMode = .pty then
        some (failedActionResult "not_supported"
          "close_stdin is not supported for PTY-backed processes")
      else none
  | .interrupt | .terminate =>
    match cfg.decodeEmptyPayload action.payload with
    | .error err => some (failedActionResult "invalid_payload" err)
    | .ok () => none

/-- `applyLiveAction`; `none` when there is no live process runner. -/
def applyLiveAction (action : ProcessAction) : Option Live → ProcessActionResult
  | none => unknownActionResult "runner_unavailable" "the accepted action has no live process runner"
  | some live =>
    let applied : ProcessActionResult := { eventType := .processActionApplied }
    if live.hasTerminalResult then terminalProcessActionResult action
    else match action.actionKind with
      | .write =>
        match cfg.decodeWritePayload action.payload with
        | .error err => failedActionResult "invalid_payload" err
        | .ok payload =>
          match if payload.data ≠ [] then live.writeInput else .ok () with
          | .error err => unknownActionResult "stdin_write_unknown" err
          | .ok () =>
            match if payload.closeStdin then live.closeInput else .ok () with
            | .error err => unknownActionResult "stdin_close_unknown" err
            | .ok () => applied
      | .interrupt =>
        match live.interrupt with
        | .error (true, err) => failedActionResult "not_supported" err
        | .error (false, err) => unknownActionResult "interrupt_unknown" err
        | .ok () => applied
      | .terminate =>
        match live.terminateForAction with
        | .error err => unknownActionResult "terminate_unknown" err
        | .ok () => applied

/-- `actionReport`: the report of the action with the result, unless its event cannot be encoded. -/
def actionReport (actionID : String) (result : ProcessActionResult) : Option Report :=
  (cfg.marshal
    { type := result.eventType
      processID := cfg.processID
      processActionID := actionID
      stateReasonCode := result.stateReasonCode
      stateReasonMessage := result.stateReasonMessage
      result := result.result }).map fun body =>
    { processID := cfg.processID, actionID, kind := .actionTerminal, body }

def unknownActionRecoveryReport (actionID : String) : Option Report :=
  cfg.actionReport actionID (unknownActionResult "action_outcome_unknown"
    "the action crossed its effect boundary without recoverable result evidence")

end Config

/-! ## Calls -/

inductive Phase
  /-- registered, before `runApplyOnce` -/
  | begun
  /-- waiting for the lock, to call `ApplyOnce` -/
  | waiting
  /-- waiting for the lock, to record an action that fails its preflight -/
  | waitingNoEffect (report : Report)
  | applying
  /-- `ApplyOnce` returned `ApplyExecute`; `applyLiveAction` comes next, still under the lock -/
  | executing
  | recording (report : Report)
  | freezing (report : Report)
  /-- `call.err`, with the frozen report the outcome stands for -/
  | finished (result : Except RunnerError (Option Report))

def Phase.holdsBoundary : Phase → Bool
  | applying | executing | recording _ => true
  | _ => false

/-- `runnerActionCall`, with the callers that still wait for it and the goroutine that runs it. -/
structure Call where
  action : ProcessAction
  phase : Phase := .begun
  registered : Bool := true
  callers : Nat := 1

/-- The part of `actionCall` under the mutex. -/
def registerCall (action : ProcessAction) : List Call → Except String (List Call)
  | [] => .ok [{ action }]
  | call :: calls =>
    if call.registered ∧ call.action.id = action.id then
      if call.action.actionKind ≠ action.actionKind ∨ call.action.seq ≠ action.seq ∨
          call.action.payload ≠ action.payload then
        .error "process action identity changed"
      else .ok ({ call with callers := call.callers + 1 } :: calls)
    else (registerCall action calls).map (call :: ·)

def actionCall (action : ProcessAction) (calls : List Call) : Except String (List Call) :=
  if action.id = "" ∨ action.seq ≤ 0 then .error "valid process action identity is required"
  else registerCall action calls

namespace Config

variable (cfg : Config)

/-- `freezeActionResult`, up to the write. -/
def freezeActionResult (action : ProcessAction) (result : ProcessActionResult) : Phase :=
  match cfg.actionReport action.id result with
  | none => .finished (.error .marshal)
  | some report => .freezing report

/-- `runApplyOnce`, up to the lock. -/
def runApplyOnce (action : ProcessAction) : Phase :=
  match cfg.preflightActionResult action with
  | none => .waiting
  | some result =>
    match cfg.actionReport action.id result with
    | none => .finished (.error .marshal)
    | some report => .waitingNoEffect report

/-- `runApplyOnce` after `ApplyOnce`. -/
def afterApply (action : ProcessAction) : Except RunnerError Outcome → Phase
  | .error err => .finished (.error err)
  | .ok (.apply .execute) => .executing
  | .ok (.apply (.alreadyReported report)) => .finished (.ok (some report.asFrozen))
  | .ok (.apply .alreadyResolved) => .finished (.ok none)
  | .ok (.apply .outcomeUnknown) => cfg.freezeActionResult action outcomeUnknownResult
  | .ok (.apply .blocked) => .finished (.error .actionBlocked)
  | .ok (.apply .admissionClosed) =>
    match cfg.actionReport action.id (terminalProcessActionResult action) with
    | none => .finished (.error .marshal)
    | some report => .recording report
  | .ok _ => .finished (.error .invalidDecision)

def finishNoEffectDecision (action : ProcessAction) : Except RunnerError Outcome → Phase
  | .error err => .finished (.error err)
  | .ok (.noEffect (.recorded report)) => .finished (.ok (some report.asFrozen))
  | .ok (.noEffect (.alreadyReported report)) => .finished (.ok (some report.asFrozen))
  | .ok (.noEffect .alreadyResolved) => .finished (.ok none)
  | .ok (.noEffect .lostToApply) => cfg.freezeActionResult action lostToApplyResult
  | .ok (.noEffect .blocked) => .finished (.error .actionBlocked)
  | .ok (.noEffect .admissionClosed) => .finished (.error .stateConflict)
  | .ok _ => .finished (.error .invalidDecision)

end Config

/-- The errors after which `retrySupervisorStateWrite` does not try again. -/
def RunnerError.final : RunnerError → Bool
  | state (.stateConflict _) | state (.supervisorIdentityMismatch _) => true
  | database full => full
  | _ => false

/-- `retrySupervisorStateWrite` after one write of the report; `canceled` ends the wait for the next. -/
def retrySupervisorStateWrite (report : Report) (canceled : Bool) :
    Except RunnerError Outcome → Phase
  | .ok (.frozen report) => .finished (.ok (some report.asFrozen))
  | .ok _ => .finished (.error .invalidDecision)
  | .error err => if err.final ∨ canceled then .finished (.error err) else .freezing report

/-! ## The system -/

structure World where
  db : Db
  /-- what happened to the database, and the crashes of the supervisor -/
  log : List Event := []
  up : Bool := true
  storageExhaustionReady : Bool := false
  calls : List Call := []
  /-- the actions that `applyLiveAction` was called for -/
  effects : List String := []
  /-- what callers received, with the action id of their request -/
  responses : List (String × Except RunnerError (Option Report)) := []

inductive Reply
  | answered
  /-- the file failed or the context ended, and nothing was committed -/
  | failed (full : Bool)
  /-- committed, but the caller sees an error -/
  | unconfirmed
  deriving DecidableEq

variable (cfg : Config)

/-- One operation on the database, with what its caller sees. -/
def World.attempt (w : World) (op : Op) (reply : Reply) : World × Except RunnerError Outcome :=
  match op.run cfg.codec w.db, reply with
  | .error err, _ => ({ w with log := w.log ++ [.failed op] }, .error (.state err))
  | .ok _, .failed full => ({ w with log := w.log ++ [.failed op] }, .error (.database full))
  | .ok (db, out), .answered => ({ w with db, log := w.log ++ [.committed w.db op out] }, .ok out)
  | .ok (db, out), .unconfirmed =>
    ({ w with db, log := w.log ++ [.committed w.db op out] }, .error (.database false))

inductive Turn
  | preflight
  | lock
  | apply (reply : Reply)
  | effect (live : Option Live)
  | record (newReportID : String) (reply : Reply)
  | freeze (newReportID : String) (reply : Reply) (canceled : Bool)
  /-- `finishActionCall` -/
  | finish
  /-- a caller receives the outcome -/
  | respond
  /-- a caller leaves without one -/
  | leave

def World.boundaryHeld (w : World) : Bool := w.calls.any (·.phase.holdsBoundary)

/-- One turn of a call: what it does to the rest of the system, and the call after it. -/
def Call.turn (w : World) (call : Call) : Turn → Option (World × Call)
  | .preflight =>
    match call.phase with
    | .begun => some (w, { call with phase := cfg.runApplyOnce call.action })
    | _ => none
  | .lock =>
    if w.boundaryHeld then none
    else match call.phase with
      | .waiting =>
        if w.storageExhaustionReady then
          some (w, { call with phase := .finished (.error .storageExhaustion) })
        else some (w, { call with phase := .applying })
      | .waitingNoEffect report => some (w, { call with phase := .recording report })
      | _ => none
  | .apply reply =>
    match call.phase with
    | .applying =>
      let (w, result) := w.attempt cfg (.applyOnce cfg.supervisor (cfg.localAction call.action)) reply
      some (w, { call with phase := cfg.afterApply call.action result })
    | _ => none
  | .effect live =>
    match call.phase with
    | .executing =>
      some ({ w with effects := w.effects ++ [call.action.id] },
        { call with
          phase := cfg.freezeActionResult call.action (cfg.applyLiveAction call.action live) })
    | _ => none
  | .record newReportID reply =>
    match call.phase with
    | .recording report =>
      let (w, result) := w.attempt cfg (.recordActionWithoutEffect cfg.supervisor
        (cfg.localAction call.action) report newReportID) reply
      some (w, { call with phase := cfg.finishNoEffectDecision call.action result })
    | _ => none
  | .freeze newReportID reply canceled =>
    match call.phase with
    | .freezing report =>
      let (w, result) := w.attempt cfg
        (.freezeActionReport cfg.supervisor call.action.id report newReportID) reply
      some (w, { call with phase := retrySupervisorStateWrite report canceled result })
    | _ => none
  | .finish =>
    match call.phase with
    | .finished _ => some (w, { call with registered := false })
    | _ => none
  | .respond =>
    match call.phase, call.callers with
    | .finished result, callers + 1 =>
      some ({ w with responses := w.responses ++ [(call.action.id, result)] }, { call with callers })
    | _, _ => none
  | .leave =>
    match call.callers with
    | callers + 1 => some (w, { call with callers })
    | 0 => none

/-- The operations on actions, with the supervisor and the action they are about. -/
def target : Op → Option (Supervisor × String)
  | .applyOnce supervisor action => some (supervisor, action.id)
  | .recordActionWithoutEffect supervisor action _ _ => some (supervisor, action.id)
  | .freezeActionReport supervisor actionID _ _ => some (supervisor, actionID)
  | _ => none

inductive Move
  /-- a caller asks for the action -/
  | request (action : ProcessAction)
  | turn (call : Nat) (turn : Turn)
  /-- `markStorageExhaustionReady` -/
  | exhaustStorage
  | crash
  | restart
  /-- the daemon recovers the action, with the process lifetime lock -/
  | recover (actionID newReportID : String) (reply : Reply)
  /-- an operation on the database that is none of the above -/
  | other (op : Op) (reply : Reply)

def World.step (w : World) : Move → Option World
  | .request action =>
    -- the sequence number of an action is fixed; its kind and payload may differ from request to request
    if w.up ∧ action.seq = cfg.seqOf action.id then
      match actionCall action w.calls with
      | .ok calls => some { w with calls }
      | .error _ => some w
    else none
  | .turn i turn => do
    let call ← w.calls[i]?
    let (w', call') ← call.turn cfg w turn
    return { w' with calls := w.calls.set i call' }
  | .exhaustStorage =>
    if w.boundaryHeld then none else some { w with storageExhaustionReady := true }
  | .crash =>
    some { w with log := w.log ++ [.crash], up := false, storageExhaustionReady := false, calls := [] }
  | .restart => some { w with up := true }
  | .recover actionID newReportID reply =>
    if w.up then none
    else do
      let report ← cfg.unknownActionRecoveryReport actionID
      return (w.attempt cfg (.freezeActionReport cfg.supervisor actionID report newReportID) reply).1
  | .other op reply =>
    -- the actions of the process are the server's; and the process is not reserved a second time
    if (target op).any (·.1.processID = cfg.processID) ∨
        (Event.committed w.db op .done).reserves cfg.processID then none
    else some (w.attempt cfg op reply).1

/-- The supervisor starts: its process has no action yet. -/
def World.Start (w : World) : Prop :=
  Reachable cfg.codec w.db ∧ (∀ a ∈ w.db.actions, a.processID ≠ cfg.processID) ∧ w = { db := w.db }

def World.Reachable : World → Prop :=
  Reach.Reachable (World.Start cfg) fun w w' => ∃ move, w.step cfg move = some w'

def World.run (w : World) : List Move → Option World
  | [] => some w
  | move :: moves => (w.step cfg move).bind (World.run · moves)

theorem World.Reachable.run {moves : List Move} {w w' : World} (hw : World.Reachable cfg w)
    (h : w.run cfg moves = some w') : World.Reachable cfg w' := by
  induction moves generalizing w with
  | nil => exact Option.some.inj h ▸ hw
  | cons move moves ih =>
    obtain ⟨w₁, hstep, hrun⟩ := Option.bind_eq_some_iff.1 h
    exact ih (.next hw ⟨move, hstep⟩) hrun

/-- The ids of the actions of the process that `ApplyOnce` returned for execution. -/
def executedIDs (processID : String) (log : List Event) : List String :=
  (log.filterMap (·.executed processID)).map (·.id)

/-- The reports of actions of the process that were frozen, or found frozen. -/
def frozenReports (processID : String) (log : List Event) : List Report :=
  log.filterMap (·.evidence processID)

end Runner
