import Omnara.Compaction.Planner
import Omnara.Lib.Paging

/-!
# Loading compaction events page by page

The kernel and the compaction runner read the event log of an agent in pages of 500
(`ListCompactionSourceEvents`). This file has the four readers and says what each of them computes
from the whole log: the paging never shows (`Paging.readPages_eq`).
-/

namespace Compaction

def pageLimit : Nat := 500

/-! ## The readers -/

/-- The loop body of `loadContextEventsForCompaction` and of `loadClosedEventRange`: collect the
events up to the watermark. -/
def collectUpTo (watermark : Int) (records : List SourceEvent) (e : SourceEvent) :
    Except (List SourceEvent) (List SourceEvent) :=
  if e.sequence > watermark then .error records else .ok (records ++ [e])

def loadContextEventsForCompaction (log : List SourceEvent) (afterSequence watermark : Int) :
    List SourceEvent :=
  Paging.value id
    (Paging.readPages (·.sequence) log pageLimit watermark (collectUpTo watermark) afterSequence [])

/-- The errors of `loadClosedEventRange`. -/
inductive RangeError
  | notClosed (start stop : Int)
  | missingSequence (sequence : Int)
  deriving DecidableEq

/-- The final check of `loadClosedEventRange`: the events carry consecutive sequences. -/
def checkConsecutive : Int → List SourceEvent → Except RangeError Unit
  | _, [] => .ok ()
  | want, e :: events =>
    if e.sequence ≠ want then .error (.missingSequence want) else checkConsecutive (want + 1) events

/-- `loadClosedEventRange`: exactly the events `start..stop`. -/
def loadClosedEventRange (log : List SourceEvent) (start stop : Int) :
    Except RangeError (List SourceEvent) :=
  let out := Paging.value id
    (Paging.readPages (·.sequence) log pageLimit stop (collectUpTo stop) (start - 1) [])
  if (out.length : Int) ≠ stop - start + 1 then .error (.notClosed start stop)
  else match checkConsecutive start out with
    | .error err => .error err
    | .ok () => .ok out

/-- The loop body of the runner's `openingEventsRequireVerbatimRetention`. -/
def lookForModelOutput (inputEventSequence : Int) (_ : Unit) (e : SourceEvent) : Except Bool Unit :=
  if e.sequence > inputEventSequence then .error true
  else if e.kind = .modelOutput then .error false
  else .ok ()

/-- The runner's `openingEventsRequireVerbatimRetention`: no model output answers the opening events
up to the input event. -/
def runnerOpeningRequiresVerbatimRetention (log : List SourceEvent)
    (openingEventSequence inputEventSequence : Int) : Bool :=
  Paging.value (fun _ => true)
    (Paging.readPages (·.sequence) log pageLimit inputEventSequence
      (lookForModelOutput inputEventSequence) openingEventSequence ())

/-- The loop body of `hasRemainingSemanticSource`. -/
def lookForSemanticSource (inputEventSequence : Int) (protectOpening : Bool)
    (openingEventSequence : Int) (_ : Unit) (e : SourceEvent) : Except Bool Unit :=
  if e.sequence > inputEventSequence then .error false
  else if protectOpening && e.sequence ≥ openingEventSequence then .ok ()
  else if compactionEventHasModelSemantics e then .error true
  else .ok ()

/-- `hasRemainingSemanticSource`: something the model can see is left after the plan's source. -/
def hasRemainingSemanticSource (log : List SourceEvent) (plan : Plan) (protectOpening : Bool)
    (openingEventSequence : Int) : Bool :=
  Paging.value (fun _ => false)
    (Paging.readPages (·.sequence) log pageLimit plan.inputEventSequence
      (lookForSemanticSource plan.inputEventSequence protectOpening openingEventSequence)
      plan.eventSequenceEnd ())

/-- The guard at the start of every run: an unanswered opening is never compacted
("compaction must retain unanswered opening events"). -/
def runnerRejectsOpening (log : List SourceEvent) (plan : Plan) (openingEventSequence : Int) :
    Bool :=
  runnerOpeningRequiresVerbatimRetention log openingEventSequence plan.inputEventSequence &&
    plan.eventSequenceEnd ≥ openingEventSequence

/-! ## What they compute -/

/-- The events of the log in `(after, upTo]`. -/
def eventsBetween (log : List SourceEvent) (after upTo : Int) : List SourceEvent :=
  log.filter fun e => after < e.sequence ∧ e.sequence ≤ upTo

theorem mem_eventsBetween {log : List SourceEvent} {after upTo : Int} {e : SourceEvent} :
    e ∈ eventsBetween log after upTo ↔ e ∈ log ∧ after < e.sequence ∧ e.sequence ≤ upTo := by
  simp [eventsBetween]

theorem StrictlyOrdered.eventsBetween {log : List SourceEvent} (h : StrictlyOrdered log)
    (after upTo : Int) : StrictlyOrdered (eventsBetween log after upTo) :=
  h.sublist List.filter_sublist

section
variable {log : List SourceEvent} (hlog : log.Pairwise fun a b => a.sequence < b.sequence)
include hlog

theorem readEvents_eq {β σ : Type} {bound : Int} {step : σ → SourceEvent → Except β σ}
    (out : σ → β) (hstop : ∀ s (e : SourceEvent), bound < e.sequence → step s e = .error (out s))
    (after : Int)
    (s : σ) :
    Paging.value out (Paging.readPages (·.sequence) log pageLimit bound step after s) =
      Paging.value out ((eventsBetween log after bound).foldlM step s) :=
  Paging.readPages_eq hstop hlog (by decide) after s

theorem collect_pages (after watermark : Int) :
    Paging.value id (Paging.readPages (·.sequence) log pageLimit watermark (collectUpTo watermark)
      after []) = eventsBetween log after watermark := by
  rw [readEvents_eq hlog id (fun s e he => by simp [collectUpTo, he]),
    Paging.foldlM_collect fun acc e he => by
      have := (mem_eventsBetween.mp he).2.2
      rw [collectUpTo, if_neg (by omega)]]
  rfl

theorem loadContextEvents_eq (after watermark : Int) :
    loadContextEventsForCompaction log after watermark = eventsBetween log after watermark :=
  collect_pages hlog after watermark

/-- A reader that stops with `found` at the first event it looks for tells whether there is one. -/
theorem look_pages {step : Unit → SourceEvent → Except Bool Unit} {p : SourceEvent → Bool}
    {bound : Int} (found : Bool)
    (hstep : ∀ e, step () e = if e.sequence > bound then .error !found
      else if p e then .error found else .ok ()) (after : Int) :
    Paging.value (fun _ => !found) (Paging.readPages (·.sequence) log pageLimit bound step after ()) =
      (found == (eventsBetween log after bound).any p) := by
  rw [readEvents_eq hlog (fun _ => !found) (fun _ e he => by rw [hstep, if_pos he]),
    Paging.foldlM_find (p := p) (b := found) fun e he => by
      rw [hstep, if_neg (by have := (mem_eventsBetween.mp he).2.2; omega)]]
  cases (eventsBetween log after bound).any p <;> cases found <;> rfl

theorem runnerOpeningRequires_eq (opening input : Int) :
    runnerOpeningRequiresVerbatimRetention log opening input =
      !(eventsBetween log opening input).any fun e => e.kind = .modelOutput := by
  rw [← Bool.false_beq]
  exact look_pages hlog false (fun e => by simp [lookForModelOutput]) opening

theorem hasRemainingSemanticSource_eq (plan : Plan) (protectOpening : Bool) (opening : Int) :
    hasRemainingSemanticSource log plan protectOpening opening =
      (eventsBetween log plan.eventSequenceEnd plan.inputEventSequence).any fun e =>
        !(protectOpening && e.sequence ≥ opening) && compactionEventHasModelSemantics e := by
  rw [← Bool.true_beq (List.any _ _)]
  refine look_pages hlog true (fun e => ?_) plan.eventSequenceEnd
  rw [lookForSemanticSource]
  cases protectOpening && decide (e.sequence ≥ opening) <;> simp

/-- The runner's paged scan sees exactly the model outputs between the opening and the input. -/
theorem runnerOpeningRequires_iff (opening input : Int) :
    runnerOpeningRequiresVerbatimRetention log opening input = true ↔
      ∀ e ∈ log, opening < e.sequence → e.sequence ≤ input → e.kind ≠ .modelOutput := by
  simp [runnerOpeningRequires_eq hlog, mem_eventsBetween]

/-- **Paging does not show.** On a log in order, each of the four readers returns what one pass over
the events of its range returns, after at most one page more than the log fills. -/
theorem readers_unpaged : (∀ after watermark, loadContextEventsForCompaction log after watermark =
      eventsBetween log after watermark) ∧
    (∀ start stop, loadClosedEventRange log start stop =
      if ((eventsBetween log (start - 1) stop).length : Int) ≠ stop - start + 1 then
        .error (.notClosed start stop)
      else (checkConsecutive start (eventsBetween log (start - 1) stop)).map
        fun _ => eventsBetween log (start - 1) stop) ∧
    (∀ opening input, runnerOpeningRequiresVerbatimRetention log opening input =
      !(eventsBetween log opening input).any fun e => e.kind = .modelOutput) ∧
    (∀ plan protectOpening opening, hasRemainingSemanticSource log plan protectOpening opening =
      (eventsBetween log plan.eventSequenceEnd plan.inputEventSequence).any fun e =>
        !(protectOpening && e.sequence ≥ opening) && compactionEventHasModelSemantics e) ∧
    ∀ {β σ : Type} (bound : Int) (step : σ → SourceEvent → Except β σ) (fuel : Nat) (after : Int)
      (s : σ), pageLimit * Paging.pageReads (·.sequence) log pageLimit bound step fuel after s ≤
        log.length + pageLimit := by
  refine ⟨loadContextEvents_eq hlog, fun start stop => ?_, runnerOpeningRequires_eq hlog,
    hasRemainingSemanticSource_eq hlog, fun bound step fuel after s => ?_⟩
  · unfold loadClosedEventRange
    rw [collect_pages hlog]
    dsimp only
    split
    · rfl
    · cases checkConsecutive start (eventsBetween log (start - 1) stop) <;> rfl
  · exact (Paging.pageReads_le hlog pageLimit bound step fuel after s).trans
      (Nat.add_le_add_right (List.length_filter_le _ _) _)

end

/-- Inputs, and an answer after them. -/
def answeredLog (inputs : Nat) : List SourceEvent :=
  (List.range (inputs + 1)).map fun (i : Nat) =>
    { sequence := i + 1, kind := if i = inputs then .modelOutput else .agentInput }

theorem answeredLog_ordered (inputs : Nat) :
    (answeredLog inputs).Pairwise fun x y => x.sequence < y.sequence := by
  rw [answeredLog, List.pairwise_map]
  exact List.pairwise_lt_range.imp fun h => by simpa using h

theorem mem_answeredLog (inputs : Nat) :
    { sequence := inputs + 1, kind := .modelOutput } ∈ answeredLog inputs :=
  List.mem_map.mpr ⟨inputs, by simp, by simp⟩

/-- The inputs fill a page, and the answer is on the next one. -/
theorem readers_unpaged_answered :
    runnerOpeningRequiresVerbatimRetention (answeredLog pageLimit) 0 (pageLimit + 1) = false := by
  rw [(readers_unpaged (answeredLog_ordered pageLimit)).2.2.1, Bool.not_eq_false', List.any_eq_true]
  exact ⟨_, mem_eventsBetween.mpr ⟨mem_answeredLog pageLimit, by decide, by decide⟩, rfl⟩

end Compaction
