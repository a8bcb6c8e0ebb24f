import Mathlib.Data.List.Induction
import Omnara.Compaction.Proof.Shrink

/-!
# What the boundary window knows of the log behind it

The runner loads the events of the source range and, only if `compactionSourceNeedsLaterModelWitness`
asks for them, the events from there to the input event as a witness. Two questions are put to the
witness, and both are about the latest event of a turn (`latestSequence`).

* *Is an input of the range answered later?* An unanswered input is what makes the runner load the
  later events, and more events cannot take an answer away, so the window's safe ends are those of
  the full witness (`window_safeEnds`).
* *Is a model output the last event of its turn?* Nothing makes the runner load the later events for
  this question. Where they are left out, a turn that goes on past the range looks complete
  (`window_completeTurns_iff`).
-/

namespace Compaction

open List

/-! ## The latest sequence of an ordered log -/

section
variable {events events' : List SourceEvent} {p : SourceEvent → Bool} {s : Int}

theorem latestSequence_concat (p : SourceEvent → Bool) (events : List SourceEvent)
    (e : SourceEvent) : latestSequence p (events ++ [e]) =
      if p e then e.sequence else latestSequence p events := by
  simp [latestSequence]

theorem lt_latestSequence_iff (h : StrictlyOrdered events) (hs : 0 ≤ s) :
    s < latestSequence p events ↔ ∃ e ∈ events, p e = true ∧ s < e.sequence := by
  induction events using List.reverseRecOn with
  | nil => simpa [latestSequence] using hs
  | append_singleton events last ih =>
    have hbef : ∀ e ∈ events, e.sequence < last.sequence := fun e he =>
      (pairwise_append.mp h.pairwise).2.2 e he last (by simp)
    rw [latestSequence_concat]
    split
    · rename_i hlast
      refine ⟨fun hlt => ⟨last, by simp, hlast, hlt⟩, ?_⟩
      rintro ⟨e, he, -, hlt⟩
      rcases mem_append.mp he with he | he
      · exact Int.lt_trans hlt (hbef e he)
      · exact mem_singleton.mp he ▸ hlt
    · rename_i hlast
      rw [ih (h.sublist (sublist_append_left _ _))]
      constructor
      · rintro ⟨e, he, hp, hlt⟩
        exact ⟨e, mem_append_left _ he, hp, hlt⟩
      · rintro ⟨e, he, hp, hlt⟩
        rcases mem_append.mp he with he | he
        · exact ⟨e, he, hp, hlt⟩
        · exact absurd (mem_singleton.mp he ▸ hp) hlast

/-- Only the events above `s` decide whether the latest one is above `s`. -/
theorem lt_latestSequence_congr (h : StrictlyOrdered events) (h' : StrictlyOrdered events')
    (hs : 0 ≤ s) (hagr : ∀ e, s < e.sequence → (e ∈ events ↔ e ∈ events')) :
    s < latestSequence p events ↔ s < latestSequence p events' := by
  rw [lt_latestSequence_iff h hs, lt_latestSequence_iff h' hs]
  constructor
  · rintro ⟨e, he, hp, hlt⟩
    exact ⟨e, (hagr e hlt).mp he, hp, hlt⟩
  · rintro ⟨e, he, hp, hlt⟩
    exact ⟨e, (hagr e hlt).mpr he, hp, hlt⟩

theorem latestSequence_eq_iff (h : StrictlyOrdered events) {x : SourceEvent} (hx : x ∈ events)
    (hp : p x = true) : latestSequence p events = x.sequence ↔
      ∀ e ∈ events, p e = true → e.sequence ≤ x.sequence := by
  have hpos := h.pos hx
  have hge : x.sequence - 1 < latestSequence p events :=
    (lt_latestSequence_iff h (by omega)).mpr ⟨x, hx, hp, by omega⟩
  have hlater := lt_latestSequence_iff (p := p) (s := x.sequence) h (by omega)
  constructor
  · intro heq e he hpe
    by_contra hlt
    have := hlater.mpr ⟨e, he, hpe, by omega⟩
    omega
  · intro hall
    by_contra hne
    obtain ⟨e, he, hpe, hlt⟩ := hlater.mp (by omega)
    have := hall e he hpe
    omega

end

/-! ## Complete turns -/

/-- The events that belong to a turn as `completeTurnSourceEnds` counts them. -/
def ofTurn (turn : Uuid) (e : SourceEvent) : Bool := e.kind ≠ .contextCheckpoint && e.turnId = turn

variable {events : List SourceEvent} {x : SourceEvent}

theorem StrictlyOrdered.eq_of_sequence (h : StrictlyOrdered events)
    {y : SourceEvent} (hx : x ∈ events) (hy : y ∈ events) (hseq : x.sequence = y.sequence) :
    x = y :=
  inj_on_of_nodup_map (pairwise_map.mpr (h.pairwise.imp Int.ne_of_lt)) hx hy hseq

theorem eventBySequence_eq_some (h : StrictlyOrdered events) {s : Int} :
    eventBySequence events s = some x ↔ x ∈ events ∧ x.sequence = s := by
  have hmem : ∀ {y}, y ∈ events.filter (·.sequence = s) ↔ y ∈ events ∧ y.sequence = s := by
    simp
  constructor
  · exact fun hfound => hmem.mp (mem_of_getLast? hfound)
  · intro hx
    obtain ⟨y, hy⟩ : ∃ y, eventBySequence events s = some y :=
      Option.isSome_iff_exists.mp (List.getLast?_isSome.mpr (ne_nil_of_mem (hmem.mpr hx)))
    obtain ⟨hyl, hys⟩ := hmem.mp (mem_of_getLast? hy)
    rw [hy, h.eq_of_sequence hyl hx.1 (hys.trans hx.2.symm)]

/-- The ends `completeTurnSourceEnds` keeps: model outputs of a turn that are its last event in the
witness. -/
theorem mem_completeTurnSourceEnds {witness : List SourceEvent} {cands : List Int} {e : Int}
    (h : StrictlyOrdered events) (h' : StrictlyOrdered witness) (hsub : events ⊆ witness) :
    e ∈ completeTurnSourceEnds events witness cands ↔ e ∈ cands ∧
      ∃ x ∈ events, x.sequence = e ∧ x.kind = .modelOutput ∧ x.turnId ≠ Uuid.nil ∧
        ∀ y ∈ witness, ofTurn x.turnId y = true → y.sequence ≤ e := by
  rw [completeTurnSourceEnds, mem_filter]
  refine and_congr_right fun _ => ?_
  cases hx : eventBySequence events e with
  | none =>
    simp only [Bool.false_eq_true, false_iff]
    rintro ⟨x, hmem, hseq, -⟩
    rw [(eventBySequence_eq_some h).mpr ⟨hmem, hseq⟩] at hx
    cases hx
  | some x =>
    obtain ⟨hmem, rfl⟩ := (eventBySequence_eq_some h).mp hx
    have hlatest (hkind : x.kind = .modelOutput) :=
      latestSequence_eq_iff (p := ofTurn x.turnId) h' (hsub hmem) (by simp [ofTurn, hkind])
    simp only [Bool.and_eq_true, decide_eq_true_eq, and_assoc]
    constructor
    · rintro ⟨hkind, hturn, hlast⟩
      exact ⟨x, hmem, rfl, hkind, hturn, (hlatest hkind).mp hlast⟩
    · rintro ⟨y, hy, hseq, hkind, hturn, hlast⟩
      obtain rfl := h.eq_of_sequence hy hmem hseq
      exact ⟨hkind, hturn, (hlatest hkind).mpr hlast⟩

/-! ## Loading a closed range -/

/-- The log has an event at every sequence of `start..stop`. -/
def ClosedRange (log : List SourceEvent) (start stop : Int) : Prop :=
  ∀ s, start ≤ s → s ≤ stop → ∃ e ∈ log, e.sequence = s

theorem checkConsecutive_closed {stop : Int} : ∀ {events : List SourceEvent} {want : Int},
    events.Pairwise (fun a b => a.sequence < b.sequence) →
    (∀ e ∈ events, want ≤ e.sequence ∧ e.sequence ≤ stop) → ClosedRange events want stop →
    want ≤ stop + 1 →
      checkConsecutive want events = .ok () ∧ (events.length : Int) = stop - want + 1
  | [], want, _, _, hcl, hwant => by
    have hemp : ¬ want ≤ stop := fun hle => by
      obtain ⟨e, he, -⟩ := hcl want (Int.le_refl _) hle
      cases he
    exact ⟨rfl, by simp; omega⟩
  | e :: events, want, hord, hin, hcl, hwant => by
    obtain ⟨hlater, hord⟩ := pairwise_cons.mp hord
    obtain ⟨hlo, hhi⟩ := hin e mem_cons_self
    -- the event at `want` can only be the first one
    have hfst : e.sequence = want := by
      obtain ⟨x, hx, hseq⟩ := hcl want (Int.le_refl _) (by omega)
      rcases mem_cons.mp hx with rfl | hx
      · exact hseq
      · have := hlater x hx
        omega
    have hrest : ClosedRange events (want + 1) stop := by
      intro s h1 h2
      obtain ⟨x, hx, hseq⟩ := hcl s (by omega) h2
      rcases mem_cons.mp hx with rfl | hx
      · omega
      · exact ⟨x, hx, hseq⟩
    obtain ⟨hchk, hlen⟩ := checkConsecutive_closed hord (fun x hx => by
      have := hlater x hx
      have := hin x (mem_cons_of_mem _ hx)
      omega) hrest (by omega)
    refine ⟨?_, by rw [length_cons]; omega⟩
    rw [checkConsecutive, if_neg (not_not_intro hfst), hchk]

theorem loadClosedEventRange_closed {log : List SourceEvent} (hlog : StrictlyOrdered log)
    {start stop : Int} (hcl : ClosedRange log start stop) (hle : start ≤ stop + 1) :
    loadClosedEventRange log start stop = .ok (eventsBetween log (start - 1) stop) := by
  obtain ⟨hchk, hlen⟩ := checkConsecutive_closed (hlog.eventsBetween (start - 1) stop).pairwise
    (fun e he => by have := (mem_eventsBetween.mp he).2; omega)
    (fun s h1 h2 => by
      obtain ⟨e, he, rfl⟩ := hcl s h1 h2
      exact ⟨e, mem_eventsBetween.mpr ⟨he, by omega, h2⟩, rfl⟩) hle
  unfold loadClosedEventRange
  rw [collect_pages hlog.pairwise]
  rw [if_neg (not_not_intro hlen), hchk]

theorem window_loads {log : AgentLog} (hlog : StrictlyOrdered log.events) {plan : Plan}
    (hle : plan.eventSequenceStart ≤ plan.eventSequenceEnd + 1)
    (hplan : plan.eventSequenceEnd ≤ plan.inputEventSequence)
    (hcl : ClosedRange log.events plan.eventSequenceStart plan.inputEventSequence) :
    ∃ w, loadCompactionBoundaryWindow log plan = .ok w := by
  have hsrc := loadClosedEventRange_closed hlog
    (fun s h1 h2 => hcl s h1 (Int.le_trans h2 hplan)) hle
  have hwitness := loadClosedEventRange_closed hlog hcl (by omega)
  unfold loadCompactionBoundaryWindow
  rw [hsrc]
  dsimp only
  split
  · rw [hwitness]
    exact ⟨_, rfl⟩
  · exact ⟨_, rfl⟩

/-! ## Safe ends -/

/-- The witness decides about an end only where it is an input the model sees, by whether a later
model output answers it; the groups only by whether they are split there. -/
theorem isSafeEnd_congr {a b : List SourceEvent} {groups groups' : List AtomicGroup}
    (hanswer : x.kind = .agentInput → compactionEventHasModelSemantics x = true →
      (x.sequence < latestModelOutputByTurn a x.turnId ↔
        x.sequence < latestModelOutputByTurn b x.turnId))
    (hsplit : (∃ g ∈ groups, g.SplitBy x.sequence) ↔ ∃ g ∈ groups', g.SplitBy x.sequence) :
    isSafeEnd a groups x = isSafeEnd b groups' x := by
  rw [Bool.eq_iff_iff, isSafeEnd_iff, isSafeEnd_iff]
  refine and_congr_right fun hsem => and_congr ?_ ?_
  · unfold compactionEventEndsSettledStep
    cases hkind : x.kind with
    | agentInput => simpa using hanswer hkind hsem
    | modelOutput | toolResult | contextCheckpoint => exact Iff.rfl
  · have := not_congr hsplit
    push Not at this
    exact this

section
variable {log : AgentLog} (hlog : StrictlyOrdered log.events) {plan : Plan}
  (hplan : plan.eventSequenceEnd ≤ plan.inputEventSequence) {w : BoundaryWindow}
  (hw : loadCompactionBoundaryWindow log plan = .ok w)
include hlog hplan hw

/-- The witness of a window: everything up to the input event if an input of the range is not
answered in it, and the range alone otherwise. -/
theorem window_witness : w.witnessEvents =
    if compactionSourceNeedsLaterModelWitness w.sourceEvents then
      eventsBetween log.events (plan.eventSequenceStart - 1) plan.inputEventSequence
    else w.sourceEvents := by
  obtain ⟨hevs, -, ⟨hneeds, hwitness⟩ | ⟨hneeds, hwitness⟩⟩ := window_cases hw
  · rw [if_pos hneeds]
    exact loadClosedEventRange_eq hlog hwitness
  · rw [hwitness]
    split
    · rename_i hneeded
      -- nothing was loaded although an input is unanswered: the range reaches the input event
      have heq : plan.eventSequenceEnd = plan.inputEventSequence := by
        by_contra hne
        rw [hneeds (by omega)] at hneeded
        cases hneeded
      rw [← heq]
      exact loadClosedEventRange_eq hlog hevs
    · rfl

theorem window_witness_ordered : StrictlyOrdered w.witnessEvents := by
  rw [window_witness hlog hplan hw, (window_ok hlog hw).1]
  split
  · exact hlog.eventsBetween _ _
  · exact hlog.eventsBetween _ _

theorem window_source_subset : w.sourceEvents ⊆ w.witnessEvents := by
  rw [window_witness hlog hplan hw, (window_ok hlog hw).1]
  intro x hx
  split
  · obtain ⟨hmem, h1, h2⟩ := mem_eventsBetween.mp hx
    exact mem_eventsBetween.mpr ⟨hmem, h1, by omega⟩
  · exact hx

/-- An input of the range is answered in the window's witness exactly if it is answered up to the
input event. -/
theorem window_answered {x : SourceEvent} (hx : x ∈ w.sourceEvents) (hkind : x.kind = .agentInput)
    (hsem : compactionEventHasModelSemantics x = true) :
    x.sequence < latestModelOutputByTurn w.witnessEvents x.turnId ↔
      x.sequence < latestModelOutputByTurn
        (eventsBetween log.events (plan.eventSequenceStart - 1) plan.inputEventSequence)
        x.turnId := by
  have hwit := window_witness hlog hplan hw
  have hsrc := (window_ok hlog hw).1
  split at hwit
  · rw [hwit]
  · rename_i hneeds
    -- no later event was needed, so the input has its answer inside the range
    have hanswered : x.sequence < latestModelOutputByTurn w.sourceEvents x.turnId := by
      simp only [compactionSourceNeedsLaterModelWitness, any_eq_true, not_exists, not_and,
        Bool.and_eq_true, decide_eq_true_eq] at hneeds
      have := hneeds x hx ⟨hkind, hsem⟩
      omega
    have hpos : 0 ≤ x.sequence := by
      have := hlog.pos (mem_eventsBetween.mp (hsrc ▸ hx)).1
      omega
    rw [hwit]
    refine iff_of_true hanswered ?_
    rw [hsrc] at hanswered
    obtain ⟨y, hy, hp, hlt⟩ := (lt_latestSequence_iff (hlog.eventsBetween _ _) hpos).mp hanswered
    obtain ⟨hmem, h1, h2⟩ := mem_eventsBetween.mp hy
    exact (lt_latestSequence_iff (hlog.eventsBetween _ _) hpos).mpr
      ⟨y, mem_eventsBetween.mpr ⟨hmem, h1, by omega⟩, hp, hlt⟩

end

/-- **The lazy witness is enough for the safe ends.** For every ordered log, every source range up
to the input event (the runner and the planner reject any other) and every list of groups, the safe
ends computed from the loaded window are the safe ends of the range with all events from the range
start to the input event as witness; and a log without gaps up to the input event does load. -/
theorem window_safeEnds (log : AgentLog) (hlog : StrictlyOrdered log.events) (plan : Plan)
    (hplan : plan.eventSequenceEnd ≤ plan.inputEventSequence) (groups : List AtomicGroup) :
    (∀ w, loadCompactionBoundaryWindow log plan = .ok w →
      safeCompactionSourceEndsWithWitness w.sourceEvents w.witnessEvents groups =
        safeCompactionSourceEndsWithWitness
          (eventsBetween log.events (plan.eventSequenceStart - 1) plan.eventSequenceEnd)
          (eventsBetween log.events (plan.eventSequenceStart - 1) plan.inputEventSequence)
          groups) ∧
    (plan.eventSequenceStart ≤ plan.eventSequenceEnd + 1 →
      ClosedRange log.events plan.eventSequenceStart plan.inputEventSequence →
        ∃ w, loadCompactionBoundaryWindow log plan = .ok w) := by
  refine ⟨fun w hw => ?_, fun hle hclosed => window_loads hlog hle hplan hclosed⟩
  rw [← (window_ok hlog hw).1]
  refine congrArg _ (filter_congr fun x hx => ?_)
  exact isSafeEnd_congr (window_answered hlog hplan hw hx) Iff.rfl

/-- The first turn of `twoTurnLog` as the source, with the input event at the end of the second. -/
def firstTurnPlan : Plan := ⟨1, 1, 4, 1, 2⟩

theorem twoTurnLog_closed : ClosedRange twoTurnLog.events 1 4 := by
  intro s h1 h2
  obtain rfl | rfl | rfl | rfl : s = 1 ∨ s = 2 ∨ s = 3 ∨ s = 4 := by omega
  all_goals decide

/-- The first turn answers its own input, so the second one is not loaded. -/
theorem window_safeEnds_firstTurn :
    ∃ w, loadCompactionBoundaryWindow twoTurnLog firstTurnPlan = .ok w ∧
      w.witnessEvents = w.sourceEvents ∧
      safeCompactionSourceEndsWithWitness w.sourceEvents w.witnessEvents [] = [1, 2] := by
  obtain ⟨hsafe, hload⟩ := window_safeEnds twoTurnLog (by decide) firstTurnPlan (by decide) []
  obtain ⟨w, hw⟩ := hload (by decide) twoTurnLog_closed
  refine ⟨w, hw, ?_, (hsafe w hw).trans (by decide +kernel)⟩
  rw [window_witness (by decide) (by decide) hw, (window_ok (by decide) hw).1]
  decide +kernel

/-! ## Complete turns and the range -/

/-- The complete-turn source ends of the whole log up to the input event. -/
def wholeLogTurnEnds (log : AgentLog) (inputEventSequence : Int) (groups : List AtomicGroup) :
    List Int :=
  let events := eventsBetween log.events 0 inputEventSequence
  completeTurnSourceEnds events events (safeCompactionSourceEnds events groups)

/-- The turn of the model output `x`, a safe end of the window, is cut by the end of the range: `x`
is its last event in the range, and it goes on between there and the input event. -/
structure CutTurnEnd (log : AgentLog) (plan : Plan) (w : BoundaryWindow) (x : SourceEvent) :
    Prop where
  source : x ∈ w.sourceEvents
  safe : x.sequence ∈ w.candidates
  output : x.kind = .modelOutput
  turn : x.turnId ≠ Uuid.nil
  last : ∀ y ∈ w.sourceEvents, ofTurn x.turnId y = true → y.sequence ≤ x.sequence
  goesOn : ∃ y ∈ log.events, ofTurn x.turnId y = true ∧ plan.eventSequenceEnd < y.sequence ∧
    y.sequence ≤ plan.inputEventSequence

theorem completeTurnSourceEnds_filter (events witness : List SourceEvent) (cands : List Int)
    (p : Int → Bool) : completeTurnSourceEnds events witness (cands.filter p) =
      (completeTurnSourceEnds events witness cands).filter p :=
  filter_comm _ _ _

/-- Both sides keep a part of the same candidates, so they are equal if they keep the same ones. -/
theorem completeTurnSourceEnds_ext {events witness events' witness' : List SourceEvent}
    {cands : List Int} (h : ∀ e, e ∈ completeTurnSourceEnds events witness cands ↔
      e ∈ completeTurnSourceEnds events' witness' cands) :
    completeTurnSourceEnds events witness cands = completeTurnSourceEnds events' witness' cands := by
  refine filter_congr fun e he => ?_
  have := h e
  simp only [completeTurnSourceEnds, mem_filter, he, true_and] at this
  exact Bool.eq_iff_iff.mpr this

section
variable {log : AgentLog} (hlog : StrictlyOrdered log.events) {plan : Plan} {w : BoundaryWindow}
  (hw : loadCompactionBoundaryWindow log plan = .ok w)
include hlog hw

theorem smallerCandidates_eq :
    smallerCandidates plan w = w.candidates.filter (· < plan.eventSequenceEnd) := by
  have hlt : ∀ e ∈ smallerCandidates plan w, e < plan.eventSequenceEnd := fun e he =>
    (smallerCandidates_lt hlog hw he).2
  have hself := filter_eq_self.mpr fun e he => decide_eq_true (hlt e he)
  unfold smallerCandidates at hself ⊢
  split
  · rename_i hlast
    obtain ⟨before, hbef⟩ := List.getLast?_eq_some_iff.mp hlast
    rw [if_pos hlast, hbef, dropLast_concat] at hself
    rw [hbef, dropLast_concat, filter_append, hself]
    simp
  · rename_i hlast
    rw [if_neg hlast] at hself
    exact hself.symm

variable (hplan : plan.eventSequenceEnd ≤ plan.inputEventSequence)
include hplan

/-- The window's candidates are the safe ends of the whole log in the range, for groups that split
the same ends of it. -/
theorem window_candidates_eq {groups : List AtomicGroup}
    (hgrps : ∀ e, plan.eventSequenceStart ≤ e → e ≤ plan.eventSequenceEnd →
      ((∃ g ∈ groups, g.SplitBy e) ↔ ∃ g ∈ w.atomicGroups, g.SplitBy e)) :
    (safeCompactionSourceEnds (eventsBetween log.events 0 plan.inputEventSequence) groups).filter
        (fun e => plan.eventSequenceStart ≤ e ∧ e ≤ plan.eventSequenceEnd) = w.candidates := by
  have hsrc := (window_ok hlog hw).1
  have hrng : (eventsBetween log.events 0 plan.inputEventSequence).filter
      (fun x => plan.eventSequenceStart ≤ x.sequence ∧ x.sequence ≤ plan.eventSequenceEnd) =
        w.sourceEvents := by
    rw [hsrc, eventsBetween, eventsBetween, filter_filter]
    refine filter_congr fun x hx => ?_
    have := hlog.pos hx
    simp only [← Bool.decide_and, decide_eq_decide]
    omega
  unfold safeCompactionSourceEnds BoundaryWindow.candidates safeCompactionSourceEndsWithWitness
  rw [filter_map, filter_comm]
  simp only [Function.comp_def]
  rw [hrng]
  refine congrArg _ (filter_congr fun x hx => ?_)
  obtain ⟨hmem, h1, h2⟩ := mem_eventsBetween.mp (hsrc ▸ hx)
  have hpos := hlog.pos hmem
  refine (isSafeEnd_congr (fun hkind hsem => ?_) (hgrps x.sequence (by omega) h2).symm).symm
  refine (window_answered hlog hplan hw hx hkind hsem).trans ?_
  -- the events before the range come before the input too
  refine lt_latestSequence_congr (hlog.eventsBetween _ _) (hlog.eventsBetween _ _) (by omega)
    fun e hlt => ?_
  rw [mem_eventsBetween, mem_eventsBetween]
  exact and_congr_right fun _ => by omega

theorem mem_windowTurnEnds {e : Int} :
    e ∈ completeTurnSourceEnds w.sourceEvents w.witnessEvents w.candidates ↔ e ∈ w.candidates ∧
      ∃ x ∈ w.sourceEvents, x.sequence = e ∧ x.kind = .modelOutput ∧ x.turnId ≠ Uuid.nil ∧
        ∀ y ∈ w.witnessEvents, ofTurn x.turnId y = true → y.sequence ≤ e :=
  mem_completeTurnSourceEnds ((window_ok hlog hw).1 ▸ hlog.eventsBetween _ _)
    (window_witness_ordered hlog hplan hw) (window_source_subset hlog hplan hw)

theorem mem_wholeTurnEnds {e : Int} :
    e ∈ completeTurnSourceEnds (eventsBetween log.events 0 plan.inputEventSequence)
        (eventsBetween log.events 0 plan.inputEventSequence) w.candidates ↔ e ∈ w.candidates ∧
      ∃ x ∈ w.sourceEvents, x.sequence = e ∧ x.kind = .modelOutput ∧ x.turnId ≠ Uuid.nil ∧
        ∀ y ∈ log.events, y.sequence ≤ plan.inputEventSequence → ofTurn x.turnId y = true →
          y.sequence ≤ e := by
  rw [mem_completeTurnSourceEnds (hlog.eventsBetween _ _) (hlog.eventsBetween _ _)
    (List.Subset.refl _), (window_ok hlog hw).1]
  refine and_congr_right fun he => ?_
  have hbds := candidate_bounds hlog hw he
  constructor
  · rintro ⟨x, hx, rfl, hkind, hturn, hlast⟩
    obtain ⟨hmem, -, -⟩ := mem_eventsBetween.mp hx
    refine ⟨x, mem_eventsBetween.mpr ⟨hmem, by omega, hbds.2⟩, rfl, hkind, hturn, ?_⟩
    exact fun y hy hle => hlast y (mem_eventsBetween.mpr ⟨hy, hlog.pos hy, hle⟩)
  · rintro ⟨x, hx, rfl, hkind, hturn, hlast⟩
    obtain ⟨hmem, -, -⟩ := mem_eventsBetween.mp hx
    refine ⟨x, mem_eventsBetween.mpr ⟨hmem, hlog.pos hmem, by omega⟩, rfl, hkind, hturn, ?_⟩
    intro y hy
    obtain ⟨hy, -, hle⟩ := mem_eventsBetween.mp hy
    exact hlast y hy hle

/-- The window misses no complete-turn end, and it adds one exactly where a turn is cut and the later
events were not loaded. -/
theorem windowTurnEnds_eq_iff :
    completeTurnSourceEnds w.sourceEvents w.witnessEvents w.candidates =
        completeTurnSourceEnds (eventsBetween log.events 0 plan.inputEventSequence)
          (eventsBetween log.events 0 plan.inputEventSequence) w.candidates ↔
      compactionSourceNeedsLaterModelWitness w.sourceEvents = true ∨
        ∀ x, ¬ CutTurnEnd log plan w x := by
  have hwitness := window_witness hlog hplan hw
  have hsrc := (window_ok hlog hw).1
  constructor
  · intro heq
    by_contra hnot
    push Not at hnot
    obtain ⟨hneeds, x, hcut⟩ := hnot
    rw [if_neg hneeds] at hwitness
    have hx := (mem_windowTurnEnds hlog hw hplan).mpr
      ⟨hcut.safe, x, hcut.source, rfl, hcut.output, hcut.turn, hwitness ▸ hcut.last⟩
    rw [heq, mem_wholeTurnEnds hlog hw hplan] at hx
    obtain ⟨-, z, hz, hseq, -, -, hlast⟩ := hx
    -- the event of the whole log at that sequence is `x`, and its turn goes on
    have hordered : StrictlyOrdered w.sourceEvents := hsrc ▸ hlog.eventsBetween _ _
    obtain rfl := hordered.eq_of_sequence hz hcut.source hseq
    obtain ⟨y, hy, hturn, hpast, hle⟩ := hcut.goesOn
    have h1 := hlast y hy hle hturn
    have h2 := (candidate_bounds hlog hw hcut.safe).2
    omega
  · intro hcond
    refine completeTurnSourceEnds_ext fun e => ?_
    rw [mem_windowTurnEnds hlog hw hplan, mem_wholeTurnEnds hlog hw hplan]
    refine and_congr_right fun he => exists_congr fun x => and_congr_right fun hx =>
      and_congr_right fun hseq => and_congr_right fun hkind => and_congr_right fun hturn => ?_
    have hlow := (candidate_bounds hlog hw he).1
    constructor
    · intro hlast y hy hle hof
      by_contra hlt
      -- `y` lies after `x` and up to the input event: the witness has it, or the turn is cut
      split at hwitness
      · have := hlast y (hwitness ▸ mem_eventsBetween.mpr ⟨hy, by omega, hle⟩) hof
        omega
      · rename_i hneeds
        refine hcond.resolve_left hneeds x ⟨hx, hseq ▸ he, hkind, hturn, ?_, y, hy, hof, ?_, hle⟩
        · rw [hwitness] at hlast
          exact hseq ▸ hlast
        · by_contra hin
          have := hlast y (hwitness ▸ hsrc ▸ mem_eventsBetween.mpr ⟨hy, by omega, by omega⟩) hof
          omega
    · intro hlast y hy hof
      have hlogy : y ∈ log.events ∧ y.sequence ≤ plan.inputEventSequence := by
        rw [hwitness, hsrc] at hy
        split at hy
        · obtain ⟨hy, -, hle⟩ := mem_eventsBetween.mp hy
          exact ⟨hy, hle⟩
        · obtain ⟨hy, -, hle⟩ := mem_eventsBetween.mp hy
          exact ⟨hy, by omega⟩
      exact hlast y hlogy.1 hlogy.2 hof

end

/-- The groups of the whole log up to the input event split the same ends of a range as those of the
window, if its end splits none of them: the planner makes no other plans (`planCheckpoint`). -/
theorem frontier_groups_agree {log : AgentLog} {plan : Plan} (hstart : 0 < plan.eventSequenceStart)
    (hplan : plan.eventSequenceEnd ≤ plan.inputEventSequence)
    (hend : ¬ SplitsGroup log (plan.eventSequenceStart - 1) plan.inputEventSequence
      plan.eventSequenceEnd) (e : Int) (h1 : plan.eventSequenceStart ≤ e)
    (h2 : e ≤ plan.eventSequenceEnd) :
    SplitsGroup log (plan.eventSequenceStart - 1) plan.inputEventSequence e ↔
      SplitsGroup log (plan.eventSequenceStart - 1) plan.eventSequenceEnd e := by
  constructor
  · intro hsplit
    by_contra hsm
    rcases Int.lt_or_eq_of_le h2 with hlt | rfl
    · exact not_splits_of_shrink (by omega) (by omega) hlt hplan hend hsm hsplit
    · exact hend hsplit
  · rw [splits_iff (by omega) (by omega) h2, splits_iff (by omega) (by omega) (by omega)]
    refine Or.imp_right ?_
    rintro ⟨a, ha, b, hb, hao, hbo, hab, hlo, hhi, hup⟩
    exact ⟨a, ha, b, hb, hao, hbo, hab, hlo, hhi, by omega⟩

/-- **When the window's complete turns are the log's.** The complete-turn ends of both shrinking
steps (all candidates in `largestFittingCompactionRequest`, those below the plan's end in
`nextSmallerSourceEnd`) are those of the whole log up to the input event, exactly if the later events
were loaded or no turn is cut by the range. The whole log may be read with any groups that split the
same ends of the range as the window's: these themselves, or by `frontier_groups_agree` its own. -/
theorem window_completeTurns_iff (log : AgentLog) (hlog : StrictlyOrdered log.events) (plan : Plan)
    (hplan : plan.eventSequenceEnd ≤ plan.inputEventSequence) (w : BoundaryWindow)
    (hw : loadCompactionBoundaryWindow log plan = .ok w) (groups : List AtomicGroup)
    (hgroups : ∀ e, plan.eventSequenceStart ≤ e → e ≤ plan.eventSequenceEnd →
      ((∃ g ∈ groups, g.SplitBy e) ↔ ∃ g ∈ w.atomicGroups, g.SplitBy e)) :
    (completeTurnSourceEnds w.sourceEvents w.witnessEvents w.candidates =
        (wholeLogTurnEnds log plan.inputEventSequence groups).filter
          (fun e => plan.eventSequenceStart ≤ e ∧ e ≤ plan.eventSequenceEnd) ∧
      completeTurnSourceEnds w.sourceEvents w.witnessEvents (smallerCandidates plan w) =
        (wholeLogTurnEnds log plan.inputEventSequence groups).filter
          (fun e => plan.eventSequenceStart ≤ e ∧ e < plan.eventSequenceEnd)) ↔
      (compactionSourceNeedsLaterModelWitness w.sourceEvents = true ∨
        ∀ x, ¬ CutTurnEnd log plan w x) := by
  have hwhole : (wholeLogTurnEnds log plan.inputEventSequence groups).filter
      (fun e => plan.eventSequenceStart ≤ e ∧ e ≤ plan.eventSequenceEnd) =
        completeTurnSourceEnds (eventsBetween log.events 0 plan.inputEventSequence)
          (eventsBetween log.events 0 plan.inputEventSequence) w.candidates := by
    rw [wholeLogTurnEnds, ← completeTurnSourceEnds_filter,
      window_candidates_eq hlog hw hplan hgroups]
  have hbelow : (wholeLogTurnEnds log plan.inputEventSequence groups).filter
      (fun e => plan.eventSequenceStart ≤ e ∧ e < plan.eventSequenceEnd) =
        ((wholeLogTurnEnds log plan.inputEventSequence groups).filter
          (fun e => plan.eventSequenceStart ≤ e ∧ e ≤ plan.eventSequenceEnd)).filter
            (· < plan.eventSequenceEnd) := by
    rw [filter_filter]
    refine filter_congr fun e _ => ?_
    simp only [← Bool.decide_and, decide_eq_decide]
    omega
  rw [← windowTurnEnds_eq_iff hlog hw hplan, hbelow, hwhole, smallerCandidates_eq hlog hw,
    completeTurnSourceEnds_filter]
  exact ⟨And.left, fun heq => ⟨heq, by rw [heq]⟩⟩

/-- The first of two turns is not cut, and its output is a complete-turn end of the log. -/
theorem window_completeTurns_firstTurn :
    ∃ w, loadCompactionBoundaryWindow twoTurnLog firstTurnPlan = .ok w ∧
      completeTurnSourceEnds w.sourceEvents w.witnessEvents w.candidates = [2] ∧
      completeTurnSourceEnds w.sourceEvents w.witnessEvents (smallerCandidates firstTurnPlan w) =
        [] := by
  obtain ⟨w, hw⟩ : ∃ w, loadCompactionBoundaryWindow twoTurnLog firstTurnPlan = .ok w :=
    window_loads (by decide) (by decide) (by decide) twoTurnLog_closed
  obtain ⟨hsource, hgroups⟩ := window_ok (by decide) hw
  have hends := (window_completeTurns_iff twoTurnLog (by decide) firstTurnPlan (by decide) w hw
    (listCompactionAtomicGroups twoTurnLog 0 4) (by
      rw [hgroups]
      exact frontier_groups_agree (by decide) (by decide)
        (by unfold SplitsGroup; decide +kernel))).mpr
    (.inr fun x hcut => by
      -- both events of the range are of turn 1, and turn 1 ends with it
      have hturn : ∀ x ∈ eventsBetween twoTurnLog.events 0 2, x.turnId = 1 := by decide
      have hlast : ∀ y ∈ twoTurnLog.events, ofTurn 1 y = true → y.sequence ≤ 2 := by decide
      obtain ⟨y, hy, hof, hpast, -⟩ := hcut.goesOn
      rw [hturn x (hsource ▸ hcut.source)] at hof
      exact absurd (hlast y hy hof) (Int.not_le.mpr hpast))
  exact ⟨w, hw, hends.1.trans (by decide +kernel), hends.2.trans (by decide +kernel)⟩

/-- One turn: an input and its answer, then a second input and its answer. -/
def steeredTurnLog : AgentLog where
  events := [
    { sequence := 1, turnId := 1, isOpeningEvent := true, kind := .agentInput,
      contentParts := Json.ascii "[1]" },
    { sequence := 2, turnId := 1, kind := .modelOutput, contentParts := Json.ascii "[1]" },
    { sequence := 3, turnId := 1, kind := .agentInput, contentParts := Json.ascii "[1]" },
    { sequence := 4, turnId := 1, kind := .modelOutput, contentParts := Json.ascii "[1]" }]
  toolCalls := []

/-- With the first two events of `steeredTurnLog` as the source, the window takes the first answer
for the end of the turn. In the log up to the input event the turn ends at 4. -/
theorem window_cuts_turn :
    (loadCompactionBoundaryWindow steeredTurnLog firstTurnPlan).toOption.map (fun w =>
      completeTurnSourceEnds w.sourceEvents w.witnessEvents w.candidates) = some [2] ∧
    wholeLogTurnEnds steeredTurnLog firstTurnPlan.inputEventSequence
      (listCompactionAtomicGroups steeredTurnLog 0 firstTurnPlan.inputEventSequence) = [4] := by
  decide +kernel

end Compaction
