import Omnara.Compaction.Proof.Select
import Omnara.Compaction.Runner

/-!
# The shrink chain of a compaction run

When a request is too large, or the provider or the store rejects it, the runner hands a smaller
source end to `replaceCompactionSource` and runs again. `runOnce_replace` says what can be handed on
by one run, wherever in the run that happens: a safe end of the window loaded for the current end,
strictly below it and not before the source start. So the recursion ends (`run_ends`) and, by
`not_splits_of_shrink`, no later end splits a group of the frontier unless the first one does
(`HandedOn.keeps_groups`).
-/

namespace Compaction

open List

variable {log : AgentLog} {plan : Plan} {w : BoundaryWindow} {e : Int} {input : RunInput}
  {a : Answers}

/-! ## The window -/

theorem loadClosedEventRange_eq {log : List SourceEvent} (hlog : StrictlyOrdered log)
    {start stop : Int} {out : List SourceEvent} (h : loadClosedEventRange log start stop = .ok out) :
    out = eventsBetween log (start - 1) stop := by
  unfold loadClosedEventRange at h
  rw [collect_pages hlog.pairwise] at h
  dsimp only at h
  split at h
  · cases h
  · split at h
    · cases h
    · exact (Except.ok.inj h).symm

/-- What a window was loaded from: the range, and as its witness either everything up to the input
event or the range once more. -/
theorem window_cases (h : loadCompactionBoundaryWindow log plan = .ok w) :
    loadClosedEventRange log.events plan.eventSequenceStart plan.eventSequenceEnd =
        .ok w.sourceEvents ∧
      w.atomicGroups =
        listCompactionAtomicGroups log (plan.eventSequenceStart - 1) plan.eventSequenceEnd ∧
      (compactionSourceNeedsLaterModelWitness w.sourceEvents = true ∧
          loadClosedEventRange log.events plan.eventSequenceStart plan.inputEventSequence =
            .ok w.witnessEvents ∨
        (plan.eventSequenceEnd < plan.inputEventSequence →
          compactionSourceNeedsLaterModelWitness w.sourceEvents = false) ∧
          w.witnessEvents = w.sourceEvents) := by
  unfold loadCompactionBoundaryWindow at h
  split at h
  · cases h
  rename_i events hevs
  split at h
  · rename_i hload
    split at h
    · cases h
    · rename_i witness hwit
      cases h
      exact ⟨hevs, rfl, .inl ⟨(Bool.and_eq_true_iff.mp hload).2, hwit⟩⟩
  · rename_i hload
    cases h
    refine ⟨hevs, rfl, .inr ⟨fun hlt => ?_, rfl⟩⟩
    simpa [hlt] using hload

theorem window_ok (hlog : StrictlyOrdered log.events)
    (h : loadCompactionBoundaryWindow log plan = .ok w) :
    w.sourceEvents = eventsBetween log.events (plan.eventSequenceStart - 1) plan.eventSequenceEnd ∧
      w.atomicGroups =
        listCompactionAtomicGroups log (plan.eventSequenceStart - 1) plan.eventSequenceEnd := by
  obtain ⟨hevs, hgrps, -⟩ := window_cases h
  exact ⟨loadClosedEventRange_eq hlog hevs, hgrps⟩

/-- `e` is a safe end of the window of the current plan, below the plan's end. -/
def SafeShrink (log : AgentLog) (plan : Plan) (e : Int) : Prop :=
  ∃ w, loadCompactionBoundaryWindow log plan = .ok w ∧ e ∈ w.candidates ∧
    plan.eventSequenceStart ≤ e ∧ e < plan.eventSequenceEnd

section
variable {log : AgentLog} (hlog : StrictlyOrdered log.events) {plan : Plan} {w : BoundaryWindow}
  (hw : loadCompactionBoundaryWindow log plan = .ok w) {a : Answers}
include hlog hw

theorem candidate_bounds (h : e ∈ w.candidates) :
    plan.eventSequenceStart ≤ e ∧ e ≤ plan.eventSequenceEnd := by
  obtain ⟨x, hx, -, rfl⟩ := mem_safeEndsWithWitness.mp h
  rw [(window_ok hlog hw).1] at hx
  have := (mem_eventsBetween.mp hx).2
  omega

theorem candidates_pairwise : w.candidates.Pairwise (· < ·) := by
  refine safeEnds_pairwise ?_ _ _
  rw [(window_ok hlog hw).1]
  exact hlog.eventsBetween _ _

theorem smallerCandidates_lt (h : e ∈ smallerCandidates plan w) :
    e ∈ w.candidates ∧ e < plan.eventSequenceEnd := by
  unfold smallerCandidates at h
  split at h
  · rename_i hlast
    -- the dropped candidate is the plan's end, and the others come before it
    have hmem : e ∈ w.candidates := (dropLast_sublist _).subset h
    obtain ⟨pre, hpre⟩ := List.getLast?_eq_some_iff.mp hlast
    rw [hpre, dropLast_concat] at h
    have hp := candidates_pairwise hlog hw
    rw [hpre, pairwise_append] at hp
    exact ⟨hmem, hp.2.2 e h _ (by simp)⟩
  · rename_i hlast
    refine ⟨h, ?_⟩
    obtain ⟨-, hle⟩ := candidate_bounds hlog hw h
    rcases Int.lt_or_eq_of_le hle with hlt | rfl
    · exact hlt
    · -- the plan's end would be the last candidate
      exfalso
      obtain ⟨pre, post, hsplit⟩ := append_of_mem h
      rcases post with _ | ⟨x, post⟩
      · exact hlast (by rw [hsplit]; simp)
      · have hx : x ∈ w.candidates := by rw [hsplit]; simp
        have hp := candidates_pairwise hlog hw
        rw [hsplit, pairwise_append, pairwise_cons] at hp
        have h1 := hp.2.1.1 x (by simp)
        have h2 := (candidate_bounds hlog hw hx).2
        omega

end

/-! ## The two places an end comes from -/

theorem tryTargets_mem {prepare : Int → Int → Except Cause InputBudget} {maxOut minimum best r : Int} :
    ∀ {targets : List Int}, tryTargets prepare maxOut minimum best targets = .ok r →
      r = best ∨ r ∈ targets
  | [], h => .inl (Except.ok.inj h).symm
  | e :: targets, h => by
    have later : tryTargets prepare maxOut minimum best targets = .ok r →
        r = best ∨ r ∈ e :: targets :=
      fun h => (tryTargets_mem h).imp_right (mem_cons_of_mem _)
    have here : (.ok e : Except Cause Int) = .ok r → r = best ∨ r ∈ e :: targets :=
      fun h => .inr (Except.ok.inj h ▸ mem_cons_self)
    unfold tryTargets at h
    split at h
    · exact later h
    split at h
    · cases h
    split at h
    · exact here h
    dsimp only at h
    split at h
    · exact later h
    split at h
    · cases h
    split at h
    · exact here h
    · exact later h

theorem largestFitting_mem (h : largestFittingCompactionRequest plan w a = .ok e) :
    e = 0 ∨ e ∈ w.candidates := by
  unfold largestFittingCompactionRequest at h
  split at h
  · exact .inl (Except.ok.inj h).symm
  · rename_i first rest hcands
    rw [hcands]
    dsimp only at h
    split at h
    · cases h
    rename_i best hbest
    split at h
    · cases h
    rcases tryTargets_mem h with rfl | hmem
    · split
      · exact .inl rfl
      · rcases Search.bisect_spec hbest with hneg | ⟨h0, h1, -⟩
        · omega
        · exact .inr (Search.getD_mem h0 h1)
    · right
      split at hmem
      · rename_i turn turns hturns
        have hturn : turn ∈ first :: rest :=
          completeTurnSourceEnds_subset turn (hturns ▸ mem_cons_self)
        split at hmem
        · rcases mem_cons.mp hmem with rfl | hmem
          · exact hturn
          · exact mem_singleton.mp hmem ▸ mem_cons_self
        · exact mem_singleton.mp hmem ▸ mem_cons_self
      · exact mem_singleton.mp hmem ▸ mem_cons_self

theorem lastWithin_mem (within : Int → Bool) :
    ∀ (cands : List Int) (chosen : Int), lastWithin within chosen cands = chosen ∨
      lastWithin within chosen cands ∈ cands
  | [], _ => .inl rfl
  | c :: cands, chosen => by
    rw [lastWithin]
    split
    · rcases lastWithin_mem within cands c with h | h
      · exact .inr (h.symm ▸ mem_cons_self)
      · exact .inr (mem_cons_of_mem _ h)
    · exact .inl rfl

theorem nextSmaller_spec (hlog : StrictlyOrdered log.events)
    (h : nextSmallerSourceEnd log plan a = some e) (hpos : 0 < e) :
    SafeShrink log plan e := by
  unfold nextSmallerSourceEnd at h
  split at h
  · cases h
  rename_i w hw
  have close : e ∈ smallerCandidates plan w → SafeShrink log plan e := by
    intro hm
    obtain ⟨hmem, hlt⟩ := smallerCandidates_lt hlog hw hm
    exact ⟨w, hw, hmem, (candidate_bounds hlog hw hmem).1, hlt⟩
  split at h
  · cases h; omega
  rename_i first rest hcands
  split at h
  · cases h
  rename_i sizes hsizes
  dsimp only at h
  obtain ⟨h1, h2, -⟩ := boundariesAroundTarget_spec
    (fun e : Int => decide (sizes.getD (e - plan.eventSequenceStart).toNat 0 ≤
      sizes.getLast?.getD 0 / 2))
    (completeTurnSourceEnds w.sourceEvents w.witnessEvents (first :: rest)) 0
  generalize boundariesAroundTarget _ 0 _ = ends at h h1 h2
  split at h
  · cases h
    exact close (hcands ▸ completeTurnSourceEnds_subset _ (h1.resolve_left (by omega)))
  split at h
  · cases h
    exact close (hcands ▸ completeTurnSourceEnds_subset _ (h2.resolve_left (by omega)))
  · cases h
    refine close ?_
    rw [hcands]
    rcases lastWithin_mem _ (first :: rest) first with h | h
    · rw [h]; exact mem_cons_self
    · exact h

/-! ## One run -/

section
variable {log : AgentLog} (hlog : StrictlyOrdered log.events) {plan : Plan} {a : Answers} {e : Int}
include hlog

theorem shrinkOr_replace {rest : RunStep} (h : shrinkOr log plan a rest = .replace e) :
    SafeShrink log plan e ∨ rest = .replace e := by
  unfold shrinkOr at h
  split at h
  · cases h
  rename_i nextEnd hnext
  split at h
  · rename_i hpos
    cases h
    exact .inl (nextSmaller_spec hlog hnext hpos)
  · exact .inr h

theorem recordFailure_replace {cause : Cause} (h : recordFailure log plan a cause = .replace e) :
    SafeShrink log plan e := by
  unfold recordFailure at h
  split at h
  · exact (shrinkOr_replace hlog h).resolve_right (by simp)
  · cases h

theorem publishStep_replace (h : publishStep log plan a = .replace e) : SafeShrink log plan e := by
  unfold publishStep at h
  split at h
  · cases h
  · exact recordFailure_replace hlog h
  · cases h
  · exact (shrinkOr_replace hlog h).elim id (recordFailure_replace hlog)

variable {input : RunInput}

theorem progressStep_replace (h : progressStep log input a = .replace e) :
    SafeShrink log input.plan e := by
  unfold progressStep at h
  split at h
  · cases h
  · dsimp only at h
    split at h
    · cases h
    · exact publishStep_replace hlog h
    · exact recordFailure_replace hlog h

theorem validateStep_replace (h : validateStep log input a = .replace e) :
    SafeShrink log input.plan e := by
  unfold validateStep at h
  split at h
  · cases h
  · exact recordFailure_replace hlog h
  · split at h
    · cases h
    · exact recordFailure_replace hlog h
    · exact progressStep_replace hlog h
    · exact publishStep_replace hlog h

theorem respondStep_replace (h : respondStep log input a = .replace e) :
    SafeShrink log input.plan e := by
  unfold respondStep at h
  split at h
  · cases h
  · exact recordFailure_replace hlog h
  · exact (shrinkOr_replace hlog h).elim id (validateStep_replace hlog)
  · exact validateStep_replace hlog h

theorem requestStep_replace (h : requestStep log input a = .replace e) :
    SafeShrink log input.plan e := by
  unfold requestStep at h
  split at h
  · exact recordFailure_replace hlog h
  rename_i w hw
  split at h
  · exact recordFailure_replace hlog h
  rename_i sourceEnd hfit
  split at h
  · exact recordFailure_replace hlog h
  split at h
  · rename_i hne hlt
    cases h
    have hmem := (largestFitting_mem hfit).resolve_left hne
    exact ⟨w, hw, hmem, (candidate_bounds hlog hw hmem).1, hlt⟩
  · exact respondStep_replace hlog h

end

theorem RunInput.valid_bounds (h : input.valid = true) :
    0 < input.plan.eventSequenceStart ∧
      input.plan.eventSequenceStart ≤ input.plan.eventSequenceEnd ∧
      input.plan.eventSequenceEnd ≤ input.plan.inputEventSequence := by
  simp only [RunInput.valid, gt_iff_lt, Bool.and_eq_true, Bool.not_eq_true',
    Bool.or_eq_false_iff, decide_eq_false_iff_not] at h
  omega

/-- **What one run hands on**: a valid plan's run replaces its source only by a safe end of the
window it loaded, at least the source start and strictly below the current end. -/
theorem runOnce_replace (hlog : StrictlyOrdered log.events) (h : runOnce log input a = .replace e) :
    input.valid = true ∧ SafeShrink log input.plan e := by
  unfold runOnce at h
  split at h
  · cases h
  rename_i hval
  refine ⟨by simpa using hval, ?_⟩
  split at h
  · cases h
  · cases h
  split at h
  · cases h
  split at h
  · cases h
  split at h
  · cases h
  · exact recordFailure_replace hlog h
  · exact requestStep_replace hlog h

/-! ## The recursion -/

def RunInput.withEnd (input : RunInput) (e : Int) : RunInput :=
  { input with plan := { input.plan with eventSequenceEnd := e } }

/-- The ends `es`, handed on one after the other from run `n` on, are each a safe end of the window
of the run before, between the source start and that run's end. -/
inductive HandedOn (logs : Nat → AgentLog) : Nat → RunInput → List Int → Prop
  | nil {n : Nat} {input : RunInput} : HandedOn logs n input []
  | cons {n : Nat} {input : RunInput} {e : Int} {es : List Int} :
      input.valid = true → SafeShrink (logs n) input.plan e →
      HandedOn logs (n + 1) (input.withEnd e) es → HandedOn logs n input (e :: es)

section
variable {logs : Nat → AgentLog} (hlog : ∀ n, StrictlyOrdered (logs n).events)
  (answers : Nat → Answers)
include hlog

theorem run_handedOn : ∀ (fuel n : Nat) (input : RunInput),
    HandedOn logs n input (run logs answers fuel n input).2
  | 0, _, _ => .nil
  | fuel + 1, n, input => by
    rw [run]
    split
    · exact .nil
    · rename_i e he
      obtain ⟨hval, hsafe⟩ := runOnce_replace (hlog n) he
      split
      · exact .cons hval hsafe .nil
      · exact .cons hval hsafe .nil
      · exact .cons hval hsafe (run_handedOn fuel (n + 1) (input.withEnd e))

/-- The recursion ends: the distance from the source start to the current end bounds the number of
replacements. -/
theorem run_ends : ∀ (fuel n : Nat) (input : RunInput),
    (input.plan.eventSequenceEnd - input.plan.eventSequenceStart).toNat < fuel →
      (run logs answers fuel n input).1 ≠ .outOfFuel
  | 0, _, _, hfuel => absurd hfuel (Nat.not_lt_zero _)
  | fuel + 1, n, input, hfuel => by
    rw [run]
    split
    · simp
    · rename_i e he
      obtain ⟨-, w, -, -, hlo, hhi⟩ := runOnce_replace (hlog n) he
      split
      · simp
      · simp
      · refine run_ends fuel (n + 1) (input.withEnd e) ?_
        simp only [RunInput.withEnd]
        omega

omit hlog in
/-- Along a chain no end splits a group of the frontier, if the first end does not. -/
theorem HandedOn.keeps_groups (hlog : ∀ n, StrictlyOrdered (logs n).events) {frontier : Int}
    (hgrow : ∀ n, (logs 0).GrowsAbove frontier (logs n)) {n : Nat} {es : List Int}
    (h : HandedOn logs n input es) (hfront : input.plan.inputEventSequence = frontier)
    (hstart : ¬ SplitsGroup (logs 0) (input.plan.eventSequenceStart - 1) frontier
      input.plan.eventSequenceEnd) :
    ∀ e ∈ es, ¬ SplitsGroup (logs 0) (input.plan.eventSequenceStart - 1) frontier e := by
  induction h with
  | nil => simp
  | @cons n input e es hval hsafe _ ih =>
    obtain ⟨w, hw, hmem, hlo, hhi⟩ := hsafe
    obtain ⟨h1, h2, h3⟩ := RunInput.valid_bounds hval
    have hsm : ¬ SplitsGroup (logs n) (input.plan.eventSequenceStart - 1)
        input.plan.eventSequenceEnd e := by
      rintro ⟨g, hg, hsplit⟩
      rw [← (window_ok (hlog n) hw).2] at hg
      exact safeEnd_not_split hmem g hg hsplit
    rw [splits_of_growsAbove (by omega) (by omega) (by omega) (by omega) (hgrow n)] at hsm
    have he := not_splits_of_shrink (by omega) (by omega) hhi (by omega) hstart hsm
    intro x hx
    rcases mem_cons.mp hx with rfl | hx
    · exact he
    · exact ih hfront he x hx

end

/-- **The shrink chain**: for every sequence of answers, and for a log that may grow past the
frontier between the runs, every end handed to `replaceCompactionSource` is a safe end of the
current window between the source start and the current end, the recursion ends, and if the planned
end splits no group of the frontier then neither does any later end. -/
theorem run_shrink_chain (logs : Nat → AgentLog) (hlog : ∀ n, StrictlyOrdered (logs n).events)
    (answers : Nat → Answers) (input : RunInput)
    (hgrow : ∀ n, (logs 0).GrowsAbove input.plan.inputEventSequence (logs n)) (fuel : Nat)
    (hfuel : (input.plan.eventSequenceEnd - input.plan.eventSequenceStart).toNat < fuel) :
    (run logs answers fuel 0 input).1 ≠ .outOfFuel ∧
      HandedOn logs 0 input (run logs answers fuel 0 input).2 ∧
      (¬ SplitsGroup (logs 0) (input.plan.eventSequenceStart - 1) input.plan.inputEventSequence
          input.plan.eventSequenceEnd →
        ∀ e ∈ (run logs answers fuel 0 input).2, ¬ SplitsGroup (logs 0)
          (input.plan.eventSequenceStart - 1) input.plan.inputEventSequence e) := by
  have hchain := run_handedOn hlog answers fuel 0 input
  exact ⟨run_ends hlog answers fuel 0 input hfuel, hchain, hchain.keeps_groups hlog hgrow rfl⟩

/-- The log of `twoTurnBoundary` with a tool call of the first turn that is answered at once. -/
def twoTurnLog : AgentLog := ⟨twoTurnBoundary.events, [⟨2, some 2⟩]⟩

/-- Every request fits, and the response to a source longer than two events is cut off. -/
def truncatingAnswers (n : Nat) : Answers where
  entry := .ok ()
  prior := none
  setup := .ok ()
  prepare := fun _ _ => .ok ⟨1, 1⟩
  policyMaxOutputTokens := 1
  minimumOutputTokens := .ok 1
  renderedBytes := fun _ => some 1
  respond := .ok (n = 0)
  summary := .ok ()
  candidate := .ok false
  checkpointCount := some 0
  publish := .ok true
  recorded := .terminal
  replacement := .ok ()

def twoTurnRun : RunInput := ⟨⟨1, 1, 4, 1, 4⟩, 2, [1], 3, 1, 1⟩

theorem run_shrink_chain_twoTurn :
    run (fun _ => twoTurnLog) truncatingAnswers 4 0 twoTurnRun = (.ended .completed, [2]) ∧
      HandedOn (fun _ => twoTurnLog) 0 twoTurnRun
        (run (fun _ => twoTurnLog) truncatingAnswers 4 0 twoTurnRun).2 :=
  ⟨by decide +kernel, (run_shrink_chain (fun _ => twoTurnLog) (fun _ => by decide)
    truncatingAnswers twoTurnRun (fun _ => .refl _ _) 4 (by decide)).2.1⟩

end Compaction
