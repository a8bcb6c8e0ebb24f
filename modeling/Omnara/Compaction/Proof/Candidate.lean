import Omnara.Compaction.Candidate
import Omnara.Compaction.Proof.Shrink
import Omnara.Model.Proof.Prepare

/-!
# The largest fitting summary request

`fitTargets_cases` says what the loop over the targets can return, and `largestFitting_cases` what the
whole search can. For an estimate that grows with the source and does not depend on the allowance a
request fits by the arithmetic of its window alone (`prepareEnd_assessed`), so the bisection finds the
last end that fits (`Search.bisect_last`), and an end whose own estimate leaves a large enough allowance
fits with it (`fittedPolicy_eq`). `largestFitting_sourceEnd` ties the search to the runner's.
-/

namespace Compaction

open List

open Fallible (bind_eq_ok map_eq_ok mapError_eq_ok)
open Json (Bytes)
open ModelContext (RenderedMedia ModelWindow)
open Model

variable {ε : Type} {project : Bytes → List RenderedMedia → Bytes} {encoder : SourceEncoder ε}
  {client : Client ε} {r : PreparedCompactionRequest}

/-! ## The policy -/

theorem summaryPolicy_allowance {c : Capabilities} (hwin : 2 ≤ c.contextWindowTokens) :
    1 ≤ (summaryPolicy c).maxOutputTokens ∧
      (summaryPolicy c).maxOutputTokens ≤ c.contextWindowTokens / 2 := by
  simp only [summaryPolicy, preferredSummaryOutputTokens]
  split
  · omega
  · omega

theorem compactionModel_ok {base : Client ε}
    {withoutManualThinking : Option (Except (ClientError ε) (Client ε))} {policy : SendPolicy}
    (h : compactionModel base withoutManualThinking = .ok (client, policy)) :
    policy = summaryPolicy base.capabilities ∧
      (client = base ∨ withoutManualThinking = some (.ok client)) := by
  obtain ⟨limits, -, h⟩ := bind_eq_ok.mp h
  obtain ⟨_, -, h⟩ := bind_eq_ok.mp h
  obtain ⟨summary, hsum, h⟩ := bind_eq_ok.mp h
  cases h
  refine ⟨rfl, ?_⟩
  unfold summaryClient at hsum
  split at hsum
  · cases hsum
    exact .inl rfl
  · cases hsum
  · cases hsum
    exact .inr rfl

/-! ## Preparing one candidate -/

theorem prepareEnd_ok {plan : Plan} {events : List SourceEvent} {policy : SendPolicy}
    {sourceEnd : Int} (h : prepareEnd project encoder client plan events policy sourceEnd = .ok r) :
    r.sourceEnd = sourceEnd ∧ 0 < sourceEnd - plan.eventSequenceStart + 1 ∧ ∃ text context first,
        encoder.renderEventSource (events.take (sourceEnd - plan.eventSequenceStart + 1).toNat) =
          .ok text ∧
        encoder.compactionRequestBundle text = .ok context ∧
        prepareRequest project client { context, policy } = .ok first ∧
        r.prepared = first.assess policy.maxOutputTokens
          (ModelWindow.usableInputTokens ⟨client.capabilities.contextWindowTokens,
            policy.maxOutputTokens,
            ModelContext.defaultSafetyMarginTokens client.capabilities.contextWindowTokens⟩) := by
  unfold prepareEnd at h
  dsimp only at h
  split at h
  · cases h
  rename_i hcnt
  obtain ⟨⟨sent, source⟩, hprep, rfl⟩ := map_eq_ok.mp h
  obtain ⟨text, htext, hprep⟩ := bind_eq_ok.mp hprep
  obtain ⟨context, hctx, hprep⟩ := bind_eq_ok.mp hprep
  obtain ⟨prepared, hsend, hprep⟩ := bind_eq_ok.mp hprep
  obtain ⟨rfl, rfl⟩ := Prod.mk.inj (Except.ok.inj hprep)
  obtain ⟨first, hfst, hassess⟩ := prepareForSend_full (mapError_eq_ok.mp hsend) rfl
  exact ⟨rfl, by omega, text, context, first, mapError_eq_ok.mp htext, mapError_eq_ok.mp hctx,
    hfst, hassess⟩

/-- The estimate of a summary request depends on how many events it has, and not on the allowance. -/
def Estimates (project : Bytes → List RenderedMedia → Bytes) (encoder : SourceEncoder ε)
    (client : Client ε) (events : List SourceEvent) (policy : SendPolicy) (estimate : Nat → Int) :
    Prop :=
  ∀ n text context maxOutputTokens prepared,
    encoder.renderEventSource (events.take n) = .ok text →
    encoder.compactionRequestBundle text = .ok context →
    prepareRequest project client { context, policy := { policy with maxOutputTokens } } =
      .ok prepared →
    prepared.inputTokenEstimate = estimate n

section
variable {plan : Plan} {events : List SourceEvent} {policy : SendPolicy} {estimate : Nat → Int}
  (hest : Estimates project encoder client events policy estimate) {sourceEnd maxOutputTokens : Int}
  {r : PreparedCompactionRequest}
  (h : prepareEnd project encoder client plan events { policy with maxOutputTokens } sourceEnd = .ok r)
include hest h

theorem prepareEnd_assessed :
    0 < estimate (sourceEnd - plan.eventSequenceStart + 1).toNat ∧
      r.prepared.inputBudget = ⟨estimate (sourceEnd - plan.eventSequenceStart + 1).toNat,
        ModelWindow.usableInputTokens ⟨client.capabilities.contextWindowTokens, maxOutputTokens,
          ModelContext.defaultSafetyMarginTokens client.capabilities.contextWindowTokens⟩⟩ := by
  obtain ⟨-, -, text, context, first, htext, hctx, hfst, hassess⟩ := prepareEnd_ok h
  have hestimate := hest _ _ _ _ _ htext hctx hfst
  rw [← hestimate, hassess]
  exact ⟨prepareRequest_pos hfst, rfl⟩

theorem prepareEnd_fits_iff : r.prepared.inputBudget.fits = true ↔
    estimate (sourceEnd - plan.eventSequenceStart + 1).toNat + maxOutputTokens ≤
      client.capabilities.contextWindowTokens -
        ModelContext.defaultSafetyMarginTokens client.capabilities.contextWindowTokens := by
  obtain ⟨hpos, hbudget⟩ := prepareEnd_assessed hest h
  rw [Model.InputBudgetAssessment.fits_iff, hbudget]
  rw [ModelWindow.le_usable_iff hpos]
  exact and_iff_right hpos

/-- An allowance of at most half of the window: a candidate over budget leaves the rest of the window
after its estimate. -/
theorem fittedPolicy_eq (hwin : 0 ≤ client.capabilities.contextWindowTokens)
    (hhalf : maxOutputTokens ≤ client.capabilities.contextWindowTokens / 2) :
    (fittedPolicy { policy with maxOutputTokens } r).maxOutputTokens =
      client.capabilities.contextWindowTokens -
        ModelContext.defaultSafetyMarginTokens client.capabilities.contextWindowTokens -
        estimate (sourceEnd - plan.eventSequenceStart + 1).toNat := by
  obtain ⟨-, hbudget⟩ := prepareEnd_assessed hest h
  obtain ⟨-, hmargin⟩ := ModelContext.defaultSafetyMarginTokens_bounds hwin
  have husable : ModelWindow.usableInputTokens ⟨client.capabilities.contextWindowTokens, maxOutputTokens,
      ModelContext.defaultSafetyMarginTokens client.capabilities.contextWindowTokens⟩ =
        client.capabilities.contextWindowTokens - maxOutputTokens -
          ModelContext.defaultSafetyMarginTokens client.capabilities.contextWindowTokens := by
    unfold ModelWindow.usableInputTokens
    dsimp only
    rw [if_neg (by omega)]
  unfold fittedPolicy
  rw [hbudget, husable]
  dsimp only
  omega

end

/-! ## The loop over the targets -/

section
variable {prepare : SendPolicy → Int → Except (CandidateError ε) PreparedCompactionRequest}
  {policy : SendPolicy} {minimum : Int} {best : PreparedCompactionRequest}

/-- A target that is left out: neither the whole allowance nor the one it leaves lets it fit. -/
def LeftOut (prepare : SendPolicy → Int → Except (CandidateError ε) PreparedCompactionRequest)
    (policy : SendPolicy) (minimum sourceEnd : Int) : Prop :=
  ∃ r, prepare policy sourceEnd = .ok r ∧ r.prepared.inputBudget.fits = false ∧
    ((fittedPolicy policy r).maxOutputTokens < max 1 minimum ∨
      ∃ r', prepare (fittedPolicy policy r) sourceEnd = .ok r' ∧ r'.prepared.inputBudget.fits = false)

/-- A target that is returned fits, with the whole allowance or with the one it leaves. -/
def Chosen (prepare : SendPolicy → Int → Except (CandidateError ε) PreparedCompactionRequest)
    (policy : SendPolicy) (sourceEnd : Int) (r : PreparedCompactionRequest) : Prop :=
  r.prepared.inputBudget.fits = true ∧
    ∃ maxOutputTokens, prepare { policy with maxOutputTokens } sourceEnd = .ok r

theorem fitTargets_cases {result : PreparedCompactionRequest} :
    ∀ {targets : List Int}, fitTargets prepare policy minimum best targets = .ok result →
      (result = best ∧ ∀ e ∈ targets, e ≤ best.sourceEnd ∨ LeftOut prepare policy minimum e) ∨
      ∃ e ∈ targets, best.sourceEnd < e ∧ Chosen prepare policy e result
  | [], h => .inl ⟨(Except.ok.inj h).symm, nofun⟩
  | e :: targets, h => by
    -- what the rest of the targets comes to, once this one is passed over
    have later (hskip : e ≤ best.sourceEnd ∨ LeftOut prepare policy minimum e)
        (h : fitTargets prepare policy minimum best targets = .ok result) :
        (result = best ∧
          ∀ x ∈ e :: targets, x ≤ best.sourceEnd ∨ LeftOut prepare policy minimum x) ∨
        ∃ x ∈ e :: targets, best.sourceEnd < x ∧ Chosen prepare policy x result := by
      rcases fitTargets_cases h with ⟨hbest, hall⟩ | ⟨x, hx, hchosen⟩
      · exact .inl ⟨hbest, forall_mem_cons.mpr ⟨hskip, hall⟩⟩
      · exact .inr ⟨x, mem_cons_of_mem _ hx, hchosen⟩
    rw [fitTargets] at h
    split at h
    · rename_i hle
      exact later (.inl hle) h
    rename_i hgt
    split at h
    · cases h
    rename_i candidate hcand
    split at h
    · rename_i hover
      have hover : candidate.prepared.inputBudget.fits = false := by
        simpa [InputBudgetAssessment.overBudget] using hover
      split at h
      · rename_i hsm
        exact later (.inr ⟨candidate, hcand, hover, .inl hsm⟩) h
      split at h
      · cases h
      rename_i again hagain
      split at h
      · rename_i hfits
        cases h
        exact .inr ⟨e, mem_cons_self, by omega, hfits, _, hagain⟩
      · rename_i hfits
        exact later (.inr ⟨candidate, hcand, hover, .inr ⟨again, hagain, by simpa using hfits⟩⟩) h
    · rename_i hfits
      cases h
      exact .inr ⟨e, mem_cons_self, by omega,
        by simpa [InputBudgetAssessment.overBudget] using hfits, _, hcand⟩

end

/-! ## The whole search -/

section
variable {plan : Plan} {w : BoundaryWindow} {policy : SendPolicy} {result : PreparedCompactionRequest}

theorem mem_reducedTargets {first e : Int} (hfst : first ∈ w.candidates)
    (h : e ∈ reducedTargets w first) : e ∈ w.candidates := by
  unfold reducedTargets at h
  split at h
  · rename_i turn turns hturns
    have hturn : turn ∈ w.candidates := completeTurnSourceEnds_subset turn (hturns ▸ mem_cons_self)
    split at h
    · rcases mem_cons.mp h with rfl | h
      · exact hturn
      · exact mem_singleton.mp h ▸ hfst
    · exact mem_singleton.mp h ▸ hfst
  · exact mem_singleton.mp h ▸ hfst

theorem first_mem_reducedTargets (w : BoundaryWindow) (first : Int) :
    first ∈ reducedTargets w first := by
  unfold reducedTargets
  split
  · split
    · simp
    · simp
  · simp

/-- What the search was: no candidates, or a bisection for the best request and the targets after it. -/
theorem largestFitting_cases
    (h : largestFitting project encoder client plan w policy = .ok result) :
    (w.candidates = [] ∧ result = .empty) ∨
    ∃ first rest best limits, w.candidates = first :: rest ∧
      Search.searchLast (fun mid => prepareEnd project encoder client plan w.sourceEvents policy
          (w.candidates.getD mid.toNat 0))
        (fun r => !r.prepared.inputBudget.overBudget) 0 (w.candidates.length - 1) = .ok best ∧
      outputTokenLimitsForClient client = .ok limits ∧
      fitTargets (prepareEnd project encoder client plan w.sourceEvents) policy limits.minimum
        (best.getD .empty) (reducedTargets w first) = .ok result := by
  unfold largestFitting at h
  split at h
  · rename_i hnone
    exact .inl ⟨hnone, (Except.ok.inj h).symm⟩
  · rename_i first rest hcands
    obtain ⟨best, hbest, h⟩ := bind_eq_ok.mp h
    obtain ⟨limits, hlims, h⟩ := bind_eq_ok.mp h
    exact .inr ⟨first, rest, best, limits, hcands, hbest, mapError_eq_ok.mp hlims, h⟩

/-- The best request of the bisection: none, or one that was prepared for a candidate and fits. -/
theorem searchLast_prepared {best : Option PreparedCompactionRequest}
    (h : Search.searchLast (fun mid => prepareEnd project encoder client plan w.sourceEvents policy
          (w.candidates.getD mid.toNat 0))
        (fun r => !r.prepared.inputBudget.overBudget) 0 (w.candidates.length - 1) = .ok best) :
    ∃ i, Search.bisect false (fun mid => (prepareEnd project encoder client plan w.sourceEvents policy
          (w.candidates.getD mid.toNat 0)).map fun r => !r.prepared.inputBudget.overBudget) 0
        (w.candidates.length - 1) = .ok i ∧
      (i = -1 ∧ best = none ∨ ∃ r e, best = some r ∧ w.candidates[i.toNat]? = some e ∧
        prepareEnd project encoder client plan w.sourceEvents policy e = .ok r ∧
        r.prepared.inputBudget.fits = true) := by
  rcases Search.searchLast_bisect _ _ 0 _ (Int.le_refl 0) with
    ⟨err, herr, -⟩ | ⟨found, i, hfound, hi, hcases⟩
  · rw [h] at herr
    cases herr
  · rw [h] at hfound
    cases hfound
    refine ⟨i, hi, hcases.imp_right ?_⟩
    rintro ⟨r, hbest, hnonneg, hprep, hfits⟩
    have hlt : i.toNat < w.candidates.length := by
      rcases Search.bisect_spec hi with hnone | ⟨-, hhi, -⟩
      · omega
      · omega
    rw [getD_eq_getElem?_getD, List.getElem?_eq_getElem hlt, Option.getD_some] at hprep
    exact ⟨r, _, hbest, List.getElem?_eq_getElem hlt, hprep,
      by simpa [InputBudgetAssessment.overBudget] using hfits⟩

/-- Whatever the estimates are, the result is empty or was prepared for a safe end and fits. -/
theorem largestFitting_fits (h : largestFitting project encoder client plan w policy = .ok result) :
    result = .empty ∨ result.sourceEnd ∈ w.candidates ∧ result.prepared.inputBudget.fits = true ∧
      ∃ maxOutputTokens, prepareEnd project encoder client plan w.sourceEvents
        { policy with maxOutputTokens } result.sourceEnd = .ok result := by
  rcases largestFitting_cases h with ⟨-, hemp⟩ | ⟨first, rest, best, limits, hcands, hbest, -, hfit⟩
  · exact .inl hemp
  rcases fitTargets_cases hfit with ⟨rfl, -⟩ | ⟨e, he, -, hfits, maxOutputTokens, hprep⟩
  · obtain ⟨i, -, ⟨-, rfl⟩ | ⟨r, e, rfl, hget, hprep, hfits⟩⟩ := searchLast_prepared hbest
    · exact .inl rfl
    · obtain ⟨hend, -⟩ := prepareEnd_ok hprep
      exact .inr ⟨hend ▸ mem_of_getElem? hget, hfits, policy.maxOutputTokens, hend.symm ▸ hprep⟩
  · obtain ⟨hend, -⟩ := prepareEnd_ok hprep
    have hmem : e ∈ w.candidates := mem_reducedTargets (hcands ▸ mem_cons_self) he
    exact .inr ⟨hend ▸ hmem, hfits, maxOutputTokens, hend.symm ▸ hprep⟩

variable {estimate : Nat → Int}
  (hest : Estimates project encoder client w.sourceEvents policy estimate)
  (hmono : ∀ m n, m ≤ n → estimate m ≤ estimate n) (hord : StrictlyOrdered w.sourceEvents)
include hest hord

include hmono in
/-- With an estimate that grows with the source the result ends at or after every safe end that fits with
the whole allowance. -/
theorem largestFitting_largest (h : largestFitting project encoder client plan w policy = .ok result)
    {e : Int} (he : e ∈ w.candidates)
    (hr : prepareEnd project encoder client plan w.sourceEvents policy e = .ok r)
    (hfits : r.prepared.inputBudget.fits = true) : e ≤ result.sourceEnd := by
  have hsort : w.candidates.Pairwise (· < ·) := safeEnds_pairwise hord _ _
  rcases largestFitting_cases h with ⟨hnone, -⟩ | ⟨first, rest, best, limits, -, hbest, -, hfit⟩
  · rw [hnone] at he
    cases he
  obtain ⟨i, hi, hbest⟩ := searchLast_prepared hbest
  obtain ⟨k, hk⟩ := List.getElem?_of_mem he
  have hlt : k < w.candidates.length := (List.getElem?_eq_some_iff.mp hk).1
  -- a smaller source has a smaller estimate, so no end that fits lies above one that does not
  have hki : (k : Int) ≤ i := by
    refine Search.bisect_last (fun a b ha hab hb hpass hfail => ?_) hi (by omega) (by omega) ?_
    · obtain ⟨rb, hrb, hfitsb⟩ := map_eq_ok.mp hpass
      obtain ⟨ra, hra, hfitsa⟩ := map_eq_ok.mp hfail
      have hle := Search.getD_le (hsort.imp Int.le_of_lt) (Int.toNat_le_toNat hab) (by omega)
      have hestimate := hmono (w.candidates.getD a.toNat 0 - plan.eventSequenceStart + 1).toNat
        (w.candidates.getD b.toNat 0 - plan.eventSequenceStart + 1).toNat (by omega)
      have hb := (prepareEnd_fits_iff hest hrb).mp
        (by simpa [InputBudgetAssessment.overBudget] using hfitsb)
      have ha := (prepareEnd_fits_iff hest hra).mpr (by omega)
      simp [InputBudgetAssessment.overBudget, ha] at hfitsa
    · rw [Int.toNat_natCast, getD_eq_getElem?_getD, hk, Option.getD_some, hr]
      simp [Except.map, InputBudgetAssessment.overBudget, hfits]
  have hbestEnd : e ≤ (best.getD .empty).sourceEnd := by
    rcases hbest with ⟨rfl, -⟩ | ⟨r', e', rfl, hget, hprep, -⟩
    · omega
    · rw [Option.getD_some, (prepareEnd_ok hprep).1]
      have := Search.getD_le (hsort.imp Int.le_of_lt) (show k ≤ i.toNat by omega)
        (List.getElem?_eq_some_iff.mp hget).1
      simpa [hk, hget] using this
  rcases fitTargets_cases hfit with ⟨rfl, -⟩ | ⟨x, -, hx, -, maxOutputTokens, hprep⟩
  · exact hbestEnd
  · have := (prepareEnd_ok hprep).1
    omega

/-- An empty result: even the smallest safe end is too large for the smallest allowance. -/
theorem largestFitting_empty (hwin : 0 ≤ client.capabilities.contextWindowTokens)
    (hhalf : policy.maxOutputTokens ≤ client.capabilities.contextWindowTokens / 2)
    (h : largestFitting project encoder client plan w policy = .ok .empty) {first : Int}
    (hfst : w.candidates.head? = some first) {limits : OutputTokenLimits}
    (hlims : outputTokenLimitsForClient client = .ok limits)
    (hr : prepareEnd project encoder client plan w.sourceEvents
      { policy with maxOutputTokens := max 1 limits.minimum } first = .ok r) :
    r.prepared.inputBudget.fits = false := by
  rw [← Bool.not_eq_true, prepareEnd_fits_iff hest hr]
  rcases largestFitting_cases h with ⟨hnone, -⟩ |
    ⟨first', rest, best, limits', hcands, hbest, hlims', hfit⟩
  · rw [hnone] at hfst
    cases hfst
  rw [hlims] at hlims'
  cases hlims'
  rw [hcands] at hfst
  cases hfst
  have hpos : 0 < first := safeEnd_pos hord (hcands ▸ mem_cons_self : first ∈ w.candidates)
  rcases fitTargets_cases hfit with ⟨hemp, hall⟩ | ⟨e, he, -, -, _, hprep⟩
  · -- the first end is a target, and it was left out
    rcases hall first (first_mem_reducedTargets w first) with hle | ⟨c, hc, -, hsm | ⟨c', hc', hover⟩⟩
    · rw [← hemp] at hle
      change first ≤ 0 at hle
      omega
    · rw [fittedPolicy_eq hest hc hwin hhalf] at hsm
      omega
    · -- the allowance its estimate leaves is one it fits with
      have hfitted := fittedPolicy_eq hest hc hwin hhalf
      dsimp only [fittedPolicy] at hfitted
      rw [← Bool.not_eq_true, prepareEnd_fits_iff hest hc'] at hover
      omega
  · have hend := (prepareEnd_ok hprep).1
    have : 0 < e := safeEnd_pos hord (mem_reducedTargets (hcands ▸ mem_cons_self) he)
    change 0 = e at hend
    omega

end

/-! ## The runner's view -/

/-- The budget of a request as the runner model has it. -/
def PreparedCompactionRequest.budget (r : PreparedCompactionRequest) : InputBudget :=
  ⟨r.prepared.inputBudget.estimatedInputTokens, r.prepared.inputBudget.usableInputTokens⟩

@[simp]
theorem PreparedCompactionRequest.budget_fits (r : PreparedCompactionRequest) :
    r.budget.fits = r.prepared.inputBudget.fits := rfl

/-- The answers of a run whose requests are prepared by the encoder and the client. -/
def answersFor (project : Bytes → List RenderedMedia → Bytes) (encoder : SourceEncoder ε)
    (client : Client ε) (policy : SendPolicy) (cause : CandidateError ε → Cause) (plan : Plan)
    (events : List SourceEvent) (a : Answers) : Answers :=
  { a with
    prepare := fun sourceEnd maxOutputTokens =>
      ((prepareEnd project encoder client plan events { policy with maxOutputTokens } sourceEnd).map
        PreparedCompactionRequest.budget).mapError cause
    policyMaxOutputTokens := policy.maxOutputTokens
    minimumOutputTokens :=
      ((outputTokenLimitsForClient client).map OutputTokenLimits.minimum).mapError (cause ∘ .prepare) }

section
variable {plan : Plan} {w : BoundaryWindow} {policy : SendPolicy} {a : Answers}
  {cause : CandidateError ε → Cause}

theorem prepareCandidate_answersFor (hcause : cause .mismatch = .unclassified)
    (events : List SourceEvent) (sourceEnd maxOutputTokens : Int) :
    prepareCandidate plan events
        (answersFor project encoder client policy cause plan events a) sourceEnd maxOutputTokens =
      ((prepareEnd project encoder client plan events { policy with maxOutputTokens } sourceEnd).map
        PreparedCompactionRequest.budget).mapError cause := by
  unfold prepareCandidate
  dsimp only
  split
  · rename_i hcnt
    rw [prepareEnd, if_pos hcnt]
    simp [Except.map, Except.mapError, hcause]
  · rfl

theorem tryTargets_fitTargets
    (prepare : SendPolicy → Int → Except (CandidateError ε) PreparedCompactionRequest)
    (prepared : Int → Int → Except Cause InputBudget)
    (hend : ∀ policy e r, prepare policy e = .ok r → r.sourceEnd = e)
    (hsame : ∀ e maxOutputTokens, prepared e maxOutputTokens =
      ((prepare { policy with maxOutputTokens } e).map PreparedCompactionRequest.budget).mapError cause)
    (minimum : Int) (best : PreparedCompactionRequest) : ∀ targets : List Int,
    tryTargets prepared policy.maxOutputTokens minimum best.sourceEnd targets =
      ((fitTargets prepare policy minimum best targets).map (·.sourceEnd)).mapError cause
  | [] => rfl
  | e :: targets => by
    have ih := tryTargets_fitTargets prepare prepared hend hsame minimum best targets
    rw [tryTargets, fitTargets]
    split
    · exact ih
    have hfst := hsame e policy.maxOutputTokens
    cases hcand : prepare policy e with
    | error err =>
      rw [hcand] at hfst
      rw [hfst]
      rfl
    | ok candidate =>
      rw [hcand] at hfst
      rw [hfst]
      dsimp only [Except.map, Except.mapError]
      rw [PreparedCompactionRequest.budget_fits, InputBudgetAssessment.overBudget]
      cases hfits : candidate.prepared.inputBudget.fits with
      | true => exact congrArg Except.ok (hend _ _ _ hcand).symm
      | false =>
        have hfitted : policy.maxOutputTokens -
            (candidate.budget.estimatedInputTokens - candidate.budget.usableInputTokens) =
              (fittedPolicy policy candidate).maxOutputTokens := rfl
        have hagain : prepared e (fittedPolicy policy candidate).maxOutputTokens =
            ((prepare (fittedPolicy policy candidate) e).map
              PreparedCompactionRequest.budget).mapError cause := hsame e _
        simp only [Bool.not_false, if_true, Bool.false_eq_true, if_false, hfitted]
        by_cases hsm : (fittedPolicy policy candidate).maxOutputTokens < max 1 minimum
        · rw [if_pos hsm, if_pos hsm]
          exact ih
        rw [if_neg hsm, if_neg hsm, hagain]
        cases hsecond : prepare (fittedPolicy policy candidate) e with
        | error err => rfl
        | ok again =>
          dsimp only [Except.map, Except.mapError]
          rw [PreparedCompactionRequest.budget_fits]
          by_cases hfits : again.prepared.inputBudget.fits = true
          · rw [if_pos hfits, if_pos hfits]
            exact congrArg Except.ok (hend _ _ _ hsecond).symm
          · rw [if_neg hfits, if_neg hfits]
            exact ih

/-- The runner's `largestFittingCompactionRequest` is the source end of the request found here. -/
theorem largestFitting_sourceEnd (hcause : cause .mismatch = .unclassified) :
    largestFittingCompactionRequest plan w
        (answersFor project encoder client policy cause plan w.sourceEvents a) =
      ((largestFitting project encoder client plan w policy).map (·.sourceEnd)).mapError cause := by
  have hprep := @prepareCandidate_answersFor ε project encoder client plan policy a cause hcause
    w.sourceEvents
  have hpol : (answersFor project encoder client policy cause plan w.sourceEvents
      a).policyMaxOutputTokens = policy.maxOutputTokens := rfl
  have hminimum : (answersFor project encoder client policy cause plan w.sourceEvents
      a).minimumOutputTokens = ((outputTokenLimitsForClient client).map
        OutputTokenLimits.minimum).mapError (cause ∘ .prepare) := rfl
  generalize answersFor project encoder client policy cause plan w.sourceEvents a = answers at *
  unfold largestFittingCompactionRequest largestFitting reducedTargets
  cases hcands : w.candidates with
  | nil => rfl
  | cons first rest =>
    dsimp only
    have htest : (fun mid : Int => (prepareCandidate plan w.sourceEvents answers
        ((first :: rest).getD mid.toNat 0) answers.policyMaxOutputTokens).map InputBudget.fits) =
        fun mid => ((prepareEnd project encoder client plan w.sourceEvents policy
          ((first :: rest).getD mid.toNat 0)).map
            fun r => !r.prepared.inputBudget.overBudget).mapError cause := by
      funext mid
      rw [hpol, hprep]
      cases prepareEnd project encoder client plan w.sourceEvents policy
        ((first :: rest).getD mid.toNat 0) with
      | error err => rfl
      | ok r => simp [Except.map, Except.mapError, InputBudgetAssessment.overBudget]
    rw [htest, Search.bisect, Search.bisectLoop_mapError, ← Search.bisect]
    rcases Search.searchLast_bisect
      (fun mid => prepareEnd project encoder client plan w.sourceEvents policy
        ((first :: rest).getD mid.toNat 0))
      (fun r => !r.prepared.inputBudget.overBudget) 0 (((first :: rest).length : Int) - 1)
      (Int.le_refl 0) with ⟨err, hsearch, hbisect⟩ | ⟨found, j, hsearch, hbisect, hfound⟩
    · rw [hsearch, hbisect]
      rfl
    rw [hsearch, hbisect]
    have hbest : (if j < 0 then 0 else (first :: rest).getD j.toNat 0) =
        (found.getD .empty).sourceEnd := by
      rcases hfound with ⟨rfl, rfl⟩ | ⟨r, rfl, hj, hr, -⟩
      · rfl
      · rw [if_neg (by omega)]
        exact (prepareEnd_ok hr).1.symm
    dsimp only [Except.mapError]
    rw [hbest, hminimum, hpol]
    cases outputTokenLimitsForClient client with
    | error err => rfl
    | ok limits =>
      exact tryTargets_fitTargets (prepareEnd project encoder client plan w.sourceEvents)
        (prepareCandidate plan w.sourceEvents answers) (fun _ _ _ hr => (prepareEnd_ok hr).1) hprep
        limits.minimum (found.getD .empty) _

end

/-- **The largest request that fits.** For every event list, atomic groups, encoder and client, with the
client and the policy `compactionModel` derives (turning manual thinking off leaves the capabilities as
they are) for a window of at least two tokens: when nothing fails, the result is empty or the request of
a safe end that fits its budget. If the events are in order, as every loaded window has them, and the
estimate grows with the number of events and does not depend on the allowance, the result ends at or
after every safe end that fits with the whole allowance, and it is empty only if the smallest safe end
does not fit even with the smallest allowance, the client's minimum but at least one token. -/
theorem largestFitting_spec (project : Bytes → List RenderedMedia → Bytes) (encoder : SourceEncoder ε)
    (base client : Client ε) (withoutManualThinking : Option (Except (ClientError ε) (Client ε)))
    (hsame : ∀ c, withoutManualThinking = some (.ok c) → c.capabilities = base.capabilities)
    (policy : SendPolicy) (hmodel : compactionModel base withoutManualThinking = .ok (client, policy))
    (hwindow : 2 ≤ base.capabilities.contextWindowTokens) (plan : Plan)
    (events witnessEvents : List SourceEvent) (groups : List AtomicGroup)
    (result : PreparedCompactionRequest)
    (h : largestFitting project encoder client plan ⟨events, witnessEvents, groups⟩ policy =
      .ok result) :
    (result = .empty ∨
      result.sourceEnd ∈ safeCompactionSourceEndsWithWitness events witnessEvents groups ∧
      result.prepared.inputBudget.fits = true ∧
      ∃ maxOutputTokens, prepareEnd project encoder client plan events
        { policy with maxOutputTokens } result.sourceEnd = .ok result) ∧
    ∀ estimate : Nat → Int, StrictlyOrdered events →
      Estimates project encoder client events policy estimate →
      (∀ m n, m ≤ n → estimate m ≤ estimate n) →
      (∀ e ∈ safeCompactionSourceEndsWithWitness events witnessEvents groups, ∀ r,
        prepareEnd project encoder client plan events policy e = .ok r →
        r.prepared.inputBudget.fits = true → e ≤ result.sourceEnd) ∧
      (result = .empty → ∀ first,
        (safeCompactionSourceEndsWithWitness events witnessEvents groups).head? = some first →
        ∀ limits, outputTokenLimitsForClient client = .ok limits → ∀ r,
          prepareEnd project encoder client plan events
            { policy with maxOutputTokens := max 1 limits.minimum } first = .ok r →
          r.prepared.inputBudget.fits = false) := by
  obtain ⟨rfl, hclient⟩ := compactionModel_ok hmodel
  have hcaps : client.capabilities = base.capabilities := by
    rcases hclient with rfl | hclient
    · rfl
    · exact hsame client hclient
  obtain ⟨-, hhalf⟩ := summaryPolicy_allowance hwindow
  refine ⟨largestFitting_fits h, fun estimate hordered hest hmono => ⟨fun e he r hr hfits => ?_, ?_⟩⟩
  · exact largestFitting_largest hest hmono hordered h he hr hfits
  · rintro rfl first hfirst limits hlimits r hr
    exact largestFitting_empty hest hordered (by rw [hcaps]; omega) (by rw [hcaps]; exact hhalf) h
      hfirst hlimits hr

/-- One byte for every event, in the place of the system prompt. -/
def countingEncoder : SourceEncoder Unit where
  renderEventSource events := .ok (List.replicate events.length 49)
  compactionRequestBundle text :=
    .ok { bundle := { messages := [], toolResults := [], systemPrompt := text } }

/-- A client that counts fifteen tokens for every event, and one for the rest. -/
def countingClient : Client Unit where
  capabilities := { contextWindowTokens := 100 }
  outputTokenLimits := some (.ok ⟨10, true⟩)
  prepare input := .ok
    { body := [123, 125], inputTokenEstimate := 15 * input.context.bundle.systemPrompt.length + 1 }

theorem countingClient_estimates (events : List SourceEvent) (policy : SendPolicy) :
    Estimates (fun body _ => body) countingEncoder countingClient events policy
      fun n => 15 * min n events.length + 1 := by
  intro n text context maxOutputTokens prepared htext hctx hprepared
  cases htext
  cases hctx
  unfold prepareRequest countingClient at hprepared
  simp only [length_replicate, length_take, cons_ne_nil, if_false] at hprepared
  cases hprepared
  rfl

/-- Two of the four events of `twoTurnBoundary` fit with an allowance of half of the window, and the end
after all four does not. -/
theorem largestFitting_spec_twoTurn :
    ∃ result, largestFitting (fun body _ => body) countingEncoder countingClient ⟨1, 1, 4, 1, 4⟩
        ⟨twoTurnBoundary.events, twoTurnBoundary.events, []⟩
        (summaryPolicy countingClient.capabilities) = .ok result ∧
      result.sourceEnd = 2 ∧ result.prepared.inputBudget.fits = true ∧
      ∀ e ∈ safeCompactionSourceEndsWithWitness twoTurnBoundary.events twoTurnBoundary.events [], ∀ r,
        prepareEnd (fun body _ => body) countingEncoder countingClient ⟨1, 1, 4, 1, 4⟩
          twoTurnBoundary.events (summaryPolicy countingClient.capabilities) e = .ok r →
        r.prepared.inputBudget.fits = true → e ≤ 2 := by
  obtain ⟨result, hresult, hend⟩ : ∃ result ∈ (largestFitting (fun body _ => body) countingEncoder
      countingClient ⟨1, 1, 4, 1, 4⟩ ⟨twoTurnBoundary.events, twoTurnBoundary.events, []⟩
      (summaryPolicy countingClient.capabilities)).toOption, result.sourceEnd = 2 := by
    decide +kernel
  have hok := Fallible.mem_toOption hresult
  obtain ⟨hchosen, hbest⟩ := largestFitting_spec _ countingEncoder countingClient countingClient none
    (by simp) _ rfl (by decide) _ _ _ _ result hok
  obtain ⟨hlargest, -⟩ := hbest _ (by decide) (countingClient_estimates _ _) (by omega)
  rw [hend] at hlargest
  rcases hchosen with rfl | ⟨-, hfits, -⟩
  · cases hend
  · exact ⟨result, hok, hend, hfits, hlargest⟩

theorem largestFitting_sourceEnd_twoTurn :
    largestFittingCompactionRequest ⟨1, 1, 4, 1, 4⟩
      ⟨twoTurnBoundary.events, twoTurnBoundary.events, []⟩
      (answersFor (fun body _ => body) countingEncoder countingClient
        (summaryPolicy countingClient.capabilities) (fun _ => .unclassified) ⟨1, 1, 4, 1, 4⟩
        twoTurnBoundary.events (truncatingAnswers 0)) = .ok 2 :=
  (largestFitting_sourceEnd rfl).trans (by decide +kernel)

end Compaction
