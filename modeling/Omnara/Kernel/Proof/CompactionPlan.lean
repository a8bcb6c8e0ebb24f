import Omnara.Compaction.Proof.Select
import Omnara.Kernel.CompactionPlan

/-!
# The planning pipeline never contradicts itself

Four stages look at the same boundary: the estimate of the recent tail, the clamp to the unanswered
opening, the selection with the search for a fitting boundary, and `planCheckpoint`. The invariant
carried through them is membership of the source end in `allowedEnds`: the boundary input the kernel
builds always validates (`boundaryInput_valid`), selection and search only hand on members
(`select_spec`, `firstFitting_spec`), and `planCheckpoint` accepts every member
(`planCheckpoint_of_allowed`). `planCompaction_safe` collects what follows for a returned plan,
including that the runner's own guard lets it through.
-/

namespace Kernel

open Compaction List

variable {events : List SourceEvent}

/-! ## The estimate and the clamp -/

theorem recentStart_mem (target : Int) : ∀ (older : List SourceEvent) (retainFrom tokens : Int),
    recentStart target retainFrom tokens older = retainFrom ∨
      ∃ e ∈ older, recentStart target retainFrom tokens older = e.sequence
  | [], _, _ => .inl rfl
  | e :: older, retainFrom, tokens => by
    rw [recentStart]
    split
    · exact .inr ⟨e, mem_cons_self, rfl⟩
    · rcases recentStart_mem target older e.sequence (tokens + estimateSourceEventTokens e) with
        h | ⟨x, hx, h⟩
      · exact .inr ⟨e, mem_cons_self, h⟩
      · exact .inr ⟨x, mem_cons_of_mem _ hx, h⟩

theorem retainFromForRecentEvents_mem (hne : events ≠ []) (target : Int) :
    ∃ e ∈ events, retainFromForRecentEvents events target = e.sequence := by
  unfold retainFromForRecentEvents
  cases hlast : events.getLast? with
  | none => exact absurd (List.getLast?_eq_none_iff.mp hlast) hne
  | some last =>
    have hmem : last ∈ events := mem_of_getLast? hlast
    dsimp only
    split
    · exact ⟨last, hmem, rfl⟩
    · rcases recentStart_mem target events.reverse last.sequence 0 with h | ⟨e, he, h⟩
      · exact ⟨last, hmem, h⟩
      · exact ⟨e, mem_reverse.mp he, h⟩

theorem openingRequires_iff {summ opening : Int} :
    modelCallOpeningRequiresVerbatimRetention events summ opening = true ↔
      summ < opening ∧ ∀ e ∈ events, opening < e.sequence → e.kind ≠ .modelOutput := by
  unfold modelCallOpeningRequiresVerbatimRetention openingEventsRequireVerbatimRetention
  split
  · simp only [Bool.false_eq_true, false_iff]
    omega
  · rename_i h
    rw [Bool.not_eq_true', any_eq_false]
    simp only [gt_iff_lt, Bool.and_eq_true, decide_eq_true_eq, not_and, ne_eq]
    exact ⟨fun h' => ⟨by omega, h'⟩, fun h' => h'.2⟩

section
variable {log : List SourceEvent} {groups : List AtomicGroup} {summ frontier : Int}

theorem retainLimits_bounds (hsumm : 0 ≤ summ) (hne : events ≠ [])
    (hin : ∀ e ∈ events, summ < e.sequence ∧ e.sequence ≤ frontier) (opening target : Int) :
    0 < (retainLimits events summ frontier opening target).1 ∧
      (retainLimits events summ frontier opening target).1 ≤
        (retainLimits events summ frontier opening target).2 := by
  obtain ⟨e, he, hr⟩ := retainFromForRecentEvents_mem hne target
  obtain ⟨hlo, hhi⟩ := hin e he
  unfold retainLimits
  dsimp only
  split
  · rename_i hopen
    have := (openingRequires_iff.mp hopen).1
    split <;> exact ⟨by omega, by omega⟩
  · exact ⟨by dsimp only; omega, by dsimp only; omega⟩

theorem boundaryInput_valid (hlog : StrictlyOrdered log) (hsumm : 0 ≤ summ)
    (hgrps : ∀ g ∈ groups, g.startSequence ≤ g.endSequence ∧ summ < g.startSequence)
    (hne : eventsBetween log summ frontier ≠ []) (opening target : Int) :
    validateRetainBoundaryInput (boundaryInput (eventsBetween log summ frontier) groups summ
      frontier opening target) = .ok () := by
  obtain ⟨h1, h2⟩ := retainLimits_bounds hsumm hne
    (fun e he => (mem_eventsBetween.mp he).2) opening target
  refine validate_ok_iff.mpr ⟨?_, h1, h2, hlog.eventsBetween summ frontier, fun g hg => ?_⟩
  · change 0 < summ + 1
    omega
  · obtain ⟨hle, hlt⟩ := hgrps g hg
    exact ⟨by omega, hle⟩

/-! ## The search for a fitting boundary -/

section
variable {ε : Type} {cands : List Int} {desired : Int} {fits : Int → Except ε Bool}

/-- `sort.Search` finds where the candidates at or after the desired one start. -/
theorem search_desired (hord : cands.Pairwise (· ≤ ·)) (desired : Int) {k : Nat}
    (hk : k < cands.length) :
    Search.search cands.length (fun i => cands.getD i 0 ≥ desired) ≤ k ↔
      desired ≤ cands.getD k 0 := by
  obtain ⟨-, hlt, hge⟩ := Search.search_spec (n := cands.length)
    (p := fun i => decide (cands.getD i 0 ≥ desired)) fun a b hab hb ha => by
      have := Search.getD_le hord hab hb
      simp only [ge_iff_le, decide_eq_true_eq] at ha ⊢
      omega
  refine ⟨fun h => by simpa using hge k h hk, fun h => ?_⟩
  by_contra hlow
  have := hlt k (by omega)
  simp only [ge_iff_le, decide_eq_false_iff_not] at this
  exact this h

/-- On ordered candidates the search returns a candidate at or after the desired one whose request
fits, whatever the other answers of the check are. -/
theorem firstFitting_spec {r : Int} (hord : cands.Pairwise (· ≤ ·))
    (h : firstFittingRetainFrom cands desired fits = .ok (some r)) :
    r ∈ cands ∧ desired ≤ r ∧ fits r = .ok true := by
  unfold firstFittingRetainFrom at h
  dsimp only at h
  split at h
  · cases h
  · rename_i best hbest
    split at h
    · cases h
    · rename_i hneg
      have hr : cands.getD best.toNat 0 = r := Option.some.inj (Except.ok.inj h)
      rcases Search.bisect_spec hbest with hm1 | ⟨hlo, hhi, hfit⟩
      · omega
      · subst hr
        have := (search_desired hord desired (k := best.toNat) (by omega)).mp (by omega)
        exact ⟨Search.getD_mem (by omega) hhi, this, hfit⟩

/-- The number of candidates `firstFittingRetainFrom` checks. -/
def fitsChecks (cands : List Int) (desired : Int) (fits : Int → Except ε Bool) : Nat :=
  let low := Search.search cands.length fun i => cands.getD i 0 ≥ desired
  Search.bisectTests true (fun mid => fits (cands.getD mid.toNat 0))
    ((cands.length - 1 : Int) - low + 1).toNat low (cands.length - 1)

/-- **The first boundary that fits.** If a larger candidate fits whenever a smaller one does, the search
returns the least candidate at or after the desired one that fits, and none only if none of them does,
after logarithmically many checks. -/
theorem firstFittingRetainFrom_least (hord : cands.Pairwise (· ≤ ·)) (desired : Int) {p : Int → Bool}
    (hfits : ∀ c ∈ cands, fits c = .ok (p c))
    (hmono : ∀ a ∈ cands, ∀ b ∈ cands, a ≤ b → p a = true → p b = true) :
    (∃ found, firstFittingRetainFrom cands desired fits = .ok found ∧
      (∀ r ∈ found, r ∈ cands ∧ desired ≤ r ∧ p r = true ∧
        ∀ c ∈ cands, desired ≤ c → p c = true → r ≤ c) ∧
      (found = none → ∀ c ∈ cands, desired ≤ c → p c = false)) ∧
    fitsChecks cands desired fits ≤ Nat.log 2 cands.length + 1 := by
  constructor
  · obtain ⟨best, hbest, hfirst⟩ := Search.bisect_first (fun mid => p (cands.getD mid.toNat 0))
      (Search.search cands.length fun i => cands.getD i 0 ≥ desired) (cands.length - 1)
      (fun i h1 h2 => hfits _ (Search.getD_mem (by omega) h2))
      (fun i j h1 hij hj => hmono _ (Search.getD_mem (by omega) (by omega)) _ (Search.getD_mem (by omega) hj)
        (Search.getD_le hord (by omega) (by omega)))
    have hresult : firstFittingRetainFrom cands desired fits =
        if best < 0 then .ok none else .ok (some (cands.getD best.toNat 0)) := by
      simp only [firstFittingRetainFrom, hbest]
    have hleast : ∀ c ∈ cands, desired ≤ c → p c = true →
        0 ≤ best ∧ cands.getD best.toNat 0 ≤ c := by
      intro c hc hle hp
      obtain ⟨k, hk, rfl⟩ := getElem_of_mem hc
      have hget : cands.getD k 0 = cands[k] := by simp [hk]
      have hlow := (search_desired hord desired hk).mpr (hget ▸ hle)
      have := hfirst k (by omega) (by omega) (by simpa [hk] using hp)
      exact ⟨by omega, hget ▸ Search.getD_le hord (by omega) hk⟩
    by_cases hneg : best < 0
    · rw [if_pos hneg] at hresult
      refine ⟨none, hresult, by simp, fun _ c hc hle => ?_⟩
      by_contra hp
      have := hleast c hc hle (by simpa using hp)
      omega
    · rw [if_neg hneg] at hresult
      obtain ⟨hmem, hle, hfit⟩ := firstFitting_spec hord hresult
      have hp := Except.ok.inj ((hfits _ hmem).symm.trans hfit)
      refine ⟨_, hresult, fun r hr => ?_, by simp⟩
      cases hr
      exact ⟨hmem, hle, hp, fun c hc hle hp => (hleast c hc hle hp).2⟩
  · have := Nat.lt_pow_succ_log_self (b := 2) (by decide) cands.length
    exact Search.bisectTests_le _ _ _ _ _ _ (by omega)

end

/-- Boundaries of which those from 6 on fit. -/
theorem firstFittingRetainFrom_least_six :
    (∃ r, firstFittingRetainFrom (ε := Empty) [2, 4, 6, 8] 4 (fun c => .ok (6 ≤ c)) = .ok (some r) ∧
      r = 6) ∧
    fitsChecks (ε := Empty) [2, 4, 6, 8] 4 (fun c => .ok (6 ≤ c)) ≤ Nat.log 2 4 + 1 := by
  refine And.imp_left ?_ (firstFittingRetainFrom_least (p := fun c => 6 ≤ c) (by decide) 4
    (fun _ _ => rfl) (by decide))
  rintro ⟨found, hfound, hleast, hnone⟩
  cases found with
  | none => exact absurd (hnone rfl 6 (by decide) (by decide)) (by decide)
  | some r =>
    obtain ⟨-, -, hfits, hle⟩ := hleast r rfl
    have hr := hle 6 (by decide) (by decide) (by decide)
    exact ⟨r, hfound, Int.le_antisymm hr (of_decide_eq_true hfits)⟩

/-! ## The checkpoint range -/

theorem checkRange_ok {start stop : Int} {groups : List AtomicGroup}
    (hg : ∀ g ∈ groups, g.WellFormed ∧ start ≤ g.startSequence ∧ ¬ g.SplitBy stop) :
    checkRangeSplitsNoGroup start stop groups = .ok () := by
  induction groups with
  | nil => rfl
  | cons g groups ih =>
    obtain ⟨⟨hw, hs, hns⟩, hrest⟩ := forall_mem_cons.mp hg
    unfold AtomicGroup.SplitBy at hns
    unfold AtomicGroup.WellFormed at hw
    rw [checkRangeSplitsNoGroup, if_neg (by omega)]
    split
    · exact ih hrest
    · -- the group starts inside the range, so it overlaps only if the range splits it
      rw [if_neg (by simp only [rangesOverlap, Bool.and_eq_true, decide_eq_true_eq]; omega)]
      exact ih hrest

theorem planCheckpoint_of_allowed {project agent : Uuid} {retainFrom : Int} (hsumm : 0 ≤ summ)
    (hgrps : ∀ g ∈ groups, g.startSequence ≤ g.endSequence ∧ summ < g.startSequence)
    (hlo : summ < retainFrom - 1) (hhi : retainFrom - 1 ≤ frontier)
    (hsplit : ∀ g ∈ groups, ¬ g.SplitBy (retainFrom - 1)) :
    planCheckpoint ⟨project, agent, frontier, summ, retainFrom, groups⟩ =
      if project = Uuid.nil ∨ agent = Uuid.nil then .error .projectAndAgentRequired
      else .ok (some ⟨project, agent, frontier, summ + 1, retainFrom - 1⟩) := by
  unfold planCheckpoint
  dsimp only
  split
  · rfl
  · rw [if_neg (by omega), if_neg (by omega), if_neg (by omega), if_neg (by omega),
      checkRange_ok fun g hg => ?_]
    obtain ⟨hle, hlt⟩ := hgrps g hg
    exact ⟨⟨by omega, hle⟩, by omega, hsplit g hg⟩

/-! ## The pipeline -/

/-- What planning can return: nothing, an error that is not about the boundary, or the plan that
ends at an allowed end of the kernel's boundary input. -/
theorem planCompaction_cases {ε : Type} (hlog : StrictlyOrdered log) (context : ContextRow)
    {checkpoint : Option Int} (hs : checkpoint.getD 0 = summ) (hsumm : 0 ≤ summ)
    (hgrps : ∀ g ∈ groups, g.startSequence ≤ g.endSequence ∧ summ < g.startSequence)
    (opening usable : Int) (fits : Int → Except ε Bool) {boundary : RetainBoundaryInput}
    (hb : boundary = boundaryInput (eventsBetween log summ context.inputEventSequence) groups summ
      context.inputEventSequence opening (recentTailTargetTokens usable))
    {result : Except (PlanFailure ε) (Option Plan)}
    (hresult : planCompactionForContext log context checkpoint groups usable opening fits =
      result) :
    result = .ok none ∨ (∃ err, result = .error (.fits err)) ∨
      result = .error (.plan .projectAndAgentRequired) ∨
      ∃ e ∈ allowedEnds boundary, result = .ok (some ⟨context.projectId, context.agentId,
        context.inputEventSequence, summ + 1, e⟩) := by
  subst hresult
  simp only [planCompactionForContext, hs, loadContextEvents_eq hlog.pairwise]
  split
  · exact .inl rfl
  split
  · exact .inl rfl
  rename_i hfront hlen
  have hne : eventsBetween log summ context.inputEventSequence ≠ [] := by
    intro hnil
    rw [hnil] at hlen
    simp at hlen
  have hv := boundaryInput_valid hlog hsumm hgrps hne opening
    (recentTailTargetTokens usable)
  rw [← hb] at hv ⊢
  obtain ⟨found, hsel, -, hmem⟩ := select_spec hv
  rw [hsel]
  cases found with
  | none => exact .inl rfl
  | some r0 =>
    -- narrowing the desired boundary to the selected one changes neither validity nor candidates
    have hr0 := mem_allowedEnds.mp (hmem r0 rfl)
    obtain ⟨hv1, hv2, hv3, hv4, hv5⟩ := validate_ok_iff.mp hv
    have hv' : validateRetainBoundaryInput { boundary with desiredRetainFromSequence := r0 } =
        .ok () :=
      validate_ok_iff.mpr ⟨hv1, by dsimp only; omega, by dsimp only; omega, hv4, hv5⟩
    dsimp only
    rw [clampRetainFromToModelBudget, candidates_ok hv']
    dsimp only
    have hord : ((allowedEnds { boundary with desiredRetainFromSequence := r0 }).map
        (· + 1)).Pairwise (· < ·) := by
      refine pairwise_map.mpr ((safeEnds_pairwise hv4 _ _).sublist filter_sublist
        |>.imp fun h => ?_)
      omega
    cases hfit : firstFittingRetainFrom
        ((allowedEnds { boundary with desiredRetainFromSequence := r0 }).map (· + 1)) r0 fits with
    | error err => exact .inr (.inl ⟨err, rfl⟩)
    | ok found =>
      cases found with
      | none => exact .inl rfl
      | some r =>
        obtain ⟨hr, -, -⟩ := firstFitting_spec (hord.imp Int.le_of_lt) hfit
        obtain ⟨e, he, rfl⟩ := mem_map.mp hr
        change e ∈ allowedEnds boundary at he
        obtain ⟨hsafe, hlo, hhi⟩ := mem_allowedEnds.mp he
        obtain ⟨x, hx, -, hxe⟩ := mem_safeEndsWithWitness.mp hsafe
        rw [hb] at hx hlo hsafe
        have hxin := (mem_eventsBetween.mp hx).2
        dsimp only
        rw [planCheckpoint_of_allowed hsumm hgrps (by omega) (by omega) (fun g hg => by
          rw [Int.add_sub_cancel]; exact safeEnd_not_split hsafe g hg)]
        by_cases hid : context.projectId = Uuid.nil ∨ context.agentId = Uuid.nil
        · rw [if_pos hid]
          exact .inr (.inr (.inl rfl))
        · rw [if_neg hid, Int.add_sub_cancel]
          exact .inr (.inr (.inr ⟨e, he, rfl⟩))

/-- **Planning is safe**: for every ordered log, checkpoint, list of groups that start after the
checkpoint and opening event that is either not summarized yet or answered, and for arbitrary
answers of the fits check, planning never fails on its own boundary, and a returned plan continues
the checkpoint, ends at a safe end up to the frontier, splits no group and leaves an unanswered
opening alone, so the runner's guard does not reject it. -/
theorem planCompaction_safe {ε : Type} (log : List SourceEvent) (hlog : StrictlyOrdered log)
    (context : ContextRow) (checkpoint : Option Int) (hsumm : 0 ≤ checkpoint.getD 0)
    (groups : List AtomicGroup)
    (hgroups : ∀ g ∈ groups, g.startSequence ≤ g.endSequence ∧ checkpoint.getD 0 < g.startSequence)
    (opening : Int)
    (hopening : checkpoint.getD 0 < opening ∨ ∃ e ∈ log, opening < e.sequence ∧
      e.sequence ≤ context.inputEventSequence ∧ e.kind = .modelOutput)
    (usable : Int) (fits : Int → Except ε Bool) :
    (∀ err, planCompactionForContext log context checkpoint groups usable opening fits =
        .error (.plan err) → err ≠ .desiredExceedsMaximum ∧ err ≠ .exceedsWatermark ∧
          ∀ start stop g, err ≠ .splitsAtomicGroup start stop g) ∧
    ∀ plan, planCompactionForContext log context checkpoint groups usable opening fits =
        .ok (some plan) →
      plan.eventSequenceStart = checkpoint.getD 0 + 1 ∧
      plan.eventSequenceEnd ∈ safeCompactionSourceEnds
        (eventsBetween log (checkpoint.getD 0) context.inputEventSequence) groups ∧
      plan.eventSequenceEnd ≤ context.inputEventSequence ∧
      (∀ g ∈ groups, ¬ g.SplitBy plan.eventSequenceEnd) ∧
      checkpoint.getD 0 < plan.eventSequenceEnd ∧
      ((∀ e ∈ log, opening < e.sequence → e.sequence ≤ context.inputEventSequence →
          e.kind ≠ .modelOutput) → plan.eventSequenceEnd < opening) ∧
      runnerRejectsOpening log plan opening = false := by
  have hcases := planCompaction_cases hlog context rfl hsumm hgroups opening usable fits rfl rfl
  refine ⟨fun err herr => ?_, fun plan hplan => ?_⟩
  · rcases hcases with h | ⟨err', h⟩ | h | ⟨e, -, h⟩ <;> rw [h] at herr <;> cases herr
    exact ⟨by decide, by decide, fun _ _ _ => by simp⟩
  · rcases hcases with h | ⟨err', h⟩ | h | ⟨e, he, h⟩ <;> rw [h] at hplan <;> cases hplan
    obtain ⟨hsafe, hlo, hhi⟩ := mem_allowedEnds.mp he
    obtain ⟨x, hx, -, hxe⟩ := mem_safeEndsWithWitness.mp hsafe
    have hxin := (mem_eventsBetween.mp hx).2
    -- without an answer the boundary input is clamped to the opening
    have hclamp : (∀ e ∈ log, opening < e.sequence → e.sequence ≤ context.inputEventSequence →
        e.kind ≠ .modelOutput) → e < opening := by
      intro hno
      have hsum : checkpoint.getD 0 < opening := by
        rcases hopening with h | ⟨m, hm, h1, h2, h3⟩
        · exact h
        · exact absurd h3 (hno m hm h1 h2)
      have hreq : modelCallOpeningRequiresVerbatimRetention
          (eventsBetween log (checkpoint.getD 0) context.inputEventSequence)
          (checkpoint.getD 0) opening = true :=
        openingRequires_iff.mpr ⟨hsum, fun m hm h1 =>
          hno m (mem_eventsBetween.mp hm).1 h1 (mem_eventsBetween.mp hm).2.2⟩
      simpa [boundaryInput, retainLimits, hreq] using hhi
    refine ⟨rfl, hsafe, by dsimp only; omega, safeEnd_not_split hsafe, by dsimp only; omega,
      hclamp, ?_⟩
    unfold runnerRejectsOpening
    rw [Bool.and_eq_false_iff]
    by_cases hreq : runnerOpeningRequiresVerbatimRetention log opening
        context.inputEventSequence = true
    · right
      have := hclamp ((runnerOpeningRequires_iff hlog.pairwise opening context.inputEventSequence).mp hreq)
      simp only [ge_iff_le, decide_eq_false_iff_not]
      omega
    · exact .inl (by simpa using hreq)

end

/-- The two turns of `twoTurnBoundary` at frontier 4, whose second turn is open at 3. -/
theorem planCompaction_safe_twoTurn :
    ∃ plan, planCompactionForContext (ε := Empty) twoTurnBoundary.events ⟨1, 1, 4⟩ none
        twoTurnBoundary.atomicGroups 40 3 (fun _ => .ok true) = .ok (some plan) ∧
      plan.eventSequenceStart = 1 ∧ plan.eventSequenceEnd = 2 ∧
      plan.eventSequenceEnd ∈ safeCompactionSourceEnds
        (eventsBetween twoTurnBoundary.events 0 4) twoTurnBoundary.atomicGroups ∧
      (∀ g ∈ twoTurnBoundary.atomicGroups, ¬ g.SplitBy plan.eventSequenceEnd) ∧
      runnerRejectsOpening twoTurnBoundary.events plan 3 = false := by
  have hplan : planCompactionForContext (ε := Empty) twoTurnBoundary.events ⟨1, 1, 4⟩ none
      twoTurnBoundary.atomicGroups 40 3 (fun _ => .ok true) = .ok (some ⟨1, 1, 4, 1, 2⟩) := rfl
  obtain ⟨hstart, hsafe, -, hsplit, -, -, hguard⟩ :=
    (planCompaction_safe (ε := Empty) twoTurnBoundary.events (by decide) ⟨1, 1, 4⟩ none (by decide)
      twoTurnBoundary.atomicGroups (by decide) 3 (.inl (by decide)) 40 (fun _ => .ok true)).2
      _ hplan
  exact ⟨_, hplan, hstart, rfl, hsafe, hsplit, hguard⟩

end Kernel
