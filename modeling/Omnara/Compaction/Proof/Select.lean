import Omnara.Compaction.Planner

/-!
# Boundary selection stays inside the candidates

`selectRetainFromEventSequence` tries three strategies. Each of them picks a member of
`allowedEnds` (the safe ends inside the range of the boundary input) or declines with `0`, and the
last one declines only when there is no allowed end (`select_spec`). Everything the callers need
about the chosen boundary follows from that membership (`mem_allowedEnds`, `mem_safeEndsWithWitness`).
-/

namespace Compaction

open List

variable {w events : List SourceEvent} {groups : List AtomicGroup} {e : Int}
  {input : RetainBoundaryInput}

/-! ## Safe ends -/

theorem isSafeEnd_iff {x : SourceEvent} :
    isSafeEnd w groups x = true ↔ compactionEventHasModelSemantics x = true ∧
      compactionEventEndsSettledStep x (latestModelOutputByTurn w) = true ∧
      ∀ g ∈ groups, ¬ g.SplitBy x.sequence := by
  simp [isSafeEnd, and_assoc]

theorem mem_safeEndsWithWitness : e ∈ safeCompactionSourceEndsWithWitness events w groups ↔
      ∃ x ∈ events, isSafeEnd w groups x = true ∧ x.sequence = e := by
  simp [safeCompactionSourceEndsWithWitness, and_assoc]

theorem safeEnd_not_split (h : e ∈ safeCompactionSourceEndsWithWitness events w groups) :
    ∀ g ∈ groups, ¬ g.SplitBy e := by
  obtain ⟨x, -, hx, rfl⟩ := mem_safeEndsWithWitness.mp h
  exact (isSafeEnd_iff.mp hx).2.2

theorem safeEnds_pairwise (h : StrictlyOrdered events)
    (w : List SourceEvent) (groups : List AtomicGroup) :
    (safeCompactionSourceEndsWithWitness events w groups).Pairwise (· < ·) :=
  pairwise_map.mpr (h.pairwise.sublist filter_sublist)

theorem safeEnd_pos (ho : StrictlyOrdered events)
    (h : e ∈ safeCompactionSourceEndsWithWitness events w groups) : 0 < e := by
  obtain ⟨x, hx, -, rfl⟩ := mem_safeEndsWithWitness.mp h
  exact ho.pos hx

theorem mem_allowedEnds : e ∈ allowedEnds input ↔
    e ∈ safeCompactionSourceEnds input.events input.atomicGroups ∧
      input.sourceEventSequenceStart ≤ e ∧ e < input.maximumRetainFromSequence := by
  simp [allowedEnds]

/-! ## What the validation accepts -/

theorem eventsOrderedAfter_iff {previous : Int} :
    eventsOrderedAfter previous events = true ↔
      (previous :: events.map (·.sequence)).Pairwise (· < ·) := by
  induction events generalizing previous with
  | nil => simp [eventsOrderedAfter]
  | cons e events ih =>
    rw [eventsOrderedAfter, Bool.and_eq_true, ih, map_cons, pairwise_cons (a := previous)]
    constructor
    · rintro ⟨h1, h2⟩
      have hlt : previous < e.sequence := by simpa using h1
      refine ⟨fun x hx => ?_, h2⟩
      rcases mem_cons.mp hx with rfl | hx
      · exact hlt
      · exact Int.lt_trans hlt ((pairwise_cons.mp h2).1 x hx)
    · rintro ⟨h1, h2⟩
      exact ⟨by simpa using h1 e.sequence mem_cons_self, h2⟩

theorem validateAtomicGroups_ok : validateAtomicGroups groups = .ok () ↔ ∀ g ∈ groups, g.WellFormed := by
  induction groups with
  | nil => simp [validateAtomicGroups]
  | cons g groups ih =>
    rw [validateAtomicGroups, forall_mem_cons]
    split
    · rename_i hbad
      simp only [reduceCtorEq, false_iff, AtomicGroup.WellFormed]
      omega
    · rename_i hok
      rw [ih, AtomicGroup.WellFormed]
      exact ⟨fun h => ⟨by omega, h⟩, fun h => h.2⟩

theorem validate_ok_iff :
    validateRetainBoundaryInput input = .ok () ↔
      0 < input.sourceEventSequenceStart ∧ 0 < input.desiredRetainFromSequence ∧
      input.desiredRetainFromSequence ≤ input.maximumRetainFromSequence ∧
      StrictlyOrdered input.events ∧ ∀ g ∈ input.atomicGroups, g.WellFormed := by
  unfold validateRetainBoundaryInput StrictlyOrdered
  rw [← eventsOrderedAfter_iff, ← validateAtomicGroups_ok]
  split
  · simp only [reduceCtorEq, false_iff]; omega
  split
  · simp only [reduceCtorEq, false_iff]; omega
  split
  · rename_i h; simp_all
  · rename_i h1 h2 h3
    have h3' : eventsOrderedAfter 0 input.events = true := by simpa using h3
    exact ⟨fun h => ⟨by omega, by omega, by omega, h3', h⟩, fun h => h.2.2.2.2⟩

/-! ## The three strategies -/

/-- Both boundaries around a target are candidates (or the initial value, or `0`), and at least one
of them is positive when a candidate exists. -/
theorem boundariesAroundTarget_spec (p : Int → Bool) (cands : List Int) (before : Int) :
    ((boundariesAroundTarget p before cands).1 = before ∨
        (boundariesAroundTarget p before cands).1 ∈ cands) ∧
      ((boundariesAroundTarget p before cands).2 = 0 ∨
        (boundariesAroundTarget p before cands).2 ∈ cands) ∧
      ((∀ c ∈ cands, 0 < c) → 0 < before ∨ cands ≠ [] →
        0 < (boundariesAroundTarget p before cands).1 ∨
          0 < (boundariesAroundTarget p before cands).2) := by
  induction cands generalizing before with
  | nil => simp [boundariesAroundTarget]
  | cons c cands ih =>
    rw [boundariesAroundTarget]
    split
    · obtain ⟨h1, h2, h3⟩ := ih c
      refine ⟨.inr ?_, ?_, fun hpos _ => ?_⟩
      · rcases h1 with h1 | h1
        · rw [h1]; exact mem_cons_self
        · exact mem_cons_of_mem _ h1
      · exact h2.imp_right (mem_cons_of_mem _)
      · exact h3 (fun x hx => hpos x (mem_cons_of_mem _ hx))
          (.inl (hpos c mem_cons_self))
    · exact ⟨.inl rfl, .inr mem_cons_self, fun hpos _ => .inr (hpos c mem_cons_self)⟩

/-- The nearest-end loop is `boundariesAroundTarget` over the allowed ends. -/
theorem nearestEnds_eq (input : RetainBoundaryInput) (ends : List Int) (before : Int) :
    nearestEnds input before ends =
      boundariesAroundTarget (· ≤ input.desiredRetainFromSequence - 1) before
        (ends.filter fun e =>
          ¬ (e < input.sourceEventSequenceStart ∨ e ≥ input.maximumRetainFromSequence)) := by
  induction ends generalizing before with
  | nil => rfl
  | cons e ends ih =>
    rw [nearestEnds]
    split
    · rename_i hout
      rw [filter_cons_of_neg (by simpa only [decide_eq_true_eq, not_not] using hout), ih]
    · rename_i hin
      rw [filter_cons_of_pos (by simpa only [decide_eq_true_eq] using hin),
        boundariesAroundTarget, ih]
      simp only [decide_eq_true_eq]

theorem wholeTurnRetainFrom_mem (h : wholeTurnRetainFrom input
      (safeCompactionSourceEnds input.events input.atomicGroups) > 0) :
    wholeTurnRetainFrom input (safeCompactionSourceEnds input.events input.atomicGroups) - 1 ∈
      allowedEnds input := by
  rw [mem_allowedEnds]
  generalize hs : safeCompactionSourceEnds input.events input.atomicGroups = ends at h ⊢
  unfold wholeTurnRetainFrom at h ⊢
  dsimp only at h ⊢
  split at h
  · omega
  split at h
  · omega
  rename_i htok hturn
  rw [if_neg htok, if_neg hturn]
  generalize turnOpening _ _ _ = opening at h ⊢
  split at h
  · omega
  split at h
  · rename_i hrng hmem
    rw [if_neg hrng, if_pos hmem]
    exact ⟨hmem, by omega, by omega⟩
  · omega

theorem completeTurnSourceEnds_subset {cands : List Int} :
    ∀ e ∈ completeTurnSourceEnds events w cands, e ∈ cands :=
  fun _ he => (mem_filter.mp he).1

theorem wholeTurnBoundaryRetainFrom_mem (h : wholeTurnBoundaryRetainFrom input
      (safeCompactionSourceEnds input.events input.atomicGroups) > 0) :
    wholeTurnBoundaryRetainFrom input
      (safeCompactionSourceEnds input.events input.atomicGroups) - 1 ∈ allowedEnds input := by
  unfold wholeTurnBoundaryRetainFrom at h ⊢
  cases hlast : input.events.getLast? with
  | none => rw [hlast] at h; simp at h
  | some last =>
    simp only [hlast] at h ⊢
    split at h
    · omega
    rename_i htok
    rw [if_neg htok]
    set cands := (completeTurnSourceEnds input.events input.events
      (safeCompactionSourceEnds input.events input.atomicGroups)).filter fun e =>
        ¬ (e < input.sourceEventSequenceStart ∨ e ≥ input.maximumRetainFromSequence ∨
          e ≥ last.sequence) with hcands
    -- every eligible end is an allowed end
    have hsub : ∀ e ∈ cands, e ∈ allowedEnds input := by
      intro e he
      rw [hcands, mem_filter] at he
      have hr : ¬ (e < input.sourceEventSequenceStart ∨ e ≥ input.maximumRetainFromSequence ∨
        e ≥ last.sequence) := by simpa using he.2
      exact mem_allowedEnds.mpr ⟨completeTurnSourceEnds_subset e he.1, by omega, by omega⟩
    obtain ⟨h1, h2, -⟩ :=
      boundariesAroundTarget_spec (· ≤ input.desiredRetainFromSequence - 1) cands 0
    generalize boundariesAroundTarget _ 0 cands = ends at h h1 h2 ⊢
    split at h
    · rename_i hb
      rw [if_pos hb]
      rcases h1 with h1 | h1
      · omega
      · simpa using hsub _ h1
    split at h
    · rename_i hb ha
      rw [if_neg hb, if_pos ha]
      rcases h2 with h2 | h2
      · omega
      · simpa using hsub _ h2
    · omega

/-! ## Selection -/

/-- Selection finds a boundary exactly when an end is allowed, and the boundary it finds comes right
after an allowed end. -/
theorem select_spec (hv : validateRetainBoundaryInput input = .ok ()) :
    ∃ found, selectRetainFromEventSequence input = .ok found ∧
      (found = none ↔ allowedEnds input = []) ∧
      ∀ r, found = some r → r - 1 ∈ allowedEnds input := by
  have hpos : ∀ e ∈ allowedEnds input, 0 < e := fun e he =>
    safeEnd_pos (validate_ok_iff.mp hv).2.2.2.1 (mem_allowedEnds.mp he).1
  unfold selectRetainFromEventSequence
  rw [hv]
  dsimp only
  split
  · rename_i hw
    have hm := wholeTurnRetainFrom_mem hw
    exact ⟨_, rfl, by simp [ne_nil_of_mem hm], fun r hr => by cases hr; exact hm⟩
  split
  · rename_i hw
    have hm := wholeTurnBoundaryRetainFrom_mem hw
    exact ⟨_, rfl, by simp [ne_nil_of_mem hm], fun r hr => by cases hr; exact hm⟩
  obtain ⟨h1, h2, h3⟩ := boundariesAroundTarget_spec
    (· ≤ input.desiredRetainFromSequence - 1) (allowedEnds input) 0
  rw [allowedEnds, ← nearestEnds_eq] at h1 h2 h3
  generalize nearestEnds input 0 _ = ends at h1 h2 h3 ⊢
  have hbef : ends.1 > 0 → ends.1 ∈ allowedEnds input := fun h => h1.resolve_left (by omega)
  have haft : ends.2 > 0 → ends.2 ∈ allowedEnds input := fun h => h2.resolve_left (by omega)
  split
  · rename_i hb
    have hm := hbef hb.1
    exact ⟨_, rfl, by simp [ne_nil_of_mem hm], fun r hr => by cases hr; simpa using hm⟩
  split
  · rename_i ha
    have hm := haft ha
    exact ⟨_, rfl, by simp [ne_nil_of_mem hm], fun r hr => by cases hr; simpa using hm⟩
  split
  · rename_i hb
    have hm := hbef hb
    exact ⟨_, rfl, by simp [ne_nil_of_mem hm], fun r hr => by cases hr; simpa using hm⟩
  · rename_i ha hb
    refine ⟨none, rfl, ⟨fun _ => ?_, fun _ => rfl⟩, fun r hr => by cases hr⟩
    by_contra hne
    rcases h3 hpos (.inr hne) with h | h
    · exact hb h
    · exact ha h

theorem candidates_ok (hv : validateRetainBoundaryInput input = .ok ()) :
    retainFromEventSequenceCandidates input = .ok ((allowedEnds input).map (· + 1)) := by
  unfold retainFromEventSequenceCandidates
  rw [hv]

/-- **Selection and candidates agree**: a boundary is found exactly when there is a candidate, it is
one of the candidates, and the prefix before it is a safe source inside the allowed range that
splits no atomic group. -/
theorem selectRetainFrom_mem_candidates (input : RetainBoundaryInput)
    (hv : validateRetainBoundaryInput input = .ok ()) :
    ∃ candidates found, retainFromEventSequenceCandidates input = .ok candidates ∧
      selectRetainFromEventSequence input = .ok found ∧
      (found.isSome ↔ candidates ≠ []) ∧
      ∀ r, found = some r → r ∈ candidates ∧
        r - 1 ∈ safeCompactionSourceEnds input.events input.atomicGroups ∧
        input.sourceEventSequenceStart ≤ r - 1 ∧ r ≤ input.maximumRetainFromSequence ∧
        ∀ g ∈ input.atomicGroups, ¬ (g.startSequence < r ∧ r ≤ g.endSequence) := by
  obtain ⟨found, hsel, hnone, hmem⟩ := select_spec hv
  refine ⟨_, found, candidates_ok hv, hsel, ?_, fun r hr => ?_⟩
  · rw [← Option.ne_none_iff_isSome, ne_eq, hnone, ne_eq, map_eq_nil_iff]
  · have hm := hmem r hr
    obtain ⟨hsafe, hlo, hhi⟩ := mem_allowedEnds.mp hm
    refine ⟨mem_map.mpr ⟨r - 1, hm, by omega⟩, hsafe, hlo, by omega, fun g hg hsplit => ?_⟩
    exact safeEnd_not_split hsafe g hg ⟨by omega, by omega⟩

/-- Two settled turns of two events each; the second opens at 3. -/
def twoTurnBoundary : RetainBoundaryInput where
  sourceEventSequenceStart := 1
  desiredRetainFromSequence := 4
  desiredRetainTokens := 10
  maximumRetainFromSequence := 5
  events := [
    { sequence := 1, turnId := 1, isOpeningEvent := true, kind := .agentInput,
      contentParts := Json.ascii "[1]" },
    { sequence := 2, turnId := 1, kind := .modelOutput, contentParts := Json.ascii "[1]" },
    { sequence := 3, turnId := 2, isOpeningEvent := true, kind := .agentInput,
      contentParts := Json.ascii "[1]" },
    { sequence := 4, turnId := 2, kind := .modelOutput, contentParts := Json.ascii "[1]" }]
  atomicGroups := [⟨.toolCallResult, 3, 4⟩]

theorem selectRetainFrom_mem_candidates_twoTurn :
    selectRetainFromEventSequence twoTurnBoundary = .ok (some 3) ∧
    ∃ candidates found, retainFromEventSequenceCandidates twoTurnBoundary = .ok candidates ∧
      selectRetainFromEventSequence twoTurnBoundary = .ok found ∧
      (found.isSome ↔ candidates ≠ []) ∧
      ∀ r, found = some r → r ∈ candidates ∧
        r - 1 ∈ safeCompactionSourceEnds twoTurnBoundary.events twoTurnBoundary.atomicGroups ∧
        twoTurnBoundary.sourceEventSequenceStart ≤ r - 1 ∧
        r ≤ twoTurnBoundary.maximumRetainFromSequence ∧
        ∀ g ∈ twoTurnBoundary.atomicGroups, ¬ (g.startSequence < r ∧ r ≤ g.endSequence) :=
  ⟨by decide +kernel, selectRetainFrom_mem_candidates twoTurnBoundary (by decide +kernel)⟩

end Compaction
