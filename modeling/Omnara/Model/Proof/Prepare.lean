import Omnara.Model.Prepare

/-!
# A prepared request that fits its budget fits the window

`PrepareForSend` assesses a request by two numbers, the estimate of the body it returns and the tokens
usable for input. `prepareWithin_cases` says where they come from: the window with its reserve, or, once
the allowance was reduced to what the first body leaves, that body's estimate. In both cases the
allowance that is sent and an estimate within the usable tokens stay inside the window
(`prepareForSend_sound`), whatever the client estimates.
-/

namespace Model

open Fallible (bind_eq_ok ensure_eq_ok)
open Json (Bytes)
open ModelContext (RenderedMedia ModelWindow)

variable {ε : Type} {project : Bytes → List RenderedMedia → Bytes} {client : Client ε}

variable {prepared : PreparedRequest} {input : PrepareForSendInput}

theorem InputBudgetAssessment.fits_iff {a : InputBudgetAssessment} : a.fits = true ↔
    0 < a.estimatedInputTokens ∧ a.estimatedInputTokens ≤ a.usableInputTokens := by
  simp [InputBudgetAssessment.fits]

/-! ## The checks -/

theorem OutputTokenLimits.validate_ok {l : OutputTokenLimits} {maxOutputTokens : Int} {u : Unit}
    (h : (l.validate maxOutputTokens : Except (PrepareError ε) Unit) = .ok u) :
    l.minimum ≤ 0 ∨ l.minimum ≤ maxOutputTokens := by
  unfold OutputTokenLimits.validate at h
  split at h
  · cases h
  split at h
  · rename_i hmin
    exact hmin
  · cases h

/-! ## One preparation -/

/-- Whatever the client answers, the estimate a prepared request comes with is positive. -/
theorem prepareRequest_pos {input : PrepareInput}
    (h : prepareRequest project client input = .ok prepared) : 0 < prepared.inputTokenEstimate := by
  unfold prepareRequest at h
  split at h
  · cases h
  split at h
  · cases h
  split at h
  · cases h
    exact ModelContext.estimatePreparedRequest_pos _ _
  · cases h
    omega

/-- What is assessed: the first body under the whole allowance, or a second one under the allowance the
first one leaves. -/
theorem prepareWithin_cases {window : ModelWindow}
    (h : prepareWithin project client window input = .ok prepared) :
    ∃ first, prepareRequest project client input.toPrepareInput = .ok first ∧
      (prepared = first.assess input.policy.maxOutputTokens window.usableInputTokens ∧
          (input.reserveFullOutputAllowance = true ∨ input.policy.maxOutputTokens ≤ 0 ∨
            window.usableInputTokens < first.inputTokenEstimate ∨
            first.inputTokenEstimate + input.policy.maxOutputTokens ≤
              client.capabilities.contextWindowTokens - window.safetyMarginTokens) ∨
        ∃ again remaining,
          remaining = client.capabilities.contextWindowTokens - window.safetyMarginTokens -
            first.inputTokenEstimate ∧
          prepareRequest project client
            { input.toPrepareInput with policy := { input.policy with maxOutputTokens := remaining } } =
              .ok again ∧
          prepared = again.assess remaining first.inputTokenEstimate ∧
          input.reserveFullOutputAllowance = false ∧ 0 < input.policy.maxOutputTokens ∧
          first.inputTokenEstimate ≤ window.usableInputTokens ∧
          remaining < input.policy.maxOutputTokens) := by
  obtain ⟨first, hfst, h⟩ := bind_eq_ok.mp h
  refine ⟨first, hfst, ?_⟩
  dsimp only at h
  split at h
  · rename_i hreduce
    simp only [Bool.and_eq_true, Bool.not_eq_true', decide_eq_true_eq] at hreduce
    obtain ⟨⟨⟨hfull, hpos⟩, husable⟩, hless⟩ := hreduce
    obtain ⟨again, hagain, h⟩ := bind_eq_ok.mp h
    cases h
    exact .inr ⟨again, _, rfl, hagain, rfl, hfull, hpos, husable, hless⟩
  · rename_i hkeep
    cases h
    refine .inl ⟨rfl, ?_⟩
    simp only [Bool.and_eq_true, Bool.not_eq_true', decide_eq_true_eq, not_and] at hkeep
    by_cases hfull : input.reserveFullOutputAllowance = true
    · exact .inl hfull
    by_cases hpos : input.policy.maxOutputTokens ≤ 0
    · exact .inr (.inl hpos)
    by_cases husable : first.inputTokenEstimate ≤ window.usableInputTokens
    · have hroom := hkeep ⟨⟨by simpa using hfull, by omega⟩, husable⟩
      exact .inr (.inr (.inr (by omega)))
    · exact .inr (.inr (.inl (by omega)))

/-! ## The whole call -/

theorem prepareForSend_ok (h : prepareForSend project client input = .ok prepared) :
    ∃ limits, outputTokenLimitsForClient client = .ok limits ∧
      (limits.minimum ≤ 0 ∨ limits.minimum ≤ input.policy.maxOutputTokens) ∧
      prepareWithin project client (sendWindow client.capabilities limits input) input =
        .ok prepared := by
  obtain ⟨limits, hlims, h⟩ := bind_eq_ok.mp h
  obtain ⟨_, hval, h⟩ := bind_eq_ok.mp h
  obtain ⟨_, -, h⟩ := bind_eq_ok.mp h
  obtain ⟨_, -, h⟩ := bind_eq_ok.mp h
  exact ⟨limits, hlims, OutputTokenLimits.validate_ok hval, h⟩

/-- A request that reserves its whole allowance is prepared once and assessed by the rest of the
window. -/
theorem prepareForSend_full (h : prepareForSend project client input = .ok prepared)
    (hfull : input.reserveFullOutputAllowance = true) :
    ∃ first, prepareRequest project client input.toPrepareInput = .ok first ∧
      prepared = first.assess input.policy.maxOutputTokens
        (ModelWindow.usableInputTokens ⟨client.capabilities.contextWindowTokens,
          input.policy.maxOutputTokens,
          ModelContext.defaultSafetyMarginTokens client.capabilities.contextWindowTokens⟩) := by
  obtain ⟨limits, -, -, hwithin⟩ := prepareForSend_ok h
  obtain ⟨first, hfst, ⟨hprepared, -⟩ | ⟨_, _, -, -, -, hreduced, -⟩⟩ := prepareWithin_cases hwithin
  · refine ⟨first, hfst, ?_⟩
    simpa [sendWindow, modelWindowForRequest, hfull] using hprepared
  · rw [hfull] at hreduced
    cases hreduced

/-- The reserve of a request that does not reserve its whole allowance is at least the client's minimum,
and at least one token of an allowance of at least one. -/
theorem sendWindow_reserve (limits : OutputTokenLimits)
    (hwin : 2 ≤ client.capabilities.contextWindowTokens) (hpos : 0 < input.policy.maxOutputTokens)
    (hfull : input.reserveFullOutputAllowance = false) :
    max 1 limits.minimum ≤ (sendWindow client.capabilities limits input).outputReserveTokens := by
  simp only [sendWindow, modelWindowForRequest, hfull, Bool.false_eq_true, if_false, if_pos hpos,
    normalOutputHeadroomTokens]
  omega

/-- **A request that fits, fits the window.** For every window of at least two tokens, every policy with
a non-negative allowance, every client limit and whatever the client estimates at each preparation: if
the budget of the prepared request fits, then its estimate and its allowance together stay within the
window less the safety margin, and without an allowance the estimate stays within the window less its
output reserve and the margin; the allowance is at most the policy's, and at least one token and the
client's minimum if the policy has one. -/
theorem prepareForSend_sound (project : Bytes → List RenderedMedia → Bytes) (client : Client ε)
    (input : PrepareForSendInput) (prepared : PreparedRequest)
    (hwindow : 2 ≤ client.capabilities.contextWindowTokens)
    (hpolicy : 0 ≤ input.policy.maxOutputTokens)
    (h : prepareForSend project client input = .ok prepared)
    (hfits : prepared.inputBudget.fits = true) :
    ∃ limits, outputTokenLimitsForClient client = .ok limits ∧ (0 < prepared.maxOutputTokens →
        prepared.inputTokenEstimate + prepared.maxOutputTokens ≤
          client.capabilities.contextWindowTokens -
            (sendWindow client.capabilities limits input).safetyMarginTokens) ∧
      (prepared.maxOutputTokens = 0 →
        prepared.inputTokenEstimate ≤ client.capabilities.contextWindowTokens -
          (sendWindow client.capabilities limits input).outputReserveTokens -
          (sendWindow client.capabilities limits input).safetyMarginTokens) ∧
      0 ≤ prepared.maxOutputTokens ∧ prepared.maxOutputTokens ≤ input.policy.maxOutputTokens ∧
      (0 < input.policy.maxOutputTokens → max 1 limits.minimum ≤ prepared.maxOutputTokens) := by
  obtain ⟨limits, hlimits, hvalid, hwithin⟩ := prepareForSend_ok h
  refine ⟨limits, hlimits, ?_⟩
  have hcontext : (sendWindow client.capabilities limits input).contextTokens =
      client.capabilities.contextWindowTokens := rfl
  obtain ⟨first, hfirst, ⟨rfl, hroom⟩ |
    ⟨again, remaining, hremaining, hagain, rfl, hfull, hpos, husable, hless⟩⟩ :=
    prepareWithin_cases hwithin
  · -- the first body is returned, admitted by the window
    have hestimate := prepareRequest_pos hfirst
    obtain ⟨-, hle⟩ := InputBudgetAssessment.fits_iff.mp hfits
    have hreserve := (ModelWindow.le_usable_iff hestimate).mp hle
    dsimp only [PreparedRequest.assess] at hle ⊢
    refine ⟨fun hpos => ?_, fun _ => by omega, hpolicy, Int.le_refl _, fun hpos => by omega⟩
    rcases hroom with hfull | hzero | hover | hroom
    · -- the whole allowance is the reserve
      have : (sendWindow client.capabilities limits input).outputReserveTokens =
          input.policy.maxOutputTokens := by
        simp [sendWindow, hfull]
      omega
    · omega
    · omega
    · exact hroom
  · -- the second body has to stay within the estimate of the first
    have hestimate := prepareRequest_pos hfirst
    obtain ⟨-, hle⟩ := InputBudgetAssessment.fits_iff.mp hfits
    have hadmitted := (ModelWindow.le_usable_iff hestimate).mp husable
    have hreserve := sendWindow_reserve limits hwindow hpos hfull
    dsimp only [PreparedRequest.assess] at hle ⊢
    refine ⟨fun _ => by omega, fun hzero => by omega, by omega, by omega, fun _ => by omega⟩

/-- A client whose second body, prepared with a smaller allowance, is smaller. -/
def smallWindowClient : Client Unit where
  capabilities := { contextWindowTokens := 100 }
  outputTokenLimits := some (.ok ⟨10, true⟩)
  prepare input :=
    .ok { body := [123, 125], inputTokenEstimate := if input.policy.maxOutputTokens = 90 then 20 else 18 }

def smallWindowInput : PrepareForSendInput where
  context := ⟨⟨[], [], [], none, none, none, []⟩, []⟩
  policy := { maxOutputTokens := 90 }

/-- The first body leaves 75 of the 90 tokens asked for, and the second one fits with them. -/
theorem prepareForSend_sound_reduced :
    ∃ prepared, prepareForSend (fun body _ => body) smallWindowClient smallWindowInput = .ok prepared ∧
      prepared.maxOutputTokens = 75 ∧ prepared.inputTokenEstimate = 18 ∧
      prepared.inputTokenEstimate + prepared.maxOutputTokens ≤ 95 ∧ 10 ≤ prepared.maxOutputTokens := by
  obtain ⟨prepared, hprepared, hallowance, hestimate, hfits⟩ :
      ∃ prepared ∈ (prepareForSend (fun body _ => body) smallWindowClient smallWindowInput).toOption,
        prepared.maxOutputTokens = 75 ∧ prepared.inputTokenEstimate = 18 ∧
          prepared.inputBudget.fits = true := by decide +kernel
  have hok := Fallible.mem_toOption hprepared
  obtain ⟨limits, hlimits, hsum, -, -, -, hleast⟩ := prepareForSend_sound _ smallWindowClient
    smallWindowInput prepared (by decide) (by decide) hok hfits
  cases hlimits
  exact ⟨prepared, hok, hallowance, hestimate, hsum (by rw [hallowance]; decide), hleast (by decide)⟩

end Model
