/-!
# Reachable states and runs

The states a transition relation reaches from its initial states, with the one induction safety proofs
use: what holds at the start and is kept by every step holds in every reachable state
(`Reachable.invariant`). `Through` is a finite run that stays within a condition; what each of its steps
keeps relates its ends (`Through.related`). A `Run` is an infinite sequence of steps. `Run.leadsTo` is the
rule for progress under fairness: a condition that persists until a step of a certain kind, with an
action that is such a step and is taken again and again, leads to such a step.
-/

namespace Reach

universe u

variable {σ : Type u} {P : σ → Prop}

inductive Reachable (init : σ → Prop) (step : σ → σ → Prop) : σ → Prop
  | start {s : σ} : init s → Reachable init step s
  | next {s t : σ} : Reachable init step s → step s t → Reachable init step t

theorem Reachable.invariant {init : σ → Prop} {step : σ → σ → Prop} (hinit : ∀ s, init s → P s)
    (hstep : ∀ s t, P s → step s t → P t) {s : σ} (h : Reachable init step s) : P s := by
  induction h with
  | start hs => exact hinit _ hs
  | next _ hst ih => exact hstep _ _ ih hst

/-- A run from one state to another, all of whose states satisfy `C`. -/
inductive Through (step : σ → σ → Prop) (C : σ → Prop) : σ → σ → Prop
  | refl {s : σ} : C s → Through step C s s
  | tail {s t u : σ} : Through step C s t → step t u → C u → Through step C s u

namespace Through

variable {step : σ → σ → Prop} {C : σ → Prop} {s t : σ}

theorem last (h : Through step C s t) : C t := by
  cases h with
  | refl hs => exact hs
  | tail _ _ hu => exact hu

theorem reachable {init : σ → Prop} (h : Through step C s t) (hs : Reachable init step s) :
    Reachable init step t := by
  induction h with
  | refl => exact hs
  | tail _ hstep _ ih => exact .next ih hstep

/-- What holds between a state and itself, and is kept by every step within the condition, holds
between the ends of the run. -/
theorem related {R : σ → σ → Prop} (h : Through step C s t) (hrefl : C s → R s s)
    (hstep : ∀ t u, Through step C s t → R s t → C t → step t u → C u → R s u) : R s t := by
  induction h with
  | refl hs => exact hrefl hs
  | tail hst hu hCu ih => exact hstep _ _ hst ih hst.last hu hCu

end Through

/-! ## Runs -/

structure Run (init : σ → Prop) (step : σ → σ → Prop) where
  state : Nat → σ
  start : init (state 0)
  next : ∀ n, step (state n) (state (n + 1))

namespace Run

variable {init : σ → Prop} {step : σ → σ → Prop} (run : Run init step)

theorem reachable (n : Nat) : Reachable init step (run.state n) := by
  induction n with
  | zero => exact .start run.start
  | succ n ih => exact .next ih (run.next n)

theorem monotone {f : σ → Nat} (hf : ∀ s t, step s t → f s ≤ f t) {m n : Nat} (h : m ≤ n) :
    f (run.state m) ≤ f (run.state n) := by
  induction h with
  | refl => exact Nat.le_refl _
  | step _ ih => exact Nat.le_trans ih (hf _ _ (run.next _))

/-- A condition that every step keeps, unless the step is a `Q`, is kept up to any later state, or a
step on the way is a `Q`. -/
theorem persistsUntil {Q : σ → σ → Prop}
    (hstay : ∀ n, P (run.state n) → P (run.state (n + 1)) ∨ Q (run.state n) (run.state (n + 1)))
    {m n : Nat} (h : m ≤ n) (hP : P (run.state m)) :
    P (run.state n) ∨ ∃ k, m ≤ k ∧ Q (run.state k) (run.state (k + 1)) := by
  induction h with
  | refl => exact .inl hP
  | @step n hmn ih =>
    rcases ih with hn | hq
    · rcases hstay n hn with hn' | hq
      · exact .inl hn'
      · exact .inr ⟨n, hmn, hq⟩
    · exact .inr hq

/-- **Progress under fairness.** -/
theorem leadsTo {Q : σ → σ → Prop}
    (hstay : ∀ n, P (run.state n) → P (run.state (n + 1)) ∨ Q (run.state n) (run.state (n + 1)))
    (hact : ∀ n, ∃ m, n ≤ m ∧ (P (run.state m) → Q (run.state m) (run.state (m + 1)))) {n : Nat}
    (hP : P (run.state n)) : ∃ m, n ≤ m ∧ Q (run.state m) (run.state (m + 1)) := by
  obtain ⟨m, hnm, hgoal⟩ := hact n
  rcases run.persistsUntil hstay hnm hP with hm | hq
  · exact ⟨m, hnm, hgoal hm⟩
  · exact hq

end Run

end Reach
