import Mathlib.Control.Monad.Basic

/-!
# Programs with a state and errors

`Prog σ ε α` is a program that keeps its state when it throws. `Triple P x Q E` says that a run of `x` from
a state with `P` ends with `Q` of the result, or throws in a state with `E`; there is one rule for each
way programs are put together, and `foldlM` is the rule of a loop with an accumulator, whose invariant is
about the part of the list that is done.
-/

namespace Hoare

variable {σ ε α β γ : Type}

abbrev Prog (σ ε α : Type) := ExceptT ε (StateM σ) α

def exec (x : Prog σ ε α) (s : σ) : Except ε α × σ := x.run.run s

def Triple (P : σ → Prop) (x : Prog σ ε α) (Q : α → σ → Prop) (E : σ → Prop) : Prop :=
  ∀ s, P s → match exec x s with
    | (.ok a, s') => Q a s'
    | (.error _, s') => E s'

/-! ## Runs -/

theorem exec_bind (x : Prog σ ε α) (f : α → Prog σ ε β) (s : σ) :
    exec (x >>= f) s = match exec x s with
      | (.ok a, s') => exec (f a) s'
      | (.error e, s') => (.error e, s') := by
  show (ExceptT.bindCont f (exec x s).1 (exec x s).2) = _
  rcases exec x s with ⟨_ | _, s'⟩ <;> rfl

/-! ## Rules -/

variable {P P' : σ → Prop} {Q Q' : α → σ → Prop} {E E' : σ → Prop}

namespace Triple

theorem conseq {x : Prog σ ε α} (h : Triple P x Q E) (hP : ∀ s, P' s → P s)
    (hQ : ∀ a s, Q a s → Q' a s) (hE : ∀ s, E s → E' s) : Triple P' x Q' E' := by
  intro s hs
  have hrun := h s (hP s hs)
  rcases hx : exec x s with ⟨_ | _, s'⟩ <;> rw [hx] at hrun
  · exact hE _ hrun
  · exact hQ _ _ hrun

theorem pure {a : α} (h : ∀ s, P s → Q a s) : Triple P (Pure.pure a : Prog σ ε α) Q E :=
  fun s hs => h s hs

theorem throw {e : ε} (h : ∀ s, P s → E s) : Triple P (MonadExcept.throw e : Prog σ ε α) Q E :=
  fun s hs => h s hs

theorem bind {x : Prog σ ε α} {f : α → Prog σ ε β} {R : β → σ → Prop} (hx : Triple P x Q E)
    (hf : ∀ a, Triple (Q a) (f a) R E) : Triple P (x >>= f) R E := by
  intro s hs
  have hrun := hx s hs
  rw [exec_bind]
  rcases hsplit : exec x s with ⟨_ | a, s'⟩ <;> rw [hsplit] at hrun
  · exact hrun
  · exact hf a s' hrun

theorem get_bind {f : σ → Prog σ ε α} (h : ∀ s₀, P s₀ → Triple (· = s₀) (f s₀) Q E) :
    Triple P (get >>= f) Q E :=
  fun s hs => h s hs s rfl

theorem modify {f : σ → σ} {Q : PUnit → σ → Prop} (h : ∀ s, P s → Q () (f s)) :
    Triple P (modify f : Prog σ ε PUnit) Q E :=
  fun s hs => h s hs

/-- A computation without a state, whose result the rest may use. -/
theorem lift_bind {x : Except ε α} {f : α → Prog σ ε β} {R : β → σ → Prop}
    (hok : ∀ a, x = .ok a → Triple P (f a) R E) (herror : ∀ s, P s → E s) :
    Triple P ((liftM x : Prog σ ε α) >>= f) R E := by
  intro s hs
  cases x with
  | error e => exact herror s hs
  | ok a => exact hok a rfl s hs

theorem assuming {x : Prog σ ε α} {φ : Prop} (hφ : ∀ s, P s → φ) (h : φ → Triple P x Q E) :
    Triple P x Q E :=
  fun s hs => h (hφ s hs) s hs

theorem foldlM {f : β → γ → Prog σ ε β} {l : List γ} {I : List γ → β → σ → Prop}
    (h : ∀ done x rest b, l = done ++ x :: rest →
      Triple (I done b) (f b x) (fun b' => I (done ++ [x]) b') E) (b : β) :
    Triple (I [] b) (l.foldlM f b) (fun b' => I l b') E := by
  suffices hgen : ∀ rest done b, l = done ++ rest →
      Triple (I done b) (rest.foldlM f b) (fun b' => I l b') E from hgen l [] b rfl
  intro rest
  induction rest with
  | nil =>
    intro done b hl
    rw [List.append_nil] at hl
    exact pure fun s hs => hl ▸ hs
  | cons x rest ih =>
    intro done b hl
    exact bind (h done x rest b hl) fun b' => ih _ b' (by simp [hl])

theorem forM {f : γ → Prog σ ε PUnit} {l : List γ} {I : σ → Prop}
    (h : ∀ x ∈ l, Triple I (f x) (fun _ => I) E) : Triple I (l.forM f) (fun _ => I) E := by
  induction l with
  | nil => exact pure fun s hs => hs
  | cons x l ih =>
    exact bind (h x List.mem_cons_self) fun _ => ih fun y hy => h y (List.mem_cons_of_mem _ hy)

end Triple

end Hoare
