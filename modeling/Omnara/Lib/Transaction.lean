/-!
# Transactions that commit or fail

A transaction is a value of `Option`: `none` is a failure, which changes nothing. `Post x Q` is partial
correctness, `Q` holds of what `x` commits; `Commits x Q` is total correctness, `x` does commit. Each
has one rule for `bind`, so a proof follows the `do` block of the transaction.
-/

namespace Transaction

universe u

variable {α β : Type u} {x : Option α} {f : α → Option β} {a : α}

def Post (x : Option α) (Q : α → Prop) : Prop := ∀ a, x = some a → Q a

def Commits (x : Option α) (Q : α → Prop) : Prop := ∃ a, x = some a ∧ Q a

namespace Post

variable {Q : α → Prop} {R : β → Prop}

/-- The continuation may use that the first part has committed. -/
theorem bind (h : ∀ a, x = some a → Post (f a) R) : Post (x >>= f) R := by
  intro b hb
  obtain ⟨a, ha, hfb⟩ := Option.bind_eq_some_iff.1 hb
  exact h a ha b hfb

theorem pure (h : Q a) : Post (some a) Q := by
  rintro _ ⟨rfl⟩
  exact h

theorem ite {p : Prop} [Decidable p] {y : Option α} (ht : p → Post x Q) (he : ¬ p → Post y Q) :
    Post (if p then x else y) Q := by
  split
  · exact ht ‹p›
  · exact he ‹¬ p›

end Post

namespace Commits

variable {P Q : α → Prop} {R : β → Prop}

theorem bind (hx : Commits x P) (hf : ∀ a, x = some a → P a → Commits (f a) R) :
    Commits (x >>= f) R := by
  obtain ⟨a, ha, hP⟩ := hx
  obtain ⟨b, hb, hR⟩ := hf a ha hP
  exact ⟨b, Option.bind_eq_some_iff.2 ⟨a, ha, hb⟩, hR⟩

theorem pure (h : Q a) : Commits (some a) Q := ⟨a, rfl, h⟩

theorem mono (h : Commits x P) (hPQ : ∀ a, x = some a → P a → Q a) : Commits x Q := by
  obtain ⟨a, ha, hP⟩ := h
  exact ⟨a, ha, hPQ a ha hP⟩

end Commits

end Transaction
