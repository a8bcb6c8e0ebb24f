import Mathlib.Data.List.Basic

/-!
# Ranges of a stream

`range xs a b` is `xs[a..b)`. A store that keeps only the end `xs.drop base` of a stream still answers
every range from `base` on (`range_drop`). `concat_eq_split` splits a stream that went on by one.
-/

namespace Window

open List

variable {α : Type*} {xs : List α}

def range (xs : List α) (a b : Nat) : List α := (xs.drop a).take (b - a)

theorem range_append {a b c : Nat} (hab : a ≤ b) (hbc : b ≤ c) :
    range xs a b ++ range xs b c = range xs a c := by
  have hsplit : c - a = (b - a) + (c - b) := by omega
  have hdrop : xs.drop b = (xs.drop a).drop (b - a) := by
    rw [drop_drop, Nat.add_sub_cancel' hab]
  rw [range, range, range, hsplit, take_add, hdrop]

@[simp] theorem range_self (xs : List α) (a : Nat) : range xs a a = [] := by
  simp [range]

theorem length_range {a b : Nat} (h : b ≤ xs.length) :
    (range xs a b).length = b - a := by
  simp only [range, length_take, length_drop]
  omega

theorem range_length (xs : List α) (a : Nat) : range xs a xs.length = xs.drop a := by
  rw [range, ← length_drop, take_length]

theorem range_isInfix (xs : List α) (a b : Nat) : range xs a b <:+: xs :=
  (List.take_prefix _ _).isInfix.trans (drop_suffix _ _).isInfix

theorem range_isInfix_range {a b s e : Nat} (hs : s ≤ a) (hab : a ≤ b) (he : b ≤ e) :
    range xs a b <:+: range xs s e := by
  refine ⟨range xs s a, range xs b e, ?_⟩
  rw [range_append hs hab, range_append (Nat.le_trans hs hab) he]

theorem range_drop {base a b : Nat} (h : base ≤ a) :
    ((xs.drop base).drop (a - base)).take (b - a) = range xs a b := by
  rw [drop_drop, Nat.add_sub_cancel' h, range]

theorem drop_append_last {xs p : List α} {n : Nat} (hn : n ≤ xs.length + p.length) :
    (xs ++ p).drop (xs.length + p.length - n) =
      xs.drop (xs.length - (n - min p.length n)) ++ p.drop (p.length - min p.length n) := by
  rw [drop_append]
  congr 1
  · by_cases h : n ≤ p.length
    · rw [drop_of_length_le (by omega), drop_of_length_le (by omega)]
    · congr 1
      omega
  · congr 1
    omega

/-- A split of a stream with one more element is at that element, or a split of the stream. -/
theorem concat_eq_split {xs pre post : List α} {e x : α} (h : xs ++ [e] = pre ++ x :: post) :
    pre = xs ∧ x = e ∧ post = [] ∨ ∃ post', post = post' ++ [e] ∧ xs = pre ++ x :: post' := by
  obtain rfl | ⟨post', y, rfl⟩ := post.eq_nil_or_concat
  · obtain ⟨rfl, heq⟩ := append_inj' h rfl
    cases heq
    exact .inl ⟨rfl, rfl, rfl⟩
  · rw [concat_eq_append, ← cons_append, ← append_assoc] at h
    obtain ⟨rfl, heq⟩ := append_inj' h rfl
    cases heq
    exact .inr ⟨post', concat_eq_append, rfl⟩

end Window
