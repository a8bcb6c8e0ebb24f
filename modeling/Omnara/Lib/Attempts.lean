import Mathlib.Data.List.Range

/-!
# Numbered attempts

A table of attempts that grows at its end, where each row is either the first attempt of a key that
has none, or the next attempt of the key of the last row. Then the attempts of every key are numbered
`1..n` in order (`Grown.attempts_eq`). Rows no two of which can stand in the order of the table are at
most one (`length_filter_le_one`).
-/

namespace Attempts

open List

universe u v

variable {α : Type u} {κ : Type v} {key : α → κ} {attempt : α → Nat} {rows : List α}

inductive Grown (key : α → κ) (attempt : α → Nat) : List α → Prop
  | nil : Grown key attempt []
  | first {rows : List α} {b : α} : Grown key attempt rows → (∀ a ∈ rows, key a ≠ key b) →
      attempt b = 1 → Grown key attempt (rows ++ [b])
  | again {rows : List α} {a b : α} : Grown key attempt (rows ++ [a]) → key b = key a →
      attempt b = attempt a + 1 → Grown key attempt (rows ++ [a] ++ [b])

theorem length_filter_le_one {r : α → α → Prop} (h : rows.Pairwise r) {p : α → Bool}
    (hp : ∀ a ∈ rows, ∀ b ∈ rows, p a = true → p b = true → ¬ r a b) :
    (rows.filter p).length ≤ 1 := by
  have hpair := h.filter p
  cases hrows : rows.filter p with
  | nil => exact Nat.zero_le _
  | cons a rest =>
    cases rest with
    | nil => exact Nat.le_refl _
    | cons b rest =>
      obtain ⟨ha, hpa⟩ := mem_filter.1 (hrows ▸ mem_cons_self : a ∈ rows.filter p)
      obtain ⟨hb, hpb⟩ := mem_filter.1
        (hrows ▸ mem_cons_of_mem _ mem_cons_self : b ∈ rows.filter p)
      rw [hrows] at hpair
      exact absurd ((pairwise_cons.1 hpair).1 b mem_cons_self) (hp a ha b hb hpa hpb)

variable [DecidableEq κ]

def ofKey (key : α → κ) (k : κ) (rows : List α) : List α := rows.filter (key · = k)

theorem ofKey_concat (k : κ) (b : α) :
    ofKey key k (rows ++ [b]) = if key b = k then ofKey key k rows ++ [b] else ofKey key k rows := by
  by_cases h : key b = k <;> simp [ofKey, filter_append, h]

theorem Grown.attempts_eq (h : Grown key attempt rows) (k : κ) :
    (ofKey key k rows).map attempt = List.range' 1 (ofKey key k rows).length := by
  induction h with
  | nil => rfl
  | @first rows b _ hfr hone ih =>
    rw [ofKey_concat]
    split
    · rename_i hk
      have hnone : ofKey key k rows = [] :=
        filter_eq_nil_iff.2 fun a ha => by simpa [← hk] using hfr a ha
      simp [hnone, hone]
    · exact ih
  | @again rows a b _ hkey hnext ih =>
    rw [ofKey_concat]
    split
    · rename_i hk
      -- the last row has the same key, so it carries the largest number so far
      have hlast : ofKey key k (rows ++ [a]) = ofKey key k rows ++ [a] := by
        rw [ofKey_concat, if_pos (hkey ▸ hk)]
      rw [hlast] at ih ⊢
      have hnum : attempt a = 1 + (ofKey key k rows).length := by
        have hlen := congrArg List.getLast? ih
        simpa [List.range'_concat] using hlen
      have hlen : (ofKey key k rows ++ [a] ++ [b]).length = (ofKey key k rows ++ [a]).length + 1 := by
        simp
      rw [map_append, ih, hlen, List.range'_concat, map_singleton, hnext, hnum]
      simp only [length_append, length_singleton, Nat.one_mul, Nat.add_assoc]
    · exact ih

end Attempts
