import Mathlib.Data.List.Sort

/-!
# The latest row of a table

`latest key rows` is `ORDER BY key DESC LIMIT 1`: a row with the largest key (`latest_spec`), unique
when the keys are. Rows that a filter drops do not matter, so a table that only grows by rows with
larger keys keeps its latest row up to any earlier key.
-/

namespace OrderBy

universe u

variable {α : Type u} {key : α → Nat} {rows : List α}

def latest (key : α → Nat) (rows : List α) : Option α :=
  (rows.insertionSort fun a b => key b ≤ key a).head?

theorem latest_spec {a : α} (h : latest key rows = some a) :
    a ∈ rows ∧ ∀ b ∈ rows, key b ≤ key a := by
  have hsorted := List.pairwise_insertionSort (fun a b : α => key b ≤ key a) rows
  obtain ⟨rest, hsort⟩ := List.head?_eq_some_iff.1 h
  rw [hsort, List.pairwise_cons] at hsorted
  have hmem (b : α) : b ∈ rows ↔ b = a ∨ b ∈ rest := by
    rw [← List.mem_insertionSort (fun a b : α => key b ≤ key a), hsort, List.mem_cons]
  refine ⟨(hmem a).2 (.inl rfl), fun b hb => ?_⟩
  rcases (hmem b).1 hb with rfl | hb
  · exact Nat.le_refl _
  · exact hsorted.1 b hb

theorem latest_eq_none : latest key rows = none ↔ rows = [] := by
  rw [latest, List.head?_eq_none_iff, ← List.length_eq_zero_iff, List.length_insertionSort,
    List.length_eq_zero_iff]

theorem latest_of_top {a : α} (ha : a ∈ rows) (htop : ∀ b ∈ rows, b = a ∨ key b < key a) :
    latest key rows = some a := by
  cases h : latest key rows with
  | none => simp [latest_eq_none.1 h] at ha
  | some b =>
    obtain ⟨hb, hmax⟩ := latest_spec h
    rcases htop b hb with rfl | hlt
    · rfl
    · exact absurd (hmax a ha) (Nat.not_le.2 hlt)

end OrderBy
