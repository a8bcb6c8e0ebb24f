import Mathlib.Data.List.Range

/-!
# Ranges laid end to end

`Tiles lo ranges hi`: closed ranges `(a, b)`, none empty, the first starting at `lo + 1`, each next one
right after the end of the one before, the last ending at `hi`. Together they are `lo + 1, …, hi`, each
number once (`Tiles.cover_eq`).
-/

inductive Tiles : Nat → List (Nat × Nat) → Nat → Prop
  | nil (lo : Nat) : Tiles lo [] lo
  | cons {lo b hi : Nat} {rest : List (Nat × Nat)} :
      lo < b → Tiles b rest hi → Tiles lo ((lo + 1, b) :: rest) hi

namespace Tiles

open List

variable {lo hi : Nat} {ranges : List (Nat × Nat)}

def cover (ranges : List (Nat × Nat)) : List Nat :=
  ranges.flatMap fun r => List.range' r.1 (r.2 + 1 - r.1)

section
variable (h : Tiles lo ranges hi)
include h

theorem le : lo ≤ hi := by
  induction h with
  | nil => exact Nat.le_refl _
  | cons hlt _ ih => omega

theorem cover_eq : cover ranges = List.range' (lo + 1) (hi - lo) := by
  induction h with
  | nil lo => simp [cover]
  | @cons lo b hi rest hlt htail ih =>
    have hle := htail.le
    have hsplit : hi - lo = (b - lo) + (hi - b) := by omega
    have hnext : b + 1 = lo + 1 + (b - lo) := by omega
    have hlen : b + 1 - (lo + 1) = b - lo := by omega
    rw [cover, flatMap_cons, hlen, hsplit, ← List.range'_append_1, ← hnext, ← ih]
    rfl

theorem starts_eq : ranges.map (·.1) = ((lo :: ranges.map (·.2)).dropLast).map (· + 1) := by
  induction h with
  | nil => rfl
  | cons _ _ ih => rw [map_cons, map_cons, dropLast_cons_cons, map_cons, ih]

theorem ends_pairwise : (∀ b ∈ ranges.map (·.2), lo < b) ∧ (ranges.map (·.2)).Pairwise (· < ·) := by
  induction h with
  | nil => simp
  | @cons lo b hi rest hlt _ ih =>
    refine ⟨fun n hn => ?_, pairwise_cons.2 ih⟩
    rcases mem_cons.1 hn with rfl | hn
    · exact hlt
    · exact Nat.lt_trans hlt (ih.1 n hn)

theorem hi_eq : hi = ((ranges.map (·.2)).getLast?).getD lo := by
  induction h with
  | nil => rfl
  | @cons lo b hi rest _ _ ih => rw [ih, map_cons, List.getLast?_cons, Option.getD_some]

end

end Tiles
