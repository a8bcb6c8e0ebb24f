import Mathlib.Data.List.Sort

/-!
# Insertion at a place of a list

The list an ordered queue stands for: an element is put at the front, at the back, or next to
another element. `insertBefore_split` and `insertAfter_split` are the rules proofs use: an insertion
next to an anchor splits the list at the anchor.
-/

namespace Reorder

open List

variable {α : Type*} [DecidableEq α] {anchor x : α} {l : List α}

inductive Place (α : Type*)
  | front | back | before (anchor : α) | after (anchor : α)
  deriving DecidableEq

def insertBefore (anchor x : α) : List α → List α
  | [] => [x]
  | b :: l => if b = anchor then x :: b :: l else b :: insertBefore anchor x l

def insertAfter (anchor x : α) : List α → List α
  | [] => [x]
  | b :: l => if b = anchor then b :: x :: l else b :: insertAfter anchor x l

def Place.insert (x : α) (l : List α) : Place α → List α
  | .front => x :: l
  | .back => l ++ [x]
  | .before anchor => insertBefore anchor x l
  | .after anchor => insertAfter anchor x l

/-- The place makes sense in a list: its anchor is there. -/
def Place.ValidIn (l : List α) : Place α → Prop
  | .front | .back => True
  | .before anchor | .after anchor => anchor ∈ l

instance (l : List α) : (p : Place α) → Decidable (p.ValidIn l)
  | .front | .back => inferInstanceAs (Decidable True)
  | .before anchor | .after anchor => inferInstanceAs (Decidable (anchor ∈ l))

theorem insertBefore_split {l₁ l₂ : List α} (h : anchor ∉ l₁) :
    insertBefore anchor x (l₁ ++ anchor :: l₂) = l₁ ++ x :: anchor :: l₂ := by
  induction l₁ with
  | nil => simp [insertBefore]
  | cons b l₁ ih =>
    rw [mem_cons, not_or] at h
    simp [insertBefore, Ne.symm h.1, ih h.2]

theorem insertAfter_split {l₁ l₂ : List α} (h : anchor ∉ l₁) :
    insertAfter anchor x (l₁ ++ anchor :: l₂) = l₁ ++ anchor :: x :: l₂ := by
  induction l₁ with
  | nil => simp [insertAfter]
  | cons b l₁ ih =>
    rw [mem_cons, not_or] at h
    simp [insertAfter, Ne.symm h.1, ih h.2]

theorem erase_insertBefore (h : x ∉ l) :
    (insertBefore anchor x l).erase x = l := by
  induction l with
  | nil => simp [insertBefore]
  | cons b l ih =>
    rw [mem_cons, not_or] at h
    unfold insertBefore
    split
    · rw [erase_cons_head]
    · rw [erase_cons_tail (by simpa using Ne.symm h.1), ih h.2]

theorem erase_insertAfter (h : x ∉ l) :
    (insertAfter anchor x l).erase x = l := by
  induction l with
  | nil => simp [insertAfter]
  | cons b l ih =>
    rw [mem_cons, not_or] at h
    unfold insertAfter
    split
    · rw [erase_cons_tail (by simpa using Ne.symm h.1), erase_cons_head]
    · rw [erase_cons_tail (by simpa using Ne.symm h.1), ih h.2]

theorem Place.erase_insert {x : α} (h : x ∉ l) (p : Place α) :
    (p.insert x l).erase x = l := by
  cases p with
  | front => simp [Place.insert]
  | back => simp [Place.insert, erase_append_right _ h]
  | before anchor => exact erase_insertBefore h
  | after anchor => exact erase_insertAfter h

end Reorder
