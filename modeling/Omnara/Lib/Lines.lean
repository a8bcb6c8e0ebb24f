import Omnara.Lib.Blocks
import Omnara.Lib.Window

/-!
# The lines of a text

`linesOf nl text` are the segments between line ends, without a final empty one. Their text is the lines
with a line end each, except that the last one may have none (`Made`). `lineStart` is the position a line
starts at; `Made.split` takes a text apart at a line, and `Made.splitOn_range` gives the lines of a range
that starts at one line and ends before another.
-/

namespace Lines

open Blocks Window

variable {α : Type*} {nl : α} {text : List α} {lines : List (List α)} {l : List α}

/-- Where line `k` starts, counted from 0. -/
def lineStart (nl : α) (lines : List (List α)) (k : Nat) : Nat := (unlines nl (lines.take k)).length

@[simp]
theorem lineStart_zero : lineStart nl lines 0 = 0 := rfl

theorem lineStart_of_le {k : Nat} (hk : lines.length ≤ k) :
    lineStart nl lines k = (unlines nl lines).length := by
  rw [lineStart, List.take_of_length_le hk]

theorem lineStart_succ {k : Nat} (hl : lines[k]? = some l) :
    lineStart nl lines (k + 1) = lineStart nl lines k + l.length + 1 := by
  rw [lineStart, List.take_add_one, hl, Option.toList_some, unlines_concat]
  simp [lineStart]
  omega

/-- The text is `lines`: each of them is ended, or all but the last one, which is not empty. -/
structure Made (nl : α) (text : List α) (lines : List (List α)) : Prop where
  plain : ∀ l ∈ lines, nl ∉ l
  ended : text = unlines nl lines ∨ text ++ [nl] = unlines nl lines ∧ lines.getLast? ≠ some []

theorem intercalate_concat (xs : List (List α)) (l : List α) :
    [nl].intercalate (xs ++ [l]) = unlines nl xs ++ l := by
  have h : unlines nl (xs ++ [l]) = [nl].intercalate (xs ++ [l]) ++ [nl] :=
    unlines_eq_intercalate (by simp)
  rw [unlines_concat] at h
  exact (List.append_cancel_right h).symm

namespace Made

variable {k : Nat}

section
variable (h : Made nl text lines)
include h

/-- The text before a line, the line, and what comes after it: a line end, or nothing at all. -/
theorem split (hl : lines[k]? = some l) :
    ∃ rest, text = unlines nl (lines.take k) ++ l ++ rest ∧
      (rest = [] ∧ l ≠ [] ∧ k + 1 = lines.length ∨ ∃ rest', rest = nl :: rest') := by
  obtain ⟨hk, hget⟩ := List.getElem?_eq_some_iff.mp hl
  have hlines : lines = lines.take k ++ l :: lines.drop (k + 1) := by
    rw [← hget, List.getElem_cons_drop, List.take_append_drop]
  have hall : unlines nl lines =
      unlines nl (lines.take k) ++ l ++ nl :: unlines nl (lines.drop (k + 1)) := by
    conv_lhs => rw [hlines]
    simp [unlines]
  rcases h.ended with htext | ⟨htext, hlast⟩
  · exact ⟨_, htext.trans hall, .inr ⟨_, rfl⟩⟩
  · rw [hall] at htext
    rcases List.eq_nil_or_concat (lines.drop (k + 1)) with hnil | ⟨front, last, hfront⟩
    · refine ⟨[], ?_, .inl ⟨rfl, ?_, ?_⟩⟩
      · rw [hnil] at htext
        rw [List.append_nil]
        exact List.append_cancel_right htext
      · rintro rfl
        rw [hlines, hnil] at hlast
        simp at hlast
      · have := List.drop_eq_nil_iff.mp hnil
        omega
    · refine ⟨nl :: (unlines nl front ++ last), ?_, .inr ⟨_, rfl⟩⟩
      rw [hfront, List.concat_eq_append, unlines_concat] at htext
      refine List.append_cancel_right (htext.trans ?_)
      simp

theorem length_le : text.length ≤ (unlines nl lines).length := by
  rcases h.ended with htext | ⟨htext, -⟩
  · exact Nat.le_of_eq (congrArg List.length htext)
  · rw [← htext]
    simp

theorem lineStart_lt_iff : lineStart nl lines k < text.length ↔ k < lines.length := by
  constructor
  · intro hlt
    by_contra hk
    have := h.length_le
    rw [lineStart_of_le (by omega)] at hlt
    omega
  · intro hk
    obtain ⟨rest, htext, hrest⟩ := h.split (List.getElem?_eq_getElem hk)
    have hlen := congrArg List.length htext
    rw [List.length_append, List.length_append, ← lineStart] at hlen
    rcases hrest with ⟨-, hne, -⟩ | ⟨rest', rfl⟩
    · have := List.length_pos_iff.mpr hne
      omega
    · rw [List.length_cons] at hlen
      omega

theorem drop_lineStart (hl : lines[k]? = some l) :
    ∃ rest, text.drop (lineStart nl lines k) = l ++ rest ∧ (rest = [] ∨ ∃ rest', rest = nl :: rest') := by
  obtain ⟨rest, htext, hrest⟩ := h.split hl
  refine ⟨rest, ?_, hrest.imp_left And.left⟩
  rw [htext, List.append_assoc, lineStart, List.drop_left]

theorem take_lineStart (hl : lines[k]? = some l) :
    text.take (lineStart nl lines (k + 1) - 1) = unlines nl (lines.take k) ++ l := by
  obtain ⟨rest, htext, -⟩ := h.split hl
  have hlen : lineStart nl lines (k + 1) - 1 = (unlines nl (lines.take k) ++ l).length := by
    rw [lineStart_succ hl, List.length_append, lineStart]
    omega
  rw [hlen, htext, List.take_left]

theorem take_eq_unlines {b : Nat} (hb : lineStart nl lines b ≤ text.length) :
    text.take (lineStart nl lines b) = unlines nl (lines.take b) := by
  have hall : unlines nl lines = unlines nl (lines.take b) ++ unlines nl (lines.drop b) := by
    rw [← unlines_append, List.take_append_drop]
  rcases h.ended with htext | ⟨htext, -⟩
  · rw [htext, hall, lineStart, List.take_left]
  · rw [← List.take_append_of_le_length hb, htext, hall, lineStart, List.take_left]

end

end Made

/-! ## Cutting a text into lines -/

variable [DecidableEq α]

def linesOf (nl : α) (text : List α) : List (List α) :=
  if (text.splitOn nl).getLast? = some [] then (text.splitOn nl).dropLast else text.splitOn nl

/-- `text` without the line end it may have. -/
def chomp (nl : α) (text : List α) : List α :=
  if text.getLast? = some nl then text.dropLast else text

theorem chomp_unlines {lines : List (List α)} (h : lines ≠ []) :
    chomp nl (unlines nl lines) = [nl].intercalate lines := by
  rw [unlines_eq_intercalate h, chomp, List.getLast?_concat, if_pos rfl, List.dropLast_concat]

theorem chomp_intercalate {lines : List (List α)} (hlast : lines.getLast? = some l) (hl : l ≠ [])
    (hnl : nl ∉ l) : chomp nl ([nl].intercalate lines) = [nl].intercalate lines := by
  obtain ⟨front, rfl⟩ := List.getLast?_eq_some_iff.mp hlast
  refine if_neg fun hend => hnl ?_
  rw [intercalate_concat, List.getLast?_append_of_ne_nil _ hl] at hend
  exact List.mem_of_getLast? hend

theorem made_linesOf (nl : α) (text : List α) : Made nl text (linesOf nl text) := by
  have htext : text ++ [nl] = unlines nl (text.splitOn nl) := by
    rw [unlines_eq_intercalate (List.splitOn_ne_nil nl text), List.intercalate_splitOn]
  unfold linesOf
  split
  · rename_i hlast
    refine ⟨fun l hl => (mem_splitOn (List.dropLast_subset _ hl)).1, .inl ?_⟩
    obtain ⟨front, hfront⟩ := List.getLast?_eq_some_iff.mp hlast
    rw [hfront, unlines_concat, List.append_nil] at htext
    rw [hfront, List.dropLast_concat]
    exact List.append_cancel_right htext
  · rename_i hlast
    exact ⟨fun l hl => (mem_splitOn hl).1, .inr ⟨htext, hlast⟩⟩

theorem linesOf_isPrefix (nl : α) (text : List α) : linesOf nl text <+: text.splitOn nl := by
  unfold linesOf
  split
  · exact List.dropLast_prefix _
  · exact List.prefix_rfl

/-- **The lines of a range**: from the start of line `a` to the start of line `b`, or to the end if there
is no such line. -/
theorem Made.splitOn_range (h : Made nl text lines) {a b : Nat} (ha : a < lines.length) (hab : a < b) :
    (chomp nl (range text (lineStart nl lines a) (min (lineStart nl lines b) text.length))).splitOn nl =
      (lines.take b).drop a := by
  have hne : (lines.take b).drop a ≠ [] := by
    rw [← List.length_pos_iff, List.length_drop, List.length_take]
    omega
  have hpl : ∀ l ∈ (lines.take b).drop a, nl ∉ l := fun l hl =>
    h.plain l (List.mem_of_mem_take (List.mem_of_mem_drop hl))
  have hsplit : unlines nl (lines.take b) =
      unlines nl (lines.take a) ++ unlines nl ((lines.take b).drop a) := by
    rw [← unlines_append]
    congr 1
    rw [← Nat.min_eq_left (Nat.le_of_lt hab), ← List.take_take, Nat.min_eq_left (Nat.le_of_lt hab),
      List.take_append_drop]
  suffices hchomp : chomp nl (range text (lineStart nl lines a)
      (min (lineStart nl lines b) text.length)) = [nl].intercalate ((lines.take b).drop a) by
    rw [hchomp, List.splitOn_intercalate nl hpl hne]
  rw [range, ← List.drop_take]
  by_cases hb : lineStart nl lines b ≤ text.length
  · rw [Nat.min_eq_left hb, h.take_eq_unlines hb, hsplit, lineStart, List.drop_left, chomp_unlines hne]
  · -- the range goes to the end, behind the last line there is no line end
    have hlen : lines.length ≤ b := by
      by_contra hlt
      have := h.lineStart_lt_iff.mpr (Nat.lt_of_not_le hlt)
      omega
    rw [List.take_of_length_le hlen] at hsplit hpl hne ⊢
    rcases h.ended with htext | ⟨htext, hlast⟩
    · rw [lineStart_of_le hlen, ← htext] at hb
      omega
    · rw [hsplit, unlines_eq_intercalate hne, ← List.append_assoc] at htext
      have htext := List.append_cancel_right htext
      rw [Nat.min_eq_right (by omega), List.take_length, htext, lineStart, List.drop_left]
      obtain ⟨l, hl⟩ := Option.ne_none_iff_exists'.mp (mt List.getLast?_eq_none_iff.mp hne)
      have hll : lines.getLast? = some l := by rwa [List.getLast?_drop, if_neg (by omega)] at hl
      refine chomp_intercalate hl (fun hnil => hlast (hnil ▸ hll)) (hpl l (List.mem_of_getLast? hl))

end Lines
