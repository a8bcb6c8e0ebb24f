import Mathlib.Data.List.Basic

/-!
# Text cut into blocks at empty lines

`feed nl cur text` reads `text` one symbol at a time behind the unfinished block `cur`: two `nl` in a
row end a block. Reading can stop and go on anywhere (`feed_append`).

* `feed_of_cut`: searching for the first `nl nl` instead of reading symbol by symbol gives the same.
* `feed_lines`: lines that are not empty, each ended by `nl`, and an empty line are one block.
-/

namespace Blocks

open List

variable {α : Type*} [DecidableEq α] {nl : α} {lines : List (List α)}

/-- The text before and after the first `nl nl`. -/
def cut (nl : α) : List α → Option (List α × List α)
  | [] => none
  | [_] => none
  | a :: b :: rest =>
    if a = nl ∧ b = nl then some ([], rest)
    else (cut nl (b :: rest)).map fun p => (a :: p.1, p.2)

/-- Read `text` behind the unfinished block: the unfinished block afterwards, and the blocks that
ended. -/
def feed (nl : α) : List α → List α → List α × List (List α)
  | cur, [] => (cur, [])
  | cur, c :: text =>
    if c = nl ∧ cur.getLast? = some nl then
      let (rest, blocks) := feed nl [] text
      (rest, cur.dropLast :: blocks)
    else feed nl (cur ++ [c]) text

theorem feed_append (cur xs ys : List α) :
    feed nl cur (xs ++ ys) =
      ((feed nl (feed nl cur xs).1 ys).1, (feed nl cur xs).2 ++ (feed nl (feed nl cur xs).1 ys).2) := by
  induction xs generalizing cur with
  | nil => simp [feed]
  | cons c xs ih =>
    rw [cons_append, feed, feed]
    split
    · rw [ih]
      simp
    · rw [ih]

theorem cut_length {text before after : List α} (h : cut nl text = some (before, after)) :
    after.length < text.length := by
  induction text generalizing before with
  | nil => cases h
  | cons a text ih =>
    cases text with
    | nil => cases h
    | cons b rest =>
      rw [cut] at h
      split at h
      · cases h
        simp only [length_cons]
        omega
      · obtain ⟨p, hp, heq⟩ := Option.map_eq_some_iff.mp h
        obtain ⟨-, rfl⟩ := Prod.mk.inj heq
        have := ih hp
        rw [length_cons]
        omega

theorem cut_eq_some {text before after : List α} (h : cut nl text = some (before, after)) :
    text = before ++ nl :: nl :: after := by
  induction text generalizing before with
  | nil => cases h
  | cons a text ih =>
    cases text with
    | nil => cases h
    | cons b rest =>
      rw [cut] at h
      split at h
      · rename_i hab
        cases h
        rw [hab.1, hab.2, nil_append]
      · obtain ⟨p, hp, heq⟩ := Option.map_eq_some_iff.mp h
        cases heq
        rw [ih hp, cons_append]

theorem cut_of_not_mem {before : List α} (h : nl ∉ before) (after : List α) :
    cut nl (before ++ nl :: nl :: after) = some (before, after) := by
  induction before with
  | nil => simp [cut]
  | cons a before ih =>
    rw [mem_cons, not_or] at h
    obtain ⟨b, rest, hrest⟩ := exists_cons_of_ne_nil
      (show before ++ nl :: nl :: after ≠ [] by simp)
    rw [cons_append, hrest, cut, if_neg fun hab => h.1 hab.1.symm, ← hrest, ih h.2]
    rfl

theorem feed_cons {cur : List α} {c : α} (text : List α) (h : c = nl → cur.getLast? ≠ some nl) :
    feed nl cur (c :: text) = feed nl (cur ++ [c]) text := by
  rw [feed, if_neg]
  rintro ⟨hc, hlast⟩
  exact h hc hlast

/-- **Searching for the end of a block.** If `cur` does not end a line, the first `nl nl` of the text
ends the block. -/
theorem feed_of_cut {text : List α} :
    ∀ {cur : List α}, (cur.getLast? = some nl → text.head? ≠ some nl) →
      feed nl cur text = match cut nl text with
        | none => (cur ++ text, [])
        | some (before, after) =>
          ((feed nl [] after).1, (cur ++ before) :: (feed nl [] after).2) := by
  induction text with
  | nil =>
    intro cur _
    simp [feed, cut]
  | cons a text ih =>
    intro cur hcur
    have hstep : feed nl cur (a :: text) = feed nl (cur ++ [a]) text := by
      apply feed_cons
      intro ha hlast
      exact hcur hlast (by simp [ha])
    rw [hstep]
    cases text with
    | nil => simp [feed, cut]
    | cons b rest =>
      by_cases hab : a = nl ∧ b = nl
      · obtain ⟨rfl, rfl⟩ := hab
        simp [feed, cut]
      · have hnext : (cur ++ [a]).getLast? = some nl → (b :: rest).head? ≠ some nl := by
          intro hlast hhead
          rw [List.getLast?_concat] at hlast
          exact hab ⟨Option.some.inj hlast, Option.some.inj hhead⟩
        rw [ih hnext, cut, if_neg hab]
        cases cut nl (b :: rest) with
        | none => simp
        | some p => simp

theorem feed_open : ∀ (text cur : List α), ¬ [nl, nl] <:+ cur → ¬ [nl, nl] <:+ (feed nl cur text).1 := by
  intro text
  induction text with
  | nil =>
    intro cur h
    exact h
  | cons c text ih =>
    intro cur h
    rw [feed]
    split
    · apply ih
      simp
    · rename_i hc
      apply ih
      rintro ⟨front, heq⟩
      have hlast : front ++ [nl] = cur ∧ nl = c := by
        have := append_inj' (show (front ++ [nl]) ++ [nl] = cur ++ [c] by simpa using heq) rfl
        simpa using this
      obtain ⟨rfl, rfl⟩ := hlast
      exact hc ⟨rfl, by simp⟩

/-! ## Blocks written line by line -/

theorem feed_line {line : List α} (hline : line ≠ []) (hnl : nl ∉ line) (cur text : List α) :
    feed nl cur (line ++ nl :: text) = feed nl (cur ++ line ++ [nl]) text := by
  have hgo : ∀ (line cur : List α), nl ∉ line → (line = [] → cur.getLast? ≠ some nl) →
      feed nl cur (line ++ nl :: text) = feed nl (cur ++ line ++ [nl]) text := by
    intro line
    induction line with
    | nil =>
      intro cur _ hcur
      rw [nil_append, feed_cons text fun _ => hcur rfl, append_nil]
    | cons c line ih =>
      intro cur hnl hcur
      rw [mem_cons, not_or] at hnl
      rw [cons_append, feed_cons _ fun hc => absurd hc.symm hnl.1, ih (cur ++ [c]) hnl.2]
      · simp
      · intro _ hlast
        rw [List.getLast?_concat] at hlast
        exact hnl.1 (Option.some.inj hlast).symm
  exact hgo line cur hnl fun h => absurd h hline

def unlines (nl : α) (lines : List (List α)) : List α := lines.flatMap (· ++ [nl])

omit [DecidableEq α] in
theorem unlines_append (xs ys : List (List α)) :
    unlines nl (xs ++ ys) = unlines nl xs ++ unlines nl ys := by
  simp [unlines]

omit [DecidableEq α] in
theorem unlines_concat (xs : List (List α)) (l : List α) :
    unlines nl (xs ++ [l]) = unlines nl xs ++ l ++ [nl] := by
  simp [unlines]

theorem feed_unlines (hne : ∀ l ∈ lines, l ≠ []) (hnl : ∀ l ∈ lines, nl ∉ l) :
    ∀ (cur text : List α),
      feed nl cur (unlines nl lines ++ text) = feed nl (cur ++ unlines nl lines) text := by
  induction lines with
  | nil => simp [unlines]
  | cons line lines ih =>
    intro cur text
    rw [forall_mem_cons] at hne hnl
    have hsplit : unlines nl (line :: lines) = line ++ nl :: unlines nl lines := by
      simp [unlines]
    rw [hsplit, append_assoc, cons_append, feed_line hne.1 hnl.1, ih hne.2 hnl.2]
    simp

omit [DecidableEq α] in
theorem unlines_eq_intercalate (h : lines ≠ []) :
    unlines nl lines = [nl].intercalate lines ++ [nl] := by
  induction lines with
  | nil => exact absurd rfl h
  | cons line lines ih =>
    cases lines with
    | nil => simp [unlines]
    | cons l ls =>
      have := ih (by simp)
      rw [unlines, flatMap_cons, ← unlines, this]
      simp [List.intercalate]

theorem mem_splitOn {text line : List α} (h : line ∈ text.splitOn nl) : nl ∉ line ∧ line ⊆ text := by
  unfold List.splitOn at h
  induction text generalizing line with
  | nil =>
    rw [splitOnP_nil, mem_singleton] at h
    simp [h]
  | cons c text ih =>
    rw [splitOnP_cons_eq_if_modifyHead] at h
    split at h
    · rcases mem_cons.mp h with rfl | h
      · simp
      · exact ⟨(ih h).1, subset_cons_of_subset c (ih h).2⟩
    · rename_i hc
      cases hsplit : text.splitOnP (· == nl) with
      | nil => exact absurd hsplit (splitOnP_ne_nil _ _)
      | cons first rest =>
        rw [hsplit] at h ih
        rcases mem_cons.mp h with rfl | h
        · have hfst := ih (mem_cons_self (a := first))
          refine ⟨?_, cons_subset_cons c hfst.2⟩
          rw [mem_cons, not_or]
          exact ⟨fun hnl => hc (by simp [hnl]), hfst.1⟩
        · have hrest := ih (mem_cons_of_mem first h)
          exact ⟨hrest.1, subset_cons_of_subset c hrest.2⟩

/-- **Lines and an empty line** are one block: the lines with `nl` between them. -/
theorem feed_lines (h : lines ≠ []) (hne : ∀ l ∈ lines, l ≠ []) (hnl : ∀ l ∈ lines, nl ∉ l)
    (text : List α) :
    feed nl [] (unlines nl lines ++ nl :: text) =
      ((feed nl [] text).1, [nl].intercalate lines :: (feed nl [] text).2) := by
  rw [feed_unlines hne hnl, nil_append, unlines_eq_intercalate h, feed, if_pos ⟨rfl, by simp⟩]
  simp

end Blocks
