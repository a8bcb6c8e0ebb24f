import Mathlib.Algebra.Group.Action.Defs
import Mathlib.Algebra.Order.BigOperators.Group.List
import Mathlib.Algebra.Order.Ring.Nat
import Mathlib.Data.List.Sort
import Omnara.Lib.Follow
import Omnara.Tools.Proof.Lines

/-!
# Paging through the matches of a file

Following `next_offset_line` reports every matching line once, in order, with the lines around it
(`searchFiles_pages`).

* `truncateAroundMatch_spec`: a matching line is cut around its match, between characters.
* `matchBlock_eq`: the byte positions of a block are the starts of lines, so it shows the lines around the
  match; `Shown` is what a block must show, and `bytes_blockAt_le` bounds it, so that the first block of a
  page always fits.
* `searchLoop_spec`: the loop of a page takes the matches in order and stops before one it does not show;
  `searchFilesLines_page` is the page as a step of `Follow.follow_eq`.
-/

namespace Tools

open Json (Bytes)
open Text Fallible Follow Window
open Lines (linesOf lineStart Made)

/-! ## A line that is shown -/

section
variable {value : Bytes} {matchStart matchEnd limit : Nat}

/-- Moving both ends of a cut to where a character can start keeps the match in it. -/
theorem cut_spec {start stop : Nat} (hstart : start ≤ matchStart) (hle : matchStart ≤ matchEnd)
    (hend : matchEnd ≤ stop) (hstop : stop ≤ value.length) :
    ∃ s e, startAfter value (matchStart - start) start = s ∧ startBefore value matchEnd stop = e ∧
      start ≤ s ∧ s ≤ matchStart ∧ matchEnd ≤ e ∧ e ≤ stop ∧
      (valid value → Boundary value matchStart → Boundary value matchEnd →
        Boundary value s ∧ Boundary value e) := by
  obtain ⟨h₁, h₂, h₃⟩ := startAfter_spec value (matchStart - start) start
  obtain ⟨h₄, h₅, h₆, -⟩ := startBefore_spec value hend
  refine ⟨_, _, rfl, rfl, h₁, by omega, h₄, h₅, fun hval hs he => ⟨?_, ?_⟩⟩
  · rcases h₃ with heq | hrune
    · rwa [heq, Nat.add_sub_cancel' hstart]
    · exact boundary_of_runeStart hval (by omega) hrune
  · rcases h₆ with heq | hrune
    · rwa [heq]
    · exact boundary_of_runeStart hval (by omega) hrune

theorem valid_ellipsis_if (p : Prop) [Decidable p] : valid (if p then ellipsis else []) := by
  split
  · decide
  · rfl

theorem length_ellipsis_if (p : Prop) [Decidable p] :
    (if p then ellipsis else []).length ≤ ellipsis.length := by
  split <;> simp

/-- The matching line as it is shown: short, with the whole match if that is short, and valid text. -/
theorem truncateAroundMatch_spec (hle : matchStart ≤ matchEnd) (hend : matchEnd ≤ value.length)
    (hlim : 0 < limit) :
    (truncateAroundMatch value matchStart matchEnd limit).length ≤ limit + 2 * ellipsis.length ∧
      (matchEnd - matchStart < limit →
        range value matchStart matchEnd <:+: truncateAroundMatch value matchStart matchEnd limit) ∧
      (valid value → Boundary value matchStart → Boundary value matchEnd →
        valid (truncateAroundMatch value matchStart matchEnd limit)) := by
  unfold truncateAroundMatch
  split
  · exact ⟨by omega, fun _ => range_isInfix _ _ _, fun h _ _ => h⟩
  dsimp only
  split
  · refine ⟨Nat.le_trans (length_truncateBytes_le _ _) (by omega), by omega, fun _ hs he => ?_⟩
    -- a match that is too long: its beginning is cut from the match alone
    have hchunk : range value matchStart (min matchEnd (matchStart + limit + utfMax)) =
        (range value matchStart matchEnd).take
          (min matchEnd (matchStart + limit + utfMax) - matchStart) := by
      rw [range, range, List.take_take]
      congr 1
      omega
    have hn : min (range value matchStart matchEnd).length (limit + 1) ≤
        min matchEnd (matchStart + limit + utfMax) - matchStart := by
      rw [length_range hend]
      simp only [utfMax]
      omega
    obtain ⟨k, -, hk, htake, -⟩ := truncateBytes_take (hs.valid_between he hle) hlim hn
    rw [hchunk, range, htake]
    exact hk.valid
  · rename_i hlong hsh
    generalize hstart : matchStart - (limit - (matchEnd - matchStart)) / 2 = start
    generalize hstop : min value.length
      (matchEnd + (limit - (matchEnd - matchStart) - (matchStart - start))) = stop
    generalize hfrom : (if stop - start < limit then stop - limit else start) = from'
    have hfit : from' ≤ matchStart ∧ matchEnd ≤ stop ∧ stop ≤ value.length ∧ stop - from' ≤ limit := by
      rw [← hfrom]
      split <;> omega
    obtain ⟨s, e, hs, he, hle₁, hle₂, hle₃, hle₄, hbd⟩ := cut_spec hfit.1 hle hfit.2.1 hfit.2.2.1
    rw [hs, he]
    refine ⟨?_, fun _ => ?_, fun hval hms hme => ?_⟩
    · have hpre := length_ellipsis_if (0 < s)
      have hpost := length_ellipsis_if (e < value.length)
      rw [List.length_append, List.length_append, length_range (by omega)]
      omega
    · exact (range_isInfix_range hle₂ hle hle₃).trans ⟨_, _, rfl⟩
    · obtain ⟨hbs, hbe⟩ := hbd hval hms hme
      exact valid_append (valid_append (valid_ellipsis_if _) (hbs.valid_between hbe (by omega)))
        (valid_ellipsis_if _)

end

/-! ## Lines by position -/

variable {content : Bytes} {lines : List Bytes}

variable {k : Nat}

theorem lineLength_eq (p : Nat) :
    lineLength content p = min ((content.drop p).idxOf newline + 1) (content.length - p) := by
  rw [lineLength, List.idxOf_eq_getD_idxOf?]
  cases hidx : (content.drop p).idxOf? newline with
  | none =>
    rw [Option.getD_none, List.length_drop]
    dsimp only
    omega
  | some i =>
    have hi := (List.idxOf?_eq_some_iff.mp hidx).1
    rw [List.length_drop] at hi
    rw [Option.getD_some]
    dsimp only
    omega

theorem nextLine_lineStart (h : Made newline content lines) (k : Nat) :
    nextLine content (min (lineStart newline lines k) content.length) =
      min (lineStart newline lines (k + 1)) content.length := by
  by_cases hk : k < lines.length
  · have hlt := h.lineStart_lt_iff.mpr hk
    have hl := List.getElem?_eq_getElem hk
    have hpl := h.plain _ (List.getElem_mem hk)
    obtain ⟨rest, hdrop, hrest⟩ := h.drop_lineStart hl
    have hidx : (content.drop (lineStart newline lines k)).idxOf newline = lines[k].length := by
      rw [hdrop, List.idxOf_append, if_neg hpl]
      rcases hrest with rfl | ⟨rest', rfl⟩ <;> simp
    rw [Nat.min_eq_left (Nat.le_of_lt hlt), nextLine, if_pos hlt, lineLength_eq, hidx,
      Lines.lineStart_succ hl]
    omega
  · have hle := h.length_le
    rw [Lines.lineStart_of_le (by omega), Lines.lineStart_of_le (by omega),
      Nat.min_eq_right hle, nextLine_of_le (Nat.le_refl _)]

theorem skipLines_lineStart (h : Made newline content lines) (n k : Nat) :
    skipLines content n (min (lineStart newline lines k) content.length) =
      min (lineStart newline lines (k + n)) content.length := by
  rw [skipLines_eq]
  induction n with
  | zero => rfl
  | succ n ih => rw [Function.iterate_succ_apply', ih, nextLine_lineStart h, Nat.add_assoc]

theorem idxOf?_append_cons {l : Bytes} {b : UInt8} (h : b ∉ l) (rest : Bytes) :
    (l ++ b :: rest).idxOf? b = some l.length := by
  induction l with
  | nil => simp [List.idxOf?_cons]
  | cons c l ih =>
    rw [List.mem_cons, not_or] at h
    rw [List.cons_append, List.idxOf?_cons, if_neg (by simpa using Ne.symm h.1), ih h.2]
    rfl

theorem lastIndexByte_lineStart (h : Made newline content lines) (hk : k < lines.length) :
    (lastIndexByte (content.take (lineStart newline lines (k + 1) - 1)) newline + 1).toNat =
      lineStart newline lines k := by
  have hpl : newline ∉ lines[k].reverse := by simpa using h.plain _ (List.getElem_mem hk)
  rw [h.take_lineStart (List.getElem?_eq_getElem hk), lineStart, lastIndexByte, List.reverse_append]
  rcases List.eq_nil_or_concat (lines.take k) with hnil | ⟨front, last, hfront⟩
  · have hidx : lines[k].reverse.idxOf? newline = none := List.idxOf?_eq_none_iff.mpr hpl
    simp [hnil, Blocks.unlines, hidx]
  · rw [hfront, List.concat_eq_append, Blocks.unlines_concat, List.reverse_append,
      List.reverse_singleton, List.singleton_append, idxOf?_append_cons hpl]
    simp only [List.length_append, List.length_singleton, List.length_reverse]
    omega

theorem contextStart_eq (h : Made newline content lines) (n : Nat) (hk : k < lines.length) :
    contextStart content n (lineStart newline lines k) (k + 1) =
      (lineStart newline lines (k - n), k - n + 1) := by
  induction n generalizing k with
  | zero => rfl
  | succ n ih =>
    rw [contextStart]
    cases k with
    | zero => simp
    | succ k =>
      have hpos : 0 < lineStart newline lines (k + 1) := by
        rw [Lines.lineStart_succ (List.getElem?_eq_getElem (by omega))]
        omega
      rw [if_pos hpos, lastIndexByte_lineStart h (by omega), Nat.add_sub_cancel, ih (by omega)]
      congr 2 <;> omega

/-- **The block of a match** shows the lines around it. -/
theorem matchBlock_eq (h : Made newline content lines) (contextLines : Nat)
    (hk : k < lines.length) (location : Nat × Nat) :
    matchBlock content contextLines (k + 1) (lineStart newline lines k) (lineStart newline lines (k + 1))
        location =
      { matchLine := k + 1
        lines := ((lines.take (k + 1 + contextLines)).drop (k - contextLines)).mapIdx fun i line =>
          visibleLine (k + 1) location (k - contextLines + 1 + i) line } := by
  unfold matchBlock
  rw [contextStart_eq h contextLines hk]
  dsimp only
  rw [skipLines_lineStart h, h.splitOn_range (by omega) (by omega)]

/-! ## Blocks -/

/-- The first match in a line, which is counted from 1. -/
def matchAt (pattern : Regexp) (lines : List Bytes) (n : Nat) : Option (Nat × Nat) :=
  (lines[n - 1]?).bind pattern.findIndex

/-- The block of the match in line `n`: the lines at most `contextLines` away. -/
def blockAt (pattern : Regexp) (lines : List Bytes) (contextLines n : Nat) : Block where
  matchLine := n
  lines := ((lines.take (n + contextLines)).drop (n - 1 - contextLines)).mapIdx fun i line =>
    visibleLine n ((matchAt pattern lines n).getD (0, 0)) (n - 1 - contextLines + 1 + i) line

/-- What a block must show. The numbers are those of the lines around the match; every line is cut to
`searchLineBytes` and two ellipses at most, the matching one around its match. -/
structure Shown (pattern : Regexp) (content : Bytes) (contextLines : Nat) (b : Block) : Prop where
  numbers : b.lines.map VisibleLine.lineNumber =
    (List.range' 1 (linesOf newline content).length).filter fun j =>
      b.matchLine ≤ j + contextLines ∧ j ≤ b.matchLine + contextLines
  isMatch : ∀ v ∈ b.lines, v.isMatch = decide (v.lineNumber = b.matchLine)
  short : ∀ v ∈ b.lines, v.text.length ≤ searchLineBytes + 2 * ellipsis.length
  valid : valid content → ∀ v ∈ b.lines, valid v.text
  text : ∀ v ∈ b.lines, ∃ line, (linesOf newline content)[v.lineNumber - 1]? = some line ∧
    if v.isMatch then
      ∃ start stop, pattern.findIndex line = some (start, stop) ∧
        (stop - start < searchLineBytes → range line start stop <:+: v.text)
    else v.text <+: line ∧ (line.length ≤ searchLineBytes → v.text = line)

section
variable {pattern : Regexp} {contextLines n : Nat}

variable {line : Bytes} {start stop : Nat}

theorem mem_blockAt {v : VisibleLine} (h : v ∈ (blockAt pattern lines contextLines n).lines) :
    ∃ j line, lines[j]? = some line ∧
      v = visibleLine n ((matchAt pattern lines n).getD (0, 0)) (j + 1) line := by
  obtain ⟨i, hi, rfl⟩ := List.mem_mapIdx.mp h
  rw [List.length_drop, List.length_take] at hi
  have hlt : n - 1 - contextLines + i < lines.length := by omega
  refine ⟨n - 1 - contextLines + i, _, List.getElem?_eq_getElem hlt, ?_⟩
  rw [List.getElem_drop, List.getElem_take]
  congr 1
  omega

theorem blockAt_numbers : (blockAt pattern lines contextLines n).lines.map VisibleLine.lineNumber =
      (List.range' 1 lines.length).filter fun j => n ≤ j + contextLines ∧ j ≤ n + contextLines := by
  have hrng : (blockAt pattern lines contextLines n).lines.map VisibleLine.lineNumber =
      List.range' (n - 1 - contextLines + 1)
        (min (n + contextLines) lines.length - (n - 1 - contextLines)) := by
    refine List.ext_getElem (by simp [blockAt]) fun i _ _ => ?_
    simp [blockAt, visibleLine]
  rw [hrng]
  -- both sides are increasing, with the same members
  refine List.Pairwise.eq_of_mem_iff (List.pairwise_lt_range' _)
    (List.Pairwise.filter _ (List.pairwise_lt_range' 1)) fun j => ?_
  simp only [List.mem_filter, List.mem_range'_1, decide_eq_true_eq]
  omega

theorem contextText_spec (line : Bytes) :
    let text := truncateBytes (line.take (min line.length (searchLineBytes + utfMax))) searchLineBytes
    text <+: line ∧ text.length ≤ searchLineBytes ∧ (line.length ≤ searchLineBytes → text = line) ∧
      (valid line → valid text) := by
  refine ⟨(truncateBytes_isPrefix _ _).trans (List.take_prefix _ _), length_truncateBytes_le _ _,
    fun hsh => ?_, fun h => ?_⟩
  · rw [List.take_of_length_le (by omega), truncateBytes, if_neg (by decide), if_pos hsh]
  · have hn : min line.length (searchLineBytes + 1) ≤ min line.length (searchLineBytes + utfMax) := by
      simp only [utfMax]
      omega
    obtain ⟨k, -, hk, htake, -⟩ := truncateBytes_take h (by decide) hn
    rw [htake]
    exact hk.valid

theorem valid_line (h : Made newline content lines) (hval : valid content) {k : Nat}
    (hline : lines[k]? = some line) : valid line := by
  have hbef : ∀ k line, lines[k]? = some line → valid (Blocks.unlines newline (lines.take k) ++ line) := by
    intro k line hline
    obtain ⟨rest, htext, hrest⟩ := h.split hline
    refine valid_of_runeStart (b := rest) (htext ▸ hval) fun c hc => ?_
    rcases hrest with ⟨rfl, -⟩ | ⟨rest', rfl⟩
    · cases hc
    · cases hc
      decide
  have hfront : ∀ k ≤ lines.length, valid (Blocks.unlines newline (lines.take k)) := by
    intro k hk
    cases k with
    | zero => rfl
    | succ k =>
      have hget := List.getElem?_eq_getElem (Nat.lt_of_succ_le hk)
      rw [List.take_add_one, hget, Option.toList_some, Blocks.unlines_concat]
      exact valid_append (hbef k _ hget) (by decide)
  have hk := (List.getElem?_eq_some_iff.mp hline).1
  exact valid_of_append (hfront k (by omega)) (hbef k line hline)

theorem blockAt_cases (hline : lines[n - 1]? = some line)
    (hfind : pattern.findIndex line = some (start, stop)) {v : VisibleLine}
    (hv : v ∈ (blockAt pattern lines contextLines n).lines) :
    ∃ l, lines[v.lineNumber - 1]? = some l ∧ v.isMatch = decide (v.lineNumber = n) ∧
      (v.lineNumber = n ∧ l = line ∧ v.text = truncateAroundMatch line start stop searchLineBytes ∨
        v.lineNumber ≠ n ∧ v.text =
          truncateBytes (l.take (min l.length (searchLineBytes + utfMax))) searchLineBytes) := by
  obtain ⟨j, l, hl, rfl⟩ := mem_blockAt hv
  have hmatch : matchAt pattern lines n = some (start, stop) := by rw [matchAt, hline]; exact hfind
  refine ⟨l, hl, rfl, ?_⟩
  rw [hmatch]
  by_cases hj : j + 1 = n
  · subst hj
    rw [Nat.add_sub_cancel, hl] at hline
    cases hline
    exact .inl ⟨rfl, rfl, if_pos rfl⟩
  · exact .inr ⟨hj, if_neg hj⟩

theorem shown_blockAt (hline : (linesOf newline content)[n - 1]? = some line)
    (hfind : pattern.findIndex line = some (start, stop)) :
    Shown pattern content contextLines (blockAt pattern (linesOf newline content) contextLines n) := by
  have hmade := Lines.made_linesOf newline content
  obtain ⟨hle, hend⟩ := pattern.bounds hfind
  obtain ⟨hsh, hwhole, hval⟩ := truncateAroundMatch_spec hle hend (by decide : 0 < searchLineBytes)
  refine ⟨blockAt_numbers, fun v hv => ?_, fun v hv => ?_, fun hcont v hv => ?_,
    fun v hv => ?_⟩ <;> obtain ⟨l, hl, his, ⟨hnum, rfl, htext⟩ | ⟨hnum, htext⟩⟩ :=
      blockAt_cases hline hfind hv
  · exact his
  · exact his
  · rw [htext]
    exact hsh
  · rw [htext]
    exact Nat.le_add_right_of_le (contextText_spec l).2.1
  · obtain ⟨hs, he⟩ := pattern.boundary (valid_line hmade hcont hl) hfind
    rw [htext]
    exact hval (valid_line hmade hcont hl) hs he
  · rw [htext]
    exact (contextText_spec l).2.2.2 (valid_line hmade hcont hl)
  · refine ⟨l, hl, ?_⟩
    rw [his, decide_eq_true hnum, if_pos rfl, htext]
    exact ⟨start, stop, hfind, hwhole⟩
  · refine ⟨l, hl, ?_⟩
    rw [his, decide_eq_false hnum, if_neg (by simp), htext]
    exact ⟨(contextText_spec l).1, (contextText_spec l).2.2.1⟩

theorem bytes_blockAt_le (hline : lines[n - 1]? = some line)
    (hfind : pattern.findIndex line = some (start, stop))
    (hctx : contextLines ≤ searchMaxContextLines) :
    (blockAt pattern lines contextLines n).bytes ≤ artifactPageBytes := by
  obtain ⟨hle, hend⟩ := pattern.bounds hfind
  have hmatch := (truncateAroundMatch_spec hle hend (by decide : 0 < searchLineBytes)).1
  have hlines : (blockAt pattern lines contextLines n).lines.length ≤ 2 * searchMaxContextLines + 1 := by
    rw [blockAt, List.length_mapIdx, List.length_drop, List.length_take]
    omega
  have hsum := List.sum_le_card_nsmul
    ((blockAt pattern lines contextLines n).lines.map fun line => line.text.length + 32)
    (searchLineBytes + 2 * ellipsis.length + 32) (by
      intro x hx
      obtain ⟨v, hv, rfl⟩ := List.mem_map.mp hx
      obtain ⟨l, -, -, ⟨-, rfl, htext⟩ | ⟨-, htext⟩⟩ := blockAt_cases hline hfind hv
      · rw [htext]
        omega
      · have := (contextText_spec l).2.1
        rw [htext]
        omega)
  rw [List.length_map, smul_eq_mul] at hsum
  refine Nat.le_trans hsum (Nat.le_trans (Nat.mul_le_mul_right _ hlines) (by decide))

end

/-! ## One page -/

section
variable {pattern : Regexp} {limits : SearchLimits}

/-- The matching lines after line `k` that a search reports. -/
def pending (pattern : Regexp) (limits : SearchLimits) (lines : List Bytes) (k : Nat) : List Nat :=
  (List.range' (k + 1) (lines.length - k)).filter fun n =>
    limits.offsetLine ≤ n ∧ (matchAt pattern lines n).isSome

variable {k : Nat}

theorem pending_of_le (hk : lines.length ≤ k) : pending pattern limits lines k = [] := by
  rw [pending, Nat.sub_eq_zero_of_le hk]
  rfl

theorem pending_of_lt (hk : k < lines.length) :
    pending pattern limits lines k =
      if limits.offsetLine ≤ k + 1 ∧ (pattern.findIndex lines[k]).isSome then
        (k + 1) :: pending pattern limits lines (k + 1)
      else pending pattern limits lines (k + 1) := by
  rw [pending, show lines.length - k = lines.length - (k + 1) + 1 by omega, List.range'_succ,
    List.filter_cons]
  simp [matchAt, List.getElem?_eq_getElem hk, pending]

/-- How a page ends: at the end of the content, or before a match that is not shown any more. -/
def Ends (rest : List Nat) (blocks : List Block) (next : Nat) : Prop :=
  next = 0 ∧ rest = [] ∨ 0 < next ∧ blocks ≠ [] ∧ ∃ rest', rest = next :: rest'

theorem matchBlock_eq_blockAt (h : Made newline content lines) {contextLines : Nat}
    (hk : k < lines.length) {location : Nat × Nat} (hfind : pattern.findIndex lines[k] = some location) :
    matchBlock content contextLines (k + 1) (lineStart newline lines k)
      (lineStart newline lines (k + 1)) location = blockAt pattern lines contextLines (k + 1) := by
  rw [matchBlock_eq h contextLines hk, blockAt, matchAt, Nat.add_sub_cancel,
    List.getElem?_eq_getElem hk, Option.bind_some, hfind, Option.getD_some]

/-- **The loop of a page** takes the pending matches in order until it ends. -/
theorem searchLoop_spec (pattern : Regexp) (limits : SearchLimits) (content : Bytes) (k : Nat)
    (blocks : List Block) (renderedBytes : Nat)
    (hk : k ≤ (linesOf newline content).length) (hemp : blocks = [] → renderedBytes = 0) :
    ∃ taken rest, pending pattern limits (linesOf newline content) k = taken ++ rest ∧
      ∃ next, searchLoop content pattern limits ((content.splitOn newline).drop k) k
          (lineStart newline (linesOf newline content) k) blocks renderedBytes =
        (blocks ++ taken.map (blockAt pattern (linesOf newline content) limits.contextLines), next) ∧
      Ends rest (blocks ++ taken.map (blockAt pattern (linesOf newline content) limits.contextLines))
        next := by
  have hmade := Lines.made_linesOf newline content
  have hprefix := Lines.linesOf_isPrefix newline content
  generalize hlines : linesOf newline content = lines at *
  generalize hm : lines.length - k = m
  induction m generalizing k blocks renderedBytes with
  | zero =>
    refine ⟨[], [], by rw [pending_of_le (by omega)]; rfl, 0, ?_, .inl ⟨rfl, rfl⟩⟩
    have hend : content.length ≤ lineStart newline lines k := by
      have := hmade.lineStart_lt_iff (k := k)
      omega
    cases (content.splitOn newline).drop k with
    | nil => simp [searchLoop]
    | cons line rest => simp [searchLoop, hend]
  | succ m ih =>
    have hlt : k < lines.length := by omega
    have hdrop : (content.splitOn newline).drop k =
        lines[k] :: (content.splitOn newline).drop (k + 1) := by
      obtain ⟨tail, htail⟩ := hprefix
      rw [← htail, List.drop_append_of_le_length (by omega), List.drop_append_of_le_length (by omega),
        List.drop_eq_getElem_cons hlt, List.cons_append]
    have hstart := hmade.lineStart_lt_iff.mpr hlt
    have hnext : lineStart newline lines (k + 1) = lineStart newline lines k + lines[k].length + 1 :=
      Lines.lineStart_succ (List.getElem?_eq_getElem hlt)
    rw [hdrop, searchLoop]
    rw [if_neg (by omega), ← hnext, pending_of_lt hlt]
    by_cases hoff : k + 1 < limits.offsetLine
    · rw [if_pos hoff, if_neg (by omega)]
      exact ih (k + 1) blocks renderedBytes hemp (by omega) (by omega)
    rw [if_neg hoff]
    cases hfind : pattern.findIndex lines[k] with
    | none =>
      rw [if_neg (by simp)]
      exact ih (k + 1) blocks renderedBytes hemp (by omega) (by omega)
    | some location =>
      dsimp only
      rw [if_pos ⟨by omega, rfl⟩, matchBlock_eq_blockAt hmade hlt hfind]
      obtain ⟨-, hmax, -, hctx⟩ := limits.legal
      by_cases hfull : limits.maxMatches ≤ blocks.length
      · rw [if_pos hfull]
        have hne : blocks ≠ [] := List.length_pos_iff.mp (by omega)
        exact ⟨[], _, rfl, k + 1, by simp, .inr ⟨by omega, by simpa using hne, _, rfl⟩⟩
      rw [if_neg hfull]
      have hbytes := bytes_blockAt_le (n := k + 1) (List.getElem?_eq_getElem hlt) hfind hctx
      split
      · -- the first block of a page always fits
        have hne : blocks ≠ [] := fun hnil => by
          have := hemp hnil
          omega
        exact ⟨[], _, rfl, k + 1, by simp, .inr ⟨by omega, by simpa using hne, _, rfl⟩⟩
      · obtain ⟨taken, rest, hpend, next, hloop, hends⟩ := ih (k + 1)
          (blocks ++ [blockAt pattern lines limits.contextLines (k + 1)]) _ (by simp) (by omega) (by omega)
        refine ⟨(k + 1) :: taken, rest, by rw [hpend]; rfl, next, ?_, ?_⟩
        · rw [hloop, List.append_assoc]
          rfl
        · rw [List.append_assoc] at hends
          exact hends

end

/-! ## All pages -/

/-- The limits a reader chooses for a page; the number of matches may be left out. -/
structure SearchChoice where
  maxMatches : Option Int := none
  contextLines : Int := 0
  legalMatches : ∀ n ∈ maxMatches, 1 ≤ n ∧ n ≤ searchMaxMatches := by simp
  legalContext : 0 ≤ contextLines ∧ contextLines ≤ searchMaxContextLines := by decide

def SearchChoice.request (choice : SearchChoice) (path pattern : String) (offsetLine : Nat) :
    SearchFilesRequest where
  path := path
  pattern := pattern
  offsetLine := some offsetLine
  maxMatches := choice.maxMatches
  contextLines := choice.contextLines

def matchingLines (pattern : Regexp) (content : Bytes) : List Nat :=
  (List.range' 1 (linesOf newline content).length).filter fun n =>
    (matchAt pattern (linesOf newline content) n).isSome

theorem matchingLines_pairwise (pattern : Regexp) (content : Bytes) :
    (matchingLines pattern content).Pairwise (· < ·) :=
  List.Pairwise.filter _ (List.pairwise_lt_range' 1)

theorem filter_le_of_pairwise {xs front rest : List Nat} {n : Nat} (hxs : xs.Pairwise (· < ·))
    (heq : xs = front ++ n :: rest) : xs.filter (n ≤ ·) = n :: rest := by
  subst heq
  obtain ⟨-, hrest, hfront⟩ := List.pairwise_append.mp hxs
  refine (hxs.filter _).eq_of_mem_iff hrest fun m => ?_
  have hbef : m ∈ front → m < n := fun hm => hfront m hm n List.mem_cons_self
  have haft : m ∈ rest → n < m := (List.pairwise_cons.mp hrest).1 m
  grind

section
variable {pattern : Regexp} {limits : SearchLimits}

def Left (pattern : Regexp) (content : Bytes) (n : Nat) (left : List Nat) : Prop :=
  1 ≤ n ∧ left = (matchingLines pattern content).filter (n ≤ ·)

theorem pending_zero :
    pending pattern limits (linesOf newline content) 0 =
      (matchingLines pattern content).filter (limits.offsetLine ≤ ·) := by
  rw [matchingLines, List.filter_filter, pending, Nat.sub_zero]
  refine List.filter_congr fun n _ => ?_
  simp

structure PageOk (pattern : Regexp) (content : Bytes) (contextLines : Nat) (page : SearchFilesResult) :
    Prop where
  truncated : page.truncated = page.nextOffsetLine.isSome
  progress : page.truncated → page.found ≠ []
  shown : ∀ b ∈ page.found, Shown pattern content contextLines b

/-- **One page** shows the next matches and names the line of the first one it does not show. -/
theorem searchFilesLines_page (pattern : Regexp) (limits : SearchLimits) (path : String)
    (content : Bytes) :
    PageOk pattern content limits.contextLines (searchFilesLines content path pattern limits) ∧
      Step (Left pattern content) SearchFilesResult.nextOffsetLine
        (fun page => page.found.map Block.matchLine)
        ((matchingLines pattern content).filter (limits.offsetLine ≤ ·))
        (searchFilesLines content path pattern limits) := by
  obtain ⟨taken, rest, hpend, next, hloop, hends⟩ :=
    searchLoop_spec pattern limits content 0 [] 0 (Nat.zero_le _) fun _ => rfl
  rw [List.drop_zero, Lines.lineStart_zero, List.nil_append] at hloop
  rw [pending_zero] at hpend
  have hnumbers : (taken.map (blockAt pattern (linesOf newline content) limits.contextLines)).map
      Block.matchLine = taken := by
    rw [List.map_map]
    exact List.map_id taken
  have hshown : ∀ b ∈ taken.map (blockAt pattern (linesOf newline content) limits.contextLines),
      Shown pattern content limits.contextLines b := by
    intro b hb
    obtain ⟨n, hn, rfl⟩ := List.mem_map.mp hb
    have hmem : n ∈ matchingLines pattern content :=
      List.mem_of_mem_filter (hpend ▸ List.mem_append_left rest hn)
    obtain ⟨-, hmatch⟩ := List.mem_filter.mp hmem
    obtain ⟨⟨start, stop⟩, hmatch⟩ := Option.isSome_iff_exists.mp hmatch
    obtain ⟨line, hline, hfind⟩ := Option.bind_eq_some_iff.mp hmatch
    exact shown_blockAt hline hfind
  rw [searchFilesLines, hloop]
  rcases hends with ⟨rfl, rfl⟩ | ⟨hpos, hne, rest', rfl⟩
  · refine ⟨⟨by simp, by simp, hshown⟩, ?_⟩
    simp only [Step, Nat.lt_irrefl, if_false, hnumbers]
    rw [hpend, List.append_nil]
  · refine ⟨⟨by simp [hpos], fun _ => hne, hshown⟩, ?_⟩
    simp only [Step, hpos, if_true, hnumbers]
    refine ⟨fun hnil => hne (by rw [hnil]; rfl), next :: rest', hpend, hpos, ?_⟩
    -- the next page starts behind this one's matches
    have hge : limits.offsetLine ≤ next := by
      have hmem : next ∈ (matchingLines pattern content).filter (limits.offsetLine ≤ ·) := by
        rw [hpend]
        simp
      simpa using (List.mem_filter.mp hmem).2
    rw [← filter_le_of_pairwise ((matchingLines_pairwise pattern content).filter _) hpend,
      List.filter_filter]
    refine List.filter_congr fun n _ => ?_
    rw [← Bool.decide_and, decide_eq_decide]
    omega

end

section
variable {ID : Type} {decode : List Char → Option ID} {compile : String → Except String Regexp}
  {path text : String} {pattern : Regexp}

theorem searchFiles_request (hpath : (resolveArtifactPath decode path).isSome)
    (htext : text ≠ "" ∧ text.utf8ByteSize ≤ searchMaxPatternBytes)
    (hcompile : compile text = .ok pattern)
    (content : Bytes) (choice : SearchChoice) {n : Nat} (hn : 1 ≤ n) :
    ∃ limits : SearchLimits, limits.offsetLine = n ∧ limits.contextLines = choice.contextLines.toNat ∧
      searchFiles decode compile content (choice.request path text n) =
        .ok (searchFilesLines content path pattern limits) := by
  obtain ⟨id, hid⟩ := Option.isSome_iff_exists.mp hpath
  have hmax := legal_getD searchDefaultMatches (by decide) choice.legalMatches
  have hctx := choice.legalContext
  obtain ⟨limits, hlims, hoffset, hlines⟩ : ∃ limits,
      searchLimits n (choice.maxMatches.getD searchDefaultMatches) choice.contextLines = .ok limits ∧
        limits.offsetLine = n ∧ limits.contextLines = choice.contextLines.toNat :=
    ⟨_, dif_pos (by omega), Int.toNat_natCast n, rfl⟩
  refine ⟨limits, hoffset, hlines, ?_⟩
  simp [searchFiles, resolveSearchFilesRequest, SearchChoice.request, hid, ensure, htext, hcompile,
    hlims, bind, Except.bind, pure, Except.pure, Except.mapError]

/-- **Following the pages of a search** reports the matching lines, each once and in increasing order,
with any legal limits: the reading ends, and every page is as it should be. -/
theorem searchFiles_pages (hpath : (resolveArtifactPath decode path).isSome)
    (htext : text ≠ "" ∧ text.utf8ByteSize ≤ searchMaxPatternBytes)
    (hcompile : compile text = .ok pattern)
    (content : Bytes) (choices : Nat → SearchChoice) :
    ∃ pages, follow
        (fun i n => (searchFiles decode compile content ((choices i).request path text n)).toOption)
        SearchFilesResult.nextOffsetLine ((matchingLines pattern content).length + 1) 0 1 = some pages ∧
      (pages.map fun page => page.found.map Block.matchLine).flatten = matchingLines pattern content ∧
      (matchingLines pattern content).Pairwise (· < ·) ∧
      ∀ i page, pages[i]? = some page →
        PageOk pattern content (choices i).contextLines.toNat page := by
  have hread : ∀ i n left, Left pattern content n left → ∃ page,
      (searchFiles decode compile content ((choices i).request path text n)).toOption = some page ∧
        PageOk pattern content (choices i).contextLines.toNat page ∧
        Step (Left pattern content) SearchFilesResult.nextOffsetLine
          (fun page => page.found.map Block.matchLine) left page := by
    rintro i n _ ⟨hn, rfl⟩
    obtain ⟨limits, rfl, hcontext, hpage⟩ := searchFiles_request hpath htext hcompile content (choices i) hn
    have h := searchFilesLines_page pattern limits path content
    exact ⟨_, by rw [hpage]; rfl, hcontext ▸ h.1, h.2⟩
  have hstart : Left pattern content 1 (matchingLines pattern content) := by
    refine ⟨Nat.le_refl _, (List.filter_eq_self.mpr fun n hn => ?_).symm⟩
    have := (List.mem_range'_1.mp (List.mem_of_mem_filter hn)).1
    simpa using this
  obtain ⟨pages, hpages, hshown, hall⟩ :=
    follow_eq (Left pattern content) hread _ 0 1 _ hstart (Nat.lt_succ_self _)
  exact ⟨pages, hpages, hshown, matchingLines_pairwise pattern content, fun i page hi =>
    Nat.zero_add i ▸ hall i page hi⟩

end

def letter (c : UInt8) (hc : c < 128) : Regexp where
  string := String.singleton (Char.ofUInt8 c)
  findIndex := fun line => (line.idxOf? c).map fun i => (i, i + 1)
  bounds := by
    intro line start stop h
    obtain ⟨i, hi, heq⟩ := Option.map_eq_some_iff.mp h
    obtain ⟨hlt, -⟩ := List.idxOf?_eq_some_iff.mp hi
    cases heq
    exact ⟨Nat.le_succ _, hlt⟩
  boundary := by
    intro line start stop hval h
    obtain ⟨i, hi, heq⟩ := Option.map_eq_some_iff.mp h
    obtain ⟨hlt, hget, -⟩ := List.idxOf?_eq_some_iff.mp hi
    cases heq
    exact boundary_ascii hval (List.getElem?_eq_some_iff.mpr ⟨hlt, hget⟩) hc

def sampleLines : Bytes := [97, 98, 10, 99, 10, 98]

def sampleChoice : SearchChoice where
  maxMatches := some 1
  contextLines := 1
  legalMatches := by simp [searchMaxMatches]
  legalContext := by decide

def sampleCompile (_ : String) : Except String Regexp := .ok (letter 98 (by decide))

theorem searchFiles_pages_sample :
    matchingLines (letter 98 (by decide)) sampleLines = [1, 3] ∧ ∃ pages, follow
          (fun _ n => (searchFiles decodeArtifact sampleCompile sampleLines
            (sampleChoice.request "/artifacts/art_aaaaaaaaaaaaaaaaaaaaaaaaae" "b" n)).toOption)
          SearchFilesResult.nextOffsetLine
          ((matchingLines (letter 98 (by decide)) sampleLines).length + 1) 0 1 = some pages ∧
        (pages.map fun page => page.found.map Block.matchLine).flatten =
          matchingLines (letter 98 (by decide)) sampleLines ∧
        (matchingLines (letter 98 (by decide)) sampleLines).Pairwise (· < ·) ∧
        ∀ (i : Nat) page, pages[i]? = some page →
          PageOk (letter 98 (by decide)) sampleLines sampleChoice.contextLines.toNat page :=
  ⟨by decide, searchFiles_pages (by decide +kernel) (by decide) rfl sampleLines fun _ => sampleChoice⟩

end Tools
