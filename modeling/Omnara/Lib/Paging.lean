import Mathlib.Data.List.Sort

/-!
# Reading an ordered log page by page

`page log after limit` is the answer of a query `… WHERE key > after ORDER BY key LIMIT limit` on a
log kept in key order. `pagedFold` is the loop that reads pages up to a bound and feeds the entries
to `step`, which may return early (`.error`). `pagedFold_eq` removes the paging: if entries past the
bound make the reader return `out`, the loop computes the same as one pass over the entries between
the cursor and the bound, for every page size.
-/

namespace Paging

open List

variable {α β σ : Type} {log : List α} {step : σ → α → Except β σ} {limit : Nat} {a b : Int} {r : α}

def page (key : α → Int) (log : List α) (after : Int) (limit : Nat) : List α :=
  (log.filter fun x => after < key x).take limit

/-- One round per page. A short page is the last one. -/
def pagedFold (key : α → Int) (log : List α) (limit : Nat) (bound : Int)
    (step : σ → α → Except β σ) : Nat → Int → σ → Except β σ
  | 0, _, s => .ok s
  | fuel + 1, after, s =>
    if after < bound then
      match (page key log after limit).getLast? with
      | none => .ok s
      | some last =>
        match (page key log after limit).foldlM step s with
        | .error r => .error r
        | .ok s' =>
          if (page key log after limit).length < limit then .ok s'
          else pagedFold key log limit bound step fuel (key last) s'
    else .ok s

/-- The value of a run: the early return, or `out` of the final state. -/
def value (out : σ → β) : Except β σ → β
  | .error r => r
  | .ok s => out s

theorem foldlM_append_ok {xs ys : List α} {s s' : σ} (h : xs.foldlM step s = .ok s') :
    (xs ++ ys).foldlM step s = ys.foldlM step s' := by
  rw [foldlM_append, h]; rfl

theorem foldlM_append_error {xs ys : List α} {s : σ} {r : β} (h : xs.foldlM step s = .error r) :
    (xs ++ ys).foldlM step s = .error r := by
  rw [foldlM_append, h]; rfl

section
variable {key : α → Int} {bound : Int} {step : σ → α → Except β σ} {out : σ → β}

/-- Entries past the bound stop the reader, so cutting the log at the bound changes nothing. -/
theorem value_foldlM_cut (hstop : ∀ s x, bound < key x → step s x = .error (out s)) :
    ∀ {log : List α}, log.Pairwise (fun a b => key a < key b) → ∀ s,
      value out (log.foldlM step s) = value out ((log.filter fun x => key x ≤ bound).foldlM step s)
  | [], _, _ => rfl
  | x :: log, h, s => by
    obtain ⟨hx, hrest⟩ := pairwise_cons.mp h
    by_cases hb : key x ≤ bound
    · rw [filter_cons_of_pos (by simpa using hb), foldlM_cons, foldlM_cons]
      cases hs : step s x with
      | error r => rfl
      | ok s' => exact value_foldlM_cut hstop hrest s'
    · have hnone : (log.filter fun x => decide (key x ≤ bound)) = [] := by
        rw [filter_eq_nil_iff]
        intro y hy
        have := hx y hy
        simp only [decide_eq_true_eq]
        omega
      rw [filter_cons_of_neg (by simpa using hb), hnone, foldlM_cons, hstop s x (by omega)]
      rfl

/-- Lists in key order are the same if their members are. -/
theorem ordered_ext {left right : List α} (hleft : left.Pairwise fun x y => key x < key y)
    (hright : right.Pairwise fun x y => key x < key y) (h : ∀ x, x ∈ left ↔ x ∈ right) :
    left = right := by
  have hasymm : Std.Antisymm fun x y => key x < key y := ⟨fun x y hxy hyx => by omega⟩
  have hirrefl : Std.Irrefl fun x y => key x < key y := ⟨fun x => Int.lt_irrefl _⟩
  exact hleft.eq_of_mem_iff hright h

theorem filter_after_last (hord : log.Pairwise fun a b => key a < key b) {after : Int} {last : α}
    (hlast : (page key log after limit).getLast? = some last) :
    (log.filter fun x => after < key x).drop limit = log.filter fun x => key last < key x := by
  have hrest := hord.sublist (filter_sublist (p := fun x => after < key x))
  refine ordered_ext (hrest.sublist (drop_sublist _ _)) (hord.sublist filter_sublist) fun x => ?_
  obtain ⟨pre, hpre⟩ := List.getLast?_eq_some_iff.mp hlast
  -- everything in the page is at most `last`, everything dropped is later
  rw [← take_append_drop limit (log.filter _), ← page, hpre, pairwise_append, pairwise_append] at hrest
  obtain ⟨⟨-, -, hbefore⟩, -, hdrop⟩ := hrest
  have hmem : ∀ x, x ∈ (pre ++ [last]) ++ (log.filter fun x => after < key x).drop limit ↔
      x ∈ log ∧ after < key x := by
    intro x
    rw [← hpre, page, take_append_drop]
    simp
  have hafter := ((hmem last).mp (by simp)).2
  rw [mem_filter, decide_eq_true_eq]
  constructor
  · intro hx
    exact ⟨((hmem x).mp (mem_append_right _ hx)).1, hdrop last (by simp) x hx⟩
  · rintro ⟨hx, hlt⟩
    rcases mem_append.mp ((hmem x).mpr ⟨hx, by omega⟩) with hx | hx
    · rcases mem_append.mp hx with hx | hx
      · have := hbefore x hx last (by simp)
        omega
      · rw [mem_singleton.mp hx] at hlt
        omega
    · exact hx

/-- **Paging is invisible**: the loop computes what one pass over the entries between the cursor and
the bound computes. Every page drops an entry, so the length of the log is enough fuel. -/
theorem pagedFold_eq (hstop : ∀ s x, bound < key x → step s x = .error (out s))
    (hord : log.Pairwise fun a b => key a < key b) (hlim : 0 < limit) :
    ∀ (fuel : Nat) (after : Int) (s : σ), (log.filter fun x => after < key x).length < fuel →
      value out (pagedFold key log limit bound step fuel after s) =
        value out ((log.filter fun x => after < key x ∧ key x ≤ bound).foldlM step s)
  | 0, _, _, h => absurd h (Nat.not_lt_zero _)
  | fuel + 1, after, s, hfuel => by
    -- one pass over all entries after the cursor stops at the bound by itself
    have hpass : ∀ (a : Int) (s : σ),
        value out ((log.filter fun x => decide (a < key x ∧ key x ≤ bound)).foldlM step s) =
          value out ((log.filter fun x => decide (a < key x)).foldlM step s) := by
      intro a s
      conv_rhs => rw [value_foldlM_cut hstop (hord.sublist filter_sublist), filter_filter]
      congr 2
      refine filter_congr fun x _ => ?_
      rw [Bool.decide_and, Bool.and_comm]
    rw [pagedFold]
    split
    · rename_i haft
      cases hlast : (page key log after limit).getLast? with
      | none =>
        have hnil : (log.filter fun x => decide (after < key x)) = [] := by
          have := List.getLast?_eq_none_iff.mp hlast
          rcases take_eq_nil_iff.mp this with h | h
          · omega
          · exact h
        rw [hpass, hnil]; rfl
      | some last =>
        have hrest := filter_after_last hord hlast
        have hpts : (log.filter fun x => decide (after < key x)) = page key log after limit ++
            (log.filter fun x => decide (after < key x)).drop limit :=
          (take_append_drop limit _).symm
        cases hp : (page key log after limit).foldlM step s with
        | error r => rw [hpass, hpts, foldlM_append_error hp]
        | ok s' =>
          dsimp only
          rw [hpass, hpts, foldlM_append_ok hp]
          split
          · rename_i hsh
            have hdrop : (log.filter fun x => decide (after < key x)).drop limit = [] := by
              rw [drop_eq_nil_iff]
              simp only [page, length_take] at hsh
              omega
            rw [hdrop]; rfl
          · rename_i hfull
            rw [hrest, ← hpass]
            refine pagedFold_eq hstop hord hlim fuel (key last) s' ?_
            have hlen := congrArg List.length hrest
            rw [length_drop] at hlen
            have hpl : (page key log after limit).length ≤
                (log.filter fun x => decide (after < key x)).length := length_take_le' _ _
            omega
    · rename_i haft
      have hnil : (log.filter fun x => decide (after < key x ∧ key x ≤ bound)) = [] := by
        rw [filter_eq_nil_iff]
        intro x _
        simp only [decide_eq_true_eq]
        omega
      rw [hnil]; rfl

end

/-- The number of pages the loop reads. -/
def pageReads (key : α → Int) (log : List α) (limit : Nat) (bound : Int)
    (step : σ → α → Except β σ) : Nat → Int → σ → Nat
  | 0, _, _ => 0
  | fuel + 1, after, s =>
    if after < bound then
      match (page key log after limit).getLast?, (page key log after limit).foldlM step s with
      | some last, .ok s' =>
        if (page key log after limit).length < limit then 1
        else pageReads key log limit bound step fuel (key last) s' + 1
      | _, _ => 1
    else 0

/-- The loop ends: whatever the fuel, every page but the last is full and of entries not read before. -/
theorem pageReads_le {key : α → Int} (hord : log.Pairwise fun a b => key a < key b) (limit : Nat)
    (bound : Int) (step : σ → α → Except β σ) :
    ∀ (fuel : Nat) (after : Int) (s : σ), limit * pageReads key log limit bound step fuel after s ≤
      (log.filter fun x => after < key x).length + limit
  | 0, _, _ => by simp [pageReads]
  | fuel + 1, after, s => by
    rw [pageReads]
    split
    · split
      · rename_i last s' hlast _
        split
        · omega
        · rename_i hfull
          have hrest := congrArg List.length (filter_after_last hord hlast)
          have hrec := pageReads_le hord limit bound step fuel (key last) s'
          rw [page, length_take] at hfull
          rw [length_drop] at hrest
          rw [Nat.mul_add]
          omega
      · omega
    · omega

/-- Reading a whole log from a cursor, with its own length as fuel. -/
def readPages (key : α → Int) (log : List α) (limit : Nat) (bound : Int)
    (step : σ → α → Except β σ) (after : Int) (s : σ) : Except β σ :=
  pagedFold key log limit bound step (log.length + 1) after s

theorem readPages_eq {key : α → Int} {bound : Int} {out : σ → β}
    (hstop : ∀ s x, bound < key x → step s x = .error (out s))
    (hord : log.Pairwise fun a b => key a < key b) (hlim : 0 < limit) (after : Int) (s : σ) :
    value out (readPages key log limit bound step after s) =
      value out ((log.filter fun x => after < key x ∧ key x ≤ bound).foldlM step s) :=
  pagedFold_eq hstop hord hlim _ after s (Nat.lt_succ_of_le (length_filter_le _ _))

/-! ## Two readers -/

theorem foldlM_collect {step : List α → α → Except β (List α)}
    (h : ∀ acc, ∀ x ∈ log, step acc x = .ok (acc ++ [x])) (acc : List α) :
    log.foldlM step acc = .ok (acc ++ log) := by
  induction log generalizing acc with
  | nil => rw [append_nil]; rfl
  | cons x log ih =>
    rw [foldlM_cons, h acc x mem_cons_self]
    change log.foldlM step (acc ++ [x]) = _
    rw [ih (fun acc y hy => h acc y (mem_cons_of_mem _ hy)), append_assoc, singleton_append]

theorem foldlM_find {step : Unit → α → Except β Unit} {p : α → Bool} {b : β}
    (h : ∀ x ∈ log, step () x = if p x then .error b else .ok ()) :
    log.foldlM step () = if log.any p then .error b else .ok () := by
  induction log with
  | nil => rfl
  | cons x log ih =>
    rw [foldlM_cons, h x mem_cons_self, any_cons]
    cases hx : p x with
    | true => rfl
    | false =>
      change log.foldlM step () = _
      rw [ih fun y hy => h y (mem_cons_of_mem _ hy), Bool.false_or]

/-! ## Between two cursors -/

section
variable {key : α → Int}

/-- The entries after `a` up to `b`. -/
def between (key : α → Int) (log : List α) (a b : Int) : List α :=
  log.filter fun x => a < key x ∧ key x ≤ b

theorem between_eq_nil (log : List α) (h : b ≤ a) : between key log a b = [] := by
  rw [between, filter_eq_nil_iff]
  intro x _ hx
  rw [decide_eq_true_eq] at hx
  omega

theorem after_cons {log rest : List α} {a : Int} (hord : log.Pairwise fun x y => key x < key y)
    (h : (log.filter fun x => a < key x) = r :: rest) :
    a < key r ∧ between key log a (key r) = [r] ∧ (log.filter fun x => key r < key x) = rest := by
  have hsort := hord.sublist (filter_sublist (p := fun x => a < key x))
  rw [h] at hsort
  obtain ⟨hlater, hrest⟩ := pairwise_cons.mp hsort
  have hmem : ∀ x, x = r ∨ x ∈ rest ↔ x ∈ log ∧ a < key x := by
    intro x
    rw [← mem_cons, ← h]
    simp
  have hr := (hmem r).mp (.inl rfl)
  refine ⟨hr.2, ordered_ext (hord.sublist filter_sublist) (pairwise_singleton _ _) fun x => ?_,
    ordered_ext (hord.sublist filter_sublist) hrest fun x => ?_⟩
  · simp only [between, mem_filter, decide_eq_true_eq, mem_singleton]
    grind
  · simp only [mem_filter, decide_eq_true_eq]
    grind

theorem between_append (hord : log.Pairwise fun x y => key x < key y) {a b c : Int} (hab : a ≤ b)
    (hbc : b ≤ c) :
    between key log a b ++ between key log b c = between key log a c := by
  refine ordered_ext ?_ (hord.sublist filter_sublist) fun x => ?_
  · rw [pairwise_append]
    refine ⟨hord.sublist filter_sublist, hord.sublist filter_sublist, fun x hx y hy => ?_⟩
    simp only [between, mem_filter, decide_eq_true_eq] at hx hy
    omega
  · simp only [between, mem_append, mem_filter, decide_eq_true_eq]
    constructor
    · rintro (⟨hx, _⟩ | ⟨hx, _⟩) <;> exact ⟨hx, by omega⟩
    · rintro ⟨hx, _⟩
      rcases Int.lt_or_le b (key x) with _ | _
      · exact .inr ⟨hx, by omega⟩
      · exact .inl ⟨hx, by omega⟩

theorem between_cons {log rest : List α} (hord : log.Pairwise fun x y => key x < key y)
    (h : between key log a b = r :: rest) :
    a < key r ∧ key r ≤ b ∧ between key log a (key r) = [r] ∧ between key log (key r) b = rest := by
  have hsort := hord.sublist (filter_sublist (p := fun x => a < key x ∧ key x ≤ b))
  rw [← between, h] at hsort
  obtain ⟨hlater, hrest⟩ := pairwise_cons.mp hsort
  have hmem : ∀ x, x = r ∨ x ∈ rest ↔ x ∈ log ∧ a < key x ∧ key x ≤ b := by
    intro x
    rw [← mem_cons, ← h]
    simp [between]
  have hr := (hmem r).mp (.inl rfl)
  refine ⟨hr.2.1, hr.2.2, ordered_ext (hord.sublist filter_sublist) (pairwise_singleton _ _) fun x => ?_,
    ordered_ext (hord.sublist filter_sublist) hrest fun x => ?_⟩
  · simp only [between, mem_filter, decide_eq_true_eq, mem_singleton]
    grind
  · simp only [between, mem_filter, decide_eq_true_eq]
    grind

theorem between_concat (hr : ∀ x ∈ log, key x < key r) (hb : b ≤ a ∨ ∃ x ∈ log, b ≤ key x) :
    between key (log ++ [r]) a b = between key log a b := by
  rw [between, filter_append, ← between, filter_eq_nil_iff.mpr, append_nil]
  intro x hx
  rw [mem_singleton.mp hx, decide_eq_true_eq]
  rcases hb with hb | ⟨y, hy, hb⟩
  · omega
  · have := hr y hy
    omega

theorem pairwise_between (hord : log.Pairwise fun x y => key x < key y) (a b : Int) :
    (between key log a b).Pairwise fun x y => key x < key y :=
  hord.sublist filter_sublist

end

end Paging
