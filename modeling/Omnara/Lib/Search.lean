import Mathlib.Algebra.Order.Ring.Int
import Mathlib.Data.Nat.Log
import Mathlib.Tactic.Common

/-!
# Binary searches

`search` is Go's `sort.Search`. `bisect` is the loop of a search with a fallible test over an
inclusive index range, which remembers the last index that passed: with `down := true` it moves
towards smaller indices after a pass (first index that passes), with `down := false` towards larger
ones (last index that passes). The test need not be monotone: `bisect_spec` says what holds for
arbitrary answers, and `bisect_last` that a test which no larger index passes where a smaller one fails
leaves no passing index above the result; `bisect_first` is the same in the other direction, and
`bisectTests_le` bounds the number of tests. `searchLast` keeps what the last passing test returned.
-/

namespace Search

/-! ## A list searched by index -/

theorem getD_mem {l : List Int} {i : Int} (h0 : 0 ≤ i) (h : i ≤ l.length - 1) :
    l.getD i.toNat 0 ∈ l := by
  rw [List.getD_eq_getElem?_getD, List.getElem?_eq_getElem (by omega), Option.getD_some]
  exact List.getElem_mem _

theorem getD_le {l : List Int} (hord : l.Pairwise (· ≤ ·)) {a b : Nat} (hab : a ≤ b)
    (hb : b < l.length) : l.getD a 0 ≤ l.getD b 0 := by
  rcases Nat.eq_or_lt_of_le hab with rfl | hlt
  · exact Int.le_refl _
  · have ha : a < l.length := by omega
    simpa [ha, hb] using List.pairwise_iff_getElem.mp hord a b ha hb hlt

/-! ## `sort.Search` -/

def searchLoop (p : Nat → Bool) : Nat → Nat → Nat → Nat
  | 0, i, _ => i
  | fuel + 1, i, j =>
    if i < j then
      if p ((i + j) / 2) then searchLoop p fuel i ((i + j) / 2)
      else searchLoop p fuel ((i + j) / 2 + 1) j
    else i

/-- Every round shrinks the range, so its length is enough fuel. -/
def search (n : Nat) (p : Nat → Bool) : Nat := searchLoop p n 0 n

theorem searchLoop_spec {p : Nat → Bool} {n : Nat}
    (mono : ∀ a b, a ≤ b → b < n → p a = true → p b = true) :
    ∀ (fuel i j : Nat), j ≤ i + fuel → i ≤ j → j ≤ n → (∀ k < i, p k = false) →
      (∀ k, j ≤ k → k < n → p k = true) →
      (searchLoop p fuel i j ≤ n ∧ (∀ k < searchLoop p fuel i j, p k = false) ∧
        ∀ k, searchLoop p fuel i j ≤ k → k < n → p k = true)
  | 0, i, j, hf, hij, hjn, hlow, hhigh => by
    have : j = i := by omega
    subst this
    exact ⟨hjn, hlow, hhigh⟩
  | fuel + 1, i, j, hf, hij, hjn, hlow, hhigh => by
    rw [searchLoop]
    split
    · split
      · rename_i hp
        refine searchLoop_spec mono fuel i _ (by omega) (by omega) (by omega) hlow fun k hk hkn => ?_
        exact mono _ k hk hkn hp
      · rename_i hlt hp
        refine searchLoop_spec mono fuel _ j (by omega) (by omega) hjn (fun k hk => ?_) hhigh
        by_contra hpk
        exact hp (mono k _ (by omega) (by omega) (by simpa using hpk))
    · have : j = i := by omega
      subst this
      exact ⟨hjn, hlow, hhigh⟩

/-- On a monotone predicate `search` returns the boundary between the failures and the passes. -/
theorem search_spec {p : Nat → Bool} {n : Nat}
    (mono : ∀ a b, a ≤ b → b < n → p a = true → p b = true) :
    search n p ≤ n ∧ (∀ k < search n p, p k = false) ∧ ∀ k, search n p ≤ k → k < n → p k = true :=
  searchLoop_spec mono n 0 n (by omega) (by omega) (Nat.le_refl n) (by simp) (by omega)

/-! ## Bisection with a fallible test -/

variable {ε : Type} {test : Int → Except ε Bool}

def bisectLoop (down : Bool) (test : Int → Except ε Bool) : Nat → Int → Int → Int → Except ε Int
  | 0, _, _, best => .ok best
  | fuel + 1, low, high, best =>
    if low ≤ high then
      match test (low + (high - low) / 2) with
      | .error err => .error err
      | .ok passed =>
        let best' := if passed then low + (high - low) / 2 else best
        if passed = down then bisectLoop down test fuel low (low + (high - low) / 2 - 1) best'
        else bisectLoop down test fuel (low + (high - low) / 2 + 1) high best'
    else .ok best

/-- The search starts with no index (`-1`). Every round shrinks the range, so its length is enough
fuel. -/
def bisect (down : Bool) (test : Int → Except ε Bool) (low high : Int) : Except ε Int :=
  bisectLoop down test (high - low + 1).toNat low high (-1)

theorem bisectLoop_spec {down : Bool} :
    ∀ {fuel : Nat} {low high best r : Int}, bisectLoop down test fuel low high best = .ok r →
      r = best ∨ (low ≤ r ∧ r ≤ high ∧ test r = .ok true)
  | 0, _, _, _, _, h => .inl (Except.ok.inj h).symm
  | fuel + 1, low, high, best, r, h => by
    rw [bisectLoop] at h
    split at h
    · rename_i hle
      cases ht : test (low + (high - low) / 2) with
      | error err => rw [ht] at h; cases h
      | ok passed =>
        rw [ht] at h
        dsimp only at h
        -- the midpoint itself is a good answer if it passed
        have hbest : ∀ {b : Int}, b = (if passed = true then low + (high - low) / 2 else best) →
            b = best ∨ (low ≤ b ∧ b ≤ high ∧ test b = .ok true) := by
          intro b hb
          split at hb
          · rename_i hp
            subst hb hp
            exact .inr ⟨by omega, by omega, ht⟩
          · exact .inl hb
        split at h
        · rcases bisectLoop_spec h with h | ⟨h1, h2, h3⟩
          · exact hbest h
          · exact .inr ⟨h1, by omega, h3⟩
        · rcases bisectLoop_spec h with h | ⟨h1, h2, h3⟩
          · exact hbest h
          · exact .inr ⟨by omega, h2, h3⟩
    · exact .inl (Except.ok.inj h).symm

/-- Whatever the answers of the test are, an index the bisection returns is in range and passed. -/
theorem bisect_spec {down : Bool} {low high r : Int} (h : bisect down test low high = .ok r) :
    r = -1 ∨ (low ≤ r ∧ r ≤ high ∧ test r = .ok true) :=
  bisectLoop_spec h

/-- If a test that passes at one index fails at none further in the direction `down` comes from, the
result is the last passing index in that direction. -/
theorem bisectLoop_extreme {down : Bool} {first last : Int}
    (mono : ∀ i j, first ≤ i → i ≤ last → first ≤ j → j ≤ last → (if down then i ≤ j else j ≤ i) →
      test i = .ok true → test j ≠ .ok false) :
    ∀ {fuel : Nat} {low high best r k : Int}, high - low < fuel → first ≤ low → high ≤ last →
      bisectLoop down test fuel low high best = .ok r → low ≤ k → k ≤ high → test k = .ok true →
      low ≤ r ∧ r ≤ high ∧ if down then r ≤ k else k ≤ r
  | 0, low, high, _, _, k, hfuel, _, _, _, h1, h2, _ => by omega
  | fuel + 1, low, high, best, r, k, hfuel, hfst, hlast, h, h1, h2, hk => by
    rw [bisectLoop, if_pos (by omega)] at h
    cases ht : test (low + (high - low) / 2) with
    | error err => rw [ht] at h; cases h
    | ok passed =>
      rw [ht] at h
      dsimp only at h
      -- a passing midpoint is kept unless a better index is found, a failing one excludes its far side
      split at h
      · rename_i hp
        subst hp
        by_cases hmid : k < low + (high - low) / 2
        · have := bisectLoop_extreme mono (by omega) hfst (by omega) h h1 (by omega) hk
          exact ⟨this.1, by omega, this.2.2⟩
        · cases passed
          · exact absurd ht (mono k _ (by omega) (by omega) (by omega) (by omega) (by simp; omega) hk)
          · have := bisectLoop_spec h
            simp only [if_true] at this ⊢
            omega
      · rename_i hp
        obtain rfl := Bool.eq_not_of_ne hp
        by_cases hmid : low + (high - low) / 2 < k
        · have := bisectLoop_extreme mono (by omega) (by omega) hlast h (by omega) h2 hk
          exact ⟨by omega, this.2⟩
        · cases down
          · have := bisectLoop_spec h
            simp only [Bool.not_false, if_true, Bool.false_eq_true, if_false] at this ⊢
            omega
          · exact absurd ht (mono k _ (by omega) (by omega) (by omega) (by omega) (by simp; omega) hk)

theorem bisect_last {low high r : Int}
    (mono : ∀ i j, low ≤ i → i ≤ j → j ≤ high → test j = .ok true → test i ≠ .ok false)
    (h : bisect false test low high = .ok r) {k : Int} (h1 : low ≤ k) (h2 : k ≤ high)
    (hk : test k = .ok true) : k ≤ r := by
  have := bisectLoop_extreme (fun i j _ hi hj _ hij => mono j i hj (by simpa using hij) hi) (by omega)
    (Int.le_refl _) (Int.le_refl _) h h1 h2 hk
  exact this.2.2

theorem bisectLoop_total {down : Bool} {p : Int → Bool} :
    ∀ {fuel : Nat} {low high : Int} (best : Int), (∀ i, low ≤ i → i ≤ high → test i = .ok (p i)) →
      ∃ r, bisectLoop down test fuel low high best = .ok r
  | 0, _, _, best, _ => ⟨best, rfl⟩
  | fuel + 1, low, high, best, htest => by
    rw [bisectLoop]
    split
    · rw [htest _ (by omega) (by omega)]
      dsimp only
      split
      · exact bisectLoop_total _ fun i h1 h2 => htest i h1 (by omega)
      · exact bisectLoop_total _ fun i h1 h2 => htest i (by omega) h2
    · exact ⟨best, rfl⟩

theorem bisect_first (p : Int → Bool) (low high : Int)
    (htest : ∀ i, low ≤ i → i ≤ high → test i = .ok (p i))
    (mono : ∀ i j, low ≤ i → i ≤ j → j ≤ high → p i = true → p j = true) :
    ∃ r, bisect true test low high = .ok r ∧
      ∀ k, low ≤ k → k ≤ high → p k = true → low ≤ r ∧ r ≤ k := by
  obtain ⟨r, hr⟩ := bisectLoop_total (-1) htest
  refine ⟨r, hr, fun k h1 h2 hk => ?_⟩
  have := bisectLoop_extreme (fun i j h1 h2 h3 h4 hij => ?_) (by omega) (Int.le_refl _)
    (Int.le_refl _) hr h1 h2 ((htest k h1 h2).trans (congrArg _ hk))
  · exact ⟨this.1, this.2.2⟩
  · rw [htest i h1 h2, htest j h3 h4]
    intro hi hj
    cases (Except.ok.inj hj).symm.trans (mono i j h1 hij h4 (Except.ok.inj hi))

/-- The number of tests the loop makes. -/
def bisectTests (down : Bool) (test : Int → Except ε Bool) : Nat → Int → Int → Nat
  | 0, _, _ => 0
  | fuel + 1, low, high =>
    if low ≤ high then
      match test (low + (high - low) / 2) with
      | .error _ => 1
      | .ok passed =>
        if passed = down then bisectTests down test fuel low (low + (high - low) / 2 - 1) + 1
        else bisectTests down test fuel (low + (high - low) / 2 + 1) high + 1
    else 0

/-- Every test halves the range. -/
theorem bisectTests_le (down : Bool) (test : Int → Except ε Bool) :
    ∀ (fuel n : Nat) (low high : Int), (high - low + 1).toNat < 2 ^ n →
      bisectTests down test fuel low high ≤ n
  | 0, _, _, _, _ => Nat.zero_le _
  | fuel + 1, 0, low, high, hrng => by rw [bisectTests, if_neg (by omega)]
  | fuel + 1, n + 1, low, high, hrng => by
    have hhalf := bisectTests_le down test fuel n
    rw [Nat.pow_succ] at hrng
    rw [bisectTests]
    repeat' split
    · omega
    · exact Nat.succ_le_succ (hhalf _ _ (by omega))
    · exact Nat.succ_le_succ (hhalf _ _ (by omega))
    · omega

/-- Naming the errors of the test otherwise names those of the search. -/
theorem bisectLoop_mapError {ε' : Type} (f : ε → ε') (down : Bool) (test : Int → Except ε Bool) :
    ∀ (fuel : Nat) (low high best : Int),
      bisectLoop down (fun i => (test i).mapError f) fuel low high best =
        (bisectLoop down test fuel low high best).mapError f
  | 0, _, _, _ => rfl
  | fuel + 1, low, high, best => by
    rw [bisectLoop, bisectLoop]
    split
    · cases test (low + (high - low) / 2) with
      | error err => rfl
      | ok passed =>
        show (if _ then _ else _) = Except.mapError f (if _ then _ else _)
        split
        · exact bisectLoop_mapError f down test fuel _ _ _
        · exact bisectLoop_mapError f down test fuel _ _ _
    · rfl

/-! ## What the last passing test returned -/

variable {α : Type}

/-- The loop of a search for the last index that passes, with what the test of that index returned. -/
def searchLastLoop (test : Int → Except ε α) (passes : α → Bool) :
    Nat → Int → Int → Option α → Except ε (Option α)
  | 0, _, _, best => .ok best
  | fuel + 1, low, high, best =>
    if low ≤ high then
      match test (low + (high - low) / 2) with
      | .error err => .error err
      | .ok a =>
        if passes a then searchLastLoop test passes fuel (low + (high - low) / 2 + 1) high (some a)
        else searchLastLoop test passes fuel low (low + (high - low) / 2 - 1) best
    else .ok best

def searchLast (test : Int → Except ε α) (passes : α → Bool) (low high : Int) :
    Except ε (Option α) :=
  searchLastLoop test passes (high - low + 1).toNat low high none

/-- Bisection by the same test finds the index it was returned for. -/
theorem searchLastLoop_bisect {test : Int → Except ε α} {passes : α → Bool} :
    ∀ {fuel : Nat} {low high i : Int} {best : Option α},
      (i = -1 ∧ best = none ∨ ∃ a, best = some a ∧ 0 ≤ i ∧ test i = .ok a ∧ passes a = true) →
      0 ≤ low →
      (∃ err, searchLastLoop test passes fuel low high best = .error err ∧
        bisectLoop false (fun i => (test i).map passes) fuel low high i = .error err) ∨
      ∃ found j, searchLastLoop test passes fuel low high best = .ok found ∧
        bisectLoop false (fun i => (test i).map passes) fuel low high i = .ok j ∧
        (j = -1 ∧ found = none ∨ ∃ a, found = some a ∧ 0 ≤ j ∧ test j = .ok a ∧ passes a = true)
  | 0, low, high, i, best, hbest, _ => .inr ⟨best, i, rfl, rfl, hbest⟩
  | fuel + 1, low, high, i, best, hbest, hlow => by
    rw [searchLastLoop, bisectLoop]
    split
    · rename_i hle
      cases ht : test (low + (high - low) / 2) with
      | error err => exact .inl ⟨err, rfl, rfl⟩
      | ok a =>
        simp only [Except.map]
        cases hp : passes a with
        | true =>
          have hmid : 0 ≤ low + (high - low) / 2 := by omega
          exact searchLastLoop_bisect (.inr ⟨a, rfl, hmid, ht, hp⟩) (by omega)
        | false => exact searchLastLoop_bisect hbest hlow
    · exact .inr ⟨best, i, rfl, rfl, hbest⟩

theorem searchLast_bisect (test : Int → Except ε α) (passes : α → Bool) (low high : Int)
    (hlow : 0 ≤ low) :
    (∃ err, searchLast test passes low high = .error err ∧
      bisect false (fun i => (test i).map passes) low high = .error err) ∨
    ∃ found j, searchLast test passes low high = .ok found ∧
      bisect false (fun i => (test i).map passes) low high = .ok j ∧
      (j = -1 ∧ found = none ∨ ∃ a, found = some a ∧ 0 ≤ j ∧ test j = .ok a ∧ passes a = true) :=
  searchLastLoop_bisect (.inl ⟨rfl, rfl⟩) hlow

end Search
