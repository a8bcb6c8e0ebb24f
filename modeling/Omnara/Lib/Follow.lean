/-!
# Following a cursor

A reader that asks for a page, follows the cursor the page names and stops at a page that names none.
`follow_eq` is the rule for a whole reading: if every page shows the next part of what is left, and at
least something of it when it names a cursor, then the reading ends and its pages show everything, each
part once and in order.
-/

namespace Follow

variable {κ ρ α : Type}

/-- The pages from a cursor on; `i` counts the pages already read. There is no answer if a request
fails or pages are left when the fuel is used up. -/
def follow (read : Nat → κ → Option ρ) (next : ρ → Option κ) : Nat → Nat → κ → Option (List ρ)
  | 0, _, _ => none
  | fuel + 1, i, c => do
    let page ← read i c
    match next page with
    | none => some [page]
    | some c => (follow read next fuel (i + 1) c).map (page :: ·)

variable {read : Nat → κ → Option ρ} {next : ρ → Option κ} {shows : ρ → List α}

theorem head?_follow {fuel i : Nat} {c : κ} {pages : List ρ}
    (h : follow read next fuel i c = some pages) : pages.head? = read i c := by
  cases fuel with
  | zero => cases h
  | succ fuel =>
    obtain ⟨page, hread, h⟩ := Option.bind_eq_some_iff.mp h
    rw [hread]
    split at h
    · cases h
      rfl
    · obtain ⟨rest, -, rfl⟩ := Option.map_eq_some_iff.mp h
      rfl

/-- A page read where `left` is left: it shows the next part, and its cursor stands where what it does
not show begins. -/
def Step (At : κ → List α → Prop) (next : ρ → Option κ) (shows : ρ → List α) (left : List α)
    (page : ρ) : Prop :=
  match next page with
  | none => shows page = left
  | some c => shows page ≠ [] ∧ ∃ left', left = shows page ++ left' ∧ At c left'

theorem follow_eq (At : κ → List α → Prop) {Q : Nat → ρ → Prop}
    (hread : ∀ i c left, At c left → ∃ page, read i c = some page ∧ Q i page ∧
      Step At next shows left page) :
    ∀ (fuel i : Nat) (c : κ) (left : List α), At c left → left.length < fuel →
      ∃ pages, follow read next fuel i c = some pages ∧ (pages.map shows).flatten = left ∧
        ∀ j page, pages[j]? = some page → Q (i + j) page
  | 0, _, _, _, _, hfuel => absurd hfuel (Nat.not_lt_zero _)
  | fuel + 1, i, c, left, hat, hfuel => by
    obtain ⟨page, hpage, hQ, hstep⟩ := hread i c left hat
    rw [follow, hpage, Option.bind_eq_bind, Option.bind_some]
    unfold Step at hstep
    cases hnext : next page with
    | none =>
      rw [hnext] at hstep
      refine ⟨[page], rfl, by simpa using hstep, fun j page' hj => ?_⟩
      cases j with
      | zero => exact Option.some.inj hj ▸ hQ
      | succ j => cases hj
    | some c' =>
      rw [hnext] at hstep
      obtain ⟨hne, left', rfl, hat'⟩ := hstep
      -- the page shows something, so less is left
      have hpos := List.length_pos_iff.mpr hne
      rw [List.length_append] at hfuel
      obtain ⟨pages, hpages, hshown, hall⟩ := follow_eq At hread fuel (i + 1) c' left' hat' (by omega)
      refine ⟨page :: pages, by simp [hpages], by simp [hshown], fun j page' hj => ?_⟩
      cases j with
      | zero => exact Option.some.inj hj ▸ hQ
      | succ j => exact Nat.add_right_comm i 1 j ▸ hall j page' hj

end Follow
