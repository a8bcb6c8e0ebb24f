import Mathlib.Data.Finset.Basic
import Omnara.Lib.Window

/-!
# Well-bracketed event streams

A stream starts and stops numbered blocks, sends deltas to them and ends with a terminal event.
`run` replays the events against the set of open blocks and fails at the first one that does not fit;
a stream it replays to its end is `WellBracketed` (`wellBracketed_of_run`). A producer keeps the
invariant "what I emitted so far replays to this state" with one rule per kind of event (`run_concat`).
-/

namespace Brackets

open List

inductive Act
  | start (index : Int)
  | delta (index : Int)
  | stop (index : Int)
  | terminal
  | unknown
  deriving DecidableEq

/-- The open blocks, and a bound above the index of every block so far. -/
structure State where
  bound : Int := 0
  opened : Finset Int := ∅
  ended : Bool := false
  deriving DecidableEq

def step (s : State) : Act → Option State
  | .start i =>
    if s.ended = false ∧ s.bound ≤ i then some ⟨i + 1, insert i s.opened, false⟩ else none
  | .delta i => if s.ended = false ∧ i ∈ s.opened then some s else none
  | .stop i =>
    if s.ended = false ∧ i ∈ s.opened then some { s with opened := s.opened.erase i } else none
  | .terminal => if s.ended = false ∧ s.opened = ∅ then some { s with ended := true } else none
  | .unknown => none

def run (acts : List Act) : Option State := acts.foldlM step {}

variable {acts : List Act} {i : Int} {s : State}

theorem run_concat (acts : List Act) (act : Act) :
    run (acts ++ [act]) = (run acts).bind (step · act) := by
  cases h : acts.foldlM step {} with
  | none => simp [run, h]
  | some s => simp [run, h]

def Act.start? : Act → Option Int
  | .start i => some i
  | _ => none

/-- Every block starts with an index above all earlier ones, gets its deltas and its stop while it is
open, and is stopped once; the one terminal event comes last. -/
structure WellBracketed (acts : List Act) : Prop where
  starts : (acts.filterMap Act.start?).Pairwise (· < ·)
  inside : ∀ before act after i, acts = before ++ act :: after → act = .delta i ∨ act = .stop i →
    .start i ∈ before ∧ .stop i ∉ before
  stopped : ∀ i, .start i ∈ acts → acts.count (.stop i) = 1
  terminal : ∃ body, acts = body ++ [.terminal] ∧ .terminal ∉ body

structure Replayed (acts : List Act) (s : State) : Prop where
  starts : (acts.filterMap Act.start?).Pairwise (· < ·)
  below : ∀ i, .start i ∈ acts → i < s.bound
  inside : ∀ before act after i, acts = before ++ act :: after → act = .delta i ∨ act = .stop i →
    .start i ∈ before ∧ .stop i ∉ before
  opened : ∀ i, i ∈ s.opened ↔ .start i ∈ acts ∧ .stop i ∉ acts
  stopped : ∀ i, acts.count (.stop i) ≤ 1
  ended : s.ended = true → s.opened = ∅ ∧ ∃ body, acts = body ++ [.terminal] ∧ .terminal ∉ body
  going : s.ended = false → .terminal ∉ acts

theorem mem_starts : i ∈ acts.filterMap Act.start? ↔ .start i ∈ acts := by
  rw [mem_filterMap]
  constructor
  · rintro ⟨act, hmem, hact⟩
    cases act with
    | start j =>
      cases hact
      exact hmem
    | _ => cases hact
  · intro h
    exact ⟨_, h, rfl⟩

theorem starts_concat (acts : List Act) {act : Act} (h : act.start? = none) :
    (acts ++ [act]).filterMap Act.start? = acts.filterMap Act.start? := by
  rw [filterMap_append, filterMap_cons, h, filterMap_nil, append_nil]

section
variable (h : Replayed acts s)
include h

theorem Replayed.inside_concat {last : Act}
    (hlast : ∀ i, last = .delta i ∨ last = .stop i → .start i ∈ acts ∧ .stop i ∉ acts) :
    ∀ before act after i, acts ++ [last] = before ++ act :: after →
      act = .delta i ∨ act = .stop i → .start i ∈ before ∧ .stop i ∉ before := by
  intro before act after i hsplit hact
  rcases Window.concat_eq_split hsplit with ⟨rfl, rfl, -⟩ | ⟨after', -, hacts⟩
  · exact hlast i hact
  · exact h.inside before act after' i hacts hact

variable (hgoing : s.ended = false)
include hgoing

theorem replayed_start (hi : s.bound ≤ i) :
    Replayed (acts ++ [.start i]) ⟨i + 1, insert i s.opened, false⟩ where
  starts := by
    rw [filterMap_append]
    refine pairwise_append.mpr ⟨h.starts, pairwise_singleton _ _, ?_⟩
    intro j hj k hk
    obtain rfl : k = i := by simpa [Act.start?] using hk
    have := h.below j (mem_starts.mp hj)
    omega
  below := by
    intro j hj
    show j < i + 1
    rcases mem_append.mp hj with hj | hj
    · have := h.below j hj
      omega
    · obtain rfl : j = i := by simpa using hj
      omega
  inside := by
    apply h.inside_concat
    rintro j (hj | hj) <;> cases hj
  opened := by
    intro j
    by_cases hj : j = i
    · subst hj
      -- a block that was stopped had started, below the bound
      have hnew : .stop j ∉ acts := by
        intro hstop
        obtain ⟨before, after, hsplit⟩ := append_of_mem hstop
        have hstart := (h.inside before _ after j hsplit (.inr rfl)).1
        have := h.below j (hsplit ▸ mem_append_left _ hstart)
        omega
      simp [hnew]
    · simp [hj, h.opened j]
  stopped := by
    intro j
    simpa using h.stopped j
  ended := nofun
  going := by
    intro _
    simpa using h.going hgoing

theorem replayed_delta (hi : i ∈ s.opened) :
    Replayed (acts ++ [.delta i]) s where
  starts := by
    rw [starts_concat acts rfl]
    exact h.starts
  below := by
    intro j hj
    exact h.below j (by simpa using hj)
  inside := by
    apply h.inside_concat
    rintro j (hj | hj)
    · obtain rfl := Act.delta.inj hj
      exact (h.opened _).mp hi
    · cases hj
  opened := by
    intro j
    simpa using h.opened j
  stopped := by
    intro j
    simpa using h.stopped j
  ended := by
    intro hended
    rw [hgoing] at hended
    cases hended
  going := by
    intro _
    simpa using h.going hgoing

theorem replayed_stop (hi : i ∈ s.opened) :
    Replayed (acts ++ [.stop i]) { s with opened := s.opened.erase i } where
  starts := by
    rw [starts_concat acts rfl]
    exact h.starts
  below := by
    intro j hj
    exact h.below j (by simpa using hj)
  inside := by
    apply h.inside_concat
    rintro j (hj | hj)
    · cases hj
    · obtain rfl := Act.stop.inj hj
      exact (h.opened _).mp hi
  opened := by
    intro j
    by_cases hj : j = i
    · subst hj
      simp
    · simp [hj, h.opened j]
  stopped := by
    intro j
    by_cases hj : j = i
    · subst hj
      have hnone := count_eq_zero.mpr ((h.opened j).mp hi).2
      simp [hnone]
    · have : (Act.stop i == Act.stop j) = false := by simpa using fun h => hj h.symm
      simpa [count_cons, this] using h.stopped j
  ended := by
    intro hended
    rw [hgoing] at hended
    cases hended
  going := by
    intro _
    simpa using h.going hgoing

theorem replayed_terminal (hnone : s.opened = ∅) :
    Replayed (acts ++ [.terminal]) { s with ended := true } where
  starts := by
    rw [starts_concat acts rfl]
    exact h.starts
  below := by
    intro j hj
    exact h.below j (by simpa using hj)
  inside := by
    apply h.inside_concat
    rintro j (hj | hj) <;> cases hj
  opened := by
    intro j
    simpa using h.opened j
  stopped := by
    intro j
    simpa using h.stopped j
  ended := fun _ => ⟨hnone, acts, rfl, h.going hgoing⟩
  going := nofun

end

theorem replayed_nil : Replayed [] {} where
  starts := List.Pairwise.nil
  below := nofun
  inside := by
    intro before act after i h
    simp at h
  opened := by simp
  stopped := by simp
  ended := nofun
  going := by simp

/-- A stream that replays: by induction on the events, from the end. -/
theorem replayed_of_run : ∀ {s : State}, run acts = some s → Replayed acts s := by
  induction acts using List.reverseRecOn with
  | nil =>
    intro s h
    cases h
    exact replayed_nil
  | append_singleton acts act ih =>
    intro t h
    rw [run_concat] at h
    obtain ⟨s, hs, hstep⟩ := Option.bind_eq_some_iff.mp h
    have hbef := ih hs
    cases act with
    | start i =>
      obtain ⟨hok, ht⟩ := Option.ite_none_right_eq_some.mp hstep
      cases ht
      exact replayed_start hbef hok.1 hok.2
    | delta i =>
      obtain ⟨hok, ht⟩ := Option.ite_none_right_eq_some.mp hstep
      cases ht
      exact replayed_delta hbef hok.1 hok.2
    | stop i =>
      obtain ⟨hok, ht⟩ := Option.ite_none_right_eq_some.mp hstep
      cases ht
      exact replayed_stop hbef hok.1 hok.2
    | terminal =>
      obtain ⟨hok, ht⟩ := Option.ite_none_right_eq_some.mp hstep
      cases ht
      exact replayed_terminal hbef hok.1 hok.2
    | unknown => cases hstep

/-- **A stream that replays to its end is well bracketed.** -/
theorem wellBracketed_of_run (h : run acts = some s) (hended : s.ended = true) : WellBracketed acts := by
  have hrepl := replayed_of_run h
  obtain ⟨hnone, hterm⟩ := hrepl.ended hended
  refine ⟨hrepl.starts, hrepl.inside, ?_, hterm⟩
  intro i hstart
  have hstop : .stop i ∈ acts := by
    by_contra hno
    have := (hrepl.opened i).mpr ⟨hstart, hno⟩
    rw [hnone] at this
    exact absurd this (Finset.notMem_empty i)
  have := hrepl.stopped i
  have := count_pos_iff.mpr hstop
  omega

end Brackets
