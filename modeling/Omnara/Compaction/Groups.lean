import Mathlib.Data.List.Dedup
import Mathlib.Data.List.Sort
import Omnara.Compaction.Load

/-!
# The atomic-group query (`ListCompactionAtomicGroups`)

The query groups the tool calls of one model output with their results and the opening events of one
turn, as far as they are visible at a bound. Its answer depends on the bound: an open tool call ends
its group one past the bound, and openings past the bound do not count.

`splits_iff` says which ends a group splits without mentioning the bound for tool calls. From it,
`not_splits_of_shrink`: an end that splits no group at a smaller bound `b` splits none at the
frontier either, provided `b` itself splits none there. `AgentLog.GrowsAbove` covers what other
transactions can do to the log while a compaction runs.
-/

namespace Compaction

open List

/-- A row of `tool_call_read_projection` with the sequence of its result event, if there is one. -/
structure ToolCallRow where
  sourceEventSequence : Int
  resultEventSequence : Option Int
  deriving DecidableEq

structure AgentLog where
  events : List SourceEvent
  toolCalls : List ToolCallRow
  deriving DecidableEq

/-! ## The query -/

section
variable (log : AgentLog) (lastCheckpointEnd inputEventSequence : Int)

/-- The `WHERE` clause of the tool-call part. -/
def groupedToolCalls : List ToolCallRow :=
  log.toolCalls.filter fun c =>
    c.sourceEventSequence ≤ inputEventSequence ∧
      (c.resultEventSequence = none ∨ c.resultEventSequence.getD 0 > lastCheckpointEnd)

def toolGroupEnd (rows : List ToolCallRow) : Int :=
  if rows.any fun c => c.resultEventSequence = none then inputEventSequence + 1
  else ((rows.filterMap (·.resultEventSequence)).max?).getD 0

def toolCallGroups : List AtomicGroup :=
  let rows := groupedToolCalls log lastCheckpointEnd inputEventSequence
  ((rows.map (·.sourceEventSequence)).dedup.map fun source =>
    (⟨.toolCallResult, source, toolGroupEnd inputEventSequence
      (rows.filter (·.sourceEventSequence = source))⟩ : AtomicGroup)).filter
    fun g => g.endSequence > g.startSequence

/-- The `WHERE` clause of the opening part. -/
def groupedOpenings : List SourceEvent :=
  log.events.filter fun e => e.isOpeningEvent && e.sequence ≤ inputEventSequence

/-- The group of the openings of one turn: its bounds and whether it has more than one event. -/
def turnOpeningGroup (rows : List SourceEvent) : Option AtomicGroup :=
  match (rows.map (·.sequence)).min?, (rows.map (·.sequence)).max? with
  | some lo, some hi =>
    if 1 < rows.length ∧ hi > lastCheckpointEnd then some ⟨.turnOpening, lo, hi⟩ else none
  | _, _ => none

def turnOpeningGroups : List AtomicGroup :=
  let rows := groupedOpenings log inputEventSequence
  (rows.map (·.turnId)).dedup.filterMap fun turn =>
    turnOpeningGroup lastCheckpointEnd (rows.filter (·.turnId = turn))

/-- `ORDER BY start_sequence, end_sequence, group_kind`. -/
def groupLe (a b : AtomicGroup) : Bool :=
  a.startSequence < b.startSequence || (a.startSequence = b.startSequence &&
    (a.endSequence < b.endSequence || (a.endSequence = b.endSequence &&
      (a.kind = .toolCallResult || b.kind = .turnOpening))))

def listCompactionAtomicGroups : List AtomicGroup :=
  (toolCallGroups log lastCheckpointEnd inputEventSequence ++
    turnOpeningGroups log lastCheckpointEnd inputEventSequence).insertionSort (groupLe · ·)

end

/-! ## Which ends a group splits -/

/-- Some group of the query at bound `upTo` is split by a source that ends at `e`. -/
def SplitsGroup (log : AgentLog) (after upTo e : Int) : Prop :=
  ∃ g ∈ listCompactionAtomicGroups log after upTo, g.SplitBy e

/-- A tool call made up to `e` has no result up to `e`. -/
def SplitsToolCall (log : AgentLog) (e : Int) : Prop :=
  ∃ c ∈ log.toolCalls, c.sourceEventSequence ≤ e ∧
    (c.resultEventSequence = none ∨ ∃ r, c.resultEventSequence = some r ∧ e < r)

/-- A turn has opening events on both sides of `e`, the later one visible at the bound. -/
def SplitsOpening (log : AgentLog) (upTo e : Int) : Prop :=
  ∃ a ∈ log.events, ∃ b ∈ log.events, a.isOpeningEvent = true ∧ b.isOpeningEvent = true ∧
    a.turnId = b.turnId ∧ a.sequence ≤ e ∧ e < b.sequence ∧ b.sequence ≤ upTo

theorem lt_max_iff {l : List Int} {x : Int} (hx : 0 ≤ x) :
    x < (l.max?).getD 0 ↔ ∃ y ∈ l, x < y := by
  cases h : l.max? with
  | none => simp [List.max?_eq_none_iff.mp h]; omega
  | some m =>
    obtain ⟨hm, hle⟩ := List.max?_eq_some_iff.mp h
    rw [Option.getD_some]
    refine ⟨fun hlt => ⟨m, hm, hlt⟩, ?_⟩
    rintro ⟨y, hy, hlt⟩
    have := hle y hy
    omega

section
variable {log : AgentLog} {after upTo e : Int}

theorem mem_groupedToolCalls {c : ToolCallRow} : c ∈ groupedToolCalls log after upTo ↔
    c ∈ log.toolCalls ∧ c.sourceEventSequence ≤ upTo ∧
      (c.resultEventSequence = none ∨ c.resultEventSequence.getD 0 > after) := by
  simp [groupedToolCalls]

theorem mem_groupedOpenings {x : SourceEvent} : x ∈ groupedOpenings log upTo ↔
    x ∈ log.events ∧ x.isOpeningEvent = true ∧ x.sequence ≤ upTo := by
  simp [groupedOpenings]

/-- Below the bound a group of calls is split exactly when one of its calls is: it is open, or its
result comes later. -/
theorem toolGroup_split_iff {rows : List ToolCallRow} (he0 : 0 ≤ e) (he : e ≤ upTo) :
    e < toolGroupEnd upTo rows ↔ ∃ c ∈ rows, c.resultEventSequence = none ∨
      ∃ r, c.resultEventSequence = some r ∧ e < r := by
  unfold toolGroupEnd
  split
  · rename_i hopen
    obtain ⟨c, hc, hn⟩ := any_eq_true.mp hopen
    exact ⟨fun _ => ⟨c, hc, .inl (by simpa using hn)⟩, fun _ => by omega⟩
  · rename_i hcl
    rw [lt_max_iff he0]
    simp only [mem_filterMap]
    constructor
    · rintro ⟨r, ⟨c, hc, hr⟩, hlt⟩
      exact ⟨c, hc, .inr ⟨r, hr, hlt⟩⟩
    · rintro ⟨c, hc, hn | ⟨r, hr, hlt⟩⟩
      · exact absurd (any_eq_true.mpr ⟨c, hc, by simpa using hn⟩) hcl
      · exact ⟨r, ⟨c, hc, hr⟩, hlt⟩

theorem splits_toolCallGroups_iff (ha : 0 ≤ after) (hae : after ≤ e) (he : e ≤ upTo) :
    (∃ g ∈ toolCallGroups log after upTo, g.SplitBy e) ↔ SplitsToolCall log e := by
  have he0 : 0 ≤ e := by omega
  simp only [toolCallGroups, mem_filter, mem_map, mem_dedup, AtomicGroup.SplitBy]
  constructor
  · rintro ⟨g, ⟨⟨source, ⟨c, hc, rfl⟩, rfl⟩, -⟩, hlo, hhi⟩
    dsimp only at hlo hhi
    obtain ⟨c', hc', hres⟩ := (toolGroup_split_iff he0 he).mp hhi
    obtain ⟨hc', hsrc⟩ := mem_filter.mp hc'
    have hsrc : c'.sourceEventSequence = c.sourceEventSequence := by simpa using hsrc
    exact ⟨c', (mem_groupedToolCalls.mp hc').1, by omega, hres⟩
  · rintro ⟨c, hc, hsrc, hres⟩
    have hmem : c ∈ groupedToolCalls log after upTo := by
      refine mem_groupedToolCalls.mpr ⟨hc, by omega, hres.imp_right ?_⟩
      rintro ⟨r, hr, hlt⟩
      rw [hr, Option.getD_some]
      omega
    have hend : e < toolGroupEnd upTo ((groupedToolCalls log after upTo).filter
        (·.sourceEventSequence = c.sourceEventSequence)) :=
      (toolGroup_split_iff he0 he).mpr ⟨c, mem_filter.mpr ⟨hmem, by simp⟩, hres⟩
    exact ⟨_, ⟨⟨_, ⟨c, hmem, rfl⟩, rfl⟩, by dsimp only; rw [decide_eq_true_eq]; omega⟩, hsrc, hend⟩

theorem splits_turnOpeningGroups_iff (hae : after ≤ e) :
    (∃ g ∈ turnOpeningGroups log after upTo, g.SplitBy e) ↔ SplitsOpening log upTo e := by
  simp only [turnOpeningGroups, mem_filterMap, mem_dedup, mem_map, AtomicGroup.SplitBy]
  constructor
  · rintro ⟨g, ⟨turn, -, hg⟩, hlo, hhi⟩
    unfold turnOpeningGroup at hg
    split at hg
    · rename_i lo hi hmin hmax
      split at hg
      · cases hg
        obtain ⟨a, ha, rfl⟩ := mem_map.mp (List.min?_mem hmin)
        obtain ⟨b, hb, rfl⟩ := mem_map.mp (List.max?_mem hmax)
        obtain ⟨ha, hat⟩ := mem_filter.mp ha
        obtain ⟨hb, hbt⟩ := mem_filter.mp hb
        obtain ⟨ha1, ha2, -⟩ := mem_groupedOpenings.mp ha
        obtain ⟨hb1, hb2, hb3⟩ := mem_groupedOpenings.mp hb
        have hab : a.turnId = b.turnId := by
          rw [show a.turnId = turn by simpa using hat, show b.turnId = turn by simpa using hbt]
        exact ⟨a, ha1, b, hb1, ha2, hb2, hab, hlo, hhi, hb3⟩
      · cases hg
    · cases hg
  · rintro ⟨a, ha, b, hb, hao, hbo, hab, hlo, hhi, hup⟩
    have hma : a ∈ (groupedOpenings log upTo).filter (·.turnId = a.turnId) :=
      mem_filter.mpr ⟨mem_groupedOpenings.mpr ⟨ha, hao, by omega⟩, by simp⟩
    have hmb : b ∈ (groupedOpenings log upTo).filter (·.turnId = a.turnId) :=
      mem_filter.mpr ⟨mem_groupedOpenings.mpr ⟨hb, hbo, hup⟩, by simp [hab]⟩
    generalize hrows : (groupedOpenings log upTo).filter (·.turnId = a.turnId) = rows at hma hmb
    have hlen : 1 < rows.length := by
      have hne : a ≠ b := by rintro rfl; omega
      rcases rows with _ | ⟨x, _ | ⟨y, rest⟩⟩
      · cases hma
      · rw [mem_singleton] at hma hmb
        exact absurd (hma.trans hmb.symm) hne
      · simp
    have hsa : a.sequence ∈ rows.map (·.sequence) := mem_map_of_mem hma
    have hsb : b.sequence ∈ rows.map (·.sequence) := mem_map_of_mem hmb
    cases hmin : (rows.map (·.sequence)).min? with
    | none => rw [List.min?_eq_none_iff.mp hmin] at hsa; cases hsa
    | some lo =>
      cases hmax : (rows.map (·.sequence)).max? with
      | none => rw [List.max?_eq_none_iff.mp hmax] at hsb; cases hsb
      | some hi =>
        have h1 := (List.min?_eq_some_iff.mp hmin).2 _ hsa
        have h2 := (List.max?_eq_some_iff.mp hmax).2 _ hsb
        refine ⟨⟨.turnOpening, lo, hi⟩, ⟨a.turnId, ⟨a, ?_, rfl⟩, ?_⟩, by dsimp only; omega,
          by dsimp only; omega⟩
        · exact mem_groupedOpenings.mpr ⟨ha, hao, by omega⟩
        · rw [hrows]
          unfold turnOpeningGroup
          simp only [hmin, hmax]
          rw [if_pos ⟨hlen, by omega⟩]

/-- The groups of the query at bound `upTo`, seen from an end between the checkpoint and the bound:
only the opening part depends on the bound. -/
theorem splits_iff (ha : 0 ≤ after) (hae : after ≤ e) (he : e ≤ upTo) :
    SplitsGroup log after upTo e ↔ SplitsToolCall log e ∨ SplitsOpening log upTo e := by
  rw [← splits_toolCallGroups_iff ha hae he, ← splits_turnOpeningGroups_iff hae]
  simp only [SplitsGroup, listCompactionAtomicGroups, mem_insertionSort, mem_append,
    or_and_right, exists_or]

/-- **Shrinking keeps groups whole**: the groups queried at the smaller bound `bound` are enough to
check a smaller end against the frontier. A turn group truncated at `bound` has its missing part
past `bound`, which `bound` itself would split; an open tool group reaches past every end. -/
theorem not_splits_of_shrink {bound frontier : Int} (ha : 0 ≤ after) (hae : after ≤ e)
    (hlt : e < bound) (hb : bound ≤ frontier) (hbd : ¬ SplitsGroup log after frontier bound)
    (hsm : ¬ SplitsGroup log after bound e) : ¬ SplitsGroup log after frontier e := by
  rw [splits_iff ha hae (by omega)] at hsm ⊢
  rw [splits_iff ha (by omega) hb] at hbd
  rintro (htool | ⟨a, hma, b, hmb, hao, hbo, hab, hlo, hhi, hup⟩)
  · exact hsm (.inl htool)
  · by_cases hvis : b.sequence ≤ bound
    · exact hsm (.inr ⟨a, hma, b, hmb, hao, hbo, hab, hlo, hhi, hvis⟩)
    · exact hbd (.inr ⟨a, hma, b, hmb, hao, hbo, hab, by omega, by omega, hup⟩)

end

/-! ## A log that grows above the frontier -/

/-- `log'` is a later state of `log`: events are only added past `frontier`, and so are tool calls
and the results of calls that were still open. -/
structure AgentLog.GrowsAbove (frontier : Int) (log log' : AgentLog) : Prop where
  events : ∀ e, e.sequence ≤ frontier → (e ∈ log'.events ↔ e ∈ log.events)
  kept : ∀ c ∈ log.toolCalls, ∃ c' ∈ log'.toolCalls,
    c'.sourceEventSequence = c.sourceEventSequence ∧ (c'.resultEventSequence = c.resultEventSequence ∨
      c.resultEventSequence = none ∧ ∃ r, c'.resultEventSequence = some r ∧ frontier < r)
  origin : ∀ c' ∈ log'.toolCalls, c'.sourceEventSequence ≤ frontier → ∃ c ∈ log.toolCalls,
    c.sourceEventSequence = c'.sourceEventSequence ∧ (c'.resultEventSequence = c.resultEventSequence ∨
      c.resultEventSequence = none ∧ ∃ r, c'.resultEventSequence = some r ∧ frontier < r)

theorem AgentLog.GrowsAbove.refl (frontier : Int) (log : AgentLog) : log.GrowsAbove frontier log :=
  ⟨fun _ _ => Iff.rfl, fun c hc => ⟨c, hc, rfl, .inl rfl⟩, fun c hc _ => ⟨c, hc, rfl, .inl rfl⟩⟩

/-- Growth past the frontier does not change which ends up to the frontier split a group. -/
theorem splits_of_growsAbove {log log' : AgentLog} {after upTo frontier e : Int} (ha : 0 ≤ after)
    (hae : after ≤ e) (he : e ≤ upTo) (hup : upTo ≤ frontier)
    (hg : log.GrowsAbove frontier log') :
    SplitsGroup log' after upTo e ↔ SplitsGroup log after upTo e := by
  rw [splits_iff ha hae he, splits_iff ha hae he]
  refine or_congr ⟨?_, ?_⟩ ?_
  · rintro ⟨c', hc', hsrc, hres⟩
    obtain ⟨c, hc, hs, hr | ⟨hn, -⟩⟩ := hg.origin c' hc' (by omega)
    · exact ⟨c, hc, by omega, hr ▸ hres⟩
    · exact ⟨c, hc, by omega, .inl hn⟩
  · rintro ⟨c, hc, hsrc, hres⟩
    obtain ⟨c', hc', hs, hr | ⟨-, r, hr, hlt⟩⟩ := hg.kept c hc
    · exact ⟨c', hc', by omega, hr.symm ▸ hres⟩
    · exact ⟨c', hc', by omega, .inr ⟨r, hr, by omega⟩⟩
  · constructor
    · rintro ⟨a, hma, b, hmb, h⟩
      exact ⟨a, (hg.events a (by omega)).mp hma, b, (hg.events b (by omega)).mp hmb, h⟩
    · rintro ⟨a, hma, b, hmb, h⟩
      exact ⟨a, (hg.events a (by omega)).mpr hma, b, (hg.events b (by omega)).mpr hmb, h⟩

end Compaction
