import Omnara.Lib.OrderBy
import Omnara.Store.System

/-!
# The log only grows

The events of an agent are numbered `1, 2, …`, its turns too, and the opening events visit the turns
in order (`LogInv`). Whatever a transaction writes, it extends the log (`Extends`): new events take the
next numbers, an opening event belongs to the newest turn, and the stops among the old events stay
what they are. So

* `LogInv` is kept (`Extends.logInv`);
* what a frozen frontier sees never changes (`Extends.turnAt_eq`);
* the turn of the last event is the latest turn (`LogInv.turnAt_last`), and a frontier that sees the
  latest turn is followed only by frontiers that do (`LogInv.turnAt_later`).
-/

namespace Store

open List

namespace Db

variable {db db' : Db} {es : List AgentEvent} {e : AgentEvent} {n : Nat}

/-- An event of `agent_stop_events`. -/
def isStop (db : Db) (e : AgentEvent) : Bool :=
  db.inputs.any fun i => e.payload = .agentInput i.id ∧ i.kind = .control ∧ i.state = .resolved

theorem stopAfter_iff :
    db.stopAfter n = true ↔ ∃ e ∈ db.events, db.isStop e = true ∧ n < e.sequence := by
  simp [stopAfter, stopSequences, isStop]

theorem turnAt_eq_latest (db : Db) (n : Nat) :
    db.turnAt n = (OrderBy.latest AgentEvent.sequence
      (db.events.filter fun e => e.isOpening ∧ e.sequence ≤ n)).map (·.turn) := rfl

structure LogInv (db : Db) : Prop where
  sequences : db.events.map (·.sequence) = List.range' 1 db.events.length
  next : db.nextEventSequence = db.events.length + 1
  turnRows : db.turns.map (·.turnSequence) = List.range' 1 db.turns.length
  inputRows : db.inputs.map (·.id) = List.range db.inputs.length
  turn : ∀ e ∈ db.events, 1 ≤ e.turn ∧ e.turn ≤ db.turns.length
  input : ∀ e ∈ db.events, ∀ i, e.payload = .agentInput i → i < db.inputs.length
  openings : ∀ a ∈ db.events, ∀ b ∈ db.events, a.isOpening = true → b.isOpening = true →
    a.sequence ≤ b.sequence → a.turn ≤ b.turn
  opened : ∃ e ∈ db.events, e.isOpening = true ∧ e.turn = db.turns.length

/-- `db'` has the log of `db` with the events `es` added. -/
structure Extends (db db' : Db) (es : List AgentEvent) : Prop where
  events : db'.events = db.events ++ es
  next : db'.nextEventSequence = db.nextEventSequence + es.length
  sequences : es.map (·.sequence) = List.range' db.nextEventSequence es.length
  turnRows : db'.turns.map (·.turnSequence) = List.range' 1 db'.turns.length
  turns : db.turns.length ≤ db'.turns.length
  turn : ∀ e ∈ es, 1 ≤ e.turn ∧ e.turn ≤ db'.turns.length
  opening : ∀ e ∈ es, e.isOpening = true → e.turn = db'.turns.length
  opened : db'.turns.length = db.turns.length ∨ ∃ e ∈ es, e.isOpening = true
  inputRows : db'.inputs.map (·.id) = List.range db'.inputs.length
  inputs : db.inputs.length ≤ db'.inputs.length
  input : ∀ e ∈ es, ∀ i, e.payload = .agentInput i → i < db'.inputs.length
  stops : ∀ e ∈ db.events, db'.isStop e = db.isStop e

/-! ## Sequences -/

namespace LogInv

variable {n : Nat}

theorem sequence_bounds (h : LogInv db) (he : e ∈ db.events) :
    1 ≤ e.sequence ∧ e.sequence < db.nextEventSequence := by
  have hmem := mem_map_of_mem (f := AgentEvent.sequence) he
  rw [h.sequences, mem_range'_1] at hmem
  rw [h.next]
  omega

theorem foldl_max_range' (n : Nat) : (List.range' 1 n).foldl Nat.max 0 = n := by
  induction n with
  | zero => rfl
  | succ n ih =>
    rw [List.range'_concat, foldl_append, ih]
    show max n (1 + 1 * n) = n + 1
    omega

theorem maxEventSequence_eq (h : LogInv db) : db.maxEventSequence + 1 = db.nextEventSequence := by
  rw [maxEventSequence, h.sequences, foldl_max_range', h.next]

/-! ## Turns -/

theorem max?_range' (hn : 0 < n) : (List.range' 1 n).max? = some n := by
  rw [List.max?_eq_some_iff]
  refine ⟨mem_range'_1.2 (by omega), fun k hk => ?_⟩
  have := mem_range'_1.1 hk
  omega

theorem turns_pos (h : LogInv db) : 0 < db.turns.length := by
  obtain ⟨e, he, -, ht⟩ := h.opened
  exact ht ▸ (h.turn e he).1

theorem latestTurnId_eq (h : LogInv db) : db.latestTurnId = some db.turns.length := by
  rw [latestTurnId, h.turnRows, max?_range' h.turns_pos]

theorem mem_turnRows (h : LogInv db) {t : Id} :
    t ∈ db.turns.map (·.turnSequence) ↔ 1 ≤ t ∧ t ≤ db.turns.length := by
  rw [h.turnRows, mem_range'_1, Nat.add_comm, Nat.lt_succ_iff]

theorem turnAt_spec {t : Id} (ht : db.turnAt n = some t) :
    ∃ e ∈ db.events, e.isOpening = true ∧ e.sequence ≤ n ∧ e.turn = t ∧
      ∀ a ∈ db.events, a.isOpening = true → a.sequence ≤ n → a.sequence ≤ e.sequence := by
  obtain ⟨e, he, rfl⟩ := Option.map_eq_some_iff.1 ht
  obtain ⟨hmem, hmax⟩ := OrderBy.latest_spec he
  simp only [mem_filter, decide_eq_true_eq] at hmem hmax
  exact ⟨e, hmem.1, hmem.2.1, hmem.2.2, rfl, fun a ha hopen hle => hmax a ⟨ha, hopen, hle⟩⟩

/-- A frontier at or after the opening of the latest turn sees the latest turn. -/
theorem turnAt_eq_of_opened (h : LogInv db) (he : e ∈ db.events) (hopen : e.isOpening = true)
    (hturn : e.turn = db.turns.length) (hn : e.sequence ≤ n) :
    db.turnAt n = db.latestTurnId := by
  rw [h.latestTurnId_eq]
  cases ht : db.turnAt n with
  | none =>
    rw [turnAt_eq_latest, Option.map_eq_none_iff, OrderBy.latest_eq_none, filter_eq_nil_iff] at ht
    exact absurd (by simp [hopen, hn]) (ht e he)
  | some t =>
    obtain ⟨a, ha, haopen, -, rfl, hmax⟩ := turnAt_spec ht
    have hle := h.openings e he a ha hopen haopen (hmax e he hopen hn)
    have hbd := h.turn a ha
    rw [hturn] at hle
    rw [Nat.le_antisymm hbd.2 hle]

theorem turnAt_last (h : LogInv db) (hn : db.nextEventSequence ≤ n + 1) :
    db.turnAt n = db.latestTurnId := by
  obtain ⟨e, he, hopen, hturn⟩ := h.opened
  have := h.sequence_bounds he
  exact h.turnAt_eq_of_opened he hopen hturn (by omega)

theorem turnAt_later (h : LogInv db) {m : Nat} (hm : db.turnAt m = db.latestTurnId)
    (hmn : m ≤ n) : db.turnAt n = db.latestTurnId := by
  rw [h.latestTurnId_eq] at hm
  obtain ⟨e, he, hopen, hle, hturn, -⟩ := turnAt_spec hm
  exact h.turnAt_eq_of_opened he hopen hturn (by omega)

theorem not_stopAfter_last (h : LogInv db) (hn : db.nextEventSequence ≤ n + 1) :
    db.stopAfter n = false := by
  rw [← Bool.not_eq_true, stopAfter_iff]
  rintro ⟨e, he, -, hlt⟩
  have := h.sequence_bounds he
  omega

end LogInv

/-! ## Extending the log -/

namespace Extends

section
variable (hx : Extends db db' es)
include hx

theorem sequence_bounds (he : e ∈ es) :
    db.nextEventSequence ≤ e.sequence ∧ e.sequence < db'.nextEventSequence := by
  have hmem := mem_map_of_mem (f := AgentEvent.sequence) he
  rw [hx.sequences, mem_range'_1] at hmem
  rw [hx.next]
  exact hmem

theorem logInv (h : LogInv db) : LogInv db' where
  sequences := by
    rw [hx.events, map_append, h.sequences, hx.sequences, h.next, length_append,
      Nat.add_comm db.events.length 1, List.range'_append_1]
  next := by
    rw [hx.next, hx.events, h.next, length_append]
    omega
  turnRows := hx.turnRows
  inputRows := hx.inputRows
  turn e he := by
    rw [hx.events, mem_append] at he
    rcases he with he | he
    · exact ⟨(h.turn e he).1, Nat.le_trans (h.turn e he).2 hx.turns⟩
    · exact hx.turn e he
  input e he i hi := by
    rw [hx.events, mem_append] at he
    rcases he with he | he
    · exact Nat.lt_of_lt_of_le (h.input e he i hi) hx.inputs
    · exact hx.input e he i hi
  openings a ha b hb hoa hob hab := by
    rw [hx.events, mem_append] at ha hb
    rcases ha with ha | ha <;> rcases hb with hb | hb
    · exact h.openings a ha b hb hoa hob hab
    · rw [hx.opening b hb hob]
      exact Nat.le_trans (h.turn a ha).2 hx.turns
    · -- a new event is numbered after every old one
      have h₁ := hx.sequence_bounds ha
      have h₂ := h.sequence_bounds hb
      omega
    · rw [hx.opening a ha hoa, hx.opening b hb hob]
  opened := by
    rcases hx.opened with hsame | ⟨e, he, hopen⟩
    · obtain ⟨e, he, hopen, hturn⟩ := h.opened
      exact ⟨e, hx.events ▸ mem_append_left _ he, hopen, hsame ▸ hturn⟩
    · exact ⟨e, hx.events ▸ mem_append_right _ he, hopen, hx.opening e he hopen⟩

theorem filter_eq {p : AgentEvent → Bool} (hp : ∀ e ∈ es, p e = false) :
    db'.events.filter p = db.events.filter p := by
  have hnew : es.filter p = [] := filter_eq_nil_iff.2 fun e he => by simp [hp e he]
  rw [hx.events, filter_append, hnew, append_nil]

theorem turnAt_eq (hn : n < db.nextEventSequence) : db'.turnAt n = db.turnAt n := by
  rw [turnAt_eq_latest, turnAt_eq_latest, hx.filter_eq fun e he => ?_]
  have := hx.sequence_bounds he
  simp only [decide_eq_false_iff_not, not_and]
  omega

theorem latestTurnId_eq (h : LogInv db) (hopen : ∀ e ∈ es, e.isOpening = false) :
    db'.latestTurnId = db.latestTurnId := by
  rw [(hx.logInv h).latestTurnId_eq, h.latestTurnId_eq]
  rcases hx.opened with hsame | ⟨e, he, ho⟩
  · rw [hsame]
  · simp [hopen e he] at ho

theorem not_stopAfter (hold : db.stopAfter n = false) (hnew : ∀ e ∈ es, db'.isStop e = false) :
    db'.stopAfter n = false := by
  rw [← Bool.not_eq_true, stopAfter_iff]
  rintro ⟨e, he, hstop, hlt⟩
  rw [hx.events, mem_append] at he
  rcases he with he | he
  · rw [hx.stops e he] at hstop
    rw [← Bool.not_eq_true, stopAfter_iff] at hold
    exact hold ⟨e, he, hstop, hlt⟩
  · simp [hnew e he] at hstop

end

end Extends

end Db

end Store
