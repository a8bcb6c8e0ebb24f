import Mathlib.Data.Finset.Dedup
import Omnara.Lib.Brackets
import Omnara.Model.Stream

/-!
# Emitting well-bracketed streams

`Emitted sink bound opened`: the events of the sink replay, with the blocks `opened` open and every
index so far below `bound`. Each call of the emitter has its rule; a producer that keeps `Emitted` and
ends with `messageStop` or `error` once no block is open has emitted a well-bracketed stream
(`Emitted.messageStop`, `Emitted.error`).

`Sink.deltas` is what a reader puts together from the deltas of a kind in chosen blocks; only a delta of
that kind in such a block adds to it (`Sink.deltas_delta`).
-/

namespace Model

open Brackets (Act)
open Json (Bytes)
open ModelContext (StopReason)

def StreamEvent.act (e : StreamEvent) : Act :=
  match e.kind with
  | .blockStart => .start e.blockIndex
  | .textDelta | .thinkingDelta | .toolArgsDelta => .delta e.blockIndex
  | .blockStop => .stop e.blockIndex
  | .messageStop | .error => .terminal
  | .other _ => .unknown

def WellBracketed (sink : Sink) : Prop := Brackets.WellBracketed (sink.map StreamEvent.act)

def Emitted (sink : Sink) (bound : Int) (opened : Finset Int) : Prop :=
  Brackets.run (sink.map StreamEvent.act) = some ⟨bound, opened, false⟩

theorem emitted_nil : Emitted [] 0 ∅ := rfl

section
variable {sink : Sink} {bound : Int} {opened : Finset Int} {index : Int}

section
variable (h : Emitted sink bound opened)
include h

theorem run_emit (e : StreamEvent) :
    Brackets.run ((sink ++ [e]).map StreamEvent.act) =
      Brackets.step ⟨bound, opened, false⟩ e.act := by
  rw [List.map_append, List.map_singleton, Brackets.run_concat, h, Option.bind_some]

theorem Emitted.blockStart (hidx : bound ≤ index) (block : StreamBlock) :
    Emitted (sink.blockStart index block) (index + 1) (insert index opened) := by
  unfold Emitted Sink.blockStart
  rw [run_emit h]
  exact if_pos ⟨rfl, hidx⟩

variable (hidx : index ∈ opened)
include hidx

theorem Emitted.delta {kind : StreamEventKind}
    (hkind : kind = .textDelta ∨ kind = .thinkingDelta ∨ kind = .toolArgsDelta) (delta : Bytes) :
    Emitted (sink.delta kind index delta) bound opened := by
  unfold Sink.delta
  split
  · exact h
  · unfold Emitted
    rw [run_emit h]
    rcases hkind with rfl | rfl | rfl <;> exact if_pos ⟨rfl, hidx⟩

theorem Emitted.textDelta (delta : Bytes) : Emitted (sink.textDelta index delta) bound opened :=
  h.delta hidx (.inl rfl) delta

theorem Emitted.thinkingDelta (delta : Bytes) :
    Emitted (sink.thinkingDelta index delta) bound opened :=
  h.delta hidx (.inr (.inl rfl)) delta

theorem Emitted.toolArgsDelta (delta : Bytes) :
    Emitted (sink.toolArgsDelta index delta) bound opened :=
  h.delta hidx (.inr (.inr rfl)) delta

theorem Emitted.blockStop : Emitted (sink.blockStop index) bound (opened.erase index) := by
  unfold Emitted Sink.blockStop
  rw [run_emit h]
  exact if_pos ⟨rfl, hidx⟩

theorem Emitted.lt_bound : index < bound := by
  have hrepl := Brackets.replayed_of_run h
  exact hrepl.below index ((hrepl.opened index).mp hidx).1

end

theorem Emitted.blockStops : ∀ {indices : List Int} {sink : Sink}, indices.Nodup →
    Emitted sink bound indices.toFinset → Emitted (indices.foldl Sink.blockStop sink) bound ∅
  | [], _, _, h => h
  | i :: indices, sink, hnd, h => by
    obtain ⟨hi, hrest⟩ := List.nodup_cons.mp hnd
    have hmem : i ∈ (i :: indices).toFinset := by simp
    have hstop := h.blockStop hmem
    rw [List.toFinset_cons, Finset.erase_insert (by simpa using hi)] at hstop
    show Emitted (indices.foldl Sink.blockStop (sink.blockStop i)) bound ∅
    exact Emitted.blockStops hrest hstop

theorem Emitted.terminal (h : Emitted sink bound ∅) {e : StreamEvent} (he : e.act = .terminal) :
    WellBracketed (sink ++ [e]) := by
  have hrun := run_emit h e
  rw [he, Brackets.step, if_pos ⟨rfl, rfl⟩] at hrun
  exact Brackets.wellBracketed_of_run hrun rfl

theorem Emitted.messageStop (h : Emitted sink bound ∅) (reason : StopReason) (usage : Usage) :
    WellBracketed (sink.messageStop reason usage) :=
  h.terminal rfl

theorem Emitted.error (h : Emitted sink bound ∅) (message : Bytes) :
    WellBracketed (sink.error message) :=
  h.terminal rfl

end

/-! ## What the deltas add up to -/

/-- The deltas of a kind in the chosen blocks, put together. -/
def Sink.deltas (sink : Sink) (kind : StreamEventKind) (chosen : Int → Bool) : Bytes :=
  (sink.filter fun e => e.kind = kind && chosen e.blockIndex).flatMap (·.delta)

section
variable (sink : Sink) (kind : StreamEventKind) (chosen : Int → Bool)

theorem Sink.deltas_concat {e : StreamEvent} (he : e.delta = []) :
    Sink.deltas (sink ++ [e]) kind chosen = Sink.deltas sink kind chosen := by
  unfold Sink.deltas
  cases decide (e.kind = kind) && chosen e.blockIndex <;> simp [he]

@[simp]
theorem Sink.deltas_blockStart (index : Int) (block : StreamBlock) :
    Sink.deltas (sink.blockStart index block) kind chosen = Sink.deltas sink kind chosen :=
  Sink.deltas_concat sink kind chosen rfl

@[simp]
theorem Sink.deltas_blockStop (index : Int) :
    Sink.deltas (sink.blockStop index) kind chosen = Sink.deltas sink kind chosen :=
  Sink.deltas_concat sink kind chosen rfl

@[simp]
theorem Sink.deltas_messageStop (reason : StopReason) (usage : Usage) :
    Sink.deltas (sink.messageStop reason usage) kind chosen = Sink.deltas sink kind chosen :=
  Sink.deltas_concat sink kind chosen rfl

@[simp]
theorem Sink.deltas_error (message : Bytes) :
    Sink.deltas (sink.error message) kind chosen = Sink.deltas sink kind chosen :=
  Sink.deltas_concat sink kind chosen rfl

@[simp]
theorem Sink.deltas_blockStops : ∀ (indices : List Int) (sink : Sink),
    Sink.deltas (indices.foldl Sink.blockStop sink) kind chosen = Sink.deltas sink kind chosen
  | [], _ => rfl
  | _ :: indices, _ => (Sink.deltas_blockStops indices _).trans (Sink.deltas_blockStop ..)

theorem Sink.deltas_delta (other : StreamEventKind) (index : Int) (delta : Bytes) :
    Sink.deltas (sink.delta other index delta) kind chosen =
      Sink.deltas sink kind chosen ++ if other = kind ∧ chosen index = true then delta else [] := by
  unfold Sink.deltas Sink.delta
  split
  · simp [*]
  · by_cases hkind : other = kind <;> by_cases hidx : chosen index = true <;> simp [hkind, hidx]

end

theorem readSSEEvents_inv {σ : Type} {P : σ → Prop} {onEvent : σ → SSEEvent → σ × Option ReadError}
    (hevent : ∀ s ev, P s → P (onEvent s ev).1) (readErr : Option Bytes) :
    ∀ (events : List SSEEvent) {s : σ}, P s → P (readSSEEvents onEvent readErr s events).1
  | [], _, h => h
  | ev :: events, s, h => by
    have hnext := hevent s ev h
    unfold readSSEEvents
    cases hev : onEvent s ev with
    | mk t err =>
      rw [hev] at hnext
      cases err with
      | none => exact readSSEEvents_inv hevent readErr events hnext
      | some err => exact hnext

end Model
