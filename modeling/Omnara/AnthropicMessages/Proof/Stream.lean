import Omnara.AnthropicMessages.Stream
import Omnara.Model.Proof.Stream

/-!
# The Anthropic stream is well bracketed

Between two events either no block is active, or one is, at the next index to give out, and it is open
for the reader of the stream if its type is known (`StreamInv`). Each handler keeps that
(`openBlock_inv`, `applyDelta_inv`, `closeBlock_inv`), so `finish` finds at most one block to stop.
-/

namespace AnthropicMessages

open Json (Bytes)
open Model

namespace StreamAccumulator

/-- The indices of the active block that are open for the reader. -/
def openIndices (block : ActiveBlock) (index : Int) : Finset Int :=
  if block.kind = none then ∅ else {index}

inductive StreamInv (a : StreamAccumulator) : Prop
  | idle {bound : Int} : a.activeBlock = none → Emitted a.sink bound ∅ → bound ≤ a.nextBlockIdx →
      StreamInv a
  | active {block : ActiveBlock} {bound : Int} : a.activeBlock = some block →
      a.activeBlockIdx = a.nextBlockIdx →
      Emitted a.sink bound (openIndices block a.activeBlockIdx) → bound ≤ a.nextBlockIdx + 1 →
      StreamInv a

variable {a : StreamAccumulator} {d : Decoders}

theorem streamInv_new : StreamInv {} := .idle rfl emitted_nil (Int.le_refl _)

theorem StreamInv.congr {b : StreamAccumulator} (h : StreamInv a) (hsink : b.sink = a.sink)
    (hblk : b.activeBlock = a.activeBlock) (hidx : b.activeBlockIdx = a.activeBlockIdx)
    (hnext : b.nextBlockIdx = a.nextBlockIdx) : StreamInv b := by
  cases h with
  | idle hnone hemit hbd =>
    rw [← hblk] at hnone
    rw [← hsink] at hemit
    rw [← hnext] at hbd
    exact .idle hnone hemit hbd
  | active hsome hactive hemit hbd =>
    rw [← hblk] at hsome
    rw [← hidx, ← hnext] at hactive
    rw [← hsink, ← hidx] at hemit
    rw [← hnext] at hbd
    exact .active hsome hactive hemit hbd

theorem openBlock_inv (h : StreamInv a) (index : Int)
    (raw : Bytes) : StreamInv (openBlock d a index raw).1 := by
  unfold openBlock
  split
  · exact h
  rename_i hinactive
  split
  · exact h
  rename_i hindex
  split
  · exact h
  rename_i typed htyped
  rw [not_not] at hindex
  cases h with
  | active hsome => exact absurd (by rw [hsome]; rfl) hinactive
  | idle hnone hemit hbd =>
    have hstart : ∀ block, Emitted (a.sink.blockStart index block) (index + 1) {index} :=
      fun block => hemit.blockStart (by omega) block
    split
    · rename_i hkind
      refine .active rfl hindex ?_ (Int.add_le_add_right (Int.le_of_eq hindex) 1)
      simp only [openIndices, newBlock, hkind]
      exact (hstart _).textDelta (Finset.mem_singleton_self _) _
    · rename_i hkind
      refine .active rfl hindex ?_ (Int.add_le_add_right (Int.le_of_eq hindex) 1)
      simp only [openIndices, newBlock, hkind]
      exact hstart _
    · rename_i hkind
      refine .active rfl hindex ?_ (Int.add_le_add_right (Int.le_of_eq hindex) 1)
      simp only [openIndices, newBlock, hkind]
      exact hstart _
    · rename_i hoth
      refine .active rfl hindex ?_ (Int.le_trans hbd (Int.le_add_one (Int.le_refl _)))
      have hraw : newBlock typed raw = { raw := raw } := by
        unfold newBlock
        split <;> first | rfl | contradiction
      rw [hraw]
      exact hemit

theorem StreamInv.applied (h : StreamInv a) {block block' : ActiveBlock}
    (hsome : a.activeBlock = some block) (hkind : block'.kind = block.kind) {sink : Sink}
    (hsink : ∀ bound, Emitted a.sink bound (openIndices block a.activeBlockIdx) →
      Emitted sink bound (openIndices block a.activeBlockIdx)) :
    StreamInv { a with activeBlock := some block', sink := sink } := by
  cases h with
  | idle hnone => rw [hnone] at hsome; cases hsome
  | @active current _ hsome' hactive hemit hbd =>
    cases hsome.symm.trans hsome'
    refine .active rfl hactive ?_ hbd
    have hsame : openIndices block' a.activeBlockIdx = openIndices block a.activeBlockIdx := by
      rw [openIndices, hkind, ← openIndices]
    rw [hsame]
    exact hsink _ hemit

theorem applyDelta_inv (h : StreamInv a) (index : Int)
    (raw : Bytes) : StreamInv (applyDelta d a index raw).1 := by
  unfold applyDelta
  split
  · exact h
  rename_i block hsome
  split
  · exact h
  rename_i hindex
  split
  · exact h
  rename_i typed htyped
  rw [not_not] at hindex
  split
  · exact h
  rename_i hkn
  have hmem : index ∈ openIndices block a.activeBlockIdx := by
    rw [openIndices, if_neg hkn, hindex]
    exact Finset.mem_singleton_self _
  split
  · apply h.applied hsome
    · rfl
    · intro _ hemit
      exact hemit.textDelta hmem _
  split
  · apply h.applied hsome
    · rfl
    · intro _ hemit
      exact hemit.thinkingDelta hmem _
  split
  · apply h.applied hsome
    · rfl
    · intro _ hemit
      exact hemit.toolArgsDelta hmem _
  split
  · apply h.applied hsome
    · rfl
    · exact fun _ hemit => hemit
  · exact h

/-- Stopping the active block, if it is open for the reader. -/
theorem emitted_stop {sink : Sink} {bound index : Int} {block : ActiveBlock}
    (h : Emitted sink bound (openIndices block index)) :
    Emitted (if block.kind = none then sink else sink.blockStop index) bound ∅ := by
  unfold openIndices at h
  split
  · rename_i hkind
    rwa [if_pos hkind] at h
  · rename_i hkind
    rw [if_neg hkind] at h
    have hstop := h.blockStop (Finset.mem_singleton_self index)
    rwa [Finset.erase_singleton] at hstop

theorem closeBlock_inv (h : StreamInv a) (index : Int) : StreamInv (closeBlock d a index).1 := by
  unfold closeBlock
  split
  · exact h
  rename_i block hsome
  split
  · exact h
  rename_i hindex
  split
  · exact h
  rw [not_not] at hindex
  cases h with
  | idle hnone => rw [hnone] at hsome; cases hsome
  | active hsome' hactive hemit hbd =>
    cases hsome'.symm.trans hsome
    rw [← hindex] at hemit
    exact .idle rfl (emitted_stop hemit) hbd

structure SameBlocks (b a : StreamAccumulator) : Prop where
  sink : b.sink = a.sink
  content : b.content = a.content
  toolInputs : b.toolInputs = a.toolInputs
  activeBlock : b.activeBlock = a.activeBlock
  activeBlockIdx : b.activeBlockIdx = a.activeBlockIdx
  nextBlockIdx : b.nextBlockIdx = a.nextBlockIdx

theorem SameBlocks.refl (a : StreamAccumulator) : SameBlocks a a := ⟨rfl, rfl, rfl, rfl, rfl, rfl⟩

/-- What an event can do: open a block, add to it, close it, or leave the blocks alone. -/
theorem handle_cases (d : Decoders) (a : StreamAccumulator) (ev : SSEEvent) :
    SameBlocks (handle d a ev).1 a ∨ (∃ index raw, handle d a ev = openBlock d a index raw) ∨
      (∃ index raw, handle d a ev = applyDelta d a index raw) ∨
      ∃ index, handle d a ev = closeBlock d a index := by
  have hnone := SameBlocks.refl a
  unfold handle
  split
  · exact .inl hnone
  split
  · split
    · exact .inl hnone
    · exact .inl ⟨rfl, rfl, rfl, rfl, rfl, rfl⟩
  split
  · split
    · exact .inl hnone
    · rename_i frame hframe
      cases frame.index with
      | none => exact .inl hnone
      | some index => exact .inr (.inl ⟨index, _, rfl⟩)
  split
  · split
    · exact .inl hnone
    · rename_i frame hframe
      cases frame.index with
      | none => exact .inl hnone
      | some index => exact .inr (.inr (.inl ⟨index, _, rfl⟩))
  split
  · split
    · exact .inl hnone
    · rename_i index hframe
      cases index with
      | none => exact .inl hnone
      | some index => exact .inr (.inr (.inr ⟨index, rfl⟩))
  split
  · split
    · exact .inl hnone
    · exact .inl ⟨rfl, rfl, rfl, rfl, rfl, rfl⟩
  split
  · exact .inl ⟨rfl, rfl, rfl, rfl, rfl, rfl⟩
  split
  · exact .inl ⟨rfl, rfl, rfl, rfl, rfl, rfl⟩
  · exact .inl hnone

theorem handle_inv (h : StreamInv a) (ev : SSEEvent) : StreamInv (handle d a ev).1 := by
  rcases handle_cases d a ev with
    hsame | ⟨index, raw, hopen⟩ | ⟨index, raw, hdel⟩ | ⟨index, hclose⟩
  · exact h.congr hsame.sink hsame.activeBlock hsame.activeBlockIdx hsame.nextBlockIdx
  · rw [hopen]
    exact openBlock_inv h index raw
  · rw [hdel]
    exact applyDelta_inv h index raw
  · rw [hclose]
    exact closeBlock_inv h index

theorem onEvent_fst (ev : SSEEvent) : (onEvent d a ev).1 = (handle d a ev).1 := by
  unfold onEvent
  obtain ⟨b, _ | err⟩ := handle d a ev <;> rfl

theorem emitted_abort (h : StreamInv a) : ∃ bound, Emitted a.abortOpenBlocks.sink bound ∅ := by
  cases h with
  | idle hnone hemit =>
    unfold abortOpenBlocks
    rw [hnone]
    exact ⟨_, hemit⟩
  | active hsome hactive hemit =>
    unfold abortOpenBlocks
    rw [hsome]
    have hstop := emitted_stop hemit
    dsimp only
    split
    · rename_i hkind
      rw [if_pos hkind] at hstop
      exact ⟨_, hstop⟩
    · rename_i hkind
      rw [if_neg hkind] at hstop
      exact ⟨_, hstop⟩

theorem finish_wellBracketed (h : StreamInv a)
    (readErr : Option ReadError) : WellBracketed (a.finish d readErr).sink := by
  obtain ⟨bound, haborted⟩ := emitted_abort h
  unfold finish
  split
  · exact haborted.error _
  split
  · exact haborted.error _
  split
  · exact haborted.error _
  · rename_i hcomplete
    -- a complete outcome has no active block
    have hnone : a.activeBlock = none := by
      rw [Bool.not_eq_true, Bool.not_eq_false', hasCompleteTerminalOutcome, Bool.and_eq_true,
        Option.isNone_iff_eq_none] at hcomplete
      exact hcomplete.2
    have hemit : Emitted a.sink bound ∅ := by
      rwa [abortOpenBlocks, hnone] at haborted
    split
    · exact hemit.error _
    · exact hemit.messageStop _ _

end StreamAccumulator

/-- **The Anthropic stream is well bracketed**, whatever the events and however the stream ends. -/
theorem consumeStream_wellBracketed (d : Decoders) (events : List SSEEvent)
    (readErr : Option Bytes) : WellBracketed (consumeStream d events readErr).sink := by
  have h := readSSEEvents_inv
    (fun _ ev h => StreamAccumulator.onEvent_fst (d := d) ev ▸ StreamAccumulator.handle_inv h ev)
    readErr events StreamAccumulator.streamInv_new
  exact StreamAccumulator.finish_wellBracketed h _

end AnthropicMessages
