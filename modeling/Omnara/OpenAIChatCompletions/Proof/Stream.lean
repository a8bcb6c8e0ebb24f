import Omnara.Model.Proof.Stream
import Omnara.OpenAIChatCompletions.Stream

/-!
# The chat completions stream is well bracketed

What the text and the reasoning of a delta keep is said once (`Kept`). The open blocks of a choice have
different indices, all given out before, and they are the blocks that are open for the reader of the
stream (`ChoiceInv`). A delta either goes to an open block (`ChoiceInv.delta`) or opens one with the next
index (`ChoiceInv.start`); closing stops them all.
-/

namespace OpenAIChatCompletions

open Json (Bytes)
open Model List

namespace ChoiceState

/-- Every step of the text and of the reasoning keeps `P`. -/
structure Kept (P : ChoiceState → Output → Prop) : Prop where
  quiet : ∀ {s s' : ChoiceState} {out : Output}, P s out → s'.text = s.text →
    s'.toolCalls = s.toolCalls → s'.openBlocks = s.openBlocks → P s' out
  appendText : ∀ {s : ChoiceState} {out : Output}, P s out → ∀ text,
    P (s.appendText out text).1 (s.appendText out text).2
  appendReasoning : ∀ {s : ChoiceState} {out : Output}, P s out → ∀ text,
    P (s.appendReasoning out text).1 (s.appendReasoning out text).2

section
variable {P : ChoiceState → Output → Prop} {s : ChoiceState} {out : Output}

theorem Kept.applyTexts (hP : Kept P) (h : P s out) (text refusal : Bytes) :
    P (s.applyTexts out text refusal).1 (s.applyTexts out text refusal).2 := by
  unfold ChoiceState.applyTexts
  split
  rename_i s' out' hfst
  have h' : P s' out' := by
    split at hfst
    · have htext := hP.appendText h text
      rwa [hfst] at htext
    · cases hfst
      exact h
  split
  · have hrefusal : P { s' with refusal := s'.refusal ++ refusal } out' := hP.quiet h' rfl rfl rfl
    exact hP.appendText hrefusal refusal
  · exact h'

theorem Kept.appendReasoningDetails (hP : Kept P) : ∀ (details : List Bytes) {s : ChoiceState},
    P s out → P (s.appendReasoningDetails details).1 out
  | [], _, h => h
  | raw :: details, s, h => by
    unfold ChoiceState.appendReasoningDetails
    split
    · exact hP.appendReasoningDetails details h
    · exact hP.appendReasoningDetails details (hP.quiet h rfl rfl rfl)

theorem Kept.applyReasoning (hP : Kept P) (h : P s out) (details : List Bytes)
    (reasoning reasoningContent : Bytes) :
    P (s.applyReasoning out details reasoning reasoningContent).1
      (s.applyReasoning out details reasoning reasoningContent).2 := by
  unfold ChoiceState.applyReasoning
  extract_lets s'
  have h' : P s' out := hP.quiet h rfl rfl rfl
  split
  · have hdet := hP.appendReasoningDetails details h'
    dsimp only
    split
    · exact hP.appendReasoning hdet _
    · exact hdet
  split
  · exact hP.appendReasoning h' _
  split
  · exact hP.appendReasoning h' _
  · exact h'

theorem Kept.applyContent (hP : Kept P) (h : P s out) (delta : Delta)
    (texts : Bytes × Bytes × Bytes × Bytes) :
    P (s.applyContent out delta texts).1 (s.applyContent out delta texts).2 := by
  obtain ⟨text, refusal, reasoning, reasoningContent⟩ := texts
  unfold ChoiceState.applyContent
  extract_lets s'
  have h' : P s' out := hP.quiet h rfl rfl rfl
  exact hP.applyReasoning (hP.applyTexts h' text refusal) delta.reasoningDetails reasoning
    reasoningContent

end

structure ChoiceInv (s : ChoiceState) (out : Output) : Prop where
  emitted : ∃ bound, Emitted out.sink bound s.openBlocks.toFinset ∧ bound ≤ out.nextBlockIndex
  nodup : s.openBlocks.Nodup

variable {s s' : ChoiceState} {out : Output}

theorem choiceInv_new : ChoiceInv {} {} := ⟨⟨0, emitted_nil, Int.le_refl _⟩, nodup_nil⟩

section
variable (h : ChoiceInv s out)
include h

theorem ChoiceInv.perm (hperm : s'.openBlocks.Perm s.openBlocks) : ChoiceInv s' out := by
  refine ⟨?_, hperm.nodup_iff.mpr h.nodup⟩
  rw [toFinset_eq_of_perm _ _ hperm]
  exact h.emitted

theorem ChoiceInv.delta {index : Int} (hidx : index ∈ s.openBlocks) {sink : Sink}
    (hsink : ∀ bound opened, index ∈ opened → Emitted out.sink bound opened →
      Emitted sink bound opened) :
    ChoiceInv s { out with sink := sink } := by
  obtain ⟨bound, hemit, hbd⟩ := h.emitted
  exact ⟨⟨bound, hsink bound _ (mem_toFinset.mpr hidx) hemit, hbd⟩, h.nodup⟩

theorem ChoiceInv.start (hperm : s'.openBlocks.Perm (out.nextBlockIndex :: s.openBlocks))
    (block : StreamBlock) :
    ChoiceInv s' ⟨out.sink.blockStart out.nextBlockIndex block, out.nextBlockIndex + 1⟩ := by
  obtain ⟨bound, hemit, hbd⟩ := h.emitted
  refine ⟨⟨out.nextBlockIndex + 1, ?_, Int.le_refl _⟩, ?_⟩
  · rw [toFinset_eq_of_perm _ _ hperm, toFinset_cons]
    exact hemit.blockStart hbd block
  · rw [hperm.nodup_iff, nodup_cons]
    refine ⟨?_, h.nodup⟩
    intro hmem
    have := hemit.lt_bound (mem_toFinset.mpr hmem)
    omega

theorem appendText_inv (text : Bytes) :
    ChoiceInv (s.appendText out text).1 (s.appendText out text).2 := by
  unfold appendText
  split
  · rename_i hopen
    have hmem : s.textBlockIndex ∈ s.openBlocks := by simp [openBlocks, hopen]
    exact (h.delta hmem fun _ _ hi hemit => hemit.textDelta hi text).perm (.refl _)
  · rename_i hcl
    have hstart := @ChoiceInv.start s { s with
      text := s.text ++ text, textBlockIndex := out.nextBlockIndex, textBlockOpen := true } out h
      (by simp [openBlocks, hcl]) { kind := .text }
    exact hstart.delta (by simp [openBlocks]) fun _ _ hi hemit => hemit.textDelta hi text

theorem appendReasoning_inv (text : Bytes) :
    ChoiceInv (s.appendReasoning out text).1 (s.appendReasoning out text).2 := by
  unfold appendReasoning
  split
  · rename_i hopen
    have hmem : s.reasoningBlockIndex ∈ s.openBlocks := by simp [openBlocks, hopen]
    exact h.delta hmem fun _ _ hi hemit => hemit.thinkingDelta hi text
  · rename_i hcl
    have hstart := @ChoiceInv.start s { s with
      reasoningBlockIndex := out.nextBlockIndex, reasoningBlockOpen := true } out h
      (by
        simp only [openBlocks, hcl, if_true, Bool.false_eq_true, if_false, append_nil,
          append_assoc, singleton_append]
        exact perm_middle) { kind := .thinking }
    exact hstart.delta (by simp [openBlocks]) fun _ _ hi hemit => hemit.thinkingDelta hi text

end

/-- The open blocks of the tool calls, with the entry of one call taken out. -/
theorem openTool_setEntry (index : Int) (tool : ToolCallState) :
    ∀ calls : List (Int × ToolCallState), ∃ rest,
      (calls.flatMap fun (_, t) => openTool t).Perm
        (openTool ((calls.lookup index).getD {}) ++ rest) ∧
      ((setEntry index tool calls).flatMap fun (_, t) => openTool t).Perm (openTool tool ++ rest)
  | [] => ⟨[], by simp [openTool], by simp [setEntry]⟩
  | (key, t) :: calls => by
    by_cases hkey : key = index
    · subst hkey
      refine ⟨calls.flatMap fun (_, t) => openTool t, ?_, ?_⟩
      · simp
      · simp [setEntry]
    · obtain ⟨rest, hold, hnew⟩ := openTool_setEntry index tool calls
      have hlk : ((key, t) :: calls).lookup index = calls.lookup index := by
        have : (index == key) = false := by simpa using fun h => hkey h.symm
        simp [lookup_cons, this]
      refine ⟨openTool t ++ rest, ?_, ?_⟩
      · rw [hlk, flatMap_cons]
        exact (hold.append_left _).trans (perm_append_comm_assoc ..)
      · rw [setEntry, if_neg hkey, flatMap_cons]
        exact (hnew.append_left _).trans (perm_append_comm_assoc ..)

theorem openBlocks_setEntry (s : ChoiceState) (index : Int) (tool : ToolCallState) : ∃ rest,
    s.openBlocks.Perm (openTool ((s.toolCalls.lookup index).getD {}) ++ rest) ∧
      ({ s with toolCalls := setEntry index tool s.toolCalls } : ChoiceState).openBlocks.Perm
        (openTool tool ++ rest) := by
  obtain ⟨rest, hold, hnew⟩ := openTool_setEntry index tool s.toolCalls
  refine ⟨((if s.textBlockOpen then [s.textBlockIndex] else []) ++
    (if s.reasoningBlockOpen then [s.reasoningBlockIndex] else [])) ++ rest, ?_, ?_⟩
  · exact (hold.append_left _).trans (perm_append_comm_assoc ..)
  · exact (hnew.append_left _).trans (perm_append_comm_assoc ..)

theorem applyToolDelta_inv (h : ChoiceInv s out) (delta : ToolCallDelta) :
    ChoiceInv (s.applyToolDelta out delta).1 (s.applyToolDelta out delta).2 := by
  have hnamed : ∀ tool, openTool (ToolCallDelta.named delta tool) = openTool tool := fun _ => rfl
  unfold applyToolDelta
  extract_lets tool arguments grown waiting index opened sink sink'
  have hbef : openTool tool = openTool ((s.toolCalls.lookup delta.index).getD {}) := hnamed _
  split
  · rename_i hopen
    obtain ⟨rest, hold, hnew⟩ := openBlocks_setEntry s delta.index grown
    have hsame : ({ s with toolCalls := setEntry delta.index grown s.toolCalls } :
        ChoiceState).openBlocks.Perm s.openBlocks := hnew.trans (hbef ▸ hold.symm)
    refine (h.perm hsame).delta ?_ fun _ _ hi hemit => hemit.toolArgsDelta hi arguments
    rw [hnew.mem_iff]
    have : openTool grown = [tool.blockIndex] := if_pos hopen
    simp [this]
  rename_i hcl
  have hnone : openTool ((s.toolCalls.lookup delta.index).getD {}) = [] :=
    hbef.symm.trans (if_neg hcl)
  split
  · obtain ⟨rest, hold, hnew⟩ := openBlocks_setEntry s delta.index waiting
    have hwaiting : openTool waiting = [] := if_neg hcl
    rw [hnone] at hold
    rw [hwaiting] at hnew
    exact h.perm (hnew.trans hold.symm)
  · obtain ⟨rest, hold, hnew⟩ := openBlocks_setEntry s delta.index opened
    have hopened : openTool opened = [out.nextBlockIndex] := rfl
    rw [hnone] at hold
    have hstart := h.start (hnew.trans (hold.symm.cons _)) ⟨.toolUse, tool.id, tool.name⟩
    have hmem : index ∈ ({ s with toolCalls := setEntry delta.index opened s.toolCalls } :
        ChoiceState).openBlocks := by
      rw [hnew.mem_iff]
      exact mem_cons_self
    have hpend := hstart.delta hmem fun _ _ hi hemit => hemit.toolArgsDelta hi tool.pending
    exact hpend.delta hmem fun _ _ hi hemit => hemit.toolArgsDelta hi arguments

theorem closeOpenBlocks_inv (h : ChoiceInv s out) : (s.closeOpenBlocks out).1.openBlocks = [] ∧
      ∃ bound, Emitted (s.closeOpenBlocks out).2.sink bound ∅ ∧
        bound ≤ (s.closeOpenBlocks out).2.nextBlockIndex := by
  obtain ⟨bound, hemit, hbd⟩ := h.emitted
  have hsort : (s.openBlocks.mergeSort (· ≤ ·)).Perm s.openBlocks := mergeSort_perm _ _
  refine ⟨?_, bound, ?_, hbd⟩
  · simp [closeOpenBlocks, openBlocks, openTool, flatMap_map]
  · apply Emitted.blockStops
    · exact hsort.nodup_iff.mpr h.nodup
    · rw [toFinset_eq_of_perm _ _ hsort]
      exact hemit

theorem ChoiceInv.closed (h : ChoiceInv s out) :
    ChoiceInv (s.closeOpenBlocks out).1 (s.closeOpenBlocks out).2 := by
  obtain ⟨hnone, hemit⟩ := closeOpenBlocks_inv h
  refine ⟨?_, ?_⟩
  · rw [hnone]
    exact hemit
  · rw [hnone]
    exact nodup_nil

theorem ChoiceInv.congr (h : ChoiceInv s out)
    (hsame : s'.openBlocks = s.openBlocks) : ChoiceInv s' out :=
  h.perm (.of_eq hsame)

theorem choiceInv_kept : Kept ChoiceInv :=
  ⟨fun h _ _ hsame => h.congr hsame, appendText_inv, appendReasoning_inv⟩

theorem applyToolDeltas_inv : ∀ (deltas : List ToolCallDelta) {s : ChoiceState} {out : Output},
    ChoiceInv s out → ChoiceInv (s.applyToolDeltas out deltas).1 (s.applyToolDeltas out deltas).2
  | [], _, _, h => h
  | delta :: deltas, _, _, h => applyToolDeltas_inv deltas (applyToolDelta_inv h delta)

theorem applyDelta_inv (h : ChoiceInv s out) (delta : Delta)
    (texts : Bytes × Bytes × Bytes × Bytes) :
    ChoiceInv (s.applyDelta out delta texts).1 (s.applyDelta out delta texts).2 :=
  applyToolDeltas_inv delta.toolCalls (choiceInv_kept.applyContent h delta texts)

end ChoiceState

open ChoiceState (ChoiceInv)

namespace StreamAccumulator

def StreamInv (a : StreamAccumulator) : Prop := ChoiceInv (a.choice.getD {}) a.out

variable {a : StreamAccumulator} {d : Decoders}

theorem streamInv_new : StreamInv {} := ChoiceState.choiceInv_new

theorem closeOpenBlocks_inv (h : StreamInv a) :
    StreamInv a.closeOpenBlocks ∧ ∃ bound, Emitted a.closeOpenBlocks.out.sink bound ∅ := by
  unfold StreamInv closeOpenBlocks at *
  cases hchoice : a.choice with
  | none =>
    rw [hchoice] at h
    obtain ⟨bound, hemit, -⟩ := h.emitted
    refine ⟨?_, bound, hemit⟩
    rw [hchoice]
    exact h
  | some s =>
    rw [hchoice] at h
    obtain ⟨-, bound, hemit, -⟩ := ChoiceState.closeOpenBlocks_inv h
    exact ⟨h.closed, bound, hemit⟩

theorem handleChoice_inv (h : StreamInv a) (choice : Choice) :
    StreamInv (handleChoice d a choice).1 := by
  unfold handleChoice
  have h' : ChoiceInv (a.finishing choice) a.out := ChoiceInv.congr h rfl
  split
  · exact h'
  · rename_i texts htexts
    have hdel := ChoiceState.applyDelta_inv h' choice.delta texts
    dsimp only
    split
    · exact hdel.closed
    split
    · exact hdel.closed
    · exact hdel

theorem handle_inv (h : StreamInv a) (ev : SSEEvent) : StreamInv (handle d a ev).1 := by
  unfold handle
  extract_lets data
  split
  · exact h
  split
  · exact (closeOpenBlocks_inv (a := { a with completed := true }) h).1
  split
  · exact h
  rename_i chunk hchunk
  extract_lets a'
  have h' : StreamInv a' := h
  split
  · rename_i err herr
    exact (closeOpenBlocks_inv (a := { a' with streamErr := some (d.chunkError err) }) h').1
  split
  · exact h'
  split
  · exact h'
  · split
    · exact h'
    · exact handleChoice_inv h' _
  · exact h'

theorem onEvent_fst (ev : SSEEvent) : (onEvent d a ev).1 = (handle d a ev).1 := by
  unfold onEvent
  obtain ⟨b, _ | err⟩ := handle d a ev <;> rfl

theorem finish_wellBracketed (h : StreamInv a)
    (readErr : Option ReadError) : WellBracketed (a.finish d readErr).out.sink := by
  obtain ⟨-, bound, hcl⟩ := closeOpenBlocks_inv h
  unfold finish
  extract_lets b
  split
  · exact hcl.error _
  split
  · exact hcl.error _
  split
  · exact hcl.error _
  split
  · exact hcl.error _
  · exact hcl.messageStop _ _

end StreamAccumulator

/-- **The chat completions stream is well bracketed**, whatever the chunks and however the stream
ends. -/
theorem consumeStream_wellBracketed (d : Decoders) (events : List SSEEvent)
    (readErr : Option Bytes) : WellBracketed (consumeStream d events readErr).out.sink := by
  have h := readSSEEvents_inv
    (fun _ ev h => StreamAccumulator.onEvent_fst (d := d) ev ▸ StreamAccumulator.handle_inv h ev)
    readErr events StreamAccumulator.streamInv_new
  exact StreamAccumulator.finish_wellBracketed h _

end OpenAIChatCompletions
