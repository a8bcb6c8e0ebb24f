import Omnara.AnthropicMessages.Assemble
import Omnara.AnthropicMessages.Proof.Replay
import Omnara.AnthropicMessages.Proof.Stream

/-!
# What an Anthropic stream emits and what it is assembled into

`Assembled` follows the blocks of a stream: the texts of every block are the deltas emitted at its index,
the closed blocks are the content, and the tool blocks among them are the recorded inputs. The parser
makes one tool call of every tool block and of no other block (`toolCalls_parseBlocks`), so the recorded
inputs and the tool calls of the response are in step (`rejectParts_aligned`).
-/

namespace AnthropicMessages

open Json
open Model List
open ModelContext (StopReason)
open Text (trimSpace)

variable {block : ContentBlock}

namespace StreamAccumulator

/-! ## Blocks -/

/-- The text of a block that is kept as it came names another type. -/
def UnknownType (raw : Bytes) : Prop :=
  ∃ value members type, decode raw = some value ∧ structMembers value = some members ∧
    stringField members "type" = some type ∧ blockKind type = none

def Known (b : ActiveBlock) : Prop :=
  b.kind = some .text ∨ b.kind = some .thinking ∨ b.kind = some .toolUse ∨
    b.kind = none ∧ UnknownType b.raw

theorem Known.assembled {b : ActiveBlock} (h : Known b) : ∃ value, b.assembled = some value := by
  unfold ActiveBlock.assembled
  rcases h with hkind | hkind | hkind | ⟨hkind, value, -, -, hvalue, -⟩
  · exact ⟨_, by rw [hkind]⟩
  · exact ⟨_, by rw [hkind]⟩
  · exact ⟨_, by rw [hkind]⟩
  · exact ⟨value, by rw [hkind]; exact hvalue⟩

/-- The texts of a block are the deltas that were emitted at its index. -/
structure Told (sink : Sink) (index : Nat) (b : ActiveBlock) : Prop where
  text : b.text = sink.deltas .textDelta (· == (index : Int))
  thinking : b.thinking = sink.deltas .thinkingDelta (· == (index : Int))

/-- The inputs of the tool blocks, from an index on. -/
def toolInputsOf : Nat → List ActiveBlock → List ToolInput
  | _, [] => []
  | index, b :: blocks =>
    (if b.kind = some .toolUse then [⟨index, trimSpace b.toolInputJSON⟩] else []) ++
      toolInputsOf (index + 1) blocks

theorem toolInputsOf_concat (b : ActiveBlock) : ∀ (blocks : List ActiveBlock) (index : Nat),
    toolInputsOf index (blocks ++ [b]) = toolInputsOf index blocks ++
      if b.kind = some .toolUse then [⟨(index + blocks.length : Nat), trimSpace b.toolInputJSON⟩]
      else []
  | [], index => by simp [toolInputsOf]
  | _ :: blocks, index => by
    rw [cons_append, toolInputsOf, toolInputsOf_concat b blocks (index + 1), toolInputsOf,
      append_assoc, length_cons, Nat.add_right_comm, Nat.add_assoc]

/-- The closed blocks of a stream, and with the active one all of its blocks. -/
structure Assembled (a : StreamAccumulator) (blocks : List ActiveBlock) : Prop where
  count : a.nextBlockIdx = blocks.length
  active : a.activeBlock ≠ none → a.activeBlockIdx = a.nextBlockIdx
  content : a.content.map decode = blocks.map ActiveBlock.assembled
  inputs : a.toolInputs = toolInputsOf 0 blocks
  known : ∀ b ∈ blocks ++ a.activeBlock.toList, Known b
  told : ∀ i b, (blocks ++ a.activeBlock.toList)[i]? = some b → Told a.sink i b
  /-- Nothing was emitted at an index that no block has yet. -/
  fresh : ∀ kind (p : Int → Bool),
    (∀ i : Nat, i < (blocks ++ a.activeBlock.toList).length → p i = false) →
      a.sink.deltas kind p = []

theorem assembled_new : Assembled {} [] where
  count := rfl
  active h := absurd rfl h
  content := rfl
  inputs := rfl
  known := by simp
  told := by simp
  fresh _ _ _ := rfl

section
variable {d : Decoders} {a b : StreamAccumulator} {blocks : List ActiveBlock}

variable {new : ActiveBlock} {sink : Sink}

theorem Assembled.congr (h : Assembled a blocks) (hsame : SameBlocks b a) : Assembled b blocks where
  count := hsame.nextBlockIdx.trans h.count
  active hactive := by
    rw [hsame.activeBlock] at hactive
    rw [hsame.activeBlockIdx, hsame.nextBlockIdx]
    exact h.active hactive
  content := by rw [hsame.content]; exact h.content
  inputs := hsame.toolInputs.trans h.inputs
  known := by rw [hsame.activeBlock]; exact h.known
  told := by rw [hsame.activeBlock, hsame.sink]; exact h.told
  fresh := by rw [hsame.activeBlock, hsame.sink]; exact h.fresh

/-- The active block becomes `new`; what was emitted since has its index. -/
theorem Assembled.setActive (h : Assembled a blocks) {index : Int} (hindex : index = a.nextBlockIdx)
    (hkn : Known new) {kind : StreamEventKind} {text : Bytes}
    (hsink : ∀ k p, sink.deltas k p = a.sink.deltas k p ++
      if kind = k ∧ p blocks.length = true then text else [])
    (htold : Told sink blocks.length new) :
    Assembled { a with activeBlock := some new, activeBlockIdx := index, sink := sink } blocks := by
  refine ⟨h.count, fun _ => hindex, h.content, h.inputs, fun b hb => ?_, fun i b hb => ?_,
    fun k p hp => ?_⟩
  · rcases mem_append.mp hb with hb | hb
    · exact h.known b (mem_append_left _ hb)
    · rw [mem_singleton.mp hb]
      exact hkn
  · dsimp only [Option.toList] at hb ⊢
    rw [List.getElem?_append] at hb
    split at hb
    · rename_i hlt
      have hne : ((blocks.length : Int) == (i : Int)) = false := by
        rw [beq_eq_false_iff_ne]
        omega
      have hold := h.told i b (by rw [List.getElem?_append_left hlt]; exact hb)
      exact ⟨by rw [hsink]; simp [hne, hold.text], by rw [hsink]; simp [hne, hold.thinking]⟩
    · rw [List.getElem?_singleton] at hb
      split at hb
      · obtain rfl : i = blocks.length := by omega
        cases hb
        exact htold
      · cases hb
  · have hlast : p blocks.length = false := hp blocks.length (by simp)
    have hlen : a.activeBlock.toList.length ≤ 1 := by cases a.activeBlock <;> simp
    rw [hsink, h.fresh k p fun i hi => hp i (by simp at hi ⊢; omega)]
    simp [hlast]

theorem Assembled.start (h : Assembled a blocks) (hnone : a.activeBlock = none)
    (hkn : Known new) (hthink : new.thinking = [])
    (hsink : ∀ kind p, sink.deltas kind p = a.sink.deltas kind p ++
      if .textDelta = kind ∧ p a.nextBlockIdx = true then new.text else []) :
    Assembled { a with activeBlock := some new, activeBlockIdx := a.nextBlockIdx, sink := sink }
      blocks := by
  rw [h.count] at hsink
  have hemp : ∀ kind, a.sink.deltas kind (· == (blocks.length : Int)) = [] := fun kind => by
    refine h.fresh kind _ fun i hi => ?_
    rw [hnone, Option.toList, append_nil] at hi
    rw [beq_eq_false_iff_ne]
    omega
  refine h.setActive rfl hkn hsink ⟨?_, ?_⟩
  · rw [hsink, hemp]
    simp
  · rw [hsink, hemp]
    simp [hthink]

theorem blockKind_cases (type : Bytes) : blockKind type = some .text ∨
    blockKind type = some .thinking ∨ blockKind type = some .toolUse ∨ blockKind type = none := by
  unfold blockKind
  split
  · exact .inl rfl
  split
  · exact .inr (.inl rfl)
  split
  · exact .inr (.inr (.inl rfl))
  · exact .inr (.inr (.inr rfl))

theorem openBlock_assembled (hd : JsonDecoders d) (h : Assembled a blocks) (index : Int)
    (raw : Bytes) : Assembled (openBlock d a index raw).1 blocks := by
  unfold openBlock
  split
  · exact h
  rename_i hinactive
  have hnone : a.activeBlock = none := by simpa using hinactive
  split
  · exact h
  rename_i hindex
  rw [not_not] at hindex
  subst hindex
  split
  · exact h
  rename_i typed htyped
  rcases blockKind_cases typed.type with hkind | hkind | hkind | hkind
  · simp only [hkind, newBlock]
    exact h.start hnone (.inl rfl) rfl fun kind p => by simp [Sink.textDelta, Sink.deltas_delta]
  · simp only [hkind, newBlock]
    exact h.start hnone (.inr (.inl rfl)) rfl fun kind p => by simp
  · simp only [hkind, newBlock]
    exact h.start hnone (.inr (.inr (.inl rfl))) rfl fun kind p => by simp
  · simp only [hkind, newBlock]
    obtain ⟨value, members, hvalue, hmems, htype⟩ := hd.block raw typed htyped
    have hunknown : UnknownType raw := ⟨value, members, typed.type, hvalue, hmems, htype, hkind⟩
    exact h.start hnone (.inr (.inr (.inr ⟨rfl, hunknown⟩))) rfl fun kind p => by simp

theorem Assembled.delta (h : Assembled a blocks) {block : ActiveBlock}
    (hactive : a.activeBlock = some block) (hkn : Known block → Known new)
    {kind : StreamEventKind} {text : Bytes}
    (hsink : ∀ k p, sink.deltas k p = a.sink.deltas k p ++
      if kind = k ∧ p a.activeBlockIdx = true then text else [])
    (htext : new.text = block.text ++ if kind = .textDelta then text else [])
    (hthink : new.thinking = block.thinking ++ if kind = .thinkingDelta then text else []) :
    Assembled { a with activeBlock := some new, sink := sink } blocks := by
  have hindex : a.activeBlockIdx = a.nextBlockIdx := h.active (by simp [hactive])
  have hall : blocks ++ a.activeBlock.toList = blocks ++ [block] := by rw [hactive]; rfl
  have htold := h.told blocks.length block (by rw [hall]; simp)
  rw [hindex, h.count] at hsink
  refine h.setActive hindex (hkn (h.known block (by rw [hall]; simp))) hsink ⟨?_, ?_⟩
  · rw [hsink, htext, htold.text]
    simp
  · rw [hsink, hthink, htold.thinking]
    simp

theorem applyDelta_assembled (h : Assembled a blocks) (index : Int) (raw : Bytes) :
    Assembled (applyDelta d a index raw).1 blocks := by
  unfold applyDelta
  split
  · exact h
  rename_i block hactive
  split
  · exact h
  rename_i hindex
  rw [not_not] at hindex
  subst hindex
  split
  · exact h
  split
  · exact h
  iterate 3
    split
    · exact h.delta hactive (fun hkn => hkn) (fun k p => Sink.deltas_delta ..) (by simp) (by simp)
  split
  · -- a signature is not emitted
    have hsame : ∀ k p, a.sink.deltas k p = a.sink.deltas k p ++
        if StreamEventKind.messageStop = k ∧ p a.activeBlockIdx = true then ([] : Bytes) else [] := by
      simp
    exact h.delta hactive (fun hkn => hkn) hsame (by simp) (by simp)
  · exact h

theorem closeBlock_assembled (hd : JsonDecoders d) (h : Assembled a blocks) (index : Int) :
    ∃ more, Assembled (closeBlock d a index).1 (blocks ++ more) := by
  unfold closeBlock
  split
  · exact ⟨[], by simpa using h⟩
  rename_i block hactive
  split
  · exact ⟨[], by simpa using h⟩
  rename_i hindex
  rw [not_not] at hindex
  subst hindex
  split
  · exact ⟨[], by simpa using h⟩
  rename_i rawBlock hraw
  have hall : blocks ++ a.activeBlock.toList = blocks ++ [block] := by rw [hactive]; rfl
  have hdec := hd.assemble block rawBlock hraw
  obtain ⟨value, hvalue⟩ := (h.known block (by rw [hall]; simp)).assembled
  -- the text of a value is not empty
  have hne : rawBlock ≠ [] := by
    rintro rfl
    have hemp : decode [] = none := by decide
    rw [hvalue, hemp] at hdec
    cases hdec
  have hidx : a.activeBlockIdx = (0 + blocks.length : Nat) := by
    rw [Nat.zero_add]
    exact (h.active (by rw [hactive]; exact Option.some_ne_none _)).trans h.count
  have hcl : ∀ sink : Sink, (∀ k p, sink.deltas k p = a.sink.deltas k p) →
      (∀ i b, (blocks ++ [block])[i]? = some b → Told sink i b) ∧
      ∀ k (p : Int → Bool), (∀ i : Nat, i < (blocks ++ [block]).length → p i = false) →
        sink.deltas k p = [] := by
    intro sink hsink
    refine ⟨fun i b hb => ?_, fun k p hp => ?_⟩
    · have htold := h.told i b (by rw [hall]; exact hb)
      exact ⟨by rw [hsink]; exact htold.text, by rw [hsink]; exact htold.thinking⟩
    · rw [hsink]
      exact h.fresh k p (by rw [hall]; exact hp)
  obtain ⟨htold, hfr⟩ := hcl (if block.kind = none then a.sink
    else a.sink.blockStop a.activeBlockIdx) (by intro k p; split <;> simp)
  refine ⟨[block], ?_, fun hsome => absurd rfl hsome, ?_, ?_, ?_, ?_, ?_⟩
  · have := h.count
    simp only [length_append, length_singleton]
    omega
  · rw [if_neg hne, map_append, map_append, h.content, map_singleton, hdec]
    rfl
  · dsimp only
    rw [toolInputsOf_concat, h.inputs, hidx]
    split <;> simp
  · intro b hb
    exact h.known b (by rw [hall]; simpa using hb)
  · simpa using htold
  · simpa using hfr

theorem handle_assembled (hd : JsonDecoders d) (h : Assembled a blocks) (ev : SSEEvent) :
    ∃ more, Assembled (handle d a ev).1 (blocks ++ more) := by
  rcases handle_cases d a ev with
    hsame | ⟨index, raw, hopen⟩ | ⟨index, raw, hdel⟩ | ⟨index, hclose⟩
  · exact ⟨[], by simpa using h.congr hsame⟩
  · rw [hopen]
    exact ⟨[], by simpa using openBlock_assembled hd h index raw⟩
  · rw [hdel]
    exact ⟨[], by simpa using applyDelta_assembled h index raw⟩
  · rw [hclose]
    exact closeBlock_assembled hd h index

end

variable {b : ActiveBlock} {value : Value} {a : StreamAccumulator} {blocks : List ActiveBlock}

theorem readSSEEvents_assembled {d : Decoders} (hd : JsonDecoders d) (readErr : Option Bytes)
    (events : List SSEEvent) :
    ∃ blocks, Assembled (readSSEEvents (onEvent d) readErr {} events).1 blocks := by
  refine readSSEEvents_inv (P := fun a => ∃ blocks, Assembled a blocks) (fun a ev h => ?_) readErr
    events ⟨[], assembled_new⟩
  obtain ⟨blocks, h⟩ := h
  obtain ⟨more, hnext⟩ := handle_assembled hd h ev
  exact ⟨blocks ++ more, onEvent_fst ev ▸ hnext⟩

/-! ## The parsed blocks -/

/-- The block that the parser reads from a tool block. -/
def toolUseBlock (b : ActiveBlock) : ContentBlock :=
  ⟨ascii "tool_use", [], b.toolID, b.toolName, some (inputOrEmpty (trimSpace b.toolInputJSON)), [], [], []⟩

/-- The parser reads a block with its type and its texts; one that was kept as it came has none of the
known types. -/
theorem Known.decoded (h : Known b) (hblk : b.assembled.bind decodeContentBlock = some block) :
    blockKind block.type = b.kind ∧ (b.kind = some .text → block.text = b.text) ∧
      (b.kind = some .thinking → block.thinking = b.thinking) ∧
      (b.kind = some .toolUse → block = toolUseBlock b) := by
  unfold ActiveBlock.assembled at hblk
  rcases h with hkind | hkind | hkind | ⟨hkind, value, members, type, hvalue, hmems, htype, hnone⟩ <;>
    rw [hkind] at hblk ⊢
  · cases hblk
    exact ⟨rfl, fun _ => rfl, nofun, nofun⟩
  · cases hblk
    exact ⟨rfl, nofun, fun _ => rfl, nofun⟩
  · cases hblk
    exact ⟨rfl, nofun, nofun, fun _ => rfl⟩
  · rw [hvalue, Option.bind_some] at hblk
    obtain ⟨members', hmems', hblk⟩ := Option.bind_eq_some_iff.mp hblk
    cases hmems.symm.trans hmems'
    obtain ⟨type', htype', hblk⟩ := Option.bind_eq_some_iff.mp hblk
    cases htype.symm.trans htype'
    simp only [Option.bind_eq_bind, Option.bind_eq_some_iff, Option.pure_def,
      Option.some.injEq] at hblk
    obtain ⟨_, -, _, -, _, -, _, -, _, -, _, -, rfl⟩ := hblk
    exact ⟨hnone, nofun, nofun, nofun⟩

def isCall (part : ResponsePart) : Bool := part.type = .toolCall

/-- The tool call a block is parsed into, if it is a tool block. -/
def callOf (b : ActiveBlock) : List ResponsePart :=
  if b.kind = some .toolUse then
    [newToolCallPart b.toolID b.toolName (some (inputOrEmpty (trimSpace b.toolInputJSON)))]
  else []

theorem toolCalls_parseBlock {item : Value} {part : Option ResponsePart}
    (hkn : Known b) (hvalue : b.assembled = some value)
    (h : parseBlock value false = .ok (item, part)) : part.toList.filter isCall = callOf b := by
  unfold parseBlock at h
  unfold callOf
  split at h
  · cases h
  rename_i block hblk
  obtain ⟨hkind, -, -, htool⟩ := hkn.decoded (by rw [hvalue]; exact hblk)
  split at h
  · rename_i htype
    rw [← hkind, htype]
    cases h
    split <;> simp [isCall, show blockKind (ascii "text") = some .text from rfl]
  split at h
  · rename_i htype
    rw [← hkind, htype]
    cases h
    split <;> simp [isCall, show blockKind (ascii "thinking") = some .thinking from rfl]
  split at h
  · rename_i htype
    rw [← hkind, htype]
    cases h
    simp [show blockKind (ascii "redacted_thinking") = none from rfl]
  split at h
  · rename_i htype
    have hkind : b.kind = some .toolUse := by rw [← hkind, htype]; rfl
    rw [htool hkind] at h
    cases h
    rw [if_pos hkind]
    rfl
  · cases h

theorem toolCalls_parseBlocks : ∀ {blocks : List ActiveBlock} {values : List Value}
    {parsed : List (Value × Option ResponsePart)}, values.map some = blocks.map ActiveBlock.assembled →
      (∀ b ∈ blocks, Known b) → parseBlocks false values = .ok parsed →
      (parsed.filterMap Prod.snd).filter isCall = blocks.flatMap callOf
  | [], [], parsed, _, _, h => by
    cases h
    rfl
  | b :: blocks, value :: values, parsed, hvalues, hkn, h => by
    rw [map_cons, map_cons, List.cons.injEq] at hvalues
    obtain ⟨item, part, rest, hblk, hrest, rfl⟩ := parseBlocks_cons h
    have hfst := toolCalls_parseBlock (hkn b mem_cons_self) hvalues.1.symm hblk
    have hoths := toolCalls_parseBlocks hvalues.2 (fun b hb => hkn b (mem_cons_of_mem _ hb))
      hrest
    rw [flatMap_cons, ← hfst, ← hoths, filterMap_cons]
    cases part with
    | none => rfl
    | some part => rw [Option.toList, ← filter_append]; rfl
  | [], _ :: _, _, hvalues, _, _ => by simp at hvalues
  | _ :: _, [], _, hvalues, _, _ => by simp at hvalues

/-- The input and the call come from one of the blocks, the first of which has the index. -/
def OfBlock (index : Nat) (blocks : List ActiveBlock) (input : ToolInput) (call : ResponsePart) : Prop :=
  ∃ (i : Nat) (b : ActiveBlock), blocks[i]? = some b ∧ b.kind = some .toolUse ∧
    input = ⟨(index + i : Nat), trimSpace b.toolInputJSON⟩ ∧
    call = newToolCallPart b.toolID b.toolName (some (inputOrEmpty (trimSpace b.toolInputJSON)))

theorem toolInputsOf_callOf : ∀ (blocks : List ActiveBlock) (index : Nat),
    List.Forall₂ (OfBlock index blocks) (toolInputsOf index blocks) (blocks.flatMap callOf)
  | [], _ => .nil
  | b :: blocks, index => by
    have hshift : ∀ input call, OfBlock (index + 1) blocks input call →
        OfBlock index (b :: blocks) input call := by
      rintro input call ⟨i, b', hb', hkind, hinp, hpart⟩
      exact ⟨i + 1, b', by simpa using hb', hkind, by rw [hinp]; congr 2; omega, hpart⟩
    have hrest := (toolInputsOf_callOf blocks (index + 1)).imp hshift
    rw [toolInputsOf, flatMap_cons, callOf]
    split
    · rename_i hkind
      exact .cons ⟨0, b, rfl, hkind, rfl, rfl⟩ hrest
    · exact hrest

theorem rejectPart_eq (a : StreamAccumulator) (stopReason : StopReason) (input : ToolInput)
    (part : ResponsePart) : a.rejectPart stopReason input part =
      { part with toolCallError := (a.rejectPart stopReason input part).toolCallError } := by
  unfold rejectPart
  generalize incompleteToolCallError = message
  split
  · rfl
  split
  · rfl
  · rfl

theorem rejectParts_aligned (a : StreamAccumulator) (stopReason : StopReason)
    {R : ToolInput → ResponsePart → Prop} : ∀ (parts : List ResponsePart) {inputs : List ToolInput},
      List.Forall₂ R inputs (parts.filter isCall) →
      List.Forall₂ (fun input part => ∃ old, R input old ∧ part = a.rejectPart stopReason input old)
        inputs ((a.rejectParts stopReason inputs parts).filter isCall)
  | [], inputs, h => by
    cases h
    exact .nil
  | part :: parts, inputs, h => by
    by_cases hcall : part.type = .toolCall
    · rw [filter_cons_of_pos (by simpa [isCall] using hcall)] at h
      obtain _ | ⟨hfst, hrest⟩ := h
      rename_i input inputs
      have hcall' : isCall (a.rejectPart stopReason input part) = true := by
        rw [rejectPart_eq]
        simpa [isCall] using hcall
      rw [rejectParts, if_neg (not_not.mpr hcall), filter_cons_of_pos hcall']
      exact .cons ⟨part, hfst, rfl⟩ (rejectParts_aligned a stopReason parts hrest)
    · have hno : ¬ isCall part = true := by simpa [isCall] using hcall
      rw [filter_cons_of_neg hno] at h
      rw [rejectParts.eq_def]
      dsimp only
      rw [if_pos hcall, filter_cons_of_neg hno]
      exact rejectParts_aligned a stopReason parts h

/-! ## The response -/

/-- The content block at an index, as the parser reads it. -/
def contentBlock (a : StreamAccumulator) (index : Nat) : Option ContentBlock :=
  a.content[index]?.bind fun raw => (decode raw).bind decodeContentBlock

theorem Assembled.contentBlock (h : Assembled a blocks) (index : Nat) :
    a.contentBlock index = blocks[index]?.bind fun b => b.assembled.bind decodeContentBlock := by
  have hindex := congrArg (·[index]?.bind (·.bind decodeContentBlock)) h.content
  simp only [List.getElem?_map, Option.bind_map] at hindex
  exact hindex

/-- The text of a text block, and the thinking of a thinking block, is what was emitted at its index. -/
theorem Assembled.emitted (h : Assembled a blocks) {index : Nat}
    (hblk : a.contentBlock index = some block) :
    (block.type = ascii "text" → a.sink.deltas .textDelta (· == (index : Int)) = block.text) ∧
      (block.type = ascii "thinking" →
        a.sink.deltas .thinkingDelta (· == (index : Int)) = block.thinking) := by
  rw [h.contentBlock] at hblk
  obtain ⟨b, hb, hread⟩ := Option.bind_eq_some_iff.mp hblk
  have hall : (blocks ++ a.activeBlock.toList)[index]? = some b := by
    rw [List.getElem?_append_left (List.getElem?_eq_some_iff.mp hb).1]
    exact hb
  have htold := h.told index b hall
  obtain ⟨hkind, htext, hthink, -⟩ := (h.known b (mem_of_getElem? hall)).decoded hread
  refine ⟨fun htype => ?_, fun htype => ?_⟩ <;> rw [htype] at hkind
  · rw [htext hkind.symm, htold.text]
  · rw [hthink hkind.symm, htold.thinking]

theorem decodeMessagesResponse_content {members : Json.Members}
    {decoded : MessagesResponse} (hmems : structMembers value = some members)
    (h : decodeMessagesResponse value = some decoded) :
    listField members "content" = some decoded.content := by
  obtain ⟨_, hmems', h⟩ := Option.bind_eq_some_iff.mp h
  cases hmems.symm.trans hmems'
  iterate 5 obtain ⟨_, -, h⟩ := Option.bind_eq_some_iff.mp h
  obtain ⟨items, hitems, h⟩ := Option.bind_eq_some_iff.mp h
  iterate 9 obtain ⟨_, -, h⟩ := Option.bind_eq_some_iff.mp h
  cases h
  exact hitems

theorem responseBody_content {decoded : MessagesResponse}
    (hbody : a.responseBody = some value) (hdecoded : decodeMessagesResponse value = some decoded) :
    decoded.content.map some = a.content.map decode ∧
      (stringsSafe value = true → itemsSafe decoded.content = true) := by
  obtain ⟨content, hcont, hbody⟩ := Option.bind_eq_some_iff.mp hbody
  cases hbody
  have hlist := decodeMessagesResponse_content rfl hdecoded
  have hread : content = decoded.content := Option.some.inj hlist
  rw [← hread]
  refine ⟨(Fallible.map_of_mapM_some hcont).symm, fun hsafe => ?_⟩
  rw [stringsSafe, membersSafe, Bool.and_eq_true, Bool.and_eq_true] at hsafe
  exact hsafe.1.2

/-- The input was not streamed to its end: nothing of it came before the response was cut off in its
block, or what came is no JSON object. -/
def Unfinished (a : StreamAccumulator) (stopReason : StopReason) (input : ToolInput) : Prop :=
  input.rawInput = [] ∧ stopReason = .maxTokens ∧ input.blockIndex = a.nextBlockIdx - 1 ∨
    input.rawInput ≠ [] ∧ validToolInput (decode input.rawInput) = false

theorem newToolCallPart_error (id : Bytes) {name : Bytes} {input : Value}
    (hinp : toolInputError (some input) = none) :
    (newToolCallPart id name (some input)).toolCallError ≠ [] ↔ trimSpace name = [] := by
  have hmiss : missingNameError ≠ [] := by simp [missingNameError, ascii]
  unfold newToolCallPart
  dsimp only
  rw [hinp]
  generalize missingNameError = message at hmiss ⊢
  split
  · rename_i hbl
    exact ⟨fun _ => hbl, fun _ => hmiss⟩
  · rename_i hname
    exact ⟨fun h => absurd rfl h, fun h => absurd h hname⟩

theorem rejectPart_error (a : StreamAccumulator) (stopReason : StopReason) {input : ToolInput}
    (htrim : trimSpace input.rawInput = input.rawInput)
    (hsafe : stringsSafe (inputOrEmpty input.rawInput) = true) (id name : Bytes) :
    (a.rejectPart stopReason input
        (newToolCallPart id name (some (inputOrEmpty input.rawInput)))).toolCallError ≠ [] ↔
      trimSpace name = [] ∨ Unfinished a stopReason input := by
  have hincomplete : incompleteToolCallError ≠ [] := by simp [incompleteToolCallError, ascii]
  have hvalue : inputValue input.rawInput = decode input.rawInput := by rw [inputValue, htrim]
  unfold rejectPart Unfinished
  rw [hvalue]
  generalize incompleteToolCallError = message at hincomplete ⊢
  by_cases hraw : input.rawInput = []
  · have hkept : toolInputError (some (inputOrEmpty input.rawInput)) = none := by rw [hraw]; decide
    by_cases hcut : stopReason = .maxTokens ∧ input.blockIndex = a.nextBlockIdx - 1
    · have hopen : ¬ (input.rawInput = [] ∧
          (stopReason ≠ .maxTokens ∨ input.blockIndex ≠ a.nextBlockIdx - 1)) := by
        rintro ⟨-, hstop | hindex⟩
        · exact hstop hcut.1
        · exact hindex hcut.2
      rw [if_neg hopen, if_pos (.inl hraw)]
      exact ⟨fun _ => .inr (.inl ⟨hraw, hcut⟩), fun _ => hincomplete⟩
    · rw [if_pos ⟨hraw, Decidable.not_and_iff_not_or_not.mp hcut⟩, newToolCallPart_error id hkept]
      constructor
      · exact .inl
      · rintro (hname | ⟨-, hcut'⟩ | ⟨hne, -⟩)
        · exact hname
        · exact absurd hcut' hcut
        · exact absurd hraw hne
  · rw [if_neg fun h => hraw h.1]
    cases hval : validToolInput (decode input.rawInput) with
    | false =>
      rw [if_pos (.inr rfl)]
      exact ⟨fun _ => .inr (.inr ⟨hraw, rfl⟩), fun _ => hincomplete⟩
    | true =>
      have hkept : toolInputError (some (inputOrEmpty input.rawInput)) = none := by
        unfold inputOrEmpty at hsafe ⊢
        unfold validToolInput at hval
        split at hval
        · rename_i members hdec
          rw [hdec] at hsafe ⊢
          exact if_pos hsafe
        · cases hval
      rw [if_neg (by simp [hraw]), newToolCallPart_error id hkept]
      constructor
      · exact .inl
      · rintro (hname | ⟨hemp, -⟩ | ⟨-, hfalse⟩)
        · exact hname
        · exact absurd hemp hraw
        · cases hfalse

/-- A recorded input and the tool call of its place belong to the same block. -/
def Judged (a : StreamAccumulator) (stopReason : StopReason) (input : ToolInput)
    (part : ResponsePart) : Prop :=
  ∃ block, a.contentBlock input.blockIndex.toNat = some block ∧ block.type = ascii "tool_use" ∧
    block.input = some (inputOrEmpty input.rawInput) ∧
    part = { newToolCallPart block.id block.name block.input with
      toolCallError := part.toolCallError } ∧
    (part.toolCallError ≠ [] ↔ trimSpace block.name = [] ∨ Unfinished a stopReason input)

theorem itemsSafe_mem : ∀ {items : List Value}, itemsSafe items = true →
    ∀ v ∈ items, stringsSafe v = true
  | [], _, v, hv => by cases hv
  | item :: items, h, v, hv => by
    rw [itemsSafe, Bool.and_eq_true] at h
    rcases mem_cons.mp hv with rfl | hv
    · exact h.1
    · exact itemsSafe_mem h.2 v hv

theorem rejectIncompleteToolInputs_judged
    (h : Assembled a blocks) {status : Int} {body : Bytes} {response : Response}
    (hbody : decode body = a.responseBody)
    (hpar : parseResponse ⟨status, body⟩ true = .ok response) :
    List.Forall₂ (Judged a response.stopReason) a.toolInputs
      ((a.rejectIncompleteToolInputs response).content.filter isCall) := by
  obtain ⟨value, decoded, parsed, hvalue, hdecoded, hblks, hcont, -⟩ := parseResponse_cases hpar
  have hv' : decode body = some value ∧ stringsSafe value = true := by
    unfold validateProviderJSON at hvalue
    split at hvalue
    · cases hvalue
    split at hvalue
    · cases hvalue
    rename_i v hv
    split at hvalue
    · rename_i hsafe
      cases hvalue
      exact ⟨hv, hsafe⟩
    · cases hvalue
  obtain ⟨hitems, hsafe⟩ := responseBody_content (hbody.symm.trans hv'.1) hdecoded
  have hcalls := toolCalls_parseBlocks (hitems.trans h.content)
    (fun b hb => h.known b (mem_append_left _ hb)) hblks
  have haligned := toolInputsOf_callOf blocks 0
  rw [← h.inputs, ← hcalls, ← hcont] at haligned
  refine (rejectParts_aligned a response.stopReason response.content haligned).imp ?_
  rintro input part ⟨old, ⟨i, b, hb, hkind, rfl, rfl⟩, rfl⟩
  have hsafe : stringsSafe (inputOrEmpty (trimSpace b.toolInputJSON)) = true := by
    obtain ⟨v, hv⟩ := (h.known b (mem_append_left _ (mem_of_getElem? hb))).assembled
    have hmem : some v ∈ decoded.content.map some := by
      rw [hitems, h.content, ← hv]
      exact mem_map_of_mem (mem_of_getElem? hb)
    have hsafe' := itemsSafe_mem (hsafe hv'.2) v (by simpa using hmem)
    unfold ActiveBlock.assembled at hv
    rw [hkind] at hv
    cases hv
    simp only [stringsSafe, membersSafe, Bool.and_eq_true] at hsafe'
    exact hsafe'.2.1.2
  refine ⟨toolUseBlock b, (h.contentBlock _).trans ?_, rfl, rfl, ?_, ?_⟩
  · rw [Nat.zero_add, Int.toNat_natCast, hb, Option.bind_some, ActiveBlock.assembled, hkind]
    rfl
  · exact rejectPart_eq ..
  · exact rejectPart_error a response.stopReason (Text.trimSpace_trimSpace _) hsafe b.toolID b.toolName

theorem finish_deltas (d : Decoders) (a : StreamAccumulator) (readErr : Option ReadError)
    (kind : StreamEventKind) (p : Int → Bool) :
    (a.finish d readErr).sink.deltas kind p = a.sink.deltas kind p := by
  have habort : a.abortOpenBlocks.sink.deltas kind p = a.sink.deltas kind p := by
    unfold abortOpenBlocks
    split
    · split
      · rfl
      · exact Sink.deltas_blockStop ..
    · rfl
  have herror : ∀ message, (a.abortOpenBlocks.error message).sink.deltas kind p =
      a.sink.deltas kind p := fun message => (Sink.deltas_error ..).trans habort
  unfold finish
  split
  · exact herror _
  split
  · exact herror _
  split
  · exact herror _
  split
  · exact Sink.deltas_error ..
  · exact Sink.deltas_messageStop ..

end StreamAccumulator

open StreamAccumulator

/-- **What is emitted and what is assembled.** For every stream, the text deltas emitted at the index of
a text block, and the thinking deltas at the index of a thinking block, add up to the text of the
assembled block. If the response that is assembled parses, the recorded inputs and its tool calls are in
step, and exactly the calls without a name or with an unfinished input carry an error. -/
theorem consumeStream_judged (d : Decoders) (hd : JsonDecoders d) (events : List SSEEvent)
    (readErr : Option Bytes) (a : StreamAccumulator) (err : Option ReadError)
    (hread : readSSEEvents (onEvent d) readErr {} events = (a, err)) :
    (∀ index block, a.contentBlock index = some block → (block.type = ascii "text" →
        (consumeStream d events readErr).sink.deltas .textDelta (· == (index : Int)) = block.text) ∧
      (block.type = ascii "thinking" →
        (consumeStream d events readErr).sink.deltas .thinkingDelta (· == (index : Int)) =
          block.thinking)) ∧
    ∀ status body response, decode body = a.responseBody →
      parseResponse ⟨status, body⟩ true = .ok response →
      List.Forall₂ (Judged a response.stopReason) a.toolInputs
        ((a.rejectIncompleteToolInputs response).content.filter isCall) := by
  obtain ⟨blocks, h⟩ := readSSEEvents_assembled hd readErr events
  have hconsume : consumeStream d events readErr = a.finish d err := by
    rw [consumeStream, hread]
  rw [hread] at h
  refine ⟨fun index block hblock => ?_, fun status body response hbody hparse =>
    rejectIncompleteToolInputs_judged h hbody hparse⟩
  rw [hconsume, finish_deltas, finish_deltas]
  exact h.emitted hblock

/-! ## A stream with calls of every kind -/

/-- The blocks of the stream with the texts they are written to: a text block that got a thinking delta,
a call without input, a call with a list for input, and a call without a name. -/
def sampleBlocks : List (ActiveBlock × Bytes) := [
  (⟨some .text, [], [], ascii "hm", [], [], [], []⟩, ascii r#"{"text":"","type":"text"}"#),
  (⟨some .toolUse, [], [], [], [], [], ascii "a", ascii "run"⟩,
    ascii r#"{"id":"a","input":{},"name":"run","type":"tool_use"}"#),
  (⟨some .toolUse, [], [], [], [], ascii "[1]", ascii "b", ascii "run"⟩,
    ascii r#"{"id":"b","input":[1],"name":"run","type":"tool_use"}"#),
  (⟨some .toolUse, [], [], [], [], ascii r#"{}"#, ascii "c", ascii " "⟩,
    ascii r#"{"id":"c","input":{},"name":" ","type":"tool_use"}"#)]

def sampleDecoders : Decoders := frameDecoders fun block =>
  match sampleBlocks.find? (·.1 = block) with
  | some (_, raw) => .ok raw
  | none => .error []

theorem sampleDecoders_json : JsonDecoders sampleDecoders := by
  refine frameDecoders_json fun block raw h => ?_
  split at h
  · rename_i found text hfound
    obtain rfl : text = raw := Except.ok.inj h
    have hall : ∀ entry ∈ sampleBlocks, decode entry.2 = entry.1.assembled := by decide +kernel
    have hkey : found = block := by simpa using List.find?_some hfound
    rw [← hkey]
    exact hall (found, text) (mem_of_find?_eq_some hfound)
  · cases h

def sampleEvents : List SSEEvent := [
  ("message_start", r#"{"message":{"id":"m","model":"x"}}"#),
  ("content_block_start", r#"{"index":0,"content_block":{"type":"text","text":""}}"#),
  ("content_block_delta", r#"{"index":0,"delta":{"type":"thinking_delta","thinking":"hm"}}"#),
  ("content_block_stop", r#"{"index":0}"#),
  ("content_block_start",
    r#"{"index":1,"content_block":{"type":"tool_use","id":"a","name":"run","input":{}}}"#),
  ("content_block_stop", r#"{"index":1}"#),
  ("content_block_start",
    r#"{"index":2,"content_block":{"type":"tool_use","id":"b","name":"run","input":{}}}"#),
  ("content_block_delta", r#"{"index":2,"delta":{"type":"input_json_delta","partial_json":"[1]"}}"#),
  ("content_block_stop", r#"{"index":2}"#),
  ("content_block_start",
    r#"{"index":3,"content_block":{"type":"tool_use","id":"c","name":" ","input":{}}}"#),
  ("content_block_delta", r#"{"index":3,"delta":{"type":"input_json_delta","partial_json":"{}"}}"#),
  ("content_block_stop", r#"{"index":3}"#),
  ("message_delta", r#"{"delta":{"stop_reason":"tool_use"}}"#), ("message_stop", r#"{}"#)].map
    fun (event, data) => ⟨ascii event, ascii data⟩

def sampleAccumulator : StreamAccumulator where
  sink := [
    { kind := .blockStart, blockIndex := 0, block := some { kind := .text } },
    { kind := .thinkingDelta, blockIndex := 0, delta := ascii "hm" },
    { kind := .blockStop, blockIndex := 0 },
    { kind := .blockStart, blockIndex := 1, block := some ⟨.toolUse, ascii "a", ascii "run"⟩ },
    { kind := .blockStop, blockIndex := 1 },
    { kind := .blockStart, blockIndex := 2, block := some ⟨.toolUse, ascii "b", ascii "run"⟩ },
    { kind := .toolArgsDelta, blockIndex := 2, delta := ascii "[1]" },
    { kind := .blockStop, blockIndex := 2 },
    { kind := .blockStart, blockIndex := 3, block := some ⟨.toolUse, ascii "c", ascii " "⟩ },
    { kind := .toolArgsDelta, blockIndex := 3, delta := ascii r#"{}"# },
    { kind := .blockStop, blockIndex := 3 }]
  id := ascii "m"
  servedModel := ascii "x"
  stopReasonRaw := ascii "tool_use"
  content := sampleBlocks.map Prod.snd
  toolInputs := [⟨1, []⟩, ⟨2, ascii "[1]"⟩, ⟨3, ascii r#"{}"#⟩]
  activeBlockIdx := 3
  nextBlockIdx := 4
  sawMessageStop := true

def sampleBody : Bytes := ascii r#"{"content":["# ++
  List.intercalate (ascii ",") (sampleBlocks.map Prod.snd) ++
  ascii r#"],"id":"m","model":"x","role":"assistant","stop_reason":"tool_use","type":"message","usage":
    {"input_tokens":0,"output_tokens":0,"cache_creation_input_tokens":0,"cache_read_input_tokens":0}}"#

/-- What is evaluated of the sample. -/
theorem sample_facts :
    readSSEEvents (onEvent sampleDecoders) none {} sampleEvents = (sampleAccumulator, some .terminal) ∧
    decode sampleBody = sampleAccumulator.responseBody ∧
    (∃ response ∈ (parseResponse ⟨200, sampleBody⟩ true).toOption, True) ∧
    [1, 2, 3].map (fun index => (sampleAccumulator.contentBlock index).map (·.name)) =
      [some (ascii "run"), some (ascii "run"), some (ascii " ")] ∧
    (sampleAccumulator.hasCompleteTerminalOutcome = true ∧
      (sampleAccumulator.sink.filter (·.blockIndex = 0)).flatMap (·.delta) = ascii "hm" ∧
      (sampleAccumulator.contentBlock 0).map (fun block => (block.type, block.text)) =
        some (ascii "text", [])) ∧
    sampleAccumulator.toolInputs.map (fun input => checkValid input.rawInput) =
      [false, true, true] := by
  decide +kernel

theorem sample_name {index : Nat} {name : Bytes}
    (hblk : sampleAccumulator.contentBlock index = some block)
    (hname : (sampleAccumulator.contentBlock index).map (·.name) = some name) :
    block.name = name := by
  rw [hblk] at hname
  exact Option.some.inj hname

/-- The stream is accepted. A thinking delta that is emitted in the text block is not in its text; the
call without input has no error, although the empty text is no JSON, and the other two have one,
although their inputs are JSON. -/
theorem sample_judged_otherwise : (readSSEEvents (onEvent sampleDecoders) none {} sampleEvents =
        (sampleAccumulator, some .terminal) ∧
      sampleAccumulator.hasCompleteTerminalOutcome = true ∧
      (sampleAccumulator.sink.filter (·.blockIndex = 0)).flatMap (·.delta) = ascii "hm" ∧
      (sampleAccumulator.contentBlock 0).map (fun block => (block.type, block.text)) =
        some (ascii "text", [])) ∧
    sampleAccumulator.toolInputs.map (fun input => checkValid input.rawInput) =
      [false, true, true] ∧
    ∃ response, parseResponse ⟨200, sampleBody⟩ true = .ok response ∧
      ((sampleAccumulator.rejectIncompleteToolInputs response).content.filter isCall).map
        (fun part => decide (part.toolCallError ≠ [])) = [false, true, true] := by
  obtain ⟨hread, hdecode, ⟨response, hresponse, -⟩, hnames, hsink, hvalid⟩ := sample_facts
  have hparse := Fallible.mem_toOption hresponse
  refine ⟨⟨hread, hsink⟩, hvalid, response, hparse, ?_⟩
  obtain ⟨blocks, h⟩ := readSSEEvents_assembled sampleDecoders_json none sampleEvents
  rw [hread] at h
  have hjudged := rejectIncompleteToolInputs_judged h hdecode hparse
  simp only [map_cons, map_nil, List.cons.injEq] at hnames
  generalize (sampleAccumulator.rejectIncompleteToolInputs response).content.filter isCall = calls
    at hjudged ⊢
  obtain _ | ⟨⟨block, hblock, -, -, -, hnone⟩, _ | ⟨⟨_, -, -, -, -, hlist⟩,
    _ | ⟨⟨block', hblock', -, -, -, hblank⟩, _ | _⟩⟩⟩ := hjudged
  have hfirst : trimSpace block.name ≠ [] := by
    rw [sample_name hblock hnames.1]
    decide
  have hthird : trimSpace block'.name = [] := by
    rw [sample_name hblock' hnames.2.2.1]
    decide
  have h1 := hnone.not.mpr (not_or.mpr ⟨hfirst, by
    rintro (⟨-, -, hindex⟩ | ⟨hraw, -⟩)
    · exact absurd hindex (by decide)
    · exact hraw rfl⟩)
  have h2 := hlist.mpr (.inr (.inr ⟨by decide, by decide⟩))
  have h3 := hblank.mpr (.inl hthird)
  rw [not_not] at h1
  simp [h1, h2, h3]

/-- The call with a list for input is rejected, since a list is no object. -/
theorem consumeStream_judged_sample : ∃ response,
    parseResponse ⟨200, sampleBody⟩ true = .ok response ∧
    ∃ part ∈ (sampleAccumulator.rejectIncompleteToolInputs response).content.filter isCall,
      part.toolInput = some (.obj []) ∧ part.toolCallError ≠ [] := by
  obtain ⟨hread, hdecode, ⟨response, hresponse, -⟩, -⟩ := sample_facts
  have hparse := Fallible.mem_toOption hresponse
  refine ⟨response, hparse, ?_⟩
  obtain ⟨-, hcalls⟩ := consumeStream_judged sampleDecoders sampleDecoders_json sampleEvents none
    sampleAccumulator _ hread
  have hjudged := hcalls 200 sampleBody response hdecode hparse
  generalize (sampleAccumulator.rejectIncompleteToolInputs response).content.filter isCall = calls
    at hjudged ⊢
  obtain _ | ⟨-, _ | ⟨⟨block, -, -, hinput, hpart, herror⟩, -⟩⟩ := hjudged
  refine ⟨_, mem_cons_of_mem _ mem_cons_self, ?_, ?_⟩
  · rw [hpart, hinput]
    rfl
  · exact herror.mpr (.inr (.inr ⟨by decide, by decide⟩))

end AnthropicMessages
