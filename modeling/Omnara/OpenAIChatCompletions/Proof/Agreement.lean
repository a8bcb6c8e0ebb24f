import Omnara.OpenAIChatCompletions.Message
import Omnara.OpenAIChatCompletions.Proof.Stream

/-!
# What a chat completions stream emits and what it is assembled into

A tool call may be given several blocks: a finish reason stops its block, and the next delta opens
another one. `toolBlocks` is the list of them. Whenever a block is opened, all that was buffered while
the call had no id or no name is emitted (`Flushed.start`), and the buffer is never emptied, so a call
with a buffer and `n` blocks has emitted the buffer `n` times. `Agreed` is the invariant of the whole
choice; `Agreed.frame` covers the steps that concern neither the text nor the tool calls.

Whether a call has a buffer and how many blocks it is given is in the chunks alone: `toolSteps` are the
deltas and finish reasons of a stream, and `Traced` says what they make of a call.
-/

namespace OpenAIChatCompletions

open Json
open Model List
open ModelContext (StopReason)
open Text (trimSpace)

/-! ## Deltas and finish reasons -/

/-- What a chunk does to the tool calls. -/
inductive ToolStep
  | delta (delta : ToolCallDelta)
  /-- a finish reason, which stops the open blocks -/
  | stop

/-- At some step of the list, `p` holds of the steps before and the step. -/
def Sometime (p : List ToolStep → ToolStep → Prop) (steps : List ToolStep) : Prop :=
  ∃ before step after, steps = before ++ step :: after ∧ p before step

/-- A delta of the tool call with this index has a text, as its id. -/
def Given (text : ToolCallDelta → Bytes) (index : Int) (steps : List ToolStep) : Prop :=
  ∃ delta, .delta delta ∈ steps ∧ delta.index = index ∧ text delta ≠ []

def Identified (index : Int) (steps : List ToolStep) : Prop :=
  Given (·.id) index steps ∧ Given (·.name) index steps

/-- The call gets arguments before both its id and its name are known. -/
def Buffers (index : Int) : List ToolStep → Prop := Sometime fun before step =>
  ∃ delta, step = .delta delta ∧ delta.index = index ∧ delta.arguments ≠ [] ∧
    ¬ Identified index (before ++ [step])

/-- A finish reason comes after the id and the name, and so stops a block of the call. -/
def Stopped (index : Int) : List ToolStep → Prop := Sometime fun before step =>
  step = .stop ∧ Identified index before

/-- The call gets a delta after a block of it has been stopped. -/
def Reopens (index : Int) : List ToolStep → Prop := Sometime fun before step =>
  (∃ delta, step = .delta delta ∧ delta.index = index) ∧ Stopped index before

theorem given_concat {text : ToolCallDelta → Bytes} {index : Int} {steps : List ToolStep}
    {step : ToolStep} : Given text index (steps ++ [step]) ↔
      Given text index steps ∨ ∃ delta, step = .delta delta ∧ delta.index = index ∧ text delta ≠ [] := by
  simp only [Given, mem_append, mem_singleton]
  grind

theorem sometime_concat {p : List ToolStep → ToolStep → Prop} {steps : List ToolStep}
    {step : ToolStep} : Sometime p (steps ++ [step]) ↔ Sometime p steps ∨ p steps step := by
  constructor
  · rintro ⟨before, found, after, heq, hp⟩
    rcases eq_nil_or_concat after with rfl | ⟨after, last, rfl⟩
    · obtain ⟨rfl, hstep⟩ := append_inj' heq rfl
      cases hstep
      exact .inr hp
    · rw [concat_eq_append, ← cons_append, ← append_assoc] at heq
      exact .inl ⟨before, found, after, (append_inj' heq rfl).1, hp⟩
  · rintro (⟨before, found, after, rfl, hp⟩ | hp)
    · exact ⟨before, found, after ++ [step], by simp, hp⟩
    · exact ⟨steps, step, [], rfl, hp⟩

/-! ## The blocks of a tool call -/

namespace ChoiceState

/-- The blocks that a list of deltas opens for the tool call with this index. -/
def openedBlocks (index : Int) : ChoiceState → Output → List ToolCallDelta → List Int
  | _, _, [] => []
  | s, out, delta :: deltas =>
    let next := s.applyToolDelta out delta
    (if delta.index = index ∧ out.nextBlockIndex < next.2.nextBlockIndex then [out.nextBlockIndex]
      else []) ++ openedBlocks index next.1 next.2 deltas

/-- The same for a whole delta, whose text and reasoning come first. -/
def deltaBlocks (index : Int) (s : ChoiceState) (out : Output) (delta : Delta)
    (texts : Bytes × Bytes × Bytes × Bytes) : List Int :=
  let (s, out) := s.applyContent out delta texts
  openedBlocks index s out delta.toolCalls

end ChoiceState

def Choice.steps (choice : Choice) : List ToolStep :=
  choice.delta.toolCalls.map .delta ++
    if choice.finishReason ≠ [] ∨ choice.error.isSome then [.stop] else []

namespace StreamAccumulator

variable (d : Decoders)

/-- What an event is, whatever was read before. -/
inductive Reading
  | passed
  | choice (choice : Choice) (texts : Bytes × Bytes × Bytes × Bytes)
  /-- the end of the stream, or an event that is refused -/
  | ends

def reading (ev : SSEEvent) : Reading :=
  let data := trimSpace ev.data
  if data = [] then .passed
  else if data = ascii "[DONE]" then .ends
  else match d.chunk data with
    | .error _ => .ends
    | .ok chunk =>
      match chunk.error, d.validateProviderJSON data, chunk.choices with
      | none, none, [] => .passed
      | none, none, [choice] =>
        if choice.index ≠ 0 then .ends
        else match deltaTexts choice.delta with
          | .ok texts => .choice choice texts
          | .error _ => .ends
      | _, _, _ => .ends

/-- What the deltas and finish reasons of an event are. -/
def eventSteps (ev : SSEEvent) : List ToolStep :=
  match reading d ev with
  | .choice choice _ => choice.steps
  | _ => []

def eventEnds (ev : SSEEvent) : Bool :=
  match reading d ev with
  | .passed => false
  | .choice choice _ => choice.fails
  | .ends => true

/-- The blocks that an event opens for the tool call with this index. -/
def eventBlocks (index : Int) (a : StreamAccumulator) (ev : SSEEvent) : List Int :=
  match reading d ev with
  | .choice choice texts => (a.finishing choice).deltaBlocks index a.out choice.delta texts
  | _ => []

/-- The blocks that the events of a stream open for the tool call with this index. -/
def streamBlocks (index : Int) : StreamAccumulator → List SSEEvent → List Int
  | _, [] => []
  | a, ev :: events =>
    eventBlocks d index a ev ++
      match onEvent d a ev with
      | (_, some _) => []
      | (a, none) => streamBlocks index a events

/-- What handling an event can do: nothing happens to the choice and the output, or a choice is handled,
or the stream ends, where the open blocks may be stopped. -/
theorem handle_cases (a : StreamAccumulator) (ev : SSEEvent) :
    (∃ b : StreamAccumulator, (b.choice = a.choice ∧ b.out = a.out ∧ b.completed = a.completed ∧
        b.streamErr = a.streamErr) ∧
      (reading d ev = .passed ∧ handle d a ev = (b, none) ∨
        ∃ choice texts, reading d ev = .choice choice texts ∧ deltaTexts choice.delta = .ok texts ∧
          handle d a ev = handleChoice d b choice)) ∨
    reading d ev = .ends ∧ ∃ b : StreamAccumulator, b.out = a.out ∧
      (b.choice.getD {}).text = (a.choice.getD {}).text ∧
      (b.choice.getD {}).toolCalls = (a.choice.getD {}).toolCalls ∧
      (handle d a ev = (b.closeOpenBlocks, none) ∧ (b.completed || b.streamErr.isSome) = true ∨
        ∃ err, handle d a ev = (b, some err)) := by
  unfold handle reading
  extract_lets data
  by_cases hdata : data = []
  · rw [if_pos hdata, if_pos hdata]
    exact .inl ⟨a, ⟨rfl, rfl, rfl, rfl⟩, .inl ⟨rfl, rfl⟩⟩
  by_cases hdone : data = ascii "[DONE]"
  · rw [if_neg hdata, if_neg hdata, if_pos hdone, if_pos hdone]
    exact .inr ⟨rfl, { a with completed := true }, rfl, rfl, rfl, .inl ⟨rfl, rfl⟩⟩
  rw [if_neg hdata, if_neg hdata, if_neg hdone, if_neg hdone]
  cases d.chunk data with
  | error err => exact .inr ⟨rfl, a, rfl, rfl, rfl, .inr ⟨_, rfl⟩⟩
  | ok chunk =>
    have hnoted : (a.noting chunk).choice = a.choice ∧ (a.noting chunk).out = a.out ∧
        (a.noting chunk).completed = a.completed ∧ (a.noting chunk).streamErr = a.streamErr :=
      ⟨rfl, rfl, rfl, rfl⟩
    obtain ⟨id, model, provider, choices, usage, error⟩ := chunk
    cases error with
    | some err =>
      exact .inr ⟨rfl, { a.noting _ with streamErr := some (d.chunkError err) }, rfl, rfl, rfl,
        .inl ⟨rfl, Bool.or_true _⟩⟩
    | none =>
      cases d.validateProviderJSON data with
      | some err => exact .inr ⟨by cases choices <;> rfl, a.noting _, rfl, rfl, rfl, .inr ⟨_, rfl⟩⟩
      | none =>
        match choices with
        | [] => exact .inl ⟨a.noting _, hnoted, .inl ⟨rfl, rfl⟩⟩
        | first :: second :: rest => exact .inr ⟨rfl, a.noting _, rfl, rfl, rfl, .inr ⟨_, rfl⟩⟩
        | [choice] =>
          dsimp only
          by_cases hidx : choice.index = 0
          · rw [if_neg (not_not.mpr hidx), if_neg (not_not.mpr hidx)]
            cases htexts : deltaTexts choice.delta with
            | ok texts => exact .inl ⟨a.noting _, hnoted, .inr ⟨choice, texts, rfl, htexts, rfl⟩⟩
            | error err =>
              have hfailed : ∀ b, handleChoice d b choice =
                  ({ b with choice := some (b.finishing choice) }, some err) :=
                fun b => by rw [handleChoice, htexts]
              refine .inr ⟨rfl, _, ?_, ?_, ?_, .inr ⟨err, hfailed _⟩⟩ <;> rfl
          · rw [if_pos hidx, if_pos hidx]
            refine .inr ⟨rfl, _, ?_, ?_, ?_, .inr ⟨_, rfl⟩⟩ <;> rfl

end StreamAccumulator

/-! ## One tool call -/

namespace ChoiceState

structure Flushed (tool : ToolCallState) (emitted : Bytes) (blocks : List Int) : Prop where
  waiting : blocks = [] → emitted = [] ∧ tool.pending = tool.arguments
  named : blocks ≠ [] → tool.id ≠ [] ∧ tool.name ≠ []
  /-- Every block but the first emits the buffer once more. -/
  length : blocks ≠ [] → emitted.length =
    tool.arguments.length + (blocks.length - 1) * tool.pending.length
  once : blocks ≠ [] → blocks.length = 1 ∨ tool.pending = [] → emitted = tool.arguments
  opened : tool.blockOpen = true → tool.blockIndex ∈ blocks

theorem flushed_new : Flushed {} [] [] := ⟨by simp, by simp, by simp, by simp, by simp⟩

section
variable {tool : ToolCallState} {emitted : Bytes} {blocks : List Int}

variable (h : Flushed tool emitted blocks)
include h

theorem Flushed.naming (delta : ToolCallDelta) :
    Flushed (ToolCallDelta.named delta tool) emitted blocks := by
  refine ⟨h.waiting, fun hblks => ?_, h.length, h.once, h.opened⟩
  obtain ⟨hid, hname⟩ := h.named hblks
  unfold ToolCallDelta.named
  dsimp only
  constructor <;> split <;> assumption

theorem Flushed.close : Flushed { tool with blockOpen := false } emitted blocks :=
  ⟨h.waiting, h.named, h.length, h.once, by simp⟩

theorem Flushed.delta (hopen : tool.blockOpen = true) (arguments : Bytes) :
    Flushed { tool with arguments := tool.arguments ++ arguments } (emitted ++ arguments) blocks := by
  have hne : blocks ≠ [] := ne_nil_of_mem (h.opened hopen)
  refine ⟨fun hnil => absurd hnil hne, h.named, fun _ => ?_, fun _ honce => ?_, h.opened⟩
  · have := h.length hne
    simp only [length_append]
    omega
  · rw [h.once hne honce]

/-- Arguments that are buffered, since the call has no id or no name yet. -/
theorem Flushed.wait (hanonymous : tool.id = [] ∨ tool.name = []) (arguments : Bytes) :
    Flushed { tool with
      arguments := tool.arguments ++ arguments, pending := tool.pending ++ arguments } emitted
      blocks := by
  have hnil : blocks = [] := by
    by_contra hne
    obtain ⟨hid, hname⟩ := h.named hne
    exact hanonymous.elim hid hname
  obtain ⟨hemit, hpend⟩ := h.waiting hnil
  refine ⟨fun _ => ⟨hemit, by rw [hpend]⟩, fun hne => absurd hnil hne,
    fun hne => absurd hnil hne, fun hne => absurd hnil hne, h.opened⟩

theorem Flushed.start (hid : tool.id ≠ []) (hname : tool.name ≠ []) (index : Int) (arguments : Bytes) :
    Flushed { tool with
      arguments := tool.arguments ++ arguments, blockIndex := index, blockOpen := true }
      (emitted ++ tool.pending ++ arguments) (blocks ++ [index]) := by
  refine ⟨by simp, fun _ => ⟨hid, hname⟩, fun _ => ?_, fun _ honce => ?_, by simp⟩
  · simp only [length_append, length_singleton, Nat.add_sub_cancel]
    by_cases hnil : blocks = []
    · obtain ⟨hemit, hpend⟩ := h.waiting hnil
      simp [hnil, hemit, hpend]
    · have hlen := h.length hnil
      have hcnt : blocks.length = (blocks.length - 1) + 1 := by
        have := length_pos_of_ne_nil hnil
        omega
      rw [hcnt, Nat.add_mul, hlen]
      omega
  · by_cases hnil : blocks = []
    · obtain ⟨hemit, hpend⟩ := h.waiting hnil
      rw [hemit, hpend, nil_append]
    · have hpend : tool.pending = [] := by
        rcases honce with hone | hpend
        · rw [length_append, length_singleton] at hone
          exact absurd (eq_nil_of_length_eq_zero (by omega)) hnil
        · exact hpend
      rw [hpend, append_nil, h.once hnil (.inr hpend)]

/-- The arguments were emitted exactly once if and only if the buffer is empty or there was one block. -/
theorem Flushed.emitted_iff (hne : blocks ≠ []) :
    emitted = tool.arguments ↔ tool.pending = [] ∨ blocks.length ≤ 1 := by
  have hpos := length_pos_of_ne_nil hne
  constructor
  · intro hemit
    have hlen := h.length hne
    rw [hemit] at hlen
    have hzero : (blocks.length - 1) * tool.pending.length = 0 := by omega
    rcases Nat.mul_eq_zero.mp hzero with hone | hpend
    · exact .inr (by omega)
    · exact .inl (eq_nil_of_length_eq_zero hpend)
  · rintro (hpend | hone)
    · exact h.once hne (.inr hpend)
    · exact h.once hne (.inl (by omega))

end

/-- What the deltas and finish reasons so far say about a tool call. -/
structure Traced (index : Int) (steps : List ToolStep) (tool : ToolCallState) (blocks : List Int) :
    Prop where
  id : tool.id ≠ [] ↔ Given (·.id) index steps
  name : tool.name ≠ [] ↔ Given (·.name) index steps
  started : blocks ≠ [] ↔ Identified index steps
  buffered : tool.pending ≠ [] ↔ Buffers index steps
  stopped : Stopped index steps ↔ blocks ≠ [] ∧ (tool.blockOpen = false ∨ 1 < blocks.length)
  reopened : Reopens index steps ↔ 1 < blocks.length

theorem traced_new (index : Int) : Traced index [] {} [] := by
  constructor <;> simp [Identified, Given, Buffers, Stopped, Reopens, Sometime]

section
variable {index : Int} {steps : List ToolStep} {tool : ToolCallState} {blocks : List Int}

theorem Traced.stop (h : Traced index steps tool blocks) :
    Traced index (steps ++ [.stop]) { tool with blockOpen := false } blocks := by
  refine ⟨by simpa [given_concat] using h.id, by simpa [given_concat] using h.name,
    by simpa [Identified, given_concat] using h.started, ?_, ?_, ?_⟩
  · simpa [Buffers, sometime_concat] using h.buffered
  · have hstarted := h.started
    have hstopped := h.stopped
    simp only [Stopped, sometime_concat, true_and, true_or, and_true] at hstopped ⊢
    tauto
  · simpa [Reopens, sometime_concat] using h.reopened

theorem Traced.other (h : Traced index steps tool blocks) {delta : ToolCallDelta}
    (hother : delta.index ≠ index) : Traced index (steps ++ [.delta delta]) tool blocks := by
  refine ⟨by simpa [given_concat, hother] using h.id, by simpa [given_concat, hother] using h.name,
    by simpa [Identified, given_concat, hother] using h.started, ?_, ?_, ?_⟩
  · simpa [Buffers, sometime_concat, hother] using h.buffered
  · simpa [Stopped, sometime_concat] using h.stopped
  · simpa [Reopens, sometime_concat, hother] using h.reopened

/-- A delta of the call itself. -/
theorem Traced.write {delta : ToolCallDelta} {tool' : ToolCallState} {blocks' : List Int}
    (h : Traced delta.index steps tool blocks) (hid : tool'.id = (ToolCallDelta.named delta tool).id)
    (hname : tool'.name = (ToolCallDelta.named delta tool).name)
    (hstarted : blocks' ≠ [] ↔ tool'.id ≠ [] ∧ tool'.name ≠ [])
    (hpending : tool'.pending ≠ [] ↔
      tool.pending ≠ [] ∨ delta.arguments ≠ [] ∧ ¬ (tool'.id ≠ [] ∧ tool'.name ≠ []))
    (hstopped : blocks' ≠ [] ∧ (tool'.blockOpen = false ∨ 1 < blocks'.length) ↔
      blocks ≠ [] ∧ (tool.blockOpen = false ∨ 1 < blocks.length))
    (hreopened : 1 < blocks'.length ↔ blocks ≠ [] ∧ (tool.blockOpen = false ∨ 1 < blocks.length)) :
    Traced delta.index (steps ++ [.delta delta]) tool' blocks' := by
  have hid' : tool'.id ≠ [] ↔ Given (·.id) delta.index (steps ++ [.delta delta]) := by
    rw [given_concat, ← h.id, hid, ToolCallDelta.named]
    grind
  have hname' : tool'.name ≠ [] ↔ Given (·.name) delta.index (steps ++ [.delta delta]) := by
    rw [given_concat, ← h.name, hname, ToolCallDelta.named]
    grind
  have hidentified : Identified delta.index (steps ++ [.delta delta]) ↔
      tool'.id ≠ [] ∧ tool'.name ≠ [] := by rw [Identified, hid', hname']
  refine ⟨hid', hname', hstarted.trans hidentified.symm, ?_, ?_, ?_⟩
  · rw [hpending, h.buffered, Buffers, sometime_concat]
    simp [hidentified]
  · rw [hstopped, ← h.stopped, Stopped, sometime_concat]
    simp
  · have hstop : Reopens delta.index steps → Stopped delta.index steps := fun hre =>
      have hlen := h.reopened.mp hre
      h.stopped.mpr ⟨ne_nil_of_length_pos (by omega), .inr hlen⟩
    rw [hreopened, ← h.stopped, Reopens, sometime_concat, ← Reopens]
    simpa using hstop

end

/-! ## A choice -/

def toolCall (s : ChoiceState) (index : Int) : ToolCallState := (s.toolCalls.lookup index).getD {}

theorem lookup_setEntry {κ ν : Type} [DecidableEq κ] (key other : κ) (value : ν)
    (entries : List (κ × ν)) :
    (setEntry key value entries).lookup other =
      if other = key then some value else entries.lookup other := by
  have hcons : ∀ k v (rest : List (κ × ν)), lookup other ((k, v) :: rest) =
      if other = k then some v else lookup other rest := by
    intro k v rest
    by_cases h : other = k
    · simp [h]
    · simp [lookup_cons, h, beq_false_of_ne h]
  induction entries with
  | nil => exact hcons key value []
  | cons entry entries ih =>
    obtain ⟨k, v⟩ := entry
    rw [setEntry, hcons]
    split <;> grind

theorem toolCall_setEntry (s : ChoiceState) (key index : Int) (tool : ToolCallState) :
    ({ s with toolCalls := setEntry key tool s.toolCalls } : ChoiceState).toolCall index =
      if index = key then tool else s.toolCall index := by
  unfold toolCall
  rw [lookup_setEntry]
  split <;> rfl

theorem lookup_closed (index : Int) : ∀ calls : List (Int × ToolCallState),
    (calls.map fun (i, tool) => (i, { tool with blockOpen := false })).lookup index =
      (calls.lookup index).map fun tool => { tool with blockOpen := false }
  | [] => rfl
  | (i, tool) :: calls => by
    rw [map_cons, lookup_cons, lookup_cons, lookup_closed index calls]
    split <;> rfl

theorem toolCall_closeOpenBlocks (s : ChoiceState) (out : Output) (index : Int) :
    (s.closeOpenBlocks out).1.toolCall index = { s.toolCall index with blockOpen := false } := by
  unfold toolCall closeOpenBlocks
  rw [lookup_closed]
  cases s.toolCalls.lookup index <;> rfl

/-- The text and the arguments that were emitted, for the blocks of every tool call. -/
structure Agreed (s : ChoiceState) (out : Output) (blocks : Int → List Int) (steps : List ToolStep) :
    Prop where
  text : out.sink.deltas .textDelta (fun _ => true) = s.text
  /-- Arguments go to blocks that were opened. -/
  below : ∀ p q : Int → Bool, (∀ b < out.nextBlockIndex, p b = q b) →
    out.sink.deltas .toolArgsDelta p = out.sink.deltas .toolArgsDelta q
  given : ∀ index, ∀ b ∈ blocks index, b < out.nextBlockIndex
  own : ∀ index other b, b ∈ blocks index → b ∈ blocks other → index = other
  flushed : ∀ index, Flushed (s.toolCall index)
    (out.sink.deltas .toolArgsDelta fun b => blocks index |>.contains b) (blocks index)
  traced : ∀ index, Traced index steps (s.toolCall index) (blocks index)

theorem agreed_new : Agreed {} {} (fun _ => []) [] where
  text := rfl
  below _ _ _ := rfl
  given := by simp
  own := by simp
  flushed _ := flushed_new
  traced := traced_new

section
variable {s s' : ChoiceState} {out out' : Output} {blocks : Int → List Int} {steps : List ToolStep}

variable (h : Agreed s out blocks steps)
include h

/-- A step that keeps the tool calls and emits no arguments. -/
theorem Agreed.frame (htools : s'.toolCalls = s.toolCalls)
    (htext : out'.sink.deltas .textDelta (fun _ => true) = s'.text)
    (hargs : ∀ p, out'.sink.deltas .toolArgsDelta p = out.sink.deltas .toolArgsDelta p)
    (hnext : out.nextBlockIndex ≤ out'.nextBlockIndex) : Agreed s' out' blocks steps where
  text := htext
  below p q hpq := by
    rw [hargs, hargs]
    exact h.below p q fun b hb => hpq b (by omega)
  given index b hb := Int.lt_of_lt_of_le (h.given index b hb) hnext
  own := h.own
  flushed index := by
    rw [hargs, toolCall, htools]
    exact h.flushed index
  traced index := by
    rw [toolCall, htools]
    exact h.traced index

theorem appendText_agreed (text : Bytes) :
    Agreed (s.appendText out text).1 (s.appendText out text).2 blocks steps := by
  unfold appendText
  split <;> refine h.frame rfl ?_ (fun p => ?_) (by dsimp only; omega) <;>
    simp [Sink.textDelta, Sink.deltas_delta, h.text]

theorem appendReasoning_agreed (text : Bytes) :
    Agreed (s.appendReasoning out text).1 (s.appendReasoning out text).2 blocks steps := by
  unfold appendReasoning
  split <;> refine h.frame rfl ?_ (fun p => ?_) (by dsimp only; omega) <;>
    simp [Sink.thinkingDelta, Sink.deltas_delta, h.text]

theorem closeOpenBlocks_agreed :
    Agreed (s.closeOpenBlocks out).1 (s.closeOpenBlocks out).2 blocks (steps ++ [.stop]) := by
  have hargs : ∀ kind p, (s.closeOpenBlocks out).2.sink.deltas kind p = out.sink.deltas kind p :=
    fun kind p => Sink.deltas_blockStops kind p _ _
  refine ⟨(hargs _ _).trans h.text, fun p q hpq => ?_, h.given, h.own, fun index => ?_,
    fun index => ?_⟩
  · rw [hargs, hargs]
    exact h.below p q hpq
  · rw [hargs, toolCall_closeOpenBlocks]
    exact (h.flushed index).close
  · rw [toolCall_closeOpenBlocks]
    exact (h.traced index).stop

/-- A delta of a tool call, which is given the block `out.nextBlockIndex` if that moves; what it emits goes
to a block of the call. -/
theorem Agreed.write {delta : ToolCallDelta} {tool : ToolCallState} {opened : List Int} (block : Int)
    (written : Bytes) (hnext : out.nextBlockIndex ≤ out'.nextBlockIndex)
    (hopened : ∀ b ∈ opened, b = out.nextBlockIndex ∧ b < out'.nextBlockIndex)
    (hblk : written = [] ∨ block ∈ blocks delta.index ++ opened)
    (htext : out'.sink.deltas .textDelta (fun _ => true) = s.text)
    (hargs : ∀ p, out'.sink.deltas .toolArgsDelta p =
      out.sink.deltas .toolArgsDelta p ++ if p block then written else [])
    (htool : ∀ emitted, Flushed (s.toolCall delta.index) emitted (blocks delta.index) →
      Flushed tool (emitted ++ written) (blocks delta.index ++ opened))
    (htraced : Traced delta.index (steps ++ [.delta delta]) tool (blocks delta.index ++ opened)) :
    Agreed { s with toolCalls := setEntry delta.index tool s.toolCalls } out'
      (fun index => blocks index ++ if delta.index = index then opened else [])
      (steps ++ [.delta delta]) := by
  set key := delta.index with hkeyed
  have hmem : ∀ {index b}, b ∈ (blocks index ++ if key = index then opened else []) →
      b ∈ blocks index ∧ b < out.nextBlockIndex ∨ b = out.nextBlockIndex ∧ b ∈ opened ∧ key = index := by
    intro index b hb
    rcases mem_append.mp hb with hb | hb
    · exact .inl ⟨hb, h.given index b hb⟩
    · split at hb
      · exact .inr ⟨(hopened b hb).1, hb, ‹_›⟩
      · cases hb
  have hgiven : ∀ index, ∀ b ∈ (blocks index ++ if key = index then opened else []),
      b < out'.nextBlockIndex := by
    intro index b hb
    rcases hmem hb with ⟨-, hlt⟩ | ⟨-, hb, -⟩
    · omega
    · exact (hopened b hb).2
  refine ⟨htext, fun p q hpq => ?_, hgiven, fun index other b hidx hoth => ?_, fun index => ?_,
    fun index => ?_⟩
  · rw [hargs, hargs, h.below p q fun b hb => hpq b (by omega)]
    rcases hblk with rfl | hblk
    · simp
    · rw [hpq block (hgiven key block (by simpa using hblk))]
  · rcases hmem hidx with ⟨hb, hlt⟩ | ⟨hb, -, rfl⟩
    · rcases hmem hoth with ⟨hb', -⟩ | ⟨hb', -⟩
      · exact h.own index other b hb hb'
      · omega
    · rcases hmem hoth with ⟨-, hlt⟩ | ⟨-, -, rfl⟩
      · omega
      · rfl
  · rw [toolCall_setEntry, hargs]
    by_cases hkey : key = index
    · subst hkey
      have hold : (out.sink.deltas .toolArgsDelta fun b => (blocks key ++ opened).contains b) =
          out.sink.deltas .toolArgsDelta fun b => (blocks key).contains b := by
        refine h.below _ _ fun b hb => ?_
        have hnot : b ∉ opened := fun hb' => by have := (hopened b hb').1; omega
        simp [hnot]
      have hwr : (if (blocks key ++ opened).contains block then written else []) = written := by
        rcases hblk with rfl | hblk
        · simp
        · rw [if_pos (contains_iff_mem.mpr hblk)]
      simp only [if_true, hold, hwr]
      exact htool _ (h.flushed key)
    · have hoth : written = [] ∨ block ∉ blocks index := by
        refine hblk.imp id fun hblk hin => ?_
        rcases mem_append.mp hblk with hb | hb
        · exact hkey (h.own key index block hb hin)
        · have hlt := h.given index block hin
          have := (hopened block hb).1
          omega
      have hnone : (if (blocks index).contains block then written else []) = [] := by
        rcases hoth with rfl | hoth <;> simp [*]
      simp only [if_neg hkey, if_neg (Ne.symm hkey), append_nil, hnone]
      exact h.flushed index
  · rw [toolCall_setEntry]
    by_cases hkey : key = index
    · subst hkey
      simpa using htraced
    · rw [if_neg hkey, if_neg (Ne.symm hkey), append_nil]
      exact (h.traced index).other hkey

theorem applyToolDelta_agreed (delta : ToolCallDelta) :
    Agreed (s.applyToolDelta out delta).1 (s.applyToolDelta out delta).2
      (fun index => blocks index ++ if delta.index = index ∧
        out.nextBlockIndex < (s.applyToolDelta out delta).2.nextBlockIndex then [out.nextBlockIndex]
        else [])
      (steps ++ [.delta delta]) := by
  have hcall : (s.toolCalls.lookup delta.index).getD {} = s.toolCall delta.index := rfl
  have hflushed := (h.flushed delta.index).naming delta
  have htraced := h.traced delta.index
  simp only [ite_and]
  unfold applyToolDelta
  rw [hcall]
  extract_lets tool arguments grown waiting index opened sink sink'
  have hkept : tool.pending = (s.toolCall delta.index).pending ∧
      tool.blockOpen = (s.toolCall delta.index).blockOpen := ⟨rfl, rfl⟩
  split
  · rename_i hopen
    have hblk : tool.blockIndex ∈ blocks delta.index := hflushed.opened hopen
    have hne : blocks delta.index ≠ [] := ne_nil_of_mem hblk
    obtain ⟨hid, hname⟩ : tool.id ≠ [] ∧ tool.name ≠ [] := hflushed.named hne
    refine h.write tool.blockIndex arguments (Int.le_refl _) (by simp) (.inr (by simpa using hblk))
      ?_ (fun p => ?_) (fun emitted hf => ?_) ?_
    · simp [Sink.toolArgsDelta, Sink.deltas_delta, h.text]
    · simp [Sink.toolArgsDelta, Sink.deltas_delta]
    · simpa using (hf.naming delta).delta hopen arguments
    · refine htraced.write rfl rfl ?_ ?_ ?_ ?_ <;> simp [grown, ← hkept, hne, hid, hname, hopen]
  rename_i hclosed
  split
  · rename_i hanonymous
    refine h.write 0 [] (Int.le_refl _) (by simp) (.inl rfl) h.text (by simp) (fun emitted hf => ?_) ?_
    · simpa using (hf.naming delta).wait hanonymous arguments
    · have hnil : blocks delta.index = [] := by
        by_contra hne
        obtain ⟨hid, hname⟩ := hflushed.named hne
        exact hanonymous.elim hid hname
      refine htraced.write rfl rfl ?_ ?_ ?_ ?_ <;>
        simp [waiting, grown, arguments, ← hkept, hnil, hanonymous, imp_iff_not_or]
  · rename_i hnamed
    obtain ⟨hid, hname⟩ := not_or.mp hnamed
    have hlt : out.nextBlockIndex < index + 1 := Int.lt_succ _
    refine h.write out.nextBlockIndex (tool.pending ++ arguments) (Int.le_of_lt hlt) (by simp)
      (.inr (by simp [hlt])) ?_ (fun p => ?_) (fun emitted hf => ?_) ?_
    · simp [sink', sink, Sink.toolArgsDelta, Sink.deltas_delta, h.text]
    · simp [sink', sink, index, Sink.toolArgsDelta, Sink.deltas_delta]
      split <;> simp
    · rw [← append_assoc, if_pos hlt]
      exact (hf.naming delta).start hid hname out.nextBlockIndex arguments
    · refine htraced.write rfl rfl ?_ ?_ ?_ ?_ <;>
        simp [opened, grown, ← hkept, hid, hname, hlt, hclosed, length_pos_iff]

end

theorem applyToolDeltas_agreed : ∀ (deltas : List ToolCallDelta) {s : ChoiceState} {out : Output}
    {blocks : Int → List Int} {steps : List ToolStep}, Agreed s out blocks steps →
      Agreed (s.applyToolDeltas out deltas).1 (s.applyToolDeltas out deltas).2
        (fun index => blocks index ++ openedBlocks index s out deltas) (steps ++ deltas.map .delta)
  | [], s, out, blocks, steps, h => by simpa [applyToolDeltas, openedBlocks] using h
  | delta :: deltas, s, out, blocks, steps, h => by
    have hrest := applyToolDeltas_agreed deltas (applyToolDelta_agreed h delta)
    simp only [append_assoc] at hrest
    exact hrest

section
variable {s : ChoiceState} {out : Output} {blocks : Int → List Int} {steps : List ToolStep}
  (h : Agreed s out blocks steps)
include h

theorem Agreed.congr {s' : ChoiceState} (htext : s'.text = s.text)
    (htools : s'.toolCalls = s.toolCalls) : Agreed s' out blocks steps :=
  h.frame htools (h.text.trans htext.symm) (fun _ => rfl) (Int.le_refl _)

omit h in
theorem agreed_kept : Kept fun s out => Agreed s out blocks steps :=
  ⟨fun h htext htools _ => h.congr htext htools, appendText_agreed, appendReasoning_agreed⟩

theorem applyDelta_agreed (delta : Delta) (texts : Bytes × Bytes × Bytes × Bytes) :
    Agreed (s.applyDelta out delta texts).1 (s.applyDelta out delta texts).2
      (fun index => blocks index ++ deltaBlocks index s out delta texts)
      (steps ++ delta.toolCalls.map .delta) :=
  applyToolDeltas_agreed delta.toolCalls (agreed_kept.applyContent h delta texts)

end

end ChoiceState

/-! ## The stream -/

open ChoiceState (Agreed)

namespace StreamAccumulator

variable {d : Decoders}

def StreamAgreed (a : StreamAccumulator) (blocks : Int → List Int) (steps : List ToolStep) : Prop :=
  Agreed (a.choice.getD {}) a.out blocks steps

variable {a b : StreamAccumulator} {blocks : Int → List Int} {steps : List ToolStep}

theorem StreamAgreed.congr (h : StreamAgreed a blocks steps) (hout : b.out = a.out)
    (htext : (b.choice.getD {}).text = (a.choice.getD {}).text)
    (htools : (b.choice.getD {}).toolCalls = (a.choice.getD {}).toolCalls) :
    StreamAgreed b blocks steps := by
  unfold StreamAgreed
  rw [hout]
  exact Agreed.congr h htext htools

/-- After the end of the stream, blocks may have been stopped once more. -/
def EndAgreed (a : StreamAccumulator) (blocks : Int → List Int) (steps : List ToolStep) : Prop :=
  ∃ n, StreamAgreed a blocks (steps ++ replicate n .stop)

theorem StreamAgreed.ended (h : StreamAgreed a blocks steps) : EndAgreed a blocks steps :=
  ⟨0, by simpa using h⟩

theorem EndAgreed.closeOpenBlocks (h : EndAgreed a blocks steps) :
    EndAgreed a.closeOpenBlocks blocks steps := by
  obtain ⟨n, h⟩ := h
  unfold StreamAccumulator.closeOpenBlocks
  cases hchoice : a.choice with
  | none => exact ⟨n, h⟩
  | some s =>
    rw [StreamAgreed, hchoice] at h
    refine ⟨n + 1, ?_⟩
    rw [replicate_succ', ← append_assoc]
    exact ChoiceState.closeOpenBlocks_agreed h

theorem handleChoice_agreed (h : StreamAgreed a blocks steps) {choice : Choice}
    {texts : Bytes × Bytes × Bytes × Bytes} (htexts : deltaTexts choice.delta = .ok texts) :
    ∃ b, handleChoice d a choice = (b, none) ∧
      StreamAgreed b
        (fun index => blocks index ++ (a.finishing choice).deltaBlocks index a.out choice.delta texts)
        (steps ++ choice.steps) ∧
      b.completed = a.completed ∧ b.streamErr = if choice.fails then some (d.choiceError choice)
        else a.streamErr := by
  have h' : Agreed (a.finishing choice) a.out blocks steps := Agreed.congr h rfl rfl
  have hdel := ChoiceState.applyDelta_agreed h' choice.delta texts
  have hclosed := ChoiceState.closeOpenBlocks_agreed hdel
  rw [append_assoc] at hclosed
  unfold handleChoice Choice.steps
  rw [htexts]
  dsimp only
  by_cases hfails : choice.fails
  · have hstop : choice.finishReason ≠ [] ∨ choice.error.isSome := by
      rcases Bool.or_eq_true .. ▸ hfails with herr | herr
      · exact .inr herr
      · exact .inl fun hnil => by simp [hnil, equalFoldError, ascii] at herr
    rw [if_pos hfails, if_pos hfails, if_pos hstop]
    exact ⟨_, rfl, hclosed, rfl, rfl⟩
  · have herr : ¬ choice.error.isSome := fun herr => hfails (by simp [Choice.fails, herr])
    rw [if_neg hfails, if_neg hfails]
    by_cases hreason : choice.finishReason ≠ []
    · rw [if_pos hreason, if_pos (Or.inl hreason)]
      exact ⟨_, rfl, hclosed, rfl, rfl⟩
    · rw [if_neg hreason, if_neg (not_or.mpr ⟨hreason, herr⟩), append_nil]
      exact ⟨_, rfl, hdel, rfl, rfl⟩

/-- The stream has not ended yet. -/
def Live (a : StreamAccumulator) : Prop := a.completed = false ∧ a.streamErr = none

/-- Whether an event ends the stream is up to the event alone. -/
theorem onEvent_agreed (h : StreamAgreed a blocks steps) (hlive : a.Live) (ev : SSEEvent) :
    (eventEnds d ev = false ∧ ∃ b, onEvent d a ev = (b, none) ∧ b.Live ∧
      StreamAgreed b (fun index => blocks index ++ eventBlocks d index a ev) (steps ++ eventSteps d ev)) ∨
    eventEnds d ev = true ∧ ∃ b err, onEvent d a ev = (b, some err) ∧
      EndAgreed b (fun index => blocks index ++ eventBlocks d index a ev) (steps ++ eventSteps d ev) := by
  unfold eventEnds eventBlocks eventSteps onEvent
  rcases handle_cases d a ev with ⟨b, ⟨hchoice, hout, hcompleted, herr⟩, ⟨hread, hhandle⟩ |
    ⟨choice, texts, hread, htexts, hhandle⟩⟩ | ⟨hread, b, hout, htext, htools, hhandle⟩
  · have hb : StreamAgreed b blocks steps := h.congr hout (by rw [hchoice]) (by rw [hchoice])
    rw [hread, hhandle]
    refine .inl ⟨rfl, b, ?_, ⟨hcompleted.trans hlive.1, herr.trans hlive.2⟩, by simpa using hb⟩
    simp [hcompleted, herr, hlive.1, hlive.2]
  · have hb : StreamAgreed b blocks steps := h.congr hout (by rw [hchoice]) (by rw [hchoice])
    have hfinishing : b.finishing choice = a.finishing choice := by
      unfold finishing
      rw [hchoice]
    obtain ⟨c, hc, hagreed, hcompleted', herr'⟩ := handleChoice_agreed (d := d) hb htexts
    rw [hfinishing, hout] at hagreed
    rw [hread, hhandle, hc]
    by_cases hfails : choice.fails
    · rw [if_pos hfails] at herr'
      exact .inr ⟨hfails, c, .terminal, by simp [herr'], hagreed.ended⟩
    · rw [if_neg hfails, herr, hlive.2] at herr'
      have hcompleted'' : c.completed = false := hcompleted'.trans (hcompleted.trans hlive.1)
      exact .inl ⟨by simpa using hfails, c, by simp [herr', hcompleted''], ⟨hcompleted'', herr'⟩, hagreed⟩
  · have hb : EndAgreed b blocks steps := (h.congr hout htext htools).ended
    rw [hread]
    rcases hhandle with ⟨hhandle, hended⟩ | ⟨err, hhandle⟩
    · have hkept : b.closeOpenBlocks.completed = b.completed ∧
          b.closeOpenBlocks.streamErr = b.streamErr := by
        unfold StreamAccumulator.closeOpenBlocks
        split <;> exact ⟨rfl, rfl⟩
      rw [hhandle]
      refine .inr ⟨rfl, _, .terminal, ?_, by simpa using hb.closeOpenBlocks⟩
      dsimp only
      rw [hkept.1, hkept.2, if_pos hended]
    · rw [hhandle]
      exact .inr ⟨rfl, b, .failed err, rfl, by simpa using hb⟩

end StreamAccumulator

/-- The deltas and finish reasons of a stream, up to its end. -/
def toolSteps (d : Decoders) : List SSEEvent → List ToolStep
  | [] => []
  | ev :: events => StreamAccumulator.eventSteps d ev ++
    if StreamAccumulator.eventEnds d ev then [] else toolSteps d events

namespace StreamAccumulator

variable {d : Decoders} {a : StreamAccumulator} {blocks : Int → List Int} {steps : List ToolStep}

theorem readSSEEvents_agreed (readErr : Option Bytes) : ∀ (events : List SSEEvent)
    {a : StreamAccumulator} {blocks : Int → List Int} {steps : List ToolStep},
      StreamAgreed a blocks steps → a.Live →
      EndAgreed (readSSEEvents (onEvent d) readErr a events).1
        (fun index => blocks index ++ streamBlocks d index a events) (steps ++ toolSteps d events)
  | [], a, blocks, steps, h, _ => by simpa [readSSEEvents, streamBlocks, toolSteps] using h.ended
  | ev :: events, a, blocks, steps, h, hlive => by
    unfold readSSEEvents streamBlocks toolSteps
    rcases onEvent_agreed (d := d) h hlive ev with ⟨hends, b, hon, hlive', hb⟩ | ⟨hends, b, err, hon, hb⟩
    · have hrest := readSSEEvents_agreed readErr events hb hlive'
      simp only [append_assoc] at hrest
      simp only [hon, hends, Bool.false_eq_true, if_false]
      exact hrest
    · simpa only [hon, hends, if_true, append_nil] using hb

/-- The end of a stream changes neither the choice, beyond stopping its blocks, nor what was emitted. -/
theorem finish_agreed (h : EndAgreed a blocks steps)
    (readErr : Option ReadError) : EndAgreed (a.finish d readErr) blocks steps := by
  obtain ⟨n, hcl⟩ := h.closeOpenBlocks
  have herror : ∀ message, EndAgreed (a.closeOpenBlocks.error message) blocks steps := fun message =>
    ⟨n, Agreed.frame hcl rfl (by simp [error, hcl.text]) (fun p => by simp [error]) (Int.le_refl _)⟩
  have hstop : ∀ reason usage, EndAgreed { a.closeOpenBlocks with
      out := { a.closeOpenBlocks.out with
        sink := a.closeOpenBlocks.out.sink.messageStop reason usage } } blocks steps :=
    fun reason usage => ⟨n, Agreed.frame hcl rfl (by simp [hcl.text]) (fun p => by simp) (Int.le_refl _)⟩
  unfold finish
  extract_lets b
  split
  · exact herror _
  split
  · exact herror _
  split
  · exact herror _
  split
  · exact herror _
  · exact hstop _ _

end StreamAccumulator

/-- The blocks that a stream opens for the tool call with this index. -/
def toolBlocks (d : Decoders) (events : List SSEEvent) (index : Int) : List Int :=
  StreamAccumulator.streamBlocks d index {} events

/-- What a reader puts together is what the message is assembled from: the text, and the arguments of
every tool call with a block. -/
def EmittedAsAssembled (s : ChoiceState) (sink : Sink) (blocks : Int → List Int) : Prop :=
  (∀ message, s.responseMessage = some message →
    textFromChatContent message.content = .ok (sink.deltas .textDelta fun _ => true)) ∧
  ∀ index, blocks index ≠ [] → ∃ tool, s.toolCalls.lookup index = some tool ∧
    sink.deltas .toolArgsDelta (blocks index).contains = (ChoiceState.toolCallMessage tool).arguments

theorem buffers_stops (index : Int) (steps : List ToolStep) (n : Nat) :
    Buffers index (steps ++ replicate n .stop) ↔ Buffers index steps := by
  induction n with
  | zero => simp
  | succ n ih => simpa [replicate_succ', ← append_assoc, Buffers, sometime_concat] using ih

theorem reopens_stops (index : Int) (steps : List ToolStep) (n : Nat) :
    Reopens index (steps ++ replicate n .stop) ↔ Reopens index steps := by
  induction n with
  | zero => simp
  | succ n ih => simpa [replicate_succ', ← append_assoc, Reopens, sometime_concat] using ih

/-- **What is emitted and what is assembled.** For every stream, the texts that were emitted are the
text of the message, and the arguments that were emitted in the blocks of a tool call are those of the
assembled call, if and only if no tool call gets arguments before both its id and its name are known and
also a delta after a finish reason that follows them. -/
theorem consumeStream_emittedAsAssembled_iff (d : Decoders) (events : List SSEEvent)
    (readErr : Option Bytes) :
    EmittedAsAssembled ((consumeStream d events readErr).choice.getD {})
        (consumeStream d events readErr).out.sink (toolBlocks d events) ↔
      ∀ index, ¬ (Buffers index (toolSteps d events) ∧ Reopens index (toolSteps d events)) := by
  have hread := StreamAccumulator.readSSEEvents_agreed (d := d) readErr events
    (show StreamAccumulator.StreamAgreed {} (fun _ => []) [] from ChoiceState.agreed_new) ⟨rfl, rfl⟩
  obtain ⟨n, h⟩ : StreamAccumulator.EndAgreed (consumeStream d events readErr) (toolBlocks d events)
      (toolSteps d events) := StreamAccumulator.finish_agreed hread _
  unfold StreamAccumulator.StreamAgreed at h
  generalize (consumeStream d events readErr).choice.getD {} = s at h ⊢
  generalize (consumeStream d events readErr).out = out at h ⊢
  have hcall : ∀ index, toolBlocks d events index ≠ [] →
      s.toolCalls.lookup index = some (s.toolCall index) := by
    intro index hne
    obtain ⟨hid, -⟩ := (h.flushed index).named hne
    unfold ChoiceState.toolCall at *
    cases hlookup : s.toolCalls.lookup index with
    | none =>
      rw [hlookup] at hid
      exact absurd rfl hid
    | some tool => rfl
  -- the condition on the chunks is the one on the buffer and the blocks
  have hsteps : ∀ index, ¬ (Buffers index (toolSteps d events) ∧ Reopens index (toolSteps d events)) ↔
      (s.toolCall index).pending = [] ∨ (toolBlocks d events index).length ≤ 1 := by
    intro index
    rw [← buffers_stops index _ n, ← reopens_stops index _ n, ← (h.traced index).buffered,
      (h.traced index).reopened, not_and_or, not_not, not_lt]
  simp only [hsteps]
  constructor
  · rintro ⟨-, hargs⟩ index
    by_cases hne : toolBlocks d events index = []
    · exact .inr (by simp [hne])
    · obtain ⟨tool, htool, hemitted⟩ := hargs index hne
      rw [hcall index hne] at htool
      cases htool
      exact ((h.flushed index).emitted_iff hne).mp hemitted
  · intro honce
    refine ⟨fun message hmessage => ?_, fun index hne => ?_⟩
    · rw [h.text]
      exact ChoiceState.responseMessage_text hmessage
    · exact ⟨_, hcall index hne, ((h.flushed index).emitted_iff hne).mpr (honce index)⟩

/-! ## A buffer that is emitted twice -/

def decodeToolCallDelta (members : Members) : Option ToolCallDelta := do
  let function ← structField members "function"
  return ⟨← intField members "index", ← stringField members "id", ← stringField members "type",
    ← stringField function "name", ← stringField function "arguments"⟩

def decodeToolChoice (members : Members) : Option Choice := do
  let delta ← structField members "delta"
  let calls ← structsField decodeToolCallDelta delta "tool_calls"
  return ⟨← intField members "index", ⟨← stringField delta "role", [], [], [], [], [], calls⟩,
    ← stringField members "finish_reason", [], none⟩

def decodeToolChunk (data : Bytes) : Option Chunk := do
  let members ← decode data >>= structMembers
  return ⟨← stringField members "id", ← stringField members "model", [],
    ← structsField decodeToolChoice members "choices", none, none⟩

/-- The reading of chunks that hold tool calls and finish reasons only. -/
def toolCallDecoders : Decoders where
  chunk data := (decodeToolChunk data).elim (.error []) .ok
  validateProviderJSON data := match validateProviderJSON data with
    | .error cause => some cause
    | .ok _ => none
  chunkError err := err
  choiceError _ := []
  outputTruncated _ _ := false
  usageChunkCompletesStream := false
  response _ := .ok (.toolUse, {})

/-- The arguments begin before the id and the name are known, and go on after the finish reason. -/
def reopeningEvents : List SSEEvent :=
  [r#"{"id":"c1","choices":[{"delta":{"tool_calls":[{"function":{"arguments":"{"}}]}}]}"#,
    r#"{"choices":[{"finish_reason":"tool_calls",
      "delta":{"tool_calls":[{"id":"call","function":{"name":"run"}}]}}]}"#,
    r#"{"choices":[{"delta":{"tool_calls":[{"function":{"arguments":"}"}}]}}]}"#,
    "[DONE]"].map fun data => ⟨[], ascii data⟩

/-- The stream is accepted; the call is assembled with the arguments `{}`, and `{{}` was emitted. -/
theorem reopening_emits_twice :
    ((consumeStream toolCallDecoders reopeningEvents none).out.sink.map (·.kind)).getLast? =
        some .messageStop ∧
      ¬ EmittedAsAssembled ((consumeStream toolCallDecoders reopeningEvents none).choice.getD {})
        (consumeStream toolCallDecoders reopeningEvents none).out.sink
        (toolBlocks toolCallDecoders reopeningEvents) := by
  obtain ⟨hkind, hblocks, hassembled, hdeltas⟩ :
      ((consumeStream toolCallDecoders reopeningEvents none).out.sink.map (·.kind)).getLast? =
        some .messageStop ∧
      toolBlocks toolCallDecoders reopeningEvents 0 = [0, 1] ∧
      (((consumeStream toolCallDecoders reopeningEvents none).choice.getD {}).toolCalls.lookup 0).map
        (·.arguments) = some (ascii r#"{}"#) ∧
      (consumeStream toolCallDecoders reopeningEvents none).out.sink.deltas .toolArgsDelta
        ([0, 1] : List Int).contains = ascii r#"{{}"# := by decide +kernel
  refine ⟨hkind, fun ⟨_, hargs⟩ => ?_⟩
  obtain ⟨tool, htool, hemitted⟩ := hargs 0 (by simp [hblocks])
  rw [htool, Option.map_some, Option.some.injEq] at hassembled
  rw [hblocks, hdeltas] at hemitted
  exact absurd (hemitted.trans hassembled) (by decide)

end OpenAIChatCompletions
