import Omnara.AnthropicMessages.Assemble
import Omnara.Kernel.Proof.StreamSink
import Omnara.Route.StreamProtocol

/-!
# The blocks of the public stream

The sink leaves out the start of a `tool_use` block without a provider id, and nothing else of that
block: its deltas and its stop are numbered. So the numbered events are bracketed exactly if no start is
left out (`sources_bracketed_iff`).

* `sourceEvent_cases`: when a start is left out, and what numbering an event does.
* `Numbered`: the numbered events are the emitted ones without the starts that are left out, kept by every
  step of the sink (`SinkRun.numbered`).
* A start that is left out is missing, because blocks start once, and its stop is there, because every
  block is stopped (`Numbered.bracketed_iff`).
-/

namespace Kernel

open Brackets (Act)
open Json (Bytes)
open Model List
open Text (trimSpace)

/-- What the producer emitted, each event with the id that was minted for it. -/
abbrev EmitLog := List (StreamEvent × Option Bytes)

/-- A run of a sink: the producer emits the events of the log, in any interleaving with the consumer. -/
inductive SinkRun : EmitLog → HarnessStreamSink → Prop
  | start : SinkRun [] {}
  | emit {log : EmitLog} {s : HarnessStreamSink} (event : StreamEvent) (minted : Option Bytes) :
      SinkRun log s → s.closed = false → SinkRun (log ++ [(event, minted)]) (s.emit event minted)
  | consume {log : EmitLog} {s t : HarnessStreamSink} : SinkRun log s → s.consume = some t → SinkRun log t
  | close {log : EmitLog} {s : HarnessStreamSink} : SinkRun log s → SinkRun log { s with closed := true }

/-- The provider id of the `tool_use` block an event starts, if it is not blank. -/
def startedTool (e : StreamEvent) : Option Bytes :=
  if e.kind = .blockStart then
    e.block.bind fun b =>
      if b.kind = .toolUse ∧ trimSpace b.toolCallId ≠ [] then some b.toolCallId else none
  else none

/-- The event is no start of a block, or one of a block that can be shown: text, thinking, or a tool call
whose provider id is not blank and for which there is a public id. -/
def Admits (known : Bytes → Prop) (e : StreamEvent) (minted : Option Bytes) : Prop :=
  e.kind = .blockStart → ∃ b, e.block = some b ∧
    (b.kind = .text ∨ b.kind = .thinking ∨
      b.kind = .toolUse ∧ trimSpace b.toolCallId ≠ [] ∧ (minted.isSome ∨ known b.toolCallId))

def MintedIn (log : EmitLog) (id : Bytes) : Prop :=
  ∃ x ∈ log, startedTool x.1 = some id ∧ x.2.isSome

def Identified (log : EmitLog) : Prop :=
  ∀ before e minted after, log = before ++ (e, minted) :: after → Admits (MintedIn before) e minted

/-- What the public stream promises: a delta or a stop belongs to a block that was started before, and a
block that was started is stopped, or the stream ends. -/
structure PublicBracketed (sources : List StreamEvent) : Prop where
  inside : ∀ before e after i, sources = before ++ e :: after → e.act = .delta i ∨ e.act = .stop i →
    ∃ b ∈ before, b.act = .start i
  stopped : ∀ before e after i, sources = before ++ e :: after → e.act = .start i →
    ∃ a ∈ after, a.act = .stop i ∨ a.act = .terminal

variable {log : EmitLog} {s t : HarnessStreamSink} {e : StreamEvent} {minted : Option Bytes}

/-! ## Numbering one event -/

def HarnessStreamSink.Knows (s : HarnessStreamSink) (id : Bytes) : Prop := (s.toolCalls.lookup id).isSome

theorem mintToolCallID_spec (s : HarnessStreamSink) (id : Bytes) (minted : Option Bytes) :
    (s.mintToolCallID id minted = none ∧ minted = none ∧ ¬ s.Knows id) ∨
      ∃ t publicId, s.mintToolCallID id minted = some (t, publicId) ∧ (minted.isSome ∨ s.Knows id) ∧
        t.sources = s.sources ∧ ∀ other, t.Knows other ↔ s.Knows other ∨ id = other ∧ minted.isSome := by
  unfold HarnessStreamSink.mintToolCallID HarnessStreamSink.Knows
  cases hlk : s.toolCalls.lookup id with
  | some publicId =>
    refine .inr ⟨s, publicId, rfl, .inr rfl, rfl, fun other => ⟨.inl, ?_⟩⟩
    rintro (h | ⟨rfl, -⟩)
    · exact h
    · rw [hlk]
      rfl
  | none =>
    cases minted with
    | none => exact .inl ⟨rfl, rfl, by simp⟩
    | some publicId =>
      refine .inr ⟨_, publicId, rfl, .inl rfl, rfl, fun other => ?_⟩
      rw [lookup_cons]
      by_cases hoth : other = id
      · subst hoth
        simp
      · have hne : (other == id) = false := by simpa using hoth
        simp [hne, Ne.symm hoth]

theorem sourceEvent_cases (s : HarnessStreamSink) (e : StreamEvent) (minted : Option Bytes) :
    (s.sourceEvent e minted = none ∧ ¬ Admits s.Knows e minted ∧ e.kind = .blockStart ∧
        (startedTool e ≠ none → minted = none)) ∨
      ∃ t e', s.sourceEvent e minted = some (t, e') ∧ Admits s.Knows e minted ∧ e'.act = e.act ∧
        t.sources = s.sources ∧
        ∀ id, t.Knows id ↔ s.Knows id ∨ startedTool e = some id ∧ minted.isSome := by
  unfold HarnessStreamSink.sourceEvent startedTool Admits
  by_cases hkind : e.kind = .blockStart
  · rw [if_neg (not_not.mpr hkind), if_pos hkind]
    cases hblk : e.block with
    | none => exact .inl ⟨rfl, by simp [hkind], hkind, by simp⟩
    | some b =>
      dsimp only
      cases hb : b.kind with
      | text | thinking => exact .inr ⟨_, _, rfl, by simp [hb], rfl, rfl, by simp [hb]⟩
      | other name => exact .inl ⟨rfl, by simp [hkind, hb], hkind, by simp [hb]⟩
      | toolUse =>
        by_cases hbl : trimSpace b.toolCallId = []
        · rw [if_pos hbl]
          exact .inl ⟨rfl, by simp [hkind, hb, hbl], hkind, by simp [hb, hbl]⟩
        · rw [if_neg hbl]
          rcases mintToolCallID_spec s b.toolCallId minted with
            ⟨hmint, hminted, hknows⟩ | ⟨t, publicId, hmint, hid, ht, hall⟩
          · rw [hmint]
            exact .inl ⟨rfl, by simp [hkind, hb, hminted, hknows], hkind, fun _ => hminted⟩
          · rw [hmint]
            exact .inr ⟨t, _, rfl, by simp [hb, hbl, hid], rfl, ht, by simpa [hb, hbl] using hall⟩
  · rw [if_pos hkind, if_neg hkind]
    exact .inr ⟨s, e, rfl, fun h => absurd h hkind, rfl, rfl, by simp⟩

/-! ## Numbering all events -/

theorem identified_concat :
    Identified (log ++ [(e, minted)]) ↔ Identified log ∧ Admits (MintedIn log) e minted := by
  constructor
  · intro h
    refine ⟨fun before e' minted' after hsplit => ?_, h log e minted [] rfl⟩
    exact h before e' minted' (after ++ [(e, minted)]) (by rw [hsplit]; simp)
  · rintro ⟨hlog, hlast⟩ before e' minted' after hsplit
    obtain ⟨rfl, heq, -⟩ | ⟨after', -, hsplit'⟩ := Window.concat_eq_split hsplit
    · cases heq
      exact hlast
    · exact hlog before e' minted' after' hsplit'

theorem mintedIn_concat {id : Bytes} :
    MintedIn (log ++ [(e, minted)]) id ↔ MintedIn log id ∨ startedTool e = some id ∧ minted.isSome := by
  simp [MintedIn, or_and_right, exists_or]

theorem admits_congr {known known' : Bytes → Prop} (h : ∀ id, known id ↔ known' id) :
    Admits known e minted ↔ Admits known' e minted := by
  simp only [Admits, h]

/-- The numbered events are the emitted ones without some starts, and without any if every block that was
started can be shown. -/
structure Numbered (log : EmitLog) (s : HarnessStreamSink) : Prop where
  knows : ∀ id, s.Knows id ↔ MintedIn log id
  numbered : ∃ dropped : List Act, (∀ a ∈ dropped, ∃ i, a = .start i) ∧
    (log.map fun x => x.1.act).Perm (s.sources.map StreamEvent.act ++ dropped) ∧
    (s.sources.map StreamEvent.act).Sublist (log.map fun x => x.1.act) ∧
    (dropped = [] ↔ Identified log)

theorem numbered_start : Numbered [] {} where
  knows := by simp [HarnessStreamSink.Knows, MintedIn]
  numbered := by
    refine ⟨[], by simp, .refl _, .refl _, ?_⟩
    simp [Identified]

section
variable (h : Numbered log s)
include h

/-- What is numbered depends on the ids and the numbered events alone. -/
theorem Numbered.congr (hcalls : t.toolCalls = s.toolCalls) (hsrcs : t.sources = s.sources) :
    Numbered log t where
  knows := by
    intro id
    rw [HarnessStreamSink.Knows, hcalls]
    exact h.knows id
  numbered := by
    rw [hsrcs]
    exact h.numbered

theorem Numbered.leaveOut (hkind : e.kind = .blockStart) (hno : ¬ Admits s.Knows e minted)
    (hmint : startedTool e ≠ none → minted = none) : Numbered (log ++ [(e, minted)]) s where
  knows := by
    intro id
    rw [h.knows, mintedIn_concat]
    refine ⟨.inl, fun hid => hid.resolve_right ?_⟩
    rintro ⟨hid, hsome⟩
    rw [hmint (by simp [hid])] at hsome
    cases hsome
  numbered := by
    obtain ⟨dropped, hstarts, hperm, hsub, -⟩ := h.numbered
    have hact : e.act = .start e.blockIndex := by rw [StreamEvent.act, hkind]
    rw [map_append, map_singleton]
    refine ⟨dropped ++ [e.act], ?_, ?_, hsub.trans (sublist_append_left _ _), ?_⟩
    · intro a ha
      rcases mem_append.mp ha with ha | ha
      · exact hstarts a ha
      · exact ⟨_, (mem_singleton.mp ha).trans hact⟩
    · rw [← append_assoc]
      exact hperm.append_right _
    · rw [identified_concat, admits_congr fun id => (h.knows id).symm]
      simp [hno]

theorem Numbered.number {e' : StreamEvent} (hok : Admits s.Knows e minted) (hact : e'.act = e.act)
    (hknows : ∀ id, t.Knows id ↔ s.Knows id ∨ startedTool e = some id ∧ minted.isSome)
    (hsrcs : t.sources = s.sources ++ [e']) : Numbered (log ++ [(e, minted)]) t where
  knows := by
    intro id
    rw [hknows, mintedIn_concat, h.knows]
  numbered := by
    obtain ⟨dropped, hstarts, hperm, hsub, hall⟩ := h.numbered
    rw [hsrcs, map_append, map_append, map_singleton, map_singleton, hact]
    refine ⟨dropped, hstarts, ?_, hsub.append (.refl _), ?_⟩
    · refine (hperm.append_right _).trans ?_
      rw [append_assoc, append_assoc]
      exact List.Perm.append_left _ perm_append_comm
    · rw [identified_concat, admits_congr fun id => (h.knows id).symm, hall]
      simp [hok]

theorem Numbered.emit (e : StreamEvent) (minted : Option Bytes) (hopen : s.closed = false) :
    Numbered (log ++ [(e, minted)]) (s.emit e minted) := by
  have hs : Numbered log { s with emitted := s.emitted ++ [e] } := h.congr rfl rfl
  unfold HarnessStreamSink.emit
  rw [if_neg (by simp [hopen])]
  dsimp only
  rcases sourceEvent_cases { s with emitted := s.emitted ++ [e] } e minted with
    ⟨hsrc, hno, hkind, hmint⟩ | ⟨t, e', hsrc, hok, hact, hsrcs, hknows⟩
  · rw [hsrc]
    exact hs.leaveOut hkind hno hmint
  · rw [hsrc]
    dsimp only
    split
    · exact hs.number hok hact hknows (by rw [← hsrcs])
    · exact hs.number hok hact hknows (by rw [← hsrcs])

theorem Numbered.consume (hstep : s.consume = some t) : Numbered log t := by
  unfold HarnessStreamSink.consume at hstep
  split at hstep
  · cases hstep
  · cases hstep
    exact h.congr rfl rfl
  · cases hstep
    exact h.congr rfl rfl
  · split at hstep <;> cases hstep <;> exact h.congr rfl rfl
  · split at hstep <;> cases hstep <;> exact h.congr rfl rfl

end

theorem SinkRun.numbered (h : SinkRun log s) : Numbered log s := by
  induction h with
  | start => exact numbered_start
  | emit event minted _ hopen ih => exact ih.emit event minted hopen
  | consume _ hstep ih => exact ih.consume hstep
  | close _ ih => exact ih.congr rfl rfl

/-! ## Brackets -/

theorem map_act_split {sources before after : List StreamEvent}
    (h : sources = before ++ e :: after) :
    sources.map StreamEvent.act = before.map StreamEvent.act ++ e.act :: after.map StreamEvent.act := by
  rw [h, map_append, map_cons]

theorem start_once {acts before after : List Act} (h : Brackets.WellBracketed acts) {i : Int}
    (hsplit : acts = before ++ .start i :: after) : .start i ∉ before ∧ .start i ∉ after := by
  have hstarts := h.starts
  rw [hsplit, filterMap_append, filterMap_cons] at hstarts
  obtain ⟨-, haft, hbef⟩ := pairwise_append.mp hstarts
  refine ⟨fun hmem => ?_, fun hmem => ?_⟩
  · exact Int.lt_irrefl i (hbef i (Brackets.mem_starts.mpr hmem) i (by simp [Act.start?]))
  · exact Int.lt_irrefl i ((pairwise_cons.mp haft).1 i (Brackets.mem_starts.mpr hmem))

theorem stop_mem {acts : List Act} (h : Brackets.WellBracketed acts) {i : Int}
    (hstart : .start i ∈ acts) :
    .stop i ∈ acts :=
  count_pos_iff.mp (by rw [h.stopped i hstart]; exact Nat.one_pos)

theorem publicBracketed_of_wellBracketed {sources : List StreamEvent} (h : WellBracketed sources) :
    PublicBracketed sources where
  inside := by
    intro before e after i hsplit hact
    obtain ⟨hstart, -⟩ := h.inside _ _ _ i (map_act_split hsplit) hact
    exact mem_map.mp hstart
  stopped := by
    intro before e after i hsplit hact
    have hacts := map_act_split hsplit
    rw [hact] at hacts
    have hstop := stop_mem h (i := i) (by rw [hacts]; simp)
    rw [hacts] at hstop
    rcases mem_append.mp hstop with hstop | hstop
    · -- the stop would come before the start of its block
      obtain ⟨first, second, hbef⟩ := append_of_mem hstop
      have hearlier := (h.inside first _ _ i (by rw [hacts, hbef, append_assoc]; rfl)
        (.inr rfl)).1
      exact absurd (hbef ▸ mem_append_left _ hearlier) (start_once h hacts).1
    · obtain ⟨a, ha, hact'⟩ := mem_map.mp ((mem_cons.mp hstop).resolve_left nofun)
      exact ⟨a, ha, .inl hact'⟩

/-- The numbered events of a well-bracketed stream: bracketed exactly if every block can be shown. -/
theorem Numbered.bracketed_iff (h : Numbered log s)
    (hlog : Brackets.WellBracketed (log.map fun x => x.1.act)) :
    PublicBracketed s.sources ↔ Identified log := by
  obtain ⟨dropped, hstarts, hperm, hsub, hall⟩ := h.numbered
  rw [← hall]
  constructor
  · intro hbracketed
    by_contra hne
    -- a start that is left out is nowhere else, but its block is stopped
    obtain ⟨a, ha⟩ := exists_mem_of_ne_nil dropped hne
    obtain ⟨i, rfl⟩ := hstarts a ha
    have hmem : Act.start i ∈ log.map fun x => x.1.act := hperm.mem_iff.mpr (mem_append_right _ ha)
    have hmiss : Act.start i ∉ s.sources.map StreamEvent.act := by
      obtain ⟨before, after, hsplit⟩ := append_of_mem hmem
      obtain ⟨hbef, haft⟩ := start_once hlog hsplit
      have hcnt := hperm.count_eq (Act.start i)
      have hdropped := count_pos_iff.mpr ha
      rw [hsplit, count_append, count_cons_self, count_eq_zero.mpr hbef,
        count_eq_zero.mpr haft, count_append] at hcnt
      exact count_eq_zero.mp (by omega)
    have hstop : Act.stop i ∈ s.sources.map StreamEvent.act := by
      refine (mem_append.mp (hperm.mem_iff.mp (stop_mem hlog hmem))).resolve_right fun hd => ?_
      obtain ⟨j, hj⟩ := hstarts _ hd
      cases hj
    obtain ⟨e, he, hact⟩ := mem_map.mp hstop
    obtain ⟨before, after, hsplit⟩ := append_of_mem he
    obtain ⟨b, hb, hstart⟩ := hbracketed.inside before e after i hsplit (.inr hact)
    exact hmiss (mem_map.mpr ⟨b, hsplit ▸ mem_append_left _ hb, hstart⟩)
  · rintro rfl
    rw [append_nil] at hperm
    have heq := hsub.eq_of_length hperm.length_eq.symm
    apply publicBracketed_of_wellBracketed
    unfold WellBracketed
    rw [heq]
    exact hlog

/-- **The public stream is bracketed exactly if no block start is left out**, for every stream of every
provider and every interleaving of the sink with its consumer: every block that the provider starts is
text, thinking, or a tool call whose provider id is not blank and has a public id. -/
theorem sources_bracketed_iff (p : Route.StreamProtocol) (events : List SSEEvent)
    (readErr : Option Bytes)
    {log : EmitLog} {s : HarnessStreamSink} (hrun : SinkRun log s)
    (hlog : log.map Prod.fst = p.consumeStream events readErr) :
    PublicBracketed s.sources ↔ Identified log := by
  refine hrun.numbered.bracketed_iff ?_
  have h := p.emits_wellBracketed events readErr
  rw [← hlog] at h
  simpa [WellBracketed, map_map, Function.comp_def] using h

/-! ## A tool call without an id -/

/-- A sink that has emitted a log, before its consumer takes anything. -/
def emitAll (log : EmitLog) : HarnessStreamSink := log.foldl (fun s x => s.emit x.1 x.2) {}

theorem emit_open (h : s.closed = false) (e : StreamEvent)
    (minted : Option Bytes) : (s.emit e minted).closed = false := by
  unfold HarnessStreamSink.emit
  rw [if_neg (by simp [h])]
  dsimp only
  cases hsrc : HarnessStreamSink.sourceEvent { s with emitted := s.emitted ++ [e] } e minted with
  | none => exact h
  | some next =>
    obtain ⟨t, e'⟩ := next
    obtain ⟨⟨calls, rfl⟩, -⟩ := sourceEvent_spec hsrc
    dsimp only
    split <;> exact h

theorem sinkRun_emitAll (log : EmitLog) : SinkRun log (emitAll log) ∧ (emitAll log).closed = false := by
  induction log using List.reverseRecOn with
  | nil => exact ⟨.start, rfl⟩
  | append_singleton log x ih =>
    obtain ⟨hrun, hopen⟩ := ih
    rw [emitAll, foldl_append]
    exact ⟨.emit x.1 x.2 hrun hopen, emit_open hopen _ _⟩

def oneCall : AnthropicMessages.Decoders := AnthropicMessages.frameDecoders fun block =>
  .ok (Json.ascii r#"{"id":""# ++ block.toolID ++ Json.ascii r#"","input":"# ++ block.toolInputJSON ++
    Json.ascii r#","name":"shell","type":"tool_use"}"#)

/-- The tool call `id` is started, its arguments are sent, it ends and the stream breaks off. -/
def oneCallEvents (id : Bytes) : List SSEEvent :=
  [⟨Json.ascii "content_block_start",
      Json.ascii r#"{"index":0,"content_block":{"type":"tool_use","id":""# ++ id ++
        Json.ascii r#"","name":"shell","input":{}}}"#⟩,
    ⟨Json.ascii "content_block_delta",
      Json.ascii r#"{"index":0,"delta":{"type":"input_json_delta","partial_json":"{}"}}"#⟩,
    ⟨Json.ascii "content_block_stop", Json.ascii r#"{"index":0}"#⟩]

/-- What the accumulator emits for it, with the id minted for the call. -/
def oneCallLog (id : Bytes) : EmitLog :=
  ((Route.StreamProtocol.anthropicMessages oneCall).consumeStream (oneCallEvents id) none).map fun e =>
    (e, some (Json.ascii "tcl_1"))

theorem oneCallLog_emitted (id : Bytes) : (oneCallLog id).map Prod.fst =
      (Route.StreamProtocol.anthropicMessages oneCall).consumeStream (oneCallEvents id) none := by
  rw [oneCallLog, map_map]
  exact map_id _

/-- **A tool call whose provider id is blank**: its arguments and its stop are numbered, its start is
not. -/
theorem sources_not_bracketed : SinkRun (oneCallLog []) (emitAll (oneCallLog [])) ∧
    (oneCallLog []).map Prod.fst =
      (Route.StreamProtocol.anthropicMessages oneCall).consumeStream (oneCallEvents []) none ∧
    (emitAll (oneCallLog [])).sources.map StreamEvent.act = [.delta 0, .stop 0, .terminal] ∧
    ¬ PublicBracketed (emitAll (oneCallLog [])).sources := by
  have hacts : (emitAll (oneCallLog [])).sources.map StreamEvent.act = [.delta 0, .stop 0, .terminal] := by
    decide +kernel
  refine ⟨(sinkRun_emitAll _).1, oneCallLog_emitted [], hacts, fun h => ?_⟩
  obtain ⟨e, rest, hsources⟩ : ∃ e rest, (emitAll (oneCallLog [])).sources = e :: rest :=
    exists_cons_of_ne_nil fun hnil => by rw [hnil] at hacts; cases hacts
  rw [hsources, map_cons] at hacts
  obtain ⟨b, hb, -⟩ := h.inside [] e rest 0 hsources (.inl (List.cons.inj hacts).1)
  cases hb

/-- The same call with an id. -/
theorem sources_bracketed_iff_named :
    SinkRun (oneCallLog [99]) (emitAll (oneCallLog [99])) ∧ (oneCallLog [99]).map Prod.fst =
        (Route.StreamProtocol.anthropicMessages oneCall).consumeStream (oneCallEvents [99]) none ∧
      PublicBracketed (emitAll (oneCallLog [99])).sources := by
  refine ⟨(sinkRun_emitAll _).1, oneCallLog_emitted [99],
    (sources_bracketed_iff _ (oneCallEvents [99]) none (sinkRun_emitAll _).1
      (oneCallLog_emitted [99])).mpr ?_⟩
  intro before e minted after hsplit hkind
  have hstarts : ∀ x ∈ oneCallLog [99], x.1.kind = .blockStart →
      x.1.block = some ⟨.toolUse, [99], Json.ascii "shell"⟩ ∧ x.2.isSome := by
    decide +kernel
  obtain ⟨hblock, hminted⟩ := hstarts (e, minted) (hsplit ▸ by simp) hkind
  exact ⟨_, hblock, .inr (.inr ⟨rfl, by decide +kernel, .inl hminted⟩)⟩

end Kernel
