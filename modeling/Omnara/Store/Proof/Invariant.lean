import Omnara.Store.Proof.Chain
import Omnara.Store.Proof.Log

/-!
# The invariant of an agent's database

`Inv` collects what holds in every state of an agent, in four groups over the log (`LogInv`): the model
calls (`ContextInv`), their outcomes (`OutcomeInv`), the tool calls (`BatchInv`) and the sources of
compactions (`SourceInv`). `Current` says that open tool calls belong to the latest turn; it is kept
apart because a cancellation breaks it between its stop event and the results of the calls it ends.

For each group there is a frame lemma, for writes that leave what the group reads as it is, and one
lemma for each write that does not: a call ends or starts, an output or a checkpoint is published, a
tool call is completed.
-/

namespace Store

open List

variable {e : AgentEvent} {id : Id}

/-! ## Events by payload -/

namespace AgentEvent

def output? (e : AgentEvent) : Option Id :=
  match e.payload with
  | .modelOutput c => some c
  | _ => none

def checkpoint? (e : AgentEvent) : Option Id :=
  match e.payload with
  | .contextCheckpoint c => some c
  | _ => none

def result? (e : AgentEvent) : Option Id :=
  match e.payload with
  | .toolResult c => some c
  | _ => none

variable {e : AgentEvent} {c : Id}

theorem output?_eq_some : e.output? = some c ↔ e.payload = .modelOutput c := by
  unfold output?
  split <;> simp_all

theorem checkpoint?_eq_some : e.checkpoint? = some c ↔ e.payload = .contextCheckpoint c := by
  unfold checkpoint?
  split <;> simp_all

theorem result?_eq_some : e.result? = some c ↔ e.payload = .toolResult c := by
  unfold result?
  split <;> simp_all

theorem filter_eq_singleton {events : List AgentEvent} {f : AgentEvent → Option Id}
    (hnd : (events.filterMap f).Nodup) (hc : c ∈ events.filterMap f) {p : AgentEvent → Bool}
    (hp : ∀ e, p e = true ↔ f e = some c) : ∃ e, events.filter p = [e] := by
  have hcnt := count_eq_one_of_mem hnd hc
  rw [count_filterMap, countP_eq_length_filter] at hcnt
  have hsame : (events.filter fun e => f e == some c) = events.filter p := by
    refine filter_congr fun e _ => ?_
    rw [Bool.eq_iff_iff, hp e, beq_iff_eq]
  rw [hsame] at hcnt
  exact length_eq_one_iff.1 hcnt

end AgentEvent

namespace ModelCallContext

/-- Its output is in the log: an answer, or the error of a call that failed for good. -/
def publishesOutput (c : ModelCallContext) : Bool :=
  (c.state = .succeeded && c.operation = .normal) || c.state = .failed none

def publishesCheckpoint (c : ModelCallContext) : Bool :=
  c.state = .succeeded && c.operation ≠ .normal

end ModelCallContext

namespace Db

variable {db db' : Db} {es : List AgentEvent}

def NoLive (db : Db) : Prop := ∀ c ∈ db.contexts, c.state ≠ .started

def NoOpen (db : Db) : Prop := ∀ call ∈ db.toolCalls, call.state = .completed

/-! ## The groups -/

structure ContextInv (db : Db) : Prop where
  rows : ModelCallContext.Rows db.contexts
  frontier : ∀ c ∈ db.contexts, c.frontier < db.nextEventSequence
  live : ∀ c ∈ db.contexts, c.state = .started → db.lock.map (·.id) = some c.runtimeLock ∧
    db.turnAt c.frontier = db.latestTurnId ∧ db.stopAfter c.frontier = false

/-- The outputs and checkpoints are those of the contexts that ended with one, in order, each with one
event after the frontier of its context. -/
structure OutcomeInv (db : Db) : Prop where
  outputs : db.outputs.map (·.context) = (db.contexts.filter (·.publishesOutput)).map (·.id)
  checkpoints : db.checkpoints.map (fun k => (k.context, some k.summarizedThrough)) =
    (db.contexts.filter (·.publishesCheckpoint)).map fun c => (c.id, sourceEnd? c.operation)
  outputEvents : db.events.filterMap (·.output?) = db.outputs.map (·.context)
  checkpointEvents : db.events.filterMap (·.checkpoint?) = db.checkpoints.map (·.context)
  published : ∀ e ∈ db.events, ∀ c ∈ db.contexts,
    e.payload = .modelOutput c.id ∨ e.payload = .contextCheckpoint c.id → c.frontier < e.sequence

structure BatchInv (db : Db) : Prop where
  resultEvents : db.events.filterMap (·.result?) = db.results.map (·.call)
  calls : db.toolCalls.map (·.id) = List.range db.toolCalls.length
  source : ∀ call ∈ db.toolCalls, call.output ∈ db.outputs.map (·.context)
  completed : ∀ call ∈ db.toolCalls, call.state = .completed ↔ call.id ∈ db.results.map (·.call)
  nodup : (db.results.map (·.call)).Nodup
  known : ∀ id ∈ db.results.map (·.call), id < db.toolCalls.length
  order : ∀ call ∈ db.toolCalls, ∀ e ∈ db.events, ∀ r ∈ db.events,
    e.payload = .modelOutput call.output → r.payload = .toolResult call.id → e.sequence < r.sequence
  /-- Every frontier is result-complete. -/
  closed : ∀ c ∈ db.contexts, ∀ call ∈ db.toolCalls, ∀ e ∈ db.events,
    e.payload = .modelOutput call.output → e.sequence ≤ c.frontier →
      ∃ r ∈ db.events, r.payload = .toolResult call.id ∧ r.sequence ≤ c.frontier

structure SourceInv (db : Db) : Prop where
  /-- A later frontier sees the checkpoint. -/
  applicable : ∀ c ∈ db.contexts, ∀ d ∈ db.contexts, ∀ e ∈ db.events,
    e.payload = .contextCheckpoint c.id → c.frontier < d.frontier → e.sequence ≤ d.frontier
  sources : ∀ d ∈ db.contexts, ∀ e, d.operation = .compaction e → db.summarizedThrough d.frontier < e

structure Inv (db : Db) : Prop where
  log : LogInv db
  context : ContextInv db
  outcome : OutcomeInv db
  batch : BatchInv db
  source : SourceInv db

/-- Open tool calls belong to the latest turn, and no stop follows their output. -/
def Current (db : Db) : Prop :=
  ∀ call ∈ db.toolCalls, call.state ≠ .completed → ∀ e ∈ db.events,
    e.payload = .modelOutput call.output →
      some e.turn = db.latestTurnId ∧ db.stopAfter e.sequence = false

/-! ## Model calls -/

variable {c : ModelCallContext} {α : Type} {e : AgentEvent}

theorem ContextInv.rows_ended (h : ContextInv db) (hc : c ∈ db.contexts)
    (hlive : c.state = .started) (state : ContextState) :
    ∃ l, db.contexts = l ++ [c] ∧
      (db.setContextState c.id state).contexts = l ++ [{ c with state := state }] := by
  obtain ⟨l, hl⟩ := h.rows.eq_last_of_started hc hlive
  have hrows : ModelCallContext.Rows (l ++ [c]) := hl ▸ h.rows
  refine ⟨l, hl, ?_⟩
  rw [setContextState, hl]
  exact hrows.map_setState state

theorem ContextInv.ended (hx : Extends db db' es) (h : ContextInv db)
    {state : ContextState} (hc : c ∈ db.contexts) (hlive : c.state = .started)
    (hdone : state ≠ .started) (hretry : ∀ t, state = .failed (some (.retry t)) →
      c.attempt ≤ maxModelCallRetriesPerOperation)
    (hctxs : db'.contexts = (db.setContextState c.id state).contexts) : ContextInv db' := by
  obtain ⟨l, hl, hset⟩ := h.rows_ended hc hlive state
  rw [hset] at hctxs
  have hrows : ModelCallContext.Rows (l ++ [c]) := hl ▸ h.rows
  refine ⟨hctxs ▸ hrows.setLast hretry, fun a ha => ?_, fun a ha hs => ?_⟩
  · have hle : db.nextEventSequence ≤ db'.nextEventSequence := hx.next ▸ Nat.le_add_right _ _
    rw [hctxs, mem_append, mem_singleton] at ha
    rcases ha with ha | rfl
    · exact Nat.lt_of_lt_of_le (h.frontier a (hl ▸ mem_append_left _ ha)) hle
    · exact Nat.lt_of_lt_of_le (h.frontier c hc) hle
  · rw [hctxs, mem_append, mem_singleton] at ha
    rcases ha with ha | rfl
    · exact absurd hs (hrows.leads_last a ha).done
    · exact absurd hs hdone

theorem ContextInv.frame (hx : Extends db db' es) (hlog : LogInv db) (h : ContextInv db)
    (hctxs : db'.contexts = db.contexts)
    (hsame : db.NoLive ∨ db'.lock.map (·.id) = db.lock.map (·.id) ∧
      (∀ e ∈ es, e.isOpening = false) ∧ ∀ e ∈ es, db'.isStop e = false) : ContextInv db' where
  rows := hctxs ▸ h.rows
  frontier c hc := by
    have := h.frontier c (hctxs ▸ hc)
    rw [hx.next]
    omega
  live c hc hs := by
    rw [hctxs] at hc
    rcases hsame with hnone | ⟨hlock, hopen, hstop⟩
    · exact absurd hs (hnone c hc)
    · obtain ⟨h₁, h₂, h₃⟩ := h.live c hc hs
      refine ⟨hlock ▸ h₁, ?_, hx.not_stopAfter h₃ hstop⟩
      rw [hx.turnAt_eq (h.frontier c hc), h₂, hx.latestTurnId_eq hlog hopen]

/-- A call that starts follows the last one and sees the latest turn. -/
theorem ContextInv.started (h : ContextInv db) {b : ModelCallContext}
    (hid : b.id = db.contexts.length) (hlive : db.NoLive)
    (hfst : db.contexts = [] → b.operation = .normal ∧ b.attempt = 1)
    (hfollows : ∀ a, db.contexts.getLast? = some a → a.Follows b) (hwf : b.WellFormed)
    (hlock : db.lock.map (·.id) = some b.runtimeLock)
    (hturn : db.turnAt b.frontier = db.latestTurnId) (hstop : db.stopAfter b.frontier = false)
    (hfront : b.frontier < db.nextEventSequence) :
    ContextInv { db with contexts := db.contexts ++ [b] } where
  rows := h.rows.concat hid hfst hfollows hwf
  frontier c hc := by
    rcases mem_append.1 hc with hc | hc
    · exact h.frontier c hc
    · exact mem_singleton.1 hc ▸ hfront
  live c hc hs := by
    rcases mem_append.1 hc with hc | hc
    · exact absurd hs (hlive c hc)
    · cases mem_singleton.1 hc
      exact ⟨hlock, hturn, hstop⟩

/-! ## Outcomes -/

theorem Extends.filterMap_eq (hx : Extends db db' es) (f : AgentEvent → Option α) :
    db'.events.filterMap f = db.events.filterMap f ++ es.filterMap f := by
  rw [hx.events, filterMap_append]

theorem Extends.filterMap_eq_of_none (hx : Extends db db' es)
    {f : AgentEvent → Option α} (hf : ∀ e ∈ es, f e = none) :
    db'.events.filterMap f = db.events.filterMap f := by
  rw [hx.filterMap_eq, filterMap_eq_nil_iff.2 hf, append_nil]

section
variable (h : OutcomeInv db)
include h

theorem OutcomeInv.exists_output (he : e ∈ db.events) (hp : e.payload = .modelOutput id) :
    ∃ c ∈ db.contexts, c.id = id ∧ c.publishesOutput = true := by
  have hmem : id ∈ db.outputs.map (·.context) :=
    h.outputEvents ▸ mem_filterMap.2 ⟨e, he, AgentEvent.output?_eq_some.2 hp⟩
  rw [h.outputs] at hmem
  obtain ⟨c, hc, hid⟩ := mem_map.1 hmem
  exact ⟨c, (mem_filter.1 hc).1, hid, (mem_filter.1 hc).2⟩

theorem OutcomeInv.exists_producer {k : ContextCheckpoint} (hk : k ∈ db.checkpoints) :
    ∃ c ∈ db.contexts, c.id = k.context ∧
      c.publishesCheckpoint = true ∧ sourceEnd? c.operation = some k.summarizedThrough := by
  have hpair : (k.context, some k.summarizedThrough) ∈
      (db.contexts.filter (·.publishesCheckpoint)).map fun c => (c.id, sourceEnd? c.operation) :=
    h.checkpoints ▸ mem_map_of_mem hk
  obtain ⟨c, hc, hpair⟩ := mem_map.1 hpair
  obtain ⟨hid, hend⟩ := Prod.mk.inj hpair
  exact ⟨c, (mem_filter.1 hc).1, hid, (mem_filter.1 hc).2, hend⟩

theorem OutcomeInv.exists_checkpoint (he : e ∈ db.events) (hp : e.payload = .contextCheckpoint id) :
    ∃ c ∈ db.contexts, c.id = id ∧ c.publishesCheckpoint = true := by
  have hmem : id ∈ db.checkpoints.map (·.context) :=
    h.checkpointEvents ▸ mem_filterMap.2 ⟨e, he, AgentEvent.checkpoint?_eq_some.2 hp⟩
  obtain ⟨k, hk, hkid⟩ := mem_map.1 hmem
  obtain ⟨c, hc, hid, hpub, -⟩ := h.exists_producer hk
  exact ⟨c, hc, hid.trans hkid, hpub⟩

theorem OutcomeInv.no_event (hr : ModelCallContext.Rows db.contexts) (hc : c ∈ db.contexts)
    (hlive : c.state = .started) (he : e ∈ db.events) :
    e.payload ≠ .modelOutput c.id ∧ e.payload ≠ .contextCheckpoint c.id := by
  refine ⟨fun hp => ?_, fun hp => ?_⟩
  · obtain ⟨a, ha, hid, hpub⟩ := h.exists_output he hp
    cases hr.id_inj ha hc hid
    simp [ModelCallContext.publishesOutput, hlive] at hpub
  · obtain ⟨a, ha, hid, hpub⟩ := h.exists_checkpoint he hp
    cases hr.id_inj ha hc hid
    simp [ModelCallContext.publishesCheckpoint, hlive] at hpub

theorem OutcomeInv.not_mem_outputs (hr : ModelCallContext.Rows db.contexts) (hc : c ∈ db.contexts)
    (hlive : c.state = .started) :
    c.id ∉ db.outputs.map (·.context) := by
  intro hmem
  rw [← h.outputEvents] at hmem
  obtain ⟨e, he, hp⟩ := mem_filterMap.1 hmem
  exact (h.no_event hr hc hlive he).1 (AgentEvent.output?_eq_some.1 hp)

end

section
variable (hx : Extends db db' es)
include hx

/-- Nothing is published, and every context keeps what it publishes. -/
theorem OutcomeInv.frame (h : OutcomeInv db) (hes : ∀ e ∈ es, e.output? = none ∧ e.checkpoint? = none)
    (houts : db'.outputs = db.outputs) (hcps : db'.checkpoints = db.checkpoints)
    (hpub : (db'.contexts.filter (·.publishesOutput)).map (·.id) =
      (db.contexts.filter (·.publishesOutput)).map (·.id))
    (hpub' : (db'.contexts.filter (·.publishesCheckpoint)).map (fun c => (c.id, sourceEnd? c.operation)) =
      (db.contexts.filter (·.publishesCheckpoint)).map fun c => (c.id, sourceEnd? c.operation))
    (hrows : ∀ c ∈ db'.contexts, ∀ a ∈ db.contexts, a.id = c.id → a.frontier = c.frontier) :
    OutcomeInv db' where
  outputs := by rw [houts, hpub, h.outputs]
  checkpoints := by rw [hcps, hpub', h.checkpoints]
  outputEvents := by rw [hx.filterMap_eq_of_none fun e he => (hes e he).1, houts, h.outputEvents]
  checkpointEvents := by
    rw [hx.filterMap_eq_of_none fun e he => (hes e he).2, hcps, h.checkpointEvents]
  published e he c hc hp := by
    rw [hx.events, mem_append] at he
    rcases he with he | he
    · obtain ⟨a, ha, hid⟩ : ∃ a ∈ db.contexts, a.id = c.id := by
        rcases hp with hp | hp
        · obtain ⟨a, ha, hid, -⟩ := h.exists_output he hp
          exact ⟨a, ha, hid⟩
        · obtain ⟨a, ha, hid, -⟩ := h.exists_checkpoint he hp
          exact ⟨a, ha, hid⟩
      rw [← hrows c hc a ha hid]
      exact h.published e he a ha (hid ▸ hp)
    · obtain ⟨h₁, h₂⟩ := hes e he
      rcases hp with hp | hp
      · simp [AgentEvent.output?_eq_some.2 hp] at h₁
      · simp [AgentEvent.checkpoint?_eq_some.2 hp] at h₂

/-- The call in flight ends with `state`: the part of the outcomes that output and checkpoint share. -/
theorem OutcomeInv.published_ended (hc' : ContextInv db) (h : OutcomeInv db) {state : ContextState}
    (hc : c ∈ db.contexts) (hlive : c.state = .started)
    (hctxs : db'.contexts = (db.setContextState c.id state).contexts) :
    ∀ e ∈ db'.events, ∀ a ∈ db'.contexts,
      e.payload = .modelOutput a.id ∨ e.payload = .contextCheckpoint a.id →
        a.frontier < e.sequence := by
  obtain ⟨l, hl, hset⟩ := hc'.rows_ended hc hlive state
  intro e he a ha hp
  obtain ⟨b, hb, hid, hf⟩ : ∃ b ∈ db.contexts, b.id = a.id ∧ b.frontier = a.frontier := by
    rw [hctxs, hset, mem_append, mem_singleton] at ha
    rcases ha with ha | rfl
    · exact ⟨a, hl ▸ mem_append_left _ ha, rfl, rfl⟩
    · exact ⟨c, hc, rfl, rfl⟩
  rw [← hf]
  rw [hx.events, mem_append] at he
  rcases he with he | he
  · exact h.published e he b hb (hid ▸ hp)
  · exact Nat.lt_of_lt_of_le (hc'.frontier b hb) (hx.sequence_bounds he).1

/-! ## Tool calls -/

theorem Extends.mem_old {f : AgentEvent → Option α} (hf : ∀ e ∈ es, f e = none) (he : e ∈ db'.events)
    {a : α} (ha : f e = some a) :
    e ∈ db.events := by
  rw [hx.events, mem_append] at he
  rcases he with he | he
  · exact he
  · simp [hf e he] at ha

theorem Extends.mem_new (he : e ∈ db.events) :
    e ∈ db'.events := hx.events ▸ mem_append_left _ he

end

namespace BatchInv

theorem id_inj (h : BatchInv db) {a b : ToolCall} (ha : a ∈ db.toolCalls) (hb : b ∈ db.toolCalls)
    (hab : a.id = b.id) : a = b := by
  have hnd : (db.toolCalls.map (·.id)).Nodup := by
    rw [h.calls]
    exact nodup_range
  exact inj_on_of_nodup_map hnd ha hb hab

/-- The calls keep what the group reads of them, and no output or result is added. -/
theorem frame (hx : Extends db db' es) (h : BatchInv db)
    (hes : ∀ e ∈ es, e.output? = none ∧ e.result? = none)
    (houts : db'.outputs = db.outputs) (hresults : db'.results = db.results)
    (hids : db'.toolCalls.map (·.id) = db.toolCalls.map (·.id))
    (hcalls : ∀ call ∈ db'.toolCalls, ∃ old ∈ db.toolCalls, old.id = call.id ∧
      old.output = call.output ∧ (call.state = .completed ↔ old.state = .completed))
    (hctxs : ∀ c ∈ db'.contexts, (∃ a ∈ db.contexts, a.frontier = c.frontier) ∨
      c.frontier + 1 = db.nextEventSequence ∧ db.NoOpen) (hlog : LogInv db) : BatchInv db' := by
  have hlen : db'.toolCalls.length = db.toolCalls.length := by
    simpa using congrArg List.length hids
  have hout : ∀ e ∈ es, e.output? = none := fun e he => (hes e he).1
  have hres : ∀ e ∈ es, e.result? = none := fun e he => (hes e he).2
  refine ⟨?_, ?_, ?_, ?_, hresults ▸ h.nodup, ?_, ?_, ?_⟩
  · rw [hx.filterMap_eq_of_none hres, hresults, h.resultEvents]
  · rw [hids, h.calls, hlen]
  · intro call hcall
    obtain ⟨old, hold, -, ho, -⟩ := hcalls call hcall
    rw [houts, ← ho]
    exact h.source old hold
  · intro call hcall
    obtain ⟨old, hold, hid, -, hst⟩ := hcalls call hcall
    rw [hst, hresults, ← hid]
    exact h.completed old hold
  · rw [hresults, hlen]
    exact h.known
  · intro call hcall e he r hr hpe hpr
    obtain ⟨old, hold, hid, ho, -⟩ := hcalls call hcall
    rw [← ho] at hpe
    rw [← hid] at hpr
    exact h.order old hold e (hx.mem_old hout he (AgentEvent.output?_eq_some.2 hpe)) r
      (hx.mem_old hres hr (AgentEvent.result?_eq_some.2 hpr)) hpe hpr
  · intro c hc call hcall e he hpe hle
    obtain ⟨old, hold, hid, ho, -⟩ := hcalls call hcall
    rw [← ho] at hpe
    have he := hx.mem_old hout he (AgentEvent.output?_eq_some.2 hpe)
    rcases hctxs c hc with ⟨a, ha, hf⟩ | ⟨hlast, hnone⟩
    · obtain ⟨r, hr, hpr, hle'⟩ := h.closed a ha old hold e he hpe (hf ▸ hle)
      exact ⟨r, hx.mem_new hr, hid ▸ hpr, hf ▸ hle'⟩
    · -- the frontier is the end of the log, and all calls have their results there
      have hmem : old.id ∈ db.results.map (·.call) := (h.completed old hold).1 (hnone old hold)
      rw [← h.resultEvents] at hmem
      obtain ⟨r, hr, hpr⟩ := mem_filterMap.1 hmem
      have := hlog.sequence_bounds hr
      exact ⟨r, hx.mem_new hr, hid ▸ AgentEvent.result?_eq_some.1 hpr, by omega⟩

theorem complete (hx : Extends db db' [e]) (h : BatchInv db) (hlog : LogInv db) {call : ToolCall}
    (hcall : call ∈ db.toolCalls) (hopen : call.state ≠ .completed)
    (he : e.payload = .toolResult call.id) (hctxs : db'.contexts = db.contexts)
    (houts : db'.outputs = db.outputs)
    (hcalls : db'.toolCalls = (db.setCallState call.id .completed).toolCalls)
    (hresults : db'.results.map (·.call) = db.results.map (·.call) ++ [call.id]) : BatchInv db' := by
  have hout : ∀ a ∈ [e], a.output? = none := by simp [AgentEvent.output?, he]
  have hnew : call.id ∉ db.results.map (·.call) := fun hmem => hopen ((h.completed call hcall).2 hmem)
  have hlen : db'.toolCalls.length = db.toolCalls.length := by simp [hcalls, setCallState]
  -- a call of the new table is an old one, completed if it is this one
  have hold (x : ToolCall) (hx' : x ∈ db'.toolCalls) : ∃ old ∈ db.toolCalls, old.id = x.id ∧
      old.output = x.output ∧ (x.state = .completed ↔ old.state = .completed ∨ old.id = call.id) := by
    rw [hcalls, setCallState, mem_map] at hx'
    obtain ⟨old, hmem, rfl⟩ := hx'
    refine ⟨old, hmem, ?_⟩
    split <;> simp_all
  refine ⟨?_, ?_, ?_, ?_, ?_, ?_, ?_, ?_⟩
  · rw [hx.filterMap_eq, h.resultEvents, hresults]
    simp [AgentEvent.result?, he]
  · rw [hlen, ← h.calls, hcalls, setCallState, map_map]
    refine map_congr_left fun x _ => ?_
    simp only [Function.comp_apply]
    split <;> rfl
  · intro x hx'
    obtain ⟨old, hmem, -, ho, -⟩ := hold x hx'
    rw [houts, ← ho]
    exact h.source old hmem
  · intro x hx'
    obtain ⟨old, hmem, hid, -, hst⟩ := hold x hx'
    rw [hst, hresults, mem_append, mem_singleton, ← hid, h.completed old hmem]
  · rw [hresults]
    exact nodup_append.2 ⟨h.nodup, nodup_singleton _, by
      intro a ha b hb hab
      rw [mem_singleton] at hb
      exact hnew (hb ▸ hab ▸ ha)⟩
  · intro id hid
    rw [hresults, mem_append, mem_singleton] at hid
    rw [hlen]
    rcases hid with hid | rfl
    · exact h.known id hid
    · have hmem := mem_map_of_mem (f := ToolCall.id) hcall
      rwa [h.calls, mem_range] at hmem
  · intro x hx' a ha r hr hpa hpr
    obtain ⟨old, hmem, hid, ho, -⟩ := hold x hx'
    rw [← ho] at hpa
    rw [← hid] at hpr
    have ha := hx.mem_old hout ha (AgentEvent.output?_eq_some.2 hpa)
    rw [hx.events, mem_append] at hr
    rcases hr with hr | hr
    · exact h.order old hmem a ha r hr hpa hpr
    · exact Nat.lt_of_lt_of_le (hlog.sequence_bounds ha).2 (hx.sequence_bounds hr).1
  · intro c hc x hx' a ha hpa hle
    obtain ⟨old, hmem, hid, ho, -⟩ := hold x hx'
    rw [← ho] at hpa
    obtain ⟨r, hr, hpr, hle'⟩ := h.closed c (hctxs ▸ hc) old hmem a
      (hx.mem_old hout ha (AgentEvent.output?_eq_some.2 hpa)) hpa hle
    exact ⟨r, hx.mem_new hr, hid ▸ hpr, hle'⟩

theorem output (hx : Extends db db' [e]) (h : BatchInv db) (hctx : ContextInv db)
    (houtc : db.events.filterMap (·.output?) = db.outputs.map (·.context))
    (hfr : id ∉ db.outputs.map (·.context)) (he : e.payload = .modelOutput id) {calls : List ToolCall}
    (houts : db'.outputs.map (·.context) = db.outputs.map (·.context) ++ [id])
    (hcalls : db'.toolCalls = db.toolCalls ++ calls)
    (hids : calls.map (·.id) = List.range' db.toolCalls.length calls.length)
    (hnew : ∀ call ∈ calls, call.output = id ∧ call.state ≠ .completed)
    (hresults : db'.results = db.results)
    (hctxs : ∀ c ∈ db'.contexts, ∃ a ∈ db.contexts, a.frontier = c.frontier) : BatchInv db' := by
  have hres : ∀ a ∈ [e], a.result? = none := by simp [AgentEvent.result?, he]
  -- the number of a new call is beyond all results
  have hbeyond (call : ToolCall) (hcall : call ∈ calls) : call.id ∉ db.results.map (·.call) := by
    intro hmem
    have hlt := h.known _ hmem
    have hge := mem_map_of_mem (f := ToolCall.id) hcall
    rw [hids, mem_range'_1] at hge
    exact Nat.not_le.2 hlt hge.1
  have hnoresult (call : ToolCall) (hcall : call ∈ calls) (r : AgentEvent) (hr : r ∈ db'.events) :
      r.payload ≠ .toolResult call.id := fun hpr => by
    have hold := hx.mem_old hres hr (AgentEvent.result?_eq_some.2 hpr)
    refine hbeyond call hcall ?_
    rw [← h.resultEvents]
    exact mem_filterMap.2 ⟨r, hold, AgentEvent.result?_eq_some.2 hpr⟩
  -- the new event is the source of new calls only
  have hsrc (call : ToolCall) (hcall : call ∈ db.toolCalls) (a : AgentEvent) (ha : a ∈ db'.events)
      (hpa : a.payload = .modelOutput call.output) : a ∈ db.events := by
    rw [hx.events, mem_append, mem_singleton] at ha
    rcases ha with ha | rfl
    · exact ha
    · rw [he, Payload.modelOutput.injEq] at hpa
      exact absurd (hpa ▸ h.source call hcall) hfr
  refine ⟨?_, ?_, ?_, ?_, hresults ▸ h.nodup, ?_, ?_, ?_⟩
  · rw [hx.filterMap_eq_of_none hres, hresults, h.resultEvents]
  · have hcat := List.range'_append_1 (s := 0) (m := db.toolCalls.length) (n := calls.length)
    rw [Nat.zero_add] at hcat
    rw [hcalls, map_append, h.calls, hids, length_append, range_eq_range', range_eq_range', hcat]
  · intro call hcall
    rw [hcalls, mem_append] at hcall
    rw [houts, mem_append, mem_singleton]
    rcases hcall with hcall | hcall
    · exact .inl (h.source call hcall)
    · exact .inr (hnew call hcall).1
  · intro call hcall
    rw [hcalls, mem_append] at hcall
    rw [hresults]
    rcases hcall with hcall | hcall
    · exact h.completed call hcall
    · exact iff_of_false (hnew call hcall).2 (hbeyond call hcall)
  · intro i hi
    rw [hresults] at hi
    rw [hcalls, length_append]
    exact Nat.lt_of_lt_of_le (h.known i hi) (Nat.le_add_right _ _)
  · intro call hcall a ha r hr hpa hpr
    rw [hcalls, mem_append] at hcall
    rcases hcall with hcall | hcall
    · exact h.order call hcall a (hsrc call hcall a ha hpa) r
        (hx.mem_old hres hr (AgentEvent.result?_eq_some.2 hpr)) hpa hpr
    · exact absurd hpr (hnoresult call hcall r hr)
  · intro c hc call hcall a ha hpa hle
    obtain ⟨b, hb, hf⟩ := hctxs c hc
    rw [hcalls, mem_append] at hcall
    rcases hcall with hcall | hcall
    · obtain ⟨r, hr, hpr, hle'⟩ := h.closed b hb call hcall a (hsrc call hcall a ha hpa) hpa
        (hf ▸ hle)
      exact ⟨r, hx.mem_new hr, hpr, hf ▸ hle'⟩
    · -- the output of a new call lies beyond every frontier
      exfalso
      rw [(hnew call hcall).1] at hpa
      rw [hx.events, mem_append, mem_singleton] at ha
      rcases ha with ha | rfl
      · rw [← houtc] at hfr
        exact hfr (mem_filterMap.2 ⟨a, ha, AgentEvent.output?_eq_some.2 hpa⟩)
      · have := (hx.sequence_bounds (mem_singleton_self a)).1
        have := hctx.frontier b hb
        omega

end BatchInv

/-! ## Sources of compactions -/

/-- A checkpoint published after a frontier does not change what is summarized for it. -/
theorem Extends.summarizedThrough_eq (hx : Extends db db' es) (ks : List ContextCheckpoint)
    (hcps : db'.checkpoints = db.checkpoints ++ ks)
    (hks : ∀ k ∈ ks, ∀ e ∈ db.events, e.payload ≠ .contextCheckpoint k.context) {n : Nat}
    (hn : n < db.nextEventSequence) : db'.summarizedThrough n = db.summarizedThrough n := by
  have hnew (k : ContextCheckpoint) :
      ((es.filter (·.payload = .contextCheckpoint k.context)).map fun e => (k, e.sequence)).filter
        (·.2 ≤ n) = [] := by
    refine filter_eq_nil_iff.2 fun p hp => ?_
    obtain ⟨e, he, rfl⟩ := mem_map.1 hp
    have := (hx.sequence_bounds (mem_filter.1 he).1).1
    simp only [decide_eq_true_eq]
    omega
  have hold (k : ContextCheckpoint) (hk : k ∈ ks) :
      (db.events.filter (·.payload = .contextCheckpoint k.context)) = [] :=
    filter_eq_nil_iff.2 fun e he => by simpa using hks k hk e he
  have hrows : db'.checkpointEvents.filter (·.2 ≤ n) = db.checkpointEvents.filter (·.2 ≤ n) := by
    simp only [checkpointEvents, hcps, hx.events, flatMap_append, filter_append,
      filter_flatMap, map_append, hnew, append_nil]
    refine append_right_eq_self.2 (flatMap_eq_nil_iff.2 fun k hk => ?_)
    rw [hold k hk]
    rfl
  simp only [summarizedThrough, latestApplicableCheckpoint, hrows]

namespace SourceInv

/-- The contexts keep their columns, and no checkpoint is published. -/
theorem frame (hx : Extends db db' es) (hctx : ContextInv db) (h : SourceInv db)
    (hes : ∀ e ∈ es, e.checkpoint? = none) (hcps : db'.checkpoints = db.checkpoints)
    (hctxs : ∀ c ∈ db'.contexts, ∃ a ∈ db.contexts, a.id = c.id ∧ a.frontier = c.frontier ∧
      a.operation = c.operation) : SourceInv db' where
  applicable c hc d hd e he hp hlt := by
    obtain ⟨a, ha, hid, hf, -⟩ := hctxs c hc
    obtain ⟨b, hb, -, hf', -⟩ := hctxs d hd
    have he := hx.mem_old hes he (AgentEvent.checkpoint?_eq_some.2 hp)
    rw [← hf']
    exact h.applicable a ha b hb e he (hid ▸ hp) (by omega)
  sources d hd e hop := by
    obtain ⟨b, hb, -, hf, ho⟩ := hctxs d hd
    have heq := hx.summarizedThrough_eq [] (by simp [hcps]) (by simp)
      (hctx.frontier b hb)
    rw [← hf, heq]
    exact h.sources b hb e (ho ▸ hop)

/-- The last context publishes its checkpoint: no context has a later frontier. -/
theorem checkpoint (hx : Extends db db' [e]) (hctx : ContextInv db)
    (houtc : OutcomeInv db) (h : SourceInv db) {c : ModelCallContext} {k : ContextCheckpoint}
    (hc : c ∈ db.contexts) (hlive : c.state = .started) (he : e.payload = .contextCheckpoint c.id)
    (hk : k.context = c.id) (hcps : db'.checkpoints = db.checkpoints ++ [k])
    (hctxs : ∀ c ∈ db'.contexts, ∃ a ∈ db.contexts, a.id = c.id ∧ a.frontier = c.frontier ∧
      a.operation = c.operation) : SourceInv db' where
  applicable x hx' d hd r hr hp hlt := by
    obtain ⟨a, ha, hid, hf, -⟩ := hctxs x hx'
    obtain ⟨b, hb, -, hf', -⟩ := hctxs d hd
    rw [← hf']
    rw [hx.events, mem_append, mem_singleton] at hr
    rcases hr with hr | rfl
    · exact h.applicable a ha b hb r hr (hid ▸ hp) (by omega)
    · exfalso
      rw [he, Payload.contextCheckpoint.injEq, ← hid] at hp
      cases hctx.rows.id_inj hc ha hp
      obtain ⟨l, hl⟩ := hctx.rows.eq_last_of_started hc hlive
      have hrows : ModelCallContext.Rows (l ++ [c]) := hl ▸ hctx.rows
      rw [hl, mem_append, mem_singleton] at hb
      rcases hb with hb | rfl
      · have := (hrows.leads_last b hb).precedes.frontier_le
        omega
      · omega
  sources d hd r hop := by
    obtain ⟨b, hb, -, hf, ho⟩ := hctxs d hd
    have heq := hx.summarizedThrough_eq [k] hcps
      (fun k' hk' a ha => by
        cases mem_singleton.1 hk'
        exact hk ▸ (houtc.no_event hctx.rows hc hlive ha).2) (hctx.frontier b hb)
    rw [← hf, heq]
    exact h.sources b hb r (ho ▸ hop)

/-- A call starts at a frontier that has contexts already, or at the end of the log. -/
theorem start (hlog : LogInv db) (houtc : OutcomeInv db)
    (hrows : ModelCallContext.Rows db.contexts) (h : SourceInv db) {b : ModelCallContext}
    (hid : b.id = db.contexts.length)
    (hfront : (∃ a ∈ db.contexts, a.frontier = b.frontier) ∨ b.frontier + 1 = db.nextEventSequence)
    (hsrc : ∀ e, b.operation = .compaction e → db.summarizedThrough b.frontier < e) :
    SourceInv { db with contexts := db.contexts ++ [b] } where
  applicable c hc d hd e he hp hlt := by
    have hold : c ∈ db.contexts := by
      rcases mem_append.1 hc with hc | hc
      · exact hc
      · -- the new context has no event
        exfalso
        cases mem_singleton.1 hc
        obtain ⟨a, ha, haid, -⟩ := houtc.exists_checkpoint he hp
        have hmem := mem_map_of_mem (f := ModelCallContext.id) ha
        rw [hrows.ids, mem_range, haid, hid] at hmem
        exact Nat.lt_irrefl _ hmem
    rcases mem_append.1 hd with hd | hd
    · exact h.applicable c hold d hd e he hp hlt
    · cases mem_singleton.1 hd
      rcases hfront with ⟨a, ha, hf⟩ | hlast
      · exact hf ▸ h.applicable c hold a ha e he hp (hf ▸ hlt)
      · have := (hlog.sequence_bounds he).2
        omega
  sources d hd e hop := by
    rcases mem_append.1 hd with hd | hd
    · exact h.sources d hd e hop
    · cases mem_singleton.1 hd
      exact hsrc e hop

end SourceInv

end Db

end Store
