import Mathlib.Logic.Relation
import Omnara.Store.Proof.Invariant

/-!
# Elementary changes

A transaction is a sequence of elementary changes (`Change`), each of which extends the log by its
events and dates what it adds with the time of the transaction (`Stamped`). The invariant is proved once
for each kind of change (`Effect.inv`, `QuietEffect.current`), and a transaction keeps it by being a path
of such changes (`Path.inv`, `QuietPath.current`).
-/

namespace Store

open List

namespace Db

variable {db db' : Db} {es : List AgentEvent} {now : Time} {c : ModelCallContext}

/-! ## Changes -/

structure SameTables (db db' : Db) : Prop where
  contexts : db'.contexts = db.contexts
  outputs : db'.outputs = db.outputs
  checkpoints : db'.checkpoints = db.checkpoints
  toolCalls : db'.toolCalls = db.toolCalls
  results : db'.results = db.results

/-- What one elementary write does to the tables when it adds the events `es`. -/
inductive Change (db db' : Db) (es : List AgentEvent) : Prop
  /-- Inputs, turns, lock and wakeup. -/
  | log (same : SameTables db db') (input : ∀ e ∈ es, ∃ i, e.payload = .agentInput i)
      (lock : db.NoLive ∨ db'.lock.map (·.id) = db.lock.map (·.id))
      (opening : ∀ e ∈ es, e.isOpening = true → db.NoLive ∧ db.NoOpen)
      (stop : ∀ e ∈ es, db'.isStop e = true → db.NoLive)
  /-- The call in flight ends without an outcome in the log. -/
  | finish (c : ModelCallContext) (state : ContextState) (hc : c ∈ db.contexts)
      (hlive : c.state = .started) (hes : es = [])
      (hstate : state = .canceled ∨ state.isRecoverable = true)
      (hretry : ∀ t, state = .failed (some (.retry t)) →
        c.attempt ≤ maxModelCallRetriesPerOperation)
      (heq : db' = db.setContextState c.id state)
  /-- The call in flight ends with an output and its tool calls. -/
  | output (c : ModelCallContext) (state : ContextState) (e : AgentEvent) (calls : List ToolCall)
      (hc : c ∈ db.contexts) (hlive : c.state = .started) (hes : es = [e])
      (he : e.payload = .modelOutput c.id) (hopen : e.isOpening = false)
      (hturn : some e.turn = db.turnAt c.frontier)
      (hstate : state = .failed none ∧ calls = [] ∨ state = .succeeded ∧ c.operation = .normal)
      (hcontexts : db'.contexts = (db.setContextState c.id state).contexts)
      (houtputs : db'.outputs.map (·.context) = db.outputs.map (·.context) ++ [c.id])
      (hcheckpoints : db'.checkpoints = db.checkpoints)
      (hcalls : db'.toolCalls = db.toolCalls ++ calls)
      (hids : calls.map (·.id) = List.range' db.toolCalls.length calls.length)
      (hnew : ∀ call ∈ calls, call.output = c.id ∧ call.state ≠ .completed)
      (hresults : db'.results = db.results)
  /-- The compaction in flight ends with a checkpoint. -/
  | checkpoint (c : ModelCallContext) (k : ContextCheckpoint) (e : AgentEvent)
      (hc : c ∈ db.contexts) (hlive : c.state = .started) (hes : es = [e])
      (he : e.payload = .contextCheckpoint c.id) (hopen : e.isOpening = false)
      (hk : k.context = c.id ∧ sourceEnd? c.operation = some k.summarizedThrough)
      (hcontexts : db'.contexts = (db.setContextState c.id .succeeded).contexts)
      (houtputs : db'.outputs = db.outputs) (hcheckpoints : db'.checkpoints = db.checkpoints ++ [k])
      (hcalls : db'.toolCalls = db.toolCalls) (hresults : db'.results = db.results)
  /-- A call starts. -/
  | start (b : ModelCallContext) (hes : es = []) (heq : db' = { db with contexts := db.contexts ++ [b] })
      (hid : b.id = db.contexts.length) (hlive : db.NoLive)
      (hfirst : db.contexts = [] → b.operation = .normal ∧ b.attempt = 1)
      (hfollows : ∀ a, db.contexts.getLast? = some a → a.Follows b)
      (hwf : b.WellFormed) (hstarted : b.state = .started)
      (hlock : db.lock.map (·.id) = some b.runtimeLock)
      (hturn : db.turnAt b.frontier = db.latestTurnId) (hstop : db.stopAfter b.frontier = false)
      (hfrontier : (∃ a ∈ db.contexts, a.frontier = b.frontier) ∨
        b.frontier + 1 = db.nextEventSequence ∧ db.NoOpen)
      (hsource : ∀ e, b.operation = .compaction e → db.summarizedThrough b.frontier < e)
  /-- An open tool call moves on, still open. -/
  | callState (id : Id) (state : ToolState) (hes : es = [])
      (hopen : ∀ call ∈ db.toolCalls, call.id = id → call.state ≠ .completed)
      (hstate : state ≠ .completed) (heq : db' = db.setCallState id state)
  /-- An open tool call gets its result. -/
  | complete (call : ToolCall) (e : AgentEvent) (hcall : call ∈ db.toolCalls)
      (hopen : call.state ≠ .completed) (hes : es = [e]) (he : e.payload = .toolResult call.id)
      (hnot : e.isOpening = false)
      (hcontexts : db'.contexts = db.contexts) (houtputs : db'.outputs = db.outputs)
      (hcheckpoints : db'.checkpoints = db.checkpoints)
      (hcalls : db'.toolCalls = (db.setCallState call.id .completed).toolCalls)
      (hresults : db'.results.map (·.call) = db.results.map (·.call) ++ [call.id])
      (hlock : db'.lock.map (·.id) = db.lock.map (·.id))

/-! ## Every change keeps the invariant -/

theorem ContextInv.columns_ended (h : ContextInv db) {state : ContextState}
    (hc : c ∈ db.contexts) (hlive : c.state = .started)
    (hctxs : db'.contexts = (db.setContextState c.id state).contexts) :
    ∀ x ∈ db'.contexts, ∃ a ∈ db.contexts, a.id = x.id ∧ a.frontier = x.frontier ∧
      a.operation = x.operation := by
  obtain ⟨l, hl, hset⟩ := h.rows_ended hc hlive state
  intro x hx
  rw [hctxs, hset, mem_append, mem_singleton] at hx
  rcases hx with hx | rfl
  · exact ⟨x, hl ▸ mem_append_left _ hx, rfl, rfl, rfl⟩
  · exact ⟨c, hc, rfl, rfl, rfl⟩

/-- A filter that drops the call in flight gains at most that call when it ends. -/
theorem ContextInv.filter_ended (h : ContextInv db) {state : ContextState}
    (hc : c ∈ db.contexts) (hlive : c.state = .started) {p : ModelCallContext → Bool}
    (hp : p c = false) : (db.setContextState c.id state).contexts.filter p =
      db.contexts.filter p ++ if p { c with state := state } then [{ c with state := state }] else [] := by
  obtain ⟨l, hl, hset⟩ := h.rows_ended hc hlive state
  rw [hset, hl, filter_append, filter_append, filter_singleton, filter_singleton, hp]
  simp

theorem publishes_of_started (hlive : c.state = .started) :
    c.publishesOutput = false ∧ c.publishesCheckpoint = false := by
  simp [ModelCallContext.publishesOutput, ModelCallContext.publishesCheckpoint, hlive]

/-- New rows carry the time of the transaction, and an archived agent stays archived. -/
structure Stamped (now : Time) (db db' : Db) (es : List AgentEvent) : Prop where
  archived : db.archived = true → db'.archived = true
  events : ∀ e ∈ es, e.createdAt = now
  results : ∀ r ∈ db'.results, r ∈ db.results ∨ r.completedAt = now
  checkpoints : ∀ k ∈ db'.checkpoints, k ∈ db.checkpoints ∨ k.createdAt = now

theorem Stamped.of_same (harchived : db'.archived = db.archived) (hresults : db'.results = db.results)
    (hcps : db'.checkpoints = db.checkpoints) (hes : ∀ e ∈ es, e.createdAt = now) :
    Stamped now db db' es :=
  ⟨fun h => harchived ▸ h, hes, fun _ hr => .inl (hresults ▸ hr), fun _ hk => .inl (hcps ▸ hk)⟩

/-- An elementary change of a transaction at the time `now`. -/
def Effect (now : Time) (db db' : Db) : Prop :=
  ∃ es, Extends db db' es ∧ Change db db' es ∧ Stamped now db db' es

theorem OutcomeInv.change (hx : Extends db db' es) (h : Inv db) (hch : Change db db' es) :
    OutcomeInv db' := by
  have hctx := h.context
  have hids (a b : ModelCallContext) (ha : a ∈ db.contexts) (hb : b ∈ db.contexts)
      (hab : a.id = b.id) : a.frontier = b.frontier := by rw [hctx.rows.id_inj ha hb hab]
  cases hch with
  | log same input =>
    refine h.outcome.frame hx (fun e he => ?_) same.outputs same.checkpoints (by rw [same.contexts])
      (by rw [same.contexts]) fun c hc a ha hid => hids a c ha (same.contexts ▸ hc) hid
    obtain ⟨i, hi⟩ := input e he
    simp [AgentEvent.output?, AgentEvent.checkpoint?, hi]
  | finish c state hc hlive hes hst _ heq =>
    have hpub := publishes_of_started hlive
    have hctxs : db'.contexts = (db.setContextState c.id state).contexts := heq ▸ rfl
    have hnot : ({ c with state := state } : ModelCallContext).publishesOutput = false ∧
        ({ c with state := state } : ModelCallContext).publishesCheckpoint = false := by
      rcases hst with rfl | hrec
      · simp [ModelCallContext.publishesOutput, ModelCallContext.publishesCheckpoint]
      · cases state <;> simp_all [ModelCallContext.publishesOutput,
          ModelCallContext.publishesCheckpoint, ContextState.isRecoverable]
        rintro rfl
        simp at hrec
    refine h.outcome.frame hx (by simp [hes]) (heq ▸ rfl) (heq ▸ rfl) ?_ ?_ fun x hx' a ha hid => ?_
    · rw [hctxs, hctx.filter_ended hc hlive hpub.1, hnot.1]
      simp
    · rw [hctxs, hctx.filter_ended hc hlive hpub.2, hnot.2]
      simp
    · obtain ⟨b, hb, hbid, hbf, -⟩ := hctx.columns_ended hc hlive hctxs x hx'
      rw [← hbf]
      exact hids a b ha hb (hid.trans hbid.symm)
  | output c state e calls hc hlive hes he _ _ hst hctxs houts hcps =>
    have hpub := publishes_of_started hlive
    subst hes
    refine ⟨?_, ?_, ?_, ?_, h.outcome.published_ended hx hctx hc hlive hctxs⟩
    · have hyes : ({ c with state := state } : ModelCallContext).publishesOutput = true := by
        rcases hst with ⟨rfl, -⟩ | ⟨rfl, hop⟩ <;> simp_all [ModelCallContext.publishesOutput]
      rw [houts, hctxs, hctx.filter_ended hc hlive hpub.1, hyes, h.outcome.outputs]
      simp
    · have hno : ({ c with state := state } : ModelCallContext).publishesCheckpoint = false := by
        rcases hst with ⟨rfl, -⟩ | ⟨rfl, hop⟩ <;> simp_all [ModelCallContext.publishesCheckpoint]
      rw [hcps, hctxs, hctx.filter_ended hc hlive hpub.2, hno, h.outcome.checkpoints]
      simp
    · rw [hx.filterMap_eq, h.outcome.outputEvents, houts]
      simp [AgentEvent.output?, he]
    · rw [hx.filterMap_eq_of_none (by simp [AgentEvent.checkpoint?, he]), hcps,
        h.outcome.checkpointEvents]
  | checkpoint c k e hc hlive hes he _ hk hctxs houts hcps =>
    have hpub := publishes_of_started hlive
    subst hes
    have hop : c.operation ≠ .normal := by
      intro hop
      simp [hop, sourceEnd?] at hk
    refine ⟨?_, ?_, ?_, ?_, h.outcome.published_ended hx hctx hc hlive hctxs⟩
    · have hno : ({ c with state := .succeeded } : ModelCallContext).publishesOutput = false := by
        simp [ModelCallContext.publishesOutput, hop]
      rw [houts, hctxs, hctx.filter_ended hc hlive hpub.1, hno, h.outcome.outputs]
      simp
    · have hyes : ({ c with state := .succeeded } : ModelCallContext).publishesCheckpoint = true := by
        simp [ModelCallContext.publishesCheckpoint, hop]
      rw [hcps, hctxs, hctx.filter_ended hc hlive hpub.2, hyes, map_append, h.outcome.checkpoints]
      simp [hk]
    · rw [hx.filterMap_eq_of_none (by simp [AgentEvent.output?, he]), houts, h.outcome.outputEvents]
    · rw [hx.filterMap_eq, h.outcome.checkpointEvents, hcps]
      simp [AgentEvent.checkpoint?, he, hk.1]
  | start b hes heq hid hnone _ _ _ hstd =>
    have hpub := publishes_of_started hstd
    subst heq
    refine h.outcome.frame hx (by simp [hes]) rfl rfl ?_ ?_ fun c hc a ha haid => ?_
    · simp [filter_append, hpub.1]
    · simp [filter_append, hpub.2]
    · rcases mem_append.1 hc with hc | hc
      · exact hids a c ha hc haid
      · exfalso
        have hmem := mem_map_of_mem (f := ModelCallContext.id) ha
        rw [hctx.rows.ids, mem_range, haid, mem_singleton.1 hc, hid] at hmem
        exact Nat.lt_irrefl _ hmem
  | callState id state hes _ _ heq =>
    subst heq
    exact h.outcome.frame hx (by simp [hes]) rfl rfl rfl rfl fun c hc a ha hid => hids a c ha hc hid
  | complete call e _ _ hes he _ hctxs houts hcps =>
    subst hes
    refine h.outcome.frame hx ?_ houts hcps (by rw [hctxs]) (by rw [hctxs])
      fun c hc a ha hid => hids a c ha (hctxs ▸ hc) hid
    simp [AgentEvent.output?, AgentEvent.checkpoint?, he]

theorem ContextInv.change (hx : Extends db db' es) (h : Inv db) (hch : Change db db' es) :
    ContextInv db' := by
  have hctx := h.context
  cases hch with
  | log same input lock opening stop =>
    refine hctx.frame hx h.log same.contexts ?_
    by_cases hnone : db.NoLive
    · exact .inl hnone
    · refine .inr ⟨lock.resolve_left hnone, fun e he => ?_, fun e he => ?_⟩
      · exact Bool.eq_false_iff.2 fun ho => hnone (opening e he ho).1
      · exact Bool.eq_false_iff.2 fun hs => hnone (stop e he hs)
  | finish c state hc hlive _ hst hretry heq =>
    refine hctx.ended hx hc hlive ?_ hretry (heq ▸ rfl)
    rintro rfl
    rcases hst with hs | hs
    · cases hs
    · simp [ContextState.isRecoverable] at hs
  | output c state e calls hc hlive _ _ _ _ hst hctxs =>
    refine hctx.ended hx hc hlive ?_ (fun t ht => ?_) hctxs
    · rcases hst with ⟨rfl, -⟩ | ⟨rfl, -⟩ <;> simp
    · rcases hst with ⟨hs, -⟩ | ⟨hs, -⟩ <;> simp [hs] at ht
  | checkpoint c k e hc hlive _ _ _ _ hctxs =>
    exact hctx.ended hx hc hlive (by simp) (by simp) hctxs
  | start b hes heq hid hnone hfst hfollows hwf _ hlock hturn hstop hfront =>
    subst heq
    refine hctx.started hid hnone hfst hfollows hwf hlock hturn hstop ?_
    rcases hfront with ⟨a, ha, hf⟩ | ⟨hlast, -⟩
    · exact hf ▸ hctx.frontier a ha
    · omega
  | callState id state hes _ _ heq =>
    exact hctx.frame hx h.log (heq ▸ rfl) (.inr ⟨heq ▸ rfl, by simp [hes], by simp [hes]⟩)
  | complete call e _ _ hes he hnot hctxs _ _ _ _ hlock =>
    subst hes
    refine hctx.frame hx h.log hctxs (.inr ⟨hlock, by simpa using hnot, ?_⟩)
    simp [isStop, he]

theorem BatchInv.change (hx : Extends db db' es) (h : Inv db) (hch : Change db db' es) :
    BatchInv db' := by
  have hctx := h.context
  -- a table of calls that did not change
  have hcallsSame : db'.toolCalls = db.toolCalls → ∀ call ∈ db'.toolCalls, ∃ old ∈ db.toolCalls,
      old.id = call.id ∧ old.output = call.output ∧
        (call.state = .completed ↔ old.state = .completed) :=
    fun heq call hcall => ⟨call, heq ▸ hcall, rfl, rfl, Iff.rfl⟩
  cases hch with
  | log same input =>
    refine h.batch.frame hx (fun e he => ?_) same.outputs same.results (by rw [same.toolCalls])
      (hcallsSame same.toolCalls) (fun c hc => .inl ⟨c, same.contexts ▸ hc, rfl⟩) h.log
    obtain ⟨i, hi⟩ := input e he
    simp [AgentEvent.output?, AgentEvent.result?, hi]
  | finish c state hc hlive hes _ _ heq =>
    have hctxs : db'.contexts = (db.setContextState c.id state).contexts := heq ▸ rfl
    refine h.batch.frame hx (by simp [hes]) (heq ▸ rfl) (heq ▸ rfl) (heq ▸ rfl)
      (hcallsSame (heq ▸ rfl)) (fun x hx' => ?_) h.log
    obtain ⟨a, ha, -, hf, -⟩ := hctx.columns_ended hc hlive hctxs x hx'
    exact .inl ⟨a, ha, hf⟩
  | output c state e calls hc hlive hes he _ _ _ hctxs houts _ hcalls hids hnew hresults =>
    subst hes
    refine h.batch.output hx hctx h.outcome.outputEvents
      (h.outcome.not_mem_outputs hctx.rows hc hlive) he houts hcalls hids hnew hresults
      fun x hx' => ?_
    obtain ⟨a, ha, -, hf, -⟩ := hctx.columns_ended hc hlive hctxs x hx'
    exact ⟨a, ha, hf⟩
  | checkpoint c k e hc hlive hes he _ _ hctxs houts _ hcalls hresults =>
    subst hes
    refine h.batch.frame hx (by simp [AgentEvent.output?, AgentEvent.result?, he]) houts hresults
      (by rw [hcalls]) (hcallsSame hcalls) (fun x hx' => ?_) h.log
    obtain ⟨a, ha, -, hf, -⟩ := hctx.columns_ended hc hlive hctxs x hx'
    exact .inl ⟨a, ha, hf⟩
  | start b hes heq _ _ _ _ _ _ _ _ _ hfront =>
    subst heq
    refine h.batch.frame hx (by simp [hes]) rfl rfl rfl (hcallsSame rfl) (fun c hc => ?_) h.log
    rcases mem_append.1 hc with hc | hc
    · exact .inl ⟨c, hc, rfl⟩
    · exact mem_singleton.1 hc ▸ hfront
  | callState id state hes hopen hst heq =>
    subst heq
    refine h.batch.frame hx (by simp [hes]) rfl rfl ?_ (fun call hcall => ?_)
      (fun c hc => .inl ⟨c, hc, rfl⟩) h.log
    · rw [setCallState, map_map]
      refine map_congr_left fun x _ => ?_
      simp only [Function.comp_apply]
      split <;> rfl
    · obtain ⟨old, hold, rfl⟩ := mem_map.1 hcall
      refine ⟨old, hold, ?_⟩
      split
      · exact ⟨rfl, rfl, iff_of_false hst (hopen old hold ‹_›)⟩
      · exact ⟨rfl, rfl, Iff.rfl⟩
  | complete call e hcall hopen hes he _ hctxs houts _ hcalls hresults =>
    subst hes
    exact h.batch.complete hx h.log hcall hopen he hctxs houts hcalls hresults

theorem SourceInv.change (hx : Extends db db' es) (h : Inv db) (hch : Change db db' es) :
    SourceInv db' := by
  have hctx := h.context
  have hsame : db'.contexts = db.contexts → ∀ c ∈ db'.contexts, ∃ a ∈ db.contexts,
      a.id = c.id ∧ a.frontier = c.frontier ∧ a.operation = c.operation :=
    fun heq c hc => ⟨c, heq ▸ hc, rfl, rfl, rfl⟩
  cases hch with
  | log same input =>
    refine h.source.frame hx hctx (fun e he => ?_) same.checkpoints (hsame same.contexts)
    obtain ⟨i, hi⟩ := input e he
    simp [AgentEvent.checkpoint?, hi]
  | finish c state hc hlive hes _ _ heq =>
    have hctxs : db'.contexts = (db.setContextState c.id state).contexts := heq ▸ rfl
    exact h.source.frame hx hctx (by simp [hes]) (heq ▸ rfl)
      (hctx.columns_ended hc hlive hctxs)
  | output c state e calls hc hlive hes he _ _ _ hctxs _ hcps =>
    subst hes
    exact h.source.frame hx hctx (by simp [AgentEvent.checkpoint?, he]) hcps
      (hctx.columns_ended hc hlive hctxs)
  | checkpoint c k e hc hlive hes he _ hk hctxs _ hcps =>
    subst hes
    exact h.source.checkpoint hx hctx h.outcome hc hlive he hk.1 hcps
      (hctx.columns_ended hc hlive hctxs)
  | start b hes heq hid _ _ _ _ _ _ _ _ hfront hsrc =>
    subst heq
    exact h.source.start h.log h.outcome hctx.rows hid (hfront.imp id And.left) hsrc
  | callState id state hes _ _ heq =>
    exact h.source.frame hx hctx (by simp [hes]) (heq ▸ rfl) (hsame (heq ▸ rfl))
  | complete call e _ _ hes he _ hctxs _ hcps =>
    subst hes
    exact h.source.frame hx hctx (by simp [AgentEvent.checkpoint?, he]) hcps
      (hsame hctxs)

theorem Effect.inv (heff : Effect now db db') (h : Inv db) : Inv db' := by
  obtain ⟨es, hx, hch, -⟩ := heff
  exact ⟨hx.logInv h.log, .change hx h hch, .change hx h hch, .change hx h hch, .change hx h hch⟩

/-! ## Open calls stay current -/

def QuietEffect (now : Time) (db db' : Db) : Prop :=
  ∃ es, Extends db db' es ∧ Change db db' es ∧ (∀ e ∈ es, db'.isStop e = false) ∧
    Stamped now db db' es

theorem QuietEffect.effect (h : QuietEffect now db db') : Effect now db db' := by
  obtain ⟨es, hx, hch, -, hstamped⟩ := h
  exact ⟨es, hx, hch, hstamped⟩

theorem Current.frame (hx : Extends db db' es) (hlog : LogInv db) (h : Current db)
    (hes : ∀ e ∈ es, e.output? = none) (hopen : db.NoOpen ∨ ∀ e ∈ es, e.isOpening = false)
    (hstop : ∀ e ∈ es, db'.isStop e = false)
    (hcalls : ∀ call ∈ db'.toolCalls, call.state ≠ .completed → ∃ old ∈ db.toolCalls,
      old.output = call.output ∧ old.state ≠ .completed) : Current db' := by
  intro call hcall hne e he hp
  obtain ⟨old, hold, ho, hne'⟩ := hcalls call hcall hne
  rw [← ho] at hp
  obtain ⟨h₁, h₂⟩ := h old hold hne' e (hx.mem_old hes he (AgentEvent.output?_eq_some.2 hp)) hp
  rcases hopen with hnone | hopen
  · exact absurd (hnone old hold) hne'
  · exact ⟨hx.latestTurnId_eq hlog hopen ▸ h₁, hx.not_stopAfter h₂ hstop⟩

theorem QuietEffect.current (heff : QuietEffect now db db') (h : Inv db) (hcur : Current db) :
    Current db' := by
  obtain ⟨es, hx, hch, hstop, -⟩ := heff
  have hsame : db'.toolCalls = db.toolCalls → ∀ call ∈ db'.toolCalls, call.state ≠ .completed →
      ∃ old ∈ db.toolCalls, old.output = call.output ∧ old.state ≠ .completed :=
    fun heq call hcall hne => ⟨call, heq ▸ hcall, rfl, hne⟩
  cases hch with
  | log same input _ opening =>
    refine hcur.frame hx h.log (fun e he => ?_) ?_ hstop (hsame same.toolCalls)
    · obtain ⟨i, hi⟩ := input e he
      simp [AgentEvent.output?, hi]
    · by_cases hnone : db.NoOpen
      · exact .inl hnone
      · exact .inr fun e he => Bool.eq_false_iff.2 fun ho => hnone (opening e he ho).2
  | finish c state _ _ hes _ _ heq =>
    exact hcur.frame hx h.log (by simp [hes]) (.inr (by simp [hes])) hstop (hsame (heq ▸ rfl))
  | output c state e calls hc hlive hes he hopen hturn _ _ _ _ hcalls _ hnew =>
    subst hes
    intro call hcall hne a ha hp
    rw [hcalls, mem_append] at hcall
    have hlatest := hx.latestTurnId_eq h.log (by simpa using hopen)
    rcases hcall with hcall | hcall
    · -- the source of an old call is an old event
      have ha' : a ∈ db.events := by
        rw [hx.events, mem_append, mem_singleton] at ha
        rcases ha with ha | rfl
        · exact ha
        · rw [he, Payload.modelOutput.injEq] at hp
          exact absurd (hp ▸ h.batch.source call hcall)
            (h.outcome.not_mem_outputs h.context.rows hc hlive)
      obtain ⟨h₁, h₂⟩ := hcur call hcall hne a ha' hp
      exact ⟨hlatest ▸ h₁, hx.not_stopAfter h₂ hstop⟩
    · -- the source of a new call is the output in the turn of the frontier, the latest one
      rw [(hnew call hcall).1] at hp
      rw [hx.events, mem_append, mem_singleton] at ha
      rcases ha with ha | rfl
      · exact absurd hp (h.outcome.no_event h.context.rows hc hlive ha).1
      · have hbds := hx.sequence_bounds (mem_singleton_self a)
        refine ⟨?_, (hx.logInv h.log).not_stopAfter_last ?_⟩
        · rw [hlatest, hturn, (h.context.live c hc hlive).2.1]
        · rw [hx.next, length_singleton]
          omega
  | checkpoint c k e _ _ hes he hopen _ _ _ _ hcalls =>
    subst hes
    exact hcur.frame hx h.log (by simp [AgentEvent.output?, he]) (.inr (by simpa using hopen)) hstop
      (hsame hcalls)
  | start b hes heq =>
    subst heq
    exact hcur.frame hx h.log (by simp [hes]) (.inr (by simp [hes])) hstop (hsame rfl)
  | callState id state hes hopen _ heq =>
    subst heq
    refine hcur.frame hx h.log (by simp [hes]) (.inr (by simp [hes])) hstop fun call hcall hne => ?_
    obtain ⟨old, hold, rfl⟩ := mem_map.1 hcall
    refine ⟨old, hold, ?_⟩
    split
    · exact ⟨rfl, hopen old hold ‹_›⟩
    · rename_i hid
      rw [if_neg hid] at hne
      exact ⟨rfl, hne⟩
  | complete call e _ _ hes he hnot _ _ _ hcalls =>
    subst hes
    refine hcur.frame hx h.log (by simp [AgentEvent.output?, he]) (.inr (by simpa using hnot)) hstop
      fun x hx' hne => ?_
    rw [hcalls] at hx'
    obtain ⟨old, hold, rfl⟩ := mem_map.1 hx'
    refine ⟨old, hold, ?_⟩
    split at hne
    · exact absurd rfl hne
    · rename_i hid
      exact ⟨by rw [if_neg hid], hne⟩

/-! ## Paths -/

abbrev Path (now : Time) : Db → Db → Prop := Relation.ReflTransGen (Effect now)

abbrev QuietPath (now : Time) : Db → Db → Prop := Relation.ReflTransGen (QuietEffect now)

theorem QuietPath.path (h : QuietPath now db db') : Path now db db' := by
  induction h with
  | refl => exact .refl
  | tail _ heff ih => exact ih.tail heff.effect

theorem Path.inv (hpath : Path now db db') (h : Inv db) : Inv db' := by
  induction hpath with
  | refl => exact h
  | tail _ heff ih => exact heff.inv ih

theorem Path.archived (hpath : Path now db db') (h : db.archived = true) : db'.archived = true := by
  induction hpath with
  | refl => exact h
  | tail _ heff ih =>
    obtain ⟨es, -, -, hstamped⟩ := heff
    exact hstamped.archived ih

theorem QuietPath.current (hpath : QuietPath now db db') (h : Inv db) (hcur : Current db) :
    Current db' := by
  induction hpath with
  | refl => exact hcur
  | tail hpath heff ih => exact heff.current (Path.inv (QuietPath.path hpath) h) ih

end Db

end Store
