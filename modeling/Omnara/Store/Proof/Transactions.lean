import Omnara.Store.Proof.Wakeup
import Omnara.Store.Proof.Write

/-!
# Transactions on tool calls, inputs, configs and work

Each transaction is a path of elementary changes. The conditions of a change come from the guards of
the transaction and the invariant before it:

* a turn is opened, or a normal call started, only when the batch is complete, and then no tool call
  is open at all (`noOpen_of_complete`);
* a turn is opened only when no model call is in flight: under a fresh lock, after the call has ended,
  or when nothing can be continued (`quiescent`);
* another attempt follows the last context (`eq_last_of_continuable`).
-/

namespace Store

open List

namespace Db

variable {db db' : Db} {now : Time}

variable {id lock : Id} {c : ModelCallContext} {canceled : List (Id × Resolution)} {lease : Time}

/-! ## What the guards say -/

theorem mem_of_call? {call : ToolCall} (h : db.call? id = some call) :
    call ∈ db.toolCalls ∧ call.id = id :=
  ⟨mem_of_find?_eq_some h, by simpa using List.find?_some h⟩

theorem mem_of_context? (h : db.context? id = some c) : c ∈ db.contexts ∧ c.id = id :=
  ⟨mem_of_find?_eq_some h, by simpa using List.find?_some h⟩

theorem exists_source (h : Inv db) {call : ToolCall} (hcall : call ∈ db.toolCalls) :
    ∃ e ∈ db.events, e.payload = .modelOutput call.output := by
  have hmem := h.batch.source call hcall
  rw [← h.outcome.outputEvents] at hmem
  obtain ⟨e, he, hp⟩ := mem_filterMap.1 hmem
  exact ⟨e, he, AgentEvent.output?_eq_some.1 hp⟩

/-- The guard looks at the latest turn only, but there are no open calls elsewhere. -/
theorem noOpen_of_complete (h : Inv db) (hcur : Current db)
    (hbatch : db.hasIncompleteToolBatch = false) : db.NoOpen := by
  intro call hcall
  by_contra hopen
  obtain ⟨e, he, hp⟩ := exists_source h hcall
  obtain ⟨hturn, hstop⟩ := hcur call hcall hopen e he hp
  rw [hasIncompleteToolBatch, any_eq_false] at hbatch
  refine hbatch (call, e) ?_ (by simpa using hopen)
  refine mem_flatMap.2 ⟨call, hcall, mem_filterMap.2 ⟨e, ?_, ?_⟩⟩
  · exact mem_filter.2 ⟨he, by simpa using hp⟩
  · simp [hturn, hstop]

theorem lock_of_any {p : RuntimeLock → Bool} (h : db.lock.any p = true)
    (hp : ∀ l, p l = true → l.id = lock) : db.lock.map (·.id) = some lock := by
  cases hl : db.lock with
  | none => simp [hl] at h
  | some l => rw [Option.map_some, hp l (by simpa [hl] using h)]

theorem lock_of_lockActive (h : db.lockActive lock now = true) : db.lock.map (·.id) = some lock := by
  simp only [lockActive, Bool.and_eq_true] at h
  exact lock_of_any h.2 (by simp +contextual)

/-! ## Tool calls -/

section
variable (h : Inv db)
include h

theorem QuietPath.changeCall {allowed : ToolCall → Bool} {state : ToolState}
    (hallowed : ∀ call, allowed call = true → call.state ≠ .completed) (hst : state ≠ .completed)
    (hc : db.changeCall lock id allowed state now = some db') :
    QuietPath now db db' := by
  simp only [Db.changeCall, bind_eq_some, require_eq_some, pure_eq_some] at hc
  obtain ⟨-, -, call, hcall, -, hall, rfl⟩ := hc
  obtain ⟨hmem, rfl⟩ := mem_of_call? hcall
  exact .single (.setCallState h hmem (hallowed call hall) hst)

theorem QuietPath.completeCallIf {allowed : ToolCall → Bool}
    (hallowed : ∀ call, allowed call = true → call.state ≠ .completed)
    (hc : db.completeCallIf id allowed now = some db') : QuietPath now db db' := by
  simp only [Db.completeCallIf, bind_eq_some, require_eq_some] at hc
  obtain ⟨call, hcall, -, hall, hc⟩ := hc
  exact .single (.completeCall h (mem_of_call? hcall).1 (hallowed call hall) hc)

theorem QuietPath.andThen {db₁ : Db} (hpath : QuietPath now db db₁)
    (hnext : Inv db₁ → QuietPath now db₁ db') : QuietPath now db db' :=
  hpath.trans (hnext (Path.inv (QuietPath.path hpath) h))

theorem QuietPath.mark (hpath : QuietPath now db db') : QuietPath now db (db'.markWakeup now) :=
  .andThen h hpath fun h' => .single (.markWakeup h' now)

theorem QuietPath.reconcile (hpath : QuietPath now db db') :
    QuietPath now db (db'.reconcileWakeup now) :=
  .andThen h hpath fun h' => .single (.reconcileWakeup h' now)

theorem QuietPath.requeueRuntimeToolCall (hc : db.requeueRuntimeToolCall lock id now = some db') :
    QuietPath now db db' := by
  simp only [Db.requeueRuntimeToolCall, bind_eq_some, pure_eq_some] at hc
  obtain ⟨db₁, h₁, rfl⟩ := hc
  exact .mark h (.changeCall h (by simp +contextual) (by simp) h₁)

theorem QuietPath.replayRequeue (hc : db.replayRequeue lock id now = some db') :
    QuietPath now db db' := by
  simp only [Db.replayRequeue, bind_eq_some, pure_eq_some] at hc
  obtain ⟨-, -, call, -, -, -, rfl⟩ := hc
  exact .mark h .refl

theorem QuietPath.completeToolCall {negative : Bool}
    (hc : db.completeToolCall lock id negative now = some db') : QuietPath now db db' := by
  simp only [Db.completeToolCall, bind_eq_some] at hc
  obtain ⟨-, -, hc⟩ := hc
  refine .completeCallIf h (fun call hall hs => ?_) hc
  simp [hs] at hall

theorem QuietPath.completeRuntimeToolCall (hc : db.completeRuntimeToolCall lock id now = some db') :
    QuietPath now db db' := by
  simp only [Db.completeRuntimeToolCall, bind_eq_some, pure_eq_some] at hc
  obtain ⟨-, -, db₁, h₁, rfl⟩ := hc
  exact .mark h (.completeCallIf h (by simp +contextual) h₁)

theorem QuietPath.completeCustomToolCall (hc : db.completeCustomToolCall id now = some db') :
    QuietPath now db db' := by
  simp only [Db.completeCustomToolCall, bind_eq_some, pure_eq_some] at hc
  obtain ⟨db₁, h₁, rfl⟩ := hc
  exact .mark h (.completeCallIf h (by simp +contextual) h₁)

theorem QuietPath.completeWaitingToolCall (hc : db.completeWaitingToolCall id now = some db') :
    QuietPath now db db' := by
  simp only [Db.completeWaitingToolCall, bind_eq_some, pure_eq_some] at hc
  obtain ⟨db₁, h₁, rfl⟩ := hc
  exact .mark h (.completeCallIf h (by simp +contextual) h₁)

theorem QuietPath.completeWaitingToolCalls {ids : List Id}
    (hc : db.completeWaitingToolCalls now ids = some db') : QuietPath now db db' := by
  induction ids generalizing db with
  | nil =>
    cases hc
    exact .refl
  | cons id ids ih =>
    simp only [Db.completeWaitingToolCalls, bind_eq_some] at hc
    obtain ⟨db₁, h₁, hrest⟩ := hc
    exact .andThen h (.completeWaitingToolCall h h₁) fun h' => ih h' hrest

theorem QuietPath.applyResolution {resolution : Resolution}
    (hc : db.applyResolution id now resolution = some db') : QuietPath now db db' := by
  cases resolution with
  | allow =>
    simp only [Db.applyResolution, bind_eq_some, require_eq_some, pure_eq_some] at hc
    obtain ⟨call, hcall, -, hst, rfl⟩ := hc
    obtain ⟨hmem, rfl⟩ := mem_of_call? hcall
    exact .single (.setCallState h hmem (by simp [hst]) (by simp))
  | deny => exact .completeCallIf h (by simp +contextual) hc
  | answer =>
    refine .completeCallIf h (fun call hall hs => ?_) hc
    simp [hs] at hall

theorem QuietPath.cancelInteractionsOf {turn : Id}
    (hc : cancelInteractionsOf turn now db canceled = some db') : QuietPath now db db' := by
  induction canceled generalizing db with
  | nil =>
    cases hc
    exact .refl
  | cons x canceled ih =>
    simp only [Db.cancelInteractionsOf, bind_eq_some] at hc
    obtain ⟨-, -, -, -, db₁, h₁, hrest⟩ := hc
    exact .andThen h (.applyResolution h h₁) fun h' => ih h' hrest

theorem QuietPath.cancelOpenInteractions (hc : db.cancelOpenInteractions canceled now = some db') :
    QuietPath now db db' := by
  unfold Db.cancelOpenInteractions at hc
  split at hc
  · cases hc
    exact .refl
  · exact .cancelInteractionsOf h hc

theorem QuietPath.resolveAgentInteraction {resolution : Resolution}
    (hc : db.resolveAgentInteraction id resolution now = some db') : QuietPath now db db' := by
  simp only [Db.resolveAgentInteraction, bind_eq_some, pure_eq_some] at hc
  obtain ⟨call, -, source, -, -, -, responded, hresp, resolved, hres, rfl⟩ := hc
  exact .mark h (.andThen h (.respond h (by simp) hresp) fun h' => .applyResolution h' hres)

theorem QuietPath.replayResolution {answered : Option Id}
    (hc : db.replayResolution answered now = some db') : QuietPath now db db' := by
  cases answered with
  | none =>
    cases hc
    exact .mark h .refl
  | some =>
    simp only [Db.replayResolution, bind_eq_some, pure_eq_some] at hc
    obtain ⟨db₁, h₁, rfl⟩ := hc
    exact .mark h (.applyResolution h h₁)

/-! ## Inputs -/

theorem QuietPath.createContentInput {mode : DeliveryMode}
    (hc : db.createContentInput mode canceled now = some db') : QuietPath now db db' := by
  simp only [Db.createContentInput, bind_eq_some, pure_eq_some] at hc
  obtain ⟨-, -, db₁, h₁, rfl⟩ := hc
  have heff : QuietEffect now db
      { db with inputs := insertAgentInput db.freshInput mode now db.inputs } := .insertInput h.log rfl
  exact .reconcile h (.andThen h (.single heff) fun h' => .cancelOpenInteractions h' h₁)

theorem QuietPath.changeInputs {f : List AgentInput → Option (List AgentInput)}
    (hf : ∀ rows, f db.inputs = some rows → QuietEffect now db { db with inputs := rows })
    (hc : db.changeInputs f now = some db') : QuietPath now db db' := by
  simp only [Db.changeInputs, bind_eq_some, pure_eq_some] at hc
  obtain ⟨rows, hrows, rfl⟩ := hc
  exact .reconcile h (.single (hf rows hrows))

theorem QuietPath.promoteInput (hc : db.promoteInput id canceled now = some db') :
    QuietPath now db db' := by
  simp only [Db.promoteInput, bind_eq_some, pure_eq_some] at hc
  obtain ⟨rows, hrows, db₁, h₁, rfl⟩ := hc
  have heff : QuietEffect now db { db with inputs := rows } := .changeDeliveryMode h.log hrows
  exact .reconcile h (.andThen h (.single heff) fun h' => .cancelOpenInteractions h' h₁)

theorem QuietPath.moveInput {position : MovePosition} (hc : db.moveInput id position = some db') :
    QuietPath now db db' := by
  simp only [Db.moveInput, bind_eq_some, pure_eq_some] at hc
  obtain ⟨rows, hrows, rfl⟩ := hc
  exact .move h hrows

end

/-! ## Model calls: what can be continued -/

theorem precedes_of_supersedes {newer : ModelCallContext} (h : supersedes newer c = true) :
    c.Precedes newer := by
  simp only [supersedes, Bool.and_eq_true, decide_eq_true_eq] at h
  obtain ⟨hf, h⟩ := h
  refine .inr ⟨hf.symm, ?_⟩
  cases hn : newer.operation <;> cases hc : c.operation <;>
    simp_all [Operation.Before, Bool.or_eq_true, Bool.and_eq_true]
  omega

theorem continuable_of_live (h : Inv db) (hc : c ∈ db.contexts)
    (hlive : c.state = .started) : db.isContinuable c = true := by
  obtain ⟨l, hl⟩ := h.context.rows.eq_last_of_started hc hlive
  have hrows : ModelCallContext.Rows (l ++ [c]) := hl ▸ h.context.rows
  have hlast (x : ModelCallContext) (hx : x ∈ db.contexts) : ¬ c.Precedes x :=
    hrows.not_precedes_of_last (hl ▸ hx)
  obtain ⟨-, hturn, hstop⟩ := h.context.live c hc hlive
  have hsome : (db.turnAt c.frontier).isSome = true := by simp [hturn, h.log.latestTurnId_eq]
  have hnewer : (db.contexts.any fun newer => supersedes newer c) = false :=
    any_eq_false.2 fun x hx hs => hlast x hx (precedes_of_supersedes hs)
  have hlater : (db.contexts.any fun later => later.operation = .normal &&
      c.frontier < later.frontier && db.turnAt later.frontier = db.turnAt c.frontier) = false := by
    refine any_eq_false.2 fun x hx hs => hlast x hx ?_
    simp only [Bool.and_eq_true, decide_eq_true_eq] at hs
    exact .inl hs.1.2
  have hdependency : c.operation = .normal → (db.contexts.any fun dependency =>
      dependency.operation ≠ .normal && dependency.frontier = c.frontier) = false := by
    intro hop
    refine any_eq_false.2 fun x hx hs => hlast x hx ?_
    simp only [Bool.and_eq_true, decide_eq_true_eq] at hs
    refine .inr ⟨hs.2.symm, .inl ?_⟩
    cases hx' : x.operation with
    | normal => exact absurd hx' hs.1
    | compaction => simp [hop, Operation.Before]
  have hor : (c.operation ≠ .normal || !(db.contexts.any fun dependency =>
      dependency.operation ≠ .normal && dependency.frontier = c.frontier)) = true := by
    by_cases hop : c.operation = .normal
    · simp only [hdependency hop]
      simp
    · simp [hop]
  simp only [isContinuable, Bool.and_eq_true, Bool.not_eq_true']
  exact ⟨⟨⟨⟨⟨⟨hsome, by simpa using hturn⟩, by simp [hlive, isContinuableState]⟩, hnewer⟩, hlater⟩,
    hor⟩, hstop⟩

/-- When nothing can be continued, no model call is in flight and the batch is complete. -/
theorem quiescent (h : Inv db) (hturn : db.currentContinuableTurn = none) :
    db.NoLive ∧ db.hasIncompleteToolBatch = false := by
  unfold currentContinuableTurn at hturn
  rw [h.log.latestTurnId_eq] at hturn
  simp only [ite_eq_right_iff, reduceCtorEq, imp_false, Bool.or_eq_true, decide_eq_true_eq,
    not_or] at hturn
  refine ⟨fun c hc hlive => hturn.1.1 fun hnil => ?_, by simpa using hturn.1.2⟩
  have hmem : c ∈ db.continuableContexts := mem_filter.2 ⟨hc, continuable_of_live h hc hlive⟩
  rw [hnil] at hmem
  cases hmem

/-- A context that waits for its retry and can be continued is the last one. -/
theorem eq_last_of_continuable (h : Inv db) {p : ModelCallContext} (hp : p ∈ db.contexts)
    {t : Time} (hst : p.state = .failed (some (.retry t))) (hcont : db.isContinuable p = true) :
    ∃ l, db.contexts = l ++ [p] := by
  obtain ⟨l, r, hl⟩ := append_of_mem hp
  cases r with
  | nil => exact ⟨l, hl⟩
  | cons q =>
    exfalso
    simp only [isContinuable, Bool.and_eq_true, decide_eq_true_eq, Bool.not_eq_true'] at hcont
    obtain ⟨⟨⟨⟨⟨⟨-, hturn⟩, -⟩, hnewer⟩, hlater⟩, -⟩, -⟩ := hcont
    have hq : q ∈ db.contexts := by simp [hl]
    have hchain := (isChain_append.1 (hl ▸ h.context.rows.chain)).2.1
    have hpq : p.Follows q := (isChain_cons_cons.1 hchain).1
    cases hpq with
    | fresh hop _ hlt =>
      -- the later normal call sees the same turn, since that is the latest
      have hsame := h.log.turnAt_later hturn (Nat.le_of_lt hlt)
      exact (any_eq_false.1 hlater) q hq (by simp [hop, hlt, hsame, hturn])
    | retry _ _ hop hf hnext =>
      refine (any_eq_false.1 hnewer) q hq ?_
      cases hpop : p.operation <;> simp [supersedes, hop, hf, hpop, hnext]
    | compact _ _ hs => simp [hst] at hs
    | reduce _ _ _ hs => simp [hst] at hs

/-! ## Config changes -/

theorem QuietPath.changeAgentConfig (h : Inv db) (hcur : Current db)
    (hc : db.changeAgentConfig now = some db') : QuietPath now db db' := by
  simp only [Db.changeAgentConfig, bind_eq_some, pure_eq_some] at hc
  obtain ⟨db₁, h₁, rfl⟩ := hc
  refine .reconcile h ?_
  have hins : QuietEffect now db (db.insertResolvedInput .configChange now) := .insertInput h.log rfl
  have hinv := hins.effect.inv h
  unfold appendToCurrentOrNewTurn at h₁
  split at h₁
  · exact .respond h (by simp) h₁
  · cases h₁
    obtain ⟨hlive, hbatch⟩ := quiescent hinv ‹_›
    have hopen := noOpen_of_complete hinv (hins.current h hcur) hbatch
    exact .openWithConfig h hlive hopen now

/-! ## The work claim -/

theorem mem_receivedContent {mode : DeliveryMode} {i : AgentInput} (hi : i ∈ db.receivedContent mode) :
    i ∈ db.inputs ∧ i.state = .received ∧ i.kind = .content ∧ i.mode = mode := by
  obtain ⟨hmem, hi⟩ := mem_filter.1 hi
  simp only [Bool.and_eq_true, decide_eq_true_eq] at hi
  exact ⟨hmem, hi.1.1, hi.2, hi.1.2⟩

/-- What `admitLockedAgentInputsAndOpenTurnTx` asks of the inputs it is given. -/
structure Admissible (db : Db) (inputs : List AgentInput) : Prop where
  nonempty : inputs ≠ []
  single : inputs.length ≤ 1 ∨ ∀ i ∈ inputs, i.mode = .steering
  received : ∀ i ∈ inputs, i ∈ db.inputs ∧ i.state = .received ∧ i.kind = .content

theorem admissible_steering (hbatch : db.hasIncompleteToolBatch = false)
    (hne : db.steeringForAdmission ≠ []) : Admissible db db.steeringForAdmission := by
  have hmem (i : AgentInput) (hi : i ∈ db.steeringForAdmission) : i ∈ db.receivedContent .steering := by
    rw [steeringForAdmission, hbatch] at hi
    exact (mem_insertionSort _).1 hi
  refine ⟨hne, .inr fun i hi => (mem_receivedContent (hmem i hi)).2.2.2, fun i hi => ?_⟩
  obtain ⟨hin, hst, hkind, -⟩ := mem_receivedContent (hmem i hi)
  exact ⟨hin, hst, hkind⟩

theorem admissible_queued (hne : db.queuedForAdmission ≠ []) : Admissible db db.queuedForAdmission := by
  refine ⟨hne, .inl ?_, fun i hi => ?_⟩
  · rw [queuedForAdmission]
    cases ((db.receivedContent .queued).insertionSort AgentInput.Before).head? <;> simp
  · rw [queuedForAdmission, Option.mem_toList] at hi
    have hmem := (mem_insertionSort _).1 (mem_of_mem_head? hi)
    obtain ⟨hin, hst, hkind, -⟩ := mem_receivedContent hmem
    exact ⟨hin, hst, hkind⟩

theorem Admissible.content {inputs : List AgentInput} (h : Admissible db inputs) (i : AgentInput)
    (hi : i ∈ inputs) : i ∈ db.inputs ∧ i.kind ≠ .control := by
  obtain ⟨hmem, -, hkind⟩ := h.received i hi
  exact ⟨hmem, by simp [hkind]⟩

theorem selectWork_admitInputs {inputs : List AgentInput}
    (h : db.selectWork now = .ok (.admitInputs inputs)) :
    db.hasIncompleteToolBatch = false ∧ Admissible db inputs := by
  unfold selectWork at h
  split at h
  · cases h
  · cases h
  · split at h
    · split at h <;> cases h
    · have hbatch : db.hasIncompleteToolBatch = false := Bool.eq_false_iff.2 ‹_›
      refine ⟨hbatch, ?_⟩
      split at h
      · cases h
        exact admissible_steering hbatch ‹_›
      · split at h
        · split at h <;> cases h
        · split at h
          · cases h
          · cases h
            exact admissible_queued ‹_›

theorem QuietEffect.takeWork (h : Inv db)
    (hc : db.takeWork lock lease now = some db') : QuietEffect now db db' := by
  simp only [Db.takeWork, acquireRuntimeLock, bind_eq_some, require_eq_some, pure_eq_some] at hc
  obtain ⟨db₁, ⟨-, hguard, rfl⟩, rfl⟩ := hc
  exact .bookkeeping h.log rfl rfl rfl rfl ⟨rfl, rfl, rfl, rfl, rfl⟩ id
    (.inl (h.noLive_of_unlocked hguard.2))

theorem QuietEffect.renewRuntimeLock (h : Inv db)
    (hc : db.renewRuntimeLock lock lease now = some db') : QuietEffect now db db' := by
  simp only [Db.renewRuntimeLock, bind_eq_some, require_eq_some, pure_eq_some] at hc
  obtain ⟨held, hheld, -, -, rfl⟩ := hc
  exact .bookkeeping h.log rfl rfl rfl rfl ⟨rfl, rfl, rfl, rfl, rfl⟩ id (.inr (by simp [hheld]))

theorem QuietPath.claimNextAgentWork (h : Inv db) (hcur : Current db)
    (hc : db.claimNextAgentWork lock lease now = some db') : QuietPath now db db' := by
  simp only [Db.claimNextAgentWork, bind_eq_some, require_eq_some] at hc
  obtain ⟨-, ⟨-, hlock, -⟩, selection, hsel, hc⟩ := hc
  have hsel : db.selectWork now = .ok selection := by
    cases hs : db.selectWork now with
    | error => simp [hs, Except.toOption] at hsel
    | ok =>
      simp only [hs, Except.toOption, Option.some.injEq] at hsel
      rw [hsel]
  cases selection with
  | toolBatchWait | modelRetryWait | idle =>
    cases hc
    exact .reconcile h .refl
  | tool =>
    simp only [claimSelected, bind_eq_some] at hc
    obtain ⟨taken, htake, hrenew⟩ := hc
    exact .andThen h (.single (.takeWork h htake)) fun h' => .single (.renewRuntimeLock h' hrenew)
  | model =>
    simp only [claimSelected, bind_eq_some] at hc
    obtain ⟨taken, htake, -, -, hrenew⟩ := hc
    exact .andThen h (.single (.takeWork h htake)) fun h' => .single (.renewRuntimeLock h' hrenew)
  | admitInputs =>
    simp only [claimSelected, bind_eq_some] at hc
    obtain ⟨taken, htake, admitted, hadmit, -, -, hrenew⟩ := hc
    obtain ⟨hbatch, hinps⟩ := selectWork_admitInputs hsel
    have hlive := h.noLive_of_unlocked hlock
    have hopen := noOpen_of_complete h hcur hbatch
    refine .andThen h (.andThen h (.single (.takeWork h htake)) fun h' => ?_) fun h' =>
      .single (.renewRuntimeLock h' hrenew)
    -- taking the lock touches no row that the admission reads
    simp only [Db.takeWork, acquireRuntimeLock, bind_eq_some, require_eq_some, pure_eq_some] at htake
    obtain ⟨db₁, ⟨-, -, rfl⟩, rfl⟩ := htake
    exact .admitAndOpenTurn h' hlive hopen hinps.content hadmit

end Db

end Store
