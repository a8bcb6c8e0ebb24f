import Omnara.Store.Proof.ModelCallTransactions

/-!
# The invariant in every state of every history

The transactions left over are those that end the work of a runtime: the release and the reaping of a
lock, the cancellation and the archiving of the agent. A cancellation appends its stop before it
completes the calls of the stopped turn. In between `Current` does not hold; after it no call is open
(`noOpen_of_canceled`).

`reachable_inv` is the result.
-/

namespace Store

open List

namespace Db

variable {db db' : Db} {now : Time} {lock turn : Id}

/-! ## What the end of a runtime leaves alone -/

theorem QuietPath.kept (h : Inv db) (hcur : Current db) (hpath : QuietPath now db db') :
    Path now db db' ∧ Current db' :=
  ⟨QuietPath.path hpath, QuietPath.current hpath h hcur⟩

theorem NoLive.of_contexts (h : db.NoLive) (hctxs : db'.contexts = db.contexts) : db'.NoLive :=
  fun c hc => h c (hctxs ▸ hc)

theorem NoOpen.current (h : db.NoOpen) : Current db := fun call hcall hopen =>
  absurd (h call hcall) hopen

/-! ## Release and reaping -/

section
variable (h : Inv db)
include h

theorem nodup_ids_of_sublist {calls : List ToolCall} (hsub : calls.Sublist db.toolCalls) :
    (calls.map (·.id)).Nodup := by
  refine (hsub.map _).nodup ?_
  rw [h.batch.calls]
  exact nodup_range

theorem QuietPath.failRuntimeToolCalls (hc : db.failRuntimeToolCalls lock now = some db') :
    QuietPath now db db' := by
  simp only [Db.failRuntimeToolCalls, bind_eq_some, pure_eq_some] at hc
  obtain ⟨failed, hcomp, rfl⟩ := hc
  have hpath : QuietPath now db failed := by
    refine .completeCalls h (fun call hcall => ?_) (nodup_ids_of_sublist h filter_sublist) hcomp
    obtain ⟨hmem, hrun⟩ := mem_filter.1 hcall
    simp only [Bool.and_eq_true, decide_eq_true_eq] at hrun
    exact ⟨hmem, by simp [hrun.1]⟩
  split
  · exact hpath
  · exact .mark h hpath

theorem QuietPath.deleteLock (hlive : db.NoLive) :
    QuietPath now db (db.deleteLock.reconcileWakeup now) := by
  have hdelete : QuietEffect now db db.deleteLock :=
    .bookkeeping h.log rfl rfl rfl rfl ⟨rfl, rfl, rfl, rfl, rfl⟩ id (.inl hlive)
  exact .reconcile h (.single hdelete)

theorem QuietPath.releaseAgentRuntimeLock {delay : Time}
    (hc : db.releaseAgentRuntimeLock lock delay now = some db') : QuietPath now db db' := by
  simp only [Db.releaseAgentRuntimeLock, bind_eq_some, require_eq_some, pure_eq_some] at hc
  obtain ⟨-, hheld, recovered, hrec, failed, hfail, rfl⟩ := hc
  have hlock : db.lock.map (·.id) = some lock := lock_of_any hheld (by simp)
  obtain ⟨hpath, hlive⟩ := QuietPath.recoverRuntimeContext h hlock hrec
  have hinv := Path.inv (QuietPath.path hpath) h
  have hpath' := QuietPath.failRuntimeToolCalls hinv hfail
  have hsame := SameRuntime.failRuntimeToolCalls lock failed hfail
  exact .andThen h (hpath.trans hpath') fun h' => .deleteLock h' (hlive.of_contexts hsame.contexts)

theorem QuietPath.reapExpiredAgentRuntimeLock {delay : Time} {queued : List Id}
    (hc : db.reapExpiredAgentRuntimeLock lock delay queued now = some db') :
    QuietPath now db db' := by
  simp only [Db.reapExpiredAgentRuntimeLock, bind_eq_some, require_eq_some, pure_eq_some] at hc
  obtain ⟨-, hexp, recovered, hrec, failed, hfail, completed, hcomp, rfl⟩ := hc
  obtain ⟨hpath, hlive⟩ := QuietPath.recoverRuntimeContext h (lock_of_any hexp (by simp +contextual)) hrec
  have hinv := Path.inv (QuietPath.path hpath) h
  have hpath' := QuietPath.failRuntimeToolCalls hinv hfail
  have hsame := (SameRuntime.failRuntimeToolCalls lock failed hfail).trans
    (.completeWaitingToolCalls queued completed hcomp)
  exact .andThen h (.andThen h (hpath.trans hpath') fun h' => .completeWaitingToolCalls h' hcomp)
    fun h' => .deleteLock h' (hlive.of_contexts hsame.contexts)

/-! ## Cancellation -/

/-- The only call that a cancellation can end is the one in flight. -/
theorem QuietPath.cancelContexts (lock : Id) : QuietPath now db (db.cancelContexts lock) := by
  by_cases hlive : ∃ c ∈ db.contexts, c.state = .started ∧ c.runtimeLock = lock
  · obtain ⟨c, hc, hs, hrt⟩ := hlive
    obtain ⟨l, hl⟩ := h.context.rows.eq_last_of_started hc hs
    have hrows : ModelCallContext.Rows (l ++ [c]) := hl ▸ h.context.rows
    have heq : db.cancelContexts lock = db.setContextState c.id .canceled := by
      simp only [Db.cancelContexts, setContextState]
      congr 1
      refine map_congr_left fun a ha => ?_
      by_cases hid : a.id = c.id
      · cases h.context.rows.id_inj ha hc hid
        simp [hs, hrt]
      · rw [hl, mem_append, mem_singleton] at ha
        rcases ha with ha | rfl
        · rw [if_neg hid, if_neg fun hcond => (hrows.leads_last a ha).done hcond.2]
        · exact absurd rfl hid
    rw [heq]
    exact .single (.finish h hc hs (.inl rfl) (by simp))
  · have heq : db.cancelContexts lock = db := by
      have hmap : db.contexts.map (fun c => if c.runtimeLock = lock ∧ c.state = .started then
          { c with state := .canceled } else c) = db.contexts := by
        refine (map_congr_left fun c hc => if_neg fun hcond => ?_).trans (map_id _)
        exact hlive ⟨c, hc, hcond.2, hcond.1⟩
      simp only [Db.cancelContexts, hmap]
    rw [heq]

theorem QuietPath.terminalizeContexts {lock : Option Id} (hc : db.terminalizeContexts lock = some db') :
    QuietPath now db db' ∧ db'.NoLive ∧ db' = { db with contexts := db'.contexts } := by
  simp only [Db.terminalizeContexts, bind_eq_some, require_eq_some, pure_eq_some] at hc
  obtain ⟨-, hnone, rfl⟩ := hc
  have hlive (db : Db) (hno : ¬ db.hasLiveContexts = true) : db.NoLive := fun c hc hs =>
    hno (any_eq_true.2 ⟨c, hc, by simpa using hs⟩)
  cases lock with
  | none => exact ⟨.refl, hlive _ hnone, rfl⟩
  | some lock => exact ⟨.cancelContexts h lock, hlive _ hnone, rfl⟩

theorem Path.appendStop (hlive : db.NoLive) {turn : Option Id}
    (hc : db.appendStop turn now = some db') :
    Path now db db' ∧ db'.toolCalls = db.toolCalls ∧
      ∀ id, db'.outputEvents id = db.outputEvents id := by
  simp only [Db.appendStop, bind_eq_some] at hc
  obtain ⟨turn, rfl, hc⟩ := hc
  have hcancel : QuietEffect now db (db.cancelReceived .steering) := .cancelReceived h.log .steering
  have hinv := hcancel.effect.inv h
  have hlen : (db.cancelReceived .steering).inputs.length = db.inputs.length := by
    simp [Db.cancelReceived]
  have hins : QuietEffect now (db.cancelReceived .steering)
      ((db.cancelReceived .steering).insertResolvedInput .control now) := .insertInput hinv.log rfl
  have hstop := Effect.appendStop (hins.effect.inv hinv) hlive hc
    (by simp [insertResolvedInput, freshInput, hlen])
  refine ⟨.head hcancel.effect (.head hins.effect (.single hstop)), ?_⟩
  obtain ⟨-, hdb, -⟩ := appendToTurn_spec hc
  refine ⟨by rw [hdb]; rfl, fun id => ?_⟩
  rw [hdb]
  simp [outputEvents, insertResolvedInput, Db.cancelReceived]

theorem QuietPath.completeOpenCalls (hc : db.completeCalls now (db.openCalls turn) = some db') :
    QuietPath now db db' := by
  refine .completeCalls h (fun call hcall => ?_) (nodup_ids_of_sublist h filter_sublist) hc
  obtain ⟨hmem, hopen⟩ := mem_filter.1 hcall
  simp only [Bool.and_eq_true, decide_eq_true_eq] at hopen
  exact ⟨hmem, hopen.1⟩

end

theorem latestTurnId_of_continuable (h : db.currentContinuableTurn = some turn) :
    db.latestTurnId = some turn := by
  unfold currentContinuableTurn at h
  split at h
  · cases h
  · split at h
    · cases h
      assumption
    · cases h

/-- Every open call belongs to the latest turn, so completing the calls of that turn leaves none. -/
theorem noOpen_of_canceled (h : Inv db) (hcur : Current db)
    (hturn : db.latestTurnId = some turn) {stopped : Db} (hcalls : stopped.toolCalls = db.toolCalls)
    (houts : ∀ id, stopped.outputEvents id = db.outputEvents id)
    (hc : stopped.completeCalls now (stopped.openCalls turn) = some db') : db'.NoOpen := by
  intro call hcall
  by_contra hopen
  obtain ⟨hmem, hnot⟩ := open_of_completeCalls hc call hcall hopen
  refine hnot (mem_map_of_mem (mem_filter.2 ⟨hmem, ?_⟩))
  obtain ⟨e, he, hp⟩ := exists_source h (hcalls ▸ hmem)
  have hsrc : e ∈ db.outputEvents call.output := mem_filter.2 ⟨he, by simpa using hp⟩
  simp only [sourceEvent, houts, Bool.and_eq_true, decide_eq_true_eq]
  refine ⟨hopen, ?_⟩
  cases hhead : (db.outputEvents call.output).head? with
  | none =>
    rw [List.head?_eq_none_iff] at hhead
    simp [hhead] at hsrc
  | some first =>
    obtain ⟨hfst, hfp⟩ := mem_filter.1 (mem_of_mem_head? hhead)
    have hlast := (hcur call (hcalls ▸ hmem) hopen first hfst (by simpa using hfp)).1
    rw [hturn, Option.some.injEq] at hlast
    simp [hlast]

theorem QuietPath.requestRuntimeCancel (h : Inv db) (request : Bool) :
    QuietPath now db (if request then db.requestRuntimeCancel else db) := by
  cases request with
  | false => exact .refl
  | true =>
    refine .single (.bookkeeping h.log rfl rfl rfl rfl ⟨rfl, rfl, rfl, rfl, rfl⟩ id (.inr ?_))
    simp only [if_true, Db.requestRuntimeCancel, Option.map_map]
    rfl

/-- What the first half of a cancellation does: it ends the call in flight. -/
theorem QuietPath.endCalls (now : Time) (h : Inv db) {request : Bool} {lock : Option Id} {ended : Db}
    (hterm : (if request then db.requestRuntimeCancel else db).terminalizeContexts lock = some ended) :
    QuietPath now db ended ∧ ended.NoLive ∧ ended.toolCalls = db.toolCalls ∧ ended.events = db.events := by
  have hpath : QuietPath now db _ := .requestRuntimeCancel h request
  obtain ⟨hpath', hlive, hended⟩ :=
    QuietPath.terminalizeContexts (Path.inv (QuietPath.path hpath) h) hterm
  refine ⟨hpath.trans hpath', hlive, ?_, ?_⟩ <;>
  · rw [hended]
    cases request <;> rfl

theorem cancelAgentTx_kept (h : Inv db) (hcur : Current db) {always : Bool}
    (hc : db.cancelAgentTx always now = some db') : Path now db db' ∧ Current db' := by
  obtain ⟨request, ended, done, hterm, rfl, hcase⟩ := cancelAgentTx_cases hc
  obtain ⟨hq, hlive, hcalls, hevs⟩ := QuietPath.endCalls now h hterm
  have hinv := Path.inv (QuietPath.path hq) h
  rcases hcase with ⟨-, rfl⟩ | ⟨turn, stopped, hturn, hstop, hcomp⟩
  · exact QuietPath.kept h hcur (.reconcile h hq)
  · obtain ⟨hpath, hcalls', houts⟩ := Path.appendStop hinv hlive hstop
    have hinv' := Path.inv hpath hinv
    have hcompleted := QuietPath.completeOpenCalls hinv' hcomp
    have hnone : done.NoOpen := by
      refine noOpen_of_canceled h hcur (latestTurnId_of_continuable hturn) (hcalls'.trans hcalls)
        (fun id => (houts id).trans ?_) hcomp
      rw [outputEvents, outputEvents, hevs]
    have hinv'' := Path.inv (QuietPath.path hcompleted) hinv'
    obtain ⟨hfinal, hcur'⟩ := QuietPath.kept hinv'' hnone.current (.reconcile hinv'' .refl)
    exact ⟨(((QuietPath.path hq).trans hpath).trans (QuietPath.path hcompleted)).trans hfinal, hcur'⟩

theorem archiveAgent_kept (h : Inv db) (hcur : Current db)
    (hc : db.archiveAgent now = some db') : Path now db db' ∧ Current db' := by
  simp only [archiveAgent, bind_eq_some, pure_eq_some] at hc
  obtain ⟨canceled, hcancel, rfl⟩ := hc
  have harchive : QuietEffect now db { db with archived := true } :=
    .bookkeeping h.log rfl rfl rfl rfl ⟨rfl, rfl, rfl, rfl, rfl⟩ (fun _ => rfl) (.inr rfl)
  have hinv := harchive.effect.inv h
  have hqueued : QuietEffect now { db with archived := true }
      ({ db with archived := true }.cancelReceived .queued) := .cancelReceived hinv.log .queued
  obtain ⟨hpath, hcur'⟩ := cancelAgentTx_kept (hqueued.effect.inv hinv)
    (hqueued.current hinv (harchive.current h hcur)) hcancel
  have hinv' := Path.inv hpath (hqueued.effect.inv hinv)
  have hwakeup : QuietEffect now canceled { canceled with wakeup := none } :=
    .bookkeeping hinv'.log rfl rfl rfl rfl ⟨rfl, rfl, rfl, rfl, rfl⟩ id (.inr rfl)
  exact ⟨.head harchive.effect (.head hqueued.effect (hpath.tail hwakeup.effect)),
    hwakeup.current hinv' hcur'⟩

/-! ## Launch -/

/-- An agent right after its launch without a message. -/
def launched (now : Time) : Db :=
  { Db.empty with
    nextEventSequence := 2
    events := [⟨1, 1, .agentInput 0, true, now⟩]
    inputs := [⟨0, .resolved, 0, .configChange, .immediate, now, some 1⟩]
    turns := [⟨1, 1, 1⟩] }

theorem inv_launched (now : Time) : Inv (launched now) where
  log := by
    refine ⟨rfl, rfl, rfl, rfl, ?_, ?_, ?_, ?_⟩ <;> simp [launched]
  context := ⟨⟨rfl, .nil, by simp [launched, Db.empty], by simp [launched, Db.empty]⟩,
    by simp [launched, Db.empty], by simp [launched, Db.empty]⟩
  outcome := ⟨rfl, rfl, rfl, rfl, by simp [launched, Db.empty]⟩
  batch := by
    refine ⟨rfl, rfl, ?_, ?_, ?_, ?_, ?_, ?_⟩ <;> simp [launched, Db.empty]
  source := ⟨by simp [launched, Db.empty], by simp [launched, Db.empty]⟩

theorem launch_kept {message : Bool} (hc : Db.launch message now = some db) :
    Inv db ∧ Current db := by
  have hinv := inv_launched now
  have hcur : Current (launched now) := by simp [Current, launched, Db.empty]
  cases message with
  | false =>
    cases hc
    exact ⟨hinv, hcur⟩
  | true =>
    cases hc
    have hins : QuietEffect now (launched now) { launched now with
        inputs := insertAgentInput (launched now).freshInput .queued now (launched now).inputs } :=
      .insertInput hinv.log rfl
    obtain ⟨hpath, hcur'⟩ := QuietPath.kept hinv hcur (.mark hinv (.single hins))
    exact ⟨Path.inv hpath hinv, hcur'⟩

/-! ## Every transaction -/

theorem tx_kept (tx : Tx) (h : Inv db) (hcur : Current db) (hc : tx.run db now = some db') :
    Path now db db' ∧ Current db' := by
  have hq : QuietPath now db db' → Path now db db' ∧ Current db' := QuietPath.kept h hcur
  cases tx with
  | createContentInput => exact hq (.createContentInput h hc)
  | cancelQueuedBacklogInput =>
    exact hq (.changeInputs h (fun _ hrows => .cancelQueuedInput h.log hrows) hc)
  | promoteInput => exact hq (.promoteInput h hc)
  | demoteInput => exact hq (.changeInputs h (fun _ hrows => .changeDeliveryMode h.log hrows) hc)
  | moveInput => exact hq (.moveInput h hc)
  | changeAgentConfig => exact hq (.changeAgentConfig h hcur hc)
  | replayConfigChange =>
    cases hc
    exact hq (.reconcile h .refl)
  | cancelAgent => exact cancelAgentTx_kept h hcur hc
  | archiveAgent => exact archiveAgent_kept h hcur hc
  | claimNextAgentWork => exact hq (.claimNextAgentWork h hcur hc)
  | renewRuntimeLock => exact hq (.single (.renewRuntimeLock h hc))
  | releaseAgentRuntimeLock => exact hq (.releaseAgentRuntimeLock h hc)
  | reapExpiredAgentRuntimeLock => exact hq (.reapExpiredAgentRuntimeLock h hc)
  | claimNormalModelCall => exact hq (.claimNormalModelCall h hcur hc)
  | resumeCompactionContext =>
    rw [resumeCompactionContext_eq hc]
    exact ⟨.refl, hcur⟩
  | claimNextModelCallContext => exact hq (.claimNextModelCallContext h hc)
  | recordFailureAndClaimCompaction => exact hq (.recordFailureAndClaimCompaction h hcur hc)
  | replaceCompactionSource => exact hq (.replaceCompactionSource h hcur hc)
  | recordRetryableFailure => exact hq (.recordRetryableFailure h hc)
  | recordTerminalModelCallFailure => exact hq (.recordTerminalModelCallFailure h hc)
  | recordModelOutput => exact hq (.recordModelOutput h hc)
  | recordToolCallSource => exact hq (.recordToolCallSource h hc)
  | publishContextCheckpoint => exact hq (.publishContextCheckpoint h hc)
  | markToolCallAwaitingPermission | markToolCallReady
  | releaseToolCallRuntimeOwnership => exact hq (.changeCall h (by simp +contextual) (by simp) hc)
  | startToolCall lock id retain =>
    refine hq (.changeCall h (fun call hall hs => ?_) ?_ hc)
    · simp [hs] at hall
    · cases retain <;> simp
  | requeueRuntimeToolCall => exact hq (.requeueRuntimeToolCall h hc)
  | replayRequeue => exact hq (.replayRequeue h hc)
  | completeToolCall => exact hq (.completeToolCall h hc)
  | completeRuntimeToolCall => exact hq (.completeRuntimeToolCall h hc)
  | completeCustomToolCall => exact hq (.completeCustomToolCall h hc)
  | completeWaitingToolCall => exact hq (.completeWaitingToolCall h hc)
  | resolveAgentInteraction => exact hq (.resolveAgentInteraction h hc)
  | replayResolution => exact hq (.replayResolution h hc)

end Db

theorem Step.archived {s t : State} (hs : s.db.Inv ∧ s.db.Current) (hst : Step s t)
    (harch : s.db.archived = true) : t.db.archived = true := by
  cases hst with
  | wait => exact harch
  | commit tx _ hrun => exact Db.Path.archived (Db.tx_kept tx hs.1 hs.2 hrun).1 harch

/-- **The invariant holds in every state of every history.** -/
theorem reachable_inv {s : State} (h : Reachable s) : s.db.Inv ∧ s.db.Current :=
  h.invariant (fun _ _ _ hc => Db.launch_kept hc) fun tx _ _ _ ⟨hinv, hcur⟩ hc =>
    ⟨Db.Path.inv (Db.tx_kept tx hinv hcur hc).1 hinv, (Db.tx_kept tx hinv hcur hc).2⟩

end Store
