import Mathlib.Order.MinMax
import Omnara.Store.Proof.ModelCallTransactions
import Omnara.Store.Proof.Queue

/-!
# No work without a wakeup

The wakeup row is a summary of the tables that no query derives: every transaction has to refresh it.
`Settled` is what it must promise, that an agent nobody holds is woken when its next work is ready. It
is kept because

* a reconciled and a marked wakeup promise it (`Settled.reconcile`, `Settled.mark`);
* nothing is promised while a runtime lock exists (`Settled.of_lock`), whose deletion reconciles;
* waiting changes no ready time (`Settled.later`);
* the one transaction that neither refreshes the wakeup nor holds a lock, the move of a queued input,
  changes ranks only, which no ready time depends on (`nextWakeupReadyAt_unranked`).

`tx_settled` goes through the transactions, `reachable_settled` through the histories.
-/

namespace Store

open Transaction (Post)

namespace Db

variable {db db' : Db} {now : Time}

/-- The wakeup of an agent with work and without a runtime is no later than the work is ready. -/
def Settled (db : Db) (now : Time) : Prop :=
  db.archived = false → db.lock = none → ∀ r, db.nextWakeupReadyAt now = some r →
    ∃ w, db.wakeup = some w ∧ w ≤ max r now

/-! ## How a transaction settles the wakeup -/

/-- The next wakeup is the present at every time, or it does not depend on the time. -/
theorem nextWakeupReadyAt_cases (db : Db) : (∀ t, db.nextWakeupReadyAt t = some t) ∨
    ∃ next, (∀ t, db.nextWakeupReadyAt t = next) ∧ ∀ r, next = some r → db.ReadyTime r := by
  unfold nextWakeupReadyAt
  by_cases htool : db.toolWorkFrontiers = []
  · cases hinc : db.hasIncompleteToolBatch with
    | true => exact .inr ⟨none, by simp [htool], by simp⟩
    | false =>
      by_cases hsteer : db.receivedContent .steering = []
      · cases hmodel : db.nextModelWork with
        | some =>
          obtain ⟨r, hr, hready⟩ := readyAt_of_nextModelWork hmodel
          refine .inr ⟨some r, by simp [htool, hsteer, hr], fun _ heq => ?_⟩
          exact Option.some.inj heq ▸ hready
        | none =>
          by_cases hqueued : db.receivedContent .queued = []
          · exact .inr ⟨none, by simp [htool, hsteer, hqueued], by simp⟩
          · exact .inl (by simp [htool, hsteer, hqueued])
      · exact .inl (by simp [htool, hsteer])
  · exact .inl (by simp [htool])

theorem Settled.later {later : Time} (h : db.Settled now) (hle : now ≤ later) : db.Settled later := by
  intro harch hlock r hr
  rcases nextWakeupReadyAt_cases db with hnow | ⟨next, hsame, -⟩
  · rw [hnow, Option.some.injEq] at hr
    subst hr
    obtain ⟨w, hw, hle'⟩ := h harch hlock now (hnow now)
    exact ⟨w, hw, hle'.trans (max_le_max hle hle)⟩
  · rw [hsame, ← hsame now] at hr
    obtain ⟨w, hw, hle'⟩ := h harch hlock r hr
    exact ⟨w, hw, hle'.trans (max_le_max le_rfl hle)⟩

theorem Settled.reconcile : (db.reconcileWakeup now).Settled now := by
  intro harch _ r hr
  unfold reconcileWakeup at harch hr ⊢
  split at harch
  · simp_all
  · rename_i hnot
    rw [if_neg hnot] at hr ⊢
    exact ⟨r, hr, Nat.le_max_left r now⟩

theorem Settled.mark : (db.markWakeup now).Settled now := by
  intro harch _ r _
  unfold markWakeup at harch ⊢
  split at harch
  · simp_all
  · rename_i hnot
    rw [if_neg hnot]
    refine ⟨_, rfl, ?_⟩
    split
    · exact (min_le_right _ _).trans (le_max_right _ _)
    · exact le_max_right _ _

theorem Settled.of_lock (h : db.lock ≠ none) : db.Settled now := fun _ hlock => absurd hlock h

theorem Settled.of_archived (h : db.archived = true) : db.Settled now := fun harch => by
  simp [h] at harch

theorem lock_ne_none_of_any {p : RuntimeLock → Bool} (h : db.lock.any p = true) : db.lock ≠ none := by
  intro hnone
  simp [hnone] at h

theorem lock_ne_none_of_lockActive {lock : Id} (h : db.lockActive lock now = true) :
    db.lock ≠ none := by
  simp only [lockActive, Bool.and_eq_true] at h
  exact lock_ne_none_of_any h.2

/-! ## Ranks -/

def unranked (db : Db) : Db :=
  { db with inputs := db.inputs.map fun i => { i with rank := 0 } }

variable (db)

theorem stopSequences_unranked : db.unranked.stopSequences = db.stopSequences := by
  simp [stopSequences, unranked, List.any_map, Function.comp_def]

theorem admittedContent_unranked : db.unranked.admittedContent = db.admittedContent := by
  funext e
  simp [admittedContent, unranked, List.find?_map, Function.comp_def, Option.map_map]

theorem unconsumedConfigChange_unranked :
    db.unranked.unconsumedConfigChange = db.unconsumedConfigChange := by
  have hch (e : AgentEvent) : (db.unranked.inputs.any fun i => e.payload = .agentInput i.id &&
        i.admittedEvent = some e.sequence && i.kind = .configChange && i.state = .resolved) =
      db.inputs.any fun i => e.payload = .agentInput i.id && i.admittedEvent = some e.sequence &&
        i.kind = .configChange && i.state = .resolved := by
    simp [unranked, List.any_map, Function.comp_def]
  simp only [unconsumedConfigChange, turnOpeningContentInputs, admittedContent_unranked,
    stopSequences_unranked, hch]
  rfl

theorem receivedContent_unranked (mode : DeliveryMode) :
    db.unranked.receivedContent mode = [] ↔ db.receivedContent mode = [] := by
  simp [receivedContent, unranked, List.filter_map, Function.comp_def]

theorem modelCallOpeningContentInputs_unranked (turn : Id) (max : Nat) :
    db.unranked.modelCallOpeningContentInputs turn max = db.modelCallOpeningContentInputs turn max := by
  simp only [modelCallOpeningContentInputs, latestBoundary, turnOpeningContentInputs,
    admittedContent_unranked, stopSequences_unranked]
  rfl

theorem stopAfter_unranked (n : Nat) : db.unranked.stopAfter n = db.stopAfter n := by
  rw [stopAfter, stopSequences_unranked, stopAfter]

theorem currentCalls_unranked : db.unranked.currentCalls = db.currentCalls := by
  simp only [currentCalls, stopAfter_unranked]
  rfl

theorem toolWorkFrontiers_unranked : db.unranked.toolWorkFrontiers = db.toolWorkFrontiers := by
  simp only [toolWorkFrontiers, currentCalls_unranked]
  rfl

theorem hasIncompleteToolBatch_unranked :
    db.unranked.hasIncompleteToolBatch = db.hasIncompleteToolBatch := by
  simp only [hasIncompleteToolBatch, currentCalls_unranked]

theorem continuableContexts_unranked :
    db.unranked.continuableContexts = db.continuableContexts := by
  have hsame : db.unranked.isContinuable = db.isContinuable := by
    funext c
    simp only [isContinuable, stopAfter_unranked]
    rfl
  rw [continuableContexts, hsame, continuableContexts]
  rfl

theorem workCandidates_unranked : db.unranked.workCandidates = db.workCandidates := by
  simp only [workCandidates, unstartedWork, latestUnstartedOpenings, retryWork, laterSemanticWork,
    completedToolsWork, modelResultFrontiers, truncatedOutputWork, truncatedOutput,
    unconsumedCheckpoint, continuableContexts_unranked, currentCalls_unranked, stopAfter_unranked,
    modelCallOpeningContentInputs_unranked, unconsumedConfigChange_unranked]
  rfl

theorem nextWakeupReadyAt_unranked (t : Time) :
    db.unranked.nextWakeupReadyAt t = db.nextWakeupReadyAt t := by
  have hwork : db.unranked.nextModelWork = db.nextModelWork := by
    simp only [nextModelWork, workCandidates_unranked, hasIncompleteToolBatch_unranked]
    congr 2
    funext c
    simp only [withOpenings, modelCallOpeningContentInputs_unranked]
  simp only [nextWakeupReadyAt, toolWorkFrontiers_unranked, hasIncompleteToolBatch_unranked, hwork,
    ne_eq, receivedContent_unranked]

variable {db}

theorem Settled.of_unranked (h : db.Settled now) (hsame : db'.unranked = db.unranked) :
    db'.Settled now := by
  intro harch hlock r hr
  rw [← nextWakeupReadyAt_unranked, hsame, nextWakeupReadyAt_unranked] at hr
  have harch' : db.archived = false := (congrArg Db.archived hsame).symm.trans harch
  have hlock' : db.lock = none := (congrArg Db.lock hsame).symm.trans hlock
  obtain ⟨w, hw, hle⟩ := h harch' hlock' r hr
  exact ⟨w, (congrArg Db.wakeup hsame).trans hw, hle⟩

/-! ## Transactions -/

variable {lock id parent context : Id} {allowed : Bool}

theorem settled_moveInput (h : db.Settled now) {position : MovePosition} :
    Post (db.moveInput id position) (·.Settled now) := by
  refine .bind fun rows hrows => .pure (h.of_unranked ?_)
  simp only [unranked, unranked_move hrows]

theorem settled_changeCall {check : ToolCall → Bool} {state : ToolState} :
    Post (db.changeCall lock id check state now) (·.Settled now) := by
  refine .bind fun _ hlive => .bind fun _ _ => .bind fun _ _ => .pure (.of_lock ?_)
  exact lock_ne_none_of_any (require_eq_some.1 hlive)

theorem settled_completeToolCall {negative : Bool} :
    Post (db.completeToolCall lock id negative now) (·.Settled now) := by
  refine .bind fun _ hlive => .bind fun call _ => .bind fun _ _ completed hc => .of_lock ?_
  obtain ⟨source, turns, -, -, -, rfl⟩ := completeCall_spec hc
  exact lock_ne_none_of_any (require_eq_some.1 hlive)

theorem settled_recordTerminalFailure {c : ModelCallContext} {teardown : Bool} :
    Post (db.recordTerminalFailure c lock teardown now) (·.Settled now) :=
  .bind fun _ _ => .bind fun _ _ => .pure .reconcile

/-- A call that is admitted leaves its lock in place; one that is not ends with a reconciled wakeup. -/
theorem settled_startCall (hlock : db.lock ≠ none) {operation : Operation} {frontier attempt : Nat} :
    Post ((db.insertContext operation frontier attempt lock).applyAdmission allowed lock now)
      (·.Settled now) :=
  .bind fun _ _ => .ite (fun _ => .pure (.of_lock hlock)) fun _ => settled_recordTerminalFailure

theorem settled_claimNormalModelCall {frontier : Nat} {inputIds : List Id} {source : Option Id} :
    Post (db.claimNormalModelCall lock frontier inputIds source allowed now) (·.Settled now) := by
  refine .bind fun _ _ => .bind fun _ hactive => ?_
  have hlock := lock_ne_none_of_lockActive (require_eq_some.1 hactive)
  refine .bind fun _ _ => .bind fun _ _ => .ite (fun _ => .pure (.of_lock hlock)) fun _ => ?_
  exact .bind fun _ _ => .bind fun _ _ => .bind fun _ _ => .bind fun _ _ => settled_startCall hlock

theorem settled_claimNextModelCallContext :
    Post (db.claimNextModelCallContext lock id allowed now) (·.Settled now) := by
  refine .bind fun _ hactive => .bind fun _ _ => .bind fun _ _ => ?_
  have hlock := lock_ne_none_of_lockActive (require_eq_some.1 hactive)
  exact .ite (fun _ => settled_startCall hlock) fun _ => .pure (.of_lock hlock)

/-- The compaction a call is handed over to has been claimed under an active lock. -/
theorem settled_admitCompaction {frontier sourceEnd : Nat} {claim : Db × Bool}
    (hclaim : db.claimCompactionContext lock parent frontier sourceEnd now = some claim)
    (hnew : claim.2 = true) : Post (claim.1.applyAdmission allowed lock now) (·.Settled now) := by
  obtain ⟨-, hactive, heq⟩ := claimCompactionContext_spec hclaim hnew
  rw [heq]
  exact settled_startCall (lock_ne_none_of_lockActive hactive)

theorem settled_recordFailureAndClaimCompaction {sourceEnd : Nat} :
    Post (db.recordFailureAndClaimCompaction lock parent sourceEnd allowed now) (·.Settled now) := by
  refine .bind fun _ _ => .bind fun _ _ => .bind fun _ _ => .bind fun _ _ => .bind fun _ _ =>
    .bind fun _ _ => .ite (fun _ => .pure .reconcile) fun _ => .bind fun claim hclaim =>
    .bind fun _ hnew => .bind fun admitted hadmit => .pure ?_
  split
  · exact .reconcile
  · exact settled_admitCompaction hclaim (require_eq_some.1 hnew) admitted hadmit

theorem settled_replaceCompactionSource {nextEnd : Nat} :
    Post (db.replaceCompactionSource lock context nextEnd allowed now) (·.Settled now) := by
  refine .bind fun _ _ => .bind fun _ _ => .bind fun _ _ => .bind fun _ _ => .bind fun _ _ =>
    .bind fun _ _ => .bind fun _ _ => .bind fun _ _ => .ite (fun _ => .pure .reconcile) fun _ =>
    .bind fun _ _ => .bind fun claim hclaim => .bind fun _ hnew => ?_
  exact settled_admitCompaction hclaim (require_eq_some.1 hnew)

theorem settled_recordModelOutput {reason : StopReason} :
    Post (db.recordModelOutput lock context reason now) (·.Settled now) := by
  refine .bind fun _ hactive => .bind fun _ _ => .bind fun _ _ => .bind fun _ _ =>
    .bind fun published hpub finished hfin => .of_lock ?_
  obtain ⟨turn, turns, -, -, -, rfl⟩ := publishOutput_spec hpub
  rw [(finishContext_spec hfin).2]
  exact lock_ne_none_of_lockActive (require_eq_some.1 hactive)

theorem settled_cancelAgent : Post (db.cancelAgent now) (·.Settled now) := by
  intro db' hc
  obtain ⟨request, ended, done, -, rfl, -⟩ := cancelAgentTx_cases hc
  exact .reconcile

theorem settled_claimNextAgentWork {lease : Time} :
    Post (db.claimNextAgentWork lock lease now) (·.Settled now) := by
  intro db' hc
  rcases claimNextAgentWork_cases lock lease db' hc with htaken | rfl
  · exact .of_lock htaken
  · exact .reconcile

theorem settled_archiveAgent : Post (db.archiveAgent now) (·.Settled now) :=
  .bind fun canceled hcancel => .pure (.of_archived (cancelAgentTx_frame true canceled hcancel).1)

theorem tx_settled (tx : Tx) (h : db.Settled now) : Post (tx.run db now) (·.Settled now) := by
  cases tx with
  | createContentInput | promoteInput | cancelQueuedBacklogInput | demoteInput | changeAgentConfig
  | replayConfigChange | releaseAgentRuntimeLock | reapExpiredAgentRuntimeLock
  | recordRetryableFailure | publishContextCheckpoint =>
    -- whatever it has checked and written, the transaction ends with a reconciled wakeup
    repeat refine .bind fun _ _ => ?_
    exact .pure .reconcile
  | recordToolCallSource | requeueRuntimeToolCall | replayRequeue | completeRuntimeToolCall
  | completeCustomToolCall | completeWaitingToolCall | resolveAgentInteraction =>
    repeat refine .bind fun _ _ => ?_
    exact .pure .mark
  | moveInput => exact settled_moveInput h
  | cancelAgent => exact settled_cancelAgent
  | archiveAgent => exact settled_archiveAgent
  | claimNextAgentWork => exact settled_claimNextAgentWork
  | renewRuntimeLock => exact fun _ hrenew => .of_lock (lock_renewRuntimeLock _ hrenew)
  | claimNormalModelCall => exact settled_claimNormalModelCall
  | resumeCompactionContext => exact fun _ hresume => resumeCompactionContext_eq hresume ▸ h
  | claimNextModelCallContext => exact settled_claimNextModelCallContext
  | recordFailureAndClaimCompaction => exact settled_recordFailureAndClaimCompaction
  | replaceCompactionSource => exact settled_replaceCompactionSource
  | recordTerminalModelCallFailure =>
    exact .bind fun _ _ => .bind fun _ _ => .bind fun _ _ => settled_recordTerminalFailure
  | recordModelOutput => exact settled_recordModelOutput
  | markToolCallAwaitingPermission | markToolCallReady | startToolCall
  | releaseToolCallRuntimeOwnership => exact settled_changeCall
  | completeToolCall => exact settled_completeToolCall
  | replayResolution answered =>
    cases answered with
    | none => exact .pure .mark
    | some => exact .bind fun _ _ => .pure .mark

theorem launch_settled (message : Bool) : Post (Db.launch message now) (·.Settled now) := by
  cases message with
  | true => exact .bind fun _ _ => .pure .mark
  | false =>
    -- the config change of the launch opens a turn without a content input: there is no work yet
    intro db hc
    cases hc
    intro _ _ r hr
    cases hr

end Db

theorem reachable_settled {s : State} (h : Reachable s) : s.db.Settled s.now := by
  refine Reach.Reachable.invariant (P := fun s => s.db.Settled s.now) ?_ ?_ h
  · rintro s ⟨message, hs⟩
    exact Db.launch_settled message s.db hs
  · intro s t hs hst
    cases hst with
    | wait hle => exact hs.later hle
    | commit tx hle hrun => exact Db.tx_settled tx (hs.later hle) _ hrun

end Store
