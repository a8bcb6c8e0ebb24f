import Omnara.Lib.Transaction
import Omnara.Store.Proof.Write

/-!
# What is left alone without a runtime

Tool results, inputs and their events do not touch the agent's state, its runtime lock or its model
calls (`SameRuntime`). A transaction on an agent without a lock is made of such writes, unless it is
the claim that takes the lock (`tx_unlocked`).

`cancelAgentTx_cases` says once what a cancellation does.
-/

namespace Store

open Transaction (Post)

namespace Db

variable {db db₁ db₂ : Db} {now : Time}

structure SameRuntime (db db' : Db) : Prop where
  archived : db'.archived = db.archived
  lock : db'.lock = db.lock
  contexts : db'.contexts = db.contexts

namespace SameRuntime

@[refl]
theorem refl (db : Db) : SameRuntime db db := ⟨rfl, rfl, rfl⟩

theorem trans (h₁ : SameRuntime db db₁) (h₂ : SameRuntime db₁ db₂) : SameRuntime db db₂ :=
  ⟨h₂.archived.trans h₁.archived, h₂.lock.trans h₁.lock, h₂.contexts.trans h₁.contexts⟩

theorem of_inputs {rows : List AgentInput} (h : SameRuntime { db with inputs := rows } db₁) :
    SameRuntime db db₁ := ⟨h.archived, h.lock, h.contexts⟩

theorem markWakeup : SameRuntime db (db.markWakeup now) := by
  unfold Db.markWakeup
  split <;> exact ⟨rfl, rfl, rfl⟩

theorem reconcileWakeup : SameRuntime db (db.reconcileWakeup now) := by
  unfold Db.reconcileWakeup
  split <;> exact ⟨rfl, rfl, rfl⟩

/-! ## Events and tool calls -/

theorem appendToTurn (turn : Id) (payload : Payload) (semantic : Bool) :
    Post (db.appendToTurn turn payload semantic now) (SameRuntime db) :=
  .bind fun _ _ => .pure ⟨rfl, rfl, rfl⟩

theorem completeCall (call : ToolCall) : Post (db.completeCall call now) (SameRuntime db) := by
  intro db' hc
  obtain ⟨source, turns, -, -, -, rfl⟩ := completeCall_spec hc
  exact ⟨rfl, rfl, rfl⟩

theorem completeCalls (calls : List ToolCall) :
    Post (db.completeCalls now calls) (SameRuntime db) := by
  induction calls generalizing db with
  | nil => exact .pure (.refl db)
  | cons call calls ih =>
    exact .bind fun db₁ h₁ db₂ h₂ => (completeCall call db₁ h₁).trans (ih db₂ h₂)

theorem completeCallIf (id : Id) (allowed : ToolCall → Bool) :
    Post (db.completeCallIf id allowed now) (SameRuntime db) :=
  .bind fun call _ => .bind fun _ _ => completeCall call

theorem completeWaitingToolCall (id : Id) :
    Post (db.completeWaitingToolCall id now) (SameRuntime db) :=
  .bind fun db₁ h₁ => .pure ((completeCallIf id _ db₁ h₁).trans markWakeup)

theorem completeWaitingToolCalls (ids : List Id) :
    Post (db.completeWaitingToolCalls now ids) (SameRuntime db) := by
  induction ids generalizing db with
  | nil => exact .pure (.refl db)
  | cons id ids ih =>
    exact .bind fun db₁ h₁ db₂ h₂ => (completeWaitingToolCall id db₁ h₁).trans (ih db₂ h₂)

theorem failRuntimeToolCalls (lock : Id) :
    Post (db.failRuntimeToolCalls lock now) (SameRuntime db) := by
  refine .bind fun failed hfailed => .pure ?_
  split
  · exact completeCalls _ failed hfailed
  · exact (completeCalls _ failed hfailed).trans markWakeup

/-! ## Interactions and inputs -/

theorem applyResolution (id : Id) (resolution : Resolution) :
    Post (db.applyResolution id now resolution) (SameRuntime db) := by
  cases resolution with
  | allow => exact .bind fun _ _ => .bind fun _ _ => .pure ⟨rfl, rfl, rfl⟩
  | deny | answer => exact completeCallIf id _

theorem cancelInteractionsOf (turn : Id) (canceled : List (Id × Resolution)) :
    Post (db.cancelInteractionsOf turn now canceled) (SameRuntime db) := by
  induction canceled generalizing db with
  | nil => exact .pure (.refl db)
  | cons x canceled ih =>
    exact .bind fun _ _ => .bind fun _ _ => .bind fun db₁ h₁ db₂ h₂ =>
      (applyResolution x.1 x.2 db₁ h₁).trans (ih db₂ h₂)

theorem cancelOpenInteractions (canceled : List (Id × Resolution)) :
    Post (db.cancelOpenInteractions canceled now) (SameRuntime db) := by
  unfold Db.cancelOpenInteractions
  split
  · exact .pure (.refl db)
  · exact cancelInteractionsOf _ canceled

theorem appendToCurrentOrNewTurn (input : Id) :
    Post (db.appendToCurrentOrNewTurn input now) (SameRuntime db) := by
  unfold Db.appendToCurrentOrNewTurn
  split
  · exact appendToTurn _ _ _
  · exact .pure ⟨rfl, rfl, rfl⟩

theorem appendStop (turn : Option Id) : Post (db.appendStop turn now) (SameRuntime db) := by
  refine .bind fun turn _ stopped hstop => ?_
  exact .of_inputs (appendToTurn turn _ _ stopped hstop)

end SameRuntime

/-! ## Cancellation -/

/-- A cancellation ends the call in flight; if there was a turn to stop it appends the stop and
completes the calls of the turn; then it reconciles the wakeup. -/
theorem cancelAgentTx_cases {always : Bool} (hc : db.cancelAgentTx always now = some db₁) :
    ∃ (request : Bool) (ended done : Db),
      (if request then db.requestRuntimeCancel else db).terminalizeContexts
        (db.runtimeToCancel request) = some ended ∧ db₁ = done.reconcileWakeup now ∧
      (db.currentContinuableTurn = none ∧ done = ended ∨
        ∃ (turn : Id) (stopped : Db), db.currentContinuableTurn = some turn ∧
          ended.appendStop (some turn) now = some stopped ∧
          stopped.completeCalls now (stopped.openCalls turn) = some done) := by
  simp only [cancelAgentTx, bind_eq_some, pure] at hc
  obtain ⟨ended, hterm, hc⟩ := hc
  cases hturn : db.currentContinuableTurn with
  | none =>
    -- without a turn the stop has nowhere to go
    simp only [hturn] at hc
    split at hc
    · obtain ⟨stopped, hstop, -⟩ := bind_eq_some.1 hc
      cases hstop
    · cases hc
      exact ⟨_, ended, ended, hterm, rfl, .inl ⟨rfl, rfl⟩⟩
  | some turn =>
    simp only [hturn, Option.isSome_some, Bool.true_or, if_true, bind_eq_some,
      Option.some.injEq] at hc
    obtain ⟨stopped, hstop, done, hdone, rfl⟩ := hc
    exact ⟨_, ended, done, hterm, rfl, .inr ⟨turn, stopped, rfl, hstop, hdone⟩⟩

theorem terminalizeContexts_unlocked {lock : Option Id} (hlock : lock = none) :
    Post (db.terminalizeContexts lock) (· = db) := by
  subst hlock
  exact .bind fun _ _ => .pure rfl

theorem archived_terminalizeContexts (lock : Option Id) :
    Post (db.terminalizeContexts lock) (·.archived = db.archived) := by
  cases lock with
  | none | some => exact .bind fun _ _ => .pure rfl

theorem cancelAgentTx_frame (always : Bool) : Post (db.cancelAgentTx always now) fun db' =>
    db'.archived = db.archived ∧ (db.lock = none → SameRuntime db db') := by
  intro db' hc
  obtain ⟨request, ended, done, hterm, rfl, hcase⟩ := cancelAgentTx_cases hc
  have hdone : SameRuntime ended done := by
    rcases hcase with ⟨-, rfl⟩ | ⟨turn, stopped, -, hstop, hcomp⟩
    · exact .refl done
    · exact (SameRuntime.appendStop _ stopped hstop).trans (.completeCalls _ done hcomp)
  have hend : SameRuntime ended (done.reconcileWakeup now) := hdone.trans .reconcileWakeup
  refine ⟨?_, fun hlock => ?_⟩
  · rw [hend.archived, archived_terminalizeContexts _ ended hterm]
    cases request <;> rfl
  · have hnone : db.runtimeToCancel request = none := by simp [runtimeToCancel, hlock]
    rw [terminalizeContexts_unlocked hnone ended hterm] at hend
    refine .trans ?_ hend
    cases request with
    | false => exact .refl db
    | true => exact ⟨rfl, by simp [requestRuntimeCancel, hlock], rfl⟩

/-! ## Transactions on an agent without a runtime -/

theorem lock_renewRuntimeLock {lock : Id} {lease : Time} :
    Post (db.renewRuntimeLock lock lease now) (·.lock ≠ none) :=
  .bind fun _ _ => .bind fun _ _ => .pure (Option.some_ne_none _)

/-- A claim that takes work holds the lock; one that does not reconciles the wakeup. -/
theorem claimNextAgentWork_cases (lock : Id) (lease : Time) :
    Post (db.claimNextAgentWork lock lease now) fun db' =>
      db'.lock ≠ none ∨ db' = db.reconcileWakeup now := by
  refine .bind fun _ _ => .bind fun selection _ => ?_
  have hrenew (db₁ : Db) : Post (db₁.renewRuntimeLock lock lease now) fun db' =>
      db'.lock ≠ none ∨ db' = db.reconcileWakeup now :=
    fun _ h => .inl (lock_renewRuntimeLock _ h)
  cases selection with
  | tool => exact .bind fun _ _ => hrenew _
  | model => exact .bind fun _ _ => .bind fun _ _ => hrenew _
  | admitInputs => exact .bind fun _ _ => .bind fun _ _ => .bind fun _ _ => hrenew _
  | toolBatchWait | modelRetryWait | idle => exact .pure (.inr rfl)

theorem post_refused {p : Prop} [Decidable p] (h : ¬ p) {f : Unit → Option Db} {Q : Db → Prop} :
    Post (require p >>= f) Q :=
  .bind fun _ hp => absurd (require_eq_some.1 hp) h

section

variable (hlock : db.lock = none)
include hlock

theorem not_lockActive (lock : Id) : ¬ db.lockActive lock now = true := by
  simp [lockActive, hlock]

theorem not_lockLive (lock : Id) : ¬ db.lockLive lock now = true := by
  simp [lockLive, hlock]

/-- Whatever commits on an agent without a lock leaves the lock and the model calls alone, unless it
is a claim that takes the lock. -/
theorem tx_unlocked (tx : Tx) : Post (tx.run db now) fun db' =>
    (∃ lock lease, tx = .claimNextAgentWork lock lease) ∧ db'.lock ≠ none ∨
      db'.lock = none ∧ db'.contexts = db.contexts := by
  have hactive : ∀ lock, ¬ db.lockActive lock now = true := not_lockActive hlock
  have hlive : ∀ lock, ¬ db.lockLive lock now = true := not_lockLive hlock
  have hsame {db' : Db} (h : SameRuntime db db') :
      (∃ lock lease, tx = .claimNextAgentWork lock lease) ∧ db'.lock ≠ none ∨
        db'.lock = none ∧ db'.contexts = db.contexts := .inr ⟨h.lock.trans hlock, h.contexts⟩
  cases tx with
  | createContentInput | promoteInput =>
    refine .bind fun _ _ => .bind fun db₁ h₁ => .pure (hsame ?_)
    exact .of_inputs ((SameRuntime.cancelOpenInteractions _ db₁ h₁).trans .reconcileWakeup)
  | cancelQueuedBacklogInput | demoteInput =>
    exact .bind fun _ _ => .pure (hsame (.of_inputs .reconcileWakeup))
  | moveInput => exact .bind fun _ _ => .pure (hsame ⟨rfl, rfl, rfl⟩)
  | changeAgentConfig =>
    refine .bind fun db₁ h₁ => .pure (hsame ?_)
    exact .of_inputs ((SameRuntime.appendToCurrentOrNewTurn _ db₁ h₁).trans .reconcileWakeup)
  | replayConfigChange => exact .pure (hsame .reconcileWakeup)
  | cancelAgent => exact fun db' hc => hsame ((cancelAgentTx_frame false db' hc).2 hlock)
  | archiveAgent =>
    refine .bind fun db₁ h₁ => .pure (.inr ?_)
    obtain ⟨-, hlock', hctxs⟩ := (cancelAgentTx_frame true db₁ h₁).2 hlock
    exact ⟨hlock'.trans hlock, hctxs⟩
  | claimNextAgentWork lock lease =>
    intro db' hc
    rcases claimNextAgentWork_cases lock lease db' hc with htaken | rfl
    · exact .inl ⟨⟨lock, lease, rfl⟩, htaken⟩
    · exact hsame .reconcileWakeup
  | renewRuntimeLock => exact .bind fun held hheld => by simp [hlock] at hheld
  | releaseAgentRuntimeLock | replayRequeue => exact post_refused (by simp [lockHeld, hlock])
  | reapExpiredAgentRuntimeLock => exact post_refused (by simp [hlock])
  | claimNormalModelCall | replaceCompactionSource | recordToolCallSource =>
    exact .bind fun _ _ => post_refused (hactive _)
  | resumeCompactionContext =>
    exact .bind fun _ _ => .bind fun _ _ => .bind fun _ _ => .bind fun _ _ => post_refused (hactive _)
  | claimNextModelCallContext | recordFailureAndClaimCompaction | recordRetryableFailure
  | recordTerminalModelCallFailure | recordModelOutput | publishContextCheckpoint =>
    exact post_refused (hactive _)
  | markToolCallAwaitingPermission | markToolCallReady | startToolCall
  | releaseToolCallRuntimeOwnership | completeToolCall | completeRuntimeToolCall =>
    exact post_refused (hlive _)
  | requeueRuntimeToolCall =>
    exact .bind fun _ h₁ => absurd h₁ (by simp [changeCall, require, hlive])
  | completeCustomToolCall =>
    exact .bind fun db₁ h₁ => .pure (hsame ((SameRuntime.completeCallIf _ _ db₁ h₁).trans .markWakeup))
  | completeWaitingToolCall =>
    exact fun db₁ h₁ => hsame (SameRuntime.completeWaitingToolCall _ db₁ h₁)
  | resolveAgentInteraction =>
    refine .bind fun _ _ => .bind fun _ _ => .bind fun _ _ => .bind fun db₁ h₁ => .bind fun db₂ h₂ =>
      .pure (hsame (.of_inputs ((SameRuntime.appendToTurn _ _ _ db₁ h₁).trans ?_)))
    exact (SameRuntime.applyResolution _ _ db₂ h₂).trans .markWakeup
  | replayResolution answered =>
    cases answered with
    | none => exact .pure (hsame .markWakeup)
    | some id =>
      refine .bind fun db₁ h₁ => .pure (hsame ?_)
      exact (SameRuntime.applyResolution id .answer db₁ h₁).trans .markWakeup

end

end Db

end Store
