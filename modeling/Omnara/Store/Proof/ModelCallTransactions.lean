import Omnara.Store.Proof.Frame
import Omnara.Store.Proof.Transactions

/-!
# Transactions on model calls

Each transaction of `Store.ModelCalls` as a path of elementary changes. A claim starts a call after the
last context: a normal call at a frontier no context has yet (`QuietPath.claimNormalModelCall`), the
next attempt of a continuable context (`QuietPath.claimNextModelCallContext`), a compaction in the
transaction that ended the call asking for it (`QuietPath.handOver`). A resumed compaction finds its
context and writes nothing (`resumeCompactionContext_eq`).
-/

namespace Store

open List

namespace Db

variable {db db' : Db} {now : Time}

variable {operation : Operation} {frontier : Nat} {c : ModelCallContext} {allowed : Bool}
  {lock : Id} {sourceEnd : Nat}

/-! ## The latest attempt -/

theorem latestAttempt_eq_latest (db : Db) (operation : Operation) (frontier : Nat) :
    db.latestAttempt operation frontier = OrderBy.latest ModelCallContext.attempt
      (db.contexts.filter fun c => c.operation = operation && c.frontier = frontier) := rfl

theorem latestAttempt_eq_none :
    db.latestAttempt operation frontier = none ↔
      ∀ c ∈ db.contexts, c.operation = operation → c.frontier ≠ frontier := by
  rw [latestAttempt_eq_latest, OrderBy.latest_eq_none, filter_eq_nil_iff]
  simp

section
variable (h : Inv db)
include h

theorem frontier_ne_of_latestAttempt (hnone : db.latestAttempt .normal frontier = none) :
    ∀ c ∈ db.contexts, c.frontier ≠ frontier := by
  intro c hc hf
  obtain ⟨a, ha, hop, haf⟩ := h.context.rows.exists_normal c hc
  exact latestAttempt_eq_none.1 hnone a ha hop (haf.trans hf)

/-! ## No call in flight -/

theorem noLive_of_last {l : List ModelCallContext} (hl : db.contexts = l ++ [c])
    (hdone : c.state ≠ .started) : db.NoLive := by
  have hrows : ModelCallContext.Rows (l ++ [c]) := hl ▸ h.context.rows
  intro a ha
  rw [hl, mem_append, mem_singleton] at ha
  rcases ha with ha | rfl
  · exact (hrows.leads_last a ha).done
  · exact hdone

theorem noLive_of_ended (hc : c ∈ db.contexts) (hlive : c.state = .started) {state : ContextState}
    (hdone : state ≠ .started) (hctxs : db'.contexts = (db.setContextState c.id state).contexts) :
    db'.NoLive := by
  obtain ⟨l, hl, hset⟩ := h.context.rows_ended hc hlive state
  have hrows : ModelCallContext.Rows (l ++ [c]) := hl ▸ h.context.rows
  intro a ha
  rw [hctxs, hset, mem_append, mem_singleton] at ha
  rcases ha with ha | rfl
  · exact (hrows.leads_last a ha).done
  · exact hdone

/-! ## Claims -/

theorem QuietPath.applyAdmission (hc : db.applyAdmission allowed lock now = some db') :
    QuietPath now db db' := by
  simp only [Db.applyAdmission, bind_eq_some, pure] at hc
  obtain ⟨c, hlast, hc⟩ := hc
  split at hc
  · cases hc
    exact .refl
  · exact .recordTerminalFailure h (mem_of_getLast? hlast) hc

theorem QuietPath.startCall {attempt : Nat}
    (hstart : QuietEffect now db (db.insertContext operation frontier attempt lock))
    (hc : (db.insertContext operation frontier attempt lock).applyAdmission allowed lock now = some db') :
    QuietPath now db db' :=
  .andThen h (.single hstart) fun h' => .applyAdmission h' hc

theorem QuietEffect.insertNormal (hlive : db.NoLive) (hopen : db.NoOpen)
    (hmax : db.maxEventSequence = frontier) (hnone : db.latestAttempt .normal frontier = none)
    (hlock : db.lock.map (·.id) = some lock) :
    QuietEffect now db (db.insertContext .normal frontier 1 lock) := by
  have hnext : frontier + 1 = db.nextEventSequence := hmax ▸ h.log.maxEventSequence_eq
  refine .insertContext h hlive (fun _ => ⟨rfl, rfl⟩) (fun a ha => ?_)
    ⟨Nat.le_refl _, by decide⟩ (fun e he => by cases he) hlock
    (h.log.turnAt_last (Nat.le_of_eq hnext.symm)) (h.log.not_stopAfter_last (Nat.le_of_eq hnext.symm))
    (.inr ⟨hnext, hopen⟩)
  have hmem := mem_of_getLast? ha
  have hbd := h.context.frontier a hmem
  have hne := frontier_ne_of_latestAttempt h hnone a hmem
  exact .fresh rfl rfl (show a.frontier < frontier by omega) (hlive a hmem)

theorem QuietPath.claimNormalModelCall (hcur : Current db) {inputIds : List Id} {source : Option Id}
    (hc : db.claimNormalModelCall lock frontier inputIds source allowed now = some db') :
    QuietPath now db db' := by
  simp only [Db.claimNormalModelCall, claimNormalContext, bind_eq_some,
    require_eq_some, pure] at hc
  obtain ⟨-, -, -, hactive, -, hmax, -, -, hc⟩ := hc
  split at hc
  · cases hc
    exact .refl
  · rename_i hsome
    simp only [bind_eq_some, require_eq_some] at hc
    obtain ⟨work, hwork, -, -, -, -, -, hstd, hc⟩ := hc
    have hnone : db.latestAttempt .normal frontier = none := by simpa using hsome
    -- a call in flight would be at an earlier frontier, which the last guard excludes
    have hlive : db.NoLive := by
      intro c hmem hs
      have hbd := h.context.frontier c hmem
      have hne := frontier_ne_of_latestAttempt h hnone c hmem
      have hnext := h.log.maxEventSequence_eq
      refine hstd (any_eq_true.2 ⟨c, hmem, ?_⟩)
      simp only [hs, decide_true, Bool.true_and, decide_eq_true_eq]
      omega
    have hopen := noOpen_of_complete h hcur (not_incomplete_of_modelWork hwork)
    exact .startCall h (.insertNormal h hlive hopen hmax hnone (lock_of_lockActive hactive)) hc

end

theorem exists_retryAt (h : (retryAt? c).any (· ≤ now) = true) :
    ∃ t, c.state = .failed (some (.retry t)) := by
  unfold retryAt? at h
  split at h
  · exact ⟨_, ‹_›⟩
  · cases h

theorem QuietPath.claimNextModelCallContext (h : Inv db) {predecessor : Id}
    (hc : db.claimNextModelCallContext lock predecessor allowed now = some db') :
    QuietPath now db db' := by
  simp only [Db.claimNextModelCallContext, bind_eq_some, require_eq_some, pure] at hc
  obtain ⟨-, hactive, p, hp, latest, -, hc⟩ := hc
  have hmem := (mem_of_context? hp).1
  split at hc
  · rename_i hguard
    obtain ⟨-, hretry, hatt, hcont, -⟩ := hguard
    obtain ⟨t, hst⟩ := exists_retryAt hretry
    obtain ⟨l, hl⟩ := eq_last_of_continuable h hmem hst hcont
    have hlive : db.NoLive := noLive_of_last h hl (by simp [hst])
    simp only [isContinuable, Bool.and_eq_true, decide_eq_true_eq, Bool.not_eq_true'] at hcont
    obtain ⟨⟨⟨⟨⟨⟨-, hturn⟩, -⟩, -⟩, -⟩, -⟩, hstop⟩ := hcont
    refine .startCall h (.insertContext h hlive (fun hnil => ?_) (fun a ha => ?_)
      ⟨Nat.le_add_left _ _, Nat.succ_le_succ hatt⟩ (fun e he => ?_) (lock_of_lockActive hactive)
      hturn hstop (.inl ⟨p, hmem, rfl⟩)) hc
    · simp [hnil] at hl
    · rw [hl, List.getLast?_concat, Option.some.injEq] at ha
      exact ha ▸ .retry t hst rfl rfl rfl
    · have hwf := (h.context.rows.wellFormed p hmem).source e he
      exact ⟨hwf.1, hwf.2, h.source.sources p hmem e he⟩
  · cases hc
    exact .refl

theorem operation_of_sourceEnd? (h : sourceEnd? operation = some sourceEnd) :
    operation = .compaction sourceEnd := by
  cases operation with
  | normal => cases h
  | compaction e =>
    cases h
    rfl

/-- The identity lookup of a resumed compaction always hits. -/
theorem resumeCompactionContext_eq {resumed : Id}
    (hc : db.resumeCompactionContext lock resumed allowed now = some db') : db' = db := by
  simp only [resumeCompactionContext, claimCompactionModelCall, claimCompactionContext, bind_eq_some,
    require_eq_some, pure] at hc
  obtain ⟨c, hctx, sourceEnd, hend, parent, -, -, -, -, -, claim, hclaim, hc⟩ := hc
  obtain ⟨p, -, -, -, -, -, hclaim⟩ := hclaim
  have hop := operation_of_sourceEnd? hend
  have hhit : (db.latestAttempt (.compaction sourceEnd) c.frontier).isSome = true := by
    rw [← Option.ne_none_iff_isSome, Ne, latestAttempt_eq_none]
    exact fun hno => hno c (mem_of_context? hctx).1 hop rfl
  rw [if_pos hhit] at hclaim
  cases hclaim
  cases hc
  rfl

/-! ## Handing over to a compaction -/

theorem claimCompactionContext_spec {parent : Id} {claim : Db × Bool}
    (hc : db.claimCompactionContext lock parent frontier sourceEnd now = some claim)
    (hnew : claim.2 = true) :
    db.summarizedThrough frontier < sourceEnd ∧ db.lockActive lock now = true ∧
      claim.1 = db.insertContext (.compaction sourceEnd) frontier 1 lock := by
  simp only [claimCompactionContext, bind_eq_some, require_eq_some, pure] at hc
  obtain ⟨p, -, -, -, -, hsum, hc⟩ := hc
  split at hc
  · cases hc
    cases hnew
  · simp only [bind_eq_some, require_eq_some, Option.some.injEq] at hc
    obtain ⟨-, hactive, -, -, rfl⟩ := hc
    exact ⟨hsum, hactive, rfl⟩

theorem QuietPath.resolveModelReadyBoundary (h : Inv db) (hcur : Current db) (hlive : db.NoLive)
    {boundary : Db × Bool}
    (hb : db.resolveModelReadyBoundary c now = some boundary) :
    QuietPath now db boundary.1 ∧ (boundary.2 = false → boundary.1 = db) := by
  unfold Db.resolveModelReadyBoundary at hb
  split at hb
  · cases hb
    exact ⟨.refl, fun _ => rfl⟩
  · rename_i hsteering
    obtain ⟨db₁, hadmit, rfl⟩ := Option.map_eq_some_iff.1 hb
    refine ⟨?_, fun hf => by cases hf⟩
    have hbatch : db.hasIncompleteToolBatch = false := by
      cases hinc : db.hasIncompleteToolBatch with
      | false => rfl
      | true => simp [steeringForAdmission, hinc] at hsteering
    exact .admitAndOpenTurn h hlive (noOpen_of_complete h hcur hbatch)
      (admissible_steering hbatch hsteering).content hadmit

section HandOver

variable {c : ModelCallContext} (lock : Id) {state : ContextState} {sourceEnd : Nat} (h : Inv db)
  (hc : c ∈ db.contexts) (hlive : c.state = .started)
  (hfinish : QuietEffect now db (db.setContextState c.id state)) (hdone : state ≠ .started)
  (hfollows : ModelCallContext.Follows { c with state := state }
    ⟨db.freshContext, .compaction sourceEnd, c.frontier, 1, .started, lock⟩)
include h hc hlive hfinish hdone hfollows

/-- The call in flight ends with `state` and a compaction takes its place. -/
theorem QuietEffect.insertCompaction
    (hend : 0 < sourceEnd ∧ sourceEnd ≤ c.frontier ∧ db.summarizedThrough c.frontier < sourceEnd)
    (hlock : db.lock.map (·.id) = some lock) :
    QuietEffect now (db.setContextState c.id state)
      ((db.setContextState c.id state).insertContext (.compaction sourceEnd) c.frontier 1 lock) := by
  obtain ⟨l, hl, hset⟩ := h.context.rows_ended hc hlive state
  obtain ⟨-, hturn, hstop⟩ := h.context.live c hc hlive
  have hfr : (db.setContextState c.id state).freshContext = db.freshContext := by
    simp [freshContext, hset, hl]
  refine .insertContext (hfinish.effect.inv h) (noLive_of_ended h hc hlive hdone rfl) (fun hnil => ?_)
    (fun a ha => ?_) ⟨Nat.le_refl _, by decide⟩ (fun e he => ?_) hlock hturn hstop
    (.inl ⟨{ c with state := state }, by simp [hset], rfl⟩)
  · simp [hset] at hnil
  · rw [hset, List.getLast?_concat, Option.some.injEq] at ha
    rw [hfr]
    exact ha ▸ hfollows
  · cases he
    exact hend

/-- Ending the call, resolving the boundary and, unless that preempts it, claiming the compaction. -/
theorem QuietPath.handOver (hcur : Current db) (hend : sourceEnd ≤ c.frontier) {boundary : Db × Bool}
    (hb : (db.setContextState c.id state).resolveModelReadyBoundary c now = some boundary) :
    QuietPath now db boundary.1 ∧ (boundary.2 = false → ∀ parent claim allowed db',
      boundary.1.claimCompactionContext lock parent c.frontier sourceEnd now = some claim →
        claim.2 = true → claim.1.applyAdmission allowed lock now = some db' → QuietPath now db db') := by
  have hinv := hfinish.effect.inv h
  obtain ⟨hpath, hsame⟩ := QuietPath.resolveModelReadyBoundary hinv (hfinish.current h hcur)
    (noLive_of_ended h hc hlive hdone rfl) hb
  refine ⟨hpath.head hfinish, fun hnot parent claim allowed db' hclaim hnew hadmit => ?_⟩
  rw [hsame hnot] at hclaim
  obtain ⟨hsum, hactive, heq⟩ := claimCompactionContext_spec hclaim hnew
  rw [heq] at hadmit
  refine .andThen h (.single hfinish) fun h' => .startCall h' ?_ hadmit
  exact .insertCompaction lock h hc hlive hfinish hdone hfollows
    ⟨Nat.lt_of_le_of_lt (Nat.zero_le _) hsum, hend, hsum⟩ (lock_of_lockActive hactive)

end HandOver

variable {lock context : Id}

theorem QuietPath.recordFailureAndClaimCompaction (h : Inv db) (hcur : Current db) {parent : Id}
    {allowed : Bool}
    (hc : db.recordFailureAndClaimCompaction lock parent sourceEnd allowed now = some db') :
    QuietPath now db db' := by
  simp only [Db.recordFailureAndClaimCompaction, bind_eq_some, require_eq_some,
    pure] at hc
  obtain ⟨-, -, p, hp, -, ⟨hop, hlive, -, hend⟩, -, -, finished, hfin, boundary, hb, hc⟩ := hc
  obtain ⟨hmem, rfl⟩ := mem_of_context? hp
  obtain ⟨-, rfl⟩ := finishContext_spec hfin
  have hfinish : QuietEffect now db (db.setContextState p.id (.failed (some .compact))) :=
    .finish h hmem hlive (.inr rfl) (by simp)
  obtain ⟨hpath, hclaimed⟩ := QuietPath.handOver lock h hmem hlive hfinish (by simp)
    (.compact sourceEnd hop rfl rfl rfl rfl) hcur hend hb
  split at hc
  · cases hc
    exact .reconcile h hpath
  · rename_i hnot
    simp only [bind_eq_some, require_eq_some, Option.some.injEq] at hc
    obtain ⟨claim, hclaim, -, hnew, admitted, hadmit, rfl⟩ := hc
    have hdone := hclaimed (by simpa using hnot) _ claim allowed _ hclaim hnew hadmit
    split
    · exact .reconcile h hdone
    · exact hdone

theorem QuietPath.replaceCompactionSource (h : Inv db) (hcur : Current db)
    {nextEnd : Nat} {allowed : Bool}
    (hc : db.replaceCompactionSource lock context nextEnd allowed now = some db') :
    QuietPath now db db' := by
  simp only [Db.replaceCompactionSource, bind_eq_some, require_eq_some, pure] at hc
  obtain ⟨-, -, -, -, c, hctx, currentEnd, hcurrent, -, ⟨hlive, -, hlt⟩, -, -, finished, hfin, boundary,
    hb, hc⟩ := hc
  obtain ⟨hmem, rfl⟩ := mem_of_context? hctx
  obtain ⟨-, rfl⟩ := finishContext_spec hfin
  have hop := operation_of_sourceEnd? hcurrent
  have hfinish : QuietEffect now db (db.setContextState c.id (.failed (some .reduceCompactionSource))) :=
    .finish h hmem hlive (.inr rfl) (by simp)
  have hend : nextEnd ≤ c.frontier :=
    Nat.le_trans (Nat.le_of_lt hlt) ((h.context.rows.wellFormed c hmem).source _ hop).2
  obtain ⟨hpath, hclaimed⟩ := QuietPath.handOver lock h hmem hlive hfinish (by simp)
    (.reduce nextEnd currentEnd hop rfl rfl hlt rfl rfl) hcur hend hb
  split at hc
  · cases hc
    exact .reconcile h hpath
  · rename_i hnot
    simp only [bind_eq_some, require_eq_some] at hc
    obtain ⟨parent, -, claim, hclaim, -, hnew, hadmit⟩ := hc
    exact hclaimed (by simpa using hnot) _ claim allowed _ hclaim hnew hadmit

/-! ## Results of a call -/

theorem QuietPath.recordRetryableFailure (h : Inv db) {delay : Time}
    (hc : db.recordRetryableFailure lock context delay now = some db') : QuietPath now db db' := by
  simp only [Db.recordRetryableFailure, bind_eq_some, require_eq_some, pure_eq_some] at hc
  obtain ⟨-, -, c, hctx, -, ⟨hlive, hatt⟩, finished, hfin, rfl⟩ := hc
  obtain ⟨hmem, rfl⟩ := mem_of_context? hctx
  obtain ⟨-, rfl⟩ := finishContext_spec hfin
  exact .reconcile h (.single (.finish h hmem hlive (.inr rfl) fun _ _ => hatt))

theorem QuietPath.recordTerminalModelCallFailure (h : Inv db)
    (hc : db.recordTerminalModelCallFailure lock context now = some db') : QuietPath now db db' := by
  simp only [Db.recordTerminalModelCallFailure, bind_eq_some] at hc
  obtain ⟨-, -, c, hctx, -, -, hr⟩ := hc
  exact .recordTerminalFailure h (mem_of_context? hctx).1 hr

theorem QuietPath.recordModelOutput (h : Inv db) {reason : StopReason}
    (hc : db.recordModelOutput lock context reason now = some db') : QuietPath now db db' := by
  simp only [Db.recordModelOutput, bind_eq_some, require_eq_some] at hc
  obtain ⟨-, -, c, hctx, -, ⟨hop, -, hlive⟩, -, -, published, hpub, hfin⟩ := hc
  obtain ⟨hmem, rfl⟩ := mem_of_context? hctx
  obtain ⟨-, rfl⟩ := finishContext_spec hfin
  have heff : QuietEffect now db { published with
      contexts := (db.setContextState c.id .succeeded).contexts
      toolCalls := db.toolCalls ++ [] } :=
    .publishOutput h hmem hlive hpub (.inr ⟨rfl, hop⟩) rfl (by simp)
  obtain ⟨turn, turns, -, -, -, rfl⟩ := publishOutput_spec hpub
  simp only [append_nil] at heff
  exact .single heff

/-- The results of tool calls do not depend on the model calls. -/
theorem completeCalls_contexts {calls : List ToolCall} (hc : db.completeCalls now calls = some db')
    (contexts : List ModelCallContext) :
    completeCalls { db with contexts := contexts } now calls =
      some { db' with contexts := contexts } := by
  induction calls generalizing db with
  | nil =>
    cases hc
    rfl
  | cons call calls ih =>
    simp only [completeCalls, completeCall, appendToTurn, bind_eq_some,
      require_eq_some, pure, Option.some.injEq] at hc ⊢
    obtain ⟨db₁, ⟨source, hsrc, -, hturn, rfl⟩, hrest⟩ := hc
    exact ⟨_, ⟨source, hsrc, (), hturn, rfl⟩, ih hrest⟩

/-- The rows of `insertToolCalls`. -/
def newCalls (db : Db) (context : Id) (types : List ToolType) (now : Time) : List ToolCall :=
  types.mapIdx fun k type => ⟨db.toolCalls.length + k, context, type, .awaitingAuthorization, now⟩

theorem ids_newCalls (db : Db) (context : Id) (types : List ToolType) (now : Time) :
    (db.newCalls context types now).map (·.id) =
      List.range' db.toolCalls.length (db.newCalls context types now).length := by
  refine ext_getElem (by simp) fun k h₁ h₂ => ?_
  simp [newCalls]

theorem mem_newCalls {types : List ToolType} {call : ToolCall}
    (h : call ∈ db.newCalls context types now) :
    call.output = context ∧ call.state = .awaitingAuthorization := by
  obtain ⟨k, hk, rfl⟩ := mem_mapIdx.1 h
  exact ⟨rfl, rfl⟩

theorem rejected_sublist {calls : List (ToolType × Bool)} (old new : List ToolCall)
    (hlen : new.length = calls.length) :
    (((((old ++ new).drop old.length).zip calls).filter (·.2.2)).map (·.1)).Sublist new := by
  refine (List.Sublist.map Prod.fst filter_sublist).trans ?_
  rw [drop_left, map_fst_zip (Nat.le_of_eq hlen)]

/-- The source publishes the output, completes the rejected calls and ends the context last. Ending it
with the output gives the same rows. -/
theorem QuietPath.recordToolCallSource (h : Inv db) {reason : StopReason}
    {calls : List (ToolType × Bool)}
    (hc : db.recordToolCallSource lock context reason calls now = some db') : QuietPath now db db' := by
  simp only [Db.recordToolCallSource, bind_eq_some, require_eq_some, pure_eq_some] at hc
  obtain ⟨-, -, -, -, c, hctx, -, ⟨hop, -, hlive⟩, published, hpub, completed, hcomp, finished, hfin,
    rfl⟩ := hc
  obtain ⟨hmem, rfl⟩ := mem_of_context? hctx
  obtain ⟨-, rfl⟩ := finishContext_spec hfin
  refine .mark h ?_
  have hids := db.ids_newCalls c.id (calls.map (·.1)) now
  have hlen : (db.newCalls c.id (calls.map (·.1)) now).length = calls.length := by simp [newCalls]
  have heff := QuietEffect.publishOutput h hmem hlive hpub (.inr ⟨rfl, hop⟩) hids
    (fun call hcall => ⟨(mem_newCalls hcall).1, by simp [(mem_newCalls hcall).2]⟩)
  obtain ⟨turn, turns, -, -, -, rfl⟩ := publishOutput_spec hpub
  have hctxs := (SameRuntime.completeCalls _ _ hcomp).contexts
  have hset := completeCalls_contexts hcomp (db.setContextState c.id .succeeded).contexts
  refine .andThen h (.single heff) fun h' => ?_
  have hend : completed.setContextState c.id .succeeded =
      { completed with contexts := (db.setContextState c.id .succeeded).contexts } := by
    simp only [setContextState, hctxs]
    rfl
  rw [hend]
  have hsub := rejected_sublist db.toolCalls (db.newCalls c.id (calls.map (·.1)) now) hlen
  refine .completeCalls h' (fun call hcall => ?_) ?_ hset
  · have hnew := hsub.subset hcall
    exact ⟨mem_append_right _ hnew, by simp [(mem_newCalls hnew).2]⟩
  · exact (hsub.map _).nodup (hids ▸ nodup_range')

theorem QuietPath.publishContextCheckpoint (h : Inv db)
    (hc : db.publishContextCheckpoint lock context now = some db') : QuietPath now db db' := by
  simp only [Db.publishContextCheckpoint, bind_eq_some, require_eq_some, pure_eq_some] at hc
  obtain ⟨-, -, c, hctx, sourceEnd, hend, -, ⟨hlive, -⟩, -, -, -, -, turn, -, published, hpub, finished,
    hfin, rfl⟩ := hc
  obtain ⟨hmem, rfl⟩ := mem_of_context? hctx
  obtain ⟨-, rfl⟩ := finishContext_spec hfin
  exact .reconcile h (.single (.checkpoint h hmem hlive hend hpub))

/-! ## Recovery -/

/-- Under the lock that is held, recovery ends the call in flight. -/
theorem QuietPath.recoverRuntimeContext (h : Inv db) {delay : Time}
    (hlock : db.lock.map (·.id) = some lock)
    (hc : db.recoverRuntimeContext lock delay now = some db') : QuietPath now db db' ∧ db'.NoLive := by
  unfold Db.recoverRuntimeContext at hc
  split at hc
  · rename_i hnone
    cases hc
    refine ⟨.refl, fun c hmem hs => ?_⟩
    have hheld : some lock = some c.runtimeLock := hlock ▸ (h.context.live c hmem hs).1
    have hno := List.find?_eq_none.1 hnone c hmem
    simp [Option.some.inj hheld, hs] at hno
  · rename_i c hfind
    have hmem := mem_of_find?_eq_some hfind
    have hcond := List.find?_some hfind
    simp only [Bool.and_eq_true, decide_eq_true_eq] at hcond
    obtain ⟨-, hlive⟩ := hcond
    split at hc
    · refine ⟨.recordTerminalFailure h hmem hc, ?_⟩
      simp only [Db.recordTerminalFailure, bind_eq_some, pure_eq_some] at hc
      obtain ⟨finished, hfin, published, hpub, rfl⟩ := hc
      obtain ⟨-, rfl⟩ := finishContext_spec hfin
      obtain ⟨turn, turns, -, -, -, rfl⟩ := publishOutput_spec hpub
      refine noLive_of_ended h hmem hlive (show ContextState.failed none ≠ .started by simp) ?_
      unfold Db.reconcileWakeup
      split <;> rfl
    · rename_i hatt
      cases hc
      exact ⟨.single (.finish h hmem hlive (.inr rfl) fun _ _ => Nat.le_of_not_lt hatt),
        noLive_of_ended h hmem hlive (by simp) rfl⟩

end Db

end Store
