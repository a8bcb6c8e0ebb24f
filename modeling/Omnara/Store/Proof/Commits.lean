import Omnara.Store.Proof.Reachable

/-!
# Claims and reaps commit

What keeps an agent going must not fail. Under the invariant

* a claim that finds the wakeup due and its work ready takes the runtime lock
  (`commits_claimNextAgentWork`): none of the checks it makes after its selection can fail;
* the reaping of an expired lock ends the runtime (`commits_reapExpiredAgentRuntimeLock`): the call in
  flight has a turn to publish its error in, and every tool call it completes has its source event.
-/

namespace Store

open List

open Transaction (Commits Post)

theorem commits_require {p : Prop} [Decidable p] (h : p) : Commits (require p) fun _ => True :=
  ⟨(), require_eq_some.2 h, trivial⟩

namespace Db

variable {db db' : Db} {now : Time}

/-! ## The claim's selection -/

theorem openings_of_nextModelWork (h : LogInv db) {work : ModelWork}
    (hwork : db.nextModelWork = some work) :
    work.inputIds ≠ [] ∧ 0 < work.openingEventSequence := by
  unfold nextModelWork at hwork
  split at hwork
  · cases hwork
  · obtain ⟨c, -, hc⟩ := exists_of_findSome?_eq_some hwork
    unfold withOpenings at hc
    split at hc
    · cases hc
    · rename_i o os hopenings
      cases hc
      obtain ⟨e, he, hseq⟩ := exists_event_of_opening (o := o) (hopenings ▸ mem_cons_self)
      exact ⟨by simp, hseq ▸ (h.sequence_bounds he).1⟩

theorem nextModelWork_of_selectWork {work : ModelWork} (h : db.selectWork now = .ok (.model work)) :
    db.nextModelWork = some work := by
  unfold selectWork at h
  split at h
  · cases h
  · cases h
  · split at h
    · split at h <;> cases h
    · split at h
      · cases h
      · split at h
        · split at h
          · cases h
            rename_i hmodel _
            exact hmodel
          · cases h
        · split at h <;> cases h

/-! ## Admission -/

theorem openings_ne_nil {turn : Id} {max : Nat} {e : AgentEvent} (he : e ∈ db.events)
    (hturn : e.turn = turn) (hopen : e.isOpening = true) (hle : e.sequence ≤ max)
    (hadmitted : db.admittedContent e ≠ none) : db.modelCallOpeningContentInputs turn max ≠ [] := by
  obtain ⟨o, ho⟩ := Option.ne_none_iff_exists'.1 hadmitted
  have hmem : o ∈ db.turnOpeningContentInputs turn max :=
    mem_filterMap.2 ⟨e, mem_filter.2 ⟨he, by simp [hturn, hopen, hle]⟩, ho⟩
  intro hnil
  rw [modelCallOpeningContentInputs, ← length_eq_zero_iff, length_insertionSort,
    length_eq_zero_iff] at hnil
  -- the opening inputs are those no output has answered, or those of the turn, which has one
  split at hnil
  · simp [hnil] at hmem
  · contradiction

/-- The input admitted last is among the opening inputs of its turn. -/
theorem openings_openWith (turn : Id) (x : Id) (hx : ∃ i ∈ db.inputs, i.id = x ∧ i.kind = .content) :
    ((db.openWith turn now x).insertTurn turn).modelCallOpeningContentInputs turn
      ((db.openWith turn now x).nextEventSequence - 1) ≠ [] := by
  obtain ⟨i, hi, rfl, hkind⟩ := hx
  let e : AgentEvent := ⟨db.nextEventSequence, turn, .agentInput i.id, true, now⟩
  refine openings_ne_nil (e := e) ?_ rfl rfl (Nat.le_refl _) ?_
  · exact mem_append_right _ (mem_singleton_self e)
  · rw [admittedContent, Ne, Option.map_eq_none_iff, List.find?_eq_none]
    intro hnone
    refine hnone { i with state := .resolved, admittedEvent := some db.nextEventSequence } ?_
      (by simp [e, hkind])
    exact mem_map.2 ⟨i, hi, if_pos rfl⟩

theorem openings_admitted (turn : Id) {inputs : List AgentInput} (h : Admissible db inputs) :
    ((db.openWithAll turn now (inputs.map (·.id))).insertTurn turn).modelCallOpeningContentInputs turn
      ((db.openWithAll turn now (inputs.map (·.id))).nextEventSequence - 1) ≠ [] := by
  obtain rfl | ⟨init, last, rfl⟩ := eq_nil_or_concat inputs
  · exact absurd rfl h.nonempty
  rw [concat_eq_append] at h ⊢
  rw [map_append, map_singleton, openWithAll, foldl_append]
  refine openings_openWith turn last.id ?_
  -- the inputs admitted before keep the row of the last one in place
  obtain ⟨hmem, -, hkind⟩ := h.received last (by simp)
  obtain ⟨g, hg, heq⟩ := openWithAll_spec turn now (init.map (·.id)) db
  refine ⟨g last, ?_, (hg last).1, (hg last).2.1.trans hkind⟩
  show g last ∈ (db.openWithAll turn now (init.map (·.id))).inputs
  rw [heq]
  exact mem_map_of_mem hmem

theorem commits_admitAndOpenTurn {inputs : List AgentInput} (h : Admissible db inputs) :
    Commits (db.admitAndOpenTurn inputs now) fun db' =>
      db'.modelCallOpeningContentInputs db.nextTurnSequence (db'.nextEventSequence - 1) ≠ [] ∧
        db'.lock = db.lock := by
  refine .bind (commits_require h.nonempty) fun _ _ _ => .bind (commits_require h.single) fun _ _ _ =>
    .bind (commits_require fun i hi => ⟨i, (h.received i hi).1, rfl, (h.received i hi).2.1⟩)
    fun _ _ _ => .pure ⟨openings_admitted _ h, ?_⟩
  obtain ⟨g, -, heq⟩ := openWithAll_spec db.nextTurnSequence now (inputs.map (·.id)) db
  rw [heq]
  rfl

/-! ## The claim -/

def taken (db : Db) (lock : Id) (lease now : Time) : Db :=
  { db with lock := some ⟨lock, now + lease, false⟩, wakeup := none }

theorem takeWork_eq (harch : db.archived = false) (hlock : db.lock = none) (lock : Id) (lease : Time) :
    db.takeWork lock lease now = some (db.taken lock lease now) := by
  simp [takeWork, acquireRuntimeLock, require, harch, hlock, taken]

theorem commits_renewRuntimeLock {lock : Id} {lease : Time} (h : db.lock.map (·.id) = some lock) :
    Commits (db.renewRuntimeLock lock lease now) (·.lock ≠ none) := by
  obtain ⟨held, hheld, rfl⟩ := Option.map_eq_some_iff.1 h
  refine .bind ⟨held, hheld, rfl⟩ fun _ _ heq => ?_
  exact .bind (commits_require (by rw [heq])) fun _ _ _ => .pure (Option.some_ne_none _)

theorem commits_claimSelected (h : Inv db) (hcur : Current db) (harch : db.archived = false)
    (hlock : db.lock = none) {selection : Selection} (hsel : db.selectWork now = .ok selection)
    (hpicks : selection.picks = true) (lock : Id) (lease : Time) :
    Commits (db.claimSelected lock lease now selection) (·.lock ≠ none) := by
  have htake : Commits (db.takeWork lock lease now) (· = db.taken lock lease now) :=
    ⟨_, takeWork_eq harch hlock lock lease, rfl⟩
  cases selection with
  | toolBatchWait | modelRetryWait | idle => cases hpicks
  | tool frontier =>
    refine htake.bind fun _ _ heq => commits_renewRuntimeLock ?_
    rw [heq]
    rfl
  | model work =>
    have hopenings := openings_of_nextModelWork h.log (nextModelWork_of_selectWork hsel)
    refine htake.bind fun _ _ heq => .bind (commits_require hopenings) fun _ _ _ =>
      commits_renewRuntimeLock ?_
    rw [heq]
    rfl
  | admitInputs inputs =>
    obtain ⟨hbatch, hinps⟩ := selectWork_admitInputs hsel
    have hinv : Inv (db.taken lock lease now) :=
      (QuietEffect.takeWork h (takeWork_eq harch hlock lock lease)).effect.inv h
    have hlive : db.NoLive := h.noLive_of_unlocked hlock
    have hopen : db.NoOpen := noOpen_of_complete h hcur hbatch
    refine htake.bind fun _ _ heq => ?_
    subst heq
    -- taking the lock touches no row that the admission reads
    have hadmissible : Admissible (db.taken lock lease now) inputs := ⟨hinps.1, hinps.2, hinps.3⟩
    refine .bind (commits_admitAndOpenTurn hadmissible) fun admitted hadmit ⟨hne, hlock'⟩ => ?_
    have hpath := QuietPath.admitAndOpenTurn hinv hlive hopen hadmissible.content hadmit
    have hlog := (Path.inv (QuietPath.path hpath) hinv).log
    refine .bind (commits_require ⟨hne, fun o ho => ?_⟩) fun _ _ _ => commits_renewRuntimeLock ?_
    · obtain ⟨e, he, hseq⟩ := exists_event_of_opening ho
      exact hseq ▸ (hlog.sequence_bounds he).1
    · rw [hlock']
      rfl

/-- **A claim that finds the wakeup due and work ready takes the runtime lock.** -/
theorem commits_claimNextAgentWork (h : Inv db) (hcur : Current db) (harch : db.archived = false)
    (hlock : db.lock = none) {w r : Time} (hw : db.wakeup = some w) (hwnow : w ≤ now)
    (hr : db.nextWakeupReadyAt now = some r) (hrnow : r ≤ now) (lock : Id) (lease : Time) :
    Commits (db.claimNextAgentWork lock lease now) (·.lock ≠ none) := by
  obtain ⟨selection, hsel, hagr, -⟩ := selectWork_spec db now
  have hpicks : selection.picks = true := by
    cases selection <;> simp only [Selection.Agrees, hr] at hagr <;> grind [Selection.picks]
  have hguard : ¬ db.archived = true ∧ db.lock = none ∧ db.wakeup.any (· ≤ now) = true := by
    simp [harch, hlock, hw, hwnow]
  exact .bind (commits_require hguard) fun _ _ _ => .bind ⟨selection, by rw [hsel]; rfl, rfl⟩
    fun _ _ heq => heq ▸ commits_claimSelected h hcur harch hlock hsel hpicks lock lease

/-! ## Completing tool calls -/

theorem turn_mem_of_event (h : LogInv db) {e : AgentEvent} (he : e ∈ db.events) :
    e.turn ∈ db.turns.map (·.turnSequence) :=
  h.mem_turnRows.2 (h.turn e he)

theorem commits_completeCall (h : Inv db) {call : ToolCall} (hcall : call ∈ db.toolCalls) :
    Commits (db.completeCall call now) fun _ => True := by
  obtain ⟨e, he, hp⟩ := exists_source h hcall
  have hsrc : db.sourceEvent call ≠ none := by
    rw [sourceEvent, Ne, List.head?_eq_none_iff]
    exact ne_nil_of_mem (mem_filter.2 ⟨he, by simpa using hp⟩)
  obtain ⟨source, hsrc⟩ := Option.ne_none_iff_exists'.1 hsrc
  have hmem := (mem_filter.1 (mem_of_mem_head? hsrc)).1
  refine .bind ⟨source, hsrc, rfl⟩ fun _ _ heq => ?_
  subst heq
  exact .bind (commits_require (turn_mem_of_event h.log hmem)) fun _ _ _ => .pure trivial

theorem commits_completeCalls (h : Inv db) {calls : List ToolCall}
    (hcalls : ∀ call ∈ calls, call ∈ db.toolCalls ∧ call.state ≠ .completed)
    (hnd : (calls.map (·.id)).Nodup) : Commits (db.completeCalls now calls) fun _ => True := by
  induction calls generalizing db with
  | nil => exact .pure trivial
  | cons call calls ih =>
    obtain ⟨hcall, hopen⟩ := hcalls call mem_cons_self
    rw [map_cons, nodup_cons] at hnd
    refine .bind (commits_completeCall h hcall) fun db₁ h₁ _ => ?_
    refine ih ((QuietEffect.completeCall h hcall hopen h₁).effect.inv h) (fun x hx => ?_) hnd.2
    obtain ⟨hmem, hne⟩ := hcalls x (mem_cons_of_mem _ hx)
    exact ⟨mem_of_completeCall h₁ hmem fun hid => hnd.1 (hid ▸ mem_map_of_mem hx), hne⟩

theorem mem_of_completeCalls {calls : List ToolCall} {x : ToolCall}
    (hc : db.completeCalls now calls = some db') (hx : x ∈ db.toolCalls)
    (hid : x.id ∉ calls.map (·.id)) : x ∈ db'.toolCalls := by
  induction calls generalizing db with
  | nil =>
    cases hc
    exact hx
  | cons call calls ih =>
    rw [map_cons, mem_cons, not_or] at hid
    simp only [completeCalls, bind_eq_some] at hc
    obtain ⟨db₁, h₁, hrest⟩ := hc
    exact ih hrest (mem_of_completeCall h₁ hx hid.1) hid.2

theorem toolCalls_markWakeup : (db.markWakeup now).toolCalls = db.toolCalls := by
  unfold markWakeup
  split <;> rfl

/-- The interrupted calls are completed; the calls that wait outside the runtime keep waiting. -/
theorem commits_failRuntimeToolCalls (h : Inv db) (lock : Id) :
    Commits (db.failRuntimeToolCalls lock now) fun db' =>
      ∀ call ∈ db.toolCalls, call.state = .waiting → call ∈ db'.toolCalls := by
  have hrunning (call : ToolCall) (hcall : call ∈ db.runtimeCalls lock) :
      call ∈ db.toolCalls ∧ call.state = .running lock := by
    obtain ⟨hmem, hrun⟩ := mem_filter.1 hcall
    simp only [Bool.and_eq_true, decide_eq_true_eq] at hrun
    exact ⟨hmem, hrun.1⟩
  have hopen (call : ToolCall) (hcall : call ∈ db.runtimeCalls lock) :
      call ∈ db.toolCalls ∧ call.state ≠ .completed := by
    obtain ⟨hmem, hrun⟩ := hrunning call hcall
    exact ⟨hmem, by simp [hrun]⟩
  refine .bind (commits_completeCalls h hopen (nodup_ids_of_sublist h filter_sublist))
    fun failed hfailed _ => .pure fun call hcall hwaits => ?_
  have hmem : call ∈ failed.toolCalls := by
    refine mem_of_completeCalls hfailed hcall fun hid => ?_
    obtain ⟨x, hx, hxid⟩ := mem_map.1 hid
    obtain ⟨hxmem, hrun⟩ := hrunning x hx
    rw [h.batch.id_inj hxmem hcall hxid, hwaits] at hrun
    cases hrun
  split
  · exact hmem
  · rwa [toolCalls_markWakeup]

/-! ## Calls of queued processes -/

/-- The calls of the queued processes and actions that the reaper fails: `FailQueuedProcessesForRuntimeEnd`
and `FailQueuedProcessActionsForRuntimeEnd` return rows whose calls are distinct waiting built-in
calls, or completed ones, which are passed over. -/
def QueuedCalls (db : Db) (ids : List Id) : Prop :=
  ids.Nodup ∧ ∀ id ∈ ids, ∃ call ∈ db.toolCalls, call.id = id ∧ call.state = .waiting ∧
    call.type = .builtIn

theorem call?_of_mem (h : Inv db) {call : ToolCall} (hcall : call ∈ db.toolCalls) :
    db.call? call.id = some call := by
  cases hfind : db.call? call.id with
  | none => exact absurd (List.find?_eq_none.1 hfind call hcall) (by simp)
  | some x =>
    obtain ⟨hx, hid⟩ := mem_of_call? hfind
    rw [h.batch.id_inj hx hcall hid]

theorem commits_completeWaitingToolCalls (h : Inv db) {ids : List Id} (hids : QueuedCalls db ids) :
    Commits (db.completeWaitingToolCalls now ids) fun _ => True := by
  induction ids generalizing db with
  | nil => exact .pure trivial
  | cons id ids ih =>
    obtain ⟨hnd, hcalls⟩ := hids
    rw [nodup_cons] at hnd
    obtain ⟨call, hcall, rfl, hwaits, htype⟩ := hcalls id mem_cons_self
    have hone : Commits (db.completeWaitingToolCall call.id now) fun db₁ =>
        ∀ x ∈ db.toolCalls, x.id ≠ call.id → x ∈ db₁.toolCalls := by
      refine .bind (P := fun db₁ => ∀ x ∈ db.toolCalls, x.id ≠ call.id → x ∈ db₁.toolCalls) ?_
        fun db₁ _ hmem => .pure fun x hx hid => ?_
      · refine .bind ⟨call, call?_of_mem h hcall, rfl⟩ fun _ _ heq => ?_
        subst heq
        refine .bind (commits_require (by simp [hwaits, htype])) fun _ _ _ => ?_
        exact (commits_completeCall h hcall).mono fun db₁ h₁ _ x hx hid => mem_of_completeCall h₁ hx hid
      · rw [toolCalls_markWakeup]
        exact hmem x hx hid
    refine hone.bind fun db₁ h₁ hmem => ih (Path.inv (QuietPath.path (.completeWaitingToolCall h h₁)) h)
      ⟨hnd.2, fun id hid => ?_⟩
    obtain ⟨x, hx, rfl, hrest⟩ := hcalls id (mem_cons_of_mem _ hid)
    exact ⟨x, hmem x hx fun heq => hnd.1 (heq ▸ hid), rfl, hrest⟩

/-! ## Reaping -/

/-- The error of a call in flight has a turn to go to: that of its frontier, the latest one. -/
theorem commits_recordTerminalFailure (h : Inv db) {c : ModelCallContext} (hc : c ∈ db.contexts)
    (hlive : c.state = .started) :
    Commits (db.recordTerminalFailure c c.runtimeLock true now) (·.toolCalls = db.toolCalls) := by
  obtain ⟨hlock, hturn, -⟩ := h.context.live c hc hlive
  obtain ⟨held, hheld, hid⟩ := Option.map_eq_some_iff.1 hlock
  have hlast := h.log.latestTurnId_eq
  have hfin : Commits (db.finishContext c.id c.runtimeLock (.failed none) true now)
      (· = db.setContextState c.id (.failed none)) := by
    refine .bind (commits_require (by simp [hheld, hid])) fun _ _ _ => .bind (commits_require ?_)
      fun _ _ _ => .pure rfl
    exact any_eq_true.2 ⟨c, hc, by simp [hlive]⟩
  refine hfin.bind fun _ _ heq => ?_
  subst heq
  have hpublish : Commits ((db.setContextState c.id (.failed none)).publishOutput c .error true now)
      (·.toolCalls = db.toolCalls) := by
    refine .bind ⟨_, hturn.trans hlast, rfl⟩ fun _ _ heq => ?_
    subst heq
    refine .bind (commits_require (h.log.mem_turnRows.2 ⟨h.log.turns_pos, Nat.le_refl _⟩))
      fun _ _ _ => .pure rfl
  refine hpublish.bind fun published _ hcalls => .pure ?_
  rw [← hcalls, reconcileWakeup]
  split <;> rfl

theorem commits_recoverRuntimeContext (h : Inv db) (lock : Id) (delay : Time) :
    Commits (db.recoverRuntimeContext lock delay now) (·.toolCalls = db.toolCalls) := by
  unfold recoverRuntimeContext
  split
  · exact .pure rfl
  · rename_i c hfind
    have hcond := List.find?_some hfind
    simp only [Bool.and_eq_true, decide_eq_true_eq] at hcond
    obtain ⟨rfl, hlive⟩ := hcond
    split
    · exact commits_recordTerminalFailure h (mem_of_find?_eq_some hfind) hlive
    · exact .pure rfl

/-- **An expired lock can be reaped**, whatever its runtime was doing. -/
theorem commits_reapExpiredAgentRuntimeLock (h : Inv db) {l : RuntimeLock} (hlock : db.lock = some l)
    (hexp : l.leaseExpiresAt ≤ now) (delay : Time) {queued : List Id}
    (hqueued : QueuedCalls db queued) :
    Commits (db.reapExpiredAgentRuntimeLock l.id delay queued now) (·.lock = none) := by
  refine .bind (commits_require (by simp [hlock, hexp])) fun _ _ _ => ?_
  refine .bind (commits_recoverRuntimeContext h l.id delay) fun recovered hrec hcalls => ?_
  have hpath := (QuietPath.recoverRuntimeContext h (by rw [hlock]; rfl) hrec).1
  have hinv := Path.inv (QuietPath.path hpath) h
  refine .bind (commits_failRuntimeToolCalls hinv l.id) fun failed hfail hwaiting => ?_
  have hinv' := Path.inv (QuietPath.path (.failRuntimeToolCalls hinv hfail)) hinv
  have hqueued' : QueuedCalls failed queued := by
    refine ⟨hqueued.1, fun id hid => ?_⟩
    obtain ⟨call, hcall, hcallid, hwaits, htype⟩ := hqueued.2 id hid
    exact ⟨call, hwaiting call (hcalls ▸ hcall) hwaits, hcallid, hwaits, htype⟩
  refine .bind (commits_completeWaitingToolCalls hinv' hqueued') fun _ _ _ => .pure ?_
  rw [SameRuntime.reconcileWakeup.lock]
  rfl

end Db

end Store
