import Omnara.Store.Proof.Change

/-!
# The writes as elementary changes

For each write of `Store.Write` the elementary change it is, with the conditions under which a
transaction may make it. Wakeups, locks and turn columns are bookkeeping
(`QuietEffect.bookkeeping`); rows of the backlog change without touching a stop
(`QuietEffect.inputs`); events are appended to a turn (`Extends.appended`) or open one
(`QuietEffect.openTurn`); model calls start and end, tool calls move and complete.
-/

namespace Store

open List

namespace Db

variable {db db' : Db} {now : Time}

variable {rows : List AgentInput} {id turn lock : Id} {semantic : Bool} {now : Time}
  {call : ToolCall} {calls : List ToolCall} {state : ContextState} {c : ModelCallContext}

/-! ## Bookkeeping -/

theorem Extends.of_same (hlog : LogInv db) (hevs : db'.events = db.events)
    (hnext : db'.nextEventSequence = db.nextEventSequence)
    (hturns : db'.turns.map (·.turnSequence) = db.turns.map (·.turnSequence))
    (hinps : db'.inputs = db.inputs) : Extends db db' [] := by
  have hlen : db'.turns.length = db.turns.length := by simpa using congrArg List.length hturns
  refine ⟨by simp [hevs], by simp [hnext], rfl, ?_, Nat.le_of_eq hlen.symm, by simp, by simp,
    .inl hlen, hinps ▸ hlog.inputRows, by rw [hinps], by simp, fun e _ => ?_⟩
  · rw [hturns, hlog.turnRows, hlen]
  · simp only [isStop, hinps]

theorem QuietEffect.bookkeeping (hlog : LogInv db) (hevs : db'.events = db.events)
    (hnext : db'.nextEventSequence = db.nextEventSequence) (hturns : db'.turns = db.turns)
    (hinps : db'.inputs = db.inputs) (hsame : SameTables db db')
    (harchived : db.archived = true → db'.archived = true)
    (hlock : db.NoLive ∨ db'.lock.map (·.id) = db.lock.map (·.id)) : QuietEffect now db db' :=
  ⟨[], .of_same hlog hevs hnext (by rw [hturns]) hinps,
    .log hsame (by simp) hlock (by simp) (by simp), by simp, harchived, by simp,
    fun _ hr => .inl (hsame.results ▸ hr), fun _ hk => .inl (hsame.checkpoints ▸ hk)⟩

theorem QuietEffect.markWakeup (h : Inv db) (now : Time) : QuietEffect now db (db.markWakeup now) := by
  unfold Db.markWakeup
  split <;> exact .bookkeeping h.log rfl rfl rfl rfl ⟨rfl, rfl, rfl, rfl, rfl⟩ id (.inr rfl)

theorem QuietEffect.reconcileWakeup (h : Inv db) (now : Time) :
    QuietEffect now db (db.reconcileWakeup now) := by
  unfold Db.reconcileWakeup
  split <;> exact .bookkeeping h.log rfl rfl rfl rfl ⟨rfl, rfl, rfl, rfl, rfl⟩ id (.inr rfl)

theorem Inv.noLive_of_unlocked (h : Inv db) (hlock : db.lock = none) : db.NoLive := by
  intro c hc hs
  simpa [hlock] using (h.context.live c hc hs).1

/-! ## Rows of inputs -/

section
variable (hlog : LogInv db)
include hlog

theorem QuietEffect.inputs (hids : rows.map (·.id) = List.range rows.length)
    (hlen : db.inputs.length ≤ rows.length)
    (hstops : ∀ e ∈ db.events, isStop { db with inputs := rows } e = db.isStop e) :
    QuietEffect now db { db with inputs := rows } :=
  ⟨[], ⟨by simp, by simp, rfl, hlog.turnRows, Nat.le_refl _, by simp, by simp, .inl rfl, hids, hlen,
    by simp, hstops⟩, .log ⟨rfl, rfl, rfl, rfl, rfl⟩ (by simp) (.inr rfl) (by simp) (by simp), by simp,
    .of_same rfl rfl rfl (by simp)⟩

theorem QuietEffect.insertInput {row : AgentInput} (hid : row.id = db.inputs.length) :
    QuietEffect now db { db with inputs := db.inputs ++ [row] } := by
  refine .inputs hlog ?_ (by simp) fun e he => ?_
  · rw [map_append, hlog.inputRows, length_append, length_singleton, range_succ, map_singleton, hid]
  · have hnew : e.payload ≠ .agentInput row.id := fun hp => by
      have hlt := hlog.input e he row.id hp
      rw [hid] at hlt
      exact Nat.lt_irrefl _ hlt
    simp [isStop, hnew]

/-- A change of rows that keeps ids and kinds, and the state of every control. -/
theorem QuietEffect.mapInputs {g : AgentInput → AgentInput}
    (hg : ∀ i ∈ db.inputs, (g i).id = i.id ∧ (g i).kind = i.kind ∧
      (i.kind = .control → (g i).state = i.state)) :
    QuietEffect now db { db with inputs := db.inputs.map g } := by
  refine .inputs hlog ?_ (by simp) fun e _ => ?_
  · rw [map_map, length_map, ← hlog.inputRows]
    exact map_congr_left fun i hi => (hg i hi).1
  · have hrow (i : AgentInput) (hi : i ∈ db.inputs) : (e.payload = .agentInput (g i).id ∧
        (g i).kind = .control ∧ (g i).state = .resolved) ↔
        (e.payload = .agentInput i.id ∧ i.kind = .control ∧ i.state = .resolved) := by
      obtain ⟨h₁, h₂, h₃⟩ := hg i hi
      rw [h₁, h₂]
      exact and_congr_right fun _ => and_congr_right fun hk => by rw [h₃ hk]
    rw [Bool.eq_iff_iff]
    simp only [isStop, any_map, any_eq_true, Function.comp_apply, decide_eq_true_eq]
    exact exists_congr fun i => and_congr_right fun hi => hrow i hi

theorem LogInv.input_inj {a b : AgentInput} (ha : a ∈ db.inputs) (hb : b ∈ db.inputs)
    (hab : a.id = b.id) : a = b := by
  have hnd : (db.inputs.map (·.id)).Nodup := by
    rw [hlog.inputRows]
    exact nodup_range
  exact inj_on_of_nodup_map hnd ha hb hab

theorem QuietEffect.updateInput {f : AgentInput → AgentInput}
    (hf : ∀ i, (f i).id = i.id ∧ (f i).kind = i.kind)
    (hrow : ∃ i ∈ db.inputs, i.id = id ∧ i.kind ≠ .control) :
    QuietEffect now db { db with inputs := updateInput id f db.inputs } := by
  refine .mapInputs hlog fun i hi => ?_
  split
  · rename_i hid
    obtain ⟨j, hj, hjid, hkind⟩ := hrow
    cases hlog.input_inj hi hj (hid.trans hjid.symm)
    exact ⟨(hf i).1, (hf i).2, fun hk => absurd hk hkind⟩
  · exact ⟨rfl, rfl, fun _ => rfl⟩

end

theorem waits_kind {mode : DeliveryMode} {i : AgentInput} (h : i.waits mode = true) :
    i.kind ≠ .control := by
  simp only [AgentInput.waits, Bool.and_eq_true, decide_eq_true_eq] at h
  simp [h.2]

theorem exists_of_any_waits {mode : DeliveryMode}
    (h : (rows.any fun i => i.id = id && i.waits mode) = true) :
    ∃ i ∈ rows, i.id = id ∧ i.kind ≠ .control := by
  obtain ⟨i, hi, hw⟩ := any_eq_true.1 h
  simp only [Bool.and_eq_true, decide_eq_true_eq] at hw
  exact ⟨i, hi, hw.1, waits_kind hw.2⟩

theorem QuietEffect.changeDeliveryMode (hlog : LogInv db) {source target : DeliveryMode}
    (h : Store.changeDeliveryMode source target id db.inputs = some rows) :
    QuietEffect now db { db with inputs := rows } := by
  unfold Store.changeDeliveryMode at h
  split at h
  · cases h
    exact .updateInput hlog (fun _ => ⟨rfl, rfl⟩) (exists_of_any_waits ‹_›)
  · cases h

theorem QuietEffect.cancelQueuedInput (hlog : LogInv db)
    (h : Store.cancelQueuedInput id db.inputs = some rows) :
    QuietEffect now db { db with inputs := rows } := by
  unfold Store.cancelQueuedInput at h
  split at h
  · cases h
    exact .updateInput hlog (fun _ => ⟨rfl, rfl⟩) (exists_of_any_waits ‹_›)
  · cases h

theorem QuietEffect.rebalance (hlog : LogInv db) :
    QuietEffect now db { db with inputs := rebalanceQueuedBacklogRanks db.inputs } := by
  refine .mapInputs hlog fun i _ => ?_
  split <;> exact ⟨rfl, rfl, fun _ => rfl⟩

theorem QuietEffect.moveOnce (hlog : LogInv db) {position : MovePosition}
    (h : moveQueuedBacklogInputOnce id position db.inputs = some rows) :
    QuietEffect now db { db with inputs := rows } := by
  unfold moveQueuedBacklogInputOnce at h
  split at h
  · cases h
  · split at h
    · cases h
      exact .updateInput hlog (fun _ => ⟨rfl, rfl⟩) (exists_of_any_waits ‹_›)
    · cases h

theorem QuietPath.move (h : Inv db) {position : MovePosition}
    (hm : moveQueuedBacklogInput id position db.inputs = some rows) :
    QuietPath now db { db with inputs := rows } := by
  unfold moveQueuedBacklogInput at hm
  split at hm
  · cases hm
  · split at hm
    · split at hm
      · cases hm
        exact .single (.moveOnce h.log ‹_›)
      · have heff : QuietEffect now db _ := .rebalance h.log
        exact (Relation.ReflTransGen.single heff).tail (.moveOnce (heff.effect.inv h).log hm)
    · cases hm

theorem QuietEffect.cancelReceived (hlog : LogInv db) (mode : DeliveryMode) :
    QuietEffect now db (db.cancelReceived mode) := by
  refine .mapInputs hlog fun i _ => ?_
  split
  · exact ⟨rfl, rfl, fun hk => absurd hk (waits_kind ‹_›)⟩
  · exact ⟨rfl, rfl, fun _ => rfl⟩

/-! ## Events -/

theorem appendToTurn_spec {payload : Payload}
    (h : db.appendToTurn turn payload semantic now = some db') :
    turn ∈ db.turns.map (·.turnSequence) ∧ db' = { db with
        events := db.events ++ [⟨db.nextEventSequence, turn, payload, false, now⟩]
        nextEventSequence := db.nextEventSequence + 1
        turns := db'.turns } ∧
      db'.turns.map (·.turnSequence) = db.turns.map (·.turnSequence) := by
  simp only [appendToTurn, bind_eq_some, require_eq_some, pure_eq_some] at h
  obtain ⟨-, hturn, rfl⟩ := h
  refine ⟨hturn, rfl, ?_⟩
  simp only [updateTurnLatestEvent, appendEvent, map_map]
  refine map_congr_left fun t _ => ?_
  simp only [Function.comp_apply]
  split <;> rfl

theorem Extends.appended (hlog : LogInv db) {e : AgentEvent}
    (hseq : e.sequence = db.nextEventSequence)
    (hturn : e.turn ∈ db.turns.map (·.turnSequence)) (hopen : e.isOpening = false)
    (hevs : db'.events = db.events ++ [e])
    (hnext : db'.nextEventSequence = db.nextEventSequence + 1)
    (hturns : db'.turns.map (·.turnSequence) = db.turns.map (·.turnSequence))
    (hinps : db'.inputs = db.inputs)
    (hinp : ∀ i, e.payload = .agentInput i → i < db.inputs.length) : Extends db db' [e] := by
  have hlen : db'.turns.length = db.turns.length := by simpa using congrArg List.length hturns
  refine ⟨hevs, hnext, by simp [hseq], ?_, Nat.le_of_eq hlen.symm, ?_, by simp [hopen],
    .inl hlen, hinps ▸ hlog.inputRows, by rw [hinps], ?_, fun a _ => ?_⟩
  · rw [hturns, hlog.turnRows, hlen]
  · simpa [hlen] using hlog.mem_turnRows.1 hturn
  · simpa [hinps] using hinp
  · simp only [isStop, hinps]

theorem QuietEffect.appendInput (h : Inv db)
    (ha : db.appendToTurn turn (.agentInput id) semantic now = some db') (hid : id < db.inputs.length)
    (hkind : ∀ i ∈ db.inputs, i.id = id → i.kind ≠ .control) : QuietEffect now db db' := by
  obtain ⟨hturn, hdb, hturns⟩ := appendToTurn_spec ha
  have hnot : db'.isStop ⟨db.nextEventSequence, turn, .agentInput id, false, now⟩ = false := by
    rw [hdb, isStop, any_eq_false]
    rintro i hi
    simp only [Payload.agentInput.injEq, decide_eq_true_eq, not_and]
    intro hi' hk
    exact absurd hk (hkind i hi hi'.symm)
  refine ⟨_, .appended h.log rfl hturn rfl (by rw [hdb]) (by rw [hdb]) hturns (by rw [hdb])
    (fun i hi => by cases hi; exact hid), .log ?_ ?_ (.inr (by rw [hdb])) (by simp) ?_,
    by simpa using hnot, .of_same (by rw [hdb]) (by rw [hdb]) (by rw [hdb]) (by simp)⟩
  · rw [hdb]
    exact ⟨rfl, rfl, rfl, rfl, rfl⟩
  · exact fun e he => ⟨id, by rw [mem_singleton.1 he]⟩
  · intro e he hs
    rw [mem_singleton.1 he, hnot] at hs
    cases hs

theorem Effect.appendStop (h : Inv db) (hlive : db.NoLive)
    (ha : db.appendToTurn turn (.agentInput id) semantic now = some db')
    (hid : id < db.inputs.length) : Effect now db db' := by
  obtain ⟨hturn, hdb, hturns⟩ := appendToTurn_spec ha
  refine ⟨_, .appended h.log rfl hturn rfl (by rw [hdb]) (by rw [hdb]) hturns (by rw [hdb])
    (fun i hi => by cases hi; exact hid), .log ?_ ?_ (.inl hlive) (by simp) fun _ _ _ => hlive,
    .of_same (by rw [hdb]) (by rw [hdb]) (by rw [hdb]) (by simp)⟩
  · rw [hdb]
    exact ⟨rfl, rfl, rfl, rfl, rfl⟩
  · exact fun e he => ⟨id, by rw [mem_singleton.1 he]⟩

theorem QuietPath.respond (h : Inv db) {kind : InputKind} (hkind : kind ≠ .control)
    (ha : (db.insertResolvedInput kind now).appendToTurn turn
      (.agentInput db.freshInput) semantic now = some db') : QuietPath now db db' := by
  have heff : QuietEffect now db (db.insertResolvedInput kind now) := .insertInput h.log rfl
  refine (Relation.ReflTransGen.single heff).tail
    (.appendInput (heff.effect.inv h) ha (by simp [insertResolvedInput, freshInput]) ?_)
  intro i hi hid
  rw [insertResolvedInput, mem_append, mem_singleton] at hi
  rcases hi with hi | rfl
  · have hmem := mem_map_of_mem (f := AgentInput.id) hi
    rw [h.log.inputRows, mem_range, hid] at hmem
    exact absurd hmem (Nat.lt_irrefl _)
  · exact hkind

/-! ## Opening a turn -/

def openingEvents (turn : Id) (now : Time) : Nat → List Id → List AgentEvent
  | _, [] => []
  | start, id :: ids => ⟨start, turn, .agentInput id, true, now⟩ :: openingEvents turn now (start + 1) ids

theorem length_openingEvents (turn : Id) (now : Time) (ids : List Id) (start : Nat) :
    (openingEvents turn now start ids).length = ids.length := by
  induction ids generalizing start with
  | nil => rfl
  | cons id ids ih => simp [openingEvents, ih]

theorem sequence_openingEvents (turn : Id) (now : Time) (ids : List Id) (start : Nat) :
    (openingEvents turn now start ids).map (·.sequence) = List.range' start ids.length := by
  induction ids generalizing start with
  | nil => rfl
  | cons id ids ih => simp [openingEvents, ih, List.range'_succ]

theorem mem_openingEvents {ids : List Id} {start : Nat} {e : AgentEvent}
    (he : e ∈ openingEvents turn now start ids) :
    e.turn = turn ∧ e.isOpening = true ∧ e.createdAt = now ∧
      ∃ id ∈ ids, e.payload = .agentInput id := by
  induction ids generalizing start with
  | nil => cases he
  | cons id ids ih =>
    rcases mem_cons.1 he with rfl | he
    · exact ⟨rfl, rfl, rfl, id, mem_cons_self, rfl⟩
    · obtain ⟨h₁, h₂, h₃, i, hi, h₄⟩ := ih he
      exact ⟨h₁, h₂, h₃, i, mem_cons_of_mem _ hi, h₄⟩

theorem QuietEffect.openTurn (h : Inv db) (hlive : db.NoLive) (hopen : db.NoOpen) (ids : List Id)
    (now : Time) (row : AgentTurn) (hne : ids ≠ []) (hrow : row.turnSequence = db.turns.length + 1)
    (hids : ∀ id ∈ ids, id < db.inputs.length ∧ ∀ i ∈ db.inputs, i.id = id → i.kind ≠ .control) :
    QuietEffect now db { db with
      events := db.events ++ openingEvents row.turnSequence now db.nextEventSequence ids
      nextEventSequence := db.nextEventSequence + ids.length
      turns := db.turns ++ [row] } := by
  have hinp (e : AgentEvent)
      (he : e ∈ openingEvents row.turnSequence now db.nextEventSequence ids) (i : Id)
      (hp : e.payload = .agentInput i) : i ∈ ids := by
    obtain ⟨-, -, -, j, hj, hp'⟩ := mem_openingEvents he
    rw [hp, Payload.agentInput.injEq] at hp'
    exact hp' ▸ hj
  have hnot (e : AgentEvent)
      (he : e ∈ openingEvents row.turnSequence now db.nextEventSequence ids) : db.isStop e = false := by
    rw [isStop, any_eq_false]
    intro i hi
    simp only [decide_eq_true_eq, not_and]
    intro hp hk
    exact absurd hk ((hids _ (hinp e he i.id hp)).2 i hi rfl)
  refine ⟨openingEvents row.turnSequence now db.nextEventSequence ids, ⟨rfl, ?_, ?_, ?_, by simp, ?_, ?_,
    .inr ?_, h.log.inputRows, Nat.le_refl _, ?_, fun _ _ => rfl⟩,
    .log ⟨rfl, rfl, rfl, rfl, rfl⟩ ?_ (.inr rfl) (fun _ _ _ => ⟨hlive, hopen⟩) fun _ _ _ => hlive, hnot,
    .of_same rfl rfl rfl fun e he => (mem_openingEvents he).2.2.1⟩
  · rw [length_openingEvents]
  · rw [sequence_openingEvents, length_openingEvents]
  · rw [map_append, h.log.turnRows, length_append, map_singleton, hrow,
      length_singleton, List.range'_concat, Nat.one_mul, Nat.add_comm 1]
  · intro e he
    rw [(mem_openingEvents he).1, hrow, length_append, length_singleton]
    exact ⟨Nat.le_add_left _ _, Nat.le_refl _⟩
  · intro e he _
    rw [(mem_openingEvents he).1, hrow, length_append, length_singleton]
  · obtain ⟨id, rest, rfl⟩ := exists_cons_of_ne_nil hne
    exact ⟨_, mem_cons_self, rfl⟩
  · exact fun e he i hp => (hids i (hinp e he i hp)).1
  · intro e he
    obtain ⟨-, -, -, i, -, hp⟩ := mem_openingEvents he
    exact ⟨i, hp⟩

theorem openWithAll_spec (turn : Id) (now : Time) (ids : List Id) (db : Db) :
    ∃ g : AgentInput → AgentInput,
      (∀ i, (g i).id = i.id ∧ (g i).kind = i.kind ∧ (i.id ∉ ids → g i = i)) ∧
      db.openWithAll turn now ids = { db with
        events := db.events ++ openingEvents turn now db.nextEventSequence ids
        nextEventSequence := db.nextEventSequence + ids.length
        inputs := db.inputs.map g } := by
  induction ids generalizing db with
  | nil => exact ⟨id, by simp, by simp [openWithAll, openingEvents]⟩
  | cons x ids ih =>
    obtain ⟨g, hg, heq⟩ := ih (db.openWith turn now x)
    let f (i : AgentInput) : AgentInput :=
      if i.id = x then { i with state := .resolved, admittedEvent := some db.nextEventSequence } else i
    have hf (i : AgentInput) : (f i).id = i.id ∧ (f i).kind = i.kind := by
      simp only [f]
      split <;> exact ⟨rfl, rfl⟩
    refine ⟨g ∘ f, fun i => ⟨?_, ?_, fun hi => ?_⟩, ?_⟩
    · rw [Function.comp_apply, (hg _).1, (hf i).1]
    · rw [Function.comp_apply, (hg _).2.1, (hf i).2]
    · rw [mem_cons, not_or] at hi
      have hfi : f i = i := if_neg hi.1
      rw [Function.comp_apply, hfi]
      exact (hg i).2.2 hi.2
    · have hfold : db.openWithAll turn now (x :: ids) = (db.openWith turn now x).openWithAll turn now ids :=
        rfl
      rw [hfold, heq]
      simp [openWith, appendEvent, resolveInput, updateInput, openingEvents, f, Nat.add_assoc,
        Nat.add_comm 1]

theorem LogInv.nextTurnSequence_eq (h : LogInv db) : db.nextTurnSequence = db.turns.length + 1 := by
  rw [nextTurnSequence, h.latestTurnId_eq, Option.getD_some]

/-- `admitLockedAgentInputsAndOpenTurnTx` on waiting content. -/
theorem QuietPath.admitAndOpenTurn (h : Inv db) (hlive : db.NoLive) (hopen : db.NoOpen)
    {inputs : List AgentInput} (hinps : ∀ i ∈ inputs, i ∈ db.inputs ∧ i.kind ≠ .control)
    (ha : db.admitAndOpenTurn inputs now = some db') : QuietPath now db db' := by
  simp only [Db.admitAndOpenTurn, bind_eq_some, require_eq_some, pure_eq_some] at ha
  obtain ⟨-, hne, -, -, -, -, rfl⟩ := ha
  obtain ⟨g, hg, heq⟩ := openWithAll_spec db.nextTurnSequence now (inputs.map (·.id)) db
  -- a row named by an admitted input is that input
  have hkind (i : AgentInput) (hi : i ∈ db.inputs) (hid : i.id ∈ inputs.map (·.id)) :
      i.kind ≠ .control := by
    obtain ⟨j, hj, hjid⟩ := mem_map.1 hid
    cases h.log.input_inj (hinps j hj).1 hi hjid
    exact (hinps i hj).2
  have hres : QuietEffect now db { db with inputs := db.inputs.map g } := by
    refine .mapInputs h.log fun i hi => ⟨(hg i).1, (hg i).2.1, fun hk => ?_⟩
    rw [(hg i).2.2 fun hid => hkind i hi hid hk]
  have hinv := hres.effect.inv h
  refine (Relation.ReflTransGen.single hres).tail ?_
  rw [heq, insertTurn]
  have heff := QuietEffect.openTurn hinv hlive hopen (inputs.map (·.id)) now
    ⟨db.nextTurnSequence, db.nextEventSequence + (inputs.map (·.id)).length - 1,
      db.nextEventSequence + (inputs.map (·.id)).length - 1⟩
    (by simpa using hne) h.log.nextTurnSequence_eq fun id hid => ?_
  · exact heff
  obtain ⟨j, hj, rfl⟩ := mem_map.1 hid
  refine ⟨?_, fun i hi hij => ?_⟩
  · have hmem := mem_map_of_mem (f := AgentInput.id) (hinps j hj).1
    rw [h.log.inputRows, mem_range] at hmem
    rwa [length_map]
  · obtain ⟨old, hold, rfl⟩ := mem_map.1 hi
    rw [(hg old).2.1]
    rw [(hg old).1] at hij
    exact hkind old hold (hij ▸ hid)

theorem QuietPath.openWithConfig (h : Inv db) (hlive : db.NoLive) (hopen : db.NoOpen) (now : Time) :
    QuietPath now db (((db.insertResolvedInput .configChange now).appendEvent db.nextTurnSequence
      (.agentInput db.freshInput) true now).insertTurn db.nextTurnSequence) := by
  have hins : QuietEffect now db (db.insertResolvedInput .configChange now) := .insertInput h.log rfl
  refine (Relation.ReflTransGen.single hins).tail ?_
  have heff := QuietEffect.openTurn (hins.effect.inv h) hlive hopen [db.freshInput] now
    ⟨db.nextTurnSequence, db.nextEventSequence, db.nextEventSequence⟩ (by simp)
    h.log.nextTurnSequence_eq fun id hid => ?_
  · exact heff
  · cases mem_singleton.1 hid
    refine ⟨by simp [insertResolvedInput, freshInput], fun i hi hid => ?_⟩
    rw [insertResolvedInput, mem_append, mem_singleton] at hi
    rcases hi with hi | rfl
    · have hmem := mem_map_of_mem (f := AgentInput.id) hi
      rw [h.log.inputRows, mem_range, hid] at hmem
      exact absurd hmem (Nat.lt_irrefl _)
    · simp

/-! ## Tool calls -/

theorem completeCall_spec (h : db.completeCall call now = some db') :
    ∃ source turns, db.sourceEvent call = some source ∧
      source.turn ∈ db.turns.map (·.turnSequence) ∧
      turns.map AgentTurn.turnSequence = db.turns.map (·.turnSequence) ∧
      db' = { db with
        events := db.events ++
          [⟨db.nextEventSequence, source.turn, .toolResult call.id, false, now⟩]
        nextEventSequence := db.nextEventSequence + 1
        turns := turns
        toolCalls := (db.setCallState call.id .completed).toolCalls
        results := db.results ++ [⟨call.id, now⟩] } := by
  simp only [completeCall, bind_eq_some] at h
  obtain ⟨source, hsrc, ha⟩ := h
  obtain ⟨hturn, hdb, hturns⟩ := appendToTurn_spec ha
  exact ⟨source, db'.turns, hsrc, hturn, hturns, hdb⟩

theorem QuietEffect.completeCall (h : Inv db) (hcall : call ∈ db.toolCalls)
    (hopen : call.state ≠ .completed) (hc : db.completeCall call now = some db') :
    QuietEffect now db db' := by
  obtain ⟨source, turns, -, hturn, hturns, rfl⟩ := completeCall_spec hc
  let e : AgentEvent := ⟨db.nextEventSequence, source.turn, .toolResult call.id, false, now⟩
  refine ⟨[e], .appended h.log rfl hturn rfl rfl rfl hturns rfl (by simp [e]),
    .complete call e hcall hopen rfl rfl rfl rfl rfl rfl rfl (by simp) rfl, by simp [isStop, e],
    id, by simp [e], fun r hr => ?_, fun _ => .inl⟩
  rcases mem_append.1 hr with hr | hr
  · exact .inl hr
  · exact .inr (mem_singleton.1 hr ▸ rfl)

theorem QuietEffect.setCallState (h : Inv db) (hcall : call ∈ db.toolCalls)
    (hopen : call.state ≠ .completed) {state : ToolState} (hst : state ≠ .completed) :
    QuietEffect now db (db.setCallState call.id state) := by
  refine ⟨[], .of_same h.log rfl rfl rfl rfl, .callState call.id state rfl ?_ hst rfl, by simp,
    .of_same rfl rfl rfl (by simp)⟩
  intro x hx hid
  rwa [h.batch.id_inj hx hcall hid]

/-- The calls that are open after some have been completed were open before and are not among them. -/
theorem open_of_completeCalls (hc : db.completeCalls now calls = some db') :
    ∀ x ∈ db'.toolCalls, x.state ≠ .completed → x ∈ db.toolCalls ∧ x.id ∉ calls.map (·.id) := by
  induction calls generalizing db with
  | nil =>
    cases hc
    exact fun x hx _ => ⟨hx, by simp⟩
  | cons call calls ih =>
    simp only [completeCalls, bind_eq_some] at hc
    obtain ⟨db₁, h₁, hrest⟩ := hc
    obtain ⟨source, turns, -, -, -, rfl⟩ := completeCall_spec h₁
    intro x hx hne
    obtain ⟨hx, hnot⟩ := ih hrest x hx hne
    obtain ⟨y, hy, rfl⟩ := mem_map.1 hx
    split at hne
    · exact absurd rfl hne
    · rename_i hid
      simp only [if_neg hid] at hnot ⊢
      exact ⟨hy, by simp [hid, hnot]⟩

theorem mem_of_completeCall {x : ToolCall}
    (hc : db.completeCall call now = some db') (hx : x ∈ db.toolCalls) (hid : x.id ≠ call.id) :
    x ∈ db'.toolCalls := by
  obtain ⟨source, turns, -, -, -, rfl⟩ := completeCall_spec hc
  exact mem_map.2 ⟨x, hx, if_neg hid⟩

theorem QuietPath.completeCalls (h : Inv db)
    (hcalls : ∀ call ∈ calls, call ∈ db.toolCalls ∧ call.state ≠ .completed)
    (hnd : (calls.map (·.id)).Nodup) (hc : db.completeCalls now calls = some db') :
    QuietPath now db db' := by
  induction calls generalizing db with
  | nil =>
    cases hc
    exact .refl
  | cons call calls ih =>
    simp only [Db.completeCalls, bind_eq_some] at hc
    obtain ⟨db₁, h₁, hrest⟩ := hc
    obtain ⟨hcall, hopen⟩ := hcalls call mem_cons_self
    have heff := QuietEffect.completeCall h hcall hopen h₁
    rw [map_cons, nodup_cons] at hnd
    refine Relation.ReflTransGen.head heff (ih (heff.effect.inv h) (fun x hx => ?_) hnd.2 hrest)
    obtain ⟨hmem, hne⟩ := hcalls x (mem_cons_of_mem _ hx)
    have hid : x.id ≠ call.id := fun hid => hnd.1 (hid ▸ mem_map_of_mem hx)
    exact ⟨mem_of_completeCall h₁ hmem hid, hne⟩

/-! ## Model calls -/

theorem finishContext_spec {teardown : Bool}
    (h : db.finishContext id lock state teardown now = some db') :
    (∃ c ∈ db.contexts, c.id = id ∧ c.runtimeLock = lock ∧ c.state = .started) ∧
      db' = db.setContextState id state := by
  simp only [finishContext, bind_eq_some, require_eq_some, pure_eq_some] at h
  obtain ⟨-, -, -, hany, rfl⟩ := h
  obtain ⟨c, hc, hcond⟩ := any_eq_true.1 hany
  simp only [Bool.and_eq_true, decide_eq_true_eq] at hcond
  exact ⟨⟨c, hc, hcond.1.1, hcond.1.2, hcond.2⟩, rfl⟩

theorem QuietEffect.finish (h : Inv db) (hc : c ∈ db.contexts) (hlive : c.state = .started)
    (hst : state = .canceled ∨ state.isRecoverable = true)
    (hretry : ∀ t, state = .failed (some (.retry t)) →
      c.attempt ≤ maxModelCallRetriesPerOperation) : QuietEffect now db (db.setContextState c.id state) :=
  ⟨[], .of_same h.log rfl rfl rfl rfl, .finish c state hc hlive rfl hst hretry rfl, by simp,
    .of_same rfl rfl rfl (by simp)⟩

theorem publishOutput_spec {reason : StopReason}
    (h : db.publishOutput c reason semantic now = some db') :
    ∃ turn turns, db.turnAt c.frontier = some turn ∧ turn ∈ db.turns.map (·.turnSequence) ∧
      turns.map AgentTurn.turnSequence = db.turns.map (·.turnSequence) ∧
      db' = { db with
        events := db.events ++ [⟨db.nextEventSequence, turn, .modelOutput c.id, false, now⟩]
        nextEventSequence := db.nextEventSequence + 1
        turns := turns
        outputs := db.outputs ++ [⟨c.id, reason⟩] } := by
  simp only [publishOutput, bind_eq_some] at h
  obtain ⟨turn, hturn, ha⟩ := h
  obtain ⟨hmem, hdb, hturns⟩ := appendToTurn_spec ha
  exact ⟨turn, db'.turns, hturn, hmem, hturns, hdb⟩

theorem QuietEffect.publishOutput (h : Inv db) (hc : c ∈ db.contexts)
    (hlive : c.state = .started) {reason : StopReason}
    (hp : db.publishOutput c reason semantic now = some db')
    (hst : state = .failed none ∧ calls = [] ∨ state = .succeeded ∧ c.operation = .normal)
    (hids : calls.map (·.id) = List.range' db.toolCalls.length calls.length)
    (hnew : ∀ call ∈ calls, call.output = c.id ∧ call.state ≠ .completed) :
    QuietEffect now db { db' with
      contexts := (db.setContextState c.id state).contexts
      toolCalls := db.toolCalls ++ calls } := by
  obtain ⟨turn, turns, hturn, hmem, hturns, rfl⟩ := publishOutput_spec hp
  let e : AgentEvent := ⟨db.nextEventSequence, turn, .modelOutput c.id, false, now⟩
  exact ⟨[e], .appended h.log rfl hmem rfl rfl rfl hturns rfl (by simp [e]),
    .output c state e calls hc hlive rfl rfl rfl hturn.symm hst rfl (by simp) rfl rfl hids hnew rfl,
    by simp [isStop, e], .of_same rfl rfl rfl (by simp [e])⟩

theorem QuietPath.recordTerminalFailure (h : Inv db) {teardown : Bool} (hc : c ∈ db.contexts)
    (hr : db.recordTerminalFailure c lock teardown now = some db') : QuietPath now db db' := by
  simp only [Db.recordTerminalFailure, bind_eq_some, pure_eq_some] at hr
  obtain ⟨finished, hf, published, hp, rfl⟩ := hr
  obtain ⟨⟨a, ha, hid, -, hlive⟩, rfl⟩ := finishContext_spec hf
  cases h.context.rows.id_inj ha hc hid
  -- the source ends the call before it publishes; the two writes commute
  obtain ⟨turn, turns, hturn, hmem, hturns, rfl⟩ := publishOutput_spec hp
  have hpub : QuietEffect now db { db.setContextState c.id (.failed none) with
      events := db.events ++ [⟨db.nextEventSequence, turn, .modelOutput c.id, false, now⟩]
      nextEventSequence := db.nextEventSequence + 1
      turns := turns
      outputs := db.outputs ++ [⟨c.id, .error⟩] } := by
    let e : AgentEvent := ⟨db.nextEventSequence, turn, .modelOutput c.id, false, now⟩
    exact ⟨[e], .appended h.log rfl hmem rfl rfl rfl hturns rfl (by simp [e]),
      .output c (.failed none) e [] hc hlive rfl rfl rfl hturn.symm (.inl ⟨rfl, rfl⟩) rfl (by simp) rfl
        (by simp [setContextState]) rfl (by simp) rfl,
      by simp [isStop, e], .of_same rfl rfl rfl (by simp [e])⟩
  exact (Relation.ReflTransGen.single hpub).tail (.reconcileWakeup (hpub.effect.inv h) now)

theorem QuietEffect.checkpoint (h : Inv db) (hc : c ∈ db.contexts)
    (hlive : c.state = .started) {sourceEnd : Nat} (hend : sourceEnd? c.operation = some sourceEnd)
    (hp : (db.insertCheckpoint c.id sourceEnd now).appendToTurn turn
      (.contextCheckpoint c.id) false now = some db') :
    QuietEffect now db (db'.setContextState c.id .succeeded) := by
  obtain ⟨hmem, hdb, hturns⟩ := appendToTurn_spec hp
  let e : AgentEvent := ⟨db.nextEventSequence, turn, .contextCheckpoint c.id, false, now⟩
  let k : ContextCheckpoint := ⟨c.id, sourceEnd, now⟩
  have hcps : (db'.setContextState c.id .succeeded).checkpoints = db.checkpoints ++ [k] := by
    rw [setContextState, hdb]
    rfl
  have hresults : (db'.setContextState c.id .succeeded).results = db.results := by
    rw [setContextState, hdb]
    rfl
  have harchived : (db'.setContextState c.id .succeeded).archived = db.archived := by
    rw [setContextState, hdb]
    rfl
  refine ⟨[e], .appended h.log rfl hmem rfl ?_ ?_ hturns ?_ (by simp [e]),
    .checkpoint c k e hc hlive rfl rfl rfl ⟨rfl, hend⟩ ?_ ?_ hcps ?_ hresults,
    by simp [isStop, e], fun h => harchived ▸ h, by simp [e], fun _ hr => .inl (hresults ▸ hr),
    fun k' hk' => ?_⟩
  rotate_right
  · rw [hcps] at hk'
    rcases mem_append.1 hk' with hk' | hk'
    · exact .inl hk'
    · exact .inr (mem_singleton.1 hk' ▸ rfl)
  all_goals
    rw [hdb]
    rfl

theorem QuietEffect.insertContext (h : Inv db) (hlive : db.NoLive) {operation : Operation}
    {frontier attempt : Nat}
    (hfst : db.contexts = [] → operation = .normal ∧ attempt = 1)
    (hfollows : ∀ a, db.contexts.getLast? = some a →
      a.Follows ⟨db.freshContext, operation, frontier, attempt, .started, lock⟩)
    (hatt : 1 ≤ attempt ∧ attempt ≤ maxModelCallRetriesPerOperation + 1)
    (hend : ∀ e, operation = .compaction e →
      0 < e ∧ e ≤ frontier ∧ db.summarizedThrough frontier < e)
    (hlock : db.lock.map (·.id) = some lock) (hturn : db.turnAt frontier = db.latestTurnId)
    (hstop : db.stopAfter frontier = false)
    (hfront : (∃ a ∈ db.contexts, a.frontier = frontier) ∨
      frontier + 1 = db.nextEventSequence ∧ db.NoOpen) :
    QuietEffect now db (db.insertContext operation frontier attempt lock) := by
  refine ⟨[], .of_same h.log rfl rfl rfl rfl,
    .start ⟨db.freshContext, operation, frontier, attempt, .started, lock⟩ rfl rfl rfl hlive hfst
      hfollows ⟨hatt.1, hatt.2, by simp, fun e he => ?_⟩ rfl hlock hturn hstop hfront
      fun e he => (hend e he).2.2, by simp, .of_same rfl rfl rfl (by simp)⟩
  exact ⟨(hend e he).1, (hend e he).2.1⟩

end Db

end Store
