import Omnara.Store.Proof.Reachable

/-!
# Attempts of model calls

What the chain of contexts says about a reachable agent, without the partial unique indexes of
`model_call_contexts` in the model:

* at most one context is started (`length_started_le_one`);
* the attempts of an operation are `1..n`, with `n` at most one more than the retries allowed, and all
  but the last failed for a retry (`attempts_of`);
* an attempt that waits for its retry can be followed by the next (`claimNext_of_waiting`);
* a frontier has at most one outcome (`length_publishedAt_le_one`);
* so every index holds after each elementary change of a transaction (`UniqueIndexes`).
-/

namespace Store

open List

namespace Db

variable {db : Db} {now : Time} {c : ModelCallContext}

/-! ## The indexes -/

/-- `UNIQUE` and the partial unique indexes of `model_call_contexts`, `model_outputs` and
`context_checkpoints`. -/
structure UniqueIndexes (db : Db) : Prop where
  /-- `model_call_contexts_normal_identity_idx`, `model_call_contexts_compaction_identity_idx` -/
  identity : db.contexts.Pairwise fun a b =>
    ¬ (a.operation = b.operation ∧ a.frontier = b.frontier ∧ a.attempt = b.attempt)
  /-- `model_call_contexts_one_live_idx` -/
  oneLive : db.contexts.Pairwise fun a b => ¬ (a.state = .started ∧ b.state = .started)
  /-- `model_call_contexts_one_normal_outcome_idx` and `model_call_contexts_one_compaction_outcome_idx`,
  which two contexts of different kinds satisfy too -/
  oneOutcome : db.contexts.Pairwise fun a b => ¬ (a.frontier = b.frontier ∧
    (a.state = .succeeded ∨ a.state = .failed none) ∧ (b.state = .succeeded ∨ b.state = .failed none))
  outputs : (db.outputs.map (·.context)).Nodup
  checkpoints : (db.checkpoints.map (·.context)).Nodup

theorem nodup_ids (h : ModelCallContext.Rows db.contexts) (p : ModelCallContext → Bool) :
    ((db.contexts.filter p).map (·.id)).Nodup := by
  refine (filter_sublist.map _).nodup ?_
  rw [h.ids]
  exact nodup_range

theorem checkpoint_ids (h : OutcomeInv db) :
    db.checkpoints.map (·.context) = (db.contexts.filter (·.publishesCheckpoint)).map (·.id) := by
  have hfst := congrArg (List.map Prod.fst) h.checkpoints
  simpa [map_map, Function.comp_def] using hfst

theorem Inv.uniqueIndexes (h : Inv db) : UniqueIndexes db where
  identity := h.context.rows.pairwise.imp fun {a b} hab ⟨hop, hf, hn⟩ => by
    rcases hab.precedes with hlt | ⟨-, hbef | ⟨-, hlt⟩⟩
    · omega
    · exact ModelCallContext.not_before_self _ (hop ▸ hbef)
    · omega
  oneLive := h.context.rows.pairwise.imp fun hab hlive => hab.done hlive.1
  oneOutcome := h.context.rows.pairwise.imp fun {a b} hab ⟨hf, hdone, _⟩ => by
    have hfinal : a.state.isRecoverable = false := by
      rcases hdone with hs | hs <;> rw [hs] <;> rfl
    exact Nat.lt_irrefl _ (hf ▸ hab.later hfinal)
  outputs := h.outcome.outputs ▸ nodup_ids h.context.rows _
  checkpoints := checkpoint_ids h.outcome ▸ nodup_ids h.context.rows _

/-! ## Attempts -/

/-- The contexts of one operation in the order of their creation. -/
def attemptsOf (db : Db) (operation : Operation) (frontier : Nat) : List ModelCallContext :=
  db.contexts.filter fun c => c.operation = operation && c.frontier = frontier

theorem length_started_le_one (h : Inv db) : (db.contexts.filter (·.state = .started)).length ≤ 1 :=
  Attempts.length_filter_le_one h.context.rows.pairwise fun a _ b _ ha _ hab =>
    hab.done (by simpa using ha)

theorem attemptsOf_eq_ofKey (db : Db) (operation : Operation) (frontier : Nat) :
    db.attemptsOf operation frontier =
      Attempts.ofKey ModelCallContext.key (operation, frontier) db.contexts := by
  refine filter_congr fun c _ => ?_
  simp [ModelCallContext.key]

theorem attempts_of (h : Inv db) (operation : Operation) (frontier : Nat) :
    (db.attemptsOf operation frontier).map (·.attempt) =
        List.range' 1 (db.attemptsOf operation frontier).length ∧
      (db.attemptsOf operation frontier).length ≤ maxModelCallRetriesPerOperation + 1 ∧
      ∀ c ∈ (db.attemptsOf operation frontier).dropLast, ∃ t, c.state = .failed (some (.retry t)) := by
  have hatts : (db.attemptsOf operation frontier).map (·.attempt) =
      List.range' 1 (db.attemptsOf operation frontier).length := by
    rw [attemptsOf_eq_ofKey]
    exact h.context.rows.grown.attempts_eq (operation, frontier)
  have hpair : (db.attemptsOf operation frontier).Pairwise ModelCallContext.Leads :=
    h.context.rows.pairwise.filter _
  have hkey (c : ModelCallContext) (hc : c ∈ db.attemptsOf operation frontier) :
      c ∈ db.contexts ∧ c.key = (operation, frontier) := by
    obtain ⟨hmem, hk⟩ := mem_filter.1 hc
    simp only [Bool.and_eq_true, decide_eq_true_eq] at hk
    exact ⟨hmem, Prod.ext hk.1 hk.2⟩
  refine ⟨hatts, ?_, ?_⟩
  · -- the last number is the length, and it is the number of a row
    rcases Nat.eq_zero_or_pos (db.attemptsOf operation frontier).length with hzero | hpos
    · omega
    · have hlast : (db.attemptsOf operation frontier).length ∈
          (db.attemptsOf operation frontier).map (·.attempt) := by
        rw [hatts, mem_range'_1]
        omega
      obtain ⟨c, hc, hn⟩ := mem_map.1 hlast
      rw [← hn]
      exact (h.context.rows.wellFormed c (hkey c hc).1).bound
  · rcases eq_nil_or_concat (db.attemptsOf operation frontier) with hnil | ⟨l, last, hl⟩
    · simp [hnil]
    · rw [hl, concat_eq_append] at hpair hkey ⊢
      intro c hc
      rw [dropLast_concat] at hc
      have hleads := (pairwise_append.1 hpair).2.2 c hc last mem_cons_self
      exact hleads.retry ((hkey c (mem_append_left _ hc)).2.trans (hkey last (by simp)).2.symm)

/-! ## The next attempt -/

theorem context?_of_mem (h : Inv db) (hc : c ∈ db.contexts) : db.context? c.id = some c := by
  cases hfind : db.context? c.id with
  | none =>
    have hno := List.find?_eq_none.1 hfind c hc
    simp at hno
  | some a =>
    obtain ⟨ha, hid⟩ := mem_of_context? hfind
    rw [h.context.rows.id_inj ha hc hid]

theorem latestAttempt_of_last (h : Inv db) {l : List ModelCallContext}
    (hl : db.contexts = l ++ [c]) : db.latestAttempt c.operation c.frontier = some c := by
  have hrows : ModelCallContext.Rows (l ++ [c]) := hl ▸ h.context.rows
  refine OrderBy.latest_of_top (mem_filter.2 ⟨by simp [hl], by simp⟩) fun b hb => ?_
  obtain ⟨hmem, hkey⟩ := mem_filter.1 hb
  simp only [Bool.and_eq_true, decide_eq_true_eq] at hkey
  rw [hl, mem_append, mem_singleton] at hmem
  rcases hmem with hmem | rfl
  · rcases (hrows.leads_last b hmem).precedes with hlt | ⟨-, hbef | ⟨-, hlt⟩⟩
    · omega
    · exact absurd (hkey.1 ▸ hbef) (ModelCallContext.not_before_self _)
    · exact .inr hlt
  · exact .inl rfl

/-- An attempt that waits for its retry can be followed by the next one, once it is due and as long as
it can be continued. -/
theorem claimNext_of_waiting (h : Inv db) (hc : c ∈ db.contexts) {t : Time}
    (hst : c.state = .failed (some (.retry t))) {lock : Id}
    (hactive : db.lockActive lock now = true) (hdue : t ≤ now) (hcont : db.isContinuable c = true)
    (hlater : db.hasLaterSemanticEvent c = false) :
    db.claimNextModelCallContext lock c.id true now =
      some (db.insertContext c.operation c.frontier (c.attempt + 1) lock) := by
  obtain ⟨l, hl⟩ := eq_last_of_continuable h hc hst hcont
  have hatt := (h.context.rows.wellFormed c hc).retry t hst
  have hrequire : require (db.lockActive lock now = true) = some () := by simp [hactive]
  have hguard : True ∧ (retryAt? c).any (· ≤ now) = true ∧
      c.attempt ≤ maxModelCallRetriesPerOperation ∧ db.isContinuable c = true ∧
      ¬ db.hasLaterSemanticEvent c = true :=
    ⟨trivial, by simp [retryAt?, hst, hdue], hatt, hcont, by simp [hlater]⟩
  simp only [claimNextModelCallContext, hrequire, context?_of_mem h hc, latestAttempt_of_last h hl,
    bind, Option.bind_some]
  rw [if_pos hguard]
  simp [applyAdmission, insertContext]

/-! ## Outcomes -/

/-- The contexts at a frontier that an output or a checkpoint names, once for each. -/
def publishedAt (db : Db) (frontier : Nat) : List Id :=
  (db.outputs.map (·.context) ++ db.checkpoints.map (·.context)).filter fun id =>
    db.contexts.any fun c => c.id = id && c.frontier = frontier

/-- A context publishes an output or a checkpoint, not both. -/
theorem nodup_published (h : Inv db) :
    (db.outputs.map (·.context) ++ db.checkpoints.map (·.context)).Nodup := by
  have huniq := h.uniqueIndexes
  refine nodup_append.2 ⟨huniq.outputs, huniq.checkpoints, fun x hx y hy hxy => ?_⟩
  rw [h.outcome.outputs] at hx
  rw [checkpoint_ids h.outcome] at hy
  obtain ⟨a, ha, rfl⟩ := mem_map.1 hx
  obtain ⟨b, hb, rfl⟩ := mem_map.1 hy
  obtain ⟨ha, hpa⟩ := mem_filter.1 ha
  obtain ⟨hb, hpb⟩ := mem_filter.1 hb
  cases h.context.rows.id_inj ha hb hxy
  simp only [ModelCallContext.publishesOutput, ModelCallContext.publishesCheckpoint, Bool.or_eq_true,
    Bool.and_eq_true, decide_eq_true_eq] at hpa hpb
  rcases hpa with hpa | hpa
  · exact hpb.2 hpa.2
  · simp [hpb.1] at hpa

theorem outcome_of_published (h : Inv db) {id : Id}
    (hid : id ∈ db.outputs.map (·.context) ++ db.checkpoints.map (·.context)) :
    ∃ c ∈ db.contexts, c.id = id ∧ (c.state = .succeeded ∨ c.state = .failed none) := by
  rw [h.outcome.outputs, checkpoint_ids h.outcome, mem_append] at hid
  rcases hid with hid | hid <;> obtain ⟨c, hc, rfl⟩ := mem_map.1 hid <;>
    obtain ⟨hc, hp⟩ := mem_filter.1 hc <;> refine ⟨c, hc, rfl, ?_⟩
  · simp only [ModelCallContext.publishesOutput, Bool.or_eq_true, Bool.and_eq_true,
      decide_eq_true_eq] at hp
    exact hp.imp_left And.left
  · simp only [ModelCallContext.publishesCheckpoint, Bool.and_eq_true, decide_eq_true_eq] at hp
    exact .inl hp.1

theorem length_publishedAt_le_one (h : Inv db) (frontier : Nat) :
    (db.publishedAt frontier).length ≤ 1 := by
  refine Attempts.length_filter_le_one (nodup_published h) fun x hx y hy hpx hpy hne => ?_
  -- both name a context that ended at the frontier, and there is one
  have hended (id : Id) (hid : id ∈ db.outputs.map (·.context) ++ db.checkpoints.map (·.context))
      (hp : (db.contexts.any fun c => c.id = id && c.frontier = frontier) = true) :
      ∃ c ∈ db.contexts, c.id = id ∧ c.frontier = frontier ∧
        (c.state = .succeeded ∨ c.state = .failed none) := by
    obtain ⟨c, hc, rfl, hdone⟩ := outcome_of_published h hid
    obtain ⟨a, ha, hcond⟩ := any_eq_true.1 hp
    simp only [Bool.and_eq_true, decide_eq_true_eq] at hcond
    cases h.context.rows.id_inj ha hc hcond.1
    exact ⟨c, hc, rfl, hcond.2, hdone⟩
  obtain ⟨a, ha, rfl, haf, hadone⟩ := hended x hx hpx
  obtain ⟨b, hb, rfl, hbf, hbdone⟩ := hended y hy hpy
  have : Std.Symm fun a b : ModelCallContext => ¬ (a.frontier = b.frontier ∧
      (a.state = .succeeded ∨ a.state = .failed none) ∧
      (b.state = .succeeded ∨ b.state = .failed none)) :=
    ⟨fun _ _ hab hba => hab ⟨hba.1.symm, hba.2.2, hba.2.1⟩⟩
  have hab : a ≠ b := fun hab => hne (hab ▸ rfl)
  exact h.uniqueIndexes.oneOutcome.forall ha hb hab ⟨haf.trans hbf.symm, hadone, hbdone⟩

theorem uniqueIndexes_of_tx (h : Inv db) (hcur : Current db) {tx : Tx} {db' : Db}
    (hc : tx.run db now = some db') : ∃ states, (db :: states).IsChain (Effect now) ∧
      (db :: states).getLast (List.cons_ne_nil _ _) = db' ∧ ∀ d ∈ db :: states, d.UniqueIndexes := by
  obtain ⟨states, hchain, hlast⟩ :=
    exists_isChain_cons_of_relationReflTransGen (tx_kept tx h hcur hc).1
  have hinv : ∀ d ∈ db :: states, Inv d := hchain.induction _ _ (fun _ _ heff hd => heff.inv hd)
    fun _ => h
  exact ⟨states, hchain, hlast, fun d hd => (hinv d hd).uniqueIndexes⟩

end Db

/-- **Attempts of model calls.** In every state of every history at most one context is started; the
attempts of one operation are numbered `1..n` with at most one more than the retries allowed, all but
the last failed for a retry; a context that waits for its retry can be followed by the next attempt as
soon as it is due; a frontier publishes at most one output or checkpoint; and no transaction meets a
unique index. The model has none of these indexes: it is the guards that keep them.

`ClaimCompactionModelCall` takes part as the program calls it, see `Db.resumeCompactionContext`. -/
theorem model_call_attempts {s : State} (h : Reachable s) :
    (s.db.contexts.filter (·.state = .started)).length ≤ 1 ∧
    (∀ operation frontier, (s.db.attemptsOf operation frontier).map (·.attempt) =
        List.range' 1 (s.db.attemptsOf operation frontier).length ∧
      (s.db.attemptsOf operation frontier).length ≤ maxModelCallRetriesPerOperation + 1 ∧
      ∀ c ∈ (s.db.attemptsOf operation frontier).dropLast,
        ∃ t, c.state = .failed (some (.retry t))) ∧
    (∀ c ∈ s.db.contexts, ∀ t, c.state = .failed (some (.retry t)) →
      c.attempt ≤ maxModelCallRetriesPerOperation ∧
      ∀ lock now, s.db.lockActive lock now = true → t ≤ now → s.db.isContinuable c = true →
        s.db.hasLaterSemanticEvent c = false →
        s.db.claimNextModelCallContext lock c.id true now =
          some (s.db.insertContext c.operation c.frontier (c.attempt + 1) lock)) ∧
    (∀ frontier, (s.db.publishedAt frontier).length ≤ 1) ∧
    ∀ tx now db', Tx.run s.db now tx = some db' → ∃ states,
      (s.db :: states).IsChain (Db.Effect now) ∧ (s.db :: states).getLast (List.cons_ne_nil _ _) = db' ∧
      ∀ d ∈ s.db :: states, d.UniqueIndexes := by
  obtain ⟨hinv, hcur⟩ := reachable_inv h
  refine ⟨Db.length_started_le_one hinv, Db.attempts_of hinv, fun c hc t hstate => ⟨?_, ?_⟩,
    Db.length_publishedAt_le_one hinv, fun tx now db' hc => Db.uniqueIndexes_of_tx hinv hcur hc⟩
  · exact (hinv.context.rows.wellFormed c hc).retry t hstate
  · intro lock now hactive hdue hcont hlater
    exact Db.claimNext_of_waiting hinv hc hstate hactive hdue hcont hlater

/-- A first call that fails for a retry, overflows and is compacted, and a call after the checkpoint. -/
def retriedHistory : List (Time × Tx) :=
  [(0, .claimNextAgentWork 1 100), (0, .claimNormalModelCall 1 2 [1] none true),
    (1, .recordRetryableFailure 1 0 5), (5, .claimNextModelCallContext 1 0 true),
    (1, .recordFailureAndClaimCompaction 1 1 1 true), (1, .publishContextCheckpoint 1 2),
    (1, .claimNormalModelCall 1 3 [1] none true)]

theorem model_call_attempts_retried : ∃ s, history true 0 retriedHistory = some s ∧
    (s.db.attemptsOf .normal 2).map (·.attempt) = [1, 2] ∧ s.db.publishedAt 2 = [2] ∧
    (∀ c ∈ (s.db.attemptsOf .normal 2).dropLast, ∃ t, c.state = .failed (some (.retry t))) ∧
    (s.db.contexts.filter (·.state = .started)).length ≤ 1 ∧
    ∀ frontier, (s.db.publishedAt frontier).length ≤ 1 := by
  have hrun : (history true 0 retriedHistory).any (fun s =>
      (s.db.attemptsOf .normal 2).map (·.attempt) = [1, 2] ∧ s.db.publishedAt 2 = [2]) = true := by
    decide +kernel
  obtain ⟨s, hs, hfacts⟩ := (Option.any_eq_true _ _).1 hrun
  simp only [decide_eq_true_eq] at hfacts
  obtain ⟨hone, hattempts, -, hpublished, -⟩ := model_call_attempts (reachable_history hs)
  exact ⟨s, hs, hfacts.1, hfacts.2, (hattempts .normal 2).2.2, hone, hpublished⟩

/-- A steering input has preempted the call that failed for a compaction, and the next call is started. -/
def preemptedHistory : List (Time × Tx) :=
  [(0, .claimNextAgentWork 1 100), (0, .claimNormalModelCall 1 2 [1] none true),
    (1, .createContentInput .steering []), (1, .recordFailureAndClaimCompaction 1 0 1 true),
    (1, .claimNormalModelCall 1 3 [1, 2] none true)]

/-- Called for the preempted parent, `ClaimCompactionModelCall` starts a second context: its guards do
not look at other frontiers, and only the index `model_call_contexts_one_live_idx` refuses the row. -/
theorem claimCompactionModelCall_second : ∃ s ∈ history true 0 preemptedHistory,
    ∃ db ∈ s.db.claimCompactionModelCall 1 0 2 1 true s.now,
      (db.contexts.filter (·.state = .started)).length = 2 := by
  decide +kernel

end Store
