import Omnara.Lib.Tiles
import Omnara.Store.Proof.Attempts

/-!
# The chain of checkpoints

The checkpoints stand in the table in the order of their events (`checkpointLog_eq`), and their
producers have increasing frontiers (`checkpoints_pairwise`). A producer sees the checkpoints before its
own and none from its own on, so the range it summarizes starts right after the end of the one before
(`summarizedThrough_producer`), and the ranges lie end to end (`tiles_checkpoints`).
-/

namespace Store

open List

namespace Db

variable {db db' : Db} {now : Time} {k : ContextCheckpoint}

/-! ## Checkpoints with their ranges -/

/-- The published checkpoints in the order of their events. -/
def checkpointLog (db : Db) : List ContextCheckpoint :=
  db.events.filterMap fun e => e.checkpoint?.bind fun id => db.checkpoints.find? (·.context = id)

/-- The frontier of the compaction that produced a checkpoint. -/
def producerFrontier (db : Db) (k : ContextCheckpoint) : Option Nat :=
  (db.context? k.context).map (·.frontier)

/-- The source range of a checkpoint. Its start is not stored: `PublishContextCheckpoint` derives it from
the checkpoint applicable at the frontier of the producer. -/
def sourceRange (db : Db) (k : ContextCheckpoint) : Nat × Nat :=
  (((db.producerFrontier k).map db.summarizedThrough).getD 0 + 1, k.summarizedThrough)

def checkpointRanges (db : Db) : List (Nat × Nat) :=
  db.checkpointLog.map db.sourceRange

/-- The source ends tried at a frontier, in order: those of the first attempts. -/
def sourceEndsTried (db : Db) (frontier : Nat) : List Nat :=
  (db.contexts.filter fun c => c.attempt = 1 && c.frontier = frontier).filterMap fun c =>
    sourceEnd? c.operation

theorem nodup_checkpoints (h : Inv db) : (db.checkpoints.map (·.context)).Nodup :=
  h.uniqueIndexes.checkpoints

theorem checkpointLog_eq (h : Inv db) : db.checkpointLog = db.checkpoints := by
  rw [checkpointLog, ← filterMap_filterMap, h.outcome.checkpointEvents, filterMap_map]
  have hfind (k : ContextCheckpoint) (hk : k ∈ db.checkpoints) :
      db.checkpoints.find? (·.context = k.context) = some k := by
    cases hf : db.checkpoints.find? (·.context = k.context) with
    | none =>
      have hno := List.find?_eq_none.1 hf k hk
      simp at hno
    | some a =>
      have ha : a.context = k.context := by simpa using List.find?_some hf
      rw [inj_on_of_nodup_map (nodup_checkpoints h) (mem_of_find?_eq_some hf) hk ha]
  exact (filterMap_congr fun k hk => hfind k hk).trans filterMap_some

theorem producerFrontier_eq (h : Inv db) {c : ModelCallContext}
    (hc : c ∈ db.contexts) (hid : c.id = k.context) : db.producerFrontier k = some c.frontier := by
  rw [producerFrontier, ← hid, context?_of_mem h hc, Option.map_some]

/-! ## Producers -/

theorem checkpoints_pairwise (h : Inv db) : db.checkpoints.Pairwise fun k k' =>
    ∀ c ∈ db.contexts, ∀ c' ∈ db.contexts, c.id = k.context → c'.id = k'.context →
      c.frontier < c'.frontier := by
  have hids : (db.checkpoints.map (·.context)).Pairwise fun i j =>
      ∀ c ∈ db.contexts, ∀ c' ∈ db.contexts, c.id = i → c'.id = j → c.frontier < c'.frontier := by
    rw [checkpoint_ids h.outcome, pairwise_map]
    refine (h.context.rows.pairwise.filter _).imp_of_mem fun {a b} ha hb hab c hc c' hc' hci hcj => ?_
    obtain ⟨ha, hpub⟩ := mem_filter.1 ha
    cases h.context.rows.id_inj hc ha hci
    cases h.context.rows.id_inj hc' (mem_filter.1 hb).1 hcj
    simp only [ModelCallContext.publishesCheckpoint, Bool.and_eq_true, decide_eq_true_eq] at hpub
    exact hab.later (by rw [hpub.1]; rfl)
  exact pairwise_map.1 hids

theorem exists_checkpointEvent (h : Inv db) (hk : k ∈ db.checkpoints) :
    ∃ e, db.events.filter (·.payload = .contextCheckpoint k.context) = [e] := by
  have hmem : k.context ∈ db.events.filterMap (·.checkpoint?) := by
    rw [h.outcome.checkpointEvents]
    exact mem_map_of_mem hk
  have hnd : (db.events.filterMap (·.checkpoint?)).Nodup := by
    rw [h.outcome.checkpointEvents]
    exact nodup_checkpoints h
  refine AgentEvent.filter_eq_singleton hnd hmem fun e => ?_
  rw [AgentEvent.checkpoint?_eq_some, decide_eq_true_eq]

theorem mem_checkpointEvents {n : Nat} : (k, n) ∈ db.checkpointEvents ↔ k ∈ db.checkpoints ∧
      ∃ e ∈ db.events, e.payload = .contextCheckpoint k.context ∧ e.sequence = n := by
  simp only [checkpointEvents, mem_flatMap, mem_map, mem_filter, decide_eq_true_eq, Prod.mk.injEq]
  constructor
  · rintro ⟨a, ha, e, ⟨he, hp⟩, rfl, rfl⟩
    exact ⟨ha, e, he, hp, rfl⟩
  · rintro ⟨ha, e, he, hp, rfl⟩
    exact ⟨k, ha, e, ⟨he, hp⟩, rfl, rfl⟩

/-! ## The chain -/

/-- The end of the last checkpoint of a list, 0 without one. -/
def endOf (l : List ContextCheckpoint) : Nat := (l.getLast?.map (·.summarizedThrough)).getD 0

section Producer

variable {l r : List ContextCheckpoint} {k : ContextCheckpoint} {c : ModelCallContext}

theorem mem_of_applicable (h : Inv db) (hl : db.checkpoints = l ++ k :: r) (hc : c ∈ db.contexts)
    (hid : c.id = k.context) {k' : ContextCheckpoint} {n : Nat} (hk' : (k', n) ∈ db.checkpointEvents)
    (hn : n ≤ c.frontier) : k' ∈ l := by
  obtain ⟨hmem, e, he, hp, rfl⟩ := mem_checkpointEvents.1 hk'
  obtain ⟨c', hc', hid', -, -⟩ := h.outcome.exists_producer hmem
  have haft : c'.frontier < e.sequence := h.outcome.published e he c' hc' (.inr (hid' ▸ hp))
  have hpair := checkpoints_pairwise h
  rw [hl] at hmem hpair
  rcases mem_append.1 hmem with hmem | hmem
  · exact hmem
  · exfalso
    rcases mem_cons.1 hmem with rfl | hmem
    · cases h.context.rows.id_inj hc hc' (hid.trans hid'.symm)
      omega
    · have hlt := (pairwise_cons.1 (pairwise_append.1 hpair).2.1).1 k' hmem c hc c' hc' hid
        hid'
      omega

theorem latestApplicable_producer {p : ContextCheckpoint} (h : Inv db)
    (hl : db.checkpoints = l ++ [p] ++ k :: r) (hc : c ∈ db.contexts) (hid : c.id = k.context) :
    db.latestApplicableCheckpoint c.frontier = some p := by
  have hp : p ∈ db.checkpoints := by simp [hl]
  obtain ⟨e, he⟩ := exists_checkpointEvent h hp
  obtain ⟨hmem, hpay⟩ : e ∈ db.events ∧ e.payload = .contextCheckpoint p.context := by
    have hin : e ∈ db.events.filter (·.payload = .contextCheckpoint p.context) := he ▸ mem_cons_self
    simpa using hin
  obtain ⟨cp, hcp, hcpid, -, -⟩ := h.outcome.exists_producer hp
  have hpair := checkpoints_pairwise h
  rw [hl] at hpair
  obtain ⟨hfst, -, hcross⟩ := pairwise_append.1 hpair
  have hlt : cp.frontier < c.frontier := hcross p (by simp) k mem_cons_self cp hcp c hc hcpid hid
  have hseen : e.sequence ≤ c.frontier := h.source.applicable cp hcp c hc e hmem (hcpid ▸ hpay) hlt
  have haft : cp.frontier < e.sequence := h.outcome.published e hmem cp hcp (.inr (hcpid ▸ hpay))
  have hlast : OrderBy.latest (·.2) (db.checkpointEvents.filter (·.2 ≤ c.frontier)) =
      some (p, e.sequence) := by
    refine OrderBy.latest_of_top (mem_filter.2
      ⟨mem_checkpointEvents.2 ⟨hp, e, hmem, hpay, rfl⟩, by simpa using hseen⟩) ?_
    rintro ⟨k', n⟩ hk'
    obtain ⟨hk', hn⟩ := mem_filter.1 hk'
    have hin := mem_of_applicable h hl hc hid hk' (by simpa using hn)
    obtain ⟨hmem', e', he', hpay', rfl⟩ := mem_checkpointEvents.1 hk'
    rcases mem_append.1 hin with hin | hin
    · -- an earlier checkpoint was visible to the producer of `p` already
      obtain ⟨c', hc', hid', -, -⟩ := h.outcome.exists_producer hmem'
      have hlt' : c'.frontier < cp.frontier :=
        (pairwise_append.1 hfst).2.2 k' hin p (by simp) c' hc' cp hcp hid' hcpid
      have hseen' := h.source.applicable c' hc' cp hcp e' he' (hid' ▸ hpay') hlt'
      exact .inr (show e'.sequence < e.sequence by omega)
    · cases mem_singleton.1 hin
      have hsame : e' ∈ db.events.filter (·.payload = .contextCheckpoint p.context) :=
        mem_filter.2 ⟨he', by simpa using hpay'⟩
      rw [he, mem_singleton] at hsame
      exact .inl (by rw [hsame])
  have heq : db.latestApplicableCheckpoint c.frontier =
      (OrderBy.latest (·.2) (db.checkpointEvents.filter (·.2 ≤ c.frontier))).map (·.1) := rfl
  rw [heq, hlast, Option.map_some]

theorem summarizedThrough_producer (h : Inv db) (hl : db.checkpoints = l ++ k :: r)
    (hc : c ∈ db.contexts) (hid : c.id = k.context) :
    db.summarizedThrough c.frontier = endOf l := by
  rcases eq_nil_or_concat l with rfl | ⟨l, p, rfl⟩
  · have hnone : db.latestApplicableCheckpoint c.frontier = none := by
      have hrows : db.checkpointEvents.filter (·.2 ≤ c.frontier) = [] := by
        refine filter_eq_nil_iff.2 fun x hx hn => ?_
        have hin := mem_of_applicable h hl hc hid hx (by simpa using hn)
        cases hin
      rw [latestApplicableCheckpoint, hrows]
      rfl
    simp [summarizedThrough, hnone, endOf]
  · rw [concat_eq_append] at hl ⊢
    simp [summarizedThrough, latestApplicable_producer h hl hc hid, endOf]

end Producer

theorem tiles_suffix (h : Inv db) : ∀ l r, db.checkpoints = l ++ r →
    Tiles (endOf l) (r.map db.sourceRange) (endOf (l ++ r)) := by
  intro l r hl
  induction r generalizing l with
  | nil =>
    rw [append_nil]
    exact .nil _
  | cons k r ih =>
    obtain ⟨c, hc, hid, -, hend⟩ := h.outcome.exists_producer (k := k) (by simp [hl])
    have hprev := summarizedThrough_producer h hl hc hid
    have hlt : endOf l < k.summarizedThrough :=
      hprev ▸ h.source.sources c hc _ (operation_of_sourceEnd? hend)
    have hrng : db.sourceRange k = (endOf l + 1, k.summarizedThrough) := by
      rw [sourceRange, producerFrontier_eq h hc hid, Option.map_some, Option.getD_some, hprev]
    have htail := ih (l ++ [k]) (by simp [hl])
    have hmid : endOf (l ++ [k]) = k.summarizedThrough := by simp [endOf]
    rw [hmid, append_assoc, singleton_append] at htail
    rw [map_cons, hrng]
    exact .cons hlt htail

theorem tiles_checkpoints (h : Inv db) : Tiles 0 db.checkpointRanges (endOf db.checkpoints) := by
  rw [checkpointRanges, checkpointLog_eq h]
  exact tiles_suffix h [] db.checkpoints rfl

/-! ## One checkpoint for a frontier -/

theorem length_checkpointsAt_le_one (h : Inv db) (frontier : Nat) :
    (db.checkpointLog.filter fun k => db.producerFrontier k = some frontier).length ≤ 1 := by
  rw [checkpointLog_eq h]
  refine Attempts.length_filter_le_one (checkpoints_pairwise h) fun k hk k' hk' hf hf' hlt => ?_
  obtain ⟨c, hc, hid, -, -⟩ := h.outcome.exists_producer hk
  obtain ⟨c', hc', hid', -, -⟩ := h.outcome.exists_producer hk'
  simp only [producerFrontier_eq h hc hid, producerFrontier_eq h hc' hid', decide_eq_true_eq,
    Option.some.injEq] at hf hf'
  have := hlt c hc c' hc' hid hid'
  omega

/-! ## Source ends -/

theorem sourceEndsTried_pairwise (h : Inv db) (frontier : Nat) :
    (db.sourceEndsTried frontier).Pairwise (· > ·) := by
  have hpair : (db.contexts.filter fun c => c.attempt = 1 && c.frontier = frontier).Pairwise
      fun a b => ∀ e, sourceEnd? a.operation = some e → ∀ e', sourceEnd? b.operation = some e' →
        e > e' := by
    refine (h.context.rows.pairwise.filter _).imp_of_mem fun {a b} ha hb hab e he e' he' => ?_
    have hfa := (mem_filter.1 ha).2
    have hfb := (mem_filter.1 hb).2
    simp only [Bool.and_eq_true, decide_eq_true_eq] at hfa hfb
    rcases hab.precedes with hlt | ⟨-, hbef | ⟨-, hlt⟩⟩
    · omega
    · rw [operation_of_sourceEnd? he, operation_of_sourceEnd? he'] at hbef
      exact hbef
    · omega
  exact pairwise_filterMap.2 hpair

theorem mem_sourceEndsTried (h : Inv db) {c : ModelCallContext} (hc : c ∈ db.contexts) {e : Nat}
    (hop : c.operation = .compaction e) : e ∈ db.sourceEndsTried c.frontier := by
  have hmem : c ∈ db.attemptsOf c.operation c.frontier := mem_filter.2 ⟨hc, by simp⟩
  have hone : 1 ∈ (db.attemptsOf c.operation c.frontier).map (·.attempt) := by
    rw [(attempts_of h c.operation c.frontier).1, mem_range'_1]
    have := length_pos_of_mem hmem
    omega
  obtain ⟨a, ha, hatt⟩ := mem_map.1 hone
  obtain ⟨ha, hkey⟩ := mem_filter.1 ha
  simp only [Bool.and_eq_true, decide_eq_true_eq] at hkey
  refine mem_filterMap.2 ⟨a, mem_filter.2 ⟨ha, by simp [hatt, hkey.2]⟩, ?_⟩
  rw [hkey.1, hop, sourceEnd?]

/-! ## Publication -/

theorem checkpointRanges_reconcileWakeup :
    (db.reconcileWakeup now).checkpointRanges = db.checkpointRanges := by
  unfold reconcileWakeup
  split <;> rfl

/-- A publication adds the range that the transaction has checked, and leaves the others. -/
theorem checkpointRanges_of_publish (h : Inv db) {lock context : Id}
    (hc : db.publishContextCheckpoint lock context now = some db') :
    ∃ c sourceEnd, db.context? context = some c ∧ c.operation = .compaction sourceEnd ∧
      db'.checkpointRanges = db.checkpointRanges ++ [(db.summarizedThrough c.frontier + 1, sourceEnd)] := by
  simp only [publishContextCheckpoint, bind_eq_some, require_eq_some, pure_eq_some] at hc
  obtain ⟨-, -, c, hctx, sourceEnd, hend, -, ⟨hlive, -⟩, -, -, -, -, turn, -, published, hpub, finished,
    hfin, rfl⟩ := hc
  refine ⟨c, sourceEnd, hctx, operation_of_sourceEnd? hend, ?_⟩
  obtain ⟨hmem, rfl⟩ := mem_of_context? hctx
  obtain ⟨-, rfl⟩ := finishContext_spec hfin
  have heff := QuietEffect.checkpoint h hmem hlive hend hpub
  have hinv := heff.effect.inv h
  obtain ⟨es, hx, -⟩ := heff
  obtain ⟨-, hdb, -⟩ := appendToTurn_spec hpub
  let k : ContextCheckpoint := ⟨c.id, sourceEnd, now⟩
  have hcps : (published.setContextState c.id .succeeded).checkpoints = db.checkpoints ++ [k] := by
    rw [setContextState, hdb]
    rfl
  have hctxs : (published.setContextState c.id .succeeded).contexts =
      db.contexts.map fun a => if a.id = c.id then { a with state := .succeeded } else a := by
    rw [setContextState, hdb]
    rfl
  -- a producer keeps its frontier, and what is summarized for it
  have hrng (a : ModelCallContext) (ha : a ∈ db.contexts) (k' : ContextCheckpoint)
      (hid : a.id = k'.context) : (published.setContextState c.id .succeeded).sourceRange k' =
        (db.summarizedThrough a.frontier + 1, k'.summarizedThrough) := by
    have hin : (if a.id = c.id then { a with state := .succeeded } else a) ∈
        (published.setContextState c.id .succeeded).contexts := by
      rw [hctxs]
      exact mem_map_of_mem ha
    have hsum := hx.summarizedThrough_eq [k] hcps (fun k' hk' e he => by
      cases mem_singleton.1 hk'
      exact (h.outcome.no_event h.context.rows hmem hlive he).2) (h.context.frontier a ha)
    have hf : (if a.id = c.id then { a with state := .succeeded } else a : ModelCallContext).frontier =
        a.frontier := by
      split <;> rfl
    have hid' : (if a.id = c.id then { a with state := .succeeded } else a : ModelCallContext).id =
        k'.context := by
      split <;> exact hid
    rw [sourceRange, producerFrontier_eq hinv hin hid', Option.map_some, Option.getD_some, hf, hsum]
  rw [checkpointRanges_reconcileWakeup, checkpointRanges, checkpointLog_eq hinv, hcps,
    map_append, map_singleton, hrng c hmem k rfl, checkpointRanges, checkpointLog_eq h]
  congr 1
  refine map_congr_left fun k' hk' => ?_
  obtain ⟨a, ha, hid, -, -⟩ := h.outcome.exists_producer hk'
  rw [hrng a ha k' hid, sourceRange, producerFrontier_eq h ha hid, Option.map_some, Option.getD_some]

end Db

/-- **The chain of checkpoints.** In every state of every history the checkpoints, in the order of their
events, end at increasing sequences; the range of each starts one after the end of the one before, so
that together the ranges are `1, …, n` for the latest end `n`, each event once; a publication adds
exactly the range its transaction derived and checked; a frontier has at most one checkpoint; and the
source ends tried at a frontier decrease, a retry trying none of its own. -/
theorem checkpoint_chain {s : State} (h : Reachable s) :
    (s.db.checkpointRanges.map (·.2)).Pairwise (· < ·) ∧
    s.db.checkpointRanges.map (·.1) =
      ((0 :: s.db.checkpointRanges.map (·.2)).dropLast).map (· + 1) ∧
    Tiles.cover s.db.checkpointRanges =
      List.range' 1 (((s.db.checkpointRanges.map (·.2)).getLast?).getD 0) ∧
    (∀ lock context now db', s.db.publishContextCheckpoint lock context now = some db' →
      ∃ c sourceEnd, s.db.context? context = some c ∧ c.operation = .compaction sourceEnd ∧
        db'.checkpointRanges =
          s.db.checkpointRanges ++ [(s.db.summarizedThrough c.frontier + 1, sourceEnd)]) ∧
    (∀ frontier,
      (s.db.checkpointLog.filter fun k => s.db.producerFrontier k = some frontier).length ≤ 1) ∧
    (∀ frontier, (s.db.sourceEndsTried frontier).Pairwise (· > ·)) ∧
    ∀ c ∈ s.db.contexts, ∀ e, c.operation = .compaction e → e ∈ s.db.sourceEndsTried c.frontier := by
  have hinv := (reachable_inv h).1
  have htiles := Db.tiles_checkpoints hinv
  refine ⟨htiles.ends_pairwise.2, htiles.starts_eq, ?_,
    fun lock context now db' hc => Db.checkpointRanges_of_publish hinv hc,
    Db.length_checkpointsAt_le_one hinv, Db.sourceEndsTried_pairwise hinv,
    fun c hc e hop => Db.mem_sourceEndsTried hinv hc hop⟩
  rw [htiles.cover_eq, ← htiles.hi_eq, Nat.zero_add, Nat.sub_zero]

/-- Two overflowing calls, the compaction of the first with a reduced source. -/
def compactedHistory : List (Time × Tx) :=
  [(0, .claimNextAgentWork 1 100), (0, .claimNormalModelCall 1 2 [1] none true),
    (1, .recordFailureAndClaimCompaction 1 0 2 true), (1, .replaceCompactionSource 1 1 1 true),
    (1, .publishContextCheckpoint 1 2), (1, .claimNormalModelCall 1 3 [1] none true),
    (1, .recordFailureAndClaimCompaction 1 3 2 true), (1, .publishContextCheckpoint 1 4)]

theorem checkpoint_chain_compacted : ∃ s, history true 0 compactedHistory = some s ∧
    s.db.checkpointRanges = [(1, 1), (2, 2)] ∧ s.db.sourceEndsTried 2 = [2, 1] ∧
    (s.db.checkpointRanges.map (·.2)).Pairwise (· < ·) ∧
    (∀ frontier, (s.db.sourceEndsTried frontier).Pairwise (· > ·)) ∧
    ∀ frontier,
      (s.db.checkpointLog.filter fun k => s.db.producerFrontier k = some frontier).length ≤ 1 := by
  have hrun : (history true 0 compactedHistory).any (fun s =>
      s.db.checkpointRanges = [(1, 1), (2, 2)] ∧ s.db.sourceEndsTried 2 = [2, 1]) = true := by
    decide +kernel
  obtain ⟨s, hs, hfacts⟩ := (Option.any_eq_true _ _).1 hrun
  simp only [decide_eq_true_eq] at hfacts
  obtain ⟨hends, -, -, -, hone, htried, -⟩ := checkpoint_chain (reachable_history hs)
  exact ⟨s, hs, hfacts.1, hfacts.2, hends, htried, hone⟩

end Store
