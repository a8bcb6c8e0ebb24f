import Omnara.Store.Proof.Commits
import Omnara.Store.Proof.Settled

/-!
# Available work is claimed

**Safety** is `reachable_settled`: the wakeup of an agent that nobody holds is no later than its work.

**Histories that go on** are the runs of the system (`History`). Workers claim and the reaper reaps
again and again, and time passes (`Fair`); nothing is assumed about what else is committed in between,
and an attempt may fail.

**Progress.** Ready times lie in the past, except the retry times of failed calls (`Dated`,
`nextWakeup_le`). Without a runtime nobody changes the calls (`tx_unlocked`), so after their last retry
time a claim finds the work ready and the wakeup due, and commits (`claimed_of_unlocked`). A lock is
reaped once it has expired, so work that waits behind it is claimed later, unless its runtime is alive
and renews the lock for ever (`released_or_held`).
-/

namespace Store

variable {s t : State}

namespace Db

variable {db db' : Db} {now : Time}

/-! ## Ready times -/

/-- No row is dated after `now`. -/
structure Dated (db : Db) (now : Time) : Prop where
  events : ∀ e ∈ db.events, e.createdAt ≤ now
  results : ∀ r ∈ db.results, r.completedAt ≤ now
  checkpoints : ∀ k ∈ db.checkpoints, k.createdAt ≤ now

theorem Dated.later {later : Time} (h : Dated db now) (hle : now ≤ later) : Dated db later :=
  ⟨fun e he => (h.events e he).trans hle, fun r hr => (h.results r hr).trans hle,
    fun k hk => (h.checkpoints k hk).trans hle⟩

theorem Dated.effect (heff : Effect now db db') (h : Dated db now) : Dated db' now := by
  obtain ⟨es, hx, -, hstamped⟩ := heff
  refine ⟨fun e he => ?_, fun r hr => ?_, fun k hk => ?_⟩
  · rw [hx.events, List.mem_append] at he
    rcases he with he | he
    · exact h.events e he
    · exact (hstamped.events e he).le
  · rcases hstamped.results r hr with hold | hnew
    · exact h.results r hold
    · exact hnew.le
  · rcases hstamped.checkpoints k hk with hold | hnew
    · exact h.checkpoints k hold
    · exact hnew.le

theorem Dated.path (hpath : Path now db db') (h : Dated db now) : Dated db' now := by
  induction hpath with
  | refl => exact h
  | tail _ heff ih => exact ih.effect heff

theorem launch_dated (message : Bool) (hc : Db.launch message now = some db) : Dated db now := by
  cases message <;> cases hc <;> constructor <;>
    simp [markWakeup, insertTurn, appendEvent, insertResolvedInput, Db.empty]

/-- After the last retry time of the calls, work is ready at once. -/
theorem nextWakeup_le (hdated : Dated db now)
    (hretry : ∀ c ∈ db.contexts, ∀ t, retryAt? c = some t → t ≤ now) {r : Time}
    (hr : db.nextWakeupReadyAt now = some r) : r ≤ now := by
  rcases nextWakeupReadyAt_cases db with hnow | ⟨next, hsame, hready⟩
  · rw [hnow, Option.some.injEq] at hr
    exact hr.ge
  · cases hready r (hsame now ▸ hr) with
    | event he => exact hdated.events _ he
    | result hres => exact hdated.results _ hres
    | checkpoint hk => exact hdated.checkpoints _ hk
    | retry hc ht => exact hretry _ hc _ ht

theorem exists_retryBound (contexts : List ModelCallContext) :
    ∃ bound, ∀ c ∈ contexts, ∀ t, retryAt? c = some t → t ≤ bound := by
  induction contexts with
  | nil => exact ⟨0, by simp⟩
  | cons c contexts ih =>
    obtain ⟨bound, hbd⟩ := ih
    refine ⟨max ((retryAt? c).getD 0) bound, fun a ha t ht => ?_⟩
    rcases List.mem_cons.1 ha with rfl | ha
    · simp [ht]
    · exact (hbd a ha t ht).trans (le_max_right _ _)

end Db

theorem reachable_dated {s : State} (h : Reachable s) : s.db.Dated s.now := by
  induction h with
  | start hs =>
    obtain ⟨message, hc⟩ := hs
    exact Db.launch_dated message hc
  | next hs hst ih =>
    obtain ⟨hinv, hcur⟩ := reachable_inv hs
    cases hst with
    | wait hle => exact ih.later hle
    | commit tx hle hrun => exact (ih.later hle).path (Db.tx_kept tx hinv hcur hrun).1

/-! ## Fair histories -/

abbrev History := Reach.Run Launched Step

/-- There is something to do for the agent, now or later. -/
def Available (s : State) : Prop :=
  s.db.archived = false ∧ s.db.nextWakeupReadyAt s.now ≠ none

/-- A transaction is tried: it commits, or it fails and changes nothing. -/
def Tried (tx : Tx) (s t : State) : Prop :=
  t.db = (tx.run s.db t.now).getD s.db

def Claimed (s t : State) : Prop :=
  s.db.lock = none ∧ t.db.lock ≠ none ∧
    ∃ lock lease, s.db.claimNextAgentWork lock lease t.now = some t.db

/-- Workers keep claiming, and the reaper keeps looking for an expired lock. -/
structure Fair (run : History) : Prop where
  time : ∀ t, ∃ n, t ≤ (run.state n).now
  claims : ∀ n, ∃ m, n ≤ m ∧
    ∃ lock lease, Tried (.claimNextAgentWork lock lease) (run.state m) (run.state (m + 1))
  reaps : ∀ n, ∃ m, n ≤ m ∧ ∀ l, (run.state m).db.lock = some l →
    l.leaseExpiresAt ≤ (run.state (m + 1)).now → ∃ delay queued,
      (run.state m).db.QueuedCalls queued ∧
        Tried (.reapExpiredAgentRuntimeLock l.id delay queued) (run.state m) (run.state (m + 1))

/-- A runtime keeps its lock for ever, and its lease moves past every time. -/
def HeldForever (run : History) (n : Nat) : Prop :=
  (∀ k, n ≤ k → (run.state k).db.lock ≠ none) ∧
    ∀ t, ∃ k, n ≤ k ∧ ∃ l, (run.state k).db.lock = some l ∧ t < l.leaseExpiresAt

/-- A step without a runtime changes neither lock nor model calls, unless it is a claim. -/
theorem Step.unlocked (h : Step s t) (hlock : s.db.lock = none) :
    t.db.lock = none ∧ t.db.contexts = s.db.contexts ∨ Claimed s t := by
  cases h with
  | wait hle => exact .inl ⟨hlock, rfl⟩
  | commit tx hle hrun =>
    rcases Db.tx_unlocked hlock tx _ hrun with ⟨⟨lock, lease, rfl⟩, htaken⟩ | hsame
    · exact .inr ⟨hlock, htaken, lock, lease, hrun⟩
    · exact .inl hsame

theorem Tried.claimed (hs : Reachable s) (hst : Step s t) (hlock : s.db.lock = none)
    (havail : Available s) (hretry : ∀ c ∈ s.db.contexts, ∀ u, Db.retryAt? c = some u → u ≤ t.now)
    {lock : Id} {lease : Time} (htried : Tried (.claimNextAgentWork lock lease) s t) :
    Claimed s t := by
  obtain ⟨hinv, hcur⟩ := reachable_inv hs
  obtain ⟨harch, hnext⟩ := havail
  have hle := hst.now_le
  obtain ⟨r, hr⟩ : ∃ r, s.db.nextWakeupReadyAt t.now = some r := by
    rcases Db.nextWakeupReadyAt_cases s.db with hnow | ⟨next, hsame, -⟩
    · exact ⟨t.now, hnow t.now⟩
    · rw [hsame] at hnext
      obtain ⟨r, rfl⟩ := Option.ne_none_iff_exists'.1 hnext
      exact ⟨r, hsame t.now⟩
  have hready := Db.nextWakeup_le ((reachable_dated hs).later hle) hretry hr
  obtain ⟨w, hw, hdue⟩ := (reachable_settled hs).later hle harch hlock r hr
  obtain ⟨db', hclaim, htaken⟩ := Db.commits_claimNextAgentWork hinv hcur harch hlock hw
    (hdue.trans (max_le hready le_rfl)) hr hready lock lease
  have heq : t.db = db' := by
    rw [htried, show Tx.run s.db t.now (.claimNextAgentWork lock lease) = some db' from hclaim,
      Option.getD_some]
  exact ⟨hlock, heq ▸ htaken, lock, lease, heq ▸ hclaim⟩

theorem now_mono (run : History) {m n : Nat} (h : m ≤ n) : (run.state m).now ≤ (run.state n).now :=
  run.monotone (f := State.now) (fun _ _ hst => hst.now_le) h

section

variable {run : History} (fair : Fair run) {n : Nat}
include fair

theorem claimed_of_unlocked (hlock : (run.state n).db.lock = none) (havail : Available (run.state n)) :
    ∃ m, n ≤ m ∧ (¬ Available (run.state (m + 1)) ∨ Claimed (run.state m) (run.state (m + 1))) := by
  obtain ⟨bound, hbd⟩ := Db.exists_retryBound (run.state n).db.contexts
  obtain ⟨late, hlate⟩ := fair.time bound
  -- until then the work is available, nobody holds the agent, and the calls are those of `n`
  refine run.leadsTo (P := fun s => s.db.lock = none ∧ Available s ∧
    s.db.contexts = (run.state n).db.contexts) (Q := fun s t => ¬ Available t ∨ Claimed s t) ?_ ?_
    ⟨hlock, havail, rfl⟩
  · rintro k ⟨hlock, -, hctxs⟩
    rcases (run.next k).unlocked hlock with ⟨hlock', hctxs'⟩ | hclaimed
    · by_cases havail' : Available (run.state (k + 1))
      · exact .inl ⟨hlock', havail', hctxs'.trans hctxs⟩
      · exact .inr (.inl havail')
    · exact .inr (.inr hclaimed)
  · intro k
    obtain ⟨m, hm, lock, lease, htried⟩ := fair.claims (max k late)
    refine ⟨m, (le_max_left _ _).trans hm, fun ⟨hlock, havail, hctxs⟩ => .inr ?_⟩
    refine htried.claimed (run.reachable m) (run.next m) hlock havail fun c hc u hu => ?_
    calc u ≤ bound := hbd c (hctxs ▸ hc) u hu
      _ ≤ (run.state late).now := hlate
      _ ≤ (run.state (m + 1)).now := now_mono run (((le_max_right _ _).trans hm).trans (Nat.le_succ m))

theorem released_or_held : (∃ m, n ≤ m ∧ (run.state m).db.lock = none) ∨ HeldForever run n := by
  by_cases hreleased : ∃ m, n ≤ m ∧ (run.state m).db.lock = none
  · exact .inl hreleased
  · have hheld (k : Nat) (hk : n ≤ k) : (run.state k).db.lock ≠ none :=
      fun hlock => hreleased ⟨k, hk, hlock⟩
    refine .inr ⟨hheld, fun t => ?_⟩
    obtain ⟨late, hlate⟩ := fair.time t
    obtain ⟨m, hm, hreap⟩ := fair.reaps (max n late)
    have hnm : n ≤ m := (le_max_left _ _).trans hm
    obtain ⟨l, hl⟩ := Option.ne_none_iff_exists'.1 (hheld m hnm)
    refine ⟨m, hnm, l, hl, ?_⟩
    by_contra hexp
    have hpast : t ≤ (run.state (m + 1)).now :=
      hlate.trans (now_mono run (((le_max_right _ _).trans hm).trans (Nat.le_succ m)))
    have hexp' : l.leaseExpiresAt ≤ (run.state (m + 1)).now := (not_lt.1 hexp).trans hpast
    -- the reaper finds the lock expired and deletes it
    obtain ⟨delay, queued, hqueued, htried⟩ := hreap l hl hexp'
    obtain ⟨db', hcommit, hgone⟩ := Db.commits_reapExpiredAgentRuntimeLock
      (reachable_inv (run.reachable m)).1 hl hexp' delay hqueued
    refine hheld (m + 1) (hnm.trans (Nat.le_succ m)) ?_
    rw [htried, show Tx.run _ _ (.reapExpiredAgentRuntimeLock l.id delay queued) = some db' from hcommit,
      Option.getD_some, hgone]

end

theorem archived_final (run : History) {m k : Nat} (h : m ≤ k)
    (harch : (run.state m).db.archived = true) : (run.state k).db.archived = true := by
  induction h with
  | refl => exact harch
  | step _ ih => exact (run.next _).archived (reachable_inv (run.reachable _)) ih

/-- The agent has nothing to do any more: it is archived for good, or its work has gone. -/
def Dropped (run : History) (m : Nat) : Prop :=
  (∀ k, m ≤ k → (run.state k).db.archived = true) ∨
    (run.state m).db.nextWakeupReadyAt (run.state m).now = none

theorem dropped_of_not_available {run : History} {m : Nat} (h : ¬ Available (run.state m)) :
    Dropped run m := by
  cases harch : (run.state m).db.archived with
  | true => exact .inl fun k hk => archived_final run hk harch
  | false => exact .inr (Decidable.byContradiction fun hnext => h ⟨harch, hnext⟩)

/-- **No stranded agent.** In every state of every history, an agent that is not archived and has no
runtime lock has a wakeup no later than its next work, or than now if that is past. So where workers
keep claiming and expired locks keep being reaped, available work is claimed, unless it is dropped or a
runtime that is alive holds the agent for ever. -/
theorem no_stranded_agent : (∀ s, Reachable s → s.db.archived = false → s.db.lock = none →
      ∀ r, s.db.nextWakeupReadyAt s.now = some r → ∃ w, s.db.wakeup = some w ∧ w ≤ max r s.now) ∧
    ∀ run : History, Fair run → ∀ n, Available (run.state n) →
      (∃ m, n ≤ m ∧ (Dropped run m ∨ Claimed (run.state m) (run.state (m + 1)))) ∨
        HeldForever run n := by
  refine ⟨fun s hs => reachable_settled hs, fun run fair n havail => ?_⟩
  rcases released_or_held fair (n := n) with ⟨m, hnm, hlock⟩ | hheld
  · refine .inl ?_
    by_cases havail' : Available (run.state m)
    · obtain ⟨k, hmk, hgone | hclaimed⟩ := claimed_of_unlocked fair hlock havail'
      · exact ⟨k + 1, (hnm.trans hmk).trans (Nat.le_succ k), .inl (dropped_of_not_available hgone)⟩
      · exact ⟨k, hnm.trans hmk, .inr hclaimed⟩
    · exact ⟨m, hnm, .inl (dropped_of_not_available havail')⟩
  · exact .inr hheld

/-! ## A driven agent -/

theorem Tried.step {tx : Tx} (h : Tried tx s t) (hle : s.now ≤ t.now) : Step s t := by
  obtain ⟨db, now⟩ := s
  obtain ⟨db', later⟩ := t
  have h : db' = (tx.run db later).getD db := h
  cases hrun : tx.run db later with
  | none =>
    have heq : db' = db := by rw [h, hrun, Option.getD_none]
    exact heq ▸ .wait hle
  | some committed =>
    have heq : db' = committed := by rw [h, hrun, Option.getD_some]
    exact .commit tx hle (heq ▸ hrun)

/-- A worker and the reaper take turns, one time unit each. -/
def driver (n : Nat) (s : State) : State :=
  if n % 2 = 0 then ⟨(Tx.run s.db (s.now + 1) (.claimNextAgentWork n 1)).getD s.db, s.now + 1⟩
  else match s.db.lock with
    | none => ⟨s.db, s.now + 1⟩
    | some l => ⟨(Tx.run s.db (s.now + 1) (.reapExpiredAgentRuntimeLock l.id 0 [])).getD s.db, s.now + 1⟩

def driven : Nat → State
  | 0 => ⟨(Db.launch true 0).getD .empty, 0⟩
  | n + 1 => driver n (driven n)

theorem now_driver (n : Nat) (s : State) : (driver n s).now = s.now + 1 := by
  unfold driver
  split
  · rfl
  · split <;> rfl

theorem now_driven (n : Nat) : (driven n).now = n := by
  induction n with
  | zero => rfl
  | succ n ih => rw [driven, now_driver, ih]

theorem tried_claim {n : Nat} (h : n % 2 = 0) (s : State) :
    Tried (.claimNextAgentWork n 1) s (driver n s) := by
  simp only [Tried, driver, if_pos h]

theorem tried_reap {n : Nat} (h : ¬ n % 2 = 0) {s : State} {l : RuntimeLock} (hl : s.db.lock = some l) :
    Tried (.reapExpiredAgentRuntimeLock l.id 0 []) s (driver n s) := by
  simp only [Tried, driver, if_neg h, hl]

theorem step_driver (n : Nat) (s : State) : Step s (driver n s) := by
  have hle : s.now ≤ (driver n s).now := now_driver n s ▸ Nat.le_succ _
  by_cases h : n % 2 = 0
  · exact (tried_claim h s).step hle
  · cases hl : s.db.lock with
    | none =>
      have heq : driver n s = ⟨s.db, s.now + 1⟩ := by simp only [driver, if_neg h, hl]
      exact heq ▸ .wait (Nat.le_succ _)
    | some l => exact (tried_reap h hl).step hle

def drivenHistory : History where
  state := driven
  start := ⟨true, rfl⟩
  next n := step_driver n (driven n)

theorem fair_drivenHistory : Fair drivenHistory where
  time t := ⟨t, (now_driven t).ge⟩
  claims n := ⟨2 * n, by omega, 2 * n, 1, tried_claim (by omega) _⟩
  reaps n := ⟨2 * n + 1, by omega, fun l hl _ => ⟨0, [], ⟨.nil, by simp⟩, tried_reap (by omega) hl⟩⟩

/-- A runtime claims the message, starts its call and dies; the call may be retried at 26. -/
def reapedHistory : List (Time × Tx) :=
  [(0, .claimNextAgentWork 7 10), (1, .claimNormalModelCall 7 2 [1] none true),
    (20, .reapExpiredAgentRuntimeLock 7 5 [])]

theorem no_stranded_agent_driven :
    (∃ s, history true 0 reapedHistory = some s ∧ s.now = 21 ∧ s.db.nextWakeupReadyAt 21 = some 26 ∧
      ∃ w, s.db.wakeup = some w ∧ w ≤ max 26 21) ∧
    Fair drivenHistory ∧ Available (drivenHistory.state 0) ∧
      ((∃ m, 0 ≤ m ∧ (Dropped drivenHistory m ∨
        Claimed (drivenHistory.state m) (drivenHistory.state (m + 1)))) ∨ HeldForever drivenHistory 0) := by
  have hrun : (history true 0 reapedHistory).any (fun s => decide (s.now = 21 ∧
      s.db.archived = false ∧ s.db.lock = none ∧ s.db.nextWakeupReadyAt 21 = some 26)) = true := by
    decide +kernel
  obtain ⟨s, hs, hfacts⟩ := (Option.any_eq_true _ _).1 hrun
  simp only [decide_eq_true_eq] at hfacts
  obtain ⟨hnow, harch, hlock, hnext⟩ := hfacts
  have hsafe := no_stranded_agent.1 s (reachable_history hs) harch hlock 26 (hnow ▸ hnext)
  rw [hnow] at hsafe
  have havail : Available (drivenHistory.state 0) := ⟨by decide +kernel, by decide +kernel⟩
  refine ⟨⟨s, hs, hnow, hnext, hsafe⟩, fair_drivenHistory, havail, ?_⟩
  exact no_stranded_agent.2 drivenHistory fair_drivenHistory 0 havail

end Store
