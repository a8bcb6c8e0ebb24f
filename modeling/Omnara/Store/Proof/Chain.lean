import Omnara.Lib.Attempts
import Omnara.Store.ModelCalls

/-!
# The chain of model calls

Facts about a list of model call contexts in the order of their creation, with no reference to the
rest of the database. Each context follows the one before it in one of four ways (`Follows`): a
normal call at a later frontier, the next attempt of the same operation, the compaction that an
overflowing normal call asks for, or the same compaction with a smaller source. From that one relation
between neighbours:

* contexts are created in the order of frontier, operation and attempt (`Rows.pairwise`);
* only the last can be started (`Rows.eq_last_of_started`);
* the attempts of an operation are `1..n`, all but the last failed for a retry (`Rows.grown`,
  `Leads.retry`);
* a call that ended without recovery is the last of its frontier (`Leads.later`).
-/

namespace Store

open List

/-- The order in which operations are tried at one frontier. -/
def Operation.Before : Operation → Operation → Prop
  | .normal, .compaction _ => True
  | .compaction e, .compaction e' => e' < e
  | _, .normal => False

def ContextState.isRecoverable : ContextState → Bool
  | .failed (some _) => true
  | _ => false

namespace ModelCallContext

/-- The operation an attempt belongs to: kind and source end, and the frontier. -/
def key (c : ModelCallContext) : Operation × Nat := (c.operation, c.frontier)

def Precedes (a b : ModelCallContext) : Prop :=
  a.frontier < b.frontier ∨ a.frontier = b.frontier ∧
    (a.operation.Before b.operation ∨ a.operation = b.operation ∧ a.attempt < b.attempt)

/-- `b` may be created when `a` is the latest context. -/
inductive Follows (a b : ModelCallContext) : Prop
  | fresh (hop : b.operation = .normal) (hone : b.attempt = 1) (hlt : a.frontier < b.frontier)
      (hdone : a.state ≠ .started)
  | retry (t : Time) (hstate : a.state = .failed (some (.retry t)))
      (hop : b.operation = a.operation) (hfrontier : b.frontier = a.frontier)
      (hnext : b.attempt = a.attempt + 1)
  | compact (e : Nat) (hnormal : a.operation = .normal) (hstate : a.state = .failed (some .compact))
      (hop : b.operation = .compaction e) (hfrontier : b.frontier = a.frontier)
      (hone : b.attempt = 1)
  | reduce (e e' : Nat) (hcompaction : a.operation = .compaction e')
      (hstate : a.state = .failed (some .reduceCompactionSource))
      (hop : b.operation = .compaction e) (hlt : e < e') (hfrontier : b.frontier = a.frontier)
      (hone : b.attempt = 1)

structure WellFormed (c : ModelCallContext) : Prop where
  first : 1 ≤ c.attempt
  bound : c.attempt ≤ maxModelCallRetriesPerOperation + 1
  retry : ∀ t, c.state = .failed (some (.retry t)) → c.attempt ≤ maxModelCallRetriesPerOperation
  source : ∀ e, c.operation = .compaction e → 0 < e ∧ e ≤ c.frontier

structure Leads (a b : ModelCallContext) : Prop where
  precedes : a.Precedes b
  done : a.state ≠ .started
  later : a.state.isRecoverable = false → a.frontier < b.frontier
  retry : a.key = b.key → ∃ t, a.state = .failed (some (.retry t))

variable {a b c : ModelCallContext}

theorem before_trans {o₁ o₂ o₃ : Operation} (h₁ : o₁.Before o₂) (h₂ : o₂.Before o₃) :
    o₁.Before o₃ := by
  cases o₁ <;> cases o₂ <;> cases o₃ <;> simp_all [Operation.Before]
  omega

theorem Precedes.trans (h₁ : a.Precedes b) (h₂ : b.Precedes c) : a.Precedes c := by
  rcases h₁ with h₁ | ⟨hf₁, h₁⟩ <;> rcases h₂ with h₂ | ⟨hf₂, h₂⟩
  · exact .inl (Nat.lt_trans h₁ h₂)
  · exact .inl (hf₂ ▸ h₁)
  · exact .inl (hf₁ ▸ h₂)
  · refine .inr ⟨hf₁.trans hf₂, ?_⟩
    rcases h₁ with h₁ | ⟨ho₁, h₁⟩ <;> rcases h₂ with h₂ | ⟨ho₂, h₂⟩
    · exact .inl (before_trans h₁ h₂)
    · exact .inl (ho₂ ▸ h₁)
    · exact .inl (ho₁ ▸ h₂)
    · exact .inr ⟨ho₁.trans ho₂, Nat.lt_trans h₁ h₂⟩

theorem not_before_self (o : Operation) : ¬ o.Before o := by
  cases o <;> simp [Operation.Before]

theorem Precedes.irrefl (a : ModelCallContext) : ¬ a.Precedes a := by
  rintro (h | ⟨-, h | ⟨-, h⟩⟩)
  · exact Nat.lt_irrefl _ h
  · exact not_before_self _ h
  · exact Nat.lt_irrefl _ h

theorem Precedes.frontier_le (h : a.Precedes b) : a.frontier ≤ b.frontier := by
  rcases h with h | ⟨h, -⟩
  · exact Nat.le_of_lt h
  · exact Nat.le_of_eq h

namespace Follows

section
variable (h : Follows a b)
include h

theorem precedes : a.Precedes b := by
  cases h with
  | fresh _ _ hlt _ => exact .inl hlt
  | retry _ _ hop hf hnext => exact .inr ⟨hf.symm, .inr ⟨hop.symm, by omega⟩⟩
  | compact e hn _ hop hf _ => exact .inr ⟨hf.symm, .inl (by simp [hn, hop, Operation.Before])⟩
  | reduce e e' hc _ hop hlt hf _ =>
    exact .inr ⟨hf.symm, .inl (by simpa [hc, hop, Operation.Before] using hlt)⟩

theorem done : a.state ≠ .started := by
  cases h <;> simp_all

/-- At the same frontier only a recoverable failure is followed. -/
theorem later (hs : a.state.isRecoverable = false) : a.frontier < b.frontier := by
  cases h <;> simp_all [ContextState.isRecoverable]

theorem retry_of_key_eq (hk : a.key = b.key) :
    ∃ t, a.state = .failed (some (.retry t)) := by
  simp only [key, Prod.mk.injEq] at hk
  cases h with
  | fresh _ _ hlt _ => omega
  | retry t hst _ _ _ => exact ⟨t, hst⟩
  | compact _ hn _ hop _ _ => simp [hn, hop] at hk
  | reduce e e' hc _ hop hlt _ _ =>
    simp only [hc, hop, Operation.compaction.injEq] at hk
    omega

theorem leads : Leads a b := ⟨h.precedes, h.done, h.later, h.retry_of_key_eq⟩

/-- A neighbour that has another key has a later one, which no context after it has again. -/
theorem trans_leads (hbc : Leads b c) : Leads a c where
  precedes := h.precedes.trans hbc.precedes
  done := h.done
  later hs := Nat.lt_of_lt_of_le (h.later hs) hbc.precedes.frontier_le
  retry hk := by
    by_cases hab : a.key = b.key
    · exact h.retry_of_key_eq hab
    · exfalso
      have hle := h.precedes.frontier_le
      have hle' := hbc.precedes.frontier_le
      simp only [key, Prod.mk.injEq] at hk hab
      -- `b` lies strictly between `a` and `c` in the order of operations, but these are equal
      rcases h.precedes with hlt | ⟨-, hop | ⟨hop, -⟩⟩
      · omega
      · rcases hbc.precedes with hlt | ⟨-, hop' | ⟨hop', -⟩⟩
        · omega
        · exact not_before_self _ (hk.1 ▸ before_trans hop hop')
        · rw [hop', ← hk.1] at hop
          exact not_before_self _ hop
      · exact hab ⟨hop, by omega⟩

end

end Follows

/-! ## The list of contexts -/

structure Rows (rows : List ModelCallContext) : Prop where
  ids : rows.map (·.id) = List.range rows.length
  chain : rows.IsChain Follows
  head : ∀ c, rows.head? = some c → c.operation = .normal ∧ c.attempt = 1
  wellFormed : ∀ c ∈ rows, c.WellFormed

theorem pairwise_of_isChain {rows : List ModelCallContext} (h : rows.IsChain Follows) :
    rows.Pairwise Leads := by
  induction rows with
  | nil => exact .nil
  | cons a rows ih =>
    have htail := ih h.tail
    refine pairwise_cons.2 ⟨fun c hc => ?_, htail⟩
    cases rows with
    | nil => cases hc
    | cons b rows =>
      have hab : Follows a b := (isChain_cons_cons.1 h).1
      rcases mem_cons.1 hc with rfl | hc
      · exact hab.leads
      · exact hab.trans_leads ((pairwise_cons.1 htail).1 c hc)

namespace Rows

variable {rows l : List ModelCallContext}

theorem pairwise (h : Rows rows) : rows.Pairwise Leads := pairwise_of_isChain h.chain

theorem leads_last (h : Rows (l ++ [c])) : ∀ a ∈ l, Leads a c := fun a ha =>
  (pairwise_append.1 h.pairwise).2.2 a ha c mem_cons_self

theorem not_precedes_of_last (h : Rows (l ++ [c])) {x : ModelCallContext} (hx : x ∈ l ++ [c]) :
    ¬ c.Precedes x := by
  intro hcx
  rcases mem_append.1 hx with hx | hx
  · exact Precedes.irrefl c (hcx.trans (h.leads_last x hx).precedes)
  · cases mem_singleton.1 hx
    exact Precedes.irrefl _ hcx

theorem eq_last_of_started (h : Rows rows) (hc : c ∈ rows) (hs : c.state = .started) :
    ∃ l, rows = l ++ [c] := by
  obtain ⟨l, r, rfl⟩ := append_of_mem hc
  cases r with
  | nil => exact ⟨l, rfl⟩
  | cons b r =>
    have hpair := (pairwise_append.1 h.pairwise).2.1
    exact absurd hs ((pairwise_cons.1 hpair).1 b mem_cons_self).done

theorem id_inj (h : Rows rows) (ha : a ∈ rows) (hb : b ∈ rows) (hab : a.id = b.id) : a = b := by
  have hnd : (rows.map (·.id)).Nodup := by
    rw [h.ids]
    exact nodup_range
  exact inj_on_of_nodup_map hnd ha hb hab

theorem dropLast (h : Rows (l ++ [c])) : Rows l where
  ids := by
    have := congrArg (List.take l.length) h.ids
    simpa [take_range] using this
  chain := (isChain_append.1 h.chain).1
  head a ha := h.head a (by cases l with
    | nil => cases ha
    | cons x l => exact ha)
  wellFormed a ha := h.wellFormed a (mem_append_left _ ha)

/-- Changing the state of the last context keeps the chain: a context is related to its predecessor by
the other columns alone. -/
theorem setLast (h : Rows (l ++ [c])) {s : ContextState}
    (hs : ∀ t, s = .failed (some (.retry t)) → c.attempt ≤ maxModelCallRetriesPerOperation) :
    Rows (l ++ [{ c with state := s }]) where
  ids := by simpa using h.ids
  chain := by
    obtain ⟨hl, -, hlast⟩ := isChain_append.1 h.chain
    refine isChain_append.2 ⟨hl, isChain_singleton _, fun x hx y hy => ?_⟩
    have hxc : Follows x c := hlast x hx c rfl
    cases Option.some.inj hy
    cases hxc with
    | fresh hop hone hlt hdone => exact .fresh hop hone hlt hdone
    | retry t hst hop hf hnext => exact .retry t hst hop hf hnext
    | compact e hn hst hop hf hone => exact .compact e hn hst hop hf hone
    | reduce e e' hc hst hop hlt hf hone => exact .reduce e e' hc hst hop hlt hf hone
  head a ha := by
    cases l with
    | nil =>
      cases Option.some.inj ha
      exact h.head c rfl
    | cons x l => exact h.head a ha
  wellFormed a ha := by
    rcases mem_append.1 ha with ha | ha
    · exact h.wellFormed a (mem_append_left _ ha)
    · cases mem_singleton.1 ha
      have hc := h.wellFormed c (by simp)
      exact ⟨hc.first, hc.bound, hs, hc.source⟩

theorem map_setState (h : Rows (l ++ [c])) (s : ContextState) :
    (l ++ [c]).map (fun a => if a.id = c.id then { a with state := s } else a) =
      l ++ [{ c with state := s }] := by
  rw [map_append, map_singleton, if_pos rfl]
  congr 1
  refine (map_congr_left fun a ha => if_neg fun hid => ?_).trans (map_id l)
  have heq := h.id_inj (mem_append_left _ ha) (by simp) hid
  exact Precedes.irrefl c (heq ▸ (h.leads_last a ha).precedes)

theorem concat (h : Rows rows) (hid : b.id = rows.length)
    (hfst : rows = [] → b.operation = .normal ∧ b.attempt = 1)
    (hlast : ∀ a, rows.getLast? = some a → Follows a b) (hb : b.WellFormed) : Rows (rows ++ [b]) where
  ids := by
    rw [map_append, h.ids, length_append, length_singleton, range_succ, map_singleton, hid]
  chain := isChain_append.2 ⟨h.chain, isChain_singleton _, fun x hx y hy => by
    cases Option.some.inj hy
    exact hlast x hx⟩
  head a ha := by
    cases rows with
    | nil =>
      cases Option.some.inj ha
      exact hfst rfl
    | cons x rows => exact h.head a ha
  wellFormed a ha := by
    rcases mem_append.1 ha with ha | ha
    · exact h.wellFormed a ha
    · exact mem_singleton.1 ha ▸ hb

theorem exists_normal (h : Rows rows) :
    ∀ c ∈ rows, ∃ a ∈ rows, a.operation = .normal ∧ a.frontier = c.frontier := by
  induction rows using List.reverseRecOn with
  | nil => simp
  | append_singleton l b ih =>
    have hl := ih h.dropLast
    have hold : ∀ c ∈ l, ∃ a ∈ l ++ [b], a.operation = .normal ∧ a.frontier = c.frontier := by
      intro c hc
      obtain ⟨a, ha, hop, hf⟩ := hl c hc
      exact ⟨a, mem_append_left _ ha, hop, hf⟩
    intro c hc
    rcases mem_append.1 hc with hc | hc
    · exact hold c hc
    · cases mem_singleton.1 hc
      rcases eq_nil_or_concat l with rfl | ⟨l, x, rfl⟩
      · exact ⟨b, hc, (h.head b rfl).1, rfl⟩
      · have hxb : Follows x b := (isChain_append.1 h.chain).2.2 x (by simp) b rfl
        -- all but a fresh call share the frontier of the context before
        have hsame : b.frontier = x.frontier → ∃ a ∈ l.concat x ++ [b],
            a.operation = .normal ∧ a.frontier = b.frontier := fun hf => hf ▸ hold x (by simp)
        cases hxb with
        | fresh hop _ _ _ => exact ⟨b, by simp, hop, rfl⟩
        | retry _ _ _ hf _ | compact _ _ _ _ hf _ | reduce _ _ _ _ _ _ hf _ => exact hsame hf

/-! ## Attempts -/

theorem key_ne_of_first (h : Rows (l ++ [b])) (hone : b.attempt = 1) : ∀ a ∈ l, a.key ≠ b.key := by
  intro a ha hk
  have hfst := (h.wellFormed a (mem_append_left _ ha)).first
  simp only [key, Prod.mk.injEq] at hk
  rcases (h.leads_last a ha).precedes with hlt | ⟨-, hop | ⟨-, hlt⟩⟩
  · omega
  · exact not_before_self _ (hk.1 ▸ hop)
  · omega

theorem grown (h : Rows rows) : Attempts.Grown key attempt rows := by
  induction rows using List.reverseRecOn with
  | nil => exact .nil
  | append_singleton l b ih =>
    have hl := ih h.dropLast
    rcases eq_nil_or_concat l with rfl | ⟨l, a, rfl⟩
    · exact .first hl (by simp) (h.head b rfl).2
    · rw [concat_eq_append] at h hl ⊢
      have hab : Follows a b := (isChain_append.1 h.chain).2.2 a (by simp) b rfl
      cases hab with
      | fresh _ hone _ _ | compact _ _ _ _ _ hone | reduce _ _ _ _ _ _ _ hone =>
        exact .first hl (h.key_ne_of_first hone) hone
      | retry _ _ hop hf hnext => exact .again hl (by simp [key, hop, hf]) hnext

end Rows

end ModelCallContext

end Store
