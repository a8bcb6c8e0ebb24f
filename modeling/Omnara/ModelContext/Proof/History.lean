import Mathlib.Data.List.Forall2
import Mathlib.Data.List.Nodup
import Mathlib.Data.List.Perm.Subperm
import Mathlib.Tactic.Common
import Omnara.ModelContext.History

/-!
# What a canonical history is

`Assembled` says declaratively how the blocks of one assistant message and the results of its model
call are paired; `HistoryOf` says it for a whole bundle. Both are exact: `canonicalAssistantContent`
succeeds with a value iff `Assembled` (`canonicalAssistantContent_ok_iff`), and `canonicalHistory`
iff `HistoryOf` (`canonicalHistory_ok_iff`), so everything else is an error. That every tool result
occurs exactly once in the history (`HistoryOf.perm`, `HistoryOf.nodup`) follows from the
declarative side.
-/

namespace ModelContext

open List

open Json (Bytes ascii)

variable {own : List HistoryEntry} {blocks : List Bytes} {e : HistoryEntry} {m : Message}

/-! ## One assistant message -/

def AssistantContentEntry.result? : AssistantContentEntry → Option ToolResultRef
  | .block _ => none
  | .toolCall r => some r

/-- A block and its entry: the block itself if it is no tool call, else the result it refers to. -/
def PairedWith (results : List ToolResultRef) (block : Bytes) (entry : AssistantContentEntry) :
    Prop :=
  (blockLink 0 block = .ok none ∧ entry = .block block) ∨
    ∃ r ∈ results, blockLink 0 block = .ok (some r.toolCallId) ∧ entry = .toolCall r

/-- The assistant content of a message: its blocks in order, every tool call with its result, every
result used once. -/
structure Assembled (raw : Bytes) (results : List ToolResultRef)
    (content : List AssistantContentEntry) (ordered : List ToolResultRef) : Prop where
  paired : ∃ blocks, Json.unmarshalRawArray raw = some (some blocks) ∧
    List.Forall₂ (PairedWith results) blocks content
  ordered_eq : ordered = content.filterMap (·.result?)
  perm : ordered.Perm results
  callIds : ∀ r ∈ results, r.toolCallId ≠ []
  nodup : (results.map (·.toolCallId)).Nodup

variable {results : List ToolResultRef} {content : List AssistantContentEntry}

theorem blockLink_ok_iff (i j : Nat) (block : Bytes) (link : Option Bytes) :
    blockLink i block = .ok link ↔ blockLink j block = .ok link := by
  unfold blockLink
  split
  · simp
  · split
    · rfl
    · split <;> simp

theorem checkResultIds_ok_iff {seen : List Bytes} :
    checkResultIds seen results = .ok () ↔ (∀ r ∈ results, r.toolCallId ≠ []) ∧
      (results.map (·.toolCallId)).Nodup ∧ ∀ r ∈ results, r.toolCallId ∉ seen := by
  induction results generalizing seen with
  | nil => simp [checkResultIds]
  | cons r results ih =>
    rw [checkResultIds]
    split
    · rename_i h
      simp [h]
    split
    · rename_i h
      simp [h]
    · rename_i h1 h2
      rw [ih]
      rw [forall_mem_cons, forall_mem_cons, map_cons, nodup_cons]
      simp only [mem_map, mem_cons, not_or, not_exists, not_and]
      constructor
      · rintro ⟨h3, h4, h5⟩
        exact ⟨⟨h1, h3⟩, ⟨fun x hx => (h5 x hx).1, h4⟩, h2, fun x hx => (h5 x hx).2⟩
      · rintro ⟨⟨-, h3⟩, ⟨h4, h5⟩, -, h6⟩
        exact ⟨h3, h5, fun x hx => ⟨h4 x hx, h6 x hx⟩⟩

theorem findIdx?_spec {callId : Bytes} {i : Nat}
    (h : results.findIdx? (·.toolCallId = callId) = some i) :
    ∃ r, results[i]? = some r ∧ r.toolCallId = callId := by
  obtain ⟨hi, hp, -⟩ := List.findIdx?_eq_some_iff_getElem.mp h
  exact ⟨results[i], List.getElem?_eq_getElem hi, by simpa using hp⟩

theorem findIdx?_of_mem
    (hnd : (results.map (·.toolCallId)).Nodup) {r : ToolResultRef} (hr : r ∈ results) :
    ∃ i, results.findIdx? (·.toolCallId = r.toolCallId) = some i ∧ results[i]? = some r := by
  cases hfind : results.findIdx? (·.toolCallId = r.toolCallId) with
  | none =>
    rw [List.findIdx?_eq_none_iff] at hfind
    simpa using hfind r hr
  | some i =>
    obtain ⟨r', hi, hid⟩ := findIdx?_spec hfind
    have hr' : r' ∈ results := mem_of_getElem? hi
    exact ⟨i, rfl, by rw [hi, inj_on_of_nodup_map hnd hr' hr hid]⟩

theorem PairedWith.results_mem (h : List.Forall₂ (PairedWith results) blocks content) :
    ∀ r ∈ content.filterMap (·.result?), r ∈ results := by
  induction h with
  | nil => simp
  | cons hp _ ih =>
    rcases hp with ⟨-, rfl⟩ | ⟨r, hr, -, rfl⟩
    · exact ih
    · exact forall_mem_cons.mpr ⟨hr, ih⟩

/-- What the block loop returns: paired entries, whose results are distinct, not used before, and
together with the used ones as many as there are results. -/
theorem assembleBlocks_sound :
    ∀ {blocks : List Bytes} {index : Nat} {used : List Nat}
      {content : List AssistantContentEntry} {ordered : List ToolResultRef},
      assembleBlocks results index used blocks = .ok (content, ordered) →
      List.Forall₂ (PairedWith results) blocks content ∧
        ordered = content.filterMap (·.result?) ∧ ordered.Nodup ∧ (∀ r ∈ ordered, r ∈ results) ∧
        (∀ r ∈ ordered, ∀ i, results.findIdx? (·.toolCallId = r.toolCallId) = some i → i ∉ used) ∧
        used.length + ordered.length = results.length
  | [], index, used, content, ordered, h => by
    rw [assembleBlocks] at h
    split at h
    · cases h
    · rename_i hlen
      cases h
      exact ⟨.nil, rfl, nodup_nil, by simp, by simp, by simpa using hlen⟩
  | block :: blocks, index, used, content, ordered, h => by
    rw [assembleBlocks] at h
    split at h
    · cases h
    · rename_i hlink
      split at h
      · cases h
      rename_i content' ordered' hrest
      cases h
      obtain ⟨h1, h2, h3⟩ := assembleBlocks_sound hrest
      exact ⟨.cons (.inl ⟨(blockLink_ok_iff _ _ _ _).mp hlink, rfl⟩) h1, h2, h3⟩
    · rename_i callId hlink
      split at h
      · cases h
      rename_i i hfind
      split at h
      · cases h
      rename_i hused
      obtain ⟨r, hri, hid⟩ := findIdx?_spec hfind
      rw [hri] at h
      dsimp only at h
      split at h
      · cases h
      rename_i content' ordered' hrest
      cases h
      subst hid
      obtain ⟨h1, h2, h3, h4, h5, h6⟩ := assembleBlocks_sound hrest
      have hr : r ∈ results := mem_of_getElem? hri
      refine ⟨.cons (.inr ⟨r, hr, (blockLink_ok_iff _ _ _ _).mp hlink, rfl⟩) h1, ?_, ?_,
        forall_mem_cons.mpr ⟨hr, h4⟩, ?_, ?_⟩
      · rw [filterMap_cons, h2]; rfl
      · refine nodup_cons.mpr ⟨fun hmem => ?_, h3⟩
        exact h5 r hmem i hfind mem_cons_self
      · refine forall_mem_cons.mpr ⟨fun j hj => ?_, fun x hx j hj => ?_⟩
        · rw [hfind] at hj
          cases hj
          exact hused
        · exact fun hmem => h5 x hx j hj (mem_cons_of_mem _ hmem)
      · simp only [length_cons] at h6 ⊢
        omega

/-- Conversely, paired entries with distinct, unused results are what the block loop returns. -/
theorem assembleBlocks_complete (hnd : (results.map (·.toolCallId)).Nodup)
    (hpair : List.Forall₂ (PairedWith results) blocks content) :
    ∀ (index : Nat) (used : List Nat), (content.filterMap (·.result?)).Nodup →
      (∀ r ∈ content.filterMap (·.result?), ∀ i,
        results.findIdx? (·.toolCallId = r.toolCallId) = some i → i ∉ used) →
      used.length + (content.filterMap (·.result?)).length = results.length →
      assembleBlocks results index used blocks = .ok (content, content.filterMap (·.result?)) := by
  induction hpair with
  | nil =>
    intro index used _ _ hlen
    rw [assembleBlocks, if_neg (by simpa using hlen)]
    rfl
  | @cons block entry blocks content hp hps ih =>
    intro index used hnodup hunused hlen
    rw [assembleBlocks]
    rcases hp with ⟨hlink, rfl⟩ | ⟨r, hr, hlink, rfl⟩
    · rw [(blockLink_ok_iff index 0 _ _).mpr hlink]
      rw [ih (index + 1) used hnodup hunused hlen]
      rfl
    · rw [(blockLink_ok_iff index 0 _ _).mpr hlink]
      obtain ⟨i, hfind, hri⟩ := findIdx?_of_mem hnd hr
      have hres : (AssistantContentEntry.toolCall r :: content).filterMap (·.result?) =
          r :: content.filterMap (·.result?) := rfl
      rw [hres] at hnodup hunused hlen ⊢
      obtain ⟨hnot, hnodup⟩ := nodup_cons.mp hnodup
      have hi : i ∉ used := hunused r mem_cons_self i hfind
      dsimp only
      rw [hfind]
      dsimp only
      rw [if_neg hi, hri]
      rw [ih (index + 1) (i :: used) hnodup (fun x hx j hj => ?_)
        (by simp only [length_cons] at hlen ⊢; omega)]
      rintro hmem
      rcases mem_cons.mp hmem with rfl | hmem
      · -- the same index belongs to the same result
        obtain ⟨x', hx', hid⟩ := findIdx?_spec hj
        rw [hri] at hx'
        cases hx'
        have hxr : x ∈ results := PairedWith.results_mem hps x hx
        exact hnot (inj_on_of_nodup_map hnd hr hxr hid ▸ hx)
      · exact hunused x (mem_cons_of_mem _ hx) j hj hmem

/-- **Exactly the assembled contents** are returned for an assistant message. -/
theorem canonicalAssistantContent_ok_iff {raw : Bytes} {ordered : List ToolResultRef} :
    canonicalAssistantContent raw results = .ok (content, ordered) ↔
      Assembled raw results content ordered := by
  unfold canonicalAssistantContent
  constructor
  · intro h
    split at h
    · cases h
    · cases h
    rename_i blocks hraw
    split at h
    · cases h
    rename_i hids
    obtain ⟨hne, hnd, -⟩ := checkResultIds_ok_iff.mp hids
    obtain ⟨hpair, hord, hnodup, hsub, -, hlen⟩ := assembleBlocks_sound h
    -- distinct results, as many as there are, are all of them
    have hperm : ordered.Perm results :=
      (subperm_of_subset hnodup hsub).perm_of_length_le (by simp at hlen; omega)
    exact ⟨⟨blocks, hraw, hpair⟩, hord, hperm, hne, hnd⟩
  · rintro ⟨⟨blocks, hraw, hpair⟩, rfl, hperm, hne, hnd⟩
    have hids : checkResultIds [] results = .ok () := checkResultIds_ok_iff.mpr ⟨hne, hnd, by simp⟩
    have hnodup : (content.filterMap (·.result?)).Nodup := hperm.nodup_iff.mpr hnd.of_map
    rw [hraw]
    rw [hids]
    exact assembleBlocks_complete hnd hpair 0 [] hnodup (by simp) (by simp [hperm.length_eq])

/-! ## A whole bundle -/

/-- The entry of one message: an assistant message has the content assembled from the results of its
own model call, any other message has no results. -/
structure EntryOf (results : List ToolResultRef) (m : Message) (e : HistoryEntry) : Prop where
  message : e.message = m
  sequence : e.sequence = m.sequence
  assistant : m.role = .assistant →
    Assembled m.content (results.filter (·.modelCallContextId = m.modelCallContextId))
      e.assistantContent e.toolResults
  plain : m.role ≠ .assistant → e.assistantContent = [] ∧ e.toolResults = [] ∧
    results.filter (·.modelCallContextId = m.modelCallContextId) = []

/-- The history of the messages over the results: one entry a message in message order, each
followed by its notice if its output was cut off. -/
structure HistoryOf (results : List ToolResultRef) (messages : List Message)
    (entries : List HistoryEntry) : Prop where
  positive : ∀ m ∈ messages, 0 < m.sequence
  valid : ∀ m ∈ messages, validateMessageContentBlocks m.role m.content = .ok ()
  distinct : messages.Pairwise fun m m' =>
    m.modelCallContextId ≠ [] → m.modelCallContextId ≠ m'.modelCallContextId
  owned : ∀ r ∈ results, ∃ m ∈ messages,
    m.role = .assistant ∧ m.modelCallContextId = r.modelCallContextId
  entries_eq : ∃ own, List.Forall₂ (EntryOf results) messages own ∧
    entries = own.flatMap withNotice

theorem EntryOf.perm (h : EntryOf results m e) :
    e.toolResults.Perm (results.filter (·.modelCallContextId = m.modelCallContextId)) := by
  by_cases hrole : m.role = .assistant
  · exact (h.assistant hrole).perm
  · obtain ⟨-, h1, h2⟩ := h.plain hrole
    rw [h1, h2]

section Step

variable {results : List ToolResultRef} (hctx : ∀ r ∈ results, r.modelCallContextId ≠ [])

include hctx

variable {c : Bytes}

/-- Removing the results of one call leaves those of another as they are; the empty context has no
results. -/
theorem filter_rest {c' : Bytes} (hc : c ≠ [] → c ≠ c') :
    (results.filter (·.modelCallContextId ≠ c)).filter (·.modelCallContextId = c') =
      results.filter (·.modelCallContextId = c') := by
  rw [filter_filter]
  apply filter_congr
  intro r hr
  have hne := hctx r hr
  by_cases h : r.modelCallContextId = c'
  · subst h
    by_cases h0 : c = []
    · simp [h0, hne]
    · simp [(hc h0).symm]
  · simp [h]

theorem entryOf_rest_iff (hc : c ≠ [] → c ≠ m.modelCallContextId) :
    EntryOf (results.filter (·.modelCallContextId ≠ c)) m e ↔ EntryOf results m e := by
  constructor
  · rintro ⟨h1, h2, h3, h4⟩
    rw [filter_rest hctx hc] at h3 h4
    exact ⟨h1, h2, h3, h4⟩
  · rintro ⟨h1, h2, h3, h4⟩
    rw [← filter_rest hctx hc] at h3 h4
    exact ⟨h1, h2, h3, h4⟩

theorem forall₂_entryOf_iff {messages : List Message}
    (hc : ∀ m ∈ messages, c ≠ [] → c ≠ m.modelCallContextId) :
    List.Forall₂ (EntryOf (results.filter (·.modelCallContextId ≠ c))) messages own ↔
      List.Forall₂ (EntryOf results) messages own := by
  induction messages generalizing own with
  | nil => simp
  | cons m messages ih =>
    obtain ⟨hm, hms⟩ := forall_mem_cons.mp hc
    simp only [List.forall₂_cons_left_iff, ih hms, entryOf_rest_iff hctx hm]

/-- A history, one message at a time: the rest is the history over the results of the other
calls. -/
theorem historyOf_cons_iff {messages : List Message} {entries : List HistoryEntry} :
    HistoryOf results (m :: messages) entries ↔
      0 < m.sequence ∧ validateMessageContentBlocks m.role m.content = .ok () ∧
      (∀ m' ∈ messages, m.modelCallContextId ≠ [] → m.modelCallContextId ≠ m'.modelCallContextId) ∧
      ∃ e es, EntryOf results m e ∧
        HistoryOf (results.filter (·.modelCallContextId ≠ m.modelCallContextId)) messages es ∧
        entries = withNotice e ++ es := by
  constructor
  · rintro ⟨hpos, hval, hdist, hown, own, hents, rfl⟩
    obtain ⟨hpos, hpos'⟩ := forall_mem_cons.mp hpos
    obtain ⟨hval, hval'⟩ := forall_mem_cons.mp hval
    obtain ⟨hdist, hdist'⟩ := pairwise_cons.mp hdist
    obtain _ | @⟨_, e, _, own, he, hes⟩ := hents
    refine ⟨hpos, hval, hdist, e, own.flatMap withNotice, he,
      ⟨hpos', hval', hdist', fun r hr => ?_, own, ?_, rfl⟩, flatMap_cons⟩
    · -- a result of another call is not owned by `m`
      obtain ⟨hr, hne⟩ := mem_filter.mp hr
      obtain ⟨m', hm', hrole, heq⟩ := hown r hr
      rcases mem_cons.mp hm' with rfl | hm'
      · simp [heq] at hne
      · exact ⟨m', hm', hrole, heq⟩
    · exact (forall₂_entryOf_iff hctx hdist).mpr hes
  · rintro ⟨hpos, hval, hdist, e, es, he, ⟨hpos', hval', hdist', hown, own, hes, rfl⟩, rfl⟩
    refine ⟨forall_mem_cons.mpr ⟨hpos, hpos'⟩, forall_mem_cons.mpr ⟨hval, hval'⟩,
      pairwise_cons.mpr ⟨hdist, hdist'⟩, fun r hr => ?_, e :: own,
      .cons he ((forall₂_entryOf_iff hctx hdist).mp hes), flatMap_cons.symm⟩
    by_cases hc : r.modelCallContextId = m.modelCallContextId
    · have hmem : r ∈ results.filter (·.modelCallContextId = m.modelCallContextId) :=
        mem_filter.mpr ⟨hr, by simpa using hc⟩
      refine ⟨m, mem_cons_self, ?_, hc.symm⟩
      by_contra hrole
      rw [(he.plain hrole).2.2] at hmem
      cases hmem
    · obtain ⟨m', hm', h⟩ := hown r (mem_filter.mpr ⟨hr, by simpa using hc⟩)
      exact ⟨m', mem_cons_of_mem _ hm', h⟩

end Step

private def seenAfter (seen : List Bytes) (m : Message) : List Bytes :=
  if m.modelCallContextId ≠ [] then m.modelCallContextId :: seen else seen

variable {seen : List Bytes} {m : Message} {results : List ToolResultRef} {messages : List Message}
  {entries : List HistoryEntry}

private theorem mem_seenAfter {c : Bytes} (hc : c ≠ []) :
    c ∈ seenAfter seen m ↔ m.modelCallContextId = c ∨ c ∈ seen := by
  unfold seenAfter
  split
  · rw [mem_cons, eq_comm]
  · rename_i h
    have h0 : m.modelCallContextId = [] := by simpa using h
    simp [h0, hc.symm]

theorem historyLoop_cons_ok_iff :
    historyLoop seen results (m :: messages) = .ok entries ↔
      0 < m.sequence ∧ validateMessageContentBlocks m.role m.content = .ok () ∧
      (m.modelCallContextId ≠ [] → m.modelCallContextId ∉ seen) ∧
      ∃ e es, EntryOf results m e ∧ historyLoop (seenAfter seen m)
          (results.filter (·.modelCallContextId ≠ m.modelCallContextId)) messages = .ok es ∧
        entries = withNotice e ++ es := by
  rw [historyLoop]
  by_cases hpos : m.sequence ≤ 0
  · rw [if_pos hpos]
    simp [Int.not_lt.mpr hpos]
  rw [if_neg hpos]
  cases hval : validateMessageContentBlocks m.role m.content with
  | error err => simp
  | ok u =>
  dsimp only
  by_cases hseen : m.modelCallContextId ≠ [] ∧ m.modelCallContextId ∈ seen
  · simp [hseen.1, hseen.2]
  rw [if_neg hseen, and_iff_right (Int.not_le.mp hpos), and_iff_right rfl,
    and_iff_right (not_and.mp hseen), ← seenAfter]
  by_cases hrole : m.role = .assistant
  · rw [if_neg (by simpa using hrole)]
    constructor
    · intro h
      split at h
      · cases h
      rename_i content ordered hcont
      split at h
      · cases h
      rename_i es hloop
      cases h
      exact ⟨_, es, ⟨rfl, rfl, fun _ => canonicalAssistantContent_ok_iff.mp hcont,
        fun h => absurd hrole h⟩, hloop, rfl⟩
    · rintro ⟨⟨sequence, message, content, ordered⟩, es, ⟨hmsg, hseq, hass, -⟩, hloop, rfl⟩
      dsimp only at hmsg hseq hass
      subst hmsg hseq
      rw [canonicalAssistantContent_ok_iff.mpr (hass hrole)]
      rw [hloop]
  · rw [if_pos hrole]
    have hnotice : withNotice { sequence := m.sequence, message := m } =
        [{ sequence := m.sequence, message := m }] := if_neg fun h => hrole h.1
    by_cases hres : results.filter (·.modelCallContextId = m.modelCallContextId) = []
    · -- no result of this call is left, so nothing is removed
      have hrest : results.filter (·.modelCallContextId ≠ m.modelCallContextId) = results := by
        rw [filter_eq_self]
        intro r hr
        simpa using filter_eq_nil_iff.mp hres r hr
      rw [if_neg (by simp [hres]), hrest]
      constructor
      · intro h
        split at h
        · cases h
        rename_i es hloop
        cases h
        exact ⟨_, es, ⟨rfl, rfl, fun h => absurd h hrole, fun _ => ⟨rfl, rfl, hres⟩⟩, hloop,
          by rw [hnotice]; rfl⟩
      · rintro ⟨⟨sequence, message, content, ordered⟩, es, ⟨hmsg, hseq, -, hpl⟩, hloop, rfl⟩
        dsimp only at hmsg hseq hpl
        subst hmsg hseq
        obtain ⟨rfl, rfl, -⟩ := hpl hrole
        rw [hloop, hnotice]
        rfl
    · rw [if_pos (by simpa using hres)]
      simp only [reduceCtorEq, false_iff, not_exists]
      rintro e es ⟨he, -⟩
      exact hres (he.plain hrole).2.2

theorem historyLoop_ok_iff (hctx : ∀ r ∈ results, r.modelCallContextId ≠ []) :
    historyLoop seen results messages = .ok entries ↔ HistoryOf results messages entries ∧
      ∀ m ∈ messages, m.modelCallContextId ≠ [] → m.modelCallContextId ∉ seen := by
  induction messages generalizing seen results entries with
  | nil =>
    rw [historyLoop]
    constructor
    · intro h
      split at h
      · cases h
      rename_i hlen
      cases h
      have hnil : results = [] := by simpa using hlen
      subst hnil
      exact ⟨⟨by simp, by simp, .nil, by simp, [], .nil, rfl⟩, by simp⟩
    · rintro ⟨⟨-, -, -, hown, own, hes, rfl⟩, -⟩
      cases hes
      have hnil : results = [] := eq_nil_iff_forall_not_mem.mpr fun r hr => by
        obtain ⟨m, hm, -⟩ := hown r hr
        cases hm
      simp [hnil]
  | cons m messages ih =>
    have hctx' : ∀ r ∈ results.filter (·.modelCallContextId ≠ m.modelCallContextId),
        r.modelCallContextId ≠ [] := fun r hr => hctx r (mem_filter.mp hr).1
    rw [historyLoop_cons_ok_iff, historyOf_cons_iff hctx, forall_mem_cons]
    constructor
    · rintro ⟨hpos, hval, hm, e, es, he, hloop, rfl⟩
      obtain ⟨hrest, hseen⟩ := (ih hctx').mp hloop
      refine ⟨⟨hpos, hval, fun m' hm' hne heq => ?_, e, es, he, hrest, rfl⟩, hm,
        fun m' hm' hne hmem => ?_⟩
      · exact hseen m' hm' (heq ▸ hne) ((mem_seenAfter (heq ▸ hne)).mpr (.inl heq))
      · exact hseen m' hm' hne ((mem_seenAfter hne).mpr (.inr hmem))
    · rintro ⟨⟨hpos, hval, hdist, e, es, he, hrest, rfl⟩, hm, hseen⟩
      refine ⟨hpos, hval, hm, e, es, he, (ih hctx').mpr ⟨hrest, fun m' hm' hne hmem => ?_⟩, rfl⟩
      rcases (mem_seenAfter hne).mp hmem with heq | hmem
      · exact hdist m' hm' (heq ▸ hne) heq
      · exact hseen m' hm' hne hmem

theorem canonicalHistory_ok_iff {bundle : Bundle} :
    canonicalHistory bundle = .ok entries ↔ (∀ r ∈ bundle.toolResults, r.modelCallContextId ≠ []) ∧
        HistoryOf bundle.toolResults bundle.messages entries := by
  unfold canonicalHistory
  split
  · rename_i h
    obtain ⟨r, hr, hnil⟩ := any_eq_true.mp h
    simp only [reduceCtorEq, false_iff, not_and]
    exact fun hctx => absurd (by simpa using hnil) (hctx r hr)
  · rename_i h
    have hctx : ∀ r ∈ bundle.toolResults, r.modelCallContextId ≠ [] := by simpa using h
    rw [historyLoop_ok_iff hctx, and_iff_right hctx, and_iff_left (by simp)]

/-! ## Entries -/

theorem blockLink_valid {index : Nat} {block : Bytes} {link : Option Bytes}
    (h : blockLink index block = .ok link) : Json.checkValid block := by
  by_contra hvalid
  have hnone : decodeStringField block "type" = none := by
    rw [decodeStringField, Json.unmarshalRawObject, if_pos (by simpa using hvalid)]
  rw [blockLink, hnone] at h
  cases h

theorem PairedWith.valid {content : List AssistantContentEntry}
    (h : List.Forall₂ (PairedWith results) blocks content) :
    ∀ raw, .block raw ∈ content → Json.checkValid raw := by
  induction h with
  | nil => nofun
  | cons hp _ ih =>
    intro raw hraw
    rcases mem_cons.mp hraw with rfl | hraw
    · rcases hp with ⟨hlink, hent⟩ | ⟨r, -, -, hent⟩
      · cases hent
        exact blockLink_valid hlink
      · cases hent
    · exact ih raw hraw

/-- An entry of a history: the message it comes from, if it is no notice, and its role; its results are
those of its content, whose other blocks are JSON. -/
structure EntryIn (messages : List Message) (entry : HistoryEntry) : Prop where
  message : entry.message ∈ messages ∨ entry.message.providerReplay = []
  role : entry.message.role = .assistant ∨ entry.message.role = .user ∧ entry.assistantContent = []
  results : entry.toolResults = entry.assistantContent.filterMap (·.result?)
  valid : ∀ raw, .block raw ∈ entry.assistantContent → Json.checkValid raw

theorem role_of_valid (h : validateMessageContentBlocks m.role m.content = .ok ())
    (hrole : m.role ≠ .assistant) : m.role = .user := by
  cases hcase : m.role with
  | assistant => exact absurd hcase hrole
  | user => rfl
  | other name =>
    rw [hcase] at h
    cases h

theorem EntryOf.entryIn (h : EntryOf results m e) (hm : m ∈ messages)
    (hvalid : validateMessageContentBlocks m.role m.content = .ok ()) : EntryIn messages e := by
  by_cases hrole : m.role = .assistant
  · obtain ⟨blocks, -, hpaired⟩ := (h.assistant hrole).paired
    exact ⟨.inl (h.message ▸ hm), .inl (h.message ▸ hrole), (h.assistant hrole).ordered_eq,
      PairedWith.valid hpaired⟩
  · obtain ⟨hcont, hresults, -⟩ := h.plain hrole
    refine ⟨.inl (h.message ▸ hm), .inr ⟨h.message ▸ role_of_valid hvalid hrole, hcont⟩, ?_, ?_⟩
    · rw [hcont, hresults]
      rfl
    · rw [hcont]
      nofun

theorem forall₂_entryIn {all : List Message} (h : List.Forall₂ (EntryOf results) messages own)
    (hsub : ∀ m ∈ messages, m ∈ all)
    (hvalid : ∀ m ∈ messages, validateMessageContentBlocks m.role m.content = .ok ()) :
    ∀ e ∈ own, EntryIn all e := by
  induction h with
  | nil => nofun
  | cons he _ ih =>
    obtain ⟨hm, hms⟩ := forall_mem_cons.mp hsub
    obtain ⟨hv, hvs⟩ := forall_mem_cons.mp hvalid
    exact forall_mem_cons.mpr ⟨he.entryIn hm hv, ih hms hvs⟩

theorem HistoryOf.entryIn (h : HistoryOf results messages entries) :
    ∀ entry ∈ entries, EntryIn messages entry := by
  obtain ⟨own, hown, rfl⟩ := h.entries_eq
  intro entry hent
  obtain ⟨e, he, hent⟩ := mem_flatMap.mp hent
  have hin : EntryIn messages e := forall₂_entryIn hown (fun _ hm => hm) h.valid e he
  unfold withNotice at hent
  split at hent
  · rcases mem_pair.mp hent with rfl | rfl
    · exact hin
    · exact ⟨.inr rfl, .inr ⟨rfl, rfl⟩, rfl, nofun⟩
  · obtain rfl := mem_singleton.mp hent
    exact hin

/-! ## Every result once -/

theorem withNotice_results (e : HistoryEntry) :
    (withNotice e).flatMap (·.toolResults) = e.toolResults := by
  unfold withNotice
  split <;> simp [noticeEntry]

theorem flatMap_withNotice (h : List.Forall₂ (EntryOf results) messages own) :
    own.flatMap withNotice = own.flatMap fun e => e ::
      if e.message.role = .assistant ∧ e.message.stopReason = .maxTokens ∧ e.toolResults = []
      then [noticeEntry e.sequence] else [] := by
  induction h with
  | nil => rfl
  | @cons m e _ _ he _ ih =>
    have hseq : e.message.sequence = e.sequence := by rw [he.message, he.sequence]
    rw [flatMap_cons, flatMap_cons, ih, withNotice, hseq]
    simp only [length_eq_zero_iff]
    split <;> rfl

/-- The results of a history are the results of the bundle, rearranged. -/
theorem HistoryOf.perm (hctx : ∀ r ∈ results, r.modelCallContextId ≠ [])
    (h : HistoryOf results messages entries) :
    (entries.flatMap (·.toolResults)).Perm results := by
  induction messages generalizing results entries with
  | nil =>
    obtain ⟨own, hes, rfl⟩ := h.entries_eq
    cases hes
    have hnil : results = [] := eq_nil_iff_forall_not_mem.mpr fun r hr => by
      obtain ⟨m, hm, -⟩ := h.owned r hr
      cases hm
    rw [hnil]
    rfl
  | cons m messages ih =>
    obtain ⟨-, -, -, e, es, he, hrest, rfl⟩ := (historyOf_cons_iff hctx).mp h
    have htail := ih (fun r hr => hctx r (mem_filter.mp hr).1) hrest
    rw [flatMap_append, withNotice_results]
    refine (he.perm.append htail).trans ?_
    simpa using filter_append_perm
      (fun r : ToolResultRef => decide (r.modelCallContextId = m.modelCallContextId)) results

/-- The call ids of one call are distinct, so no result of the bundle is repeated. -/
theorem HistoryOf.nodup (hctx : ∀ r ∈ results, r.modelCallContextId ≠ [])
    (h : HistoryOf results messages entries) : results.Nodup := by
  induction messages generalizing results entries with
  | nil =>
    refine nodup_iff_count_le_one.mpr fun r => ?_
    rw [count_eq_zero.mpr fun hr => by obtain ⟨m, hm, -⟩ := h.owned r hr; cases hm]
    exact Nat.zero_le 1
  | cons m messages ih =>
    obtain ⟨-, -, -, e, es, he, hrest, rfl⟩ := (historyOf_cons_iff hctx).mp h
    have hrest := ih (fun r hr => hctx r (mem_filter.mp hr).1) hrest
    have hown : (results.filter (·.modelCallContextId = m.modelCallContextId)).Nodup := by
      by_cases hrole : m.role = .assistant
      · exact (he.assistant hrole).nodup.of_map
      · rw [(he.plain hrole).2.2]
        exact nodup_nil
    have hperm := filter_append_perm
      (fun r : ToolResultRef => decide (r.modelCallContextId = m.modelCallContextId)) results
    refine hperm.nodup_iff.mp (List.Nodup.append hown (by simpa using hrest) fun r hr hr' => ?_)
    simp_all

/-- **Results and tool-call blocks in bijection.** A history is returned exactly for the bundles that
have one; it has one entry a message in message order, with the results of its own call paired with
its blocks, a notice exactly after each cut-off output without results, and every result once. Every
other bundle is an error. -/
theorem canonicalHistory_bijection (bundle : Bundle) :
    (∀ entries, canonicalHistory bundle = .ok entries →
      (∃ own, List.Forall₂ (EntryOf bundle.toolResults) bundle.messages own ∧
        entries = own.flatMap fun e => e ::
          if e.message.role = .assistant ∧ e.message.stopReason = .maxTokens ∧ e.toolResults = []
          then [noticeEntry e.sequence] else []) ∧
      (entries.flatMap (·.toolResults)).Perm bundle.toolResults ∧
      ∀ r ∈ bundle.toolResults, (entries.flatMap (·.toolResults)).count r = 1) ∧
    (∀ entries, canonicalHistory bundle = .ok entries ↔
      (∀ r ∈ bundle.toolResults, r.modelCallContextId ≠ []) ∧
        HistoryOf bundle.toolResults bundle.messages entries) ∧
    ((¬ ∃ entries, (∀ r ∈ bundle.toolResults, r.modelCallContextId ≠ []) ∧
        HistoryOf bundle.toolResults bundle.messages entries) →
      ∃ err, canonicalHistory bundle = .error err) := by
  refine ⟨fun entries h => ?_, fun entries => canonicalHistory_ok_iff, fun hno => ?_⟩
  · obtain ⟨hctx, hist⟩ := canonicalHistory_ok_iff.mp h
    obtain ⟨own, hown, rfl⟩ := hist.entries_eq
    refine ⟨⟨own, hown, ?_⟩, hist.perm hctx, fun r hr => ?_⟩
    · exact flatMap_withNotice hown
    · rw [(hist.perm hctx).count_eq]
      exact count_eq_one_of_mem (hist.nodup hctx) hr
  · cases h : canonicalHistory bundle with
    | error err => exact ⟨err, rfl⟩
    | ok entries => exact absurd ⟨entries, canonicalHistory_ok_iff.mp h⟩ hno

/-- A question, an output that calls two tools (results stored in the other order), and an output
cut off at its limit. -/
def twoCallBundle : Bundle where
  messages := [
    { id := ascii "q", role := .user, sequence := 1,
      content := ascii "[\x7b\"type\":\"text\",\"text\":\"hi\"\x7d]" },
    { id := ascii "a", modelCallContextId := ascii "m1", role := .assistant, sequence := 2,
      content := ascii ("[\x7b\"type\":\"tool_call\",\"tool_call_id\":\"x\"\x7d," ++
        "\x7b\"type\":\"tool_call\",\"tool_call_id\":\"y\"\x7d]"),
      stopReason := .toolUse },
    { id := ascii "b", modelCallContextId := ascii "m2", role := .assistant, sequence := 5,
      content := ascii "[]", stopReason := .maxTokens }]
  toolResults := [ascii "y", ascii "x"].map fun id =>
    { toolCallId := id, durableId := [], modelCallContextId := ascii "m1", name := [], input := [],
      contentParts := [] }

theorem canonicalHistory_bijection_twoCall :
    ∃ entries, canonicalHistory twoCallBundle = .ok entries ∧ entries.length = 4 ∧
      (entries.flatMap (·.toolResults)).Perm twoCallBundle.toolResults ∧
      (entries.flatMap (·.toolResults)).map (·.toolCallId) = [ascii "x", ascii "y"] := by
  have hrun : (canonicalHistory twoCallBundle).toOption.map (fun entries => (entries.length,
      (entries.flatMap (·.toolResults)).map (·.toolCallId))) = some (4, [ascii "x", ascii "y"]) := by
    decide +kernel
  cases h : canonicalHistory twoCallBundle with
  | error err => simp [h, Except.toOption] at hrun
  | ok entries =>
    rw [h] at hrun
    obtain ⟨hlen, hids⟩ := Prod.mk.inj (Option.some.inj hrun)
    exact ⟨entries, rfl, hlen, ((canonicalHistory_bijection twoCallBundle).1 entries h).2.1, hids⟩

end ModelContext
