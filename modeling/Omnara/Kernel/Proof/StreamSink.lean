import Mathlib.Data.List.Sort
import Omnara.Lib.Window
import Omnara.Kernel.StreamSink

/-!
# An accepted preview is a prefix of the source events

`Covers sources envelope`: the envelope holds `coalescedCount` of the source events from
`sourceSeqStart` to `sourceSeqEnd`, in order, merged into one event. Every envelope of a reachable sink
covers its source events (`SinkInv`, kept by `emit_inv` and `consume_inv`). The check of the client
admits only envelopes that hold all events of their range (`Covers.exact`), in ranges laid end to end,
so the accepted frames hold the first source events, each once and in order (`frameRun_groups`).
-/

namespace Kernel

open Json (Bytes)
open Model List

/-! ## Merged events -/

/-- `event` is the events of `group`, all deltas of one block unless there is only one, in one. -/
structure Merged (group : List StreamEvent) (event : StreamEvent) : Prop where
  split : ∃ first rest, group = first :: rest ∧
    event = { first with delta := first.delta ++ rest.flatMap (·.delta) } ∧
    (∀ e ∈ rest, e.kind = first.kind ∧ e.blockIndex = first.blockIndex) ∧
    (rest ≠ [] → coalescableStreamEvent first.kind = true)

variable {e event : StreamEvent} {sources : List StreamEvent} {envelope : StreamEnvelope}
  {s : HarnessStreamSink}

theorem merged_single (event : StreamEvent) : Merged [event] event :=
  ⟨event, [], rfl, by simp, by simp, by simp⟩

theorem Merged.append {g g' : List StreamEvent} {e' : StreamEvent} (h : Merged g e)
    (h' : Merged g' e') (hkind : e'.kind = e.kind) (hidx : e'.blockIndex = e.blockIndex)
    (hc : coalescableStreamEvent e.kind = true) :
    Merged (g ++ g') { e with delta := e.delta ++ e'.delta } := by
  obtain ⟨first, rest, rfl, rfl, hsame, -⟩ := h
  obtain ⟨first', rest', rfl, rfl, hsame', -⟩ := h'
  refine ⟨first, rest ++ first' :: rest', rfl, by simp, ?_, fun _ => hc⟩
  intro e he
  rcases mem_append.mp he with he | he
  · exact hsame e he
  · rcases mem_cons.mp he with rfl | he
    · exact ⟨hkind, hidx⟩
    · exact ⟨(hsame' e he).1.trans hkind, (hsame' e he).2.trans hidx⟩

def deltaOf (block : Int) (e : StreamEvent) : Bytes :=
  if coalescableStreamEvent e.kind ∧ e.blockIndex = block then e.delta else []

def WireEvent.deltaOf (block : Int) : WireEvent → Bytes
  | .delta _ blockIndex text => if blockIndex = block then text else []
  | _ => []

theorem deltaOf_public {w : WireEvent} (h : publicStreamDelta e = some w)
    (block : Int) : w.deltaOf block = deltaOf block e := by
  unfold publicStreamDelta at h
  split at h
  · cases h
  cases hk : e.kind with
  | textDelta | thinkingDelta | toolArgsDelta =>
    simp only [hk, Option.ite_none_left_eq_some, Option.some.injEq] at h
    obtain ⟨-, rfl⟩ := h
    simp [WireEvent.deltaOf, Kernel.deltaOf, hk, coalescableStreamEvent]
  | blockStart | error =>
    rw [hk] at h
    obtain ⟨b, -, rfl⟩ := Option.map_eq_some_iff.mp h
    simp [WireEvent.deltaOf, Kernel.deltaOf, hk, coalescableStreamEvent]
  | blockStop =>
    rw [hk] at h
    cases h
    simp [WireEvent.deltaOf, Kernel.deltaOf, hk, coalescableStreamEvent]
  | messageStop =>
    rw [hk] at h
    dsimp only at h
    split at h
    · split at h
      · cases h
        simp [WireEvent.deltaOf, Kernel.deltaOf, hk, coalescableStreamEvent]
      · cases h
    · cases h
  | other name =>
    rw [hk] at h
    cases h

theorem Merged.deltaOf_eq {g : List StreamEvent} (h : Merged g e) (block : Int) :
    deltaOf block e = g.flatMap (deltaOf block) := by
  obtain ⟨first, rest, rfl, rfl, hsame, hc⟩ := h
  by_cases hblk : coalescableStreamEvent first.kind ∧ first.blockIndex = block
  · have hrest : rest.flatMap (deltaOf block) = rest.flatMap (·.delta) := by
      apply flatMap_congr
      intro e he
      rw [deltaOf, (hsame e he).1, (hsame e he).2, if_pos hblk]
    rw [flatMap_cons, hrest]
    simp [deltaOf, hblk]
  · have hrest : rest.flatMap (deltaOf block) = [] := by
      rw [flatMap_eq_nil_iff]
      intro e he
      rw [deltaOf, (hsame e he).1, (hsame e he).2, if_neg hblk]
    rw [flatMap_cons, hrest]
    simp [deltaOf, hblk]

/-! ## Envelopes and the source events they hold -/

/-- The envelope holds the source events numbered `indices`. -/
structure Covers (sources : List StreamEvent) (envelope : StreamEnvelope) : Prop where
  held : ∃ (indices : List Nat) (group : List StreamEvent), indices.Pairwise (· < ·) ∧
    indices.head? = some envelope.sourceSeqStart ∧ indices.getLast? = some envelope.sourceSeqEnd ∧
    indices.length = envelope.coalescedCount ∧ (∀ i ∈ indices, 0 < i) ∧
    indices.map (fun i => sources[i - 1]?) = group.map some ∧ Merged group envelope.event

theorem covers_single (sources : List StreamEvent) (event : StreamEvent) :
    Covers (sources ++ [event]) ⟨sources.length + 1, sources.length + 1, 1, event⟩ :=
  ⟨[sources.length + 1], [event], by simp, rfl, rfl, rfl, by simp, by simp, merged_single event⟩

theorem lt_of_held {indices : List Nat} {group : List StreamEvent}
    (h : indices.map (fun i => sources[i - 1]?) = group.map some) {i : Nat} (hi : i ∈ indices) :
    i - 1 < sources.length := by
  have hsome := mem_map_of_mem (f := fun i => sources[i - 1]?) hi
  rw [h] at hsome
  obtain ⟨e, -, he⟩ := mem_map.mp hsome
  exact (List.getElem?_eq_some_iff.mp he.symm).1

theorem Covers.end_le (h : Covers sources envelope) : envelope.sourceSeqEnd ≤ sources.length := by
  obtain ⟨indices, group, -, -, hlast, -, hpos, hmap, -⟩ := h
  have hmem := mem_of_getLast? hlast
  have := lt_of_held hmap hmem
  omega

theorem Covers.append
    (h : Covers sources envelope) (more : List StreamEvent) : Covers (sources ++ more) envelope := by
  obtain ⟨indices, group, hsort, hhead, hlast, hlen, hpos, hmap, hmerged⟩ := h
  refine ⟨indices, group, hsort, hhead, hlast, hlen, hpos, ?_, hmerged⟩
  rw [← hmap]
  apply map_congr_left
  intro i hi
  exact List.getElem?_append_left (lt_of_held hmap hi)

theorem bounds_of_increasing {xs : List Nat} {a b : Nat} (h : xs.Pairwise (· < ·))
    (hhead : xs.head? = some a) (hlast : xs.getLast? = some b) {i : Nat} (hi : i ∈ xs) :
    a ≤ i ∧ i ≤ b := by
  constructor
  · obtain ⟨back, rfl⟩ := List.head?_eq_some_iff.mp hhead
    grind [pairwise_cons]
  · obtain ⟨front, rfl⟩ := List.getLast?_eq_some_iff.mp hlast
    grind

theorem Covers.merge {next : StreamEnvelope}
    (h : Covers sources envelope) (h' : Covers sources next)
    (hlt : envelope.sourceSeqEnd < next.sourceSeqStart)
    (hm : HarnessStreamSink.mergeable envelope next = true)
    (hc : coalescableStreamEvent envelope.event.kind = true) :
    Covers sources (HarnessStreamSink.merge envelope next) := by
  obtain ⟨indices, group, hsort, hhead, hlast, hlen, hpos, hmap, hmerged⟩ := h
  obtain ⟨indices', group', hsort', hhead', hlast', hlen', hpos', hmap', hmerged'⟩ := h'
  rw [HarnessStreamSink.mergeable, decide_eq_true_eq] at hm
  refine ⟨indices ++ indices', group ++ group', ?_, ?_, ?_, ?_, ?_, ?_,
    hmerged.append hmerged' hm.1 hm.2 hc⟩
  · -- the events of `next` all come after the last one of `envelope`
    rw [pairwise_append]
    refine ⟨hsort, hsort', ?_⟩
    intro i hi j hj
    have := bounds_of_increasing hsort hhead hlast hi
    have := bounds_of_increasing hsort' hhead' hlast' hj
    omega
  · rw [List.head?_append, hhead]
    rfl
  · rw [List.getLast?_append, hlast']
    rfl
  · rw [length_append, hlen, hlen']
    rfl
  · intro i hi
    rcases mem_append.mp hi with hi | hi
    · exact hpos i hi
    · exact hpos' i hi
  · rw [map_append, map_append, hmap, hmap']

theorem eq_range'_of_increasing {xs : List Nat} {a b : Nat} (h : xs.Pairwise (· < ·))
    (hhead : xs.head? = some a) (hlast : xs.getLast? = some b) (hlen : xs.length = b + 1 - a) :
    xs = List.range' a (b + 1 - a) := by
  have hsub : xs ⊆ List.range' a (b + 1 - a) := by
    intro i hi
    have := bounds_of_increasing h hhead hlast hi
    rw [mem_range'_1]
    omega
  have hperm := (subperm_of_subset h.nodup hsub).perm_of_length_le (by simp [hlen])
  exact hperm.eq_of_pairwise (by omega) h pairwise_lt_range'

theorem map_getElem?_range' {α : Type} (xs : List α) {a b : Nat} (ha : 0 < a) (hb : b ≤ xs.length) :
    (List.range' a (b + 1 - a)).map (fun i => xs[i - 1]?) = (Window.range xs (a - 1) b).map some := by
  apply ext_getElem
  · rw [length_map, length_range', length_map, Window.length_range hb]
    omega
  · intro i hi hi'
    rw [length_map, length_range'] at hi
    have hlt : a - 1 + i < xs.length := by omega
    rw [getElem_map, getElem_map, getElem_range', Nat.one_mul,
      show a + i - 1 = a - 1 + i by omega, List.getElem?_eq_getElem hlt]
    simp [Window.range]

/-- **An envelope with as many events as its range is long** holds exactly the events of its range. -/
theorem Covers.exact (h : Covers sources envelope) (hcnt : (envelope.coalescedCount : Int) =
      envelope.sourceSeqEnd - envelope.sourceSeqStart + 1) :
    envelope.sourceSeqStart ≤ envelope.sourceSeqEnd ∧
      Merged (Window.range sources (envelope.sourceSeqStart - 1) envelope.sourceSeqEnd)
        envelope.event := by
  have hend := h.end_le
  obtain ⟨indices, group, hsort, hhead, hlast, hlen, hpos, hmap, hmerged⟩ := h
  have hle := (bounds_of_increasing hsort hhead hlast (mem_of_head? hhead)).2
  have hindices := eq_range'_of_increasing hsort hhead hlast (by omega)
  have hstart := hpos _ (mem_of_head? hhead)
  rw [hindices, map_getElem?_range' sources hstart hend] at hmap
  have hgroup := map_injective_iff.mpr (Option.some_injective StreamEvent) hmap
  exact ⟨hle, hgroup ▸ hmerged⟩

/-! ## The sink -/

def Consumer.envelopes : Consumer → List StreamEnvelope
  | .receiving => []
  | .coalescing envelope => [envelope]
  | .publishing envelope next => envelope :: next.toList

def HarnessStreamSink.pending (s : HarnessStreamSink) : List StreamEnvelope :=
  s.consumer.envelopes ++ s.events

structure SinkInv (s : HarnessStreamSink) : Prop where
  sourceSeq_eq : s.sourceSeq = s.sources.length
  ordered : s.pending.Pairwise fun a b => a.sourceSeqEnd < b.sourceSeqStart
  covers : ∀ envelope ∈ s.pending, Covers s.sources envelope
  coalescing : ∀ envelope, s.consumer = .coalescing envelope →
    coalescableStreamEvent envelope.event.kind = true
  published : ∀ frame ∈ s.published, ∃ event, publicStreamDelta event = some frame.event ∧
    Covers s.sources
      ⟨frame.sourceSeqStart, frame.sourceSeqEnd, frame.coalescedCount, event⟩
  deltas : s.sources.filter (coalescableStreamEvent ·.kind) =
    s.emitted.filter (coalescableStreamEvent ·.kind)

theorem envelopes_goOn (envelope : StreamEnvelope) :
    (HarnessStreamSink.goOn envelope).envelopes = [envelope] := by
  unfold HarnessStreamSink.goOn
  split <;> rfl

theorem coalescing_goOn {envelope' : StreamEnvelope}
    (h : HarnessStreamSink.goOn envelope = .coalescing envelope') :
    coalescableStreamEvent envelope'.event.kind = true := by
  unfold HarnessStreamSink.goOn at h
  split at h
  · cases h
    assumption
  · cases h

theorem sourceEvent_spec {t : HarnessStreamSink} {event' : StreamEvent} {minted : Option Bytes}
    (h : s.sourceEvent event minted = some (t, event')) :
    (∃ calls, t = { s with toolCalls := calls }) ∧ event'.kind = event.kind ∧
      (coalescableStreamEvent event.kind = true → event' = event) := by
  unfold HarnessStreamSink.sourceEvent at h
  split at h
  · cases h
    exact ⟨⟨_, rfl⟩, rfl, fun _ => rfl⟩
  rename_i hkind
  rw [ne_eq, not_not] at hkind
  have hno : coalescableStreamEvent event.kind = true → event' = event := by
    rw [hkind]
    exact nofun
  split at h
  · cases h
  split at h
  · cases h; exact ⟨⟨_, rfl⟩, rfl, hno⟩
  · cases h; exact ⟨⟨_, rfl⟩, rfl, hno⟩
  · split at h
    · cases h
    · split at h
      · cases h
      · rename_i hmint
        cases h
        refine ⟨?_, rfl, hno⟩
        unfold HarnessStreamSink.mintToolCallID at hmint
        split at hmint
        · cases hmint
          exact ⟨_, rfl⟩
        · obtain ⟨id, -, hid⟩ := Option.map_eq_some_iff.mp hmint
          cases hid
          exact ⟨_, rfl⟩
  · cases h

theorem sourceEvent_of_delta (s : HarnessStreamSink) (minted : Option Bytes)
    (h : coalescableStreamEvent event.kind = true) : s.sourceEvent event minted = some (s, event) := by
  unfold HarnessStreamSink.sourceEvent
  rw [if_pos]
  intro hkind
  rw [hkind] at h
  cases h

theorem filter_concat_of_kind {event' : StreamEvent} (xs ys : List StreamEvent)
    (hkind : event'.kind = event.kind)
    (hsame : coalescableStreamEvent event.kind = true → event' = event)
    (h : xs.filter (coalescableStreamEvent ·.kind) = ys.filter (coalescableStreamEvent ·.kind)) :
    (xs ++ [event']).filter (coalescableStreamEvent ·.kind) =
      (ys ++ [event]).filter (coalescableStreamEvent ·.kind) := by
  rw [filter_append, filter_append, h]
  by_cases hc : coalescableStreamEvent event.kind = true
  · rw [hsame hc]
  · simp [hkind, hc]

theorem emit_inv (h : SinkInv s) (event : StreamEvent)
    (minted : Option Bytes) : SinkInv (s.emit event minted) := by
  unfold HarnessStreamSink.emit
  split
  · exact h
  dsimp only
  cases hev : HarnessStreamSink.sourceEvent { s with emitted := s.emitted ++ [event] } event minted with
  | none =>
    refine { h with deltas := ?_ }
    have hno : ¬ coalescableStreamEvent event.kind = true := by
      intro hc
      rw [sourceEvent_of_delta _ minted hc] at hev
      cases hev
    simp [hno, h.deltas]
  | some result =>
    obtain ⟨t, event'⟩ := result
    obtain ⟨⟨calls, rfl⟩, hkind, hsame⟩ := sourceEvent_spec hev
    -- the event with its number, before it is known whether the buffer takes it
    have hbase : SinkInv { s with
        emitted := s.emitted ++ [event], toolCalls := calls, sourceSeq := s.sourceSeq + 1,
        sources := s.sources ++ [event'] } :=
      { h with
        sourceSeq_eq := by simp [h.sourceSeq_eq]
        covers := fun envelope hmem => (h.covers envelope hmem).append _
        published := fun frame hmem =>
          have ⟨e, he, hcov⟩ := h.published frame hmem
          ⟨e, he, hcov.append _⟩
        deltas := filter_concat_of_kind _ _ hkind hsame h.deltas }
    dsimp only
    split
    · have hnew := covers_single s.sources event'
      rw [← h.sourceSeq_eq] at hnew
      refine { hbase with ordered := ?_, covers := ?_ }
      · show (s.consumer.envelopes ++ (s.events ++ [_])).Pairwise _
        rw [← append_assoc, pairwise_append]
        refine ⟨h.ordered, by simp, fun a ha b hb => ?_⟩
        obtain rfl := mem_singleton.mp hb
        have := (h.covers a ha).end_le
        show a.sourceSeqEnd < s.sourceSeq + 1
        rw [h.sourceSeq_eq]
        omega
      · show ∀ envelope ∈ s.consumer.envelopes ++ (s.events ++ [_]), _
        rw [← append_assoc, forall_mem_append, forall_mem_singleton]
        exact ⟨hbase.covers, hnew⟩
    · exact hbase

theorem SinkInv.of_pending (h : SinkInv s) (events : List StreamEnvelope) (consumer : Consumer)
    (hord : (consumer.envelopes ++ events).Pairwise fun a b => a.sourceSeqEnd < b.sourceSeqStart)
    (hcov : ∀ envelope ∈ consumer.envelopes ++ events, Covers s.sources envelope)
    (hcoalescing : ∀ envelope, consumer = .coalescing envelope →
      coalescableStreamEvent envelope.event.kind = true) :
    SinkInv { s with events := events, consumer := consumer } :=
  { h with ordered := hord, covers := hcov, coalescing := hcoalescing }

theorem SinkInv.publish (h : SinkInv s) {event : WireEvent} (hcov : Covers s.sources envelope)
    (hpublic : publicStreamDelta envelope.event = some event) (seq : Nat) :
    SinkInv { s with published := s.published ++ [⟨seq, envelope.sourceSeqStart,
      envelope.sourceSeqEnd, envelope.coalescedCount, event⟩] } := by
  refine { h with published := ?_ }
  intro frame hmem
  rcases mem_append.mp hmem with hmem | hmem
  · exact h.published frame hmem
  · obtain rfl := mem_singleton.mp hmem
    exact ⟨envelope.event, hpublic, hcov⟩

theorem consume_inv {t : HarnessStreamSink} (h : SinkInv s) (hstep : s.consume = some t) :
    SinkInv t := by
  have hord := h.ordered
  have hcov := h.covers
  unfold HarnessStreamSink.pending at hord hcov
  unfold HarnessStreamSink.consume at hstep
  split at hstep
  · cases hstep
  · rename_i next events hcons hevs
    rw [hcons, hevs] at hord hcov
    cases hstep
    apply h.of_pending
    · rw [envelopes_goOn]
      exact hord
    · rw [envelopes_goOn]
      exact hcov
    · intro envelope hgo
      exact coalescing_goOn hgo
  · rename_i envelope hcons hevs
    rw [hcons, hevs] at hord hcov
    cases hstep
    have := h.of_pending [] (.publishing envelope none) hord hcov (by
      intro e he
      cases he)
    rwa [← hevs] at this
  · rename_i envelope next events hcons hevs
    rw [hcons, hevs] at hord hcov
    have hlt : envelope.sourceSeqEnd < next.sourceSeqStart :=
      (pairwise_cons.mp hord).1 next (by simp)
    split at hstep
    · rename_i hmergeable
      cases hstep
      obtain ⟨-, hrest⟩ := pairwise_cons.mp hord
      obtain ⟨hnext, htail⟩ := pairwise_cons.mp hrest
      apply h.of_pending
      · exact pairwise_cons.mpr ⟨hnext, htail⟩
      · intro e he
        rcases mem_cons.mp he with rfl | he
        · exact (hcov envelope (.head _)).merge (hcov next (.tail _ (.head _))) hlt hmergeable
            (h.coalescing envelope hcons)
        · exact hcov e (.tail _ (.tail _ he))
      · intro e he
        cases he
        exact h.coalescing envelope hcons
    · cases hstep
      apply h.of_pending
      · exact hord
      · exact hcov
      · intro e he
        cases he
  · rename_i envelope next hcons
    rw [hcons] at hord hcov
    have htail : SinkInv { s with
        frameSeq := s.frameSeq + 1
        consumer := next.elim .receiving HarnessStreamSink.goOn } := by
      have henvelopes : (next.elim Consumer.receiving HarnessStreamSink.goOn).envelopes =
          next.toList := by
        cases next with
        | none => rfl
        | some next => exact envelopes_goOn next
      refine { h with ordered := ?_, covers := ?_, coalescing := ?_ }
      · show (Consumer.envelopes _ ++ s.events).Pairwise _
        rw [henvelopes]
        exact (pairwise_cons.mp hord).2
      · show ∀ e ∈ Consumer.envelopes _ ++ s.events, _
        rw [henvelopes]
        intro e he
        exact hcov e (mem_cons_of_mem envelope he)
      · intro e he
        cases next with
        | none => cases he
        | some next => exact coalescing_goOn he
    split at hstep
    · cases hstep
      exact htail
    · rename_i event hpublic
      cases hstep
      exact htail.publish (hcov envelope (by simp [Consumer.envelopes])) hpublic _

theorem reachable_inv (h : SinkReachable s) : SinkInv s := by
  refine h.invariant ?_ ?_
  · rintro s rfl
    exact
      { sourceSeq_eq := rfl
        ordered := List.Pairwise.nil
        covers := fun _ hmem => absurd hmem not_mem_nil
        coalescing := by
          intro envelope he
          cases he
        published := fun _ hmem => absurd hmem not_mem_nil
        deltas := rfl }
  · intro s t hs hstep
    cases hstep with
    | emit event minted => exact emit_inv hs event minted
    | consume hconsume => exact consume_inv hs hconsume
    | close => exact { hs with }

/-! ## The client -/

/-- The frame shows the events of `group`, merged into one. -/
def Shows (frame : StreamDelta) (group : List StreamEvent) : Prop :=
  ∃ event, Merged group event ∧ publicStreamDelta event = some frame.event

theorem Shows.deltaOf_eq {frame : StreamDelta} {group : List StreamEvent} (h : Shows frame group)
    (block : Int) : frame.event.deltaOf block = group.flatMap (deltaOf block) := by
  obtain ⟨event, hmerged, hpublic⟩ := h
  rw [deltaOf_public hpublic, hmerged.deltaOf_eq]

/-- The frames `isCompleteFrameRun` accepts show source events laid end to end. The induction is over the
frames, with the number of source events shown so far. -/
theorem frameRun_groups : ∀ {frames : List StreamDelta}
    {seq shown : Nat}, frameRunLoop seq shown frames = true → shown ≤ sources.length →
    (∀ frame ∈ frames, ∃ event, publicStreamDelta event = some frame.event ∧ Covers sources
        ⟨frame.sourceSeqStart, frame.sourceSeqEnd, frame.coalescedCount, event⟩) →
    ∃ (groups : List (List StreamEvent)) (last : Nat), List.Forall₂ Shows frames groups ∧
      groups.flatten = Window.range sources shown last ∧ shown ≤ last ∧ last ≤ sources.length ∧
      last = (frames.getLast?.map (·.sourceSeqEnd)).getD shown ∧ (frames ≠ [] → shown < last)
  | [], _, shown, _, hshown, _ =>
    ⟨[], shown, .nil, by simp, Nat.le_refl _, hshown, rfl, fun h => absurd rfl h⟩
  | frame :: frames, seq, shown, hrun, hshown, hcov => by
    unfold frameRunLoop at hrun
    split at hrun
    · cases hrun
    rename_i hseq
    split at hrun
    · cases hrun
    rename_i hcnt
    rw [not_or, not_not, not_not] at hseq
    rw [not_not] at hcnt
    obtain ⟨event, hpublic, hcover⟩ := hcov frame mem_cons_self
    have hend : frame.sourceSeqEnd ≤ sources.length := hcover.end_le
    obtain ⟨hle, hmerged⟩ := hcover.exact hcnt
    dsimp only at hle hmerged
    rw [hseq.2, Nat.add_sub_cancel] at hmerged
    rw [Nat.max_eq_right hle] at hrun
    obtain ⟨groups, last, hshows, hflatten, hfrom, hto, hlast, -⟩ :=
      frameRun_groups hrun hend (fun f hf => hcov f (mem_cons_of_mem frame hf))
    refine ⟨_ :: groups, last, .cons ⟨event, hmerged, hpublic⟩ hshows, ?_, by omega, hto, ?_,
      fun _ => by omega⟩
    · rw [flatten_cons, hflatten, Window.range_append (by omega) hfrom]
    · cases frames with
      | nil => exact hlast
      | cons f fs => rw [hlast, List.getLast?_cons_cons, List.getLast?_cons]; rfl

theorem deltaOf_forall₂ {frames : List StreamDelta} {groups : List (List StreamEvent)}
    (h : List.Forall₂ Shows frames groups) (block : Int) :
    frames.flatMap (·.event.deltaOf block) = groups.flatten.flatMap (deltaOf block) := by
  induction h with
  | nil => rfl
  | cons hshows _ ih => rw [flatMap_cons, flatten_cons, flatMap_append, hshows.deltaOf_eq, ih]

theorem flatMap_deltaOf_filter (events : List StreamEvent) (block : Int) :
    (events.filter (coalescableStreamEvent ·.kind)).flatMap (deltaOf block) =
      events.flatMap (deltaOf block) := by
  induction events with
  | nil => rfl
  | cons e events ih =>
    by_cases hc : coalescableStreamEvent e.kind = true
    · rw [filter_cons, if_pos hc, flatMap_cons, flatMap_cons, ih]
    · rw [filter_cons, if_neg hc, flatMap_cons, ih, deltaOf, if_neg (fun h => hc h.1), nil_append]

/-- The deltas of the first source events are those of the first events emitted. -/
theorem deltas_prefix {emitted : List StreamEvent}
    (h : sources.filter (coalescableStreamEvent ·.kind) =
      emitted.filter (coalescableStreamEvent ·.kind)) (n : Nat) :
    ∃ m ≤ emitted.length, ∀ block, (sources.take n).flatMap (deltaOf block) =
      (emitted.take m).flatMap (deltaOf block) := by
  rw [← take_append_drop n sources, filter_append] at h
  obtain ⟨front, back, hsplit, hfront, -⟩ := filter_eq_append_iff.mp h.symm
  refine ⟨front.length, by simp [hsplit], ?_⟩
  intro block
  rw [hsplit, take_left, ← flatMap_deltaOf_filter, ← hfront, flatMap_deltaOf_filter]

/-- **A preview shows exactly the first source events**: whatever frames of a model call reached the
client, if they pass its check they show the first `N` events of the producer, each in one frame and in
order, and the text of every block is what the producer emitted for it up to there. -/
theorem previewed_frames {s : HarnessStreamSink} (h : SinkReachable s) {received : List StreamDelta}
    (hsub : received ⊆ s.published)
    (hrun : isCompleteFrameRun (sortDeltas received) = true) :
    ∃ (N : Nat) (groups : List (List StreamEvent)), 0 < N ∧ N ≤ s.sources.length ∧
      (sortDeltas received).getLast?.map (·.sourceSeqEnd) = some N ∧
      List.Forall₂ Shows (sortDeltas received) groups ∧ groups.flatten = s.sources.take N ∧
      ∃ M ≤ s.emitted.length, ∀ block,
        (sortDeltas received).flatMap (·.event.deltaOf block) =
            (s.sources.take N).flatMap (deltaOf block) ∧
          (s.sources.take N).flatMap (deltaOf block) =
            (s.emitted.take M).flatMap (deltaOf block) := by
  have hinv := reachable_inv h
  rw [isCompleteFrameRun, Bool.and_eq_true, decide_eq_true_eq] at hrun
  obtain ⟨hloop, hsome⟩ := hrun
  have hcovers : ∀ frame ∈ sortDeltas received, ∃ event,
      publicStreamDelta event = some frame.event ∧ Covers s.sources
        ⟨frame.sourceSeqStart, frame.sourceSeqEnd, frame.coalescedCount, event⟩ := by
    intro frame hmem
    exact hinv.published frame (hsub (mem_mergeSort.mp hmem))
  obtain ⟨groups, last, hshows, hflatten, -, hle, hlast, hpos⟩ :=
    frameRun_groups hloop (Nat.zero_le _) hcovers
  have hne : sortDeltas received ≠ [] := length_pos_iff.mp hsome
  obtain ⟨M, hM, htext⟩ := deltas_prefix hinv.deltas last
  refine ⟨last, groups, hpos hne, hle, ?_, hshows, hflatten, M, hM, ?_⟩
  · rw [hlast, List.getLast?_eq_some_getLast hne]
    rfl
  · intro block
    rw [deltaOf_forall₂ hshows, hflatten]
    exact ⟨rfl, htext block⟩

/-- A text block with two deltas, which the consumer merges. -/
def greeting : HarnessStreamSink :=
  let event (kind : StreamEventKind) (delta : Bytes) : StreamEvent :=
    { kind := kind, block := some { kind := .text }, delta := delta }
  let s : HarnessStreamSink := {}
  let s := ((s.emit (event .blockStart []) none).emit (event .textDelta [104, 105]) none).emit
    (event .textDelta [33]) none
  (fun s => s.consume.getD s)^[6] s

theorem greeting_reachable : SinkReachable greeting := by
  have hconsume : ∀ (n : Nat) (s : HarnessStreamSink), SinkReachable s →
      SinkReachable ((fun s => s.consume.getD s)^[n] s) := by
    intro n
    induction n with
    | zero => exact fun _ hs => hs
    | succ n ih =>
      intro s hs
      apply ih
      cases hstep : s.consume with
      | none => simpa [hstep] using hs
      | some t => simpa [hstep] using hs.next (.consume hstep)
  apply hconsume
  exact .next (.next (.next (.start rfl) (.emit _ _ _)) (.emit _ _ _)) (.emit _ _ _)

/-- The two frames, received in the other order. -/
theorem previewed_frames_greeting :
    isCompleteFrameRun (sortDeltas greeting.published.reverse) = true ∧
      ∃ (N : Nat) (groups : List (List StreamEvent)), 0 < N ∧ N ≤ greeting.sources.length ∧
        List.Forall₂ Shows (sortDeltas greeting.published.reverse) groups ∧
        groups.flatten = greeting.sources.take N := by
  have hpublished : greeting.published = [⟨1, 1, 1, 1, .blockStart 0 { kind := .text }⟩,
        ⟨2, 2, 3, 2, .delta .textDelta 0 [104, 105, 33]⟩] := by
    decide +kernel
  have hrun : isCompleteFrameRun (sortDeltas greeting.published.reverse) = true := by
    rw [hpublished]
    simp [sortDeltas, List.mergeSort, List.MergeSort.Internal.splitInTwo,
      isCompleteFrameRun, frameRunLoop]
  obtain ⟨N, groups, hpos, hle, -, hshows, hflatten, -⟩ :=
    previewed_frames greeting_reachable (reverse_subset.mpr (List.Subset.refl _)) hrun
  exact ⟨hrun, N, groups, hpos, hle, hshows, hflatten⟩

end Kernel
