import Omnara.Model.Proof.Stream
import Omnara.OpenAIResponses.Stream

/-!
# The Responses stream is well bracketed

The indices in the two maps are different, given out before, and they are the blocks that are open for
the reader of the stream (`StreamInv`). A key is added to a map once (`seenItemIDs`,
`seenContentParts`), so no entry is overwritten while its block is open, and the entry goes with the
stop of its block.
-/

namespace OpenAIResponses

open Json (Bytes)
open Model List

variable {m : BlockMap} {key : Bytes} {index : Int}

/-! ## Maps of blocks -/

theorem BlockMap.indices_insert (h : key ∉ m) (index : Int) :
    BlockMap.indices (m.insert key index) = index :: m.indices := by
  unfold indices
  rw [AList.entries_insert_of_notMem h, map_cons]

theorem BlockMap.indices_erase (h : m.lookup key = some index) :
    m.indices.Perm (index :: BlockMap.indices (m.erase key)) := by
  have hmem : key ∈ m.entries.keys := AList.lookup_isSome.mp (by rw [h]; rfl)
  obtain ⟨found, before, after, -, hsplit, herase⟩ := exists_of_kerase hmem
  have hfound : m.lookup key = some found := by
    apply AList.mem_lookup_iff.mpr
    rw [hsplit]
    exact mem_append_right _ mem_cons_self
  cases h.symm.trans hfound
  show (m.entries.map Sigma.snd).Perm (index :: (m.entries.kerase key).map Sigma.snd)
  rw [herase, hsplit, map_append, map_cons, map_append]
  exact perm_middle

theorem BlockMap.mem_indices (h : m.lookup key = some index) : index ∈ m.indices :=
  (BlockMap.indices_erase h).mem_iff.mpr mem_cons_self

namespace StreamAccumulator

structure StreamInv (a : StreamAccumulator) : Prop where
  emitted : ∃ bound, Emitted a.sink bound a.openBlocks.toFinset ∧ bound ≤ a.nextBlockIndex
  nodup : a.openBlocks.Nodup
  nonneg : ∀ i ∈ a.openBlocks, 0 ≤ i
  items : ∀ id ∈ a.itemBlockIndex, id ∈ a.seenItemIDs
  parts : ∀ key ∈ a.itemContentBlockIndex, key ∈ a.seenContentParts

variable {a b : StreamAccumulator}

theorem streamInv_new : StreamInv {} where
  emitted := ⟨0, emitted_nil, Int.le_refl _⟩
  nodup := nodup_nil
  nonneg := nofun
  items := nofun
  parts := nofun

theorem StreamInv.congr (h : StreamInv a) (hsink : b.sink = a.sink)
    (hnext : b.nextBlockIndex = a.nextBlockIndex) (hitems : b.itemBlockIndex = a.itemBlockIndex)
    (hpts : b.itemContentBlockIndex = a.itemContentBlockIndex)
    (hseen : a.seenItemIDs ⊆ b.seenItemIDs) (hseenParts : a.seenContentParts ⊆ b.seenContentParts) :
    StreamInv b := by
  have hopen : b.openBlocks = a.openBlocks := by
    unfold openBlocks
    rw [hitems, hpts]
  refine ⟨?_, hopen ▸ h.nodup, hopen ▸ h.nonneg, ?_, ?_⟩
  · rw [hopen, hsink, hnext]
    exact h.emitted
  · rw [hitems]
    exact fun id hid => hseen (h.items id hid)
  · rw [hpts]
    exact fun key hkey => hseenParts (h.parts key hkey)

theorem StreamInv.delta (h : StreamInv a) (hidx : index ∈ a.openBlocks) {sink : Sink}
    (hsink : ∀ bound opened, index ∈ opened → Emitted a.sink bound opened →
      Emitted sink bound opened) : StreamInv { a with sink := sink } := by
  obtain ⟨bound, hemitted, hbd⟩ := h.emitted
  exact ⟨⟨bound, hsink bound _ (mem_toFinset.mpr hidx) hemitted, hbd⟩, h.nodup, h.nonneg,
    h.items, h.parts⟩

theorem StreamInv.start (h : StreamInv a) {block : StreamBlock}
    (hsink : b.sink = a.sink.blockStart a.nextBlockIndex block)
    (hnext : b.nextBlockIndex = a.nextBlockIndex + 1)
    (hopen : b.openBlocks.Perm (a.nextBlockIndex :: a.openBlocks))
    (hitems : ∀ id ∈ b.itemBlockIndex, id ∈ b.seenItemIDs)
    (hpts : ∀ key ∈ b.itemContentBlockIndex, key ∈ b.seenContentParts) : StreamInv b := by
  obtain ⟨bound, hemitted, hbd⟩ := h.emitted
  refine ⟨⟨a.nextBlockIndex + 1, ?_, ?_⟩, ?_, ?_, hitems, hpts⟩
  · rw [toFinset_eq_of_perm _ _ hopen, toFinset_cons, hsink]
    exact hemitted.blockStart hbd block
  · rw [hnext]
    exact Int.le_refl _
  · rw [hopen.nodup_iff, nodup_cons]
    refine ⟨?_, h.nodup⟩
    intro hmem
    have := hemitted.lt_bound (mem_toFinset.mpr hmem)
    omega
  · intro i hi
    rcases mem_cons.mp (hopen.mem_iff.mp hi) with rfl | hold
    · exact Int.natCast_nonneg _
    · exact h.nonneg i hold

theorem StreamInv.stop (h : StreamInv a) (hsink : b.sink = a.sink.blockStop index)
    (hnext : b.nextBlockIndex = a.nextBlockIndex) (hopen : a.openBlocks.Perm (index :: b.openBlocks))
    (hitems : ∀ id ∈ b.itemBlockIndex, id ∈ b.seenItemIDs)
    (hpts : ∀ key ∈ b.itemContentBlockIndex, key ∈ b.seenContentParts) : StreamInv b := by
  obtain ⟨bound, hemitted, hbd⟩ := h.emitted
  obtain ⟨hidx, hnd⟩ := nodup_cons.mp (hopen.nodup_iff.mp h.nodup)
  refine ⟨⟨bound, ?_, ?_⟩, hnd, ?_, hitems, hpts⟩
  · rw [toFinset_eq_of_perm _ _ hopen, toFinset_cons] at hemitted
    have hstop := hemitted.blockStop (Finset.mem_insert_self index _)
    rw [Finset.erase_insert (by simpa using hidx)] at hstop
    rw [hsink]
    exact hstop
  · rw [hnext]
    exact hbd
  · exact fun i hi => h.nonneg i (hopen.mem_iff.mpr (mem_cons_of_mem _ hi))

theorem closeOpenBlocks_emitted (h : StreamInv a) : ∃ bound, Emitted a.closeOpenBlocks.sink bound ∅ := by
  obtain ⟨bound, hemitted, hbd⟩ := h.emitted
  refine ⟨bound, Emitted.blockStops ?_ ?_⟩
  · apply List.Nodup.filter
    exact nodup_range.map fun _ _ hij => Int.ofNat.inj hij
  -- every open index has been given out, so the loop meets it
  have hall : (((List.range a.nextBlockIndex).map Int.ofNat).filter
      (a.openBlocks.contains ·)).toFinset = a.openBlocks.toFinset := by
    ext i
    simp only [mem_toFinset, mem_filter, contains_iff_mem, mem_map, mem_range]
    refine ⟨fun hi => hi.2, fun hi => ⟨⟨i.toNat, ?_, ?_⟩, hi⟩⟩
    · have := hemitted.lt_bound (mem_toFinset.mpr hi)
      have := h.nonneg i hi
      omega
    · exact Int.toNat_of_nonneg (h.nonneg i hi)
  rw [hall]
  exact hemitted

/-! ## Handlers -/

section
variable {d : Decoders} {a : StreamAccumulator}

section
variable (h : StreamInv a)
include h

theorem startItem_inv {id : Bytes} (hid : id ∉ a.itemBlockIndex) (hseen : id ∈ a.seenItemIDs)
    (block : StreamBlock) : StreamInv (a.startItem id block) := by
  apply h.start
  · rfl
  · rfl
  · show (BlockMap.indices (a.itemBlockIndex.insert id a.nextBlockIndex) ++ _).Perm _
    rw [BlockMap.indices_insert hid]
    exact .refl _
  · intro other hoth
    rcases (AList.mem_insert _).mp hoth with rfl | hold
    · exact hseen
    · exact h.items other hold
  · exact h.parts

theorem handleOutputItemAdded_inv (data : Bytes) :
    StreamInv (handleOutputItemAdded d a data).1 := by
  unfold handleOutputItemAdded
  split
  · exact h
  split
  · exact h
  split
  · exact h
  rename_i item _ _ hfr
  extract_lets seen
  have hseen : StreamInv seen := h.congr rfl rfl rfl rfl (subset_cons_self _ _) (List.Subset.refl _)
  have hid : item.id ∉ seen.itemBlockIndex := by
    intro hmem
    exact hfr (contains_iff_mem.mpr (h.items _ hmem))
  have hstart : ∀ block, StreamInv (seen.startItem item.id block) :=
    fun block => startItem_inv hseen hid mem_cons_self block
  split
  · split
    · exact hseen
    · exact hstart _
  split
  · exact hstart _
  · exact hseen

theorem handleContentPartAdded_inv (data : Bytes) :
    StreamInv (handleContentPartAdded d a data).1 := by
  unfold handleContentPartAdded
  split
  · exact h
  split
  · exact h
  extract_lets key
  split
  · exact h
  rename_i hfr
  have hkey : key ∉ a.itemContentBlockIndex := by
    intro hmem
    exact hfr (contains_iff_mem.mpr (h.parts _ hmem))
  apply h.start
  · rfl
  · rfl
  · show (_ ++ BlockMap.indices (a.itemContentBlockIndex.insert key a.nextBlockIndex)).Perm _
    rw [BlockMap.indices_insert hkey]
    exact perm_middle
  · exact h.items
  · intro other hoth
    rcases (AList.mem_insert _).mp hoth with rfl | hold
    · exact mem_cons_self
    · exact mem_cons_of_mem _ (h.parts other hold)

theorem handleOutputTextDelta_inv (data : Bytes) :
    StreamInv (handleOutputTextDelta d a data).1 := by
  unfold handleOutputTextDelta
  split
  · exact h
  split
  · exact h
  · rename_i frame _ _ index hlk
    apply h.delta (mem_append_right _ (BlockMap.mem_indices hlk))
    intro _ _ hidx hemitted
    exact hemitted.textDelta hidx frame.delta

theorem handleItemDelta_inv {emit : Sink → Int → Bytes → Sink}
    (hemit : ∀ {sink bound opened index} (delta : Bytes), Emitted sink bound opened →
      index ∈ opened → Emitted (emit sink index delta) bound opened)
    (what : String) (data : Bytes) : StreamInv (handleItemDelta d emit what a data).1 := by
  unfold handleItemDelta
  split
  · exact h
  split
  · exact h
  · rename_i frame _ _ index hlk
    apply h.delta (mem_append_left _ (BlockMap.mem_indices hlk))
    intro _ _ hidx hemitted
    exact hemit frame.delta hemitted hidx

theorem handleContentPartDone_inv (data : Bytes) :
    StreamInv (handleContentPartDone d a data).1 := by
  unfold handleContentPartDone
  split
  · exact h
  extract_lets key
  split
  · exact h
  · rename_i index hlk
    apply h.stop
    · rfl
    · rfl
    · exact ((BlockMap.indices_erase hlk).append_left _).trans perm_middle
    · exact h.items
    · exact fun other hoth => h.parts other (AList.mem_erase.mp hoth).2

theorem handleOutputItemDone_inv (data : Bytes) : StreamInv (handleOutputItemDone d a data).1 := by
  unfold handleOutputItemDone
  split
  · exact h
  split
  · exact h
  · rename_i id _ _ index hlk
    apply h.stop
    · rfl
    · rfl
    · exact (BlockMap.indices_erase hlk).append_right _
    · exact fun other hoth => h.items other (AList.mem_erase.mp hoth).2
    · exact h.parts

theorem StreamInv.outcome (completed : Bool) (streamErr : Option Bytes) (out : StreamResponse) :
    StreamInv { a with completed := completed, streamErr := streamErr, out := out } :=
  h.congr rfl rfl rfl rfl (List.Subset.refl _) (List.Subset.refl _)

theorem handleTerminal_inv (event data : Bytes) : StreamInv (handleTerminal d a event data).1 := by
  unfold handleTerminal
  split
  · exact h
  split
  · exact h
  split
  · exact h
  split
  · exact h
  · exact h.outcome _ _ _

theorem dispatch_inv (event data : Bytes) : StreamInv (dispatch d a event data).1 := by
  unfold dispatch
  split
  · unfold handleResponseEvidence
    split
    · exact h
    · exact h.outcome _ _ _
  split
  · exact handleOutputItemAdded_inv h data
  split
  · exact handleContentPartAdded_inv h data
  split
  · exact handleOutputTextDelta_inv h data
  split
  · apply handleItemDelta_inv h
    exact fun delta hemitted hidx => hemitted.toolArgsDelta hidx delta
  split
  · apply handleItemDelta_inv h
    exact fun delta hemitted hidx => hemitted.thinkingDelta hidx delta
  split
  · exact handleContentPartDone_inv h data
  split
  · exact handleOutputItemDone_inv h data
  split
  · exact handleTerminal_inv h event data
  split
  · exact h.outcome _ _ _
  · exact h

theorem handle_inv (ev : SSEEvent) : StreamInv (handle d a ev).1 := by
  unfold handle
  split
  · exact h
  split
  · exact h
  split
  · exact h
  · exact dispatch_inv h _ _

end

theorem onEvent_fst (ev : SSEEvent) : (onEvent d a ev).1 = (handle d a ev).1 := by
  unfold onEvent
  obtain ⟨b, _ | err⟩ := handle d a ev <;> rfl

theorem finish_wellBracketed (h : StreamInv a) (readErr : Option ReadError) :
    WellBracketed (a.finish readErr).sink := by
  obtain ⟨bound, hcl⟩ := closeOpenBlocks_emitted h
  unfold finish
  extract_lets b
  split
  · exact hcl.error _
  split
  · exact hcl.error _
  split
  · exact hcl.error _
  · exact hcl.messageStop _ _

end

end StreamAccumulator

/-- **The Responses stream is well bracketed**, whatever the events and however the stream ends. -/
theorem consumeStream_wellBracketed (d : Decoders) (events : List SSEEvent)
    (readErr : Option Bytes) : WellBracketed (consumeStream d events readErr).sink := by
  have h := readSSEEvents_inv
    (fun _ ev h => StreamAccumulator.onEvent_fst (d := d) ev ▸ StreamAccumulator.handle_inv h ev)
    readErr events StreamAccumulator.streamInv_new
  exact StreamAccumulator.finish_wellBracketed h _

end OpenAIResponses
