import Omnara.Model.Proof.Replay
import Omnara.OpenAIResponses.Input

/-!
# Function calls and their outputs in a Responses input

What the provider reads of an item is its `Outline`. The items of an assistant entry make the calls of
its results, replayed (`responseReplaySemantics_outlines`) or rebuilt (`canonicalAssistantItems_outlines`),
and the outputs come after them; `entryAnswered_append` turns this into one output a call.
-/

namespace OpenAIResponses

open Json
open Model List
open ModelContext

/-- An item: a function call or an output with its call id, or another one. -/
inductive Outline
  | call (id : Bytes)
  | output (id : Bytes)
  | other
  deriving DecidableEq

def readMembers (members : Members) : Outline :=
  if textMember members "type" = ascii "function_call" then .call (textMember members "call_id")
  else if textMember members "type" = ascii "function_call_output" then
    .output (textMember members "call_id")
  else .other

def readItem : Value → Outline
  | .obj members => readMembers members
  | _ => .other

def InputItem.outline (item : InputItem) : Outline := readItem item.value

def callsIn (outlines : List Outline) : List Bytes :=
  outlines.filterMap fun
    | .call id => some id
    | _ => none

def outputsIn (outlines : List Outline) : List Bytes :=
  outlines.filterMap fun
    | .output id => some id
    | _ => none

/-- Every call of an entry has exactly one later output with its id, and there is no other output. -/
structure EntryAnswered (outlines : List Outline) : Prop where
  calls : ∀ (i : Nat) (id : Bytes), outlines[i]? = some (.call id) →
    ∃! j : Nat, i < j ∧ outlines[j]? = some (.output id)
  outputs : ∀ (j : Nat) (id : Bytes), outlines[j]? = some (.output id) →
    ∃ i < j, outlines[i]? = some (.call id)

theorem callsIn_append (left right : List Outline) :
    callsIn (left ++ right) = callsIn left ++ callsIn right := filterMap_append ..

theorem outputsIn_append (left right : List Outline) :
    outputsIn (left ++ right) = outputsIn left ++ outputsIn right := filterMap_append ..

theorem mem_callsIn {outlines : List Outline} {id : Bytes} :
    id ∈ callsIn outlines ↔ .call id ∈ outlines := by
  unfold callsIn
  rw [mem_filterMap]
  constructor
  · rintro ⟨outline, hmem, hsome⟩
    cases outline with
    | call other => rwa [← Option.some.inj hsome]
    | output => cases hsome
    | other => cases hsome
  · exact fun hmem => ⟨_, hmem, rfl⟩

theorem mem_outputsIn {outlines : List Outline} {id : Bytes} :
    id ∈ outputsIn outlines ↔ .output id ∈ outlines := by
  unfold outputsIn
  rw [mem_filterMap]
  constructor
  · rintro ⟨outline, hmem, hsome⟩
    cases outline with
    | output other => rwa [← Option.some.inj hsome]
    | call => cases hsome
    | other => cases hsome
  · exact fun hmem => ⟨_, hmem, rfl⟩

/-- **The outputs after the calls** answer them, if the ids differ. -/
theorem entryAnswered_append {body : List Outline} {ids : List Bytes} (hcalls : callsIn body = ids)
    (houts : outputsIn body = []) (hnd : ids.Nodup) :
    EntryAnswered (body ++ ids.map .output) := by
  -- an output is one of those at the end
  have hplace : ∀ (j : Nat) (id : Bytes), (body ++ ids.map .output)[j]? = some (.output id) →
      body.length ≤ j ∧ ids[j - body.length]? = some id := by
    intro j id hj
    by_cases hlt : j < body.length
    · rw [List.getElem?_append_left hlt] at hj
      have hmem := mem_outputsIn.mpr (mem_of_getElem? hj)
      rw [houts] at hmem
      cases hmem
    · rw [List.getElem?_append_right (Nat.le_of_not_lt hlt), List.getElem?_map] at hj
      obtain ⟨other, hoth, heq⟩ := Option.map_eq_some_iff.mp hj
      cases heq
      exact ⟨Nat.le_of_not_lt hlt, hoth⟩
  have hcallPlace : ∀ (i : Nat) (id : Bytes), (body ++ ids.map .output)[i]? = some (.call id) →
      i < body.length ∧ id ∈ ids := by
    intro i id hi
    by_cases hlt : i < body.length
    · rw [List.getElem?_append_left hlt] at hi
      exact ⟨hlt, hcalls ▸ mem_callsIn.mpr (mem_of_getElem? hi)⟩
    · rw [List.getElem?_append_right (Nat.le_of_not_lt hlt), List.getElem?_map] at hi
      obtain ⟨other, -, heq⟩ := Option.map_eq_some_iff.mp hi
      cases heq
  constructor
  · intro i id hi
    obtain ⟨hlt, hmem⟩ := hcallPlace i id hi
    obtain ⟨k, hk⟩ := mem_iff_getElem?.mp hmem
    refine ⟨body.length + k, ⟨by omega, ?_⟩, ?_⟩
    · rw [List.getElem?_append_right (by omega), Nat.add_sub_cancel_left, List.getElem?_map, hk]
      rfl
    · rintro j ⟨-, hj⟩
      obtain ⟨hle, hj⟩ := hplace j id hj
      have hkj : j - body.length = k := by
        obtain ⟨hjlt, -⟩ := List.getElem?_eq_some_iff.mp hj
        exact (List.getElem?_inj hjlt hnd).mp (hj.trans hk.symm)
      omega
  · intro j id hj
    obtain ⟨hle, hj⟩ := hplace j id hj
    have hmem : id ∈ callsIn body := hcalls ▸ mem_of_getElem? hj
    obtain ⟨i, hi⟩ := mem_iff_getElem?.mp (mem_callsIn.mp hmem)
    obtain ⟨hlt, -⟩ := List.getElem?_eq_some_iff.mp hi
    exact ⟨i, by omega, by rw [List.getElem?_append_left hlt, hi]⟩

/-! ## Replayed items -/

/-- An item whose type and call id, under these very names, are the ones the decoding reads, and that is
no output. -/
def ItemSpelled (raw : Value) : Prop :=
  ∀ members ∈ structMembers raw, ∀ item ∈ decodeOutputItem raw,
    textMember members "type" = item.type ∧ item.type ≠ ascii "function_call_output" ∧
      (item.type = ascii "function_call" → textMember members "call_id" = item.callId)

instance (raw : Value) : Decidable (ItemSpelled raw) :=
  inferInstanceAs (Decidable (∀ members ∈ structMembers raw, _))

def ReplaySpelled (replay : Bytes) : Prop :=
  ∀ items ∈ (decode replay).bind listItems, ∀ raw ∈ items, ItemSpelled raw

instance (replay : Bytes) : Decidable (ReplaySpelled replay) :=
  inferInstanceAs (Decidable (∀ items ∈ (decode replay).bind listItems, _))

theorem callIds_messageSemantics : ∀ {parts : List ResponsesContentPart}
    {semantics : List ReplaySemantic}, messageSemantics parts = some semantics →
      callIds semantics = []
  | [], _, h => by
    cases h
    rfl
  | part :: parts, _, h => by
    rw [messageSemantics] at h
    split at h
    · cases h
    obtain ⟨rest, hrest, rfl⟩ := Option.map_eq_some_iff.mp h
    rw [callIds_append, callIds_textSemantic (by decide), callIds_messageSemantics hrest]
    rfl

theorem itemSemantics_cases {item : ResponsesOutputItem} {semantics : List ReplaySemantic}
    (h : itemSemantics item = some semantics) :
    (item.type = ascii "function_call" ∧ callIds semantics = [item.callId]) ∨
      (item.type ≠ ascii "function_call" ∧ callIds semantics = []) := by
  unfold itemSemantics at h
  split at h
  · rename_i htype
    exact .inr ⟨by rw [htype]; decide, callIds_messageSemantics h⟩
  split at h
  · rename_i htype
    obtain ⟨-, h⟩ := Option.ite_none_left_eq_some.mp h
    cases h
    exact .inr ⟨by rw [htype]; decide, callIds_textSemantic (by decide) _⟩
  split at h
  · rename_i htype
    obtain ⟨-, h⟩ := Option.ite_none_left_eq_some.mp h
    cases h
    exact .inl ⟨htype, rfl⟩
  · rename_i htype
    obtain ⟨-, h⟩ := Option.ite_none_right_eq_some.mp h
    cases h
    exact .inr ⟨htype, rfl⟩

/-- **An accepted item** makes the calls it means. -/
theorem readItem_spelled {raw : Value} {item : ResponsesOutputItem} {semantics : List ReplaySemantic}
    (hitem : decodeOutputItem raw = some item) (h : itemSemantics item = some semantics)
    (hspell : ItemSpelled raw) :
    callsIn [readItem raw] = callIds semantics ∧ outputsIn [readItem raw] = [] := by
  cases raw with
  | obj members =>
    obtain ⟨htype, hno, hid⟩ := hspell members rfl item hitem
    have hread : readItem (.obj members) = readMembers members := rfl
    rw [hread, readMembers, htype]
    rcases itemSemantics_cases h with ⟨hcall, hids⟩ | ⟨hcall, hids⟩
    · rw [if_pos hcall, hids, hid hcall]
      exact ⟨rfl, rfl⟩
    · rw [if_neg hcall, if_neg hno, hids]
      exact ⟨rfl, rfl⟩
  | null =>
    -- nothing decodes to an item without a type, which is not accepted
    cases hitem
    cases h
  | _ => cases hitem

theorem responseReplaySemantics_outlines : ∀ {raws : List Value} {pending : Bool}
    {semantics : List ReplaySemantic}, responseReplaySemantics pending raws = some semantics →
      (∀ raw ∈ raws, ItemSpelled raw) →
      callsIn (raws.map readItem) = callIds semantics ∧ outputsIn (raws.map readItem) = []
  | [], _, _, h, _ => by
    obtain ⟨-, h⟩ := Option.ite_none_left_eq_some.mp h
    cases h
    exact ⟨rfl, rfl⟩
  | raw :: raws, _, _, h, hspell => by
    obtain ⟨hraw, hraws⟩ := forall_mem_cons.mp hspell
    rw [responseReplaySemantics] at h
    split at h
    · cases h
    rename_i item hitem
    split at h
    · cases h
    rename_i first hfst
    obtain ⟨rest, hrest, rfl⟩ := Option.map_eq_some_iff.mp h
    obtain ⟨hcalls, houts⟩ := readItem_spelled hitem hfst hraw
    obtain ⟨hcalls', houts'⟩ := responseReplaySemantics_outlines hrest hraws
    rw [map_cons, ← singleton_append, callsIn_append, outputsIn_append, callIds_append,
      hcalls, hcalls', houts, houts']
    exact ⟨rfl, rfl⟩

theorem completeResponseReplay_outlines {source : ModelContext.Message}
    {content : List AssistantContentEntry} {target : ProviderReplayIdentity} {items : List Value}
    (h : completeResponseReplay source content target = some items)
    (hspell : ReplaySpelled source.providerReplay) :
    callsIn (items.map readItem) = (content.filterMap (·.result?)).map (·.providerCallId) ∧
      outputsIn (items.map readItem) = [] := by
  obtain ⟨-, h⟩ := Option.ite_none_left_eq_some.mp h
  split at h
  · cases h
  · cases h
  rename_i raws hne hraws
  split at h
  · rename_i replayed canonical hrepl hcanonical
    obtain ⟨hsame, h⟩ := Option.ite_none_right_eq_some.mp h
    cases h
    obtain ⟨hcalls, houts⟩ := responseReplaySemantics_outlines hrepl (hspell _ hraws)
    refine ⟨?_, houts⟩
    rw [hcalls, callIds_same hsame, callIds_canonical (by simp) hcanonical]
  · cases h

/-! ## Rebuilt items -/

section
variable {enc : Encodings}

theorem flushPending_other {pending : List Bytes} (h : ∀ raw ∈ pending, checkValid raw) :
    ∃ items, flushPending enc pending = .ok items ∧ ∀ item ∈ items, item.outline = .other := by
  unfold flushPending
  split
  · exact ⟨[], rfl, nofun⟩
  rw [marshalledParts, if_pos (all_eq_true.mpr h)]
  dsimp only
  split
  · exact ⟨[], rfl, nofun⟩
  · exact ⟨[], rfl, nofun⟩
  · refine ⟨_, rfl, fun item hitem => ?_⟩
    obtain rfl := mem_singleton.mp hitem
    rfl

theorem outlines_other {items : List InputItem} (h : ∀ item ∈ items, item.outline = .other) :
    callsIn (items.map InputItem.outline) = [] ∧ outputsIn (items.map InputItem.outline) = [] := by
  rw [map_congr_left h]
  constructor
  · simp [callsIn]
  · simp [outputsIn]

theorem canonicalAssistantItems_outlines : ∀ {content : List AssistantContentEntry}
    {pending : List Bytes}, (∀ raw ∈ pending, checkValid raw) →
      (∀ raw, .block raw ∈ content → checkValid raw) →
      ∃ items, canonicalAssistantItems enc pending content = .ok items ∧
        callsIn (items.map InputItem.outline) =
          (content.filterMap (·.result?)).map (·.providerCallId) ∧
        outputsIn (items.map InputItem.outline) = []
  | [], pending, hpend, _ => by
    obtain ⟨items, hitems, hoth⟩ := @flushPending_other enc _ hpend
    exact ⟨items, hitems, outlines_other hoth⟩
  | .block raw :: content, pending, hpend, hcont => by
    rw [canonicalAssistantItems]
    refine canonicalAssistantItems_outlines ?_ fun r hr => hcont r (mem_cons_of_mem _ hr)
    intro r hr
    rcases mem_append.mp hr with hr | hr
    · exact hpend r hr
    · rw [mem_singleton.mp hr]
      exact hcont raw mem_cons_self
  | .toolCall call :: content, pending, hpend, hcont => by
    obtain ⟨flushed, hflushed, hoth⟩ := @flushPending_other enc _ hpend
    obtain ⟨items, hitems, hcalls, houts⟩ := @canonicalAssistantItems_outlines content [] nofun
      fun r hr => hcont r (mem_cons_of_mem _ hr)
    obtain ⟨hno, hno'⟩ := outlines_other hoth
    have hcall : (InputItem.functionCall call.providerCallId call.name call.input).outline =
        .call call.providerCallId := rfl
    refine ⟨_, by rw [canonicalAssistantItems, hflushed]; dsimp only; rw [hitems]; rfl, ?_, ?_⟩
    · rw [map_append, callsIn_append, hno, map_cons, hcall, ← singleton_append,
        callsIn_append, hcalls]
      rfl
    · rw [map_append, outputsIn_append, hno', map_cons, hcall, ← singleton_append,
        outputsIn_append, houts]
      rfl

/-! ## Entries -/

variable {media : List (Bytes × ResolvedMedia)} {policy : RequestPolicy}
  {target : ProviderReplayIdentity} {messages : List ModelContext.Message} {entry : HistoryEntry}

/-- The items of a message make the calls of the entry's results and no output. -/
theorem messageItems_outlines (hin : EntryIn messages entry)
    (hspell : ReplaySpelled entry.message.providerReplay) :
    ∃ items, messageItems enc media policy target entry = .ok items ∧
      callsIn (items.map InputItem.outline) = entry.toolResults.map (·.providerCallId) ∧
      outputsIn (items.map InputItem.outline) = [] := by
  unfold messageItems
  rw [hin.results]
  rcases hin.role with hrole | ⟨hrole, hcont⟩
  · rw [hrole]
    unfold assistantResponseItems
    extract_lets replayed
    cases hrepl : replayed with
    | none => exact canonicalAssistantItems_outlines nofun hin.valid
    | some items =>
      obtain ⟨-, hrpl⟩ := Option.ite_none_right_eq_some.mp hrepl
      refine ⟨_, rfl, ?_⟩
      rw [map_map]
      exact completeResponseReplay_outlines hrpl hspell
  · rw [hrole, hcont]
    exact ⟨_, rfl, rfl, rfl⟩

/-- **The calls of an entry are answered** within it. -/
theorem entryItems_answered (hin : EntryIn messages entry)
    (hspell : ReplaySpelled entry.message.providerReplay)
    (hdist : (entry.toolResults.map (·.providerCallId)).Nodup) :
    ∃ items, entryItems enc media policy target entry = .ok items ∧
      EntryAnswered (items.map InputItem.outline) := by
  obtain ⟨items, hitems, hcalls, houts⟩ :=
    @messageItems_outlines enc media policy target _ _ hin hspell
  refine ⟨_, by rw [entryItems, hitems]; rfl, ?_⟩
  have hresults : (entry.toolResults.map (outputItem enc media)).map InputItem.outline =
      (entry.toolResults.map (·.providerCallId)).map .output := by
    rw [map_map, map_map]
    rfl
  rw [map_append, hresults]
  exact entryAnswered_append hcalls houts hdist

theorem mapM_entryItems : ∀ {history : List HistoryEntry},
    (∀ entry ∈ history, ∃ items, entryItems enc media policy target entry = .ok items ∧
      EntryAnswered (items.map InputItem.outline)) →
    ∃ entries, history.mapM (entryItems enc media policy target) = .ok entries ∧
      List.Forall₂ (fun entry items => entryItems enc media policy target entry = .ok items ∧
        EntryAnswered (items.map InputItem.outline)) history entries
  | [], _ => ⟨[], rfl, .nil⟩
  | entry :: history, h => by
    obtain ⟨⟨items, hitems, hanswered⟩, hrest⟩ := forall_mem_cons.mp h
    obtain ⟨entries, hents, hforall⟩ := mapM_entryItems hrest
    refine ⟨items :: entries, ?_, .cons ⟨hitems, hanswered⟩ hforall⟩
    rw [mapM_cons, hitems, hents]
    rfl

end

/-! ## Inputs -/

/-- **The input of a bundle**: the items of the entries, in their order, between items that are neither
calls nor outputs; every call is answered among the items of its entry. -/
theorem buildInput_calls {enc : Encodings} {bundle : Bundle} {history : List HistoryEntry}
    {policy : RequestPolicy} {target : ProviderReplayIdentity}
    (hhist : canonicalHistory bundle = .ok history)
    (hspell : ∀ m ∈ bundle.messages, ReplaySpelled m.providerReplay)
    (hdist : ∀ entry ∈ history, (entry.toolResults.map (·.providerCallId)).Nodup) :
    ∃ opening entries closing,
      buildInput enc bundle target policy = .ok (opening ++ entries.flatten ++ closing) ∧
      (∀ item ∈ opening ++ closing, item.outline = .other) ∧
      List.Forall₂ (fun entry items =>
        entryItems enc (renderableMedia bundle.resolvedMedia) policy target entry = .ok items ∧
        EntryAnswered (items.map InputItem.outline)) history entries := by
  obtain ⟨-, hof⟩ := canonicalHistory_ok_iff.mp hhist
  obtain ⟨entries, hents, hanswered⟩ := @mapM_entryItems enc
    (renderableMedia bundle.resolvedMedia) policy target history (by
      intro entry hent
      have hin := hof.entryIn entry hent
      refine entryItems_answered hin ?_ (hdist entry hent)
      rcases hin.message with hmsg | hnotice
      · exact hspell _ hmsg
      · rw [hnotice]
        nofun)
  refine ⟨_, entries, _, by rw [buildInput, hhist]; dsimp only; rw [hents], ?_, hanswered⟩
  intro item hitem
  rcases mem_append.mp hitem with hitem | hitem
  · obtain ⟨text, -, rfl⟩ := mem_map.mp hitem
    rfl
  · obtain ⟨text, -, rfl⟩ := mem_map.mp hitem
    rfl

end OpenAIResponses
