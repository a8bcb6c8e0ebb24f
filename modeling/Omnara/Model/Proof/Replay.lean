import Omnara.Model.Replay
import Omnara.ModelContext.Proof.History

/-!
# Replayed and stored outputs

`callIds_same`, `callIds_canonical`: a replay that is accepted makes the calls of the content, in their
order. `canonicalSemantics_stored`: the content a response is stored as means what the response's parts
mean, so a matcher accepts the response's own replay if it reads the same parts from it.
`valuesEqual_jsonb`: the comparison of inputs does not see that one of them has been in a `jsonb` column,
so the matcher may as well read the parts from the stored replay (`sameSemantics_stored`).
-/

namespace JsonCanonical

open Json
open List
open Model (JsonbNumbers)

theorem lookup_reverse_eq_none {key : Bytes} {members : Members} :
    members.reverse.lookup key = none ↔ key ∉ members.map Prod.fst := by
  simp [lookup_eq_none_iff]
  grind

/-- Every entry of the map on the left has its equal on the right. -/
theorem membersEqual_iff {right : Members} : ∀ {left : Members}, membersEqual left right ↔
    ∀ key value, left.reverse.lookup key = some value →
      ∃ other ∈ right.reverse.lookup key, valuesEqual value other
  | [] => by simp [membersEqual]
  | (key, value) :: rest => by
    have hany : rest.any (·.1 == key) ↔ rest.reverse.lookup key ≠ none := by
      rw [Ne, lookup_reverse_eq_none]
      simp
    rw [membersEqual, Bool.and_eq_true, Bool.or_eq_true]
    refine (and_congr (or_congr hany (d := ∃ other ∈ right.reverse.lookup key, valuesEqual value other)
      ?_) membersEqual_iff).trans ⟨?_, ?_⟩
    · cases right.reverse.lookup key <;> simp
    · rintro ⟨hkey, hrest⟩ other found hlookup
      rw [lookup_reverse_cons] at hlookup
      rcases Option.or_eq_some_iff.mp hlookup with hlookup | ⟨hnone, hself⟩
      · exact hrest other found hlookup
      · obtain ⟨hbeq, hself⟩ := Option.ite_none_right_eq_some.mp hself
        obtain rfl := Option.some.inj hself
        obtain rfl := beq_iff_eq.mp hbeq
        exact hkey.resolve_left (not_not.mpr hnone)
    · intro h
      refine ⟨or_iff_not_imp_left.mpr fun hnone => h key value ?_, fun other found hlookup => ?_⟩
      · rw [lookup_reverse_cons, not_not.mp hnone]
        simp
      · refine h other found ?_
        rw [lookup_reverse_cons, hlookup]
        rfl

theorem nodup_eraseDups : ∀ keys : List Bytes, keys.eraseDups.Nodup
  | [] => nodup_nil
  | key :: keys => by
    rw [eraseDups_cons, nodup_cons, mem_eraseDups]
    exact ⟨by simp, nodup_eraseDups _⟩
termination_by keys => keys.length
decreasing_by exact Nat.lt_succ_of_le (length_filter_le _ _)

theorem keyCount_congr {left right : Members}
    (h : ∀ key, left.reverse.lookup key = none ↔ right.reverse.lookup key = none) :
    keyCount left = keyCount right := by
  refine ((perm_ext_iff_of_nodup (nodup_eraseDups _) (nodup_eraseDups _)).mpr fun key => ?_).length_eq
  rw [mem_eraseDups, mem_eraseDups]
  simpa only [lookup_reverse_eq_none, not_iff_not] using h key

variable (numbers : JsonbNumbers)

theorem lookup_jsonbMembers (members : Members) (key : Bytes) :
    (jsonbMembers numbers.write members).reverse.lookup key =
      (members.reverse.lookup key).map (jsonb numbers.write) := by
  rw [lookup_mapBy, lookup_reorderMembers]

theorem numbersEqual_write {left right : Bytes} (h : numbersEqual left right) :
    numbersEqual (numbers.write left) right := by
  unfold numbersEqual at h ⊢
  split at h
  · rename_i l r hl hr
    rw [numbers.value left l hl, hr]
    exact h
  · cases h

mutual

theorem valuesEqual_jsonb : ∀ {value other : Value}, valuesEqual value other →
    valuesEqual (jsonb numbers.write value) other
  | .null, other, h | .bool _, other, h | .str _, other, h => by
    rw [jsonb, reorder] <;> first | exact h | nofun
  | .num literal, other, h => by
    cases other with
    | num right =>
      rw [valuesEqual] at h
      rw [jsonb, reorder, valuesEqual]
      exact numbersEqual_write numbers h
    | _ => cases h
  | .arr items, other, h => by
    cases other with
    | arr others =>
      rw [valuesEqual] at h
      rw [jsonb, reorder, valuesEqual]
      exact itemsEqual_jsonb h
    | _ => cases h
  | .obj members, other, h => by
    cases other with
    | obj others =>
      rw [valuesEqual, Bool.and_eq_true, beq_iff_eq, membersEqual_iff] at h
      rw [jsonb, reorder, valuesEqual, Bool.and_eq_true, beq_iff_eq, membersEqual_iff]
      refine ⟨Eq.trans (keyCount_congr fun key => ?_) h.1, fun key stored hstored => ?_⟩
      · rw [lookup_jsonbMembers, Option.map_eq_none_iff]
      · rw [lookup_jsonbMembers] at hstored
        obtain ⟨value, hvalue, rfl⟩ := Option.map_eq_some_iff.mp hstored
        obtain ⟨found, hfound, heq⟩ := h.2 key value hvalue
        obtain ⟨front, back, hsplit, -⟩ := lookup_eq_some_iff.mp hvalue
        have hmem : (key, value) ∈ members := by
          rw [← mem_reverse, hsplit]
          simp
        exact ⟨found, hfound, memberEqual_jsonb members (key, value) hmem heq⟩
    | _ => cases h

theorem itemsEqual_jsonb : ∀ {items others : List Value}, itemsEqual items others →
    itemsEqual (reorderItems shorter numbers.write items) others
  | [], others, h => by
    rw [reorderItems]
    exact h
  | item :: items, [], h => by cases h
  | item :: items, other :: others, h => by
    rw [itemsEqual, Bool.and_eq_true] at h
    rw [reorderItems, itemsEqual, Bool.and_eq_true]
    exact ⟨valuesEqual_jsonb h.1, itemsEqual_jsonb h.2⟩

theorem memberEqual_jsonb : ∀ (members : Members) (m : Bytes × Value), m ∈ members →
    ∀ {other : Value}, valuesEqual m.2 other → valuesEqual (jsonb numbers.write m.2) other
  | (key, value) :: rest, m, hm, other, h => by
    rcases mem_cons.mp hm with rfl | hm
    · exact valuesEqual_jsonb h
    · exact memberEqual_jsonb rest m hm h

end

end JsonCanonical

namespace Model

open Json (Bytes Value ascii)
open ModelContext (AssistantContentEntry)
open Text (trimSpace)

variable {media : Option ReplaySemantic}

theorem callIds_cons (s : ReplaySemantic) (semantics : List ReplaySemantic) :
    callIds (s :: semantics) =
      (if s.kind = .toolCall then [s.callId] else []) ++ callIds semantics := by
  unfold callIds
  split <;> simp_all

theorem callIds_append (left right : List ReplaySemantic) :
    callIds (left ++ right) = callIds left ++ callIds right := List.filterMap_append ..

theorem callIds_textSemantic {kind : SemanticKind} (hkind : kind ≠ .toolCall) (text : Bytes) :
    callIds (textSemantic kind text) = [] := by
  unfold textSemantic
  split
  · rfl
  · rw [callIds_cons, if_neg hkind]
    rfl

theorem callIds_same : ∀ {lefts rights : List ReplaySemantic}, sameSemantics lefts rights →
    callIds lefts = callIds rights
  | [], [], _ => rfl
  | left :: lefts, right :: rights, h => by
    rw [sameSemantics, Bool.and_eq_true] at h
    have hsame := h.1
    simp only [sameSemantic, Bool.and_eq_true, beq_iff_eq] at hsame
    obtain ⟨⟨⟨⟨hkind, -⟩, hcall⟩, -⟩, -⟩ := hsame
    rw [callIds_cons, callIds_cons, hkind, hcall, callIds_same h.2]
  | [], _ :: _, h => by cases h
  | _ :: _, [], h => by cases h

theorem callIds_canonical (hmedia : ∀ s ∈ media, s.kind ≠ .toolCall) :
    ∀ {content : List AssistantContentEntry} {semantics : List ReplaySemantic},
      canonicalSemantics media content = some semantics →
      callIds semantics = (content.filterMap (·.result?)).map (·.providerCallId)
  | [], _, h => by cases h; rfl
  | entry :: content, semantics, h => by
    rw [canonicalSemantics, List.mapM_cons] at h
    obtain ⟨s, hs, hrest⟩ := Option.bind_eq_some_iff.mp h
    obtain ⟨rest, htail, hsem⟩ := Option.bind_eq_some_iff.mp hrest
    cases hsem
    rw [callIds_cons, callIds_canonical hmedia htail]
    cases entry with
    | toolCall call =>
      obtain ⟨-, hs⟩ := Option.ite_none_right_eq_some.mp hs
      cases hs
      rfl
    | block raw =>
      have hkind : s.kind ≠ .toolCall := by
        rw [canonicalSemantic] at hs
        split at hs
        · cases hs
        dsimp only at hs
        split at hs
        · cases hs
          nofun
        split at hs
        · cases hs
          nofun
        split at hs
        · exact hmedia s hs
        · cases hs
      rw [if_neg hkind]
      rfl

/-! ## Storage -/

structure ResponsePart.Plain (part : ResponsePart) : Prop where
  type : part.type ≠ .error
  input : part.type = .toolCall → ∃ members, part.toolInput = some (.obj members)

theorem newToolCallPart_plain (id name : Bytes) (input : Option Value) :
    (newToolCallPart id name input).Plain where
  type := nofun
  input := by
    intro _
    obtain ⟨members, hmems⟩ := keptInput_obj input
    exact ⟨members, congrArg some hmems⟩

theorem newToolCallPart_id {id name : Bytes} {input : Option Value}
    (h : trimSpace (newToolCallPart id name input).providerCallId ≠ []) :
    (newToolCallPart id name input).providerCallId = id := by
  unfold newToolCallPart at h ⊢
  split
  · rfl
  · rename_i hbl
    rw [if_neg hbl] at h
    exact absurd rfl h

theorem inputValue_keptArguments (arguments : Bytes) :
    inputValue (keptArguments arguments) = some (keptInput (inputValue arguments)) := by
  have htrim : trimSpace (keptArguments arguments) = keptArguments arguments := by
    unfold keptArguments
    split
    · exact Text.trimSpace_trimSpace arguments
    · rfl
  rw [inputValue, htrim, decode_keptArguments]

theorem newToolCallPart_name (id name : Bytes) (input : Option Value) :
    (newToolCallPart id name input).toolName ≠ [] := by
  unfold newToolCallPart
  dsimp only
  split
  · decide
  · rename_i hbl
    intro hnil
    exact hbl (by rw [hnil]; rfl)

theorem kept_of_text {type : ResponsePartType} {text : Bytes} (htext : text ≠ [])
    (htype : type ≠ .error ∧ type ≠ .toolCall) :
    ResponsePart.kept { type := type, text := text } ∧
      ResponsePart.Plain { type := type, text := text } :=
  ⟨by simpa [ResponsePart.kept] using .inr htext, htype.1, fun h => absurd h htype.2⟩

theorem textPart_kept {type : ResponsePartType} (htype : type ≠ .error ∧ type ≠ .toolCall)
    (text : Bytes) : ∀ part ∈ textPart type text, part.kept ∧ part.Plain := by
  intro part hpart
  unfold textPart at hpart
  split at hpart
  · cases hpart
  · rename_i htext
    obtain rfl := List.mem_singleton.mp hpart
    exact kept_of_text htext htype

theorem map_semantic_textPart (text : Bytes) :
    (textPart .reasoning text).map ResponsePart.semantic = textSemantic .reasoning text ∧
      (textPart .text text).map ResponsePart.semantic = textSemantic .text text := by
  unfold textPart textSemantic
  split <;> exact ⟨rfl, rfl⟩

theorem equal_obj {left : Json.Members} {right : Option Value}
    (h : JsonCanonical.equal (some (.obj left)) right) : ∃ members, right = some (.obj members) := by
  unfold JsonCanonical.equal at h
  split at h
  · rename_i l r hl
    cases hl
    cases r with
    | obj members => exact ⟨members, rfl⟩
    | _ => cases h
  · cases h

theorem canonicalSemantic_stored {part : ResponsePart} {entry : AssistantContentEntry}
    (hpl : part.Plain) (h : StoredPart part entry) :
    ∃ s, canonicalSemantic media entry = some s ∧ sameSemantic part.semantic s := by
  cases entry with
  | block content =>
    obtain ⟨htype, fields, hflds, hkind, htext⟩ := h
    rw [canonicalSemantic, Option.mem_def.mp hflds]
    cases hpart : part.type with
    | text =>
      rw [hpart] at hkind
      refine ⟨{ kind := .text, text := part.text }, ?_, ?_⟩
      · simp only [hkind, htext, blockType, if_true]
      · simp [sameSemantic, ResponsePart.semantic, hpart]
    | reasoning =>
      rw [hpart] at hkind
      refine ⟨{ kind := .reasoning, text := part.text }, ?_, ?_⟩
      · have hne : ascii "reasoning" ≠ ascii "text" := by decide
        simp only [hkind, htext, blockType, if_neg hne, if_true]
      · simp [sameSemantic, ResponsePart.semantic, hpart]
    | error => exact absurd hpart hpl.type
    | toolCall => exact absurd hpart htype
  | toolCall call =>
    obtain ⟨htype, hid, hname, htrim, hinp⟩ := h
    obtain ⟨members, hmems⟩ := hpl.input htype
    rw [hmems] at hinp
    obtain ⟨stored, hstored⟩ := equal_obj hinp
    have hv : inputValue call.input = some (.obj stored) := by rw [inputValue, htrim, hstored]
    refine ⟨⟨.toolCall, [], call.providerCallId, call.name, Json.decode call.input⟩, ?_, ?_⟩
    · rw [canonicalSemantic, hv]
      rfl
    · simp [sameSemantic, ResponsePart.semantic, htype, hid, hname, hmems, hinp]

/-- **The stored content means what the parts mean.** -/
theorem canonicalSemantics_stored :
    ∀ {parts : List ResponsePart} {content : List AssistantContentEntry},
      (∀ part ∈ parts, part.Plain) → List.Forall₂ StoredPart parts content →
      ∃ canonical, canonicalSemantics media content = some canonical ∧
        sameSemantics (parts.map ResponsePart.semantic) canonical
  | [], _, _, .nil => ⟨[], rfl, rfl⟩
  | part :: parts, entry :: content, hpl, .cons hent hcont => by
    obtain ⟨s, hs, hsame⟩ := @canonicalSemantic_stored media _ _ (hpl part List.mem_cons_self) hent
    obtain ⟨rest, hrest, hsames⟩ :=
      canonicalSemantics_stored (fun p hp => hpl p (List.mem_cons_of_mem _ hp)) hcont
    refine ⟨s :: rest, ?_, ?_⟩
    · unfold canonicalSemantics at hrest ⊢
      rw [List.mapM_cons, hs, hrest]
      rfl
    · rw [List.map_cons, sameSemantics, hsame, hsames]
      rfl

/-! ## Stored replays -/

/-- The meaning with its input as it comes back from the column. -/
def ReplaySemantic.stored (numbers : JsonbNumbers) (s : ReplaySemantic) : ReplaySemantic :=
  { s with input := s.input.map (Json.jsonb numbers.write) }

theorem sameSemantics_stored (numbers : JsonbNumbers) : ∀ {lefts rights : List ReplaySemantic},
    sameSemantics lefts rights → sameSemantics (lefts.map (·.stored numbers)) rights
  | [], [], _ => rfl
  | left :: lefts, right :: rights, h => by
    rw [sameSemantics, Bool.and_eq_true] at h
    rw [List.map_cons, sameSemantics, Bool.and_eq_true]
    refine ⟨?_, sameSemantics_stored numbers h.2⟩
    have hsame := h.1
    simp only [sameSemantic, Bool.and_eq_true, Bool.or_eq_true] at hsame ⊢
    refine ⟨hsame.1, hsame.2.imp_right fun hequal => ?_⟩
    unfold JsonCanonical.equal at hequal ⊢
    split at hequal
    · rename_i l r hl hr
      rw [ReplaySemantic.stored, hl, hr]
      exact JsonCanonical.valuesEqual_jsonb numbers hequal
    · cases hequal
  | [], _ :: _, h => by cases h
  | _ :: _, [], h => by cases h

/-- A stored output with its replay, for the runs. -/
def storedOutput (identity : ModelContext.ProviderReplayIdentity) (replay : String) :
    ModelContext.Message where
  id := ascii "m1"
  role := .assistant
  sequence := 1
  content := []
  providerReplay := ascii replay
  providerReplaySource := identity

/-- A call of the output that was stored, with its result. -/
def storedCall (toolCallId callId : String) : ModelContext.ToolResultRef where
  toolCallId := ascii toolCallId
  durableId := []
  modelCallContextId := ascii "m1"
  providerCallId := ascii callId
  name := ascii "run"
  input := ascii r#"{}"#
  contentParts := ascii "[]"

end Model
