import Omnara.OpenAIChatCompletions.Proof.Request

/-!
# A chat completion is replayed after it has been stored

A message that is kept for the replay is written from the fields the parser reads, so it reads back as
written (`readChatMessage_value`), with its calls in a normal form (`ChatToolCall.Normal`) that the replay
check leaves alone. `chatReplaySemantics_keptMessage`: the written message means what the parts of the
response mean, and the stored content means the same (`canonicalSemantics_stored`). In its stored form the
message reads back with the same fields (`readChatMessage_jsonb`, `stored_keptMessage`). A message that is
not kept is rebuilt from its text (`rebuiltMessages_text`).
-/

namespace OpenAIChatCompletions

open Json
open Model List
open ModelContext
open Text (trimSpace)

variable {message : ChatResponseMessage} {call : ChatToolCall} {parts : List ResponsePart}
  {replay : Option Value} {text : Bytes}

/-! ## Reading what is written -/

theorem decodeChatToolCall_value (call : ChatToolCall) :
    decodeChatToolCall call.value = some call := by
  have hname : stringField (optionalText "name" call.name ++ optionalText "arguments" call.arguments)
      "name" = some call.name := by
    refine stringField_of_optionalText ?_
    simp (disch := decide) only [fieldMembers_append, fieldMembers_optional_self,
      fieldMembers_optional_of_ne, List.append_nil]
  have hargs : laxStringField (optionalText "name" call.name ++
      optionalText "arguments" call.arguments) "arguments" = call.arguments := by
    refine laxStringField_of_optionalText ?_
    simp (disch := decide) only [fieldMembers_append, fieldMembers_optional_self,
      fieldMembers_optional_of_ne, nil_append]
  have hfields : ∀ function, let members := [(ascii "id", .str call.id), (ascii "type", .str call.type),
      (ascii "function", .obj function)]
      structField members "function" = some function ∧ stringField members "id" = some call.id ∧
        stringField members "type" = some call.type := fun _ => ⟨rfl, rfl, rfl⟩
  simp [decodeChatToolCall, ChatToolCall.value, structMembers, hfields, hname, hargs]

/-- The names of the members a message is read from. -/
def messageNames : List String :=
  ["role", "content", "refusal", "reasoning", "reasoning_content", "reasoning_details", "tool_calls"]

theorem readChatMessage_value {content : Value} (hcont : message.content = some content) :
    ∃ members, message.value = .obj members ∧ PlainNames messageNames members ∧
      readChatMessage members = some message := by
  refine ⟨_, rfl, ?_⟩
  rw [hcont, Option.getD_some]
  generalize hmems : [(ascii "role", Value.str message.role), (ascii "content", content)] ++
    optionalText "refusal" message.refusal ++ optionalText "reasoning" message.reasoning ++
    optionalText "reasoning_content" message.reasoningContent ++
    optionalList "reasoning_details" message.reasoningDetails ++
    optionalList "tool_calls" message.toolCalls = members
  -- no two of the names fold to the same one
  have hflds : fieldMembers members "role" = [(ascii "role", .str message.role)] ∧
      fieldMembers members "content" = [(ascii "content", content)] ∧
      fieldMembers members "refusal" = optionalText "refusal" message.refusal ∧
      fieldMembers members "reasoning" = optionalText "reasoning" message.reasoning ∧
      fieldMembers members "reasoning_content" =
        optionalText "reasoning_content" message.reasoningContent ∧
      fieldMembers members "reasoning_details" =
        optionalList "reasoning_details" message.reasoningDetails ∧
      fieldMembers members "tool_calls" = optionalList "tool_calls" message.toolCalls := by
    rw [cons_append, ← singleton_append] at hmems
    simp (disch := decide) only [← hmems, fieldMembers_append, fieldMembers_cons_self,
      fieldMembers_cons_of_ne, fieldMembers_optional_self, fieldMembers_optional_of_ne,
      List.append_nil, nil_append, and_self]
  obtain ⟨hrole, hraw, hrefusal, hreas, hreasoningContent, hdet, hcalls⟩ := hflds
  constructor
  · have hkeys : ∀ name empty value,
        (optionalMember name empty value).map Prod.fst ∈ [[], [ascii name]] := by
      intro name empty value
      cases empty <;> simp [optionalMember]
    simp only [PlainNames, messageNames, forall_mem_cons, hrole, hraw, hrefusal, hreas,
      hreasoningContent, hdet, hcalls, hkeys]
    simp
  · simp only [readChatMessage, stringField_of_single hrole, rawField, fieldValues, hraw,
      stringField_of_optionalText hrefusal, stringField_of_optionalText hreas,
      stringField_of_optionalText hreasoningContent, listField_of_optionalList hdet,
      listField_of_optionalList hcalls, Option.bind_eq_bind, Option.bind_some, Option.pure_def]
    rw [map_singleton, List.getLast?_singleton, ← hcont]

/-! ## Calls in normal form -/

/-- A call that `chatReplayForRequest` writes as it is. -/
structure ChatToolCall.Normal (call : ChatToolCall) : Prop where
  type : call.type = ascii "function"
  id : call.id ≠ []
  name : call.name ≠ []
  input : validToolInput (inputValue call.arguments)
  trimmed : trimSpace call.arguments = call.arguments

theorem replayToolCall_normal {raw : Value} (h : replayToolCall raw = .ok call) : call.Normal := by
  obtain ⟨decoded, -, htype, hid, hname, hval, rfl⟩ := replayToolCall_ok h
  have htrimmed := Text.trimSpace_trimSpace decoded.arguments
  refine ⟨htype, hid, hname, ?_, htrimmed⟩
  unfold inputValue at hval ⊢
  rw [htrimmed]
  exact hval

theorem ChatToolCall.Normal.replayToolCall (h : call.Normal) : replayToolCall call.value = .ok call := by
  unfold OpenAIChatCompletions.replayToolCall
  rw [decodeChatToolCall_value]
  dsimp only
  rw [if_neg (by simp [h.type, h.id, h.name]), normalizeToolInput, if_pos h.input, h.trimmed]

theorem ChatToolCall.Normal.toolCallSemantic (h : call.Normal) :
    toolCallSemantic call.value =
      some ⟨.toolCall, [], call.id, call.name, decode call.arguments⟩ := by
  unfold OpenAIChatCompletions.toolCallSemantic
  rw [decodeChatToolCall_value]
  dsimp only
  rw [if_neg (by simp [h.type, h.id, h.name, h.input])]

/-- **A call that is kept** for the replay means what the part of the call means. -/
theorem replayToolCall_parsed {raw : Value} {part : ResponsePart} {kept : ChatToolCall}
    (hpar : parseToolCall raw = .ok (part, call)) (hkept : replayToolCall call.value = .ok kept)
    (hid : trimSpace part.providerCallId ≠ []) :
    kept.Normal ∧ part.kept ∧ part.Plain ∧ part.type = .toolCall ∧
      OpenAIChatCompletions.toolCallSemantic kept.value = some part.semantic := by
  have hnorm := replayToolCall_normal hkept
  obtain ⟨decoded, hdecoded, -, -, -, -, rfl⟩ := replayToolCall_ok hkept
  rw [decodeChatToolCall_value] at hdecoded
  cases hdecoded
  unfold parseToolCall at hpar
  split at hpar
  · cases hpar
  rename_i read hread
  cases hpar
  refine ⟨hnorm, rfl, newToolCallPart_plain _ _ _, rfl, ?_⟩
  have hinp : decode (trimSpace (keptArguments read.arguments)) = _ :=
    inputValue_keptArguments read.arguments
  rw [hnorm.toolCallSemantic, ResponsePart.semantic, hinp, newToolCallPart_id hid]
  rfl

theorem replayToolCalls_parsed : ∀ {raws : List Value} {calls : List (ResponsePart × ChatToolCall)}
    {kept : List ChatToolCall}, raws.mapM parseToolCall = .ok calls →
      (calls.map fun call => call.2.value).mapM replayToolCall = .ok kept →
      (∀ call ∈ calls, trimSpace call.1.providerCallId ≠ []) →
      (∀ call ∈ kept, call.Normal) ∧
      (∀ call ∈ calls, call.1.kept ∧ call.1.Plain ∧ call.1.type = .toolCall) ∧
      (kept.map ChatToolCall.value).mapM toolCallSemantic =
        some (calls.map fun call => call.1.semantic)
  | [], _, _, hcalls, hkept, _ => by
    cases hcalls
    cases hkept
    exact ⟨nofun, nofun, rfl⟩
  | raw :: raws, _, _, hcalls, hkept, hids => by
    obtain ⟨⟨part, call⟩, calls, hcall, hrest, rfl⟩ := Fallible.mapM_cons_ok hcalls
    obtain ⟨first, kept, hfst, hrest', rfl⟩ := Fallible.mapM_cons_ok hkept
    obtain ⟨hid, hids⟩ := forall_mem_cons.mp hids
    obtain ⟨hnorm, hpart, hpl, htype, hsem⟩ := replayToolCall_parsed hcall hfst hid
    obtain ⟨hnormals, hpts, hsems⟩ := replayToolCalls_parsed hrest hrest' hids
    refine ⟨forall_mem_cons.mpr ⟨hnorm, hnormals⟩,
      forall_mem_cons.mpr ⟨⟨hpart, hpl, htype⟩, hpts⟩, ?_⟩
    rw [map_cons, mapM_cons, hsem, hsems]
    rfl

theorem replayToolCalls_normal : ∀ {calls : List ChatToolCall}, (∀ call ∈ calls, call.Normal) →
    (calls.map ChatToolCall.value).mapM replayToolCall = .ok calls
  | [], _ => rfl
  | call :: calls, h => by
    obtain ⟨hcall, hcalls⟩ := forall_mem_cons.mp h
    rw [map_cons, mapM_cons, hcall.replayToolCall, replayToolCalls_normal hcalls]
    rfl

/-! ## Messages -/

theorem textFromChatContent_getD (content : Option Value) :
    textFromChatContent (some (content.getD .null)) = textFromChatContent content := by
  cases content <;> rfl

theorem parseToolCalls_type : ∀ {raws : List Value} {calls : List (ResponsePart × ChatToolCall)},
    raws.mapM parseToolCall = .ok calls → ∀ part ∈ calls.map Prod.fst, part.type = .toolCall
  | [], _, h => by
    cases h
    nofun
  | raw :: raws, _, h => by
    obtain ⟨⟨part, call⟩, calls, hcall, hrest, rfl⟩ := Fallible.mapM_cons_ok h
    refine forall_mem_cons.mpr ⟨?_, parseToolCalls_type hrest⟩
    unfold parseToolCall at hcall
    split at hcall
    · cases hcall
    · cases hcall
      rfl

theorem filter_toolCall_parts (reasoning text : Bytes) {calls : List ResponsePart}
    (h : ∀ part ∈ calls, part.type = .toolCall) :
    (textPart .reasoning reasoning ++ textPart .text text ++ calls).filter (·.type = .toolCall) =
      calls := by
  have htext : ∀ type text, type ≠ .toolCall →
      (textPart type text).filter (·.type = .toolCall) = [] := by
    intro type text htype
    unfold textPart
    split
    · rfl
    · exact filter_cons_of_neg (by simpa using htype)
  rw [filter_append, filter_append, htext _ _ (by decide), htext _ _ (by decide),
    filter_eq_self.mpr fun part hpart => decide_eq_true (h part hpart)]
  rfl

/-- The text of a message: its content, or its refusal if that is empty. -/
def shownText (message : ChatResponseMessage) (text : Bytes) : Bytes :=
  if text = [] then message.refusal else text

theorem parseMessage_ok (h : parseMessage message = .ok (parts, replay)) :
    ∃ text calls, textFromChatContent message.content = .ok text ∧
      message.toolCalls.mapM parseToolCall = .ok calls ∧
      parts = textPart .reasoning (reasoningTextFromChatMessage message) ++
        textPart .text (shownText message text) ++ calls.map Prod.fst ∧
      if chatMessageHasReasoningReplay message ∨ calls ≠ [] then
        ∃ value, replay = some value ∧ chatReplayForRequest { message with
          toolCalls := calls.map fun call => call.2.value } = .ok value
      else replay = none := by
  unfold parseMessage at h
  split at h
  · cases h
  rename_i text htext
  dsimp only at h
  split at h
  · cases h
  rename_i calls hcalls
  refine ⟨text, calls, htext, hcalls, ?_⟩
  split at h
  · rename_i hhas
    rw [if_pos (by simpa using hhas)]
    split at h
    · cases h
    · rename_i value hv
      cases h
      exact ⟨rfl, value, rfl, hv⟩
  · rename_i hhas
    rw [if_neg (by simpa using hhas)]
    cases h
    exact ⟨rfl, rfl⟩

/-- The message that is kept for the replay, with its calls. -/
def keptMessage (message : ChatResponseMessage) (calls : List ChatToolCall) : ChatResponseMessage :=
  { message with
    role := ascii "assistant"
    content := some (message.content.getD .null)
    toolCalls := calls.map ChatToolCall.value }

/-- The assistant's message of a request that replays the message. -/
def replayedMessage (message : ChatResponseMessage) : ChatMessage :=
  { role := .assistant, providerReplay := some message.value }

theorem chatReplayForRequest_keptMessage (message : ChatResponseMessage) {calls : List ChatToolCall}
    (hcalls : ∀ call ∈ calls, call.Normal) :
    chatReplayForRequest (keptMessage message calls) = .ok (keptMessage message calls).value := by
  have hrole : (if ascii "assistant" = [] then ascii "assistant" else ascii "assistant") =
      ascii "assistant" := ite_self _
  unfold chatReplayForRequest keptMessage
  rw [hrole, if_neg (not_not.mpr rfl), replayToolCalls_normal hcalls]
  rfl

theorem chatReplaySemantics_keptMessage
    {calls : List ChatToolCall} {semantics : List ReplaySemantic}
    (htext : textFromChatContent message.content = .ok text)
    (hcalls : (calls.map ChatToolCall.value).mapM toolCallSemantic = some semantics) :
    chatReplaySemantics (keptMessage message calls) =
      some (textSemantic .reasoning (reasoningTextFromChatMessage message) ++
        textSemantic .text (shownText message text) ++ semantics) := by
  unfold chatReplaySemantics keptMessage
  dsimp only
  rw [if_neg (by decide), textFromChatContent_getD, htext]
  rw [hcalls]
  rfl

theorem completeChatReplay_eq {source : ModelContext.Message} {content : List AssistantContentEntry}
    {target : ProviderReplayIdentity} {replay : Value}
    {replayed canonical : List ReplaySemantic}
    (hsrc : identityMatches source.providerReplaySource target)
    (hmsg : ((decode source.providerReplay).bind structMembers).bind readChatMessage =
      some message)
    (hrepl : chatReplaySemantics message = some replayed)
    (hcanonical : canonicalSemantics (some { kind := .media }) content = some canonical)
    (hsame : sameSemantics replayed canonical) (hrpl : chatReplayForRequest message = .ok replay) :
    completeChatReplay source content target =
      some { role := .assistant, providerReplay := some replay } := by
  unfold completeChatReplay
  rw [if_neg (by simpa using hsrc), hmsg]
  dsimp only
  rw [hrepl, hcanonical]
  dsimp only
  rw [if_pos hsame, hrpl]

/-! ## Stored messages -/

/-- The text parts and the reasoning details of a message have each of the members that are read at most
once, in this spelling. -/
structure ChatResponseMessage.PlainParts (message : ChatResponseMessage) : Prop where
  content : ∀ content ∈ message.content, ∀ items ∈ listItems content, ∀ item ∈ items,
    ∀ members ∈ structMembers item, PlainNames ["type", "text", "refusal"] members
  details : ∀ detail ∈ message.reasoningDetails, ∀ members ∈ structMembers detail,
    PlainNames ["type", "summary", "text"] members

instance (message : ChatResponseMessage) : Decidable message.PlainParts :=
  decidable_of_iff (_ ∧ _)
    ⟨fun ⟨content, details⟩ => ⟨content, details⟩, fun h => ⟨h.content, h.details⟩⟩

section
variable (numbers : JsonbNumbers)

/-- The message that is read from the stored one. -/
def ChatResponseMessage.stored (message : ChatResponseMessage) : ChatResponseMessage :=
  { message with
    content := message.content.map (jsonb numbers.write)
    reasoningDetails := message.reasoningDetails.map (jsonb numbers.write)
    toolCalls := message.toolCalls.map (jsonb numbers.write) }

theorem readChatMessage_jsonb {members : Members} (hpl : PlainNames messageNames members) :
    readChatMessage (jsonbMembers numbers.write members) =
      (readChatMessage members).map (·.stored numbers) := by
  unfold readChatMessage
  simp (disch := decide) only [hpl.stringField_jsonb, hpl.rawField_jsonb, hpl.listField_jsonb,
    Option.bind_eq_bind, Option.map_bind, Option.bind_map, Function.comp_def, Option.pure_def,
    Option.map_some, ChatResponseMessage.stored]

theorem textFromChatContent_jsonb (hpl : message.PlainParts) :
    textFromChatContent (message.content.map (jsonb numbers.write)) =
      textFromChatContent message.content := by
  cases hcont : message.content with
  | none => rfl
  | some content =>
    cases content with
    | arr items =>
      have hread : (items.map (jsonb numbers.write)).mapM (fun item =>
          (structMembers item).bind readChatTextPart) =
          items.mapM fun item => (structMembers item).bind readChatTextPart := by
        rw [mapM_map]
        refine Fallible.mapM_congr fun item hitem => ?_
        rw [Function.comp_apply, structMembers_jsonb]
        cases hmems : structMembers item with
        | none => rfl
        | some members =>
          have hpart := hpl.content _ hcont items rfl item hitem members hmems
          simp (disch := decide) only [Option.map_some, Option.bind_some, readChatTextPart,
            hpart.stringField_jsonb]
      rw [Option.map_some, jsonb, reorder, reorderItems_eq, textFromChatContent,
        textFromChatContent, hread]
    | _ => simp [reorder, textFromChatContent]

theorem reasoningText_stored (hpl : message.PlainParts) :
    reasoningTextFromChatMessage (message.stored numbers) = reasoningTextFromChatMessage message := by
  have hdet : (message.reasoningDetails.map (jsonb numbers.write)).map detailText =
      message.reasoningDetails.map detailText := by
    rw [map_map]
    refine map_congr_left fun detail hdetail => ?_
    unfold detailText
    rw [Function.comp_apply, structMembers_jsonb]
    cases hmems : structMembers detail with
    | none => rfl
    | some members =>
      have hplain := hpl.details detail hdetail members hmems
      simp (disch := decide) only [Option.map_some, hplain.stringField_jsonb]
  unfold reasoningTextFromChatMessage reasoningTextFromDetails ChatResponseMessage.stored
  rw [hdet]

/-- The members of a call stand in the order of the column, and its values are texts. -/
theorem jsonb_value (call : ChatToolCall) : jsonb numbers.write call.value = call.value := by
  unfold ChatToolCall.value optionalText optionalMember
  split <;> split <;> rfl

theorem stored_keptMessage (message : ChatResponseMessage) (calls : List ChatToolCall) :
    (keptMessage message calls).stored numbers = keptMessage (message.stored numbers) calls := by
  have hcont : jsonb numbers.write (message.content.getD .null) =
      (message.content.map (jsonb numbers.write)).getD .null := by
    cases message.content <;> simp [reorder]
  have hcalls : (calls.map ChatToolCall.value).map (jsonb numbers.write) =
      calls.map ChatToolCall.value := by
    rw [map_map]
    exact map_congr_left fun call _ => jsonb_value numbers call
  simp only [keptMessage, ChatResponseMessage.stored, Option.map_some, hcont, hcalls]

end

/-! ## Messages that are not kept -/

theorem partFields_valid {raw : Bytes} {fields : ModelContext.Fields}
    (h : fields ∈ partFields raw) : checkValid raw := by
  obtain ⟨parsed, hparsed, -⟩ := Option.map_eq_some_iff.mp h
  obtain ⟨hval, -⟩ := Option.ite_none_left_eq_some.mp hparsed
  simpa using hval

theorem partText_stored (enc : Encodings) (written : Bytes → Bytes) {fields : ModelContext.Fields}
    (htype : jsonFieldText fields "type" = ascii "text")
    (htext : jsonFieldText fields "text" = text) :
    partText enc written [] fields = if trimSpace text = [] then [] else text := by
  have hfrom : textFromPart enc written fields = if trimSpace text = [] then [] else text := by
    unfold textFromPart
    rw [htype, htext]
    rw [if_neg (by decide)]
    by_cases hbl : trimSpace text = []
    · rw [if_neg (not_not.mpr hbl), if_pos hbl, if_neg (fun h => absurd h.1 (by decide)),
        if_neg (by decide)]
    · rw [if_pos hbl, if_neg hbl]
  unfold partText
  rw [htype, if_neg (by decide), hfrom]
  by_cases hbl : trimSpace text = []
  · simp only [if_pos hbl]
    rfl
  · simp only [if_neg hbl]

theorem rebuiltMessages_text {enc : Encodings} {media : List (Bytes × ResolvedMedia)}
    {entry : HistoryEntry}
    (hstored : List.Forall₂ StoredPart (textPart .text text) entry.assistantContent)
    (hresults : entry.toolResults = entry.assistantContent.filterMap (·.result?)) :
    rebuiltMessages enc media entry = .ok (if trimSpace text = [] then []
      else [{ role := .assistant, content := .text text }]) := by
  unfold rebuiltMessages
  by_cases hemp : text = []
  · rw [hemp, textPart, if_pos rfl] at hstored
    rw [List.forall₂_nil_left_iff.mp hstored] at hresults ⊢
    rw [hresults, hemp]
    rfl
  · rw [textPart, if_neg hemp] at hstored
    obtain ⟨stored, rest, hent, hrest, hcont⟩ := List.forall₂_cons_left_iff.mp hstored
    rw [List.forall₂_nil_left_iff.mp hrest] at hcont
    cases stored with
    | toolCall call => cases hent.1
    | block raw =>
      obtain ⟨-, fields, hflds, htype, htext⟩ := hent
      have hpts : marshalledParts [raw] = some (some [fields]) := by
        rw [marshalledParts, if_pos (by simp [partFields_valid hflds]),
          mapM_cons, Option.mem_def.mp hflds]
        rfl
      have hshown : textContentFromParts enc compact [] (some [fields]) =
          if trimSpace text = [] then [] else text := by
        rw [textContentFromParts, Option.getD_some, map_singleton,
          partText_stored enc compact htype htext]
        by_cases hbl : trimSpace text = []
        · rw [if_pos hbl]
          rfl
        · rw [if_neg hbl, filter_cons_of_pos (by simpa using hemp)]
          simp [List.intercalate]
      rw [hcont] at hresults ⊢
      rw [hresults]
      dsimp only [filterMap_cons, filterMap_nil]
      rw [hpts]
      dsimp only
      rw [hshown]
      by_cases hbl : trimSpace text = []
      · rw [if_pos hbl, if_pos ⟨rfl, rfl⟩, if_pos hbl]
      · rw [if_neg hbl, if_neg (fun h => hemp h.1), if_neg hbl]
        rfl

/-! ## Responses -/

def responseMessage (resp : HttpResponse) : Option ChatResponseMessage :=
  match validateProviderJSON resp.body with
  | .ok body => (decodeChatCompletionsResponse body).bind fun decoded =>
      decoded.choices.head?.map (·.message)
  | .error _ => none

theorem parseResponse_ok {native : Bool} {resp : HttpResponse} {response : Response}
    (h : parseResponse native resp = .ok response) :
    ∃ message, responseMessage resp = some message ∧
      parseMessage message = .ok (response.content, response.providerReplay) := by
  unfold parseResponse at h
  split at h
  · cases h
  split at h
  · cases h
  rename_i body hbody
  split at h
  · cases h
  rename_i decoded hdecoded
  split at h
  · cases h
  split at h
  · cases h
  split at h
  · rename_i choice hchoices
    split at h
    · cases h
    dsimp only at h
    split at h
    · cases h
    split at h
    · cases h
    split at h
    · cases h
    rename_i parts replay hmsg
    cases h
    refine ⟨choice.message, ?_, hmsg⟩
    rw [responseMessage, hbody]
    dsimp only
    rw [hdecoded, Option.bind_some, hchoices]
    rfl
  · cases h

theorem mapM_parseToolCall_eq_nil {raws : List Value} {calls : List (ResponsePart × ChatToolCall)}
    (h : raws.mapM parseToolCall = .ok calls) : calls = [] ↔ raws = [] := by
  cases raws with
  | nil =>
    cases h
    exact iff_of_true rfl rfl
  | cons raw raws =>
    obtain ⟨call, rest, -, -, rfl⟩ := Fallible.mapM_cons_ok h
    exact ⟨nofun, nofun⟩

/-- **A message with reasoning or calls** is kept for the replay, and the replay check accepts the stored
message for the content it is stored as. -/
theorem completeChatReplay_parseMessage {source : ModelContext.Message}
    {content : List AssistantContentEntry} {target : ProviderReplayIdentity} {numbers : JsonbNumbers}
    (hpar : parseMessage message = .ok (parts, replay))
    (hkept : chatMessageHasReasoningReplay message ∨ message.toolCalls ≠ [])
    (hpl : message.PlainParts)
    (hids : ∀ id ∈ toolCallIds parts, trimSpace id ≠ []) (hstored : StoredAs parts content)
    (hrpl : ReplayStored numbers replay source)
    (hsrc : identityMatches source.providerReplaySource target) :
    ∃ calls, replay = some (keptMessage message calls).value ∧
      completeChatReplay source content target =
        some (replayedMessage (keptMessage (message.stored numbers) calls)) ∧
      (calls.map ChatToolCall.value).mapM toolCallSemantic =
        some ((parts.filter (·.type = .toolCall)).map ResponsePart.semantic) := by
  obtain ⟨text, calls, htext, hcalls, rfl, hv⟩ := parseMessage_ok hpar
  rw [if_pos (hkept.imp_right (mapM_parseToolCall_eq_nil hcalls).not.mpr)] at hv
  obtain ⟨value, rfl, hv⟩ := hv
  obtain ⟨kept, hkeptCalls, hwr⟩ := chatReplayForRequest_ok hv
  replace hwr : value = (keptMessage message kept).value := hwr
  have hfil := filter_toolCall_parts (reasoningTextFromChatMessage message)
    (shownText message text) (parseToolCalls_type hcalls)
  rw [toolCallIds, hfil] at hids
  obtain ⟨hnorm, hpts, hsems⟩ := replayToolCalls_parsed hcalls hkeptCalls
    fun call hcall => hids _ (mem_map_of_mem (mem_map_of_mem hcall))
  refine ⟨kept, congrArg some hwr, ?_, by rw [hsems, hfil, map_map]; rfl⟩
  -- storage leaves out none of the parts
  have hall : ∀ part ∈ textPart .reasoning (reasoningTextFromChatMessage message) ++
      textPart .text (shownText message text) ++ calls.map Prod.fst, part.kept ∧ part.Plain := by
    simp only [mem_append]
    rintro part ((hpart | hpart) | hpart)
    · exact textPart_kept (by decide) _ part hpart
    · exact textPart_kept (by decide) _ part hpart
    · obtain ⟨call, hcall, rfl⟩ := mem_map.mp hpart
      exact ⟨(hpts call hcall).1, (hpts call hcall).2.1⟩
  rw [StoredAs, filter_eq_self.mpr fun part hpart => (hall part hpart).1] at hstored
  obtain ⟨canonical, hcanonical, hsame⟩ := @canonicalSemantics_stored (some { kind := .media }) _ _
    (fun part hpart => (hall part hpart).2) hstored
  rw [map_append, map_append, (map_semantic_textPart _).1, (map_semantic_textPart _).2, map_map,
    ← reasoningText_stored numbers hpl] at hsame
  have hread : ((decode source.providerReplay).bind structMembers).bind readChatMessage =
      some (keptMessage (message.stored numbers) kept) := by
    obtain ⟨members, hmems, hplain, hmsg⟩ := @readChatMessage_value (keptMessage message kept) _ rfl
    rw [hrpl, hwr, Option.map_some, Option.bind_some, hmems, structMembers_jsonb]
    exact (readChatMessage_jsonb numbers hplain).trans
      (by rw [hmsg, Option.map_some, stored_keptMessage])
  exact completeChatReplay_eq hsrc hread
    (chatReplaySemantics_keptMessage ((textFromChatContent_jsonb numbers hpl).trans htext) hsems)
    hcanonical hsame (chatReplayForRequest_keptMessage _ hnorm)

/-- A message with neither is not kept, and its parts are its text. -/
theorem parseMessage_text (hpar : parseMessage message = .ok (parts, replay))
    (hkept : ¬ (chatMessageHasReasoningReplay message ∨ message.toolCalls ≠ [])) :
    ∃ text, textFromChatContent message.content = .ok text ∧
      parts = textPart .text (shownText message text) ∧ replay = none := by
  obtain ⟨text, calls, htext, hcalls, rfl, hnone⟩ := parseMessage_ok hpar
  simp only [not_or, not_not, Bool.not_eq_true] at hkept
  obtain ⟨hreas, hemp⟩ := hkept
  obtain rfl := (mapM_parseToolCall_eq_nil hcalls).mpr hemp
  rw [if_neg (by simp [hreas])] at hnone
  have hnoText : reasoningTextFromChatMessage message = [] := by
    simp only [chatMessageHasReasoningReplay, Bool.or_eq_false_iff, decide_eq_false_iff_not, not_not,
      Bool.not_eq_false', List.isEmpty_iff] at hreas
    obtain ⟨⟨hbl, hbl'⟩, hdet⟩ := hreas
    unfold reasoningTextFromChatMessage
    rw [hdet, hbl, hbl']
    rfl
  refine ⟨text, htext, ?_, hnone⟩
  rw [hnoText, List.map_nil, List.append_nil]
  rfl

/-- **A response is replayed or rebuilt after it has been stored.** A response with reasoning or tool
calls is replayed if its parts are plain: the replay check accepts its own message as the column gives it
back, which has the content, the refusal and the tool calls of the response. Another response has no
replay and is rebuilt from its text, or its refusal if it has no text. -/
theorem assistantMessagesForEntry_parsed (enc : Encodings) (media : List (Bytes × ResolvedMedia))
    (policy : RequestPolicy) (target : ProviderReplayIdentity) (native : Bool) (resp : HttpResponse)
    (response : Response) (entry : HistoryEntry) (numbers : JsonbNumbers)
    (hparse : parseResponse native resp = .ok response)
    (hids : ∀ id ∈ toolCallIds response.content, trimSpace id ≠ [])
    (hstored : StoredAs response.content entry.assistantContent)
    (hresults : entry.toolResults = entry.assistantContent.filterMap (·.result?))
    (hreplay : ReplayStored numbers response.providerReplay entry.message)
    (hsource : identityMatches entry.message.providerReplaySource target)
    (hpolicy : policy.allowsProviderReplay entry.message.sequence) :
    ∃ message, responseMessage resp = some message ∧
      ((chatMessageHasReasoningReplay message ∨ message.toolCalls ≠ []) → message.PlainParts →
        ∃ kept carried : ChatResponseMessage, response.providerReplay = some kept.value ∧
          completeChatReplay entry.message entry.assistantContent target =
            some (replayedMessage carried) ∧
          kept.content = some (message.content.getD .null) ∧ carried = kept.stored numbers ∧
          textFromChatContent carried.content = textFromChatContent message.content ∧
          carried.refusal = message.refusal ∧
          carried.toolCalls.mapM toolCallSemantic =
            some ((response.content.filter (·.type = .toolCall)).map ResponsePart.semantic) ∧
          assistantMessagesForEntry enc media policy target entry =
            .ok (appendToolResultMessages enc media [replayedMessage carried] entry.toolResults)) ∧
      (¬ (chatMessageHasReasoningReplay message ∨ message.toolCalls ≠ []) →
        ∃ text, textFromChatContent message.content = .ok text ∧ response.providerReplay = none ∧
          assistantMessagesForEntry enc media policy target entry =
            .ok (if trimSpace (shownText message text) = [] then []
              else [{ role := .assistant, content := .text (shownText message text) }])) := by
  obtain ⟨message, hmessage, hparsed⟩ := parseResponse_ok hparse
  refine ⟨message, hmessage, fun hkept hplain => ?_, fun hkept => ?_⟩
  · obtain ⟨calls, hvalue, haccepted, hcalls⟩ :=
      completeChatReplay_parseMessage hparsed hkept hplain hids hstored hreplay hsource
    refine ⟨keptMessage message calls, _, hvalue, haccepted, rfl,
      (stored_keptMessage numbers message calls).symm, ?_, rfl, hcalls, ?_⟩
    · rw [← textFromChatContent_jsonb numbers hplain]
      exact textFromChatContent_getD _
    · unfold assistantMessagesForEntry
      rw [if_pos hpolicy, haccepted]
  · obtain ⟨text, htext, hparts, hnone⟩ := parseMessage_text hparsed hkept
    refine ⟨text, htext, hnone, ?_⟩
    have hrejected : completeChatReplay entry.message entry.assistantContent target = none := by
      unfold completeChatReplay
      rw [hreplay, hnone]
      exact ite_self none
    have hkeptParts : (textPart .text (shownText message text)).filter ResponsePart.kept =
        textPart .text (shownText message text) :=
      filter_eq_self.mpr fun part hpart => (textPart_kept (by decide) _ part hpart).1
    rw [StoredAs, hparts, hkeptParts] at hstored
    unfold assistantMessagesForEntry
    rw [hrejected, ite_self]
    exact rebuiltMessages_text hstored hresults

/-! ## Runs -/

def chatIdentity : ProviderReplayIdentity :=
  ⟨ascii "openai", ascii "gpt", ascii "openai_chat_completions", ascii "default"⟩

/-- A response with one message. -/
def messageResponse (message : String) : HttpResponse where
  statusCode := 200
  body := ascii r#"{"id": "r", "choices": [{"index": 0, "finish_reason": "stop", "message": "# ++
    ascii message ++ ascii r"}]}"

/-- A response with a thought and a call whose arguments are no object. -/
def callResponse : HttpResponse := messageResponse
  r#"{"reasoning_details": [{"type": "reasoning.text", "text": "hm"}], "tool_calls": [
    {"id": "c1", "type": "function", "function": {"name": "run", "arguments": "5"}}]}"#

def callEntry : HistoryEntry where
  sequence := 1
  message := storedOutput chatIdentity
    r#"{"role": "assistant", "content": null, "tool_calls": [
      {"id": "c1", "type": "function", "function": {"name": "run", "arguments": "{}"}}],
      "reasoning_details": [{"text": "hm", "type": "reasoning.text"}]}"#
  assistantContent :=
    [.block (ascii r#"{"type": "reasoning", "text": "hm"}"#), .toolCall (storedCall "c" "c1")]
  toolResults := [storedCall "c" "c1"]

/-- The thought and the call, with the replaced arguments, are replayed. -/
theorem assistantMessagesForEntry_parsed_call :
    ∃ response message carried, parseResponse false callResponse = .ok response ∧
      responseMessage callResponse = some message ∧
      completeChatReplay callEntry.message callEntry.assistantContent chatIdentity =
        some (replayedMessage carried) ∧
      carried.toolCalls.mapM toolCallSemantic =
        some [⟨.toolCall, [], ascii "c1", ascii "run", some (.obj [])⟩] := by
  have hrun : ∃ response ∈ (parseResponse false callResponse).toOption,
      (∀ id ∈ toolCallIds response.content, trimSpace id ≠ []) ∧
      StoredAs response.content callEntry.assistantContent ∧
      ReplayStored .asWritten response.providerReplay callEntry.message ∧
      (response.content.filter (·.type = .toolCall)).map ResponsePart.semantic =
        [⟨.toolCall, [], ascii "c1", ascii "run", some (.obj [])⟩] := by decide +kernel
  have hcalls : ∀ message ∈ responseMessage callResponse,
      message.toolCalls ≠ [] ∧ message.PlainParts := by
    decide +kernel
  obtain ⟨response, hresponse, hids, hstored, hreplay, hsemantics⟩ := hrun
  obtain ⟨message, hmessage, hkept, -⟩ := assistantMessagesForEntry_parsed plainEncodings [] {}
    chatIdentity false callResponse response callEntry .asWritten (Fallible.mem_toOption hresponse)
    hids hstored rfl hreplay (by decide +kernel) (by decide +kernel)
  obtain ⟨hne, hplain⟩ := hcalls message hmessage
  obtain ⟨-, carried, -, haccepted, -, -, -, -, hcarried, -⟩ := hkept (.inr hne) hplain
  exact ⟨response, message, carried, Fallible.mem_toOption hresponse, hmessage, haccepted,
    hcarried.trans (congrArg some hsemantics)⟩

def refusalContent : List AssistantContentEntry :=
  [.block (ascii r#"{"type": "text", "text": "no"}"#)]

def twoTextsContent : List AssistantContentEntry :=
  [.block (ascii r#"{"type": "reasoning", "text": "b"}"#)]

/-- A detail with two texts. -/
def twoTextsResponse : HttpResponse := messageResponse
  r#"{"reasoning_details": [{"text": "a", "Text": "b"}]}"#

def twoTextsMessage : ModelContext.Message := storedOutput chatIdentity
  r#"{"role": "assistant", "content": null, "reasoning_details": [{"Text": "b", "text": "a"}]}"#

/-- A response without reasoning and calls has no replay, so none is accepted, and the refusal comes
back as the text of the rebuilt message. A detail with two members `text` and `Text` is parsed with the
one that comes last and read back from the column with the other. -/
theorem completeChatReplay_rejects :
    (∃ response ∈ (parseResponse false (messageResponse r#"{"refusal": "no"}"#)).toOption,
      StoredAs response.content refusalContent ∧
      ∀ numbers source, ReplayStored numbers response.providerReplay source →
        completeChatReplay source refusalContent chatIdentity = none ∧
        assistantMessagesForEntry plainEncodings [] {} chatIdentity
          { sequence := 1, message := source, assistantContent := refusalContent } =
          .ok [{ role := .assistant, content := .text (ascii "no") }]) ∧
    identityMatches chatIdentity chatIdentity ∧
    ∃ response ∈ (parseResponse false twoTextsResponse).toOption,
      StoredAs response.content twoTextsContent ∧
      ReplayStored .asWritten response.providerReplay twoTextsMessage ∧
      completeChatReplay twoTextsMessage twoTextsContent chatIdentity = none := by
  refine ⟨?_, by decide +kernel, by decide +kernel⟩
  have hrun : ∃ response ∈ (parseResponse false (messageResponse r#"{"refusal": "no"}"#)).toOption,
      StoredAs response.content refusalContent ∧ response.providerReplay = none := by decide +kernel
  obtain ⟨response, hresponse, hstored, hnone⟩ := hrun
  refine ⟨response, hresponse, hstored, fun numbers source hsource => ?_⟩
  have hrejected : completeChatReplay source refusalContent chatIdentity = none := by
    unfold completeChatReplay
    rw [hsource, hnone]
    exact ite_self none
  refine ⟨hrejected, ?_⟩
  have hno : List.Forall₂ StoredPart (textPart .text (ascii "no")) refusalContent := by
    decide +kernel
  unfold assistantMessagesForEntry
  rw [hrejected, ite_self]
  rw [rebuiltMessages_text hno rfl, if_neg (by decide +kernel)]

end OpenAIChatCompletions
