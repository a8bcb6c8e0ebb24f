import Omnara.Model.Proof.Replay
import Omnara.OpenAIChatCompletions.Request

/-!
# Tool calls and tool messages of a chat completions request

What the provider reads of a message is its `Outline`. `Answered` is the shape of a request: every
message with calls stands right before the messages that answer them. `completeChatReplay_outline` and
`rebuiltMessages_answered` show that an assistant entry makes the calls of its results, whether it is
replayed or rebuilt, and `historyMessages_answered` puts the entries together.
-/

namespace OpenAIChatCompletions

open Json
open Model List
open ModelContext
open Text (trimSpace)

/-- A message: the assistant's with the ids of its tool calls, a tool message with the id it answers,
or another one. -/
inductive Outline
  | assistant (calls : List Bytes)
  | tool (id : Bytes)
  | other
  deriving DecidableEq

/-- The ids of the calls of a message that is sent as it is. -/
def replayCallIds (members : Members) : List Bytes :=
  match lookupMember members "tool_calls" with
  | some (.arr items) => items.map fun
      | .obj call => textMember call "id"
      | _ => []
  | _ => []

def readReplay : Value → Outline
  | .obj members =>
    if textMember members "role" = ascii "assistant" then .assistant (replayCallIds members)
    else .other
  | _ => .other

def ChatMessage.outline (message : ChatMessage) : Outline :=
  match message.providerReplay with
  | some replay => readReplay replay
  | none =>
    match message.role with
    | .assistant => .assistant (message.toolCalls.map (·.id))
    | .tool => .tool message.toolCallId
    | .system | .user => .other

/-- Every message with calls is followed by one tool message a call, with the ids in the same order, and
there are no other tool messages. -/
inductive Answered : List Outline → Prop
  | nil : Answered []
  | other {rest : List Outline} : Answered rest → Answered (.other :: rest)
  | calls {ids : List Bytes} {rest : List Outline} : Answered rest →
      Answered (.assistant ids :: (ids.map .tool ++ rest))

variable {message : ChatResponseMessage}

theorem Answered.append {left right : List Outline} (hleft : Answered left)
    (hright : Answered right) : Answered (left ++ right) := by
  induction hleft with
  | nil => exact hright
  | other _ ih => exact .other ih
  | calls _ ih =>
    rw [cons_append, append_assoc]
    exact .calls ih

theorem answered_of_forall_other : ∀ {outlines : List Outline}, (∀ o ∈ outlines, o = .other) →
    Answered outlines
  | [], _ => .nil
  | _ :: _, h => by
    obtain ⟨rfl, hrest⟩ := forall_mem_cons.mp h
    exact .other (answered_of_forall_other hrest)

/-! ## Replayed messages -/

theorem readReplay_value {calls : List ChatToolCall} (hrole : message.role = ascii "assistant")
    (hcalls : message.toolCalls = calls.map ChatToolCall.value) :
    readReplay message.value = .assistant (calls.map (·.id)) := by
  have hreadRole : lookupMember ([(ascii "role", .str message.role),
      (ascii "content", message.content.getD .null)]) "role" = some (.str message.role) := rfl
  have hnone : lookupMember ([(ascii "role", .str message.role),
      (ascii "content", message.content.getD .null)]) "tool_calls" = none := rfl
  unfold ChatResponseMessage.value readReplay
  dsimp only
  rw [if_pos]
  · congr 1
    unfold replayCallIds
    simp (disch := decide) only [lookupMember_append, lookupMember_optional_of_ne, hnone,
      Option.or_none, hcalls]
    cases calls with
    | nil => rfl
    | cons call calls =>
      rw [optionalList, optionalMember, if_neg (by simp), lookupMember_cons_self]
      dsimp only
      rw [map_map]
      rfl
  · unfold textMember
    simp (disch := decide) only [lookupMember_append, lookupMember_optional_of_ne, hreadRole,
      Option.none_or]
    exact hrole

theorem replayToolCall_ok {raw : Value} {call : ChatToolCall} (h : replayToolCall raw = .ok call) :
    ∃ decoded, decodeChatToolCall raw = some decoded ∧ decoded.type = ascii "function" ∧
      decoded.id ≠ [] ∧ decoded.name ≠ [] ∧ validToolInput (inputValue decoded.arguments) ∧
      call = { decoded with arguments := trimSpace decoded.arguments } := by
  unfold replayToolCall at h
  split at h
  · cases h
  rename_i decoded hdecoded
  split at h
  · cases h
  rename_i hflds
  simp only [not_or, not_not] at hflds
  obtain ⟨htype, hid, hname⟩ := hflds
  split at h
  · cases h
  rename_i input hinp
  cases h
  obtain ⟨hval, hinp⟩ := Option.ite_none_right_eq_some.mp hinp
  exact ⟨decoded, hdecoded, htype, hid, hname, hval, by rw [Option.some.inj hinp]⟩

theorem replayToolCall_id {raw : Value} {call : ChatToolCall} {semantic : ReplaySemantic}
    (hcall : replayToolCall raw = .ok call) (hsem : toolCallSemantic raw = some semantic) :
    semantic.kind = .toolCall ∧ semantic.callId = call.id := by
  obtain ⟨decoded, hdecoded, -, -, -, -, rfl⟩ := replayToolCall_ok hcall
  unfold toolCallSemantic at hsem
  rw [hdecoded] at hsem
  obtain ⟨-, hsem⟩ := Option.ite_none_left_eq_some.mp hsem
  cases hsem
  exact ⟨rfl, rfl⟩

theorem callIds_replayed : ∀ {raws : List Value} {calls : List ChatToolCall}
    {semantics : List ReplaySemantic}, raws.mapM replayToolCall = .ok calls →
      raws.mapM toolCallSemantic = some semantics → callIds semantics = calls.map (·.id)
  | [], _, _, hcalls, hsems => by
    cases hcalls
    cases hsems
    rfl
  | raw :: raws, _, _, hcalls, hsems => by
    obtain ⟨call, calls, hcall, hrest, rfl⟩ := Fallible.mapM_cons_ok hcalls
    obtain ⟨semantic, semantics, hsem, hrest', rfl⟩ := Fallible.mapM_cons_some hsems
    obtain ⟨hkind, hid⟩ := replayToolCall_id hcall hsem
    rw [callIds_cons, if_pos hkind, hid, callIds_replayed hrest hrest']
    rfl

theorem chatReplaySemantics_calls {semantics : List ReplaySemantic}
    (h : chatReplaySemantics message = some semantics) :
    ∃ calls, message.toolCalls.mapM toolCallSemantic = some calls ∧
      callIds semantics = callIds calls := by
  obtain ⟨-, h⟩ := Option.ite_none_left_eq_some.mp h
  split at h
  · cases h
  obtain ⟨calls, hcalls, rfl⟩ := Option.map_eq_some_iff.mp h
  refine ⟨calls, hcalls, ?_⟩
  simp only [callIds_append, callIds_textSemantic (by decide : SemanticKind.reasoning ≠ .toolCall),
    callIds_textSemantic (by decide : SemanticKind.text ≠ .toolCall), nil_append]

theorem chatReplayForRequest_ok {replay : Value}
    (h : chatReplayForRequest message = .ok replay) : ∃ calls,
      message.toolCalls.mapM replayToolCall = .ok calls ∧
      replay = ChatResponseMessage.value { message with
        role := ascii "assistant"
        content := some (message.content.getD .null)
        toolCalls := calls.map ChatToolCall.value } := by
  unfold chatReplayForRequest at h
  extract_lets role at h
  split at h
  · cases h
  rename_i hrole
  split at h
  · cases h
  rename_i calls hcalls
  cases h
  exact ⟨calls, hcalls, by rw [not_not.mp hrole]⟩

/-- **A replayed message** makes the calls of the content. -/
theorem completeChatReplay_outline {source : ModelContext.Message}
    {content : List AssistantContentEntry} {target : ProviderReplayIdentity} {message : ChatMessage}
    (h : completeChatReplay source content target = some message) :
    message.outline = .assistant ((content.filterMap (·.result?)).map (·.providerCallId)) := by
  obtain ⟨-, h⟩ := Option.ite_none_left_eq_some.mp h
  split at h
  · cases h
  rename_i replayed hrepl
  split at h
  · rename_i semantics canonical hsems hcanonical
    obtain ⟨hsame, h⟩ := Option.ite_none_right_eq_some.mp h
    split at h
    · rename_i replay hrpl
      cases h
      obtain ⟨calls, hcalls, rfl⟩ := chatReplayForRequest_ok hrpl
      obtain ⟨callSemantics, hcallSemantics, hids⟩ := chatReplaySemantics_calls hsems
      unfold ChatMessage.outline
      dsimp only
      rw [readReplay_value rfl rfl, ← callIds_replayed hcalls hcallSemantics, ← hids,
        callIds_same hsame, callIds_canonical (by simp) hcanonical]
    · cases h
  · cases h

/-! ## Entries -/

section
variable {enc : Encodings} {media : List (Bytes × ResolvedMedia)} {policy : RequestPolicy}
  {target : ProviderReplayIdentity} {messages : List ModelContext.Message}

theorem appendToolResultMessages_answered {message : ChatMessage} {results : List ToolResultRef}
    (h : message.outline = .assistant (results.map (·.providerCallId))) :
    Answered ((appendToolResultMessages enc media [message] results).map ChatMessage.outline) := by
  unfold appendToolResultMessages
  extract_lets mediaContent
  have htools : (results.map (toolResultMessage enc media)).map ChatMessage.outline =
      (results.map (·.providerCallId)).map .tool := by
    rw [map_map, map_map]
    rfl
  rw [map_append, map_append, htools, map_singleton, h, singleton_append, cons_append]
  refine .calls (answered_of_forall_other ?_)
  split
  · nofun
  · intro o ho
    obtain rfl := mem_singleton.mp ho
    rfl

theorem rebuiltMessages_answered {entry : HistoryEntry}
    (hin : EntryIn messages entry) : ∃ rebuilt, rebuiltMessages enc media entry = .ok rebuilt ∧
      Answered (rebuilt.map ChatMessage.outline) := by
  unfold rebuiltMessages
  extract_lets raws
  have hval : raws.all checkValid = true := by
    rw [all_eq_true]
    intro raw hraw
    obtain ⟨e, he, hsome⟩ := mem_filterMap.mp hraw
    cases e with
    | block content =>
      cases hsome
      exact hin.valid _ he
    | toolCall r => cases hsome
  rw [marshalledParts, if_pos hval]
  dsimp only
  split
  · exact ⟨[], rfl, .nil⟩
  · refine ⟨_, rfl, appendToolResultMessages_answered ?_⟩
    show Outline.assistant _ = _
    rw [map_map]
    rfl

theorem entryMessages_answered {entry : HistoryEntry} (hin : EntryIn messages entry) :
    ∃ built, entryMessages enc media policy target entry = .ok built ∧
      Answered (built.map ChatMessage.outline) := by
  unfold entryMessages
  by_cases hrole : entry.message.role = .assistant
  · rw [if_pos hrole]
    unfold assistantMessagesForEntry
    extract_lets replayed
    cases hrepl : replayed with
    | some replay =>
      obtain ⟨-, hrpl⟩ := Option.ite_none_right_eq_some.mp hrepl
      refine ⟨_, rfl, appendToolResultMessages_answered ?_⟩
      rw [completeChatReplay_outline hrpl, hin.results]
    | none => exact rebuiltMessages_answered hin
  · rw [if_neg hrole]
    refine ⟨_, rfl, answered_of_forall_other fun o ho => ?_⟩
    obtain ⟨message, hmsg, rfl⟩ := mem_map.mp ho
    unfold messageFromContext at hmsg
    cases hcase : entry.message.role with
    | assistant => exact absurd hcase hrole
    | user =>
      rw [hcase] at hmsg
      obtain ⟨content, -, rfl⟩ := Option.map_eq_some_iff.mp (Option.mem_toList.mp hmsg)
      rfl
    | other name =>
      rw [hcase] at hmsg
      cases hmsg

theorem historyMessages_answered :
    ∀ {history : List HistoryEntry}, (∀ entry ∈ history, EntryIn messages entry) →
      ∃ built, historyMessages enc media policy target history = .ok built ∧
        Answered (built.map ChatMessage.outline)
  | [], _ => ⟨[], rfl, .nil⟩
  | entry :: history, h => by
    obtain ⟨hent, hhist⟩ := forall_mem_cons.mp h
    obtain ⟨built, hbuilt, hanswered⟩ := @entryMessages_answered enc media policy target _ _ hent
    obtain ⟨rest, hrest, hanswered'⟩ := historyMessages_answered hhist
    refine ⟨built ++ rest, ?_, ?_⟩
    · rw [historyMessages, hbuilt]
      rw [hrest]
      rfl
    · rw [map_append]
      exact hanswered.append hanswered'

end

/-! ## Requests -/

theorem openingMessages_other (bundle : Bundle) :
    ∀ message ∈ openingMessages bundle, message.outline = .other := by
  intro message hmsg
  rcases mem_append.mp hmsg with hsystem | hcheckpoint
  · split at hsystem
    · cases hsystem
    · obtain rfl := mem_singleton.mp hsystem
      rfl
  · obtain ⟨text, -, rfl⟩ := mem_map.mp hcheckpoint
    rfl

theorem closingMessages_other (bundle : Bundle) :
    ∀ message ∈ closingMessages bundle, message.outline = .other := by
  intro message hmsg
  obtain ⟨text, -, rfl⟩ := mem_map.mp hmsg
  rfl

theorem answered_of_messages {messages : List ChatMessage}
    (h : ∀ message ∈ messages, message.outline = .other) :
    Answered (messages.map ChatMessage.outline) :=
  answered_of_forall_other (forall_mem_map.mpr h)

theorem withOpening_answered {messages : List ChatMessage}
    (h : Answered (messages.map ChatMessage.outline)) :
    Answered ((withOpening messages).map ChatMessage.outline) := by
  unfold withOpening
  split
  · exact .other .nil
  · split
    · exact h
    · exact .other h

/-- **Every call is answered**: the messages of an accepted bundle are built, and every assistant message
with calls stands right before their tool messages. -/
theorem buildMessages_calls {enc : Encodings} {bundle : Bundle} {policy : RequestPolicy}
    {target : ProviderReplayIdentity} {history : List HistoryEntry}
    (h : canonicalHistory bundle = .ok history) :
    ∃ messages, buildMessages enc bundle policy target = .ok messages ∧
      Answered (messages.map ChatMessage.outline) := by
  obtain ⟨built, hbuilt, hanswered⟩ := @historyMessages_answered enc
    (renderableMedia bundle.resolvedMedia) policy target _ _
    (ModelContext.HistoryOf.entryIn (canonicalHistory_ok_iff.mp h).2)
  refine ⟨_, by rw [buildMessages, h]; dsimp only; rw [hbuilt]; rfl, withOpening_answered ?_⟩
  rw [map_append, map_append]
  exact ((answered_of_messages (openingMessages_other bundle)).append hanswered).append
    (answered_of_messages (closingMessages_other bundle))

/-! ## Cache breakpoints -/

theorem withTextParts_outline (message : ChatMessage) :
    (withTextParts message).outline = message.outline := by
  unfold withTextParts
  split
  · split <;> rfl
  · rfl

theorem withCacheBreakpoint_outline (control : Value) (message : ChatMessage) :
    (withCacheBreakpoint control message).outline = message.outline := by
  unfold withCacheBreakpoint
  split <;> rfl

theorem map_outline_modify {f : ChatMessage → ChatMessage}
    (hf : ∀ message, (f message).outline = message.outline) (messages : List ChatMessage) (i : Nat) :
    (messages.modify i f).map ChatMessage.outline = messages.map ChatMessage.outline := by
  refine ext_getElem? fun j => ?_
  rw [List.getElem?_map, List.getElem?_map, List.getElem?_modify]
  cases messages[j]? with
  | none => split <;> rfl
  | some message =>
    split
    · exact congrArg some (hf message)
    · rfl

theorem markCacheBreakpoints_outline (messages : List ChatMessage) (control : Value) :
    (markCacheBreakpoints messages control).map ChatMessage.outline =
      messages.map ChatMessage.outline := by
  unfold markCacheBreakpoints
  extract_lets texts mark tail marked
  have hmark : ∀ message, (mark message).outline = message.outline := by
    intro message
    dsimp only [mark]
    split
    · exact withCacheBreakpoint_outline control message
    · rfl
  have hmarked : marked.map ChatMessage.outline = messages.map ChatMessage.outline := by
    rw [map_outline_modify hmark, map_map]
    exact map_congr_left fun message _ => withTextParts_outline message
  split
  · exact hmarked
  · rw [map_outline_modify, hmarked]
    intro message
    split
    · exact hmark message
    · rfl

end OpenAIChatCompletions
