import Omnara.OpenAIResponses.Proof.Input

/-!
# A response is replayed after it has been stored

The parser and the replay check walk the same output items. `itemSemantics_parseItem`: an item's replay
means what the item's parts mean; the item of a function call is written anew by the parser
(`decode_functionCallForReplay`). `responseReplaySemantics_parseItems` lifts this to a response. The
`jsonb` form of the items means what they mean (`responseReplaySemantics_jsonb`) and so does the stored
content (`canonicalSemantics_stored`), so the replay is accepted (`completeResponseReplay_parsed`).
-/

namespace OpenAIResponses

open Json
open Model List
open ModelContext
open Text (trimSpace)

variable {raw : Value}

/-! ## Items of function calls -/

/-- The names of the members an item is read from. -/
def itemNames : List String :=
  ["id", "type", "status", "call_id", "name", "arguments", "content", "summary", "encrypted_content"]

def PlainParts (names : List String) (members : Members) (name : String) : Prop :=
  ∀ items ∈ listField members name, ∀ item ∈ items, ∀ inner ∈ structMembers item,
    PlainNames names inner

instance (names : List String) (members : Members) (name : String) :
    Decidable (PlainParts names members name) :=
  inferInstanceAs (Decidable (∀ items ∈ listField members name, _))

/-- Each of the names an item and its parts are read from is the name of at most one member, in this
spelling. -/
structure PlainItem (members : Members) : Prop where
  names : PlainNames itemNames members
  content : PlainParts ["type", "text", "refusal"] members "content"
  summary : PlainParts ["type", "text"] members "summary"

instance (members : Members) : Decidable (PlainItem members) :=
  decidable_of_iff (_ ∧ _ ∧ _) ⟨fun ⟨names, content, summary⟩ => ⟨names, content, summary⟩,
    fun h => ⟨h.names, h.content, h.summary⟩⟩

/-- **The item of a function call** decodes to the call with the name and arguments it is written with,
and without a status. -/
theorem decode_functionCallForReplay {members : Members} {item : ResponsesOutputItem}
    {name arguments : Bytes} (hitem : decodeOutputItem (.obj members) = some item)
    (hpl : PlainItem members) :
    decodeOutputItem (responseFunctionCallForReplay (.obj members) name arguments) =
        some { item with name := name, arguments := arguments, status := [] } ∧
      ∀ fields ∈ structMembers (responseFunctionCallForReplay (.obj members) name arguments),
        PlainItem fields := by
  simp only [decodeOutputItem, structMembers, Option.bind_eq_bind, Option.bind_some,
    Option.bind_eq_some_iff, Option.pure_def, Option.some.injEq] at hitem
  obtain ⟨id, hid, type, htype, status, hstatus, callId, hcallId, oldName, hname, content, hcont,
    summary, hsum, encrypted, hencr, rfl⟩ := hitem
  unfold responseFunctionCallForReplay
  have hmap := @PlainNames.mapBy bytewise _ _ hpl.names
  have hargs : PlainNames itemNames (setMember (ascii "arguments") (.str arguments) (toMap members)) :=
    hmap.insertMember (by decide)
  have hset : PlainNames itemNames (setMember (ascii "name") (.str name)
      (setMember (ascii "arguments") (.str arguments) (toMap members))) :=
    hargs.insertMember (by decide)
  -- the fields that are written are the only ones of their names, the others are those of the item
  have hflds : ∀ field ∈ itemNames, fieldMembers (eraseMember (ascii "status") (setMember (ascii "name")
      (.str name) (setMember (ascii "arguments") (.str arguments) (toMap members)))) field =
        if ascii "status" = ascii field then []
        else if ascii "name" = ascii field then [(ascii "name", .str name)]
        else if ascii "arguments" = ascii field then [(ascii "arguments", .str arguments)]
        else fieldMembers members field := by
    intro field hfield
    rw [hset.fieldMembers_eraseMember hfield (by decide),
      hargs.fieldMembers_insertMember hfield (by decide),
      hmap.fieldMembers_insertMember hfield (by decide),
      fieldMembers_mapBy (hpl.names.length_le hfield)]
  constructor
  · unfold stringField fieldValues at hid htype hcallId hencr
    unfold structsField fieldValues at hcont hsum
    simp (disch := decide) only [decodeOutputItem, structMembers, Option.bind_eq_bind,
      Option.bind_some, stringField, laxStringField, rawField, structsField, fieldValues,
      hflds, if_neg, hid, htype, hcallId, hencr, hcont, hsum]
    rfl
  · intro fields hfields
    obtain rfl := Option.some.inj hfields
    refine ⟨hset.eraseMember (by decide), ?_, ?_⟩
    · unfold PlainParts listField fieldValues
      rw [hflds _ (by decide)]
      exact hpl.content
    · unfold PlainParts listField fieldValues
      rw [hflds _ (by decide)]
      exact hpl.summary

/-! ## Stored items -/

section
variable (numbers : JsonbNumbers)

/-- **A stored item** decodes as the item does. -/
theorem decodeOutputItem_jsonb (hraw : ∀ members ∈ structMembers raw, PlainItem members) :
    decodeOutputItem (jsonb numbers.write raw) = decodeOutputItem raw := by
  unfold decodeOutputItem
  rw [structMembers_jsonb]
  cases hmems : structMembers raw with
  | none => rfl
  | some members =>
    obtain ⟨hpl, hcontent, hsummary⟩ := hraw members hmems
    have hcont : structsField readContentPart (jsonbMembers numbers.write members) "content" =
        structsField readContentPart members "content" := by
      refine hpl.structsField_jsonb (by decide) fun items hitems item hitem inner hinner => ?_
      have hpart := hcontent items hitems item hitem inner hinner
      simp (disch := decide) only [readContentPart, hpart.stringField_jsonb]
    have hsum : structsField readSummaryPart (jsonbMembers numbers.write members) "summary" =
        structsField readSummaryPart members "summary" := by
      refine hpl.structsField_jsonb (by decide) fun items hitems item hitem inner hinner => ?_
      have hpart := hsummary items hitems item hitem inner hinner
      simp (disch := decide) only [readSummaryPart, hpart.stringField_jsonb]
    simp (disch := decide) only [Option.map_some, Option.bind_eq_bind, Option.bind_some,
      hpl.stringField_jsonb, hpl.laxStringField_jsonb, hcont, hsum]

theorem responseReplaySemantics_jsonb : ∀ {items : List Value} (pending : Bool),
    (∀ item ∈ items, ∀ members ∈ structMembers item, PlainItem members) →
      responseReplaySemantics pending (items.map (jsonb numbers.write)) =
        responseReplaySemantics pending items
  | [], _, _ => rfl
  | item :: items, pending, h => by
    obtain ⟨hitem, hitems⟩ := forall_mem_cons.mp h
    rw [map_cons, responseReplaySemantics, responseReplaySemantics,
      decodeOutputItem_jsonb numbers hitem]
    simp only [responseReplaySemantics_jsonb _ hitems]

end

/-! ## Items of a response -/

/-- An item the replay check can take: its members have plain names and reasoning is encrypted. -/
structure Replayable (raw : Value) : Prop where
  plain : ∀ members ∈ structMembers raw, PlainItem members
  encrypted : ∀ item ∈ decodeOutputItem raw,
    item.type = ascii "reasoning" → item.encryptedContent ≠ []

instance (raw : Value) : Decidable (Replayable raw) :=
  decidable_of_iff (_ ∧ _)
    ⟨fun ⟨plain, encrypted⟩ => ⟨plain, encrypted⟩, fun h => ⟨h.plain, h.encrypted⟩⟩

/-- Parts that are kept and mean what the replay check reads. -/
def Means (semantics : List ReplaySemantic) (parts : List ResponsePart) : Prop :=
  semantics = parts.map ResponsePart.semantic ∧ ∀ part ∈ parts, part.kept ∧ part.Plain

theorem Means.append {left right : List ReplaySemantic} {lefts rights : List ResponsePart}
    (hleft : Means left lefts) (hright : Means right rights) :
    Means (left ++ right) (lefts ++ rights) := by
  refine ⟨by rw [hleft.1, hright.1, map_append], fun part hpart => ?_⟩
  rcases mem_append.mp hpart with hpart | hpart
  · exact hleft.2 part hpart
  · exact hright.2 part hpart

theorem means_text (text : Bytes) : Means (textSemantic .text text) (textPart .text text) :=
  ⟨(map_semantic_textPart text).2.symm, textPart_kept (by decide) text⟩

theorem means_reasoning (text : Bytes) :
    Means (textSemantic .reasoning text) (textPart .reasoning text) :=
  ⟨(map_semantic_textPart text).1.symm, textPart_kept (by decide) text⟩

theorem messageSemantics_parts : ∀ {content : List ResponsesContentPart}
    {parts : List ResponsePart}, messageParts content = .ok parts →
      ∃ semantics, messageSemantics content = some semantics ∧ Means semantics parts
  | [], _, h => by
    cases h
    exact ⟨[], rfl, rfl, nofun⟩
  | part :: content, _, h => by
    rw [messageParts] at h
    split at h
    · cases h
    rename_i text htext
    obtain ⟨rest, hrest, rfl⟩ := Fallible.map_eq_ok.mp h
    obtain ⟨semantics, hsems, hmeans⟩ := messageSemantics_parts hrest
    refine ⟨textSemantic .text text ++ semantics, ?_, (means_text text).append hmeans⟩
    rw [messageSemantics, htext]
    dsimp only
    rw [hsems, Option.map_some]

theorem functionCallPart_eq (item : ResponsesOutputItem) :
    (functionCallPart item).type = .toolCall ∧
      (functionCallPart item).providerCallId = (if trimSpace item.callId ≠ [] then item.callId else []) ∧
      (functionCallPart item).toolName =
        (if trimSpace item.name = [] then unparseableToolCallName else item.name) ∧
      (functionCallPart item).toolInput = some (keptInput (inputValue item.arguments)) := by
  unfold functionCallPart
  split <;> exact ⟨rfl, rfl, rfl, rfl⟩

/-- **An item's replay means what the item's parts mean.** -/
theorem itemSemantics_parseItem {raw kept : Value} {item : ResponsesOutputItem}
    {parts : List ResponsePart} (hitem : decodeOutputItem raw = some item)
    (h : parseItem raw item = .ok (kept, parts)) (hraw : Replayable raw) :
    ∃ read semantics, decodeOutputItem kept = some read ∧ read.type = item.type ∧
      itemSemantics read = some semantics ∧ Means semantics parts ∧
      ∀ members ∈ structMembers kept, PlainItem members := by
  unfold parseItem at h
  split at h
  · rename_i htype
    cases hpts : messageParts item.content with
    | error err =>
      rw [hpts] at h
      cases h
    | ok messageParts =>
      rw [hpts] at h
      cases h
      obtain ⟨semantics, hsems, hmeans⟩ := messageSemantics_parts hpts
      exact ⟨item, semantics, hitem, rfl, by rw [itemSemantics, if_pos htype, hsems], hmeans,
        hraw.plain⟩
  rename_i hmsg
  split at h
  · rename_i htype
    split at h
    · cases h
    cases h
    refine ⟨item, _, hitem, rfl, ?_, means_reasoning (reasoningSummaryText item), hraw.plain⟩
    rw [itemSemantics, if_neg hmsg, if_pos htype, if_neg (hraw.encrypted item hitem htype)]
  rename_i hreas
  split at h
  · rename_i htype
    split at h
    · cases h
    rename_i hnb
    cases h
    obtain ⟨hpartType, hid, hname, hinp⟩ := functionCallPart_eq item
    rw [if_pos hnb] at hid
    cases raw with
    | obj members =>
      obtain ⟨hread, hplain⟩ := @decode_functionCallForReplay members item
        (functionCallPart item).toolName (keptArguments item.arguments) hitem (hraw.plain members rfl)
      have hkept := decode_keptArguments item.arguments
      have hval : validToolInput (inputValue (keptArguments item.arguments)) := by
        obtain ⟨input, hobj⟩ := keptInput_obj (inputValue item.arguments)
        rw [inputValue_keptArguments, hobj]
        rfl
      have hnamed : trimSpace (functionCallPart item).toolName ≠ [] := by
        rw [hname]
        split
        · decide +kernel
        · assumption
      refine ⟨_, [⟨.toolCall, [], item.callId, (functionCallPart item).toolName,
        some (keptInput (inputValue item.arguments))⟩], hread, rfl, ?_, ⟨?_, ?_⟩, hplain⟩
      · rw [itemSemantics, if_neg hmsg, if_neg hreas, if_pos htype,
          if_neg (by simp [hnb, hnamed, hval]), hkept]
      · rw [map_singleton, ResponsePart.semantic, hpartType, hid, hinp]
      · intro part hpart
        obtain rfl := mem_singleton.mp hpart
        refine ⟨by simp [ResponsePart.kept, hpartType], by simp [hpartType], fun _ => ?_⟩
        obtain ⟨input, hobj⟩ := keptInput_obj (inputValue item.arguments)
        exact ⟨input, by rw [hinp, hobj]⟩
    | null =>
      cases hitem
      cases htype
    | _ => cases hitem
  rename_i hcall
  split at h
  · cases h
  rename_i hval
  cases h
  refine ⟨item, [], hitem, rfl, ?_, ⟨rfl, by simp⟩, hraw.plain⟩
  rw [itemSemantics, if_neg hmsg, if_neg hreas, if_neg hcall, if_pos (by simpa using hval)]

theorem parseItems_cons {seen : List Bytes} {raws : List Value}
    {items : List (Value × List ResponsePart)} (h : parseItems seen (raw :: raws) = .ok items) :
    ∃ item kept parts rest seen', decodeOutputItem raw = some item ∧
      parseItem raw item = .ok (kept, parts) ∧ parseItems seen' raws = .ok rest ∧
      items = (kept, parts) :: rest := by
  rw [parseItems] at h
  split at h
  · cases h
  rename_i item hitem
  split at h
  · cases h
  split at h
  · cases h
  rename_i parsed hparsed
  obtain ⟨rest, hrest, rfl⟩ := Fallible.map_eq_ok.mp h
  exact ⟨item, parsed.1, parsed.2, rest, _, hitem, hparsed, hrest, rfl⟩

/-- The last item is no reasoning; `pending` stands for the item before, if there is none. -/
def EndsPlain (pending : Bool) (raws : List Value) : Prop :=
  match raws.getLast? with
  | none => pending = false
  | some raw => ∀ item ∈ decodeOutputItem raw, item.type ≠ ascii "reasoning"

theorem EndsPlain.tail {pending : Bool} {raws : List Value} {item : ResponsesOutputItem}
    (h : EndsPlain pending (raw :: raws)) (hitem : decodeOutputItem raw = some item) :
    EndsPlain (item.type = ascii "reasoning") raws := by
  cases raws with
  | nil => exact decide_eq_false (h item hitem)
  | cons next raws =>
    unfold EndsPlain at h ⊢
    exact h

theorem responseReplaySemantics_parseItems : ∀ {raws : List Value} {seen : List Bytes}
    {items : List (Value × List ResponsePart)} {pending : Bool},
      parseItems seen raws = .ok items → (∀ raw ∈ raws, Replayable raw) → EndsPlain pending raws →
      ∃ semantics, responseReplaySemantics pending (items.map Prod.fst) = some semantics ∧
        Means semantics (items.flatMap Prod.snd) ∧
        ∀ item ∈ items.map Prod.fst, ∀ members ∈ structMembers item, PlainItem members
  | [], _, _, pending, h, _, hend => by
    cases h
    obtain rfl : pending = false := hend
    exact ⟨[], rfl, ⟨rfl, nofun⟩, nofun⟩
  | raw :: raws, _, _, _, h, hraws, hend => by
    obtain ⟨item, kept, parts, rest, seen', hitem, hpar, hrest, rfl⟩ := parseItems_cons h
    obtain ⟨hraw, hraws⟩ := forall_mem_cons.mp hraws
    obtain ⟨read, first, hread, htype, hfst, hmeans, hplain⟩ := itemSemantics_parseItem hitem hpar hraw
    obtain ⟨semantics, hsems, hmeans', hplains⟩ :=
      responseReplaySemantics_parseItems hrest hraws (hend.tail hitem)
    refine ⟨first ++ semantics, ?_, hmeans.append hmeans', forall_mem_cons.mpr ⟨hplain, hplains⟩⟩
    rw [map_cons, responseReplaySemantics, hread]
    dsimp only
    rw [hfst, htype]
    rw [hsems]
    rfl

/-! ## Responses -/

def responseOutput (resp : HttpResponse) : List Value :=
  match validateProviderJSON resp.body with
  | .ok body => ((decodeResponsesResponse body).map (·.output)).getD []
  | .error _ => []

theorem parseResponse_ok {resp : HttpResponse} {response : Response}
    (h : parseResponse resp = .ok response) :
    ∃ items, parseItems [] (responseOutput resp) = .ok items ∧
      response.content = items.flatMap Prod.snd ∧
      response.providerReplay =
        if items.isEmpty then none else some (.arr (items.map Prod.fst)) := by
  unfold parseResponse at h
  split at h
  · cases h
  split at h
  · cases h
  rename_i body hbody
  split at h
  · cases h
  rename_i decoded hdecoded
  have hout : responseOutput resp = decoded.output := by
    rw [responseOutput, hbody]
    dsimp only
    rw [hdecoded]
    rfl
  rw [hout]
  split at h
  · cases h
  split at h
  · cases h
  rename_i items hitems
  cases h
  exact ⟨items, hitems, rfl, rfl⟩

theorem completeResponseReplay_eq {source : ModelContext.Message}
    {content : List AssistantContentEntry} {target : ProviderReplayIdentity} {items : List Value}
    {replayed canonical : List ReplaySemantic}
    (hsrc : identityMatches source.providerReplaySource target)
    (hitems : (decode source.providerReplay).bind listItems = some items)
    (hne : items ≠ []) (hrepl : responseReplaySemantics false items = some replayed)
    (hcanonical : canonicalSemantics none content = some canonical)
    (hsame : sameSemantics replayed canonical) :
    completeResponseReplay source content target = some items := by
  unfold completeResponseReplay
  rw [if_neg (by simpa using hsrc), hitems]
  cases items with
  | nil => exact absurd rfl hne
  | cons item items =>
    dsimp only
    rw [hrepl, hcanonical]
    dsimp only
    rw [if_pos hsame]

/-- **A response is replayed after it has been stored**: the replay check accepts the response's own
items as the column gives them back, in their order, for the content the response is stored as. -/
theorem completeResponseReplay_parsed (resp : HttpResponse) (response : Response)
    (source : ModelContext.Message) (content : List AssistantContentEntry)
    (target : ProviderReplayIdentity) (numbers : JsonbNumbers)
    (hparse : parseResponse resp = .ok response)
    (houtput : responseOutput resp ≠ [])
    (hreplayable : ∀ raw ∈ responseOutput resp, Replayable raw)
    (hlast : ∀ raw ∈ (responseOutput resp).getLast?, ∀ item ∈ decodeOutputItem raw,
      item.type ≠ ascii "reasoning")
    (hstored : StoredAs response.content content)
    (hreplay : ReplayStored numbers response.providerReplay source)
    (hsource : identityMatches source.providerReplaySource target) :
    ∃ items, response.providerReplay = some (.arr items) ∧
      completeResponseReplay source content target = some (items.map (jsonb numbers.write)) := by
  obtain ⟨items, hparsed, hcontent, hitems⟩ := parseResponse_ok hparse
  have hend : EndsPlain false (responseOutput resp) := by
    unfold EndsPlain
    split
    · rfl
    · rename_i raw hraw
      exact hlast raw hraw
  obtain ⟨semantics, hsemantics, ⟨hmeans, hparts⟩, hplain⟩ :=
    responseReplaySemantics_parseItems hparsed hreplayable hend
  rw [hcontent, StoredAs, filter_eq_self.mpr fun part hpart => (hparts part hpart).1] at hstored
  obtain ⟨canonical, hcanonical, hsame⟩ := @canonicalSemantics_stored none _ _
    (fun part hpart => (hparts part hpart).2) hstored
  obtain ⟨item, rest, rfl⟩ : ∃ item rest, items = item :: rest := by
    cases hraws : responseOutput resp with
    | nil => exact absurd hraws houtput
    | cons raw raws =>
      rw [hraws] at hparsed
      obtain ⟨-, -, -, rest, -, -, -, -, rfl⟩ := parseItems_cons hparsed
      exact ⟨_, _, rfl⟩
  refine ⟨_, hitems, completeResponseReplay_eq hsource ?_ nofun
    ((responseReplaySemantics_jsonb numbers false hplain).trans hsemantics) hcanonical
    (hmeans ▸ hsame)⟩
  rw [hreplay, hitems]
  exact listItems_jsonb (.arr ((item :: rest).map Prod.fst))

/-! ## Runs -/

def responsesIdentity : ProviderReplayIdentity :=
  ⟨ascii "openai", ascii "gpt", ascii "openai_responses", ascii "default"⟩

def outputResponse (output : String) : HttpResponse where
  statusCode := 200
  body := ascii r#"{"id": "r", "status": "completed", "output": ["# ++ ascii output ++ ascii r"]}"

/-- A response with a thought and a call without a usable name or input. -/
def thoughtResponse : HttpResponse := outputResponse
  r#"{"type": "reasoning", "encrypted_content": "e", "summary": [
      {"type": "summary_text", "text": "hm"}]},
    {"type": "function_call", "call_id": "c1", "name": " ", "arguments": 5, "status": "done"}"#

def thoughtMessage : ModelContext.Message := storedOutput responsesIdentity
  r#"[{"type": "reasoning", "summary": [{"text": "hm", "type": "summary_text"}],
      "encrypted_content": "e"},
    {"name": "unparseable_tool_call", "type": "function_call", "call_id": "c1", "arguments": "{}"}]"#

def thoughtContent : List AssistantContentEntry :=
  [.block (ascii r#"{"type": "reasoning", "text": "hm"}"#),
    .toolCall { storedCall "c" "c1" with name := unparseableToolCallName }]

/-- The response's own items are accepted; the call has the replaced name and arguments. -/
theorem completeResponseReplay_parsed_thought :
    ∃ response items, parseResponse thoughtResponse = .ok response ∧
      response.providerReplay = some (.arr items) ∧
      completeResponseReplay thoughtMessage thoughtContent responsesIdentity =
        some (items.map (jsonb id)) := by
  have hrun : ∃ response ∈ (parseResponse thoughtResponse).toOption,
      StoredAs response.content thoughtContent ∧
      ReplayStored .asWritten response.providerReplay thoughtMessage := by decide +kernel
  have houtput : responseOutput thoughtResponse ≠ [] ∧
      (∀ raw ∈ responseOutput thoughtResponse, Replayable raw) ∧
      ∀ raw ∈ (responseOutput thoughtResponse).getLast?, ∀ item ∈ decodeOutputItem raw,
        item.type ≠ ascii "reasoning" := by decide +kernel
  obtain ⟨response, hresponse, hstored, hreplay⟩ := hrun
  obtain ⟨items, hitems, haccepted⟩ := completeResponseReplay_parsed thoughtResponse response
    thoughtMessage thoughtContent responsesIdentity .asWritten (Fallible.mem_toOption hresponse)
    houtput.1 houtput.2.1 houtput.2.2 hstored hreplay (by decide +kernel)
  exact ⟨response, items, Fallible.mem_toOption hresponse, hitems, haccepted⟩

/-- A response without output has no replay. A call with two members `call_id` and `CALL_ID`, or a part
with `text` and `Text`, is parsed with the one that comes last and read back from the column with the
other; of two members `content` the first fills the text that the second leaves out, and only the second
is in the column. -/
theorem completeResponseReplay_rejects :
    (∃ response ∈ (parseResponse (outputResponse "")).toOption, StoredAs response.content [] ∧
      ∀ numbers source, ReplayStored numbers response.providerReplay source →
        completeResponseReplay source [] responsesIdentity = none) ∧
    identityMatches responsesIdentity responsesIdentity ∧
    ∀ run ∈ [(r#"{"type": "function_call", "call_id": "a", "CALL_ID": "b", "name": "run",
            "arguments": "{}"}"#,
          r#"[{"name": "run", "type": "function_call", "CALL_ID": "b", "call_id": "a",
            "arguments": "{}"}]"#, [.toolCall (storedCall "c" "b")]),
        (r#"{"type": "message", "content": [{"type": "text", "text": "a", "Text": "b"}]}"#,
          r#"[{"type": "message", "content": [{"Text": "b", "text": "a", "type": "text"}]}]"#,
          [.block (ascii r#"{"type": "text", "text": "b"}"#)]),
        (r#"{"type": "message", "content": [{"text": "a"}], "content": [{"type": "text"}]}"#,
          r#"[{"type": "message", "content": [{"type": "text"}]}]"#,
          [.block (ascii r#"{"type": "text", "text": "a"}"#)])],
      ∃ response ∈ (parseResponse (outputResponse run.1)).toOption,
        StoredAs response.content run.2.2 ∧
        ReplayStored .asWritten response.providerReplay (storedOutput responsesIdentity run.2.1) ∧
        completeResponseReplay (storedOutput responsesIdentity run.2.1) run.2.2 responsesIdentity =
          none := by
  refine ⟨?_, by decide +kernel, by decide +kernel⟩
  have hrun : ∃ response ∈ (parseResponse (outputResponse "")).toOption,
      StoredAs response.content [] ∧ response.providerReplay = none := by decide +kernel
  obtain ⟨response, hresponse, hstored, hnone⟩ := hrun
  refine ⟨response, hresponse, hstored, fun numbers source hsource => ?_⟩
  rw [completeResponseReplay, hsource, hnone]
  split <;> rfl

end OpenAIResponses
