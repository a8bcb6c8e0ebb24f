import Omnara.AnthropicMessages.Proof.Request

/-!
# A response is replayed after it has been stored

The parser and the replay check walk the same blocks. `replaySemantic_parseBlock`: a block's item for
the replay means what the block's part means; a tool call is written anew by the parser
(`decode_toolUseForReplay`). `replaySemantics_parseBlocks` lifts this to a response. The `jsonb` form of
the items means what they mean (`anthropicReplaySemantics_jsonb`) and so does the stored content
(`canonicalSemantics_stored`), so the replay is accepted (`completeAnthropicReplay_parsed`).
-/

namespace AnthropicMessages

open Json
open Model List
open ModelContext
open Text (trimSpace)

/-! ## Blocks of tool calls -/

/-- The names of the members a block is read from. -/
def blockNames : List String :=
  ["type", "text", "id", "name", "input", "thinking", "signature", "data"]

/-- Each of the names is the name of at most one member, in this spelling. -/
def PlainBlock (raw : Value) : Prop := ∀ members ∈ structMembers raw, PlainNames blockNames members

instance (raw : Value) : Decidable (PlainBlock raw) :=
  inferInstanceAs (Decidable (∀ members ∈ structMembers raw, _))

/-- **The item of a tool call** decodes to the call with the name and input of its part. -/
theorem decode_toolUseForReplay {members : Members} {block : ContentBlock} {part : ResponsePart}
    {input : Value} (hblk : decodeContentBlock (.obj members) = some block)
    (hpl : PlainNames blockNames members) (hinp : part.toolInput = some input) :
    decodeContentBlock (toolUseForReplay (.obj members) part) =
        some { block with name := part.toolName, input := some input } ∧
      PlainBlock (toolUseForReplay (.obj members) part) := by
  simp only [decodeContentBlock, structMembers, Option.bind_eq_bind, Option.bind_some,
    Option.bind_eq_some_iff, Option.pure_def, Option.some.injEq] at hblk
  obtain ⟨type, htype, text, htext, id, hid, name, hname, thinking, hthink, signature, hsign, data,
    hdata, rfl⟩ := hblk
  unfold toolUseForReplay
  rw [hinp]
  have hmap := @PlainNames.mapBy bytewise _ _ hpl
  have hset : PlainNames blockNames (setMember (ascii "input") input (toMap members)) :=
    hmap.insertMember (by decide)
  refine ⟨?_, fun _ hmem => Option.some.inj hmem ▸ hset.insertMember (by decide)⟩
  -- the fields the parser writes are the only ones of their names, the others are those of the block
  have hflds : ∀ field ∈ blockNames, fieldMembers (setMember (ascii "name") (.str part.toolName)
      (setMember (ascii "input") input (toMap members))) field =
        if ascii "name" = ascii field then [(ascii "name", .str part.toolName)]
        else if ascii "input" = ascii field then [(ascii "input", input)]
        else fieldMembers members field := by
    intro field hfield
    rw [hset.fieldMembers_insertMember hfield (by decide),
      hmap.fieldMembers_insertMember hfield (by decide), fieldMembers_mapBy (hpl.length_le hfield)]
  unfold stringField fieldValues at htype htext hid hthink hsign hdata
  simp (disch := decide) only [decodeContentBlock, structMembers, Option.bind_eq_bind,
    Option.bind_some, stringField, rawField, fieldValues, hflds, if_neg, htype, htext, hid, hthink,
    hsign, hdata]
  rfl

/-! ## Stored blocks -/

section
variable (numbers : JsonbNumbers)

theorem decodeContentBlock_jsonb {raw : Value} (hraw : PlainBlock raw) :
    decodeContentBlock (jsonb numbers.write raw) = (decodeContentBlock raw).map fun block =>
      { block with input := block.input.map (jsonb numbers.write) } := by
  unfold decodeContentBlock
  rw [structMembers_jsonb]
  cases hmems : structMembers raw with
  | none => rfl
  | some members =>
    have hpl := hraw members hmems
    simp (disch := decide) only [Option.map_some, Option.bind_eq_bind, Option.bind_some,
      hpl.stringField_jsonb, hpl.rawField_jsonb, Option.map_bind, Function.comp_def, Option.pure_def]

theorem validToolInput_jsonb (input : Option Value) :
    validToolInput (input.map (jsonb numbers.write)) = validToolInput input := by
  cases input with
  | none => rfl
  | some value => cases value <;> simp [reorder, validToolInput]

theorem replaySemantic_jsonb {raw : Value} (hraw : PlainBlock raw) (taken : List Bytes) :
    replaySemantic taken (jsonb numbers.write raw) =
      (replaySemantic taken raw).map (Option.map (·.stored numbers)) := by
  unfold replaySemantic
  rw [decodeContentBlock_jsonb numbers hraw]
  cases decodeContentBlock raw with
  | none => rfl
  | some block =>
    simp only [Option.map_some, validToolInput_jsonb]
    split_ifs <;> rfl

theorem anthropicReplaySemantics_jsonb : ∀ {items : List Value} (taken : List Bytes),
    (∀ item ∈ items, PlainBlock item) →
      anthropicReplaySemantics taken (items.map (jsonb numbers.write)) =
        (anthropicReplaySemantics taken items).map (List.map (·.stored numbers))
  | [], _, _ => rfl
  | item :: items, taken, h => by
    obtain ⟨hitem, hitems⟩ := forall_mem_cons.mp h
    have ih := fun taken => anthropicReplaySemantics_jsonb taken hitems
    rw [map_cons, anthropicReplaySemantics, anthropicReplaySemantics,
      replaySemantic_jsonb numbers hitem]
    cases replaySemantic taken item with
    | none => rfl
    | some semantic =>
      cases semantic with
      | none => exact ih taken
      | some semantic =>
        simp only [Option.map_some, ih, Option.map_map, Function.comp_def, map_cons]
        rfl

end

/-! ## Blocks of a response -/

/-- A block the provider would take back: its members have plain names, a thinking block is signed and a
redacted one has its data. -/
structure Replayable (raw : Value) : Prop where
  plain : PlainBlock raw
  signed : ∀ block ∈ decodeContentBlock raw,
    block.type = ascii "thinking" → block.signature ≠ []
  sealed : ∀ block ∈ decodeContentBlock raw,
    block.type = ascii "redacted_thinking" → block.data ≠ []

instance (raw : Value) : Decidable (Replayable raw) :=
  decidable_of_iff (_ ∧ _ ∧ _)
    ⟨fun ⟨plain, signed, sealed⟩ => ⟨plain, signed, sealed⟩, fun h => ⟨h.plain, h.signed, h.sealed⟩⟩

theorem toolCallPart_eq (block : ContentBlock) (cutOff : Bool) :
    (toolCallPart block cutOff).type = .toolCall ∧
      (toolCallPart block cutOff).providerCallId =
        (newToolCallPart block.id block.name block.input).providerCallId ∧
      (toolCallPart block cutOff).toolName ≠ [] ∧
      ∃ members, (toolCallPart block cutOff).toolInput = some (.obj members) := by
  obtain ⟨members, hmems⟩ := keptInput_obj block.input
  have hname := newToolCallPart_name block.id block.name block.input
  cases cutOff with
  | true | false => exact ⟨rfl, rfl, hname, members, congrArg some hmems⟩

/-- **A block's item means what the block's part means.** -/
theorem replaySemantic_parseBlock {raw item : Value} {cutOff : Bool} {part : Option ResponsePart}
    {taken : List Bytes} (h : parseBlock raw cutOff = .ok (item, part)) (hraw : Replayable raw)
    (hids : ∀ id ∈ toolCallIds part.toList, trimSpace id ≠ [] ∧ id ∉ taken) :
    replaySemantic taken item = some (part.map ResponsePart.semantic) ∧
      (∀ p ∈ part, p.kept ∧ p.Plain) ∧ PlainBlock item := by
  unfold parseBlock at h
  split at h
  · cases h
  rename_i block hblk
  split at h
  · rename_i htype
    cases h
    refine ⟨?_, fun p hp => ?_, hraw.plain⟩
    · rw [replaySemantic, hblk]
      dsimp only
      rw [if_pos htype]
      split <;> rfl
    · obtain ⟨hbl, hp⟩ := Option.ite_none_left_eq_some.mp hp
      cases hp
      exact kept_of_text (fun hnil => hbl (by rw [hnil]; rfl)) (by decide)
  rename_i htext
  split at h
  · rename_i htype
    cases h
    refine ⟨?_, fun p hp => ?_, hraw.plain⟩
    · rw [replaySemantic, hblk]
      dsimp only
      rw [if_neg htext, if_pos htype, if_neg (hraw.signed block hblk htype)]
      split <;> rfl
    · obtain ⟨hemp, hp⟩ := Option.ite_none_left_eq_some.mp hp
      cases hp
      exact kept_of_text hemp (by decide)
  rename_i hthink
  split at h
  · rename_i htype
    cases h
    refine ⟨?_, by simp, hraw.plain⟩
    rw [replaySemantic, hblk]
    dsimp only
    rw [if_neg htext, if_neg hthink, if_pos htype, if_neg (hraw.sealed block hblk htype)]
    rfl
  rename_i hredacted
  split at h
  · rename_i htype
    cases h
    obtain ⟨hcall, hid, hname, input, hinp⟩ := toolCallPart_eq block cutOff
    obtain ⟨hnb, hfr⟩ := hids (toolCallPart block cutOff).providerCallId (by
      simp [toolCallIds, hcall])
    cases raw with
    | obj members =>
      obtain ⟨hread, hitem⟩ := decode_toolUseForReplay hblk (hraw.plain members rfl) hinp
      have hcallId : block.id = (toolCallPart block cutOff).providerCallId := by
        rw [hid] at hnb ⊢
        exact (newToolCallPart_id hnb).symm
      refine ⟨?_, fun p hp => ?_, hitem⟩
      · rw [replaySemantic, hread]
        dsimp only
        rw [if_neg htext, if_neg hthink, if_neg hredacted, if_pos htype, if_neg, Option.map_some,
          ResponsePart.semantic, hcall, hcallId, hinp]
        rw [hcallId]
        rintro (hemp | hemp | hmem | hinvalid)
        · rw [hemp] at hnb
          exact hnb rfl
        · exact hname hemp
        · exact hfr hmem
        · cases hinvalid
      · cases hp
        exact ⟨by simp [ResponsePart.kept, hcall], by simp [hcall], fun _ => ⟨input, hinp⟩⟩
    | null =>
      cases hblk
      cases htype
    | _ => cases hblk
  · cases h

theorem callIds_semantic (p : ResponsePart) : callIds [p.semantic] = toolCallIds [p] := by
  cases htype : p.type <;> simp [callIds, ResponsePart.semantic, toolCallIds, htype]

theorem toolCallIds_cons (p : ResponsePart) (parts : List ResponsePart) :
    toolCallIds (p :: parts) = toolCallIds [p] ++ toolCallIds parts := by
  unfold toolCallIds
  rw [← singleton_append, filter_append, map_append]

theorem parseBlocks_cons {cutOff : Bool} {raw : Value} {raws : List Value}
    {blocks : List (Value × Option ResponsePart)} (h : parseBlocks cutOff (raw :: raws) = .ok blocks) :
    ∃ item part rest, parseBlock raw (cutOff && raws.isEmpty) = .ok (item, part) ∧
      parseBlocks cutOff raws = .ok rest ∧ blocks = (item, part) :: rest := by
  obtain ⟨block, hblk, h⟩ := Fallible.bind_eq_ok.mp h
  obtain ⟨rest, hrest, h⟩ := Fallible.bind_eq_ok.mp h
  exact ⟨block.1, block.2, rest, hblk, hrest, (Except.ok.inj h).symm⟩

theorem replaySemantics_parseBlocks {cutOff : Bool} : ∀ {raws : List Value}
    {blocks : List (Value × Option ResponsePart)} {taken : List Bytes},
      parseBlocks cutOff raws = .ok blocks → (∀ raw ∈ raws, Replayable raw) →
      (toolCallIds (blocks.filterMap Prod.snd)).Nodup →
      (∀ id ∈ toolCallIds (blocks.filterMap Prod.snd), trimSpace id ≠ [] ∧ id ∉ taken) →
      anthropicReplaySemantics taken (blocks.map Prod.fst) =
          some ((blocks.filterMap Prod.snd).map ResponsePart.semantic) ∧
        (∀ p ∈ blocks.filterMap Prod.snd, p.kept ∧ p.Plain) ∧
        ∀ item ∈ blocks.map Prod.fst, PlainBlock item
  | [], _, _, h, _, _, _ => by
    cases h
    exact ⟨rfl, nofun, nofun⟩
  | raw :: raws, blocks, taken, h, hraws, hnd, hids => by
    obtain ⟨hraw, hraws⟩ := forall_mem_cons.mp hraws
    obtain ⟨item, part, rest, hblk, hrest, rfl⟩ := parseBlocks_cons h
    cases part with
    | none =>
      obtain ⟨hsem, -, hitem⟩ := @replaySemantic_parseBlock _ _ _ _ taken hblk hraw nofun
      obtain ⟨hsems, hkept, hplain⟩ := replaySemantics_parseBlocks hrest hraws hnd hids
      refine ⟨?_, hkept, forall_mem_cons.mpr ⟨hitem, hplain⟩⟩
      rw [map_cons, anthropicReplaySemantics, hsem]
      exact hsems
    | some p =>
      have hpts : ((item, some p) :: rest).filterMap Prod.snd = p :: rest.filterMap Prod.snd := rfl
      rw [hpts, toolCallIds_cons] at hnd hids
      obtain ⟨-, hnd, hdisjoint⟩ := nodup_append.mp hnd
      obtain ⟨hsem, hp, hitem⟩ := @replaySemantic_parseBlock _ _ _ _ taken hblk hraw
        fun id hid => hids id (mem_append_left _ hid)
      -- the id of this call is taken for the rest, whose ids are others
      obtain ⟨hsems, hkept, hplain⟩ := @replaySemantics_parseBlocks _ _ _
        (callIds [p.semantic] ++ taken) hrest hraws hnd (by
          intro id hid
          obtain ⟨hnb, hfr⟩ := hids id (mem_append_right _ hid)
          refine ⟨hnb, fun hmem => ?_⟩
          rcases mem_append.mp hmem with hmem | hmem
          · rw [callIds_semantic] at hmem
            exact hdisjoint id hmem id hid rfl
          · exact hfr hmem)
      refine ⟨?_, forall_mem_cons.mpr ⟨hp p rfl, hkept⟩, forall_mem_cons.mpr ⟨hitem, hplain⟩⟩
      rw [map_cons, anthropicReplaySemantics, hsem, Option.map_some]
      dsimp only
      rw [hsems]
      rfl

/-! ## Responses -/

def responseBlocks (resp : HttpResponse) : List Value :=
  match validateProviderJSON resp.body with
  | .ok body => ((decodeMessagesResponse body).map (·.content)).getD []
  | .error _ => []

theorem parseResponse_cases {resp : HttpResponse} {streamed : Bool} {response : Response}
    (h : parseResponse resp streamed = .ok response) :
    ∃ body decoded blocks, validateProviderJSON resp.body = .ok body ∧
      decodeMessagesResponse body = some decoded ∧
      parseBlocks (!streamed && mapStopReason decoded.stopReason = .maxTokens) decoded.content =
        .ok blocks ∧
      response.content = blocks.filterMap Prod.snd ∧
      response.providerReplay =
        if blocks.isEmpty then none else some (.arr (blocks.map Prod.fst)) := by
  unfold parseResponse at h
  split at h
  · cases h
  split at h
  · cases h
  rename_i body hbody
  split at h
  · cases h
  rename_i decoded hdecoded
  split at h
  · cases h
  split at h
  · cases h
  split at h
  · cases h
  dsimp only at h
  split at h
  · cases h
  rename_i blocks hpar
  cases h
  exact ⟨body, decoded, blocks, hbody, hdecoded, hpar, rfl, rfl⟩

theorem parseResponse_ok {resp : HttpResponse} {streamed : Bool} {response : Response}
    (h : parseResponse resp streamed = .ok response) :
    ∃ cutOff blocks, parseBlocks cutOff (responseBlocks resp) = .ok blocks ∧
      response.content = blocks.filterMap Prod.snd ∧
      response.providerReplay =
        if blocks.isEmpty then none else some (.arr (blocks.map Prod.fst)) := by
  obtain ⟨body, decoded, blocks, hbody, hdecoded, hpar, hcont, hrpl⟩ := parseResponse_cases h
  have hblks : responseBlocks resp = decoded.content := by
    rw [responseBlocks, hbody]
    dsimp only
    rw [hdecoded]
    rfl
  rw [hblks]
  exact ⟨_, blocks, hpar, hcont, hrpl⟩

theorem completeAnthropicReplay_eq {source : ModelContext.Message}
    {content : List AssistantContentEntry} {target : ProviderReplayIdentity} {used : List Bytes}
    {items : List Value} {replayed canonical : List ReplaySemantic}
    (hsrc : identityMatches source.providerReplaySource target)
    (hitems : (decode source.providerReplay).bind listItems = some items)
    (hne : items ≠ []) (hrepl : anthropicReplaySemantics used items = some replayed)
    (hcanonical : canonicalSemantics (some { kind := .media }) content = some canonical)
    (hsame : sameSemantics replayed canonical) :
    completeAnthropicReplay source content target used =
      some ⟨items.map .raw, (callIds replayed).map fun id => (id, id),
        used ++ callIds replayed⟩ := by
  unfold completeAnthropicReplay
  rw [if_neg (by simpa using hsrc), hitems]
  cases items with
  | nil => exact absurd rfl hne
  | cons item items =>
    dsimp only
    rw [hrepl, hcanonical]
    dsimp only
    rw [if_pos hsame]

/-- **A response is replayed after it has been stored**: the replay check accepts the response's own
blocks as the column gives them back, in their order, for the content the response is stored as. -/
theorem completeAnthropicReplay_parsed (resp : HttpResponse) (streamed : Bool) (response : Response)
    (source : ModelContext.Message) (content : List AssistantContentEntry)
    (target : ProviderReplayIdentity) (used : List Bytes) (numbers : JsonbNumbers)
    (hparse : parseResponse resp streamed = .ok response)
    (hblocks : responseBlocks resp ≠ [])
    (hreplayable : ∀ raw ∈ responseBlocks resp, Replayable raw)
    (hdistinct : (toolCallIds response.content).Nodup)
    (hids : ∀ id ∈ toolCallIds response.content, trimSpace id ≠ [] ∧ id ∉ used)
    (hstored : StoredAs response.content content)
    (hreplay : ReplayStored numbers response.providerReplay source)
    (hsource : identityMatches source.providerReplaySource target) :
    ∃ items turn, response.providerReplay = some (.arr items) ∧
      completeAnthropicReplay source content target used = some turn ∧
      turn.blocks = items.map fun item => .raw (jsonb numbers.write item) := by
  obtain ⟨cutOff, blocks, hparsed, hcontent, hitems⟩ := parseResponse_ok hparse
  rw [hcontent] at hdistinct hids
  obtain ⟨hsemantics, hparts, hplain⟩ := replaySemantics_parseBlocks hparsed hreplayable hdistinct hids
  have hkept : response.content.filter ResponsePart.kept = response.content := by
    rw [hcontent, filter_eq_self]
    exact fun p hp => (hparts p hp).1
  rw [StoredAs, hkept, hcontent] at hstored
  obtain ⟨canonical, hcanonical, hsame⟩ := @canonicalSemantics_stored (some { kind := .media }) _ _
    (fun p hp => (hparts p hp).2) hstored
  obtain ⟨block, rest, rfl⟩ : ∃ block rest, blocks = block :: rest := by
    cases hraws : responseBlocks resp with
    | nil => exact absurd hraws hblocks
    | cons raw raws =>
      rw [hraws] at hparsed
      obtain ⟨item, part, rest, -, -, rfl⟩ := parseBlocks_cons hparsed
      exact ⟨_, _, rfl⟩
  have hread : (decode source.providerReplay).bind listItems =
      some (((block :: rest).map Prod.fst).map (jsonb numbers.write)) := by
    rw [hreplay, hitems]
    exact listItems_jsonb (.arr ((block :: rest).map Prod.fst))
  have haccepted := completeAnthropicReplay_eq hsource hread nofun
    ((anthropicReplaySemantics_jsonb numbers used hplain).trans (by rw [hsemantics]; rfl))
    hcanonical (sameSemantics_stored numbers hsame)
  exact ⟨_, _, hitems, haccepted, map_map⟩

/-! ## Runs -/

/-- A response with a signed thought and a call without a usable name or input. -/
def thoughtResponse : HttpResponse where
  statusCode := 200
  body := ascii r#"{"id": "msg", "stop_reason": "tool_use", "content": [
    {"type": "thinking", "thinking": "hm", "signature": "s"},
    {"type": "tool_use", "id": "toolu_1", "name": " ", "input": 5}]}"#

def thoughtMessage : ModelContext.Message := storedOutput claudeIdentity
  r#"[{"type": "thinking", "thinking": "hm", "signature": "s"},
    {"id": "toolu_1", "name": "unparseable_tool_call", "type": "tool_use", "input": {}}]"#

def thoughtContent : List AssistantContentEntry :=
  [.block (ascii r#"{"type": "reasoning", "text": "hm"}"#),
    .toolCall { callResult "m1" with name := unparseableToolCallName }]

/-- The response's own blocks are accepted; the call has the replaced name and input. -/
theorem completeAnthropicReplay_parsed_thought :
    ∃ response items turn, parseResponse thoughtResponse false = .ok response ∧
      response.providerReplay = some (.arr items) ∧
      completeAnthropicReplay thoughtMessage thoughtContent claudeIdentity [] = some turn ∧
      turn.blocks = items.map fun item => .raw (jsonb id item) := by
  have hrun : ∃ response ∈ (parseResponse thoughtResponse false).toOption,
      (toolCallIds response.content).Nodup ∧
      (∀ id ∈ toolCallIds response.content, trimSpace id ≠ [] ∧ id ∉ ([] : List Bytes)) ∧
      StoredAs response.content thoughtContent ∧
      ReplayStored .asWritten response.providerReplay thoughtMessage := by
    decide +kernel
  have hblocks : responseBlocks thoughtResponse ≠ [] ∧
      ∀ raw ∈ responseBlocks thoughtResponse, Replayable raw := by decide +kernel
  obtain ⟨response, hresponse, hdistinct, hids, hstored, hreplay⟩ := hrun
  obtain ⟨items, turn, hitems, hturn, hraw⟩ := completeAnthropicReplay_parsed thoughtResponse false
    response thoughtMessage thoughtContent claudeIdentity [] .asWritten
    (Fallible.mem_toOption hresponse) hblocks.1 hblocks.2 hdistinct hids hstored hreplay
    (by decide +kernel)
  exact ⟨response, items, turn, Fallible.mem_toOption hresponse, hitems, hturn, hraw⟩

/-- A response with one block. -/
def blockResponse (block : String) : HttpResponse where
  statusCode := 200
  body := ascii r#"{"id": "msg", "stop_reason": "end_turn", "content": ["# ++ ascii block ++ ascii r"]}"

/-- A response without blocks has no replay. A block with two members `id` and `ID`, or `text` and `Text`,
is parsed with the one that comes last and read back from the column with the other. -/
theorem completeAnthropicReplay_rejects :
    (∃ response ∈ (parseResponse (blockResponse "") false).toOption, StoredAs response.content [] ∧
      ∀ numbers source, ReplayStored numbers response.providerReplay source →
        completeAnthropicReplay source [] claudeIdentity [] = none) ∧
    identityMatches claudeIdentity claudeIdentity ∧
    ∀ run ∈ [(r#"{"type": "tool_use", "id": "a", "ID": "b", "name": "run", "input": {}}"#,
          r#"[{"ID": "b", "id": "a", "name": "run", "type": "tool_use", "input": {}}]"#,
          [AssistantContentEntry.toolCall { callResult "m1" with providerCallId := ascii "b" }]),
        (r#"{"type": "text", "text": "a", "Text": "b"}"#,
          r#"[{"Text": "b", "text": "a", "type": "text"}]"#,
          [.block (ascii r#"{"type": "text", "text": "b"}"#)])],
      ∃ response ∈ (parseResponse (blockResponse run.1) false).toOption,
        StoredAs response.content run.2.2 ∧
        ReplayStored .asWritten response.providerReplay (storedOutput claudeIdentity run.2.1) ∧
        completeAnthropicReplay (storedOutput claudeIdentity run.2.1) run.2.2 claudeIdentity [] =
          none := by
  refine ⟨?_, by decide +kernel⟩
  have hrun : ∃ response ∈ (parseResponse (blockResponse "") false).toOption,
      StoredAs response.content [] ∧ response.providerReplay = none := by decide +kernel
  obtain ⟨response, hresponse, hstored, hnone⟩ := hrun
  refine ⟨response, hresponse, hstored, fun numbers source hsource => ?_⟩
  rw [completeAnthropicReplay, hsource, hnone]
  split <;> rfl

end AnthropicMessages
