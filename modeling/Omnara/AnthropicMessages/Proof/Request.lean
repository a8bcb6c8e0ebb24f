import Omnara.AnthropicMessages.Proof.Pairing
import Omnara.AnthropicMessages.Proof.ToolUseId
import Omnara.Model.Proof.Replay

/-!
# The conversation of an Anthropic request

`TurnOf` says what an assistant entry contributes: one call a result, in the order of the results, under
ids that are new to the conversation. It holds for replayed entries (`completeAnthropicReplay_turnOf`)
and for rebuilt ones (`rebuildEntries_turnOf`). The loop over the history then keeps the conversation
`Open` without pending calls (`buildEntry_open`), a cache breakpoint does not change what is read
(`map_outline_mark`), and `buildMessages_wellPaired` puts it together.
-/

namespace AnthropicMessages

open Json
open Model
open ModelContext

/-! ## The cache breakpoint -/

variable {control : CacheControl}

theorem textMember_setMember_of_ne {key : Bytes} {value : Value} {members : Members} {name : String}
    (h : key ≠ ascii name) :
    textMember (setMember key value members) name = textMember members name := by
  unfold textMember lookupMember
  rw [lookup_insertMember, if_neg h]

theorem reading_of_value {block : Block} {members : Members} (h : block.value = some (.obj members)) :
    readMembers members = block.reading := by
  cases block with
  | part p =>
    cases p with
    | text body control =>
      obtain rfl := Value.obj.inj (Option.some.inj h)
      cases control <;> rfl
    | image source | document source =>
      obtain rfl := Value.obj.inj (Option.some.inj h)
      rfl
  | toolUse id name input =>
    obtain ⟨value, -, hv⟩ := Option.map_eq_some_iff.mp h
    obtain rfl := Value.obj.inj hv
    rfl
  | toolResult id content isError =>
    obtain rfl := Value.obj.inj (Option.some.inj h)
    cases isError <;> rfl
  | raw value =>
    obtain rfl := Option.some.inj h
    rfl
  | fields members =>
    obtain rfl := Value.obj.inj (Option.some.inj h)
    rfl

theorem cacheableBlock_eq {block : Block} {map : Members} (h : cacheableBlock block = some map) :
    ∃ members, block.value = some (.obj members) ∧ map = toMap (memberMaps members) := by
  unfold cacheableBlock at h
  split at h
  · rename_i members hv
    refine ⟨members, hv, ?_⟩
    dsimp only at h
    split at h
    · exact (Option.some.inj (Option.ite_none_right_eq_some.mp h).2).symm
    · exact (Option.some.inj (Option.ite_none_right_eq_some.mp h).2).symm
  · cases h

theorem markBlock_reading {block marked : Block}
    (h : markBlock control block = some marked) : marked.reading = block.reading := by
  obtain ⟨map, hmap, rfl⟩ := Option.map_eq_some_iff.mp h
  obtain ⟨members, hv, rfl⟩ := cacheableBlock_eq hmap
  rw [← reading_of_value hv]
  show readMembers _ = readMembers members
  unfold readMembers
  rw [textMember_setMember_of_ne (by decide), textMember_setMember_of_ne (by decide),
    textMember_setMember_of_ne (by decide), textMember_reorderMembers,
    textMember_reorderMembers, textMember_reorderMembers]

theorem markBlocks_reading : ∀ {blocks marked : List Block},
    markBlocks control blocks = some marked → marked.map Block.reading = blocks.map Block.reading
  | block :: blocks, marked, h => by
    rw [markBlocks] at h
    split at h
    · rename_i rest hrest
      obtain rfl := Option.some.inj h
      rw [List.map_cons, List.map_cons, markBlocks_reading hrest]
    · obtain ⟨first, hfst, rfl⟩ := Option.map_eq_some_iff.mp h
      rw [List.map_cons, List.map_cons, markBlock_reading hfst]

theorem markMessages_outline : ∀ {messages marked : List Message},
    markMessages control messages = some marked →
      marked.map Message.outline = messages.map Message.outline
  | message :: messages, marked, h => by
    rw [markMessages] at h
    split at h
    · rename_i rest hrest
      obtain rfl := Option.some.inj h
      rw [List.map_cons, List.map_cons, markMessages_outline hrest]
    · obtain ⟨blocks, hblks, rfl⟩ := Option.map_eq_some_iff.mp h
      rw [List.map_cons, List.map_cons, Message.outline, Message.outline, markBlocks_reading hblks]

/-- **A cache breakpoint** does not change the conversation. -/
theorem map_outline_mark (messages : List Message) (control : Option CacheControl) :
    (markLastMessageCacheBreakpoint messages control).map Message.outline =
      messages.map Message.outline := by
  unfold markLastMessageCacheBreakpoint
  cases control with
  | none => rfl
  | some control =>
    dsimp only
    cases hmark : markMessages control messages with
    | none => rfl
    | some marked => exact markMessages_outline hmark

theorem map_outline_finish (control : Option CacheControl) (b : Building) :
    (finishMessages control b).map Message.outline = opened (b.messages.map Message.outline) := by
  unfold finishMessages
  extract_lets messages
  have houtline : messages.map Message.outline = b.messages.map Message.outline := by
    dsimp only [messages]
    split
    · exact map_outline_mark b.messages control
    · rfl
  rw [← houtline]
  cases messages with
  | nil => rfl
  | cons first rest =>
    rw [List.map_cons, opened]
    dsimp only
    by_cases hrole : first.role = .assistant
    · rw [if_pos hrole, if_pos (show first.outline.role = .assistant from hrole)]
      rfl
    · rw [if_neg hrole, if_neg (show ¬first.outline.role = .assistant from hrole)]
      rfl

/-! ## One assistant entry -/

/-- The block has, under the exact names, the type and the tool id the decoding finds; Go's decoding
ignores case and takes the last member that fits. -/
def BlockSpelled (raw : Value) : Prop :=
  ∀ members ∈ structMembers raw, ∀ block ∈ decodeContentBlock raw,
    textMember members "type" = block.type ∧
      (block.type = ascii "tool_use" → textMember members "id" = block.id)

instance (raw : Value) : Decidable (BlockSpelled raw) :=
  inferInstanceAs (Decidable (∀ members ∈ structMembers raw, _))

/-- The blocks of a provider replay are spelled that way. -/
def ReplaySpelled (replay : Bytes) : Prop :=
  ∀ items ∈ (decode replay).bind listItems, ∀ raw ∈ items, BlockSpelled raw

instance (replay : Bytes) : Decidable (ReplaySpelled replay) :=
  inferInstanceAs (Decidable (∀ items ∈ (decode replay).bind listItems, _))

structure TurnOf (results : List ToolResultRef) (used : List Bytes) (turn : Turn) : Prop where
  keys : turn.toolUseIds.map Prod.fst = results.map (·.providerCallId)
  calls : callsIn (turn.blocks.map Block.reading) = turn.toolUseIds.map Prod.snd
  answers : answersIn (turn.blocks.map Block.reading) = []
  ids : FreshIds used (turn.toolUseIds.map Prod.snd) turn.usedIds

section
variable {enc : Encodings} {sha256 : Bytes → Vector UInt8 32} {used : List Bytes} {turn : Turn}
  {done : List ToolResultRef} {messages : List ModelContext.Message}

theorem parts_reading (parts : List ContentPart) :
    callsIn ((parts.map Block.part).map Block.reading) = [] ∧
      answersIn ((parts.map Block.part).map Block.reading) = [] := by
  unfold callsIn answersIn
  rw [List.map_map, List.filterMap_map, List.filterMap_map]
  exact ⟨List.filterMap_eq_nil_iff.mpr fun _ _ => rfl, List.filterMap_eq_nil_iff.mpr fun _ _ => rfl⟩

theorem TurnOf.call {id : Bytes} (h : TurnOf done used turn) (call : ToolResultRef)
    (hid : id ∉ turn.usedIds) :
    TurnOf (done ++ [call]) used ⟨turn.blocks ++ [.toolUse id call.name call.input],
      turn.toolUseIds ++ [(call.providerCallId, id)], turn.usedIds ++ [id]⟩ where
  keys := by rw [List.map_append, List.map_append, h.keys]; rfl
  calls := by rw [List.map_append, callsIn_append, List.map_append, h.calls]; rfl
  answers := by rw [List.map_append, answersIn_append, h.answers]; rfl
  ids := by
    have hnew : id ∉ used ∧ id ∉ turn.toolUseIds.map Prod.snd :=
      not_or.mp fun hmem => hid ((h.ids.used id).mpr hmem)
    rw [List.map_append]
    refine ⟨List.nodup_append.mpr ⟨h.ids.nodup, List.nodup_singleton _, ?_⟩, ?_, ?_⟩
    · intro a ha b hb
      obtain rfl := List.mem_singleton.mp hb
      exact fun heq => hnew.2 (heq ▸ ha)
    · intro a ha
      rcases List.mem_append.mp ha with ha | ha
      · exact h.ids.fresh a ha
      · obtain rfl := List.mem_singleton.mp ha
        exact hnew.1
    · intro a
      rw [List.mem_append, List.mem_append, h.ids.used, or_assoc]
      rfl

theorem TurnOf.block {blocks : List Block} (h : TurnOf done used turn)
    (hcalls : callsIn (blocks.map Block.reading) = [])
    (hans : answersIn (blocks.map Block.reading) = []) :
    TurnOf done used { turn with blocks := turn.blocks ++ blocks } where
  keys := h.keys
  calls := by rw [List.map_append, callsIn_append, hcalls, List.append_nil, h.calls]
  answers := by rw [List.map_append, answersIn_append, hans, List.append_nil, h.answers]
  ids := h.ids

/-- **A rebuilt entry.** -/
theorem rebuildEntries_turnOf : ∀ {content : List AssistantContentEntry} {turn : Turn}
    {done : List ToolResultRef}, TurnOf done used turn →
      (∀ raw, .block raw ∈ content → checkValid raw) →
      ∃ turn', rebuildEntries enc sha256 turn content = .ok turn' ∧
        TurnOf (done ++ content.filterMap (·.result?)) used turn'
  | [], turn, done, h, _ => ⟨turn, rfl, by rwa [List.filterMap_nil, List.append_nil]⟩
  | .toolCall call :: content, turn, done, h, hval => by
    obtain ⟨id, hsome, hfr, -⟩ := anthropicToolUseID_spec sha256 call turn.usedIds
    obtain ⟨turn', hrest, hof⟩ := rebuildEntries_turnOf (h.call call hfr)
      fun raw hraw => hval raw (List.mem_cons_of_mem _ hraw)
    refine ⟨turn', ?_, ?_⟩
    · rw [rebuildEntries, hsome]
      exact hrest
    · rwa [List.append_assoc] at hof
  | .block raw :: content, turn, done, h, hval => by
    have hmarshal : marshalledParts [raw] = some ([raw].mapM partFields) :=
      if_pos (by simpa using hval raw List.mem_cons_self)
    obtain ⟨hcalls, hans⟩ := parts_reading
      ((([raw].mapM partFields).getD []).flatMap (renderPart enc compact []))
    obtain ⟨turn', hrest, hof⟩ := rebuildEntries_turnOf (h.block hcalls hans)
      fun raw hraw => hval raw (List.mem_cons_of_mem _ hraw)
    refine ⟨turn', ?_, hof⟩
    rw [rebuildEntries, hmarshal]
    exact hrest

/-- A block that is accepted is read as the call it means, if it means one. -/
theorem replaySemantic_reading {taken : List Bytes} {raw : Value}
    {semantic : Option ReplaySemantic} (h : replaySemantic taken raw = some semantic)
    (hspell : BlockSpelled raw) :
    (∃ s, semantic = some s ∧ s.kind = .toolCall ∧ s.callId ∉ taken ∧
      (Block.raw raw).reading = .call s.callId) ∨
    (callIds semantic.toList = [] ∧ (Block.raw raw).reading = .other) := by
  unfold replaySemantic at h
  split at h
  · cases h
  rename_i block hblk
  cases raw with
  | obj members =>
    obtain ⟨htype, hid⟩ := hspell members rfl block hblk
    have hreading : (Block.raw (.obj members)).reading = readMembers members := rfl
    rw [hreading, readMembers, htype]
    split at h
    · rename_i heq
      refine .inr ⟨?_, by rw [heq]; rfl⟩
      obtain rfl := Option.some.inj h
      split <;> rfl
    split at h
    · rename_i heq
      refine .inr ⟨?_, by rw [heq]; rfl⟩
      obtain ⟨-, h⟩ := Option.ite_none_left_eq_some.mp h
      obtain rfl := Option.some.inj h
      split <;> rfl
    split at h
    · rename_i heq
      refine .inr ⟨?_, by rw [heq]; rfl⟩
      obtain ⟨-, h⟩ := Option.ite_none_left_eq_some.mp h
      obtain rfl := Option.some.inj h
      rfl
    split at h
    · rename_i heq
      obtain ⟨hgood, h⟩ := Option.ite_none_left_eq_some.mp h
      obtain rfl := Option.some.inj h
      refine .inl ⟨_, rfl, rfl, fun hmem => hgood (.inr (.inr (.inl hmem))), ?_⟩
      rw [if_pos heq, hid heq]
    · cases h
  | null =>
    -- `null` leaves all fields empty, and no block has the empty type
    obtain rfl := Option.some.inj hblk
    cases h
  | _ => cases hblk

theorem anthropicReplaySemantics_calls : ∀ {raws : List Value} {taken : List Bytes}
    {semantics : List ReplaySemantic}, anthropicReplaySemantics taken raws = some semantics →
      (∀ raw ∈ raws, BlockSpelled raw) →
      callsIn ((raws.map Block.raw).map Block.reading) = callIds semantics ∧
        answersIn ((raws.map Block.raw).map Block.reading) = [] ∧
        (callIds semantics).Nodup ∧ ∀ id ∈ callIds semantics, id ∉ taken
  | [], taken, _, h, _ => by
    obtain rfl := Option.some.inj h
    exact ⟨rfl, rfl, List.nodup_nil, nofun⟩
  | raw :: raws, taken, semantics, h, hspell => by
    obtain ⟨hraw, hraws⟩ := List.forall_mem_cons.mp hspell
    have hcons : ∀ reading : Reading, (Block.raw raw).reading = reading →
        callsIn (((raw :: raws).map Block.raw).map Block.reading) =
          callsIn [reading] ++ callsIn ((raws.map Block.raw).map Block.reading) ∧
        answersIn (((raw :: raws).map Block.raw).map Block.reading) =
          answersIn [reading] ++ answersIn ((raws.map Block.raw).map Block.reading) := by
      intro reading hreading
      rw [List.map_cons, List.map_cons, hreading, ← List.singleton_append, callsIn_append,
        answersIn_append]
      exact ⟨rfl, rfl⟩
    rw [anthropicReplaySemantics] at h
    split at h
    · cases h
    · rename_i hnone
      obtain ⟨s, hs, -⟩ | ⟨-, hoth⟩ := replaySemantic_reading hnone hraw
      · cases hs
      obtain ⟨hcalls, hans⟩ := hcons _ hoth
      rw [hcalls, hans]
      exact anthropicReplaySemantics_calls h hraws
    · rename_i semantic hsome
      obtain ⟨rest, hrest, rfl⟩ := Option.map_eq_some_iff.mp h
      obtain ⟨hcalls, hans, hnd, hfr⟩ := anthropicReplaySemantics_calls hrest hraws
      obtain ⟨s, hs, hkind, hnew, hcall⟩ | ⟨hno, hoth⟩ := replaySemantic_reading hsome hraw
      · obtain rfl := Option.some.inj hs
        obtain ⟨hcalls', hans'⟩ := hcons _ hcall
        have hids : callIds [semantic] = [semantic.callId] := by
          rw [callIds_cons, if_pos hkind]
          rfl
        rw [hids] at hfr
        rw [hcalls', hans', hcalls, hans, callIds_cons, if_pos hkind]
        refine ⟨rfl, rfl, List.nodup_cons.mpr ⟨fun hmem => ?_, hnd⟩, ?_⟩
        · exact hfr _ hmem List.mem_cons_self
        · refine List.forall_mem_cons.mpr ⟨hnew, fun id hid hmem => ?_⟩
          exact hfr id hid (List.mem_cons_of_mem _ hmem)
      · obtain ⟨hcalls', hans'⟩ := hcons _ hoth
        have hids : callIds [semantic] = [] := hno
        have hcons' : callIds (semantic :: rest) = callIds rest := by
          rw [callIds, ← List.singleton_append, List.filterMap_append]
          exact congrArg (· ++ callIds rest) hids
        rw [hids] at hfr
        rw [hcalls', hans', hcalls, hans, hcons']
        exact ⟨rfl, rfl, hnd, hfr⟩

/-- **A replayed entry.** -/
theorem completeAnthropicReplay_turnOf {source : ModelContext.Message}
    {content : List AssistantContentEntry} {target : ProviderReplayIdentity} {turn : Turn}
    (h : completeAnthropicReplay source content target used = some turn)
    (hspell : ReplaySpelled source.providerReplay) :
    TurnOf (content.filterMap (·.result?)) used turn := by
  unfold completeAnthropicReplay at h
  obtain ⟨-, h⟩ := Option.ite_none_left_eq_some.mp h
  split at h
  · cases h
  · cases h
  rename_i raws _ hitems
  split at h
  · rename_i replayed canonical hrepl hcanonical
    obtain ⟨hsame, h⟩ := Option.ite_none_right_eq_some.mp h
    obtain rfl := Option.some.inj h
    obtain ⟨hcalls, hans, hnd, hfr⟩ := anthropicReplaySemantics_calls hrepl (hspell raws hitems)
    have hkeys : callIds replayed = (content.filterMap (·.result?)).map (·.providerCallId) := by
      rw [callIds_same hsame, callIds_canonical (by simp) hcanonical]
    have hsnd : ((callIds replayed).map fun id => (id, id)).map Prod.snd = callIds replayed := by
      simp [List.map_map, Function.comp_def]
    refine ⟨?_, ?_, hans, ?_⟩
    · simp [List.map_map, Function.comp_def, hkeys]
    · rw [hsnd, hcalls]
    · rw [hsnd]
      exact ⟨hnd, hfr, fun id => List.mem_append⟩
  · cases h

/-- An entry of a history the builder takes: its calls are told apart by their provider ids, and its
replay is spelled plainly. -/
structure Ready (messages : List ModelContext.Message) (entry : HistoryEntry) : Prop
    extends EntryIn messages entry where
  distinct : (entry.toolResults.map (·.providerCallId)).Nodup
  spelled : ReplaySpelled entry.message.providerReplay

theorem assistantTurnForEntry_turnOf {entry : HistoryEntry}
    (hready : Ready messages entry) (target : ProviderReplayIdentity) (policy : RequestPolicy) :
    ∃ turn, assistantTurnForEntry enc sha256 entry target policy used = .ok turn ∧
      TurnOf entry.toolResults used turn := by
  have hstart : TurnOf [] used ⟨[], [], used⟩ := ⟨rfl, rfl, rfl, .nil⟩
  rw [hready.results]
  unfold assistantTurnForEntry
  extract_lets replayed
  cases hrepl : replayed with
  | some turn =>
    obtain ⟨-, h⟩ := Option.ite_none_right_eq_some.mp hrepl
    exact ⟨turn, rfl, completeAnthropicReplay_turnOf h hready.spelled⟩
  | none => exact rebuildEntries_turnOf hstart hready.valid

theorem lookup_of_nodup {l : List (Bytes × Bytes)} (hnd : (l.map Prod.fst).Nodup)
    {p : Bytes × Bytes} (hp : p ∈ l) : l.lookup p.1 = some p.2 := by
  induction l with
  | nil => cases hp
  | cons q l ih =>
    obtain ⟨hq, hrest⟩ := List.nodup_cons.mp hnd
    rw [List.lookup_cons]
    rcases List.mem_cons.mp hp with rfl | hp
    · simp
    · have hne : (p.1 == q.1) = false := by
        rw [beq_eq_false_iff_ne]
        intro heq
        exact hq (heq ▸ List.mem_map_of_mem hp)
      rw [hne]
      exact ih hrest hp

theorem TurnOf.answers_eq {results : List ToolResultRef} (h : TurnOf results used turn)
    (hdist : (results.map (·.providerCallId)).Nodup) (media : List (Bytes × ResolvedMedia)) :
    (results.map (toolResultBlock enc media turn.toolUseIds)).map Block.reading =
      (turn.toolUseIds.map Prod.snd).map .answer := by
  have hread : ((Block.reading ∘ toolResultBlock enc media turn.toolUseIds) : ToolResultRef → Reading) =
      (fun key => .answer ((turn.toolUseIds.reverse.lookup key).getD [])) ∘ (·.providerCallId) := rfl
  rw [List.map_map, hread, ← List.map_map, ← h.keys, List.map_map, List.map_map]
  apply List.map_congr_left
  intro p hp
  have hnd : (turn.toolUseIds.reverse.map Prod.fst).Nodup := by
    rw [List.map_reverse, List.nodup_reverse, h.keys]
    exact hdist
  have hlk : turn.toolUseIds.reverse.lookup p.1 = some p.2 :=
    lookup_of_nodup hnd (List.mem_reverse.mpr hp)
  rw [Function.comp_apply, Function.comp_apply, hlk]
  rfl

variable {media : List (Bytes × ResolvedMedia)} {policy : RequestPolicy}
  {target : ProviderReplayIdentity}

/-- **One entry** keeps the conversation open, without pending calls. -/
theorem buildEntry_open {entry : HistoryEntry} {b : Building}
    (hready : Ready messages entry) (h : Open b.usedIds [] (b.messages.map Message.outline)) :
    ∃ b', buildEntry enc sha256 media policy target b entry = .ok b' ∧
      Open b'.usedIds [] (b'.messages.map Message.outline) := by
  unfold buildEntry
  by_cases hrole : entry.message.role = .assistant
  · rw [if_pos hrole]
    obtain ⟨turn, hturn, hof⟩ :=
      @assistantTurnForEntry_turnOf enc sha256 b.usedIds _ _ hready target policy
    rw [hturn]
    dsimp only
    by_cases hblks : turn.blocks = []
    · -- no blocks, no calls, no results
      have hids : turn.toolUseIds.map Prod.snd = [] := by
        rw [← hof.calls, hblks]
        rfl
      have hresults : entry.toolResults = [] := by
        have hkeys := hof.keys
        rw [List.map_eq_nil_iff.mp hids] at hkeys
        exact List.map_eq_nil_iff.mp hkeys.symm
      rw [if_pos hblks, if_pos hresults]
      exact ⟨_, rfl, h.mono fun id hid => (hof.ids.used id).mpr (.inl hid)⟩
    · rw [if_neg hblks]
      have hopen : Open turn.usedIds (turn.toolUseIds.map Prod.snd)
          ((appendMessageBlocks b.messages .assistant turn.blocks).map Message.outline) := by
        rw [map_outline_appendMessageBlocks, ← hof.calls]
        exact h.append (hof.calls ▸ hof.ids) (fun _ => rfl) hof.answers
      by_cases hresults : entry.toolResults = []
      · have hids : turn.toolUseIds.map Prod.snd = [] := by
          have hkeys := hof.keys
          rw [hresults] at hkeys
          rw [List.map_eq_nil_iff.mp hkeys]
          rfl
        rw [if_pos hresults]
        exact ⟨_, rfl, hids ▸ hopen⟩
      · rw [if_neg hresults]
        refine ⟨_, rfl, ?_⟩
        dsimp only
        rw [map_outline_appendMessageBlocks, hof.answers_eq hready.distinct]
        refine hopen.answer ?_
        rw [map_outline_appendMessageBlocks]
        exact exists_getLast?_appendReadings
  · rw [if_neg hrole]
    extract_lets blocks
    by_cases hblks : blocks = []
    · rw [if_pos hblks]
      exact ⟨b, rfl, h⟩
    · rw [if_neg hblks]
      obtain ⟨hcalls, hans⟩ :=
        parts_reading ((renderAnthropicContent enc media entry.message.content).getD [])
      refine ⟨_, rfl, ?_⟩
      dsimp only
      rw [map_outline_appendMessageBlocks, ← hcalls]
      exact h.append (hcalls ▸ .nil) (fun hne => absurd hcalls hne) hans

theorem buildEntries_open : ∀ {history : List HistoryEntry}
    {b : Building}, (∀ entry ∈ history, Ready messages entry) →
      Open b.usedIds [] (b.messages.map Message.outline) →
      ∃ b', buildEntries enc sha256 media policy target b history = .ok b' ∧
        Open b'.usedIds [] (b'.messages.map Message.outline)
  | [], b, _, h => ⟨b, rfl, h⟩
  | entry :: history, b, hready, h => by
    obtain ⟨hent, hhist⟩ := List.forall_mem_cons.mp hready
    obtain ⟨b', hb', hopen⟩ := buildEntry_open hent h
    obtain ⟨b'', hb'', hopen'⟩ := buildEntries_open hhist hopen
    refine ⟨b'', ?_, hopen'⟩
    rw [buildEntries, hb']
    exact hb''

end

theorem checkpointMessages_open (checkpoint : Option Bytes) (control : Option CacheControl) :
    Open [] [] ((checkpointMessages checkpoint control).map Message.outline) := by
  have hemp : Open [] [] [] := ⟨nofun, .nil, nofun, nofun, .nil, nofun⟩
  cases checkpoint with
  | none => exact hemp
  | some text =>
    rw [checkpointMessages, map_outline_appendMessageBlocks]
    show Open [] (callsIn [.other]) (appendReadings [] .user [.other])
    exact hemp.append .nil (fun hne => absurd rfl hne) rfl

/-- **The request of a bundle**: the user speaks first, the parties take turns, all tool ids differ, and
every call is answered once, at the start of the next message, with no other answer anywhere. The ids
the builder makes are new, have at most 64 of the allowed characters, and are found within one round
more than there are ids in use. -/
theorem buildMessages_wellPaired (enc : Encodings) (sha256 : Bytes → Vector UInt8 32)
    (bundle : Bundle) (history : List HistoryEntry) (policy : RequestPolicy)
    (target : ProviderReplayIdentity) (control : Option CacheControl)
    (hhistory : canonicalHistory bundle = .ok history)
    (hdistinct : ∀ entry ∈ history, (entry.toolResults.map (·.providerCallId)).Nodup)
    (hspelled : ∀ m ∈ bundle.messages, ReplaySpelled m.providerReplay) :
    (∃ messages, buildMessages enc sha256 bundle policy target control = .ok messages ∧
      WellPaired (messages.map Message.outline)) ∧
    ∀ (result : ToolResultRef) (used : List Bytes), ∃ id,
      anthropicToolUseID sha256 result used = some id ∧ id ∉ used ∧
        (used.length < 2 ^ 63 → IdShape id) := by
  refine ⟨?_, anthropicToolUseID_spec sha256⟩
  obtain ⟨-, hof⟩ := canonicalHistory_ok_iff.mp hhistory
  have hready : ∀ entry ∈ history, Ready bundle.messages entry := by
    intro entry hentry
    have hin := hof.entryIn entry hentry
    refine ⟨hin, hdistinct entry hentry, ?_⟩
    rcases hin.message with hmessage | hnotice
    · exact hspelled _ hmessage
    · rw [hnotice]
      nofun
  obtain ⟨b, hb, hopen⟩ := @buildEntries_open enc sha256 _ (renderableMedia bundle.resolvedMedia)
    policy target _ ⟨checkpointMessages bundle.contextCheckpoint control, [], false⟩ hready
    (checkpointMessages_open _ _)
  refine ⟨finishMessages control b, ?_, ?_⟩
  · rw [buildMessages, hhistory]
    dsimp only
    rw [hb]
    rfl
  · rw [map_outline_finish]
    exact hopen.wellPaired

/-! ## Runs -/

def zeroHash (_ : Bytes) : Vector UInt8 32 := Vector.replicate 32 0

def claudeIdentity : ProviderReplayIdentity :=
  ⟨ascii "anthropic", ascii "claude", ascii "anthropic_messages", ascii "default"⟩

def callMessage (id : String) (sequence : Int) : ModelContext.Message where
  id := ascii id
  modelCallContextId := ascii id
  role := .assistant
  sequence := sequence
  content := ascii r#"[{"type":"tool_call","tool_call_id":"c"}]"#
  providerReplay := ascii r#"[{"id":"toolu_1","name":"run","type":"tool_use","input":{}}]"#
  providerReplaySource := claudeIdentity
  stopReason := .toolUse

def callResult (context : String) : ToolResultRef :=
  { storedCall "c" "toolu_1" with
    modelCallContextId := ascii context
    contentParts := ascii r#"[{"type":"text","text":"done"}]"# }

def reusedIdBundle : Bundle where
  messages := [callMessage "m1" 1, callMessage "m2" 2]
  toolResults := [callResult "m1", callResult "m2"]

/-- The first output is replayed, the second one gets a new id. -/
theorem buildMessages_wellPaired_reused :
    ∃ messages, buildMessages plainEncodings zeroHash reusedIdBundle {} claudeIdentity none =
        .ok messages ∧ WellPaired (messages.map Message.outline) ∧
      messages.map Message.outline = [⟨.user, [.other]⟩, ⟨.assistant, [.call (ascii "toolu_1")]⟩,
        ⟨.user, [.answer (ascii "toolu_1")]⟩,
        ⟨.assistant, [.call (ascii "m2_toolu_1_00000000")]⟩,
        ⟨.user, [.answer (ascii "m2_toolu_1_00000000")]⟩] := by
  have hids : ∃ history ∈ (canonicalHistory reusedIdBundle).toOption, ∀ entry ∈ history,
      (entry.toolResults.map (·.providerCallId)).Nodup := by decide +kernel
  obtain ⟨history, hhistory, hids⟩ := hids
  obtain ⟨messages, hmessages, hpaired⟩ := (buildMessages_wellPaired plainEncodings zeroHash
    reusedIdBundle history {} claudeIdentity none (Fallible.mem_toOption hhistory) hids
    (by decide +kernel)).1
  exact ⟨messages, hmessages, hpaired, Fallible.map_of_ok hmessages (by decide +kernel)⟩

/-- An output whose replay has a block with its type in another spelling. -/
def oddTypeBundle : Bundle where
  messages := [{ callMessage "m1" 1 with
    providerReplay := ascii r#"[{"id":"toolu_1","TYPE":"tool_use","name":"run","input":{}}]"# }]
  toolResults := [callResult "m1"]

/-- Go's decoding takes the block for a call, so it is replayed. As it is sent it has no type, and the
answer is to no call. -/
theorem buildMessages_oddType : (∃ history, canonicalHistory oddTypeBundle = .ok history ∧
      ∀ entry ∈ history, (entry.toolResults.map (·.providerCallId)).Nodup ∧
        ∀ r ∈ entry.toolResults, Text.trimSpace r.providerCallId ≠ []) ∧
    ∃ messages, buildMessages plainEncodings zeroHash oddTypeBundle {} claudeIdentity none =
        .ok messages ∧
      messages.map Message.outline = [⟨.user, [.other]⟩, ⟨.assistant, [.other]⟩,
        ⟨.user, [.answer (ascii "toolu_1")]⟩] ∧
      ¬WellPaired (messages.map Message.outline) := by
  have hrun : ∃ history ∈ (canonicalHistory oddTypeBundle).toOption,
      ∀ entry ∈ history, (entry.toolResults.map (·.providerCallId)).Nodup ∧
        ∀ r ∈ entry.toolResults, Text.trimSpace r.providerCallId ≠ [] := by decide +kernel
  have hbuilt : ∃ messages ∈ (buildMessages plainEncodings zeroHash oddTypeBundle {} claudeIdentity
      none).toOption, messages.map Message.outline = [⟨.user, [.other]⟩, ⟨.assistant, [.other]⟩,
        ⟨.user, [.answer (ascii "toolu_1")]⟩] := by decide +kernel
  obtain ⟨history, hhistory, hids⟩ := hrun
  obtain ⟨messages, hmessages, houtline⟩ := hbuilt
  refine ⟨⟨history, Fallible.mem_toOption hhistory, hids⟩, messages, Fallible.mem_toOption hmessages,
    houtline, fun hpaired => ?_⟩
  rw [houtline] at hpaired
  obtain ⟨-, hanswers⟩ : _ ∧ Answers ⟨.assistant, [.other]⟩ ⟨.user, [.answer (ascii "toolu_1")]⟩ := by
    simpa using hpaired.answered
  exact absurd hanswers.answers (by decide)

end AnthropicMessages
