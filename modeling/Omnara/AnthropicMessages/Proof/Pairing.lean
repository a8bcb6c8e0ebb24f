import Mathlib.Data.List.Chain
import Mathlib.Data.List.Nodup
import Mathlib.Tactic.Common
import Omnara.AnthropicMessages.Request

/-!
# Calls and answers in a conversation

What a provider reads of a request here: who speaks (`Outline.role`) and which blocks call a tool or
answer a call (`Reading`). `Open` is the invariant of a conversation whose last message has calls that
are not answered yet; `Open.append` adds blocks without answers, `Open.answer` the answers.
`WellPaired` is what a finished conversation has to be.
-/

namespace AnthropicMessages

open List

open Json

/-- A block: a `tool_use` with its id, a `tool_result` with the id it answers, or another one. -/
inductive Reading
  | call (id : Bytes)
  | answer (id : Bytes)
  | other
  deriving DecidableEq

def Reading.call? : Reading → Option Bytes
  | .call id => some id
  | _ => none

def Reading.answer? : Reading → Option Bytes
  | .answer id => some id
  | _ => none

/-- The reading of an object, by the exact names of its members. -/
def readMembers (members : Members) : Reading :=
  if textMember members "type" = ascii "tool_use" then .call (textMember members "id")
  else if textMember members "type" = ascii "tool_result" then
    .answer (textMember members "tool_use_id")
  else .other

def Block.reading : Block → Reading
  | .part _ => .other
  | .toolUse id _ _ => .call id
  | .toolResult id _ _ => .answer id
  | .raw (.obj members) => readMembers members
  | .raw _ => .other
  | .fields members => readMembers members

structure Outline where
  role : Role
  blocks : List Reading
  deriving DecidableEq

def Message.outline (m : Message) : Outline := ⟨m.role, m.content.map Block.reading⟩

def callsIn (blocks : List Reading) : List Bytes := blocks.filterMap Reading.call?

def answersIn (blocks : List Reading) : List Bytes := blocks.filterMap Reading.answer?

/-- The second message is the other party's, its first blocks answer the calls of the first message in
their order and it has no other answers. -/
structure Answers (o o' : Outline) : Prop where
  roles : o.role ≠ o'.role
  leading : (callsIn o.blocks).map .answer <+: o'.blocks
  answers : answersIn o'.blocks = callsIn o.blocks

structure WellPaired (conversation : List Outline) : Prop where
  first : ∃ o ∈ conversation.head?, o.role = .user ∧ answersIn o.blocks = []
  answered : conversation.IsChain Answers
  assistant : ∀ o ∈ conversation, callsIn o.blocks ≠ [] → o.role = .assistant
  last : ∀ o ∈ conversation.getLast?, callsIn o.blocks = []
  distinct : (conversation.flatMap fun o => callsIn o.blocks).Nodup

/-- A conversation whose last message has made the calls `pending`; the ids of all calls are `used`. -/
structure Open (used pending : List Bytes) (conversation : List Outline) : Prop where
  first : ∀ o ∈ conversation.head?, answersIn o.blocks = []
  answered : conversation.IsChain Answers
  assistant : ∀ o ∈ conversation, callsIn o.blocks ≠ [] → o.role = .assistant
  last : ∀ o ∈ conversation.getLast?, callsIn o.blocks = pending
  distinct : (conversation.flatMap fun o => callsIn o.blocks).Nodup
  used : ∀ id ∈ conversation.flatMap (fun o => callsIn o.blocks), id ∈ used

/-- `appendMessageBlocks` on outlines. -/
def appendReadings (conversation : List Outline) (role : Role) (blocks : List Reading) :
    List Outline :=
  match conversation.getLast? with
  | some last =>
    if last.role = role then conversation.dropLast ++ [⟨role, last.blocks ++ blocks⟩]
    else conversation ++ [⟨role, blocks⟩]
  | none => conversation ++ [⟨role, blocks⟩]

theorem map_outline_appendMessageBlocks (messages : List Message) (role : Role)
    (blocks : List Block) : (appendMessageBlocks messages role blocks).map Message.outline =
      appendReadings (messages.map Message.outline) role (blocks.map Block.reading) := by
  unfold appendMessageBlocks appendReadings
  rw [List.getLast?_map]
  cases messages.getLast? with
  | none => simp [Message.outline]
  | some last =>
    by_cases hrole : last.role = role
    · simp [Message.outline, hrole]
    · simp [Message.outline, hrole]

theorem appendReadings_cases (conversation : List Outline) (role : Role) (blocks : List Reading) :
    (∃ init last, conversation = init ++ [last] ∧ last.role = role ∧
      appendReadings conversation role blocks = init ++ [⟨role, last.blocks ++ blocks⟩]) ∨
    ((∀ last ∈ conversation.getLast?, last.role ≠ role) ∧
      appendReadings conversation role blocks = conversation ++ [⟨role, blocks⟩]) := by
  unfold appendReadings
  rcases eq_nil_or_concat conversation with rfl | ⟨init, last, rfl⟩
  · exact .inr ⟨nofun, rfl⟩
  · rw [concat_eq_append, List.getLast?_append, List.getLast?_singleton]
    by_cases hrole : last.role = role
    · exact .inl ⟨init, last, rfl, hrole, by simp [hrole]⟩
    · exact .inr ⟨by simpa using hrole, by simp [hrole]⟩

section
variable {used pending ids : List Bytes} {conversation : List Outline} {role : Role}
  {blocks : List Reading}

theorem callsIn_append (left right : List Reading) :
    callsIn (left ++ right) = callsIn left ++ callsIn right := filterMap_append ..

theorem answersIn_append (left right : List Reading) :
    answersIn (left ++ right) = answersIn left ++ answersIn right := filterMap_append ..

theorem Answers.extend {o o' : Outline} (h : Answers o o') (hans : answersIn blocks = []) :
    Answers o ⟨o'.role, o'.blocks ++ blocks⟩ where
  roles := h.roles
  leading := h.leading.trans (prefix_append ..)
  answers := by rw [answersIn_append, hans, append_nil, h.answers]

theorem Answers.of_no_calls {o o' : Outline} (hroles : o.role ≠ o'.role)
    (hcalls : callsIn o.blocks = []) (hans : answersIn o'.blocks = []) : Answers o o' where
  roles := hroles
  leading := by rw [hcalls]; exact nil_prefix
  answers := by rw [hcalls, hans]

/-- The ids are new: distinct, not used before, used from now on. -/
structure FreshIds (used ids used' : List Bytes) : Prop where
  nodup : ids.Nodup
  fresh : ∀ id ∈ ids, id ∉ used
  used : ∀ id, id ∈ used' ↔ id ∈ used ∨ id ∈ ids

theorem FreshIds.nil : FreshIds used [] used := ⟨nodup_nil, nofun, by simp⟩

variable {used' : List Bytes}

section
variable (h : Open used pending conversation)
include h

theorem Open.nodup_calls (hids : FreshIds used ids used') :
    (conversation.flatMap (fun o => callsIn o.blocks) ++ ids).Nodup := by
  refine nodup_append.mpr ⟨h.distinct, hids.nodup, fun id hid other hoth => ?_⟩
  rintro rfl
  exact hids.fresh id hoth (h.used id hid)

theorem Open.mem_used (hids : FreshIds used ids used') :
    ∀ id ∈ conversation.flatMap (fun o => callsIn o.blocks) ++ ids, id ∈ used' := by
  intro id hid
  rw [hids.used]
  exact (mem_append.mp hid).imp_left (h.used id)

theorem Open.mono (hsub : ∀ id ∈ used, id ∈ used') : Open used' pending conversation :=
  ⟨h.first, h.answered, h.assistant, h.last, h.distinct, fun id hid => hsub id (h.used id hid)⟩

theorem Open.push (hids : FreshIds used (callsIn blocks) used')
    (hasst : callsIn blocks ≠ [] → role = .assistant)
    (hfst : conversation = [] → answersIn blocks = [])
    (hans : ∀ o ∈ conversation.getLast?, Answers o ⟨role, blocks⟩) :
    Open used' (callsIn blocks) (conversation ++ [⟨role, blocks⟩]) where
  first := by
    have hold := h.first
    cases conversation with
    | nil =>
      intro o ho
      cases ho
      exact hfst rfl
    | cons o rest => exact hold
  answered := by
    refine isChain_append.mpr ⟨h.answered, isChain_singleton _, fun x hx y hy => ?_⟩
    cases hy
    exact hans x hx
  assistant := by
    intro o ho hne
    rcases mem_append.mp ho with ho | ho
    · exact h.assistant o ho hne
    · obtain rfl := mem_singleton.mp ho
      exact hasst hne
  last := by simp
  distinct := by simpa using h.nodup_calls hids
  used := by simpa using h.mem_used hids

end

theorem Open.extend {init : List Outline} {last : Outline} (h : Open used [] (init ++ [last]))
    (hids : FreshIds used (callsIn blocks) used')
    (hasst : callsIn blocks ≠ [] → last.role = .assistant) (hans : answersIn blocks = []) :
    Open used' (callsIn blocks) (init ++ [⟨last.role, last.blocks ++ blocks⟩]) := by
  have hcalls : callsIn (last.blocks ++ blocks) = callsIn blocks := by
    rw [callsIn_append, h.last last (by simp), nil_append]
  have hids' : FreshIds used (callsIn (last.blocks ++ blocks)) used' := by rwa [hcalls]
  have hsame : answersIn (last.blocks ++ blocks) = answersIn last.blocks := by
    rw [answersIn_append, hans, append_nil]
  obtain ⟨hinit, -, hlast⟩ := isChain_append.mp h.answered
  -- the conversation before its last message, with the calls that message answers
  have hbef : Open used ((init.getLast?.map fun o => callsIn o.blocks).getD []) init := {
    first := fun o ho => h.first o (by rw [List.head?_append, Option.mem_def.mp ho]; rfl)
    answered := hinit
    assistant := fun o ho => h.assistant o (mem_append_left _ ho)
    last := fun o ho => by rw [Option.mem_def.mp ho]; rfl
    distinct := by
      have hdist := h.distinct
      rw [flatMap_append] at hdist
      exact (nodup_append.mp hdist).1
    used := fun id hid => h.used id (by rw [flatMap_append]; exact mem_append_left _ hid) }
  rw [← hcalls] at hasst ⊢
  refine hbef.push hids' hasst (fun hnil => ?_) (fun o ho => ?_)
  · subst hnil
    rw [hsame]
    exact h.first last rfl
  · exact (hlast o ho last rfl).extend hans

/-- **Blocks without answers** make their calls the pending ones. -/
theorem Open.append (h : Open used [] conversation) (hids : FreshIds used (callsIn blocks) used')
    (hasst : callsIn blocks ≠ [] → role = .assistant) (hans : answersIn blocks = []) :
    Open used' (callsIn blocks) (appendReadings conversation role blocks) := by
  obtain ⟨init, last, rfl, rfl, happ⟩ | ⟨hroles, happ⟩ :=
    appendReadings_cases conversation role blocks
  · rw [happ]
    exact h.extend hids hasst hans
  · rw [happ]
    exact h.push hids hasst (fun _ => hans)
      fun o ho => .of_no_calls (hroles o ho) (h.last o ho) hans

/-- **The answers** to the calls of the assistant's last message. -/
theorem Open.answer (h : Open used ids conversation)
    (hlast : ∃ o ∈ conversation.getLast?, o.role = .assistant) :
    Open used [] (appendReadings conversation .user (ids.map .answer)) := by
  have hcalls : callsIn (ids.map .answer) = [] := by
    simp [callsIn, filterMap_map, Function.comp_def, Reading.call?]
  have hans : answersIn (ids.map .answer) = ids := by
    simp [answersIn, filterMap_map, Function.comp_def, Reading.answer?]
  obtain ⟨o, ho, hrole⟩ := hlast
  obtain ⟨init, last, rfl, huser, -⟩ | ⟨-, happ⟩ :=
    appendReadings_cases conversation .user (ids.map .answer)
  · simp only [List.getLast?_append, List.getLast?_singleton, Option.some_or, Option.mem_def,
      Option.some.injEq] at ho
    rw [ho, hrole] at huser
    cases huser
  · rw [happ, ← hcalls]
    refine h.push (hcalls ▸ .nil) (by simp [hcalls]) (fun hnil => ?_) (fun o' ho' => ?_)
    · rw [hnil] at ho
      cases ho
    · obtain rfl := Option.mem_unique ho ho'
      refine ⟨by rw [hrole]; nofun, ?_, ?_⟩
      · exact h.last o ho ▸ prefix_rfl
      · rw [hans, h.last o ho]

theorem exists_getLast?_appendReadings :
    ∃ o ∈ (appendReadings conversation role blocks).getLast?, o.role = role := by
  obtain ⟨init, last, rfl, -, happ⟩ | ⟨-, happ⟩ := appendReadings_cases conversation role blocks
  · rw [happ]
    exact ⟨⟨role, last.blocks ++ blocks⟩, by simp, rfl⟩
  · rw [happ]
    exact ⟨⟨role, blocks⟩, by simp, rfl⟩

/-- The conversation with the user's first word, if the assistant would speak first. -/
def opened (conversation : List Outline) : List Outline :=
  match conversation with
  | [] => [⟨.user, [.other]⟩]
  | first :: _ => if first.role = .assistant then ⟨.user, [.other]⟩ :: conversation else conversation

theorem Open.cons (h : Open used [] conversation)
    (hrole : ∀ o ∈ conversation.head?, o.role = .assistant) :
    WellPaired (⟨.user, [.other]⟩ :: conversation) where
  first := ⟨_, rfl, rfl, rfl⟩
  answered := by
    refine isChain_cons.mpr ⟨fun o ho => ?_, h.answered⟩
    exact .of_no_calls (by rw [hrole o ho]; nofun) rfl (h.first o ho)
  assistant := by
    refine forall_mem_cons.mpr ⟨fun hne => absurd rfl hne, h.assistant⟩
  last := by
    intro o ho
    rw [List.getLast?_cons] at ho
    cases hlast : conversation.getLast? with
    | none =>
      rw [hlast] at ho
      cases ho
      rfl
    | some last =>
      rw [hlast] at ho
      cases ho
      exact h.last _ hlast
  distinct := h.distinct

/-- **A conversation without pending calls** is accepted once the user speaks first. -/
theorem Open.wellPaired (h : Open used [] conversation) : WellPaired (opened conversation) := by
  unfold opened
  cases conversation with
  | nil => exact h.cons nofun
  | cons first rest =>
    dsimp only
    by_cases hrole : first.role = .assistant
    · rw [if_pos hrole]
      exact h.cons (by simpa using hrole)
    · rw [if_neg hrole]
      have huser : first.role = .user := by
        cases hfst : first.role with
        | user => rfl
        | assistant => exact absurd hfst hrole
      exact ⟨⟨first, rfl, huser, h.first first rfl⟩, h.answered, h.assistant, h.last, h.distinct⟩

end

end AnthropicMessages
