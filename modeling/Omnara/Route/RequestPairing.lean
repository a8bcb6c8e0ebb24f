import Omnara.OpenAIChatCompletions.Proof.Request
import Omnara.OpenAIResponses.Proof.Input

/-!
# Calls and answers in the OpenAI requests

Both builders render the canonical history, and both keep a call together with its answer: in a chat
request the tool messages stand right behind the message with the calls, in a Responses input the outputs
follow among the items of the entry. A replay is sent as the provider gave it by the second builder
only, so the statement about it needs items that are what they are taken for.
-/

namespace Route

open Json (Bytes Value ascii)
open Model
open ModelContext

/-- **Every call is answered.** In the chat request of an accepted bundle every assistant message with
calls is followed by one tool message a call, in their order, and there is no other tool message, before
and after the cache breakpoints are set. In the Responses input of the bundle every call has exactly one
output, after it and among the items of its entry, and there is no other output, if the calls of an entry
have distinct ids and the replayed items have the type and call id they are read with and are no outputs
themselves. -/
theorem requests_pairCalls (enc : Encodings) (bundle : Bundle) (history : List HistoryEntry)
    (policy : RequestPolicy) (target : ProviderReplayIdentity) (control : Value)
    (hhistory : canonicalHistory bundle = .ok history) :
    (∃ messages, OpenAIChatCompletions.buildMessages enc bundle policy target = .ok messages ∧
      OpenAIChatCompletions.Answered (messages.map OpenAIChatCompletions.ChatMessage.outline) ∧
      OpenAIChatCompletions.Answered ((OpenAIChatCompletions.markCacheBreakpoints messages
        control).map OpenAIChatCompletions.ChatMessage.outline)) ∧
    ((∀ m ∈ bundle.messages, OpenAIResponses.ReplaySpelled m.providerReplay) →
      (∀ entry ∈ history, (entry.toolResults.map (·.providerCallId)).Nodup) →
      ∃ opening entries closing, OpenAIResponses.buildInput enc bundle target policy =
          .ok (opening ++ entries.flatten ++ closing) ∧
        (∀ item ∈ opening ++ closing, item.outline = .other) ∧
        List.Forall₂ (fun entry items => OpenAIResponses.entryItems enc
            (OpenAIResponses.renderableMedia bundle.resolvedMedia) policy target entry = .ok items ∧
          OpenAIResponses.EntryAnswered (items.map OpenAIResponses.InputItem.outline))
          history entries) := by
  refine ⟨?_, OpenAIResponses.buildInput_calls hhistory⟩
  obtain ⟨messages, hmessages, hanswered⟩ :=
    @OpenAIChatCompletions.buildMessages_calls enc _ policy target _ hhistory
  refine ⟨messages, hmessages, hanswered, ?_⟩
  rw [OpenAIChatCompletions.markCacheBreakpoints_outline]
  exact hanswered

/-! ## Runs -/

def openaiIdentity : ProviderReplayIdentity :=
  ⟨ascii "openai", ascii "gpt", ascii "openai_responses", ascii "default"⟩

def output (content : Bytes) (replay : String) : ModelContext.Message :=
  { storedOutput openaiIdentity replay with
    modelCallContextId := ascii "m1"
    content
    stopReason := .toolUse }

def twoCalls : Bytes :=
  ascii r#"[{"type":"tool_call","tool_call_id":"a"},{"type":"tool_call","tool_call_id":"b"}]"#

def callsBundle : Bundle where
  messages := [output twoCalls
    r#"[{"name":"run","type":"function_call","call_id":"c1","arguments":"{}"},
      {"name":"run","type":"function_call","call_id":"c2","arguments":"{}"}]"#]
  toolResults := [storedCall "a" "c1", storedCall "b" "c2"]

/-- Two replayed calls and their outputs. -/
theorem requests_pairCalls_two :
    ∃ history opening entries closing, canonicalHistory callsBundle = .ok history ∧
      OpenAIResponses.buildInput plainEncodings callsBundle openaiIdentity {} =
        .ok (opening ++ List.flatten entries ++ closing) ∧
      (opening ++ List.flatten entries ++ closing).map OpenAIResponses.InputItem.outline =
        [.call (ascii "c1"), .call (ascii "c2"), .output (ascii "c1"), .output (ascii "c2")] := by
  have hrun : ∃ history ∈ (canonicalHistory callsBundle).toOption, ∀ entry ∈ history,
      (entry.toolResults.map (·.providerCallId)).Nodup := by decide +kernel
  obtain ⟨history, hhistory, hdistinct⟩ := hrun
  obtain ⟨opening, entries, closing, hbuilt, -⟩ := (requests_pairCalls plainEncodings callsBundle
    history {} openaiIdentity .null (Fallible.mem_toOption hhistory)).2 (by decide +kernel) hdistinct
  exact ⟨history, opening, entries, closing, Fallible.mem_toOption hhistory, hbuilt,
    Fallible.map_of_ok hbuilt (by decide +kernel)⟩

/-- A text, with the replay of an output that answers no call. -/
def strayBundle : Bundle where
  messages := [output (ascii r#"[{"type":"text","text":"hi"}]"#)
    r#"[{"type":"message","content":[{"text":"hi","type":"text"}]},
      {"id":"o1","type":"function_call_output","call_id":"c9"}]"#]
  toolResults := []

def sameIdBundle : Bundle where
  messages := [output twoCalls ""]
  toolResults := [storedCall "a" "c1", storedCall "b" "c1"]

/-- A call, with the replay of an item whose type has another spelling. -/
def oddTypeBundle : Bundle where
  messages := [output (ascii r#"[{"type":"tool_call","tool_call_id":"a"}]"#)
    r#"[{"TYPE":"function_call","name":"run","call_id":"c1","arguments":"{}"}]"#]
  toolResults := [storedCall "a" "c1"]

/-- What the Responses input of a bundle without other items is read as. -/
def outlines (bundle : Bundle) : Option (List OpenAIResponses.Outline) :=
  ((OpenAIResponses.buildInput plainEncodings bundle openaiIdentity {}).map
    (·.map OpenAIResponses.InputItem.outline)).toOption

/-- A replayed output that answers nothing, two calls with one id and a replayed item that passes for a
call but is not sent as one. Each bundle has one entry. -/
theorem buildInput_unanswered : (outlines strayBundle = some [.other, .output (ascii "c9")] ∧
      ¬ OpenAIResponses.EntryAnswered [.other, .output (ascii "c9")]) ∧
    (outlines sameIdBundle = some [.call (ascii "c1"), .call (ascii "c1"), .output (ascii "c1"),
        .output (ascii "c1")] ∧
      ¬ OpenAIResponses.EntryAnswered [.call (ascii "c1"), .call (ascii "c1"),
        .output (ascii "c1"), .output (ascii "c1")]) ∧
    (outlines oddTypeBundle = some [.other, .output (ascii "c1")] ∧
      ¬ OpenAIResponses.EntryAnswered [.other, .output (ascii "c1")]) := by
  have hstray : ∀ id, ¬ OpenAIResponses.EntryAnswered [.other, .output id] := by
    intro id h
    obtain ⟨i, hi, hcall⟩ := h.outputs 1 _ rfl
    obtain rfl : i = 0 := by omega
    cases hcall
  refine ⟨⟨by decide +kernel, hstray _⟩, ⟨by decide +kernel, fun h => ?_⟩,
    by decide +kernel, hstray _⟩
  obtain ⟨j, -, hunique⟩ := h.calls 0 _ rfl
  have h2 := hunique 2 ⟨by decide, rfl⟩
  have h3 := hunique 3 ⟨by decide, rfl⟩
  omega

end Route
