import Omnara.AnthropicMessages.Proof.Stream
import Omnara.OpenAIChatCompletions.Proof.Stream
import Omnara.OpenAIResponses.Proof.Stream

/-!
# The provider protocols that stream (`internal/model/route/route.go`)

The three implementations of `StreamProtocol`, each with what its accumulator leaves open, and the
events a caller of `ConsumeStream` sees.
-/

namespace Route

open Json (Bytes)
open Model

inductive StreamProtocol
  | anthropicMessages (d : AnthropicMessages.Decoders)
  | openAIChatCompletions (d : OpenAIChatCompletions.Decoders)
  | openAIResponses (d : OpenAIResponses.Decoders)

/-- The events `ConsumeStream` emits for a provider stream that ends, or fails with `readErr`, after
`events`. -/
def StreamProtocol.consumeStream (p : StreamProtocol) (events : List SSEEvent)
    (readErr : Option Bytes) : Sink :=
  match p with
  | .anthropicMessages d => (AnthropicMessages.consumeStream d events readErr).sink
  | .openAIChatCompletions d => (OpenAIChatCompletions.consumeStream d events readErr).out.sink
  | .openAIResponses d => (OpenAIResponses.consumeStream d events readErr).sink

/-- **Every provider stream is well bracketed**: whatever the provider sends and wherever the stream
breaks off, blocks start in the order of their indices, deltas and stops go to open blocks, every block
is stopped once, and then comes the one terminal event. -/
theorem StreamProtocol.emits_wellBracketed (p : StreamProtocol) (events : List SSEEvent)
    (readErr : Option Bytes) : WellBracketed (p.consumeStream events readErr) := by
  cases p with
  | anthropicMessages d => exact AnthropicMessages.consumeStream_wellBracketed d events readErr
  | openAIChatCompletions d =>
    exact OpenAIChatCompletions.consumeStream_wellBracketed d events readErr
  | openAIResponses d => exact OpenAIResponses.consumeStream_wellBracketed d events readErr

end Route
