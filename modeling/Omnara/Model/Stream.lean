import Omnara.ModelContext.History

/-!
# Stream events of a model call (`internal/model/stream.go`)

The events a provider stream emits while it is read, the emitter the stream accumulators use, and the
loop that hands them the provider's server-sent events (`internal/model/route/sse.go`). A sink is the
list of the events emitted so far.
-/

namespace Model

open Json (Bytes)
open ModelContext (StopReason)

inductive StreamEventKind
  | blockStart | textDelta | thinkingDelta | toolArgsDelta | blockStop | messageStop | error
  | other (name : Bytes)
  deriving DecidableEq

inductive StreamBlockKind
  | text | thinking | toolUse | other (name : Bytes)
  deriving DecidableEq

structure StreamBlock where
  kind : StreamBlockKind
  toolCallId : Bytes := []
  toolName : Bytes := []
  deriving DecidableEq

structure Usage where
  inputTokens : Int := 0
  uncachedInputTokens : Int := 0
  outputTokens : Int := 0
  reasoningTokens : Int := 0
  cacheReadTokens : Int := 0
  cacheWriteTokens : Int := 0
  deriving DecidableEq

structure StreamStop where
  reason : StopReason
  usage : Option Usage
  deriving DecidableEq

structure StreamEvent where
  kind : StreamEventKind
  blockIndex : Int := 0
  block : Option StreamBlock := none
  delta : Bytes := []
  stop : Option StreamStop := none
  /-- The message of the error. -/
  error : Option Bytes := none
  deriving DecidableEq

/-! ## The emitter -/

abbrev Sink := List StreamEvent

namespace Sink

def blockStart (sink : Sink) (index : Int) (block : StreamBlock) : Sink :=
  sink ++ [{ kind := .blockStart, blockIndex := index, block := some block }]

def delta (sink : Sink) (kind : StreamEventKind) (index : Int) (delta : Bytes) : Sink :=
  if delta = [] then sink else sink ++ [{ kind := kind, blockIndex := index, delta := delta }]

def textDelta (sink : Sink) (index : Int) (delta : Bytes) : Sink :=
  Sink.delta sink .textDelta index delta

def thinkingDelta (sink : Sink) (index : Int) (delta : Bytes) : Sink :=
  Sink.delta sink .thinkingDelta index delta

def toolArgsDelta (sink : Sink) (index : Int) (delta : Bytes) : Sink :=
  Sink.delta sink .toolArgsDelta index delta

def blockStop (sink : Sink) (index : Int) : Sink :=
  sink ++ [{ kind := .blockStop, blockIndex := index }]

def messageStop (sink : Sink) (reason : StopReason) (usage : Usage) : Sink :=
  sink ++ [{ kind := .messageStop, stop := some ⟨reason, some usage⟩ }]

def error (sink : Sink) (message : Bytes) : Sink :=
  sink ++ [{ kind := .error, error := some message }]

end Sink

/-! ## The events of the provider -/

structure SSEEvent where
  event : Bytes
  data : Bytes
  deriving DecidableEq

/-- What ends the reading of a stream before the stream ends: the terminal event has been handled, or an
error with its text. -/
inductive ReadError
  | terminal
  | failed (message : Bytes)
  deriving DecidableEq

/-- `ReadSSEEvents` on the events of the stream, after which the reader fails with `readErr` or the
stream ends. -/
def readSSEEvents {σ : Type} (onEvent : σ → SSEEvent → σ × Option ReadError)
    (readErr : Option Bytes) : σ → List SSEEvent → σ × Option ReadError
  | s, [] => (s, readErr.map .failed)
  | s, ev :: events =>
    match onEvent s ev with
    | (s, some err) => (s, some err)
    | (s, none) => readSSEEvents onEvent readErr s events

end Model
