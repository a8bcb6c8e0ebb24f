import Omnara.Lib.Reach
import Omnara.Lib.Text
import Omnara.Model.Stream

/-!
# The live preview of a model call

The harness numbers the events of a model call and publishes them as frames
(`internal/harness/kernel/agent_executor_stream.go`): `emit` numbers an event and puts it into a
bounded buffer, dropping it when the buffer is full; a consumer takes the events out, merges adjacent
deltas of one block while more are waiting, and publishes. The client previews the frames it got only
if they pass `isCompleteFrameRun` (`frontend/packages/react/src/domains/agent-chat-messages.ts`).

The producer and the consumer are steps of one system, in any order. The turn and the model call a
frame names are the same for all frames of a sink and are left out. Counters are natural numbers.
-/

namespace Kernel

open Json (Bytes ascii)
open Model

def streamSinkBufferSize : Nat := 256

def unparseableToolCallName : Bytes := ascii "unparseable_tool_call"

structure StreamEnvelope where
  sourceSeqStart : Nat
  sourceSeqEnd : Nat
  coalescedCount : Nat
  event : StreamEvent
  deriving DecidableEq

def coalescableStreamEvent : StreamEventKind → Bool
  | .textDelta | .thinkingDelta | .toolArgsDelta => true
  | _ => false

/-! ## The wire (`agent_executor_stream_wire.go`) -/

inductive WireEvent
  | blockStart (blockIndex : Int) (block : StreamBlock)
  | delta (kind : StreamEventKind) (blockIndex : Int) (delta : Bytes)
  | blockStop (blockIndex : Int)
  | messageStop (reason : ModelContext.StopReason) (usage : Usage)
  | error (message : Bytes)
  deriving DecidableEq

def publicStreamBlock (b : StreamBlock) : Option StreamBlock :=
  match b.kind with
  | .text | .thinking => some { kind := b.kind }
  | .toolUse => if b.toolCallId = [] ∨ b.toolName = [] then none else some b
  | .other _ => none

def streamMessageStopReasonValid : ModelContext.StopReason → Bool
  | .none | .error => false
  | _ => true

/-- `none` for the error that drops the frame. -/
def publicStreamDelta (e : StreamEvent) : Option WireEvent :=
  if e.blockIndex < 0 then none
  else match e.kind with
    | .blockStart => (e.block.bind publicStreamBlock).map (.blockStart e.blockIndex ·)
    | .textDelta | .thinkingDelta | .toolArgsDelta =>
      if e.delta = [] then none else some (.delta e.kind e.blockIndex e.delta)
    | .blockStop => some (.blockStop e.blockIndex)
    | .messageStop =>
      match e.stop with
      | some ⟨reason, some usage⟩ =>
        if streamMessageStopReasonValid reason then some (.messageStop reason usage) else none
      | _ => none
    | .error => e.error.map .error
    | .other _ => none

structure StreamDelta where
  seq : Nat
  sourceSeqStart : Nat
  sourceSeqEnd : Nat
  coalescedCount : Nat
  event : WireEvent
  deriving DecidableEq

/-! ## The sink -/

/-- Where the consumer is: waiting for an event (`<-s.events`), in the loop of `nextCoalesced` with an
envelope, or about to publish one, with the event it goes on with, if any. -/
inductive Consumer
  | receiving
  | coalescing (envelope : StreamEnvelope)
  | publishing (envelope : StreamEnvelope) (next : Option StreamEnvelope)
  deriving DecidableEq

structure HarnessStreamSink where
  frameSeq : Nat := 0
  sourceSeq : Nat := 0
  /-- The public id of every provider call id. -/
  toolCalls : List (Bytes × Bytes) := []
  /-- The channel. -/
  events : List StreamEnvelope := []
  closed : Bool := false
  consumer : Consumer := .receiving
  /-- Every frame handed to the publisher. -/
  published : List StreamDelta := []
  /-- The events the producer emitted before the sink was closed. -/
  emitted : List StreamEvent := []
  /-- The events that were numbered, in order: the source events. -/
  sources : List StreamEvent := []
  deriving DecidableEq

namespace HarnessStreamSink

/-- `mintToolCallID`; `minted` is the new id, `none` if none could be made. -/
def mintToolCallID (s : HarnessStreamSink) (providerCallId : Bytes) (minted : Option Bytes) :
    Option (HarnessStreamSink × Bytes) :=
  match s.toolCalls.lookup providerCallId with
  | some publicId => some (s, publicId)
  | none => minted.map fun id => ({ s with toolCalls := (providerCallId, id) :: s.toolCalls }, id)

/-- The first half of `Emit`: the event as it is numbered, `none` if it is left out. -/
def sourceEvent (s : HarnessStreamSink) (event : StreamEvent) (minted : Option Bytes) :
    Option (HarnessStreamSink × StreamEvent) :=
  if event.kind ≠ .blockStart then some (s, event)
  else match event.block with
    | none => none
    | some block =>
      match block.kind with
      | .text | .thinking => some (s, { event with block := some { kind := block.kind } })
      | .toolUse =>
        if Text.trimSpace block.toolCallId = [] then none
        else match s.mintToolCallID block.toolCallId minted with
          | none => none
          | some (s, publicId) =>
            let name := if Text.trimSpace block.toolName = [] then unparseableToolCallName
              else block.toolName
            some (s, { event with block := some ⟨.toolUse, publicId, name⟩ })
      | .other _ => none

def emit (s : HarnessStreamSink) (event : StreamEvent) (minted : Option Bytes) :
    HarnessStreamSink :=
  if s.closed then s
  else
    let s := { s with emitted := s.emitted ++ [event] }
    match s.sourceEvent event minted with
    | none => s
    | some (s, event) =>
      let sourceSeq := s.sourceSeq + 1
      let s := { s with sourceSeq := sourceSeq, sources := s.sources ++ [event] }
      if s.events.length < streamSinkBufferSize then
        { s with events := s.events ++ [⟨sourceSeq, sourceSeq, 1, event⟩] }
      else s

/-- Where the consumer goes with an envelope it has taken over. -/
def goOn (envelope : StreamEnvelope) : Consumer :=
  if coalescableStreamEvent envelope.event.kind then .coalescing envelope
  else .publishing envelope none

/-- `next` merged into `envelope`. -/
def merge (envelope next : StreamEnvelope) : StreamEnvelope where
  sourceSeqStart := envelope.sourceSeqStart
  sourceSeqEnd := next.sourceSeqEnd
  coalescedCount := envelope.coalescedCount + next.coalescedCount
  event := { envelope.event with delta := envelope.event.delta ++ next.event.delta }

def mergeable (envelope next : StreamEnvelope) : Bool :=
  next.event.kind = envelope.event.kind ∧ next.event.blockIndex = envelope.event.blockIndex

/-- One step of the consumer; `none` while it waits for an event. -/
def consume (s : HarnessStreamSink) : Option HarnessStreamSink :=
  match s.consumer, s.events with
  | .receiving, [] => none
  | .receiving, next :: events => some { s with events := events, consumer := goOn next }
  | .coalescing envelope, [] => some { s with consumer := .publishing envelope none }
  | .coalescing envelope, next :: events =>
    if mergeable envelope next then
      some { s with events := events, consumer := .coalescing (merge envelope next) }
    else some { s with events := events, consumer := .publishing envelope (some next) }
  | .publishing envelope next, _ =>
    let s := { s with frameSeq := s.frameSeq + 1, consumer := next.elim .receiving goOn }
    match publicStreamDelta envelope.event with
    | none => some s
    | some event =>
      some { s with published := s.published ++ [⟨s.frameSeq, envelope.sourceSeqStart,
        envelope.sourceSeqEnd, envelope.coalescedCount, event⟩] }

end HarnessStreamSink

/-- A step of the producer, of the consumer, or `Close`. -/
inductive SinkStep : HarnessStreamSink → HarnessStreamSink → Prop
  | emit (s : HarnessStreamSink) (event : StreamEvent) (minted : Option Bytes) :
      SinkStep s (s.emit event minted)
  | consume {s t : HarnessStreamSink} : s.consume = some t → SinkStep s t
  | close (s : HarnessStreamSink) : SinkStep s { s with closed := true }

abbrev SinkReachable : HarnessStreamSink → Prop := Reach.Reachable (· = {}) SinkStep

/-! ## The client -/

/-- `[...callDeltas].sort((a, b) => a.seq - b.seq)`. -/
def sortDeltas (deltas : List StreamDelta) : List StreamDelta :=
  deltas.mergeSort fun a b => a.seq ≤ b.seq

/-- The loop of `isCompleteFrameRun`. -/
def frameRunLoop : Nat → Nat → List StreamDelta → Bool
  | _, _, [] => true
  | seq, sourceSeq, delta :: deltas =>
    if delta.seq ≠ seq + 1 ∨ delta.sourceSeqStart ≠ sourceSeq + 1 then false
    else if (delta.coalescedCount : Int) ≠ delta.sourceSeqEnd - delta.sourceSeqStart + 1 then false
    else frameRunLoop delta.seq (max delta.sourceSeqStart delta.sourceSeqEnd) deltas

def isCompleteFrameRun (deltas : List StreamDelta) : Bool :=
  frameRunLoop 0 0 deltas && deltas.length > 0

end Kernel
