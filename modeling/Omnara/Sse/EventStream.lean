import Omnara.Lib.Paging
import Omnara.Lib.Reach
import Omnara.Lib.TextDecoder
import Omnara.Sse.Frames

/-!
# The event stream of an agent

The server's loop (`streamAgentEvents`, `internal/httpapi/agent_runtime_routes.go`) and the client's
(`openAgentEventStream`, `frontend/packages/sdk/src/agent-event-stream.ts`) as two parties over one
connection. The bytes of what the server has written arrive in order and in any pieces; the connection
can break between any two of them, after which the client may open another. The agent's log grows at
any time, by larger sequences only.

The JSON of a frame and the two libraries that write and read it are a `Codec`. Delays, the number of
attempts and the states reported to `onConnectionStateChange` do not influence what is yielded and are
left out, as are deltas the server holds back once their output is complete.
-/

namespace Sse

/-! ## Frames -/

inductive EventKind
  | agentInput | modelOutput | toolResult | contextCheckpoint
  deriving DecidableEq

def EventKind.name : EventKind → Text
  | .agentInput => "agent_input".toList
  | .modelOutput => "model_output".toList
  | .toolResult => "tool_result".toList
  | .contextCheckpoint => "context_checkpoint".toList

/-- A durable event; `content` is the rest of its fields. -/
structure Event (α : Type) where
  kind : EventKind
  sequence : Int
  content : α
  deriving DecidableEq

inductive ErrorCode
  | serviceUnavailable | internalError
  deriving DecidableEq

inductive Payload (α : Type)
  | event (event : Event α)
  | toolCallUpdate (content : α)
  | modelOutputDelta (content : α)
  | error (code : ErrorCode)
  deriving DecidableEq

def Payload.event? {α : Type} : Payload α → Option (Event α)
  | .event e => some e
  | _ => none

/-- A payload without its content. -/
def Payload.head {α : Type} : Payload α → Payload Unit
  | .event e => .event ⟨e.kind, e.sequence, ()⟩
  | .toolCallUpdate _ => .toolCallUpdate ()
  | .modelOutputDelta _ => .modelOutputDelta ()
  | .error code => .error code

/-- `zAgentSequence`. -/
def isAgentSequence (n : Int) : Bool := 1 ≤ n ∧ n ≤ 9007199254740991

/-- The sequence of a payload, if it has one, is an agent sequence. -/
def Payload.sequenceValid {α : Type} : Payload α → Bool
  | .event e => isAgentSequence e.sequence
  | _ => true

/-- `json.Marshal` on the server, `JSON.parse` in the client, and what the client's schema asks of a
payload besides its sequence. JavaScript reads integers that are no safe integers inexactly, so of the
content nothing is asked. -/
structure Codec (α : Type) where
  marshal : Payload α → Text
  parse : Text → Option (Payload α)
  conforms : Payload α → Bool
  parse_marshal : ∀ p q, parse (normalize (marshal p)) = some q →
    q.head = p.head ∨ ¬ q.sequenceValid

variable {α : Type}

/-! ## The server -/

/-- A row of the agent's events. `event` is its public form, `none` if `EventFromReadRecord` fails. -/
structure Record (α : Type) where
  sequence : Int
  event : Option (EventKind × α)
  deriving DecidableEq

def Record.event? (r : Record α) : Option (Event α) :=
  r.event.map fun (kind, content) => ⟨kind, r.sequence, content⟩

/-- The cursor a request asks for (`streamEvents`), `none` for an invalid request. -/
def streamEvents (afterSequence lastEventID : Option Int) : Option Int :=
  if afterSequence.any (· < 0) || lastEventID.any (· < 0) then none
  else some (lastEventID.getD (afterSequence.getD 0))

/-- Where the loop of `streamAgentEvents` is: before `ListAgentEventsForRead`, at the records of a page
(`full` if there were 100), waiting for a wakeup, or returned. -/
inductive Phase (α : Type)
  | listing
  | writing (records : List (Record α)) (full : Bool)
  | waiting
  | closed
  deriving DecidableEq

structure Server (α : Type) where
  after : Int
  phase : Phase α := .listing
  /-- What has been written to the connection. -/
  sent : List Item := [.comment " ok".toList []]

/-- What the loop sees next: it goes on, or something it calls fails; a wakeup, an update, a delta or
the heartbeat while it waits; or its context is done or a write fails. A frame the server could not
write to its end is one of which the client gets only a part. -/
inductive Signal (α : Type)
  | ready
  | failed
  | notify
  | toolCallUpdate (content : α)
  | modelOutputDelta (content : α)
  | heartbeat
  | done

def eventPageLimit : Nat := 100

/-- `strconv.FormatInt(n, 10)`. -/
def formatInt (n : Int) : Text :=
  if n < 0 then '-' :: Nat.toDigits 10 n.natAbs else Nat.toDigits 10 n.natAbs

def eventFrame (codec : Codec α) (e : Event α) : Item :=
  .frame e.kind.name (formatInt e.sequence) (codec.marshal (.event e))

/-- A write; the loop returns if the frame is refused. -/
def Server.send (s : Server α) (item : Item) (phase : Phase α) : Server α :=
  match item.write with
  | none => { s with phase := .closed }
  | some _ => { s with sent := s.sent ++ [item], phase := phase }

def Server.fail (codec : Codec α) (s : Server α) (code : ErrorCode) : Server α :=
  s.send (.frame "error".toList [] (codec.marshal (.error code))) .closed

def Server.step (codec : Codec α) (log : List (Record α)) (s : Server α) : Signal α → Server α
  | .ready =>
    match s.phase with
    | .listing =>
      let records := Paging.page Record.sequence log s.after eventPageLimit
      { s with phase := .writing records (records.length = eventPageLimit) }
    | .writing (r :: records) full =>
      match r.event? with
      | none => s.fail codec .internalError
      | some e => { s with after := r.sequence }.send (eventFrame codec e) (.writing records full)
    | .writing [] full => { s with phase := if full then .listing else .waiting }
    | _ => s
  | .failed =>
    match s.phase with
    | .listing => s.fail codec .serviceUnavailable
    | .closed => s
    -- the id of a finished model call or of an updated tool call has no public form
    | _ => s.fail codec .internalError
  | .notify =>
    match s.phase with
    | .waiting => { s with phase := .listing }
    | _ => s
  | .toolCallUpdate content =>
    match s.phase with
    | .waiting =>
      s.send (.frame "tool_call_update".toList [] (codec.marshal (.toolCallUpdate content))) .waiting
    | _ => s
  | .modelOutputDelta content =>
    match s.phase with
    | .waiting =>
      s.send (.frame "model_output_delta".toList [] (codec.marshal (.modelOutputDelta content)))
        .waiting
    | _ => s
  | .heartbeat =>
    match s.phase with
    | .waiting => s.send (.comment " heartbeat".toList []) .waiting
    | _ => s
  | .done => { s with phase := .closed }

/-! ## The client -/

inductive ClientPhase
  | connecting | reading | finished
  deriving DecidableEq

structure Client (α : Type) where
  cursor : Option Int := none
  /-- What the caller has been given, in order. -/
  yielded : List (Payload α) := []
  phase : ClientPhase := .connecting
  deriving DecidableEq

/-- `none` for data outside the contract. A known kind of event must have an agent sequence: the
relaxed schema overlooks unknown enum values only. -/
def decodeFrame (codec : Codec α) (text : Text) : Option (Payload α) :=
  match codec.parse text with
  | some p => if p.sequenceValid && codec.conforms p then some p else none
  | none => none

def durableSequence (p : Payload α) : Option Int :=
  p.event?.bind fun e => if isAgentSequence e.sequence then some e.sequence else none

/-- `retryable`, for the error of an error frame. -/
def ErrorCode.retryable : ErrorCode → Bool
  | .serviceUnavailable => true
  | .internalError => false

def Client.skips (c : Client α) (p : Payload α) : Bool :=
  match durableSequence p, c.cursor with
  | some sequence, some cursor => sequence ≤ cursor
  | _, _ => false

/-- One message: the body of the loop of `openAgentEventStream`. The caller that takes a yielded frame
and asks for the next one moves the cursor; one that does not ask ends the stream. -/
def Client.receive (codec : Codec α) (c : Client α) (data : Text) : Client α :=
  match decodeFrame codec data with
  | none => { c with phase := .finished }
  | some (.error code) => { c with phase := if code.retryable then .connecting else .finished }
  | some p =>
    if c.skips p then c
    else { c with yielded := c.yielded ++ [p], cursor := (durableSequence p).or c.cursor }

/-! ## Both -/

/-- A connection: the server's side, the bytes the client has read, what its decoder and its parser
hold of them, and the messages of the last chunk it has not looked at yet. -/
structure Connection (α : Type) where
  server : Server α
  received : List UInt8 := []
  decoder : TextDecoder.Decoder := {}
  parser : Parser := {}
  queue : List Text := []

def Connection.read (c : Connection α) (chunk : List UInt8) : Connection α :=
  let (decoder, text) := c.decoder.decode chunk
  let (parser, messages) := c.parser.push text
  { c with received := c.received ++ chunk, decoder := decoder, parser := parser, queue := messages }

/-- The query parameter and the header the caller of `openAgentEventStream` gives. -/
structure Request where
  afterSequence : Option Int := none
  lastEventID : Option Int := none

/-- The cursor of the server on a new connection; the client's own goes into the header. -/
def Request.after (request : Request) (cursor : Option Int) : Option Int :=
  streamEvents request.afterSequence (cursor.or request.lastEventID)

structure System (α : Type) where
  log : List (Record α)
  client : Client α := {}
  connection : Option (Connection α) := none

inductive SystemStep (codec : Codec α) (request : Request) : System α → System α → Prop
  | append {s : System α} (r : Record α) : (∀ x ∈ s.log, x.sequence < r.sequence) →
      SystemStep codec request s { s with log := s.log ++ [r] }
  | connect {s : System α} {after : Int} : s.client.phase = .connecting →
      request.after s.client.cursor = some after →
      SystemStep codec request s { s with
        client := { s.client with phase := .reading }
        connection := some { server := { after := after } } }
  /-- Any other answer, or none: the client tries again or gives up. -/
  | refused {s : System α} (phase : ClientPhase) : s.client.phase = .connecting →
      phase ≠ .reading →
      SystemStep codec request s { s with client := { s.client with phase := phase } }
  | serve {s : System α} {c : Connection α} (signal : Signal α) : s.connection = some c →
      SystemStep codec request s
        { s with connection := some { c with server := c.server.step codec s.log signal } }
  | read {s : System α} {c : Connection α} {text : Text} (chunk : List UInt8) :
      s.connection = some c → c.queue = [] → writeAll c.server.sent = some text →
      c.received ++ chunk <+: TextDecoder.encode text →
      SystemStep codec request s { s with connection := some (c.read chunk) }
  | take {s : System α} {c : Connection α} {data : Text} {queue : List Text} :
      s.connection = some c → c.queue = data :: queue →
      SystemStep codec request s { s with
        client := s.client.receive codec data
        connection := if (s.client.receive codec data).phase = .reading
          then some { c with queue := queue } else none }
  | disconnect {s : System α} {c : Connection α} : s.connection = some c → c.queue = [] →
      SystemStep codec request s { s with
        client := { s.client with phase := .connecting }, connection := none }
  /-- The caller aborts, or asks for no more. -/
  | stop {s : System α} : SystemStep codec request s { s with
      client := { s.client with phase := .finished }, connection := none }

/-- A client that has not connected yet, over an ordered log. -/
def System.Start (s : System α) : Prop :=
  s = { log := s.log } ∧ s.log.Pairwise fun x y => x.sequence < y.sequence

end Sse
