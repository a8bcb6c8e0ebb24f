import Mathlib.Data.List.Forall2
import Omnara.Sse.EventStream
import Omnara.Sse.Proof.Frames

/-!
# Durable events arrive once and in order

The client's place in the log is `position`: its cursor, or where the caller asked to start. `StreamInv`
says that it has yielded exactly the events of the log from the start to its place, and `ConnInv` that
the payloads of its connection it has not taken yet, read or not, hold exactly the events from its place
to the place the server has come to. A step of the server moves the end of that stretch (`serve_inv`),
a message the client takes moves its beginning (`take_inv`), and a new connection starts with an empty
one.
-/

namespace Sse

open List

open Blocks (feed feed_append)
open Paging

variable {α : Type} {codec : Codec α} {e : Event α} {phase : Phase α} {request : Request}
  {c : Client α} {p q : Payload α} {p : Payload α} {r : Record α} {s : System α} {item : Item}
  {data : Text}

/-! ## What has been read of a connection -/

def body (codec : Codec α) (p : Payload α) : Text := normalize (codec.marshal p)

theorem writeAll_concat {items : List Item} {text more : Text} (h : writeAll items = some text)
    (hitem : item.write = some more) :
    writeAll (items ++ [item]) = some (text ++ more) := by
  induction items generalizing text with
  | nil =>
    cases h
    simp [writeAll, hitem]
  | cons first items ih =>
    rw [writeAll] at h
    split at h
    · rename_i head rest hhead hrest
      cases h
      rw [cons_append, writeAll, hhead, ih hrest]
      simp
    · cases h

theorem messages_isPrefix {sent : List Item} {full text : Text} {p : Parser} {messages : List Text}
    (hsent : writeAll sent = some full) (htext : text <+: full) (hreads : Reads p text messages) :
    messages <+: sent.filterMap Item.message := by
  obtain ⟨hcr, hall⟩ := feed_writeAll hsent
  obtain ⟨rest, rfl⟩ := htext
  have hnorm : normalize text = text := normalize_of_not_mem fun h => hcr (mem_append_left _ h)
  rw [hreads.messages_eq, hnorm, ← hall, feed_append]
  exact (prefix_append _ _).filterMap _

/-- What holds of a connection: `taken` are the payloads the client has taken, `rest` the others the
server has sent, `upto` the place in the log it has sent the events up to. -/
structure ConnInv (codec : Codec α) (log : List (Record α)) (position upto : Int)
    (taken rest : List (Payload α)) (c : Connection α) : Prop where
  sent : ∃ full, writeAll c.server.sent = some full ∧ full.head? = some ':' ∧
    c.received <+: TextDecoder.encode full
  messages : c.server.sent.filterMap Item.message = (taken ++ rest).map (body codec)
  read : ∃ text messages, TextDecoder.Decodes c.decoder c.received text ∧
    Reads c.parser text messages ∧ messages = taken.map (body codec) ++ c.queue
  events : (rest.filterMap Payload.event?).map some =
    (between Record.sequence log position upto).map Record.event?
  le : position ≤ upto
  bound : upto ≤ position ∨ ∃ x ∈ log, upto ≤ x.sequence
  after : c.server.phase ≠ .closed → c.server.after = upto
  page : ∀ records full, c.server.phase = .writing records full →
    records <+: log.filter fun x => c.server.after < x.sequence

theorem connInv_new (codec : Codec α) (log : List (Record α)) (position : Int) :
    ConnInv codec log position position [] [] { server := { after := position } } where
  sent := ⟨_, rfl, rfl, nil_prefix⟩
  messages := rfl
  read := ⟨[], [], TextDecoder.decodes_nil, reads_nil, rfl⟩
  events := by rw [between_eq_nil log (Int.le_refl _)]; rfl
  le := Int.le_refl _
  bound := .inl (Int.le_refl _)
  after := fun _ => rfl
  page := by
    intro records full h
    cases h

section
variable {codec : Codec α} {log : List (Record α)} {position upto : Int} {taken rest : List (Payload α)}
  {c : Connection α} (h : ConnInv codec log position upto taken rest c)
include h

theorem ConnInv.queue : c.queue <+: rest.map (body codec) := by
  obtain ⟨full, hfull, hhead, hrec⟩ := h.sent
  obtain ⟨text, messages, hdecs, hreads, hmsgs⟩ := h.read
  have htext := hdecs.isPrefix hrec (by rw [hhead]; decide)
  have hpre := messages_isPrefix hfull htext hreads
  rw [h.messages, hmsgs, map_append, prefix_append_right_inj] at hpre
  exact hpre

theorem read_inv {full : Text} {chunk : List UInt8} (hqueue : c.queue = [])
    (hsent : writeAll c.server.sent = some full)
    (hrec : c.received ++ chunk <+: TextDecoder.encode full) :
    ConnInv codec log position upto taken rest (c.read chunk) := by
  obtain ⟨full', hfull', hhead, -⟩ := h.sent
  obtain rfl := Option.some.inj (hfull'.symm.trans hsent)
  obtain ⟨text, messages, hdecs, hreads, hmsgs⟩ := h.read
  refine { h with sent := ⟨full', hsent, hhead, hrec⟩, read := ?_ }
  refine ⟨_, _, hdecs.decode chunk, push_reads hreads _, ?_⟩
  rw [hmsgs, hqueue, append_nil]
  rfl

/-! ## The server -/

theorem ConnInv.close (after : Int) :
    ConnInv codec log position upto taken rest
      { c with server := { c.server with after := after, phase := .closed } } :=
  { h with
    after := fun hopen => absurd rfl hopen
    page := by
      intro records full hph
      cases hph }

theorem ConnInv.goTo (hopen : c.server.phase ≠ .closed)
    (hpage : ∀ records full, phase = .writing records full →
      records <+: log.filter fun x => c.server.after < x.sequence) :
    ConnInv codec log position upto taken rest
      { c with server := { c.server with phase := phase } } :=
  { h with after := fun _ => h.after hopen, page := hpage }

section
variable (hord : log.Pairwise fun x y => x.sequence < y.sequence)
include hord

/-- A write: `new` is the payload of a frame, and the stretch of the log that goes with it is sent. -/
theorem ConnInv.send {upto' after : Int}
    (new : Option (Payload α))
    (hitem : item.message = new.map (body codec))
    (hevs : (new.bind Payload.event?).toList.map some =
      (between Record.sequence log upto upto').map Record.event?)
    (hle : upto ≤ upto') (hbd : upto' ≤ position ∨ ∃ x ∈ log, upto' ≤ x.sequence)
    (haft : phase ≠ .closed → after = upto')
    (hpage : ∀ records full, phase = .writing records full →
      records <+: log.filter fun x => after < x.sequence) :
    ∃ upto rest, ConnInv codec log position upto taken rest
      { c with server := Server.send { c.server with after := after } item phase } := by
  unfold Server.send
  cases hwrite : item.write with
  | none => exact ⟨upto, rest, h.close after⟩
  | some more =>
    obtain ⟨full, hfull, hhead, hrec⟩ := h.sent
    refine ⟨upto', rest ++ new.toList, ?_⟩
    refine { h with
      sent := ⟨full ++ more, writeAll_concat hfull hwrite, ?_, ?_⟩
      messages := ?_
      events := ?_
      le := Int.le_trans h.le hle
      bound := hbd
      after := haft
      page := hpage }
    · rw [List.head?_append, hhead]
      rfl
    · rw [TextDecoder.encode, flatMap_append]
      exact hrec.trans (prefix_append _ _)
    · rw [filterMap_append, h.messages, ← append_assoc, map_append]
      cases new <;> simp [hitem]
    · rw [filterMap_append, map_append, h.events, ← between_append hord h.le hle,
        map_append, ← hevs]
      cases new with
      | none => rfl
      | some p => cases hp : p.event? <;> simp [hp]

theorem ConnInv.sendOther (hopen : c.server.phase ≠ .closed) (new : Option (Payload α))
    (hitem : item.message = new.map (body codec)) (hnew : new.bind Payload.event? = none)
    (hph : ∀ records full, phase ≠ .writing records full) :
    ∃ upto rest, ConnInv codec log position upto taken rest
      { c with server := c.server.send item phase } := by
  refine h.send hord new hitem ?_ (Int.le_refl _) h.bound (fun _ => h.after hopen) ?_
  · rw [hnew, between_eq_nil log (Int.le_refl _)]
    rfl
  · intro records full hwrt
    exact absurd hwrt (hph records full)

theorem ConnInv.fail (hopen : c.server.phase ≠ .closed) (code : ErrorCode) :
    ∃ upto rest, ConnInv codec log position upto taken rest
      { c with server := c.server.fail codec code } :=
  h.sendOther hord hopen (some (.error code)) rfl rfl nofun

theorem ConnInv.sendRecord {records : List (Record α)} {full : Bool}
    (hph : c.server.phase = .writing (r :: records) full) (he : r.event? = some e) :
    ∃ upto rest, ConnInv codec log position upto taken rest
      { c with server := (Server.send { c.server with after := r.sequence } (eventFrame codec e)
          (.writing records full)) } := by
  have haft : c.server.after = upto := h.after (by simp [hph])
  obtain ⟨more, hmore⟩ := h.page _ _ hph
  rw [cons_append] at hmore
  obtain ⟨hlt, hfst, hrest⟩ := after_cons hord hmore.symm
  have hmem : r ∈ log := (mem_filter.mp (hmore ▸ mem_cons_self)).1
  rw [haft] at hlt hfst
  refine h.send hord (some (.event e)) rfl ?_ (Int.le_of_lt hlt)
    (.inr ⟨r, hmem, Int.le_refl _⟩) (fun _ => rfl) ?_
  · rw [hfst]
    simp [Payload.event?, he]
  · intro records' full' hwrt
    cases hwrt
    rw [hrest]
    exact prefix_append _ _

/-- **The server**: whatever it sees next, what it has sent goes on with the next events of the log. -/
theorem serve_inv (signal : Signal α) :
    ∃ upto rest, ConnInv codec log position upto taken rest
      { c with server := c.server.step codec log signal } := by
  have hsame : ∃ upto rest, ConnInv codec log position upto taken rest c := ⟨upto, rest, h⟩
  cases signal with
  | ready =>
    simp only [Server.step]
    split
    · rename_i hph
      refine ⟨upto, rest, h.goTo (by simp [hph]) ?_⟩
      intro records full hwrt
      cases hwrt
      exact take_prefix _ _
    · rename_i r records full hph
      split
      · exact h.fail hord (by simp [hph]) _
      · rename_i e he
        exact h.sendRecord hord hph he
    · rename_i full hph
      refine ⟨upto, rest, h.goTo (by simp [hph]) ?_⟩
      intro records full' hwrt
      cases full <;> cases hwrt
    · exact hsame
  | failed =>
    simp only [Server.step]
    split
    · rename_i hph
      exact h.fail hord (by simp [hph]) _
    · exact hsame
    · rename_i hcl
      exact h.fail hord hcl _
  | notify =>
    simp only [Server.step]
    split
    · rename_i hph
      refine ⟨upto, rest, h.goTo (by simp [hph]) ?_⟩
      intro records full hwrt
      cases hwrt
    · exact hsame
  | toolCallUpdate content =>
    simp only [Server.step]
    split
    · rename_i hph
      exact h.sendOther hord (by simp [hph]) (some (.toolCallUpdate content)) rfl rfl
        nofun
    · exact hsame
  | modelOutputDelta content =>
    simp only [Server.step]
    split
    · rename_i hph
      exact h.sendOther hord (by simp [hph]) (some (.modelOutputDelta content)) rfl rfl
        nofun
    · exact hsame
  | heartbeat =>
    simp only [Server.step]
    split
    · rename_i hph
      exact h.sendOther hord (by simp [hph]) none rfl rfl nofun
    · exact hsame
  | done => exact ⟨upto, rest, h.close _⟩

end

end

/-! ## The client -/

/-- Where the caller asked to start; an invalid request gets nothing. -/
def Request.start (request : Request) : Int := (request.after none).getD 0

def Client.position (c : Client α) (start : Int) : Int := c.cursor.getD start

theorem after_eq_position {after : Int} (h : request.after c.cursor = some after) :
    after = c.position request.start := by
  unfold Client.position
  cases hcur : c.cursor with
  | none =>
    rw [hcur] at h
    rw [Option.getD_none, Request.start, h, Option.getD_some]
  | some cursor =>
    rw [hcur, Request.after, streamEvents, Option.some_or] at h
    split at h
    · cases h
    · exact (Option.some.inj h).symm

/-- The event is that of the record, as its JSON comes back. -/
def Codec.Carries (codec : Codec α) (r : Record α) (e : Event α) : Prop :=
  ∃ sent, r.event? = some sent ∧ codec.parse (body codec (.event sent)) = some (.event e) ∧
    e.kind = sent.kind ∧ e.sequence = sent.sequence

/-- The client has yielded the events from the start to its place. -/
structure ClientInv (codec : Codec α) (log : List (Record α)) (start : Int) (c : Client α) : Prop where
  yielded : Forall₂ codec.Carries (between Record.sequence log start (c.position start))
    (c.yielded.filterMap Payload.event?)
  cursor : c.cursor = (c.yielded.filterMap Payload.event?).getLast?.map Event.sequence
  le : start ≤ c.position start
  bound : c.position start ≤ start ∨ ∃ x ∈ log, c.position start ≤ x.sequence

theorem decodeFrame_body (h : decodeFrame codec (body codec p) = some q) :
    codec.parse (body codec p) = some q ∧ q.head = p.head ∧ q.sequenceValid := by
  unfold decodeFrame at h
  split at h
  · rename_i p' hpar
    split at h
    · rename_i hval
      obtain rfl := Option.some.inj h
      rw [Bool.and_eq_true] at hval
      exact ⟨hpar, (codec.parse_marshal p p' hpar).resolve_right (not_not.mpr hval.1), hval.1⟩
    · cases h
  · cases h

theorem event_of_head (h : (Payload.event e).head = p.head) :
    ∃ sent, p = .event sent ∧ e.kind = sent.kind ∧ e.sequence = sent.sequence := by
  cases p with
  | event sent =>
    injection h with h
    injection h with hkind hsequence
    exact ⟨sent, rfl, hkind, hsequence⟩
  | _ => cases h

theorem event?_of_head (h : q.head = p.head) (hq : q.event? = none) :
    p.event? = none := by
  cases p with
  | event e =>
    cases q with
    | event e' => cases hq
    | _ => cases h
  | _ => rfl

theorem durableSequence_event (h : (Payload.event e).sequenceValid = true) :
    durableSequence (.event e) = some e.sequence := by
  have hval : isAgentSequence e.sequence = true := h
  simp [durableSequence, Payload.event?, hval]

theorem receive_other (hdec : decodeFrame codec data = some p) (hev : p.event? = none)
    (herror : ∀ code, p ≠ .error code) :
    c.receive codec data = { c with yielded := c.yielded ++ [p] } := by
  have hdurable : durableSequence p = none := by rw [durableSequence, hev]; rfl
  have hskips : c.skips p = false := by rw [Client.skips, hdurable]
  unfold Client.receive
  rw [hdec]
  split
  · cases ‹some p = none›
  · rename_i code hcode
    exact absurd (Option.some.inj hcode) (herror code)
  · rename_i q _ hq
    cases hq
    rw [if_neg (by rw [hskips]; exact Bool.false_ne_true), hdurable, Option.none_or]

theorem receive_event {start : Int} (hdec : decodeFrame codec data = some (.event e))
    (hval : (Payload.event e).sequenceValid = true) (hlater : c.position start < e.sequence) :
    c.receive codec data =
      { c with yielded := c.yielded ++ [.event e], cursor := some e.sequence } := by
  have hskips : c.skips (.event e) = false := by
    unfold Client.position at hlater
    rw [Client.skips, durableSequence_event hval]
    cases hcur : c.cursor with
    | none => rfl
    | some cursor =>
      rw [hcur, Option.getD_some] at hlater
      simpa using hlater
  simp only [Client.receive, hdec]
  rw [if_neg (by rw [hskips]; exact Bool.false_ne_true), durableSequence_event hval, Option.some_or]

theorem ConnInv.next {log : List (Record α)} {position upto : Int}
    {taken rest : List (Payload α)} {c : Connection α}
    (h : ConnInv codec log position upto taken (p :: rest) c) {queue : List Text}
    (hqueue : c.queue = body codec p :: queue) {position' : Int} (hle : position' ≤ upto)
    (hevs : (rest.filterMap Payload.event?).map some =
      (between Record.sequence log position' upto).map Record.event?)
    (hbd : upto ≤ position' ∨ ∃ x ∈ log, upto ≤ x.sequence) :
    ConnInv codec log position' upto (taken ++ [p]) rest { c with queue := queue } := by
  obtain ⟨text, messages, hdecs, hreads, hmsgs⟩ := h.read
  refine { h with
    messages := ?_, read := ⟨text, messages, hdecs, hreads, ?_⟩, events := hevs, le := hle,
    bound := hbd }
  · rw [append_assoc]
    exact h.messages
  · rw [hmsgs, hqueue]
    simp

theorem sequence_of_event? (h : r.event? = some e) :
    r.sequence = e.sequence := by
  obtain ⟨x, -, hx⟩ := Option.map_eq_some_iff.mp h
  rw [← hx]

/-- What holds after the client took a message: of the client, and of its connection if it stays. -/
structure Took (codec : Codec α) (log : List (Record α)) (start : Int) (c : Connection α)
    (client : Client α) : Prop where
  clientInv : ClientInv codec log start client
  connInv : client.phase = .reading → ∃ upto taken rest,
    ConnInv codec log (client.position start) upto taken rest c

section
variable {codec : Codec α} {log : List (Record α)} {start upto : Int} {taken rest : List (Payload α)}
  {client : Client α} {c : Connection α} {queue : List Text}

theorem took_leave {phase : ClientPhase} (hcli : ClientInv codec log start client)
    (hph : phase ≠ .reading) : Took codec log start c { client with phase := phase } :=
  ⟨{ hcli with }, fun h => absurd h hph⟩

theorem took_other (hcli : ClientInv codec log start client)
    (hconn : ConnInv codec log (client.position start) upto taken (p :: rest) c)
    (hqueue : c.queue = body codec p :: queue) (hhead : q.head = p.head) (hev : q.event? = none) :
    Took codec log start { c with queue := queue }
      { client with yielded := client.yielded ++ [q] } := by
  have hsame : (client.yielded ++ [q]).filterMap Payload.event? =
      client.yielded.filterMap Payload.event? := by
    simp [hev]
  refine ⟨{ hcli with yielded := ?_, cursor := ?_ }, fun _ => ?_⟩
  · rw [hsame]
    exact hcli.yielded
  · rw [hsame]
    exact hcli.cursor
  · have hevs := hconn.events
    rw [filterMap_cons, event?_of_head hhead hev] at hevs
    exact ⟨upto, _, rest, hconn.next hqueue hconn.le hevs hconn.bound⟩

/-- The first event the client has not taken is that of the first record after its place. -/
theorem ConnInv.nextRecord {position : Int}
    (h : ConnInv codec log position upto taken (.event e :: rest) c)
    (hord : log.Pairwise fun x y => x.sequence < y.sequence) :
    ∃ r ∈ log, r.event? = some e ∧ r.sequence = e.sequence ∧ position < e.sequence ∧
      e.sequence ≤ upto ∧ between Record.sequence log position e.sequence = [r] ∧
      (rest.filterMap Payload.event?).map some =
        (between Record.sequence log e.sequence upto).map Record.event? := by
  have hevs := h.events
  rw [filterMap_cons] at hevs
  cases hstretch : between Record.sequence log position upto with
  | nil =>
    rw [hstretch] at hevs
    cases hevs
  | cons r more =>
    rw [hstretch, map_cons] at hevs
    simp only [Payload.event?, map_cons, List.cons.injEq] at hevs
    obtain ⟨he, hmore⟩ := hevs
    have hseq := sequence_of_event? he.symm
    obtain ⟨hlt, hto, hfst, hrest⟩ := between_cons hord hstretch
    have hmem : r ∈ between Record.sequence log position upto := hstretch ▸ mem_cons_self
    rw [hseq] at hlt hto hfst hrest
    exact ⟨r, (mem_filter.mp hmem).1, he.symm, hseq, hlt, hto, hfst, hrest ▸ hmore⟩

theorem took_event {sent e : Event α} (hord : log.Pairwise fun x y => x.sequence < y.sequence)
    (hcli : ClientInv codec log start client)
    (hconn : ConnInv codec log (client.position start) upto taken (.event sent :: rest) c)
    (hqueue : c.queue = body codec (.event sent) :: queue)
    (hparse : codec.parse (body codec (.event sent)) = some (.event e)) (hkind : e.kind = sent.kind)
    (hsequence : e.sequence = sent.sequence) :
    Took codec log start { c with queue := queue }
      { client with yielded := client.yielded ++ [.event e], cursor := some e.sequence } := by
  obtain ⟨r, hmem, he, hseq, hlt, hto, hfst, hrest⟩ := hconn.nextRecord hord
  rw [← hsequence] at hseq hlt hto hfst hrest
  refine ⟨⟨?_, ?_, ?_, ?_⟩, fun _ => ⟨upto, _, rest, hconn.next hqueue hto hrest ?_⟩⟩
  · show Forall₂ _ (between Record.sequence log start e.sequence) _
    rw [filterMap_append, ← between_append hord hcli.le (Int.le_of_lt hlt), hfst]
    exact rel_append hcli.yielded (.cons ⟨sent, he, hparse, hkind, hsequence⟩ .nil)
  · simp [Payload.event?]
  · exact Int.le_trans hcli.le (Int.le_of_lt hlt)
  · exact .inr ⟨r, hmem, Int.le_of_eq hseq.symm⟩
  · rcases hconn.bound with hbd | hbd
    · left
      show upto ≤ e.sequence
      omega
    · exact .inr hbd

/-- **The client**: a message it takes is the next payload, and it yields an event exactly when that is
the next event of the log. -/
theorem take_inv (hord : log.Pairwise fun x y => x.sequence < y.sequence)
    (hcli : ClientInv codec log start client)
    (hconn : ConnInv codec log (client.position start) upto taken rest c)
    (hqueue : c.queue = data :: queue) :
    Took codec log start { c with queue := queue } (client.receive codec data) := by
  have hpre := hconn.queue
  rw [hqueue] at hpre
  cases rest with
  | nil => exact absurd hpre (by simp)
  | cons p rest =>
    rw [map_cons, cons_prefix_cons] at hpre
    obtain ⟨rfl, -⟩ := hpre
    cases hdec : decodeFrame codec (body codec p) with
    | none =>
      simp only [Client.receive, hdec]
      exact took_leave hcli nofun
    | some q =>
      obtain ⟨hparse, hhead, hval⟩ := decodeFrame_body hdec
      cases q with
      | toolCallUpdate content | modelOutputDelta content =>
        rw [receive_other hdec rfl nofun]
        exact took_other hcli hconn hqueue hhead rfl
      | error code =>
        simp only [Client.receive, hdec]
        apply took_leave hcli
        cases code <;> exact nofun
      | event e =>
        obtain ⟨sent, rfl, hkind, hsequence⟩ := event_of_head hhead
        obtain ⟨-, -, -, -, hlater, -⟩ := hconn.nextRecord hord
        rw [receive_event hdec hval (hsequence ▸ hlater)]
        exact took_event hord hcli hconn hqueue hparse hkind hsequence

end

/-! ## Every run -/

structure StreamInv (codec : Codec α) (start : Int) (s : System α) : Prop where
  ordered : s.log.Pairwise fun x y => x.sequence < y.sequence
  client : ClientInv codec s.log start s.client
  connection : ∀ c, s.connection = some c → ∃ upto taken rest,
    ConnInv codec s.log (s.client.position start) upto taken rest c

theorem append_inv {start : Int} (h : StreamInv codec start s)
    (hr : ∀ x ∈ s.log, x.sequence < r.sequence) :
    StreamInv codec start { s with log := s.log ++ [r] } := by
  have hstays : ∀ {a b : Int}, (b ≤ a ∨ ∃ x ∈ s.log, b ≤ x.sequence) →
      b ≤ a ∨ ∃ x ∈ s.log ++ [r], b ≤ x.sequence := by
    rintro a b (hb | ⟨x, hx, hb⟩)
    · exact .inl hb
    · exact .inr ⟨x, mem_append_left _ hx, hb⟩
  refine ⟨?_, { h.client with yielded := ?_, bound := hstays h.client.bound }, ?_⟩
  · rw [pairwise_append]
    refine ⟨h.ordered, by simp, ?_⟩
    intro x hx y hy
    rw [mem_singleton.mp hy]
    exact hr x hx
  · rw [between_concat hr h.client.bound]
    exact h.client.yielded
  · intro c hc
    obtain ⟨upto, taken, rest, hconn⟩ := h.connection c hc
    refine ⟨upto, taken, rest, { hconn with events := ?_, bound := hstays hconn.bound, page := ?_ }⟩
    · rw [between_concat hr hconn.bound]
      exact hconn.events
    · intro records full hph
      rw [filter_append]
      exact (hconn.page records full hph).trans (prefix_append _ _)

theorem step_inv {s t : System α} (h : StreamInv codec request.start s)
    (hstep : SystemStep codec request s t) :
    StreamInv codec request.start t := by
  cases hstep with
  | append r hr => exact append_inv h hr
  | connect hph haft =>
    refine ⟨h.ordered, { h.client with }, ?_⟩
    intro c hc
    cases hc
    rw [after_eq_position haft]
    exact ⟨_, [], [], connInv_new codec s.log _⟩
  | refused phase hph hreading => exact ⟨h.ordered, { h.client with }, h.connection⟩
  | serve signal hc =>
    refine ⟨h.ordered, h.client, ?_⟩
    intro c' hc'
    cases hc'
    obtain ⟨upto, taken, rest, hconn⟩ := h.connection _ hc
    obtain ⟨upto', rest', hconn'⟩ := serve_inv hconn h.ordered signal
    exact ⟨upto', taken, rest', hconn'⟩
  | read chunk hc hqueue hsent hrec =>
    refine ⟨h.ordered, h.client, ?_⟩
    intro c' hc'
    cases hc'
    obtain ⟨upto, taken, rest, hconn⟩ := h.connection _ hc
    exact ⟨upto, taken, rest, read_inv hconn hqueue hsent hrec⟩
  | take hc hqueue =>
    obtain ⟨upto, taken, rest, hconn⟩ := h.connection _ hc
    have htook := take_inv h.ordered h.client hconn hqueue
    refine ⟨h.ordered, htook.clientInv, ?_⟩
    intro c' hc'
    split at hc'
    · rename_i hreading
      cases hc'
      exact htook.connInv hreading
    · cases hc'
  | disconnect hc hqueue | stop =>
    refine ⟨h.ordered, { h.client with }, ?_⟩
    intro c hc
    cases hc

theorem start_inv {start : Int} (h : s.Start) :
    StreamInv codec start s := by
  obtain ⟨hs, hord⟩ := h
  rw [hs]
  refine ⟨hord, ⟨?_, rfl, Int.le_refl _, .inl (Int.le_refl _)⟩, ?_⟩
  · rw [between_eq_nil]
    · exact .nil
    · exact Int.le_refl _
  · intro c hc
    cases hc

theorem sequences_eq {records : List (Record α)} {events : List (Event α)}
    (h : Forall₂ codec.Carries records events) :
    events.map Event.sequence = records.map Record.sequence := by
  induction h with
  | nil => rfl
  | cons hcarries _ ih =>
    obtain ⟨sent, hsent, -, -, hsequence⟩ := hcarries
    rw [map_cons, map_cons, ih, hsequence, sequence_of_event? hsent]

/-- **Durable events are delivered once, in order and without gaps**: in every run, the events the
caller has been given are those of the log after the cursor it asked for, up to the last one it has
been given, with the kind and the sequence of the log and the rest as its JSON comes back. -/
theorem durable_delivery {codec : Codec α} {request : Request} {s : System α}
    (h : Reach.Reachable System.Start (SystemStep codec request) s) :
    ((s.client.yielded.filterMap Payload.event?).map Event.sequence).Pairwise (· < ·) ∧
      Forall₂ codec.Carries
        (between Record.sequence s.log request.start
          (((s.client.yielded.filterMap Payload.event?).getLast?.map Event.sequence).getD
            request.start))
        (s.client.yielded.filterMap Payload.event?) := by
  have hinv : StreamInv codec request.start s :=
    h.invariant (fun _ hs => start_inv hs) (fun _ _ hs hstep => step_inv hs hstep)
  have hyielded := hinv.client.yielded
  rw [Client.position, hinv.client.cursor] at hyielded
  refine ⟨?_, hyielded⟩
  rw [sequences_eq hyielded, pairwise_map]
  exact pairwise_between hinv.ordered _ _

/-! ## A run -/

/-- The JSON of an event up to its sequence. -/
def eventLead (kind : EventKind) : Text :=
  r#"{"event_kind":""#.toList ++ kind.name ++ r#"","sequence":"#.toList

/-- The JSON of payloads without their other fields. -/
def marshalHead : Payload Unit → Text
  | .event e => eventLead e.kind ++ (formatInt e.sequence ++ ['}'])
  | .toolCallUpdate () => r#"{"tool_call_id":"tcl_1","state":"running"}"#.toList
  | .modelOutputDelta () => r#"{"seq":1,"event":{"kind":"block_stop","block_index":0}}"#.toList
  | .error .serviceUnavailable =>
    r#"{"error":"event stream unavailable","code":"service_unavailable"}"#.toList
  | .error .internalError => r#"{"error":"internal error","code":"internal_error"}"#.toList

def readInt : Text → Int
  | '-' :: digits => -Nat.ofDigitChars 10 digits 0
  | digits => Nat.ofDigitChars 10 digits 0

def parseHead (text : Text) : Option (Payload Unit) :=
  ([.agentInput, .modelOutput, .toolResult, .contextCheckpoint].findSome? fun kind =>
      ((eventLead kind).isPrefixOf? text).map fun rest => .event ⟨kind, readInt rest.dropLast, ()⟩).or
    ([.toolCallUpdate (), .modelOutputDelta (), .error .serviceUnavailable,
      .error .internalError].find? (marshalHead · = text))

theorem readInt_formatInt (n : Int) : readInt (formatInt n) = n := by
  unfold formatInt
  split
  · rw [readInt, Nat.ofDigitChars_ten_toDigits]
    omega
  · have hminus : ∀ digits, Nat.toDigits 10 n.natAbs ≠ '-' :: digits := fun digits h =>
      absurd (Nat.isDigit_of_mem_toDigits (c := '-') (by decide) (by decide) (h ▸ mem_cons_self))
        (by decide)
    rw [readInt, Nat.ofDigitChars_ten_toDigits]
    · omega
    · exact hminus

theorem formatInt_plain (n : Int) : '\r' ∉ formatInt n := by
  have hdigits : '\r' ∉ Nat.toDigits 10 n.natAbs := fun h =>
    absurd (Nat.isDigit_of_mem_toDigits (c := '\r') (by decide) (by decide) h) (by decide)
  unfold formatInt
  split <;> simp [hdigits]

theorem eventLead_plain (kind : EventKind) : '\r' ∉ eventLead kind := fun h =>
  have hall : (eventLead kind).all (· ≠ '\r') = true := by cases kind <;> rfl
  absurd (all_eq_true.mp hall _ h) (by decide)

theorem parseHead_marshalHead (p : Payload Unit) : parseHead (normalize (marshalHead p)) = some p := by
  cases p with
  | event e =>
    obtain ⟨kind, n, ⟨⟩⟩ := e
    have hplain : '\r' ∉ marshalHead (.event ⟨kind, n, ()⟩) := by
      show '\r' ∉ eventLead kind ++ (formatInt n ++ ['}'])
      simp [eventLead_plain, formatInt_plain]
    have hlead : ∀ kind', (eventLead kind').isPrefixOf? (marshalHead (.event ⟨kind, n, ()⟩)) =
        if kind' = kind then some (formatInt n ++ ['}']) else none := by
      intro kind'
      cases kind <;> cases kind' <;> rfl
    rw [normalize_of_not_mem hplain, parseHead]
    cases kind <;> simp [hlead, readInt_formatInt]
  | toolCallUpdate content | modelOutputDelta content =>
    cases content
    decide +kernel
  | error code => cases code <;> decide +kernel

def headCodec : Codec Unit where
  marshal := marshalHead
  parse := parseHead
  conforms _ := true
  parse_marshal p q h := by
    rw [parseHead_marshalHead] at h
    exact .inl (congrArg Payload.head (Option.some.inj h).symm)

def twoEvents : System Unit :=
  { log := [⟨1, some (.agentInput, ())⟩, ⟨2, some (.modelOutput, ())⟩] }

def firstData : Text := marshalHead (.event ⟨.agentInput, 1, ()⟩)

def secondData : Text := marshalHead (.event ⟨.modelOutput, 2, ()⟩)

def okText : Text := ": ok\n\n".toList

def secondFrame : Text := "id: 2\nevent: model_output\ndata: ".toList ++ secondData ++ "\n\n".toList

def bothFrames : Text :=
  "id: 1\nevent: agent_input\ndata: ".toList ++ firstData ++ "\n\n".toList ++ secondFrame

theorem SystemStep.take_reading {c : Connection α} (data : Text) (queue : List Text)
    (hc : s.connection = some c) (hqueue : c.queue = data :: queue)
    (hreading : (s.client.receive codec data).phase = .reading) :
    SystemStep codec request s { s with
      client := s.client.receive codec data, connection := some { c with queue := queue } } := by
  simpa only [hreading, if_true] using @SystemStep.take _ codec request _ _ _ _ hc hqueue

/-- The connection breaks inside the second frame; the next one starts after the first event. -/
theorem twoEvents_reachable : ∃ s : System Unit,
    Reach.Reachable System.Start (SystemStep headCodec {}) s ∧
      s.client.yielded = [.event ⟨.agentInput, 1, ()⟩, .event ⟨.modelOutput, 2, ()⟩] := by
  have hstart : Reach.Reachable System.Start (SystemStep headCodec {}) twoEvents :=
    .start ⟨rfl, by simp [twoEvents]⟩
  have hwr := ((hstart.next (.connect rfl rfl)).next (.serve .ready rfl)).next
    (.serve .ready rfl) |>.next (.serve .ready rfl)
  have hread := hwr.next (@SystemStep.read _ _ _ _ _ (okText ++ bothFrames)
    ((TextDecoder.encode (okText ++ bothFrames)).take 100) rfl rfl (by decide +kernel)
    (by decide +kernel))
  have htaken := hread.next (.take_reading firstData [] rfl (by decide +kernel) (by decide +kernel))
  have hlost := htaken.next (.disconnect rfl rfl)
  have hresumed := ((hlost.next (@SystemStep.connect _ _ _ _ 1 rfl (by decide +kernel))).next
    (.serve .ready rfl)).next (.serve .ready rfl)
  have hreread := hresumed.next (@SystemStep.read _ _ _ _ _ (okText ++ secondFrame)
    (TextDecoder.encode (okText ++ secondFrame)) rfl rfl (by decide +kernel) (by decide +kernel))
  refine ⟨_, hreread.next (.take_reading secondData [] rfl (by decide +kernel)
    (by decide +kernel)), ?_⟩
  decide +kernel

theorem durable_delivery_resumed : ∃ s : System Unit,
    s.client.yielded.filterMap Payload.event? = [⟨.agentInput, 1, ()⟩, ⟨.modelOutput, 2, ()⟩] ∧
      ((s.client.yielded.filterMap Payload.event?).map Event.sequence).Pairwise (· < ·) ∧
      Forall₂ headCodec.Carries
        (between Record.sequence s.log 0 (((s.client.yielded.filterMap Payload.event?).getLast?.map
          Event.sequence).getD 0))
        (s.client.yielded.filterMap Payload.event?) := by
  obtain ⟨s, hreachable, hyielded⟩ := twoEvents_reachable
  refine ⟨s, ?_, durable_delivery hreachable⟩
  rw [hyielded]
  rfl

end Sse
