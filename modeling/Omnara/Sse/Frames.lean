import Omnara.Lib.Blocks

/-!
# Server-sent events on the wire

The server writes frames (`writeSSEFrame`, `internal/httpapi/agent_runtime_routes.go`) and comments;
the SDK reads the text in the chunks the network delivers (`createServerSentEventParser`,
`frontend/packages/sdk/src/server-sent-events.ts`). A text is its list of characters, so a chunk may
end anywhere. Errors of the connection itself are not modelled: `none` is a frame that
`writeSSEFrame` refuses before it writes anything.
-/

namespace Sse

abbrev Text := List Char

/-! ## The writer -/

/-- `strings.ReplaceAll(data, "\r\n", "\n")`. -/
def replaceCRLF : Text → Text
  | '\r' :: '\n' :: cs => '\n' :: replaceCRLF cs
  | c :: cs => c :: replaceCRLF cs
  | [] => []

/-- `strings.ReplaceAll(data, "\r", "\n")`. -/
def replaceCR (data : Text) : Text := data.map fun c => if c = '\r' then '\n' else c

/-- `strings.ContainsAny(s, chars)`. -/
def containsAny (s : Text) (chars : List Char) : Bool := s.any (chars.contains ·)

/-- `fmt.Fprintf(w, "name: %s\n", value)`. -/
def fieldLine (name : String) (value : Text) : Text := name.toList ++ [':', ' '] ++ value ++ ['\n']

def writeSSEFrame (eventName id data : Text) : Option Text :=
  if containsAny eventName ['\r', '\n'] || containsAny id ['\x00', '\r', '\n'] then none
  else
    let head := (if id ≠ [] then fieldLine "id" id else []) ++
      (if eventName ≠ [] then fieldLine "event" eventName else [])
    if !containsAny data ['\r', '\n'] then some (head ++ fieldLine "data" data ++ ['\n'])
    else
      let lines := (replaceCR (replaceCRLF data)).splitOn '\n'
      some (head ++ lines.flatMap (fieldLine "data") ++ ['\n'])

/-- What the server writes to a stream: frames, and comments such as `: ok` and `: heartbeat`. A
comment is one or more lines that start with a colon. -/
inductive Item
  | frame (eventName id data : Text)
  | comment (line : Text) (more : List Text)

def commentBlock (lines : List Text) : Text := lines.flatMap (fun l => ':' :: l ++ ['\n']) ++ ['\n']

/-- `none` for a refused frame and for a comment line with a line end in it. -/
def Item.write : Item → Option Text
  | .frame eventName id data => writeSSEFrame eventName id data
  | .comment line more =>
    if (line :: more).any (containsAny · ['\r', '\n']) then none
    else some (commentBlock (line :: more))

def writeAll : List Item → Option Text
  | [] => some []
  | item :: items =>
    match item.write, writeAll items with
    | some text, some rest => some (text ++ rest)
    | _, _ => none

/-! ## The parser -/

/-- `text.replaceAll(/\r\n?/g, '\n')`. -/
def normalize : Text → Text
  | '\r' :: '\n' :: cs => '\n' :: normalize cs
  | '\r' :: cs => '\n' :: normalize cs
  | c :: cs => c :: normalize cs
  | [] => []

def messageLine (line : Text) : Option Text :=
  if line ≠ "data".toList ∧ ¬ "data:".toList <+: line then none
  else
    let value := line.drop "data:".length
    some (if value.head? = some ' ' then value.tail else value)

def messageData (block : Text) : Option Text :=
  let data := (block.splitOn '\n').filterMap messageLine
  if data.length = 0 then none else some (['\n'].intercalate data)

structure Parser where
  /-- The message in progress. -/
  parts : List Text := []
  pendingCarriageReturn : Bool := false
  deriving DecidableEq

/-- The loop of `push`: `text` is what the next search starts from. Every round shortens it, so its
length is enough fuel. -/
def scanMessages : Nat → List Text → Text → List Text × List Text
  | 0, parts, _ => (parts, [])
  | fuel + 1, parts, text =>
    match Blocks.cut '\n' text with
    | none => (if text ≠ [] then parts ++ [text] else parts, [])
    | some (before, after) =>
      let (rest, messages) := scanMessages fuel [] after
      (rest, (messageData (parts.flatten ++ before)).toList ++ messages)

/-- A blank line can straddle chunks: a line end kept at the end of the last part is read again. -/
def moveLineEnd (parts : List Text) (text : Text) : List Text × Text :=
  match parts.getLast? with
  | some last =>
    if last.getLast? = some '\n' then (parts.dropLast ++ [last.dropLast], '\n' :: text)
    else (parts, text)
  | none => (parts, text)

def Parser.push (p : Parser) (chunk : Text) : Parser × List Text :=
  if chunk = [] then (p, [])
  else
    let text := if p.pendingCarriageReturn ∧ chunk.head? = some '\n' then chunk.tail else chunk
    let pendingCarriageReturn := decide (chunk.getLast? = some '\r')
    let text := normalize text
    let (parts, text) := moveLineEnd p.parts text
    let (parts, messages) := scanMessages (text.length + 1) parts text
    (⟨parts, pendingCarriageReturn⟩, messages)

def Parser.pushAll : Parser → List Text → Parser × List Text
  | p, [] => (p, [])
  | p, chunk :: chunks =>
    let (p, messages) := p.push chunk
    let (p, more) := p.pushAll chunks
    (p, messages ++ more)

/-- What the parser of a new stream yields for the chunks. -/
def messagesOf (chunks : List Text) : List Text := (({} : Parser).pushAll chunks).2

end Sse
