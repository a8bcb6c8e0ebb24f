import Mathlib.Algebra.BigOperators.Group.List.Basic
import Mathlib.Algebra.Order.Ring.Int

/-!
# The `encoding/json` scanner and the decodings built on it

A JSON text is a list of bytes. `Scanner.next` is one step of the scanner of Go's `encoding/json`
(one byte; a stack of open objects and arrays, at most `maxNestingDepth` deep), so `checkValid`
recurses on the input alone. `unmarshalRawArray`, `unmarshalRawObject` and `unmarshalString` are
`json.Unmarshal` into `[]json.RawMessage`, `map[string]json.RawMessage` and `string`: `none` is a
decoding error, and `null` decodes without an error into the nil slice, the nil map or the empty
string.
-/

namespace Json

abbrev Bytes := List UInt8

instance : LawfulBEq Bytes := inferInstance

def ascii (s : String) : Bytes := s.toList.map Char.toUInt8

/-! ## The scanner -/

/-- What the innermost open container is waiting for. -/
inductive ParseState
  | objectKey | objectValue | arrayValue
  deriving DecidableEq

/-- The scanner's `step` function. `literal rest` stands for the states inside `true`, `false` and
`null`, with the bytes still to come; `escapeU n` has read `n` hexadecimal digits. -/
inductive Step
  | beginValue | beginValueOrEmpty | beginString | beginStringOrEmpty | endValue | endTop
  | inString | inStringEsc | escapeU (n : Nat)
  | neg | digits | zero | dot | dotDigits | exp | expSign | expDigits
  | literal (rest : Bytes)
  deriving DecidableEq

/-- The scan codes; an error is `none`. -/
inductive Op
  | continue | beginLiteral | beginObject | objectKey | objectValue | endObject
  | beginArray | arrayValue | endArray | skipSpace | finish
  deriving DecidableEq

structure Scanner where
  step : Step
  /-- Innermost container first. -/
  parseState : List ParseState
  deriving DecidableEq

def Scanner.reset : Scanner := ⟨.beginValue, []⟩

def maxNestingDepth : Nat := 10000

def isSpace (c : UInt8) : Bool := c == 32 || c == 9 || c == 13 || c == 10

def isDigit (c : UInt8) : Bool := 48 ≤ c && c ≤ 57

def isHex (c : UInt8) : Bool := isDigit c || (97 ≤ c && c ≤ 102) || (65 ≤ c && c ≤ 70)

def isExp (c : UInt8) : Bool := c == 101 || c == 69

abbrev ScanResult := Option (Op × Scanner)

def pushParseState (ps : List ParseState) (p : ParseState) (next : Step) (op : Op) : ScanResult :=
  if ps.length + 1 ≤ maxNestingDepth then some (op, ⟨next, p :: ps⟩) else none

def popParseState (ps : List ParseState) (op : Op) : ScanResult :=
  some (op, ⟨if ps.tail.isEmpty then .endTop else .endValue, ps.tail⟩)

def stateEndTop (ps : List ParseState) (c : UInt8) : ScanResult :=
  if isSpace c then some (.finish, ⟨.endTop, ps⟩) else none

def stateEndValue (ps : List ParseState) (c : UInt8) : ScanResult :=
  match ps with
  | [] => stateEndTop [] c
  | p :: rest =>
    if isSpace c then some (.skipSpace, ⟨.endValue, ps⟩)
    else match p with
      | .objectKey =>
        if c == 58 then some (.objectKey, ⟨.beginValue, .objectValue :: rest⟩) else none
      | .objectValue =>
        if c == 44 then some (.objectValue, ⟨.beginString, .objectKey :: rest⟩)
        else if c == 125 then popParseState ps .endObject
        else none
      | .arrayValue =>
        if c == 44 then some (.arrayValue, ⟨.beginValue, ps⟩)
        else if c == 93 then popParseState ps .endArray
        else none

def stateBeginValue (ps : List ParseState) (c : UInt8) : ScanResult :=
  if isSpace c then some (.skipSpace, ⟨.beginValue, ps⟩)
  else if c == 123 then pushParseState ps .objectKey .beginStringOrEmpty .beginObject
  else if c == 91 then pushParseState ps .arrayValue .beginValueOrEmpty .beginArray
  else if c == 34 then some (.beginLiteral, ⟨.inString, ps⟩)
  else if c == 45 then some (.beginLiteral, ⟨.neg, ps⟩)
  else if c == 48 then some (.beginLiteral, ⟨.zero, ps⟩)
  else if c == 116 then some (.beginLiteral, ⟨.literal (ascii "rue"), ps⟩)
  else if c == 102 then some (.beginLiteral, ⟨.literal (ascii "alse"), ps⟩)
  else if c == 110 then some (.beginLiteral, ⟨.literal (ascii "ull"), ps⟩)
  else if isDigit c then some (.beginLiteral, ⟨.digits, ps⟩)
  else none

def stateBeginString (ps : List ParseState) (c : UInt8) : ScanResult :=
  if isSpace c then some (.skipSpace, ⟨.beginString, ps⟩)
  else if c == 34 then some (.beginLiteral, ⟨.inString, ps⟩)
  else none

def stateZero (ps : List ParseState) (c : UInt8) : ScanResult :=
  if c == 46 then some (.continue, ⟨.dot, ps⟩)
  else if isExp c then some (.continue, ⟨.exp, ps⟩)
  else stateEndValue ps c

def stateExpSign (ps : List ParseState) (c : UInt8) : ScanResult :=
  if isDigit c then some (.continue, ⟨.expDigits, ps⟩) else none

def Scanner.next (s : Scanner) (c : UInt8) : ScanResult :=
  let ps := s.parseState
  match s.step with
  | .beginValue => stateBeginValue ps c
  | .beginValueOrEmpty =>
    if isSpace c then some (.skipSpace, s)
    else if c == 93 then stateEndValue ps c
    else stateBeginValue ps c
  | .beginString => stateBeginString ps c
  | .beginStringOrEmpty =>
    if isSpace c then some (.skipSpace, s)
    else if c == 125 then stateEndValue (.objectValue :: ps.tail) c
    else stateBeginString ps c
  | .endValue => stateEndValue ps c
  | .endTop => stateEndTop ps c
  | .inString =>
    if c == 34 then some (.continue, ⟨.endValue, ps⟩)
    else if c == 92 then some (.continue, ⟨.inStringEsc, ps⟩)
    else if c < 32 then none
    else some (.continue, s)
  | .inStringEsc =>
    if c ∈ ascii "bfnrt\\/\"" then some (.continue, ⟨.inString, ps⟩)
    else if c == 117 then some (.continue, ⟨.escapeU 0, ps⟩)
    else none
  | .escapeU n =>
    if isHex c then some (.continue, ⟨if n = 3 then .inString else .escapeU (n + 1), ps⟩) else none
  | .neg =>
    if c == 48 then some (.continue, ⟨.zero, ps⟩)
    else if isDigit c then some (.continue, ⟨.digits, ps⟩)
    else none
  | .digits => if isDigit c then some (.continue, s) else stateZero ps c
  | .zero => stateZero ps c
  | .dot => if isDigit c then some (.continue, ⟨.dotDigits, ps⟩) else none
  | .dotDigits =>
    if isDigit c then some (.continue, s)
    else if isExp c then some (.continue, ⟨.exp, ps⟩)
    else stateEndValue ps c
  | .exp => if c == 43 || c == 45 then some (.continue, ⟨.expSign, ps⟩) else stateExpSign ps c
  | .expSign => stateExpSign ps c
  | .expDigits => if isDigit c then some (.continue, s) else stateEndValue ps c
  | .literal [] => none
  | .literal (r :: rest) =>
    if c == r then some (.continue, ⟨if rest.isEmpty then .endValue else .literal rest, ps⟩)
    else none

/-- End of input: a literal at the top level ends as if a space followed. -/
def Scanner.eof (s : Scanner) : Bool :=
  s.step == .endTop || (match s.next 32 with
    | some (_, s') => s'.step == .endTop
    | none => false)

def scan : Scanner → Bytes → Option Scanner
  | s, [] => some s
  | s, c :: cs => match s.next c with
    | some (_, s') => scan s' cs
    | none => none

/-- `checkValid`: the whole input is one JSON value with surrounding white space. -/
def checkValid (data : Bytes) : Bool :=
  match scan .reset data with
  | some s => s.eof
  | none => false

/-! ## Raw parts of the outermost container -/

/-- A piece of the outermost container, with the scan code of the delimiter that ended it. -/
structure Segment where
  raw : Bytes
  ended : Op
  deriving DecidableEq

/-- The pieces between the delimiters of the outermost container, without the white space around
them; `cur` is the piece being read. -/
def segments : Scanner → Bytes → Bytes → List Segment
  | _, _, [] => []
  | s, cur, c :: cs =>
    match s.next c with
    | none => []
    | some (op, s') =>
      match s.parseState.length with
      | 0 => segments s' cur cs
      | 1 =>
        match op with
        | .skipSpace => segments s' cur cs
        | .arrayValue | .objectKey | .objectValue => ⟨cur, op⟩ :: segments s' [] cs
        | .endArray | .endObject =>
          if cur.isEmpty then segments s' [] cs else ⟨cur, op⟩ :: segments s' [] cs
        | _ => segments s' (cur ++ [c]) cs
      | _ => segments s' (cur ++ [c]) cs

/-- The lower-case hexadecimal digit of a half byte. -/
def hexDigit (n : UInt8) : UInt8 := if n < 10 then 48 + n else 87 + n

/-- `appendCompact`, which `json.Marshal` runs on the text of a `json.RawMessage`: white space outside of
strings goes, the characters `<`, `>`, `&` and the two line separators are written as escapes. -/
def compactFrom : Scanner → Bytes → Bytes
  | _, [] => []
  | s, c :: cs =>
    match s.next c with
    | none => []
    | some (op, s') =>
      let rest := compactFrom s' cs
      if op = .skipSpace ∨ op = .finish then rest
      else if c = 60 ∨ c = 62 ∨ c = 38 then
        ascii "\\u00" ++ [hexDigit (c >>> 4), hexDigit (c &&& 15)] ++ rest
      else match c, cs with
        -- the three bytes of a separator are in a string, the scanner passes over the other two
        | 0xE2, 0x80 :: 0xA8 :: _ => ascii "\\u2028" ++ rest.drop 2
        | 0xE2, 0x80 :: 0xA9 :: _ => ascii "\\u2029" ++ rest.drop 2
        | _, _ => c :: rest

def compact (data : Bytes) : Bytes := compactFrom .reset data

def trimLeft (data : Bytes) : Bytes := data.dropWhile isSpace

def trimRight (data : Bytes) : Bytes := (trimLeft data.reverse).reverse

def trim (data : Bytes) : Bytes := trimRight (trimLeft data)

/-! ## Strings -/

/-- Length of the well-formed UTF-8 sequence at the head of the input, 0 if there is none. -/
def runeLength : Bytes → Nat
  | [] => 0
  | a :: rest =>
    let cont (lo hi c : UInt8) : Bool := lo ≤ c && c ≤ hi
    if a < 128 then 1
    else match rest with
      | b :: rest =>
        if 194 ≤ a && a ≤ 223 then (if cont 128 191 b then 2 else 0)
        else match rest with
          | c :: rest =>
            let lo := if a == 224 then 160 else 128
            let hi := if a == 237 then 159 else 191
            if 224 ≤ a && a ≤ 239 then (if cont lo hi b && cont 128 191 c then 3 else 0)
            else match rest with
              | d :: _ =>
                let lo := if a == 240 then 144 else 128
                let hi := if a == 244 then 143 else 191
                if 240 ≤ a && a ≤ 244 then
                  (if cont lo hi b && cont 128 191 c && cont 128 191 d then 4 else 0)
                else 0
              | [] => 0
          | [] => 0
      | [] => 0

/-- UTF-8 encoding of a code point; surrogates and values out of range become U+FFFD. -/
def encodeRune (r : Nat) : Bytes :=
  if r < 0x80 then [r.toUInt8]
  else if r < 0x800 then [(0xC0 + r / 64).toUInt8, (0x80 + r % 64).toUInt8]
  else if (0xD800 ≤ r && r ≤ 0xDFFF) || 0x10FFFF < r then [0xEF, 0xBF, 0xBD]
  else if r < 0x10000 then
    [(0xE0 + r / 4096).toUInt8, (0x80 + r / 64 % 64).toUInt8, (0x80 + r % 64).toUInt8]
  else
    [(0xF0 + r / 262144).toUInt8, (0x80 + r / 4096 % 64).toUInt8, (0x80 + r / 64 % 64).toUInt8,
      (0x80 + r % 64).toUInt8]

def hexValue (c : UInt8) : Nat :=
  if isDigit c then c.toNat - 48 else if 97 ≤ c then c.toNat - 87 else c.toNat - 55

/-- `getu4`: the code unit of an escape `\uXXXX` at the head of the input. -/
def getu4 : Bytes → Option Nat
  | 92 :: 117 :: a :: b :: c :: d :: _ =>
    if isHex a && isHex b && isHex c && isHex d then
      some (((hexValue a * 16 + hexValue b) * 16 + hexValue c) * 16 + hexValue d)
    else none
  | _ => none

/-- `utf16.DecodeRune`, with `none` for U+FFFD. -/
def decodeSurrogates (r1 r2 : Nat) : Option Nat :=
  if 0xD800 ≤ r1 && r1 < 0xDC00 && 0xDC00 ≤ r2 && r2 < 0xE000 then
    some ((r1 - 0xD800) * 1024 + (r2 - 0xDC00) + 0x10000)
  else none

def escapeByte (c : UInt8) : UInt8 :=
  if c == 98 then 8 else if c == 102 then 12 else if c == 110 then 10
  else if c == 114 then 13 else if c == 116 then 9 else c

/-- The contents of a string literal without its quotes. Every step consumes at least one byte, so
the length of the input is enough fuel. -/
def unquoteBody : Nat → Bytes → Bytes
  | 0, _ => []
  | _, [] => []
  | fuel + 1, c :: cs =>
    if c == 92 then
      match getu4 (c :: cs) with
      | some r =>
        if 0xD800 ≤ r && r < 0xE000 then
          match (getu4 (cs.drop 5)).bind (decodeSurrogates r) with
          | some r' => encodeRune r' ++ unquoteBody fuel (cs.drop 11)
          | none => encodeRune 0xFFFD ++ unquoteBody fuel (cs.drop 5)
        else encodeRune r ++ unquoteBody fuel (cs.drop 5)
      | none =>
        match cs with
        | [] => []
        | e :: cs => escapeByte e :: unquoteBody fuel cs
    else match runeLength (c :: cs) with
      | 0 => encodeRune 0xFFFD ++ unquoteBody fuel cs
      | n + 1 => (c :: cs.take n) ++ unquoteBody fuel (cs.drop n)

def unquote (lit : Bytes) : Bytes :=
  let body := lit.tail.dropLast
  unquoteBody body.length body

/-! ## Unmarshalling -/

def opening (data : Bytes) : Option UInt8 := (trimLeft data).head?

/-- `json.Unmarshal` into `[]json.RawMessage`; `some none` is the nil slice. -/
def unmarshalRawArray (data : Bytes) : Option (Option (List Bytes)) :=
  if !checkValid data then none
  else if opening data == some 110 then some none
  else if opening data == some 91 then some (some ((segments .reset [] data).map (·.raw)))
  else none

def members : List Segment → List (Bytes × Bytes)
  | k :: v :: rest => (unquote k.raw, v.raw) :: members rest
  | _ => []

/-- `json.Unmarshal` into `map[string]json.RawMessage`, as the list of members in the order of the
text; a later member replaces an earlier one of the same key (`lookup`). -/
def unmarshalRawObject (data : Bytes) : Option (Option (List (Bytes × Bytes))) :=
  if !checkValid data then none
  else if opening data == some 110 then some none
  else if opening data == some 123 then some (some (members (segments .reset [] data)))
  else none

def lookup (obj : List (Bytes × Bytes)) (key : Bytes) : Option Bytes := obj.reverse.lookup key

/-- `json.Unmarshal` into an empty `string`. -/
def unmarshalString (data : Bytes) : Option Bytes :=
  if !checkValid data then none
  else if opening data == some 110 then some []
  else if opening data == some 34 then some (unquote (trim data))
  else none

/-- The value of a run of digits, `none` if there is none or another byte is in it. -/
def natOfDigits (digits : Bytes) : Option Nat :=
  if digits.isEmpty || !digits.all isDigit then none
  else some (digits.foldl (fun n c => n * 10 + (c.toNat - 48)) 0)

/-- `json.Unmarshal` into an `int` that is 0: a number without fraction and exponent that fits. -/
def unmarshalInt (data : Bytes) : Option Int :=
  if !checkValid data then none
  else if opening data == some 110 then some 0
  else
    let value := match trim data with
      | 45 :: digits => (natOfDigits digits).map fun n => -(n : Int)
      | digits => (natOfDigits digits).map fun n => (n : Int)
    value.filter fun n => -2 ^ 63 ≤ n ∧ n < 2 ^ 63

end Json
