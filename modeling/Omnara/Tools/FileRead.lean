import Omnara.Catalog.PublicId
import Omnara.Lib.Fallible
import Omnara.Lib.Lines
import Omnara.Lib.Runes

/-!
# The file reading tools

`internal/harness/tools/file_read_tools.go`: `read_file` and `search_files` on an artifact. A request is
resolved first (`resolveReadFileRequest`, `resolveSearchFilesRequest`), which picks the mode and rejects
limits that are out of range. `readFileChars` and `readFileLines` return one page of the content and where
the next page starts; `searchFilesLines` returns the matching lines of a page with the lines around them.

Positions are byte offsets into the content; `range content start stop` is `content[start:stop]`. Public
identifiers are decoded by the parameter `decode`, and a compiled pattern is what `FindIndex` answers.
-/

namespace Tools

open Json (Bytes)
open Text Fallible
open Lines (chomp)
open Window (range)

/-! ## `toolcatalog` -/

def artifactPageBytes : Nat := 4 * 1024
def maxReadableArtifactBytes : Nat := 48 * 1024 * 1024
def readFileDefaultLines : Nat := 100
def readFileMaxLines : Nat := 200
def readFileDefaultChars : Nat := 512
def readFileMaxChars : Nat := 4096
def searchDefaultMatches : Nat := 20
def searchMaxMatches : Nat := 100
def searchMaxContextLines : Nat := 5
def searchMaxPatternBytes : Nat := 1024
def artifactVFSRoot : String := "/artifacts"

def searchLineBytes : Nat := 256

def utfMax : Nat := 4

def newline : UInt8 := 10

/-! ## `textutil` -/

/-- Cut at the last character that starts within the limit. -/
def truncateBytes (value : Bytes) (limit : Nat) : Bytes :=
  if limit = 0 then []
  else if value.length ≤ limit then value
  else value.take (startBefore value 0 limit)

/-! ## Requests -/

section
variable {ID : Type} (decode : List Char → Option ID)

def resolveArtifactPath (path : String) : Option ID :=
  let root := (artifactVFSRoot ++ "/").toList
  let id := path.toList.drop root.length
  if !root.isPrefixOf path.toList || id.contains '/' then none else decode id

/-- The parameter `decode` of the server. -/
def decodeArtifact (id : List Char) : Option PublicId.Uuid :=
  (PublicId.decode PublicId.encoding "artifact" (id.map Char.toUInt8)).toOption

structure ReadFileRequest where
  path : String
  offsetLine : Option Int := none
  limitLines : Option Int := none
  offsetChar : Option Int := none
  limitChars : Option Int := none

/-- What a request asks for: characters or lines, within the limits of the tool. -/
inductive ReadRange
  | chars (offset limit : Nat) (legal : 1 ≤ limit ∧ limit ≤ readFileMaxChars)
  | lines (offset limit : Nat) (legal : 1 ≤ offset ∧ 1 ≤ limit ∧ limit ≤ readFileMaxLines)

def charRange (offset limit : Int) : Except String ReadRange :=
  if h : 0 ≤ offset ∧ 1 ≤ limit ∧ limit ≤ readFileMaxChars then
    .ok (.chars offset.toNat limit.toNat (by omega))
  else .error "invalid artifact character range"

def lineRange (offset limit : Int) : Except String ReadRange :=
  if h : 1 ≤ offset ∧ 1 ≤ limit ∧ limit ≤ readFileMaxLines then
    .ok (.lines offset.toNat limit.toNat (by omega))
  else .error "invalid artifact line range"

def resolveReadFileRequest (input : ReadFileRequest) : Except String (ReadRange × ID) := do
  let id ← (resolveArtifactPath decode input.path).elim
    (.error "path must be /artifacts/<artifact_id>") .ok
  let charMode := input.offsetChar.isSome || input.limitChars.isSome
  let lineMode := input.offsetLine.isSome || input.limitLines.isSome
  ensure (¬ (charMode ∧ lineMode)) "character paging cannot be combined with line paging"
  let picked ←
    if charMode then
      charRange (input.offsetChar.getD 0) (input.limitChars.getD readFileDefaultChars)
    else lineRange (input.offsetLine.getD 1) (input.limitLines.getD readFileDefaultLines)
  pure (picked, id)

end

/-! ## `read_file` -/

/-- The result map of `read_file`; a key that is not set is `none`. -/
structure ReadFileResult where
  path : String
  content : Bytes
  offsetChar : Option Nat := none
  offsetLine : Option Nat := none
  linesRead : Option Nat := none
  notice : Option String := none
  bytesRead : Nat
  hasMore : Bool
  nextOffsetChar : Option Nat := none
  nextOffsetLine : Option Nat := none
  contentType : Option String := none
  sizeBytes : Option Nat := none

section
variable (content : Bytes)

/-- The first loop of `readFileChars`, over the `n` characters that are still to be skipped. -/
def skipChars : Nat → Nat → Nat → Nat × Nat
  | 0, start, position => (start, position)
  | n + 1, start, position =>
    if start < content.length then
      skipChars n (start + decodeRuneSize (content.drop start)) (position + 1)
    else (start, position)

/-- The second loop of `readFileChars`; `n` more characters may be read. -/
def takeChars (start : Nat) : Nat → Nat → Nat → Nat × Nat
  | 0, stop, count => (stop, count)
  | n + 1, stop, count =>
    if stop < content.length then
      let size := decodeRuneSize (content.drop stop)
      if artifactPageBytes < stop - start + size then (stop, count)
      else takeChars start n (stop + size) (count + 1)
    else (stop, count)

def readFileChars (path : String) (offset limit : Nat) : ReadFileResult :=
  let (start, position) := skipChars content offset 0 0
  let (stop, count) := takeChars content start limit start 0
  { path := path
    content := range content start stop
    offsetChar := some position
    bytesRead := stop - start
    hasMore := stop < content.length
    nextOffsetChar := if stop < content.length then some (position + count) else none }

/-- The first loop of `readFileLines`, over the `n` lines that are still to be skipped. -/
def skipLines : Nat → Nat → Nat
  | 0, start => start
  | n + 1, start =>
    if start < content.length then
      match (content.drop start).idxOf? newline with
      | none => content.length
      | some next => skipLines n (start + next + 1)
    else start

/-- Bytes of the line at `stop`, with its newline. -/
def lineLength (stop : Nat) : Nat :=
  match (content.drop stop).idxOf? newline with
  | none => content.length - stop
  | some length => length + 1

/-- The second loop of `readFileLines`; `n` more lines may be read. -/
def takeLines (start : Nat) : Nat → Nat → Nat → Nat × Nat
  | 0, stop, count => (stop, count)
  | n + 1, stop, count =>
    if stop < content.length then
      if artifactPageBytes < stop - start + lineLength content stop then (stop, count)
      else takeLines start n (stop + lineLength content stop) (count + 1)
    else (stop, count)

def readFileLines (path : String) (offsetLine limitLines : Nat) : ReadFileResult :=
  let start := skipLines content (offsetLine - 1) 0
  let (linesEnd, count) := takeLines content start limitLines start 0
  let tooLong := count = 0 ∧ start < content.length
  let chunk := range content start (min (start + artifactPageBytes + utfMax) content.length)
  -- a line that does not fit is read in part, and the reader goes on in character mode
  let stop := if tooLong then start + (truncateBytes chunk artifactPageBytes).length else linesEnd
  { path := path
    content := range content start stop
    offsetLine := some offsetLine
    linesRead := some count
    notice := if tooLong then
      some "The requested line exceeds one page; continue in character mode." else none
    bytesRead := stop - start
    hasMore := stop < content.length
    nextOffsetChar := if stop < content.length ∧ count = 0 then
      some (runeCount (content.take stop)) else none
    nextOffsetLine := if stop < content.length ∧ count ≠ 0 then some (offsetLine + count) else none }

def ReadRange.read (path : String) : ReadRange → ReadFileResult
  | .chars offset limit _ => readFileChars content path offset limit
  | .lines offset limit _ => readFileLines content path offset limit

end

/-- `read_file` on an artifact that is loaded. -/
def readFile {ID : Type} (decode : List Char → Option ID) (content : Bytes) (input : ReadFileRequest) :
    Except String ReadFileResult := do
  let (picked, _) ← resolveReadFileRequest decode input
  pure (picked.read content input.path)

/-! ## `search_files` -/

/-- A compiled pattern. `findIndex` is the first match in a line; matches of valid text are between
characters. -/
structure Regexp where
  string : String
  findIndex : Bytes → Option (Nat × Nat)
  bounds : ∀ {line start stop}, findIndex line = some (start, stop) → start ≤ stop ∧ stop ≤ line.length
  boundary : ∀ {line start stop}, valid line → findIndex line = some (start, stop) →
    Boundary line start ∧ Boundary line stop

structure SearchFilesRequest where
  path : String
  pattern : String
  offsetLine : Option Int := none
  maxMatches : Option Int := none
  contextLines : Int := 0

/-- The numbers of a search, within the limits of the tool. -/
structure SearchLimits where
  offsetLine : Nat
  maxMatches : Nat
  contextLines : Nat
  legal : 1 ≤ offsetLine ∧ 1 ≤ maxMatches ∧ maxMatches ≤ searchMaxMatches ∧
    contextLines ≤ searchMaxContextLines

def searchLimits (offsetLine maxMatches contextLines : Int) : Except String SearchLimits :=
  if h : 1 ≤ offsetLine ∧ 1 ≤ maxMatches ∧ maxMatches ≤ searchMaxMatches ∧
      0 ≤ contextLines ∧ contextLines ≤ searchMaxContextLines then
    .ok ⟨offsetLine.toNat, maxMatches.toNat, contextLines.toNat, by omega⟩
  else .error "invalid artifact search limits"

def resolveSearchFilesRequest {ID : Type} (decode : List Char → Option ID)
    (compile : String → Except String Regexp) (input : SearchFilesRequest) :
    Except String (SearchLimits × ID × Regexp) := do
  let id ← (resolveArtifactPath decode input.path).elim
    (.error "path must be /artifacts/<artifact_id>") .ok
  ensure (input.pattern ≠ "" ∧ input.pattern.utf8ByteSize ≤ searchMaxPatternBytes)
    "pattern must contain 1–1024 bytes"
  let pattern ← (compile input.pattern).mapError ("compile pattern: " ++ ·)
  let limits ← searchLimits (input.offsetLine.getD 1) (input.maxMatches.getD searchDefaultMatches)
    input.contextLines
  pure (limits, id, pattern)

def ellipsis : Bytes := [0xE2, 0x80, 0xA6]

def truncateAroundMatch (value : Bytes) (matchStart matchEnd limit : Nat) : Bytes :=
  if value.length ≤ limit then value
  else
    let matchLength := matchEnd - matchStart
    if limit ≤ matchLength then
      truncateBytes (range value matchStart (min matchEnd (matchStart + limit + utfMax))) limit
    else
      let remaining := limit - matchLength
      let start := matchStart - remaining / 2
      let stop := min value.length (matchEnd + (remaining - (matchStart - start)))
      let start := if stop - start < limit then stop - limit else start
      let start := startAfter value (matchStart - start) start
      let stop := startBefore value matchEnd stop
      (if 0 < start then ellipsis else []) ++ range value start stop ++
        if stop < value.length then ellipsis else []

structure VisibleLine where
  lineNumber : Nat
  text : Bytes
  isMatch : Bool
deriving DecidableEq

structure Block where
  matchLine : Nat
  lines : List VisibleLine
deriving DecidableEq

def Block.bytes (b : Block) : Nat := (b.lines.map fun line => line.text.length + 32).sum

structure SearchFilesResult where
  path : String
  pattern : String
  found : List Block
  matchCount : Nat
  truncated : Bool
  nextOffsetLine : Option Nat

section
variable (content : Bytes)

def lastIndexByte (data : Bytes) (b : UInt8) : Int :=
  match data.reverse.idxOf? b with
  | none => -1
  | some i => data.length - 1 - i

/-- The loop back over `n` context lines. -/
def contextStart : Nat → Nat → Nat → Nat × Nat
  | 0, start, firstLine => (start, firstLine)
  | n + 1, start, firstLine =>
    if 0 < start then
      contextStart n (lastIndexByte (content.take (start - 1)) newline + 1).toNat (firstLine - 1)
    else (start, firstLine)

def visibleLine (lineNumber : Nat) (location : Nat × Nat) (currentLine : Nat) (line : Bytes) :
    VisibleLine where
  lineNumber := currentLine
  text :=
    if currentLine = lineNumber then truncateAroundMatch line location.1 location.2 searchLineBytes
    else truncateBytes (line.take (min line.length (searchLineBytes + utfMax))) searchLineBytes
  isMatch := currentLine = lineNumber

/-- The block of the match in line `lineNumber`, which is at `lineStart`; the next line is at
`byteOffset`. The loop over the context lines behind the match is that of `skipLines`. -/
def matchBlock (contextLines lineNumber lineStart byteOffset : Nat) (location : Nat × Nat) : Block :=
  let (start, firstLine) := contextStart content contextLines lineStart lineNumber
  let stop := skipLines content contextLines (min byteOffset content.length)
  { matchLine := lineNumber
    lines := ((chomp newline (range content start stop)).splitOn newline).mapIdx fun i line =>
      visibleLine lineNumber location (firstLine + i) line }

/-- The loop of `searchFilesLines` over the lines that are left; the second result is `nextOffsetLine`,
0 if the search reached the end. -/
def searchLoop (pattern : Regexp) (limits : SearchLimits) :
    List Bytes → Nat → Nat → List Block → Nat → List Block × Nat
  | [], _, _, blocks, _ => (blocks, 0)
  | line :: lines, lineNumber, byteOffset, blocks, renderedBytes =>
    let lineNumber := lineNumber + 1
    let lineStart := byteOffset
    if content.length ≤ lineStart then (blocks, 0)
    else
      let byteOffset := byteOffset + line.length + 1
      if lineNumber < limits.offsetLine then
        searchLoop pattern limits lines lineNumber byteOffset blocks renderedBytes
      else
        match pattern.findIndex line with
        | none => searchLoop pattern limits lines lineNumber byteOffset blocks renderedBytes
        | some location =>
          if limits.maxMatches ≤ blocks.length then (blocks, lineNumber)
          else
            let block := matchBlock content limits.contextLines lineNumber lineStart byteOffset location
            if artifactPageBytes < renderedBytes + block.bytes then (blocks, lineNumber)
            else
              searchLoop pattern limits lines lineNumber byteOffset (blocks ++ [block])
                (renderedBytes + block.bytes)

def searchFilesLines (path : String) (pattern : Regexp) (limits : SearchLimits) : SearchFilesResult :=
  let (blocks, nextOffsetLine) := searchLoop content pattern limits (content.splitOn newline) 0 0 [] 0
  { path := path
    pattern := pattern.string
    found := blocks
    matchCount := blocks.length
    truncated := 0 < nextOffsetLine
    nextOffsetLine := if 0 < nextOffsetLine then some nextOffsetLine else none }

end

/-- `search_files` on an artifact that is loaded. -/
def searchFiles {ID : Type} (decode : List Char → Option ID) (compile : String → Except String Regexp)
    (content : Bytes) (input : SearchFilesRequest) : Except String SearchFilesResult := do
  let (limits, _, pattern) ← resolveSearchFilesRequest decode compile input
  pure (searchFilesLines content input.path pattern limits)

/-! ## Tools on stored artifacts -/

structure ArtifactRecord where
  contentType : String
  sizeBytes : Option Int

structure ArtifactStore (ID : Type) where
  getArtifact : ID → Except String ArtifactRecord
  getArtifactBlob : ID → Except String (Bytes × ArtifactRecord)

section
variable {ID : Type} (decode : List Char → Option ID) (store : Option (ArtifactStore ID))

def loadReadableArtifact (artifactID : ID) : Except String (Bytes × ArtifactRecord) := do
  let artifacts ← store.elim (.error "artifact storage is not configured") .ok
  let record ← (artifacts.getArtifact artifactID).mapError ("load artifact: " ++ ·)
  ensure (∀ size ∈ record.sizeBytes, size ≤ maxReadableArtifactBytes)
    s!"artifact exceeds the {maxReadableArtifactBytes}-byte readable limit"
  let (content, record) ← (artifacts.getArtifactBlob artifactID).mapError ("read artifact: " ++ ·)
  ensure (content.length ≤ maxReadableArtifactBytes) "artifact exceeds readable limit"
  ensure (valid content ∧ 0 ∉ content) "artifact must contain UTF-8 text without NUL bytes"
  pure (content, record)

def runReadFileAsync (input : ReadFileRequest) : Except String ReadFileResult := do
  let (picked, artifactID) ← resolveReadFileRequest decode input
  let (content, record) ← loadReadableArtifact store artifactID
  pure { picked.read content input.path with
    contentType := some record.contentType
    sizeBytes := some content.length }

def runSearchFilesAsync (compile : String → Except String Regexp) (input : SearchFilesRequest) :
    Except String SearchFilesResult := do
  let (limits, artifactID, pattern) ← resolveSearchFilesRequest decode compile input
  let (content, _) ← loadReadableArtifact store artifactID
  pure (searchFilesLines content input.path pattern limits)

end

end Tools
