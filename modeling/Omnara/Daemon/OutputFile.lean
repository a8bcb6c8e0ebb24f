import Mathlib.Data.List.Basic
import Omnara.Lib.Text

/-!
# The output file of a process (`internal/machinedaemon/output_file.go`)

`ProcessOutput` keeps the last bytes a process wrote in one file: a header with the offset of the
first byte kept, then the bytes `[baseOffset, endOffset)` of everything written. `write` appends, and
once the file would exceed the limit by a quarter it rewrites the file with the last `limit` bytes
(`compactLocked`). What the operating system does to a call is the argument `io`; `{}` is a call
without an I/O error. The timer that syncs the file later changes nothing that is modelled, and the
permission checks when a file is opened are `io.openErr`.

`sum` is `sha256.Sum256`.
-/

namespace Daemon

open Json (Bytes ascii)

def maxInt64 : Int := 2 ^ 63 - 1

def processOutputHeaderSize : Nat := 32

def processOutputSyncBytes : Int := 1024 * 1024

def defaultProcessOutputBufferBytes : Int := 100 * 1024 * 1024

def defaultObservationBytes : Int := 8 * 1024

def processOutputMagic : Bytes := ascii "OMNOUT01"

inductive OutputError
  /-- `process output is closed` -/
  | closed
  /-- `process output cursor range is invalid` -/
  | cursorRange
  /-- `process output append range is invalid` -/
  | appendRange
  /-- `process output read range is invalid` -/
  | readRange
  /-- `process output read length is invalid` -/
  | readLength
  /-- `process output header is truncated` -/
  | headerTruncated
  /-- `process output header has an invalid size` -/
  | headerSize
  /-- `process output header has an invalid format` -/
  | headerFormat
  /-- `process output header checksum is invalid` -/
  | headerChecksum
  /-- `process output file does not match the live cursor range` -/
  | cursorMismatch
  /-- `process output replacement has %d data bytes, want %d` -/
  | replacementSize (got want : Int)
  /-- `io.ErrShortWrite` -/
  | shortWrite
  /-- `io.EOF` -/
  | eof
  /-- `io.ErrUnexpectedEOF` -/
  | unexpectedEOF
  /-- an error of the operating system -/
  | io
  /-- `compact process output: %w` -/
  | compact (err : OutputError)
  /-- `reopen compacted process output: %w` -/
  | reopen (err : OutputError)
  deriving DecidableEq

/-! ## The header -/

def putUint64 (n : Nat) : Bytes :=
  [56, 48, 40, 32, 24, 16, 8, 0].map fun shift => (n / 2 ^ shift % 256).toUInt8

def uint64 (b : Bytes) : Nat := b.foldl (fun n c => n * 256 + c.toNat) 0

section
variable (sum : Bytes → Vector UInt8 32)

def encodeProcessOutputHeader (baseOffset : Int) : Except OutputError Bytes :=
  if baseOffset < 0 then .error .cursorRange
  else
    let start := processOutputMagic ++ putUint64 baseOffset.toNat
    .ok (start ++ (sum start).toList.take 16)

def decodeProcessOutputHeader (header : Bytes) (dataLength : Int) : Except OutputError Int :=
  if header.length ≠ processOutputHeaderSize then .error .headerSize
  else if header.take 8 ≠ processOutputMagic then .error .headerFormat
  else if header.drop 16 ≠ (sum (header.take 16)).toList.take 16 then .error .headerChecksum
  else
    let base : Int := uint64 ((header.drop 8).take 8)
    if base > maxInt64 ∨ dataLength < 0 ∨ dataLength > maxInt64 - base then .error .cursorRange
    else .ok base

/-! ## Files -/

/-- `openProcessOutputFile`: the offsets of the first byte kept and of the end. -/
def openProcessOutputFile (disk : Bytes) (openErr : Bool) : Except OutputError (Int × Int) :=
  if openErr then .error .io
  else if disk.length < processOutputHeaderSize then .error .headerTruncated
  else
    let dataLength : Int := (disk.length : Int) - processOutputHeaderSize
    match decodeProcessOutputHeader sum (disk.take processOutputHeaderSize) dataLength with
    | .error err => .error err
    | .ok baseOffset => .ok (baseOffset, baseOffset + dataLength)

def openProcessOutputAppendFile (disk : Bytes) (baseOffset endOffset : Int) (openErr : Bool) :
    Except OutputError Unit :=
  if baseOffset < 0 ∨ endOffset < baseOffset then .error .appendRange
  else match openProcessOutputFile sum disk openErr with
    | .error err => .error err
    | .ok (actualBase, actualEnd) =>
      if actualBase ≠ baseOffset ∨ actualEnd ≠ endOffset then .error .cursorMismatch else .ok ()

/-- How `localstore.WriteFileAtomicFunc` ends: before the rename, or with the new file in place and
the directory sync failed or not. -/
inductive Replacement
  | failed | published (syncDirErr : Bool)
  deriving DecidableEq

/-- `replaceProcessOutputFile` with the bytes `writeData` writes or its error: the contents of the
file afterwards, whether the new file was published, and the error. -/
def replaceProcessOutputFile (disk : Bytes) (baseOffset dataLength : Int)
    (writeData : Except OutputError Bytes) (io : Replacement) :
    Bytes × Bool × Option OutputError :=
  if baseOffset < 0 ∨ dataLength < 0 ∨ dataLength > maxInt64 - baseOffset then
    (disk, false, some .cursorRange)
  else match encodeProcessOutputHeader sum baseOffset, writeData with
    | .error err, _ => (disk, false, some err)
    | .ok _, .error err => (disk, false, some err)
    | .ok header, .ok data =>
      if (header.length : Int) + data.length ≠ processOutputHeaderSize + dataLength then
        (disk, false, some (.replacementSize
          (header.length + data.length - processOutputHeaderSize) dataLength))
      else match io with
        | .failed => (disk, false, some .io)
        | .published true => (header ++ data, true, some .io)
        | .published false => (header ++ data, true, none)

end

/-! ## The open output -/

structure ProcessOutput where
  baseOffset : Int := 0
  endOffset : Int := 0
  limit : Int
  /-- The contents of the file at `path`. -/
  disk : Bytes
  /-- `file != nil` -/
  opened : Bool := false
  unsyncedBytes : Int := 0
  syncBytes : Int := 0
  /-- The joined errors; empty for `nil`. -/
  stickyErr : List OutputError := []
  closed : Bool := false
  deriving DecidableEq

/-- What the operating system does during one `Write`. -/
structure WriteIo where
  openErr : Bool := false
  /-- The number of bytes `file.Write` takes, if not all. -/
  taken : Option Nat := none
  writeErr : Bool := false
  syncErr : Bool := false
  replacement : Replacement := .published false
  reopenErr : Bool := false
  deriving DecidableEq

namespace ProcessOutput

def rememberErrorLocked (o : ProcessOutput) (err : OutputError) :
    ProcessOutput × List OutputError :=
  ({ o with stickyErr := o.stickyErr ++ [err] }, o.stickyErr ++ [err])

/-- A call that ends with the error `err` after `n` bytes. -/
def failWith (o : ProcessOutput) (n : Nat) (err : OutputError) :
    ProcessOutput × Nat × List OutputError :=
  let (o, errs) := o.rememberErrorLocked err
  (o, n, errs)

def syncLocked (o : ProcessOutput) (syncErr : Bool) : ProcessOutput × Option OutputError :=
  if !o.opened || o.unsyncedBytes = 0 then (o, none)
  else if syncErr then (o, some .io)
  else ({ o with unsyncedBytes := 0 }, none)

def scheduleOrSyncLocked (o : ProcessOutput) (syncErr : Bool) :
    ProcessOutput × Option OutputError :=
  if o.unsyncedBytes = 0 || !o.opened then (o, none)
  else
    let syncBytes := if o.syncBytes ≤ 0 then processOutputSyncBytes else o.syncBytes
    if o.unsyncedBytes ≥ syncBytes then o.syncLocked syncErr
    -- otherwise the timer syncs the file later
    else (o, none)

section
variable (sum : Bytes → Vector UInt8 32)

def openLocked (o : ProcessOutput) (openErr : Bool) : Except OutputError ProcessOutput :=
  if o.opened then .ok o
  else match openProcessOutputAppendFile sum o.disk o.baseOffset o.endOffset openErr with
    | .error err => .error err
    | .ok () => .ok { o with opened := true }

/-- The contents of the replacement: the last `fromExisting` bytes of the file, then the last
`fromNew` bytes of `p`. `io.CopyN` says `io.EOF` of a file that is too short. -/
def replacementData (disk : Bytes) (stored fromExisting fromNew : Int) (p : Bytes) :
    Except OutputError Bytes :=
  let offset := (processOutputHeaderSize + stored - fromExisting).toNat
  let kept := (disk.drop offset).take fromExisting.toNat
  if kept.length < fromExisting.toNat then .error .eof
  else .ok (kept ++ p.drop (p.length - fromNew.toNat))

def compactLocked (o : ProcessOutput) (p : Bytes) (io : WriteIo) :
    ProcessOutput × Nat × List OutputError :=
  let stored := o.endOffset - o.baseOffset
  if stored < 0 ∨ (p.length : Int) > maxInt64 - stored ∨
      (p.length : Int) > maxInt64 - o.endOffset then (o, 0, [.cursorRange])
  else
    let total := stored + p.length
    let keep := if total < o.limit then total else o.limit
    let newEnd := o.endOffset + p.length
    let newBase := newEnd - keep
    let fromNew := if (p.length : Int) > keep then keep else p.length
    let fromExisting := keep - fromNew
    match o.openLocked sum io.openErr with
    | .error err => o.failWith 0 err
    | .ok o =>
      match o.syncLocked io.syncErr with
      | (o, some err) => { o with opened := false }.failWith 0 err
      | (o, none) =>
        -- the source is closed before the rename, whatever comes of it
        let o := { o with opened := false }
        match replaceProcessOutputFile sum o.disk newBase keep
            (replacementData o.disk stored fromExisting fromNew p) io.replacement with
        | (disk, published, err) =>
          let o := { o with disk := disk }
          let o := if published then
              { o with baseOffset := newBase, endOffset := newEnd, unsyncedBytes := 0 }
            else o
          match err with
          | some err => o.failWith (if published then p.length else 0) (.compact err)
          | none =>
            match o.openLocked sum io.reopenErr with
            | .error err => o.failWith p.length (.reopen err)
            | .ok o => (o, p.length, [])

def compactAt (limit : Int) : Int :=
  let extra := if limit / 4 < 1 then 1 else limit / 4
  if extra ≤ maxInt64 - limit then limit + extra else maxInt64

def write (o : ProcessOutput) (p : Bytes) (io : WriteIo) :
    ProcessOutput × Nat × List OutputError :=
  if o.closed then (o, 0, [.closed])
  else if o.stickyErr ≠ [] then (o, 0, o.stickyErr)
  else if p.length = 0 then (o, 0, [])
  else
    let o := if o.limit ≤ 0 then { o with limit := defaultProcessOutputBufferBytes } else o
    if o.baseOffset < 0 ∨ o.endOffset < o.baseOffset ∨
        (p.length : Int) > maxInt64 - o.endOffset then (o, 0, [.cursorRange])
    else
      let stored := o.endOffset - o.baseOffset
      if (p.length : Int) > maxInt64 - stored ∨ stored + p.length > compactAt o.limit then
        o.compactLocked sum p io
      else match o.openLocked sum io.openErr with
        | .error err => o.failWith 0 err
        | .ok o =>
          let n := min (io.taken.getD p.length) p.length
          let o := { o with
            disk := o.disk ++ p.take n
            endOffset := o.endOffset + n
            unsyncedBytes := o.unsyncedBytes + n }
          if io.writeErr then o.failWith n .io
          else if n ≠ p.length then o.failWith n .shortWrite
          else match o.scheduleOrSyncLocked io.syncErr with
            | (o, some err) => o.failWith n err
            | (o, none) => (o, n, [])

end

end ProcessOutput

/-! ## Reading -/

/-- What a read returns: the text, the cursors where it starts and ends, and whether bytes are
missing. -/
structure OutputRange where
  output : Bytes
  start : Int
  next : Int
  truncated : Bool
  deriving DecidableEq

def readProcessOutputRange (disk : Bytes) (baseOffset endOffset cursor maxBytes : Int)
    (readErr : Bool) : Except OutputError OutputRange :=
  if baseOffset < 0 ∨ endOffset < baseOffset then .error .readRange
  else
    let maxBytes := if maxBytes ≤ 0 then defaultObservationBytes else maxBytes
    let cursor := if cursor < 0 then 0 else cursor
    let truncated := decide (cursor < baseOffset)
    let cursor := if cursor < baseOffset then baseOffset else cursor
    if cursor > endOffset then .ok ⟨[], cursor, cursor, truncated⟩
    else
      let start := cursor
      let available := endOffset - start
      let readLength := if maxBytes < available then maxBytes else available
      if readLength < 0 ∨ readLength > maxInt64 then .error .readLength
      else
        let offset := (processOutputHeaderSize + start - baseOffset).toNat
        let data := (disk.drop offset).take readLength.toNat
        if readErr && readLength ≠ 0 then .error .io
        else if data.length ≠ readLength.toNat then .error .unexpectedEOF
        else
          let next := start + readLength
          .ok ⟨Text.toValidUTF8 data (ascii "?"), start, next, truncated || next < endOffset⟩

/-- What the operating system does during one `Slice`. -/
structure ReadIo where
  openErr : Bool := false
  readErr : Bool := false
  deriving DecidableEq

namespace ProcessOutput

/-- `Slice`, with the joined errors it returns. -/
def slice (sum : Bytes → Vector UInt8 32) (o : ProcessOutput) (cursor maxBytes : Int)
    (io : ReadIo) : ProcessOutput × OutputRange × List OutputError :=
  let fail (err : OutputError) : ProcessOutput × OutputRange × List OutputError :=
    let (o, errs) := o.rememberErrorLocked err
    (o, ⟨[], 0, 0, true⟩, errs)
  -- without an open file the file at the path has to carry the live cursors
  let reopened : Except OutputError Unit :=
    if o.opened then .ok ()
    else match openProcessOutputFile sum o.disk io.openErr with
      | .error err => .error err
      | .ok (base, fin) =>
        if base ≠ o.baseOffset ∨ fin ≠ o.endOffset then .error .cursorMismatch else .ok ()
  match reopened with
  | .error err => fail err
  | .ok () =>
    match readProcessOutputRange o.disk o.baseOffset o.endOffset cursor maxBytes io.readErr with
    | .error err => fail err
    | .ok r => (o, { r with truncated := r.truncated || !o.stickyErr.isEmpty }, o.stickyErr)

/-- The output of a started process: `writeProcessOutputFile(path, nil, 0)`. -/
def start (sum : Bytes → Vector UInt8 32) (limit : Int) : ProcessOutput :=
  { limit := limit
    disk := (replaceProcessOutputFile sum [] 0 0 (.ok []) (.published false)).1 }

/-- Writes without an I/O error, one after the other: the output afterwards and the bytes the calls
reported as written. -/
def writeAll (sum : Bytes → Vector UInt8 32) : ProcessOutput → List Bytes → ProcessOutput × Bytes
  | o, [] => (o, [])
  | o, p :: ps =>
    let (o, n, _) := o.write sum p {}
    let (o, written) := writeAll sum o ps
    (o, p.take n ++ written)

/-- A reader that goes on from the cursor the last read returned, until a read returns nothing. -/
def readToEnd (sum : Bytes → Vector UInt8 32) (o : ProcessOutput) (maxBytes : Int) :
    Nat → Int → List OutputRange
  | 0, _ => []
  | fuel + 1, cursor =>
    let r := (o.slice sum cursor maxBytes {}).2.1
    if r.next = r.start then [] else r :: readToEnd sum o maxBytes fuel r.next

end ProcessOutput

end Daemon
