import Mathlib.Data.List.Infix
import Omnara.Lib.Hoare
import Omnara.Lib.Json
import Omnara.Lib.UnixPath

/-!
# Extraction of skill archives (`internal/skills/archive.go`)

`ExtractInto` and what it calls, as programs on a file system that is a map from path components to
nodes. What a zip or tar reader presents is data: names, types, sizes, contents, and where reading fails.
The system may fail any call (`Os.fails`), take only a part of a write (`Os.room`), and nothing at all is
assumed about a call on a path that goes through a symbolic link (`Os.follow`). `accepted` and `copied`
record the entries that are accepted and the bytes written to each file that is opened.

A directory above the destination that is reached through a link counts as the directory it leads to.
-/

namespace Skills

open Json (Bytes ascii)
open UnixPath (Name)
open Hoare (Prog)

def maxArchiveBytes : Int := 25 * 1024 * 1024

def maxExtractedBytes : Int := 4 * maxArchiveBytes

def maxExtractedFileBytes : Int := maxArchiveBytes

def maxArchiveEntries : Int := 1000

inductive Error
  | backslash (raw : Name)
  | notRelative (raw : Name)
  | emptyPath (raw : Name)
  | escapesTop (raw : Name)
  /-- the errors that wrap `errExtractionLimitExceeded` -/
  | tooManyEntries (name : Name)
  | totalExceeded (name : Name)
  | fileExceeded (name : Name)
  | invalidSize (name : Name)
  | symlink (path : Name)
  | twoRoots (root other : Name)
  | escapesDestination (rel : Name)
  | unsupportedType (name : Name)
  | unsupportedFormat (format : Name)
  /-- a call of the system failed -/
  | system (path : List Name)
  /-- the archive cannot be read -/
  | archive
  deriving DecidableEq

/-! ## The file system -/

inductive Node
  | dir
  | file (data : Bytes)
  | link (target : Name)
  deriving DecidableEq

abbrev Fs := List Name → Option Node

def Fs.set (fs : Fs) (path : List Name) (node : Node) : Fs := fun q =>
  if q = path then some node else fs q

@[simp]
theorem Fs.set_self (fs : Fs) (path : List Name) (node : Node) : fs.set path node path = some node :=
  if_pos rfl

theorem Fs.set_of_ne {fs : Fs} {path q : List Name} {node : Node} (h : q ≠ path) :
    fs.set path node q = fs q :=
  if_neg h

def Fs.isLink (fs : Fs) (path : List Name) : Bool :=
  match fs path with
  | some (.link _) => true
  | _ => false

/-- The path, or a directory on the way to it, is a link. -/
def Fs.throughLink (fs : Fs) (path : List Name) : Bool := path.inits.any fs.isLink

structure Os where
  fails : Fs → List Name → Bool
  /-- how much of the data a write takes -/
  room : Fs → List Name → Bytes → Nat
  closeFails : Fs → List Name → Bool
  /-- the nodes at or below a path that a failing removal leaves -/
  keeps : Fs → List Name → Bool
  /-- what a call on a path that goes through a link does, and whether it succeeds -/
  follow : Fs → List Name → Fs × Bool

structure State where
  fs : Fs
  totalRemaining : Int := maxExtractedBytes
  entries : Int := 0
  /-- the paths of the entries that were accepted -/
  accepted : List Name := []
  /-- the bytes written to each file that was opened -/
  copied : List Nat := []

abbrev Extract := Prog State Error

def followLink (os : Os) (path : List Name) : Extract Unit := do
  let s ← get
  modify fun s => { s with fs := (os.follow s.fs path).1 }
  if (os.follow s.fs path).2 then pure () else throw (.system path)

/-- A directory on the way, created if it is missing. -/
def mkdirName (os : Os) (path : List Name) : Extract Unit := do
  let s ← get
  match s.fs path with
  | some .dir => pure ()
  | some _ => throw (.system path)
  | none =>
    if os.fails s.fs path then throw (.system path)
    else modify fun s => { s with fs := s.fs.set path .dir }

/-- The directories on the way from `above` down the components. -/
def mkdirNames (os : Os) : List Name → List Name → Extract Unit
  | _, [] => pure ()
  | above, name :: names => do
    mkdirName os (above ++ [name])
    mkdirNames os (above ++ [name]) names

def mkdirAll (os : Os) (path : Name) : Extract Unit := do
  let s ← get
  if s.fs.throughLink (UnixPath.names path) then followLink os (UnixPath.names path)
  else mkdirNames os [] (UnixPath.names path)

/-- `os.OpenFile` with `O_CREATE|O_WRONLY|O_TRUNC`. -/
def openFile (os : Os) (path : Name) : Extract Unit := do
  let s ← get
  let names := UnixPath.names path
  if s.fs.throughLink names then followLink os names
  else if os.fails s.fs names ∨ s.fs names = some .dir ∨ s.fs names.dropLast ≠ some .dir then
    throw (.system names)
  else modify fun s => { s with fs := s.fs.set names (.file []) }

def removeAll (os : Os) (path : Name) : Extract Unit := do
  let s ← get
  let names := UnixPath.names path
  if os.fails s.fs names then
    modify fun s => { s with fs := fun q => if names <+: q ∧ !os.keeps s.fs q then none else s.fs q }
    throw (.system names)
  else modify fun s => { s with fs := fun q => if names <+: q then none else s.fs q }

/-! ## The budget -/

def accountEntry (name : Name) : Extract Unit := do
  modify fun s => { s with entries := s.entries + 1 }
  let s ← get
  if s.entries > maxArchiveEntries then throw (.tooManyEntries name) else pure ()

def accountFileSize (name : Name) (size : Int) : Extract Unit := do
  let s ← get
  if size < 0 then throw (.invalidSize name)
  else if size > maxExtractedFileBytes then throw (.fileExceeded name)
  else if size > s.totalRemaining then throw (.totalExceeded name)
  else modify fun s => { s with totalRemaining := s.totalRemaining - size }

/-- What a reader of an entry yields: its bytes, and then an error or the end. -/
structure Body where
  data : Bytes
  fails : Bool := false

/-- The bytes reach the file that was just opened, as far as the system takes them. -/
def writeFile (os : Os) (path : Name) (data : Bytes) : Extract Nat := do
  let s ← get
  let names := UnixPath.names path
  let written := min data.length (os.room s.fs names data)
  modify fun s =>
    { s with
      fs := if s.fs.throughLink names then (os.follow s.fs names).1
        else s.fs.set names (.file (data.take written))
      copied := s.copied ++ [written] }
  return written

/-- `copyBounded` into the file that was just opened. -/
def copyBounded (os : Os) (dst : Name) (src : Body) (name : Name) : Extract Unit := do
  let s ← get
  let limit := if maxExtractedFileBytes > s.totalRemaining then s.totalRemaining
    else maxExtractedFileBytes
  let data := src.data.take (limit + 1).toNat
  let written ← writeFile os dst data
  if written < data.length then throw (.system (UnixPath.names dst))
  -- the reader is asked for no more than `limit + 1` bytes
  else if data.length < (limit + 1).toNat ∧ src.fails then throw .archive
  else if written > limit then
    if limit < maxExtractedFileBytes then throw (.totalExceeded name)
    else throw (.fileExceeded name)
  else modify fun s => { s with totalRemaining := s.totalRemaining - written }

/-- `out.Close()`. -/
def closeFile (os : Os) (path : Name) : Extract Unit := do
  let s ← get
  if os.closeFails s.fs (UnixPath.names path) then throw (.system (UnixPath.names path)) else pure ()

/-! ## Paths of entries -/

def trimPrefix (p lead : Name) : Name := if lead.isPrefixOf p then p.drop lead.length else p

def cleanEntryPath (raw : Name) : Except Error Name :=
  if 92 ∈ raw then .error (.backslash raw)
  else
    let trimmed := trimPrefix raw (ascii "./")
    if UnixPath.isAbs trimmed then .error (.notRelative raw)
    else
      let cleaned := UnixPath.clean trimmed
      if cleaned = UnixPath.dot ∨ cleaned = [] then .error (.emptyPath raw)
      else if UnixPath.dotdot ∈ UnixPath.split cleaned then .error (.escapesTop raw)
      else .ok cleaned

def isMacOSMetadata (cleaned : Name) : Bool :=
  let segments := UnixPath.split cleaned
  let last := segments.getLastD []
  segments.headD [] = ascii "__MACOSX" || last = ascii ".DS_Store" ||
    (ascii "._").isPrefixOf last

/-- `strings.SplitN(cleaned, "/", 2)[0]`. -/
def firstSegment (cleaned : Name) : Name := (UnixPath.split cleaned).headD []

/-- The root directory after an entry; the empty name is no root yet. -/
def agreeRoot (root cleaned : Name) : Except Error Name :=
  if root = [] then .ok (firstSegment cleaned)
  else if firstSegment cleaned ≠ root then .error (.twoRoots root (firstSegment cleaned))
  else .ok root

def relativePath (cleaned root : Name) : Name := trimPrefix (trimPrefix cleaned root) (ascii "/")

/-- `skillEntryTarget`, in the directory `cwd`. -/
def skillEntryTarget (cwd absDst rel : Name) : Except Error Name :=
  let target := UnixPath.joinPath absDst rel
  let absTarget := UnixPath.abs cwd target
  if absTarget ≠ absDst ∧ !(absDst ++ ascii "/").isPrefixOf absTarget then
    .error (.escapesDestination rel)
  else .ok absTarget

def accept (cleaned : Name) : Extract Unit :=
  modify fun s => { s with accepted := s.accepted ++ [cleaned] }

/-! ## Zip archives -/

structure ZipFile where
  name : Name
  /-- `Mode()&os.ModeSymlink != 0` -/
  symlink : Bool := false
  isDir : Bool := false
  /-- what `Open` returns -/
  body : Option Body

structure ExtractPlan where
  path : Name
  isDir : Bool
  body : Option Body

/-- One round of the loop of `extractZip`: the root directory and the plans so far. -/
def planZip (acc : Name × List ExtractPlan) (file : ZipFile) : Extract (Name × List ExtractPlan) := do
  let cleaned ← cleanEntryPath file.name
  if isMacOSMetadata cleaned then return acc
  else
    accountEntry cleaned
    if file.symlink then throw (.symlink cleaned)
    else
      let root ← agreeRoot acc.1 cleaned
      accept cleaned
      let isDir := (ascii "/").isSuffixOf file.name || file.isDir
      return (root, acc.2 ++ [{ path := cleaned, isDir, body := file.body }])

/-- One round of the loop of `materializePlans`. -/
def materializePlan (os : Os) (cwd absDst root : Name) (item : ExtractPlan) : Extract Unit := do
  let rel := relativePath item.path root
  if rel = [] then pure ()
  else
    let target ← skillEntryTarget cwd absDst rel
    if item.isDir then mkdirAll os target
    else
      mkdirAll os (UnixPath.dir target)
      match item.body with
      | none => throw .archive
      | some body =>
        openFile os target
        copyBounded os target body rel
        closeFile os target

def extractZip (os : Os) (cwd absDst : Name) (files : List ZipFile) : Extract Unit := do
  let (root, plans) ← files.foldlM planZip ([], [])
  plans.forM (materializePlan os cwd absDst root)

/-! ## Tar archives -/

inductive TypeFlag
  | dir
  | symlink
  | link
  | reg
  | other (flag : UInt8)
  deriving DecidableEq

structure TarEntry where
  name : Name
  typeflag : TypeFlag
  size : Int
  body : Body

def skipTarEntry (cleaned : Name) (header : TarEntry) : Extract Unit :=
  if header.typeflag ≠ .reg then pure () else accountFileSize cleaned header.size

def extractTarTarget (os : Os) (target cleaned rel : Name) (header : TarEntry) : Extract Unit :=
  match header.typeflag with
  | .dir => mkdirAll os target
  | .symlink | .link => throw (.symlink cleaned)
  | .reg => do
    mkdirAll os (UnixPath.dir target)
    openFile os target
    copyBounded os target header.body rel
    closeFile os target
  | .other _ => throw (.unsupportedType header.name)

/-- One round of the loop of `extractTarGz`, with the root directory so far. -/
def extractTarEntry (os : Os) (cwd absDst root : Name) (header : TarEntry) : Extract Name := do
  let cleaned ← cleanEntryPath header.name
  accountEntry cleaned
  if isMacOSMetadata cleaned then
    skipTarEntry cleaned header
    return root
  else
    let root ← agreeRoot root cleaned
    accept cleaned
    let rel := relativePath cleaned root
    if rel = [] then return root
    else
      let target ← skillEntryTarget cwd absDst rel
      extractTarTarget os target cleaned rel header
      return root

/-- The entries of a tar archive, and whether the reader fails after them. -/
def extractTarGz (os : Os) (cwd absDst : Name) (headers : List TarEntry) (fails : Bool) :
    Extract Unit := do
  mkdirAll os absDst
  let _ ← headers.foldlM (extractTarEntry os cwd absDst) []
  if fails then throw .archive else pure ()

/-! ## `ExtractInto` -/

/-- An archive of each format as its reader presents it; `none` when it cannot be opened. -/
inductive Archive
  | zip (files : Option (List ZipFile))
  | tarGz (entries : Option (List TarEntry × Bool))
  | unsupported (format : Name)

def extractInto (os : Os) (cwd : Name) (archive : Archive) (dst : Name) : Extract Unit := do
  let absDst := UnixPath.abs cwd dst
  removeAll os absDst
  mkdirAll os absDst
  match archive with
  | .zip (some files) => extractZip os cwd absDst files
  | .tarGz (some (headers, fails)) => extractTarGz os cwd absDst headers fails
  | .zip none | .tarGz none => throw .archive
  | .unsupported format => throw (.unsupportedFormat format)

def Archive.names : Archive → List Name
  | zip files => (files.getD []).map (·.name)
  | tarGz entries => (entries.elim [] Prod.fst).map (·.name)
  | unsupported _ => []

/-- The path under which an entry is extracted, unless it is refused or metadata of macOS. -/
def entryPath (name : Name) : Option Name :=
  (cleanEntryPath name).toOption.filter (!isMacOSMetadata ·)

end Skills
