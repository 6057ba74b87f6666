/-
  VivadoServer.Workspace.Browse

  What a client reads of a workspace: the listing of a directory, the preview of a file,
  the file itself, and a ZIP archive of a directory (`list`, `preview`, `download` and
  `archive` of `src/workspace_read.rs`).  An archive is the list of entries that the ZIP
  writer was given.
-/

import VivadoServer.Workspace.Open

namespace VivadoServer.Workspace

open Sync
open UnixPath (Bytes fileName)
open Openat

def PREVIEW_BYTES : Nat := 1024 * 1024

def PREVIEW_LINES : Nat := 20000

def MAX_ARCHIVE_BYTES : Nat := 2 * 1024 * 1024 * 1024

/-- In nanoseconds. -/
def MAX_ARCHIVE_TIME : Nat := 120 * 1000000000

variable {Obj : Type}

/-! ## Listings -/

inductive EntryKind where
  | dir
  | file
deriving DecidableEq, Repr

def EntryKind.text : EntryKind → String
  | dir => "dir"
  | file => "file"

structure WorkspaceEntry where
  path : String
  name : String
  kind : EntryKind
  sizeBytes : Nat
  mtimeUnixMs : Int
deriving DecidableEq, Repr

structure WorkspaceListing where
  path : String
  entries : List WorkspaceEntry
  isThere : Bool
deriving DecidableEq, Repr

def entryBefore (a b : WorkspaceEntry) : Bool :=
  decide (a.kind.text < b.kind.text) || (a.kind == b.kind && decide (a.name ≤ b.name))

def workspaceEntry (path name : String) (metadata : Metadata) : WorkspaceEntry where
  path := if path.isEmpty then name else path ++ "/" ++ name
  name := name
  kind := if metadata.isDir then .dir else .file
  sizeBytes := if metadata.isFile then metadata.len else 0
  mtimeUnixMs := mtime metadata.mtime

/-- The loop of `list`. -/
def listNames (w : World Obj) (directory : Obj) (path : String) :
    List String → List WorkspaceEntry → Reading Obj (List WorkspaceEntry)
  | [], entries => return entries
  | name :: rest, entries => do
    match ← childOrSkip w directory name with
    | none => listNames w directory path rest entries
    | some file =>
      let metadata ← fstat w file
      listNames w directory path rest (entries ++ [workspaceEntry path name metadata])

def list (w : World Obj) (root : Bytes) (project path : String) : Reading Obj WorkspaceListing := do
  orFail (validateProjectName project)
  orFail (validatePath path true)
  let opening : Reading Obj Obj := do
    let file ← openProject w root project
    openPath w file path true
  match ← opening.attempt with
  | .error (.notFound _) => return { path := path, entries := [], isThere := false }
  | .error error => throw error
  | .ok directory =>
    let found ← names w directory
    let entries ← listNames w directory path found []
    return { path := path, entries := entries.mergeSort entryBefore, isThere := true }

/-! ## Files -/

def unchanged (before after : Metadata) : Bool :=
  before.dev == after.dev && before.ino == after.ino && before.len == after.len &&
    before.mtime == after.mtime && before.ctime == after.ctime && after.nlink == 1

/-- `Read::read` into a buffer of `count` bytes. -/
def read (w : World Obj) (file : Obj) (offset count : Nat) : Reading Obj Bytes :=
  call w fun t => .ok (((w.contents t file).drop offset).take (min count (w.grant t + 1)))

/-- `take(limit).read_to_end`; every read but the last one brings a byte. -/
def readToEnd (w : World Obj) (file : Obj) (limit : Nat) : Nat → Bytes → Reading Obj Bytes
  | 0, data => return data
  | fuel + 1, data => do
    if limit ≤ data.length then return data
    else
      let bytes ← read w file data.length (limit - data.length)
      if bytes.isEmpty then return data
      else readToEnd w file limit fuel (data ++ bytes)

inductive PreviewKind where
  | tooLarge
  | text
  | binary
deriving DecidableEq, Repr

structure WorkspacePreview where
  kind : PreviewKind
  sizeBytes : Nat
  text : Option String
  reason : Option String
deriving DecidableEq, Repr

def newline : UInt8 := 10

/-- A control character that is no line break and no tabulator. -/
def isBinaryControl (ch : Char) : Bool := isControl ch && ! (['\n', '\r', '\t'].contains ch)

/-- What is shown of a file whose bytes were read. -/
def previewOf (result : WorkspacePreview) (data : Bytes) : WorkspacePreview :=
  if PREVIEW_BYTES < data.length || PREVIEW_LINES < data.count newline + 1 then result
  else
    let binary := { result with
      kind := .binary
      reason := some "file is not UTF-8 text or contains binary control characters" }
    match toStr data with
    | none => binary
    | some text =>
      if text.toList.any isBinaryControl then binary
      else { result with kind := .text, text := some text, reason := none }

def preview (w : World Obj) (root : Bytes) (project path : String) : Reading Obj WorkspacePreview := do
  let directory ← openProject w root project
  let file ← openPath w directory path false
  let before ← fstat w file
  let result : WorkspacePreview := {
    kind := .tooLarge
    sizeBytes := before.len
    text := none
    reason := some "preview is limited to 1 MiB and 20000 lines" }
  if PREVIEW_BYTES < before.len then return result
  else
    let data ← readToEnd w file (PREVIEW_BYTES + 1) (PREVIEW_BYTES + 1) []
    let after ← fstat w file
    failIf (!unchanged before after) (.conflict "file changed while reading; retry the preview")
    return previewOf result data

def download (w : World Obj) (root : Bytes) (project path : String) : Reading Obj (Obj × Nat) := do
  let directory ← openProject w root project
  let file ← openPath w directory path false
  let metadata ← fstat w file
  return (file, metadata.len)

/-! ## Archives -/

def zipError : ZipError → AppError
  | .io error => ioError error
  | .other text => .internal ("ZIP creation failed: " ++ text)

/-- A call of the ZIP writer. -/
def zipCall (w : World Obj) : Reading Obj Unit := do
  match ← observe w.zipFault with
  | none => return ()
  | some error => throw (zipError error)

/-- An entry of an archive: a directory, or a file and its bytes. -/
structure ZipEntry where
  name : String
  content : Option Bytes
deriving DecidableEq, Repr

/-- `ArchiveBudget`, with what the ZIP writer was given. -/
structure Archive where
  zip : List ZipEntry := []
  entries : Nat := 0
  bytes : Nat := 0
deriving DecidableEq, Repr

namespace Archive

def add (a : Archive) (entry : ZipEntry) : Archive := { a with zip := a.zip ++ [entry] }

/-- `ArchiveBudget::check` at a time. -/
def checkAt (w : World Obj) (started : Nat) (a : Archive) (t : Nat) : Except AppError Unit :=
  if w.cancelled t then .error .requestTimeout
  else if MAX_ENTRIES < a.entries || MAX_ARCHIVE_BYTES < a.bytes then .error .payloadTooLarge
  else if MAX_ARCHIVE_TIME < w.now t - started then .error .requestTimeout
  else .ok ()

def check (w : World Obj) (started : Nat) (a : Archive) : Reading Obj Unit := do
  let checked ← observe (a.checkAt w started)
  orFail checked

end Archive

def zipChanged : AppError := .conflict "workspace file changed during ZIP creation; stop Vivado or retry"

/-- The loop over the bytes of a file; every round brings at least one. -/
def copyFile (w : World Obj) (started : Nat) (a : Archive) (file : Obj) (len : Nat) :
    Nat → Bytes → Reading Obj Bytes
  | 0, data => return data
  | fuel + 1, data => do
    if len ≤ data.length then return data
    else
      a.check w started
      let bytes ← read w file data.length (min (len - data.length) (64 * 1024))
      failIf bytes.isEmpty zipChanged
      call w fun _ => .ok ()
      copyFile w started a file len fuel (data ++ bytes)

/-- What `pack` does with a regular file. -/
def packFile (w : World Obj) (started : Nat) (file : Obj) (metadata : Metadata) (path : String)
    (a : Archive) : Reading Obj Archive := do
  failIf (2 ^ 64 ≤ a.bytes + metadata.len) .payloadTooLarge
  let a := { a with bytes := a.bytes + metadata.len }
  a.check w started
  zipCall w
  let data ← copyFile w started a file metadata.len metadata.len []
  let after ← fstat w file
  failIf (!unchanged metadata after) zipChanged
  return a.add { name := path, content := some data }

/-- The loop of `pack`, where `descend` packs a directory below. -/
def packNames (w : World Obj) (started : Nat) (descend : Obj → String → Archive → Reading Obj Archive)
    (directory : Obj) (above : String) : List String → Archive → Reading Obj Archive
  | [], a => return a
  | name :: rest, a => do
    a.check w started
    match ← childOrSkip w directory name with
    | none => packNames w started descend directory above rest a
    | some file =>
      let metadata ← fstat w file
      let path := above ++ name
      failIf (4096 < path.utf8ByteSize) .payloadTooLarge
      let a := { a with entries := a.entries + 1 }
      a.check w started
      if metadata.isDir then
        zipCall w
        let a ← descend file (path ++ "/") (a.add { name := path ++ "/", content := none })
        packNames w started descend directory above rest a
      else
        let a ← packFile w started file metadata path a
        packNames w started descend directory above rest a

/-- `pack` at the depth `129 - left`; it gives up below a depth of 128. -/
def pack (w : World Obj) (started : Nat) : Nat → Obj → String → Archive → Reading Obj Archive
  | 0, _, _, _ => throw .payloadTooLarge
  | left + 1, directory, above, a => do
    let found ← names w directory
    packNames w started (pack w started left) directory above found a

def archive (w : World Obj) (root : Bytes) (project path : String) : Reading Obj (List ZipEntry) := do
  let permit ← observe w.permit
  failIf (!permit) (.capacity "another workspace ZIP download is in progress")
  orFail (validateProjectName project)
  orFail (validatePath path true)
  let root ← openRoot w root
  let project ← openAt w root project true
  let directory ← openPath w project path true
  -- The temporary file has no name and is no part of the tree.
  call w fun _ => .ok ()
  let started ← observe w.now
  let packed ← pack w started (MAX_DEPTH + 1) directory "" {}
  zipCall w
  -- The size of the ZIP file, and back to its start.
  call w fun _ => .ok ()
  call w fun _ => .ok ()
  return packed.zip

end VivadoServer.Workspace
