/-
  VivadoServer.Workspace.Open

  How a workspace is read without trusting it (`open_at`, `open_root`, `open_project`,
  `open_path`, `names` and `child_or_skip` of `src/workspace_read.rs`).  Every call of the
  system is one step; what stands in a directory, how large a file is and whether the call
  fails may be different at every step.  An open file is the inode that it pins, and the
  system keeps a record of what was opened for reading.
-/

import VivadoServer.Lib.Openat
import VivadoServer.Lib.Triple
import VivadoServer.Workspace.Read
import VivadoServer.Workspace.Times

namespace VivadoServer.Workspace

open Sync
open UnixPath (Bytes Component fileName slash)
open Openat

def MAX_ENTRIES : Nat := 20000

/-! ## The system -/

structure Metadata where
  kind : Kind
  dev : Nat
  ino : Nat
  nlink : Nat
  len : Nat
  mtime : FileTime
  ctime : FileTime
deriving DecidableEq, Repr

namespace Metadata

def isDir (metadata : Metadata) : Bool := metadata.kind == .directory

def isFile (metadata : Metadata) : Bool := metadata.kind == .regular

end Metadata

inductive ZipError where
  | io (error : Errno)
  | other (text : String)
deriving DecidableEq, Repr

structure World (Obj : Type) extends Inodes Obj where
  metadata : Nat → Obj → Metadata
  metadata_kind : ∀ t obj, (metadata t obj).kind = kind obj
  contents : Nat → Obj → Bytes
  /-- A read returns at least one byte if there is one, and at most so many more. -/
  grant : Nat → Nat
  /-- The entry that `readdir` returns at a position. -/
  dirent : Nat → Obj → Nat → Option Bytes
  /-- Why the call fails. -/
  fault : Nat → Option Errno
  zipFault : Nat → Option ZipError
  currentDir : Nat → Bytes
  /-- No other archive is being made. -/
  permit : Nat → Bool
  cancelled : Nat → Bool
  /-- `Instant::now`, in nanoseconds. -/
  now : Nat → Nat

/-- The calls made so far, and what they have opened for reading at which time. -/
structure System (Obj : Type) where
  clock : Nat
  opened : List (Nat × Obj) := []

abbrev Reading (Obj α : Type) := Prog (System Obj) AppError α

def ioError : Errno → AppError
  | .noEntry => .notFound "workspace path"
  | .loop | .notDirectory | .access | .permission =>
    .badRequest "workspace path is not an accessible regular file or directory"
  | .noSpace | .quota =>
    .conflict "not enough workspace quota for a ZIP download; download individual files instead"
  | .other text => .internal ("workspace read failed: " ++ text)

variable {Obj : Type}

/-- What the world is like at this step. -/
def observe {α : Type} (f : Nat → α) : Reading Obj α := fun s => (.ok (f s.clock), { s with clock := s.clock + 1 })

def call {α : Type} (w : World Obj) (f : Nat → Except Errno α) : Reading Obj α := do
  match ← observe fun t => (w.fault t).elim (f t) .error with
  | .ok a => return a
  | .error error => throw (ioError error)

def openedForReading (file : Obj) : Reading Obj Unit :=
  Prog.update fun s => { s with opened := s.opened ++ [(s.clock, file)] }

def fstat (w : World Obj) (file : Obj) : Reading Obj Metadata := call w fun t => .ok (w.metadata t file)

def orFail {α : Type} : Except AppError α → Reading Obj α
  | .ok a => return a
  | .error error => throw error

def failIf (bad : Bool) (error : AppError) : Reading Obj Unit := if bad then throw error else pure ()

def onlyIf (c : Bool) (x : Reading Obj Unit) : Reading Obj Unit := if c then x else pure ()

/-- `CStr::to_str`. -/
def toStr (bytes : Bytes) : Option String := String.fromUTF8? bytes.toByteArray

/-! ## Opening -/

/-- `File::open` of the descriptor's name below `/proc/self/fd`. -/
def reopen (w : World Obj) (file : Obj) : Reading Obj Unit := do
  call w fun _ => .ok ()
  openedForReading file

def notSupported : AppError :=
  .badRequest "workspace path must be a regular file or directory; links and devices are not supported"

def openAt (w : World Obj) (parent : Obj) (name : String) (directory : Bool) : Reading Obj Obj := do
  failIf (name.toList.contains (Char.ofNat 0)) (.badRequest "invalid workspace path")
  -- A leaf is only pinned before it is known to be a regular file.
  let file ← call w fun t => w.openat t parent (fileName name)
    { noFollow := true, directory := directory, path := !directory }
  onlyIf directory (openedForReading file)
  let metadata ← fstat w file
  failIf (!metadata.isDir && (!metadata.isFile || metadata.nlink != 1)) notSupported
  -- `/proc/self/fd` leads to the pinned inode itself.
  onlyIf (!directory && metadata.isFile) (reopen w file)
  return file

/-- The loop of `open_root`. -/
def openComponents (w : World Obj) : Obj → List Component → Reading Obj Obj
  | current, [] => return current
  | current, .rootDir :: rest => openComponents w current rest
  | current, .curDir :: rest => openComponents w current rest
  | current, .normal name :: rest => do
    match toStr name with
    | none => throw (.badRequest "invalid workspace root")
    | some name =>
      let next ← openAt w current name true
      openComponents w next rest
  | _, .parentDir :: _ => throw (.badRequest "invalid workspace root")

def absolutePath (w : World Obj) (root : Bytes) : Reading Obj Bytes := do
  if root.head? = some slash then return root
  else
    let current ← call w fun t => .ok (w.currentDir t)
    return UnixPath.push current root

def openRoot (w : World Obj) (root : Bytes) : Reading Obj Obj := do
  let absolute ← absolutePath w root
  call w fun _ => .ok ()
  openedForReading w.top
  openComponents w w.top (UnixPath.components absolute)

def openProject (w : World Obj) (root : Bytes) (project : String) : Reading Obj Obj := do
  orFail (validateProjectName project)
  let root ← openRoot w root
  openAt w root project true

/-- The loop of `open_path`: all but the last part are directories. -/
def openParts (w : World Obj) (directory : Bool) : Obj → List String → Reading Obj Obj
  | file, [] => return file
  | file, part :: rest => do
    let next ← openAt w file part (directory || !rest.isEmpty)
    openParts w directory next rest

def openPath (w : World Obj) (project : Obj) (path : String) (directory : Bool) : Reading Obj Obj := do
  orFail (validatePath path directory)
  let file ← openParts w directory project ((segments path).filter fun part => !part.isEmpty)
  onlyIf (!directory) do
    let metadata ← fstat w file
    failIf (!metadata.isFile) (.badRequest "workspace path is not a regular file")
  return file

/-! ## Directories -/

/-- The loop of `names`, with the number of entries that may still be scanned. -/
def scanNames (w : World Obj) (directory : Obj) : Nat → Nat → List String → Reading Obj (List String)
  | left, scanned, names => do
    match ← call w fun t => .ok (w.dirent t directory scanned) with
    | none => return names
    | some bytes =>
      match left with
      | 0 => throw .payloadTooLarge
      | left + 1 => scanNames w directory left (scanned + 1) (names ++ (toStr bytes).toList.filter validSegment)

def names (w : World Obj) (directory : Obj) : Reading Obj (List String) := do
  let duplicate ← openAt w directory "." true
  call w fun _ => .ok ()
  let names ← scanNames w duplicate (MAX_ENTRIES + 2) 0 []
  return names.mergeSort fun a b => decide (a ≤ b)

def childOrSkip (w : World Obj) (directory : Obj) (name : String) : Reading Obj (Option Obj) := do
  match ← (openAt w directory name false).attempt with
  | .ok file => return some file
  | .error (.badRequest _) | .error (.notFound _) => return none
  | .error error => throw error

end VivadoServer.Workspace
