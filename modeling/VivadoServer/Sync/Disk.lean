/-
  VivadoServer.Sync.Disk

  The file system, as far as a commit uses it.  A path is the list of its names
  from the root.  Every call either does its work or reports an error without
  effect; which of the calls to come are refused for no reason of their own is part
  of the state.

  Where a path leads through a link the call fails here: the callers check for
  links before.  Times and modes of directories are left out.
-/

import VivadoServer.Sync.Pull
import VivadoServer.Lib.Triple

namespace VivadoServer.Sync

open FileTree

/-! ## Calls on a tree -/

inductive IoError where
  | notFound
  | alreadyExists
  | notADirectory
  | isADirectory
  | directoryNotEmpty
  | invalidInput
  | permissionDenied
  | failed
deriving DecidableEq, Repr

/-- `Display` of the error. -/
def IoError.text : IoError → String
  | notFound => "No such file or directory (os error 2)"
  | alreadyExists => "File exists (os error 17)"
  | notADirectory => "Not a directory (os error 20)"
  | isADirectory => "Is a directory (os error 21)"
  | directoryNotEmpty => "Directory not empty (os error 39)"
  | invalidInput => "Invalid argument (os error 22)"
  | permissionDenied => "Permission denied (os error 13)"
  | failed => "Input/output error (os error 5)"

abbrev FilePath := List String

abbrev Files := Tree String Leaf

namespace Files

/-- Why nothing stands at a path: something above it is no directory, or it is missing. -/
def missing (files : Files) (path : FilePath) : IoError :=
  if path.inits.any fun above => match files.view above with
    | some (.file _) => above != path
    | _ => false
  then .notADirectory else .notFound

def symlinkMetadata (path : FilePath) (files : Files) : Except IoError (Node Leaf × Files) :=
  match files.view path with
  | some node => .ok (node, files)
  | none => .error (files.missing path)

def createDir (path : FilePath) (files : Files) : Except IoError (Unit × Files) :=
  match files.view path, files.view path.dropLast with
  | some _, _ => .error .alreadyExists
  | none, some .dir => .ok ((), files.insert path (.dir .nil))
  | none, _ => .error (files.missing path)

def removeDir (path : FilePath) (files : Files) : Except IoError (Unit × Files) :=
  match path, files.get path with
  | _ :: _, some (.dir .nil) => .ok ((), files.remove path)
  | _, some (.dir _) => .error .directoryNotEmpty
  | _, some (.file _) => .error .notADirectory
  | _, none => .error (files.missing path)

def removeFile (path : FilePath) (files : Files) : Except IoError (Unit × Files) :=
  match files.get path with
  | some (.file _) => .ok ((), files.remove path)
  | some (.dir _) => .error .isADirectory
  | none => .error (files.missing path)

def readDir (path : FilePath) (files : Files) : Except IoError (List String × Files) :=
  match files.get path with
  | some (.dir children) => .ok (children.names, files)
  | some (.file _) => .error .notADirectory
  | none => .error (files.missing path)

/-- `rename` replaces a file by a file and an empty directory by a directory. -/
def rename (source target : FilePath) (files : Files) : Except IoError (Unit × Files) :=
  match files.get source with
  | none => .error (files.missing source)
  | some item =>
    if source = target then .ok ((), files)
    else if source <+: target then .error .invalidInput
    else match files.view target.dropLast, item, files.get target with
      | some .dir, .file _, some (.dir _) => .error .isADirectory
      | some .dir, .dir _, some (.file _) => .error .notADirectory
      | some .dir, .dir _, some (.dir children) =>
        match children with
        | .nil => .ok ((), files.move source target)
        | _ => .error .directoryNotEmpty
      | some .dir, _, _ => .ok ((), files.move source target)
      | _, _, _ => .error (files.missing target)

/-- What is read of a regular file. -/
def read (path : FilePath) (files : Files) : Except IoError (Leaf × Files) :=
  match files.view path with
  | some (.file leaf) => .ok (leaf, files)
  | some .dir => .error .isADirectory
  | none => .error (files.missing path)

/-- Change the times or the mode of what stands at a path. -/
def setData (path : FilePath) (f : FileData → FileData) (files : Files) :
    Except IoError (Unit × Files) :=
  match files.view path with
  | some (.file (.regular data)) => .ok ((), files.put path (.regular (f data)))
  | some _ => .ok ((), files)
  | none => .error (files.missing path)

end Files

/-! ## Calls of a commit -/

/-- The random names of `Uuid::new_v4`: none is in use. -/
structure UuidSource where
  name : List String → String
  fresh : ∀ used, name used ∉ used

inductive AppliedChange where
  | created (target : FilePath)
  | replaced (target backup : FilePath)
  | installed (target staged : FilePath) (backup : Option FilePath)
deriving DecidableEq, Repr

/-- The transaction; the last change comes first. -/
structure CommitTransaction where
  backupRoot : FilePath
  changes : List AppliedChange

/-- A call that does not do its work for no reason of its own. -/
inductive Refusal where
  | denied
  | failed
deriving DecidableEq, Repr

def Refusal.error : Refusal → IoError
  | denied => .permissionDenied
  | failed => .failed

structure Disk where
  files : Files
  /-- The calls to come, and which of them are refused. -/
  faults : List (Option Refusal)
  uuids : UuidSource
  transaction : CommitTransaction

abbrev Commit (α : Type) := Prog Disk AppError α

/-- One call. -/
def call {α : Type} (op : Files → Except IoError (α × Files)) : Commit (Except IoError α) := fun d =>
  match d.faults with
  | some refusal :: faults => (.ok (.error refusal.error), { d with faults := faults })
  | faults =>
    match op d.files with
    | .ok (a, files) => (.ok (.ok a), { d with files := files, faults := faults.tail })
    | .error e => (.ok (.error e), { d with faults := faults.tail })

/-- `map_err` to an internal error. -/
def orInternal {α : Type} (what : String) : Except IoError α → Commit α
  | .ok a => pure a
  | .error e => throw (.internal (what ++ e.text))

def internalIo {α : Type} : Except IoError α → Commit α :=
  orInternal "sync filesystem operation failed: "

end VivadoServer.Sync
