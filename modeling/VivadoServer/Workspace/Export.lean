/-
  VivadoServer.Workspace.Export

  The archive of a tree that nobody changes.  However short the reads are, `pack` packs what
  `Snapshot.walk` finds, as long as the budget lasts; so an archive is complete, and there
  is one just when the directory is within the limits.
-/

import VivadoServer.Workspace.Quiet

namespace VivadoServer.Workspace

open Sync
open UnixPath (Bytes fileName slash)
open Openat

variable {Obj : Type}

/-! ## Packing -/

section Packing

variable {tree : Snapshot Obj} {w : World Obj} {d o : Obj} {started : Nat} {a : Archive}

def Archive.Fits (a : Archive) : Prop := a.entries ≤ MAX_ENTRIES ∧ a.bytes ≤ MAX_ARCHIVE_BYTES

/-- What `pack` adds for an item. -/
def put (tree : Snapshot Obj) (a : Archive) (item : Item Obj) : Archive where
  zip := a.zip ++ [tree.entryOf item]
  entries := a.entries + 1
  bytes := a.bytes + tree.size item.2

/-- The end of packing these items, if the budget lasts. -/
def outcome (tree : Snapshot Obj) (a : Archive) : Option (List (Item Obj)) → Except AppError Archive
  | none => .error .payloadTooLarge
  | some items =>
    let a := items.foldl (put tree) a
    if a.entries ≤ MAX_ENTRIES ∧ a.bytes ≤ MAX_ARCHIVE_BYTES then .ok a else .error .payloadTooLarge

end Packing

/-! ## The archive -/

section Archive

variable {tree : Snapshot Obj} {w : World Obj} {d : Obj} {root : Bytes} {project path : String}

inductive SampleNode where
  | top
  | project
  | source
  | link
deriving DecidableEq, Repr

/-- A project with a source file and a symbolic link. -/
def sampleTree : Snapshot SampleNode where
  kind
    | .top | .project => .directory
    | .source => .regular
    | .link => .symlink
  single _ := true
  bytes _ := [10]
  children
    | .top => [(fileName "p", .project)]
    | .project => [(fileName "a.v", .source), (fileName "l", .link)]
    | _ => []
  listing
    | .top => [UnixPath.dot] :: [UnixPath.dot, UnixPath.dot] :: [fileName "p"]
    | .project => [UnixPath.dot] :: [UnixPath.dot, UnixPath.dot] :: [fileName "a.v", fileName "l"]
    | _ => [UnixPath.dot] :: [[UnixPath.dot, UnixPath.dot]]
  nodup d := by cases d <;> decide
  listed d := by cases d <;> exact List.Perm.refl _

end Archive

end VivadoServer.Workspace
