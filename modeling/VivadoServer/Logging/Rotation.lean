/-
  VivadoServer.Logging.Rotation

  The rotating service log (`RotatingLog` of `src/logging.rs`).  Its files have fixed
  names in one directory: index 0 is `service.log`, index i is `service.log.i`.  A
  name leads to an inode, and the log keeps a handle to one: renaming the file does
  not redirect the handle.

  What comes from outside is a function of the moment: each reading of a clock and
  each system call is a moment of its own.  The process may be killed instead of any
  of its calls; no call is refused for another reason.
-/

import Mathlib
import VivadoServer.Lib.Triple

namespace VivadoServer.Logging

def daySeconds : Nat := 24 * 3600

def retentionSeconds : Nat := 14 * daySeconds

def u64Max : Nat := 2 ^ 64 - 1

/-- No file is longer. -/
def i64Max : Nat := 2 ^ 63 - 1

/-! ## The directory -/

/-- A regular file: its content, and when that last changed. -/
structure LogFile where
  content : List UInt8
  mtime : Int
deriving DecidableEq, Repr

def LogFile.len (f : LogFile) : Nat := f.content.length

structure Directory where
  entries : Nat → Option Nat
  inodes : List LogFile
  moment : Nat

namespace Directory

def empty : Directory where
  entries := fun _ => none
  inodes := []
  moment := 0

/-- The file of a name. -/
def file (d : Directory) (index : Nat) : Option LogFile :=
  (d.entries index).bind (d.inodes[·]?)

/-- How many of the first names lead to an inode. -/
def nlink (d : Directory) (files inode : Nat) : Nat :=
  (List.range files).countP fun index => d.entries index == some inode

def setEntry (index : Nat) (inode : Option Nat) (d : Directory) : Directory :=
  { d with entries := fun i => if i = index then inode else d.entries i }

def unlink (index : Nat) (d : Directory) : Directory := d.setEntry index none

/-- A file that is missing is not renamed. -/
def rename (source target : Nat) (d : Directory) : Directory :=
  match d.entries source with
  | none => d
  | some inode => (d.setEntry source none).setEntry target (some inode)

/-- The inode of a name, with a new file where there is none. -/
def openRegular (index : Nat) (now : Int) (d : Directory) : Nat × Directory :=
  match d.entries index with
  | some inode => (inode, d)
  | none => (d.inodes.length,
      { d.setEntry index (some d.inodes.length) with inodes := d.inodes ++ [⟨[], now⟩] })

def append (inode : Nat) (bytes : List UInt8) (now : Int) (d : Directory) : Directory :=
  { d with inodes := d.inodes.modify inode fun f => ⟨f.content ++ bytes, now⟩ }

def tick (d : Directory) : Directory := { d with moment := d.moment + 1 }

end Directory

/-! ## The log -/

/-- What the process does not decide: the time of day at each moment, whether a minute
    has passed since the last cleanup, and when it is killed. -/
structure Environment where
  clock : Nat → Int
  due : Nat → Bool
  killed : Nat → Bool

structure RotatingLog where
  directory : Directory
  current : Nat
  bytes : Nat
  limit : Nat
  files : Nat
  currentDay : Nat

abbrev LogProg := Prog RotatingLog String

def unixSeconds (time : Int) : Nat := time.toNat

namespace RotatingLog

def onDirectory (f : Directory → Directory) (l : RotatingLog) : RotatingLog :=
  { l with directory := f l.directory }

section Calls

variable (env : Environment)

/-- Read something of the log itself. -/
def asks {α : Type} (f : RotatingLog → α) : LogProg α := fun l => (.ok (f l), l)

/-- Read something of the outside. -/
def reads {α : Type} (f : Nat → α) : LogProg α := fun l =>
  (.ok (f l.directory.moment), l.onDirectory Directory.tick)

def now : LogProg Int := reads env.clock

/-- A system call, with the time at which it is done. -/
def call {α : Type} (f : Int → RotatingLog → Except String α × RotatingLog) : LogProg α := fun l =>
  let next := l.onDirectory Directory.tick
  if env.killed l.directory.moment then (.error "killed", next)
  else f (env.clock l.directory.moment) next

def unlinkAt (index : Nat) : LogProg Unit :=
  call env fun _ l => (.ok (), l.onDirectory (Directory.unlink index))

def renameAt (source target : Nat) : LogProg Unit :=
  call env fun _ l => (.ok (), l.onDirectory (Directory.rename source target))

def openRegularAt (index : Nat) : LogProg Nat :=
  call env fun time l =>
    let opened := l.directory.openRegular index time
    (.ok opened.1, { l with directory := opened.2 })

/-- `fstatat` of a name. -/
def statAt (index : Nat) : LogProg (Option (Nat × LogFile)) :=
  call env fun _ l =>
    (.ok ((l.directory.entries index).bind fun inode => (l.directory.inodes[inode]?).map (inode, ·)), l)

/-- What the handle leads to. -/
def metadata : LogProg LogFile :=
  call env fun _ l =>
    match l.directory.inodes[l.current]? with
    | some f => (.ok f, l)
    | none => (.error "Bad file descriptor (os error 9)", l)

/-- Append through the handle. -/
def appendBytes (bytes : List UInt8) : LogProg Nat :=
  call env fun time l =>
    if i64Max < ((l.directory.inodes[l.current]?).map LogFile.len).getD 0 + bytes.length then
      (.error "File too large (os error 27)", l)
    else (.ok bytes.length, l.onDirectory (Directory.append l.current bytes time))

end Calls

section Methods

variable (env : Environment)

def inspectExisting (index : Nat) : LogProg (Option LogFile) := do
  let stat ← statAt env index
  let l ← asks id
  match stat with
  | none => pure none
  | some (inode, f) =>
    if l.directory.nlink l.files inode ≠ 1 ∨ l.limit < f.len then throw "unsafe retained service log"
    else pure (some f)

def validateExisting (index : Nat) : LogProg Unit := do
  let _ ← inspectExisting env index
  pure ()

/-- `open_regular_at("service.log")`, and what is kept of it. -/
def reopen : LogProg LogFile := do
  let current ← openRegularAt env 0
  Prog.update fun l => { l with current := current }
  let f ← metadata env
  Prog.update fun l => { l with bytes := f.len }
  pure f

def setDay (day : Nat) : LogProg Unit := Prog.update fun l => { l with currentDay := day }

/-- The last change of the file was in a day that began at least the retention period ago. -/
def isExpired (now : Nat) (mtime : Int) : Bool :=
  retentionSeconds ≤ now - mtime.toNat / daySeconds * daySeconds

def expiredOf (now : Nat) : List Nat → LogProg (List Nat)
  | [] => pure []
  | index :: rest => do
    let stat ← inspectExisting env index
    let expired ← expiredOf now rest
    pure (if stat.any fun f => isExpired now f.mtime then index :: expired else expired)

def pruneFile (now index : Nat) : LogProg Unit := do
  unlinkAt env index
  if index = 0 then do
    let _ ← reopen env
    setDay (now / daySeconds)
  else pure ()

def pruneExpired (now : Int) : LogProg Unit := do
  let files ← asks RotatingLog.files
  let expired ← expiredOf env (unixSeconds now) (List.range files)
  expired.forM (pruneFile env (unixSeconds now))

/-- Make room for a new current file, the oldest first. -/
def shift : Nat → LogProg Unit
  | 0 => pure ()
  | index + 1 => do
    renameAt env index (index + 1)
    shift index

def rotate : LogProg Unit := do
  let files ← asks RotatingLog.files
  (List.range files).forM (validateExisting env)
  unlinkAt env (files - 1)
  shift env (files - 1)
  let _ ← reopen env
  let time ← now env
  setDay (unixSeconds time / daySeconds)

def prepareWrite (now : Int) : LogProg Unit := do
  let due ← reads env.due
  (if due then pruneExpired env now else pure ())
  let l ← asks id
  let day := unixSeconds now / daySeconds
  if day ≠ l.currentDay then do
    (if l.bytes ≠ 0 then rotate env else pure ())
    setDay day
  else pure ()

/-- Rotate where the record does not fit any more. -/
def makeRoom (incoming : Nat) : LogProg Unit := do
  let l ← asks id
  if l.limit < min (l.bytes + incoming) u64Max then rotate env else pure ()

def write (bytes : List UInt8) : LogProg Nat := do
  let time ← now env
  prepareWrite env time
  let limit ← asks RotatingLog.limit
  (if limit < bytes.length then throw "service log record exceeds file limit" else pure ())
  makeRoom env bytes.length
  let f ← metadata env
  let l ← asks id
  (if l.directory.nlink l.files l.current ≠ 1 ∨ l.limit < f.len then
    throw "service log changed unexpectedly" else pure ())
  Prog.update fun l => { l with bytes := f.len }
  makeRoom env bytes.length
  let count ← appendBytes env bytes
  Prog.update fun l => { l with bytes := l.bytes + count }
  pure count

def opening : LogProg Unit := do
  let f ← reopen env
  setDay (unixSeconds f.mtime / daySeconds)
  let l ← asks id
  (List.range' 1 (l.files - 1)).forM (validateExisting env)
  (if l.limit < l.bytes then throw "existing service log exceeds the file limit" else pure ())
  (if l.bytes = l.limit then rotate env else pure ())
  let time ← now env
  pruneExpired env time

/-- `RotatingLog::open`, on the directory as it was left. -/
def openLog (limit files : Nat) (d : Directory) : Except String Unit × RotatingLog :=
  let fresh : RotatingLog := ⟨d, 0, 0, limit, files, 0⟩
  if limit = 0 ∨ files = 0 then (.error "invalid service log limits", fresh)
  else (opening env).exec fresh

end Methods

end RotatingLog

end VivadoServer.Logging
