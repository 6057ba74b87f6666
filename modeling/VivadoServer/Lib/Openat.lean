/-
  VivadoServer.Lib.Openat

  A tree of inodes that other processes change at any time, and `openat` on it.  Time is
  counted in calls; what an inode is stays, and everything else may be different at
  every call.

  A path of one plain name that is opened without following links leads to the entry of
  that name.  A `Chain` is what comes of such steps, one in the directory that the step
  before has found.
-/

import VivadoServer.Lib.UnixPath

namespace Openat

open UnixPath

inductive Kind where
  | directory
  | regular
  | symlink
  | special
deriving DecidableEq, Repr

inductive Errno where
  | noEntry
  | loop
  | notDirectory
  | access
  | permission
  | noSpace
  | quota
  | other (text : String)
deriving DecidableEq, Repr

/-- The flags of `openat` that decide what is opened; without `path` it is opened for reading. -/
structure Flags where
  noFollow : Bool
  directory : Bool
  path : Bool
deriving DecidableEq, Repr

structure Inodes (Obj : Type) where
  /-- The root of the file system. -/
  top : Obj
  kind : Obj → Kind
  /-- The entry of a name in a directory. -/
  entry : Nat → Obj → Bytes → Option Obj
  /-- Where a path with slashes or dots leads. -/
  walk : Nat → Obj → Bytes → Option Obj
  /-- Where a symbolic link leads. -/
  follow : Nat → Obj → Option Obj
  top_directory : kind top = .directory

namespace Inodes

variable {Obj : Type} (n : Inodes Obj)

def lookup (t : Nat) (directory : Obj) (name : Bytes) : Option Obj :=
  if name = [dot] then some directory
  else if name = [] ∨ name = [dot, dot] ∨ slash ∈ name then n.walk t directory name
  else n.entry t directory name

def openat (t : Nat) (directory : Obj) (name : Bytes) (flags : Flags) : Except Errno Obj :=
  if n.kind directory ≠ .directory then .error .notDirectory
  else
    match n.lookup t directory name with
    | none => .error .noEntry
    | some found =>
      match if n.kind found = .symlink ∧ !flags.noFollow then n.follow t found else some found with
      | none => .error .noEntry
      | some opened =>
        if flags.directory ∧ n.kind opened ≠ .directory then .error .notDirectory
        else if n.kind opened = .symlink ∧ !flags.path then .error .loop
        else .ok opened

/-- From `start`, at the earliest at `since`, by the names, each found in a real directory. -/
inductive Chain (since : Nat) (start : Obj) : List Bytes → Nat → Obj → Prop
  | refl : Chain since start [] since start
  | step {names s t directory name found} (above : Chain since start names s directory) (later : s ≤ t)
      (real : n.kind directory = .directory) (plain : Plain name)
      (entry : n.entry t directory name = some found) :
      Chain since start (names ++ [name]) (t + 1) found

section Openat

variable {n : Inodes Obj} {t since s : Nat} {start directory opened : Obj} {name : Bytes}
  {names : List Bytes} {flags : Flags}

/-- A directory for itself. -/
theorem openat_self (h : n.openat t directory [dot] flags = .ok opened) (hflags : flags.noFollow = true) :
    opened = directory ∧ n.kind directory = .directory := by
  unfold openat at h
  split at h
  · cases h
  · rename_i hreal
    simp only [lookup, if_true, hflags, Bool.not_true, Bool.false_eq_true, and_false, if_false] at h
    split at h
    · cases h
    · split at h
      · cases h
      · exact ⟨(Except.ok.inj h).symm, not_not.mp hreal⟩

theorem lookup_plain (h : Plain name) : n.lookup t directory name = n.entry t directory name := by
  rw [lookup, if_neg h.dot, if_neg]
  rintro (hempty | hdots | hslash)
  · exact h.ne_nil hempty
  · exact h.dots hdots
  · exact h.slash hslash

/-- Where a directory is asked for, one is opened. -/
theorem openat_directory (h : n.openat t directory name flags = .ok opened)
    (hflags : flags.directory = true) : n.kind opened = .directory := by
  unfold openat at h
  split at h
  · cases h
  · split at h
    · cases h
    · split at h
      · cases h
      · split at h
        · cases h
        · rename_i hdirectory
          split at h
          · cases h
          · obtain rfl := Except.ok.inj h
            by_contra hother
            exact hdirectory ⟨hflags, hother⟩

/-- A plain name without following links leads to the entry itself. -/
theorem openat_plain (h : n.openat t directory name flags = .ok opened) (hflags : flags.noFollow = true)
    (hname : Plain name) : n.kind directory = .directory ∧ n.entry t directory name = some opened := by
  unfold openat at h
  rw [lookup_plain hname] at h
  split at h
  · cases h
  · rename_i hreal
    split at h
    · cases h
    · rename_i found hentry
      simp only [hflags, Bool.not_true, Bool.false_eq_true, and_false, if_false] at h
      split at h
      · cases h
      · split at h
        · cases h
        · obtain rfl := Except.ok.inj h
          exact ⟨not_not.mp hreal, hentry⟩

/-- One more step of a chain. -/
theorem Chain.openat (hchain : n.Chain since start names s directory) (hst : s ≤ t)
    (h : n.openat t directory name flags = .ok opened) (hflags : flags.noFollow = true)
    (hname : Plain name) : n.Chain since start (names ++ [name]) (t + 1) opened := by
  obtain ⟨hreal, hentry⟩ := openat_plain h hflags hname
  exact .step hchain hst hreal hname hentry

theorem Chain.plain (h : n.Chain since start names t opened) : ∀ name ∈ names, Plain name := by
  induction h with
  | refl =>
      intro name hmem
      cases hmem
  | step _ _ _ hplain _ ih =>
      intro name hmem
      obtain hbefore | hlast := List.mem_append.mp hmem
      · exact ih name hbefore
      · exact List.mem_singleton.mp hlast ▸ hplain

/-- Time passes along a chain. -/
theorem Chain.since_le (h : n.Chain since start names t opened) : since ≤ t := by
  induction h with
  | refl => exact Nat.le_refl since
  | step _ hlater _ _ _ ih => omega

end Openat

end Inodes

end Openat
