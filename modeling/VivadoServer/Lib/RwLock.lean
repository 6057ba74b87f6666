/-
  VivadoServer.Lib.RwLock

  A readers-writer lock that records its holders.  A lock with a writer and a
  reader at once cannot be built; the free lock is the one shared by nobody.
-/

import Mathlib.Data.List.Nodup

/-- A readers-writer lock held by tokens. -/
inductive RwLock where
  | shared (readers : List Nat)
  | exclusive (writer : Nat)
deriving DecidableEq, Repr

namespace RwLock

def free : RwLock := .shared []

def isWriter : RwLock → Nat → Bool
  | .exclusive writer, token => writer == token
  | .shared _, _ => false

def readers : RwLock → List Nat
  | .shared readers => readers
  | .exclusive _ => []

/-- Take the lock for writing; it is not free to be taken while it is held. -/
def write : RwLock → Nat → Option RwLock
  | .shared [], token => some (.exclusive token)
  | _, _ => none

def read : RwLock → Nat → Option RwLock
  | .shared readers, token => some (.shared (token :: readers))
  | .exclusive _, _ => none

/-- Give back what the token holds. -/
def release : RwLock → Nat → RwLock
  | .exclusive writer, token => if writer = token then free else .exclusive writer
  | .shared readers, token => .shared (readers.erase token)

/-- A reader passes what it holds to another. -/
def handOver : RwLock → Nat → Nat → RwLock
  | .exclusive writer, _, _ => .exclusive writer
  | .shared readers, token, other => .shared (other :: readers.erase token)

variable {l l' : RwLock} {a b : Nat}

theorem isWriter_iff : l.isWriter a = true ↔ l = .exclusive a := by
  cases l with
  | shared readers => simp [isWriter]
  | exclusive writer => simp [isWriter]

@[simp] theorem not_isWriter_free : free.isWriter a = false := rfl

@[simp] theorem readers_free : free.readers = [] := rfl

/-- There is at most one writer. -/
theorem isWriter_unique (ha : l.isWriter a = true) (hb : l.isWriter b = true) : a = b := by
  rw [isWriter_iff] at ha hb
  rw [ha] at hb
  cases hb
  rfl

/-- A writer excludes readers. -/
theorem not_mem_readers (ha : l.isWriter a = true) : b ∉ l.readers := by
  rw [isWriter_iff] at ha
  subst ha
  exact List.not_mem_nil

theorem write_eq (h : l.write a = some l') : l = free ∧ l' = .exclusive a := by
  cases l with
  | shared readers =>
      cases readers with
      | nil => cases h; exact ⟨rfl, rfl⟩
      | cons => cases h
  | exclusive => cases h

theorem read_eq (h : l.read a = some l') : l' = .shared (a :: l.readers) ∧ ∀ b, l.isWriter b = false := by
  cases l with
  | shared readers => cases h; exact ⟨rfl, fun _ => rfl⟩
  | exclusive => cases h

theorem isWriter_write (h : l.write a = some l') : l'.isWriter a = true := by
  rw [(write_eq h).2]
  exact isWriter_iff.mpr rfl

theorem mem_readers_read (h : l.read a = some l') : a ∈ l'.readers := by
  rw [(read_eq h).1]
  exact List.mem_cons_self

/-! ## What the moves of one token leave to the others -/

theorem isWriter_of_write (h : l.write a = some l') (hne : a ≠ b) :
    l'.isWriter b = l.isWriter b := by
  obtain ⟨rfl, rfl⟩ := write_eq h
  simp [isWriter, free, hne]

theorem mem_readers_of_write (h : l.write a = some l') : b ∈ l.readers ↔ b ∈ l'.readers := by
  obtain ⟨rfl, rfl⟩ := write_eq h
  rfl

theorem isWriter_of_read (h : l.read a = some l') : l'.isWriter b = l.isWriter b := by
  rw [(read_eq h).1, (read_eq h).2 b]
  rfl

theorem mem_readers_of_read (h : l.read a = some l') (hne : a ≠ b) :
    b ∈ l.readers ↔ b ∈ l'.readers := by
  rw [(read_eq h).1]
  exact ⟨List.mem_cons_of_mem _, List.mem_of_ne_of_mem hne.symm⟩

theorem isWriter_release (hne : a ≠ b) : (l.release a).isWriter b = l.isWriter b := by
  cases l with
  | shared readers => rfl
  | exclusive writer =>
      by_cases hw : writer = a
      · subst hw
        simp [release, isWriter, free, hne]
      · simp [release, hw]

theorem mem_readers_release (hne : a ≠ b) : b ∈ (l.release a).readers ↔ b ∈ l.readers := by
  cases l with
  | shared readers => exact List.mem_erase_of_ne hne.symm
  | exclusive writer =>
      by_cases hw : writer = a
      · simp [release, hw, readers, free]
      · simp [release, hw, readers]

theorem isWriter_handOver {c : Nat} : (l.handOver a c).isWriter b = l.isWriter b := by
  cases l <;> rfl

theorem mem_readers_handOver {c : Nat} (hne : a ≠ b) (h : b ∈ l.readers) :
    b ∈ (l.handOver a c).readers := by
  cases l with
  | shared readers => exact List.mem_cons_of_mem _ ((List.mem_erase_of_ne hne.symm).mpr h)
  | exclusive => exact absurd h List.not_mem_nil

/-- Who takes over from a reader is a reader. -/
theorem mem_readers_handOver_self (h : a ∈ l.readers) : b ∈ (l.handOver a b).readers := by
  cases l with
  | shared readers => exact List.mem_cons_self
  | exclusive => exact absurd h List.not_mem_nil

end RwLock
