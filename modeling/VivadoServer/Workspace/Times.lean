/-
  VivadoServer.Workspace.Times

  Modification times on the way to a file and back (`set_file_mtime` and
  `system_time_to_ms` of `src/sync/files.rs`, `mtime` of `src/workspace_read.rs`).  A
  manifest counts milliseconds in 64 bits, the file system seconds and nanoseconds.

  Both ways back saturate, and both do so too early at the lower end: one before it
  changes the sign, the other before it adds what is left of the last second.
-/

import VivadoServer.Sync.Plan

namespace VivadoServer.Workspace

open Sync

def i64Min : Int := -2 ^ 63

/-- The nearest number of 64 bits. -/
def saturate (n : Int) : Int := max i64Min (min n i64Max)

def saturatingMul (a b : Int) : Int := saturate (a * b)

def saturatingAdd (a b : Int) : Int := saturate (a + b)

/-- What a file system stores of a time. -/
structure FileTime where
  seconds : Int
  nanos : Nat
deriving DecidableEq, Repr

/-- The time that `set_file_mtime` asks for. -/
def fileTime (mtimeUnixMs : Int) : FileTime where
  seconds := mtimeUnixMs / 1000
  nanos := (mtimeUnixMs % 1000 * 1000000).toNat

/-- `modified`: the time in nanoseconds. -/
def FileTime.modified (t : FileTime) : Int := t.seconds * 1000000000 + t.nanos

/-- What a listing shows. -/
def mtime (t : FileTime) : Int := saturatingAdd (saturatingMul t.seconds 1000) (t.nanos / 1000000 : Nat)

section Times

variable {ms : Int}

/-- Nothing of a time gets lost on the way to the file. -/
theorem fileTime_modified (ms : Int) : (fileTime ms).modified = ms * 1000000 := by
  unfold FileTime.modified fileTime
  dsimp only
  omega

theorem systemTimeToMs_eq_iff (hlow : i64Min ≤ ms) (hhigh : ms ≤ i64Max) :
    systemTimeToMs (fileTime ms).modified = ms ↔ ms ≠ i64Min := by
  rw [fileTime_modified]
  unfold systemTimeToMs
  have hpos : ms * 1000000 / 1000000 = ms := Int.mul_ediv_cancel ms (by decide)
  have hneg : -(ms * 1000000) / 1000000 = -ms := by
    rw [← Int.neg_mul]
    exact Int.mul_ediv_cancel (-ms) (by decide)
  rw [hpos, hneg]
  unfold i64Min i64Max at *
  split
  · rw [Int.min_eq_left hhigh]
    omega
  · omega

/-- The start of the first second that has all of its milliseconds in 64 bits. -/
def firstWhole : Int := -9223372036854775000

theorem mtime_eq_iff (hlow : i64Min ≤ ms) (hhigh : ms ≤ i64Max) :
    mtime (fileTime ms) = ms ↔ firstWhole ≤ ms := by
  have hnanos : (((fileTime ms).nanos / 1000000 : Nat) : Int) = ms % 1000 := by
    unfold fileTime
    dsimp only
    omega
  have hsplit := Int.mul_ediv_add_emod ms 1000
  unfold mtime saturatingAdd saturatingMul
  rw [hnanos]
  show saturate (saturate (ms / 1000 * 1000) + ms % 1000) = ms ↔ _
  unfold saturate firstWhole i64Min i64Max at *
  omega

/-- A file with the content and the mode that an entry asks for, and the time that was set
    for it, is planned again just where the time does not come back. -/
theorem sameFile_committed {digest : Sha256} {entry : ManifestEntry} {data : FileData}
    (hkind : entry.kind = .file) (hfacts : entry.sizeBytes = some data.content.length ∧
      entry.sha256 = some (hexDigest (digest data.content).toList) ∧ entry.executable = data.executable)
    (hms : entry.mtimeUnixMs = some ms) (hstored : data.mtime = (fileTime ms).modified) :
    sameFile entry (fileEntry entry.path (data.facts digest)) = true ↔
      systemTimeToMs (fileTime ms).modified = ms := by
  obtain ⟨hsize, hsha, hexec⟩ := hfacts
  unfold sameFile fileEntry FileData.facts
  dsimp only
  rw [hkind, hsize, hsha, hexec, hms, hstored]
  generalize systemTimeToMs (fileTime ms).modified = read
  simp only [beq_self_eq_true, Bool.true_and, Bool.and_true, beq_iff_eq, Option.some.injEq]
  exact eq_comm

/-- The time of a file comes back in both ways just where its second is one of those that
    64 bits of milliseconds hold whole; what a scan reads comes back for all but one. -/
theorem mtime_round_trip (digest : Sha256) (hlow : i64Min ≤ ms) (hhigh : ms ≤ i64Max) :
    (systemTimeToMs (fileTime ms).modified = ms ∧ mtime (fileTime ms) = ms ↔ firstWhole ≤ ms) ∧
    ∀ (entry : ManifestEntry) (data : FileData), entry.kind = .file →
      entry.sizeBytes = some data.content.length ∧
        entry.sha256 = some (hexDigest (digest data.content).toList) ∧
        entry.executable = data.executable →
      entry.mtimeUnixMs = some ms → data.mtime = (fileTime ms).modified →
      (sameFile entry (fileEntry entry.path (data.facts digest)) = true ↔ ms ≠ i64Min) := by
  rw [mtime_eq_iff hlow hhigh, systemTimeToMs_eq_iff hlow hhigh]
  refine ⟨⟨fun h => h.2, fun h => ⟨?_, h⟩⟩, fun entry data hkind hfacts hms hstored => ?_⟩
  · rintro rfl
    exact absurd h (by decide)
  · rw [sameFile_committed hkind hfacts hms hstored, systemTimeToMs_eq_iff hlow hhigh]

theorem mtime_round_trip_sample : mtime (fileTime (-1)) = -1 ∧ mtime (fileTime i64Max) = i64Max := by
  have hlow : i64Min ≤ -1 ∧ (-1 : Int) ≤ i64Max := by decide
  have hhigh : i64Min ≤ i64Max ∧ i64Max ≤ i64Max := by decide
  have digest : Sha256 := fun _ => Vector.replicate 32 0
  exact ⟨((mtime_round_trip digest hlow.1 hlow.2).1.mpr (by decide)).2,
    ((mtime_round_trip digest hhigh.1 hhigh.2).1.mpr (by decide)).2⟩

/-- The first of all times comes back from neither. -/
theorem mtime_round_trip_fails : ¬ ∀ ms, i64Min ≤ ms → ms ≤ i64Max →
    systemTimeToMs (fileTime ms).modified = ms ∧ mtime (fileTime ms) = ms := by
  intro hall
  have hfirst := (hall i64Min (by decide) (by decide)).1
  exact absurd hfirst (by decide)

end Times

end VivadoServer.Workspace
