/-
  VivadoServer.Logging.Retained

  What the rotating service log retains.  The records written so far are accounted
  for by the names: each name has the records of its file, and before them what was
  lost between it and the next older name because it had expired.  What was dropped
  to make room is older than all of it.

  Each system call keeps that account, so that it holds also where the process is
  killed in the middle of a rotation.
-/

import Mathlib.Data.List.Nodup
import Mathlib.Data.Nat.Init
import VivadoServer.Lib.StepSystem
import VivadoServer.Logging.Rotation

namespace VivadoServer.Logging

open RotatingLog

/-- A record, and when it was written. -/
structure Entry where
  bytes : List UInt8
  time : Int
deriving DecidableEq, Repr

def contentOf (entries : List Entry) : List UInt8 := entries.flatMap Entry.bytes

@[simp] theorem contentOf_nil : contentOf [] = [] := rfl

theorem contentOf_append (entries : List Entry) (e : Entry) :
    contentOf (entries ++ [e]) = contentOf entries ++ e.bytes := by
  simp [contentOf]

/-- The day of the last of the records began at least the retention period before a time
    that was read so far. -/
def Expired (env : Environment) (moment : Nat) (entries : List Entry) : Prop :=
  ∀ e, entries.getLast? = some e → ∃ i < moment,
    isExpired (unixSeconds (env.clock i)) e.time = true

theorem Expired.mono {env : Environment} {moment moment' : Nat} {entries : List Entry}
    (h : Expired env moment entries) (hle : moment ≤ moment') : Expired env moment' entries := by
  intro e he
  obtain ⟨i, hi, hexpired⟩ := h e he
  exact ⟨i, by omega, hexpired⟩

/-! ## The account of the names -/

/-- The records of a name, and those lost between it and the next older name. -/
structure Slot where
  lost : List (List Entry)
  kept : List Entry

/-- All records of the first names, the oldest first. -/
def text (slots : Nat → Slot) : Nat → List Entry
  | 0 => []
  | n + 1 => (slots n).lost.flatten ++ (slots n).kept ++ text slots n

/-- One name gets another slot. -/
def put (slots : Nat → Slot) (index : Nat) (slot : Slot) : Nat → Slot :=
  fun i => if i = index then slot else slots i

section Text

variable {slots slots' : Nat → Slot} {index n m : Nat} {slot : Slot}

@[simp] theorem put_self : put slots index slot index = slot := if_pos rfl

theorem put_other (h : n ≠ index) : put slots index slot n = slots n := if_neg h

theorem text_congr (hfrom : m ≤ n) (hbelow : text slots m = text slots' m)
    (habove : ∀ i, m ≤ i → slots i = slots' i) : text slots n = text slots' n := by
  induction n, hfrom using Nat.le_induction with
  | base => exact hbelow
  | succ n hle ih => rw [text, text, ih, habove n hle]

theorem text_put_above (h : n ≤ index) : text (put slots index slot) n = text slots n := by
  induction n with
  | zero => rfl
  | succ n ih => rw [text, text, ih (by omega), put_other (by omega)]

/-- What is written to the newest name comes last. -/
theorem text_put_newest (h : 0 < n) {e : Entry} :
    text (put slots 0 { slots 0 with kept := (slots 0).kept ++ [e] }) n = text slots n ++ [e] := by
  induction n, h using Nat.le_induction with
  | base => simp [text]
  | succ n hle ih =>
      have hother : n ≠ 0 := by omega
      rw [text, text, ih, put_other hother, List.append_assoc _ (text slots n)]

/-- A file takes the place of an empty one, with what was lost before either of them. -/
theorem text_put_moved (hkept : (slots (index + 1)).kept = []) (h : index + 1 < n) :
    text (put (put slots index ⟨[], []⟩) (index + 1)
      ⟨(slots (index + 1)).lost ++ (slots index).lost, (slots index).kept⟩) n = text slots n := by
  apply text_congr (m := index + 2) h
  · rw [text, text, put_self, put_other (by omega), put_self, text_put_above (by omega),
      text_put_above (Nat.le_refl _), text, text, hkept]
    simp
  · intro i hi
    rw [put_other (by omega), put_other (by omega)]

end Text

/-- What the records of a name say about its file. -/
def Holds (file : Option LogFile) (kept : List Entry) : Prop :=
  match file with
  | none => kept = []
  | some f => f.content = contentOf kept ∧ ∀ e, kept.getLast? = some e → f.mtime = e.time

/-- The records written so far, by the names. -/
structure Accounts (env : Environment) (files : Nat) (written : List Entry) (slots : Nat → Slot)
    (dropped : List Entry) (d : Directory) : Prop where
  all : written = dropped ++ text slots files
  holds : ∀ i < files, Holds (d.file i) (slots i).kept
  expired : ∀ i < files, ∀ lost ∈ (slots i).lost, Expired env d.moment lost

/-- The names are in range, each file has one of them and keeps the limit, and the records
    are accounted for. -/
structure Directory.Sound (env : Environment) (limit files : Nat) (written : List Entry)
    (d : Directory) : Prop where
  named : ∀ {i inode}, d.entries i = some inode →
    i < files ∧ ∃ f, d.inodes[inode]? = some f ∧ f.len ≤ limit
  single : ∀ {i j inode}, d.entries i = some inode → d.entries j = some inode → i = j
  accounts : ∃ slots dropped, Accounts env files written slots dropped d

namespace Directory

variable {env : Environment} {limit files index : Nat} {written : List Entry} {d : Directory}

theorem file_setEntry (index : Nat) (inode : Option Nat) (i : Nat) : (d.setEntry index inode).file i =
    if i = index then inode.bind (d.inodes[·]?) else d.file i := by
  unfold file setEntry
  dsimp only
  split <;> rfl

theorem file_eq_none (h : d.entries index = none) : d.file index = none := by
  rw [file, h, Option.bind_none]

namespace Sound

theorem tick (h : d.Sound env limit files written) : d.tick.Sound env limit files written := by
  obtain ⟨hnamed, hsingle, slots, dropped, hall, hholds, hexpired⟩ := h
  refine ⟨hnamed, hsingle, slots, dropped, hall, hholds, fun i hi lost hmem => ?_⟩
  exact Expired.mono (hexpired i hi lost hmem) (Nat.le_succ _)

theorem nlink (h : d.Sound env limit files written) {inode : Nat} (hentry : d.entries index = some inode) :
    d.nlink files inode = 1 := by
  have hsame : ∀ i ∈ List.range files, (d.entries i == some inode) = true ↔ (i == index) = true := by
    intro i _
    rw [beq_iff_eq, beq_iff_eq]
    constructor
    · exact fun hi => h.single hi hentry
    · rintro rfl
      exact hentry
  rw [Directory.nlink, List.countP_congr hsame]
  exact List.count_eq_one_of_mem List.nodup_range (List.mem_range.mpr (h.named hentry).1)

/-- A file moves to the next older name, where there is none. -/
theorem rename (h : d.Sound env limit files written) (hindex : index + 1 < files)
    (hfree : d.entries (index + 1) = none) :
    (d.rename index (index + 1)).Sound env limit files written ∧
      (d.rename index (index + 1)).entries index = none := by
  unfold Directory.rename
  cases hentry : d.entries index with
  | none => exact ⟨h, hentry⟩
  | some inode =>
      dsimp only
      have hentries : ∀ i, ((d.setEntry index none).setEntry (index + 1) (some inode)).entries i =
          if i = index + 1 then some inode else if i = index then none else d.entries i := fun _ => rfl
      have hfiles : ∀ i, ((d.setEntry index none).setEntry (index + 1) (some inode)).file i =
          if i = index + 1 then d.file index else if i = index then none else d.file i := by
        intro i
        rw [file_setEntry, file_setEntry]
        have hfile : d.file index = d.inodes[inode]? := by rw [file, hentry, Option.bind_some]
        rw [hfile]
        rfl
      obtain ⟨slots, dropped, hall, hholds, hexpired⟩ := h.accounts
      have hkept : (slots (index + 1)).kept = [] := by
        have hheld := hholds (index + 1) hindex
        rw [file_eq_none hfree] at hheld
        exact hheld
      refine ⟨⟨fun {i inode'} hi => ?_, fun {i j inode'} hi hj => ?_,
        put (put slots index ⟨[], []⟩) (index + 1)
          ⟨(slots (index + 1)).lost ++ (slots index).lost, (slots index).kept⟩, dropped, ?_,
        fun i hi => ?_, fun i hi => ?_⟩, ?_⟩
      · rw [hentries] at hi
        split at hi
        · cases hi
          exact ⟨by omega, (h.named hentry).2⟩
        · split at hi
          · cases hi
          · exact h.named hi
      · -- only the file that moved is at another name
        rw [hentries] at hi hj
        split at hi <;> split at hj
        · omega
        · cases hi
          split at hj
          · cases hj
          · have := h.single hentry hj
            omega
        · cases hj
          split at hi
          · cases hi
          · have := h.single hentry hi
            omega
        · split at hi
          · cases hi
          · split at hj
            · cases hj
            · exact h.single hi hj
      · rw [text_put_moved hkept hindex]
        exact hall
      · rw [hfiles]
        split
        · rename_i heq
          rw [heq, put_self]
          exact hholds index (by omega)
        · rename_i hnot
          rw [put_other hnot]
          split
          · rename_i heq
            rw [heq, put_self]
            rfl
          · rename_i hother
            rw [put_other hother]
            exact hholds i hi
      · by_cases hnext : i = index + 1
        · rw [hnext, put_self]
          intro lost hmem
          rcases List.mem_append.mp hmem with hold | hmoved
          · exact hexpired (index + 1) hindex lost hold
          · exact hexpired index (by omega) lost hmoved
        · rw [put_other hnext]
          by_cases hthis : i = index
          · rw [hthis, put_self]
            exact fun lost hmem => nomatch hmem
          · rw [put_other hthis]
            exact hexpired i hi
      · rw [hentries, if_neg (by omega), if_pos rfl]

/-- The newest name has a file again: the one it had, or a new one. -/
theorem openRegular (h : d.Sound env limit files written) (hfiles : 0 < files) (time : Int) :
    (d.openRegular 0 time).2.Sound env limit files written ∧
      (d.openRegular 0 time).2.entries 0 = some (d.openRegular 0 time).1 ∧
      (∀ i, i ≠ 0 → (d.openRegular 0 time).2.file i = d.file i) ∧
      (d.entries 0 = none → (d.openRegular 0 time).2.file 0 = some ⟨[], time⟩) := by
  unfold Directory.openRegular
  cases hentry : d.entries 0 with
  | some inode => exact ⟨h, hentry, fun _ _ => rfl, nofun⟩
  | none =>
      dsimp only
      obtain ⟨slots, dropped, hall, hholds, hexpired⟩ := h.accounts
      have hold : ∀ {i inode}, d.entries i = some inode → inode < d.inodes.length := by
        intro i inode hi
        obtain ⟨-, f, hf, -⟩ := h.named hi
        exact (List.getElem?_eq_some_iff.mp hf).1
      have hinodes : ∀ {inode}, inode < d.inodes.length →
          (d.inodes ++ [⟨[], time⟩])[inode]? = d.inodes[inode]? :=
        fun hlt => List.getElem?_append_left hlt
      have hnew : (d.inodes ++ [⟨[], time⟩])[d.inodes.length]? = some ⟨[], time⟩ := by simp
      have hfile : ∀ i, Directory.file { d.setEntry 0 (some d.inodes.length) with
          inodes := d.inodes ++ [⟨[], time⟩] } i = if i = 0 then some ⟨[], time⟩ else d.file i := by
        intro i
        by_cases hzero : i = 0
        · rw [if_pos hzero, file, setEntry]
          dsimp only
          rw [if_pos hzero, Option.bind_some, hnew]
        · rw [if_neg hzero, file, setEntry, file]
          dsimp only
          rw [if_neg hzero]
          cases hi : d.entries i with
          | none => rfl
          | some inode => rw [Option.bind_some, Option.bind_some, hinodes (hold hi)]
      refine ⟨⟨fun {i inode} hi => ?_, fun {i j inode} hi hj => ?_, slots, dropped, hall,
        fun i hi => ?_, hexpired⟩, rfl, fun i hi => ?_, fun _ => ?_⟩
      · simp only [setEntry] at hi ⊢
        split at hi
        · cases hi
          exact ⟨by omega, _, hnew, Nat.zero_le _⟩
        · rw [hinodes (hold hi)]
          exact h.named hi
      · -- no name leads to the new inode yet
        simp only [setEntry] at hi hj
        split at hi <;> split at hj
        · omega
        · cases hi
          exact absurd (hold hj) (Nat.lt_irrefl _)
        · cases hj
          exact absurd (hold hi) (Nat.lt_irrefl _)
        · exact h.single hi hj
      · rw [hfile]
        split
        · rename_i hzero
          have hheld := hholds i hi
          rw [hzero, file_eq_none hentry] at hheld
          rw [hzero, hheld]
          exact ⟨rfl, nofun⟩
        · exact hholds i hi
      · rw [hfile, if_neg hi]
      · rw [hfile, if_pos rfl]

/-- A record is written to the newest file. -/
theorem append (h : d.Sound env limit files written) {inode : Nat} {f : LogFile}
    {bytes : List UInt8} (time : Int) (hentry : d.entries 0 = some inode)
    (hf : d.inodes[inode]? = some f) (hfits : f.len + bytes.length ≤ limit) :
    (d.append inode bytes time).Sound env limit files (written ++ [⟨bytes, time⟩]) ∧
      (d.append inode bytes time).inodes[inode]? = some ⟨f.content ++ bytes, time⟩ := by
  obtain ⟨slots, dropped, hall, hholds, hexpired⟩ := h.accounts
  have hfiles : 0 < files := (h.named hentry).1
  have hinode : (d.append inode bytes time).inodes[inode]? = some ⟨f.content ++ bytes, time⟩ := by
    simp [Directory.append, hf]
  have hother : ∀ {i inode'}, d.entries i = some inode' → i ≠ 0 →
      (d.append inode bytes time).inodes[inode']? = d.inodes[inode']? := by
    intro i inode' hi hzero
    have hne : inode ≠ inode' := by
      rintro rfl
      exact hzero (h.single hi hentry)
    simp [Directory.append, hne]
  have hfile : ∀ i, (d.append inode bytes time).file i =
      if i = 0 then some ⟨f.content ++ bytes, time⟩ else d.file i := by
    intro i
    have hentries : (d.append inode bytes time).entries i = d.entries i := rfl
    by_cases hzero : i = 0
    · rw [if_pos hzero, file, hentries, hzero, hentry, Option.bind_some, hinode]
    · rw [if_neg hzero, file, hentries, file]
      cases hi : d.entries i with
      | none => rfl
      | some inode' => rw [Option.bind_some, Option.bind_some, hother hi hzero]
  refine ⟨⟨fun {i inode'} hi => ?_, h.single,
    put slots 0 { slots 0 with kept := (slots 0).kept ++ [⟨bytes, time⟩] }, dropped, ?_,
    fun i hi => ?_, fun i hi => ?_⟩, hinode⟩
  · refine ⟨(h.named hi).1, ?_⟩
    by_cases hzero : i = 0
    · subst hzero
      obtain rfl : inode = inode' := Option.some.inj (hentry.symm.trans hi)
      refine ⟨_, hinode, ?_⟩
      show (f.content ++ bytes).length ≤ limit
      rw [List.length_append]
      exact hfits
    · rw [hother hi hzero]
      exact (h.named hi).2
  · rw [text_put_newest hfiles, hall, List.append_assoc]
  · rw [hfile]
    split
    · rename_i hzero
      rw [hzero, put_self]
      have hheld := hholds 0 hfiles
      rw [file, hentry, Option.bind_some, hf] at hheld
      refine ⟨?_, fun e he => ?_⟩
      · rw [contentOf_append, ← hheld.1]
      · rw [List.getLast?_append_of_ne_nil _ (by simp)] at he
        cases he
        rfl
    · rename_i hzero
      rw [put_other hzero]
      exact hholds i hi
  · by_cases hzero : i = 0
    · rw [hzero, put_self]
      exact hexpired 0 hfiles
    · rw [put_other hzero]
      exact hexpired i hi

end Sound

end Directory

/-! ## What the methods keep -/

namespace RotatingLog

section Methods

variable (env : Environment) (limit files : Nat) (written : List Entry)

/-- Nothing stops a call. -/
def Calm : Prop := (∀ i, env.killed i = false) ∧ limit ≤ i64Max

/-- The directory is as it should be, whatever the handle leads to. -/
structure Sound (l : RotatingLog) : Prop where
  disk : l.directory.Sound env limit files written
  limit_eq : l.limit = limit
  files_eq : l.files = files

/-- The handle leads to the newest file, and its length is known. -/
structure Holding (l : RotatingLog) : Prop extends Sound env limit files written l where
  named : l.directory.entries 0 = some l.current
  counted : ∃ f, l.directory.inodes[l.current]? = some f ∧ l.bytes = f.len

/-- A method that is not stopped leaves `post`, and the directory stays sound in any case. -/
def Keeps {α : Type} (pre : RotatingLog → Prop) (x : LogProg α) (post : α → RotatingLog → Prop) : Prop :=
  Triple pre x post fun _ l => Sound env limit files written l ∧ ¬ Calm env limit

/-- What holds whatever time it is. -/
def Stable (P : RotatingLog → Prop) : Prop := ∀ l, P l → P (l.onDirectory Directory.tick)

/-- What depends on the older names only. -/
def OfOlder (P : RotatingLog → Prop) : Prop := ∀ l l', P l →
  l.directory.moment ≤ l'.directory.moment →
  (∀ i, i ≠ 0 → l'.directory.file i = l.directory.file i) → P l'

variable {env limit files written}

theorem OfOlder.stable {P : RotatingLog → Prop} (h : OfOlder P) : Stable P :=
  fun _ hl => h _ _ hl (Nat.le_succ _) fun _ _ => rfl

theorem Sound.stable : Stable (Sound env limit files written) :=
  fun _ h => ⟨h.disk.tick, h.limit_eq, h.files_eq⟩

theorem Holding.stable : Stable (Holding env limit files written) :=
  fun l h => ⟨Sound.stable l h.toSound, h.named, h.counted⟩

section Rules

variable {α : Type} {P : RotatingLog → Prop}

end Rules

theorem Sound.onDirectory {l : RotatingLog} (h : Sound env limit files written l)
    {f : Directory → Directory} (hf : (f l.directory).Sound env limit files written) :
    Sound env limit files written (l.onDirectory f) := ⟨hf, h.limit_eq, h.files_eq⟩

section Inspect

variable {P : RotatingLog → Prop} {index : Nat}

end Inspect

theorem Holding.day {l : RotatingLog} (h : Holding env limit files written l) (day : Nat) :
    Holding env limit files written { l with currentDay := day } :=
  ⟨⟨h.disk, h.limit_eq, h.files_eq⟩, h.named, h.counted⟩

/-- When the current file changed last. -/
def lastChange (l : RotatingLog) : Int := ((l.directory.inodes[l.current]?).map LogFile.mtime).getD 0

end Methods

end RotatingLog

/-! ## The files and the records -/

/-- The files of the first names, the oldest first. -/
def Directory.retained (d : Directory) : Nat → List LogFile
  | 0 => []
  | n + 1 => (d.file n).toList ++ d.retained n

/-- Consecutive records, which are one of the files or have been removed with theirs. -/
structure Segment where
  entries : List Entry
  retained : Bool

def segments (slots : Nat → Slot) (d : Directory) : Nat → List Segment
  | 0 => []
  | n + 1 => (slots n).lost.map (⟨·, false⟩) ++
      ((d.file n).map fun _ => ⟨(slots n).kept, true⟩).toList ++ segments slots d n

namespace Directory

variable {env : Environment} {limit files n : Nat} {written dropped : List Entry} {d : Directory}
  {slots : Nat → Slot}

theorem mem_retained {f : LogFile} : f ∈ d.retained n ↔ ∃ i < n, d.file i = some f := by
  induction n with
  | zero => simp [retained]
  | succ n ih =>
      rw [retained, List.mem_append, Option.mem_toList, ih]
      constructor
      · rintro (hf | ⟨i, hi, hf⟩)
        · exact ⟨n, Nat.lt_succ_self n, hf⟩
        · exact ⟨i, by omega, hf⟩
      · rintro ⟨i, hi, hf⟩
        by_cases hin : i = n
        · exact .inl (hin ▸ hf)
        · exact .inr ⟨i, by omega, hf⟩

theorem segments_entries (h : ∀ i < n, Holds (d.file i) (slots i).kept) :
    (segments slots d n).flatMap Segment.entries = text slots n := by
  induction n with
  | zero => rfl
  | succ n ih =>
      have hheld := h n (Nat.lt_succ_self n)
      rw [segments, text, List.flatMap_append, List.flatMap_append, ih fun i hi => h i (by omega)]
      have hlost : ((slots n).lost.map (⟨·, false⟩)).flatMap Segment.entries = (slots n).lost.flatten := by
        rw [List.flatMap_map, List.flatMap_def, List.map_id']
      rw [hlost]
      cases hfile : d.file n with
      | none =>
          rw [hfile] at hheld
          have hkept : (slots n).kept = [] := hheld
          simp [hkept]
      | some f => simp

theorem segments_contents (h : ∀ i < n, Holds (d.file i) (slots i).kept) :
    ((segments slots d n).filter Segment.retained).map (fun s => contentOf s.entries) =
      (d.retained n).map LogFile.content := by
  induction n with
  | zero => rfl
  | succ n ih =>
      have hheld := h n (Nat.lt_succ_self n)
      rw [segments, retained, List.filter_append, List.filter_append, List.map_append,
        List.map_append, List.map_append, ih fun i hi => h i (by omega)]
      have hlost : ((slots n).lost.map (⟨·, false⟩ : List Entry → Segment)).filter Segment.retained = [] := by
        simp [List.filter_eq_nil_iff]
      rw [hlost, List.map_nil, List.nil_append]
      cases hfile : d.file n with
      | none => rfl
      | some f =>
          rw [hfile] at hheld
          simp [hheld.1]

theorem segments_expired (h : ∀ i < n, ∀ lost ∈ (slots i).lost, Expired env d.moment lost) :
    ∀ s ∈ segments slots d n, s.retained = false → Expired env d.moment s.entries := by
  induction n with
  | zero => exact nofun
  | succ n ih =>
      intro s hs hlost
      rw [segments, List.mem_append, List.mem_append] at hs
      obtain (hmem | hmem) | hmem := hs
      · obtain ⟨entries, hentries, rfl⟩ := List.mem_map.mp hmem
        exact h n (Nat.lt_succ_self n) entries hentries
      · obtain ⟨f, -, rfl⟩ := Option.map_eq_some_iff.mp (Option.mem_toList.mp hmem)
        cases hlost
      · exact ih (fun i hi => h i (by omega)) s hmem hlost

/-- The records that are neither in the files nor have expired are the first ones. -/
theorem Sound.segments (h : d.Sound env limit files written) : ∃ (dropped : List Entry)
    (segments : List Segment), written = dropped ++ segments.flatMap Segment.entries ∧
    (d.retained files).map LogFile.content =
      (segments.filter Segment.retained).map (fun s => contentOf s.entries) ∧
    ∀ s ∈ segments, s.retained = false → Expired env d.moment s.entries := by
  obtain ⟨slots, dropped, hall, hholds, hexpired⟩ := h.accounts
  exact ⟨dropped, _, by rw [hall, segments_entries hholds], (segments_contents hholds).symm,
    segments_expired hexpired⟩

end Directory

/-! ## The service over its restarts -/

/-- The service is up, or it was killed and left its directory. -/
inductive Running where
  | down (directory : Directory)
  | up (log : RotatingLog)

def Running.directory : Running → Directory
  | down d => d
  | up l => l.directory

structure Service where
  running : Running
  written : List Entry

inductive Action where
  | restart
  | write (record : List UInt8)

/-- A record counts as written when the write returns.  A failure other than a kill ends
    the run. -/
def step (env : Environment) (limit files : Nat) : Action → Service → Option Service
  | .restart, s =>
    match openLog env limit files s.running.directory with
    | (.ok _, l) => some ⟨.up l, s.written⟩
    | (.error e, l) => if e = "killed" then some ⟨.down l.directory, s.written⟩ else none
  | .write record, s =>
    match s.running with
    | .down _ => none
    | .up l =>
      match (write env record).exec l with
      | (.ok _, l') => some ⟨.up l', s.written ++ [⟨record, l'.lastChange⟩]⟩
      | (.error e, l') => if e = "killed" then some ⟨.down l'.directory, s.written⟩ else none

/-- A record is not longer than a file may be. -/
def Fits (limit : Nat) : Action → Service → Prop
  | .restart, _ => True
  | .write record, _ => record.length ≤ limit

instance (limit : Nat) (a : Action) (s : Service) : Decidable (Fits limit a s) :=
  match a with
  | .restart => isTrue trivial
  | .write record => inferInstanceAs (Decidable (record.length ≤ limit))

def Service.start : Service where
  running := .down .empty
  written := []

section Runs

open StepSystem

variable {env : Environment} {limit files : Nat} {a : Action} {s s' : Service}

/-- The directory is sound, and where the log is open its handle leads to the newest file. -/
def Service.Good (env : Environment) (limit files : Nat) (s : Service) : Prop :=
  match s.running with
  | .down d => d.Sound env limit files s.written
  | .up l => Holding env limit files s.written l

theorem Service.Good.sound (h : s.Good env limit files) :
    s.running.directory.Sound env limit files s.written := by
  unfold Good at h
  split at h
  · rename_i d heq
    rw [heq]
    exact h
  · rename_i l heq
    rw [heq]
    exact h.disk

end Runs

end VivadoServer.Logging
