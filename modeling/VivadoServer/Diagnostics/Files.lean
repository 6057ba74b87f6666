/-
  VivadoServer.Diagnostics.Files

  What the writer does to the archives that are open and to their files, whatever fails:
  an operation is about one archive, and leaves the others and their files alone.  The
  file of an archive is what was written to it, up to a record that a failed write has
  torn.
-/

import VivadoServer.Diagnostics.Retention
import Mathlib

namespace VivadoServer.Diagnostics

open VivadoServer.History (Bytes Uuid)
open VivadoServer.Sessions (Text byteLength)

/-- An archive that is open, with its file. -/
def Writer.stored (w : Writer) (id : Uuid) : Option (OpenArchive × Option ArchiveFile) :=
  (w.find id).map fun a => (a, w.directory.lookup id)

section Files

variable {fromStr : FromStr} {timeText : Int → String} {w : Writer} {id : Uuid} {a : OpenArchive}

theorem find_id (h : w.find id = some a) : a.id = id := by
  have hid := List.find?_some h
  exact beq_iff_eq.mp hid

theorem stored_eq_none : w.stored id = none ↔ w.find id = none := Option.map_eq_none_iff

theorem stored_of_find (h : w.find id = some a) : w.stored id = some (a, w.directory.lookup id) := by
  rw [Writer.stored, h, Option.map_some]

theorem find_of_stored {file : Option ArchiveFile} (h : w.stored id = some (a, file)) :
    w.find id = some a ∧ w.directory.lookup id = file := by
  obtain ⟨b, hfind, heq⟩ := Option.map_eq_some_iff.mp h
  cases heq
  exact ⟨hfind, rfl⟩

/-! ## The directory -/

theorem lookup_change_self (g : ArchiveFile → ArchiveFile) (d : Directory) :
    (d.change id g).lookup id = (d.lookup id).map g := by
  induction d with
  | nil => rfl
  | cons e rest ih =>
      obtain ⟨k, f⟩ := e
      by_cases hk : k = id
      · subst hk
        simp [Directory.change]
      · have hne : (id == k) = false := beq_eq_false_iff_ne.mpr (Ne.symm hk)
        have hcons : Directory.change id g ((k, f) :: rest) = (k, f) :: Directory.change id g rest := by
          rw [Directory.change, List.map_cons, if_neg hk]
          rfl
        rw [hcons, List.lookup_cons, hne, List.lookup_cons, hne]
        exact ih

theorem lookup_change_other {id' : Uuid} (g : ArchiveFile → ArchiveFile) (d : Directory) (h : id' ≠ id) :
    (d.change id g).lookup id' = d.lookup id' := by
  induction d with
  | nil => rfl
  | cons e rest ih =>
      obtain ⟨k, f⟩ := e
      by_cases hk : k = id
      · have hne : (id' == k) = false := beq_eq_false_iff_ne.mpr (hk ▸ h)
        have hcons : Directory.change id g ((k, f) :: rest) = (k, g f) :: Directory.change id g rest := by
          rw [Directory.change, List.map_cons, if_pos hk]
          rfl
        rw [hcons, List.lookup_cons, hne, List.lookup_cons, hne]
        exact ih
      · have hcons : Directory.change id g ((k, f) :: rest) = (k, f) :: Directory.change id g rest := by
          rw [Directory.change, List.map_cons, if_neg hk]
          rfl
        rw [hcons, List.lookup_cons, List.lookup_cons]
        split
        · rfl
        · exact ih

theorem lookup_remove_other {id' : Uuid} (d : Directory) (h : id' ≠ id) :
    (d.remove id).lookup id' = d.lookup id' := by
  induction d with
  | nil => rfl
  | cons e rest ih =>
      obtain ⟨k, f⟩ := e
      by_cases hk : k = id
      · have hne : (id' == k) = false := beq_eq_false_iff_ne.mpr (hk ▸ h)
        have hcons : Directory.remove id ((k, f) :: rest) = Directory.remove id rest :=
          List.filter_cons_of_neg (by simp [hk])
        rw [hcons, List.lookup_cons, hne]
        exact ih
      · have hcons : Directory.remove id ((k, f) :: rest) = (k, f) :: Directory.remove id rest :=
          List.filter_cons_of_pos (by simpa using hk)
        rw [hcons, List.lookup_cons, List.lookup_cons]
        split
        · rfl
        · exact ih

/-- One archive is replaced by another of its identifier. -/
def replace (a : OpenArchive) (archives : List OpenArchive) : List OpenArchive :=
  archives.map fun b => if b.id = a.id then a else b

theorem find_replace_self {archives : List OpenArchive} {b : OpenArchive}
    (h : archives.find? (fun b => b.id == a.id) = some b) :
    (replace a archives).find? (fun b => b.id == a.id) = some a := by
  induction archives with
  | nil => cases h
  | cons c rest ih =>
      by_cases hc : c.id = a.id
      · rw [replace, List.map_cons, if_pos hc, List.find?_cons_of_pos (by simp)]
      · rw [List.find?_cons_of_neg (by simpa using hc)] at h
        rw [replace, List.map_cons, if_neg hc, List.find?_cons_of_neg (by simpa using hc)]
        exact ih h

theorem find_replace_other {archives : List OpenArchive} (h : id ≠ a.id) :
    (replace a archives).find? (fun b => b.id == id) = archives.find? (fun b => b.id == id) := by
  induction archives with
  | nil => rfl
  | cons c rest ih =>
      by_cases hc : c.id = a.id
      · rw [replace, List.map_cons, if_pos hc, List.find?_cons_of_neg (by simpa using Ne.symm h),
          List.find?_cons_of_neg (by rw [hc]; simpa using Ne.symm h)]
        exact ih
      · rw [replace, List.map_cons, if_neg hc, List.find?_cons, List.find?_cons]
        split
        · rfl
        · exact ih

theorem stored_replace_self {w' : Writer} {b : OpenArchive} {file : Option ArchiveFile}
    (harchives : w'.archives = replace a w.archives) (h : w.stored a.id = some (b, file)) :
    w'.stored a.id = some (a, w'.directory.lookup a.id) := by
  apply stored_of_find
  rw [Writer.find, harchives]
  exact find_replace_self (find_of_stored h).1

theorem stored_replace_other {w' : Writer} (harchives : w'.archives = replace a w.archives)
    (hfile : w'.directory.lookup id = w.directory.lookup id) (h : id ≠ a.id) :
    w'.stored id = w.stored id := by
  have hfind : w'.find id = w.find id := by
    rw [Writer.find, harchives]
    exact find_replace_other h
  rw [Writer.stored, hfind, hfile, Writer.stored]

/-- Another directory, and the same archives. -/
theorem stored_setDirectory (d : Directory) (h : d.lookup id = w.directory.lookup id) :
    (w.setDirectory d).stored id = w.stored id := by
  show (w.find id).map (fun a => (a, d.lookup id)) = _
  rw [h]
  rfl

/-! ## Retention -/

theorem pruneEntry_stored (incoming additional : Nat) (now : Uuid → Int) (o : Owned) (p : Writer × Nat)
    (id : Uuid) : (pruneEntry fromStr incoming additional now o p).1.stored id = p.1.stored id := by
  obtain ⟨w, count⟩ := p
  unfold pruneEntry
  dsimp only
  split
  · rfl
  · rename_i hclosed
    split
    · split
      · split
        · by_cases hid : id = o.id
          · -- it is not open
            have hfind : w.find o.id = none := by
              rw [Writer.find, List.find?_eq_none]
              intro a ha heq
              exact hclosed (List.any_eq_true.mpr ⟨a, ha, heq⟩)
            rw [hid, stored_eq_none.mpr hfind]
            exact stored_eq_none.mpr hfind
          · exact stored_setDirectory _ (lookup_remove_other _ hid)
        · rfl
      · rfl
    · rfl

variable (fromStr) in
/-- Retention leaves the archives that are open alone. -/
theorem prune_stored (incoming additional : Nat) (c : PruneCourse) (w : Writer) (id : Uuid) :
    (w.prune fromStr incoming additional c).1.stored id = w.stored id := by
  have hloop : ∀ (examined : List Owned) (p : Writer × Nat), (examined.foldl
      (fun p o => pruneEntry fromStr incoming additional c.now o p) p).1.stored id = p.1.stored id := by
    intro examined
    induction examined with
    | nil => intro p; rfl
    | cons o examined ih =>
        intro p
        rw [List.foldl_cons, ih]
        exact pruneEntry_stored incoming additional c.now o p id
  unfold Writer.prune
  split
  · rfl
  · dsimp only
    split
    · exact hloop _ _
    · exact hloop _ _

/-! ## What is written -/

/-- The file of an archive, up to where the next write goes. -/
def padded (a : OpenArchive) (f : ArchiveFile) : Bytes :=
  f.content ++ List.replicate (a.position - f.content.length) 0

theorem writeAt_padded {f : ArchiveFile} (h : f.content.length ≤ a.position) (bytes : Bytes) :
    writeAt f.content a.position bytes = padded a f ++ bytes := by
  rw [writeAt, List.take_of_length_le h, List.drop_of_length_le (by omega), List.append_nil, padded]

/-- A file that ends where the next write goes. -/
structure Whole (a : OpenArchive) (f : ArchiveFile) (written : Bytes) : Prop where
  content : f.content = written
  position : a.position = written.length
  bytes : a.bytes = written.length

/-- What a write leaves: the record at the end of the file, or a record that it tore. -/
inductive Wrote (a : OpenArchive) (content record : Bytes) (text : Text) :
    OpenArchive → ArchiveFile → Outcome → Prop
  | archived {a' : OpenArchive} {f' : ArchiveFile} (hwhole : Whole a' f' (content ++ record))
      (hid : a'.id = a.id) (hbytes : a'.outputBytes = a.outputBytes + byteLength text) :
      Wrote a content record text a' f' .archived
  | torn {a' : OpenArchive} {f' : ArchiveFile} (torn : Bytes) (hlength : f'.content.length ≤ a'.position)
      (hpadded : padded a' f' = content ++ torn) (hid : a'.id = a.id)
      (hbytes : a'.outputBytes = a.outputBytes) :
      Wrote a content record text a' f' (.dropped (some .diskError))

theorem put_directory (a : OpenArchive) (bytes : Bytes) (time : Int) (w : Writer) :
    (w.put a bytes time).directory = w.directory.change a.id fun f =>
      { f with content := writeAt f.content a.position bytes, modified := time } := rfl

theorem archive_wrote {f : ArchiveFile} {content : Bytes} (record : Bytes) (text : Text) (time : Int)
    (c : WriteCourse) (hstored : w.stored a.id = some (a, some f)) (hwhole : Whole a f content) :
    (∃ a' f', (w.archive a record text time c).1.stored a.id = some (a', some f') ∧
      Wrote a content record text a' f' (w.archive a record text time c).2) ∧
    ∀ id, id ≠ a.id → (w.archive a record text time c).1.stored id = w.stored id := by
  obtain ⟨rfl, hposition, hbytes⟩ := hwhole
  have hlookup := (find_of_stored hstored).2
  have hwritten : ∀ bytes, writeAt f.content a.position bytes = f.content ++ bytes := by
    intro bytes
    rw [writeAt_padded (by omega), padded, hposition, Nat.sub_self, List.replicate_zero, List.append_nil]
  have hput : ∀ bytes, (w.put a bytes time).directory.lookup a.id =
      some { f with content := f.content ++ bytes, modified := time } := by
    intro bytes
    rw [put_directory, lookup_change_self, hlookup, Option.map_some, hwritten]
  have hothers : ∀ bytes id, id ≠ a.id →
      (w.put a bytes time).directory.lookup id = w.directory.lookup id :=
    fun bytes id hid => put_directory a bytes time w ▸ lookup_change_other _ _ hid
  -- a file that is cut to what was in it
  have hcut : ∀ bytes, ((w.put a bytes time).directory.change a.id fun f =>
      { f with content := f.content.take a.bytes, modified := time }).lookup a.id =
      some { f with modified := time } := by
    intro bytes
    rw [lookup_change_self, hput, Option.map_some]
    show some { f with content := (f.content ++ bytes).take a.bytes, modified := time } = _
    rw [hbytes, List.take_left]
  have hcuts : ∀ bytes id, id ≠ a.id → ((w.put a bytes time).directory.change a.id fun f =>
      { f with content := f.content.take a.bytes, modified := time }).lookup id =
      w.directory.lookup id := fun bytes id hid =>
    (lookup_change_other _ _ hid).trans (hothers bytes id hid)
  cases c with
  | done =>
      refine ⟨⟨_, _, (stored_replace_self (a := { a with
          position := a.position + record.length
          bytes := a.bytes + record.length
          outputBytes := a.outputBytes + byteLength text }) rfl hstored).trans
        (congrArg (fun file => some (_, file)) (hput record)), .archived ⟨rfl, ?_, ?_⟩ rfl rfl⟩,
        fun id hid => stored_replace_other rfl (hothers record id hid) hid⟩
      · rw [List.length_append, ← hposition]
      · rw [List.length_append, ← hbytes]
  | failed written rollback =>
      cases rollback with
      | done =>
          refine ⟨⟨_, _, (stored_replace_self (a := { a with position := a.bytes }) rfl hstored).trans
            (congrArg (fun file => some (_, file)) (hcut _)), .torn [] ?_ ?_ rfl rfl⟩,
            fun id hid => stored_replace_other rfl (hcuts _ id hid) hid⟩
          · show f.content.length ≤ a.bytes
            omega
          · show f.content ++ List.replicate (a.bytes - f.content.length) 0 = f.content ++ []
            rw [hbytes, Nat.sub_self, List.replicate_zero]
      | setLenFailed =>
          refine ⟨⟨_, _, (stored_replace_self (a := { a with
              position := a.position + (record.take (min written (record.length - 1))).length
              bytes := a.bytes + record.length }) rfl hstored).trans
            (congrArg (fun file => some (_, file)) (hput _)),
            .torn (record.take (min written (record.length - 1))) ?_ ?_ rfl rfl⟩,
            fun id hid => stored_replace_other rfl (hothers _ id hid) hid⟩
          · show (f.content ++ _).length ≤ a.position + _
            rw [List.length_append]
            omega
          · show _ ++ List.replicate (a.position + _ - (f.content ++ _).length) 0 = _
            rw [List.length_append, hposition, Nat.sub_self, List.replicate_zero, List.append_nil]
      | seekFailed =>
          refine ⟨⟨_, _, (stored_replace_self (a := { a with
              position := a.position + (record.take (min written (record.length - 1))).length
              bytes := a.bytes + record.length }) rfl hstored).trans
            (congrArg (fun file => some (_, file)) (hcut _)),
            .torn (List.replicate (record.take (min written (record.length - 1))).length 0) ?_ ?_ rfl rfl⟩,
            fun id hid => stored_replace_other rfl (hcuts _ id hid) hid⟩
          · show f.content.length ≤ a.position + _
            omega
          · show f.content ++ List.replicate (a.position + _ - f.content.length) 0 = _
            rw [hposition, Nat.add_sub_cancel_left]

/-! ## The operations of the writer -/

/-- A flag after which nothing is archived. -/
def fatal : Issue → Bool
  | .sessionLimit | .totalLimit | .diskError => true
  | .queueFull | .workerStopped | .drainTimeout => false

/-- Where `output` puts a text. -/
inductive Puts (w : Writer) (id : Uuid) (issues : Issues) (record : Bytes) (text : Text) (time : Int)
    (c : WriteCourse) : Writer × Outcome → Prop
  | closed (hfind : w.find id = none) : Puts w id issues record text time c (w, .dropped none)
  | flagged (i : Issue) (hfatal : fatal i = true) (hissue : issues i = true) :
      Puts w id issues record text time c (w, .dropped none)
  | refused {w' : Writer} (i : Issue) (hfatal : fatal i = true) (hsame : ∀ j, w'.stored j = w.stored j) :
      Puts w id issues record text time c (w', .dropped (some i))
  | archives {w' : Writer} {a : OpenArchive} (hfind : w.find id = some a)
      (hclear : ∀ i, fatal i = true → issues i = false) (hsame : ∀ j, w'.stored j = w.stored j) :
      Puts w id issues record text time c (w'.archive a record text time c)

variable (fromStr timeText) in
theorem output_puts (issues : Issues) (text : Text) (now time : Int) (p : PruneCourse)
    (c : WriteCourse) (w : Writer) (id : Uuid) :
    Puts w id issues (outputRecord timeText now text) text time c
      (w.output fromStr timeText id issues text now time p c) := by
  unfold Writer.output
  dsimp only
  split
  · rename_i hfind
    exact .closed hfind
  · rename_i a hfind
    split
    · rename_i hflags
      rw [Bool.or_eq_true, Bool.or_eq_true] at hflags
      obtain (hissue | hissue) | hissue := hflags
      · exact .flagged .sessionLimit rfl hissue
      · exact .flagged .totalLimit rfl hissue
      · exact .flagged .diskError rfl hissue
    · rename_i hclear
      rw [Bool.or_eq_true, Bool.or_eq_true, not_or, not_or] at hclear
      split
      · exact .refused .sessionLimit rfl fun _ => rfl
      · generalize hroom : (if w.overTotal (outputRecord timeText now text).length
              (footerReserve * w.archives.length) = true
            then w.prune fromStr 0 (outputRecord timeText now text).length p else (w, true)) = r
        have hsame : ∀ j, r.1.stored j = w.stored j := by
          intro j
          rw [← hroom]
          split
          · exact prune_stored fromStr _ _ p w j
          · rfl
        split
        · exact .refused .diskError rfl hsame
        · split
          · exact .refused .totalLimit rfl hsame
          · refine .archives hfind (fun i hi => ?_) hsame
            rw [← Bool.not_eq_true]
            cases i with
            | sessionLimit => exact hclear.1.1
            | totalLimit => exact hclear.1.2
            | diskError => exact hclear.2
            | queueFull => cases hi
            | workerStopped => cases hi
            | drainTimeout => cases hi

end Files

end VivadoServer.Diagnostics
