/-
  VivadoServer.Workspace.Snapshot

  A tree that nobody changes, and what an archive of it has to hold: every directory and
  every regular file with one link below the requested directory, as long as all names on
  the way can be shown (`Below`).  `walk` goes through a tree in the order of `pack` and
  gives up where a path is too long, a directory too large or too deep.
-/

import VivadoServer.Workspace.Inside

namespace VivadoServer.Workspace

open Sync
open UnixPath (Bytes dot fileName)
open Openat

structure Snapshot (Obj : Type) where
  kind : Obj → Kind
  /-- The file has one link. -/
  single : Obj → Bool
  bytes : Obj → Bytes
  children : Obj → List (Bytes × Obj)
  /-- The entries in the order of `readdir`. -/
  listing : Obj → List Bytes
  nodup : ∀ d, ((children d).map Prod.fst).Nodup
  listed : ∀ d, (listing d).Perm ([dot] :: [dot, dot] :: (children d).map Prod.fst)

/-- The text of a name that can be shown. -/
def shownName (bytes : Bytes) : Option String := (toStr bytes).filter validSegment

/-- A path below the requested directory, and what stands there. -/
abbrev Item (Obj : Type) := List String × Obj

namespace Snapshot

variable {Obj : Type} (tree : Snapshot Obj)

def supported (o : Obj) : Bool := tree.kind o == .directory || (tree.kind o == .regular && tree.single o)

/-- The child of a name, unless it is skipped. -/
def child (d : Obj) (name : String) : Option Obj :=
  ((tree.children d).lookup (fileName name)).filter tree.supported

/-- The names of a directory that can be shown. -/
def names (d : Obj) : List String :=
  ((tree.listing d).filterMap shownName).mergeSort fun a b => decide (a ≤ b)

inductive Below : Obj → List String → Obj → Prop
  | here {d name o} (valid : validSegment name = true) (found : tree.child d name = some o) :
      Below d [name] o
  | deeper {d name c rest o} (valid : validSegment name = true) (found : tree.child d name = some c)
      (real : tree.kind c = .directory) (below : Below c rest o) : Below d (name :: rest) o

def scanFits (d : Obj) : Prop := (tree.listing d).length ≤ MAX_ENTRIES + 2

/-- Directories are nested less than `left` deep, all can be scanned, and no path is too long. -/
structure Bounded (left : Nat) (d : Obj) (path : List String) : Prop where
  left_pos : 0 < left
  scan : tree.scanFits d
  size : ∀ rest o, tree.Below d rest o → (join (path ++ rest)).utf8ByteSize ≤ 4096
  deep : ∀ rest o, tree.Below d rest o → tree.kind o = .directory → rest.length < left ∧ tree.scanFits o

def size (o : Obj) : Nat := if tree.kind o = .directory then 0 else (tree.bytes o).length

/-- The limits of an archive of a directory. -/
def Within (d : Obj) : Prop :=
  tree.Bounded (MAX_DEPTH + 1) d [] ∧ ∃ items : List (Item Obj), items.Nodup ∧
    (∀ q o, (q, o) ∈ items ↔ tree.Below d q o) ∧ items.length ≤ MAX_ENTRIES ∧
    (items.map fun item => tree.size item.2).sum ≤ MAX_ARCHIVE_BYTES

def entryOf (item : Item Obj) : ZipEntry :=
  if tree.kind item.2 = .directory then ⟨join item.1 ++ "/", none⟩
  else ⟨join item.1, some (tree.bytes item.2)⟩

/-- One entry for everything below the directory and no other, directories before what they hold. -/
structure Complete (d : Obj) (zip : List ZipEntry) : Prop where
  entries : ∀ entry, entry ∈ zip ↔ ∃ q o, tree.Below d q o ∧ entry = tree.entryOf (q, o)
  once : (zip.map ZipEntry.name).Nodup
  parents : ∀ before q name o after, zip = before ++ tree.entryOf (q ++ [name], o) :: after →
    tree.Below d (q ++ [name]) o → q ≠ [] →
    ∃ c, tree.Below d q c ∧ tree.kind c = .directory ∧ tree.entryOf (q, c) ∈ before

/-- The directory of a name. -/
def subdirectory (d : Obj) (name : Bytes) : Option Obj :=
  ((tree.children d).lookup name).filter fun o => tree.kind o == .directory

/-! ## Going through a tree -/

def walkNames (descend : Obj → List String → Option (List (Item Obj))) (d : Obj) (path : List String) :
    List String → Option (List (Item Obj))
  | [] => some []
  | name :: rest =>
    match tree.child d name with
    | none => walkNames descend d path rest
    | some o =>
      if 4096 < (join (path ++ [name])).utf8ByteSize then none
      else
        match if tree.kind o = .directory then descend o (path ++ [name]) else some [],
          walkNames descend d path rest with
        | some inner, some more => some ((path ++ [name], o) :: inner ++ more)
        | _, _ => none

def walk : Nat → Obj → List String → Option (List (Item Obj))
  | 0, _, _ => none
  | left + 1, d, path =>
    if MAX_ENTRIES + 2 < (tree.listing d).length then none
    else tree.walkNames (walk left) d path (tree.names d)

section Names

variable {tree : Snapshot Obj} {d o c : Obj} {name : String}

theorem toStr_fileName (name : String) : toStr (fileName name) = some name := by
  have hbytes : (fileName name).toByteArray = name.toByteArray := by
    rw [fileName, ← List.utf8Encode, String.utf8Encode_toList]
  unfold toStr String.fromUTF8?
  rw [hbytes, dif_pos name.isValidUTF8]
  rfl

theorem valid_of_mem_names (h : name ∈ tree.names d) : validSegment name = true := by
  obtain ⟨bytes, -, hname⟩ := List.mem_filterMap.mp (List.mem_mergeSort.mp h)
  exact (Option.filter_eq_some_iff.mp hname).2

theorem mem_names (hvalid : validSegment name = true) (h : tree.child d name = some o) : name ∈ tree.names d := by
  have hlookup := (Option.filter_eq_some_iff.mp h).1
  obtain ⟨before, after, hchildren, -⟩ := List.lookup_eq_some_iff.mp hlookup
  have hmem : fileName name ∈ (tree.children d).map Prod.fst := by
    rw [hchildren]
    simp
  have hlisted : fileName name ∈ tree.listing d :=
    (tree.listed d).mem_iff.mpr (List.mem_cons_of_mem _ (List.mem_cons_of_mem _ hmem))
  apply List.mem_mergeSort.mpr
  apply List.mem_filterMap.mpr
  exact ⟨fileName name, hlisted, by rw [shownName, toStr_fileName, Option.filter_some, if_pos hvalid]⟩

end Names

section Walk

variable {tree : Snapshot Obj} {d o c : Obj} {name : String} {path rest q : List String} {left : Nat}
  {descend : Obj → List String → Option (List (Item Obj))} {found : List String} {items : List (Item Obj)}

theorem Bounded.child (h : tree.Bounded (left + 1) d path) (hvalid : validSegment name = true)
    (hchild : tree.child d name = some c) (hreal : tree.kind c = .directory) :
    tree.Bounded left c (path ++ [name]) := by
  obtain ⟨hdepth, hscan⟩ := h.deep [name] c (.here hvalid hchild) hreal
  refine ⟨Nat.lt_of_succ_lt_succ hdepth, hscan, ?_, ?_⟩
  · intro rest o hbelow
    have hsize := h.size (name :: rest) o (.deeper hvalid hchild hreal hbelow)
    rwa [List.append_assoc]
  · intro rest o hbelow hdir
    obtain ⟨hlength, hfits⟩ := h.deep (name :: rest) o (.deeper hvalid hchild hreal hbelow) hdir
    exact ⟨Nat.lt_of_succ_lt_succ hlength, hfits⟩

/-- What has to hold of a child. -/
def ChildFits (tree : Snapshot Obj) (descend : Obj → List String → Option (List (Item Obj))) (d : Obj)
    (path : List String) (name : String) : Prop :=
  ∀ c, tree.child d name = some c → (join (path ++ [name])).utf8ByteSize ≤ 4096 ∧
    (tree.kind c = .directory → (descend c (path ++ [name])).isSome)

theorem walkNames_isSome : (tree.walkNames descend d path found).isSome ↔
    ∀ name ∈ found, ChildFits tree descend d path name := by
  induction found with
  | nil => simp [walkNames]
  | cons name rest ih =>
      rw [List.forall_mem_cons, ← ih, walkNames, ChildFits]
      cases tree.child d name with
      | none => simp
      | some c =>
          dsimp only
          by_cases hsize : 4096 < (join (path ++ [name])).utf8ByteSize
          · rw [if_pos hsize]
            constructor
            · intro h
              cases h
            · rintro ⟨h, -⟩
              exact absurd (h c rfl).1 (Nat.not_le.mpr hsize)
          · rw [if_neg hsize]
            by_cases hreal : tree.kind c = .directory
            · rw [if_pos hreal]
              cases hdescend : descend c (path ++ [name]) <;>
                cases tree.walkNames descend d path rest <;> simp_all
            · rw [if_neg hreal]
              cases tree.walkNames descend d path rest <;> simp_all

/-- The items that a child adds. -/
def ChildItem (tree : Snapshot Obj) (descend : Obj → List String → Option (List (Item Obj))) (d : Obj)
    (path : List String) (name : String) (item : Item Obj) : Prop :=
  ∃ c, tree.child d name = some c ∧ (item = (path ++ [name], c) ∨
    tree.kind c = .directory ∧ ∃ inner, descend c (path ++ [name]) = some inner ∧ item ∈ inner)

theorem walkNames_cons (h : tree.walkNames descend d path (name :: found) = some items) :
    tree.child d name = none ∧ tree.walkNames descend d path found = some items ∨
      ∃ c inner more, tree.child d name = some c ∧
        (if tree.kind c = .directory then descend c (path ++ [name]) else some []) = some inner ∧
        tree.walkNames descend d path found = some more ∧ items = (path ++ [name], c) :: inner ++ more := by
  rw [walkNames] at h
  split at h
  · rename_i hnone
    exact .inl ⟨hnone, h⟩
  · rename_i c hc
    split at h
    · cases h
    · split at h
      · rename_i inner more hinner hmore
        exact .inr ⟨c, inner, more, hc, hinner, hmore, (Option.some.inj h).symm⟩
      · cases h

theorem mem_walkNames (h : tree.walkNames descend d path found = some items) {item : Item Obj} :
    item ∈ items ↔ ∃ name ∈ found, ChildItem tree descend d path name item := by
  induction found generalizing items with
  | nil =>
      obtain rfl := Option.some.inj h
      simp
  | cons name rest ih =>
      simp only [List.mem_cons, exists_eq_or_imp]
      obtain ⟨hnone, hrest⟩ | ⟨c, inner, more, hc, hinner, hmore, rfl⟩ := walkNames_cons h
      · rw [ih hrest]
        constructor
        · exact .inr
        · rintro (⟨c, hc, -⟩ | hlater)
          · rw [hnone] at hc
            cases hc
          · exact hlater
      · rw [List.cons_append, List.mem_cons, List.mem_append, ih hmore, ← or_assoc]
        apply or_congr_left
        constructor
        · rintro (rfl | hmem)
          · exact ⟨c, hc, .inl rfl⟩
          · by_cases hreal : tree.kind c = .directory
            · rw [if_pos hreal] at hinner
              exact ⟨c, hc, .inr ⟨hreal, inner, hinner, hmem⟩⟩
            · rw [if_neg hreal] at hinner
              obtain rfl := Option.some.inj hinner
              cases hmem
        · rintro ⟨c', hc', hitem⟩
          obtain rfl := Option.some.inj (hc.symm.trans hc')
          obtain rfl | ⟨hreal, inner', hinner', hmem⟩ := hitem
          · exact .inl rfl
          · rw [if_pos hreal, hinner'] at hinner
            exact .inr (Option.some.inj hinner ▸ hmem)

/-- The items of a walk are what stands below the directory. -/
theorem mem_walk (h : tree.walk left d path = some items) :
    (q, o) ∈ items ↔ ∃ rest, tree.Below d rest o ∧ q = path ++ rest := by
  induction left generalizing d path items q o with
  | zero => cases h
  | succ left ih =>
      rw [walk] at h
      split at h
      · cases h
      rw [mem_walkNames h]
      constructor
      · rintro ⟨name, hname, c, hc, heq | ⟨hreal, inner, hinner, hmem⟩⟩
        · obtain ⟨rfl, rfl⟩ := Prod.mk.inj heq
          exact ⟨[name], .here (valid_of_mem_names hname) hc, rfl⟩
        · obtain ⟨rest, hbelow, rfl⟩ := (ih hinner).mp hmem
          exact ⟨name :: rest, .deeper (valid_of_mem_names hname) hc hreal hbelow, List.append_assoc ..⟩
      · rintro ⟨rest, hbelow, rfl⟩
        cases hbelow with
        | @here _ name _ hvalid hfound =>
            exact ⟨name, mem_names hvalid hfound, o, hfound, .inl rfl⟩
        | @deeper _ name c rest _ hvalid hfound hreal hbelow =>
            have hname := mem_names hvalid hfound
            have hsome : (tree.walkNames (tree.walk left) d path (tree.names d)).isSome := by
              rw [h]
              rfl
            obtain ⟨inner, hinner⟩ := Option.isSome_iff_exists.mp
              ((walkNames_isSome.mp hsome name hname c hfound).2 hreal)
            refine ⟨name, hname, c, hfound, .inr ⟨hreal, inner, hinner, ?_⟩⟩
            exact (ih hinner).mpr ⟨rest, hbelow, List.append_cons path name rest⟩

/-! ## The order of the items -/

/-- What does not stand in the directory itself comes after the directory it stands in. -/
def ParentsFirst (path : List String) (items : List (Item Obj)) : Prop :=
  ∀ before q name o after, items = before ++ (q ++ [name], o) :: after → q ≠ path → ∃ c, (q, c) ∈ before

theorem Below.ne_nil (h : tree.Below d q o) : q ≠ [] := by
  cases h with
  | here _ _ => exact List.cons_ne_nil _ _
  | deeper _ _ _ _ => exact List.cons_ne_nil _ _

theorem ParentsFirst.append {inner more : List (Item Obj)} (hinner : ParentsFirst (path ++ [name]) inner)
    (hmore : ParentsFirst path more) : ParentsFirst path ((path ++ [name], c) :: inner ++ more) := by
  intro before q last o after heq hq
  cases before with
  | nil =>
      obtain ⟨hhead, -⟩ := List.cons_eq_cons.mp heq
      obtain ⟨hpath, -⟩ := List.append_inj' (Prod.mk.inj hhead).1 rfl
      exact absurd hpath.symm hq
  | cons head before =>
      obtain ⟨rfl, hrest⟩ := List.cons_eq_cons.mp heq
      obtain ⟨later, rfl, hlater⟩ | ⟨later, hlater, hafter⟩ := List.append_eq_append_iff.mp hrest
      · obtain ⟨c', hc'⟩ := hmore later q last o after hlater hq
        exact ⟨c', List.mem_cons_of_mem _ (List.mem_append_right inner hc')⟩
      · cases later with
        | nil =>
            obtain ⟨c', hc'⟩ := hmore [] q last o after hafter.symm hq
            cases hc'
        | cons head later =>
            obtain ⟨rfl, -⟩ := List.cons_eq_cons.mp hafter
            by_cases hchild : q = path ++ [name]
            · exact ⟨c, hchild ▸ List.mem_cons_self⟩
            · obtain ⟨c', hc'⟩ := hinner before q last o later hlater hchild
              exact ⟨c', List.mem_cons_of_mem _ hc'⟩

theorem Below.valid (h : tree.Below d q o) : ∀ name ∈ q, validSegment name = true := by
  induction h with
  | here hvalid _ =>
      intro name hname
      exact List.mem_singleton.mp hname ▸ hvalid
  | deeper hvalid _ _ _ ih =>
      intro name hname
      obtain rfl | hrest := List.mem_cons.mp hname
      · exact hvalid
      · exact ih name hrest

theorem validSegment_ne_empty (h : validSegment name = true) : name ≠ "" := by
  rintro rfl
  exact absurd h (by decide +kernel)

theorem validSegment_slash (h : validSegment name = true) : '/' ∉ name.toList := by
  simp only [validSegment, Bool.and_eq_true, Bool.not_eq_true', List.any_eq_false] at h
  intro hslash
  exact h.2 '/' hslash (by decide)

theorem Below.segments_join (h : tree.Below d q o) : segments (join q) = q :=
  Sync.segments_join h.ne_nil fun name hname => validSegment_slash (h.valid name hname)

/-- The path of an entry, without the slash of a directory. -/
theorem segments_entry (h : tree.Below d q o) : segments (tree.entryOf (q, o)).name = q ∨
    segments (tree.entryOf (q, o)).name = q ++ [""] := by
  unfold entryOf
  split
  · right
    have hslash : join q ++ "/" = join q ++ "/" ++ "" := by simp
    have hempty : segments "" = [""] := by decide +kernel
    show segments (join q ++ "/") = _
    rw [hslash, segments_append, h.segments_join, hempty]
  · exact .inl h.segments_join

/-- An entry tells its path. -/
theorem entryOf_path {q' : List String} {o' : Obj} (h : tree.Below d q o) (h' : tree.Below d q' o')
    (hname : (tree.entryOf (q, o)).name = (tree.entryOf (q', o')).name) : q = q' := by
  have hlast : ∀ {q : List String} {o : Obj}, tree.Below d q o → ∀ p, q ≠ p ++ [""] := by
    rintro q o hbelow p rfl
    exact validSegment_ne_empty (hbelow.valid "" (List.mem_append_right p List.mem_cons_self)) rfl
  obtain hq | hq := segments_entry h <;> obtain hq' | hq' := segments_entry h' <;>
    rw [hname, hq'] at hq
  · exact hq.symm
  · exact absurd hq.symm (hlast h q')
  · exact absurd hq (hlast h' q)
  · exact (List.append_cancel_right hq).symm

theorem Below.unique {o' : Obj} (h : tree.Below d q o) (h' : tree.Below d q o') : o = o' := by
  induction h with
  | here _ hfound =>
      cases h' with
      | here _ hfound' => exact Option.some.inj (hfound.symm.trans hfound')
      | deeper _ _ _ hbelow => exact absurd rfl hbelow.ne_nil
  | deeper _ hfound _ hbelow ih =>
      cases h' with
      | here _ _ => exact absurd rfl hbelow.ne_nil
      | deeper _ hfound' _ hbelow' =>
          obtain rfl := Option.some.inj (hfound.symm.trans hfound')
          exact ih hbelow'

/-- What stands above something is a directory. -/
theorem Below.parent {p : List String} (h : tree.Below d p o) (hc : tree.Below d q c) (hp : p = q ++ [name]) :
    tree.kind c = .directory := by
  induction hc generalizing p with
  | here _ hfound =>
      cases h with
      | here _ _ => exact absurd (congrArg List.length hp) (by simp)
      | deeper _ hfound' hreal _ =>
          obtain ⟨rfl, -⟩ := List.cons_eq_cons.mp hp
          obtain rfl := Option.some.inj (hfound.symm.trans hfound')
          exact hreal
  | deeper _ hfound _ hbelow ih =>
      cases h with
      | here _ _ => exact absurd (List.cons_eq_cons.mp hp).2 (by simp)
      | deeper _ hfound' _ hbelow' =>
          obtain ⟨rfl, hrest⟩ := List.cons_eq_cons.mp hp
          obtain rfl := Option.some.inj (hfound.symm.trans hfound')
          exact ih hbelow' hrest

end Walk

end Snapshot

end VivadoServer.Workspace
