/-
  VivadoServer.Lib.Replacement

  Turning one tree into another by single edits.  Files and directories that are
  in the way are removed first, directories deepest first, then directories are
  made, parents first, and files are put in place.  When the four lists say what
  changes between the two trees, no edit fails and the last tree is known path by
  path.

  Edits are described on views, what stands at each path, and carried over to
  finite trees.
-/

import VivadoServer.Lib.FileTree
import VivadoServer.Lib.Fold
import Mathlib.Data.List.Nodup
import Mathlib.Logic.Function.Basic

namespace FileTree

variable {N α : Type*}

/-- What stands at each path. -/
abbrev View (N α : Type*) := List N → Option (Node α)

/-- Things stand only in directories. -/
structure View.Closed (v : View N α) : Prop where
  root : v [] = some .dir
  parent : ∀ {p n}, v (p ++ [n]) ≠ none → v p = some .dir

section Closed

variable {v : View N α} {p q : List N}

theorem View.Closed.above (h : v.Closed) (hq : q ≠ []) (hview : v (p ++ q) ≠ none) :
    v p = some .dir := by
  induction q using List.reverseRecOn with
  | nil => exact absurd rfl hq
  | append_singleton q n ih =>
      rw [← List.append_assoc] at hview
      have hdir := h.parent hview
      by_cases hempty : q = []
      · rwa [hempty, List.append_nil] at hdir
      · exact ih hempty (by rw [hdir]; rintro ⟨⟩)

/-- Nothing stands below a free place. -/
theorem View.Closed.below_free (h : v.Closed) (hfree : v p = none) (q : List N) :
    v (p ++ q) = none := by
  by_cases hq : q = []
  · rw [hq, List.append_nil, hfree]
  · by_contra hview
    have hdir := h.above hq hview
    rw [hfree] at hdir
    cases hdir

/-- A path is the root or in a directory. -/
theorem View.Closed.split (h : v.Closed) (hview : v p ≠ some .dir) : ∃ q n, p = q ++ [n] := by
  obtain rfl | ⟨q, n, rfl⟩ := List.eq_nil_or_concat p
  · exact absurd h.root hview
  · exact ⟨q, n, List.concat_eq_append ..⟩

end Closed

/-! ## Edits -/

inductive Edit (N α : Type*) where
  | removeFile (path : List N)
  | removeDir (path : List N)
  | makeDir (path : List N)
  | putFile (path : List N) (data : α)
deriving DecidableEq, Repr

namespace Edit

def path : Edit N α → List N
  | removeFile p | removeDir p | makeDir p | putFile p _ => p

/-- What stands at the path afterwards. -/
def leaves : Edit N α → Option (Node α)
  | removeFile _ | removeDir _ => none
  | makeDir _ => some .dir
  | putFile _ data => some (.file data)

/-- The edit can be done: what it removes is there, a directory it removes is
    empty, a directory it makes has a free place, and a file it puts in place
    does not meet a directory. -/
def Enabled (v : View N α) : Edit N α → Prop
  | removeFile p => ∃ data, v p = some (.file data)
  | removeDir p => p ≠ [] ∧ v p = some .dir ∧ ∀ n, v (p ++ [n]) = none
  | makeDir p => ∃ q n, p = q ++ [n] ∧ v q = some .dir ∧ v p = none
  | putFile p _ => ∃ q n, p = q ++ [n] ∧ v q = some .dir ∧ v p ≠ some .dir

variable [DecidableEq N]

def apply (e : Edit N α) (v : View N α) : View N α := Function.update v e.path e.leaves

/-- Every edit can be done when its turn comes. -/
def Runs : View N α → List (Edit N α) → View N α → Prop
  | v, [], v' => v' = v
  | v, e :: l, v' => e.Enabled v ∧ Runs (e.apply v) l v'

theorem runs_append {v v' v'' : View N α} {l l' : List (Edit N α)} (h : Runs v l v')
    (h' : Runs v' l' v'') : Runs v (l ++ l') v'' := by
  induction l generalizing v with
  | nil =>
      cases h
      exact h'
  | cons e l ih => exact ⟨h.1, ih h.2⟩

/-- A phase of edits whose views are known beforehand. -/
theorem runs_phase {β : Type*} {l : List β} (f : β → Edit N α) (phase : List β → View N α)
    (hround : ∀ past b rest, l = past ++ b :: rest →
      (f b).Enabled (phase past) ∧ (f b).apply (phase past) = phase (past ++ [b])) :
    Runs (phase []) (l.map f) (phase l) := by
  suffices hrest : ∀ rest past, l = past ++ rest → Runs (phase past) (rest.map f) (phase l) from
    hrest l [] rfl
  intro rest
  induction rest with
  | nil =>
      intro past hl
      rw [hl, List.append_nil]
      rfl
  | cons b rest ih =>
      intro past hl
      obtain ⟨henabled, happly⟩ := hround past b rest hl
      refine ⟨henabled, ?_⟩
      rw [happly]
      exact ih (past ++ [b]) (by rw [hl, List.append_assoc]; rfl)

end Edit

/-! ## What stands in a tree -/

namespace Tree

section Views

variable [DecidableEq N] {t : Tree N α} {p q : List N} {data : α}

theorem view_closed (t : Tree N α) : View.Closed t.view where
  root := view_nil t
  parent h := view_parent h

theorem get_eq_file (h : t.view p = some (.file data)) : t.get p = some (.file data) := by
  rw [view, Option.map_eq_some_iff] at h
  obtain ⟨item, hitem, hnode⟩ := h
  cases item with
  | file data' =>
      cases hnode
      exact hitem
  | dir => cases hnode

theorem get_eq_dir (h : t.view p = some .dir) : ∃ children, t.get p = some (.dir children) := by
  rw [view, Option.map_eq_some_iff] at h
  obtain ⟨item, hitem, hnode⟩ := h
  cases item with
  | file => cases hnode
  | dir children => exact ⟨children, hitem⟩

/-- A directory without entries holds nothing. -/
theorem get_eq_empty (h : t.view p = some .dir) (hempty : ∀ n, t.view (p ++ [n]) = none) :
    t.get p = some (.dir .nil) := by
  obtain ⟨children, hget⟩ := get_eq_dir h
  have hchild : ∀ n, children.get [n] = none := by
    intro n
    have hnone := hempty n
    rwa [← get_eq_none_iff, get_append, hget, Option.bind_some, Item.get] at hnone
  cases children with
  | nil => exact hget
  | file m data rest => exact absurd (hchild m) (by simp [get])
  | dir m children rest => exact absurd (hchild m) (by simp [get])

/-- Removing what holds nothing changes one path. -/
theorem view_remove_update (hvalid : t.Valid) (hp : p ≠ []) (hbelow : ∀ q, q ≠ [] → t.view (p ++ q) = none) :
    (t.remove p).view = Function.update t.view p none := by
  funext q
  by_cases hqp : q = p
  · rw [hqp, Function.update_self]
    exact view_remove_self hvalid hp
  · rw [Function.update_of_ne hqp]
    by_cases hpre : p <+: q
    · rw [view_remove_below hvalid hp hpre]
      obtain ⟨rest, rfl⟩ := hpre
      refine (hbelow rest ?_).symm
      rintro rfl
      exact hqp (List.append_nil p)
    · exact view_remove_other hpre

/-- Nothing stands below a file, nor below what is missing. -/
theorem view_below (h : t.view p ≠ some .dir) (hq : q ≠ []) : t.view (p ++ q) = none := by
  by_contra hview
  exact h (view_above hview hq)

theorem view_below_empty (hempty : ∀ n, t.view (p ++ [n]) = none) (hq : q ≠ []) :
    t.view (p ++ q) = none := by
  obtain ⟨n, q, rfl⟩ := List.exists_cons_of_ne_nil hq
  have hget := get_eq_none_iff.mpr (hempty n)
  rw [show p ++ n :: q = (p ++ [n]) ++ q by simp]
  exact view_eq_none_of_get hget

end Views

end Tree

/-! ## Edits of a tree -/

namespace Tree

variable [DecidableEq N] [LT N] [DecidableLT N]

/-- The edit of a tree, or the edit that cannot be done. -/
def edit (t : Tree N α) (e : Edit N α) : Except (Edit N α) (Tree N α) :=
  match e with
  | .removeFile p =>
    match t.get p with
    | some (.file _) => .ok (t.remove p)
    | _ => .error e
  | .removeDir p =>
    match p, t.get p with
    | _ :: _, some (.dir .nil) => .ok (t.remove p)
    | _, _ => .error e
  | .makeDir p =>
    match t.view p.dropLast, t.view p with
    | some .dir, none => .ok (t.insert p (.dir .nil))
    | _, _ => .error e
  | .putFile p data =>
    match t.view p.dropLast, t.view p with
    | _, some .dir => .error e
    | some .dir, _ => .ok (t.put p data)
    | _, _ => .error e

def edits (t : Tree N α) (l : List (Edit N α)) : Except (Edit N α) (Tree N α) := l.foldlM edit t

section Refine

variable {t : Tree N α} {p : List N} {n : N} {l : List (Edit N α)} {v : View N α}

/-- Putting in something that holds nothing changes one path. -/
theorem view_insert_update {item : Item N α} (hfree : t.view (p ++ [n]) = none)
    (hparent : t.view p = some .dir) (hitem : ∀ k q, item.get (k :: q) = none) :
    (t.insert (p ++ [n]) item).view = Function.update t.view (p ++ [n]) (some item.node) := by
  have hbelow : ∀ q, (t.insert (p ++ [n]) item).get (p ++ [n] ++ q) = item.get q := fun q =>
    get_insert_below (get_eq_none_iff.mpr hfree) hparent
  funext q
  by_cases hq : q = p ++ [n]
  · rw [hq, Function.update_self]
    have hself := hbelow []
    rw [List.append_nil] at hself
    rw [view, hself]
    cases item with
    | file data => rfl
    | dir children => rw [Item.get, get_nil]; rfl
  · rw [Function.update_of_ne hq]
    by_cases hpre : p ++ [n] <+: q
    · obtain ⟨rest, rfl⟩ := hpre
      cases rest with
      | nil => exact absurd (List.append_nil _) hq
      | cons k rest =>
          rw [view, hbelow, hitem, view_below (by rw [hfree]; rintro ⟨⟩) (List.cons_ne_nil _ _)]
          rfl
    · exact view_insert_other hpre

/-- Putting a file in place changes what stands there. -/
theorem put_spec {a : α} (hvalid : t.Valid) (hparent : t.view p = some .dir)
    (hfile : t.view (p ++ [n]) ≠ some .dir) : (t.put (p ++ [n]) a).Valid ∧
      (t.put (p ++ [n]) a).view = Function.update t.view (p ++ [n]) (some (.file a)) := by
  have hp : p ++ [n] ≠ [] := by simp
  have hremoved : (t.remove (p ++ [n])).view = Function.update t.view (p ++ [n]) none :=
    view_remove_update hvalid hp fun r hr => view_below hfile hr
  have hfree : (t.remove (p ++ [n])).view (p ++ [n]) = none := by
    rw [hremoved, Function.update_self]
  have hparent' : (t.remove (p ++ [n])).view p = some .dir := by
    rw [hremoved, Function.update_of_ne (by simp), hparent]
  constructor
  · exact valid_insert (valid_remove hvalid _) trivial (get_eq_none_iff.mpr hfree) hparent'
  · rw [put, view_insert_update hfree hparent' fun _ _ => rfl, hremoved, Function.update_idem]
    rfl

/-- An edit that can be done is done, and changes what stands at its path. -/
theorem edit_of_enabled {e : Edit N α} (hvalid : t.Valid) (h : e.Enabled t.view) :
    ∃ t', t.edit e = .ok t' ∧ t'.Valid ∧ t'.view = e.apply t.view := by
  cases e with
  | removeFile p =>
      obtain ⟨data, hview⟩ := h
      have hp : p ≠ [] := by
        rintro rfl
        rw [view_nil] at hview
        cases hview
      refine ⟨t.remove p, by simp only [edit, get_eq_file hview], valid_remove hvalid p, ?_⟩
      exact view_remove_update hvalid hp fun q hq => view_below (by rw [hview]; rintro ⟨⟩) hq
  | removeDir p =>
      obtain ⟨hp, hview, hempty⟩ := h
      refine ⟨t.remove p, ?_, valid_remove hvalid p, ?_⟩
      · obtain ⟨n, p, rfl⟩ := List.exists_cons_of_ne_nil hp
        simp only [edit, get_eq_empty hview hempty]
      · exact view_remove_update hvalid hp fun q hq => view_below_empty hempty hq
  | makeDir p =>
      obtain ⟨q, n, rfl, hparent, hfree⟩ := h
      refine ⟨t.insert (q ++ [n]) (.dir .nil), ?_, ?_, ?_⟩
      · simp only [edit, List.dropLast_concat, hparent, hfree]
      · exact valid_insert hvalid trivial (get_eq_none_iff.mpr hfree) hparent
      · exact view_insert_update hfree hparent fun _ _ => rfl
  | putFile p data =>
      obtain ⟨q, n, rfl, hparent, hfile⟩ := h
      obtain ⟨hvalid', hview'⟩ := put_spec hvalid hparent hfile (a := data)
      refine ⟨t.put (q ++ [n]) data, ?_, hvalid', hview'⟩
      cases hview : t.view (q ++ [n]) with
      | none => simp only [edit, List.dropLast_concat, hparent, hview]
      | some node =>
          cases node with
          | dir => exact absurd hview hfile
          | file => simp only [edit, List.dropLast_concat, hparent, hview]

/-- Edits that run on what stands at each path run on the tree. -/
theorem edits_of_runs (hvalid : t.Valid) (h : Edit.Runs t.view l v) :
    ∃ t', t.edits l = .ok t' ∧ t'.Valid ∧ t'.view = v := by
  induction l generalizing t with
  | nil =>
      cases h
      exact ⟨t, rfl, hvalid, rfl⟩
  | cons e l ih =>
      obtain ⟨t', hedit, hvalid', hview⟩ := edit_of_enabled hvalid h.1
      obtain ⟨t'', hedits, hvalid'', hlast⟩ := ih hvalid' (hview ▸ h.2)
      refine ⟨t'', ?_, hvalid'', hlast⟩
      rw [edits, List.foldlM_cons, hedit]
      exact hedits

end Refine

end Tree

/-! ## Replacing one tree by another -/

/-- The lists of a replacement of `old` by `new`, where of what `new` does not name
    that which is `gone` is removed. -/
structure Replacement (old new : View N α) (gone : List N → Prop) where
  deleteFiles : List (List N)
  deleteDirs : List (List N)
  createDirs : List (List N)
  putFiles : List (List N × α)
  mem_deleteFiles : ∀ {p}, p ∈ deleteFiles ↔
    (∃ data, old p = some (.file data)) ∧ (new p = some .dir ∨ new p = none ∧ gone p)
  mem_deleteDirs : ∀ {p}, p ∈ deleteDirs ↔
    old p = some .dir ∧ ((∃ data, new p = some (.file data)) ∨ new p = none ∧ gone p)
  mem_createDirs : ∀ {p}, p ∈ createDirs ↔ new p = some .dir ∧ old p ≠ some .dir
  mem_putFiles : ∀ {p data}, (p, data) ∈ putFiles ↔
    new p = some (.file data) ∧ old p ≠ some (.file data)
  nodup_deleteFiles : deleteFiles.Nodup
  nodup_deleteDirs : deleteDirs.Nodup
  nodup_createDirs : createDirs.Nodup
  nodup_putFiles : (putFiles.map (·.1)).Nodup
  deepestFirst : deleteDirs.Pairwise fun a b => ¬ a <+: b
  parentsFirst : createDirs.Pairwise fun a b => ¬ b <+: a

namespace Replacement

variable {old new : View N α} {gone : List N → Prop}

def edits (r : Replacement old new gone) : List (Edit N α) :=
  r.deleteFiles.map .removeFile ++ r.deleteDirs.map .removeDir ++
    (r.createDirs.map .makeDir ++ r.putFiles.map fun put => .putFile put.1 put.2)

/-- What the replacement leaves: what is named, and what is not named and not gone. -/
structure Leaves (old new : View N α) (gone : List N → Prop) (v : View N α) : Prop where
  named : ∀ {p}, new p ≠ none → v p = new p
  removed : ∀ {p}, new p = none → gone p → v p = none
  kept : ∀ {p}, new p = none → ¬ gone p → v p = old p

/-- What is below a file that is named is gone, and so is what is below what is gone. -/
structure Fits (old new : View N α) (gone : List N → Prop) : Prop where
  oldClosed : old.Closed
  newClosed : new.Closed
  below : ∀ {p q data}, new p = some (.file data) → q ≠ [] → gone (p ++ q)
  closed : ∀ {p q}, gone p → new p = none → gone (p ++ q)

section Run

variable [DecidableEq N]

/-- A view with the same thing at each path of a list. -/
def overlay (l : List (List N)) (x : Option (Node α)) (v : View N α) : View N α := fun p =>
  if p ∈ l then x else v p

theorem overlay_nil (x : Option (Node α)) (v : View N α) : overlay [] x v = v := by
  funext p
  simp [overlay]

theorem overlay_append {l : List (List N)} {x : Option (Node α)} {v : View N α} {p : List N} :
    Function.update (overlay l x v) p x = overlay (l ++ [p]) x v := by
  funext q
  by_cases hq : q = p
  · simp [hq, overlay]
  · simp [overlay, hq]

/-- A view with files put in place. -/
def overlayFiles (l : List (List N × α)) (v : View N α) : View N α := fun p =>
  match l.find? (·.1 = p) with
  | some put => some (.file put.2)
  | none => v p

theorem overlayFiles_append {l : List (List N × α)} {put : List N × α} {v : View N α}
    (hnew : put.1 ∉ l.map (·.1)) :
    Function.update (overlayFiles l v) put.1 (some (.file put.2)) = overlayFiles (l ++ [put]) v := by
  funext q
  by_cases hq : q = put.1
  · have hnone : l.find? (·.1 = q) = none := by
      rw [List.find?_eq_none]
      intro put' hmem heq
      exact hnew (List.mem_map.mpr ⟨put', hmem, (of_decide_eq_true heq).trans hq⟩)
    rw [hq, Function.update_self, overlayFiles, List.find?_append, ← hq, hnone]
    simp [hq]
  · have hother : [put].find? (·.1 = q) = none := by simp [Ne.symm hq]
    rw [Function.update_of_ne hq, overlayFiles, overlayFiles, List.find?_append, hother]
    cases l.find? (·.1 = q) <;> rfl

theorem overlayFiles_mem {l : List (List N × α)} (hnodup : (l.map (·.1)).Nodup) {put : List N × α}
    (hmem : put ∈ l) (v : View N α) : overlayFiles l v put.1 = some (.file put.2) := by
  rw [overlayFiles]
  cases hfind : l.find? (·.1 = put.1) with
  | none =>
      rw [List.find?_eq_none] at hfind
      exact absurd (decide_eq_true rfl) (hfind put hmem)
  | some put' =>
      have heq : put'.1 = put.1 := by simpa using List.find?_some hfind
      rw [List.inj_on_of_nodup_map hnodup (List.mem_of_find?_eq_some hfind) hmem heq]

theorem overlayFiles_notMem {l : List (List N × α)} {p : List N} (hnew : p ∉ l.map (·.1))
    (v : View N α) : overlayFiles l v p = v p := by
  rw [overlayFiles]
  cases hfind : l.find? (·.1 = p) with
  | none => rfl
  | some put =>
      have heq : put.1 = p := by simpa using List.find?_some hfind
      exact absurd (List.mem_map.mpr ⟨put, List.mem_of_find?_eq_some hfind, heq⟩) hnew

/-! ### The four phases -/

variable (r : Replacement old new gone)

def filesDeleted : View N α := overlay r.deleteFiles none old

def dirsDeleted : View N α := overlay r.deleteDirs none r.filesDeleted

def dirsCreated : View N α := overlay r.createDirs (some .dir) r.dirsDeleted

def replaced : View N α := overlayFiles r.putFiles r.dirsCreated

variable {p : List N}

theorem dirsDeleted_eq_dir (hold : old p = some .dir) (hnew : new p = some .dir) :
    r.dirsDeleted p = some .dir := by
  have hdirs : p ∉ r.deleteDirs := by
    rw [r.mem_deleteDirs, hnew]
    simp
  have hfiles : p ∉ r.deleteFiles := by
    rw [r.mem_deleteFiles, hold]
    simp
  simp [dirsDeleted, filesDeleted, overlay, hdirs, hfiles, hold]

theorem dirsCreated_eq_dir (hnew : new p = some .dir) : r.dirsCreated p = some .dir := by
  by_cases hold : old p = some .dir
  · by_cases hcreate : p ∈ r.createDirs
    · simp [dirsCreated, overlay, hcreate]
    · simp only [dirsCreated, overlay, if_neg hcreate]
      exact r.dirsDeleted_eq_dir hold hnew
  · simp [dirsCreated, overlay, r.mem_createDirs.mpr ⟨hnew, hold⟩]

/-- What was in the way of a name is removed. -/
theorem dirsDeleted_ne_dir {data : α} (hnew : new p = some (.file data)) :
    r.dirsDeleted p ≠ some .dir := by
  by_cases hold : old p = some .dir
  · simp [dirsDeleted, overlay, r.mem_deleteDirs.mpr ⟨hold, .inl ⟨data, hnew⟩⟩]
  · simp only [dirsDeleted, filesDeleted, overlay]
    split
    · rintro ⟨⟩
    · split
      · rintro ⟨⟩
      · exact hold

theorem runs_deleteFiles : Edit.Runs old (r.deleteFiles.map .removeFile) r.filesDeleted := by
  rw [← congrArg (Edit.Runs · _ _) (overlay_nil none old)]
  refine Edit.runs_phase _ (fun past => overlay past none old) fun past p rest hl => ⟨?_, overlay_append⟩
  obtain ⟨⟨data, hold⟩, -⟩ := r.mem_deleteFiles.mp (hl ▸ List.mem_append_right _ (List.mem_cons_self ..))
  have hnodup := r.nodup_deleteFiles
  rw [hl, List.nodup_append] at hnodup
  have hnew : p ∉ past := fun hpast => hnodup.2.2 p hpast p (List.mem_cons_self ..) rfl
  exact ⟨data, by simp only [overlay, if_neg hnew, hold]⟩

/-- A directory is empty when its turn comes: what was in it came before. -/
theorem runs_deleteDirs (hfits : Fits old new gone) :
    Edit.Runs r.filesDeleted (r.deleteDirs.map .removeDir) r.dirsDeleted := by
  rw [← congrArg (Edit.Runs · _ _) (overlay_nil none r.filesDeleted)]
  refine Edit.runs_phase _ (fun past => overlay past none r.filesDeleted)
    fun past p rest hl => ⟨?_, overlay_append⟩
  have hmem : p ∈ r.deleteDirs := hl ▸ List.mem_append_right _ (List.mem_cons_self ..)
  obtain ⟨hold, hwhy⟩ := r.mem_deleteDirs.mp hmem
  have hnodup := r.nodup_deleteDirs
  rw [hl, List.nodup_append] at hnodup
  have hnew : p ∉ past := fun hpast => hnodup.2.2 p hpast p (List.mem_cons_self ..) rfl
  have hfile : p ∉ r.deleteFiles := by
    rw [r.mem_deleteFiles, hold]
    simp
  refine ⟨?_, ?_, fun n => ?_⟩
  · rintro rfl
    rw [hfits.newClosed.root] at hwhy
    simp at hwhy
  · simp only [overlay, if_neg hnew, filesDeleted, if_neg hfile, hold]
  · -- an entry of the directory is not named and gone, so it is on a list
    have hunnamed : new (p ++ [n]) = none := by
      by_contra hnamed
      have hdir := hfits.newClosed.parent hnamed
      rw [hdir] at hwhy
      simp at hwhy
    have hgone : gone (p ++ [n]) := by
      obtain ⟨data, hfile⟩ | ⟨hnone, hgone⟩ := hwhy
      · exact hfits.below hfile (List.cons_ne_nil _ _)
      · exact hfits.closed hgone hnone
    simp only [overlay]
    split
    · rfl
    · rename_i hpast
      simp only [filesDeleted, overlay]
      split
      · rfl
      · rename_i hfiles
        cases hentry : old (p ++ [n]) with
        | none => rfl
        | some node =>
            cases node with
            | file data =>
                exact absurd (r.mem_deleteFiles.mpr ⟨⟨data, hentry⟩, .inr ⟨hunnamed, hgone⟩⟩) hfiles
            | dir =>
                -- a directory below comes first
                have hlisted := r.mem_deleteDirs.mpr ⟨hentry, .inr ⟨hunnamed, hgone⟩⟩
                have horder := r.deepestFirst
                rw [hl] at hlisted horder
                obtain hbefore | hafter := List.mem_append.mp hlisted
                · exact absurd hbefore hpast
                · obtain heq | hafter := List.mem_cons.mp hafter
                  · simp at heq
                  · have hdeepest := (List.pairwise_append.mp horder).2.1
                    exact absurd (List.prefix_append _ _) (List.rel_of_pairwise_cons hdeepest hafter)

/-- A directory has its parent when its turn comes. -/
theorem runs_createDirs (hfits : Fits old new gone) :
    Edit.Runs r.dirsDeleted (r.createDirs.map .makeDir) r.dirsCreated := by
  rw [← congrArg (Edit.Runs · _ _) (overlay_nil (some .dir) r.dirsDeleted)]
  refine Edit.runs_phase _ (fun past => overlay past (some .dir) r.dirsDeleted)
    fun past p rest hl => ⟨?_, overlay_append⟩
  obtain ⟨hnew, hold⟩ := r.mem_createDirs.mp (hl ▸ List.mem_append_right _ (List.mem_cons_self ..))
  have hnodup := r.nodup_createDirs
  rw [hl, List.nodup_append] at hnodup
  have hfresh : p ∉ past := fun hpast => hnodup.2.2 p hpast p (List.mem_cons_self ..) rfl
  obtain ⟨q, n, rfl⟩ := hfits.oldClosed.split hold
  have hparent : new q = some .dir := hfits.newClosed.parent (by rw [hnew]; rintro ⟨⟩)
  refine ⟨q, n, rfl, ?_, ?_⟩
  · simp only [overlay]
    split
    · rfl
    · rename_i hpast
      by_cases hdir : old q = some .dir
      · exact r.dirsDeleted_eq_dir hdir hparent
      · -- a parent that is missing comes first
        have hlisted := r.mem_createDirs.mpr ⟨hparent, hdir⟩
        have horder := r.parentsFirst
        rw [hl] at hlisted horder
        obtain hbefore | hafter := List.mem_append.mp hlisted
        · exact absurd hbefore hpast
        · obtain heq | hafter := List.mem_cons.mp hafter
          · simp at heq
          · have hfirst := (List.pairwise_append.mp horder).2.1
            exact absurd (List.prefix_append _ _) (List.rel_of_pairwise_cons hfirst hafter)
  · simp only [overlay, if_neg hfresh, dirsDeleted, filesDeleted]
    split
    · rfl
    · split
      · rfl
      · rename_i hfiles
        cases hentry : old (q ++ [n]) with
        | none => rfl
        | some node =>
            cases node with
            | dir => exact absurd hentry hold
            | file data =>
                exact absurd (r.mem_deleteFiles.mpr ⟨⟨data, hentry⟩, .inl hnew⟩) hfiles

theorem runs_putFiles (hfits : Fits old new gone) :
    Edit.Runs r.dirsCreated (r.putFiles.map fun put => .putFile put.1 put.2) r.replaced := by
  refine Edit.runs_phase _ (fun past => overlayFiles past r.dirsCreated) fun past put rest hl => ?_
  obtain ⟨p, data⟩ := put
  obtain ⟨hnew, -⟩ := r.mem_putFiles.mp (hl ▸ List.mem_append_right _ (List.mem_cons_self ..))
  have hnodup := r.nodup_putFiles
  rw [hl, List.map_append, List.nodup_append] at hnodup
  have hfresh : p ∉ past.map (·.1) := fun hpast =>
    hnodup.2.2 p hpast p (List.mem_cons_self ..) rfl
  refine ⟨?_, overlayFiles_append hfresh⟩
  obtain ⟨q, n, rfl⟩ := hfits.newClosed.split (p := p) (by rw [hnew]; rintro ⟨⟩)
  have hparent : new q = some .dir := hfits.newClosed.parent (by rw [hnew]; rintro ⟨⟩)
  refine ⟨q, n, rfl, ?_, ?_⟩
  · rw [overlayFiles_notMem, r.dirsCreated_eq_dir hparent]
    intro hput
    obtain ⟨⟨q, data⟩, hmem, rfl⟩ := List.mem_map.mp hput
    obtain ⟨hfile, -⟩ := r.mem_putFiles.mp (hl ▸ List.mem_append_left _ hmem)
    rw [hparent] at hfile
    cases hfile
  · rw [overlayFiles_notMem hfresh, dirsCreated, overlay, if_neg]
    · exact r.dirsDeleted_ne_dir hnew
    · rw [r.mem_createDirs, hnew]
      simp

theorem replaced_eq_dirsCreated (hnew : ∀ data, new p = some (.file data) → old p = some (.file data)) :
    r.replaced p = r.dirsCreated p := by
  refine overlayFiles_notMem ?_ _
  intro hput
  obtain ⟨⟨q, data⟩, hmem, rfl⟩ := List.mem_map.mp hput
  obtain ⟨hfile, hother⟩ := r.mem_putFiles.mp hmem
  exact hother (hnew data hfile)

theorem dirsCreated_eq_dirsDeleted (hnew : new p ≠ some .dir) :
    r.dirsCreated p = r.dirsDeleted p := by
  rw [dirsCreated, overlay, if_neg]
  rw [r.mem_createDirs]
  exact fun hcreate => hnew hcreate.1

/-- What is on no list of deletions stays. -/
theorem dirsDeleted_eq_old (hfile : p ∉ r.deleteFiles) (hdir : p ∉ r.deleteDirs) :
    r.dirsDeleted p = old p := by
  simp only [dirsDeleted, filesDeleted, overlay, if_neg hfile, if_neg hdir]

theorem replaced_leaves : Leaves old new gone r.replaced where
  named {p} hnamed := by
    cases hnew : new p with
    | none => exact absurd hnew hnamed
    | some node =>
        cases node with
        | dir =>
            rw [r.replaced_eq_dirsCreated (by rw [hnew]; rintro _ ⟨⟩)]
            exact r.dirsCreated_eq_dir hnew
        | file data =>
            by_cases hold : old p = some (.file data)
            · -- the file is there already, and on no list
              rw [r.replaced_eq_dirsCreated (by rw [hnew, hold]; exact fun _ h => h),
                r.dirsCreated_eq_dirsDeleted (by rw [hnew]; rintro ⟨⟩), r.dirsDeleted_eq_old, hold]
              · rw [r.mem_deleteFiles, hnew]
                simp
              · rw [r.mem_deleteDirs, hold]
                simp
            · exact overlayFiles_mem r.nodup_putFiles (r.mem_putFiles.mpr ⟨hnew, hold⟩) _
  removed {p} hnone hgone := by
    rw [r.replaced_eq_dirsCreated (by rw [hnone]; rintro _ ⟨⟩),
      r.dirsCreated_eq_dirsDeleted (by rw [hnone]; rintro ⟨⟩)]
    cases hold : old p with
    | none =>
        rw [r.dirsDeleted_eq_old, hold]
        · rw [r.mem_deleteFiles, hold]
          simp
        · rw [r.mem_deleteDirs, hold]
          simp
    | some node =>
        cases node with
        | dir => simp [dirsDeleted, overlay, r.mem_deleteDirs.mpr ⟨hold, .inr ⟨hnone, hgone⟩⟩]
        | file data =>
            simp [dirsDeleted, filesDeleted, overlay,
              r.mem_deleteFiles.mpr ⟨⟨data, hold⟩, .inr ⟨hnone, hgone⟩⟩]
  kept {p} hnone hkept := by
    rw [r.replaced_eq_dirsCreated (by rw [hnone]; rintro _ ⟨⟩),
      r.dirsCreated_eq_dirsDeleted (by rw [hnone]; rintro ⟨⟩), r.dirsDeleted_eq_old]
    · rw [r.mem_deleteFiles, hnone]
      simp [hkept]
    · rw [r.mem_deleteDirs, hnone]
      simp [hkept]

/-- The edits of a replacement run, and leave what is named with what is kept. -/
theorem runs (hfits : Fits old new gone) :
    Edit.Runs old r.edits r.replaced ∧ Leaves old new gone r.replaced :=
  ⟨Edit.runs_append (Edit.runs_append r.runs_deleteFiles (r.runs_deleteDirs hfits))
    (Edit.runs_append (r.runs_createDirs hfits) (r.runs_putFiles hfits)), r.replaced_leaves⟩

end Run

end Replacement

end FileTree
