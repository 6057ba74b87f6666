/-
  VivadoServer.Lib.FileTree

  Finite trees of directories and files with any names and any data.  A tree is
  what a directory holds, its entries in order.  What stands at each path is its
  `view`; every operation is described by what it does to the view, so proofs
  about programs that move files never look at a tree.
-/

import Mathlib.Data.List.Infix
import Mathlib.Order.Defs.LinearOrder

namespace FileTree

variable {N α : Type*}

/-- What stands at a path. -/
inductive Node (α : Type*) where
  | dir
  | file (data : α)
deriving DecidableEq, Repr

/-- The contents of a directory. -/
inductive Tree (N α : Type*) where
  | nil
  | file (name : N) (data : α) (rest : Tree N α)
  | dir (name : N) (children rest : Tree N α)
deriving DecidableEq, Repr

/-- A file, or a directory with its contents. -/
inductive Item (N α : Type*) where
  | file (data : α)
  | dir (children : Tree N α)
deriving DecidableEq, Repr

/-- Neither path is above the other. -/
def Apart (p q : List N) : Prop := ¬ p <+: q ∧ ¬ q <+: p

theorem comparable {a b q : List N} (ha : a <+: q) (hb : b <+: q) : a <+: b ∨ b <+: a := by
  obtain h | h := Nat.le_total a.length b.length
  · exact .inl (List.prefix_of_prefix_length_le ha hb h)
  · exact .inr (List.prefix_of_prefix_length_le hb ha h)

theorem Apart.not_both {a b q : List N} (h : Apart a b) (ha : a <+: q) : ¬ b <+: q := fun hb =>
  (comparable ha hb).elim h.1 h.2

/-- What is apart from a path is apart from what is below it. -/
theorem Apart.below {a b q : List N} (h : Apart a b) (hb : b <+: q) : Apart a q :=
  ⟨fun ha => h.not_both ha hb, fun hq => h.2 (hb.trans hq)⟩

theorem apart_of_ne {p q r : List N} {n m : N} (h : n ≠ m) : Apart (p ++ n :: q) (p ++ m :: r) := by
  simp only [Apart, List.prefix_append_right_inj, List.cons_prefix_cons]
  exact ⟨fun heq => h heq.1, fun heq => h heq.1.symm⟩

theorem Apart.ne {a b : List N} (h : Apart a b) : a ≠ b := by
  rintro rfl
  exact h.1 List.prefix_rfl

theorem Apart.symm {a b : List N} (h : Apart a b) : Apart b a := ⟨h.2, h.1⟩

def Item.node : Item N α → Node α
  | .file data => .file data
  | .dir _ => .dir

/-- The item as the first entry of a directory. -/
def Item.entry (name : N) (rest : Tree N α) : Item N α → Tree N α
  | .file data => .file name data rest
  | .dir children => .dir name children rest

/-! ## Looking up -/

section Get

variable [DecidableEq N]

namespace Tree

def get : Tree N α → List N → Option (Item N α)
  | t, [] => some (.dir t)
  | nil, _ :: _ => none
  | file m data rest, n :: p =>
    if m = n then (if p = [] then some (.file data) else none) else rest.get (n :: p)
  | dir m children rest, n :: p => if m = n then children.get p else rest.get (n :: p)

/-- What stands at a path. -/
def view (t : Tree N α) (p : List N) : Option (Node α) := (t.get p).map Item.node

/-- No directory has two entries of one name. -/
def Valid : Tree N α → Prop
  | nil => True
  | file m _ rest => rest.get [m] = none ∧ rest.Valid
  | dir m children rest => rest.get [m] = none ∧ children.Valid ∧ rest.Valid

instance decidableValid : (t : Tree N α) → Decidable t.Valid
  | nil => .isTrue trivial
  | file m _ rest =>
    have := decidableValid rest
    inferInstanceAs (Decidable ((rest.get [m] = none) ∧ rest.Valid))
  | dir m children rest =>
    have := decidableValid children
    have := decidableValid rest
    inferInstanceAs (Decidable ((rest.get [m] = none) ∧ children.Valid ∧ rest.Valid))

end Tree

def Item.get : Item N α → List N → Option (Item N α)
  | .dir t, p => t.get p
  | .file data, [] => some (.file data)
  | .file _, _ :: _ => none

/-- What stands below an item. -/
def Item.view (item : Item N α) (p : List N) : Option (Node α) := (item.get p).map Item.node

def Item.Valid : Item N α → Prop
  | .file _ => True
  | .dir t => t.Valid

namespace Tree

variable {t : Tree N α} {p q : List N} {n : N}

@[simp] theorem get_nil (t : Tree N α) : t.get [] = some (.dir t) := by
  cases t <;> rfl

@[simp] theorem view_nil (t : Tree N α) : t.view [] = some .dir := by
  rw [view, get_nil]
  rfl

theorem get_append (t : Tree N α) (p q : List N) : t.get (p ++ q) = (t.get p).bind (·.get q) := by
  induction t generalizing p with
  | nil => cases p <;> simp [get, Item.get]
  | file m data rest ih =>
      cases p with
      | nil => simp [Item.get]
      | cons n p =>
          rw [List.cons_append, get, get]
          by_cases hm : m = n
          · rw [if_pos hm, if_pos hm]
            cases p <;> cases q <;> simp [Item.get]
          · rw [if_neg hm, if_neg hm]
            exact ih (n :: p)
  | dir m children rest ihc ihr =>
      cases p with
      | nil => simp [Item.get]
      | cons n p =>
          rw [List.cons_append, get, get]
          by_cases hm : m = n
          · rw [if_pos hm, if_pos hm]
            exact ihc p
          · rw [if_neg hm, if_neg hm]
            exact ihr (n :: p)

/-- Something stands only in a directory. -/
theorem view_parent (h : t.view (p ++ [n]) ≠ none) : t.view p = some .dir := by
  rw [view, get_append] at h
  cases hp : t.get p with
  | none => rw [hp] at h; exact absurd rfl h
  | some item =>
      cases item with
      | dir children => rw [view, hp]; rfl
      | file data => rw [hp] at h; exact absurd rfl h

/-- What is above something is a directory. -/
theorem view_above (h : t.view (p ++ q) ≠ none) (hq : q ≠ []) : t.view p = some .dir := by
  induction q using List.reverseRecOn with
  | nil => exact absurd rfl hq
  | append_singleton q n ih =>
      rw [← List.append_assoc] at h
      have hdir := view_parent h
      by_cases hempty : q = []
      · rw [hempty, List.append_nil] at hdir
        exact hdir
      · exact ih (by rw [hdir]; rintro ⟨⟩) hempty

theorem view_eq_none_of_get (h : t.get p = none) : t.view (p ++ q) = none := by
  rw [view, get_append, h]
  rfl

theorem get_eq_none_iff : t.get p = none ↔ t.view p = none := by
  rw [view, Option.map_eq_none_iff]

theorem view_append {item : Item N α} (h : t.get p = some item) : t.view (p ++ q) = item.view q := by
  rw [view, get_append, h]
  rfl

theorem valid_get {item : Item N α} (hvalid : t.Valid) (h : t.get p = some item) : item.Valid := by
  induction t generalizing p with
  | nil =>
      cases p with
      | nil => cases h; exact hvalid
      | cons n p => cases h
  | file m data rest ih =>
      cases p with
      | nil => cases h; exact hvalid
      | cons n p =>
          rw [get] at h
          split at h
          · split at h <;> cases h
            trivial
          · exact ih hvalid.2 h
  | dir m children rest ihc ihr =>
      cases p with
      | nil => cases h; exact hvalid
      | cons n p =>
          rw [get] at h
          split at h
          · exact ihc hvalid.2.1 h
          · exact ihr hvalid.2.2 h

/-- The names in a directory. -/
def names : Tree N α → List N
  | nil => []
  | file m _ rest => m :: rest.names
  | dir m _ rest => m :: rest.names

theorem get_eq_none_of_names {n : N} (h : n ∉ t.names) : t.get [n] = none := by
  induction t with
  | nil => rfl
  | file m data rest ih =>
      rw [names, List.mem_cons, not_or] at h
      rw [get, if_neg (Ne.symm h.1)]
      exact ih h.2
  | dir m children rest _ ih =>
      rw [names, List.mem_cons, not_or] at h
      rw [get, if_neg (Ne.symm h.1)]
      exact ih h.2

/-- Take away what stands at a path, with everything below it. -/
def remove : Tree N α → List N → Tree N α
  | t, [] => t
  | nil, _ :: _ => nil
  | file m data rest, n :: p =>
    if m = n then (if p = [] then rest else file m data rest) else file m data (rest.remove (n :: p))
  | dir m children rest, n :: p =>
    if m = n then (if p = [] then rest else dir m (children.remove p) rest)
    else dir m children (rest.remove (n :: p))

theorem get_remove_other {m : N} (hm : m ≠ n) : (t.remove (n :: p)).get (m :: q) = t.get (m :: q) := by
  induction t with
  | nil => rfl
  | file k data rest ih =>
      rw [remove]
      by_cases hk : k = n
      · subst hk
        rw [if_pos rfl]
        split
        · rw [get, if_neg (Ne.symm hm)]
        · rfl
      · rw [if_neg hk, get, get, ih]
  | dir k children rest _ ih =>
      rw [remove]
      by_cases hk : k = n
      · subst hk
        rw [if_pos rfl]
        split
        · rw [get, if_neg (Ne.symm hm)]
        · rw [get, get, if_neg (Ne.symm hm), if_neg (Ne.symm hm)]
      · rw [if_neg hk, get, get, ih]

theorem valid_remove (h : t.Valid) (p : List N) : (t.remove p).Valid := by
  induction t generalizing p with
  | nil => cases p <;> trivial
  | file m data rest ih =>
      cases p with
      | nil => exact h
      | cons n p =>
          rw [remove]
          split
          · split
            · exact h.2
            · exact h
          · rename_i hm
            exact ⟨(get_remove_other hm).trans h.1, ih h.2 _⟩
  | dir m children rest ihc ihr =>
      cases p with
      | nil => exact h
      | cons n p =>
          rw [remove]
          split
          · split
            · exact h.2.2
            · exact ⟨h.1, ihc h.2.1 p, h.2.2⟩
          · rename_i hm
            exact ⟨(get_remove_other hm).trans h.1, h.2.1, ihr h.2.2 _⟩

theorem view_file {m k : N} {data : α} {rest : Tree N α} : (file m data rest).view (k :: q) =
    if m = k then (if q = [] then some (.file data) else none) else rest.view (k :: q) := by
  rw [view, get]
  split
  · split <;> rfl
  · rfl

theorem view_dir {m k : N} {children rest : Tree N α} : (dir m children rest).view (k :: q) =
    if m = k then children.view q else rest.view (k :: q) := by
  rw [view, get]
  split <;> rfl

/-- What was taken away is gone. -/
theorem view_remove_self (h : t.Valid) (hp : p ≠ []) : (t.remove p).view p = none := by
  induction t generalizing p with
  | nil =>
      obtain ⟨n, p, rfl⟩ := List.exists_cons_of_ne_nil hp
      rfl
  | file m data rest ih =>
      obtain ⟨n, p, rfl⟩ := List.exists_cons_of_ne_nil hp
      rw [remove]
      split
      · rename_i hm
        subst hm
        split
        · rename_i hempty
          rw [hempty, ← get_eq_none_iff]
          exact h.1
        · rename_i hempty
          rw [view_file, if_pos rfl, if_neg hempty]
      · rename_i hm
        rw [view_file, if_neg hm]
        exact ih h.2 hp
  | dir m children rest ihc ihr =>
      obtain ⟨n, p, rfl⟩ := List.exists_cons_of_ne_nil hp
      rw [remove]
      split
      · rename_i hm
        subst hm
        split
        · rename_i hempty
          rw [hempty, ← get_eq_none_iff]
          exact h.1
        · rename_i hempty
          rw [view_dir, if_pos rfl]
          exact ihc h.2.1 hempty
      · rename_i hm
        rw [view_dir, if_neg hm]
        exact ihr h.2.2 hp

/-- Everything that is not below what was taken away stays. -/
theorem view_remove_other (hq : ¬ p <+: q) : (t.remove p).view q = t.view q := by
  induction t generalizing p q with
  | nil => cases p <;> rfl
  | file m data rest ih =>
      cases p with
      | nil => exact absurd List.nil_prefix hq
      | cons n p =>
          cases q with
          | nil => simp
          | cons k q =>
              rw [remove]
              split
              · rename_i hm
                subst hm
                split
                · rename_i hempty
                  rw [view_file, if_neg]
                  rintro rfl
                  exact hq (by simp [hempty])
                · rfl
              · rw [view_file, view_file, ih hq]
  | dir m children rest ihc ihr =>
      cases p with
      | nil => exact absurd List.nil_prefix hq
      | cons n p =>
          cases q with
          | nil => simp
          | cons k q =>
              rw [remove]
              split
              · rename_i hm
                subst hm
                split
                · rename_i hempty
                  rw [view_dir, if_neg]
                  rintro rfl
                  exact hq (by simp [hempty])
                · rw [view_dir, view_dir]
                  split
                  · rename_i hk
                    subst hk
                    exact ihc fun hpre => hq (List.cons_prefix_cons.mpr ⟨rfl, hpre⟩)
                  · rfl
              · rw [view_dir, view_dir, ihr hq]

theorem view_remove_below (h : t.Valid) (hp : p ≠ []) (hq : p <+: q) :
    (t.remove p).view q = none := by
  obtain ⟨rest, rfl⟩ := hq
  exact view_eq_none_of_get (get_eq_none_iff.mpr (view_remove_self h hp))

/-! ## Putting in -/

variable {item : Item N α}

theorem get_entry_self {m : N} {rest : Tree N α} : (item.entry m rest).get (m :: q) = item.get q := by
  cases item with
  | file data => cases q <;> simp [Item.entry, get, Item.get]
  | dir children => simp [Item.entry, get, Item.get]

theorem get_entry_other {m k : N} {rest : Tree N α} (h : m ≠ k) :
    (item.entry m rest).get (k :: q) = rest.get (k :: q) := by
  cases item <;> simp [Item.entry, get, h]

theorem valid_entry {m : N} {rest : Tree N α} (hitem : item.Valid) (hrest : rest.Valid)
    (hfree : rest.get [m] = none) : (item.entry m rest).Valid := by
  cases item with
  | file => exact ⟨hfree, hrest⟩
  | dir => exact ⟨hfree, hitem, hrest⟩

section Insert

variable [LT N] [DecidableLT N]

/-- Put an item at a free path of a directory, in the order of the names. -/
def insert : Tree N α → List N → Item N α → Tree N α
  | t, [], _ => t
  | nil, [n], item => item.entry n nil
  | nil, _ :: _ :: _, _ => nil
  | file m data rest, n :: p, item =>
    if p = [] ∧ n < m then item.entry n (file m data rest)
    else file m data (rest.insert (n :: p) item)
  | dir m children rest, n :: p, item =>
    if p = [] ∧ n < m then item.entry n (dir m children rest)
    else if p ≠ [] ∧ m = n then dir m (children.insert p item) rest
    else dir m children (rest.insert (n :: p) item)

/-- The item stands where it was put, with what it holds. -/
theorem get_insert_below (hfree : t.get (p ++ [n]) = none) (hparent : t.view p = some .dir) :
    (t.insert (p ++ [n]) item).get (p ++ [n] ++ q) = item.get q := by
  induction t generalizing p with
  | nil =>
      cases p with
      | nil => exact get_entry_self
      | cons k p => cases hparent
  | file m data rest ih =>
      cases p with
      | nil =>
          simp only [List.nil_append, List.cons_append] at hfree ⊢
          have hm : m ≠ n := by
            rintro rfl
            simp [get] at hfree
          rw [get, if_neg hm] at hfree
          rw [insert]
          split
          · exact get_entry_self
          · rw [get, if_neg hm]
            exact ih (p := []) hfree (view_nil rest)
      | cons k p =>
          simp only [List.cons_append] at hfree ⊢
          have hm : m ≠ k := by
            rintro rfl
            rw [view_file, if_pos rfl] at hparent
            split at hparent <;> cases hparent
          rw [get, if_neg hm] at hfree
          rw [view_file, if_neg hm] at hparent
          rw [insert, if_neg (by simp), get, if_neg hm]
          exact ih (p := k :: p) hfree hparent
  | dir m children rest ihc ihr =>
      cases p with
      | nil =>
          simp only [List.nil_append, List.cons_append] at hfree ⊢
          have hm : m ≠ n := by
            rintro rfl
            simp [get] at hfree
          rw [get, if_neg hm] at hfree
          rw [insert]
          split
          · exact get_entry_self
          · rw [if_neg (by simp), get, if_neg hm]
            exact ihr (p := []) hfree (view_nil rest)
      | cons k p =>
          simp only [List.cons_append] at hfree ⊢
          rw [insert, if_neg (by simp)]
          by_cases hm : m = k
          · subst hm
            rw [get, if_pos rfl] at hfree
            rw [view_dir, if_pos rfl] at hparent
            rw [if_pos (by simp), get, if_pos rfl]
            exact ihc (p := p) hfree hparent
          · rw [get, if_neg hm] at hfree
            rw [view_dir, if_neg hm] at hparent
            rw [if_neg (by simp [hm]), get, if_neg hm]
            exact ihr (p := k :: p) hfree hparent

/-- Everything that is not below the item stays. -/
theorem view_insert_other (hq : ¬ p <+: q) : (t.insert p item).view q = t.view q := by
  induction t generalizing p q with
  | nil =>
      cases p with
      | nil => rfl
      | cons n p =>
          cases p with
          | nil =>
              cases q with
              | nil => simp
              | cons k q =>
                  rw [insert, view, get_entry_other]
                  · rfl
                  · rintro rfl
                    exact hq (by simp)
          | cons => rfl
  | file m data rest ih =>
      cases p with
      | nil => rfl
      | cons n p =>
          cases q with
          | nil => simp
          | cons k q =>
              rw [insert]
              split
              · rename_i hput
                rw [view, get_entry_other, view]
                rintro rfl
                exact hq (by simp [hput.1])
              · rw [view_file, view_file, ih hq]
  | dir m children rest ihc ihr =>
      cases p with
      | nil => rfl
      | cons n p =>
          cases q with
          | nil => simp
          | cons k q =>
              rw [insert]
              split
              · rename_i hput
                rw [view, get_entry_other, view]
                rintro rfl
                exact hq (by simp [hput.1])
              · split
                · rename_i hput
                  rw [view_dir, view_dir]
                  split
                  · rename_i hk
                    obtain ⟨-, rfl⟩ := hput
                    subst hk
                    exact ihc fun hpre => hq (List.cons_prefix_cons.mpr ⟨rfl, hpre⟩)
                  · rfl
                · rw [view_dir, view_dir, ihr hq]

/-- What is put elsewhere leaves a free name free. -/
theorem get_insert_name {m : N} (hne : p ≠ [m]) (hfree : t.get [m] = none) :
    (t.insert p item).get [m] = none := by
  cases p with
  | nil => rw [insert]; exact hfree
  | cons k p =>
      rw [get_eq_none_iff] at hfree ⊢
      rw [view_insert_other, hfree]
      intro hpre
      rw [List.cons_prefix_cons, List.prefix_nil] at hpre
      exact hne (by rw [hpre.1, hpre.2])

theorem valid_insert (h : t.Valid) (hitem : item.Valid) (hfree : t.get (p ++ [n]) = none)
    (hparent : t.view p = some .dir) : (t.insert (p ++ [n]) item).Valid := by
  induction t generalizing p with
  | nil =>
      cases p with
      | nil => exact valid_entry hitem trivial rfl
      | cons k p => cases hparent
  | file m data rest ih =>
      cases p with
      | nil =>
          simp only [List.nil_append] at hfree ⊢
          have hm : m ≠ n := by
            rintro rfl
            simp [get] at hfree
          rw [insert]
          split
          · exact valid_entry hitem h hfree
          · rw [get, if_neg hm] at hfree
            refine ⟨get_insert_name (fun heq => hm ?_) h.1, ih (p := []) h.2 hfree (view_nil rest)⟩
            cases heq
            rfl
      | cons k p =>
          simp only [List.cons_append] at hfree ⊢
          have hm : m ≠ k := by
            rintro rfl
            rw [view_file, if_pos rfl] at hparent
            split at hparent <;> cases hparent
          rw [get, if_neg hm] at hfree
          rw [view_file, if_neg hm] at hparent
          rw [insert, if_neg (by simp)]
          refine ⟨get_insert_name ?_ h.1, ih (p := k :: p) h.2 hfree hparent⟩
          simp
  | dir m children rest ihc ihr =>
      cases p with
      | nil =>
          simp only [List.nil_append] at hfree ⊢
          have hm : m ≠ n := by
            rintro rfl
            simp [get] at hfree
          rw [insert]
          split
          · exact valid_entry hitem h hfree
          · rw [get, if_neg hm] at hfree
            rw [if_neg (by simp)]
            refine ⟨get_insert_name (fun heq => hm ?_) h.1, h.2.1,
              ihr (p := []) h.2.2 hfree (view_nil rest)⟩
            cases heq
            rfl
      | cons k p =>
          simp only [List.cons_append] at hfree ⊢
          rw [insert, if_neg (by simp)]
          by_cases hm : m = k
          · subst hm
            rw [get, if_pos rfl] at hfree
            rw [view_dir, if_pos rfl] at hparent
            rw [if_pos (by simp)]
            exact ⟨h.1, ihc (p := p) h.2.1 hfree hparent, h.2.2⟩
          · rw [get, if_neg hm] at hfree
            rw [view_dir, if_neg hm] at hparent
            rw [if_neg (by simp [hm])]
            refine ⟨get_insert_name ?_ h.1, h.2.1, ihr (p := k :: p) h.2.2 hfree hparent⟩
            simp

/-! ### Moving -/

/-- Take an item from one path to another. -/
def move (t : Tree N α) (src dst : List N) : Tree N α :=
  match t.get src with
  | some item => ((t.remove src).remove dst).insert dst item
  | none => t

/-- An item that is moved is found below its new path, and nowhere else. -/
theorem move_spec {src : List N} (hvalid : t.Valid) (hsrc : src ≠ []) (hget : t.get src = some item)
    (hout : ¬ src <+: q ++ [n]) (hparent : t.view q = some .dir) :
    (t.move src (q ++ [n])).Valid ∧ ∀ r, (t.move src (q ++ [n])).view r =
      if (q ++ [n]) <+: r then item.view (r.drop (q ++ [n]).length)
      else if src <+: r then none else t.view r := by
  have hdst : q ++ [n] ≠ [] := by simp
  have hout' : ¬ src <+: q := fun h => hout (h.trans (List.prefix_append _ _))
  have hvalid' : ((t.remove src).remove (q ++ [n])).Valid := valid_remove (valid_remove hvalid _) _
  have hfree : ((t.remove src).remove (q ++ [n])).view (q ++ [n]) = none :=
    view_remove_self (valid_remove hvalid _) hdst
  have hparent' : ((t.remove src).remove (q ++ [n])).view q = some .dir := by
    rw [view_remove_other, view_remove_other hout', hparent]
    intro h
    have hlen := h.length_le
    rw [List.length_append, List.length_singleton] at hlen
    omega
  rw [move, hget]
  refine ⟨valid_insert hvalid' (valid_get hvalid hget) (get_eq_none_iff.mpr hfree) hparent', fun r => ?_⟩
  by_cases hr : (q ++ [n]) <+: r
  · obtain ⟨rest, rfl⟩ := hr
    rw [if_pos (List.prefix_append _ _), List.drop_left, view,
      get_insert_below (get_eq_none_iff.mpr hfree) hparent']
    rfl
  · rw [if_neg hr, view_insert_other hr, view_remove_other hr]
    by_cases hr' : src <+: r
    · rw [if_pos hr', view_remove_below hvalid hsrc hr']
    · rw [if_neg hr', view_remove_other hr']

def put (t : Tree N α) (p : List N) (data : α) : Tree N α := (t.remove p).insert p (.file data)

end Insert

/-! ## Walking -/

/-- A walk over everything below a directory, less what `descend` refuses with all
    that is below it. -/
def walk (descend : List N → Bool) (at_ : List N) : Tree N α → List (List N × Node α)
  | nil => []
  | file m data rest =>
    (if descend (at_ ++ [m]) then [(at_ ++ [m], .file data)] else []) ++ walk descend at_ rest
  | dir m children rest =>
    (if descend (at_ ++ [m]) then
      (at_ ++ [m], .dir) :: walk descend (at_ ++ [m]) children else []) ++ walk descend at_ rest

variable {descend : List N → Bool} {at_ : List N} {node : Node α}

/-- The walk yields what is not refused, nor below what is refused. -/
theorem mem_walk (h : t.Valid) : (q, node) ∈ t.walk descend at_ ↔
    ∃ p, p ≠ [] ∧ q = at_ ++ p ∧ t.view p = some node ∧
      ∀ r, r ≠ [] → r <+: p → descend (at_ ++ r) = true := by
  induction t generalizing at_ with
  | nil =>
      refine ⟨(by rintro ⟨⟩), ?_⟩
      rintro ⟨p, hp, -, hview, -⟩
      obtain ⟨n, p, rfl⟩ := List.exists_cons_of_ne_nil hp
      cases hview
  | file m data rest ih =>
      rw [walk, List.mem_append, ih h.2]
      constructor
      · rintro (hfile | ⟨p, hp, rfl, hview, hdescend⟩)
        · split at hfile
          · rename_i hm
            rw [List.mem_singleton] at hfile
            cases hfile
            refine ⟨[m], List.cons_ne_nil _ _, rfl, by simp [view_file], fun r hr hpre => ?_⟩
            obtain ⟨k, r, rfl⟩ := List.exists_cons_of_ne_nil hr
            rw [List.cons_prefix_cons, List.prefix_nil] at hpre
            rw [hpre.1, hpre.2]
            exact hm
          · cases hfile
        · refine ⟨p, hp, rfl, ?_, hdescend⟩
          obtain ⟨n, p, rfl⟩ := List.exists_cons_of_ne_nil hp
          rw [view_file, if_neg]
          · exact hview
          · rintro rfl
            have hnone : rest.view (m :: p) = none :=
              view_eq_none_of_get (p := [m]) (q := p) h.1
            rw [hnone] at hview
            cases hview
      · rintro ⟨p, hp, rfl, hview, hdescend⟩
        obtain ⟨n, p, rfl⟩ := List.exists_cons_of_ne_nil hp
        rw [view_file] at hview
        split at hview
        · rename_i hm
          subst hm
          split at hview <;> cases hview
          rename_i hempty
          subst hempty
          rw [if_pos (hdescend [m] (List.cons_ne_nil _ _) List.prefix_rfl)]
          exact .inl (List.mem_singleton_self _)
        · exact .inr ⟨n :: p, hp, rfl, hview, hdescend⟩
  | dir m children rest ihc ihr =>
      rw [walk, List.mem_append, ihr h.2.2]
      constructor
      · rintro (hdir | ⟨p, hp, rfl, hview, hdescend⟩)
        · split at hdir
          · rename_i hm
            obtain hdir | hdir := List.mem_cons.mp hdir
            · cases hdir
              refine ⟨[m], List.cons_ne_nil _ _, rfl, by simp [view_dir], fun r hr hpre => ?_⟩
              obtain ⟨k, r, rfl⟩ := List.exists_cons_of_ne_nil hr
              rw [List.cons_prefix_cons, List.prefix_nil] at hpre
              rw [hpre.1, hpre.2]
              exact hm
            · obtain ⟨p, hp, rfl, hview, hdescend⟩ := (ihc h.2.1).mp hdir
              refine ⟨m :: p, List.cons_ne_nil _ _, by simp, by rw [view_dir, if_pos rfl, hview],
                fun r hr hpre => ?_⟩
              obtain ⟨k, r, rfl⟩ := List.exists_cons_of_ne_nil hr
              rw [List.cons_prefix_cons] at hpre
              obtain ⟨rfl, hpre⟩ := hpre
              cases r with
              | nil => exact hm
              | cons k' r =>
                  have hbelow := hdescend (k' :: r) (List.cons_ne_nil _ _) hpre
                  rwa [List.append_assoc] at hbelow
          · cases hdir
        · refine ⟨p, hp, rfl, ?_, hdescend⟩
          obtain ⟨n, p, rfl⟩ := List.exists_cons_of_ne_nil hp
          rw [view_dir, if_neg]
          · exact hview
          · rintro rfl
            have hnone : rest.view (m :: p) = none :=
              view_eq_none_of_get (p := [m]) (q := p) h.1
            rw [hnone] at hview
            cases hview
      · rintro ⟨p, hp, rfl, hview, hdescend⟩
        obtain ⟨n, p, rfl⟩ := List.exists_cons_of_ne_nil hp
        rw [view_dir] at hview
        split at hview
        · rename_i hm
          subst hm
          refine .inl ?_
          rw [if_pos (hdescend [m] (List.cons_ne_nil _ _) (by simp)), List.mem_cons]
          cases p with
          | nil =>
              rw [view_nil] at hview
              cases hview
              exact .inl rfl
          | cons k p =>
              refine .inr ((ihc h.2.1).mpr ⟨k :: p, List.cons_ne_nil _ _, by simp, hview,
                fun r hr hpre => ?_⟩)
              rw [List.append_assoc]
              exact hdescend ([m] ++ r) (by simp) (List.cons_prefix_cons.mpr ⟨rfl, hpre⟩)
        · exact .inr ⟨n :: p, hp, rfl, hview, hdescend⟩

theorem notMem_walk_of_free {m : N} (h : t.Valid) (hfree : t.get [m] = none) :
    at_ ++ m :: p ∉ (t.walk descend at_).map (·.1) := by
  intro hwalk
  obtain ⟨⟨q, node⟩, hmem, heq⟩ := List.mem_map.mp hwalk
  obtain ⟨r, -, rfl, hview, -⟩ := (mem_walk h).mp hmem
  have hnone : t.view (m :: p) = none := view_eq_none_of_get (p := [m]) (q := p) hfree
  rw [List.append_cancel_left heq, hnone] at hview
  cases hview

omit [DecidableEq N] in
/-- A walk that refuses something meets less. -/
theorem walk_sublist : (t.walk descend at_).Sublist (t.walk (fun _ => true) at_) := by
  induction t generalizing at_ with
  | nil => exact .slnil
  | file m data rest ih =>
      refine List.Sublist.append ?_ ih
      split
      · exact .refl _
      · exact List.nil_sublist _
  | dir m children rest ihc ihr =>
      refine List.Sublist.append ?_ ihr
      split
      · exact ihc.cons_cons _
      · exact List.nil_sublist _

/-- No path is walked twice. -/
theorem nodup_walk (h : t.Valid) : ((t.walk descend at_).map (·.1)).Nodup := by
  induction t generalizing at_ with
  | nil => exact List.nodup_nil
  | file m data rest ih =>
      rw [walk, List.map_append, List.nodup_append]
      refine ⟨by split <;> simp, ih h.2, fun q hfirst r hrest => ?_⟩
      rintro rfl
      split at hfirst
      · simp only [List.map_cons, List.map_nil, List.mem_singleton] at hfirst
        rw [hfirst] at hrest
        exact notMem_walk_of_free h.2 h.1 hrest
      · cases hfirst
  | dir m children rest ihc ihr =>
      rw [walk, List.map_append, List.nodup_append]
      refine ⟨?_, ihr h.2.2, fun q hfirst r hrest => ?_⟩
      · split
        · rw [List.map_cons, List.nodup_cons]
          refine ⟨fun hself => ?_, ihc h.2.1⟩
          obtain ⟨⟨q, node⟩, hmem, heq⟩ := List.mem_map.mp hself
          obtain ⟨p, hp, rfl, -⟩ := (mem_walk h.2.1).mp hmem
          exact hp (List.append_right_eq_self.mp heq)
        · exact List.nodup_nil
      · rintro rfl
        split at hfirst
        · rw [List.map_cons, List.mem_cons] at hfirst
          obtain rfl | hbelow := hfirst
          · exact notMem_walk_of_free h.2.2 h.1 hrest
          · obtain ⟨⟨q, node⟩, hmem, rfl⟩ := List.mem_map.mp hbelow
            obtain ⟨p, -, rfl, -⟩ := (mem_walk h.2.1).mp hmem
            rw [List.append_assoc] at hrest
            exact notMem_walk_of_free h.2.2 h.1 hrest
        · cases hfirst

/-! ## Translating what the files hold -/

end Tree

def Node.filterMap {β : Type*} (f : α → Option β) : Node α → Option (Node β)
  | .dir => some .dir
  | .file data => (f data).map .file

namespace Tree

variable {β : Type*} {f : α → Option β} {t : Tree N α} {p : List N}

/-- The tree with every file translated, less those that are not. -/
def filterMap (f : α → Option β) : Tree N α → Tree N β
  | nil => nil
  | file m data rest =>
    match f data with
    | some data => file m data (rest.filterMap f)
    | none => rest.filterMap f
  | dir m children rest => dir m (children.filterMap f) (rest.filterMap f)

theorem view_filterMap (h : t.Valid) : (t.filterMap f).view p = (t.view p).bind (Node.filterMap f) := by
  induction t generalizing p with
  | nil => cases p <;> rfl
  | file m data rest ih =>
      cases p with
      | nil => rw [view_nil, view_nil]; rfl
      | cons n p =>
          rw [filterMap, view_file]
          -- a file that is left out leaves nothing below its name
          have hrest : m = n → (rest.filterMap f).view (n :: p) = none := by
            rintro rfl
            have hnone : rest.view (m :: p) = none := view_eq_none_of_get (p := [m]) (q := p) h.1
            rw [ih h.2, hnone]
            rfl
          cases hdata : f data with
          | none =>
              simp only
              split
              · rename_i hm
                rw [hrest hm]
                split
                · simp [Node.filterMap, hdata]
                · rfl
              · exact ih h.2
          | some data' =>
              simp only
              rw [view_file]
              split
              · split
                · simp [Node.filterMap, hdata]
                · rfl
              · exact ih h.2
  | dir m children rest ihc ihr =>
      cases p with
      | nil => rw [view_nil, view_nil]; rfl
      | cons n p =>
          rw [filterMap, view_dir, view_dir]
          split
          · exact ihc h.2.1
          · exact ihr h.2.2

theorem valid_filterMap (h : t.Valid) : (t.filterMap f).Valid := by
  have hfree : ∀ {rest : Tree N α} {m : N}, rest.Valid → rest.get [m] = none →
      (rest.filterMap f).get [m] = none := by
    intro rest m hvalid hnone
    rw [get_eq_none_iff] at hnone ⊢
    rw [view_filterMap hvalid, hnone]
    rfl
  induction t with
  | nil => trivial
  | file m data rest ih =>
      rw [filterMap]
      split
      · exact ⟨hfree h.2 h.1, ih h.2⟩
      · exact ih h.2
  | dir m children rest ihc ihr => exact ⟨hfree h.2.2 h.1, ihc h.2.1, ihr h.2.2⟩

end Tree

end Get

end FileTree
