/-
  VivadoServer.Sync.Path

  Sync paths (`src/sync/files.rs` and `src/workspace.rs`): strings that stand for
  the list of their segments.  `split('/')` and `join("/")` are inverse to each
  other, so everything about ancestors is said about lists of segments.
-/

import VivadoServer.Lib.UnixPath
import VivadoServer.Error
import VivadoServer.Lib.SortDedup
import Mathlib.Data.List.Infix
import Mathlib.Data.String.Basic

namespace VivadoServer.Sync

/-! ## Splitting and joining -/

/-- `split('/')`. -/
def segments (path : String) : List String := (path.toList.splitOn '/').map String.ofList

/-- `join("/")`. -/
def join (parts : List String) : String := "/".intercalate parts

section Segments

variable {path q p : String} {parts : List String}

theorem join_toList (parts : List String) :
    (join parts).toList = ['/'].intercalate (parts.map String.toList) := by
  rw [join, String.toList_intercalate]
  rfl

@[simp] theorem join_segments (path : String) : join (segments path) = path := by
  apply String.toList_inj.mp
  rw [join_toList, segments, List.map_map]
  simp

theorem segments_join (hne : parts ≠ []) (hparts : ∀ part ∈ parts, '/' ∉ part.toList) :
    segments (join parts) = parts := by
  rw [segments, join_toList, List.splitOn_intercalate]
  · simp
  · simpa using hparts
  · simpa using hne

@[simp] theorem segments_ne_nil (path : String) : segments path ≠ [] := by
  simp [segments]

theorem segments_inj (h : segments q = segments p) : q = p := by
  rw [← join_segments q, h, join_segments]

/-- A path that continues behind a slash. -/
theorem segments_append (q p : String) :
    segments (q ++ "/" ++ p) = segments q ++ segments p := by
  have hlist : (q ++ "/" ++ p).toList = q.toList ++ '/' :: p.toList := by simp
  rw [segments, hlist, List.splitOn_append_cons_self, List.map_append]
  rfl

theorem slash_notMem_segments {part : String} (h : part ∈ segments path) : '/' ∉ part.toList := by
  obtain ⟨cs, hcs, rfl⟩ := List.mem_map.mp h
  rw [String.toList_ofList]
  exact UnixPath.notMem_splitOn hcs

/-! ## Ancestors -/

/-- `q` is a proper ancestor of `p`. -/
def Above (q p : String) : Prop := segments q <+: segments p ∧ q ≠ p

instance (q p : String) : Decidable (Above q p) := inferInstanceAs (Decidable (_ ∧ _))

/-- Below an ancestor stands a non-empty list of further segments. -/
theorem above_iff : Above q p ↔ ∃ rest, rest ≠ [] ∧ segments p = segments q ++ rest := by
  constructor
  · rintro ⟨⟨rest, hrest⟩, hne⟩
    refine ⟨rest, ?_, hrest.symm⟩
    rintro rfl
    rw [List.append_nil] at hrest
    exact hne (segments_inj hrest)
  · rintro ⟨rest, hrest, hp⟩
    refine ⟨⟨rest, hp.symm⟩, ?_⟩
    rintro rfl
    exact hrest (List.self_eq_append_right.mp hp)

/-- An ancestor's path, and what follows its slash. -/
theorem above_iff_append : Above q p ↔ ∃ r, p = q ++ "/" ++ r := by
  rw [above_iff]
  constructor
  · rintro ⟨rest, hrest, hp⟩
    refine ⟨join rest, segments_inj ?_⟩
    have hparts : ∀ part ∈ rest, '/' ∉ part.toList := fun part hpart =>
      slash_notMem_segments (hp ▸ List.mem_append_right _ hpart)
    rw [segments_append, segments_join hrest hparts, hp]
  · rintro ⟨r, rfl⟩
    exact ⟨segments r, segments_ne_nil r, segments_append q r⟩

theorem Above.trans {r : String} (h : Above r q) (h' : Above q p) : Above r p := by
  rw [above_iff] at h h' ⊢
  obtain ⟨rest, hrest, hq⟩ := h
  obtain ⟨rest', -, hp⟩ := h'
  exact ⟨rest ++ rest', by simp [hrest], by rw [hp, hq, List.append_assoc]⟩

/-- `starts_with(format!("{}/", q))`. -/
def startsBelow (q p : String) : Bool := (q ++ "/").toList.isPrefixOf p.toList

theorem startsBelow_iff : startsBelow q p = true ↔ Above q p := by
  rw [startsBelow, List.isPrefixOf_iff_prefix, above_iff_append]
  constructor
  · rintro ⟨rest, hrest⟩
    refine ⟨String.ofList rest, String.toList_inj.mp ?_⟩
    rw [← hrest]
    simp
  · rintro ⟨r, rfl⟩
    exact ⟨r.toList, by simp⟩

/-- `rsplit_once('/')`. -/
def rsplitOnce (path : String) : Option (String × String) :=
  match (segments path).getLast? with
  | some last =>
    if (segments path).length ≤ 1 then none else some (join (segments path).dropLast, last)
  | none => none

/-- `parent_paths`, nearest first: each round drops the last segment. -/
def parentsUp : Nat → String → List String
  | 0, _ => []
  | rounds + 1, current =>
    match rsplitOnce current with
    | some (parent, _) => parent :: parentsUp rounds parent
    | none => []

def parentPaths (path : String) : List String := (parentsUp path.length path).reverse

theorem rsplitOnce_eq_none (h : rsplitOnce p = none) : ¬ Above q p := by
  intro habove
  obtain ⟨rest, hrest, hp⟩ := above_iff.mp habove
  have hlength : 2 ≤ (segments p).length := by
    have hq := List.length_pos_iff.mpr (segments_ne_nil q)
    have hr := List.length_pos_iff.mpr hrest
    rw [hp, List.length_append]
    omega
  unfold rsplitOnce at h
  split at h
  · rw [if_neg (by omega)] at h
    cases h
  · rename_i hlast
    exact segments_ne_nil p (List.getLast?_eq_none_iff.mp hlast)

theorem rsplitOnce_eq_some {last : String} (h : rsplitOnce p = some (q, last)) :
    segments p = segments q ++ [last] := by
  unfold rsplitOnce at h
  split at h
  · rename_i last' hlast
    split at h
    · cases h
    · rename_i hlength
      cases h
      have hne : (segments p).dropLast ≠ [] := by
        rw [← List.length_pos_iff, List.length_dropLast]
        omega
      have hparts : ∀ part ∈ (segments p).dropLast, '/' ∉ part.toList := fun part hpart =>
        slash_notMem_segments (List.dropLast_subset _ hpart)
      rw [segments_join hne hparts]
      exact (List.dropLast_append_getLast? _ hlast).symm
  · cases h

/-- A longer path has more characters than segments above it. -/
theorem length_lt_of_above (h : Above q p) : q.length < p.length := by
  obtain ⟨r, rfl⟩ := above_iff_append.mp h
  rw [String.length_append, String.length_append]
  exact Nat.lt_add_right _ (Nat.lt_add_of_pos_right Nat.one_pos)

/-- The rounds of `parent_paths` reach every ancestor. -/
theorem mem_parentsUp {rounds : Nat} (hrounds : p.length ≤ rounds) :
    q ∈ parentsUp rounds p ↔ Above q p := by
  induction rounds generalizing p with
  | zero =>
      refine ⟨(by rintro ⟨⟩), fun habove => ?_⟩
      have := length_lt_of_above habove
      omega
  | succ rounds ih =>
      unfold parentsUp
      split
      · rename_i parent last hsplit
        have hp := rsplitOnce_eq_some hsplit
        have hparent : Above parent p := above_iff.mpr ⟨[last], List.cons_ne_nil _ _, hp⟩
        have hlength := length_lt_of_above hparent
        rw [List.mem_cons, ih (by omega)]
        constructor
        · rintro (rfl | habove)
          · exact hparent
          · exact habove.trans hparent
        · intro habove
          obtain ⟨rest, hrest, hq⟩ := above_iff.mp habove
          -- what is above `p` is its parent or above that
          rw [hp] at hq
          obtain ⟨front, back, hback⟩ := List.eq_nil_or_concat rest |>.resolve_left hrest
          rw [hback, List.concat_eq_append, ← List.append_assoc] at hq
          have hfront := (List.append_inj' hq rfl).1
          by_cases hempty : front = []
          · rw [hempty, List.append_nil] at hfront
            exact .inl (segments_inj hfront.symm)
          · exact .inr (above_iff.mpr ⟨front, hempty, hfront⟩)
      · rename_i hsplit
        exact ⟨(by rintro ⟨⟩), fun habove => absurd habove (rsplitOnce_eq_none hsplit)⟩

@[simp] theorem mem_parentPaths : q ∈ parentPaths p ↔ Above q p := by
  rw [parentPaths, List.mem_reverse, mem_parentsUp (Nat.le_refl _)]

end Segments

/-! ## The grammar -/

def INTERNAL_DIR : String := ".vivado-server"

/-- The characters that no segment has. -/
def forbidden (ch : Char) : Bool :=
  ch ≤ Char.ofNat 0x1f || ch == Char.ofNat 0x7f ||
    ['<', '>', '"', '|', '?', '*', ':', '/', '\\'].contains ch

def validatePortableSegment (segment : String) : Bool :=
  !(segment.isEmpty || [".", "..", INTERNAL_DIR].contains segment || 255 < segment.utf8ByteSize ||
    segment.toList.any forbidden)

def isInternalPath (path : String) : Bool := (segments path).any (· == INTERNAL_DIR)

def normalizeSyncPathAllowInternal (raw : String) : Except AppError String :=
  if raw.isEmpty || 4096 < raw.utf8ByteSize || raw == "." || raw == ".." ||
      raw.toList.head? == some '/' || raw.toList.head? == some '\\' || raw.toList.contains '\\' ||
      raw.toList.contains ':' || raw.toList.contains (Char.ofNat 0) then
    .error (.badRequest "invalid sync path")
  else if (segments raw).any fun part =>
      part.isEmpty || part == "." || part == ".." || !validatePortableSegment part then
    .error (.badRequest "invalid sync path")
  else .ok (join (segments raw))

def normalizeSyncPath (raw : String) : Except AppError String := do
  let normalized ← normalizeSyncPathAllowInternal raw
  if isInternalPath normalized then throw (.badRequest "internal sync path is reserved")
  return normalized

/-- The path can be synchronized. -/
def ValidPath (path : String) : Prop := normalizeSyncPath path = .ok path

/-- A path that is accepted is not changed. -/
theorem normalizeSyncPath_eq {raw path : String} (h : normalizeSyncPath raw = .ok path) :
    path = raw ∧ ValidPath raw := by
  have hraw : path = raw := by
    simp only [normalizeSyncPath, normalizeSyncPathAllowInternal, join_segments] at h
    split at h
    · cases h
    · split at h
      · cases h
      · simp only [bind, Except.bind, pure, Except.pure] at h
        split at h <;> cases h
        rfl
  subst hraw
  exact ⟨rfl, h⟩

/-! ## Orders -/

section Orders

variable {q p : String} {paths : List String}

open SortDedup

/-- `sort_paths`. -/
def sortPaths (paths : List String) : List String := sortDedup (fun a b => decide (a ≤ b)) paths

def depth (path : String) : Nat := path.toList.count '/'

/-- The order of `sort_paths_deepest_first`. -/
def deeper (a b : String) : Bool := depth b < depth a || (depth a == depth b && decide (a ≤ b))

def sortPathsDeepestFirst (paths : List String) : List String := sortDedup deeper paths

@[simp] theorem mem_sortPaths : p ∈ sortPaths paths ↔ p ∈ paths := mem_sortDedup

@[simp] theorem mem_sortPathsDeepestFirst : p ∈ sortPathsDeepestFirst paths ↔ p ∈ paths :=
  mem_sortDedup

theorem nodup_sortPaths : (sortPaths paths).Nodup :=
  nodup_sortDedup (fun a b => by simpa using le_total a b)
    (fun a b c => by simpa using le_trans) fun a b => by simpa using le_antisymm

theorem pairwise_sortPaths : (sortPaths paths).Pairwise (· ≤ ·) :=
  (pairwise_sortDedup (fun a b => by simpa using le_total a b)
    fun a b c => by simpa using le_trans).imp fun h => by simpa using h

theorem deeper_iff {a b : String} :
    deeper a b = true ↔ depth b < depth a ∨ depth a = depth b ∧ a ≤ b := by
  simp [deeper]

theorem nodup_sortPathsDeepestFirst : (sortPathsDeepestFirst paths).Nodup := by
  refine nodup_sortDedup (fun a b => ?_) (fun a b c hab hbc => ?_) fun a b hab hba => ?_
  · rw [Bool.or_eq_true, deeper_iff, deeper_iff]
    have := le_total a b
    grind
  · rw [deeper_iff] at *
    have : a ≤ b → b ≤ c → a ≤ c := le_trans
    grind
  · rw [deeper_iff] at *
    have : a ≤ b → b ≤ a → a = b := le_antisymm
    grind

theorem pairwise_sortPathsDeepestFirst :
    (sortPathsDeepestFirst paths).Pairwise fun a b => deeper a b = true := by
  refine pairwise_sortDedup (fun a b => ?_) (fun a b c hab hbc => ?_)
  · rw [Bool.or_eq_true, deeper_iff, deeper_iff]
    have := le_total a b
    grind
  · rw [deeper_iff] at *
    have : a ≤ b → b ≤ c → a ≤ c := le_trans
    grind

/-- An ancestor comes first in the order of strings. -/
theorem Above.lt (h : Above q p) : q < p := by
  obtain ⟨r, rfl⟩ := above_iff_append.mp h
  have hlonger : ∀ cs : List Char, cs < cs ++ '/' :: r.toList := by
    intro cs
    induction cs with
    | nil => exact List.nil_lt_cons _ _
    | cons c cs ih => exact List.cons_lt_cons_iff.mpr (.inr ⟨rfl, ih⟩)
  rw [String.lt_iff_toList_lt]
  simpa using hlonger q.toList

/-- What is above another is less deep. -/
theorem Above.depth_lt (h : Above q p) : depth q < depth p := by
  obtain ⟨r, rfl⟩ := above_iff_append.mp h
  simp [depth, List.count_append]

end Orders

end VivadoServer.Sync
