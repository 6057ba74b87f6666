/-
  VivadoServer.Sync.Grammar

  Which strings are sync paths, and where they lead.  The checks of
  `normalize_sync_path` are spread over four functions; together they are a grammar of
  segments (`Grammar`).  A path of the grammar leads below the root it is resolved
  against, by just its segments, so that ancestors of paths are ancestors of places.
-/

import VivadoServer.Lib.UnixPath
import VivadoServer.Sync.Checks

namespace VivadoServer.Sync

open UnixPath

/-- The characters that the grammar excludes. -/
def BadChar (ch : Char) : Prop :=
  ch.toNat ≤ 0x1f ∨ ch.toNat = 0x7f ∨ ch ∈ ['<', '>', '"', '|', '?', '*', ':', '\\']

instance (ch : Char) : Decidable (BadChar ch) := inferInstanceAs (Decidable (_ ∨ _ ∨ _))

/-- One to 4096 bytes of segments that are not empty, not too long, not reserved, and free
    of such characters. -/
structure Grammar (raw : String) : Prop where
  nonempty : 1 ≤ raw.utf8ByteSize
  size : raw.utf8ByteSize ≤ 4096
  named : ∀ part ∈ segments raw, part ≠ "" ∧ part ≠ "." ∧ part ≠ ".." ∧ part ≠ INTERNAL_DIR
  short : ∀ part ∈ segments raw, part.utf8ByteSize ≤ 255
  chars : ∀ part ∈ segments raw, ∀ ch ∈ part.toList, ¬ BadChar ch

/-- `resolve_relative_path`, where the root is any path of the system. -/
def resolvePath (root : UnixPath.Bytes) (path : String) : Except AppError UnixPath.Bytes := do
  let normalized ← normalizeSyncPath path
  return (segments normalized).foldl (fun p part => push p (fileName part)) root

section Grammar

variable {raw path part : String} {ch : Char}

theorem forbidden_iff : forbidden ch = true ↔ BadChar ch ∨ ch = '/' := by
  have hlow : ch ≤ Char.ofNat 0x1f ↔ ch.toNat ≤ 0x1f := by
    rw [Char.le_def, UInt32.le_iff_toNat_le]
    exact Iff.rfl
  have hdelete : ch = Char.ofNat 0x7f ↔ ch.toNat = 0x7f := by
    constructor
    · rintro rfl
      rfl
    · intro h
      rw [← Char.ofNat_toNat ch, h]
  simp only [forbidden, BadChar, Bool.or_eq_true, decide_eq_true_eq, beq_iff_eq, List.contains_iff_mem,
    hlow, hdelete, List.mem_cons, List.not_mem_nil, or_false]
  grind

/-- A segment that is accepted, and what the grammar says of it. -/
theorem portable_iff (hslash : '/' ∉ part.toList) : validatePortableSegment part = true ↔
    (part ≠ "" ∧ part ≠ "." ∧ part ≠ ".." ∧ part ≠ INTERNAL_DIR) ∧ part.utf8ByteSize ≤ 255 ∧
      ∀ ch ∈ part.toList, ¬ BadChar ch := by
  have hchars : (∀ ch ∈ part.toList, ¬ forbidden ch = true) ↔ ∀ ch ∈ part.toList, ¬ BadChar ch := by
    constructor
    · intro h ch hch hbad
      exact h ch hch (forbidden_iff.mpr (.inl hbad))
    · intro h ch hch hbad
      obtain hbad | rfl := forbidden_iff.mp hbad
      · exact h ch hch hbad
      · exact hslash hch
  rw [← hchars]
  simp only [validatePortableSegment, Bool.not_eq_true', Bool.or_eq_false_iff, List.any_eq_false,
    decide_eq_false_iff_not, Nat.not_lt, List.contains_eq_mem, List.mem_cons, List.not_mem_nil, or_false,
    not_or, String.isEmpty_eq_false_iff]
  grind

/-- A character of a path is a slash or stands in a segment. -/
theorem mem_segments_of_mem (h : ch ∈ path.toList) : ch = '/' ∨ ∃ part ∈ segments path, ch ∈ part.toList := by
  rw [← join_segments path, join_toList] at h
  have hparts : ∀ parts : List String, ch ∈ ['/'].intercalate (parts.map String.toList) →
      ch = '/' ∨ ∃ part ∈ parts, ch ∈ part.toList := by
    intro parts hmem
    induction parts with
    | nil => cases hmem
    | cons first rest ih =>
        cases rest with
        | nil =>
            rw [List.map_singleton, List.intercalate_singleton] at hmem
            exact .inr ⟨first, List.mem_cons_self, hmem⟩
        | cons second rest =>
            rw [List.map_cons, List.map_cons, List.intercalate_cons_cons, List.mem_append,
              List.mem_append, List.mem_singleton] at hmem
            obtain (hfirst | hslash) | hrest := hmem
            · exact .inr ⟨first, List.mem_cons_self, hfirst⟩
            · exact .inl hslash
            · exact (ih hrest).imp_right fun ⟨part, hpart, hch⟩ => ⟨part, List.mem_cons_of_mem _ hpart, hch⟩
  exact hparts (segments path) h

theorem validPath_iff_grammar : ValidPath raw ↔ Grammar raw := by
  rw [validPath_iff]
  constructor
  · rintro ⟨hsize, -, hparts⟩
    have hportable : ∀ part ∈ segments raw, _ := fun part hpart =>
      (portable_iff (slash_notMem_segments hpart)).mp (hparts part hpart)
    refine ⟨?_, hsize, fun part hpart => (hportable part hpart).1,
      fun part hpart => (hportable part hpart).2.1, fun part hpart => (hportable part hpart).2.2⟩
    apply Nat.one_le_iff_ne_zero.mpr
    intro hzero
    obtain rfl := String.utf8ByteSize_eq_zero_iff.mp hzero
    exact (hportable "" (by decide +kernel)).1.1 rfl
  · rintro ⟨-, hsize, hnamed, hshort, hchars⟩
    refine ⟨hsize, fun ch hch hmem => ?_, fun part hpart => ?_⟩
    · have hbad : BadChar ch ∧ ch ≠ '/' := by
        obtain rfl | rfl | rfl : ch = '\\' ∨ ch = ':' ∨ ch = Char.ofNat 0 := by simpa using hch
        · decide
        · decide
        · decide
      obtain hslash | ⟨part, hpart, hin⟩ := mem_segments_of_mem hmem
      · exact hbad.2 hslash
      · exact hchars part hpart ch hin hbad.1
    · exact (portable_iff (slash_notMem_segments hpart)).mpr
        ⟨hnamed part hpart, hshort part hpart, hchars part hpart⟩

/-- What is accepted is what the grammar says, and is not changed. -/
theorem normalizeSyncPath_iff : normalizeSyncPath raw = .ok path ↔ path = raw ∧ Grammar raw := by
  rw [← validPath_iff_grammar]
  constructor
  · exact normalizeSyncPath_eq
  · rintro ⟨rfl, h⟩
    exact h

/-! ## Where a path leads -/

variable {root place place' : UnixPath.Bytes} {p q : String}

/-- The segments of a path are what resolving it adds to the root. -/
theorem resolvePath_iff : resolvePath root path = .ok place ↔
    Grammar path ∧ place = ((segments path).map fileName).foldl push root := by
  unfold resolvePath
  rw [List.foldl_map]
  cases hnormal : normalizeSyncPath path with
  | error e =>
      refine ⟨(by rintro ⟨⟩), fun h => ?_⟩
      rw [normalizeSyncPath_iff.mpr ⟨rfl, h.1⟩] at hnormal
      cases hnormal
  | ok normalized =>
      obtain ⟨rfl, hgrammar⟩ := normalizeSyncPath_iff.mp hnormal
      simp only [bind, Except.bind, pure, Except.pure, Except.ok.injEq]
      exact ⟨fun h => ⟨hgrammar, h.symm⟩, fun h => h.2.symm⟩

theorem resolvePath_components (h : resolvePath root path = .ok place) :
    components place = components root ++ (segments path).map (.normal ∘ fileName) := by
  obtain ⟨hgrammar, rfl⟩ := resolvePath_iff.mp h
  rw [components_pushAll, List.map_map]
  intro name hname
  obtain ⟨part, hpart, rfl⟩ := List.mem_map.mp hname
  obtain ⟨hempty, hdot, hdots, -⟩ := hgrammar.named part hpart
  exact plain_fileName hempty (slash_notMem_segments hpart) hdot hdots

theorem normal_injective : Function.Injective (Component.normal ∘ fileName) := fun _ _ h =>
  fileName_inj (Component.normal.inj h)

/-- Two paths with one place are one path. -/
theorem resolvePath_injective (hp : resolvePath root p = .ok place) (hq : resolvePath root q = .ok place')
    (h : components place = components place') : p = q := by
  rw [resolvePath_components hp, resolvePath_components hq, List.append_cancel_left_eq] at h
  exact segments_inj (normal_injective.list_map h)

/-- The ancestors of a path lead to the ancestors of its place. -/
theorem resolvePath_ancestor (hp : resolvePath root p = .ok place) (hq : resolvePath root q = .ok place') :
    p ∈ parentPaths q ↔ components place <+: components place' ∧ components place ≠ components place' := by
  rw [mem_parentPaths, Above]
  have hbegins : components place <+: components place' ↔ segments p <+: segments q := by
    rw [resolvePath_components hp, resolvePath_components hq, List.prefix_append_right_inj]
    exact List.prefix_map_iff_of_injective normal_injective
  have hne : components place ≠ components place' ↔ p ≠ q := by
    refine not_congr ⟨resolvePath_injective hp hq, ?_⟩
    rintro rfl
    rw [hp] at hq
    cases hq
    rfl
  rw [hbegins, hne]

/-- The paths that are accepted are those of the grammar, unchanged.  Against any root such
    a path leads strictly below it, by its segments; no two lead to one place, and one is
    above another where its place is.  None is or lies below the internal directory. -/
theorem sync_path_grammar :
    (∀ raw path, normalizeSyncPath raw = .ok path ↔ path = raw ∧ Grammar raw) ∧
    (∀ root path, Grammar path → ∃ place, resolvePath root path = .ok place ∧
      segments path ≠ [] ∧
      components place = components root ++ (segments path).map (.normal ∘ fileName)) ∧
    (∀ root p q place place', resolvePath root p = .ok place → resolvePath root q = .ok place' →
      (components place = components place' → p = q) ∧
      (p ∈ parentPaths q ↔
        components place <+: components place' ∧ components place ≠ components place')) ∧
    ∀ path, Grammar path → ∀ part ∈ segments path, part ≠ INTERNAL_DIR := by
  refine ⟨fun raw path => normalizeSyncPath_iff, fun root path hgrammar => ?_,
    fun root p q place place' hp hq => ⟨resolvePath_injective hp hq, resolvePath_ancestor hp hq⟩,
    fun path hgrammar part hpart => (hgrammar.named part hpart).2.2.2⟩
  have hplace : resolvePath root path = .ok _ := resolvePath_iff.mpr ⟨hgrammar, rfl⟩
  exact ⟨_, hplace, segments_ne_nil path, resolvePath_components hplace⟩

end Grammar

end VivadoServer.Sync
