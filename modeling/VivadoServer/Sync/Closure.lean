/-
  VivadoServer.Sync.Closure

  The closure of a manifest under parents (`synthesize_parent_dirs`): just when it
  succeeds, and what it adds.  Both are said about the set of the paths and of what
  stands above them, so the order of the entries does not matter.
-/

import VivadoServer.Sync.Scan
import Mathlib.Data.Finset.Card
import Mathlib.Data.Finset.Dedup

namespace VivadoServer.Sync

/-- The paths of the entries and all that is above them. -/
def closedPaths (entries : List ManifestEntry) : Finset String :=
  (entries.map (·.path) ++ parentsOf entries).toFinset

section Closure

variable {maxEntries : Nat} {entries entries' out : List ManifestEntry} {e : ManifestEntry} {q : String}

theorem mem_closedPaths : q ∈ closedPaths entries ↔ ∃ e ∈ entries, q = e.path ∨ Above q e.path := by
  rw [closedPaths, List.mem_toFinset, List.mem_append, List.mem_map, mem_parentsOf]
  constructor
  · rintro (⟨e, he, rfl⟩ | ⟨e, he, habove⟩)
    · exact ⟨e, he, .inl rfl⟩
    · exact ⟨e, he, .inr habove⟩
  · rintro ⟨e, he, rfl | habove⟩
    · exact .inl ⟨e, he, rfl⟩
    · exact .inr ⟨e, he, habove⟩

/-- The paths of the result are the closed set. -/
theorem Completes.paths (h : Completes entries (parentsOf entries) out) :
    (out.map (·.path)).toFinset = closedPaths entries := by
  ext q
  rw [List.mem_toFinset, mem_closedPaths, List.mem_map]
  constructor
  · rintro ⟨e, he, rfl⟩
    obtain he | ⟨q, hq, -, rfl⟩ := h.mem.mp he
    · exact ⟨e, he, .inl rfl⟩
    · obtain ⟨e', he', habove⟩ := mem_parentsOf.mp hq
      exact ⟨e', he', .inr habove⟩
  · rintro ⟨e, he, rfl | habove⟩
    · exact ⟨e, h.mem.mpr (.inl he), rfl⟩
    · by_cases hq : q ∈ entries.map (·.path)
      · obtain ⟨e', he', rfl⟩ := List.mem_map.mp hq
        exact ⟨e', h.mem.mpr (.inl he'), rfl⟩
      · exact ⟨dirEntry q, h.mem.mpr (.inr ⟨q, mem_parentsOf.mpr ⟨e, he, habove⟩, hq, rfl⟩), rfl⟩

/-- What is above a path of the result is above a path of the entries. -/
theorem Completes.above (h : Completes entries (parentsOf entries) out) (he : e ∈ out)
    (habove : Above q e.path) : ∃ e' ∈ entries, Above q e'.path := by
  obtain he | ⟨q', hq', -, rfl⟩ := h.mem.mp he
  · exact ⟨e, he, habove⟩
  · obtain ⟨e', he', habove'⟩ := mem_parentsOf.mp hq'
    exact ⟨e', he', habove.trans habove'⟩

/-- No file stands above another entry. -/
def FilesAreLeaves (entries : List ManifestEntry) : Prop :=
  ∀ e ∈ entries, ∀ e' ∈ entries, Above e.path e'.path → e.kind ≠ .file

theorem synthesize_succeeds_iff (hnodup : (entries.map (·.path)).Nodup)
    (hmax : entries.length ≤ maxEntries) :
    (∃ out, synthesizeParentDirs maxEntries entries = .ok out) ↔
      FilesAreLeaves entries ∧ (closedPaths entries).card ≤ maxEntries := by
  constructor
  · rintro ⟨out, hout⟩
    obtain ⟨hcompletes, hlength, hdirs⟩ := synthesizeParentDirs_ok hnodup hout
    refine ⟨fun e he e' he' habove hfile => ?_, ?_⟩
    · have hdir := hdirs e he (mem_parentsOf.mpr ⟨e', he', habove⟩)
      rw [hfile] at hdir
      cases hdir
    · rw [← hcompletes.paths, List.toFinset_card_of_nodup hcompletes.nodup, List.length_map]
      omega
  · rintro ⟨hleaves, hcard⟩
    have hdirs : ∀ e ∈ entries, e.path ∈ parentsOf entries → e.kind = .dir := by
      intro e he hparent
      obtain ⟨e', he', habove⟩ := mem_parentsOf.mp hparent
      have hnot := hleaves e he e' he' habove
      cases hkind : e.kind with
      | dir => rfl
      | file => exact absurd hkind hnot
    have hentries : ∀ e ∈ entries, e.path ∈ (closedPaths entries).toList := fun e he =>
      Finset.mem_toList.mpr (mem_closedPaths.mpr ⟨e, he, .inl rfl⟩)
    have hparents : ∀ q ∈ parentsOf entries, q ∈ (closedPaths entries).toList := by
      intro q hq
      obtain ⟨e, he, habove⟩ := mem_parentsOf.mp hq
      exact Finset.mem_toList.mpr (mem_closedPaths.mpr ⟨e, he, .inr habove⟩)
    have hroom : (closedPaths entries).toList.length ≤ maxEntries := by
      rw [Finset.length_toList]
      exact hcard
    exact synthesizeParentDirs_total hnodup hdirs hentries hparents hroom

theorem closedPaths_perm (hperm : entries'.Perm entries) : closedPaths entries' = closedPaths entries := by
  ext q
  rw [mem_closedPaths, mem_closedPaths]
  exact exists_congr fun e => and_congr_left' hperm.mem_iff

theorem filesAreLeaves_perm (hperm : entries'.Perm entries) :
    FilesAreLeaves entries' ↔ FilesAreLeaves entries := by
  simp only [FilesAreLeaves, hperm.mem_iff]

/-- With distinct paths, and room for the entries themselves: the closure succeeds just where
    no file is above another entry and all paths have room; it adds one directory for each
    missing ancestor and nothing else; and neither depends on the order. -/
theorem parent_closure (hnodup : (entries.map (·.path)).Nodup) (hmax : entries.length ≤ maxEntries) :
    ((∃ out, synthesizeParentDirs maxEntries entries = .ok out) ↔
      FilesAreLeaves entries ∧ (closedPaths entries).card ≤ maxEntries) ∧
    (∀ out, synthesizeParentDirs maxEntries entries = .ok out →
      (out.map (·.path)).Nodup ∧
      (∀ e, e ∈ out ↔ e ∈ entries ∨
        ∃ q, (∃ e' ∈ entries, Above q e'.path) ∧ q ∉ entries.map (·.path) ∧ e = dirEntry q) ∧
      ∀ e ∈ out, ∀ q, Above q e.path → ∃ d ∈ out, d.path = q ∧ d.kind = .dir) ∧
    ∀ entries', entries'.Perm entries →
      ((∃ out, synthesizeParentDirs maxEntries entries' = .ok out) ↔
        ∃ out, synthesizeParentDirs maxEntries entries = .ok out) ∧
      ∀ out out', synthesizeParentDirs maxEntries entries = .ok out →
        synthesizeParentDirs maxEntries entries' = .ok out' → ∀ e, e ∈ out' ↔ e ∈ out := by
  have hmembers : ∀ {entries out : List ManifestEntry}, (entries.map (·.path)).Nodup →
      synthesizeParentDirs maxEntries entries = .ok out → ∀ e, e ∈ out ↔ e ∈ entries ∨
        ∃ q, (∃ e' ∈ entries, Above q e'.path) ∧ q ∉ entries.map (·.path) ∧ e = dirEntry q := by
    intro entries out hnodup hout e
    rw [(synthesizeParentDirs_ok hnodup hout).1.mem]
    simp only [mem_parentsOf]
  refine ⟨synthesize_succeeds_iff hnodup hmax, fun out hout => ?_, fun entries' hperm => ?_⟩
  · obtain ⟨hcompletes, -, hdirs⟩ := synthesizeParentDirs_ok hnodup hout
    refine ⟨hcompletes.nodup, hmembers hnodup hout, fun e he q habove => ?_⟩
    obtain ⟨e', he', habove'⟩ := hcompletes.above he habove
    have hparent : q ∈ parentsOf entries := mem_parentsOf.mpr ⟨e', he', habove'⟩
    by_cases hq : q ∈ entries.map (·.path)
    · obtain ⟨d, hd, rfl⟩ := List.mem_map.mp hq
      exact ⟨d, hcompletes.mem.mpr (.inl hd), rfl, hdirs d hd hparent⟩
    · exact ⟨dirEntry q, hcompletes.mem.mpr (.inr ⟨q, hparent, hq, rfl⟩), rfl, rfl⟩
  · have hnodup' : (entries'.map (·.path)).Nodup := (hperm.map _).nodup_iff.mpr hnodup
    refine ⟨?_, fun out out' hout hout' e => ?_⟩
    · rw [synthesize_succeeds_iff hnodup hmax, synthesize_succeeds_iff hnodup' (hperm.length_eq ▸ hmax),
        closedPaths_perm hperm, filesAreLeaves_perm hperm]
    · rw [hmembers hnodup hout, hmembers hnodup' hout']
      simp only [hperm.mem_iff, (hperm.map _).mem_iff]

theorem parent_closure_sample : (closedPaths [dirEntry "rtl/core/alu"]).card ≤ 3 ∧
    ∃ out, synthesizeParentDirs 3 [dirEntry "rtl/core/alu"] = .ok out ∧ dirEntry "rtl" ∈ out := by
  have hnodup : ([dirEntry "rtl/core/alu"].map (·.path)).Nodup := List.nodup_singleton _
  have hmax : [dirEntry "rtl/core/alu"].length ≤ 3 := by decide
  obtain ⟨hsucceeds, hout, -⟩ := parent_closure hnodup hmax
  have hcard : (closedPaths [dirEntry "rtl/core/alu"]).card ≤ 3 := by decide +kernel
  have hleaves : FilesAreLeaves [dirEntry "rtl/core/alu"] := by
    intro e he e' he' _ hfile
    rw [List.mem_singleton.mp he] at hfile
    cases hfile
  obtain ⟨out, heq⟩ := hsucceeds.mpr ⟨hleaves, hcard⟩
  refine ⟨hcard, out, heq, ((hout out heq).2.1 _).mpr (.inr ⟨"rtl", ⟨_, List.mem_singleton_self _, ?_⟩, ?_, rfl⟩)⟩
  · decide +kernel
  · decide +kernel

end Closure

end VivadoServer.Sync
