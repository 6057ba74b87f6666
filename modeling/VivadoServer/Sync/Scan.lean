/-
  VivadoServer.Sync.Scan

  What the walk over a project tree yields, and what the check of a client's
  manifest accepts.  Each is a loop that takes the selected entries in the order
  it meets them; the directories above them are added afterwards, and the order of
  the paths makes the result one list.
-/

import VivadoServer.Lib.Fold
import VivadoServer.Sync.Manifest

namespace VivadoServer.Sync

open FileTree

/-! ## Adding the directories above -/

/-- `out` is `entries` with a directory for each further path of `parents`. -/
structure Completes (entries : List ManifestEntry) (parents : List String)
    (out : List ManifestEntry) : Prop where
  mem : ∀ {e}, e ∈ out ↔
    e ∈ entries ∨ ∃ q ∈ parents, q ∉ entries.map (·.path) ∧ e = dirEntry q
  nodup : (out.map (·.path)).Nodup

/-- The state of `synthesize_parent_dirs` after it met the paths `past`. -/
structure Synthesis.Sound (maxEntries : Nat) (entries : List ManifestEntry) (past : List String)
    (s : Synthesis) : Prop where
  completes : Completes entries past s.entries
  kinds : ∀ {p k}, s.kinds p = some k ↔ ∃ e ∈ s.entries, e.path = p ∧ e.kind = k
  dirs : ∀ {e}, e ∈ entries → e.path ∈ past → e.kind = .dir
  length : s.entries.length ≤ max entries.length maxEntries

/-- The directories above the entries. -/
def parentsOf (entries : List ManifestEntry) : List String :=
  entries.flatMap fun entry => parentPaths entry.path

theorem mem_parentsOf {entries : List ManifestEntry} {q : String} :
    q ∈ parentsOf entries ↔ ∃ e ∈ entries, Above q e.path := by
  simp [parentsOf]

section Synthesis

variable {maxEntries : Nat} {entries out : List ManifestEntry} {past : List String}
  {parent : String} {s s' : Synthesis}

theorem collectKinds_iff (hnodup : (entries.map (·.path)).Nodup) {p : String}
    {k : ManifestEntryKind} :
    collectKinds entries p = some k ↔ ∃ e ∈ entries, e.path = p ∧ e.kind = k := by
  rw [collectKinds, Option.map_eq_some_iff]
  constructor
  · rintro ⟨e, hfind, hk⟩
    refine ⟨e, List.mem_reverse.mp (List.mem_of_find?_eq_some hfind), ?_, hk⟩
    simpa using List.find?_some hfind
  · rintro ⟨e, he, rfl, hk⟩
    refine ⟨e, ?_, hk⟩
    cases hfind : entries.reverse.find? (·.path == e.path) with
    | none =>
        rw [List.find?_eq_none] at hfind
        exact absurd (hfind e (List.mem_reverse.mpr he)) (by simp)
    | some e' =>
        have he' : e' ∈ entries := List.mem_reverse.mp (List.mem_of_find?_eq_some hfind)
        have hpath : e'.path = e.path := by simpa using List.find?_some hfind
        rw [List.inj_on_of_nodup_map hnodup he' he hpath]

theorem Synthesis.sound_init (hnodup : (entries.map (·.path)).Nodup) :
    Synthesis.Sound maxEntries entries [] { entries := entries, kinds := collectKinds entries } where
  completes := { mem := by simp, nodup := hnodup }
  kinds := collectKinds_iff hnodup
  dirs := by rintro _ _ ⟨⟩
  length := Nat.le_max_left _ _

theorem Synthesis.Sound.kinds_none (h : s.Sound maxEntries entries past) {p : String} :
    s.kinds p = none ↔ p ∉ s.entries.map (·.path) := by
  rw [Option.eq_none_iff_forall_ne_some, List.mem_map]
  constructor
  · rintro hnone ⟨e, he, hp⟩
    exact hnone e.kind (h.kinds.mpr ⟨e, he, hp, rfl⟩)
  · intro hfree k hk
    obtain ⟨e, he, hp, -⟩ := h.kinds.mp hk
    exact hfree ⟨e, he, hp⟩

/-- A directory that is met again changes nothing. -/
theorem Synthesis.Sound.skip (h : s.Sound maxEntries entries past) (hk : s.kinds parent = some .dir) :
    s.Sound maxEntries entries (past ++ [parent]) := by
  obtain ⟨found, hfound, hpath, hdir⟩ := h.kinds.mp hk
  refine { h with completes := ⟨?_, h.completes.nodup⟩, dirs := ?_ }
  · intro e
    rw [h.completes.mem]
    constructor
    · rintro (he | ⟨q, hq, hfree, rfl⟩)
      · exact .inl he
      · exact .inr ⟨q, List.mem_append_left _ hq, hfree, rfl⟩
    · rintro (he | ⟨q, hq, hfree, rfl⟩)
      · exact .inl he
      · obtain hq | rfl : q ∈ past ∨ q = parent := by simpa using hq
        · exact .inr ⟨q, hq, hfree, rfl⟩
        · -- it is one of those added before
          obtain hfound | ⟨q', hq', hfree', rfl⟩ := h.completes.mem.mp hfound
          · exact absurd (List.mem_map.mpr ⟨found, hfound, hpath⟩) hfree
          · cases hpath
            exact .inr ⟨_, hq', hfree', rfl⟩
  · intro e he hmem
    obtain hmem | hparent : e.path ∈ past ∨ e.path = parent := by simpa using hmem
    · exact h.dirs he hmem
    · have hentry : e ∈ s.entries := h.completes.mem.mpr (.inl he)
      rw [List.inj_on_of_nodup_map h.completes.nodup hentry hfound (hparent.trans hpath.symm)]
      exact hdir

/-- A directory that is new is added. -/
theorem Synthesis.Sound.add (h : s.Sound maxEntries entries past) (hk : s.kinds parent = none)
    (hroom : s.entries.length < maxEntries) :
    Synthesis.Sound maxEntries entries (past ++ [parent]) {
      entries := s.entries ++ [dirEntry parent]
      kinds := fun path => if path = parent then some .dir else s.kinds path } := by
  have hfree := h.kinds_none.mp hk
  have hnew : parent ∉ entries.map (·.path) := by
    intro hmem
    obtain ⟨e, he, hpath⟩ := List.mem_map.mp hmem
    exact hfree (List.mem_map.mpr ⟨e, h.completes.mem.mpr (.inl he), hpath⟩)
  refine { completes := ⟨?_, ?_⟩, kinds := ?_, dirs := ?_, length := ?_ }
  · intro e
    rw [List.mem_append, h.completes.mem, List.mem_singleton]
    constructor
    · rintro ((he | ⟨q, hq, hfree, rfl⟩) | rfl)
      · exact .inl he
      · exact .inr ⟨q, List.mem_append_left _ hq, hfree, rfl⟩
      · exact .inr ⟨parent, by simp, hnew, rfl⟩
    · rintro (he | ⟨q, hq, hfree, rfl⟩)
      · exact .inl (.inl he)
      · obtain hq | rfl : q ∈ past ∨ q = parent := by simpa using hq
        · exact .inl (.inr ⟨q, hq, hfree, rfl⟩)
        · exact .inr rfl
  · rw [List.map_append, List.nodup_append]
    refine ⟨h.completes.nodup, by simp, ?_⟩
    intro a ha b hb
    obtain rfl : b = parent := by simpa [dirEntry] using hb
    rintro rfl
    exact hfree ha
  · intro p k
    show (if p = parent then some .dir else s.kinds p) = some k ↔ _
    split
    · rename_i hp
      subst hp
      constructor
      · intro hdir
        cases hdir
        exact ⟨dirEntry p, by simp, rfl, rfl⟩
      · rintro ⟨e, he, hpath, rfl⟩
        obtain he | rfl : e ∈ s.entries ∨ e = dirEntry p := by simpa using he
        · exact absurd (List.mem_map.mpr ⟨e, he, hpath⟩) hfree
        · rfl
    · rename_i hp
      rw [h.kinds]
      constructor
      · rintro ⟨e, he, hpath, hkind⟩
        exact ⟨e, List.mem_append_left _ he, hpath, hkind⟩
      · rintro ⟨e, he, hpath, hkind⟩
        obtain he | rfl : e ∈ s.entries ∨ e = dirEntry parent := by simpa using he
        · exact ⟨e, he, hpath, hkind⟩
        · exact absurd hpath.symm hp
  · intro e he hmem
    obtain hmem | hparent : e.path ∈ past ∨ e.path = parent := by simpa using hmem
    · exact h.dirs he hmem
    · exact absurd (List.mem_map.mpr ⟨e, he, hparent⟩) hnew
  · have := h.length
    simp only [List.length_append, List.length_singleton]
    omega

theorem addParent_sound (h : s.Sound maxEntries entries past)
    (hstep : addParent maxEntries s parent = .ok s') :
    s'.Sound maxEntries entries (past ++ [parent]) := by
  unfold addParent at hstep
  split at hstep
  · cases hstep
  · rename_i hk
    cases hstep
    exact h.skip hk
  · rename_i hk
    split at hstep
    · cases hstep
    · rename_i hroom
      cases hstep
      exact h.add hk (by omega)

/-- A directory is added as long as there is room for all of them. -/
theorem addParent_total {closed : List String} (h : s.Sound maxEntries entries past)
    (hdir : ∀ e ∈ entries, e.path = parent → e.kind = .dir)
    (hentries : ∀ e ∈ entries, e.path ∈ closed) (hpast : ∀ q ∈ past ++ [parent], q ∈ closed)
    (hroom : closed.length ≤ maxEntries) : ∃ s', addParent maxEntries s parent = .ok s' := by
  unfold addParent
  split
  · rename_i hk
    obtain ⟨e, he, hpath, hfile⟩ := h.kinds.mp hk
    obtain he | ⟨q, -, -, rfl⟩ := h.completes.mem.mp he
    · rw [hdir e he hpath] at hfile
      cases hfile
    · cases hfile
  · exact ⟨_, rfl⟩
  · rename_i hk
    -- the paths so far and the new one are different, and all of them have room
    have hnodup : (parent :: s.entries.map (·.path)).Nodup :=
      List.nodup_cons.mpr ⟨h.kinds_none.mp hk, h.completes.nodup⟩
    have hsub : parent :: s.entries.map (·.path) ⊆ closed := by
      intro p hp
      obtain rfl | hp := List.mem_cons.mp hp
      · exact hpast p (by simp)
      · obtain ⟨e, he, rfl⟩ := List.mem_map.mp hp
        obtain he | ⟨q, hq, -, rfl⟩ := h.completes.mem.mp he
        · exact hentries e he
        · exact hpast q (List.mem_append_left _ hq)
    have hlength := (List.subperm_of_subset hnodup hsub).length_le
    rw [List.length_cons, List.length_map] at hlength
    rw [if_neg (by omega)]
    exact ⟨_, rfl⟩

theorem synthesizeParentDirs_ok (hnodup : (entries.map (·.path)).Nodup)
    (h : synthesizeParentDirs maxEntries entries = .ok out) :
    Completes entries (parentsOf entries) out ∧ out.length ≤ max entries.length maxEntries ∧
      ∀ e ∈ entries, e.path ∈ parentsOf entries → e.kind = .dir := by
  simp only [synthesizeParentDirs, bind, Except.bind] at h
  split at h
  · cases h
  · rename_i s hloop
    cases h
    have hsound : s.Sound maxEntries entries (parentsOf entries) :=
      Fold.foldlM_rule (P := fun past s => s.Sound maxEntries entries past)
        (fun _ _ _ _ _ _ hpast hstep => addParent_sound hpast hstep)
        (Synthesis.sound_init hnodup) hloop
    exact ⟨hsound.completes, hsound.length, fun e he => hsound.dirs he⟩

theorem synthesizeParentDirs_total {closed : List String} (hnodup : (entries.map (·.path)).Nodup)
    (hdirs : ∀ e ∈ entries, e.path ∈ parentsOf entries → e.kind = .dir)
    (hentries : ∀ e ∈ entries, e.path ∈ closed) (hparents : ∀ q ∈ parentsOf entries, q ∈ closed)
    (hroom : closed.length ≤ maxEntries) :
    ∃ out, synthesizeParentDirs maxEntries entries = .ok out := by
  have hloop : ∃ s, (parentsOf entries).foldlM (addParent maxEntries)
      { entries := entries, kinds := collectKinds entries } = .ok s ∧
      s.Sound maxEntries entries (parentsOf entries) := by
    apply Fold.foldlM_total (P := fun past (s : Synthesis) => s.Sound maxEntries entries past)
    · intro past parent rest s hl hpast
      have hsub : ∀ q ∈ past ++ [parent], q ∈ parentsOf entries := by
        intro q hq
        rw [hl]
        obtain hq | hq := List.mem_append.mp hq
        · exact List.mem_append_left _ hq
        · exact List.mem_append_right _ (List.mem_singleton.mp hq ▸ List.mem_cons_self ..)
      obtain ⟨s', hstep⟩ := addParent_total hpast
        (fun e he hpath => hdirs e he (hpath ▸ hsub parent (by simp))) hentries
        (fun q hq => hparents q (hsub q hq)) hroom
      exact ⟨s', hstep, addParent_sound hpast hstep⟩
    · exact Synthesis.sound_init hnodup
  obtain ⟨s, hs, -⟩ := hloop
  refine ⟨s.entries, ?_⟩
  simp only [synthesizeParentDirs, bind, Except.bind]
  rw [show (entries.flatMap fun entry => parentPaths entry.path) = parentsOf entries from rfl, hs]
  rfl

end Synthesis

/-! ## The order of the paths -/

section Sorting

variable {entries entries' : List ManifestEntry}

theorem mem_sortByPath {e : ManifestEntry} : e ∈ sortByPath entries ↔ e ∈ entries :=
  List.mem_mergeSort

theorem pairwise_sortByPath (hnodup : (entries.map (·.path)).Nodup) :
    (sortByPath entries).Pairwise fun a b => a.path < b.path := by
  have hle : (sortByPath entries).Pairwise fun a b => a.path ≤ b.path := by
    have hsorted : (sortByPath entries).Pairwise fun a b => decide (a.path ≤ b.path) = true :=
      List.pairwise_mergeSort
        (fun a b c hab hbc => by simpa using le_trans (of_decide_eq_true hab) (of_decide_eq_true hbc))
        (fun a b => by simpa using le_total a.path b.path) entries
    exact hsorted.imp fun h => of_decide_eq_true h
  have hne : (sortByPath entries).Pairwise fun a b => a.path ≠ b.path :=
    List.pairwise_map.mp (((List.mergeSort_perm entries _).map _).nodup_iff.mpr hnodup)
  exact hle.imp₂ (fun a b hab hne => lt_of_le_of_ne hab hne) hne

/-- Two lists in the order of their paths with the same entries are one. -/
theorem eq_of_sorted (h : entries.Pairwise fun a b => a.path < b.path)
    (h' : entries'.Pairwise fun a b => a.path < b.path) (hmem : ∀ e, e ∈ entries ↔ e ∈ entries') :
    entries = entries' := by
  have hnodup : ∀ {l : List ManifestEntry}, l.Pairwise (fun a b => a.path < b.path) → l.Nodup :=
    fun hl => hl.imp fun hlt heq => by rw [heq] at hlt; exact lt_irrefl _ hlt
  have hperm := (List.perm_ext_iff_of_nodup (hnodup h) (hnodup h')).mpr hmem
  refine hperm.eq_of_pairwise ?_ h h'
  intro a b _ _ hab hba
  exact absurd (hab.trans hba) (lt_irrefl _)

end Sorting

/-! ## Manifests -/

/-- `out` is the manifest of what is selected: these entries and the directories
    above them, in the order of their paths. -/
structure IsManifest (selected : ManifestEntry → Prop) (out : List ManifestEntry) : Prop where
  sorted : out.Pairwise fun a b => a.path < b.path
  mem : ∀ {e}, e ∈ out ↔ selected e ∨
    ∃ q, e = dirEntry q ∧ (∃ e', selected e' ∧ Above q e'.path) ∧ ∀ e', selected e' → e'.path ≠ q
  dirs : ∀ {e e'}, selected e → selected e' → Above e.path e'.path → e = dirEntry e.path

section Manifests

variable {selected : ManifestEntry → Prop} {entries out : List ManifestEntry} {maxEntries : Nat}
  {e : ManifestEntry} {q : String}

theorem IsManifest.unique {out' : List ManifestEntry} (h : IsManifest selected out)
    (h' : IsManifest selected out') : out = out' :=
  eq_of_sorted h.sorted h'.sorted fun _ => h.mem.trans h'.mem.symm

/-- A manifest has every directory above its entries. -/
theorem IsManifest.parents (h : IsManifest selected out) (he : e ∈ out) (habove : Above q e.path) :
    dirEntry q ∈ out := by
  -- what stands above an added directory stands above what was selected
  obtain ⟨e', hselected, habove'⟩ : ∃ e', selected e' ∧ Above q e'.path := by
    obtain hselected | ⟨q', rfl, ⟨e', hselected, habove'⟩, -⟩ := h.mem.mp he
    · exact ⟨e, hselected, habove⟩
    · exact ⟨e', hselected, habove.trans habove'⟩
  by_cases hq : ∃ e'', selected e'' ∧ e''.path = q
  · obtain ⟨e'', hselected'', rfl⟩ := hq
    exact h.mem.mpr (.inl (h.dirs hselected'' hselected habove' ▸ hselected''))
  · refine h.mem.mpr (.inr ⟨q, rfl, ⟨e', hselected, habove'⟩, ?_⟩)
    rintro e'' hselected'' rfl
    exact hq ⟨e'', hselected'', rfl⟩

/-- Adding the directories above what is selected gives its manifest. -/
theorem isManifest_of_synthesize (hmem : ∀ e, e ∈ entries ↔ selected e)
    (hnodup : (entries.map (·.path)).Nodup) (hnormal : ∀ e ∈ entries, e.kind = .dir → e = dirEntry e.path)
    (h : synthesizeParentDirs maxEntries entries = .ok out) :
    IsManifest selected (sortByPath out) ∧ (sortByPath out).length ≤ max entries.length maxEntries := by
  obtain ⟨hcompletes, hlength, hdirs⟩ := synthesizeParentDirs_ok hnodup h
  refine ⟨{ sorted := pairwise_sortByPath hcompletes.nodup, mem := ?_, dirs := ?_ }, ?_⟩
  · intro e
    rw [mem_sortByPath, hcompletes.mem, hmem]
    constructor
    · rintro (he | ⟨q, hq, hfree, rfl⟩)
      · exact .inl he
      · obtain ⟨e', he', habove⟩ := mem_parentsOf.mp hq
        refine .inr ⟨q, rfl, ⟨e', (hmem e').mp he', habove⟩, ?_⟩
        rintro e'' he'' rfl
        exact hfree (List.mem_map.mpr ⟨e'', (hmem e'').mpr he'', rfl⟩)
    · rintro (he | ⟨q, rfl, ⟨e', he', habove⟩, hfree⟩)
      · exact .inl he
      · refine .inr ⟨q, mem_parentsOf.mpr ⟨e', (hmem e').mpr he', habove⟩, ?_, rfl⟩
        intro hq
        obtain ⟨e'', he'', hpath⟩ := List.mem_map.mp hq
        exact hfree e'' ((hmem e'').mp he'') hpath
  · intro e e' he he' habove
    have hentry := (hmem e).mpr he
    exact hnormal e hentry (hdirs e hentry (mem_parentsOf.mpr ⟨e', (hmem e').mpr he', habove⟩))
  · rw [sortByPath, List.length_mergeSort]
    exact hlength

end Manifests

/-! ## The scan -/

/-- What a manifest says of what stands on disk. -/
def described (digest : Sha256) : Node Leaf → Option (Node FileFacts)
  | .dir => some .dir
  | .file (.regular data) => some (.file (data.facts digest))
  | .file _ => none

/-- What the scan takes up from one entry of the walk. -/
def scanned (digest : Sha256) (filters : SyncFilters) (entry : List String × Node Leaf) :
    Option ManifestEntry :=
  if filters.matchesEntry (join entry.1) then
    (described digest entry.2).map (entryOf (join entry.1))
  else none

/-- A tree as a file system has it. -/
structure OnDisk (tree : Tree String Leaf) : Prop where
  valid : tree.Valid
  names : ∀ {p}, tree.view p ≠ none → ∀ name ∈ p, '/' ∉ name.toList

/-- The entries of a tree that the filters select. -/
def TreeSelected (digest : Sha256) (tree : Tree String Leaf) (filters : SyncFilters)
    (e : ManifestEntry) : Prop :=
  ∃ p node facts, p ≠ [] ∧ tree.view p = some node ∧ described digest node = some facts ∧
    filters.matchesEntry (join p) = true ∧ e = entryOf (join p) facts

/-- A scan takes up what stands at the path. -/
def Acceptable (digest : Sha256) (maxFileBytes : Nat) (entry : List String × Node Leaf) : Prop :=
  ValidPath (join entry.1) ∧ ∃ facts, described digest entry.2 = some facts ∧
    ∀ data, facts = .file data → data.sizeBytes ≤ maxFileBytes

section Scan

variable {digest : Sha256} {filters : SyncFilters} {maxEntries maxFileBytes : Nat}
  {entries entries' out : List ManifestEntry} {entry : List String × Node Leaf}
  {tree : Tree String Leaf} {p : List String}

/-- What a scan says of a file it takes up. -/
theorem scanEntry_ok (h : scanEntry digest filters maxEntries maxFileBytes entries entry = .ok entries') :
    entries' = entries ++ (scanned digest filters entry).toList ∧
    (filters.matchesEntry (join entry.1) = true →
      Acceptable digest maxFileBytes entry ∧ entries.length < maxEntries) := by
  obtain ⟨parts, node⟩ := entry
  by_cases hmatches : filters.matchesEntry (join parts) = true
  · simp only [scanEntry, hmatches, Bool.not_true, Bool.false_eq_true, if_false, bind, Except.bind,
      pure, Except.pure] at h
    cases hpath : normalizeSyncPath (join parts) with
    | error e =>
        rw [hpath] at h
        cases h
    | ok path =>
        obtain ⟨rfl, hvalid⟩ := normalizeSyncPath_eq hpath
        rw [hpath] at h
        by_cases hroom : maxEntries ≤ entries.length
        · simp only [hroom, if_true] at h
          cases h
        · simp only [hroom, if_false] at h
          cases node with
          | dir =>
              cases h
              exact ⟨by simp [scanned, hmatches, described, entryOf], fun _ =>
                ⟨⟨hvalid, .dir, rfl, (by rintro _ ⟨⟩)⟩, by omega⟩⟩
          | file leaf =>
              cases leaf with
              | link => cases h
              | special => cases h
              | regular data =>
                  simp only [FileData.transfer] at h
                  split at h
                  · cases h
                  · rename_i transfer htransfer
                    split at htransfer
                    · cases htransfer
                    · rename_i hsize
                      cases htransfer
                      cases h
                      refine ⟨by simp [scanned, hmatches, described, entryOf, fileEntry, FileData.facts],
                        fun _ => ⟨⟨hvalid, _, rfl, ?_⟩, by omega⟩⟩
                      rintro facts hfacts
                      cases hfacts
                      exact Nat.le_of_not_lt hsize
  · simp only [scanEntry, hmatches, bind, Except.bind, pure, Except.pure] at h
    cases h
    refine ⟨by simp [scanned, hmatches], fun hmatches' => absurd hmatches' hmatches⟩

theorem scanEntry_total (hroom : entries.length < maxEntries)
    (haccept : filters.matchesEntry (join entry.1) = true → Acceptable digest maxFileBytes entry) :
    ∃ entries', scanEntry digest filters maxEntries maxFileBytes entries entry = .ok entries' := by
  obtain ⟨parts, node⟩ := entry
  by_cases hmatches : filters.matchesEntry (join parts) = true
  · obtain ⟨hvalid, facts, hfacts, hsize⟩ := haccept hmatches
    simp only [scanEntry, hmatches, Bool.not_true, Bool.false_eq_true, if_false, bind, Except.bind,
      pure, Except.pure]
    rw [show normalizeSyncPath (join parts) = .ok (join parts) from hvalid]
    simp only [Nat.not_le.mpr hroom, if_false]
    cases node with
    | dir => exact ⟨_, rfl⟩
    | file leaf =>
        cases leaf with
        | link => cases hfacts
        | special => cases hfacts
        | regular data =>
            cases hfacts
            have hle : data.content.length ≤ maxFileBytes := hsize _ rfl
            simp only [FileData.transfer, Nat.not_lt.mpr hle, if_false]
            exact ⟨_, rfl⟩
  · exact ⟨entries, by simp [scanEntry, hmatches, pure, Except.pure]⟩

/-- The walk of a scan. -/
def scanWalk (tree : Tree String Leaf) (filters : SyncFilters) : List (List String × Node Leaf) :=
  tree.walk (fun parts => filters.shouldDescend (join parts)) []

theorem OnDisk.segments_join (h : OnDisk tree) (hp : p ≠ []) (hview : tree.view p ≠ none) :
    segments (join p) = p :=
  Sync.segments_join hp (h.names hview)

/-- What is above something on disk is a directory there. -/
theorem OnDisk.view_above (h : OnDisk tree) (hp : p ≠ []) (hview : tree.view p ≠ none) {q : String}
    (habove : Above q (join p)) : tree.view (segments q) = some .dir := by
  obtain ⟨rest, hrest, hsegments⟩ := above_iff.mp habove
  rw [h.segments_join hp hview] at hsegments
  rw [hsegments] at hview
  exact Tree.view_above hview hrest

/-- The scan meets everything it may descend to. -/
theorem mem_scanWalk (h : OnDisk tree) {node : Node Leaf} :
    (p, node) ∈ scanWalk tree filters ↔
      p ≠ [] ∧ tree.view p = some node ∧ filters.shouldDescend (join p) = true := by
  rw [scanWalk, Tree.mem_walk h.valid]
  constructor
  · rintro ⟨r, hr, rfl, hview, hdescend⟩
    exact ⟨hr, hview, hdescend _ hr List.prefix_rfl⟩
  · rintro ⟨hp, hview, hdescend⟩
    refine ⟨p, hp, rfl, hview, fun r hr hpre => ?_⟩
    by_cases hrp : r = p
    · rw [hrp]
      exact hdescend
    · obtain ⟨rest, rfl⟩ := hpre
      have hrest : rest ≠ [] := by
        rintro rfl
        exact hrp (List.append_nil r).symm
      have hnames : ∀ name ∈ r, '/' ∉ name.toList := fun name hname =>
        h.names (by rw [hview]; rintro ⟨⟩) name (List.mem_append_left _ hname)
      refine SyncFilters.shouldDescend_above (above_iff.mpr ⟨rest, hrest, ?_⟩) hdescend
      show segments (join (r ++ rest)) = segments (join r) ++ rest
      rw [h.segments_join hp (by rw [hview]; rintro ⟨⟩), Sync.segments_join hr hnames]

theorem scanned_eq_some {e : ManifestEntry} : scanned digest filters entry = some e ↔
    filters.matchesEntry (join entry.1) = true ∧
      ∃ facts, described digest entry.2 = some facts ∧ e = entryOf (join entry.1) facts := by
  unfold scanned
  split
  · rename_i hmatches
    rw [Option.map_eq_some_iff]
    simp only [hmatches, true_and, eq_comm]
  · rename_i hmatches
    simp [hmatches]

theorem mem_scanned (h : OnDisk tree) {e : ManifestEntry} :
    e ∈ (scanWalk tree filters).filterMap (scanned digest filters) ↔
      TreeSelected digest tree filters e := by
  rw [List.mem_filterMap]
  constructor
  · rintro ⟨⟨p, node⟩, hmem, hscanned⟩
    obtain ⟨hp, hview, -⟩ := (mem_scanWalk h).mp hmem
    obtain ⟨hmatches, facts, hfacts, rfl⟩ := scanned_eq_some.mp hscanned
    exact ⟨p, node, facts, hp, hview, hfacts, hmatches, rfl⟩
  · rintro ⟨p, node, facts, hp, hview, hfacts, hmatches, rfl⟩
    exact ⟨(p, node),
      (mem_scanWalk h).mpr ⟨hp, hview, SyncFilters.shouldDescend_of_matchesEntry hmatches⟩,
      scanned_eq_some.mpr ⟨hmatches, facts, hfacts, rfl⟩⟩

/-- A path on disk is the list of its segments, so no path is met twice. -/
theorem OnDisk.walk_paths (h : OnDisk tree) {descend : List String → Bool} :
    (tree.walk descend []).Pairwise fun a b => join a.1 ≠ join b.1 := by
  have hnodup : (tree.walk descend []).Pairwise fun a b => a.1 ≠ b.1 :=
    List.pairwise_map.mp (Tree.nodup_walk h.valid)
  have hsegments : ∀ entry ∈ tree.walk descend [], segments (join entry.1) = entry.1 := by
    intro entry hmem
    obtain ⟨p, hp, hentry, hview, -⟩ := (Tree.mem_walk h.valid).mp (show (entry.1, entry.2) ∈ _ from hmem)
    rw [List.nil_append] at hentry
    rw [hentry]
    exact h.segments_join hp (by rw [hview]; rintro ⟨⟩)
  refine hnodup.imp_of_mem fun {a b} ha hb hne heq => hne ?_
  rw [← hsegments a ha, heq, hsegments b hb]

/-- What was taken up on the way has different paths. -/
theorem nodup_scanned (h : OnDisk tree) :
    (((scanWalk tree filters).filterMap (scanned digest filters)).map (·.path)).Nodup := by
  have hwalk : (scanWalk tree filters).Pairwise fun a b => join a.1 ≠ join b.1 := h.walk_paths
  refine List.pairwise_map.mpr (hwalk.filterMap _ fun a b hne e he e' he' => ?_)
  obtain ⟨-, facts, -, rfl⟩ := scanned_eq_some.mp he
  obtain ⟨-, facts', -, rfl⟩ := scanned_eq_some.mp he'
  rwa [entryOf_path, entryOf_path]

/-- What a scan yields, with the limits it kept. -/
structure Scanned (digest : Sha256) (tree : Tree String Leaf) (filters : SyncFilters)
    (maxEntries maxFileBytes : Nat) (out : List ManifestEntry) : Prop where
  manifest : IsManifest (TreeSelected digest tree filters) out
  length : out.length ≤ maxEntries
  accepted : ∀ {p node}, p ≠ [] → tree.view p = some node → filters.matchesEntry (join p) = true →
    Acceptable digest maxFileBytes (p, node)

theorem TreeSelected.normal {e : ManifestEntry} (he : TreeSelected digest tree filters e)
    (hdir : e.kind = .dir) : e = dirEntry e.path := by
  obtain ⟨p, node, facts, -, -, -, -, rfl⟩ := he
  cases facts with
  | dir => rfl
  | file => cases hdir

theorem filterMap_one {α β : Type} (f : α → Option β) (a : α) : [a].filterMap f = (f a).toList := by
  cases h : f a <;> simp [h]

/-- The loop of a scan takes up what the walk meets. -/
theorem scanLoop_ok {l : List (List String × Node Leaf)}
    (h : l.foldlM (scanEntry digest filters maxEntries maxFileBytes) [] = .ok out) :
    out = l.filterMap (scanned digest filters) ∧ out.length ≤ maxEntries ∧
    ∀ entry ∈ l, filters.matchesEntry (join entry.1) = true →
      Acceptable digest maxFileBytes entry := by
  refine Fold.foldlM_rule (P := fun past entries =>
    entries = past.filterMap (scanned digest filters) ∧ entries.length ≤ maxEntries ∧
    ∀ entry ∈ past, filters.matchesEntry (join entry.1) = true →
      Acceptable digest maxFileBytes entry) ?_ ⟨rfl, Nat.zero_le _, (by rintro _ ⟨⟩)⟩ h
  rintro past entry rest entries entries' - ⟨rfl, hlength, hpast⟩ hstep
  obtain ⟨rfl, hentry⟩ := scanEntry_ok hstep
  refine ⟨by rw [List.filterMap_append, filterMap_one], ?_, ?_⟩
  · rw [List.length_append]
    by_cases hmatches : filters.matchesEntry (join entry.1) = true
    · have := (hentry hmatches).2
      have := Option.length_toList_le (o := scanned digest filters entry)
      omega
    · rw [scanned, if_neg hmatches]
      exact hlength
  · intro entry' hmem hmatches
    obtain hmem | hmem := List.mem_append.mp hmem
    · exact hpast entry' hmem hmatches
    · rw [List.mem_singleton] at hmem
      subst hmem
      exact (hentry hmatches).1

theorem scanManifest_ok (h : OnDisk tree)
    (hscan : scanManifest digest tree filters maxEntries maxFileBytes = .ok out) :
    Scanned digest tree filters maxEntries maxFileBytes out := by
  simp only [scanManifest, bind, Except.bind] at hscan
  split at hscan
  · cases hscan
  · rename_i entries hloop
    split at hscan
    · cases hscan
    · rename_i closed hclosed
      cases hscan
      obtain ⟨rfl, hlength, haccepted⟩ :=
        scanLoop_ok (show (scanWalk tree filters).foldlM _ _ = Except.ok entries from hloop)
      obtain ⟨hmanifest, hlength'⟩ := isManifest_of_synthesize (fun _ => mem_scanned h)
        (nodup_scanned h) (fun e he => ((mem_scanned h).mp he).normal) hclosed
      refine ⟨hmanifest, by omega, fun {p node} hp hview hmatches => ?_⟩
      exact haccepted (p, node) ((mem_scanWalk h).mpr
        ⟨hp, hview, SyncFilters.shouldDescend_of_matchesEntry hmatches⟩) hmatches

/-- Everything in a tree, as the walk that refuses nothing meets it. -/
def allEntries (tree : Tree String Leaf) : List (List String × Node Leaf) :=
  tree.walk (fun _ => true) []

theorem mem_allEntries (h : OnDisk tree) {node : Node Leaf} :
    (p, node) ∈ allEntries tree ↔ p ≠ [] ∧ tree.view p = some node := by
  rw [allEntries, Tree.mem_walk h.valid]
  constructor
  · rintro ⟨r, hr, rfl, hview, -⟩
    exact ⟨hr, hview⟩
  · rintro ⟨hp, hview⟩
    exact ⟨p, hp, rfl, hview, fun _ _ _ => rfl⟩

theorem scanLoop_total {l : List (List String × Node Leaf)} (hroom : l.length ≤ maxEntries)
    (haccept : ∀ entry ∈ l, filters.matchesEntry (join entry.1) = true →
      Acceptable digest maxFileBytes entry) :
    ∃ out, l.foldlM (scanEntry digest filters maxEntries maxFileBytes) [] = .ok out := by
  -- no more entries are taken up than were met
  have hloop : ∃ out, l.foldlM (scanEntry digest filters maxEntries maxFileBytes) [] = .ok out ∧
      out.length ≤ l.length := by
    apply Fold.foldlM_total (P := fun past (entries : List ManifestEntry) => entries.length ≤ past.length)
    · intro past entry rest entries hl hpast
      rw [hl, List.length_append, List.length_cons] at hroom
      have hstep : ∃ entries', scanEntry digest filters maxEntries maxFileBytes entries entry =
          .ok entries' := scanEntry_total (by omega)
        (haccept entry (by rw [hl]; exact List.mem_append_right _ (List.mem_cons_self ..)))
      obtain ⟨entries', hstep⟩ := hstep
      refine ⟨entries', hstep, ?_⟩
      rw [(scanEntry_ok hstep).1, List.length_append, List.length_append, List.length_singleton]
      have := Option.length_toList_le (o := scanned digest filters entry)
      omega
    · exact Nat.le_refl _
  obtain ⟨out, hout, -⟩ := hloop
  exact ⟨out, hout⟩

/-- A tree inside the limits is scanned. -/
theorem scanManifest_total (h : OnDisk tree) (hroom : (allEntries tree).length ≤ maxEntries)
    (haccept : ∀ {p node}, p ≠ [] → tree.view p = some node → filters.matchesEntry (join p) = true →
      Acceptable digest maxFileBytes (p, node)) :
    ∃ out, scanManifest digest tree filters maxEntries maxFileBytes = .ok out := by
  have hwalk : (scanWalk tree filters).length ≤ maxEntries :=
    Nat.le_trans Tree.walk_sublist.length_le hroom
  have hloop : ∃ entries, (scanWalk tree filters).foldlM
      (scanEntry digest filters maxEntries maxFileBytes) [] = .ok entries := by
    apply scanLoop_total hwalk
    intro entry hmem hmatches
    obtain ⟨hp, hview, -⟩ := (mem_scanWalk h).mp (show (entry.1, entry.2) ∈ _ from hmem)
    exact haccept hp hview hmatches
  obtain ⟨entries, hloop⟩ := hloop
  have hentries := (scanLoop_ok hloop).1
  -- everything above a selected entry is in the tree
  have hsomewhere : ∀ {p node}, p ≠ [] → tree.view p = some node →
      join p ∈ (allEntries tree).map fun entry => join entry.1 :=
    fun hp hview => List.mem_map.mpr ⟨_, (mem_allEntries h).mpr ⟨hp, hview⟩, rfl⟩
  have hselected : ∀ e, e ∈ entries ↔ TreeSelected digest tree filters e := by
    rw [hentries]
    exact fun _ => mem_scanned h
  have habove : ∀ q, q ∈ parentsOf entries → tree.view (segments q) = some .dir := by
    intro q hq
    obtain ⟨e, he, habove⟩ := mem_parentsOf.mp hq
    obtain ⟨p, node, facts, hp, hview, -, -, rfl⟩ := (hselected e).mp he
    rw [entryOf_path] at habove
    exact h.view_above hp (by rw [hview]; rintro ⟨⟩) habove
  have hclosed : ∃ closed, synthesizeParentDirs maxEntries entries = .ok closed := by
    apply synthesizeParentDirs_total (by rw [hentries]; exact nodup_scanned h)
    · intro e he hparent
      obtain ⟨p, node, facts, hp, hview, hfacts, -, rfl⟩ := (hselected e).mp he
      have hdir := habove _ hparent
      rw [entryOf_path, h.segments_join hp (by rw [hview]; rintro ⟨⟩), hview] at hdir
      cases hdir
      cases hfacts
      rfl
    · intro e he
      obtain ⟨p, node, facts, hp, hview, -, -, rfl⟩ := (hselected e).mp he
      rw [entryOf_path]
      exact hsomewhere hp hview
    · intro q hq
      rw [← join_segments q]
      exact hsomewhere (segments_ne_nil q) (habove q hq)
    · rw [List.length_map]
      exact hroom
  obtain ⟨closed, hclosed⟩ := hclosed
  refine ⟨sortByPath closed, ?_⟩
  simp only [scanManifest, bind, Except.bind]
  rw [show tree.walk (fun parts => filters.shouldDescend (join parts)) [] = scanWalk tree filters
    from rfl, hloop]
  simp only [hclosed]
  rfl

end Scan

/-! ## The check -/

/-- The entries of a client's manifest that the filters select, as they are kept. -/
def ClientSelected (filters : SyncFilters) (maxFileBytes : Nat) (entries : List ManifestEntry)
    (e : ManifestEntry) : Prop :=
  ∃ raw ∈ entries, filters.matchesEntry raw.path = true ∧ checkEntry maxFileBytes raw = .ok e

/-- What the check takes over from one entry. -/
def validated (filters : SyncFilters) (maxFileBytes : Nat) (raw : ManifestEntry) :
    Option ManifestEntry :=
  if filters.matchesEntry raw.path then (checkEntry maxFileBytes raw).toOption else none

section Check

variable {filters : SyncFilters} {maxEntries maxFileBytes : Nat} {raw e : ManifestEntry}
  {entries out : List ManifestEntry} {v v' : Validation}

/-- An entry that is accepted says all that a manifest says. -/
theorem checkEntry_ok (h : checkEntry maxFileBytes raw = .ok e) :
    ∃ node, e = entryOf raw.path node ∧ ∀ data, node = .file data → data.sizeBytes ≤ maxFileBytes := by
  obtain ⟨path, kind, size, mtime, sha, executable⟩ := raw
  cases kind with
  | dir =>
      cases h
      exact ⟨.dir, rfl, (by rintro _ ⟨⟩)⟩
  | file =>
      simp only [checkEntry, bind, Except.bind, pure, Except.pure] at h
      cases size with
      | none => cases h
      | some size =>
          by_cases hsize : maxFileBytes < size
          · simp only [hsize, if_true] at h
            cases h
          · simp only [hsize, if_false] at h
            cases mtime with
            | none => cases h
            | some mtime =>
                cases sha with
                | none => cases h
                | some sha =>
                    by_cases hsha : isSha256Hex sha = true
                    · simp only [hsha, Bool.not_true, Bool.false_eq_true, if_false] at h
                      cases h
                      refine ⟨.file ⟨size, mtime, sha.toLower, executable⟩, rfl, ?_⟩
                      rintro data hdata
                      cases hdata
                      exact Nat.le_of_not_lt hsize
                    · simp only [hsha, Bool.not_false, if_true] at h
                      cases h

theorem validateEntry_ok (h : validateEntry filters maxFileBytes v raw = .ok v') :
    ValidPath raw.path ∧ raw.path ∉ v.seen ∧
    v' = { seen := raw.path :: v.seen
           validated := v.validated ++ (validated filters maxFileBytes raw).toList } ∧
    (filters.matchesEntry raw.path = true → ∃ e, checkEntry maxFileBytes raw = .ok e) := by
  simp only [validateEntry, bind, Except.bind, pure, Except.pure] at h
  cases hpath : normalizeSyncPath raw.path with
  | error error =>
      rw [hpath] at h
      cases h
  | ok path =>
      obtain ⟨hraw, hvalid⟩ := normalizeSyncPath_eq hpath
      subst hraw
      rw [hpath] at h
      by_cases hseen : v.seen.contains raw.path = true
      · simp only [hseen, if_true] at h
        cases h
      · simp only [hseen, Bool.false_eq_true, if_false] at h
        refine ⟨hvalid, by simpa using hseen, ?_⟩
        by_cases hmatches : filters.matchesEntry raw.path = true
        · simp only [hmatches, Bool.not_true, Bool.false_eq_true, if_false] at h
          cases hcheck : checkEntry maxFileBytes raw with
          | error error =>
              rw [show ({ raw with path := raw.path } : ManifestEntry) = raw from rfl, hcheck] at h
              cases h
          | ok e =>
              rw [show ({ raw with path := raw.path } : ManifestEntry) = raw from rfl, hcheck] at h
              cases h
              exact ⟨by simp [validated, hmatches, hcheck, Except.toOption], fun _ => ⟨e, rfl⟩⟩
        · simp only [hmatches, Bool.not_false, if_true] at h
          cases h
          exact ⟨by simp [validated, hmatches], fun hmatches' => absurd hmatches' hmatches⟩

theorem validateEntry_total (hvalid : ValidPath raw.path) (hnew : raw.path ∉ v.seen)
    (hcheck : filters.matchesEntry raw.path = true → ∃ e, checkEntry maxFileBytes raw = .ok e) :
    ∃ v', validateEntry filters maxFileBytes v raw = .ok v' := by
  simp only [validateEntry, bind, Except.bind, pure, Except.pure]
  rw [show normalizeSyncPath raw.path = .ok raw.path from hvalid]
  have hseen : v.seen.contains raw.path = false := by simpa using hnew
  simp only [hseen, Bool.false_eq_true, if_false]
  by_cases hmatches : filters.matchesEntry raw.path = true
  · obtain ⟨e, he⟩ := hcheck hmatches
    simp only [hmatches, Bool.not_true, Bool.false_eq_true, if_false]
    rw [show ({ raw with path := raw.path } : ManifestEntry) = raw from rfl, he]
    exact ⟨_, rfl⟩
  · simp only [hmatches, Bool.not_false, if_true]
    exact ⟨_, rfl⟩

/-- What the check yields, with what it found in order. -/
structure Checked (filters : SyncFilters) (maxEntries maxFileBytes : Nat)
    (entries out : List ManifestEntry) : Prop where
  manifest : IsManifest (ClientSelected filters maxFileBytes entries) out
  length : out.length ≤ maxEntries
  paths : ∀ raw ∈ entries, ValidPath raw.path
  nodup : (entries.map (·.path)).Nodup
  accepted : ∀ raw ∈ entries, filters.matchesEntry raw.path = true →
    ∃ e, checkEntry maxFileBytes raw = .ok e

theorem validated_eq_some : validated filters maxFileBytes raw = some e ↔
    filters.matchesEntry raw.path = true ∧ checkEntry maxFileBytes raw = .ok e := by
  unfold validated
  split
  · rename_i hmatches
    cases checkEntry maxFileBytes raw <;> simp [hmatches, Except.toOption]
  · rename_i hmatches
    simp [hmatches]

theorem mem_validated : e ∈ entries.filterMap (validated filters maxFileBytes) ↔
    ClientSelected filters maxFileBytes entries e := by
  rw [List.mem_filterMap]
  simp only [validated_eq_some, ClientSelected]

theorem checkEntry_path (h : checkEntry maxFileBytes raw = .ok e) : e.path = raw.path := by
  obtain ⟨node, rfl, -⟩ := checkEntry_ok h
  exact entryOf_path _ _

theorem ClientSelected.normal (he : ClientSelected filters maxFileBytes entries e)
    (hdir : e.kind = .dir) : e = dirEntry e.path := by
  obtain ⟨raw, -, -, hcheck⟩ := he
  obtain ⟨node, rfl, -⟩ := checkEntry_ok hcheck
  cases node with
  | dir => rfl
  | file => cases hdir

theorem nodup_validated (hnodup : (entries.map (·.path)).Nodup) :
    ((entries.filterMap (validated filters maxFileBytes)).map (·.path)).Nodup := by
  have hpaths : entries.Pairwise fun a b => a.path ≠ b.path := List.pairwise_map.mp hnodup
  refine List.pairwise_map.mpr (hpaths.filterMap _ fun a b hne e he e' he' => ?_)
  rw [checkEntry_path (validated_eq_some.mp he).2, checkEntry_path (validated_eq_some.mp he').2]
  exact hne

/-- The loop of the check has seen the paths it went past, each once. -/
theorem validateLoop_ok {l : List ManifestEntry}
    (h : l.foldlM (validateEntry filters maxFileBytes) {} = .ok v) :
    v.validated = l.filterMap (validated filters maxFileBytes) ∧
    (l.map (·.path)).Nodup ∧ (∀ raw ∈ l, ValidPath raw.path) ∧
    ∀ raw ∈ l, filters.matchesEntry raw.path = true → ∃ e, checkEntry maxFileBytes raw = .ok e := by
  suffices hseen : (∀ p, p ∈ v.seen ↔ p ∈ l.map (·.path)) ∧
      v.validated = l.filterMap (validated filters maxFileBytes) ∧
      (l.map (·.path)).Nodup ∧ (∀ raw ∈ l, ValidPath raw.path) ∧
      ∀ raw ∈ l, filters.matchesEntry raw.path = true →
        ∃ e, checkEntry maxFileBytes raw = .ok e from hseen.2
  refine Fold.foldlM_rule (P := fun past (v : Validation) =>
    (∀ p, p ∈ v.seen ↔ p ∈ past.map (·.path)) ∧
    v.validated = past.filterMap (validated filters maxFileBytes) ∧
    (past.map (·.path)).Nodup ∧ (∀ raw ∈ past, ValidPath raw.path) ∧
    ∀ raw ∈ past, filters.matchesEntry raw.path = true → ∃ e, checkEntry maxFileBytes raw = .ok e)
    ?_ ⟨by simp, rfl, List.nodup_nil, (by rintro _ ⟨⟩), (by rintro _ ⟨⟩)⟩ h
  rintro past raw rest v v' - ⟨hseen, hvalidated, hnodup, hpaths, haccepted⟩ hstep
  obtain ⟨hvalid, hnew, rfl, hcheck⟩ := validateEntry_ok hstep
  rw [hseen] at hnew
  refine ⟨fun p => ?_, ?_, ?_, ?_, ?_⟩
  · rw [List.mem_cons, hseen, List.map_append, List.mem_append, or_comm]
    simp
  · rw [List.filterMap_append, filterMap_one, hvalidated]
  · rw [List.map_append, List.nodup_append]
    refine ⟨hnodup, by simp, ?_⟩
    rintro a ha b hb rfl
    rw [List.map_singleton, List.mem_singleton] at hb
    exact hnew (hb ▸ ha)
  · intro raw' hmem
    obtain hmem | hmem := List.mem_append.mp hmem
    · exact hpaths raw' hmem
    · rw [List.mem_singleton.mp hmem]
      exact hvalid
  · intro raw' hmem
    obtain hmem | hmem := List.mem_append.mp hmem
    · exact haccepted raw' hmem
    · rw [List.mem_singleton.mp hmem]
      exact hcheck

theorem validateClientManifest_ok
    (h : validateClientManifest entries filters maxEntries maxFileBytes = .ok out) :
    Checked filters maxEntries maxFileBytes entries out := by
  simp only [validateClientManifest, bind, Except.bind, pure, Except.pure] at h
  by_cases hlength : maxEntries < entries.length
  · simp only [hlength, if_true] at h
    cases h
  · simp only [hlength, if_false] at h
    split at h
    · cases h
    · rename_i v hloop
      split at h
      · cases h
      · rename_i closed hclosed
        cases h
        obtain ⟨hvalidated, hnodup, hpaths, haccepted⟩ := validateLoop_ok hloop
        rw [hvalidated] at hclosed
        obtain ⟨hmanifest, hlength'⟩ := isManifest_of_synthesize (fun _ => mem_validated)
          (nodup_validated hnodup) (fun e he => (mem_validated.mp he).normal) hclosed
        have hfewer := List.length_filterMap_le (validated filters maxFileBytes) entries
        exact ⟨hmanifest, by omega, hpaths, hnodup, haccepted⟩

/-- A manifest inside the limits is accepted. -/
theorem validateClientManifest_total (closed : List String) (hlength : entries.length ≤ maxEntries)
    (hpaths : ∀ raw ∈ entries, ValidPath raw.path) (hnodup : (entries.map (·.path)).Nodup)
    (haccepted : ∀ raw ∈ entries, filters.matchesEntry raw.path = true →
      ∃ e, checkEntry maxFileBytes raw = .ok e)
    (hdirs : ∀ {e e'}, ClientSelected filters maxFileBytes entries e →
      ClientSelected filters maxFileBytes entries e' → Above e.path e'.path → e.kind = .dir)
    (hclosed : ∀ {e q}, ClientSelected filters maxFileBytes entries e → q = e.path ∨ Above q e.path →
      q ∈ closed)
    (hroom : closed.length ≤ maxEntries) :
    ∃ out, validateClientManifest entries filters maxEntries maxFileBytes = .ok out := by
  have hloop : ∃ v, entries.foldlM (validateEntry filters maxFileBytes) {} = .ok v ∧
      ∀ p, p ∈ v.seen ↔ p ∈ entries.map (·.path) := by
    apply Fold.foldlM_total (P := fun (past : List ManifestEntry) (v : Validation) =>
      ∀ p, p ∈ v.seen ↔ p ∈ past.map (·.path))
    · intro past raw rest v hl hseen
      have hmem : raw ∈ entries := hl ▸ List.mem_append_right _ (List.mem_cons_self ..)
      have hnew : raw.path ∉ v.seen := by
        rw [hseen]
        rw [hl, List.map_append, List.nodup_append] at hnodup
        intro hpast
        exact hnodup.2.2 _ hpast _ (List.mem_cons_self ..) rfl
      obtain ⟨v', hstep⟩ := validateEntry_total (hpaths raw hmem) hnew (haccepted raw hmem)
      refine ⟨v', hstep, fun p => ?_⟩
      obtain ⟨-, -, rfl, -⟩ := validateEntry_ok hstep
      rw [List.mem_cons, hseen, List.map_append, List.mem_append, or_comm]
      simp
    · simp
  obtain ⟨v, hloop, -⟩ := hloop
  have hvalidated := (validateLoop_ok hloop).1
  have hsynthesis : ∃ out, synthesizeParentDirs maxEntries v.validated = .ok out := by
    rw [hvalidated]
    apply synthesizeParentDirs_total (nodup_validated hnodup)
    · intro e he hparent
      obtain ⟨e', he', habove⟩ := mem_parentsOf.mp hparent
      exact hdirs (mem_validated.mp he) (mem_validated.mp he') habove
    · intro e he
      exact hclosed (mem_validated.mp he) (.inl rfl)
    · intro q hq
      obtain ⟨e, he, habove⟩ := mem_parentsOf.mp hq
      exact hclosed (mem_validated.mp he) (.inr habove)
    · exact hroom
  obtain ⟨out, hsynthesis⟩ := hsynthesis
  refine ⟨sortByPath out, ?_⟩
  simp only [validateClientManifest, bind, Except.bind, pure, Except.pure]
  simp only [Nat.not_lt.mpr hlength, if_false, hloop, hsynthesis]

end Check

/-! ## Digests -/

/-- A digest as the service writes it. -/
def Canonical (sha256 : String) : Prop := isSha256Hex sha256 = true ∧ sha256.toLower = sha256

theorem digitChar_hex {n : Nat} (h : n < 16) : isAsciiHexdigit (Nat.digitChar n) = true ∧
    (Nat.digitChar n).utf8Size = 1 ∧ (Nat.digitChar n).toLower = Nat.digitChar n := by
  revert n
  decide

theorem utf8ByteSize_ofList {l : List Char} (h : ∀ c ∈ l, c.utf8Size = 1) :
    (String.ofList l).utf8ByteSize = l.length := by
  induction l with
  | nil => rfl
  | cons c l ih =>
      rw [String.ofList_cons, String.utf8ByteSize_append, ih fun c hc => h c (List.mem_cons_of_mem _ hc)]
      simp [h c, Nat.add_comm]

/-- Each byte is two digits. -/
theorem hexDigest_chars (bytes : List UInt8) :
    (hexDigest bytes).toList.length = 2 * bytes.length ∧
    ∀ c ∈ (hexDigest bytes).toList, isAsciiHexdigit c = true ∧ c.utf8Size = 1 ∧ c.toLower = c := by
  rw [hexDigest, String.toList_ofList]
  induction bytes with
  | nil => exact ⟨rfl, (by rintro _ ⟨⟩)⟩
  | cons byte bytes ih =>
      rw [List.flatMap_cons]
      constructor
      · simp only [List.length_append, ih.1, List.length_cons, List.length_nil]
        omega
      · intro c hc
        obtain hc | hc := List.mem_append.mp hc
        · have hbyte : byte.toNat < 256 := byte.toNat_lt
          obtain rfl | rfl : c = Nat.digitChar (byte.toNat / 16) ∨ c = Nat.digitChar (byte.toNat % 16) := by
            simpa using hc
          · exact digitChar_hex (by omega)
          · exact digitChar_hex (by omega)
        · exact ih.2 c hc

theorem canonical_hexDigest (digest : Vector UInt8 32) : Canonical (hexDigest digest.toList) := by
  obtain ⟨hlength, hchars⟩ := hexDigest_chars digest.toList
  have hsize : (hexDigest digest.toList).utf8ByteSize = (hexDigest digest.toList).toList.length := by
    conv_lhs => rw [← String.ofList_toList (s := hexDigest digest.toList)]
    exact utf8ByteSize_ofList fun c hc => (hchars c hc).2.1
  constructor
  · rw [isSha256Hex, hsize, hlength, Vector.length_toList, Bool.and_eq_true, List.all_eq_true]
    exact ⟨rfl, fun c hc => (hchars c hc).1⟩
  · apply String.toList_inj.mp
    rw [String.toLower, String.toList_map]
    exact (List.map_congr_left fun c hc => (hchars c hc).2.2).trans (List.map_id _)

/-! ## A tree and its manifest -/

/-- Regular files and directories with names that can be synchronized. -/
structure SyncTree (tree : Tree String Leaf) : Prop extends OnDisk tree where
  paths : ∀ {p}, p ≠ [] → tree.view p ≠ none → ValidPath (join p)
  regular : ∀ {p leaf}, tree.view p = some (.file leaf) → ∃ data, leaf = .regular data

/-- Every entry of a tree, without any filter. -/
def completeManifest (digest : Sha256) (tree : Tree String Leaf) : List ManifestEntry :=
  (allEntries tree).filterMap fun entry => (described digest entry.2).map (entryOf (join entry.1))

section Complete

variable {digest : Sha256} {filters : SyncFilters} {maxEntries maxFileBytes : Nat}
  {entries : List ManifestEntry} {tree : Tree String Leaf} {p : List String} {e : ManifestEntry}

theorem SyncTree.described (h : SyncTree tree) {node : Node Leaf} (hview : tree.view p = some node) :
    ∃ facts, described digest node = some facts := by
  cases node with
  | dir => exact ⟨.dir, rfl⟩
  | file leaf =>
      obtain ⟨data, rfl⟩ := h.regular hview
      exact ⟨.file (data.facts digest), rfl⟩

theorem mem_completeManifest (h : SyncTree tree) : e ∈ completeManifest digest tree ↔
    ∃ p node facts, p ≠ [] ∧ tree.view p = some node ∧ described digest node = some facts ∧
      e = entryOf (join p) facts := by
  rw [completeManifest, List.mem_filterMap]
  constructor
  · rintro ⟨⟨p, node⟩, hmem, hdescribed⟩
    obtain ⟨hp, hview⟩ := (mem_allEntries h.toOnDisk).mp hmem
    obtain ⟨facts, hfacts, rfl⟩ := Option.map_eq_some_iff.mp hdescribed
    exact ⟨p, node, facts, hp, hview, hfacts, rfl⟩
  · rintro ⟨p, node, facts, hp, hview, hfacts, rfl⟩
    exact ⟨(p, node), (mem_allEntries h.toOnDisk).mpr ⟨hp, hview⟩, by simp [hfacts]⟩

theorem nodup_completeManifest (h : SyncTree tree) :
    ((completeManifest digest tree).map (·.path)).Nodup := by
  have hwalk : (allEntries tree).Pairwise fun a b => join a.1 ≠ join b.1 := h.walk_paths
  refine List.pairwise_map.mpr (hwalk.filterMap _ fun a b hne e he e' he' => ?_)
  obtain ⟨facts, -, rfl⟩ := Option.map_eq_some_iff.mp he
  obtain ⟨facts', -, rfl⟩ := Option.map_eq_some_iff.mp he'
  rwa [entryOf_path, entryOf_path]

/-- Every entry of the tree is in its manifest. -/
theorem length_completeManifest (h : SyncTree tree) :
    (completeManifest digest tree).length = (allEntries tree).length := by
  rw [completeManifest, List.length_filterMap_eq_countP, List.countP_eq_length]
  intro entry hmem
  obtain ⟨hp, hview⟩ := (mem_allEntries h.toOnDisk).mp (show (entry.1, entry.2) ∈ _ from hmem)
  obtain ⟨facts, hfacts⟩ : ∃ facts, described digest _ = some facts := h.described hview
  simp [hfacts]

theorem size_described {node : Node Leaf} {data : FileFacts}
    (hdescribed : described digest node = some (.file data))
    (hsize : ∀ data, node = .file (.regular data) → data.content.length ≤ maxFileBytes) :
    data.sizeBytes ≤ maxFileBytes := by
  cases node with
  | dir => cases hdescribed
  | file leaf =>
      cases leaf with
      | link => cases hdescribed
      | special => cases hdescribed
      | regular data =>
          cases hdescribed
          exact hsize data rfl

/-- The check takes over what a scan says of a file. -/
theorem checkEntry_described {node : Node Leaf} {facts : Node FileFacts} {path : String}
    (hdescribed : described digest node = some facts)
    (hsize : ∀ data, node = .file (.regular data) → data.content.length ≤ maxFileBytes) :
    checkEntry maxFileBytes (entryOf path facts) = .ok (entryOf path facts) := by
  cases node with
  | dir =>
      cases hdescribed
      rfl
  | file leaf =>
      cases leaf with
      | link => cases hdescribed
      | special => cases hdescribed
      | regular data =>
          cases hdescribed
          obtain ⟨hhex, hlower⟩ := canonical_hexDigest (digest data.content)
          have hle := hsize data rfl
          simp only [checkEntry, entryOf, fileEntry, FileData.facts, bind, Except.bind, pure,
            Except.pure, Nat.not_lt.mpr hle, if_false, hhex, Bool.not_true, Bool.false_eq_true, hlower]

/-- The filters select the same from a tree and from its manifest. -/
theorem clientSelected_iff (h : SyncTree tree) (hmem : ∀ e, e ∈ entries ↔ e ∈ completeManifest digest tree)
    (hsize : ∀ {p data}, tree.view p = some (.file (.regular data)) →
      filters.matchesEntry (join p) = true → data.content.length ≤ maxFileBytes) :
    ClientSelected filters maxFileBytes entries e ↔ TreeSelected digest tree filters e := by
  have hcheck : ∀ {p node facts}, tree.view p = some node → filters.matchesEntry (join p) = true →
      described digest node = some facts →
      checkEntry maxFileBytes (entryOf (join p) facts) = .ok (entryOf (join p) facts) := by
    intro p node facts hview hmatches hfacts
    refine checkEntry_described hfacts ?_
    rintro data rfl
    exact hsize hview hmatches
  constructor
  · rintro ⟨raw, hraw, hmatches, he⟩
    obtain ⟨p, node, facts, hp, hview, hfacts, rfl⟩ := (mem_completeManifest h).mp ((hmem raw).mp hraw)
    rw [entryOf_path] at hmatches
    rw [hcheck hview hmatches hfacts] at he
    cases he
    exact ⟨p, node, facts, hp, hview, hfacts, hmatches, rfl⟩
  · rintro ⟨p, node, facts, hp, hview, hfacts, hmatches, rfl⟩
    refine ⟨entryOf (join p) facts, (hmem _).mpr ((mem_completeManifest h).mpr
      ⟨p, node, facts, hp, hview, hfacts, rfl⟩), ?_, hcheck hview hmatches hfacts⟩
    rw [entryOf_path]
    exact hmatches

/-- The scan of a tree and the check of its complete manifest apply the filters
    alike; what they select is in what they yield. -/
theorem scan_eq_validate (h : SyncTree tree) (hentries : entries.Perm (completeManifest digest tree))
    (hlength : (completeManifest digest tree).length ≤ maxEntries)
    (hsize : ∀ {p data}, tree.view p = some (.file (.regular data)) →
      filters.matchesEntry (join p) = true → data.content.length ≤ maxFileBytes) :
    ∃ out, scanManifest digest tree filters maxEntries maxFileBytes = .ok out ∧
      validateClientManifest entries filters maxEntries maxFileBytes = .ok out ∧
      ∀ e ∈ entries, filters.matchesEntry e.path = true → e ∈ out := by
  have hmem : ∀ e, e ∈ entries ↔ e ∈ completeManifest digest tree := fun e => hentries.mem_iff
  have hselected : ∀ e, ClientSelected filters maxFileBytes entries e ↔
      TreeSelected digest tree filters e := fun e => clientSelected_iff h hmem hsize
  have hroom : (allEntries tree).length ≤ maxEntries := by
    rwa [length_completeManifest h] at hlength
  obtain ⟨out, hscan⟩ : ∃ out, scanManifest digest tree filters maxEntries maxFileBytes = .ok out := by
    apply scanManifest_total h.toOnDisk hroom
    intro p node hp hview hmatches
    obtain ⟨facts, hfacts⟩ : ∃ facts, described digest _ = some facts := h.described hview
    refine ⟨h.paths hp (by rw [hview]; rintro ⟨⟩), facts, hfacts, ?_⟩
    rintro data rfl
    exact size_described hfacts fun data hnode => hsize (hnode ▸ hview) hmatches
  have hmanifest := (scanManifest_ok h.toOnDisk hscan).manifest
  have hdisk : ∀ {e}, ClientSelected filters maxFileBytes entries e →
      ∃ p node facts, p ≠ [] ∧ tree.view p = some node ∧ described digest node = some facts ∧
        e = entryOf (join p) facts := by
    intro e he
    obtain ⟨p, node, facts, hp, hview, hfacts, -, rfl⟩ := (hselected e).mp he
    exact ⟨p, node, facts, hp, hview, hfacts, rfl⟩
  obtain ⟨out', hvalidate⟩ :
      ∃ out, validateClientManifest entries filters maxEntries maxFileBytes = .ok out := by
    -- the paths of the manifest have room, and nothing above them is missing
    refine validateClientManifest_total (entries.map (·.path)) ?_ ?_ ?_ ?_ ?_ ?_ ?_
    · rwa [hentries.length_eq]
    · intro raw hraw
      obtain ⟨p, node, facts, hp, hview, -, rfl⟩ := (mem_completeManifest h).mp ((hmem raw).mp hraw)
      rw [entryOf_path]
      exact h.paths hp (by rw [hview]; rintro ⟨⟩)
    · exact (hentries.map _).nodup_iff.mpr (nodup_completeManifest h)
    · intro raw hraw hmatches
      obtain ⟨p, node, facts, hp, hview, hfacts, rfl⟩ := (mem_completeManifest h).mp ((hmem raw).mp hraw)
      rw [entryOf_path] at hmatches
      exact ⟨_, checkEntry_described hfacts fun data hnode => hsize (hnode ▸ hview) hmatches⟩
    · intro e e' he he' habove
      rw [hmanifest.dirs ((hselected e).mp he) ((hselected e').mp he') habove]
      rfl
    · intro e q he hq
      obtain ⟨p, node, facts, hp, hview, hfacts, rfl⟩ := hdisk he
      rw [entryOf_path] at hq
      obtain rfl | habove := hq
      · exact List.mem_map.mpr ⟨_, (hmem _).mpr ((mem_completeManifest h).mpr
          ⟨p, node, facts, hp, hview, hfacts, rfl⟩), entryOf_path _ _⟩
      · have hdir := h.view_above hp (by rw [hview]; rintro ⟨⟩) habove
        refine List.mem_map.mpr ⟨entryOf (join (segments q)) .dir, (hmem _).mpr
          ((mem_completeManifest h).mpr ⟨segments q, .dir, .dir, segments_ne_nil q, hdir, rfl, rfl⟩), ?_⟩
        rw [entryOf_path, join_segments]
    · rw [List.length_map, hentries.length_eq]
      exact hlength
  have hmanifest' : IsManifest (TreeSelected digest tree filters) out' := by
    have hchecked := (validateClientManifest_ok hvalidate).manifest
    rwa [show ClientSelected filters maxFileBytes entries = TreeSelected digest tree filters from
      funext fun e => propext (hselected e)] at hchecked
  rw [hmanifest'.unique hmanifest] at hvalidate
  refine ⟨out, hscan, hvalidate, fun e he hmatches => hmanifest.mem.mpr (.inl ?_)⟩
  obtain ⟨p, node, facts, hp, hview, hfacts, rfl⟩ := (mem_completeManifest h).mp ((hmem e).mp he)
  rw [entryOf_path] at hmatches
  exact ⟨p, node, facts, hp, hview, hfacts, hmatches, rfl⟩

/-! ## An example tree -/

/-- What a tree holds is checked entry by entry. -/
theorem SyncTree.of_entries (hvalid : tree.Valid)
    (h : ∀ entry ∈ allEntries tree, (∀ name ∈ entry.1, '/' ∉ name.toList) ∧
      normalizeSyncPath (join entry.1) = .ok (join entry.1) ∧
      entry.2 ≠ .file .link ∧ entry.2 ≠ .file .special) : SyncTree tree := by
  have hmem : ∀ {p node}, p ≠ [] → tree.view p = some node → (p, node) ∈ allEntries tree :=
    fun {p node} hp hview => (Tree.mem_walk hvalid).mpr ⟨p, hp, rfl, hview, fun _ _ _ => rfl⟩
  refine { valid := hvalid, names := ?_, paths := ?_, regular := ?_ }
  · intro p hview name hname
    obtain ⟨node, hnode⟩ := Option.ne_none_iff_exists'.mp hview
    exact (h _ (hmem (List.ne_nil_of_mem hname) hnode)).1 name hname
  · intro p hp hview
    obtain ⟨node, hnode⟩ := Option.ne_none_iff_exists'.mp hview
    exact (h _ (hmem hp hnode)).2.1
  · intro p leaf hview
    have hp : p ≠ [] := by
      rintro rfl
      rw [Tree.view_nil] at hview
      cases hview
    obtain ⟨-, -, hlink, hspecial⟩ := h _ (hmem hp hview)
    cases leaf with
    | regular data => exact ⟨data, rfl⟩
    | link => exact absurd rfl hlink
    | special => exact absurd rfl hspecial

/-- The digest of an empty file. -/
def emptySha256 : Vector UInt8 32 :=
  #v[0xe3, 0xb0, 0xc4, 0x42, 0x98, 0xfc, 0x1c, 0x14, 0x9a, 0xfb, 0xf4, 0xc8, 0x99, 0x6f, 0xb9, 0x24,
    0x27, 0xae, 0x41, 0xe4, 0x64, 0x9b, 0x93, 0x4c, 0xa4, 0x95, 0x99, 0x1b, 0x78, 0x52, 0xb8, 0x55]

/-- `rtl/top.v` and `run/top.v`, both empty. -/
def sampleTree : Tree String Leaf :=
  .dir "rtl" (.file "top.v" (.regular ⟨[], 5000000, 0o644⟩) .nil)
    (.dir "run" (.file "top.v" (.regular ⟨[], 7000000, 0o755⟩) .nil) .nil)

/-- The sources outside of `run`. -/
def sampleFilters : SyncFilters where
  includes path := path.endsWith ".v"
  includeActive := true
  exclude path := path == "run"

theorem sampleTree_sync : SyncTree sampleTree := SyncTree.of_entries (by decide +kernel) (by decide +kernel)

theorem scan_eq_validate_sample : ∃ out,
    scanManifest (fun _ => emptySha256) sampleTree sampleFilters 4 0 = .ok out ∧
      validateClientManifest (completeManifest (fun _ => emptySha256) sampleTree) sampleFilters 4 0 =
        .ok out ∧
      ∀ e ∈ completeManifest (fun _ => emptySha256) sampleTree,
        sampleFilters.matchesEntry e.path = true → e ∈ out := by
  refine scan_eq_validate sampleTree_sync (.refl _) (by decide +kernel) ?_
  intro p data hview _
  have hp : p ≠ [] := by
    rintro rfl
    rw [Tree.view_nil] at hview
    cases hview
  have hempty : ∀ entry ∈ allEntries sampleTree, entry.2 = .dir ∨
      entry.2 = .file (.regular ⟨[], 5000000, 0o644⟩) ∨
      entry.2 = .file (.regular ⟨[], 7000000, 0o755⟩) := by
    decide +kernel
  have hmem := (mem_allEntries sampleTree_sync.toOnDisk).mpr ⟨hp, hview⟩
  obtain hdir | hfile | hfile := hempty _ hmem
  · cases hdir
  · cases hfile
    exact Nat.le_refl 0
  · cases hfile
    exact Nat.le_refl 0

end Complete

end VivadoServer.Sync
