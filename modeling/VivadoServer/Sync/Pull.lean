/-
  VivadoServer.Sync.Pull

  A pull plan carried out by the client.  Without filters the two manifests say
  what the two trees hold, so the plan is a replacement of the client's tree by the
  server's, and its edits go through in the order in which the client makes them.
-/

import VivadoServer.Sync.Plan

namespace VivadoServer.Sync

open FileTree

/-! ## What a tree looks like in a manifest -/

def leafFacts (digest : Sha256) : Leaf → Option FileFacts
  | .regular data => some (data.facts digest)
  | _ => none

/-- The tree as manifests describe it. -/
def describedTree (digest : Sha256) (tree : Tree String Leaf) : Tree String FileFacts :=
  tree.filterMap (leafFacts digest)

/-- The tree of a project, which is empty when there is none. -/
def projectTree (project : Option (Tree String Leaf)) : Tree String Leaf := project.getD .nil

/-- The tree is inside the limits. -/
structure SyncLimits.Admits (limits : SyncLimits) (tree : Tree String Leaf) : Prop where
  entries : (allEntries tree).length ≤ limits.syncMaxManifestEntries
  sizes : ∀ {p data}, tree.view p = some (.file (.regular data)) →
    data.content.length ≤ limits.syncMaxFileBytes

section Trees

variable {digest : Sha256} {limits : SyncLimits} {filters : SyncFilters} {tree : Tree String Leaf}
  {entries out : List ManifestEntry} {p : List String} {s : String}

theorem described_eq (node : Node Leaf) : described digest node = node.filterMap (leafFacts digest) := by
  cases node with
  | dir => rfl
  | file leaf => cases leaf <;> rfl

theorem view_describedTree (h : tree.Valid) :
    (describedTree digest tree).view p = (tree.view p).bind (described digest) := by
  rw [describedTree, Tree.view_filterMap h]
  congr 1
  funext node
  exact (described_eq node).symm

theorem ValidPath.isInternalPath (h : ValidPath s) : isInternalPath s = false := by
  have hpath : normalizeSyncPath s = .ok s := h
  simp only [normalizeSyncPath, bind, Except.bind, pure, Except.pure] at hpath
  split at hpath
  · cases hpath
  · rename_i path hnormal
    have hsame : path = s := by
      unfold normalizeSyncPathAllowInternal at hnormal
      split at hnormal
      · cases hnormal
      · split at hnormal
        · cases hnormal
        · cases hnormal
          exact join_segments s
    subst hsame
    by_contra hinternal
    rw [Bool.not_eq_false] at hinternal
    rw [hinternal] at hpath
    cases hpath

theorem TreeSelected.node {e : ManifestEntry} (he : TreeSelected digest tree filters e) :
    ∃ node, e = entryOf e.path node := by
  obtain ⟨p, node, facts, -, -, -, -, rfl⟩ := he
  exact ⟨facts, by rw [entryOf_path]⟩

theorem ClientSelected.node {maxFileBytes : Nat} {e : ManifestEntry}
    (he : ClientSelected filters maxFileBytes entries e) : ∃ node, e = entryOf e.path node := by
  obtain ⟨raw, -, -, hcheck⟩ := he
  obtain ⟨node, rfl, -⟩ := checkEntry_ok hcheck
  exact ⟨node, by rw [entryOf_path]⟩

theorem IsManifest.whole {selected : ManifestEntry → Prop} (h : IsManifest selected out)
    (hnode : ∀ {e}, selected e → ∃ node, e = entryOf e.path node) : Whole out where
  sorted := h.sorted
  parents := h.parents
  nodes {e} he := by
    obtain hselected | ⟨q, rfl, -, -⟩ := h.mem.mp he
    · exact hnode hselected
    · exact ⟨.dir, rfl⟩

/-- Without filters a manifest says what stands at each path, if the walk comes there. -/
theorem manifestView_scan (h : OnDisk tree) (hout : IsManifest (TreeSelected digest tree .none) out) :
    manifestView out p =
      if isInternalPath (join p) then none else (tree.view p).bind (described digest) := by
  have hwhole : Whole out := hout.whole TreeSelected.node
  by_cases hp : p = []
  · have hroot : isInternalPath (join []) = false := by decide +kernel
    rw [hp, manifestView, if_pos rfl, hroot, Tree.view_nil]
    rfl
  have hmatches : ∀ {path}, SyncFilters.none.matchesEntry path = true ↔ isInternalPath path = false := by
    intro path
    rw [SyncFilters.none_matchesEntry, Bool.not_eq_true']
  apply Option.ext
  intro node
  constructor
  · intro hview
    obtain ⟨s, rfl⟩ : ∃ s, segments s = p := ⟨_, manifestView_ne_none hp (by rw [hview]; rintro ⟨⟩)⟩
    rw [hwhole.view_segments, hout.mem] at hview
    obtain ⟨r, node', facts, hr, hview, hfacts, hselected, heq⟩ |
      ⟨q, heq, ⟨e', hselected, habove⟩, hfree⟩ := hview
    · obtain ⟨rfl, rfl⟩ := entryOf_inj heq
      rw [join_segments, hmatches.mp hselected, h.segments_join hr (by rw [hview]; rintro ⟨⟩), hview]
      exact hfacts
    · -- nothing above an entry of the tree has to be added
      obtain ⟨p, node', facts, hp, hview, hfacts, hselected, rfl⟩ := hselected
      rw [entryOf_path] at habove
      have hdir := h.view_above hp (by rw [hview]; rintro ⟨⟩) habove
      have hinside := SyncFilters.isInternalPath_above habove (hmatches.mp hselected)
      refine absurd ?_ (hfree (entryOf (join (segments q)) .dir) ⟨segments q, .dir, .dir,
        segments_ne_nil q, hdir, rfl, hmatches.mpr (by rwa [join_segments]), rfl⟩)
      rw [entryOf_path, join_segments]
  · intro hview
    split at hview
    · cases hview
    · rename_i hinside
      obtain ⟨node', hnode', hfacts⟩ := Option.bind_eq_some_iff.mp hview
      have hne : tree.view p ≠ none := by rw [hnode']; rintro ⟨⟩
      rw [← h.segments_join hp hne, hwhole.view_segments, hout.mem]
      rw [Bool.not_eq_true] at hinside
      exact .inl ⟨p, node', node, hp, hnode', hfacts, hmatches.mpr hinside, rfl⟩

/-- The manifest of a whole tree says what stands at each path. -/
theorem manifestView_tree (h : SyncTree tree)
    (hout : IsManifest (TreeSelected digest tree .none) out) :
    manifestView out = (describedTree digest tree).view := by
  funext p
  rw [view_describedTree h.valid, manifestView_scan h.toOnDisk hout]
  split
  · rename_i hinternal
    -- such a name is not synchronized, so nothing stands there
    by_cases hview : tree.view p = none
    · rw [hview]
      rfl
    · by_cases hp : p = []
      · rw [hp] at hinternal
        exact absurd hinternal (by decide +kernel)
      · rw [(h.paths hp hview).isInternalPath] at hinternal
        cases hinternal
  · rfl

theorem insertEntry_last {e : ManifestEntry} (h : ∀ x ∈ entries, x.path < e.path) :
    insertEntry e entries = entries ++ [e] := by
  induction entries with
  | nil => rfl
  | cons x rest ih =>
      have hx := h x (List.mem_cons_self ..)
      rw [insertEntry, if_neg (lt_asymm hx), if_neg (ne_of_gt hx),
        ih fun y hy => h y (List.mem_cons_of_mem _ hy)]
      rfl

/-- A manifest in the order of its paths is its own map. -/
theorem manifestMap_eq (h : entries.Pairwise fun a b => a.path < b.path) : manifestMap entries = entries := by
  suffices hfold : ∀ rest past : List ManifestEntry,
      (past ++ rest).Pairwise (fun a b => a.path < b.path) →
      rest.foldl (fun map entry => insertEntry entry map) past = past ++ rest from hfold entries [] h
  intro rest
  induction rest with
  | nil =>
      intro past _
      rw [List.append_nil]
      rfl
  | cons e rest ih =>
      intro past hsorted
      rw [List.foldl_cons, insertEntry_last, ih, List.append_assoc]
      · rfl
      · rwa [List.append_assoc]
      · intro x hx
        exact (List.pairwise_append.mp hsorted).2.2 x hx e (List.mem_cons_self ..)

/-- The manifest of a tree inside the limits, scanned or sent. -/
theorem SyncTree.manifest (digest : Sha256) (h : SyncTree tree) (hlimits : limits.Admits tree) :
    ∃ out, scanManifest digest tree .none limits.syncMaxManifestEntries limits.syncMaxFileBytes =
        .ok out ∧
      (∀ entries, entries.Perm (completeManifest digest tree) →
        validateClientManifest entries .none limits.syncMaxManifestEntries limits.syncMaxFileBytes =
          .ok out) ∧
      Whole out ∧ manifestView out = (describedTree digest tree).view := by
  have hlength : (completeManifest digest tree).length ≤ limits.syncMaxManifestEntries := by
    rw [length_completeManifest h]
    exact hlimits.entries
  have hsize : ∀ {p data}, tree.view p = some (.file (.regular data)) →
      SyncFilters.none.matchesEntry (join p) = true → data.content.length ≤ limits.syncMaxFileBytes :=
    fun hview _ => hlimits.sizes hview
  obtain ⟨out, hscan, -, -⟩ := scan_eq_validate h (.refl _) hlength hsize
  have hmanifest := (scanManifest_ok h.toOnDisk hscan).manifest
  refine ⟨out, hscan, fun entries hentries => ?_, hmanifest.whole TreeSelected.node,
    manifestView_tree h hmanifest⟩
  obtain ⟨out', hscan', hvalidate, -⟩ := scan_eq_validate h hentries hlength hsize
  rw [hscan] at hscan'
  cases hscan'
  exact hvalidate

end Trees

/-! ## Carrying out a plan -/

/-- What the client does, in its order. -/
def PullPlanResponse.edits (plan : PullPlanResponse) : List (Edit String FileFacts) :=
  plan.deleteFiles.map (fun path => .removeFile (segments path)) ++
    plan.deleteDirs.map (fun path => .removeDir (segments path)) ++
    (plan.createDirs.map (fun path => .makeDir (segments path)) ++
      plan.downloadFiles.map fun transfer => .putFile (segments transfer.path) {
        sizeBytes := transfer.sizeBytes
        mtimeUnixMs := transfer.mtimeUnixMs
        sha256 := transfer.sha256
        executable := transfer.executable })

section Pull

variable {glob : String → Except String (String → Bool)} {digest : Sha256} {limits : SyncLimits}
  {client : Tree String Leaf} {server : Option (Tree String Leaf)} {entries : List ManifestEntry}
  {old new : List ManifestEntry} {d : Difference} {deleteExtra : Bool}

/-- The files of a plan are in the order of their paths already. -/
theorem Planned.sorted_transfers (h : Planned old new deleteExtra d) :
    ((d.files.map (·.transfer)).mergeSort fun a b => decide (a.path ≤ b.path)) =
      d.files.map (·.transfer) := by
  have hpaths : (d.files.map (·.transfer)).map (·.path) = d.files.map (·.entry.path) := by
    rw [List.map_map]
    refine List.map_congr_left fun u hu => ?_
    obtain ⟨s, facts, -, rfl, -⟩ := h.files.mp hu
    rfl
  apply List.mergeSort_of_pairwise
  have horder := h.fileOrder
  rw [← hpaths, List.pairwise_map] at horder
  exact horder.imp fun hlt => decide_eq_true (le_of_lt hlt)

theorem scanProject_eq {filters : SyncFilters} (project : Option (Tree String Leaf)) :
    scanProject digest limits project filters = scanManifest digest (projectTree project) filters
      limits.syncMaxManifestEntries limits.syncMaxFileBytes := by
  cases project with
  | none =>
      simp [scanProject, projectTree, scanManifest, Tree.walk, synthesizeParentDirs, sortByPath]
      rfl
  | some tree => rfl

/-- A pull plan goes through on the client's tree, and leaves there what the server
    has with what of the client's was not in the way; it is the push plan of the
    trees the other way round. -/
theorem createPullPlan_executable (hserver : SyncTree (projectTree server)) (hclient : SyncTree client)
    (hserverLimits : limits.Admits (projectTree server)) (hclientLimits : limits.Admits client)
    (hentries : entries.Perm (completeManifest digest client)) :
    ∃ plan, createPullPlan glob digest limits ⟨entries, [], [], deleteExtra⟩ server = .ok plan ∧
      (∃ t, (describedTree digest client).edits plan.edits = .ok t ∧
        Replacement.Leaves (describedTree digest client).view
          (describedTree digest (projectTree server)).view
          (Gone (describedTree digest (projectTree server)).view deleteExtra) t.view ∧
        (deleteExtra = true → t.view = (describedTree digest (projectTree server)).view)) ∧
      ∀ serverEntries, serverEntries.Perm (completeManifest digest (projectTree server)) →
        ∃ push, createCommitPlan glob digest limits ⟨serverEntries, [], [], deleteExtra⟩ false
            (some client) = .ok push ∧
          push.uploadFiles.map (·.transfer) = plan.downloadFiles ∧
          push.createDirs = plan.createDirs ∧ push.deleteFiles = plan.deleteFiles ∧
          push.deleteDirs = plan.deleteDirs := by
  obtain ⟨old, hold, hcheckOld, hwholeOld, hviewOld⟩ := hclient.manifest digest hclientLimits
  obtain ⟨new, hnew, hcheckNew, hwholeNew, hviewNew⟩ := hserver.manifest digest hserverLimits
  have hdifference : ∃ d, difference old new deleteExtra = .ok d ∧ Planned old new deleteExtra d :=
    difference_planned hwholeOld hwholeNew
  obtain ⟨d, hd, hplanned⟩ := hdifference
  refine ⟨{ downloadFiles := d.files.map (·.transfer), createDirs := d.createDirs,
            deleteFiles := d.deleteFiles, deleteDirs := d.deleteDirs }, ?_, ?_, ?_⟩
  · simp only [createPullPlan, SyncFilters.new_nil, hcheckOld entries hentries, scanProject_eq, hnew,
      manifestMap_eq hwholeOld.sorted, manifestMap_eq hwholeNew.sorted, hd, hplanned.sorted_transfers,
      bind, Except.bind, pure, Except.pure]
  · obtain ⟨v, hruns, hleaves⟩ := hplanned.runs hwholeOld hwholeNew
    rw [hviewOld] at hruns
    rw [hviewOld, hviewNew] at hleaves
    obtain ⟨t, hedits, -, rfl⟩ := Tree.edits_of_runs (Tree.valid_filterMap hclient.valid) hruns
    refine ⟨t, ?_, hleaves, ?_⟩
    · rw [← hedits]
      simp [PullPlanResponse.edits, Difference.edits, Function.comp_def, describedTree, factsOf]
    · rintro rfl
      exact leaves_deleteExtra hleaves
  · intro serverEntries hserverEntries
    refine ⟨{ reset := false, uploadFiles := d.files, createDirs := d.createDirs,
              deleteFiles := d.deleteFiles, deleteDirs := d.deleteDirs, baseline := old },
      ?_, rfl, rfl, rfl, rfl⟩
    simp only [createCommitPlan, Bool.false_and, Bool.false_eq_true, if_false, SyncFilters.new_nil,
      hcheckNew serverEntries hserverEntries, scanProject, hold, manifestMap_eq hwholeOld.sorted,
      manifestMap_eq hwholeNew.sorted, Bool.not_false, Bool.and_true, hd, bind, Except.bind, pure,
      Except.pure]

/-! ### An example -/

def nodeSize : Node Leaf → Nat
  | .file (.regular data) => data.content.length
  | _ => 0

theorem SyncLimits.Admits.of_entries {tree : Tree String Leaf} (htree : SyncTree tree)
    (hlength : (allEntries tree).length ≤ limits.syncMaxManifestEntries)
    (hsize : ∀ entry ∈ allEntries tree, nodeSize entry.2 ≤ limits.syncMaxFileBytes) :
    limits.Admits tree where
  entries := hlength
  sizes {p data} hview := by
    have hp : p ≠ [] := by
      rintro rfl
      rw [Tree.view_nil] at hview
      cases hview
    exact hsize _ ((mem_allEntries htree.toOnDisk).mpr ⟨hp, hview⟩)

/-- The server has a file where the client has the directory `run`. -/
def sampleServer : Tree String Leaf :=
  .dir "rtl" (.file "top.v" (.regular ⟨[], 9000000, 0o644⟩) .nil)
    (.file "run" (.regular ⟨[], 7000000, 0o755⟩) .nil)

theorem sampleServer_sync : SyncTree sampleServer :=
  SyncTree.of_entries (by decide +kernel) (by decide +kernel)

theorem createPullPlan_executable_sample : ∃ plan,
    createPullPlan (fun _ => .error "no pattern") (fun _ => emptySha256) ⟨4, 0⟩
      ⟨completeManifest (fun _ => emptySha256) sampleTree, [], [], true⟩ (some sampleServer) = .ok plan ∧
    ∃ t, (describedTree (fun _ => emptySha256) sampleTree).edits plan.edits = .ok t ∧
      t.view = (describedTree (fun _ => emptySha256) sampleServer).view := by
  have hserver : SyncTree (projectTree (some sampleServer)) := sampleServer_sync
  have hserverLimits : SyncLimits.Admits ⟨4, 0⟩ sampleServer :=
    .of_entries sampleServer_sync (by decide +kernel) (by decide +kernel)
  have hclientLimits : SyncLimits.Admits ⟨4, 0⟩ sampleTree :=
    .of_entries sampleTree_sync (by decide +kernel) (by decide +kernel)
  obtain ⟨plan, hplan, ⟨t, hedits, -, hview⟩, -⟩ :=
    createPullPlan_executable hserver sampleTree_sync hserverLimits hclientLimits (.refl _)
  exact ⟨plan, hplan, t, hedits, hview rfl⟩

end Pull

end VivadoServer.Sync
