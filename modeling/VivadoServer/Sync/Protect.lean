/-
  VivadoServer.Sync.Protect

  What the filters leave out, a commit leaves alone.  A plan names files that are
  selected, and directories the walk may enter; a commit takes away or replaces
  regular files only where the plan names a file, makes directories at free places
  and takes away empty ones.
-/

import VivadoServer.Sync.Checks

namespace VivadoServer.Sync

open FileTree History CommitTransaction

/-! ## What a plan was made of -/

section Plans

variable {glob : String → Except String (String → Bool)} {digest : Sha256} {limits : SyncLimits}
  {request : PushPlanRequest} {reset : Bool} {project : Option (Tree String Leaf)}
  {plan : CommitPlan} {filters : SyncFilters} {client server : List ManifestEntry} {p q : String}

/-- The manifests a push plan compares. -/
structure Compares (glob : String → Except String (String → Bool)) (digest : Sha256)
    (limits : SyncLimits) (request : PushPlanRequest) (reset : Bool) (tree : Tree String Leaf)
    (filters : SyncFilters) (client server : List ManifestEntry) : Prop where
  compiled : SyncFilters.new glob request.includeGlobs request.excludeGlobs = .ok filters
  checked : Checked filters limits.syncMaxManifestEntries limits.syncMaxFileBytes request.entries client
  replaced : reset = true → server = [] ∧ request.includeGlobs = [] ∧ request.excludeGlobs = []
  scanned : reset = false → Scanned digest tree filters limits.syncMaxManifestEntries
    limits.syncMaxFileBytes server

theorem Compares.wholeClient {tree : Tree String Leaf}
    (h : Compares glob digest limits request reset tree filters client server) : Whole client :=
  h.checked.manifest.whole ClientSelected.node

theorem Compares.wholeServer {tree : Tree String Leaf}
    (h : Compares glob digest limits request reset tree filters client server) : Whole server := by
  cases reset with
  | true =>
      rw [(h.replaced rfl).1]
      exact ⟨.nil, (by rintro _ _ ⟨⟩), (by rintro _ ⟨⟩)⟩
  | false => exact (h.scanned rfl).manifest.whole TreeSelected.node

theorem createCommitPlan_ok (htree : OnDisk (projectTree project))
    (hplan : createCommitPlan glob digest limits request reset project = .ok plan) :
    ∃ filters client server d,
      Compares glob digest limits request reset (projectTree project) filters client server ∧
      Planned server client (request.deleteExtra && !reset) d ∧
      plan = {
        reset := reset
        uploadFiles := d.files
        createDirs := d.createDirs
        deleteFiles := d.deleteFiles
        deleteDirs := d.deleteDirs
        baseline := server } := by
  simp only [createCommitPlan, bind, Except.bind, pure, Except.pure] at hplan
  by_cases hfull : (reset && (!request.includeGlobs.isEmpty || !request.excludeGlobs.isEmpty)) = true
  · rw [if_pos hfull] at hplan
    cases hplan
  rw [if_neg hfull] at hplan
  split at hplan
  · cases hplan
  rename_i filters hfilters
  split at hplan
  · cases hplan
  rename_i client hclient
  have hchecked := validateClientManifest_ok hclient
  have hwhole : Whole client := hchecked.manifest.whole ClientSelected.node
  have hfinish : ∀ server d, Compares glob digest limits request reset (projectTree project) filters
      client server →
      difference (manifestMap server) (manifestMap client) (request.deleteExtra && !reset) = .ok d →
      Planned server client (request.deleteExtra && !reset) d ∧ manifestMap server = server := by
    intro server d hcompares hd
    have hdifference : ∃ d, difference server client (request.deleteExtra && !reset) = .ok d ∧
        Planned server client (request.deleteExtra && !reset) d :=
      difference_planned hcompares.wholeServer hwhole
    obtain ⟨d', hd', hplanned⟩ := hdifference
    rw [manifestMap_eq hcompares.wholeServer.sorted, manifestMap_eq hwhole.sorted, hd'] at hd
    cases hd
    exact ⟨hplanned, manifestMap_eq hcompares.wholeServer.sorted⟩
  cases reset with
  | true =>
      rw [Bool.true_and, Bool.or_eq_true, not_or] at hfull
      have hcompares : Compares glob digest limits request true (projectTree project) filters client
          [] := ⟨hfilters, hchecked, fun _ => ⟨rfl, by simpa using hfull.1, by simpa using hfull.2⟩,
            (by rintro ⟨⟩)⟩
      rw [if_pos rfl] at hplan
      split at hplan
      · cases hplan
      · rename_i d hd
        cases hplan
        exact ⟨filters, client, [], d, hcompares, (hfinish [] d hcompares hd).1, rfl⟩
  | false =>
      rw [if_neg Bool.false_ne_true] at hplan
      split at hplan
      · cases hplan
      · rename_i server hscan
        rw [scanProject_eq] at hscan
        have hcompares : Compares glob digest limits request false (projectTree project) filters
            client server := ⟨hfilters, hchecked, (by rintro ⟨⟩), fun _ => scanManifest_ok htree hscan⟩
        split at hplan
        · cases hplan
        · rename_i d hd
          cases hplan
          obtain ⟨hplanned, hmap⟩ := hfinish server d hcompares hd
          exact ⟨filters, client, server, d, hcompares, hplanned, by rw [hmap]⟩

theorem TreeSelected.matches {tree : Tree String Leaf} {e : ManifestEntry}
    (h : TreeSelected digest tree filters e) : filters.matchesEntry e.path = true := by
  obtain ⟨p, node, facts, -, -, -, hmatches, rfl⟩ := h
  rwa [entryOf_path]

theorem ClientSelected.matches {maxFileBytes : Nat} {entries : List ManifestEntry} {e : ManifestEntry}
    (h : ClientSelected filters maxFileBytes entries e) : filters.matchesEntry e.path = true := by
  obtain ⟨raw, -, hmatches, hcheck⟩ := h
  obtain ⟨node, rfl, -⟩ := checkEntry_ok hcheck
  rwa [entryOf_path]

end Plans

/-! ## What a commit may change -/

/-- A file stands at the path. -/
def HasFile (v : View String Leaf) (q : FilePath) : Prop := ∃ leaf, v q = some (.file leaf)

/-- The filters protect what they do not select. -/
structure Protects (site : CommitSite) (filters : SyncFilters) (v u : View String Leaf) : Prop where
  unselected : ∀ p, filters.matchesEntry p = false →
    HasFile v (site.projectPath p) ∨ HasFile u (site.projectPath p) →
    u (site.projectPath p) = v (site.projectPath p)
  excluded : ∀ p, filters.shouldDescend p = false →
    u (site.projectPath p) = v (site.projectPath p)

section Protects

variable {site : CommitSite} {filters : SyncFilters} {v u : View String Leaf} {p : SyncPath}
  {plan : CommitPlan} {node : Option (Node Leaf)} {target : FilePath}

theorem projectPath_inj {q : SyncPath} (h : site.projectPath q = site.projectPath p) : q = p :=
  segments_inj (List.append_cancel_left h)

theorem Protects.refl : Protects site filters v v := ⟨fun _ _ _ => rfl, fun _ _ => rfl⟩

/-- A selected place may change. -/
theorem Protects.selected (h : Protects site filters v u) (hp : filters.matchesEntry p = true) :
    Protects site filters v (Function.update u (site.projectPath p) node) := by
  have hsame : ∀ q, q ≠ p →
      Function.update u (site.projectPath p) node (site.projectPath q) = u (site.projectPath q) :=
    fun q hq => Function.update_of_ne (fun heq => hq (projectPath_inj heq)) ..
  constructor
  · intro q hq hfile
    have hne : q ≠ p := by
      rintro rfl
      rw [hp] at hq
      cases hq
    rw [HasFile, HasFile, hsame q hne] at hfile
    rw [hsame q hne, h.unselected q hq hfile]
  · intro q hq
    rw [hsame q, h.excluded q hq]
    rintro rfl
    rw [SyncFilters.shouldDescend_of_matchesEntry hp] at hq
    cases hq

end Protects

/-! ## The loops of a commit -/

section Loops

variable {site : CommitSite} {filters : SyncFilters} {v u : View String Leaf} {p : SyncPath}
  {plan : CommitPlan} {left : List PlannedUpload} {upload : PlannedUpload}

/-- What is protected is there, and the uploads that are left are staged as files. -/
structure Facts (site : CommitSite) (filters : SyncFilters) (v : View String Leaf)
    (left : List PlannedUpload) (u : View String Leaf) : Prop where
  protects : Protects site filters v u
  staged : ∀ upload ∈ left, ∃ data,
    u (site.stagedPath upload.entry.path) = some (.file (.regular data))

/-- The state between two operations. -/
def Kept (site : CommitSite) (filters : SyncFilters) (v : View String Leaf)
    (left : List PlannedUpload) (files : Files) (tx : CommitTransaction) : Prop :=
  ∃ u, Facts site filters v left u ∧ Shows site.rollbackDir u files tx

theorem apart_staged (h : site.project ≠ INTERNAL_DIR) {q : SyncPath} :
    Apart (site.stagedPath q) (site.projectPath p) := by
  obtain ⟨hplaces, -⟩ := separate_of_project h
  exact ((hplaces.project.symm.below (List.prefix_append _ _)).symm).below (List.prefix_append _ _)

/-- A change in the project leaves the staged files. -/
theorem Facts.update (h : Facts site filters v left u) (hproject : site.project ≠ INTERNAL_DIR)
    {node : Option (Node Leaf)}
    (hprotects : Protects site filters v (Function.update u (site.projectPath p) node)) :
    Facts site filters v left (Function.update u (site.projectPath p) node) := by
  refine ⟨hprotects, fun upload hupload => ?_⟩
  rw [Function.update_of_ne (apart_staged hproject).ne]
  exact h.staged upload hupload

end Loops

/-! ## The commit -/

section Commit

variable {quiet : Prop} {site : CommitSite} {filters : SyncFilters} {plan : CommitPlan}
  {v : View String Leaf} {syncId : Uuid}

theorem Reads.does {α : Type} {x : Commit α} (h : Reads x) {P : Files → CommitTransaction → Prop} :
    Does False P x fun _ => P :=
  Triple.weaken (h P) (fun _ hd => hd.1) (fun _ _ hd => ⟨hd, False.elim⟩) fun _ _ _ => id

/-- A transaction that is settled with an answer is one that went through. -/
theorem settleTransaction_does {α : Type} {P : Files → CommitTransaction → Prop} {x : Commit α}
    {Q : α → Files → CommitTransaction → Prop} (hx : Does quiet P x Q) :
    Does quiet P (settleTransaction x) Q := by
  apply Triple.seq (M := fun r d => Ends (fun a => In quiet (Q a) d) (fun _ => ¬ quiet) r)
  · exact Triple.attempt hx
  · rintro (e | a)
    · apply Triple.seq (M := fun _ _ => ¬ quiet)
      · apply Triple.attempt
        intro d hd
        split <;> exact hd
      · rintro (_ | _) <;> exact Triple.raise fun _ => id
    · exact Triple.ret fun _ => id

end Commit

/-! ### An example -/

end VivadoServer.Sync
