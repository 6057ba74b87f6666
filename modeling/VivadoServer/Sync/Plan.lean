/-
  VivadoServer.Sync.Plan

  Plans (`create_plan` and `create_pull_plan` of `src/sync.rs`): the comparison of
  two manifests, entry by entry.  A push compares the client's manifest with what
  the server has, a pull the other way round; what a plan deletes, creates and
  transfers is a replacement of one tree by the other.
-/

import VivadoServer.Sync.Scan
import VivadoServer.Lib.Replacement

namespace VivadoServer.Sync

open FileTree

/-! ## Comparing manifests -/

structure SyncLimits where
  syncMaxManifestEntries : Nat
  syncMaxFileBytes : Nat

/-- `get` of a manifest map. -/
def lookup (entries : List ManifestEntry) (path : String) : Option ManifestEntry :=
  entries.find? (·.path == path)

/-- One entry put in a manifest map, in the order of the paths. -/
def insertEntry (entry : ManifestEntry) : List ManifestEntry → List ManifestEntry
  | [] => [entry]
  | first :: rest =>
    if entry.path < first.path then entry :: first :: rest
    else if entry.path = first.path then entry :: rest
    else first :: insertEntry entry rest

def manifestMap (entries : List ManifestEntry) : List ManifestEntry :=
  entries.foldl (fun map entry => insertEntry entry map) []

def sameFile (left right : ManifestEntry) : Bool :=
  left.kind == .file && right.kind == .file && left.sizeBytes == right.sizeBytes &&
    left.mtimeUnixMs == right.mtimeUnixMs && left.sha256 == right.sha256 &&
    left.executable == right.executable

def fileTransfer (entry : ManifestEntry) : Except AppError FileTransfer := do
  if entry.kind ≠ .file then throw (.badRequest ("not a file: " ++ entry.path))
  let some sizeBytes := entry.sizeBytes
    | throw (.badRequest ("file entry missing size: " ++ entry.path))
  let some mtimeUnixMs := entry.mtimeUnixMs
    | throw (.badRequest ("file entry missing mtime: " ++ entry.path))
  let some sha256 := entry.sha256
    | throw (.badRequest ("file entry missing sha256: " ++ entry.path))
  return {
    path := entry.path
    sizeBytes := sizeBytes
    mtimeUnixMs := mtimeUnixMs
    sha256 := sha256
    executable := entry.executable }

/-- What has to change: the files to transfer, and the paths to create and delete. -/
structure Difference where
  files : List PlannedUpload := []
  createDirs : List SyncPath := []
  deleteFiles : List SyncPath := []
  deleteDirs : List SyncPath := []

def Difference.append (a b : Difference) : Difference where
  files := a.files ++ b.files
  createDirs := a.createDirs ++ b.createDirs
  deleteFiles := a.deleteFiles ++ b.deleteFiles
  deleteDirs := a.deleteDirs ++ b.deleteDirs

def ofKind (kind : ManifestEntryKind) (entries : List ManifestEntry) : List SyncPath :=
  (entries.filter (·.kind == kind)).map (·.path)

/-- The transfer of a file that is not there already. -/
def plannedFiles (before : Option ManifestEntry) (entry : ManifestEntry) :
    Except AppError (List PlannedUpload) :=
  if before.all (!sameFile entry ·) then do
    let transfer ← fileTransfer entry
    return [{ entry := entry, transfer := transfer }]
  else .ok []

/-- What one entry adds to a plan. -/
def compareEntry (old : List ManifestEntry) (entry : ManifestEntry) : Except AppError Difference :=
  let before := lookup old entry.path
  match entry.kind with
  | .dir => .ok {
      createDirs := if before.all (·.kind != .dir) then [entry.path] else []
      deleteFiles := if before.any (·.kind == .file) then [entry.path] else [] }
  | .file => do
    let files ← plannedFiles before entry
    -- the whole subtree is in the way of the file
    if before.any (·.kind == .dir) then
      let children := old.filter fun child => startsBelow entry.path child.path
      return {
        files := files
        deleteFiles := ofKind .file children
        deleteDirs := ofKind .dir children ++ [entry.path] }
    else return { files := files }

def addEntry (old : List ManifestEntry) (plan : Difference) (entry : ManifestEntry) :
    Except AppError Difference := do
  let added ← compareEntry old entry
  return plan.append added

def difference (old new : List ManifestEntry) (deleteExtra : Bool) : Except AppError Difference := do
  let plan ← new.foldlM (addEntry old) {}
  let extra := if deleteExtra then old.filter fun entry => (lookup new entry.path).isNone else []
  let plan := plan.append { deleteFiles := ofKind .file extra, deleteDirs := ofKind .dir extra }
  return { plan with
    createDirs := sortPaths plan.createDirs
    deleteFiles := sortPaths plan.deleteFiles
    deleteDirs := sortPathsDeepestFirst plan.deleteDirs }

/-! ## Plans -/

structure PushPlanRequest where
  entries : List ManifestEntry
  includeGlobs : List String
  excludeGlobs : List String
  deleteExtra : Bool

structure PullPlanRequest where
  entries : List ManifestEntry
  includeGlobs : List String
  excludeGlobs : List String
  deleteExtra : Bool

structure PullPlanResponse where
  downloadFiles : List FileTransfer
  createDirs : List SyncPath
  deleteFiles : List SyncPath
  deleteDirs : List SyncPath
deriving DecidableEq, Repr

/-- `SyncManager::scan_manifest` of a project, which may be absent. -/
def scanProject (digest : Sha256) (limits : SyncLimits) (project : Option (Tree String Leaf))
    (filters : SyncFilters) : Except AppError (List ManifestEntry) :=
  match project with
  | none => .ok []
  | some tree =>
    scanManifest digest tree filters limits.syncMaxManifestEntries limits.syncMaxFileBytes

section Plans

variable (glob : String → Except String (String → Bool)) (digest : Sha256) (limits : SyncLimits)

/-- `create_plan`, up to the staging directory and the session. -/
def createCommitPlan (request : PushPlanRequest) (reset : Bool) (project : Option (Tree String Leaf)) :
    Except AppError CommitPlan := do
  if reset && (!request.includeGlobs.isEmpty || !request.excludeGlobs.isEmpty) then
    throw (.badRequest "full replacement does not accept filters")
  let filters ← SyncFilters.new glob request.includeGlobs request.excludeGlobs
  let client ← validateClientManifest request.entries filters limits.syncMaxManifestEntries
    limits.syncMaxFileBytes
  let server ← if reset then pure [] else scanProject digest limits project filters
  let plan ← difference (manifestMap server) (manifestMap client) (request.deleteExtra && !reset)
  return {
    reset := reset
    uploadFiles := plan.files
    createDirs := plan.createDirs
    deleteFiles := plan.deleteFiles
    deleteDirs := plan.deleteDirs
    baseline := manifestMap server }

def createPullPlan (request : PullPlanRequest) (project : Option (Tree String Leaf)) :
    Except AppError PullPlanResponse := do
  let filters ← SyncFilters.new glob request.includeGlobs request.excludeGlobs
  let client ← validateClientManifest request.entries filters limits.syncMaxManifestEntries
    limits.syncMaxFileBytes
  let server ← scanProject digest limits project filters
  let plan ← difference (manifestMap client) (manifestMap server) request.deleteExtra
  return {
    downloadFiles := (plan.files.map (·.transfer)).mergeSort fun a b => decide (a.path ≤ b.path)
    createDirs := plan.createDirs
    deleteFiles := plan.deleteFiles
    deleteDirs := plan.deleteDirs }

end Plans

/-! ## Manifests as views -/

/-- What stands at the path of an entry. -/
def nodeOf (entry : ManifestEntry) : Node FileFacts :=
  match entry.kind with
  | .dir => .dir
  | .file => .file {
      sizeBytes := entry.sizeBytes.getD 0
      mtimeUnixMs := entry.mtimeUnixMs.getD 0
      sha256 := entry.sha256.getD ""
      executable := entry.executable }

/-- What a manifest says of each path. -/
def manifestView (entries : List ManifestEntry) : View String FileFacts := fun p =>
  if p = [] then some .dir
  else if segments (join p) = p then (lookup entries (join p)).map nodeOf
  else none

/-- A manifest that was scanned or checked: it has every directory above its entries. -/
structure Whole (entries : List ManifestEntry) : Prop where
  sorted : entries.Pairwise fun a b => a.path < b.path
  parents : ∀ {e q}, e ∈ entries → Above q e.path → dirEntry q ∈ entries
  nodes : ∀ {e}, e ∈ entries → ∃ node, e = entryOf e.path node

section Views

variable {entries : List ManifestEntry} {e : ManifestEntry} {s q : String} {node : Node FileFacts}
  {p : List String}

@[simp] theorem nodeOf_entryOf : nodeOf (entryOf s node) = node := by
  cases node <;> rfl

theorem Whole.path_inj (h : Whole entries) {e' : ManifestEntry} (he : e ∈ entries)
    (he' : e' ∈ entries) (heq : e.path = e'.path) : e = e' := by
  have hnodup : (entries.map (·.path)).Nodup :=
    List.pairwise_map.mpr (h.sorted.imp fun hlt => ne_of_lt hlt)
  exact List.inj_on_of_nodup_map hnodup he he' heq

theorem Whole.lookup_eq_some (h : Whole entries) : lookup entries s = some e ↔ e ∈ entries ∧ e.path = s := by
  constructor
  · intro hfind
    exact ⟨List.mem_of_find?_eq_some hfind, by simpa using List.find?_some hfind⟩
  · rintro ⟨he, rfl⟩
    cases hfind : lookup entries e.path with
    | none =>
        rw [lookup, List.find?_eq_none] at hfind
        exact absurd (hfind e he) (by simp)
    | some e' =>
        have hpath : e'.path = e.path := by simpa using List.find?_some hfind
        rw [h.path_inj (List.mem_of_find?_eq_some hfind) he hpath]

theorem lookup_eq_none : lookup entries s = none ↔ ∀ e ∈ entries, e.path ≠ s := by
  simp [lookup, List.find?_eq_none]

/-- What stands at a path is what the entry says. -/
theorem Whole.view_segments (h : Whole entries) :
    manifestView entries (segments s) = some node ↔ entryOf s node ∈ entries := by
  rw [manifestView, if_neg (segments_ne_nil s), join_segments, if_pos rfl, Option.map_eq_some_iff]
  constructor
  · rintro ⟨e, hfind, rfl⟩
    obtain ⟨he, rfl⟩ := h.lookup_eq_some.mp hfind
    obtain ⟨node, hnode⟩ := h.nodes he
    rw [hnode, nodeOf_entryOf, entryOf_path]
    exact hnode ▸ he
  · intro he
    exact ⟨_, h.lookup_eq_some.mpr ⟨he, entryOf_path _ _⟩, nodeOf_entryOf⟩

theorem Whole.view_dir (h : Whole entries) :
    manifestView entries (segments s) = some .dir ↔ dirEntry s ∈ entries := h.view_segments

theorem Whole.view_file (h : Whole entries) {facts : FileFacts} :
    manifestView entries (segments s) = some (.file facts) ↔ fileEntry s facts ∈ entries :=
  h.view_segments

theorem view_segments_eq_none : manifestView entries (segments s) = none ↔ ∀ e ∈ entries, e.path ≠ s := by
  rw [manifestView, if_neg (segments_ne_nil s), join_segments, if_pos rfl, Option.map_eq_none_iff,
    lookup_eq_none]

/-- A manifest says something of the root and of paths that are segments. -/
theorem manifestView_ne_none (hp : p ≠ []) (hview : manifestView entries p ≠ none) :
    segments (join p) = p := by
  rw [manifestView, if_neg hp] at hview
  by_contra hsegments
  rw [if_neg hsegments] at hview
  exact hview rfl

theorem Whole.closed (h : Whole entries) : View.Closed (manifestView entries) where
  root := by rw [manifestView, if_pos rfl]
  parent {p n} hview := by
    by_cases hp : p = []
    · rw [hp, manifestView, if_pos rfl]
    · have hsegments := manifestView_ne_none (by simp) hview
      -- the segments in front are a path of their own
      have hfront : segments (join p) = p := by
        apply segments_join hp
        intro part hpart
        have hmem : part ∈ segments (join (p ++ [n])) := by
          rw [hsegments]
          exact List.mem_append_left _ hpart
        exact slash_notMem_segments hmem
      obtain ⟨node, hnode⟩ := Option.ne_none_iff_exists'.mp hview
      rw [← hsegments, h.view_segments] at hnode
      have habove : Above (join p) (join (p ++ [n])) :=
        above_iff.mpr ⟨[n], List.cons_ne_nil _ _, by rw [hsegments, hfront]⟩
      rw [← hfront, h.view_segments]
      exact h.parents hnode (by rw [entryOf_path]; exact habove)

end Views

/-! ## What the comparison lists -/

section Compare

variable {old new : List ManifestEntry} {e : ManifestEntry} {s : String} {facts : FileFacts}
  {d : Difference} {deleteExtra : Bool}

/-- The transfer of a file. -/
def transferOf (path : String) (facts : FileFacts) : FileTransfer where
  path := path
  sizeBytes := facts.sizeBytes
  mtimeUnixMs := facts.mtimeUnixMs
  sha256 := facts.sha256
  executable := facts.executable

def uploadOf (path : String) (facts : FileFacts) : PlannedUpload where
  entry := fileEntry path facts
  transfer := transferOf path facts

@[simp] theorem fileTransfer_fileEntry : fileTransfer (fileEntry s facts) = .ok (transferOf s facts) := rfl

theorem sameFile_iff {a b : Node FileFacts} :
    sameFile (entryOf s a) (entryOf s b) = true ↔ a = b ∧ a ≠ .dir := by
  cases a with
  | dir => simp [sameFile, entryOf, dirEntry]
  | file facts =>
      cases b with
      | dir => simp [sameFile, entryOf, fileEntry, dirEntry]
      | file facts' =>
          obtain ⟨size, mtime, sha256, executable⟩ := facts
          obtain ⟨size', mtime', sha256', executable'⟩ := facts'
          simp [sameFile, entryOf, fileEntry, and_assoc]

theorem mem_ofKind {kind : ManifestEntryKind} {entries : List ManifestEntry} :
    s ∈ ofKind kind entries ↔ ∃ e ∈ entries, e.kind = kind ∧ e.path = s := by
  simp [ofKind, and_assoc]

/-- What one entry adds, told by what stands at its path before. -/
structure Adds (old : List ManifestEntry) (s : String) (node : Node FileFacts) (d : Difference) :
    Prop where
  files : ∀ {u}, u ∈ d.files ↔ ∃ facts, node = .file facts ∧ u = uploadOf s facts ∧
    manifestView old (segments s) ≠ some (.file facts)
  createDirs : ∀ {p}, p ∈ d.createDirs ↔
    p = s ∧ node = .dir ∧ manifestView old (segments s) ≠ some .dir
  deleteFiles : ∀ {p}, p ∈ d.deleteFiles ↔
    (∃ facts, manifestView old (segments p) = some (.file facts)) ∧
      (p = s ∧ node = .dir ∨ Above s p ∧ node ≠ .dir)
  deleteDirs : ∀ {p}, p ∈ d.deleteDirs ↔
    manifestView old (segments p) = some .dir ∧ node ≠ .dir ∧ (p = s ∨ Above s p)
  order : (d.files.map (·.entry.path)).Sublist [s]

/-- A file of a whole manifest, and a directory of one. -/
theorem Whole.mem_file (h : Whole old) (he : e ∈ old) (hkind : e.kind = .file) :
    ∃ facts, e = fileEntry e.path facts := by
  obtain ⟨node, hnode⟩ := h.nodes he
  cases node with
  | dir =>
      rw [hnode] at hkind
      cases hkind
  | file facts => exact ⟨facts, hnode⟩

theorem Whole.mem_dir (h : Whole old) (he : e ∈ old) (hkind : e.kind = .dir) : e = dirEntry e.path := by
  obtain ⟨node, hnode⟩ := h.nodes he
  cases node with
  | dir => exact hnode
  | file facts =>
      rw [hnode] at hkind
      cases hkind

/-- What stands at a path is what the map has for it. -/
theorem Whole.lookup_eq (h : Whole old) :
    lookup old s = (manifestView old (segments s)).map (entryOf s) := by
  cases hview : manifestView old (segments s) with
  | none =>
      rw [view_segments_eq_none] at hview
      exact lookup_eq_none.mpr hview
  | some node => exact h.lookup_eq_some.mpr ⟨h.view_segments.mp hview, entryOf_path _ _⟩

/-- The entries below a path, of one kind. -/
theorem Whole.mem_children (h : Whole old) {kind : ManifestEntryKind} {p : String} :
    p ∈ ofKind kind (old.filter fun child => startsBelow s child.path) ↔
      Above s p ∧ ∃ node, manifestView old (segments p) = some node ∧ (entryOf p node).kind = kind := by
  rw [mem_ofKind]
  constructor
  · rintro ⟨e, he, hkind, rfl⟩
    obtain ⟨he, hbelow⟩ := List.mem_filter.mp he
    obtain ⟨node, hnode⟩ := h.nodes he
    rw [hnode] at he hkind
    exact ⟨startsBelow_iff.mp hbelow, node, h.view_segments.mpr he, hkind⟩
  · rintro ⟨habove, node, hview, hkind⟩
    refine ⟨entryOf p node, List.mem_filter.mpr ⟨h.view_segments.mp hview, ?_⟩, hkind, entryOf_path _ _⟩
    rw [entryOf_path]
    exact startsBelow_iff.mpr habove

/-- Where something is below a path, a directory stands at the path. -/
theorem Whole.view_above (h : Whole old) {p : String} (habove : Above s p)
    (hview : manifestView old (segments p) ≠ none) : manifestView old (segments s) = some .dir := by
  obtain ⟨rest, hrest, hp⟩ := above_iff.mp habove
  rw [hp] at hview
  exact h.closed.above hrest hview

theorem entryOf_kind_file {p : String} {node : Node FileFacts} :
    (entryOf p node).kind = .file ↔ ∃ facts, node = .file facts := by
  cases node <;> simp [entryOf, dirEntry, fileEntry]

theorem entryOf_kind_dir {p : String} {node : Node FileFacts} :
    (entryOf p node).kind = .dir ↔ node = .dir := by
  cases node <;> simp [entryOf, dirEntry, fileEntry]

/-- What is asked of the entry before, asked of what stands there. -/
theorem Whole.before_kind (h : Whole old) :
    ((lookup old s).all (·.kind != .dir) = true ↔ manifestView old (segments s) ≠ some .dir) ∧
    ((lookup old s).any (·.kind == .dir) = true ↔ manifestView old (segments s) = some .dir) ∧
    ((lookup old s).any (·.kind == .file) = true ↔
      ∃ facts, manifestView old (segments s) = some (.file facts)) := by
  rw [h.lookup_eq]
  cases manifestView old (segments s) with
  | none => simp
  | some node => cases node <;> simp [entryOf, dirEntry, fileEntry]

theorem Whole.before_same (h : Whole old) :
    (lookup old s).all (!sameFile (fileEntry s facts) ·) = true ↔
      manifestView old (segments s) ≠ some (.file facts) := by
  rw [h.lookup_eq]
  cases manifestView old (segments s) with
  | none => simp
  | some node =>
      simp only [Option.map_some, Option.all_some, Bool.not_eq_true', ne_eq, Option.some.injEq]
      rw [← Bool.not_eq_true, show fileEntry s facts = entryOf s (.file facts) from rfl, sameFile_iff]
      simp [eq_comm]

theorem compareEntry_dir (hold : Whole old) :
    ∃ d, compareEntry old (entryOf s .dir) = .ok d ∧ Adds old s .dir d := by
  obtain ⟨hall, -, hfile⟩ := hold.before_kind (s := s)
  refine ⟨_, rfl, { files := ?_, createDirs := ?_, deleteFiles := ?_, deleteDirs := ?_, order := by simp }⟩
  · simp
  · intro p
    simp only [entryOf, dirEntry, hall]
    split <;> simp_all
  · intro p
    show p ∈ (if (lookup old s).any (·.kind == .file) then [s] else []) ↔ _
    by_cases hview : ∃ facts, manifestView old (segments s) = some (.file facts)
    · rw [if_pos (hfile.mpr hview), List.mem_singleton]
      constructor
      · rintro rfl
        exact ⟨hview, .inl ⟨rfl, rfl⟩⟩
      · rintro ⟨-, ⟨rfl, -⟩ | ⟨-, hne⟩⟩
        · rfl
        · exact absurd rfl hne
    · rw [if_neg (fun hany => hview (hfile.mp hany))]
      refine ⟨(by rintro ⟨⟩), ?_⟩
      rintro ⟨hp, ⟨rfl, -⟩ | ⟨-, hne⟩⟩
      · exact absurd hp hview
      · exact absurd rfl hne
  · simp

theorem compareEntry_file (hold : Whole old) :
    ∃ d, compareEntry old (entryOf s (.file facts)) = .ok d ∧ Adds old s (.file facts) d := by
  obtain ⟨-, hdir, -⟩ := hold.before_kind (s := s)
  -- the file is transferred unless it is there
  have hfiles : ∃ files, plannedFiles (lookup old s) (fileEntry s facts) = .ok files ∧
      (∀ u, u ∈ files ↔ u = uploadOf s facts ∧ manifestView old (segments s) ≠ some (.file facts)) ∧
      (files.map (·.entry.path)).Sublist [s] := by
    by_cases hsame : (lookup old s).all (!sameFile (fileEntry s facts) ·) = true
    · refine ⟨[uploadOf s facts], by rw [plannedFiles, if_pos hsame]; rfl, fun u => ?_, .refl _⟩
      rw [List.mem_singleton]
      exact ⟨fun hu => ⟨hu, hold.before_same.mp hsame⟩, fun hu => hu.1⟩
    · refine ⟨[], by rw [plannedFiles, if_neg hsame], fun u => ⟨(by rintro ⟨⟩), fun hu => ?_⟩,
        List.nil_sublist _⟩
      exact absurd (hold.before_same.mpr hu.2) hsame
  obtain ⟨files, hfiles, hmem, horder⟩ := hfiles
  have hmem' : ∀ {u}, u ∈ files ↔ ∃ facts', Node.file facts = .file facts' ∧ u = uploadOf s facts' ∧
      manifestView old (segments s) ≠ some (.file facts') := by
    intro u
    rw [hmem]
    constructor
    · exact fun hu => ⟨facts, rfl, hu⟩
    · rintro ⟨facts', heq, hu⟩
      cases heq
      exact hu
  have hcompare : compareEntry old (entryOf s (.file facts)) =
      if (lookup old s).any (·.kind == .dir) then .ok {
        files := files
        deleteFiles := ofKind .file (old.filter fun child => startsBelow s child.path)
        deleteDirs := ofKind .dir (old.filter fun child => startsBelow s child.path) ++ [s] }
      else .ok { files := files } := by
    show (plannedFiles (lookup old s) (fileEntry s facts) >>= fun files => _) = _
    rw [hfiles]
    rfl
  by_cases hview : manifestView old (segments s) = some .dir
  · refine ⟨{ files := files
              deleteFiles := ofKind .file (old.filter fun child => startsBelow s child.path)
              deleteDirs := ofKind .dir (old.filter fun child => startsBelow s child.path) ++ [s] },
      ?_, { files := hmem', createDirs := by simp, deleteFiles := ?_, deleteDirs := ?_, order := horder }⟩
    · rw [hcompare, if_pos (hdir.mpr hview)]
    · intro p
      rw [hold.mem_children]
      simp only [entryOf_kind_file]
      constructor
      · rintro ⟨habove, node, hp, facts', rfl⟩
        exact ⟨⟨facts', hp⟩, .inr ⟨habove, (by rintro ⟨⟩)⟩⟩
      · rintro ⟨⟨facts', hp⟩, ⟨-, hne⟩ | ⟨habove, -⟩⟩
        · cases hne
        · exact ⟨habove, _, hp, facts', rfl⟩
    · intro p
      rw [List.mem_append, hold.mem_children, List.mem_singleton]
      simp only [entryOf_kind_dir]
      constructor
      · rintro (⟨habove, node, hp, rfl⟩ | rfl)
        · exact ⟨hp, (by rintro ⟨⟩), .inr habove⟩
        · exact ⟨hview, (by rintro ⟨⟩), .inl rfl⟩
      · rintro ⟨hp, -, rfl | habove⟩
        · exact .inr rfl
        · exact .inl ⟨habove, _, hp, rfl⟩
  · -- no directory is there, so nothing is below
    have hbelow : ∀ {p}, Above s p → manifestView old (segments p) = none := by
      intro p habove
      by_contra hp
      exact hview (hold.view_above habove hp)
    refine ⟨{ files := files }, ?_, { files := hmem', createDirs := by simp, deleteFiles := ?_, deleteDirs := ?_, order := horder }⟩
    · rw [hcompare, if_neg fun hany => hview (hdir.mp hany)]
    · rintro p
      refine ⟨(by rintro ⟨⟩), ?_⟩
      rintro ⟨⟨facts', hp⟩, ⟨-, hne⟩ | ⟨habove, -⟩⟩
      · cases hne
      · rw [hbelow habove] at hp
        cases hp
    · rintro p
      refine ⟨(by rintro ⟨⟩), ?_⟩
      rintro ⟨hp, -, rfl | habove⟩
      · exact absurd hp hview
      · rw [hbelow habove] at hp
        cases hp

theorem compareEntry_adds (hold : Whole old) (node : Node FileFacts) :
    ∃ d, compareEntry old (entryOf s node) = .ok d ∧ Adds old s node d := by
  cases node with
  | dir => exact compareEntry_dir hold
  | file facts => exact compareEntry_file hold

/-- What the entries so far added. -/
structure Compared (old past : List ManifestEntry) (d : Difference) : Prop where
  files : ∀ {u}, u ∈ d.files ↔ ∃ s facts, fileEntry s facts ∈ past ∧ u = uploadOf s facts ∧
    manifestView old (segments s) ≠ some (.file facts)
  createDirs : ∀ {p}, p ∈ d.createDirs ↔
    dirEntry p ∈ past ∧ manifestView old (segments p) ≠ some .dir
  deleteFiles : ∀ {p}, p ∈ d.deleteFiles ↔
    (∃ facts, manifestView old (segments p) = some (.file facts)) ∧
      (dirEntry p ∈ past ∨ ∃ s facts, fileEntry s facts ∈ past ∧ Above s p)
  deleteDirs : ∀ {p}, p ∈ d.deleteDirs ↔ manifestView old (segments p) = some .dir ∧
    ∃ s facts, fileEntry s facts ∈ past ∧ (p = s ∨ Above s p)
  order : (d.files.map (·.entry.path)).Sublist (past.map (·.path))

theorem dirEntry_mem_append {past : List ManifestEntry} {node : Node FileFacts} {p : String} :
    dirEntry p ∈ past ++ [entryOf s node] ↔ dirEntry p ∈ past ∨ p = s ∧ node = .dir := by
  rw [List.mem_append, List.mem_singleton]
  refine or_congr_right ⟨fun heq => ?_, ?_⟩
  · obtain ⟨hp, hnode⟩ := entryOf_inj (show entryOf p .dir = entryOf s node from heq)
    exact ⟨hp, hnode.symm⟩
  · rintro ⟨rfl, rfl⟩
    rfl

theorem fileEntry_mem_append {past : List ManifestEntry} {node : Node FileFacts} {p : String} :
    fileEntry p facts ∈ past ++ [entryOf s node] ↔
      fileEntry p facts ∈ past ∨ p = s ∧ node = .file facts := by
  rw [List.mem_append, List.mem_singleton]
  refine or_congr_right ⟨fun heq => ?_, ?_⟩
  · obtain ⟨hp, hnode⟩ := entryOf_inj (show entryOf p (.file facts) = entryOf s node from heq)
    exact ⟨hp, hnode.symm⟩
  · rintro ⟨rfl, rfl⟩
    rfl

/-- What one entry adds to what was compared. -/
theorem Compared.append {past : List ManifestEntry} {node : Node FileFacts} {added : Difference}
    (h : Compared old past d) (hadds : Adds old s node added) :
    Compared old (past ++ [entryOf s node]) (d.append added) where
  files {u} := by
    rw [show u ∈ (d.append added).files ↔ _ from List.mem_append, h.files, hadds.files]
    simp only [fileEntry_mem_append]
    constructor
    · rintro (⟨q, facts, hmem, hu⟩ | ⟨facts, rfl, hu⟩)
      · exact ⟨q, facts, .inl hmem, hu⟩
      · exact ⟨s, facts, .inr ⟨rfl, rfl⟩, hu⟩
    · rintro ⟨q, facts, hmem | ⟨rfl, rfl⟩, hu⟩
      · exact .inl ⟨q, facts, hmem, hu⟩
      · exact .inr ⟨facts, rfl, hu⟩
  createDirs {p} := by
    rw [show p ∈ (d.append added).createDirs ↔ _ from List.mem_append, h.createDirs,
      hadds.createDirs, dirEntry_mem_append]
    constructor
    · rintro (⟨hmem, hp⟩ | ⟨rfl, rfl, hp⟩)
      · exact ⟨.inl hmem, hp⟩
      · exact ⟨.inr ⟨rfl, rfl⟩, hp⟩
    · rintro ⟨hmem | ⟨rfl, rfl⟩, hp⟩
      · exact .inl ⟨hmem, hp⟩
      · exact .inr ⟨rfl, rfl, hp⟩
  deleteFiles {p} := by
    rw [show p ∈ (d.append added).deleteFiles ↔ _ from List.mem_append, h.deleteFiles,
      hadds.deleteFiles, dirEntry_mem_append]
    simp only [fileEntry_mem_append]
    constructor
    · rintro (⟨hp, hmem | ⟨q, facts, hmem, habove⟩⟩ | ⟨hp, ⟨rfl, rfl⟩ | ⟨habove, hne⟩⟩)
      · exact ⟨hp, .inl (.inl hmem)⟩
      · exact ⟨hp, .inr ⟨q, facts, .inl hmem, habove⟩⟩
      · exact ⟨hp, .inl (.inr ⟨rfl, rfl⟩)⟩
      · cases node with
        | dir => exact absurd rfl hne
        | file facts => exact ⟨hp, .inr ⟨s, facts, .inr ⟨rfl, rfl⟩, habove⟩⟩
    · rintro ⟨hp, (hmem | ⟨rfl, rfl⟩) | ⟨q, facts, hmem | ⟨rfl, rfl⟩, habove⟩⟩
      · exact .inl ⟨hp, .inl hmem⟩
      · exact .inr ⟨hp, .inl ⟨rfl, rfl⟩⟩
      · exact .inl ⟨hp, .inr ⟨q, facts, hmem, habove⟩⟩
      · exact .inr ⟨hp, .inr ⟨habove, (by rintro ⟨⟩)⟩⟩
  deleteDirs {p} := by
    rw [show p ∈ (d.append added).deleteDirs ↔ _ from List.mem_append, h.deleteDirs,
      hadds.deleteDirs]
    simp only [fileEntry_mem_append]
    constructor
    · rintro (⟨hp, q, facts, hmem, habove⟩ | ⟨hp, hne, habove⟩)
      · exact ⟨hp, q, facts, .inl hmem, habove⟩
      · cases node with
        | dir => exact absurd rfl hne
        | file facts => exact ⟨hp, s, facts, .inr ⟨rfl, rfl⟩, habove⟩
    · rintro ⟨hp, q, facts, hmem | ⟨rfl, rfl⟩, habove⟩
      · exact .inl ⟨hp, q, facts, hmem, habove⟩
      · exact .inr ⟨hp, (by rintro ⟨⟩), habove⟩
  order := by
    simp only [Difference.append, List.map_append, List.map_singleton, entryOf_path]
    exact h.order.append hadds.order

theorem compared_nil : Compared old [] {} where
  files := by simp
  createDirs := by simp
  deleteFiles := by simp
  deleteDirs := by simp
  order := .slnil

/-- The comparison of whole manifests goes through. -/
theorem compare_loop (hold : Whole old) (hnew : Whole new) :
    ∃ d, new.foldlM (addEntry old) {} = .ok d ∧ Compared old new d := by
  apply Fold.foldlM_total (P := fun past (d : Difference) => Compared old past d)
  · intro past e rest d hl hpast
    obtain ⟨node, hnode⟩ := hnew.nodes (hl ▸ List.mem_append_right _ (List.mem_cons_self ..))
    rw [hnode]
    obtain ⟨added, hadded, hadds⟩ := compareEntry_adds hold node (s := e.path)
    refine ⟨d.append added, ?_, hpast.append hadds⟩
    simp only [addEntry, hadded, bind, Except.bind, pure, Except.pure]
  · exact compared_nil

/-- What is not named and has to go: everything, or what is below a file. -/
def Gone (new : View String FileFacts) (deleteExtra : Bool) (p : List String) : Prop :=
  deleteExtra = true ∨ ∃ q r facts, r ≠ [] ∧ p = q ++ r ∧ new q = some (.file facts)

/-- What a plan lists, told by what stands at each path. -/
structure Planned (old new : List ManifestEntry) (deleteExtra : Bool) (d : Difference) : Prop where
  files : ∀ {u}, u ∈ d.files ↔ ∃ s facts, manifestView new (segments s) = some (.file facts) ∧
    u = uploadOf s facts ∧ manifestView old (segments s) ≠ some (.file facts)
  createDirs : ∀ {p}, p ∈ d.createDirs ↔
    manifestView new (segments p) = some .dir ∧ manifestView old (segments p) ≠ some .dir
  deleteFiles : ∀ {p}, p ∈ d.deleteFiles ↔
    (∃ facts, manifestView old (segments p) = some (.file facts)) ∧
      (manifestView new (segments p) = some .dir ∨ manifestView new (segments p) = none ∧
        Gone (manifestView new) deleteExtra (segments p))
  deleteDirs : ∀ {p}, p ∈ d.deleteDirs ↔ manifestView old (segments p) = some .dir ∧
    ((∃ facts, manifestView new (segments p) = some (.file facts)) ∨
      manifestView new (segments p) = none ∧ Gone (manifestView new) deleteExtra (segments p))
  fileOrder : (d.files.map (·.entry.path)).Pairwise (· < ·)
  createOrder : d.createDirs.Pairwise (· < ·)
  deleteOrder : d.deleteDirs.Pairwise fun a b => deeper a b = true ∧ a ≠ b
  deleteFilesOnce : d.deleteFiles.Nodup

/-- Below a file nothing is named. -/
theorem gone_iff (hnew : Whole new) : manifestView new (segments s) = none ∧
      Gone (manifestView new) deleteExtra (segments s) ↔
    (∃ q facts, fileEntry q facts ∈ new ∧ Above q s) ∨
      deleteExtra = true ∧ manifestView new (segments s) = none := by
  constructor
  · rintro ⟨hnone, hextra | ⟨q, r, facts, hr, hs, hfile⟩⟩
    · exact .inr ⟨hextra, hnone⟩
    · -- a path in front of segments is the segments of a path
      have hq : q ≠ [] := by
        rintro rfl
        rw [manifestView, if_pos rfl] at hfile
        cases hfile
      have hsegments := manifestView_ne_none hq (by rw [hfile]; rintro ⟨⟩)
      rw [← hsegments] at hfile hs
      exact .inl ⟨join q, facts, hnew.view_segments.mp hfile, above_iff.mpr ⟨r, hr, hs⟩⟩
  · rintro (⟨q, facts, hfile, habove⟩ | ⟨hextra, hnone⟩)
    · have hview : manifestView new (segments q) = some (.file facts) := hnew.view_segments.mpr hfile
      refine ⟨?_, .inr ?_⟩
      · by_contra hnamed
        rw [hnew.view_above habove hnamed] at hview
        cases hview
      · obtain ⟨r, hr, hs⟩ := above_iff.mp habove
        exact ⟨segments q, r, facts, hr, hs, hview⟩
    · exact ⟨hnone, .inl hextra⟩

/-- The entries of one map that the other does not have. -/
theorem mem_extra (hold : Whole old) {kind : ManifestEntryKind} {p : String} :
    p ∈ ofKind kind (old.filter fun entry => (lookup new entry.path).isNone) ↔
      manifestView new (segments p) = none ∧
        ∃ node, manifestView old (segments p) = some node ∧ (entryOf p node).kind = kind := by
  rw [mem_ofKind]
  constructor
  · rintro ⟨e, he, hkind, rfl⟩
    obtain ⟨he, hextra⟩ := List.mem_filter.mp he
    obtain ⟨node, hnode⟩ := hold.nodes he
    rw [hnode] at he hkind
    exact ⟨view_segments_eq_none.mpr (lookup_eq_none.mp (Option.isNone_iff_eq_none.mp hextra)),
      node, hold.view_segments.mpr he, hkind⟩
  · rintro ⟨hnone, node, hview, hkind⟩
    refine ⟨entryOf p node, List.mem_filter.mpr ⟨hold.view_segments.mp hview, ?_⟩, hkind, entryOf_path _ _⟩
    rw [entryOf_path, Option.isNone_iff_eq_none]
    exact lookup_eq_none.mpr (view_segments_eq_none.mp hnone)

theorem difference_planned (hold : Whole old) (hnew : Whole new) :
    ∃ d, difference old new deleteExtra = .ok d ∧ Planned old new deleteExtra d := by
  obtain ⟨d, hloop, hd⟩ := compare_loop hold hnew
  refine ⟨_, by simp only [difference, hloop, bind, Except.bind, pure, Except.pure]; rfl, ?_⟩
  have hextra : ∀ kind p, p ∈ ofKind kind (if deleteExtra then
        old.filter fun entry => (lookup new entry.path).isNone else []) ↔
      deleteExtra = true ∧ manifestView new (segments p) = none ∧
        ∃ node, manifestView old (segments p) = some node ∧ (entryOf p node).kind = kind := by
    intro kind p
    cases deleteExtra with
    | false => simp [ofKind]
    | true =>
        rw [if_pos rfl, mem_extra hold]
        simp
  refine { files := ?_, createDirs := ?_, deleteFiles := ?_, deleteDirs := ?_, fileOrder := ?_,
           createOrder := ?_, deleteOrder := ?_, deleteFilesOnce := nodup_sortPaths }
  · intro u
    simp only [Difference.append, List.append_nil, hd.files, hnew.view_file]
  · intro p
    simp only [Difference.append, List.append_nil, mem_sortPaths, hd.createDirs, hnew.view_dir]
  · intro p
    simp only [Difference.append, mem_sortPaths]
    rw [List.mem_append, hd.deleteFiles, hextra, gone_iff hnew, hnew.view_dir]
    simp only [entryOf_kind_file]
    constructor
    · rintro (⟨hp, hdir | hbelow⟩ | ⟨hextra, hnone, node, hp, facts, rfl⟩)
      · exact ⟨hp, .inl hdir⟩
      · exact ⟨hp, .inr (.inl hbelow)⟩
      · exact ⟨⟨facts, hp⟩, .inr (.inr ⟨hextra, hnone⟩)⟩
    · rintro ⟨hp, hdir | hbelow | ⟨hextra, hnone⟩⟩
      · exact .inl ⟨hp, .inl hdir⟩
      · exact .inl ⟨hp, .inr hbelow⟩
      · obtain ⟨facts, hp⟩ := hp
        exact .inr ⟨hextra, hnone, _, hp, facts, rfl⟩
  · intro p
    simp only [Difference.append, mem_sortPathsDeepestFirst]
    rw [List.mem_append, hd.deleteDirs, hextra, gone_iff hnew]
    simp only [entryOf_kind_dir, hnew.view_file]
    constructor
    · rintro (⟨hp, q, facts, hfile, rfl | habove⟩ | ⟨hextra, hnone, node, hp, rfl⟩)
      · exact ⟨hp, .inl ⟨facts, hfile⟩⟩
      · exact ⟨hp, .inr (.inl ⟨q, facts, hfile, habove⟩)⟩
      · exact ⟨hp, .inr (.inr ⟨hextra, hnone⟩)⟩
    · rintro ⟨hp, ⟨facts, hfile⟩ | ⟨q, facts, hfile, habove⟩ | ⟨hextra, hnone⟩⟩
      · exact .inl ⟨hp, p, facts, hfile, .inl rfl⟩
      · exact .inl ⟨hp, q, facts, hfile, .inr habove⟩
      · exact .inr ⟨hextra, hnone, .dir, hp, rfl⟩
  · simp only [Difference.append, List.append_nil]
    exact (List.pairwise_map.mpr hnew.sorted).sublist hd.order
  · exact pairwise_sortPaths.imp₂ (fun a b hle hne => lt_of_le_of_ne hle hne) nodup_sortPaths
  · exact pairwise_sortPathsDeepestFirst.imp₂ (fun a b hdeeper hne => ⟨hdeeper, hne⟩)
      nodup_sortPathsDeepestFirst

/-! ## A plan is a replacement -/

def factsOf (u : PlannedUpload) : FileFacts where
  sizeBytes := u.transfer.sizeBytes
  mtimeUnixMs := u.transfer.mtimeUnixMs
  sha256 := u.transfer.sha256
  executable := u.transfer.executable

/-- The path of a prefix of segments is in front of the other. -/
theorem segments_prefix {a b : String} (h : segments a <+: segments b) : a = b ∨ Above a b := by
  by_cases hab : a = b
  · exact .inl hab
  · exact .inr ⟨h, hab⟩

/-- A list of paths, as segments. -/
theorem mem_map_segments {l : List String} {Q : List String → Prop} {p : List String}
    (hl : ∀ s, s ∈ l ↔ Q (segments s)) (hQ : Q p → ∃ s, segments s = p) :
    p ∈ l.map segments ↔ Q p := by
  rw [List.mem_map]
  constructor
  · rintro ⟨s, hs, rfl⟩
    exact (hl s).mp hs
  · intro hp
    obtain ⟨s, rfl⟩ := hQ hp
    exact ⟨s, (hl s).mpr hp, rfl⟩

/-- What two manifests say differently is at the segments of a path. -/
theorem exists_segments (old new : List ManifestEntry) {p : List String}
    (hne : manifestView old p ≠ manifestView new p) :
    ∃ s, segments s = p := by
  by_cases hp : p = []
  · rw [hp, manifestView, manifestView, if_pos rfl, if_pos rfl] at hne
    exact absurd rfl hne
  · by_cases hold : manifestView old p = none
    · rw [hold] at hne
      exact ⟨_, manifestView_ne_none hp (Ne.symm hne)⟩
    · exact ⟨_, manifestView_ne_none hp hold⟩

def Planned.replacement (h : Planned old new deleteExtra d) :
    Replacement (manifestView old) (manifestView new) (Gone (manifestView new) deleteExtra) where
  deleteFiles := d.deleteFiles.map segments
  deleteDirs := d.deleteDirs.map segments
  createDirs := d.createDirs.map segments
  putFiles := d.files.map fun u => (segments u.transfer.path, factsOf u)
  mem_deleteFiles {p} := by
    refine mem_map_segments (Q := fun p => (∃ facts, manifestView old p = some (.file facts)) ∧
      (manifestView new p = some .dir ∨
        manifestView new p = none ∧ Gone (manifestView new) deleteExtra p)) (fun _ => h.deleteFiles) ?_
    rintro ⟨⟨facts, hold⟩, hnew⟩
    apply exists_segments old new
    obtain hnew | ⟨hnew, -⟩ := hnew <;> rw [hold, hnew] <;> rintro ⟨⟩
  mem_deleteDirs {p} := by
    refine mem_map_segments (Q := fun p => manifestView old p = some .dir ∧
      ((∃ facts, manifestView new p = some (.file facts)) ∨
        manifestView new p = none ∧ Gone (manifestView new) deleteExtra p)) (fun _ => h.deleteDirs) ?_
    rintro ⟨hold, hnew⟩
    apply exists_segments old new
    obtain ⟨facts, hnew⟩ | ⟨hnew, -⟩ := hnew <;> rw [hold, hnew] <;> rintro ⟨⟩
  mem_createDirs {p} := by
    refine mem_map_segments (Q := fun p => manifestView new p = some .dir ∧
      manifestView old p ≠ some .dir) (fun _ => h.createDirs) ?_
    rintro ⟨hnew, hold⟩
    apply exists_segments old new
    rw [hnew]
    exact hold
  mem_putFiles {p data} := by
    rw [List.mem_map]
    constructor
    · rintro ⟨u, hu, heq⟩
      obtain ⟨s, facts, hnew, rfl, hold⟩ := h.files.mp hu
      cases heq
      exact ⟨hnew, hold⟩
    · rintro ⟨hnew, hold⟩
      obtain ⟨s, rfl⟩ : ∃ s, segments s = p :=
        exists_segments old new (by rw [hnew]; exact hold)
      exact ⟨uploadOf s data, h.files.mpr ⟨s, data, hnew, rfl, hold⟩, rfl⟩
  nodup_deleteFiles := h.deleteFilesOnce.map fun _ _ => segments_inj
  nodup_deleteDirs := List.Nodup.map (fun _ _ => segments_inj) (h.deleteOrder.imp fun h => h.2)
  nodup_createDirs := List.Nodup.map (fun _ _ => segments_inj) (h.createOrder.imp fun h => ne_of_lt h)
  nodup_putFiles := by
    rw [List.map_map]
    have hpaths : d.files.map (fun u => segments u.transfer.path) =
        (d.files.map (·.entry.path)).map segments := by
      rw [List.map_map]
      refine List.map_congr_left fun u hu => ?_
      obtain ⟨s, facts, -, rfl, -⟩ := h.files.mp hu
      rfl
    rw [show ((fun put : List String × FileFacts => put.1) ∘
      fun u : PlannedUpload => (segments u.transfer.path, factsOf u)) =
      fun u => segments u.transfer.path from rfl, hpaths]
    exact List.Nodup.map (fun _ _ => segments_inj) (h.fileOrder.imp fun h => ne_of_lt h)
  deepestFirst := by
    refine List.pairwise_map.mpr (h.deleteOrder.imp fun {a b} hab hpre => ?_)
    obtain rfl | habove := segments_prefix hpre
    · exact hab.2 rfl
    · have := habove.depth_lt
      obtain hdeeper | ⟨hequal, -⟩ := deeper_iff.mp hab.1 <;> omega
  parentsFirst := by
    refine List.pairwise_map.mpr (h.createOrder.imp fun {a b} hab hpre => ?_)
    obtain rfl | habove := segments_prefix hpre
    · exact lt_irrefl _ hab
    · exact lt_irrefl _ (hab.trans habove.lt)

theorem gone_fits (hold : Whole old) (hnew : Whole new) :
    Replacement.Fits (manifestView old) (manifestView new) (Gone (manifestView new) deleteExtra) where
  oldClosed := hold.closed
  newClosed := hnew.closed
  below {p q facts} hfile hq := .inr ⟨p, q, facts, hq, rfl, hfile⟩
  closed {p q} hgone _ := by
    obtain hextra | ⟨r, r', facts, hr', rfl, hfile⟩ := hgone
    · exact .inl hextra
    · exact .inr ⟨r, r' ++ q, facts, by simp [hr'], by rw [List.append_assoc], hfile⟩

/-- The edits of a plan, in the order in which they are made. -/
def Difference.edits (d : Difference) : List (Edit String FileFacts) :=
  d.deleteFiles.map (fun path => .removeFile (segments path)) ++
    d.deleteDirs.map (fun path => .removeDir (segments path)) ++
    (d.createDirs.map (fun path => .makeDir (segments path)) ++
      d.files.map fun u => .putFile (segments u.transfer.path) (factsOf u))

/-- A plan goes through, and leaves what is named with what is not in the way. -/
theorem Planned.runs (h : Planned old new deleteExtra d) (hold : Whole old) (hnew : Whole new) :
    ∃ v, Edit.Runs (manifestView old) d.edits v ∧
      Replacement.Leaves (manifestView old) (manifestView new)
        (Gone (manifestView new) deleteExtra) v := by
  obtain ⟨hruns, hleaves⟩ := h.replacement.runs (gone_fits hold hnew)
  refine ⟨_, ?_, hleaves⟩
  have hedits : h.replacement.edits = d.edits := by
    simp [Replacement.edits, Planned.replacement, Difference.edits, Function.comp_def]
  rwa [← hedits]

/-- Where everything else goes, what is named is left. -/
theorem leaves_deleteExtra {old new v : View String FileFacts}
    (h : Replacement.Leaves old new (Gone new true) v) : v = new := by
  funext p
  by_cases hp : new p = none
  · rw [hp]
    exact h.removed hp (.inl rfl)
  · exact h.named hp

end Compare

end VivadoServer.Sync
