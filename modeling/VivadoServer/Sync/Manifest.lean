/-
  VivadoServer.Sync.Manifest

  Manifests (`src/sync/files.rs`): the entries of a project tree that the filters
  select, with every directory above them.  The walk over the tree and the check
  of what a client sends are two programs; both yield the manifest of the same
  entries.

  A glob set is a predicate on paths.  A tree is what one walk sees; that a file
  does not change while it is hashed is assumed.
-/

import VivadoServer.Sync.Model
import VivadoServer.Sync.Path
import VivadoServer.Lib.FileTree

namespace VivadoServer.Sync

open FileTree

def MAX_GLOBS : Nat := 256

def MAX_GLOB_BYTES : Nat := 4 * 1024

/-! ## Filters -/

structure SyncFilters where
  includes : String → Bool
  includeActive : Bool
  exclude : String → Bool

namespace SyncFilters

/-- `SyncFilters::new`; `glob` is what a pattern compiles to. -/
def new (glob : String → Except String (String → Bool)) (includeGlobs excludeGlobs : List String) :
    Except AppError SyncFilters := do
  if MAX_GLOBS < includeGlobs.length + excludeGlobs.length then
    throw (.badRequest ("at most " ++ toString MAX_GLOBS ++ " include/exclude globs are allowed"))
  if (includeGlobs ++ excludeGlobs).any fun pattern => MAX_GLOB_BYTES < pattern.utf8ByteSize then
    throw (.badRequest ("each glob must be at most " ++ toString MAX_GLOB_BYTES ++ " bytes"))
  let compile (kind : String) (pattern : String) : Except AppError (String → Bool) :=
    (glob pattern).mapError fun error =>
      .badRequest ("invalid " ++ kind ++ " glob " ++ pattern ++ ": " ++ error)
  let includes ← includeGlobs.mapM (compile "include")
  let excludes ← excludeGlobs.mapM (compile "exclude")
  return {
    includes := fun path => includes.any (· path)
    includeActive := !includeGlobs.isEmpty
    exclude := fun path => excludes.any (· path) }

def shouldDescend (filters : SyncFilters) (path : String) : Bool :=
  !isInternalPath path && !filters.exclude path && !(parentPaths path).any filters.exclude

def matchesEntry (filters : SyncFilters) (path : String) : Bool :=
  filters.shouldDescend path && (!filters.includeActive || filters.includes path)

/-- The filters of an empty list of patterns. -/
def none : SyncFilters where
  includes _ := false
  includeActive := false
  exclude _ := false

theorem new_nil (glob : String → Except String (String → Bool)) : new glob [] [] = .ok none := rfl

variable {filters : SyncFilters} {q p : String}

theorem shouldDescend_iff : filters.shouldDescend p = true ↔
    isInternalPath p = false ∧ filters.exclude p = false ∧ ∀ q, Above q p → filters.exclude q = false := by
  simp [shouldDescend, and_assoc]

theorem matchesEntry_iff : filters.matchesEntry p = true ↔
    filters.shouldDescend p = true ∧ (filters.includeActive = true → filters.includes p = true) := by
  rw [matchesEntry, Bool.and_eq_true]
  cases filters.includeActive <;> simp

theorem shouldDescend_of_matchesEntry (h : filters.matchesEntry p = true) :
    filters.shouldDescend p = true :=
  (matchesEntry_iff.mp h).1

theorem isInternalPath_above (habove : Above q p) (h : isInternalPath p = false) :
    isInternalPath q = false := by
  obtain ⟨rest, -, hp⟩ := above_iff.mp habove
  rw [isInternalPath, hp, List.any_append, Bool.or_eq_false_iff] at h
  exact h.1

/-- What is above a place the walk enters, the walk enters. -/
theorem shouldDescend_above (habove : Above q p) (h : filters.shouldDescend p = true) :
    filters.shouldDescend q = true := by
  rw [shouldDescend_iff] at h ⊢
  exact ⟨isInternalPath_above habove h.1, h.2.2 q habove, fun r hr => h.2.2 r (hr.trans habove)⟩

theorem none_matchesEntry : none.matchesEntry p = !isInternalPath p := by
  simp [matchesEntry, shouldDescend, none]

end SyncFilters

/-! ## Files -/

/-- A file's bytes, its modification time in nanoseconds and its mode. -/
structure FileData where
  content : List UInt8
  mtime : Int
  mode : Nat
deriving DecidableEq, Repr

/-- What is not a directory. -/
inductive Leaf where
  | regular (data : FileData)
  | link
  | special
deriving DecidableEq, Repr

abbrev Sha256 := List UInt8 → Vector UInt8 32

/-- What a manifest says of a file. -/
structure FileFacts where
  sizeBytes : Nat
  mtimeUnixMs : Int
  sha256 : String
  executable : Bool
deriving DecidableEq, Repr

def i64Max : Int := 2 ^ 63 - 1

def systemTimeToMs (time : Int) : Int :=
  if 0 ≤ time then min (time / 1000000) i64Max else -min (-time / 1000000) i64Max

def hexDigest (bytes : List UInt8) : String :=
  String.ofList (bytes.flatMap fun byte =>
    [Nat.digitChar (byte.toNat / 16), Nat.digitChar (byte.toNat % 16)])

def isAsciiHexdigit (ch : Char) : Bool :=
  ch.isDigit || (['a', 'b', 'c', 'd', 'e', 'f', 'A', 'B', 'C', 'D', 'E', 'F'].contains ch)

/-- A byte of a character beyond ASCII is no digit, so the characters are tested. -/
def isSha256Hex (value : String) : Bool :=
  value.utf8ByteSize == 64 && value.toList.all isAsciiHexdigit

namespace FileData

def executable (data : FileData) : Bool := data.mode &&& 0o111 != 0

def facts (digest : Sha256) (data : FileData) : FileFacts where
  sizeBytes := data.content.length
  mtimeUnixMs := systemTimeToMs data.mtime
  sha256 := hexDigest (digest data.content).toList
  executable := data.executable

/-- `open_file_for_transfer_blocking` on a regular file. -/
def transfer (digest : Sha256) (maxFileBytes : Nat) (path : String) (data : FileData) :
    Except AppError FileTransfer :=
  if maxFileBytes < data.content.length then .error .payloadTooLarge
  else .ok {
    path := path
    sizeBytes := data.content.length
    mtimeUnixMs := systemTimeToMs data.mtime
    sha256 := hexDigest (digest data.content).toList
    executable := data.executable }

end FileData

/-! ## Entries -/

def dirEntry (path : String) : ManifestEntry := { path := path, kind := .dir }

def fileEntry (path : String) (facts : FileFacts) : ManifestEntry where
  path := path
  kind := .file
  sizeBytes := some facts.sizeBytes
  mtimeUnixMs := some facts.mtimeUnixMs
  sha256 := some facts.sha256
  executable := facts.executable

/-- The entry of what stands at a path. -/
def entryOf (path : String) : Node FileFacts → ManifestEntry
  | .dir => dirEntry path
  | .file facts => fileEntry path facts

@[simp] theorem entryOf_path (path : String) (node : Node FileFacts) :
    (entryOf path node).path = path := by
  cases node <;> rfl

theorem entryOf_inj {q p : String} {a b : Node FileFacts} (h : entryOf q a = entryOf p b) :
    q = p ∧ a = b := by
  have hpath : q = p := by simpa using congrArg ManifestEntry.path h
  subst hpath
  refine ⟨rfl, ?_⟩
  cases a with
  | dir => cases b with
    | dir => rfl
    | file => cases h
  | file facts => cases b with
    | dir => cases h
    | file facts' =>
        obtain ⟨size, mtime, sha256, executable⟩ := facts
        obtain ⟨size', mtime', sha256', executable'⟩ := facts'
        cases h
        rfl

/-! ## Directories above the entries -/

/-- What `synthesize_parent_dirs` holds: `kinds` is the kind of each path. -/
structure Synthesis where
  entries : List ManifestEntry
  kinds : String → Option ManifestEntryKind

def collectKinds (entries : List ManifestEntry) : String → Option ManifestEntryKind := fun path =>
  (entries.reverse.find? (·.path == path)).map (·.kind)

def addParent (maxEntries : Nat) (s : Synthesis) (parent : String) : Except AppError Synthesis :=
  match s.kinds parent with
  | some .file =>
    .error (.badRequest ("file is an ancestor of another manifest entry: " ++ parent))
  | some .dir => .ok s
  | none =>
    if maxEntries ≤ s.entries.length then
      .error (.badRequest ("manifest exceeds sync_max_manifest_entries (" ++ toString maxEntries ++
        ") after adding parent directories"))
    else
      .ok {
        entries := s.entries ++ [dirEntry parent]
        kinds := fun path => if path = parent then some .dir else s.kinds path }

def synthesizeParentDirs (maxEntries : Nat) (entries : List ManifestEntry) :
    Except AppError (List ManifestEntry) := do
  let s ← (entries.flatMap fun entry => parentPaths entry.path).foldlM (addParent maxEntries)
    { entries := entries, kinds := collectKinds entries }
  return s.entries

def sortByPath (entries : List ManifestEntry) : List ManifestEntry :=
  entries.mergeSort fun left right => decide (left.path ≤ right.path)

/-! ## The walk over a tree -/

/-- One entry of the walk of `scan_manifest_blocking`. -/
def scanEntry (digest : Sha256) (filters : SyncFilters) (maxEntries maxFileBytes : Nat)
    (entries : List ManifestEntry) (entry : List String × Node Leaf) :
    Except AppError (List ManifestEntry) := do
  let raw := join entry.1
  if !filters.matchesEntry raw then return entries
  let path ← normalizeSyncPath raw
  if maxEntries ≤ entries.length then
    throw (.badRequest ("manifest exceeds sync_max_manifest_entries (" ++ toString maxEntries ++ ")"))
  match entry.2 with
  | .file .link => throw (.badRequest ("symlink is not supported: " ++ path))
  | .dir => return entries ++ [dirEntry path]
  | .file (.regular data) =>
    let transfer ← data.transfer digest maxFileBytes path
    return entries ++ [{
      path := path
      kind := .file
      sizeBytes := some transfer.sizeBytes
      mtimeUnixMs := some transfer.mtimeUnixMs
      sha256 := some transfer.sha256
      executable := transfer.executable }]
  | .file .special => throw (.badRequest ("unsupported filesystem entry: " ++ path))

/-- `scan_manifest_blocking`: the walk leaves out what `should_descend` refuses. -/
def scanManifest (digest : Sha256) (tree : Tree String Leaf) (filters : SyncFilters)
    (maxEntries maxFileBytes : Nat) : Except AppError (List ManifestEntry) := do
  let entries ← (tree.walk (fun parts => filters.shouldDescend (join parts)) []).foldlM
    (scanEntry digest filters maxEntries maxFileBytes) []
  let entries ← synthesizeParentDirs maxEntries entries
  return sortByPath entries

/-! ## The check of a client's manifest -/

/-- What the loop of `validate_client_manifest` holds. -/
structure Validation where
  seen : List String := []
  validated : List ManifestEntry := []

def checkEntry (maxFileBytes : Nat) (entry : ManifestEntry) : Except AppError ManifestEntry :=
  match entry.kind with
  | .file => do
    let some size := entry.sizeBytes
      | throw (.badRequest ("file entry missing size: " ++ entry.path))
    if maxFileBytes < size then
      throw (.badRequest ("file exceeds sync_max_file_bytes: " ++ entry.path))
    let some _ := entry.mtimeUnixMs
      | throw (.badRequest ("file entry missing mtime: " ++ entry.path))
    let some sha := entry.sha256
      | throw (.badRequest ("file entry missing sha256: " ++ entry.path))
    if !isSha256Hex sha then
      throw (.badRequest ("file entry has invalid sha256: " ++ entry.path))
    return { entry with sha256 := some sha.toLower }
  | .dir =>
    .ok { entry with sizeBytes := none, mtimeUnixMs := none, sha256 := none, executable := false }

def validateEntry (filters : SyncFilters) (maxFileBytes : Nat) (v : Validation)
    (raw : ManifestEntry) : Except AppError Validation := do
  let path ← normalizeSyncPath raw.path
  if v.seen.contains path then
    throw (.badRequest ("duplicate manifest path: " ++ path))
  let v := { v with seen := path :: v.seen }
  if !filters.matchesEntry path then return v
  let entry ← checkEntry maxFileBytes { raw with path := path }
  return { v with validated := v.validated ++ [entry] }

def validateClientManifest (entries : List ManifestEntry) (filters : SyncFilters)
    (maxEntries maxFileBytes : Nat) : Except AppError (List ManifestEntry) := do
  if maxEntries < entries.length then
    throw (.badRequest ("manifest exceeds sync_max_manifest_entries (" ++ toString maxEntries ++ ")"))
  let v ← entries.foldlM (validateEntry filters maxFileBytes) {}
  let validated ← synthesizeParentDirs maxEntries v.validated
  return sortByPath validated

end VivadoServer.Sync
