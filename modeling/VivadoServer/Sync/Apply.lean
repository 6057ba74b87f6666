/-
  VivadoServer.Sync.Apply

  A commit (`apply_commit` and `apply_reset` of `src/sync.rs`, the checks of
  `src/workspace.rs` and `src/sync/files.rs`): the staged uploads are checked again,
  then the project is changed in one transaction.
-/

import VivadoServer.Sync.Transaction

namespace VivadoServer.Sync

open FileTree History

/-! ## More calls -/

namespace Files

/-- `metadata`, which is not asked for a link. -/
def metadata (path : FilePath) (files : Files) : Except IoError (Node Leaf × Files) :=
  match files.view path with
  | some (.file .link) => .error .failed
  | some node => .ok (node, files)
  | none => .error (files.missing path)

def canonicalize (path : FilePath) (files : Files) : Except IoError (FilePath × Files) :=
  match files.metadata path with
  | .ok _ => .ok (path, files)
  | .error e => .error e

/-- Everything below a directory. -/
def readTree (path : FilePath) (files : Files) : Except IoError (Files × Files) :=
  match files.get path with
  | some (.dir children) => .ok (children, files)
  | some (.file _) => .ok (.nil, files)
  | none => .error (files.missing path)

end Files

/-- An answer as an outcome. -/
def orThrow {α : Type} : Except AppError α → Commit α
  | .ok a => pure a
  | .error e => throw e

/-! ## Paths of a commit -/

structure CommitSite where
  workspaceRoot : FilePath
  project : String
  /-- The name of the staging directory. -/
  staging : String
  /-- The device of what stands at a path. -/
  device : FilePath → Nat
  digest : Sha256
  limits : SyncLimits

namespace CommitSite

def projectDir (site : CommitSite) : FilePath := site.workspaceRoot ++ [site.project]

def stagingDir (site : CommitSite) : FilePath :=
  site.workspaceRoot ++ [INTERNAL_DIR, "staging", site.staging]

def stagedFiles (site : CommitSite) : FilePath := site.stagingDir ++ ["files"]

def rollbackDir (site : CommitSite) : FilePath := site.stagingDir ++ ["rollback"]

end CommitSite

def validateProjectName (project : String) : Except AppError Unit :=
  if project.isEmpty || project == "." || project == ".." || 64 < project.utf8ByteSize ||
      !validatePortableSegment project ||
      !project.toList.all fun ch => ch.isAlphanum || ['_', '-', '.'].contains ch then
    .error .invalidProject
  else .ok ()

def resolveRelativePath (root : FilePath) (path : String) : Except AppError FilePath := do
  let normalized ← normalizeSyncPath path
  return root ++ segments normalized

/-! ## Checks -/

def ensureRealDirectoryChain (path : FilePath) : Commit Unit :=
  path.inits.forM fun current => do
    match ← call (Files.symlinkMetadata current) with
    | .ok .dir => return ()
    | .ok (.file _) =>
      throw (.badRequest "directory paths must contain only real directories")
    | .error e => throw (.internal ("failed to inspect directory: " ++ e.text))

/-- The loop of `ensure_path_has_no_links`. -/
def checkLinks (path : String) : FilePath → List String → Commit Unit
  | _, [] => return ()
  | above, part :: rest => do
    match ← call (Files.symlinkMetadata (above ++ [part])) with
    | .ok (.file .link) => throw (.badRequest ("symbolic links are not supported: " ++ path))
    | .ok (.file _) => return ()
    | .ok .dir => checkLinks path (above ++ [part]) rest
    | .error .notFound => return ()
    | .error e => throw (.internal ("failed to inspect workspace path: " ++ e.text))

def ensurePathHasNoLinks (root : FilePath) (path : String) : Commit Unit := do
  if (segments path).any fun part => !validatePortableSegment part then
    throw (.badRequest "invalid workspace path")
  ensureRealDirectoryChain root
  checkLinks path root (segments path)

def ensureSafeProjectRoot (workspaceRoot projectDir : FilePath) : Commit Unit := do
  ensureRealDirectoryChain workspaceRoot
  let canonicalRoot ← orInternal "failed to canonicalize workspace root: "
    (← call (Files.canonicalize workspaceRoot))
  let metadata ← orInternal "failed to inspect project directory: "
    (← call (Files.symlinkMetadata projectDir))
  if metadata ≠ .dir then
    throw (.badRequest "project path must be a real directory, not a symbolic link")
  let canonicalProject ← orInternal "failed to canonicalize project directory: "
    (← call (Files.canonicalize projectDir))
  if canonicalProject.dropLast ≠ canonicalRoot then
    throw (.badRequest "project directory escapes workspace_root")

def checkProjectRoot (site : CommitSite) : Commit Unit := do
  match ← call (Files.symlinkMetadata site.projectDir) with
  | .ok _ => ensureSafeProjectRoot site.workspaceRoot site.projectDir
  | .error .notFound => return ()
  | .error e => internalIo (.error e)

/-- The device of the project, or that of the workspace when there is no project. -/
def projectDevice (site : CommitSite) : Commit Nat := do
  match ← call (Files.symlinkMetadata site.projectDir) with
  | .ok _ => return site.device site.projectDir
  | .error .notFound => return site.device site.workspaceRoot
  | .error e => internalIo (.error e)

def ensureSameFilesystem (site : CommitSite) : Commit Unit := do
  let _ ← internalIo (← call (Files.metadata site.workspaceRoot))
  let _ ← internalIo (← call (Files.metadata site.stagingDir))
  let device ← projectDevice site
  if site.device site.workspaceRoot ≠ site.device site.stagingDir ∨
      site.device site.workspaceRoot ≠ device then
    throw (.badRequest "project and staging must share the workspace filesystem")

/-- The data of what was opened as a regular file. -/
def regularData : Node Leaf → Commit FileData
  | .file (.regular data) => return data
  | _ => throw (.badRequest "path is not a regular file")

/-- The reading of an open file, which is read at its path. -/
def readForTransfer (digest : Sha256) (path : FilePath) (relPath : String) (maxFileBytes : Nat) :
    Commit FileTransfer := do
  let before ← regularData
    (← orInternal "failed to read file metadata: " (← call (Files.metadata path)))
  let _ ← regularData
    (← orInternal "failed to inspect transfer path: " (← call (Files.symlinkMetadata path)))
  let transfer ← orThrow (before.transfer digest maxFileBytes relPath)
  let _ ← orInternal "failed to hash file: " (← call (Files.read path))
  let after ← regularData
    (← orInternal "failed to re-read file metadata: " (← call (Files.metadata path)))
  if before.content.length ≠ after.content.length ∨ before.mtime ≠ after.mtime ∨
      before.executable ≠ after.executable then
    throw (.conflict ("file changed while it was being hashed: " ++ relPath))
  let _ ← orInternal "failed to rewind transfer file: " (← call (Files.metadata path))
  return transfer

def openFileForTransfer (digest : Sha256) (path : FilePath) (relPath : String) (maxFileBytes : Nat) :
    Commit FileTransfer := do
  match ← call (Files.symlinkMetadata path) with
  | .error .notFound => throw (.notFound ("file not found: " ++ relPath))
  | .error .permissionDenied =>
    throw (.badRequest ("permission denied reading file: " ++ relPath))
  | .error e => throw (.internal ("failed to open file for transfer: " ++ e.text))
  | .ok _ => readForTransfer digest path relPath maxFileBytes

/-- One upload is still staged as it was accepted. -/
def checkStaged (site : CommitSite) (upload : PlannedUpload) : Commit Unit := do
  ensurePathHasNoLinks site.stagingDir ("files/" ++ upload.entry.path)
  let staged ← orThrow (resolveRelativePath site.stagedFiles upload.entry.path)
  let transfer ← openFileForTransfer site.digest staged upload.entry.path site.limits.syncMaxFileBytes
  if transfer.sizeBytes ≠ upload.transfer.sizeBytes ∨ transfer.sha256 ≠ upload.transfer.sha256 then
    throw (.conflict ("staged file does not match plan: " ++ upload.entry.path))

/-- `Path::display` of an absolute path. -/
def display (path : FilePath) : String := "/" ++ join path

/-- What stands at a path for `exists`, `is_dir` and `is_file`: an error counts as nothing. -/
def standing (path : FilePath) : Commit (Option (Node Leaf)) := do
  match ← call (Files.metadata path) with
  | .ok node => return some node
  | .error _ => return none

def hashFile (digest : Sha256) (path : FilePath) : Commit String := do
  let _ ← orInternal "failed to open file for hashing: " (← call (Files.metadata path))
  match ← orInternal "failed to hash file: " (← call (Files.read path)) with
  | .regular data => return hexDigest (digest data.content).toList
  | _ => throw (.internal "failed to hash file: ")

def ensureFileMatches (digest : Sha256) (target : FilePath) (entry : ManifestEntry) : Commit Unit := do
  let some (.file (.regular _)) ← standing target
    | throw (.conflict ("target changed since plan: " ++ entry.path))
  let metadata ← regularData
    (← orInternal "failed to inspect baseline file: " (← call (Files.metadata target)))
  let currentSha ← hashFile digest target
  let after ← regularData (← internalIo (← call (Files.metadata target)))
  if metadata.content.length = after.content.length ∧ metadata.mtime = after.mtime ∧
      some metadata.content.length = entry.sizeBytes ∧
      some (systemTimeToMs metadata.mtime) = entry.mtimeUnixMs ∧
      some currentSha = entry.sha256 ∧ metadata.executable = entry.executable ∧
      after.executable = entry.executable then return ()
  else throw (.conflict ("target changed since plan: " ++ entry.path))

def ensureBaselineMatches (digest : Sha256) (target : FilePath) : Option ManifestEntry → Commit Unit
  | none => do
    if (← standing target).isSome then
      throw (.conflict ("target changed since plan: " ++ display target))
  | some entry =>
    match entry.kind with
    | .dir => do
      if (← standing target) ≠ some .dir then
        throw (.conflict ("target changed since plan: " ++ entry.path))
    | .file => ensureFileMatches digest target entry

/-- A target is as it was when the plan was made. -/
def checkTarget (site : CommitSite) (plan : CommitPlan) (path : SyncPath) : Commit Unit := do
  ensurePathHasNoLinks site.workspaceRoot (site.project ++ "/" ++ path)
  let target ← orThrow (resolveRelativePath site.projectDir path)
  ensureBaselineMatches site.digest target (lookup plan.baseline path)

/-! ## Attributes -/

def setFileMtime (path : FilePath) (mtimeUnixMs : Int) : Commit Unit := do
  orInternal "failed to set file mtime: "
    (← call (Files.setData path fun data => { data with mtime := mtimeUnixMs * 1000000 }))

/-- The mode with the executable bits set or cleared. -/
def executableMode (executable : Bool) (mode : Nat) : Nat :=
  let cleared := mode ^^^ (mode &&& 0o111)
  if executable then cleared ||| 0o111 else cleared

def setExecutable (path : FilePath) (executable : Bool) : Commit Unit := do
  let _ ← orInternal "failed to read file permissions: " (← call (Files.metadata path))
  orInternal "failed to set executable bits: "
    (← call (Files.setData path fun data => { data with mode := executableMode executable data.mode }))

def setFileAttributes (path : FilePath) (mtimeUnixMs : Option Int) (executable : Bool) : Commit Unit := do
  match mtimeUnixMs with
  | some mtime => setFileMtime path mtime
  | none => pure ()
  setExecutable path executable

/-! ## The commit -/

/-- The paths a round of the loop reports, in order. -/
def reported (round : SyncPath → Commit Bool) : List SyncPath → Commit (List SyncPath)
  | [] => return []
  | path :: rest => do
    let done ← round path
    let others ← reported round rest
    return if done then path :: others else others

def deletePlannedFile (site : CommitSite) (path : SyncPath) : Commit Bool := do
  CommitTransaction.deleteFile (← orThrow (resolveRelativePath site.projectDir path)) path

def deletePlannedDir (site : CommitSite) (path : SyncPath) : Commit Bool := do
  CommitTransaction.deleteEmptyDir (← orThrow (resolveRelativePath site.projectDir path)) path

def createPlannedDir (site : CommitSite) (path : SyncPath) : Commit Unit := do
  CommitTransaction.createDir (← orThrow (resolveRelativePath site.projectDir path)) path

def installUpload (site : CommitSite) (upload : PlannedUpload) : Commit Unit := do
  let target ← orThrow (resolveRelativePath site.projectDir upload.entry.path)
  let staged ← orThrow (resolveRelativePath site.stagedFiles upload.entry.path)
  CommitTransaction.installFile staged target upload.entry.path
  setFileAttributes target upload.entry.mtimeUnixMs upload.entry.executable

/-- The operations of the transaction, in their order. -/
def commitOperations (site : CommitSite) (syncId : Uuid) (plan : CommitPlan) :
    Commit CommitSyncResponse := do
  CommitTransaction.createDir site.projectDir "project root"
  let deletedFiles ← reported (deletePlannedFile site) plan.deleteFiles
  let deletedDirs ← reported (deletePlannedDir site) plan.deleteDirs
  plan.createDirs.forM (createPlannedDir site)
  plan.uploadFiles.forM (installUpload site)
  return {
    syncId := syncId
    status := "committed"
    uploadedFiles := plan.uploadPaths
    createdDirs := plan.createDirs
    deletedFiles := deletedFiles
    deletedDirs := deletedDirs }

/-- The directories of the manifest, made in the staged tree. -/
def createStagedDir (site : CommitSite) (path : SyncPath) : Commit Unit := do
  ensurePathHasNoLinks site.stagedFiles path
  internalIo (← createDirAll (← orThrow (resolveRelativePath site.stagedFiles path)))

def setStagedAttributes (site : CommitSite) (upload : PlannedUpload) : Commit Unit := do
  setFileAttributes (← orThrow (resolveRelativePath site.stagedFiles upload.entry.path))
    upload.entry.mtimeUnixMs upload.entry.executable

/-- The scan of the staged tree; the walk is read at once. -/
def scanStaged (site : CommitSite) : Commit (List ManifestEntry) := do
  let tree ← orInternal "failed to walk project: " (← call (Files.readTree site.stagedFiles))
  orThrow (scanManifest site.digest tree .none site.limits.syncMaxManifestEntries
    site.limits.syncMaxFileBytes)

/-- The test of the replacement tree: a count, and each entry is one of the plan. -/
def sameTree (plan : CommitPlan) (actual : List ManifestEntry) : Bool :=
  actual.length == plan.createDirs.dedup.length + plan.uploadFiles.length &&
    actual.all fun entry => match entry.kind with
      | .dir => plan.createDirs.contains entry.path
      | .file => match plan.upload? entry.path with
        | some upload => sameFile entry upload.entry
        | none => false

def replaceOperations (site : CommitSite) (syncId : Uuid) (plan : CommitPlan) :
    Commit CommitSyncResponse := do
  CommitTransaction.replaceProject site.stagedFiles site.projectDir
  return {
    syncId := syncId
    status := "committed"
    uploadedFiles := plan.uploadPaths
    createdDirs := plan.createDirs
    deletedFiles := []
    deletedDirs := [] }

def applyReset (site : CommitSite) (syncId : Uuid) (plan : CommitPlan) : Commit CommitSyncResponse := do
  plan.createDirs.forM (createStagedDir site)
  plan.uploadFiles.forM (setStagedAttributes site)
  let actual ← scanStaged site
  if !sameTree plan actual then
    throw (.conflict "replacement tree differs from the complete manifest")
  CommitTransaction.new site.rollbackDir
  settleTransaction (replaceOperations site syncId plan)

def applyCommit (site : CommitSite) (syncId : Uuid) (plan : CommitPlan) : Commit CommitSyncResponse := do
  checkProjectRoot site
  ensureSameFilesystem site
  plan.uploadFiles.forM (checkStaged site)
  if plan.reset then applyReset site syncId plan
  else do
    (plan.createDirs ++ plan.uploadPaths ++ plan.deleteFiles ++ plan.deleteDirs).forM
      (checkTarget site plan)
    CommitTransaction.new site.rollbackDir
    settleTransaction (commitOperations site syncId plan)

end VivadoServer.Sync
