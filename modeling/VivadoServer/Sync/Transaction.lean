/-
  VivadoServer.Sync.Transaction

  The commit transaction (`src/sync/transaction.rs`): every change of the project is
  logged, with the place of what it replaced, and undone in reverse order when the
  commit fails.

  What a rollback restores is read off the log and the disk alone.  Every step of
  the transaction, also one that fails halfway, leaves that as it was.
-/

import VivadoServer.Sync.Disk

namespace VivadoServer.Sync

open FileTree

/-! ## The operations -/

/-- `std::fs::create_dir_all`, from the top: what is a directory already is kept. -/
def createDirs : List FilePath → Commit (Except IoError Unit)
  | [] => return .ok ()
  | dir :: rest => do
    match ← call (Files.createDir dir) with
    | .ok () => createDirs rest
    | .error e =>
      match ← call (Files.symlinkMetadata dir) with
      | .ok .dir => createDirs rest
      | _ => return .error e

def createDirAll (path : FilePath) : Commit (Except IoError Unit) :=
  createDirs (path.inits.filter (· ≠ []))

namespace CommitTransaction

def new (backupRoot : FilePath) : Commit Unit := do
  orInternal "failed to create rollback dir: " (← createDirAll backupRoot)
  Prog.update fun d => { d with transaction := { backupRoot := backupRoot, changes := [] } }

def record (change : AppliedChange) : Commit Unit :=
  Prog.update fun d =>
    { d with transaction := { d.transaction with changes := change :: d.transaction.changes } }

def createDir (target : FilePath) (path : String) : Commit Unit := do
  match ← call (Files.symlinkMetadata target) with
  | .ok .dir => return ()
  | .ok (.file _) => throw (.conflict ("target is not a directory: " ++ path))
  | .error .notFound => do
    orInternal ("failed to create dir " ++ path ++ ": ") (← call (Files.createDir target))
    record (.created target)
  | .error e => throw (.internal ("failed to inspect directory target: " ++ e.text))

/-- The names of the backups there are. -/
def backupNames (d : Disk) : List String :=
  match d.files.get d.transaction.backupRoot with
  | some (.dir children) => children.names
  | _ => []

/-- A path for a backup, with a name that is not in use. -/
def backupPath : Commit FilePath := fun d =>
  (.ok (d.transaction.backupRoot ++ [d.uuids.name (backupNames d)]), d)

def backup (target : FilePath) : Commit FilePath := do
  let path ← backupPath
  orInternal "failed to stage rollback backup: " (← call (Files.rename target path))
  return path

/-- The original of a file that is to be replaced, moved into the backup. -/
def backupFile (target : FilePath) (path : String) : Commit (Option FilePath) := do
  match ← call (Files.symlinkMetadata target) with
  | .ok (.file (.regular _)) => return some (← backup target)
  | .ok _ => throw (.conflict ("target is not a regular file: " ++ path))
  | .error .notFound => return none
  | .error e => throw (.internal ("failed to inspect file target: " ++ e.text))

def backupProject (target : FilePath) : Commit (Option FilePath) := do
  match ← call (Files.symlinkMetadata target) with
  | .ok .dir => return some (← backup target)
  | .ok (.file _) => throw (.conflict "project target is not a directory")
  | .error .notFound => return none
  | .error e => throw (.internal ("failed to inspect project target: " ++ e.text))

/-- The log knows where the original is before the staged item takes its place. -/
def recordBackup (target : FilePath) : Option FilePath → Commit Unit
  | some backup => record (.replaced target backup)
  | none => pure ()

def install (what : String) (staged target : FilePath) (backup : Option FilePath) : Commit Unit := do
  recordBackup target backup
  orInternal what (← call (Files.rename staged target))
  Prog.update fun d => { d with transaction := { d.transaction with
    changes := .installed target staged backup ::
      (if backup.isSome then d.transaction.changes.tail else d.transaction.changes) } }

def installFile (staged target : FilePath) (path : String) : Commit Unit := do
  let backup ← backupFile target path
  install ("failed to commit staged file " ++ path ++ ": ") staged target backup

def replaceProject (staged target : FilePath) : Commit Unit := do
  let backup ← backupProject target
  install "failed to install rebuilt project: " staged target backup

def deleteFile (target : FilePath) (path : String) : Commit Bool := do
  match ← call (Files.symlinkMetadata target) with
  | .ok (.file (.regular _)) => do
    let backup ← backup target
    record (.replaced target backup)
    return true
  | .ok _ => throw (.conflict ("file target changed type during commit: " ++ path))
  | .error .notFound => return false
  | .error e => throw (.internal ("failed to inspect file for deletion: " ++ e.text))

def deleteEmptyDir (target : FilePath) (path : String) : Commit Bool := do
  match ← call (Files.symlinkMetadata target) with
  | .error .notFound => return false
  | .error e => throw (.internal ("failed to inspect directory for deletion: " ++ e.text))
  | .ok (.file _) => throw (.conflict ("directory target changed type during commit: " ++ path))
  | .ok .dir => do
    let entries ← orInternal ("failed to read dir " ++ path ++ ": ") (← call (Files.readDir target))
    if entries.isEmpty then do
      let backup ← backup target
      record (.replaced target backup)
      return true
    else throw (.conflict ("directory contains entries outside the sync plan: " ++ path))

/-! ### Rollback -/

def removeCreatedPath (path : FilePath) : Commit Unit := do
  match ← call (Files.removeDir path) with
  | .ok () => return ()
  | .error .notFound => return ()
  | .error e => throw (.internal ("failed to remove created path during rollback: " ++ e.text))

def removeReplacementTarget (path : FilePath) : Commit Unit := do
  match ← call (Files.symlinkMetadata path) with
  | .error .notFound => return ()
  | .error e => throw (.internal ("failed to inspect rollback target: " ++ e.text))
  | .ok .dir => orInternal "failed to clear rollback target: " (← call (Files.removeDir path))
  | .ok (.file _) => orInternal "failed to clear rollback target: " (← call (Files.removeFile path))

def undo : AppliedChange → Commit Unit
  | .created target => removeCreatedPath target
  | .replaced target backup => do
    removeReplacementTarget target
    orInternal "failed to restore rollback backup: " (← call (Files.rename backup target))
  | .installed target staged backup => do
    orInternal "failed to restore staged upload: " (← call (Files.rename target staged))
    match backup with
    | some backup =>
      orInternal "failed to restore replaced path: " (← call (Files.rename backup target))
    | none => return ()

/-- Undo the changes, the last one first, and collect the errors. -/
def undoAll : List AppliedChange → List String → Commit (List String)
  | [], errors => return errors
  | change :: changes, errors => do
    Prog.update fun d => { d with transaction := { d.transaction with changes := changes } }
    match ← (undo change).attempt with
    | .ok () => undoAll changes errors
    | .error error => undoAll changes (errors ++ [error.text])

def log : Commit (List AppliedChange) := fun d => (.ok d.transaction.changes, d)

def rollback : Commit Unit := do
  let errors ← undoAll (← log) []
  if errors.isEmpty then return ()
  else throw (.internal ("rollback encountered " ++ toString errors.length ++ " error(s): " ++
    "; ".intercalate errors))

end CommitTransaction

/-- `settle_transaction`: an error is answered after the rollback. -/
def settleTransaction {α : Type} (operations : Commit α) : Commit α := do
  match ← operations.attempt with
  | .ok value => return value
  | .error error =>
    match ← CommitTransaction.rollback.attempt with
    | .ok () => throw error
    | .error rollback =>
      throw (.projectReuploadRequired ("sync failed (" ++ error.text ++ "); rollback failed (" ++
        rollback.text ++ ")"))

end VivadoServer.Sync
