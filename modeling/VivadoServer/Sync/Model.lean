/-
  VivadoServer.Sync.Model

  The data of a push plan (`src/sync/model.rs` and the records of `src/sync.rs`).
  Paths are the normalized strings of the protocol; instants are milliseconds of
  the monotonic clock.  The staging directory of a plan is named by its sync id.
-/

import VivadoServer.Error
import VivadoServer.Lib.RwLock
import VivadoServer.Sessions.Model

namespace VivadoServer.Sync

open VivadoServer.History (Uuid)
open VivadoServer.Sessions (Instant)

abbrev SyncPath := String

def MAX_RETAINED_SYNC_RESULTS : Nat := 128

inductive ManifestEntryKind where
  | file
  | dir
deriving DecidableEq, Repr

structure ManifestEntry where
  path : SyncPath
  kind : ManifestEntryKind
  sizeBytes : Option Nat := none
  mtimeUnixMs : Option Int := none
  sha256 : Option String := none
  executable : Bool := false
deriving DecidableEq, Repr

structure FileTransfer where
  path : SyncPath
  sizeBytes : Nat
  mtimeUnixMs : Int
  sha256 : String
  executable : Bool
deriving DecidableEq, Repr

structure PushPlanResponse where
  syncId : Uuid
  uploadFiles : List FileTransfer
  createDirs : List SyncPath
  deleteFiles : List SyncPath
  deleteDirs : List SyncPath
deriving DecidableEq, Repr

structure UploadResponse where
  path : SyncPath
  sizeBytes : Nat
  sha256 : String
deriving DecidableEq, Repr

structure CommitSyncResponse where
  syncId : Uuid
  status : String
  uploadedFiles : List SyncPath
  createdDirs : List SyncPath
  deletedFiles : List SyncPath
  deletedDirs : List SyncPath
deriving DecidableEq, Repr

structure AbortSyncResponse where
  syncId : Uuid
  status : String
deriving DecidableEq, Repr

inductive SyncSessionStatus where
  | open
  | committing
  | committed
  | aborted
  | expired
  | failed
deriving DecidableEq, Repr

namespace SyncSessionStatus

/-- The plan is not settled: it is `Open` or `Committing`. -/
def live : SyncSessionStatus → Bool
  | .open | .committing => true
  | _ => false

theorem live_eq_false {a : SyncSessionStatus} (hopen : a ≠ .open) (hcommitting : a ≠ .committing) :
    a.live = false := by
  cases a with
  | «open» => exact absurd rfl hopen
  | committing => exact absurd rfl hcommitting
  | _ => rfl

/-- `{:?}` of a status. -/
def debug : SyncSessionStatus → String
  | .open => "Open"
  | .committing => "Committing"
  | .committed => "Committed"
  | .aborted => "Aborted"
  | .expired => "Expired"
  | .failed => "Failed"

/-- The moves of a plan. -/
inductive Moves : SyncSessionStatus → SyncSessionStatus → Prop
  | commit : Moves .open .committing
  | committed : Moves .committing .committed
  | failed : Moves .committing .failed
  | abort : Moves .open .aborted
  | expire : Moves .open .expired

end SyncSessionStatus

structure SyncStatusResponse where
  syncId : Uuid
  project : String
  status : SyncSessionStatus
  cleanupPending : Bool
  result : Option CommitSyncResponse
  errorCode : Option String
  errorMessage : Option String
deriving DecidableEq, Repr

structure PlannedUpload where
  entry : ManifestEntry
  transfer : FileTransfer
deriving DecidableEq, Repr

structure CommitPlan where
  reset : Bool
  /-- Keyed by the path of the entry. -/
  uploadFiles : List PlannedUpload
  createDirs : List SyncPath
  deleteFiles : List SyncPath
  deleteDirs : List SyncPath
  baseline : List ManifestEntry
deriving DecidableEq, Repr

namespace CommitPlan

def uploadPaths (plan : CommitPlan) : List SyncPath := plan.uploadFiles.map (·.entry.path)

def upload? (plan : CommitPlan) (path : SyncPath) : Option PlannedUpload :=
  plan.uploadFiles.find? (·.entry.path == path)

def response (plan : CommitPlan) (id : Uuid) : PushPlanResponse where
  syncId := id
  uploadFiles := plan.uploadFiles.map (·.transfer)
  createDirs := plan.createDirs
  deleteFiles := plan.deleteFiles
  deleteDirs := plan.deleteDirs

end CommitPlan

/-- What `apply_commit` returns. -/
abbrev Application := Except AppError CommitSyncResponse

/-- `SyncSession` with the `PushSession` behind its data lock, which is never
    held across an await. -/
structure SyncSession where
  project : String
  state : SyncSessionStatus := .open
  plan : CommitPlan
  expiresDeadline : Instant
  finishedAt : Option Instant := none
  uploadedFiles : List SyncPath := []
  result : Option CommitSyncResponse := none
  error : Option AppError := none
  cleanupPending : Bool := false
  cleanupFailures : Nat := 0
  activePermit : Bool := true
  activity : RwLock := .free
  cancelUploads : Bool := false
  /-- How often `notify_waiters` was called. -/
  notified : Nat := 0
  /-- The holder of the `cleanup` mutex. -/
  cleanup : Option Nat := none
  -- what happened so far: the tasks that created the plan and moved it to Committing,
  -- how often it was applied, and with what outcome
  creator : Nat
  committer : Option Nat := none
  applications : Nat := 0
  outcome : Option Application := none
deriving DecidableEq, Repr

namespace SyncSession

def releasePlan (x : SyncSession) : SyncSession :=
  { x with
    plan := { x.plan with
      uploadFiles := [], baseline := [], createDirs := [], deleteFiles := [], deleteDirs := [] }
    uploadedFiles := []
    activePermit := false }

def ensureOpen (x : SyncSession) : Except AppError Unit :=
  if x.state = .open then .ok () else .error (.conflict ("sync session is " ++ x.state.debug))

def commitResult (x : SyncSession) : Application :=
  match x.result, x.error with
  | some result, _ => .ok result
  | none, some error => .error error
  | none, none => .error (.conflict ("sync session is " ++ x.state.debug))

def statusResponse (x : SyncSession) (id : Uuid) : SyncStatusResponse where
  syncId := id
  project := x.project
  status := x.state
  cleanupPending := x.cleanupPending
  result := x.result
  errorCode := x.error.map (·.code)
  errorMessage := x.error.map (·.clientMessage)

/-- Some planned upload has not been accepted. -/
def missingUploads (x : SyncSession) : Bool :=
  x.plan.uploadPaths.any fun path => !x.uploadedFiles.contains path

end SyncSession

/-- What a staging directory holds: the uploads installed under `files`. -/
abbrev Staging := List (SyncPath × String)

end VivadoServer.Sync
