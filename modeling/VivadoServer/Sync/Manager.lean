/-
  VivadoServer.Sync.Manager

  `SyncManager` (`src/sync.rs`): its shared state, the places at which one of its
  calls can stand, and the step from each of them to the next lock section or
  await.  Every call runs in a task of its own; a caller that goes away leaves
  the task running.

  The filesystem answers as it likes: the plan that scanning and validation yield,
  the outcome of creating, replacing and removing files, and the outcome of
  `apply_commit` are part of the action.  `abort_session_inner`, `cleanup_session`
  and `prune_results` are shared by several calls, so their places carry what the
  caller does with their result.
-/

import VivadoServer.Sync.Model
import VivadoServer.Lib.Tasks
import Mathlib.Data.Prod.Lex

namespace VivadoServer.Sync

open VivadoServer.History (Uuid)
open VivadoServer.Sessions (Instant)

structure Config where
  syncSessionTtl : Nat
  syncResultRetention : Nat
deriving DecidableEq, Repr

/-- Where the one permit of `slot` is. -/
inductive Permit where
  | available
  | creating (task : Nat)
  | session (id : Uuid)
deriving DecidableEq, Repr

structure SyncManager where
  config : Config
  now : Instant := 0
  /-- Every session that was created; a call may still hold one that was pruned. -/
  store : Uuid → Option SyncSession := fun _ => none
  /-- The keys of `sessions`. -/
  sessions : List Uuid := []
  tracked : List Nat := []
  /-- The holder of the `creating` mutex. -/
  creating : Option Nat := none
  closed : Bool := false
  reaperDegraded : Bool := false
  cleanupDegraded : Nat := 0
  slot : Permit := .available
  /-- The directories below `.vivado-server/staging`. -/
  staging : Uuid → Option Staging := fun _ => none

namespace SyncManager

def put (m : SyncManager) (id : Uuid) (x : SyncSession) : SyncManager :=
  { m with store := Function.update m.store id (some x) }

def putStaging (m : SyncManager) (id : Uuid) (files : Option Staging) : SyncManager :=
  { m with staging := Function.update m.staging id files }

/-- `remove_staging_dir`: a directory that is already gone is removed. -/
def removeStaging (m : SyncManager) (id : Uuid) (result : Except AppError Unit)
    (left : Option Staging) : SyncManager :=
  m.putStaging id (if result.isOk then none else (m.staging id).bind fun _ => left)

def isDegraded (m : SyncManager) : Bool := m.reaperDegraded || 0 < m.cleanupDegraded

/-- `release_plan` gives the permit back with the plan. -/
def settle (m : SyncManager) (id : Uuid) (x : SyncSession) : SyncManager :=
  { m with slot := .available }.put id
    { x.releasePlan with finishedAt := some m.now, cleanupPending := true }

/-- The order in which finished sessions are pruned. -/
def finishedBefore (a b : Uuid × Instant) : Bool :=
  a.2 < b.2 || (a.2 == b.2 && a.1 ≤ b.1)

/-- The ids `prune_results` removes: the oldest beyond the limit, and the stale. -/
def pruned (m : SyncManager) (finished : List (Uuid × Instant)) : List Uuid :=
  let finished := finished.mergeSort finishedBefore
  let excess := finished.length - MAX_RETAINED_SYNC_RESULTS
  (finished.zipIdx.filter fun ((_, since), index) =>
    index < excess || m.config.syncResultRetention ≤ m.now - since).map (·.1.1)

/-- The record of one attempt to remove the staging directory. -/
def recordCleanup (m : SyncManager) (id : Uuid) (x : SyncSession) :
    Except AppError Unit → SyncManager
  | .ok () =>
    let y := { x with cleanupPending := false }
    if 0 < x.cleanupFailures then
      { m with cleanupDegraded := m.cleanupDegraded - 1 }.put id { y with cleanupFailures := 0 }
    else m.put id y
  | .error _ =>
    let y := { x with cleanupFailures := x.cleanupFailures + 1 }
    if x.cleanupFailures = 0 then
      { m with cleanupDegraded := m.cleanupDegraded + 1 }.put id y
    else m.put id y

/-- `cancel_uploads.cancel()` of every session that is registered. -/
def cancelAll (m : SyncManager) : SyncManager :=
  { m with
    store := fun id => (m.store id).map fun x =>
      if m.sessions.contains id then { x with cancelUploads := true } else x }

end SyncManager

/-! ## Places -/

inductive Answer where
  | plan (response : PushPlanResponse)
  | upload (response : UploadResponse)
  | commit (response : CommitSyncResponse)
  | abort (response : AbortSyncResponse)
  | status (response : SyncStatusResponse)
  | unit
deriving DecidableEq, Repr

abbrev Answered := Except AppError Answer

/-- What follows `session(sync_id, project)`. -/
inductive LookupThen where
  | upload (path : SyncPath) (contentLength : Option Nat)
  | commit
  | abort
  | status
deriving DecidableEq, Repr

/-- What follows `abort_session`. -/
inductive AbortThen where
  | expired
  | abort (id : Uuid)
  | abortOpen (project : String) (rest : List Uuid)
  | reap (rest : List Uuid) (firstError : Option AppError)
  | shutdown (rest : List Uuid)
deriving DecidableEq, Repr

/-- What follows `cleanup_session`. -/
inductive CleanupThen where
  | abort (after : AbortThen)
  | commit (outcome : Application)
  | reap (rest : List Uuid) (firstError : Option AppError)
deriving DecidableEq, Repr

/-- What follows `prune_results`. -/
inductive PruneThen where
  | plan (project : String) (reset : Bool)
  | cleanup (id : Uuid) (result : Except AppError Unit) (after : CleanupThen)
  | reap (firstError : Option AppError)
deriving DecidableEq, Repr

/-- Where a call stands, named by what it does next. -/
inductive Place where
  -- `create_plan`
  | plan (project : String) (reset : Bool)
  | planPermit (project : String) (reset : Bool)
  | planWork (project : String) (reset : Bool)
  | planStaging (project : String) (plan : CommitPlan)
  | planCheck (project : String) (id : Uuid) (plan : CommitPlan)
  | planReject (id : Uuid) (error : AppError)
  | planInsert (project : String) (id : Uuid) (plan : CommitPlan)
  | planRefused (error : AppError)
  -- `session`
  | lookup (project : String) (id : Uuid) (after : LookupThen)
  | lookupProject (project : String) (id : Uuid) (after : LookupThen)
  -- `receive_upload`
  | uploadLock (id : Uuid) (path : SyncPath) (contentLength : Option Nat)
  | uploadCheck (id : Uuid) (path : SyncPath) (contentLength : Option Nat)
  | uploadPrepare (id : Uuid) (path : SyncPath) (expected : FileTransfer)
  | uploadBody (id : Uuid) (path : SyncPath) (expected : FileTransfer)
  | uploadReplace (id : Uuid) (path : SyncPath) (expected : FileTransfer) (content : String)
  | uploadRecord (id : Uuid) (path : SyncPath) (expected : FileTransfer)
  | uploadFailed (id : Uuid) (error : AppError)
  -- `commit_session`
  | commitLock (id : Uuid)
  | commitDecide (id : Uuid)
  | commitStart (id : Uuid) (plan : CommitPlan)
  | commitApply (id : Uuid) (plan : CommitPlan)
  | commitSettle (id : Uuid) (outcome : Application)
  | commitNotify (id : Uuid) (outcome : Application)
  | commitWait (id : Uuid)
  | commitLook (id : Uuid) (seen : Nat)
  | commitNotified (id : Uuid) (seen : Nat)
  -- `abort` and `abort_open`
  | abortState (id : Uuid)
  | abortOpen (project : String)
  | abortOpenSnapshot (project : String)
  | abortOpenNext (project : String) (rest : List Uuid)
  | abortOpenDone (project : String) (result : Except AppError Unit)
  -- `abort_session_inner`
  | abortSession (id : Uuid) (terminal : SyncSessionStatus) (after : AbortThen)
  | abortWait (id : Uuid) (terminal : SyncSessionStatus) (after : AbortThen)
  | abortLock (id : Uuid) (terminal : SyncSessionStatus) (after : AbortThen) (seen : Nat)
  | abortDecide (id : Uuid) (terminal : SyncSessionStatus) (after : AbortThen) (seen : Nat)
  | abortNotified (id : Uuid) (terminal : SyncSessionStatus) (after : AbortThen) (seen : Nat)
  | abortNotify (id : Uuid) (result : Except AppError Unit) (after : AbortThen)
  -- `cleanup_session`
  | cleanup (id : Uuid) (after : CleanupThen)
  | cleanupCheck (id : Uuid) (after : CleanupThen)
  | cleanupRemove (id : Uuid) (after : CleanupThen)
  | cleanupRecord (id : Uuid) (result : Except AppError Unit) (after : CleanupThen)
  | cleanupDone (id : Uuid) (result : Except AppError Unit) (after : CleanupThen)
  -- `prune_results`
  | prune (after : PruneThen)
  | pruneScan (rest : List Uuid) (finished : List (Uuid × Instant)) (after : PruneThen)
  | pruneRemove (finished : List (Uuid × Instant)) (after : PruneThen)
  -- `reap`
  | reap
  | reapNext (rest : List Uuid) (firstError : Option AppError)
  | reapReport (firstError : Option AppError)
  -- `status`
  | statusRead (id : Uuid)
  -- `cleanup_orphans`
  | orphans
  | orphansSlot
  | orphansRemove
  | orphansDone (result : Except AppError Unit)
  -- `shutdown`
  | shutdown
  | shutdownCancel
  | shutdownDrain
  | shutdownSnapshot
  | shutdownNext (rest : List Uuid)
  -- the end of a tracked call, and its result
  | leave (answer : Answered)
  | done (answer : Answered)
deriving DecidableEq, Repr

/-- What the world answers to a call. -/
inductive Choice where
  | go
  | planned (plan : Except AppError CommitPlan)
  /-- `create_staging_dir` for a new id; a failure may leave a partial directory. -/
  | staged (id : Uuid) (result : Except AppError Unit) (left : Bool)
  | io (result : Except AppError Unit)
  /-- Removing a directory; a failure may leave a part of it. -/
  | removed (result : Except AppError Unit) (left : Option Staging)
  /-- The next entry of the staging area, and its removal. -/
  | orphan (id : Uuid) (result : Except AppError Unit) (left : Option Staging)
  | body (content : Except AppError String)
  | cancelled
  | mutated (files : Staging)
  | applied (outcome : Application)
deriving Repr

/-- How often the clock moves. -/
inductive Event where
  | tick (elapsed : Nat)
deriving DecidableEq, Repr

/-- The first error wins. -/
def firstError (first : Option AppError) : Except AppError Unit → Option AppError
  | .ok () => first
  | .error error => some (first.getD error)

def AbortThen.next : AbortThen → Except AppError Unit → Place
  | .expired, .ok () => .leave (.error (.notFound "sync session expired"))
  | .expired, .error error => .leave (.error error)
  | .abort id, .ok () => .abortState id
  | .abort _, .error error => .leave (.error error)
  | .abortOpen project rest, .ok () => .abortOpenNext project rest
  | .abortOpen project _, .error error => .abortOpenDone project (.error error)
  | .reap rest first, result => .reapNext rest (firstError first result)
  | .shutdown rest, _ => .shutdownNext rest

def CleanupThen.next (id : Uuid) : CleanupThen → Except AppError Unit → Place
  | .abort after, result => .abortNotify id result after
  | .commit outcome, _ => .commitNotify id outcome
  | .reap rest first, result => .reapNext rest (firstError first result)

def PruneThen.next : PruneThen → Place
  | .plan project reset => .planPermit project reset
  | .cleanup id result after => .cleanupDone id result after
  | .reap first => .reapReport first

def LookupThen.next (id : Uuid) : LookupThen → Place
  | .upload path length => .uploadLock id path length
  | .commit => .commitLock id
  | .abort => .abortSession id .aborted (.abort id)
  | .status => .statusRead id

/-- Only `status` runs outside the tracker. -/
def LookupThen.fails : LookupThen → AppError → Place
  | .status, error => .done (.error error)
  | _, error => .leave (.error error)

/-! ## Steps -/

abbrev Step := Option (Tasks.Outcome SyncManager Place)

def goTo (m : SyncManager) (p : Place) : Step := some { shared := m, place := p }

/-- Run a lock section on a session the call holds. -/
def SyncManager.on (m : SyncManager) (id : Uuid) (f : SyncSession → Step) : Step :=
  (m.store id).bind f

namespace SyncManager

variable (m : SyncManager) (task : Nat)

/-- The checks of an upload under the data lock, and of its declared length. -/
def checkUpload (x : SyncSession) (path : SyncPath) (contentLength : Option Nat) :
    Except AppError FileTransfer := do
  x.ensureOpen
  if x.expiresDeadline ≤ m.now then throw (.notFound "sync session expired")
  match x.plan.upload? path with
  | none => throw (.badRequest "file was not requested by the push plan")
  | some expected =>
    match contentLength with
    | none => pure expected.transfer
    | some length =>
      if expected.transfer.sizeBytes < length then throw .payloadTooLarge
      else if length ≠ expected.transfer.sizeBytes then
        throw (.badRequest "Content-Length does not match plan")
      else pure expected.transfer

/-- The lock section in which a commit chooses what it is. -/
def decideCommit (id : Uuid) (x : SyncSession) : Step :=
  let x := { x with activity := x.activity.release task }
  match x.state with
  | .committing => goTo (m.put id x) (.commitWait id)
  | .open =>
    if x.expiresDeadline ≤ m.now then goTo (m.put id x) (.abortSession id .expired .expired)
    else if x.missingUploads then
      goTo (m.put id x) (.leave (.error (.conflict "planned uploads are missing")))
    else
      goTo (m.put id { x with state := .committing, committer := some task })
        (.commitStart id x.plan)
  | _ => goTo (m.put id x) (.leave (x.commitResult.map .commit))

/-- The lock section that publishes the outcome of the application. -/
def settleCommit (id : Uuid) (x : SyncSession) (outcome : Application) : SyncManager :=
  match outcome with
  | .ok response =>
    m.settle id { x with state := .committed, result := some response, outcome := some outcome }
  | .error error =>
    m.settle id { x with state := .failed, error := some error, outcome := some outcome }

/-- The lock section of `abort_session_inner`. -/
def decideAbort (id : Uuid) (terminal : SyncSessionStatus) (after : AbortThen) (seen : Nat)
    (x : SyncSession) : Step :=
  match x.state with
  | .committing =>
    goTo (m.put id { x with activity := x.activity.release task })
      (.abortNotified id terminal after seen)
  | .open => goTo (m.settle id { x with state := terminal }) (.cleanup id (.abort after))
  | _ => goTo m (.cleanup id (.abort after))

def planStep : Place → Choice → Step
  | .plan project reset, .go =>
    if m.creating.isNone then goTo { m with creating := some task } (.prune (.plan project reset))
    else none
  | .planPermit project reset, .go =>
    if m.slot = .available then
      goTo { m with slot := .creating task } (.planWork project reset)
    else goTo m (.planRefused (.conflict "an open sync plan already exists"))
  | .planWork project reset, .planned plan =>
    match plan with
    | .ok plan =>
      if plan.reset = reset then goTo m (.planStaging project plan) else none
    | .error error => goTo { m with slot := .available } (.planRefused error)
  | .planStaging project plan, .staged id result left =>
    if (m.store id).isNone && (m.staging id).isNone then
      match result with
      | .ok () => goTo (m.putStaging id (some [])) (.planCheck project id plan)
      | .error error =>
        goTo ({ m with slot := .available }.putStaging id (if left then some [] else none))
          (.planRefused error)
    else none
  | .planCheck project id plan, .io result =>
    match result with
    | .ok () => goTo m (.planInsert project id plan)
    | .error error => goTo m (.planReject id error)
  | .planReject id error, .removed result left =>
    goTo ({ m with slot := .available }.removeStaging id result left) (.planRefused error)
  | .planInsert project id plan, .go =>
    let x : SyncSession :=
      { project, plan, expiresDeadline := m.now + m.config.syncSessionTtl, creator := task }
    goTo ({ m with
        sessions := id :: m.sessions, slot := .session id, creating := none }.put id x)
      (.leave (.ok (.plan (plan.response id))))
  | .planRefused error, .go => goTo { m with creating := none } (.leave (.error error))
  | _, _ => none

def lookupStep : Place → Choice → Step
  | .lookup project id after, .go =>
    if m.sessions.contains id then goTo m (.lookupProject project id after)
    else goTo m (after.fails (.notFound "sync session not found"))
  | .lookupProject project id after, .go =>
    m.on id fun x =>
      if x.project = project then goTo m (after.next id)
      else goTo m (after.fails (.notFound "sync session not found"))
  | .statusRead id, .go =>
    m.on id fun x => goTo m (.done (.ok (.status (x.statusResponse id))))
  | _, _ => none

def uploadStep : Place → Choice → Step
  | .uploadLock id path length, .go =>
    m.on id fun x => (x.activity.read task).bind fun activity =>
      goTo (m.put id { x with activity }) (.uploadCheck id path length)
  | .uploadCheck id path length, .go =>
    m.on id fun x =>
      match m.checkUpload x path length with
      | .ok expected => goTo m (.uploadPrepare id path expected)
      | .error error => goTo m (.uploadFailed id error)
  | .uploadPrepare id path expected, .io result =>
    match result with
    | .ok () => goTo m (.uploadBody id path expected)
    | .error error => goTo m (.uploadFailed id error)
  | .uploadBody id path expected, .body content =>
    match content with
    | .ok content => goTo m (.uploadReplace id path expected content)
    | .error error => goTo m (.uploadFailed id error)
  | .uploadBody id _ _, .cancelled =>
    m.on id fun x =>
      if x.cancelUploads then goTo m (.uploadFailed id (.conflict "sync upload was cancelled"))
      else none
  | .uploadReplace id path expected content, .io result =>
    match result with
    | .ok () =>
      let files := (m.staging id).map fun files => (path, content) :: files.filter (·.1 != path)
      goTo (m.putStaging id files) (.uploadRecord id path expected)
    | .error error => goTo m (.uploadFailed id error)
  | .uploadRecord id path expected, .go =>
    m.on id fun x =>
      let y := { x with activity := x.activity.release task }
      match x.ensureOpen with
      | .ok () =>
        goTo (m.put id { y with uploadedFiles := path :: y.uploadedFiles.filter (· != path) })
          (.leave (.ok (.upload ⟨path, expected.sizeBytes, expected.sha256⟩)))
      | .error error => goTo (m.put id y) (.leave (.error error))
  | .uploadFailed id error, .go =>
    m.on id fun x =>
      goTo (m.put id { x with activity := x.activity.release task }) (.leave (.error error))
  | _, _ => none

def commitStep : Place → Choice → Step
  | .commitLock id, .go =>
    m.on id fun x => (x.activity.write task).bind fun activity =>
      goTo (m.put id { x with activity }) (.commitDecide id)
  | .commitDecide id, .go => m.on id (m.decideCommit task id)
  | .commitStart id plan, .go =>
    m.on id fun x =>
      goTo (m.put id { x with applications := x.applications + 1 }) (.commitApply id plan)
  | .commitApply id plan, .mutated files =>
    goTo (m.putStaging id ((m.staging id).map fun _ => files)) (.commitApply id plan)
  | .commitApply id _, .applied outcome => goTo m (.commitSettle id outcome)
  | .commitSettle id outcome, .go =>
    m.on id fun x => goTo (m.settleCommit id x outcome) (.cleanup id (.commit outcome))
  | .commitNotify id outcome, .go =>
    m.on id fun x =>
      goTo (m.put id { x with notified := x.notified + 1 }) (.leave (outcome.map .commit))
  | .commitWait id, .go => m.on id fun x => goTo m (.commitLook id x.notified)
  | .commitLook id seen, .go =>
    m.on id fun x =>
      if x.state = .committing then goTo m (.commitNotified id seen)
      else goTo m (.leave (x.commitResult.map .commit))
  | .commitNotified id seen, .go =>
    m.on id fun x => if seen < x.notified then goTo m (.commitWait id) else none
  | _, _ => none

def abortStep : Place → Choice → Step
  | .abortState id, .go =>
    m.on id fun x =>
      if x.state = .aborted then goTo m (.leave (.ok (.abort ⟨id, "aborted"⟩)))
      else goTo m (.leave (.error (.conflict "only an open sync plan can be aborted")))
  | .abortOpen project, .go =>
    if m.creating.isNone then goTo { m with creating := some task } (.abortOpenSnapshot project)
    else none
  | .abortOpenSnapshot project, .go => goTo m (.abortOpenNext project m.sessions)
  | .abortOpenNext project [], .go => goTo m (.abortOpenDone project (.ok ()))
  | .abortOpenNext project (id :: rest), .go =>
    m.on id fun x =>
      if x.project = project then goTo m (.abortSession id .aborted (.abortOpen project rest))
      else goTo m (.abortOpenNext project rest)
  | .abortOpenDone _ result, .go =>
    goTo { m with creating := none } (.leave (result.map fun _ => .unit))
  | .abortSession id terminal after, .go =>
    m.on id fun x => goTo (m.put id { x with cancelUploads := true }) (.abortWait id terminal after)
  | .abortWait id terminal after, .go =>
    m.on id fun x => goTo m (.abortLock id terminal after x.notified)
  | .abortLock id terminal after seen, .go =>
    m.on id fun x => (x.activity.write task).bind fun activity =>
      goTo (m.put id { x with activity }) (.abortDecide id terminal after seen)
  | .abortDecide id terminal after seen, .go =>
    m.on id (m.decideAbort task id terminal after seen)
  | .abortNotified id terminal after seen, .go =>
    m.on id fun x => if seen < x.notified then goTo m (.abortWait id terminal after) else none
  | .abortNotify id result after, .go =>
    m.on id fun x =>
      goTo (m.put id { x with
        notified := x.notified + 1, activity := x.activity.release task }) (after.next result)
  | _, _ => none

def cleanupStep : Place → Choice → Step
  | .cleanup id after, .go =>
    m.on id fun x =>
      if x.cleanup.isNone then
        goTo (m.put id { x with cleanup := some task }) (.cleanupCheck id after)
      else none
  | .cleanupCheck id after, .go =>
    m.on id fun x =>
      if x.cleanupPending then goTo m (.cleanupRemove id after)
      else goTo m (.cleanupDone id (.ok ()) after)
  | .cleanupRemove id after, .removed result left =>
    goTo (m.removeStaging id result left) (.cleanupRecord id result after)
  | .cleanupRecord id result after, .go =>
    m.on id fun x => goTo (m.recordCleanup id x result) (.prune (.cleanup id result after))
  | .cleanupDone id result after, .go =>
    m.on id fun x => goTo (m.put id { x with cleanup := none }) (after.next id result)
  | _, _ => none

def pruneStep : Place → Choice → Step
  | .prune after, .go => goTo m (.pruneScan m.sessions [] after)
  | .pruneScan [] finished after, .go => goTo m (.pruneRemove finished after)
  | .pruneScan (id :: rest) finished after, .go =>
    m.on id fun x =>
      match x.finishedAt with
      | some since =>
        if !x.cleanupPending && !x.state.live then
          goTo m (.pruneScan rest ((id, since) :: finished) after)
        else goTo m (.pruneScan rest finished after)
      | none => goTo m (.pruneScan rest finished after)
  | .pruneRemove finished after, .go =>
    goTo { m with sessions := m.sessions.filter fun id => !(m.pruned finished).contains id }
      after.next
  | _, _ => none

def reapStep : Place → Choice → Step
  | .reap, .go => goTo m (.reapNext m.sessions none)
  | .reapNext [] first, .go => goTo m (.prune (.reap first))
  | .reapNext (id :: rest) first, .go =>
    m.on id fun x =>
      if x.state = .open then
        if x.expiresDeadline ≤ m.now then goTo m (.abortSession id .expired (.reap rest first))
        else goTo m (.reapNext rest first)
      else if x.state = .committing then goTo m (.reapNext rest first)
      else goTo m (.cleanup id (.reap rest first))
  | .reapReport first, .go =>
    match first with
    | none => goTo { m with reaperDegraded := false } (.leave (.ok .unit))
    | some error =>
      goTo { m with reaperDegraded := m.reaperDegraded || !m.closed } (.leave (.error error))
  | _, _ => none

def orphansStep : Place → Choice → Step
  | .orphans, .go =>
    if m.creating.isNone then goTo { m with creating := some task } .orphansSlot else none
  | .orphansSlot, .go =>
    if m.slot = .available then goTo m .orphansRemove
    else goTo m (.orphansDone (.error (.conflict "an active plan owns staging")))
  | .orphansRemove, .orphan id result left =>
    goTo (m.removeStaging id result left)
      (if result.isOk then .orphansRemove else .orphansDone result)
  | .orphansRemove, .io result => goTo m (.orphansDone result)
  | .orphansDone result, .go =>
    goTo { m with creating := none } (.leave (result.map fun _ => .unit))
  | _, _ => none

def shutdownStep : Place → Choice → Step
  | .shutdown, .go => goTo { m with closed := true } .shutdownCancel
  | .shutdownCancel, .go => goTo m.cancelAll .shutdownDrain
  | .shutdownDrain, .go => if m.tracked.isEmpty then goTo m .shutdownSnapshot else none
  | .shutdownSnapshot, .go => goTo m (.shutdownNext m.sessions)
  | .shutdownNext [], .go => goTo m (.done (.ok .unit))
  | .shutdownNext (id :: rest), .go => goTo m (.abortSession id .aborted (.shutdown rest))
  | _, _ => none

def leaveStep : Place → Choice → Step
  | .leave answer, .go => goTo { m with tracked := m.tracked.erase task } (.done answer)
  | _, _ => none

/-- One step of a call. -/
def exec (task : Nat) (c : Choice) (m : SyncManager) (p : Place) :
    Option (Tasks.Outcome SyncManager Place) :=
  match p with
  | .plan .. | .planPermit .. | .planWork .. | .planStaging .. | .planCheck .. | .planReject ..
  | .planInsert .. | .planRefused .. => m.planStep task p c
  | .lookup .. | .lookupProject .. | .statusRead .. => m.lookupStep p c
  | .uploadLock .. | .uploadCheck .. | .uploadPrepare .. | .uploadBody .. | .uploadReplace ..
  | .uploadRecord .. | .uploadFailed .. => m.uploadStep task p c
  | .commitLock .. | .commitDecide .. | .commitStart .. | .commitApply .. | .commitSettle ..
  | .commitNotify .. | .commitWait .. | .commitLook .. | .commitNotified .. => m.commitStep task p c
  | .abortState .. | .abortOpen .. | .abortOpenSnapshot .. | .abortOpenNext .. | .abortOpenDone ..
  | .abortSession .. | .abortWait .. | .abortLock .. | .abortDecide .. | .abortNotified ..
  | .abortNotify .. => m.abortStep task p c
  | .cleanup .. | .cleanupCheck .. | .cleanupRemove .. | .cleanupRecord .. | .cleanupDone .. =>
    m.cleanupStep task p c
  | .prune .. | .pruneScan .. | .pruneRemove .. => m.pruneStep p c
  | .reap | .reapNext .. | .reapReport .. => m.reapStep p c
  | .orphans | .orphansSlot | .orphansRemove | .orphansDone .. => m.orphansStep task p c
  | .shutdown | .shutdownCancel | .shutdownDrain | .shutdownSnapshot | .shutdownNext .. =>
    m.shutdownStep p c
  | .leave .. => m.leaveStep task p c
  | .done .. => none

end SyncManager

/-- The places at which a call of the manager starts, and whether `tracked` admits it. -/
def Place.entry : Place → Option Bool
  | .plan .. | .abortOpen .. | .reap | .orphans => some true
  | .lookup _ _ .status => some false
  | .lookup .. => some true
  | .shutdown => some false
  | _ => none

/-- The admission gate of `tracked`. -/
def SyncManager.enter (task : Nat) (m : SyncManager) (p : Place) : Option SyncManager :=
  match p.entry with
  | some true => if m.closed then none else some { m with tracked := task :: m.tracked }
  | some false => some m
  | none => none

def SyncManager.env : Event → SyncManager → Option SyncManager
  | .tick elapsed, m => some { m with now := m.now + elapsed }

def program : Tasks.Program SyncManager Place Choice Event where
  enter := SyncManager.enter
  exec task _ := SyncManager.exec task
  env := SyncManager.env

abbrev Sys := Tasks.State SyncManager Place
abbrev Action := Tasks.Action Place Choice Event

/-- A service that has just started: no session, and whatever an earlier life left in
    the staging area. -/
def SyncManager.start (config : Config) (staging : Uuid → Option Staging) : SyncManager :=
  { config, staging }

def Sys.start (config : Config) (staging : Uuid → Option Staging) : Sys :=
  Tasks.State.start (.start config staging)

end VivadoServer.Sync
