/-
  VivadoServer.Workflows.Manager

  `WorkflowManager` (`src/workflow.rs`) over the sync engine and the sessions:
  the shared state, the places at which one of its tasks can stand, and the step
  from each of them to the next lock section or await.

  A call of the sync engine runs in a task of its own, started by the workflow
  operation that waits for it; its id is the handle by which the answer is read.
  Who holds the activity of a workflow is named by the task.  A lease is named by
  the task that holds it; while a response body holds it, by the task that sent
  the response.

  Tasks do not panic, and the tasks of managed operations, of observers and of
  cleanups outlive their callers.  A transfer may end at any of its awaits, with
  its caller.  What a project's marker reads is decided by the file system: a
  failed write may have replaced it, and a marker that cannot be read is not clean.
-/

import VivadoServer.Sync.Calls
import VivadoServer.Workflows.Model
import VivadoServer.Workflows.Sessions

namespace VivadoServer.Workflows

open VivadoServer.History (Uuid)
open VivadoServer.Sessions (Instant TerminationReason SessionInfo)
open VivadoServer.Sync (SyncPath PushPlanResponse UploadResponse CommitSyncResponse
  AbortSyncResponse SyncManager)

structure Config where
  heartbeatTimeout : Nat
  workflowRetention : Nat
  maxRetainedWorkflows : Nat
deriving DecidableEq, Repr

/-- A `push_plan` whose call of the sync engine has not been answered yet. -/
structure Planning where
  workflow : Nat
  owner : Nat
  call : Nat
deriving DecidableEq, Repr

structure WorkflowManager where
  config : Config
  /-- Every workflow, by the call that created it. -/
  workflows : Nat → Option Workflow := fun _ => none
  -- the registry
  active : Option Uuid := none
  entries : List (Uuid × Nat) := []
  stopping : Bool := false
  /-- `tasks`. -/
  tracked : List Nat := []
  /-- The project markers. -/
  projects : String → Marker
  /-- The workflow whose lease the body of a response holds. -/
  bodies : Nat → Option Nat := fun _ => none
  sessions : SessionManager
  sync : SyncManager
  -- what was asked of the sync engine, and what it answered
  calls : Nat → Option Sync.Place := fun _ => none
  answers : Nat → Option Sync.Answered := fun _ => none
  planning : Option Planning := none

/-! ## Places -/

inductive Answer where
  | workflow (info : WorkflowInfo)
  | plan (response : PushPlanResponse)
  | upload (response : UploadResponse)
  | commit (response : CommitSyncResponse)
  | abort (response : AbortSyncResponse)
  | session (id : Uuid) (info : SessionInfo)
  | unit
deriving DecidableEq, Repr

abbrev Answered := Except AppError Answer

/-- The operations that hold a lease. -/
inductive Transfer where
  | manifest
  | upload (syncId : Uuid) (path : SyncPath) (contentLength : Option Nat)
  | pullPlan
  | download
  | headDownload
deriving DecidableEq, Repr

def Transfer.allowed : Transfer → List WorkflowStatus
  | .manifest => [.preparing, .pulling]
  | .upload .. => [.preparing]
  | .pullPlan | .download | .headDownload => [.pulling]

/-- What follows `refresh_open_sync`. -/
inductive RefreshThen where
  | push
  | start
deriving DecidableEq, Repr

/-- Where a task stands, named by what it does next. -/
inductive Place where
  -- `create` and `wait_initialized`
  | create (id : Uuid) (request : CreateWorkflowRequest)
  | createPath (w : Nat)
  | createClean (w : Nat)
  | createPublish (w : Nat) (result : Except AppError Bool)
  | createFail (w : Nat) (error : AppError)
  | createNotify (w : Nat) (result : Except AppError Bool)
  | createInfo (w : Nat) (result : Except AppError Bool)
  | waitInitialized (w : Nat)
  | waitLook (w : Nat) (seen : Nat)
  | waitNotified (w : Nat) (seen : Nat)
  -- `heartbeat`
  | heartbeat (id : Uuid)
  -- `lease` and the transfers
  | lease (transfer : Transfer) (id : Uuid)
  | leaseLookup (transfer : Transfer) (id : Uuid)
  | leaseAcquire (transfer : Transfer) (w : Nat)
  | leaseCheck (transfer : Transfer) (w : Nat)
  | leaseRefused (w : Nat) (error : AppError)
  | leased (transfer : Transfer) (w : Nat)
  | uploadCall (w : Nat) (syncId : Uuid) (path : SyncPath) (contentLength : Option Nat)
  | uploadWait (w : Nat) (call : Nat)
  | leaseDrop (w : Nat) (answer : Answered)
  | leaseRelease (w : Nat) (answer : Answered)
  -- a response body that holds a lease, and the task that waits for its cancellation
  | body (w : Nat)
  | bodyCancel (w : Nat) (sender : Nat)
  -- `push_plan`
  | pushPlan (id : Uuid)
  | pushLock (w : Nat)
  | pushPhase (w : Nat)
  | pushOpen (w : Nat)
  | pushCall (w : Nat)
  | pushWait (w : Nat) (call : Nat)
  | pushRecord (w : Nat) (response : PushPlanResponse)
  -- `refresh_open_sync`
  | refresh (w : Nat) (next : RefreshThen)
  | refreshLookup (w : Nat) (id : Uuid) (expired : Bool) (next : RefreshThen)
  | refreshRead (w : Nat) (id : Uuid) (expired : Bool) (next : RefreshThen)
  | refreshAbort (w : Nat) (id : Uuid) (next : RefreshThen)
  | refreshWait (w : Nat) (id : Uuid) (next : RefreshThen) (call : Nat)
  | refreshClear (w : Nat) (id : Uuid) (next : RefreshThen)
  -- `commit`
  | commit (id : Uuid) (syncId : Uuid)
  | commitLock (w : Nat) (syncId : Uuid)
  | commitPhase (w : Nat) (syncId : Uuid)
  | commitCheck (w : Nat) (syncId : Uuid)
  | commitOpen (w : Nat) (syncId : Uuid)
  | commitRepeat (w : Nat) (syncId : Uuid)
  | commitRepeated (w : Nat) (syncId : Uuid) (call : Nat)
  | commitClean (w : Nat) (syncId : Uuid)
  | commitDirty (w : Nat) (syncId : Uuid) (wasClean : Bool)
  | commitCall (w : Nat) (syncId : Uuid) (wasClean : Bool)
  | commitWait (w : Nat) (syncId : Uuid) (wasClean : Bool) (call : Nat)
  | commitRecord (w : Nat) (syncId : Uuid) (response : CommitSyncResponse)
  | commitBaseline (w : Nat) (syncId : Uuid) (wasClean : Bool) (error : AppError)
  | commitLookup (w : Nat) (syncId : Uuid) (wasClean baseline : Bool) (error : AppError)
  | commitRead (w : Nat) (syncId : Uuid) (wasClean baseline : Bool) (error : AppError)
  | commitMark (w : Nat) (stillOpen : Bool) (error : AppError)
  -- `abort_sync`
  | abortSync (id : Uuid) (syncId : Uuid)
  | abortLock (w : Nat) (syncId : Uuid)
  | abortPhase (w : Nat) (syncId : Uuid)
  | abortCheck (w : Nat) (syncId : Uuid)
  | abortCall (w : Nat) (syncId : Uuid)
  | abortWait (w : Nat) (syncId : Uuid) (call : Nat)
  | abortRecord (w : Nat) (syncId : Uuid) (response : AbortSyncResponse)
  -- `start_session`
  | startSession (id : Uuid)
  | startLock (w : Nat)
  | startPhase (w : Nat)
  | startInfo (w : Nat)
  | startOpen (w : Nat)
  | startDirty (w : Nat)
  | startAgain (w : Nat)
  | startCreate (w : Nat)
  | startRegister (w : Nat)
  | startWait (w : Nat) (sessionId : Uuid)
  | startRecord (w : Nat) (sessionId : Uuid) (info : SessionInfo)
  | startObserver (w : Nat) (sessionId : Uuid) (info : SessionInfo)
  -- `observe_session`
  | observe (w : Nat) (sessionId : Uuid)
  | observeGet (w : Nat) (sessionId : Uuid)
  | observeRead (w : Nat) (sessionId : Uuid)
  | observeLock (w : Nat) (sessionId : Uuid) (info : SessionInfo)
  | observeCheck (w : Nat) (sessionId : Uuid) (info : SessionInfo)
  | observeMark (w : Nat) (sessionId : Uuid)
  | observePublish (w : Nat) (sessionId : Uuid)
  -- `stop_session`
  | stopSession (id : Uuid)
  | stopInfo (w : Nat)
  | stopGet (w : Nat) (sessionId : Uuid)
  | stopRead (w : Nat) (sessionId : Uuid)
  | stopRequest (w : Nat) (sessionId : Uuid) (info : SessionInfo)
  -- `finish`
  | finish (id : Uuid)
  | finishInfo (w : Nat)
  | finishLock (w : Nat)
  | finishPhase (w : Nat)
  | finishCall (w : Nat)
  | finishWait (w : Nat) (call : Nat)
  | finishFailed (w : Nat) (error : AppError)
  | finishTerminal (w : Nat)
  | finishDone (w : Nat)
  -- `cancel`
  | cancel (id : Uuid)
  | cancelRequest (w : Nat)
  | cancelInfo (w : Nat)
  -- `fail`, and what follows it
  | fail (w : Nat) (error : AppError) (invalidate : Bool) (next : Place)
  -- `cleanup_workflow`
  | cleanup (w : Nat)
  | cleanupLoop (w : Nat)
  | cleanupRead (w : Nat) (session : Option Uuid)
  | cleanupStop (w : Nat) (session : Uuid) (reason : TerminationReason) (invalidate : Bool)
  | cleanupRequest (w : Nat) (session : Uuid) (reason : TerminationReason) (invalidate : Bool)
  | cleanupSession (w : Nat) (session : Uuid) (invalidate : Bool)
  | cleanupDegraded (w : Nat) (invalidate : Bool)
  | cleanupDirty (w : Nat)
  | cleanupCall (w : Nat) (invalidate : Bool)
  | cleanupWait (w : Nat) (invalidate : Bool) (call : Nat)
  | cleanupClean (w : Nat) (invalidate : Bool)
  | cleanupTarget (w : Nat) (invalidate clean : Bool)
  | cleanupTerminal (w : Nat) (invalidate clean : Bool) (target : WorkflowStatus)
    (error : Option AppError)
  | cleanupFailed (w : Nat) (error : AppError)
  -- `spawn_reaper`
  | expire
  | prune
  -- `shutdown`
  | shutdown
  | shutdownDrain
  | shutdownSessions
  | shutdownWait
  | shutdownSync
  | shutdownSynced (call : Nat)
  -- the reaper of the sync engine, and its recovery at the start of the service
  | background (asked : Sync.Place)
  | backgroundWait (call : Nat)
  -- a call of the sync engine
  | syncEnter (asked : Sync.Place)
  | sync (place : Sync.Place)
  -- the end of an operation on a workflow, of a tracked task, and of any task
  | unlock (w : Nat) (next : Place)
  | leave (answer : Answered)
  | done (answer : Answered)
deriving DecidableEq, Repr

/-- What the world answers to a task. -/
inductive Choice where
  | go
  /-- The caller of a transfer is gone, or its body is dropped. -/
  | gone
  | cancelled
  | busy
  | io (result : Except AppError Unit)
  /-- `is_clean`. -/
  | clean (result : Except AppError Bool)
  /-- A write of the marker; a failed one may have replaced it. -/
  | marked (result : Except AppError Unit) (replaced : Bool)
  /-- The id of a new session. -/
  | session (id : Uuid)
  | timeout
  | sync (choice : Sync.Choice)
deriving Repr

inductive Event where
  | tick (elapsed : Nat)
  /-- A move of the supervisor of a session, and the error it may start with. -/
  | session (id : Uuid) (action : Sessions.Action) (error : AppError)
deriving Repr

/-! ## Lock sections -/

namespace WorkflowManager

def now (m : WorkflowManager) : Instant := m.sync.now

def put (m : WorkflowManager) (w : Nat) (x : Workflow) : WorkflowManager :=
  { m with workflows := Function.update m.workflows w (some x) }

def lookup (m : WorkflowManager) (id : Uuid) : Option Nat := m.entries.lookup id

def mark (m : WorkflowManager) (project : String) (marker : Marker)
    (result : Except AppError Unit) (replaced : Bool) : WorkflowManager :=
  if result.isOk || replaced then
    { m with projects := Function.update m.projects project marker }
  else m

/-- What `is_clean` may answer. -/
def reads (m : WorkflowManager) (project : String) : Except AppError Bool → Bool
  | .ok true => m.projects project = .clean
  | _ => true

/-- `request_cleanup_locked`: the first request starts the cleanup. -/
def requestCleanup (m : WorkflowManager) (w : Nat) (reason : TerminationReason)
    (target : WorkflowStatus) (error : Option AppError) (invalidate : Bool) (child : Nat) :
    WorkflowManager × Option Place :=
  match m.workflows w with
  | none => (m, none)
  | some x =>
    if x.terminal || m.active ≠ some x.info.workflowId then (m, none)
    else
      let m := m.put w (x.stopped reason target error invalidate)
      if x.cleanupStarted then (m, none)
      else ({ m with tracked := child :: m.tracked }, some (.cleanup w))

/-- `terminal`. -/
def terminal (m : WorkflowManager) (w : Nat) (x : Workflow) (status : WorkflowStatus)
    (error : Option AppError) (requiresFullUpload : Bool) : WorkflowManager × Bool :=
  if x.terminal then (m, x.info.status = status)
  else if status = .completed ∧ x.info.status ≠ .pulling then (m, false)
  else if x.invalidateProject && !requiresFullUpload then (m, false)
  else
    ({ m with
        sessions := x.info.sessionId.elim m.sessions (m.sessions.release · m.now)
        active := if m.active = some x.info.workflowId then none else m.active }.put w
      (x.finished status error requiresFullUpload m.now), true)

/-- The workflow that `registry.active` names. -/
def owner (m : WorkflowManager) : Option Nat := m.active.bind m.lookup

/-- The heartbeat of the active workflow is overdue. -/
def overdue (m : WorkflowManager) (x : Workflow) : Bool :=
  !x.terminal && x.info.status ≠ .stopping && m.config.heartbeatTimeout ≤ m.now - x.heartbeat

def prune (m : WorkflowManager) : WorkflowManager :=
  { m with
    entries := retained m.config.workflowRetention m.config.maxRetainedWorkflows m.now
      (fun entry => (m.workflows entry.2).bind (·.ended)) m.entries }

def answer (m : WorkflowManager) (task : Nat) (answer : Sync.Answered) : WorkflowManager :=
  { m with answers := Function.update m.answers task (some answer) }

/-- A plan that was created belongs to the workflow that asked for it. -/
def noteCreated (m : WorkflowManager) (place : Sync.Place) : WorkflowManager :=
  match place, m.planning with
  | .planInsert _ id _, some planning =>
    match m.workflows planning.workflow with
    | some x => m.put planning.workflow { x with created := id :: x.created }
    | none => m
  | _, _ => m

end WorkflowManager

/-! ## Steps -/

abbrev Step := Option (Tasks.Outcome WorkflowManager Place)

def goTo (m : WorkflowManager) (p : Place) : Step := some { shared := m, place := p }

/-- Go on, and start a task. -/
def spawn (m : WorkflowManager) (p : Place) (child : Option Place) : Step :=
  some { shared := m, place := p, child := child }

/-- Ask the sync engine, and wait for the answer of the call. -/
def ask (m : WorkflowManager) (child : Nat) (asked : Sync.Place) (wait : Nat → Place) : Step :=
  if (m.calls child).isNone then
    spawn { m with calls := Function.update m.calls child (some asked) } (wait child)
      (some (.syncEnter asked))
  else none

/-- The places of the results of `phase` and the checks. -/
def orUnlock (w : Nat) (next : Place) : Except AppError Unit → Place
  | .ok () => next
  | .error error => .unlock w (.leave (.error error))

def RefreshThen.next (w : Nat) : RefreshThen → Place
  | .push => .pushOpen w
  | .start => .startInfo w

def Workflow.checkSync (x : Workflow) (syncId : Uuid) : Except AppError Unit :=
  if x.syncIds.contains syncId then .ok ()
  else .error (.notFound "sync plan does not belong to this workflow")

/-- The answer of a failed commit, behind the attempt to restore the marker. -/
def commitFailed (w : Nat) (stillOpen : Bool) (error : AppError) : Place :=
  let reupload := error matches .projectReuploadRequired _
  if stillOpen && !reupload then .unlock w (.leave (.error error))
  else .fail w error reupload (.unlock w (.leave (.error error)))

/-- What a failed commit does with the marker. -/
def commitRestore (w : Nat) (wasClean baseline stillOpen : Bool) (error : AppError) : Place :=
  let reupload := error matches .projectReuploadRequired _
  if !reupload && ((stillOpen && wasClean) || (!stillOpen && baseline)) then
    .commitMark w stillOpen error
  else commitFailed w stillOpen error

def cancelledError : AppError := .workflowPhase "workflow cancelled"

def workflowNotFound : AppError := .notFound "workflow not found"

namespace WorkflowManager

variable (m : WorkflowManager) (task child : Nat)

/-- Run a lock section on a workflow the task knows. -/
def on (w : Nat) (f : Workflow → Step) : Step := (m.workflows w).bind f

/-- `workflow`, at the start of a managed operation. -/
def find (id : Uuid) (next : Nat → Place) : Step :=
  match m.lookup id with
  | some w => goTo m (next w)
  | none => goTo m (.leave (.error workflowNotFound))

/-- Wait for the write side of the activity. -/
def lock (w : Nat) (next : Place) : Step :=
  m.on w fun x => (x.activity.write task).bind fun activity => goTo (m.put w { x with activity }) next

/-- `phase`, under the activity. -/
def checkPhase (w : Nat) (allowed : List WorkflowStatus) (next : Place) : Step :=
  m.on w fun x => goTo m (orUnlock w next (x.phase allowed))

/-- The registration of `create`. -/
def register (id : Uuid) (request : CreateWorkflowRequest) : Step :=
  if m.stopping then goTo m (.leave (.error .shuttingDown))
  else
    match m.lookup id with
    | some w =>
      m.on w fun x =>
        if x.request ≠ request then
          goTo m (.leave (.error
            (.conflict "workflow ID was already used with different parameters")))
        else goTo m (.waitInitialized w)
    | none =>
      if m.active.isSome then goTo m (.leave (.error .workflowBusy))
      else
        goTo ({ m with active := some id, entries := (id, task) :: m.entries }.put task
          (.new id request m.now task)) (.createPath task)

def createStep : Place → Choice → Step
  | .create id request, .go => m.register task id request
  | .createPath w, .io result =>
    match result with
    | .ok () => goTo m (.createClean w)
    | .error error => goTo m (.createPublish w (.error error))
  | .createClean w, .clean result =>
    m.on w fun x =>
      if m.reads x.info.project result then
        match result with
        | .ok clean =>
          if !clean && !x.request.resetProject then
            goTo m (.createPublish w (.error (.projectReuploadRequired x.info.project)))
          else goTo m (.createPublish w (.ok clean))
        | .error error => goTo m (.createPublish w (.error error))
      else none
  | .createPublish w result, .go =>
    m.on w fun x => goTo (m.put w (x.initialized result))
      (match result with
        | .ok clean => .createNotify w (.ok clean)
        | .error error => .createFail w error)
  | .createFail w error, .go =>
    m.on w fun x => goTo (m.terminal w x .failed (some error) true).1 (.createNotify w (.error error))
  | .createNotify w result, .go =>
    m.on w fun x => goTo (m.put w { x with notified := x.notified + 1 }) (.createInfo w result)
  | .createInfo w result, .go =>
    m.on w fun x => goTo m (.unlock w (.leave (result.map fun _ => .workflow x.info)))
  | .waitInitialized w, .go => m.on w fun x => goTo m (.waitLook w x.notified)
  | .waitLook w seen, .go =>
    m.on w fun x =>
      if x.initializing then goTo m (.waitNotified w seen)
      else
        match x.initializationError with
        | some error => goTo m (.leave (.error error))
        | none => goTo m (.leave (.ok (.workflow x.info)))
  | .waitNotified w seen, .go =>
    m.on w fun x => if seen < x.notified then goTo m (.waitInitialized w) else none
  | _, _ => none

def heartbeatStep : Place → Choice → Step
  | .heartbeat id, .go =>
    if m.stopping then goTo m (.done (.error .shuttingDown))
    else
      match m.lookup id with
      | none => goTo m (.done (.error workflowNotFound))
      | some w =>
        m.on w fun x =>
          if x.terminal || x.info.status = .stopping then
            goTo m (.done (.error (.workflowPhase "workflow no longer accepts heartbeats")))
          else goTo (m.put w (x.beat m.now)) (.done (.ok (.workflow (x.beat m.now).info)))
  | _, _ => none

/-- A transfer that ended with its lease. -/
def transferred (transfer : Transfer) (w : Nat) (result : Except AppError Unit) : Step :=
  match result with
  | .error error => goTo m (.leaseDrop w (.error error))
  | .ok () =>
    match transfer with
    | .download =>
      spawn { m with bodies := Function.update m.bodies task (some w) } (.body w)
        (some (.bodyCancel w task))
    | .upload syncId path contentLength => goTo m (.uploadCall w syncId path contentLength)
    | _ => goTo m (.leaseDrop w (.ok .unit))

def leaseStep : Place → Choice → Step
  | .lease transfer id, .go =>
    if m.stopping then goTo m (.done (.error .shuttingDown)) else goTo m (.leaseLookup transfer id)
  | .leaseLookup transfer id, .go =>
    match m.lookup id with
    | some w => goTo m (.leaseAcquire transfer w)
    | none => goTo m (.done (.error workflowNotFound))
  | .leaseAcquire transfer w, .go =>
    m.on w fun x => (x.activity.read task).bind fun activity =>
      goTo (m.put w { x with activity }) (.leaseCheck transfer w)
  | .leaseAcquire _ w, .cancelled =>
    m.on w fun x => if x.cancel then goTo m (.done (.error cancelledError)) else none
  | .leaseAcquire _ _, .gone => goTo m (.done (.ok .unit))
  | .leaseCheck transfer w, .go =>
    m.on w fun x =>
      if x.initializing || !transfer.allowed.contains x.info.status || x.cancel then
        goTo m (.leaseRefused w
          (.workflowPhase "operation is not allowed in the current phase"))
      else goTo (m.put w (x.lease task)) (.leased transfer w)
  | .leaseRefused w error, .go =>
    m.on w fun x =>
      goTo (m.put w { x with activity := x.activity.release task }) (.done (.error error))
  | .leased (.upload syncId path contentLength) w, .go =>
    m.on w fun x => m.transferred task (.upload syncId path contentLength) w (x.checkSync syncId)
  | .leased (.upload ..) _, _ => none
  | .leased transfer w, .io result => m.transferred task transfer w result
  | .leased _ w, .cancelled =>
    m.on w fun x => if x.cancel then goTo m (.leaseDrop w (.error cancelledError)) else none
  | .leased _ w, .gone => goTo m (.leaseDrop w (.ok .unit))
  | .uploadCall w syncId path contentLength, .go =>
    m.on w fun x => ask m child (.lookup x.info.project syncId (.upload path contentLength))
      (.uploadWait w ·)
  | .uploadWait w call, .go =>
    (m.answers call).bind fun
      | .ok (.upload response) => goTo m (.leaseDrop w (.ok (.upload response)))
      | .ok _ => none
      | .error error => goTo m (.leaseDrop w (.error error))
  | .uploadWait w _, .cancelled =>
    m.on w fun x => if x.cancel then goTo m (.leaseDrop w (.error cancelledError)) else none
  | .uploadWait w _, .gone => goTo m (.leaseDrop w (.ok .unit))
  | .leaseDrop w answer, .go =>
    m.on w fun x => goTo (m.put w (x.dropLease task)) (.leaseRelease w answer)
  | .leaseRelease w answer, .go =>
    m.on w fun x =>
      goTo (m.put w { x with activity := x.activity.release task }) (.done answer)
  | .body w, .gone =>
    if m.bodies task = some w then
      goTo { m with bodies := Function.update m.bodies task none } (.leaseDrop w (.ok .unit))
    else goTo m (.done (.ok .unit))
  | .bodyCancel w sender, .cancelled =>
    m.on w fun x =>
      if x.cancel then
        if m.bodies sender = some w then
          goTo ({ m with bodies := Function.update m.bodies sender none }.put w
            (x.handOver sender task)) (.leaseDrop w (.ok .unit))
        else goTo m (.done (.ok .unit))
      else none
  | .bodyCancel _ sender, .gone =>
    if m.bodies sender = none then goTo m (.done (.ok .unit)) else none
  | _, _ => none

def pushStep : Place → Choice → Step
  | .pushPlan id, .go => m.find id .pushLock
  | .pushLock w, .go => m.lock task w (.pushPhase w)
  | .pushPhase w, .go => m.checkPhase w [.preparing] (.refresh w .push)
  | .pushOpen w, .go =>
    m.on w fun x =>
      if x.openSync.isSome then
        goTo m (.unlock w (.leave (.error (.conflict "an upload plan is already open"))))
      else goTo m (.pushCall w)
  | .pushCall w, .go =>
    m.on w fun x => ask { m with planning := some ⟨w, task, child⟩ } child
      (.plan x.info.project x.info.requiresFullUpload) (.pushWait w ·)
  | .pushWait w call, .go =>
    (m.answers call).bind fun
      | .ok (.plan response) => goTo { m with planning := none } (.pushRecord w response)
      | .ok _ => none
      | .error error => goTo { m with planning := none } (.unlock w (.leave (.error error)))
  | .pushRecord w response, .go =>
    m.on w fun x => goTo
      (m.put w (x.recordPlan response.syncId (m.now + m.sync.config.syncSessionTtl)))
      (.unlock w (.leave (.ok (.plan response))))
  | _, _ => none

def refreshStep : Place → Choice → Step
  | .refresh w next, .go =>
    m.on w fun x =>
      match x.openSync with
      | none => goTo m (next.next w)
      | some id => goTo m (.refreshLookup w id (x.planExpired m.now) next)
  | .refreshLookup w id expired next, .go =>
    if m.sync.sessions.contains id then goTo m (.refreshRead w id expired next)
    else goTo m (.refreshClear w id next)
  | .refreshRead w id expired next, .go =>
    m.on w fun x => (m.sync.store id).bind fun y =>
      if y.project ≠ x.info.project then goTo m (.refreshClear w id next)
      else
        match y.state with
        | .open => if expired then goTo m (.refreshAbort w id next) else goTo m (next.next w)
        | .committing => goTo m (next.next w)
        | _ => goTo m (.refreshClear w id next)
  | .refreshAbort w id next, .go =>
    m.on w fun x => ask m child (.lookup x.info.project id .abort) (.refreshWait w id next ·)
  | .refreshWait w id next call, .go =>
    (m.answers call).bind fun
      | .ok _ => goTo m (.refreshClear w id next)
      | .error error => goTo m (.unlock w (.leave (.error error)))
  | .refreshClear w _ next, .go => m.on w fun x => goTo (m.put w x.clearOpenSync) (next.next w)
  | _, _ => none

def commitStep : Place → Choice → Step
  | .commit id syncId, .go => m.find id (.commitLock · syncId)
  | .commitLock w syncId, .go => m.lock task w (.commitPhase w syncId)
  | .commitPhase w syncId, .go => m.checkPhase w [.preparing] (.commitCheck w syncId)
  | .commitCheck w syncId, .go =>
    m.on w fun x => goTo m (orUnlock w (.commitOpen w syncId) (x.checkSync syncId))
  | .commitOpen w syncId, .go =>
    m.on w fun x =>
      if x.openSync = some syncId then goTo m (.commitClean w syncId)
      else goTo m (.commitRepeat w syncId)
  | .commitRepeat w syncId, .go =>
    m.on w fun x => ask m child (.lookup x.info.project syncId .commit) (.commitRepeated w syncId ·)
  | .commitRepeated w _ call, .go =>
    (m.answers call).bind fun
      | .ok (.commit response) => goTo m (.unlock w (.leave (.ok (.commit response))))
      | .ok _ => none
      | .error error => goTo m (.unlock w (.leave (.error error)))
  | .commitClean w syncId, .clean result =>
    m.on w fun x =>
      if m.reads x.info.project result then
        match result with
        | .ok wasClean => goTo m (.commitDirty w syncId wasClean)
        | .error error => goTo m (.unlock w (.leave (.error error)))
      else none
  | .commitDirty w syncId wasClean, .marked result replaced =>
    m.on w fun x =>
      goTo (m.mark x.info.project .dirty result replaced)
        (match result with
          | .ok () => .commitCall w syncId wasClean
          | .error error => .fail w error true (.unlock w (.leave (.error error))))
  | .commitCall w syncId wasClean, .go =>
    m.on w fun x => ask m child (.lookup x.info.project syncId .commit)
      (.commitWait w syncId wasClean ·)
  | .commitWait w syncId wasClean call, .go =>
    (m.answers call).bind fun
      | .ok (.commit response) => goTo m (.commitRecord w syncId response)
      | .ok _ => none
      | .error error => goTo m (.commitBaseline w syncId wasClean error)
  | .commitRecord w _ response, .go =>
    m.on w fun x => goTo (m.put w x.committed) (.unlock w (.leave (.ok (.commit response))))
  | .commitBaseline w syncId wasClean error, .go =>
    m.on w fun x => goTo m (.commitLookup w syncId wasClean x.baselineClean error)
  | .commitLookup w syncId wasClean baseline error, .go =>
    if m.sync.sessions.contains syncId then goTo m (.commitRead w syncId wasClean baseline error)
    else goTo m (commitRestore w wasClean baseline false error)
  | .commitRead w syncId wasClean baseline error, .go =>
    m.on w fun x => (m.sync.store syncId).bind fun y =>
      let stillOpen := y.project = x.info.project ∧ y.state = .open
      goTo m (commitRestore w wasClean baseline stillOpen error)
  | .commitMark w stillOpen error, .marked result replaced =>
    m.on w fun x =>
      goTo (m.mark x.info.project .clean result replaced)
        (match result with
          | .ok () => commitFailed w stillOpen error
          | .error markError => .fail w markError true (.unlock w (.leave (.error markError))))
  | _, _ => none

def abortStep : Place → Choice → Step
  | .abortSync id syncId, .go => m.find id (.abortLock · syncId)
  | .abortLock w syncId, .go => m.lock task w (.abortPhase w syncId)
  | .abortPhase w syncId, .go => m.checkPhase w [.preparing] (.abortCheck w syncId)
  | .abortCheck w syncId, .go =>
    m.on w fun x => goTo m (orUnlock w (.abortCall w syncId) (x.checkSync syncId))
  | .abortCall w syncId, .go =>
    m.on w fun x => ask m child (.lookup x.info.project syncId .abort) (.abortWait w syncId ·)
  | .abortWait w syncId call, .go =>
    (m.answers call).bind fun
      | .ok (.abort response) => goTo m (.abortRecord w syncId response)
      | .ok _ => none
      | .error error => goTo m (.unlock w (.leave (.error error)))
  | .abortRecord w syncId response, .go =>
    m.on w fun x =>
      goTo (if x.openSync = some syncId then m.put w x.clearOpenSync else m)
        (.unlock w (.leave (.ok (.abort response))))
  | _, _ => none

def startStep : Place → Choice → Step
  | .startSession id, .go => m.find id .startLock
  | .startLock w, .go => m.lock task w (.startPhase w)
  | .startPhase w, .go => m.checkPhase w [.preparing] (.refresh w .start)
  | .startInfo w, .go =>
    m.on w fun x =>
      if x.info.requiresFullUpload then
        goTo m (.unlock w (.leave (.error (.projectReuploadRequired x.info.project))))
      else goTo m (.startOpen w)
  | .startOpen w, .go =>
    m.on w fun x =>
      if x.openSync.isSome then
        goTo m (.unlock w (.leave (.error
          (.workflowPhase "commit or abort the open plan first"))))
      else goTo m (.startDirty w)
  | .startDirty w, .marked result replaced =>
    m.on w fun x =>
      goTo (m.mark x.info.project .dirty result replaced)
        (match result with
          | .ok () => .startAgain w
          | .error error => .fail w error true (.unlock w (.leave (.error error))))
  | .startAgain w, .go => m.checkPhase w [.preparing] (.startCreate w)
  | .startCreate w, .io result =>
    m.on w fun x =>
      goTo (m.put w { x with launches := x.launches + 1 })
        (match result with
          | .ok () => .startRegister w
          | .error error => .fail w error true (.unlock w (.leave (.error error))))
  | .startRegister w, .session id =>
    m.on w fun x =>
      if (m.sessions.store id).isNone then
        let sessions := m.sessions.prune m.now
        match sessions.register id with
        | .ok sessions =>
          goTo ({ m with sessions }.put w { x with launched := some id }) (.startWait w id)
        | .error error =>
          goTo { m with sessions } (.fail w error true (.unlock w (.leave (.error error))))
      else none
  | .startWait w sessionId, .go =>
    (m.sessions.store sessionId).bind fun e => e.started.bind fun
      | .ok info => goTo m (.startRecord w sessionId info)
      | .error error => goTo m (.fail w error true (.unlock w (.leave (.error error))))
  | .startRecord w sessionId info, .go =>
    m.on w fun x => goTo (m.put w (x.started sessionId)) (.startObserver w sessionId info)
  | .startObserver w sessionId info, .go =>
    spawn { m with tracked := child :: m.tracked } (.unlock w (.leave (.ok (.session sessionId info))))
      (some (.observe w sessionId))
  | _, _ => none

def observeStep : Place → Choice → Step
  | .observe w sessionId, .go =>
    m.on w fun x =>
      if x.info.status ≠ .running then goTo m (.leave (.ok .unit))
      else goTo m (.observeGet w sessionId)
  | .observeGet w sessionId, .go =>
    let sessions := m.sessions.prune m.now
    match sessions.session sessionId with
    | some _ => goTo { m with sessions } (.observeRead w sessionId)
    | none => goTo { m with sessions } (.fail w .sessionNotFound true (.leave (.ok .unit)))
  | .observeRead w sessionId, .go =>
    (m.sessions.store sessionId).bind fun e =>
      if e.terminal then goTo m (.observeLock w sessionId e.sys.session.info)
      else goTo m (.observe w sessionId)
  | .observeLock w sessionId info, .go => m.lock task w (.observeCheck w sessionId info)
  | .observeCheck w sessionId info, .go =>
    m.on w fun x =>
      if x.info.status ≠ .running then goTo m (.unlock w (.leave (.ok .unit)))
      else if info.terminationReason = some .processExited ∧ info.exitCode = some 0 then
        goTo m (.observeMark w sessionId)
      else
        goTo m (.fail w
          (.projectReuploadRequired "Vivado did not exit normally with status zero") true
          (.unlock w (.leave (.ok .unit))))
  | .observeMark w sessionId, .marked result replaced =>
    m.on w fun x =>
      goTo (m.mark x.info.project .clean result replaced)
        (match result with
          | .ok () => .observePublish w sessionId
          | .error error => .fail w error true (.unlock w (.leave (.ok .unit))))
  | .observePublish w _, .go =>
    m.on w fun x => goTo (m.put w x.published) (.unlock w (.leave (.ok .unit)))
  | _, _ => none

/-- The error of a workflow whose session a client stopped. -/
def stoppedByClient : AppError := .projectReuploadRequired "Vivado was stopped by the client"

def stopStep : Place → Choice → Step
  | .stopSession id, .go => m.find id .stopInfo
  | .stopInfo w, .go =>
    m.on w fun x =>
      match x.info.sessionId with
      | some sessionId => goTo m (.stopGet w sessionId)
      | none => goTo m (.leave (.error .sessionNotFound))
  | .stopGet w sessionId, .go =>
    let sessions := m.sessions.prune m.now
    match sessions.session sessionId with
    | some _ => goTo { m with sessions } (.stopRead w sessionId)
    | none => goTo { m with sessions } (.leave (.error .sessionNotFound))
  | .stopRead w sessionId, .go =>
    (m.sessions.store sessionId).bind fun e =>
      if e.terminal then goTo m (.leave (.ok (.session sessionId e.sys.session.info)))
      else goTo m (.stopRequest w sessionId e.sys.session.info)
  | .stopRequest w sessionId info, .go =>
    let (m, cleanup) := m.requestCleanup w .clientRequested .failed (some stoppedByClient) true child
    spawn m (.leave (.ok (.session sessionId { info with
      status := .stopping
      terminationReason := some (info.terminationReason.getD .clientRequested) }))) cleanup
  | _, _ => none

def finishStep : Place → Choice → Step
  | .finish id, .go => m.find id .finishInfo
  | .finishInfo w, .go =>
    m.on w fun x =>
      if x.info.status = .completed then goTo m (.leave (.ok (.workflow x.info)))
      else goTo m (.finishLock w)
  | .finishLock w, .go => m.lock task w (.finishPhase w)
  -- `try_write` also fails while the lock is being handed to somebody who waits for it
  | .finishLock _, .busy =>
    goTo m (.leave (.error (.workflowPhase "transfers are still active")))
  | .finishPhase w, .go => m.checkPhase w [.pulling] (.finishCall w)
  | .finishCall w, .go =>
    m.on w fun x => ask m child (.abortOpen x.info.project) (.finishWait w ·)
  | .finishWait w call, .go =>
    (m.answers call).bind fun
      | .ok _ => goTo m (.finishTerminal w)
      | .error error => goTo m (.finishFailed w error)
  | .finishFailed w error, .go =>
    m.on w fun x => goTo (m.put w (x.finishFailed error)) (.unlock w (.leave (.error error)))
  | .finishTerminal w, .go =>
    m.on w fun x =>
      match m.terminal w x .completed none false with
      | (m, true) => goTo m (.finishDone w)
      | (m, false) =>
        goTo m (.unlock w (.leave (.error (.workflowPhase "workflow is stopping"))))
  | .finishDone w, .go => m.on w fun x => goTo m (.unlock w (.leave (.ok (.workflow x.info))))
  | _, _ => none

def cancelStep : Place → Choice → Step
  | .cancel id, .go => m.find id .cancelRequest
  | .cancelRequest w, .go =>
    let (m, cleanup) := m.requestCleanup w .workflowClosed .cancelled none false child
    spawn m (.cancelInfo w) cleanup
  | .cancelInfo w, .go => m.on w fun x => goTo m (.leave (.ok (.workflow x.info)))
  | .fail w error invalidate next, .go =>
    let (m, cleanup) := m.requestCleanup w .workflowClosed .failed (some error) invalidate child
    spawn m next cleanup
  | _, _ => none

def cleanupStep : Place → Choice → Step
  | .cleanup w, .go => m.lock task w (.cleanupLoop w)
  | .cleanupLoop w, .go =>
    m.on w fun x =>
      if x.terminal then goTo m (.unlock w (.leave (.ok .unit)))
      else goTo m (.cleanupRead w x.info.sessionId)
  | .cleanupRead w session, .go =>
    m.on w fun x =>
      match session with
      | some id => goTo m (.cleanupStop w id x.stopReason x.invalidateProject)
      | none => goTo m (.cleanupDegraded w x.invalidateProject)
  | .cleanupStop w id reason invalidate, .go =>
    let sessions := m.sessions.prune m.now
    match sessions.session id with
    | some _ => goTo { m with sessions } (.cleanupRequest w id reason invalidate)
    | none => goTo { m with sessions } (.cleanupFailed w .sessionNotFound)
  | .cleanupRequest w id reason invalidate, .go =>
    goTo { m with sessions := m.sessions.requestStop id reason } (.cleanupSession w id invalidate)
  -- the session is terminal, or the wait for it timed out
  | .cleanupSession w id invalidate, .go =>
    (m.sessions.store id).bind fun e =>
      if !e.terminal then
        goTo m (.cleanupFailed w (.internal "waiting for confirmed Vivado process cleanup"))
      else if invalidate then goTo m (.cleanupDirty w)
      else goTo m (.cleanupCall w false)
  | .cleanupDegraded w invalidate, .go =>
    if m.sessions.manager.degraded then
      goTo m (.cleanupFailed w (.internal "Vivado startup cleanup is not confirmed"))
    else if invalidate then goTo m (.cleanupDirty w)
    else goTo m (.cleanupCall w false)
  | .cleanupDirty w, .marked result replaced =>
    m.on w fun x =>
      goTo (m.mark x.info.project .dirty result replaced)
        (match result with
          | .ok () => .cleanupCall w true
          | .error error => .cleanupFailed w error)
  | .cleanupCall w invalidate, .go =>
    m.on w fun x => ask m child (.abortOpen x.info.project) (.cleanupWait w invalidate ·)
  | .cleanupWait w invalidate call, .go =>
    (m.answers call).bind fun
      | .ok _ => goTo m (.cleanupClean w invalidate)
      | .error error => goTo m (.cleanupFailed w error)
  | .cleanupClean w invalidate, .clean result =>
    m.on w fun x =>
      if m.reads x.info.project result then
        match result with
        | .ok clean => goTo m (.cleanupTarget w invalidate clean)
        | .error error => goTo m (.cleanupFailed w error)
      else none
  | .cleanupTarget w invalidate clean, .go =>
    m.on w fun x =>
      if x.invalidateProject && !invalidate then goTo m (.cleanupLoop w)
      else goTo m (.cleanupTerminal w invalidate clean x.cleanupTarget x.terminalError)
  | .cleanupTerminal w _ clean target error, .go =>
    m.on w fun x =>
      match m.terminal w x target error !clean with
      | (m, true) => goTo m (.unlock w (.leave (.ok .unit)))
      | (m, false) => goTo m (.cleanupLoop w)
  | .cleanupFailed w error, .go =>
    m.on w fun x => goTo (m.put w (x.reportError error)) (.cleanupLoop w)
  | _, _ => none

def reaperStep : Place → Choice → Step
  | .expire, .go =>
    if m.stopping then goTo m (.done (.ok .unit))
    else
      match m.owner with
      | none => goTo m (.done (.ok .unit))
      | some w =>
        m.on w fun x =>
          if m.overdue x then
            let (m, cleanup) := m.requestCleanup w .heartbeatTimeout .cancelled none false child
            spawn m (.done (.ok .unit)) cleanup
          else goTo m (.done (.ok .unit))
  | .prune, .go => goTo m.prune (.done (.ok .unit))
  | .background asked, .go => ask m child asked .backgroundWait
  | .backgroundWait call, .go => (m.answers call).bind fun _ => goTo m (.done (.ok .unit))
  | _, _ => none

def shutdownStep : Place → Choice → Step
  | .shutdown, .go =>
    let m := { m with stopping := true }
    match m.owner with
    | none => goTo m .shutdownDrain
    | some w =>
      let (m, cleanup) := m.requestCleanup w .serviceShutdown .cancelled none false child
      spawn m .shutdownDrain cleanup
  | .shutdownDrain, .go => if m.tracked.isEmpty then goTo m .shutdownSessions else none
  | .shutdownSessions, .go => goTo { m with sessions := m.sessions.shutdown } .shutdownWait
  -- the supervisors are done, or the grace period is over
  | .shutdownWait, .go => goTo m .shutdownSync
  | .shutdownWait, .timeout =>
    let manager := { m.sessions.manager with degraded := true }
    goTo { m with sessions := { m.sessions with manager := manager } } .shutdownSync
  | .shutdownSync, .go => ask m child .shutdown .shutdownSynced
  | .shutdownSynced call, .go => (m.answers call).bind fun _ => goTo m (.done (.ok .unit))
  | _, _ => none

def syncStep : Place → Choice → Step
  | .syncEnter asked, .go =>
    match SyncManager.enter task m.sync asked with
    | some sync => goTo { m with sync } (.sync asked)
    | none =>
      goTo (m.answer task (.error (.conflict "sync manager is shutting down"))) (.done (.ok .unit))
  | .sync place, .sync choice =>
    (m.sync.exec task choice place).bind fun o =>
      let m := { m with sync := o.shared }.noteCreated place
      match o.place with
      | .leave answer =>
        goTo ({ m with sync := { m.sync with tracked := m.sync.tracked.erase task } }.answer task
          answer) (.done (.ok .unit))
      | .done answer => goTo (m.answer task answer) (.done (.ok .unit))
      | next => goTo m (.sync next)
  | _, _ => none

def endStep : Place → Choice → Step
  | .unlock w next, .go =>
    m.on w fun x => goTo (m.put w { x with activity := x.activity.release task }) next
  | .leave answer, .go => goTo { m with tracked := m.tracked.erase task } (.done answer)
  | _, _ => none

/-- One step of a task. -/
def exec (task child : Nat) (c : Choice) (m : WorkflowManager) (p : Place) :
    Option (Tasks.Outcome WorkflowManager Place) :=
  match p with
  | .create .. | .createPath .. | .createClean .. | .createPublish .. | .createFail ..
  | .createNotify .. | .createInfo .. | .waitInitialized .. | .waitLook .. | .waitNotified .. =>
    m.createStep task p c
  | .heartbeat .. => m.heartbeatStep p c
  | .lease .. | .leaseLookup .. | .leaseAcquire .. | .leaseCheck .. | .leaseRefused .. | .leased ..
  | .uploadCall .. | .uploadWait .. | .leaseDrop .. | .leaseRelease .. | .body ..
  | .bodyCancel .. => m.leaseStep task child p c
  | .pushPlan .. | .pushLock .. | .pushPhase .. | .pushOpen .. | .pushCall .. | .pushWait ..
  | .pushRecord .. => m.pushStep task child p c
  | .refresh .. | .refreshLookup .. | .refreshRead .. | .refreshAbort .. | .refreshWait ..
  | .refreshClear .. => m.refreshStep child p c
  | .commit .. | .commitLock .. | .commitPhase .. | .commitCheck .. | .commitOpen ..
  | .commitRepeat .. | .commitRepeated .. | .commitClean .. | .commitDirty .. | .commitCall ..
  | .commitWait .. | .commitRecord .. | .commitBaseline .. | .commitLookup .. | .commitRead ..
  | .commitMark .. => m.commitStep task child p c
  | .abortSync .. | .abortLock .. | .abortPhase .. | .abortCheck .. | .abortCall .. | .abortWait ..
  | .abortRecord .. => m.abortStep task child p c
  | .startSession .. | .startLock .. | .startPhase .. | .startInfo .. | .startOpen ..
  | .startDirty .. | .startAgain .. | .startCreate .. | .startRegister .. | .startWait ..
  | .startRecord .. | .startObserver .. => m.startStep task child p c
  | .observe .. | .observeGet .. | .observeRead .. | .observeLock .. | .observeCheck ..
  | .observeMark .. | .observePublish .. => m.observeStep task p c
  | .stopSession .. | .stopInfo .. | .stopGet .. | .stopRead .. | .stopRequest .. =>
    m.stopStep child p c
  | .finish .. | .finishInfo .. | .finishLock .. | .finishPhase .. | .finishCall ..
  | .finishWait .. | .finishFailed .. | .finishTerminal .. | .finishDone .. =>
    m.finishStep task child p c
  | .cancel .. | .cancelRequest .. | .cancelInfo .. | .fail .. => m.cancelStep child p c
  | .cleanup .. | .cleanupLoop .. | .cleanupRead .. | .cleanupStop .. | .cleanupRequest ..
  | .cleanupSession .. | .cleanupDegraded .. | .cleanupDirty .. | .cleanupCall ..
  | .cleanupWait .. | .cleanupClean .. | .cleanupTarget .. | .cleanupTerminal ..
  | .cleanupFailed .. => m.cleanupStep task child p c
  | .expire | .prune | .background .. | .backgroundWait .. => m.reaperStep child p c
  | .shutdown | .shutdownDrain | .shutdownSessions | .shutdownWait | .shutdownSync
  | .shutdownSynced .. => m.shutdownStep child p c
  | .syncEnter .. | .sync .. => m.syncStep task p c
  | .unlock .. | .leave .. => m.endStep task p c
  | .done .. => none

end WorkflowManager

/-- Where a task may start from outside, and whether `managed` admits it. -/
def Place.entry : Place → Option Bool
  | .create .. | .pushPlan .. | .commit .. | .abortSync .. | .startSession .. | .stopSession ..
  | .finish .. | .cancel .. => some true
  | .heartbeat .. | .lease .. | .expire | .prune | .shutdown => some false
  | .background asked => if asked = .reap ∨ asked = .orphans then some false else none
  | _ => none

/-- The admission gate of `managed`. -/
def WorkflowManager.enter (task : Nat) (m : WorkflowManager) (p : Place) : Option WorkflowManager :=
  match p.entry with
  | some true => if m.stopping then none else some { m with tracked := task :: m.tracked }
  | some false => some m
  | none => none

def WorkflowManager.env : Event → WorkflowManager → Option WorkflowManager
  | .tick elapsed, m => some { m with sync := { m.sync with now := m.sync.now + elapsed } }
  | .session id action error, m =>
    (m.sessions.step id action error m.now).map fun sessions => { m with sessions }

def program : Tasks.Program WorkflowManager Place Choice Event where
  enter := WorkflowManager.enter
  exec := WorkflowManager.exec
  env := WorkflowManager.env

abbrev Sys := Tasks.State WorkflowManager Place
abbrev Action := Tasks.Action Place Choice Event

/-- A service that has just started: no workflow, and whatever an earlier life left of
    the projects and of the staging area. -/
def WorkflowManager.start (config : Config) (sync : Sync.Config) (sessions : SessionConfig)
    (projects : String → Marker) (staging : Uuid → Option Sync.Staging) : WorkflowManager where
  config := config
  projects := projects
  sessions := { config := sessions }
  sync := .start sync staging

def Sys.start (config : Config) (sync : Sync.Config) (sessions : SessionConfig)
    (projects : String → Marker) (staging : Uuid → Option Sync.Staging) : Sys :=
  Tasks.State.start (.start config sync sessions projects staging)

end VivadoServer.Workflows
