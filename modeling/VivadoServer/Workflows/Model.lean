/-
  VivadoServer.Workflows.Model

  The record of a workflow (`src/workflow.rs`) and what its lock sections do to
  it.  Instants are milliseconds of the one clock, wall-clock times included.
-/

import VivadoServer.Sync.Model
import VivadoServer.Sessions.Model

namespace VivadoServer.Workflows

open VivadoServer.History (Uuid)
open VivadoServer.Sessions (Instant TerminationReason)

structure CreateWorkflowRequest where
  project : String
  resetProject : Bool
deriving DecidableEq, Repr

inductive WorkflowStatus where
  | preparing
  | running
  | pulling
  | stopping
  | completed
  | cancelled
  | failed
deriving DecidableEq, Repr

namespace WorkflowStatus

def isTerminal : WorkflowStatus → Bool
  | completed | cancelled | failed => true
  | _ => false

/-- The diagram of the phases.  Only a failed initialization leads from
    Preparing to Failed. -/
inductive Moves : WorkflowStatus → WorkflowStatus → Prop
  | run : Moves .preparing .running
  | pull : Moves .running .pulling
  | complete : Moves .pulling .completed
  | stop {a : WorkflowStatus} (h : a = .preparing ∨ a = .running ∨ a = .pulling) :
      Moves a .stopping
  | cancelled : Moves .stopping .cancelled
  | failed : Moves .stopping .failed
  | uninitialized : Moves .preparing .failed

end WorkflowStatus

structure WorkflowInfo where
  workflowId : Uuid
  project : String
  status : WorkflowStatus := .preparing
  sessionId : Option Uuid := none
  requiresFullUpload : Bool := true
  cleanupPending : Bool := false
  startedAt : Instant
  lastHeartbeatAt : Instant
  endedAt : Option Instant := none
  errorCode : Option String := none
  errorMessage : Option String := none
deriving DecidableEq, Repr

/-- `Workflow` with its `WorkflowData`. -/
structure Workflow where
  info : WorkflowInfo
  request : CreateWorkflowRequest
  heartbeat : Instant
  ended : Option Instant := none
  openSync : Option Uuid := none
  openSyncDeadline : Option Instant := none
  syncIds : List Uuid := []
  baselineClean : Bool := false
  transfers : Nat := 0
  initializing : Bool := true
  initializationError : Option AppError := none
  cleanupStarted : Bool := false
  cleanupTarget : WorkflowStatus := .cancelled
  terminalError : Option AppError := none
  stopReason : TerminationReason := .workflowClosed
  invalidateProject : Bool := false
  activity : RwLock := .free
  cancel : Bool := false
  /-- How often `initialized.notify_waiters` was called. -/
  notified : Nat := 0
  -- what happened so far: who holds a lease, how often a session was asked for, which one
  -- was registered, and the plans that were created
  leases : List Nat := []
  launches : Nat := 0
  launched : Option Uuid := none
  created : List Uuid := []
deriving DecidableEq, Repr

namespace Workflow

/-- The record of `create`, held by the call that made it. -/
def new (id : Uuid) (request : CreateWorkflowRequest) (now : Instant) (task : Nat) : Workflow where
  info := { workflowId := id, project := request.project, startedAt := now, lastHeartbeatAt := now }
  request := request
  heartbeat := now
  activity := .exclusive task

def terminal (x : Workflow) : Bool := x.info.status.isTerminal

def withStatus (x : Workflow) (status : WorkflowStatus) : Workflow :=
  { x with info := { x.info with status := status } }

/-- `phase`. -/
def phase (x : Workflow) (allowed : List WorkflowStatus) : Except AppError Unit :=
  if !x.initializing && allowed.contains x.info.status then .ok ()
  else .error (.workflowPhase "operation is not allowed in the current phase")

/-- The end of the initialization. -/
def initialized (x : Workflow) : Except AppError Bool → Workflow
  | .ok clean =>
    { x with
      initializing := false
      baselineClean := clean
      info := { x.info with requiresFullUpload := x.request.resetProject || !clean } }
  | .error error => { x with initializing := false, initializationError := some error }

def beat (x : Workflow) (now : Instant) : Workflow :=
  { x with heartbeat := now, info := { x.info with lastHeartbeatAt := now } }

/-- The deadline of the open plan has passed. -/
def planExpired (x : Workflow) (now : Instant) : Bool := x.openSyncDeadline.any (· ≤ now)

def recordPlan (x : Workflow) (id : Uuid) (deadline : Instant) : Workflow :=
  let syncIds := x.syncIds ++ [id]
  { x with
    openSync := some id
    openSyncDeadline := some deadline
    syncIds := syncIds.drop (syncIds.length - Sync.MAX_RETAINED_SYNC_RESULTS) }

def clearOpenSync (x : Workflow) : Workflow :=
  { x with openSync := none, openSyncDeadline := none }

/-- A commit that succeeded. -/
def committed (x : Workflow) : Workflow :=
  { x.clearOpenSync with
    baselineClean := true
    info := { x.info with requiresFullUpload := false } }

/-- A session was started for the workflow. -/
def started (x : Workflow) (sessionId : Uuid) : Workflow :=
  { x with
    info := { x.info with
      sessionId := some sessionId
      status := if x.info.status = .stopping then .stopping else .running } }

/-- The observer publishes the end of the session. -/
def published (x : Workflow) : Workflow :=
  if x.info.status = .running then
    { x with info := { x.info with status := .pulling, requiresFullUpload := false } }
  else x

def lease (x : Workflow) (task : Nat) : Workflow :=
  { x with transfers := x.transfers + 1, leases := task :: x.leases }

/-- `Drop` of a lease. -/
def dropLease (x : Workflow) (task : Nat) : Workflow :=
  { x with transfers := x.transfers - 1, leases := x.leases.erase task }

/-- A lease goes from one holder to another, with its read guard. -/
def handOver (x : Workflow) (task other : Nat) : Workflow :=
  { x with
    activity := x.activity.handOver task other
    leases := other :: x.leases.erase task }

def reportError (x : Workflow) (error : AppError) : Workflow :=
  { x with
    info := { x.info with
      errorCode := some error.code, errorMessage := some error.clientMessage } }

/-- `finish` could not abort what is open. -/
def finishFailed (x : Workflow) (error : AppError) : Workflow :=
  let x := x.reportError error
  { x with info := { x.info with cleanupPending := true } }

/-- The record of `request_cleanup_locked`. -/
def stopped (x : Workflow) (reason : TerminationReason) (target : WorkflowStatus)
    (error : Option AppError) (invalidate : Bool) : Workflow :=
  let x := { x with
    info := { x.info with
      status := .stopping
      cleanupPending := true
      requiresFullUpload := x.info.requiresFullUpload || invalidate }
    invalidateProject := x.invalidateProject || invalidate
    cleanupTarget := if target = .failed then .failed else x.cleanupTarget
    cancel := true
    cleanupStarted := true
    stopReason := if x.cleanupStarted then x.stopReason else reason }
  match error with
  | none => x
  | some error => { x.reportError error with terminalError := some error }

/-- The record of `terminal`. -/
def finished (x : Workflow) (status : WorkflowStatus) (error : Option AppError)
    (requiresFullUpload : Bool) (now : Instant) : Workflow :=
  { x.clearOpenSync with
    ended := some now
    info := { x.info with
      status := status
      cleanupPending := false
      requiresFullUpload := requiresFullUpload
      endedAt := some now
      errorCode := error.map (·.code)
      errorMessage := error.map (·.clientMessage) } }

end Workflow

/-- What `state` of a project reads; anything else is trusted as little as nothing. -/
inductive Marker where
  | clean
  | dirty
  | other
deriving DecidableEq, Repr

end VivadoServer.Workflows
