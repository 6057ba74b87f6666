/-
  VivadoServer.Sessions.Supervisor

  One session of the `SessionManager` (`src/session.rs`) with the task that owns
  its process (`src/session/supervisor.rs`).

  A state `Sys` holds the manager's slot, the shared session, the stdin channel
  with its callers, and the place `pc` at which the task stands.  A step is one
  action: a caller of the manager moves, or the task runs up to its next
  suspension point.  What the operating system answers, what the clock reads and
  which branch of `select!` is ready are part of the action.

  `select!` is biased: the stop token is polled first (`poll`), and another
  branch is taken only after it was found not cancelled.  A caller may still
  cancel it between that poll and the branch that is taken.

  `trace` lists what the task did to the process, the newest first.
-/

import VivadoServer.Sessions.Process
import VivadoServer.Sessions.Output
import VivadoServer.Sessions.Decoder

namespace VivadoServer.Sessions

open VivadoServer.History (Uuid)

/-! ## Constants -/

def inputQueueLength : Nat := 8
def TERM_GRACE : Nat := 1000
def KILL_INTERVAL : Nat := 1000
def DRAIN_GRACE : Nat := 2000
def CLEANUP_DEADLINE : Nat := 8000

/-- The most one `write` hands to the terminal. -/
def maxWrite : Nat := 4096

/-! ## Standard input -/

structure Input where
  id : Uuid
  bytes : List UInt8
  offset : Nat := 0
deriving DecidableEq, Repr

/-- The answer to an input: the result sent to its caller, and the
    `written_bytes` of its completion event.  An input that is dropped unseen is
    answered by its closed channel and has no such event. -/
structure Answer where
  id : Uuid
  ok : Bool
  recorded : Option Nat
deriving DecidableEq, Repr

inductive AppError where
  | sessionNotRunning
  | badRequest (message : String)
  | capacity (message : String)
deriving DecidableEq, Repr

structure Stdin where
  /-- `stdin_max_bytes`. -/
  maxBytes : Nat
  /-- Permits left in `input_budget`. -/
  budget : Nat
  /-- Inputs whose callers still wait for their intent to be recorded. -/
  admitted : List Input := []
  queue : List Input := []
  closed : Bool := false
  -- what happened so far: inputs queued, answers given, bytes the terminal took
  queued : List Input := []
  answers : List Answer := []
  pty : List UInt8 := []
deriving DecidableEq, Repr

namespace Stdin

def complete (io : Stdin) (input : Input) (ok : Bool) (recorded : Option Nat) : Stdin :=
  { io with
    answers := io.answers ++ [⟨input.id, ok, recorded⟩]
    budget := io.budget + input.bytes.length }

/-- Close the channel and refuse what is pending, then what is queued. -/
def close (io : Stdin) (pending : Option Input) (recorded : Input → Option Nat) : Stdin :=
  let refuse (io : Stdin) (input : Input) := io.complete input false (recorded input)
  let io := pending.elim io (refuse io)
  { io.queue.foldl refuse io with queue := [], closed := true }

/-- `reject_inputs`. -/
def rejectInputs (io : Stdin) (pending : Option Input) : Stdin :=
  io.close pending fun input => some input.offset

/-- The receiver is dropped with whatever it still holds. -/
def dropInputs (io : Stdin) (pending : Option Input) : Stdin :=
  io.close pending fun _ => none

/-- `try_send` of an admitted input; a refused one gives its permits back. -/
def trySend (io : Stdin) (input : Input) : Stdin × Except AppError Unit :=
  if io.closed then
    ({ io with budget := io.budget + input.bytes.length }, .error .sessionNotRunning)
  else if inputQueueLength ≤ io.queue.length then
    ({ io with budget := io.budget + input.bytes.length },
      .error (.capacity "stdin queue is full"))
  else
    ({ io with queue := io.queue ++ [input], queued := io.queued ++ [input] }, .ok ())

end Stdin

/-! ## The shared session and the manager's slot -/

structure Session where
  stopReason : Option TerminationReason := none
  stopCancelled : Bool := false
  info : SessionInfo := {}
  output : OutputBuffer
  terminal : Bool := false
  stdin : Stdin
deriving DecidableEq, Repr

namespace Session

def requestStop (s : Session) (reason : TerminationReason) : Session :=
  { s with
    stopReason := if s.stopReason.isNone && !s.terminal then some reason else s.stopReason
    stopCancelled := true }

def reason (s : Session) : TerminationReason := s.stopReason.getD .clientRequested

def pushOutput (s : Session) (now : Instant) (text : Text) : Session :=
  if text.isEmpty then s else { s with output := (s.output.push now text).1 }

def stopping (s : Session) (reason : TerminationReason) : Session :=
  { s with
    info := { s.info with
      status := .stopping
      terminationReason := some (s.info.terminationReason.getD reason) } }

def finish (s : Session) (reason : TerminationReason) (code : Option Int) (truncated : Bool) :
    Session :=
  { s with
    info :=
      { status :=
          match reason with
          | .processExited => .exited
          | .processStartFailed | .processWaitFailed | .inputWriteFailed | .outputReadFailed =>
            .failed
          | _ => .terminated
        terminationReason := some reason
        exitCode := code
        outputTruncated := truncated
        cleanupError := none }
    terminal := true }

/-- The checks of `send_input` up to its byte budget: refuse, have nothing to
    write, or admit the input. -/
def sendInput (s : Session) (id : Uuid) (text : List UInt8) :
    Except AppError (Option Stdin) :=
  if s.stopCancelled || s.info.status != .running then .error .sessionNotRunning
  else if s.stdin.maxBytes < text.length then
    .error (.badRequest "stdin exceeds stdin_max_bytes")
  else if text.isEmpty then .ok none
  else if 2 ^ 32 ≤ text.length then .error (.badRequest "stdin is too large")
  else if s.stdin.budget < text.length then
    .error (.capacity "stdin queue byte budget is full")
  else
    .ok (some { s.stdin with
      budget := s.stdin.budget - text.length
      admitted := s.stdin.admitted ++ [{ id, bytes := text }] })

end Session

structure Manager where
  active : Option Uuid
  degraded : Bool := false
  shuttingDown : Bool := false
deriving DecidableEq, Repr

/-- The registration of a new session in `create_session`. -/
def Manager.register (m : Manager) (id : Uuid) : Except AppError Manager :=
  if m.shuttingDown || m.degraded then
    .error (.capacity "session service is stopping or requires cleanup")
  else if m.active.isSome then .error (.capacity "a Vivado session is already active")
  else .ok { m with active := some id }

def Manager.finished (m : Manager) (id : Uuid) : Manager :=
  { m with active := if m.active = some id then none else m.active, degraded := false }

/-! ## The task -/

structure Stop where
  reason : TerminationReason
  since : Instant
  termSent : Bool := false
  lastKill : Option Instant := none
deriving DecidableEq, Repr

/-- Where the loop of `supervise` stands: in `select!`, or between the system
    calls of a tick. -/
inductive Stage where
  | select
  | observe
  | terminate
  | escalate (elapsed : Nat)
  | inspect
  | quiesce
  | confirm
  | reap
deriving DecidableEq, Repr

/-- The variables of `supervise`. -/
structure Supervisor where
  process : PtyProcess
  fd : Bool
  stop : Option Stop := none
  pending : Option Input := none
  decoder : Utf8StreamDecoder := {}
  readerDone : Bool
  truncated : Bool
  leaderExited : Bool := false
  reapedAt : Option Instant := none
  exitCode : Option Int := none
  polled : Bool := false
  stage : Stage := .select
deriving DecidableEq, Repr

/-- `supervise` as it is entered: without a registered terminal there is nothing
    to read. -/
def Supervisor.start (process : PtyProcess) (fd : Bool) : Supervisor where
  process := process
  fd := fd
  readerDone := !fd
  truncated := !fd

/-- Where `run` stands. -/
inductive Pc where
  | preparing
  | checking
  | spawning
  | registering (process : PtyProcess)
  | supervising (v : Supervisor)
  -- the session is terminal, its slot is not free yet
  | closing
  | released
  | returned
  -- the task ended without confirming the process's death
  | aborted
deriving DecidableEq, Repr

inductive Effect where
  | spawned
  | stopHandled (reason : TerminationReason)
  | readFailed
  | leaderExited
  -- a wait reported that there is no such child
  | ownershipLost
  -- `kill` was called on the group; `accepted` when it reported no error
  | signalled (signal : Signal) (accepted : Bool)
  -- the result of one scan of the process group
  | scanned (live : Bool)
  -- `reap` was called on the leader
  | reapCalled
  | reaped (code : Int)
  | appended (text : Text)
  | finished (reason : TerminationReason)
  | released
deriving DecidableEq, Repr

structure Sys where
  id : Uuid
  manager : Manager
  session : Session
  pc : Pc
  trace : List Effect := []
deriving DecidableEq, Repr

inductive ScanResult where
  | live (found : Bool)
  | failed (error : IoError)
  | panicked (message : String)
deriving DecidableEq, Repr

inductive SpawnResult where
  | process (pid : Nat)
  | failed
  | panicked (message : String)
deriving DecidableEq, Repr

/-- The moves of the loop of `supervise`. -/
inductive LoopAction where
  | poll
  | stop (now : Instant)
  | input
  | written (result : Result Nat)
  | read (now : Instant) (result : Result (List UInt8))
  | tick (now : Instant)
  | observe (now : Instant) (waited : Result Bool)
  | terminate (now : Instant) (killed : Result Unit)
  | escalate (lastAt now : Instant) (killed : Result Unit)
  | inspect (scan : ScanResult)
  | quiesce (killed : Result Unit)
  | confirm (scan : ScanResult)
  | reap (now : Instant) (waited : Result Int)
  | conclude (now : Instant)
deriving Repr

inductive Action where
  -- callers of the manager
  | requestStop (reason : TerminationReason)
  | sendInput (id : Uuid) (text : List UInt8)
  | trySend (index : Nat) (durable : Bool)
  | register (other : Uuid)
  | finishedOther (other : Uuid)
  | shutdown
  -- the task
  | prepared (ok : Bool)
  | checkStart (callerGone : Bool)
  | spawn (result : SpawnResult)
  | registerFd (ok callerGone : Bool)
  | loop (action : LoopAction)
  | release
  | leave
  | abort (created : Bool) (killed : Result Unit)
deriving Repr

/-- The start of a session that was just given the slot. -/
def Sys.start (id : Uuid) (maxBytes stdinMaxBytes : Nat) : Sys where
  id := id
  manager := { active := some id }
  session := { output := .new maxBytes, stdin := { maxBytes := stdinMaxBytes, budget := stdinMaxBytes } }
  pc := .preparing

namespace Sys

def note (s : Sys) (e : Effect) : Sys := { s with trace := e :: s.trace }

def mapStdin (s : Sys) (f : Stdin → Stdin) : Sys :=
  { s with session := { s.session with stdin := f s.session.stdin } }

def requestStop (s : Sys) (reason : TerminationReason) : Sys :=
  { s with session := s.session.requestStop reason }

/-- `report_cleanup_error`. -/
def report (s : Sys) (error : String) : Sys :=
  { s with
    manager := { s.manager with degraded := true }
    session := { s.session with
      info := { s.session.info with
        cleanupError := some (s.session.info.cleanupError.getD error) } } }

/-- `Session::push_output`. -/
def append (s : Sys) (now : Instant) (text : Text) : Sys :=
  let s := { s with session := s.session.pushOutput now text }
  if text.isEmpty then s else s.note (.appended text)

/-- `signal_group`, with the call to `kill` it makes. -/
def signal (s : Sys) (process : PtyProcess) (signal : Signal) (killed : Result Unit) :
    Sys × Result Unit :=
  match process.signalGroup killed with
  | (true, result) => (s.note (.signalled signal (result.toOption.isSome)), result)
  | (false, result) => (s, result)

/-- `Drop` of the process: an emergency `SIGKILL` unless it was reaped or lost. -/
def dropProcess (s : Sys) (process : PtyProcess) (killed : Result Unit) : Sys :=
  if process.dropSignals then (s.signal process .kill killed).1 else s

/-- `Session::finish`. -/
def finish (s : Sys) (reason : TerminationReason) (code : Option Int) (truncated : Bool) : Sys :=
  { s.note (.finished reason) with
    session := s.session.finish reason code truncated
    pc := .closing }

/-- The supervisor ended without `complete`: the slot stays taken. -/
def abandon (s : Sys) (pending : Option Input) : Sys :=
  { s.mapStdin (·.dropInputs pending) with
    manager := { s.manager with degraded := true }
    pc := .aborted }

end Sys

namespace Supervisor

/-- The loop is in `select!` and has not ended. -/
def selecting (v : Supervisor) : Bool :=
  v.stage == .select && !(v.reapedAt.isSome && v.readerDone)

/-- A branch behind the stop token may be taken. -/
def ready (v : Supervisor) : Bool := v.selecting && v.polled

/-- The scan of the group has a reason: the leader is gone and was told to go. -/
def scans (v : Supervisor) : Bool := v.leaderExited && v.stop.any (·.termSent)

def goOn (s : Sys) (v : Supervisor) : Option Sys := some { s with pc := .supervising v }

/-- Natural exit and `Event::Stop`: the session is stopping, no input is taken. -/
def beginStop (s : Sys) (v : Supervisor) (reason : TerminationReason) (now : Instant) :
    Sys × Supervisor :=
  ({ s with session := s.session.stopping reason }.mapStdin (·.rejectInputs v.pending),
    { v with stop := some { reason, since := now }, pending := none })

def onStop (s : Sys) (v : Supervisor) (now : Instant) : Option Sys :=
  if v.selecting && s.session.stopCancelled && v.stop.isNone then
    let reason := s.session.reason
    let (s, v) := beginStop s v reason now
    goOn (s.note (.stopHandled reason)) { v with polled := false }
  else none

def onInput (s : Sys) (v : Supervisor) : Option Sys :=
  if v.ready && v.stop.isNone && v.pending.isNone && !v.leaderExited then
    match s.session.stdin.queue with
    | input :: rest =>
      goOn (s.mapStdin ({ · with queue := rest })) { v with pending := some input, polled := false }
    | [] =>
      if s.session.stdin.closed then
        goOn (s.requestStop .serviceShutdown) { v with polled := false }
      else none
  else none

def onWritten (s : Sys) (v : Supervisor) (result : Result Nat) : Option Sys :=
  if v.ready && v.fd && v.reapedAt.isNone then
    match v.pending with
    | none => none
    | some input =>
      match result with
      | .ok count =>
        let rest := input.bytes.drop input.offset
        if 0 < count ∧ count ≤ min maxWrite rest.length then
          let s := s.mapStdin fun io => { io with pty := io.pty ++ rest.take count }
          let input := { input with offset := input.offset + count }
          if input.offset = input.bytes.length then
            goOn (s.mapStdin (·.complete input true (some input.offset)))
              { v with pending := none, polled := false }
          else goOn s { v with pending := some input, polled := false }
        else none
      | .error _ =>
        let s := s.mapStdin (·.complete input false (some input.offset))
        goOn (s.requestStop .inputWriteFailed) { v with pending := none, polled := false }
  else none

def onRead (s : Sys) (v : Supervisor) (now : Instant) (result : Result (List UInt8)) :
    Option Sys :=
  if v.ready && !v.readerDone then
    match result with
    | .ok [] => goOn s { v with readerDone := true, polled := false }
    | .ok bytes =>
      let (decoder, text) := v.decoder.push bytes
      goOn (s.append now text) { v with decoder := decoder, polled := false }
    | .error _ =>
      let stop := v.stop.map fun stop =>
        if stop.reason = .processExited then { stop with reason := .outputReadFailed } else stop
      goOn ((s.note .readFailed).requestStop .outputReadFailed)
        { v with readerDone := true, truncated := true, stop := stop, polled := false }
  else none

def onTick (s : Sys) (v : Supervisor) (now : Instant) : Option Sys :=
  if v.ready then
    match v.reapedAt with
    | some reaped =>
      if !v.readerDone ∧ DRAIN_GRACE ≤ now - reaped then
        goOn s { v with truncated := true, readerDone := true, fd := false, polled := false }
      else goOn s { v with polled := false }
    | none => goOn s { v with stage := .observe, polled := false }
  else none

def observe (s : Sys) (v : Supervisor) (now : Instant) (waited : Result Bool) : Option Sys :=
  if v.stage = .observe then
    let v := { v with stage := .terminate }
    if v.leaderExited then goOn s v
    else
      let (process, result) := v.process.observeExit waited
      let v := { v with process := process }
      match result with
      | .ok true =>
        let s := s.note .leaderExited
        let v := { v with leaderExited := true }
        if v.stop.isNone then
          let (s, v) := beginStop s v .processExited now
          goOn s v
        else goOn s v
      | .ok false => goOn s v
      | .error error =>
        let s := if error.code = some ECHILD then s.note .ownershipLost else s
        goOn ((s.requestStop .processWaitFailed).report
          ("cannot observe Vivado exit: " ++ error.message)) v
  else none

def terminate (s : Sys) (v : Supervisor) (now : Instant) (killed : Result Unit) : Option Sys :=
  if v.stage = .terminate then
    match v.stop with
    | none => goOn s { v with stage := .inspect }
    | some stop =>
      let v := { v with stage := .escalate (now - stop.since) }
      if stop.termSent then goOn s v
      else
        match s.signal v.process .term killed with
        | (s, .ok ()) => goOn s { v with stop := some { stop with termSent := true } }
        | (s, .error error) =>
          goOn (s.report ("cannot terminate Vivado group: " ++ error.message)) v
  else none

def escalate (s : Sys) (v : Supervisor) (lastAt now : Instant) (killed : Result Unit) :
    Option Sys :=
  match v.stage, v.stop with
  | .escalate elapsed, some stop =>
    let overdue (s : Sys) :=
      if CLEANUP_DEADLINE ≤ elapsed then
        s.report "Vivado group death remains unconfirmed; workflow ownership is retained"
      else s
    let v := { v with stage := .inspect }
    if TERM_GRACE ≤ elapsed ∧ stop.lastKill.all (fun last => decide (KILL_INTERVAL ≤ lastAt - last))
    then
      let v := { v with stop := some { stop with lastKill := some now } }
      match s.signal v.process .kill killed with
      | (s, .ok ()) => goOn (overdue s) v
      | (s, .error error) =>
        goOn (overdue (s.report ("cannot kill Vivado group: " ++ error.message))) v
    else goOn (overdue s) v
  | _, _ => none

def inspect (s : Sys) (v : Supervisor) (scan : ScanResult) : Option Sys :=
  if v.stage = .inspect then
    let done := { v with stage := .select }
    if v.scans then
      match scan with
      | .live false => goOn (s.note (.scanned false)) { v with stage := .quiesce }
      | .live true => goOn (s.note (.scanned true)) done
      | .failed error =>
        goOn (s.report ("cannot inspect Vivado process group: " ++ error.message)) done
      | .panicked message =>
        goOn (s.report ("process group inspection failed: " ++ message)) done
    else goOn s done
  else none

def quiesce (s : Sys) (v : Supervisor) (killed : Result Unit) : Option Sys :=
  if v.stage = .quiesce then
    match s.signal v.process .kill killed with
    | (s, .ok ()) => goOn s { v with stage := .confirm }
    | (s, .error error) =>
      goOn (s.report ("cannot finalize Vivado group cleanup: " ++ error.message))
        { v with stage := .select }
  else none

def confirm (s : Sys) (v : Supervisor) (scan : ScanResult) : Option Sys :=
  if v.stage = .confirm then
    let done := { v with stage := .select }
    match scan with
    | .live false => goOn (s.note (.scanned false)) { v with stage := .reap }
    | .live true => goOn (s.note (.scanned true)) done
    | .failed error =>
      goOn (s.report ("cannot confirm Vivado group cleanup: " ++ error.message)) done
    | .panicked message =>
      goOn (s.report ("process group confirmation failed: " ++ message)) done
  else none

def reap (s : Sys) (v : Supervisor) (now : Instant) (waited : Result Int) : Option Sys :=
  if v.stage = .reap then
    let (process, result) := v.process.reap waited
    let v := { v with process := process, stage := .select }
    let s := s.note .reapCalled
    match result with
    | .ok code =>
      goOn (s.note (.reaped code)) { v with exitCode := some code, reapedAt := some now }
    | .error error =>
      let s := if error.code = some ECHILD then s.note .ownershipLost else s
      goOn (s.report ("cannot reap Vivado: " ++ error.message)) v
  else none

/-- The tail of `supervise`, behind its loop. -/
def conclude (s : Sys) (v : Supervisor) (now : Instant) : Option Sys :=
  if v.stage == .select && v.reapedAt.isSome && v.readerDone then
    let s := s.mapStdin (·.rejectInputs v.pending)
    let s := s.append now v.decoder.finish
    let reason := (v.stop.map (·.reason)).getD .processExited
    some ((s.finish reason v.exitCode v.truncated).dropProcess v.process (.ok ()))
  else none

def step (s : Sys) (v : Supervisor) : LoopAction → Option Sys
  | .poll =>
    if v.selecting && !v.polled && !(s.session.stopCancelled && v.stop.isNone) then
      goOn s { v with polled := true }
    else none
  | .stop now => v.onStop s now
  | .input => v.onInput s
  | .written result => v.onWritten s result
  | .read now result => v.onRead s now result
  | .tick now => v.onTick s now
  | .observe now waited => v.observe s now waited
  | .terminate now killed => v.terminate s now killed
  | .escalate lastAt now killed => v.escalate s lastAt now killed
  | .inspect scan => v.inspect s scan
  | .quiesce killed => v.quiesce s killed
  | .confirm scan => v.confirm s scan
  | .reap now waited => v.reap s now waited
  | .conclude now => v.conclude s now

end Supervisor

namespace Sys

/-- Callers of the manager, which move at any time. -/
def callerStep (s : Sys) : Action → Option Sys
  | .requestStop reason => some (s.requestStop reason)
  | .sendInput id text =>
    match s.session.sendInput id text with
    | .ok (some stdin) => some (s.mapStdin fun _ => stdin)
    | .ok none => some s
    | .error _ => some s
  | .trySend index durable =>
    match s.session.stdin.admitted[index]? with
    | none => none
    | some input =>
      let s := s.mapStdin fun io => { io with admitted := io.admitted.eraseIdx index }
      if durable then some (s.mapStdin fun io => (io.trySend input).1)
      else some (s.mapStdin fun io => { io with budget := io.budget + input.bytes.length })
  | .register other =>
    match s.manager.register other with
    | .ok manager => some { s with manager := manager }
    | .error _ => some s
  | .finishedOther other =>
    if other = s.id then none else some { s with manager := s.manager.finished other }
  | .shutdown =>
    let s := { s with manager := { s.manager with shuttingDown := true } }
    some (if s.session.terminal then s else s.requestStop .serviceShutdown)
  | _ => none

/-- The task of the session: `run`. -/
def runStep (s : Sys) : Action → Option Sys
  | .prepared ok =>
    match s.pc with
    | .preparing =>
      if ok then some { s with pc := .checking } else some (s.finish .processStartFailed none false)
    | _ => none
  | .checkStart callerGone =>
    match s.pc with
    | .checking =>
      if callerGone || s.session.stopCancelled then
        some (s.finish (if s.session.stopCancelled then s.session.reason else .clientRequested)
          none false)
      else some { s with pc := .spawning }
    | _ => none
  | .spawn result =>
    match s.pc, result with
    | .spawning, .process pid => some { s.note .spawned with pc := .registering (.spawned pid) }
    | .spawning, .failed => some (s.finish .processStartFailed none false)
    | .spawning, .panicked message =>
      let s := { s with session := s.session.stopping .processStartFailed }
      some ((s.report ("Vivado spawn task failed: " ++ message)).abandon none)
    | _, _ => none
  | .registerFd ok callerGone =>
    match s.pc with
    | .registering process =>
      let s :=
        if !ok then s.requestStop .outputReadFailed
        else if callerGone then s.requestStop .clientRequested
        else s
      some { s with pc := .supervising (.start process ok) }
    | _ => none
  | .loop action =>
    match s.pc with
    | .supervising v => v.step s action
    | _ => none
  | .release =>
    match s.pc with
    | .closing => some { s.note .released with manager := s.manager.finished s.id, pc := .released }
    | _ => none
  | .leave =>
    match s.pc with
    | .released => some { s.mapStdin (·.dropInputs none) with pc := .returned }
    | _ => none
  | .abort created killed =>
    match s.pc with
    | .preparing => some (s.abandon none)
    | .checking => some (s.abandon none)
    | .spawning =>
      -- the start-up task runs on and drops the process it may have created
      if created then some (((s.note .spawned).dropProcess (.spawned 0) killed).abandon none)
      else some (s.abandon none)
    | .registering process => some ((s.dropProcess process killed).abandon none)
    | .supervising v => some ((s.dropProcess v.process killed).abandon v.pending)
    | _ => none
  | _ => none

def step (a : Action) (s : Sys) : Option Sys := (s.callerStep a).orElse fun _ => s.runStep a

end Sys

end VivadoServer.Sessions
