/-
  VivadoServer.History.Machine

  The journal as a step system: producers that enqueue, the one writer thread,
  the disk under it, crashes and restarts.

  Every lock section, system call and rename of the writer thread is one step;
  `Pc` is the place in `Writer::run` and `Writer::append` it has reached.  How
  a call ends is the step's `Choice`.  `compact` and `persist` write a scratch
  file that start-up deletes, so each has two outcomes that matter: nothing
  happened, or the rename took place and the directory fsync after it
  succeeded or not.  An `enqueue` holds the producer lock from its first to its
  last line and is one step.  It is not held back by `stopped`: a producer may
  have read that flag long before it takes the lock.

  A page call changes nothing and is not a step: it may look at the reader of
  any state.  `created`, `acked` and `removed` are ghost records of every event
  that was given a sequence, of every event whose batch was acknowledged, and
  of every event that trimming or retention took out of the reader.
-/

import VivadoServer.History.Disk
import VivadoServer.Lib.StepSystem

namespace VivadoServer.History

open Std (ExtTreeMap)

/-! ## The writer thread -/

/-- Who runs `append`: start-up or the message branch of `run`, with the range
    of sequences it will report on failure and the batches that wait for it. -/
structure Caller where
  startup : Bool
  range : Option (Nat × Nat)
  acks : List (List Event)
deriving DecidableEq, Repr

/-- How an `append` ended.  Both failures are the same `Err` to its caller:
    `lost` is one before the first event reached the reader, `late` one after
    the last. -/
inductive AppendResult where
  | ok
  | lost
  | late
deriving DecidableEq, Repr

/-- Where a `compact` or `persist` call stands. -/
inductive Site where
  | init
  | append (c : Caller)
  | changed
  | retry
  | sweep
deriving DecidableEq, Repr

/-- Where the writer thread is.  After a failed start-up (`aborted`) there is no
    thread; `lost` is the range of the start-up events if they had been numbered. -/
inductive Pc where
  | recv
  | collect (events : List Event) (acks : List (List Event))
  | write (c : Caller) (batch : List (Event × Nat))
  | sync (c : Caller) (batch : List (Event × Nat))
  | setLen (c : Caller)
  | seek (c : Caller)
  | insert (c : Caller) (rest : List (Event × Nat))
  | trim (c : Caller) (event : Event) (id : Uuid) (rest : List (Event × Nat))
  | merge (c : Caller) (held : List Gap)
  | prune (c : Caller)
  | compact (site : Site)
  | persist (site : Site)
  | report (c : Caller) (result : AppendResult)
  | idleTake
  | idleMerge (drained : Bool) (held : List Gap)
  | health
  | age
  | rest
  | aborted (lost : Option (Nat × Nat))
  | finished
deriving DecidableEq, Repr

/-- The volatile state of one service lifetime. -/
structure Live where
  producer : Nat
  pending : List Gap
  reader : Reader
  healthy : Bool
  stopped : Bool
  queue : List Message
  queuedBytes : Nat
  physical : Nat
  pos : Nat
  tails : Tails
  pc : Pc

structure Sys where
  disk : Disk
  live : Option Live
  /-- `Session::output_bytes`; session ids are never reused. -/
  outputBytes : ExtTreeMap Uuid Nat
  created : List Event
  acked : List Event
  removed : List Event

/-- Before the first start. -/
def Sys.fresh : Sys := ⟨.fresh, none, ∅, [], [], []⟩

/-- How the writer's next call ends. -/
inductive Choice where
  | done
  | failed
  | wrote (n : Nat)
  | dirSyncFailed
  | timeout
  | at (now : Int)
deriving DecidableEq, Repr

inductive Act where
  | record (event : Event)
  | critical (events : List Event)
  | stop
  | writer (choice : Choice)
  | crash (keep : Nat) (old : Bool)
  | start (now : Int) (journalId instanceId : Uuid)
deriving DecidableEq, Repr

/-! ## Producers -/

/-- Give an event its sequence, and the instance id unless it has one. -/
def Event.numbered (e : Event) (instanceId : Uuid) (seq : Nat) : Event :=
  { e with
    seq := seq
    instanceId := if e.instanceId = 0 then instanceId else e.instanceId }

/-- The numbering loop of `enqueue`: the stamped events, the last sequence used
    and whether the last stamped event was too large. -/
def stamp (cd : Codec) (instanceId : Uuid) : Nat → List Event → List Event × Nat × Bool
  | next, [] => ([], next, false)
  | next, e :: es =>
    let e := e.numbered instanceId (next + 1)
    if eventLimit < (cd.toVec e).length + 1 then ([e], next + 1, true)
    else
      let (rest, last, tooLarge) := stamp cd instanceId (next + 1) es
      (e :: rest, last, tooLarge)

/-- `sync_channel(2048)`. -/
def queueCapacity : Nat := 2048

def queueByteLimit : Nat := 8 * 1024 * 1024

/-- `History::enqueue` under the producer lock: the new lifetime state and the
    events that were given a sequence. -/
def enqueue (cd : Codec) (events : List Event) (ack : Bool) (l : Live) : Live × List Event :=
  let first := l.producer + 1
  let (stamped, next, tooLarge) := stamp cd l.reader.state.instanceId l.producer events
  let dropped (reason : String) : Live :=
    { l with producer := next, pending := gap l.pending first next reason }
  if tooLarge then (dropped "event_too_large", stamped)
  else
    let bytes := (stamped.map fun e => (cd.toVec e).length + 1).sum
    if queueByteLimit < l.queuedBytes + bytes ∨ queueCapacity ≤ l.queue.length
        ∨ l.pc = .finished then
      ({ dropped "queue_full" with healthy := false }, stamped)
    else
      ({ l with
          producer := next
          queue := l.queue ++ [⟨stamped, bytes, ack⟩]
          queuedBytes := l.queuedBytes + bytes }, stamped)

/-- The idle branch holds the producer lock while it merges. -/
def Pc.locksProducer : Pc → Bool
  | .idleMerge _ _ => true
  | _ => false

/-- Start-up has returned the `History` that producers use. -/
def Pc.started : Pc → Bool
  | .compact .init | .persist .init | .aborted _ => false
  | .write c _ | .sync c _ | .setLen c | .seek c | .insert c _ | .trim c _ _ _ | .merge c _
  | .prune c | .compact (.append c) | .persist (.append c) | .report c _ => !c.startup
  | _ => true

/-- An output event carries its session's byte counter and its own length. -/
def outputFits (outputBytes : ExtTreeMap Uuid Nat) (e : Event) : Bool :=
  match e.sessionId with
  | some id =>
    e.data.asU64 "byte_offset" == some ((outputBytes[id]?).getD 0) &&
      (e.data.asU64 "byte_length").any (0 < ·)
  | none => false

def countOutput (outputBytes : ExtTreeMap Uuid Nat) (e : Event) : ExtTreeMap Uuid Nat :=
  match e.isOutput, e.sessionId with
  | true, some id => outputBytes.insert id ((outputBytes[id]?).getD 0 + e.byteLength)
  | _, _ => outputBytes

/-! ## Appending -/

/-- `append` before its first call: encode, and refuse an event that is too large. -/
def beginAppend (cd : Codec) (c : Caller) (events : List Event) : Pc :=
  let batch := events.map fun e => (e, (cd.line e).length)
  if batch.any fun entry => eventLimit < entry.2 then .report c .lost else .write c batch

/-- The first and last sequence of a batch. -/
def batchRange (events : List Event) : Option (Nat × Nat) :=
  match events.head?, events.getLast? with
  | some a, some b => some (a.seq, b.seq)
  | _, _ => none

/-- Take one written event into the reader. -/
def insertEvent (event : Event) (size : Nat) (reader : Reader) : Reader :=
  { state := applyLifecycle
      { reader.state with nextCursor := max reader.state.nextCursor event.seq } event
    events := reader.events.insert event.seq (event, size)
    bytes := reader.bytes + size }

/-- Merge dropped ranges into the reader's gap list. -/
def mergeInto (held : List Gap) (reader : Reader) : Reader :=
  { reader with
    state := { reader.state with
      gaps := mergeGaps reader.state.gaps held
      recordingState := if held = [] then reader.state.recordingState else "partial" } }

/-- The reader section of the idle branch: merge, and cross dropped sequences
    only when the queue is empty. -/
def idleReader (drained : Bool) (held : List Gap) (reader : Reader) : Reader :=
  let reader := mergeInto held reader
  if drained then
    { reader with
      state := { reader.state with
        nextCursor := max reader.state.nextCursor (gapHead reader.state.gaps) } }
  else reader

/-- Whether `append` compacts after retention left `retained` bytes. -/
def wantsCompact (opts : Options) (physical retained : Nat) : Bool :=
  decide (opts.maxBytes + gcBytes / 2 < physical) || decide (gcBytes ≤ physical - retained)

/-- The retained events, oldest first. -/
def Reader.values (reader : Reader) : List Event := reader.events.toList.map (·.2.1)

/-- The events that are in `old` and no longer in `new`. -/
def removedBy (old new : Reader) : List Event :=
  (old.events.toList.filter fun entry => !new.events.contains entry.1).map (·.2.1)

/-- Start-up events: every interrupted lifecycle, then `service.started`. -/
def startupEvents (now : Int) (state : State) : List Event :=
  let interrupted (kind : String) (session : Option Uuid) (old : Event) : Event :=
    { seq := 0
      instanceId := old.instanceId
      timestamp := now
      event := kind
      workflowId := old.workflowId
      sessionId := session
      project := old.project
      requestId := none
      data := .object [("outcome", .text "unknown"), ("reason", .text "core_restart")] }
  state.openSessions.toList.map (fun entry => interrupted "session.interrupted" entry.2.sessionId entry.2)
    ++ state.openWorkflows.toList.map (fun entry => interrupted "workflow.interrupted" none entry.2)
    ++ [{ seq := 0
          instanceId := 0
          timestamp := now
          event := "service.started"
          workflowId := none
          sessionId := none
          project := none
          requestId := none
          data := .object [("instance_id", .uuid state.instanceId)] }]

/-- Give start-up events their sequences. -/
def stampStartup (instanceId : Uuid) : Nat → List Event → List Event
  | _, [] => []
  | next, e :: es => e.numbered instanceId (next + 1) :: stampStartup instanceId (next + 1) es

/-! ## Steps -/

/-- `Sys` with its lifetime and disk replaced. -/
def Sys.with (s : Sys) (disk : Disk) (l : Live) : Sys := { s with disk := disk, live := some l }

/-- Where `compact` returns to. -/
def afterCompact (site : Site) (ok : Bool) : Pc :=
  match site, ok with
  | .init, true => .persist .init
  | .init, false => .aborted none
  | .append c, true => .persist (.append c)
  | .append c, false => .report c .late
  | site, _ => .persist site

/-- Where `persist` returns to, away from start-up. -/
def afterPersist (site : Site) (ok : Bool) (l : Live) : Live :=
  match site with
  | .init => { l with pc := .aborted none }
  | .append c => { l with pc := .report c (if ok then .ok else .late) }
  | .changed => { l with healthy := ok, pc := .health }
  | .retry => { l with healthy := ok, pc := .age }
  | .sweep => { l with pc := .rest }

/-- The end of a successful start-up `persist`: number the start-up events and
    append them. -/
def startAppend (cd : Codec) (now : Int) (l : Live) : Live × List Event :=
  let events := stampStartup l.reader.state.instanceId l.producer
    (startupEvents now l.reader.state)
  let c : Caller := ⟨true, batchRange events, []⟩
  ({ l with producer := l.producer + events.length, pc := beginAppend cd c events }, events)

/-- The events whose waiters receive `Ok`. -/
def Caller.acknowledged (c : Caller) (result : AppendResult) : List Event :=
  if result = .ok then c.acks.flatten else []

/-- `append` has returned to its caller. -/
def finishAppend (c : Caller) (result : AppendResult) (l : Live) : Live :=
  if c.startup then { l with pc := if result = .ok then .recv else .aborted c.range }
  else
    { l with
      healthy := decide (result = .ok)
      pending :=
        if result = .ok then l.pending
        else match c.range with
          | some (first, last) => gap l.pending first last "disk_error"
          | none => l.pending
      pc := .recv }

/-- `run`: receive a message and the ones behind it, and begin to append them. -/
def receiveStep (cd : Codec) (choice : Choice) (s : Sys) (l : Live) : Option Sys :=
  match l.pc, choice with
  | .recv, .done =>
    match l.queue with
    | [] => none
    | m :: queue =>
      some (s.with s.disk { l with
        queue := queue
        queuedBytes := l.queuedBytes - m.bytes
        pc := .collect m.events (if m.ack then [m.events] else []) })
  | .recv, .timeout =>
    if l.queue = [] then some (s.with s.disk { l with pc := .idleTake }) else none
  | .collect events acks, .done =>
    match l.queue with
    | m :: queue =>
      if events.length < 256 then
        some (s.with s.disk { l with
          queue := queue
          queuedBytes := l.queuedBytes - m.bytes
          pc := .collect (events ++ m.events) (if m.ack then acks ++ [m.events] else acks) })
      else
        some (s.with s.disk
          { l with pc := beginAppend cd ⟨false, batchRange events, acks⟩ events })
    | [] =>
      some (s.with s.disk
        { l with pc := beginAppend cd ⟨false, batchRange events, acks⟩ events })
  | _, _ => none

/-- `append`: write and sync the batch, or roll the file back. -/
def writeStep (cd : Codec) (choice : Choice) (s : Sys) (l : Live) : Option Sys :=
  let file := s.disk.journal
  match l.pc, choice with
  | .write c batch, .done =>
    let data := cd.encode (batch.map (·.1))
    some (s.with { s.disk with journal := file.writeAt l.pos data }
      { l with pos := l.pos + data.length, pc := .sync c batch })
  | .write c batch, .wrote n =>
    let data := (cd.encode (batch.map (·.1))).take n
    some (s.with { s.disk with journal := file.writeAt l.pos data }
      { l with pos := l.pos + data.length, pc := .setLen c })
  | .sync c batch, .done =>
    some (s.with { s.disk with journal := file.sync }
      { l with
        physical := l.physical + (cd.encode (batch.map (·.1))).length
        pc := .insert c batch })
  | .sync c _, .failed => some (s.with s.disk { l with pc := .setLen c })
  | .setLen c, .done =>
    some (s.with { s.disk with journal := file.setLen l.physical } { l with pc := .seek c })
  | .setLen c, .failed =>
    some (s.with s.disk { l with stopped := true, pc := .report c .lost })
  | .seek c, .done =>
    some (s.with s.disk { l with pos := l.physical, pc := .report c .lost })
  | .seek c, .failed =>
    some (s.with s.disk { l with stopped := true, pc := .report c .lost })
  | _, _ => none

/-- `append`: publish the durable batch, then retention; and the return to `run`. -/
def publishStep (opts : Options) (choice : Choice) (s : Sys) (l : Live) : Option Sys :=
  match l.pc, choice with
  | .insert c ((event, size) :: rest), .done =>
    let l := { l with reader := insertEvent event size l.reader }
    some (s.with s.disk (match fileTail opts l.tails event with
      | some (id, tails) => { l with tails := tails, pc := .trim c event id rest }
      | none => { l with pc := .insert c rest }))
  | .trim c event id rest, .done =>
    match trimTail opts event id l.tails l.reader with
    | some (tails, reader) =>
      some { s.with s.disk { l with tails := tails, reader := reader } with
        removed := s.removed ++ removedBy l.reader reader }
    | none => some (s.with s.disk { l with pc := .insert c rest })
  | .insert c [], .done =>
    some (s.with s.disk { l with pending := [], pc := .merge c l.pending })
  | .merge c held, .done =>
    some (s.with s.disk { l with reader := mergeInto held l.reader, pc := .prune c })
  | .prune c, .at now =>
    let (tails, reader) := prune opts now l.tails l.reader
    some { s.with s.disk { l with
          tails := tails
          reader := reader
          pc := if wantsCompact opts l.physical reader.bytes then .compact (.append c)
            else .persist (.append c) } with
      removed := s.removed ++ removedBy l.reader reader }
  | .report c result, .done =>
    some { s.with s.disk (finishAppend c result l) with
      acked := s.acked ++ c.acknowledged result }
  | _, _ => none

/-- `compact` and `persist`, from every caller. -/
def saveStep (cd : Codec) (choice : Choice) (s : Sys) (l : Live) : Option Sys :=
  match l.pc, choice with
  | .compact site, .failed => some (s.with s.disk { l with pc := afterCompact site false })
  | .compact site, .done =>
    let data := cd.encode l.reader.values
    some (s.with { s.disk with journal := .durable data }
      { l with physical := data.length, pos := data.length, pc := afterCompact site true })
  | .compact site, .dirSyncFailed =>
    let data := cd.encode l.reader.values
    some (s.with { s.disk with journal := .durable data }
      { l with physical := data.length, pos := data.length, pc := afterCompact site false })
  | .persist site, .failed => some (s.with s.disk (afterPersist site false l))
  | .persist .init, .at now =>
    if stateLimit < cd.stateSize l.reader.state then none
    else
      let (l', events) := startAppend cd now l
      some { s.with { s.disk with state := some l.reader.state } l' with
        created := s.created ++ events }
  | .persist site, .done =>
    if stateLimit < cd.stateSize l.reader.state ∨ site = .init then none
    else
      some (s.with { s.disk with state := some l.reader.state } (afterPersist site true l))
  | .persist site, .dirSyncFailed =>
    if stateLimit < cd.stateSize l.reader.state then none
    else
      some (s.with { s.disk with state := some l.reader.state } (afterPersist site false l))
  | _, _ => none

/-- `run`: the idle branch. -/
def idleStep (opts : Options) (choice : Choice) (s : Sys) (l : Live) : Option Sys :=
  match l.pc, choice with
  | .idleTake, .done =>
    some (s.with s.disk
      { l with pending := [], pc := .idleMerge (decide (l.queuedBytes = 0)) l.pending })
  | .idleMerge drained held, .done =>
    let reader := idleReader drained held l.reader
    let changed := held ≠ [] ∨ l.reader.state.nextCursor ≠ reader.state.nextCursor
    some (s.with s.disk
      { l with reader := reader, pc := if changed then .persist .changed else .health })
  | .health, .done =>
    if l.healthy = false ∧ l.stopped = false then
      some (s.with { s.disk with journal := s.disk.journal.sync } { l with pc := .persist .retry })
    else some (s.with s.disk { l with pc := .age })
  | .health, .failed =>
    if l.healthy = false ∧ l.stopped = false then some (s.with s.disk { l with pc := .age })
    else none
  | .age, .done => some (s.with s.disk { l with pc := .rest })
  | .age, .at now =>
    let (tails, reader) := prune opts now l.tails l.reader
    some { s.with s.disk { l with
          tails := tails
          reader := reader
          pc := if reader.bytes = l.reader.bytes then .rest else .compact .sweep } with
      removed := s.removed ++ removedBy l.reader reader }
  | .rest, .done =>
    some (s.with s.disk { l with pc := if l.stopped then .finished else .recv })
  | _, _ => none

/-- One step of the writer thread. -/
def writerStep (cd : Codec) (opts : Options) (choice : Choice) (s : Sys) (l : Live) :
    Option Sys :=
  match l.pc with
  | .recv | .collect _ _ => receiveStep cd choice s l
  | .write _ _ | .sync _ _ | .setLen _ | .seek _ => writeStep cd choice s l
  | .insert _ _ | .trim _ _ _ _ | .merge _ _ | .prune _ | .report _ _ =>
    publishStep opts choice s l
  | .compact _ | .persist _ => saveStep cd choice s l
  | .idleTake | .idleMerge _ _ | .health | .age | .rest => idleStep opts choice s l
  | .aborted _ | .finished => none

/-- One step of the whole system. -/
def step (cd : Codec) (opts : Options) (a : Act) (s : Sys) : Option Sys :=
  match a, s.live with
  | .record event, some l =>
    if l.pc.started && !l.pc.locksProducer && event.data.isObject
        && (!event.isOutput || outputFits s.outputBytes event) then
      let (l', stamped) := enqueue cd [event] false l
      some { s.with s.disk l' with
        outputBytes := countOutput s.outputBytes event
        created := s.created ++ stamped }
    else none
  | .critical events, some l =>
    -- `critical` is never called with output, and sends at most 64 events at once.
    if l.pc.started && !l.pc.locksProducer && decide (0 < events.length)
        && decide (events.length ≤ 64)
        && events.all fun e => e.data.isObject && !e.isOutput then
      let (l', stamped) := enqueue cd events true l
      some { s.with s.disk l' with created := s.created ++ stamped }
    else none
  | .stop, some l => some (s.with s.disk { l with stopped := true })
  | .writer choice, some l => writerStep cd opts choice s l
  | .crash keep old, _ =>
    some { s with
      disk := { s.disk with journal := s.disk.journal.crash keep old }
      live := none }
  | .start now journalId instanceId, none =>
    match load cd opts now journalId instanceId s.disk with
    | .error _ => none
    | .ok d =>
      some { s.with { s.disk with journal := s.disk.journal.setLen d.position }
          { producer := d.reader.state.nextCursor
            pending := []
            reader := d.reader
            healthy := true
            stopped := false
            queue := []
            queuedBytes := 0
            physical := d.position
            pos := d.position
            tails := d.tails
            pc := .compact .init } with
        removed := s.removed ++ removedBy d.replayed d.reader }
  | _, _ => none

end VivadoServer.History
