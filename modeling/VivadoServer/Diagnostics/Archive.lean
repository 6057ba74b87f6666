/-
  VivadoServer.Diagnostics.Archive

  The archive of a session between the task that pushes its output and the thread that
  writes it (`OutputArchive` and `Writer::run` of `src/diagnostics.rs`).  The two share
  a bounded queue, three counters, two sets of flags and the sealed end of the session.

  One step is one access to what is shared, so that every interleaving is a run.  The
  files belong to the writer alone, and what it does to them is a part of the step that
  looks at the flags first.
-/

import VivadoServer.Diagnostics.Retention
import VivadoServer.Lib.StepSystem
import Mathlib

namespace VivadoServer.Diagnostics.Archive

open VivadoServer.History (Bytes Uuid prevBoundary sliceTo)
open VivadoServer.Sessions (Text byteLength sliceFrom)

/-! ## What is shared -/

inductive Command where
  | start (h : Header)
  | output (id : Uuid) (text : Text)
  | wake
deriving DecidableEq, Repr

/-- Where the task of a session is in `push`, `seal` and `wait`. -/
inductive Producer where
  | ready
  | check (remaining : Text)
  | reserve (remaining : Text)
  | send (remaining : Text)
  | unreserve (remaining : Text) (flag : Issue)
  | disable (remaining : Text) (flag : Issue)
  | flag (remaining : Text) (flag : Issue)
  | discard (remaining : Text)
  | sealed
  | timedOut
deriving DecidableEq, Repr

/-- What is left of the text that is pushed. -/
def Producer.remaining : Producer → Text
  | check t | reserve t | send t | unreserve t _ | disable t _ | flag t _ | discard t => t
  | ready | sealed | timedOut => []

/-- A footer that is in its file, and the file with it. -/
structure Footer where
  info : SessionInfo
  issues : Issues
  tally : Tally
  content : Bytes

/-- `ArchiveState`, with the task that pushes.  What was pushed, what went into the queue
    and was taken out of it, the records in the file and the footer are kept for the
    statements only. -/
structure Session where
  header : Header
  disabled : Bool
  issues : Issues
  observed : Nat
  dropped : Nat
  pending : Nat
  finalInfo : Option SessionInfo
  producer : Producer
  pushed : Text
  queued : List Text
  processed : List Text
  records : List (Int × Text)
  footer : Option Footer

/-- `ArchiveState` as `Diagnostics::start` makes it. -/
def Session.new (h : Header) : Session where
  header := h
  disabled := false
  issues := fun _ => false
  observed := 0
  dropped := 0
  pending := 0
  finalInfo := none
  producer := .ready
  pushed := []
  queued := []
  processed := []
  records := []
  footer := none

/-- `fetch_add` of an `AtomicU64`. -/
def fetchAdd (counter n : Nat) : Nat := (counter + n) % 2 ^ 64

/-! ## The thread of the writer -/

/-- What comes after `finish_ready`. -/
inductive Next where
  | loop
  | serve (h : Header)
  | stop
deriving DecidableEq, Repr

/-- The archives that `finish_ready` found to be ready. -/
abbrev Ready := List (Uuid × SessionInfo)

/-- Where the thread goes on after `issue`. -/
inductive Rest where
  | drop (id : Uuid) (text : Text)
  | sweep (next : Next)
  | close (ready : Ready) (next : Next)
  | stop (interrupted : List Uuid)

/-- Where the thread is. -/
inductive Place where
  | idle
  | write (id : Uuid) (text : Text)
  | release (id : Uuid)
  | rest (r : Rest)
  | look (todo : List Uuid) (ready : Ready) (next : Next)
  | examine (id : Uuid) (info : SessionInfo) (todo : List Uuid) (ready : Ready) (next : Next)
  | observe (id : Uuid) (info : SessionInfo) (issues : Issues) (ready : Ready) (next : Next)
  | sign (id : Uuid) (info : SessionInfo) (issues : Issues) (observed : Nat) (ready : Ready)
      (next : Next)
  | serve (h : Header)
  | tick
  | gone
  | disable (id : Uuid) (flag : Issue) (r : Rest)
  | flag (id : Uuid) (flag : Issue) (r : Rest)

structure System where
  writer : Writer
  place : Place
  queue : List Command
  stopping : Bool
  sessions : Uuid → Option Session

def System.change (id : Uuid) (f : Session → Session) (s : System) : System :=
  { s with sessions := Function.update s.sessions id ((s.sessions id).map f) }

/-- How the calls on the file system go, the clock, and the order of the hash map. -/
structure Course where
  prune : PruneCourse
  create : CreateCourse
  write : WriteCourse
  footer : FooterCourse
  order : List Uuid
  now : Int
  time : Int
  /-- Whether a minute has passed since the last pruning. -/
  minute : Bool

inductive Action where
  /-- `Diagnostics::start` for a new session. -/
  | begin (h : Header)
  | push (id : Uuid) (text : Text)
  | produce (id : Uuid)
  | seal (id : Uuid) (info : SessionInfo)
  | wake
  /-- The waiting of a sealed session times out. -/
  | timeout (id : Uuid)
  | shutdown
  | receive
  /-- Nothing comes for a while, or all senders are gone. -/
  | quiet (disconnected : Bool)
  | work (c : Course)

section Steps

variable (fromStr : FromStr) (timeText : Int → String)

/-- `end` of a chunk. -/
def chunkEnd (remaining : Text) : Nat := prevBoundary remaining (min (byteLength remaining) chunkBytes)

/-- Whether the receiver has gone. -/
def System.closed (s : System) : Bool :=
  match s.place with
  | .gone => true
  | _ => false

/-- `try_send`: the error, if any. -/
def System.trySend (command : Command) (s : System) : System × Option Issue :=
  if s.closed then (s, some .workerStopped)
  else if queueLength ≤ s.queue.length then (s, some .queueFull)
  else ({ s with queue := s.queue ++ [command] }, none)

/-- The loop of `push` goes on while something remains. -/
def again (remaining : Text) : Producer := if remaining = [] then .ready else .check remaining

/-- The next step of `push`, or of `wait` after its time is over. -/
def System.produce (id : Uuid) (p : Session) (s : System) : Option System :=
  match p.producer with
  | .ready | .sealed => none
  | .check remaining =>
    some (s.change id fun p =>
      { p with producer := if p.disabled then .discard remaining else .reserve remaining })
  | .reserve remaining =>
    some (s.change id fun p => { p with pending := p.pending + 1, producer := .send remaining })
  | .send remaining =>
    let chunk := sliceTo remaining (chunkEnd remaining)
    match s.trySend (.output id chunk) with
    | (s, none) => some (s.change id fun p => { p with
        queued := p.queued ++ [chunk]
        producer := again (sliceFrom remaining (chunkEnd remaining)) })
    | (s, some issue) => some (s.change id fun p => { p with producer := .unreserve remaining issue })
  | .unreserve remaining issue =>
    some (s.change id fun p => { p with pending := p.pending - 1, producer := .disable remaining issue })
  | .disable remaining issue =>
    some (s.change id fun p => { p with disabled := true, producer := .flag remaining issue })
  | .flag remaining issue =>
    some (s.change id fun p =>
      { p with issues := p.issues.raise issue, producer := .discard remaining })
  | .discard remaining =>
    some (s.change id fun p =>
      { p with dropped := fetchAdd p.dropped (byteLength remaining), producer := .ready })
  | .timedOut =>
    some (s.change id fun p => { p with issues := p.issues.raise .drainTimeout, producer := .sealed })

/-- `output`, up to the counting of what is dropped. -/
def System.write (c : Course) (id : Uuid) (text : Text) (p : Session) (s : System) : System :=
  match s.writer.output fromStr timeText id p.issues text c.now c.time c.prune c.write with
  | (w, .archived) =>
    { s.change id (fun p => { p with
        records := p.records ++ [(c.now, text)], processed := p.processed ++ [text] }) with
      writer := w, place := .release id }
  | (w, .dropped none) => { s with writer := w, place := .rest (.drop id text) }
  | (w, .dropped (some issue)) => { s with writer := w, place := .disable id issue (.drop id text) }

/-- The last counter is read, and the footer is written. -/
def System.sign (c : Course) (info : SessionInfo) (issues : Issues) (observed : Nat) (ready : Ready)
    (next : Next) (a : OpenArchive) (p : Session) (s : System) : System :=
  match s.writer.finish timeText a info issues observed p.dropped c.time c.footer with
  | (w, true) =>
    let footer : Option Footer := (w.directory.lookup a.id).map fun f =>
      ⟨info, issues, ⟨observed, a.outputBytes, p.dropped⟩, f.content⟩
    { s.change a.id (fun p => { p with footer := footer }) with
      writer := w
      place := match c.footer with
        | .done => .rest (.close ready next)
        | _ => .disable a.id .diskError (.close ready next) }
  | (w, false) => { s with writer := w, place := .disable a.id .diskError (.close ready next) }

/-- What comes when nothing is left to be closed. -/
def System.closeEnd (c : Course) (next : Next) (s : System) : Option System :=
  match next with
  | .loop => some { s with place := .tick }
  | .serve h => some { s with place := .serve h }
  | .stop =>
    if c.order.isPerm (s.writer.archives.map OpenArchive.id) then
      some { s with place := .rest (.stop c.order) }
    else none

def System.workRest (c : Course) (s : System) : Rest → Option System
  | .drop id text =>
    some { s.change id (fun p => { p with
        dropped := fetchAdd p.dropped (byteLength text), processed := p.processed ++ [text] }) with
      place := .release id }
  | .sweep next =>
    if c.order.isPerm (s.writer.archives.map OpenArchive.id) then
      some { s with place := .look c.order [] next }
    else none
  | .close [] next => s.closeEnd c next
  | .close ((id, info) :: ready) next =>
    match s.writer.find id with
    | none => some { s with place := .rest (.close ready next) }
    | some _ => (s.sessions id).map fun p => { s with place := .observe id info p.issues ready next }
  | .stop [] => some { s with place := .gone }
  | .stop (id :: interrupted) => some { s with place := .disable id .workerStopped (.stop interrupted) }

/-- The next step of the writer. -/
def System.work (c : Course) (s : System) : Option System :=
  match s.place with
  | .idle | .gone => none
  | .write id text => (s.sessions id).map fun p => s.write fromStr timeText c id text p
  | .release id =>
    some { s.change id (fun p => { p with pending := p.pending - 1 }) with
      place := .rest (.sweep .loop) }
  | .rest r => s.workRest c r
  | .look [] ready next => some { s with place := .rest (.close ready next) }
  | .look (id :: todo) ready next =>
    (s.sessions id).map fun p =>
      match p.finalInfo with
      | none => { s with place := .look todo ready next }
      | some info => { s with place := .examine id info todo ready next }
  | .examine id info todo ready next =>
    (s.sessions id).map fun p =>
      if p.pending ≠ 0 then { s with place := .look todo ready next }
      else { s with place := .look todo (ready ++ [(id, info)]) next }
  | .observe id info issues ready next =>
    (s.sessions id).map fun p => { s with place := .sign id info issues p.observed ready next }
  | .sign id info issues observed ready next =>
    (s.writer.find id).bind fun a => (s.sessions id).map fun p =>
      s.sign timeText c info issues observed ready next a p
  | .serve h =>
    match s.writer.start fromStr timeText h c.time c.prune c.create with
    | (w, none) => some { s with writer := w, place := .rest (.sweep .loop) }
    | (w, some issue) => some { s with writer := w, place := .disable h.sessionId issue (.sweep .loop) }
  | .tick =>
    some { s with
      writer := if c.minute then (s.writer.prune fromStr 0 0 c.prune).1 else s.writer
      place := .idle }
  | .disable id issue r =>
    some { s.change id (fun p => { p with disabled := true }) with place := .flag id issue r }
  | .flag id issue r =>
    some { s.change id (fun p => { p with issues := p.issues.raise issue }) with place := .rest r }

def step : Action → System → Option System
  | .begin h, s =>
    -- the identifier is new
    if (s.sessions h.sessionId).isSome || s.stopping then none
    else match s.trySend (.start h) with
      | (s, none) => some { s with sessions := Function.update s.sessions h.sessionId (some (.new h)) }
      | (_, some _) => none
  | .push id text, s =>
    (s.sessions id).bind fun p =>
      if p.producer = .ready then
        some (s.change id fun p => { p with
          observed := fetchAdd p.observed (byteLength text)
          pushed := p.pushed ++ text
          producer := again text })
      else none
  | .produce id, s => (s.sessions id).bind fun p => s.produce id p
  | .seal id info, s =>
    (s.sessions id).bind fun p =>
      if p.producer = .ready then
        some (s.change id fun p => { p with finalInfo := some info, producer := .sealed })
      else none
  | .wake, s => some (s.trySend .wake).1
  | .timeout id, s =>
    (s.sessions id).bind fun p =>
      if p.producer = .sealed then
        some (s.change id fun p => { p with disabled := true, producer := .timedOut })
      else none
  | .shutdown, s => some { s with stopping := true }
  | .receive, s =>
    match s.place, s.queue with
    | .idle, .start h :: queue => some { s with place := .rest (.sweep (.serve h)), queue := queue }
    | .idle, .output id text :: queue => some { s with place := .write id text, queue := queue }
    | .idle, .wake :: queue => some { s with place := .rest (.sweep .loop), queue := queue }
    | _, _ => none
  | .quiet disconnected, s =>
    match s.place, s.queue with
    | .idle, [] =>
      some { s with place := .rest (.sweep (if disconnected || s.stopping then .stop else .loop)) }
    | _, _ => none
  | .work c, s => s.work fromStr timeText c

end Steps

end VivadoServer.Diagnostics.Archive
