/-
  VivadoServer.History.Model

  The data of the durable history journal (`src/history.rs`) and the functions
  on it that touch no file and no lock: the gap list, the lifecycle table, the
  session window (`track_tail`), retention (`prune`) and a reader's page.

  Sequence numbers and byte counts are natural numbers: the code keeps every
  sequence number below `u64::MAX - 1024` at start-up, and one lifetime never
  reserves that many.  A `BTreeMap` or `HashMap` is a `Std.ExtTreeMap`; the one
  place that walks a hash map, the numbering of start-up events, walks it in key
  order here.  `data` is the JSON object every producer builds with
  `json!({..})`; its values are scalars.
-/

import Mathlib

namespace VivadoServer.History

open Std (ExtTreeMap)

abbrev Uuid := Nat

/-! ## Constants -/

def eventLimit : Nat := 32 * 1024
def pageLimit : Nat := 2 * 1024 * 1024
def gcBytes : Nat := 32 * 1024 * 1024
def maxEvents : Nat := 100000
def stateLimit : Nat := 64 * 1024
def format : String := "vivado-history-v1"

/-! ## Events, gaps and the persisted state -/

/-- A scalar of an event's `data`. -/
inductive Scalar where
  | null
  | bool (b : Bool)
  | num (n : Int)
  | text (s : String)
  | uuid (id : Uuid)
deriving DecidableEq, Repr

/-- The JSON value in an event's `data`. -/
inductive Value where
  | object (fields : List (String × Scalar))
  | scalar (s : Scalar)
deriving DecidableEq, Repr

def Value.isObject : Value → Bool
  | .object _ => true
  | .scalar _ => false

/-- `data[key].as_u64()`. -/
def Value.asU64 (v : Value) (key : String) : Option Nat :=
  match v with
  | .object fields =>
    match fields.lookup key with
    | some (.num (.ofNat n)) => some n
    | _ => none
  | .scalar _ => none

structure Event where
  seq : Nat
  instanceId : Uuid
  timestamp : Int
  event : String
  workflowId : Option Uuid
  sessionId : Option Uuid
  project : Option String
  requestId : Option Uuid
  data : Value
deriving DecidableEq, Repr

structure Gap where
  afterSeq : Nat
  throughSeq : Nat
  reason : String
deriving DecidableEq, Repr

/-- The content of `state.json`. -/
structure State where
  format : String
  journalId : Uuid
  instanceId : Uuid
  nextCursor : Nat
  earliestCursor : Nat
  recordingState : String
  gaps : List Gap
  sessionWindows : ExtTreeMap Uuid Nat
  sessionHeadBytes : Nat
  openSessions : ExtTreeMap Uuid Event
  openWorkflows : ExtTreeMap Uuid Event

/-- What a page call sees: the state and the retained events with their sizes. -/
structure Reader where
  state : State
  events : ExtTreeMap Nat (Event × Nat)
  bytes : Nat

/-- One element of the writer's channel; `ack` tells whether somebody waits. -/
structure Message where
  events : List Event
  bytes : Nat
  ack : Bool
deriving DecidableEq, Repr

/-- `HistoryConfig`, less the `enabled` switch. -/
structure Options where
  maxBytes : Nat
  retentionSecs : Nat
  sessionHeadBytes : Nat
  sessionTailBytes : Nat
deriving DecidableEq, Repr

/-- An entry of a session's tail index. -/
structure TailItem where
  seq : Nat
  offset : Nat
  len : Nat
deriving DecidableEq, Repr

/-- `TailWindow`: the retained byte count and the ordered entries. -/
abbrev TailWindow := Nat × List TailItem

abbrev Tails := ExtTreeMap Uuid TailWindow

/-! ## The gap list -/

/-- Drop to at most 128 gaps by merging the two oldest. -/
def capGaps (gaps : List Gap) : List Gap :=
  if 128 < gaps.length then
    match gaps with
    | a :: b :: rest =>
      { afterSeq := min a.afterSeq b.afterSeq
        throughSeq := max a.throughSeq b.throughSeq
        reason := "older_history_gaps" } :: rest
    | _ => gaps
  else gaps

/-- `gap`: record that `first..=last` is unavailable. -/
def gap (gaps : List Gap) (first last : Nat) (reason : String) : List Gap :=
  if last < first then gaps
  else
    let pushed := capGaps (gaps ++ [⟨first - 1, last, reason⟩])
    match gaps.getLast? with
    | some previous =>
      if previous.reason = reason ∧ first ≤ previous.throughSeq + 1 then
        gaps.dropLast ++
          [{ previous with
              afterSeq := min previous.afterSeq (first - 1)
              throughSeq := max previous.throughSeq last }]
      else pushed
    | none => pushed

/-- Move the gaps of `items` into `gaps`, one `gap` call each. -/
def mergeGaps (gaps items : List Gap) : List Gap :=
  items.foldl (fun acc item => gap acc (item.afterSeq + 1) item.throughSeq item.reason) gaps

/-- The highest sequence a gap reaches, `0` when there is none. -/
def gapHead (gaps : List Gap) : Nat :=
  gaps.foldl (fun m g => max m g.throughSeq) 0

/-! ## Lifecycles -/

def applyLifecycle (state : State) (event : Event) : State :=
  match event.event with
  | "session.started" =>
    match event.sessionId with
    | some id => { state with openSessions := state.openSessions.insert id event }
    | none => state
  | "session.finished" | "session.interrupted" =>
    match event.sessionId with
    | some id => { state with openSessions := state.openSessions.erase id }
    | none => state
  | "workflow.created" =>
    match event.workflowId with
    | some id => { state with openWorkflows := state.openWorkflows.insert id event }
    | none => state
  | "workflow.completed" | "workflow.interrupted" =>
    match event.workflowId with
    | some id => { state with openWorkflows := state.openWorkflows.erase id }
    | none => state
  | _ => state

/-! ## The session window -/

def outputKind : String := "session.output"

def Event.isOutput (e : Event) : Bool := e.event == outputKind

def Event.offset (e : Event) : Nat := (e.data.asU64 "byte_offset").getD 0

def Event.byteLength (e : Event) : Nat := (e.data.asU64 "byte_length").getD 0

/-- The first lock-free part of `track_tail`: file the event in its session's
    index.  `none` when the event needs no tracking. -/
def fileTail (opts : Options) (tails : Tails) (event : Event) : Option (Uuid × Tails) :=
  if event.event = outputKind then
    match event.sessionId with
    | none => none
    | some id =>
      let offset := (event.data.asU64 "byte_offset").getD 0
      let len := (event.data.asU64 "byte_length").getD 0
      if offset < opts.sessionHeadBytes then none
      else
        let tail := (tails[id]?).getD (0, [])
        some (id, tails.insert id (tail.1 + len, tail.2 ++ [⟨event.seq, offset, len⟩]))
  else none

/-- Remove a retained event whose window has moved on: one lock section of the
    `while` loop of `track_tail`.  `start` is the new window start. -/
def dropTrimmed (id start : Nat) (seq : Nat) (reader : Reader) : Reader :=
  match reader.events[seq]? with
  | some (_, size) =>
    { reader with
      events := reader.events.erase seq
      bytes := reader.bytes - size
      state := { reader.state with
        sessionWindows := reader.state.sessionWindows.insert id start
        gaps := gap reader.state.gaps seq seq "session_middle_trimmed"
        recordingState := "partial" } }
  | none => reader

/-- One round of the `while` loop of `track_tail` for the event just filed;
    `none` when the window fits. -/
def trimTail (opts : Options) (event : Event) (id : Uuid) (tails : Tails) (reader : Reader) :
    Option (Tails × Reader) :=
  match tails[id]? with
  | none => none
  | some (bytes, items) =>
    if bytes ≤ opts.sessionTailBytes then none
    else
      match items with
      | [] => none
      | item :: rest =>
        let offset := (event.data.asU64 "byte_offset").getD 0
        let start := match rest with
          | [] => offset + item.len
          | front :: _ => front.offset
        some (tails.insert id (bytes - item.len, rest), dropTrimmed id start item.seq reader)

/-- The whole `while` loop, with at most `fuel` rounds. -/
def trimLoop (opts : Options) (event : Event) (id : Uuid) :
    Nat → Tails → Reader → Tails × Reader
  | 0, tails, reader => (tails, reader)
  | fuel + 1, tails, reader =>
    match trimTail opts event id tails reader with
    | none => (tails, reader)
    | some (tails, reader) => trimLoop opts event id fuel tails reader

/-- `track_tail` in one piece, as start-up runs it before anybody can look.  A
    window has one round for each of its entries. -/
def trackTail (opts : Options) (event : Event) (tails : Tails) (reader : Reader) :
    Tails × Reader :=
  match fileTail opts tails event with
  | none => (tails, reader)
  | some (id, tails) =>
    trimLoop opts event id (((tails[id]?).getD (0, [])).2.length) tails reader

/-! ## Retention -/

/-- Remove the oldest retained event: one round of the `while` loop of `prune`. -/
def dropOldest (expired : Bool) (seq size : Nat) (reader : Reader) : Reader :=
  { reader with
    events := reader.events.erase seq
    bytes := reader.bytes - size
    state := { reader.state with
      gaps := gap reader.state.gaps seq seq
        (if expired then "retention_expired" else "spool_limit")
      recordingState := "partial" } }

/-- The `while` loop of `prune` over the retained events, oldest first. -/
def pruneLoop (opts : Options) (cutoff : Int) : List (Nat × (Event × Nat)) → Reader → Reader
  | [], reader => reader
  | (seq, (event, size)) :: rest, reader =>
    let expired := decide (event.timestamp < cutoff)
    if !expired && decide (reader.bytes ≤ opts.maxBytes)
        && decide (reader.events.size ≤ maxEvents) then reader
    else pruneLoop opts cutoff rest (dropOldest expired seq size reader)

/-- Sessions that still have a retained event. -/
def retainedSession (events : ExtTreeMap Nat (Event × Nat)) (id : Uuid) : Bool :=
  events.toList.any fun entry => entry.2.1.sessionId == some id

/-- Drop the leading entries of a window that retention has passed. -/
def dropPassed (firstRetained : Option Nat) : TailWindow → TailWindow
  | (bytes, []) => (bytes, [])
  | (bytes, item :: rest) =>
    if firstRetained.all (item.seq < ·) then dropPassed firstRetained (bytes - item.len, rest)
    else (bytes, item :: rest)

/-- `prune` at the time `now` (milliseconds). -/
def prune (opts : Options) (now : Int) (tails : Tails) (reader : Reader) : Tails × Reader :=
  let cutoff := now - 1000 * opts.retentionSecs
  let reader := pruneLoop opts cutoff reader.events.toList reader
  let first := reader.events.keys.head?
  let tails := (tails.filter fun id _ => retainedSession reader.events id).map
    fun _ tail => dropPassed first tail
  (tails,
    { reader with
      state := { reader.state with
        sessionWindows :=
          reader.state.sessionWindows.filter fun id _ => retainedSession reader.events id
        earliestCursor := match first with
          | some seq => seq - 1
          | none => reader.state.nextCursor } })

/-! ## Reading -/

structure Page where
  journalId : Uuid
  instanceId : Uuid
  events : List Event
  nextCursor : Nat
  earliestCursor : Nat
  headCursor : Nat
  hasMore : Bool
  gaps : List Gap
  recordingState : String

/-- The `for` loop of `page`: the events taken and the last sequence scanned. -/
def pageLoop (limit : Nat) : List (Nat × (Event × Nat)) → List Event → Nat → Nat →
    List Event × Nat
  | [], events, _, next => (events, next)
  | (seq, (event, size)) :: rest, events, bytes, next =>
    if limit ≤ events.length ∨ pageLimit - 64 * 1024 < bytes + size then (events, next)
    else pageLoop limit rest (events ++ [event]) (bytes + size) seq

/-- The retained events strictly above `after`, in order. -/
def Reader.above (reader : Reader) (after : Nat) : List (Nat × (Event × Nat)) :=
  reader.events.toList.filter fun entry => after < entry.1

inductive PageError where
  | badRequest (message : String)
deriving DecidableEq, Repr

/-- `History::page`. -/
def page (reader : Reader) (healthy : Bool) (after limit : Nat) : Except PageError Page :=
  if limit = 0 ∨ 256 < limit then .error (.badRequest "history limit must be 1..256")
  else
    let (events, next) := pageLoop limit (reader.above after) [] 0 after
    let next :=
      if events.length < limit ∧ reader.above next = [] then max next reader.state.nextCursor
      else next
    .ok
      { journalId := reader.state.journalId
        instanceId := reader.state.instanceId
        events := events
        nextCursor := next
        earliestCursor := reader.state.earliestCursor
        headCursor := reader.state.nextCursor
        hasMore := decide (next < reader.state.nextCursor)
        gaps := reader.state.gaps
        recordingState := if healthy then reader.state.recordingState else "unavailable" }

end VivadoServer.History
