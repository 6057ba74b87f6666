/-
  VivadoServer.History.Disk

  The directory `.vivado-server/history-v1` and what `History::initialize`
  reads back from it.

  `events.jsonl` is a byte string.  `synced` bytes of it are known to be
  durable; what was written behind them since the last fsync survives a crash as
  an arbitrary prefix, and so may the bytes of the last write that a rollback
  cut off again (`residue`): the truncation itself was not synced either.
  `state.json` is replaced by a rename, so a crash leaves one whole version of
  it.  `state.next` and `events.next` are scratch files; start-up removes them.

  Serialising is `serde_json`'s: a `Codec` is its `to_vec` and `from_slice` for
  events and the size of a serialised state, with the two facts the journal
  format rests on.
-/

import VivadoServer.History.Model
import VivadoServer.Lib.Lines

namespace VivadoServer.History

abbrev Bytes := List UInt8

/-- `b'\n'`. -/
def newline : UInt8 := 10

/-- `serde_json` on events and states. -/
structure Codec where
  toVec : Event → Bytes
  fromSlice : Bytes → Option Event
  stateSize : State → Nat
  /-- A serialised event reads back, with the line end that follows it. -/
  fromSlice_toVec : ∀ e, fromSlice (toVec e ++ [newline]) = some e
  /-- JSON escapes control characters: a serialised event is one line. -/
  newline_notMem : ∀ e, newline ∉ toVec e

/-- The line an event is written as. -/
def Codec.line (cd : Codec) (e : Event) : Bytes := cd.toVec e ++ [newline]

/-- The lines of a list of events. -/
def Codec.encode (cd : Codec) (es : List Event) : Bytes := es.flatMap cd.line

/-! ## The journal file -/

structure File where
  bytes : Bytes
  synced : Nat
  residue : Bytes
deriving DecidableEq, Repr

def File.empty : File := ⟨[], 0, []⟩

/-- A file whose whole content is durable. -/
def File.durable (bytes : Bytes) : File := ⟨bytes, bytes.length, []⟩

/-- Write `data` at `pos`; a hole below `pos` reads as zeros. -/
def File.writeAt (f : File) (pos : Nat) (data : Bytes) : File :=
  { f with
    bytes := f.bytes.take pos ++ List.replicate (pos - f.bytes.length) 0 ++ data
      ++ f.bytes.drop (pos + data.length)
    synced := min f.synced pos }

/-- `sync_data`. -/
def File.sync (f : File) : File := .durable f.bytes

/-- `set_len`. -/
def File.setLen (f : File) (n : Nat) : File :=
  { bytes := f.bytes.take n ++ List.replicate (n - f.bytes.length) 0
    synced := min f.synced n
    residue := if n < f.bytes.length then f.bytes.drop n else f.residue }

/-- What a crash leaves: the synced bytes and the first `keep` bytes of what was
    written behind them, or (`old`) of what a rollback had cut off there. -/
def File.crash (f : File) (keep : Nat) (old : Bool) : File :=
  .durable (if old then f.bytes.take f.synced ++ f.residue.take keep
    else f.bytes.take (f.synced + keep))

structure Disk where
  state : Option State
  journal : File

/-- An empty directory. -/
def Disk.fresh : Disk := ⟨none, .empty⟩

/-! ## Replay -/

/-- The rule by which start-up leaves a journal line out of the retained events. -/
def retired (state : State) (event : Event) : Bool :=
  decide (event.seq ≤ state.earliestCursor) ||
    (event.event == outputKind &&
      match event.sessionId with
      | none => false
      | some id =>
        match state.sessionWindows[id]? with
        | none => false
        | some start =>
          match event.data.asU64 "byte_offset" with
          | none => false
          | some offset => decide (state.sessionHeadBytes ≤ offset) && decide (offset < start))

/-- The state after an intact line: the head covers it, and its lifecycle counts
    unless the persisted state already knew it. -/
def replayState (persisted : Nat) (event : Event) (state : State) : State :=
  let state := { state with nextCursor := max state.nextCursor event.seq }
  if persisted < event.seq then applyLifecycle state event else state

/-- Take one intact line of `size` bytes into the reader. -/
def replayEvent (persisted : Nat) (event : Event) (size : Nat) (reader : Reader) : Reader :=
  let state := replayState persisted event reader.state
  if retired state event then { reader with state := state }
  else
    { state := state
      events := reader.events.insert event.seq (event, size)
      bytes := reader.bytes + size }

inductive LoadError where
  | unknownFormat
  | stateTooLarge
  | spoolTooLarge
  | invalidEvent
  | sequenceExhausted
deriving DecidableEq, Repr

/-- The line loop of `initialize`: the reader, the length of the intact prefix
    and whether the tail was damaged. -/
def replay (cd : Codec) (persisted : Nat) :
    List Bytes → Nat → Reader → Except LoadError (Reader × Nat × Bool)
  | [], position, reader => .ok (reader, position, false)
  | line :: rest, position, reader =>
    let partialReader :=
      { reader with state := { reader.state with recordingState := "partial" } }
    if eventLimit < line.length ∨ line.getLast? ≠ some newline then
      .ok (partialReader, position, true)
    else
      match cd.fromSlice line with
      | none => .ok (partialReader, position, true)
      | some event =>
        if event.seq = 0 ∨ event.data.isObject = false then .error .invalidEvent
        else
          replay cd persisted rest (position + line.length)
            (replayEvent persisted event line.length reader)

/-- The state of a directory that has none yet. -/
def freshState (opts : Options) (journalId instanceId : Uuid) : State :=
  { format := format
    journalId := journalId
    instanceId := instanceId
    nextCursor := 0
    earliestCursor := 0
    recordingState := "recording"
    gaps := []
    sessionWindows := ∅
    sessionHeadBytes := opts.sessionHeadBytes
    openSessions := ∅
    openWorkflows := ∅ }

/-- Never reuse a sequence that a persisted gap describes. -/
def coverGapHead (state : State) : State :=
  let previous := state.nextCursor
  let head := if state.gaps = [] then previous else gapHead state.gaps
  if previous < head then
    { state with
      gaps := gap state.gaps (previous + 1) head "core_restart_uncommitted"
      nextCursor := head }
  else state

/-- Reserve one sequence for a damaged tail. -/
def coverDamagedTail (damaged : Bool) (state : State) : State :=
  if damaged then
    { state with
      gaps := gap state.gaps (state.nextCursor + 1) (state.nextCursor + 1)
        "incomplete_journal_tail"
      nextCursor := state.nextCursor + 1 }
  else state

/-- The state that start-up begins with: the persisted one, or a new one. -/
def openState (cd : Codec) (opts : Options) (disk : Disk) (journalId instanceId : Uuid) :
    Except LoadError State :=
  match disk.state with
  | some state =>
    if stateLimit < cd.stateSize state then .error .stateTooLarge
    else if state.format ≠ format then .error .unknownFormat
    else .ok { state with
      sessionHeadBytes := opts.sessionHeadBytes
      instanceId := instanceId }
  | none => .ok (freshState opts journalId instanceId)

/-- `u64::MAX - 1024`. -/
def sequenceLimit : Nat := 18446744073709550591

/-- What `initialize` has in memory when it starts to write: the reader after
    replay and cursor recovery, the reader after the tail index was rebuilt and
    retention ran, and the length of the intact journal prefix. -/
structure Loaded where
  replayed : Reader
  reader : Reader
  tails : Tails
  position : Nat

/-- Rebuild the tail index from the retained events, oldest first. -/
def rebuildTails (opts : Options) (reader : Reader) : Tails × Reader :=
  reader.events.toList.foldl (fun acc entry => trackTail opts entry.2.1 acc.1 acc.2) (∅, reader)

/-- `History::initialize` up to its first write. -/
def load (cd : Codec) (opts : Options) (now : Int) (journalId instanceId : Uuid) (disk : Disk) :
    Except LoadError Loaded := do
  let state ← openState cd opts disk journalId instanceId
  if opts.maxBytes + gcBytes < disk.journal.bytes.length then throw .spoolTooLarge
  let (reader, position, damaged) ←
    replay cd state.nextCursor (Lines.split newline disk.journal.bytes) 0 ⟨state, ∅, 0⟩
  let recovered := coverDamagedTail damaged (coverGapHead reader.state)
  if sequenceLimit ≤ recovered.nextCursor then throw .sequenceExhausted
  let replayed := { reader with state := recovered }
  let (tails, reader) := rebuildTails opts replayed
  let (tails, reader) := prune opts now tails reader
  return ⟨replayed, reader, tails, position⟩

end VivadoServer.History
