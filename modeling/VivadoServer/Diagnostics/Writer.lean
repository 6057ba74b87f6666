/-
  VivadoServer.Diagnostics.Writer

  The writer of the PTY archives (`Writer` of `src/diagnostics.rs`): what it does to
  the files of the diagnostics directory, and the budget it keeps.  Only names of the
  form `<uuid>.jsonl` matter, so a file is known by its UUID.

  How a call on the file system ends is a part of what the writer is given; so is the
  time, the order in which a directory is listed, and what the JSON library reads.
-/

import VivadoServer.History.Chunks

namespace VivadoServer.Diagnostics

open VivadoServer.History (Bytes Uuid hyphenated)
open VivadoServer.Sessions (Text TerminationReason byteLength)

def queueLength : Nat := 64

def chunkBytes : Nat := 4096

def footerReserve : Nat := 2048

def FORMAT : String := "vivado-server-pty-v1"

def u64Max : Nat := 2 ^ 64 - 1

/-- `saturating_add` of `u64`. -/
def sat (a b : Nat) : Nat := min (a + b) u64Max

/-! ## Configuration -/

/-- `ObservabilityConfig`, as far as the archives go. -/
structure ObservabilityConfig where
  archiveMaxBytesPerSession : Nat
  archiveMaxTotalBytes : Nat
  archiveRetentionSecs : Nat
  archiveMaxSessions : Nat
deriving DecidableEq, Repr

def ObservabilityConfig.validate (c : ObservabilityConfig) : Except String Unit := do
  (if c.archiveMaxBytesPerSession < 4096 then
    throw "observability.archive_max_bytes_per_session must be at least 4096" else pure ())
  (if c.archiveMaxTotalBytes < c.archiveMaxBytesPerSession then
    throw "observability.archive_max_total_bytes must be at least archive_max_bytes_per_session"
    else pure ())
  (if ¬ (1 ≤ c.archiveMaxSessions ∧ c.archiveMaxSessions ≤ 100000) then
    throw "observability.archive_max_sessions must be between 1 and 100000" else pure ())
  (if ¬ (1 ≤ c.archiveRetentionSecs ∧ c.archiveRetentionSecs ≤ 315360000) then
    throw "observability.archive_retention_secs must be between 1 and 315360000" else pure ())

/-! ## Records -/

inductive Issue where
  | queueFull
  | sessionLimit
  | totalLimit
  | diskError
  | workerStopped
  | drainTimeout
deriving DecidableEq, Repr

def Issue.name : Issue → String
  | queueFull => "queue_full"
  | sessionLimit => "session_limit"
  | totalLimit => "total_limit"
  | diskError => "disk_error"
  | workerStopped => "worker_stopped"
  | drainTimeout => "drain_timeout"

/-- A word of flags. -/
abbrev Issues := Issue → Bool

/-- `issues.fetch_or(flag)`. -/
def Issues.raise (issues : Issues) (flag : Issue) : Issues := fun i => i == flag || issues i

def allIssues : List Issue :=
  [.queueFull, .sessionLimit, .totalLimit, .diskError, .workerStopped, .drainTimeout]

def issueNames (issues : Issues) : List String := (allIssues.filter issues).map Issue.name

/-- What an archive is started with. -/
structure Header where
  sessionId : Uuid
  project : String
  startedAt : Int
deriving DecidableEq, Repr

/-- What an archive is finished with. -/
structure SessionInfo where
  project : String
  endedAt : Option Int
  exitCode : Option Int
  terminationReason : Option TerminationReason
  outputTruncated : Bool
deriving DecidableEq, Repr

/-- The name of a reason in JSON. -/
def reasonName : TerminationReason → String
  | .processExited => "process_exited"
  | .clientRequested => "client_requested"
  | .heartbeatTimeout => "heartbeat_timeout"
  | .serviceShutdown => "service_shutdown"
  | .outputReadFailed => "output_read_failed"
  | .processWaitFailed => "process_wait_failed"
  | .processStartFailed => "process_start_failed"
  | .inputWriteFailed => "input_write_failed"
  | .workflowClosed => "workflow_closed"

def recordBytes (members : List (String × Bytes)) : Bytes := Json.object members ++ [10]

def orNull (value : Option Bytes) : Bytes := value.getD Json.null

/-- What the footer tells of the bytes of a session. -/
structure Tally where
  observed : Nat
  archived : Nat
  dropped : Nat
deriving DecidableEq, Repr

section Records

variable (timeText : Int → String)

def startedRecord (h : Header) : Bytes :=
  recordBytes [("event", Json.str "started"), ("format", Json.str FORMAT),
    ("project", Json.str h.project), ("session_id", Json.str (hyphenated h.sessionId)),
    ("started_at", Json.str (timeText h.startedAt))]

def outputRecord (now : Int) (text : Text) : Bytes :=
  recordBytes [("event", Json.str "output"), ("text", Json.str (String.ofList text)),
    ("timestamp", Json.str (timeText now))]

def finishedRecord (id : Uuid) (info : SessionInfo) (issues : Issues) (tally : Tally) : Bytes :=
  recordBytes [("archive_issues", Json.array ((issueNames issues).map Json.str)),
    ("archive_truncated", Json.bool (allIssues.any issues)),
    ("archived_output_bytes", Json.nat tally.archived),
    ("dropped_bytes", Json.nat tally.dropped),
    ("ended_at", orNull (info.endedAt.map fun t => Json.str (timeText t))),
    ("event", Json.str "finished"),
    ("exit_code", orNull (info.exitCode.map Json.int)),
    ("observed_bytes", Json.nat tally.observed),
    ("output_truncated", Json.bool info.outputTruncated),
    ("project", Json.str info.project),
    ("session_id", Json.str (hyphenated id)),
    ("termination_reason", orNull (info.terminationReason.map fun r => Json.str (reasonName r)))]

end Records

/-! ## Files -/

structure ArchiveFile where
  content : Bytes
  modified : Int
  /-- A regular file with one link. -/
  regular : Bool
deriving DecidableEq, Repr

abbrev Directory := List (Uuid × ArchiveFile)

def Directory.remove (id : Uuid) (d : Directory) : Directory := d.filter fun e => e.1 != id

def Directory.change (id : Uuid) (f : ArchiveFile → ArchiveFile) (d : Directory) : Directory :=
  d.map fun e => if e.1 = id then (e.1, f e.2) else e

/-- Write at a position; a hole before it is filled with zeros. -/
def writeAt (content : Bytes) (position : Nat) (bytes : Bytes) : Bytes :=
  content.take position ++ List.replicate (position - content.length) 0 ++ bytes ++
    content.drop (position + bytes.length)

/-- `BufReader::new(file.take(4096)).read_line`. -/
def firstLine (content : Bytes) : Bytes :=
  let start := content.take 4096
  start.take (start.idxOf 10 + 1)

/-- The string members of a line that is a JSON object. -/
abbrev FromStr := Bytes → Option (String → Option String)

def hasHeader (fromStr : FromStr) (id : Uuid) (f : ArchiveFile) : Bool :=
  match fromStr (firstLine f.content) with
  | none => false
  | some header => header "format" == some FORMAT && header "event" == some "started" &&
      header "session_id" == some (hyphenated id)

/-- A file that retention takes for an archive. -/
def recognized (fromStr : FromStr) (e : Uuid × ArchiveFile) : Bool :=
  e.2.regular && hasHeader fromStr e.1 e.2

/-! ## The writer -/

structure OpenArchive where
  id : Uuid
  /-- Where the next write goes. -/
  position : Nat
  bytes : Nat
  outputBytes : Nat
deriving DecidableEq, Repr

structure Writer where
  options : ObservabilityConfig
  archives : List OpenArchive
  totalBytes : Nat
  directory : Directory
  /-- The archives created so far. -/
  created : List Uuid
  /-- The directory before each change, with the archives created until then. -/
  past : List (Directory × List Uuid)

namespace Writer

def setDirectory (d : Directory) (w : Writer) : Writer :=
  { w with directory := d, past := (w.directory, w.created) :: w.past }

def setArchive (a : OpenArchive) (w : Writer) : Writer :=
  { w with archives := w.archives.map fun b => if b.id = a.id then a else b }

def find (w : Writer) (id : Uuid) : Option OpenArchive := w.archives.find? fun a => a.id == id

/-- Write to the file of an archive. -/
def put (a : OpenArchive) (bytes : Bytes) (time : Int) (w : Writer) : Writer :=
  w.setDirectory (w.directory.change a.id fun f =>
    { f with content := writeAt f.content a.position bytes, modified := time })

end Writer

/-! ## Retention -/

/-- A listed archive. -/
structure Owned where
  id : Uuid
  bytes : Nat
  modified : Int
deriving DecidableEq, Repr

inductive PruneFailure where
  | listing
  | entry (index : Nat)
deriving DecidableEq, Repr

/-- How a pruning goes: the listing, the times at which it looks at the clock, and where
    the file system fails it. -/
structure PruneCourse where
  listing : Directory
  now : Uuid → Int
  failure : Option PruneFailure

section Retention

variable (fromStr : FromStr)

def ownedOf (listing : Directory) : List Owned :=
  ((listing.filter (recognized fromStr)).map fun e => ⟨e.1, e.2.content.length, e.2.modified⟩).mergeSort
    fun a b => decide (a.modified ≤ b.modified)

def isExpired (options : ObservabilityConfig) (now modified : Int) : Bool :=
  decide (options.archiveRetentionSecs * 10 ^ 9 ≤ (now - modified).toNat)

def overCount (w : Writer) (count incoming : Nat) : Bool :=
  decide (w.options.archiveMaxSessions < sat count incoming)

def overBytes (w : Writer) (incoming additional : Nat) : Bool :=
  let reserve := footerReserve * (w.archives.length + incoming)
  decide (w.options.archiveMaxTotalBytes < sat (sat w.totalBytes reserve) additional)

/-- One round of the loop of `prune`; the count goes with the writer. -/
def pruneEntry (incoming additional : Nat) (now : Uuid → Int) (o : Owned) (p : Writer × Nat) :
    Writer × Nat :=
  let (w, count) := p
  if w.archives.any (fun a => a.id == o.id) then (w, count)
  else if isExpired w.options (now o.id) o.modified || overCount w count incoming ||
      overBytes w incoming additional then
    match w.directory.lookup o.id with
    | some f =>
      if recognized fromStr (o.id, f) then
        ({ w.setDirectory (w.directory.remove o.id) with totalBytes := w.totalBytes - o.bytes }, count - 1)
      else (w, count)
    | none => (w, count)
  else (w, count)

/-- `prune`, and whether it went through. -/
def Writer.prune (incoming additional : Nat) (c : PruneCourse) (w : Writer) : Writer × Bool :=
  match c.failure with
  | some .listing => (w, false)
  | failure =>
    let owned := ownedOf fromStr c.listing
    let w := { w with totalBytes := (owned.map Owned.bytes).sum }
    let (examined, ok) := match failure with
      | some (.entry index) => (owned.take index, false)
      | _ => (owned, true)
    ((examined.foldl (fun p o => pruneEntry fromStr incoming additional c.now o p) (w, owned.length)).1, ok)

end Retention

/-! ## Archives -/

/-- How the creation of a file ends: a failed header may stay behind in part. -/
inductive CreateCourse where
  | done
  | failed (leftover : Option Nat)
deriving DecidableEq, Repr

/-- How a failed write is taken back. -/
inductive Rollback where
  | done
  | setLenFailed
  | seekFailed
deriving DecidableEq, Repr

/-- How a write ends: a failed one has written some of the bytes. -/
inductive WriteCourse where
  | done
  | failed (written : Nat) (rollback : Rollback)
deriving DecidableEq, Repr

/-- How a footer is written. -/
inductive FooterCourse where
  | done
  | syncFailed
  | failed (written : Nat)
deriving DecidableEq, Repr

inductive Outcome where
  | archived
  | dropped (issue : Option Issue)
deriving DecidableEq, Repr

section Archives

variable (fromStr : FromStr) (timeText : Int → String)

/-- Whether a record of some bytes and the footers would be too much. -/
def Writer.overTotal (w : Writer) (bytes reserved : Nat) : Bool :=
  decide (w.options.archiveMaxTotalBytes < sat (sat w.totalBytes bytes) reserved)

/-- `start`, less the finishing of others before it; the issue it ends with, if any. -/
def Writer.start (h : Header) (time : Int) (c : PruneCourse) (create : CreateCourse) (w : Writer) :
    Writer × Option Issue :=
  let record := startedRecord timeText h
  let (w, ok) := w.prune fromStr 1 record.length c
  if !ok then (w, some .diskError)
  else
    let reserved := footerReserve * (w.archives.length + 1)
    if w.options.archiveMaxBytesPerSession < record.length + footerReserve then (w, some .sessionLimit)
    else if w.overTotal record.length reserved || decide (w.options.archiveMaxSessions ≤ w.archives.length) then
      (w, some .totalLimit)
    else if (w.directory.lookup h.sessionId).isSome then (w, some .diskError)
    else match create with
      | .done =>
        ({ w.setDirectory (w.directory ++ [(h.sessionId, ⟨record, time, true⟩)]) with
            totalBytes := sat w.totalBytes record.length
            archives := w.archives ++ [⟨h.sessionId, record.length, record.length, 0⟩]
            created := h.sessionId :: w.created }, none)
      | .failed none => (w, some .diskError)
      | .failed (some k) =>
        (w.setDirectory (w.directory ++ [(h.sessionId, ⟨record.take k, time, true⟩)]), some .diskError)

/-- Charge and write a record. -/
def Writer.archive (a : OpenArchive) (record : Bytes) (text : Text) (time : Int) (c : WriteCourse)
    (w : Writer) : Writer × Outcome :=
  let charged := { w with totalBytes := sat w.totalBytes record.length }
  match c with
  | .done =>
    ((charged.put a record time).setArchive { a with
      position := a.position + record.length
      bytes := a.bytes + record.length
      outputBytes := a.outputBytes + byteLength text }, .archived)
  | .failed written rollback =>
    let partly := record.take (min written (record.length - 1))
    let torn := charged.put a partly time
    let cut (w : Writer) : Writer := w.setDirectory (w.directory.change a.id fun f =>
      { f with content := f.content.take a.bytes, modified := time })
    (match rollback with
      | .done => { cut torn with totalBytes := (cut torn).totalBytes - record.length }.setArchive
          { a with position := a.bytes }
      | .setLenFailed => torn.setArchive { a with
          position := a.position + partly.length
          bytes := a.bytes + record.length }
      | .seekFailed => (cut torn).setArchive { a with
          position := a.position + partly.length
          bytes := a.bytes + record.length },
      .dropped (some .diskError))

/-- `output`, given the flags it finds: where the text goes. -/
def Writer.output (id : Uuid) (issues : Issues) (text : Text) (now time : Int) (p : PruneCourse)
    (c : WriteCourse) (w : Writer) : Writer × Outcome :=
  let reserved := footerReserve * w.archives.length
  match w.find id with
  | none => (w, .dropped none)
  | some a =>
    if issues .sessionLimit || issues .totalLimit || issues .diskError then (w, .dropped none)
    else
      let record := outputRecord timeText now text
      if w.options.archiveMaxBytesPerSession < sat (sat a.bytes record.length) footerReserve then
        (w, .dropped (some .sessionLimit))
      else
        let (w, ok) := if w.overTotal record.length reserved then w.prune fromStr 0 record.length p
          else (w, true)
        if !ok then (w, .dropped (some .diskError))
        else if w.overTotal record.length reserved then (w, .dropped (some .totalLimit))
        else w.archive a record text time c

/-- Finish an archive that is ready: whether its footer is in the file. -/
def Writer.finish (a : OpenArchive) (info : SessionInfo) (issues : Issues) (observed dropped : Nat)
    (time : Int) (c : FooterCourse) (w : Writer) : Writer × Bool :=
  let w := { w with archives := w.archives.filter fun b => b.id != a.id }
  let record := finishedRecord timeText a.id info issues ⟨observed, a.outputBytes, dropped⟩
  if record.length ≤ footerReserve then
    let charged := { w with totalBytes := sat w.totalBytes record.length }
    match c with
    | .done | .syncFailed => (charged.put a record time, true)
    | .failed written => (charged.put a (record.take (min written (record.length - 1))) time, false)
  else (w, false)

end Archives

/-- `initialize`: the writer after its first pruning, where that went through. -/
def Writer.initializeDiagnostics (fromStr : FromStr) (options : ObservabilityConfig) (d : Directory)
    (c : PruneCourse) : Option Writer :=
  let (w, ok) := (⟨options, [], 0, d, [], []⟩ : Writer).prune fromStr 0 0 c
  if ok then some { w with past := [] } else none

end VivadoServer.Diagnostics
