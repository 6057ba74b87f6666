/-
  VivadoServer.Projects.Marker

  The markers that say which projects may be reused (`src/project.rs`).  A marker
  is a small file that is written aside, flushed and renamed into place; only its
  exact clean content counts.  Every operation is a program of system calls: other
  operations move between two of its calls, any call may fail, and at any moment
  the machine may stop.

  Behind the disk stands a record for each project that no code of the service
  has: what its content is, what it was when it was last called clean, and what
  the callers of the store have been told.
-/

import VivadoServer.Lib.Calls
import VivadoServer.Lib.Tasks
import VivadoServer.Sync.Apply

namespace VivadoServer.Projects

open Sync (FilePath IoError INTERNAL_DIR validateProjectName)

/-! ## A disk that may lose what is not flushed -/

inductive Kind where
  | dir
  | file
  | link
  | other
deriving DecidableEq, Repr

inductive Node where
  | dir
  | file (inode : Nat)
  | link
  | other
deriving DecidableEq, Repr

def Node.kind : Node → Kind
  | dir => .dir
  | file _ => .file
  | link => .link
  | other => .other

structure Inode where
  bytes : List UInt8
  synced : Bool
deriving DecidableEq, Repr

/-- What a name stands for, and what it stood for since its directory was flushed:
    a power failure may bring any of these back. -/
structure Name where
  now : Option Node
  before : List (Option Node)
deriving DecidableEq, Repr

def Name.set (name : Name) (node : Option Node) : Name := ⟨node, name.now :: name.before⟩

/-- The name once its directory is flushed. -/
def Name.flush (name : Name) : Name := ⟨name.now, []⟩

/-- What a power failure leaves. -/
def Name.crash (name : Name) (choice : Nat) : Name :=
  ⟨((name.now :: name.before)[choice]?).getD name.now, []⟩

/-- Names are full paths.  Where a path leads through a link the call fails here: the
    callers check for links before. -/
structure Disk where
  names : FilePath → Name
  inodes : Nat → Inode
  /-- The first inode that is free. -/
  next : Nat

namespace Disk

def look (d : Disk) (path : FilePath) : Except IoError Node :=
  match path.inits.dropLast.find? fun above => above ≠ [] && (d.names above).now ≠ some .dir with
  | some above => if (d.names above).now = none then .error .notFound else .error .notADirectory
  | none =>
    if path = [] then .ok .dir
    else match (d.names path).now with
      | some node => .ok node
      | none => .error .notFound

/-- A path whose directory is there and at which nothing stands. -/
def free (d : Disk) (path : FilePath) : Except IoError Unit :=
  match d.look path with
  | .ok _ => .error .alreadyExists
  | .error .notFound => if d.look path.dropLast = .ok .dir then .ok () else .error .notFound
  | .error e => .error e

def setName (d : Disk) (path : FilePath) (node : Option Node) : Disk :=
  { d with names := Function.update d.names path ((d.names path).set node) }

def setInode (d : Disk) (inode : Nat) (content : Inode) : Disk :=
  { d with inodes := Function.update d.inodes inode content }

/-- A new directory is empty. -/
def makeDir (d : Disk) (path : FilePath) : Disk :=
  Disk.setName { d with
    names := fun p => if path <+: p ∧ p ≠ path then ⟨none, []⟩ else d.names p } path (some .dir)

def makeFile (d : Disk) (path : FilePath) : Disk :=
  { (d.setName path (some (.file d.next))).setInode d.next ⟨[], false⟩ with next := d.next + 1 }

def moveFile (d : Disk) (source target : FilePath) (inode : Nat) : Disk :=
  (d.setName target (some (.file inode))).setName source none

/-- The names in a directory are on the disk. -/
def syncNames (d : Disk) (path : FilePath) : Disk :=
  { d with names := fun p => if p.dropLast = path then (d.names p).flush else d.names p }

def syncAll (d : Disk) : Disk :=
  { d with
    names := fun p => (d.names p).flush
    inodes := fun i => { d.inodes i with synced := true } }

/-- A power failure: each name goes back as far as `names` says, and what was not flushed
    of a file is lost to `bytes`. -/
def crash (d : Disk) (names : FilePath → Nat) (bytes : Nat → List UInt8) : Disk :=
  { d with
    names := fun p => (d.names p).crash (names p)
    inodes := fun i => if (d.inodes i).synced then d.inodes i else ⟨bytes i, true⟩ }

end Disk

/-! ## The store -/

inductive Operation where
  | isClean (project : String)
  | markDirty (project : String)
  | markClean (project : String)
deriving DecidableEq, Repr

def Operation.project : Operation → String
  | isClean project | markDirty project | markClean project => project

/-- What there is to know of a project besides its marker. -/
structure Project where
  /-- The content of the project, and whether all of it is on the disk. -/
  version : Nat
  flushed : Bool
  /-- The content when the project was last called clean. -/
  approved : Nat
  /-- It was called dirty with success, and not called clean since. -/
  dirty : Bool
  /-- The calls of `mark_clean` that are under way, and how many there were. -/
  cleaning : List Nat
  cleans : Nat
  /-- How many calls of `mark_dirty` returned with success. -/
  dirtied : Nat
deriving DecidableEq, Repr

structure Store where
  root : FilePath
  disk : Disk
  /-- `marker_lock`, by the task that has it. -/
  lock : Option Nat
  /-- How often the machine was started. -/
  boot : Nat
  projects : String → Project

namespace Store

def setProject (s : Store) (project : String) (p : Project) : Store :=
  { s with projects := Function.update s.projects project p }

/-- An operation is called. -/
def begin (s : Store) (task : Nat) : Operation → Store
  | .markClean project =>
    let p := s.projects project
    s.setProject project { p with
      approved := p.version, dirty := false
      cleaning := task :: p.cleaning, cleans := p.cleans + 1 }
  | _ => s

/-- An operation returns to a caller who called it when the project was `seen`. -/
def finish (s : Store) (task : Nat) (seen : Project) (ok : Bool) : Operation → Store
  | .isClean _ => s
  | .markClean project =>
    let p := s.projects project
    s.setProject project { p with cleaning := p.cleaning.filter (· ≠ task) }
  | .markDirty project =>
    let p := s.projects project
    if ok then
      s.setProject project { p with
        dirtied := p.dirtied + 1
        -- a call of `mark_clean` beside this one leaves it open which came last
        dirty := p.dirty || (seen.cleaning.isEmpty && p.cleans == seen.cleans) }
    else s

end Store

/-! ## Calls -/

inductive Call where
  | lock
  | unlock
  | symlinkMetadata (path : FilePath)
  | canonicalize (path : FilePath)
  | createDir (path : FilePath)
  /-- `sync_directory` -/
  | syncDirectory (path : FilePath)
  /-- `open_directory` and `syncfs`, until it is not interrupted. -/
  | syncfs (path : FilePath)
  | openMarker (path : FilePath)
  | isFile (marker : Option Nat)
  | read (marker : Option Nat) (limit : Nat)
  | newUuid
  | createNew (path : FilePath)
  | writeAll (inode : Nat) (value : List UInt8)
  | syncAll (inode : Nat)
  | rename (source target : FilePath)
  | removeFile (path : FilePath)
  /-- The result reaches the caller. -/
  | finish (operation : Operation) (seen : Project) (ok : Bool)

def Call.Answer : Call → Type
  | lock | unlock | finish .. => Unit
  | symlinkMetadata _ => Except IoError Kind
  | canonicalize _ => Except IoError FilePath
  | createDir _ | syncDirectory _ | syncfs _ | writeAll .. | syncAll _ | rename ..
  | removeFile _ => Except IoError Unit
  | openMarker _ => Except IoError (Option Nat)
  | isFile _ => Except IoError Bool
  | read .. => Except IoError (List UInt8)
  | newUuid => String
  | createNew _ => Except IoError Nat

/-- What the rest of the world decides of a call. -/
structure Choice where
  /-- The call fails for a reason of its own. -/
  error : Option IoError := none
  /-- What is written before a write fails. -/
  written : Nat := 0
  uuid : String := ""
  /-- Where a link leads. -/
  target : FilePath := []
deriving Repr

/-- A call that fails by itself changes nothing. -/
def unlessFails {α : Type} (s : Store) (choice : Choice) (x : Except IoError (α × Store)) :
    Option (Except IoError α × Store) :=
  match choice.error, x with
  | some e, _ => some (.error e, s)
  | none, .ok (a, s') => some (.ok a, s')
  | none, .error e => some (.error e, s)

def serve (task : Nat) (c : Call) (choice : Choice) (s : Store) : Option (c.Answer × Store) :=
  match c with
  | .lock => if s.lock = none then some ((), { s with lock := some task }) else none
  | .unlock => if s.lock = some task then some ((), { s with lock := none }) else none
  | .symlinkMetadata path =>
    unlessFails s choice ((s.disk.look path).map fun node => (node.kind, s))
  | .canonicalize path =>
    unlessFails s choice ((s.disk.look path).map fun node =>
      (if node = .link then choice.target else path, s))
  | .createDir path =>
    unlessFails s choice ((s.disk.free path).map fun _ =>
      ((), { s with disk := s.disk.makeDir path }))
  | .syncDirectory path =>
    unlessFails s choice (match s.disk.look path with
      | .ok .dir => .ok ((), { s with disk := s.disk.syncNames path })
      | .ok _ => .error .notADirectory
      | .error e => .error e)
  | .syncfs path =>
    unlessFails s choice (match s.disk.look path with
      | .ok .dir => .ok ((), { s with
          disk := s.disk.syncAll
          projects := fun project => { s.projects project with flushed := true } })
      | .ok _ => .error .notADirectory
      | .error e => .error e)
  | .openMarker path =>
    unlessFails s choice (match s.disk.look path with
      | .ok (.file inode) => .ok (some inode, s)
      | .ok .link => .error .failed
      | .ok _ => .ok (none, s)
      | .error e => .error e)
  | .isFile marker => unlessFails s choice (.ok (marker.isSome, s))
  | .read marker limit =>
    unlessFails s choice (match marker with
      | some inode => .ok ((s.disk.inodes inode).bytes.take limit, s)
      | none => .error .failed)
  | .newUuid => some (choice.uuid, s)
  | .createNew path =>
    unlessFails s choice ((s.disk.free path).map fun _ =>
      (s.disk.next, { s with disk := s.disk.makeFile path }))
  | .writeAll inode value =>
    match choice.error with
    | none => some (.ok (), { s with disk := s.disk.setInode inode ⟨value, false⟩ })
    | some e =>
      some (.error e, { s with disk := s.disk.setInode inode ⟨value.take choice.written, false⟩ })
  | .syncAll inode =>
    unlessFails s choice (.ok ((), { s with
      disk := s.disk.setInode inode { s.disk.inodes inode with synced := true } }))
  | .rename source target =>
    unlessFails s choice (match s.disk.look source, s.disk.look target with
      | .ok (.file inode), .ok (.file _) | .ok (.file inode), .ok .link
      | .ok (.file inode), .ok .other =>
        .ok ((), { s with disk := s.disk.moveFile source target inode })
      | .ok (.file inode), .error .notFound =>
        if s.disk.look target.dropLast = .ok .dir then
          .ok ((), { s with disk := s.disk.moveFile source target inode })
        else .error .notFound
      | .ok (.file _), .error e => .error e
      | .ok (.file _), .ok .dir => .error .isADirectory
      | .ok _, _ => .error .failed
      | .error e, _ => .error e)
  | .removeFile path =>
    unlessFails s choice (match s.disk.look path with
      | .ok .dir => .error .isADirectory
      | .ok _ => .ok ((), { s with disk := s.disk.setName path none })
      | .error e => .error e)
  | .finish operation seen ok => some ((), s.finish task seen ok operation)

/-! ## Operations -/

abbrev Marking := Calls.Failing Call Call.Answer AppError

/-- Calls that fail with the error of the system. -/
abbrev Io := Calls.Failing Call Call.Answer IoError

def request (c : Call) : Marking c.Answer := ExceptT.lift (Calls.ask c)

def orInternal {α : Type} (what : String) : Except IoError α → Marking α
  | .ok a => pure a
  | .error e => throw (.internal (what ++ e.text))

def ioError {α : Type} : Except IoError α → Marking α :=
  orInternal "project metadata I/O failed: "

def CLEAN : List UInt8 := [0x63, 0x6c, 0x65, 0x61, 0x6e, 0x0a]

def DIRTY : List UInt8 := [0x64, 0x69, 0x72, 0x74, 0x79, 0x0a]

def metadataRoot (root : FilePath) : FilePath := root ++ [INTERNAL_DIR, "projects"]

/-- Every existing ancestor, before anything could conceal a link. -/
def ensureRealDirectoryChain (path : FilePath) : Marking Unit :=
  path.inits.forM fun current => do
    match ← request (.symlinkMetadata current) with
    | .ok .dir => return ()
    | .ok _ => throw (.badRequest "directory paths must contain only real directories")
    | .error e => throw (.internal ("failed to inspect directory: " ++ e.text))

def ensureSafeProjectRoot (root projectDir : FilePath) : Marking Unit := do
  ensureRealDirectoryChain root
  let canonicalRoot ← orInternal "failed to canonicalize workspace root: "
    (← request (.canonicalize root))
  let kind ← orInternal "failed to inspect project directory: "
    (← request (.symlinkMetadata projectDir))
  if kind ≠ .dir then
    throw (.badRequest "project path must be a real directory, not a symbolic link")
  let canonicalProject ← orInternal "failed to canonicalize project directory: "
    (← request (.canonicalize projectDir))
  if canonicalProject = [] ∨ canonicalProject.dropLast ≠ canonicalRoot then
    throw (.badRequest "project directory escapes workspace_root")

def checkedProjectPath (root : FilePath) (project : String) : Marking FilePath := do
  ensureRealDirectoryChain root
  let path := root ++ [project]
  match ← request (.symlinkMetadata path) with
  | .ok _ => ensureSafeProjectRoot root path
  | .error .notFound => pure ()
  | .error e => ioError (.error e)
  return path

def readClean (root : FilePath) (project : String) : Marking Bool := do
  let projectDir ← checkedProjectPath root project
  ensureSafeProjectRoot root projectDir
  let directory := metadataRoot root ++ [project]
  ensureRealDirectoryChain directory
  let marker ← ioError (← request (.openMarker (directory ++ ["state"])))
  if !(← ioError (← request (.isFile marker))) then
    return false
  let bytes ← ioError (← request (.read marker (CLEAN.length + 1)))
  return bytes == CLEAN

def createRealDirectory (path : FilePath) : Marking Unit := do
  let parent := path.dropLast
  ensureRealDirectoryChain parent
  match ← request (.createDir path) with
  | .ok () =>
    ioError (← request (.syncDirectory path))
    ioError (← request (.syncDirectory parent))
  | .error .alreadyExists => ensureRealDirectoryChain path
  | .error e => ioError (.error e)

/-- The steps of `atomic_marker` that stop at the first error. -/
def replaceMarker (directory destination temporary : FilePath) (value : List UInt8) : Io Unit := do
  let inode ← (ExceptT.mk (Calls.ask (Call.createNew temporary)) : Io Nat)
  (ExceptT.mk (Calls.ask (Call.writeAll inode value)) : Io Unit)
  (ExceptT.mk (Calls.ask (Call.syncAll inode)) : Io Unit)
  (ExceptT.mk (Calls.ask (Call.rename temporary destination)) : Io Unit)
  (ExceptT.mk (Calls.ask (Call.syncDirectory directory)) : Io Unit)

def atomicMarker (directory : FilePath) (value : List UInt8) : Marking Unit := do
  ensureRealDirectoryChain directory
  let destination := directory ++ ["state"]
  match ← request (.symlinkMetadata destination) with
  | .ok .file => pure ()
  | .ok _ => throw (.badRequest "project state must be a regular file")
  | .error .notFound => pure ()
  | .error e => ioError (.error e)
  let uuid : String ← request .newUuid
  let temporary := directory ++ [".state-" ++ uuid]
  let result ← ExceptT.lift (replaceMarker directory destination temporary value).run
  -- the marker, old or new, is never guessed or rolled back
  if !result.isOk then
    let _ ← request (.removeFile temporary)
    pure ()
  ioError result

/-- What is done under the lock. -/
def changeMarker (root : FilePath) (project : String) (clean : Bool) : Marking Unit := do
  let projectDir ← checkedProjectPath root project
  if clean then
    ensureSafeProjectRoot root projectDir
    ioError (← request (.syncfs projectDir))
  let directory := metadataRoot root ++ [project]
  createRealDirectory directory
  atomicMarker directory (if clean then CLEAN else DIRTY)

def writeMarker (root : FilePath) (project : String) (clean : Bool) : Marking Unit := do
  request .lock
  let result ← Calls.Failing.attempt (changeMarker root project clean)
  request .unlock
  ExceptT.mk (pure result)

def Operation.body (root : FilePath) : Operation → Marking Bool
  | isClean project => do
    let result ← (readClean root project).attempt
    -- an unreadable, unknown or linked marker never restores trust
    return match result with
      | .ok clean => clean
      | .error _ => false
  | markDirty project => do writeMarker root project false; return false
  | markClean project => do writeMarker root project true; return true

/-- The whole of an operation, up to the answer to its caller. -/
def Operation.program (root : FilePath) (seen : Project) (operation : Operation) :
    Calls Call Call.Answer (Except AppError Bool) := do
  let result ← ExceptT.run (do
    match validateProjectName operation.project with
    | .ok () => operation.body root
    | .error e => throw e : Marking Bool)
  Calls.ask (Call.finish operation seen result.isOk)
  return result

/-! ## Runs -/

inductive Place where
  | asked (operation : Operation)
  | running (boot : Nat) (seen : Project) (operation : Operation)
      (calls : Calls Call Call.Answer (Except AppError Bool))

inductive Event where
  /-- The service or a process it started changes a project. -/
  | modify (project : String) (version : Nat) (node : Option Node)
  /-- The machine stops and is started again. -/
  | crash (names : FilePath → Nat) (bytes : Nat → List UInt8) (versions : String → Nat)

def Store.modify (s : Store) (project : String) (version : Nat) (node : Option Node) : Store :=
  Store.setProject { s with disk := s.disk.setName (s.root ++ [project]) node } project
    { s.projects project with version, flushed := false }

def Project.crash (p : Project) (version : Nat) : Project :=
  { p with version := if p.flushed then p.version else version, flushed := true, cleaning := [] }

def Store.crash (s : Store) (names : FilePath → Nat) (bytes : Nat → List UInt8)
    (versions : String → Nat) : Store :=
  { s with
    disk := s.disk.crash names bytes
    lock := none
    boot := s.boot + 1
    projects := fun project => (s.projects project).crash (versions project) }

/-- A project changes only where it is known to be dirty. -/
def Store.env : Event → Store → Option Store
  | .modify project version node, s =>
    if (s.projects project).dirty ∧ (validateProjectName project).isOk then
      some (s.modify project version node)
    else none
  | .crash names bytes versions, s => some (s.crash names bytes versions)

def exec (task : Nat) (choice : Choice) (s : Store) :
    Place → Option (Tasks.Outcome Store Place)
  | .asked operation =>
    let seen := s.projects operation.project
    some {
      shared := s.begin task operation
      place := .running s.boot seen operation (operation.program s.root seen) }
  | .running boot seen operation (.call c next) =>
    -- what ran before the machine stopped is gone
    if boot = s.boot then
      (serve task c choice s).map fun (a, shared) =>
        { shared, place := .running boot seen operation (next a) }
    else none
  | .running _ _ _ (.done _) => none

def program : Tasks.Program Store Place Choice Event where
  enter _ s
    | .asked _ => some s
    | .running .. => none
  exec task _ choice s place := exec task choice s place
  env := Store.env

abbrev Sys := Tasks.State Store Place

/-- A machine at rest: all there is is on the disk. -/
structure Store.Fresh (s : Store) : Prop where
  names : ∀ path, (s.disk.names path).before = []
  inodes : ∀ inode, (s.disk.inodes inode).synced = true
  -- no name leads to an inode that is free
  files : ∀ path inode, (s.disk.names path).now = some (.file inode) → inode < s.disk.next
  lock : s.lock = none
  projects : ∀ project, (s.projects project).flushed = true ∧
    (s.projects project).approved = (s.projects project).version ∧
    (s.projects project).dirty = false ∧ (s.projects project).cleaning = []

end VivadoServer.Projects
