/-
  VivadoServer.Diagnostics.View

  What the system looks like from one session: the commands that are not yet done with,
  the flag that the writer is raising, and the archive with its file.  A step of the
  system changes the view of one session at most, and `Sound` relates a session to its
  view whoever comes next.
-/

import VivadoServer.Diagnostics.Archive
import VivadoServer.Diagnostics.Files

namespace VivadoServer.Diagnostics.Archive

open VivadoServer.History (Bytes Uuid prevBoundary sliceTo)
open VivadoServer.Sessions (Text byteLength sliceFrom)

/-! ## Commands -/

/-- The command that the writer is serving. -/
def Next.line : Next → List Command
  | .serve h => [.start h]
  | .loop | .stop => []

def Rest.line : Rest → List Command
  | .drop id text => [.output id text]
  | .sweep next | .close _ next => next.line
  | .stop _ => []

def Place.line : Place → List Command
  | .write id text => [.output id text]
  | .rest r | .disable _ _ r | .flag _ _ r => r.line
  | .look _ _ next | .examine _ _ _ _ next | .observe _ _ _ _ next | .sign _ _ _ _ _ next => next.line
  | .serve h => [.start h]
  | .idle | .release _ | .tick | .gone => []

/-- The commands that are not yet done with, the one in work first. -/
def System.line (s : System) : List Command := s.place.line ++ s.queue

/-- The texts of a session that are to be written. -/
def outputs (id : Uuid) : List Command → List Text
  | [] => []
  | .output id' text :: rest => if id' = id then text :: outputs id rest else outputs id rest
  | .start _ :: rest | .wake :: rest => outputs id rest

/-- How often a session is to be started. -/
def starts (id : Uuid) : List Command → Nat
  | [] => 0
  | .start h :: rest => (if h.sessionId = id then 1 else 0) + starts id rest
  | .output _ _ :: rest | .wake :: rest => starts id rest

/-- No session is started after some of its output. -/
def Precedes (before after : Command) : Prop :=
  ∀ id text h, before = .output id text → after = .start h → h.sessionId ≠ id

def Place.releasing (id : Uuid) : Place → Nat
  | .release id' => if id' = id then 1 else 0
  | _ => 0

def Place.raising (id : Uuid) : Place → Option Issue
  | .disable id' i _ | .flag id' i _ => if id' = id then some i else none
  | _ => none

section Commands

variable {id : Uuid} {l l' : List Command}

theorem outputs_append : outputs id (l ++ l') = outputs id l ++ outputs id l' := by
  induction l with
  | nil => rfl
  | cons c l ih =>
      cases c with
      | start h => exact ih
      | output id' text =>
          rw [List.cons_append, outputs, outputs, ih]
          split
          · rfl
          · rfl
      | wake => exact ih

theorem starts_append : starts id (l ++ l') = starts id l + starts id l' := by
  induction l with
  | nil => exact (Nat.zero_add _).symm
  | cons c l ih =>
      cases c with
      | start h => rw [List.cons_append, starts, starts, ih, Nat.add_assoc]
      | output id' text => exact ih
      | wake => exact ih

/-- Behind some output of a session it is not started. -/
theorem starts_eq_zero {text : Text} (h : ∀ c ∈ l, Precedes (.output id text) c) : starts id l = 0 := by
  induction l with
  | nil => rfl
  | cons c l ih =>
      have hrest := ih fun c hc => h c (List.mem_cons_of_mem _ hc)
      cases c with
      | start header =>
          have hne := h (.start header) List.mem_cons_self id text header rfl rfl
          rw [starts, if_neg hne, hrest]
      | output id' text => exact hrest
      | wake => exact hrest

end Commands

/-! ## Views -/

structure View where
  backlog : List Text
  starts : Nat
  releasing : Nat
  raising : Option Issue
  stored : Option (OpenArchive × Option ArchiveFile)

def System.view (id : Uuid) (s : System) : View where
  backlog := outputs id s.line
  starts := starts id s.line
  releasing := s.place.releasing id
  raising := s.place.raising id
  stored := s.writer.stored id

/-- Nothing is known of the session. -/
structure View.Blank (v : View) : Prop where
  backlog : v.backlog = []
  starts : v.starts = 0
  releasing : v.releasing = 0
  stored : v.stored = none

/-! ## Sessions -/

namespace Producer

/-- A place in the queue is reserved. -/
def reserved : Producer → Nat
  | send _ | unreserve _ _ => 1
  | _ => 0

/-- The text may still go into the queue. -/
def offers : Producer → Bool
  | reserve _ | send _ => true
  | _ => false

/-- The text is going to be dropped. -/
def gaveUp : Producer → Bool
  | flag _ _ | discard _ => true
  | _ => false

def closed : Producer → Bool
  | sealed | timedOut => true
  | _ => false

end Producer

namespace Session

/-- What is in the file, as a text. -/
def archived (p : Session) : Text := (p.records.map Prod.snd).flatten

/-- What is in the file. -/
def recorded (timeText : Int → String) (p : Session) : Bytes :=
  (p.records.map fun r => outputRecord timeText r.1 r.2).flatten

/-- All that was put into the queue has been served. -/
def Settled (info : SessionInfo) (p : Session) : Prop := p.finalInfo = some info ∧ p.pending = 0

/-- A flag is raised, or about to be. -/
def Alarm (v : View) (p : Session) : Prop :=
  (∃ i, p.issues i = true) ∨ v.raising ≠ none ∨ ∃ t i, p.producer = .flag t i

/-- Nothing more is archived. -/
def Blocked (v : View) (p : Session) : Prop :=
  (∃ i, fatal i = true ∧ (p.issues i = true ∨ v.raising = some i)) ∨ v.stored = none ∧ v.starts = 0

/-- The file of an archive that is open. -/
structure InFile (timeText : Int → String) (id : Uuid) (v : View) (p : Session) (a : OpenArchive)
    (file : Option ArchiveFile) : Prop where
  ident : a.id = id
  bytes : a.outputBytes = byteLength p.archived
  file : ∃ f, file = some f ∧
    (Whole a f (startedRecord timeText p.header ++ p.recorded timeText) ∨
      (p.issues .diskError = true ∨ v.raising = some .diskError) ∧ f.content.length ≤ a.position ∧
        ∃ torn, padded a f = startedRecord timeText p.header ++ p.recorded timeText ++ torn)

/-- A footer tells how the session ended. -/
structure Signed (timeText : Int → String) (id : Uuid) (p : Session) (f : Footer) : Prop where
  settled : p.Settled f.info
  tally : f.tally = ⟨p.observed, byteLength p.archived, p.dropped⟩
  truncated : p.dropped ≠ 0 → ∃ i, f.issues i = true
  content : ∃ torn, f.content = startedRecord timeText p.header ++ p.recorded timeText ++ torn ++
    finishedRecord timeText id f.info f.issues f.tally ∧ (f.issues .diskError = false → torn = [])

/-- Every byte that was pushed is in the file, dropped, or on its way. -/
structure Delivered (v : View) (p : Session) : Prop where
  pending : p.pending = v.backlog.length + v.releasing + p.producer.reserved
  queued : p.queued = p.processed ++ v.backlog
  observed : p.observed = byteLength p.pushed % 2 ^ 64
  account : byteLength p.pushed % 2 ^ 64 = (byteLength p.archived + p.dropped +
    byteLength v.backlog.flatten + byteLength p.producer.remaining) % 2 ^ 64
  small : p.dropped < 2 ^ 64
  offered : p.queued.flatten ++ p.producer.remaining = p.pushed ∨
    p.queued.flatten <+: p.pushed ∧ p.disabled = true ∧ p.producer.offers = false
  closed : p.finalInfo ≠ none → p.producer.closed = true
  gaveUp : p.producer.gaveUp = true → p.disabled = true

/-- What holds of a session between any two steps. -/
structure Sound (timeText : Int → String) (id : Uuid) (v : View) (p : Session) : Prop where
  delivered : Delivered v p
  alarmed : p.disabled = true → Alarm v p ∨ p.producer = .timedOut
  lost : p.dropped ≠ 0 → Alarm v p
  kept : p.records.map Prod.snd = p.processed ∨ p.records.map Prod.snd <+: p.processed ∧ Blocked v p
  missing : v.stored = none → v.starts = 0 → Alarm v p ∨ ∃ info, p.Settled info
  fresh : v.starts ≠ 0 → v.starts = 1 ∧ v.stored = none ∧ p.records = []
  file : ∀ a f, v.stored = some (a, f) → InFile timeText id v p a f
  footer : ∀ f, p.footer = some f → v.stored = none ∧ v.starts = 0 ∧ Signed timeText id p f

/-! ## What the task of a session does -/

section Task

variable {timeText : Int → String} {id : Uuid} {v v' : View} {p p' : Session}

/-- The task of a session leaves the work of the writer alone, and a sealed session as it is. -/
structure Moves (p p' : Session) : Prop where
  header : p'.header = p.header
  records : p'.records = p.records
  processed : p'.processed = p.processed
  footer : p'.footer = p.footer
  issues : ∀ i, p.issues i = true → p'.issues i = true
  flag : (∃ t i, p.producer = .flag t i) → (∃ i, p'.issues i = true) ∨ ∃ t i, p'.producer = .flag t i
  sealed : p.finalInfo ≠ none → p'.finalInfo = p.finalInfo ∧ p'.pending = p.pending ∧
    p'.observed = p.observed ∧ p'.dropped = p.dropped ∧ p'.issues .diskError = p.issues .diskError

/-- What a step of the task comes to. -/
def Kept (timeText : Int → String) (id : Uuid) (p : Session) (v' : View) (p' : Session) : Prop :=
  Sound timeText id v' p' ∧ Moves p p'

/-- Another backlog. -/
structure Beside (v v' : View) : Prop where
  starts : v'.starts = v.starts
  raising : v'.raising = v.raising
  stored : v'.stored = v.stored

theorem Beside.refl : Beside v v := ⟨rfl, rfl, rfl⟩

theorem Moves.settled (hm : Moves p p') {info : SessionInfo} (h : p.Settled info) : p'.Settled info := by
  obtain ⟨hinfo, hpending, -⟩ := hm.sealed (by rw [h.1]; rintro ⟨⟩)
  exact ⟨hinfo.trans h.1, hpending.trans h.2⟩

theorem Moves.alarm (hm : Moves p p') (hv : Beside v v') (h : Alarm v p) : Alarm v' p' := by
  obtain ⟨i, hi⟩ | hraising | hflag := h
  · exact .inl ⟨i, hm.issues i hi⟩
  · exact .inr (.inl (hv.raising ▸ hraising))
  · obtain hissue | hflag := hm.flag hflag
    · exact .inl hissue
    · exact .inr (.inr hflag)

theorem Moves.blocked (hm : Moves p p') (hv : Beside v v') (h : Blocked v p) : Blocked v' p' := by
  obtain ⟨i, hfatal, hissue | hraising⟩ | ⟨hstored, hstarts⟩ := h
  · exact .inl ⟨i, hfatal, .inl (hm.issues i hissue)⟩
  · exact .inl ⟨i, hfatal, .inr (hv.raising.trans hraising)⟩
  · exact .inr ⟨hv.stored.trans hstored, hv.starts.trans hstarts⟩

/-- What is left to be shown of a step of the task. -/
theorem Sound.moves (h : Sound timeText id v p) (hv : Beside v v') (hm : Moves p p')
    (hdelivered : Delivered v' p') (halarmed : p'.disabled = true → Alarm v' p' ∨ p'.producer = .timedOut)
    (hlost : p'.dropped ≠ 0 → Alarm v' p') : Kept timeText id p v' p' := by
  have harchived : p'.archived = p.archived := congrArg (fun r => (r.map Prod.snd).flatten) hm.records
  have hrecorded : p'.recorded timeText = p.recorded timeText :=
    congrArg (fun r => (r.map fun r => outputRecord timeText r.1 r.2).flatten) hm.records
  refine ⟨⟨hdelivered, halarmed, hlost, ?_, fun hstored hstarts => ?_, fun hstarts => ?_,
    fun a f hstored => ?_, fun f hf => ?_⟩, hm⟩
  · rw [hm.records, hm.processed]
    exact h.kept.imp_right fun hkept => ⟨hkept.1, hm.blocked hv hkept.2⟩
  · obtain halarm | ⟨info, hsettled⟩ := h.missing (hv.stored ▸ hstored) (hv.starts ▸ hstarts)
    · exact .inl (hm.alarm hv halarm)
    · exact .inr ⟨info, hm.settled hsettled⟩
  · rw [hv.starts] at hstarts
    obtain ⟨hone, hnone, hempty⟩ := h.fresh hstarts
    exact ⟨hv.starts.trans hone, hv.stored.trans hnone, hm.records.trans hempty⟩
  · obtain ⟨hid, hbytes, g, hg, hfile⟩ := h.file a f (hv.stored ▸ hstored)
    refine ⟨hid, by rw [hbytes, harchived], g, hg, ?_⟩
    rw [hm.header, hrecorded, hv.raising]
    exact hfile.imp_right fun htorn => ⟨htorn.1.imp_left (hm.issues _), htorn.2⟩
  · rw [hm.footer] at hf
    obtain ⟨hstored, hstarts, hsettled, htally, htruncated, hcontent⟩ := h.footer f hf
    obtain ⟨-, -, hobserved, hdropped, -⟩ := hm.sealed (by rw [hsettled.1]; rintro ⟨⟩)
    refine ⟨hv.stored.trans hstored, hv.starts.trans hstarts, hm.settled hsettled, ?_, ?_, ?_⟩
    · rw [htally, hobserved, harchived, hdropped]
    · rw [hdropped]
      exact htruncated
    · rw [hm.header, hrecorded]
      exact hcontent

end Task

end Session

end VivadoServer.Diagnostics.Archive
