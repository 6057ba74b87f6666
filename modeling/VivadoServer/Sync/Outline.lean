/-
  VivadoServer.Sync.Outline

  The proof outline of `SyncManager`: what holds of its shared state between any
  two steps (`Sound`), what a call may rely on at each place (`At`), and what a
  step may do to everybody else (`Does`).

  A plan leaves Open only under the write side of its activity lock, and leaves
  Committing only by the call that moved it there, its committer.  So a reader
  of the lock keeps an Open plan open, and the committer keeps its plan
  Committing, whatever the other calls do.
-/

import VivadoServer.Sync.Manager

namespace VivadoServer.Sync

open VivadoServer.History (Uuid)
open VivadoServer.Sessions (Instant)

/-! ## The invariant of one session -/

/-- What is on record in each state of a plan. -/
def Record (state : SyncSessionStatus) (applications : Nat) (result : Option CommitSyncResponse)
    (error : Option AppError) (outcome : Option Application) (missing : Bool) : Prop :=
  match state with
  | .open | .aborted | .expired => applications = 0 ∧ result = none ∧ error = none ∧ outcome = none
  | .committing =>
    applications ≤ 1 ∧ result = none ∧ error = none ∧ outcome = none ∧ missing = false
  | .committed => applications = 1 ∧ error = none ∧ ∃ r, result = some r ∧ outcome = some (.ok r)
  | .failed => applications = 1 ∧ result = none ∧ ∃ e, error = some e ∧ outcome = some (.error e)

abbrev SyncSession.Recorded (x : SyncSession) : Prop :=
  Record x.state x.applications x.result x.error x.outcome x.missingUploads

structure SyncSession.Sound (x : SyncSession) : Prop where
  permit : x.activePermit = x.state.live
  running : x.state.live = true → x.cleanupPending = false ∧ x.finishedAt = none
  finished : x.state.live = false → x.finishedAt.isSome = true
  failures : 0 < x.cleanupFailures → x.cleanupPending = true
  recorded : x.Recorded
  uncommitted : x.state = .open → x.committer = none

/-- A session with other locks and signals. -/
abbrev SyncSession.withLocks (x : SyncSession) (activity : RwLock) (cancelUploads : Bool)
    (notified : Nat) (cleanup : Option Nat) : SyncSession :=
  { x with activity, cancelUploads, notified, cleanup }

theorem SyncSession.Sound.withLocks {x : SyncSession} (h : x.Sound) (activity : RwLock)
    (cancelUploads : Bool) (notified : Nat) (cleanup : Option Nat) :
    (x.withLocks activity cancelUploads notified cleanup).Sound :=
  ⟨h.permit, h.running, h.finished, h.failures, h.recorded, h.uncommitted⟩

/-- Everything of the plan has been removed, and no removal is due. -/
def SyncSession.clean (x : SyncSession) : Prop := x.state.live = false ∧ x.cleanupPending = false

theorem SyncSession.Sound.failures_clean {x : SyncSession} (h : x.Sound) (hclean : x.clean) :
    x.cleanupFailures = 0 := by
  by_contra hpos
  have hpending := h.failures (Nat.pos_of_ne_zero hpos)
  rw [hclean.2] at hpending
  cases hpending

/-- The plan was applied. -/
def SyncSession.applied (x : SyncSession) : Prop := x.state = .committed ∨ x.state = .failed

/-- The one application gives the answer of every later commit. -/
theorem SyncSession.Sound.commitResult {x : SyncSession} (h : x.Sound) (happlied : x.applied) :
    x.outcome = some x.commitResult := by
  have hrecorded := h.recorded
  obtain hstate | hstate := happlied
  · rw [SyncSession.Recorded, hstate] at hrecorded
    obtain ⟨-, -, r, hresult, houtcome⟩ := hrecorded
    rw [houtcome, SyncSession.commitResult, hresult]
  · rw [SyncSession.Recorded, hstate] at hrecorded
    obtain ⟨-, hresult, e, herror, houtcome⟩ := hrecorded
    rw [houtcome, SyncSession.commitResult, hresult, herror]

/-! ## The invariant of the manager -/

def SyncManager.failing (m : SyncManager) (id : Uuid) : Bool :=
  (m.store id).any fun x => 0 < x.cleanupFailures

structure SyncManager.Sound (m : SyncManager) : Prop where
  session : ∀ {id x}, m.store id = some x → x.Sound
  known : ∀ {id}, id ∈ m.sessions → m.store id ≠ none
  nodup : m.sessions.Nodup
  /-- Pruning never takes a plan that is not settled and cleaned. -/
  registered : ∀ {id x}, m.store id = some x → ¬ x.clean → id ∈ m.sessions
  degraded : m.cleanupDegraded = m.sessions.countP m.failing
  permit : ∀ {id x}, m.store id = some x → (x.state.live = true ↔ m.slot = .session id)
  permitKnown : ∀ {id}, m.slot = .session id → m.store id ≠ none
  removed : ∀ {id x}, m.store id = some x → x.clean → m.staging id = none

/-! ## What a step may do -/

/-- What the step of a mover may do to a session. -/
structure SyncSession.Does (mover : Option Nat) (now : Instant) (x y : SyncSession) : Prop where
  project : y.project = x.project
  creator : y.creator = x.creator
  deadline : y.expiresDeadline = x.expiresDeadline
  writer : ∀ n, mover ≠ some n → x.activity.isWriter n = true → y.activity.isWriter n = true
  reader : ∀ n, mover ≠ some n → n ∈ x.activity.readers → n ∈ y.activity.readers
  cleaner : ∀ n, mover ≠ some n → x.cleanup = some n → y.cleanup = some n
  /-- The plan stands still, or moves along the diagram under its lock. -/
  state : y.state = x.state ∨ (x.state.Moves y.state ∧
    (x.state = .open → ∃ n, mover = some n ∧ x.activity.isWriter n = true) ∧
    (x.state = .committing → x.committer.isSome = true ∧ mover = x.committer) ∧
    (y.state = .committing → now < x.expiresDeadline ∧ x.missingUploads = false))
  committer : x.committer.isSome = true → y.committer = x.committer
  applications : y.applications = x.applications ∨
    (x.state = .committing ∧ mover = x.committer ∧ y.applications = x.applications + 1)
  plan : y.state.live = true → y.plan = x.plan
  uploaded : x.state = .committing → y.state = .committing → y.uploadedFiles = x.uploadedFiles
  settled : x.state.live = false →
    y.state = x.state ∧ y.result = x.result ∧ y.error = x.error ∧ y.outcome = x.outcome
  pending : x.state.live = false → x.cleanupPending = false → y.cleanupPending = false
  cleaned : x.cleanupPending = true → y.cleanupPending = true ∨ mover = x.cleanup

/-- What the step of a mover may do to the manager. -/
structure SyncManager.Does (mover : Option Nat) (s t : SyncManager) : Prop where
  clock : s.now ≤ t.now
  creating : ∀ n, mover ≠ some n → s.creating = some n → t.creating = some n
  slot : ∀ n, mover ≠ some n → (s.slot = .creating n ↔ t.slot = .creating n)
  available : s.slot = .available → t.slot = .available ∨ ∃ n, mover = some n ∧ s.creating = some n
  session : ∀ {id x}, s.store id = some x → ∃ y, t.store id = some y ∧ x.Does mover s.now y
  /-- A session appears only in the hands of the call that holds the permit. -/
  fresh : ∀ {id}, s.store id = none → t.store id = none ∨
    ∃ n x, mover = some n ∧ s.creating = some n ∧ s.slot = .creating n ∧
      t.store id = some x ∧ x.creator = n ∧ x.state = .open ∧ x.applications = 0
  registered : ∀ {id}, id ∈ t.sessions → id ∈ s.sessions ∨ s.store id = none
  /-- Pruning takes only what is settled and cleaned. -/
  pruned : ∀ {id x}, s.store id = some x → id ∈ s.sessions → id ∉ t.sessions → x.clean
  gone : ∀ {id x}, s.store id = some x → s.staging id = none → t.staging id = none

namespace SyncSession

theorem Does.refl {mover : Option Nat} {now : Instant} {x : SyncSession} : x.Does mover now x where
  project := rfl
  creator := rfl
  deadline := rfl
  writer _ _ h := h
  reader _ _ h := h
  cleaner _ _ h := h
  state := .inl (rfl)
  committer _ := rfl
  applications := .inl (rfl)
  plan _ := rfl
  uploaded _ _ := rfl
  settled _ := ⟨rfl, rfl, rfl, rfl⟩
  pending _ h := h
  cleaned h := .inl h

/-- A step that only moves locks and signals. -/
theorem Does.withLocks {mover : Option Nat} {now : Instant} {x : SyncSession} {activity : RwLock}
    {cancelUploads : Bool} {notified : Nat} {cleanup : Option Nat}
    (hwriter : ∀ n, mover ≠ some n → x.activity.isWriter n = true → activity.isWriter n = true)
    (hreader : ∀ n, mover ≠ some n → n ∈ x.activity.readers → n ∈ activity.readers)
    (hcleaner : ∀ n, mover ≠ some n → x.cleanup = some n → cleanup = some n) :
    x.Does mover now (x.withLocks activity cancelUploads notified cleanup) :=
  { (Does.refl : x.Does mover now x) with
    writer := hwriter, reader := hreader, cleaner := hcleaner }

end SyncSession

namespace SyncManager

variable {s t : SyncManager} {mover : Option Nat} {id : Uuid} {x y : SyncSession}

@[simp] theorem put_store_self (s : SyncManager) (id : Uuid) (x : SyncSession) :
    (s.put id x).store id = some x := Function.update_self ..

theorem put_store_other {id' : Uuid} (h : id' ≠ id) : (s.put id x).store id' = s.store id' :=
  Function.update_of_ne h ..

@[simp] theorem putStaging_self (s : SyncManager) (id : Uuid) (files : Option Staging) :
    (s.putStaging id files).staging id = files := Function.update_self ..

theorem putStaging_other {id' : Uuid} {files : Option Staging} (h : id' ≠ id) :
    (s.putStaging id files).staging id' = s.staging id' := Function.update_of_ne h ..

theorem Does.refl : s.Does mover s where
  clock := Nat.le_refl _
  creating _ _ h := h
  slot _ _ := Iff.rfl
  available h := .inl h
  session h := ⟨_, h, .refl⟩
  fresh h := .inl h
  registered h := .inl h
  pruned _ h h' := absurd h h'
  gone _ h := h

/-- A step on one session. -/
theorem Does.put (hx : s.store id = some x) (hy : x.Does mover s.now y) : s.Does mover (s.put id y) where
  clock := Nat.le_refl _
  creating _ _ h := h
  slot _ _ := Iff.rfl
  available h := .inl h
  session {id' x'} h := by
    by_cases hid : id' = id
    · subst hid
      rw [hx] at h
      cases h
      exact ⟨y, put_store_self .., hy⟩
    · exact ⟨x', (put_store_other hid).trans h, .refl⟩
  fresh {id'} h := by
    have hid : id' ≠ id := by
      rintro rfl
      rw [hx] at h
      cases h
    exact .inl ((put_store_other hid).trans h)
  registered h := .inl h
  pruned _ h h' := absurd h h'
  gone _ h := h

/-- A step on one staging directory. -/
theorem Does.putStaging {files : Option Staging}
    (hgone : ∀ x, s.store id = some x → s.staging id = none → files = none) :
    s.Does mover (s.putStaging id files) where
  __ := (Does.refl : s.Does mover s)
  gone {id' x} hx h := by
    by_cases hid : id' = id
    · subst hid
      exact (putStaging_self ..).trans (hgone x hx h)
    · exact (putStaging_other hid).trans h

/-! ## The invariant under the updates -/

/-- Counting what fails after one session changed. -/
theorem countP_failing_put (hx : s.store id = some x) (hnodup : s.sessions.Nodup)
    (hgone : id ∉ s.sessions → x.cleanupFailures = 0 ∧ y.cleanupFailures = 0) :
    s.sessions.countP (s.put id y).failing + (if 0 < x.cleanupFailures then 1 else 0) =
      s.sessions.countP s.failing + (if 0 < y.cleanupFailures then 1 else 0) := by
  have hcount : ∀ as : List Uuid, id ∉ as →
      as.countP (s.put id y).failing = as.countP s.failing := by
    intro as hnot
    exact List.countP_congr fun a ha => by
      have hne : a ≠ id := fun heq => hnot (heq ▸ ha)
      simp only [failing, put_store_other hne]
  by_cases hid : id ∈ s.sessions
  · have hself : (s.put id y).failing id = decide (0 < y.cleanupFailures) := by simp [failing]
    have hself' : s.failing id = decide (0 < x.cleanupFailures) := by simp [failing, hx]
    obtain ⟨as, bs, hsplit⟩ := List.append_of_mem hid
    rw [hsplit] at hnodup ⊢
    have hnot : id ∉ as ∧ id ∉ bs := by
      simpa using (List.nodup_cons.mp (List.nodup_middle.mp hnodup)).1
    simp only [List.countP_append, List.countP_cons, hcount as hnot.1, hcount bs hnot.2, hself,
      hself', decide_eq_true_eq]
    omega
  · obtain ⟨hx0, hy0⟩ := hgone hid
    rw [hcount _ hid, hx0, hy0]

/-- One session changes, and the slot and the counter with it. -/
theorem Sound.update (h : s.Sound) (hx : s.store id = some x) (hy : y.Sound) (slot : Permit)
    (degraded : Nat) (hregistered : ¬ y.clean → ¬ x.clean)
    (hdegraded : degraded + (if 0 < x.cleanupFailures then 1 else 0) =
      s.cleanupDegraded + (if 0 < y.cleanupFailures then 1 else 0))
    (hpermit : y.state.live = true ↔ slot = .session id)
    (hothers : ∀ id', id' ≠ id → (s.slot = .session id' ↔ slot = .session id'))
    (hremoved : y.clean → s.staging id = none) :
    ({ s with slot, cleanupDegraded := degraded }.put id y).Sound := by
  have hstore : ∀ {id' x'}, ({ s with slot, cleanupDegraded := degraded }.put id y).store id' =
      some x' → (id' = id ∧ x' = y) ∨ (id' ≠ id ∧ s.store id' = some x') := by
    intro id' x' h'
    by_cases hid : id' = id
    · subst hid
      rw [put_store_self] at h'
      exact .inl ⟨rfl, (Option.some.inj h').symm⟩
    · rw [put_store_other hid] at h'
      exact .inr ⟨hid, h'⟩
  have hknown : ∀ {id'}, s.store id' ≠ none →
      ({ s with slot, cleanupDegraded := degraded }.put id y).store id' ≠ none := by
    intro id' h'
    by_cases hid : id' = id
    · subst hid
      rw [put_store_self]
      rintro ⟨⟩
    · rw [put_store_other hid]
      exact h'
  constructor
  case session =>
    intro id' x' h'
    obtain ⟨-, rfl⟩ | ⟨-, h'⟩ := hstore h'
    · exact hy
    · exact h.session h'
  case known => exact fun h' => hknown (h.known h')
  case nodup => exact h.nodup
  case registered =>
    intro id' x' h' hclean
    obtain ⟨rfl, rfl⟩ | ⟨-, h'⟩ := hstore h'
    · exact h.registered hx (hregistered hclean)
    · exact h.registered h' hclean
  case degraded =>
    have hcount := countP_failing_put (y := y) hx h.nodup fun hgone => by
      have hxclean : x.clean := by
        by_contra hclean
        exact hgone (h.registered hx hclean)
      have hyclean : y.clean := by
        by_contra hclean
        exact hregistered hclean hxclean
      exact ⟨(h.session hx).failures_clean hxclean, hy.failures_clean hyclean⟩
    have hsame : s.sessions.countP ({ s with slot, cleanupDegraded := degraded }.put id y).failing =
        s.sessions.countP (s.put id y).failing := rfl
    have hbefore := h.degraded
    show degraded = s.sessions.countP _
    omega
  case permit =>
    intro id' x' h'
    show _ ↔ slot = _
    obtain ⟨rfl, rfl⟩ | ⟨hid, h'⟩ := hstore h'
    · exact hpermit
    · exact (h.permit h').trans (hothers id' hid)
  case permitKnown =>
    intro id' hslot
    by_cases hid : id' = id
    · exact hknown (by rw [hid, hx]; rintro ⟨⟩)
    · exact hknown (h.permitKnown ((hothers id' hid).mpr hslot))
  case removed =>
    intro id' x' h' hclean
    show s.staging id' = none
    obtain ⟨rfl, rfl⟩ | ⟨-, h'⟩ := hstore h'
    · exact hremoved hclean
    · exact h.removed h' hclean

/-- A session changes without its permit, its failures or its end. -/
theorem Sound.put (h : s.Sound) (hx : s.store id = some x) (hy : y.Sound)
    (hlive : y.state.live = x.state.live) (hclean : y.clean ↔ x.clean)
    (hfailures : y.cleanupFailures = x.cleanupFailures) : (s.put id y).Sound :=
  h.update hx hy s.slot s.cleanupDegraded (mt hclean.mpr) (by rw [hfailures])
    (by rw [hlive]; exact h.permit hx) (fun _ _ => Iff.rfl) (fun hyclean => h.removed hx (hclean.mp hyclean))

/-- A step that only moves the locks and signals of a session. -/
theorem Sound.put_locks (h : s.Sound) (hx : s.store id = some x) (activity : RwLock)
    (cancelUploads : Bool) (notified : Nat) (cleanup : Option Nat) :
    (s.put id (x.withLocks activity cancelUploads notified cleanup)).Sound :=
  h.put hx ((h.session hx).withLocks ..) (rfl) Iff.rfl (rfl)

/-- A step that changes no session and no directory of one. -/
theorem Sound.putStaging {files : Option Staging} (h : s.Sound)
    (hclean : ∀ x, s.store id = some x → x.clean → files = none) : (s.putStaging id files).Sound where
  __ := h
  removed {id' x'} h' hclean' := by
    by_cases hid : id' = id
    · subst hid
      exact (putStaging_self ..).trans (hclean x' h' hclean')
    · exact (putStaging_other hid).trans (h.removed h' hclean')

end SyncManager

/-! ## What a call relies on at each place -/

/-- The session exists and has the property. -/
def SyncManager.Has (m : SyncManager) (id : Uuid) (P : SyncSession → Prop) : Prop :=
  ∃ x, m.store id = some x ∧ P x

/-- The plan is past its deadline, and was not committed in time. -/
def SyncSession.Lapsed (now : Instant) (x : SyncSession) : Prop :=
  x.expiresDeadline ≤ now ∧ x.state ≠ .committing ∧ ¬ x.applied

/-- The call is the committer of the plan, which it applied `n` times so far. -/
def SyncSession.Applying (task n : Nat) (x : SyncSession) : Prop :=
  x.state = .committing ∧ x.committer = some task ∧ x.applications = n

/-- The plans of the project that still have to be settled are in `rest`. -/
def SyncManager.SettledBut (m : SyncManager) (project : String) (rest : List Uuid) : Prop :=
  ∀ id x, m.store id = some x → x.project = project → x.clean ∨ id ∈ rest

/-- The call holds the `creating` mutex. -/
def AbortThen.creates : AbortThen → Bool
  | .abortOpen .. => true
  | _ => false

def CleanupThen.creates : CleanupThen → Bool
  | .abort after => after.creates
  | _ => false

def PruneThen.creates : PruneThen → Bool
  | .plan .. => true
  | .cleanup _ _ after => after.creates
  | .reap _ => false

def Place.creates : Place → Bool
  | .planPermit .. | .planWork .. | .planStaging .. | .planCheck .. | .planReject ..
  | .planInsert .. | .planRefused .. | .abortOpenSnapshot .. | .abortOpenNext ..
  | .abortOpenDone .. | .orphansSlot | .orphansRemove | .orphansDone .. => true
  | .abortSession _ _ after | .abortWait _ _ after | .abortLock _ _ after _
  | .abortDecide _ _ after _ | .abortNotified _ _ after _ | .abortNotify _ _ after => after.creates
  | .cleanup _ after | .cleanupCheck _ after | .cleanupRemove _ after | .cleanupRecord _ _ after
  | .cleanupDone _ _ after => after.creates
  | .prune after | .pruneScan _ _ after | .pruneRemove _ after => after.creates
  | _ => false

/-- The call holds the permit of a plan that is not in the store yet. -/
def Place.permit : Place → Bool
  | .planWork .. | .planStaging .. | .planCheck .. | .planReject .. | .planInsert .. => true
  | _ => false

/-- The session whose activity the call holds exclusively. -/
def CleanupThen.writes (id : Uuid) : CleanupThen → Option Uuid
  | .abort _ => some id
  | _ => none

def PruneThen.writes : PruneThen → Option Uuid
  | .cleanup id _ after => after.writes id
  | _ => none

def Place.writes : Place → Option Uuid
  | .commitDecide id | .abortDecide id _ _ _ | .abortNotify id _ _ => some id
  | .cleanup id after | .cleanupCheck id after | .cleanupRemove id after
  | .cleanupRecord id _ after | .cleanupDone id _ after => after.writes id
  | .prune after | .pruneScan _ _ after | .pruneRemove _ after => after.writes
  | _ => none

/-- The session whose activity the call shares. -/
def Place.reads : Place → Option Uuid
  | .uploadCheck id .. | .uploadPrepare id .. | .uploadBody id .. | .uploadReplace id ..
  | .uploadRecord id .. | .uploadFailed id .. => some id
  | _ => none

/-- The session whose `cleanup` mutex the call holds. -/
def PruneThen.cleans : PruneThen → Option Uuid
  | .cleanup id _ _ => some id
  | _ => none

def Place.cleans : Place → Option Uuid
  | .cleanupCheck id _ | .cleanupRemove id _ | .cleanupRecord id _ _ | .cleanupDone id _ _ =>
    some id
  | .prune after | .pruneScan _ _ after | .pruneRemove _ after => after.cleans
  | _ => none

/-- What the rest of the call knows of the session while `abort_session` runs on it. -/
def AbortThen.Fact (m : SyncManager) (id : Uuid) : AbortThen → Prop
  | .expired => m.Has id (·.Lapsed m.now)
  | .abortOpen project rest => m.SettledBut project (id :: rest)
  | _ => True

/-- What it knows while `cleanup_session` runs; the plan is settled then. -/
def CleanupThen.Fact (m : SyncManager) (id : Uuid) : CleanupThen → Prop
  | .abort after => after.Fact m id ∧ m.Has id (·.state.live = false)
  | .commit outcome => m.Has id fun x => x.applied ∧ x.outcome = some outcome
  | .reap _ _ => m.Has id (·.state.live = false)

/-- A removal that reported success left nothing. -/
def SyncManager.Cleaned (m : SyncManager) (id : Uuid) (result : Except AppError Unit) : Prop :=
  result = .ok () → m.Has id (·.clean)

def PruneThen.Fact (m : SyncManager) : PruneThen → Prop
  | .cleanup id result after => after.Fact m id ∧ m.Cleaned id result
  | _ => True

def Place.Fact (task : Nat) (m : SyncManager) : Place → Prop
  | .planCheck _ id _ | .planReject id _ | .planInsert _ id _ => m.store id = none
  | .uploadPrepare id _ _ | .uploadBody id _ _ | .uploadReplace id _ _ _ =>
    m.Has id (·.state = .open)
  | .commitStart id owned => m.Has id fun x => x.Applying task 0 ∧ x.plan = owned
  | .commitApply id owned => m.Has id fun x => x.Applying task 1 ∧ x.plan = owned
  | .commitSettle id _ => m.Has id (·.Applying task 1)
  | .commitNotify id outcome => m.Has id fun x => x.applied ∧ x.outcome = some outcome
  | .abortOpenNext project rest => m.SettledBut project rest
  | .abortOpenDone project result => result = .ok () → m.SettledBut project []
  | .abortSession id terminal after | .abortWait id terminal after | .abortLock id terminal after _
  | .abortDecide id terminal after _ | .abortNotified id terminal after _ =>
    after.Fact m id ∧ (terminal = .aborted ∨ terminal = .expired)
  | .abortNotify id result after => after.Fact m id ∧ m.Cleaned id result
  | .cleanup id after | .cleanupCheck id after => after.Fact m id
  | .cleanupRemove id after =>
    after.Fact m id ∧ m.Has id fun x => x.state.live = false ∧ x.cleanupPending = true
  | .cleanupRecord id result after =>
    after.Fact m id ∧ (m.Has id fun x => x.state.live = false ∧ x.cleanupPending = true) ∧
      (result = .ok () → m.staging id = none)
  | .cleanupDone id result after => after.Fact m id ∧ m.Cleaned id result
  | .prune after => after.Fact m
  | .pruneScan _ finished after | .pruneRemove finished after =>
    after.Fact m ∧ ∀ entry ∈ finished, m.Has entry.1 (·.clean)
  | .orphansRemove => m.slot = .available
  | .leave (.ok (.plan response)) | .done (.ok (.plan response)) =>
    m.Has response.syncId fun x => x.creator = task
  | _ => True

/-- An id that no call has: it created no plan and is about to create none. -/
structure SyncManager.Idle (task : Nat) (m : SyncManager) : Prop where
  slot : m.slot ≠ .creating task
  creator : ∀ {id x}, m.store id = some x → x.creator ≠ task

/-- The locks a call holds at a place, and what it knows there. -/
structure Place.At (task : Nat) (m : SyncManager) (p : Place) : Prop where
  creates : p.creates = true → m.creating = some task
  permit : p.permit = true → m.slot = .creating task
  writes : ∀ id, p.writes = some id → m.Has id (·.activity.isWriter task = true)
  reads : ∀ id, p.reads = some id → m.Has id (task ∈ ·.activity.readers)
  cleans : ∀ id, p.cleans = some id → m.Has id (·.cleanup = some task)
  fact : p.Fact task m

/-! ## Stability -/

section Stability

variable {mover : Option Nat} {task : Nat} {s t : SyncManager}

/-- A property of a session that the step of the mover keeps. -/
theorem SyncManager.Has.mono {id : Uuid} {P Q : SyncSession → Prop} (h : s.Has id P)
    (hdoes : s.Does mover t) (hkeep : ∀ x y, x.Does mover s.now y → P x → Q y) : t.Has id Q := by
  obtain ⟨x, hx, hP⟩ := h
  obtain ⟨y, hy, hxy⟩ := hdoes.session hx
  exact ⟨y, hy, hkeep x y hxy hP⟩

theorem SyncSession.Does.settled_state {now : Instant} {x y : SyncSession}
    (h : x.Does mover now y) (hlive : x.state.live = false) : y.state.live = false := by
  rw [(h.settled hlive).1]
  exact hlive

theorem SyncSession.Does.clean {now : Instant} {x y : SyncSession} (h : x.Does mover now y)
    (hclean : x.clean) : y.clean :=
  ⟨h.settled_state hclean.1, h.pending hclean.1 hclean.2⟩

theorem SyncSession.applied.settled {x : SyncSession} (h : x.applied) : x.state.live = false := by
  obtain h | h := h <;> rw [h] <;> rfl

theorem SyncSession.Does.applied {now : Instant} {x y : SyncSession} (h : x.Does mover now y)
    (happlied : x.applied) : y.applied ∧ y.outcome = x.outcome := by
  obtain ⟨hstate, -, -, houtcome⟩ := h.settled happlied.settled
  exact ⟨by rwa [SyncSession.applied, hstate], houtcome⟩

/-- A plan that leaves Open without being committed is aborted or expired. -/
theorem SyncSessionStatus.Moves.closes {a b : SyncSessionStatus} (h : a.Moves b)
    (ha : a ≠ .committing) (hb : b ≠ .committing) : b = .aborted ∨ b = .expired := by
  cases h with
  | commit => exact absurd rfl hb
  | committed | failed => exact absurd rfl ha
  | abort => exact .inl rfl
  | expire => exact .inr rfl

/-- A plan is not committed after its deadline. -/
theorem SyncSession.Does.lapsed {now later : Instant} {x y : SyncSession} (h : x.Does mover now y)
    (hnow : now ≤ later) (hlapsed : x.Lapsed now) : y.Lapsed later := by
  obtain ⟨hdeadline, hcommitting, happlied⟩ := hlapsed
  refine ⟨by rw [h.deadline]; exact Nat.le_trans hdeadline hnow, ?_⟩
  obtain hsame | ⟨hmoves, -, -, hguard⟩ := h.state
  · rw [SyncSession.applied, hsame]
    exact ⟨hcommitting, happlied⟩
  · have hne : y.state ≠ .committing := fun hy => absurd (hguard hy).1 (Nat.not_lt.mpr hdeadline)
    obtain hy | hy := hmoves.closes hcommitting hne <;> rw [SyncSession.applied, hy] <;> decide

/-- While a call shares the activity, nobody else takes the plan out of Open. -/
theorem SyncSession.Does.stays_open {now : Instant} {x y : SyncSession} (h : x.Does mover now y)
    (hreader : task ∈ x.activity.readers) (hopen : x.state = .open) : y.state = .open := by
  obtain hsame | ⟨-, hwriter, -, -⟩ := h.state
  · exact hsame.trans hopen
  · obtain ⟨n, -, hn⟩ := hwriter hopen
    exact absurd hreader (RwLock.not_mem_readers hn)

/-- Nobody but the committer takes the plan out of Committing. -/
theorem SyncSession.Does.applying {now : Instant} {x y : SyncSession} {n : Nat}
    (h : x.Does mover now y) (hne : mover ≠ some task) (happlying : x.Applying task n) :
    y.Applying task n := by
  obtain ⟨hstate, hcommitter, hcount⟩ := happlying
  refine ⟨?_, (h.committer (by rw [hcommitter]; rfl)).trans hcommitter, ?_⟩
  · obtain hsame | ⟨-, -, hguard, -⟩ := h.state
    · exact hsame.trans hstate
    · exact absurd ((hguard hstate).2.trans hcommitter) hne
  · obtain hsame | ⟨-, hmover, -⟩ := h.applications
    · exact hsame.trans hcount
    · exact absurd (hmover.trans hcommitter) hne

/-- No session appears while somebody else holds the `creating` mutex. -/
theorem SyncManager.Does.nothing_fresh (hdoes : s.Does mover t) (hne : mover ≠ some task)
    (hcreating : s.creating = some task) : ∀ id, s.store id = none → t.store id = none := by
  intro id hnone
  obtain hnone' | ⟨n, x, hmover, hn, -⟩ := hdoes.fresh hnone
  · exact hnone'
  · rw [hcreating] at hn
    cases hn
    exact absurd hmover hne

theorem SyncManager.SettledBut.mono {project : String} {rest : List Uuid}
    (h : s.SettledBut project rest) (hdoes : s.Does mover t)
    (hfresh : ∀ id, s.store id = none → t.store id = none) : t.SettledBut project rest := by
  intro id y hy hproject
  cases hx : s.store id with
  | none =>
      rw [hfresh id hx] at hy
      cases hy
  | some x =>
      obtain ⟨y', hy', hxy⟩ := hdoes.session hx
      rw [hy] at hy'
      cases hy'
      exact (h id x hx (hxy.project ▸ hproject)).imp_left hxy.clean

theorem SyncManager.Cleaned.mono {id : Uuid} {result : Except AppError Unit}
    (h : s.Cleaned id result) (hdoes : s.Does mover t) : t.Cleaned id result :=
  fun hok => (h hok).mono hdoes fun _ _ hxy => hxy.clean

theorem AbortThen.Fact.mono {id : Uuid} {after : AbortThen} (h : after.Fact s id)
    (hdoes : s.Does mover t)
    (hfresh : after.creates = true → ∀ id, s.store id = none → t.store id = none) :
    after.Fact t id := by
  cases after with
  | expired => exact SyncManager.Has.mono h hdoes fun _ _ hxy => hxy.lapsed hdoes.clock
  | abortOpen => exact SyncManager.SettledBut.mono h hdoes (hfresh rfl)
  | _ => trivial

theorem CleanupThen.Fact.mono {id : Uuid} {after : CleanupThen} (h : after.Fact s id)
    (hdoes : s.Does mover t)
    (hfresh : after.creates = true → ∀ id, s.store id = none → t.store id = none) :
    after.Fact t id := by
  cases after with
  | abort after =>
      exact ⟨AbortThen.Fact.mono h.1 hdoes hfresh,
        h.2.mono hdoes fun _ _ hxy => hxy.settled_state⟩
  | commit outcome =>
      exact SyncManager.Has.mono h hdoes fun x y hxy ⟨happlied, houtcome⟩ =>
        ⟨(hxy.applied happlied).1, (hxy.applied happlied).2.trans houtcome⟩
  | reap => exact SyncManager.Has.mono h hdoes fun _ _ hxy => hxy.settled_state

theorem PruneThen.Fact.mono {after : PruneThen} (h : after.Fact s) (hdoes : s.Does mover t)
    (hfresh : after.creates = true → ∀ id, s.store id = none → t.store id = none) :
    after.Fact t := by
  cases after with
  | cleanup id result after => exact ⟨CleanupThen.Fact.mono h.1 hdoes hfresh, h.2.mono hdoes⟩
  | _ => trivial

/-- Who created a plan is settled when it appears. -/
theorem SyncManager.Does.created (hdoes : s.Does mover t) {id : Uuid} {y : SyncSession}
    (hy : t.store id = some y) :
    (∃ x, s.store id = some x ∧ y.creator = x.creator) ∨
      (s.store id = none ∧ mover = some y.creator ∧ s.slot = .creating y.creator) := by
  cases hx : s.store id with
  | none =>
      obtain hnone | ⟨n, x, hmover, -, hslot, hx', rfl, -⟩ := hdoes.fresh hx
      · rw [hnone] at hy
        cases hy
      · rw [hy] at hx'
        cases hx'
        exact .inr ⟨rfl, hmover, hslot⟩
  | some x =>
      obtain ⟨y', hy', hxy⟩ := hdoes.session hx
      rw [hy] at hy'
      cases hy'
      exact .inl ⟨x, rfl, hxy.creator⟩

theorem SyncManager.Idle.mono (h : SyncManager.Idle task s) (hdoes : s.Does mover t)
    (hne : mover ≠ some task) : SyncManager.Idle task t where
  slot hslot := h.slot ((hdoes.slot task hne).mpr hslot)
  creator {id y} hy hcreator := by
    obtain ⟨x, hx, hsame⟩ | ⟨-, hmover, -⟩ := hdoes.created hy
    · exact h.creator hx (hsame ▸ hcreator)
    · rw [hcreator] at hmover
      exact hne hmover

theorem SyncSession.Applying.mono {now : Instant} {x y : SyncSession} {n : Nat} {owned : CommitPlan}
    (h : x.Applying task n ∧ x.plan = owned) (hxy : x.Does mover now y)
    (hne : mover ≠ some task) : y.Applying task n ∧ y.plan = owned := by
  have hy := hxy.applying hne h.1
  exact ⟨hy, (hxy.plan (by rw [hy.1]; rfl)).trans h.2⟩

/-- What a call knows, it still knows after a step of somebody else. -/
theorem Place.Fact.mono {p : Place} (h : p.At task s) (hdoes : s.Does mover t)
    (hne : mover ≠ some task) : p.Fact task t := by
  have hfact := h.fact
  have hnone : p.creates = true → ∀ id, s.store id = none → t.store id = none :=
    fun hcreates => hdoes.nothing_fresh hne (h.creates hcreates)
  have hfresh : ∀ {id}, p.permit = true → s.store id = none → t.store id = none := by
    intro id hpermit hempty
    obtain hempty' | ⟨n, x, hmover, -, hslot, -⟩ := hdoes.fresh hempty
    · exact hempty'
    · rw [h.permit hpermit] at hslot
      cases hslot
      exact absurd hmover hne
  have hfinished : ∀ {finished : List (Uuid × Instant)},
      (∀ entry ∈ finished, s.Has entry.1 (·.clean)) → ∀ entry ∈ finished, t.Has entry.1 (·.clean) :=
    fun hall entry hentry => (hall entry hentry).mono hdoes fun _ _ hxy => hxy.clean
  have hopen : ∀ {id}, p.reads = some id → s.Has id (·.state = .open) →
      t.Has id (·.state = .open) := by
    intro id hreads ⟨x, hx, hstate⟩
    obtain ⟨x', hx', hreader⟩ := h.reads id hreads
    rw [hx] at hx'
    cases hx'
    obtain ⟨y, hy, hxy⟩ := hdoes.session hx
    exact ⟨y, hy, hxy.stays_open hreader hstate⟩
  have hpending : ∀ {id}, p.cleans = some id →
      s.Has id (fun x => x.state.live = false ∧ x.cleanupPending = true) →
      t.Has id fun x => x.state.live = false ∧ x.cleanupPending = true := by
    intro id hcleans ⟨x, hx, hlive, hpending⟩
    obtain ⟨x', hx', hcleaner⟩ := h.cleans id hcleans
    rw [hx] at hx'
    cases hx'
    obtain ⟨y, hy, hxy⟩ := hdoes.session hx
    refine ⟨y, hy, hxy.settled_state hlive, ?_⟩
    obtain hpending' | hmover := hxy.cleaned hpending
    · exact hpending'
    · exact absurd (hmover.trans hcleaner) hne
  cases p with
  | planCheck | planReject | planInsert => exact hfresh rfl hfact
  | uploadPrepare | uploadBody | uploadReplace => exact hopen rfl hfact
  | commitStart | commitApply =>
      exact SyncManager.Has.mono hfact hdoes fun _ _ hxy hP => SyncSession.Applying.mono hP hxy hne
  | commitSettle => exact SyncManager.Has.mono hfact hdoes fun _ _ hxy => hxy.applying hne
  | commitNotify =>
      exact SyncManager.Has.mono hfact hdoes fun x y hxy ⟨happlied, houtcome⟩ =>
        ⟨(hxy.applied happlied).1, (hxy.applied happlied).2.trans houtcome⟩
  | abortOpenNext => exact SyncManager.SettledBut.mono hfact hdoes (hnone rfl)
  | abortOpenDone => exact fun hok => SyncManager.SettledBut.mono (hfact hok) hdoes (hnone rfl)
  | abortSession | abortWait | abortLock | abortDecide | abortNotified =>
      exact ⟨AbortThen.Fact.mono hfact.1 hdoes hnone, hfact.2⟩
  | abortNotify =>
      exact ⟨AbortThen.Fact.mono hfact.1 hdoes hnone, hfact.2.mono hdoes⟩
  | cleanup | cleanupCheck => exact CleanupThen.Fact.mono hfact hdoes hnone
  | cleanupRemove =>
      exact ⟨CleanupThen.Fact.mono hfact.1 hdoes hnone, hpending rfl hfact.2⟩
  | cleanupRecord =>
      obtain ⟨x, hx, -⟩ := hfact.2.1
      exact ⟨CleanupThen.Fact.mono hfact.1 hdoes hnone, hpending rfl hfact.2.1,
        fun hok => hdoes.gone hx (hfact.2.2 hok)⟩
  | cleanupDone =>
      exact ⟨CleanupThen.Fact.mono hfact.1 hdoes hnone, hfact.2.mono hdoes⟩
  | prune => exact PruneThen.Fact.mono hfact hdoes hnone
  | pruneScan | pruneRemove =>
      exact ⟨PruneThen.Fact.mono hfact.1 hdoes hnone, hfinished hfact.2⟩
  | orphansRemove =>
      obtain havailable | ⟨n, hmover, hn⟩ := hdoes.available hfact
      · exact havailable
      · rw [h.creates rfl] at hn
        cases hn
        exact absurd hmover hne
  | leave answer | done answer =>
      rcases answer with - | (response | response | response | response | response | -)
      case ok.plan => exact SyncManager.Has.mono hfact hdoes fun _ _ hxy hP => hxy.creator.trans hP
      all_goals trivial
  | _ => trivial

/-- The assertions are stable under the steps of others. -/
theorem Place.At.mono {p : Place} (h : p.At task s) (hdoes : s.Does mover t)
    (hne : mover ≠ some task) : p.At task t where
  creates hp := hdoes.creating task hne (h.creates hp)
  permit hp := (hdoes.slot task hne).mp (h.permit hp)
  writes id hp := (h.writes id hp).mono hdoes fun _ _ hxy => hxy.writer task hne
  reads id hp := (h.reads id hp).mono hdoes fun _ _ hxy => hxy.reader task hne
  cleans id hp := (h.cleans id hp).mono hdoes fun _ _ hxy => hxy.cleaner task hne
  fact := Place.Fact.mono h hdoes hne

end Stability

end VivadoServer.Sync
