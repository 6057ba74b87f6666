/-
  VivadoServer.Workflows.Record

  What holds of the record of a workflow between any two steps (`Workflow.Sound`),
  and what a step may do to it (`Workflow.Does`).

  A task holds at most one grip on the activity of a workflow: a bare read guard,
  a read guard with its lease, or the write side.  Whoever has the write side
  decides everything but this: a heartbeat, and the request to stop, come from
  the outside at any time (`Workflow.Aside`).
-/

import VivadoServer.Workflows.Model

namespace VivadoServer.Workflows

open VivadoServer.History (Uuid)
open VivadoServer.Sessions (Instant TerminationReason)

/-! ## Grips -/

/-- What a task holds of the activity of a workflow. -/
inductive Grip where
  | guard
  | lease
  | writer
deriving DecidableEq, Repr

def Workflow.grip (x : Workflow) (task : Nat) : Option Grip :=
  if x.activity.isWriter task then some .writer
  else if task ∈ x.leases then some .lease
  else if task ∈ x.activity.readers then some .guard
  else none

/-! ## The invariant -/

structure Workflow.Sound (x : Workflow) : Prop where
  project : x.request.project = x.info.project
  -- the leases are guarded, and counted
  guarded : ∀ n ∈ x.leases, n ∈ x.activity.readers
  leases : x.leases.Nodup
  readers : x.activity.readers.Nodup
  transfers : x.transfers = x.leases.length
  -- the end
  ended : x.ended.isSome = x.terminal
  endedAt : x.info.endedAt = x.ended
  quiet : x.terminal = true → x.leases = []
  completed : x.info.status = .completed →
    x.info.requiresFullUpload = false ∧ x.cleanupStarted = false
  failed : x.info.status = .failed → x.info.errorCode.isSome = true
  -- the request to stop
  stopping : x.info.status = .stopping → x.cleanupStarted = true
  stopped : x.cleanupStarted = true → x.cancel = true ∧
    (x.info.status = .stopping ∨ x.terminal = true)
  target : x.cleanupTarget = .cancelled ∨
    (x.cleanupTarget = .failed ∧ x.terminalError.isSome = true)
  invalid : x.invalidateProject = true →
    x.cleanupStarted = true ∧ (x.terminal = true → x.info.requiresFullUpload = true)
  -- the beginning
  waiting : x.initializing = true → x.info.status = .preparing ∨ x.info.status = .stopping
  -- the one launch
  launches : x.launches ≤ 1
  session : x.info.sessionId.isSome = true → x.launches = 1
  ran : x.info.status = .running ∨ x.info.status = .pulling → x.info.sessionId.isSome = true
  /-- Only a launch that is under way finds its workflow in Preparing. -/
  launching : x.info.status = .preparing → x.launches = 0 ∨ ∃ n, x.activity.isWriter n = true

/-! ## What a step may do -/

/-- What may happen to a workflow while somebody else has the write side. -/
structure Workflow.Aside (x y : Workflow) : Prop where
  status : y.info.status = x.info.status ∨ (x.terminal = false ∧ y.info.status = .stopping)
  initializing : y.initializing = x.initializing
  initializationError : y.initializationError = x.initializationError
  launches : y.launches = x.launches
  session : y.info.sessionId = x.info.sessionId
  stopped : x.cleanupStarted = true → y.cleanupStarted = true
  plans : y.openSync = x.openSync ∧ y.syncIds = x.syncIds

/-- What the step of a mover may do to a workflow. -/
structure Workflow.Does (mover : Option Nat) (x y : Workflow) : Prop where
  workflowId : y.info.workflowId = x.info.workflowId
  project : y.info.project = x.info.project
  request : y.request = x.request
  status : y.info.status = x.info.status ∨ x.info.status.Moves y.info.status
  frozen : x.terminal = true → y.info = x.info ∧ y.ended = x.ended
  initialized : x.initializing = false →
    y.initializing = false ∧ y.initializationError = x.initializationError
  uninitialized : x.info.status = .preparing → y.info.status = .failed →
    y.initializationError.isSome = true
  session : x.info.sessionId.isSome = true → y.info.sessionId = x.info.sessionId
  launches : x.launches ≤ y.launches
  stopped : x.cleanupStarted = true → y.cleanupStarted = true
  invalid : x.invalidateProject = true → y.invalidateProject = true
  target : x.cleanupTarget = .failed → y.cleanupTarget = .failed
  /-- A lease is granted in the phases of transfers only. -/
  granted : x.leases.length < y.leases.length → x.initializing = false ∧ x.cancel = false ∧
    (x.info.status = .preparing ∨ x.info.status = .pulling)
  aside : ∀ n, mover ≠ some n → x.activity.isWriter n = true → x.Aside y

namespace Workflow

variable {x y z : Workflow} {task n : Nat} {mover : Option Nat}

theorem Aside.refl : x.Aside x :=
  ⟨.inl rfl, rfl, rfl, rfl, rfl, fun h => h, rfl, rfl⟩

theorem Does.refl : x.Does mover x where
  workflowId := rfl
  project := rfl
  request := rfl
  status := .inl rfl
  frozen _ := ⟨rfl, rfl⟩
  initialized h := ⟨h, rfl⟩
  uninitialized h h' := by
    rw [h] at h'
    cases h'
  session _ := rfl
  launches := Nat.le_refl _
  stopped h := h
  invalid h := h
  target h := h
  granted h := absurd h (Nat.lt_irrefl _)
  aside _ _ _ := .refl

/-- Nobody else has the write side. -/
theorem alone (h : x.activity.isWriter task = true) (hne : some task ≠ some n)
    (hn : x.activity.isWriter n = true) : False :=
  hne (congrArg some (RwLock.isWriter_unique h hn))

/-- While somebody reads, nobody writes. -/
theorem unwritten (h : task ∈ x.activity.readers) (hn : x.activity.isWriter n = true) : False :=
  RwLock.not_mem_readers hn h

/-! ## Grips under the moves of the lock -/

theorem grip_writer : x.grip task = some .writer ↔ x.activity.isWriter task = true := by
  unfold grip
  split
  · simp_all
  · split
    · simp_all
    · split <;> simp_all

theorem grip_lease (h : x.Sound) : x.grip task = some .lease ↔ task ∈ x.leases := by
  unfold grip
  split
  · rename_i hwriter
    -- a writer excludes readers, so it has no lease
    have hno : task ∉ x.leases := fun hmem =>
      RwLock.not_mem_readers hwriter (h.guarded _ hmem)
    simp [hno]
  · split
    · simp_all
    · split <;> simp_all

theorem grip_some_reader (h : x.Sound) (hgrip : x.grip task = some .guard ∨ x.grip task = some .lease) :
    task ∈ x.activity.readers := by
  obtain hgrip | hgrip := hgrip
  · unfold grip at hgrip
    split at hgrip
    · cases hgrip
    · split at hgrip
      · cases hgrip
      · split at hgrip
        · assumption
        · cases hgrip
  · exact h.guarded _ ((grip_lease h).mp hgrip)

/-- A reader holds its guard, with or without a lease. -/
theorem grip_of_reader (hreader : task ∈ x.activity.readers) (hlease : task ∉ x.leases) :
    x.grip task = some .guard := by
  have hwriter : x.activity.isWriter task = false := by
    by_contra hwriter
    exact unwritten hreader (by simpa using hwriter)
  simp [grip, hwriter, hlease, hreader]

theorem grip_none : x.grip task = none ↔
    x.activity.isWriter task = false ∧ task ∉ x.leases ∧ task ∉ x.activity.readers := by
  unfold grip
  split
  · simp_all
  · split
    · simp_all
    · split <;> simp_all

/-- The grip of a task depends on what the lock and the leases say of it. -/
theorem grip_congr (hwriter : y.activity.isWriter n = x.activity.isWriter n)
    (hleases : n ∈ y.leases ↔ n ∈ x.leases)
    (hreaders : n ∈ y.activity.readers ↔ n ∈ x.activity.readers) : y.grip n = x.grip n := by
  unfold grip
  rw [hwriter]
  split
  · rfl
  · split
    · rw [if_pos (hleases.mp ‹_›)]
    · rw [if_neg (mt hleases.mpr ‹_›)]
      split
      · rw [if_pos (hreaders.mp ‹_›)]
      · rw [if_neg (mt hreaders.mpr ‹_›)]

/-- A free activity is gripped by nobody. -/
theorem grip_free (h : x.Sound) (hfree : x.activity = .free) : x.grip n = none ∧ x.leases = [] := by
  have hleases : x.leases = [] := by
    rw [List.eq_nil_iff_forall_not_mem]
    intro m hm
    have := h.guarded m hm
    rw [hfree] at this
    exact absurd this List.not_mem_nil
  refine ⟨grip_none.mpr ⟨?_, ?_, ?_⟩, hleases⟩
  · rw [hfree]
    rfl
  · rw [hleases]
    exact List.not_mem_nil
  · rw [hfree]
    exact List.not_mem_nil

/-- Who has the write side leaves nothing to the others. -/
theorem grip_alone (h : x.Sound) (hwriter : x.activity.isWriter task = true) (hne : n ≠ task) :
    x.grip n = none ∧ x.leases = [] := by
  have hreaders : x.activity.readers = [] := by
    rw [List.eq_nil_iff_forall_not_mem]
    exact fun m hm => RwLock.not_mem_readers hwriter hm
  have hleases : x.leases = [] := by
    rw [List.eq_nil_iff_forall_not_mem]
    intro m hm
    have := h.guarded m hm
    rw [hreaders] at this
    exact absurd this List.not_mem_nil
  refine ⟨grip_none.mpr ⟨?_, ?_, ?_⟩, hleases⟩
  · by_contra hn
    exact hne (RwLock.isWriter_unique (by simpa using hn) hwriter)
  · rw [hleases]
    exact List.not_mem_nil
  · rw [hreaders]
    exact List.not_mem_nil

/-! ## The moves of the lock -/

/-- The step of a task moved its own grip and nobody else's. -/
structure Regrips (task : Nat) (grip : Option Grip) (x y : Workflow) : Prop where
  sound : y.Sound
  does : x.Does (some task) y
  self : y.grip task = grip
  others : ∀ n, n ≠ task → y.grip n = x.grip n

/-- A preparing workflow that nobody writes to has launched nothing. -/
def Settled (x : Workflow) : Prop := x.info.status = .preparing → x.launches = 0

theorem Does.locks {activity : RwLock} {transfers : Nat} {leases : List Nat}
    (hgranted : x.leases.length < leases.length → x.initializing = false ∧ x.cancel = false ∧
      (x.info.status = .preparing ∨ x.info.status = .pulling)) :
    x.Does mover { x with activity, transfers, leases } :=
  { (Does.refl : x.Does mover x) with
    granted := hgranted
    aside := fun _ _ _ => ⟨.inl rfl, rfl, rfl, rfl, rfl, fun h => h, rfl, rfl⟩ }

theorem Sound.locks {activity : RwLock} {transfers : Nat} {leases : List Nat} (h : x.Sound)
    (hguarded : ∀ n ∈ leases, n ∈ activity.readers) (hleases : leases.Nodup)
    (hreaders : activity.readers.Nodup) (htransfers : transfers = leases.length)
    (hquiet : x.terminal = true → leases = [])
    (hlaunching : x.info.status = .preparing → x.launches = 0 ∨ ∃ n, activity.isWriter n = true) :
    { x with activity, transfers, leases }.Sound :=
  { h with
    guarded := hguarded, leases := hleases, readers := hreaders, transfers := htransfers
    quiet := hquiet, launching := hlaunching }

/-- Where nobody writes, nothing is being launched. -/
theorem Sound.settled (h : x.Sound) (hno : ∀ n, x.activity.isWriter n = false) : x.Settled := by
  intro hstatus
  obtain hnone | ⟨n, hn⟩ := h.launching hstatus
  · exact hnone
  · rw [hno n] at hn
    cases hn

/-- Taking the write side. -/
theorem Sound.write (h : x.Sound) {activity : RwLock} (hwrite : x.activity.write task = some activity) :
    x.Regrips task (some .writer) { x with activity } ∧ x.Settled := by
  obtain ⟨hfree, rfl⟩ := RwLock.write_eq hwrite
  have hnone := fun n => grip_free (n := n) h hfree
  have hleases : x.leases = [] := (hnone task).2
  have hsettled : x.Settled := h.settled fun n => by
    rw [hfree]
    rfl
  refine ⟨⟨?_, .locks fun hlt => absurd hlt (Nat.lt_irrefl _), ?_, fun n hn => ?_⟩, hsettled⟩
  · refine h.locks (fun n hn => ?_) h.leases List.nodup_nil h.transfers h.quiet fun _ => .inr ⟨task, ?_⟩
    · rw [hleases] at hn
      exact absurd hn List.not_mem_nil
    · exact RwLock.isWriter_iff.mpr rfl
  · exact grip_writer.mpr (RwLock.isWriter_iff.mpr rfl)
  · rw [(hnone n).1, grip_none]
    refine ⟨?_, ?_, List.not_mem_nil⟩
    · show decide (task = n) = false
      simpa using hn.symm
    · show n ∉ x.leases
      rw [hleases]
      exact List.not_mem_nil

/-- Taking a read guard. -/
theorem Sound.read (h : x.Sound) {activity : RwLock} (hread : x.activity.read task = some activity)
    (hself : x.grip task = none) : x.Regrips task (some .guard) { x with activity } := by
  obtain ⟨rfl, hno⟩ := RwLock.read_eq hread
  obtain ⟨-, hlease, hreader⟩ := grip_none.mp hself
  refine ⟨?_, .locks fun hlt => absurd hlt (Nat.lt_irrefl _), ?_, fun n hn => ?_⟩
  · exact h.locks (fun n hn => List.mem_cons_of_mem _ (h.guarded n hn)) h.leases
      (List.nodup_cons.mpr ⟨hreader, h.readers⟩) h.transfers h.quiet
      fun hstatus => .inl (h.settled hno hstatus)
  · exact grip_of_reader List.mem_cons_self hlease
  · refine grip_congr ((hno n).symm) Iff.rfl ⟨fun hmem => ?_, List.mem_cons_of_mem _⟩
    exact List.mem_of_ne_of_mem hn hmem

/-- Giving back the write side, or a bare guard. -/
theorem Sound.release (h : x.Sound) (hgrip : x.grip task = some .writer ∨ x.grip task = some .guard)
    (hsettled : x.grip task = some .writer → x.Settled) :
    x.Regrips task none { x with activity := x.activity.release task } := by
  have hlease : task ∉ x.leases := by
    intro hmem
    rw [(grip_lease h).mpr hmem] at hgrip
    simp at hgrip
  cases hlock : x.activity with
  | exclusive writer =>
      have hwriter : x.activity.isWriter task = true := by
        obtain hgrip | hgrip := hgrip
        · exact grip_writer.mp hgrip
        · have := grip_some_reader h (.inl hgrip)
          rw [hlock] at this
          exact absurd this List.not_mem_nil
      have heq : writer = task := by
        rw [hlock] at hwriter
        simpa [RwLock.isWriter] using hwriter
      subst heq
      have hleases := (grip_alone (n := writer + 1) h hwriter (Nat.succ_ne_self _)).2
      have hfree : (RwLock.exclusive writer).release writer = .free := if_pos rfl
      rw [hfree]
      have hnone : ∀ n, { x with activity := RwLock.free }.grip n = none := by
        intro n
        refine grip_none.mpr ⟨rfl, ?_, List.not_mem_nil⟩
        show n ∉ x.leases
        rw [hleases]
        exact List.not_mem_nil
      refine ⟨?_, .locks fun hlt => absurd hlt (Nat.lt_irrefl _), hnone _, fun n hn => ?_⟩
      · refine h.locks (fun n hn => ?_) h.leases List.nodup_nil h.transfers h.quiet
          fun hstatus => .inl (hsettled (grip_writer.mpr hwriter) hstatus)
        rw [hleases] at hn
        exact absurd hn List.not_mem_nil
      · rw [hnone n, (grip_alone h hwriter hn).1]
  | shared readers =>
      have hreaders : x.activity.readers = readers := by rw [hlock]; rfl
      have hno : ∀ n, x.activity.isWriter n = false := fun n => by rw [hlock]; rfl
      have hnodup := h.readers
      rw [hreaders] at hnodup
      refine ⟨?_, .locks fun hlt => absurd hlt (Nat.lt_irrefl _), ?_, fun n hn => ?_⟩
      · refine h.locks (fun n hn => ?_) h.leases (hnodup.erase _) h.transfers h.quiet
          fun hstatus => .inl (h.settled hno hstatus)
        have hne : n ≠ task := fun heq => hlease (heq ▸ hn)
        have := h.guarded n hn
        rw [hreaders] at this
        exact (List.mem_erase_of_ne hne).mpr this
      · refine grip_none.mpr ⟨rfl, hlease, ?_⟩
        show task ∉ readers.erase task
        exact hnodup.not_mem_erase
      · refine grip_congr (hno n).symm Iff.rfl ?_
        rw [hreaders]
        exact List.mem_erase_of_ne hn

/-- The guard becomes a lease. -/
theorem Sound.lease (h : x.Sound) (hgrip : x.grip task = some .guard)
    (hdone : x.initializing = false) (hcancel : x.cancel = false)
    (hstatus : x.info.status = .preparing ∨ x.info.status = .pulling) :
    x.Regrips task (some .lease) (x.lease task) := by
  have hterminal : x.terminal = false := by
    obtain hstatus | hstatus := hstatus <;> rw [terminal, hstatus] <;> rfl
  have hreader := grip_some_reader h (.inl hgrip)
  have hlease : task ∉ x.leases := fun hmem => by
    rw [(grip_lease h).mpr hmem] at hgrip
    cases hgrip
  have hsound : (x.lease task).Sound := by
    refine h.locks (fun n hn => ?_) (List.nodup_cons.mpr ⟨hlease, h.leases⟩) h.readers ?_
      (fun hterminal' => ?_) h.launching
    · obtain rfl | hn := List.mem_cons.mp hn
      · exact hreader
      · exact h.guarded n hn
    · rw [h.transfers, List.length_cons]
    · rw [hterminal] at hterminal'
      cases hterminal'
  refine ⟨hsound, .locks fun _ => ⟨hdone, hcancel, hstatus⟩,
    (grip_lease hsound).mpr List.mem_cons_self, fun n hn => ?_⟩
  exact grip_congr rfl ⟨List.mem_of_ne_of_mem hn, List.mem_cons_of_mem _⟩ Iff.rfl

/-- The lease is dropped, its guard is still held. -/
theorem Sound.dropLease (h : x.Sound) (hgrip : x.grip task = some .lease) :
    x.Regrips task (some .guard) (x.dropLease task) := by
  have hlease := (grip_lease h).mp hgrip
  have hsound : (x.dropLease task).Sound := by
    refine h.locks (fun n hn => h.guarded n (List.mem_of_mem_erase hn)) (h.leases.erase _) h.readers ?_
      (fun hterminal => ?_) h.launching
    · rw [h.transfers, List.length_erase_of_mem hlease]
    · rw [h.quiet hterminal]
      rfl
  refine ⟨hsound, .locks fun hlt => absurd hlt (Nat.not_lt.mpr List.length_erase_le), ?_,
    fun n hn => ?_⟩
  · exact grip_of_reader (h.guarded _ hlease) h.leases.not_mem_erase
  · exact grip_congr rfl (List.mem_erase_of_ne hn) Iff.rfl

/-- A lease goes to another task, with its guard. -/
theorem Sound.handOver (h : x.Sound) {sender : Nat} (hgrip : x.grip sender = some .lease)
    (hself : x.grip task = none) :
    (x.handOver sender task).Sound ∧ x.Does mover (x.handOver sender task) ∧
      (x.handOver sender task).grip task = some .lease ∧
      (x.handOver sender task).grip sender = none ∧
      ∀ n, n ≠ task → n ≠ sender → (x.handOver sender task).grip n = x.grip n := by
  have hlease := (grip_lease h).mp hgrip
  obtain ⟨-, hno, hnoreader⟩ := grip_none.mp hself
  have hne : task ≠ sender := fun heq => hno (heq ▸ hlease)
  cases hlock : x.activity with
  | exclusive writer =>
      have := h.guarded _ hlease
      rw [hlock] at this
      exact absurd this List.not_mem_nil
  | shared readers =>
      have hreaders : x.activity.readers = readers := by rw [hlock]; rfl
      have hnodup := h.readers
      rw [hreaders] at hnodup hnoreader
      have hsound : (x.handOver sender task).Sound := by
        refine h.locks (fun n hn => ?_) ?_ ?_ ?_ (fun hterminal => ?_) fun hstatus =>
          .inl (h.settled (fun n => by rw [hlock]; rfl) hstatus)
        · rw [hlock]
          show n ∈ task :: readers.erase sender
          obtain rfl | hn := List.mem_cons.mp hn
          · exact List.mem_cons_self
          · have hsender : n ≠ sender := fun heq => h.leases.not_mem_erase (heq ▸ hn)
            have := h.guarded n (List.mem_of_mem_erase hn)
            rw [hreaders] at this
            exact List.mem_cons_of_mem _ ((List.mem_erase_of_ne hsender).mpr this)
        · exact List.nodup_cons.mpr ⟨fun hmem => hno (List.mem_of_mem_erase hmem), h.leases.erase _⟩
        · rw [hlock]
          exact List.nodup_cons.mpr
            ⟨fun hmem => hnoreader (List.mem_of_mem_erase hmem), hnodup.erase _⟩
        · have := List.length_pos_of_mem hlease
          rw [h.transfers, List.length_cons, List.length_erase_of_mem hlease]
          omega
        · rw [h.quiet hterminal] at hlease
          exact absurd hlease List.not_mem_nil
      refine ⟨hsound, .locks fun hlt => absurd hlt ?_, (grip_lease hsound).mpr List.mem_cons_self, ?_,
        fun n hn hn' => ?_⟩
      · have := List.length_pos_of_mem hlease
        rw [List.length_cons, List.length_erase_of_mem hlease]
        omega
      · refine grip_none.mpr ⟨?_, ?_, ?_⟩
        · show (x.activity.handOver sender task).isWriter sender = false
          rw [hlock]
          rfl
        · exact fun hmem => h.leases.not_mem_erase (List.mem_of_ne_of_mem hne.symm hmem)
        · show sender ∉ (x.activity.handOver sender task).readers
          rw [hlock]
          exact fun hmem => hnodup.not_mem_erase (List.mem_of_ne_of_mem hne.symm hmem)
      · have hmem : ∀ as : List Nat, n ∈ task :: as.erase sender ↔ n ∈ as := fun as =>
          ⟨fun hmem => (List.mem_erase_of_ne hn').mp (List.mem_of_ne_of_mem hn hmem),
            fun hmem => List.mem_cons_of_mem _ ((List.mem_erase_of_ne hn').mpr hmem)⟩
        refine grip_congr ?_ (hmem _) ?_
        · show (x.activity.handOver sender task).isWriter n = _
          rw [hlock]
          rfl
        · show n ∈ (x.activity.handOver sender task).readers ↔ _
          rw [hlock]
          exact hmem _

/-! ## The moves of the record -/

/-- A step that leaves every grip where it is. -/
structure Keeps (mover : Option Nat) (x y : Workflow) : Prop where
  sound : y.Sound
  does : x.Does mover y
  grip : ∀ n, y.grip n = x.grip n

/-- The workflow is past its initialization, in the phase or on its way out of it,
    and nothing of it is being launched. -/
structure In (status : WorkflowStatus) (x : Workflow) : Prop where
  initialized : x.initializing = false
  status : x.info.status = status ∨ x.info.status = .stopping
  settled : x.Settled

/-- The workflow is past its initialization, and nothing of it is being launched. -/
structure Ready (x : Workflow) : Prop where
  initialized : x.initializing = false
  settled : x.Settled

theorem In.ready {status : WorkflowStatus} (h : x.In status) : x.Ready :=
  ⟨h.initialized, h.settled⟩

/-- The phase was found to be Preparing, and nothing has been launched since. -/
structure Preparing (x : Workflow) : Prop extends x.In .preparing where
  launches : x.launches = 0

/-- A session of the workflow is being launched, with the write side held. -/
structure Launching (x : Workflow) : Prop where
  initialized : x.initializing = false
  status : x.info.status = .preparing ∨ x.info.status = .stopping
  launches : x.launches = 1
  session : x.info.sessionId = none

theorem In.live {status : WorkflowStatus} (h : x.In status) (hstatus : status.isTerminal = false) :
    x.terminal = false := by
  obtain h | h := h.status <;> rw [terminal, h]
  · exact hstatus
  · rfl

theorem Launching.live (h : x.Launching) : x.terminal = false := by
  obtain h | h := h.status <;> rw [terminal, h] <;> rfl

theorem live_of_stopping (h : x.info.status = .stopping) : x.terminal = false := by
  rw [terminal, h]
  rfl

theorem Sound.live_of_waiting (h : x.Sound) (hwaiting : x.initializing = true) :
    x.terminal = false := by
  obtain h | h := h.waiting hwaiting <;> rw [terminal, h] <;> rfl

/-- A live workflow that is to stop is stopping. -/
theorem Sound.stopping_of_live (h : x.Sound) (hstarted : x.cleanupStarted = true)
    (hlive : x.terminal = false) : x.info.status = .stopping := by
  obtain hstatus | hterminal := (h.stopped hstarted).2
  · exact hstatus
  · rw [hlive] at hterminal
    cases hterminal

/-- Marks beside the status: what was created, launched, notified or planned. -/
theorem Sound.note (h : x.Sound) {openSync : Option Uuid} {openSyncDeadline : Option Instant}
    {syncIds : List Uuid} {notified : Nat} {launched : Option Uuid}
    (hwriter : x.activity.isWriter task = true) :
    x.Keeps (some task) { x with openSync, openSyncDeadline, syncIds, notified, launched } where
  sound := { h with }
  does := { (Does.refl : x.Does (some task) x) with
    aside := fun _ hne hn => (alone hwriter hne hn).elim }
  grip _ := rfl

theorem Sound.create (h : x.Sound) {created : List Uuid} : x.Keeps mover { x with created } where
  sound := { h with }
  does := { (Does.refl : x.Does mover x) with
    aside := fun _ _ _ => ⟨.inl rfl, rfl, rfl, rfl, rfl, fun h => h, rfl, rfl⟩ }
  grip _ := rfl

theorem Sound.beat (h : x.Sound) {now : Instant} (hlive : x.terminal = false) :
    x.Keeps mover (x.beat now) where
  sound := { h with }
  does := { (Does.refl : x.Does mover x) with
    frozen := fun hterminal => by
      rw [hlive] at hterminal
      cases hterminal
    aside := fun _ _ _ => ⟨.inl rfl, rfl, rfl, rfl, rfl, fun h => h, rfl, rfl⟩ }
  grip _ := rfl

theorem stopped_status (reason : TerminationReason) (target : WorkflowStatus)
    (error : Option AppError) (invalidate : Bool) :
    (x.stopped reason target error invalidate).info.status = .stopping ∧
      (x.stopped reason target error invalidate).cleanupStarted = true := by
  cases error <;> exact ⟨rfl, rfl⟩

theorem stopped_aside (reason : TerminationReason) (target : WorkflowStatus)
    (error : Option AppError) (invalidate : Bool) (hlive : x.terminal = false) :
    x.Aside (x.stopped reason target error invalidate) := by
  cases error <;> exact ⟨.inr ⟨hlive, rfl⟩, rfl, rfl, rfl, rfl, fun _ => rfl, rfl, rfl⟩

/-- The request to stop, from anywhere. -/
theorem Sound.stop (h : x.Sound) {reason : TerminationReason} {target : WorkflowStatus}
    {error : Option AppError} {invalidate : Bool} (hlive : x.terminal = false)
    (htarget : target = .failed → error.isSome = true) :
    x.Keeps mover (x.stopped reason target error invalidate) := by
  have haside := stopped_aside reason target error invalidate hlive
  have hinfo : ∀ y : Workflow, y = x.stopped reason target error invalidate →
      y.info.status = .stopping ∧ y.cleanupStarted = true ∧ y.cancel = true ∧
      y.request = x.request ∧ y.info.workflowId = x.info.workflowId ∧
      y.info.project = x.info.project ∧ y.info.sessionId = x.info.sessionId ∧
      y.info.endedAt = x.info.endedAt ∧ y.ended = x.ended ∧ y.activity = x.activity ∧
      y.leases = x.leases ∧ y.transfers = x.transfers ∧
      y.cleanupTarget = (if target = .failed then .failed else x.cleanupTarget) ∧
      y.terminalError = error.or x.terminalError ∧
      y.invalidateProject = (x.invalidateProject || invalidate) := by
    rintro _ rfl
    cases error <;> exact ⟨rfl, rfl, rfl, rfl, rfl, rfl, rfl, rfl, rfl, rfl, rfl, rfl, rfl, rfl, rfl⟩
  generalize x.stopped reason target error invalidate = y at hinfo haside ⊢
  obtain ⟨hstatus, hstarted, hcancel, hrequest, hid, hproject, hsession, hendedAt, hended, hactivity,
    hleases, htransfers, htarget', herror, hinvalid⟩ := hinfo y rfl
  have hlive' : y.terminal = false := live_of_stopping hstatus
  have hne : ∀ {status : WorkflowStatus}, status ≠ .stopping → y.info.status ≠ status :=
    fun hne heq => hne (heq.symm.trans hstatus)
  refine ⟨?_, ?_, fun n => grip_congr (by rw [hactivity]) (by rw [hleases]) (by rw [hactivity])⟩
  · refine
      { project := by rw [hrequest, hproject]; exact h.project
        guarded := by rw [hleases, hactivity]; exact h.guarded
        leases := by rw [hleases]; exact h.leases
        readers := by rw [hactivity]; exact h.readers
        transfers := by rw [htransfers, hleases]; exact h.transfers
        ended := by rw [hended, hlive', h.ended, hlive]
        endedAt := by rw [hendedAt, hended]; exact h.endedAt
        quiet := fun hterminal => absurd (hlive'.symm.trans hterminal) Bool.false_ne_true
        completed := fun heq => absurd heq (hne (by decide))
        failed := fun heq => absurd heq (hne (by decide))
        stopping := fun _ => hstarted
        stopped := fun _ => ⟨hcancel, .inl hstatus⟩
        target := ?_
        invalid := fun _ =>
          ⟨hstarted, fun hterminal => absurd (hlive'.symm.trans hterminal) Bool.false_ne_true⟩
        waiting := fun _ => .inr hstatus
        launches := by rw [haside.launches]; exact h.launches
        session := by rw [hsession, haside.launches]; exact h.session
        ran := fun heq => absurd hstatus (by obtain heq | heq := heq <;> rw [heq] <;> decide)
        launching := fun heq => absurd heq (hne (by decide)) }
    rw [htarget', herror]
    split
    · exact .inr ⟨rfl, by rw [Option.isSome_or, htarget ‹_›, Bool.true_or]⟩
    · exact h.target.imp_right fun ⟨hfailed, hsome⟩ =>
        ⟨hfailed, by rw [Option.isSome_or, hsome, Bool.or_true]⟩
  · refine
      { workflowId := hid
        project := hproject
        request := hrequest
        status := ?_
        frozen := fun hterminal => absurd (hlive.symm.trans hterminal) Bool.false_ne_true
        initialized := fun hdone => ⟨haside.initializing.trans hdone, haside.initializationError⟩
        uninitialized := fun _ heq => absurd heq (hne (by decide))
        session := fun _ => hsession
        launches := haside.launches.ge
        stopped := fun _ => hstarted
        invalid := fun hset => by rw [hinvalid, hset, Bool.true_or]
        target := fun heq => by rw [htarget', heq, ite_self]
        granted := fun hlt => absurd hlt (by rw [hleases]; exact Nat.lt_irrefl _)
        aside := fun _ _ _ => haside }
    cases hfrom : x.info.status with
    | preparing => exact .inr (hstatus ▸ .stop (.inl rfl))
    | running => exact .inr (hstatus ▸ .stop (.inr (.inl rfl)))
    | pulling => exact .inr (hstatus ▸ .stop (.inr (.inr rfl)))
    | stopping => exact .inl hstatus
    | completed | cancelled | failed =>
        rw [terminal, hfrom] at hlive
        cases hlive

/-- The creator ends the initialization. -/
theorem Sound.initialized (h : x.Sound) (hwriter : x.activity.isWriter task = true)
    (hwaiting : x.initializing = true) (result : Except AppError Bool) :
    x.Keeps (some task) (x.initialized result) := by
  have hlive := h.live_of_waiting hwaiting
  have hstatus := h.waiting hwaiting
  cases result with
  | ok clean =>
      exact
        { sound := { h with
            completed := fun heq => by
              have : x.info.status = .completed := heq
              rw [terminal, this] at hlive
              cases hlive
            invalid := fun hset => ⟨(h.invalid hset).1, fun hterminal =>
              absurd (hlive.symm.trans hterminal) Bool.false_ne_true⟩
            waiting := fun _ => hstatus }
          does := { (Does.refl : x.Does (some task) x) with
            frozen := fun hterminal => absurd (hlive.symm.trans hterminal) Bool.false_ne_true
            initialized := fun hdone => absurd (hdone.symm.trans hwaiting) Bool.false_ne_true
            aside := fun _ hne hn => (alone hwriter hne hn).elim }
          grip := fun _ => rfl }
  | error error =>
      exact
        { sound := { h with waiting := fun _ => hstatus }
          does := { (Does.refl : x.Does (some task) x) with
            initialized := fun hdone => absurd (hdone.symm.trans hwaiting) Bool.false_ne_true
            uninitialized := fun _ _ => rfl
            aside := fun _ hne hn => (alone hwriter hne hn).elim }
          grip := fun _ => rfl }

/-- A change of what is reported of a live workflow, by whoever has the write side. -/
theorem Sound.report (h : x.Sound) (hwriter : x.activity.isWriter task = true)
    (hlive : x.terminal = false) {openSync : Option Uuid} {openSyncDeadline : Option Instant}
    {baselineClean requiresFullUpload cleanupPending : Bool} {errorCode errorMessage : Option String} :
    x.Keeps (some task) { x with
      openSync, openSyncDeadline, baselineClean
      info := { x.info with requiresFullUpload, cleanupPending, errorCode, errorMessage } } := by
  have hno : ∀ {status : WorkflowStatus}, status.isTerminal = true → x.info.status ≠ status := by
    intro status hterminal heq
    rw [terminal, heq, hterminal] at hlive
    cases hlive
  exact
    { sound := { h with
        completed := fun heq => absurd heq (hno rfl)
        failed := fun heq => absurd heq (hno rfl)
        invalid := fun hset => ⟨(h.invalid hset).1, fun hterminal =>
          absurd (hlive.symm.trans hterminal) Bool.false_ne_true⟩ }
      does := { (Does.refl : x.Does (some task) x) with
        frozen := fun hterminal => absurd (hlive.symm.trans hterminal) Bool.false_ne_true
        aside := fun _ hne hn => (alone hwriter hne hn).elim }
      grip := fun _ => rfl }

/-- The launch is counted. -/
theorem Sound.launch (h : x.Sound) (hwriter : x.activity.isWriter task = true)
    (hin : x.Preparing) :
    x.Keeps (some task) { x with launches := x.launches + 1 } ∧
      { x with launches := x.launches + 1 }.Launching := by
  have hnone := hin.launches
  have hsession : x.info.sessionId = none := by
    cases hid : x.info.sessionId with
    | none => rfl
    | some id =>
        have := h.session (by rw [hid]; rfl)
        omega
  refine ⟨⟨?_, ?_, fun _ => rfl⟩, hin.initialized, hin.status, by rw [hnone], hsession⟩
  · exact { h with
      launches := by rw [hnone]
      session := fun hsome => by
        rw [hsession] at hsome
        cases hsome
      launching := fun _ => .inr ⟨task, hwriter⟩ }
  · exact { (Does.refl : x.Does (some task) x) with
      launches := Nat.le_succ _
      aside := fun _ hne hn => (alone hwriter hne hn).elim }

/-- A session was started. -/
theorem Sound.started (h : x.Sound) (hwriter : x.activity.isWriter task = true)
    (hlaunching : x.Launching) (id : Uuid) :
    x.Keeps (some task) (x.started id) ∧ (x.started id).In .running := by
  have hlive := hlaunching.live
  have hnew : (x.started id).info.status = .running ∧ x.info.status = .preparing ∨
      (x.started id).info.status = .stopping ∧ x.info.status = .stopping := by
    obtain hstatus | hstatus := hlaunching.status
    · refine .inl ⟨?_, hstatus⟩
      show (if x.info.status = .stopping then _ else _) = _
      rw [hstatus]
      rfl
    · refine .inr ⟨?_, hstatus⟩
      show (if x.info.status = .stopping then _ else _) = _
      rw [if_pos hstatus]
  have hnot : ∀ status : WorkflowStatus, status ≠ .running → status ≠ .stopping →
      (x.started id).info.status ≠ status := by
    intro status hrunning hstopping heq
    obtain ⟨hnew, -⟩ | ⟨hnew, -⟩ := hnew
    · exact hrunning (heq.symm.trans hnew)
    · exact hstopping (heq.symm.trans hnew)
  have hlive' : (x.started id).terminal = false := by
    obtain ⟨hnew, -⟩ | ⟨hnew, -⟩ := hnew <;> rw [terminal, hnew] <;> rfl
  refine ⟨⟨?_, ?_, fun _ => rfl⟩, hlaunching.initialized, hnew.imp And.left And.left, fun heq => ?_⟩
  · exact { h with
      ended := by rw [hlive']; exact h.ended.trans hlive
      quiet := fun hterminal => absurd (hlive'.symm.trans hterminal) Bool.false_ne_true
      completed := fun heq => absurd heq (hnot _ (by decide) (by decide))
      failed := fun heq => absurd heq (hnot _ (by decide) (by decide))
      stopping := fun heq => by
        obtain ⟨hnew, -⟩ | ⟨-, hold⟩ := hnew
        · rw [hnew] at heq
          cases heq
        · exact h.stopping hold
      stopped := fun hstarted => by
        refine ⟨(h.stopped hstarted).1, .inl ?_⟩
        have hstopping := h.stopping_of_live hstarted hlive
        obtain ⟨-, hold⟩ | ⟨hnew, -⟩ := hnew
        · rw [hold] at hstopping
          cases hstopping
        · exact hnew
      invalid := fun hset => ⟨(h.invalid hset).1, fun hterminal =>
        absurd (hlive'.symm.trans hterminal) Bool.false_ne_true⟩
      waiting := fun hwaiting =>
        absurd (hlaunching.initialized.symm.trans hwaiting) Bool.false_ne_true
      session := fun _ => hlaunching.launches
      ran := fun _ => rfl
      launching := fun heq => absurd heq (hnot _ (by decide) (by decide)) }
  · exact { (Does.refl : x.Does (some task) x) with
      status := by
        obtain ⟨hnew, hold⟩ | ⟨hnew, hold⟩ := hnew <;> rw [hnew, hold]
        · exact .inr .run
        · exact .inl rfl
      frozen := fun hterminal => absurd (hlive.symm.trans hterminal) Bool.false_ne_true
      uninitialized := fun _ heq => absurd heq (hnot _ (by decide) (by decide))
      session := fun hsome => by
        rw [hlaunching.session] at hsome
        cases hsome
      aside := fun _ hne hn => (alone hwriter hne hn).elim }
  · exact absurd heq (hnot _ (by decide) (by decide))

/-- The end of the session is published. -/
theorem Sound.published (h : x.Sound) (hwriter : x.activity.isWriter task = true) :
    x.Keeps (some task) x.published := by
  unfold Workflow.published
  split
  · rename_i hrunning
    have hlive : x.terminal = false := by rw [terminal, hrunning]; rfl
    have hnotstarted : x.cleanupStarted ≠ true := fun hstarted => by
      have := h.stopping_of_live hstarted hlive
      rw [hrunning] at this
      cases this
    exact
      { sound := { h with
          ended := by rw [h.ended, hlive]; rfl
          quiet := (by rintro ⟨⟩)
          completed := (by rintro ⟨⟩)
          failed := (by rintro ⟨⟩)
          stopping := (by rintro ⟨⟩)
          stopped := fun hstarted => absurd hstarted hnotstarted
          invalid := fun hset => absurd (h.invalid hset).1 hnotstarted
          waiting := fun hwaiting => by
            obtain hstatus | hstatus := h.waiting hwaiting <;> rw [hrunning] at hstatus <;> cases hstatus
          ran := fun _ => h.ran (.inl hrunning)
          launching := (by rintro ⟨⟩) }
        does := { (Does.refl : x.Does (some task) x) with
          status := .inr (by rw [hrunning]; exact .pull)
          frozen := fun hterminal => absurd (hlive.symm.trans hterminal) Bool.false_ne_true
          uninitialized := (by rintro _ ⟨⟩)
          aside := fun _ hne hn => (alone hwriter hne hn).elim }
        grip := fun _ => rfl }
  · exact ⟨h, .refl, fun _ => rfl⟩

/-- The ways to end a workflow. -/
inductive Ending (x : Workflow) (error : Option AppError) (requiresFullUpload : Bool) :
    WorkflowStatus → Prop
  | completed (hpulling : x.info.status = .pulling) (hclean : requiresFullUpload = false) :
      Ending x error requiresFullUpload .completed
  | cancelled (hstopping : x.info.status = .stopping) :
      Ending x error requiresFullUpload .cancelled
  | failed (hstopping : x.info.status = .stopping) (herror : error.isSome = true) :
      Ending x error requiresFullUpload .failed
  | uninitialized (hpreparing : x.info.status = .preparing) (herror : error.isSome = true)
      (hinit : x.initializationError.isSome = true) :
      Ending x error requiresFullUpload .failed

/-- Whoever has the write side ends the workflow. -/
theorem Sound.finished (h : x.Sound) (hwriter : x.activity.isWriter task = true)
    (hlive : x.terminal = false) (hdone : x.initializing = false) {status : WorkflowStatus}
    {error : Option AppError} {requiresFullUpload : Bool} {now : Instant}
    (hend : x.Ending error requiresFullUpload status)
    (hinvalid : x.invalidateProject = true → requiresFullUpload = true) :
    x.Keeps (some task) (x.finished status error requiresFullUpload now) := by
  have hterminal : (x.finished status error requiresFullUpload now).terminal = true := by
    cases hend <;> rfl
  have hleases : x.leases = [] := (grip_alone (n := task + 1) h hwriter (Nat.succ_ne_self _)).2
  have hno : ∀ {status' : WorkflowStatus}, status'.isTerminal = false → status ≠ status' := by
    rintro status' hstatus' rfl
    cases hend <;> cases hstatus'
  refine ⟨{ h with
      ended := hterminal.symm
      endedAt := rfl
      quiet := fun _ => hleases
      completed := fun heq => ?_
      failed := fun heq => ?_
      stopping := fun heq => absurd heq (hno rfl)
      stopped := fun hstarted => ⟨(h.stopped hstarted).1, .inr hterminal⟩
      invalid := fun hset => ⟨(h.invalid hset).1, fun _ => hinvalid hset⟩
      waiting := fun hwaiting => absurd (hdone.symm.trans hwaiting) Bool.false_ne_true
      ran := fun heq => ?_
      launching := fun heq => absurd heq (hno rfl) }, { (Does.refl : x.Does (some task) x) with
      status := ?_
      frozen := fun hterminal => absurd (hlive.symm.trans hterminal) Bool.false_ne_true
      uninitialized := fun hpreparing heq => ?_
      aside := fun _ hne hn => (alone hwriter hne hn).elim }, fun _ => rfl⟩
  · have hstatus : status = .completed := heq
    subst hstatus
    obtain ⟨hpulling, hclean⟩ | _ | _ | _ := hend
    refine ⟨hclean, ?_⟩
    show x.cleanupStarted = false
    by_contra hstarted
    have := h.stopping_of_live (by simpa using hstarted) hlive
    rw [hpulling] at this
    cases this
  · have hstatus : status = .failed := heq
    subst hstatus
    show (error.map _).isSome = true
    rw [Option.isSome_map]
    obtain _ | _ | ⟨-, herror⟩ | ⟨-, herror, -⟩ := hend <;> exact herror
  · obtain heq | heq := heq
    · exact absurd heq (hno rfl)
    · exact absurd heq (hno rfl)
  · refine .inr ?_
    show x.info.status.Moves status
    cases hend with
    | completed hpulling _ => exact hpulling ▸ .complete
    | cancelled hstopping => exact hstopping ▸ .cancelled
    | failed hstopping _ => exact hstopping ▸ .failed
    | uninitialized hpreparing _ _ => exact hpreparing ▸ .uninitialized
  · have hstatus : status = .failed := heq
    subst hstatus
    cases hend with
    | failed hstopping _ =>
        rw [hpreparing] at hstopping
        cases hstopping
    | uninitialized _ _ hinit => exact hinit

end Workflow

end VivadoServer.Workflows
