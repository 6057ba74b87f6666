/-
  VivadoServer.Workflows.Outline

  The proof outline of `WorkflowManager`: what holds of its shared state between
  any two steps (`Sound`), what a task may rely on at each place (`At`), and what
  a step may do to everybody else (`Does`).

  The slot is the heart of it: a workflow that is not terminal is the one that
  `registry.active` names, and its entry is not pruned.  A task that writes the
  marker of a project has the write side of a live workflow, so it is the only
  one that does.
-/

import VivadoServer.Workflows.Manager
import VivadoServer.Workflows.Record

namespace VivadoServer.Workflows

open VivadoServer.History (Uuid)
open VivadoServer.Sessions (Instant TerminationReason SessionInfo)

/-! ## What a task holds at each place -/

/-- What a task holds of some activity, a response body apart. -/
def Place.holds : Place → Option (Nat × Grip)
  | .createPath w | .createClean w | .createPublish w _ | .createFail w _ | .createNotify w _
  | .createInfo w _ => some (w, .writer)
  | .leaseCheck _ w | .leaseRefused w _ | .leaseRelease w _ => some (w, .guard)
  | .leased _ w | .uploadCall w .. | .uploadWait w _ | .leaseDrop w _ => some (w, .lease)
  | .pushPhase w | .pushOpen w | .pushCall w | .pushWait w _ | .pushRecord w _ => some (w, .writer)
  | .refresh w _ | .refreshLookup w .. | .refreshRead w .. | .refreshAbort w ..
  | .refreshWait w .. | .refreshClear w .. => some (w, .writer)
  | .commitPhase w _ | .commitCheck w _ | .commitOpen w _ | .commitRepeat w _
  | .commitRepeated w .. | .commitClean w _ | .commitDirty w .. | .commitCall w .. | .commitWait w ..
  | .commitRecord w .. | .commitBaseline w .. | .commitLookup w .. | .commitRead w ..
  | .commitMark w .. => some (w, .writer)
  | .abortPhase w _ | .abortCheck w _ | .abortCall w _ | .abortWait w .. | .abortRecord w .. =>
    some (w, .writer)
  | .startPhase w | .startInfo w | .startOpen w | .startDirty w | .startAgain w | .startCreate w
  | .startRegister w | .startWait w _ | .startRecord w .. | .startObserver w .. => some (w, .writer)
  | .observeCheck w .. | .observeMark w _ | .observePublish w _ => some (w, .writer)
  | .finishPhase w | .finishCall w | .finishWait w _ | .finishFailed w _ | .finishTerminal w
  | .finishDone w => some (w, .writer)
  | .cleanupLoop w | .cleanupRead w _ | .cleanupStop w .. | .cleanupRequest w ..
  | .cleanupSession w .. | .cleanupDegraded w _ | .cleanupDirty w | .cleanupCall w _
  | .cleanupWait w .. | .cleanupClean w _ | .cleanupTarget w .. | .cleanupTerminal w ..
  | .cleanupFailed w _ => some (w, .writer)
  | .fail _ _ _ next => next.holds
  | .unlock w _ => some (w, .writer)
  | _ => none

/-- The task counts in `tasks`. -/
def Place.tracked : Place → Bool
  | .heartbeat .. | .lease .. | .leaseLookup .. | .leaseAcquire .. | .leaseCheck ..
  | .leaseRefused .. | .leased .. | .uploadCall .. | .uploadWait .. | .leaseDrop ..
  | .leaseRelease .. | .body .. | .bodyCancel .. | .expire | .prune | .shutdown | .shutdownDrain
  | .shutdownSessions | .shutdownWait | .shutdownSync | .shutdownSynced .. | .background ..
  | .backgroundWait .. | .syncEnter .. | .sync .. | .done .. => false
  | _ => true

def Place.isBody : Place → Bool
  | .body _ => true
  | _ => false

/-- What a task says of one workflow. -/
def heldOn (held : Option (Nat × Grip)) (w : Nat) : Option Grip :=
  held.bind fun (w', grip) => if w' = w then some grip else none

@[simp] theorem heldOn_none (w : Nat) : heldOn none w = none := rfl

@[simp] theorem heldOn_self (w : Nat) (grip : Grip) : heldOn (some (w, grip)) w = some grip :=
  if_pos rfl

theorem heldOn_other {w w' : Nat} {grip : Grip} (h : w' ≠ w) :
    heldOn (some (w, grip)) w' = none := if_neg h.symm

namespace WorkflowManager

def grip (m : WorkflowManager) (task w : Nat) : Option Grip :=
  (m.workflows w).bind (·.grip task)

/-- The workflow exists and has the property. -/
def Has (m : WorkflowManager) (w : Nat) (P : Workflow → Prop) : Prop :=
  ∃ x, m.workflows w = some x ∧ P x

end WorkflowManager

/-! ## What a task knows at each place -/

/-- The way out of an operation, with or without the write side. -/
def Place.leaving (w : Nat) : Place → Prop
  | .leave _ => True
  | .unlock w' (.leave _) => w' = w
  | _ => False

def Place.Fact (task : Nat) (m : WorkflowManager) : Place → Prop
  | .create .. => m.workflows task = none
  | .createPath w | .createClean w | .createPublish w _ =>
    w = task ∧ m.Has w fun x => x.initializing = true ∧ x.launches = 0
  | .createFail w _ => m.Has w fun x => x.In .preparing ∧ x.initializationError.isSome = true
  | .createNotify w _ | .createInfo w _ | .pushPhase w | .commitPhase w _ | .abortPhase w _
  | .startPhase w | .observeCheck w .. | .finishPhase w | .finishDone w => m.Has w (·.Ready)
  | .pushOpen w | .pushCall w | .pushWait w _ | .pushRecord w _ | .refresh w _
  | .refreshLookup w .. | .refreshRead w .. | .refreshAbort w .. | .refreshWait w ..
  | .refreshClear w .. | .commitCheck w _ | .commitOpen w _ | .commitRepeat w _
  | .commitRepeated w .. | .commitClean w _ | .commitDirty w .. | .commitCall w .. | .commitWait w ..
  | .commitRecord w .. | .commitBaseline w .. | .commitLookup w .. | .commitRead w ..
  | .commitMark w .. | .abortCheck w _ | .abortCall w _ | .abortWait w .. | .abortRecord w ..
  | .startInfo w | .startOpen w | .startDirty w | .startAgain w | .startCreate w =>
    m.Has w (·.Preparing)
  | .startRegister w | .startWait w _ | .startRecord w .. => m.Has w (·.Launching)
  | .startObserver w .. | .observeMark w _ => m.Has w (·.In .running)
  | .observePublish w _ =>
    m.Has w fun x => x.In .running ∧ m.projects x.info.project = .clean
  | .finishCall w | .finishWait w _ | .finishFailed w _ | .finishTerminal w =>
    m.Has w (·.In .pulling)
  | .cleanupLoop w => m.Has w fun x => x.cleanupStarted = true ∧ x.initializing = false
  | .cleanupRead w _ | .cleanupStop w .. | .cleanupRequest w .. | .cleanupSession w ..
  | .cleanupDegraded w _ | .cleanupDirty w | .cleanupFailed w _ =>
    m.Has w (·.In .stopping)
  | .cleanupCall w invalidate | .cleanupWait w invalidate _ | .cleanupClean w invalidate =>
    m.Has w fun x => x.In .stopping ∧ (invalidate = true → m.projects x.info.project = .dirty)
  | .cleanupTarget w invalidate clean =>
    m.Has w fun x => x.In .stopping ∧ (invalidate = true → m.projects x.info.project = .dirty) ∧
      (clean = true → m.projects x.info.project = .clean)
  | .cleanupTerminal w invalidate clean target error =>
    (target = .cancelled ∨ (target = .failed ∧ error.isSome = true)) ∧
    m.Has w fun x => x.In .stopping ∧ (invalidate = true → m.projects x.info.project = .dirty) ∧
      (clean = true → m.projects x.info.project = .clean)
  | .cleanup w => m.Has w (·.cleanupStarted = true)
  | .fail w _ _ next =>
    next.leaving w ∧
      (next.holds ≠ none → m.Has w fun x => x.terminal = false ∧ x.initializing = false)
  | .unlock w next => (∃ answer, next = .leave answer) ∧ m.Has w (·.Ready)
  | _ => True

/-- What a task holds and knows at its place. -/
structure Place.At (task : Nat) (m : WorkflowManager) (p : Place) : Prop where
  held : (m.bodies task = none ∧ ∀ w, m.grip task w = heldOn p.holds w) ∨
    (∃ w, p = .body w ∧ m.bodies task = some w)
  tracked : task ∈ m.tracked ↔ p.tracked = true
  fact : p.Fact task m

/-- An id that no task has. -/
structure WorkflowManager.Idle (task : Nat) (m : WorkflowManager) : Prop where
  grip : ∀ w, m.grip task w = none
  body : m.bodies task = none
  tracked : task ∉ m.tracked
  created : m.workflows task = none

/-! ## The invariant of the manager -/

structure WorkflowManager.Sound (m : WorkflowManager) : Prop where
  record : ∀ {w x}, m.workflows w = some x → x.Sound
  /-- The creator holds on to a workflow that is not initialized. -/
  creator : ∀ {w x}, m.workflows w = some x → x.initializing = true →
    x.activity.isWriter w = true
  distinct : (m.entries.map (·.1)).Nodup
  entry : ∀ {id w}, (id, w) ∈ m.entries → m.Has w (·.info.workflowId = id)
  /-- A live workflow has the slot, and its entry. -/
  slot : ∀ {w x}, m.workflows w = some x → x.terminal = false →
    m.active = some x.info.workflowId ∧ (x.info.workflowId, w) ∈ m.entries
  active : ∀ {id}, m.active = some id → ∃ w x, (id, w) ∈ m.entries ∧ m.workflows w = some x ∧
    x.terminal = false
  /-- What can be pulled is clean. -/
  pulling : ∀ {w x}, m.workflows w = some x → x.info.status = .pulling →
    m.projects x.info.project = .clean
  tracked : m.tracked.Nodup
  /-- A body has the lease of the task that sent the response. -/
  carried : ∀ {n w}, m.bodies n = some w → ∀ w', m.grip n w' = heldOn (some (w, .lease)) w'

/-! ## What a step may do -/

structure WorkflowManager.Does (mover born : Option Nat) (s t : WorkflowManager) : Prop where
  workflow : ∀ {w x}, s.workflows w = some x → ∃ y, t.workflows w = some y ∧ x.Does mover y
  fresh : ∀ {w}, s.workflows w = none → t.workflows w = none ∨ mover = some w
  /-- The grips of others stay, but that the lease of a body may be taken over. -/
  grip : ∀ n, mover ≠ some n → (t.bodies n = s.bodies n ∧ ∀ w, t.grip n w = s.grip n w) ∨
    (s.bodies n ≠ none ∧ t.bodies n = none ∧ ∀ w, t.grip n w = none)
  tracked : ∀ n, mover ≠ some n → born ≠ some n → (n ∈ t.tracked ↔ n ∈ s.tracked)
  /-- Nobody else writes the marker under a live workflow that somebody has locked. -/
  projects : ∀ {n w x}, mover ≠ some n → s.workflows w = some x →
    x.activity.isWriter n = true → x.terminal = false →
    t.projects x.info.project = s.projects x.info.project
  entries : ∀ {id w}, (id, w) ∈ t.entries → (id, w) ∈ s.entries ∨ mover = some w
  /-- Pruning takes only what has ended. -/
  pruned : ∀ {id w}, (id, w) ∈ s.entries → (id, w) ∉ t.entries → s.Has w (·.terminal = true)
  stopping : s.stopping = true → t.stopping = true
  /-- What ends without a full upload to come leaves a clean project, and pulled from it
      if it completed. -/
  ended : ∀ {w x y}, s.workflows w = some x → t.workflows w = some y → x.terminal = false →
    y.terminal = true → (y.info.requiresFullUpload = false →
      t.projects y.info.project = .clean) ∧
      (y.info.status = .completed → x.info.status = .pulling) ∧ t.active = none

namespace WorkflowManager

variable {m s t : WorkflowManager} {mover born : Option Nat} {task w : Nat} {x y : Workflow}

@[simp] theorem put_workflows_self (m : WorkflowManager) (w : Nat) (x : Workflow) :
    (m.put w x).workflows w = some x := Function.update_self ..

theorem put_workflows_other {w' : Nat} (h : w' ≠ w) :
    (m.put w x).workflows w' = m.workflows w' := Function.update_of_ne h ..

theorem grip_eq (hx : m.workflows w = some x) : m.grip task w = x.grip task := by
  rw [grip, hx]
  rfl

theorem grip_put_self (n : Nat) : (m.put w y).grip n w = y.grip n := grip_eq (put_workflows_self ..)

theorem grip_put_other {n w' : Nat} (h : w' ≠ w) : (m.put w y).grip n w' = m.grip n w' := by
  rw [grip, put_workflows_other h, grip]

/-- What somebody holds exists. -/
theorem has_of_grip {grip : Grip} (h : m.grip task w = some grip) :
    m.Has w fun x => x.grip task = some grip :=
  Option.bind_eq_some_iff.mp h

/-- At most one workflow is live. -/
theorem Sound.live_unique (h : m.Sound) {w' : Nat} (hx : m.workflows w = some x)
    (hy : m.workflows w' = some y) (hlive : x.terminal = false) (hlive' : y.terminal = false) :
    w = w' := by
  obtain ⟨hactive, hentry⟩ := h.slot hx hlive
  obtain ⟨hactive', hentry'⟩ := h.slot hy hlive'
  rw [hactive] at hactive'
  rw [← Option.some.inj hactive'] at hentry'
  have := List.inj_on_of_nodup_map h.distinct hentry hentry' rfl
  exact congrArg Prod.snd this

/-- `lookup` finds the one entry of an id. -/
theorem Sound.lookup_eq (h : m.Sound) {id : Uuid} : m.lookup id = some w ↔ (id, w) ∈ m.entries := by
  have hdistinct := h.distinct
  rw [lookup]
  generalize m.entries = entries at hdistinct
  induction entries with
  | nil => simp
  | cons entry entries ih =>
      obtain ⟨id', w'⟩ := entry
      rw [List.map_cons, List.nodup_cons] at hdistinct
      rw [List.lookup_cons, List.mem_cons]
      by_cases hid : id = id'
      · subst hid
        rw [beq_self_eq_true]
        refine ⟨fun heq => .inl ?_, fun hmem => ?_⟩
        · rw [Option.some.inj heq]
        · obtain heq | hmem := hmem
          · rw [(Prod.mk.inj heq).2]
          · exact absurd (List.mem_map_of_mem (f := (·.1)) hmem) hdistinct.1
      · rw [beq_false_of_ne hid]
        refine (ih hdistinct.2).trans ⟨.inr, fun hmem => ?_⟩
        exact hmem.resolve_left fun heq => hid (Prod.mk.inj heq).1

/-- `registry.active` names a workflow that is live, and `owner` finds it. -/
theorem Sound.owner_live (h : m.Sound) (howner : m.owner = some w) :
    m.Has w fun x => x.terminal = false ∧ m.active = some x.info.workflowId := by
  obtain ⟨id, hactive, hlookup⟩ := Option.bind_eq_some_iff.mp howner
  obtain ⟨w', x, hentry, hx, hlive⟩ := h.active hactive
  have heq : w = w' := Option.some.inj (hlookup.symm.trans (h.lookup_eq.mpr hentry))
  subst heq
  exact ⟨x, hx, hlive, (h.slot hx hlive).1⟩

theorem Does.refl : s.Does mover born s where
  workflow h := ⟨_, h, .refl⟩
  fresh h := .inl h
  grip _ _ := .inl ⟨rfl, fun _ => rfl⟩
  tracked _ _ _ := Iff.rfl
  projects _ _ _ _ := rfl
  entries h := .inl h
  pruned h h' := absurd h h'
  stopping h := h
  ended hx hy hlive hterminal := by
    rw [hx] at hy
    cases hy
    rw [hlive] at hterminal
    cases hterminal

end WorkflowManager

/-! ## Stability -/

section Stability

variable {s t : WorkflowManager} {mover born : Option Nat} {task w : Nat}

theorem WorkflowManager.Has.mono {P Q : Workflow → Prop} (h : s.Has w P)
    (hdoes : s.Does mover born t) (hkeep : ∀ x y, x.Does mover y → P x → Q y) : t.Has w Q := by
  obtain ⟨x, hx, hP⟩ := h
  obtain ⟨y, hy, hxy⟩ := hdoes.workflow hx
  exact ⟨y, hy, hkeep x y hxy hP⟩

/-- A property that survives what happens aside, of a workflow the task has locked. -/
theorem WorkflowManager.Has.aside {P Q : Workflow → Prop} (h : s.Has w P)
    (hdoes : s.Does mover born t) (hne : mover ≠ some task)
    (hgrip : s.grip task w = some .writer)
    (hkeep : ∀ x y, s.workflows w = some x → x.activity.isWriter task = true → x.Aside y → x.Does mover y →
      P x → Q y) : t.Has w Q := by
  obtain ⟨x, hx, hP⟩ := h
  rw [WorkflowManager.grip_eq hx] at hgrip
  have hwriter := Workflow.grip_writer.mp hgrip
  obtain ⟨y, hy, hxy⟩ := hdoes.workflow hx
  exact ⟨y, hy, hkeep x y hx hwriter (hxy.aside task hne hwriter) hxy hP⟩

namespace Workflow.Aside

variable {x y : Workflow}

theorem settled (h : x.Aside y) (hsettled : x.Settled) : y.Settled := by
  intro hstatus
  rw [h.launches]
  obtain hsame | ⟨-, hstopping⟩ := h.status
  · exact hsettled (hsame.symm.trans hstatus)
  · rw [hstatus] at hstopping
    cases hstopping

theorem ready (h : x.Aside y) (hready : x.Ready) : y.Ready :=
  ⟨h.initializing.trans hready.initialized, h.settled hready.settled⟩

theorem status_or {status : WorkflowStatus} (h : x.Aside y)
    (hstatus : x.info.status = status ∨ x.info.status = .stopping) :
    y.info.status = status ∨ y.info.status = .stopping := by
  obtain hsame | ⟨-, hstopping⟩ := h.status
  · rw [hsame]
    exact hstatus
  · exact .inr hstopping

theorem isIn {status : WorkflowStatus} (h : x.Aside y) (hin : x.In status) : y.In status :=
  ⟨h.initializing.trans hin.initialized, h.status_or hin.status, h.settled hin.settled⟩

theorem preparing (h : x.Aside y) (hpreparing : x.Preparing) : y.Preparing :=
  ⟨h.isIn hpreparing.toIn, h.launches.trans hpreparing.launches⟩

theorem launching (h : x.Aside y) (hlaunching : x.Launching) : y.Launching :=
  ⟨h.initializing.trans hlaunching.initialized, h.status_or hlaunching.status,
    h.launches.trans hlaunching.launches, h.session.trans hlaunching.session⟩

theorem live (h : x.Aside y) (hlive : x.terminal = false) : y.terminal = false := by
  obtain hsame | ⟨-, hstopping⟩ := h.status
  · rw [Workflow.terminal, hsame]
    exact hlive
  · exact Workflow.live_of_stopping hstopping

end Workflow.Aside

/-- The marker under a live workflow stays while somebody has locked it. -/
theorem WorkflowManager.Does.marker {x y : Workflow} (hdoes : s.Does mover born t)
    (hne : mover ≠ some task) (hx : s.workflows w = some x) (hwriter : x.activity.isWriter task = true)
    (hxy : x.Does mover y) (hlive : x.terminal = false) {marker : Marker}
    (h : s.projects x.info.project = marker) : t.projects y.info.project = marker := by
  rw [hxy.project, hdoes.projects hne hx hwriter hlive]
  exact h

theorem Place.At.grip_of {p : Place} {m : WorkflowManager} {grip : Grip} (h : p.At task m)
    (hholds : p.holds = some (w, grip)) : m.grip task w = some grip := by
  obtain ⟨-, hgrip⟩ | ⟨w', rfl, -⟩ := h.held
  · rw [hgrip, hholds, heldOn_self]
  · cases hholds

/-- What a task knows, it still knows after a step of somebody else. -/
theorem Place.Fact.mono {p : Place} (h : p.At task s) (hdoes : s.Does mover born t)
    (hne : mover ≠ some task) : p.Fact task t := by
  have hfact := h.fact
  -- the facts about a workflow that the task has locked
  have hheld : ∀ {w} {P : Workflow → Prop}, p.holds = some (w, .writer) → s.Has w P →
      (∀ {x y}, x.Aside y → P x → P y) → t.Has w P :=
    fun hholds hP hkeep =>
      hP.aside hdoes hne (h.grip_of hholds) fun _ _ _ _ haside _ => hkeep haside
  have hmarked : ∀ {w status} {P : WorkflowManager → Workflow → Prop},
      p.holds = some (w, .writer) → status.isTerminal = false →
      (∀ {x y : Workflow}, (∀ marker, s.projects x.info.project = marker →
        t.projects y.info.project = marker) → P s x → P t y) →
      (s.Has w fun x => x.In status ∧ P s x) → t.Has w fun x => x.In status ∧ P t x := by
    intro w status P hholds hstatus hkeep hP
    refine hP.aside hdoes hne (h.grip_of hholds) fun x y hx hwriter haside hxy ⟨hin, hPx⟩ =>
      ⟨haside.isIn hin, hkeep (fun marker hmarker => ?_) hPx⟩
    exact hdoes.marker hne hx hwriter hxy (hin.live hstatus) hmarker
  cases p with
  | create =>
      obtain hnone | hmover := hdoes.fresh hfact
      · exact hnone
      · exact absurd hmover hne
  | createPath | createClean | createPublish =>
      exact ⟨hfact.1, hheld rfl hfact.2 fun haside ⟨hwaiting, hnone⟩ =>
        ⟨haside.initializing.trans hwaiting, haside.launches.trans hnone⟩⟩
  | createFail =>
      exact hheld rfl hfact fun haside ⟨hin, herror⟩ =>
        ⟨haside.isIn hin, haside.initializationError ▸ herror⟩
  | createNotify | createInfo | pushPhase | commitPhase | abortPhase | startPhase | observeCheck
  | finishPhase | finishDone => exact hheld rfl hfact fun haside => haside.ready
  | pushOpen | pushCall | pushWait | pushRecord | refresh | refreshLookup | refreshRead
  | refreshAbort | refreshWait | refreshClear | commitCheck | commitOpen | commitRepeat
  | commitRepeated | commitClean | commitDirty | commitCall | commitWait | commitRecord
  | commitBaseline | commitLookup | commitRead | commitMark | abortCheck | abortCall | abortWait
  | abortRecord | startInfo | startOpen | startDirty | startAgain | startCreate =>
      exact hheld rfl hfact fun haside => haside.preparing
  | startObserver | observeMark | finishCall | finishWait | finishFailed | finishTerminal | cleanupRead | cleanupStop
  | cleanupRequest | cleanupSession | cleanupDegraded | cleanupDirty | cleanupFailed =>
      exact hheld rfl hfact fun haside => haside.isIn
  | startRegister | startWait | startRecord =>
      exact hheld rfl hfact fun haside => haside.launching
  | observePublish =>
      exact hmarked (P := fun m x => m.projects x.info.project = .clean) rfl rfl
        (fun hmarker => hmarker _) hfact
  | cleanupCall w invalidate | cleanupWait w invalidate _ | cleanupClean w invalidate =>
      exact hmarked (P := fun m x => invalidate = true → m.projects x.info.project = .dirty) rfl rfl
        (fun hmarker hdirty hset => hmarker _ (hdirty hset)) hfact
  | cleanupTarget w invalidate clean =>
      exact hmarked (P := fun m x => (invalidate = true → m.projects x.info.project = .dirty) ∧
        (clean = true → m.projects x.info.project = .clean)) rfl rfl
        (fun hmarker ⟨hdirty, hclean⟩ =>
          ⟨fun hset => hmarker _ (hdirty hset), fun hset => hmarker _ (hclean hset)⟩) hfact
  | cleanupTerminal w invalidate clean =>
      exact ⟨hfact.1, hmarked (P := fun m x => (invalidate = true → m.projects x.info.project = .dirty) ∧
        (clean = true → m.projects x.info.project = .clean)) rfl rfl
        (fun hmarker ⟨hdirty, hclean⟩ =>
          ⟨fun hset => hmarker _ (hdirty hset), fun hset => hmarker _ (hclean hset)⟩) hfact.2⟩
  | cleanupLoop =>
      exact hheld rfl hfact fun haside ⟨hstarted, hdone⟩ =>
        ⟨haside.stopped hstarted, haside.initializing.trans hdone⟩
  | cleanup => exact WorkflowManager.Has.mono hfact hdoes fun _ _ hxy => hxy.stopped
  | fail w error invalidate next =>
      refine ⟨hfact.1, fun hholds => ?_⟩
      have hnext : next.holds = some (w, .writer) := by
        have hleaving := hfact.1
        cases next with
        | leave => exact absurd rfl hholds
        | unlock w' next =>
            cases next with
            | leave =>
                have heq : w' = w := hleaving
                rw [heq]
                rfl
            | _ => exact hleaving.elim
        | _ => exact hleaving.elim
      exact hheld hnext (hfact.2 hholds) fun haside ⟨hlive, hdone⟩ =>
        ⟨haside.live hlive, haside.initializing.trans hdone⟩
  | unlock w next =>
      exact ⟨hfact.1, hheld rfl hfact.2 fun haside => haside.ready⟩
  | _ => trivial

/-- The assertions are stable under the steps of others. -/
theorem Place.At.mono {p : Place} (h : p.At task s) (hdoes : s.Does mover born t)
    (hne : mover ≠ some task) (hborn : born ≠ some task) : p.At task t where
  held := by
    obtain ⟨hbody, hgrip⟩ | ⟨hbody, hbody', hgrip⟩ := hdoes.grip task hne
    · simp only [hbody, hgrip]
      exact h.held
    · obtain ⟨hnone, -⟩ | ⟨w, rfl, -⟩ := h.held
      · exact absurd hnone hbody
      · exact .inl ⟨hbody', hgrip⟩
  tracked := (hdoes.tracked task hne hborn).trans h.tracked
  fact := Place.Fact.mono h hdoes hne

theorem WorkflowManager.Idle.mono (h : WorkflowManager.Idle task s) (hdoes : s.Does mover born t)
    (hne : mover ≠ some task) (hborn : born ≠ some task) : WorkflowManager.Idle task t := by
  obtain ⟨hbody, hgrip⟩ | ⟨hbody, -⟩ := hdoes.grip task hne
  · exact
      { grip := fun w => (hgrip w).trans (h.grip w)
        body := hbody.trans h.body
        tracked := fun hmem => h.tracked ((hdoes.tracked task hne hborn).mp hmem)
        created := (hdoes.fresh h.created).resolve_right hne }
  · exact absurd h.body hbody

end Stability

end VivadoServer.Workflows
