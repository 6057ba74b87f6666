/-
  VivadoServer.Workflows.Lifecycle

  What holds of every run of the workflows, whatever the order of the steps and
  whatever fails: one live workflow at a time, the diagram of the phases, who
  holds an activity, and what a workflow leaves behind when it ends.
-/

import VivadoServer.Workflows.Steps

namespace VivadoServer.Workflows

open StepSystem (Run)
open VivadoServer.History (Uuid)
open VivadoServer.Sessions (Instant)

/-! ## The outline -/

/-- A task from outside starts with nothing in its hands. -/
theorem entry_at {task : Nat} {m m' : WorkflowManager} {p : Place} (h : m.Sound)
    (hidle : WorkflowManager.Idle task m) (henter : WorkflowManager.enter task m p = some m') :
    m'.Sound ∧ p.At task m' ∧ m.Does (some task) none m' := by
  unfold WorkflowManager.enter at henter
  split at henter
  · rename_i hentry
    split at henter
    · cases henter
    · cases henter
      refine ⟨{ h with tracked := List.nodup_cons.mpr ⟨hidle.tracked, h.tracked⟩ }, ?_,
        { (WorkflowManager.Does.refl : m.Does (some task) none m) with
          tracked := fun n hn _ => ⟨List.mem_of_ne_of_mem fun heq => hn (congrArg some heq.symm),
            List.mem_cons_of_mem _⟩ }⟩
      have hplace : p.holds = none ∧ p.tracked = true ∧
          p.Fact task { m with tracked := task :: m.tracked } := by
        cases p <;> first
          | cases hentry; done
          | exact ⟨rfl, rfl, hidle.created⟩
          | exact ⟨rfl, rfl, trivial⟩
          | simp [Place.entry] at hentry
      exact
        { held := .inl ⟨hidle.body, fun w => by
            rw [hplace.1]
            exact hidle.grip w⟩
          tracked := ⟨fun _ => hplace.2.1, fun _ => List.mem_cons_self⟩
          fact := hplace.2.2 }
  · rename_i hentry
    cases henter
    refine ⟨h, ?_, .refl⟩
    have hplace : p.holds = none ∧ p.tracked = false ∧ p.Fact task m := by
      cases p <;> first
        | cases hentry; done
        | exact ⟨rfl, rfl, trivial⟩
    exact
      { held := .inl ⟨hidle.body, fun w => by
          rw [hplace.1]
          exact hidle.grip w⟩
        tracked := ⟨fun hmem => absurd hmem hidle.tracked, fun heq => by
          rw [hplace.2.1] at heq
          cases heq⟩
        fact := hplace.2.2 }
  · cases henter

/-- The clock and the sessions move beside the workflows. -/
theorem env_same {e : Event} {m m' : WorkflowManager} (henv : WorkflowManager.env e m = some m') :
    m.Same m' := by
  cases e with
  | tick elapsed =>
      cases henv
      exact ⟨rfl, rfl, rfl, rfl, rfl, rfl, rfl⟩
  | session id action error =>
      obtain ⟨sessions, -, rfl⟩ := Option.map_eq_some_iff.mp henv
      exact ⟨rfl, rfl, rfl, rfl, rfl, rfl, rfl⟩

def outline : Tasks.Outline program where
  Inv := WorkflowManager.Sound
  At := fun task m p => p.At task m
  Idle := WorkflowManager.Idle
  Does := WorkflowManager.Does
  enter := entry_at
  exec h hat hstep hchild := by
    have hgood := exec_good h hat hchild hstep
    exact ⟨hgood.sound, hgood.place, hgood.does, hgood.born⟩
  env h henv := ⟨(env_same henv).sound h, (env_same henv).does⟩
  stable _ _ hdoes hne hborn hat := hat.mono hdoes hne hborn
  idle hdoes hne hborn hidle := hidle.mono hdoes hne hborn

section Runs

variable {config : Config} {sync : Sync.Config} {sessions : SessionConfig}
  {projects : String → Marker} {staging : Uuid → Option Sync.Staging}
  {ok ok' : Action → Sys → Prop} {s t : Sys} {a : Action} {w : Nat} {x y : Workflow}

theorem start_sound : (WorkflowManager.start config sync sessions projects staging).Sound where
  record := by rintro _ _ ⟨⟩
  creator := by rintro _ _ ⟨⟩
  distinct := List.nodup_nil
  entry hmem := absurd hmem List.not_mem_nil
  slot := by rintro _ _ ⟨⟩
  active := by rintro _ ⟨⟩
  pulling := by rintro _ _ ⟨⟩
  tracked := List.nodup_nil
  carried := by rintro _ _ ⟨⟩

/-- The outline holds in every state of every run. -/
theorem holds_of_run (hrun : Run program.step ok (Sys.start config sync sessions projects staging) s) :
    outline.Holds s :=
  outline.run_holds hrun (outline.start_holds start_sound fun _ =>
    ⟨fun _ => rfl, rfl, List.not_mem_nil, rfl⟩)

/-! ## A small run -/

def sampleSys : Sys :=
  Sys.start ⟨60000, 1000, 4⟩ ⟨1000, 1000⟩ ⟨1000, 4, 64, 64⟩ (fun _ => .dirty) fun _ => none

/-- A workflow is created for a project that is not clean, and reset. -/
def sampleCreate : List Action :=
  [.enter 0 (.create 7 ⟨"alu", true⟩), .exec 0 .go 9, .exec 0 (.io (.ok ())) 9,
    .exec 0 (.clean (.ok false)) 9, .exec 0 .go 9, .exec 0 .go 9, .exec 0 .go 9, .exec 0 .go 9]

/-- Its manifest is asked for. -/
def sampleLease : List Action :=
  [.enter 1 (.lease .manifest 7), .exec 1 .go 9, .exec 1 .go 9, .exec 1 .go 9, .exec 1 .go 9]

/-- In every reachable state the workflow that `registry.active` names is live and
    found by its id, every other workflow has ended, and no two entries share an id. -/
theorem active_exact
    (hrun : Run program.step ok (Sys.start config sync sessions projects staging) s) :
    (∀ {w x}, s.shared.workflows w = some x → (x.terminal = false ↔
      s.shared.active = some x.info.workflowId ∧ s.shared.lookup x.info.workflowId = some w)) ∧
    (∀ {id}, s.shared.active = some id → ∃ w x, s.shared.lookup id = some w ∧
      s.shared.workflows w = some x ∧ x.info.workflowId = id ∧ x.terminal = false) ∧
    (s.shared.entries.map (·.1)).Nodup := by
  have h : s.shared.Sound := (holds_of_run hrun).inv
  have hnamed : ∀ {id}, s.shared.active = some id → ∃ w x, s.shared.lookup id = some w ∧
      s.shared.workflows w = some x ∧ x.info.workflowId = id ∧ x.terminal = false := by
    intro id hactive
    obtain ⟨w, x, hmem, hx, hlive⟩ := h.active hactive
    obtain ⟨x', hx', hid⟩ := h.entry hmem
    rw [hx] at hx'
    cases hx'
    exact ⟨w, x, h.lookup_eq.mpr hmem, hx, hid, hlive⟩
  refine ⟨fun {w x} hx => ⟨fun hlive => ?_, fun ⟨hactive, hlookup⟩ => ?_⟩, hnamed, h.distinct⟩
  · exact ⟨(h.slot hx hlive).1, h.lookup_eq.mpr (h.slot hx hlive).2⟩
  · obtain ⟨w', x', hlookup', hx', -, hlive⟩ := hnamed hactive
    rw [hlookup] at hlookup'
    cases hlookup'
    rw [hx] at hx'
    cases hx'
    exact hlive

theorem active_exact_sample : ∃ (s : Sys) (x : Workflow), s.shared.workflows 0 = some x ∧ x.terminal = false ∧ s.shared.active = some 7 ∧
    s.shared.lookup x.info.workflowId = some 0 := by
  have hexec : (StepSystem.exec program.step sampleCreate sampleSys).any (fun s =>
      (s.shared.workflows 0).any (fun x => x.info.workflowId == 7 && !x.terminal)) = true := by
    decide +kernel
  obtain ⟨s, hs, hcheck⟩ := StepSystem.exists_of_exec hexec
  obtain ⟨x, hx, hcheck⟩ := (Option.any_eq_true _ _).mp hcheck
  simp only [Bool.and_eq_true, beq_iff_eq, Bool.not_eq_true'] at hcheck
  obtain ⟨hactive, hlookup⟩ := ((active_exact (Run.of_exec hs)).1 hx).mp hcheck.2
  rw [hcheck.1] at hactive
  exact ⟨s, x, hx, hcheck.2, hactive, hlookup⟩

/-! ## The diagram of the phases -/

/-- What becomes of a workflow over time. -/
structure Workflow.Evolves (x y : Workflow) : Prop where
  workflowId : y.info.workflowId = x.info.workflowId
  project : y.info.project = x.info.project
  request : y.request = x.request
  status : Relation.ReflTransGen WorkflowStatus.Moves x.info.status y.info.status
  frozen : x.terminal = true → y.info = x.info ∧ y.ended = x.ended
  initialized : x.initializing = false →
    y.initializing = false ∧ y.initializationError = x.initializationError
  session : x.info.sessionId.isSome = true → y.info.sessionId = x.info.sessionId
  launches : x.launches ≤ y.launches
  stopped : x.cleanupStarted = true → y.cleanupStarted = true
  invalid : x.invalidateProject = true → y.invalidateProject = true
  target : x.cleanupTarget = .failed → y.cleanupTarget = .failed

theorem Workflow.Evolves.trans {z : Workflow} (h₁ : x.Evolves y) (h₂ : y.Evolves z) : x.Evolves z where
  workflowId := h₂.workflowId.trans h₁.workflowId
  project := h₂.project.trans h₁.project
  request := h₂.request.trans h₁.request
  status := h₁.status.trans h₂.status
  frozen hterminal := by
    obtain ⟨hinfo, hended⟩ := h₁.frozen hterminal
    have hterminal' : y.terminal = true := by rw [Workflow.terminal, hinfo]; exact hterminal
    obtain ⟨hinfo', hended'⟩ := h₂.frozen hterminal'
    exact ⟨hinfo'.trans hinfo, hended'.trans hended⟩
  initialized hdone := by
    obtain ⟨hdone', herror⟩ := h₁.initialized hdone
    exact ⟨(h₂.initialized hdone').1, (h₂.initialized hdone').2.trans herror⟩
  session hsome := by
    have hsame := h₁.session hsome
    rw [← hsame] at hsome ⊢
    exact h₂.session hsome
  launches := h₁.launches.trans h₂.launches
  stopped hset := h₂.stopped (h₁.stopped hset)
  invalid hset := h₂.invalid (h₁.invalid hset)
  target heq := h₂.target (h₁.target heq)

theorem Workflow.Does.evolves {mover : Option Nat} (h : x.Does mover y) : x.Evolves y where
  workflowId := h.workflowId
  project := h.project
  request := h.request
  status := by
    obtain hsame | hmoves := h.status
    · rw [hsame]
    · exact .single hmoves
  frozen := h.frozen
  initialized := h.initialized
  session := h.session
  launches := h.launches
  stopped := h.stopped
  invalid := h.invalid
  target := h.target

/-- Between any two states of a run a workflow moves along the diagram of the
    phases and nowhere else.  Its record stands still from its end on, it keeps
    the one session it launched at most, a request to stop or to invalidate is
    never taken back, and only an initialization that failed leads from Preparing
    to Failed. -/
theorem workflow_lifecycle
    (hrun : Run program.step ok (Sys.start config sync sessions projects staging) s)
    (hrun' : Run program.step ok' s t) (hx : s.shared.workflows w = some x) :
    ∃ y, t.shared.workflows w = some y ∧ x.Evolves y ∧ y.launches ≤ 1 ∧
      (y.info.sessionId.isSome = true → y.launches = 1) ∧
      (y.info.status = .failed → y.info.errorCode.isSome = true) ∧
      ∀ {a u z}, program.step a t = some u → u.shared.workflows w = some z →
        (z.info.status = y.info.status ∨ y.info.status.Moves z.info.status) ∧
        (y.info.status = .preparing → z.info.status = .failed →
          z.initializationError.isSome = true) := by
  have hholds := holds_of_run hrun
  have hevolves : ∀ {w x}, s.shared.workflows w = some x →
      ∃ y, t.shared.workflows w = some y ∧ x.Evolves y := by
    refine outline.run_related (R := fun s t => ∀ {w x}, s.workflows w = some x →
        ∃ y, t.workflows w = some y ∧ x.Evolves y)
      (fun _ _ x hx => ⟨x, hx, (.refl : x.Does none x).evolves⟩)
      (fun _ _ _ h₁ h₂ _ _ hx => ?_) (fun _ _ _ _ _ hdoes _ _ hx => ?_) hrun' hholds
    · obtain ⟨y, hy, hxy⟩ := h₁ hx
      obtain ⟨z, hz, hyz⟩ := h₂ hy
      exact ⟨z, hz, hxy.trans hyz⟩
    · obtain ⟨y, hy, hxy⟩ := hdoes.workflow hx
      exact ⟨y, hy, hxy.evolves⟩
  obtain ⟨y, hy, hxy⟩ := hevolves hx
  have hholds' := outline.run_holds hrun' hholds
  have hsound := hholds'.inv.record hy
  refine ⟨y, hy, hxy, hsound.launches, hsound.session, hsound.failed, fun {a u z} hstep hz => ?_⟩
  obtain ⟨mover, born, hdoes⟩ := outline.step_does hholds' hstep
  obtain ⟨z', hz', hyz⟩ := hdoes.workflow hy
  rw [hz] at hz'
  cases hz'
  exact ⟨hyz.status, hyz.uninitialized⟩

theorem workflow_lifecycle_sample : ∃ (s t : Sys) (x y : Workflow), s.shared.workflows 0 = some x ∧
    x.info.status = .preparing ∧ t.shared.workflows 0 = some y ∧ x.Evolves y ∧ y.launches ≤ 1 := by
  have hexec : (StepSystem.exec program.step sampleCreate sampleSys).any (fun s =>
      (s.shared.workflows 0).any (·.info.status == .preparing) &&
        (StepSystem.exec program.step sampleLease s).isSome) = true := by
    decide +kernel
  obtain ⟨s, hs, hcheck⟩ := StepSystem.exists_of_exec hexec
  simp only [Bool.and_eq_true] at hcheck
  obtain ⟨x, hx, hstatus⟩ := (Option.any_eq_true _ _).mp hcheck.1
  obtain ⟨t, ht⟩ := Option.isSome_iff_exists.mp hcheck.2
  obtain ⟨y, hy, hxy, hlaunches, -⟩ := workflow_lifecycle (Run.of_exec hs) (Run.of_exec ht) hx
  exact ⟨s, t, x, y, hx, beq_iff_eq.mp hstatus, hy, hxy, hlaunches⟩

/-! ## Who holds an activity -/

/-- The task carries a lease of the workflow at its place. -/
def Place.leases (m : WorkflowManager) (task w : Nat) (p : Place) : Prop :=
  p.holds = some (w, .lease) ∨ p = .body w ∧ m.bodies task = some w

/-- A grip is held at the places that hold it, and nowhere else. -/
theorem grip_exact {grip : Grip} {n : Nat} (h : outline.Holds s) :
    s.shared.grip n w = some grip ↔ ∃ p, s.tasks n = some p ∧
      (p.holds = some (w, grip) ∨ grip = .lease ∧ p = .body w ∧ s.shared.bodies n = some w) := by
  cases hp : s.tasks n with
  | none =>
      have hidle := h.idle hp
      refine ⟨fun hgrip => ?_, fun ⟨p, heq, _⟩ => absurd heq (by rintro ⟨⟩)⟩
      rw [hidle.grip w] at hgrip
      cases hgrip
  | some p =>
      have hat := h.places hp
      obtain ⟨hnone, hgrip⟩ | ⟨w', rfl, hbody⟩ := hat.held
      · rw [hgrip]
        refine ⟨fun heq => ⟨p, rfl, .inl ?_⟩, fun ⟨p', heq, hholds⟩ => ?_⟩
        · cases hholds : p.holds with
          | none =>
              rw [hholds] at heq
              cases heq
          | some held =>
              obtain ⟨w', grip'⟩ := held
              rw [hholds] at heq
              by_cases hw : w = w'
              · subst hw
                rw [heldOn_self] at heq
                rw [Option.some.inj heq]
              · rw [heldOn_other hw] at heq
                cases heq
        · cases heq
          obtain hholds | ⟨-, -, hbody⟩ := hholds
          · rw [hholds, heldOn_self]
          · rw [hnone] at hbody
            cases hbody
      · rw [h.inv.carried hbody w]
        refine ⟨fun heq => ⟨_, rfl, .inr ?_⟩, fun ⟨p', heq, hholds⟩ => ?_⟩
        · by_cases hw : w = w'
          · subst hw
            rw [heldOn_self] at heq
            exact ⟨(Option.some.inj heq).symm, rfl, hbody⟩
          · rw [heldOn_other hw] at heq
            cases heq
        · cases heq
          obtain hholds | ⟨rfl, heq, -⟩ := hholds
          · cases hholds
          · cases heq
            exact heldOn_self ..

/-- In every reachable state `transfers` counts the leases, which are held by just the
    tasks that stand where a lease is held, or whose response body still carries
    one.  The write side is held by just the task that stands inside it, and then
    there is no lease.  A workflow that has ended has none, and no step grants one
    before the initialization or behind a request to stop. -/
theorem leases_exact
    (hrun : Run program.step ok (Sys.start config sync sessions projects staging) s)
    (hx : s.shared.workflows w = some x) :
    x.transfers = x.leases.length ∧ x.leases.Nodup ∧
    (∀ n, n ∈ x.leases ↔ ∃ p, s.tasks n = some p ∧ p.leases s.shared n w) ∧
    (∀ n, x.activity = .exclusive n ↔ ∃ p, s.tasks n = some p ∧ p.holds = some (w, .writer)) ∧
    (∀ n, x.activity = .exclusive n → x.leases = []) ∧
    (x.terminal = true → x.leases = []) ∧
    ∀ {a t y}, program.step a s = some t → t.shared.workflows w = some y →
      x.leases.length < y.leases.length → x.initializing = false ∧ x.cancel = false ∧
        (x.info.status = .preparing ∨ x.info.status = .pulling) := by
  have hholds := holds_of_run hrun
  have hsound := hholds.inv.record hx
  refine ⟨hsound.transfers, hsound.leases, fun n => ?_, fun n => ?_, fun n hn => ?_, hsound.quiet,
    fun {a t y} hstep hy hlt => ?_⟩
  · rw [← Workflow.grip_lease hsound, ← WorkflowManager.grip_eq hx, grip_exact hholds]
    simp only [Place.leases, true_and]
  · rw [← RwLock.isWriter_iff, ← Workflow.grip_writer, ← WorkflowManager.grip_eq hx, grip_exact hholds]
    simp only [reduceCtorEq, false_and, or_false]
  · exact (Workflow.grip_alone (n := n + 1) hsound (RwLock.isWriter_iff.mpr hn) (Nat.succ_ne_self n)).2
  · obtain ⟨mover, born, hdoes⟩ := outline.step_does hholds hstep
    obtain ⟨y', hy', hxy⟩ := hdoes.workflow hx
    rw [hy] at hy'
    cases hy'
    exact hxy.granted hlt

theorem leases_exact_sample : ∃ (s : Sys) (x : Workflow), s.shared.workflows 0 = some x ∧
    x.transfers = 1 ∧ ∃ p, s.tasks 1 = some p ∧ p.leases s.shared 1 0 := by
  have hexec : (StepSystem.exec program.step (sampleCreate ++ sampleLease) sampleSys).any (fun s =>
      (s.shared.workflows 0).any (·.leases == [1])) = true := by
    decide +kernel
  obtain ⟨s, hs, hcheck⟩ := StepSystem.exists_of_exec hexec
  obtain ⟨x, hx, hcheck⟩ := (Option.any_eq_true _ _).mp hcheck
  have hleases : x.leases = [1] := beq_iff_eq.mp hcheck
  obtain ⟨htransfers, -, hlease, -⟩ := leases_exact (Run.of_exec hs) hx
  rw [hleases] at htransfers
  exact ⟨s, x, hx, htransfers, (hlease 1).mp (by rw [hleases]; exact List.mem_singleton_self 1)⟩

/-! ## What a workflow leaves behind -/

end Runs

end VivadoServer.Workflows
