/-
  VivadoServer.Workflows.Steps

  Every step of a task is good: operation by operation, each from the moves it is
  made of.
-/

import VivadoServer.Workflows.Moves

namespace VivadoServer.Workflows

open VivadoServer.History (Uuid)
open VivadoServer.Sessions (Instant TerminationReason SessionInfo)

section Steps

variable {m m' : WorkflowManager} {task child w : Nat} {x y : Workflow} {p q : Place} {c : Choice}
  {o : Tasks.Outcome WorkflowManager Place}

/-! ## The shapes of a step -/

theorem goTo_eq (h : goTo m' q = some o) : o = { shared := m', place := q } :=
  (Option.some.inj h).symm

theorem spawn_eq {born : Option Place} (h : spawn m' q born = some o) :
    o = { shared := m', place := q, child := born } :=
  (Option.some.inj h).symm

theorem WorkflowManager.on_eq {f : Workflow → Step} (h : m.on w f = some o) :
    ∃ x, m.workflows w = some x ∧ f x = some o :=
  Option.bind_eq_some_iff.mp h

theorem ask_eq {asked : Sync.Place} {wait : Nat → Place} (h : ask m child asked wait = some o) :
    o = { shared := { m with calls := Function.update m.calls child (some asked) }
          place := wait child, child := some (.syncEnter asked) } := by
  unfold ask at h
  split at h
  · exact spawn_eq h
  · cases h

/-- A call of the sync engine is started, and waited for. -/
theorem Step.Good.ask {asked : Sync.Place} (h : m.Sound) (hat : p.At task m)
    (hchild : WorkflowManager.Idle child m) (hsame : m.Same m')
    (hholds : q.holds = p.holds) (htracked : q.tracked = p.tracked) (hbody : p.isBody = false)
    (hfact : q.Fact task m') :
    Good task child m { shared := m', place := q, child := some (.syncEnter asked) } where
  sound := hsame.sound h
  place := hat.move (fun _ => hsame.grip task) (by rw [hsame.bodies]) (by rw [hsame.tracked]) hholds
    htracked hbody hfact
  does := hsame.does
  born := by
    rintro _ ⟨⟩
    exact
      { held := .inl ⟨by rw [hsame.bodies]; exact hchild.body,
          fun w => (hsame.grip child).trans (hchild.grip w)⟩
        tracked := ⟨fun hmem => absurd (hsame.tracked ▸ hmem) hchild.tracked, (by rintro ⟨⟩)⟩
        fact := trivial }

/-- What the writer of a workflow holds. -/
theorem Place.At.writer (hat : p.At task m) (hholds : p.holds = some (w, .writer))
    (hx : m.workflows w = some x) : x.activity.isWriter task = true := by
  rw [← Workflow.grip_writer, ← WorkflowManager.grip_eq hx]
  exact hat.grip_of hholds

/-- Whoever holds nothing holds nothing of one workflow. -/
theorem Place.At.nothing (hat : p.At task m) (hholds : p.holds = none) (hbody : p.isBody = false)
    (hx : m.workflows w = some x) : x.grip task = none := by
  obtain ⟨-, hgrip⟩ | ⟨w', rfl, -⟩ := hat.held
  · rw [← WorkflowManager.grip_eq hx, hgrip, hholds]
    rfl
  · cases hbody

/-- The task waits for the write side, and gets it. -/
theorem lock_good (h : m.Sound) (hat : p.At task m) {next : Place}
    (hstep : m.lock task w next = some o) (hp : p.holds = none)
    (hholds : next.holds = some (w, .writer)) (htracked : next.tracked = p.tracked)
    (hbody : p.isBody = false)
    (hfact : ∀ x activity, m.workflows w = some x → x.Ready →
      next.Fact task (m.put w { x with activity })) : Step.Good task child m o := by
  obtain ⟨x, hx, hstep⟩ := WorkflowManager.on_eq hstep
  obtain ⟨activity, hwrite, hstep⟩ := Option.bind_eq_some_iff.mp hstep
  cases goTo_eq hstep
  obtain ⟨hmoves, hsettled⟩ := (h.record hx).write hwrite
  -- the creator of a workflow that is not initialized would have the write side
  have hdone : x.initializing = false := by
    by_contra hwaiting
    have hwriter := h.creator hx (by simpa using hwaiting)
    rw [(RwLock.write_eq hwrite).1] at hwriter
    cases hwriter
  refine .regrips h hat hx hmoves rfl (fun hwaiting => ?_) ?_ (fun w' hw => ?_) htracked hbody
    (hfact x activity hx ⟨hdone, hsettled⟩)
  · exact absurd (hdone.symm.trans hwaiting) (by decide)
  · rw [hholds, heldOn_self]
  · rw [hholds, hp, heldOn_other hw, heldOn_none]

/-- The write side is given back on the way out. -/
theorem Step.Good.unlock {answer : Answered} (h : m.Sound) (hat : p.At task m) (hsame : m.Same m')
    (hholds : p.holds = some (w, .writer)) (htracked : p.tracked = true)
    (hready : m.Has w (·.Ready)) :
    Good task child m { shared := m', place := .unlock w (.leave answer) } :=
  .same h hat hsame hholds.symm htracked.symm
    (by
      cases p with
      | body => cases hholds
      | _ => rfl) ⟨⟨_, rfl⟩, hsame.has hready⟩

theorem checkPhase_good {allowed : WorkflowStatus} {next : Place} (h : m.Sound) (hat : p.At task m)
    (hstep : m.checkPhase w [allowed] next = some o) (hp : p.holds = some (w, .writer))
    (htasks : p.tracked = true) (hready : m.Has w (·.Ready))
    (hholds : next.holds = some (w, .writer)) (htracked : next.tracked = true)
    (hfact : m.Has w (fun x => x.In allowed ∧ x.info.status = allowed) → next.Fact task m) :
    Step.Good task child m o := by
  obtain ⟨x, hx, hstep⟩ := WorkflowManager.on_eq hstep
  cases goTo_eq hstep
  obtain ⟨x', hx', hready'⟩ := hready
  rw [hx] at hx'
  cases hx'
  unfold Workflow.phase
  split
  · rename_i hguard
    have hstatus : x.info.status = allowed := by simpa [hready'.initialized] using hguard
    refine .look h hat (hholds.trans hp.symm) (htracked.trans htasks.symm) ?_ (hfact ⟨x, hx, ?_, hstatus⟩)
    · cases p with
      | body => cases hp
      | _ => rfl
    · exact ⟨hready'.initialized, .inl hstatus, hready'.settled⟩
  · exact .unlock h hat .refl hp htasks ⟨x, hx, hready'⟩

/-! ## `create` and `heartbeat` -/

theorem register_good {id : Uuid} {request : CreateWorkflowRequest} (h : m.Sound)
    (hat : (Place.create id request).At task m) (hstep : m.register task id request = some o) :
    Step.Good task child m o := by
  unfold WorkflowManager.register at hstep
  split at hstep
  · cases goTo_eq hstep
    exact .look h hat rfl rfl rfl trivial
  · split at hstep
    · obtain ⟨x, hx, hstep⟩ := WorkflowManager.on_eq hstep
      split at hstep <;> cases goTo_eq hstep <;> exact .look h hat rfl rfl rfl trivial
    · rename_i hlookup
      split at hstep
      · cases goTo_eq hstep
        exact .look h hat rfl rfl rfl trivial
      · rename_i hempty
        cases goTo_eq hstep
        exact .register h hat hlookup (by simpa using hempty)

theorem createStep_good (h : m.Sound) (hat : p.At task m) (hstep : m.createStep task p c = some o) :
    Step.Good task child m o := by
  unfold WorkflowManager.createStep at hstep
  split at hstep
  · exact register_good h hat hstep
  -- createPath
  · split at hstep <;> cases goTo_eq hstep <;> exact .look h hat rfl rfl rfl hat.fact
  -- createClean
  · obtain ⟨x, hx, hstep⟩ := WorkflowManager.on_eq hstep
    split at hstep
    · split at hstep
      · split at hstep <;> cases goTo_eq hstep <;> exact .look h hat rfl rfl rfl hat.fact
      · cases goTo_eq hstep
        exact .look h hat rfl rfl rfl hat.fact
    · cases hstep
  -- createPublish
  · rename_i w result
    obtain ⟨x, hx, hstep⟩ := WorkflowManager.on_eq hstep
    obtain ⟨rfl, x', hx', hwaiting, hnone⟩ := hat.fact
    rw [hx] at hx'
    cases hx'
    have hwriter := hat.writer rfl hx
    have hkeeps := (h.record hx).initialized hwriter hwaiting result
    have hsettled : x.Settled := fun _ => hnone
    cases goTo_eq hstep
    cases result with
    | ok clean =>
        refine .keeps (h.put_keeps hx hkeeps rfl (by rintro ⟨⟩)) hat hx hkeeps rfl rfl rfl rfl
          ⟨_, WorkflowManager.put_workflows_self .., rfl, hsettled⟩
    | error error =>
        refine .keeps (h.put_keeps hx hkeeps rfl (by rintro ⟨⟩)) hat hx hkeeps rfl rfl rfl rfl
          ⟨_, WorkflowManager.put_workflows_self .., ⟨rfl, ?_, hsettled⟩, rfl⟩
        exact (h.record hx).waiting hwaiting
  -- createFail
  · rename_i w error
    obtain ⟨x, hx, hstep⟩ := WorkflowManager.on_eq hstep
    obtain ⟨x', hx', hin, hinit⟩ := hat.fact
    rw [hx] at hx'
    cases hx'
    have hlive := hin.live rfl
    obtain ⟨-, hrefused⟩ | ⟨-, -, sessions, heq⟩ :=
      WorkflowManager.terminal_cases h hx hlive .failed (some error) true
    · obtain ⟨hstatus, -⟩ | ⟨-, hfull⟩ := hrefused
      · cases hstatus
      · cases hfull
    · rw [heq] at hstep
      cases goTo_eq hstep
      refine .finished h hat hx (hat.writer rfl hx) hlive hin.initialized ?_ (fun _ => rfl) (by rintro ⟨⟩)
        rfl rfl rfl
        fun hready => ⟨_, WorkflowManager.put_workflows_self .., hready⟩
      obtain hpreparing | hstopping := hin.status
      · exact .uninitialized hpreparing rfl hinit
      · exact .failed hstopping rfl
  -- createNotify
  · obtain ⟨x, hx, hstep⟩ := WorkflowManager.on_eq hstep
    obtain ⟨x', hx', hready⟩ := hat.fact
    rw [hx] at hx'
    cases hx'
    have hkeeps : x.Keeps (some task) { x with notified := x.notified + 1 } :=
      (h.record hx).note (hat.writer rfl hx)
    cases goTo_eq hstep
    exact .keeps (h.put_keeps hx hkeeps rfl fun hwaiting => hwaiting) hat hx hkeeps rfl rfl rfl rfl
      ⟨_, WorkflowManager.put_workflows_self .., hready.initialized, hready.settled⟩
  -- createInfo
  · obtain ⟨x, hx, hstep⟩ := WorkflowManager.on_eq hstep
    cases goTo_eq hstep
    exact .unlock h hat .refl rfl rfl hat.fact
  -- waitInitialized
  · obtain ⟨x, hx, hstep⟩ := WorkflowManager.on_eq hstep
    cases goTo_eq hstep
    exact .look h hat rfl rfl rfl trivial
  -- waitLook
  · obtain ⟨x, hx, hstep⟩ := WorkflowManager.on_eq hstep
    split at hstep
    · cases goTo_eq hstep
      exact .look h hat rfl rfl rfl trivial
    · split at hstep <;> cases goTo_eq hstep <;> exact .look h hat rfl rfl rfl trivial
  -- waitNotified
  · obtain ⟨x, hx, hstep⟩ := WorkflowManager.on_eq hstep
    split at hstep
    · cases goTo_eq hstep
      exact .look h hat rfl rfl rfl trivial
    · cases hstep
  · cases hstep

theorem heartbeatStep_good (h : m.Sound) (hat : p.At task m) (hstep : m.heartbeatStep p c = some o) :
    Step.Good task child m o := by
  unfold WorkflowManager.heartbeatStep at hstep
  split at hstep
  · split at hstep
    · cases goTo_eq hstep
      exact .look h hat rfl rfl rfl trivial
    · split at hstep
      · cases goTo_eq hstep
        exact .look h hat rfl rfl rfl trivial
      · obtain ⟨x, hx, hstep⟩ := WorkflowManager.on_eq hstep
        split at hstep
        · cases goTo_eq hstep
          exact .look h hat rfl rfl rfl trivial
        · rename_i hguard
          simp only [Bool.or_eq_true, not_or, Bool.not_eq_true] at hguard
          have hkeeps : x.Keeps (some task) (x.beat m.now) := (h.record hx).beat hguard.1
          cases goTo_eq hstep
          exact .keeps (h.put_keeps hx hkeeps rfl fun hwaiting => hwaiting) hat hx hkeeps rfl rfl rfl rfl
            trivial
  · cases hstep

/-! ## `lease` and the transfers -/

/-- Whoever reads a workflow finds it initialized. -/
theorem WorkflowManager.Sound.initialized_of_reader (h : m.Sound) (hx : m.workflows w = some x)
    (hreader : task ∈ x.activity.readers) : x.initializing = false := by
  by_contra hwaiting
  exact Workflow.unwritten hreader (h.creator hx (by simpa using hwaiting))

/-- The grip of a reader on the workflow its place names. -/
theorem Place.At.reader {grip : Grip} (h : m.Sound) (hat : p.At task m)
    (hholds : p.holds = some (w, grip)) (hgrip : grip = .guard ∨ grip = .lease)
    (hx : m.workflows w = some x) : x.grip task = some grip ∧ x.initializing = false := by
  have hself : x.grip task = some grip := by
    rw [← WorkflowManager.grip_eq hx]
    exact hat.grip_of hholds
  refine ⟨hself, h.initialized_of_reader hx
    (@Workflow.grip_some_reader x task (h.record hx) ?_)⟩
  obtain rfl | rfl := hgrip
  · exact .inl hself
  · exact .inr hself

/-- A reader moves its grip, to a place where it holds that much of the same workflow. -/
theorem Step.Good.reader {grip : Option Grip} (h : m.Sound) (hat : p.At task m)
    (hx : m.workflows w = some x) (hdone : x.initializing = false)
    (hmoves : x.Regrips task grip y) (hsame : y.info = x.info ∧ y.initializing = x.initializing)
    (hself : heldOn q.holds w = grip)
    (hrest : ∀ w', w' ≠ w → heldOn q.holds w' = heldOn p.holds w')
    (htracked : q.tracked = p.tracked) (hbody : p.isBody = false)
    (hfact : q.Fact task (m.put w y)) :
    Good task child m { shared := m.put w y, place := q } :=
  .regrips h hat hx hmoves hsame.1
    (fun hwaiting => absurd (hdone.symm.trans (hsame.2.symm.trans hwaiting)) (by decide)) hself hrest
    htracked hbody hfact

/-- Who has a body after one of them changed. -/
theorem update_eq_some {bodies : Nat → Option Nat} {body : Option Nat} {n w' : Nat}
    (h : Function.update bodies task body n = some w') :
    (n = task ∧ body = some w') ∨ (n ≠ task ∧ bodies n = some w') := by
  by_cases hn : n = task
  · subst hn
    rw [Function.update_self] at h
    exact .inl ⟨rfl, h⟩
  · rw [Function.update_of_ne hn] at h
    exact .inr ⟨hn, h⟩

/-- The body of a response carries the lease on. -/
theorem Step.Good.carry (h : m.Sound) (hat : p.At task m) (hholds : p.holds = some (w, .lease))
    (htracked : p.tracked = false) (hchild : child ≠ task ∧ WorkflowManager.Idle child m) :
    Good task child m
      { shared := { m with bodies := Function.update m.bodies task (some w) }
        place := .body w, child := some (.bodyCancel w task) } where
  sound := { h with
    carried := fun {n w₁} hbody w' => by
      obtain ⟨rfl, heq⟩ | ⟨-, hbody⟩ := update_eq_some hbody
      · obtain ⟨-, hgrip⟩ | ⟨w'', rfl, -⟩ := hat.held
        · rw [Option.some.inj heq] at hholds
          rw [← hholds]
          exact hgrip w'
        · cases hholds
      · exact h.carried hbody w' }
  place :=
    { held := .inr ⟨w, rfl, Function.update_self ..⟩
      tracked := hat.tracked.trans (by rw [htracked]; rfl)
      fact := trivial }
  does := { (WorkflowManager.Does.refl : m.Does (some task) (some child) m) with
    grip := fun n hn => .inl ⟨Function.update_of_ne (fun heq => hn (congrArg some heq.symm)) ..,
      fun _ => rfl⟩ }
  born := by
    rintro _ ⟨⟩
    exact
      { held := .inl ⟨(Function.update_of_ne hchild.1 ..).trans hchild.2.body, hchild.2.grip⟩
        tracked := ⟨fun hmem => absurd hmem hchild.2.tracked, (by rintro ⟨⟩)⟩
        fact := trivial }

theorem transferred_good {transfer : Transfer} {result : Except AppError Unit} (h : m.Sound)
    (hat : p.At task m) (hholds : p.holds = some (w, .lease)) (htracked : p.tracked = false)
    (hchild : o.child.isSome = true → child ≠ task ∧ WorkflowManager.Idle child m)
    (hstep : m.transferred task transfer w result = some o) : Step.Good task child m o := by
  have hbody : p.isBody = false := by
    cases p with
    | body => cases hholds
    | _ => rfl
  unfold WorkflowManager.transferred at hstep
  split at hstep
  · cases goTo_eq hstep
    exact .look h hat hholds.symm htracked.symm hbody trivial
  · split at hstep
    · cases spawn_eq hstep
      exact .carry h hat hholds htracked (hchild rfl)
    · cases goTo_eq hstep
      exact .look h hat hholds.symm htracked.symm hbody trivial
    · cases goTo_eq hstep
      exact .look h hat hholds.symm htracked.symm hbody trivial

/-- The lease of a body goes back to the task that sent the response. -/
theorem Step.Good.bodyGone (h : m.Sound) (hat : (Place.body w).At task m)
    (hheld : m.bodies task = some w) :
    Good task child m
      { shared := { m with bodies := Function.update m.bodies task none }
        place := .leaseDrop w (.ok .unit) } where
  sound := { h with
    carried := fun hbody w' => by
      obtain ⟨-, heq⟩ | ⟨-, hbody⟩ := update_eq_some hbody
      · cases heq
      · exact h.carried hbody w' }
  place :=
    { held := .inl ⟨Function.update_self .., fun w' => h.carried hheld w'⟩
      tracked := hat.tracked
      fact := trivial }
  does := { (WorkflowManager.Does.refl : m.Does (some task) none m) with
    grip := fun n hn => .inl ⟨Function.update_of_ne (fun heq => hn (congrArg some heq.symm)) ..,
      fun _ => rfl⟩ }
  born := (by rintro _ ⟨⟩)

/-- The cancellation takes the lease out of a body. -/
theorem Step.Good.takeOver {sender : Nat} (h : m.Sound) (hat : (Place.bodyCancel w sender).At task m)
    (hx : m.workflows w = some x) (hheld : m.bodies sender = some w) :
    Good task child m
      { shared := { m with bodies := Function.update m.bodies sender none }.put w
          (x.handOver sender task)
        place := .leaseDrop w (.ok .unit) } := by
  have hgrip : x.grip sender = some .lease := by
    rw [← WorkflowManager.grip_eq hx, h.carried hheld, heldOn_self]
  have hself := hat.nothing rfl rfl hx
  obtain ⟨hsound, hdoes, hnew, hold, hothers⟩ :=
    @Workflow.Sound.handOver x task (some task) (h.record hx) sender hgrip hself
  have hdone : x.initializing = false := h.initialized_of_reader hx
    (Workflow.grip_some_reader (h.record hx) (.inr hgrip))
  have hne : task ≠ sender := by
    rintro rfl
    rw [hself] at hgrip
    cases hgrip
  obtain ⟨hnone, hgrips⟩ | ⟨w', heq, -⟩ := hat.held
  · have hbodies : ∀ {n w'}, Function.update m.bodies sender none n = some w' →
        n ≠ sender ∧ m.bodies n = some w' := fun hbody =>
      (update_eq_some hbody).resolve_left fun ⟨_, heq⟩ => absurd heq (by rintro ⟨⟩)
    have hfree : { m with bodies := Function.update m.bodies sender none }.Sound :=
      { h with carried := fun hbody => h.carried (hbodies hbody).2 }
    refine ⟨hfree.put hx hsound hdoes.workflowId rfl
        (fun hwaiting => absurd (hdone.symm.trans hwaiting) (by decide))
        (fun hpulling => h.pulling (x := x) hx hpulling) (fun n hbody => ?_),
      ⟨.inl ⟨(Function.update_of_ne hne ..).trans hnone, fun w' => ?_⟩, hat.tracked, trivial⟩,
      .putBodies hx hdoes (fun hlive hended => absurd (hlive.symm.trans hended) (by decide))
        fun n hn => ?_, (by rintro _ ⟨⟩)⟩
    · obtain ⟨w', hbody⟩ := Option.ne_none_iff_exists'.mp hbody
      obtain ⟨hn, hbody⟩ := hbodies hbody
      refine hothers n ?_ hn
      rintro rfl
      rw [hnone] at hbody
      cases hbody
    · show WorkflowManager.grip _ task w' = heldOn (some (w, .lease)) w'
      by_cases hw : w' = w
      · subst hw
        rw [WorkflowManager.grip_put_self, hnew, heldOn_self]
      · rw [WorkflowManager.grip_put_other hw, heldOn_other hw]
        exact hgrips w'
    · have hn : n ≠ task := fun heq => hn (congrArg some heq.symm)
      by_cases hsender : n = sender
      · -- the sender had this lease and nothing else
        subst hsender
        refine .inr ⟨by rw [hheld]; rintro ⟨⟩, Function.update_self .., fun w' => ?_⟩
        by_cases hw : w' = w
        · subst hw
          rw [WorkflowManager.grip_put_self, hold]
        · rw [WorkflowManager.grip_put_other hw]
          exact (h.carried hheld w').trans (heldOn_other hw)
      · exact .inl ⟨Function.update_of_ne hsender ..,
          fun w' => WorkflowManager.grip_put hx (hothers n hn hsender)⟩
  · cases heq

theorem leaseStep_good (h : m.Sound) (hat : p.At task m)
    (hchild : o.child.isSome = true → child ≠ task ∧ WorkflowManager.Idle child m)
    (hstep : m.leaseStep task child p c = some o) : Step.Good task child m o := by
  unfold WorkflowManager.leaseStep at hstep
  split at hstep
  -- lease
  · split at hstep <;> cases goTo_eq hstep <;> exact .look h hat rfl rfl rfl trivial
  -- leaseLookup
  · split at hstep <;> cases goTo_eq hstep <;> exact .look h hat rfl rfl rfl trivial
  -- leaseAcquire
  · rename_i transfer w
    obtain ⟨x, hx, hstep⟩ := WorkflowManager.on_eq hstep
    obtain ⟨activity, hread, hstep⟩ := Option.bind_eq_some_iff.mp hstep
    cases goTo_eq hstep
    have hdone : x.initializing = false := by
      by_contra hwaiting
      have hwriter := h.creator hx (by simpa using hwaiting)
      rw [(RwLock.read_eq hread).2] at hwriter
      cases hwriter
    exact .reader h hat hx hdone ((h.record hx).read hread (hat.nothing rfl rfl hx)) ⟨rfl, rfl⟩
      (heldOn_self ..) (fun w' hw => heldOn_other hw) rfl rfl trivial
  · obtain ⟨x, hx, hstep⟩ := WorkflowManager.on_eq hstep
    split at hstep
    · cases goTo_eq hstep
      exact .look h hat rfl rfl rfl trivial
    · cases hstep
  · cases goTo_eq hstep
    exact .look h hat rfl rfl rfl trivial
  -- leaseCheck
  · rename_i transfer w
    obtain ⟨x, hx, hstep⟩ := WorkflowManager.on_eq hstep
    split at hstep
    · cases goTo_eq hstep
      exact .look h hat rfl rfl rfl trivial
    · rename_i hguard
      simp only [Bool.or_eq_true, not_or, Bool.not_eq_true, Bool.not_eq_true', Bool.not_eq_false] at hguard
      obtain ⟨⟨-, hallowed⟩, hcancel⟩ := hguard
      have hstatus : x.info.status = .preparing ∨ x.info.status = .pulling := by
        cases transfer <;> simp [Transfer.allowed] at hallowed <;> simp [hallowed]
      cases goTo_eq hstep
      obtain ⟨hgrip, hdone⟩ := hat.reader h rfl (.inl rfl) hx
      exact .reader h hat hx hdone ((h.record hx).lease hgrip hdone hcancel hstatus) ⟨rfl, rfl⟩
        (heldOn_self ..)
        (fun w' hw => by rw [Place.holds, Place.holds, heldOn_other hw, heldOn_other hw]) rfl rfl trivial
  -- leaseRefused
  · rename_i w error
    obtain ⟨x, hx, hstep⟩ := WorkflowManager.on_eq hstep
    cases goTo_eq hstep
    obtain ⟨hgrip, hdone⟩ := hat.reader h rfl (.inl rfl) hx
    refine .reader h hat hx hdone ((h.record hx).release (.inr hgrip) fun hwriter => ?_) ⟨rfl, rfl⟩ rfl
      (fun w' hw => (heldOn_other hw).symm) rfl rfl trivial
    rw [hgrip] at hwriter
    cases hwriter
  -- leased
  · obtain ⟨x, hx, hstep⟩ := WorkflowManager.on_eq hstep
    exact transferred_good h hat rfl rfl hchild hstep
  · cases hstep
  · exact transferred_good h hat rfl rfl hchild hstep
  · obtain ⟨x, hx, hstep⟩ := WorkflowManager.on_eq hstep
    split at hstep
    · cases goTo_eq hstep
      exact .look h hat rfl rfl rfl trivial
    · cases hstep
  · cases goTo_eq hstep
    exact .look h hat rfl rfl rfl trivial
  -- uploadCall
  · obtain ⟨x, hx, hstep⟩ := WorkflowManager.on_eq hstep
    cases ask_eq hstep
    exact .ask h hat (hchild rfl).2 ⟨rfl, rfl, rfl, rfl, rfl, rfl, rfl⟩ rfl rfl rfl trivial
  -- uploadWait
  · obtain ⟨answer, hanswer, hstep⟩ := Option.bind_eq_some_iff.mp hstep
    split at hstep
    · cases goTo_eq hstep
      exact .look h hat rfl rfl rfl trivial
    · cases hstep
    · cases goTo_eq hstep
      exact .look h hat rfl rfl rfl trivial
  · obtain ⟨x, hx, hstep⟩ := WorkflowManager.on_eq hstep
    split at hstep
    · cases goTo_eq hstep
      exact .look h hat rfl rfl rfl trivial
    · cases hstep
  · cases goTo_eq hstep
    exact .look h hat rfl rfl rfl trivial
  -- leaseDrop
  · rename_i w answer
    obtain ⟨x, hx, hstep⟩ := WorkflowManager.on_eq hstep
    cases goTo_eq hstep
    obtain ⟨hgrip, hdone⟩ := hat.reader h rfl (.inr rfl) hx
    exact .reader h hat hx hdone ((h.record hx).dropLease hgrip) ⟨rfl, rfl⟩ (heldOn_self ..)
      (fun w' hw => by rw [Place.holds, Place.holds, heldOn_other hw, heldOn_other hw]) rfl rfl trivial
  -- leaseRelease
  · rename_i w answer
    obtain ⟨x, hx, hstep⟩ := WorkflowManager.on_eq hstep
    cases goTo_eq hstep
    obtain ⟨hgrip, hdone⟩ := hat.reader h rfl (.inl rfl) hx
    refine .reader h hat hx hdone ((h.record hx).release (.inr hgrip) fun hwriter => ?_) ⟨rfl, rfl⟩ rfl
      (fun w' hw => (heldOn_other hw).symm) rfl rfl trivial
    rw [hgrip] at hwriter
    cases hwriter
  -- body
  · split at hstep
    · rename_i hheld
      cases goTo_eq hstep
      exact .bodyGone h hat hheld
    · rename_i hheld
      cases goTo_eq hstep
      obtain ⟨hnone, hgrips⟩ | ⟨w', heq, hbody⟩ := hat.held
      · exact ⟨h, ⟨.inl ⟨hnone, hgrips⟩, hat.tracked, trivial⟩, .refl, (by rintro _ ⟨⟩)⟩
      · cases heq
        exact absurd hbody hheld
  -- bodyCancel
  · obtain ⟨x, hx, hstep⟩ := WorkflowManager.on_eq hstep
    split at hstep
    · split at hstep
      · rename_i hheld
        cases goTo_eq hstep
        exact .takeOver h hat hx hheld
      · cases goTo_eq hstep
        exact .look h hat rfl rfl rfl trivial
    · cases hstep
  · split at hstep
    · cases goTo_eq hstep
      exact .look h hat rfl rfl rfl trivial
    · cases hstep
  · cases hstep

/-! ## `push_plan` and `refresh_open_sync` -/

/-- The workflow a fact is about. -/
theorem WorkflowManager.Has.get {P : Workflow → Prop} (hP : m.Has w P)
    (hx : m.workflows w = some x) : P x := by
  obtain ⟨x', hx', hP⟩ := hP
  rw [hx] at hx'
  cases hx'
  exact hP

/-- Whoever has the write side moves the record within its phase. -/
theorem Step.Good.write (h : m.Sound) (hat : p.At task m) (hp : p.holds = some (w, .writer))
    (hx : m.workflows w = some x) (hkeeps : x.Keeps (some task) y)
    (hsame : y.info.status = x.info.status ∧ y.initializing = x.initializing)
    (hholds : q.holds = some (w, .writer)) (htracked : q.tracked = p.tracked)
    (hfact : q.Fact task (m.put w y)) :
    Good task child m { shared := m.put w y, place := q } :=
  .keeps (h.put_keeps hx hkeeps hsame.1 fun hwaiting => hsame.2.symm.trans hwaiting) hat hx hkeeps
    (by rw [Workflow.terminal, hsame.1, Workflow.terminal]) (hholds.trans hp.symm) htracked
    (by
      cases p with
      | body => cases hp
      | _ => rfl) hfact

/-- The write side is given back after a move of the record. -/
theorem Step.Good.writeUnlock {answer : Answered} (h : m.Sound) (hat : p.At task m)
    (hp : p.holds = some (w, .writer)) (htracked : p.tracked = true) (hx : m.workflows w = some x)
    (hkeeps : x.Keeps (some task) y)
    (hsame : y.info.status = x.info.status ∧ y.initializing = x.initializing)
    (hready : y.Ready) :
    Good task child m { shared := m.put w y, place := .unlock w (.leave answer) } :=
  .write h hat hp hx hkeeps hsame rfl htracked.symm
    ⟨⟨_, rfl⟩, y, WorkflowManager.put_workflows_self .., hready⟩

/-- `workflow` finds the workflow, or the operation ends. -/
theorem find_good {id : Uuid} {next : Nat → Place} (h : m.Sound) (hat : p.At task m)
    (hstep : m.find id next = some o) (hp : p.holds = none) (htasks : p.tracked = true)
    (hnext : ∀ w, (next w).holds = none ∧ (next w).tracked = true ∧ (next w).Fact task m) :
    Step.Good task child m o := by
  have hbody : p.isBody = false := by
    cases p with
    | body => cases htasks
    | _ => rfl
  unfold WorkflowManager.find at hstep
  split at hstep
  · rename_i w hw
    cases goTo_eq hstep
    obtain ⟨hholds, htracked, hfact⟩ := hnext w
    exact .look h hat (hholds.trans hp.symm) (htracked.trans htasks.symm) hbody hfact
  · cases goTo_eq hstep
    exact .look h hat hp.symm htasks.symm hbody trivial

theorem pushStep_good (h : m.Sound) (hat : p.At task m)
    (hchild : o.child.isSome = true → child ≠ task ∧ WorkflowManager.Idle child m)
    (hstep : m.pushStep task child p c = some o) : Step.Good task child m o := by
  unfold WorkflowManager.pushStep at hstep
  split at hstep
  · exact find_good h hat hstep rfl rfl fun w => ⟨rfl, rfl, trivial⟩
  -- pushLock
  · exact lock_good h hat hstep rfl rfl rfl rfl fun x activity hx hready =>
      ⟨_, WorkflowManager.put_workflows_self .., hready.initialized, hready.settled⟩
  -- pushPhase
  · refine checkPhase_good h hat hstep rfl rfl hat.fact rfl rfl fun hin => ?_
    obtain ⟨x, hx, hin, hstatus⟩ := hin
    exact ⟨x, hx, hin, hin.settled hstatus⟩
  -- pushOpen
  · obtain ⟨x, hx, hstep⟩ := WorkflowManager.on_eq hstep
    have hin := WorkflowManager.Has.get hat.fact hx
    split at hstep
    · cases goTo_eq hstep
      exact .unlock h hat .refl rfl rfl ⟨x, hx, hin.ready⟩
    · cases goTo_eq hstep
      exact .look h hat rfl rfl rfl ⟨x, hx, hin⟩
  -- pushCall
  · obtain ⟨x, hx, hstep⟩ := WorkflowManager.on_eq hstep
    cases ask_eq hstep
    exact .ask h hat (hchild rfl).2 ⟨rfl, rfl, rfl, rfl, rfl, rfl, rfl⟩ rfl rfl rfl hat.fact
  -- pushWait
  · obtain ⟨answer, hanswer, hstep⟩ := Option.bind_eq_some_iff.mp hstep
    obtain ⟨x, hx, hin⟩ := hat.fact
    split at hstep
    · cases goTo_eq hstep
      exact .same h hat ⟨rfl, rfl, rfl, rfl, rfl, rfl, rfl⟩ rfl rfl rfl ⟨x, hx, hin⟩
    · cases hstep
    · cases goTo_eq hstep
      exact .unlock h hat ⟨rfl, rfl, rfl, rfl, rfl, rfl, rfl⟩ rfl rfl ⟨x, hx, hin.ready⟩
  -- pushRecord
  · obtain ⟨x, hx, hstep⟩ := WorkflowManager.on_eq hstep
    have hin := WorkflowManager.Has.get hat.fact hx
    cases goTo_eq hstep
    exact .writeUnlock h hat rfl rfl hx ((h.record hx).note (hat.writer rfl hx)) ⟨rfl, rfl⟩
      ⟨hin.initialized, hin.settled⟩
  · cases hstep

theorem RefreshThen.next_holds (next : RefreshThen) :
    (next.next w).holds = some (w, .writer) ∧ (next.next w).tracked = true ∧
      ((next.next w).Fact task m ↔ m.Has w (·.Preparing)) := by
  cases next <;> exact ⟨rfl, rfl, Iff.rfl⟩

theorem refreshStep_good (h : m.Sound) (hat : p.At task m)
    (hchild : o.child.isSome = true → child ≠ task ∧ WorkflowManager.Idle child m)
    (hstep : m.refreshStep child p c = some o) : Step.Good task child m o := by
  unfold WorkflowManager.refreshStep at hstep
  split at hstep
  -- refresh
  · rename_i w next
    obtain ⟨x, hx, hstep⟩ := WorkflowManager.on_eq hstep
    obtain ⟨hholds, htracked, hfact⟩ := @RefreshThen.next_holds m task w next
    split at hstep
    · cases goTo_eq hstep
      exact .look h hat hholds htracked rfl (hfact.mpr hat.fact)
    · cases goTo_eq hstep
      exact .look h hat rfl rfl rfl hat.fact
  -- refreshLookup
  · split at hstep <;> cases goTo_eq hstep <;> exact .look h hat rfl rfl rfl hat.fact
  -- refreshRead
  · rename_i w id expired next
    obtain ⟨x, hx, hstep⟩ := WorkflowManager.on_eq hstep
    obtain ⟨s, hs, hstep⟩ := Option.bind_eq_some_iff.mp hstep
    obtain ⟨hholds, htracked, hfact⟩ := @RefreshThen.next_holds m task w next
    split at hstep
    · cases goTo_eq hstep
      exact .look h hat rfl rfl rfl hat.fact
    · split at hstep
      · split at hstep
        · cases goTo_eq hstep
          exact .look h hat rfl rfl rfl hat.fact
        · cases goTo_eq hstep
          exact .look h hat hholds htracked rfl (hfact.mpr hat.fact)
      · cases goTo_eq hstep
        exact .look h hat hholds htracked rfl (hfact.mpr hat.fact)
      · cases goTo_eq hstep
        exact .look h hat rfl rfl rfl hat.fact
  -- refreshAbort
  · obtain ⟨x, hx, hstep⟩ := WorkflowManager.on_eq hstep
    cases ask_eq hstep
    exact .ask h hat (hchild rfl).2 ⟨rfl, rfl, rfl, rfl, rfl, rfl, rfl⟩ rfl rfl rfl hat.fact
  -- refreshWait
  · obtain ⟨answer, hanswer, hstep⟩ := Option.bind_eq_some_iff.mp hstep
    obtain ⟨x, hx, hin⟩ := hat.fact
    split at hstep
    · cases goTo_eq hstep
      exact .look h hat rfl rfl rfl ⟨x, hx, hin⟩
    · cases goTo_eq hstep
      exact .unlock h hat .refl rfl rfl ⟨x, hx, hin.ready⟩
  -- refreshClear
  · rename_i w id next
    obtain ⟨x, hx, hstep⟩ := WorkflowManager.on_eq hstep
    have hin := WorkflowManager.Has.get hat.fact hx
    obtain ⟨hholds, htracked, hfact⟩ :=
      @RefreshThen.next_holds (m.put w x.clearOpenSync) task w next
    cases goTo_eq hstep
    exact .write h hat rfl hx ((h.record hx).note (hat.writer rfl hx)) ⟨rfl, rfl⟩ hholds htracked
      (hfact.mpr ⟨_, WorkflowManager.put_workflows_self .., ⟨hin.initialized, hin.status, hin.settled⟩,
        hin.launches⟩)
  · cases hstep

/-! ## `commit` and `abort_sync` -/

/-- Behind a failed commit the plan is left as it is, or the workflow fails. -/
theorem commitFailed_cases (w : Nat) (stillOpen : Bool) (error : AppError) :
    commitFailed w stillOpen error = .unlock w (.leave (.error error)) ∨
      ∃ invalidate, commitFailed w stillOpen error =
        .fail w error invalidate (.unlock w (.leave (.error error))) :=
  (ite_eq_or_eq _ _ _).imp_right fun heq => ⟨_, heq⟩

theorem commitRestore_cases (w : Nat) (wasClean baseline stillOpen : Bool) (error : AppError) :
    commitRestore w wasClean baseline stillOpen error = .commitMark w stillOpen error ∨
      commitRestore w wasClean baseline stillOpen error = commitFailed w stillOpen error :=
  ite_eq_or_eq _ _ _

/-- The places behind a failed commit. -/
theorem commitFailed_good {stillOpen : Bool} {error : AppError} (h : m.Sound) (hat : p.At task m)
    (hp : p.holds = some (w, .writer)) (htasks : p.tracked = true)
    (hin : m.Has w (·.Preparing)) :
    Step.Good task child m { shared := m, place := commitFailed w stillOpen error } := by
  obtain ⟨x, hx, hin⟩ := hin
  have hbody : p.isBody = false := by
    cases p with
    | body => cases hp
    | _ => rfl
  obtain heq | ⟨invalidate, heq⟩ := commitFailed_cases w stillOpen error
  · rw [heq]
    exact .unlock h hat .refl hp htasks ⟨x, hx, hin.ready⟩
  · rw [heq]
    exact .look h hat hp.symm htasks.symm hbody
      ⟨rfl, fun _ => ⟨x, hx, hin.live rfl, hin.initialized⟩⟩

theorem commitRestore_good {wasClean baseline stillOpen : Bool} {error : AppError} (h : m.Sound)
    (hat : p.At task m) (hp : p.holds = some (w, .writer)) (htasks : p.tracked = true)
    (hin : m.Has w (·.Preparing)) :
    Step.Good task child m
      { shared := m, place := commitRestore w wasClean baseline stillOpen error } := by
  have hbody : p.isBody = false := by
    cases p with
    | body => cases hp
    | _ => rfl
  obtain heq | heq := commitRestore_cases w wasClean baseline stillOpen error
  · rw [heq]
    exact .look h hat hp.symm htasks.symm hbody hin
  · rw [heq]
    exact commitFailed_good h hat hp htasks hin

theorem WorkflowManager.Has.imp {P Q : Workflow → Prop} (hP : m.Has w P) (h : ∀ x, P x → Q x) :
    m.Has w Q := by
  obtain ⟨x, hx, hP⟩ := hP
  exact ⟨x, hx, h x hP⟩

/-- A failure is reported with the write side held. -/
theorem Place.Fact.failing {error : AppError} {invalidate : Bool} {answer : Answered}
    (hlive : m.Has w fun x => x.terminal = false ∧ x.initializing = false) :
    (Place.fail w error invalidate (.unlock w (.leave answer))).Fact task m :=
  ⟨rfl, fun _ => hlive⟩

/-- A write of the marker says nothing of the workflows. -/
theorem WorkflowManager.Has.mark {project : String} {marker : Marker} {result : Except AppError Unit}
    {replaced : Bool} {P : Workflow → Prop} (hP : m.Has w P) :
    (m.mark project marker result replaced).Has w P := by
  rw [WorkflowManager.mark_others]
  exact hP

/-- In a phase before Pulling, or on the way out. -/
theorem Workflow.In.not_pulling {status : WorkflowStatus} (hin : x.In status)
    (hne : status ≠ .pulling) : x.info.status ≠ .pulling := by
  intro heq
  obtain hstatus | hstatus := hin.status
  · exact hne (hstatus.symm.trans heq)
  · rw [heq] at hstatus
    cases hstatus

theorem commitStep_good (h : m.Sound) (hat : p.At task m)
    (hchild : o.child.isSome = true → child ≠ task ∧ WorkflowManager.Idle child m)
    (hstep : m.commitStep task child p c = some o) : Step.Good task child m o := by
  unfold WorkflowManager.commitStep at hstep
  split at hstep
  · exact find_good h hat hstep rfl rfl fun w => ⟨rfl, rfl, trivial⟩
  -- commitLock
  · exact lock_good h hat hstep rfl rfl rfl rfl fun x activity hx hready =>
      ⟨_, WorkflowManager.put_workflows_self .., hready.initialized, hready.settled⟩
  -- commitPhase
  · refine checkPhase_good h hat hstep rfl rfl hat.fact rfl rfl fun hin => ?_
    obtain ⟨x, hx, hin, hstatus⟩ := hin
    exact ⟨x, hx, hin, hin.settled hstatus⟩
  -- commitCheck
  · obtain ⟨x, hx, hstep⟩ := WorkflowManager.on_eq hstep
    have hin := WorkflowManager.Has.get hat.fact hx
    cases goTo_eq hstep
    unfold Workflow.checkSync
    split
    · exact .look h hat rfl rfl rfl hat.fact
    · exact .unlock h hat .refl rfl rfl ⟨x, hx, hin.ready⟩
  -- commitOpen
  · obtain ⟨x, hx, hstep⟩ := WorkflowManager.on_eq hstep
    split at hstep <;> cases goTo_eq hstep <;> exact .look h hat rfl rfl rfl hat.fact
  -- commitRepeat
  · obtain ⟨x, hx, hstep⟩ := WorkflowManager.on_eq hstep
    cases ask_eq hstep
    exact .ask h hat (hchild rfl).2 ⟨rfl, rfl, rfl, rfl, rfl, rfl, rfl⟩ rfl rfl rfl hat.fact
  -- commitRepeated
  · obtain ⟨answer, hanswer, hstep⟩ := Option.bind_eq_some_iff.mp hstep
    obtain ⟨x, hx, hin⟩ := hat.fact
    split at hstep
    · cases goTo_eq hstep
      exact .unlock h hat .refl rfl rfl ⟨x, hx, hin.ready⟩
    · cases hstep
    · cases goTo_eq hstep
      exact .unlock h hat .refl rfl rfl ⟨x, hx, hin.ready⟩
  -- commitClean
  · obtain ⟨x, hx, hstep⟩ := WorkflowManager.on_eq hstep
    have hin := WorkflowManager.Has.get hat.fact hx
    split at hstep
    · split at hstep
      · cases goTo_eq hstep
        exact .look h hat rfl rfl rfl hat.fact
      · cases goTo_eq hstep
        exact .unlock h hat .refl rfl rfl ⟨x, hx, hin.ready⟩
    · cases hstep
  -- commitDirty
  · obtain ⟨x, hx, hstep⟩ := WorkflowManager.on_eq hstep
    have hin := WorkflowManager.Has.get hat.fact hx
    cases goTo_eq hstep
    split
    · exact .mark h hat hx (hat.writer rfl hx) (hin.live rfl) (.inr (hin.not_pulling (by decide))) rfl rfl
        rfl (WorkflowManager.Has.mark hat.fact)
    · exact .mark h hat hx (hat.writer rfl hx) (hin.live rfl) (.inr (hin.not_pulling (by decide))) rfl rfl
        rfl (Place.Fact.failing (WorkflowManager.Has.mark ⟨x, hx, hin.live rfl, hin.initialized⟩))
  -- commitCall
  · obtain ⟨x, hx, hstep⟩ := WorkflowManager.on_eq hstep
    cases ask_eq hstep
    exact .ask h hat (hchild rfl).2 ⟨rfl, rfl, rfl, rfl, rfl, rfl, rfl⟩ rfl rfl rfl hat.fact
  -- commitWait
  · obtain ⟨answer, hanswer, hstep⟩ := Option.bind_eq_some_iff.mp hstep
    split at hstep
    · cases goTo_eq hstep
      exact .look h hat rfl rfl rfl hat.fact
    · cases hstep
    · cases goTo_eq hstep
      exact .look h hat rfl rfl rfl hat.fact
  -- commitRecord
  · obtain ⟨x, hx, hstep⟩ := WorkflowManager.on_eq hstep
    have hin := WorkflowManager.Has.get hat.fact hx
    cases goTo_eq hstep
    exact .writeUnlock h hat rfl rfl hx ((h.record hx).report (hat.writer rfl hx) (hin.live rfl))
      ⟨rfl, rfl⟩ ⟨hin.initialized, hin.settled⟩
  -- commitBaseline
  · obtain ⟨x, hx, hstep⟩ := WorkflowManager.on_eq hstep
    cases goTo_eq hstep
    exact .look h hat rfl rfl rfl hat.fact
  -- commitLookup
  · split at hstep
    · cases goTo_eq hstep
      exact .look h hat rfl rfl rfl hat.fact
    · cases goTo_eq hstep
      exact commitRestore_good h hat rfl rfl hat.fact
  -- commitRead
  · obtain ⟨x, hx, hstep⟩ := WorkflowManager.on_eq hstep
    obtain ⟨s, hs, hstep⟩ := Option.bind_eq_some_iff.mp hstep
    cases goTo_eq hstep
    exact commitRestore_good h hat rfl rfl hat.fact
  -- commitMark
  · rename_i w stillOpen error result replaced
    obtain ⟨x, hx, hstep⟩ := WorkflowManager.on_eq hstep
    have hin := WorkflowManager.Has.get hat.fact hx
    cases goTo_eq hstep
    split
    · obtain heq | ⟨invalidate, heq⟩ := commitFailed_cases w stillOpen error <;> rw [heq]
      · exact .mark h hat hx (hat.writer rfl hx) (hin.live rfl) (.inl rfl) rfl rfl rfl
          ⟨⟨_, rfl⟩, WorkflowManager.Has.mark ⟨x, hx, hin.ready⟩⟩
      · exact .mark h hat hx (hat.writer rfl hx) (hin.live rfl) (.inl rfl) rfl rfl rfl
          (Place.Fact.failing (WorkflowManager.Has.mark ⟨x, hx, hin.live rfl, hin.initialized⟩))
    · exact .mark h hat hx (hat.writer rfl hx) (hin.live rfl) (.inl rfl) rfl rfl rfl
        (Place.Fact.failing (WorkflowManager.Has.mark ⟨x, hx, hin.live rfl, hin.initialized⟩))
  · cases hstep

theorem abortStep_good (h : m.Sound) (hat : p.At task m)
    (hchild : o.child.isSome = true → child ≠ task ∧ WorkflowManager.Idle child m)
    (hstep : m.abortStep task child p c = some o) : Step.Good task child m o := by
  unfold WorkflowManager.abortStep at hstep
  split at hstep
  · exact find_good h hat hstep rfl rfl fun w => ⟨rfl, rfl, trivial⟩
  -- abortLock
  · exact lock_good h hat hstep rfl rfl rfl rfl fun x activity hx hready =>
      ⟨_, WorkflowManager.put_workflows_self .., hready.initialized, hready.settled⟩
  -- abortPhase
  · refine checkPhase_good h hat hstep rfl rfl hat.fact rfl rfl fun hin => ?_
    obtain ⟨x, hx, hin, hstatus⟩ := hin
    exact ⟨x, hx, hin, hin.settled hstatus⟩
  -- abortCheck
  · obtain ⟨x, hx, hstep⟩ := WorkflowManager.on_eq hstep
    have hin := WorkflowManager.Has.get hat.fact hx
    cases goTo_eq hstep
    unfold Workflow.checkSync
    split
    · exact .look h hat rfl rfl rfl hat.fact
    · exact .unlock h hat .refl rfl rfl ⟨x, hx, hin.ready⟩
  -- abortCall
  · obtain ⟨x, hx, hstep⟩ := WorkflowManager.on_eq hstep
    cases ask_eq hstep
    exact .ask h hat (hchild rfl).2 ⟨rfl, rfl, rfl, rfl, rfl, rfl, rfl⟩ rfl rfl rfl hat.fact
  -- abortWait
  · obtain ⟨answer, hanswer, hstep⟩ := Option.bind_eq_some_iff.mp hstep
    obtain ⟨x, hx, hin⟩ := hat.fact
    split at hstep
    · cases goTo_eq hstep
      exact .look h hat rfl rfl rfl ⟨x, hx, hin⟩
    · cases hstep
    · cases goTo_eq hstep
      exact .unlock h hat .refl rfl rfl ⟨x, hx, hin.ready⟩
  -- abortRecord
  · obtain ⟨x, hx, hstep⟩ := WorkflowManager.on_eq hstep
    have hin := WorkflowManager.Has.get hat.fact hx
    cases goTo_eq hstep
    split
    · exact .writeUnlock h hat rfl rfl hx ((h.record hx).note (hat.writer rfl hx)) ⟨rfl, rfl⟩
        ⟨hin.initialized, hin.settled⟩
    · exact .unlock h hat .refl rfl rfl ⟨x, hx, hin.ready⟩
  · cases hstep

/-! ## `start_session` and `observe_session` -/

/-- A step behind a move that the outline does not look at. -/
theorem WorkflowManager.Same.good (hsame : m.Same m') (hgood : Step.Good task child m' o) :
    Step.Good task child m o where
  sound := hgood.sound
  place := hgood.place
  does :=
    { workflow := fun hx => hgood.does.workflow (hsame.workflows ▸ hx)
      fresh := fun hx => hgood.does.fresh (hsame.workflows ▸ hx)
      grip := fun n hn => by
        have := hgood.does.grip n hn
        simp only [hsame.bodies, hsame.grip] at this
        exact this
      tracked := fun n hn hborn => by
        rw [hgood.does.tracked n hn hborn, hsame.tracked]
      projects := fun hn hx hwriter hlive => by
        rw [hgood.does.projects hn (hsame.workflows ▸ hx) hwriter hlive, hsame.projects]
      entries := fun hmem => hsame.entries ▸ hgood.does.entries hmem
      pruned := fun hmem hgone => by
        obtain ⟨x, hx, hterminal⟩ := hgood.does.pruned (hsame.entries ▸ hmem) hgone
        exact ⟨x, hsame.workflows ▸ hx, hterminal⟩
      stopping := fun hset => hgood.does.stopping (hsame.stopping ▸ hset)
      ended := fun hx hy hlive => hgood.does.ended (hsame.workflows ▸ hx) hy hlive }
  born := hgood.born

theorem Place.At.same (hat : p.At task m) (hsame : m.Same m') (hbody : p.isBody = false)
    (hfact : p.Fact task m') : p.At task m' :=
  hat.move (fun _ => hsame.grip task) (by rw [hsame.bodies]) (by rw [hsame.tracked]) rfl rfl hbody hfact

/-- A task is started and tracked. -/
theorem Step.Good.track {born : Place} (h : m.Sound) (hat : p.At task m)
    (hchild : child ≠ task ∧ WorkflowManager.Idle child m) (hholds : q.holds = p.holds)
    (htracked : q.tracked = p.tracked) (hbody : p.isBody = false)
    (hfact : q.Fact task { m with tracked := child :: m.tracked })
    (hborn : born.holds = none ∧ born.tracked = true ∧
      born.Fact child { m with tracked := child :: m.tracked }) :
    Good task child m
      { shared := { m with tracked := child :: m.tracked }, place := q, child := some born } where
  sound := { h with tracked := List.nodup_cons.mpr ⟨hchild.2.tracked, h.tracked⟩ }
  place := hat.move (fun _ => rfl) rfl
    ⟨List.mem_of_ne_of_mem hchild.1.symm, List.mem_cons_of_mem _⟩ hholds htracked hbody hfact
  does := { (WorkflowManager.Does.refl : m.Does (some task) (some child) m) with
    tracked := fun n _ hn =>
      ⟨List.mem_of_ne_of_mem fun heq => hn (congrArg some heq.symm), List.mem_cons_of_mem _⟩ }
  born := by
    rintro _ ⟨⟩
    exact
      { held := .inl ⟨hchild.2.body, fun w => by
          rw [hborn.1]
          exact hchild.2.grip w⟩
        tracked := ⟨fun _ => hborn.2.1, fun _ => List.mem_cons_self⟩
        fact := hborn.2.2 }

theorem startStep_good (h : m.Sound) (hat : p.At task m)
    (hchild : o.child.isSome = true → child ≠ task ∧ WorkflowManager.Idle child m)
    (hstep : m.startStep task child p c = some o) : Step.Good task child m o := by
  unfold WorkflowManager.startStep at hstep
  split at hstep
  · exact find_good h hat hstep rfl rfl fun w => ⟨rfl, rfl, trivial⟩
  -- startLock
  · exact lock_good h hat hstep rfl rfl rfl rfl fun x activity hx hready =>
      ⟨_, WorkflowManager.put_workflows_self .., hready.initialized, hready.settled⟩
  -- startPhase
  · refine checkPhase_good h hat hstep rfl rfl hat.fact rfl rfl fun hin => ?_
    obtain ⟨x, hx, hin, hstatus⟩ := hin
    exact ⟨x, hx, hin, hin.settled hstatus⟩
  -- startInfo
  · obtain ⟨x, hx, hstep⟩ := WorkflowManager.on_eq hstep
    have hin := WorkflowManager.Has.get hat.fact hx
    split at hstep
    · cases goTo_eq hstep
      exact .unlock h hat .refl rfl rfl ⟨x, hx, hin.ready⟩
    · cases goTo_eq hstep
      exact .look h hat rfl rfl rfl hat.fact
  -- startOpen
  · obtain ⟨x, hx, hstep⟩ := WorkflowManager.on_eq hstep
    have hin := WorkflowManager.Has.get hat.fact hx
    split at hstep
    · cases goTo_eq hstep
      exact .unlock h hat .refl rfl rfl ⟨x, hx, hin.ready⟩
    · cases goTo_eq hstep
      exact .look h hat rfl rfl rfl hat.fact
  -- startDirty
  · obtain ⟨x, hx, hstep⟩ := WorkflowManager.on_eq hstep
    have hin := WorkflowManager.Has.get hat.fact hx
    cases goTo_eq hstep
    split
    · exact .mark h hat hx (hat.writer rfl hx) (hin.live rfl) (.inr (hin.not_pulling (by decide))) rfl rfl
        rfl (WorkflowManager.Has.mark hat.fact)
    · exact .mark h hat hx (hat.writer rfl hx) (hin.live rfl) (.inr (hin.not_pulling (by decide))) rfl rfl
        rfl (Place.Fact.failing (WorkflowManager.Has.mark ⟨x, hx, hin.live rfl, hin.initialized⟩))
  -- startAgain
  · rename_i w
    have hready : m.Has w (·.Ready) := by
      obtain ⟨x, hx, hin⟩ := hat.fact
      exact ⟨x, hx, hin.ready⟩
    refine checkPhase_good h hat hstep rfl rfl hready rfl rfl fun hin => ?_
    obtain ⟨x, hx, hin, hstatus⟩ := hin
    exact ⟨x, hx, hin, hin.settled hstatus⟩
  -- startCreate
  · rename_i w result
    obtain ⟨x, hx, hstep⟩ := WorkflowManager.on_eq hstep
    have hin := WorkflowManager.Has.get hat.fact hx
    obtain ⟨hkeeps, hlaunching⟩ := (h.record hx).launch (hat.writer rfl hx) hin
    have hlaunching : (m.put w { x with launches := x.launches + 1 }).Has w (·.Launching) :=
      ⟨_, WorkflowManager.put_workflows_self .., hlaunching⟩
    cases goTo_eq hstep
    split
    · exact .write h hat rfl hx hkeeps ⟨rfl, rfl⟩ rfl rfl hlaunching
    · exact .write h hat rfl hx hkeeps ⟨rfl, rfl⟩ rfl rfl (Place.Fact.failing (hlaunching.imp fun _ h => ⟨h.live, h.initialized⟩))
  -- startRegister
  · rename_i w id
    obtain ⟨x, hx, hstep⟩ := WorkflowManager.on_eq hstep
    have hlaunching := WorkflowManager.Has.get hat.fact hx
    split at hstep
    · dsimp only at hstep
      split at hstep
      · rename_i sessions hregister
        cases goTo_eq hstep
        have hsame : m.Same { m with sessions } := ⟨rfl, rfl, rfl, rfl, rfl, rfl, rfl⟩
        have hat' := hat.same hsame rfl (hsame.has hat.fact)
        exact hsame.good (.write (hsame.sound h) hat' rfl hx ((h.record hx).note (hat.writer rfl hx))
          ⟨rfl, rfl⟩ rfl rfl ⟨_, WorkflowManager.put_workflows_self .., hlaunching.initialized,
            hlaunching.status, hlaunching.launches, hlaunching.session⟩)
      · cases goTo_eq hstep
        exact .same h hat ⟨rfl, rfl, rfl, rfl, rfl, rfl, rfl⟩ rfl rfl rfl
          (Place.Fact.failing ⟨x, hx, hlaunching.live, hlaunching.initialized⟩)
    · cases hstep
  -- startWait
  · obtain ⟨e, he, hstep⟩ := Option.bind_eq_some_iff.mp hstep
    obtain ⟨started, hstarted, hstep⟩ := Option.bind_eq_some_iff.mp hstep
    split at hstep
    · cases goTo_eq hstep
      exact .look h hat rfl rfl rfl hat.fact
    · cases goTo_eq hstep
      exact .look h hat rfl rfl rfl 
        (Place.Fact.failing (WorkflowManager.Has.imp hat.fact fun _ h => ⟨h.live, h.initialized⟩))
  -- startRecord
  · rename_i w sessionId info
    obtain ⟨x, hx, hstep⟩ := WorkflowManager.on_eq hstep
    have hlaunching := WorkflowManager.Has.get hat.fact hx
    obtain ⟨hkeeps, hin⟩ := (h.record hx).started (hat.writer rfl hx) hlaunching sessionId
    cases goTo_eq hstep
    have hterminal : (x.started sessionId).terminal = x.terminal := by
      rw [hin.live rfl, hlaunching.live]
    refine .keeps (h.put hx hkeeps.sound rfl hterminal (fun hwaiting => ?_) (fun hpulling => ?_)
      fun n _ => hkeeps.grip n) hat hx hkeeps hterminal rfl rfl rfl
      ⟨_, WorkflowManager.put_workflows_self .., hin⟩
    · exact absurd (hin.initialized.symm.trans hwaiting) (by decide)
    · exact absurd hpulling (hin.not_pulling (by decide))
  -- startObserver
  · obtain ⟨x, hx, hin⟩ := hat.fact
    cases spawn_eq hstep
    exact .track h hat (hchild rfl) rfl rfl rfl ⟨⟨_, rfl⟩, x, hx, hin.ready⟩ ⟨rfl, rfl, trivial⟩
  · cases hstep

theorem observeStep_good (h : m.Sound) (hat : p.At task m) (hstep : m.observeStep task p c = some o) :
    Step.Good task child m o := by
  unfold WorkflowManager.observeStep at hstep
  split at hstep
  -- observe
  · obtain ⟨x, hx, hstep⟩ := WorkflowManager.on_eq hstep
    split at hstep <;> cases goTo_eq hstep <;> exact .look h hat rfl rfl rfl trivial
  -- observeGet
  · dsimp only at hstep
    split at hstep
    · cases goTo_eq hstep
      exact .same h hat ⟨rfl, rfl, rfl, rfl, rfl, rfl, rfl⟩ rfl rfl rfl trivial
    · cases goTo_eq hstep
      exact .same h hat ⟨rfl, rfl, rfl, rfl, rfl, rfl, rfl⟩ rfl rfl rfl
        ⟨trivial, fun hholds => absurd rfl hholds⟩
  -- observeRead
  · obtain ⟨e, he, hstep⟩ := Option.bind_eq_some_iff.mp hstep
    split at hstep <;> cases goTo_eq hstep <;> exact .look h hat rfl rfl rfl trivial
  -- observeLock
  · exact lock_good h hat hstep rfl rfl rfl rfl fun x activity hx hready =>
      ⟨_, WorkflowManager.put_workflows_self .., hready.initialized, hready.settled⟩
  -- observeCheck
  · obtain ⟨x, hx, hstep⟩ := WorkflowManager.on_eq hstep
    have hready := WorkflowManager.Has.get hat.fact hx
    split at hstep
    · cases goTo_eq hstep
      exact .unlock h hat .refl rfl rfl hat.fact
    · rename_i hrunning
      have hin : m.Has _ (Workflow.In .running) :=
        ⟨x, hx, hready.initialized, .inl (by simpa using hrunning), hready.settled⟩
      split at hstep
      · cases goTo_eq hstep
        exact .look h hat rfl rfl rfl hin
      · cases goTo_eq hstep
        exact .look h hat rfl rfl rfl (Place.Fact.failing (hin.imp fun _ hin => ⟨hin.live rfl, hin.initialized⟩))
  -- observeMark
  · obtain ⟨x, hx, hstep⟩ := WorkflowManager.on_eq hstep
    have hin := WorkflowManager.Has.get hat.fact hx
    cases goTo_eq hstep
    split
    · refine .mark h hat hx (hat.writer rfl hx) (hin.live rfl) (.inl rfl) rfl rfl rfl ⟨x, ?_, hin, ?_⟩
      · rw [WorkflowManager.mark_others]
        exact hx
      · exact m.mark_ok ..
    · exact .mark h hat hx (hat.writer rfl hx) (hin.live rfl) (.inl rfl) rfl rfl rfl
        (Place.Fact.failing (WorkflowManager.Has.mark ⟨x, hx, hin.live rfl, hin.initialized⟩))
  -- observePublish
  · obtain ⟨x, hx, hstep⟩ := WorkflowManager.on_eq hstep
    obtain ⟨hin, hclean⟩ := WorkflowManager.Has.get hat.fact hx
    have hkeeps := (h.record hx).published (hat.writer rfl hx)
    have hlive : x.published.terminal = false := by
      unfold Workflow.published
      split
      · rfl
      · exact hin.live rfl
    have hdone : x.published.initializing = false := (hkeeps.does.initialized hin.initialized).1
    cases goTo_eq hstep
    have hterminal : x.published.terminal = x.terminal := by rw [hlive, hin.live rfl]
    refine .keeps (h.put hx hkeeps.sound hkeeps.does.workflowId hterminal (fun hwaiting => ?_)
      (fun _ => ?_) fun n _ => hkeeps.grip n) hat hx hkeeps hterminal rfl rfl rfl
      ⟨⟨_, rfl⟩, _, WorkflowManager.put_workflows_self .., hdone, ?_⟩
    · exact absurd (hdone.symm.trans hwaiting) (by decide)
    · rw [hkeeps.does.project]
      exact hclean
    · intro hpreparing
      unfold Workflow.published at hpreparing ⊢
      split at hpreparing
      · cases hpreparing
      · rw [if_neg ‹_›]
        exact hin.settled hpreparing
  · cases hstep

/-! ## `stop_session`, `finish`, `cancel` and `fail` -/

/-- A step that asks a workflow to stop. -/
theorem Step.Good.stop {cleanup : Option Place} (hat : p.At task m)
    (hstops : WorkflowManager.Stops task child w m m' cleanup)
    (hne : cleanup.isSome = true → child ≠ task) (hholds : q.holds = p.holds)
    (htracked : q.tracked = p.tracked) (hbody : p.isBody = false) (hfact : q.Fact task m') :
    Good task child m { shared := m', place := q, child := cleanup } where
  sound := hstops.sound
  place := hat.move (hstops.grip task) (by rw [hstops.bodies])
    (hstops.tracked (by
      cases cleanup with
      | none => exact .inr rfl
      | some _ => exact .inl (hne rfl).symm)) hholds htracked hbody hfact
  does := hstops.does
  born := hstops.born

theorem stopStep_good (h : m.Sound) (hat : p.At task m)
    (hchild : o.child.isSome = true → child ≠ task ∧ WorkflowManager.Idle child m)
    (hstep : m.stopStep child p c = some o) : Step.Good task child m o := by
  unfold WorkflowManager.stopStep at hstep
  split at hstep
  · exact find_good h hat hstep rfl rfl fun w => ⟨rfl, rfl, trivial⟩
  -- stopInfo
  · obtain ⟨x, hx, hstep⟩ := WorkflowManager.on_eq hstep
    split at hstep <;> cases goTo_eq hstep <;> exact .look h hat rfl rfl rfl trivial
  -- stopGet
  · dsimp only at hstep
    split at hstep <;> cases goTo_eq hstep <;>
      exact .same h hat ⟨rfl, rfl, rfl, rfl, rfl, rfl, rfl⟩ rfl rfl rfl trivial
  -- stopRead
  · obtain ⟨e, he, hstep⟩ := Option.bind_eq_some_iff.mp hstep
    split at hstep <;> cases goTo_eq hstep <;> exact .look h hat rfl rfl rfl trivial
  -- stopRequest
  · dsimp only at hstep
    cases spawn_eq hstep
    exact .stop hat (WorkflowManager.requestCleanup_spec h (fun _ => rfl) hchild)
      (fun hsome => (hchild hsome).1) rfl rfl rfl trivial
  · cases hstep

theorem finishStep_good (h : m.Sound) (hat : p.At task m)
    (hchild : o.child.isSome = true → child ≠ task ∧ WorkflowManager.Idle child m)
    (hstep : m.finishStep task child p c = some o) : Step.Good task child m o := by
  unfold WorkflowManager.finishStep at hstep
  split at hstep
  · exact find_good h hat hstep rfl rfl fun w => ⟨rfl, rfl, trivial⟩
  -- finishInfo
  · obtain ⟨x, hx, hstep⟩ := WorkflowManager.on_eq hstep
    split at hstep <;> cases goTo_eq hstep <;> exact .look h hat rfl rfl rfl trivial
  -- finishLock
  · exact lock_good h hat hstep rfl rfl rfl rfl fun x activity hx hready =>
      ⟨_, WorkflowManager.put_workflows_self .., hready.initialized, hready.settled⟩
  · cases goTo_eq hstep
    exact .look h hat rfl rfl rfl trivial
  -- finishPhase
  · refine checkPhase_good h hat hstep rfl rfl hat.fact rfl rfl fun hin => ?_
    obtain ⟨x, hx, hin, -⟩ := hin
    exact ⟨x, hx, hin⟩
  -- finishCall
  · obtain ⟨x, hx, hstep⟩ := WorkflowManager.on_eq hstep
    cases ask_eq hstep
    exact .ask h hat (hchild rfl).2 ⟨rfl, rfl, rfl, rfl, rfl, rfl, rfl⟩ rfl rfl rfl hat.fact
  -- finishWait
  · obtain ⟨answer, hanswer, hstep⟩ := Option.bind_eq_some_iff.mp hstep
    split at hstep <;> cases goTo_eq hstep <;> exact .look h hat rfl rfl rfl hat.fact
  -- finishFailed
  · obtain ⟨x, hx, hstep⟩ := WorkflowManager.on_eq hstep
    have hin := WorkflowManager.Has.get hat.fact hx
    cases goTo_eq hstep
    exact .writeUnlock h hat rfl rfl hx ((h.record hx).report (hat.writer rfl hx) (hin.live rfl))
      ⟨rfl, rfl⟩ ⟨hin.initialized, hin.settled⟩
  -- finishTerminal
  · obtain ⟨x, hx, hstep⟩ := WorkflowManager.on_eq hstep
    have hin := WorkflowManager.Has.get hat.fact hx
    obtain ⟨heq, -⟩ | ⟨hpulling, hinvalid, sessions, heq⟩ :=
      WorkflowManager.terminal_cases h hx (hin.live rfl) .completed none false
    · rw [heq] at hstep
      cases goTo_eq hstep
      exact .unlock h hat .refl rfl rfl ⟨x, hx, hin.ready⟩
    · rw [heq] at hstep
      cases goTo_eq hstep
      exact .finished h hat hx (hat.writer rfl hx) (hin.live rfl) hin.initialized
        (.completed (hpulling rfl) rfl) hinvalid (fun _ => h.pulling hx (hpulling rfl)) rfl rfl rfl
        fun hready => ⟨_, WorkflowManager.put_workflows_self .., hready⟩
  -- finishDone
  · obtain ⟨x, hx, hstep⟩ := WorkflowManager.on_eq hstep
    cases goTo_eq hstep
    exact .unlock h hat .refl rfl rfl hat.fact
  · cases hstep

theorem cancelStep_good (h : m.Sound) (hat : p.At task m)
    (hchild : o.child.isSome = true → child ≠ task ∧ WorkflowManager.Idle child m)
    (hstep : m.cancelStep child p c = some o) : Step.Good task child m o := by
  unfold WorkflowManager.cancelStep at hstep
  split at hstep
  · exact find_good h hat hstep rfl rfl fun w => ⟨rfl, rfl, trivial⟩
  -- cancelRequest
  · dsimp only at hstep
    cases spawn_eq hstep
    exact .stop hat (WorkflowManager.requestCleanup_spec h (by rintro ⟨⟩) hchild)
      (fun hsome => (hchild hsome).1) rfl rfl rfl trivial
  -- cancelInfo
  · obtain ⟨x, hx, hstep⟩ := WorkflowManager.on_eq hstep
    cases goTo_eq hstep
    exact .look h hat rfl rfl rfl trivial
  -- fail
  · rename_i w error invalidate next
    dsimp only at hstep
    cases spawn_eq hstep
    have hstops : WorkflowManager.Stops task child w m
        (m.requestCleanup w .workflowClosed .failed (some error) invalidate child).1
        (m.requestCleanup w .workflowClosed .failed (some error) invalidate child).2 :=
      WorkflowManager.requestCleanup_spec h (fun _ => rfl) hchild
    obtain ⟨hleaving, hlive⟩ := hat.fact
    cases next with
    | leave answer => exact .stop hat hstops (fun hsome => (hchild hsome).1) rfl rfl rfl trivial
    | unlock w' next =>
        cases next with
        | leave answer =>
            have hw : w' = w := hleaving
            subst hw
            -- the workflow is stopping now, so nothing of it is being launched
            obtain ⟨y, hy, hstopping, hdone⟩ := hstops.stopping (hlive (by rintro ⟨⟩))
              fun haside hdone => haside.initializing.trans hdone
            refine .stop hat hstops (fun hsome => (hchild hsome).1) rfl rfl rfl
              ⟨⟨_, rfl⟩, y, hy, hdone, fun hpreparing => ?_⟩
            rw [hstopping] at hpreparing
            cases hpreparing
        | _ => exact hleaving.elim
    | _ => exact hleaving.elim
  · cases hstep

/-! ## `cleanup_workflow` -/

/-- A workflow that is stopping, and what its cleanup knows of the marker. -/
theorem Workflow.In.of_stopping (hdone : x.initializing = false) (hstatus : x.info.status = .stopping) :
    x.In .stopping := by
  refine ⟨hdone, .inl hstatus, fun hpreparing => ?_⟩
  rw [hstatus] at hpreparing
  cases hpreparing

theorem Workflow.In.status_eq (hin : x.In .stopping) : x.info.status = .stopping :=
  hin.status.elim (fun h => h) fun h => h

/-- The cleanup tries again. -/
theorem Place.Fact.again (h : m.Sound) (hx : m.workflows w = some x) (hin : x.In .stopping) :
    (Place.cleanupLoop w).Fact task m :=
  ⟨x, hx, (h.record hx).stopping hin.status_eq, hin.initialized⟩

theorem cleanupStep_good (h : m.Sound) (hat : p.At task m)
    (hchild : o.child.isSome = true → child ≠ task ∧ WorkflowManager.Idle child m)
    (hstep : m.cleanupStep task child p c = some o) : Step.Good task child m o := by
  unfold WorkflowManager.cleanupStep at hstep
  split at hstep
  -- cleanup
  · refine lock_good h hat hstep rfl rfl rfl rfl fun x activity hx hready => ?_
    have hstarted : x.cleanupStarted = true := WorkflowManager.Has.get hat.fact hx
    exact ⟨_, WorkflowManager.put_workflows_self .., hstarted, hready.initialized⟩
  -- cleanupLoop
  · obtain ⟨x, hx, hstep⟩ := WorkflowManager.on_eq hstep
    obtain ⟨hstarted, hdone⟩ := WorkflowManager.Has.get hat.fact hx
    split at hstep
    · rename_i hterminal
      cases goTo_eq hstep
      refine .unlock h hat .refl rfl rfl ⟨x, hx, hdone, fun hpreparing => ?_⟩
      rw [Workflow.terminal, hpreparing] at hterminal
      cases hterminal
    · rename_i hlive
      cases goTo_eq hstep
      exact .look h hat rfl rfl rfl
        ⟨x, hx, .of_stopping hdone ((h.record hx).stopping_of_live hstarted (by simpa using hlive))⟩
  -- cleanupRead
  · obtain ⟨x, hx, hstep⟩ := WorkflowManager.on_eq hstep
    split at hstep <;> cases goTo_eq hstep <;> exact .look h hat rfl rfl rfl hat.fact
  -- cleanupStop
  · dsimp only at hstep
    split at hstep <;> cases goTo_eq hstep <;>
      exact .same h hat ⟨rfl, rfl, rfl, rfl, rfl, rfl, rfl⟩ rfl rfl rfl hat.fact
  -- cleanupRequest
  · cases goTo_eq hstep
    exact .same h hat ⟨rfl, rfl, rfl, rfl, rfl, rfl, rfl⟩ rfl rfl rfl hat.fact
  -- cleanupSession
  · obtain ⟨e, he, hstep⟩ := Option.bind_eq_some_iff.mp hstep
    obtain ⟨x, hx, hin⟩ := hat.fact
    split at hstep
    · cases goTo_eq hstep
      exact .look h hat rfl rfl rfl ⟨x, hx, hin⟩
    · split at hstep
      · cases goTo_eq hstep
        exact .look h hat rfl rfl rfl ⟨x, hx, hin⟩
      · cases goTo_eq hstep
        exact .look h hat rfl rfl rfl ⟨x, hx, hin, (by rintro ⟨⟩)⟩
  -- cleanupDegraded
  · obtain ⟨x, hx, hin⟩ := hat.fact
    split at hstep
    · cases goTo_eq hstep
      exact .look h hat rfl rfl rfl ⟨x, hx, hin⟩
    · split at hstep
      · cases goTo_eq hstep
        exact .look h hat rfl rfl rfl ⟨x, hx, hin⟩
      · cases goTo_eq hstep
        exact .look h hat rfl rfl rfl ⟨x, hx, hin, (by rintro ⟨⟩)⟩
  -- cleanupDirty
  · obtain ⟨x, hx, hstep⟩ := WorkflowManager.on_eq hstep
    have hin := WorkflowManager.Has.get hat.fact hx
    cases goTo_eq hstep
    split
    · refine .mark h hat hx (hat.writer rfl hx) (hin.live rfl) (.inr (hin.not_pulling (by decide))) rfl
        rfl rfl ⟨x, ?_, hin, fun _ => m.mark_ok ..⟩
      rw [WorkflowManager.mark_others]
      exact hx
    · exact .mark h hat hx (hat.writer rfl hx) (hin.live rfl) (.inr (hin.not_pulling (by decide))) rfl
        rfl rfl (WorkflowManager.Has.mark hat.fact)
  -- cleanupCall
  · obtain ⟨x, hx, hstep⟩ := WorkflowManager.on_eq hstep
    cases ask_eq hstep
    exact .ask h hat (hchild rfl).2 ⟨rfl, rfl, rfl, rfl, rfl, rfl, rfl⟩ rfl rfl rfl hat.fact
  -- cleanupWait
  · obtain ⟨answer, hanswer, hstep⟩ := Option.bind_eq_some_iff.mp hstep
    obtain ⟨x, hx, hin, hdirty⟩ := hat.fact
    split at hstep
    · cases goTo_eq hstep
      exact .look h hat rfl rfl rfl ⟨x, hx, hin, hdirty⟩
    · cases goTo_eq hstep
      exact .look h hat rfl rfl rfl ⟨x, hx, hin⟩
  -- cleanupClean
  · obtain ⟨x, hx, hstep⟩ := WorkflowManager.on_eq hstep
    obtain ⟨hin, hdirty⟩ := WorkflowManager.Has.get hat.fact hx
    split at hstep
    · rename_i hreads
      split at hstep
      · rename_i clean
        cases goTo_eq hstep
        refine .look h hat rfl rfl rfl ⟨x, hx, hin, hdirty, fun hclean => ?_⟩
        subst hclean
        exact of_decide_eq_true hreads
      · cases goTo_eq hstep
        exact .look h hat rfl rfl rfl ⟨x, hx, hin⟩
    · cases hstep
  -- cleanupTarget
  · obtain ⟨x, hx, hstep⟩ := WorkflowManager.on_eq hstep
    have hfact := WorkflowManager.Has.get hat.fact hx
    split at hstep
    · cases goTo_eq hstep
      exact .look h hat rfl rfl rfl (.again h hx hfact.1)
    · cases goTo_eq hstep
      exact .look h hat rfl rfl rfl ⟨(h.record hx).target, x, hx, hfact⟩
  -- cleanupTerminal
  · rename_i w invalidate clean target error
    obtain ⟨x, hx, hstep⟩ := WorkflowManager.on_eq hstep
    obtain ⟨htarget, hhas⟩ := hat.fact
    obtain ⟨hin, -, hclean⟩ := WorkflowManager.Has.get hhas hx
    obtain ⟨heq, -⟩ | ⟨-, hinvalid, sessions, heq⟩ :=
      WorkflowManager.terminal_cases h hx (hin.live rfl) target error !clean
    · rw [heq] at hstep
      cases goTo_eq hstep
      exact .look h hat rfl rfl rfl (.again h hx hin)
    · rw [heq] at hstep
      cases goTo_eq hstep
      refine .finished h hat hx (hat.writer rfl hx) (hin.live rfl) hin.initialized ?_ hinvalid
        (fun hfull => hclean (by simpa using hfull)) rfl rfl rfl
        fun hready => ⟨⟨_, rfl⟩, _, WorkflowManager.put_workflows_self .., hready⟩
      obtain rfl | ⟨rfl, herror⟩ := htarget
      · exact .cancelled hin.status_eq
      · exact .failed hin.status_eq herror
  -- cleanupFailed
  · obtain ⟨x, hx, hstep⟩ := WorkflowManager.on_eq hstep
    have hin := WorkflowManager.Has.get hat.fact hx
    cases goTo_eq hstep
    exact .write h hat rfl hx ((h.record hx).report (hat.writer rfl hx) (hin.live rfl)) ⟨rfl, rfl⟩ rfl rfl
      ⟨_, WorkflowManager.put_workflows_self .., (h.record hx).stopping hin.status_eq, hin.initialized⟩
  · cases hstep

/-! ## The reaper and `shutdown` -/

/-- A live workflow has not ended, so pruning keeps its entry. -/
theorem WorkflowManager.Sound.unended (h : m.Sound) (hx : m.workflows w = some x)
    (hlive : x.terminal = false) : (m.workflows w).bind (·.ended) = none := by
  have hended := (h.record hx).ended
  rw [hlive, Option.isSome_eq_false_iff, Option.isNone_iff_eq_none] at hended
  rw [hx]
  exact hended

theorem prune_good (h : m.Sound) (hat : Place.prune.At task m) :
    Step.Good task child m { shared := m.prune, place := .done (.ok .unit) } where
  sound :=
    { h with
      distinct := h.distinct.sublist (List.Sublist.map _ retained_sublist)
      entry := fun hmem => h.entry (mem_of_mem_retained hmem)
      slot := fun {w x} hx hlive =>
        ⟨(h.slot hx hlive).1, mem_retained (h.slot hx hlive).2 (h.unended hx hlive)⟩
      active := fun {id} hactive => by
        obtain ⟨w, x, hmem, hx, hlive⟩ := h.active hactive
        exact ⟨w, x, mem_retained hmem (h.unended hx hlive), hx, hlive⟩ }
  place := hat.move (fun _ => rfl) rfl Iff.rfl rfl rfl rfl trivial
  does :=
    { (WorkflowManager.Does.refl : m.Does (some task) none m) with
      entries := fun hmem => .inl (mem_of_mem_retained hmem)
      pruned := fun {id w} hmem hgone => by
        obtain ⟨x, hx, hid⟩ := h.entry hmem
        refine ⟨x, hx, ?_⟩
        by_contra hlive
        exact hgone (mem_retained hmem (h.unended hx (by simpa using hlive))) }
  born := (by rintro _ ⟨⟩)

theorem reaperStep_good (h : m.Sound) (hat : p.At task m)
    (hchild : o.child.isSome = true → child ≠ task ∧ WorkflowManager.Idle child m)
    (hstep : m.reaperStep child p c = some o) : Step.Good task child m o := by
  unfold WorkflowManager.reaperStep at hstep
  split at hstep
  -- expire
  · split at hstep
    · cases goTo_eq hstep
      exact .look h hat rfl rfl rfl trivial
    · split at hstep
      · cases goTo_eq hstep
        exact .look h hat rfl rfl rfl trivial
      · obtain ⟨x, hx, hstep⟩ := WorkflowManager.on_eq hstep
        split at hstep
        · dsimp only at hstep
          cases spawn_eq hstep
          exact .stop hat (WorkflowManager.requestCleanup_spec h (by rintro ⟨⟩) hchild)
            (fun hsome => (hchild hsome).1) rfl rfl rfl trivial
        · cases goTo_eq hstep
          exact .look h hat rfl rfl rfl trivial
  -- prune
  · cases goTo_eq hstep
    exact prune_good h hat
  -- background
  · cases ask_eq hstep
    exact .ask h hat (hchild rfl).2 ⟨rfl, rfl, rfl, rfl, rfl, rfl, rfl⟩ rfl rfl rfl trivial
  · obtain ⟨answer, hanswer, hstep⟩ := Option.bind_eq_some_iff.mp hstep
    cases goTo_eq hstep
    exact .look h hat rfl rfl rfl trivial
  · cases hstep

theorem shutdownStep_good (h : m.Sound) (hat : p.At task m)
    (hchild : o.child.isSome = true → child ≠ task ∧ WorkflowManager.Idle child m)
    (hstep : m.shutdownStep child p c = some o) : Step.Good task child m o := by
  unfold WorkflowManager.shutdownStep at hstep
  split at hstep
  -- shutdown
  · dsimp only at hstep
    have hsound : { m with stopping := true }.Sound := { h with }
    have hat' : Place.shutdown.At task { m with stopping := true } :=
      ⟨hat.held, hat.tracked, trivial⟩
    have hset : ∀ {born : Option Nat} {m'}, { m with stopping := true }.Does (some task) born m' →
        m.Does (some task) born m' := fun hdoes =>
      { hdoes with stopping := fun _ => hdoes.stopping rfl }
    have hidle : o.child.isSome = true →
        child ≠ task ∧ WorkflowManager.Idle child { m with stopping := true } := fun hsome => by
      obtain ⟨hne, hidle⟩ := hchild hsome
      exact ⟨hne, hidle.grip, hidle.body, hidle.tracked, hidle.created⟩
    split at hstep
    · cases goTo_eq hstep
      have hgood : Step.Good task child { m with stopping := true }
          { shared := { m with stopping := true }, place := .shutdownDrain } :=
        .look hsound hat' rfl rfl rfl trivial
      exact { hgood with does := hset hgood.does }
    · cases spawn_eq hstep
      have hgood := Step.Good.stop (q := .shutdownDrain) hat'
        (WorkflowManager.requestCleanup_spec hsound (by rintro ⟨⟩) hidle)
        (fun hsome => (hidle hsome).1) rfl rfl rfl trivial
      exact { hgood with does := hset hgood.does }
  -- shutdownDrain
  · split at hstep
    · cases goTo_eq hstep
      exact .look h hat rfl rfl rfl trivial
    · cases hstep
  -- shutdownSessions
  · cases goTo_eq hstep
    exact .same h hat ⟨rfl, rfl, rfl, rfl, rfl, rfl, rfl⟩ rfl rfl rfl trivial
  -- shutdownWait
  · cases goTo_eq hstep
    exact .look h hat rfl rfl rfl trivial
  · cases goTo_eq hstep
    exact .same h hat ⟨rfl, rfl, rfl, rfl, rfl, rfl, rfl⟩ rfl rfl rfl trivial
  -- shutdownSync
  · cases ask_eq hstep
    exact .ask h hat (hchild rfl).2 ⟨rfl, rfl, rfl, rfl, rfl, rfl, rfl⟩ rfl rfl rfl trivial
  · obtain ⟨answer, hanswer, hstep⟩ := Option.bind_eq_some_iff.mp hstep
    cases goTo_eq hstep
    exact .look h hat rfl rfl rfl trivial
  · cases hstep

/-! ## The calls of the sync engine, and the end of a task -/

/-- A step with a move behind it that the outline does not look at. -/
theorem Step.Good.followed (hgood : Good task child m o) (hsame : o.shared.Same m')
    (hnone : o.child = none) (hholds : q.holds = o.place.holds)
    (htracked : q.tracked = o.place.tracked) (hbody : o.place.isBody = false)
    (hfact : q.Fact task m') : Good task child m { shared := m', place := q } where
  sound := hsame.sound hgood.sound
  place := hgood.place.move (fun _ => hsame.grip task) (by rw [hsame.bodies]) (by rw [hsame.tracked])
    hholds htracked hbody hfact
  does := by
    have hdoes := hgood.does
    rw [hnone] at hdoes
    exact
      { workflow := fun hx => by
          rw [hsame.workflows]
          exact hdoes.workflow hx
        fresh := fun hx => by
          rw [hsame.workflows]
          exact hdoes.fresh hx
        grip := fun n hn => by
          rw [hsame.bodies]
          simp only [hsame.grip]
          exact hdoes.grip n hn
        tracked := fun n hn hborn => by
          rw [hsame.tracked]
          exact hdoes.tracked n hn hborn
        projects := fun hn hx hwriter hlive => by
          rw [hsame.projects]
          exact hdoes.projects hn hx hwriter hlive
        entries := fun hmem => hdoes.entries (hsame.entries ▸ hmem)
        pruned := fun hmem hgone => hdoes.pruned hmem (hsame.entries ▸ hgone)
        stopping := fun hset => by
          rw [hsame.stopping]
          exact hdoes.stopping hset
        ended := fun hx hy hlive hterminal => by
          rw [hsame.projects, hsame.active]
          exact hdoes.ended hx (hsame.workflows ▸ hy) hlive hterminal }
  born := (by rintro _ ⟨⟩)

/-- A plan that was created is noted at the workflow that asked for it. -/
theorem noteCreated_cases (m : WorkflowManager) (place : Sync.Place) :
    m.noteCreated place = m ∨ ∃ w x created, m.workflows w = some x ∧
      m.noteCreated place = m.put w { x with created } := by
  unfold WorkflowManager.noteCreated
  split
  · split
    · rename_i x hx
      exact .inr ⟨_, x, _, hx, rfl⟩
    · exact .inl rfl
  · exact .inl rfl

theorem syncStep_good (h : m.Sound) (hat : p.At task m) (hstep : m.syncStep task p c = some o) :
    Step.Good task child m o := by
  unfold WorkflowManager.syncStep at hstep
  split at hstep
  · split at hstep <;> cases goTo_eq hstep <;>
      exact .same h hat ⟨rfl, rfl, rfl, rfl, rfl, rfl, rfl⟩ rfl rfl rfl trivial
  · rename_i place choice
    obtain ⟨step, hsync, hstep⟩ := Option.bind_eq_some_iff.mp hstep
    dsimp only at hstep
    -- what follows the note changes only what the outline does not look at
    have hend : ∃ m' q, o = { shared := m', place := q } ∧
        (WorkflowManager.noteCreated { m with sync := step.shared } place).Same m' ∧
        q.holds = none ∧ q.tracked = false ∧ q.Fact task m' := by
      split at hstep
      · exact ⟨_, _, goTo_eq hstep, ⟨rfl, rfl, rfl, rfl, rfl, rfl, rfl⟩, rfl, rfl, trivial⟩
      · exact ⟨_, _, goTo_eq hstep, ⟨rfl, rfl, rfl, rfl, rfl, rfl, rfl⟩, rfl, rfl, trivial⟩
      · exact ⟨_, _, goTo_eq hstep, .refl, rfl, rfl, trivial⟩
    obtain ⟨m', q, rfl, hsame', hholds, htracked, hfact⟩ := hend
    have hsame : m.Same { m with sync := step.shared } := ⟨rfl, rfl, rfl, rfl, rfl, rfl, rfl⟩
    obtain heq | ⟨w, x, created, hx, heq⟩ := noteCreated_cases { m with sync := step.shared } place
    · rw [heq] at hsame'
      exact hsame.good (.same (hsame.sound h) (hat.same hsame rfl trivial) hsame' hholds htracked rfl hfact)
    · rw [heq] at hsame'
      have hkeeps : x.Keeps (some task) { x with created } := (h.record hx).create
      have hgood : Step.Good task child { m with sync := step.shared }
          { shared := { m with sync := step.shared }.put w { x with created }, place := .sync place } :=
        .keeps ((hsame.sound h).put_keeps hx hkeeps rfl fun hwaiting => hwaiting)
          (hat.same hsame rfl trivial) hx hkeeps rfl rfl rfl rfl trivial
      exact (hsame.good hgood).followed hsame' rfl hholds htracked rfl hfact
  · cases hstep

theorem endStep_good (h : m.Sound) (hat : p.At task m) (hstep : m.endStep task p c = some o) :
    Step.Good task child m o := by
  unfold WorkflowManager.endStep at hstep
  split at hstep
  -- unlock
  · rename_i w next
    obtain ⟨x, hx, hstep⟩ := WorkflowManager.on_eq hstep
    obtain ⟨⟨answer, rfl⟩, hready⟩ := hat.fact
    have hready := WorkflowManager.Has.get hready hx
    have hwriter := hat.writer rfl hx
    cases goTo_eq hstep
    exact .regrips h hat hx
      ((h.record hx).release (.inl (Workflow.grip_writer.mpr hwriter)) fun _ => hready.settled) rfl
      (fun hwaiting => absurd (hready.initialized.symm.trans hwaiting) (by decide)) rfl
      (fun w' hw => (heldOn_other hw).symm) rfl rfl trivial
  -- leave
  · cases goTo_eq hstep
    have hmem := hat.tracked.mpr rfl
    exact
      { sound := { h with tracked := h.tracked.erase _ }
        place :=
          { held := by
              obtain ⟨hnone, hgrip⟩ | ⟨w, heq, -⟩ := hat.held
              · exact .inl ⟨hnone, hgrip⟩
              · cases heq
            tracked := ⟨fun hmem => absurd hmem h.tracked.not_mem_erase, (by rintro ⟨⟩)⟩
            fact := trivial }
        does := { (WorkflowManager.Does.refl : m.Does (some task) none m) with
          tracked := fun n hn _ => List.mem_erase_of_ne fun heq => hn (congrArg some heq.symm) }
        born := (by rintro _ ⟨⟩) }
  · cases hstep

/-! ## All of them -/

theorem exec_good (h : m.Sound) (hat : p.At task m)
    (hchild : o.child.isSome = true → child ≠ task ∧ WorkflowManager.Idle child m)
    (hstep : WorkflowManager.exec task child c m p = some o) : Step.Good task child m o := by
  unfold WorkflowManager.exec at hstep
  split at hstep
  all_goals first
    | exact createStep_good h hat hstep
    | exact heartbeatStep_good h hat hstep
    | exact leaseStep_good h hat hchild hstep
    | exact pushStep_good h hat hchild hstep
    | exact refreshStep_good h hat hchild hstep
    | exact commitStep_good h hat hchild hstep
    | exact abortStep_good h hat hchild hstep
    | exact startStep_good h hat hchild hstep
    | exact observeStep_good h hat hstep
    | exact stopStep_good h hat hchild hstep
    | exact finishStep_good h hat hchild hstep
    | exact cancelStep_good h hat hchild hstep
    | exact cleanupStep_good h hat hchild hstep
    | exact reaperStep_good h hat hchild hstep
    | exact shutdownStep_good h hat hchild hstep
    | exact syncStep_good h hat hstep
    | exact endStep_good h hat hstep
    | cases hstep

end Steps

end VivadoServer.Workflows
