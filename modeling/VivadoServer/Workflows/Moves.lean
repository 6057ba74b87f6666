/-
  VivadoServer.Workflows.Moves

  What a step owes to the outline (`Step.Good`), and the moves that pay it: a look
  around, a move of one record or of one grip, a write of a marker, the request to
  stop, and the beginning and the end of a workflow.
-/

import VivadoServer.Workflows.Outline

namespace VivadoServer.Workflows

open VivadoServer.History (Uuid)
open VivadoServer.Sessions (Instant TerminationReason SessionInfo)

/-- What a step owes to the outline. -/
structure Step.Good (task child : Nat) (m : WorkflowManager)
    (o : Tasks.Outcome WorkflowManager Place) : Prop where
  sound : o.shared.Sound
  place : o.place.At task o.shared
  does : m.Does (some task) (o.child.map fun _ => child) o.shared
  born : ∀ q, o.child = some q → q.At child o.shared

section Updates

variable {m m' : WorkflowManager} {mover born : Option Nat} {task child w : Nat} {x y : Workflow}
  {p q : Place}

/-! ## What the outline does not look at -/

/-- The manager moved, but not what the outline speaks of. -/
structure WorkflowManager.Same (m m' : WorkflowManager) : Prop where
  workflows : m'.workflows = m.workflows
  active : m'.active = m.active
  entries : m'.entries = m.entries
  stopping : m'.stopping = m.stopping
  tracked : m'.tracked = m.tracked
  bodies : m'.bodies = m.bodies
  projects : m'.projects = m.projects

theorem WorkflowManager.Same.refl : m.Same m := ⟨rfl, rfl, rfl, rfl, rfl, rfl, rfl⟩

theorem WorkflowManager.Same.grip (h : m.Same m') (n : Nat) : m'.grip n w = m.grip n w := by
  rw [WorkflowManager.grip, h.workflows, WorkflowManager.grip]

theorem WorkflowManager.Same.has (h : m.Same m') {P : Workflow → Prop} (hP : m.Has w P) :
    m'.Has w P := by
  obtain ⟨x, hx, hP⟩ := hP
  exact ⟨x, h.workflows ▸ hx, hP⟩

theorem WorkflowManager.Same.sound (hsame : m.Same m') (h : m.Sound) : m'.Sound where
  record hx := h.record (hsame.workflows ▸ hx)
  creator hx := h.creator (hsame.workflows ▸ hx)
  distinct := hsame.entries ▸ h.distinct
  entry hmem := hsame.has (h.entry (hsame.entries ▸ hmem))
  slot hx hlive := by
    rw [hsame.active, hsame.entries]
    exact h.slot (hsame.workflows ▸ hx) hlive
  active hactive := by
    rw [hsame.entries, hsame.workflows]
    exact h.active (hsame.active ▸ hactive)
  pulling hx hstatus := by
    rw [hsame.projects]
    exact h.pulling (hsame.workflows ▸ hx) hstatus
  tracked := hsame.tracked ▸ h.tracked
  carried hbody w' := by
    rw [hsame.grip]
    exact h.carried (hsame.bodies ▸ hbody) w'

theorem WorkflowManager.Same.does (h : m.Same m') : m.Does mover born m' where
  workflow hx := ⟨_, h.workflows ▸ hx, .refl⟩
  fresh hx := .inl (h.workflows ▸ hx)
  grip n _ := .inl ⟨by rw [h.bodies], fun _ => h.grip n⟩
  tracked _ _ _ := by rw [h.tracked]
  projects _ _ _ _ := by rw [h.projects]
  entries hmem := .inl (h.entries ▸ hmem)
  pruned hmem hgone := absurd (h.entries ▸ hmem) hgone
  stopping hset := h.stopping ▸ hset
  ended hx hy hlive hterminal := by
    rw [h.workflows, hx] at hy
    cases hy
    rw [hlive] at hterminal
    cases hterminal

/-- The task goes on with what it held. -/
theorem Place.At.move (hat : p.At task m) (hgrip : ∀ w, m'.grip task w = m.grip task w)
    (hbodies : m'.bodies task = m.bodies task) (htasks : task ∈ m'.tracked ↔ task ∈ m.tracked)
    (hholds : q.holds = p.holds) (htracked : q.tracked = p.tracked) (hbody : p.isBody = false)
    (hfact : q.Fact task m') : q.At task m' where
  held := by
    obtain ⟨hnone, hheld⟩ | ⟨w, rfl, -⟩ := hat.held
    · exact .inl ⟨hbodies.trans hnone, fun w => by rw [hgrip, hheld, hholds]⟩
    · cases hbody
  tracked := by rw [htasks, hat.tracked, htracked]
  fact := hfact

theorem Step.Good.same (h : m.Sound) (hat : p.At task m) (hsame : m.Same m')
    (hholds : q.holds = p.holds) (htracked : q.tracked = p.tracked) (hbody : p.isBody = false)
    (hfact : q.Fact task m') : Good task child m { shared := m', place := q } where
  sound := hsame.sound h
  place := hat.move (fun _ => hsame.grip task) (by rw [hsame.bodies]) (by rw [hsame.tracked]) hholds
    htracked hbody hfact
  does := hsame.does
  born := (by rintro _ ⟨⟩)

/-- A step that only looks. -/
theorem Step.Good.look (h : m.Sound) (hat : p.At task m) (hholds : q.holds = p.holds)
    (htracked : q.tracked = p.tracked) (hbody : p.isBody = false) (hfact : q.Fact task m) :
    Good task child m { shared := m, place := q } :=
  .same h hat .refl hholds htracked hbody hfact

/-! ## One workflow moves -/

/-- One workflow moves, and maybe a body gives up its lease. -/
theorem WorkflowManager.Does.putBodies {bodies : Nat → Option Nat} (hx : m.workflows w = some x)
    (hdoes : x.Does mover y)
    (hended : x.terminal = false → y.terminal = true → (y.info.requiresFullUpload = false →
      m.projects y.info.project = .clean) ∧
      (y.info.status = .completed → x.info.status = .pulling) ∧ m.active = none)
    (hgrip : ∀ n, mover ≠ some n →
      (bodies n = m.bodies n ∧ ∀ w', ({ m with bodies }.put w y).grip n w' = m.grip n w') ∨
      (m.bodies n ≠ none ∧ bodies n = none ∧ ∀ w', ({ m with bodies }.put w y).grip n w' = none)) :
    m.Does mover born ({ m with bodies }.put w y) where
  workflow {w' x'} hx' := by
    by_cases hw : w' = w
    · subst hw
      rw [hx] at hx'
      cases hx'
      exact ⟨y, WorkflowManager.put_workflows_self .., hdoes⟩
    · exact ⟨x', (WorkflowManager.put_workflows_other hw).trans hx', .refl⟩
  fresh {w'} hnone := by
    have hw : w' ≠ w := by
      rintro rfl
      rw [hx] at hnone
      cases hnone
    exact .inl ((WorkflowManager.put_workflows_other hw).trans hnone)
  grip := hgrip
  tracked _ _ _ := Iff.rfl
  projects _ _ _ _ := rfl
  entries hmem := .inl hmem
  pruned hmem hgone := absurd hmem hgone
  stopping hset := hset
  ended {w' x' y'} hx' hy' hlive hterminal := by
    by_cases hw : w' = w
    · subst hw
      rw [hx] at hx'
      rw [WorkflowManager.put_workflows_self] at hy'
      cases hx'
      cases hy'
      exact hended hlive hterminal
    · rw [WorkflowManager.put_workflows_other hw] at hy'
      rw [show m.workflows w' = some y' from hy'] at hx'
      cases hx'
      rw [hlive] at hterminal
      cases hterminal

theorem WorkflowManager.grip_put {n w' : Nat} (hx : m.workflows w = some x)
    (hgrip : y.grip n = x.grip n) : (m.put w y).grip n w' = m.grip n w' := by
  by_cases hw : w' = w
  · subst hw
    rw [WorkflowManager.grip_put_self, hgrip, WorkflowManager.grip_eq hx]
  · exact WorkflowManager.grip_put_other hw

theorem WorkflowManager.Does.put (hx : m.workflows w = some x) (hdoes : x.Does mover y)
    (hterminal : y.terminal = x.terminal) (hgrip : ∀ n, mover ≠ some n → y.grip n = x.grip n) :
    m.Does mover born (m.put w y) :=
  .putBodies hx hdoes
    (fun hlive hended => absurd (hlive.symm.trans (hterminal.symm.trans hended)) (by decide)) fun n hn => .inl ⟨rfl, fun _ => WorkflowManager.grip_put hx (hgrip n hn)⟩

/-- The workflow stays live or ended. -/
theorem WorkflowManager.Sound.put (h : m.Sound) (hx : m.workflows w = some x) (hy : y.Sound)
    (hid : y.info.workflowId = x.info.workflowId) (hterminal : y.terminal = x.terminal)
    (hcreator : y.initializing = true → y.activity.isWriter w = true)
    (hpulling : y.info.status = .pulling → m.projects y.info.project = .clean)
    (hgrip : ∀ n, m.bodies n ≠ none → y.grip n = x.grip n) : (m.put w y).Sound := by
  have hstore : ∀ {w' x'}, (m.put w y).workflows w' = some x' →
      (w' = w ∧ x' = y) ∨ (w' ≠ w ∧ m.workflows w' = some x') := by
    intro w' x' hx'
    by_cases hw : w' = w
    · subst hw
      rw [put_workflows_self] at hx'
      exact .inl ⟨rfl, (Option.some.inj hx').symm⟩
    · rw [put_workflows_other hw] at hx'
      exact .inr ⟨hw, hx'⟩
  constructor
  case record =>
    intro w' x' hx'
    obtain ⟨-, rfl⟩ | ⟨-, hx'⟩ := hstore hx'
    · exact hy
    · exact h.record hx'
  case creator =>
    intro w' x' hx' hwaiting
    obtain ⟨rfl, rfl⟩ | ⟨-, hx'⟩ := hstore hx'
    · exact hcreator hwaiting
    · exact h.creator hx' hwaiting
  case distinct => exact h.distinct
  case entry =>
    intro id w' hmem
    obtain ⟨x', hx', hid'⟩ := h.entry hmem
    by_cases hw : w' = w
    · subst hw
      rw [hx] at hx'
      cases hx'
      exact ⟨y, put_workflows_self .., hid.trans hid'⟩
    · exact ⟨x', (put_workflows_other hw).trans hx', hid'⟩
  case slot =>
    intro w' x' hx' hlive
    obtain ⟨rfl, rfl⟩ | ⟨-, hx'⟩ := hstore hx'
    · rw [hid]
      exact h.slot hx (hterminal.symm.trans hlive)
    · exact h.slot hx' hlive
  case active =>
    intro id hactive
    obtain ⟨w', x', hmem, hx', hlive⟩ := h.active hactive
    by_cases hw : w' = w
    · subst hw
      rw [hx] at hx'
      cases hx'
      exact ⟨w', y, hmem, put_workflows_self .., hterminal.trans hlive⟩
    · exact ⟨w', x', hmem, (put_workflows_other hw).trans hx', hlive⟩
  case pulling =>
    intro w' x' hx' hstatus
    obtain ⟨-, rfl⟩ | ⟨-, hx'⟩ := hstore hx'
    · exact hpulling hstatus
    · exact h.pulling hx' hstatus
  case tracked => exact h.tracked
  case carried =>
    intro n w₁ hbody w'
    have hcarried := h.carried hbody w'
    by_cases hw : w' = w
    · subst hw
      rw [grip_put_self, hgrip n fun hnone => absurd (hnone.symm.trans hbody) (by rintro ⟨⟩),
        ← grip_eq hx]
      exact hcarried
    · rw [grip_put_other hw]
      exact hcarried

/-- A record of the same workflow, in the same phase. -/
theorem WorkflowManager.Sound.put_keeps (h : m.Sound) (hx : m.workflows w = some x)
    (hkeeps : x.Keeps mover y) (hstatus : y.info.status = x.info.status)
    (hwaiting : y.initializing = true → x.initializing = true) : (m.put w y).Sound := by
  refine h.put hx hkeeps.sound hkeeps.does.workflowId ?_ (fun hset => ?_) (fun hpulling => ?_)
    fun n _ => hkeeps.grip n
  · rw [Workflow.terminal, hstatus, Workflow.terminal]
  · have hwriter := h.creator hx (hwaiting hset)
    rw [← Workflow.grip_writer] at hwriter ⊢
    rw [hkeeps.grip, hwriter]
  · rw [hkeeps.does.project]
    exact h.pulling hx (hstatus.symm.trans hpulling)

/-- The record moves in place, and the task goes on with what it held. -/
theorem Step.Good.keeps (hsound : (m.put w y).Sound) (hat : p.At task m)
    (hx : m.workflows w = some x) (hkeeps : x.Keeps (some task) y)
    (hterminal : y.terminal = x.terminal) (hholds : q.holds = p.holds)
    (htracked : q.tracked = p.tracked) (hbody : p.isBody = false) (hfact : q.Fact task (m.put w y)) :
    Good task child m { shared := m.put w y, place := q } where
  sound := hsound
  place := hat.move (fun _ => WorkflowManager.grip_put hx (hkeeps.grip _)) rfl Iff.rfl hholds htracked
    hbody hfact
  does := .put hx hkeeps.does hterminal fun n _ => hkeeps.grip n
  born := (by rintro _ ⟨⟩)

/-- The task moves its grip on one workflow. -/
theorem Step.Good.regrips {grip : Option Grip} (h : m.Sound) (hat : p.At task m)
    (hx : m.workflows w = some x) (hmoves : x.Regrips task grip y)
    (hinfo : y.info = x.info) (hwaiting : y.initializing = true → y.activity.isWriter w = true)
    (hself : heldOn q.holds w = grip)
    (hrest : ∀ w', w' ≠ w → heldOn q.holds w' = heldOn p.holds w')
    (htracked : q.tracked = p.tracked) (hbody : p.isBody = false)
    (hfact : q.Fact task (m.put w y)) :
    Good task child m { shared := m.put w y, place := q } where
  sound := h.put hx hmoves.sound hmoves.does.workflowId (by rw [Workflow.terminal, hinfo, Workflow.terminal])
    hwaiting (fun hpulling => by
      rw [hinfo] at hpulling ⊢
      exact h.pulling hx hpulling)
    fun n hcarries => hmoves.others n (by
      rintro rfl
      obtain ⟨hnone, -⟩ | ⟨w', rfl, -⟩ := hat.held
      · exact hcarries hnone
      · cases hbody)
  place :=
    { held := by
        obtain ⟨hnone, hheld⟩ | ⟨w', rfl, -⟩ := hat.held
        · refine .inl ⟨hnone, fun w' => ?_⟩
          by_cases hw : w' = w
          · subst hw
            show (m.put w' y).grip task w' = heldOn q.holds w'
            rw [WorkflowManager.grip_put_self, hmoves.self, hself]
          · show (m.put w y).grip task w' = heldOn q.holds w'
            rw [WorkflowManager.grip_put_other hw, hheld, hrest w' hw]
        · cases hbody
      tracked := by
        rw [htracked]
        exact hat.tracked
      fact := hfact }
  does := .put hx hmoves.does (by rw [Workflow.terminal, hinfo, Workflow.terminal]) fun n hn =>
    hmoves.others n fun heq => hn (congrArg some heq.symm)
  born := (by rintro _ ⟨⟩)

/-! ## Markers -/

/-- A write of a marker writes it, or does nothing. -/
theorem WorkflowManager.mark_projects (m : WorkflowManager) (project : String) (marker : Marker)
    (result : Except AppError Unit) (replaced : Bool) :
    (m.mark project marker result replaced).projects = m.projects ∨
      (m.mark project marker result replaced).projects =
        Function.update m.projects project marker := by
  unfold WorkflowManager.mark
  split
  · exact .inr rfl
  · exact .inl rfl

theorem WorkflowManager.mark_ok (m : WorkflowManager) (project : String) (marker : Marker)
    (replaced : Bool) : (m.mark project marker (.ok ()) replaced).projects project = marker :=
  Function.update_self ..

/-- A mark says nothing of the workflows. -/
theorem WorkflowManager.mark_others (m : WorkflowManager) (project : String) (marker : Marker)
    (result : Except AppError Unit) (replaced : Bool) :
    m.mark project marker result replaced =
      { m with projects := (m.mark project marker result replaced).projects } := by
  unfold WorkflowManager.mark
  split <;> rfl

/-- Whoever has locked a live workflow writes its marker, but does not take back
    what can be pulled. -/
theorem Step.Good.mark {marker : Marker} {result : Except AppError Unit} {replaced : Bool}
    (h : m.Sound) (hat : p.At task m) (hx : m.workflows w = some x)
    (hwriter : x.activity.isWriter task = true) (hlive : x.terminal = false)
    (hmarker : marker = .clean ∨ x.info.status ≠ .pulling)
    (hholds : q.holds = p.holds) (htracked : q.tracked = p.tracked) (hbody : p.isBody = false)
    (hfact : q.Fact task (m.mark x.info.project marker result replaced)) :
    Good task child m { shared := m.mark x.info.project marker result replaced, place := q } := by
  have hprojects := m.mark_projects x.info.project marker result replaced
  rw [WorkflowManager.mark_others] at hfact ⊢
  generalize (m.mark x.info.project marker result replaced).projects = projects at *
  -- the marker of another project stays
  have hother : ∀ project, project ≠ x.info.project → projects project = m.projects project := by
    intro project hne
    obtain rfl | rfl := hprojects
    · rfl
    · exact Function.update_of_ne hne ..
  refine ⟨{ h with pulling := fun {w' y} hy hpulling => ?_ },
    hat.move (fun _ => rfl) rfl Iff.rfl hholds htracked hbody hfact,
    { (WorkflowManager.Does.refl : m.Does (some task) none m) with
      projects := fun {n w' y} hn hy hlocked hlive' => ?_
      ended := fun {w' y z} hy hz hlive' hterminal => ?_ }, (by rintro _ ⟨⟩)⟩
  · show projects y.info.project = .clean
    have hclean := h.pulling hy hpulling
    have hlive' : y.terminal = false := by rw [Workflow.terminal, hpulling]; rfl
    have hw := h.live_unique hx hy hlive hlive'
    subst hw
    rw [hx] at hy
    cases hy
    obtain rfl | rfl := hprojects
    · exact hclean
    · rw [Function.update_self]
      exact hmarker.resolve_right fun hne => hne hpulling
  · have hw := h.live_unique hx hy hlive hlive'
    subst hw
    rw [hx] at hy
    cases hy
    exact (Workflow.alone hwriter hn hlocked).elim
  · rw [show m.workflows w' = some z from hz] at hy
    cases hy
    rw [hlive'] at hterminal
    cases hterminal

/-! ## The request to stop -/

/-- What a request to stop does, whoever makes it. -/
structure WorkflowManager.Stops (task child w : Nat) (m m' : WorkflowManager)
    (cleanup : Option Place) : Prop where
  sound : m'.Sound
  does : m.Does (some task) (cleanup.map fun _ => child) m'
  born : ∀ q, cleanup = some q → q.At child m'
  grip : ∀ n w', m'.grip n w' = m.grip n w'
  bodies : m'.bodies = m.bodies
  tracked : ∀ {n}, n ≠ child ∨ cleanup = none → (n ∈ m'.tracked ↔ n ∈ m.tracked)
  /-- A live workflow is stopping then. -/
  stopping : ∀ {P : Workflow → Prop}, (m.Has w fun x => x.terminal = false ∧ P x) →
    (∀ {x y : Workflow}, x.Aside y → P x → P y) →
    m'.Has w fun x => x.info.status = .stopping ∧ P x

theorem WorkflowManager.requestCleanup_spec (h : m.Sound) {reason : TerminationReason}
    {target : WorkflowStatus} {error : Option AppError} {invalidate : Bool}
    (htarget : target = .failed → error.isSome = true)
    (hchild : (m.requestCleanup w reason target error invalidate child).2.isSome = true →
      child ≠ task ∧ WorkflowManager.Idle child m) :
    WorkflowManager.Stops task child w m (m.requestCleanup w reason target error invalidate child).1
      (m.requestCleanup w reason target error invalidate child).2 := by
  unfold requestCleanup at hchild ⊢
  cases hx : m.workflows w with
  | none =>
      refine ⟨h, .refl, (by rintro _ ⟨⟩), fun _ _ => rfl, rfl, fun _ => Iff.rfl, fun hhas => ?_⟩
      obtain ⟨x, hx', -⟩ := hhas
      rw [hx] at hx'
      cases hx'
  | some x =>
      simp only [hx] at hchild ⊢
      by_cases hguard : (x.terminal || m.active ≠ some x.info.workflowId) = true
      · rw [if_pos hguard]
        refine ⟨h, .refl, (by rintro _ ⟨⟩), fun _ _ => rfl, rfl, fun _ => Iff.rfl, fun hhas => ?_⟩
        obtain ⟨x', hx', hlive, -⟩ := hhas
        rw [hx] at hx'
        cases hx'
        rw [hlive, Bool.false_or, decide_eq_true_eq] at hguard
        exact absurd (h.slot hx hlive).1 hguard
      · rw [if_neg hguard] at hchild ⊢
        have hlive : x.terminal = false := by
          cases hterminal : x.terminal with
          | false => rfl
          | true => exact absurd (by rw [hterminal]; rfl) hguard
        have hkeeps : x.Keeps (some task) (x.stopped reason target error invalidate) :=
          (h.record hx).stop hlive htarget
        have haside := Workflow.stopped_aside reason target error invalidate hlive
        obtain ⟨hstatus, hstarted⟩ := Workflow.stopped_status (x := x) reason target error invalidate
        generalize x.stopped reason target error invalidate = y at hchild hkeeps haside hstatus hstarted ⊢
        have hsound : (m.put w y).Sound := h.put hx hkeeps.sound hkeeps.does.workflowId
          (by rw [hlive, Workflow.live_of_stopping hstatus])
          (fun hwaiting => by
            have hwriter := h.creator hx (haside.initializing.symm.trans hwaiting)
            rw [← Workflow.grip_writer] at hwriter ⊢
            rw [hkeeps.grip, hwriter])
          (fun hpulling => by
            rw [hstatus] at hpulling
            cases hpulling)
          fun n _ => hkeeps.grip n
        have hdoes : m.Does (some task) none (m.put w y) :=
          .put hx hkeeps.does (by rw [hlive, Workflow.live_of_stopping hstatus]) fun n _ => hkeeps.grip n
        have hgrip : ∀ n w', (m.put w y).grip n w' = m.grip n w' :=
          fun n _ => grip_put hx (hkeeps.grip n)
        have hhas : ∀ {P : Workflow → Prop}, (m.Has w fun x => x.terminal = false ∧ P x) →
            (∀ {x y : Workflow}, x.Aside y → P x → P y) →
            (m.put w y).Has w fun x => x.info.status = .stopping ∧ P x := by
          intro P hP hkeep
          obtain ⟨x', hx', -, hP⟩ := hP
          rw [hx] at hx'
          cases hx'
          exact ⟨y, put_workflows_self .., hstatus, hkeep haside hP⟩
        by_cases hbegun : x.cleanupStarted = true
        · rw [if_pos hbegun]
          exact ⟨hsound, hdoes, (by rintro _ ⟨⟩), hgrip, rfl, fun _ => Iff.rfl, hhas⟩
        · -- the first request starts the cleanup
          rw [if_neg hbegun] at hchild ⊢
          obtain ⟨hne, hidle⟩ := hchild rfl
          have htracked : ∀ n, n ≠ child → (n ∈ child :: m.tracked ↔ n ∈ m.tracked) := fun n hn =>
            ⟨List.mem_of_ne_of_mem hn, List.mem_cons_of_mem _⟩
          refine ⟨{ hsound with tracked := List.nodup_cons.mpr ⟨hidle.tracked, hsound.tracked⟩ },
            { hdoes with tracked := fun n _ hborn => htracked n fun heq => hborn (by rw [heq]; rfl) },
            ?_, hgrip, rfl, fun hn => ?_, hhas⟩
          · rintro _ ⟨⟩
            exact
              { held := .inl ⟨hidle.body, fun w' => (hgrip child w').trans (hidle.grip w')⟩
                tracked := ⟨fun _ => rfl, fun _ => List.mem_cons_self⟩
                fact := ⟨y, put_workflows_self .., hstarted⟩ }
          · obtain hn | hn := hn
            · exact htracked _ hn
            · cases hn

/-! ## A workflow begins -/

theorem Workflow.new_sound (id : Uuid) (request : CreateWorkflowRequest) (now : Instant)
    (task : Nat) : (Workflow.new id request now task).Sound where
  project := rfl
  guarded _ hn := absurd hn List.not_mem_nil
  leases := List.nodup_nil
  readers := List.nodup_nil
  transfers := rfl
  ended := rfl
  endedAt := rfl
  quiet _ := rfl
  completed := (by rintro ⟨⟩)
  failed := (by rintro ⟨⟩)
  stopping := (by rintro ⟨⟩)
  stopped := (by rintro ⟨⟩)
  target := .inl rfl
  invalid := (by rintro ⟨⟩)
  waiting _ := .inl rfl
  launches := Nat.zero_le _
  session := (by rintro ⟨⟩)
  ran := (by rintro (h | h) <;> cases h)
  launching _ := .inl rfl

theorem Workflow.new_grip (id : Uuid) (request : CreateWorkflowRequest) (now : Instant)
    {n : Nat} (hn : n ≠ task) : (Workflow.new id request now task).grip n = none := by
  refine Workflow.grip_none.mpr ⟨?_, List.not_mem_nil, List.not_mem_nil⟩
  show decide (task = n) = false
  simpa using hn.symm

theorem Step.Good.register {id : Uuid} {request : CreateWorkflowRequest} {now : Instant}
    (h : m.Sound) (hat : (Place.create id request).At task m) (hlookup : m.lookup id = none)
    (hempty : m.active = none) :
    Good task child m
      { shared := { m with active := some id, entries := (id, task) :: m.entries }.put task
          (.new id request now task)
        place := .createPath task } := by
  have hfresh : m.workflows task = none := hat.fact
  have hother : ∀ {w x}, m.workflows w = some x → w ≠ task := by
    rintro w x hx rfl
    rw [hfresh] at hx
    cases hx
  -- no workflow is live, for the slot is free
  have hended : ∀ {w x}, m.workflows w = some x → x.terminal = true := by
    intro w x hx
    by_contra hlive
    have := (h.slot hx (by simpa using hlive)).1
    rw [hempty] at this
    cases this
  have hnew : id ∉ m.entries.map (·.1) := by
    intro hmem
    obtain ⟨⟨id', w⟩, hentry, heq⟩ := List.mem_map.mp hmem
    have heq : id' = id := heq
    subst heq
    rw [h.lookup_eq.mpr hentry] at hlookup
    cases hlookup
  have hgrip : ∀ n w, w ≠ task → ({ m with active := some id, entries := (id, task) :: m.entries }.put
      task (.new id request now task)).grip n w = m.grip n w :=
    fun n w hw => WorkflowManager.grip_put_other hw
  have hself : ∀ n, m.grip n task = none := fun n => by
    rw [WorkflowManager.grip, hfresh]
    rfl
  have hput := WorkflowManager.put_workflows_self
    { m with active := some id, entries := (id, task) :: m.entries } task (.new id request now task)
  have hkept : ∀ {w}, w ≠ task → ({ m with active := some id, entries := (id, task) :: m.entries }.put
      task (.new id request now task)).workflows w = m.workflows w :=
    fun hw => WorkflowManager.put_workflows_other hw
  have hstore : ∀ {w x}, ({ m with active := some id, entries := (id, task) :: m.entries }.put
      task (.new id request now task)).workflows w = some x →
      (w = task ∧ x = .new id request now task) ∨ (w ≠ task ∧ m.workflows w = some x) := by
    intro w x hx
    by_cases hw : w = task
    · subst hw
      rw [hput] at hx
      exact .inl ⟨rfl, (Option.some.inj hx).symm⟩
    · rw [hkept hw] at hx
      exact .inr ⟨hw, hx⟩
  refine ⟨?_, ?_, ?_, (by rintro _ ⟨⟩)⟩
  · constructor
    case record =>
      intro w x hx
      obtain ⟨-, rfl⟩ | ⟨-, hx⟩ := hstore hx
      · exact Workflow.new_sound ..
      · exact h.record hx
    case creator =>
      intro w x hx hwaiting
      obtain ⟨rfl, rfl⟩ | ⟨-, hx⟩ := hstore hx
      · exact RwLock.isWriter_iff.mpr rfl
      · exact h.creator hx hwaiting
    case distinct => exact List.nodup_cons.mpr ⟨hnew, h.distinct⟩
    case entry =>
      intro id' w hmem
      obtain heq | hmem := List.mem_cons.mp hmem
      · cases heq
        exact ⟨_, hput, rfl⟩
      · obtain ⟨x, hx, hid⟩ := h.entry hmem
        exact ⟨x, (hkept (hother hx)).trans hx, hid⟩
    case slot =>
      intro w x hx hlive
      obtain ⟨rfl, rfl⟩ | ⟨-, hx⟩ := hstore hx
      · exact ⟨rfl, List.mem_cons_self⟩
      · exact absurd ((hended hx).symm.trans hlive) (by decide)
    case active =>
      intro id' hactive
      have heq : id = id' := Option.some.inj hactive
      subst heq
      exact ⟨task, _, List.mem_cons_self, hput, rfl⟩
    case pulling =>
      intro w x hx hstatus
      obtain ⟨-, rfl⟩ | ⟨-, hx⟩ := hstore hx
      · cases hstatus
      · exact h.pulling hx hstatus
    case tracked => exact h.tracked
    case carried =>
      intro n w hbody w'
      by_cases hw : w' = task
      · subst hw
        have hne : n ≠ w' := by
          rintro rfl
          obtain ⟨hnone, -⟩ | ⟨w'', heq, -⟩ := hat.held
          · exact absurd (hnone.symm.trans hbody) (by rintro ⟨⟩)
          · cases heq
        rw [WorkflowManager.grip_put_self, Workflow.new_grip id request now hne, ← hself n]
        exact h.carried hbody w'
      · rw [hgrip n w' hw]
        exact h.carried hbody w'
  · obtain ⟨hbody, hheld⟩ | ⟨w, heq, -⟩ := hat.held
    · exact
        { held := .inl ⟨hbody, fun w => by
            by_cases hw : w = task
            · subst hw
              show WorkflowManager.grip _ w w = heldOn (some (w, .writer)) w
              rw [WorkflowManager.grip_put_self, heldOn_self]
              exact Workflow.grip_writer.mpr (RwLock.isWriter_iff.mpr rfl)
            · show WorkflowManager.grip _ task w = heldOn (some (task, .writer)) w
              rw [hgrip task w hw, hheld, heldOn_other hw]
              rfl⟩
          tracked := hat.tracked
          fact := ⟨rfl, _, hput, rfl, rfl⟩ }
    · cases heq
  · constructor
    case workflow => exact fun hx => ⟨_, (hkept (hother hx)).trans hx, .refl⟩
    case fresh =>
      intro w hnone
      by_cases hw : w = task
      · exact .inr (congrArg some hw.symm)
      · exact .inl ((hkept hw).trans hnone)
    case grip =>
      refine fun n hn => .inl ⟨rfl, fun w => ?_⟩
      by_cases hw : w = task
      · subst hw
        rw [WorkflowManager.grip_put_self, hself n]
        exact Workflow.new_grip id request now fun heq => hn (congrArg some heq.symm)
      · exact hgrip n w hw
    case tracked => exact fun _ _ _ => Iff.rfl
    case projects => exact fun _ _ _ _ => rfl
    case entries =>
      intro id' w hmem
      obtain heq | hmem := List.mem_cons.mp hmem
      · cases heq
        exact .inr rfl
      · exact .inl hmem
    case pruned => exact fun hmem hgone => absurd (List.mem_cons_of_mem _ hmem) hgone
    case stopping => exact fun hset => hset
    case ended => exact fun hx _ hlive => absurd ((hended hx).symm.trans hlive) (by decide)

/-! ## A workflow ends -/

/-- `terminal` of a live workflow ends it, or finds it stopping or invalidated. -/
theorem WorkflowManager.terminal_cases (h : m.Sound) (hx : m.workflows w = some x)
    (hlive : x.terminal = false) (status : WorkflowStatus) (error : Option AppError)
    (requiresFullUpload : Bool) :
    m.terminal w x status error requiresFullUpload = (m, false) ∧
        (status = .completed ∧ x.info.status ≠ .pulling ∨
          x.invalidateProject = true ∧ requiresFullUpload = false) ∨
      (status = .completed → x.info.status = .pulling) ∧
      (x.invalidateProject = true → requiresFullUpload = true) ∧
      ∃ sessions, m.terminal w x status error requiresFullUpload =
        ({ m with sessions, active := none }.put w
          (x.finished status error requiresFullUpload m.now), true) := by
  have hactive := (h.slot hx hlive).1
  unfold terminal
  rw [if_neg (by rw [hlive]; decide)]
  split
  · rename_i hguard
    exact .inl ⟨rfl, .inl hguard⟩
  · rename_i hguard
    split
    · rename_i hinvalid
      simp only [Bool.and_eq_true, Bool.not_eq_true'] at hinvalid
      exact .inl ⟨rfl, .inr hinvalid⟩
    · rename_i hinvalid
      refine .inr ⟨fun heq => ?_, fun hset => ?_,
        x.info.sessionId.elim m.sessions (m.sessions.release · m.now), ?_⟩
      · by_contra hne
        exact hguard ⟨heq, hne⟩
      · cases hfull : requiresFullUpload with
        | true => rfl
        | false =>
            rw [hset, hfull] at hinvalid
            exact absurd rfl hinvalid
      · rfl

theorem Step.Good.finished {sessions : SessionManager} {status : WorkflowStatus}
    {error : Option AppError} {requiresFullUpload : Bool} {now : Instant} (h : m.Sound)
    (hat : p.At task m) (hx : m.workflows w = some x) (hwriter : x.activity.isWriter task = true)
    (hlive : x.terminal = false) (hdone : x.initializing = false)
    (hend : x.Ending error requiresFullUpload status)
    (hinvalid : x.invalidateProject = true → requiresFullUpload = true)
    (hclean : requiresFullUpload = false → m.projects x.info.project = .clean)
    (hholds : q.holds = p.holds) (htracked : q.tracked = p.tracked) (hbody : p.isBody = false)
    (hfact : (x.finished status error requiresFullUpload now).Ready → q.Fact task
      ({ m with sessions, active := none }.put w
        (x.finished status error requiresFullUpload now))) :
    Good task child m
      { shared := { m with sessions, active := none }.put w
          (x.finished status error requiresFullUpload now)
        place := q } := by
  have hkeeps : x.Keeps (some task) (x.finished status error requiresFullUpload now) :=
    (h.record hx).finished hwriter hlive hdone hend hinvalid
  have hterminal : (x.finished status error requiresFullUpload now).terminal = true := by
    cases hend <;> rfl
  have hready : (x.finished status error requiresFullUpload now).Ready := by
    refine ⟨hdone, fun hpreparing => ?_⟩
    rw [Workflow.terminal, hpreparing] at hterminal
    cases hterminal
  have hfact := hfact hready
  have hended : ((x.finished status error requiresFullUpload now).info.requiresFullUpload = false →
      m.projects (x.finished status error requiresFullUpload now).info.project = .clean) ∧
      ((x.finished status error requiresFullUpload now).info.status = .completed →
        x.info.status = .pulling) := by
    refine ⟨hclean, fun heq => ?_⟩
    have hstatus : status = .completed := heq
    subst hstatus
    obtain ⟨hpulling, -⟩ | _ | _ | _ := hend
    exact hpulling
  generalize x.finished status error requiresFullUpload now = y at hkeeps hterminal hfact hended ⊢
  have hdoes : { m with sessions, active := none }.Does (some task) none
      ({ m with sessions, active := none }.put w y) :=
    .putBodies hx hkeeps.does (fun _ _ => ⟨hended.1, hended.2, rfl⟩) fun n _ =>
      .inl ⟨rfl, fun _ => WorkflowManager.grip_put hx (hkeeps.grip n)⟩
  have hgrip : ∀ n w', (m.put w y).grip n w' = m.grip n w' :=
    fun n _ => WorkflowManager.grip_put hx (hkeeps.grip n)
  have hstore : ∀ {w' x'}, (m.put w y).workflows w' = some x' →
      (w' = w ∧ x' = y) ∨ (w' ≠ w ∧ m.workflows w' = some x') := by
    intro w' x' hx'
    by_cases hw : w' = w
    · subst hw
      rw [WorkflowManager.put_workflows_self] at hx'
      exact .inl ⟨rfl, (Option.some.inj hx').symm⟩
    · rw [WorkflowManager.put_workflows_other hw] at hx'
      exact .inr ⟨hw, hx'⟩
  refine ⟨?_, ?_, { hdoes with }, (by rintro _ ⟨⟩)⟩
  · constructor
    case record =>
      intro w' x' hx'
      obtain ⟨-, rfl⟩ | ⟨-, hx'⟩ := hstore hx'
      · exact hkeeps.sound
      · exact h.record hx'
    case creator =>
      intro w' x' hx' hwaiting
      obtain ⟨rfl, rfl⟩ | ⟨-, hx'⟩ := hstore hx'
      · exact absurd ((hkeeps.does.initialized hdone).1.symm.trans hwaiting) (by decide)
      · exact h.creator hx' hwaiting
    case distinct => exact h.distinct
    case entry =>
      intro id w' hmem
      obtain ⟨x', hx', hid⟩ := h.entry hmem
      obtain ⟨y', hy', hxy⟩ := hdoes.workflow hx'
      exact ⟨y', hy', hxy.workflowId.trans hid⟩
    case slot =>
      intro w' x' hx' hlive'
      obtain ⟨-, rfl⟩ | ⟨hw, hx'⟩ := hstore hx'
      · exact absurd (hterminal.symm.trans hlive') (by decide)
      · exact absurd (h.live_unique hx hx' hlive hlive').symm hw
    case active => rintro id ⟨⟩
    case pulling =>
      intro w' x' hx' hstatus
      obtain ⟨-, rfl⟩ | ⟨-, hx'⟩ := hstore hx'
      · rw [Workflow.terminal, hstatus] at hterminal
        cases hterminal
      · exact h.pulling hx' hstatus
    case tracked => exact h.tracked
    case carried => exact fun hcarries w' => (hgrip _ w').trans (h.carried hcarries w')
  · exact hat.move (hgrip task) rfl Iff.rfl hholds htracked hbody hfact

end Updates

end VivadoServer.Workflows
