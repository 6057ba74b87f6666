/-
  VivadoServer.Sync.Store

  What holds of the store of plans in every state that any schedule of calls
  reaches: who has the one permit, how a plan moves, what the degradation counter
  counts, what pruning takes, and what is left on disk.

  That a permit in the hands of a call belongs to a `create_plan` in progress is
  an invariant of the tasks rather than of the shared state; it is a second
  outline (`owners`) over the same bound.
-/

import VivadoServer.Sync.Steps

namespace VivadoServer.Sync

open VivadoServer.History (Uuid)
open StepSystem

/-! ## Who created what -/

/-- The plan an answer names. -/
def Answer.created : Answered → Option Uuid
  | .ok (.plan response) => some response.syncId
  | _ => none

/-- The plan a call answers with. -/
def Place.created : Place → Option Uuid
  | .leave answer | .done answer => Answer.created answer
  | _ => none

/-- What the shared state says of a call agrees with its place. -/
structure Place.Owns (task : Nat) (m : SyncManager) (p : Place) : Prop where
  slot : m.slot = .creating task → p.permit = true
  creator : ∀ {id x}, m.store id = some x → x.creator = task → p.created = some id

section Owners

variable {m : SyncManager} {task : Nat} {p : Place} {c : Choice}
  {o : Tasks.Outcome SyncManager Place}

theorem Place.Owns.of_idle (h : m.Idle task) : p.Owns task m where
  slot hslot := absurd hslot h.slot
  creator hx hcreator := absurd hcreator (h.creator hx)

theorem SyncManager.enter_eq {m' : SyncManager} (h : SyncManager.enter task m p = some m') :
    ∃ tracked, m' = { m with tracked := tracked } := by
  simp only [SyncManager.enter] at h
  split at h
  · split at h
    · cases h
    · cases h
      exact ⟨_, rfl⟩
  · cases h
    exact ⟨_, rfl⟩
  · cases h

/-- A call that holds the permit keeps it, or gives it away. -/
theorem planStep_permit (hpermit : p.permit = true) (hstep : m.planStep task p c = some o) :
    o.place.permit = true ∨ ∀ n, o.shared.slot ≠ .creating n := by
  unfold SyncManager.planStep at hstep
  split at hstep
  -- the call has no permit yet, or none any more
  case h_1 | h_2 | h_8 => cases hpermit
  case h_3 =>
    split at hstep
    · split at hstep
      · cases goTo_eq hstep
        exact .inl rfl
      · cases hstep
    · cases goTo_eq hstep
      exact .inr (by rintro _ ⟨⟩)
  case h_4 =>
    split at hstep
    · split at hstep
      · cases goTo_eq hstep
        exact .inl rfl
      · cases goTo_eq hstep
        exact .inr (by rintro _ ⟨⟩)
    · cases hstep
  case h_5 =>
    split at hstep
    · cases goTo_eq hstep
      exact .inl rfl
    · cases goTo_eq hstep
      exact .inl rfl
  case h_6 | h_7 =>
    cases goTo_eq hstep
    exact .inr (by rintro _ ⟨⟩)
  case h_9 => cases hstep

/-- The plan that appears is the one the call answers with. -/
theorem planStep_created {id : Uuid} {x : SyncSession} (hpermit : p.permit = true)
    (hstep : m.planStep task p c = some o) (hnone : m.store id = none)
    (hx : o.shared.store id = some x) : o.place.created = some id := by
  have hsame : o.shared.store = m.store → o.place.created = some id := by
    intro hsame
    rw [hsame, hnone] at hx
    cases hx
  unfold SyncManager.planStep at hstep
  split at hstep
  case h_1 | h_2 | h_8 => cases hpermit
  case h_3 =>
    split at hstep
    · split at hstep
      · cases goTo_eq hstep
        exact hsame rfl
      · cases hstep
    · cases goTo_eq hstep
      exact hsame rfl
  case h_4 =>
    split at hstep
    · split at hstep <;> cases goTo_eq hstep <;> exact hsame rfl
    · cases hstep
  case h_5 => split at hstep <;> cases goTo_eq hstep <;> exact hsame rfl
  case h_6 =>
    cases goTo_eq hstep
    exact hsame rfl
  case h_7 id' _ =>
    cases goTo_eq hstep
    by_cases hid : id = id'
    · exact congrArg some hid.symm
    · rw [SyncManager.put_store_other hid] at hx
      exact absurd (hnone.symm.trans hx) (by rintro ⟨⟩)
  case h_9 => cases hstep

theorem exec_owns (h : m.Sound) (hat : p.At task m) (howns : p.Owns task m)
    (hstep : m.exec task c p = some o) : o.place.Owns task o.shared := by
  have hgood := exec_good h hat hstep
  have hplan : p.permit = true → m.planStep task p c = some o := by
    intro hpermit
    cases p with
    | planWork | planStaging | planCheck | planReject | planInsert => exact hstep
    | _ => cases hpermit
  have hleave : ∀ id, p.created = some id → o.place.created = some id := by
    intro id hcreated
    cases p with
    | leave answer =>
        obtain rfl : o = ⟨_, .done answer, none⟩ := by
          cases c with
          | go => exact goTo_eq hstep
          | _ => cases hstep
        exact hcreated
    | done => cases hstep
    | _ => cases hcreated
  constructor
  case slot =>
    intro hslot
    obtain hsame | hnever | hpermit := hgood.slot
    · have hp := howns.slot (hsame ▸ hslot)
      obtain hkept | hnever := planStep_permit hp (hplan hp)
      · exact hkept
      · exact absurd hslot (hnever task)
    · exact absurd hslot (hnever task)
    · exact hpermit
  case creator =>
    intro id y hy hcreator
    obtain ⟨x, hx, hsame⟩ | ⟨hnone, -, hslot⟩ := hgood.does.created hy
    · exact hleave id (howns.creator hx (hsame ▸ hcreator))
    · rw [hcreator] at hslot
      have hp := howns.slot hslot
      exact planStep_created hp (hplan hp) hnone hy

theorem Place.Owns.mono {mover : Option Nat} {s t : SyncManager} (h : p.Owns task s)
    (hdoes : s.Does mover t) (hne : mover ≠ some task) : p.Owns task t where
  slot hslot := h.slot ((hdoes.slot task hne).mpr hslot)
  creator hy hcreator := by
    obtain ⟨x, hx, hsame⟩ | ⟨-, hmover, -⟩ := hdoes.created hy
    · exact h.creator hx (hsame ▸ hcreator)
    · rw [hcreator] at hmover
      exact absurd hmover hne

end Owners

/-- The outline with the ownership of permits and plans. -/
def owners : Tasks.Outline program where
  Inv := SyncManager.Sound
  At task m p := p.At task m ∧ p.Owns task m
  Idle := SyncManager.Idle
  Does mover _ := SyncManager.Does mover
  enter h hidle henter := by
    obtain ⟨hsound, hat, hdoes⟩ := outline.enter h hidle henter
    obtain ⟨tracked, rfl⟩ := SyncManager.enter_eq henter
    exact ⟨hsound, ⟨hat, .of_idle ⟨hidle.slot, hidle.creator⟩⟩, hdoes⟩
  exec h hat hexec hborn := by
    obtain ⟨hsound, hat', hdoes, -⟩ := outline.exec h hat.1 hexec hborn
    have hgood := exec_good h hat.1 hexec
    refine ⟨hsound, ⟨hat', exec_owns h hat.1 hat.2 hexec⟩, hdoes, fun q hq => ?_⟩
    rw [hgood.child] at hq
    cases hq
  env h henv := outline.env h henv
  stable _ _ hdoes hne _ hat := ⟨hat.1.mono hdoes hne, hat.2.mono hdoes hne⟩
  idle hdoes hne _ hidle := hidle.mono hdoes hne

theorem owners_of_run {config : Config} {staging : Uuid → Option Staging}
    {ok : Action → Sys → Prop} {s : Sys}
    (hrun : Run program.step ok (Sys.start config staging) s) : owners.Holds s :=
  owners.run_holds hrun (owners.start_holds (start_sound config staging) fun _ => ⟨(by rintro ⟨⟩), (by rintro _ _ ⟨⟩)⟩)

/-! ## The invariants of the store -/

/-- The one permit is free, or is held by the one plan that is not settled, or by
    the one `create_plan` that is about to store a plan. -/
structure SlotExact (s : Sys) : Prop where
  session : ∀ id, s.shared.slot = .session id ↔ s.shared.Has id (·.state.live = true)
  creating : ∀ n, s.shared.slot = .creating n ↔ ∃ p, s.tasks n = some p ∧ p.permit = true
  held : ∀ id x, s.shared.store id = some x →
    (x.activePermit = true ↔ s.shared.slot = .session id)

/-- At most one plan is Open or Committing. -/
def AtMostOneLive (s : Sys) : Prop :=
  ∀ id id', s.shared.Has id (·.state.live = true) → s.shared.Has id' (·.state.live = true) →
    id = id'

/-- A plan moves along the diagram, and nothing of a settled plan's outcome changes. -/
def SettlesOnce (s t : SyncManager) : Prop :=
  ∀ id x, s.store id = some x → ∃ y, t.store id = some y ∧
    Relation.ReflTransGen SyncSessionStatus.Moves x.state y.state ∧
    (x.state.live = false → y.state = x.state ∧ y.result = x.result ∧ y.error = x.error)

/-- The counter is exact, and a recovery never takes it below zero. -/
def CounterExact (s : Sys) : Prop :=
  s.shared.cleanupDegraded = s.shared.sessions.countP s.shared.failing ∧
    ∀ n id after, s.tasks n = some (.cleanupRecord id (.ok ()) after) →
      s.shared.failing id = true → 0 < s.shared.cleanupDegraded

/-- Only settled plans without pending removal leave the registry. -/
def PrunesSettled (s t : SyncManager) : Prop :=
  ∀ id, id ∈ s.sessions → id ∉ t.sessions →
    s.Has id fun x => x.state.live = false ∧ x.cleanupPending = false

/-- Nothing is left on disk of a plan whose removal is not pending. -/
def NothingLeft (s : Sys) : Prop :=
  ∀ id x, s.shared.store id = some x → x.state.live = false → x.cleanupPending = false →
    s.shared.staging id = none

section Invariants

variable {s t : Sys}

theorem slotExact (h : owners.Holds s) : SlotExact s where
  session id := by
    constructor
    · intro hslot
      obtain ⟨x, hx⟩ := Option.ne_none_iff_exists'.mp (h.inv.permitKnown hslot)
      exact ⟨x, hx, (h.inv.permit hx).mpr hslot⟩
    · rintro ⟨x, hx, hlive⟩
      exact (h.inv.permit hx).mp hlive
  creating n := by
    constructor
    · intro hslot
      cases hplace : s.tasks n with
      | none => exact absurd hslot (h.idle hplace).slot
      | some p => exact ⟨p, rfl, (h.places hplace).2.slot hslot⟩
    · rintro ⟨p, hplace, hpermit⟩
      exact (h.places hplace).1.permit hpermit
  held id x hx := by
    rw [(h.inv.session hx).permit]
    exact h.inv.permit hx

theorem atMostOneLive (h : owners.Holds s) : AtMostOneLive s := by
  rintro id id' ⟨x, hx, hlive⟩ ⟨x', hx', hlive'⟩
  have hslot := (h.inv.permit hx).mp hlive
  rw [(h.inv.permit hx').mp hlive'] at hslot
  exact (Permit.session.inj hslot).symm

theorem counterExact (h : owners.Holds s) : CounterExact s := by
  refine ⟨h.inv.degraded, fun n id after hplace hfailing => ?_⟩
  obtain ⟨-, ⟨x, hx, -, hpending⟩, -⟩ := (h.places hplace).1.fact
  have hmember : id ∈ s.shared.sessions := by
    refine h.inv.registered hx fun hclean => ?_
    rw [hclean.2] at hpending
    cases hpending
  rw [h.inv.degraded]
  exact List.countP_pos_iff.mpr ⟨id, hmember, hfailing⟩

theorem SettlesOnce.refl (m : SyncManager) : SettlesOnce m m :=
  fun _ x hx => ⟨x, hx, .refl, fun _ => ⟨rfl, rfl, rfl⟩⟩

theorem SettlesOnce.trans {a b c : SyncManager} (h₁ : SettlesOnce a b) (h₂ : SettlesOnce b c) :
    SettlesOnce a c := by
  intro id x hx
  obtain ⟨y, hy, hmoves, hsettled⟩ := h₁ id x hx
  obtain ⟨z, hz, hmoves', hsettled'⟩ := h₂ id y hy
  refine ⟨z, hz, hmoves.trans hmoves', fun hlive => ?_⟩
  obtain ⟨hstate, hresult, herror⟩ := hsettled hlive
  obtain ⟨hstate', hresult', herror'⟩ := hsettled' (hstate ▸ hlive)
  exact ⟨hstate'.trans hstate, hresult'.trans hresult, herror'.trans herror⟩

theorem settlesOnce_of_does {mover : Option Nat} {a b : SyncManager} (h : a.Does mover b) :
    SettlesOnce a b := by
  intro id x hx
  obtain ⟨y, hy, hxy⟩ := h.session hx
  refine ⟨y, hy, ?_, fun hlive => ?_⟩
  · obtain hsame | ⟨hmoves, -⟩ := hxy.state
    · rw [hsame]
    · exact .single hmoves
  · obtain ⟨hstate, hresult, herror, -⟩ := hxy.settled hlive
    exact ⟨hstate, hresult, herror⟩

theorem prunesSettled_of_does {mover : Option Nat} {a b : SyncManager} (hsound : a.Sound)
    (h : a.Does mover b) : PrunesSettled a b := by
  intro id hmember hgone
  obtain ⟨x, hx⟩ := Option.ne_none_iff_exists'.mp (hsound.known hmember)
  exact ⟨x, hx, h.pruned hx hmember hgone⟩

end Invariants

/-- The invariants of the store: in every state of every schedule the permit, the
    counter and the disk are as they should be; every step moves each plan along
    the diagram at most once and prunes only what is settled; and whatever follows,
    a settled plan keeps its outcome. -/
theorem store_invariants {config : Config} {staging : Uuid → Option Staging} {s : Sys}
    (hrun : Run program.step (fun _ _ => True) (Sys.start config staging) s) :
    (AtMostOneLive s ∧ SlotExact s) ∧
    ((∀ a t, program.step a s = some t → ∀ id x, s.shared.store id = some x →
        ∃ y, t.shared.store id = some y ∧ (y.state = x.state ∨ x.state.Moves y.state)) ∧
      ∀ t, Run program.step (fun _ _ => True) s t → SettlesOnce s.shared t.shared) ∧
    CounterExact s ∧
    (∀ a t, program.step a s = some t → PrunesSettled s.shared t.shared) ∧
    NothingLeft s := by
  have h := owners_of_run hrun
  refine ⟨⟨atMostOneLive h, slotExact h⟩, ⟨fun a t hstep id x hx => ?_, fun t hrun' => ?_⟩,
    counterExact h, fun a t hstep => ?_, fun id x hx hlive hpending => h.inv.removed hx ⟨hlive, hpending⟩⟩
  · obtain ⟨mover, born, hdoes⟩ := owners.step_does h hstep
    obtain ⟨y, hy, hxy⟩ := hdoes.session hx
    exact ⟨y, hy, hxy.state.imp_right And.left⟩
  · exact owners.run_related SettlesOnce.refl (fun _ _ _ => SettlesOnce.trans)
      (fun _ _ _ _ _ => settlesOnce_of_does) hrun' h
  · obtain ⟨mover, born, hdoes⟩ := owners.step_does h hstep
    exact prunesSettled_of_does h.inv hdoes

/-! ## A plan whose removal fails once -/

/-- The steps of one call, with what it is answered. -/
def calls (task : Nat) (place : Place) (choices : List Choice) : List Action :=
  .enter task place :: choices.map fun choice => .exec task choice task

/-- Create a plan without uploads. -/
def createPlan (task id : Nat) : List Action :=
  calls task (.plan "p" false)
    [.go, .go, .go, .go, .go,
     .planned (.ok ⟨false, [], ["d"], [], [], []⟩), .staged id (.ok ()) false, .io (.ok ()), .go, .go]

/-- Commit it; the application answers `outcome`, the removal of its files `removed`. -/
def commitPlan (task id : Nat) (outcome : Application) (removed : Except AppError Unit) :
    List Action :=
  calls task (.lookup "p" id .commit)
    [.go, .go, .go, .go, .go, .applied outcome, .go, .go, .go, .removed removed (some []), .go]

/-- The whole run of a plan whose commit fails and whose files cannot be removed. -/
def failingRemoval : List Action :=
  createPlan 0 7 ++ commitPlan 1 7 (.error (.internal "disk")) (.error (.internal "busy"))

theorem store_invariants_failing_removal :
    ∃ s, Run program.step (fun _ _ => True) (Sys.start ⟨1000, 1000⟩ fun _ => none) s ∧
      s.shared.cleanupDegraded = 1 ∧ AtMostOneLive s ∧ CounterExact s ∧ NothingLeft s := by
  have hexec : (exec program.step failingRemoval (Sys.start ⟨1000, 1000⟩ fun _ => none)).any
      (fun s => s.shared.cleanupDegraded == 1) = true := by decide +kernel
  obtain ⟨s, hs, hcheck⟩ := exists_of_exec hexec
  have hrun := Run.of_exec hs
  obtain ⟨⟨hone, -⟩, -, hcounter, -, hleft⟩ := store_invariants hrun
  exact ⟨s, hrun, by simpa using hcheck, hone, hcounter, hleft⟩

end VivadoServer.Sync
