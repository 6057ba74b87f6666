/-
  VivadoServer.Sync.Steps

  Every step of a call establishes what the outline asks of it: the invariant of
  the manager, the assertion of the place it reaches, and the bound on what it
  does to the others.  The updates that change more than a lock come first, one
  lemma each; the steps of each operation follow.
-/

import VivadoServer.Sync.Outline

namespace VivadoServer.Sync

open VivadoServer.History (Uuid)
open VivadoServer.Sessions (Instant)

/-- The call is inside `apply_commit` of the plan. -/
def Place.applying (id : Uuid) : Place → Bool
  | .commitApply id' _ => id = id'
  | _ => false

/-- What a step owes to the outline. -/
structure Step.Good (task : Nat) (m : SyncManager) (p : Place)
    (o : Tasks.Outcome SyncManager Place) : Prop where
  sound : o.shared.Sound
  place : o.place.At task o.shared
  does : m.Does (some task) o.shared
  child : o.child = none
  /-- Only `create_plan` takes the permit. -/
  slot : o.shared.slot = m.slot ∨ (∀ n, o.shared.slot ≠ .creating n) ∨ o.place.permit = true
  /-- Only `apply_commit` touches the files of a plan that is being applied. -/
  staging : ∀ {id x}, m.store id = some x → x.state = .committing → p.applying id = false →
    o.shared.staging id = m.staging id

section Updates

variable {m : SyncManager} {task : Nat} {id : Uuid} {x y : SyncSession}

/-! ## A plan is settled -/

/-- A settled plan, with its files still to be removed. -/
abbrev SyncSession.settled (y : SyncSession) (now : Instant) : SyncSession :=
  { y.releasePlan with finishedAt := some now, cleanupPending := true }

theorem SyncSession.settled_sound {now : Instant} (hy : y.state.live = false)
    (hrecorded : y.Recorded) : (y.settled now).Sound where
  permit := hy.symm
  running h := absurd (hy.symm.trans h) (by rintro ⟨⟩)
  finished _ := rfl
  failures _ := rfl
  recorded := by
    have hsettled : ∀ state missing missing', state = y.state →
        Record state y.applications y.result y.error y.outcome missing →
        Record state y.applications y.result y.error y.outcome missing' := by
      intro state missing missing' hstate h
      cases state with
      | «open» | committing => rw [← hstate] at hy; cases hy
      | _ => exact h
    exact hsettled y.state _ _ rfl hrecorded
  uncommitted h := by
    have hopen : y.state = .open := h
    rw [hopen] at hy
    cases hy

theorem SyncManager.Sound.settle (h : m.Sound) (hx : m.store id = some x)
    (hlive : x.state.live = true) (hy : y.state.live = false)
    (hfailures : y.cleanupFailures = x.cleanupFailures) (hrecorded : y.Recorded) :
    (m.settle id y).Sound := by
  have hslot : m.slot = .session id := (h.permit hx).mp hlive
  have hnotlive : (y.settled m.now).state.live ≠ true := by
    intro hlive'
    exact absurd (hy.symm.trans hlive') (by rintro ⟨⟩)
  refine h.update (y := y.settled m.now) hx (SyncSession.settled_sound hy hrecorded) .available
    m.cleanupDegraded (fun _ hclean => ?_) ?_ ⟨fun hlive' => absurd hlive' hnotlive, (by rintro ⟨⟩)⟩
    (fun id' hid => ⟨fun hslot' => ?_, (by rintro ⟨⟩)⟩) (fun hclean => ?_)
  · exact absurd (hlive.symm.trans hclean.1) (by rintro ⟨⟩)
  · show _ + _ = _ + if 0 < y.cleanupFailures then 1 else 0
    rw [hfailures]
  · rw [hslot] at hslot'
    cases hslot'
    exact absurd rfl hid
  · cases hclean.2

/-- Settling a plan is a move along the diagram. -/
theorem SyncManager.Does.settle (h : m.Sound) (hx : m.store id = some x)
    (hlive : x.state.live = true) (hy : y.state.live = false)
    (hsame : y.project = x.project ∧ y.creator = x.creator ∧
      y.expiresDeadline = x.expiresDeadline ∧ y.activity = x.activity ∧ y.cleanup = x.cleanup ∧
      y.committer = x.committer ∧ y.applications = x.applications)
    (hmoves : x.state.Moves y.state)
    (hopen : x.state = .open → x.activity.isWriter task = true)
    (hcommitting : x.state = .committing → x.committer = some task) :
    m.Does (some task) (m.settle id y) := by
  obtain ⟨hproject, hcreator, hdeadline, hactivity, hcleanup, hcommitter, happlications⟩ := hsame
  have hslot : m.slot = .session id := (h.permit hx).mp hlive
  have hrunning := ((h.session hx).running hlive).1
  have hdoes : x.Does (some task) m.now (y.settled m.now) :=
    { project := hproject
      creator := hcreator
      deadline := hdeadline
      writer := fun n _ hn => by
        show y.activity.isWriter n = true
        rwa [hactivity]
      reader := fun n _ hn => by
        show n ∈ y.activity.readers
        rwa [hactivity]
      cleaner := fun n _ hn => hcleanup.trans hn
      state := .inr ⟨hmoves, fun h => ⟨task, rfl, hopen h⟩,
        fun h => ⟨by rw [hcommitting h]; rfl, (hcommitting h).symm⟩,
        fun h => absurd (hy.symm.trans (congrArg SyncSessionStatus.live h)) (by rintro ⟨⟩)⟩
      committer := fun _ => hcommitter
      applications := .inl happlications
      plan := fun h => absurd (hy.symm.trans h) (by rintro ⟨⟩)
      uploaded := fun _ h => absurd (hy.symm.trans (congrArg SyncSessionStatus.live h)) (by rintro ⟨⟩)
      settled := fun h => absurd (hlive.symm.trans h) (by rintro ⟨⟩)
      pending := fun h => absurd (hlive.symm.trans h) (by rintro ⟨⟩)
      cleaned := fun h => absurd (hrunning.symm.trans h) (by rintro ⟨⟩) }
  exact { SyncManager.Does.put hx hdoes with
    slot := fun n _ => ⟨fun hcreating => absurd (hslot.symm.trans hcreating) (by rintro ⟨⟩), (by rintro ⟨⟩)⟩
    available := fun _ => .inl rfl }

/-! ## A removal is recorded -/

theorem SyncManager.Sound.recordCleanup (h : m.Sound) (hx : m.store id = some x)
    {result : Except AppError Unit} (hlive : x.state.live = false)
    (hpending : x.cleanupPending = true) (hgone : result = .ok () → m.staging id = none) :
    (m.recordCleanup id x result).Sound := by
  have hxs := h.session hx
  have hnotclean : ¬ x.clean := fun hclean => absurd (hpending.symm.trans hclean.2) (by rintro ⟨⟩)
  have hnotlive : ∀ {P : Prop}, x.state.live = true → P :=
    fun hlive' => absurd (hlive.symm.trans hlive') (by rintro ⟨⟩)
  have hcounted : m.sessions.countP m.failing = m.cleanupDegraded := h.degraded.symm
  have hmember : id ∈ m.sessions := h.registered hx hnotclean
  have hpositive : 0 < x.cleanupFailures → 0 < m.cleanupDegraded := by
    intro hpos
    rw [h.degraded]
    exact List.countP_pos_iff.mpr ⟨id, hmember, by simp [failing, hx, hpos]⟩
  have hpermit : x.state.live = true ↔ m.slot = .session id := h.permit hx
  cases result with
  | ok =>
      have hrecord : ∀ y : SyncSession, y.cleanupFailures = 0 → y.state = x.state →
          y.Sound → ∀ n, n + (if 0 < x.cleanupFailures then 1 else 0) = m.cleanupDegraded →
          ({ m with cleanupDegraded := n }.put id y).Sound := by
        intro y hzero hstate hy n hn
        refine h.update hx hy m.slot n (fun _ => hnotclean) ?_ (by rw [hstate]; exact hpermit)
          (fun _ _ => Iff.rfl) (fun _ => hgone rfl)
        rw [hn, hzero]
        rfl
      simp only [SyncManager.recordCleanup]
      split
      · rename_i hpos
        apply hrecord
        · rfl
        · rfl
        · exact ⟨hxs.permit, fun h => hnotlive h, hxs.finished, (by rintro ⟨⟩), hxs.recorded, hxs.uncommitted⟩
        · have := hpositive hpos
          rw [if_pos hpos]
          omega
      · rename_i hzero
        have hzero' : x.cleanupFailures = 0 := by omega
        exact hrecord { x with cleanupPending := false } hzero' rfl
          ⟨hxs.permit, fun h => hnotlive h, hxs.finished, fun h => absurd h hzero, hxs.recorded,
            hxs.uncommitted⟩
          m.cleanupDegraded (by rw [if_neg hzero]; rfl)
  | error error =>
      have hy : ({ x with cleanupFailures := x.cleanupFailures + 1 } : SyncSession).Sound :=
        ⟨hxs.permit, hxs.running, hxs.finished, fun _ => hpending, hxs.recorded, hxs.uncommitted⟩
      have hrecord : ∀ n, n + (if 0 < x.cleanupFailures then 1 else 0) = m.cleanupDegraded + 1 →
          ({ m with cleanupDegraded := n }.put id
            { x with cleanupFailures := x.cleanupFailures + 1 }).Sound := by
        intro n hn
        refine h.update hx hy m.slot n (fun _ => hnotclean) ?_ hpermit (fun _ _ => Iff.rfl)
          (fun hclean => absurd (hpending.symm.trans hclean.2) (by rintro ⟨⟩))
        rw [hn, if_pos (Nat.succ_pos _)]
      simp only [SyncManager.recordCleanup]
      split
      · rename_i hzero
        apply hrecord
        rw [if_neg (by omega)]
      · rename_i hpos
        apply hrecord
        rw [if_pos (by omega)]

theorem SyncManager.Does.recordCleanup (hx : m.store id = some x)
    {result : Except AppError Unit} (hcleaner : x.cleanup = some task) :
    m.Does (some task) (m.recordCleanup id x result) := by
  have hdoes : ∀ pending failures, (x.cleanupPending = false → pending = false) →
      x.Does (some task) m.now { x with cleanupPending := pending, cleanupFailures := failures } :=
    fun pending failures hfalse =>
      { (SyncSession.Does.refl : x.Does (some task) m.now x) with
        pending := fun _ h => hfalse h
        cleaned := fun _ => .inr hcleaner.symm }
  cases result with
  | ok =>
      simp only [SyncManager.recordCleanup]
      split
      · exact { SyncManager.Does.put hx (hdoes false 0 fun _ => rfl) with }
      · exact SyncManager.Does.put hx (hdoes false x.cleanupFailures fun _ => rfl)
  | error error =>
      simp only [SyncManager.recordCleanup]
      split
      · exact { SyncManager.Does.put hx (hdoes x.cleanupPending _ fun h => h) with }
      · exact SyncManager.Does.put hx (hdoes x.cleanupPending _ fun h => h)

/-! ## A plan is created -/

theorem SyncManager.Sound.insert (h : m.Sound) (hfree : m.store id = none)
    (hslot : m.slot = .creating task) {creating : Option Nat} (hx : x.Sound)
    (hlive : x.state.live = true) :
    ({ m with sessions := id :: m.sessions, slot := .session id, creating := creating }.put id
      x).Sound := by
  have hnotmember : id ∉ m.sessions := fun hmember => h.known hmember hfree
  have hnotclean : ¬ x.clean := fun hclean => absurd (hlive.symm.trans hclean.1) (by rintro ⟨⟩)
  have hstore : ∀ {id' x'}, Function.update m.store id (some x) id' = some x' →
      (id' = id ∧ x' = x) ∨ (id' ≠ id ∧ m.store id' = some x') := by
    intro id' x' h'
    by_cases hid : id' = id
    · subst hid
      rw [Function.update_self] at h'
      exact .inl ⟨rfl, (Option.some.inj h').symm⟩
    · rw [Function.update_of_ne hid] at h'
      exact .inr ⟨hid, h'⟩
  have hself : Function.update m.store id (some x) id ≠ none := by
    rw [Function.update_self]
    rintro ⟨⟩
  have hfailing : ∀ id' ∈ m.sessions,
      (Function.update m.store id (some x) id').any (fun x => decide (0 < x.cleanupFailures)) =
        m.failing id' := by
    intro id' hmember
    have hne : id' ≠ id := fun heq => hnotmember (heq ▸ hmember)
    rw [Function.update_of_ne hne]
    rfl
  constructor
  case session =>
    intro id' x' h'
    obtain ⟨-, rfl⟩ | ⟨-, h'⟩ := hstore h'
    · exact hx
    · exact h.session h'
  case known =>
    intro id' hmember
    show Function.update m.store id (some x) id' ≠ none
    by_cases hid : id' = id
    · rw [hid]
      exact hself
    · rw [Function.update_of_ne hid]
      exact h.known (List.mem_of_ne_of_mem hid hmember)
  case nodup => exact List.nodup_cons.mpr ⟨hnotmember, h.nodup⟩
  case registered =>
    intro id' x' h' hclean
    obtain ⟨rfl, -⟩ | ⟨-, h'⟩ := hstore h'
    · exact List.mem_cons_self
    · exact List.mem_cons_of_mem _ (h.registered h' hclean)
  case degraded =>
    have hzero : ¬ 0 < x.cleanupFailures := by
      intro hpos
      have hpending := hx.failures hpos
      rw [(hx.running hlive).1] at hpending
      cases hpending
    show m.cleanupDegraded = (id :: m.sessions).countP _
    rw [List.countP_cons_of_neg, h.degraded]
    · exact List.countP_congr fun id' hmember => by rw [← hfailing id' hmember]; exact Iff.rfl
    · show ¬ Option.any _ (Function.update m.store id (some x) id) = true
      rw [Function.update_self]
      simpa using hzero
  case permit =>
    intro id' x' h'
    obtain ⟨rfl, rfl⟩ | ⟨hid, h'⟩ := hstore h'
    · exact ⟨fun _ => rfl, fun _ => hlive⟩
    · refine ⟨fun hlive' => ?_, fun hslot' => absurd (Permit.session.inj hslot').symm hid⟩
      have hslot' := (h.permit h').mp hlive'
      rw [hslot] at hslot'
      cases hslot'
  case permitKnown =>
    intro id' hslot'
    cases hslot'
    exact hself
  case removed =>
    intro id' x' h' hclean
    obtain ⟨-, rfl⟩ | ⟨-, h'⟩ := hstore h'
    · exact absurd hclean hnotclean
    · exact h.removed h' hclean

theorem SyncManager.Does.insert (hfree : m.store id = none) (hslot : m.slot = .creating task)
    (hcreating : m.creating = some task) (hx : x.creator = task) (hopen : x.state = .open)
    (hnew : x.applications = 0) :
    m.Does (some task)
      ({ m with sessions := id :: m.sessions, slot := .session id, creating := none }.put id x) where
  clock := Nat.le_refl _
  creating n hne h := absurd (hcreating.symm.trans h) fun heq => hne heq
  slot n hne := by
    refine ⟨fun h => ?_, (by rintro ⟨⟩)⟩
    rw [hslot] at h
    cases h
    exact absurd rfl hne
  available h := absurd (hslot.symm.trans h) (by rintro ⟨⟩)
  session {id' x'} h := by
    have hid : id' ≠ id := by
      rintro rfl
      rw [hfree] at h
      cases h
    exact ⟨x', (SyncManager.put_store_other hid).trans h, .refl⟩
  fresh {id'} h := by
    by_cases hid : id' = id
    · subst hid
      exact .inr ⟨task, x, rfl, hcreating, hslot, SyncManager.put_store_self .., hx, hopen, hnew⟩
    · exact .inl ((SyncManager.put_store_other hid).trans h)
  registered {id'} h := by
    obtain rfl | h := List.mem_cons.mp h
    · exact .inr hfree
    · exact .inl h
  pruned _ h h' := absurd (List.mem_cons_of_mem _ h) h'
  gone _ h := h

/-! ## Results are pruned -/

theorem SyncManager.mem_pruned {finished : List (Uuid × Instant)} (h : id ∈ m.pruned finished) :
    ∃ entry ∈ finished, entry.1 = id := by
  obtain ⟨⟨entry, index⟩, hentry, rfl⟩ := List.mem_map.mp h
  have hmember := (List.mem_filter.mp hentry).1
  exact ⟨entry, List.mem_mergeSort.mp (List.fst_mem_of_mem_zipIdx hmember), rfl⟩

theorem SyncManager.Sound.prune (h : m.Sound) {keep : Uuid → Bool}
    (hkeep : ∀ id x, m.store id = some x → ¬ x.clean → keep id = true) :
    ({ m with sessions := m.sessions.filter keep } : SyncManager).Sound where
  session := h.session
  known hmember := h.known (List.mem_filter.mp hmember).1
  nodup := h.nodup.filter _
  registered hx hclean := List.mem_filter.mpr ⟨h.registered hx hclean, hkeep _ _ hx hclean⟩
  degraded := by
    show m.cleanupDegraded = _
    rw [h.degraded, List.countP_filter]
    refine List.countP_congr fun id hmember => ?_
    show m.failing id = true ↔ (m.failing id && keep id) = true
    rw [Bool.and_eq_true]
    refine ⟨fun hfailing => ⟨hfailing, ?_⟩, And.left⟩
    obtain ⟨x, hx, hpos⟩ := (Option.any_eq_true _ _).mp hfailing
    refine hkeep id x hx fun hclean => ?_
    rw [(h.session hx).failures_clean hclean] at hpos
    cases hpos
  permit := h.permit
  permitKnown := h.permitKnown
  removed := h.removed

theorem SyncManager.Does.prune {keep : Uuid → Bool}
    (hkeep : ∀ id x, m.store id = some x → ¬ x.clean → keep id = true) :
    m.Does (some task) { m with sessions := m.sessions.filter keep } where
  __ := (Does.refl : m.Does (some task) m)
  registered h := .inl (List.mem_filter.mp h).1
  pruned {id x} hx hmember hgone := by
    by_contra hclean
    exact hgone (List.mem_filter.mpr ⟨hmember, hkeep id x hx hclean⟩)

end Updates

/-! ## The steps of `create_plan` -/

section Steps

variable {m : SyncManager} {task : Nat} {p : Place} {c : Choice}
  {o : Tasks.Outcome SyncManager Place}

theorem goTo_eq {m' : SyncManager} {p' : Place} (h : goTo m' p' = some o) : o = ⟨m', p', none⟩ :=
  (Option.some.inj h).symm

/-- A step that changes nothing but the place. -/
theorem Step.Good.stay {p' : Place} (h : m.Sound) (hat : p'.At task m) :
    Step.Good task m p ⟨m, p', none⟩ := ⟨h, hat, .refl, rfl, .inl rfl, fun _ _ _ => rfl⟩

/-- A place at which a call holds nothing. -/
theorem Place.At.plain {p : Place} (hcreates : p.creates = false) (hpermit : p.permit = false)
    (hwrites : p.writes = none) (hreads : p.reads = none) (hcleans : p.cleans = none)
    (hfact : p.Fact task m) : p.At task m where
  creates h := absurd (hcreates.symm.trans h) (by rintro ⟨⟩)
  permit h := absurd (hpermit.symm.trans h) (by rintro ⟨⟩)
  writes _ h := absurd (hwrites.symm.trans h) (by rintro ⟨⟩)
  reads _ h := absurd (hreads.symm.trans h) (by rintro ⟨⟩)
  cleans _ h := absurd (hcleans.symm.trans h) (by rintro ⟨⟩)
  fact := hfact

/-- The end of a call that holds nothing and answers no plan. -/
theorem Place.At.leave {answer : Answered}
    (hfact : ∀ r, answer = .ok (.plan r) → m.Has r.syncId (·.creator = task)) :
    (Place.leave answer).At task m := by
  refine .plain rfl rfl rfl rfl rfl ?_
  rcases answer with - | (response | response | response | response | response | -)
  case ok.plan => exact hfact response rfl
  all_goals trivial

/-- A place that holds the `creating` mutex and nothing else. -/
theorem Place.At.creating {p : Place} (hcreating : m.creating = some task)
    (hpermit : p.permit = false) (hwrites : p.writes = none) (hreads : p.reads = none)
    (hcleans : p.cleans = none) (hfact : p.Fact task m) : p.At task m where
  creates _ := hcreating
  permit h := absurd (hpermit.symm.trans h) (by rintro ⟨⟩)
  writes _ h := absurd (hwrites.symm.trans h) (by rintro ⟨⟩)
  reads _ h := absurd (hreads.symm.trans h) (by rintro ⟨⟩)
  cleans _ h := absurd (hcleans.symm.trans h) (by rintro ⟨⟩)
  fact := hfact

/-- Taking the `creating` mutex. -/
theorem SyncManager.Does.create (hfree : m.creating.isNone = true) :
    m.Does (some task) { m with creating := some task } :=
  { (SyncManager.Does.refl : m.Does (some task) m) with
    creating := fun n _ h => by
      rw [h] at hfree
      cases hfree }

/-- Giving it back. -/
theorem SyncManager.Does.giveBack (hcreating : m.creating = some task) :
    m.Does (some task) { m with creating := none } :=
  { (SyncManager.Does.refl : m.Does (some task) m) with
    creating := fun _ hne h => absurd (hcreating.symm.trans h) hne }

/-- Moving the permit into the hands of a new plan, or out of them. -/
theorem SyncManager.Sound.permitMoves (h : m.Sound) {slot : Permit}
    (hbefore : ∀ id, m.slot ≠ .session id) (hafter : ∀ id, slot ≠ .session id) :
    ({ m with slot := slot } : SyncManager).Sound where
  __ := h
  permit hx := ⟨fun hlive => absurd ((h.permit hx).mp hlive) (hbefore _),
    fun hslot => absurd hslot (hafter _)⟩
  permitKnown hslot := absurd hslot (hafter _)

/-- Giving the permit of a plan back that was not created. -/
theorem SyncManager.Does.refused (hslot : m.slot = .creating task) :
    m.Does (some task) { m with slot := .available } :=
  { (SyncManager.Does.refl : m.Does (some task) m) with
    slot := fun n hne => by
      refine ⟨fun h => ?_, (by rintro ⟨⟩)⟩
      rw [hslot] at h
      cases h
      exact absurd rfl hne
    available := fun _ => .inl rfl }

theorem SyncManager.Sound.refused (h : m.Sound) (hslot : m.slot = .creating task) :
    ({ m with slot := .available } : SyncManager).Sound := by
  refine h.permitMoves (fun id heq => ?_) (by rintro _ ⟨⟩)
  rw [hslot] at heq
  cases heq

/-- The directory of a plan that is not in the store belongs to no session. -/
theorem SyncManager.Does.putFresh {id : Uuid} {files : Option Staging} (hfree : m.store id = none) :
    m.Does (some task) (m.putStaging id files) :=
  .putStaging fun _ hx => absurd (hfree.symm.trans hx) (by rintro ⟨⟩)

theorem SyncManager.Sound.putFresh {id : Uuid} {files : Option Staging} (h : m.Sound)
    (hfree : m.store id = none) : (m.putStaging id files).Sound :=
  h.putStaging fun _ hx => absurd (hfree.symm.trans hx) (by rintro ⟨⟩)

/-- A directory that no plan being applied owns. -/
theorem SyncManager.putStaging_apart {id id' : Uuid} {x' : SyncSession} {files : Option Staging}
    (hapart : ∀ x, m.store id = some x → x.state ≠ .committing) (hx' : m.store id' = some x')
    (hcommitting : x'.state = .committing) :
    (m.putStaging id files).staging id' = m.staging id' := by
  apply SyncManager.putStaging_other
  rintro rfl
  exact hapart x' hx' hcommitting

/-- A plan is given up with its directory. -/
theorem Step.Good.giveUp {id : Uuid} {files : Option Staging} {error : AppError} (h : m.Sound)
    (hcreating : m.creating = some task) (hslot : m.slot = .creating task)
    (hfree : m.store id = none) :
    Step.Good task m p ⟨{ m with slot := .available }.putStaging id files, .planRefused error, none⟩ where
  sound := (h.refused hslot).putFresh hfree
  place := .creating hcreating rfl rfl rfl rfl trivial
  does :=
    { SyncManager.Does.refused hslot with
      gone := (SyncManager.Does.putFresh hfree : m.Does (some task) _).gone }
  child := rfl
  slot := .inr (.inl (by rintro _ ⟨⟩))
  staging hx hcommitting _ :=
    SyncManager.putStaging_apart (fun _ hx => absurd (hfree.symm.trans hx) (by rintro ⟨⟩)) hx hcommitting

theorem planStep_good (h : m.Sound) (hat : p.At task m) (hstep : m.planStep task p c = some o) :
    Step.Good task m p o := by
  unfold SyncManager.planStep at hstep
  split at hstep
  -- plan
  · split at hstep
    · rename_i hfree
      cases goTo_eq hstep
      exact ⟨{ h with }, .creating rfl rfl rfl rfl rfl trivial, .create hfree, rfl, .inl rfl, fun _ _ _ => rfl⟩
    · cases hstep
  -- planPermit
  · split at hstep
    · rename_i havailable
      cases goTo_eq hstep
      refine ⟨h.permitMoves (by rw [havailable]; rintro _ ⟨⟩) (by rintro _ ⟨⟩),
        { creates := fun _ => hat.creates rfl, permit := fun _ => rfl,
          writes := (by rintro _ ⟨⟩), reads := (by rintro _ ⟨⟩), cleans := (by rintro _ ⟨⟩), fact := trivial }, ?_, rfl,
        .inr (.inr rfl), fun _ _ _ => rfl⟩
      exact { (SyncManager.Does.refl : m.Does (some task) m) with
        slot := fun n hne => ⟨fun hslot => absurd (havailable.symm.trans hslot) (by rintro ⟨⟩),
          fun hslot => absurd (congrArg some (Permit.creating.inj hslot)) hne⟩
        available := fun _ => .inr ⟨task, rfl, hat.creates rfl⟩ }
    · cases goTo_eq hstep
      exact .stay h (.creating (hat.creates rfl) rfl rfl rfl rfl trivial)
  -- planWork
  · split at hstep
    · split at hstep
      · cases goTo_eq hstep
        exact .stay h { hat with fact := trivial }
      · cases hstep
    · cases goTo_eq hstep
      exact ⟨h.refused (hat.permit rfl), .creating (hat.creates rfl) rfl rfl rfl rfl trivial,
        .refused (hat.permit rfl), rfl, .inr (.inl (by rintro _ ⟨⟩)), fun _ _ _ => rfl⟩
  -- planStaging
  · split at hstep
    · rename_i hfree
      rw [Bool.and_eq_true, Option.isNone_iff_eq_none] at hfree
      split at hstep
      · cases goTo_eq hstep
        exact ⟨h.putFresh hfree.1, { hat with fact := hfree.1 }, .putFresh hfree.1, rfl, .inl rfl,
          fun hx hcommitting _ => SyncManager.putStaging_apart
            (fun x hx => absurd (hfree.1.symm.trans hx) (by rintro ⟨⟩)) hx hcommitting⟩
      · cases goTo_eq hstep
        exact .giveUp h (hat.creates rfl) (hat.permit rfl) hfree.1
    · cases hstep
  -- planCheck
  · split at hstep
    · cases goTo_eq hstep
      exact .stay h { hat with }
    · cases goTo_eq hstep
      exact .stay h { hat with }
  -- planReject
  · cases goTo_eq hstep
    exact .giveUp h (hat.creates rfl) (hat.permit rfl) hat.fact
  -- planInsert
  · rename_i project id owned
    cases goTo_eq hstep
    have hfree : m.store id = none := hat.fact
    refine ⟨h.insert hfree (hat.permit rfl) ?_ rfl, .leave fun r hr => ?_,
      .insert hfree (hat.permit rfl) (hat.creates rfl) rfl rfl rfl, rfl, .inr (.inl (by rintro _ ⟨⟩)), fun _ _ _ => rfl⟩
    · exact ⟨rfl, fun _ => ⟨rfl, rfl⟩, (by rintro ⟨⟩), (by rintro ⟨⟩), ⟨rfl, rfl, rfl, rfl⟩, fun _ => rfl⟩
    · cases hr
      exact ⟨_, SyncManager.put_store_self .., rfl⟩
  -- planRefused
  · cases goTo_eq hstep
    exact ⟨{ h with }, .leave (by rintro _ ⟨⟩), .giveBack (hat.creates rfl), rfl, .inl rfl, fun _ _ _ => rfl⟩
  · cases hstep

/-! ## The steps of `session`, and of an upload -/

theorem SyncManager.on_eq {id : Uuid} {f : SyncSession → Step} (h : m.on id f = some o) :
    ∃ x, m.store id = some x ∧ f x = some o := Option.bind_eq_some_iff.mp h

theorem LookupThen.fails_at (after : LookupThen) (error : AppError) :
    (after.fails error).At task m := by
  cases after with
  | status => exact .plain rfl rfl rfl rfl rfl trivial
  | _ => exact .leave (by rintro _ ⟨⟩)

theorem LookupThen.next_at (id : Uuid) (after : LookupThen) : (after.next id).At task m := by
  cases after with
  | abort => exact .plain rfl rfl rfl rfl rfl ⟨trivial, .inl rfl⟩
  | _ => exact .plain rfl rfl rfl rfl rfl trivial

theorem lookupStep_good (h : m.Sound) (hstep : m.lookupStep p c = some o) :
    Step.Good task m p o := by
  unfold SyncManager.lookupStep at hstep
  split at hstep
  -- lookup
  · split at hstep
    · cases goTo_eq hstep
      exact .stay h (.plain rfl rfl rfl rfl rfl trivial)
    · cases goTo_eq hstep
      exact .stay h (LookupThen.fails_at ..)
  -- lookupProject
  · obtain ⟨x, -, hstep⟩ := SyncManager.on_eq hstep
    split at hstep
    · cases goTo_eq hstep
      exact .stay h (LookupThen.next_at ..)
    · cases goTo_eq hstep
      exact .stay h (LookupThen.fails_at ..)
  -- statusRead
  · obtain ⟨x, -, hstep⟩ := SyncManager.on_eq hstep
    cases goTo_eq hstep
    exact .stay h (.plain rfl rfl rfl rfl rfl trivial)
  · cases hstep

section Locks

variable {x : SyncSession} {activity : RwLock} {now : Instant}

theorem SyncSession.Does.read (h : x.activity.read task = some activity) :
    x.Does (some task) now { x with activity } :=
  .withLocks (fun _ _ hn => (RwLock.isWriter_of_read h).trans hn)
    (fun _ hne hn => (RwLock.mem_readers_of_read h fun heq => hne (heq ▸ rfl)).mp hn)
    (fun _ _ h => h)

theorem SyncSession.Does.write (h : x.activity.write task = some activity) :
    x.Does (some task) now { x with activity } :=
  .withLocks (fun _ hne hn => (RwLock.isWriter_of_write h fun heq => hne (heq ▸ rfl)).trans hn)
    (fun _ _ hn => (RwLock.mem_readers_of_write h).mp hn) (fun _ _ h => h)

theorem SyncSession.Does.release {cancelUploads : Bool} {notified : Nat} :
    x.Does (some task) now
      (x.withLocks (x.activity.release task) cancelUploads notified x.cleanup) :=
  .withLocks (fun _ hne hn => (RwLock.isWriter_release fun heq => hne (congrArg some heq)).trans hn)
    (fun _ hne hn => (RwLock.mem_readers_release fun heq => hne (congrArg some heq)).mpr hn)
    (fun _ _ h => h)

end Locks

/-- An upload ends by giving its side of the activity back. -/
theorem Step.Good.release {id : Uuid} {x : SyncSession} {p' : Place} {notified : Nat}
    (h : m.Sound) (hx : m.store id = some x)
    (hat : p'.At task
      (m.put id (x.withLocks (x.activity.release task) x.cancelUploads notified x.cleanup))) :
    Step.Good task m p ⟨m.put id
      (x.withLocks (x.activity.release task) x.cancelUploads notified x.cleanup), p', none⟩ :=
  ⟨h.put_locks hx .., hat, .put hx .release, rfl, .inl rfl, fun _ _ _ => rfl⟩

theorem SyncManager.checkUpload_open {x : SyncSession} {path : SyncPath} {length : Option Nat}
    {expected : FileTransfer} (h : m.checkUpload x path length = .ok expected) :
    x.state = .open := by
  by_contra hstate
  simp [SyncManager.checkUpload, SyncSession.ensureOpen, hstate, bind, Except.bind] at h

theorem SyncSession.ensureOpen_ok {x : SyncSession} {u : Unit} (h : x.ensureOpen = .ok u) :
    x.state = .open := by
  by_contra hstate
  simp [SyncSession.ensureOpen, hstate] at h

theorem uploadStep_good (h : m.Sound) (hat : p.At task m)
    (hstep : m.uploadStep task p c = some o) : Step.Good task m p o := by
  unfold SyncManager.uploadStep at hstep
  split at hstep
  -- uploadLock
  · rename_i id path length
    obtain ⟨x, hx, hstep⟩ := SyncManager.on_eq hstep
    obtain ⟨activity, hread, hstep⟩ := Option.bind_eq_some_iff.mp hstep
    cases goTo_eq hstep
    refine ⟨h.put_locks hx .., ?_, .put hx (.read hread), rfl, .inl rfl, fun _ _ _ => rfl⟩
    exact { creates := (by rintro ⟨⟩), permit := (by rintro ⟨⟩), writes := (by rintro _ ⟨⟩), cleans := (by rintro _ ⟨⟩), fact := trivial
            reads := fun _ hp => by
              cases hp
              exact ⟨_, SyncManager.put_store_self .., RwLock.mem_readers_read hread⟩ }
  -- uploadCheck
  · obtain ⟨x, hx, hstep⟩ := SyncManager.on_eq hstep
    split at hstep
    · rename_i expected hcheck
      cases goTo_eq hstep
      exact .stay h { hat with fact := ⟨x, hx, SyncManager.checkUpload_open hcheck⟩ }
    · cases goTo_eq hstep
      exact .stay h { hat with fact := trivial }
  -- uploadPrepare
  · split at hstep
    · cases goTo_eq hstep
      exact .stay h { hat with }
    · cases goTo_eq hstep
      exact .stay h { hat with fact := trivial }
  -- uploadBody
  · split at hstep
    · cases goTo_eq hstep
      exact .stay h { hat with }
    · cases goTo_eq hstep
      exact .stay h { hat with fact := trivial }
  · obtain ⟨x, hx, hstep⟩ := SyncManager.on_eq hstep
    split at hstep
    · cases goTo_eq hstep
      exact .stay h { hat with fact := trivial }
    · cases hstep
  -- uploadReplace
  · rename_i id path expected content result
    obtain ⟨x, hx, hopen⟩ := hat.fact
    split at hstep
    · cases goTo_eq hstep
      have hnotclean : ∀ x', m.store id = some x' → x'.clean → False := by
        intro x' hx' hclean
        rw [hx] at hx'
        cases hx'
        have hlive := hclean.1
        rw [hopen] at hlive
        cases hlive
      refine ⟨h.putStaging fun x' hx' hclean => (hnotclean x' hx' hclean).elim,
        { hat with fact := trivial }, .putStaging fun _ _ hnone => ?_, rfl, .inl rfl,
        fun hx' hcommitting _ => SyncManager.putStaging_apart (fun x' hx' => ?_) hx' hcommitting⟩
      · rw [hnone]
        rfl
      · rw [hx] at hx'
        cases hx'
        rw [hopen]
        rintro ⟨⟩
    · cases goTo_eq hstep
      exact .stay h { hat with fact := trivial }
  -- uploadRecord
  · rename_i id path expected
    obtain ⟨x, hx, hstep⟩ := SyncManager.on_eq hstep
    split at hstep
    · rename_i hopen
      have hstate : x.state = .open := SyncSession.ensureOpen_ok hopen
      cases goTo_eq hstep
      have hxs := h.session hx
      refine ⟨h.put hx
          ⟨hxs.permit, hxs.running, hxs.finished, hxs.failures, ?_, hxs.uncommitted⟩ rfl Iff.rfl rfl,
        .leave (by rintro _ ⟨⟩), .put hx ?_, rfl, .inl rfl, fun _ _ _ => rfl⟩
      · have hrecorded := hxs.recorded
        show Record x.state _ _ _ _ _
        rw [SyncSession.Recorded, hstate] at hrecorded
        rw [hstate]
        exact hrecorded
      · have hrelease : x.Does (some task) m.now
            (x.withLocks (x.activity.release task) x.cancelUploads x.notified x.cleanup) := .release
        exact { hrelease with
          uploaded := fun hcommitting => absurd (hstate.symm.trans hcommitting) (by rintro ⟨⟩) }
    · cases goTo_eq hstep
      exact .release h hx (.leave (by rintro _ ⟨⟩))
  -- uploadFailed
  · obtain ⟨x, hx, hstep⟩ := SyncManager.on_eq hstep
    cases goTo_eq hstep
    exact .release h hx (.leave (by rintro _ ⟨⟩))
  · cases hstep

/-! ## The steps of `commit_session` -/

/-- A step on a session that only moves its locks and signals, to a place that holds nothing. -/
theorem Step.Good.signal {id : Uuid} {x : SyncSession} {p' : Place} {cancelUploads : Bool}
    {notified : Nat} (h : m.Sound) (hx : m.store id = some x)
    (hat : p'.At task (m.put id (x.withLocks x.activity cancelUploads notified x.cleanup))) :
    Step.Good task m p
      ⟨m.put id (x.withLocks x.activity cancelUploads notified x.cleanup), p', none⟩ :=
  ⟨h.put_locks hx .., hat, .put hx (.withLocks (fun _ _ h => h) (fun _ _ h => h) fun _ _ h => h), rfl, .inl rfl, fun _ _ _ => rfl⟩

/-- A commit does not answer a plan. -/
theorem commit_ne_plan (outcome : Application) (r : PushPlanResponse) :
    outcome.map Answer.commit ≠ .ok (.plan r) := by
  intro h
  cases outcome with
  | ok => cases h
  | error => cases h

theorem commitDecide_good {id : Uuid} {x : SyncSession} (h : m.Sound)
    (hat : (Place.commitDecide id).At task m) (hx : m.store id = some x)
    (hstep : m.decideCommit task id x = some o) : Step.Good task m (.commitDecide id) o := by
  obtain ⟨x', hx', hwriter⟩ := hat.writes id rfl
  rw [hx] at hx'
  cases hx'
  unfold SyncManager.decideCommit at hstep
  dsimp only at hstep
  split at hstep
  -- somebody else is applying the plan
  · cases goTo_eq hstep
    exact .release h hx (.plain rfl rfl rfl rfl rfl trivial)
  · rename_i hopen
    split at hstep
    · rename_i hdeadline
      cases goTo_eq hstep
      refine .release h hx (.plain rfl rfl rfl rfl rfl ⟨⟨_, SyncManager.put_store_self .., ?_⟩, .inr rfl⟩)
      refine ⟨hdeadline, ?_, ?_⟩
      · show x.state ≠ _
        rw [hopen]
        rintro ⟨⟩
      · show ¬ (x.state = _ ∨ x.state = _)
        rw [hopen]
        rintro (h | h) <;> cases h
    · rename_i hdeadline
      split at hstep
      · cases goTo_eq hstep
        exact .release h hx (.leave (by rintro _ ⟨⟩))
      · rename_i hmissing
        cases goTo_eq hstep
        have hxs := h.session hx
        have hlive : x.state.live = true := by rw [hopen]; rfl
        have hrecorded := hxs.recorded
        rw [SyncSession.Recorded, hopen] at hrecorded
        have hmissing' : x.missingUploads = false := (Bool.not_eq_true _).mp hmissing
        obtain ⟨hnone, hresult, herror, houtcome⟩ := hrecorded
        refine ⟨h.put hx ⟨?_, fun _ => hxs.running hlive, (by rintro ⟨⟩), hxs.failures, ?_, (by rintro ⟨⟩)⟩ ?_ ?_ rfl,
          .plain rfl rfl rfl rfl rfl ⟨_, SyncManager.put_store_self .., ⟨rfl, rfl, hnone⟩, rfl⟩,
          .put hx ?_, rfl, .inl rfl, fun _ _ _ => rfl⟩
        · exact hxs.permit.trans hlive
        · exact ⟨hnone.trans_le (Nat.zero_le 1), hresult, herror, houtcome, hmissing'⟩
        · exact hlive.symm
        · exact ⟨fun hclean => absurd hclean.1 (by rintro ⟨⟩),
            fun hclean => absurd (hlive.symm.trans hclean.1) (by rintro ⟨⟩)⟩
        · have hrelease : x.Does (some task) m.now
              (x.withLocks (x.activity.release task) x.cancelUploads x.notified x.cleanup) := .release
          have hidle : x.state ≠ .committing := by rw [hopen]; rintro ⟨⟩
          exact { hrelease with
            state := .inr ⟨by rw [hopen]; exact .commit, fun _ => ⟨task, rfl, hwriter⟩,
              fun hcommitting => absurd hcommitting hidle,
              fun _ => ⟨Nat.lt_of_not_le hdeadline, hmissing'⟩⟩
            committer := fun hsome => by
              rw [hxs.uncommitted hopen] at hsome
              cases hsome
            plan := fun _ => rfl
            uploaded := fun hcommitting => absurd hcommitting hidle
            settled := fun hsettled => absurd (hlive.symm.trans hsettled) (by rintro ⟨⟩) }
  · cases goTo_eq hstep
    exact .release h hx (.leave fun r hr => absurd hr (commit_ne_plan _ r))

theorem commitStep_good (h : m.Sound) (hat : p.At task m)
    (hstep : m.commitStep task p c = some o) : Step.Good task m p o := by
  unfold SyncManager.commitStep at hstep
  split at hstep
  -- commitLock
  · rename_i id
    obtain ⟨x, hx, hstep⟩ := SyncManager.on_eq hstep
    obtain ⟨activity, hwrite, hstep⟩ := Option.bind_eq_some_iff.mp hstep
    cases goTo_eq hstep
    refine ⟨h.put_locks hx .., ?_, .put hx (.write hwrite), rfl, .inl rfl, fun _ _ _ => rfl⟩
    exact { creates := (by rintro ⟨⟩), permit := (by rintro ⟨⟩), reads := (by rintro _ ⟨⟩), cleans := (by rintro _ ⟨⟩), fact := trivial
            writes := fun _ hp => by
              cases hp
              exact ⟨_, SyncManager.put_store_self .., RwLock.isWriter_write hwrite⟩ }
  -- commitDecide
  · obtain ⟨x, hx, hstep⟩ := SyncManager.on_eq hstep
    exact commitDecide_good h hat hx hstep
  -- commitStart
  · obtain ⟨x, hx, hstep⟩ := SyncManager.on_eq hstep
    cases goTo_eq hstep
    obtain ⟨x', hx', ⟨hstate, hcommitter, hnone⟩, hplan⟩ := hat.fact
    rw [hx] at hx'
    cases hx'
    have hxs := h.session hx
    have hrecorded := hxs.recorded
    rw [SyncSession.Recorded, hstate] at hrecorded
    have hone : x.applications + 1 = 1 := by rw [hnone]
    refine ⟨h.put hx ⟨hxs.permit, hxs.running, hxs.finished, hxs.failures, ?_, hxs.uncommitted⟩ rfl
      Iff.rfl rfl,
      .plain rfl rfl rfl rfl rfl
        ⟨_, SyncManager.put_store_self .., ⟨hstate, hcommitter, hone⟩, hplan⟩, .put hx ?_, rfl, .inl rfl, fun _ _ _ => rfl⟩
    · show Record x.state (x.applications + 1) _ _ _ _
      rw [hstate]
      exact ⟨hone.le, hrecorded.2⟩
    · exact { (SyncSession.Does.refl : x.Does (some task) m.now x) with
        applications := .inr ⟨hstate, hcommitter.symm, rfl⟩ }
  -- commitApply
  · rename_i id owned files
    cases goTo_eq hstep
    obtain ⟨x, hx, ⟨hstate, hcommitter, hone⟩, hplan⟩ := hat.fact
    refine ⟨h.putStaging fun x' hx' hclean => ?_, { hat with },
      .putStaging fun _ _ hnone => ?_, rfl, .inl rfl,
      fun {id' x'} hx' hcommitting hother => SyncManager.putStaging_other fun heq => ?_⟩
    · rw [hx] at hx'
      cases hx'
      have hlive := hclean.1
      rw [hstate] at hlive
      cases hlive
    · rw [hnone]
      rfl
    · -- the only plan whose files it touches is the one it applies
      simp [Place.applying, heq] at hother
  · cases goTo_eq hstep
    obtain ⟨x, hx, happlying, -⟩ := hat.fact
    exact .stay h (.plain rfl rfl rfl rfl rfl ⟨x, hx, happlying⟩)
  -- commitSettle
  · rename_i id outcome
    obtain ⟨x, hx, hstep⟩ := SyncManager.on_eq hstep
    cases goTo_eq hstep
    obtain ⟨x', hx', hstate, hcommitter, hone⟩ := hat.fact
    rw [hx] at hx'
    cases hx'
    have hlive : x.state.live = true := by rw [hstate]; rfl
    have hrecorded := (h.session hx).recorded
    rw [SyncSession.Recorded, hstate] at hrecorded
    obtain ⟨-, hresult, herror, -, -⟩ := hrecorded
    have hidle : x.state ≠ .open := by rw [hstate]; rintro ⟨⟩
    cases outcome with
    | ok response =>
        refine ⟨h.settle hx hlive rfl rfl ⟨hone, herror, response, rfl, rfl⟩,
          .plain rfl rfl rfl rfl rfl ⟨_, SyncManager.put_store_self .., .inl rfl, rfl⟩,
          .settle h hx hlive rfl ⟨rfl, rfl, rfl, rfl, rfl, rfl, rfl⟩ ?_
            (fun hopen => absurd hopen hidle) (fun _ => hcommitter), rfl, .inr (.inl (by rintro _ ⟨⟩)), fun _ _ _ => rfl⟩
        rw [hstate]
        exact .committed
    | error error =>
        refine ⟨h.settle hx hlive rfl rfl ⟨hone, hresult, error, rfl, rfl⟩,
          .plain rfl rfl rfl rfl rfl ⟨_, SyncManager.put_store_self .., .inr rfl, rfl⟩,
          .settle h hx hlive rfl ⟨rfl, rfl, rfl, rfl, rfl, rfl, rfl⟩ ?_
            (fun hopen => absurd hopen hidle) (fun _ => hcommitter), rfl, .inr (.inl (by rintro _ ⟨⟩)), fun _ _ _ => rfl⟩
        rw [hstate]
        exact .failed
  -- commitNotify
  · obtain ⟨x, hx, hstep⟩ := SyncManager.on_eq hstep
    cases goTo_eq hstep
    exact .signal h hx (.leave fun r hr => absurd hr (commit_ne_plan _ r))
  -- commitWait
  · obtain ⟨x, hx, hstep⟩ := SyncManager.on_eq hstep
    cases goTo_eq hstep
    exact .stay h (.plain rfl rfl rfl rfl rfl trivial)
  -- commitLook
  · obtain ⟨x, hx, hstep⟩ := SyncManager.on_eq hstep
    split at hstep
    · cases goTo_eq hstep
      exact .stay h (.plain rfl rfl rfl rfl rfl trivial)
    · cases goTo_eq hstep
      exact .stay h (.leave fun r hr => absurd hr (commit_ne_plan _ r))
  -- commitNotified
  · obtain ⟨x, hx, hstep⟩ := SyncManager.on_eq hstep
    split at hstep
    · cases goTo_eq hstep
      exact .stay h (.plain rfl rfl rfl rfl rfl trivial)
    · cases hstep
  · cases hstep

/-! ## The steps of `abort`, `abort_open` and `abort_session` -/

/-- `abort_session` goes back to its caller. -/
theorem AbortThen.next_at {id : Uuid} {result : Except AppError Unit} {after : AbortThen}
    (hcreates : after.creates = true → m.creating = some task) (hfact : after.Fact m id)
    (hcleaned : m.Cleaned id result) : (after.next result).At task m := by
  cases after with
  | abortOpen project rest =>
      cases result with
      | ok =>
          refine .creating (hcreates rfl) rfl rfl rfl rfl fun id' x hx hproject => ?_
          obtain hclean | hmember := hfact id' x hx hproject
          · exact .inl hclean
          · obtain rfl | hmember := List.mem_cons.mp hmember
            · obtain ⟨x', hx', hclean⟩ := hcleaned rfl
              rw [hx] at hx'
              cases hx'
              exact .inl hclean
            · exact .inr hmember
      | error => exact .creating (hcreates rfl) rfl rfl rfl rfl (by rintro ⟨⟩)
  | expired =>
      cases result with
      | ok => exact .leave (by rintro _ ⟨⟩)
      | error => exact .leave (by rintro _ ⟨⟩)
  | abort =>
      cases result with
      | ok => exact .plain rfl rfl rfl rfl rfl trivial
      | error => exact .leave (by rintro _ ⟨⟩)
  | reap => exact .plain rfl rfl rfl rfl rfl trivial
  | shutdown => exact .plain rfl rfl rfl rfl rfl trivial

/-- A place of `abort_session` that holds no lock of the session. -/
theorem Place.At.aborting {p : Place} {after : AbortThen}
    (hcreates : after.creates = true → m.creating = some task) (hp : p.creates = after.creates)
    (hpermit : p.permit = false) (hwrites : p.writes = none) (hreads : p.reads = none)
    (hcleans : p.cleans = none) (hfact : p.Fact task m) : p.At task m where
  creates h := hcreates (hp ▸ h)
  permit h := absurd (hpermit.symm.trans h) (by rintro ⟨⟩)
  writes _ h := absurd (hwrites.symm.trans h) (by rintro ⟨⟩)
  reads _ h := absurd (hreads.symm.trans h) (by rintro ⟨⟩)
  cleans _ h := absurd (hcleans.symm.trans h) (by rintro ⟨⟩)
  fact := hfact

theorem SyncManager.Has.put {id id' : Uuid} {x y : SyncSession} {P : SyncSession → Prop}
    (h : m.Has id' P) (hx : m.store id = some x) (hxy : P x → P y) : (m.put id y).Has id' P := by
  obtain ⟨x', hx', hP⟩ := h
  by_cases hid : id' = id
  · subst hid
    rw [hx] at hx'
    cases hx'
    exact ⟨y, put_store_self .., hxy hP⟩
  · exact ⟨x', (put_store_other hid).trans hx', hP⟩

/-- A step on a session creates none. -/
theorem SyncManager.put_none {id : Uuid} {x y : SyncSession} (hx : m.store id = some x) :
    ∀ id', m.store id' = none → (m.put id y).store id' = none := by
  intro id' hnone
  have hne : id' ≠ id := by
    rintro rfl
    rw [hx] at hnone
    cases hnone
  exact (put_store_other hne).trans hnone

/-- What a step on a session keeps of the knowledge about the project's other plans. -/
theorem AbortThen.Fact.put {id : Uuid} {x y : SyncSession} {after : AbortThen}
    (h : after.Fact m id) (hx : m.store id = some x) (hxy : x.Does (some task) m.now y) :
    after.Fact (m.put id y) id :=
  AbortThen.Fact.mono h (.put hx hxy) fun _ => SyncManager.put_none hx

theorem abortDecide_good {id : Uuid} {terminal : SyncSessionStatus} {after : AbortThen}
    {seen : Nat} {x : SyncSession} (h : m.Sound)
    (hat : (Place.abortDecide id terminal after seen).At task m) (hx : m.store id = some x)
    (hstep : m.decideAbort task id terminal after seen x = some o) :
    Step.Good task m (.abortDecide id terminal after seen) o := by
  obtain ⟨hfact, hterminal⟩ := hat.fact
  obtain ⟨x', hx', hwriter⟩ := hat.writes id rfl
  rw [hx] at hx'
  cases hx'
  unfold SyncManager.decideAbort at hstep
  split at hstep
  -- the commit decides; wait for it
  · cases goTo_eq hstep
    exact .release h hx (.aborting hat.creates rfl rfl rfl rfl rfl ⟨hfact.put hx .release, hterminal⟩)
  · rename_i hopen
    cases goTo_eq hstep
    have hlive : x.state.live = true := by rw [hopen]; rfl
    have hclosed : terminal.live = false := by obtain rfl | rfl := hterminal <;> rfl
    have hrecorded := (h.session hx).recorded
    rw [SyncSession.Recorded, hopen] at hrecorded
    have hsound : (m.settle id { x with state := terminal }).Sound := by
      refine h.settle hx hlive hclosed rfl ?_
      obtain rfl | rfl := hterminal <;> exact hrecorded
    have hmoves : x.state.Moves terminal := by
      rw [hopen]
      obtain rfl | rfl := hterminal
      · exact .abort
      · exact .expire
    have hdoes : m.Does (some task) (m.settle id { x with state := terminal }) :=
      .settle h hx hlive hclosed ⟨rfl, rfl, rfl, rfl, rfl, rfl, rfl⟩ hmoves (fun _ => hwriter)
        (fun hcommitting => absurd (hopen.symm.trans hcommitting) (by rintro ⟨⟩))
    have hfact' : after.Fact (m.settle id { x with state := terminal }) id :=
      AbortThen.Fact.mono hfact hdoes fun _ => SyncManager.put_none hx
    refine ⟨hsound, ?_, hdoes, rfl, .inr (.inl (by rintro _ ⟨⟩)), fun _ _ _ => rfl⟩
    exact { creates := hat.creates, permit := (by rintro ⟨⟩), reads := (by rintro _ ⟨⟩), cleans := by rintro _ ⟨⟩
            writes := fun _ hp => by
              cases hp
              exact ⟨_, SyncManager.put_store_self .., hwriter⟩
            fact := ⟨hfact', ⟨_, SyncManager.put_store_self .., hclosed⟩⟩ }
  · rename_i hcommitting hopen
    cases goTo_eq hstep
    have hclosed := SyncSessionStatus.live_eq_false hopen hcommitting
    exact .stay h { hat with fact := ⟨hfact, ⟨x, hx, hclosed⟩⟩ }

theorem abortStep_good (h : m.Sound) (hat : p.At task m)
    (hstep : m.abortStep task p c = some o) : Step.Good task m p o := by
  unfold SyncManager.abortStep at hstep
  split at hstep
  -- abortState
  · obtain ⟨x, hx, hstep⟩ := SyncManager.on_eq hstep
    split at hstep
    · cases goTo_eq hstep
      exact .stay h (.leave (by rintro _ ⟨⟩))
    · cases goTo_eq hstep
      exact .stay h (.leave (by rintro _ ⟨⟩))
  -- abortOpen
  · split at hstep
    · rename_i hfree
      cases goTo_eq hstep
      exact ⟨{ h with }, .creating rfl rfl rfl rfl rfl trivial, .create hfree, rfl, .inl rfl, fun _ _ _ => rfl⟩
    · cases hstep
  -- abortOpenSnapshot
  · cases goTo_eq hstep
    refine .stay h (.creating (hat.creates rfl) rfl rfl rfl rfl fun id x hx _ => ?_)
    by_cases hclean : x.clean
    · exact .inl hclean
    · exact .inr (h.registered hx hclean)
  -- abortOpenNext
  · cases goTo_eq hstep
    exact .stay h (.creating (hat.creates rfl) rfl rfl rfl rfl fun _ => hat.fact)
  · rename_i project id rest
    obtain ⟨x, hx, hstep⟩ := SyncManager.on_eq hstep
    split at hstep
    · cases goTo_eq hstep
      exact .stay h (.creating (hat.creates rfl) rfl rfl rfl rfl ⟨hat.fact, .inl rfl⟩)
    · rename_i hproject
      cases goTo_eq hstep
      refine .stay h (.creating (hat.creates rfl) rfl rfl rfl rfl fun id' x' hx' hproject' => ?_)
      refine (hat.fact id' x' hx' hproject').imp_right fun hmember => ?_
      refine List.mem_of_ne_of_mem ?_ hmember
      rintro rfl
      rw [hx] at hx'
      cases hx'
      exact hproject hproject'
  -- abortOpenDone
  · rename_i project result
    cases goTo_eq hstep
    refine ⟨{ h with }, .leave ?_, .giveBack (hat.creates rfl), rfl, .inl rfl, fun _ _ _ => rfl⟩
    cases result <;> rintro _ ⟨⟩
  -- abortSession
  · obtain ⟨x, hx, hstep⟩ := SyncManager.on_eq hstep
    cases goTo_eq hstep
    have hdoes : x.Does (some task) m.now { x with cancelUploads := true } :=
      .withLocks (fun _ _ h => h) (fun _ _ h => h) fun _ _ h => h
    exact .signal h hx
      (.aborting hat.creates rfl rfl rfl rfl rfl ⟨hat.fact.1.put hx hdoes, hat.fact.2⟩)
  -- abortWait
  · obtain ⟨x, hx, hstep⟩ := SyncManager.on_eq hstep
    cases goTo_eq hstep
    exact .stay h { hat with }
  -- abortLock
  · rename_i id terminal after seen
    obtain ⟨x, hx, hstep⟩ := SyncManager.on_eq hstep
    obtain ⟨activity, hwrite, hstep⟩ := Option.bind_eq_some_iff.mp hstep
    cases goTo_eq hstep
    refine ⟨h.put_locks hx .., ?_, .put hx (.write hwrite), rfl, .inl rfl, fun _ _ _ => rfl⟩
    exact { creates := hat.creates, permit := (by rintro ⟨⟩), reads := (by rintro _ ⟨⟩), cleans := by rintro _ ⟨⟩
            writes := fun _ hp => by
              cases hp
              exact ⟨_, SyncManager.put_store_self .., RwLock.isWriter_write hwrite⟩
            fact := ⟨hat.fact.1.put hx (.write hwrite), hat.fact.2⟩ }
  -- abortDecide
  · obtain ⟨x, hx, hstep⟩ := SyncManager.on_eq hstep
    exact abortDecide_good h hat hx hstep
  -- abortNotified
  · obtain ⟨x, hx, hstep⟩ := SyncManager.on_eq hstep
    split at hstep
    · cases goTo_eq hstep
      exact .stay h { hat with }
    · cases hstep
  -- abortNotify
  · rename_i id result after
    obtain ⟨x, hx, hstep⟩ := SyncManager.on_eq hstep
    cases goTo_eq hstep
    have hdoes : x.Does (some task) m.now
      (x.withLocks (x.activity.release task) x.cancelUploads (x.notified + 1) x.cleanup) := .release
    exact .release h hx (AbortThen.next_at hat.creates (hat.fact.1.put hx hdoes)
      (hat.fact.2.mono (.put hx hdoes)))
  · cases hstep

/-! ## The steps of `cleanup_session` and `prune_results` -/

theorem CleanupThen.Fact.put {id : Uuid} {x y : SyncSession} {after : CleanupThen}
    (h : after.Fact m id) (hx : m.store id = some x) (hxy : x.Does (some task) m.now y) :
    after.Fact (m.put id y) id :=
  CleanupThen.Fact.mono h (.put hx hxy) fun _ => SyncManager.put_none hx

theorem CleanupThen.Fact.settled {id : Uuid} {after : CleanupThen} (h : after.Fact m id) :
    m.Has id (·.state.live = false) := by
  cases after with
  | abort => exact h.2
  | commit =>
      obtain ⟨x, hx, happlied, -⟩ := h
      exact ⟨x, hx, happlied.settled⟩
  | reap => exact h

/-- `cleanup_session` goes back to its caller. -/
theorem CleanupThen.next_at {id : Uuid} {result : Except AppError Unit} {after : CleanupThen}
    (hcreates : after.creates = true → m.creating = some task)
    (hwrites : ∀ id', after.writes id = some id' → m.Has id' (·.activity.isWriter task = true))
    (hfact : after.Fact m id) (hcleaned : m.Cleaned id result) :
    (after.next id result).At task m := by
  cases after with
  | abort after =>
      exact { creates := hcreates, permit := (by rintro ⟨⟩), writes := hwrites, reads := by rintro _ ⟨⟩
              cleans := (by rintro _ ⟨⟩), fact := ⟨hfact.1, hcleaned⟩ }
  | commit outcome => exact .plain rfl rfl rfl rfl rfl hfact
  | reap => exact .plain rfl rfl rfl rfl rfl trivial

/-- Recording a removal touches one session and the counter. -/
theorem SyncManager.recordCleanup_eq (m : SyncManager) (id : Uuid) (x : SyncSession)
    (result : Except AppError Unit) :
    ∃ n y, m.recordCleanup id x result = { m with cleanupDegraded := n }.put id y ∧
      y.activity = x.activity ∧ y.cleanup = x.cleanup ∧ y.state = x.state ∧
      (result = .ok () → y.cleanupPending = false) := by
  cases result with
  | ok =>
      simp only [SyncManager.recordCleanup]
      split
      · exact ⟨_, _, rfl, rfl, rfl, rfl, fun _ => rfl⟩
      · exact ⟨m.cleanupDegraded, _, rfl, rfl, rfl, rfl, fun _ => rfl⟩
  | error =>
      simp only [SyncManager.recordCleanup]
      split
      · exact ⟨_, _, rfl, rfl, rfl, rfl, (by rintro ⟨⟩)⟩
      · exact ⟨m.cleanupDegraded, _, rfl, rfl, rfl, rfl, (by rintro ⟨⟩)⟩

theorem cleanupStep_good (h : m.Sound) (hat : p.At task m)
    (hstep : m.cleanupStep task p c = some o) : Step.Good task m p o := by
  unfold SyncManager.cleanupStep at hstep
  split at hstep
  -- cleanup
  · rename_i id after
    obtain ⟨x, hx, hstep⟩ := SyncManager.on_eq hstep
    split at hstep
    · rename_i hfree
      cases goTo_eq hstep
      have hdoes : x.Does (some task) m.now { x with cleanup := some task } :=
        .withLocks (fun _ _ h => h) (fun _ _ h => h) fun n _ h => by
          rw [h] at hfree
          cases hfree
      refine ⟨h.put_locks hx .., ?_, .put hx hdoes, rfl, .inl rfl, fun _ _ _ => rfl⟩
      exact { creates := hat.creates, permit := (by rintro ⟨⟩), reads := by rintro _ ⟨⟩
              writes := fun id' hp => (hat.writes id' hp).put hx fun hwriter => hwriter
              cleans := fun _ hp => by
                cases hp
                exact ⟨_, SyncManager.put_store_self .., rfl⟩
              fact := hat.fact.put hx hdoes }
    · cases hstep
  -- cleanupCheck
  · rename_i id after
    obtain ⟨x, hx, hstep⟩ := SyncManager.on_eq hstep
    obtain ⟨x', hx', hlive⟩ := CleanupThen.Fact.settled hat.fact
    rw [hx] at hx'
    cases hx'
    split at hstep
    · rename_i hpending
      cases goTo_eq hstep
      exact .stay h { hat with fact := ⟨hat.fact, x, hx, hlive, hpending⟩ }
    · rename_i hpending
      cases goTo_eq hstep
      exact .stay h
        { hat with fact := ⟨hat.fact, fun _ => ⟨x, hx, hlive, (Bool.not_eq_true _).mp hpending⟩⟩ }
  -- cleanupRemove
  · rename_i id after result left
    cases goTo_eq hstep
    obtain ⟨hfact, x, hx, hlive, hpending⟩ := hat.fact
    have hdoes : m.Does (some task) (m.removeStaging id result left) := by
      refine .putStaging fun _ _ hnone => ?_
      rw [hnone]
      split <;> rfl
    refine ⟨h.putStaging fun x' hx' hclean => ?_, ?_, hdoes, rfl, .inl rfl,
      fun hx' hcommitting _ => SyncManager.putStaging_apart (fun x' hx' hstate => ?_) hx' hcommitting⟩
    · rw [hx] at hx'
      cases hx'
      exact absurd (hpending.symm.trans hclean.2) (by rintro ⟨⟩)
    · refine { hat with fact := ⟨CleanupThen.Fact.mono hfact hdoes fun _ _ h => h,
          ⟨x, hx, hlive, hpending⟩, fun hok => ?_⟩ }
      rw [hok]
      exact SyncManager.putStaging_self ..
    · rw [hx] at hx'
      cases hx'
      rw [hstate] at hlive
      cases hlive
  -- cleanupRecord
  · rename_i id result after
    obtain ⟨x, hx, hstep⟩ := SyncManager.on_eq hstep
    cases goTo_eq hstep
    obtain ⟨hfact, ⟨x', hx', hlive, hpending⟩, hgone⟩ := hat.fact
    rw [hx] at hx'
    cases hx'
    obtain ⟨x', hx', hcleaner⟩ := hat.cleans id rfl
    rw [hx] at hx'
    cases hx'
    have hdoes : m.Does (some task) (m.recordCleanup id x result) := .recordCleanup hx hcleaner
    have hsound := h.recordCleanup hx hlive hpending hgone
    obtain ⟨n, y, heq, hactivity, hcleanup, hstate, hclean⟩ := m.recordCleanup_eq id x result
    rw [heq] at hdoes hsound ⊢
    have hself : ({ m with cleanupDegraded := n }.put id y).store id = some y :=
      SyncManager.put_store_self ..
    refine ⟨hsound, ?_, hdoes, rfl, .inl rfl, fun _ _ _ => rfl⟩
    exact { creates := hat.creates, permit := (by rintro ⟨⟩), reads := by rintro _ ⟨⟩
            writes := fun id' hp => by
              refine SyncManager.Has.put (m := { m with cleanupDegraded := n }) (hat.writes id' hp)
                hx fun hwriter => ?_
              rw [hactivity]
              exact hwriter
            cleans := fun _ hp => by
              cases hp
              exact ⟨y, hself, hcleanup.trans hcleaner⟩
            fact := ⟨CleanupThen.Fact.mono hfact hdoes fun _ =>
                SyncManager.put_none (m := { m with cleanupDegraded := n }) hx,
              fun hok => ⟨y, hself, by rw [hstate]; exact hlive, hclean hok⟩⟩ }
  -- cleanupDone
  · rename_i id result after
    obtain ⟨x, hx, hstep⟩ := SyncManager.on_eq hstep
    cases goTo_eq hstep
    obtain ⟨hfact, hcleaned⟩ := hat.fact
    obtain ⟨x', hx', hcleaner⟩ := hat.cleans id rfl
    rw [hx] at hx'
    cases hx'
    have hdoes : x.Does (some task) m.now { x with cleanup := none } :=
      .withLocks (fun _ _ h => h) (fun _ _ h => h)
        fun n hne hn => absurd (hcleaner.symm.trans hn) hne
    exact ⟨h.put_locks hx .., CleanupThen.next_at hat.creates
      (fun id' hp => (hat.writes id' hp).put hx fun hwriter => hwriter) (hfact.put hx hdoes)
      (hcleaned.mono (.put hx hdoes)), .put hx hdoes, rfl, .inl rfl, fun _ _ _ => rfl⟩
  · cases hstep

/-- `prune_results` goes back to its caller. -/
theorem PruneThen.next_at {after : PruneThen}
    (hcreates : after.creates = true → m.creating = some task)
    (hwrites : ∀ id, after.writes = some id → m.Has id (·.activity.isWriter task = true))
    (hcleans : ∀ id, after.cleans = some id → m.Has id (·.cleanup = some task))
    (hfact : after.Fact m) : after.next.At task m := by
  cases after with
  | plan => exact .creating (hcreates rfl) rfl rfl rfl rfl trivial
  | cleanup id result after =>
      exact { creates := hcreates, permit := (by rintro ⟨⟩), writes := hwrites, reads := by rintro _ ⟨⟩
              cleans := hcleans, fact := hfact }
  | reap => exact .plain rfl rfl rfl rfl rfl trivial

theorem pruneStep_good (h : m.Sound) (hat : p.At task m) (hstep : m.pruneStep p c = some o) :
    Step.Good task m p o := by
  unfold SyncManager.pruneStep at hstep
  split at hstep
  -- prune
  · cases goTo_eq hstep
    exact .stay h { hat with fact := ⟨hat.fact, (by rintro _ ⟨⟩)⟩ }
  -- pruneScan
  · cases goTo_eq hstep
    exact .stay h { hat with }
  · rename_i id rest finished after
    obtain ⟨x, hx, hstep⟩ := SyncManager.on_eq hstep
    split at hstep
    · rename_i since hsince
      split at hstep
      · rename_i hclean
        rw [Bool.and_eq_true, Bool.not_eq_true', Bool.not_eq_true'] at hclean
        cases goTo_eq hstep
        refine .stay h { hat with fact := ⟨hat.fact.1, fun entry hentry => ?_⟩ }
        obtain rfl | hentry := List.mem_cons.mp hentry
        · exact ⟨x, hx, hclean.2, hclean.1⟩
        · exact hat.fact.2 entry hentry
      · cases goTo_eq hstep
        exact .stay h { hat with }
    · cases goTo_eq hstep
      exact .stay h { hat with }
  -- pruneRemove
  · rename_i finished after
    cases goTo_eq hstep
    have hkeep : ∀ id x, m.store id = some x → ¬ x.clean →
        (!(m.pruned finished).contains id) = true := by
      intro id x hx hclean
      rw [Bool.not_eq_true', List.contains_eq_mem, decide_eq_false_iff_not]
      intro hmember
      obtain ⟨entry, hentry, rfl⟩ := SyncManager.mem_pruned hmember
      obtain ⟨x', hx', hclean'⟩ := hat.fact.2 entry hentry
      rw [hx] at hx'
      cases hx'
      exact hclean hclean'
    have hdoes : m.Does (some task) { m with sessions := m.sessions.filter _ } := .prune hkeep
    exact ⟨h.prune hkeep, PruneThen.next_at hat.creates hat.writes hat.cleans
      (PruneThen.Fact.mono hat.fact.1 hdoes fun _ _ h => h), hdoes, rfl, .inl rfl, fun _ _ _ => rfl⟩
  · cases hstep

/-! ## The steps of `reap`, `cleanup_orphans` and `shutdown` -/

theorem reapStep_good (h : m.Sound) (hstep : m.reapStep p c = some o) : Step.Good task m p o := by
  unfold SyncManager.reapStep at hstep
  split at hstep
  -- reap
  · cases goTo_eq hstep
    exact .stay h (.plain rfl rfl rfl rfl rfl trivial)
  -- reapNext
  · cases goTo_eq hstep
    exact .stay h (.plain rfl rfl rfl rfl rfl trivial)
  · rename_i id rest first
    obtain ⟨x, hx, hstep⟩ := SyncManager.on_eq hstep
    split at hstep
    · split at hstep
      · cases goTo_eq hstep
        exact .stay h (.plain rfl rfl rfl rfl rfl ⟨trivial, .inr rfl⟩)
      · cases goTo_eq hstep
        exact .stay h (.plain rfl rfl rfl rfl rfl trivial)
    · rename_i hopen
      split at hstep
      · cases goTo_eq hstep
        exact .stay h (.plain rfl rfl rfl rfl rfl trivial)
      · rename_i hcommitting
        cases goTo_eq hstep
        exact .stay h (.plain rfl rfl rfl rfl rfl
          ⟨x, hx, SyncSessionStatus.live_eq_false hopen hcommitting⟩)
  -- reapReport
  · split at hstep
    · cases goTo_eq hstep
      exact ⟨{ h with }, .leave (by rintro _ ⟨⟩), { (SyncManager.Does.refl : m.Does (some task) m) with }, rfl, .inl rfl, fun _ _ _ => rfl⟩
    · cases goTo_eq hstep
      exact ⟨{ h with }, .leave (by rintro _ ⟨⟩), { (SyncManager.Does.refl : m.Does (some task) m) with }, rfl, .inl rfl, fun _ _ _ => rfl⟩
  · cases hstep

theorem orphansStep_good (h : m.Sound) (hat : p.At task m)
    (hstep : m.orphansStep task p c = some o) : Step.Good task m p o := by
  unfold SyncManager.orphansStep at hstep
  split at hstep
  -- orphans
  · split at hstep
    · rename_i hfree
      cases goTo_eq hstep
      exact ⟨{ h with }, .creating rfl rfl rfl rfl rfl trivial, .create hfree, rfl, .inl rfl, fun _ _ _ => rfl⟩
    · cases hstep
  -- orphansSlot
  · split at hstep
    · rename_i havailable
      cases goTo_eq hstep
      exact .stay h (.creating (hat.creates rfl) rfl rfl rfl rfl havailable)
    · cases goTo_eq hstep
      exact .stay h (.creating (hat.creates rfl) rfl rfl rfl rfl trivial)
  -- orphansRemove
  · rename_i id result left
    cases goTo_eq hstep
    have havailable : m.slot = .available := hat.fact
    have hdoes : m.Does (some task) (m.removeStaging id result left) := by
      refine .putStaging fun _ _ hnone => ?_
      rw [hnone]
      split <;> rfl
    refine ⟨h.putStaging fun x hx hclean => ?_, ?_, hdoes, rfl, .inl rfl,
      fun hx hcommitting _ => SyncManager.putStaging_apart (fun x hx hstate => ?_) hx hcommitting⟩
    · rw [h.removed hx hclean]
      split <;> rfl
    · split
      · exact .creating (hat.creates rfl) rfl rfl rfl rfl havailable
      · exact .creating (hat.creates rfl) rfl rfl rfl rfl trivial
    · -- a plan being applied holds the permit
      have hslot := (h.permit hx).mp (by rw [hstate]; rfl)
      rw [havailable] at hslot
      cases hslot
  · cases goTo_eq hstep
    exact .stay h (.creating (hat.creates rfl) rfl rfl rfl rfl trivial)
  -- orphansDone
  · rename_i result
    cases goTo_eq hstep
    refine ⟨{ h with }, .leave ?_, .giveBack (hat.creates rfl), rfl, .inl rfl, fun _ _ _ => rfl⟩
    cases result <;> rintro _ ⟨⟩
  · cases hstep

/-- A shutdown signals every registered session. -/
theorem SyncManager.cancelAll_store {id : Uuid} {x : SyncSession} (hx : m.store id = some x) :
    ∃ cancelUploads, m.cancelAll.store id =
      some (x.withLocks x.activity cancelUploads x.notified x.cleanup) := by
  simp only [SyncManager.cancelAll, hx, Option.map_some]
  by_cases hmember : m.sessions.contains id = true
  · exact ⟨true, by rw [if_pos hmember]⟩
  · exact ⟨x.cancelUploads, by rw [if_neg hmember]⟩

theorem SyncManager.cancelAll_none {id : Uuid} :
    m.cancelAll.store id = none ↔ m.store id = none := Option.map_eq_none_iff

theorem SyncManager.Sound.cancelAll (h : m.Sound) : m.cancelAll.Sound := by
  have hback : ∀ {id y}, m.cancelAll.store id = some y → ∃ x cancelUploads, m.store id = some x ∧
      y = x.withLocks x.activity cancelUploads x.notified x.cleanup := by
    intro id y hy
    cases hx : m.store id with
    | none =>
        rw [SyncManager.cancelAll_none.mpr hx] at hy
        cases hy
    | some x =>
        obtain ⟨cancelUploads, hx'⟩ := SyncManager.cancelAll_store hx
        rw [hx'] at hy
        cases hy
        exact ⟨x, cancelUploads, rfl, rfl⟩
  constructor
  case session =>
    intro id y hy
    obtain ⟨x, cancelUploads, hx, rfl⟩ := hback hy
    exact (h.session hx).withLocks ..
  case known => exact fun hmember hnone => h.known hmember (SyncManager.cancelAll_none.mp hnone)
  case nodup => exact h.nodup
  case registered =>
    intro id y hy hclean
    obtain ⟨x, cancelUploads, hx, rfl⟩ := hback hy
    exact h.registered hx hclean
  case degraded =>
    show m.cleanupDegraded = m.sessions.countP _
    rw [h.degraded]
    refine List.countP_congr fun id _ => ?_
    cases hx : m.store id with
    | none => simp only [failing, hx, SyncManager.cancelAll_none.mpr hx]
    | some x =>
        obtain ⟨cancelUploads, hx'⟩ := SyncManager.cancelAll_store hx
        simp only [failing, hx, hx', Option.any_some]
  case permit =>
    intro id y hy
    obtain ⟨x, cancelUploads, hx, rfl⟩ := hback hy
    have hpermit := h.permit hx
    exact hpermit
  case permitKnown => exact fun hslot hnone => h.permitKnown hslot (SyncManager.cancelAll_none.mp hnone)
  case removed =>
    intro id y hy hclean
    obtain ⟨x, cancelUploads, hx, rfl⟩ := hback hy
    exact h.removed hx hclean

theorem SyncManager.Does.cancelAll : m.Does (some task) m.cancelAll where
  __ := (SyncManager.Does.refl : m.Does (some task) m)
  session {id x} hx := by
    obtain ⟨cancelUploads, hx'⟩ := SyncManager.cancelAll_store hx
    exact ⟨_, hx', .withLocks (fun _ _ h => h) (fun _ _ h => h) fun _ _ h => h⟩
  fresh hx := .inl (SyncManager.cancelAll_none.mpr hx)

theorem shutdownStep_good (h : m.Sound) (hstep : m.shutdownStep p c = some o) :
    Step.Good task m p o := by
  unfold SyncManager.shutdownStep at hstep
  split at hstep
  -- shutdown
  · cases goTo_eq hstep
    exact ⟨{ h with }, .plain rfl rfl rfl rfl rfl trivial,
      { (SyncManager.Does.refl : m.Does (some task) m) with }, rfl, .inl rfl, fun _ _ _ => rfl⟩
  -- shutdownCancel
  · cases goTo_eq hstep
    exact ⟨h.cancelAll, .plain rfl rfl rfl rfl rfl trivial, .cancelAll, rfl, .inl rfl, fun _ _ _ => rfl⟩
  -- shutdownDrain
  · split at hstep
    · cases goTo_eq hstep
      exact .stay h (.plain rfl rfl rfl rfl rfl trivial)
    · cases hstep
  -- shutdownSnapshot
  · cases goTo_eq hstep
    exact .stay h (.plain rfl rfl rfl rfl rfl trivial)
  -- shutdownNext
  · cases goTo_eq hstep
    exact .stay h (.plain rfl rfl rfl rfl rfl trivial)
  · cases goTo_eq hstep
    exact .stay h (.plain rfl rfl rfl rfl rfl ⟨trivial, .inl rfl⟩)
  · cases hstep

theorem leaveStep_good (h : m.Sound) (hat : p.At task m) (hstep : m.leaveStep task p c = some o) :
    Step.Good task m p o := by
  unfold SyncManager.leaveStep at hstep
  split at hstep
  · rename_i answer
    cases goTo_eq hstep
    refine ⟨{ h with }, .plain rfl rfl rfl rfl rfl ?_,
      { (SyncManager.Does.refl : m.Does (some task) m) with }, rfl, .inl rfl, fun _ _ _ => rfl⟩
    have hfact := hat.fact
    rcases answer with - | (response | response | response | response | response | -)
    case ok.plan => exact hfact
    all_goals trivial
  · cases hstep

/-- Every step of a call is as the outline asks. -/
theorem exec_good (h : m.Sound) (hat : p.At task m) (hstep : m.exec task c p = some o) :
    Step.Good task m p o := by
  cases p with
  | plan | planPermit | planWork | planStaging | planCheck | planReject | planInsert
  | planRefused => exact planStep_good h hat hstep
  | lookup | lookupProject | statusRead => exact lookupStep_good h hstep
  | uploadLock | uploadCheck | uploadPrepare | uploadBody | uploadReplace | uploadRecord
  | uploadFailed => exact uploadStep_good h hat hstep
  | commitLock | commitDecide | commitStart | commitApply | commitSettle | commitNotify | commitWait
  | commitLook | commitNotified => exact commitStep_good h hat hstep
  | abortState | abortOpen | abortOpenSnapshot | abortOpenNext | abortOpenDone | abortSession
  | abortWait | abortLock | abortDecide | abortNotified | abortNotify =>
      exact abortStep_good h hat hstep
  | cleanup | cleanupCheck | cleanupRemove | cleanupRecord | cleanupDone =>
      exact cleanupStep_good h hat hstep
  | prune | pruneScan | pruneRemove => exact pruneStep_good h hat hstep
  | reap | reapNext | reapReport => exact reapStep_good h hstep
  | orphans | orphansSlot | orphansRemove | orphansDone => exact orphansStep_good h hat hstep
  | shutdown | shutdownCancel | shutdownDrain | shutdownSnapshot | shutdownNext =>
      exact shutdownStep_good h hstep
  | leave => exact leaveStep_good h hat hstep
  | done => cases hstep

/-- A call that enters holds nothing. -/
theorem entry_at {b : Bool} (h : p.entry = some b) : p.At task m := by
  cases p with
  | plan | abortOpen | reap | orphans | shutdown | lookup => exact .plain rfl rfl rfl rfl rfl trivial
  | _ => cases h

end Steps

/-! ## The outline -/

/-- The proof outline of the manager. -/
def outline : Tasks.Outline program where
  Inv := SyncManager.Sound
  At task m p := p.At task m
  Idle := SyncManager.Idle
  Does mover _ := SyncManager.Does mover
  enter {task s p s'} h _ henter := by
    obtain ⟨b, hentry, hsound, hdoes⟩ : ∃ b, p.entry = some b ∧ s'.Sound ∧ s.Does (some task) s' := by
      simp only [program, SyncManager.enter] at henter
      split at henter
      · rename_i hentry
        split at henter
        · cases henter
        · cases henter
          exact ⟨true, hentry, { h with }, { (SyncManager.Does.refl : s.Does (some task) s) with }⟩
      · rename_i hentry
        cases henter
        exact ⟨false, hentry, h, .refl⟩
      · cases henter
    exact ⟨hsound, entry_at hentry, hdoes⟩
  exec h hat hexec _ := by
    have hgood := exec_good h hat hexec
    refine ⟨hgood.sound, hgood.place, hgood.does, fun q hq => ?_⟩
    rw [hgood.child] at hq
    cases hq
  env {e s s'} h henv := by
    cases e with
    | tick elapsed =>
        cases henv
        exact ⟨{ h with }, { (SyncManager.Does.refl : s.Does none s) with
          clock := Nat.le_add_right ..
          session := fun hx => ⟨_, hx, .refl⟩ }⟩
  stable _ _ hdoes hne _ hat := hat.mono hdoes hne
  idle hdoes hne _ hidle := hidle.mono hdoes hne

theorem start_sound (config : Config) (staging : Uuid → Option Staging) :
    (SyncManager.start config staging).Sound where
  session := by rintro _ _ ⟨⟩
  known := by rintro _ ⟨⟩
  nodup := List.nodup_nil
  registered := by rintro _ _ ⟨⟩
  degraded := rfl
  permit := by rintro _ _ ⟨⟩
  permitKnown := by rintro _ ⟨⟩
  removed := by rintro _ _ ⟨⟩

/-- The outline holds in every state of every run. -/
theorem holds_of_run {config : Config} {staging : Uuid → Option Staging} {ok : Action → Sys → Prop}
    {s : Sys} (hrun : StepSystem.Run program.step ok (Sys.start config staging) s) :
    outline.Holds s :=
  outline.run_holds hrun (outline.start_holds (start_sound config staging) fun _ => ⟨(by rintro ⟨⟩), (by rintro _ _ ⟨⟩)⟩)

end VivadoServer.Sync
