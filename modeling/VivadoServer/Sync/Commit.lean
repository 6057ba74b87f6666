/-
  VivadoServer.Sync.Commit

  A plan is applied at most once, on complete uploads, while nobody else touches
  its staging directory; and every commit that completes afterwards answers with
  the outcome of that one application.

  The commits that can answer are those at `commitDecide`, `commitLook`,
  `commitNotify`, and the one that found the plan expired.  The last cannot meet
  an applied plan: once a plan is past its deadline no commit takes it out of Open.
-/

import VivadoServer.Sync.Store

namespace VivadoServer.Sync

open VivadoServer.History (Uuid)
open StepSystem

/-- The plan a commit works on, from the moment its lookup succeeded. -/
def AbortThen.committing : AbortThen → Bool
  | .expired => true
  | _ => false

def CleanupThen.committing : CleanupThen → Bool
  | .abort after => after.committing
  | .commit _ => true
  | .reap .. => false

def PruneThen.committing : PruneThen → Option Uuid
  | .cleanup id _ after => if after.committing then some id else none
  | _ => none

def Place.committing : Place → Option Uuid
  | .commitLock id | .commitDecide id | .commitStart id _ | .commitApply id _ | .commitSettle id _
  | .commitNotify id _ | .commitWait id | .commitLook id _ | .commitNotified id _ => some id
  | .abortSession id _ after | .abortWait id _ after | .abortLock id _ after _
  | .abortDecide id _ after _ | .abortNotified id _ after _ | .abortNotify id _ after =>
    if after.committing then some id else none
  | .cleanup id after | .cleanupCheck id after | .cleanupRemove id after
  | .cleanupRecord id _ after | .cleanupDone id _ after => if after.committing then some id else none
  | .prune after | .pruneScan _ _ after | .pruneRemove _ after => after.committing
  | _ => none

/-- The call is still looking its plan up. -/
def Place.looks : Place → Bool
  | .lookup .. | .lookupProject .. => true
  | _ => false

/-- The call commits the plan under its project. -/
def Place.commits (project : String) (id : Uuid) : Place → Bool
  | .lookup project' id' .commit | .lookupProject project' id' .commit =>
    project' = project ∧ id' = id
  | p => p.committing = some id

section Commit

variable {m : SyncManager} {task : Nat} {p : Place} {c : Choice}
  {o : Tasks.Outcome SyncManager Place} {answer : Answered} {id : Uuid} {x : SyncSession}

/-- A commit that decides, looks or notifies answers with the outcome on record. -/
theorem commitStep_answers (h : m.Sound) (hat : p.At task m) (hcommit : p.committing = some id)
    (hstep : m.commitStep task p c = some o) (hplace : o.place = .leave answer)
    (hx : o.shared.store id = some x) (happlied : x.applied) :
    ∃ outcome, x.outcome = some outcome ∧ answer = outcome.map .commit := by
  have hrecord : ∀ {y : SyncSession}, m.store id = some y → y.applied →
      y.outcome = some y.commitResult := fun hy => (h.session hy).commitResult
  unfold SyncManager.commitStep at hstep
  split at hstep
  case h_1 =>
    obtain ⟨y, -, hstep⟩ := SyncManager.on_eq hstep
    obtain ⟨activity, -, hstep⟩ := Option.bind_eq_some_iff.mp hstep
    cases goTo_eq hstep
    cases hplace
  case h_2 id' =>
    obtain rfl : id' = id := Option.some.inj hcommit
    obtain ⟨y, hy, hstep⟩ := SyncManager.on_eq hstep
    simp only [SyncManager.decideCommit] at hstep
    -- only the locks of the session change
    have hsame : ∀ {activity : RwLock},
        (m.put id' { y with activity }).store id' = some x → { y with activity } = x :=
      fun hx => Option.some.inj ((SyncManager.put_store_self ..).symm.trans hx)
    split at hstep
    · cases goTo_eq hstep
      cases hplace
    · rename_i hopen
      split at hstep
      · cases goTo_eq hstep
        cases hplace
      split at hstep
      · cases goTo_eq hstep
        obtain rfl := hsame hx
        obtain hstate | hstate := happlied <;> exact absurd (hopen.symm.trans hstate) (by rintro ⟨⟩)
      · cases goTo_eq hstep
        cases hplace
    · cases goTo_eq hstep
      obtain rfl := hsame hx
      obtain rfl := Place.leave.inj hplace
      have houtcome := hrecord hy (show y.applied from happlied)
      exact ⟨y.commitResult, houtcome, rfl⟩
  case h_3 | h_6 | h_8 =>
    obtain ⟨y, -, hstep⟩ := SyncManager.on_eq hstep
    cases goTo_eq hstep
    cases hplace
  case h_4 | h_5 =>
    cases goTo_eq hstep
    cases hplace
  case h_7 id' outcome =>
    obtain rfl : id' = id := Option.some.inj hcommit
    obtain ⟨y, hy, hstep⟩ := SyncManager.on_eq hstep
    cases goTo_eq hstep
    obtain ⟨y', hy', -, houtcome⟩ := hat.fact
    rw [hy] at hy'
    cases hy'
    obtain rfl := Option.some.inj ((SyncManager.put_store_self ..).symm.trans hx)
    obtain rfl := Place.leave.inj hplace
    exact ⟨outcome, houtcome, rfl⟩
  case h_9 id' _ =>
    obtain rfl : id' = id := Option.some.inj hcommit
    obtain ⟨y, hy, hstep⟩ := SyncManager.on_eq hstep
    split at hstep
    · cases goTo_eq hstep
      cases hplace
    · cases goTo_eq hstep
      obtain rfl := Option.some.inj (hy.symm.trans hx)
      obtain rfl := Place.leave.inj hplace
      exact ⟨_, hrecord hy happlied, rfl⟩
  case h_10 =>
    obtain ⟨y, -, hstep⟩ := SyncManager.on_eq hstep
    split at hstep
    · cases goTo_eq hstep
      cases hplace
    · cases hstep
  case h_11 => cases hstep

/-- The commit that found the plan expired never ends on an applied plan. -/
theorem abortStep_lapsed (hat : p.At task m) (hcommit : p.committing = some id)
    (hstep : m.abortStep task p c = some o) (hplace : o.place = .leave answer)
    (hx : o.shared.store id = some x) : ¬ x.applied := by
  unfold SyncManager.abortStep at hstep
  split at hstep
  case h_1 | h_2 | h_3 | h_4 | h_5 | h_6 => cases hcommit
  case h_7 | h_8 =>
    obtain ⟨y, -, hstep⟩ := SyncManager.on_eq hstep
    cases goTo_eq hstep
    cases hplace
  case h_9 =>
    obtain ⟨y, -, hstep⟩ := SyncManager.on_eq hstep
    obtain ⟨activity, -, hstep⟩ := Option.bind_eq_some_iff.mp hstep
    cases goTo_eq hstep
    cases hplace
  case h_10 =>
    obtain ⟨y, -, hstep⟩ := SyncManager.on_eq hstep
    unfold SyncManager.decideAbort at hstep
    split at hstep <;> cases goTo_eq hstep <;> cases hplace
  case h_11 =>
    obtain ⟨y, -, hstep⟩ := SyncManager.on_eq hstep
    split at hstep
    · cases goTo_eq hstep
      cases hplace
    · cases hstep
  case h_12 id' result after =>
    cases after with
    | expired =>
        obtain rfl : id' = id := Option.some.inj hcommit
        obtain ⟨y, hy, hstep⟩ := SyncManager.on_eq hstep
        cases goTo_eq hstep
        obtain ⟨⟨y', hy', hlapsed⟩, -⟩ := hat.fact
        rw [hy] at hy'
        cases hy'
        obtain rfl := Option.some.inj ((SyncManager.put_store_self ..).symm.trans hx)
        exact hlapsed.2.2
    | _ => cases hcommit
  case h_13 => cases hstep

/-- Cleaning up and pruning lead back to the call. -/
theorem cleanupStep_stays (hstep : m.cleanupStep task p c = some o) : o.place ≠ .leave answer := by
  unfold SyncManager.cleanupStep at hstep
  split at hstep
  case h_1 =>
    obtain ⟨y, -, hstep⟩ := SyncManager.on_eq hstep
    split at hstep
    · cases goTo_eq hstep
      rintro ⟨⟩
    · cases hstep
  case h_2 =>
    obtain ⟨y, -, hstep⟩ := SyncManager.on_eq hstep
    split at hstep <;> cases goTo_eq hstep <;> rintro ⟨⟩
  case h_3 =>
    cases goTo_eq hstep
    rintro ⟨⟩
  case h_4 =>
    obtain ⟨y, -, hstep⟩ := SyncManager.on_eq hstep
    cases goTo_eq hstep
    rintro ⟨⟩
  case h_5 id result after =>
    obtain ⟨y, -, hstep⟩ := SyncManager.on_eq hstep
    cases goTo_eq hstep
    cases after <;> rintro ⟨⟩
  case h_6 => cases hstep

theorem pruneStep_stays (hstep : m.pruneStep p c = some o) : o.place ≠ .leave answer := by
  unfold SyncManager.pruneStep at hstep
  split at hstep
  case h_1 | h_2 =>
    cases goTo_eq hstep
    rintro ⟨⟩
  case h_3 =>
    obtain ⟨y, -, hstep⟩ := SyncManager.on_eq hstep
    split at hstep
    · split at hstep <;> cases goTo_eq hstep <;> rintro ⟨⟩
    · cases goTo_eq hstep
      rintro ⟨⟩
  case h_4 finished after =>
    cases goTo_eq hstep
    cases after <;> rintro ⟨⟩
  case h_5 => cases hstep

/-- A registered plan is found under its project. -/
theorem lookupStep_finds {project : String} (hlooks : p.looks = true)
    (hcommits : p.commits project id = true) (hregistered : id ∈ m.sessions)
    (hx : m.store id = some x) (hproject : x.project = project)
    (hstep : m.lookupStep p c = some o) : o.place ≠ .leave answer := by
  unfold SyncManager.lookupStep at hstep
  split at hstep
  case h_1 project' id' after =>
    cases after with
    | commit =>
        obtain ⟨rfl, rfl⟩ : project' = project ∧ id' = id := by simpa [Place.commits] using hcommits
        rw [if_pos (List.contains_iff_mem.mpr hregistered)] at hstep
        cases goTo_eq hstep
        rintro ⟨⟩
    | _ => cases hcommits
  case h_2 project' id' after =>
    cases after with
    | commit =>
        obtain ⟨rfl, rfl⟩ : project' = project ∧ id' = id := by simpa [Place.commits] using hcommits
        obtain ⟨y, hy, hstep⟩ := SyncManager.on_eq hstep
        obtain rfl := Option.some.inj (hx.symm.trans hy)
        rw [if_pos hproject] at hstep
        cases goTo_eq hstep
        rintro ⟨⟩
    | _ => cases hcommits
  case h_3 => cases hlooks
  case h_4 => cases hstep

/-- A commit that ends on an applied plan answers with the outcome of the application. -/
theorem exec_answers {project : String} (h : m.Sound) (hat : p.At task m)
    (hcommits : p.commits project id = true) (hregistered : p.looks = true → id ∈ m.sessions)
    (hstep : m.exec task c p = some o) (hplace : o.place = .leave answer)
    (hx : o.shared.store id = some x) (hproject : x.project = project) (happlied : x.applied) :
    ∃ outcome, x.outcome = some outcome ∧ answer = outcome.map .commit := by
  have hlooks : p.looks = true → m.lookupStep p c = some o → False := by
    intro hlooks hlookup
    have hmember := hregistered hlooks
    obtain ⟨y, hy⟩ := Option.ne_none_iff_exists'.mp (h.known hmember)
    obtain ⟨x', hx', hxy⟩ := (exec_good h hat hstep).does.session hy
    rw [hx] at hx'
    cases hx'
    exact lookupStep_finds hlooks hcommits hmember hy (hxy.project ▸ hproject) hlookup hplace
  have hcommit : p.looks = false → p.committing = some id := by
    intro hlooks
    cases p with
    | lookup | lookupProject => cases hlooks
    | _ => exact of_decide_eq_true hcommits
  cases p with
  | lookup | lookupProject => exact (hlooks rfl hstep).elim
  | commitLock | commitDecide | commitStart | commitApply | commitSettle | commitNotify | commitWait
  | commitLook | commitNotified =>
      exact commitStep_answers h hat (hcommit rfl) hstep hplace hx happlied
  | abortSession | abortWait | abortLock | abortDecide | abortNotified | abortNotify =>
      exact absurd happlied (abortStep_lapsed hat (hcommit rfl) hstep hplace hx)
  | cleanup | cleanupCheck | cleanupRemove | cleanupRecord | cleanupDone =>
      exact absurd hplace (cleanupStep_stays hstep)
  | prune | pruneScan | pruneRemove => exact absurd hplace (pruneStep_stays hstep)
  | _ => cases hcommit rfl

/-- No plan is applied by the step. -/
def SyncManager.SameCounts (m m' : SyncManager) : Prop :=
  ∀ id x, m.store id = some x → m'.Has id (·.applications = x.applications)

/-- A step that leaves the sessions alone. -/
theorem SyncManager.SameCounts.same {m' : SyncManager} (h : m'.store = m.store) :
    m.SameCounts m' := fun _ x hx => ⟨x, h ▸ hx, rfl⟩

theorem SyncManager.SameCounts.put {y : SyncSession} (hx : m.store id = some x)
    (hy : y.applications = x.applications) : m.SameCounts (m.put id y) := by
  intro id' x' hx'
  by_cases hid : id' = id
  · subst hid
    rw [hx] at hx'
    cases hx'
    exact ⟨y, SyncManager.put_store_self .., hy⟩
  · exact ⟨x', (SyncManager.put_store_other hid).trans hx', rfl⟩

/-- A new plan is not applied yet. -/
theorem SyncManager.SameCounts.insert {y : SyncSession} (hfree : m.store id = none) :
    m.SameCounts (m.put id y) := by
  intro id' x' hx'
  have hid : id' ≠ id := by
    rintro rfl
    rw [hfree] at hx'
    cases hx'
  exact ⟨x', (SyncManager.put_store_other hid).trans hx', rfl⟩

theorem planStep_counts (hat : p.At task m) (hstep : m.planStep task p c = some o) :
    m.SameCounts o.shared := by
  unfold SyncManager.planStep at hstep
  split at hstep
  case h_1 =>
    split at hstep
    · cases goTo_eq hstep
      exact .same rfl
    · cases hstep
  case h_2 => split at hstep <;> cases goTo_eq hstep <;> exact .same rfl
  case h_3 =>
    split at hstep
    · split at hstep
      · cases goTo_eq hstep
        exact .same rfl
      · cases hstep
    · cases goTo_eq hstep
      exact .same rfl
  case h_4 =>
    split at hstep
    · split at hstep <;> cases goTo_eq hstep <;> exact .same rfl
    · cases hstep
  case h_5 => split at hstep <;> cases goTo_eq hstep <;> exact .same rfl
  case h_6 | h_8 =>
    cases goTo_eq hstep
    exact .same rfl
  case h_7 id _ =>
    cases goTo_eq hstep
    have hfree : m.store id = none := hat.fact
    exact SyncManager.SameCounts.insert hfree
  case h_9 => cases hstep

theorem lookupStep_counts (hstep : m.lookupStep p c = some o) : m.SameCounts o.shared := by
  unfold SyncManager.lookupStep at hstep
  split at hstep
  case h_1 => split at hstep <;> cases goTo_eq hstep <;> exact .same rfl
  case h_2 =>
    obtain ⟨y, hy, hstep⟩ := SyncManager.on_eq hstep
    split at hstep <;> cases goTo_eq hstep <;> exact .same rfl
  case h_3 =>
    obtain ⟨y, hy, hstep⟩ := SyncManager.on_eq hstep
    cases goTo_eq hstep
    exact .same rfl
  case h_4 => cases hstep

theorem uploadStep_counts (hstep : m.uploadStep task p c = some o) : m.SameCounts o.shared := by
  unfold SyncManager.uploadStep at hstep
  split at hstep
  case h_1 =>
    obtain ⟨y, hy, hstep⟩ := SyncManager.on_eq hstep
    obtain ⟨activity, -, hstep⟩ := Option.bind_eq_some_iff.mp hstep
    cases goTo_eq hstep
    exact .put hy rfl
  case h_2 =>
    obtain ⟨y, hy, hstep⟩ := SyncManager.on_eq hstep
    split at hstep <;> cases goTo_eq hstep <;> exact .same rfl
  case h_3 | h_4 | h_6 => split at hstep <;> cases goTo_eq hstep <;> exact .same rfl
  case h_5 =>
    obtain ⟨y, hy, hstep⟩ := SyncManager.on_eq hstep
    split at hstep
    · cases goTo_eq hstep
      exact .same rfl
    · cases hstep
  case h_7 =>
    obtain ⟨y, hy, hstep⟩ := SyncManager.on_eq hstep
    split at hstep <;> cases goTo_eq hstep <;> exact .put hy rfl
  case h_8 =>
    obtain ⟨y, hy, hstep⟩ := SyncManager.on_eq hstep
    cases goTo_eq hstep
    exact .put hy rfl
  case h_9 => cases hstep

/-- Apart from `commitStart`, a commit counts no application. -/
theorem commitStep_counts (hother : ∀ id plan, p ≠ .commitStart id plan)
    (hstep : m.commitStep task p c = some o) : m.SameCounts o.shared := by
  unfold SyncManager.commitStep at hstep
  split at hstep
  case h_1 =>
    obtain ⟨y, hy, hstep⟩ := SyncManager.on_eq hstep
    obtain ⟨activity, -, hstep⟩ := Option.bind_eq_some_iff.mp hstep
    cases goTo_eq hstep
    exact .put hy rfl
  case h_2 =>
    obtain ⟨y, hy, hstep⟩ := SyncManager.on_eq hstep
    simp only [SyncManager.decideCommit] at hstep
    split at hstep
    · cases goTo_eq hstep
      exact .put hy rfl
    · split at hstep
      · cases goTo_eq hstep
        exact .put hy rfl
      · split at hstep <;> cases goTo_eq hstep <;> exact .put hy rfl
    · cases goTo_eq hstep
      exact .put hy rfl
  case h_3 => exact absurd rfl (hother _ _)
  case h_4 | h_5 =>
    cases goTo_eq hstep
    exact .same rfl
  case h_6 id outcome =>
    obtain ⟨y, hy, hstep⟩ := SyncManager.on_eq hstep
    cases goTo_eq hstep
    cases outcome <;> exact SyncManager.SameCounts.put hy rfl
  case h_7 =>
    obtain ⟨y, hy, hstep⟩ := SyncManager.on_eq hstep
    cases goTo_eq hstep
    exact .put hy rfl
  case h_8 =>
    obtain ⟨y, hy, hstep⟩ := SyncManager.on_eq hstep
    cases goTo_eq hstep
    exact .same rfl
  case h_9 =>
    obtain ⟨y, hy, hstep⟩ := SyncManager.on_eq hstep
    split at hstep <;> cases goTo_eq hstep <;> exact .same rfl
  case h_10 =>
    obtain ⟨y, hy, hstep⟩ := SyncManager.on_eq hstep
    split at hstep
    · cases goTo_eq hstep
      exact .same rfl
    · cases hstep
  case h_11 => cases hstep

theorem abortStep_counts (hstep : m.abortStep task p c = some o) : m.SameCounts o.shared := by
  unfold SyncManager.abortStep at hstep
  split at hstep
  case h_1 | h_5 =>
    obtain ⟨y, hy, hstep⟩ := SyncManager.on_eq hstep
    split at hstep <;> cases goTo_eq hstep <;> exact .same rfl
  case h_2 =>
    split at hstep
    · cases goTo_eq hstep
      exact .same rfl
    · cases hstep
  case h_3 | h_4 | h_6 =>
    cases goTo_eq hstep
    exact .same rfl
  case h_7 | h_12 =>
    obtain ⟨y, hy, hstep⟩ := SyncManager.on_eq hstep
    cases goTo_eq hstep
    exact .put hy rfl
  case h_8 =>
    obtain ⟨y, hy, hstep⟩ := SyncManager.on_eq hstep
    cases goTo_eq hstep
    exact .same rfl
  case h_9 =>
    obtain ⟨y, hy, hstep⟩ := SyncManager.on_eq hstep
    obtain ⟨activity, -, hstep⟩ := Option.bind_eq_some_iff.mp hstep
    cases goTo_eq hstep
    exact .put hy rfl
  case h_10 =>
    obtain ⟨y, hy, hstep⟩ := SyncManager.on_eq hstep
    unfold SyncManager.decideAbort at hstep
    split at hstep
    · cases goTo_eq hstep
      exact .put hy rfl
    · cases goTo_eq hstep
      exact SyncManager.SameCounts.put hy rfl
    · cases goTo_eq hstep
      exact .same rfl
  case h_11 =>
    obtain ⟨y, hy, hstep⟩ := SyncManager.on_eq hstep
    split at hstep
    · cases goTo_eq hstep
      exact .same rfl
    · cases hstep
  case h_13 => cases hstep

theorem cleanupStep_counts (hstep : m.cleanupStep task p c = some o) : m.SameCounts o.shared := by
  unfold SyncManager.cleanupStep at hstep
  split at hstep
  case h_1 =>
    obtain ⟨y, hy, hstep⟩ := SyncManager.on_eq hstep
    split at hstep
    · cases goTo_eq hstep
      exact .put hy rfl
    · cases hstep
  case h_2 =>
    obtain ⟨y, hy, hstep⟩ := SyncManager.on_eq hstep
    split at hstep <;> cases goTo_eq hstep <;> exact .same rfl
  case h_3 =>
    cases goTo_eq hstep
    exact .same rfl
  case h_4 id result _ =>
    obtain ⟨y, hy, hstep⟩ := SyncManager.on_eq hstep
    cases goTo_eq hstep
    cases result <;> simp only [SyncManager.recordCleanup] <;> split <;>
      exact SyncManager.SameCounts.put hy rfl
  case h_5 =>
    obtain ⟨y, hy, hstep⟩ := SyncManager.on_eq hstep
    cases goTo_eq hstep
    exact .put hy rfl
  case h_6 => cases hstep

theorem pruneStep_counts (hstep : m.pruneStep p c = some o) : m.SameCounts o.shared := by
  unfold SyncManager.pruneStep at hstep
  split at hstep
  case h_1 | h_2 | h_4 =>
    cases goTo_eq hstep
    exact .same rfl
  case h_3 =>
    obtain ⟨y, hy, hstep⟩ := SyncManager.on_eq hstep
    split at hstep
    · split at hstep <;> cases goTo_eq hstep <;> exact .same rfl
    · cases goTo_eq hstep
      exact .same rfl
  case h_5 => cases hstep

theorem reapStep_counts (hstep : m.reapStep p c = some o) : m.SameCounts o.shared := by
  unfold SyncManager.reapStep at hstep
  split at hstep
  case h_1 | h_2 =>
    cases goTo_eq hstep
    exact .same rfl
  case h_3 =>
    obtain ⟨y, hy, hstep⟩ := SyncManager.on_eq hstep
    split at hstep
    · split at hstep <;> cases goTo_eq hstep <;> exact .same rfl
    · split at hstep <;> cases goTo_eq hstep <;> exact .same rfl
  case h_4 => split at hstep <;> cases goTo_eq hstep <;> exact .same rfl
  case h_5 => cases hstep

theorem orphansStep_counts (hstep : m.orphansStep task p c = some o) : m.SameCounts o.shared := by
  unfold SyncManager.orphansStep at hstep
  split at hstep
  case h_1 =>
    split at hstep
    · cases goTo_eq hstep
      exact .same rfl
    · cases hstep
  case h_2 => split at hstep <;> cases goTo_eq hstep <;> exact .same rfl
  case h_3 | h_4 | h_5 =>
    cases goTo_eq hstep
    exact .same rfl
  case h_6 => cases hstep

theorem shutdownStep_counts (hstep : m.shutdownStep p c = some o) : m.SameCounts o.shared := by
  unfold SyncManager.shutdownStep at hstep
  split at hstep
  case h_1 | h_4 | h_5 | h_6 =>
    cases goTo_eq hstep
    exact .same rfl
  case h_2 =>
    cases goTo_eq hstep
    intro id x hx
    obtain ⟨cancelUploads, hx'⟩ := SyncManager.cancelAll_store hx
    exact ⟨_, hx', rfl⟩
  case h_3 =>
    split at hstep
    · cases goTo_eq hstep
      exact .same rfl
    · cases hstep
  case h_7 => cases hstep

/-- Apart from `commitStart`, no step applies a plan. -/
theorem exec_counts (hat : p.At task m) (hother : ∀ id plan, p ≠ .commitStart id plan)
    (hstep : m.exec task c p = some o) : m.SameCounts o.shared := by
  cases p with
  | plan | planPermit | planWork | planStaging | planCheck | planReject | planInsert
  | planRefused => exact planStep_counts hat hstep
  | lookup | lookupProject | statusRead => exact lookupStep_counts hstep
  | uploadLock | uploadCheck | uploadPrepare | uploadBody | uploadReplace | uploadRecord
  | uploadFailed => exact uploadStep_counts hstep
  | commitLock | commitDecide | commitStart | commitApply | commitSettle | commitNotify | commitWait
  | commitLook | commitNotified => exact commitStep_counts hother hstep
  | abortState | abortOpen | abortOpenSnapshot | abortOpenNext | abortOpenDone | abortSession
  | abortWait | abortLock | abortDecide | abortNotified | abortNotify =>
      exact abortStep_counts hstep
  | cleanup | cleanupCheck | cleanupRemove | cleanupRecord | cleanupDone =>
      exact cleanupStep_counts hstep
  | prune | pruneScan | pruneRemove => exact pruneStep_counts hstep
  | reap | reapNext | reapReport => exact reapStep_counts hstep
  | orphans | orphansSlot | orphansRemove | orphansDone => exact orphansStep_counts hstep
  | shutdown | shutdownCancel | shutdownDrain | shutdownSnapshot | shutdownNext =>
      exact shutdownStep_counts hstep
  | leave =>
      cases c with
      | go =>
          cases goTo_eq hstep
          exact .same rfl
      | _ => cases hstep
  | done => cases hstep

/-- Only `commitStart` applies a plan. -/
theorem exec_applies {y : SyncSession} (hat : p.At task m)
    (hstep : m.exec task c p = some o) (hx : m.store id = some x)
    (hy : o.shared.store id = some y) (hcount : y.applications ≠ x.applications) :
    p = .commitStart id x.plan ∧ x.state = .committing ∧ y.applications = x.applications + 1 := by
  by_cases hstart : ∃ id' plan, p = .commitStart id' plan
  · obtain ⟨id', plan', rfl⟩ := hstart
    cases c with
    | go =>
        obtain ⟨x', hx', hstep⟩ := SyncManager.on_eq hstep
        cases goTo_eq hstep
        by_cases hid : id = id'
        · subst hid
          obtain ⟨z, hz, ⟨hstate, -, -⟩, hplan⟩ := hat.fact
          rw [hx] at hx' hz
          cases hx'
          cases hz
          obtain rfl := Option.some.inj ((SyncManager.put_store_self ..).symm.trans hy)
          exact ⟨by rw [hplan], hstate, rfl⟩
        · rw [SyncManager.put_store_other hid, hx] at hy
          cases hy
          exact absurd rfl hcount
    | _ => cases hstep
  · obtain ⟨y', hy', hsame⟩ :=
      exec_counts hat (fun id' plan heq => hstart ⟨id', plan, heq⟩) hstep id x hx
    rw [hy] at hy'
    cases hy'
    exact absurd hsame hcount

end Commit

/-! ## The outcome of a plan -/

/-- No plan is applied twice. -/
def AppliedOnce (s : Sys) : Prop :=
  ∀ id x, s.shared.store id = some x → x.applications ≤ 1

/-- An application starts at `commitStart`, on a Committing plan with all its uploads. -/
def StartsComplete (s : Sys) (a : Action) (t : Sys) : Prop :=
  ∀ id x y, s.shared.store id = some x → t.shared.store id = some y →
    y.applications ≠ x.applications →
      y.applications = x.applications + 1 ∧ x.state = .committing ∧ x.missingUploads = false ∧
        ∃ task answer child, a = .exec task answer child ∧
          s.tasks task = some (.commitStart id x.plan)

/-- While a plan is being applied, nobody else touches its staging directory. -/
def StagingOwned (s : Sys) (a : Action) (t : Sys) : Prop :=
  ∀ task id plan, s.tasks task = some (.commitApply id plan) →
    (∀ answer child, a ≠ .exec task answer child) →
      t.shared.staging id = s.shared.staging id

/-- A commit of the plan that completes with this step answers `outcome`. -/
def Answers (id : Uuid) (project : String) (outcome : Application) (s : Sys) (a : Action)
    (t : Sys) : Prop :=
  ∀ task answer child p answered, a = .exec task answer child → s.tasks task = some p →
    p.commits project id = true → (p.looks = true → id ∈ s.shared.sessions) →
    t.tasks task = some (.leave answered) → answered = outcome.map .commit

/-- What happened to a plan stays as it was. -/
def SameOutcome (s t : SyncManager) : Prop :=
  ∀ id x, s.store id = some x → ∃ y, t.store id = some y ∧ y.project = x.project ∧
    (x.state.live = false → y.state = x.state ∧ y.outcome = x.outcome)

theorem SameOutcome.refl (m : SyncManager) : SameOutcome m m :=
  fun _ x hx => ⟨x, hx, rfl, fun _ => ⟨rfl, rfl⟩⟩

theorem SameOutcome.trans {a b c : SyncManager} (h₁ : SameOutcome a b) (h₂ : SameOutcome b c) :
    SameOutcome a c := by
  intro id x hx
  obtain ⟨y, hy, hproject, hsettled⟩ := h₁ id x hx
  obtain ⟨z, hz, hproject', hsettled'⟩ := h₂ id y hy
  refine ⟨z, hz, hproject'.trans hproject, fun hlive => ?_⟩
  obtain ⟨hstate, houtcome⟩ := hsettled hlive
  obtain ⟨hstate', houtcome'⟩ := hsettled' (hstate ▸ hlive)
  exact ⟨hstate'.trans hstate, houtcome'.trans houtcome⟩

theorem sameOutcome_of_does {mover : Option Nat} {a b : SyncManager} (h : a.Does mover b) :
    SameOutcome a b := by
  intro id x hx
  obtain ⟨y, hy, hxy⟩ := h.session hx
  refine ⟨y, hy, hxy.project, fun hlive => ?_⟩
  obtain ⟨hstate, -, -, houtcome⟩ := hxy.settled hlive
  exact ⟨hstate, houtcome⟩

section Outcome

variable {s t : Sys} {a : Action}

theorem appliedOnce (h : outline.Holds s) : AppliedOnce s := by
  intro id x hx
  have hrecorded := (h.inv.session hx).recorded
  rw [SyncSession.Recorded] at hrecorded
  cases hstate : x.state with
  | «open» | aborted | expired =>
      rw [hstate] at hrecorded
      exact hrecorded.1 ▸ Nat.zero_le 1
  | committing =>
      rw [hstate] at hrecorded
      exact hrecorded.1
  | committed | failed =>
      rw [hstate] at hrecorded
      exact hrecorded.1.le

theorem startsComplete (h : outline.Holds s) (hstep : program.step a s = some t) :
    StartsComplete s a t := by
  intro id x y hx hy hcount
  obtain ⟨task, place, shared, rfl, hfree, henter, rfl⟩ | ⟨task, answer, child, place, o, rfl, hplace,
    hexec, hsettle⟩ | ⟨event, shared, rfl, henv, rfl⟩ := program.step_cases hstep
  · obtain ⟨tracked, rfl⟩ := SyncManager.enter_eq henter
    exact absurd (congrArg SyncSession.applications (Option.some.inj (hy.symm.trans hx))) hcount
  · rw [Tasks.State.settle_shared hsettle] at hy
    obtain ⟨rfl, hstate, hnext⟩ := exec_applies (h.places hplace) hexec hx hy hcount
    refine ⟨hnext, hstate, ?_, task, answer, child, rfl, hplace⟩
    have hrecorded := (h.inv.session hx).recorded
    rw [SyncSession.Recorded, hstate] at hrecorded
    exact hrecorded.2.2.2.2
  · cases event with
    | tick elapsed =>
        cases henv
        exact absurd (congrArg SyncSession.applications (Option.some.inj (hy.symm.trans hx))) hcount

theorem stagingOwned (h : outline.Holds s) (hstep : program.step a s = some t) :
    StagingOwned s a t := by
  intro task id plan hplace hother
  obtain ⟨task', place, shared, rfl, hfree, henter, rfl⟩ | ⟨task', answer, child, place, o, rfl,
    hplace', hexec, hsettle⟩ | ⟨event, shared, rfl, henv, rfl⟩ := program.step_cases hstep
  · obtain ⟨tracked, rfl⟩ := SyncManager.enter_eq henter
    rfl
  · obtain ⟨x, hx, ⟨hstate, hcommitter, -⟩, -⟩ := (h.places hplace).fact
    rw [Tasks.State.settle_shared hsettle]
    refine (exec_good h.inv (h.places hplace') hexec).staging hx hstate ?_
    -- two calls do not apply one plan: both would be its committer
    cases place with
    | commitApply id' plan' =>
        apply decide_eq_false
        rintro rfl
        obtain ⟨x', hx', ⟨-, hcommitter', -⟩, -⟩ := (h.places hplace').fact
        rw [hx] at hx'
        cases hx'
        obtain rfl := Option.some.inj (hcommitter.symm.trans hcommitter')
        exact hother answer child rfl
    | _ => rfl
  · cases event with
    | tick elapsed =>
        cases henv
        rfl

theorem answers {id : Uuid} {x : SyncSession} {outcome : Application} (h : outline.Holds s)
    (hstep : program.step a s = some t) (hx : t.shared.store id = some x) (happlied : x.applied)
    (houtcome : x.outcome = some outcome) : Answers id x.project outcome s a t := by
  rintro task answer child p answered rfl hplace hcommits hregistered hleave
  obtain ⟨p', hp', hstep⟩ := Option.bind_eq_some_iff.mp hstep
  obtain ⟨o, hexec, hsettle⟩ := Option.bind_eq_some_iff.mp hstep
  rw [hplace] at hp'
  cases hp'
  rw [Tasks.State.settle_self hsettle] at hleave
  rw [Tasks.State.settle_shared hsettle] at hx
  obtain ⟨outcome', houtcome', rfl⟩ := exec_answers h.inv (h.places hplace) hcommits hregistered
    hexec (Option.some.inj hleave) hx rfl happlied
  rw [houtcome] at houtcome'
  cases houtcome'
  rfl

end Outcome

/-- A plan is applied at most once, on complete uploads and never after it was
    aborted or expired; its staging directory is left alone meanwhile; and every
    commit that completes on an applied plan answers with the one outcome. -/
theorem commit_applies_once {config : Config} {staging : Uuid → Option Staging} {s : Sys}
    (hrun : Run program.step (fun _ _ => True) (Sys.start config staging) s) :
    AppliedOnce s ∧
    (∀ id, s.shared.Has id (fun x => x.state = .aborted ∨ x.state = .expired) →
      ∀ t, Run program.step (fun _ _ => True) s t → t.shared.Has id (·.applications = 0)) ∧
    (∀ a t, program.step a s = some t → StartsComplete s a t ∧ StagingOwned s a t) ∧
    ∀ id x, s.shared.store id = some x → x.applied →
      ∃ outcome, x.outcome = some outcome ∧ ∀ t, Run program.step (fun _ _ => True) s t →
        ∀ a u, program.step a t = some u → Answers id x.project outcome t a u := by
  have h := holds_of_run hrun
  have hsame : ∀ {t}, Run program.step (fun _ _ => True) s t → SameOutcome s.shared t.shared :=
    fun hrun' => outline.run_related SameOutcome.refl (fun _ _ _ => SameOutcome.trans)
      (fun _ _ _ _ _ => sameOutcome_of_does) hrun' h
  refine ⟨appliedOnce h, ?_, fun a t hstep => ⟨startsComplete h hstep, stagingOwned h hstep⟩, ?_⟩
  · rintro id ⟨x, hx, hclosed⟩ t hrun'
    obtain ⟨y, hy, -, hsettled⟩ := hsame hrun' id x hx
    have hlive : x.state.live = false := by obtain h | h := hclosed <;> rw [h] <;> rfl
    refine ⟨y, hy, ?_⟩
    have hrecorded := ((outline.run_holds hrun' h).inv.session hy).recorded
    rw [SyncSession.Recorded, (hsettled hlive).1] at hrecorded
    obtain hstate | hstate := hclosed <;> rw [hstate] at hrecorded <;> exact hrecorded.1
  · intro id x hx happlied
    refine ⟨_, (h.inv.session hx).commitResult happlied, fun t hrun' a u hstep => ?_⟩
    have ht := outline.run_holds hrun' h
    obtain ⟨z, hz, hproject, hsettled⟩ := hsame (hrun'.tail trivial hstep) id x hx
    obtain ⟨hstate, houtcome⟩ := hsettled happlied.settled
    rw [← hproject]
    apply answers ht hstep hz
    · rwa [SyncSession.applied, hstate]
    · exact houtcome.trans ((h.inv.session hx).commitResult happlied)

/-- A plan without uploads, applied and cleaned up. -/
theorem commit_applies_once_directory :
    ∃ s x, Run program.step (fun _ _ => True) (Sys.start ⟨1000, 1000⟩ fun _ => none) s ∧
      s.shared.store 7 = some x ∧ x.applications = 1 ∧ AppliedOnce s ∧
      ∃ outcome, x.outcome = some outcome ∧ ∀ t, Run program.step (fun _ _ => True) s t →
        ∀ a u, program.step a t = some u → Answers 7 x.project outcome t a u := by
  have hexec : (exec program.step
      (createPlan 0 7 ++ commitPlan 1 7 (.ok ⟨7, "committed", [], ["d"], [], []⟩) (.ok ()))
      (Sys.start ⟨1000, 1000⟩ fun _ => none)).any
      (fun s => (s.shared.store 7).any fun x => x.state = .committed && x.applications == 1) =
        true := by decide +kernel
  obtain ⟨s, hs, hcheck⟩ := exists_of_exec hexec
  obtain ⟨x, hx, hcheck⟩ := (Option.any_eq_true _ _).mp hcheck
  rw [Bool.and_eq_true, decide_eq_true_eq, beq_iff_eq] at hcheck
  have hrun := Run.of_exec hs
  obtain ⟨honce, -, -, hanswers⟩ := commit_applies_once hrun
  exact ⟨s, x, hrun, hx, hcheck.2, honce, hanswers 7 x hx (.inl hcheck.1)⟩

end VivadoServer.Sync
