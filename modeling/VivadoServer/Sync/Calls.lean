/-
  VivadoServer.Sync.Calls

  What a caller of the manager may conclude from an answer.  A call never leaves
  the operation it was started for (`Serves`), so the answer it ends with says
  what that operation did (`Post`): an aborted plan is Aborted, a committed one
  is Committed, and after `abort_open` nothing of the project is left to settle.
-/

import VivadoServer.Sync.Store

namespace VivadoServer.Sync

open VivadoServer.History (Uuid)

/-- What an answer says to the caller of `asked`. -/
def Post (m : SyncManager) (asked : Place) : Answered → Prop
  | .error _ => True
  | .ok answer =>
    match asked, answer with
    | .plan project _, .plan response => m.Has response.syncId (·.project = project)
    | .lookup _ id .abort, _ => m.Has id (·.state = .aborted)
    | .lookup _ id .commit, _ => m.Has id (·.state = .committed)
    | .abortOpen project, _ => m.SettledBut project []
    | _, _ => True

/-- The operation that `abort_session` is a part of. -/
def AbortThen.Serves (asked : Place) (id : Uuid) : AbortThen → Prop
  | .expired => ∃ project, asked = .lookup project id .commit
  | .abort id' => id' = id ∧ ∃ project, asked = .lookup project id .abort
  | .abortOpen project _ => asked = .abortOpen project
  | .reap _ _ => asked = .reap
  | .shutdown _ => asked = .shutdown

def CleanupThen.Serves (asked : Place) (id : Uuid) : CleanupThen → Prop
  | .abort after => after.Serves asked id
  | .commit _ => ∃ project, asked = .lookup project id .commit
  | .reap _ _ => asked = .reap

def PruneThen.Serves (asked : Place) : PruneThen → Prop
  | .plan project reset => asked = .plan project reset
  | .cleanup id _ after => after.Serves asked id
  | .reap _ => asked = .reap

/-- The call that started at `asked` can stand at the place. -/
def Place.Serves (p asked : Place) (m : SyncManager) : Prop :=
  match p with
  | .plan project reset | .planPermit project reset | .planWork project reset =>
    asked = .plan project reset
  | .planStaging project owned | .planCheck project _ owned | .planInsert project _ owned =>
    asked = .plan project owned.reset
  | .planReject _ _ | .planRefused _ => ∃ project reset, asked = .plan project reset
  | .lookup project id after | .lookupProject project id after => asked = .lookup project id after
  | .uploadLock id _ _ | .uploadCheck id _ _ | .uploadPrepare id _ _ | .uploadBody id _ _
  | .uploadReplace id _ _ _ | .uploadRecord id _ _ | .uploadFailed id _ =>
    ∃ project path length, asked = .lookup project id (.upload path length)
  | .commitLock id | .commitDecide id | .commitStart id _ | .commitApply id _ | .commitSettle id _
  | .commitNotify id _ | .commitWait id | .commitLook id _ | .commitNotified id _ =>
    ∃ project, asked = .lookup project id .commit
  | .abortState id => ∃ project, asked = .lookup project id .abort
  | .abortOpen project | .abortOpenSnapshot project | .abortOpenNext project _
  | .abortOpenDone project _ => asked = .abortOpen project
  | .abortSession id _ after | .abortWait id _ after | .abortLock id _ after _
  | .abortDecide id _ after _ | .abortNotified id _ after _ | .abortNotify id _ after =>
    after.Serves asked id
  | .cleanup id after | .cleanupCheck id after | .cleanupRemove id after | .cleanupRecord id _ after
  | .cleanupDone id _ after => after.Serves asked id
  | .prune after | .pruneScan _ _ after | .pruneRemove _ after => after.Serves asked
  | .reap | .reapNext _ _ | .reapReport _ => asked = .reap
  | .statusRead id => ∃ project, asked = .lookup project id .status
  | .orphans | .orphansSlot | .orphansRemove | .orphansDone _ => asked = .orphans
  | .shutdown | .shutdownCancel | .shutdownDrain | .shutdownSnapshot | .shutdownNext _ =>
    asked = .shutdown
  | .leave answer => Post m asked answer
  | .done _ => True

section Calls

variable {m : SyncManager} {task : Nat} {asked p : Place} {c : Choice}
  {o : Tasks.Outcome SyncManager Place} {id : Uuid} {x : SyncSession}

/-- A call serves the operation it enters for. -/
theorem Place.serves_self {b : Bool} (h : p.entry = some b) : p.Serves p m := by
  cases p with
  | plan | abortOpen | reap | orphans | shutdown | lookup => rfl
  | _ => cases h

/-- Only a committed plan has a result. -/
theorem SyncSession.Sound.committed {response : CommitSyncResponse} (h : x.Sound)
    (hresult : x.commitResult = .ok response) : x.state = .committed := by
  have hrecorded := h.recorded
  rw [SyncSession.Recorded] at hrecorded
  have hsome : x.result ≠ none := by
    intro hnone
    rw [SyncSession.commitResult, hnone] at hresult
    cases herror : x.error <;> rw [herror] at hresult <;> cases hresult
  cases hstate : x.state with
  | committed => rfl
  | «open» | aborted | expired | committing | failed =>
      rw [hstate] at hrecorded
      exact absurd hrecorded.2.1 hsome

theorem planStep_serves (hserves : p.Serves asked m) (hstep : m.planStep task p c = some o) :
    o.place.Serves asked o.shared := by
  unfold SyncManager.planStep at hstep
  split at hstep
  case h_1 =>
    split at hstep
    · cases goTo_eq hstep
      exact hserves
    · cases hstep
  case h_2 =>
    split at hstep
    · cases goTo_eq hstep
      exact hserves
    · cases goTo_eq hstep
      exact ⟨_, _, hserves⟩
  case h_3 =>
    split at hstep
    · split at hstep
      · rename_i hreset
        cases goTo_eq hstep
        show asked = _
        rw [hreset]
        exact hserves
      · cases hstep
    · cases goTo_eq hstep
      exact ⟨_, _, hserves⟩
  case h_4 =>
    split at hstep
    · split at hstep
      · cases goTo_eq hstep
        exact hserves
      · cases goTo_eq hstep
        exact ⟨_, _, hserves⟩
    · cases hstep
  case h_5 =>
    split at hstep
    · cases goTo_eq hstep
      exact hserves
    · cases goTo_eq hstep
      exact ⟨_, _, hserves⟩
  case h_6 =>
    cases goTo_eq hstep
    exact hserves
  case h_7 project id owned =>
    cases goTo_eq hstep
    obtain rfl : asked = .plan project owned.reset := hserves
    exact ⟨_, SyncManager.put_store_self .., rfl⟩
  case h_8 =>
    cases goTo_eq hstep
    trivial
  case h_9 => cases hstep

theorem LookupThen.fails_serves (after : LookupThen) (error : AppError) :
    (after.fails error).Serves asked m := by
  cases after <;> trivial

theorem LookupThen.next_serves {project : String} (after : LookupThen)
    (h : asked = .lookup project id after) : (after.next id).Serves asked m := by
  cases after with
  | upload path length => exact ⟨project, path, length, h⟩
  | commit => exact ⟨project, h⟩
  | abort => exact ⟨rfl, project, h⟩
  | status => exact ⟨project, h⟩

theorem lookupStep_serves (hserves : p.Serves asked m) (hstep : m.lookupStep p c = some o) :
    o.place.Serves asked o.shared := by
  unfold SyncManager.lookupStep at hstep
  split at hstep
  case h_1 project id after =>
    split at hstep
    · cases goTo_eq hstep
      exact hserves
    · cases goTo_eq hstep
      exact after.fails_serves _
  case h_2 project id after =>
    obtain ⟨y, hy, hstep⟩ := SyncManager.on_eq hstep
    split at hstep
    · cases goTo_eq hstep
      exact after.next_serves hserves
    · cases goTo_eq hstep
      exact after.fails_serves _
  case h_3 =>
    obtain ⟨y, hy, hstep⟩ := SyncManager.on_eq hstep
    cases goTo_eq hstep
    trivial
  case h_4 => cases hstep

theorem uploadStep_serves (hserves : p.Serves asked m) (hstep : m.uploadStep task p c = some o) :
    o.place.Serves asked o.shared := by
  unfold SyncManager.uploadStep at hstep
  split at hstep
  case h_1 =>
    obtain ⟨y, hy, hstep⟩ := SyncManager.on_eq hstep
    obtain ⟨activity, -, hstep⟩ := Option.bind_eq_some_iff.mp hstep
    cases goTo_eq hstep
    exact hserves
  case h_2 =>
    obtain ⟨y, hy, hstep⟩ := SyncManager.on_eq hstep
    split at hstep <;> cases goTo_eq hstep <;> exact hserves
  case h_3 | h_4 | h_6 => split at hstep <;> cases goTo_eq hstep <;> exact hserves
  case h_5 =>
    obtain ⟨y, hy, hstep⟩ := SyncManager.on_eq hstep
    split at hstep
    · cases goTo_eq hstep
      exact hserves
    · cases hstep
  case h_7 =>
    obtain ⟨y, hy, hstep⟩ := SyncManager.on_eq hstep
    obtain ⟨project, path, length, rfl⟩ := hserves
    split at hstep <;> cases goTo_eq hstep <;> trivial
  case h_8 =>
    obtain ⟨y, hy, hstep⟩ := SyncManager.on_eq hstep
    cases goTo_eq hstep
    trivial
  case h_9 => cases hstep

/-- A commit that ends with a response ends on a committed plan. -/
theorem commitStep_serves (h : m.Sound) (hat : p.At task m) (hserves : p.Serves asked m)
    (hstep : m.commitStep task p c = some o) : o.place.Serves asked o.shared := by
  have hanswer : ∀ {id project m'} {outcome : Application}, asked = .lookup project id .commit →
      (∀ response, outcome = .ok response → m'.Has id (·.state = .committed)) →
      (Place.leave (outcome.map .commit)).Serves asked m' := by
    rintro id project m' outcome rfl hcommitted
    cases outcome with
    | ok response => exact hcommitted response rfl
    | error => trivial
  unfold SyncManager.commitStep at hstep
  split at hstep
  case h_1 =>
    obtain ⟨y, hy, hstep⟩ := SyncManager.on_eq hstep
    obtain ⟨activity, -, hstep⟩ := Option.bind_eq_some_iff.mp hstep
    cases goTo_eq hstep
    exact hserves
  case h_2 =>
    obtain ⟨y, hy, hstep⟩ := SyncManager.on_eq hstep
    simp only [SyncManager.decideCommit] at hstep
    split at hstep
    · cases goTo_eq hstep
      exact hserves
    · split at hstep
      · cases goTo_eq hstep
        exact hserves
      · split at hstep
        · cases goTo_eq hstep
          trivial
        · cases goTo_eq hstep
          exact hserves
    · cases goTo_eq hstep
      obtain ⟨project, hasked⟩ := hserves
      exact hanswer hasked fun response hresponse =>
        ⟨_, SyncManager.put_store_self .., (h.session hy).committed hresponse⟩
  case h_3 =>
    obtain ⟨y, hy, hstep⟩ := SyncManager.on_eq hstep
    cases goTo_eq hstep
    exact hserves
  case h_4 | h_5 =>
    cases goTo_eq hstep
    exact hserves
  case h_6 =>
    obtain ⟨y, hy, hstep⟩ := SyncManager.on_eq hstep
    cases goTo_eq hstep
    exact hserves
  case h_7 id outcome =>
    obtain ⟨y, hy, hstep⟩ := SyncManager.on_eq hstep
    cases goTo_eq hstep
    obtain ⟨project, hasked⟩ := hserves
    refine hanswer hasked fun response hresponse => ⟨_, SyncManager.put_store_self .., ?_⟩
    obtain ⟨y', hy', happlied, houtcome⟩ := hat.fact
    rw [hy] at hy'
    cases hy'
    obtain hstate | hstate := happlied
    · exact hstate
    · have hrecorded := (h.session hy).recorded
      rw [SyncSession.Recorded, hstate, houtcome, hresponse] at hrecorded
      obtain ⟨-, -, e, -, hcontra⟩ := hrecorded
      cases hcontra
  case h_8 =>
    obtain ⟨y, hy, hstep⟩ := SyncManager.on_eq hstep
    cases goTo_eq hstep
    exact hserves
  case h_9 =>
    obtain ⟨y, hy, hstep⟩ := SyncManager.on_eq hstep
    split at hstep
    · cases goTo_eq hstep
      exact hserves
    · cases goTo_eq hstep
      obtain ⟨project, hasked⟩ := hserves
      exact hanswer hasked fun response hresponse => ⟨_, hy, (h.session hy).committed hresponse⟩
  case h_10 =>
    obtain ⟨y, hy, hstep⟩ := SyncManager.on_eq hstep
    split at hstep
    · cases goTo_eq hstep
      exact hserves
    · cases hstep
  case h_11 => cases hstep

/-- What follows an abort serves the call, whatever the abort reports. -/
theorem AbortThen.next_serves {after : AbortThen} (h : after.Serves asked id)
    (result : Except AppError Unit) : (after.next result).Serves asked m := by
  cases after with
  | expired => cases result <;> trivial
  | abort id' =>
      obtain ⟨rfl, hasked⟩ := h
      cases result with
      | ok => exact hasked
      | error => trivial
  | abortOpen => cases result <;> exact h
  | reap => exact h
  | shutdown => exact h

theorem CleanupThen.next_serves {after : CleanupThen} (h : after.Serves asked id)
    (result : Except AppError Unit) : (after.next id result).Serves asked m := by
  cases after <;> exact h

theorem PruneThen.next_serves {after : PruneThen} (h : after.Serves asked) :
    after.next.Serves asked m := by
  cases after <;> exact h

theorem abortStep_serves (hat : p.At task m) (hserves : p.Serves asked m)
    (hstep : m.abortStep task p c = some o) : o.place.Serves asked o.shared := by
  unfold SyncManager.abortStep at hstep
  split at hstep
  case h_1 =>
    obtain ⟨y, hy, hstep⟩ := SyncManager.on_eq hstep
    obtain ⟨project, rfl⟩ := hserves
    split at hstep
    · rename_i haborted
      cases goTo_eq hstep
      exact ⟨y, hy, haborted⟩
    · cases goTo_eq hstep
      trivial
  case h_2 =>
    split at hstep
    · cases goTo_eq hstep
      exact hserves
    · cases hstep
  case h_3 | h_4 =>
    cases goTo_eq hstep
    exact hserves
  case h_5 =>
    obtain ⟨y, hy, hstep⟩ := SyncManager.on_eq hstep
    split at hstep <;> cases goTo_eq hstep <;> exact hserves
  case h_6 project result =>
    cases goTo_eq hstep
    obtain rfl : asked = .abortOpen project := hserves
    cases result with
    | ok => exact hat.fact rfl
    | error => trivial
  case h_7 | h_8 =>
    obtain ⟨y, hy, hstep⟩ := SyncManager.on_eq hstep
    cases goTo_eq hstep
    exact hserves
  case h_9 =>
    obtain ⟨y, hy, hstep⟩ := SyncManager.on_eq hstep
    obtain ⟨activity, -, hstep⟩ := Option.bind_eq_some_iff.mp hstep
    cases goTo_eq hstep
    exact hserves
  case h_10 =>
    obtain ⟨y, hy, hstep⟩ := SyncManager.on_eq hstep
    unfold SyncManager.decideAbort at hstep
    split at hstep <;> cases goTo_eq hstep <;> exact hserves
  case h_11 =>
    obtain ⟨y, hy, hstep⟩ := SyncManager.on_eq hstep
    split at hstep
    · cases goTo_eq hstep
      exact hserves
    · cases hstep
  case h_12 id result after =>
    obtain ⟨y, hy, hstep⟩ := SyncManager.on_eq hstep
    cases goTo_eq hstep
    exact AbortThen.next_serves hserves result
  case h_13 => cases hstep

theorem cleanupStep_serves (hserves : p.Serves asked m) (hstep : m.cleanupStep task p c = some o) :
    o.place.Serves asked o.shared := by
  unfold SyncManager.cleanupStep at hstep
  split at hstep
  case h_1 =>
    obtain ⟨y, hy, hstep⟩ := SyncManager.on_eq hstep
    split at hstep
    · cases goTo_eq hstep
      exact hserves
    · cases hstep
  case h_2 =>
    obtain ⟨y, hy, hstep⟩ := SyncManager.on_eq hstep
    split at hstep <;> cases goTo_eq hstep <;> exact hserves
  case h_3 =>
    cases goTo_eq hstep
    exact hserves
  case h_4 =>
    obtain ⟨y, hy, hstep⟩ := SyncManager.on_eq hstep
    cases goTo_eq hstep
    exact hserves
  case h_5 =>
    obtain ⟨y, hy, hstep⟩ := SyncManager.on_eq hstep
    cases goTo_eq hstep
    exact CleanupThen.next_serves hserves _
  case h_6 => cases hstep

theorem pruneStep_serves (hserves : p.Serves asked m) (hstep : m.pruneStep p c = some o) :
    o.place.Serves asked o.shared := by
  unfold SyncManager.pruneStep at hstep
  split at hstep
  case h_1 | h_2 =>
    cases goTo_eq hstep
    exact hserves
  case h_3 =>
    obtain ⟨y, hy, hstep⟩ := SyncManager.on_eq hstep
    split at hstep
    · split at hstep <;> cases goTo_eq hstep <;> exact hserves
    · cases goTo_eq hstep
      exact hserves
  case h_4 =>
    cases goTo_eq hstep
    exact PruneThen.next_serves hserves
  case h_5 => cases hstep

theorem reapStep_serves (hserves : p.Serves asked m) (hstep : m.reapStep p c = some o) :
    o.place.Serves asked o.shared := by
  unfold SyncManager.reapStep at hstep
  split at hstep
  case h_1 | h_2 =>
    cases goTo_eq hstep
    exact hserves
  case h_3 =>
    obtain ⟨y, hy, hstep⟩ := SyncManager.on_eq hstep
    split at hstep
    · split at hstep <;> cases goTo_eq hstep <;> exact hserves
    · split at hstep <;> cases goTo_eq hstep <;> exact hserves
  case h_4 =>
    obtain rfl : asked = .reap := hserves
    split at hstep <;> cases goTo_eq hstep <;> trivial
  case h_5 => cases hstep

theorem orphansStep_serves (hserves : p.Serves asked m) (hstep : m.orphansStep task p c = some o) :
    o.place.Serves asked o.shared := by
  unfold SyncManager.orphansStep at hstep
  split at hstep
  case h_1 =>
    split at hstep
    · cases goTo_eq hstep
      exact hserves
    · cases hstep
  case h_2 => split at hstep <;> cases goTo_eq hstep <;> exact hserves
  case h_3 =>
    cases goTo_eq hstep
    split <;> exact hserves
  case h_4 =>
    cases goTo_eq hstep
    exact hserves
  case h_5 result =>
    obtain rfl : asked = .orphans := hserves
    cases goTo_eq hstep
    cases result <;> trivial
  case h_6 => cases hstep

theorem shutdownStep_serves (hserves : p.Serves asked m) (hstep : m.shutdownStep p c = some o) :
    o.place.Serves asked o.shared := by
  unfold SyncManager.shutdownStep at hstep
  split at hstep
  case h_1 | h_2 | h_4 | h_6 =>
    cases goTo_eq hstep
    exact hserves
  case h_3 =>
    split at hstep
    · cases goTo_eq hstep
      exact hserves
    · cases hstep
  case h_5 =>
    cases goTo_eq hstep
    trivial
  case h_7 => cases hstep

/-- A call keeps to its operation, and its answer says what the operation did. -/
theorem exec_serves (h : m.Sound) (hat : p.At task m) (hserves : p.Serves asked m)
    (hstep : m.exec task c p = some o) : o.place.Serves asked o.shared := by
  cases p with
  | plan | planPermit | planWork | planStaging | planCheck | planReject | planInsert
  | planRefused => exact planStep_serves hserves hstep
  | lookup | lookupProject | statusRead => exact lookupStep_serves hserves hstep
  | uploadLock | uploadCheck | uploadPrepare | uploadBody | uploadReplace | uploadRecord
  | uploadFailed => exact uploadStep_serves hserves hstep
  | commitLock | commitDecide | commitStart | commitApply | commitSettle | commitNotify | commitWait
  | commitLook | commitNotified => exact commitStep_serves h hat hserves hstep
  | abortState | abortOpen | abortOpenSnapshot | abortOpenNext | abortOpenDone | abortSession
  | abortWait | abortLock | abortDecide | abortNotified | abortNotify =>
      exact abortStep_serves hat hserves hstep
  | cleanup | cleanupCheck | cleanupRemove | cleanupRecord | cleanupDone =>
      exact cleanupStep_serves hserves hstep
  | prune | pruneScan | pruneRemove => exact pruneStep_serves hserves hstep
  | reap | reapNext | reapReport => exact reapStep_serves hserves hstep
  | orphans | orphansSlot | orphansRemove | orphansDone => exact orphansStep_serves hserves hstep
  | shutdown | shutdownCancel | shutdownDrain | shutdownSnapshot | shutdownNext =>
      exact shutdownStep_serves hserves hstep
  | leave =>
      cases c with
      | go =>
          cases goTo_eq hstep
          trivial
      | _ => cases hstep
  | done => cases hstep

end Calls

end VivadoServer.Sync
