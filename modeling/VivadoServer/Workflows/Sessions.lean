/-
  VivadoServer.Workflows.Sessions

  The `SessionManager` (`src/session.rs`) as the workflows see it: the sessions
  with their supervisors, the one slot, and what is kept of a session behind its
  end.  Each session is the `Sys` of `VivadoServer.Sessions`; the manager it holds
  is replaced by the one they share whenever it moves.

  A supervisor neither panics nor is torn down here, and the caller of a start
  waits for its answer.
-/

import VivadoServer.Error
import VivadoServer.Sessions.Cleanup
import Mathlib.Data.List.Sort

namespace VivadoServer.Workflows

open VivadoServer.History (Uuid)
open VivadoServer.Sessions (Instant TerminationReason SessionInfo)

/-- The keys that `prune` keeps, where `ended` says since when a key may go: those
    within the retention, less the oldest of them beyond the limit. -/
def retained {κ : Type} [DecidableEq κ] (retention limit : Nat) (now : Instant)
    (ended : κ → Option Instant) (keys : List κ) : List κ :=
  let keys := keys.filter fun key => (ended key).all fun since => now - since < retention
  let finished := keys.filterMap fun key => (ended key).map fun since => (key, since)
  let excess := finished.length - limit
  let removed := ((finished.mergeSort fun a b => a.2 ≤ b.2).take excess).map (·.1)
  keys.filter fun key => !removed.contains key

/-- Pruning takes no key that has not ended. -/
theorem mem_retained {κ : Type} [DecidableEq κ] {retention limit : Nat} {now : Instant}
    {ended : κ → Option Instant} {keys : List κ} {key : κ} (hkey : key ∈ keys)
    (hended : ended key = none) : key ∈ retained retention limit now ended keys := by
  refine List.mem_filter.mpr ⟨List.mem_filter.mpr ⟨hkey, by rw [hended]; rfl⟩, ?_⟩
  rw [Bool.not_eq_true', List.contains_eq_mem, decide_eq_false_iff_not]
  intro hremoved
  obtain ⟨⟨key', since⟩, hentry, rfl⟩ := List.mem_map.mp hremoved
  have hfinished := List.mem_mergeSort.mp (List.mem_of_mem_take hentry)
  obtain ⟨key', -, hsince⟩ := List.mem_filterMap.mp hfinished
  obtain ⟨since', hsince', heq⟩ := Option.map_eq_some_iff.mp hsince
  cases heq
  rw [hended] at hsince'
  cases hsince'

theorem mem_of_mem_retained {κ : Type} [DecidableEq κ] {retention limit : Nat} {now : Instant}
    {ended : κ → Option Instant} {keys : List κ} {key : κ}
    (h : key ∈ retained retention limit now ended keys) : key ∈ keys :=
  (List.mem_filter.mp (List.mem_filter.mp h).1).1

/-- Pruning keeps the order, so it keeps keys apart. -/
theorem retained_sublist {κ : Type} [DecidableEq κ] {retention limit : Nat} {now : Instant}
    {ended : κ → Option Instant} {keys : List κ} :
    (retained retention limit now ended keys).Sublist keys :=
  List.filter_sublist.trans List.filter_sublist

structure SessionConfig where
  workflowRetention : Nat
  maxRetainedWorkflows : Nat
  outputBufferBytes : Nat
  stdinMaxBytes : Nat
deriving DecidableEq, Repr

/-- A session with its supervisor. -/
structure SessionEntry where
  sys : Sessions.Sys
  retainedSince : Option Instant := none
  /-- What the start will be answered with once the slot is free. -/
  startError : Option AppError := none
  /-- The answer to `create_session`. -/
  started : Option (Except AppError SessionInfo) := none
deriving DecidableEq

/-- The supervisor gave the slot back. -/
def gone (pc : Sessions.Pc) : Bool := pc == .released || pc == .returned

def SessionEntry.released (e : SessionEntry) : Bool := gone e.sys.pc

def SessionEntry.terminal (e : SessionEntry) : Bool := e.sys.session.info.status.isTerminal

structure SessionManager where
  config : SessionConfig
  manager : Sessions.Manager := { active := none }
  /-- Every session there was; a caller may still hold one that was pruned. -/
  store : Uuid → Option SessionEntry := fun _ => none
  /-- The keys of `sessions`. -/
  sessions : List Uuid := []

/-- The moves of a supervisor and of the callers of its standard input. -/
def owned : Sessions.Action → Bool
  | .sendInput .. | .trySend .. | .prepared _ | .checkStart false | .registerFd _ false | .loop _
  | .release | .leave => true
  | .spawn (.process _) | .spawn .failed => true
  | _ => false

/-- What a move of the supervisor means for the caller of the start. -/
def SessionEntry.after (e : SessionEntry) (a : Sessions.Action) (sys : Sessions.Sys)
    (error : AppError) (now : Instant) : SessionEntry :=
  let e := { e with sys := sys }
  match a with
  | .prepared false | .spawn .failed | .registerFd false _ => { e with startError := some error }
  | .checkStart _ =>
    if sys.session.terminal then { e with startError := some .sessionNotRunning } else e
  | .registerFd true _ => { e with started := some (.ok sys.session.info) }
  | .release =>
    match e.startError with
    | some error => { e with retainedSince := some now, started := some (.error error) }
    | none => e
  | _ => e

namespace SessionManager

def put (m : SessionManager) (id : Uuid) (e : SessionEntry) : SessionManager :=
  { m with store := Function.update m.store id (some e) }

def retainedSince (m : SessionManager) (id : Uuid) : Option Instant :=
  (m.store id).bind (·.retainedSince)

def prune (m : SessionManager) (now : Instant) : SessionManager :=
  { m with
    sessions := retained m.config.workflowRetention m.config.maxRetainedWorkflows now
      m.retainedSince m.sessions }

/-- `session`, behind its pruning. -/
def session (m : SessionManager) (id : Uuid) : Option SessionEntry :=
  if m.sessions.contains id then m.store id else none

/-- The registration in `create_session`, behind its pruning. -/
def register (m : SessionManager) (id : Uuid) : Except AppError SessionManager :=
  match m.manager.register id with
  | .ok manager =>
    .ok { { m with manager, sessions := id :: m.sessions }.put id
      { sys := .start id m.config.outputBufferBytes m.config.stdinMaxBytes } with }
  | .error (.capacity message) => .error (.capacity message)
  | .error (.badRequest message) => .error (.badRequest message)
  | .error .sessionNotRunning => .error .sessionNotRunning

/-- `request_stop` on a session. -/
def requestStop (m : SessionManager) (id : Uuid) (reason : TerminationReason) : SessionManager :=
  match m.store id with
  | some e => m.put id { e with sys := e.sys.requestStop reason }
  | none => m

/-- `release_session`. -/
def release (m : SessionManager) (id : Uuid) (now : Instant) : SessionManager :=
  let m := m.prune now
  match m.session id with
  | some e =>
    if e.sys.session.terminal then
      (m.put id { e with retainedSince := some (e.retainedSince.getD now) }).prune now
    else m
  | none => m

/-- A move of the supervisor of a session, or of a caller of its standard input. -/
def step (m : SessionManager) (id : Uuid) (a : Sessions.Action) (error : AppError)
    (now : Instant) : Option SessionManager :=
  if owned a then
    (m.store id).bind fun e => (Sessions.Sys.step a { e.sys with manager := m.manager }).map
      fun sys =>
        let m := { m with manager := sys.manager }.put id (e.after a sys error now)
        match a with
        | .release => m.prune now
        | _ => m
  else none

/-- The lock section of `shutdown`. -/
def shutdown (m : SessionManager) : SessionManager :=
  { m with
    manager := { m.manager with shuttingDown := true }
    store := fun id => (m.store id).map fun e =>
      if m.sessions.contains id && !e.sys.session.terminal then
        { e with sys := e.sys.requestStop .serviceShutdown }
      else e }

end SessionManager

/-! ## The moves of one supervisor -/

section Supervisor

variable {s t : Sessions.Sys} {a : Sessions.Action}

open Sessions (Guards)

theorem dropProcess_manager (s : Sessions.Sys) (process : Sessions.PtyProcess)
    (killed : Sessions.Result Unit) :
    (s.dropProcess process killed).manager = s.manager ∧
      (s.dropProcess process killed).id = s.id ∧ (s.dropProcess process killed).pc = s.pc := by
  unfold Sessions.Sys.dropProcess Sessions.Sys.signal
  split
  · split <;> exact ⟨rfl, rfl, rfl⟩
  · exact ⟨rfl, rfl, rfl⟩

/-- Only `release` moves the slot. -/
theorem owned_step (h : Guards True s) (howned : owned a = true)
    (hstep : Sessions.Sys.step a s = some t) : t.id = s.id ∧
      ((a = .release ∧ s.pc = .closing ∧ t.pc = .released ∧ t.session = s.session ∧
          t.manager = s.manager.finished s.id) ∨
        (a ≠ .release ∧ t.manager.active = s.manager.active ∧ gone t.pc = gone s.pc)) := by
  obtain hcaller | hrun := Sessions.step_cases hstep
  · have hsame := Sessions.callerStep_undisturbed (N := True)
      (fun _ heq => by rw [heq] at howned; cases howned) hcaller
    refine ⟨hsame.id, .inr ⟨?_, ?_, by rw [hsame.pc]⟩⟩
    · rintro rfl
      cases hcaller
    · cases a with
      | sendInput id text =>
          simp only [Sessions.Sys.callerStep] at hcaller
          split at hcaller <;> cases hcaller <;> rfl
      | trySend index durable =>
          simp only [Sessions.Sys.callerStep] at hcaller
          split at hcaller
          · cases hcaller
          · split at hcaller <;> cases hcaller <;> rfl
      | requestStop | register | finishedOther | shutdown => cases howned
      | _ => cases hcaller
  · cases hpc : s.pc with
    | preparing =>
        cases a <;> simp only [Sessions.Sys.runStep, hpc, reduceCtorEq] at hrun
        case prepared =>
          split at hrun <;> cases hrun <;> exact ⟨rfl, .inr ⟨(by rintro ⟨⟩), rfl, rfl⟩⟩
        case abort => cases howned
    | checking =>
        cases a <;> simp only [Sessions.Sys.runStep, hpc, reduceCtorEq] at hrun
        case checkStart =>
          split at hrun <;> cases hrun <;> exact ⟨rfl, .inr ⟨(by rintro ⟨⟩), rfl, rfl⟩⟩
        case abort => cases howned
    | spawning =>
        cases a <;> simp only [Sessions.Sys.runStep, hpc, reduceCtorEq] at hrun
        case spawn result =>
          cases result with
          | process => cases hrun; exact ⟨rfl, .inr ⟨(by rintro ⟨⟩), rfl, rfl⟩⟩
          | failed => cases hrun; exact ⟨rfl, .inr ⟨(by rintro ⟨⟩), rfl, rfl⟩⟩
          | panicked => cases howned
        case abort => cases howned
    | registering process =>
        cases a <;> simp only [Sessions.Sys.runStep, hpc, reduceCtorEq] at hrun
        case registerFd ok callerGone =>
          cases hrun
          cases ok <;> cases callerGone <;> exact ⟨rfl, .inr ⟨(by rintro ⟨⟩), rfl, rfl⟩⟩
        case abort => cases howned
    | supervising v =>
        cases a <;> simp only [Sessions.Sys.runStep, hpc, reduceCtorEq] at hrun
        case loop action =>
          have hplace := h.place
          rw [hpc] at hplace
          by_cases hlast : ∃ now, action = Sessions.LoopAction.conclude now
          · obtain ⟨now, rfl⟩ := hlast
            simp only [Sessions.Supervisor.step, Sessions.Supervisor.conclude] at hrun
            split at hrun
            · cases hrun
              obtain ⟨hmanager, hid, hpc'⟩ := dropProcess_manager
                (((s.mapStdin (·.rejectInputs v.pending)).append now v.decoder.finish).finish
                  ((v.stop.map (·.reason)).getD .processExited) v.exitCode v.truncated)
                v.process (.ok ())
              refine ⟨hid.trans ?_, .inr ⟨(by rintro ⟨⟩), ?_, ?_⟩⟩
              · exact (Sessions.Frame.append _ now v.decoder.finish).id
              · rw [hmanager]
                exact (Sessions.Frame.append _ now v.decoder.finish).active
              · rw [hpc']
                rfl
            · cases hrun
          · rw [not_exists] at hlast
            obtain ⟨hframe, w, hpc', -⟩ := v.loop_kept hplace.2 hrun hlast
            refine ⟨hframe.id, .inr ⟨(by rintro ⟨⟩), hframe.active, ?_⟩⟩
            rw [hpc']
            rfl
        case abort => cases howned
    | closing =>
        cases a <;> simp only [Sessions.Sys.runStep, hpc, reduceCtorEq] at hrun
        case release =>
          cases hrun
          exact ⟨rfl, .inl ⟨rfl, rfl, rfl, rfl, rfl⟩⟩
    | released =>
        cases a <;> simp only [Sessions.Sys.runStep, hpc, reduceCtorEq] at hrun
        case leave =>
          cases hrun
          exact ⟨rfl, .inr ⟨(by rintro ⟨⟩), rfl, rfl⟩⟩
    | returned => cases a <;> simp only [Sessions.Sys.runStep, hpc, reduceCtorEq] at hrun
    | aborted => cases a <;> simp only [Sessions.Sys.runStep, hpc, reduceCtorEq] at hrun

/-- Behind its end the info of a session stays. -/
theorem ended_info (h : Guards True s) (hterminal : s.session.terminal = true)
    (howned : owned a = true) (hstep : Sessions.Sys.step a s = some t) :
    t.session.terminal = true ∧ t.session.info = s.session.info := by
  obtain ⟨-, hpc⟩ := h.ended hterminal
  obtain hcaller | hrun := Sessions.step_cases hstep
  · have hsame := Sessions.callerStep_undisturbed (N := True)
      (fun _ heq => by rw [heq] at howned; cases howned) hcaller
    exact ⟨hsame.terminal.trans hterminal, hsame.info⟩
  · obtain hpc | hpc | hpc := hpc
    · cases a <;> simp only [Sessions.Sys.runStep, hpc, reduceCtorEq] at hrun
      cases hrun
      exact ⟨hterminal, rfl⟩
    · cases a <;> simp only [Sessions.Sys.runStep, hpc, reduceCtorEq] at hrun
      cases hrun
      exact ⟨hterminal, rfl⟩
    · cases a <;> simp only [Sessions.Sys.runStep, hpc, reduceCtorEq] at hrun

end Supervisor

/-! ## The sessions and the slot -/

structure SessionEntry.Sound (manager : Sessions.Manager) (id : Uuid) (e : SessionEntry) : Prop where
  guards : Sessions.Guards True { e.sys with manager := manager }
  named : e.sys.id = id
  slot : e.released = false → manager.active = some id
  /-- A start that failed has given the slot back. -/
  failed : ∀ error, e.started = some (.error error) → e.released = true

structure SessionManager.Sound (m : SessionManager) : Prop where
  entry : ∀ {id e}, m.store id = some e → e.Sound m.manager id
  active : ∀ {id}, m.manager.active = some id → ∃ e, m.store id = some e ∧ e.released = false

/-- What happens to a session over time. -/
structure SessionEntry.Does (e e' : SessionEntry) : Prop where
  ended : e.terminal = true → e'.terminal = true ∧ e'.sys.session.info = e.sys.session.info
  released : e.released = true → e'.released = true

/-- Sessions stay, and a slot is only taken for a new one. -/
structure SessionManager.Does (s t : SessionManager) : Prop where
  entry : ∀ {id e}, s.store id = some e → ∃ e', t.store id = some e' ∧ e.Does e'
  active : ∀ {id}, t.manager.active = some id → s.manager.active = some id ∨ s.store id = none

section Slot

variable {m m' : SessionManager} {id : Uuid} {e e' : SessionEntry} {now : Instant}

theorem SessionEntry.Sound.terminal (h : e.Sound m.manager id) :
    e.terminal = e.sys.session.terminal := h.guards.status

/-- Behind the release of the slot, a session is terminal. -/
theorem SessionEntry.Sound.of_released (h : e.Sound m.manager id) (hreleased : e.released = true) :
    e.terminal = true := by
  rw [h.terminal]
  have hplace := h.guards.place
  simp only [SessionEntry.released, gone, Bool.or_eq_true, beq_iff_eq] at hreleased
  obtain hpc | hpc := hreleased <;> simp only [hpc] at hplace <;> exact hplace.terminal

/-- The invariant of a session does not depend on what else the manager does. -/
theorem SessionEntry.Sound.manager (h : e.Sound m.manager id) {manager : Sessions.Manager}
    (hactive : m.manager.active = some id → manager.active = some id) : e.Sound manager id where
  guards := h.guards.undisturbed (Sessions.Undisturbed.manager _ _ fun hslot => by
    show manager.active = some e.sys.id
    rw [h.named]
    exact hactive (h.named ▸ hslot))
  named := h.named
  slot hreleased := hactive (h.slot hreleased)
  failed := h.failed

theorem SessionEntry.Does.refl : e.Does e := ⟨fun h => ⟨h, rfl⟩, fun h => h⟩

theorem SessionManager.Does.refl : m.Does m := ⟨fun h => ⟨_, h, .refl⟩, fun h => .inl h⟩

theorem SessionEntry.Does.trans {e'' : SessionEntry} (h₁ : e.Does e') (h₂ : e'.Does e'') :
    e.Does e'' where
  ended h := ⟨(h₂.ended (h₁.ended h).1).1, ((h₂.ended (h₁.ended h).1).2).trans (h₁.ended h).2⟩
  released h := h₂.released (h₁.released h)

namespace SessionManager

@[simp] theorem put_store_self (m : SessionManager) (id : Uuid) (e : SessionEntry) :
    (m.put id e).store id = some e := Function.update_self ..

theorem put_store_other {id' : Uuid} (h : id' ≠ id) : (m.put id e).store id' = m.store id' :=
  Function.update_of_ne h ..

/-- One session moves, and maybe the slot with it. -/
theorem Sound.put (manager : Sessions.Manager) (sessions : List Uuid) (h : m.Sound)
    (he' : e'.Sound manager id)
    (hothers : ∀ {id' e}, id' ≠ id → m.store id' = some e → e.Sound manager id')
    (hactive : ∀ {id'}, manager.active = some id' →
      (id' = id ∧ e'.released = false) ∨ (id' ≠ id ∧ m.manager.active = some id')) :
    ({ m with manager := manager, sessions := sessions }.put id e').Sound where
  entry {id' e} hstore := by
    by_cases hid : id' = id
    · subst hid
      rw [put_store_self] at hstore
      cases hstore
      exact he'
    · rw [put_store_other hid] at hstore
      exact hothers hid hstore
  active {id'} hslot := by
    obtain ⟨rfl, hreleased⟩ | ⟨hid, hslot⟩ := hactive hslot
    · exact ⟨e', put_store_self .., hreleased⟩
    · obtain ⟨e, hstore, hreleased⟩ := h.active hslot
      exact ⟨e, (put_store_other hid).trans hstore, hreleased⟩

theorem Does.put (manager : Sessions.Manager) (sessions : List Uuid)
    (he : ∀ e, m.store id = some e → e.Does e')
    (hactive : ∀ {id'}, manager.active = some id' →
      m.manager.active = some id' ∨ m.store id' = none) :
    m.Does ({ m with manager := manager, sessions := sessions }.put id e') where
  entry {id' e} hstore := by
    by_cases hid : id' = id
    · subst hid
      exact ⟨e', put_store_self .., he e hstore⟩
    · exact ⟨e, (put_store_other hid).trans hstore, .refl⟩
  active := hactive

theorem Sound.prune (h : m.Sound) (now : Instant) : (m.prune now).Sound := { h with }

theorem Does.trans {m'' : SessionManager} (h₁ : m.Does m') (h₂ : m'.Does m'') : m.Does m'' where
  entry hstore := by
    obtain ⟨e', hstore', he⟩ := h₁.entry hstore
    obtain ⟨e'', hstore'', he'⟩ := h₂.entry hstore'
    exact ⟨e'', hstore'', he.trans he'⟩
  active {id} hslot := by
    obtain hslot | hnone := h₂.active hslot
    · exact h₁.active hslot
    · cases hstore : m.store id with
      | none => exact .inr rfl
      | some e =>
          obtain ⟨e', hstore', -⟩ := h₁.entry hstore
          rw [hnone] at hstore'
          cases hstore'

theorem Does.prune (h : m.Does m') (now : Instant) : m.Does (m'.prune now) := { h with }

/-- A registered session is new, and holds the slot. -/
theorem register_spec (h : m.register id = .ok m') (hfree : m.store id = none) (hsound : m.Sound) :
    m'.Sound ∧ m.Does m' ∧ (∃ e, m'.store id = some e ∧ e.released = false) := by
  have hother : ∀ {id'}, id' ≠ id → (∃ e, m.store id' = some e) → m.manager.active ≠ some id := by
    intro id' _ _ hslot
    obtain ⟨e, hstore, -⟩ := hsound.active hslot
    rw [hfree] at hstore
    cases hstore
  unfold register at h
  split at h
  · rename_i manager hregister
    cases h
    have hempty : m.manager.active = none := by
      unfold Sessions.Manager.register at hregister
      split at hregister
      · cases hregister
      · split at hregister
        · cases hregister
        · rename_i hnone
          simpa using hnone
    have hactive : manager.active = some id := by
      unfold Sessions.Manager.register at hregister
      split at hregister
      · cases hregister
      · split at hregister <;> cases hregister
        rfl
    have hnew : ({ sys := .start id m.config.outputBufferBytes m.config.stdinMaxBytes } :
        SessionEntry).Sound manager id :=
      { guards := (Sessions.guards_start True id _ _).undisturbed
          (Sessions.Undisturbed.manager _ _ fun _ => hactive)
        named := rfl
        slot := fun _ => hactive
        failed := (by rintro _ ⟨⟩) }
    refine ⟨Sound.put manager _ hsound hnew (fun _ hstore => ?_) fun hslot => ?_,
      Does.put manager _ ?_ fun hslot => ?_,
      _, put_store_self .., rfl⟩
    · exact (hsound.entry hstore).manager fun hslot => absurd (hempty.symm.trans hslot) (by rintro ⟨⟩)
    · rw [hactive] at hslot
      cases hslot
      exact .inl ⟨rfl, rfl⟩
    · intro e hstore
      rw [hfree] at hstore
      cases hstore
    · rw [hactive] at hslot
      cases hslot
      exact .inr hfree
  all_goals cases h

/-- A change of one session that its supervisor does not see. -/
theorem Sound.disturb (h : m.Sound) (hstore : m.store id = some e)
    (hsame : Sessions.Undisturbed True { e.sys with manager := m.manager }
      { e'.sys with manager := m.manager }) (hstarted : e'.started = e.started) :
    (m.put id e').Sound ∧ m.Does (m.put id e') := by
  have he := h.entry hstore
  have hreleased : e'.released = e.released := congrArg gone hsame.pc
  refine ⟨Sound.put m.manager m.sessions h
    ⟨he.guards.undisturbed hsame, hsame.id.trans he.named, ?_, ?_⟩ (fun _ => h.entry) ?_,
    Does.put m.manager m.sessions ?_ fun hslot => .inl hslot⟩
  · rw [hreleased]
    exact he.slot
  · rw [hstarted, hreleased]
    exact he.failed
  · intro id' hslot
    by_cases hid : id' = id
    · subst hid
      obtain ⟨e'', hstore', hheld⟩ := h.active hslot
      rw [hstore] at hstore'
      cases hstore'
      exact .inl ⟨rfl, hreleased.trans hheld⟩
    · exact .inr ⟨hid, hslot⟩
  · intro e'' hstore'
    rw [hstore] at hstore'
    cases hstore'
    exact ⟨fun hended => ⟨by
        rw [SessionEntry.terminal, show e'.sys.session.info = _ from hsame.info]
        exact hended, hsame.info⟩,
      fun h => hreleased.trans h⟩

theorem requestStop_spec (h : m.Sound) {reason : TerminationReason}
    (hreason : reason ≠ .processExited) :
    (m.requestStop id reason).Sound ∧ m.Does (m.requestStop id reason) := by
  unfold requestStop
  split
  · rename_i e hstore
    exact h.disturb hstore (.requestStop _ reason fun _ => hreason) rfl
  · exact ⟨h, .refl⟩

theorem session_eq (h : m.session id = some e) : m.store id = some e := by
  unfold session at h
  split at h
  · exact h
  · cases h

theorem release_spec (h : m.Sound) (id : Uuid) (now : Instant) :
    (m.release id now).Sound ∧ m.Does (m.release id now) := by
  have hprune : (m.prune now).Sound := h.prune now
  have hdoes : m.Does (m.prune now) := Does.refl.prune now
  unfold release
  simp only
  split
  · rename_i e hsession
    split
    · have hput : ((m.prune now).put id { e with retainedSince := some (e.retainedSince.getD now) }).Sound ∧
          (m.prune now).Does
            ((m.prune now).put id { e with retainedSince := some (e.retainedSince.getD now) }) :=
        hprune.disturb (session_eq hsession) (.refl _) rfl
      exact ⟨hput.1.prune now, (hdoes.trans hput.2).prune now⟩
    · exact ⟨hprune, hdoes⟩
  · exact ⟨hprune, hdoes⟩

/-- A move of a supervisor keeps the account of the slot. -/
theorem step_spec {a : Sessions.Action} {error : AppError} (h : m.Sound)
    (hstep : m.step id a error now = some m') : m'.Sound ∧ m.Does m' := by
  unfold step at hstep
  split at hstep
  · rename_i howned
    obtain ⟨e, hstore, hstep⟩ := Option.bind_eq_some_iff.mp hstep
    obtain ⟨sys, hsys, hm'⟩ := Option.map_eq_some_iff.mp hstep
    have he := h.entry hstore
    have hguards : Sessions.Guards True sys := Sessions.step_guards he.guards
      (fun _ heq => by rw [heq] at howned; cases howned) hsys
    obtain ⟨hid, hmoves⟩ := owned_step he.guards howned hsys
    have hafter : (e.after a sys error now).sys = sys := by
      unfold SessionEntry.after
      dsimp only
      split
      case h_4 | h_6 => split <;> rfl
      all_goals rfl
    -- the slot of the others
    have hslot : ∀ {id'}, id' ≠ id → (m.manager.active = some id' ↔ sys.manager.active = some id') := by
      intro id' hne
      obtain ⟨-, -, -, -, hmanager⟩ | ⟨-, hactive, -⟩ := hmoves
      · rw [hmanager, Sessions.Manager.finished]
        show _ ↔ (if m.manager.active = some e.sys.id then none else m.manager.active) = some id'
        rw [he.named]
        split
        · rename_i hheld
          rw [hheld]
          exact ⟨fun heq => absurd (Option.some.inj heq).symm hne, (by rintro ⟨⟩)⟩
        · exact Iff.rfl
      · rw [show sys.manager.active = m.manager.active from hactive]
    have hself : sys.manager.active = some id → gone sys.pc = false := by
      intro hactive
      obtain ⟨-, -, -, -, hmanager⟩ | ⟨-, hsame, hgone⟩ := hmoves
      · rw [hmanager, Sessions.Manager.finished] at hactive
        split at hactive
        · cases hactive
        · rename_i hheld
          exact absurd hactive (by rw [← he.named]; exact hheld)
      · obtain ⟨e', hstore', hreleased⟩ := h.active (hsame.symm.trans hactive)
        rw [hstore] at hstore'
        cases hstore'
        exact hgone.trans hreleased
    have hnew : (e.after a sys error now).Sound sys.manager id :=
      { guards := by
          rw [hafter]
          exact hguards
        named := by
          rw [hafter]
          exact hid.trans he.named
        slot := by
          intro hreleased
          rw [SessionEntry.released, hafter] at hreleased
          obtain ⟨-, -, hpc, -⟩ | ⟨-, hsame, hgone⟩ := hmoves
          · rw [hpc] at hreleased
            cases hreleased
          · exact hsame.trans (he.slot (hgone.symm.trans hreleased))
        failed := by
          intro error' hstarted
          rw [SessionEntry.released, hafter]
          have hkept : ∀ error, e.started = some (.error error) → gone sys.pc = true := by
            intro error hstarted
            obtain ⟨-, -, hpc, -⟩ | ⟨-, -, hgone⟩ := hmoves
            · rw [hpc]
              rfl
            · exact hgone.trans (he.failed error hstarted)
          obtain ⟨-, -, hpc, -⟩ | ⟨hne, -⟩ := hmoves
          · rw [hpc]
            rfl
          · unfold SessionEntry.after at hstarted
            split at hstarted
            · exact hkept error' hstarted
            · exact hkept error' hstarted
            · exact hkept error' hstarted
            · split at hstarted <;> exact hkept error' hstarted
            · cases hstarted
            · exact absurd rfl hne
            · exact hkept error' hstarted }
    have hentry : ∀ e', m.store id = some e' → e'.Does (e.after a sys error now) := by
      intro e' hstore'
      rw [hstore] at hstore'
      cases hstore'
      refine ⟨fun hended => ?_, fun hreleased => ?_⟩
      · rw [he.terminal] at hended
        obtain ⟨hterminal, hinfo⟩ := ended_info he.guards hended howned hsys
        rw [SessionEntry.terminal, hafter]
        exact ⟨hguards.status.trans hterminal, hinfo⟩
      · rw [SessionEntry.released, hafter]
        obtain ⟨-, -, hpc, -⟩ | ⟨-, -, hgone⟩ := hmoves
        · rw [hpc]
          rfl
        · exact hgone.trans hreleased
    have hput : ({ m with manager := sys.manager }.put id (e.after a sys error now)).Sound ∧
        m.Does ({ m with manager := sys.manager }.put id (e.after a sys error now)) := by
      refine ⟨Sound.put sys.manager m.sessions h hnew (fun hne hstore' => ?_) fun {id'} hactive => ?_,
        Does.put sys.manager m.sessions hentry fun {id'} hactive => ?_⟩
      · exact (h.entry hstore').manager (hslot hne).mp
      · by_cases hne : id' = id
        · subst hne
          refine .inl ⟨rfl, ?_⟩
          rw [SessionEntry.released, hafter]
          exact hself hactive
        · exact .inr ⟨hne, (hslot hne).mpr hactive⟩
      · by_cases hne : id' = id
        · subst hne
          have hgone := hself hactive
          obtain ⟨-, -, hpc, -⟩ | ⟨-, hsame, -⟩ := hmoves
          · rw [hpc] at hgone
            cases hgone
          · exact .inl (hsame.symm.trans hactive)
        · exact .inl ((hslot hne).mpr hactive)
    subst hm'
    simp only
    split
    · exact ⟨hput.1.prune now, hput.2.prune now⟩
    · exact hput
  · cases hstep

theorem shutdown_spec (h : m.Sound) : m.shutdown.Sound ∧ m.Does m.shutdown := by
  have hentry : ∀ {id e}, m.store id = some e → ∃ e', m.shutdown.store id = some e' ∧
      (∀ manager : Sessions.Manager, Sessions.Undisturbed True { e.sys with manager := manager }
        { e'.sys with manager := manager }) ∧ e'.started = e.started := by
    intro id e hstore
    simp only [shutdown, hstore, Option.map_some]
    split
    · exact ⟨_, rfl, fun _ => .requestStop _ _ fun _ => (by rintro ⟨⟩), rfl⟩
    · exact ⟨_, rfl, fun _ => .refl _, rfl⟩
  have hback : ∀ {id e'}, m.shutdown.store id = some e' → ∃ e, m.store id = some e := by
    intro id e' hstore'
    obtain ⟨e, hstore, -⟩ := Option.map_eq_some_iff.mp hstore'
    exact ⟨e, hstore⟩
  refine ⟨⟨fun {id e'} hstore' => ?_, fun {id} hslot => ?_⟩, fun hstore => ?_, fun hslot => .inl hslot⟩
  · obtain ⟨e, hstore⟩ := hback hstore'
    obtain ⟨e'', hstore'', hsame, hstarted⟩ := hentry hstore
    rw [hstore'] at hstore''
    cases hstore''
    have he : e.Sound m.shutdown.manager id := (h.entry hstore).manager fun hslot => hslot
    have hpc : gone e'.sys.pc = gone e.sys.pc := congrArg gone (hsame m.manager).pc
    refine ⟨he.guards.undisturbed (hsame _), (hsame m.manager).id.trans he.named, ?_, ?_⟩
    · rw [SessionEntry.released, hpc]
      exact he.slot
    · rw [hstarted, SessionEntry.released, hpc]
      exact he.failed
  · obtain ⟨e, hstore, hreleased⟩ := h.active hslot
    obtain ⟨e', hstore', hsame, -⟩ := hentry hstore
    exact ⟨e', hstore', (congrArg gone (hsame m.manager).pc).trans hreleased⟩
  · obtain ⟨e', hstore', hsame, -⟩ := hentry hstore
    exact ⟨e', hstore', fun hended => ⟨by
        rw [SessionEntry.terminal, show e'.sys.session.info = _ from (hsame m.manager).info]
        exact hended, (hsame m.manager).info⟩,
      fun hreleased => (congrArg gone (hsame m.manager).pc).trans hreleased⟩

end SessionManager

end Slot

end VivadoServer.Workflows
