/-
  VivadoServer.Sessions.Cleanup

  The supervisor owns a process group by the number of its leader, and that
  number is reserved only while the leader is not reaped.  Here is what every
  trace of the supervisor obeys (`Effect.Lawful`): no signal is sent once the
  leader was reaped or found missing, and `reap` is called only behind an exit,
  a SIGTERM, and two empty scans with a SIGKILL between them.  The session is
  terminal only after that, and until then it holds the manager's slot.

  `Watches` is the invariant of the loop.  Most of it says which flag of the
  loop stands for which effect in the trace; `recent` says what the trace starts
  with between the system calls of one tick.
-/

import VivadoServer.Lib.StepSystem
import VivadoServer.Lib.Trace
import VivadoServer.Sessions.Supervisor

namespace VivadoServer.Sessions

open VivadoServer.History (Uuid)
open StepSystem (exec)

/-! ## The law of each effect -/

/-- The number of the process group may have been given to another process. -/
def Effect.disowns : Effect → Bool
  | .ownershipLost | .reaped _ => true
  | _ => false

/-- When an effect may happen, after the effects `past`. -/
def Effect.Lawful : Effect → List Effect → Prop
  | .signalled _ _, past => ∀ e ∈ past, e.disowns = false
  | .reapCalled, past => .leaderExited ∈ past ∧ .signalled .term true ∈ past ∧
      ∃ before, past = .scanned false :: .signalled .kill true :: .scanned false :: before
  | .finished _, past => .spawned ∈ past → ∃ code, .reaped code ∈ past
  | .appended _, past => ∀ reason, .finished reason ∉ past
  | .released, past => ∃ reason, .finished reason ∈ past
  | _, _ => True

/-- Effects that the invariant of the loop counts on not to happen unnoticed. -/
def Effect.marks : Effect → Bool
  | .finished _ | .stopHandled _ | .readFailed => true
  | _ => false

/-! ## The invariant of the loop -/

/-- What the trace starts with when the loop stands at a stage. -/
def Stage.Recent (v : Supervisor) (trace : List Effect) : Stage → Prop
  | .quiesce => v.scans = true ∧ ∃ past, trace = .scanned false :: past
  | .confirm => v.scans = true ∧
      ∃ past, trace = .signalled .kill true :: .scanned false :: past
  | .reap => v.scans = true ∧
      ∃ past, trace = .scanned false :: .signalled .kill true :: .scanned false :: past
  | _ => True

/-- The loop of `supervise` in the state `s`.  `N` stands for: nobody ever asked
    for a stop with the reason that only the supervisor gives. -/
structure Watches (N : Prop) (s : Sys) (v : Supervisor) : Prop where
  lawful : Trace.Each Effect.Lawful s.trace
  spawned : .spawned ∈ s.trace
  unfinished : ∀ reason, .finished reason ∉ s.trace
  owned : v.process.identityOwned = true → ∀ e ∈ s.trace, e.disowns = false
  exited : v.leaderExited = true → .leaderExited ∈ s.trace
  told : ∀ stop, v.stop = some stop → stop.termSent = true → .signalled .term true ∈ s.trace
  reaped : v.reapedAt.isSome = true → ∃ code, .reaped code ∈ s.trace
  stopped : v.leaderExited = true ∨ v.reapedAt.isSome = true → v.stop.isSome = true
  recent : v.stage.Recent v s.trace
  natural : N → ∀ stop, v.stop = some stop → stop.reason = .processExited →
    (∀ reason, .stopHandled reason ∉ s.trace) ∧ .readFailed ∉ s.trace ∧
      .leaderExited ∈ s.trace
  -- an error of the terminal is followed by nothing but the handling of its stop
  unstopped : v.stop = none → (∀ reason, .stopHandled reason ∉ s.trace) ∧
    (.readFailed ∈ s.trace →
      s.session.stopCancelled = true ∧ v.polled = false ∧ v.stage = .select)
  asked : N → s.session.stopReason ≠ some .processExited

/-- What the manager and the status of the session keep in a step that does not
    end the session. -/
structure Frame (s t : Sys) : Prop where
  id : t.id = s.id
  active : t.manager.active = s.manager.active
  terminal : t.session.terminal = s.session.terminal
  status : s.session.info.status.isTerminal = false → t.session.info.status.isTerminal = false

/-- A step of the loop that stays in the loop. -/
def Kept (N : Prop) (s t : Sys) : Prop :=
  Frame s t ∧ ∃ v, t.pc = .supervising v ∧ Watches N t v

variable {N : Prop} {s t u : Sys} {v w : Supervisor} {e : Effect} {now : Instant}

namespace Frame

theorem refl (s : Sys) : Frame s s := ⟨rfl, rfl, rfl, fun h => h⟩

theorem trans (h₁ : Frame s t) (h₂ : Frame t u) : Frame s u where
  id := h₂.id.trans h₁.id
  active := h₂.active.trans h₁.active
  terminal := h₂.terminal.trans h₁.terminal
  status h := h₂.status (h₁.status h)

theorem note (s : Sys) (e : Effect) : Frame s (s.note e) := ⟨rfl, rfl, rfl, fun h => h⟩

theorem report (s : Sys) (error : String) : Frame s (s.report error) :=
  ⟨rfl, rfl, rfl, fun h => h⟩

theorem requestStop (s : Sys) (reason : TerminationReason) : Frame s (s.requestStop reason) :=
  ⟨rfl, rfl, rfl, fun h => h⟩

theorem mapStdin (s : Sys) (f : Stdin → Stdin) : Frame s (s.mapStdin f) :=
  ⟨rfl, rfl, rfl, fun h => h⟩

theorem append (s : Sys) (now : Instant) (text : Text) : Frame s (s.append now text) := by
  unfold Sys.append Session.pushOutput
  split <;> exact ⟨rfl, rfl, rfl, fun h => h⟩

theorem beginStop (s : Sys) (v : Supervisor) (reason : TerminationReason) (now : Instant) :
    Frame s (Supervisor.beginStop s v reason now).1 :=
  ⟨rfl, rfl, rfl, fun _ => rfl⟩

theorem signal (s : Sys) (process : PtyProcess) (signal : Signal) (killed : Result Unit) :
    Frame s (s.signal process signal killed).1 := by
  unfold Sys.signal
  split
  · exact note _ _
  · exact refl s

end Frame

/-- The place of the task is not a part of what the loop knows. -/
theorem Kept.of (hgo : Supervisor.goOn t w = some u) (hframe : Frame s t) (h : Watches N t w) :
    Kept N s u := by
  cases hgo
  exact ⟨⟨hframe.id, hframe.active, hframe.terminal, hframe.status⟩, w, rfl, { h with }⟩

namespace Watches

/-- Leaving the stages that look at the trace. -/
theorem atSelect (h : Watches N s v) : Watches N s { v with stage := .select } :=
  { h with
    recent := trivial
    unstopped := fun hstop => ⟨(h.unstopped hstop).1, fun hread =>
      ⟨((h.unstopped hstop).2 hread).1, ((h.unstopped hstop).2 hread).2.1, rfl⟩⟩ }

/-- An effect that happens while the loop is in `select!`. -/
theorem note (h : Watches N s v) (hstage : v.stage = .select) (hlaw : e.Lawful s.trace)
    (hmarks : e.marks = false) (hown : v.process.identityOwned = true → e.disowns = false) :
    Watches N (s.note e) v where
  lawful := h.lawful.cons hlaw
  spawned := List.mem_cons_of_mem _ h.spawned
  unfinished := by
      intro reason hmem
      rcases List.mem_cons.mp hmem with heq | hmem
      · subst heq
        cases hmarks
      · exact h.unfinished reason hmem
  owned := by
      intro howned e' he'
      rcases List.mem_cons.mp he' with heq | hmem
      · exact heq ▸ hown howned
      · exact h.owned howned e' hmem
  exited := fun hexit => List.mem_cons_of_mem _ (h.exited hexit)
  told := fun stop hstop hterm => List.mem_cons_of_mem _ (h.told stop hstop hterm)
  reaped := by
      intro hreaped
      obtain ⟨code, hcode⟩ := h.reaped hreaped
      exact ⟨code, List.mem_cons_of_mem _ hcode⟩
  stopped := h.stopped
  recent := by
      rw [hstage]
      exact trivial
  natural := by
      intro hN stop hstop hreason
      obtain ⟨hstops, hreads, hexit⟩ := h.natural hN stop hstop hreason
      refine ⟨?_, ?_, List.mem_cons_of_mem _ hexit⟩
      · intro reason hmem
        rcases List.mem_cons.mp hmem with heq | hmem
        · subst heq
          cases hmarks
        · exact hstops reason hmem
      · intro hmem
        rcases List.mem_cons.mp hmem with heq | hmem
        · subst heq
          cases hmarks
        · exact hreads hmem
  unstopped := by
      intro hstop
      obtain ⟨hstops, hreads⟩ := h.unstopped hstop
      refine ⟨?_, ?_⟩
      · intro reason hmem
        rcases List.mem_cons.mp hmem with heq | hmem
        · subst heq
          cases hmarks
        · exact hstops reason hmem
      · intro hmem
        rcases List.mem_cons.mp hmem with heq | hmem
        · subst heq
          cases hmarks
        · exact hreads hmem
  asked := h.asked

/-- Before a stop is known, the loop moves only while the terminal is sound. -/
theorem calm (h : Watches N s v) (hmoves : v.polled = true ∨ v.stage ≠ .select)
    (hstop : v.stop = none) : .readFailed ∉ s.trace := by
  intro hread
  obtain ⟨-, hpolled, hstage⟩ := (h.unstopped hstop).2 hread
  rcases hmoves with hpoll | hne
  · exact Bool.false_ne_true (hpolled.symm.trans hpoll)
  · exact hne hstage

theorem goto (h : Watches N s v) (hcalm : v.stop = none → .readFailed ∉ s.trace)
    (stage : Stage) (polled : Bool) (hrecent : stage.Recent v s.trace) :
    Watches N s { v with stage := stage, polled := polled } :=
  { h with
    recent := hrecent
    unstopped := fun hstop => ⟨(h.unstopped hstop).1, fun hread => absurd hread (hcalm hstop)⟩ }

theorem report (h : Watches N s v) (error : String) : Watches N (s.report error) v :=
  { h with }

theorem mapStdin (h : Watches N s v) (f : Stdin → Stdin) : Watches N (s.mapStdin f) v :=
  { h with }

theorem requestStop (h : Watches N s v) (reason : TerminationReason)
    (hreason : N → reason ≠ .processExited) : Watches N (s.requestStop reason) v :=
  { h with
    unstopped := fun hstop => ⟨(h.unstopped hstop).1, fun hread =>
      ⟨rfl, ((h.unstopped hstop).2 hread).2⟩⟩
    asked := by
        intro hN
        simp only [Sys.requestStop, Session.requestStop]
        split
        · simpa using hreason hN
        · exact h.asked hN }

theorem append (h : Watches N s v) (hstage : v.stage = .select) (now : Instant) (text : Text) :
    Watches N (s.append now text) v := by
  unfold Sys.append Session.pushOutput
  split
  · exact h
  · exact note (s := { s with session := _ }) { h with } hstage h.unfinished rfl fun _ => rfl

/-- `signal_group`: the signal is in the trace exactly when the group is owned. -/
theorem signal (h : Watches N s v) (hstage : v.stage = .select) (signal : Signal)
    (killed : Result Unit) : Watches N (s.signal v.process signal killed).1 v := by
  unfold Sys.signal
  split
  · rename_i result heq
    have howned : v.process.identityOwned = true := by
      rw [← PtyProcess.signalGroup_called, heq]
    exact h.note hstage (h.owned howned) rfl fun _ => rfl
  · exact h

end Watches

/-- A signal that was accepted is the newest effect. -/
theorem signal_accepted {process : PtyProcess} {signal : Signal} {killed : Result Unit}
    (h : s.signal process signal killed = (t, .ok ())) :
    t.trace = .signalled signal true :: s.trace := by
  unfold Sys.signal at h
  split at h
  · rename_i result heq
    obtain ⟨ht, hresult⟩ := Prod.mk.inj h
    rw [← ht, hresult]
    rfl
  · rename_i result heq
    obtain ⟨-, hresult⟩ := Prod.mk.inj h
    have howned := PtyProcess.signalGroup_ok (p := process) (by rw [heq]; exact hresult)
    rw [← PtyProcess.signalGroup_called, heq] at howned
    cases howned

/-! ## One step of the loop -/

namespace Supervisor

theorem ready_polled (h : v.ready = true) : v.polled = true ∧ v.stage = .select := by
  simp only [ready, selecting, Bool.and_eq_true, beq_iff_eq] at h
  exact ⟨h.2, h.1.1⟩

theorem poll_kept (h : Watches N s v) (hstep : v.step s .poll = some t) : Kept N s t := by
  rw [step] at hstep
  split at hstep
  · rename_i hguard
    simp only [Bool.and_eq_true, Bool.not_eq_true'] at hguard
    have hcalm : v.stop = none → .readFailed ∉ s.trace := by
      intro hstop hread
      have hcancelled := hguard.2
      rw [((h.unstopped hstop).2 hread).1, hstop] at hcancelled
      cases hcancelled
    exact .of hstep (.refl s) (h.goto hcalm v.stage true h.recent)
  · cases hstep

/-- The stop of a session, natural or requested, with nothing signalled yet. -/
theorem beginStop_watches (h : Watches N s v) (hstage : v.stage = .select ∨ v.stage = .terminate)
    (reason : TerminationReason) (now : Instant)
    (hnatural : N → reason = .processExited → (∀ reason, .stopHandled reason ∉ s.trace) ∧
      .readFailed ∉ s.trace ∧ .leaderExited ∈ s.trace) :
    Watches N (beginStop s v reason now).1 (beginStop s v reason now).2 :=
  { h with
    told := by
        rintro stop ⟨⟩ hterm
        cases hterm
    stopped := fun _ => rfl
    recent := by
        show v.stage.Recent _ _
        rcases hstage with hstage | hstage <;> rw [hstage] <;> trivial
    natural := by
        rintro hN stop ⟨⟩ hreason
        exact hnatural hN hreason
    unstopped := fun hstop => by cases hstop }

theorem onStop_kept (h : Watches N s v) (hstep : v.onStop s now = some t) : Kept N s t := by
  unfold onStop at hstep
  split at hstep
  · rename_i hguard
    simp only [selecting, Bool.and_eq_true, beq_iff_eq] at hguard
    obtain ⟨⟨⟨hstage, -⟩, -⟩, -⟩ := hguard
    have hasked : N → s.session.reason ≠ .processExited := by
      intro hN
      have hne := h.asked hN
      unfold Session.reason
      cases hreason : s.session.stopReason with
      | none => exact fun hcontra => by cases hcontra
      | some reason =>
          rw [hreason] at hne
          exact fun heq => hne (congrArg some heq)
    have hbegin := beginStop_watches h (.inl hstage) s.session.reason now
      (fun hN heq => absurd heq (hasked hN))
    -- the stop just handled is the one effect that `note` does not allow
    apply Kept.of hstep ((Frame.beginStop s v s.session.reason now).trans (.note _ _))
    exact
      { hbegin with
        lawful := hbegin.lawful.cons trivial
        spawned := List.mem_cons_of_mem _ hbegin.spawned
        unfinished := by
            intro reason hmem
            rcases List.mem_cons.mp hmem with heq | hmem
            · cases heq
            · exact hbegin.unfinished reason hmem
        owned := by
            intro howned e he
            rcases List.mem_cons.mp he with heq | hmem
            · subst heq
              rfl
            · exact hbegin.owned howned e hmem
        exited := fun hexit => List.mem_cons_of_mem _ (hbegin.exited hexit)
        told := fun stop hstop hterm => List.mem_cons_of_mem _ (hbegin.told stop hstop hterm)
        reaped := by
            intro hreaped
            obtain ⟨code, hcode⟩ := hbegin.reaped hreaped
            exact ⟨code, List.mem_cons_of_mem _ hcode⟩
        recent := by
            show v.stage.Recent _ _
            rw [hstage]
            trivial
        natural := by
            rintro hN stop ⟨⟩ hreason
            exact absurd hreason (hasked hN)
        unstopped := fun hstop => by cases hstop }
  · cases hstep

theorem onInput_kept (h : Watches N s v) (hstep : v.onInput s = some t) : Kept N s t := by
  unfold onInput at hstep
  split at hstep
  · rename_i hguard
    simp only [Bool.and_eq_true] at hguard
    obtain ⟨hpolled, hstage⟩ := ready_polled hguard.1.1.1
    have hcalm := h.calm (.inl hpolled)
    have hnext := h.goto hcalm v.stage false h.recent
    split at hstep
    · exact .of hstep (.mapStdin s _) { hnext with }
    · split at hstep
      · have hstop : N → TerminationReason.serviceShutdown ≠ .processExited := fun _ heq => by
          cases heq
        exact .of hstep (.requestStop s _) (hnext.requestStop _ hstop)
      · cases hstep
  · cases hstep

theorem onWritten_kept {result : Result Nat} (h : Watches N s v)
    (hstep : v.onWritten s result = some t) : Kept N s t := by
  unfold onWritten at hstep
  split at hstep
  · rename_i hguard
    simp only [Bool.and_eq_true] at hguard
    have hcalm := h.calm (.inl (ready_polled hguard.1.1).1)
    have hnext := h.goto hcalm v.stage false h.recent
    split at hstep
    · cases hstep
    · split at hstep
      · dsimp only at hstep
        split at hstep
        · split at hstep
          · exact .of hstep ((Frame.mapStdin s _).trans (.mapStdin _ _)) { hnext with }
          · exact .of hstep (.mapStdin s _) { hnext with }
        · cases hstep
      · have hstop : N → TerminationReason.inputWriteFailed ≠ .processExited := fun _ heq => by
          cases heq
        exact .of hstep ((Frame.mapStdin s _).trans (.requestStop _ _))
          { (hnext.mapStdin _).requestStop _ hstop with }
  · cases hstep

theorem onRead_kept {result : Result (List UInt8)} (h : Watches N s v)
    (hstep : v.onRead s now result = some t) : Kept N s t := by
  unfold onRead at hstep
  split at hstep
  · rename_i hguard
    simp only [Bool.and_eq_true] at hguard
    obtain ⟨hpolled, hstage⟩ := ready_polled hguard.1
    have hcalm := h.calm (.inl hpolled)
    have hnext := h.goto hcalm v.stage false h.recent
    split at hstep
    · exact .of hstep (.refl s) { hnext with }
    · exact .of hstep (.append s _ _) { hnext.append hstage now _ with }
    · -- the error is marked, and no stop handled from now on is a natural one
      apply Kept.of hstep ((Frame.note s _).trans (.requestStop _ _))
      have hmem {x : Effect} (hx : x ∈ s.trace) : x ∈ Effect.readFailed :: s.trace :=
        List.mem_cons_of_mem _ hx
      have hreason : ∀ stop, (v.stop.map fun stop =>
          if stop.reason = .processExited then { stop with reason := .outputReadFailed }
          else stop) = some stop → stop.reason ≠ .processExited ∧
            ∃ old, v.stop = some old ∧ stop.termSent = old.termSent := by
        intro stop hstop
        obtain ⟨old, hold, hmap⟩ := Option.map_eq_some_iff.mp hstop
        rw [← hmap]
        split
        · exact ⟨(by intro heq; cases heq), old, hold, rfl⟩
        · rename_i hne
          exact ⟨hne, old, hold, rfl⟩
      exact
        { lawful := h.lawful.cons trivial
          spawned := hmem h.spawned
          unfinished := by
              intro reason hfin
              rcases List.mem_cons.mp hfin with heq | hfin
              · cases heq
              · exact h.unfinished reason hfin
          owned := by
              intro howned e he
              rcases List.mem_cons.mp he with heq | he
              · subst heq
                rfl
              · exact h.owned howned e he
          exited := fun hexit => hmem (h.exited hexit)
          told := by
              intro stop hstop hterm
              obtain ⟨-, old, hold, hsame⟩ := hreason stop hstop
              exact hmem (h.told old hold (hsame ▸ hterm))
          reaped := by
              intro hreaped
              obtain ⟨code, hcode⟩ := h.reaped hreaped
              exact ⟨code, hmem hcode⟩
          stopped := by
              intro hdone
              show (Option.map _ v.stop).isSome = true
              rw [Option.isSome_map]
              exact h.stopped hdone
          recent := by
              show v.stage.Recent _ _
              rw [hstage]
              trivial
          natural := fun _ stop hstop hnat => absurd hnat (hreason stop hstop).1
          unstopped := by
              intro hstop
              obtain ⟨hstops, -⟩ := h.unstopped (Option.map_eq_none_iff.mp hstop)
              refine ⟨?_, fun _ => ⟨rfl, rfl, hstage⟩⟩
              intro reason hmem
              rcases List.mem_cons.mp hmem with heq | hmem
              · cases heq
              · exact hstops reason hmem
          asked := by
              intro hN
              simp only [Sys.requestStop, Session.requestStop]
              split
              · exact fun heq => by cases heq
              · exact h.asked hN }
  · cases hstep

theorem onTick_kept (h : Watches N s v) (hstep : v.onTick s now = some t) : Kept N s t := by
  unfold onTick at hstep
  split at hstep
  · rename_i hguard
    have hcalm := h.calm (.inl (ready_polled hguard).1)
    have hnext := h.goto hcalm v.stage false h.recent
    split at hstep
    · split at hstep
      · exact .of hstep (.refl s) { hnext with }
      · exact .of hstep (.refl s) hnext
    · exact .of hstep (.refl s) (h.goto hcalm .observe false trivial)
  · cases hstep

theorem observe_kept {waited : Result Bool} (h : Watches N s v)
    (hstep : v.observe s now waited = some t) : Kept N s t := by
  unfold observe at hstep
  split at hstep
  · rename_i hstage
    have hmoves : v.polled = true ∨ v.stage ≠ .select := .inr (by rw [hstage]; exact nofun)
    have hcalm := h.calm hmoves
    dsimp only at hstep
    split at hstep
    · exact .of hstep (.refl s) (h.goto hcalm .terminate v.polled trivial)
    · have howned : (v.process.observeExit waited).1.identityOwned = true → _ :=
        PtyProcess.observeExit_owned
      -- the process may have lost its identity; nothing else in the loop has changed
      have hprocess : Watches N s
          { v with process := (v.process.observeExit waited).1, stage := .select } :=
        { h.atSelect with owned := fun hown => h.owned (howned hown).1 }
      split at hstep
      · have hexit := hprocess.note rfl (e := .leaderExited) trivial rfl (fun _ => rfl)
        have hwatch : Watches N (s.note .leaderExited)
            { v with process := (v.process.observeExit waited).1, stage := .terminate } := by
          apply hexit.goto _ .terminate v.polled trivial
          intro hstop hread
          rcases List.mem_cons.mp hread with heq | hread
          · cases heq
          · exact hcalm hstop hread
        split at hstep
        · rename_i hstop
          rw [Option.isNone_iff_eq_none] at hstop
          obtain ⟨hstops, -⟩ := h.unstopped hstop
          have hfresh : N → TerminationReason.processExited = .processExited →
              (∀ reason, .stopHandled reason ∉ (s.note .leaderExited).trace) ∧
              .readFailed ∉ (s.note .leaderExited).trace ∧
              .leaderExited ∈ (s.note .leaderExited).trace := by
            intro _ _
            refine ⟨?_, ?_, List.mem_cons_self⟩
            · intro reason hmem
              rcases List.mem_cons.mp hmem with heq | hmem
              · cases heq
              · exact hstops reason hmem
            · intro hmem
              rcases List.mem_cons.mp hmem with heq | hmem
              · cases heq
              · exact hcalm hstop hmem
          have hbegin := beginStop_watches hwatch (.inr rfl) .processExited now hfresh
          apply Kept.of hstep ((Frame.note s .leaderExited).trans (.beginStop _ v _ now))
          exact { hbegin with exited := fun _ => List.mem_cons_self, stopped := fun _ => rfl }
        · rename_i hstop
          apply Kept.of hstep (.note s _)
          exact
            { hwatch with
              exited := fun _ => List.mem_cons_self
              stopped := fun _ => by
                show v.stop.isSome = true
                simpa [Option.isSome_iff_ne_none] using hstop }
      · exact .of hstep (.refl s) (hprocess.goto hcalm .terminate v.polled trivial)
      · rename_i error herror
        have hstop : N → TerminationReason.processWaitFailed ≠ .processExited := fun _ heq => by
          cases heq
        split at hstep
        · rename_i hchild
          have hlost := hprocess.note rfl (e := .ownershipLost) trivial rfl
            (fun hown => absurd hchild ((howned hown).2 error herror))
          have hwatch : Watches N (s.note .ownershipLost)
              { v with process := (v.process.observeExit waited).1, stage := .terminate } := by
            apply hlost.goto _ .terminate v.polled trivial
            intro hstop hread
            rcases List.mem_cons.mp hread with heq | hread
            · cases heq
            · exact hcalm hstop hread
          exact .of hstep (((Frame.note s _).trans (.requestStop _ _)).trans (.report _ _))
            ((hwatch.requestStop _ hstop).report _)
        · have hwatch := hprocess.goto hcalm .terminate v.polled trivial
          exact .of hstep ((Frame.requestStop s _).trans (.report _ _))
            ((hwatch.requestStop _ hstop).report _)
  · cases hstep

theorem terminate_kept {killed : Result Unit} (h : Watches N s v)
    (hstep : v.terminate s now killed = some t) : Kept N s t := by
  unfold terminate at hstep
  split at hstep
  · rename_i hstage
    have hcalm := h.calm (.inr (by rw [hstage]; exact nofun))
    split at hstep
    · exact .of hstep (.refl s) (h.goto hcalm .inspect v.polled trivial)
    · rename_i stop hstop
      have hnever : v.stop = none → ∀ trace : List Effect, .readFailed ∉ trace := by
        intro hnone
        rw [hstop] at hnone
        cases hnone
      dsimp only at hstep
      split at hstep
      · exact .of hstep (.refl s)
          (h.goto hcalm (.escalate (now - stop.since)) v.polled trivial)
      · have hsent := h.atSelect.signal rfl .term killed
        have hframe := Frame.signal s v.process .term killed
        split at hstep
        · rename_i s' heq
          rw [heq] at hsent hframe
          have hnext := hsent.goto (fun hnone => hnever hnone _)
            (.escalate (now - stop.since)) v.polled trivial
          apply Kept.of hstep hframe
          exact
            { hnext with
              told := fun _ _ _ => by
                rw [signal_accepted heq]
                exact List.mem_cons_self
              stopped := fun _ => rfl
              natural := by
                rintro hN _ ⟨⟩ hreason
                exact hnext.natural hN stop hstop hreason
              unstopped := fun hnone => by cases hnone }
        · rename_i s' error heq
          rw [heq] at hsent hframe
          have hnext := hsent.goto (fun hnone => hnever hnone _)
            (.escalate (now - stop.since)) v.polled trivial
          exact .of hstep (hframe.trans (.report _ _)) (hnext.report _)
  · cases hstep

theorem escalate_kept {lastAt : Instant} {killed : Result Unit} (h : Watches N s v)
    (hstep : v.escalate s lastAt now killed = some t) : Kept N s t := by
  unfold escalate at hstep
  split at hstep
  · rename_i elapsed stop hstage hstop
    have hnever : v.stop = none → ∀ trace : List Effect, .readFailed ∉ trace := by
      intro hnone
      rw [hstop] at hnone
      cases hnone
    -- the report of an overdue cleanup changes nothing the loop counts on
    have hoverdue : ∀ {s' : Sys} {w : Supervisor}, Frame s s' → Watches N s' w →
        Supervisor.goOn (if CLEANUP_DEADLINE ≤ elapsed then
          s'.report "Vivado group death remains unconfirmed; workflow ownership is retained"
          else s') w = some t → Kept N s t := by
      intro s' w hframe hwatch hgo
      split at hgo
      · exact .of hgo (hframe.trans (.report _ _)) (hwatch.report _)
      · exact .of hgo hframe hwatch
    dsimp only at hstep
    split at hstep
    · have hsent := h.atSelect.signal rfl .kill killed
      have hframe := Frame.signal s v.process .kill killed
      have hkilled : ∀ {s' : Sys}, Watches N s' { v with stage := .select } →
          Watches N s'
            { v with stop := some { stop with lastKill := some now }, stage := .inspect } := by
        intro s' hs'
        have hnext := hs'.goto (fun hnone => hnever hnone _) .inspect v.polled trivial
        exact
          { hnext with
            told := by
                rintro _ ⟨⟩ hterm
                exact hnext.told stop hstop hterm
            stopped := fun _ => rfl
            natural := by
                rintro hN _ ⟨⟩ hreason
                exact hnext.natural hN stop hstop hreason
            unstopped := fun hnone => by cases hnone }
      split at hstep
      · rename_i s' heq
        rw [heq] at hsent hframe
        exact hoverdue hframe (hkilled hsent) hstep
      · rename_i s' error heq
        rw [heq] at hsent hframe
        exact hoverdue (hframe.trans (.report _ _)) ((hkilled hsent).report _) hstep
    · have hnext := h.goto (fun hnone => hnever hnone _) .inspect v.polled trivial
      exact hoverdue (.refl s) hnext hstep
  · cases hstep

/-- A scan is only made once there is a stop, so no error of the terminal is
    left to be handled. -/
theorem scans_stop (h : v.scans = true) : v.stop ≠ none := by
  intro hnone
  rw [scans, hnone] at h
  simp at h

theorem inspect_kept {scan : ScanResult} (h : Watches N s v)
    (hstep : v.inspect s scan = some t) : Kept N s t := by
  unfold inspect at hstep
  split at hstep
  · dsimp only at hstep
    have hdone := h.atSelect
    split at hstep
    · rename_i hscans
      have hnote : ∀ live, Watches N (s.note (.scanned live)) { v with stage := .select } :=
        fun live => hdone.note rfl trivial rfl (fun _ => rfl)
      split at hstep
      · apply Kept.of hstep (.note s _)
        exact (hnote false).goto (fun hnone => absurd hnone (scans_stop hscans)) .quiesce v.polled
          ⟨hscans, s.trace, rfl⟩
      · exact .of hstep (.note s _) (hnote true)
      · exact .of hstep (.report s _) (hdone.report _)
      · exact .of hstep (.report s _) (hdone.report _)
    · exact .of hstep (.refl s) hdone
  · cases hstep

theorem quiesce_kept {killed : Result Unit} (h : Watches N s v)
    (hstep : v.quiesce s killed = some t) : Kept N s t := by
  unfold quiesce at hstep
  split at hstep
  · rename_i hstage
    have hrecent := h.recent
    rw [hstage] at hrecent
    obtain ⟨hscans, past, hpast⟩ := hrecent
    have hsent := h.atSelect.signal rfl .kill killed
    have hframe := Frame.signal s v.process .kill killed
    split at hstep
    · rename_i s' heq
      rw [heq] at hsent hframe
      apply Kept.of hstep hframe
      exact hsent.goto (fun hnone => absurd hnone (scans_stop hscans)) .confirm v.polled
        ⟨hscans, past, by rw [signal_accepted heq, hpast]⟩
    · rename_i s' error heq
      rw [heq] at hsent hframe
      exact .of hstep (hframe.trans (.report _ _)) (hsent.report _)
  · cases hstep

theorem confirm_kept {scan : ScanResult} (h : Watches N s v)
    (hstep : v.confirm s scan = some t) : Kept N s t := by
  unfold confirm at hstep
  split at hstep
  · rename_i hstage
    have hrecent := h.recent
    rw [hstage] at hrecent
    obtain ⟨hscans, past, hpast⟩ := hrecent
    have hdone := h.atSelect
    have hnote : ∀ live, Watches N (s.note (.scanned live)) { v with stage := .select } :=
      fun live => hdone.note rfl trivial rfl (fun _ => rfl)
    dsimp only at hstep
    split at hstep
    · apply Kept.of hstep (.note s _)
      exact (hnote false).goto (fun hnone => absurd hnone (scans_stop hscans)) .reap v.polled
        ⟨hscans, past, congrArg _ hpast⟩
    · exact .of hstep (.note s _) (hnote true)
    · exact .of hstep (.report s _) (hdone.report _)
    · exact .of hstep (.report s _) (hdone.report _)
  · cases hstep

/-- Calling `reap`: the loop has seen the exit, told the group, and found it
    empty twice. -/
theorem reap_lawful (h : Watches N s v) (hstage : v.stage = .reap) :
    Effect.reapCalled.Lawful s.trace := by
  have hrecent := h.recent
  rw [hstage] at hrecent
  obtain ⟨hscans, past, hpast⟩ := hrecent
  rw [scans, Bool.and_eq_true] at hscans
  obtain ⟨hexit, hterm⟩ := hscans
  obtain ⟨stop, hstop, hsent⟩ := (Option.any_eq_true _ _).mp hterm
  exact ⟨h.exited hexit, h.told stop hstop hsent, past, hpast⟩

theorem reap_kept {waited : Result Int} (h : Watches N s v)
    (hstep : v.reap s now waited = some t) : Kept N s t := by
  unfold reap at hstep
  split at hstep
  · rename_i hstage
    have hcalled := h.atSelect.note rfl (reap_lawful h hstage) rfl (fun _ => rfl)
    have howned : (v.process.reap waited).1.identityOwned = true → _ := PtyProcess.reap_owned
    have hprocess : Watches N (s.note .reapCalled)
        { v with process := (v.process.reap waited).1, stage := .select } :=
      { hcalled with owned := fun hown => hcalled.owned (howned hown).1 }
    have hrecent := h.recent
    rw [hstage] at hrecent
    have hscans := hrecent.1
    dsimp only at hstep
    split at hstep
    · rename_i code hcode
      have hreaped := hprocess.note rfl (e := .reaped code) trivial rfl (by
        intro hown
        obtain ⟨-, error, herror, -⟩ := howned hown
        rw [hcode] at herror
        cases herror)
      apply Kept.of hstep ((Frame.note s _).trans (.note _ _))
      exact
        { hreaped with
          reaped := fun _ => ⟨code, List.mem_cons_self⟩
          stopped := fun _ => Option.isSome_iff_ne_none.mpr (scans_stop hscans) }
    · rename_i error herror
      split at hstep
      · rename_i hchild
        have hlost := hprocess.note rfl (e := .ownershipLost) trivial rfl (by
          intro hown
          obtain ⟨-, error', herror', hother⟩ := howned hown
          rw [herror, Except.error.injEq] at herror'
          exact absurd (herror' ▸ hchild) hother)
        exact .of hstep (((Frame.note s _).trans (.note _ _)).trans (.report _ _))
          (hlost.report _)
      · exact .of hstep ((Frame.note s _).trans (.report _ _)) (hprocess.report _)
  · cases hstep

theorem loop_kept {a : LoopAction} (h : Watches N s v) (hstep : v.step s a = some t)
    (ha : ∀ now, a ≠ .conclude now) : Kept N s t := by
  cases a with
  | poll => exact poll_kept h hstep
  | stop now => exact onStop_kept h hstep
  | input => exact onInput_kept h hstep
  | written result => exact onWritten_kept h hstep
  | read now result => exact onRead_kept h hstep
  | tick now => exact onTick_kept h hstep
  | observe now waited => exact observe_kept h hstep
  | terminate now killed => exact terminate_kept h hstep
  | escalate lastAt now killed => exact escalate_kept h hstep
  | inspect scan => exact inspect_kept h hstep
  | quiesce killed => exact quiesce_kept h hstep
  | confirm scan => exact confirm_kept h hstep
  | reap now waited => exact reap_kept h hstep
  | conclude now => exact absurd rfl (ha now)

end Supervisor

/-! ## The whole life of a session -/

/-- A session that has ended. -/
structure Ended (N : Prop) (s : Sys) : Prop where
  terminal : s.session.terminal = true
  reaped : .spawned ∈ s.trace → ∃ code, .reaped code ∈ s.trace
  finished : ∃ reason, .finished reason ∈ s.trace ∧
    s.session.info.terminationReason = some reason ∧
    (N → reason = .processExited → (∀ reason, .stopHandled reason ∉ s.trace) ∧
      .readFailed ∉ s.trace ∧ .leaderExited ∈ s.trace)

/-- What holds where the task stands. -/
def Pc.Holds (N : Prop) (s : Sys) : Pc → Prop
  | .preparing | .checking | .spawning => s.session.terminal = false ∧ s.trace = []
  | .registering process => s.session.terminal = false ∧ s.trace = [.spawned] ∧
      process.child = true
  | .supervising v => s.session.terminal = false ∧ Watches N s v
  | .closing | .released | .returned => Ended N s
  | .aborted => s.session.terminal = false

/-- What holds wherever the task stands. -/
structure Sound (N : Prop) (s : Sys) : Prop where
  lawful : Trace.Each Effect.Lawful s.trace
  slot : s.session.terminal = false → s.manager.active = some s.id
  status : s.session.info.status.isTerminal = s.session.terminal
  asked : N → s.session.stopReason ≠ some .processExited

structure Guards (N : Prop) (s : Sys) : Prop extends Sound N s where
  place : s.pc.Holds N s

/-- What a caller of the manager can do to the session of another task. -/
structure Undisturbed (N : Prop) (s t : Sys) : Prop where
  trace : t.trace = s.trace
  pc : t.pc = s.pc
  id : t.id = s.id
  terminal : t.session.terminal = s.session.terminal
  info : t.session.info = s.session.info
  output : t.session.output = s.session.output
  slot : s.manager.active = some s.id → t.manager.active = some s.id
  cancelled : s.session.stopCancelled = true → t.session.stopCancelled = true
  asked : N → s.session.stopReason ≠ some .processExited →
    t.session.stopReason ≠ some .processExited

namespace Undisturbed

theorem refl (s : Sys) : Undisturbed N s s :=
  ⟨rfl, rfl, rfl, rfl, rfl, rfl, fun h => h, fun h => h, fun _ h => h⟩

theorem mapStdin (s : Sys) (f : Stdin → Stdin) : Undisturbed N s (s.mapStdin f) :=
  ⟨rfl, rfl, rfl, rfl, rfl, rfl, fun h => h, fun h => h, fun _ h => h⟩

theorem manager (s : Sys) (m : Manager) (h : s.manager.active = some s.id → m.active = some s.id) :
    Undisturbed N s { s with manager := m } :=
  ⟨rfl, rfl, rfl, rfl, rfl, rfl, h, fun h => h, fun _ h => h⟩

theorem requestStop (s : Sys) (reason : TerminationReason) (h : N → reason ≠ .processExited) :
    Undisturbed N s (s.requestStop reason) where
  trace := rfl
  pc := rfl
  id := rfl
  terminal := rfl
  info := rfl
  output := rfl
  slot h := h
  cancelled _ := rfl
  asked hN hold := by
      simp only [Sys.requestStop, Session.requestStop]
      split
      · simpa using h hN
      · exact hold

theorem trans (h₁ : Undisturbed N s t) (h₂ : Undisturbed N t u) : Undisturbed N s u where
  trace := h₂.trace.trans h₁.trace
  pc := h₂.pc.trans h₁.pc
  id := h₂.id.trans h₁.id
  terminal := h₂.terminal.trans h₁.terminal
  info := h₂.info.trans h₁.info
  output := h₂.output.trans h₁.output
  slot h := h₁.id ▸ h₂.slot (h₁.id.symm ▸ h₁.slot h)
  cancelled h := h₂.cancelled (h₁.cancelled h)
  asked hN h := h₂.asked hN (h₁.asked hN h)

end Undisturbed

theorem callerStep_undisturbed {a : Action} (ha : N → a ≠ .requestStop .processExited)
    (hstep : s.callerStep a = some t) : Undisturbed N s t := by
  cases a with
  | requestStop reason =>
      cases hstep
      exact .requestStop s reason fun hN heq => ha hN (congrArg _ heq)
  | sendInput id text =>
      simp only [Sys.callerStep] at hstep
      split at hstep
      · cases hstep
        exact .mapStdin s _
      · cases hstep
        exact .refl s
      · cases hstep
        exact .refl s
  | trySend index durable =>
      simp only [Sys.callerStep] at hstep
      split at hstep
      · cases hstep
      · split at hstep
        · cases hstep
          exact (Undisturbed.mapStdin s _).trans (.mapStdin _ _)
        · cases hstep
          exact (Undisturbed.mapStdin s _).trans (.mapStdin _ _)
  | register other =>
      simp only [Sys.callerStep] at hstep
      split at hstep
      · rename_i m hm
        cases hstep
        apply Undisturbed.manager
        intro hactive
        -- nobody registers while the slot is taken
        unfold Manager.register at hm
        rw [hactive] at hm
        split at hm
        · cases hm
        · cases hm
      · cases hstep
        exact .refl s
  | finishedOther other =>
      simp only [Sys.callerStep] at hstep
      split at hstep
      · cases hstep
      · rename_i hother
        cases hstep
        apply Undisturbed.manager
        intro hactive
        rw [Manager.finished, hactive, if_neg (by simpa using Ne.symm hother)]
  | shutdown =>
      simp only [Sys.callerStep, Option.some.injEq] at hstep
      subst hstep
      have hmanager : Undisturbed N s
          { s with manager := { s.manager with shuttingDown := true } } := .manager s _ id
      split
      · exact hmanager
      · exact hmanager.trans (.requestStop _ _ fun _ heq => by cases heq)
  | _ => cases hstep

/-- A caller changes nothing the task counts on. -/
theorem Guards.undisturbed (h : Guards N s) (hstep : Undisturbed N s t) : Guards N t where
  lawful := hstep.trace ▸ h.lawful
  slot := by
      intro hterminal
      rw [hstep.id]
      exact hstep.slot (h.slot (hstep.terminal ▸ hterminal))
  status := by
      rw [hstep.info, hstep.terminal]
      exact h.status
  asked hN := hstep.asked hN (h.asked hN)
  place := by
      have hplace := h.place
      have hasked := fun hN => hstep.asked hN (h.asked hN)
      rw [hstep.pc]
      cases hpc : s.pc with
      | preparing | checking | spawning | registering process | aborted =>
          rw [hpc] at hplace
          simp only [Pc.Holds, hstep.terminal, hstep.trace] at hplace ⊢
          exact hplace
      | supervising v =>
          rw [hpc] at hplace
          obtain ⟨hterminal, hwatch⟩ := hplace
          refine ⟨hstep.terminal.trans hterminal, ?_⟩
          have hmoved : Watches N { t with trace := s.trace } v := { hwatch with
            unstopped := fun hstop => ⟨(hwatch.unstopped hstop).1, fun hread =>
              ⟨hstep.cancelled ((hwatch.unstopped hstop).2 hread).1,
                ((hwatch.unstopped hstop).2 hread).2⟩⟩
            asked := hasked }
          rw [← hstep.trace] at hmoved
          exact hmoved
      | closing | released | returned =>
          rw [hpc] at hplace
          exact ⟨hstep.terminal.trans hplace.terminal, hstep.trace ▸ hplace.reaped, by
            rw [hstep.trace, hstep.info]
            exact hplace.finished⟩

/-! ## The task -/

theorem finish_status (s : Session) (reason : TerminationReason) (code : Option Int)
    (truncated : Bool) : (s.finish reason code truncated).info.status.isTerminal = true := by
  cases reason <;> rfl

/-- Ending a session: `finish` publishes it, and the slot is still taken. -/
theorem Guards.finish (hasked : N → s.session.stopReason ≠ some .processExited)
    (hlawful : Trace.Each Effect.Lawful s.trace) {reason : TerminationReason}
    (hreaped : .spawned ∈ s.trace → ∃ code, .reaped code ∈ s.trace)
    (hreason : N → reason = .processExited → (∀ reason, .stopHandled reason ∉ s.trace) ∧
      .readFailed ∉ s.trace ∧ .leaderExited ∈ s.trace) (code : Option Int) (truncated : Bool) :
    Guards N (s.finish reason code truncated) where
  lawful := hlawful.cons hreaped
  slot := fun hterminal => by cases hterminal
  status := finish_status s.session reason code truncated
  asked := hasked
  place := by
      refine ⟨rfl, ?_, reason, List.mem_cons_self, rfl, ?_⟩
      · intro hspawned
        rcases List.mem_cons.mp hspawned with heq | hspawned
        · cases heq
        · obtain ⟨code, hcode⟩ := hreaped hspawned
          exact ⟨code, List.mem_cons_of_mem _ hcode⟩
      · intro hN heq
        obtain ⟨hstops, hreads, hexit⟩ := hreason hN heq
        refine ⟨?_, ?_, List.mem_cons_of_mem _ hexit⟩
        · intro r hmem
          rcases List.mem_cons.mp hmem with heq | hmem
          · cases heq
          · exact hstops r hmem
        · intro hmem
          rcases List.mem_cons.mp hmem with heq | hmem
          · cases heq
          · exact hreads hmem

/-- Nothing was spawned: the session ends with a reason of its own. -/
theorem Guards.finishEarly (h : Guards N s) (htrace : s.trace = [])
    {reason : TerminationReason} (hreason : N → reason ≠ .processExited) :
    Guards N (s.finish reason none false) := by
  apply Guards.finish h.asked h.lawful
  · intro hspawned
    rw [htrace] at hspawned
    cases hspawned
  · intro hN heq
    exact absurd heq (hreason hN)

/-- The task ends without the death of the process being known. -/
theorem Sound.abandon (h : Sound N s) (hterminal : s.session.terminal = false)
    (pending : Option Input) : Guards N (s.abandon pending) where
  lawful := h.lawful
  slot := h.slot
  status := h.status
  asked := h.asked
  place := hterminal

/-- Dropping a process that is still owned sends it a last signal. -/
theorem Sound.dropProcess (h : Sound N s) (process : PtyProcess) (killed : Result Unit)
    (hterminal : s.session.terminal = false)
    (howned : process.identityOwned = true → ∀ e ∈ s.trace, e.disowns = false)
    (pending : Option Input) : Guards N ((s.dropProcess process killed).abandon pending) := by
  unfold Sys.dropProcess Sys.signal
  split
  · split
    · rename_i result heq
      have hcalled : process.identityOwned = true := by
        rw [← PtyProcess.signalGroup_called, heq]
      exact
        { lawful := h.lawful.cons (howned hcalled)
          slot := h.slot
          status := h.status
          asked := h.asked
          place := hterminal }
    · exact h.abandon hterminal pending
  · exact h.abandon hterminal pending

theorem Supervisor.conclude_guards (hwatch : Watches N s v) {now : Instant}
    (hstep : v.conclude s now = some t) : Guards N t := by
  unfold conclude at hstep
  split at hstep
  · rename_i hguard
    simp only [Bool.and_eq_true, beq_iff_eq] at hguard
    obtain ⟨⟨hstage, hreaped⟩, -⟩ := hguard
    obtain ⟨code, hcode⟩ := hwatch.reaped hreaped
    have hlost : v.process.identityOwned = false := by
      by_contra howned
      rw [Bool.not_eq_false] at howned
      have hdisowns := hwatch.owned howned _ hcode
      cases hdisowns
    have hdrop : v.process.dropSignals = false := by
      rw [PtyProcess.dropSignals, hlost, Bool.and_false]
    obtain ⟨stop, hstop⟩ := Option.isSome_iff_exists.mp (hwatch.stopped (.inr hreaped))
    dsimp only at hstep
    rw [Sys.dropProcess, hdrop, if_neg Bool.false_ne_true, Option.some.injEq] at hstep
    subst hstep
    have hsealed := (hwatch.mapStdin (·.rejectInputs v.pending)).append hstage now
      v.decoder.finish
    apply Guards.finish hsealed.asked hsealed.lawful
    · exact fun _ => hsealed.reaped hreaped
    · intro hN hreason
      rw [hstop] at hreason
      exact hsealed.natural hN stop hstop hreason
  · cases hstep

/-- A step of the loop that stays in the loop keeps all that is known. -/
theorem Guards.kept (h : Guards N s) (hterminal : s.session.terminal = false)
    (hkept : Kept N s t) : Guards N t := by
  obtain ⟨hframe, v, hpc, hwatch⟩ := hkept
  have hopen : t.session.terminal = false := hframe.terminal.trans hterminal
  exact
    { lawful := hwatch.lawful
      slot := fun _ => by
        rw [hframe.active, hframe.id]
        exact h.slot hterminal
      status := by
        rw [hopen]
        apply hframe.status
        rw [h.status, hterminal]
      asked := hwatch.asked
      place := by
        rw [hpc]
        exact ⟨hopen, hwatch⟩ }

/-- `supervise` starts with a process nobody has waited for. -/
theorem watches_start {process : PtyProcess} (htrace : s.trace = [.spawned])
    (hasked : N → s.session.stopReason ≠ some .processExited) (ok : Bool) :
    Watches N s (.start process ok) where
  lawful := by
      rw [htrace]
      exact ⟨trivial, trivial⟩
  spawned := by
      rw [htrace]
      exact List.mem_cons_self
  unfinished := by
      intro reason
      rw [htrace]
      exact List.not_mem_cons_of_ne_of_not_mem nofun List.not_mem_nil
  owned := by
      intro _ e he
      rw [htrace, List.mem_singleton] at he
      rw [he]
      rfl
  exited := fun hexit => by cases hexit
  told := fun _ hstop => by cases hstop
  reaped := fun hreaped => by cases hreaped
  stopped := by
      rintro (hexit | hreaped)
      · cases hexit
      · cases hreaped
  recent := trivial
  natural := fun _ _ hstop => by cases hstop
  unstopped := by
      intro _
      rw [htrace]
      exact ⟨fun reason => List.not_mem_cons_of_ne_of_not_mem nofun List.not_mem_nil,
        fun hmem => absurd hmem (List.not_mem_cons_of_ne_of_not_mem nofun List.not_mem_nil)⟩
  asked := hasked

theorem runStep_guards {a : Action} (h : Guards N s) (hstep : s.runStep a = some t) :
    Guards N t := by
  have hplace := h.place
  have hreason : N → s.session.reason ≠ .processExited := by
    intro hN heq
    have hne := h.asked hN
    unfold Session.reason at heq
    cases hstop : s.session.stopReason with
    | none =>
        rw [hstop] at heq
        cases heq
    | some reason =>
        rw [hstop] at heq hne
        exact hne (congrArg some heq)
  unfold Sys.runStep at hstep
  split at hstep
  · -- the project directory
    split at hstep
    · rename_i hpc
      rw [hpc] at hplace
      split at hstep
      · cases hstep
        exact { h with place := hplace }
      · cases hstep
        exact h.finishEarly hplace.2 fun _ heq => by cases heq
    · cases hstep
  · -- nobody wants the session any more
    split at hstep
    · rename_i hpc
      rw [hpc] at hplace
      split at hstep
      · cases hstep
        apply h.finishEarly hplace.2
        intro hN
        split
        · exact hreason hN
        · exact fun heq => by cases heq
      · cases hstep
        exact { h with place := hplace }
    · cases hstep
  · -- the process is created, or it is not
    split at hstep
    · rename_i pid hpc
      rw [hpc] at hplace
      cases hstep
      exact
        { h with
          lawful := h.lawful.cons trivial
          place := ⟨hplace.1, congrArg _ hplace.2, rfl⟩ }
    · rename_i hpc
      rw [hpc] at hplace
      cases hstep
      exact h.finishEarly hplace.2 fun _ heq => by cases heq
    · rename_i message hpc
      rw [hpc] at hplace
      cases hstep
      exact
        { h with
          status := Eq.symm hplace.1
          place := hplace.1 }
    · cases hstep
  · -- the terminal is registered
    split at hstep
    · rename_i process hpc
      rw [hpc] at hplace
      obtain ⟨hterminal, htrace, -⟩ := hplace
      cases hstep
      have hstart : ∀ (s' : Sys) (ok : Bool), Undisturbed N s s' → Guards N
          { s' with pc := .supervising (.start process ok) } := by
        intro s' ok hs'
        have hnext := h.undisturbed hs'
        exact
          { hnext with
            place := ⟨hs'.terminal.trans hterminal, { watches_start
              (hs'.trace.trans htrace) hnext.asked ok with }⟩ }
      apply hstart
      split
      · exact .requestStop _ _ fun _ heq => by cases heq
      · split
        · exact .requestStop _ _ fun _ heq => by cases heq
        · exact .refl s
    · cases hstep
  · -- the loop
    split at hstep
    · rename_i action _ v hpc
      rw [hpc] at hplace
      obtain ⟨hterminal, hwatch⟩ := hplace
      by_cases hlast : ∃ now, action = LoopAction.conclude now
      · obtain ⟨now, hnow⟩ := hlast
        subst hnow
        exact v.conclude_guards hwatch hstep
      · rw [not_exists] at hlast
        exact h.kept hterminal (v.loop_kept hwatch hstep hlast)
    · cases hstep
  · -- the slot is given back
    split at hstep
    · rename_i hpc
      rw [hpc] at hplace
      cases hstep
      obtain ⟨reason, hfinished, hinfo, hnatural⟩ := hplace.finished
      have hmem {e : Effect} (he : e ∈ s.trace) : e ∈ Effect.released :: s.trace :=
        List.mem_cons_of_mem _ he
      have hnot {e : Effect} (hne : e ≠ .released) (he : e ∉ s.trace) :
          e ∉ Effect.released :: s.trace := List.not_mem_cons_of_ne_of_not_mem hne he
      exact
        { lawful := h.lawful.cons ⟨reason, hfinished⟩
          slot := fun hterminal => absurd (hplace.terminal.symm.trans hterminal) nofun
          status := h.status
          asked := h.asked
          place := by
              refine ⟨hplace.terminal, ?_, reason, hmem hfinished, hinfo, ?_⟩
              · intro hspawned
                rcases List.mem_cons.mp hspawned with heq | hspawned
                · cases heq
                · obtain ⟨code, hcode⟩ := hplace.reaped hspawned
                  exact ⟨code, hmem hcode⟩
              · intro hN heq
                obtain ⟨hstops, hreads, hexit⟩ := hnatural hN heq
                exact ⟨fun r => hnot nofun (hstops r), hnot nofun hreads, hmem hexit⟩ }
    · cases hstep
  · split at hstep
    · rename_i hpc
      rw [hpc] at hplace
      cases hstep
      exact { h with place := { hplace with } }
    · cases hstep
  · -- the task is torn down
    split at hstep
    · rename_i hpc
      rw [hpc] at hplace
      cases hstep
      exact h.abandon hplace.1 none
    · rename_i hpc
      rw [hpc] at hplace
      cases hstep
      exact h.abandon hplace.1 none
    · rename_i created killed _ hpc
      rw [hpc] at hplace
      split at hstep
      · cases hstep
        have hspawned : Sound N (s.note .spawned) :=
          { h.toSound with lawful := h.lawful.cons trivial }
        have hfresh : ∀ e ∈ (s.note .spawned).trace, e.disowns = false := by
          intro e he
          rw [show (s.note .spawned).trace = [.spawned] from congrArg _ hplace.2,
            List.mem_singleton] at he
          rw [he]
          rfl
        exact hspawned.dropProcess (.spawned 0) killed hplace.1 (fun _ => hfresh) none
      · cases hstep
        exact h.abandon hplace.1 none
    · rename_i process hpc
      rw [hpc] at hplace
      cases hstep
      apply h.dropProcess process _ hplace.1
      intro _ e he
      rw [hplace.2.1, List.mem_singleton] at he
      rw [he]
      rfl
    · rename_i v hpc
      rw [hpc] at hplace
      cases hstep
      exact h.dropProcess v.process _ hplace.1 hplace.2.owned v.pending
    · cases hstep
  · cases hstep

/-! ## Every run -/

theorem guards_start (N : Prop) (id : Uuid) (maxBytes stdinMaxBytes : Nat) :
    Guards N (Sys.start id maxBytes stdinMaxBytes) where
  lawful := trivial
  slot := fun _ => rfl
  status := rfl
  asked := fun _ => nofun
  place := ⟨rfl, rfl⟩

theorem step_cases {a : Action} (h : Sys.step a s = some t) :
    s.callerStep a = some t ∨ s.runStep a = some t := by
  unfold Sys.step at h
  cases hcaller : s.callerStep a with
  | some u =>
      rw [hcaller] at h
      exact .inl h
  | none =>
      rw [hcaller] at h
      exact .inr h

theorem step_guards {a : Action} (h : Guards N s) (ha : N → a ≠ .requestStop .processExited)
    (hstep : Sys.step a s = some t) : Guards N t := by
  rcases step_cases hstep with hcaller | hrun
  · exact h.undisturbed (callerStep_undisturbed ha hcaller)
  · exact runStep_guards h hrun

/-- A terminal session has left the loop. -/
theorem Guards.ended (h : Guards N s) (hterminal : s.session.terminal = true) : Ended N s ∧
    (s.pc = .closing ∨ s.pc = .released ∨ s.pc = .returned) := by
  have hplace := h.place
  cases hpc : s.pc with
  | closing =>
      rw [hpc] at hplace
      exact ⟨hplace, .inl rfl⟩
  | released =>
      rw [hpc] at hplace
      exact ⟨hplace, .inr (.inl rfl)⟩
  | returned =>
      rw [hpc] at hplace
      exact ⟨hplace, .inr (.inr rfl)⟩
  | preparing | checking | spawning | registering process | supervising v =>
      rw [hpc] at hplace
      exact absurd (hterminal.symm.trans hplace.1) nofun
  | aborted =>
      rw [hpc] at hplace
      exact absurd (hterminal.symm.trans hplace) nofun

end VivadoServer.Sessions
