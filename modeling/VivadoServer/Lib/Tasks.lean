/-
  VivadoServer.Lib.Tasks

  Any number of tasks over one shared state.  A task is the place `p : π` at
  which it stands; a step runs one task from there to its next suspension point,
  starts a new task, or lets the environment move.  What a call answers and which
  branch of a race is ready are part of the action, so any schedule is a list of
  actions.

  An `Outline` is an assertion for every place (`At`), a shared invariant (`Inv`)
  and a bound on what a step may do to the rest (`Does`).  Its obligations are
  about one place at a time: what a step establishes for its own task, and that
  a step within the bound keeps the assertions of all other tasks.  The rule
  `Outline.run_holds` puts them together for every schedule.  An id
  that no task has is `Idle`: the shared state says nothing of it.
-/

import VivadoServer.Lib.StepSystem
import Mathlib.Logic.Function.Basic

namespace Tasks

open StepSystem

variable {σ π χ ε : Type*}

/-- What one step of a task does. -/
structure Outcome (σ π : Type*) where
  shared : σ
  place : π
  /-- A task started by this step. -/
  child : Option π := none

structure Program (σ π χ ε : Type*) where
  /-- The admission of a task that is started from outside. -/
  enter : Nat → σ → π → Option σ
  /-- One step of a task, with the id a task gets that it may start; `χ` is what it is
      answered. -/
  exec : Nat → Nat → χ → σ → π → Option (Outcome σ π)
  env : ε → σ → Option σ

structure State (σ π : Type*) where
  shared : σ
  tasks : Nat → Option π

inductive Action (π χ ε : Type*) where
  | enter (task : Nat) (place : π)
  | exec (task : Nat) (answer : χ) (child : Nat)
  | env (event : ε)
deriving Repr

/-- Every state starts without a task. -/
def State.start (shared : σ) : State σ π := ⟨shared, fun _ => none⟩

def State.put (s : State σ π) (task : Nat) (place : π) : State σ π :=
  { s with tasks := Function.update s.tasks task (some place) }

@[simp] theorem State.put_shared (s : State σ π) (task : Nat) (place : π) :
    (s.put task place).shared = s.shared := rfl

@[simp] theorem State.put_self (s : State σ π) (task : Nat) (place : π) :
    (s.put task place).tasks task = some place := Function.update_self ..

theorem State.put_other {s : State σ π} {task n : Nat} {place : π} (h : n ≠ task) :
    (s.put task place).tasks n = s.tasks n := Function.update_of_ne h ..

/-- Put the task where its step left it, and its child at a free task id. -/
def State.settle (s : State σ π) (task child : Nat) (o : Outcome σ π) : Option (State σ π) :=
  let t := State.put ⟨o.shared, s.tasks⟩ task o.place
  match o.child with
  | none => some t
  | some place => if (t.tasks child).isNone then some (t.put child place) else none

namespace Program

variable (P : Program σ π χ ε)

def step : Action π χ ε → State σ π → Option (State σ π)
  | .enter task place, s =>
    if (s.tasks task).isNone then
      (P.enter task s.shared place).map fun shared => State.put ⟨shared, s.tasks⟩ task place
    else none
  | .exec task answer child, s =>
    (s.tasks task).bind fun place =>
      (P.exec task child answer s.shared place).bind (s.settle task child)
  | .env event, s => (P.env event s.shared).map fun shared => ⟨shared, s.tasks⟩

/-- The three ways to take a step. -/
theorem step_cases {a : Action π χ ε} {s t : State σ π} (h : P.step a s = some t) :
    (∃ task place shared, a = .enter task place ∧ s.tasks task = none ∧
      P.enter task s.shared place = some shared ∧ t = State.put ⟨shared, s.tasks⟩ task place) ∨
    (∃ task answer child place o, a = .exec task answer child ∧ s.tasks task = some place ∧
      P.exec task child answer s.shared place = some o ∧ s.settle task child o = some t) ∨
    (∃ event shared, a = .env event ∧ P.env event s.shared = some shared ∧
      t = ⟨shared, s.tasks⟩) := by
  cases a with
  | enter task place =>
      simp only [step] at h
      split at h
      · rename_i hfree
        obtain ⟨shared, hshared, rfl⟩ := Option.map_eq_some_iff.mp h
        exact .inl ⟨task, place, shared, rfl, by simpa using hfree, hshared, rfl⟩
      · cases h
  | exec task answer child =>
      obtain ⟨place, hplace, h⟩ := Option.bind_eq_some_iff.mp h
      obtain ⟨o, ho, hsettle⟩ := Option.bind_eq_some_iff.mp h
      exact .inr (.inl ⟨task, answer, child, place, o, rfl, hplace, ho, hsettle⟩)
  | env event =>
      obtain ⟨shared, hshared, rfl⟩ := Option.map_eq_some_iff.mp h
      exact .inr (.inr ⟨event, shared, rfl, hshared, rfl⟩)

end Program

namespace State

variable {s t : State σ π} {task child : Nat} {o : Outcome σ π}

/-- A step that settled moved its task, and started its child at a free id. -/
theorem settle_cases (h : s.settle task child o = some t) :
    (o.child = none ∧ t = put ⟨o.shared, s.tasks⟩ task o.place) ∨
    (∃ q, o.child = some q ∧ child ≠ task ∧ s.tasks child = none ∧
      t = (put ⟨o.shared, s.tasks⟩ task o.place).put child q) := by
  simp only [settle] at h
  split at h
  · rename_i hchild
    cases h
    exact .inl ⟨hchild, rfl⟩
  · rename_i q hchild
    split at h
    · rename_i hfree
      cases h
      have hne : child ≠ task := by
        rintro rfl
        simp at hfree
      rw [put_other hne] at hfree
      exact .inr ⟨q, hchild, hne, by simpa using hfree, rfl⟩
    · cases h

/-- A settled step changed the shared state as its outcome says. -/
theorem settle_shared (h : s.settle task child o = some t) : t.shared = o.shared := by
  obtain ⟨-, rfl⟩ | ⟨q, -, -, -, rfl⟩ := settle_cases h <;> rfl

/-- The task that took the step stands where its outcome says. -/
theorem settle_self (h : s.settle task child o = some t) : t.tasks task = some o.place := by
  obtain ⟨-, rfl⟩ | ⟨q, -, hne, -, rfl⟩ := settle_cases h
  · exact put_self ..
  · rw [put_other hne.symm, put_self]

/-- Every other task that was there stays where it is. -/
theorem settle_other {n : Nat} {p : π} (h : s.settle task child o = some t) (hn : n ≠ task)
    (hp : s.tasks n = some p) : t.tasks n = some p := by
  obtain ⟨-, rfl⟩ | ⟨q, -, -, hfree, rfl⟩ := settle_cases h
  · rw [put_other hn]
    exact hp
  · have hne : n ≠ child := by
      rintro rfl
      rw [hfree] at hp
      cases hp
    rw [put_other hne, put_other hn]
    exact hp

/-- After a settled step each task stands where it stood, where its own step led,
    or where its parent started it. -/
theorem settle_tasks {n : Nat} {p : π} (h : s.settle task child o = some t)
    (hp : t.tasks n = some p) :
    (n = task ∧ p = o.place) ∨ (n ≠ task ∧ s.tasks n = some p) ∨
      (n ≠ task ∧ s.tasks n = none ∧ o.child = some p) := by
  by_cases hn : n = task
  · subst hn
    rw [settle_self h] at hp
    exact .inl ⟨rfl, (Option.some.inj hp).symm⟩
  obtain ⟨-, rfl⟩ | ⟨q, hchild, -, hfree, rfl⟩ := settle_cases h
  · rw [put_other hn] at hp
    exact .inr (.inl ⟨hn, hp⟩)
  · by_cases hchild' : n = child
    · subst hchild'
      rw [put_self] at hp
      exact .inr (.inr ⟨hn, hfree, hchild.trans hp⟩)
    · rw [put_other hchild', put_other hn] at hp
      exact .inr (.inl ⟨hn, hp⟩)

end State

/-! ## Proof outlines -/

/-- Assertions for the places of a program, with the obligations on single steps.
    `Does mover born` bounds a step of `mover`, `none` for the environment, that
    starts the task `born`; `Idle` is what the shared state says of an id that no
    task has. -/
structure Outline (P : Program σ π χ ε) where
  Inv : σ → Prop
  At : Nat → σ → π → Prop
  Idle : Nat → σ → Prop
  Does : Option Nat → Option Nat → σ → σ → Prop
  enter : ∀ {task s p s'}, Inv s → Idle task s → P.enter task s p = some s' →
    Inv s' ∧ At task s' p ∧ Does (some task) none s s'
  exec : ∀ {task child c s p o}, Inv s → At task s p → P.exec task child c s p = some o →
    (o.child.isSome = true → child ≠ task ∧ Idle child s) →
      Inv o.shared ∧ At task o.shared o.place ∧
        Does (some task) (o.child.map fun _ => child) s o.shared ∧
        ∀ q, o.child = some q → At child o.shared q
  env : ∀ {e s s'}, Inv s → P.env e s = some s' → Inv s' ∧ Does none none s s'
  stable : ∀ {mover born task s s' p}, Inv s → Inv s' → Does mover born s s' →
    mover ≠ some task → born ≠ some task → At task s p → At task s' p
  idle : ∀ {mover born task s s'}, Does mover born s s' → mover ≠ some task →
    born ≠ some task → Idle task s → Idle task s'

namespace Outline

variable {P : Program σ π χ ε} (O : Outline P)

/-- The invariant, and what is asserted of each task id. -/
structure Holds (s : State σ π) : Prop where
  inv : O.Inv s.shared
  places : ∀ {task p}, s.tasks task = some p → O.At task s.shared p
  idle : ∀ {task}, s.tasks task = none → O.Idle task s.shared

theorem start_holds {shared : σ} (h : O.Inv shared) (hidle : ∀ task, O.Idle task shared) :
    O.Holds (State.start shared) :=
  ⟨h, nofun, fun _ => hidle _⟩

/-- The id of a task that a step starts is not in use. -/
theorem settle_born {task child : Nat} {o : Outcome σ π} {s t : State σ π} (h : O.Holds s)
    (hsettle : s.settle task child o = some t) (hsome : o.child.isSome = true) :
    child ≠ task ∧ O.Idle child s.shared := by
  obtain ⟨hnone, -⟩ | ⟨q, -, hne, hfree, -⟩ := State.settle_cases hsettle
  · rw [hnone] at hsome
    cases hsome
  · exact ⟨hne, h.idle hfree⟩

/-- A step respects the bound of its mover. -/
theorem step_does {a : Action π χ ε} {s t : State σ π} (h : O.Holds s)
    (hstep : P.step a s = some t) : ∃ mover born, O.Does mover born s.shared t.shared := by
  obtain ⟨task, place, shared, -, hfree, henter, rfl⟩ | ⟨task, answer, child, place, o, -, hplace,
    hexec, hsettle⟩ | ⟨event, shared, -, henv, rfl⟩ := P.step_cases hstep
  · exact ⟨some task, none, (O.enter h.inv (h.idle hfree) henter).2.2⟩
  · rw [State.settle_shared hsettle]
    exact ⟨some task, _, (O.exec h.inv (h.places hplace) hexec (O.settle_born h hsettle)).2.2.1⟩
  · exact ⟨none, none, (O.env h.inv henv).2⟩

theorem step_holds {a : Action π χ ε} {s t : State σ π} (h : O.Holds s)
    (hstep : P.step a s = some t) : O.Holds t := by
  have hmover : ∀ {n task : Nat}, n ≠ task → some task ≠ some n :=
    fun hn heq => hn (Option.some.inj heq).symm
  obtain ⟨task, place, shared, -, hfree, henter, rfl⟩ | ⟨task, answer, child, place, o, -, hplace,
    hexec, hsettle⟩ | ⟨event, shared, -, henv, rfl⟩ := P.step_cases hstep
  · obtain ⟨hinv, hat, hdoes⟩ := O.enter h.inv (h.idle hfree) henter
    refine ⟨hinv, @fun n p hp => ?_, @fun n hn => ?_⟩
    · by_cases hne : n = task
      · subst hne
        rw [State.put_self] at hp
        cases hp
        exact hat
      · rw [State.put_other hne] at hp
        exact O.stable h.inv hinv hdoes (hmover hne) nofun (h.places hp)
    · have hne : n ≠ task := by
        rintro rfl
        rw [State.put_self] at hn
        cases hn
      rw [State.put_other hne] at hn
      exact O.idle hdoes (hmover hne) nofun (h.idle hn)
  · obtain ⟨hinv, hat, hdoes, hchild⟩ :=
      O.exec h.inv (h.places hplace) hexec (O.settle_born h hsettle)
    -- the task that is started is none of those that were there, or stay idle
    have hborn : ∀ {n}, (s.tasks n ≠ none ∨ t.tasks n = none) →
        o.child.map (fun _ => child) ≠ some n := by
      intro n hn heq
      obtain ⟨q, hq, rfl⟩ := Option.map_eq_some_iff.mp heq
      obtain ⟨hnone, -⟩ | ⟨q', -, -, hfree, rfl⟩ := State.settle_cases hsettle
      · rw [hnone] at hq
        cases hq
      · obtain hn | hn := hn
        · exact hn hfree
        · rw [State.put_self] at hn
          cases hn
    refine ⟨State.settle_shared hsettle ▸ hinv, @fun n p hp => ?_, @fun n hn => ?_⟩
    · rw [State.settle_shared hsettle]
      obtain ⟨rfl, rfl⟩ | ⟨hne, hp'⟩ | ⟨hne, hfree, hq⟩ := State.settle_tasks hsettle hp
      · exact hat
      · have hnew := hborn (.inl (by rw [hp']; exact nofun))
        exact O.stable h.inv hinv hdoes (hmover hne) hnew (h.places hp')
      · obtain ⟨hnone, -⟩ | ⟨q', -, -, -, rfl⟩ := State.settle_cases hsettle
        · rw [hnone] at hq
          cases hq
        · by_cases hn : n = child
          · subst hn
            exact hchild p hq
          · rw [State.put_other hn, State.put_other hne, hfree] at hp
            cases hp
    · rw [State.settle_shared hsettle]
      have hne : n ≠ task := by
        rintro rfl
        rw [State.settle_self hsettle] at hn
        cases hn
      have hfree : s.tasks n = none := by
        by_contra hsome
        obtain ⟨p, hp⟩ := Option.ne_none_iff_exists'.mp hsome
        rw [State.settle_other hsettle hne hp] at hn
        cases hn
      exact O.idle hdoes (hmover hne) (hborn (.inr hn)) (h.idle hfree)
  · obtain ⟨hinv, hdoes⟩ := O.env h.inv henv
    exact ⟨hinv, fun hp => O.stable h.inv hinv hdoes nofun nofun (h.places hp),
      fun hn => O.idle hdoes nofun nofun (h.idle hn)⟩

/-- What the outline asserts holds after every schedule. -/
theorem run_holds {ok : Action π χ ε → State σ π → Prop} {s t : State σ π}
    (hrun : Run P.step ok s t) (h : O.Holds s) : O.Holds t :=
  hrun.invariant (fun _ _ _ h _ hstep => O.step_holds h hstep) h

/-- A preorder that contains what every mover does relates the ends of a run. -/
theorem run_related {R : σ → σ → Prop} {ok : Action π χ ε → State σ π → Prop} {s t : State σ π}
    (hrefl : ∀ s, R s s) (htrans : ∀ s t u, R s t → R t u → R s u)
    (hdoes : ∀ mover born s s', O.Inv s → O.Does mover born s s' → R s s')
    (hrun : Run P.step ok s t) (h : O.Holds s) : R s.shared t.shared := by
  refine hrun.related (R := fun s t => R s.shared t.shared) (I := O.Holds)
    (fun _ => hrefl _) (fun _ _ _ => htrans _ _ _)
    (fun _ _ _ h _ hstep => O.step_holds h hstep) (fun a s t h _ hstep => ?_) h
  obtain ⟨mover, born, hmove⟩ := O.step_does h hstep
  exact hdoes mover born _ _ h.inv hmove

/-! ## Duties -/

section Duties

variable {Open : σ → Prop} {Carries : Nat → π → Prop} {s t : State σ π}

/-- What is to be done is in the hands of a task, when the only ways to open it are to
    take it on or to start a task that does, and nobody who carries it drops it. -/
theorem carried_of_run {ok : Action π χ ε → State σ π → Prop}
    (henter : ∀ {task s p s'}, O.Inv s → P.enter task s p = some s' → Open s' → Open s)
    (hexec : ∀ {task child c s p o}, O.Inv s → O.At task s p → P.exec task child c s p = some o →
      Open o.shared → (Open s ∧ ¬ Carries task p) ∨ Carries task o.place ∨
        ∃ q, o.child = some q ∧ Carries child q)
    (henv : ∀ {e s s'}, O.Inv s → P.env e s = some s' → Open s' → Open s)
    (hrun : Run P.step ok s t) (h : O.Holds s)
    (hstart : Open s.shared → ∃ n p, s.tasks n = some p ∧ Carries n p)
    (hopen : Open t.shared) : ∃ n p, t.tasks n = some p ∧ Carries n p := by
  have hboth : O.Holds t ∧ (Open t.shared → ∃ n p, t.tasks n = some p ∧ Carries n p) := by
    refine hrun.invariant (I := fun s => O.Holds s ∧
      (Open s.shared → ∃ n p, s.tasks n = some p ∧ Carries n p))
      (fun a s t hs _ hstep => ⟨O.step_holds hs.1 hstep, fun hopen => ?_⟩) ⟨h, hstart⟩
    obtain ⟨hholds, hcarried⟩ := hs
    obtain ⟨task, place, shared, -, hfree, henter', rfl⟩ | ⟨task, answer, child, place, o, -, hplace,
      hexec', hsettle⟩ | ⟨event, shared, -, henv', rfl⟩ := P.step_cases hstep
    · obtain ⟨n, p, hp, hcarries⟩ := hcarried (henter hholds.inv henter' hopen)
      have hne : n ≠ task := by
        rintro rfl
        rw [hfree] at hp
        cases hp
      exact ⟨n, p, by rw [State.put_other hne]; exact hp, hcarries⟩
    · rw [State.settle_shared hsettle] at hopen
      obtain ⟨hopen', hnot⟩ | hcarries | ⟨q, hq, hcarries⟩ :=
        hexec hholds.inv (hholds.places hplace) hexec' hopen
      · obtain ⟨n, p, hp, hcarries⟩ := hcarried hopen'
        have hne : n ≠ task := by
          rintro rfl
          rw [hplace] at hp
          cases hp
          exact hnot hcarries
        exact ⟨n, p, State.settle_other hsettle hne hp, hcarries⟩
      · exact ⟨task, _, State.settle_self hsettle, hcarries⟩
      · obtain ⟨hnone, -⟩ | ⟨q', hq', -, -, rfl⟩ := State.settle_cases hsettle
        · rw [hnone] at hq
          cases hq
        · rw [hq] at hq'
          cases hq'
          exact ⟨child, q, State.put_self .., hcarries⟩
    · exact hcarried (henv hholds.inv henv' hopen)
  exact hboth.2 hopen

/-- At most one task carries it, when a task that takes it on finds it not taken. -/
theorem carrier_unique {Taken : σ → Prop} {ok : Action π χ ε → State σ π → Prop}
    (htaken : ∀ {n s p}, O.Inv s → O.At n s p → Carries n p → Taken s)
    (henter : ∀ {task s p s'}, P.enter task s p = some s' → ¬ Carries task p)
    (hexec : ∀ {task child c s p o}, O.Inv s → O.At task s p → P.exec task child c s p = some o →
      (Carries task o.place → Carries task p) ∧
      ∀ q, o.child = some q → Carries child q → ¬ Taken s ∧ ¬ Carries task o.place)
    (hrun : Run P.step ok s t) (h : O.Holds s)
    (hstart : ∀ {n n' p p'}, s.tasks n = some p → s.tasks n' = some p' → Carries n p →
      Carries n' p' → n = n')
    {n n' : Nat} {p p' : π} (hp : t.tasks n = some p) (hp' : t.tasks n' = some p')
    (hcarries : Carries n p) (hcarries' : Carries n' p') : n = n' := by
  suffices hall : O.Holds t ∧ ∀ {n n' p p'}, t.tasks n = some p → t.tasks n' = some p' →
      Carries n p → Carries n' p' → n = n' from hall.2 hp hp' hcarries hcarries'
  refine hrun.invariant (I := fun s => O.Holds s ∧ ∀ {n n' p p'}, s.tasks n = some p →
    s.tasks n' = some p' → Carries n p → Carries n' p' → n = n')
    (fun a s t hs _ hstep => ⟨O.step_holds hs.1 hstep, fun {n n' p p'} hp hp' hc hc' => ?_⟩) ⟨h, hstart⟩
  obtain ⟨hholds, hunique⟩ := hs
  obtain ⟨task, place, shared, -, hfree, henter', rfl⟩ | ⟨task, answer, child, place, o, -, hplace,
    hexec', hsettle⟩ | ⟨event, shared, -, henv', rfl⟩ := P.step_cases hstep
  · have hold : ∀ {n p}, (State.put ⟨shared, s.tasks⟩ task place).tasks n = some p → Carries n p →
        s.tasks n = some p := by
      intro n p hp hc
      by_cases hn : n = task
      · subst hn
        rw [State.put_self] at hp
        cases hp
        exact absurd hc (henter henter')
      · rwa [State.put_other hn] at hp
    exact hunique (hold hp hc) (hold hp' hc') hc hc'
  · obtain ⟨hself, hchild⟩ := hexec hholds.inv (hholds.places hplace) hexec'
    -- whoever carries it now carried it before, or is the child of this step
    have hold : ∀ {n p}, t.tasks n = some p → Carries n p → (∃ p', s.tasks n = some p' ∧ Carries n p') ∨
        (n = child ∧ ∃ q, o.child = some q ∧ Carries child q) := by
      intro n p hp hc
      obtain ⟨rfl, rfl⟩ | ⟨hne, hp'⟩ | ⟨hne, hfree, hq⟩ := State.settle_tasks hsettle hp
      · exact .inl ⟨_, hplace, hself hc⟩
      · exact .inl ⟨p, hp', hc⟩
      · obtain ⟨hnone, -⟩ | ⟨q', hq', -, -, rfl⟩ := State.settle_cases hsettle
        · rw [hnone] at hq
          cases hq
        · have hn : n = child := by
            by_contra hn
            rw [State.put_other hn, State.put_other hne, hfree] at hp
            cases hp
          subst hn
          exact .inr ⟨rfl, p, hq, hc⟩
    obtain ⟨r, hr, hrc⟩ | ⟨rfl, q, hq, hqc⟩ := hold hp hc <;>
      obtain ⟨r', hr', hrc'⟩ | ⟨rfl, q', hq', hqc'⟩ := hold hp' hc'
    · exact hunique hr hr' hrc hrc'
    · exact absurd (htaken hholds.inv (hholds.places hr) hrc) (hchild q' hq' hqc').1
    · exact absurd (htaken hholds.inv (hholds.places hr') hrc') (hchild q hq hqc).1
    · rfl
  · exact hunique hp hp' hc hc'

end Duties

end Outline

end Tasks
