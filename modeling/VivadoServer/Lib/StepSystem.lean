/-
  VivadoServer.Lib.StepSystem

  Runs of a system given by a partial step function `step : α → σ → Option σ`:
  an action either has no effect to offer in a state (`none`) or leads to one
  next state.  Everything nondeterministic (which task moves, which call fails,
  what time it is) is a part of the action, so a run is a list of actions and a
  concrete run can be evaluated.

  `Run step ok s t` is a run from `s` to `t` whose every step meets `ok` in the
  state it starts from.  The two induction rules are stated once here:

    * `Run.invariant` — what every step preserves holds at the end of a run;
    * `Run.related`   — a reflexive and transitive relation that every step
                        respects relates the two ends of a run.
-/

import Mathlib.Logic.Relation

namespace StepSystem

variable {σ α : Type*}

/-- A run of `step` from `s`, each of whose steps meets `ok` where it starts. -/
inductive Run (step : α → σ → Option σ) (ok : α → σ → Prop) (s : σ) : σ → Prop
  | refl : Run step ok s s
  | tail {t u : σ} {a : α} (run : Run step ok s t) (hok : ok a t) (hstep : step a t = some u) :
      Run step ok s u

namespace Run

variable {step : α → σ → Option σ} {ok ok' : α → σ → Prop} {s t u : σ}

theorem single {a : α} (hok : ok a s) (hstep : step a s = some t) : Run step ok s t :=
  .tail .refl hok hstep

theorem trans (h₁ : Run step ok s t) (h₂ : Run step ok t u) : Run step ok s u := by
  induction h₂ with
  | refl => exact h₁
  | tail _ hok hstep ih => exact .tail ih hok hstep

/-- Weakening what the steps are known to meet. -/
theorem mono (himp : ∀ a s, ok a s → ok' a s) (h : Run step ok s t) : Run step ok' s t := by
  induction h with
  | refl => exact .refl
  | tail _ hok hstep ih => exact .tail ih (himp _ _ hok) hstep

/-- What every step preserves, a run preserves. -/
theorem invariant {I : σ → Prop}
    (hpres : ∀ a s t, I s → ok a s → step a s = some t → I t)
    (h : Run step ok s t) (hs : I s) : I t := by
  induction h with
  | refl => exact hs
  | tail _ hok hstep ih => exact hpres _ _ _ ih hok hstep

/-- A preorder that every step from a good state respects relates the two ends
    of a run that starts in a good state. -/
theorem related {I : σ → Prop} {R : σ → σ → Prop}
    (hrefl : ∀ s, R s s) (htrans : ∀ s t u, R s t → R t u → R s u)
    (hpres : ∀ a s t, I s → ok a s → step a s = some t → I t)
    (hrel : ∀ a s t, I s → ok a s → step a s = some t → R s t)
    (h : Run step ok s t) (hs : I s) : R s t := by
  induction h with
  | refl => exact hrefl _
  | tail run hok hstep ih =>
      exact htrans _ _ _ ih (hrel _ _ _ (run.invariant hpres hs) hok hstep)

end Run

/-! ## Evaluating a concrete run -/

/-- Perform a list of actions, stopping at the first one that is not enabled. -/
def exec (step : α → σ → Option σ) : List α → σ → Option σ
  | [], s => some s
  | a :: as, s => (step a s).bind (exec step as)

@[simp] theorem exec_nil (step : α → σ → Option σ) (s : σ) : exec step [] s = some s := rfl

theorem exec_cons (step : α → σ → Option σ) (a : α) (as : List α) (s : σ) :
    exec step (a :: as) s = (step a s).bind (exec step as) := rfl

theorem exec_append (step : α → σ → Option σ) (as bs : List α) (s : σ) :
    exec step (as ++ bs) s = (exec step as s).bind (exec step bs) := by
  induction as generalizing s with
  | nil => rfl
  | cons a as ih =>
      simp only [List.cons_append, exec_cons]
      cases step a s with
      | none => rfl
      | some t => exact ih t

/-- An evaluated list of actions is a run of just these actions. -/
theorem Run.of_exec_mem {step : α → σ → Option σ} {as : List α} {s t : σ}
    (h : exec step as s = some t) : Run step (fun a _ => a ∈ as) s t := by
  induction as generalizing s with
  | nil => cases h; exact .refl
  | cons a as ih =>
      obtain ⟨m, hstep, hrest⟩ := Option.bind_eq_some_iff.mp h
      have hlater : Run step (fun b _ => b ∈ a :: as) m t :=
        Run.mono (fun _ _ hmem => List.mem_cons_of_mem _ hmem) (ih hrest)
      have hfirst : Run step (fun b _ => b ∈ a :: as) s m := .single List.mem_cons_self hstep
      exact hfirst.trans hlater

/-- An evaluated list of actions is a run that asks nothing of its steps. -/
theorem Run.of_exec {step : α → σ → Option σ} {as : List α} {s t : σ}
    (h : exec step as s = some t) : Run step (fun _ _ => True) s t :=
  Run.mono (fun _ _ _ => trivial) (Run.of_exec_mem h)

/-- A checked outcome of a list of actions, as a state. -/
theorem exists_of_exec {step : α → σ → Option σ} {as : List α} {s : σ} {check : σ → Bool}
    (h : (exec step as s).any check = true) : ∃ t, exec step as s = some t ∧ check t = true :=
  (Option.any_eq_true _ _).mp h

/-- Perform a list of actions, checking `ok` before each of them. -/
def execIf (step : α → σ → Option σ) (ok : α → σ → Bool) : List α → σ → Option σ
  | [], s => some s
  | a :: as, s => if ok a s then (step a s).bind (execIf step ok as) else none

/-- An evaluated list of actions whose check passed is a run meeting the check. -/
theorem Run.of_execIf {step : α → σ → Option σ} {ok : α → σ → Bool} {as : List α} {s t : σ}
    (h : execIf step ok as s = some t) : Run step (fun a s => ok a s = true) s t := by
  induction as generalizing s with
  | nil => cases h; exact .refl
  | cons a as ih =>
      simp only [execIf] at h
      split at h
      · rename_i hok
        obtain ⟨m, hstep, hrest⟩ := Option.bind_eq_some_iff.mp h
        have hfirst : Run step (fun a s => ok a s = true) s m := .single hok hstep
        exact hfirst.trans (ih hrest)
      · cases h

/-- The check has no effect of its own. -/
theorem exec_of_execIf {step : α → σ → Option σ} {ok : α → σ → Bool} {as : List α} {s t : σ}
    (h : execIf step ok as s = some t) : exec step as s = some t := by
  induction as generalizing s with
  | nil => exact h
  | cons a as ih =>
      simp only [execIf] at h
      split at h
      · obtain ⟨m, hstep, hrest⟩ := Option.bind_eq_some_iff.mp h
        rw [exec_cons, hstep]
        exact ih hrest
      · cases h

/-- A checked outcome of a checked list of actions, as a run. -/
theorem exists_of_execIf {step : α → σ → Option σ} {ok : α → σ → Bool} {as : List α} {s : σ}
    {check : σ → Bool} (h : (execIf step ok as s).any check = true) :
    ∃ t, Run step (fun a s => ok a s = true) s t ∧ check t = true := by
  obtain ⟨t, ht, hcheck⟩ := (Option.any_eq_true _ _).mp h
  exact ⟨t, .of_execIf ht, hcheck⟩

end StepSystem
