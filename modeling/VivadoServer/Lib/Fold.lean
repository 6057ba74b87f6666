/-
  VivadoServer.Lib.Fold

  Loops that can fail.  A loop over a list keeps what each round keeps, where the
  rounds done so far are part of what is kept; and it comes to its end when every
  round does.
-/

import Mathlib.Data.List.Basic

namespace Fold

variable {α β ε : Type*} {step : β → α → Except ε β} {P : List α → β → Prop} {l : List α} {s out : β}

/-- What every round that goes through keeps holds at the end of the loop. -/
theorem foldlM_rule
    (hround : ∀ past a rest s s', l = past ++ a :: rest → P past s → step s a = .ok s' →
      P (past ++ [a]) s')
    (hs : P [] s) (h : l.foldlM step s = .ok out) : P l out := by
  -- the rounds done so far grow while the list shrinks
  suffices hrest : ∀ rest past s, l = past ++ rest → P past s → rest.foldlM step s = .ok out →
      P l out from hrest l [] s rfl hs h
  intro rest
  induction rest with
  | nil =>
      intro past s hl hpast hdone
      cases hdone
      rwa [hl, List.append_nil]
  | cons a rest ih =>
      intro past s hl hpast hdone
      rw [List.foldlM_cons] at hdone
      cases hstep : step s a with
      | error e =>
          rw [hstep] at hdone
          cases hdone
      | ok s' =>
          rw [hstep] at hdone
          apply ih (past ++ [a]) s' (by rw [hl, List.append_assoc]; rfl) _ hdone
          exact hround past a rest s s' hl hpast hstep

/-- A loop whose every round goes through comes to its end. -/
theorem foldlM_total
    (hround : ∀ past a rest s, l = past ++ a :: rest → P past s →
      ∃ s', step s a = .ok s' ∧ P (past ++ [a]) s')
    (hs : P [] s) : ∃ out, l.foldlM step s = .ok out ∧ P l out := by
  suffices hrest : ∀ rest past s, l = past ++ rest → P past s →
      ∃ out, rest.foldlM step s = .ok out ∧ P l out from hrest l [] s rfl hs
  intro rest
  induction rest with
  | nil =>
      intro past s hl hpast
      refine ⟨s, rfl, ?_⟩
      rwa [hl, List.append_nil]
  | cons a rest ih =>
      intro past s hl hpast
      obtain ⟨s', hstep, hkept⟩ := hround past a rest s hl hpast
      obtain ⟨out, hout, hend⟩ := ih (past ++ [a]) s' (by rw [hl, List.append_assoc]; rfl) hkept
      refine ⟨out, ?_, hend⟩
      rw [List.foldlM_cons, hstep]
      exact hout


end Fold
