/-
  VivadoServer.Lib.Trace

  Traces of effects, the newest first, and laws about them.  A law `P e past`
  says when the effect `e` may happen after the effects `past`; a trace is
  lawful (`Trace.Each P`) when every effect in it met its law as it happened.
  A system keeps its trace lawful by checking the law of each effect it adds.
-/

import Mathlib

namespace Trace

variable {ε : Type*} {P Q : ε → List ε → Prop} {e : ε} {trace past : List ε}

/-- Every effect of the trace met the law `P` when it happened. -/
def Each (P : ε → List ε → Prop) : List ε → Prop
  | [] => True
  | e :: past => P e past ∧ Each P past

@[simp] theorem each_nil : Each P [] := trivial

theorem Each.cons (h : Each P past) (he : P e past) : Each P (e :: past) := ⟨he, h⟩

/-- The law, read off at any place of a lawful trace. -/
theorem Each.law {later : List ε} (h : Each P trace) (hsplit : trace = later ++ e :: past) :
    P e past := by
  induction later generalizing trace with
  | nil =>
      rw [hsplit, List.nil_append] at h
      exact h.1
  | cons a later ih =>
      rw [hsplit, List.cons_append] at h
      exact ih h.2 rfl

theorem each_iff : Each P trace ↔ ∀ later e past, trace = later ++ e :: past → P e past := by
  constructor
  · intro h later e past hsplit
    exact h.law hsplit
  · intro h
    induction trace with
    | nil => exact trivial
    | cons a trace ih =>
        refine ⟨h [] a trace rfl, ih ?_⟩
        intro later e past hsplit
        exact h (a :: later) e past (by rw [hsplit, List.cons_append])

/-- An effect that happened has a place in the trace. -/
theorem exists_split (h : e ∈ trace) : ∃ later past, trace = later ++ e :: past :=
  List.append_of_mem h

end Trace
