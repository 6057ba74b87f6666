/-
  VivadoServer.Lib.Triple

  Programs over a state that may fail, and what is known after them.  A triple
  gives one condition for a program that returns and one for a program that fails;
  what is left of the state counts in both cases.
-/

import Mathlib.Data.List.Basic

/-- A program over the state `σ` that returns `α` or fails with `ε`. -/
abbrev Prog (σ ε α : Type) := ExceptT ε (StateM σ) α

namespace Prog

variable {σ ε α β : Type}

/-- The answer of a program and the state it leaves. -/
def exec (x : Prog σ ε α) (s : σ) : Except ε α × σ := StateT.run (ExceptT.run x) s

@[simp] theorem exec_pure (a : α) (s : σ) : (pure a : Prog σ ε α).exec s = (.ok a, s) := rfl

@[simp] theorem exec_throw (e : ε) (s : σ) : (throw e : Prog σ ε α).exec s = (.error e, s) := rfl

theorem exec_bind (x : Prog σ ε α) (f : α → Prog σ ε β) (s : σ) : (x >>= f).exec s =
    match x.exec s with
    | (.ok a, s') => (f a).exec s'
    | (.error e, s') => (.error e, s') := by
  rw [exec, ExceptT.run_bind, StateT.run_bind, exec]
  show StateT.run (match (StateT.run (ExceptT.run x) s).1 with
    | .ok a => ExceptT.run (f a)
    | .error e => pure (.error e)) (StateT.run (ExceptT.run x) s).2 = _
  cases StateT.run (ExceptT.run x) s with
  | mk r s' => cases r <;> rfl

/-- The program with its failure as an answer. -/
def attempt (x : Prog σ ε α) : Prog σ ε (Except ε α) := fun s =>
  let (r, s') := x.exec s
  (.ok r, s')

theorem exec_attempt (x : Prog σ ε α) (s : σ) : x.attempt.exec s = (.ok (x.exec s).1, (x.exec s).2) := rfl

/-- Change the state. -/
def update (f : σ → σ) : Prog σ ε Unit := fun s => (.ok (), f s)

@[simp] theorem exec_update (f : σ → σ) (s : σ) : (update f : Prog σ ε Unit).exec s = (.ok (), f s) := rfl

end Prog

/-- One condition for an answer, and one for a failure. -/
def Ends {ε α : Type} (post : α → Prop) (fail : ε → Prop) : Except ε α → Prop
  | .ok a => post a
  | .error e => fail e

/-- From a state with `pre`, the program returns with `post` or fails with `fail`. -/
def Triple {σ ε α : Type} (pre : σ → Prop) (x : Prog σ ε α) (post : α → σ → Prop)
    (fail : ε → σ → Prop) : Prop :=
  ∀ s, pre s → match x.exec s with
    | (.ok a, s') => post a s'
    | (.error e, s') => fail e s'

namespace Triple

variable {σ ε α β : Type} {pre pre' : σ → Prop} {post post' : α → σ → Prop}
  {fail fail' : ε → σ → Prop} {M : α → σ → Prop} {last : β → σ → Prop} {x : Prog σ ε α}
  {f : α → Prog σ ε β}

theorem ret {a : α} (h : ∀ s, pre s → post a s) : Triple pre (pure a : Prog σ ε α) post fail := h

theorem raise {e : ε} (h : ∀ s, pre s → fail e s) : Triple pre (throw e : Prog σ ε α) post fail := h

theorem seq (hx : Triple pre x M fail) (hf : ∀ a, Triple (M a) (f a) last fail) :
    Triple pre (x >>= f) last fail := by
  intro s hs
  have hfirst := hx s hs
  rw [Prog.exec_bind]
  cases hexec : x.exec s with
  | mk r s' =>
      rw [hexec] at hfirst
      cases r with
      | ok a => exact hf a s' hfirst
      | error e => exact hfirst

theorem weaken (h : Triple pre x post fail) (hpre : ∀ s, pre' s → pre s)
    (hpost : ∀ a s, post a s → post' a s) (hfail : ∀ e s, fail e s → fail' e s) :
    Triple pre' x post' fail' := by
  intro s hs
  have hrun := h s (hpre s hs)
  split
  · rename_i heq
    rw [heq] at hrun
    exact hpost _ _ hrun
  · rename_i heq
    rw [heq] at hrun
    exact hfail _ _ hrun

/-- Only what holds before matters. -/
theorem strengthen (h : Triple pre x post fail) (hpre : ∀ s, pre' s → pre s) :
    Triple pre' x post fail := h.weaken hpre (fun _ _ => id) fun _ _ => id

/-- The failure of a program as its answer. -/
theorem attempt {all : Except ε α → σ → Prop}
    (h : Triple pre x (fun a => all (.ok a)) fun e => all (.error e)) :
    Triple pre x.attempt all fail := by
  intro s hs
  have hrun := h s hs
  rw [Prog.exec_attempt]
  cases hexec : x.exec s with
  | mk r s' =>
      rw [hexec] at hrun
      cases r <;> exact hrun

theorem update {g : σ → σ} {post : Unit → σ → Prop} (h : ∀ s, pre s → post () (g s)) :
    Triple pre (Prog.update g : Prog σ ε Unit) post fail := h

/-- A loop keeps what each round keeps, with the rounds done so far. -/
theorem forM {γ : Type} {l : List γ} {body : γ → Prog σ ε Unit} {I : List γ → σ → Prop}
    (h : ∀ past a rest, l = past ++ a :: rest →
      Triple (I past) (body a) (fun _ => I (past ++ [a])) fail) :
    Triple (I []) (l.forM body) (fun _ => I l) fail := by
  suffices hrest : ∀ rest past, l = past ++ rest →
      Triple (I past) (rest.forM body) (fun _ => I l) fail from hrest l [] rfl
  intro rest
  induction rest with
  | nil =>
      intro past hl
      rw [List.append_nil] at hl
      subst hl
      exact ret fun _ => id
  | cons a rest ih =>
      intro past hl
      show Triple (I past) (body a >>= fun _ => rest.forM body) _ fail
      refine seq (h past a rest hl) fun _ => ih (past ++ [a]) ?_
      rw [hl, List.append_assoc]
      rfl

/-- A loop with one condition for every round. -/
theorem forM_inv {γ : Type} {l : List γ} {body : γ → Prog σ ε Unit} {inv : σ → Prop}
    (h : ∀ a ∈ l, Triple inv (body a) (fun _ => inv) fail) :
    Triple inv (l.forM body) (fun _ => inv) fail :=
  forM (I := fun _ => inv) fun _ a _ hl =>
    h a (hl ▸ List.mem_append_right _ (List.mem_cons_self ..))

end Triple
