/-
  VivadoServer.Lib.Calls

  Programs that make calls and go on with what they are answered.  A task that
  runs such a program stands before its next call; between two of its calls the
  other tasks may move, so what is known there has to bear whatever they do.

  `Safe` says it call by call: from any later state the others may have reached,
  the call keeps the invariant, does no more to the others than they expect, and
  leads to a program that is safe again.  Its rules are those of a sequential
  logic, with one side condition: what is assumed before a call is stable.
-/

import Mathlib.Data.List.Basic

/-- A program that returns `β`, or makes a call and goes on with the answer. -/
inductive Calls (κ : Type) (ρ : κ → Type) (β : Type) where
  | done (value : β)
  | call (c : κ) (next : ρ c → Calls κ ρ β)

namespace Calls

variable {κ χ σ : Type} {ρ : κ → Type} {β γ : Type}

def bind : Calls κ ρ β → (β → Calls κ ρ γ) → Calls κ ρ γ
  | done value, f => f value
  | call c next, f => call c fun a => (next a).bind f

instance : Monad (Calls κ ρ) where
  pure := done
  bind := bind

/-- Make one call and return its answer. -/
def ask (c : κ) : Calls κ ρ (ρ c) := call c done

@[simp] theorem pure_eq (value : β) : (pure value : Calls κ ρ β) = done value := rfl

@[simp] theorem done_bind (value : β) (f : β → Calls κ ρ γ) : done value >>= f = f value := rfl

@[simp] theorem call_bind {c : κ} (next : ρ c → Calls κ ρ β) (f : β → Calls κ ρ γ) :
    call c next >>= f = call c fun a => next a >>= f := rfl

/-! ## Failing programs -/

/-- A program that may give up with an error. -/
abbrev Failing (κ : Type) (ρ : κ → Type) (ε : Type) := ExceptT ε (Calls κ ρ)

/-- The calls of a failing program, its failure an answer like any other. -/
def Failing.attempt {ε : Type} (x : Failing κ ρ ε β) : Failing κ ρ ε (Except ε β) :=
  ExceptT.mk (x.run >>= fun r => done (.ok r))

theorem run_bind {ε : Type} (x : Failing κ ρ ε β) (f : β → Failing κ ρ ε γ) :
    (x >>= f).run = x.run >>= fun r => match r with
      | .ok a => (f a).run
      | .error e => done (.error e) := by
  show x.run >>= ExceptT.bindCont f = _
  congr 1
  funext r
  cases r <;> rfl

/-! ## Safety under interference -/

/-- How a call of a task is served, and what the tasks rely on. -/
structure Contract (σ κ : Type) (ρ : κ → Type) (χ : Type) where
  /-- One call of a task; `χ` decides what is left open. -/
  serve : Nat → (c : κ) → χ → σ → Option (ρ c × σ)
  Inv : σ → Prop
  /-- What a task may find when others have moved. -/
  Rely : Nat → σ → σ → Prop
  /-- What a step of a task does. -/
  Does : Nat → σ → σ → Prop
  refl : ∀ task s, Rely task s s
  trans : ∀ {task s t u}, Rely task s t → Rely task t u → Rely task s u

variable {C : Contract σ κ ρ χ} {task : Nat} {s t : σ} {x : Calls κ ρ β} {f : β → Calls κ ρ γ}
  {post mid : β → σ → Prop} {last : γ → σ → Prop} {P Q : σ → Prop}

/-- Every call of the program is safe where it may come to be made, and what it
    returns is as `post` says. -/
def Safe (C : Contract σ κ ρ χ) (task : Nat) (post : β → σ → Prop) : Calls κ ρ β → σ → Prop
  | done value, s => ∀ t, C.Inv t → C.Rely task s t → post value t
  | call c next, s => ∀ t u answer a, C.Inv t → C.Rely task s t →
      C.serve task c answer t = some (a, u) → C.Inv u ∧ C.Does task t u ∧ Safe C task post (next a) u

/-- What holds of a place in a program bears what the others do. -/
theorem Safe.stable (h : Safe C task post x s) (hrely : C.Rely task s t) :
    Safe C task post x t := by
  cases x with
  | done value => exact fun u hinv hlater => h u hinv (C.trans hrely hlater)
  | call c next => exact fun u v answer a hinv hlater => h u v answer a hinv (C.trans hrely hlater)

theorem Safe.weaken (h : Safe C task mid x s) (hpost : ∀ value t, C.Inv t → mid value t → post value t) :
    Safe C task post x s := by
  induction x generalizing s with
  | done value => exact fun t hinv hrely => hpost value t hinv (h t hinv hrely)
  | call c next ih =>
      intro t u answer a hinv hrely hserve
      obtain ⟨hinv', hdoes, hnext⟩ := h t u answer a hinv hrely hserve
      exact ⟨hinv', hdoes, ih a hnext⟩

theorem Safe.bind (h : Safe C task mid x s) (hinv : C.Inv s)
    (hf : ∀ value t, C.Inv t → mid value t → Safe C task last (f value) t) :
    Safe C task last (x >>= f) s := by
  induction x generalizing s with
  | done value => exact hf value s hinv (h s hinv (C.refl task s))
  | call c next ih =>
      intro t u answer a hinv' hrely hserve
      obtain ⟨hinv'', hdoes, hnext⟩ := h t u answer a hinv' hrely hserve
      exact ⟨hinv'', hdoes, ih a hnext hinv''⟩

/-- Another form for what is returned. -/
theorem Safe.map (g : β → γ) (h : Safe C task (fun value => last (g value)) x s) :
    Safe C task last (x >>= fun value => Calls.done (g value)) s := by
  induction x generalizing s with
  | done value => exact h
  | call c next ih =>
      intro t u answer a hinv hrely hserve
      obtain ⟨hinv', hdoes, hnext⟩ := h t u answer a hinv hrely hserve
      exact ⟨hinv', hdoes, ih a hnext⟩

/-! ## Triples -/

/-- What the others do does not break it. -/
def Stable (C : Contract σ κ ρ χ) (task : Nat) (P : σ → Prop) : Prop :=
  ∀ {s t}, C.Inv t → C.Rely task s t → P s → P t

/-- From a state with `P` the program is safe and ends with `post`. -/
def Holds (C : Contract σ κ ρ χ) (task : Nat) (P : σ → Prop) (x : Calls κ ρ β)
    (post : β → σ → Prop) : Prop :=
  ∀ s, C.Inv s → P s → Safe C task post x s

theorem Holds.done {value : β} (hstable : Stable C task P)
    (h : ∀ s, C.Inv s → P s → post value s) : Holds C task P (done value) post :=
  fun _ _ hpre t hinv hrely => h t hinv (hstable hinv hrely hpre)

theorem Holds.bind (hx : Holds C task P x mid)
    (hf : ∀ value, Holds C task (mid value) (f value) last) : Holds C task P (x >>= f) last :=
  fun s hinv hpre => (hx s hinv hpre).bind hinv hf

/-- A call: what holds before it is stable, and what it does is allowed. -/
theorem Holds.call {c : κ} {next : ρ c → Calls κ ρ β} {M : ρ c → σ → Prop}
    (hstable : Stable C task P)
    (hcall : ∀ s u answer a, C.Inv s → P s → C.serve task c answer s = some (a, u) →
      C.Inv u ∧ C.Does task s u ∧ M a u)
    (hnext : ∀ a, Holds C task (M a) (next a) post) : Holds C task P (call c next) post := by
  intro s _ hpre t u answer a hinv hrely hserve
  obtain ⟨hinv', hdoes, hmid⟩ := hcall t u answer a hinv (hstable hinv hrely hpre) hserve
  exact ⟨hinv', hdoes, hnext a u hinv' hmid⟩

theorem Holds.ask {c : κ} {M : ρ c → σ → Prop} (hstable : Stable C task P)
    (hcall : ∀ s u answer a, C.Inv s → P s → C.serve task c answer s = some (a, u) →
      C.Inv u ∧ C.Does task s u ∧ M a u)
    (hlater : ∀ a, Stable C task (M a)) : Holds C task P (ask c) M :=
  .call hstable hcall fun a => .done (hlater a) fun _ _ h => h

theorem Holds.weaken (h : Holds C task Q x mid) (hpre : ∀ s, C.Inv s → P s → Q s)
    (hpost : ∀ value s, C.Inv s → mid value s → post value s) : Holds C task P x post :=
  fun s hinv hs => (h s hinv (hpre s hinv hs)).weaken hpost

section Runs

variable {ε : Type} {y : Failing κ ρ ε β} {g : β → Failing κ ρ ε γ} {fail : ε → σ → Prop}

def Result (post : β → σ → Prop) (fail : ε → σ → Prop) : Except ε β → σ → Prop
  | .ok a, s => post a s
  | .error e, s => fail e s

/-- From a state with `P` the program is safe, and returns with `post` or gives up with
    `fail`. -/
def Runs (C : Contract σ κ ρ χ) (task : Nat) (P : σ → Prop) (y : Failing κ ρ ε β)
    (post : β → σ → Prop) (fail : ε → σ → Prop) : Prop :=
  Holds C task P y.run (Result post fail)

theorem Runs.ret {value : β} (hstable : Stable C task P) (h : ∀ s, C.Inv s → P s → post value s) :
    Runs C task P (pure value : Failing κ ρ ε β) post fail := .done hstable h

theorem Runs.raise {e : ε} (hstable : Stable C task P) (h : ∀ s, C.Inv s → P s → fail e s) :
    Runs C task P (throw e : Failing κ ρ ε β) post fail := .done hstable h

theorem Runs.bind (hy : Runs C task P y mid fail) (hfail : ∀ e, Stable C task (fail e))
    (hg : ∀ value, Runs C task (mid value) (g value) last fail) :
    Runs C task P (y >>= g) last fail := by
  unfold Runs
  rw [run_bind]
  refine Holds.bind hy fun r => ?_
  cases r with
  | ok a => exact hg a
  | error e => exact .done (hfail e) fun _ _ h => h

theorem Runs.weaken (h : Runs C task Q y mid fail) (hpre : ∀ s, C.Inv s → P s → Q s)
    (hpost : ∀ value s, C.Inv s → mid value s → post value s) : Runs C task P y post fail := by
  refine Holds.weaken h hpre fun r s hinv hr => ?_
  cases r with
  | ok a => exact hpost a s hinv hr
  | error e => exact hr

/-- A program that cannot give up. -/
theorem Runs.lift {x : Calls κ ρ β} (h : Holds C task P x post) :
    Runs C task P (ExceptT.lift x : Failing κ ρ ε β) post fail := by
  have hrun : (ExceptT.lift x : Failing κ ρ ε β).run = x >>= fun a => done (.ok a) := rfl
  unfold Runs
  rw [hrun]
  exact fun s hinv hpre => .map Except.ok (h s hinv hpre)

/-- The failure of the program is an answer. -/
theorem Runs.attempt {fail' : ε → σ → Prop} (h : Runs C task P y post fail) :
    Runs C task P y.attempt (Result post fail) fail' :=
  fun s hinv hpre => .map Except.ok (h s hinv hpre)

end Runs

/-! ## Programs that only look -/

/-- No call of the program changes anything. -/
inductive Looks (C : Contract σ κ ρ χ) : Calls κ ρ β → Prop
  | done (value : β) : Looks C (done value)
  | call {c : κ} {next : ρ c → Calls κ ρ β}
      (hcall : ∀ {task answer s a u}, C.serve task c answer s = some (a, u) → u = s)
      (hnext : ∀ a, Looks C (next a)) : Looks C (call c next)

theorem Looks.bind (hx : Looks C x) (hf : ∀ value, Looks C (f value)) : Looks C (x >>= f) := by
  induction hx with
  | done value => exact hf value
  | call hcall _ ih => exact .call hcall ih

theorem Looks.ask {c : κ}
    (hcall : ∀ {task answer s a u}, C.serve task c answer s = some (a, u) → u = s) :
    Looks C (ask c) := .call hcall fun _ => .done _

/-- Whatever bears the others bears a program that only looks. -/
theorem Looks.holds (h : Looks C x) (hdoes : ∀ task s, C.Does task s s) (hstable : Stable C task P) :
    Holds C task P x fun _ => P := by
  induction h with
  | done value => exact .done hstable fun _ _ hs => hs
  | call hcall _ ih =>
      refine .call (M := fun _ => P) hstable (fun s u answer a hinv hs hserve => ?_) ih
      cases hcall hserve
      exact ⟨hinv, hdoes _ _, hs⟩

/-- A failing program that only looks. -/
theorem Looks.seq {ε : Type} {y : Failing κ ρ ε β} {g : β → Failing κ ρ ε γ} (hy : Looks C y.run)
    (hg : ∀ value, Looks C (g value).run) : Looks C (y >>= g).run := by
  rw [run_bind]
  refine hy.bind fun r => ?_
  cases r with
  | ok a => exact hg a
  | error e => exact .done _

/-- Whatever bears the others bears a failing program that only looks. -/
theorem Looks.runs {ε : Type} {y : Failing κ ρ ε β} (hy : Looks C y.run)
    (hdoes : ∀ task s, C.Does task s s) (hstable : Stable C task P) :
    Runs C task P y (fun _ => P) fun _ => P :=
  Holds.weaken (hy.holds hdoes hstable) (fun _ _ h => h) fun r _ _ h => by cases r <;> exact h

end Calls
