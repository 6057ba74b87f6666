/-
  VivadoServer.Sessions.Process

  The identity of the leader process (`PtyProcess` in
  `src/session/process.rs`).  The result of each system call is an argument:
  `waitid(WNOWAIT)` and `wait` for the leader, and `kill` on the negated process
  id, which is the number of the process group.
-/

import VivadoServer.Sessions.Model

namespace VivadoServer.Sessions

/-- An `io::Error`: `raw_os_error()` and its text. -/
structure IoError where
  code : Option Nat
  message : String
deriving DecidableEq, Repr

def EINTR : Nat := 4
def ECHILD : Nat := 10
def ESRCH : Nat := 3

/-- The result of a system call. -/
abbrev Result (α : Type) := Except IoError α

inductive Signal where
  | term
  | kill
deriving DecidableEq, Repr

structure PtyProcess where
  child : Bool
  pid : Nat
  identityOwned : Bool
deriving DecidableEq, Repr

namespace PtyProcess

/-- What `spawn` hands over. -/
def spawned (pid : Nat) : PtyProcess where
  child := true
  pid := pid
  identityOwned := true

/-- `observe_exit`, where `waitid` reports whether the leader has exited. -/
def observeExit (p : PtyProcess) (waited : Result Bool) : PtyProcess × Result Bool :=
  match waited with
  | .error error =>
    let p := if error.code = some ECHILD then { p with identityOwned := false } else p
    if error.code = some EINTR then (p, .ok false) else (p, .error error)
  | .ok exited => (p, .ok exited)

/-- `signal_group`; the first component says whether `kill` was called at all. -/
def signalGroup (p : PtyProcess) (killed : Result Unit) : Bool × Result Unit :=
  if !p.identityOwned then
    (false, .error ⟨none, "child ownership was lost; refusing to signal a numeric PGID"⟩)
  else
    match killed with
    | .ok () => (true, .ok ())
    | .error error => if error.code = some ESRCH then (true, .ok ()) else (true, .error error)

/-- `reap`, where `wait` reports the leader's exit code. -/
def reap (p : PtyProcess) (waited : Result Int) : PtyProcess × Result Int :=
  if !p.child then (p, .error ⟨none, "child already reaped"⟩)
  else
    match waited with
    | .error error =>
      (if error.code = some ECHILD then { p with identityOwned := false } else p, .error error)
    | .ok code => ({ p with identityOwned := false, child := false }, .ok code)

/-- The emergency `SIGKILL` when the process is dropped before it was reaped. -/
def dropSignals (p : PtyProcess) : Bool := p.child && p.identityOwned

/-! ## Owning the process group -/

variable {p : PtyProcess}

/-- Ownership is never gained, and a wait that reports `ECHILD` ends it. -/
theorem observeExit_owned {waited : Result Bool}
    (h : (p.observeExit waited).1.identityOwned = true) :
    p.identityOwned = true ∧
      ∀ error, (p.observeExit waited).2 = .error error → error.code ≠ some ECHILD := by
  unfold observeExit at h ⊢
  cases waited with
  | ok exited => exact ⟨h, fun _ herror => by cases herror⟩
  | error error =>
      by_cases hchild : error.code = some ECHILD
      · have hintr : error.code ≠ some EINTR := by rw [hchild]; decide
        simp only [if_pos hchild, if_neg hintr] at h
        cases h
      · simp only [if_neg hchild] at h ⊢
        constructor
        · split at h <;> exact h
        · intro error' herror'
          split at herror'
          · cases herror'
          · cases herror'
            exact hchild

/-- `kill` is called exactly when the group is owned. -/
theorem signalGroup_called {killed : Result Unit} :
    (p.signalGroup killed).1 = p.identityOwned := by
  unfold signalGroup
  cases howned : p.identityOwned with
  | false => rfl
  | true =>
      cases killed with
      | ok => rfl
      | error error =>
          simp only [Bool.not_true, Bool.false_eq_true, if_false]
          split <;> rfl

/-- A refused signal is reported as an error. -/
theorem signalGroup_ok {killed : Result Unit} (h : (p.signalGroup killed).2 = .ok ()) :
    p.identityOwned = true := by
  by_contra howned
  rw [Bool.not_eq_true] at howned
  simp only [signalGroup, howned, Bool.not_false, if_true] at h
  cases h

/-- After `reap`, the group is owned only if the leader was neither reaped nor
    found missing. -/
theorem reap_owned {waited : Result Int} (h : (p.reap waited).1.identityOwned = true) :
    p.identityOwned = true ∧
      ∃ error, (p.reap waited).2 = .error error ∧ error.code ≠ some ECHILD := by
  unfold reap at h ⊢
  split at h
  · rename_i hchild
    rw [if_pos hchild]
    exact ⟨h, _, rfl, by decide⟩
  · rename_i hchild
    rw [if_neg hchild]
    cases waited with
    | ok code => cases h
    | error error =>
        dsimp only at h ⊢
        split at h
        · cases h
        · rename_i hother
          exact ⟨h, error, rfl, hother⟩

end PtyProcess

end VivadoServer.Sessions
