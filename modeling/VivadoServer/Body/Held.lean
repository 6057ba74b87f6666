/-
  VivadoServer.Body.Held

  A response body that holds a lease or a permit (`hold` and `HeldBody` of
  `src/body.rs`).  The body and its owner are in one shared cell.  It is emptied by
  the poll that sees the end, an error or the cancellation, by the drop, and by a
  task that waits for the cancellation alone, as a stalled socket never polls.

  A poll looks at the cancellation first and takes the lock of the cell later.
  What the inner body answers is part of the action, so it is any body.
-/

import VivadoServer.Lib.StepSystem
import VivadoServer.Lib.Trace

namespace VivadoServer.Body

open StepSystem

/-! ## Frames -/

inductive Frame where
  | data (bytes : List UInt8)
  | trailers
deriving DecidableEq, Repr

/-- What `poll_frame` answers; `eof` is `Ready(None)`. -/
inductive Poll where
  | pending
  | frame (frame : Frame)
  | error (text : String)
  | eof
deriving DecidableEq, Repr

def Poll.isReady : Poll → Bool
  | pending => false
  | _ => true

def Poll.isError : Poll → Bool
  | error _ => true
  | _ => false

/-! ## The shared cell -/

/-- The task that `hold` spawns. -/
inductive HoldTask where
  | waiting
  | cancelling
  | finished
deriving DecidableEq, Repr

/-- Where the consumer is; `checked` and `interrupted` are before the lock of the cell. -/
inductive HeldPlace where
  | idle
  | interrupted
  | checked
  | locked
  | dropping
  | dropped
deriving DecidableEq, Repr

/-- What happens to a body, for its consumer and for its owner. -/
inductive HeldEffect (τ : Type) where
  | delivered (poll : Poll)
  | innerEnded
  | cancelled
  | dropped
  | released (owner : τ)
deriving DecidableEq, Repr

structure HeldBody (τ : Type) where
  state : Option τ
  done : Bool
  ended : Bool
  /-- The cancellation token, if there is one, and whether it is cancelled. -/
  cancel : Option Bool
  task : HoldTask
  place : HeldPlace
  /-- What happened, the newest first. -/
  trace : List (HeldEffect τ)
deriving DecidableEq, Repr

variable {τ : Type}

def hold (owner : τ) (cancel : Option Bool) : HeldBody τ where
  state := some owner
  done := false
  ended := false
  cancel := cancel
  task := if cancel.isSome then .waiting else .finished
  place := .idle
  trace := []

namespace HeldBody

/-- `state.take()`; the owner is dropped with what was taken. -/
def take (b : HeldBody τ) : HeldBody τ :=
  { b with
    state := none
    trace := match b.state with
      | some owner => .released owner :: b.trace
      | none => b.trace }

def deliver (poll : Poll) (b : HeldBody τ) : HeldBody τ :=
  { b with trace := .delivered poll :: b.trace, place := .idle }

/-- The cell is emptied by the poll, and the task is told. -/
def finish (b : HeldBody τ) : HeldBody τ := { b.take with ended := true, done := true }

inductive Action where
  | cancel
  /-- The task goes on, to leave or to empty the cell. -/
  | wake (stopped : Bool)
  | take
  | poll
  | interrupt
  | lock
  /-- The inner body answers, and says whether it is at its end. -/
  | inner (poll : Poll) (isEndStream : Bool)
  | drop
  | release
deriving DecidableEq, Repr

/-- The answer of the inner body, under the lock of the cell. -/
def pollInner (poll : Poll) (isEndStream : Bool) (b : HeldBody τ) : HeldBody τ :=
  let ends := poll == .eof || poll.isReady && isEndStream
  let b := if ends then { b with trace := .innerEnded :: b.trace } else b
  if ends || poll.isError then b.finish.deliver poll else b.deliver poll

def step (a : Action) (b : HeldBody τ) : Option (HeldBody τ) :=
  match a with
  | .cancel => match b.cancel with
    | some _ => some { b with cancel := some true }
    | none => none
  | .wake stopped =>
    if b.task = .waiting then
      -- `select!` takes either branch that is ready
      if stopped then if b.done then some { b with task := .finished } else none
      else if b.cancel = some true then some { b with task := .cancelling } else none
    else none
  | .take =>
    if b.task = .cancelling ∧ b.place ≠ .locked then
      some { b.take with task := .finished, trace := .cancelled :: b.take.trace }
    else none
  | .poll =>
    if b.place = .idle then
      if b.ended then some (b.deliver .eof)
      else if b.cancel = some true then some { b with place := .interrupted }
      else some { b with place := .checked }
    else none
  | .interrupt =>
    if b.place = .interrupted then some (b.finish.deliver (.error "workflow cancelled")) else none
  | .lock =>
    if b.place = .checked then
      match b.state with
      | none => some (b.deliver .eof)
      | some _ => some { b with place := .locked }
    else none
  | .inner poll isEndStream =>
    if b.place = .locked then some (b.pollInner poll isEndStream) else none
  | .drop => if b.place = .idle then some { b with done := true, place := .dropping } else none
  | .release =>
    if b.place = .dropping then
      some { b.take with place := .dropped, trace := .dropped :: b.take.trace }
    else none

end HeldBody

/-! ## What a consumer and an owner rely on -/

namespace HeldEffect

/-- When an effect may happen: the end comes after that of the inner body or after an
    error, and the owner goes once, before the consumer can see that it is over. -/
def Lawful (owner : τ) : HeldEffect τ → List (HeldEffect τ) → Prop
  | .delivered .eof, past =>
    (.innerEnded ∈ past ∨ ∃ text, .delivered (.error text) ∈ past) ∧ .released owner ∈ past
  | .delivered (.error _), past => .released owner ∈ past
  | .cancelled, past => .released owner ∈ past
  | .dropped, past => .released owner ∈ past
  | .released gone, past => gone = owner ∧ ∀ other, .released other ∉ past
  | _, _ => True

end HeldEffect

namespace HeldBody

open HeldEffect

/-- The task does not empty the cell while a poll is between its look at the
    cancellation and the lock. -/
def Orderly (a : Action) (b : HeldBody τ) : Prop := a = .take → b.place ≠ .checked

instance (a : Action) (b : HeldBody τ) : Decidable (Orderly a b) :=
  inferInstanceAs (Decidable (a = .take → b.place ≠ .checked))

/-- What holds between the steps. -/
structure Sound (owner : τ) (b : HeldBody τ) : Prop where
  held : ∀ {kept}, b.state = some kept →
    kept = owner ∧ (∀ other, .released other ∉ b.trace) ∧ b.ended = false ∧ b.place ≠ .dropped
  empty : b.state = none → .released owner ∈ b.trace ∧
    (b.ended = true ∨ b.cancel = some true ∨ b.place = .dropped)
  ended : b.ended = true → .innerEnded ∈ b.trace ∨ ∃ text, .delivered (.error text) ∈ b.trace
  task : b.task = .cancelling → b.cancel = some true
  polling : b.place = .checked ∨ b.place = .locked → b.state ≠ none
  lawful : Trace.Each (Lawful owner) b.trace

section Sound

variable {owner : τ} {cancel : Option Bool} {a : Action} {b b' : HeldBody τ}

theorem hold_sound : (hold owner cancel).Sound owner where
  held := by
    rintro kept ⟨⟩
    exact ⟨rfl, fun _ => List.not_mem_nil, rfl, nofun⟩
  empty := nofun
  ended := nofun
  task := by
    intro htask
    unfold hold at htask
    cases cancel <;> cases htask
  polling := nofun
  lawful := trivial

/-- Emptying the cell lets the owner go, if it is still there. -/
theorem Sound.take_trace (h : b.Sound owner) : .released owner ∈ b.take.trace ∧
    Trace.Each (Lawful owner) b.take.trace ∧ ∀ e ∈ b.trace, e ∈ b.take.trace := by
  unfold take
  cases hstate : b.state with
  | none => exact ⟨(h.empty hstate).1, h.lawful, fun _ => id⟩
  | some kept =>
      obtain ⟨rfl, hfresh, -, -⟩ := h.held hstate
      exact ⟨List.mem_cons_self .., h.lawful.cons ⟨rfl, hfresh⟩, fun _ => List.mem_cons_of_mem _⟩

/-- A step that leaves the cell and lets the consumer know something. -/
theorem Sound.deliver {poll : Poll} (h : b.Sound owner) (hplace : b.place ≠ .dropped)
    (hlawful : Lawful owner (.delivered poll) b.trace) : (b.deliver poll).Sound owner where
  held := by
    intro kept hstate
    obtain ⟨rfl, hfresh, hended, -⟩ := h.held hstate
    exact ⟨rfl, fun other hmem => hfresh other (by simpa [HeldBody.deliver] using hmem), hended, nofun⟩
  empty := by
    intro hstate
    obtain ⟨hreleased, hover⟩ := h.empty hstate
    refine ⟨List.mem_cons_of_mem _ hreleased, ?_⟩
    obtain hended | hcancel | hdropped := hover
    · exact .inl hended
    · exact .inr (.inl hcancel)
    · exact absurd hdropped hplace
  ended := by
    intro hended
    obtain hinner | ⟨text, herror⟩ := h.ended hended
    · exact .inl (List.mem_cons_of_mem _ hinner)
    · exact .inr ⟨text, List.mem_cons_of_mem _ herror⟩
  task := h.task
  polling := nofun
  lawful := h.lawful.cons hlawful

/-- The poll that ends the body empties the cell first. -/
theorem Sound.finish {poll : Poll} (h : b.Sound owner)
    (hover : .innerEnded ∈ b.trace ∨ ∃ text, poll = .error text)
    (heof : poll = .eof → .innerEnded ∈ b.trace) : (b.finish.deliver poll).Sound owner := by
  obtain ⟨hreleased, hlawful, hkept⟩ := h.take_trace
  have hlaw : Lawful owner (.delivered poll) b.take.trace := by
    cases poll with
    | eof => exact ⟨.inl (hkept _ (heof rfl)), hreleased⟩
    | error text => exact hreleased
    | pending => trivial
    | frame frame => trivial
  exact {
    held := nofun
    empty := fun _ => ⟨List.mem_cons_of_mem _ hreleased, .inl rfl⟩
    ended := by
      intro _
      obtain hinner | ⟨text, rfl⟩ := hover
      · exact .inl (List.mem_cons_of_mem _ (hkept _ hinner))
      · exact .inr ⟨text, List.mem_cons_self ..⟩
    task := h.task
    polling := nofun
    lawful := hlawful.cons hlaw }

theorem Sound.pollInner {poll : Poll} {isEndStream : Bool} (h : b.Sound owner)
    (hplace : b.place = .locked) : (b.pollInner poll isEndStream).Sound owner := by
  have hnoted : ({ b with trace := .innerEnded :: b.trace } : HeldBody τ).Sound owner := {
    held := by
      intro kept hstate
      obtain ⟨rfl, hfresh, hended, hnot⟩ := h.held hstate
      exact ⟨rfl, fun other hmem => hfresh other (by simpa using hmem), hended, hnot⟩
    empty := fun hstate => absurd hstate (h.polling (.inr hplace))
    ended := fun _ => .inl (List.mem_cons_self ..)
    task := h.task
    polling := h.polling
    lawful := h.lawful.cons trivial }
  unfold HeldBody.pollInner
  by_cases hends : (poll == .eof || poll.isReady && isEndStream) = true
  · simp only [hends, if_true, Bool.true_or]
    exact hnoted.finish (.inl (List.mem_cons_self ..)) fun _ => List.mem_cons_self ..
  · rw [Bool.not_eq_true] at hends
    simp only [hends, Bool.false_eq_true, if_false, Bool.false_or]
    have hnot : poll ≠ .eof := by
      rintro rfl
      cases hends
    split
    · rename_i herror
      have htext : ∃ text, poll = .error text := by
        cases poll with
        | error text => exact ⟨text, rfl⟩
        | pending | frame | eof => cases herror
      exact h.finish (.inr htext) fun heof => absurd heof hnot
    · rename_i herror
      apply h.deliver (by rw [hplace]; exact nofun)
      cases poll with
      | eof => exact absurd rfl hnot
      | error text => exact absurd rfl herror
      | pending | frame => trivial

/-- The consumer goes on without touching the cell. -/
theorem Sound.move (h : b.Sound owner) (done : Bool) (place : HeldPlace) (hwas : b.place ≠ .dropped)
    (hplace : place ≠ .dropped) (hfull : place = .checked ∨ place = .locked → b.state ≠ none) :
    ({ b with done := done, place := place } : HeldBody τ).Sound owner where
  held := by
    intro kept hstate
    obtain ⟨howner, hfresh, hended, -⟩ := h.held hstate
    exact ⟨howner, hfresh, hended, hplace⟩
  empty := by
    intro hstate
    obtain ⟨hreleased, hover⟩ := h.empty hstate
    refine ⟨hreleased, ?_⟩
    obtain hended | hcancel | hdropped := hover
    · exact .inl hended
    · exact .inr (.inl hcancel)
    · exact absurd hdropped hwas
  ended := h.ended
  task := h.task
  polling := hfull
  lawful := h.lawful

/-- Every step that is orderly keeps what holds between the steps. -/
theorem step_sound (h : b.Sound owner) (hok : Orderly a b) (hstep : step a b = some b') :
    b'.Sound owner := by
  obtain ⟨hreleased, hlawful, hkept⟩ := h.take_trace
  cases a with
  | cancel =>
      simp only [step] at hstep
      split at hstep
      · cases hstep
        exact { h with
          empty := fun hstate => ⟨(h.empty hstate).1, .inr (.inl rfl)⟩
          task := fun _ => rfl }
      · cases hstep
  | wake stopped =>
      simp only [step] at hstep
      split at hstep
      · split at hstep
        · split at hstep
          · cases hstep
            exact { h with task := nofun }
          · cases hstep
        · split at hstep
          · rename_i hcancel
            cases hstep
            exact { h with task := fun _ => hcancel }
          · cases hstep
      · cases hstep
  | take =>
      simp only [step] at hstep
      split at hstep
      · rename_i hready
        cases hstep
        refine {
          held := nofun
          empty := fun _ => ⟨List.mem_cons_of_mem _ hreleased, .inr (.inl (h.task hready.1))⟩
          ended := ?_
          task := nofun
          polling := ?_
          lawful := hlawful.cons hreleased }
        · intro hended
          obtain hinner | ⟨text, herror⟩ := h.ended hended
          · exact .inl (List.mem_cons_of_mem _ (hkept _ hinner))
          · exact .inr ⟨text, List.mem_cons_of_mem _ (hkept _ herror)⟩
        · rintro (hchecked | hlocked)
          · exact absurd hchecked (hok rfl)
          · exact absurd hlocked hready.2
      · cases hstep
  | poll =>
      simp only [step] at hstep
      split at hstep
      · rename_i hidle
        split at hstep
        · rename_i hended
          cases hstep
          -- the cell was emptied by the poll that set `ended`
          have hempty : b.state = none := by
            cases hstate : b.state with
            | none => rfl
            | some kept =>
                rw [(h.held hstate).2.2.1] at hended
                cases hended
          exact h.deliver (by rw [hidle]; exact nofun) ⟨h.ended hended, (h.empty hempty).1⟩
        · rename_i hended
          have hnot : b.place ≠ .dropped := by
            rw [hidle]
            exact nofun
          split at hstep
          · cases hstep
            exact h.move b.done .interrupted hnot nofun (by simp)
          · rename_i hcancel
            cases hstep
            apply h.move b.done .checked hnot nofun
            -- nothing but the end and the cancellation empties the cell
            intro _ hstate
            obtain hended' | hcancel' | hdropped := (h.empty hstate).2
            · exact hended hended'
            · exact hcancel hcancel'
            · exact hnot hdropped
      · cases hstep
  | interrupt =>
      simp only [step] at hstep
      split at hstep
      · cases hstep
        exact h.finish (.inr ⟨_, rfl⟩) nofun
      · cases hstep
  | lock =>
      simp only [step] at hstep
      split at hstep
      · rename_i hchecked
        split at hstep
        · rename_i hstate
          exact absurd hstate (h.polling (.inl hchecked))
        · cases hstep
          apply h.move b.done .locked (by rw [hchecked]; exact nofun) nofun
          exact fun _ => h.polling (.inl hchecked)
      · cases hstep
  | inner poll isEndStream =>
      simp only [step] at hstep
      split at hstep
      · rename_i hlocked
        cases hstep
        exact h.pollInner hlocked
      · cases hstep
  | drop =>
      simp only [step] at hstep
      split at hstep
      · rename_i hidle
        cases hstep
        exact h.move true .dropping (by rw [hidle]; exact nofun) nofun (by simp)
      · cases hstep
  | release =>
      simp only [step] at hstep
      split at hstep
      · cases hstep
        refine {
          held := nofun
          empty := fun _ => ⟨List.mem_cons_of_mem _ hreleased, .inr (.inr rfl)⟩
          ended := ?_
          task := h.task
          polling := nofun
          lawful := hlawful.cons hreleased }
        intro hended
        obtain hinner | ⟨text, herror⟩ := h.ended hended
        · exact .inl (List.mem_cons_of_mem _ (hkept _ hinner))
        · exact .inr ⟨text, List.mem_cons_of_mem _ (hkept _ herror)⟩
      · cases hstep

/-- As long as the task keeps out of that moment, the end is only reported after the inner
    body ended or an error was delivered, and the owner is let go exactly once: before the
    consumer is told of the end or an error, with the cancellation, or with the drop. -/
theorem held_complete (hrun : Run step Orderly (hold owner cancel) b) :
    Trace.Each (Lawful owner) b.trace ∧ (b.state = none ↔ .released owner ∈ b.trace) ∧
      (b.place = .dropped → b.state = none) := by
  have h : b.Sound owner :=
    hrun.invariant (I := (HeldBody.Sound owner)) (fun _ _ _ => step_sound) hold_sound
  refine ⟨h.lawful, ⟨fun hstate => (h.empty hstate).1, fun hmem => ?_⟩, fun hdropped => ?_⟩
  · cases hstate : b.state with
    | none => rfl
    | some kept => exact absurd hmem ((h.held hstate).2.1 owner)
  · cases hstate : b.state with
    | none => rfl
    | some kept => exact absurd hdropped (h.held hstate).2.2.2

end Sound

/-- A frame, the cancellation, and the error that tells the consumer of it. -/
def sampleActions : List Action :=
  [.poll, .lock, .inner (.frame (.data [97])) false, .cancel, .wake false, .take, .poll, .interrupt, .poll]

theorem held_complete_sample : ∃ b, Run step Orderly (hold "lease" (some false)) b ∧
    b.trace = [.delivered .eof, .delivered (.error "workflow cancelled"), .cancelled,
      .released "lease", .delivered (.frame (.data [97]))] ∧
    Trace.Each (Lawful "lease") b.trace := by
  have hexec : ∃ b, Run step (fun a b => decide (Orderly a b) = true) (hold "lease" (some false)) b ∧
      (b.trace == [.delivered .eof, .delivered (.error "workflow cancelled"), .cancelled,
        .released "lease", .delivered (.frame (.data [97]))]) = true :=
    exists_of_execIf (show (execIf step _ sampleActions _).any _ = true by decide +kernel)
  obtain ⟨b, hrun, htrace⟩ := hexec
  have horderly : Run step Orderly (hold "lease" (some false)) b :=
    hrun.mono fun _ _ hok => of_decide_eq_true hok
  exact ⟨b, horderly, beq_iff_eq.mp htrace, (held_complete horderly).1⟩

/-- The task may empty the cell after a poll looked at the cancellation: the consumer is
    told of the end, though the body did not end and no error was delivered. -/
theorem cancelled_looks_complete : ¬ ∀ (owner : String) (cancel : Option Bool) (b : HeldBody String),
    Run step (fun _ _ => True) (hold owner cancel) b → ∀ later past,
      b.trace = later ++ .delivered .eof :: past →
        .innerEnded ∈ past ∨ ∃ text, .delivered (.error text) ∈ past := by
  intro hall
  have hactions : ∃ b, exec step [.poll, .cancel, .wake false, .take, .lock]
        (hold "lease" (some false)) = some b ∧
      (b.trace == [.delivered .eof, .cancelled, .released "lease"]) = true :=
    exists_of_exec (by decide +kernel)
  obtain ⟨b, hexec, htrace⟩ := hactions
  rw [beq_iff_eq] at htrace
  obtain hinner | ⟨text, herror⟩ := hall _ _ b (.of_exec hexec) [] _ htrace
  · simp at hinner
  · simp at herror

end HeldBody

end VivadoServer.Body
