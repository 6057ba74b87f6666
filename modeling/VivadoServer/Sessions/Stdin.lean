/-
  VivadoServer.Sessions.Stdin

  The stream that reaches the terminal.  Inputs are queued by any number of
  callers and written in short pieces; they are answered one by one, in the
  order in which they were queued.

  `Flow` splits the queued inputs into the answered ones, the pending one, and
  those in the channel.  An answered input that was not written as a whole stops
  the stream: nothing is pending behind it, and no byte follows.
-/

import VivadoServer.Sessions.Cleanup

namespace VivadoServer.Sessions

open VivadoServer.History (Uuid)
open StepSystem (exec)

/-! ## The account of the stream -/

/-- An answered input: how many of its bytes were written, and what its
    completion event says of that. -/
structure Settled where
  input : Input
  written : Nat
  recorded : Option Nat
deriving DecidableEq, Repr

namespace Settled

def whole (a : Settled) : Prop := a.written = a.input.bytes.length

instance (a : Settled) : Decidable a.whole := inferInstanceAs (Decidable (_ = _))

def sent (a : Settled) : List UInt8 := a.input.bytes.take a.written

def answer (a : Settled) : Answer := ⟨a.input.id, decide a.whole, a.recorded⟩

end Settled

/-- The input as its caller queued it. -/
def Input.fresh (i : Input) : Input := { i with offset := 0 }

/-- The inputs queued so far, answered (`settled`), pending, and waiting. -/
structure Flow (io : Stdin) (pending : Option Input) (settled : List Settled) : Prop where
  queued : io.queued = settled.map (·.input) ++ (pending.map Input.fresh).toList ++ io.queue
  answers : io.answers = settled.map (·.answer)
  pty : io.pty = (settled.map (·.sent)).flatten ++
    (pending.elim [] fun i => i.bytes.take i.offset)
  -- what was written is part of the input, and the event tells how much
  fits : ∀ a ∈ settled, a.written ≤ a.input.bytes.length ∧
    ∀ k, a.recorded = some k → k = a.written
  -- nothing is written behind an input that was cut short
  ordered : settled.Pairwise fun a b => a.whole ∨ b.written = 0
  waiting : ∀ i ∈ io.queue ++ io.admitted, i.offset = 0 ∧ i.bytes ≠ []
  nonempty : ∀ i ∈ io.queued, i.bytes ≠ []
  pending_le : ∀ i, pending = some i → i.offset ≤ i.bytes.length ∧ ∀ a ∈ settled, a.whole

variable {io : Stdin} {pending : Option Input} {settled : List Settled} {i : Input}

/-! ## What the operations do to the account -/

/-- A caller starts or ends waiting for its intent to be recorded. -/
theorem Flow.admit (h : Flow io pending settled) (budget : Nat) {admitted : List Input}
    (hadmitted : ∀ i ∈ admitted, i ∉ io.admitted → i.offset = 0 ∧ i.bytes ≠ []) :
    Flow { io with budget := budget, admitted := admitted } pending settled :=
  { h with
    waiting := by
        intro i hi
        rcases List.mem_append.mp hi with hq | ha
        · exact h.waiting i (List.mem_append_left _ hq)
        · by_cases hold : i ∈ io.admitted
          · exact h.waiting i (List.mem_append_right _ hold)
          · exact hadmitted i ha hold }

/-- A caller puts an input in the channel. -/
theorem Flow.enqueue (h : Flow io pending settled) (hi : i.offset = 0 ∧ i.bytes ≠ []) :
    Flow { io with queue := io.queue ++ [i], queued := io.queued ++ [i] } pending settled :=
  { h with
    queued := by
        show io.queued ++ [i] = _ ++ _ ++ (io.queue ++ [i])
        rw [h.queued, List.append_assoc _ io.queue]
    waiting := by
        intro j hj
        rw [List.append_assoc, List.mem_append, List.mem_append, List.mem_singleton] at hj
        rcases hj with hq | heq | ha
        · exact h.waiting j (List.mem_append_left _ hq)
        · exact heq ▸ hi
        · exact h.waiting j (List.mem_append_right _ ha)
    nonempty := by
        intro j hj
        rcases List.mem_append.mp hj with hold | hnew
        · exact h.nonempty j hold
        · exact List.mem_singleton.mp hnew ▸ hi.2 }

/-- The supervisor takes the next input from the channel. -/
theorem Flow.take {rest : List Input} (h : Flow io none settled) (hqueue : io.queue = i :: rest)
    (hwhole : ∀ a ∈ settled, a.whole) : Flow { io with queue := rest } (some i) settled := by
  have hi := h.waiting i (by rw [hqueue]; exact List.mem_cons_self)
  have hfresh : i.fresh = i := by
    rw [Input.fresh, ← hi.1]
  exact
    { h with
      queued := by
          rw [h.queued, hqueue]
          simp only [Option.map_none, Option.toList_none, Option.map_some, Option.toList_some,
            List.append_nil, hfresh, List.append_assoc, List.singleton_append]
      pty := by
          rw [h.pty]
          simp only [Option.elim_none, Option.elim_some, hi.1, List.take_zero]
      waiting := by
          intro j hj
          apply h.waiting j
          rw [hqueue]
          exact List.mem_cons_of_mem _ hj
      pending_le := by
          rintro _ ⟨⟩
          exact ⟨by rw [hi.1]; exact Nat.zero_le _, hwhole⟩ }

/-- The terminal takes `count` more bytes of the pending input. -/
theorem Flow.write (h : Flow io (some i) settled) (count : Nat)
    (hcount : i.offset + count ≤ i.bytes.length) :
    Flow { io with pty := io.pty ++ (i.bytes.drop i.offset).take count }
      (some { i with offset := i.offset + count }) settled :=
  { h with
    pty := by
        show io.pty ++ _ = _
        rw [h.pty, Option.elim_some, Option.elim_some, List.append_assoc, ← List.take_add]
    pending_le := by
        rintro _ ⟨⟩
        exact ⟨hcount, (h.pending_le i rfl).2⟩ }

/-- The pending input is answered, with `i.offset` of its bytes in the terminal. -/
theorem Flow.settle (h : Flow io (some i) settled) (recorded : Option Nat)
    (hrecorded : ∀ k, recorded = some k → k = i.offset) {ok : Bool}
    (hok : ok = decide (i.offset = i.bytes.length)) :
    Flow (io.complete i ok recorded) none (settled ++ [⟨i.fresh, i.offset, recorded⟩]) where
  queued := by
      show io.queued = _
      rw [h.queued]
      simp only [Option.map_some, Option.toList_some, Option.map_none, Option.toList_none,
        List.map_append, List.map_cons, List.map_nil, List.append_nil]
      rfl
  answers := by
      show io.answers ++ _ = _
      rw [h.answers, List.map_append, hok]
      rfl
  pty := by
      show io.pty = _
      rw [h.pty, Option.elim_some, Option.elim_none, List.map_append, List.flatten_append,
        List.append_nil]
      simp only [List.map_cons, List.map_nil, List.flatten_cons, List.flatten_nil,
        List.append_nil]
      rfl
  fits := by
      intro a ha
      rcases List.mem_append.mp ha with hold | hnew
      · exact h.fits a hold
      · rw [List.mem_singleton.mp hnew]
        exact ⟨(h.pending_le i rfl).1, hrecorded⟩
  ordered := by
      rw [List.pairwise_append]
      exact ⟨h.ordered, List.pairwise_singleton _ _,
        fun a ha _ _ => .inl ((h.pending_le i rfl).2 a ha)⟩
  waiting := h.waiting
  nonempty := h.nonempty
  pending_le := fun _ hnone => by cases hnone

/-! ## Closing the channel -/

/-- Refusing what waits in the channel, one input after the other. -/
theorem foldl_refuse (recorded : Input → Option Nat) (inputs : List Input) (io : Stdin) :
    ∃ budget, inputs.foldl (fun io i => io.complete i false (recorded i)) io
      = { io with
          answers := io.answers ++ inputs.map fun i => ⟨i.id, false, recorded i⟩
          budget := budget } := by
  induction inputs generalizing io with
  | nil => exact ⟨io.budget, by simp⟩
  | cons i inputs ih =>
      obtain ⟨budget, hfold⟩ := ih (io.complete i false (recorded i))
      refine ⟨budget, ?_⟩
      rw [List.foldl_cons, hfold]
      simp [Stdin.complete]

/-- What is refused out of the channel has not been written at all. -/
theorem Flow.refuse (h : Flow io none settled) (recorded : Input → Option Nat)
    (hrecorded : ∀ i k, recorded i = some k → k = i.offset) (budget : Nat) :
    Flow { io with
        answers := io.answers ++ io.queue.map fun i => ⟨i.id, false, recorded i⟩
        budget := budget, queue := [], closed := true } none
      (settled ++ io.queue.map fun i => ⟨i, 0, recorded i⟩) where
  queued := by
      show io.queued = _
      rw [h.queued]
      simp [List.map_map, Function.comp_def]
  answers := by
      show io.answers ++ _ = _
      rw [h.answers, List.map_append, List.map_map]
      congr 1
      apply List.map_congr_left
      intro i hi
      have hne := (h.waiting i (List.mem_append_left _ hi)).2
      have hpos := List.length_pos_iff.mpr hne
      have hshort : ¬(0 = i.bytes.length) := by omega
      simp [Settled.answer, Settled.whole, hshort]
  pty := by
      show io.pty = _
      rw [h.pty, List.map_append, List.map_map, List.flatten_append]
      have hnone : (io.queue.map (Settled.sent ∘ fun i => ⟨i, 0, recorded i⟩)).flatten = [] := by
        rw [List.flatten_eq_nil_iff]
        intro bytes hbytes
        obtain ⟨i, -, hi⟩ := List.mem_map.mp hbytes
        rw [← hi]
        rfl
      rw [hnone, List.append_nil]
  fits := by
      intro a ha
      rcases List.mem_append.mp ha with hold | hnew
      · exact h.fits a hold
      · obtain ⟨i, hi, hai⟩ := List.mem_map.mp hnew
        rw [← hai]
        refine ⟨Nat.zero_le _, ?_⟩
        intro k hk
        rw [hrecorded i k hk, (h.waiting i (List.mem_append_left _ hi)).1]
  ordered := by
      have hnothing : ∀ b ∈ io.queue.map fun i => Settled.mk i 0 (recorded i), b.written = 0 := by
        intro b hb
        obtain ⟨i, -, hi⟩ := List.mem_map.mp hb
        rw [← hi]
      rw [List.pairwise_append]
      refine ⟨h.ordered, ?_, fun _ _ b hb => .inr (hnothing b hb)⟩
      apply List.pairwise_of_forall_mem_list
      intro a _ b hb
      exact .inr (hnothing b hb)
  waiting := fun i hi => h.waiting i (List.mem_append_right _ hi)
  nonempty := h.nonempty
  pending_le := fun _ hnone => by cases hnone

/-- What `close` leaves behind. -/
structure Closed (io io' : Stdin) : Prop where
  queue : io'.queue = []
  closed : io'.closed = true
  pty : io'.pty = io.pty
  admitted : io'.admitted = io.admitted
  queued : io'.queued = io.queued

theorem Flow.closeQueue (h : Flow io none settled) (recorded : Input → Option Nat)
    (hrecorded : ∀ i k, recorded i = some k → k = i.offset) :
    ∃ refused, Flow (io.close none recorded) none (settled ++ refused) ∧
      (∀ a ∈ refused, ∃ i, a.recorded = recorded i) ∧ Closed io (io.close none recorded) := by
  obtain ⟨budget, hfold⟩ := foldl_refuse recorded io.queue io
  have hclose : io.close none recorded = { io with
      answers := io.answers ++ io.queue.map fun i => ⟨i.id, false, recorded i⟩
      budget := budget, queue := [], closed := true } := by
    simp only [Stdin.close, Option.elim_none, hfold]
  rw [hclose]
  refine ⟨_, h.refuse recorded hrecorded budget, ?_, rfl, rfl, rfl, rfl, rfl⟩
  intro a ha
  obtain ⟨i, -, hi⟩ := List.mem_map.mp ha
  exact ⟨i, by rw [← hi]⟩

/-- Everything unanswered is answered: the pending input with what was written
    of it, the others with nothing. -/
theorem Flow.close (h : Flow io pending settled) (recorded : Input → Option Nat)
    (hrecorded : ∀ i k, recorded i = some k → k = i.offset)
    (hshort : ∀ i, pending = some i → i.offset < i.bytes.length) :
    ∃ refused, Flow (io.close pending recorded) none (settled ++ refused) ∧
      (∀ a ∈ refused, ∃ i, a.recorded = recorded i) ∧ Closed io (io.close pending recorded) := by
  cases hpending : pending with
  | none =>
      subst hpending
      exact h.closeQueue recorded hrecorded
  | some i =>
      subst hpending
      have hlt := hshort i rfl
      have hcut := h.settle (recorded i) (hrecorded i)
        (decide_eq_false (show ¬i.offset = i.bytes.length by omega)).symm
      obtain ⟨refused, hflow, hrec, hclosed⟩ := hcut.closeQueue recorded hrecorded
      rw [List.append_assoc] at hflow
      refine ⟨_, hflow, ?_, { hclosed with }⟩
      intro a ha
      rcases List.mem_append.mp ha with hnew | hlater
      · exact ⟨i, by rw [List.mem_singleton.mp hnew]⟩
      · exact hrec a hlater

/-! ## The stream in the loop -/

variable {s t u : Sys} {v w : Supervisor} {now : Instant}

/-- The stream as the loop of `supervise` sees it. -/
structure InLoop (s : Sys) (v : Supervisor) (settled : List Settled) : Prop where
  flow : Flow s.session.stdin v.pending settled
  short : ∀ i, v.pending = some i → i.offset < i.bytes.length
  recorded : ∀ a ∈ settled, a.recorded.isSome = true
  stopped : v.stop.isSome = true →
    s.session.stdin.closed = true ∧ s.session.stdin.queue = [] ∧ v.pending = none
  -- behind an input that failed, only the stop of the session is handled
  running : v.stop = none → s.session.stdin.closed = false ∧
    ((∃ a ∈ settled, ¬a.whole) →
      s.session.stopCancelled = true ∧ v.polled = false ∧ v.stage = .select)

/-- What a step does to the stream: it may settle more inputs, and once the
    channel is closed no byte follows. -/
structure Flows (s t : Sys) (v : Supervisor) (settled : List Settled) : Prop where
  pc : t.pc = .supervising v
  loop : InLoop t v settled
  sealed : s.session.stdin.closed = true →
    t.session.stdin.pty = s.session.stdin.pty ∧ t.session.stdin.closed = true

namespace InLoop

theorem calm (h : InLoop s v settled) (hmoves : v.polled = true ∨ v.stage ≠ .select)
    (hstop : v.stop = none) : ∀ a ∈ settled, a.whole := by
  intro a ha
  by_contra hcut
  obtain ⟨-, hpolled, hstage⟩ := (h.running hstop).2 ⟨a, ha, hcut⟩
  rcases hmoves with hpoll | hne
  · exact Bool.false_ne_true (hpolled.symm.trans hpoll)
  · exact hne hstage

theorem open_of_running (h : InLoop s v settled) (hstop : v.stop = none)
    (hclosed : s.session.stdin.closed = true) : False :=
  Bool.false_ne_true ((h.running hstop).1.symm.trans hclosed)

/-- A step that touches neither the channel nor what is pending. -/
theorem quiet (h : InLoop s v settled) (hcalm : v.stop = none → ∀ a ∈ settled, a.whole)
    (hgo : Supervisor.goOn t w = some u) (hstdin : t.session.stdin = s.session.stdin)
    (hpending : w.pending = v.pending) (hstop : w.stop.isSome = v.stop.isSome) :
    Flows s u w settled := by
  cases hgo
  refine ⟨rfl, ⟨?_, ?_, h.recorded, ?_, ?_⟩, fun hclosed => ⟨?_, ?_⟩⟩
  · show Flow t.session.stdin w.pending settled
    rw [hstdin, hpending]
    exact h.flow
  · rw [hpending]
    exact h.short
  · rw [hstop, hpending]
    show _ → t.session.stdin.closed = true ∧ t.session.stdin.queue = [] ∧ _
    rw [hstdin]
    exact h.stopped
  · intro hnone
    have hold : v.stop = none := by
      rw [← Option.isNone_iff_eq_none, ← Option.not_isSome, ← hstop, hnone]
      rfl
    show t.session.stdin.closed = false ∧ _
    rw [hstdin]
    refine ⟨(h.running hold).1, ?_⟩
    rintro ⟨a, ha, hcut⟩
    exact absurd (hcalm hold a ha) hcut
  · exact congrArg Stdin.pty hstdin
  · exact (congrArg Stdin.closed hstdin).trans hclosed

/-- The stop of the session closes the channel and answers everything in it. -/
theorem close (h : InLoop s v settled) (hpc : t.pc = .supervising w)
    (hio : t.session.stdin = s.session.stdin.rejectInputs v.pending)
    (hpending : w.pending = none) (hstop : w.stop.isSome = true) :
    ∃ settled', Flows s t w settled' := by
  obtain ⟨refused, hflow, hrecorded, hclosed⟩ := h.flow.close (fun i => some i.offset)
    (fun _ _ heq => (Option.some.inj heq).symm) h.short
  refine ⟨settled ++ refused, hpc, ⟨?_, ?_, ?_, ?_, ?_⟩, fun _ => ⟨?_, ?_⟩⟩
  · rw [hio, hpending]
    exact hflow
  · intro i hi
    rw [hpending] at hi
    cases hi
  · intro a ha
    rcases List.mem_append.mp ha with hold | hnew
    · exact h.recorded a hold
    · obtain ⟨i, hi⟩ := hrecorded a hnew
      rw [hi]
      rfl
  · intro _
    rw [hio]
    exact ⟨hclosed.closed, hclosed.queue, hpending⟩
  · intro hnone
    rw [hnone] at hstop
    cases hstop
  · rw [hio]
    exact hclosed.pty
  · rw [hio]
    exact hclosed.closed

end InLoop

/-! ## One step of the loop -/

theorem signal_stdin (s : Sys) (process : PtyProcess) (signal : Signal)
    (killed : Result Unit) :
    (s.signal process signal killed).1.session.stdin = s.session.stdin := by
  unfold Sys.signal
  split <;> rfl

theorem append_stdin (s : Sys) (now : Instant) (text : Text) :
    (s.append now text).session.stdin = s.session.stdin := by
  unfold Sys.append Session.pushOutput
  split <;> rfl

namespace Supervisor

theorem poll_flows (h : InLoop s v settled) (hstep : v.step s .poll = some t) :
    ∃ w, Flows s t w settled := by
  rw [step] at hstep
  split at hstep
  · rename_i hguard
    simp only [Bool.and_eq_true, Bool.not_eq_true'] at hguard
    refine ⟨_, h.quiet ?_ hstep rfl rfl rfl⟩
    intro hstop a ha
    by_contra hcut
    have hcancelled := hguard.2
    rw [((h.running hstop).2 ⟨a, ha, hcut⟩).1, hstop] at hcancelled
    cases hcancelled
  · cases hstep

theorem onStop_flows (h : InLoop s v settled) (hstep : v.onStop s now = some t) :
    ∃ w settled', Flows s t w settled' := by
  unfold onStop at hstep
  split at hstep
  · cases hstep
    exact ⟨_, h.close rfl rfl rfl rfl⟩
  · cases hstep

theorem onInput_flows (h : InLoop s v settled) (hstep : v.onInput s = some t) :
    ∃ w, Flows s t w settled := by
  unfold onInput at hstep
  split at hstep
  · rename_i hguard
    simp only [Bool.and_eq_true, Option.isNone_iff_eq_none] at hguard
    obtain ⟨⟨⟨hready, hstop⟩, hpending⟩, -⟩ := hguard
    have hcalm := h.calm (.inl (ready_polled hready).1)
    have hclosed := (h.running hstop).1
    split at hstep
    · rename_i input rest hqueue
      cases hstep
      have hflow := h.flow
      rw [hpending] at hflow
      have hwaiting := hflow.waiting input
        (List.mem_append_left _ (by rw [hqueue]; exact List.mem_cons_self))
      refine ⟨_, rfl, ⟨hflow.take hqueue (hcalm hstop), ?_, h.recorded, ?_, ?_⟩, ?_⟩
      · rintro _ ⟨⟩
        rw [hwaiting.1]
        exact List.length_pos_iff.mpr hwaiting.2
      · intro hsome
        rw [show _ = v.stop from rfl, hstop] at hsome
        cases hsome
      · intro _
        refine ⟨hclosed, ?_⟩
        rintro ⟨a, ha, hcut⟩
        exact absurd (hcalm hstop a ha) hcut
      · intro hopen
        exact absurd (hclosed.symm.trans hopen) nofun
    · split at hstep
      · rename_i hopen
        exact absurd (hclosed.symm.trans hopen) nofun
      · cases hstep
  · cases hstep

theorem onWritten_flows {result : Result Nat} (h : InLoop s v settled)
    (hstep : v.onWritten s result = some t) : ∃ w settled', Flows s t w settled' := by
  unfold onWritten at hstep
  split at hstep
  · rename_i hguard
    simp only [Bool.and_eq_true] at hguard
    have hcalm := h.calm (.inl (ready_polled hguard.1.1).1)
    split at hstep
    · cases hstep
    · rename_i input hpending
      -- something is pending, so no stop was handled and the channel is open
      have hstop : v.stop = none := by
        by_contra hsome
        obtain ⟨-, -, hnone⟩ := h.stopped (Option.isSome_iff_ne_none.mpr hsome)
        rw [hpending] at hnone
        cases hnone
      have hclosed := (h.running hstop).1
      have hopen : s.session.stdin.closed = true → False := fun hopen =>
        absurd (hclosed.symm.trans hopen) nofun
      have hflow := h.flow
      rw [hpending] at hflow
      split at hstep
      · rename_i count
        dsimp only at hstep
        split at hstep
        · rename_i hcount
          have hrest : count ≤ input.bytes.length - input.offset := by
            rw [← List.length_drop]
            exact le_trans hcount.2 (min_le_right _ _)
          have hle := (hflow.pending_le input rfl).1
          have hwrite := hflow.write count (by omega)
          split at hstep
          · rename_i hwhole
            cases hstep
            have hsettle := hwrite.settle (some (input.offset + count))
              (fun _ heq => (Option.some.inj heq).symm) (decide_eq_true hwhole).symm
            refine ⟨_, _, rfl, ⟨hsettle, nofun, ?_, ?_, ?_⟩, fun hshut => (hopen hshut).elim⟩
            · intro a ha
              rcases List.mem_append.mp ha with hold | hnew
              · exact h.recorded a hold
              · rw [List.mem_singleton.mp hnew]
                rfl
            · intro hsome
              rw [show _ = v.stop from rfl, hstop] at hsome
              cases hsome
            · intro _
              refine ⟨hclosed, ?_⟩
              rintro ⟨a, ha, hcut⟩
              rcases List.mem_append.mp ha with hold | hnew
              · exact absurd (hcalm hstop a hold) hcut
              · rw [List.mem_singleton.mp hnew] at hcut
                exact absurd hwhole hcut
          · rename_i hpart
            cases hstep
            refine ⟨_, _, rfl, ⟨hwrite, ?_, h.recorded, ?_, ?_⟩, fun hshut => (hopen hshut).elim⟩
            · rintro _ ⟨⟩
              dsimp only at hpart ⊢
              omega
            · intro hsome
              rw [show _ = v.stop from rfl, hstop] at hsome
              cases hsome
            · intro _
              refine ⟨hclosed, ?_⟩
              rintro ⟨a, ha, hcut⟩
              exact absurd (hcalm hstop a ha) hcut
        · cases hstep
      · -- the write failed: the input is answered with what was written so far
        cases hstep
        have hlt := h.short input hpending
        have hsettle := hflow.settle (some input.offset)
          (fun _ heq => (Option.some.inj heq).symm)
          (decide_eq_false (show ¬input.offset = input.bytes.length by omega)).symm
        refine ⟨_, _, rfl, ⟨hsettle, nofun, ?_, ?_, ?_⟩, fun hshut => (hopen hshut).elim⟩
        · intro a ha
          rcases List.mem_append.mp ha with hold | hnew
          · exact h.recorded a hold
          · rw [List.mem_singleton.mp hnew]
            rfl
        · intro hsome
          rw [show _ = v.stop from rfl, hstop] at hsome
          cases hsome
        · intro _
          exact ⟨hclosed, fun _ => ⟨rfl, rfl, (ready_polled hguard.1.1).2⟩⟩
  · cases hstep

theorem onRead_flows {result : Result (List UInt8)} (h : InLoop s v settled)
    (hstep : v.onRead s now result = some t) : ∃ w, Flows s t w settled := by
  unfold onRead at hstep
  split at hstep
  · rename_i hguard
    simp only [Bool.and_eq_true] at hguard
    have hcalm := h.calm (.inl (ready_polled hguard.1).1)
    split at hstep
    · exact ⟨_, h.quiet hcalm hstep rfl rfl rfl⟩
    · exact ⟨_, h.quiet hcalm hstep (append_stdin s now _) rfl rfl⟩
    · exact ⟨_, h.quiet hcalm hstep rfl rfl Option.isSome_map⟩
  · cases hstep

theorem onTick_flows (h : InLoop s v settled) (hstep : v.onTick s now = some t) :
    ∃ w, Flows s t w settled := by
  unfold onTick at hstep
  split at hstep
  · rename_i hguard
    have hcalm := h.calm (.inl (ready_polled hguard).1)
    split at hstep
    · split at hstep
      · exact ⟨_, h.quiet hcalm hstep rfl rfl rfl⟩
      · exact ⟨_, h.quiet hcalm hstep rfl rfl rfl⟩
    · exact ⟨_, h.quiet hcalm hstep rfl rfl rfl⟩
  · cases hstep

theorem observe_flows {waited : Result Bool} (h : InLoop s v settled)
    (hstep : v.observe s now waited = some t) : ∃ w settled', Flows s t w settled' := by
  unfold observe at hstep
  split at hstep
  · rename_i hstage
    have hcalm := h.calm (.inr (by rw [hstage]; exact nofun))
    dsimp only at hstep
    split at hstep
    · exact ⟨_, _, h.quiet hcalm hstep rfl rfl rfl⟩
    · split at hstep
      · split at hstep
        · cases hstep
          exact ⟨_, h.close rfl rfl rfl rfl⟩
        · exact ⟨_, _, h.quiet hcalm hstep rfl rfl rfl⟩
      · exact ⟨_, _, h.quiet hcalm hstep rfl rfl rfl⟩
      · split at hstep
        · exact ⟨_, _, h.quiet hcalm hstep rfl rfl rfl⟩
        · exact ⟨_, _, h.quiet hcalm hstep rfl rfl rfl⟩
  · cases hstep

theorem terminate_flows {killed : Result Unit} (h : InLoop s v settled)
    (hstep : v.terminate s now killed = some t) : ∃ w, Flows s t w settled := by
  unfold terminate at hstep
  split at hstep
  · rename_i hstage
    have hcalm := h.calm (.inr (by rw [hstage]; exact nofun))
    split at hstep
    · exact ⟨_, h.quiet hcalm hstep rfl rfl rfl⟩
    · rename_i stop hstop
      dsimp only at hstep
      split at hstep
      · exact ⟨_, h.quiet hcalm hstep rfl rfl rfl⟩
      · have hstdin := signal_stdin s v.process .term killed
        split at hstep
        · rename_i s' heq
          rw [heq] at hstdin
          exact ⟨_, h.quiet hcalm hstep hstdin rfl (by rw [hstop]; rfl)⟩
        · rename_i s' error heq
          rw [heq] at hstdin
          exact ⟨_, h.quiet hcalm hstep hstdin rfl rfl⟩
  · cases hstep

theorem escalate_flows {lastAt : Instant} {killed : Result Unit} (h : InLoop s v settled)
    (hstep : v.escalate s lastAt now killed = some t) : ∃ w, Flows s t w settled := by
  unfold escalate at hstep
  split at hstep
  · rename_i elapsed stop hstage hstop
    have hcalm := h.calm (.inr (by rw [hstage]; exact nofun))
    have hoverdue : ∀ s' : Sys, (if CLEANUP_DEADLINE ≤ elapsed then
        s'.report "Vivado group death remains unconfirmed; workflow ownership is retained"
        else s').session.stdin = s'.session.stdin := by
      intro s'
      split <;> rfl
    dsimp only at hstep
    split at hstep
    · have hstdin := signal_stdin s v.process .kill killed
      split at hstep
      · rename_i s' heq
        rw [heq] at hstdin
        exact ⟨_, h.quiet hcalm hstep ((hoverdue s').trans hstdin) rfl
          (by rw [hstop]; rfl)⟩
      · rename_i s' error heq
        rw [heq] at hstdin
        exact ⟨_, h.quiet hcalm hstep ((hoverdue _).trans hstdin) rfl
          (by rw [hstop]; rfl)⟩
    · exact ⟨_, h.quiet hcalm hstep (hoverdue s) rfl rfl⟩
  · cases hstep

theorem inspect_flows {scan : ScanResult} (h : InLoop s v settled)
    (hstep : v.inspect s scan = some t) : ∃ w, Flows s t w settled := by
  unfold inspect at hstep
  split at hstep
  · rename_i hstage
    have hcalm := h.calm (.inr (by rw [hstage]; exact nofun))
    dsimp only at hstep
    split at hstep
    · split at hstep <;> exact ⟨_, h.quiet hcalm hstep rfl rfl rfl⟩
    · exact ⟨_, h.quiet hcalm hstep rfl rfl rfl⟩
  · cases hstep

theorem quiesce_flows {killed : Result Unit} (h : InLoop s v settled)
    (hstep : v.quiesce s killed = some t) : ∃ w, Flows s t w settled := by
  unfold quiesce at hstep
  split at hstep
  · rename_i hstage
    have hcalm := h.calm (.inr (by rw [hstage]; exact nofun))
    have hstdin := signal_stdin s v.process .kill killed
    split at hstep
    · rename_i s' heq
      rw [heq] at hstdin
      exact ⟨_, h.quiet hcalm hstep hstdin rfl rfl⟩
    · rename_i s' error heq
      rw [heq] at hstdin
      exact ⟨_, h.quiet hcalm hstep hstdin rfl rfl⟩
  · cases hstep

theorem confirm_flows {scan : ScanResult} (h : InLoop s v settled)
    (hstep : v.confirm s scan = some t) : ∃ w, Flows s t w settled := by
  unfold confirm at hstep
  split at hstep
  · rename_i hstage
    have hcalm := h.calm (.inr (by rw [hstage]; exact nofun))
    dsimp only at hstep
    split at hstep <;> exact ⟨_, h.quiet hcalm hstep rfl rfl rfl⟩
  · cases hstep

theorem reap_flows {waited : Result Int} (h : InLoop s v settled)
    (hstep : v.reap s now waited = some t) : ∃ w, Flows s t w settled := by
  unfold reap at hstep
  split at hstep
  · rename_i hstage
    have hcalm := h.calm (.inr (by rw [hstage]; exact nofun))
    dsimp only at hstep
    split at hstep
    · exact ⟨_, h.quiet hcalm hstep rfl rfl rfl⟩
    · split at hstep <;> exact ⟨_, h.quiet hcalm hstep rfl rfl rfl⟩
  · cases hstep

theorem loop_flows {a : LoopAction} (h : InLoop s v settled) (hstep : v.step s a = some t)
    (ha : ∀ now, a ≠ .conclude now) : ∃ w settled', Flows s t w settled' := by
  cases a with
  | poll => exact (poll_flows h hstep).imp fun _ hw => ⟨_, hw⟩
  | stop now => exact onStop_flows h hstep
  | input => exact (onInput_flows h hstep).imp fun _ hw => ⟨_, hw⟩
  | written result => exact onWritten_flows h hstep
  | read now result => exact (onRead_flows h hstep).imp fun _ hw => ⟨_, hw⟩
  | tick now => exact (onTick_flows h hstep).imp fun _ hw => ⟨_, hw⟩
  | observe now waited => exact observe_flows h hstep
  | terminate now killed => exact (terminate_flows h hstep).imp fun _ hw => ⟨_, hw⟩
  | escalate lastAt now killed => exact (escalate_flows h hstep).imp fun _ hw => ⟨_, hw⟩
  | inspect scan => exact (inspect_flows h hstep).imp fun _ hw => ⟨_, hw⟩
  | quiesce killed => exact (quiesce_flows h hstep).imp fun _ hw => ⟨_, hw⟩
  | confirm scan => exact (confirm_flows h hstep).imp fun _ hw => ⟨_, hw⟩
  | reap now waited => exact (reap_flows h hstep).imp fun _ hw => ⟨_, hw⟩
  | conclude now => exact absurd rfl (ha now)

end Supervisor

/-! ## The whole life of a session -/

/-- The stream where the task stands. -/
def Pc.Flowing (s : Sys) (settled : List Settled) : Pc → Prop
  | .preparing | .checking | .spawning | .registering _ =>
    Flow s.session.stdin none settled ∧ settled = [] ∧ s.session.stdin.closed = false
  | .supervising v => InLoop s v settled
  | .closing | .released => Flow s.session.stdin none settled ∧
    (s.session.stdin.closed = true → s.session.stdin.queue = []) ∧
    (.spawned ∈ s.trace → s.session.stdin.closed = true ∧ ∀ a ∈ settled, a.recorded.isSome = true)
  | .returned => Flow s.session.stdin none settled ∧ s.session.stdin.closed = true ∧
    s.session.stdin.queue = [] ∧
    (.spawned ∈ s.trace → ∀ a ∈ settled, a.recorded.isSome = true)
  | .aborted => Flow s.session.stdin none settled ∧ s.session.stdin.closed = true ∧
    s.session.stdin.queue = []

/-- A step that goes on with the stream: once the channel is closed, the
    terminal gets nothing any more. -/
def Goes (s t : Sys) : Prop :=
  (∃ settled, t.pc.Flowing t settled) ∧
  (s.session.stdin.closed = true →
    t.session.stdin.pty = s.session.stdin.pty ∧ t.session.stdin.closed = true)

/-- What a caller can do to the channel: queue an input while it is open. -/
structure Queues (io io' : Stdin) : Prop where
  flow : ∀ pending settled, Flow io pending settled → Flow io' pending settled
  closed : io'.closed = io.closed
  queue : io.closed = true → io'.queue = io.queue
  pty : io'.pty = io.pty

theorem Queues.refl (io : Stdin) : Queues io io := ⟨fun _ _ h => h, rfl, fun _ => rfl, rfl⟩

theorem Queues.trans {io io' io'' : Stdin} (h₁ : Queues io io') (h₂ : Queues io' io'') :
    Queues io io'' where
  flow pending settled h := h₂.flow pending settled (h₁.flow pending settled h)
  closed := h₂.closed.trans h₁.closed
  queue h := (h₂.queue (h₁.closed.trans h)).trans (h₁.queue h)
  pty := h₂.pty.trans h₁.pty

/-- The permits of the byte budget play no part in the stream. -/
theorem Queues.budget (io : Stdin) (budget : Nat) : Queues io { io with budget := budget } :=
  ⟨fun _ _ h => { h with }, rfl, fun _ => rfl, rfl⟩

theorem trySend_queues (hi : i.offset = 0 ∧ i.bytes ≠ []) :
    Queues io (io.trySend i).1 := by
  unfold Stdin.trySend
  split
  · exact .budget io _
  · rename_i hopen
    split
    · exact .budget io _
    · exact ⟨fun _ _ h => h.enqueue hi, rfl, fun hclosed => absurd hclosed hopen, rfl⟩

theorem sendInput_queues {id : Uuid} {text : List UInt8} {io' : Stdin}
    (h : s.session.sendInput id text = .ok (some io')) : Queues s.session.stdin io' := by
  unfold Session.sendInput at h
  -- every branch but the last refuses the text or has nothing to write
  repeat (split at h; · cases h)
  rename_i hempty _ _
  cases h
  refine ⟨fun pending settled hflow => ?_, rfl, fun _ => rfl, rfl⟩
  apply hflow.admit
  intro i hi hnot
  rcases List.mem_append.mp hi with hold | hnew
  · exact absurd hold hnot
  · rw [List.mem_singleton.mp hnew]
    refine ⟨rfl, ?_⟩
    rintro rfl
    exact hempty rfl

theorem callerStep_queues {a : Action} (hadmitted : ∀ i ∈ s.session.stdin.admitted,
      i.offset = 0 ∧ i.bytes ≠ []) (hstep : s.callerStep a = some t) :
    Queues s.session.stdin t.session.stdin := by
  cases a with
  | requestStop reason =>
      cases hstep
      exact .refl _
  | sendInput id text =>
      simp only [Sys.callerStep] at hstep
      split at hstep
      · rename_i io hio
        cases hstep
        exact sendInput_queues hio
      · cases hstep
        exact .refl _
      · cases hstep
        exact .refl _
  | trySend index durable =>
      simp only [Sys.callerStep] at hstep
      split at hstep
      · cases hstep
      · rename_i i hi
        have herase : Queues s.session.stdin { s.session.stdin with
            admitted := s.session.stdin.admitted.eraseIdx index } := by
          refine ⟨fun pending settled hflow => ?_, rfl, fun _ => rfl, rfl⟩
          apply hflow.admit
          intro j hj hnot
          exact absurd (List.mem_of_mem_eraseIdx hj) hnot
        split at hstep
        · cases hstep
          exact herase.trans (trySend_queues (hadmitted i (List.mem_of_getElem? hi)))
        · cases hstep
          exact herase.trans (.budget _ _)
  | register other =>
      simp only [Sys.callerStep] at hstep
      split at hstep <;> cases hstep <;> exact .refl _
  | finishedOther other =>
      simp only [Sys.callerStep] at hstep
      split at hstep <;> cases hstep
      exact .refl _
  | shutdown =>
      simp only [Sys.callerStep, Option.some.injEq] at hstep
      subst hstep
      split <;> exact .refl _
  | _ => cases hstep

/-- The inputs whose callers still wait are untouched. -/
theorem Pc.Flowing.admitted (h : s.pc.Flowing s settled) :
    ∀ i ∈ s.session.stdin.admitted, i.offset = 0 ∧ i.bytes ≠ [] := by
  have hflow : ∃ pending, Flow s.session.stdin pending settled := by
    cases hpc : s.pc with
    | supervising v =>
        rw [hpc] at h
        exact ⟨v.pending, h.flow⟩
    | preparing | checking | spawning | registering process | closing | released | returned
    | aborted =>
        rw [hpc] at h
        exact ⟨none, h.1⟩
  obtain ⟨pending, hflow⟩ := hflow
  exact fun i hi => hflow.waiting i (List.mem_append_right _ hi)

theorem callerStep_goes {a : Action} (h : s.pc.Flowing s settled)
    (hstep : s.callerStep a = some t) : Goes s t := by
  have hqueues := callerStep_queues h.admitted hstep
  have hsame := callerStep_undisturbed (N := False) nofun hstep
  refine ⟨⟨settled, ?_⟩, fun hclosed => ⟨hqueues.pty, hqueues.closed.trans hclosed⟩⟩
  rw [hsame.pc]
  cases hpc : s.pc with
  | preparing | checking | spawning | registering process =>
      rw [hpc] at h
      exact ⟨hqueues.flow _ _ h.1, h.2.1, hqueues.closed.trans h.2.2⟩
  | supervising v =>
      rw [hpc] at h
      exact
        { flow := hqueues.flow _ _ h.flow
          short := h.short
          recorded := h.recorded
          stopped := by
              intro hstop
              obtain ⟨hclosed, hqueue, hpending⟩ := h.stopped hstop
              exact ⟨hqueues.closed.trans hclosed, (hqueues.queue hclosed).trans hqueue, hpending⟩
          running := by
              intro hstop
              obtain ⟨hopen, hcut⟩ := h.running hstop
              refine ⟨hqueues.closed.trans hopen, fun hexists => ?_⟩
              obtain ⟨hcancelled, hplace⟩ := hcut hexists
              exact ⟨hsame.cancelled hcancelled, hplace⟩ }
  | closing | released =>
      rw [hpc] at h
      obtain ⟨hflow, hqueue, hspawned⟩ := h
      refine ⟨hqueues.flow _ _ hflow, fun hclosed => ?_, fun hmem => ?_⟩
      · have hold := hqueues.closed.symm.trans hclosed
        exact (hqueues.queue hold).trans (hqueue hold)
      · rw [hsame.trace] at hmem
        exact ⟨hqueues.closed.trans (hspawned hmem).1, (hspawned hmem).2⟩
  | returned =>
      rw [hpc] at h
      obtain ⟨hflow, hclosed, hqueue, hspawned⟩ := h
      exact ⟨hqueues.flow _ _ hflow, hqueues.closed.trans hclosed,
        (hqueues.queue hclosed).trans hqueue, fun hmem => hspawned (hsame.trace ▸ hmem)⟩
  | aborted =>
      rw [hpc] at h
      obtain ⟨hflow, hclosed, hqueue⟩ := h
      exact ⟨hqueues.flow _ _ hflow, hqueues.closed.trans hclosed,
        (hqueues.queue hclosed).trans hqueue⟩

/-! ## The task -/

theorem dropProcess_session (s : Sys) (process : PtyProcess) (killed : Result Unit) :
    (s.dropProcess process killed).session.stdin = s.session.stdin := by
  unfold Sys.dropProcess
  split
  · exact signal_stdin s process .kill killed
  · rfl

/-- Dropping the receiver answers what it still holds, and the stream is over. -/
theorem Flow.drop (h : Flow s.session.stdin pending settled)
    (hshort : ∀ i, pending = some i → i.offset < i.bytes.length)
    (ht : t.session.stdin = s.session.stdin.dropInputs pending) :
    ∃ refused, Flow t.session.stdin none (settled ++ refused) ∧
      Closed s.session.stdin t.session.stdin := by
  obtain ⟨refused, hflow, -, hclosed⟩ := h.close (fun _ => none) nofun hshort
  rw [ht]
  exact ⟨refused, hflow, hclosed⟩

theorem abandon_goes (h : Flow s.session.stdin pending settled)
    (hshort : ∀ i, pending = some i → i.offset < i.bytes.length)
    (hu : u.session.stdin = s.session.stdin) : Goes s (u.abandon pending) := by
  have hdrop : (u.abandon pending).session.stdin = s.session.stdin.dropInputs pending :=
    congrArg (Stdin.dropInputs · pending) hu
  obtain ⟨refused, hflow, hclosed⟩ := h.drop hshort hdrop
  exact ⟨⟨_, hflow, hclosed.closed, hclosed.queue⟩, fun _ => ⟨hclosed.pty, hclosed.closed⟩⟩

/-- A session that ends with nothing spawned leaves the channel as it is. -/
theorem finishEarly_goes (h : Flow s.session.stdin none settled)
    (hopen : s.session.stdin.closed = false) (htrace : s.trace = [])
    (reason : TerminationReason) : Goes s (s.finish reason none false) := by
  refine ⟨⟨settled, h, fun hclosed => ?_, fun hspawned => ?_⟩, fun hclosed => ?_⟩
  · exact absurd (hopen.symm.trans hclosed) nofun
  · rcases List.mem_cons.mp hspawned with heq | hmem
    · cases heq
    · rw [htrace] at hmem
      cases hmem
  · exact absurd (hopen.symm.trans hclosed) nofun

theorem Supervisor.conclude_goes (h : InLoop s v settled)
    (hstep : v.conclude s now = some t) : Goes s t := by
  unfold conclude at hstep
  split at hstep
  · obtain ⟨refused, hflow, hrecorded, hclosed⟩ := h.flow.close (fun i => some i.offset)
      (fun _ _ heq => (Option.some.inj heq).symm) h.short
    cases hstep
    have hstdin : ∀ (reason : TerminationReason) (truncated : Bool),
        ((((s.mapStdin (·.rejectInputs v.pending)).append now v.decoder.finish).finish reason
          v.exitCode truncated).dropProcess v.process (.ok ())).session.stdin
          = s.session.stdin.close v.pending fun i => some i.offset := by
      intro reason truncated
      rw [dropProcess_session]
      exact append_stdin (s.mapStdin (·.rejectInputs v.pending)) now v.decoder.finish
    have hpc : ∀ (u : Sys), (u.dropProcess v.process (.ok ())).pc = u.pc := by
      intro u
      unfold Sys.dropProcess Sys.signal
      split
      · split <;> rfl
      · rfl
    refine ⟨⟨settled ++ refused, ?_⟩, fun _ => ?_⟩
    · rw [hpc]
      refine ⟨?_, fun _ => ?_, fun _ => ⟨?_, ?_⟩⟩
      · rw [hstdin]
        exact hflow
      · rw [hstdin]
        exact hclosed.queue
      · rw [hstdin]
        exact hclosed.closed
      · intro a ha
        rcases List.mem_append.mp ha with hold | hnew
        · exact h.recorded a hold
        · obtain ⟨i, hi⟩ := hrecorded a hnew
          rw [hi]
          rfl
    · rw [hstdin]
      exact ⟨hclosed.pty, hclosed.closed⟩
  · cases hstep

theorem runStep_goes {a : Action} (hguards : Guards False s) (h : s.pc.Flowing s settled)
    (hstep : s.runStep a = some t) : Goes s t := by
  have hplace := hguards.place
  unfold Sys.runStep at hstep
  split at hstep
  · split at hstep
    · rename_i hpc
      rw [hpc] at hplace h
      split at hstep
      · cases hstep
        exact ⟨⟨settled, h⟩, fun hclosed => ⟨rfl, hclosed⟩⟩
      · cases hstep
        exact finishEarly_goes h.1 h.2.2 hplace.2 _
    · cases hstep
  · split at hstep
    · rename_i hpc
      rw [hpc] at hplace h
      split at hstep
      · cases hstep
        exact finishEarly_goes h.1 h.2.2 hplace.2 _
      · cases hstep
        exact ⟨⟨settled, h⟩, fun hclosed => ⟨rfl, hclosed⟩⟩
    · cases hstep
  · split at hstep
    · rename_i pid hpc
      rw [hpc] at h
      cases hstep
      exact ⟨⟨settled, h⟩, fun hclosed => ⟨rfl, hclosed⟩⟩
    · rename_i hpc
      rw [hpc] at hplace h
      cases hstep
      exact finishEarly_goes h.1 h.2.2 hplace.2 _
    · rename_i message hpc
      rw [hpc] at h
      cases hstep
      exact abandon_goes h.1 nofun rfl
    · cases hstep
  · -- the loop starts with nothing pending and an open channel
    split at hstep
    · rename_i process hpc
      rw [hpc] at h
      obtain ⟨hflow, hnone, hopen⟩ := h
      cases hstep
      have hstart : ∀ (u : Sys) (ok : Bool), u.session.stdin = s.session.stdin →
          Goes s { u with pc := .supervising (.start process ok) } := by
        intro u ok hu
        refine ⟨⟨settled, ?_, nofun, ?_, nofun, fun _ => ⟨?_, ?_⟩⟩, fun hclosed => ?_⟩
        · show Flow u.session.stdin none settled
          rw [hu]
          exact hflow
        · rw [hnone]
          exact nofun
        · show u.session.stdin.closed = false
          rw [hu, hopen]
        · rw [hnone]
          rintro ⟨a, ha, -⟩
          cases ha
        · exact absurd (hopen.symm.trans hclosed) nofun
      apply hstart
      split
      · rfl
      · split <;> rfl
    · cases hstep
  · split at hstep
    · rename_i action _ v hpc
      rw [hpc] at hplace h
      by_cases hlast : ∃ now, action = LoopAction.conclude now
      · obtain ⟨now, hnow⟩ := hlast
        subst hnow
        exact v.conclude_goes h hstep
      · rw [not_exists] at hlast
        obtain ⟨w, settled', hflows⟩ := v.loop_flows h hstep hlast
        refine ⟨⟨settled', ?_⟩, hflows.sealed⟩
        rw [hflows.pc]
        exact hflows.loop
    · cases hstep
  · split at hstep
    · rename_i hpc
      rw [hpc] at h
      cases hstep
      refine ⟨⟨settled, h.1, h.2.1, fun hmem => h.2.2 ?_⟩, fun hclosed => ⟨rfl, hclosed⟩⟩
      rcases List.mem_cons.mp hmem with heq | hmem
      · cases heq
      · exact hmem
    · cases hstep
  · -- the receiver is dropped; it is empty if there was a loop
    split at hstep
    · rename_i hpc
      rw [hpc] at h
      obtain ⟨hflow, hqueue, hspawned⟩ := h
      cases hstep
      obtain ⟨refused, hdropped, hclosed⟩ := hflow.drop
        (t := { s.mapStdin (·.dropInputs none) with pc := .returned }) nofun rfl
      refine ⟨⟨_, hdropped, hclosed.closed, hclosed.queue, fun hmem => ?_⟩,
        fun _ => ⟨hclosed.pty, hclosed.closed⟩⟩
      obtain ⟨hshut, hrecorded⟩ := hspawned hmem
      have hrefused : refused = [] := by
        have hold := congrArg List.length hflow.queued
        have hnew := congrArg List.length hdropped.queued
        rw [hclosed.queued, hclosed.queue] at hnew
        rw [hqueue hshut] at hold
        simp only [List.length_append, List.length_map, Option.map_none, Option.toList_none,
          List.length_nil] at hold hnew
        exact List.length_eq_zero_iff.mp (by omega)
      rw [hrefused, List.append_nil]
      exact hrecorded
    · cases hstep
  · split at hstep
    · rename_i hpc
      rw [hpc] at h
      cases hstep
      exact abandon_goes h.1 nofun rfl
    · rename_i hpc
      rw [hpc] at h
      cases hstep
      exact abandon_goes h.1 nofun rfl
    · rename_i hpc
      rw [hpc] at h
      split at hstep
      · cases hstep
        exact abandon_goes h.1 nofun (dropProcess_session _ _ _)
      · cases hstep
        exact abandon_goes h.1 nofun rfl
    · rename_i process hpc
      rw [hpc] at h
      cases hstep
      exact abandon_goes h.1 nofun (dropProcess_session _ _ _)
    · rename_i v hpc
      rw [hpc] at h
      cases hstep
      exact abandon_goes h.flow h.short (dropProcess_session _ _ _)
    · cases hstep
  · cases hstep

theorem step_goes {a : Action} (hguards : Guards False s) (h : s.pc.Flowing s settled)
    (hstep : Sys.step a s = some t) : Goes s t := by
  rcases step_cases hstep with hcaller | hrun
  · exact callerStep_goes h hcaller
  · exact runStep_goes hguards h hrun

/-! ## Every run -/

/-- How many bytes of the `k`-th queued input reached the terminal, when it took
    the first `n` of them as a whole and `w` bytes of the next. -/
def reached (n w k : Nat) (input : Input) : Nat :=
  if k < n then input.bytes.length else if k = n then w else 0

/-- An ordered account: some inputs as a whole, a part of the next, nothing of
    the others. -/
structure Cut (account : List Settled) (n w : Nat) : Prop where
  le : n ≤ account.length
  lt : ∀ a, account[n]? = some a → w < a.input.bytes.length
  zero : account[n]? = none → w = 0
  written : ∀ (k : Nat) a, account[k]? = some a → a.written = reached n w k a.input
  sent : (account.map (·.sent)).flatten = ((account.take n).map (·.input.bytes)).flatten ++
    ((account[n]?.map (·.input.bytes)).getD []).take w

theorem exists_cut {account : List Settled}
    (hordered : account.Pairwise fun a b => a.whole ∨ b.written = 0)
    (hle : ∀ a ∈ account, a.written ≤ a.input.bytes.length)
    (hne : ∀ a ∈ account, a.input.bytes ≠ []) : ∃ n w, Cut account n w := by
  induction account with
  | nil => exact ⟨0, 0, le_rfl, nofun, fun _ => rfl, nofun, rfl⟩
  | cons a account ih =>
      rw [List.pairwise_cons] at hordered
      rw [List.forall_mem_cons] at hle hne
      by_cases hwhole : a.whole
      · obtain ⟨n, w, hcut⟩ := ih hordered.2 hle.2 hne.2
        refine ⟨n + 1, w, ?_, hcut.lt, hcut.zero, ?_, ?_⟩
        · rw [List.length_cons]
          exact Nat.succ_le_succ hcut.le
        · intro k b hb
          cases k with
          | zero =>
              cases hb
              exact hwhole.trans (if_pos (Nat.succ_pos n)).symm
          | succ k =>
              rw [hcut.written k b hb, reached, reached]
              simp only [Nat.add_lt_add_iff_right, Nat.add_right_cancel_iff]
        · rw [List.map_cons, List.flatten_cons, hcut.sent, List.take_succ_cons, List.map_cons,
            List.flatten_cons, List.append_assoc, List.getElem?_cons_succ, Settled.sent,
            show a.written = a.input.bytes.length from hwhole, List.take_length]
      · -- the first input was cut short, and nothing is written behind it
        have hzero : ∀ b ∈ account, b.written = 0 := fun b hb =>
          (hordered.1 b hb).resolve_left hwhole
        refine ⟨0, a.written, Nat.zero_le _, ?_, nofun, ?_, ?_⟩
        · rintro _ ⟨⟩
          exact lt_of_le_of_ne hle.1 hwhole
        · intro k b hb
          cases k with
          | zero =>
              cases hb
              rfl
          | succ k =>
              rw [hzero b (List.mem_of_getElem? hb)]
              rfl
        · have hnothing : (account.map (·.sent)).flatten = [] := by
            rw [List.flatten_eq_nil_iff]
            intro bytes hbytes
            obtain ⟨b, hb, heq⟩ := List.mem_map.mp hbytes
            rw [← heq, Settled.sent, hzero b hb, List.take_zero]
          rw [List.map_cons, List.flatten_cons, hnothing, List.append_nil]
          rfl

/-- The account with the pending input as its last entry. -/
def accountOf (pending : Option Input) (settled : List Settled) : List Settled :=
  settled ++ pending.toList.map fun i => ⟨i.fresh, i.offset, none⟩

/-- The stream law at one instant. -/
structure Streams (io : Stdin) (n w : Nat) : Prop where
  pty : io.pty = ((io.queued.take n).map (·.bytes)).flatten ++
    ((io.queued[n]?.map (·.bytes)).getD []).take w
  le : n ≤ io.queued.length
  answers_le : io.answers.length ≤ io.queued.length
  answers : ∀ (k : Nat) answer, io.answers[k]? = some answer → ∃ input, io.queued[k]? = some input ∧
    answer.id = input.id ∧ (answer.ok = true ↔ reached n w k input = input.bytes.length) ∧
    ∀ written, answer.recorded = some written → written = reached n w k input

theorem Flow.streams (h : Flow io pending settled) : ∃ n w, Streams io n w := by
  have hqueued : io.queued = (accountOf pending settled).map (·.input) ++ io.queue := by
    rw [h.queued, accountOf, List.map_append, List.map_map]
    cases pending <;> rfl
  have hordered : (accountOf pending settled).Pairwise fun a b => a.whole ∨ b.written = 0 := by
    cases hpending : pending with
    | none =>
        rw [accountOf, Option.toList_none, List.map_nil, List.append_nil]
        exact h.ordered
    | some i =>
        rw [accountOf, List.pairwise_append]
        exact ⟨h.ordered, List.pairwise_singleton _ _,
          fun a ha _ _ => .inl ((h.pending_le i hpending).2 a ha)⟩
  have hfits : ∀ a ∈ accountOf pending settled, a.written ≤ a.input.bytes.length := by
    intro a ha
    rcases List.mem_append.mp ha with hold | hlast
    · exact (h.fits a hold).1
    · obtain ⟨i, hi, heq⟩ := List.mem_map.mp hlast
      rw [← heq]
      exact (h.pending_le i (Option.mem_toList.mp hi)).1
  have hbytes : ∀ a ∈ accountOf pending settled, a.input.bytes ≠ [] := by
    intro a ha
    apply h.nonempty
    rw [hqueued]
    exact List.mem_append_left _ (List.mem_map_of_mem ha)
  obtain ⟨n, w, hcut⟩ := exists_cut hordered hfits hbytes
  have hget : ∀ (k : Nat) a, (accountOf pending settled)[k]? = some a →
      io.queued[k]? = some a.input := by
    intro k a ha
    have hlt := (List.getElem?_eq_some_iff.mp ha).1
    rw [hqueued, List.getElem?_append_left (by rw [List.length_map]; exact hlt),
      List.getElem?_map, ha]
    rfl
  have hle : n ≤ ((accountOf pending settled).map (·.input)).length := by
    rw [List.length_map]
    exact hcut.le
  refine ⟨n, w, ?_, ?_, ?_, ?_⟩
  · have hsent : io.pty = ((accountOf pending settled).map (·.sent)).flatten := by
      rw [h.pty, accountOf, List.map_append, List.flatten_append, List.map_map]
      cases pending <;> simp [Settled.sent, Input.fresh]
    rw [hsent, hcut.sent]
    congr 1
    · rw [hqueued, List.take_append_of_le_length hle, ← List.map_take, List.map_map]
      rfl
    · cases hnext : (accountOf pending settled)[n]? with
      | none => rw [hcut.zero hnext, List.take_zero, List.take_zero]
      | some a => rw [hget n a hnext]; rfl
  · rw [hqueued, List.length_append]
    omega
  · rw [h.queued, h.answers]
    simp only [List.length_append, List.length_map]
    omega
  · intro k answer hanswer
    rw [h.answers, List.getElem?_map, Option.map_eq_some_iff] at hanswer
    obtain ⟨a, ha, heq⟩ := hanswer
    have haccount : (accountOf pending settled)[k]? = some a := by
      rw [accountOf, List.getElem?_append_left (List.getElem?_eq_some_iff.mp ha).1, ha]
    have hwritten := hcut.written k a haccount
    refine ⟨a.input, hget k a haccount, by rw [← heq]; rfl, ?_, ?_⟩
    · rw [← heq, ← hwritten]
      exact decide_eq_true_iff
    · intro written hrecorded
      rw [← hwritten]
      rw [← heq] at hrecorded
      exact (h.fits a (List.mem_of_getElem? ha)).2 written hrecorded

theorem flowing_start (id : Uuid) (maxBytes stdinMaxBytes : Nat) :
    (Sys.start id maxBytes stdinMaxBytes).pc.Flowing (Sys.start id maxBytes stdinMaxBytes) [] :=
  ⟨⟨rfl, rfl, rfl, nofun, .nil, nofun, nofun, nofun⟩, rfl, rfl⟩

/-- What a run keeps: its guards, its stream, and, once the channel is closed,
    the bytes of the terminal. -/
theorem run_goes {actions : List Action} (hguards : Guards False s)
    (h : s.pc.Flowing s settled) (hrun : exec Sys.step actions s = some t) :
    Guards False t ∧ Goes s t := by
  have hinv := (StepSystem.Run.of_exec hrun).invariant
    (I := fun t => Guards False t ∧ Goes s t)
    (by
      rintro a u w ⟨hu, ⟨settled', hflowing⟩, hsealed⟩ - hstep
      obtain ⟨hnext, hlater⟩ := step_goes hu hflowing hstep
      refine ⟨step_guards hu nofun hstep, hnext, fun hclosed => ?_⟩
      obtain ⟨hpty, hstill⟩ := hsealed hclosed
      obtain ⟨hpty', hstill'⟩ := hlater hstill
      exact ⟨hpty'.trans hpty, hstill'⟩)
    ⟨hguards, ⟨settled, h⟩, fun hclosed => ⟨rfl, hclosed⟩⟩
  exact hinv

/-- The supervisor has handled a stop or the exit of the leader, or its task is
    over. -/
def Sys.stopped (s : Sys) : Prop :=
  (∃ v, s.pc = .supervising v ∧ (v.stop.isSome = true ∨ v.leaderExited = true)) ∨
  (.spawned ∈ s.trace ∧ s.session.terminal = true) ∨ s.pc = .returned ∨ s.pc = .aborted

theorem Pc.Flowing.closed (h : s.pc.Flowing s settled) (hguards : Guards False s)
    (hstopped : s.stopped) : s.session.stdin.closed = true := by
  rcases hstopped with ⟨v, hpc, hstop⟩ | ⟨hspawned, hterminal⟩ | hpc | hpc
  · have hplace := hguards.place
    rw [hpc] at h hplace
    rcases hstop with hstop | hexit
    · exact (h.stopped hstop).1
    · exact (h.stopped (hplace.2.stopped (.inl hexit))).1
  · obtain ⟨-, hpc | hpc | hpc⟩ := hguards.ended hterminal
    · rw [hpc] at h
      exact (h.2.2 hspawned).1
    · rw [hpc] at h
      exact (h.2.2 hspawned).1
    · rw [hpc] at h
      exact h.2.1
  · rw [hpc] at h
    exact h.2.1
  · rw [hpc] at h
    exact h.2.1

/-- Behind a closed channel every input is answered. -/
theorem Pc.Flowing.answered (h : s.pc.Flowing s settled)
    (hclosed : s.session.stdin.closed = true) :
    s.session.stdin.answers.length = s.session.stdin.queued.length := by
  have hdone : Flow s.session.stdin none settled ∧ s.session.stdin.queue = [] := by
    cases hpc : s.pc with
    | preparing | checking | spawning | registering process =>
        rw [hpc] at h
        exact absurd (h.2.2.symm.trans hclosed) nofun
    | supervising v =>
        rw [hpc] at h
        have hstop : v.stop.isSome = true := by
          by_contra hnone
          rw [Bool.not_eq_true, Option.isSome_eq_false_iff, Option.isNone_iff_eq_none] at hnone
          exact h.open_of_running hnone hclosed
        obtain ⟨-, hqueue, hpending⟩ := h.stopped hstop
        exact ⟨hpending ▸ h.flow, hqueue⟩
    | closing | released =>
        rw [hpc] at h
        exact ⟨h.1, h.2.1 hclosed⟩
    | returned =>
        rw [hpc] at h
        exact ⟨h.1, h.2.2.1⟩
    | aborted =>
        rw [hpc] at h
        exact ⟨h.1, h.2.2⟩
  obtain ⟨hflow, hqueue⟩ := hdone
  rw [hflow.queued, hflow.answers, hqueue]
  simp

/-- Only an input that was dropped unseen has no completion event. -/
theorem Pc.Flowing.allRecorded (h : s.pc.Flowing s settled) (hspawned : .spawned ∈ s.trace)
    (hpc : s.pc ≠ .aborted) : ∀ a ∈ s.session.stdin.answers, a.recorded.isSome = true := by
  have hsettled : s.session.stdin.answers = settled.map (·.answer) ∧
      ∀ a ∈ settled, a.recorded.isSome = true := by
    cases hplace : s.pc with
    | preparing | checking | spawning | registering process =>
        rw [hplace] at h
        refine ⟨h.1.answers, ?_⟩
        rw [h.2.1]
        exact nofun
    | supervising v =>
        rw [hplace] at h
        exact ⟨h.flow.answers, h.recorded⟩
    | closing | released =>
        rw [hplace] at h
        exact ⟨h.1.answers, (h.2.2 hspawned).2⟩
    | returned =>
        rw [hplace] at h
        exact ⟨h.1.answers, h.2.2.2 hspawned⟩
    | aborted => exact absurd hplace hpc
  intro a ha
  rw [hsettled.1] at ha
  obtain ⟨b, hb, heq⟩ := List.mem_map.mp ha
  rw [← heq]
  exact hsettled.2 b hb

/-- The terminal is written the queued texts in order, the last one perhaps cut
    short, and nothing once the stop or the exit of the leader was handled.  By
    then every input is answered, once: `Ok` when all of it was written. -/
theorem stdin_stream {id : Uuid} {maxBytes stdinMaxBytes : Nat} {actions : List Action}
    (hrun : exec Sys.step actions (Sys.start id maxBytes stdinMaxBytes) = some s) :
    (∃ n w, Streams s.session.stdin n w) ∧
    (s.stopped → s.session.stdin.answers.length = s.session.stdin.queued.length ∧
      ∀ later t, exec Sys.step later s = some t →
        t.session.stdin.pty = s.session.stdin.pty) ∧
    (.spawned ∈ s.trace → s.pc ≠ .aborted →
      ∀ a ∈ s.session.stdin.answers, a.recorded.isSome = true) := by
  obtain ⟨hguards, ⟨settled, hflowing⟩, -⟩ :=
    run_goes (guards_start False id _ _) (flowing_start id _ _) hrun
  refine ⟨?_, fun hstopped => ?_, hflowing.allRecorded⟩
  · cases hpc : s.pc with
    | supervising v =>
        rw [hpc] at hflowing
        exact hflowing.flow.streams
    | preparing | checking | spawning | registering process | closing | released | returned
    | aborted =>
        rw [hpc] at hflowing
        exact hflowing.1.streams
  · have hclosed := hflowing.closed hguards hstopped
    refine ⟨hflowing.answered hclosed, fun later t hlater => ?_⟩
    exact ((run_goes hguards hflowing hlater).2.2 hclosed).1

/-- Two bytes of the first input reach the terminal before the stop. -/
def interruptedInput : List Action :=
  [.prepared true, .checkStart false, .spawn (.process 7), .registerFd true false,
    .sendInput 1 [10, 11, 12], .trySend 0 true, .sendInput 2 [13], .trySend 0 true,
    .loop .poll, .loop .input, .loop .poll, .loop (.written (.ok 2)),
    .requestStop .clientRequested, .loop (.stop 0)]

/-- The supervisor has been asked to stop. -/
def Pc.stopAsked : Pc → Bool
  | .supervising v => v.stop.isSome
  | _ => false

theorem stdin_stream_interrupted : ∃ s,
    exec Sys.step interruptedInput (Sys.start 9 64 64) = some s ∧ s.session.stdin.pty = [10, 11] ∧ s.session.stdin.answers.length = 2 ∧
    ∃ n w, Streams s.session.stdin n w := by
  have hrun : (exec Sys.step interruptedInput (Sys.start 9 64 64)).any (fun s =>
      s.session.stdin.pty == [10, 11] && s.session.stdin.queued.length == 2 && s.pc.stopAsked) = true := by
    decide +kernel
  obtain ⟨s, hs, hcheck⟩ := StepSystem.exists_of_exec hrun
  simp only [Bool.and_eq_true, beq_iff_eq] at hcheck
  obtain ⟨⟨hpty, hqueued⟩, hstop⟩ := hcheck
  have hstopped : s.stopped := by
    cases hpc : s.pc with
    | supervising v =>
        rw [hpc] at hstop
        exact .inl ⟨v, hpc, .inl hstop⟩
    | _ => simp [hpc, Pc.stopAsked] at hstop
  obtain ⟨hstreams, hanswered, -⟩ := stdin_stream hs
  exact ⟨s, hs, hpty, (hanswered hstopped).1.trans hqueued, hstreams⟩

end VivadoServer.Sessions
