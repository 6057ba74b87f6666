/-
  VivadoServer.History.Account

  The live journal is a sequence ledger (`Lib.Ledger`).

    reserved  the producer counter          shown    the reader's events
    head      the reader's `next_cursor`    covered  the reader's gaps
    flight    the events of the batch in the writer's hands, then the queue
    parked    the pending list, and whatever the writer has taken from it or is
              about to add to it

  `Live.Wf` is the invariant of one lifetime.  `step_run` shows that every step of
  a living service keeps it and is a run of ledger steps.
-/

import VivadoServer.History.Machine
import VivadoServer.History.Retention
import VivadoServer.Lib.Ledger

namespace VivadoServer.History

open Std (ExtTreeMap)
open SequenceLedger (Ledger)

/-! ## The ledger of a lifetime -/

/-- The events of the batch in the writer's hands that no reader has seen. -/
def Pc.events : Pc → List Event
  | .collect events _ => events
  | .write _ batch | .sync _ batch | .insert _ batch | .trim _ _ _ batch => batch.map (·.1)
  | _ => []

/-- The range a failed append will report. -/
def rangeGap : Option (Nat × Nat) → List Gap
  | some (first, last) => [⟨first - 1, last, "disk_error"⟩]
  | none => []

/-- The dropped ranges in the writer's hands. -/
def Pc.parked : Pc → List Gap
  | .setLen c | .seek c | .report c .lost => rangeGap c.range
  | .merge _ held | .idleMerge _ held => held
  | .aborted lost => rangeGap lost
  | _ => []

/-- Every event that has a sequence and is not lost, but that no reader has seen. -/
def Live.flight (l : Live) : List Event := l.pc.events ++ l.queue.flatMap (·.events)

/-- Every dropped range that no reader has seen. -/
def Live.parked (l : Live) : List Gap := l.pending ++ l.pc.parked

def Live.ledger (l : Live) : Ledger Nat where
  head := l.reader.state.nextCursor
  reserved := l.producer
  shown := {s | s ∈ l.reader.events}
  covered := {s | Covered l.reader.state.gaps s}
  parked := {s | Covered l.parked s}
  flight := l.flight.map Event.seq

/-- What the writer relies on at the place it has reached. -/
def Pc.Ok (producer : Nat) (queue : List Message) : Pc → Prop
  | .write c batch | .sync c batch => c.range = batchRange (batch.map (·.1))
  | .setLen c | .seek c | .insert c _ | .trim c _ _ _ | .merge c _ | .prune c
  | .compact (.append c) | .persist (.append c) | .report c _ => Within producer (rangeGap c.range)
  | .idleMerge drained _ => drained = true → queue = []
  | _ => True

structure Live.Wf (l : Live) : Prop where
  sound : l.reader.Sound
  ordered : l.ledger.Ordered
  gaps : Within l.producer l.reader.state.gaps
  parked : Within l.producer l.parked
  queued : l.queuedBytes = (l.queue.map Message.bytes).sum
  nonempty : ∀ m ∈ l.queue, 0 < m.bytes
  startup : l.pc.started = false → l.queue = []
  pc : l.pc.Ok l.producer l.queue

variable {cd : Codec} {opts : Options} {l l' : Live}

/-- What every step of a lifetime does: it keeps the invariant, it is a run of
    the ledger, and it does not move `earliest_cursor` down. -/
structure Live.Advances (l l' : Live) : Prop where
  wf : l'.Wf
  run : SequenceLedger.Run l.ledger l'.ledger
  earliest : l.reader.state.earliestCursor ≤ l'.reader.state.earliestCursor

theorem Live.Advances.trans {l'' : Live} (h : l.Advances l') (h' : l'.Advances l'') :
    l.Advances l'' :=
  ⟨h'.wf, h.run.trans h'.run, h.earliest.trans h'.earliest⟩

/-- A drained queue is an empty one. -/
theorem Live.Wf.queue_eq_nil (h : l.Wf) (hbytes : l.queuedBytes = 0) : l.queue = [] := by
  cases hq : l.queue with
  | nil => rfl
  | cons m rest =>
      have hm := h.nonempty m (by simp [hq])
      have hsum := h.queued
      rw [hq, List.map_cons, List.sum_cons] at hsum
      omega

/-! ## Steps that move nothing -/

/-- Nothing the ledger speaks of has changed. -/
structure Live.SameAccount (l l' : Live) : Prop where
  reader : l'.reader = l.reader
  producer : l'.producer = l.producer
  flight : l'.flight = l.flight
  parked : l'.parked = l.parked

theorem Live.SameAccount.ledger (h : l.SameAccount l') : l'.ledger = l.ledger := by
  simp only [Live.ledger, h.reader, h.producer, h.flight, h.parked]

theorem Live.Wf.quiet (h : l.Wf) (hsame : l.SameAccount l') (hqueue : l'.queue = l.queue)
    (hbytes : l'.queuedBytes = l.queuedBytes) (hstart : l'.pc.started = false → l.queue = [])
    (hpc : l'.pc.Ok l'.producer l'.queue) : l.Advances l' := by
  refine ⟨⟨hsame.reader ▸ h.sound, hsame.ledger ▸ h.ordered, ?_, ?_, ?_, ?_, ?_, hpc⟩, ?_, ?_⟩
  · rw [hsame.reader, hsame.producer]
    exact h.gaps
  · rw [hsame.parked, hsame.producer]
    exact h.parked
  · rw [hbytes, hqueue]
    exact h.queued
  · rw [hqueue]
    exact h.nonempty
  · exact fun hs => hqueue ▸ hstart hs
  · rw [hsame.ledger]
  · rw [hsame.reader]

/-- A run of ledger steps that leaves the queue alone. -/
theorem Live.Wf.advance (h : l.Wf) (hrun : SequenceLedger.Run l.ledger l'.ledger)
    (hsound : l'.reader.Sound)
    (hearliest : l.reader.state.earliestCursor ≤ l'.reader.state.earliestCursor)
    (hgaps : Within l'.producer l'.reader.state.gaps) (hparked : Within l'.producer l'.parked) (hqueue : l'.queue = l.queue)
    (hbytes : l'.queuedBytes = l.queuedBytes) (hstart : l'.pc.started = false → l.queue = [])
    (hpc : l'.pc.Ok l'.producer l'.queue) : l.Advances l' := by
  refine ⟨⟨hsound, hrun.ordered h.ordered, hgaps, hparked, ?_, ?_, ?_, hpc⟩, hrun, hearliest⟩
  · rw [hbytes, hqueue]
    exact h.queued
  · rw [hqueue]
    exact h.nonempty
  · exact fun hs => hqueue ▸ hstart hs

/-- The writer takes the oldest message. -/
theorem Live.Wf.receive (h : l.Wf) {m : Message} {queue : List Message}
    (hqueue : l.queue = m :: queue) (hsame : l.SameAccount l') (hqueue' : l'.queue = queue)
    (hbytes : l'.queuedBytes = l.queuedBytes - m.bytes) (hstart : l'.pc.started = true)
    (hpc : l'.pc.Ok l'.producer l'.queue) : l.Advances l' := by
  refine ⟨⟨hsame.reader ▸ h.sound, hsame.ledger ▸ h.ordered, ?_, ?_, ?_, ?_, ?_, hpc⟩, ?_, ?_⟩
  · rw [hsame.reader, hsame.producer]
    exact h.gaps
  · rw [hsame.parked, hsame.producer]
    exact h.parked
  · rw [hbytes, hqueue', h.queued, hqueue, List.map_cons, List.sum_cons, Nat.add_sub_cancel_left]
  · intro m' hm'
    exact h.nonempty m' (hqueue ▸ List.mem_cons_of_mem _ (hqueue' ▸ hm'))
  · intro hs
    rw [hstart] at hs
    cases hs
  · rw [hsame.ledger]
  · rw [hsame.reader]

/-! ## Reserving sequences -/

@[simp] theorem numbered_seq (e : Event) (instanceId : Uuid) (seq : Nat) :
    (e.numbered instanceId seq).seq = seq := rfl

theorem stamp_spec (cd : Codec) (instanceId : Uuid) (next : Nat) (es : List Event) :
    (stamp cd instanceId next es).2.1 = next + (stamp cd instanceId next es).1.length ∧
      (stamp cd instanceId next es).1.map Event.seq
        = List.range' (next + 1) (stamp cd instanceId next es).1.length := by
  induction es generalizing next with
  | nil => simp [stamp]
  | cons e es ih =>
      rw [stamp]
      split
      · simp
      · obtain ⟨hlast, hseqs⟩ := ih (next + 1)
        refine ⟨?_, ?_⟩
        · rw [hlast, List.length_cons]
          omega
        · rw [List.map_cons, numbered_seq, hseqs, List.length_cons, List.range'_succ]

theorem stampStartup_spec (instanceId : Uuid) (next : Nat) (es : List Event) :
    (stampStartup instanceId next es).length = es.length ∧
      (stampStartup instanceId next es).map Event.seq = List.range' (next + 1) es.length := by
  induction es generalizing next with
  | nil => simp [stampStartup]
  | cons e es ih =>
      obtain ⟨hlen, hseqs⟩ := ih (next + 1)
      refine ⟨by simp [stampStartup, hlen], ?_⟩
      rw [stampStartup, List.map_cons, numbered_seq, hseqs, List.length_cons, List.range'_succ]

/-- The numbers `range' (n + 1) k` are those above `n` up to `n + k`. -/
theorem mem_range'_succ {n k x : Nat} : x ∈ List.range' (n + 1) k ↔ n < x ∧ x ≤ n + k := by
  rw [List.mem_range'_1]
  omega

/-- What `enqueue` did: the numbered events went into the queue, or their whole
    range into the pending list. -/
theorem enqueue_cases (cd : Codec) (events : List Event) (ack : Bool) (l : Live) :
    let stamped := (stamp cd l.reader.state.instanceId l.producer events).1
    let bytes := (stamped.map fun e => (cd.toVec e).length + 1).sum
    (enqueue cd events ack l).2 = stamped ∧
    ((stamp cd l.reader.state.instanceId l.producer events).2.2 = false ∧
        (enqueue cd events ack l).1 =
        { l with
          producer := l.producer + stamped.length
          queue := l.queue ++ [⟨stamped, bytes, ack⟩]
          queuedBytes := l.queuedBytes + bytes } ∨
      ∃ reason healthy, (enqueue cd events ack l).1 =
        { l with
          producer := l.producer + stamped.length
          pending := gap l.pending (l.producer + 1) (l.producer + stamped.length) reason
          healthy := healthy }) := by
  have hlast := (stamp_spec cd l.reader.state.instanceId l.producer events).1
  dsimp only
  unfold enqueue
  dsimp only
  rw [hlast]
  split
  · exact ⟨rfl, .inr ⟨_, _, rfl⟩⟩
  · rename_i hfits
    split
    · exact ⟨rfl, .inr ⟨_, _, rfl⟩⟩
    · exact ⟨rfl, .inl ⟨by simpa using hfits, rfl⟩⟩

/-- What a place of the writer asks for still holds when sequences are reserved. -/
theorem Pc.Ok.reserve {pc : Pc} {n m : Nat} {queue queue' : List Message} (h : pc.Ok n queue)
    (hlock : pc.locksProducer = false) (hle : n ≤ m) : pc.Ok m queue' := by
  unfold Pc.Ok at h ⊢
  split <;> simp_all only [Pc.locksProducer]
  all_goals first | exact h.mono hle | cases hlock

theorem enqueue_run (cd : Codec) (h : l.Wf) {events : List Event} (ack : Bool) (hne : events ≠ [])
    (hstart : l.pc.started = true) (hlock : l.pc.locksProducer = false) :
    l.Advances (enqueue cd events ack l).1 := by
  obtain ⟨-, hcases⟩ := enqueue_cases cd events ack l
  have hseqs := (stamp_spec cd l.reader.state.instanceId l.producer events).2
  have hpos : 0 < ((stamp cd l.reader.state.instanceId l.producer events).1.map
      fun e => (cd.toVec e).length + 1).sum := by
    cases events with
    | nil => exact absurd rfl hne
    | cons e es =>
        rw [stamp]
        split <;> simp only [List.map_cons, List.sum_cons] <;> omega
  generalize stamp cd l.reader.state.instanceId l.producer events = out at hcases hseqs hpos
  rcases hcases with ⟨-, hl'⟩ | ⟨reason, healthy, hl'⟩
  · rw [hl']
    have hrun : SequenceLedger.Step l.ledger
        { l.ledger with
          reserved := l.producer + out.1.length
          flight := l.ledger.flight ++ List.range' (l.producer + 1) out.1.length } :=
      .reserve (Nat.le_add_right _ _) List.pairwise_lt_range' fun x => mem_range'_succ
    have hflight : ∀ (q : Nat), Live.ledger { l with
          producer := l.producer + out.1.length
          queue := l.queue ++ [⟨out.1, (out.1.map fun e => (cd.toVec e).length + 1).sum, ack⟩]
          queuedBytes := q }
        = { l.ledger with
          reserved := l.producer + out.1.length
          flight := l.ledger.flight ++ List.range' (l.producer + 1) out.1.length } := by
      intro q
      simp [Live.ledger, Live.flight, Live.parked, hseqs]
    refine ⟨⟨h.sound, ?_, h.gaps.mono (Nat.le_add_right _ _), h.parked.mono (Nat.le_add_right _ _),
      ?_, ?_, fun hs => ?_, h.pc.reserve hlock (Nat.le_add_right _ _)⟩, ?_, ?_⟩
    · rw [hflight]
      exact hrun.ordered h.ordered
    · simp [h.queued]
    · intro m hm
      rcases List.mem_append.mp hm with hm | hm
      · exact h.nonempty m hm
      · rw [List.mem_singleton.mp hm]
        exact hpos
    · rw [hstart] at hs
      cases hs
    · rw [hflight]
      exact .single hrun
    · exact le_rfl
  · rw [hl']
    have hwithin : Within (l.producer + out.1.length)
        (gap l.pending (l.producer + 1) (l.producer + out.1.length) reason ++ l.pc.parked) := by
      obtain ⟨hpending, hheld⟩ := within_append.mp h.parked
      exact within_append.mpr ⟨within_gap (hpending.mono (Nat.le_add_right _ _)) fun _ => le_rfl,
        hheld.mono (Nat.le_add_right _ _)⟩
    have hrun : SequenceLedger.Step l.ledger
        { l.ledger with
          reserved := l.producer + out.1.length
          parked := {s | Covered (gap l.pending (l.producer + 1) (l.producer + out.1.length) reason
            ++ l.pc.parked) s} } := by
      refine .drop (Nat.le_add_right _ _) (fun s hs => ?_) (fun s hlt hle => ?_)
        fun s hs => hwithin.covered_le hs
      · rcases covered_append.mp hs with hs | hs
        · exact covered_append.mpr (.inl (covered_gap_of_covered hs))
        · exact covered_append.mpr (.inr hs)
      · exact covered_append.mpr (.inl (covered_gap_self hlt hle (Nat.zero_lt_of_lt hlt)))
    refine ⟨⟨h.sound, hrun.ordered h.ordered, h.gaps.mono (Nat.le_add_right _ _), hwithin, h.queued,
      h.nonempty, h.startup, h.pc.reserve hlock (Nat.le_add_right _ _)⟩, .single hrun, le_rfl⟩

/-! ## Losing a batch -/

/-- The range of a sorted batch covers its events. -/
theorem covered_batchRange {events : List Event} (hsorted : (events.map Event.seq).Pairwise (· < ·))
    {e : Event} (he : e ∈ events) (hpos : 0 < e.seq) :
    Covered (rangeGap (batchRange events)) e.seq := by
  cases hfirst : events.head? with
  | none => simp_all
  | some a =>
      cases hlast : events.getLast? with
      | none => simp_all
      | some b =>
          have hle : a.seq ≤ e.seq := by
            obtain ⟨rest, rfl⟩ := List.head?_eq_some_iff.mp hfirst
            rcases List.mem_cons.mp he with rfl | he
            · exact le_rfl
            · rw [List.map_cons, List.pairwise_cons] at hsorted
              exact (hsorted.1 _ (List.mem_map_of_mem he)).le
          have hge : e.seq ≤ b.seq := by
            obtain ⟨init, rfl⟩ := List.getLast?_eq_some_iff.mp hlast
            rcases List.mem_append.mp he with he | he
            · rw [List.map_append, List.pairwise_append] at hsorted
              exact (hsorted.2.2 _ (List.mem_map_of_mem he) _ (by simp)).le
            · rw [List.mem_singleton.mp he]
          simp only [batchRange, hfirst, hlast, rangeGap]
          exact covered_cons.mpr (.inl ⟨by dsimp only; omega, hge⟩)

/-- The range of a batch reaches no further than its events. -/
theorem within_batchRange {events : List Event} {n : Nat} (h : ∀ e ∈ events, e.seq ≤ n) :
    Within n (rangeGap (batchRange events)) := by
  unfold batchRange
  split
  · rename_i a b _ hlast
    exact within_cons.mpr ⟨h b (List.mem_of_getLast? hlast), within_nil⟩
  · exact within_nil

theorem Live.Wf.flight_bound (h : l.Wf) {e : Event} (he : e ∈ l.flight) :
    l.reader.state.nextCursor < e.seq ∧ e.seq ≤ l.producer :=
  h.ordered.flight_bound _ (List.mem_map_of_mem he)

theorem Live.Wf.flight_sorted (h : l.Wf) : (l.flight.map Event.seq).Pairwise (· < ·) :=
  h.ordered.sorted

/-- The batch in the writer's hands is sorted. -/
theorem Live.Wf.events_sorted (h : l.Wf) : (l.pc.events.map Event.seq).Pairwise (· < ·) := by
  have hsorted := h.flight_sorted
  rw [Live.flight, List.map_append] at hsorted
  exact (List.pairwise_append.mp hsorted).1

/-- The whole batch is lost and its range parked. -/
theorem Live.Wf.lose (h : l.Wf) (hreader : l'.reader = l.reader) (hproducer : l'.producer = l.producer)
    (hpending : l'.pending = l.pending) (hqueue : l'.queue = l.queue)
    (hbytes : l'.queuedBytes = l.queuedBytes) (hheld : l.pc.parked = []) (hnone : l'.pc.events = [])
    (hparked : l'.pc.parked = rangeGap (batchRange l.pc.events))
    (hstart : l'.pc.started = false → l.queue = [])
    (hpc : Within l.producer (rangeGap (batchRange l.pc.events)) → l'.pc.Ok l'.producer l'.queue) :
    l.Advances l' := by
  have hbound : Within l.producer (rangeGap (batchRange l.pc.events)) :=
    within_batchRange fun e he => (h.flight_bound (List.mem_append_left _ he)).2
  have hparked' : l'.parked = l.pending ++ rangeGap (batchRange l.pc.events) := by
    rw [Live.parked, hpending, hparked]
  have hwithin : Within l.producer l'.parked := by
    rw [hparked']
    exact within_append.mpr ⟨(within_append.mp h.parked).1, hbound⟩
  have hstep : SequenceLedger.Step l.ledger
      { l.ledger with
        flight := (l.queue.flatMap (·.events)).map Event.seq
        parked := {s | Covered l'.parked s} } := by
    refine .lose (List.map_append ..) (fun s hs => ?_) (fun s hs => ?_)
      fun s hs => hwithin.covered_le hs
    · change Covered (l.pending ++ l.pc.parked) s at hs
      rw [hheld, List.append_nil] at hs
      exact hparked' ▸ covered_append.mpr (.inl hs)
    · obtain ⟨e, he, rfl⟩ := List.mem_map.mp hs
      have hpos := (h.flight_bound (List.mem_append_left _ he)).1
      exact hparked' ▸ covered_append.mpr
        (.inr (covered_batchRange h.events_sorted he (Nat.zero_lt_of_lt hpos)))
  have hledger : l'.ledger = { l.ledger with
      flight := (l.queue.flatMap (·.events)).map Event.seq
      parked := {s | Covered l'.parked s} } := by
    simp only [Live.ledger, hreader, hproducer, Live.flight, hnone, hqueue, List.nil_append]
  refine h.advance (hledger ▸ .single hstep) (hreader ▸ h.sound) (hreader ▸ le_rfl) ?_ ?_ hqueue hbytes hstart
    (hpc hbound)
  · rw [hreader, hproducer]
    exact h.gaps
  · rw [hproducer]
    exact hwithin

/-- Ranges become parked beside the ones that are. -/
theorem Live.Wf.park (h : l.Wf) (hreader : l'.reader = l.reader) (hproducer : l'.producer = l.producer)
    (hflight : l'.flight = l.flight) (hqueue : l'.queue = l.queue)
    (hbytes : l'.queuedBytes = l.queuedBytes)
    (hold : ∀ s, Covered l.parked s → Covered l'.parked s) (hparked : Within l.producer l'.parked)
    (hstart : l'.pc.started = false → l.queue = []) (hpc : l'.pc.Ok l'.producer l'.queue) :
    l.Advances l' := by
  have hstep : SequenceLedger.Step l.ledger
      { l.ledger with
        flight := l.ledger.flight
        parked := {s | Covered l'.parked s} } :=
    .lose (List.nil_append _).symm hold (fun s hs => by cases hs) fun s hs => hparked.covered_le hs
  have hledger : l'.ledger = { l.ledger with parked := {s | Covered l'.parked s} } := by
    simp only [Live.ledger, hreader, hproducer, hflight]
  refine h.advance (hledger ▸ .single hstep) (hreader ▸ h.sound) (hreader ▸ le_rfl) ?_ ?_ hqueue hbytes hstart hpc
  · rw [hreader, hproducer]
    exact h.gaps
  · rw [hproducer]
    exact hparked

/-! ## Publishing -/

/-- A lifecycle event opens or closes a session or a workflow, and no more. -/
theorem applyLifecycle_eq (state : State) (e : Event) : ∃ sessions workflows,
    applyLifecycle state e
      = { state with openSessions := sessions, openWorkflows := workflows } := by
  unfold applyLifecycle
  split
  case h_7 => exact ⟨_, _, rfl⟩
  all_goals split <;> exact ⟨_, _, rfl⟩

theorem insertEvent_state (e : Event) (size : Nat) (r : Reader) : ∃ sessions workflows,
    (insertEvent e size r).state
      = { r.state with
          nextCursor := max r.state.nextCursor e.seq
          openSessions := sessions
          openWorkflows := workflows } := by
  obtain ⟨sessions, workflows, h⟩ :=
    applyLifecycle_eq { r.state with nextCursor := max r.state.nextCursor e.seq } e
  exact ⟨sessions, workflows, h⟩

@[simp] theorem insertEvent_nextCursor (e : Event) (size : Nat) (r : Reader) :
    (insertEvent e size r).state.nextCursor = max r.state.nextCursor e.seq := by
  obtain ⟨_, _, h⟩ := insertEvent_state e size r
  rw [h]

@[simp] theorem insertEvent_earliestCursor (e : Event) (size : Nat) (r : Reader) :
    (insertEvent e size r).state.earliestCursor = r.state.earliestCursor := by
  obtain ⟨_, _, h⟩ := insertEvent_state e size r
  rw [h]

@[simp] theorem insertEvent_gaps (e : Event) (size : Nat) (r : Reader) :
    (insertEvent e size r).state.gaps = r.state.gaps := by
  obtain ⟨_, _, h⟩ := insertEvent_state e size r
  rw [h]

@[simp] theorem insertEvent_events (e : Event) (size : Nat) (r : Reader) :
    (insertEvent e size r).events = r.events.insert e.seq (e, size) := rfl

theorem insertEvent_sound {r : Reader} (hr : r.Sound) {e : Event} (size : Nat)
    (hseq : r.state.nextCursor < e.seq) : (insertEvent e size r).Sound := by
  refine ⟨?_, fun {k e' n} hk => ?_, fun {k v} hk => ?_, fun {k v} hk => ?_⟩
  · rw [insertEvent_nextCursor, insertEvent_earliestCursor]
    exact hr.earliest_le.trans (le_max_left _ _)
  all_goals
    rw [insertEvent_events] at hk
    by_cases heq : e.seq = k
  · subst heq
    rw [OrderedMap.getElem?_insert_self', Option.some.injEq, Prod.mk.injEq] at hk
    rw [hk.1]
  · rw [OrderedMap.getElem?_insert_of_ne heq] at hk
    exact hr.key hk
  · rw [insertEvent_earliestCursor, ← heq]
    exact hr.earliest_le.trans_lt hseq
  · rw [OrderedMap.getElem?_insert_of_ne heq] at hk
    rw [insertEvent_earliestCursor]
    exact hr.above hk
  · rw [insertEvent_nextCursor, ← heq]
    exact le_max_right _ _
  · rw [OrderedMap.getElem?_insert_of_ne heq] at hk
    rw [insertEvent_nextCursor]
    exact (hr.below hk).trans (le_max_left _ _)

/-- The first event in flight reaches the reader. -/
theorem Live.Wf.publish (h : l.Wf) {e : Event} {size : Nat} {rest : List Event}
    (hevents : l.pc.events = e :: rest) (hreader : l'.reader = insertEvent e size l.reader)
    (hproducer : l'.producer = l.producer) (hparked : l'.parked = l.parked)
    (hevents' : l'.pc.events = rest) (hqueue : l'.queue = l.queue)
    (hbytes : l'.queuedBytes = l.queuedBytes) (hstart : l'.pc.started = false → l.queue = [])
    (hpc : l'.pc.Ok l'.producer l'.queue) : l.Advances l' := by
  have hflight : l.flight = e :: (rest ++ l.queue.flatMap (·.events)) := by
    rw [Live.flight, hevents, List.cons_append]
  have hstep : SequenceLedger.Step l.ledger
      { l.ledger with
        flight := (rest ++ l.queue.flatMap (·.events)).map Event.seq
        shown := insert e.seq l.ledger.shown
        head := max l.ledger.head e.seq } :=
    .publish (show l.flight.map Event.seq = _ by rw [hflight, List.map_cons])
  have hledger : l'.ledger = { l.ledger with
      flight := (rest ++ l.queue.flatMap (·.events)).map Event.seq
      shown := insert e.seq l.ledger.shown
      head := max l.ledger.head e.seq } := by
    ext s
    · simp only [Live.ledger, hreader, insertEvent_nextCursor]
    · exact hproducer
    · simp only [Live.ledger, hreader, insertEvent_events, OrderedMap.mem_insert]
      exact Iff.rfl
    · simp only [Live.ledger, hreader, insertEvent_gaps]
    · simp only [Live.ledger, hparked]
    · simp only [Live.ledger, Live.flight, hevents', hqueue]
  have hmem : e ∈ l.flight := by
    rw [hflight]
    exact List.mem_cons_self
  refine h.advance (hledger ▸ .single hstep)
    (hreader ▸ insertEvent_sound h.sound size (h.flight_bound hmem).1) ?_ ?_ ?_ hqueue hbytes hstart hpc
  · rw [hreader, insertEvent_earliestCursor]
  · rw [hreader, hproducer]
    exact (insertEvent_gaps e size l.reader).symm ▸ h.gaps
  · rw [hproducer, hparked]
    exact h.parked

/-- Events leave the reader, described by gaps. -/
theorem Live.Wf.retire (h : l.Wf) (hretires : l.reader.Retires l'.reader)
    (hsound : l'.reader.Sound)
    (hearliest : l.reader.state.earliestCursor ≤ l'.reader.state.earliestCursor)
    (hproducer : l'.producer = l.producer) (hflight : l'.flight = l.flight) (hparked : l'.parked = l.parked) (hqueue : l'.queue = l.queue)
    (hbytes : l'.queuedBytes = l.queuedBytes) (hstart : l'.pc.started = false → l.queue = [])
    (hpc : l'.pc.Ok l'.producer l'.queue) : l.Advances l' := by
  have hgaps : Within l.producer l'.reader.state.gaps :=
    hretires.within h.gaps fun hk => (h.sound.below hk).trans h.ordered.head_le
  have hstep : SequenceLedger.Step l.ledger
      { l.ledger with
        shown := {s | s ∈ l'.reader.events}
        covered := {s | Covered l'.reader.state.gaps s} } :=
    .retire (fun s hs => hretires.mem hs) (fun s hs => hretires.gaps hs)
      (fun s hs hs' => (hretires.kept hs).resolve_left hs') fun s hs => hgaps.covered_le hs
  have hledger : l'.ledger = { l.ledger with
      shown := {s | s ∈ l'.reader.events}
      covered := {s | Covered l'.reader.state.gaps s} } := by
    simp only [Live.ledger, hproducer, hflight, hparked, hretires.nextCursor]
  refine h.advance (hledger ▸ .single hstep) hsound hearliest ?_ ?_ hqueue hbytes hstart hpc
  · rw [hproducer]
    exact hgaps
  · rw [hproducer, hparked]
    exact h.parked

/-! ## Declaring what was dropped -/

theorem idleReader_gaps (drained : Bool) (held : List Gap) (r : Reader) :
    (idleReader drained held r).state.gaps = mergeGaps r.state.gaps held := by
  unfold idleReader
  split <;> rfl

theorem idleReader_nextCursor (drained : Bool) (held : List Gap) (r : Reader) :
    (idleReader drained held r).state.nextCursor
      = if drained then max r.state.nextCursor (gapHead (mergeGaps r.state.gaps held))
        else r.state.nextCursor := by
  unfold idleReader
  split <;> rfl

theorem idleReader_earliestCursor (drained : Bool) (held : List Gap) (r : Reader) :
    (idleReader drained held r).state.earliestCursor = r.state.earliestCursor := by
  unfold idleReader
  split <;> rfl

theorem idleReader_events (drained : Bool) (held : List Gap) (r : Reader) :
    (idleReader drained held r).events = r.events := by
  unfold idleReader
  split <;> rfl

theorem idleReader_sound {r : Reader} (hr : r.Sound) (drained : Bool) (held : List Gap) :
    (idleReader drained held r).Sound := by
  have hle : r.state.nextCursor ≤ (idleReader drained held r).state.nextCursor := by
    rw [idleReader_nextCursor]
    split
    · exact le_max_left _ _
    · exact le_rfl
  have hearliest := idleReader_earliestCursor drained held r
  have hevents := idleReader_events drained held r
  refine ⟨?_, fun hk => hr.key (hevents ▸ hk), fun hk => ?_, fun hk => ?_⟩
  · rw [hearliest]
    exact hr.earliest_le.trans hle
  · rw [hearliest]
    exact hr.above (hevents ▸ hk)
  · exact (hr.below (hevents ▸ hk)).trans hle

/-- The ranges in the writer's hands reach the reader's gap list; with nothing
    in flight the head may cross them.  `append` merges without crossing. -/
theorem Live.Wf.absorb (h : l.Wf) {drained : Bool} {held : List Gap} (hheld : l.pc.parked = held)
    (hnone : l.pc.events = []) (hdrained : drained = true → l.queue = [])
    (hreader : l'.reader = idleReader drained held l.reader) (hproducer : l'.producer = l.producer)
    (hpending : l'.pending = l.pending) (hnone' : l'.pc.events = []) (hparked : l'.pc.parked = [])
    (hqueue : l'.queue = l.queue) (hbytes : l'.queuedBytes = l.queuedBytes)
    (hstart : l'.pc.started = false → l.queue = []) (hpc : l'.pc.Ok l'.producer l'.queue) :
    l.Advances l' := by
  have hbound := within_append.mp h.parked
  rw [hheld] at hbound
  have hgaps : Within l.producer (mergeGaps l.reader.state.gaps held) :=
    within_mergeGaps h.gaps hbound.2
  have hstep : SequenceLedger.Step l.ledger
      { l.ledger with
        covered := {s | Covered (mergeGaps l.reader.state.gaps held) s}
        parked := {s | Covered l.pending s} } := by
    refine .declare (fun s hs => ?_) (fun s hs => hgaps.covered_le hs)
      fun s hs => hbound.1.covered_le hs
    rcases hs with hs | hs
    · exact .inl (covered_mergeGaps_of_covered hs)
    · change Covered (l.pending ++ l.pc.parked) s at hs
      rw [hheld] at hs
      rcases covered_append.mp hs with hs | hs
      · exact .inr hs
      · exact .inl (covered_mergeGaps_of_held hs)
  have hcross : SequenceLedger.Run
      { l.ledger with
        covered := {s | Covered (mergeGaps l.reader.state.gaps held) s}
        parked := {s | Covered l.pending s} } l'.ledger := by
    have hledger : l'.ledger = { l.ledger with
        covered := {s | Covered (mergeGaps l.reader.state.gaps held) s}
        parked := {s | Covered l.pending s}
        head := (idleReader drained held l.reader).state.nextCursor } := by
      simp only [Live.ledger, Live.flight, Live.parked, hreader, hproducer, hpending, hnone, hnone',
        hparked, hqueue, idleReader_gaps, idleReader_events, List.append_nil]
    rw [hledger]
    cases hd : drained with
    | false => exact .refl
    | true =>
        refine .single (.cross ?_ ?_ ?_)
        · simp [Live.ledger, Live.flight, hnone, hdrained hd]
        · exact (le_max_left _ _).trans (idleReader_nextCursor true held l.reader).ge
        · rw [idleReader_nextCursor]
          exact max_le h.ordered.head_le (gapHead_le hgaps)
  refine h.advance (.head hstep hcross) (hreader ▸ idleReader_sound h.sound drained held)
    (hreader ▸ (idleReader_earliestCursor drained held l.reader).ge) ?_ ?_ hqueue hbytes hstart hpc
  · rw [hreader, hproducer, idleReader_gaps]
    exact hgaps
  · rw [hproducer, Live.parked, hpending, hparked, List.append_nil]
    exact hbound.1

/-! ## The writer thread -/

/-- A step to another place with the same events and ranges in hand. -/
theorem Live.Wf.goto (h : l.Wf) (hreader : l'.reader = l.reader)
    (hproducer : l'.producer = l.producer) (hpending : l'.pending = l.pending)
    (hqueue : l'.queue = l.queue) (hbytes : l'.queuedBytes = l.queuedBytes)
    (hevents : l'.pc.events = l.pc.events) (hparked : l'.pc.parked = l.pc.parked)
    (hstart : l'.pc.started = false → l.queue = []) (hpc : l'.pc.Ok l'.producer l'.queue) :
    l.Advances l' := by
  refine h.quiet ⟨hreader, hproducer, ?_, ?_⟩ hqueue hbytes hstart hpc
  · rw [Live.flight, Live.flight, hevents, hqueue]
  · rw [Live.parked, Live.parked, hpending, hparked]

/-- `append` begins: the batch stays in hand, or is refused as a whole. -/
theorem beginAppend_run (cd : Codec) (h : l.Wf) {c : Caller} (hrange : c.range = batchRange l.pc.events)
    (hheld : l.pc.parked = []) (hstart : c.startup = true → l.queue = []) :
    l.Advances { l with pc := beginAppend cd c l.pc.events } := by
  have hqueue : (beginAppend cd c l.pc.events).started = false → l.queue = [] := by
    intro hs
    unfold beginAppend at hs
    dsimp only at hs
    split at hs <;> exact hstart (by simpa [Pc.started] using hs)
  have hevents : (l.pc.events.map fun e => (e, (cd.line e).length)).map (·.1) = l.pc.events := by
    simp [Function.comp_def]
  unfold beginAppend at hqueue ⊢
  dsimp only at hqueue ⊢
  split
  · rename_i hlarge
    rw [if_pos hlarge] at hqueue
    refine h.lose rfl rfl rfl rfl rfl hheld rfl ?_ hqueue fun hw => ?_
    · rw [← hrange]
      rfl
    · rw [← hrange] at hw
      exact hw
  · rename_i hfits
    rw [if_neg hfits] at hqueue
    refine h.goto rfl rfl rfl rfl rfl hevents hheld.symm hqueue ?_
    change c.range = batchRange _
    rw [hevents, hrange]

/-- What a caller's `report` leaves behind: the failed range joins the pending list. -/
theorem finishAppend_run (h : l.Wf) {c : Caller} {result : AppendResult}
    (hpc : l.pc = .report c result) :
    l.Advances (finishAppend c result l) := by
  have hrange : Within l.producer (rangeGap c.range) := by
    have hok := h.pc
    simpa only [Pc.Ok, hpc] using hok
  have hnone : l.pc.events = [] := by rw [hpc]; rfl
  have hparked : ∀ s, Covered l.parked s →
      Covered l.pending s ∨ result = .lost ∧ Covered (rangeGap c.range) s := by
    intro s hs
    rcases covered_append.mp hs with hs | hs
    · exact .inl hs
    · rw [hpc] at hs
      cases result with
      | lost => exact .inr ⟨rfl, hs⟩
      | ok => exact absurd hs covered_nil
      | late => exact absurd hs covered_nil
  have hpending : Within l.producer l.pending := (within_append.mp h.parked).1
  unfold finishAppend
  split
  · rename_i hstartup
    have hempty : l.queue = [] := h.startup (by simp [hpc, Pc.started, hstartup])
    refine h.park rfl rfl ?_ rfl rfl ?_ ?_ (fun _ => hempty) ?_
    · simp only [Live.flight, hnone]
      split <;> rfl
    · intro s hs
      rcases hparked s hs with hs | ⟨rfl, hs⟩
      · exact covered_append.mpr (.inl hs)
      · exact covered_append.mpr (.inr hs)
    · split
      · exact within_append.mpr ⟨hpending, within_nil⟩
      · exact within_append.mpr ⟨hpending, hrange⟩
    · split <;> trivial
  · have hlost : ∀ s, Covered (rangeGap c.range) s → ∃ a b, c.range = some (a, b) ∧ a ≤ s ∧ s ≤ b
        ∧ 0 < s := by
      intro s hs
      cases hc : c.range with
      | none => rw [hc] at hs; exact absurd hs covered_nil
      | some r =>
          obtain ⟨a, b⟩ := r
          rw [hc] at hs
          rcases covered_cons.mp hs with hs | hs
          · have hlt : a - 1 < s := hs.1
            exact ⟨a, b, rfl, by omega, hs.2, by omega⟩
          · exact absurd hs covered_nil
    refine h.park rfl rfl ?_ rfl rfl (fun s hs => covered_append.mpr (.inl ?_)) ?_
      (fun hs => by cases hs) trivial
    · simp only [Live.flight, hnone]
      rfl
    · rcases hparked s hs with hs | ⟨rfl, hs⟩
      · split
        · exact hs
        · split
          · exact covered_gap_of_covered hs
          · exact hs
      · obtain ⟨a, b, hc, ha, hb, hpos⟩ := hlost s hs
        rw [if_neg (by decide), hc]
        exact covered_gap_self ha hb hpos
    · refine within_append.mpr ⟨?_, within_nil⟩
      split
      · exact hpending
      · split
        · rename_i a b hc
          rw [hc] at hrange
          exact within_gap hpending fun _ => (within_cons.mp hrange).1
        · exact hpending

theorem receiveStep_run (h : l.Wf) {choice : Choice} {s t : Sys}
    (hstep : receiveStep cd choice s l = some t) :
    ∃ l', t.live = some l' ∧ l.Advances l' := by
  unfold receiveStep at hstep
  split at hstep
  · rename_i hpc
    split at hstep
    · cases hstep
    · rename_i m queue hqueue
      cases hstep
      refine ⟨_, rfl, h.receive hqueue ⟨rfl, rfl, ?_, ?_⟩ rfl rfl rfl trivial⟩
      · simp [Live.flight, Pc.events, hpc, hqueue]
      · simp [Live.parked, Pc.parked, hpc]
  · rename_i hpc
    split at hstep
    · cases hstep
      exact ⟨_, rfl, h.goto rfl rfl rfl rfl rfl (by simp [Pc.events, hpc])
        (by simp [Pc.parked, hpc]) (by simp [Pc.started]) trivial⟩
    · cases hstep
  · rename_i events acks hpc
    have hevents : l.pc.events = events := by rw [hpc]; rfl
    have hbegin := beginAppend_run cd h (c := ⟨false, batchRange events, acks⟩)
      (by rw [hevents]) (by rw [hpc]; rfl) (fun hs => by cases hs)
    rw [hevents] at hbegin
    split at hstep
    · rename_i m queue hqueue
      split at hstep
      · cases hstep
        refine ⟨_, rfl, h.receive hqueue ⟨rfl, rfl, ?_, ?_⟩ rfl rfl rfl trivial⟩
        · simp [Live.flight, Pc.events, hpc, hqueue]
        · simp [Live.parked, Pc.parked, hpc]
      · cases hstep
        exact ⟨_, rfl, hbegin⟩
    · cases hstep
      exact ⟨_, rfl, hbegin⟩
  · cases hstep

/-- The range a batch will report is its own. -/
theorem Live.Wf.range_within (h : l.Wf) {c : Caller} (hrange : c.range = batchRange l.pc.events) :
    Within l.producer (rangeGap c.range) := by
  rw [hrange]
  exact within_batchRange fun e he => (h.flight_bound (List.mem_append_left _ he)).2

theorem writeStep_run (h : l.Wf) {choice : Choice} {s t : Sys}
    (hstep : writeStep cd choice s l = some t) :
    ∃ l', t.live = some l' ∧ l.Advances l' := by
  have hok := h.pc
  have hs := h.startup
  unfold writeStep at hstep
  dsimp only at hstep
  split at hstep
  case h_9 => cases hstep
  all_goals
    rename_i hpc
    cases hstep
    simp only [Pc.Ok, hpc] at hok
    simp only [Pc.started, hpc] at hs
    refine ⟨_, rfl, ?_⟩
  · exact h.goto rfl rfl rfl rfl rfl (by simp [Pc.events, hpc]) (by simp [Pc.parked, hpc]) hs hok
  · have hrange := hok.trans (congrArg batchRange (by rw [hpc]; rfl : _ = l.pc.events))
    exact h.lose rfl rfl rfl rfl rfl (by simp [Pc.parked, hpc]) rfl
      (congrArg rangeGap hrange) hs fun _ => h.range_within hrange
  · have hrange := hok.trans (congrArg batchRange (by rw [hpc]; rfl : _ = l.pc.events))
    exact h.goto rfl rfl rfl rfl rfl (by simp [Pc.events, hpc]) (by simp [Pc.parked, hpc]) hs
      (h.range_within hrange)
  · have hrange := hok.trans (congrArg batchRange (by rw [hpc]; rfl : _ = l.pc.events))
    exact h.lose rfl rfl rfl rfl rfl (by simp [Pc.parked, hpc]) rfl
      (congrArg rangeGap hrange) hs fun _ => h.range_within hrange
  all_goals
    exact h.goto rfl rfl rfl rfl rfl (by simp [Pc.events, hpc]) (by simp [Pc.parked, hpc]) hs hok

theorem publishStep_run (h : l.Wf) {choice : Choice} {s t : Sys}
    (hstep : publishStep opts choice s l = some t) :
    ∃ l', t.live = some l' ∧ l.Advances l' := by
  have hok := h.pc
  have hs := h.startup
  unfold publishStep at hstep
  dsimp only at hstep
  split at hstep
  · rename_i c event size rest hpc
    cases hstep
    simp only [Pc.Ok, hpc] at hok
    simp only [Pc.started, hpc] at hs
    split <;> refine ⟨_, rfl, h.publish (by rw [hpc]; rfl) rfl rfl ?_ rfl rfl rfl hs hok⟩
    all_goals simp [Live.parked, Pc.parked, hpc]
  · rename_i c event id rest hpc
    simp only [Pc.Ok, hpc] at hok
    simp only [Pc.started, hpc] at hs
    split at hstep
    · rename_i tails reader htrim
      cases hstep
      have hretires := trimTail_retires h.sound.positive htrim
      refine ⟨_, rfl, h.retire hretires ?_ (trimTail_earliestCursor htrim).ge rfl rfl rfl rfl rfl
        (by simpa only [Pc.started, hpc] using hs) (by simpa only [Pc.Ok, hpc] using hok)⟩
      exact hretires.sound h.sound (trimTail_earliestCursor htrim).le
    · cases hstep
      exact ⟨_, rfl, h.goto rfl rfl rfl rfl rfl (by simp [Pc.events, hpc])
        (by simp [Pc.parked, hpc]) hs hok⟩
  · rename_i c hpc
    cases hstep
    simp only [Pc.Ok, hpc] at hok
    simp only [Pc.started, hpc] at hs
    refine ⟨_, rfl, h.quiet ⟨rfl, rfl, ?_, ?_⟩ rfl rfl hs hok⟩
    · simp [Live.flight, Pc.events, hpc]
    · simp [Live.parked, Pc.parked, hpc]
  · rename_i c held hpc
    cases hstep
    simp only [Pc.Ok, hpc] at hok
    simp only [Pc.started, hpc] at hs
    exact ⟨_, rfl, h.absorb (by rw [hpc]; rfl) (by rw [hpc]; rfl)
      (fun hd : false = true => by cases hd) rfl rfl rfl rfl rfl rfl rfl hs hok⟩
  · rename_i c now hpc
    cases hstep
    simp only [Pc.Ok, hpc] at hok
    simp only [Pc.started, hpc] at hs
    have hretires := prune_retires opts now l.tails h.sound.positive
    have hsound : (prune opts now l.tails l.reader).2.Sound := prune_sound h.sound.filed
    have hearliest : _ ≤ (prune opts now l.tails l.reader).2.state.earliestCursor :=
      le_prune_earliestCursor h.sound.positive h.sound.earliest_le h.sound.above
    refine ⟨_, rfl, h.retire hretires hsound hearliest rfl ?_ ?_ rfl rfl ?_ ?_⟩
    · simp only [Live.flight, hpc]
      split <;> rfl
    · simp only [Live.parked, hpc]
      split <;> rfl
    · split <;> exact hs
    · change Pc.Ok _ _ (if _ then _ else _)
      split <;> exact hok
  · rename_i c result hpc
    cases hstep
    exact ⟨_, rfl, finishAppend_run h hpc⟩
  · cases hstep

theorem afterCompact_cases (site : Site) (ok : Bool) :
    (afterCompact site ok).events = [] ∧ (afterCompact site ok).parked = [] := by
  unfold afterCompact
  split <;> exact ⟨rfl, rfl⟩

/-- The two saving calls have nothing in hand, and neither has what follows them. -/
theorem Live.Wf.saved (h : l.Wf) (hreader : l'.reader = l.reader)
    (hproducer : l'.producer = l.producer) (hpending : l'.pending = l.pending)
    (hqueue : l'.queue = l.queue) (hbytes : l'.queuedBytes = l.queuedBytes)
    (hnone : l.pc.events = []) (hheld : l.pc.parked = []) (hnone' : l'.pc.events = [])
    (hheld' : l'.pc.parked = []) (hstart : l'.pc.started = false → l.queue = []) (hpc : l'.pc.Ok l'.producer l'.queue) :
    l.Advances l' :=
  h.goto hreader hproducer hpending hqueue hbytes (hnone'.trans hnone.symm)
    (hheld'.trans hheld.symm) hstart hpc

theorem afterCompact_run (h : l.Wf) {site : Site} (hpc : l.pc = .compact site) (ok : Bool)
    {physical pos : Nat} :
    l.Advances { l with physical := physical, pos := pos, pc := afterCompact site ok } := by
  have hok := h.pc
  have hs := h.startup
  simp only [Pc.Ok, hpc] at hok
  simp only [Pc.started, hpc] at hs
  refine h.saved rfl rfl rfl rfl rfl (by rw [hpc]; rfl) (by rw [hpc]; rfl)
    (afterCompact_cases site ok).1 (afterCompact_cases site ok).2 ?_ ?_
  · cases site <;> cases ok <;> exact hs
  · cases site <;> cases ok <;> exact hok

theorem afterPersist_run (h : l.Wf) {site : Site} (hpc : l.pc = .persist site) (ok : Bool) :
    l.Advances (afterPersist site ok l) := by
  have hok := h.pc
  have hs := h.startup
  simp only [Pc.Ok, hpc] at hok
  simp only [Pc.started, hpc] at hs
  have hnone : l.pc.events = [] := by rw [hpc]; rfl
  have hheld : l.pc.parked = [] := by rw [hpc]; rfl
  cases site <;> cases ok <;>
    exact h.saved rfl rfl rfl rfl rfl hnone hheld rfl rfl hs hok

/-- Start-up numbers its events and begins to append them. -/
theorem startAppend_run (h : l.Wf) (hpc : l.pc = .persist .init) (now : Int) :
    l.Advances (startAppend cd now l).1 := by
  have hempty : l.queue = [] := h.startup (by rw [hpc]; rfl)
  unfold startAppend
  dsimp only
  obtain ⟨hlen, hseqs⟩ := stampStartup_spec l.reader.state.instanceId l.producer
    (startupEvents now l.reader.state)
  rw [← hlen] at hseqs
  generalize stampStartup l.reader.state.instanceId l.producer
    (startupEvents now l.reader.state) = events at hseqs
  -- The numbered events are in the writer's hands before `append` looks at them.
  have hmid : l.Advances { l with producer := l.producer + events.length, pc := .collect events [] } := by
    have hstep : SequenceLedger.Step l.ledger
        { l.ledger with
          reserved := l.producer + events.length
          flight := l.ledger.flight ++ List.range' (l.producer + 1) events.length } :=
      .reserve (Nat.le_add_right _ _) List.pairwise_lt_range' fun x => mem_range'_succ
    have hledger : Live.ledger
        { l with producer := l.producer + events.length, pc := .collect events [] }
        = { l.ledger with
          reserved := l.producer + events.length
          flight := l.ledger.flight ++ List.range' (l.producer + 1) events.length } := by
      simp [Live.ledger, Live.flight, Live.parked, Pc.events, Pc.parked, hpc, hempty, hseqs]
    refine h.advance (hledger ▸ .single hstep) h.sound le_rfl
      (h.gaps.mono (Nat.le_add_right _ _)) ?_ rfl rfl (fun _ => hempty) trivial
    exact within_append.mpr
      ⟨(within_append.mp h.parked).1.mono (Nat.le_add_right _ _), within_nil⟩
  exact hmid.trans (beginAppend_run cd hmid.wf (c := ⟨true, batchRange events, []⟩) rfl rfl
    fun _ => hempty)

theorem saveStep_run (h : l.Wf) {choice : Choice} {s t : Sys}
    (hstep : saveStep cd choice s l = some t) :
    ∃ l', t.live = some l' ∧ l.Advances l' := by
  unfold saveStep at hstep
  dsimp only at hstep
  split at hstep
  · rename_i site hpc
    cases hstep
    exact ⟨_, rfl, afterCompact_run h hpc false⟩
  · rename_i site hpc
    cases hstep
    exact ⟨_, rfl, afterCompact_run h hpc true⟩
  · rename_i site hpc
    cases hstep
    exact ⟨_, rfl, afterCompact_run h hpc false⟩
  · rename_i site hpc
    cases hstep
    exact ⟨_, rfl, afterPersist_run h hpc false⟩
  · rename_i now hpc
    split at hstep
    · cases hstep
    · cases hstep
      exact ⟨_, rfl, startAppend_run h hpc now⟩
  · rename_i site hpc
    split at hstep
    · cases hstep
    · cases hstep
      exact ⟨_, rfl, afterPersist_run h hpc true⟩
  · rename_i site hpc
    split at hstep
    · cases hstep
    · cases hstep
      exact ⟨_, rfl, afterPersist_run h hpc false⟩
  · cases hstep

theorem idleStep_run (h : l.Wf) {choice : Choice} {s t : Sys}
    (hstep : idleStep opts choice s l = some t) :
    ∃ l', t.live = some l' ∧ l.Advances l' := by
  have hok := h.pc
  unfold idleStep at hstep
  dsimp only at hstep
  split at hstep
  · rename_i hpc
    cases hstep
    refine ⟨_, rfl, h.quiet ⟨rfl, rfl, ?_, ?_⟩ rfl rfl (fun hs => by cases hs) fun hd => ?_⟩
    · simp [Live.flight, Pc.events, hpc]
    · simp [Live.parked, Pc.parked, hpc]
    · exact h.queue_eq_nil (of_decide_eq_true hd)
  · rename_i drained held hpc
    cases hstep
    rw [hpc] at hok
    refine ⟨_, rfl, h.absorb (by rw [hpc]; rfl) (by rw [hpc]; rfl) hok rfl rfl rfl ?_ ?_ rfl rfl
      ?_ ?_⟩
    all_goals dsimp only
    · split <;> rfl
    · split <;> rfl
    · split <;> exact fun hs => by cases hs
    · split <;> trivial
  · rename_i hpc
    split at hstep <;> cases hstep <;>
      exact ⟨_, rfl, h.goto rfl rfl rfl rfl rfl (by rw [hpc]; rfl) (by rw [hpc]; rfl)
        (fun hs => by cases hs) trivial⟩
  · rename_i hpc
    split at hstep <;> cases hstep
    exact ⟨_, rfl, h.goto rfl rfl rfl rfl rfl (by rw [hpc]; rfl) (by rw [hpc]; rfl)
      (fun hs => by cases hs) trivial⟩
  · rename_i hpc
    cases hstep
    exact ⟨_, rfl, h.goto rfl rfl rfl rfl rfl (by rw [hpc]; rfl) (by rw [hpc]; rfl)
      (fun hs => by cases hs) trivial⟩
  · rename_i now hpc
    cases hstep
    have hretires := prune_retires opts now l.tails h.sound.positive
    have hsound : (prune opts now l.tails l.reader).2.Sound := prune_sound h.sound.filed
    have hearliest : _ ≤ (prune opts now l.tails l.reader).2.state.earliestCursor :=
      le_prune_earliestCursor h.sound.positive h.sound.earliest_le h.sound.above
    refine ⟨_, rfl, h.retire hretires hsound hearliest rfl ?_ ?_ rfl rfl ?_ ?_⟩
    · simp only [Live.flight, hpc]
      split <;> rfl
    · simp only [Live.parked, hpc]
      split <;> rfl
    · dsimp only
      split <;> exact fun hs => by cases hs
    · dsimp only
      split <;> trivial
  · rename_i hpc
    cases hstep
    refine ⟨_, rfl, h.goto rfl rfl rfl rfl rfl ?_ ?_ ?_ ?_⟩
    all_goals dsimp only
    · rw [hpc]
      split <;> rfl
    · rw [hpc]
      split <;> rfl
    · split <;> exact fun hs => by cases hs
    · split <;> trivial
  · cases hstep

/-- Every step of the writer thread keeps the invariant and is a run of the ledger. -/
theorem writerStep_run (h : l.Wf) {choice : Choice} {s t : Sys}
    (hstep : writerStep cd opts choice s l = some t) :
    ∃ l', t.live = some l' ∧ l.Advances l' := by
  unfold writerStep at hstep
  split at hstep
  all_goals first
    | exact receiveStep_run h hstep
    | exact writeStep_run h hstep
    | exact publishStep_run h hstep
    | exact saveStep_run h hstep
    | exact idleStep_run h hstep
    | cases hstep

/-! ## The whole system -/

/-- An action of a living service: anything but a crash and a start. -/
def Act.isLive : Act → Bool
  | .crash _ _ | .start _ _ _ => false
  | _ => true

def Act.isCrash : Act → Bool
  | .crash _ _ => true
  | _ => false

/-- Every action of a living service keeps the invariant and is a run of the ledger. -/
theorem step_run (h : l.Wf) {a : Act} (ha : a.isLive) {s t : Sys} (hs : s.live = some l)
    (hstep : step cd opts a s = some t) :
    ∃ l', t.live = some l' ∧ l.Advances l' := by
  unfold step at hstep
  rw [hs] at hstep
  split at hstep
  · rename_i event l₁ heq
    cases heq
    split at hstep
    · rename_i hguard
      simp only [Bool.and_eq_true, Bool.not_eq_true'] at hguard
      cases hstep
      have hrun := enqueue_run cd h false (List.cons_ne_nil event []) hguard.1.1.1 hguard.1.1.2
      exact ⟨_, rfl, hrun⟩
    · cases hstep
  · rename_i events l₁ heq
    cases heq
    split at hstep
    · rename_i hguard
      simp only [Bool.and_eq_true, Bool.not_eq_true', decide_eq_true_eq] at hguard
      cases hstep
      have hrun := enqueue_run cd h true (List.ne_nil_of_length_pos hguard.1.1.2) hguard.1.1.1.1
        hguard.1.1.1.2
      exact ⟨_, rfl, hrun⟩
    · cases hstep
  · rename_i l₁ heq
    cases heq
    cases hstep
    exact ⟨_, rfl, h.goto rfl rfl rfl rfl rfl rfl rfl h.startup h.pc⟩
  · rename_i choice l₁ heq
    cases heq
    exact writerStep_run h hstep
  · cases ha
  · rename_i heq
    cases heq
  · cases hstep

end VivadoServer.History
