/-
  VivadoServer.History.Acknowledged

  An acknowledged critical event is durable.  Its line is synced before its
  batch is acknowledged, it is retained until retention takes it out, and start-up
  finds every line of an intact journal again.

  The one way to lose it is a batch that is written behind the remains of an
  earlier one: after a failed `set_len` or `seek` the writer stops being used by
  producers but still drains its queue, and acknowledges what it writes.
  `acknowledged_durable` covers the runs in which every batch is written at the
  end of an intact file.
-/

import VivadoServer.History.Durable

namespace VivadoServer.History

open Std (ExtTreeMap)
open StepSystem (Run exec execIf)

variable {cd : Codec} {opts : Options} {s t : Sys} {l l' : Live} {es : List Event} {e : Event}

/-! ## What is promised -/

/-- The events whose waiters will be told `Ok` if nothing fails any more. -/
def Pc.promised : Pc → List Event
  | .collect _ acks => acks.flatten
  | .write c _ | .sync c _ | .insert c _ | .trim c _ _ _ | .merge c _ | .prune c
  | .compact (.append c) | .persist (.append c) | .report c .ok => c.acks.flatten
  | _ => []

/-- The event is retained, or retention has taken it out. -/
def Kept (s : Sys) (l : Live) (e : Event) : Prop :=
  e ∈ s.removed ∨ ∃ n, l.reader.events[e.seq]? = some (e, n)

structure Live.Promises (s : Sys) (l : Live) : Prop where
  acked : ∀ e ∈ s.acked, Kept s l e ∧ e.isOutput = false
  promised : ∀ e ∈ l.pc.promised, (e ∈ l.pc.events ∨ Kept s l e) ∧ e.isOutput = false
  queue : ∀ m ∈ l.queue, m.ack = true → ∀ e ∈ m.events, e.isOutput = false
  persisted : ∀ state, s.disk.state = some state →
    state.earliestCursor ≤ state.nextCursor ∧
      state.earliestCursor ≤ l.reader.state.earliestCursor

/-- Events that leave a reader are recorded. -/
theorem mem_removedBy {old new : Reader} {k : Nat} {v : Event × Nat}
    (h : old.events[k]? = some v) (h' : new.events[k]? = none) : v.1 ∈ removedBy old new := by
  refine List.mem_map.mpr ⟨(k, v), List.mem_filter.mpr ⟨OrderedMap.mem_toList.mpr h, ?_⟩, rfl⟩
  simp [ExtTreeMap.contains_eq_isSome_getElem?, h']

theorem Kept.retires (h : Kept s l e) (hretires : l.reader.Retires l'.reader)
    (hremoved : t.removed = s.removed ++ removedBy l.reader l'.reader) : Kept t l' e := by
  rw [Kept, hremoved]
  rcases h with h | ⟨n, h⟩
  · exact .inl (List.mem_append_left _ h)
  · cases h' : l'.reader.events[e.seq]? with
    | none => exact .inl (List.mem_append_right _ (mem_removedBy h h'))
    | some v =>
        have hv := (hretires.sub h').symm.trans h
        rw [Option.some.injEq] at hv
        exact .inr ⟨n, hv ▸ rfl⟩

theorem Kept.same (h : Kept s l e) (hevents : l'.reader.events = l.reader.events)
    (hremoved : s.removed <+: t.removed) : Kept t l' e := by
  rw [Kept, hevents]
  exact h.imp (fun h => hremoved.subset h) id

/-- A step that keeps what is kept, acknowledges what was promised and published,
    and promises nothing it does not have in hand. -/
theorem Live.Promises.step (h : l.Promises s) (hkept : ∀ e, Kept s l e → Kept t l' e)
    (hacked : ∀ e ∈ t.acked, e ∈ s.acked ∨ e ∈ l.pc.promised ∧ l.pc.events = [])
    (hpromised : ∀ e ∈ l'.pc.promised, (e ∈ l'.pc.events ∧ e.isOutput = false) ∨
      e ∈ l.pc.promised ∧ (e ∈ l.pc.events → e ∈ l'.pc.events ∨ Kept t l' e))
    (hqueue : ∀ m ∈ l'.queue, m ∈ l.queue ∨ (m.ack = true → ∀ e ∈ m.events, e.isOutput = false))
    (hpersisted : ∀ state, t.disk.state = some state →
      (s.disk.state = some state ∨
        state.earliestCursor ≤ state.nextCursor ∧
          state.earliestCursor ≤ l.reader.state.earliestCursor))
    (hearliest : l.reader.state.earliestCursor ≤ l'.reader.state.earliestCursor) :
    l'.Promises t where
  acked e he := by
    rcases hacked e he with he | ⟨he, hnone⟩
    · exact ⟨hkept e (h.acked e he).1, (h.acked e he).2⟩
    · obtain ⟨hin | hk, hplain⟩ := h.promised e he
      · rw [hnone] at hin
        cases hin
      · exact ⟨hkept e hk, hplain⟩
  promised e he := by
    rcases hpromised e he with ⟨hin, hplain⟩ | ⟨hp, hmove⟩
    · exact ⟨.inl hin, hplain⟩
    · obtain ⟨hin | hk, hplain⟩ := h.promised e hp
      · exact ⟨hmove hin, hplain⟩
      · exact ⟨.inr (hkept e hk), hplain⟩
  queue m hm := by
    rcases hqueue m hm with hm | hm
    · exact h.queue m hm
    · exact hm
  persisted state hstate := by
    have hbounds : state.earliestCursor ≤ state.nextCursor ∧
        state.earliestCursor ≤ l.reader.state.earliestCursor := by
      rcases hpersisted state hstate with hold | hnew
      · exact h.persisted state hold
      · exact hnew
    exact ⟨hbounds.1, hbounds.2.trans hearliest⟩

/-! ## The steps -/

theorem beginAppend_promised (cd : Codec) (c : Caller) (events : List Event) :
    ∀ e ∈ (beginAppend cd c events).promised,
      e ∈ c.acks.flatten ∧ (beginAppend cd c events).events = events := by
  unfold beginAppend
  dsimp only
  split
  · exact fun e he => by cases he
  · refine fun e he => ⟨he, ?_⟩
    rw [Pc.events, List.map_map]
    simp [Function.comp_def]

theorem receiveStep_promises (h : l.Promises s) {choice : Choice}
    (hstep : receiveStep cd choice s l = some t) :
    ∃ l', t.live = some l' ∧ l'.Promises t := by
  have hself : s.removed <+: s.removed := List.prefix_refl _
  unfold receiveStep at hstep
  split at hstep
  · rename_i hpc
    split at hstep
    · cases hstep
    · rename_i m queue hqueue
      cases hstep
      have hm : m.ack = true → ∀ e ∈ m.events, e.isOutput = false :=
        h.queue m (hqueue ▸ List.mem_cons_self)
      refine ⟨_, rfl, h.step (fun e he => he.same rfl hself) (fun e he => .inl he)
        (fun e he => .inl ?_) (fun m' hm' => .inl (hqueue ▸ List.mem_cons_of_mem _ hm'))
        (fun state hs => .inl hs) le_rfl⟩
      simp only [Pc.promised] at he
      split at he
      · rename_i hack
        rw [List.flatten_singleton] at he
        exact ⟨he, hm hack e he⟩
      · cases he
  · rename_i hpc
    split at hstep <;> cases hstep
    exact ⟨_, rfl, h.step (fun e he => he.same rfl hself) (fun e he => .inl he)
      (fun e he => by cases he) (fun m hm => .inl hm) (fun state hs => .inl hs) le_rfl⟩
  · rename_i events acks hpc
    have hbegin : ∀ c : Caller, c.acks = acks →
        Live.Promises (s.with s.disk { l with pc := beginAppend cd c events })
          { l with pc := beginAppend cd c events } := by
      intro c hc
      refine h.step (fun e he => he.same rfl hself) (fun e he => .inl he) (fun e he => ?_)
        (fun m hm => .inl hm) (fun state hs => .inl hs) le_rfl
      obtain ⟨hacks, hevents⟩ := beginAppend_promised cd c events e he
      refine .inr ⟨?_, fun hin => .inl ?_⟩
      · rw [hpc, ← hc]
        exact hacks
      · rw [hpc] at hin
        exact hevents.symm ▸ hin
    split at hstep
    · rename_i m queue hqueue
      have hm : m.ack = true → ∀ e ∈ m.events, e.isOutput = false :=
        h.queue m (hqueue ▸ List.mem_cons_self)
      split at hstep <;> cases hstep
      · refine ⟨_, rfl, h.step (fun e he => he.same rfl hself) (fun e he => .inl he)
          (fun e he => ?_) (fun m' hm' => .inl (hqueue ▸ List.mem_cons_of_mem _ hm'))
          (fun state hs => .inl hs) le_rfl⟩
        have hold : e ∈ acks.flatten → e ∈ l.pc.promised ∧
            (e ∈ l.pc.events → e ∈ events ++ m.events) := by
          rw [hpc]
          exact fun hin => ⟨hin, fun hev => List.mem_append_left _ hev⟩
        simp only [Pc.promised] at he
        split at he
        · rename_i hack
          rw [List.flatten_append, List.flatten_singleton] at he
          rcases List.mem_append.mp he with he | he
          · exact .inr ⟨(hold he).1, fun hev => .inl ((hold he).2 hev)⟩
          · exact .inl ⟨List.mem_append_right _ he, hm hack e he⟩
        · exact .inr ⟨(hold he).1, fun hev => .inl ((hold he).2 hev)⟩
      · exact ⟨_, rfl, hbegin _ rfl⟩
    · cases hstep
      exact ⟨_, rfl, hbegin _ rfl⟩
  · cases hstep

theorem writeStep_promises (h : l.Promises s) {choice : Choice}
    (hstep : writeStep cd choice s l = some t) :
    ∃ l', t.live = some l' ∧ l'.Promises t := by
  have hself : s.removed <+: s.removed := List.prefix_refl _
  unfold writeStep at hstep
  dsimp only at hstep
  split at hstep
  case h_9 => cases hstep
  all_goals
    rename_i hpc
    cases hstep
    refine ⟨_, rfl, h.step (fun e he => he.same rfl hself) (fun e he => .inl he) (fun e he => ?_)
      (fun m hm => .inl hm) (fun state hs => .inl hs) le_rfl⟩
  case h_1 | h_3 =>
    refine .inr ⟨by rw [hpc]; exact he, fun hin => .inl ?_⟩
    rw [hpc] at hin
    exact hin
  all_goals cases he

/-- A published event is kept, and nothing that was kept is overwritten. -/
theorem Kept.insert (hwf : l.Wf) {event : Event} {size : Nat}
    (hseq : l.reader.state.nextCursor < event.seq)
    (hreader : l'.reader = insertEvent event size l.reader) (hremoved : t.removed = s.removed) :
    Kept t l' event ∧ ∀ e, Kept s l e → Kept t l' e := by
  have hevents : l'.reader.events = l.reader.events.insert event.seq (event, size) :=
    hreader ▸ insertEvent_events event size l.reader
  refine ⟨.inr ⟨size, ?_⟩, fun e he => ?_⟩
  · rw [hevents]
    exact OrderedMap.getElem?_insert_self'
  · rcases he with he | ⟨n, he⟩
    · exact .inl (hremoved ▸ he)
    · have hne : event.seq ≠ e.seq := by
        have hle := hwf.sound.below he
        omega
      refine .inr ⟨n, ?_⟩
      rw [hevents, OrderedMap.getElem?_insert_of_ne hne]
      exact he

theorem publishStep_promises (h : l.Promises s) (hwf : l.Wf) {choice : Choice}
    (hstep : publishStep opts choice s l = some t) :
    ∃ l', t.live = some l' ∧ l'.Promises t := by
  have hself : s.removed <+: s.removed := List.prefix_refl _
  unfold publishStep at hstep
  dsimp only at hstep
  split at hstep
  · rename_i c event size rest hpc
    cases hstep
    have hflight : event ∈ l.flight := by
      rw [Live.flight, hpc]
      exact List.mem_cons_self
    have hinsert : ∀ l' : Live, l'.reader = insertEvent event size l.reader →
        Kept (s.with s.disk l') l' event ∧ ∀ e, Kept s l e → Kept (s.with s.disk l') l' e :=
      fun l' hreader => Kept.insert hwf (hwf.flight_bound hflight).1 hreader rfl
    have hmove : ∀ l' : Live, l'.reader = insertEvent event size l.reader →
        l'.pc.promised = c.acks.flatten → l'.pc.events = rest.map (·.1) → l'.queue = l.queue →
        l'.Promises (s.with s.disk l') := by
      intro l' hreader hpromised hevents hqueue
      refine h.step (hinsert l' hreader).2 (fun e he => .inl he)
        (fun e he => .inr ⟨?_, fun hin => ?_⟩) (fun m hm => .inl (hqueue ▸ hm))
        (fun state hs => .inl hs) (hreader ▸ (insertEvent_earliestCursor event size l.reader).ge)
      · rw [hpromised] at he
        rw [hpc]
        exact he
      · rw [hpc] at hin
        rcases List.mem_cons.mp hin with rfl | hin
        · exact .inr (hinsert l' hreader).1
        · exact .inl (hevents ▸ hin)
    split <;> exact ⟨_, rfl, hmove _ rfl rfl rfl rfl⟩
  · rename_i c event id rest hpc
    split at hstep
    · rename_i tails reader htrim
      cases hstep
      have hretires := trimTail_retires hwf.sound.positive htrim
      exact ⟨_, rfl, h.step (fun e he => he.retires hretires rfl) (fun e he => .inl he)
        (fun e he => .inr ⟨he, fun hin => .inl hin⟩) (fun m hm => .inl hm)
        (fun state hs => .inl hs) (trimTail_earliestCursor htrim).ge⟩
    · cases hstep
      refine ⟨_, rfl, h.step (fun e he => he.same rfl hself) (fun e he => .inl he)
        (fun e he => .inr ⟨?_, fun hin => .inl ?_⟩) (fun m hm => .inl hm)
        (fun state hs => .inl hs) le_rfl⟩
      · rw [hpc]
        exact he
      · rw [hpc] at hin
        exact hin
  · rename_i c hpc
    cases hstep
    refine ⟨_, rfl, h.step (fun e he => he.same rfl hself) (fun e he => .inl he)
      (fun e he => .inr ⟨by rw [hpc]; exact he, fun hin => ?_⟩) (fun m hm => .inl hm)
      (fun state hs => .inl hs) le_rfl⟩
    rw [hpc] at hin
    cases hin
  · rename_i c held hpc
    cases hstep
    refine ⟨_, rfl, h.step (fun e he => he.same rfl hself) (fun e he => .inl he)
      (fun e he => .inr ⟨by rw [hpc]; exact he, fun hin => ?_⟩) (fun m hm => .inl hm)
      (fun state hs => .inl hs) le_rfl⟩
    rw [hpc] at hin
    cases hin
  · rename_i c now hpc
    cases hstep
    have hretires := prune_retires opts now l.tails hwf.sound.positive
    have hearliest : l.reader.state.earliestCursor
        ≤ (prune opts now l.tails l.reader).2.state.earliestCursor :=
      le_prune_earliestCursor hwf.sound.positive hwf.sound.earliest_le hwf.sound.above
    refine ⟨_, rfl, h.step (fun e he => he.retires hretires rfl) (fun e he => .inl he)
      (fun e he => .inr ⟨?_, fun hin => ?_⟩) (fun m hm => .inl hm) (fun state hs => .inl hs)
      hearliest⟩
    · dsimp only at he
      rw [hpc]
      split at he <;> exact he
    · rw [hpc] at hin
      cases hin
  · rename_i c result hpc
    cases hstep
    have hsame : (finishAppend c result l).reader = l.reader ∧
        (finishAppend c result l).queue = l.queue ∧
        (finishAppend c result l).pc.promised = [] := by
      unfold finishAppend
      split
      · refine ⟨rfl, rfl, ?_⟩
        dsimp only
        split <;> rfl
      · exact ⟨rfl, rfl, rfl⟩
    refine ⟨_, rfl, h.step (fun e he => he.same (congrArg Reader.events hsame.1) hself)
      (fun e he => ?_) (fun e he => ?_) (fun m hm => .inl (hsame.2.1 ▸ hm))
      (fun state hs => .inl hs) (hsame.1 ▸ le_rfl)⟩
    · rcases List.mem_append.mp he with he | he
      · exact .inl he
      · unfold Caller.acknowledged at he
        split at he
        · rename_i hok
          rw [hpc, hok]
          exact .inr ⟨he, rfl⟩
        · cases he
    · rw [hsame.2.2] at he
      cases he
  · cases hstep

/-- Saving keeps what is promised; a persisted state repeats the reader's. -/
theorem Live.Promises.saved (h : l.Promises s) (hwf : l.Wf) (hreader : l'.reader = l.reader)
    (hqueue : l'.queue = l.queue) (hnone : l.pc.events = [])
    (hpromised : ∀ e ∈ l'.pc.promised, e ∈ l.pc.promised)
    (hacked : t.acked = s.acked) (hremoved : t.removed = s.removed)
    (hstate : t.disk.state = s.disk.state ∨ t.disk.state = some l.reader.state) :
    l'.Promises t := by
  refine h.step (fun e he => he.same (congrArg Reader.events hreader) (hremoved ▸ List.prefix_refl _))
    (fun e he => .inl (hacked ▸ he)) (fun e he => .inr ⟨hpromised e he, fun hin => ?_⟩)
    (fun m hm => .inl (hqueue ▸ hm)) (fun state hs => ?_) (hreader ▸ le_rfl)
  · rw [hnone] at hin
    cases hin
  · rcases hstate with hsame | hnew
    · exact .inl (hsame ▸ hs)
    · rw [hnew] at hs
      cases hs
      exact .inr ⟨hwf.sound.earliest_le, le_rfl⟩

theorem saveStep_promises (h : l.Promises s) (hwf : l.Wf) {choice : Choice}
    (hstep : saveStep cd choice s l = some t) :
    ∃ l', t.live = some l' ∧ l'.Promises t := by
  have hcompact : ∀ {site : Site} (ok : Bool), l.pc = .compact site →
      ∀ e ∈ (afterCompact site ok).promised, e ∈ l.pc.promised := by
    intro site ok hpc e he
    rw [hpc]
    cases site <;> cases ok <;> first | exact he | cases he
  have hpersist : ∀ {site : Site} (ok : Bool), l.pc = .persist site →
      (∀ e ∈ (afterPersist site ok l).pc.promised, e ∈ l.pc.promised) ∧
        (afterPersist site ok l).reader = l.reader ∧ (afterPersist site ok l).queue = l.queue := by
    intro site ok hpc
    rw [hpc]
    cases site <;> cases ok <;> refine ⟨fun e he => ?_, rfl, rfl⟩ <;> first | exact he | cases he
  unfold saveStep at hstep
  dsimp only at hstep
  split at hstep
  · rename_i site hpc
    cases hstep
    exact ⟨_, rfl, h.saved hwf rfl rfl (by rw [hpc]; rfl) (hcompact _ hpc) rfl rfl (.inl rfl)⟩
  · rename_i site hpc
    cases hstep
    exact ⟨_, rfl, h.saved hwf rfl rfl (by rw [hpc]; rfl) (hcompact _ hpc) rfl rfl (.inl rfl)⟩
  · rename_i site hpc
    cases hstep
    exact ⟨_, rfl, h.saved hwf rfl rfl (by rw [hpc]; rfl) (hcompact _ hpc) rfl rfl (.inl rfl)⟩
  · rename_i site hpc
    cases hstep
    obtain ⟨hpromised, hreader, hqueue⟩ := hpersist false hpc
    exact ⟨_, rfl, h.saved hwf hreader hqueue (by rw [hpc]; rfl) hpromised rfl rfl (.inl rfl)⟩
  · rename_i now hpc
    split at hstep <;> cases hstep
    refine ⟨_, rfl, h.saved hwf rfl rfl (by rw [hpc]; rfl) (fun e he => ?_) rfl rfl (.inr rfl)⟩
    obtain ⟨hacks, -⟩ := beginAppend_promised cd _ _ e he
    cases hacks
  · rename_i site hpc
    split at hstep <;> cases hstep
    obtain ⟨hpromised, hreader, hqueue⟩ := hpersist true hpc
    exact ⟨_, rfl, h.saved hwf hreader hqueue (by rw [hpc]; rfl) hpromised rfl rfl (.inr rfl)⟩
  · rename_i site hpc
    split at hstep <;> cases hstep
    obtain ⟨hpromised, hreader, hqueue⟩ := hpersist false hpc
    exact ⟨_, rfl, h.saved hwf hreader hqueue (by rw [hpc]; rfl) hpromised rfl rfl (.inr rfl)⟩
  · cases hstep

theorem idleStep_promises (h : l.Promises s) (hwf : l.Wf) {choice : Choice}
    (hstep : idleStep opts choice s l = some t) :
    ∃ l', t.live = some l' ∧ l'.Promises t := by
  have hself : s.removed <+: s.removed := List.prefix_refl _
  unfold idleStep at hstep
  dsimp only at hstep
  split at hstep
  case h_2 drained held hpc =>
    cases hstep
    refine ⟨_, rfl, h.step (fun e he => he.same (idleReader_events ..) hself) (fun e he => .inl he)
      (fun e he => ?_) (fun m hm => .inl hm) (fun state hs => .inl hs)
      (idleReader_earliestCursor ..).ge⟩
    dsimp only at he
    split at he <;> cases he
  case h_6 now hpc =>
    cases hstep
    have hretires := prune_retires opts now l.tails hwf.sound.positive
    have hearliest : l.reader.state.earliestCursor
        ≤ (prune opts now l.tails l.reader).2.state.earliestCursor :=
      le_prune_earliestCursor hwf.sound.positive hwf.sound.earliest_le hwf.sound.above
    refine ⟨_, rfl, h.step (fun e he => he.retires hretires rfl) (fun e he => .inl he)
      (fun e he => ?_) (fun m hm => .inl hm) (fun state hs => .inl hs) hearliest⟩
    dsimp only at he
    split at he <;> cases he
  case h_3 | h_4 =>
    split at hstep <;> cases hstep <;>
      exact ⟨_, rfl, h.step (fun e he => he.same rfl hself) (fun e he => .inl he)
        (fun e he => by cases he) (fun m hm => .inl hm) (fun state hs => .inl hs) le_rfl⟩
  case h_7 hpc =>
    cases hstep
    refine ⟨_, rfl, h.step (fun e he => he.same rfl hself) (fun e he => .inl he) (fun e he => ?_)
      (fun m hm => .inl hm) (fun state hs => .inl hs) le_rfl⟩
    dsimp only at he
    split at he <;> cases he
  case h_8 => cases hstep
  all_goals
    cases hstep
    exact ⟨_, rfl, h.step (fun e he => he.same rfl hself) (fun e he => .inl he)
      (fun e he => by cases he) (fun m hm => .inl hm) (fun state hs => .inl hs) le_rfl⟩

theorem writerStep_promises (h : l.Promises s) (hwf : l.Wf) {choice : Choice}
    (hstep : writerStep cd opts choice s l = some t) :
    ∃ l', t.live = some l' ∧ l'.Promises t := by
  unfold writerStep at hstep
  split at hstep
  all_goals first
    | exact receiveStep_promises h hstep
    | exact writeStep_promises h hstep
    | exact publishStep_promises h hwf hstep
    | exact saveStep_promises h hwf hstep
    | exact idleStep_promises h hwf hstep
    | cases hstep

/-- `enqueue` promises only what `critical` was called with. -/
theorem enqueue_promises (cd : Codec) (h : l.Promises s) (events : List Event) (ack : Bool)
    (hplain : ack = true → ∀ e ∈ events, e.isOutput = false) (hacked : t.acked = s.acked)
    (hremoved : t.removed = s.removed) (hdisk : t.disk = s.disk) :
    (enqueue cd events ack l).1.Promises t := by
  have hkept : ∀ {l' : Live}, l'.reader = l.reader → ∀ e, Kept s l e → Kept t l' e :=
    fun hreader e he => he.same (congrArg Reader.events hreader) (hremoved ▸ List.prefix_refl _)
  obtain ⟨-, ⟨hfits, hl'⟩ | ⟨reason, healthy, hl'⟩⟩ := enqueue_cases cd events ack l
  · rw [hl']
    refine h.step (hkept rfl) (fun e he => .inl (hacked ▸ he))
      (fun e he => .inr ⟨he, fun hin => .inl hin⟩) (fun m hm => ?_)
      (fun state hs => .inl (hdisk ▸ hs)) le_rfl
    rcases List.mem_append.mp hm with hm | hm
    · exact .inl hm
    · rw [List.mem_singleton] at hm
      subst hm
      refine .inr fun hack e he => ?_
      dsimp only at he
      rw [(stamp_fits hfits).1] at he
      obtain ⟨-, e₀, he₀, heq⟩ := mem_stampStartup he
      rw [heq, numbered_isOutput]
      exact hplain hack e₀ he₀
  · rw [hl']
    exact h.step (hkept rfl) (fun e he => .inl (hacked ▸ he))
      (fun e he => .inr ⟨he, fun hin => .inl hin⟩) (fun m hm => .inl hm)
      (fun state hs => .inl (hdisk ▸ hs)) le_rfl

theorem liveStep_promises (h : l.Promises s) (hwf : l.Wf) (hl : s.live = some l) {a : Act}
    (ha : a.isLive = true) (hstep : step cd opts a s = some t) :
    ∃ l', t.live = some l' ∧ l'.Promises t := by
  unfold step at hstep
  rw [hl] at hstep
  split at hstep
  · rename_i event l₁ heq
    cases heq
    split at hstep <;> cases hstep
    have hp := enqueue_promises (t := { s.with s.disk (enqueue cd [event] false l).1 with
        outputBytes := countOutput s.outputBytes event
        created := s.created ++ (enqueue cd [event] false l).2 }) cd h [event] false
      (fun hack => by cases hack) rfl rfl rfl
    exact ⟨_, rfl, hp⟩
  · rename_i events l₁ heq
    cases heq
    split at hstep
    · rename_i hguard
      simp only [Bool.and_eq_true, List.all_eq_true, Bool.not_eq_true'] at hguard
      cases hstep
      have hp := enqueue_promises (t := { s.with s.disk (enqueue cd events true l).1 with
          created := s.created ++ (enqueue cd events true l).2 }) cd h events true
        (fun _ e he => (hguard.2 e he).2) rfl rfl rfl
      exact ⟨_, rfl, hp⟩
    · cases hstep
  · rename_i l₁ heq
    cases heq
    cases hstep
    exact ⟨_, rfl, h.step (fun e he => he.same rfl (List.prefix_refl _)) (fun e he => .inl he)
      (fun e he => .inr ⟨he, fun hin => .inl hin⟩) (fun m hm => .inl hm)
      (fun state hs => .inl hs) le_rfl⟩
  · rename_i choice l₁ heq
    cases heq
    exact writerStep_promises h hwf hstep
  · cases ha
  · rename_i heq
    cases heq
  · cases hstep

/-! ## The whole system -/

/-- Between two lifetimes: every acknowledged event is a line of the journal that
    the persisted state does not retire, or was taken out by retention. -/
structure Sys.Vouches (s : Sys) (es : List Event) : Prop where
  acked : ∀ e ∈ s.acked, e.isOutput = false ∧ (e ∈ s.removed ∨ e ∈ es ∧
    ∀ state, s.disk.state = some state → state.earliestCursor < e.seq)
  persisted : ∀ state, s.disk.state = some state → state.earliestCursor ≤ state.nextCursor

/-- Acknowledged events are safe, within a lifetime and between two. -/
def Sys.Keeps (cd : Codec) (s : Sys) (es : List Event) : Prop :=
  s.Journaled cd es ∧
    match s.live with
    | some l => l.Promises s
    | none => s.Vouches es

theorem fresh_keeps : Sys.fresh.Keeps cd [] :=
  ⟨fresh_journaled, by simp [Sys.fresh], by simp [Sys.fresh, Disk.fresh]⟩

/-- What a lifetime promises outlives it. -/
theorem Sys.Keeps.vouches (h : s.Keeps cd es) : s.Vouches es := by
  obtain ⟨hj, hp⟩ := h
  unfold Sys.Journaled at hj
  cases hl : s.live with
  | none => rwa [hl] at hp
  | some l =>
      rw [hl] at hj hp
      obtain ⟨hwf, hj⟩ := hj
      refine ⟨fun e he => ⟨(hp.acked e he).2, ?_⟩, fun state hs => (hp.persisted state hs).1⟩
      rcases (hp.acked e he).1 with hgone | ⟨n, hin⟩
      · exact .inl hgone
      · exact .inr ⟨hj.held hin, fun state hs =>
          (hp.persisted state hs).2.trans_lt (hwf.sound.above hin)⟩

/-- Start-up retires no line above the persisted `earliest_cursor` but output. -/
theorem retired_eq_false {state : State} (hplain : e.isOutput = false)
    (hseq : state.earliestCursor < e.seq) : retired state e = false := by
  rw [Event.isOutput] at hplain
  simp [retired, hplain, hseq]

/-- Start-up finds every acknowledged event again. -/
theorem start_keeps {now : Int} {journalId instanceId : Uuid} (h : s.Keeps cd es)
    (hstep : step cd opts (.start now journalId instanceId) s = some t) : ∃ es', t.Keeps cd es' := by
  have hvouches := h.vouches
  obtain ⟨hj, -⟩ := h
  obtain ⟨es', hj'⟩ : ∃ es', t.Journaled cd es' := step_journaled ⟨es, hj⟩ rfl hstep
  cases hlive : s.live with
  | some l => simp [step, hlive] at hstep
  | none =>
      obtain ⟨d, l, hload, hl, hreader, -⟩ := start_wf hstep
      obtain ⟨state, lost, torn, hopen, -, -, -, hordered, -, hevents, -⟩ :=
        load_journaled hj.disk hload
      obtain ⟨-, -, hkeeps, -⟩ := replayEvents_spec cd state.nextCursor hordered ⟨state, ∅, 0⟩
      refine ⟨es', hj', ?_⟩
      rw [hl]
      simp only [step, hlive, hload] at hstep
      cases hstep
      cases hl
      refine ⟨fun e he => ?_, fun e he => (by cases he), fun m hm => (by cases hm),
        fun old hold => ?_⟩
      · obtain ⟨hplain, hgone | ⟨hin, habove⟩⟩ := hvouches.acked e he
        · exact ⟨.inl (List.mem_append_left _ hgone), hplain⟩
        · have hseq : state.earliestCursor < e.seq := by
            obtain ⟨-, hzero⟩ | ⟨old, hold, hearliest, -⟩ := openState_bounds hopen
            · rw [hzero]
              exact Nat.pos_of_ne_zero (hj.disk.lawful e hin).seq
            · rw [hearliest]
              exact habove old hold
          have hreplayed : d.replayed.events[e.seq]? = some (e, (cd.line e).length) := by
            rw [hevents]
            exact hkeeps e (List.mem_append_left _ hin) (retired_eq_false hplain hseq)
          refine ⟨?_, hplain⟩
          cases hkept : d.reader.events[e.seq]? with
          | none => exact .inl (List.mem_append_right _ (mem_removedBy hreplayed hkept))
          | some v =>
              have hv := ((load_sound hload).retires.sub hkept).symm.trans hreplayed
              rw [Option.some.injEq] at hv
              exact .inr ⟨_, hkept.trans (congrArg some hv)⟩
      · exact ⟨hvouches.persisted old hold, load_earliestCursor hload hold (hvouches.persisted old hold)⟩

theorem step_keeps {a : Act} (h : ∃ es, s.Keeps cd es) (hend : writesAtEnd a s = true)
    (hstep : step cd opts a s = some t) : ∃ es, t.Keeps cd es := by
  obtain ⟨es, h⟩ := h
  obtain ⟨es', hj'⟩ := step_journaled ⟨es, h.1⟩ hend hstep
  rcases act_cases a with ha | ⟨keep, old, rfl⟩ | ⟨now, journalId, instanceId, rfl⟩
  · obtain ⟨l, hl⟩ := live_of_step ha hstep
    obtain ⟨hj, hp⟩ := h
    unfold Sys.Journaled at hj
    rw [hl] at hj hp
    obtain ⟨l', hl', hp'⟩ := liveStep_promises hp hj.1 hl ha hstep
    refine ⟨es', hj', ?_⟩
    rw [hl']
    exact hp'
  · have hvouches := h.vouches
    have hdisk := h.1.disk.crash keep old
    cases hstep
    exact ⟨es, ⟨hdisk, rfl⟩, hvouches.acked, hvouches.persisted⟩
  · exact start_keeps h hstep

/-- In every run that only writes at the end of an intact journal, with any other
    failures, crashes and restarts: whenever the service runs, an acknowledged
    event is in its reader with its sequence, or trimming or retention took it out. -/
theorem acknowledged_durable (hrun : Run (step cd opts) (fun a s => writesAtEnd a s = true) .fresh s)
    (hl : s.live = some l) (he : e ∈ s.acked) :
    (∃ n, l.reader.events[e.seq]? = some (e, n)) ∨ e ∈ s.removed := by
  obtain ⟨es, -, hp⟩ := hrun.invariant (I := fun s => ∃ es, s.Keeps cd es)
    (fun a s t h hend hstep => step_keeps h hend hstep) ⟨[], fresh_keeps⟩
  rw [hl] at hp
  exact (hp.acked e he).1.symm

/-- A critical event, acknowledged; then power fails and the service starts again. -/
theorem acknowledged_durable_restart :
    ∃ s l e, Run (step smallTable.codec defaults) (fun a s => writesAtEnd a s = true) .fresh s ∧
      s.live = some l ∧ e ∈ s.acked ∧
      ((∃ n, l.reader.events[e.seq]? = some (e, n)) ∨ e ∈ s.removed) := by
  have hcheck : (execIf (step smallTable.codec defaults) writesAtEnd
      (.start 0 1 1 :: startUp ++ [criticalOne, .writer .done, .writer .done] ++ appended
          ++ [.crash 0 false, .start 0 1 2]) .fresh).any (fun s =>
        s.live.isSome && decide (uploadStaged 2 1 ∈ s.acked)) = true := by
    decide +kernel
  obtain ⟨s, hrun, hs⟩ := StepSystem.exists_of_execIf hcheck
  simp only [Bool.and_eq_true, decide_eq_true_eq, Option.isSome_iff_exists] at hs
  obtain ⟨⟨l, hl⟩, hacked⟩ := hs
  exact ⟨s, l, _, hrun, hl, hacked, acknowledged_durable hrun hl hacked⟩

/-- A second critical event is queued while the write of the first stops after nine
    bytes and cannot be rolled back.  The second is written behind those bytes,
    synced and acknowledged; start-up cuts the journal in front of both. -/
theorem acknowledged_lost_behind_remains :
    ∃ s l e, exec (step smallTable.codec defaults)
        (.start 0 1 1 :: startUp ++ [criticalOne, .writer .done, .writer .done, criticalOne,
            .writer (.wrote 9), .writer .failed, .writer .done, .writer .done, .writer .done]
          ++ appended ++ [.crash 0 false, .start 0 1 2]) .fresh = some s ∧
      s.live = some l ∧ e ∈ s.acked ∧
      ¬ ((∃ n, l.reader.events[e.seq]? = some (e, n)) ∨ e ∈ s.removed) := by
  have hcheck : (exec (step smallTable.codec defaults)
      (.start 0 1 1 :: startUp ++ [criticalOne, .writer .done, .writer .done, criticalOne,
            .writer (.wrote 9), .writer .failed, .writer .done, .writer .done, .writer .done]
          ++ appended ++ [.crash 0 false, .start 0 1 2]) .fresh).any (fun s =>
        decide (uploadStaged 3 1 ∈ s.acked) && decide (uploadStaged 3 1 ∉ s.removed) &&
          s.live.any fun l => (l.reader.events[3]?).isNone) = true := by
    decide +kernel
  obtain ⟨s, hexec, hs⟩ := StepSystem.exists_of_exec hcheck
  simp only [Bool.and_eq_true, decide_eq_true_eq] at hs
  obtain ⟨⟨hacked, hkept⟩, hlive⟩ := hs
  obtain ⟨l, hl, hgone⟩ := (Option.any_eq_true _ _).mp hlive
  refine ⟨s, l, _, hexec, hl, hacked, fun h => ?_⟩
  rcases h with ⟨n, hn⟩ | h
  · have hnone : l.reader.events[3]? = none := by simpa using hgone
    rw [show (uploadStaged 3 1).seq = 3 from rfl, hnone] at hn
    cases hn
  · exact hkept h

end VivadoServer.History
