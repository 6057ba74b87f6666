/-
  VivadoServer.History.Recovery

  What start-up has in memory after `load`, whatever it found on the disk: a
  sound reader whose gaps stay within its head, hence a lifetime that satisfies
  `Live.Wf` (`start_wf`).
-/

import VivadoServer.History.Account

namespace VivadoServer.History

open Std (ExtTreeMap)

variable {cd : Codec} {opts : Options}

/-! ## Replay -/

/-- Replaying lines only raises the head and adds events. -/
structure Reader.Replays (r r' : Reader) : Prop where
  nextCursor : r.state.nextCursor ≤ r'.state.nextCursor
  earliest : r'.state.earliestCursor = r.state.earliestCursor
  gaps : r'.state.gaps = r.state.gaps
  windows : r'.state.sessionWindows = r.state.sessionWindows
  headBytes : r'.state.sessionHeadBytes = r.state.sessionHeadBytes

namespace Reader.Replays

variable {r r' r'' : Reader}

theorem refl (r : Reader) : r.Replays r := ⟨le_rfl, rfl, rfl, rfl, rfl⟩

theorem trans (h : r.Replays r') (h' : r'.Replays r'') : r.Replays r'' :=
  ⟨h.nextCursor.trans h'.nextCursor, h'.earliest.trans h.earliest, h'.gaps.trans h.gaps,
    h'.windows.trans h.windows, h'.headBytes.trans h.headBytes⟩

end Reader.Replays

theorem replayState_eq (persisted : Nat) (e : Event) (state : State) : ∃ sessions workflows,
    replayState persisted e state
      = { state with
          nextCursor := max state.nextCursor e.seq
          openSessions := sessions
          openWorkflows := workflows } := by
  unfold replayState
  dsimp only
  split
  · obtain ⟨sessions, workflows, h⟩ :=
      applyLifecycle_eq { state with nextCursor := max state.nextCursor e.seq } e
    exact ⟨sessions, workflows, h⟩
  · exact ⟨_, _, rfl⟩

theorem replayEvent_state (persisted : Nat) (e : Event) (size : Nat) (r : Reader) :
    (replayEvent persisted e size r).state = replayState persisted e r.state := by
  unfold replayEvent
  dsimp only
  split <;> rfl

theorem replayEvent_replays (persisted : Nat) (e : Event) (size : Nat) (r : Reader) :
    r.Replays (replayEvent persisted e size r) := by
  obtain ⟨sessions, workflows, h⟩ := replayState_eq persisted e r.state
  constructor <;> rw [replayEvent_state, h]
  exact le_max_left _ _

/-- The retirement rule looks at the cursor, the windows and the head size only. -/
theorem Reader.Replays.retired {r r' : Reader} (h : r.Replays r') (e : Event) :
    retired r'.state e = History.retired r.state e := by
  unfold History.retired
  rw [h.earliest, h.windows, h.headBytes]

theorem replayEvent_nextCursor (persisted : Nat) (e : Event) (size : Nat) (r : Reader) :
    (replayEvent persisted e size r).state.nextCursor = max r.state.nextCursor e.seq := by
  obtain ⟨sessions, workflows, h⟩ := replayState_eq persisted e r.state
  rw [replayEvent_state, h]

theorem replayEvent_events (persisted : Nat) (e : Event) (size : Nat) (r : Reader) :
    (replayEvent persisted e size r).events
      = if retired r.state e then r.events else r.events.insert e.seq (e, size) := by
  rw [← (replayEvent_replays persisted e size r).retired, replayEvent_state]
  unfold replayEvent
  dsimp only
  split <;> rfl

theorem retired_of_le {state : State} {e : Event} (h : e.seq ≤ state.earliestCursor) :
    retired state e = true := by
  simp [retired, h]

/-- What replay builds is filed, and lies above the persisted `earliest_cursor`. -/
structure Reader.Restored (r : Reader) : Prop where
  filed : r.Filed
  above : ∀ {k : Nat} {v : Event × Nat}, r.events[k]? = some v → r.state.earliestCursor < k

/-- The empty reader that replay begins with. -/
theorem restored_empty (state : State) : Reader.Restored ⟨state, ∅, 0⟩ := by
  constructor
  · constructor <;> intros <;> simp_all
  · intros
    simp_all

theorem replayEvent_restored {persisted : Nat} {e : Event} {size : Nat} {r : Reader}
    (hr : r.Restored) (hseq : e.seq ≠ 0) : (replayEvent persisted e size r).Restored := by
  have hreplays := replayEvent_replays persisted e size r
  have hentry : ∀ {k v}, (replayEvent persisted e size r).events[k]? = some v →
      r.events[k]? = some v ∨ k = e.seq ∧ v = (e, size) ∧ r.state.earliestCursor < e.seq := by
    intro k v hk
    rw [replayEvent_events] at hk
    split at hk
    · exact .inl hk
    · rename_i hkept
      by_cases heq : e.seq = k
      · subst heq
        rw [OrderedMap.getElem?_insert_self', Option.some.injEq] at hk
        exact .inr ⟨rfl, hk.symm, not_le.mp fun hle => hkept (retired_of_le hle)⟩
      · rw [OrderedMap.getElem?_insert_of_ne heq] at hk
        exact .inl hk
  refine ⟨⟨fun hk => ?_, fun hk => ?_, fun hk => ?_⟩, fun hk => ?_⟩
  · rcases hentry hk with h | ⟨rfl, h, -⟩
    · exact hr.filed.key h
    · rw [Prod.mk.injEq] at h
      rw [h.1]
  · rcases hentry hk with h | ⟨rfl, -, -⟩
    · exact hr.filed.positive h
    · exact Nat.pos_of_ne_zero hseq
  · rw [replayEvent_nextCursor]
    rcases hentry hk with h | ⟨rfl, -, -⟩
    · exact (hr.filed.below h).trans (le_max_left _ _)
    · exact le_max_right _ _
  · rw [hreplays.earliest]
    rcases hentry hk with h | ⟨rfl, -, h⟩
    · exact hr.above h
    · exact h

/-- The line loop, whatever the lines are. -/
theorem replay_restored {persisted : Nat} {lines : List Bytes} {position : Nat} {r r' : Reader}
    {position' : Nat} {damaged : Bool} (hr : r.Restored)
    (h : replay cd persisted lines position r = .ok (r', position', damaged)) :
    r'.Restored ∧ r.Replays r' := by
  induction lines generalizing position r with
  | nil =>
      simp only [replay, Except.ok.injEq, Prod.mk.injEq] at h
      rw [← h.1]
      exact ⟨hr, .refl r⟩
  | cons line lines ih =>
      have hpartial : ∀ {recording : String} {p : Nat},
          (Except.ok ({ r with state := { r.state with recordingState := recording } }, p, true) :
            Except LoadError (Reader × Nat × Bool)) = .ok (r', position', damaged) →
          r'.Restored ∧ r.Replays r' := by
        intro recording p heq
        simp only [Except.ok.injEq, Prod.mk.injEq] at heq
        rw [← heq.1]
        exact ⟨⟨⟨hr.filed.key, hr.filed.positive, hr.filed.below⟩, hr.above⟩,
          ⟨le_rfl, rfl, rfl, rfl, rfl⟩⟩
      rw [replay] at h
      dsimp only at h
      split at h
      · exact hpartial h
      · split at h
        · exact hpartial h
        · rename_i event _
          split at h
          · cases h
          · rename_i hvalid
            have hseq : event.seq ≠ 0 := fun hz => hvalid (.inl hz)
            obtain ⟨hr', hreplays⟩ := ih (replayEvent_restored hr hseq) h
            exact ⟨hr', (replayEvent_replays ..).trans hreplays⟩

/-! ## Cursor recovery -/

/-- Recovery of the cursor changes the head and the gaps only. -/
structure State.Recovers (state state' : State) : Prop where
  nextCursor : state.nextCursor ≤ state'.nextCursor
  earliest : state'.earliestCursor = state.earliestCursor
  windows : state'.sessionWindows = state.sessionWindows
  headBytes : state'.sessionHeadBytes = state.sessionHeadBytes
  gaps : ∀ {s : Nat}, Covered state.gaps s → Covered state'.gaps s
  fresh : ∀ {s : Nat}, state.nextCursor < s → s ≤ state'.nextCursor → Covered state'.gaps s

theorem State.Recovers.refl (state : State) : state.Recovers state :=
  ⟨le_rfl, rfl, rfl, rfl, id, fun h h' => absurd h (not_lt.mpr h')⟩

theorem State.Recovers.trans {a b c : State} (h : a.Recovers b) (h' : b.Recovers c) :
    a.Recovers c where
  nextCursor := h.nextCursor.trans h'.nextCursor
  earliest := h'.earliest.trans h.earliest
  windows := h'.windows.trans h.windows
  headBytes := h'.headBytes.trans h.headBytes
  gaps hs := h'.gaps (h.gaps hs)
  fresh {s} hlt hle := by
    by_cases hs : s ≤ b.nextCursor
    · exact h'.gaps (h.fresh hlt hs)
    · exact h'.fresh (not_le.mp hs) hle

/-- After `coverGapHead` no gap reaches beyond the head. -/
theorem coverGapHead_spec (state : State) :
    state.Recovers (coverGapHead state) ∧
      Within (coverGapHead state).nextCursor (coverGapHead state).gaps ∧
      gapHead state.gaps ≤ (coverGapHead state).nextCursor := by
  unfold coverGapHead
  dsimp only
  by_cases hnil : state.gaps = []
  · rw [if_pos hnil, if_neg (lt_irrefl _), hnil]
    exact ⟨.refl state, within_nil, Nat.zero_le _⟩
  · rw [if_neg hnil]
    split
    · rename_i hlt
      refine ⟨⟨hlt.le, rfl, rfl, rfl, fun hs => covered_gap_of_covered hs, fun hs hs' => ?_⟩,
        within_gap within_gapHead fun _ => le_rfl, le_rfl⟩
      exact covered_gap_self hs hs' (Nat.zero_lt_of_lt hs)
    · rename_i hle
      exact ⟨.refl state, within_gapHead.mono (not_lt.mp hle), not_lt.mp hle⟩

/-- A damaged tail takes one more sequence. -/
theorem coverDamagedTail_spec (damaged : Bool) {state : State}
    (h : Within state.nextCursor state.gaps) :
    state.Recovers (coverDamagedTail damaged state) ∧
      Within (coverDamagedTail damaged state).nextCursor (coverDamagedTail damaged state).gaps := by
  unfold coverDamagedTail
  split
  · refine ⟨⟨Nat.le_succ _, rfl, rfl, rfl, fun hs => covered_gap_of_covered hs, fun hs hs' => ?_⟩,
      within_gap (h.mono (Nat.le_succ _)) fun _ => le_rfl⟩
    exact covered_gap_self hs hs' (Nat.zero_lt_of_lt hs)
  · exact ⟨.refl state, h⟩

/-! ## `load` -/

/-- The stages of a successful `load`. -/
theorem load_stages {now : Int} {journalId instanceId : Uuid} {disk : Disk} {d : Loaded}
    (h : load cd opts now journalId instanceId disk = .ok d) :
    ∃ state r damaged,
      openState cd opts disk journalId instanceId = .ok state ∧
      replay cd state.nextCursor (Lines.split newline disk.journal.bytes) 0 ⟨state, ∅, 0⟩
        = .ok (r, d.position, damaged) ∧
      d.replayed = { r with state := coverDamagedTail damaged (coverGapHead r.state) } ∧
      d.reader = (prune opts now (rebuildTails opts d.replayed).1
        (rebuildTails opts d.replayed).2).2 ∧
      d.tails = (prune opts now (rebuildTails opts d.replayed).1
        (rebuildTails opts d.replayed).2).1 := by
  unfold load at h
  cases hopen : openState cd opts disk journalId instanceId with
  | error e => rw [hopen] at h; cases h
  | ok state =>
      rw [hopen] at h
      by_cases hsize : opts.maxBytes + gcBytes < disk.journal.bytes.length
      · simp only [if_pos hsize] at h
        cases h
      · simp only [if_neg hsize] at h
        cases hreplay : replay cd state.nextCursor (Lines.split newline disk.journal.bytes) 0
            ⟨state, ∅, 0⟩ with
        | error e =>
            simp only [hreplay, bind, Except.bind] at h
            cases h
        | ok out =>
            obtain ⟨r, position, damaged⟩ := out
            simp only [hreplay, bind, Except.bind, pure, Except.pure] at h
            by_cases hlimit :
                sequenceLimit ≤ (coverDamagedTail damaged (coverGapHead r.state)).nextCursor
            · simp only [if_pos hlimit] at h
              cases h
            · simp only [if_neg hlimit] at h
              cases h
              exact ⟨state, r, damaged, rfl, hreplay, rfl, rfl, rfl⟩

/-- What `load` hands over, whatever was on the disk. -/
structure Loaded.Sound (d : Loaded) : Prop where
  filed : d.replayed.Filed
  within : Within d.replayed.state.nextCursor d.replayed.state.gaps
  retires : d.replayed.Retires d.reader
  sound : d.reader.Sound

theorem rebuildTails_prune (opts : Options) (now : Int) {r : Reader} (hr : r.Filed) :
    r.Retires (prune opts now (rebuildTails opts r).1 (rebuildTails opts r).2).2 ∧
      (prune opts now (rebuildTails opts r).1 (rebuildTails opts r).2).2.Sound := by
  have htails := (rebuildTails_retires opts hr.positive).1
  have hfiled := htails.filed hr
  exact ⟨htails.trans (prune_retires opts now _ hfiled.positive), prune_sound hfiled⟩

theorem load_sound {now : Int} {journalId instanceId : Uuid} {disk : Disk} {d : Loaded}
    (h : load cd opts now journalId instanceId disk = .ok d) : d.Sound := by
  obtain ⟨state, r, damaged, -, hreplay, hreplayed, hreader, -⟩ := load_stages h
  obtain ⟨hrestored, -⟩ := replay_restored (restored_empty state) hreplay
  obtain ⟨hhead, hwithin, -⟩ := coverGapHead_spec r.state
  obtain ⟨htail, hwithin⟩ := coverDamagedTail_spec damaged hwithin
  have hfiled : d.replayed.Filed := by
    rw [hreplayed]
    exact ⟨hrestored.filed.key, hrestored.filed.positive,
      fun hk => (hrestored.filed.below hk).trans (hhead.trans htail).nextCursor⟩
  have hprune := rebuildTails_prune opts now hfiled
  rw [← hreader] at hprune
  exact ⟨hfiled, by rw [hreplayed]; exact hwithin, hprune.1, hprune.2⟩

/-- The state that start-up begins with has the persisted bounds. -/
theorem openState_bounds {disk : Disk} {journalId instanceId : Uuid} {state : State}
    (h : openState cd opts disk journalId instanceId = .ok state) :
    (disk.state = none ∧ state.earliestCursor = 0) ∨
      ∃ old, disk.state = some old ∧ state.earliestCursor = old.earliestCursor ∧
        state.nextCursor = old.nextCursor := by
  unfold openState at h
  split at h
  · rename_i old hold
    split at h
    · cases h
    · split at h <;> cases h
      exact .inr ⟨old, hold, rfl, rfl⟩
  · rename_i hnone
    cases h
    exact .inl ⟨hnone, rfl⟩

/-- Start-up does not move `earliest_cursor` below the persisted one. -/
theorem load_earliestCursor {now : Int} {journalId instanceId : Uuid} {disk : Disk} {d : Loaded}
    (h : load cd opts now journalId instanceId disk = .ok d) {old : State}
    (hold : disk.state = some old) (hbound : old.earliestCursor ≤ old.nextCursor) :
    old.earliestCursor ≤ d.reader.state.earliestCursor := by
  obtain ⟨state, r, damaged, hopen, hreplay, hreplayed, hreader, -⟩ := load_stages h
  obtain ⟨hnone, -⟩ | ⟨old', hold', hearliest, hnext⟩ := openState_bounds hopen
  · rw [hnone] at hold
    cases hold
  · obtain rfl : old = old' := Option.some.inj (hold.symm.trans hold')
    obtain ⟨hrestored, hreplays⟩ := replay_restored (restored_empty state) hreplay
    obtain ⟨hhead, hwithin, -⟩ := coverGapHead_spec r.state
    obtain ⟨htail, -⟩ := coverDamagedTail_spec damaged hwithin
    have hfiled := (load_sound h).filed
    have htails := (rebuildTails_retires opts hfiled.positive).1
    rw [hreader]
    refine le_prune_earliestCursor (htails.positive hfiled.positive) ?_ fun hk => ?_
    · have hup := hreplays.nextCursor.trans (hhead.trans htail).nextCursor
      rw [htails.nextCursor, hreplayed]
      exact hbound.trans (hnext ▸ hup)
    · have hk' := htails.sub hk
      rw [hreplayed] at hk'
      have hlt := hrestored.above hk'
      rw [hreplays.earliest] at hlt
      exact hearliest ▸ hlt

/-- The lifetime that start-up begins with satisfies the invariant. -/
theorem start_wf {now : Int} {journalId instanceId : Uuid} {s t : Sys}
    (h : step cd opts (.start now journalId instanceId) s = some t) :
    ∃ d l, load cd opts now journalId instanceId s.disk = .ok d ∧ t.live = some l ∧
      l.reader = d.reader ∧ l.producer = d.reader.state.nextCursor ∧ l.flight = [] ∧
      l.parked = [] ∧ l.Wf := by
  cases hlive : s.live with
  | some l => simp [step, hlive] at h
  | none =>
      simp only [step, hlive] at h
      split at h
      · cases h
      · rename_i d hload
        cases h
        have hd := load_sound hload
        have hwithin : Within d.reader.state.nextCursor d.reader.state.gaps := by
          rw [hd.retires.nextCursor]
          exact hd.retires.within hd.within hd.filed.below
        refine ⟨d, _, hload, rfl, rfl, rfl, rfl, rfl, hd.sound, ⟨le_rfl, .nil, ?_, ?_, ?_⟩, hwithin,
          within_nil, rfl, ?_, fun _ => rfl, trivial⟩
        · intro x hx
          cases hx
        · exact fun x hx => hwithin.covered_le hx
        · exact fun x hx => absurd hx covered_nil
        · intro m hm
          cases hm

/-- A step of the whole system is one of a living service, a crash or a start. -/
theorem act_cases (a : Act) : a.isLive = true ∨ (∃ keep old, a = .crash keep old) ∨
    ∃ now journalId instanceId, a = .start now journalId instanceId := by
  cases a with
  | crash keep old => exact .inr (.inl ⟨keep, old, rfl⟩)
  | start now journalId instanceId => exact .inr (.inr ⟨now, journalId, instanceId, rfl⟩)
  | _ => exact .inl rfl

/-- Only a living service takes live steps. -/
theorem live_of_step {a : Act} {s t : Sys} (ha : a.isLive = true)
    (h : step cd opts a s = some t) : ∃ l, s.live = some l := by
  cases hs : s.live with
  | some l => exact ⟨l, rfl⟩
  | none =>
      unfold step at h
      rw [hs] at h
      cases a <;> cases ha <;> cases h

/-- Every lifetime of every run satisfies the invariant. -/
theorem reachable_wf {ok : Act → Sys → Prop} {s : Sys}
    (h : StepSystem.Run (step cd opts) ok Sys.fresh s) : ∀ l, s.live = some l → l.Wf := by
  refine h.invariant (I := fun s => ∀ l, s.live = some l → l.Wf) (fun a s t hinv _ hstep => ?_) ?_
  · rcases act_cases a with ha | ⟨keep, old, rfl⟩ | ⟨now, journalId, instanceId, rfl⟩
    · obtain ⟨l, hl⟩ := live_of_step ha hstep
      obtain ⟨l', hl', hadv⟩ := step_run (hinv l hl) ha hl hstep
      intro l₁ hl₁
      obtain rfl : l' = l₁ := Option.some.inj (hl'.symm.trans hl₁)
      exact hadv.wf
    · intro l₁ hl₁
      cases hstep
      cases hl₁
    · obtain ⟨d, l, -, hl, -, -, -, -, hwf⟩ := start_wf hstep
      intro l₁ hl₁
      obtain rfl : l = l₁ := Option.some.inj (hl.symm.trans hl₁)
      exact hwf
  · intro l hl
    cases hl

end VivadoServer.History
