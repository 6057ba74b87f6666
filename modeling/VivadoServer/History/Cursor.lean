/-
  VivadoServer.History.Cursor

  Whether a cursor that was handed out can be used again.  Within a lifetime the
  producer counter is never below the head.  A lifetime that follows a crash
  counts from what start-up recovers, which is at least the durable cursor of
  the disk (`Disk.cursor`); but the idle branch raises the head before it
  persists it.  `cursor_never_reused` covers every run whose crashes find the
  head that was handed out durable.
-/

import VivadoServer.History.Collector
import VivadoServer.History.Frame

namespace VivadoServer.History

open StepSystem (Run exec execIf)

variable {cd : Codec} {opts : Options} {s t : Sys} {l : Live}

/-! ## The durable cursor -/

/-- The highest sequence of the intact lines before the first damaged one. -/
def lineHead (cd : Codec) : List Bytes → Nat
  | [] => 0
  | line :: rest =>
    if eventLimit < line.length ∨ line.getLast? ≠ some newline then 0
    else
      match cd.fromSlice line with
      | none => 0
      | some event => max event.seq (lineHead cd rest)

/-- The cursor of `state.json`, the end of its gaps, and the last intact line of
    the synced part of the journal, whichever is highest. -/
def Disk.cursor (cd : Codec) (disk : Disk) : Nat :=
  max (disk.state.elim 0 fun state => max state.nextCursor (gapHead state.gaps))
    (lineHead cd (Lines.split newline (disk.journal.bytes.take disk.journal.synced)))

/-- Lines behind a damaged one do not matter, and a torn line is damaged. -/
theorem lineHead_append_le (lines rest : List Bytes) {torn : Bytes} (htorn : newline ∉ torn) :
    lineHead cd (lines ++ if torn = [] then [] else [torn]) ≤ lineHead cd (lines ++ rest) := by
  induction lines with
  | nil =>
      split
      · exact Nat.zero_le _
      · rename_i hne
        have hlast : torn.getLast? ≠ some newline := fun h => htorn (List.mem_of_getLast? h)
        simp [lineHead, hlast]
  | cons line lines ih =>
      simp only [List.cons_append, lineHead]
      split
      · exact le_rfl
      · split
        · exact le_rfl
        · exact max_le_max le_rfl ih

/-- More bytes behind a text only raise its head. -/
theorem lineHead_mono {a b : Bytes} (h : a <+: b) :
    lineHead cd (Lines.split newline a) ≤ lineHead cd (Lines.split newline b) := by
  obtain ⟨rest, rfl⟩ := h
  obtain ⟨ls, torn, rfl, hls, htorn⟩ := Lines.exists_lines_torn newline a
  rw [Lines.split_lines hls, Lines.split_torn htorn, List.append_assoc, Lines.split_lines hls]
  exact lineHead_append_le _ _ htorn

/-- What a crash leaves begins with the synced bytes, and all of it is durable. -/
theorem le_crash_bytes (f : File) (keep : Nat) (old : Bool) :
    f.bytes.take f.synced <+: (f.crash keep old).bytes := by
  unfold File.crash File.durable
  split
  · exact List.prefix_append _ _
  · exact List.take_prefix_take_left (Nat.le_add_right _ _)

theorem crash_synced (f : File) (keep : Nat) (old : Bool) :
    (f.crash keep old).bytes.take (f.crash keep old).synced = (f.crash keep old).bytes :=
  List.take_length

/-- A crash does not lower the durable cursor. -/
theorem cursor_le_crash (disk : Disk) (keep : Nat) (old : Bool) :
    disk.cursor cd ≤ Disk.cursor cd { disk with journal := disk.journal.crash keep old } := by
  unfold Disk.cursor
  dsimp only
  rw [crash_synced]
  exact max_le_max le_rfl (lineHead_mono (le_crash_bytes ..))

/-! ## Recovery -/

/-- Replay reaches every intact line. -/
theorem lineHead_le_replay {persisted : Nat} {lines : List Bytes} {position : Nat} {r r' : Reader}
    {position' : Nat} {damaged : Bool}
    (h : replay cd persisted lines position r = .ok (r', position', damaged)) :
    max r.state.nextCursor (lineHead cd lines) ≤ r'.state.nextCursor := by
  induction lines generalizing position r with
  | nil =>
      simp only [replay, Except.ok.injEq, Prod.mk.injEq] at h
      rw [← h.1, lineHead]
      simp
  | cons line lines ih =>
      rw [replay] at h
      dsimp only at h
      unfold lineHead
      split at h
      · rename_i hdamaged
        rw [if_pos hdamaged]
        simp only [Except.ok.injEq, Prod.mk.injEq] at h
        rw [← h.1]
        simp
      · rename_i hintact
        rw [if_neg hintact]
        cases hread : cd.fromSlice line with
        | none =>
            rw [hread] at h
            simp only [Except.ok.injEq, Prod.mk.injEq] at h
            rw [← h.1]
            simp
        | some event =>
            rw [hread] at h
            dsimp only at h
            split at h
            · cases h
            · have hrest := ih h
              rw [replayEvent_nextCursor, max_assoc] at hrest
              exact hrest

/-- Start-up recovers at least the durable cursor. -/
theorem cursor_le_load {now : Int} {journalId instanceId : Uuid} {disk : Disk} {d : Loaded}
    (h : load cd opts now journalId instanceId disk = .ok d) :
    disk.cursor cd ≤ d.reader.state.nextCursor := by
  have hd := load_sound h
  obtain ⟨state, r, damaged, hopen, hreplay, hreplayed, -, -⟩ := load_stages h
  have hlines := lineHead_le_replay hreplay
  obtain ⟨-, hreplays⟩ := replay_restored (restored_empty state) hreplay
  obtain ⟨hhead, hwithin, hgaps⟩ := coverGapHead_spec r.state
  obtain ⟨htail, -⟩ := coverDamagedTail_spec damaged hwithin
  have hrecovered : (coverGapHead r.state).nextCursor ≤ d.reader.state.nextCursor := by
    rw [hd.retires.nextCursor, hreplayed]
    exact htail.nextCursor
  have hstate : (disk.state.elim 0 fun state => max state.nextCursor (gapHead state.gaps))
      ≤ d.reader.state.nextCursor := by
    unfold openState at hopen
    split at hopen
    · rename_i old hold
      split at hopen
      · cases hopen
      · split at hopen
        · cases hopen
        · cases hopen
          rw [hold, Option.elim_some]
          rw [hreplays.gaps] at hgaps
          exact max_le ((le_max_left _ _).trans (hlines.trans (hhead.nextCursor.trans hrecovered)))
            (hgaps.trans hrecovered)
    · rename_i hnone
      rw [hnone]
      exact Nat.zero_le _
  refine max_le hstate ((lineHead_mono (List.take_prefix _ _)).trans ?_)
  exact (le_max_right _ _).trans (hlines.trans (hhead.nextCursor.trans hrecovered))

/-! ## New events -/

/-- The events an action numbers lie above the producer counter. -/
def Numbers (s t : Sys) (n : Nat) : Prop :=
  ∃ new, t.created = s.created ++ new ∧ ∀ e ∈ new, n < e.seq

theorem Numbers.same {n : Nat} (h : t.created = s.created) : Numbers s t n :=
  ⟨[], by rw [h, List.append_nil], by simp⟩

theorem Numbers.of_range {n k : Nat} {new : List Event} (h : t.created = s.created ++ new)
    (hseqs : new.map Event.seq = List.range' (n + 1) k) : Numbers s t n := by
  refine ⟨new, h, fun e he => ?_⟩
  have hmem : e.seq ∈ List.range' (n + 1) k := hseqs ▸ List.mem_map_of_mem he
  exact (mem_range'_succ.mp hmem).1

theorem writerStep_numbers {choice : Choice} (hstep : writerStep cd opts choice s l = some t) :
    Numbers s t l.producer := by
  unfold writerStep at hstep
  split at hstep
  case h_1 | h_2 =>
    obtain ⟨l', rfl⟩ := receiveStep_frame hstep
    exact .same rfl
  case h_3 | h_4 | h_5 | h_6 =>
    obtain ⟨file, l', rfl⟩ := writeStep_frame hstep
    exact .same rfl
  case h_7 | h_8 | h_9 | h_10 | h_11 =>
    exact .same (publishStep_frame hstep).2.1
  case h_12 | h_13 =>
    rcases saveStep_frame hstep with ⟨disk, l', rfl⟩ | ⟨now, -, rfl⟩
    · exact .same rfl
    · exact .of_range rfl (stampStartup_spec ..).2
  case h_14 | h_15 | h_16 | h_17 | h_18 =>
    exact .same (idleStep_frame hstep).2.2.1
  all_goals cases hstep

/-- Every action of a living service numbers new events above its counter. -/
theorem step_numbers {a : Act} (ha : a.isLive = true) (hs : s.live = some l)
    (hstep : step cd opts a s = some t) : Numbers s t l.producer := by
  have hstamped := fun (events : List Event) =>
    (stamp_spec cd l.reader.state.instanceId l.producer events).2
  unfold step at hstep
  rw [hs] at hstep
  split at hstep
  · rename_i event l₁ heq
    cases heq
    split at hstep
    · cases hstep
      have henqueue := (enqueue_cases cd [event] false l).1
      exact .of_range (congrArg (s.created ++ ·) henqueue) (hstamped [event])
    · cases hstep
  · rename_i events l₁ heq
    cases heq
    split at hstep
    · cases hstep
      have henqueue := (enqueue_cases cd events true l).1
      exact .of_range (congrArg (s.created ++ ·) henqueue) (hstamped events)
    · cases hstep
  · cases hstep
    exact .same rfl
  · rename_i choice l₁ heq
    cases heq
    exact writerStep_numbers hstep
  · cases ha
  · rename_i heq
    cases heq
  · cases hstep

/-! ## Runs across crashes -/

/-- Every crash finds at least `c` durable. -/
def CrashesAbove (cd : Codec) (c : Nat) (a : Act) (s : Sys) : Prop :=
  a.isCrash = true → c ≤ s.disk.cursor cd

/-- The head, or what will be recovered of it, is at least `c`. -/
def Sys.Floor (cd : Codec) (c : Nat) (s : Sys) : Prop :=
  match s.live with
  | some l => l.Wf ∧ c ≤ l.reader.state.nextCursor
  | none => c ≤ s.disk.cursor cd

theorem Numbers.mono {n m : Nat} (h : Numbers s t n) (hle : m ≤ n) : Numbers s t m := by
  obtain ⟨new, hcreated, hnew⟩ := h
  exact ⟨new, hcreated, fun e he => hle.trans_lt (hnew e he)⟩

theorem Numbers.trans {u : Sys} {n : Nat} (h : Numbers s t n) (h' : Numbers t u n) :
    Numbers s u n := by
  obtain ⟨new, hcreated, hnew⟩ := h
  obtain ⟨new', hcreated', hnew'⟩ := h'
  refine ⟨new ++ new', by rw [hcreated', hcreated, List.append_assoc], fun e he => ?_⟩
  rcases List.mem_append.mp he with he | he
  · exact hnew e he
  · exact hnew' e he

/-- A step that meets the condition keeps the floor and numbers above it. -/
theorem floor_step {c : Nat} {a : Act} (hfloor : s.Floor cd c) (hok : CrashesAbove cd c a s)
    (hstep : step cd opts a s = some t) : t.Floor cd c ∧ Numbers s t c := by
  rcases act_cases a with ha | ⟨keep, old, rfl⟩ | ⟨now, journalId, instanceId, rfl⟩
  · obtain ⟨l, hl⟩ := live_of_step ha hstep
    unfold Sys.Floor at hfloor ⊢
    rw [hl] at hfloor
    obtain ⟨l', hl', hadv⟩ := step_run hfloor.1 ha hl hstep
    rw [hl']
    have hhead : l.reader.state.nextCursor ≤ l'.reader.state.nextCursor := hadv.run.head_le
    have hcounter : l.reader.state.nextCursor ≤ l.producer := hfloor.1.ordered.head_le
    exact ⟨⟨hadv.wf, hfloor.2.trans hhead⟩,
      (step_numbers ha hl hstep).mono (hfloor.2.trans hcounter)⟩
  · have hcursor := hok rfl
    cases hstep
    exact ⟨hcursor.trans (cursor_le_crash s.disk keep old), .same rfl⟩
  · obtain ⟨d, l, hload, hl, hreader, -, -, -, hwf⟩ := start_wf hstep
    have hnone : s.live = none := by
      cases hs : s.live with
      | none => rfl
      | some l => simp [step, hs] at hstep
    have hcreated : t.created = s.created := by
      simp only [step, hnone] at hstep
      split at hstep <;> cases hstep
      rfl
    unfold Sys.Floor at hfloor ⊢
    rw [hnone] at hfloor
    rw [hl]
    refine ⟨⟨hwf, ?_⟩, .same hcreated⟩
    rw [hreader]
    exact hfloor.trans (cursor_le_load hload)

/-- Along a run whose crashes find the head of some page durable, every new
    event has a sequence above the cursors of that page. -/
theorem cursor_never_reused {after limit : Nat} {p : Page}
    (hreach : Run (step cd opts) (fun _ _ => True) Sys.fresh s) (hl : s.live = some l)
    (hafter : after ≤ l.reader.state.nextCursor)
    (hpage : page l.reader l.healthy after limit = .ok p)
    (hrun : Run (step cd opts) (CrashesAbove cd l.reader.state.nextCursor) s t) :
    ∃ new, t.created = s.created ++ new ∧
      ∀ e ∈ new, p.nextCursor < e.seq ∧ p.headCursor < e.seq := by
  have hwf := reachable_wf hreach l hl
  have hnext := page_nextCursor_le hwf.sound hpage
  obtain ⟨-, -, -, -, -, -, -, -, -, hhead⟩ := page_spec hpage
  have hfloor : s.Floor cd l.reader.state.nextCursor := by
    unfold Sys.Floor
    rw [hl]
    exact ⟨hwf, le_rfl⟩
  obtain ⟨new, hcreated, hnew⟩ := hrun.related (R := fun s t =>
      Numbers s t l.reader.state.nextCursor) (fun s => .same rfl) (fun _ _ _ h h' => h.trans h')
    (fun _ _ _ hi hok hstep => (floor_step hi hok hstep).1)
    (fun _ _ _ hi hok hstep => (floor_step hi hok hstep).2) hfloor
  refine ⟨new, hcreated, fun e he => ?_⟩
  have hlt := hnew e he
  omega

/-- A page that returns cursor 2 after the idle branch persisted it: the next
    lifetime begins with event 3. -/
theorem cursor_never_reused_persisted :
    ∃ s l p t new, Run (step smallTable.codec defaults) (fun _ _ => True) Sys.fresh s ∧
      s.live = some l ∧ page l.reader l.healthy 1 256 = .ok p ∧ p.nextCursor = 2 ∧
      exec (step smallTable.codec defaults) crashAndRestart s = some t ∧
      t.created = s.created ++ new ∧ ∀ e ∈ new, p.nextCursor < e.seq ∧ p.headCursor < e.seq := by
  have hcheck : (exec (step smallTable.codec defaults)
      (.start 0 1 1 :: startUp ++ enqueueOne ++ failedWrite ++ idleMerge ++ [.writer .done])
      Sys.fresh).any (fun s =>
        (s.live.any fun l => decide (l.reader.state.nextCursor = 2) &&
          match page l.reader l.healthy 1 256 with
          | .ok p => decide (p.nextCursor = 2)
          | .error _ => false) &&
        (execIf (step smallTable.codec defaults)
          (fun a s => !a.isCrash || decide (2 ≤ s.disk.cursor smallTable.codec))
          crashAndRestart s).isSome) = true := by
    decide +kernel
  obtain ⟨s, hreach, hs⟩ := StepSystem.exists_of_exec hcheck
  obtain ⟨hlive, hrun⟩ := Bool.and_eq_true_iff.mp hs
  obtain ⟨l, hl, hl'⟩ := (Option.any_eq_true _ _).mp hlive
  obtain ⟨hhead, hpage⟩ := Bool.and_eq_true_iff.mp hl'
  obtain ⟨t, ht⟩ := Option.isSome_iff_exists.mp hrun
  rw [decide_eq_true_eq] at hhead
  split at hpage
  · rename_i p hp
    have hok : Run (step smallTable.codec defaults)
        (CrashesAbove smallTable.codec l.reader.state.nextCursor) s t := by
      refine (Run.of_execIf ht).mono fun a s hok hcrash => ?_
      rw [hhead]
      simpa [hcrash] using hok
    obtain ⟨new, hcreated, hnew⟩ :=
      cursor_never_reused (Run.of_exec hreach) hl (by omega) hp hok
    exact ⟨s, l, p, t, new, Run.of_exec hreach, hl, hp, of_decide_eq_true hpage,
      StepSystem.exec_of_execIf ht, hcreated, hnew⟩
  · cases hpage

/-- A page that returns cursor 2 before the idle branch has persisted it: power
    fails, and the next lifetime of the same journal begins with event 2. -/
theorem cursor_reused_after_crash :
    ∃ s l p t, exec (step smallTable.codec defaults)
        (.start 0 1 1 :: startUp ++ enqueueOne ++ failedWrite ++ idleMerge) Sys.fresh = some s ∧
      s.live = some l ∧ page l.reader l.healthy 1 256 = .ok p ∧ p.nextCursor = 2 ∧
      exec (step smallTable.codec defaults) crashAndRestart s = some t ∧
      t.created = s.created ++ [serviceStarted 2 2] ∧
      t.live.map (·.reader.state.journalId) = some p.journalId := by
  have hcheck : (exec (step smallTable.codec defaults)
      (.start 0 1 1 :: startUp ++ enqueueOne ++ failedWrite ++ idleMerge) Sys.fresh).any (fun s =>
        s.live.any fun l => match page l.reader l.healthy 1 256 with
          | .ok p => decide (p.nextCursor = 2) &&
            (exec (step smallTable.codec defaults) crashAndRestart s).any fun t =>
              decide (t.created = s.created ++ [serviceStarted 2 2]) &&
              decide (t.live.map (·.reader.state.journalId) = some p.journalId)
          | .error _ => false) = true := by
    decide +kernel
  obtain ⟨s, hexec, hs⟩ := StepSystem.exists_of_exec hcheck
  obtain ⟨l, hl, hpage⟩ := (Option.any_eq_true _ _).mp hs
  split at hpage
  · rename_i p hp
    obtain ⟨hnext, hafter⟩ := Bool.and_eq_true_iff.mp hpage
    obtain ⟨t, ht, hcreated⟩ := StepSystem.exists_of_exec hafter
    simp only [Bool.and_eq_true, decide_eq_true_eq] at hcreated hnext
    exact ⟨s, l, p, t, hexec, hl, hp, hnext, ht, hcreated.1, hcreated.2⟩
  · cases hpage

end VivadoServer.History
