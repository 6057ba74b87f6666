/-
  VivadoServer.History.Restart

  A restart accounts for every sequence (`restart_complete`): in every run in which
  batches are written at the end of an intact file and crashes find what memory
  lists as lost saved, start-up recovers a complete reader.  Start-up
  establishes the invariant of a lifetime, every step keeps it, and a crash
  turns it into what start-up needs.
-/

import VivadoServer.History.Directory

namespace VivadoServer.History

open Std (ExtTreeMap)
open StepSystem (Run exec execIf)

variable {cd : Codec} {opts : Options} {s t : Sys} {l l' : Live} {es : List Event} {e : Event}
  {floor : Nat}

/-! ## Start-up -/

/-- Between two lifetimes: the directory accounts for everything it reaches, and
    its windows and cursors are in order. -/
structure Sys.Whole (cd : Codec) (opts : Options) (s : Sys) : Prop where
  accounts : ∀ x, 0 < x → s.disk.Reaches cd opts x → s.disk.Accounts cd opts x
  earliest : (s.disk.saved opts).earliestCursor ≤ (s.disk.saved opts).nextCursor
  counted : ∀ {id : Uuid} {start : Nat}, (s.disk.saved opts).sessionWindows[id]? = some start →
    start ≤ outputCount s.outputBytes id

/-- Replay reaches the persisted cursor or a line. -/
theorem replayEvents_reaches (cd : Codec) (persisted : Nat) (es : List Event) (r : Reader) {x : Nat}
    (hx : x ≤ (replayEvents cd persisted es r).state.nextCursor) :
    x ≤ r.state.nextCursor ∨ ∃ e ∈ es, x ≤ e.seq := by
  induction es generalizing r with
  | nil => exact .inl hx
  | cons e es ih =>
      rw [replayEvents_cons] at hx
      rcases ih _ hx with hle | ⟨e', he', hle⟩
      · rw [replayEvent_nextCursor] at hle
        rcases le_max_iff.mp hle with hle | hle
        · exact .inl hle
        · exact .inr ⟨e, List.mem_cons_self, hle⟩
      · exact .inr ⟨e', List.mem_cons_of_mem _ he', hle⟩

/-- The state that start-up begins with says what the directory says. -/
theorem openState_saved {disk : Disk} {journalId instanceId : Uuid} {state : State}
    (h : openState cd opts disk journalId instanceId = .ok state) :
    state.nextCursor = (disk.saved opts).nextCursor ∧ state.gaps = (disk.saved opts).gaps ∧
      state.earliestCursor = (disk.saved opts).earliestCursor ∧
      state.sessionWindows = (disk.saved opts).sessionWindows ∧
      state.sessionHeadBytes = opts.sessionHeadBytes ∧
      ∀ e, retired state e = disk.hides opts e := by
  unfold openState at h
  unfold Disk.hides Disk.saved
  split at h
  · rename_i old hold
    rw [hold, Option.getD_some]
    split at h
    · cases h
    · split at h <;> cases h
      exact ⟨rfl, rfl, rfl, rfl, rfl, fun e => rfl⟩
  · rename_i hnone
    rw [hnone, Option.getD_none]
    cases h
    exact ⟨rfl, rfl, rfl, rfl, rfl, fun e => rfl⟩

/-- Where the retained events of a reader begin. -/
def Reader.low (r : Reader) : Nat :=
  match r.events.keys.head? with
  | some seq => seq - 1
  | none => r.state.nextCursor

theorem Reader.Filed.low_lt {r : Reader} (hr : r.Filed) {k : Nat} {v : Event × Nat}
    (hk : r.events[k]? = some v) : r.low < k := by
  unfold Reader.low
  cases hmin : r.events.keys.head? with
  | none =>
      rw [OrderedMap.head?_keys_eq_none hmin] at hk
      cases hk
  | some seq =>
      obtain ⟨⟨v', hv'⟩, hle⟩ := OrderedMap.head?_keys_eq_some hmin
      have hseq : 0 < seq := hr.positive hv'
      have hk' : seq ≤ k := hle k v hk
      show seq - 1 < k
      omega

theorem Reader.Filed.low_le {r : Reader} (hr : r.Filed) : r.low ≤ r.state.nextCursor := by
  unfold Reader.low
  cases hmin : r.events.keys.head? with
  | none => exact le_rfl
  | some seq =>
      obtain ⟨⟨v', hv'⟩, -⟩ := OrderedMap.head?_keys_eq_some hmin
      exact (Nat.sub_le _ _).trans (hr.below hv')

theorem Reader.le_low {r : Reader} {x : Nat} (hx : x ≤ r.state.nextCursor)
    (h : ∀ {k : Nat} {v : Event × Nat}, r.events[k]? = some v → x < k) : x ≤ r.low := by
  unfold Reader.low
  cases hmin : r.events.keys.head? with
  | none => exact hx
  | some seq =>
      obtain ⟨⟨v', hv'⟩, -⟩ := OrderedMap.head?_keys_eq_some hmin
      exact Nat.le_sub_one_of_lt (h hv')

/-- What start-up replays from a directory that accounts for everything it
    reaches: every sequence up to the recovered cursor is retained, in a gap, or
    older than everything that is retained. -/
theorem replayed_accounts {now : Int} {journalId instanceId : Uuid} {d : Loaded}
    (h : s.Whole cd opts) (hj : s.disk.Journaled cd s.outputBytes es)
    (hload : load cd opts now journalId instanceId s.disk = .ok d) {x : Nat} (hpos : 0 < x)
    (hx : x ≤ d.replayed.state.nextCursor) :
    x ∈ d.replayed.events ∨ Covered d.replayed.state.gaps x ∨ x ≤ d.replayed.low := by
  obtain ⟨state, lost, torn, hopen, hbytes, htorn, hlawful, hordered, -, hevents, hrecovers⟩ :=
    load_journaled hj hload
  obtain ⟨hnext, hgaps, hearliest, -, -, hretired⟩ := openState_saved hopen
  obtain ⟨hreplays, -, hkeeps, honly⟩ :=
    replayEvents_spec cd state.nextCursor hordered ⟨state, ∅, 0⟩
  have hlines : cd.lines s.disk.journal.bytes = es ++ lost := by
    rw [hbytes, lines_append, lines_torn cd htorn, List.append_nil]
  by_cases hfresh : x ≤ (replayEvents cd state.nextCursor (es ++ lost) ⟨state, ∅, 0⟩).state.nextCursor
  · have hreach : s.disk.Reaches cd opts x := by
      rcases replayEvents_reaches cd _ _ _ hfresh with hle | hle
      · exact .inl (hnext ▸ hle)
      · exact .inr (hlines ▸ hle)
    have hlow : (∀ e ∈ es ++ lost, s.disk.hides opts e = false → x < e.seq) →
        x ≤ d.replayed.low := by
      intro hall
      refine Reader.le_low hx fun {k v} hk => ?_
      rw [hevents] at hk
      rcases honly hk with hempty | ⟨hmem, hseq, hkept⟩
      · simp at hempty
      · exact hseq ▸ hall v.1 hmem (hretired v.1 ▸ hkept)
    rcases h.accounts x hpos hreach with hgap | ⟨e, he, rfl, hkept⟩ | hold | hall
    · refine .inr (.inl (hrecovers.gaps ?_))
      rw [hreplays.gaps]
      exact hgaps ▸ hgap
    · refine .inl (OrderedMap.mem_iff_exists.mpr ⟨(e, (cd.line e).length), ?_⟩)
      rw [hevents]
      exact hkeeps e (hlines ▸ he) ((hretired e).trans hkept)
    · refine .inr (.inr (hlow fun e _ hkept => ?_))
      by_contra hle
      have hhidden : s.disk.hides opts e = true := by
        rw [Disk.hides, decide_eq_true ((not_lt.mp hle).trans hold), Bool.true_or]
      rw [hhidden] at hkept
      cases hkept
    · exact .inr (.inr (hlow (hlines ▸ hall)))
  · exact .inr (.inl (hrecovers.fresh (not_le.mp hfresh) hx))

/-- The reader of a new lifetime is complete, its tail index is in order, and no
    window hides what it holds. -/
theorem start_restartable {now : Int} {journalId instanceId : Uuid} (h : s.Whole cd opts)
    (hj : s.Journaled cd es) (hstep : step cd opts (.start now journalId instanceId) s = some t) :
    ∃ d l floor, load cd opts now journalId instanceId s.disk = .ok d ∧ d.reader.Complete ∧
      t.live = some l ∧ ∀ es', t.Journaled cd es' → l.Restartable cd opts t es' floor := by
  obtain ⟨d, l, hload, hl, hreader, hproducer, hflight, hparked, hwf⟩ := start_wf hstep
  have hd := load_sound hload
  have hnone : s.live = none := by
    cases hs : s.live with
    | none => rfl
    | some l => simp [step, hs] at hstep
  have hdurable : s.disk.journal = .durable s.disk.journal.bytes := by
    unfold Sys.Journaled at hj
    rw [hnone] at hj
    exact hj.2
  obtain ⟨state, lost, torn, hopen, hbytes, htorn, hlawful, hordered, hposition, hevents, hrecovers⟩ :=
    load_journaled hj.disk hload
  obtain ⟨hnext, -, hearliest, hwindows, -, hretired⟩ := openState_saved hopen
  obtain ⟨hreplays, -, hkeeps, honly⟩ :=
    replayEvents_spec cd state.nextCursor hordered ⟨state, ∅, 0⟩
  obtain ⟨-, r, -, -, -, -, hprune, htails⟩ := load_stages hload
  -- What replay holds are lines that no window hides.
  have hheld : ∀ {k : Nat} {e : Event} {n : Nat}, d.replayed.events[k]? = some (e, n) →
      e ∈ es ++ lost ∧ s.disk.hides opts e = false := by
    intro k e n hk
    rw [hevents] at hk
    rcases honly hk with hempty | ⟨hmem, -, hkept⟩
    · simp at hempty
    · exact ⟨hmem, hretired e ▸ hkept⟩
  have hreplayedWindows :
      d.replayed.state.sessionWindows = (s.disk.saved opts).sessionWindows :=
    (hrecovers.windows.trans hreplays.windows).trans hwindows
  have hwin : Unhidden opts.sessionHeadBytes (s.disk.saved opts).sessionWindows d.replayed []
      s.outputBytes := by
    refine ⟨fun hk => ?_, fun e he => (by cases he), h.counted⟩
    have hkept := (hheld hk).2
    rw [Disk.hides, Bool.or_eq_false_iff] at hkept
    exact hkept.2
  have hvalues : ∀ e ∈ d.replayed.values, e ∈ es ++ lost := by
    intro e he
    obtain ⟨k, n, hk⟩ := mem_values he
    exact (hheld hk).1
  obtain ⟨hindexed, hshown⟩ := rebuildTails_indexed hd.filed
    ((values_sorted hd.filed).imp_of_mem fun ha hb hlt =>
      precedes_of_lt hordered (hvalues _ ha) (hvalues _ hb) hlt)
    (fun e he id hout hid => (hlawful e (hvalues e he)).counted hout hid)
    (hreplayedWindows ▸ hwin)
  have htailsRetires := (rebuildTails_retires opts hd.filed.positive).1
  obtain ⟨hindexed, hshown⟩ := prune_indexed opts now
    (htailsRetires.positive hd.filed.positive) hindexed hshown
  rw [← hprune, ← htails] at hindexed
  rw [← hprune] at hshown
  -- The floor is where the replayed events begin.
  have hlow : d.replayed.low ≤ d.reader.state.earliestCursor := by
    rw [hprune]
    refine le_prune_earliestCursor (htailsRetires.positive hd.filed.positive) ?_
      fun hk => hd.filed.low_lt (htailsRetires.sub hk)
    rw [htailsRetires.nextCursor]
    exact hd.filed.low_le
  have haccounts : ∀ x, 0 < x → x ≤ d.reader.state.nextCursor →
      x ∈ d.reader.events ∨ Covered d.reader.state.gaps x ∨ x ≤ d.replayed.low := by
    intro x hpos hx
    rw [hd.retires.nextCursor] at hx
    rcases replayed_accounts h hj.disk hload hpos hx with hin | hgap | hle
    · exact (hd.retires.kept hin).imp_right .inl
    · exact .inr (.inl (hd.retires.gaps hgap))
    · exact .inr (.inr hle)
  refine ⟨d, l, d.replayed.low, hload, fun x hpos hx => ?_, hl, fun es' hj' => ?_⟩
  · rcases haccounts x hpos hx with hin | hgap | hle
    · exact .inl hin
    · exact .inr (.inl hgap)
    · exact .inr (.inr (hle.trans hlow))
  simp only [step, hnone, hload] at hstep
  cases hstep
  cases hl
  have hlength : (s.disk.journal.setLen d.position).bytes = cd.encode (es ++ lost) := by
    simp [File.setLen, hbytes, hposition]
  have hes' : es' ⊆ es ++ lost := by
    obtain ⟨tail, htail, -⟩ := hj'.disk.bytes
    have hlines := congrArg cd.lines (hlength.symm.trans htail)
    rw [lines_encode, lines_append] at hlines
    rw [hlines]
    exact List.subset_append_left _ _
  refine ⟨fun x hx => ?_, hlow, .inr fun e he hkept => ?_, ?_, h.earliest, hindexed, hshown,
    hwin.sub hd.retires.sub (fun e he => he) fun _ => le_rfl, fun hpc => (by cases hpc), ?_, ?_⟩
  · rcases Nat.eq_zero_or_pos x with rfl | hpos
    · exact .inl (Nat.zero_le _)
    · rcases haccounts x hpos hx with hin | hgap | hle
      · exact .inr (.inl hin)
      · exact .inr (.inr (.inl hgap))
      · exact .inl hle
  · refine hd.filed.low_lt (v := (e, (cd.line e).length)) ?_
    rw [hevents]
    exact hkeeps e (hes' he) ((hretired e).trans hkept)
  · show (s.disk.saved opts).nextCursor ≤ d.reader.state.nextCursor
    rw [hd.retires.nextCursor, ← hnext]
    exact hreplays.nextCursor.trans hrecovers.nextCursor
  · have hdrop : (s.disk.journal.setLen d.position).bytes.drop d.position = [] := by
      rw [hlength, hposition, List.drop_length]
    show Live.Behind _ _ (cd.lines ((s.disk.journal.setLen d.position).bytes.drop d.position))
    rw [hdrop]
    exact behind_nil _ _
  · have hresidue : cd.lines (s.disk.journal.setLen d.position).residue = [] := by
      show cd.lines (if d.position < s.disk.journal.bytes.length then _ else _) = []
      split
      · rw [hbytes, hposition, List.drop_left]
        exact lines_torn cd htorn
      · rw [hdurable]
        rfl
    show Live.Behind _ _ (cd.lines (s.disk.journal.setLen d.position).residue)
    rw [hresidue]
    exact behind_nil _ _

/-! ## The steps -/

variable {choice : Choice} {es' : List Event}

/-- A step that leaves the disk, the tail index and the held events alone, with
    nothing being synced. -/
theorem Live.Restartable.quiet (h : l.Restartable cd opts s es floor) (hwf : l.Wf)
    (hadv : l.Advances l') (hdisk : t.disk = s.disk) (hcount : t.outputBytes = s.outputBytes)
    (hphysical : l'.physical = l.physical) (htails : l'.tails = l.tails)
    (hevents : l'.reader.events = l.reader.events)
    (hwindows : l'.reader.state.sessionWindows = l.reader.state.sessionWindows)
    (hunwritten : l'.unwritten ⊆ l.unwritten) (hwritten : ∀ e ∈ l'.pc.written, e ∈ l.flight)
    (hsync : l.pc.syncing = [])
    (hlast : ∀ {c : Caller} {event : Event} {id : Uuid} {rest : List (Event × Nat)},
      l'.pc = .trim c event id rest → l.pc = .trim c event id rest)
    (hes : es' ⊆ es ++ l.flight) : l'.Restartable cd opts t es' floor := by
  have hbehind : ∀ {lost : List Event}, l.Behind floor lost → l'.Behind floor lost :=
    fun hlost => hlost.mono (.inr hsync) hadv.run.reserved_le fun e he => .inl (hunwritten he)
  refine h.frame hwf hadv (congrArg Disk.state hdisk) hcount htails hevents hwindows
    (fun e he => ?_) hlast hes ?_ ?_
  · rcases mem_flight_cases l' he with he | he
    · exact l.unwritten_sublist_flight.subset (hunwritten he)
    · exact hwritten e he
  · rw [hdisk, hphysical]
    exact hbehind h.tail
  · rw [hdisk]
    exact hbehind h.residue

theorem receiveStep_restartable (h : l.Restartable cd opts s es floor) (hwf : l.Wf)
    (hstep : receiveStep cd choice s l = some t) (hl' : t.live = some l') (hadv : l.Advances l')
    (hes : es' ⊆ es ++ l.flight) : l'.Restartable cd opts t es' floor := by
  unfold receiveStep at hstep
  split at hstep
  · rename_i hpc
    split at hstep <;> cases hstep
    cases hl'
    rename_i m queue hqueue
    refine h.quiet hwf hadv rfl rfl rfl rfl rfl rfl ?_ (by simp [Pc.written])
      (by rw [hpc]; rfl) (fun hc => by cases hc) hes
    simp [Live.unwritten, Pc.unwritten, hpc, hqueue]
  · rename_i hpc
    split at hstep <;> cases hstep
    cases hl'
    refine h.quiet hwf hadv rfl rfl rfl rfl rfl rfl ?_ (by simp [Pc.written])
      (by rw [hpc]; rfl) (fun hc => by cases hc) hes
    simp [Live.unwritten, Pc.unwritten, hpc]
  · rename_i events acks hpc
    have hbegin : ∀ c, l' = { l with pc := beginAppend cd c events } →
        t = s.with s.disk l' → l'.Restartable cd opts t es' floor := by
      intro c hsame ht
      obtain ⟨hsub, hnone⟩ := beginAppend_unwritten cd c events
      subst ht hsame
      refine h.quiet hwf hadv rfl rfl rfl rfl rfl rfl ?_ (by simp [hnone]) (by rw [hpc]; rfl)
        (fun hc => ?_) hes
      · simp only [Live.unwritten, hpc]
        exact (hsub.append (List.Sublist.refl _)).subset
      · unfold beginAppend at hc
        dsimp only at hc
        split at hc <;> cases hc
    split at hstep
    · rename_i m queue hqueue
      split at hstep <;> cases hstep <;> cases hl'
      · refine h.quiet hwf hadv rfl rfl rfl rfl rfl rfl ?_ (by simp [Pc.written])
          (by rw [hpc]; rfl) (fun hc => by cases hc) hes
        simp [Live.unwritten, Pc.unwritten, hpc, hqueue]
      · exact hbegin _ rfl rfl
    · cases hstep
      cases hl'
      exact hbegin _ rfl rfl
  · cases hstep

theorem writeStep_restartable (h : l.Restartable cd opts s es floor) (hwf : l.Wf)
    (hj : l.Journaled cd s es)
    (hend : ∀ c batch, l.pc = .write c batch →
      l.pos = l.physical ∧ s.disk.journal.bytes.length = l.physical)
    (hstep : writeStep cd choice s l = some t) (hl' : t.live = some l') (hadv : l.Advances l')
    (hes : es' ⊆ es ++ l.flight) : l'.Restartable cd opts t es' floor := by
  -- A batch that is given up lies behind everything that is still to be written.
  have hbatch : ∀ {c : Caller} {batch : List (Event × Nat)} {l' : Live} {lost : List Event},
      l.pc.unwritten = batch.map (·.1) → l'.pc = .setLen c → l'.queue = l.queue →
      l'.producer = l.producer → lost ⊆ batch.map (·.1) → l'.Behind floor lost := by
    intro c batch l' lost hpc hpc' hqueue hproducer hlost
    refine .inr fun e he => ?_
    have hin : e ∈ l.pc.unwritten := hpc ▸ hlost he
    have hflight : e ∈ l.flight :=
      l.unwritten_sublist_flight.subset (List.mem_append_left _ hin)
    refine ⟨h.floor_lt hwf hflight, hproducer ▸ (hwf.flight_bound hflight).2, fun e' he' => ?_⟩
    have hsorted := (List.pairwise_append.mp hj.ordered).2.1
    simp only [Live.unwritten, hpc', Pc.unwritten, List.nil_append, hqueue] at he'
    exact ((List.pairwise_append.mp hsorted).2.2 e hin e' he').1
  have htake : ∀ {batch : List (Event × Nat)} (n : Nat),
      cd.lines ((cd.encode (batch.map (·.1))).take n) ⊆ batch.map (·.1) := by
    intro batch n
    have hpre : cd.lines ((cd.encode (batch.map (·.1))).take n) <+:
        cd.lines (cd.encode (batch.map (·.1))) := lines_mono (List.take_prefix n _)
    rw [lines_encode] at hpre
    exact hpre.subset
  have hwrite : ∀ data : Bytes, l.pos = l.physical → s.disk.journal.bytes.length = l.physical →
      (s.disk.journal.writeAt l.pos data).bytes.drop l.physical = data := by
    intro data hpos hlength
    unfold File.writeAt
    dsimp only
    rw [hpos, ← hlength, List.take_length, Nat.sub_self, List.replicate_zero, List.append_nil,
      List.drop_eq_nil_of_le (Nat.le_add_right _ _), List.append_nil, List.drop_left]
  unfold writeStep at hstep
  dsimp only at hstep
  split at hstep
  case h_9 => cases hstep
  all_goals
    rename_i hpc
    cases hstep
    cases hl'
    have hflight' : ∀ {pc : Pc} {pos phys : Nat} {stop : Bool}, (∀ e ∈ pc.events, e ∈ l.pc.events) →
        ∀ e ∈ Live.flight { l with pos := pos, physical := phys, stopped := stop, pc := pc },
          e ∈ l.flight := by
      intro pc pos phys stop hsub e he
      rcases List.mem_append.mp he with he | he
      · exact List.mem_append_left _ (hsub e he)
      · exact List.mem_append_right _ he
  · rename_i c batch
    obtain ⟨hpos, hlength⟩ := hend c batch hpc
    refine h.frame hwf hadv (by rfl) (by rfl) rfl rfl rfl (hflight' (by rw [hpc]; exact fun e he => he))
      (fun hc => by cases hc) hes ?_ ?_
    · show Live.Behind _ _ (cd.lines ((s.disk.journal.writeAt l.pos _).bytes.drop l.physical))
      rw [hwrite _ hpos hlength, lines_encode]
      exact .inl (List.prefix_refl _)
    · refine h.residue.mono (.inr (by rw [hpc]; rfl)) le_rfl fun e he => .inl ?_
      simpa [Live.unwritten, Pc.unwritten, hpc] using he
  · rename_i c batch n
    obtain ⟨hpos, hlength⟩ := hend c batch hpc
    refine h.frame hwf hadv (by rfl) (by rfl) rfl rfl rfl (hflight' (fun e he => by cases he))
      (fun hc => by cases hc) hes ?_ ?_
    · show Live.Behind _ _ (cd.lines ((s.disk.journal.writeAt l.pos _).bytes.drop l.physical))
      rw [hwrite _ hpos hlength]
      exact hbatch (by rw [hpc]; rfl) rfl rfl rfl (htake n)
    · refine h.residue.mono (.inr (by rw [hpc]; rfl)) le_rfl fun e he => .inl ?_
      exact List.mem_append_right _ he
  · rename_i c batch
    refine h.frame hwf hadv (by rfl) (by rfl) rfl rfl rfl (hflight' (by rw [hpc]; exact fun e he => he))
      (fun hc => by cases hc) hes ?_ (behind_nil _ _)
    show Live.Behind _ _ (cd.lines (s.disk.journal.bytes.drop (l.physical + _)))
    rw [hj.syncing hpc, encode_append, hj.physical, ← List.length_append, List.drop_length]
    exact behind_nil _ _
  · rename_i c batch
    refine h.frame hwf hadv (by rfl) (by rfl) rfl rfl rfl (hflight' (fun e he => by cases he))
      (fun hc => by cases hc) hes ?_ ?_
    · show Live.Behind _ _ (cd.lines (s.disk.journal.bytes.drop l.physical))
      rw [hj.syncing hpc, encode_append, hj.physical, List.drop_left, lines_encode]
      exact hbatch (by rw [hpc]; rfl) rfl rfl rfl fun e he => he
    · rcases h.residue with hsync | hall
      · refine hbatch (c := c) (by rw [hpc]; rfl) rfl rfl rfl fun e he => ?_
        rw [hpc] at hsync
        exact hsync.subset he
      · refine .inr fun e he => ⟨(hall e he).1, (hall e he).2.1, fun e' he' => ?_⟩
        exact (hall e he).2.2 e' (List.mem_append_right _ he')
  · rename_i c
    have hbytes := hj.disk.setLen.2
    refine h.frame hwf hadv (by rfl) (by rfl) rfl rfl rfl (hflight' (fun e he => by cases he))
      (fun hc => by cases hc) hes ?_ ?_
    · show Live.Behind _ _ (cd.lines ((s.disk.journal.setLen l.physical).bytes.drop l.physical))
      rw [hj.physical, hbytes, List.drop_length]
      exact behind_nil _ _
    · have hsame : ∀ {lost : List Event}, l.Behind floor lost →
          Live.Behind { l with pc := .seek c } floor lost := fun hlost =>
        hlost.mono (.inr (by rw [hpc]; rfl)) le_rfl fun e he => .inl (List.mem_append_right _ he)
      show Live.Behind _ _ (cd.lines (if l.physical < s.disk.journal.bytes.length then _ else _))
      split
      · exact hsame h.tail
      · exact hsame h.residue
  all_goals
    refine h.quiet hwf hadv rfl rfl rfl rfl rfl rfl ?_ (by simp [Pc.written]) (by rw [hpc]; rfl)
      (fun hc => by cases hc) hes
    simp [Live.unwritten, Pc.unwritten, hpc]

theorem insertEvent_windows (event : Event) (size : Nat) (r : Reader) :
    (insertEvent event size r).state.sessionWindows = r.state.sessionWindows := by
  obtain ⟨_, _, h⟩ := insertEvent_state event size r
  rw [h]

/-- Publishing an event files it in the tail index. -/
theorem insert_restartable (h : l.Restartable cd opts s es floor) (hwf : l.Wf)
    (hj : l.Journaled cd s es) {c : Caller} {event : Event} {size : Nat}
    {rest : List (Event × Nat)} (hpc : l.pc = .insert c ((event, size) :: rest))
    (hreader : l'.reader = insertEvent event size l.reader) (hqueue : l'.queue = l.queue)
    (hphysical : l'.physical = l.physical)
    (hfiled : fileTail opts l.tails event = none ∧ l'.tails = l.tails ∧ l'.pc = .insert c rest ∨
      ∃ id, fileTail opts l.tails event = some (id, l'.tails) ∧ l'.pc = .trim c event id rest)
    (hdisk : t.disk = s.disk) (hcount : t.outputBytes = s.outputBytes) (hadv : l.Advances l')
    (hes : es' ⊆ es ++ l.flight) : l'.Restartable cd opts t es' floor := by
  have hpc' : l'.pc.events = rest.map (·.1) ∧ l'.pc.unwritten = [] := by
    rcases hfiled with ⟨-, -, hp⟩ | ⟨id, -, hp⟩ <;> rw [hp] <;> exact ⟨rfl, rfl⟩
  have hflight : l.flight = event :: l'.flight := by
    rw [Live.flight, Live.flight, hpc, hpc'.1, hqueue]
    rfl
  have hmem : event ∈ l.flight := by
    rw [hflight]
    exact List.mem_cons_self
  have hseq := (hwf.flight_bound hmem).1
  have hevents : ∀ {k : Nat} {e' : Event} {n : Nat}, l'.reader.events[k]? = some (e', n) →
      e' ≠ event ∧ l.reader.events[k]? = some (e', n) ∨ k = event.seq ∧ e' = event := by
    intro k e' n hk
    rw [hreader, insertEvent_events] at hk
    by_cases heq : event.seq = k
    · subst heq
      rw [OrderedMap.getElem?_insert_self', Option.some.injEq, Prod.mk.injEq] at hk
      exact .inr ⟨rfl, hk.1.symm⟩
    · rw [OrderedMap.getElem?_insert_of_ne heq] at hk
      refine .inl ⟨fun hsame => heq ?_, hk⟩
      rw [← hsame]
      exact hwf.sound.key hk
  have hpublished : ∀ {k : Nat} {e' : Event} {n : Nat}, l'.reader.events[k]? = some (e', n) →
      l.reader.events[k]? = some (e', n) ∨ e' = event :=
    fun hk => (hevents hk).imp And.right And.right
  -- Everything behind it in the writer's hands is in the journal; the queue comes later.
  have hin : event ∈ es := hj.written event (by rw [hpc]; exact List.mem_cons_self)
  have hordered : ∀ e' ∈ l'.flight, Precedes event e' := by
    intro e' he'
    have hlt : event.seq < e'.seq := by
      have hsorted := hwf.flight_sorted
      rw [hflight, List.map_cons] at hsorted
      exact (List.pairwise_cons.mp hsorted).1 _ (List.mem_map_of_mem he')
    rcases List.mem_append.mp he' with he' | he'
    · have hin' : e' ∈ es := hj.written e' (by
        rw [hpc'.1] at he'
        rw [hpc]
        exact List.mem_cons_of_mem _ he')
      exact precedes_of_lt hj.disk.ordered hin hin' hlt
    · refine (List.pairwise_append.mp hj.ordered).2.2 event hin e' (List.mem_append_right _ ?_)
      exact hqueue ▸ he'
  have hshown := h.shown
  have hsaved := h.saved
  have hindexed := h.indexed
  rw [hflight] at hshown hsaved hindexed
  have hbehind : ∀ {lost : List Event}, l.Behind floor lost → l'.Behind floor lost := by
    intro lost hlost
    refine hlost.mono (.inr (by rw [hpc]; rfl)) hadv.run.reserved_le fun e he => .inl ?_
    rw [Live.unwritten, hpc'.2, hqueue] at he
    exact List.mem_append_right _ he
  refine h.advance hwf hadv (congrArg Disk.state hdisk) hes ?_ ?_ ?_ (fun hp => ?_) ?_ ?_
  · rw [hcount]
    rcases fileTail_cases opts l.tails event with ⟨hnone, hno⟩ | ⟨id, htail, hsome⟩
    · rcases hfiled with ⟨-, htails, -⟩ | ⟨id, hsome, -⟩
      · rw [htails]
        exact hindexed.skip hno hpublished
      · rw [hnone] at hsome
        cases hsome
    · rcases hfiled with ⟨hnone, -, -⟩ | ⟨id', hsome', -⟩
      · rw [hnone] at hsome
        cases hsome
      · rw [hsome', Option.some.injEq, Prod.mk.injEq] at hsome
        rw [hsome.2]
        exact hindexed.file htail hordered
          ((hj.disk.lawful event hin).counted htail.output htail.session) hevents
  · rw [hreader, insertEvent_windows, ← hreader, hcount]
    exact hshown.publish hpublished
  · rw [hcount]
    exact hsaved.publish hpublished
  · rcases hfiled with ⟨-, -, hp'⟩ | ⟨id', hsome', hp'⟩
    · rw [hp'] at hp
      cases hp
    · rw [hp'] at hp
      cases hp
      rcases fileTail_cases opts l.tails event with ⟨hnone, -⟩ | ⟨id, htail, hsome⟩
      · rw [hnone] at hsome'
        cases hsome'
      · rw [hsome', Option.some.injEq, Prod.mk.injEq] at hsome
        rw [hsome.1, hsome.2]
        exact endsWith_file
  · rw [hdisk, hphysical]
    exact hbehind h.tail
  · rw [hdisk]
    exact hbehind h.residue

/-- Retention keeps the account. -/
theorem pruned_restartable (h : l.Restartable cd opts s es floor) (hwf : l.Wf) {now : Int}
    (hevents : l.pc.events = []) (hsync : l.pc.syncing = [])
    (hpc : l'.pc.events = [] ∧ l'.pc.unwritten = [] ∧
      ∀ c event id rest, l'.pc ≠ .trim c event id rest)
    (hreader : l'.reader = (prune opts now l.tails l.reader).2)
    (htails : l'.tails = (prune opts now l.tails l.reader).1) (hqueue : l'.queue = l.queue)
    (hphysical : l'.physical = l.physical) (hdisk : t.disk = s.disk)
    (hcount : t.outputBytes = s.outputBytes) (hadv : l.Advances l') (hes : es' ⊆ es ++ l.flight) :
    l'.Restartable cd opts t es' floor := by
  have hretires := prune_retires opts now l.tails hwf.sound.positive
  obtain ⟨hindexed, hshown⟩ := prune_indexed opts now hwf.sound.positive h.indexed h.shown
  have hflight : l'.flight = l.flight := by rw [Live.flight, Live.flight, hpc.1, hevents, hqueue]
  have hbehind : ∀ {lost : List Event}, l.Behind floor lost → l'.Behind floor lost := by
    intro lost hlost
    refine hlost.mono (.inr hsync) hadv.run.reserved_le fun e he => .inl ?_
    rw [Live.unwritten, hpc.2.1, hqueue] at he
    exact List.mem_append_right _ he
  refine h.advance hwf hadv (congrArg Disk.state hdisk) hes ?_ ?_ ?_
    (fun hp => absurd hp (hpc.2.2 _ _ _ _)) ?_ ?_
  · rw [htails, hreader, hflight, hcount]
    exact hindexed
  · rw [hreader, hflight, hcount]
    exact hshown
  · rw [hreader, hflight, hcount]
    exact h.saved.sub hretires.sub (fun e he => he) fun _ => le_rfl
  · rw [hdisk, hphysical]
    exact hbehind h.tail
  · rw [hdisk]
    exact hbehind h.residue

theorem publishStep_restartable (h : l.Restartable cd opts s es floor) (hwf : l.Wf)
    (hj : l.Journaled cd s es) (hstep : publishStep opts choice s l = some t)
    (hl' : t.live = some l') (hadv : l.Advances l') (hes : es' ⊆ es ++ l.flight) :
    l'.Restartable cd opts t es' floor := by
  unfold publishStep at hstep
  dsimp only at hstep
  split at hstep
  · rename_i c event size rest hpc
    cases hstep
    cases hl'
    cases hfile : fileTail opts l.tails event with
    | none =>
        simp only [hfile] at hadv ⊢
        exact insert_restartable h hwf hj hpc rfl rfl rfl (.inl ⟨hfile, rfl, rfl⟩) rfl rfl hadv hes
    | some found =>
        simp only [hfile] at hadv ⊢
        exact insert_restartable h hwf hj hpc rfl rfl rfl (.inr ⟨found.1, hfile, rfl⟩) rfl rfl hadv hes
  · rename_i c event id rest hpc
    split at hstep
    · rename_i tails reader htrim
      cases hstep
      cases hl'
      have hretires := trimTail_retires hwf.sound.positive htrim
      obtain ⟨hindexed, hshown, hends⟩ := trimTail_indexed h.indexed h.shown (h.last hpc) htrim
      refine h.advance hwf hadv (by rfl) hes hindexed hshown
        (h.saved.sub hretires.sub (fun e he => he) fun _ => le_rfl) (fun hp => ?_) h.tail h.residue
      have hp' := hpc.symm.trans hp
      cases hp'
      intro bytes items ht hne
      exact hends ht hne
    · cases hstep
      cases hl'
      refine h.quiet hwf hadv rfl rfl rfl rfl rfl rfl ?_ (fun e he => ?_) (by rw [hpc]; rfl)
        (fun hc => by cases hc) hes
      · simp [Live.unwritten, Pc.unwritten, hpc]
      · rw [Live.flight, hpc]
        exact List.mem_append_left _ he
  · rename_i c hpc
    cases hstep
    cases hl'
    refine h.quiet hwf hadv rfl rfl rfl rfl rfl rfl ?_ (by simp [Pc.written]) (by rw [hpc]; rfl)
      (fun hc => by cases hc) hes
    simp [Live.unwritten, Pc.unwritten, hpc]
  · rename_i c held hpc
    cases hstep
    cases hl'
    refine h.quiet hwf hadv rfl rfl rfl rfl rfl rfl ?_ (by simp [Pc.written]) (by rw [hpc]; rfl)
      (fun hc => by cases hc) hes
    simp [Live.unwritten, Pc.unwritten, hpc]
  · rename_i c now hpc
    cases hstep
    have hpc' : l'.pc = .compact (.append c) ∨ l'.pc = .persist (.append c) := by
      rw [← Option.some.inj hl']
      dsimp only
      split
      · exact .inl rfl
      · exact .inr rfl
    have hqueue : l'.queue = l.queue := by rw [← Option.some.inj hl']
    exact pruned_restartable h hwf (by rw [hpc]; rfl) (by rw [hpc]; rfl)
      (by rcases hpc' with hp | hp <;> rw [hp] <;> exact ⟨rfl, rfl, fun _ _ _ _ hc => by cases hc⟩)
      (by rw [← Option.some.inj hl']) (by rw [← Option.some.inj hl']) hqueue
      (by rw [← Option.some.inj hl']) rfl rfl hadv hes
  · rename_i c result hpc
    cases hstep
    cases hl'
    have hsame : (finishAppend c result l).reader = l.reader ∧
        (finishAppend c result l).queue = l.queue ∧ (finishAppend c result l).tails = l.tails ∧
        (finishAppend c result l).physical = l.physical ∧
        (finishAppend c result l).pc.unwritten = [] ∧ (finishAppend c result l).pc.written = [] ∧
        ∀ c' event id rest, (finishAppend c result l).pc ≠ .trim c' event id rest := by
      unfold finishAppend
      split
      · refine ⟨rfl, rfl, rfl, rfl, ?_⟩
        dsimp only
        split <;> exact ⟨rfl, rfl, fun _ _ _ _ hc => by cases hc⟩
      · exact ⟨rfl, rfl, rfl, rfl, rfl, rfl, fun _ _ _ _ hc => by cases hc⟩
    obtain ⟨hreader, hqueue, htails, hphysical, hu, hw, hp⟩ := hsame
    refine h.quiet hwf hadv rfl rfl hphysical htails (by rw [hreader]) (by rw [hreader]) ?_
      (by simp [hw]) (by rw [hpc]; rfl) (fun hc => absurd hc (hp _ _ _ _)) hes
    rw [Live.unwritten, hu, hqueue]
    exact List.subset_append_right _ _
  · cases hstep

/-- Saving the state makes the directory say what the reader says. -/
theorem persisted_restartable (h : l.Restartable cd opts s es floor) (hwf : l.Wf)
    (hnone : l.pc.events = []) (hsync : l.pc.syncing = []) (hreader : l'.reader = l.reader)
    (htails : l'.tails = l.tails) (hqueue : l'.queue = l.queue)
    (hphysical : l'.physical = l.physical) (hpc : l'.pc.events = [] ∧ l'.pc.unwritten = [] ∧
      ∀ c event id rest, l'.pc ≠ .trim c event id rest)
    (hstate : t.disk.state = some l.reader.state) (hjournal : t.disk.journal = s.disk.journal)
    (hcount : t.outputBytes = s.outputBytes) (hadv : l.Advances l') :
    l'.Restartable cd opts t es' floor := by
  have hsaved : t.disk.saved opts = l.reader.state := by
    rw [Disk.saved, hstate, Option.getD_some]
  have hflight : l'.flight = l.flight := by rw [Live.flight, Live.flight, hpc.1, hnone, hqueue]
  have hbehind : ∀ {lost : List Event}, l.Behind floor lost → l'.Behind floor lost := by
    intro lost hlost
    refine hlost.mono (.inr hsync) hadv.run.reserved_le fun e he => .inl ?_
    rw [Live.unwritten, hpc.2.1, hqueue] at he
    exact List.mem_append_right _ he
  refine ⟨hadv.run.accounted h.account, h.floor_le.trans hadv.earliest, ?_, ?_, ?_, ?_, ?_, ?_,
    fun hp => absurd hp (hpc.2.2 _ _ _ _), ?_, ?_⟩
  · rw [hsaved]
    exact .inl h.floor_le
  · rw [hsaved, hreader]
  · rw [hsaved]
    exact hwf.sound.earliest_le
  · rw [htails, hreader, hflight, hcount]
    exact h.indexed
  · rw [hreader, hflight, hcount]
    exact h.shown
  · rw [hsaved, hreader, hflight, hcount]
    exact h.shown
  · rw [hjournal, hphysical]
    exact hbehind h.tail
  · rw [hjournal]
    exact hbehind h.residue

/-- New events go behind everything. -/
theorem extended_restartable (h : l.Restartable cd opts s es floor) (hwf : l.Wf)
    {events : List Event} (instanceId : Uuid)
    (hfresh : Fresh s.outputBytes t.outputBytes events) (hreader : l'.reader = l.reader)
    (htails : l'.tails = l.tails) (hphysical : l'.physical = l.physical)
    (hpc : l'.pc = l.pc ∨ l.pc.syncing = [] ∧ ∀ c event id rest, l'.pc ≠ .trim c event id rest)
    (hflight : ∀ e ∈ l'.flight, e ∈ l.flight ++ stampStartup instanceId l.producer events)
    (hunwritten : ∀ e ∈ l'.unwritten, e ∈ l.unwritten ++ stampStartup instanceId l.producer events)
    (hdisk : t.disk = s.disk) (hadv : l.Advances l') (hes : es' ⊆ es ++ l.flight) :
    l'.Restartable cd opts t es' floor := by
  have hbehind : ∀ {lost : List Event}, l.Behind floor lost → l'.Behind floor lost := by
    intro lost hlost
    refine hlost.mono (hpc.imp (fun hp => by rw [hp]) And.left) hadv.run.reserved_le fun e he => ?_
    refine (List.mem_append.mp (hunwritten e he)).imp_right fun hnew => ?_
    exact (mem_stampStartup hnew).1
  have hcounts : Counts t.outputBytes t.outputBytes := fun _ => le_rfl
  refine h.advance hwf hadv (congrArg Disk.state hdisk) hes ?_ ?_ ?_ (fun hp => ?_) ?_ ?_
  · rw [htails, hreader]
    refine (h.indexed.extend hfresh instanceId l.producer).sub (fun hk => hk) hflight
      (fun hk he => ?_) hcounts
    -- What is held has a sequence already.
    rcases List.mem_append.mp he with he | he
    · exact absurd he (hwf.notMem_flight hk)
    · have hlt := (mem_stampStartup he).1
      have hkey := hwf.sound.key hk
      have hbelow := hwf.sound.below hk
      have hhead : l.reader.state.nextCursor ≤ l.producer := hwf.ordered.head_le
      omega
  · rw [hreader]
    exact (h.shown.extend hfresh instanceId l.producer).sub (fun hk => hk) hflight hcounts
  · rw [hreader]
    exact (h.saved.extend hfresh instanceId l.producer).sub (fun hk => hk) hflight hcounts
  · rcases hpc with hsame | ⟨-, hno⟩
    · exact htails ▸ h.last (hsame ▸ hp)
    · exact absurd hp (hno _ _ _ _)
  · rw [hdisk, hphysical]
    exact hbehind h.tail
  · rw [hdisk]
    exact hbehind h.residue

theorem saveStep_restartable (h : l.Restartable cd opts s es floor) (hwf : l.Wf)
    (hstep : saveStep cd choice s l = some t) (hl' : t.live = some l') (hadv : l.Advances l')
    (hes : es' ⊆ es ++ l.flight) : l'.Restartable cd opts t es' floor := by
  have hcompact : ∀ (site : Site) (ok : Bool), (afterCompact site ok).unwritten = [] ∧
      (afterCompact site ok).written = [] ∧
      ∀ c event id rest, afterCompact site ok ≠ .trim c event id rest := by
    intro site ok
    unfold afterCompact
    split <;> exact ⟨rfl, rfl, fun _ _ _ _ hc => by cases hc⟩
  have hpersist : ∀ (site : Site) (ok : Bool), (afterPersist site ok l).pc.events = [] ∧
      (afterPersist site ok l).pc.unwritten = [] ∧ (afterPersist site ok l).pc.written = [] ∧
      (∀ c event id rest, (afterPersist site ok l).pc ≠ .trim c event id rest) ∧
      (afterPersist site ok l).reader = l.reader ∧ (afterPersist site ok l).tails = l.tails ∧
      (afterPersist site ok l).queue = l.queue ∧
      (afterPersist site ok l).physical = l.physical := by
    intro site ok
    cases site <;> cases ok <;>
      exact ⟨rfl, rfl, rfl, fun _ _ _ _ hc => (by cases hc), rfl, rfl, rfl, rfl⟩
  have hrenamed : ∀ (site : Site) (ok : Bool), l.pc = .compact site →
      t = s.with { s.disk with journal := .durable (cd.encode l.reader.values) } l' →
      l' = { l with
        physical := (cd.encode l.reader.values).length
        pos := (cd.encode l.reader.values).length
        pc := afterCompact site ok } →
      l'.Restartable cd opts t es' floor := by
    intro site ok hpc ht hsame
    subst ht hsame
    refine h.frame hwf hadv (by rfl) (by rfl) rfl rfl rfl (fun e he => ?_)
      (fun hc => absurd hc ((hcompact site ok).2.2 _ _ _ _)) hes ?_ (behind_nil _ _)
    · refine List.mem_append_right _ ?_
      rcases mem_flight_cases _ he with he | he
      · simp only [Live.unwritten, (hcompact site ok).1] at he
        exact he
      · simp [(hcompact site ok).2.1] at he
    · show Live.Behind _ _ (cd.lines ((cd.encode l.reader.values).drop _))
      rw [List.drop_length]
      exact behind_nil _ _
  unfold saveStep at hstep
  dsimp only at hstep
  split at hstep
  · rename_i site hpc
    cases hstep
    cases hl'
    refine h.quiet hwf hadv rfl rfl rfl rfl rfl rfl ?_ (by simp [(hcompact site false).2.1])
      (by rw [hpc]; rfl) (fun hc => absurd hc ((hcompact site false).2.2 _ _ _ _)) hes
    simp only [Live.unwritten, (hcompact site false).1]
    exact List.subset_append_right _ _
  · rename_i site hpc
    cases hstep
    cases hl'
    exact hrenamed site true hpc rfl rfl
  · rename_i site hpc
    cases hstep
    cases hl'
    exact hrenamed site false hpc rfl rfl
  · rename_i site hpc
    cases hstep
    cases hl'
    obtain ⟨-, hu, hw, hp, hreader, htails, hqueue, hphysical⟩ := hpersist site false
    refine h.quiet hwf hadv rfl rfl hphysical htails (by rw [hreader]) (by rw [hreader]) ?_
      (by simp [hw]) (by rw [hpc]; rfl) (fun hc => absurd hc (hp _ _ _ _)) hes
    rw [Live.unwritten, hu, hqueue]
    exact List.subset_append_right _ _
  · rename_i now hpc
    split at hstep <;> cases hstep
    cases hl'
    -- First the state is saved, then the start-up events are numbered.
    have hsaved : l.Restartable cd opts
        { s with disk := { s.disk with state := some l.reader.state } } es floor :=
      persisted_restartable h hwf (by rw [hpc]; rfl) (by rw [hpc]; rfl) rfl rfl rfl rfl
        (by rw [hpc]; exact ⟨rfl, rfl, fun _ _ _ _ hc => by cases hc⟩) rfl rfl rfl
        ⟨hwf, .refl, le_rfl⟩
    have hempty : l.queue = [] := hwf.startup (by rw [hpc]; rfl)
    have hsub : ∀ e ∈ (beginAppend cd ⟨true, batchRange (stampStartup l.reader.state.instanceId
          l.producer (startupEvents now l.reader.state)), []⟩ (stampStartup
          l.reader.state.instanceId l.producer (startupEvents now l.reader.state))).unwritten,
        e ∈ stampStartup l.reader.state.instanceId l.producer
          (startupEvents now l.reader.state) :=
      fun e he => (beginAppend_unwritten cd _ _).1.subset he
    refine extended_restartable hsaved hwf l.reader.state.instanceId
      (startupEvents_fresh now l.reader.state s.outputBytes) rfl rfl rfl (.inr ⟨by rw [hpc]; rfl, fun c event id rest hc => ?_⟩)
      (fun e he => List.mem_append_right _ ?_) (fun e he => List.mem_append_right _ ?_) rfl hadv hes
    · simp only [startAppend, beginAppend] at hc
      split at hc <;> cases hc
    · rcases mem_flight_cases _ he with he | he
      · simp only [Live.unwritten, startAppend, hempty, List.flatMap_nil, List.append_nil] at he
        exact hsub e he
      · simp only [startAppend, (beginAppend_unwritten cd _ _).2] at he
        cases he
    · simp only [Live.unwritten, startAppend, hempty, List.flatMap_nil, List.append_nil] at he
      exact hsub e he
  · rename_i site hpc
    split at hstep <;> cases hstep
    cases hl'
    obtain ⟨he, hu, -, hp, hreader, htails, hqueue, hphysical⟩ := hpersist site true
    exact persisted_restartable h hwf (by rw [hpc]; rfl) (by rw [hpc]; rfl) hreader htails hqueue
      hphysical ⟨he, hu, hp⟩ rfl rfl rfl hadv
  · rename_i site hpc
    split at hstep <;> cases hstep
    cases hl'
    obtain ⟨he, hu, -, hp, hreader, htails, hqueue, hphysical⟩ := hpersist site false
    exact persisted_restartable h hwf (by rw [hpc]; rfl) (by rw [hpc]; rfl) hreader htails hqueue
      hphysical ⟨he, hu, hp⟩ rfl rfl rfl hadv
  · cases hstep

theorem idleStep_restartable (h : l.Restartable cd opts s es floor) (hwf : l.Wf)
    (hstep : idleStep opts choice s l = some t)
    (hl' : t.live = some l') (hadv : l.Advances l') (hes : es' ⊆ es ++ l.flight) :
    l'.Restartable cd opts t es' floor := by
  unfold idleStep at hstep
  dsimp only at hstep
  split at hstep
  case h_2 drained held hpc =>
    cases hstep
    cases hl'
    refine h.quiet hwf hadv rfl rfl rfl rfl (idleReader_events ..) ?_ ?_ (fun e he => ?_)
      (by rw [hpc]; rfl) (fun hc => ?_) hes
    · unfold idleReader
      split <;> rfl
    · simp only [Live.unwritten]
      split <;> exact List.subset_append_right _ _
    · dsimp only at he
      split at he <;> cases he
    · dsimp only at hc
      split at hc <;> cases hc
  case h_3 hpc =>
    split at hstep <;> cases hstep <;> cases hl'
    · -- Syncing makes a tail durable and forgets what a rollback cut off.
      refine h.frame hwf hadv (by rfl) (by rfl) rfl rfl rfl (fun e he => ?_) (fun hc => by cases hc)
        hes ?_ (behind_nil _ _)
      · exact List.mem_append_right _ he
      · refine h.tail.mono (.inr (by rw [hpc]; rfl)) le_rfl fun e he => .inl ?_
        exact List.mem_append_right _ he
    · refine h.quiet hwf hadv rfl rfl rfl rfl rfl rfl ?_ (by simp [Pc.written]) (by rw [hpc]; rfl)
        (fun hc => by cases hc) hes
      simp [Live.unwritten, Pc.unwritten, hpc]
  case h_4 hpc =>
    split at hstep <;> cases hstep
    cases hl'
    refine h.quiet hwf hadv rfl rfl rfl rfl rfl rfl ?_ (by simp [Pc.written]) (by rw [hpc]; rfl)
      (fun hc => by cases hc) hes
    simp [Live.unwritten, Pc.unwritten, hpc]
  case h_6 now hpc =>
    cases hstep
    have hsame := Option.some.inj hl'
    have hpc' : l'.pc = .rest ∨ l'.pc = .compact .sweep := by
      rw [← hsame]
      dsimp only
      split
      · exact .inl rfl
      · exact .inr rfl
    exact pruned_restartable h hwf (by rw [hpc]; rfl) (by rw [hpc]; rfl)
      (by rcases hpc' with hp | hp <;> rw [hp] <;> exact ⟨rfl, rfl, fun _ _ _ _ hc => by cases hc⟩)
      (by rw [← hsame]) (by rw [← hsame]) (by rw [← hsame]) (by rw [← hsame]) rfl rfl hadv hes
  case h_7 hpc =>
    cases hstep
    cases hl'
    refine h.quiet hwf hadv rfl rfl rfl rfl rfl rfl ?_ (fun e he => ?_) (by rw [hpc]; rfl)
      (fun hc => ?_) hes
    · simp only [Live.unwritten]
      split <;> exact List.subset_append_right _ _
    · dsimp only at he
      split at he <;> cases he
    · dsimp only at hc
      split at hc <;> cases hc
  case h_8 => cases hstep
  all_goals
    rename_i hpc
    cases hstep
    cases hl'
    refine h.quiet hwf hadv rfl rfl rfl rfl rfl rfl ?_ (by simp [Pc.written]) (by rw [hpc]; rfl)
      (fun hc => by cases hc) hes
    simp [Live.unwritten, Pc.unwritten, hpc]

theorem writerStep_restartable (h : l.Restartable cd opts s es floor) (hwf : l.Wf)
    (hj : l.Journaled cd s es) (hl : s.live = some l)
    (hend : writesAtEnd (.writer choice) s = true)
    (hstep : writerStep cd opts choice s l = some t) (hl' : t.live = some l')
    (hadv : l.Advances l') (hes : es' ⊆ es ++ l.flight) : l'.Restartable cd opts t es' floor := by
  unfold writerStep at hstep
  split at hstep
  case h_1 | h_2 => exact receiveStep_restartable h hwf hstep hl' hadv hes
  case h_3 | h_4 | h_5 | h_6 =>
    refine writeStep_restartable h hwf hj (fun c batch hpc => ?_) hstep hl' hadv hes
    simp only [writesAtEnd, hl, hpc, Bool.and_eq_true, decide_eq_true_eq] at hend
    exact hend
  case h_7 | h_8 | h_9 | h_10 | h_11 => exact publishStep_restartable h hwf hj hstep hl' hadv hes
  case h_12 | h_13 => exact saveStep_restartable h hwf hstep hl' hadv hes
  case h_14 | h_15 | h_16 | h_17 | h_18 => exact idleStep_restartable h hwf hstep hl' hadv hes
  all_goals cases hstep

theorem enqueue_restartable (h : l.Restartable cd opts s es floor) (hwf : l.Wf)
    (events : List Event) (ack : Bool) (hnew : (enqueue cd events ack l).1 = l')
    (hfresh : Fresh s.outputBytes t.outputBytes events) (hdisk : t.disk = s.disk)
    (hadv : l.Advances l') (hes : es' ⊆ es ++ l.flight) :
    l'.Restartable cd opts t es' floor := by
  obtain ⟨-, ⟨hfits, hl'⟩ | ⟨reason, healthy, hl'⟩⟩ := enqueue_cases cd events ack l
  all_goals
    rw [hnew] at hl'
    subst hl'
    refine extended_restartable h hwf l.reader.state.instanceId hfresh rfl rfl rfl (.inl rfl)
      (fun e he => ?_) (fun e he => ?_) hdisk hadv hes
  · simp only [Live.flight, List.flatMap_append, List.flatMap_singleton, (stamp_fits hfits).1] at he
    rwa [← List.append_assoc] at he
  · simp only [Live.unwritten, List.flatMap_append, List.flatMap_singleton, (stamp_fits hfits).1]
      at he
    rwa [← List.append_assoc] at he
  · exact List.mem_append_left _ he
  · exact List.mem_append_left _ he

theorem liveStep_restartable (h : l.Restartable cd opts s es floor) (hwf : l.Wf)
    (hj : l.Journaled cd s es) (hl : s.live = some l) {a : Act} (ha : a.isLive = true)
    (hend : writesAtEnd a s = true) (hstep : step cd opts a s = some t) (hl' : t.live = some l')
    (hadv : l.Advances l') (hes : es' ⊆ es ++ l.flight) : l'.Restartable cd opts t es' floor := by
  unfold step at hstep
  rw [hl] at hstep
  split at hstep
  · rename_i event l₁ heq
    cases heq
    split at hstep
    · rename_i hguard
      simp only [Bool.and_eq_true, Bool.or_eq_true, Bool.not_eq_true'] at hguard
      cases hstep
      have hfresh := record_fresh hguard.1.2 fun hout => hguard.2.resolve_left (by simp [hout])
      exact enqueue_restartable h hwf [event] false (Option.some.inj hl') hfresh rfl hadv hes
    · cases hstep
  · rename_i events l₁ heq
    cases heq
    split at hstep
    · rename_i hguard
      simp only [Bool.and_eq_true, List.all_eq_true, Bool.not_eq_true'] at hguard
      cases hstep
      exact enqueue_restartable h hwf events true (Option.some.inj hl') (critical_fresh hguard.2) rfl
        hadv hes
    · cases hstep
  · rename_i l₁ heq
    cases heq
    cases hstep
    cases hl'
    exact h.frame hwf hadv (by rfl) (by rfl) rfl rfl rfl (fun e he => he) (fun hc => hc) hes h.tail
      h.residue
  · rename_i choice l₁ heq
    cases heq
    exact writerStep_restartable h hwf hj hl hend hstep hl' hadv hes
  · cases ha
  · rename_i heq
    cases heq
  · cases hstep

/-! ## The whole system -/

/-- Every directory a crash can leave is whole, and every lifetime keeps it so. -/
def Sys.Recoverable (cd : Codec) (opts : Options) (s : Sys) : Prop :=
  ∃ es, s.Journaled cd es ∧
    match s.live with
    | some l => ∃ floor, l.Restartable cd opts s es floor
    | none => s.Whole cd opts

theorem fresh_recoverable : Sys.fresh.Recoverable cd opts := by
  refine ⟨[], fresh_journaled, fun x hpos hx => ?_, le_rfl, fun hs => ?_⟩
  · rcases hx with hle | ⟨e, he, -⟩
    · exact absurd hle (not_le.mpr hpos)
    · cases he
  · simp [Sys.fresh, Disk.saved, Disk.fresh, freshState] at hs

theorem crash_recoverable (h : s.Recoverable cd opts) {keep : Nat} {old : Bool}
    (hok : lossesSaved cd opts (.crash keep old) s = true)
    (hstep : step cd opts (.crash keep old) s = some t) : t.Recoverable cd opts := by
  obtain ⟨es, hj, h⟩ := h
  obtain ⟨es', hj'⟩ : ∃ es', t.Journaled cd es' := step_journaled ⟨es, hj⟩ rfl hstep
  cases hstep
  refine ⟨es', hj', ?_⟩
  unfold Sys.Journaled at hj
  cases hl : s.live with
  | some l =>
      rw [hl] at hj h
      obtain ⟨floor, h⟩ := h
      exact ⟨fun x _ hx => crash_accounts h hj.1 hj.2 hl hok hx, h.earliest, h.saved.counted⟩
  | none =>
      rw [hl] at hj h
      -- Everything is durable between two lifetimes: a second crash changes nothing.
      have hsame : s.disk.journal.crash keep old = s.disk.journal := by
        rw [hj.2]
        unfold File.crash File.durable
        cases old <;> simp
      have hdisk : (⟨s.disk.state, s.disk.journal.crash keep old⟩ : Disk) = s.disk := by rw [hsame]
      have haccounts := h.accounts
      rw [← hdisk] at haccounts
      exact ⟨haccounts, h.earliest, h.counted⟩

theorem step_recoverable {a : Act} (h : s.Recoverable cd opts)
    (hok : writesAtEnd a s = true ∧ lossesSaved cd opts a s = true)
    (hstep : step cd opts a s = some t) : t.Recoverable cd opts := by
  rcases act_cases a with ha | ⟨keep, old, rfl⟩ | ⟨now, journalId, instanceId, rfl⟩
  · obtain ⟨l, hl⟩ := live_of_step ha hstep
    obtain ⟨es, hj, h⟩ := h
    unfold Sys.Journaled at hj
    rw [hl] at hj h
    obtain ⟨floor, h⟩ := h
    obtain ⟨l', es', hl', hj', hes⟩ := liveStep_journaled hj.2 hj.1 hl ha hok.1 hstep
    obtain ⟨l₁, hl₁, hadv⟩ := step_run hj.1 ha hl hstep
    obtain rfl : l' = l₁ := Option.some.inj (hl'.symm.trans hl₁)
    refine ⟨es', ?_, ?_⟩
    · unfold Sys.Journaled
      rw [hl']
      exact ⟨hadv.wf, hj'⟩
    · rw [hl']
      exact ⟨floor, liveStep_restartable h hj.1 hj.2 hl ha hok.1 hstep hl' hadv hes⟩
  · exact crash_recoverable h hok.2 hstep
  · obtain ⟨es, hj, h⟩ := h
    cases hl : s.live with
    | some l => simp [step, hl] at hstep
    | none =>
        rw [hl] at h
        obtain ⟨es', hj'⟩ : ∃ es', t.Journaled cd es' := step_journaled ⟨es, hj⟩ rfl hstep
        obtain ⟨d, l, floor, -, -, hl', hr⟩ := start_restartable h hj hstep
        refine ⟨es', hj', ?_⟩
        rw [hl']
        exact ⟨floor, hr es' hj'⟩

/-- After every run over any number of lifetimes in which batches are written at
    the end of an intact file and crashes find what is lost accounted for, start-up
    recovers a reader that accounts for every sequence up to its cursor. -/
theorem restart_complete {now : Int} {journalId instanceId : Uuid}
    (hrun : Run (step cd opts)
      (fun a s => writesAtEnd a s = true ∧ lossesSaved cd opts a s = true) .fresh s)
    (hstart : step cd opts (.start now journalId instanceId) s = some t) (hl : t.live = some l) :
    l.reader.Complete := by
  obtain ⟨es, hj, h⟩ := hrun.invariant (I := fun s => s.Recoverable cd opts)
    (fun a s t h hok hstep => step_recoverable h hok hstep) fresh_recoverable
  have hnone : s.live = none := by
    cases hs : s.live with
    | none => rfl
    | some l => simp [step, hs] at hstart
  rw [hnone] at h
  obtain ⟨d, l₁, floor, hload, hcomplete, hl₁, -⟩ := start_restartable h hj hstart
  obtain ⟨d', l₂, hload', hl₂, hreader, -⟩ := start_wf hstart
  obtain rfl : l = l₂ := Option.some.inj (hl.symm.trans hl₂)
  rw [hload] at hload'
  cases hload'
  exact hreader ▸ hcomplete

/-- A write fails, the idle branch merges the lost range and saves it, power fails:
    the next lifetime recovers cursor 2 and a gap for it. -/
theorem restart_complete_persisted :
    ∃ s t l, Run (step smallTable.codec defaults)
        (fun a s => writesAtEnd a s = true ∧ lossesSaved smallTable.codec defaults a s = true)
        .fresh s ∧
      step smallTable.codec defaults (.start 0 1 2) s = some t ∧ t.live = some l ∧
      l.reader.state.nextCursor = 2 ∧ l.reader.Complete := by
  have hcheck : (execIf (step smallTable.codec defaults)
      (fun a s => writesAtEnd a s && lossesSaved smallTable.codec defaults a s)
      (.start 0 1 1 :: startUp ++ enqueueOne ++ failedWrite ++ idleMerge
        ++ [.writer .done, .crash 0 false]) .fresh).any (fun s =>
      (step smallTable.codec defaults (.start 0 1 2) s).any fun t =>
        t.live.any fun l => decide (l.reader.state.nextCursor = 2)) = true := by
    decide +kernel
  obtain ⟨s, hrun, hs⟩ := StepSystem.exists_of_execIf hcheck
  obtain ⟨t, hstart, ht⟩ := (Option.any_eq_true _ _).mp hs
  obtain ⟨l, hl, hnext⟩ := (Option.any_eq_true _ _).mp ht
  have hok : Run (step smallTable.codec defaults)
      (fun a s => writesAtEnd a s = true ∧ lossesSaved smallTable.codec defaults a s = true)
      .fresh s :=
    hrun.mono fun a s hok => Bool.and_eq_true_iff.mp hok
  exact ⟨s, t, l, hok, hstart, hl, of_decide_eq_true hnext, restart_complete hok hstart hl⟩

/-- A write fails, the next event is written and synced, and power fails before
    the lost range is saved: the next lifetime recovers cursor 3 and neither an
    event nor a gap for 2. -/
theorem restart_loses_failed_write :
    ∃ s t l, exec (step smallTable.codec defaults)
        (.start 0 1 1 :: startUp ++ enqueueOne ++ failedWrite ++ enqueueOne
          ++ [.writer .done, .writer .done, .crash 0 false]) .fresh = some s ∧
      step smallTable.codec defaults (.start 0 1 2) s = some t ∧ t.live = some l ∧
      ¬ l.reader.Complete := by
  have hcheck : (exec (step smallTable.codec defaults)
      (.start 0 1 1 :: startUp ++ enqueueOne ++ failedWrite ++ enqueueOne
          ++ [.writer .done, .writer .done, .crash 0 false]) .fresh).any (fun s =>
      (step smallTable.codec defaults (.start 0 1 2) s).any fun t =>
        t.live.any fun l => decide (l.reader.state.nextCursor = 3) &&
          decide (¬ l.reader.Accounts 2)) = true := by
    decide +kernel
  obtain ⟨s, hexec, hs⟩ := StepSystem.exists_of_exec hcheck
  obtain ⟨t, hstart, ht⟩ := (Option.any_eq_true _ _).mp hs
  obtain ⟨l, hl, hlost⟩ := (Option.any_eq_true _ _).mp ht
  simp only [Bool.and_eq_true, decide_eq_true_eq] at hlost
  exact ⟨s, t, l, hexec, hstart, hl, fun hcomplete =>
    hlost.2 (hcomplete 2 (by decide) (by omega))⟩

end VivadoServer.History
