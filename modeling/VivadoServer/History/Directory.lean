/-
  VivadoServer.History.Directory

  What the directory of the journal says about each sequence, and what a crash
  leaves of it.

  The journal and `state.json` are replaced one after the other, and a range that
  was lost is known to the reader, or to the writer alone, before it is in
  `state.json`; an event behind it can be durable by then.  `Disk.Accounts` is what a
  directory says about one sequence, `Disk.Reaches` how far its cursor goes, and
  `crash_accounts` that a crash leaves a directory that accounts for all it
  reaches, if what memory lists as lost was saved as far as that
  (`lossesSaved`).
-/

import VivadoServer.History.Window

namespace VivadoServer.History

open Std (ExtTreeMap)
open StepSystem (Run exec execIf)

variable {cd : Codec} {opts : Options} {s t : Sys} {l l' : Live} {es : List Event} {e : Event}

/-! ## What a directory says -/

/-- The events of the whole lines of a text. -/
def Codec.lines (cd : Codec) (bytes : Bytes) : List Event :=
  (Lines.split newline bytes).filterMap fun line =>
    if line.getLast? = some newline then cd.fromSlice line else none

/-- The state that start-up reads, or makes up for an empty directory. -/
def Disk.saved (opts : Options) (disk : Disk) : State := disk.state.getD (freshState opts 0 0)

/-- Start-up will leave the line out. -/
def Disk.hides (opts : Options) (disk : Disk) (e : Event) : Bool :=
  decide (e.seq ≤ (disk.saved opts).earliestCursor) ||
    trimmed opts.sessionHeadBytes (disk.saved opts).sessionWindows e

/-- The persisted cursor or a whole line reaches `x`. -/
def Disk.Reaches (cd : Codec) (opts : Options) (disk : Disk) (x : Nat) : Prop :=
  x ≤ (disk.saved opts).nextCursor ∨ ∃ e ∈ cd.lines disk.journal.bytes, x ≤ e.seq

/-- `x` is in a persisted gap, a line that start-up keeps, or older than
    everything start-up keeps. -/
def Disk.Accounts (cd : Codec) (opts : Options) (disk : Disk) (x : Nat) : Prop :=
  Covered (disk.saved opts).gaps x ∨
    (∃ e ∈ cd.lines disk.journal.bytes, e.seq = x ∧ disk.hides opts e = false) ∨
    x ≤ (disk.saved opts).earliestCursor ∨
    ∀ e ∈ cd.lines disk.journal.bytes, disk.hides opts e = false → x < e.seq

instance (disk : Disk) (x : Nat) : Decidable (disk.Reaches cd opts x) :=
  inferInstanceAs (Decidable (_ ∨ _))

instance (disk : Disk) (x : Nat) : Decidable (disk.Accounts cd opts x) :=
  inferInstanceAs (Decidable (_ ∨ _ ∨ _ ∨ _))

/-- The ranges memory lists as lost, shown to readers or not. -/
def Live.lostGaps (l : Live) : List Gap := l.reader.state.gaps ++ l.parked

/-- A crash finds what memory lists as lost accounted for on the disk, as far as
    the directory reaches. -/
def lossesSaved (cd : Codec) (opts : Options) (a : Act) (s : Sys) : Bool :=
  match a, s.live with
  | .crash keep old, some l =>
    let disk := { s.disk with journal := s.disk.journal.crash keep old }
    decide (∀ x ≤ l.producer, Covered l.lostGaps x → disk.Reaches cd opts x →
      disk.Accounts cd opts x)
  | _, _ => true

/-! ## Lines -/

theorem lines_append (cd : Codec) (es : List Event) (bytes : Bytes) :
    cd.lines (cd.encode es ++ bytes) = es ++ cd.lines bytes := by
  have hlines : ∀ line ∈ es.map cd.toVec, newline ∉ line := by
    intro line hline
    obtain ⟨e, -, rfl⟩ := List.mem_map.mp hline
    exact cd.newline_notMem e
  rw [Codec.lines, encode_eq_text, Lines.split_lines hlines, List.filterMap_append]
  congr 1
  rw [List.map_map, List.filterMap_map]
  refine (List.filterMap_congr fun e _ => ?_).trans List.filterMap_some
  have hread := cd.fromSlice_toVec e
  simp [Function.comp_def, hread]

theorem lines_torn (cd : Codec) {torn : Bytes} (h : newline ∉ torn) : cd.lines torn = [] := by
  rw [Codec.lines, Lines.split_torn h]
  split
  · rfl
  · have hlast : torn.getLast? ≠ some newline := fun hlast => h (List.mem_of_getLast? hlast)
    simp [hlast]

@[simp] theorem lines_nil (cd : Codec) : cd.lines [] = [] := rfl

theorem lines_encode (cd : Codec) (es : List Event) : cd.lines (cd.encode es) = es := by
  have h := lines_append cd es []
  rwa [lines_nil, List.append_nil, List.append_nil] at h

/-- A text cut off has the first lines. -/
theorem lines_mono {a b : Bytes} (h : a <+: b) : cd.lines a <+: cd.lines b := by
  obtain ⟨rest, rfl⟩ := h
  obtain ⟨ls, torn, rfl, hls, htorn⟩ := Lines.exists_lines_torn newline a
  have hnone := lines_torn cd htorn
  rw [Codec.lines] at hnone
  rw [Codec.lines, Codec.lines, List.append_assoc, Lines.split_lines hls, Lines.split_lines hls,
    List.filterMap_append, List.filterMap_append, hnone, List.append_nil]
  exact List.prefix_append _ _

/-- What a crash leaves of a journal: its lines, and the first lines of what was
    written behind them or cut off there. -/
theorem crash_lines {outputBytes : ExtTreeMap Uuid Nat} {disk : Disk}
    (h : disk.Journaled cd outputBytes es) (keep : Nat) (old : Bool) :
    ∃ lost, cd.lines (disk.journal.crash keep old).bytes = es ++ lost ∧
      (lost <+: cd.lines (disk.journal.bytes.drop (cd.encode es).length) ∨
        lost <+: cd.lines disk.journal.residue) := by
  obtain ⟨tail, hbytes, -⟩ := h.bytes
  have hcut : ∀ n, (cd.encode es).length ≤ n →
      disk.journal.bytes.take n = cd.encode es ++ tail.take (n - (cd.encode es).length) := by
    intro n hn
    rw [hbytes, List.take_append, List.take_of_length_le hn]
  have htail : ∀ n, cd.lines (tail.take n) <+: cd.lines (disk.journal.bytes.drop (cd.encode es).length) := by
    intro n
    rw [hbytes, List.drop_left]
    exact lines_mono (List.take_prefix _ _)
  cases old with
  | false =>
      refine ⟨_, ?_, .inl (htail (disk.journal.synced + keep - (cd.encode es).length))⟩
      change cd.lines (disk.journal.bytes.take (disk.journal.synced + keep)) = _
      rw [hcut _ (h.synced.trans (Nat.le_add_right _ _)), lines_append]
  | true =>
      have hcrash : (disk.journal.crash keep true).bytes
          = disk.journal.bytes.take disk.journal.synced ++ disk.journal.residue.take keep := rfl
      rw [hcrash]
      rcases h.rolled with hnone | hexact
      · refine ⟨_, ?_, .inl (htail (disk.journal.synced - (cd.encode es).length))⟩
        rw [hnone, List.take_nil, List.append_nil, hcut _ h.synced, lines_append]
      · refine ⟨_, ?_, .inr (lines_mono (List.take_prefix keep _))⟩
        rw [hcut _ h.synced, hexact, Nat.sub_self, List.take_zero, List.append_nil, lines_append]

/-! ## The invariant of a lifetime -/

/-- The batch that is being synced. -/
def Pc.syncing : Pc → List Event
  | .sync _ batch => batch.map (·.1)
  | _ => []

/-- Lines that stand behind the journal's own: the batch that is being synced, or
    events of this lifetime that were lost before all that is still to be written. -/
def Live.Behind (l : Live) (floor : Nat) (lost : List Event) : Prop :=
  lost <+: l.pc.syncing ∨
    ∀ e ∈ lost, floor < e.seq ∧ e.seq ≤ l.producer ∧ ∀ e' ∈ l.unwritten, e.seq < e'.seq

/-- What a crash in this lifetime must not find broken.  `floor` is how far
    start-up's own `earliest_cursor` reached: nothing below it is kept any more, and
    the directory says so. -/
structure Live.Restartable (cd : Codec) (opts : Options) (s : Sys) (l : Live) (es : List Event)
    (floor : Nat) : Prop where
  account : l.ledger.Accounted floor
  floor_le : floor ≤ l.reader.state.earliestCursor
  floor_saved : floor ≤ (s.disk.saved opts).earliestCursor ∨
    ∀ e ∈ es, s.disk.hides opts e = false → floor < e.seq
  head : (s.disk.saved opts).nextCursor ≤ l.reader.state.nextCursor
  earliest : (s.disk.saved opts).earliestCursor ≤ (s.disk.saved opts).nextCursor
  indexed : Indexed opts.sessionHeadBytes l.tails l.reader l.flight s.outputBytes
  shown : Unhidden opts.sessionHeadBytes l.reader.state.sessionWindows l.reader l.flight
    s.outputBytes
  saved : Unhidden opts.sessionHeadBytes (s.disk.saved opts).sessionWindows l.reader l.flight
    s.outputBytes
  last : ∀ {c : Caller} {event : Event} {id : Uuid} {rest : List (Event × Nat)},
    l.pc = .trim c event id rest → l.tails.EndsWith id event
  tail : l.Behind floor (cd.lines (s.disk.journal.bytes.drop l.physical))
  residue : l.Behind floor (cd.lines s.disk.journal.residue)

variable {floor : Nat}

theorem behind_nil (l : Live) (floor : Nat) : l.Behind floor [] :=
  .inl (List.nil_prefix)

/-- Nothing is being synced, and no more is still to be written. -/
theorem Live.Behind.mono {lost : List Event} (h : l.Behind floor lost)
    (hsync : l.pc.syncing = l'.pc.syncing ∨ l.pc.syncing = [])
    (hproducer : l.producer ≤ l'.producer)
    (hunwritten : ∀ e ∈ l'.unwritten, e ∈ l.unwritten ∨ l.producer < e.seq) :
    l'.Behind floor lost := by
  rcases h with h | h
  · rcases hsync with hsame | hnone
    · exact .inl (hsame ▸ h)
    · rw [hnone, List.prefix_nil] at h
      rw [h]
      exact behind_nil l' floor
  · refine .inr fun e he => ?_
    obtain ⟨hfloor, hle, hbefore⟩ := h e he
    refine ⟨hfloor, hle.trans hproducer, fun e' he' => ?_⟩
    rcases hunwritten e' he' with hin | hnew
    · exact hbefore e' hin
    · exact hle.trans_lt hnew

/-- Events in flight are above the floor. -/
theorem Live.Restartable.floor_lt (h : l.Restartable cd opts s es floor) (hwf : l.Wf)
    (he : e ∈ l.flight) : floor < e.seq :=
  (h.floor_le.trans hwf.sound.earliest_le).trans_lt (hwf.flight_bound he).1

/-- Nothing that is held is in flight. -/
theorem Live.Wf.notMem_flight (hwf : l.Wf) {k n : Nat} (hk : l.reader.events[k]? = some (e, n)) :
    e ∉ l.flight := by
  intro he
  have hkey := hwf.sound.key hk
  have hbelow := hwf.sound.below hk
  have habove := (hwf.flight_bound he).1
  omega

/-- A step that persists nothing keeps the account. -/
theorem Live.Restartable.advance (h : l.Restartable cd opts s es floor) (hwf : l.Wf)
    (hadv : l.Advances l') (hstate : t.disk.state = s.disk.state)
    {es' : List Event} (hes : es' ⊆ es ++ l.flight)
    (hindexed : Indexed opts.sessionHeadBytes l'.tails l'.reader l'.flight t.outputBytes)
    (hshown : Unhidden opts.sessionHeadBytes l'.reader.state.sessionWindows l'.reader l'.flight
      t.outputBytes)
    (hsaved : Unhidden opts.sessionHeadBytes (s.disk.saved opts).sessionWindows l'.reader l'.flight
      t.outputBytes)
    (hlast : ∀ {c : Caller} {event : Event} {id : Uuid} {rest : List (Event × Nat)},
      l'.pc = .trim c event id rest → l'.tails.EndsWith id event)
    (htail : l'.Behind floor (cd.lines (t.disk.journal.bytes.drop l'.physical)))
    (hresidue : l'.Behind floor (cd.lines t.disk.journal.residue)) :
    l'.Restartable cd opts t es' floor := by
  have hsame : t.disk.saved opts = s.disk.saved opts := by rw [Disk.saved, Disk.saved, hstate]
  have hhides : ∀ e, t.disk.hides opts e = s.disk.hides opts e := by
    intro e
    rw [Disk.hides, Disk.hides, hsame]
  refine ⟨hadv.run.accounted h.account, h.floor_le.trans hadv.earliest, ?_, ?_, ?_, hindexed, hshown,
    hsame ▸ hsaved, hlast, htail, hresidue⟩
  · rw [hsame]
    refine h.floor_saved.imp_right fun hlines e he hkept => ?_
    rcases List.mem_append.mp (hes he) with he | he
    · exact hlines e he (hhides e ▸ hkept)
    · exact h.floor_lt hwf he
  · rw [hsame]
    exact h.head.trans hadv.run.head_le
  · rw [hsame]
    exact h.earliest

/-- A step that files, trims and persists nothing. -/
theorem Live.Restartable.frame (h : l.Restartable cd opts s es floor) (hwf : l.Wf)
    (hadv : l.Advances l')
    (hstate : t.disk.state = s.disk.state) (hcount : t.outputBytes = s.outputBytes)
    (htails : l'.tails = l.tails)
    (hevents : l'.reader.events = l.reader.events)
    (hwindows : l'.reader.state.sessionWindows = l.reader.state.sessionWindows)
    (hflight : ∀ e ∈ l'.flight, e ∈ l.flight)
    (hlast : ∀ {c : Caller} {event : Event} {id : Uuid} {rest : List (Event × Nat)},
      l'.pc = .trim c event id rest → l.pc = .trim c event id rest)
    {es' : List Event} (hes : es' ⊆ es ++ l.flight)
    (htail : l'.Behind floor (cd.lines (t.disk.journal.bytes.drop l'.physical)))
    (hresidue : l'.Behind floor (cd.lines t.disk.journal.residue)) :
    l'.Restartable cd opts t es' floor := by
  have hsub : ∀ {k : Nat} {v : Event × Nat}, l'.reader.events[k]? = some v →
      l.reader.events[k]? = some v := fun hk => hevents ▸ hk
  have hcounts : Counts s.outputBytes t.outputBytes := fun id => hcount ▸ le_rfl
  refine h.advance hwf hadv hstate hes ?_ ?_ (h.saved.sub hsub hflight hcounts)
    (fun hpc => htails ▸ h.last (hlast hpc)) htail hresidue
  · rw [htails]
    exact h.indexed.sub hsub hflight (fun hk he => absurd he (hwf.notMem_flight (hsub hk))) hcounts
  · rw [hwindows]
    exact h.shown.sub hsub hflight hcounts

/-! ## A crash -/

/-- The batch that is being synced is written next. -/
theorem syncing_prefix_unwritten (l : Live) : l.pc.syncing <+: l.unwritten := by
  unfold Live.unwritten
  cases l.pc with
  | sync c batch => exact List.prefix_append _ _
  | _ => exact List.nil_prefix

/-- Whatever is to be written before a line that a crash left is such a line, too. -/
theorem Live.Behind.mem_of_le {lost : List Event} (h : l.Behind floor lost) (hwf : l.Wf)
    {e' : Event} (he : e ∈ l.unwritten) (he' : e' ∈ lost) (hle : e.seq ≤ e'.seq) : e ∈ lost := by
  rcases h with h | h
  · have hsorted : (l.unwritten.map Event.seq).Pairwise (· < ·) :=
      hwf.flight_sorted.sublist (l.unwritten_sublist_flight.map _)
    obtain ⟨rest, hrest⟩ := h.trans (syncing_prefix_unwritten l)
    rw [← hrest, List.map_append] at hsorted
    rw [← hrest] at he
    rcases List.mem_append.mp he with he | he
    · exact he
    · have hlt := (List.pairwise_append.mp hsorted).2.2 _ (List.mem_map_of_mem he') _
        (List.mem_map_of_mem he)
      omega
  · have hlt := (h e' he').2.2 e he
    omega

/-- Lines that stand behind the journal's own have sequences of this lifetime. -/
theorem Live.Behind.bound {lost : List Event} (h : l.Behind floor lost)
    (hr : l.Restartable cd opts s es floor) (hwf : l.Wf) (he : e ∈ lost) :
    floor < e.seq ∧ e.seq ≤ l.producer := by
  rcases h with h | h
  · have hflight : e ∈ l.flight :=
      l.unwritten_sublist_flight.subset ((syncing_prefix_unwritten l).subset (h.subset he))
    exact ⟨hr.floor_lt hwf hflight, (hwf.flight_bound hflight).2⟩
  · exact ⟨(h e he).1, (h e he).2.1⟩

theorem mem_flight_cases (l : Live) (he : e ∈ l.flight) : e ∈ l.unwritten ∨ e ∈ l.pc.written := by
  unfold Live.flight Live.unwritten at *
  rcases List.mem_append.mp he with he | he
  · cases hpc : l.pc with
    | collect | write | sync =>
        rw [hpc] at he
        exact .inl (List.mem_append_left _ he)
    | insert | trim =>
        rw [hpc] at he
        exact .inr he
    | _ =>
        rw [hpc] at he
        cases he
  · exact .inl (List.mem_append_right _ he)

/-- A crash leaves a directory that accounts for everything it reaches. -/
theorem crash_accounts (h : l.Restartable cd opts s es floor) (hwf : l.Wf)
    (hj : l.Journaled cd s es) (hl : s.live = some l) {keep : Nat} {old : Bool}
    (hok : lossesSaved cd opts (.crash keep old) s = true) {x : Nat}
    (hx : Disk.Reaches cd opts { s.disk with journal := s.disk.journal.crash keep old } x) :
    Disk.Accounts cd opts { s.disk with journal := s.disk.journal.crash keep old } x := by
  obtain ⟨lost, hlines, hlost⟩ := crash_lines hj.disk keep old
  have hbehind : l.Behind floor lost := by
    rcases hlost with hlost | hlost
    · rw [← hj.physical] at hlost
      exact h.tail.imp hlost.trans fun hall e he => hall e (hlost.subset he)
    · exact h.residue.imp hlost.trans fun hall e he => hall e (hlost.subset he)
  have hnext : (s.disk.saved opts).nextCursor ≤ l.reader.state.nextCursor := h.head
  have hx' : x ≤ (s.disk.saved opts).nextCursor ∨ ∃ e ∈ es ++ lost, x ≤ e.seq := hlines ▸ hx
  have hbound : ∀ e ∈ es ++ lost, e.seq ≤ l.producer := by
    intro e he
    rcases List.mem_append.mp he with he | he
    · exact hj.bound e he
    · exact (hbehind.bound h hwf he).2
  have hproducer : x ≤ l.producer := by
    rcases hx' with hle | ⟨e, he, hle⟩
    · exact (hle.trans hnext).trans hwf.ordered.head_le
    · exact hle.trans (hbound e he)
  -- A line that no window hides is kept, or older than the persisted `earliest_cursor`.
  have hline : ∀ e ∈ es ++ lost,
      trimmed opts.sessionHeadBytes (s.disk.saved opts).sessionWindows e = false →
      Disk.Accounts cd opts { s.disk with journal := s.disk.journal.crash keep old } e.seq := by
    intro e he hshown
    by_cases hle : e.seq ≤ (s.disk.saved opts).earliestCursor
    · exact .inr (.inr (.inl hle))
    · refine .inr (.inl ⟨e, hlines ▸ he, rfl, ?_⟩)
      show (decide (e.seq ≤ (s.disk.saved opts).earliestCursor) ||
        trimmed opts.sessionHeadBytes (s.disk.saved opts).sessionWindows e) = false
      rw [hshown, decide_eq_false hle, Bool.or_false]
  rcases h.account x hproducer with hfloor | hshown | hcovered | hparked | hflight
  · rcases h.floor_saved with hsaved | hsaved
    · exact .inr (.inr (.inl (hfloor.trans hsaved)))
    · refine .inr (.inr (.inr fun e he hkept => ?_))
      rw [hlines] at he
      rcases List.mem_append.mp he with he | he
      · exact hfloor.trans_lt (hsaved e he hkept)
      · exact hfloor.trans_lt (hbehind.bound h hwf he).1
  · obtain ⟨⟨e, n⟩, hk⟩ := OrderedMap.mem_iff_exists.mp hshown
    have hkey : e.seq = x := hwf.sound.key hk
    exact hkey ▸ hline e (List.mem_append_left _ (hj.held hk)) (h.saved.held hk)
  · simp only [lossesSaved, hl, decide_eq_true_eq] at hok
    exact hok x hproducer (covered_append.mpr (.inl hcovered)) hx
  · simp only [lossesSaved, hl, decide_eq_true_eq] at hok
    exact hok x hproducer (covered_append.mpr (.inr hparked)) hx
  · obtain ⟨e, he, rfl⟩ := List.mem_map.mp hflight
    refine hline e ?_ (h.saved.later e he)
    rcases mem_flight_cases l he with hu | hw
    · have habove := (hwf.flight_bound he).1
      rcases hx' with hle | ⟨e', he', hle⟩
      · omega
      · rcases List.mem_append.mp he' with he' | he'
        · have hlt := ((List.pairwise_append.mp hj.ordered).2.2 e' he' e hu).1
          omega
        · exact List.mem_append_right _ (hbehind.mem_of_le hwf hu he' hle)
    · exact List.mem_append_left _ (hj.written e hw)

end VivadoServer.History
