/-
  VivadoServer.History.Window

  The window of a session: the head of its output and the newest bytes are kept,
  the middle is trimmed.  `session_windows` says where the kept tail begins, and
  start-up leaves out every line between the head and that place.

  So a window must never move past an event that is retained or still to come
  (`Unhidden`).  It does not, because the tail index lists every retained
  event behind the head in the order of its offset (`Indexed`).
-/

import VivadoServer.History.Durable

namespace VivadoServer.History

open Std (ExtTreeMap)

/-- Output of session `id` behind the head that is always kept. -/
structure Event.TailOf (head : Nat) (id : Uuid) (e : Event) : Prop where
  output : e.isOutput = true
  session : e.sessionId = some id
  offset : head ≤ e.offset

/-- The second rule of `retired`: the line is in the trimmed middle of its session. -/
def trimmed (head : Nat) (windows : ExtTreeMap Uuid Nat) (event : Event) : Bool :=
  event.event == outputKind &&
    match event.sessionId with
    | none => false
    | some id =>
      match windows[id]? with
      | none => false
      | some start =>
        match event.data.asU64 "byte_offset" with
        | none => false
        | some offset => decide (head ≤ offset) && decide (offset < start)

theorem retired_eq (state : State) (e : Event) : retired state e
    = (decide (e.seq ≤ state.earliestCursor) ||
        trimmed state.sessionHeadBytes state.sessionWindows e) := rfl

variable {opts : Options} {head : Nat} {windows windows' : ExtTreeMap Uuid Nat}
  {tails tails' : Tails} {r r' : Reader} {e : Event} {later : List Event}
  {counts counts' : ExtTreeMap Uuid Nat}

theorem trimmed_eq_true (h : trimmed head windows e = true) :
    ∃ id start, e.TailOf head id ∧ windows[id]? = some start ∧ e.offset < start := by
  unfold trimmed at h
  rw [Bool.and_eq_true] at h
  obtain ⟨hout, h⟩ := h
  split at h
  · cases h
  · rename_i id hid
    split at h
    · cases h
    · rename_i start hstart
      split at h
      · cases h
      · rename_i offset hoffset
        simp only [Bool.and_eq_true, decide_eq_true_eq] at h
        have heq : e.offset = offset := by rw [Event.offset, hoffset, Option.getD_some]
        exact ⟨id, start, ⟨hout, hid, heq ▸ h.1⟩, hstart, heq ▸ h.2⟩

/-- A window list that says no more about an event does not hide it either. -/
theorem trimmed_eq_false (h : trimmed head windows e = false)
    (hsub : ∀ {id : Uuid} {start : Nat}, e.TailOf head id → windows'[id]? = some start →
      windows[id]? = some start ∨ start ≤ e.offset) : trimmed head windows' e = false := by
  by_contra hhidden
  rw [Bool.not_eq_false] at hhidden
  obtain ⟨id, start, htail, hstart, hlt⟩ := trimmed_eq_true hhidden
  rcases hsub htail hstart with hold | hle
  · have hsame : trimmed head windows e = trimmed head windows' e := by
      unfold trimmed
      rw [htail.session]
      simp only [hstart, hold]
    rw [hsame, hhidden] at h
    cases h
  · exact absurd hlt (not_lt.mpr hle)

/-! ## Windows -/

/-- The windows hide no event that is retained or still to come, and begin within
    the recorded output. -/
structure Unhidden (head : Nat) (windows : ExtTreeMap Uuid Nat) (r : Reader) (later : List Event)
    (counts : ExtTreeMap Uuid Nat) : Prop where
  held : ∀ {k : Nat} {e : Event} {n : Nat}, r.events[k]? = some (e, n) →
    trimmed head windows e = false
  later : ∀ e ∈ later, trimmed head windows e = false
  counted : ∀ {id : Uuid} {start : Nat}, windows[id]? = some start → start ≤ outputCount counts id

namespace Unhidden

theorem sub (h : Unhidden head windows r later counts)
    (hevents : ∀ {k : Nat} {v : Event × Nat}, r'.events[k]? = some v → r.events[k]? = some v)
    {later' : List Event} (hlater : ∀ e ∈ later', e ∈ later) (hcounts : Counts counts counts') :
    Unhidden head windows r' later' counts' :=
  ⟨fun hk => h.held (hevents hk), fun e he => h.later e (hlater e he),
    fun hs => (h.counted hs).trans (hcounts _)⟩

/-- An event that was still to come is now retained. -/
theorem publish (h : Unhidden head windows r (e :: later) counts)
    (hevents : ∀ {k : Nat} {e' : Event} {n : Nat}, r'.events[k]? = some (e', n) →
      r.events[k]? = some (e', n) ∨ e' = e) : Unhidden head windows r' later counts := by
  refine ⟨fun hk => ?_, fun e' he' => h.later e' (List.mem_cons_of_mem _ he'), h.counted⟩
  rcases hevents hk with hk | rfl
  · exact h.held hk
  · exact h.later _ List.mem_cons_self

/-- New output lies behind every window. -/
theorem extend (h : Unhidden head windows r later counts) {events : List Event}
    (hfresh : Fresh counts counts' events) (instanceId : Uuid) (next : Nat) :
    Unhidden head windows r (later ++ stampStartup instanceId next events) counts' := by
  refine ⟨h.held, fun e he => ?_, fun hs => (h.counted hs).trans (hfresh.counts _)⟩
  rcases List.mem_append.mp he with he | he
  · exact h.later e he
  · by_contra hhidden
    rw [Bool.not_eq_false] at hhidden
    obtain ⟨id, start, htail, hstart, hlt⟩ := trimmed_eq_true hhidden
    obtain ⟨-, e₀, he₀, heq⟩ := mem_stampStartup he
    obtain ⟨hout, hid, -⟩ := htail
    rw [heq] at hout hid hlt
    have hoffset : e₀.offset = outputCount counts id := (hfresh.offset_eq he₀ hout hid).1
    have hcount : start ≤ outputCount counts id := h.counted hstart
    have hlt' : e₀.offset < start := hlt
    omega

theorem filter (h : Unhidden head windows r later counts) (f : Uuid → Nat → Bool) :
    Unhidden head (windows.filter f) r later counts := by
  have hsub : ∀ {id : Uuid} {start : Nat}, (windows.filter f)[id]? = some start →
      windows[id]? = some start := by
    intro id start hs
    rw [ExtTreeMap.getElem?_filter', Option.filter_eq_some_iff] at hs
    exact hs.1
  exact ⟨fun hk => trimmed_eq_false (h.held hk) fun _ hs => .inl (hsub hs),
    fun e he => trimmed_eq_false (h.later e he) fun _ hs => .inl (hsub hs),
    fun hs => h.counted (hsub hs)⟩

end Unhidden

/-! ## The tail index -/

/-- The index lists, in order, every retained event behind the head that is not
    still to be filed, and nothing that reaches beyond what is to come. -/
structure Indexed (head : Nat) (tails : Tails) (r : Reader) (later : List Event)
    (counts : ExtTreeMap Uuid Nat) : Prop where
  sorted : ∀ {id : Uuid} {bytes : Nat} {items : List TailItem}, tails[id]? = some (bytes, items) →
    items.Pairwise fun a b => a.offset + a.len ≤ b.offset
  held : ∀ {id : Uuid} {k : Nat} {e : Event} {n : Nat}, r.events[k]? = some (e, n) →
    e.TailOf head id → e ∈ later ∨ ∃ bytes items, tails[id]? = some (bytes, items) ∧
      ∃ item ∈ items, item.seq = k ∧ item.offset = e.offset
  before : ∀ {id : Uuid} {bytes : Nat} {items : List TailItem} {item : TailItem} {e : Event},
    tails[id]? = some (bytes, items) → item ∈ items → e ∈ later → e.TailOf head id →
      item.offset + item.len ≤ e.offset
  counted : ∀ {id : Uuid} {bytes : Nat} {items : List TailItem} {item : TailItem},
    tails[id]? = some (bytes, items) → item ∈ items →
      item.offset + item.len ≤ outputCount counts id

/-- The entry of an event. -/
def Event.tailItem (e : Event) : TailItem := ⟨e.seq, e.offset, e.byteLength⟩

/-- The last entry of the session's window, if any, is that of `e`. -/
def Tails.EndsWith (tails : Tails) (id : Uuid) (e : Event) : Prop :=
  ∀ {bytes : Nat} {items : List TailItem}, tails[id]? = some (bytes, items) → items ≠ [] →
    items.getLast? = some e.tailItem

/-- Exactly the events behind the head are filed. -/
theorem fileTail_cases (opts : Options) (tails : Tails) (e : Event) :
    (fileTail opts tails e = none ∧ ∀ id, ¬ e.TailOf opts.sessionHeadBytes id) ∨
      ∃ id, e.TailOf opts.sessionHeadBytes id ∧
        fileTail opts tails e = some (id, tails.insert id
          (((tails[id]?).getD (0, [])).1 + e.byteLength,
            ((tails[id]?).getD (0, [])).2 ++ [e.tailItem])) := by
  unfold fileTail
  dsimp only
  split
  · rename_i hkind
    split
    · rename_i hnone
      exact .inl ⟨rfl, fun id h => by rw [h.session] at hnone; cases hnone⟩
    · rename_i id hid
      split
      · rename_i hlt
        exact .inl ⟨rfl, fun id' h => absurd h.offset (not_le.mpr hlt)⟩
      · rename_i hge
        exact .inr ⟨id, ⟨by simp [Event.isOutput, hkind], hid, not_lt.mp hge⟩, rfl⟩
  · rename_i hkind
    refine .inl ⟨rfl, fun id h => hkind ?_⟩
    simpa [Event.isOutput] using h.output

namespace Indexed

/-- Less to come, fewer events. -/
theorem sub (h : Indexed head tails r later counts)
    (hevents : ∀ {k : Nat} {v : Event × Nat}, r'.events[k]? = some v → r.events[k]? = some v)
    {later' : List Event} (hlater : ∀ e ∈ later', e ∈ later)
    (hheld : ∀ {k : Nat} {e : Event} {n : Nat}, r'.events[k]? = some (e, n) → e ∈ later →
      e ∈ later') (hcounts : Counts counts counts') :
    Indexed head tails r' later' counts' where
  sorted := h.sorted
  held hk htail := (h.held (hevents hk) htail).imp_left (hheld hk)
  before ht hitem he := h.before ht hitem (hlater _ he)
  counted ht hitem := (h.counted ht hitem).trans (hcounts _)

/-- New output lies behind every entry. -/
theorem extend (h : Indexed head tails r later counts) {events : List Event}
    (hfresh : Fresh counts counts' events) (instanceId : Uuid) (next : Nat) :
    Indexed head tails r (later ++ stampStartup instanceId next events) counts' where
  sorted := h.sorted
  held hk htail := (h.held hk htail).imp_left (List.mem_append_left _)
  before {id bytes items item e} ht hitem he htail := by
    rcases List.mem_append.mp he with he | he
    · exact h.before ht hitem he htail
    · obtain ⟨-, e₀, he₀, heq⟩ := mem_stampStartup he
      obtain ⟨hout, hid, -⟩ := htail
      rw [heq] at hout hid ⊢
      rw [numbered_offset, (hfresh.offset_eq he₀ hout hid).1]
      exact h.counted ht hitem
  counted ht hitem := (h.counted ht hitem).trans (hfresh.counts _)

/-- An event that needs no entry is published. -/
theorem skip (h : Indexed head tails r (e :: later) counts) (hnone : ∀ id, ¬ e.TailOf head id)
    (hevents : ∀ {k : Nat} {e' : Event} {n : Nat}, r'.events[k]? = some (e', n) →
      r.events[k]? = some (e', n) ∨ e' = e) : Indexed head tails r' later counts where
  sorted := h.sorted
  held {id k e' n} hk htail := by
    rcases hevents hk with hk | rfl
    · rcases h.held hk htail with hin | hitem
      · rcases List.mem_cons.mp hin with rfl | hin
        · exact absurd htail (hnone id)
        · exact .inl hin
      · exact .inr hitem
    · exact absurd htail (hnone id)
  before ht hitem he := h.before ht hitem (List.mem_cons_of_mem _ he)
  counted := h.counted

/-- An event is filed and published. -/
theorem file (h : Indexed head tails r (e :: later) counts) {id : Uuid} (htail : e.TailOf head id)
    (hordered : ∀ e' ∈ later, Precedes e e')
    (hcount : e.offset + e.byteLength ≤ outputCount counts id)
    (hevents : ∀ {k : Nat} {e' : Event} {n : Nat}, r'.events[k]? = some (e', n) →
      e' ≠ e ∧ r.events[k]? = some (e', n) ∨ k = e.seq ∧ e' = e) {bytes : Nat} :
    Indexed head (tails.insert id (bytes, ((tails[id]?).getD (0, [])).2 ++ [e.tailItem])) r' later
      counts := by
  -- The entries of the window are the old ones and the new one.
  have hentry : ∀ {b : Nat} {items : List TailItem} {item : TailItem},
      (tails.insert id (bytes, ((tails[id]?).getD (0, [])).2 ++ [e.tailItem]))[id]?
        = some (b, items) → item ∈ items →
      (∃ b' items', tails[id]? = some (b', items') ∧ item ∈ items') ∨ item = e.tailItem := by
    intro b items item ht hitem
    rw [OrderedMap.getElem?_insert_self', Option.some.injEq, Prod.mk.injEq] at ht
    rw [← ht.2] at hitem
    rcases List.mem_append.mp hitem with hitem | hitem
    · cases hold : tails[id]? with
      | none =>
          rw [hold, Option.getD_none] at hitem
          cases hitem
      | some t =>
          rw [hold, Option.getD_some] at hitem
          exact .inl ⟨t.1, t.2, rfl, hitem⟩
    · exact .inr (List.mem_singleton.mp hitem)
  refine ⟨fun {id' b items} ht => ?_, fun {id' k e' n} hk ht' => ?_,
    fun {id' b items item e'} ht hitem he' htail' => ?_, fun {id' b items item} ht hitem => ?_⟩
  · by_cases hid : id = id'
    · subst hid
      have hnew := ht
      rw [OrderedMap.getElem?_insert_self', Option.some.injEq, Prod.mk.injEq] at hnew
      rw [← hnew.2]
      refine List.pairwise_append.mpr ⟨?_, List.pairwise_singleton _ _, fun a ha b hb => ?_⟩
      · cases hold : tails[id]? with
        | none => exact .nil
        | some t => exact h.sorted hold
      · rw [List.mem_singleton] at hb
        subst hb
        cases hold : tails[id]? with
        | none =>
            rw [hold, Option.getD_none] at ha
            cases ha
        | some t =>
            rw [hold, Option.getD_some] at ha
            exact h.before hold ha List.mem_cons_self htail
    · rw [OrderedMap.getElem?_insert_of_ne hid] at ht
      exact h.sorted ht
  · have hself : e'.TailOf head id → (∃ item ∈ ((tails[id]?).getD (0, [])).2 ++ [e.tailItem],
        item.seq = k ∧ item.offset = e'.offset) → e' ∈ later ∨ ∃ b items,
        (tails.insert id (bytes, ((tails[id]?).getD (0, [])).2 ++ [e.tailItem]))[id']?
          = some (b, items) ∧ ∃ item ∈ items, item.seq = k ∧ item.offset = e'.offset := by
      intro ht hitem
      obtain rfl : id = id' := Option.some.inj (ht.session.symm.trans ht'.session)
      exact .inr ⟨_, _, OrderedMap.getElem?_insert_self', hitem⟩
    rcases hevents hk with ⟨hne, hk⟩ | ⟨rfl, rfl⟩
    · rcases h.held hk ht' with hin | ⟨b, items, hold, item, hitem, hsame⟩
      · rcases List.mem_cons.mp hin with heq | hin
        · exact absurd heq hne
        · exact .inl hin
      · by_cases hid : id = id'
        · subst hid
          refine hself ht' ⟨item, List.mem_append_left _ ?_, hsame⟩
          rw [hold, Option.getD_some]
          exact hitem
        · refine .inr ⟨b, items, ?_, item, hitem, hsame⟩
          rw [OrderedMap.getElem?_insert_of_ne hid]
          exact hold
    · exact hself htail ⟨e'.tailItem, List.mem_append_right _ List.mem_cons_self, rfl, rfl⟩
  · by_cases hid : id = id'
    · subst hid
      rcases hentry ht hitem with ⟨b', items', hold, hitem⟩ | rfl
      · exact h.before hold hitem (List.mem_cons_of_mem _ he') htail'
      · exact (hordered e' he').2 htail.output htail'.output
          (htail.session.trans htail'.session.symm)
    · rw [OrderedMap.getElem?_insert_of_ne hid] at ht
      exact h.before ht hitem (List.mem_cons_of_mem _ he') htail'
  · by_cases hid : id = id'
    · subst hid
      rcases hentry ht hitem with ⟨b', items', hold, hitem⟩ | rfl
      · exact h.counted hold hitem
      · exact hcount
    · rw [OrderedMap.getElem?_insert_of_ne hid] at ht
      exact h.counted ht hitem

end Indexed

theorem endsWith_file {id : Uuid} {bytes : Nat} {items : List TailItem} :
    Tails.EndsWith (tails.insert id (bytes, items ++ [e.tailItem])) id e := by
  intro b items' ht _
  rw [OrderedMap.getElem?_insert_self', Option.some.injEq, Prod.mk.injEq] at ht
  rw [← ht.2, List.getLast?_concat]

/-! ## Trimming -/

theorem dropTrimmed_events {id start seq k : Nat} {v : Event × Nat}
    (h : (dropTrimmed id start seq r).events[k]? = some v) : r.events[k]? = some v ∧ k ≠ seq := by
  unfold dropTrimmed at h
  split at h
  · exact OrderedMap.getElem?_of_erase h
  · rename_i hnone
    exact ⟨h, fun heq => by rw [heq, hnone] at h; cases h⟩

/-- One round of trimming moves the window to the next entry. -/
theorem trimTail_indexed {id : Uuid} (h : Indexed head tails r later counts)
    (hwin : Unhidden head r.state.sessionWindows r later counts) (hlast : tails.EndsWith id e)
    (htrim : trimTail opts e id tails r = some (tails', r')) :
    Indexed head tails' r' later counts ∧
      Unhidden head r'.state.sessionWindows r' later counts ∧ tails'.EndsWith id e := by
  obtain ⟨bytes, item, rest, hold, -, rfl, hr'⟩ := trimTail_eq_some htrim
  generalize hstart : windowStart e item rest = start at hr'
  obtain ⟨hfirst, hsorted⟩ := List.pairwise_cons.mp (h.sorted hold)
  -- The window begins where the oldest entry that stays does, or behind the last one.
  have hentry : ∃ i ∈ item :: rest, start ≤ i.offset + i.len ∧ ∀ i' ∈ rest, start ≤ i'.offset := by
    cases rest with
    | nil =>
        have hitem : item = e.tailItem := Option.some.inj (hlast hold (List.cons_ne_nil _ _))
        refine ⟨item, List.mem_cons_self, ?_, by simp⟩
        rw [← hstart, hitem]
        exact le_rfl
    | cons front rest =>
        have hfront := (List.pairwise_cons.mp hsorted).1
        refine ⟨front, List.mem_cons_of_mem _ List.mem_cons_self, ?_, fun i' hi' => ?_⟩
        · rw [← hstart]
          exact Nat.le_add_right _ _
        · rw [← hstart]
          rcases List.mem_cons.mp hi' with rfl | hi'
          · exact le_rfl
          · exact (Nat.le_add_right _ _).trans (hfront i' hi')
  obtain ⟨i, hi, hend, hrest⟩ := hentry
  have hnew : ∀ {b : Nat} {items : List TailItem},
      (tails.insert id (bytes - item.len, rest))[id]? = some (b, items) → items = rest := by
    intro b items ht
    rw [OrderedMap.getElem?_insert_self', Option.some.injEq, Prod.mk.injEq] at ht
    exact ht.2.symm
  have hevents : ∀ {k : Nat} {v : Event × Nat}, r'.events[k]? = some v →
      r.events[k]? = some v ∧ k ≠ item.seq := fun hk => dropTrimmed_events (hr' ▸ hk)
  -- What stays behind the head of this session is still to come or has an entry that stays.
  have hstays : ∀ {k : Nat} {e' : Event} {n : Nat}, r'.events[k]? = some (e', n) →
      e'.TailOf head id →
      e' ∈ later ∨ ∃ item' ∈ rest, item'.seq = k ∧ item'.offset = e'.offset := by
    intro k e' n hk htail
    rcases h.held (hevents hk).1 htail with hin | ⟨b, items, ht, item', hitem', hseq, hoffset⟩
    · exact .inl hin
    · rw [hold, Option.some.injEq, Prod.mk.injEq] at ht
      rw [← ht.2] at hitem'
      rcases List.mem_cons.mp hitem' with rfl | hitem'
      · exact absurd hseq.symm (hevents hk).2
      · exact .inr ⟨item', hitem', hseq, hoffset⟩
  refine ⟨⟨fun {id' b items} ht => ?_, fun {id' k e' n} hk htail => ?_,
      fun {id' b items item' e'} ht hitem he' htail => ?_, fun {id' b items item'} ht hitem => ?_⟩,
    ?_, fun {b items} ht hne => ?_⟩
  · by_cases hid : id = id'
    · subst hid
      exact hnew ht ▸ hsorted
    · rw [OrderedMap.getElem?_insert_of_ne hid] at ht
      exact h.sorted ht
  · by_cases hid : id = id'
    · subst hid
      exact (hstays hk htail).imp_right fun hitem =>
        ⟨_, _, OrderedMap.getElem?_insert_self', hitem⟩
    · rw [OrderedMap.getElem?_insert_of_ne hid]
      exact h.held (hevents hk).1 htail
  · by_cases hid : id = id'
    · subst hid
      exact h.before hold (List.mem_cons_of_mem _ (hnew ht ▸ hitem)) he' htail
    · rw [OrderedMap.getElem?_insert_of_ne hid] at ht
      exact h.before ht hitem he' htail
  · by_cases hid : id = id'
    · subst hid
      exact h.counted hold (List.mem_cons_of_mem _ (hnew ht ▸ hitem))
    · rw [OrderedMap.getElem?_insert_of_ne hid] at ht
      exact h.counted ht hitem
  · have hsame : Unhidden head r.state.sessionWindows r' later counts :=
      hwin.sub (fun hk => (hevents hk).1) (fun e he => he) fun _ => le_rfl
    have hmoved : Unhidden head (r.state.sessionWindows.insert id start) r' later counts := by
      refine ⟨fun hk => trimmed_eq_false (hsame.held hk) fun {id' start'} htail hs => ?_,
        fun e' he' => trimmed_eq_false (hsame.later e' he') fun {id' start'} htail hs => ?_,
        fun {id' start'} hs => ?_⟩
      all_goals
        by_cases hid : id = id'
      case pos =>
        subst hid
        rw [OrderedMap.getElem?_insert_self', Option.some.injEq] at hs
        subst hs
        rcases hstays hk htail with hin | ⟨item', hitem', -, hoffset⟩
        · exact .inr (hend.trans (h.before hold hi hin htail))
        · exact .inr (hoffset ▸ hrest item' hitem')
      case neg =>
        rw [OrderedMap.getElem?_insert_of_ne hid] at hs
        exact .inl hs
      case pos =>
        subst hid
        rw [OrderedMap.getElem?_insert_self', Option.some.injEq] at hs
        subst hs
        exact .inr (hend.trans (h.before hold hi he' htail))
      case neg =>
        rw [OrderedMap.getElem?_insert_of_ne hid] at hs
        exact .inl hs
      case pos =>
        subst hid
        rw [OrderedMap.getElem?_insert_self', Option.some.injEq] at hs
        subst hs
        exact hend.trans (h.counted hold hi)
      case neg =>
        rw [OrderedMap.getElem?_insert_of_ne hid] at hs
        exact hsame.counted hs
    have hcases : r'.state.sessionWindows = r.state.sessionWindows ∨
        r'.state.sessionWindows = r.state.sessionWindows.insert id start := by
      rw [hr']
      unfold dropTrimmed
      split
      · exact .inr rfl
      · exact .inl rfl
    rcases hcases with heq | heq
    · rw [heq]
      exact hsame
    · rw [heq]
      exact hmoved
  · rw [hnew ht] at hne ⊢
    have hwhole := hlast hold (List.cons_ne_nil item rest)
    rwa [List.getLast?_cons_of_ne_nil hne] at hwhole

/-! ## Retention and start-up -/

/-- Retention drops entries from the front of a window, and none that is retained. -/
theorem dropPassed_spec (first : Option Nat) (tail : TailWindow) :
    (dropPassed first tail).2 <:+ tail.2 ∧
      ∀ item ∈ tail.2, (∃ seq, first = some seq ∧ seq ≤ item.seq) →
        item ∈ (dropPassed first tail).2 := by
  obtain ⟨bytes, items⟩ := tail
  induction items generalizing bytes with
  | nil =>
      rw [dropPassed]
      exact ⟨List.suffix_refl _, fun item hitem _ => hitem⟩
  | cons item items ih =>
      rw [dropPassed]
      split
      · rename_i hpassed
        obtain ⟨hsuffix, hkept⟩ := ih (bytes - item.len)
        refine ⟨hsuffix.trans (List.suffix_cons _ _), fun item' hitem' hretained => ?_⟩
        rcases List.mem_cons.mp hitem' with rfl | hitem'
        · obtain ⟨seq, rfl, hle⟩ := hretained
          rw [Option.all_some, decide_eq_true_eq] at hpassed
          exact absurd hpassed (not_lt.mpr hle)
        · exact hkept item' hitem' hretained
      · exact ⟨List.suffix_refl _, fun item' hitem' _ => hitem'⟩

theorem prune_windows (opts : Options) (now : Int) (tails : Tails) (r : Reader) :
    ∃ f, (prune opts now tails r).2.state.sessionWindows
      = (pruned opts now r).state.sessionWindows.filter f := ⟨_, rfl⟩

theorem pruneLoop_windows (opts : Options) (cutoff : Int) (entries : List (Nat × (Event × Nat)))
    (r : Reader) :
    (pruneLoop opts cutoff entries r).state.sessionWindows = r.state.sessionWindows := by
  induction entries generalizing r with
  | nil => rfl
  | cons entry entries ih =>
      rw [pruneLoop]
      split
      · rfl
      · exact ih _

/-- Retention keeps the index and moves no window. -/
theorem prune_indexed (opts : Options) (now : Int) (hr : r.Positive) (h : Indexed head tails r later counts)
    (hwin : Unhidden head r.state.sessionWindows r later counts) :
    Indexed head (prune opts now tails r).1 (prune opts now tails r).2 later counts ∧
      Unhidden head (prune opts now tails r).2.state.sessionWindows (prune opts now tails r).2
        later counts := by
  have hretires := prune_retires opts now tails hr
  have htails : ∀ {id : Uuid} {bytes : Nat} {items : List TailItem},
      (prune opts now tails r).1[id]? = some (bytes, items) → ∃ bytes' items',
        tails[id]? = some (bytes', items') ∧ items <:+ items' := by
    intro id bytes items ht
    simp only [prune, ExtTreeMap.getElem?_map, ExtTreeMap.getElem?_filter'] at ht
    obtain ⟨old, hold, heq⟩ := Option.map_eq_some_iff.mp ht
    obtain ⟨hold, -⟩ := Option.filter_eq_some_iff.mp hold
    refine ⟨old.1, old.2, hold, ?_⟩
    have hsuffix := (dropPassed_spec
      (pruneLoop opts (now - 1000 * opts.retentionSecs) r.events.toList r).events.keys.head? old).1
    rw [heq] at hsuffix
    exact hsuffix
  refine ⟨⟨fun ht => ?_, fun {id k e n} hk htail => ?_, fun ht hitem => ?_, fun ht hitem => ?_⟩, ?_⟩
  · obtain ⟨bytes', items', hold, hsuffix⟩ := htails ht
    exact (h.sorted hold).sublist hsuffix.sublist
  · rcases h.held (hretires.sub hk) htail with hin | ⟨bytes, items, hold, item, hitem, hseq, hoffset⟩
    · exact .inl hin
    · have hk' : (pruneLoop opts (now - 1000 * opts.retentionSecs) r.events.toList r).events[k]?
          = some (e, n) := hk
      cases hfirst :
          (pruneLoop opts (now - 1000 * opts.retentionSecs) r.events.toList r).events.keys.head? with
      | none =>
          rw [OrderedMap.head?_keys_eq_none hfirst] at hk'
          cases hk'
      | some first =>
          have hle := (OrderedMap.head?_keys_eq_some hfirst).2 k _ hk'
          have hkept := (dropPassed_spec (some first) (bytes, items)).2 item hitem
            ⟨first, rfl, hseq ▸ hle⟩
          refine .inr ⟨(dropPassed (some first) (bytes, items)).1,
            (dropPassed (some first) (bytes, items)).2, ?_, item, hkept, hseq, hoffset⟩
          have hsession : retainedSession
              (pruneLoop opts (now - 1000 * opts.retentionSecs) r.events.toList r).events id
                = true := by
            refine List.any_eq_true.mpr ⟨(k, (e, n)), OrderedMap.mem_toList.mpr hk', ?_⟩
            simp [htail.session]
          simp only [prune, ExtTreeMap.getElem?_map, ExtTreeMap.getElem?_filter', hold, hfirst]
          simp [hsession]
  · obtain ⟨bytes', items', hold, hsuffix⟩ := htails ht
    exact h.before hold (hsuffix.subset hitem)
  · obtain ⟨bytes', items', hold, hsuffix⟩ := htails ht
    exact h.counted hold (hsuffix.subset hitem)
  · obtain ⟨f, hf⟩ := prune_windows opts now tails r
    rw [hf, pruned, pruneLoop_windows]
    exact (hwin.sub hretires.sub (fun e he => he) fun _ => le_rfl).filter f

/-- Filing one event at start-up, and trimming behind it. -/
theorem trackTail_indexed
    (h : Indexed opts.sessionHeadBytes tails r (e :: later) counts)
    (hwin : Unhidden opts.sessionHeadBytes r.state.sessionWindows r (e :: later) counts)
    (hseq : ∀ {k n : Nat}, r.events[k]? = some (e, n) → k = e.seq)
    (hordered : ∀ e' ∈ later, Precedes e e')
    (hcount : ∀ {id : Uuid}, e.isOutput = true → e.sessionId = some id →
      e.offset + e.byteLength ≤ outputCount counts id) :
    Indexed opts.sessionHeadBytes (trackTail opts e tails r).1 (trackTail opts e tails r).2 later
        counts ∧
      Unhidden opts.sessionHeadBytes (trackTail opts e tails r).2.state.sessionWindows
        (trackTail opts e tails r).2 later counts := by
  have hunhidden : Unhidden opts.sessionHeadBytes r.state.sessionWindows r later counts :=
    hwin.publish fun hk => .inl hk
  unfold trackTail
  rcases fileTail_cases opts tails e with ⟨hnone, hno⟩ | ⟨id, htail, hsome⟩
  · rw [hnone]
    exact ⟨h.skip hno fun hk => .inl hk, hunhidden⟩
  · rw [hsome]
    dsimp only
    refine (fun hloop => ⟨hloop.1, hloop.2.1⟩) (trimLoop_induction
      (P := fun tails r => Indexed opts.sessionHeadBytes tails r later counts ∧
        Unhidden opts.sessionHeadBytes r.state.sessionWindows r later counts ∧
        tails.EndsWith id e) (fun hp htrim => trimTail_indexed hp.1 hp.2.1 hp.2.2 htrim) _ ?_)
    refine ⟨h.file htail hordered (hcount htail.output htail.session) fun {k e' n} hk => ?_, hunhidden,
      endsWith_file⟩
    by_cases heq : e' = e
    · subst heq
      exact .inr ⟨hseq hk, rfl⟩
    · exact .inl ⟨heq, hk⟩

/-- Start-up indexes every retained event. -/
theorem rebuildTails_indexed (hr : r.Filed) (hordered : r.values.Pairwise Precedes)
    (hcount : ∀ e ∈ r.values, ∀ id, e.isOutput = true → e.sessionId = some id →
      e.offset + e.byteLength ≤ outputCount counts id)
    (hwin : Unhidden opts.sessionHeadBytes r.state.sessionWindows r [] counts) :
    Indexed opts.sessionHeadBytes (rebuildTails opts r).1 (rebuildTails opts r).2 [] counts ∧
      Unhidden opts.sessionHeadBytes (rebuildTails opts r).2.state.sessionWindows
        (rebuildTails opts r).2 [] counts := by
  have hfold : ∀ (entries : List (Nat × (Event × Nat))) (tails : Tails) (r₁ : Reader),
      r.Retires r₁ → (∀ entry ∈ entries, entry.2.1 ∈ r.values) →
      (entries.map (·.2.1)).Pairwise Precedes →
      Indexed opts.sessionHeadBytes tails r₁ (entries.map (·.2.1)) counts →
      Unhidden opts.sessionHeadBytes r₁.state.sessionWindows r₁ (entries.map (·.2.1)) counts →
      Indexed opts.sessionHeadBytes
          (entries.foldl (fun acc entry => trackTail opts entry.2.1 acc.1 acc.2) (tails, r₁)).1
          (entries.foldl (fun acc entry => trackTail opts entry.2.1 acc.1 acc.2) (tails, r₁)).2
          [] counts ∧
        Unhidden opts.sessionHeadBytes
          (entries.foldl (fun acc entry => trackTail opts entry.2.1 acc.1 acc.2)
            (tails, r₁)).2.state.sessionWindows
          (entries.foldl (fun acc entry => trackTail opts entry.2.1 acc.1 acc.2) (tails, r₁)).2
          [] counts := by
    intro entries
    induction entries with
    | nil => exact fun tails r₁ _ _ _ h hw => ⟨h, hw⟩
    | cons entry entries ih =>
        intro tails r₁ hretires hmem hpairs h hw
        obtain ⟨hfirst, hrest⟩ := List.pairwise_cons.mp hpairs
        have hfiled := hretires.filed hr
        obtain ⟨h', hw'⟩ := trackTail_indexed h hw (fun hk => (hfiled.key hk).symm) hfirst
          fun {id} => hcount entry.2.1 (hmem entry List.mem_cons_self) id
        exact ih _ _ (hretires.trans (trackTail_retires opts entry.2.1 tails hfiled.positive).1)
          (fun entry' he => hmem entry' (List.mem_cons_of_mem _ he)) hrest h' hw'
  have hheld : ∀ {k : Nat} {e : Event} {n : Nat}, r.events[k]? = some (e, n) →
      e ∈ r.events.toList.map (·.2.1) :=
    fun hk => List.mem_map.mpr ⟨_, OrderedMap.mem_toList.mpr hk, rfl⟩
  refine hfold r.events.toList ∅ r (.refl r) (fun entry hentry => ?_) hordered ?_ ?_
  · exact List.mem_map_of_mem hentry
  · exact ⟨fun ht => by simp at ht, fun hk _ => .inl (hheld hk), fun ht => by simp at ht,
      fun ht => by simp at ht⟩
  · refine ⟨hwin.held, fun e he => ?_, hwin.counted⟩
    obtain ⟨k, n, hk⟩ := mem_values he
    exact hwin.held hk

end VivadoServer.History
