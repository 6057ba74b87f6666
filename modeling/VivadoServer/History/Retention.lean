/-
  VivadoServer.History.Retention

  Session trimming and retention only ever take events out of a reader, and
  describe every event they take out by a gap (`Reader.Retires`).  Retention
  also recomputes `earliest_cursor`, which never passes a retained event.
-/

import VivadoServer.History.Disk
import VivadoServer.History.Page

namespace VivadoServer.History

open Std (ExtTreeMap)

/-- `r'` is `r` less some events, each of which a gap of `r'` covers. -/
structure Reader.Retires (r r' : Reader) : Prop where
  sub : ∀ {k : Nat} {v : Event × Nat}, r'.events[k]? = some v → r.events[k]? = some v
  lost : ∀ {k : Nat} {v : Event × Nat},
    r.events[k]? = some v → r'.events[k]? = none → Covered r'.state.gaps k
  gaps : ∀ {s : Nat}, Covered r.state.gaps s → Covered r'.state.gaps s
  within : ∀ {n : Nat}, Within n r.state.gaps → (∀ {k : Nat} {v : Event × Nat},
    r.events[k]? = some v → k ≤ n) → Within n r'.state.gaps
  nextCursor : r'.state.nextCursor = r.state.nextCursor

/-- Sequences start at one. -/
def Reader.Positive (r : Reader) : Prop :=
  ∀ {k : Nat} {v : Event × Nat}, r.events[k]? = some v → 0 < k

theorem Reader.Sound.positive {r : Reader} (hr : r.Sound) : r.Positive := hr.filed.positive

namespace Reader.Retires

variable {r r' r'' : Reader}

@[refl] theorem refl (r : Reader) : r.Retires r where
  sub h := h
  lost h h' := by rw [h] at h'; cases h'
  gaps h := h
  within h _ := h
  nextCursor := rfl

theorem trans (h : r.Retires r') (h' : r'.Retires r'') : r.Retires r'' where
  sub hk := h.sub (h'.sub hk)
  lost {k v} hk hk'' := by
    cases hmid : r'.events[k]? with
    | none => exact h'.gaps (h.lost hk hmid)
    | some v' => exact h'.lost hmid hk''
  gaps hs := h'.gaps (h.gaps hs)
  within hg hk := h'.within (h.within hg hk) fun hk' => hk (h.sub hk')
  nextCursor := h'.nextCursor.trans h.nextCursor

theorem filed (h : r.Retires r') (hr : r.Filed) : r'.Filed where
  key hk := hr.key (h.sub hk)
  positive hk := hr.positive (h.sub hk)
  below hk := h.nextCursor ▸ hr.below (h.sub hk)

theorem sound (h : r.Retires r') (hr : r.Sound)
    (hearliest : r'.state.earliestCursor ≤ r.state.earliestCursor) : r'.Sound where
  earliest_le := h.nextCursor ▸ hearliest.trans hr.earliest_le
  key hk := hr.key (h.sub hk)
  above hk := hearliest.trans_lt (hr.above (h.sub hk))
  below hk := h.nextCursor ▸ hr.below (h.sub hk)

theorem positive (h : r.Retires r') (hr : r.Positive) : r'.Positive := fun hk => hr (h.sub hk)

theorem mem (h : r.Retires r') {k : Nat} (hk : k ∈ r'.events) : k ∈ r.events := by
  obtain ⟨v, hv⟩ := OrderedMap.mem_iff_exists.mp hk
  exact OrderedMap.mem_iff_exists.mpr ⟨v, h.sub hv⟩

/-- What was retained is retained or covered. -/
theorem kept (h : r.Retires r') {k : Nat} (hk : k ∈ r.events) :
    k ∈ r'.events ∨ Covered r'.state.gaps k := by
  obtain ⟨v, hv⟩ := OrderedMap.mem_iff_exists.mp hk
  cases hk' : r'.events[k]? with
  | none => exact .inr (h.lost hv hk')
  | some v' => exact .inl (OrderedMap.mem_iff_exists.mpr ⟨v', hk'⟩)

end Reader.Retires

/-! ## Taking out one event -/

/-- Erasing one event and covering it, whatever else happens to the state. -/
theorem retires_erase {r r' : Reader} {seq : Nat} {reason : String} (hr : r.Positive)
    (hevents : r'.events = r.events.erase seq)
    (hgaps : r'.state.gaps = gap r.state.gaps seq seq reason)
    (hseq : seq ∈ r.events) (hnext : r'.state.nextCursor = r.state.nextCursor) :
    r.Retires r' where
  sub hk := by
    rw [hevents] at hk
    exact (OrderedMap.getElem?_of_erase hk).1
  lost {k v} hk hk' := by
    rw [hevents] at hk'
    rw [hgaps]
    by_cases heq : seq = k
    · subst heq
      exact covered_gap_self le_rfl le_rfl (hr hk)
    · rw [OrderedMap.getElem?_erase_of_ne heq, hk] at hk'
      cases hk'
  gaps hs := by
    rw [hgaps]
    exact covered_gap_of_covered hs
  within hg hk := by
    rw [hgaps]
    obtain ⟨v, hv⟩ := OrderedMap.mem_iff_exists.mp hseq
    exact within_gap hg fun _ => hk hv
  nextCursor := hnext

theorem dropTrimmed_retires (id start seq : Nat) {r : Reader} (hr : r.Positive) :
    r.Retires (dropTrimmed id start seq r) := by
  unfold dropTrimmed
  split
  · rename_i e size hseq
    exact retires_erase hr rfl rfl (OrderedMap.mem_iff_exists.mpr ⟨_, hseq⟩) rfl
  · exact .refl r

@[simp] theorem dropTrimmed_earliestCursor (id start seq : Nat) (r : Reader) :
    (dropTrimmed id start seq r).state.earliestCursor = r.state.earliestCursor := by
  unfold dropTrimmed
  split <;> rfl

/-! ## Session trimming -/

/-- Where a window begins once `item` has left it in front of `rest`. -/
def windowStart (event : Event) (item : TailItem) : List TailItem → Nat
  | [] => event.offset + item.len
  | front :: _ => front.offset

/-- One round of trimming: the oldest entry of the window goes. -/
theorem trimTail_eq_some {opts : Options} {event : Event} {id : Uuid} {tails tails' : Tails}
    {r r' : Reader} (h : trimTail opts event id tails r = some (tails', r')) :
    ∃ bytes item rest, tails[id]? = some (bytes, item :: rest) ∧
      opts.sessionTailBytes < bytes ∧ tails' = tails.insert id (bytes - item.len, rest) ∧
      r' = dropTrimmed id (windowStart event item rest) item.seq r := by
  unfold trimTail at h
  split at h
  · cases h
  · rename_i bytes items htail
    split at h
    · cases h
    · rename_i hbytes
      split at h
      · cases h
      · rename_i item rest
        simp only [Option.some.injEq, Prod.mk.injEq] at h
        refine ⟨bytes, item, rest, htail, by omega, h.1.symm, ?_⟩
        rw [← h.2]
        cases rest <;> rfl

theorem trimTail_retires {opts : Options} {event : Event} {id : Uuid} {tails tails' : Tails}
    {r r' : Reader} (hr : r.Positive) (h : trimTail opts event id tails r = some (tails', r')) :
    r.Retires r' := by
  obtain ⟨bytes, item, rest, -, -, -, rfl⟩ := trimTail_eq_some h
  exact dropTrimmed_retires id _ item.seq hr

theorem trimTail_earliestCursor {opts : Options} {event : Event} {id : Uuid} {tails tails' : Tails}
    {r r' : Reader} (h : trimTail opts event id tails r = some (tails', r')) :
    r'.state.earliestCursor = r.state.earliestCursor := by
  obtain ⟨bytes, item, rest, -, -, -, rfl⟩ := trimTail_eq_some h
  exact dropTrimmed_earliestCursor ..

/-- A property of readers that every round of trimming preserves holds after
    the loop. -/
theorem trimLoop_induction {opts : Options} {event : Event} {id : Uuid} {P : Tails → Reader → Prop}
    (hstep : ∀ {tails r tails' r'}, P tails r → trimTail opts event id tails r = some (tails', r') →
      P tails' r') (fuel : Nat) {tails : Tails} {r : Reader} (h : P tails r) :
    P (trimLoop opts event id fuel tails r).1 (trimLoop opts event id fuel tails r).2 := by
  induction fuel generalizing tails r with
  | zero => exact h
  | succ fuel ih =>
      unfold trimLoop
      split
      · exact h
      · rename_i tails' r' htrim
        exact ih (hstep h htrim)

theorem trackTail_retires (opts : Options) (event : Event) (tails : Tails) {r : Reader}
    (hr : r.Positive) :
    r.Retires (trackTail opts event tails r).2 ∧
      (trackTail opts event tails r).2.state.earliestCursor = r.state.earliestCursor := by
  unfold trackTail
  split
  · exact ⟨.refl r, rfl⟩
  · rename_i id tails' _
    have hstep : ∀ {tails₁ r₁ tails₂ r₂},
        r.Retires r₁ ∧ r₁.state.earliestCursor = r.state.earliestCursor →
        trimTail opts event id tails₁ r₁ = some (tails₂, r₂) →
        r.Retires r₂ ∧ r₂.state.earliestCursor = r.state.earliestCursor :=
      fun h htrim => ⟨h.1.trans (trimTail_retires (h.1.positive hr) htrim),
        (trimTail_earliestCursor htrim).trans h.2⟩
    exact trimLoop_induction (P := fun _ r₁ =>
      r.Retires r₁ ∧ r₁.state.earliestCursor = r.state.earliestCursor) hstep _ ⟨.refl r, rfl⟩

/-- Rebuilding the tail index at start-up may trim, and nothing else. -/
theorem rebuildTails_retires (opts : Options) {r : Reader} (hr : r.Positive) :
    r.Retires (rebuildTails opts r).2 ∧
      (rebuildTails opts r).2.state.earliestCursor = r.state.earliestCursor := by
  have hfold : ∀ (entries : List (Nat × (Event × Nat))) (tails : Tails) (r₁ : Reader),
      r.Retires r₁ → r₁.state.earliestCursor = r.state.earliestCursor →
      r.Retires (entries.foldl (fun acc entry => trackTail opts entry.2.1 acc.1 acc.2)
          (tails, r₁)).2 ∧
        (entries.foldl (fun acc entry => trackTail opts entry.2.1 acc.1 acc.2)
          (tails, r₁)).2.state.earliestCursor = r.state.earliestCursor := by
    intro entries
    induction entries with
    | nil => exact fun tails r₁ h he => ⟨h, he⟩
    | cons entry entries ih =>
        intro tails r₁ h he
        obtain ⟨htrack, hearliest⟩ :=
          trackTail_retires opts entry.2.1 tails (h.positive hr)
        exact ih _ _ (h.trans htrack) (hearliest.trans he)
  exact hfold r.events.toList ∅ r (.refl r) rfl

/-! ## Retention -/

theorem dropOldest_retires (expired : Bool) {seq : Nat} (size : Nat) {r : Reader}
    (hr : r.Positive) (hseq : seq ∈ r.events) : r.Retires (dropOldest expired seq size r) :=
  retires_erase hr rfl rfl hseq rfl

theorem pruneLoop_retires (opts : Options) (cutoff : Int) (entries : List (Nat × (Event × Nat)))
    {r : Reader} (hr : r.Positive) (hsorted : entries.Pairwise fun a b => a.1 < b.1)
    (hmem : ∀ entry ∈ entries, r.events[entry.1]? = some entry.2) :
    r.Retires (pruneLoop opts cutoff entries r) := by
  induction entries generalizing r with
  | nil => exact .refl r
  | cons entry entries ih =>
      obtain ⟨seq, event, size⟩ := entry
      rw [pruneLoop]
      obtain ⟨hfirst, hsorted⟩ := List.pairwise_cons.mp hsorted
      split
      · exact .refl r
      · have hone := dropOldest_retires (decide (event.timestamp < cutoff)) size hr
          (OrderedMap.mem_iff_exists.mpr ⟨_, hmem _ List.mem_cons_self⟩)
        refine hone.trans (ih (hone.positive hr) hsorted fun entry hentry => ?_)
        have hne : seq ≠ entry.1 := (hfirst entry hentry).ne
        exact (OrderedMap.getElem?_erase_of_ne hne).trans (hmem entry (List.mem_cons_of_mem _ hentry))

/-- The reader after the retention loop and before the cursor is recomputed. -/
def pruned (opts : Options) (now : Int) (r : Reader) : Reader :=
  pruneLoop opts (now - 1000 * opts.retentionSecs) r.events.toList r

theorem pruned_retires (opts : Options) (now : Int) {r : Reader} (hr : r.Positive) :
    r.Retires (pruned opts now r) :=
  pruneLoop_retires opts _ _ hr OrderedMap.toList_pairwise
    fun _ hentry => OrderedMap.mem_toList.mp hentry

theorem prune_retires (opts : Options) (now : Int) (tails : Tails) {r : Reader} (hr : r.Positive) :
    r.Retires (prune opts now tails r).2 := by
  have h := pruned_retires opts now hr
  exact { sub := h.sub, lost := h.lost, gaps := h.gaps, within := h.within,
          nextCursor := h.nextCursor }

theorem prune_earliestCursor (opts : Options) (now : Int) (tails : Tails) (r : Reader) :
    (prune opts now tails r).2.state.earliestCursor
      = match (pruned opts now r).events.keys.head? with
        | some seq => seq - 1
        | none => (pruned opts now r).state.nextCursor := rfl

theorem prune_events (opts : Options) (now : Int) (tails : Tails) (r : Reader) :
    (prune opts now tails r).2.events = (pruned opts now r).events := rfl

/-- `earliest_cursor` lies below every retained event and within the head. -/
theorem prune_sound {opts : Options} {now : Int} {tails : Tails} {r : Reader}
    (hr : r.Filed) : (prune opts now tails r).2.Sound := by
  have hpos : r.Positive := hr.positive
  have h := prune_retires opts now tails hpos
  have hp := pruned_retires opts now hpos
  refine ⟨?_, fun hk => hr.key (h.sub hk), ?_, fun hk => h.nextCursor ▸ hr.below (h.sub hk)⟩
  · rw [prune_earliestCursor, h.nextCursor]
    cases hmin : (pruned opts now r).events.keys.head? with
    | none => exact hp.nextCursor.le
    | some seq =>
        obtain ⟨⟨v, hv⟩, -⟩ := OrderedMap.head?_keys_eq_some hmin
        exact (Nat.sub_le _ _).trans (hr.below (hp.sub hv))
  · intro k v hk
    rw [prune_earliestCursor]
    rw [prune_events] at hk
    cases hmin : (pruned opts now r).events.keys.head? with
    | none => rw [OrderedMap.head?_keys_eq_none hmin] at hk; cases hk
    | some seq =>
        obtain ⟨⟨v', hv'⟩, hle⟩ := OrderedMap.head?_keys_eq_some hmin
        have hseq : 0 < seq := hpos (hp.sub hv')
        have hk' : seq ≤ k := hle k v hk
        exact (Nat.sub_lt hseq Nat.one_pos).trans_le hk'

/-- Retention never moves `earliest_cursor` down. -/
theorem le_prune_earliestCursor {opts : Options} {now : Int} {tails : Tails} {r : Reader}
    {n : Nat} (hpos : r.Positive) (hnext : n ≤ r.state.nextCursor)
    (habove : ∀ {k : Nat} {v : Event × Nat}, r.events[k]? = some v → n < k) :
    n ≤ (prune opts now tails r).2.state.earliestCursor := by
  have hp := pruned_retires opts now hpos
  rw [prune_earliestCursor]
  cases hmin : (pruned opts now r).events.keys.head? with
  | none => exact hnext.trans hp.nextCursor.ge
  | some seq =>
      obtain ⟨⟨v', hv'⟩, -⟩ := OrderedMap.head?_keys_eq_some hmin
      exact Nat.le_sub_one_of_lt (habove (hp.sub hv'))

end VivadoServer.History
