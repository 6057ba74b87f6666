/-
  VivadoServer.History.Browse

  Reading a journal page by page.  While the reader does not change, every page that
  says there is more moves the cursor on, so that the reading ends, at the head; and
  the pages together are the retained events, each once and in order.

  What carries it is that no event is too large for a page: the loop stops at an event
  it could not take only when it has already taken one.
-/

import VivadoServer.History.Page

namespace VivadoServer.History

open Std (ExtTreeMap)

/-- Ask for pages, with a limit for each, until there is no more; `none` where a page is
    refused or `fuel` pages are not enough. -/
def browse (r : Reader) (healthy : Bool) (limits : Nat → Nat) : Nat → Nat → Nat → Option (List Page)
  | 0, _, _ => none
  | fuel + 1, index, after =>
    match page r healthy after (limits index) with
    | .error _ => none
    | .ok p =>
      if p.hasMore then (browse r healthy limits fuel (index + 1) p.nextCursor).map fun ps => p :: ps
      else some [p]

section Browse

variable {r : Reader} {healthy : Bool} {after limit : Nat} {p : Page}

/-- An event of the reader is small. -/
def Reader.Small (r : Reader) : Prop :=
  ∀ (k : Nat) (v : Event × Nat), r.events[k]? = some v → v.2 ≤ eventLimit

theorem above_above {last : Nat} (h : after ≤ last) :
    r.above last = (r.above after).filter fun entry => last < entry.1 := by
  rw [Reader.above, Reader.above, List.filter_filter]
  apply List.filter_congr
  intro entry _
  rw [← Bool.decide_and, decide_eq_decide]
  omega

/-- What is left behind a page is what lies above its last event. -/
theorem above_of_split {taken rest : List (Nat × (Event × Nat))} (hsplit : r.above after = taken ++ rest) :
    after ≤ (taken.getLast?.map (·.1)).getD after ∧
      r.above ((taken.getLast?.map (·.1)).getD after) = rest := by
  have hsorted := above_pairwise r after
  rw [hsplit] at hsorted
  have habove : ∀ entry ∈ taken ++ rest, after < entry.1 := by
    intro entry hentry
    rw [← hsplit] at hentry
    exact (mem_above.mp hentry).2
  have hle : after ≤ (taken.getLast?.map (·.1)).getD after := by
    cases hlast : taken.getLast? with
    | none => exact Nat.le_refl _
    | some t => exact (habove t (List.mem_append_left _ (List.mem_of_getLast? hlast))).le
  refine ⟨hle, ?_⟩
  rw [above_above hle, hsplit, List.filter_append]
  have htaken : (taken.filter fun entry => (taken.getLast?.map (·.1)).getD after < entry.1) = [] := by
    rw [List.filter_eq_nil_iff]
    intro entry hentry
    obtain ⟨init, t, rfl⟩ : ∃ init t, taken = init ++ [t] :=
      ⟨_, _, (List.dropLast_append_getLast (List.ne_nil_of_mem hentry)).symm⟩
    rw [List.getLast?_concat]
    obtain hinit | hlast := List.mem_append.mp hentry
    · have := (List.pairwise_append.mp (List.pairwise_append.mp hsorted).1).2.2 entry hinit t
        (List.mem_singleton_self t)
      simpa using this.le
    · rw [List.mem_singleton.mp hlast]
      simp
  have hrest : (rest.filter fun entry => (taken.getLast?.map (·.1)).getD after < entry.1) = rest := by
    rw [List.filter_eq_self]
    intro entry hentry
    rw [decide_eq_true_iff]
    exact le_last_of_taken hsorted hentry (habove entry (List.mem_append_right _ hentry))
  rw [htaken, hrest, List.nil_append]

/-- One page: what it takes, that it fits, and how far the cursor goes. -/
theorem page_progress (healthy : Bool) (after : Nat) (hr : r.Filed) (hsmall : r.Small)
    (hlimit : 1 ≤ limit ∧ limit ≤ 256) :
    ∃ p taken rest, page r healthy after limit = .ok p ∧ r.above after = taken ++ rest ∧
      p.events = taken.map (·.2.1) ∧ sizeOfEntries taken ≤ pageLimit ∧
      (p.hasMore = true → after < p.nextCursor ∧ taken ≠ [] ∧ r.above p.nextCursor = rest ∧
        p.nextCursor < r.state.nextCursor) ∧
      (p.hasMore = false → rest = [] ∧ (after ≤ r.state.nextCursor → p.nextCursor = r.state.nextCursor)) := by
  obtain ⟨taken, rest, hsplit, hloop, hbytes, hstop⟩ := pageLoop_spec limit (r.above after) [] 0 after
  obtain ⟨hle, hleft⟩ := above_of_split hsplit
  simp only [List.nil_append, List.length_nil, Nat.zero_add] at hloop hbytes hstop
  have hmember : ∀ entry ∈ taken ++ rest, r.events[entry.1]? = some entry.2 ∧ after < entry.1 := by
    intro entry hentry
    rw [← hsplit] at hentry
    exact mem_above.mp hentry
  generalize hlast : (taken.getLast?.map (·.1)).getD after = last at *
  have hpage : page r healthy after limit = .ok
      { journalId := r.state.journalId
        instanceId := r.state.instanceId
        events := taken.map (·.2.1)
        nextCursor := if taken.length < limit ∧ rest = [] then max last r.state.nextCursor else last
        earliestCursor := r.state.earliestCursor
        headCursor := r.state.nextCursor
        hasMore := decide ((if taken.length < limit ∧ rest = [] then max last r.state.nextCursor
          else last) < r.state.nextCursor)
        gaps := r.state.gaps
        recordingState := if healthy then r.state.recordingState else "unavailable" } := by
    unfold page
    rw [if_neg (by omega), hloop]
    simp only [hleft, List.length_map]
  refine ⟨_, taken, rest, hpage, hsplit, rfl, Nat.le_trans (hbytes (Nat.zero_le _)) (Nat.sub_le _ _),
    fun hmore => ?_, fun hend => ?_⟩
  · rw [decide_eq_true_iff] at hmore
    split at hmore
    · omega
    · rename_i hmiss
      -- the loop cannot have stopped at the first event
      have htaken : taken ≠ [] := by
        rintro rfl
        cases hrest : rest with
        | nil => exact hmiss ⟨by rw [List.length_nil]; omega, hrest⟩
        | cons entry rest' =>
            have hentry : entry ∈ rest.head? := by
              rw [hrest]
              exact rfl
            have hsize := hsmall entry.1 entry.2
              (hmember entry (List.mem_append_right _ (List.mem_of_head? hentry))).1
            obtain hfull | hlarge := hstop entry hentry
            · rw [List.length_nil] at hfull
              omega
            · unfold sizeOfEntries pageLimit eventLimit at *
              simp only [List.map_nil, List.sum_nil] at hlarge
              omega
      have hlt : after < last := by
        rw [← hlast, List.getLast?_eq_some_getLast htaken]
        exact (hmember _ (List.mem_append_left _ (List.getLast_mem htaken))).2
      dsimp only
      rw [if_neg hmiss]
      exact ⟨hlt, htaken, hleft, hmore⟩
  · rw [decide_eq_false_iff_not] at hend
    -- nothing lies above the head
    have hhead : last ≤ max after r.state.nextCursor := by
      rw [← hlast]
      cases hget : taken.getLast? with
      | none => exact le_max_left _ _
      | some t =>
          have := hr.below (hmember t (List.mem_append_left _ (List.mem_of_getLast? hget))).1
          exact Nat.le_trans this (le_max_right _ _)
    have hrest : rest = [] := by
      split at hend
      · rename_i hall
        exact hall.2
      · rw [List.eq_nil_iff_forall_not_mem]
        intro entry hentry
        have hbelow := hr.below (hmember entry (List.mem_append_right _ hentry)).1
        rw [← hleft] at hentry
        have := (mem_above.mp hentry).2
        omega
    refine ⟨hrest, fun hafter => ?_⟩
    dsimp only
    split at hend
    · rename_i hall
      rw [if_pos hall]
      omega
    · rename_i hmiss
      rw [if_neg hmiss]
      omega

/-- From a cursor not beyond the head, the pages are what lies above it. -/
theorem browse_from (healthy : Bool) (hr : r.Filed) (hsmall : r.Small) {limits : Nat → Nat}
    (hlimits : ∀ i, 1 ≤ limits i ∧ limits i ≤ 256) (count index : Nat) (hafter : after ≤ r.state.nextCursor)
    (hcount : (r.above after).length ≤ count) :
    ∃ pages last, browse r healthy limits (count + 1) index after = some pages ∧
      pages.getLast? = some last ∧ last.hasMore = false ∧ last.nextCursor = r.state.nextCursor ∧
      pages.flatMap Page.events = (r.above after).map (·.2.1) := by
  induction count generalizing index after with
  | zero =>
      obtain ⟨p, taken, rest, hpage, hsplit, hevents, -, hmore, hend⟩ :=
        page_progress healthy after hr hsmall (hlimits index)
      have hempty : r.above after = [] := List.eq_nil_of_length_eq_zero (Nat.le_zero.mp hcount)
      rw [hempty] at hsplit
      have hnone : taken = [] := (List.append_eq_nil_iff.mp hsplit.symm).1
      have hlast : p.hasMore = false := by
        rw [Bool.eq_false_iff]
        intro h
        exact (hmore h).2.1 hnone
      refine ⟨[p], p, ?_, rfl, hlast, (hend hlast).2 hafter, ?_⟩
      · rw [browse, hpage]
        simp only [hlast, Bool.false_eq_true, if_false]
      · rw [List.flatMap_singleton, hevents, hnone, hempty]
  | succ count ih =>
      obtain ⟨p, taken, rest, hpage, hsplit, hevents, -, hmore, hend⟩ :=
        page_progress healthy after hr hsmall (hlimits index)
      cases hhas : p.hasMore with
      | true =>
          obtain ⟨-, htaken, hrest, hhead⟩ := hmore hhas
          have hfewer : (r.above p.nextCursor).length ≤ count := by
            have hpositive := List.length_pos_of_ne_nil htaken
            rw [hsplit, List.length_append] at hcount
            rw [hrest]
            omega
          obtain ⟨pages, last, hbrowse, hlast, hdone, hcursor, hall⟩ := ih (index + 1) hhead.le hfewer
          refine ⟨p :: pages, last, ?_, ?_, hdone, hcursor, ?_⟩
          · rw [browse, hpage]
            simp only [hhas, if_true, hbrowse, Option.map_some]
          · cases pages with
            | nil => cases hlast
            | cons q pages => exact hlast
          · rw [List.flatMap_cons, hall, hevents, hrest, hsplit, List.map_append]
      | false =>
          obtain ⟨hrest, hcursor⟩ := hend hhas
          refine ⟨[p], p, ?_, rfl, hhas, hcursor hafter, ?_⟩
          · rw [browse, hpage]
            simp only [hhas, Bool.false_eq_true, if_false]
          · rw [List.flatMap_singleton, hevents, hsplit, hrest, List.append_nil]

/-- While the reader stays as it is: a page that says there is more moves the cursor on, no
    page is too large, and reading from the start comes to the head after finitely many
    pages, which together are the retained events in their order, each once. -/
theorem browse_exhausts (hr : r.Filed) (hsmall : r.Small) (healthy : Bool) {limits : Nat → Nat}
    (hlimits : ∀ i, 1 ≤ limits i ∧ limits i ≤ 256) :
    (∀ after limit p, 1 ≤ limit → limit ≤ 256 → page r healthy after limit = .ok p →
      (p.hasMore = true → after < p.nextCursor) ∧
      ∃ taken, p.events = taken.map (·.2.1) ∧ sizeOfEntries taken ≤ pageLimit ∧
        ∀ entry ∈ taken, r.events[entry.1]? = some entry.2) ∧
    ∃ count pages last, browse r healthy limits count 0 0 = some pages ∧
      pages.getLast? = some last ∧ last.hasMore = false ∧ last.nextCursor = r.state.nextCursor ∧
      (pages.flatMap Page.events).Pairwise (fun e e' => e.seq < e'.seq) ∧
      ∀ e, e ∈ pages.flatMap Page.events ↔ ∃ (k n : Nat), r.events[k]? = some (e, n) := by
  refine ⟨fun after limit p hpos hmax hpage => ?_, ?_⟩
  · obtain ⟨p', taken, rest, hpage', hsplit, hevents, hbytes, hmore, -⟩ :=
      page_progress healthy after hr hsmall ⟨hpos, hmax⟩
    rw [hpage] at hpage'
    cases hpage'
    refine ⟨fun h => (hmore h).1, taken, hevents, hbytes, fun entry hentry => ?_⟩
    have habove : entry ∈ r.above after := hsplit ▸ List.mem_append_left _ hentry
    exact (mem_above.mp habove).1
  · obtain ⟨pages, last, hbrowse, hlast, hdone, hcursor, hall⟩ :=
      browse_from healthy hr hsmall hlimits (r.above 0).length 0 (Nat.zero_le _) le_rfl
    refine ⟨_, pages, last, hbrowse, hlast, hdone, hcursor, ?_, fun e => ?_⟩
    · rw [hall, List.pairwise_map]
      refine (above_pairwise r 0).imp_of_mem fun {a b} ha hb hlt => ?_
      rw [hr.key (mem_above.mp ha).1, hr.key (mem_above.mp hb).1]
      exact hlt
    · rw [hall, List.mem_map]
      constructor
      · rintro ⟨⟨k, e', n⟩, hmem, rfl⟩
        exact ⟨k, n, (mem_above.mp hmem).1⟩
      · rintro ⟨k, n, hget⟩
        exact ⟨(k, e, n), mem_above.mpr ⟨hget, hr.positive hget⟩, rfl⟩

/-- A reader with one event, two sequences below its head. -/
def sampleReader : Reader where
  state :=
    { format := "vivado-history-v1", journalId := 1, instanceId := 2, nextCursor := 5, earliestCursor := 2
      recordingState := "available", gaps := [⟨3, 5, "write_failed"⟩], sessionWindows := ∅
      sessionHeadBytes := 0, openSessions := ∅, openWorkflows := ∅ }
  events := (∅ : ExtTreeMap Nat (Event × Nat)).insert 3
    (⟨3, 2, 0, "session.started", none, none, none, none, .object []⟩, 120)
  bytes := 120

theorem browse_exhausts_sample : ∃ count pages last,
    browse sampleReader true (fun _ => 1) count 0 0 = some pages ∧ pages.getLast? = some last ∧
      last.hasMore = false ∧ last.nextCursor = 5 := by
  have hkey : ∀ (k : Nat) (v : Event × Nat), sampleReader.events[k]? = some v →
      k = 3 ∧ v = (⟨3, 2, 0, "session.started", none, none, none, none, .object []⟩, 120) := by
    intro k v hget
    by_cases hk : k = 3
    · subst hk
      rw [sampleReader, OrderedMap.getElem?_insert_self'] at hget
      exact ⟨rfl, (Option.some.inj hget).symm⟩
    · rw [sampleReader, OrderedMap.getElem?_insert_of_ne (Ne.symm hk)] at hget
      simp at hget
  have hfiled : sampleReader.Filed := by
    refine ⟨fun {k e n} hget => ?_, fun {k v} hget => ?_, fun {k v} hget => ?_⟩
    · obtain ⟨rfl, hv⟩ := hkey k (e, n) hget
      rw [(Prod.mk.inj hv).1]
    · rw [(hkey k v hget).1]
      decide
    · rw [(hkey k v hget).1]
      decide
  have hsmall : sampleReader.Small := by
    intro k v hget
    rw [(hkey k v hget).2]
    decide
  obtain ⟨count, pages, last, hbrowse, hlast, hdone, hcursor, -⟩ :=
    (browse_exhausts hfiled hsmall true (fun _ => ⟨Nat.le_refl 1, by decide⟩)).2
  exact ⟨count, pages, last, hbrowse, hlast, hdone, hcursor⟩

end Browse

end VivadoServer.History
