/-
  VivadoServer.History.Page

  What one page call delivers.  A page is a prefix of the retained events above
  the cursor it was asked for; its own cursor is the last event it took, or the
  head when it took everything.  So it skips nothing that is retained, and it
  accounts for a sequence as soon as the reader does (`page_accounts`).
-/

import VivadoServer.History.Gaps
import VivadoServer.Lib.OrderedMap

namespace VivadoServer.History

open Std (ExtTreeMap)

/-- What every reader satisfies: events are filed under their own sequence,
    which lies above `earliest_cursor` and not above `next_cursor`. -/
structure Reader.Sound (r : Reader) : Prop where
  earliest_le : r.state.earliestCursor ≤ r.state.nextCursor
  key : ∀ {k : Nat} {e : Event} {n : Nat}, r.events[k]? = some (e, n) → e.seq = k
  above : ∀ {k : Nat} {v : Event × Nat}, r.events[k]? = some v → r.state.earliestCursor < k
  below : ∀ {k : Nat} {v : Event × Nat}, r.events[k]? = some v → k ≤ r.state.nextCursor

/-- Events are filed under their own positive sequence, not above the head. -/
structure Reader.Filed (r : Reader) : Prop where
  key : ∀ {k : Nat} {e : Event} {n : Nat}, r.events[k]? = some (e, n) → e.seq = k
  positive : ∀ {k : Nat} {v : Event × Nat}, r.events[k]? = some v → 0 < k
  below : ∀ {k : Nat} {v : Event × Nat}, r.events[k]? = some v → k ≤ r.state.nextCursor

theorem Reader.Sound.filed {r : Reader} (hr : r.Sound) : r.Filed where
  key := hr.key
  positive hk := (Nat.zero_le _).trans_lt (hr.above hk)
  below := hr.below

/-- The reader accounts for `s`: it is retained, in a gap, or at or below
    `earliest_cursor`. -/
def Reader.Accounts (r : Reader) (s : Nat) : Prop :=
  s ∈ r.events ∨ Covered r.state.gaps s ∨ s ≤ r.state.earliestCursor

instance (r : Reader) (s : Nat) : Decidable (r.Accounts s) :=
  inferInstanceAs (Decidable (_ ∨ _ ∨ _))

/-- The page accounts for every sequence between the cursor it was asked for and
    the cursor it hands out. -/
def Page.Accounts (p : Page) (after : Nat) : Prop :=
  ∀ s, after < s → s ≤ p.nextCursor →
    s ∈ p.events.map Event.seq ∨ Covered p.gaps s ∨ s ≤ p.earliestCursor

/-! ## The loop -/

/-- The bytes of some entries. -/
def sizeOfEntries (entries : List (Nat × (Event × Nat))) : Nat := (entries.map (·.2.2)).sum

/-- The loop takes a prefix that fits, remembers the last sequence of it, and stops early
    only where the next event is one too many or too large. -/
theorem pageLoop_spec (limit : Nat) (entries : List (Nat × (Event × Nat))) (events : List Event)
    (bytes next : Nat) :
    ∃ taken rest, entries = taken ++ rest ∧
      pageLoop limit entries events bytes next
        = (events ++ taken.map (·.2.1), (taken.getLast?.map (·.1)).getD next) ∧
      (bytes ≤ pageLimit - 64 * 1024 → bytes + sizeOfEntries taken ≤ pageLimit - 64 * 1024) ∧
      ∀ entry ∈ rest.head?, limit ≤ events.length + taken.length ∨
        pageLimit - 64 * 1024 < bytes + sizeOfEntries taken + entry.2.2 := by
  induction entries generalizing events bytes next with
  | nil => exact ⟨[], [], rfl, by simp [pageLoop], fun h => h, nofun⟩
  | cons entry entries ih =>
      obtain ⟨seq, event, size⟩ := entry
      rw [pageLoop]
      split
      · rename_i hstop
        refine ⟨[], _, rfl, by simp, fun h => h, fun entry hentry => ?_⟩
        cases hentry
        exact hstop
      · rename_i hgo
        obtain ⟨taken, rest, hsplit, hloop, hbytes, hrest⟩ := ih (events ++ [event]) (bytes + size) seq
        have hsize : sizeOfEntries ((seq, event, size) :: taken) = size + sizeOfEntries taken := rfl
        refine ⟨(seq, event, size) :: taken, rest, by rw [hsplit]; rfl, ?_, fun _ => ?_, fun entry hentry => ?_⟩
        · rw [hloop]
          cases taken with
          | nil => simp
          | cons t taken => simp [List.getLast?_cons]
        · have := hbytes (by omega)
          omega
        · have := hrest entry hentry
          simp only [List.length_append, List.length_cons, List.length_nil] at this ⊢
          omega

theorem mem_above {r : Reader} {after k : Nat} {v : Event × Nat} :
    (k, v) ∈ r.above after ↔ r.events[k]? = some v ∧ after < k := by
  simp [Reader.above]

theorem above_pairwise (r : Reader) (after : Nat) :
    (r.above after).Pairwise fun a b => a.1 < b.1 :=
  OrderedMap.toList_pairwise.filter _

/-! ## The page -/

/-- The parts of a page: what was taken of the events above `after`, what was
    left, the last sequence scanned and the cursor handed out. -/
theorem page_spec {r : Reader} {healthy : Bool} {after limit : Nat} {p : Page}
    (h : page r healthy after limit = .ok p) :
    ∃ taken rest last,
      r.above after = taken ++ rest ∧ p.events = taken.map (·.2.1) ∧
      last = (taken.getLast?.map (·.1)).getD after ∧
      (p.nextCursor = last ∨
        r.above last = [] ∧ p.nextCursor = max last r.state.nextCursor) ∧
      p.gaps = r.state.gaps ∧ p.earliestCursor = r.state.earliestCursor ∧
      p.headCursor = r.state.nextCursor := by
  unfold page at h
  split at h
  · cases h
  · obtain ⟨taken, rest, hsplit, hloop, -⟩ := pageLoop_spec limit (r.above after) [] 0 after
    rw [hloop] at h
    simp only [List.nil_append, Except.ok.injEq] at h
    refine ⟨taken, rest, _, hsplit, by rw [← h], rfl, ?_, by rw [← h], by rw [← h], by rw [← h]⟩
    rw [← h]
    dsimp only
    split
    · rename_i hexhausted
      exact .inr ⟨hexhausted.2, rfl⟩
    · exact .inl rfl

/-- Whatever lies at or below the last sequence taken has been taken. -/
theorem le_last_of_taken {taken rest : List (Nat × (Event × Nat))} {after : Nat}
    (hsorted : (taken ++ rest).Pairwise fun a b => a.1 < b.1)
    {entry : Nat × (Event × Nat)} (hmem : entry ∈ rest) (hafter : after < entry.1) :
    (taken.getLast?.map (·.1)).getD after < entry.1 := by
  cases hlast : taken.getLast? with
  | none => simpa using hafter
  | some t =>
      have ht : t ∈ taken := List.mem_of_getLast? hlast
      exact (List.pairwise_append.mp hsorted).2.2 t ht entry hmem

/-- A page skips nothing that is retained. -/
theorem page_delivers {r : Reader} (hr : r.Sound) {healthy : Bool} {after limit : Nat} {p : Page}
    (h : page r healthy after limit = .ok p) {s : Nat} (hs : s ∈ r.events) (hafter : after < s)
    (hnext : s ≤ p.nextCursor) : s ∈ p.events.map Event.seq := by
  obtain ⟨taken, rest, last, hsplit, hevents, hlast, hcursor, -, -, -⟩ := page_spec h
  obtain ⟨⟨e, n⟩, hget⟩ := OrderedMap.mem_iff_exists.mp hs
  have hmem : (s, (e, n)) ∈ taken ++ rest := hsplit ▸ mem_above.mpr ⟨hget, hafter⟩
  have hsorted := above_pairwise r after
  rw [hsplit] at hsorted
  rcases List.mem_append.mp hmem with htaken | hrest
  · rw [hevents, List.map_map, List.mem_map]
    exact ⟨_, htaken, hr.key hget⟩
  · have hbeyond : last < s := hlast ▸ le_last_of_taken hsorted hrest hafter
    rcases hcursor with hcursor | ⟨hnone, -⟩
    · omega
    · have hleft : (s, (e, n)) ∈ r.above last := mem_above.mpr ⟨hget, hbeyond⟩
      simp [hnone] at hleft

/-- A page hands out a cursor no further than the head or the one it was given. -/
theorem page_nextCursor_le {r : Reader} (hr : r.Sound) {healthy : Bool} {after limit : Nat}
    {p : Page} (h : page r healthy after limit = .ok p) :
    p.nextCursor ≤ max after r.state.nextCursor := by
  obtain ⟨taken, rest, last, hsplit, -, hlast, hcursor, -, -, -⟩ := page_spec h
  have hle : last ≤ max after r.state.nextCursor := by
    cases htaken : taken.getLast? with
    | none => rw [hlast, htaken]; exact le_max_left _ _
    | some t =>
        have ht : t ∈ r.above after := hsplit ▸ List.mem_append_left _ (List.mem_of_getLast? htaken)
        rw [hlast, htaken]
        exact (hr.below (mem_above.mp ht).1).trans (le_max_right _ _)
  rcases hcursor with hcursor | ⟨-, hcursor⟩
  · exact hcursor ▸ hle
  · exact hcursor ▸ max_le hle (le_max_right _ _)

/-- A page accounts for what the reader accounts for. -/
theorem page_accounts {r : Reader} (hr : r.Sound) {healthy : Bool} {after limit : Nat} {p : Page}
    (h : page r healthy after limit = .ok p)
    (hacc : ∀ s, after < s → s ≤ r.state.nextCursor → r.Accounts s) : p.Accounts after := by
  intro s hafter hnext
  obtain ⟨-, -, -, -, -, -, -, hgaps, hearliest, -⟩ := page_spec h
  have hhead : s ≤ r.state.nextCursor := by
    have := page_nextCursor_le hr h
    omega
  rcases hacc s hafter hhead with hs | hs | hs
  · exact .inl (page_delivers hr h hs hafter hnext)
  · exact .inr (.inl (hgaps ▸ hs))
  · exact .inr (.inr (hearliest ▸ hs))

end VivadoServer.History
