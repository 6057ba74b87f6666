/-
  VivadoServer.History.Gaps

  What a gap list covers.  `gap` may merge ranges, so it can only cover more,
  and it never reaches beyond the sequences it was given.  Over any run of calls
  nothing is forgotten (`gap_never_forgets`).
-/

import VivadoServer.History.Model

namespace VivadoServer.History

/-- A gap covers the sequences `after_seq < s ≤ through_seq`. -/
def Gap.covers (g : Gap) (s : Nat) : Prop := g.afterSeq < s ∧ s ≤ g.throughSeq

instance (g : Gap) (s : Nat) : Decidable (g.covers s) :=
  inferInstanceAs (Decidable (_ ∧ _))

/-- Some entry of the list covers `s`. -/
def Covered (gaps : List Gap) (s : Nat) : Prop := ∃ g ∈ gaps, g.covers s

instance (gaps : List Gap) (s : Nat) : Decidable (Covered gaps s) :=
  inferInstanceAs (Decidable (∃ g ∈ gaps, g.covers s))

/-- No entry of the list reaches beyond `n`. -/
def Within (n : Nat) (gaps : List Gap) : Prop := ∀ g ∈ gaps, g.throughSeq ≤ n

instance (n : Nat) (gaps : List Gap) : Decidable (Within n gaps) :=
  inferInstanceAs (Decidable (∀ g ∈ gaps, g.throughSeq ≤ n))

variable {gaps held : List Gap} {g : Gap} {first last n m s : Nat} {reason : String}

@[simp] theorem covered_nil : ¬ Covered [] s := by simp [Covered]

theorem covered_append : Covered (gaps ++ held) s ↔ Covered gaps s ∨ Covered held s := by
  simp only [Covered, List.mem_append, or_and_right, exists_or]

theorem covered_cons : Covered (g :: gaps) s ↔ g.covers s ∨ Covered gaps s := by
  simp only [Covered, List.mem_cons, or_and_right, exists_or, exists_eq_left]

@[simp] theorem within_nil : Within n [] := by simp [Within]

theorem within_append : Within n (gaps ++ held) ↔ Within n gaps ∧ Within n held := by
  simp only [Within, List.mem_append, or_imp, forall_and]

theorem within_cons : Within n (g :: gaps) ↔ g.throughSeq ≤ n ∧ Within n gaps := by
  simp only [Within, List.mem_cons, forall_eq_or_imp]

theorem Within.mono (h : Within n gaps) (hnm : n ≤ m) : Within m gaps :=
  fun g hg => (h g hg).trans hnm

theorem Within.covered_le (h : Within n gaps) (hs : Covered gaps s) : s ≤ n := by
  obtain ⟨g, hg, _, hle⟩ := hs
  exact hle.trans (h g hg)

/-! ## `capGaps` -/

theorem covered_capGaps (h : Covered gaps s) : Covered (capGaps gaps) s := by
  unfold capGaps
  split
  · split
    · rename_i a b rest
      rcases covered_cons.mp h with h | h
      · exact covered_cons.mpr (.inl ⟨(min_le_left _ _).trans_lt h.1, h.2.trans (le_max_left _ _)⟩)
      · rcases covered_cons.mp h with h | h
        · exact covered_cons.mpr
            (.inl ⟨(min_le_right _ _).trans_lt h.1, h.2.trans (le_max_right _ _)⟩)
        · exact covered_cons.mpr (.inr h)
    · exact h
  · exact h

theorem within_capGaps (h : Within n gaps) : Within n (capGaps gaps) := by
  unfold capGaps
  split
  · split
    · rename_i a b rest
      obtain ⟨ha, h⟩ := within_cons.mp h
      obtain ⟨hb, h⟩ := within_cons.mp h
      exact within_cons.mpr ⟨max_le ha hb, h⟩
    · exact h
  · exact h

/-! ## `gap` -/

private theorem getLast?_split {previous : Gap} (h : gaps.getLast? = some previous) :
    gaps = gaps.dropLast ++ [previous] := by
  obtain ⟨init, rfl⟩ := List.getLast?_eq_some_iff.mp h
  simp

/-- `gap` forgets nothing. -/
theorem covered_gap_of_covered (h : Covered gaps s) :
    Covered (gap gaps first last reason) s := by
  have hpushed : Covered (capGaps (gaps ++ [⟨first - 1, last, reason⟩])) s :=
    covered_capGaps (covered_append.mpr (.inl h))
  unfold gap
  split
  · exact h
  · dsimp only
    split
    · rename_i previous hlast
      split
      · rw [getLast?_split hlast] at h
        rcases covered_append.mp h with h | h
        · exact covered_append.mpr (.inl h)
        · rcases covered_cons.mp h with h | h
          · exact covered_append.mpr (.inr (covered_cons.mpr
              (.inl ⟨(min_le_left _ _).trans_lt h.1, h.2.trans (le_max_left _ _)⟩)))
          · exact absurd h covered_nil
      · exact hpushed
    · exact hpushed

/-- `gap` covers the range it is given. -/
theorem covered_gap_self (hfirst : first ≤ s) (hlast : s ≤ last) (hpos : 0 < s) :
    Covered (gap gaps first last reason) s := by
  have hself : first - 1 < s := by omega
  have hpushed : Covered (capGaps (gaps ++ [⟨first - 1, last, reason⟩])) s :=
    covered_capGaps (covered_append.mpr (.inr (covered_cons.mpr (.inl ⟨hself, hlast⟩))))
  unfold gap
  rw [if_neg (by omega)]
  dsimp only
  split
  · split
    · exact covered_append.mpr (.inr (covered_cons.mpr
        (.inl ⟨(min_le_right _ _).trans_lt hself, hlast.trans (le_max_right _ _)⟩)))
    · exact hpushed
  · exact hpushed

theorem within_gap (h : Within n gaps) (hlast : first ≤ last → last ≤ n) :
    Within n (gap gaps first last reason) := by
  unfold gap
  split
  · exact h
  · rename_i hrange
    have hle : last ≤ n := hlast (by omega)
    have hpushed : Within n (capGaps (gaps ++ [⟨first - 1, last, reason⟩])) :=
      within_capGaps (within_append.mpr ⟨h, within_cons.mpr ⟨hle, within_nil⟩⟩)
    dsimp only
    split
    · rename_i previous hprev
      split
      · rw [getLast?_split hprev] at h
        obtain ⟨hinit, hlast'⟩ := within_append.mp h
        exact within_append.mpr
          ⟨hinit, within_cons.mpr ⟨max_le (within_cons.mp hlast').1 hle, within_nil⟩⟩
      · exact hpushed
    · exact hpushed

/-! ## `mergeGaps` -/

@[simp] theorem mergeGaps_nil : mergeGaps gaps [] = gaps := rfl

theorem mergeGaps_cons :
    mergeGaps gaps (g :: held)
      = mergeGaps (gap gaps (g.afterSeq + 1) g.throughSeq g.reason) held := rfl

theorem covered_mergeGaps_of_covered (h : Covered gaps s) : Covered (mergeGaps gaps held) s := by
  induction held generalizing gaps with
  | nil => exact h
  | cons g held ih => exact ih (covered_gap_of_covered h)

theorem covered_mergeGaps_of_held (h : Covered held s) : Covered (mergeGaps gaps held) s := by
  induction held generalizing gaps with
  | nil => exact absurd h covered_nil
  | cons g held ih =>
      rw [mergeGaps_cons]
      rcases covered_cons.mp h with h | h
      · exact covered_mergeGaps_of_covered (covered_gap_self h.1 h.2 (Nat.zero_lt_of_lt h.1))
      · exact ih h

theorem within_mergeGaps (h : Within n gaps) (hheld : Within n held) :
    Within n (mergeGaps gaps held) := by
  induction held generalizing gaps with
  | nil => exact h
  | cons g held ih =>
      obtain ⟨hg, hheld⟩ := within_cons.mp hheld
      exact ih (within_gap h fun _ => hg) hheld

/-! ## Runs of calls -/

/-- The largest sequence, `u64::MAX`. -/
def seqMax : Nat := 2 ^ 64 - 1

/-- The arguments of one call of `gap`. -/
structure GapCall where
  first : Nat
  last : Nat
  reason : String
deriving DecidableEq, Repr

/-- `gap` in 64 bits, where `through_seq.saturating_add(1)` stops at the largest sequence. -/
def gapSaturating (gaps : List Gap) (c : GapCall) : List Gap :=
  if c.last < c.first then gaps
  else
    let pushed := capGaps (gaps ++ [⟨c.first - 1, c.last, c.reason⟩])
    match gaps.getLast? with
    | some previous =>
      if previous.reason = c.reason ∧ c.first ≤ min (previous.throughSeq + 1) seqMax then
        gaps.dropLast ++
          [{ previous with
              afterSeq := min previous.afterSeq (c.first - 1)
              throughSeq := max previous.throughSeq c.last }]
      else pushed
    | none => pushed

/-- The list after some calls, from the empty one. -/
def gapRun (calls : List GapCall) : List Gap := calls.foldl gapSaturating []

/-- A call within the range of sequences. -/
def GapCall.Valid (c : GapCall) : Prop := 1 ≤ c.first ∧ c.last ≤ seqMax

instance (c : GapCall) : Decidable c.Valid := inferInstanceAs (Decidable (_ ∧ _))

/-- The sum is only ever compared with a sequence, so its saturation does not matter. -/
theorem gapSaturating_eq {c : GapCall} (hc : c.Valid) :
    gapSaturating gaps c = gap gaps c.first c.last c.reason := by
  unfold gapSaturating gap
  by_cases hempty : c.last < c.first
  · rw [if_pos hempty, if_pos hempty]
  · rw [if_neg hempty, if_neg hempty]
    have hle : c.first ≤ seqMax := Nat.le_trans (Nat.le_of_not_lt hempty) hc.2
    cases gaps.getLast? with
    | none => rfl
    | some previous =>
        have hsat : c.first ≤ min (previous.throughSeq + 1) seqMax ↔ c.first ≤ previous.throughSeq + 1 := by
          rw [Nat.le_min]
          exact ⟨fun h => h.1, fun h => ⟨h, hle⟩⟩
        simp only [hsat]

theorem capGaps_length (h : gaps.length ≤ 129) : (capGaps gaps).length ≤ 128 := by
  unfold capGaps
  split
  · split
    · simp only [List.length_cons] at h ⊢
      omega
    · rename_i hlong hshort
      match gaps, hshort with
      | [], _ => exact Nat.zero_le _
      | [_], _ => exact Nat.le_of_ble_eq_true rfl
      | a :: b :: rest, hshort => exact absurd rfl (hshort a b rest)
  · omega

theorem gap_length (h : gaps.length ≤ 128) : (gap gaps first last reason).length ≤ 128 := by
  have hpushed : (capGaps (gaps ++ [⟨first - 1, last, reason⟩])).length ≤ 128 := by
    apply capGaps_length
    rw [List.length_append, List.length_singleton]
    omega
  unfold gap
  split
  · exact h
  · dsimp only
    split
    · rename_i previous hlast
      split
      · rw [getLast?_split hlast] at h
        rw [List.length_append, List.length_singleton] at h ⊢
        exact h
      · exact hpushed
    · exact hpushed

theorem gapRun_length {calls : List GapCall} (hcalls : ∀ c ∈ calls, c.Valid) :
    (gapRun calls).length ≤ 128 := by
  have hfrom : ∀ gaps : List Gap, gaps.length ≤ 128 → (calls.foldl gapSaturating gaps).length ≤ 128 := by
    induction calls with
    | nil => exact fun _ h => h
    | cons c calls ih =>
        intro gaps h
        apply ih fun c hc => hcalls c (List.mem_cons_of_mem _ hc)
        rw [gapSaturating_eq (hcalls c List.mem_cons_self)]
        exact gap_length h
  exact hfrom [] (Nat.zero_le _)

/-- After every call there are at most 128 entries, and what was covered before the call
    or is in its range is covered. -/
theorem gap_never_forgets {calls : List GapCall} {c : GapCall} (hcalls : ∀ d ∈ calls ++ [c], d.Valid) :
    (gapRun (calls ++ [c])).length ≤ 128 ∧
      (∀ s, Covered (gapRun calls) s → Covered (gapRun (calls ++ [c])) s) ∧
      ∀ s, c.first ≤ s → s ≤ c.last → Covered (gapRun (calls ++ [c])) s := by
  have hc : c.Valid := hcalls c (List.mem_append_right _ (List.mem_singleton_self c))
  have hlast : gapRun (calls ++ [c]) = gap (gapRun calls) c.first c.last c.reason := by
    rw [gapRun, List.foldl_append, List.foldl_cons, List.foldl_nil, gapSaturating_eq hc]
    rfl
  refine ⟨gapRun_length hcalls, fun s hs => ?_, fun s hfirst hend => ?_⟩
  · rw [hlast]
    exact covered_gap_of_covered hs
  · rw [hlast]
    exact covered_gap_self hfirst hend (Nat.lt_of_lt_of_le hc.1 hfirst)

/-- A range at the end of all sequences, and one below it that goes with it. -/
theorem gap_never_forgets_sample :
    gapRun [⟨seqMax, seqMax, "a"⟩, ⟨3, 5, "a"⟩] = [⟨2, seqMax, "a"⟩] ∧
      Covered (gapRun ([⟨seqMax, seqMax, "a"⟩] ++ [⟨3, 5, "a"⟩])) seqMax := by
  have hcalls : ∀ c ∈ [⟨seqMax, seqMax, "a"⟩] ++ [⟨3, 5, "a"⟩], GapCall.Valid c := by decide +kernel
  have hfirst : Covered (gapRun [⟨seqMax, seqMax, "a"⟩]) seqMax := by decide +kernel
  exact ⟨by decide +kernel, (gap_never_forgets hcalls).2.1 seqMax hfirst⟩

/-! ## `gapHead` -/

private theorem foldl_max_le {k : Nat} (hk : k ≤ n) (h : Within n gaps) :
    gaps.foldl (fun m g => max m g.throughSeq) k ≤ n := by
  induction gaps generalizing k with
  | nil => exact hk
  | cons g gaps ih =>
      obtain ⟨hg, h⟩ := within_cons.mp h
      exact ih (max_le hk hg) h

private theorem le_foldl_max {k : Nat} : k ≤ gaps.foldl (fun m g => max m g.throughSeq) k := by
  induction gaps generalizing k with
  | nil => exact le_rfl
  | cons g gaps ih => exact (le_max_left _ _).trans ih

theorem gapHead_le (h : Within n gaps) : gapHead gaps ≤ n := foldl_max_le (Nat.zero_le n) h

private theorem through_le_foldl_max {k : Nat} (hg : g ∈ gaps) :
    g.throughSeq ≤ gaps.foldl (fun m g => max m g.throughSeq) k := by
  induction gaps generalizing k with
  | nil => cases hg
  | cons g' gaps ih =>
      rcases List.mem_cons.mp hg with rfl | hg
      · exact (le_max_right _ _).trans le_foldl_max
      · exact ih hg

theorem within_gapHead : Within (gapHead gaps) gaps := fun _ hg => through_le_foldl_max hg

end VivadoServer.History
