/-
  VivadoServer.History.Collector

  What a collector may rely on.  It calls `page` again and again, each time with
  the cursor the last page handed out.

  `append` publishes an event and raises `next_cursor` in one lock section and
  merges the ranges dropped before it in a later one.  A page that falls between
  the two crosses a lost sequence without a gap.  `collector_misses_nothing` is
  what holds of every other page: as long as nothing that lies at or below the
  head is held back, a page accounts for every sequence it crosses, and nothing
  it crossed ever appears afterwards.
-/

import VivadoServer.History.Codec
import VivadoServer.History.Recovery

namespace VivadoServer.History

open StepSystem (Run exec execIf)

variable {cd : Codec} {opts : Options} {s t : Sys} {l : Live}

/-- A run of one lifetime: no crash, no start. -/
abbrev LiveRun (cd : Codec) (opts : Options) : Sys → Sys → Prop :=
  Run (step cd opts) (fun a _ => a.isLive = true)

/-- A run of one lifetime is a run of its ledger. -/
theorem LiveRun.advances (h : LiveRun cd opts s t) (hs : s.live = some l) (hl : l.Wf) :
    ∃ l', t.live = some l' ∧ l.Advances l' := by
  induction h with
  | refl => exact ⟨l, hs, hl, .refl, le_rfl⟩
  | tail _ hok hstep ih =>
      obtain ⟨m, hm, hadv⟩ := ih
      obtain ⟨l', hl', hadv'⟩ := step_run hadv.wf hok hm hstep
      exact ⟨l', hl', hadv.trans hadv'⟩

/-! ## Pages -/

/-- The reader accounts for every sequence up to its head. -/
def Reader.Complete (r : Reader) : Prop :=
  ∀ s, 0 < s → s ≤ r.state.nextCursor → r.Accounts s

/-- No sequence above `after` and not above the head is known as lost only to
    the writer: on its pending list, or in its hands on the way to the reader's
    gap list. -/
def Live.HoldsNothingBack (l : Live) (after : Nat) : Prop :=
  ∀ s, after < s → s ≤ l.reader.state.nextCursor → Covered l.parked s → l.reader.Accounts s

/-- In a lifetime that began complete, whatever is not held back is accounted for. -/
theorem reader_accounts {l₀ : Live} (hcomplete : l₀.reader.Complete)
    (hproducer : l₀.producer = l₀.reader.state.nextCursor) (hadv : l₀.Advances l) {s : Nat}
    (hs : s ≤ l.reader.state.nextCursor)
    (hparked : Covered l.parked s → l.reader.Accounts s) : l.reader.Accounts s := by
  have hstart : l₀.ledger.Accounted l₀.reader.state.earliestCursor := by
    intro x hx
    rcases Nat.eq_zero_or_pos x with rfl | hx0
    · exact .inl (Nat.zero_le _)
    · have hle : x ≤ l₀.producer := hx
      rcases hcomplete x hx0 (hproducer ▸ hle) with h | h | h
      · exact .inr (.inl h)
      · exact .inr (.inr (.inl h))
      · exact .inl h
  by_cases hheld : Covered l.parked s
  · exact hparked hheld
  · rcases (hadv.run.accounted hstart).visible hadv.wf.ordered hs hheld with h | h | h
    · exact .inr (.inr (h.trans hadv.earliest))
    · exact .inl h
    · exact .inr (.inl h)

/-- A page whose start is at or below the head, taken while nothing in its reach
    is held back, accounts for every sequence it crosses; and no event at or
    below the cursor it hands out appears in the reader later in that lifetime. -/
theorem collector_misses_nothing {now : Int} {journalId instanceId : Uuid} {s₀ s₁ s₂ s₃ : Sys}
    {l₁ l₂ l₃ : Live} {after limit : Nat} {p : Page}
    (hstart : step cd opts (.start now journalId instanceId) s₀ = some s₁)
    (hl₁ : s₁.live = some l₁) (hcomplete : l₁.reader.Complete)
    (hrun : LiveRun cd opts s₁ s₂) (hl₂ : s₂.live = some l₂)
    (hafter : after ≤ l₂.reader.state.nextCursor) (hheld : l₂.HoldsNothingBack after)
    (hpage : page l₂.reader l₂.healthy after limit = .ok p)
    (hlater : LiveRun cd opts s₂ s₃) (hl₃ : s₃.live = some l₃) :
    p.Accounts after ∧ ∀ x ∈ l₃.reader.events, x ≤ p.nextCursor → x ∈ l₂.reader.events := by
  obtain ⟨d, l, -, hl, hreader, hproducer, -, -, hwf⟩ := start_wf hstart
  obtain rfl : l₁ = l := Option.some.inj (hl₁.symm.trans hl)
  obtain ⟨l, hl, hadv⟩ := hrun.advances hl₁ hwf
  obtain rfl : l₂ = l := Option.some.inj (hl₂.symm.trans hl)
  obtain ⟨l, hl, hadv'⟩ := hlater.advances hl₂ hadv.wf
  obtain rfl : l₃ = l := Option.some.inj (hl₃.symm.trans hl)
  refine ⟨?_, fun x hx hle => ?_⟩
  · refine page_accounts hadv.wf.sound hpage fun s hs hle => ?_
    exact reader_accounts hcomplete (hproducer.trans (by rw [hreader])) hadv hle
      (hheld s hs hle)
  · have hhead := page_nextCursor_le hadv.wf.sound hpage
    have hnext : x ≤ l₂.reader.state.nextCursor := by omega
    exact hadv'.run.late hadv.wf.ordered x hx hnext

/-- The start-up event, then an event whose write fails, then the idle branch:
    its lost sequence is merged before the head crosses it. -/
theorem collector_misses_nothing_idle :
    ∃ s₁ s₂ l₂ p, step smallTable.codec defaults (.start 0 1 1) Sys.fresh = some s₁ ∧
      LiveRun smallTable.codec defaults s₁ s₂ ∧ s₂.live = some l₂ ∧
      page l₂.reader l₂.healthy 1 256 = .ok p ∧ p.nextCursor = 2 ∧ p.Accounts 1 := by
  have hcheck : (step smallTable.codec defaults (.start 0 1 1) Sys.fresh).any (fun s₁ =>
      s₁.live.any (fun l₁ => decide (l₁.reader.state.nextCursor = 0)) &&
      (execIf (step smallTable.codec defaults) (fun a _ => a.isLive)
        (startUp ++ enqueueOne ++ failedWrite ++ idleMerge) s₁).any fun s₂ =>
        s₂.live.any fun l₂ =>
          decide (l₂.parked = []) && decide (l₂.reader.state.nextCursor = 2) &&
          match page l₂.reader l₂.healthy 1 256 with
          | .ok p => decide (p.nextCursor = 2)
          | .error _ => false) = true := by
    decide +kernel
  obtain ⟨s₁, hstart, h₁⟩ := (Option.any_eq_true _ _).mp hcheck
  obtain ⟨hl₁, hrun⟩ := Bool.and_eq_true_iff.mp h₁
  obtain ⟨l₁, hl₁, hzero⟩ := (Option.any_eq_true _ _).mp hl₁
  obtain ⟨s₂, hrun, h₂⟩ := StepSystem.exists_of_execIf hrun
  obtain ⟨l₂, hl₂, h₂⟩ := (Option.any_eq_true _ _).mp h₂
  simp only [Bool.and_eq_true, decide_eq_true_eq] at h₂ hzero
  obtain ⟨⟨hparked, hhead⟩, hpage⟩ := h₂
  split at hpage
  · rename_i p hp
    have hcomplete : l₁.reader.Complete := fun s hs hle => by omega
    have hheld : l₂.HoldsNothingBack 1 := fun s _ _ hs => absurd hs (hparked ▸ covered_nil)
    exact ⟨s₁, s₂, l₂, p, hstart, hrun, hl₂, hp, of_decide_eq_true hpage,
      (collector_misses_nothing hstart hl₁ hcomplete hrun hl₂ (by omega) hheld hp .refl hl₂).1⟩
  · cases hpage

/-- The page that falls between the publication of event 3 and the merge of the
    range that was lost before it hands out 3 and says nothing about 2. -/
theorem collector_misses_failed_write :
    ∃ s l p, exec (step smallTable.codec defaults)
        (.start 0 1 1 :: startUp ++ enqueueOne ++ failedWrite ++ enqueueOne
          ++ [.writer .done, .writer .done, .writer .done]) Sys.fresh = some s ∧
      s.live = some l ∧ page l.reader l.healthy 1 256 = .ok p ∧ p.nextCursor = 3 ∧
      ¬ p.Accounts 1 := by
  have hcheck : (exec (step smallTable.codec defaults)
      (.start 0 1 1 :: startUp ++ enqueueOne ++ failedWrite ++ enqueueOne
          ++ [.writer .done, .writer .done, .writer .done]) Sys.fresh).any (fun s =>
        s.live.any fun l => match page l.reader l.healthy 1 256 with
          | .ok p => decide (p.nextCursor = 3) && decide (2 ∉ p.events.map Event.seq)
              && decide (¬ Covered p.gaps 2) && decide (¬ 2 ≤ p.earliestCursor)
          | .error _ => false) = true := by
    decide +kernel
  obtain ⟨s, hexec, hs⟩ := StepSystem.exists_of_exec hcheck
  obtain ⟨l, hl, hpage⟩ := (Option.any_eq_true _ _).mp hs
  split at hpage
  · rename_i p hp
    simp only [Bool.and_eq_true, decide_eq_true_eq] at hpage
    obtain ⟨⟨⟨hnext, hevent⟩, hgap⟩, hfloor⟩ := hpage
    refine ⟨s, l, p, hexec, hl, hp, hnext, fun hacc => ?_⟩
    rcases hacc 2 (by decide) (by omega) with h | h | h
    · exact hevent h
    · exact hgap h
    · exact hfloor h
  · cases hpage

end VivadoServer.History
