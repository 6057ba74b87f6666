/-
  VivadoServer.History.Frame

  What each group of writer steps leaves alone.  Receiving touches neither the
  disk nor a record; writing touches the journal file; publishing touches what
  was acknowledged and removed; the idle branch may sync the journal; only the
  saving calls replace a file and, at start-up, number events.
-/

import VivadoServer.History.Machine

namespace VivadoServer.History

variable {cd : Codec} {opts : Options} {choice : Choice} {s t : Sys} {l : Live}

theorem receiveStep_frame (h : receiveStep cd choice s l = some t) :
    ∃ l', t = s.with s.disk l' := by
  unfold receiveStep at h
  split at h
  · split at h <;> cases h
    exact ⟨_, rfl⟩
  · split at h <;> cases h
    exact ⟨_, rfl⟩
  · split at h
    · split at h <;> cases h <;> exact ⟨_, rfl⟩
    · cases h
      exact ⟨_, rfl⟩
  · cases h

theorem writeStep_frame (h : writeStep cd choice s l = some t) :
    ∃ file l', t = s.with { s.disk with journal := file } l' := by
  unfold writeStep at h
  dsimp only at h
  split at h <;> cases h <;> exact ⟨_, _, rfl⟩

theorem publishStep_frame (h : publishStep opts choice s l = some t) :
    t.disk = s.disk ∧ t.created = s.created ∧ t.outputBytes = s.outputBytes ∧
      s.removed <+: t.removed ∧ s.acked <+: t.acked := by
  have hself : ∀ {α : Type} (xs : List α), xs <+: xs := fun xs => List.prefix_refl xs
  unfold publishStep at h
  dsimp only at h
  split at h
  case h_2 =>
    split at h <;> cases h
    · exact ⟨rfl, rfl, rfl, List.prefix_append .., hself _⟩
    · exact ⟨rfl, rfl, rfl, hself _, hself _⟩
  case h_5 =>
    cases h
    exact ⟨rfl, rfl, rfl, List.prefix_append .., hself _⟩
  case h_6 =>
    cases h
    exact ⟨rfl, rfl, rfl, hself _, List.prefix_append ..⟩
  all_goals
    cases h
  all_goals
    exact ⟨rfl, rfl, rfl, hself _, hself _⟩

theorem idleStep_frame (h : idleStep opts choice s l = some t) :
    t.disk.state = s.disk.state ∧
      (t.disk.journal = s.disk.journal ∨ t.disk.journal = s.disk.journal.sync) ∧
      t.created = s.created ∧ t.outputBytes = s.outputBytes ∧ t.acked = s.acked ∧
      s.removed <+: t.removed := by
  have hself : s.removed <+: s.removed := List.prefix_refl _
  unfold idleStep at h
  dsimp only at h
  split at h
  case h_3 =>
    split at h <;> cases h
    · exact ⟨rfl, .inr rfl, rfl, rfl, rfl, hself⟩
    · exact ⟨rfl, .inl rfl, rfl, rfl, rfl, hself⟩
  case h_4 =>
    split at h <;> cases h
    exact ⟨rfl, .inl rfl, rfl, rfl, rfl, hself⟩
  case h_6 =>
    cases h
    exact ⟨rfl, .inl rfl, rfl, rfl, rfl, List.prefix_append ..⟩
  all_goals
    cases h
  all_goals
    exact ⟨rfl, .inl rfl, rfl, rfl, rfl, hself⟩

theorem saveStep_frame (h : saveStep cd choice s l = some t) :
    (∃ disk l', t = s.with disk l') ∨
      ∃ now, l.pc = .persist .init ∧
        t = { s.with { s.disk with state := some l.reader.state } (startAppend cd now l).1 with
              created := s.created ++ (startAppend cd now l).2 } := by
  unfold saveStep at h
  dsimp only at h
  split at h
  case h_5 now hpc =>
    split at h <;> cases h
    exact .inr ⟨_, hpc, rfl⟩
  case h_6 =>
    split at h <;> cases h
    exact .inl ⟨_, _, rfl⟩
  case h_7 =>
    split at h <;> cases h
    exact .inl ⟨_, _, rfl⟩
  all_goals
    cases h
  all_goals
    exact .inl ⟨_, _, rfl⟩

end VivadoServer.History
