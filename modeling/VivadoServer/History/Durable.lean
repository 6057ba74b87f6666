/-
  VivadoServer.History.Durable

  The journal file and the writer together.  `Live.Journaled` ties the lines of
  the file to the reader, the batch in the writer's hands and the queue; it is
  kept by every step of a run in which a batch is only ever written at the end
  of an intact file (`writesAtEnd`).
-/

import VivadoServer.History.Journal

namespace VivadoServer.History

open Std (ExtTreeMap)
open StepSystem (Run exec execIf)

variable {cd : Codec} {opts : Options} {s t : Sys} {l l' : Live} {es : List Event}

/-! ## The condition -/

/-- A batch is written where the file ends, and the file ends where its intact
    part does: no rollback has failed since the last compaction. -/
def writesAtEnd (a : Act) (s : Sys) : Bool :=
  match a, s.live with
  | .writer _, some l =>
    match l.pc with
    | .write _ _ =>
      decide (l.pos = l.physical) && decide (s.disk.journal.bytes.length = l.physical)
    | _ => true
  | _, _ => true

/-! ## The invariant -/

/-- The events in hand that are not in the journal yet. -/
def Pc.unwritten : Pc → List Event
  | .collect events _ => events
  | .write _ batch | .sync _ batch => batch.map (·.1)
  | _ => []

/-- The events in hand that are in the journal, and not in the reader yet. -/
def Pc.written : Pc → List Event
  | .insert _ batch | .trim _ _ _ batch => batch.map (·.1)
  | _ => []

/-- Every numbered event that may still be written. -/
def Live.unwritten (l : Live) : List Event := l.pc.unwritten ++ l.queue.flatMap (·.events)

structure Live.Journaled (cd : Codec) (s : Sys) (l : Live) (es : List Event) : Prop where
  disk : s.disk.Journaled cd s.outputBytes es
  physical : l.physical = (cd.encode es).length
  syncing : ∀ {c : Caller} {batch : List (Event × Nat)}, l.pc = .sync c batch →
    s.disk.journal.bytes = cd.encode (es ++ batch.map (·.1))
  ordered : (es ++ l.unwritten).Pairwise Precedes
  lawful : ∀ e ∈ l.unwritten, e.Lawful cd s.outputBytes
  bound : ∀ e ∈ es, e.seq ≤ l.producer
  held : ∀ {k : Nat} {e : Event} {n : Nat}, l.reader.events[k]? = some (e, n) → e ∈ es
  written : ∀ e ∈ l.pc.written, e ∈ es

theorem Live.unwritten_sublist_flight (l : Live) : l.unwritten.Sublist l.flight := by
  refine List.Sublist.append ?_ (List.Sublist.refl _)
  cases l.pc with
  | collect | write | sync => exact List.Sublist.refl _
  | _ => exact List.nil_sublist _

namespace Live.Journaled

/-- Steps that leave the journal file and the output counters alone. -/
theorem frame (h : l.Journaled cd s es) (hdisk : t.disk.journal = s.disk.journal)
    (hcount : t.outputBytes = s.outputBytes) (hphysical : l'.physical = l.physical)
    (hproducer : l.producer ≤ l'.producer) (hunwritten : l'.unwritten.Sublist l.unwritten)
    (hheld : ∀ {k : Nat} {e : Event} {n : Nat}, l'.reader.events[k]? = some (e, n) → e ∈ es)
    (hsync : ∀ {c : Caller} {batch : List (Event × Nat)}, l'.pc = .sync c batch →
      l.pc = .sync c batch)
    (hwritten : ∀ e ∈ l'.pc.written, e ∈ es) : l'.Journaled cd t es where
  disk := by
    have hd := h.disk
    exact ⟨hdisk ▸ hcount ▸ hd.bytes, hdisk ▸ hcount ▸ hd.residue, hdisk ▸ hd.synced,
      hdisk ▸ hd.rolled, hcount ▸ hd.lawful⟩
  physical := hphysical.trans h.physical
  syncing hpc := hdisk ▸ h.syncing (hsync hpc)
  ordered := h.ordered.sublist ((List.Sublist.refl es).append hunwritten)
  lawful e he := hcount ▸ h.lawful e (hunwritten.subset he)
  bound e he := (h.bound e he).trans hproducer
  held := hheld
  written := hwritten

end Live.Journaled

/-! ## Producers -/

theorem outputCount_countOutput (outputBytes : ExtTreeMap Uuid Nat) (e : Event) :
    Counts outputBytes (countOutput outputBytes e) := by
  intro id
  unfold countOutput
  split
  · rename_i id' _ _
    unfold outputCount
    by_cases heq : id' = id
    · subst heq
      rw [OrderedMap.getElem?_insert_self', Option.getD_some]
      exact Nat.le_add_right _ _
    · rw [OrderedMap.getElem?_insert_of_ne heq]
  · exact le_rfl

/-- The largest output counter, behind every recorded output event. -/
theorem Event.Lawful.precedes {a b : Event} {outputBytes : ExtTreeMap Uuid Nat}
    (ha : a.Lawful cd outputBytes) (hseq : a.seq < b.seq)
    (hb : ∀ {id : Uuid}, b.isOutput = true → b.sessionId = some id →
      b.offset = outputCount outputBytes id) (hid : b.isOutput = true → b.sessionId ≠ none) :
    Precedes a b := by
  refine ⟨hseq, fun hao hbo hsame => ?_⟩
  cases hsession : b.sessionId with
  | none => exact absurd hsession (hid hbo)
  | some id =>
      rw [hb hbo hsession]
      exact ha.counted hao (hsame.trans hsession)

@[simp] theorem numbered_isOutput (e : Event) (instanceId : Uuid) (seq : Nat) :
    (e.numbered instanceId seq).isOutput = e.isOutput := rfl

@[simp] theorem numbered_offset (e : Event) (instanceId : Uuid) (seq : Nat) :
    (e.numbered instanceId seq).offset = e.offset := rfl

@[simp] theorem numbered_byteLength (e : Event) (instanceId : Uuid) (seq : Nat) :
    (e.numbered instanceId seq).byteLength = e.byteLength := rfl

/-- Numbered events are the given ones, with sequences from `next + 1` on. -/
theorem mem_stampStartup {instanceId : Uuid} {next : Nat} {events : List Event} {e : Event}
    (h : e ∈ stampStartup instanceId next events) :
    next < e.seq ∧ ∃ e₀ ∈ events, e = e₀.numbered instanceId e.seq := by
  induction events generalizing next with
  | nil => cases h
  | cons e₀ events ih =>
      rw [stampStartup] at h
      rcases List.mem_cons.mp h with rfl | h
      · exact ⟨Nat.lt_succ_self _, e₀, List.mem_cons_self, rfl⟩
      · obtain ⟨hlt, e₁, he₁, heq⟩ := ih h
        exact ⟨by omega, e₁, List.mem_cons_of_mem _ he₁, heq⟩

/-- When none is too large, `enqueue` numbers every event. -/
theorem stamp_fits {instanceId : Uuid} {next : Nat} {events : List Event}
    (h : (stamp cd instanceId next events).2.2 = false) :
    (stamp cd instanceId next events).1 = stampStartup instanceId next events ∧
      ∀ e ∈ stampStartup instanceId next events, (cd.line e).length ≤ eventLimit := by
  induction events generalizing next with
  | nil => exact ⟨rfl, by simp [stampStartup]⟩
  | cons e events ih =>
      rw [stamp] at h ⊢
      split at h
      · cases h
      · rename_i hfits
        rw [if_neg hfits]
        obtain ⟨hsame, hsizes⟩ := ih h
        refine ⟨congrArg (_ :: ·) hsame, fun e' he' => ?_⟩
        rcases List.mem_cons.mp he' with rfl | he'
        · rw [Codec.line, List.length_append, List.length_singleton]
          omega
        · exact hsizes e' he'

/-- New events are given at most the counters that stood before them. -/
structure Fresh (outputBytes outputBytes' : ExtTreeMap Uuid Nat) (events : List Event) : Prop where
  counts : Counts outputBytes outputBytes'
  object : ∀ e ∈ events, e.data.isObject = true
  offset : ∀ e ∈ events, e.isOutput = true → ∃ id, e.sessionId = some id ∧
    e.offset = outputCount outputBytes id ∧ e.offset + e.byteLength ≤ outputCount outputBytes' id
  single : events.Pairwise fun _ b => b.isOutput = false

theorem Fresh.offset_eq {outputBytes outputBytes' : ExtTreeMap Uuid Nat} {events : List Event}
    (h : Fresh outputBytes outputBytes' events) {e : Event} (he : e ∈ events) {id : Uuid}
    (hout : e.isOutput = true) (hid : e.sessionId = some id) :
    e.offset = outputCount outputBytes id ∧ e.offset + e.byteLength ≤ outputCount outputBytes' id := by
  obtain ⟨id', hid', hoffset⟩ := h.offset e he hout
  obtain rfl : id' = id := Option.some.inj (hid'.symm.trans hid)
  exact hoffset

/-- Numbered behind everything else, new events come last. -/
theorem Fresh.append {outputBytes outputBytes' : ExtTreeMap Uuid Nat} {events olds : List Event}
    (h : Fresh outputBytes outputBytes' events) {instanceId : Uuid} {next : Nat}
    (hordered : olds.Pairwise Precedes) (hlawful : ∀ e ∈ olds, e.Lawful cd outputBytes)
    (hbound : ∀ e ∈ olds, e.seq ≤ next) :
    (olds ++ stampStartup instanceId next events).Pairwise Precedes := by
  refine List.pairwise_append.mpr ⟨hordered, ?_, fun a ha b hb => ?_⟩
  · have hsingle := h.single
    clear h hlawful hbound hordered
    induction events generalizing next with
    | nil => exact .nil
    | cons e events ih =>
        obtain ⟨hfirst, hrest⟩ := List.pairwise_cons.mp hsingle
        refine List.pairwise_cons.mpr ⟨fun b hb => ?_, ih hrest⟩
        obtain ⟨hlt, e₁, he₁, heq⟩ := mem_stampStartup hb
        refine ⟨hlt, fun _ hbo _ => ?_⟩
        rw [heq, numbered_isOutput, hfirst e₁ he₁] at hbo
        cases hbo
  · obtain ⟨hlt, e₁, he₁, heq⟩ := mem_stampStartup hb
    refine (hlawful a ha).precedes ((hbound a ha).trans_lt hlt) (fun hbo hid => ?_) fun hbo => ?_
    all_goals
      rw [heq] at hbo ⊢
    · rw [heq] at hid
      exact (h.offset_eq he₁ hbo hid).1
    · obtain ⟨id, hid, -⟩ := h.offset e₁ he₁ hbo
      change e₁.sessionId ≠ none
      rw [hid]
      exact Option.some_ne_none id

/-- New events of a legal size are lawful. -/
theorem Fresh.lawful {outputBytes outputBytes' : ExtTreeMap Uuid Nat} {events : List Event}
    (h : Fresh outputBytes outputBytes' events) {instanceId : Uuid} {next : Nat} {e : Event}
    (he : e ∈ stampStartup instanceId next events) (hsize : (cd.line e).length ≤ eventLimit) :
    e.Lawful cd outputBytes' := by
  obtain ⟨hlt, e₁, he₁, heq⟩ := mem_stampStartup he
  refine ⟨by omega, ?_, hsize, fun hout hid => ?_⟩
  · rw [heq]
    exact h.object e₁ he₁
  · rw [heq] at hout hid ⊢
    exact (h.offset_eq he₁ hout hid).2

/-- `enqueue` puts new events behind everything that is to be written. -/
theorem enqueue_journaled (h : l.Journaled cd s es) (hwf : l.Wf) {events : List Event} (ack : Bool)
    (hfresh : Fresh s.outputBytes t.outputBytes events)
    (hdisk : t.disk.journal = s.disk.journal) : (enqueue cd events ack l).1.Journaled cd t es := by
  have hd : t.disk.Journaled cd t.outputBytes es := by
    have hd := h.disk.mono hfresh.counts
    exact ⟨hdisk ▸ hd.bytes, hdisk ▸ hd.residue, hdisk ▸ hd.synced, hdisk ▸ hd.rolled, hd.lawful⟩
  obtain ⟨-, ⟨hfits, hl'⟩ | ⟨reason, healthy, hl'⟩⟩ := enqueue_cases cd events ack l
  · obtain ⟨hsame, hsizes⟩ := stamp_fits hfits
    rw [hl', hsame]
    have hsplit : ∀ (b q n : Nat), Live.unwritten { l with
        producer := n
        queue := l.queue ++ [⟨stampStartup l.reader.state.instanceId l.producer events, b, ack⟩]
        queuedBytes := q }
        = l.unwritten ++ stampStartup l.reader.state.instanceId l.producer events := by
      intro b q n
      simp [Live.unwritten]
    have hbound : ∀ e ∈ es ++ l.unwritten, e.seq ≤ l.producer := by
      intro e he
      rcases List.mem_append.mp he with he | he
      · exact h.bound e he
      · exact (hwf.flight_bound (l.unwritten_sublist_flight.subset he)).2
    have hlawful : ∀ e ∈ es ++ l.unwritten, e.Lawful cd s.outputBytes := by
      intro e he
      rcases List.mem_append.mp he with he | he
      · exact h.disk.lawful e he
      · exact h.lawful e he
    refine ⟨hd, h.physical, fun hpc => hdisk ▸ h.syncing hpc, ?_, fun e he => ?_, fun e he => ?_,
      h.held, h.written⟩
    · rw [hsplit, ← List.append_assoc]
      exact hfresh.append h.ordered hlawful hbound
    · rw [hsplit] at he
      rcases List.mem_append.mp he with he | he
      · exact (h.lawful e he).mono hfresh.counts
      · exact hfresh.lawful he (hsizes e he)
    · exact (h.bound e he).trans (Nat.le_add_right _ _)
  · rw [hl']
    exact ⟨hd, h.physical, fun hpc => hdisk ▸ h.syncing hpc, h.ordered,
      fun e he => (h.lawful e he).mono hfresh.counts,
      fun e he => (h.bound e he).trans (Nat.le_add_right _ _), h.held, h.written⟩

/-! ## The writer thread -/

theorem beginAppend_unwritten (cd : Codec) (c : Caller) (events : List Event) :
    (beginAppend cd c events).unwritten.Sublist events ∧ (beginAppend cd c events).written = [] := by
  unfold beginAppend
  dsimp only
  split
  · exact ⟨List.nil_sublist _, rfl⟩
  · refine ⟨?_, rfl⟩
    rw [Pc.unwritten, List.map_map]
    simp [Function.comp_def]

theorem beginAppend_ne_sync (cd : Codec) (c c' : Caller) (events : List Event)
    (batch : List (Event × Nat)) : beginAppend cd c events ≠ .sync c' batch := by
  unfold beginAppend
  dsimp only
  split <;> exact fun h => by cases h

theorem receiveStep_journaled (h : l.Journaled cd s es) {choice : Choice}
    (hstep : receiveStep cd choice s l = some t) :
    ∃ l', t.live = some l' ∧ l'.Journaled cd t es := by
  unfold receiveStep at hstep
  split at hstep
  · rename_i hpc
    split at hstep
    · cases hstep
    · rename_i m queue hqueue
      cases hstep
      refine ⟨_, rfl, h.frame rfl rfl rfl le_rfl ?_ h.held (fun hc => by cases hc) (by simp [Pc.written])⟩
      simp [Live.unwritten, Pc.unwritten, hpc, hqueue]
  · rename_i hpc
    split at hstep <;> cases hstep
    refine ⟨_, rfl, h.frame rfl rfl rfl le_rfl ?_ h.held (fun hc => by cases hc) (by simp [Pc.written])⟩
    simp [Live.unwritten, Pc.unwritten, hpc]
  · rename_i events acks hpc
    have hbegin : ∀ c, Live.Journaled cd (s.with s.disk { l with pc := beginAppend cd c events })
        { l with pc := beginAppend cd c events } es := by
      intro c
      obtain ⟨hsub, hnone⟩ := beginAppend_unwritten cd c events
      refine h.frame rfl rfl rfl le_rfl ?_ h.held
        (fun hc => (beginAppend_ne_sync cd c _ events _ hc).elim) (by simp [hnone])
      simp only [Live.unwritten, hpc]
      exact hsub.append (List.Sublist.refl _)
    split at hstep
    · rename_i m queue hqueue
      split at hstep <;> cases hstep
      · refine ⟨_, rfl, h.frame rfl rfl rfl le_rfl ?_ h.held (fun hc => by cases hc)
          (by simp [Pc.written])⟩
        simp [Live.unwritten, Pc.unwritten, hpc, hqueue]
      · exact ⟨_, rfl, hbegin _⟩
    · cases hstep
      exact ⟨_, rfl, hbegin _⟩
  · cases hstep

/-- Writing, syncing and rolling back: the batch joins the lines when it is synced. -/
theorem writeStep_journaled (h : l.Journaled cd s es) (hwf : l.Wf) {choice : Choice}
    (hend : ∀ c batch, l.pc = .write c batch →
      l.pos = l.physical ∧ s.disk.journal.bytes.length = l.physical)
    (hstep : writeStep cd choice s l = some t) :
    ∃ l' es', t.live = some l' ∧ l'.Journaled cd t es' ∧ es' ⊆ es ++ l.flight := by
  have hunwritten := h.lawful
  have hordered := h.ordered
  unfold writeStep at hstep
  dsimp only at hstep
  split at hstep
  case h_9 => cases hstep
  all_goals
    rename_i hpc
    cases hstep
    simp only [Live.unwritten, hpc, Pc.unwritten] at hunwritten hordered
  · rename_i c batch
    obtain ⟨hpos, hlength⟩ := hend c batch hpc
    rw [h.physical] at hpos hlength
    have hbatch : Tail cd s.outputBytes es (cd.encode (batch.map (·.1))) :=
      .of_batch (fun e he => hunwritten e (List.mem_append_left _ he))
        (hordered.sublist ((List.Sublist.refl es).append (List.sublist_append_left _ _)))
    obtain ⟨hdisk, hbytes⟩ := h.disk.writeAt hlength hbatch
    rw [hpos]
    refine ⟨_, es, rfl, ⟨hdisk, h.physical, fun hc => ?_, hordered, hunwritten, h.bound, h.held,
      by simp [Pc.written]⟩, List.subset_append_left _ _⟩
    cases hc
    rw [encode_append]
    exact hbytes
  · rename_i c batch n
    obtain ⟨hpos, hlength⟩ := hend c batch hpc
    rw [h.physical] at hpos hlength
    have hbatch : Tail cd s.outputBytes es (cd.encode (batch.map (·.1))) :=
      .of_batch (fun e he => hunwritten e (List.mem_append_left _ he))
        (hordered.sublist ((List.Sublist.refl es).append (List.sublist_append_left _ _)))
    obtain ⟨hdisk, -⟩ := h.disk.writeAt hlength (hbatch.of_prefix (List.take_prefix n _))
    rw [hpos]
    refine ⟨_, es, rfl, ⟨hdisk, h.physical, fun hc => (by cases hc), ?_, fun e he => ?_, h.bound,
      h.held, by simp [Pc.written]⟩, List.subset_append_left _ _⟩
    · exact hordered.sublist ((List.Sublist.refl es).append (List.sublist_append_right _ _))
    · exact hunwritten e (List.mem_append_right _ he)
  · rename_i c batch
    have hbatch : ∀ e ∈ es ++ batch.map (·.1), e.Lawful cd s.outputBytes := by
      intro e he
      rcases List.mem_append.mp he with he | he
      · exact h.disk.lawful e he
      · exact hunwritten e (List.mem_append_left _ he)
    have hbefore : (es ++ batch.map (·.1)).Pairwise Precedes :=
      hordered.sublist ((List.Sublist.refl es).append (List.sublist_append_left _ _))
    have hbytes := h.syncing hpc
    have hflight : ∀ e ∈ batch.map (·.1), e ∈ l.flight := by
      intro e he
      rw [Live.flight, hpc]
      exact List.mem_append_left _ he
    refine ⟨_, es ++ batch.map (·.1), rfl, ⟨?_, ?_, fun hc => (by cases hc), ?_, fun e he => ?_,
      fun e he => ?_, fun hk => List.mem_append_left _ (h.held hk), fun e he => ?_⟩,
      List.append_subset.mpr ⟨List.subset_append_left _ _,
        fun e he => List.mem_append_right _ (hflight e he)⟩⟩
    · exact .durable hbatch (hbytes.trans (List.append_nil _).symm) (.nil hbefore)
    · rw [encode_append, List.length_append, ← h.physical]
    · rw [List.append_assoc]
      exact hordered
    · exact hunwritten e (List.mem_append_right _ he)
    · rcases List.mem_append.mp he with he | he
      · exact h.bound e he
      · exact (hwf.flight_bound (hflight e he)).2
    · exact List.mem_append_right _ he
  · refine ⟨_, es, rfl, h.frame rfl rfl rfl le_rfl ?_ h.held (fun hc => by cases hc)
      (by simp [Pc.written]), List.subset_append_left _ _⟩
    simp [Live.unwritten, Pc.unwritten]
  · obtain ⟨hdisk, -⟩ := h.disk.setLen
    rw [h.physical]
    exact ⟨_, es, rfl, ⟨hdisk, rfl, fun hc => (by cases hc), hordered, hunwritten, h.bound, h.held,
      by simp [Pc.written]⟩, List.subset_append_left _ _⟩
  all_goals
    refine ⟨_, es, rfl, h.frame rfl rfl rfl le_rfl ?_ h.held (fun hc => by cases hc)
      (by simp [Pc.written]), List.subset_append_left _ _⟩
    simp [Live.unwritten, Pc.unwritten, hpc]

theorem publishStep_journaled (h : l.Journaled cd s es) (hwf : l.Wf) {choice : Choice}
    (hstep : publishStep opts choice s l = some t) :
    ∃ l', t.live = some l' ∧ l'.Journaled cd t es := by
  obtain ⟨hdisk, -, hcount, -⟩ := publishStep_frame hstep
  have hwritten := h.written
  unfold publishStep at hstep
  dsimp only at hstep
  split at hstep
  · rename_i c event size rest hpc
    cases hstep
    simp only [hpc, Pc.written, List.map_cons] at hwritten
    have hheld : ∀ {k : Nat} {e : Event} {n : Nat},
        (insertEvent event size l.reader).events[k]? = some (e, n) → e ∈ es := by
      intro k e n hk
      rw [insertEvent_events] at hk
      by_cases heq : event.seq = k
      · subst heq
        rw [OrderedMap.getElem?_insert_self', Option.some.injEq, Prod.mk.injEq] at hk
        rw [← hk.1]
        exact hwritten event List.mem_cons_self
      · rw [OrderedMap.getElem?_insert_of_ne heq] at hk
        exact h.held hk
    split <;> refine ⟨_, rfl, h.frame rfl rfl rfl le_rfl ?_ hheld (fun hc => by cases hc)
      fun e he => hwritten e (List.mem_cons_of_mem _ he)⟩
    all_goals simp [Live.unwritten, Pc.unwritten, hpc]
  · rename_i c event id rest hpc
    simp only [hpc, Pc.written] at hwritten
    split at hstep
    · rename_i tails reader htrim
      cases hstep
      have hretires := trimTail_retires hwf.sound.positive htrim
      refine ⟨_, rfl, h.frame rfl rfl rfl le_rfl (List.Sublist.refl _)
        (fun hk => h.held (hretires.sub hk)) (fun hc => hc) ?_⟩
      rw [hpc]
      exact hwritten
    · cases hstep
      refine ⟨_, rfl, h.frame rfl rfl rfl le_rfl ?_ h.held (fun hc => by cases hc) hwritten⟩
      simp [Live.unwritten, Pc.unwritten, hpc]
  · rename_i c hpc
    cases hstep
    refine ⟨_, rfl, h.frame rfl rfl rfl le_rfl ?_ h.held (fun hc => by cases hc)
      (by simp [Pc.written])⟩
    simp [Live.unwritten, Pc.unwritten, hpc]
  · rename_i c held hpc
    cases hstep
    refine ⟨_, rfl, h.frame rfl rfl rfl le_rfl ?_ h.held (fun hc => by cases hc)
      (by simp [Pc.written])⟩
    simp [Live.unwritten, Pc.unwritten, hpc]
  · rename_i c now hpc
    cases hstep
    have hretires := prune_retires opts now l.tails hwf.sound.positive
    refine ⟨_, rfl, h.frame rfl rfl rfl le_rfl ?_ (fun hk => h.held (hretires.sub hk)) ?_ ?_⟩
    · simp only [Live.unwritten]
      split <;> exact List.sublist_append_right _ _
    · dsimp only
      split <;> exact fun hc => by cases hc
    · dsimp only
      split <;> simp [Pc.written]
  · rename_i c result hpc
    cases hstep
    have hpc' : (finishAppend c result l).pc.unwritten = [] ∧
        (finishAppend c result l).pc.written = [] ∧
        ∀ c' batch, (finishAppend c result l).pc ≠ .sync c' batch := by
      unfold finishAppend
      split
      · dsimp only
        split <;> exact ⟨rfl, rfl, fun _ _ hc => by cases hc⟩
      · exact ⟨rfl, rfl, fun _ _ hc => by cases hc⟩
    have hsame : (finishAppend c result l).reader = l.reader ∧
        (finishAppend c result l).physical = l.physical ∧
        (finishAppend c result l).producer = l.producer ∧
        (finishAppend c result l).queue = l.queue := by
      unfold finishAppend
      split <;> exact ⟨rfl, rfl, rfl, rfl⟩
    refine ⟨_, rfl, h.frame rfl rfl hsame.2.1 hsame.2.2.1.ge ?_ ?_
      (fun hc => (hpc'.2.2 _ _ hc).elim) (by simp [hpc'.2.1])⟩
    · rw [Live.unwritten, hpc'.1, hsame.2.2.2]
      exact List.sublist_append_right _ _
    · rw [hsame.1]
      exact h.held
  · cases hstep

theorem idleStep_journaled (h : l.Journaled cd s es) (hwf : l.Wf) {choice : Choice}
    (hstep : idleStep opts choice s l = some t) :
    ∃ l', t.live = some l' ∧ l'.Journaled cd t es := by
  unfold idleStep at hstep
  dsimp only at hstep
  split at hstep
  case h_2 drained held hpc =>
    cases hstep
    refine ⟨_, rfl, h.frame rfl rfl rfl le_rfl ?_ ?_ ?_ ?_⟩
    · simp only [Live.unwritten]
      split <;> exact List.sublist_append_right _ _
    · dsimp only
      rw [idleReader_events]
      exact h.held
    · dsimp only
      split <;> exact fun hc => by cases hc
    · dsimp only
      split <;> simp [Pc.written]
  case h_3 hpc =>
    have hunwritten := h.lawful
    have hordered := h.ordered
    simp only [Live.unwritten, hpc, Pc.unwritten] at hunwritten hordered
    split at hstep <;> cases hstep
    · exact ⟨_, rfl, h.disk.sync, h.physical, fun hc => (by cases hc), hordered, hunwritten,
        h.bound, h.held, by simp [Pc.written]⟩
    · refine ⟨_, rfl, h.frame rfl rfl rfl le_rfl ?_ h.held (fun hc => by cases hc)
        (by simp [Pc.written])⟩
      simp [Live.unwritten, Pc.unwritten, hpc]
  case h_4 hpc =>
    split at hstep <;> cases hstep
    refine ⟨_, rfl, h.frame rfl rfl rfl le_rfl ?_ h.held (fun hc => by cases hc)
      (by simp [Pc.written])⟩
    simp [Live.unwritten, Pc.unwritten, hpc]
  case h_6 now hpc =>
    cases hstep
    have hretires := prune_retires opts now l.tails hwf.sound.positive
    refine ⟨_, rfl, h.frame rfl rfl rfl le_rfl ?_ (fun hk => h.held (hretires.sub hk)) ?_ ?_⟩
    · simp only [Live.unwritten]
      split <;> exact List.sublist_append_right _ _
    · dsimp only
      split <;> exact fun hc => by cases hc
    · dsimp only
      split <;> simp [Pc.written]
  case h_7 hpc =>
    cases hstep
    refine ⟨_, rfl, h.frame rfl rfl rfl le_rfl ?_ h.held ?_ ?_⟩
    · simp only [Live.unwritten]
      split <;> exact List.sublist_append_right _ _
    · dsimp only
      split <;> exact fun hc => by cases hc
    · dsimp only
      split <;> simp [Pc.written]
  case h_8 => cases hstep
  all_goals
    rename_i hpc
    cases hstep
    refine ⟨_, rfl, h.frame rfl rfl rfl le_rfl ?_ h.held (fun hc => by cases hc)
      (by simp [Pc.written])⟩
    simp [Live.unwritten, Pc.unwritten, hpc]

/-! ## Compaction -/

/-- In a journal, a smaller sequence is an earlier place. -/
theorem precedes_of_lt (h : es.Pairwise Precedes) {a b : Event} (ha : a ∈ es) (hb : b ∈ es)
    (hlt : a.seq < b.seq) : Precedes a b := by
  induction es with
  | nil => cases ha
  | cons e es ih =>
      obtain ⟨hfirst, hrest⟩ := List.pairwise_cons.mp h
      rcases List.mem_cons.mp ha with rfl | ha'
      · rcases List.mem_cons.mp hb with rfl | hb'
        · exact absurd hlt (lt_irrefl _)
        · exact hfirst b hb'
      · rcases List.mem_cons.mp hb with rfl | hb'
        · exact absurd hlt (hfirst a ha').1.not_gt
        · exact ih hrest ha' hb'

theorem mem_values {r : Reader} {e : Event} (h : e ∈ r.values) :
    ∃ (k n : Nat), r.events[k]? = some (e, n) := by
  obtain ⟨⟨k, v⟩, hentry, rfl⟩ := List.mem_map.mp h
  exact ⟨k, v.2, OrderedMap.mem_toList.mp hentry⟩

theorem values_sorted {r : Reader} (hr : r.Filed) :
    r.values.Pairwise fun a b => a.seq < b.seq := by
  rw [Reader.values, List.pairwise_map]
  refine List.Pairwise.imp_of_mem ?_ OrderedMap.toList_pairwise
  intro a b ha hb hlt
  have ha' : a.2.1.seq = a.1 := hr.key (OrderedMap.mem_toList.mp ha)
  have hb' : b.2.1.seq = b.1 := hr.key (OrderedMap.mem_toList.mp hb)
  omega

theorem Live.Journaled.values_subset (h : l.Journaled cd s es) : l.reader.values ⊆ es := by
  intro e he
  obtain ⟨k, n, hk⟩ := mem_values he
  exact h.held hk

/-- After a compaction the lines of the journal are the retained events. -/
theorem compact_journaled (h : l.Journaled cd s es) (hwf : l.Wf) {site : Site}
    (hpc : l.pc = .compact site) (ok : Bool) :
    Live.Journaled cd
      (s.with { s.disk with journal := .durable (cd.encode l.reader.values) }
        { l with
          physical := (cd.encode l.reader.values).length
          pos := (cd.encode l.reader.values).length
          pc := afterCompact site ok })
      { l with
        physical := (cd.encode l.reader.values).length
        pos := (cd.encode l.reader.values).length
        pc := afterCompact site ok } l.reader.values := by
  have hmem : ∀ e ∈ l.reader.values, e ∈ es := fun e he => h.values_subset he
  have hvalues : l.reader.values.Pairwise Precedes :=
    (values_sorted hwf.sound.filed).imp_of_mem fun ha hb hlt =>
      precedes_of_lt h.disk.ordered (hmem _ ha) (hmem _ hb) hlt
  have hpc' : (afterCompact site ok).unwritten = [] ∧ (afterCompact site ok).written = [] ∧
      ∀ c batch, afterCompact site ok ≠ .sync c batch := by
    unfold afterCompact
    split <;> exact ⟨rfl, rfl, fun _ _ hc => by cases hc⟩
  have hunwritten : ∀ n, Live.unwritten { l with
      physical := n
      pos := n
      pc := afterCompact site ok } = l.unwritten := by
    intro n
    simp only [Live.unwritten, hpc'.1, hpc]
    rfl
  refine ⟨.durable (fun e he => h.disk.lawful e (hmem e he)) (List.append_nil _).symm (.nil hvalues),
    rfl, fun hc => (hpc'.2.2 _ _ hc).elim, ?_, ?_, fun e he => h.bound e (hmem e he), fun hk => ?_,
    by simp [hpc'.2.1]⟩
  · rw [hunwritten]
    obtain ⟨-, hrest, hcross⟩ := List.pairwise_append.mp h.ordered
    exact List.pairwise_append.mpr ⟨hvalues, hrest, fun a ha b hb => hcross a (hmem a ha) b hb⟩
  · rw [hunwritten]
    exact h.lawful
  · exact List.mem_map.mpr ⟨_, OrderedMap.mem_toList.mpr hk, rfl⟩

theorem afterPersist_journaled (h : l.Journaled cd s es) {site : Site} (hpc : l.pc = .persist site)
    (ok : Bool) {disk : Disk} (hdisk : disk.journal = s.disk.journal) :
    (afterPersist site ok l).Journaled cd (s.with disk (afterPersist site ok l)) es := by
  have hpc' : (afterPersist site ok l).pc.unwritten = [] ∧
      (afterPersist site ok l).pc.written = [] ∧
      ∀ c batch, (afterPersist site ok l).pc ≠ .sync c batch := by
    cases site <;> cases ok <;> exact ⟨rfl, rfl, fun _ _ hc => by cases hc⟩
  have hsame : (afterPersist site ok l).reader = l.reader ∧
      (afterPersist site ok l).physical = l.physical ∧
      (afterPersist site ok l).producer = l.producer ∧
      (afterPersist site ok l).queue = l.queue := by
    cases site <;> exact ⟨rfl, rfl, rfl, rfl⟩
  refine h.frame hdisk rfl hsame.2.1 hsame.2.2.1.ge ?_ ?_ (fun hc => (hpc'.2.2 _ _ hc).elim)
    (by simp [hpc'.2.1])
  · rw [Live.unwritten, hpc'.1, hsame.2.2.2]
    exact List.sublist_append_right _ _
  · rw [hsame.1]
    exact h.held

theorem startupEvents_fresh (now : Int) (state : State) (outputBytes : ExtTreeMap Uuid Nat) :
    Fresh outputBytes outputBytes (startupEvents now state) := by
  have hplain : ∀ e ∈ startupEvents now state, e.data.isObject = true ∧ e.isOutput = false := by
    intro e he
    unfold startupEvents at he
    simp only [List.mem_append, List.mem_map, List.mem_singleton] at he
    rcases he with (⟨_, -, rfl⟩ | ⟨_, -, rfl⟩) | rfl <;> exact ⟨rfl, rfl⟩
  refine ⟨fun _ => le_rfl, fun e he => (hplain e he).1, fun e he hout => ?_, ?_⟩
  · rw [(hplain e he).2] at hout
    cases hout
  · exact List.Pairwise.imp_of_mem (fun _ hb _ => (hplain _ hb).2)
      (List.pairwise_of_forall fun _ _ => trivial)

/-- Start-up events go behind everything, or are refused as a whole. -/
theorem startAppend_journaled (h : l.Journaled cd s es) (hqueue : l.queue = []) (now : Int)
    (hdisk : t.disk.journal = s.disk.journal) (hcount : t.outputBytes = s.outputBytes) :
    (startAppend cd now l).1.Journaled cd t es := by
  have hfresh := startupEvents_fresh now l.reader.state s.outputBytes
  have hd : t.disk.Journaled cd t.outputBytes es := by
    have hd := h.disk
    exact ⟨hdisk ▸ hcount ▸ hd.bytes, hdisk ▸ hcount ▸ hd.residue, hdisk ▸ hd.synced,
      hdisk ▸ hd.rolled, hcount ▸ hd.lawful⟩
  have hbound : ∀ n, ∀ e ∈ es, e.seq ≤ l.producer + n := fun n e he =>
    (h.bound e he).trans (Nat.le_add_right _ _)
  unfold startAppend
  dsimp only
  generalize hevents : stampStartup l.reader.state.instanceId l.producer
    (startupEvents now l.reader.state) = events
  obtain ⟨hsub, hnone⟩ := beginAppend_unwritten cd ⟨true, batchRange events, []⟩ events
  refine ⟨hd, h.physical, fun hc => (beginAppend_ne_sync cd _ _ events _ hc).elim, ?_, fun e he => ?_,
    hbound _, h.held, by simp [hnone]⟩
  · have happend : (es ++ stampStartup l.reader.state.instanceId l.producer
        (startupEvents now l.reader.state)).Pairwise Precedes :=
      hfresh.append h.disk.ordered h.disk.lawful h.bound
    rw [hevents] at happend
    refine happend.sublist ((List.Sublist.refl es).append ?_)
    simp only [Live.unwritten, hqueue, List.flatMap_nil, List.append_nil]
    exact hsub
  · simp only [Live.unwritten, hqueue, List.flatMap_nil, List.append_nil] at he
    rw [hcount]
    refine hfresh.lawful (hevents ▸ hsub.subset he) ?_
    unfold beginAppend at he
    dsimp only at he
    split at he
    · cases he
    · rename_i hfits
      rw [Pc.unwritten, List.map_map] at he
      obtain ⟨e', he', rfl⟩ := List.mem_map.mp he
      by_contra hlarge
      refine hfits (List.any_eq_true.mpr ⟨_, List.mem_map.mpr ⟨e', he', rfl⟩, ?_⟩)
      simpa using hlarge

theorem saveStep_journaled (h : l.Journaled cd s es) (hwf : l.Wf) {choice : Choice}
    (hstep : saveStep cd choice s l = some t) :
    ∃ l' es', t.live = some l' ∧ l'.Journaled cd t es' ∧ es' ⊆ es ++ l.flight := by
  unfold saveStep at hstep
  dsimp only at hstep
  split at hstep
  · rename_i site hpc
    cases hstep
    have hpc' : (afterCompact site false).unwritten = [] ∧ (afterCompact site false).written = [] ∧
        ∀ c batch, afterCompact site false ≠ .sync c batch := by
      unfold afterCompact
      split <;> exact ⟨rfl, rfl, fun _ _ hc => by cases hc⟩
    refine ⟨_, es, rfl, h.frame rfl rfl rfl le_rfl ?_ h.held (fun hc => (hpc'.2.2 _ _ hc).elim)
      (by simp [hpc'.2.1]), List.subset_append_left _ _⟩
    simp only [Live.unwritten, hpc'.1]
    exact List.sublist_append_right _ _
  · rename_i site hpc
    cases hstep
    exact ⟨_, _, rfl, compact_journaled h hwf hpc true,
      List.subset_append_of_subset_left _ h.values_subset⟩
  · rename_i site hpc
    cases hstep
    exact ⟨_, _, rfl, compact_journaled h hwf hpc false,
      List.subset_append_of_subset_left _ h.values_subset⟩
  · rename_i site hpc
    cases hstep
    exact ⟨_, es, rfl, afterPersist_journaled h hpc false rfl, List.subset_append_left _ _⟩
  · rename_i now hpc
    split at hstep <;> cases hstep
    exact ⟨_, es, rfl, startAppend_journaled h (hwf.startup (by rw [hpc]; rfl)) now rfl rfl,
      List.subset_append_left _ _⟩
  · rename_i site hpc
    split at hstep <;> cases hstep
    exact ⟨_, es, rfl, afterPersist_journaled h hpc true rfl, List.subset_append_left _ _⟩
  · rename_i site hpc
    split at hstep <;> cases hstep
    exact ⟨_, es, rfl, afterPersist_journaled h hpc false rfl, List.subset_append_left _ _⟩
  · cases hstep

theorem writerStep_journaled (h : l.Journaled cd s es) (hwf : l.Wf) {choice : Choice}
    (hl : s.live = some l) (hend : writesAtEnd (.writer choice) s = true)
    (hstep : writerStep cd opts choice s l = some t) :
    ∃ l' es', t.live = some l' ∧ l'.Journaled cd t es' ∧ es' ⊆ es ++ l.flight := by
  unfold writerStep at hstep
  split at hstep
  case h_1 | h_2 =>
    obtain ⟨l', hl', h'⟩ := receiveStep_journaled h hstep
    exact ⟨l', es, hl', h', List.subset_append_left _ _⟩
  case h_3 | h_4 | h_5 | h_6 =>
    refine writeStep_journaled h hwf (fun c batch hpc => ?_) hstep
    simp only [writesAtEnd, hl, hpc, Bool.and_eq_true, decide_eq_true_eq] at hend
    exact hend
  case h_7 | h_8 | h_9 | h_10 | h_11 =>
    obtain ⟨l', hl', h'⟩ := publishStep_journaled h hwf hstep
    exact ⟨l', es, hl', h', List.subset_append_left _ _⟩
  case h_12 | h_13 => exact saveStep_journaled h hwf hstep
  case h_14 | h_15 | h_16 | h_17 | h_18 =>
    obtain ⟨l', hl', h'⟩ := idleStep_journaled h hwf hstep
    exact ⟨l', es, hl', h', List.subset_append_left _ _⟩
  all_goals cases hstep

/-! ## The whole system -/

/-- A journal that can be replayed: between two lifetimes all of it is durable,
    and in a lifetime it agrees with the writer. -/
def Sys.Journaled (cd : Codec) (s : Sys) (es : List Event) : Prop :=
  match s.live with
  | some l => l.Wf ∧ l.Journaled cd s es
  | none => s.disk.Journaled cd s.outputBytes es ∧
      s.disk.journal = .durable s.disk.journal.bytes

theorem Sys.Journaled.disk (h : s.Journaled cd es) : s.disk.Journaled cd s.outputBytes es := by
  unfold Sys.Journaled at h
  split at h
  · exact h.2.disk
  · exact h.1

theorem fresh_journaled : Sys.fresh.Journaled cd [] :=
  ⟨⟨⟨[], rfl, .nil .nil⟩, .nil .nil, le_rfl, .inl rfl, by simp⟩, rfl⟩

/-- An output event that is accepted continues its session's output. -/
theorem record_fresh {event : Event} {outputBytes : ExtTreeMap Uuid Nat}
    (hobject : event.data.isObject = true)
    (hfits : event.isOutput = true → outputFits outputBytes event = true) :
    Fresh outputBytes (countOutput outputBytes event) [event] := by
  refine ⟨outputCount_countOutput _ _, by simpa using hobject, ?_, List.pairwise_singleton _ _⟩
  intro e he hout
  rw [List.mem_singleton] at he
  subst he
  have hfit := hfits hout
  unfold outputFits at hfit
  split at hfit
  · rename_i id hid
    simp only [Bool.and_eq_true, beq_iff_eq] at hfit
    have hoffset : e.offset = outputCount outputBytes id := by
      rw [Event.offset, hfit.1, Option.getD_some]
      rfl
    refine ⟨id, hid, hoffset, ?_⟩
    simp only [countOutput, hout, hid, outputCount]
    rw [OrderedMap.getElem?_insert_self', Option.getD_some, hoffset]
    exact le_rfl
  · cases hfit

/-- Events that are not output continue nothing. -/
theorem critical_fresh {events : List Event} {outputBytes : ExtTreeMap Uuid Nat}
    (h : ∀ e ∈ events, e.data.isObject = true ∧ e.isOutput = false) :
    Fresh outputBytes outputBytes events := by
  refine ⟨fun _ => le_rfl, fun e he => (h e he).1, fun e he hout => ?_, ?_⟩
  · rw [(h e he).2] at hout
    cases hout
  · exact List.Pairwise.imp_of_mem (fun _ hb _ => (h _ hb).2)
      (List.pairwise_of_forall fun _ _ => trivial)

theorem liveStep_journaled (h : l.Journaled cd s es) (hwf : l.Wf) (hl : s.live = some l) {a : Act}
    (ha : a.isLive = true) (hend : writesAtEnd a s = true) (hstep : step cd opts a s = some t) :
    ∃ l' es', t.live = some l' ∧ l'.Journaled cd t es' ∧ es' ⊆ es ++ l.flight := by
  unfold step at hstep
  rw [hl] at hstep
  split at hstep
  · rename_i event l₁ heq
    cases heq
    split at hstep
    · rename_i hguard
      simp only [Bool.and_eq_true, Bool.or_eq_true, Bool.not_eq_true'] at hguard
      cases hstep
      have hfresh := record_fresh hguard.1.2 fun hout => hguard.2.resolve_left (by simp [hout])
      have hj := enqueue_journaled
        (t := { s.with s.disk (enqueue cd [event] false l).1 with
          outputBytes := countOutput s.outputBytes event
          created := s.created ++ (enqueue cd [event] false l).2 }) h hwf false hfresh rfl
      exact ⟨_, es, rfl, hj, List.subset_append_left _ _⟩
    · cases hstep
  · rename_i events l₁ heq
    cases heq
    split at hstep
    · rename_i hguard
      simp only [Bool.and_eq_true, List.all_eq_true, Bool.not_eq_true'] at hguard
      cases hstep
      have hj := enqueue_journaled
        (t := { s.with s.disk (enqueue cd events true l).1 with
          created := s.created ++ (enqueue cd events true l).2 }) h hwf true
        (critical_fresh hguard.2) rfl
      exact ⟨_, es, rfl, hj, List.subset_append_left _ _⟩
    · cases hstep
  · rename_i l₁ heq
    cases heq
    cases hstep
    exact ⟨_, es, rfl, h.frame rfl rfl rfl le_rfl (List.Sublist.refl _) h.held (fun hc => hc)
      h.written, List.subset_append_left _ _⟩
  · rename_i choice l₁ heq
    cases heq
    exact writerStep_journaled h hwf hl hend hstep
  · cases ha
  · rename_i heq
    cases heq
  · cases hstep

/-- What `load` finds in a journal: its lines, and the lines of the lost batch
    that reached the disk. -/
theorem load_journaled {now : Int} {journalId instanceId : Uuid} {disk : Disk} {d : Loaded}
    {outputBytes : ExtTreeMap Uuid Nat} (h : disk.Journaled cd outputBytes es)
    (hload : load cd opts now journalId instanceId disk = .ok d) :
    ∃ state lost torn, openState cd opts disk journalId instanceId = .ok state ∧
      disk.journal.bytes = cd.encode (es ++ lost) ++ torn ∧ newline ∉ torn ∧
      (∀ e ∈ es ++ lost, e.Lawful cd outputBytes) ∧ (es ++ lost).Pairwise Precedes ∧
      d.position = (cd.encode (es ++ lost)).length ∧
      d.replayed.events
        = (replayEvents cd state.nextCursor (es ++ lost) ⟨state, ∅, 0⟩).events ∧
      (replayEvents cd state.nextCursor (es ++ lost) ⟨state, ∅, 0⟩).state.Recovers
        d.replayed.state := by
  obtain ⟨tail, hbytes, lost, torn, htail, htorn, hlost, hordered⟩ := h.bytes
  have hlines : disk.journal.bytes = cd.encode (es ++ lost) ++ torn := by
    rw [hbytes, htail, encode_append, List.append_assoc]
  have hlawful : ∀ e ∈ es ++ lost, e.Lawful cd outputBytes := by
    intro e he
    rcases List.mem_append.mp he with he | he
    · exact h.lawful e he
    · exact hlost e he
  obtain ⟨state, r, damaged, hopen, hreplay, hreplayed, -, -⟩ := load_stages hload
  rw [hlines, replay_encode hlawful htorn] at hreplay
  simp only [Except.ok.injEq, Prod.mk.injEq] at hreplay
  obtain ⟨hr, hposition, -⟩ := hreplay
  refine ⟨state, lost, torn, hopen, hlines, htorn, hlawful, hordered, hposition.symm, ?_, ?_⟩
  · rw [hreplayed, ← hr]
    split <;> rfl
  · have hsame : (replayEvents cd state.nextCursor (es ++ lost) ⟨state, ∅, 0⟩).state.Recovers
        r.state := by
      rw [← hr]
      split
      · exact .refl _
      · exact ⟨le_rfl, rfl, rfl, rfl, id, fun hlt hle => absurd hlt (not_lt.mpr hle)⟩
    obtain ⟨hhead, hwithin, -⟩ := coverGapHead_spec r.state
    rw [hreplayed]
    exact (hsame.trans hhead).trans (coverDamagedTail_spec damaged hwithin).1

/-- Start-up begins with a journal of the lines it replayed. -/
theorem start_journaled {now : Int} {journalId instanceId : Uuid}
    (h : s.disk.Journaled cd s.outputBytes es) (hnone : s.live = none)
    (hdurable : s.disk.journal = .durable s.disk.journal.bytes)
    (hstep : step cd opts (.start now journalId instanceId) s = some t) :
    ∃ es', t.Journaled cd es' := by
  obtain ⟨d, l, hload, hl, hreader, hproducer, -, -, hwf⟩ := start_wf hstep
  obtain ⟨state, lost, torn, -, hbytes, htorn, hlawful, hordered, hposition, hevents, hrecovers⟩ :=
    load_journaled h hload
  obtain ⟨-, hhead, -, honly⟩ := replayEvents_spec cd state.nextCursor hordered ⟨state, ∅, 0⟩
  refine ⟨es ++ lost, ?_⟩
  have hd := load_sound hload
  have hdisk : s.disk.Journaled cd s.outputBytes (es ++ lost) := by
    have hj : Disk.Journaled cd s.outputBytes
        { s.disk with journal := .durable s.disk.journal.bytes } (es ++ lost) :=
      .durable hlawful hbytes ⟨[], torn, rfl, htorn, by simp, by rwa [List.append_nil]⟩
    rw [← hdurable] at hj
    exact hj
  have hset := hdisk.setLen
  rw [← hposition] at hset
  unfold Sys.Journaled
  rw [hl]
  refine ⟨hwf, ?_⟩
  simp only [step, hnone, hload] at hstep
  cases hstep
  cases hl
  refine ⟨hset.1, hposition, fun hc => (by cases hc), ?_, ?_, fun e he => ?_, fun hk => ?_,
    by simp [Pc.written]⟩
  · simpa [Live.unwritten, Pc.unwritten] using hordered
  · simp [Live.unwritten, Pc.unwritten]
  · have hle := (hhead e he).trans hrecovers.nextCursor
    exact hle.trans hd.retires.nextCursor.ge
  · have hk' := hd.retires.sub hk
    rw [hevents] at hk'
    rcases honly hk' with hempty | ⟨hmem, -⟩
    · simp at hempty
    · exact hmem

/-- Every step that writes at the end keeps the journal. -/
theorem step_journaled {a : Act} (h : ∃ es, s.Journaled cd es) (hend : writesAtEnd a s = true)
    (hstep : step cd opts a s = some t) : ∃ es, t.Journaled cd es := by
  obtain ⟨es, h⟩ := h
  rcases act_cases a with ha | ⟨keep, old, rfl⟩ | ⟨now, journalId, instanceId, rfl⟩
  · obtain ⟨l, hl⟩ := live_of_step ha hstep
    unfold Sys.Journaled at h
    rw [hl] at h
    obtain ⟨l', es', hl', h', -⟩ := liveStep_journaled h.2 h.1 hl ha hend hstep
    obtain ⟨l₁, hl₁, hadv⟩ := step_run h.1 ha hl hstep
    obtain rfl : l' = l₁ := Option.some.inj (hl'.symm.trans hl₁)
    refine ⟨es', ?_⟩
    unfold Sys.Journaled
    rw [hl']
    exact ⟨hadv.wf, h'⟩
  · have hdisk := h.disk.crash keep old
    cases hstep
    exact ⟨es, hdisk, rfl⟩
  · cases hlive : s.live with
    | some l => simp [step, hlive] at hstep
    | none =>
        unfold Sys.Journaled at h
        rw [hlive] at h
        exact start_journaled h.1 hlive h.2 hstep

end VivadoServer.History
