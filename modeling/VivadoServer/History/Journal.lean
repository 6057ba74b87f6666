/-
  VivadoServer.History.Journal

  The journal file as a list of events.  While the writer only writes behind the
  intact part, the file is the lines of some events followed by a tail: the
  lines of a batch that was lost, as far as they got, and a torn piece without a
  line end (`Tail`).  Replay finds the events and as much of the lost batch as
  survived (`replay_encode`).
-/

import VivadoServer.History.Cursor

namespace VivadoServer.History

open Std (ExtTreeMap)

variable {cd : Codec} {opts : Options}

/-! ## Events that belong in a journal -/

/-- The number of output bytes a session has recorded. -/
def outputCount (outputBytes : ExtTreeMap Uuid Nat) (id : Uuid) : Nat := (outputBytes[id]?).getD 0

/-- What every numbered event satisfies once `enqueue` or start-up let it pass. -/
structure Event.Lawful (cd : Codec) (outputBytes : ExtTreeMap Uuid Nat) (e : Event) : Prop where
  seq : e.seq ≠ 0
  object : e.data.isObject = true
  size : (cd.line e).length ≤ eventLimit
  counted : ∀ {id : Uuid}, e.isOutput = true → e.sessionId = some id →
    e.offset + e.byteLength ≤ outputCount outputBytes id

/-- Numbered later, and later in the output of the same session. -/
def Precedes (a b : Event) : Prop :=
  a.seq < b.seq ∧ (a.isOutput = true → b.isOutput = true → a.sessionId = b.sessionId →
    a.offset + a.byteLength ≤ b.offset)

/-- Events in order are determined by their sequence. -/
theorem eq_of_seq_eq {es : List Event} (h : es.Pairwise Precedes) {a b : Event} (ha : a ∈ es)
    (hb : b ∈ es) (heq : a.seq = b.seq) : a = b := by
  have hsorted : (es.map Event.seq).Pairwise (· < ·) :=
    List.pairwise_map.mpr (h.imp fun hab => hab.1)
  exact List.inj_on_of_nodup_map (hsorted.imp fun hlt => hlt.ne) ha hb heq

/-! ## Lines -/

theorem encode_eq_text (cd : Codec) (es : List Event) :
    cd.encode es = Lines.text newline (es.map cd.toVec) := by
  rw [Lines.text, List.flatMap_map]
  rfl

@[simp] theorem encode_nil (cd : Codec) : cd.encode [] = [] := rfl

theorem encode_append (cd : Codec) (es es' : List Event) :
    cd.encode (es ++ es') = cd.encode es ++ cd.encode es' := List.flatMap_append

theorem encode_length_cons (cd : Codec) (e : Event) (es : List Event) :
    (cd.encode (e :: es)).length = (cd.line e).length + (cd.encode es).length := by
  simp [Codec.encode]

/-- The lines of a journal with a torn end. -/
theorem split_encode (cd : Codec) (es : List Event) {torn : Bytes} (htorn : newline ∉ torn) :
    Lines.split newline (cd.encode es ++ torn)
      = es.map cd.line ++ if torn = [] then [] else [torn] := by
  rw [encode_eq_text, Lines.split_lines, Lines.split_torn htorn, List.map_map]
  · rfl
  · intro l hl
    obtain ⟨e, -, rfl⟩ := List.mem_map.mp hl
    exact cd.newline_notMem e

/-! ## Tails -/

/-- What may stand behind the lines of `es`: lines of events that follow them,
    and a torn piece. -/
def Tail (cd : Codec) (outputBytes : ExtTreeMap Uuid Nat) (es : List Event) (bs : Bytes) : Prop :=
  ∃ lost torn, bs = cd.encode lost ++ torn ∧ newline ∉ torn ∧
    (∀ e ∈ lost, e.Lawful cd outputBytes) ∧ (es ++ lost).Pairwise Precedes

variable {outputBytes : ExtTreeMap Uuid Nat} {es : List Event}

theorem Tail.nil (h : es.Pairwise Precedes) : Tail cd outputBytes es [] :=
  ⟨[], [], rfl, by simp, by simp, by rwa [List.append_nil]⟩

theorem Tail.of_batch {batch : List Event} (hlawful : ∀ e ∈ batch, e.Lawful cd outputBytes)
    (h : (es ++ batch).Pairwise Precedes) : Tail cd outputBytes es (cd.encode batch) :=
  ⟨batch, [], by rw [List.append_nil], by simp, hlawful, h⟩

theorem Tail.ordered {bs : Bytes} (h : Tail cd outputBytes es bs) : es.Pairwise Precedes := by
  obtain ⟨lost, torn, -, -, -, hordered⟩ := h
  exact (List.pairwise_append.mp hordered).1

/-- A tail cut off is a tail. -/
theorem Tail.of_prefix {bs p : Bytes} (h : Tail cd outputBytes es bs) (hp : p <+: bs) :
    Tail cd outputBytes es p := by
  obtain ⟨lost, torn, rfl, htorn, hlawful, hordered⟩ := h
  rcases Nat.lt_or_ge p.length (cd.encode lost).length with hlt | hge
  · have hp' : p <+: cd.encode lost :=
      List.prefix_of_prefix_length_le hp (List.prefix_append _ _) hlt.le
    rw [encode_eq_text] at hp'
    have hlines : ∀ l ∈ lost.map cd.toVec, newline ∉ l := by
      intro l hl
      obtain ⟨e, -, rfl⟩ := List.mem_map.mp hl
      exact cd.newline_notMem e
    obtain ⟨k, t, rfl, ht⟩ := Lines.prefix_lines hlines hp'
    refine ⟨lost.take k, t, ?_, ht, fun e he => hlawful e (List.mem_of_mem_take he), ?_⟩
    · rw [encode_eq_text, List.map_take]
    · exact hordered.sublist ((List.Sublist.refl es).append (List.take_sublist k lost))
  · obtain ⟨t, ht⟩ := List.prefix_of_prefix_length_le (List.prefix_append _ _) hp hge
    refine ⟨lost, t, ht.symm, fun hmem => htorn ?_, hlawful, hordered⟩
    have hpre : t <+: torn := (List.prefix_append_right_inj _).mp (ht ▸ hp)
    exact hpre.subset hmem

/-- Fewer lines may stand before a tail. -/
theorem Tail.sublist {es' : List Event} {bs : Bytes} (h : Tail cd outputBytes es bs)
    (hsub : es'.Sublist es) : Tail cd outputBytes es' bs := by
  obtain ⟨lost, torn, hbs, htorn, hlawful, hordered⟩ := h
  exact ⟨lost, torn, hbs, htorn, hlawful, hordered.sublist (hsub.append (List.Sublist.refl lost))⟩

/-- Sessions only record more output. -/
def Counts (outputBytes outputBytes' : ExtTreeMap Uuid Nat) : Prop :=
  ∀ id, outputCount outputBytes id ≤ outputCount outputBytes' id

theorem Event.Lawful.mono {e : Event} {outputBytes' : ExtTreeMap Uuid Nat}
    (h : e.Lawful cd outputBytes) (hle : Counts outputBytes outputBytes') :
    e.Lawful cd outputBytes' where
  seq := h.seq
  object := h.object
  size := h.size
  counted hout hid := (h.counted hout hid).trans (hle _)

theorem Tail.mono {outputBytes' : ExtTreeMap Uuid Nat} {bs : Bytes}
    (h : Tail cd outputBytes es bs) (hle : Counts outputBytes outputBytes') :
    Tail cd outputBytes' es bs := by
  obtain ⟨lost, torn, hbs, htorn, hlawful, hordered⟩ := h
  exact ⟨lost, torn, hbs, htorn, fun e he => (hlawful e he).mono hle, hordered⟩

/-! ## Replaying them -/

/-- Take the lines of some events into the reader. -/
def replayEvents (cd : Codec) (persisted : Nat) (es : List Event) (r : Reader) : Reader :=
  es.foldl (fun r e => replayEvent persisted e (cd.line e).length r) r

@[simp] theorem replayEvents_nil (persisted : Nat) (r : Reader) :
    replayEvents cd persisted [] r = r := rfl

theorem replayEvents_cons (persisted : Nat) (e : Event) (es : List Event) (r : Reader) :
    replayEvents cd persisted (e :: es) r
      = replayEvents cd persisted es (replayEvent persisted e (cd.line e).length r) := rfl

/-- Replay takes every lawful line. -/
theorem replay_lines {persisted : Nat} (hlawful : ∀ e ∈ es, e.Lawful cd outputBytes)
    (rest : List Bytes) (position : Nat) (r : Reader) :
    replay cd persisted (es.map cd.line ++ rest) position r
      = replay cd persisted rest (position + (cd.encode es).length)
          (replayEvents cd persisted es r) := by
  induction es generalizing position r with
  | nil => rfl
  | cons e es ih =>
      have he := hlawful e List.mem_cons_self
      have hlast : (cd.line e).getLast? = some newline := List.getLast?_concat ..
      have hread : cd.fromSlice (cd.line e) = some e := cd.fromSlice_toVec e
      rw [List.map_cons, List.cons_append, replay, if_neg (by simp [hlast, he.size]), hread]
      dsimp only
      rw [if_neg (by simp [he.seq, he.object]),
        ih (fun e' he' => hlawful e' (List.mem_cons_of_mem _ he')), replayEvents_cons,
        encode_length_cons, Nat.add_assoc]

/-- Replay of a journal with a torn end. -/
theorem replay_encode {persisted : Nat} (hlawful : ∀ e ∈ es, e.Lawful cd outputBytes)
    {torn : Bytes} (htorn : newline ∉ torn) (r : Reader) :
    replay cd persisted (Lines.split newline (cd.encode es ++ torn)) 0 r
      = .ok (if torn = [] then replayEvents cd persisted es r
          else { replayEvents cd persisted es r with
            state := { (replayEvents cd persisted es r).state with recordingState := "partial" } },
        (cd.encode es).length, decide (torn ≠ [])) := by
  rw [split_encode cd es htorn, replay_lines hlawful, Nat.zero_add]
  by_cases hnil : torn = []
  · simp [hnil, replay]
  · have hlast : torn.getLast? ≠ some newline := fun h => htorn (List.mem_of_getLast? h)
    simp [hnil, replay, hlast]

/-- Replaying events does not touch the entries of other sequences. -/
theorem replayEvents_getElem?_of_ne {persisted k : Nat} (h : ∀ e ∈ es, e.seq ≠ k) (r : Reader) :
    (replayEvents cd persisted es r).events[k]? = r.events[k]? := by
  induction es generalizing r with
  | nil => rfl
  | cons e es ih =>
      rw [replayEvents_cons, ih fun e' he' => h e' (List.mem_cons_of_mem _ he'), replayEvent_events]
      split
      · rfl
      · exact OrderedMap.getElem?_insert_of_ne (h e List.mem_cons_self)

/-- What a reader holds after replaying events in order. -/
theorem replayEvents_spec (cd : Codec) (persisted : Nat) (hordered : es.Pairwise Precedes) (r : Reader) :
    r.Replays (replayEvents cd persisted es r) ∧
      (∀ e ∈ es, e.seq ≤ (replayEvents cd persisted es r).state.nextCursor) ∧
      (∀ e ∈ es, retired r.state e = false →
        (replayEvents cd persisted es r).events[e.seq]? = some (e, (cd.line e).length)) ∧
      ∀ {k : Nat} {v : Event × Nat}, (replayEvents cd persisted es r).events[k]? = some v →
        r.events[k]? = some v ∨ v.1 ∈ es ∧ v.1.seq = k ∧ retired r.state v.1 = false := by
  induction es generalizing r with
  | nil => exact ⟨.refl r, by simp, by simp, fun hk => .inl hk⟩
  | cons e es ih =>
      obtain ⟨hfirst, hrest⟩ := List.pairwise_cons.mp hordered
      have hone := replayEvent_replays persisted e (cd.line e).length r
      obtain ⟨hreplays, hhead, hkeeps, honly⟩ :=
        ih hrest (replayEvent persisted e (cd.line e).length r)
      rw [replayEvents_cons]
      refine ⟨hone.trans hreplays, fun e' he' => ?_, fun e' he' hkept => ?_, fun {k v} hk => ?_⟩
      · rcases List.mem_cons.mp he' with rfl | he'
        · refine le_trans ?_ hreplays.nextCursor
          rw [replayEvent_nextCursor]
          exact le_max_right _ _
        · exact hhead e' he'
      · rcases List.mem_cons.mp he' with rfl | he'
        · rw [replayEvents_getElem?_of_ne fun e₂ he₂ => (hfirst e₂ he₂).1.ne', replayEvent_events,
            hkept]
          exact OrderedMap.getElem?_insert_self'
        · exact hkeeps e' he' (by rw [hone.retired]; exact hkept)
      · rcases honly hk with h | ⟨hmem, hseq, hkept⟩
        · rw [replayEvent_events] at h
          split at h
          · exact .inl h
          · rename_i hnot
            by_cases heq : e.seq = k
            · subst heq
              rw [OrderedMap.getElem?_insert_self', Option.some.injEq] at h
              subst h
              exact .inr ⟨List.mem_cons_self, rfl, by simpa using hnot⟩
            · rw [OrderedMap.getElem?_insert_of_ne heq] at h
              exact .inl h
        · rw [hone.retired] at hkept
          exact .inr ⟨List.mem_cons_of_mem _ hmem, hseq, hkept⟩

/-! ## The journal file -/

/-- The journal holds the lines of `es`, all of them synced, and a tail; what a
    rollback cut off would stand right behind the lines. -/
structure Disk.Journaled (cd : Codec) (outputBytes : ExtTreeMap Uuid Nat) (disk : Disk)
    (es : List Event) : Prop where
  bytes : ∃ tail, disk.journal.bytes = cd.encode es ++ tail ∧ Tail cd outputBytes es tail
  residue : Tail cd outputBytes es disk.journal.residue
  synced : (cd.encode es).length ≤ disk.journal.synced
  rolled : disk.journal.residue = [] ∨ disk.journal.synced = (cd.encode es).length
  lawful : ∀ e ∈ es, e.Lawful cd outputBytes

namespace Disk.Journaled

variable {disk : Disk}

theorem ordered (h : disk.Journaled cd outputBytes es) : es.Pairwise Precedes := h.residue.ordered

theorem mono (h : disk.Journaled cd outputBytes es) {outputBytes' : ExtTreeMap Uuid Nat}
    (hle : Counts outputBytes outputBytes') : disk.Journaled cd outputBytes' es := by
  obtain ⟨tail, hbytes, htail⟩ := h.bytes
  exact ⟨⟨tail, hbytes, htail.mono hle⟩, h.residue.mono hle, h.synced, h.rolled,
    fun e he => (h.lawful e he).mono hle⟩

/-- A file whose whole content is durable. -/
theorem durable (hlawful : ∀ e ∈ es, e.Lawful cd outputBytes) {bs tail : Bytes}
    (hbytes : bs = cd.encode es ++ tail) (htail : Tail cd outputBytes es tail) :
    Disk.Journaled cd outputBytes { disk with journal := .durable bs } es where
  bytes := ⟨tail, hbytes, htail⟩
  residue := .nil htail.ordered
  synced := by
    rw [hbytes]
    simp [File.durable]
  rolled := .inl rfl
  lawful := hlawful

/-- A crash keeps the lines, and leaves some tail behind them. -/
theorem crash (h : disk.Journaled cd outputBytes es) (keep : Nat) (old : Bool) :
    Disk.Journaled cd outputBytes { disk with journal := disk.journal.crash keep old } es := by
  obtain ⟨tail, hbytes, htail⟩ := h.bytes
  have hcut : ∀ n, (cd.encode es).length ≤ n →
      disk.journal.bytes.take n = cd.encode es ++ tail.take (n - (cd.encode es).length) := by
    intro n hn
    rw [hbytes, List.take_append, List.take_of_length_le hn]
  cases old with
  | false =>
      exact durable h.lawful (hcut _ (h.synced.trans (Nat.le_add_right _ _)))
        (htail.of_prefix (List.take_prefix _ _))
  | true =>
      rcases h.rolled with hnone | hexact
      · refine durable h.lawful ?_
          (htail.of_prefix (List.take_prefix (disk.journal.synced - (cd.encode es).length) _))
        rw [if_pos rfl, hnone, List.take_nil, List.append_nil]
        exact hcut _ h.synced
      · refine durable h.lawful ?_ (h.residue.of_prefix (List.take_prefix keep _))
        rw [if_pos rfl, hcut _ h.synced, hexact, Nat.sub_self, List.take_zero, List.append_nil]

/-- Writing behind the lines, with nothing there yet, makes a tail. -/
theorem writeAt (h : disk.Journaled cd outputBytes es) {data : Bytes}
    (hlength : disk.journal.bytes.length = (cd.encode es).length)
    (htail : Tail cd outputBytes es data) :
    Disk.Journaled cd outputBytes
        { disk with journal := disk.journal.writeAt (cd.encode es).length data } es ∧
      (disk.journal.writeAt (cd.encode es).length data).bytes = cd.encode es ++ data := by
  obtain ⟨tail, hbytes, -⟩ := h.bytes
  have hnil : tail = [] := by
    rw [hbytes, List.length_append] at hlength
    exact List.length_eq_zero_iff.mp (by omega)
  rw [hnil, List.append_nil] at hbytes
  have hwritten : (disk.journal.writeAt (cd.encode es).length data).bytes = cd.encode es ++ data := by
    unfold File.writeAt
    dsimp only
    rw [hbytes, List.take_length, Nat.sub_self, List.replicate_zero, List.append_nil,
      List.drop_eq_nil_of_le (Nat.le_add_right _ _), List.append_nil]
  have hsynced : (disk.journal.writeAt (cd.encode es).length data).synced = (cd.encode es).length :=
    min_eq_right h.synced
  exact ⟨⟨⟨data, hwritten, htail⟩, h.residue, hsynced.ge, .inr hsynced, h.lawful⟩, hwritten⟩

/-- Rolling back to the end of the lines. -/
theorem setLen (h : disk.Journaled cd outputBytes es) :
    Disk.Journaled cd outputBytes
        { disk with journal := disk.journal.setLen (cd.encode es).length } es ∧
      (disk.journal.setLen (cd.encode es).length).bytes = cd.encode es := by
  obtain ⟨tail, hbytes, htail⟩ := h.bytes
  have hwritten : (disk.journal.setLen (cd.encode es).length).bytes = cd.encode es := by
    simp [File.setLen, hbytes]
  have hsynced : (disk.journal.setLen (cd.encode es).length).synced = (cd.encode es).length :=
    min_eq_right h.synced
  refine ⟨⟨⟨[], by rw [hwritten, List.append_nil], .nil h.ordered⟩, ?_, hsynced.ge, .inr hsynced,
    h.lawful⟩, hwritten⟩
  change Tail cd outputBytes es (if _ then _ else _)
  split
  · rw [hbytes, List.drop_left]
    exact htail
  · exact h.residue

/-- Syncing whatever is there. -/
theorem sync (h : disk.Journaled cd outputBytes es) :
    Disk.Journaled cd outputBytes { disk with journal := disk.journal.sync } es := by
  obtain ⟨tail, hbytes, htail⟩ := h.bytes
  exact durable h.lawful hbytes htail

end Disk.Journaled

end VivadoServer.History
