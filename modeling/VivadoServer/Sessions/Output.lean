/-
  VivadoServer.Sessions.Output

  The bounded output ring of a session (`OutputBuffer` in
  `src/session/output.rs`) and the polling loop of `read_output`.

  The ring loses text in three ways: chunks leave at the front for the byte
  limit, they leave for the chunk limit, and one text longer than the whole
  ring keeps its tail only.  After the texts `pushed`, the ring holds the newest
  of them, each as `kept` leaves it, and remembers the last one that was cut
  (`Holds`).  That is enough to say for every cursor whether its reader missed
  something.
-/

import VivadoServer.Sessions.Model

namespace VivadoServer.Sessions

/-! ## The ring -/

/-- `text.is_char_boundary(index)`. -/
def isCharBoundary : Text → Nat → Bool
  | _, 0 => true
  | [], _ + 1 => false
  | c :: cs, n + 1 => decide (c.utf8Size ≤ n + 1) && isCharBoundary cs (n + 1 - c.utf8Size)

/-- `&text[start..]` for a `start` that is a character boundary. -/
def sliceFrom : Text → Nat → Text
  | text, 0 => text
  | [], _ + 1 => []
  | c :: cs, n + 1 => sliceFrom cs (n + 1 - c.utf8Size)

/-- `while !text.is_char_boundary(start) { start += 1 }`, for `fuel` rounds. -/
def nextBoundary (text : Text) : Nat → Nat → Nat
  | 0, start => start
  | fuel + 1, start =>
    if isCharBoundary text start then start else nextBoundary text fuel (start + 1)

structure OutputBuffer where
  chunks : List OutputChunk
  bytes : Nat
  maxBytes : Nat
  nextSeq : Nat
  truncatedSeq : Option Nat
deriving DecidableEq, Repr

namespace OutputBuffer

def maxChunks : Nat := 4096

def new (maxBytes : Nat) : OutputBuffer where
  chunks := []
  bytes := 0
  maxBytes := maxBytes
  nextSeq := 0
  truncatedSeq := none

/-- The eviction loop of `push`; the third component counts evicted chunks. -/
def evict (maxBytes : Nat) : List OutputChunk → Nat → Nat → List OutputChunk × Nat × Nat
  | [], bytes, evicted => ([], if maxBytes < bytes then 0 else bytes, evicted)
  | front :: rest, bytes, evicted =>
    if maxBytes < bytes ∨ maxChunks < (front :: rest).length then
      evict maxBytes rest (bytes - byteLength front.text) (evicted + 1)
    else (front :: rest, bytes, evicted)

/-- The new ring, and what `push` returns: the sequence number, the retained
    bytes and the number of texts that lost something. -/
def push (b : OutputBuffer) (now : Instant) (text : Text) : OutputBuffer × Nat × Nat × Nat :=
  let chunkTruncated := decide (b.maxBytes < byteLength text)
  let text :=
    if chunkTruncated then
      sliceFrom text (nextBoundary text b.maxBytes (byteLength text - b.maxBytes))
    else text
  let seq := b.nextSeq
  let (chunks, bytes, evicted) :=
    evict b.maxBytes (b.chunks ++ [{ seq, timestamp := now, text }])
      (b.bytes + byteLength text) (if chunkTruncated then 1 else 0)
  ({ b with
      chunks := chunks
      bytes := bytes
      nextSeq := seq + 1
      truncatedSeq := if chunkTruncated then some seq else b.truncatedSeq },
    seq, bytes, evicted)

def since (b : OutputBuffer) (cursor : Nat) (status : SessionStatus) : OutputResponse :=
  let firstSeq := (b.chunks.head?.map (·.seq)).getD b.nextSeq
  { cursor := b.nextSeq
    chunks := b.chunks.filter fun chunk => decide (cursor ≤ chunk.seq)
    status := status
    overrun := decide (cursor < firstSeq) || b.truncatedSeq.any fun seq => decide (cursor ≤ seq)
    outputTruncated := false }

end OutputBuffer

/-- One round of `read_output`: what it answers, or `none` while it goes on
    waiting for the session to change. -/
def readOutput (b : OutputBuffer) (info : SessionInfo) (cursor : Nat) (expired : Bool) :
    Option OutputResponse :=
  let response := { b.since cursor info.status with outputTruncated := info.outputTruncated }
  if !response.chunks.isEmpty || response.status.isTerminal || expired then some response
  else none

/-! ## A polling client -/

/-- The ring of a session and one client that polls it from the cursor it was
    given last. -/
structure Client where
  buffer : OutputBuffer
  cursor : Nat
  responses : List OutputResponse
deriving DecidableEq, Repr

inductive ClientAction where
  | push (now : Instant) (text : Text)
  -- one round of the client's `read_output` call
  | poll (info : SessionInfo) (expired : Bool)
deriving DecidableEq, Repr

def ClientAction.text? : ClientAction → Option Text
  | .push _ text => some text
  | .poll _ _ => none

def Client.step (k : Client) : ClientAction → Client
  | .push now text => { k with buffer := (k.buffer.push now text).1 }
  | .poll info expired =>
    match readOutput k.buffer info k.cursor expired with
    | none => k
    | some response =>
      { k with cursor := response.cursor, responses := k.responses ++ [response] }

def Client.run (actions : List ClientAction) (k : Client) : Client :=
  actions.foldl Client.step k

/-- A client that starts at `cursor`, once the texts `before` are in the ring. -/
def Client.start (maxBytes : Nat) (before : List (Instant × Text)) (cursor : Nat) : Client where
  buffer := before.foldl (fun b p => (b.push p.1 p.2).1) (OutputBuffer.new maxBytes)
  cursor := cursor
  responses := []

/-- Everything the client was sent. -/
def Client.received (k : Client) : Text := (k.responses.map fun r => joined r.chunks).flatten

/-- The texts with sequence numbers from `first` up to `last`, in one piece. -/
def stream (pushed : List Text) (first last : Nat) : Text :=
  ((pushed.take last).drop first).flatten

/-- The cursor a client holds after some responses. -/
def cursorAfter (first : Nat) (responses : List OutputResponse) : Nat :=
  (responses.getLast?.map (·.cursor)).getD first

/-! ## Cutting a text at a character boundary -/

theorem isCharBoundary_byteLength (text : Text) :
    isCharBoundary text (byteLength text) = true := by
  induction text with
  | nil => rfl
  | cons c cs ih =>
      have hpos : 0 < c.utf8Size := Char.utf8Size_pos c
      obtain ⟨n, hn⟩ : ∃ n, byteLength (c :: cs) = n + 1 :=
        ⟨byteLength (c :: cs) - 1, by rw [byteLength_cons]; omega⟩
      rw [hn, isCharBoundary]
      rw [byteLength_cons] at hn
      have hrest : n + 1 - c.utf8Size = byteLength cs := by omega
      rw [hrest, ih, Bool.and_true, decide_eq_true_eq]
      omega

/-- The loop ends at a boundary inside the text: there is one at its end. -/
theorem nextBoundary_spec (text : Text) {fuel start : Nat}
    (h : start + fuel = byteLength text) :
    isCharBoundary text (nextBoundary text fuel start) = true ∧
      start ≤ nextBoundary text fuel start ∧ nextBoundary text fuel start ≤ byteLength text := by
  induction fuel generalizing start with
  | zero =>
      have hend : start = byteLength text := by omega
      subst hend
      exact ⟨isCharBoundary_byteLength text, le_rfl, le_rfl⟩
  | succ fuel ih =>
      rw [nextBoundary]
      split
      · rename_i hboundary
        exact ⟨hboundary, le_rfl, by omega⟩
      · obtain ⟨hboundary, hstart, hend⟩ := @ih (start + 1) (by omega)
        exact ⟨hboundary, by omega, hend⟩

theorem byteLength_sliceFrom {text : Text} {start : Nat}
    (h : isCharBoundary text start = true) :
    byteLength (sliceFrom text start) = byteLength text - start := by
  induction text generalizing start with
  | nil => cases start <;> simp [sliceFrom]
  | cons c cs ih =>
      cases start with
      | zero => rfl
      | succ n =>
          rw [isCharBoundary, Bool.and_eq_true, decide_eq_true_eq] at h
          rw [sliceFrom, ih h.2, byteLength_cons]
          omega

theorem sliceFrom_suffix (text : Text) (start : Nat) : sliceFrom text start <:+ text := by
  induction text generalizing start with
  | nil => cases start <;> exact List.suffix_rfl
  | cons c cs ih =>
      cases start with
      | zero => exact List.suffix_rfl
      | succ n => exact (ih _).trans (List.suffix_cons c cs)

/-- What a ring of `maxBytes` bytes stores of a text: all of it, or the longest
    tail that fits and starts at a character. -/
def kept (maxBytes : Nat) (text : Text) : Text :=
  if maxBytes < byteLength text then
    sliceFrom text (nextBoundary text maxBytes (byteLength text - maxBytes))
  else text

variable {m : Nat} {t : Text} {ts : List Text}

theorem kept_eq_self (h : byteLength t ≤ m) : kept m t = t := if_neg (by omega)

theorem byteLength_kept_le (m : Nat) (t : Text) : byteLength (kept m t) ≤ m := by
  unfold kept
  split
  · rename_i hlong
    have hsum : byteLength t - m + m = byteLength t := by omega
    obtain ⟨hboundary, hstart, -⟩ := nextBoundary_spec t hsum
    rw [byteLength_sliceFrom hboundary]
    omega
  · omega

theorem length_kept_le (m : Nat) (t : Text) : (kept m t).length ≤ t.length := by
  unfold kept
  split
  · exact (sliceFrom_suffix _ _).length_le
  · exact le_rfl

/-- A text too long for the ring loses at least one character. -/
theorem length_kept_lt (h : m < byteLength t) : (kept m t).length < t.length := by
  apply lt_of_le_of_ne (length_kept_le m t)
  intro hlength
  have hsuffix : kept m t <:+ t := by
    rw [kept, if_pos h]
    exact sliceFrom_suffix _ _
  have hle := byteLength_kept_le m t
  rw [hsuffix.eq_of_length hlength] at hle
  omega

/-- What is left of a list of texts once each is cut to fit. -/
theorem length_flatten_kept_le (m : Nat) (ts : List Text) :
    (ts.map (kept m)).flatten.length ≤ ts.flatten.length := by
  induction ts with
  | nil => exact le_rfl
  | cons t ts ih =>
      simp only [List.map_cons, List.flatten_cons, List.length_append]
      exact Nat.add_le_add (length_kept_le m t) ih

theorem length_flatten_kept_lt (ht : t ∈ ts) (hlong : m < byteLength t) :
    (ts.map (kept m)).flatten.length < ts.flatten.length := by
  induction ts with
  | nil => cases ht
  | cons u ts ih =>
      simp only [List.map_cons, List.flatten_cons, List.length_append]
      have hrest := length_flatten_kept_le m ts
      rcases List.mem_cons.mp ht with heq | ht
      · subst heq
        have hcut := length_kept_lt hlong
        omega
      · have hu := length_kept_le m u
        have hlt := ih ht
        omega

theorem flatten_kept_eq (h : ∀ t ∈ ts, byteLength t ≤ m) : ts.map (kept m) = ts := by
  conv_rhs => rw [← List.map_id ts]
  apply List.map_congr_left
  intro t ht
  exact kept_eq_self (h t ht)

/-! ## What the ring holds -/

/-- The bytes of some chunks. -/
def totalBytes (chunks : List OutputChunk) : Nat :=
  (chunks.map fun chunk => byteLength chunk.text).sum

/-- `record` lists a chunk for every text pushed, evicted or not. -/
structure Recorded (m : Nat) (pushed : List Text) (record : List OutputChunk) : Prop where
  seqs : record.map (·.seq) = List.range pushed.length
  texts : record.map (·.text) = pushed.map (kept m)

/-- The ring `b` after the texts `pushed`. -/
structure Holds (m : Nat) (pushed : List Text) (b : OutputBuffer) : Prop where
  limit : b.maxBytes = m
  next : b.nextSeq = pushed.length
  stored : ∃ record, Recorded m pushed record ∧ b.chunks <:+ record
  bytes : b.bytes = totalBytes b.chunks
  bytes_le : b.bytes ≤ m
  length_le : b.chunks.length ≤ OutputBuffer.maxChunks
  -- the sequence number remembered is that of a text that was cut, and no later one was
  cut : ∀ seq, b.truncatedSeq = some seq → ∃ t, pushed[seq]? = some t ∧ m < byteLength t
  lastCut : ∀ seq t, pushed[seq]? = some t → m < byteLength t →
    ∃ last, b.truncatedSeq = some last ∧ seq ≤ last

variable {pushed : List Text} {record : List OutputChunk} {b : OutputBuffer} {c : Nat}

theorem Recorded.length (h : Recorded m pushed record) : record.length = pushed.length := by
  rw [← List.length_map (fun chunk : OutputChunk => chunk.seq), h.seqs, List.length_range]

theorem holds_new (m : Nat) : Holds m [] (OutputBuffer.new m) where
  limit := rfl
  next := rfl
  stored := ⟨[], ⟨rfl, rfl⟩, List.suffix_rfl⟩
  bytes := rfl
  bytes_le := Nat.zero_le m
  length_le := Nat.zero_le _
  cut := by
      intro seq hseq
      cases hseq
  lastCut := by
      intro seq t hseq
      simp at hseq

namespace OutputBuffer

/-- The loop keeps a suffix, and stops with both limits met. -/
theorem evict_spec {chunks : List OutputChunk} {bytes : Nat} (evicted : Nat)
    (h : bytes = totalBytes chunks) :
    (evict m chunks bytes evicted).1 <:+ chunks ∧
      (evict m chunks bytes evicted).2.1 = totalBytes (evict m chunks bytes evicted).1 ∧
      (evict m chunks bytes evicted).2.1 ≤ m ∧
      (evict m chunks bytes evicted).1.length ≤ maxChunks := by
  induction chunks generalizing bytes evicted with
  | nil =>
      have hzero : bytes = 0 := h
      subst hzero
      simp [evict, totalBytes]
  | cons front rest ih =>
      have hrest : bytes - byteLength front.text = totalBytes rest := by
        rw [h, totalBytes, List.map_cons, List.sum_cons, Nat.add_sub_cancel_left, totalBytes]
      rw [evict]
      split
      · obtain ⟨hsuffix, hlimits⟩ := ih (evicted + 1) hrest
        exact ⟨hsuffix.trans (List.suffix_cons front rest), hlimits⟩
      · rename_i hfits
        rw [not_or, not_lt, not_lt] at hfits
        exact ⟨List.suffix_rfl, h, hfits.1, hfits.2⟩

theorem push_text (b : OutputBuffer) (t : Text) :
    (if decide (b.maxBytes < byteLength t) then
      sliceFrom t (nextBoundary t b.maxBytes (byteLength t - b.maxBytes)) else t)
      = kept b.maxBytes t := by
  simp only [decide_eq_true_eq, kept]

theorem push_truncatedSeq (b : OutputBuffer) (now : Instant) (t : Text) :
    (b.push now t).1.truncatedSeq
      = if b.maxBytes < byteLength t then some b.nextSeq else b.truncatedSeq := by
  simp only [push, decide_eq_true_eq]

/-- What a push stores, before anything is evicted. -/
theorem push_evict (b : OutputBuffer) (now : Instant) (t : Text) : ∃ evicted,
    ((b.push now t).1.chunks, (b.push now t).1.bytes)
      = ((evict b.maxBytes (b.chunks ++ [⟨b.nextSeq, now, kept b.maxBytes t⟩])
          (b.bytes + byteLength (kept b.maxBytes t)) evicted).1,
        (evict b.maxBytes (b.chunks ++ [⟨b.nextSeq, now, kept b.maxBytes t⟩])
          (b.bytes + byteLength (kept b.maxBytes t)) evicted).2.1) :=
  ⟨if decide (b.maxBytes < byteLength t) then 1 else 0, by simp only [push, push_text]⟩

end OutputBuffer

/-- One push keeps the ring's account: nothing but the front is evicted. -/
theorem Holds.push (h : Holds m pushed b) (now : Instant) (t : Text) :
    Holds m (pushed ++ [t]) (b.push now t).1 := by
  obtain ⟨record, hrecord, hsuffix⟩ := h.stored
  have hlimit := h.limit
  subst hlimit
  set chunk : OutputChunk := { seq := b.nextSeq, timestamp := now, text := kept b.maxBytes t }
  have hbytes : b.bytes + byteLength (kept b.maxBytes t) = totalBytes (b.chunks ++ [chunk]) := by
    rw [h.bytes, totalBytes, totalBytes, List.map_append, List.sum_append]
    rfl
  obtain ⟨evicted, hpush⟩ := OutputBuffer.push_evict b now t
  obtain ⟨hchunks', hbytes'⟩ := Prod.mk.inj hpush
  obtain ⟨hkeep, hsum, hmax, hcount⟩ := OutputBuffer.evict_spec (m := b.maxBytes) evicted hbytes
  have hrecord' : Recorded b.maxBytes (pushed ++ [t]) (record ++ [chunk]) := by
    constructor
    · rw [List.map_append, hrecord.seqs, List.length_append, List.length_singleton,
        List.range_succ]
      show _ ++ [b.nextSeq] = _
      rw [h.next]
    · rw [List.map_append, hrecord.texts, List.map_append]
      rfl
  have hstored : b.chunks ++ [chunk] <:+ record ++ [chunk] := by
    obtain ⟨front, hfront⟩ := hsuffix
    exact ⟨front, by rw [← hfront, List.append_assoc]⟩
  constructor
  · rfl
  · show b.nextSeq + 1 = _
    rw [h.next, List.length_append, List.length_singleton]
  · rw [hchunks']
    exact ⟨_, hrecord', hkeep.trans hstored⟩
  · rw [hchunks', hbytes']
    exact hsum
  · rw [hbytes']
    exact hmax
  · rw [hchunks']
    exact hcount
  · intro seq hseq
    rw [OutputBuffer.push_truncatedSeq] at hseq
    split at hseq
    · rename_i hlong
      rw [Option.some.injEq] at hseq
      refine ⟨t, ?_, hlong⟩
      rw [← hseq, h.next, List.getElem?_concat_length]
    · obtain ⟨u, hu, hcut⟩ := h.cut seq hseq
      exact ⟨u, by rw [List.getElem?_append_left (List.getElem?_eq_some_iff.mp hu).1, hu], hcut⟩
  · intro seq u hu hcut
    rw [OutputBuffer.push_truncatedSeq]
    have hlt := (List.getElem?_eq_some_iff.mp hu).1
    rw [List.length_append, List.length_singleton] at hlt
    split
    · exact ⟨b.nextSeq, rfl, by rw [h.next]; omega⟩
    · rename_i hshort
      by_cases hlast : seq = pushed.length
      · subst hlast
        rw [List.getElem?_concat_length, Option.some.injEq] at hu
        exact absurd (hu ▸ hcut) hshort
      · rw [List.getElem?_append_left (by omega)] at hu
        exact h.lastCut seq u hu hcut

/-! ## What a reader gets -/

/-- Chunks with consecutive numbers: selecting from a cursor on drops the front. -/
theorem filter_seq {chunks : List OutputChunk} {first : Nat}
    (h : chunks.map (·.seq) = List.range' first chunks.length) (c : Nat) :
    chunks.filter (fun chunk => decide (c ≤ chunk.seq)) = chunks.drop (c - first) := by
  induction chunks generalizing first with
  | nil => rw [List.filter_nil, List.drop_nil]
  | cons front rest ih =>
      rw [List.map_cons, List.length_cons, List.range'_succ, List.cons.injEq] at h
      obtain ⟨hfront, hrest⟩ := h
      rw [List.filter_cons, hfront, ih hrest]
      by_cases hc : c ≤ first
      · have hzero : c - first = 0 := by omega
        have hzero' : c - (first + 1) = 0 := by omega
        simp only [hc, hzero, hzero', decide_true, if_true, List.drop_zero]
      · obtain ⟨n, hn⟩ : ∃ n, c - first = n + 1 := ⟨c - first - 1, by omega⟩
        have hn' : c - (first + 1) = n := by omega
        simp only [hc, hn, hn', decide_false, Bool.false_eq_true, if_false, List.drop_succ_cons]

/-- The ring is the texts from `first` on, each as it was kept. -/
theorem Holds.chunks (h : Holds m pushed b) : ∃ first, first ≤ pushed.length ∧
    b.chunks.length = pushed.length - first ∧
    b.chunks.map (·.seq) = List.range' first b.chunks.length ∧
    b.chunks.map (·.text) = (pushed.drop first).map (kept m) := by
  obtain ⟨record, hrecord, front, hfront⟩ := h.stored
  have hlength := hrecord.length
  have hdrop : b.chunks = record.drop front.length := by rw [← hfront, List.drop_left]
  have hsum : front.length + b.chunks.length = pushed.length := by
    rw [← hlength, ← hfront, List.length_append]
  refine ⟨front.length, by omega, by omega, ?_, ?_⟩
  · rw [hdrop, List.map_drop, hrecord.seqs, List.range_eq_range', List.drop_range',
      List.length_drop, hlength]
    simp
  · rw [hdrop, List.map_drop, hrecord.texts, List.map_drop]

/-- What `since` answers, in terms of the texts pushed. -/
theorem Holds.since (h : Holds m pushed b) (c : Nat) (status : SessionStatus) :
    ∃ first, first ≤ pushed.length ∧
      (b.since c status).cursor = pushed.length ∧
      (b.since c status).chunks.map (·.seq)
        = List.range' (max c first) (pushed.length - max c first) ∧
      joined (b.since c status).chunks = ((pushed.drop (max c first)).map (kept m)).flatten ∧
      ((b.since c status).overrun = false ↔
        first ≤ c ∧ ∀ seq t, c ≤ seq → pushed[seq]? = some t → byteLength t ≤ m) := by
  obtain ⟨first, hfirst, hlength, hseqs, htexts⟩ := h.chunks
  have hmax : first + (c - first) = max c first := by omega
  have hhead : (b.chunks.head?.map (·.seq)).getD b.nextSeq = first := by
    rw [← List.head?_map, hseqs, hlength, h.next]
    by_cases hempty : pushed.length - first = 0
    · rw [hempty]
      show pushed.length = first
      omega
    · obtain ⟨n, hn⟩ := Nat.exists_eq_succ_of_ne_zero hempty
      rw [hn]
      rfl
  have hchunks : (b.since c status).chunks = b.chunks.drop (c - first) := filter_seq hseqs c
  refine ⟨first, hfirst, h.next, ?_, ?_, ?_⟩
  · rw [hchunks, List.map_drop, hseqs, hlength, List.drop_range', Nat.mul_one, hmax]
    congr 1
    omega
  · rw [hchunks, joined, List.map_drop, htexts, ← List.map_drop, List.drop_drop, hmax]
  · show (decide (c < (b.chunks.head?.map (·.seq)).getD b.nextSeq)
        || b.truncatedSeq.any fun seq => decide (c ≤ seq)) = false ↔ _
    rw [hhead, Bool.or_eq_false_iff, decide_eq_false_iff_not, not_lt]
    refine and_congr_right fun _ => ⟨?_, ?_⟩
    · intro hany seq t hc ht
      by_contra hlong
      obtain ⟨last, hlast, hle⟩ := h.lastCut seq t ht (by omega)
      rw [hlast, Option.any_some, decide_eq_false_iff_not] at hany
      omega
    · intro hfit
      cases hcut : b.truncatedSeq with
      | none => rfl
      | some last =>
          obtain ⟨t, ht, hlong⟩ := h.cut last hcut
          rw [Option.any_some, decide_eq_false_iff_not]
          intro hle
          have := hfit last t hle ht
          omega

/-- Nothing is received that was not pushed behind the cursor, and all of it is
    received exactly when the ring says so. -/
theorem Holds.since_exact (h : Holds m pushed b) (hne : ∀ t ∈ pushed, t ≠ [])
    (status : SessionStatus) (hc : c ≤ pushed.length) :
    (joined (b.since c status).chunks).length ≤ (pushed.drop c).flatten.length ∧
      ((b.since c status).overrun = false ↔
        joined (b.since c status).chunks = (pushed.drop c).flatten) := by
  obtain ⟨first, hfirst, -, -, hjoined, hoverrun⟩ := h.since c status
  rw [hjoined, hoverrun]
  have hkept := length_flatten_kept_le m (pushed.drop (max c first))
  have hsub : (pushed.drop (max c first)).flatten.length ≤ (pushed.drop c).flatten.length := by
    have hdrop : pushed.drop (max c first) = (pushed.drop c).drop (max c first - c) := by
      rw [List.drop_drop]
      congr 1
      omega
    rw [hdrop]
    exact ((List.drop_sublist _ _).flatten).length_le
  refine ⟨by omega, ?_, ?_⟩
  · rintro ⟨hle, hfit⟩
    rw [max_eq_left hle, flatten_kept_eq]
    intro t ht
    obtain ⟨i, hi⟩ := List.mem_iff_getElem?.mp ht
    rw [List.getElem?_drop] at hi
    exact hfit (c + i) t (by omega) hi
  · intro heq
    have hlength := congrArg List.length heq
    have hle : first ≤ c := by
      by_contra hgt
      -- the text at the cursor was evicted, and it is not empty
      have hlt : c < pushed.length := by omega
      have hsplit := List.drop_eq_getElem_cons hlt
      have hpos := List.length_pos_iff.mpr (hne _ (List.getElem_mem hlt))
      have hrest : pushed.drop (max c first)
          = (pushed.drop (c + 1)).drop (max c first - (c + 1)) := by
        rw [List.drop_drop]
        congr 1
        omega
      have hshort : (pushed.drop (max c first)).flatten.length
          ≤ (pushed.drop (c + 1)).flatten.length := by
        rw [hrest]
        exact ((List.drop_sublist _ _).flatten).length_le
      rw [hsplit, List.flatten_cons, List.length_append] at hlength
      omega
    refine ⟨hle, ?_⟩
    intro seq t hseq ht
    by_contra hlong
    -- a text behind the cursor was cut
    have hmem : t ∈ pushed.drop c := by
      apply List.mem_iff_getElem?.mpr
      exact ⟨seq - c, by rw [List.getElem?_drop, ← ht]; congr 1; omega⟩
    have hcut := length_flatten_kept_lt (m := m) hmem (by omega)
    rw [max_eq_left hle] at hlength
    omega

/-! ## The stream a client reconstructs -/

theorem stream_append {x : Nat} {y : Nat} {z : Nat} (hxy : x ≤ y) (hyz : y ≤ z)
    (hz : z ≤ pushed.length) : stream pushed x y ++ stream pushed y z = stream pushed x z := by
  have hsplit : (pushed.take z).drop x
      = (pushed.take y).drop x ++ (pushed.take z).drop y := by
    have htake : pushed.take z = pushed.take y ++ (pushed.take z).drop y := by
      conv_lhs => rw [← List.take_append_drop y (pushed.take z), List.take_take,
        min_eq_left hyz]
    conv_lhs => rw [htake]
    rw [List.drop_append_of_le_length]
    rw [List.length_take]
    omega
  rw [stream, stream, stream, hsplit, List.flatten_append]

/-- Later texts do not change what was streamed before. -/
theorem stream_concat {x : Nat} {y : Nat} (hy : y ≤ pushed.length) (t : Text) :
    stream (pushed ++ [t]) x y = stream pushed x y := by
  rw [stream, stream, List.take_append_of_le_length hy]

theorem stream_length (x : Nat) : stream pushed x pushed.length = (pushed.drop x).flatten := by
  rw [stream, List.take_length]

/-- What is known of a client that started at `first`. -/
structure Reads (m first : Nat) (pushed : List Text) (k : Client) : Prop where
  ring : Holds m pushed k.buffer
  nonempty : ∀ t ∈ pushed, t ≠ []
  cursor : cursorAfter first k.responses = k.cursor
  first_le : first ≤ k.cursor
  cursor_le : k.cursor ≤ pushed.length
  cursors_le : ∀ r ∈ k.responses, r.cursor ≤ pushed.length
  -- each response tells whether it lost something
  told : ∀ earlier r later, k.responses = earlier ++ r :: later →
    (r.overrun = false ↔ joined r.chunks = stream pushed (cursorAfter first earlier) r.cursor)
  received_le : k.received.length ≤ (stream pushed first k.cursor).length
  exact : (∀ r ∈ k.responses, r.overrun = false) ↔ k.received = stream pushed first k.cursor

variable {first : Nat} {k : Client}

theorem Reads.push (h : Reads m first pushed k) (now : Instant) (ht : t ≠ []) :
    Reads m first (pushed ++ [t]) (k.step (.push now t)) where
  ring := h.ring.push now t
  nonempty := by
      intro u hu
      rcases List.mem_append.mp hu with hold | hnew
      · exact h.nonempty u hold
      · exact List.mem_singleton.mp hnew ▸ ht
  cursor := h.cursor
  first_le := h.first_le
  cursor_le := by
      rw [List.length_append]
      exact le_trans h.cursor_le (Nat.le_add_right _ _)
  cursors_le := by
      intro r hr
      rw [List.length_append]
      exact le_trans (h.cursors_le r hr) (Nat.le_add_right _ _)
  told := by
      intro earlier r later hsplit
      have hmem : r ∈ k.responses := by
        rw [show k.responses = earlier ++ r :: later from hsplit]
        exact List.mem_append_right _ List.mem_cons_self
      rw [stream_concat (h.cursors_le r hmem)]
      exact h.told earlier r later hsplit
  received_le := by
      show k.received.length ≤ (stream (pushed ++ [t]) first k.cursor).length
      rw [stream_concat h.cursor_le]
      exact h.received_le
  exact := by
      show _ ↔ k.received = stream (pushed ++ [t]) first k.cursor
      rw [stream_concat h.cursor_le]
      exact h.exact

/-- What a round of `read_output` answers is what `since` found. -/
theorem readOutput_some {info : SessionInfo} {expired : Bool} {r : OutputResponse}
    (h : readOutput b info c expired = some r) :
    r = { b.since c info.status with outputTruncated := info.outputTruncated } := by
  simp only [readOutput] at h
  split at h
  · exact (Option.some.inj h).symm
  · cases h

theorem Reads.respond (h : Reads m first pushed k) {r : OutputResponse}
    (hcursor : r.cursor = pushed.length)
    (hle : (joined r.chunks).length ≤ (stream pushed k.cursor r.cursor).length)
    (htold : r.overrun = false ↔ joined r.chunks = stream pushed k.cursor r.cursor) :
    Reads m first pushed { k with cursor := r.cursor, responses := k.responses ++ [r] } := by
  have hjoin : stream pushed first r.cursor
      = stream pushed first k.cursor ++ stream pushed k.cursor r.cursor :=
    (stream_append h.first_le (by rw [hcursor]; exact h.cursor_le) (by omega)).symm
  have hreceived : Client.received { k with cursor := r.cursor, responses := k.responses ++ [r] }
      = k.received ++ joined r.chunks := by
    simp only [Client.received, List.map_append, List.map_cons, List.map_nil,
      List.flatten_append, List.flatten_cons, List.flatten_nil, List.append_nil]
  have hreceivedLe := h.received_le
  have hfirst := h.first_le
  have hlast := h.cursor_le
  constructor
  · exact h.ring
  · exact h.nonempty
  · simp [cursorAfter]
  · show first ≤ r.cursor
    omega
  · show r.cursor ≤ _
    omega
  · intro q hq
    rcases List.mem_append.mp hq with hold | hnew
    · exact h.cursors_le q hold
    · rw [List.mem_singleton.mp hnew, hcursor]
  · intro earlier q later hsplit
    rcases List.eq_nil_or_concat later with hnil | ⟨front, last, hlater⟩
    · subst hnil
      obtain ⟨hearlier, hq⟩ := List.append_inj' hsplit rfl
      cases hq
      rw [← hearlier, h.cursor]
      exact htold
    · rw [hlater, List.concat_eq_append, ← List.cons_append, ← List.append_assoc] at hsplit
      obtain ⟨hfront, -⟩ := List.append_inj' hsplit rfl
      exact h.told earlier q front hfront
  · rw [hreceived, hjoin, List.length_append, List.length_append]
    omega
  · show _ ↔ _ = stream pushed first r.cursor
    rw [hreceived, hjoin, List.forall_mem_append, List.forall_mem_singleton, h.exact, htold]
    constructor
    · rintro ⟨hold, hnew⟩
      rw [hold, hnew]
    · intro hall
      -- neither part is longer than its own stretch of the stream
      have htotal := congrArg List.length hall
      rw [List.length_append, List.length_append] at htotal
      exact List.append_inj hall (by omega)

theorem Reads.poll (h : Reads m first pushed k) (info : SessionInfo) (expired : Bool) :
    Reads m first pushed (k.step (.poll info expired)) := by
  rw [Client.step]
  cases hread : readOutput k.buffer info k.cursor expired with
  | none => exact h
  | some r =>
      have hr := readOutput_some hread
      obtain ⟨hle, hexact⟩ :=
        h.ring.since_exact h.nonempty info.status h.cursor_le
      have hcursor : r.cursor = pushed.length := by
        rw [hr]
        exact h.ring.next
      apply h.respond hcursor
      · rw [hcursor, stream_length, hr]
        exact hle
      · rw [hcursor, stream_length, hr]
        exact hexact

theorem Reads.run {actions : List ClientAction} (h : Reads m first pushed k)
    (hne : ∀ t ∈ actions.filterMap ClientAction.text?, t ≠ []) :
    Reads m first (pushed ++ actions.filterMap ClientAction.text?) (k.run actions) := by
  induction actions generalizing pushed k with
  | nil =>
      rw [List.filterMap_nil, List.append_nil]
      exact h
  | cons a actions ih =>
      cases a with
      | push now text =>
          simp only [List.filterMap_cons, ClientAction.text?, List.forall_mem_cons] at hne ⊢
          have hrun := ih (h.push now hne.1) hne.2
          rw [List.append_assoc] at hrun
          exact hrun
      | poll info expired =>
          simp only [List.filterMap_cons, ClientAction.text?] at hne ⊢
          exact ih (h.poll info expired) hne

theorem Holds.pushAll (h : Holds m pushed b) (before : List (Instant × Text)) :
    Holds m (pushed ++ before.map (·.2)) (before.foldl (fun b p => (b.push p.1 p.2).1) b) := by
  induction before generalizing pushed b with
  | nil =>
      rw [List.map_nil, List.append_nil]
      exact h
  | cons p before ih =>
      have hrest := ih (h.push p.1 p.2)
      rw [List.append_assoc] at hrest
      exact hrest

theorem reads_start (m : Nat) {before : List (Instant × Text)} (hfirst : first ≤ before.length)
    (hne : ∀ t ∈ before.map (·.2), t ≠ []) :
    Reads m first (before.map (·.2)) (Client.start m before first) where
  ring := by
      have hpush := (holds_new m).pushAll before
      rw [List.nil_append] at hpush
      exact hpush
  nonempty := hne
  cursor := rfl
  first_le := le_rfl
  cursor_le := by
      rw [List.length_map]
      exact hfirst
  cursors_le := by
      intro r hr
      cases hr
  told := by
      intro earlier r later hsplit
      cases earlier <;> cases hsplit
  received_le := Nat.zero_le _
  exact := by
      have hempty : stream (before.map (·.2)) first (Client.start m before first).cursor = [] := by
        show stream _ first first = []
        rw [stream, List.drop_eq_nil_of_le]
        · rfl
        · rw [List.length_take]
          omega
      rw [hempty]
      exact ⟨fun _ => rfl, fun _ r hr => by cases hr⟩

/-- The ring says exactly which cursors lost something, and a client that polls
    from the returned cursor has the whole stream from its first cursor on, or
    was told by the very response that lost something. -/
theorem output_ring_exact {maxBytes first : Nat} {before : List (Instant × Text)}
    {actions : List ClientAction} (hbefore : ∀ t ∈ before.map (·.2), t ≠ [])
    (hpushes : ∀ t ∈ actions.filterMap ClientAction.text?, t ≠ [])
    (hfirst : first ≤ before.length) :
    let pushed := before.map (·.2) ++ actions.filterMap ClientAction.text?
    let k := (Client.start maxBytes before first).run actions
    k.buffer.nextSeq = pushed.length ∧
    k.buffer.bytes = totalBytes k.buffer.chunks ∧
    k.buffer.bytes ≤ maxBytes ∧
    k.buffer.chunks.length ≤ 4096 ∧
    (∀ c status, c ≤ k.buffer.nextSeq →
      ((k.buffer.since c status).overrun = false ↔
        joined (k.buffer.since c status).chunks = (pushed.drop c).flatten) ∧
      ∃ start, c ≤ start ∧ start ≤ (k.buffer.since c status).cursor ∧
        (k.buffer.since c status).chunks.map (·.seq)
          = List.range' start ((k.buffer.since c status).cursor - start)) ∧
    ((∀ r ∈ k.responses, r.overrun = false) ↔ k.received = stream pushed first k.cursor) ∧
    ∀ earlier r later, k.responses = earlier ++ r :: later →
      (r.overrun = false ↔
        joined r.chunks = stream pushed (cursorAfter first earlier) r.cursor) := by
  intro pushed k
  have hreads : Reads maxBytes first pushed k := (reads_start maxBytes hfirst hbefore).run hpushes
  have hring := hreads.ring
  refine ⟨hring.next, hring.bytes, hring.bytes_le, hring.length_le, ?_, hreads.exact,
    hreads.told⟩
  intro c status hc
  rw [hring.next] at hc
  obtain ⟨start, hstart, hcursor, hseqs, -⟩ := hring.since c status
  refine ⟨(hring.since_exact hreads.nonempty status hc).2, max c start, le_max_left _ _, ?_, ?_⟩
  · rw [hcursor]
    exact max_le hc hstart
  · rw [hseqs, hcursor]

/-- A ring of two bytes: the poll after the longer text is told of its loss. -/
theorem output_ring_exact_cut :
    let k := (Client.start 2 [(0, ['a'])] 0).run
      [.poll {} false, .push 1 ['b', 'c', 'd'], .poll {} false]
    k.received = ['a', 'c', 'd'] ∧
    ((∀ r ∈ k.responses, r.overrun = false) ↔ k.received = ['a', 'b', 'c', 'd']) :=
  ⟨by decide, (@output_ring_exact 2 0 [(0, ['a'])]
    [.poll {} false, .push 1 ['b', 'c', 'd'], .poll {} false]
    (by decide) (by decide) (by decide)).2.2.2.2.2.1⟩

end VivadoServer.Sessions
