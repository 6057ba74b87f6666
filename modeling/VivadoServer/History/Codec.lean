/-
  VivadoServer.History.Codec

  A concrete `Codec`, for runs on concrete events.  The texts of the events of a
  table are the JSON that `serde_json` writes for them; every other event has a
  text that no JSON object begins like.
-/

import Mathlib.Tactic.DeriveEncodable
import VivadoServer.History.Machine

namespace VivadoServer.History

instance encodableChar : Encodable Char :=
  Encodable.ofLeftInjection Char.toNat (fun n => some (Char.ofNat n)) fun c => by
    rw [Char.ofNat_toNat]

instance encodableString : Encodable String :=
  Encodable.ofLeftInjection String.toList (fun cs => some (String.ofList cs)) fun s => by
    rw [String.ofList_toList]

deriving instance Encodable for Scalar
deriving instance Encodable for Value
deriving instance Encodable for Event

/-- The bytes of an ASCII text. -/
def ascii (text : String) : Bytes := text.toList.map fun c => UInt8.ofNat c.toNat

/-! ## Texts for events outside the table -/

/-- The number of an event, in unary. -/
def unary (e : Event) : Bytes := List.replicate (Encodable.encode e) 97

def readUnary (bytes : Bytes) : Option Event :=
  if bytes.all (· == 97) then Encodable.decode bytes.length else none

theorem readUnary_unary (e : Event) : readUnary (unary e) = some e := by
  rw [readUnary, unary, if_pos (by simp), List.length_replicate, Encodable.encodek]

/-! ## Tables -/

/-- Distinct events with distinct one-line texts that begin like a JSON object. -/
structure Table where
  entries : List (Event × Bytes)
  texts_nodup : (entries.map (·.2)).Nodup
  object : ∀ entry ∈ entries, entry.2.head? = some 123
  line : ∀ entry ∈ entries, newline ∉ entry.2

def Table.toVec (table : Table) (e : Event) : Bytes := (table.entries.lookup e).getD (unary e)

def Table.fromBody (table : Table) (body : Bytes) : Option Event :=
  match table.entries.find? (·.2 == body) with
  | some (e, _) => some e
  | none => readUnary body

theorem mem_of_lookup {entries : List (Event × Bytes)} {e : Event} {text : Bytes}
    (h : entries.lookup e = some text) : (e, text) ∈ entries := by
  induction entries with
  | nil => cases h
  | cons entry entries ih =>
      obtain ⟨e', text'⟩ := entry
      rw [List.lookup_cons] at h
      split at h
      · rename_i heq
        rw [beq_iff_eq] at heq
        cases h
        rw [heq]
        exact List.mem_cons_self
      · exact List.mem_cons_of_mem _ (ih h)

theorem Table.fromBody_toVec (table : Table) (e : Event) :
    table.fromBody (table.toVec e) = some e := by
  unfold Table.toVec Table.fromBody
  cases hlookup : table.entries.lookup e with
  | some text =>
      have hmem := mem_of_lookup hlookup
      rw [Option.getD_some]
      cases hfind : table.entries.find? (·.2 == text) with
      | none =>
          have hnone := List.find?_eq_none.mp hfind _ hmem
          simp at hnone
      | some entry =>
          have htext : entry.2 = text := by simpa using List.find?_some hfind
          have hentry : entry = (e, text) :=
            List.inj_on_of_nodup_map table.texts_nodup (List.mem_of_find?_eq_some hfind) hmem htext
          rw [hentry]
  | none =>
      rw [Option.getD_none]
      cases hfind : table.entries.find? (·.2 == unary e) with
      | none => exact readUnary_unary e
      | some entry =>
          have htext : entry.2 = unary e := by simpa using List.find?_some hfind
          have hhead := table.object entry (List.mem_of_find?_eq_some hfind)
          have hmem : (123 : UInt8) ∈ unary e := List.mem_of_head? (htext ▸ hhead)
          rw [unary, List.mem_replicate] at hmem
          exact absurd hmem.2 (by decide)

theorem Table.newline_notMem_toVec (table : Table) (e : Event) : newline ∉ table.toVec e := by
  unfold Table.toVec
  cases hlookup : table.entries.lookup e with
  | some text => exact table.line _ (mem_of_lookup hlookup)
  | none =>
      intro hmem
      rw [Option.getD_none, unary, List.mem_replicate] at hmem
      exact absurd hmem.2 (by decide)

/-! ## The size of a serialised state -/

/-- The number of decimal digits of `n`. -/
def digits (n : Nat) : Nat := (Nat.toDigits 10 n).length

/-- The length of the JSON of a state.  A UUID has 36 characters. -/
def State.jsonSize (toVec : Event → Bytes) (s : State) : Nat :=
  let list (sizes : List Nat) : Nat := 2 + sizes.sum + (sizes.length - 1)
  let gapSize (g : Gap) : Nat :=
    "\x7b\"after_seq\":,\"through_seq\":,\"reason\":\"\"\x7d".length
      + digits g.afterSeq + digits g.throughSeq + g.reason.length
  "\x7b\"format\":\"\",\"journal_id\":\"\",\"instance_id\":\"\",\"next_cursor\":,".length
    + s.format.length + 2 * 36 + digits s.nextCursor
    + "\"earliest_cursor\":,\"recording_state\":\"\",\"gaps\":,".length
    + digits s.earliestCursor + s.recordingState.length + list (s.gaps.map gapSize)
    + "\"session_windows\":,\"session_head_bytes\":,".length
    + list (s.sessionWindows.toList.map fun entry => 39 + digits entry.2) + digits s.sessionHeadBytes
    + "\"open_sessions\":,\"open_workflows\":\x7d".length
    + list (s.openSessions.toList.map fun entry => 39 + (toVec entry.2).length)
    + list (s.openWorkflows.toList.map fun entry => 39 + (toVec entry.2).length)

/-- The codec of a table. -/
def Table.codec (table : Table) : Codec where
  toVec := table.toVec
  fromSlice line :=
    if line.getLast? = some newline then table.fromBody line.dropLast else none
  stateSize := State.jsonSize table.toVec
  fromSlice_toVec e := by
    rw [if_pos (List.getLast?_concat ..), List.dropLast_concat]
    exact table.fromBody_toVec e
  newline_notMem := table.newline_notMem_toVec

/-! ## A few events and their JSON -/

def serviceStarted (seq instanceId : Nat) : Event where
  seq := seq
  instanceId := instanceId
  timestamp := 0
  event := "service.started"
  workflowId := none
  sessionId := none
  project := none
  requestId := none
  data := .object [("instance_id", .uuid instanceId)]

def uploadStaged (seq instanceId : Nat) : Event where
  seq := seq
  instanceId := instanceId
  timestamp := 0
  event := "sync.upload_staged"
  workflowId := none
  sessionId := none
  project := none
  requestId := none
  data := .object [("path", .text "top.v"), ("size_bytes", .num 4), ("sync_id", .uuid 7)]

/-- The JSON of a UUID with one digit. -/
def uuidText (id : Nat) : Bytes :=
  ascii "\"00000000-0000-0000-0000-00000000000" ++ [UInt8.ofNat (48 + id)] ++ ascii "\""

/-- The JSON of an event at the epoch whose numbers have one digit. -/
def eventText (e : Event) (data : Bytes) : Bytes :=
  ascii "\x7b\"seq\":" ++ [UInt8.ofNat (48 + e.seq)] ++ ascii ",\"instance_id\":" ++ uuidText e.instanceId
    ++ ascii ",\"timestamp\":\"1970-01-01T00:00:00Z\",\"event\":\"" ++ ascii e.event
    ++ ascii "\",\"data\":" ++ data ++ ascii "\x7d"

def startedEntry (seq instanceId : Nat) : Event × Bytes :=
  (serviceStarted seq instanceId,
    eventText (serviceStarted seq instanceId)
      (ascii "\x7b\"instance_id\":" ++ uuidText instanceId ++ ascii "\x7d"))

def stagedEntry (seq instanceId : Nat) : Event × Bytes :=
  (uploadStaged seq instanceId,
    eventText (uploadStaged seq instanceId)
      (ascii "\x7b\"path\":\"top.v\",\"size_bytes\":4,\"sync_id\":" ++ uuidText 7 ++ ascii "\x7d"))

/-- The first events of two short lifetimes. -/
def smallTable : Table where
  entries := [startedEntry 1 1, stagedEntry 2 1, stagedEntry 3 1, startedEntry 2 2, startedEntry 3 2,
    startedEntry 4 2]
  texts_nodup := by decide +kernel
  object := by decide +kernel
  line := by decide +kernel

/-! ## Parts of a short run -/

/-- The default configuration. -/
def defaults : Options where
  maxBytes := 512 * 1024 * 1024
  retentionSecs := 7 * 86400
  sessionHeadBytes := 8 * 1024 * 1024
  sessionTailBytes := 56 * 1024 * 1024

/-- The rest of an undisturbed start-up: compact, persist, and append the
    start-up event up to the return of `append`. -/
def startUp : List Act :=
  [.writer .done, .writer (.at 0), .writer .done, .writer .done, .writer .done, .writer .done,
    .writer .done, .writer (.at 0), .writer .done, .writer .done]

/-- One event is enqueued, received and reaches the write call. -/
def enqueueOne : List Act := [.record (uploadStaged 0 0), .writer .done, .writer .done]

/-- The same event, for a caller that waits until it is durable. -/
def criticalOne : Act := .critical [uploadStaged 0 0]

/-- The write stops after nine bytes and is rolled back. -/
def failedWrite : List Act := [.writer (.wrote 9), .writer .done, .writer .done, .writer .done]

/-- The write and everything behind it succeed. -/
def appended : List Act :=
  [.writer .done, .writer .done, .writer .done, .writer .done, .writer .done, .writer (.at 0),
    .writer .done, .writer .done]

/-- The idle branch merges what is pending and moves the head across it. -/
def idleMerge : List Act := [.writer .timeout, .writer .done, .writer .done]

/-- Power fails, losing every byte that was not synced, and the service starts
    again up to the numbering of its start-up event. -/
def crashAndRestart : List Act := [.crash 0 false, .start 0 1 2, .writer .done, .writer (.at 0)]

end VivadoServer.History
