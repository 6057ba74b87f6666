/-
  VivadoServer.History.Chunks

  Splitting a text into events (`History::text_events` of `src/history.rs`), and the
  JSON of an event.  Whatever the text, the events carry it without loss, and none of
  them is too large for the queue.

  The text of a time is the one the date library writes; all that counts here is that
  it has at most 35 bytes.
-/

import VivadoServer.History.Codec
import VivadoServer.Lib.Json
import VivadoServer.Sessions.Output
import VivadoServer.Sync.Apply
import VivadoServer.Sync.Scan

namespace VivadoServer.History

open VivadoServer.Sessions (Text byteLength isCharBoundary sliceFrom)

def textChunk : Nat := 4096

def stdinIntent : String := "session.stdin_intent"

def stdinChunk : String := "session.stdin_chunk"

/-! ## Data of events -/

/-- What a request leaves for the events it causes. -/
structure Context where
  requestId : Option Uuid := none
  parentRequestId : Option Uuid := none
  workflowId : Option Uuid := none
  syncId : Option Uuid := none
deriving DecidableEq, Repr

/-- The members of a JSON object are in the order of their keys. -/
def setField (key : String) (x : Scalar) : List (String × Scalar) → List (String × Scalar)
  | [] => [(key, x)]
  | (k, old) :: rest =>
    if key = k then (key, x) :: rest
    else if key < k then (key, x) :: (k, old) :: rest
    else (k, old) :: setField key x rest

/-- `data[key] = x`; only objects are changed so. -/
def Value.set (v : Value) (key : String) (x : Scalar) : Value :=
  match v with
  | .object fields => .object (setField key x fields)
  | .scalar s => .scalar s

/-- `data.remove(key)`. -/
def Value.remove (v : Value) (key : String) : Value :=
  match v with
  | .object fields => .object (fields.filter fun f => f.1 != key)
  | .scalar s => .scalar s

/-- `data[key] = id` where there is an id. -/
def Value.setId (v : Value) (key : String) (id : Option Uuid) : Value :=
  match id with
  | some id => v.set key (.uuid id)
  | none => v

/-- `Event::new`, in a context and at a time. -/
def Event.new (ctx : Context) (now : Int) (event : String) (workflow session : Option Uuid)
    (project : Option String) (data : Value) : Event where
  seq := 0
  instanceId := 0
  timestamp := now
  event := event
  workflowId := workflow.or ctx.workflowId
  sessionId := session
  project := project
  requestId := ctx.requestId
  data := (data.setId "sync_id" ctx.syncId).setId "parent_request_id" ctx.parentRequestId

def Event.correlated (e : Event) (ctx : Context) : Event :=
  { e with
    requestId := ctx.requestId
    data := (e.data.remove "parent_request_id").setId "parent_request_id" ctx.parentRequestId }

/-! ## The chunks of a text -/

/-- `while !remaining.is_char_boundary(n) { n -= 1 }`. -/
def prevBoundary (remaining : Text) : Nat → Nat
  | 0 => 0
  | n + 1 => if isCharBoundary remaining (n + 1) then n + 1 else prevBoundary remaining n

/-- `&text[..n]` for an `n` that is a character boundary. -/
def sliceTo : Text → Nat → Text
  | _, 0 => []
  | [], _ + 1 => []
  | c :: cs, n + 1 => c :: sliceTo cs (n + 1 - c.utf8Size)

/-- What the events of one text have in common; `clock` gives the time of each. -/
structure Split where
  ctx : Context
  clock : Nat → Int
  event : String
  workflow : Option Uuid
  session : Uuid
  project : String
  data : Value
  total : Nat

def Split.fields (s : Split) (chunk : Text) (offset n : Nat) : Value :=
  (((s.data.set "text" (.text (String.ofList chunk))).set "byte_offset" (.num offset)).set
    "byte_length" (.num n)).set "total_bytes" (.num s.total)

def Split.new (s : Split) (index : Nat) (kind : String) (data : Value) : Event :=
  .new s.ctx (s.clock index) kind s.workflow (some s.session) (some s.project) data

/-- The loop, for at most `fuel` rounds. -/
def Split.loop (s : Split) : Nat → Text → Nat → List Event → Option (List Event)
  | _, [], _, result => some result
  | 0, _ :: _, _, _ => none
  | fuel + 1, remaining, offset, result =>
    let n := prevBoundary remaining (min (byteLength remaining) textChunk)
    let kind := if s.event = stdinIntent ∧ result ≠ [] then stdinChunk else s.event
    s.loop fuel (sliceFrom remaining n) (offset + n)
      (result ++ [s.new result.length kind (s.fields (sliceTo remaining n) offset n)])

/-- `text_events`: `none` where `fuel` rounds are not enough. -/
def textEvents (fuel : Nat) (ctx : Context) (clock : Nat → Int) (event : String)
    (workflow : Option Uuid) (session : Uuid) (project : String) (text : Text) (data : Value) :
    Option (List Event) :=
  let s : Split := ⟨ctx, clock, event, workflow, session, project, data, byteLength text⟩
  if text = [] then
    some [s.new 0 event ((data.set "text" (.text "")).set "byte_length" (.num 0))]
  else s.loop fuel text ((data.asU64 "byte_offset").getD 0) []

/-- The data of `output`, and of the intent that `send_input` records with its `input_id`. -/
def textData (offset : Nat) (input : Option Uuid) : Value :=
  .object (("byte_offset", .num offset) :: (input.map fun id => ("input_id", .uuid id)).toList)

/-- `data[key]`. -/
def Value.get (v : Value) (key : String) : Option Scalar :=
  match v with
  | .object fields => fields.lookup key
  | .scalar _ => none

/-- The text that an event carries. -/
def Event.text (e : Event) : Text :=
  match e.data.get "text" with
  | some (.text s) => s.toList
  | _ => []

/-! ## The JSON of an event -/

/-- The hyphenated form of a UUID. -/
def hyphenated (id : Uuid) : String :=
  let digit (i : Nat) : Char := Nat.digitChar (id / 16 ^ (31 - i) % 16)
  let group (first count : Nat) : List Char := (List.range' first count).map digit
  String.ofList (group 0 8 ++ '-' :: group 8 4 ++ '-' :: group 12 4 ++ '-' :: group 16 4 ++
    '-' :: group 20 12)

def Scalar.json : Scalar → Bytes
  | .null => Json.null
  | .bool b => Json.bool b
  | .num n => Json.int n
  | .text s => Json.str s
  | .uuid id => Json.str (hyphenated id)

def Value.json : Value → Bytes
  | .object fields => Json.object (fields.map fun f => (f.1, f.2.json))
  | .scalar s => s.json

/-- A member that is left out when there is no value. -/
def optional (key : String) (value : Option String) : List (String × Bytes) :=
  (value.map fun text => (key, Json.str text)).toList

def Event.members (timeText : Int → String) (e : Event) : List (String × Bytes) :=
  [("seq", Json.nat e.seq), ("instance_id", Json.str (hyphenated e.instanceId)),
    ("timestamp", Json.str (timeText e.timestamp)), ("event", Json.str e.event)] ++
  (optional "workflow_id" (e.workflowId.map hyphenated) ++
  (optional "session_id" (e.sessionId.map hyphenated) ++
  (optional "project" e.project ++
  (optional "request_id" (e.requestId.map hyphenated) ++
  [("data", e.data.json)]))))

/-- `serde_json::to_vec(event)`. -/
def Event.json (timeText : Int → String) (e : Event) : Bytes := Json.object (e.members timeText)

/-! ## Cutting at a boundary -/

section Cuts

variable {remaining : Text} {n m : Nat}

/-- The search ends at the last boundary that is not behind its start. -/
theorem prevBoundary_spec (remaining : Text) (n : Nat) :
    isCharBoundary remaining (prevBoundary remaining n) = true ∧ prevBoundary remaining n ≤ n ∧
      ∀ m ≤ n, isCharBoundary remaining m = true → m ≤ prevBoundary remaining n := by
  induction n with
  | zero =>
      refine ⟨?_, Nat.le_refl _, fun m hm _ => hm⟩
      cases remaining <;> rfl
  | succ n ih =>
      rw [prevBoundary]
      split
      · rename_i hboundary
        exact ⟨hboundary, Nat.le_refl _, fun m hm _ => hm⟩
      · rename_i hno
        refine ⟨ih.1, by omega, fun m hm hboundary => ?_⟩
        have hne : m ≠ n + 1 := by
          rintro rfl
          exact hno hboundary
        exact ih.2.2 m (by omega) hboundary

theorem sliceTo_append_sliceFrom (remaining : Text) (n : Nat) :
    sliceTo remaining n ++ sliceFrom remaining n = remaining := by
  induction remaining generalizing n with
  | nil => cases n <;> rfl
  | cons c cs ih =>
      cases n with
      | zero => rfl
      | succ n =>
          rw [sliceTo, sliceFrom, List.cons_append, ih]

theorem byteLength_sliceTo (h : isCharBoundary remaining n = true) :
    byteLength (sliceTo remaining n) = n := by
  induction remaining generalizing n with
  | nil =>
      cases n with
      | zero => rfl
      | succ n => cases h
  | cons c cs ih =>
      cases n with
      | zero => rfl
      | succ n =>
          rw [isCharBoundary, Bool.and_eq_true, decide_eq_true_eq] at h
          rw [sliceTo, Sessions.byteLength_cons, ih h.2]
          omega

theorem byteLength_append (text rest : Text) :
    byteLength (text ++ rest) = byteLength text + byteLength rest := by
  simp [byteLength]

theorem isCharBoundary_append (text rest : Text) : isCharBoundary (text ++ rest) (byteLength text) = true := by
  induction text with
  | nil => cases rest <;> rfl
  | cons c cs ih =>
      have hpos := Char.utf8Size_pos c
      obtain ⟨n, hn⟩ : ∃ n, byteLength (c :: cs) = n + 1 :=
        ⟨byteLength (c :: cs) - 1, by rw [Sessions.byteLength_cons]; omega⟩
      rw [hn, List.cons_append, isCharBoundary]
      rw [Sessions.byteLength_cons] at hn
      have hrest : n + 1 - c.utf8Size = byteLength cs := by omega
      rw [hrest, ih, Bool.and_true, decide_eq_true_eq]
      omega

/-- A first chunk has at least one character, and no more than fits. -/
theorem chunk_spec (hne : remaining ≠ []) :
    let n := prevBoundary remaining (min (byteLength remaining) textChunk)
    byteLength (sliceTo remaining n) = n ∧ 1 ≤ n ∧ n ≤ textChunk ∧
      byteLength (sliceFrom remaining n) + n = byteLength remaining := by
  intro n
  obtain ⟨hboundary, hle, hlast⟩ := prevBoundary_spec remaining (min (byteLength remaining) textChunk)
  have hlength : byteLength (sliceTo remaining n) = n := byteLength_sliceTo hboundary
  refine ⟨hlength, ?_, Nat.le_trans hle (Nat.min_le_right _ _), ?_⟩
  · obtain ⟨c, cs, rfl⟩ := List.exists_cons_of_ne_nil hne
    have hfirst : isCharBoundary (c :: cs) c.utf8Size = true := by
      have hc := isCharBoundary_append [c] cs
      rwa [Sessions.byteLength_cons, Sessions.byteLength_nil, Nat.add_zero] at hc
    have hfour := Char.utf8Size_le_four c
    have hone := Char.utf8Size_pos c
    have hfits : c.utf8Size ≤ min (byteLength (c :: cs)) textChunk := by
      rw [Sessions.byteLength_cons]
      unfold textChunk
      omega
    exact Nat.le_trans hone (hlast _ hfits hfirst)
  · have happend := congrArg byteLength (sliceTo_append_sliceFrom remaining n)
    rw [byteLength_append, hlength] at happend
    omega

end Cuts

/-! ## The events of some chunks -/

namespace Split

variable (s : Split)

def kindAt (index : Nat) : String :=
  if s.event = stdinIntent ∧ 0 < index then stdinChunk else s.event

def chunkEvent (index offset : Nat) (chunk : Text) : Event :=
  s.new index (s.kindAt index) (s.fields chunk offset (byteLength chunk))

def chunkEvents : Nat → Nat → List Text → List Event
  | _, _, [] => []
  | index, offset, chunk :: rest =>
    s.chunkEvent index offset chunk :: chunkEvents (index + 1) (offset + byteLength chunk) rest

theorem length_chunkEvents (index offset : Nat) (chunks : List Text) :
    (s.chunkEvents index offset chunks).length = chunks.length := by
  induction chunks generalizing index offset with
  | nil => rfl
  | cons chunk rest ih => rw [chunkEvents, List.length_cons, List.length_cons, ih]

/-- Each chunk has its event, and the offset is where the chunk begins. -/
theorem getElem?_chunkEvents (index offset : Nat) (chunks : List Text) (i : Nat) :
    (s.chunkEvents index offset chunks)[i]? = chunks[i]?.map
      (s.chunkEvent (index + i) (offset + byteLength (chunks.take i).flatten)) := by
  induction chunks generalizing index offset i with
  | nil => rfl
  | cons chunk rest ih =>
      cases i with
      | zero => rfl
      | succ i =>
          rw [chunkEvents, List.getElem?_cons_succ, List.getElem?_cons_succ, ih, List.take_succ_cons,
            List.flatten_cons, byteLength_append]
          rw [Nat.add_right_comm index 1 i, Nat.add_assoc index i 1, Nat.add_assoc offset]

theorem mem_chunkEvents {index offset : Nat} {chunks : List Text} {e : Event}
    (h : e ∈ s.chunkEvents index offset chunks) : ∃ i chunk, chunk ∈ chunks ∧
      e = s.chunkEvent (index + i) (offset + byteLength (chunks.take i).flatten) chunk := by
  obtain ⟨i, hi⟩ := List.getElem?_of_mem h
  rw [getElem?_chunkEvents] at hi
  obtain ⟨chunk, hchunk, rfl⟩ := Option.map_eq_some_iff.mp hi
  exact ⟨i, chunk, List.mem_of_getElem? hchunk, rfl⟩

/-- With a round for each byte the loop comes to its end: it cuts the text into chunks and
    has an event for each. -/
theorem loop_spec (remaining : Text) (offset : Nat) (result : List Event) :
    ∃ chunks : List Text, chunks.flatten = remaining ∧
      (∀ chunk ∈ chunks, 1 ≤ byteLength chunk ∧ byteLength chunk ≤ textChunk) ∧
      ∀ fuel, byteLength remaining ≤ fuel → s.loop fuel remaining offset result =
        some (result ++ s.chunkEvents result.length offset chunks) := by
  -- by the length of what remains, which each round makes shorter
  induction hbytes : byteLength remaining using Nat.strong_induction_on generalizing remaining offset result with
  | _ bytes ih =>
      by_cases hne : remaining = []
      · subst hne
        refine ⟨[], rfl, nofun, fun fuel _ => ?_⟩
        rw [loop, chunkEvents, List.append_nil]
      · obtain ⟨hlength, hone, hmax, hrest⟩ := chunk_spec hne
        have hround : ∀ fuel, s.loop (fuel + 1) remaining offset result =
            let n := prevBoundary remaining (min (byteLength remaining) textChunk)
            let kind := if s.event = stdinIntent ∧ result ≠ [] then stdinChunk else s.event
            s.loop fuel (sliceFrom remaining n) (offset + n)
              (result ++ [s.new result.length kind (s.fields (sliceTo remaining n) offset n)]) := by
          intro fuel
          obtain ⟨c, cs, rfl⟩ := List.exists_cons_of_ne_nil hne
          rfl
        generalize prevBoundary remaining (min (byteLength remaining) textChunk) = n at *
        dsimp only at hround
        have hkind : (if s.event = stdinIntent ∧ result ≠ [] then stdinChunk else s.event) =
            s.kindAt result.length :=
          if_congr (and_congr_right fun _ => List.length_pos_iff.symm) rfl rfl
        rw [hkind] at hround
        obtain ⟨chunks, hflatten, hchunks, hevents⟩ := ih (byteLength (sliceFrom remaining n)) (by omega)
          (sliceFrom remaining n) (offset + n) (result ++ [s.new result.length
            (s.kindAt result.length) (s.fields (sliceTo remaining n) offset n)]) rfl
        refine ⟨sliceTo remaining n :: chunks, ?_, ?_, fun fuel hfuel => ?_⟩
        · rw [List.flatten_cons, hflatten, sliceTo_append_sliceFrom]
        · intro chunk hmem
          obtain rfl | hlater := List.mem_cons.mp hmem
          · rw [hlength]
            exact ⟨hone, hmax⟩
          · exact hchunks chunk hlater
        · obtain ⟨fuel, rfl⟩ : ∃ f, fuel = f + 1 := ⟨fuel - 1, by omega⟩
          rw [hround, hevents fuel (by omega), chunkEvents, chunkEvent, hlength, List.length_append,
            List.length_singleton, List.append_assoc]
          rfl

end Split

/-! ## What is read of the data -/

section Data

variable {key other : String} {x : Scalar} {fields : List (String × Scalar)} {v : Value}

theorem lookup_setField_self : (setField key x fields).lookup key = some x := by
  induction fields with
  | nil => simp [setField]
  | cons f rest ih =>
      obtain ⟨k, old⟩ := f
      rw [setField]
      split
      · simp
      · split
        · simp
        · rename_i hne _
          have hbeq : (key == k) = false := by simpa using hne
          rw [List.lookup_cons, hbeq, ih]

theorem lookup_setField_ne (h : other ≠ key) :
    (setField key x fields).lookup other = fields.lookup other := by
  have hbeq : (other == key) = false := by simpa using h
  induction fields with
  | nil => simp [setField, List.lookup_cons, hbeq]
  | cons f rest ih =>
      obtain ⟨k, old⟩ := f
      rw [setField]
      split
      · rename_i hkey
        rw [List.lookup_cons, List.lookup_cons, ← hkey, hbeq]
      · split
        · rw [List.lookup_cons, hbeq]
        · rw [List.lookup_cons, List.lookup_cons, ih]

theorem Value.get_set_self (h : v.isObject = true) : (v.set key x).get key = some x := by
  cases v with
  | object fields => exact lookup_setField_self
  | scalar s => cases h

theorem Value.get_set_ne (h : other ≠ key) : (v.set key x).get other = v.get other := by
  cases v with
  | object fields => exact lookup_setField_ne h
  | scalar s => rfl

theorem Value.isObject_set : (v.set key x).isObject = v.isObject := by cases v <;> rfl

theorem Value.get_setId_ne {id : Option Uuid} (h : other ≠ key) :
    (v.setId key id).get other = v.get other := by
  cases id with
  | none => rfl
  | some id => exact get_set_ne h

theorem Value.asU64_eq {n : Nat} (h : v.get key = some (.num n)) : v.asU64 key = some n := by
  cases v with
  | object fields =>
      have hlookup : fields.lookup key = some (.num (.ofNat n)) := h
      simp [asU64, hlookup]
  | scalar s => cases h

end Data

namespace Split

variable (s : Split) (index offset : Nat) (chunk : Text)

theorem get_chunkEvent {key : String} (hsync : key ≠ "sync_id") (hparent : key ≠ "parent_request_id") :
    (s.chunkEvent index offset chunk).data.get key =
      (s.fields chunk offset (byteLength chunk)).get key := by
  show (Value.setId (Value.setId _ _ _) _ _).get key = _
  rw [Value.get_setId_ne hparent, Value.get_setId_ne hsync]

theorem chunkEvent_reads (hdata : s.data.isObject = true) :
    (s.chunkEvent index offset chunk).text = chunk ∧
      (s.chunkEvent index offset chunk).offset = offset ∧
      (s.chunkEvent index offset chunk).byteLength = byteLength chunk := by
  have htext : (s.chunkEvent index offset chunk).data.get "text" = some (.text (String.ofList chunk)) := by
    rw [get_chunkEvent _ _ _ _ (by decide) (by decide), fields, Value.get_set_ne (by decide),
      Value.get_set_ne (by decide), Value.get_set_ne (by decide), Value.get_set_self hdata]
  have hoffset : (s.chunkEvent index offset chunk).data.get "byte_offset" = some (.num offset) := by
    rw [get_chunkEvent _ _ _ _ (by decide) (by decide), fields, Value.get_set_ne (by decide),
      Value.get_set_ne (by decide), Value.get_set_self (by rw [Value.isObject_set, hdata])]
  have hlength : (s.chunkEvent index offset chunk).data.get "byte_length" =
      some (.num (byteLength chunk)) := by
    rw [get_chunkEvent _ _ _ _ (by decide) (by decide), fields, Value.get_set_ne (by decide),
      Value.get_set_self (by rw [Value.isObject_set, Value.isObject_set, hdata])]
  refine ⟨?_, ?_, ?_⟩
  · rw [Event.text, htext]
    exact String.toList_ofList ..
  · rw [Event.offset, Value.asU64_eq hoffset, Option.getD_some]
  · rw [Event.byteLength, Value.asU64_eq hlength, Option.getD_some]

end Split

/-! ## The size of an event -/

section Sizes

variable {key : String} {x : Scalar} {v : Value} {id : Option Uuid}

theorem digits_size (f : Nat → Nat) (places : List Nat) :
    ((places.map fun i => Nat.digitChar (f i % 16)).map Char.utf8Size).sum = places.length := by
  induction places with
  | nil => rfl
  | cons i rest ih =>
      have hdigit : (Nat.digitChar (f i % 16)).utf8Size = 1 :=
        (Sync.digitChar_hex (Nat.mod_lt _ (by decide))).2.1
      rw [List.map_cons, List.map_cons, List.sum_cons, ih, hdigit, List.length_cons, Nat.add_comm]

theorem hyphenated_size (id : Uuid) : (hyphenated id).utf8ByteSize = 36 := by
  unfold hyphenated
  rw [Json.utf8ByteSize_ofList]
  simp only [List.map_append, List.map_cons, List.sum_append, List.sum_cons, digits_size,
    List.length_range']
  rfl

theorem hyphenated_length (id : Uuid) : (Json.str (hyphenated id)).length ≤ 218 := by
  have := Json.str_length_le (hyphenated id)
  rw [hyphenated_size] at this
  omega

def fieldSize (f : String × Scalar) : Nat := Json.memberSize (f.1, f.2.json)

/-- What the members of an object come to. -/
def Value.weight : Value → Nat
  | .object fields => (fields.map fieldSize).sum
  | .scalar s => s.json.length

theorem Value.json_length_le (v : Value) : v.json.length ≤ v.weight + 2 := by
  cases v with
  | object fields =>
      have hobject := Json.object_length_le (fields.map fun f => (f.1, f.2.json))
      rw [List.map_map] at hobject
      exact hobject
  | scalar s => exact Nat.le_add_right _ _

theorem setField_weight (fields : List (String × Scalar)) :
    ((setField key x fields).map fieldSize).sum ≤ (fields.map fieldSize).sum + fieldSize (key, x) := by
  induction fields with
  | nil => simp [setField]
  | cons f rest ih =>
      obtain ⟨k, old⟩ := f
      rw [setField]
      simp only [List.map_cons, List.sum_cons]
      split
      · simp only [List.map_cons, List.sum_cons]
        omega
      · split
        · simp only [List.map_cons, List.sum_cons]
          omega
        · simp only [List.map_cons, List.sum_cons]
          omega

theorem Value.set_weight (v : Value) (key : String) (x : Scalar) : (v.set key x).weight ≤ v.weight + fieldSize (key, x) := by
  cases v with
  | object fields => exact setField_weight fields
  | scalar s => exact Nat.le_add_right _ _

theorem Value.remove_weight (v : Value) (key : String) : (v.remove key).weight ≤ v.weight := by
  cases v with
  | object fields =>
      show ((fields.filter fun f => f.1 != key).map fieldSize).sum ≤ (fields.map fieldSize).sum
      exact (List.filter_sublist.map fieldSize).sum_le_sum (fun _ _ => Nat.zero_le _)
  | scalar s => exact Nat.le_refl _

theorem Value.setId_weight (v : Value) (key : String) (id : Option Uuid) :
    (v.setId key id).weight ≤ v.weight + (Json.str key).length + 220 := by
  cases id with
  | none => exact Nat.le_trans (Nat.le_add_right _ _) (Nat.le_add_right _ _)
  | some id =>
      have hset := v.set_weight key (.uuid id)
      have hid := hyphenated_length id
      have hfield : fieldSize (key, .uuid id) =
          (Json.str key).length + (Json.str (hyphenated id)).length + 2 := rfl
      show (v.set key (.uuid id)).weight ≤ _
      omega

theorem optional_size (key : String) (value : Option String) {n : Nat}
    (h : ∀ text, value = some text → (Json.str text).length ≤ n) :
    ((optional key value).map Json.memberSize).sum ≤ (Json.str key).length + n + 2 := by
  cases value with
  | none => exact Nat.zero_le _
  | some text =>
      have := h text rfl
      show (Json.str key).length + (Json.str text).length + 2 + 0 ≤ _
      omega

theorem optional_id_size (key : String) (id : Option Uuid) :
    ((optional key (id.map hyphenated)).map Json.memberSize).sum ≤ (Json.str key).length + 220 := by
  apply optional_size
  intro text htext
  obtain ⟨id, -, rfl⟩ := Option.map_eq_some_iff.mp htext
  exact hyphenated_length id

theorem memberKeys_length : (Json.str "seq").length = 5 ∧ (Json.str "instance_id").length = 13 ∧
    (Json.str "timestamp").length = 11 ∧ (Json.str "event").length = 7 ∧
    (Json.str "workflow_id").length = 13 ∧ (Json.str "session_id").length = 12 ∧
    (Json.str "request_id").length = 12 ∧ (Json.str "project").length = 9 ∧
    (Json.str "data").length = 6 := by decide +kernel

theorem dataKeys_length : (Json.str "text").length = 6 ∧ (Json.str "input_id").length = 10 ∧
    (Json.str "sync_id").length = 9 ∧ (Json.str "parent_request_id").length = 19 ∧
    (Json.str "byte_offset").length = 13 ∧ (Json.str "byte_length").length = 13 ∧
    (Json.str "total_bytes").length = 13 := by decide +kernel

/-- Beyond its data an event has few bytes, whatever its ids and its number. -/
theorem Event.json_length_le {timeText : Int → String} (htime : ∀ t, (timeText t).utf8ByteSize ≤ 35)
    {e : Event} (hseq : e.seq < 2 ^ 64) (hkind : e.event.utf8ByteSize ≤ 20)
    (hproject : ∀ project, e.project = some project → project.utf8ByteSize ≤ 64) :
    (e.json timeText).length ≤ e.data.weight + 2000 := by
  have hseqs : (Json.nat e.seq).length ≤ 20 := Json.nat_length_le (by decide) (by omega)
  have hinstance := hyphenated_length e.instanceId
  have htimes := Json.str_length_le (timeText e.timestamp)
  have hkinds := Json.str_length_le e.event
  have hworkflow := optional_id_size "workflow_id" e.workflowId
  have hsession := optional_id_size "session_id" e.sessionId
  have hrequest := optional_id_size "request_id" e.requestId
  have hprojects : ((optional "project" e.project).map Json.memberSize).sum ≤
      (Json.str "project").length + 386 + 2 := by
    apply optional_size
    intro text htext
    have hsize := hproject text htext
    have := Json.str_length_le text
    omega
  have hdata := e.data.json_length_le
  have htime' := htime e.timestamp
  have hkeys := memberKeys_length
  apply Nat.le_trans (Json.object_length_le (e.members timeText))
  simp only [members, List.map_append, List.sum_append, List.map_cons, List.map_nil, List.sum_cons,
    List.sum_nil, Json.memberSize]
  omega

end Sizes

/-! ## Every text fits -/

section Fits

variable {timeText : Int → String} {input : Option Uuid} {offset n : Nat} {chunk : Text}

theorem fieldSize_num (key : String) {n : Nat} (h : n < 2 ^ 64) :
    fieldSize (key, .num n) ≤ (Json.str key).length + 22 := by
  have : (Json.int n).length ≤ 20 := Json.int_ofNat_length_le (by decide) (by omega)
  show (Json.str key).length + (Json.int n).length + 2 ≤ _
  omega

theorem textData_weight (h : offset < 2 ^ 64) : (textData offset input).weight ≤ 265 := by
  have hoffset := fieldSize_num "byte_offset" h
  have hkeys := dataKeys_length
  cases input with
  | none =>
      show fieldSize ("byte_offset", .num offset) + 0 ≤ 265
      omega
  | some id =>
      have hid := hyphenated_length id
      have hinput : fieldSize ("input_id", .uuid id) =
          (Json.str "input_id").length + (Json.str (hyphenated id)).length + 2 := rfl
      show fieldSize ("byte_offset", .num offset) + (fieldSize ("input_id", .uuid id) + 0) ≤ 265
      omega

theorem fieldSize_text {text : String} (h : text.utf8ByteSize ≤ textChunk) :
    fieldSize ("text", .text text) ≤ 24586 := by
  have := Json.str_length_le text
  have hkey := dataKeys_length.1
  unfold textChunk at h
  show (Json.str "text").length + (Json.str text).length + 2 ≤ _
  omega

theorem new_weight {ctx : Context} {now : Int} {kind : String} {workflow session : Option Uuid}
    {project : Option String} {data : Value} :
    (Event.new ctx now kind workflow session project data).data.weight ≤ data.weight + 468 := by
  have hsync := data.setId_weight "sync_id" ctx.syncId
  have hparent := (data.setId "sync_id" ctx.syncId).setId_weight "parent_request_id" ctx.parentRequestId
  have hkeys := dataKeys_length
  show ((data.setId "sync_id" ctx.syncId).setId "parent_request_id" ctx.parentRequestId).weight ≤ _
  omega

theorem correlated_weight (e : Event) (ctx : Context) :
    (e.correlated ctx).data.weight ≤ e.data.weight + 239 := by
  have hremove := e.data.remove_weight "parent_request_id"
  have hparent := (e.data.remove "parent_request_id").setId_weight "parent_request_id" ctx.parentRequestId
  have hkeys := dataKeys_length
  show ((e.data.remove "parent_request_id").setId "parent_request_id" ctx.parentRequestId).weight ≤ _
  omega

/-- The events of a text, as they are recorded: as they are, or with another context. -/
def Recorded (events : List Event) (e : Event) : Prop :=
  ∃ e' ∈ events, e = e' ∨ ∃ ctx, e = e'.correlated ctx

/-- An event of a small project with not too much data is not too large, whatever number
    and instance it gets. -/
def Event.Small (e : Event) : Prop :=
  e.event.utf8ByteSize ≤ 20 ∧ (∀ project, e.project = some project → project.utf8ByteSize ≤ 64) ∧
    e.data.weight ≤ 30000

theorem Event.Small.fits {e : Event} (h : e.Small) (htime : ∀ t, (timeText t).utf8ByteSize ≤ 35)
    {seq : Nat} (hseq : seq < 2 ^ 64) (instanceId : Uuid) :
    ({ e with seq := seq, instanceId := instanceId }.json timeText).length + 1 ≤ eventLimit := by
  have hlength := Event.json_length_le htime (e := { e with seq := seq, instanceId := instanceId })
    hseq h.1 h.2.1
  have hweight := h.2.2
  unfold eventLimit
  dsimp only at hlength
  omega

theorem small_of_recorded {events : List Event}
    (h : ∀ e ∈ events, e.event.utf8ByteSize ≤ 20 ∧
      (∀ project, e.project = some project → project.utf8ByteSize ≤ 64) ∧ e.data.weight ≤ 29000)
    {e : Event} (hrecorded : Recorded events e) : e.Small := by
  obtain ⟨e', hmem, rfl | ⟨ctx, rfl⟩⟩ := hrecorded
  · obtain ⟨hkind, hproject, hweight⟩ := h e hmem
    exact ⟨hkind, hproject, by omega⟩
  · obtain ⟨hkind, hproject, hweight⟩ := h e' hmem
    have := correlated_weight e' ctx
    exact ⟨hkind, hproject, by omega⟩

/-- `enqueue` numbers all of a batch of events that are not too large. -/
theorem stamp_small {cd : Codec} {instanceId : Uuid} {next : Nat} {batch : List Event}
    (htime : ∀ t, (timeText t).utf8ByteSize ≤ 35) (hsmall : ∀ e ∈ batch, e.Small)
    (hnext : next + batch.length < 2 ^ 64)
    (hcd : ∀ e ∈ (stamp cd instanceId next batch).1, cd.toVec e = e.json timeText) :
    (stamp cd instanceId next batch).2.2 = false := by
  induction batch generalizing next with
  | nil => rfl
  | cons e rest ih =>
      rw [List.length_cons] at hnext
      have hfirst : e.numbered instanceId (next + 1) ∈ (stamp cd instanceId next (e :: rest)).1 := by
        rw [stamp]
        dsimp only
        split <;> exact List.mem_cons_self ..
      have hfits : (cd.toVec (e.numbered instanceId (next + 1))).length + 1 ≤ eventLimit := by
        rw [hcd _ hfirst]
        exact (hsmall e (List.mem_cons_self ..)).fits htime (by omega) _
      have hstamp : stamp cd instanceId next (e :: rest) =
          (e.numbered instanceId (next + 1) :: (stamp cd instanceId (next + 1) rest).1,
            (stamp cd instanceId (next + 1) rest).2) := by
        rw [stamp]
        exact if_neg (by omega)
      rw [hstamp] at hcd ⊢
      apply ih (fun e he => hsmall e (List.mem_cons_of_mem _ he)) (by omega)
      exact fun e he => hcd e (List.mem_cons_of_mem _ he)

theorem project_size {project : String} (h : Sync.validateProjectName project = .ok ()) :
    project.utf8ByteSize ≤ 64 := by
  unfold Sync.validateProjectName at h
  split at h
  · cases h
  · rename_i hvalid
    simp only [Bool.or_eq_true, decide_eq_true_eq, not_or] at hvalid
    omega

theorem Split.fields_weight (s : Split) (chunk : Text) (offset : Nat) (htotal : s.total < 2 ^ 64)
    (hoffset : offset < 2 ^ 64) (hmax : byteLength chunk ≤ textChunk) :
    (s.fields chunk offset (byteLength chunk)).weight ≤ s.data.weight + 24691 := by
  have hsize : (String.ofList chunk).utf8ByteSize ≤ textChunk := by
    rw [Json.utf8ByteSize_ofList]
    exact hmax
  have htext := fieldSize_text hsize
  have hoffsets := fieldSize_num "byte_offset" hoffset
  have hlengths := fieldSize_num "byte_length" (Nat.lt_of_le_of_lt hmax (show textChunk < 2 ^ 64 by decide))
  have htotals := fieldSize_num "total_bytes" htotal
  have hkeys := dataKeys_length
  unfold Split.fields
  -- one member after the other
  apply Nat.le_trans (Value.set_weight ..)
  have h₁ := (s.data.set "text" (.text (String.ofList chunk))).set_weight
    "byte_offset" (.num offset)
  have h₂ := ((s.data.set "text" (.text (String.ofList chunk))).set "byte_offset" (.num offset)).set_weight
    "byte_length" (.num (byteLength chunk))
  have h₃ := s.data.set_weight "text" (.text (String.ofList chunk))
  omega

/-- The events of a text, each with its place in the text. -/
theorem text_events_split {kind : String}
    (hkind : kind = outputKind ∨ kind = stdinIntent) {project : String}
    (hproject : Sync.validateProjectName project = .ok ()) {text : Text}
    (hoffset : offset + byteLength text < 2 ^ 64) (input : Option Uuid) (ctx : Context)
    (clock : Nat → Int) (workflow : Option Uuid) (session : Uuid) : ∃ events : List Event,
    (∀ fuel, byteLength text ≤ fuel → textEvents fuel ctx clock kind workflow session project text
      (textData offset input) = some events) ∧
    (events.map Event.text).flatten = text ∧
    (∀ i e, events[i]? = some e →
      e.offset = offset + byteLength ((events.map Event.text).take i).flatten ∧
      isCharBoundary text (e.offset - offset) = true ∧
      e.byteLength = byteLength e.text ∧ (text ≠ [] → 1 ≤ e.byteLength ∧ e.byteLength ≤ textChunk) ∧
      e.event = if kind = stdinIntent ∧ 0 < i then stdinChunk else kind) ∧
    ∀ e ∈ events, e.event.utf8ByteSize ≤ 20 ∧
      (∀ project, e.project = some project → project.utf8ByteSize ≤ 64) ∧ e.data.weight ≤ 29000 := by
  have hobject : (textData offset input).isObject = true := rfl
  have hget : (textData offset input).get "byte_offset" = some (.num offset) := by
    simp [textData, Value.get]
  have hkinds : ∀ i, (if kind = stdinIntent ∧ 0 < i then stdinChunk else kind).utf8ByteSize ≤ 20 := by
    intro i
    split
    · decide
    · obtain rfl | rfl := hkind <;> decide
  have hprojects : ∀ p, some project = some p → p.utf8ByteSize ≤ 64 := by
    rintro p heq
    cases heq
    exact project_size hproject
  have hdata : (textData offset input).weight ≤ 265 := textData_weight (by omega)
  let s : Split := ⟨ctx, clock, kind, workflow, session, project, textData offset input, byteLength text⟩
  by_cases hempty : text = []
  · -- one event that says so
    subst hempty
    let data := ((textData offset input).set "text" (.text "")).set "byte_length" (.num 0)
    have hreads : ∀ key, key ≠ "sync_id" → key ≠ "parent_request_id" →
        (s.new 0 kind data).data.get key = data.get key := by
      intro key hsync hparent
      show (Value.setId (Value.setId _ _ _) _ _).get key = _
      rw [Value.get_setId_ne hparent, Value.get_setId_ne hsync]
    have htext : (s.new 0 kind data).text = [] := by
      rw [Event.text, hreads _ (by decide) (by decide), Value.get_set_ne (by decide),
        Value.get_set_self hobject]
      rfl
    have hoffsets : (s.new 0 kind data).offset = offset := by
      have hfield : (s.new 0 kind data).data.get "byte_offset" = some (.num offset) := by
        rw [hreads _ (by decide) (by decide), Value.get_set_ne (by decide),
          Value.get_set_ne (by decide), hget]
      rw [Event.offset, Value.asU64_eq hfield, Option.getD_some]
    have hlength : (s.new 0 kind data).byteLength = 0 := by
      have hfield : (s.new 0 kind data).data.get "byte_length" = some (.num (0 : Nat)) := by
        rw [hreads _ (by decide) (by decide), Value.get_set_self (by rw [Value.isObject_set, hobject])]
        rfl
      rw [Event.byteLength, Value.asU64_eq hfield, Option.getD_some]
    refine ⟨[s.new 0 kind data], fun fuel _ => rfl, ?_, fun i e he => ?_, fun e he => ?_⟩
    · simp [htext]
    · cases i with
      | zero =>
          cases he
          rw [hoffsets, hlength, htext]
          refine ⟨rfl, ?_, rfl, fun h => absurd rfl h, ?_⟩
          · rw [Nat.sub_self]
            rfl
          · exact (if_neg fun h => Nat.lt_irrefl _ h.2).symm
      | succ i => cases he
    · obtain rfl := List.mem_singleton.mp he
      refine ⟨?_, hprojects, ?_⟩
      · have hfirst := hkinds 0
        rwa [if_neg fun h => Nat.lt_irrefl _ h.2] at hfirst
      · have hnew : (s.new 0 kind data).data.weight ≤ data.weight + 468 := new_weight
        have hset := ((textData offset input).set "text" (.text "")).set_weight
          "byte_length" (.num (0 : Nat))
        have hset' := (textData offset input).set_weight "text" (.text "")
        have htexts := fieldSize_text (show "".utf8ByteSize ≤ textChunk by decide)
        have hlengths := fieldSize_num "byte_length" (show 0 < 2 ^ 64 by decide)
        have hkeys := dataKeys_length
        have hdata' : data.weight ≤ ((textData offset input).set "text" (.text "")).weight +
          fieldSize ("byte_length", .num (0 : Nat)) := hset
        omega
  · obtain ⟨chunks, hflatten, hchunks, hloop⟩ := s.loop_spec text offset []
    have htexts : (s.chunkEvents 0 offset chunks).map Event.text = chunks := by
      apply List.ext_getElem?
      intro i
      rw [List.getElem?_map, s.getElem?_chunkEvents]
      cases chunks[i]? with
      | none => rfl
      | some chunk =>
          rw [Option.map_some, Option.map_some, (s.chunkEvent_reads _ _ _ hobject).1]
    refine ⟨s.chunkEvents 0 offset chunks, fun fuel hfuel => ?_, ?_, fun i e he => ?_, fun e he => ?_⟩
    · unfold textEvents
      rw [if_neg hempty, Value.asU64_eq hget]
      exact hloop fuel hfuel
    · rw [htexts, hflatten]
    · rw [s.getElem?_chunkEvents] at he
      obtain ⟨chunk, hchunk, rfl⟩ := Option.map_eq_some_iff.mp he
      obtain ⟨htext, hoffsets, hlength⟩ := s.chunkEvent_reads (0 + i)
        (offset + byteLength (chunks.take i).flatten) chunk hobject
      rw [htexts, htext, hoffsets, hlength]
      refine ⟨rfl, ?_, rfl, fun _ => hchunks chunk (List.mem_of_getElem? hchunk), ?_⟩
      · have hsplit : text = (chunks.take i).flatten ++ (chunks.drop i).flatten := by
          rw [← List.flatten_append, List.take_append_drop, hflatten]
        rw [Nat.add_sub_cancel_left, hsplit]
        exact isCharBoundary_append _ _
      · rw [Nat.zero_add]
        rfl
    · obtain ⟨i, chunk, hmem, rfl⟩ := s.mem_chunkEvents he
      refine ⟨hkinds (0 + i), hprojects, ?_⟩
      have hbefore : byteLength (chunks.take i).flatten ≤ byteLength text := by
        have happend := congrArg byteLength
          (List.flatten_append : (chunks.take i ++ chunks.drop i).flatten = _)
        rw [List.take_append_drop, hflatten, byteLength_append] at happend
        omega
      have hfields := s.fields_weight chunk (offset + byteLength (chunks.take i).flatten)
        (show byteLength text < 2 ^ 64 by omega) (by omega) (hchunks chunk hmem).2
      have hnew : (s.chunkEvent (0 + i) (offset + byteLength (chunks.take i).flatten) chunk).data.weight ≤
          (s.fields chunk (offset + byteLength (chunks.take i).flatten) (byteLength chunk)).weight + 468 :=
        new_weight
      have hbase : s.data.weight ≤ 265 := hdata
      omega

/-- Whatever the text, its events carry it in order, cut between characters, and none of
    them is too large for the queue. -/
theorem text_events_fit (timeText : Int → String) (htime : ∀ t, (timeText t).utf8ByteSize ≤ 35)
    (kind : String) (hkind : kind = outputKind ∨ kind = stdinIntent) (project : String)
    (hproject : Sync.validateProjectName project = .ok ()) (text : Text) (offset : Nat)
    (hoffset : offset + byteLength text < 2 ^ 64) (input : Option Uuid) (ctx : Context)
    (clock : Nat → Int) (workflow : Option Uuid) (session : Uuid) : ∃ events : List Event,
    (∀ fuel, byteLength text ≤ fuel → textEvents fuel ctx clock kind workflow session project text
      (textData offset input) = some events) ∧
    (events.map Event.text).flatten = text ∧
    (∀ i e, events[i]? = some e →
      e.offset = offset + byteLength ((events.map Event.text).take i).flatten ∧
      isCharBoundary text (e.offset - offset) = true ∧
      e.byteLength = byteLength e.text ∧ (text ≠ [] → 1 ≤ e.byteLength ∧ e.byteLength ≤ textChunk) ∧
      e.event = if kind = stdinIntent ∧ 0 < i then stdinChunk else kind) ∧
    (∀ e, Recorded events e → ∀ seq < 2 ^ 64, ∀ instanceId,
      ({ e with seq := seq, instanceId := instanceId }.json timeText).length + 1 ≤ eventLimit) ∧
    ∀ batch, (∀ e ∈ batch, Recorded events e) → ∀ cd instanceId next,
      next + batch.length < 2 ^ 64 →
      (∀ e ∈ (stamp cd instanceId next batch).1, cd.toVec e = e.json timeText) →
      (stamp cd instanceId next batch).2.2 = false := by
  obtain ⟨events, hrun, htext, hplaces, hsizes⟩ := text_events_split hkind hproject hoffset input ctx
    clock workflow session
  refine ⟨events, hrun, htext, hplaces, fun e he seq hseq instanceId => ?_,
    fun batch hbatch cd instanceId next hnext hcd => ?_⟩
  · exact (small_of_recorded hsizes he).fits htime hseq instanceId
  · exact stamp_small htime (fun e he => small_of_recorded hsizes (hbatch e he)) hnext hcd

/-- A text that takes two events. -/
theorem text_events_fit_sample : ∃ events : List Event,
    (∀ fuel, 4098 ≤ fuel → textEvents fuel {} (fun _ => 0) stdinIntent none 5 "demo"
      (List.replicate 2049 'é') (textData 0 (some 7)) = some events) ∧
    (events.map Event.text).flatten = List.replicate 2049 'é' := by
  have hlength : byteLength (List.replicate 2049 'é') = 4098 := by
    rw [byteLength, List.map_replicate, List.sum_replicate]
    rfl
  obtain ⟨events, hrun, htext, -⟩ := text_events_fit (fun _ => "1970-01-01T00:00:00Z")
    (fun _ => by decide) stdinIntent (.inr rfl) "demo" (by decide +kernel)
    (List.replicate 2049 'é') 0 (by rw [hlength]; decide) (some 7) {}
    (fun _ => 0) none 5
  exact ⟨events, fun fuel hfuel => hrun fuel (hlength ▸ hfuel), htext⟩

end Fits

end VivadoServer.History
