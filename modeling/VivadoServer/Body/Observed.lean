/-
  VivadoServer.Body.Observed

  What is recorded of a response body (`observe` and `ObservedBody` of `src/body.rs`)
  and of a download (`ObservedDownload` of `src/sync/observability.rs`).  Both record
  one outcome, as early as the declared length is reached: the transport may not poll
  again after that.

  A consumption is the list of the answers of the inner body; the body is dropped after
  the last of them.
-/

import VivadoServer.Body.Held

namespace VivadoServer.Body

def u64Max : Nat := 2 ^ 64 - 1

/-! ## A download -/

/-- What a finished download leaves in the history. -/
structure DownloadRecord where
  outcome : String
  bytes : Nat
  expectedBytes : Nat
deriving DecidableEq, Repr

structure ObservedDownload where
  expectedBytes : Nat
  bytes : Nat
  finished : Bool
  records : List DownloadRecord
deriving DecidableEq, Repr

namespace ObservedDownload

def new (expectedBytes : Nat) : ObservedDownload where
  expectedBytes := expectedBytes
  bytes := 0
  finished := false
  records := []

def finish (outcome : String) (o : ObservedDownload) : ObservedDownload :=
  if o.finished then o
  else { o with finished := true, records := o.records ++ [⟨outcome, o.bytes, o.expectedBytes⟩] }

def drop (o : ObservedDownload) : ObservedDownload :=
  o.finish (if o.expectedBytes = o.bytes then "success" else "cancelled")

end ObservedDownload

/-! ## A response body -/

/-- What a finished response leaves in the metrics and the log. -/
structure HttpRecord where
  outcome : String
  bytes : Nat
  errorCode : Option String
  diagnostic : Option String
deriving DecidableEq, Repr

structure HttpObservation where
  bytes : Nat
  errorCode : Option String
  diagnostic : Option String
  finished : Bool
  records : List HttpRecord
deriving DecidableEq, Repr

namespace HttpObservation

def new : HttpObservation where
  bytes := 0
  errorCode := none
  diagnostic := none
  finished := false
  records := []

def addBytes (bytes : Nat) (o : HttpObservation) : HttpObservation := { o with bytes := o.bytes + bytes }

def finish (outcome : String) (o : HttpObservation) : HttpObservation :=
  if o.finished then o
  else { o with
    finished := true
    records := o.records ++ [⟨outcome, o.bytes, o.errorCode, o.diagnostic⟩] }

def bodyFailed (error : String) (o : HttpObservation) : HttpObservation :=
  { o with
    errorCode := some "response_body_error"
    diagnostic := some (String.ofList (error.toList.take 4096)) }.finish "body_error"

def drop (o : HttpObservation) : HttpObservation := o.finish "aborted"

end HttpObservation

structure ObservedBody where
  observation : HttpObservation
  remaining : Option Nat
deriving DecidableEq, Repr

namespace ObservedBody

/-- The bytes of a frame, against what remains of the declared length. -/
def count (length : Nat) (b : ObservedBody) : ObservedBody :=
  let observation := b.observation.addBytes length
  match b.remaining with
  | some remaining => {
      observation := if remaining < length then
          observation.bodyFailed "response body exceeded its declared length"
        else observation
      remaining := some (remaining - length) }
  | none => { b with observation := observation }

end ObservedBody

/-- `observe`: the observation is over at once, or it goes on with the body. -/
def observe (expectedLength sizeHint : Option Nat) (isEndStream : Bool)
    (observation : HttpObservation) : HttpObservation ⊕ ObservedBody :=
  let expectedLength := expectedLength.or sizeHint
  if expectedLength = some 0 then .inl (observation.finish "complete")
  else if isEndStream then
    .inl (if expectedLength.any (0 < ·) then
      observation.bodyFailed "response body ended before its declared length"
    else observation.finish "complete")
  else .inr { observation := observation, remaining := expectedLength }

def Poll.length : Poll → Nat
  | .frame (.data bytes) => bytes.length
  | _ => 0

/-- The data bytes that were yielded. -/
def total (results : List Poll) : Nat := (results.map Poll.length).sum

/-- Frames, and polls that had to wait. -/
def Plain (results : List Poll) : Prop := ∀ r ∈ results, r ≠ .eof ∧ r.isError = false

section Bytes

variable {before n : Nat} {r : Poll} {results : List Poll}

end Bytes

/-! ## What a download records -/

namespace ObservedDownload

/-- The bytes after an answer. -/
def counted (bytes : Nat) : Poll → Nat
  | .frame (.data data) => min (bytes + data.length) u64Max
  | _ => bytes

/-- The outcome that an answer decides, with the bytes after it. -/
def decides (expectedBytes bytes : Nat) : Poll → Option String
  | .frame (.data _) => if bytes = expectedBytes then some "success" else none
  | .error _ => some "error"
  | .eof => some (if bytes = expectedBytes then "success" else "error")
  | _ => none

/-- The outcome of a download that is not finished after `bytes` of them. -/
def outcomeFrom (expectedBytes bytes : Nat) : List Poll → String
  | [] => if expectedBytes = bytes then "success" else "cancelled"
  | r :: rest => match decides expectedBytes (counted bytes r) r with
    | some outcome => outcome
    | none => outcomeFrom expectedBytes (counted bytes r) rest

section Download

variable {o : ObservedDownload} {outcome : String} {n bytes : Nat} {r : Poll} {results : List Poll}

end Download

end ObservedDownload

/-! ## What a response records -/

namespace HttpObservation

variable {o : HttpObservation} {outcome error : String} {bytes : Nat}

/-- Whatever ends an observation first, it records one outcome. -/
def Ends (o : HttpObservation) (outcome : String) (o' : HttpObservation) : Prop :=
  o'.finished = true ∧ o'.records.map (·.outcome) = o.records.map (·.outcome) ++ [outcome]

end HttpObservation

namespace ObservedBody

/-- The outcome of a response of which this much remains, and not nothing. -/
def outcomeFrom (remaining : Nat) : List (Poll × Bool) → String
  | [] => "aborted"
  | (.frame (.data data), isEnd) :: rest =>
    if remaining < data.length then "body_error"
    else if remaining = data.length then "complete"
    else if isEnd then "body_error"
    else outcomeFrom (remaining - data.length) rest
  | (.frame .trailers, isEnd) :: rest => if isEnd then "body_error" else outcomeFrom remaining rest
  | (.pending, _) :: rest => outcomeFrom remaining rest
  | _ :: _ => "body_error"

section Body

variable {b : ObservedBody} {answers : List (Poll × Bool)} {answer : Poll × Bool} {n : Nat}

/-- Frames and waits, and then the end: with the last frame, or after it. -/
def Ends (answers : List (Poll × Bool)) : Prop := ∃ body last, answers = body ++ [last] ∧
  (∀ a ∈ body, a.1 ≠ .eof ∧ a.1.isError = false ∧ a.2 = false) ∧
  (last.1 = .eof ∨ (∃ frame, last.1 = .frame frame) ∧ last.2 = true)

end Body

end ObservedBody

/-! ## The outcome of a transfer -/

section Outcomes

variable {n : Nat} {hint : Option Nat} {isEnd : Bool} {answers : List (Poll × Bool)}
  {results : List Poll}

end Outcomes

end VivadoServer.Body
