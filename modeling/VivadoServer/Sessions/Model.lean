/-
  VivadoServer.Sessions.Model

  The data of a Vivado session (`src/session/model.rs`) and the operating
  system errors its supervisor reads.  Texts are lists of Unicode scalar values,
  which is what a Rust `str` holds; instants are milliseconds of the monotonic
  clock.
-/

import VivadoServer.History.Model

namespace VivadoServer.Sessions

open VivadoServer.History (Uuid)

abbrev Text := List Char

abbrev Instant := Nat

/-- `text.len()`: the number of UTF-8 bytes. -/
def byteLength (text : Text) : Nat := (text.map Char.utf8Size).sum

inductive SessionStatus where
  | running
  | stopping
  | exited
  | terminated
  | failed
deriving DecidableEq, Repr

def SessionStatus.isTerminal : SessionStatus → Bool
  | .exited | .terminated | .failed => true
  | .running | .stopping => false

inductive TerminationReason where
  | processExited
  | clientRequested
  | heartbeatTimeout
  | serviceShutdown
  | outputReadFailed
  | processWaitFailed
  | processStartFailed
  | inputWriteFailed
  | workflowClosed
deriving DecidableEq, Repr

structure OutputChunk where
  seq : Nat
  timestamp : Instant
  text : Text
deriving DecidableEq, Repr

structure OutputResponse where
  cursor : Nat
  chunks : List OutputChunk
  status : SessionStatus
  overrun : Bool
  outputTruncated : Bool
deriving DecidableEq, Repr

/-- The part of `SessionInfo` that changes while the session lives. -/
structure SessionInfo where
  status : SessionStatus := .running
  exitCode : Option Int := none
  terminationReason : Option TerminationReason := none
  outputTruncated : Bool := false
  cleanupError : Option String := none
deriving DecidableEq, Repr

/-- The concatenated texts of some chunks. -/
def joined (chunks : List OutputChunk) : Text := (chunks.map (·.text)).flatten

@[simp] theorem joined_nil : joined [] = [] := rfl

@[simp] theorem joined_append (xs ys : List OutputChunk) :
    joined (xs ++ ys) = joined xs ++ joined ys := by
  simp only [joined, List.map_append, List.flatten_append]

@[simp] theorem byteLength_nil : byteLength [] = 0 := rfl

@[simp] theorem byteLength_cons (c : Char) (text : Text) :
    byteLength (c :: text) = c.utf8Size + byteLength text := rfl

end VivadoServer.Sessions
