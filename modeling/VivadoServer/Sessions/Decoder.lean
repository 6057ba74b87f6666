/-
  VivadoServer.Sessions.Decoder

  The streaming UTF-8 decoder of the terminal's output (`Utf8StreamDecoder` in
  `src/session/output.rs`).  `fromUtf8` is `std::str::from_utf8`: it gives the
  valid text at the front of some bytes and, where that is not all of them, how
  many bytes of the rest are invalid for certain (`none` when more bytes could
  still complete a character).
-/

import VivadoServer.Sessions.Model

namespace VivadoServer.Sessions

/-- What stands at the front of some bytes. -/
inductive Scan where
  | char (c : Char) (length : Nat)
  | invalid (length : Nat)
  | incomplete
deriving DecidableEq, Repr

namespace Utf8

def isContinuation (b : UInt8) : Bool := 0x80 ≤ b.toNat && b.toNat ≤ 0xbf

/-- The six payload bits of a continuation byte. -/
def low (b : UInt8) : Nat := b.toNat % 64

/-- How many bytes the character starting with this byte has, if one can. -/
def width (b : UInt8) : Nat :=
  let n := b.toNat
  if n < 0x80 then 1
  else if 0xc2 ≤ n ∧ n ≤ 0xdf then 2
  else if 0xe0 ≤ n ∧ n ≤ 0xef then 3
  else if 0xf0 ≤ n ∧ n ≤ 0xf4 then 4
  else 0

/-- The second byte of a longer character: no overlong form, no surrogate, and
    nothing above the last scalar value. -/
def isSecond (first second : UInt8) : Bool :=
  let n := second.toNat
  match first.toNat with
  | 0xe0 => 0xa0 ≤ n && n ≤ 0xbf
  | 0xed => 0x80 ≤ n && n ≤ 0x9f
  | 0xf0 => 0x90 ≤ n && n ≤ 0xbf
  | 0xf4 => 0x80 ≤ n && n ≤ 0x8f
  | _ => isContinuation second

/-- One round of the validation loop of `from_utf8`. -/
def scan : List UInt8 → Scan
  | [] => .incomplete
  | first :: rest =>
    match width first with
    | 1 => .char (Char.ofNat first.toNat) 1
    | 2 =>
      match rest with
      | [] => .incomplete
      | b :: _ =>
        if isContinuation b then .char (Char.ofNat (first.toNat % 32 * 64 + low b)) 2
        else .invalid 1
    | 3 =>
      match rest with
      | [] => .incomplete
      | b :: rest =>
        if !isSecond first b then .invalid 1
        else match rest with
          | [] => .incomplete
          | c :: _ =>
            if isContinuation c then
              .char (Char.ofNat (first.toNat % 16 * 4096 + low b * 64 + low c)) 3
            else .invalid 2
    | 4 =>
      match rest with
      | [] => .incomplete
      | b :: rest =>
        if !isSecond first b then .invalid 1
        else match rest with
          | [] => .incomplete
          | c :: rest =>
            if !isContinuation c then .invalid 2
            else match rest with
              | [] => .incomplete
              | d :: _ =>
                if isContinuation d then
                  .char (Char.ofNat
                    (first.toNat % 8 * 262144 + low b * 4096 + low c * 64 + low d)) 4
                else .invalid 3
    | _ => .invalid 1

end Utf8

/-- `Utf8Error`: where the valid front ends, and `error_len`. -/
structure Utf8Error where
  validUpTo : Nat
  errorLen : Option Nat
deriving DecidableEq, Repr

/-- `std::str::from_utf8`: the valid front, and the error that ended it. -/
def fromUtf8 (bytes : List UInt8) : Text × Option Utf8Error :=
  go bytes.length bytes 0
where
  go : Nat → List UInt8 → Nat → Text × Option Utf8Error
    | _, [], _ => ([], none)
    | 0, _ :: _, at_ => ([], some ⟨at_, none⟩)
    | fuel + 1, bytes@(_ :: _), at_ =>
      match Utf8.scan bytes with
      | .char c length =>
        let (text, error) := go fuel (bytes.drop length) (at_ + length)
        (c :: text, error)
      | .invalid length => ([], some ⟨at_, some length⟩)
      | .incomplete => ([], some ⟨at_, none⟩)

def replacement : Char := Char.ofNat 0xfffd

/-- `String::from_utf8_lossy`: one replacement character for each piece that is not valid. -/
def fromUtf8Lossy (bytes : List UInt8) : Text :=
  go (bytes.length + 1) bytes
where
  go : Nat → List UInt8 → Text
    | 0, _ => []
    | fuel + 1, bytes =>
      match fromUtf8 bytes with
      | (text, none) => text
      | (text, some error) =>
        text ++ replacement :: (match error.errorLen with
          | none => []
          | some length => go fuel (bytes.drop (error.validUpTo + length)))

structure Utf8StreamDecoder where
  pending : List UInt8 := []
deriving DecidableEq, Repr

namespace Utf8StreamDecoder

/-- The loop of `push`: every round but the last drops at least one byte. -/
def decode : Nat → List UInt8 → Text × List UInt8
  | 0, pending => ([], pending)
  | fuel + 1, pending =>
    match fromUtf8 pending with
    | (text, none) => (text, [])
    | (text, some error) =>
      let pending := pending.drop error.validUpTo
      match error.errorLen with
      | none => (text, pending)
      | some length =>
        let (more, pending) := decode fuel (pending.drop length)
        (text ++ replacement :: more, pending)

def push (d : Utf8StreamDecoder) (bytes : List UInt8) : Utf8StreamDecoder × Text :=
  let pending := d.pending ++ bytes
  let (text, pending) := decode (pending.length + 1) pending
  ({ pending }, text)

/-- `String::from_utf8_lossy` of what is left: the bytes of one character cut
    short, or nothing. -/
def finish (d : Utf8StreamDecoder) : Text :=
  let (text, pending) := decode (d.pending.length + 1) d.pending
  text ++ if pending.isEmpty then [] else [replacement]

/-- The reads of a session one after the other, and the texts they gave. -/
def pushAll (d : Utf8StreamDecoder) : List (List UInt8) → Utf8StreamDecoder × Text
  | [] => (d, [])
  | bytes :: reads =>
    let (d, text) := d.push bytes
    let (d, more) := d.pushAll reads
    (d, text ++ more)

end Utf8StreamDecoder

/-- What a session shows of its output. -/
def decodeReads (reads : List (List UInt8)) : Text :=
  let (d, text) := Utf8StreamDecoder.pushAll {} reads
  text ++ d.finish

end VivadoServer.Sessions
