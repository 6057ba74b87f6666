/-
  VivadoServer.Lib.Utf8

  Lossy decoding of UTF-8 as Unicode describes it: the characters that are
  encoded stay, and each maximal subpart of what is not the encoding of anything
  becomes one replacement character.  The encoding of a character is the one of
  the standard library, and the decoding is a relation that gives one text.
-/

import Mathlib

namespace Utf8

open String (utf8EncodeChar)

/-! ## Encodings, byte by byte -/

section Encodings

variable {c : Char} {b : UInt8} {n : Nat}

theorem toNat_ofNat (h : n.isValidChar) : (Char.ofNat n).toNat = n := by
  rw [Char.ofNat, dif_pos h]
  rfl

theorem byte_eq (h : b.toNat = n) : UInt8.ofNat n = b := by
  rw [← h]
  exact UInt8.ofNat_toNat

theorem toNat_byte (h : n < 256) : (UInt8.ofNat n).toNat = n := Nat.mod_eq_of_lt h

theorem encode_one (h : c.toNat < 0x80) : utf8EncodeChar c = [UInt8.ofNat c.toNat] := by
  unfold String.utf8EncodeChar
  rw [Char.toNat_val, if_pos (by omega)]

theorem encode_two (h : 0x80 ≤ c.toNat) (h' : c.toNat < 0x800) :
    utf8EncodeChar c = [UInt8.ofNat (c.toNat / 64 + 0xc0), UInt8.ofNat (c.toNat % 64 + 0x80)] := by
  have hfirst : c.toNat / 64 % 32 = c.toNat / 64 := Nat.mod_eq_of_lt (by omega)
  unfold String.utf8EncodeChar
  rw [Char.toNat_val, if_neg (by omega), if_pos (by omega), hfirst]

theorem encode_three (h : 0x800 ≤ c.toNat) (h' : c.toNat < 0x10000) :
    utf8EncodeChar c = [UInt8.ofNat (c.toNat / 4096 + 0xe0),
      UInt8.ofNat (c.toNat / 64 % 64 + 0x80), UInt8.ofNat (c.toNat % 64 + 0x80)] := by
  have hfirst : c.toNat / 4096 % 16 = c.toNat / 4096 := Nat.mod_eq_of_lt (by omega)
  unfold String.utf8EncodeChar
  rw [Char.toNat_val, if_neg (by omega), if_neg (by omega), if_pos (by omega), hfirst]

theorem encode_four (h : 0x10000 ≤ c.toNat) :
    utf8EncodeChar c = [UInt8.ofNat (c.toNat / 262144 + 0xf0),
      UInt8.ofNat (c.toNat / 4096 % 64 + 0x80), UInt8.ofNat (c.toNat / 64 % 64 + 0x80),
      UInt8.ofNat (c.toNat % 64 + 0x80)] := by
  have hvalid : c.toNat < 0x110000 := by
    obtain hlow | hhigh := c.valid
    · exact Nat.lt_trans hlow (by decide)
    · exact hhigh.2
  have hfirst : c.toNat / 262144 % 8 = c.toNat / 262144 := Nat.mod_eq_of_lt (by omega)
  unfold String.utf8EncodeChar
  rw [Char.toNat_val, if_neg (by omega), if_neg (by omega), if_neg (by omega), hfirst]

/-- A character is no surrogate. -/
theorem toNat_valid (c : Char) : c.toNat < 0xd800 ∨ 0xdfff < c.toNat ∧ c.toNat < 0x110000 := c.valid

end Encodings

def replacement : Char := Char.ofNat 0xfffd

/-- Some character is encoded by bytes that start like these. -/
def Begins (bytes : List UInt8) : Prop := ∃ c, bytes <+: utf8EncodeChar c

/-- At the front of `part ++ rest`, where no character is encoded, `part` is the longest
    beginning of an encoding, or a single byte. -/
structure MaximalSubpart (part rest : List UInt8) : Prop where
  unencoded : ∀ c, ¬ utf8EncodeChar c <+: part ++ rest
  nonempty : part ≠ []
  begins : Begins part ∨ part.length = 1
  longest : ∀ longer, longer <+: part ++ rest → part.length < longer.length → ¬ Begins longer

/-- The bytes decode to the text. -/
inductive Lossy : List UInt8 → List Char → Prop
  | nil : Lossy [] []
  | char (c : Char) {rest : List UInt8} {text : List Char} (h : Lossy rest text) :
      Lossy (utf8EncodeChar c ++ rest) (c :: text)
  | replaced {part rest : List UInt8} {text : List Char} (hpart : MaximalSubpart part rest)
      (h : Lossy rest text) : Lossy (part ++ rest) (replacement :: text)

/-- No encoding starts with the encoding of another character. -/
theorem utf8EncodeChar_append_inj {c c' : Char} {rest rest' : List UInt8}
    (h : utf8EncodeChar c ++ rest = utf8EncodeChar c' ++ rest') : c = c' := by
  have hbytes : (utf8EncodeChar c).toByteArray ++ rest.toByteArray =
      (utf8EncodeChar c').toByteArray ++ rest'.toByteArray := by
    rw [← List.toByteArray_append, ← List.toByteArray_append, h]
  have hdecode : ByteArray.utf8DecodeChar? ((utf8EncodeChar c').toByteArray ++ rest'.toByteArray) 0
      = some c := by
    rw [← hbytes]
    exact ByteArray.utf8DecodeChar?_utf8EncodeChar_append
  rw [ByteArray.utf8DecodeChar?_utf8EncodeChar_append] at hdecode
  exact (Option.some.inj hdecode).symm

/-- There is one maximal subpart: a longer one would contradict that this one is the
    longest, or be no beginning of an encoding. -/
theorem MaximalSubpart.unique {part rest part' rest' : List UInt8} (h : MaximalSubpart part rest)
    (h' : MaximalSubpart part' rest') (heq : part ++ rest = part' ++ rest') : part = part' := by
  -- of two of them, neither is longer
  have hle : ∀ {p r p' r' : List UInt8}, MaximalSubpart p r → MaximalSubpart p' r' →
      p ++ r = p' ++ r' → p'.length ≤ p.length := by
    intro p r p' r' hp hp' heq
    by_contra hlt
    have hpre : p' <+: p ++ r := by
      rw [heq]
      exact List.prefix_append p' r'
    obtain hbegins | hone := hp'.begins
    · exact hp.longest p' hpre (Nat.lt_of_not_le hlt) hbegins
    · have hpos : 0 < p.length := List.length_pos_iff.mpr hp.nonempty
      omega
  have hlength : part.length = part'.length :=
    Nat.le_antisymm (hle h' h heq.symm) (hle h h' heq)
  exact (List.append_inj heq hlength).1

/-- The bytes decode to one text only. -/
theorem Lossy.unique {bytes : List UInt8} {text text' : List Char} (h : Lossy bytes text)
    (h' : Lossy bytes text') : text = text' := by
  induction h generalizing text' with
  | nil =>
      generalize hbytes : ([] : List UInt8) = bytes at h'
      cases h' with
      | nil => rfl
      | char c => exact absurd (List.append_eq_nil_iff.mp hbytes.symm).1 String.utf8EncodeChar_ne_nil
      | replaced hpart => exact absurd (List.append_eq_nil_iff.mp hbytes.symm).1 hpart.nonempty
  | @char c rest text _ ih =>
      generalize hbytes : utf8EncodeChar c ++ rest = bytes at h'
      cases h' with
      | nil => exact absurd (List.append_eq_nil_iff.mp hbytes).1 String.utf8EncodeChar_ne_nil
      | char c' hrest =>
          obtain rfl := utf8EncodeChar_append_inj hbytes
          rw [ih (List.append_cancel_left hbytes ▸ hrest)]
      | replaced hpart =>
          exact absurd ⟨rest, hbytes⟩ (hpart.unencoded c)
  | @replaced part rest text hpart _ ih =>
      generalize hbytes : part ++ rest = bytes at h'
      cases h' with
      | nil => exact absurd (List.append_eq_nil_iff.mp hbytes).1 hpart.nonempty
      | char c' => exact absurd ⟨_, hbytes.symm⟩ (hpart.unencoded c')
      | replaced hpart' hrest =>
          obtain rfl := hpart.unique hpart' hbytes
          rw [ih (List.append_cancel_left hbytes ▸ hrest)]

end Utf8
