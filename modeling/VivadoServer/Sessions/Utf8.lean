/-
  VivadoServer.Sessions.Utf8

  How a session's output is decoded does not depend on how it was read.  One round
  of the validation (`scan`) finds the character that is encoded at the front, or
  the maximal subpart of something else, or waits for bytes that may complete a
  character.  What it found it finds again when more bytes follow, so the rounds
  over the reads are the rounds over the whole.
-/

import VivadoServer.Lib.Utf8
import VivadoServer.Sessions.Decoder

namespace VivadoServer.Sessions

open String (utf8EncodeChar)

section Scan

variable {c : Char} {a b : UInt8} {bytes more : List UInt8} {n m : Nat}

/-! ## Classes of bytes -/

theorem isContinuation_iff : Utf8.isContinuation b = true ↔ 0x80 ≤ b.toNat ∧ b.toNat ≤ 0xbf := by
  simp [Utf8.isContinuation]

/-- The width of a first byte, by its value. -/
theorem width_eq (a : UInt8) :
    (Utf8.width a = 1 ∧ a.toNat < 0x80) ∨ (Utf8.width a = 2 ∧ 0xc2 ≤ a.toNat ∧ a.toNat ≤ 0xdf) ∨
      (Utf8.width a = 3 ∧ 0xe0 ≤ a.toNat ∧ a.toNat ≤ 0xef) ∨
      (Utf8.width a = 4 ∧ 0xf0 ≤ a.toNat ∧ a.toNat ≤ 0xf4) ∨
      (Utf8.width a = 0 ∧ 0x80 ≤ a.toNat ∧ (a.toNat < 0xc2 ∨ 0xf4 < a.toNat)) := by
  simp only [Utf8.width]
  split
  · omega
  · split
    · omega
    · split
      · omega
      · split <;> omega

/-- The second byte of an encoding rules out overlong forms, surrogates and what is too large. -/
theorem isSecond_iff : Utf8.isSecond a b = true ↔ 0x80 ≤ b.toNat ∧ b.toNat ≤ 0xbf ∧
    (a.toNat = 0xe0 → 0xa0 ≤ b.toNat) ∧ (a.toNat = 0xed → b.toNat ≤ 0x9f) ∧
    (a.toNat = 0xf0 → 0x90 ≤ b.toNat) ∧ (a.toNat = 0xf4 → b.toNat ≤ 0x8f) := by
  unfold Utf8.isSecond
  dsimp only
  split <;> simp_all [Utf8.isContinuation] <;> omega

/-! ## What one round finds -/

/-- Bytes that start with an encoding are scanned as that character. -/
theorem scan_encode (c : Char) (more : List UInt8) :
    Utf8.scan (utf8EncodeChar c ++ more) = .char c (utf8EncodeChar c).length := by
  have hvalid := Utf8.toNat_valid c
  have hchar : ∀ n, n = c.toNat → Char.ofNat n = c := fun n hn => by
    rw [hn]
    exact Char.ofNat_toNat c
  by_cases h₁ : c.toNat < 0x80
  · rw [Utf8.encode_one h₁]
    have ha : (UInt8.ofNat c.toNat).toNat = c.toNat := Utf8.toNat_byte (by omega)
    have hwidth : Utf8.width (UInt8.ofNat c.toNat) = 1 := by
      have := width_eq (UInt8.ofNat c.toNat)
      omega
    simp only [List.cons_append, List.nil_append, Utf8.scan, hwidth]
    rw [ha, hchar _ rfl]
    rfl
  by_cases h₂ : c.toNat < 0x800
  · rw [Utf8.encode_two (by omega) h₂]
    have ha : (UInt8.ofNat (c.toNat / 64 + 0xc0)).toNat = c.toNat / 64 + 0xc0 :=
      Utf8.toNat_byte (by omega)
    have hb : (UInt8.ofNat (c.toNat % 64 + 0x80)).toNat = c.toNat % 64 + 0x80 :=
      Utf8.toNat_byte (by omega)
    have hwidth : Utf8.width (UInt8.ofNat (c.toNat / 64 + 0xc0)) = 2 := by
      have := width_eq (UInt8.ofNat (c.toNat / 64 + 0xc0))
      omega
    have hsecond : Utf8.isContinuation (UInt8.ofNat (c.toNat % 64 + 0x80)) = true := by
      rw [isContinuation_iff]
      omega
    simp only [List.cons_append, List.nil_append, Utf8.scan, hwidth, hsecond, if_true]
    rw [Utf8.low, ha, hb, hchar _ (by omega)]
    rfl
  by_cases h₃ : c.toNat < 0x10000
  · rw [Utf8.encode_three (by omega) h₃]
    have ha : (UInt8.ofNat (c.toNat / 4096 + 0xe0)).toNat = c.toNat / 4096 + 0xe0 :=
      Utf8.toNat_byte (by omega)
    have hb : (UInt8.ofNat (c.toNat / 64 % 64 + 0x80)).toNat = c.toNat / 64 % 64 + 0x80 :=
      Utf8.toNat_byte (by omega)
    have hd : (UInt8.ofNat (c.toNat % 64 + 0x80)).toNat = c.toNat % 64 + 0x80 :=
      Utf8.toNat_byte (by omega)
    have hwidth : Utf8.width (UInt8.ofNat (c.toNat / 4096 + 0xe0)) = 3 := by
      have := width_eq (UInt8.ofNat (c.toNat / 4096 + 0xe0))
      omega
    have hsecond : Utf8.isSecond (UInt8.ofNat (c.toNat / 4096 + 0xe0))
        (UInt8.ofNat (c.toNat / 64 % 64 + 0x80)) = true := by
      rw [isSecond_iff, ha, hb]
      omega
    have hthird : Utf8.isContinuation (UInt8.ofNat (c.toNat % 64 + 0x80)) = true := by
      rw [isContinuation_iff]
      omega
    simp only [List.cons_append, List.nil_append, Utf8.scan, hwidth, hsecond, hthird, if_true,
      Bool.not_true, Bool.false_eq_true, if_false]
    rw [Utf8.low, Utf8.low, ha, hb, hd, hchar _ (by omega)]
    rfl
  · rw [Utf8.encode_four (by omega)]
    have ha : (UInt8.ofNat (c.toNat / 262144 + 0xf0)).toNat = c.toNat / 262144 + 0xf0 :=
      Utf8.toNat_byte (by omega)
    have hb : (UInt8.ofNat (c.toNat / 4096 % 64 + 0x80)).toNat = c.toNat / 4096 % 64 + 0x80 :=
      Utf8.toNat_byte (by omega)
    have hd : (UInt8.ofNat (c.toNat / 64 % 64 + 0x80)).toNat = c.toNat / 64 % 64 + 0x80 :=
      Utf8.toNat_byte (by omega)
    have he : (UInt8.ofNat (c.toNat % 64 + 0x80)).toNat = c.toNat % 64 + 0x80 :=
      Utf8.toNat_byte (by omega)
    have hwidth : Utf8.width (UInt8.ofNat (c.toNat / 262144 + 0xf0)) = 4 := by
      have := width_eq (UInt8.ofNat (c.toNat / 262144 + 0xf0))
      omega
    have hsecond : Utf8.isSecond (UInt8.ofNat (c.toNat / 262144 + 0xf0))
        (UInt8.ofNat (c.toNat / 4096 % 64 + 0x80)) = true := by
      rw [isSecond_iff, ha, hb]
      omega
    have hthird : Utf8.isContinuation (UInt8.ofNat (c.toNat / 64 % 64 + 0x80)) = true := by
      rw [isContinuation_iff]
      omega
    have hfourth : Utf8.isContinuation (UInt8.ofNat (c.toNat % 64 + 0x80)) = true := by
      rw [isContinuation_iff]
      omega
    simp only [List.cons_append, List.nil_append, Utf8.scan, hwidth, hsecond, hthird, hfourth,
      if_true, Bool.not_true, Bool.false_eq_true, if_false]
    rw [Utf8.low, Utf8.low, Utf8.low, ha, hb, hd, he, hchar _ (by omega)]
    rfl

/-- What is scanned as a character is its encoding. -/
theorem scan_char (h : Utf8.scan bytes = .char c n) :
    utf8EncodeChar c <+: bytes ∧ n = (utf8EncodeChar c).length := by
  -- an explicit encoding at the front
  have hfound : ∀ part rest : List UInt8, utf8EncodeChar c = part → bytes = part ++ rest →
      n = part.length → utf8EncodeChar c <+: bytes ∧ n = (utf8EncodeChar c).length := by
    rintro _ rest rfl rfl rfl
    exact ⟨List.prefix_append .., rfl⟩
  unfold Utf8.scan at h
  split at h
  · cases h
  · rename_i a rest
    obtain ⟨hwidth, ha⟩ | ⟨hwidth, ha⟩ | ⟨hwidth, ha⟩ | ⟨hwidth, ha⟩ | ⟨hwidth, ha⟩ := width_eq a <;>
      simp only [hwidth] at h
    · cases h
      have hn := Utf8.toNat_ofNat (n := a.toNat) (.inl (by omega))
      refine hfound [a] rest ?_ rfl rfl
      rw [Utf8.encode_one (by omega), hn, Utf8.byte_eq rfl]
    · split at h
      · cases h
      · rename_i b rest
        split at h
        · rename_i hb
          cases h
          rw [isContinuation_iff] at hb
          have hn := Utf8.toNat_ofNat (n := a.toNat % 32 * 64 + Utf8.low b)
            (.inl (by unfold Utf8.low; omega))
          refine hfound [a, b] rest ?_ rfl rfl
          unfold Utf8.low at hn ⊢
          rw [Utf8.encode_two (by omega) (by omega), hn, Utf8.byte_eq (b := a) (by omega),
            Utf8.byte_eq (b := b) (by omega)]
        · cases h
    · split at h
      · cases h
      · rename_i b rest
        split at h
        · cases h
        · rename_i hb
          rw [Bool.not_eq_true', Bool.not_eq_false, isSecond_iff] at hb
          split at h
          · cases h
          · rename_i d rest
            split at h
            · rename_i hd
              cases h
              rw [isContinuation_iff] at hd
              have hn := Utf8.toNat_ofNat
                (n := a.toNat % 16 * 4096 + Utf8.low b * 64 + Utf8.low d)
                (by unfold Utf8.low Nat.isValidChar; omega)
              refine hfound [a, b, d] rest ?_ rfl rfl
              unfold Utf8.low at hn ⊢
              rw [Utf8.encode_three (by omega) (by omega), hn, Utf8.byte_eq (b := a) (by omega),
                Utf8.byte_eq (b := b) (by omega), Utf8.byte_eq (b := d) (by omega)]
            · cases h
    · split at h
      · cases h
      · rename_i b rest
        split at h
        · cases h
        · rename_i hb
          rw [Bool.not_eq_true', Bool.not_eq_false, isSecond_iff] at hb
          split at h
          · cases h
          · rename_i d rest
            split at h
            · cases h
            · rename_i hd
              rw [Bool.not_eq_true', Bool.not_eq_false, isContinuation_iff] at hd
              split at h
              · cases h
              · rename_i e rest
                split at h
                · rename_i he
                  cases h
                  rw [isContinuation_iff] at he
                  have hn := Utf8.toNat_ofNat
                    (n := a.toNat % 8 * 262144 + Utf8.low b * 4096 + Utf8.low d * 64 + Utf8.low e)
                    (by unfold Utf8.low Nat.isValidChar; omega)
                  refine hfound [a, b, d, e] rest ?_ rfl rfl
                  unfold Utf8.low at hn ⊢
                  rw [Utf8.encode_four (by omega), hn, Utf8.byte_eq (b := a) (by omega),
                    Utf8.byte_eq (b := b) (by omega), Utf8.byte_eq (b := d) (by omega),
                    Utf8.byte_eq (b := e) (by omega)]
                · cases h
    · cases h

/-- A round takes at least one byte, and none that is not there. -/
theorem scan_char_length (h : Utf8.scan bytes = .char c n) : 0 < n ∧ n ≤ bytes.length := by
  obtain ⟨hpre, rfl⟩ := scan_char h
  exact ⟨List.length_pos_iff.mpr String.utf8EncodeChar_ne_nil, hpre.length_le⟩

/-- Scanning stops at a piece that is invalid whatever follows, and looks one byte
    beyond it at most. -/
theorem scan_invalid (h : Utf8.scan bytes = .invalid n) : 0 < n ∧ n ≤ bytes.length ∧
    (∀ more, Utf8.scan (bytes ++ more) = .invalid n) ∧
    (∀ m, n < m → Utf8.scan (bytes.take m) = .invalid n) ∧
    (n = 1 ∨ Utf8.scan (bytes.take n) = .incomplete) := by
  cases bytes with
  | nil => cases h
  | cons a rest =>
      obtain ⟨hwidth, ha⟩ | ⟨hwidth, ha⟩ | ⟨hwidth, ha⟩ | ⟨hwidth, ha⟩ | ⟨hwidth, ha⟩ := width_eq a
      · simp [Utf8.scan, hwidth] at h
      · rcases rest with - | ⟨b, rest⟩ <;> simp only [Utf8.scan, hwidth] at h
        · cases h
        · split at h <;> cases h
          rename_i hb
          refine ⟨by simp, by simp, fun more => by simp [Utf8.scan, hwidth, hb], fun m hm => ?_,
            .inl rfl⟩
          obtain ⟨k, rfl⟩ := Nat.exists_eq_add_of_le' hm
          simp [Utf8.scan, hwidth, hb]
      · rcases rest with - | ⟨b, rest⟩ <;> simp only [Utf8.scan, hwidth] at h
        · cases h
        · split at h
          · rename_i hb
            cases h
            refine ⟨by simp, by simp, fun more => by simp_all [Utf8.scan], fun m hm => ?_, .inl rfl⟩
            obtain ⟨k, rfl⟩ := Nat.exists_eq_add_of_le' hm
            simp_all [Utf8.scan]
          · rename_i hb
            rw [Bool.not_eq_true', Bool.not_eq_false] at hb
            rcases rest with - | ⟨d, rest⟩ <;> dsimp only at h
            · cases h
            · split at h <;> cases h
              rename_i hd
              refine ⟨by simp, by simp, fun more => by simp [Utf8.scan, hwidth, hb, hd],
                fun m hm => ?_, .inr (by simp [Utf8.scan, hwidth, hb])⟩
              obtain ⟨k, rfl⟩ := Nat.exists_eq_add_of_le' hm
              simp [Utf8.scan, hwidth, hb, hd]
      · rcases rest with - | ⟨b, rest⟩ <;> simp only [Utf8.scan, hwidth] at h
        · cases h
        · split at h
          · rename_i hb
            cases h
            refine ⟨by simp, by simp, fun more => by simp_all [Utf8.scan], fun m hm => ?_, .inl rfl⟩
            obtain ⟨k, rfl⟩ := Nat.exists_eq_add_of_le' hm
            simp_all [Utf8.scan]
          · rename_i hb
            rw [Bool.not_eq_true', Bool.not_eq_false] at hb
            rcases rest with - | ⟨d, rest⟩ <;> dsimp only at h
            · cases h
            · split at h
              · rename_i hd
                rw [Bool.not_eq_true'] at hd
                cases h
                refine ⟨by simp, by simp, fun more => by simp [Utf8.scan, hwidth, hb, hd],
                  fun m hm => ?_, .inr (by simp [Utf8.scan, hwidth, hb])⟩
                obtain ⟨k, rfl⟩ := Nat.exists_eq_add_of_le' hm
                simp [Utf8.scan, hwidth, hb, hd]
              · rename_i hd
                rw [Bool.not_eq_true', Bool.not_eq_false] at hd
                rcases rest with - | ⟨e, rest⟩ <;> dsimp only at h
                · cases h
                · split at h <;> cases h
                  rename_i he
                  refine ⟨by simp, by simp, fun more => by simp [Utf8.scan, hwidth, hb, hd, he],
                    fun m hm => ?_, .inr (by simp [Utf8.scan, hwidth, hb, hd])⟩
                  obtain ⟨k, rfl⟩ := Nat.exists_eq_add_of_le' hm
                  simp [Utf8.scan, hwidth, hb, hd, he]
      · simp only [Utf8.scan, hwidth, Scan.invalid.injEq] at h
        subst h
        refine ⟨by simp, by simp, fun more => by simp [Utf8.scan, hwidth], fun m hm => ?_, .inl rfl⟩
        obtain ⟨k, rfl⟩ := Nat.exists_eq_add_of_le' hm
        simp [Utf8.scan, hwidth]

/-- Bytes that wait for more are the beginning of an encoding, and fewer than four. -/
theorem scan_incomplete (h : Utf8.scan bytes = .incomplete) :
    bytes.length < 4 ∧ Utf8.Begins bytes := by
  -- a byte that can always be the second one
  have hsecond : ∀ a : UInt8, ∃ b, Utf8.isSecond a b = true := fun a => by
    by_cases hlow : a.toNat = 0xe0 ∨ a.toNat = 0xf0
    · exact ⟨0xa0, isSecond_iff.mpr (by simp; omega)⟩
    · exact ⟨0x80, isSecond_iff.mpr (by simp; omega)⟩
  have hlast : Utf8.isContinuation 0x80 = true := rfl
  have hbegins : ∀ more c n, Utf8.scan (bytes ++ more) = .char c n → n = (bytes ++ more).length →
      Utf8.Begins bytes := by
    intro more c n hchar hn
    obtain ⟨hpre, hlength⟩ := scan_char hchar
    refine ⟨c, ?_⟩
    rw [hpre.eq_of_length (hlength.symm.trans hn)]
    exact List.prefix_append bytes more
  cases bytes with
  | nil => exact ⟨by simp, 'a', List.nil_prefix⟩
  | cons a rest =>
      obtain ⟨b', hb'⟩ := hsecond a
      obtain ⟨hwidth, ha⟩ | ⟨hwidth, ha⟩ | ⟨hwidth, ha⟩ | ⟨hwidth, ha⟩ | ⟨hwidth, ha⟩ := width_eq a
      · simp [Utf8.scan, hwidth] at h
      · rcases rest with - | ⟨b, rest⟩ <;> simp only [Utf8.scan, hwidth] at h
        · exact ⟨by simp, hbegins [0x80] _ 2 (by simp [Utf8.scan, hwidth, hlast]; rfl) rfl⟩
        · split at h <;> cases h
      · rcases rest with - | ⟨b, rest⟩ <;> simp only [Utf8.scan, hwidth] at h
        · exact ⟨by simp, hbegins [b', 0x80] _ 3 (by simp [Utf8.scan, hwidth, hb', hlast]; rfl) rfl⟩
        · split at h
          · cases h
          · rename_i hb
            rw [Bool.not_eq_true', Bool.not_eq_false] at hb
            rcases rest with - | ⟨d, rest⟩ <;> dsimp only at h
            · exact ⟨by simp, hbegins [0x80] _ 3 (by simp [Utf8.scan, hwidth, hb, hlast]; rfl) rfl⟩
            · split at h <;> cases h
      · rcases rest with - | ⟨b, rest⟩ <;> simp only [Utf8.scan, hwidth] at h
        · exact ⟨by simp, hbegins [b', 0x80, 0x80] _ 4
            (by simp [Utf8.scan, hwidth, hb', hlast]; rfl) rfl⟩
        · split at h
          · cases h
          · rename_i hb
            rw [Bool.not_eq_true', Bool.not_eq_false] at hb
            rcases rest with - | ⟨d, rest⟩ <;> dsimp only at h
            · exact ⟨by simp, hbegins [0x80, 0x80] _ 4
                (by simp [Utf8.scan, hwidth, hb, hlast]; rfl) rfl⟩
            · split at h
              · cases h
              · rename_i hd
                rw [Bool.not_eq_true', Bool.not_eq_false] at hd
                rcases rest with - | ⟨e, rest⟩ <;> dsimp only at h
                · exact ⟨by simp, hbegins [0x80] _ 4
                    (by simp [Utf8.scan, hwidth, hb, hd, hlast]; rfl) rfl⟩
                · split at h <;> cases h
      · simp [Utf8.scan, hwidth] at h

/-- A round that finds no character has the maximal subpart of something else. -/
theorem scan_maximal (h : Utf8.scan bytes = .invalid n) :
    Utf8.MaximalSubpart (bytes.take n) (bytes.drop n) := by
  obtain ⟨hpos, hle, happend, htake, hbegins⟩ := scan_invalid h
  have hlength : (bytes.take n).length = n := List.length_take_of_le hle
  constructor
  case unencoded =>
    intro c hpre
    rw [List.take_append_drop] at hpre
    obtain ⟨rest, rfl⟩ := hpre
    rw [scan_encode] at h
    cases h
  case nonempty =>
    rw [← List.length_pos_iff, hlength]
    exact hpos
  case begins =>
    rw [hlength]
    exact hbegins.symm.imp_left fun hwait => (scan_incomplete hwait).2
  case longest =>
    intro longer hpre hlonger ⟨c, rest, hc⟩
    rw [List.take_append_drop] at hpre
    rw [hlength] at hlonger
    -- the longer piece would scan as the invalid one and as the beginning of a character
    have hinvalid := htake longer.length hlonger
    rw [← List.prefix_iff_eq_take.mp hpre] at hinvalid
    have hchar := scan_encode c []
    rw [List.append_nil, ← hc, (scan_invalid hinvalid).2.2.1 rest] at hchar
    cases hchar

/-- What is left at the end is one maximal subpart. -/
theorem scan_left (h : Utf8.scan bytes = .incomplete) (hne : bytes ≠ []) :
    Utf8.MaximalSubpart bytes [] := by
  constructor
  case unencoded =>
    intro c hpre
    rw [List.append_nil] at hpre
    obtain ⟨rest, rfl⟩ := hpre
    rw [scan_encode] at h
    cases h
  case nonempty => exact hne
  case begins => exact .inl (scan_incomplete h).2
  case longest =>
    intro longer hpre hlonger
    rw [List.append_nil] at hpre
    exact absurd hpre.length_le (Nat.not_le.mpr hlonger)

/-! ## All rounds -/

/-- The rounds over some bytes, the text they give and the bytes that wait for more. -/
inductive Scanned : List UInt8 → Text → List UInt8 → Prop
  | stop {bytes : List UInt8} (h : Utf8.scan bytes = .incomplete) : Scanned bytes [] bytes
  | char {bytes left : List UInt8} {c : Char} {n : Nat} {text : Text}
      (h : Utf8.scan bytes = .char c n) (hrest : Scanned (bytes.drop n) text left) :
      Scanned bytes (c :: text) left
  | invalid {bytes left : List UInt8} {n : Nat} {text : Text}
      (h : Utf8.scan bytes = .invalid n) (hrest : Scanned (bytes.drop n) text left) :
      Scanned bytes (replacement :: text) left

variable {text : Text} {left : List UInt8}

theorem Scanned.left_incomplete (h : Scanned bytes text left) : Utf8.scan left = .incomplete := by
  induction h with
  | stop h => exact h
  | char _ _ ih => exact ih
  | invalid _ _ ih => exact ih

/-- The rounds go on with what follows as if it had been there from the start. -/
theorem Scanned.append {text' : Text} {left' : List UInt8} (h : Scanned bytes text left)
    (h' : Scanned (left ++ more) text' left') : Scanned (bytes ++ more) (text ++ text') left' := by
  induction h with
  | stop => exact h'
  | @char bytes left c n text h _ ih =>
      obtain ⟨⟨rest, rfl⟩, -⟩ := scan_char h
      have hle := (scan_char_length h).2
      refine .char (n := n) ?_ ?_
      · rw [List.append_assoc, scan_encode]
        rw [scan_encode] at h
        exact h
      · rw [List.drop_append_of_le_length hle]
        exact ih h'
  | @invalid bytes left n text h _ ih =>
      obtain ⟨-, hle, happend, -⟩ := scan_invalid h
      refine .invalid (n := n) (happend more) ?_
      rw [List.drop_append_of_le_length hle]
      exact ih h'

/-- What the rounds give, with a replacement for what is left, is the lossy decoding. -/
theorem Scanned.lossy (h : Scanned bytes text left) :
    Utf8.Lossy bytes (text ++ if left.isEmpty then [] else [replacement]) := by
  induction h with
  | @stop bytes h =>
      cases bytes with
      | nil => exact .nil
      | cons a rest =>
          have hpart := Utf8.Lossy.replaced (scan_left h (List.cons_ne_nil a rest)) .nil
          rw [List.append_nil] at hpart
          exact hpart
  | @char bytes left c n text h _ ih =>
      obtain ⟨⟨rest, rfl⟩, rfl⟩ := scan_char h
      rw [List.drop_left] at ih
      exact .char c ih
  | @invalid bytes left n text h _ ih =>
      have hpart := Utf8.Lossy.replaced (scan_maximal h) ih
      rw [List.take_append_drop] at hpart
      exact hpart

/-! ## Validation in one piece -/

/-- What `from_utf8` says of some bytes: the valid front, and the reason it ends there. -/
structure Validated (bytes : List UInt8) (text : Text) (error : Option Utf8Error) : Prop where
  valid : error = none → Scanned bytes text []
  bound : ∀ e, error = some e → e.validUpTo < bytes.length
  front : ∀ e, error = some e → ∀ more left, Scanned (bytes.drop e.validUpTo) more left →
    Scanned bytes (text ++ more) left
  invalid : ∀ e length, error = some e → e.errorLen = some length →
    Utf8.scan (bytes.drop e.validUpTo) = .invalid length
  incomplete : ∀ e, error = some e → e.errorLen = none →
    Utf8.scan (bytes.drop e.validUpTo) = .incomplete

/-- Where the validation started only shifts where it ended. -/
theorem go_start (fuel : Nat) (bytes : List UInt8) (start : Nat) :
    fromUtf8.go fuel bytes start = ((fromUtf8.go fuel bytes 0).1,
      (fromUtf8.go fuel bytes 0).2.map fun e => { e with validUpTo := start + e.validUpTo }) := by
  induction fuel generalizing bytes start with
  | zero => cases bytes <;> rfl
  | succ fuel ih =>
      cases bytes with
      | nil => rfl
      | cons a rest =>
          simp only [fromUtf8.go]
          cases Utf8.scan (a :: rest) with
          | char c n =>
              dsimp only
              rw [ih _ (start + n), ih _ (0 + n)]
              simp [Function.comp_def, Nat.add_assoc]
          | invalid n => rfl
          | incomplete => rfl

theorem go_validated (fuel : Nat) (bytes : List UInt8) (hfuel : bytes.length ≤ fuel) :
    Validated bytes (fromUtf8.go fuel bytes 0).1 (fromUtf8.go fuel bytes 0).2 := by
  induction fuel generalizing bytes with
  | zero =>
      obtain rfl := List.length_eq_zero_iff.mp (Nat.le_zero.mp hfuel)
      exact ⟨fun _ => .stop rfl, nofun, nofun, nofun, nofun⟩
  | succ fuel ih =>
      cases bytes with
      | nil => exact ⟨fun _ => .stop rfl, nofun, nofun, nofun, nofun⟩
      | cons a rest =>
          simp only [fromUtf8.go]
          cases hscan : Utf8.scan (a :: rest) with
          | char c n =>
              obtain ⟨hpos, hle⟩ := scan_char_length hscan
              have hlength : ((a :: rest).drop n).length = (a :: rest).length - n :=
                List.length_drop
              have hrest := ih ((a :: rest).drop n) (by omega)
              dsimp only
              rw [go_start fuel _ (0 + n), Nat.zero_add]
              constructor
              case valid =>
                intro hnone
                exact .char hscan (hrest.valid (Option.map_eq_none_iff.mp hnone))
              all_goals
                intro e
              case bound =>
                intro he
                obtain ⟨e, hgo, rfl⟩ := Option.map_eq_some_iff.mp he
                have hbound := hrest.bound e hgo
                show n + e.validUpTo < _
                omega
              case front =>
                intro he more left hmore
                obtain ⟨e, hgo, rfl⟩ := Option.map_eq_some_iff.mp he
                refine .char hscan (hrest.front e hgo more left ?_)
                rw [List.drop_drop]
                exact hmore
              case invalid =>
                intro length he hlen
                obtain ⟨e, hgo, rfl⟩ := Option.map_eq_some_iff.mp he
                have hinvalid := hrest.invalid e length hgo hlen
                rw [List.drop_drop] at hinvalid
                exact hinvalid
              case incomplete =>
                intro he hlen
                obtain ⟨e, hgo, rfl⟩ := Option.map_eq_some_iff.mp he
                have hwait := hrest.incomplete e hgo hlen
                rw [List.drop_drop] at hwait
                exact hwait
          | invalid n =>
              refine ⟨nofun, ?_, ?_, ?_, ?_⟩ <;> rintro e
              · rintro ⟨⟩
                exact Nat.zero_lt_succ _
              · rintro ⟨⟩ more left hmore
                exact hmore
              · rintro length ⟨⟩ ⟨⟩
                exact hscan
              · rintro ⟨⟩ ⟨⟩
          | incomplete =>
              refine ⟨nofun, ?_, ?_, ?_, ?_⟩ <;> rintro e
              · rintro ⟨⟩
                exact Nat.zero_lt_succ _
              · rintro ⟨⟩ more left hmore
                exact hmore
              · rintro length ⟨⟩ ⟨⟩
              · rintro ⟨⟩ -
                exact hscan

theorem fromUtf8_validated {error : Option Utf8Error} (h : fromUtf8 bytes = (text, error)) :
    Validated bytes text error := by
  have hgo := go_validated bytes.length bytes (Nat.le_refl _)
  rw [show fromUtf8.go bytes.length bytes 0 = (text, error) from h] at hgo
  exact hgo

/-- A piece that is not valid ends behind where it starts, within the bytes. -/
theorem Validated.shorter {e : Utf8Error} {length : Nat} (h : Validated bytes text (some e))
    (hlen : e.errorLen = some length) :
    (bytes.drop (e.validUpTo + length)).length < bytes.length := by
  obtain ⟨hpos, hle, -⟩ := scan_invalid (h.invalid e length rfl hlen)
  have hbound := h.bound e rfl
  rw [List.length_drop] at hle ⊢
  omega

/-! ## The loop of `push` -/

/-- A run of the loop of `push`, from the pending bytes to its `break`. -/
inductive PushLoop : List UInt8 → Text → List UInt8 → Prop
  | valid {pending : List UInt8} {text : Text} (h : fromUtf8 pending = (text, none)) :
      PushLoop pending text []
  | incomplete {pending : List UInt8} {text : Text} {error : Utf8Error}
      (h : fromUtf8 pending = (text, some error)) (hlen : error.errorLen = none) :
      PushLoop pending text (pending.drop error.validUpTo)
  | invalid {pending left : List UInt8} {text more : Text} {error : Utf8Error} {length : Nat}
      (h : fromUtf8 pending = (text, some error)) (hlen : error.errorLen = some length)
      (hrest : PushLoop ((pending.drop error.validUpTo).drop length) more left) :
      PushLoop pending (text ++ replacement :: more) left

theorem PushLoop.scanned (h : PushLoop bytes text left) : Scanned bytes text left := by
  induction h with
  | valid h => exact (fromUtf8_validated h).valid rfl
  | incomplete h hlen =>
      have hvalidated := fromUtf8_validated h
      have hstop := hvalidated.front _ rfl [] _ (.stop (hvalidated.incomplete _ rfl hlen))
      rw [List.append_nil] at hstop
      exact hstop
  | invalid h hlen _ ih =>
      have hvalidated := fromUtf8_validated h
      exact hvalidated.front _ rfl _ _ (.invalid (hvalidated.invalid _ _ rfl hlen) ih)

/-- The rounds that `decode` is given are enough for the loop to end. -/
theorem decode_loop {fuel : Nat} (hfuel : bytes.length < fuel) :
    PushLoop bytes (Utf8StreamDecoder.decode fuel bytes).1 (Utf8StreamDecoder.decode fuel bytes).2 := by
  induction fuel generalizing bytes with
  | zero => exact absurd hfuel (Nat.not_lt_zero _)
  | succ fuel ih =>
      simp only [Utf8StreamDecoder.decode]
      split
      · rename_i text hvalid
        exact .valid hvalid
      · rename_i text error hinvalid
        split
        · rename_i hlen
          exact .incomplete hinvalid hlen
        · rename_i length hlen
          have hshorter := (fromUtf8_validated hinvalid).shorter hlen
          rw [← List.drop_drop] at hshorter
          exact .invalid hinvalid hlen (ih (by omega))

theorem lossy_scanned {fuel : Nat} (hfuel : bytes.length < fuel) : ∃ text left,
    Scanned bytes text left ∧
      fromUtf8Lossy.go fuel bytes = text ++ if left.isEmpty then [] else [replacement] := by
  induction fuel generalizing bytes with
  | zero => exact absurd hfuel (Nat.not_lt_zero _)
  | succ fuel ih =>
      simp only [fromUtf8Lossy.go]
      split
      · rename_i text hvalid
        exact ⟨text, [], (fromUtf8_validated hvalid).valid rfl, (List.append_nil text).symm⟩
      · rename_i text error hinvalid
        have hvalidated := fromUtf8_validated hinvalid
        split
        · rename_i hlen
          refine ⟨text, bytes.drop error.validUpTo, ?_, ?_⟩
          · exact (PushLoop.incomplete hinvalid hlen).scanned
          · rw [List.isEmpty_eq_false_iff.mpr]
            · rfl
            · rw [← List.length_pos_iff, List.length_drop]
              exact Nat.sub_pos_of_lt (hvalidated.bound _ rfl)
        · rename_i length hlen
          have hshorter := hvalidated.shorter hlen
          obtain ⟨more, left, hmore, hgo⟩ :=
            ih (show (bytes.drop (error.validUpTo + length)).length < fuel by omega)
          refine ⟨text ++ replacement :: more, left, ?_, ?_⟩
          · rw [← List.drop_drop] at hmore
            exact hvalidated.front _ rfl _ _ (.invalid (hvalidated.invalid _ _ rfl hlen) hmore)
          · rw [hgo]
            simp

/-- What `from_utf8_lossy` gives is the lossy decoding. -/
theorem fromUtf8Lossy_lossy (bytes : List UInt8) : Utf8.Lossy bytes (fromUtf8Lossy bytes) := by
  obtain ⟨text, left, hscanned, hgo⟩ := lossy_scanned (Nat.lt_succ_self bytes.length)
  rw [fromUtf8Lossy, hgo]
  exact hscanned.lossy

/-! ## Reads -/

variable {d : Utf8StreamDecoder}

theorem push_loop (d : Utf8StreamDecoder) (bytes : List UInt8) :
    PushLoop (d.pending ++ bytes) (d.push bytes).2 (d.push bytes).1.pending :=
  decode_loop (Nat.lt_succ_self _)

/-- What waits after a read is less than a character. -/
theorem push_pending (d : Utf8StreamDecoder) (bytes : List UInt8) :
    (d.push bytes).1.pending.length < 4 :=
  (scan_incomplete (push_loop d bytes).scanned.left_incomplete).1

/-- The rounds over the reads are the rounds over what was read. -/
theorem pushAll_scanned (reads : List (List UInt8)) (hd : Utf8.scan d.pending = .incomplete) :
    Scanned (d.pending ++ reads.flatten) (d.pushAll reads).2 (d.pushAll reads).1.pending := by
  induction reads generalizing d with
  | nil =>
      rw [List.flatten_nil, List.append_nil]
      exact .stop hd
  | cons bytes reads ih =>
      have hpush := (push_loop d bytes).scanned
      rw [List.flatten_cons, ← List.append_assoc]
      exact hpush.append (ih hpush.left_incomplete)

/-- `finish` is the lossy decoding of what waits. -/
theorem finish_lossy (d : Utf8StreamDecoder) : d.finish = fromUtf8Lossy d.pending := by
  have hfinish : Utf8.Lossy d.pending d.finish :=
    (decode_loop (Nat.lt_succ_self d.pending.length)).scanned.lossy
  exact hfinish.unique (fromUtf8Lossy_lossy d.pending)

theorem finish_eq (hd : Utf8.scan d.pending = .incomplete) :
    d.finish = if d.pending.isEmpty then [] else [replacement] := by
  rw [finish_lossy]
  exact (fromUtf8Lossy_lossy d.pending).unique (Scanned.stop hd).lossy

/-- However the output of a session is cut into reads, it is decoded like the whole. -/
theorem decodeReads_eq (reads : List (List UInt8)) :
    decodeReads reads = fromUtf8Lossy reads.flatten ∧
      Utf8.Lossy reads.flatten (decodeReads reads) ∧
      ∀ (d : Utf8StreamDecoder) (bytes : List UInt8),
        PushLoop (d.pending ++ bytes) (d.push bytes).2 (d.push bytes).1.pending ∧
          (d.push bytes).1.pending.length < 4 := by
  have hscanned := pushAll_scanned (d := {}) reads rfl
  have hlossy : Utf8.Lossy reads.flatten (decodeReads reads) := by
    have h := hscanned.lossy
    rw [← finish_eq hscanned.left_incomplete] at h
    exact h
  exact ⟨hlossy.unique (fromUtf8Lossy_lossy _), hlossy, fun d bytes =>
    ⟨push_loop d bytes, push_pending d bytes⟩⟩

end Scan

end VivadoServer.Sessions
