/-
  VivadoServer.Lib.Json

  Compact JSON text in UTF-8: strings with their shortest escapes, decimal numbers,
  and arrays and objects from the texts of their elements.  Each constructor comes
  with a bound on its length in terms of the lengths of its parts.
-/

import VivadoServer.Lib.Utf8

namespace Json

abbrev Bytes := List UInt8

/-- The bytes of a text, without quotes. -/
def raw (text : String) : Bytes := text.toList.flatMap String.utf8EncodeChar

def hexDigit (n : Nat) : UInt8 := UInt8.ofNat (Nat.digitChar n).toNat

/-- The characters that a JSON string cannot hold as they are. -/
def escapeChar (c : Char) : Bytes :=
  match c.toNat with
  | 34 => [92, 34]
  | 92 => [92, 92]
  | 8 => [92, 98]
  | 9 => [92, 116]
  | 10 => [92, 110]
  | 12 => [92, 102]
  | 13 => [92, 114]
  | n => if n < 32 then [92, 117, 48, 48, hexDigit (n / 16), hexDigit (n % 16)]
    else String.utf8EncodeChar c

def str (text : String) : Bytes := 34 :: (text.toList.flatMap escapeChar ++ [34])

def nat (n : Nat) : Bytes := (Nat.toDigits 10 n).map fun c => UInt8.ofNat c.toNat

def int : Int → Bytes
  | .ofNat n => nat n
  | .negSucc n => 45 :: nat (n + 1)

def bool (b : Bool) : Bytes := raw (if b then "true" else "false")

def null : Bytes := raw "null"

def commas : List Bytes → Bytes
  | [] => []
  | [x] => x
  | x :: y :: rest => x ++ 44 :: commas (y :: rest)

def array (items : List Bytes) : Bytes := 91 :: (commas items ++ [93])

def member (m : String × Bytes) : Bytes := str m.1 ++ 58 :: m.2

def object (members : List (String × Bytes)) : Bytes := 123 :: (commas (members.map member) ++ [125])

/-! ## Lengths -/

section Lengths

variable {n k : Nat}

theorem size_of_low {c : Char} (h : c.toNat < 128) : c.utf8Size = 1 := by
  rw [← String.length_utf8EncodeChar, Utf8.encode_one h]
  rfl

theorem escapeChar_length_le (c : Char) : (escapeChar c).length ≤ 6 * c.utf8Size := by
  have hpos := Char.utf8Size_pos c
  unfold escapeChar
  split
  -- each escape of two bytes, and then the others
  all_goals try (simp only [List.length_cons, List.length_nil]; omega)
  split
  · simp only [List.length_cons, List.length_nil]
    omega
  · rw [String.length_utf8EncodeChar]
    omega

theorem flatMap_escapeChar_length_le (chars : List Char) :
    (chars.flatMap escapeChar).length ≤ 6 * (chars.map Char.utf8Size).sum := by
  induction chars with
  | nil => exact Nat.zero_le _
  | cons c rest ih =>
      have := escapeChar_length_le c
      rw [List.flatMap_cons, List.length_append, List.map_cons, List.sum_cons]
      omega

theorem utf8ByteSize_ofList (chars : List Char) :
    (String.ofList chars).utf8ByteSize = (chars.map Char.utf8Size).sum := by
  induction chars with
  | nil => rfl
  | cons c rest ih => simp [String.ofList_cons, String.utf8ByteSize_append, ih]

/-- At worst every byte of a string is escaped by six. -/
theorem str_length_le (text : String) : (str text).length ≤ 6 * text.utf8ByteSize + 2 := by
  have := flatMap_escapeChar_length_le text.toList
  rw [← utf8ByteSize_ofList, String.ofList_toList] at this
  rw [str, List.length_cons, List.length_append, List.length_singleton]
  omega

theorem nat_length_le (hk : 0 < k) (h : n < 10 ^ k) : (nat n).length ≤ k := by
  rw [nat, List.length_map]
  exact (Nat.length_toDigits_le_iff (by decide) hk).mpr h

theorem int_ofNat_length_le (hk : 0 < k) (h : n < 10 ^ k) : (int n).length ≤ k := nat_length_le hk h

theorem commas_length_le (items : List Bytes) :
    (commas items).length ≤ (items.map fun x => x.length + 1).sum := by
  induction items with
  | nil => exact Nat.le_refl _
  | cons x rest ih =>
      cases rest with
      | nil =>
          show x.length ≤ x.length + 1 + 0
          omega
      | cons y rest =>
          rw [commas, List.length_append, List.length_cons, List.map_cons, List.sum_cons]
          omega

/-- What a member adds to the length of an object. -/
def memberSize (m : String × Bytes) : Nat := (str m.1).length + m.2.length + 2

theorem member_length (m : String × Bytes) : (member m).length + 1 = memberSize m := by
  rw [member, List.length_append, List.length_cons, memberSize]
  omega

theorem object_length_le (members : List (String × Bytes)) :
    (object members).length ≤ (members.map memberSize).sum + 2 := by
  have hcommas := commas_length_le (members.map member)
  rw [List.map_map] at hcommas
  have hsizes : (fun x : Bytes => x.length + 1) ∘ member = memberSize := funext member_length
  rw [hsizes] at hcommas
  rw [object, List.length_cons, List.length_append, List.length_singleton]
  omega

theorem escapeChar_le_length (c : Char) : c.utf8Size ≤ (escapeChar c).length := by
  unfold escapeChar
  split
  all_goals try (rename_i heq; rw [size_of_low (by omega)]; simp)
  split
  · rename_i hlow
    rw [size_of_low (by omega)]
    simp
  · exact Nat.le_of_eq (String.length_utf8EncodeChar c).symm

theorem str_le_length (text : String) : text.utf8ByteSize ≤ (str text).length := by
  have hchars : ∀ chars : List Char,
      (chars.map Char.utf8Size).sum ≤ (chars.flatMap escapeChar).length := by
    intro chars
    induction chars with
    | nil => exact Nat.le_refl _
    | cons c rest ih =>
        have := escapeChar_le_length c
        rw [List.map_cons, List.sum_cons, List.flatMap_cons, List.length_append]
        omega
  have := hchars text.toList
  rw [← utf8ByteSize_ofList, String.ofList_toList] at this
  rw [str, List.length_cons, List.length_append]
  omega

theorem commas_le_length {items : List Bytes} {x : Bytes} (h : x ∈ items) :
    x.length ≤ (commas items).length := by
  induction items with
  | nil => cases h
  | cons y rest ih =>
      cases rest with
      | nil =>
          obtain rfl := List.mem_singleton.mp h
          exact Nat.le_refl _
      | cons z rest =>
          rw [commas, List.length_append, List.length_cons]
          obtain rfl | hlater := List.mem_cons.mp h
          · omega
          · have := ih hlater
            omega

/-- No member is longer than its object. -/
theorem object_le_length {members : List (String × Bytes)} {m : String × Bytes} (h : m ∈ members) :
    m.2.length ≤ (object members).length := by
  have hmember := commas_le_length (List.mem_map_of_mem (f := member) h)
  have hlength : (member m).length = (str m.1).length + (m.2.length + 1) := by
    rw [member, List.length_append, List.length_cons]
  rw [object, List.length_cons, List.length_append]
  omega

theorem array_length_le (items : List Bytes) :
    (array items).length ≤ (items.map fun x => x.length + 1).sum + 2 := by
  have := commas_length_le items
  rw [array, List.length_cons, List.length_append, List.length_singleton]
  omega

theorem bool_length_le (b : Bool) : (bool b).length ≤ 5 := by cases b <;> decide

end Lengths

/-! ## Lines -/

section Lines

theorem byte_of_encode {c : Char} {b : UInt8} (h : b ∈ String.utf8EncodeChar c) :
    b.toNat = c.toNat ∨ 128 ≤ b.toNat := by
  have hvalid := Utf8.toNat_valid c
  by_cases hone : c.toNat < 0x80
  · rw [Utf8.encode_one hone, List.mem_singleton] at h
    rw [h, Utf8.toNat_byte (by omega)]
    exact .inl rfl
  · right
    by_cases htwo : c.toNat < 0x800
    · rw [Utf8.encode_two (by omega) htwo] at h
      simp only [List.mem_cons, List.not_mem_nil, or_false] at h
      obtain rfl | rfl := h
      all_goals rw [Utf8.toNat_byte (by omega)]; omega
    · by_cases hthree : c.toNat < 0x10000
      · rw [Utf8.encode_three (by omega) hthree] at h
        simp only [List.mem_cons, List.not_mem_nil, or_false] at h
        obtain rfl | rfl | rfl := h
        all_goals rw [Utf8.toNat_byte (by omega)]; omega
      · rw [Utf8.encode_four (by omega)] at h
        simp only [List.mem_cons, List.not_mem_nil, or_false] at h
        obtain rfl | rfl | rfl | rfl := h
        all_goals rw [Utf8.toNat_byte (by omega)]; omega

theorem hexDigit_ne (n : Nat) : hexDigit (n % 16) ≠ 10 := by
  have hdigit : ∀ d < 16, hexDigit d ≠ 10 := by decide
  exact hdigit _ (Nat.mod_lt n (by decide))

/-- A control character is escaped, so that a string stays on its line. -/
theorem newline_notMem_escapeChar (c : Char) : 10 ∉ escapeChar c := by
  unfold escapeChar
  split
  all_goals try decide
  rename_i hne _ _
  split
  · rename_i hlow
    have hhigh : hexDigit (c.toNat / 16) ≠ 10 := by
      have := hexDigit_ne (c.toNat / 16)
      rwa [Nat.mod_eq_of_lt (by omega)] at this
    have := hexDigit_ne c.toNat
    simp only [List.mem_cons, List.not_mem_nil, or_false, not_or]
    exact ⟨by decide, by decide, by decide, by decide, hhigh.symm, this.symm⟩
  · intro hmem
    obtain heq | hle := byte_of_encode hmem
    · exact hne heq.symm
    · exact absurd hle (by decide)

theorem newline_notMem_str (text : String) : 10 ∉ str text := by
  intro hmem
  rw [str, List.mem_cons, List.mem_append, List.mem_singleton, List.mem_flatMap] at hmem
  obtain h | ⟨c, -, hc⟩ | h := hmem
  · exact absurd h (by decide)
  · exact newline_notMem_escapeChar c hc
  · exact absurd h (by decide)

theorem mem_commas {items : List Bytes} {b : UInt8} (h : b ∈ commas items) :
    b = 44 ∨ ∃ x ∈ items, b ∈ x := by
  induction items with
  | nil => cases h
  | cons x rest ih =>
      cases rest with
      | nil => exact .inr ⟨x, List.mem_cons_self .., h⟩
      | cons y rest =>
          rw [commas, List.mem_append, List.mem_cons] at h
          obtain hx | hcomma | hlater := h
          · exact .inr ⟨x, List.mem_cons_self .., hx⟩
          · exact .inl hcomma
          · obtain hcomma | ⟨z, hz, hb⟩ := ih hlater
            · exact .inl hcomma
            · exact .inr ⟨z, List.mem_cons_of_mem _ hz, hb⟩

theorem newline_notMem_object {members : List (String × Bytes)} (h : ∀ m ∈ members, 10 ∉ m.2) :
    10 ∉ object members := by
  intro hmem
  rw [object, List.mem_cons, List.mem_append, List.mem_singleton] at hmem
  obtain heq | hinner | heq := hmem
  · exact absurd heq (by decide)
  · obtain heq | ⟨x, hx, hb⟩ := mem_commas hinner
    · exact absurd heq (by decide)
    · obtain ⟨m, hm, rfl⟩ := List.mem_map.mp hx
      rw [member, List.mem_append, List.mem_cons] at hb
      obtain hkey | hcolon | hvalue := hb
      · exact newline_notMem_str m.1 hkey
      · exact absurd hcolon (by decide)
      · exact h m hm hvalue
  · exact absurd heq (by decide)

end Lines

end Json
