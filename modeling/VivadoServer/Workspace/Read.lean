/-
  VivadoServer.Workspace.Read

  The names under which a project is browsed (`src/workspace_read.rs`).  Tools make
  names that cannot be synchronized, such as `run:1`, so the browser has a grammar
  of its own; it also bounds how deep a path goes.
-/

import VivadoServer.Sync.Checks

namespace VivadoServer.Workspace

open Sync

/-! ## The two validators -/

/-- `char::is_control`. -/
def isControl (ch : Char) : Bool := ch.toNat ≤ 0x1f || (0x7f ≤ ch.toNat && ch.toNat ≤ 0x9f)

def validSegment (name : String) : Bool :=
  !name.isEmpty && !([".", "..", INTERNAL_DIR].contains name) && decide (name.utf8ByteSize ≤ 255) &&
    !name.toList.any fun ch => isControl ch || ['/', '\\'].contains ch

def MAX_DEPTH : Nat := 128

def validatePath (path : String) (allowRoot : Bool) : Except AppError Unit :=
  if 4096 < path.utf8ByteSize || (!allowRoot && path.isEmpty) ||
      (!path.isEmpty && !(segments path).all validSegment) || MAX_DEPTH < (segments path).length then
    .error (.badRequest "invalid workspace path")
  else .ok ()

/-! ## Names that can be synchronized -/

section Names

variable {name raw path : String} {ch : Char}

/-- The control characters beyond ASCII, which `validate_portable_segment` does not look for. -/
def isC1 (ch : Char) : Bool := 0x80 ≤ ch.toNat && ch.toNat ≤ 0x9f

theorem forbidden_of_isControl (h : isControl ch = true) (hnot : isC1 ch = false) :
    forbidden ch = true := by
  simp only [isControl, isC1, Bool.or_eq_true, Bool.and_eq_true, decide_eq_true_eq,
    Bool.and_eq_false_iff, decide_eq_false_iff_not] at h hnot
  obtain hlow | hdelete : ch.toNat ≤ 0x1f ∨ ch.toNat = 0x7f := by omega
  · have hle : ch ≤ Char.ofNat 0x1f := by
      rw [Char.le_def, UInt32.le_iff_toNat_le]
      exact hlow
    simp [forbidden, hle]
  · have heq : ch = Char.ofNat 0x7f := Char.ext (UInt32.toNat_inj.mp hdelete)
    simp [forbidden, heq]

/-- A portable name without such characters is shown. -/
theorem validSegment_of_portable (h : validatePortableSegment name = true)
    (hcontrol : ∀ ch ∈ name.toList, isC1 ch = false) : validSegment name = true := by
  simp only [validatePortableSegment, Bool.not_eq_true', Bool.or_eq_false_iff,
    decide_eq_false_iff_not, Nat.not_lt] at h
  obtain ⟨⟨⟨hempty, hreserved⟩, hsize⟩, hchars⟩ := h
  have hshown : (name.toList.any fun ch => isControl ch || ['/', '\\'].contains ch) = false := by
    rw [List.any_eq_false]
    intro ch hch hbad
    have hallowed := List.any_eq_false.mp hchars ch hch
    rw [Bool.or_eq_true] at hbad
    obtain hbad | hslash := hbad
    · exact hallowed (forbidden_of_isControl hbad (hcontrol ch hch))
    · apply hallowed
      obtain rfl | rfl : ch = '/' ∨ ch = '\\' := by simpa using hslash
      · decide
      · decide
  simp only [validSegment, hempty, hreserved, hshown, decide_eq_true hsize, Bool.not_false, Bool.and_self]

theorem mem_of_segment (h : name ∈ segments path) (hch : ch ∈ name.toList) : ch ∈ path.toList := by
  have hpart : name.toList ∈ (segments path).map String.toList := List.mem_map_of_mem h
  rw [← join_segments path, join_toList]
  generalize (segments path).map String.toList = parts at hpart
  induction parts with
  | nil => cases hpart
  | cons first rest ih =>
      cases rest with
      | nil =>
          rw [List.intercalate_singleton, ← List.mem_singleton.mp hpart]
          exact hch
      | cons second rest =>
          rw [List.intercalate_cons_cons]
          obtain hfirst | hrest := List.mem_cons.mp hpart
          · exact List.mem_append_left _ (List.mem_append_left _ (hfirst ▸ hch))
          · exact List.mem_append_right _ (ih hrest)

/-- What can be synchronized can be browsed as long as it is not too deep. -/
theorem syncPath_browsable (h : normalizeSyncPath raw = .ok path)
    (hcontrol : raw.toList.any isC1 = false) :
    (∀ name ∈ segments path, validSegment name = true) ∧
      (validatePath path false = .ok () ↔ (segments path).length ≤ MAX_DEPTH) := by
  obtain ⟨rfl, hvalid⟩ := normalizeSyncPath_eq h
  have hshown : ∀ name ∈ segments path, validSegment name = true := fun name hname =>
    validSegment_of_portable (hvalid.portable hname) fun ch hch =>
      Bool.eq_false_iff.mpr (List.any_eq_false.mp hcontrol ch (mem_of_segment hname hch))
  have hsize := (validPath_iff.mp hvalid).1
  have hempty : path.isEmpty = false := by
    rw [Bool.eq_false_iff, ne_eq, String.isEmpty_iff]
    rintro rfl
    have hpart := hvalid.portable (show "" ∈ segments "" by decide +kernel)
    exact (portable_ne hpart).1 rfl
  have hall : (segments path).all validSegment = true := List.all_eq_true.mpr hshown
  refine ⟨hshown, ?_⟩
  simp only [validatePath, hempty, hall, Nat.not_lt.mpr hsize, decide_false, Bool.not_true,
    Bool.and_false, Bool.false_or, decide_eq_true_eq]
  constructor
  · intro haccepted
    split at haccepted
    · cases haccepted
    · omega
  · intro hdepth
    rw [if_neg (by omega)]

theorem syncPath_browsable_sample : normalizeSyncPath "rtl/top.v" = .ok "rtl/top.v" ∧
    validatePath "rtl/top.v" false = .ok () := by
  have h : normalizeSyncPath "rtl/top.v" = .ok "rtl/top.v" := by decide +kernel
  have hcontrol : "rtl/top.v".toList.any isC1 = false := by decide +kernel
  exact ⟨h, (syncPath_browsable h hcontrol).2.mpr (by decide +kernel)⟩

/-- `a` below `a`, and so on. -/
def deepPath : Nat → String
  | 0 => "a"
  | depth + 1 => "a" ++ "/" ++ deepPath depth

theorem deepPath_spec (depth : Nat) (hdepth : depth ≤ 2000) : ValidPath (deepPath depth) ∧
    (deepPath depth).utf8ByteSize = 2 * depth + 1 ∧ (segments (deepPath depth)).length = depth + 1 := by
  induction depth with
  | zero =>
      have hvalid : normalizeSyncPath "a" = .ok "a" := by decide +kernel
      exact ⟨hvalid, by decide +kernel, by decide +kernel⟩
  | succ depth ih =>
      obtain ⟨hvalid, hsize, hlength⟩ := ih (by omega)
      have hname : validatePortableSegment "a" = true := by decide +kernel
      have hsize' : ("a" ++ "/" ++ deepPath depth).utf8ByteSize = 2 * (depth + 1) + 1 := by
        rw [String.utf8ByteSize_append, hsize, show ("a" ++ "/").utf8ByteSize = 2 from rfl]
        omega
      refine ⟨hvalid.below hname (by omega), hsize', ?_⟩
      rw [deepPath, segments_append, segments_portable hname, List.length_append, hlength,
        List.length_singleton]
      omega

/-- A path of more than 128 names can be synchronized, and is not browsed. -/
theorem deep_syncPath_refused : ¬ ∀ raw path, normalizeSyncPath raw = .ok path →
    validatePath path false = .ok () ∧ ∀ name ∈ segments path, validSegment name = true := by
  intro hall
  obtain ⟨hvalid, -, hlength⟩ := deepPath_spec 128 (by decide)
  have haccepted := (hall (deepPath 128) (deepPath 128) hvalid).1
  rw [validatePath, if_pos] at haccepted
  · cases haccepted
  · rw [hlength, Bool.or_eq_true]
    exact .inr (by decide)

end Names

end VivadoServer.Workspace
