/-
  VivadoServer.Lib.UnixPath

  Paths as an operating system of the Unix kind sees them: bytes, of which only the
  slash and the dot mean something.  `push` is how a name is put at the end of a path,
  and `components` is what a path stands for; two paths with the same components are
  the same place.
-/

import VivadoServer.Lib.Json

namespace UnixPath

abbrev Bytes := List UInt8

def slash : UInt8 := 47

def dot : UInt8 := 46

/-- Put a relative path at the end; an absolute one takes the place of the path. -/
def push (path part : Bytes) : Bytes :=
  if part.head? = some slash then part
  else if path = [] ∨ path.getLast? = some slash then path ++ part
  else path ++ slash :: part

inductive Component where
  | rootDir
  | curDir
  | parentDir
  | normal (name : Bytes)
deriving DecidableEq, Repr

/-- Repeated slashes and dots between them do not count, a dot at the start does. -/
def components (path : Bytes) : List Component :=
  let parts := path.splitOn slash
  let start :=
    if path.head? = some slash then [.rootDir]
    else if parts.head? = some [dot] then [.curDir]
    else []
  start ++ (parts.filter fun p => p ≠ [] ∧ p ≠ [dot]).map fun p =>
    if p = [dot, dot] then .parentDir else .normal p

/-- A name that stands for an entry of a directory. -/
structure Plain (part : Bytes) : Prop where
  ne_nil : part ≠ []
  slash : slash ∉ part
  dot : part ≠ [UnixPath.dot]
  dots : part ≠ [UnixPath.dot, UnixPath.dot]

/-- Nothing between two separators has one. -/
theorem notMem_splitOn {α : Type} [BEq α] [LawfulBEq α] {separator : α} {l part : List α}
    (h : part ∈ l.splitOn separator) : separator ∉ part := by
  induction l generalizing part with
  | nil =>
      obtain rfl : part = [] := by simpa using h
      exact List.not_mem_nil
  | cons a l ih =>
      rw [List.splitOn_cons_eq_if_modifyHead] at h
      split at h
      · obtain rfl | hrest := List.mem_cons.mp h
        · exact List.not_mem_nil
        · exact ih hrest
      · rename_i ha
        obtain ⟨first, rest, hparts⟩ := List.exists_cons_of_ne_nil (List.splitOn_ne_nil separator l)
        rw [hparts, List.modifyHead_cons] at h
        rw [hparts] at ih
        obtain rfl | hrest := List.mem_cons.mp h
        · rw [List.mem_cons, not_or]
          exact ⟨fun heq => ha (beq_iff_eq.mpr heq.symm), ih List.mem_cons_self⟩
        · exact ih (List.mem_cons_of_mem _ hrest)

/-- The names of a path are plain. -/
theorem plain_of_normal {path name : Bytes} (h : .normal name ∈ components path) : Plain name := by
  unfold components at h
  obtain hstart | hpart := List.mem_append.mp h
  · split at hstart
    · cases List.mem_singleton.mp hstart
    · split at hstart
      · cases List.mem_singleton.mp hstart
      · cases hstart
  · obtain ⟨part, hmem, heq⟩ := List.mem_map.mp hpart
    split at heq
    · cases heq
    · rename_i hdots
      obtain rfl := Component.normal.inj heq
      obtain ⟨hsplit, hkept⟩ := List.mem_filter.mp hmem
      obtain ⟨hempty, hdot⟩ := of_decide_eq_true hkept
      exact ⟨hempty, notMem_splitOn hsplit, hdot, hdots⟩

section Push

variable {path part : Bytes}

theorem Plain.head (h : Plain part) : part.head? ≠ some UnixPath.slash := fun hhead =>
  h.slash (List.mem_of_head? hhead)

/-- What a plain name adds to the parts of a path. -/
theorem Plain.filter (h : Plain part) : ([part].filter fun p => p ≠ [] ∧ p ≠ [UnixPath.dot]) = [part] :=
  List.filter_cons_of_pos (by simp [h.ne_nil, h.dot])

/-- A plain name becomes the last component. -/
theorem components_push (h : Plain part) : components (push path part) = components path ++ [.normal part] := by
  have hself : part.splitOn slash = [part] := List.splitOn_eq_singleton h.slash
  have hmap : ([part].filter fun p => p ≠ [] ∧ p ≠ [dot]).map
      (fun p => if p = [dot, dot] then Component.parentDir else .normal p) = [.normal part] := by
    rw [h.filter, List.map_singleton, if_neg h.dots]
  unfold push
  rw [if_neg h.head]
  split
  · rename_i hopen
    by_cases hempty : path = []
    · subst hempty
      have hdot : ¬ some part = some [dot] := fun heq => h.dot (Option.some.inj heq)
      rw [List.nil_append, components, components, hself]
      rw [if_neg h.head, hmap, List.head?_cons, if_neg hdot]
      rfl
    · obtain ⟨front, rfl⟩ : ∃ front, path = front ++ [slash] := by
        have hlast := hopen.resolve_left hempty
        exact ⟨path.dropLast, (List.dropLast_append_getLast? _ hlast).symm⟩
      have hpath : (front ++ [slash]).splitOn slash = front.splitOn slash ++ [[]] := by
        rw [List.splitOn_append_cons_self]
        rfl
      have hpush : (front ++ [slash] ++ part).splitOn slash = front.splitOn slash ++ [part] := by
        rw [List.append_assoc, List.singleton_append, List.splitOn_append_cons_self, hself]
      have hhead : (front ++ [slash] ++ part).head? = (front ++ [slash]).head? :=
        List.head?_append_of_ne_nil _ (by simp)
      have hfirst : ∀ rest : List Bytes, (front.splitOn slash ++ rest).head? = (front.splitOn slash).head? :=
        fun rest => List.head?_append_of_ne_nil _ (List.splitOn_ne_nil _ _)
      rw [components, components, hpath, hpush]
      rw [hhead, hfirst, hfirst, List.filter_append, List.filter_append, List.map_append, List.map_append,
        hmap, List.append_assoc, List.append_assoc]
      rfl
  · rename_i hclosed
    rw [not_or] at hclosed
    have hpush : (path ++ slash :: part).splitOn slash = path.splitOn slash ++ [part] := by
      rw [List.splitOn_append_cons_self, hself]
    have hhead : (path ++ slash :: part).head? = path.head? := List.head?_append_of_ne_nil _ hclosed.1
    have hfirst : (path.splitOn slash ++ [part]).head? = (path.splitOn slash).head? :=
      List.head?_append_of_ne_nil _ (List.splitOn_ne_nil _ _)
    rw [components, components, hpush]
    rw [hhead, hfirst, List.filter_append, List.map_append, hmap, List.append_assoc]

/-- So do several, one after the other. -/
theorem components_pushAll {parts : List Bytes} (h : ∀ part ∈ parts, Plain part) :
    components (parts.foldl push path) = components path ++ parts.map .normal := by
  induction parts generalizing path with
  | nil => exact (List.append_nil _).symm
  | cons part parts ih =>
      rw [List.foldl_cons, ih fun p hp => h p (List.mem_cons_of_mem _ hp),
        components_push (h part List.mem_cons_self), List.append_assoc]
      rfl

end Push

/-! ## Names that are texts -/

/-- The bytes of a text as the name of a file. -/
def fileName (text : String) : Bytes := text.toList.flatMap String.utf8EncodeChar

section Names

variable {text other : String}

theorem fileName_inj (h : fileName text = fileName other) : text = other := by
  apply String.toByteArray_inj.mp
  rw [← String.utf8Encode_toList, ← String.utf8Encode_toList, List.utf8Encode, List.utf8Encode]
  exact congrArg List.toByteArray h

/-- An ASCII byte of a name is a character of the text. -/
theorem mem_fileName {b : UInt8} (hb : b.toNat < 128) (h : b ∈ fileName text) :
    Char.ofNat b.toNat ∈ text.toList := by
  obtain ⟨c, hc, hmem⟩ := List.mem_flatMap.mp h
  obtain heq | hle := Json.byte_of_encode hmem
  · rw [heq, Char.ofNat_toNat]
    exact hc
  · omega

/-- A text that is no path of its own is a plain name. -/
theorem plain_fileName (hempty : text ≠ "") (hslash : '/' ∉ text.toList) (hdot : text ≠ ".")
    (hdots : text ≠ "..") : Plain (fileName text) where
  ne_nil h := hempty (fileName_inj (h.trans (by decide)))
  slash h := hslash (mem_fileName (by decide) h)
  dot h := hdot (fileName_inj (h.trans (by decide)))
  dots h := hdots (fileName_inj (h.trans (by decide)))

end Names

end UnixPath
