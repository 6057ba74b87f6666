/-
  VivadoServer.Sync.Checks

  What the checks before a transaction find out, and when they let a commit pass.
-/

import VivadoServer.Sync.Effect

namespace VivadoServer.Sync

open FileTree History CommitTransaction

/-- The disk stands like this, whatever the transaction. -/
def Standing (v : View String Leaf) (files : Files) (_ : CommitTransaction) : Prop := Stands v files

section Calls

variable {α β : Type} {quiet : Prop} {v : View String Leaf} {path : FilePath} {what text : String}
  {digest : Sha256} {data : FileData} {node : Node Leaf} {maxFileBytes : Nat}

/-- A call that reads `a` off a disk that stands like this, if nothing is refused. -/
theorem does_read {op : Files → Except IoError (α × Files)} {R : α → Prop}
    (h : ∀ files, files.view = v → match op files with
      | .ok (a, files') => R a ∧ files' = files
      | .error _ => ¬ quiet) :
    Does quiet (Standing v) (call op >>= orInternal what) fun a files tx =>
      R a ∧ Standing v files tx := by
  apply does_orInternal
  rintro files tx ⟨hvalid, hview⟩
  have hop := h files hview
  cases heq : op files with
  | ok result =>
      rw [heq] at hop
      obtain ⟨hR, hsame⟩ := hop
      refine ⟨hR, ?_⟩
      show Stands v result.2
      rw [hsame]
      exact ⟨hvalid, hview⟩
  | error e =>
      rw [heq] at hop
      exact hop

theorem metadata_reads (h : quiet → ∃ node, v path = some node ∧ node ≠ .file .link) :
    Does quiet (Standing v) (call (Files.metadata path) >>= orInternal what) fun node files tx =>
      v path = some node ∧ Standing v files tx := by
  apply does_read
  rintro files rfl
  have hnot : files.view path = none ∨ files.view path = some (.file .link) → ¬ quiet := by
    intro hview hquiet
    obtain ⟨node, hnode, hne⟩ := h hquiet
    obtain hview | hview := hview
    · rw [hview] at hnode
      cases hnode
    · rw [hview] at hnode
      cases hnode
      exact hne rfl
  unfold Files.metadata
  cases hview : files.view path with
  | none => exact hnot (.inl hview)
  | some node =>
      cases node with
      | dir => exact ⟨rfl, rfl⟩
      | file leaf =>
          cases leaf with
          | link => exact hnot (.inr hview)
          | regular data => exact ⟨rfl, rfl⟩
          | special => exact ⟨rfl, rfl⟩

theorem canonicalize_reads (h : quiet → v path = some .dir) :
    Does quiet (Standing v) (call (Files.canonicalize path) >>= orInternal what)
      fun found files tx => found = path ∧ Standing v files tx := by
  apply does_read
  rintro files rfl
  unfold Files.canonicalize Files.metadata
  cases hview : files.view path with
  | none =>
      intro hquiet
      rw [h hquiet] at hview
      cases hview
  | some node =>
      cases node with
      | dir => exact ⟨rfl, rfl⟩
      | file leaf =>
          have hnot : ¬ quiet := fun hquiet => by
            rw [h hquiet] at hview
            cases hview
          cases leaf <;> first | exact ⟨rfl, rfl⟩ | exact hnot

theorem regularData_does (h : quiet → ∃ data, node = .file (.regular data)) :
    Does quiet (Standing v) (regularData node) fun data files tx =>
      node = .file (.regular data) ∧ Standing v files tx := by
  cases node with
  | dir =>
      apply Does.raise
      intro _ _ _ hquiet
      obtain ⟨data, hdata⟩ := h hquiet
      cases hdata
  | file leaf =>
      cases leaf with
      | regular data => exact Does.ret fun _ _ h => ⟨rfl, h⟩
      | _ =>
          apply Does.raise
          intro _ _ _ hquiet
          obtain ⟨data, hdata⟩ := h hquiet
          cases hdata

/-- The data of a regular file, from a call that gives what stands at its path. -/
theorem fileData_does (h : quiet → ∃ data, v path = some (.file (.regular data))) :
    Does quiet (Standing v)
      (call (Files.metadata path) >>= fun r => orInternal what r >>= fun node => regularData node)
      fun data files tx => v path = some (.file (.regular data)) ∧ Standing v files tx := by
  rw [← bind_assoc]
  apply Does.seq (metadata_reads fun hquiet => ?_)
  · intro node
    apply Does.assuming
    intro hnode
    apply (regularData_does fun hquiet => ?_).weaken (fun _ _ => id)
    · rintro data files tx ⟨rfl, h⟩
      exact ⟨hnode, h⟩
    · obtain ⟨data, hdata⟩ := h hquiet
      rw [hnode] at hdata
      exact ⟨data, Option.some.inj hdata⟩
  · obtain ⟨data, hdata⟩ := h hquiet
    exact ⟨_, hdata, (by rintro ⟨⟩)⟩

/-! ## The staged uploads -/

end Calls

/-! ## Paths -/

section Paths

variable {root target : FilePath} {path : String} {part : String}

theorem ValidPath.portable (h : ValidPath path) (hpart : part ∈ segments path) :
    validatePortableSegment part = true := by
  have hnormal := h
  simp only [ValidPath, normalizeSyncPath, normalizeSyncPathAllowInternal] at hnormal
  split at hnormal
  · cases hnormal
  · split at hnormal
    · cases hnormal
    · rename_i hany
      by_contra hnot
      apply hany
      rw [List.any_eq_true]
      rw [Bool.not_eq_true] at hnot
      exact ⟨part, hpart, by simp [hnot]⟩

theorem portable_ne (h : validatePortableSegment part = true) :
    part ≠ "" ∧ part ≠ "." ∧ part ≠ ".." := by
  refine ⟨?_, ?_, ?_⟩ <;> rintro rfl <;> revert h <;> decide +kernel

theorem resolve_eq (h : resolveRelativePath root path = .ok target) :
    ValidPath path ∧ target = root ++ segments path := by
  unfold resolveRelativePath at h
  cases hnormal : normalizeSyncPath path with
  | error e =>
      rw [hnormal] at h
      cases h
  | ok normalized =>
      obtain ⟨rfl, hvalid⟩ := normalizeSyncPath_eq hnormal
      refine ⟨hvalid, ?_⟩
      rw [hnormal] at h
      cases h
      rfl

/-- A portable name is one segment. -/
theorem segments_portable (h : validatePortableSegment part = true) : segments part = [part] := by
  have hslash : '/' ∉ part.toList := by
    intro hmem
    simp only [validatePortableSegment, Bool.not_eq_true', Bool.or_eq_false_iff] at h
    have hforbidden := List.any_eq_false.mp h.2 '/' hmem
    exact hforbidden (by decide)
  have hjoin : join [part] = part := by simp [join]
  have hsegments := segments_join (List.cons_ne_nil part []) (by simpa using hslash)
  rwa [hjoin] at hsegments

theorem portable_project {project : String} (h : validateProjectName project = .ok ()) :
    validatePortableSegment project = true := by
  unfold validateProjectName at h
  split at h
  · cases h
  · rename_i hnot
    simp only [Bool.or_eq_true, not_or, Bool.not_eq_true, Bool.not_eq_false'] at hnot
    exact hnot.1.2

theorem head_of_segments (h : ∀ part ∈ segments path, part ≠ "") : path.toList.head? ≠ some '/' := by
  intro hhead
  cases hchars : path.toList with
  | nil =>
      rw [hchars] at hhead
      cases hhead
  | cons ch rest =>
      rw [hchars] at hhead
      cases hhead
      have hpath : path = "" ++ "/" ++ String.ofList rest := by
        apply String.toList_inj.mp
        simp [hchars]
      have hempty : "" ∈ segments path := by
        rw [hpath, segments_append]
        exact List.mem_append_left _ (by decide +kernel)
      exact h "" hempty rfl

/-- The grammar, name by name. -/
theorem validPath_iff : ValidPath path ↔ path.utf8ByteSize ≤ 4096 ∧
    (∀ ch ∈ ['\\', ':', Char.ofNat 0], ch ∉ path.toList) ∧
    ∀ part ∈ segments path, validatePortableSegment part = true := by
  constructor
  · intro h
    refine ⟨?_, ?_, fun part => h.portable⟩ <;>
    · have hnormal : normalizeSyncPath path = .ok path := h
      unfold normalizeSyncPath normalizeSyncPathAllowInternal at hnormal
      split at hnormal
      · cases hnormal
      · rename_i hraw
        simp only [Bool.or_eq_true, not_or, decide_eq_true_eq, Nat.not_lt, List.contains_iff_mem] at hraw
        simp [hraw]
  · rintro ⟨hsize, hchars, hparts⟩
    have hname : ∀ text : String, segments text = [text] → path = text →
        validatePortableSegment text = true := by
      rintro text hsegments rfl
      exact hparts path (by rw [hsegments]; exact List.mem_singleton_self path)
    have hempty : path ≠ "" := fun h => (portable_ne (hname "" (by decide +kernel) h)).1 rfl
    have hdot : path ≠ "." := fun h => (portable_ne (hname "." (by decide +kernel) h)).2.1 rfl
    have hdots : path ≠ ".." := fun h => (portable_ne (hname ".." (by decide +kernel) h)).2.2 rfl
    have hhead := head_of_segments fun part hpart => (portable_ne (hparts part hpart)).1
    have hback : path.toList.head? ≠ some '\\' := fun h =>
      hchars '\\' (by simp) (List.mem_of_mem_head? h)
    have hraw : ¬ (path.isEmpty || 4096 < path.utf8ByteSize || path == "." || path == ".." ||
        path.toList.head? == some '/' || path.toList.head? == some '\\' || path.toList.contains '\\' ||
        path.toList.contains ':' || path.toList.contains (Char.ofNat 0)) = true := by
      simp only [List.mem_cons, List.not_mem_nil, or_false, forall_eq_or_imp, forall_eq] at hchars
      simp only [Bool.or_eq_true, decide_eq_true_eq, beq_iff_eq, not_or, List.contains_iff_mem,
        String.isEmpty_iff]
      exact ⟨⟨⟨⟨⟨⟨⟨⟨hempty, Nat.not_lt.mpr hsize⟩, hdot⟩, hdots⟩, hhead⟩, hback⟩, hchars.1⟩,
        hchars.2.1⟩, hchars.2.2⟩
    have hbad : ¬ ((segments path).any fun part =>
        part.isEmpty || part == "." || part == ".." || !validatePortableSegment part) = true := by
      rw [List.any_eq_true]
      rintro ⟨part, hpart, hbad⟩
      have hne := portable_ne (hparts part hpart)
      simp [hne, hparts part hpart] at hbad
    have hinternal : isInternalPath path = false := by
      rw [isInternalPath, List.any_eq_false]
      intro part hpart heq
      rw [beq_iff_eq] at heq
      have hportable := hparts part hpart
      rw [heq] at hportable
      exact absurd hportable (by decide +kernel)
    show normalizeSyncPath path = .ok path
    unfold normalizeSyncPath normalizeSyncPathAllowInternal
    rw [if_neg hraw, if_neg hbad, join_segments]
    simp only [bind, Except.bind, hinternal, pure, Except.pure, Bool.false_eq_true, if_false]

/-- What is above a path that can be synchronized can be synchronized. -/
theorem ValidPath.above {q p : String} (h : ValidPath p) (habove : Above q p) : ValidPath q := by
  obtain ⟨hsize, hchars, hparts⟩ := validPath_iff.mp h
  obtain ⟨r, rfl⟩ := above_iff_append.mp habove
  refine validPath_iff.mpr ⟨?_, fun ch hch hmem => hchars ch hch ?_, fun part hpart =>
    hparts part (habove.1.subset hpart)⟩
  · rw [String.utf8ByteSize_append, String.utf8ByteSize_append] at hsize
    omega
  · simp [hmem]

/-- A name in front of a path that can be synchronized. -/
theorem ValidPath.below {p name : String} (h : ValidPath p) (hname : validatePortableSegment name = true)
    (hsize : (name ++ "/" ++ p).utf8ByteSize ≤ 4096) : ValidPath (name ++ "/" ++ p) := by
  obtain ⟨-, hchars, hparts⟩ := validPath_iff.mp h
  refine validPath_iff.mpr ⟨hsize, fun ch hch hmem => ?_, fun part hpart => ?_⟩
  · have hforbidden : forbidden ch = true ∧ ch ≠ '/' := by
      obtain rfl | rfl | rfl : ch = '\\' ∨ ch = ':' ∨ ch = Char.ofNat 0 := by simpa using hch
      · decide
      · decide
      · decide
    obtain hfront | hback : ch ∈ name.toList ∨ ch ∈ p.toList := by simpa [hforbidden.2] using hmem
    · simp only [validatePortableSegment, Bool.not_eq_true', Bool.or_eq_false_iff] at hname
      exact List.any_eq_false.mp hname.2 ch hfront hforbidden.1
    · exact hchars ch hch hback
  · rw [segments_append, segments_portable hname] at hpart
    obtain rfl | hpart := List.mem_cons.mp hpart
    · exact hname
    · exact hparts part hpart
end Paths

/-! ## Ways without links -/

section Ways

variable {quiet : Prop} {v : View String Leaf} {root path : FilePath} {text : String}
  {site : CommitSite}

/-- What is in front of something is a directory. -/
theorem dir_on_way {q : FilePath} (hclosed : v.Closed) (hq : q <+: path) (hne : q ≠ path)
    (hview : v path ≠ none) : v q = some .dir := by
  obtain ⟨rest, rfl⟩ := hq
  apply hclosed.above ?_ hview
  rintro rfl
  exact hne (List.append_nil q).symm

/-! ## The checks of a commit -/

/-- Where an upload is staged. -/
def CommitSite.stagedPath (site : CommitSite) (path : SyncPath) : FilePath :=
  site.stagedFiles ++ segments path

/-- Where a path of the project is. -/
def CommitSite.projectPath (site : CommitSite) (path : SyncPath) : FilePath :=
  site.projectDir ++ segments path

end Ways

end VivadoServer.Sync
