/-
  VivadoServer.Workspace.Shown

  What is shown of a workspace comes from inside.  Every entry of a listing, every preview,
  every download and every entry of an archive shows one file that was checked, under the
  names that led to it; everything else is skipped or refused without being opened.
-/

import VivadoServer.Workspace.Inside

namespace VivadoServer.Workspace

open Sync
open UnixPath (Bytes fileName)
open Openat

variable {Obj : Type}

/-! ## What is shown -/

/-- The names of a requested path, from the workspace root. -/
def requested (project path : String) : List Bytes := fileName project :: (parts path).map fileName

/-- Every entry shows a file that was checked, as it was at a later time. -/
def Listed (w : World Obj) (root : Bytes) (project path : String) (listing : WorkspaceListing) : Prop :=
  ∀ entry ∈ listing.entries, ∃ obj t seen, t ≤ seen ∧
    Checked w root (requested project path ++ [fileName entry.name]) t obj ∧
    entry = workspaceEntry path entry.name (w.metadata seen obj)

/-- A regular file that was checked, and its size at a later time. -/
def Shown (w : World Obj) (root : Bytes) (project path : String) (obj : Obj) (size : Nat) : Prop :=
  w.kind obj = .regular ∧ ∃ t seen, t ≤ seen ∧ Checked w root (requested project path) t obj ∧
    size = (w.metadata seen obj).len

/-- Size and text are those of one file. -/
def Previewed (w : World Obj) (root : Bytes) (project path : String) (shown : WorkspacePreview) : Prop :=
  ∃ obj, Shown w root project path obj shown.sizeBytes ∧
    ∀ text, shown.text = some text → ReadFrom w obj (fileName text)

/-- A directory that was checked, or a regular file and bytes that were read from it. -/
def Entered (w : World Obj) (root : Bytes) (project path : String) (entry : ZipEntry) : Prop :=
  ∃ below name obj t,
    Checked w root (requested project path ++ (below ++ [name]).map fileName) t obj ∧
    (w.kind obj = .directory ∧ entry = ⟨join (below ++ [name]) ++ "/", none⟩ ∨
      w.kind obj = .regular ∧ ∃ data, ReadFrom w obj data ∧ entry = ⟨join (below ++ [name]), some data⟩)

/-- The path of a directory within the archive. -/
def above : List String → String
  | [] => ""
  | part :: rest => part ++ "/" ++ above rest

theorem above_append (below : List String) (name : String) : above below ++ name = join (below ++ [name]) := by
  induction below with
  | nil => simp [above, join]
  | cons part rest ih =>
      have hne : rest ++ [name] ≠ [] := by simp
      obtain ⟨first, more, hrest⟩ := List.exists_cons_of_ne_nil hne
      rw [above, String.append_assoc, String.append_assoc, ih, List.cons_append, hrest, join, join]
      simp [String.intercalate_cons_cons, String.append_assoc]

theorem above_snoc (below : List String) (name : String) :
    above (below ++ [name]) = join (below ++ [name]) ++ "/" := by
  induction below with
  | nil => simp [above, join]
  | cons part rest ih =>
      have hne : rest ++ [name] ≠ [] := by simp
      obtain ⟨first, more, hrest⟩ := List.exists_cons_of_ne_nil hne
      rw [List.cons_append, above, ih, hrest, join, join]
      simp [String.intercalate_cons_cons, String.append_assoc]

section Reads

variable {w : World Obj} {root : Bytes} {project path : String} {t₀ : Nat} {obj directory : Obj}

theorem opening_gives {leaf : Bool} :
    Gives w root project t₀ (openProject w root project >>= fun file => openPath w file path leaf)
      fun t obj => Child w root (requested project path) leaf t obj ∧
        (leaf = false → w.kind obj = .regular) := by
  apply Gives.seq _ openProject_gives
  intro t parent _ hparent
  exact openPath_gives hparent

theorem listNames_gives {found : List String} {entries : List WorkspaceEntry}
    (h : Checked w root (requested project path) t₀ directory) (hfound : ∀ name ∈ found, Allowed name)
    (hentries : ∀ there, Listed w root project path ⟨path, entries, there⟩) :
    Gives w root project t₀ (listNames w directory path found entries) fun _ entries =>
      ∀ there, Listed w root project path ⟨path, entries, there⟩ := by
  induction found generalizing t₀ entries with
  | nil => exact .ret hentries
  | cons name rest ih =>
      unfold listNames
      apply Gives.seq _ (childOrSkip_gives h (hfound name List.mem_cons_self))
      intro t child ht hchild
      have hrest := fun other hother => hfound other (List.mem_cons_of_mem name hother)
      cases child with
      | none => exact ih (h.later ht) hrest hentries
      | some file =>
          have hchecked := hchild file rfl
          apply Gives.seq _ fstat_gives
          rintro t' metadata ht' ⟨seen, hseen, -, rfl⟩
          apply ih (h.later (Nat.le_trans ht ht')) hrest
          rintro there entry hentry
          obtain hbefore | hnew := List.mem_append.mp hentry
          · exact hentries there entry hbefore
          · obtain rfl := List.mem_singleton.mp hnew
            exact ⟨file, t, seen, hseen, hchecked, rfl⟩

theorem list_gives : Gives w root project t₀ (list w root project path) fun _ listing =>
    Listed w root project path listing := by
  have hnothing : ∀ there, Listed w root project path ⟨path, [], there⟩ := by
    intro there entry hentry
    cases hentry
  unfold list
  apply Gives.skip (.orFail fun _ _ => True.intro)
  intro t₁ _ _
  apply Gives.skip (.orFail fun _ _ => True.intro)
  intro t₂ _ _
  apply Gives.seq _ (Gives.attempt opening_gives)
  intro t₃ opened _ hopened
  split
  · exact .ret (hnothing false)
  · exact .raise
  · rename_i directory
    have hdirectory := (hopened directory rfl).1.1
    apply Gives.seq _ (names_gives hdirectory)
    intro t₄ found ht₄ hfound
    apply Gives.seq _ (listNames_gives (hdirectory.later ht₄) hfound hnothing)
    intro t₅ entries _ hentries
    apply Gives.ret
    intro entry hentry
    exact hentries true entry (List.mem_mergeSort.mp hentry)

theorem shown_gives {β : Type} {f : Obj → Metadata → Reading Obj β} {known : Nat → β → Prop}
    (h : ∀ t obj metadata, Shown w root project path obj metadata.len → Gives w root project t (f obj metadata) known) :
    Gives w root project t₀ (openProject w root project >>= fun directory =>
      openPath w directory path false >>= fun file => fstat w file >>= f file) known := by
  apply Gives.seq _ openProject_gives
  intro t₁ parent _ hparent
  apply Gives.seq _ (openPath_gives hparent)
  rintro t₂ file - ⟨⟨hchecked, -⟩, hregular⟩
  apply Gives.seq _ fstat_gives
  rintro t₃ metadata - ⟨seen, hseen, -, rfl⟩
  exact h t₃ file _ ⟨hregular rfl, t₂, seen, hseen, hchecked, rfl⟩

theorem download_gives : Gives w root project t₀ (download w root project path) fun _ got =>
    Shown w root project path got.1 got.2 :=
  shown_gives fun _ _ _ hshown => .ret hshown

theorem read_gives {data : Bytes} {count : Nat} (h : ReadFrom w obj data) :
    Gives w root project t₀ (read w obj data.length count) fun _ bytes => ReadFrom w obj (data ++ bytes) := by
  apply Gives.call
  intro t bytes _ heq
  obtain rfl := Except.ok.inj heq
  exact .more t _ h

theorem readToEnd_gives {limit fuel : Nat} {data : Bytes} (h : ReadFrom w obj data) :
    Gives w root project t₀ (readToEnd w obj limit fuel data) fun _ data => ReadFrom w obj data := by
  induction fuel generalizing t₀ data with
  | zero => exact .ret h
  | succ fuel ih =>
      unfold readToEnd
      split
      · exact .ret h
      apply Gives.seq _ (read_gives h)
      intro t bytes _ hmore
      split
      · exact .ret h
      · exact ih hmore

theorem previewOf_text {result : WorkspacePreview} {data : Bytes} {text : String} (hresult : result.text = none)
    (h : (previewOf result data).text = some text) : fileName text = data := by
  unfold previewOf at h
  split at h
  · rw [hresult] at h
    cases h
  · dsimp only at h
    split at h
    · rw [hresult] at h
      cases h
    · rename_i hstr
      split at h
      · rw [hresult] at h
        cases h
      · obtain rfl := Option.some.inj h
        exact fileName_toStr hstr

theorem previewOf_sizeBytes (result : WorkspacePreview) (data : Bytes) :
    (previewOf result data).sizeBytes = result.sizeBytes := by
  unfold previewOf
  split
  · rfl
  · dsimp only
    split
    · rfl
    · split <;> rfl

theorem preview_gives : Gives w root project t₀ (preview w root project path) fun _ shown =>
    Previewed w root project path shown := by
  apply shown_gives
  intro t₁ obj before hshown
  dsimp only
  split
  · apply Gives.ret
    refine ⟨obj, hshown, ?_⟩
    rintro text htext
    cases htext
  apply Gives.seq _ (readToEnd_gives .nothing)
  intro t₂ data _ hdata
  apply Gives.seq _ fstat_gives
  intro t₃ after _ _
  apply Gives.skip (.failIf fun _ => True.intro)
  intro t₄ _ _
  apply Gives.ret
  refine ⟨obj, ?_, fun text htext => ?_⟩
  · rw [previewOf_sizeBytes]
    exact hshown
  · rw [previewOf_text rfl htext]
    exact hdata

/-! ## Archives -/

def Packed (w : World Obj) (root : Bytes) (project path : String) (a : Archive) : Prop :=
  ∀ entry ∈ a.zip, Entered w root project path entry

theorem Packed.add {a : Archive} {entry : ZipEntry} (h : Packed w root project path a)
    (hentry : Entered w root project path entry) : Packed w root project path (a.add entry) := by
  intro other hother
  obtain hbefore | hnew := List.mem_append.mp hother
  · exact h other hbefore
  · exact List.mem_singleton.mp hnew ▸ hentry

theorem check_gives {a : Archive} {started : Nat} :
    Gives w root project t₀ (a.check w started) fun _ _ => True := by
  apply Gives.skip (.observe fun _ _ => True.intro)
  intro t checked _
  exact .orFail fun _ _ => True.intro

theorem zipCall_gives : Gives w root project t₀ (zipCall w) fun _ _ => True := by
  apply Gives.skip (.observe fun _ _ => True.intro)
  intro t error _
  cases error with
  | none => exact .ret True.intro
  | some error => exact .raise

theorem copyFile_gives {started len fuel : Nat} {a : Archive} {data : Bytes} (h : ReadFrom w obj data) :
    Gives w root project t₀ (copyFile w started a obj len fuel data) fun _ data => ReadFrom w obj data := by
  induction fuel generalizing t₀ data with
  | zero => exact .ret h
  | succ fuel ih =>
      unfold copyFile
      split
      · exact .ret h
      apply Gives.skip check_gives
      intro t₁ _ _
      apply Gives.seq _ (read_gives h)
      intro t₂ bytes _ hmore
      apply Gives.skip (.failIf fun _ => True.intro)
      intro t₃ _ _
      apply Gives.skip (.call fun _ _ _ _ => True.intro)
      intro t₄ _ _
      exact ih hmore

theorem packFile_gives {started : Nat} {a : Archive} {metadata : Metadata} {name : String}
    (h : Packed w root project path a)
    (hentry : ∀ data, ReadFrom w obj data → Entered w root project path ⟨name, some data⟩) :
    Gives w root project t₀ (packFile w started obj metadata name a) fun _ a => Packed w root project path a := by
  unfold packFile
  apply Gives.skip (.failIf fun _ => True.intro)
  intro t₁ _ _
  apply Gives.skip check_gives
  intro t₂ _ _
  apply Gives.skip zipCall_gives
  intro t₃ _ _
  apply Gives.seq _ (copyFile_gives .nothing)
  intro t₄ data _ hdata
  apply Gives.seq _ fstat_gives
  intro t₅ after _ _
  apply Gives.skip (.failIf fun _ => True.intro)
  intro t₆ _ _
  exact .ret (Packed.add h (hentry data hdata))

/-- A round for every name; `descend` keeps to the rule for the directories below. -/
theorem packNames_gives {started : Nat} {descend : Obj → String → Archive → Reading Obj Archive}
    (hdescend : ∀ t below file a, Checked w root (requested project path ++ below.map fileName) t file →
      Packed w root project path a →
      Gives w root project t (descend file (above below) a) fun _ a => Packed w root project path a)
    {below found : List String} {a : Archive}
    (h : Checked w root (requested project path ++ below.map fileName) t₀ directory)
    (hfound : ∀ name ∈ found, Allowed name) (ha : Packed w root project path a) :
    Gives w root project t₀ (packNames w started descend directory (above below) found a) fun _ a =>
      Packed w root project path a := by
  induction found generalizing t₀ a with
  | nil => exact .ret ha
  | cons name rest ih =>
      have hrest := fun other hother => hfound other (List.mem_cons_of_mem name hother)
      unfold packNames
      apply Gives.skip check_gives
      intro t₁ _ ht₁
      apply Gives.seq _ (childOrSkip_gives (h.later ht₁) (hfound name List.mem_cons_self))
      intro t₂ child ht₂ hchild
      have hdirectory := h.later (Nat.le_trans ht₁ ht₂)
      cases child with
      | none => exact ih hdirectory hrest ha
      | some file =>
          have hnames : fileName project :: ((parts path).map fileName ++ below.map fileName) ++ [fileName name] =
              requested project path ++ (below ++ [name]).map fileName := by
            simp [requested]
          have hchecked : Checked w root (requested project path ++ (below ++ [name]).map fileName) t₂ file := by
            rw [← hnames]
            exact hchild file rfl
          apply Gives.seq _ fstat_gives
          rintro t₃ metadata ht₃ ⟨seen, hseen, -, rfl⟩
          apply Gives.skip (.failIf fun _ => True.intro)
          intro t₄ _ ht₄
          apply Gives.skip check_gives
          intro t₅ _ ht₅
          have hlater : ∀ t, t₅ ≤ t → Checked w root (requested project path ++ below.map fileName) t directory :=
            fun t ht => hdirectory.later (by omega)
          rw [above_append]
          split
          · rename_i hdir
            have hreal : w.kind file = .directory := by
              simpa [Metadata.isDir, w.metadata_kind] using hdir
            apply Gives.skip zipCall_gives
            intro t₆ _ ht₆
            rw [← above_snoc]
            apply Gives.seq _ (hdescend t₆ (below ++ [name]) file _ (hchecked.later (by omega)) _)
            · intro t₇ b ht₇ hb
              exact ih (hlater t₇ (by omega)) hrest hb
            · apply Packed.add ha
              exact ⟨below, name, file, t₂, hchecked, .inl ⟨hreal, by rw [above_snoc]⟩⟩
          · rename_i hdir
            have hfile : w.kind file = .regular := by
              obtain ⟨s, -, -, hreal | ⟨hfile, -⟩⟩ := hchecked
              · simp [Metadata.isDir, w.metadata_kind, hreal] at hdir
              · exact hfile
            have hentry : ∀ data, ReadFrom w file data →
                Entered w root project path ⟨join (below ++ [name]), some data⟩ := fun data hdata =>
              ⟨below, name, file, t₂, hchecked, .inr ⟨hfile, data, hdata, rfl⟩⟩
            have hcounted : Packed w root project path { a with entries := a.entries + 1 } := ha
            apply Gives.seq _ (packFile_gives hcounted hentry)
            intro t₆ b ht₆ hb
            exact ih (hlater t₆ ht₆) hrest hb

theorem pack_gives {started left : Nat} (below : List String) {a : Archive}
    (h : Checked w root (requested project path ++ below.map fileName) t₀ directory)
    (ha : Packed w root project path a) :
    Gives w root project t₀ (pack w started left directory (above below) a) fun _ a =>
      Packed w root project path a := by
  induction left generalizing t₀ directory below a with
  | zero => exact .raise
  | succ left ih =>
      unfold pack
      apply Gives.seq _ (names_gives h)
      intro t found ht hfound
      exact packNames_gives (fun _ below _ _ hfile hb => ih below hfile hb) (h.later ht) hfound ha

theorem archive_gives : Gives w root project t₀ (archive w root project path) fun _ zip =>
    ∀ entry ∈ zip, Entered w root project path entry := by
  unfold archive
  apply Gives.skip (.observe fun _ _ => True.intro)
  intro t₁ permit _
  apply Gives.skip (.failIf fun _ => True.intro)
  intro t₂ _ _
  apply Gives.seq (fun _ _ => Allowed project) (.orFail fun _ h => .of_project h)
  intro t₃ _ _ hproject
  apply Gives.skip (.orFail fun _ _ => True.intro)
  intro t₄ _ _
  apply Gives.seq _ openRoot_gives
  rintro t₅ workspace - ⟨since, hsince, hroot⟩
  apply Gives.seq _ (openAt_child ⟨List.not_mem_nil, workspace, since, hroot, .refl⟩ hsince hproject ⟨[], rfl⟩)
  intro t₆ parent _ hparent
  apply Gives.seq _ (openPath_gives hparent)
  rintro t₇ directory - ⟨⟨hchecked, -⟩, -⟩
  apply Gives.skip (.call fun _ _ _ _ => True.intro)
  intro t₈ _ ht₈
  apply Gives.skip (.observe fun _ _ => True.intro)
  intro t₉ started ht₉
  apply Gives.seq _ (pack_gives [] _ _)
  · intro t packed _ hpacked
    apply Gives.skip zipCall_gives
    intro t₁₁ _ _
    apply Gives.skip (.call fun _ _ _ _ => True.intro)
    intro t₁₂ _ _
    apply Gives.skip (.call fun _ _ _ _ => True.intro)
    intro t₁₃ _ _
    exact .ret hpacked
  · rw [List.map_nil, List.append_nil]
    exact hchecked.later (Nat.le_trans ht₈ ht₉)
  · intro entry hentry
    cases hentry

end Reads

/-! ## Confinement -/

/-- Run on its own, the program opens only what it may, and shows only what it should. -/
def Confined {α : Type} (w : World Obj) (root : Bytes) (project : String) (x : Reading Obj α)
    (shown : α → Prop) : Prop :=
  Triple (fun s => s.opened = []) x (fun a s => Safe w root project s ∧ shown a)
    fun _ s => Safe w root project s

theorem Gives.confined {α : Type} {w : World Obj} {root : Bytes} {project : String} {x : Reading Obj α}
    {shown : α → Prop} (h : Gives w root project 0 x fun _ => shown) : Confined w root project x shown := by
  apply Triple.weaken h
  · intro s hs
    refine ⟨?_, Nat.zero_le _⟩
    rintro p hp
    rw [hs] at hp
    cases hp
  · rintro a s ⟨hsafe, t, -, -, ha⟩
    exact ⟨hsafe, ha⟩
  · exact fun _ _ hs => hs.1

/-- The four requests stay inside the project, whatever happens to the tree meanwhile. -/
theorem reads_stay_inside (w : World Obj) (root : Bytes) (project path : String) :
    Confined w root project (list w root project path) (Listed w root project path) ∧
    Confined w root project (preview w root project path) (Previewed w root project path) ∧
    Confined w root project (download w root project path)
      (fun got => Shown w root project path got.1 got.2) ∧
    Confined w root project (archive w root project path)
      (fun zip => ∀ entry ∈ zip, Entered w root project path entry) :=
  ⟨list_gives.confined, preview_gives.confined, download_gives.confined, archive_gives.confined⟩

end VivadoServer.Workspace
