/-
  VivadoServer.Workspace.Inside

  What is opened in a workspace, whatever is changed between any two calls.  A file has
  been found from the workspace root by a chain of plain names, each in a real directory,
  and it is a directory or a regular file with one link when it is checked.

  What is known of an open file is known from some time on (`Gives`), since files are
  pinned and only the names may lead elsewhere later.
-/

import VivadoServer.Workspace.Browse

namespace VivadoServer.Workspace

open Sync
open UnixPath (Bytes Component Plain fileName slash)
open Openat

variable {Obj : Type}

/-! ## What is inside -/

/-- The names of a path. -/
def normals (path : List Component) : List Bytes := path.filterMap fun
  | .normal name => some name
  | _ => none

/-- The absolute path of the workspace root. -/
def Absolute (w : World Obj) (root absolute : Bytes) : Prop :=
  root.head? = some slash ∧ absolute = root ∨ ∃ t, absolute = UnixPath.push (w.currentDir t) root

/-- A directory on the way that `open_root` takes. -/
def OnRootPath (w : World Obj) (root : Bytes) (obj : Obj) : Prop :=
  w.kind obj = .directory ∧ ∃ absolute start names since, Absolute w root absolute ∧
    names <+: normals (UnixPath.components absolute) ∧ w.Chain start w.top names since obj

/-- The end of the way. -/
def RootAt (w : World Obj) (root : Bytes) (since : Nat) (obj : Obj) : Prop :=
  w.kind obj = .directory ∧ ∃ absolute start, Absolute w root absolute ∧
    w.Chain start w.top (normals (UnixPath.components absolute)) since obj

/-- Found from the workspace root by these names. -/
def Reached (w : World Obj) (root : Bytes) (names : List Bytes) (s : Nat) (obj : Obj) : Prop :=
  fileName INTERNAL_DIR ∉ names ∧ ∃ workspace since, RootAt w root since workspace ∧
    w.Chain since workspace names s obj

/-- Found before `t`, and a directory or a regular file that had one link at a later check. -/
def Checked (w : World Obj) (root : Bytes) (names : List Bytes) (t : Nat) (obj : Obj) : Prop :=
  ∃ s, s ≤ t ∧ Reached w root names s obj ∧
    (w.kind obj = .directory ∨
      w.kind obj = .regular ∧ ∃ check, s ≤ check ∧ check < t ∧ (w.metadata check obj).nlink = 1)

/-- What may be opened for reading: the way to the workspace root, and what is checked in
    the project. -/
def MayOpen (w : World Obj) (root : Bytes) (project : String) (t : Nat) (obj : Obj) : Prop :=
  OnRootPath w root obj ∨ ∃ rest, Checked w root (fileName project :: rest) t obj

def Safe (w : World Obj) (root : Bytes) (project : String) (s : System Obj) : Prop :=
  ∀ p ∈ s.opened, MayOpen w root project p.1 p.2

/-- Bytes that were read from a file, one part after the other. -/
inductive ReadFrom (w : World Obj) (obj : Obj) : Bytes → Prop
  | nothing : ReadFrom w obj []
  | more {data} (t count : Nat) (before : ReadFrom w obj data) :
      ReadFrom w obj (data ++ ((w.contents t obj).drop data.length).take count)

/-! ## Programs and what they give -/

/-- Run at `t₀` or later, the program opens what it may, and its answer is known since some time. -/
def Gives (w : World Obj) (root : Bytes) (project : String) {α : Type} (t₀ : Nat) (x : Reading Obj α)
    (known : Nat → α → Prop) : Prop :=
  Triple (fun s => Safe w root project s ∧ t₀ ≤ s.clock) x
    (fun a s => Safe w root project s ∧ ∃ t, t₀ ≤ t ∧ t ≤ s.clock ∧ known t a)
    fun _ s => Safe w root project s ∧ t₀ ≤ s.clock

namespace Gives

variable {w : World Obj} {root : Bytes} {project : String} {α β : Type} {t₀ : Nat} {a : α} {e : AppError}
  {known known' : Nat → α → Prop} {last : Nat → β → Prop} {x : Reading Obj α} {f : α → Reading Obj β}

theorem ret (h : known t₀ a) : Gives w root project t₀ (pure a) known :=
  Triple.ret fun _ hs => ⟨hs.1, t₀, Nat.le_refl t₀, hs.2, h⟩

theorem raise : Gives w root project t₀ (throw e) known := Triple.raise fun _ hs => hs

theorem seq (known : Nat → α → Prop) (hx : Gives w root project t₀ x known)
    (hf : ∀ t a, t₀ ≤ t → known t a → Gives w root project t (f a) last) :
    Gives w root project t₀ (x >>= f) last := by
  apply Triple.seq hx
  intro a s hs
  obtain ⟨hsafe, t, ht, hclock, hknown⟩ := hs
  have hrest := hf t a ht hknown s ⟨hsafe, hclock⟩
  split
  · rename_i heq
    rw [heq] at hrest
    obtain ⟨hsafe', t', ht', hlast⟩ := hrest
    exact ⟨hsafe', t', Nat.le_trans ht ht', hlast⟩
  · rename_i heq
    rw [heq] at hrest
    exact ⟨hrest.1, Nat.le_trans ht hrest.2⟩

/-- A step of which nothing needs to be known. -/
theorem skip (hx : Gives w root project t₀ x fun _ _ => True)
    (hf : ∀ t a, t₀ ≤ t → Gives w root project t (f a) last) :
    Gives w root project t₀ (x >>= f) last :=
  seq _ hx fun t a ht _ => hf t a ht

theorem weaken (known : Nat → α → Prop) (h : Gives w root project t₀ x known) (hknown : ∀ t a, t₀ ≤ t → known t a → known' t a) :
    Gives w root project t₀ x known' := by
  apply Triple.weaken h (fun _ => id) _ fun _ _ => id
  rintro a s ⟨hsafe, t, ht, hclock, ha⟩
  exact ⟨hsafe, t, ht, hclock, hknown t a ht ha⟩

/-- A failure says nothing. -/
theorem attempt (h : Gives w root project t₀ x known) :
    Gives w root project t₀ x.attempt fun t r => ∀ a, r = .ok a → known t a := by
  apply Triple.attempt
  apply Triple.weaken h (fun _ => id)
  · rintro a s ⟨hsafe, t, ht, hclock, ha⟩
    refine ⟨hsafe, t, ht, hclock, ?_⟩
    rintro b heq
    cases heq
    exact ha
  · rintro e s ⟨hsafe, hclock⟩
    refine ⟨hsafe, t₀, Nat.le_refl t₀, hclock, ?_⟩
    rintro b heq
    cases heq

/-- What is seen at a time is known from then on. -/
theorem observe {g : Nat → α} (h : ∀ t, t₀ ≤ t → known (t + 1) (g t)) :
    Gives w root project t₀ (Workspace.observe g) known := by
  intro s hs
  refine ⟨hs.1, s.clock + 1, ?_, Nat.le_refl _, h s.clock hs.2⟩
  have := hs.2
  omega

theorem call {g : Nat → Except Errno α} (h : ∀ t a, t₀ ≤ t → g t = .ok a → known (t + 1) a) :
    Gives w root project t₀ (Workspace.call w g) known := by
  apply seq (fun t r => ∀ a, r = .ok a → known t a)
  · apply observe
    intro t ht a heq
    apply h t a ht
    cases hfault : w.fault t with
    | none => rwa [hfault] at heq
    | some error =>
        rw [hfault] at heq
        cases heq
  · intro t r _ hr
    cases r with
    | ok a => exact ret (hr a rfl)
    | error error => exact raise

theorem orFail {r : Except AppError α} (h : ∀ a, r = .ok a → known t₀ a) :
    Gives w root project t₀ (Workspace.orFail r) known := by
  cases r with
  | ok a => exact ret (h a rfl)
  | error error => exact raise

theorem failIf {bad : Bool} {known : Nat → Unit → Prop} (h : bad = false → known t₀ ()) :
    Gives w root project t₀ (Workspace.failIf bad e) known := by
  cases bad with
  | false => exact ret (h rfl)
  | true => exact raise

theorem onlyIf {c : Bool} {x : Reading Obj Unit} {known : Nat → Unit → Prop}
    (hyes : c = true → Gives w root project t₀ x known) (hno : c = false → known t₀ ()) :
    Gives w root project t₀ (Workspace.onlyIf c x) known := by
  cases c with
  | false => exact ret (hno rfl)
  | true => exact hyes rfl

theorem opened {obj : Obj} {known : Nat → Unit → Prop}
    (h : ∀ t, t₀ ≤ t → MayOpen w root project t obj) (hknown : known t₀ ()) :
    Gives w root project t₀ (openedForReading obj) known := by
  apply Triple.update
  rintro s ⟨hsafe, hclock⟩
  refine ⟨?_, t₀, Nat.le_refl t₀, hclock, hknown⟩
  rintro p hp
  obtain hold | hnew := List.mem_append.mp hp
  · exact hsafe p hold
  · obtain rfl := List.mem_singleton.mp hnew
    exact h s.clock hclock

end Gives

/-! ## Opening -/

section Opening

variable {w : World Obj} {root : Bytes} {project : String} {t₀ : Nat} {obj parent : Obj} {name : String}
  {directory : Bool} {names : List Bytes}

/-- What `open_at` knows of the file that it returns. -/
def OpenedAt (w : World Obj) (directory : Bool) (s t : Nat) (obj : Obj) : Prop :=
  s ≤ t ∧ (directory = true → w.kind obj = .directory) ∧
    (w.kind obj = .directory ∨
      w.kind obj = .regular ∧ ∃ check, s ≤ check ∧ check < t ∧ (w.metadata check obj).nlink = 1)

theorem OpenedAt.later {s t t' : Nat} (h : OpenedAt w directory s t obj) (ht : t ≤ t') :
    OpenedAt w directory s t' obj := by
  obtain ⟨hst, hasked, hreal | ⟨hfile, check, hfrom, hto, hlinks⟩⟩ := h
  · exact ⟨by omega, hasked, .inl hreal⟩
  · exact ⟨by omega, hasked, .inr ⟨hfile, check, hfrom, by omega, hlinks⟩⟩

theorem fstat_gives : Gives w root project t₀ (fstat w obj) fun t metadata =>
    ∃ check, t₀ ≤ check ∧ check < t ∧ metadata = w.metadata check obj := by
  apply Gives.call
  intro t metadata ht heq
  exact ⟨t, ht, by omega, (Except.ok.inj heq).symm⟩

theorem reopen_gives (h : ∀ t, t₀ ≤ t → MayOpen w root project t obj) {known : Nat → Unit → Prop}
    (hknown : ∀ t, t₀ ≤ t → known t ()) : Gives w root project t₀ (reopen w obj) known := by
  apply Gives.skip
  · exact .call fun _ _ _ _ => True.intro
  · intro t _ ht
    exact .opened (fun t' ht' => h t' (Nat.le_trans ht ht')) (hknown t ht)

/-- The rule of `open_at`: what is found by the name, and may be opened once it is checked. -/
theorem openAt_gives (Found : Nat → Obj → Prop)
    (hfound : ∀ t obj flags, t₀ ≤ t → flags.noFollow = true →
      w.openat t parent (fileName name) flags = .ok obj → Found (t + 1) obj)
    (hopen : ∀ s t obj, Found s obj → OpenedAt w directory s t obj → MayOpen w root project t obj) :
    Gives w root project t₀ (openAt w parent name directory) fun t obj =>
      ∃ s, Found s obj ∧ OpenedAt w directory s t obj := by
  unfold openAt
  apply Gives.skip (Gives.failIf fun _ => True.intro)
  intro t₁ _ ht₁
  apply Gives.seq (fun s obj => Found s obj ∧ (directory = true → w.kind obj = .directory))
  · apply Gives.call
    intro t obj ht hopened
    exact ⟨hfound t obj _ (Nat.le_trans ht₁ ht) rfl hopened, Inodes.openat_directory hopened⟩
  rintro s obj - ⟨hobj, hasked⟩
  apply Gives.skip
  · apply Gives.onlyIf
    · intro hd
      exact .opened (fun t ht => hopen s t obj hobj ⟨ht, hasked, .inl (hasked hd)⟩) True.intro
    · exact fun _ => True.intro
  intro t₂ _ ht₂
  apply Gives.seq _ fstat_gives
  rintro t₃ metadata - ⟨check, hfrom, hto, rfl⟩
  -- The check of `open_at`, on the inode that is pinned.
  apply Gives.seq (fun t _ => OpenedAt w directory s t obj)
  · apply Gives.failIf
    intro hgood
    refine ⟨by omega, hasked, ?_⟩
    simp only [Metadata.isDir, Metadata.isFile, w.metadata_kind, Bool.and_eq_false_iff, Bool.or_eq_false_iff,
      Bool.not_eq_false', beq_iff_eq, bne_eq_false_iff_eq] at hgood
    obtain hreal | ⟨hfile, hlinks⟩ := hgood
    · exact .inl hreal
    · exact .inr ⟨hfile, check, by omega, hto, hlinks⟩
  intro t₄ _ _ hopened
  apply Gives.seq (fun t _ => OpenedAt w directory s t obj)
  · apply Gives.onlyIf
    · intro _
      exact reopen_gives (fun t ht => hopen s t obj hobj (hopened.later ht)) fun t ht => hopened.later ht
    · exact fun _ => hopened
  intro t₅ _ _ hopened
  exact .ret ⟨s, hobj, hopened⟩

/-! ## The workspace root -/

theorem fileName_toStr {bytes : Bytes} {text : String} (h : toStr bytes = some text) : fileName text = bytes := by
  unfold toStr String.fromUTF8? at h
  split at h
  · obtain rfl := Option.some.inj h
    apply List.toByteArray_inj.mp
    rw [fileName, ← List.utf8Encode, String.utf8Encode_toList]
    rfl
  · cases h

theorem normals_append (path more : List Component) : normals (path ++ more) = normals path ++ normals more :=
  List.filterMap_append

theorem openComponents_gives {absolute : Bytes} {start : Nat} (habsolute : Absolute w root absolute)
    {done rest : List Component} (hpath : done ++ rest = UnixPath.components absolute) {s : Nat} (hs : s ≤ t₀)
    (hreal : w.kind obj = .directory) (hchain : w.Chain start w.top (normals done) s obj) :
    Gives w root project t₀ (openComponents w obj rest) fun t workspace =>
      ∃ since, since ≤ t ∧ RootAt w root since workspace := by
  induction rest generalizing done s t₀ obj with
  | nil =>
      rw [List.append_nil] at hpath
      exact .ret ⟨s, hs, hreal, absolute, start, habsolute, hpath ▸ hchain⟩
  | cons component rest ih =>
      have hnext : done ++ [component] ++ rest = UnixPath.components absolute := by
        rw [List.append_assoc]
        exact hpath
      cases component with
      | rootDir =>
          apply ih hnext hs hreal
          rw [normals_append]
          exact (List.append_nil (normals done)).symm ▸ hchain
      | curDir =>
          apply ih hnext hs hreal
          rw [normals_append]
          exact (List.append_nil (normals done)).symm ▸ hchain
      | parentDir => exact .raise
      | normal bytes =>
          unfold openComponents
          split
          · exact .raise
          rename_i name hname
          have hbytes := fileName_toStr hname
          have hnames : normals (done ++ [.normal bytes]) = normals done ++ [bytes] := normals_append _ _
          have hbegins : normals done ++ [bytes] <+: normals (UnixPath.components absolute) := by
            rw [← hnext, normals_append, hnames]
            exact List.prefix_append _ _
          have hplain : Plain bytes :=
            UnixPath.plain_of_normal (hpath ▸ List.mem_append_right done List.mem_cons_self)
          apply Gives.seq _
          · apply openAt_gives fun s next => w.Chain start w.top (normals done ++ [bytes]) s next
            · intro t next flags ht hflags hopened
              rw [hbytes] at hopened
              exact hchain.openat (Nat.le_trans hs ht) hopened hflags hplain
            · rintro s t next hfound ⟨-, hasked, -⟩
              exact .inl ⟨hasked rfl, absolute, start, _, s, habsolute, hbegins, hfound⟩
          · rintro t next - ⟨s, hfound, hst, hasked, -⟩
            exact ih hnext hst (hasked rfl) (hnames ▸ hfound)

theorem openRoot_gives : Gives w root project t₀ (openRoot w root) fun t workspace =>
    ∃ since, since ≤ t ∧ RootAt w root since workspace := by
  unfold openRoot
  apply Gives.seq (fun _ absolute => Absolute w root absolute)
  · unfold absolutePath
    split
    · rename_i hhead
      exact .ret (.inl ⟨hhead, rfl⟩)
    · apply Gives.seq (fun _ current => ∃ t, current = w.currentDir t)
      · exact .call fun t _ _ heq => ⟨t, (Except.ok.inj heq).symm⟩
      · rintro t _ - ⟨t', rfl⟩
        exact .ret (.inr ⟨t', rfl⟩)
  intro t₁ absolute _ habsolute
  apply Gives.skip
  · exact .call fun _ _ _ _ => True.intro
  intro t₂ _ _
  have htop : w.Chain t₂ w.top [] t₂ w.top := .refl
  apply Gives.skip
  · apply Gives.opened _ True.intro
    intro t _
    exact .inl ⟨w.top_directory, absolute, t₂, [], t₂, habsolute, List.nil_prefix, htop⟩
  intro t₃ _ ht₃
  exact openComponents_gives habsolute (List.nil_append _) ht₃ w.top_directory htop

/-! ## The project -/

/-- A name that may be used below the workspace root. -/
structure Allowed (name : String) : Prop where
  plain : Plain (fileName name)
  shown : name ≠ INTERNAL_DIR

theorem Allowed.of_segment (h : validSegment name = true) : Allowed name := by
  simp only [validSegment, Bool.and_eq_true, Bool.not_eq_true', List.contains_eq_mem, decide_eq_false_iff_not,
    List.mem_cons, List.not_mem_nil, or_false, not_or, List.any_eq_false, String.isEmpty_eq_false_iff] at h
  obtain ⟨⟨⟨hempty, hdot, hdots, hinternal⟩, -⟩, hchars⟩ := h
  refine ⟨UnixPath.plain_fileName hempty ?_ hdot hdots, hinternal⟩
  intro hslash
  exact hchars '/' hslash (by decide)

theorem Allowed.of_project (h : validateProjectName name = .ok ()) : Allowed name := by
  have hportable := portable_project h
  obtain ⟨hempty, hdot, hdots⟩ := portable_ne hportable
  have hself : name ∈ segments name := by
    rw [segments_portable hportable]
    exact List.mem_singleton_self name
  exact ⟨UnixPath.plain_fileName hempty (slash_notMem_segments hself) hdot hdots, project_ne_internal h⟩

/-- The parts of a path that is accepted. -/
def parts (path : String) : List String := (segments path).filter fun part => !part.isEmpty

theorem valid_of_path {allowRoot : Bool} {path part : String} (h : validatePath path allowRoot = .ok ())
    (hpart : part ∈ parts path) : validSegment part = true := by
  obtain ⟨hsegment, hnonempty⟩ := List.mem_filter.mp hpart
  unfold validatePath at h
  split at h
  · cases h
  rename_i hvalid
  simp only [Bool.or_eq_true, Bool.and_eq_true, Bool.not_eq_true', not_or, not_and, Bool.not_eq_false] at hvalid
  by_cases hpath : path.isEmpty = false
  · exact List.all_eq_true.mp (hvalid.1.2 hpath) part hsegment
  · -- the path of the project itself has no part
    obtain rfl := String.isEmpty_iff.mp (Bool.not_eq_false _ ▸ hpath)
    obtain rfl : part = "" := by
      have hempty : segments "" = [""] := by decide +kernel
      rwa [hempty, List.mem_singleton] at hsegment
    cases hnonempty

theorem Checked.later {t t' : Nat} (h : Checked w root names t obj) (ht : t ≤ t') :
    Checked w root names t' obj := by
  obtain ⟨s, hst, hreached, hreal | ⟨hfile, check, hfrom, hto, hlinks⟩⟩ := h
  · exact ⟨s, by omega, hreached, .inl hreal⟩
  · exact ⟨s, by omega, hreached, .inr ⟨hfile, check, hfrom, by omega, hlinks⟩⟩

theorem Reached.checked {s t : Nat} (h : Reached w root names s obj) (hopened : OpenedAt w directory s t obj) :
    Checked w root names t obj := ⟨s, hopened.1, h, hopened.2.2⟩

theorem Reached.child {s t : Nat} {flags : Flags} (h : Reached w root names s parent) (hst : s ≤ t)
    (hopened : w.openat t parent (fileName name) flags = .ok obj) (hflags : flags.noFollow = true)
    (hname : Allowed name) : Reached w root (names ++ [fileName name]) (t + 1) obj := by
  obtain ⟨hinternal, workspace, since, hroot, hchain⟩ := h
  refine ⟨?_, workspace, since, hroot, hchain.openat hst hopened hflags hname.plain⟩
  rw [List.mem_append, List.mem_singleton, not_or]
  exact ⟨hinternal, fun heq => hname.shown (UnixPath.fileName_inj heq).symm⟩

/-- What is opened by a name in a directory that was reached. -/
def Child (w : World Obj) (root : Bytes) (names : List Bytes) (directory : Bool) (t : Nat) (obj : Obj) : Prop :=
  Checked w root names t obj ∧ (directory = true → w.kind obj = .directory)

theorem openAt_child {s : Nat} (h : Reached w root names s parent) (hs : s ≤ t₀) (hname : Allowed name)
    (hproject : ∃ rest, names ++ [fileName name] = fileName project :: rest) :
    Gives w root project t₀ (openAt w parent name directory) fun t obj =>
      Child w root (names ++ [fileName name]) directory t obj := by
  apply Gives.weaken _
  · apply openAt_gives fun s obj => Reached w root (names ++ [fileName name]) s obj
    · intro t obj flags ht hflags hopened
      exact h.child (Nat.le_trans hs ht) hopened hflags hname
    · intro s t obj hreached hopened
      obtain ⟨rest, hnames⟩ := hproject
      exact .inr ⟨rest, hnames ▸ hreached.checked hopened⟩
  · rintro t obj - ⟨s, hreached, hopened⟩
    exact ⟨hreached.checked hopened, hopened.2.1⟩

theorem openProject_gives : Gives w root project t₀ (openProject w root project) fun t obj =>
    Child w root [fileName project] true t obj := by
  unfold openProject
  apply Gives.seq (fun _ _ => Allowed project)
  · exact .orFail fun _ h => .of_project h
  intro t _ _ hproject
  apply Gives.seq _ openRoot_gives
  rintro t' workspace - ⟨since, hsince, hroot⟩
  exact openAt_child ⟨List.not_mem_nil, workspace, since, hroot, .refl⟩ hsince hproject ⟨[], rfl⟩

/-- One name after the other, each in the directory before. -/
theorem openParts_gives (rest : List Bytes) {path : List String} (hpath : ∀ part ∈ path, Allowed part)
    (h : Child w root (fileName project :: rest) directory t₀ obj) :
    Gives w root project t₀ (openParts w directory obj path) fun t file =>
      Child w root (fileName project :: rest ++ path.map fileName) directory t file := by
  induction path generalizing rest t₀ obj with
  | nil => exact .ret ((List.append_nil _).symm ▸ h)
  | cons part path ih =>
      obtain ⟨⟨s, hs, hreached, -⟩, -⟩ := h
      apply Gives.seq _ (openAt_child hreached hs (hpath part List.mem_cons_self) ⟨rest ++ [fileName part], rfl⟩)
      rintro t next - ⟨hchecked, hasked⟩
      have hrest := ih (rest ++ [fileName part]) (fun other hother => hpath other (List.mem_cons_of_mem _ hother))
        ⟨hchecked, fun hd => hasked (by rw [hd]; rfl)⟩
      rw [← List.cons_append, List.append_assoc] at hrest
      exact hrest

theorem openPath_gives {path : String} {parent : Obj}
    (h : Child w root [fileName project] true t₀ parent) :
    Gives w root project t₀ (openPath w parent path directory) fun t obj =>
      Child w root (fileName project :: (parts path).map fileName) directory t obj ∧
        (directory = false → w.kind obj = .regular) := by
  unfold openPath
  apply Gives.seq (fun _ _ => ∀ part ∈ parts path, Allowed part)
  · exact .orFail fun _ hpath part hpart => .of_segment (valid_of_path hpath hpart)
  intro t₁ _ ht₁ hpath
  apply Gives.seq _ (openParts_gives [] hpath ⟨h.1.later ht₁, fun _ => h.2 rfl⟩)
  intro t₂ obj _ hobj
  apply Gives.seq (fun t _ =>
    Child w root (fileName project :: (parts path).map fileName) directory t obj ∧
      (directory = false → w.kind obj = .regular))
  · apply Gives.onlyIf
    · intro hleaf
      apply Gives.seq _ fstat_gives
      rintro t₃ metadata ht₃ ⟨check, -, -, rfl⟩
      apply Gives.failIf
      intro hfile
      refine ⟨⟨hobj.1.later ht₃, hobj.2⟩, fun _ => ?_⟩
      simpa [Metadata.isFile, w.metadata_kind] using hfile
    · intro hdirectory
      rw [Bool.not_eq_false'] at hdirectory
      refine ⟨hobj, fun hleaf => ?_⟩
      rw [hdirectory] at hleaf
      cases hleaf
  intro t₄ _ _ hknown
  exact .ret hknown

/-! ## Directories -/

theorem scanNames_gives {left scanned : Nat} {found : List String} (h : ∀ name ∈ found, Allowed name) :
    Gives w root project t₀ (scanNames w obj left scanned found) fun _ names =>
      ∀ name ∈ names, Allowed name := by
  induction left generalizing scanned found t₀ with
  | zero =>
      unfold scanNames
      apply Gives.skip (.call fun _ _ _ _ => True.intro)
      intro t entry _
      cases entry with
      | none => exact .ret h
      | some bytes => exact .raise
  | succ left ih =>
      unfold scanNames
      apply Gives.skip (.call fun _ _ _ _ => True.intro)
      intro t entry _
      cases entry with
      | none => exact .ret h
      | some bytes =>
          apply ih
          intro name hname
          obtain hbefore | hnew := List.mem_append.mp hname
          · exact h name hbefore
          · exact .of_segment (List.mem_filter.mp hnew).2

theorem names_gives {rest : List Bytes} (h : Checked w root (fileName project :: rest) t₀ obj) :
    Gives w root project t₀ (Workspace.names w obj) fun _ names => ∀ name ∈ names, Allowed name := by
  unfold Workspace.names
  apply Gives.skip
  · apply Gives.weaken (fun t file => ∃ s, (t₀ ≤ s ∧ file = obj) ∧ OpenedAt w true s t file)
    · apply openAt_gives fun s file => t₀ ≤ s ∧ file = obj
      · intro t file flags ht hflags hopened
        have hdot : fileName "." = [UnixPath.dot] := by decide
        rw [hdot] at hopened
        exact ⟨by omega, (Inodes.openat_self hopened hflags).1⟩
      · rintro s t file ⟨hs, rfl⟩ hopened
        exact .inr ⟨rest, h.later (Nat.le_trans hs hopened.1)⟩
    · intro _ _ _ _
      exact True.intro
  intro t₁ duplicate _
  apply Gives.skip (.call fun _ _ _ _ => True.intro)
  intro t₂ _ _
  apply Gives.seq _ (scanNames_gives (fun name hname => absurd hname List.not_mem_nil))
  intro t₃ found _ hfound
  exact .ret fun name hname => hfound name (List.mem_mergeSort.mp hname)

theorem childOrSkip_gives {rest : List Bytes} (h : Checked w root (fileName project :: rest) t₀ parent)
    (hname : Allowed name) :
    Gives w root project t₀ (childOrSkip w parent name) fun t child => ∀ file, child = some file →
      Checked w root (fileName project :: rest ++ [fileName name]) t file := by
  obtain ⟨s, hs, hreached, -⟩ := h
  apply Gives.seq _ (Gives.attempt (openAt_child hreached hs hname ⟨rest ++ [fileName name], rfl⟩))
  intro t opened _ hopened
  split
  · rename_i file
    apply Gives.ret
    rintro other heq
    obtain rfl := Option.some.inj heq
    exact (hopened file rfl).1
  · apply Gives.ret
    rintro other heq
    cases heq
  · apply Gives.ret
    rintro other heq
    cases heq
  · exact .raise

end Opening

end VivadoServer.Workspace
