/-
  VivadoServer.Projects.Safety

  What a marker is worth.  A marker that reads clean, now or after the next power
  failure, stands for a project whose content is on the disk and is what its last
  `mark_clean` was called for; and a project that is known to be dirty has no marker
  that could ever read clean.  Both are kept by every call of every operation,
  whichever calls fail and whenever the machine stops.
-/

import VivadoServer.Projects.Marker

namespace VivadoServer.Projects

open Sync (FilePath IoError INTERNAL_DIR validateProjectName)
open Calls (Looks Holds Runs Stable Result)

/-! ## The invariant -/

def markerPath (root : FilePath) (project : String) : FilePath :=
  metadataRoot root ++ [project] ++ ["state"]

def Store.marker (s : Store) (project : String) : Name :=
  s.disk.names (markerPath s.root project)

/-- The name stands for the inode, or may do so after a power failure. -/
def Name.Leads (name : Name) (inode : Nat) : Prop := some (.file inode) ∈ name.now :: name.before

/-- The content of the project is on the disk, and is what was called clean. -/
def Project.Vouched (p : Project) : Prop := p.flushed = true ∧ p.version = p.approved

/-- No marker of the project reads clean, whatever a power failure brings back. -/
def Store.NeverClean (s : Store) (project : String) : Prop :=
  ∀ inode, (s.marker project).Leads inode → (s.disk.inodes inode).bytes ≠ CLEAN

/-- The path of the file that a marker is written to first. -/
def temporaryPath (root : FilePath) (project uuid : String) : FilePath :=
  metadataRoot root ++ [project] ++ [".state-" ++ uuid]

structure Store.Sound (s : Store) : Prop where
  -- a marker is flushed before it gets its name
  files : ∀ {project inode}, (s.marker project).Leads inode →
    inode < s.disk.next ∧ (s.disk.inodes inode).synced = true
  vouched : ∀ {project inode}, (s.marker project).Leads inode →
    (s.disk.inodes inode).bytes = CLEAN → (s.projects project).Vouched
  dirty : ∀ {project}, (s.projects project).dirty = true → s.NeverClean project
  cleaning : ∀ {project}, (s.projects project).dirty = true → (s.projects project).cleaning = []

/-! ## What the others may do -/

/-- What a task may find of a project after others moved. -/
structure Project.Bears (task : Nat) (p q : Project) : Prop where
  cleans : p.cleans ≤ q.cleans
  dirtied : p.dirtied ≤ q.dirtied
  known : p.dirty = true → q.cleans = p.cleans → q.dirty = true
  quiet : p.cleaning = [] → q.cleans = p.cleans → q.cleaning = []
  mine : task ∈ p.cleaning → task ∈ q.cleaning
  -- nobody changes a project of which it is not known that it is dirty
  approved : task ∈ p.cleaning → p.version = p.approved → q.version = q.approved
  flushed : task ∈ p.cleaning → p.flushed = true → q.flushed = true
  unknown : p.dirty = false → q.dirtied = p.dirtied → q.dirty = false ∧ (p.Vouched → q.Vouched)

theorem Project.Bears.refl (task : Nat) (p : Project) : p.Bears task p :=
  ⟨le_rfl, le_rfl, fun h _ => h, fun h _ => h, fun h => h, fun _ h => h, fun _ h => h,
    fun h _ => ⟨h, fun h => h⟩⟩

theorem Project.Bears.trans {task : Nat} {p q r : Project} (h : p.Bears task q)
    (h' : q.Bears task r) : p.Bears task r where
  cleans := h.cleans.trans h'.cleans
  dirtied := h.dirtied.trans h'.dirtied
  known hdirty heq := by
    have hle := h.cleans
    have hle' := h'.cleans
    exact h'.known (h.known hdirty (by omega)) (by omega)
  quiet hquiet heq := by
    have hle := h.cleans
    have hle' := h'.cleans
    exact h'.quiet (h.quiet hquiet (by omega)) (by omega)
  mine hmem := h'.mine (h.mine hmem)
  approved hmem heq := h'.approved (h.mine hmem) (h.approved hmem heq)
  flushed hmem hflushed := h'.flushed (h.mine hmem) (h.flushed hmem hflushed)
  unknown hdirty heq := by
    have hle := h.dirtied
    have hle' := h'.dirtied
    obtain ⟨hdirty', hkeeps⟩ := h.unknown hdirty (by omega)
    obtain ⟨hdirty'', hkeeps'⟩ := h'.unknown hdirty' (by omega)
    exact ⟨hdirty'', fun hvouched => hkeeps' (hkeeps hvouched)⟩

structure Store.Rely (task : Nat) (s t : Store) : Prop where
  root : t.root = s.root
  boot : t.boot = s.boot
  next : s.disk.next ≤ t.disk.next
  -- a file that was flushed is not written again
  inodes : ∀ {inode}, inode < s.disk.next → (s.disk.inodes inode).synced = true →
    t.disk.inodes inode = s.disk.inodes inode
  -- nobody else writes below the metadata directory
  held : s.lock = some task → t.lock = some task ∧ t.disk.next = s.disk.next ∧
    t.disk.inodes = s.disk.inodes ∧
    ∀ {path}, metadataRoot s.root <+: path → t.disk.names path = s.disk.names path
  projects : ∀ project, (s.projects project).Bears task (t.projects project)
  never : ∀ {project}, (s.projects project).cleaning = [] →
    (t.projects project).cleans = (s.projects project).cleans →
    s.NeverClean project → t.NeverClean project

theorem Store.Rely.refl (task : Nat) (s : Store) : s.Rely task s where
  root := rfl
  boot := rfl
  next := le_rfl
  inodes _ _ := rfl
  held h := ⟨h, rfl, rfl, fun _ => rfl⟩
  projects _ := .refl ..
  never _ _ h := h

theorem Store.Rely.trans {task : Nat} {s t u : Store} (h : s.Rely task t) (h' : t.Rely task u) :
    s.Rely task u where
  root := h'.root.trans h.root
  boot := h'.boot.trans h.boot
  next := h.next.trans h'.next
  inodes hlt hsynced := by
    have heq := h.inodes hlt hsynced
    rw [h'.inodes (hlt.trans_le h.next) (by rw [heq, hsynced]), heq]
  held hlock := by
    obtain ⟨hlock', hnext, hinodes, hnames⟩ := h.held hlock
    obtain ⟨hlock'', hnext', hinodes', hnames'⟩ := h'.held hlock'
    refine ⟨hlock'', hnext'.trans hnext, hinodes'.trans hinodes, fun hpath => ?_⟩
    rw [hnames' (by rw [h.root]; exact hpath), hnames hpath]
  projects project := (h.projects project).trans (h'.projects project)
  never {project} hquiet heq hnever := by
    have hle := (h.projects project).cleans
    have hle' := (h'.projects project).cleans
    have hsame : (t.projects project).cleans = (s.projects project).cleans := by omega
    exact h'.never ((h.projects project).quiet hquiet hsame) (by omega) (h.never hquiet hsame hnever)

/-- A step of a task leaves every other task what it relies on. -/
def Store.Does (task : Nat) (s t : Store) : Prop := ∀ n, n ≠ task → s.Rely n t

def contract : Calls.Contract Store Call Call.Answer Choice where
  serve := serve
  Inv := Store.Sound
  Rely := Store.Rely
  Does := Store.Does
  refl := .refl
  trans := .trans

theorem does_refl (task : Nat) (s : Store) : contract.Does task s s := fun _ _ => .refl ..

variable {task : Nat} {s t : Store} {seen : Project} {project : String} {root path : FilePath}
  {clean : Bool}

/-! ## Paths of the metadata -/

theorem markerPath_ne (project : String) (h : path.length ≠ root.length + 4) :
    path ≠ markerPath root project := by
  rintro rfl
  simp [markerPath, metadataRoot] at h

theorem temporary_ne (uuid : String) (q : String) :
    temporaryPath root project uuid ≠ markerPath root q := by
  intro heq
  have hlast := congrArg List.getLast? heq
  simp only [temporaryPath, markerPath, List.getLast?_append, List.getLast?_singleton, Option.some_or,
    Option.some.injEq] at hlast
  have hchars := congrArg (fun text => text.toList.head?) hlast
  rw [String.toList_append] at hchars
  revert hchars
  simp

theorem markerPath_injective {q : String} (h : markerPath root project = markerPath root q) :
    project = q := by
  simpa [markerPath] using h

/-! ## Steps that touch the disk only -/

theorem unlessFails_some {α : Type} {choice : Choice} {x : Except IoError (α × Store)}
    {a : Except IoError α} (h : unlessFails s choice x = some (a, t)) :
    (∃ e, a = .error e ∧ t = s) ∨ ∃ value, a = .ok value ∧ x = .ok (value, t) := by
  unfold unlessFails at h
  split at h
  · cases h
    exact .inl ⟨_, rfl, rfl⟩
  · cases h
    exact .inr ⟨_, rfl, rfl⟩
  · cases h
    exact .inl ⟨_, rfl, rfl⟩

/-- No marker is changed, nor any file that was flushed. -/
structure Store.Spares (s : Store) (d : Disk) : Prop where
  next : s.disk.next ≤ d.next
  inodes : ∀ {inode}, inode < s.disk.next → (s.disk.inodes inode).synced = true →
    d.inodes inode = s.disk.inodes inode
  leads : ∀ {project inode}, (d.names (markerPath s.root project)).Leads inode →
    (s.marker project).Leads inode

theorem Store.Spares.refl (s : Store) : s.Spares s.disk := ⟨le_rfl, fun _ _ => rfl, fun h => h⟩

theorem Store.Spares.bytes {d : Disk} (h : s.Spares d) (hs : s.Sound) {inode : Nat}
    (hleads : (d.names (markerPath s.root project)).Leads inode) :
    d.inodes inode = s.disk.inodes inode := by
  obtain ⟨hlt, hsynced⟩ := hs.files (h.leads hleads)
  exact h.inodes hlt hsynced

theorem Store.Sound.spare {d : Disk} (hs : s.Sound) (h : s.Spares d) : { s with disk := d }.Sound where
  files {project inode} hleads := by
    obtain ⟨hlt, hsynced⟩ := hs.files (h.leads hleads)
    refine ⟨hlt.trans_le h.next, ?_⟩
    show (d.inodes inode).synced = true
    rw [h.inodes hlt hsynced, hsynced]
  vouched {project inode} hleads hclean := by
    refine hs.vouched (h.leads hleads) ?_
    rw [← h.bytes hs hleads]
    exact hclean
  dirty {project} hdirty inode hleads := by
    show (d.inodes inode).bytes ≠ CLEAN
    rw [h.bytes hs hleads]
    exact hs.dirty hdirty inode (h.leads hleads)
  cleaning := hs.cleaning

theorem Store.Spares.does {d : Disk} (h : s.Spares d) (hs : s.Sound) (hlock : s.lock = some task) :
    contract.Does task s { s with disk := d } := by
  intro n hn
  refine
    { Store.Rely.refl n s with
      next := h.next
      inodes := h.inodes
      held := fun hlock' => absurd (Option.some.inj (hlock'.symm.trans hlock)) hn
      never := fun _ _ hnever inode hleads => ?_ }
  show (d.inodes inode).bytes ≠ CLEAN
  rw [h.bytes hs hleads]
  exact hnever inode (h.leads hleads)

theorem Name.Leads.now {name : Name} {inode : Nat} (h : name.now = some (.file inode)) :
    name.Leads inode := by
  rw [Name.Leads, h]
  exact List.mem_cons_self

theorem Name.Leads.flush {name : Name} {inode : Nat} (h : name.flush.Leads inode) :
    name.Leads inode := by
  simp only [Name.Leads, Name.flush, List.mem_singleton] at h
  rw [Name.Leads, h]
  exact List.mem_cons_self

theorem Name.Leads.set {name : Name} {node : Option Node} {inode : Nat}
    (h : (name.set node).Leads inode) : node = some (.file inode) ∨ name.Leads inode := by
  simp only [Name.Leads, Name.set, List.mem_cons] at h ⊢
  obtain h | h | h := h
  · exact .inl h.symm
  · exact .inr (.inl h)
  · exact .inr (.inr h)

theorem setName_spares {node : Option Node} (h : ∀ q, path ≠ markerPath s.root q) :
    s.Spares (s.disk.setName path node) where
  next := le_rfl
  inodes _ _ := rfl
  leads {project inode} hleads := by
    simp only [Disk.setName, Function.update_of_ne (h project).symm] at hleads
    exact hleads

theorem makeDir_spares (h : ∀ q, path ≠ markerPath s.root q) : s.Spares (s.disk.makeDir path) where
  next := le_rfl
  inodes _ _ := rfl
  leads {project inode} hleads := by
    simp only [Disk.makeDir, Disk.setName, Function.update_of_ne (h project).symm] at hleads
    split at hleads
    · simp [Name.Leads] at hleads
    · exact hleads

theorem makeFile_spares (h : ∀ q, path ≠ markerPath s.root q) : s.Spares (s.disk.makeFile path) where
  next := Nat.le_succ _
  inodes hlt _ := Function.update_of_ne (Nat.ne_of_lt hlt) ..
  leads hleads := (setName_spares h).leads hleads

theorem syncNames_spares : s.Spares (s.disk.syncNames path) where
  next := le_rfl
  inodes _ _ := rfl
  leads {project inode} hleads := by
    simp only [Disk.syncNames] at hleads
    split at hleads
    · exact hleads.flush
    · exact hleads

/-- Writing a file that is not flushed. -/
theorem setInode_spares {inode : Nat} {content : Inode} (h : (s.disk.inodes inode).synced = false) :
    s.Spares (s.disk.setInode inode content) where
  next := le_rfl
  inodes {i} _ hsynced := by
    refine Function.update_of_ne ?_ ..
    rintro rfl
    rw [h] at hsynced
    cases hsynced
  leads hleads := hleads

/-! ## Steps on the record of a project -/

/-- What is written of one project changes, and the disk does not. -/
theorem Store.Sound.record {p : Project} (hs : s.Sound)
    (hvouched : ∀ {inode}, (s.marker project).Leads inode →
      (s.disk.inodes inode).bytes = CLEAN → p.Vouched)
    (hdirty : p.dirty = true → s.NeverClean project ∧ p.cleaning = []) :
    (s.setProject project p).Sound where
  files := hs.files
  vouched {q inode} hleads hclean := by
    by_cases hq : q = project
    · subst hq
      simpa [Store.setProject] using hvouched hleads hclean
    · simpa [Store.setProject, hq] using hs.vouched hleads hclean
  dirty {q} hdirty' := by
    by_cases hq : q = project
    · subst hq
      exact (hdirty (by simpa [Store.setProject] using hdirty')).1
    · exact hs.dirty (by simpa [Store.setProject, hq] using hdirty')
  cleaning {q} hdirty' := by
    by_cases hq : q = project
    · subst hq
      simpa [Store.setProject] using (hdirty (by simpa [Store.setProject] using hdirty')).2
    · simpa [Store.setProject, hq] using hs.cleaning (by simpa [Store.setProject, hq] using hdirty')

theorem setProject_rely {p : Project} (h : (s.projects project).Bears task p) :
    s.Rely task (s.setProject project p) :=
  { Store.Rely.refl task s with
    projects := fun q => by
      by_cases hq : q = project
      · subst hq
        simpa [Store.setProject] using h
      · simpa [Store.setProject, hq] using Project.Bears.refl task (s.projects q)
    never := fun _ _ h => h }

theorem begin_good (hs : s.Sound) (operation : Operation) :
    (s.begin task operation).Sound ∧ contract.Does task s (s.begin task operation) := by
  cases operation with
  | isClean project => exact ⟨hs, does_refl task s⟩
  | markDirty project => exact ⟨hs, does_refl task s⟩
  | markClean project =>
      refine ⟨hs.record (fun hleads hclean => ⟨(hs.vouched hleads hclean).1, rfl⟩) (by rintro ⟨⟩),
        fun n hn => setProject_rely ?_⟩
      exact {
        cleans := Nat.le_succ _
        dirtied := le_rfl
        known := fun _ heq => absurd heq (Nat.succ_ne_self _)
        quiet := fun _ heq => absurd heq (Nat.succ_ne_self _)
        mine := List.mem_cons_of_mem _
        approved := fun _ _ => rfl
        flushed := fun _ h => h
        unknown := fun _ _ => ⟨rfl, fun h => ⟨h.1, rfl⟩⟩ }

/-- The answer to `mark_clean`. -/
theorem finishClean_good (hs : s.Sound) (ok : Bool) :
    (s.finish task seen ok (.markClean project)).Sound ∧
      contract.Does task s (s.finish task seen ok (.markClean project)) := by
  refine ⟨hs.record (fun hleads hclean => hs.vouched hleads hclean)
    fun hdirty => ⟨hs.dirty hdirty, ?_⟩, fun n hn => setProject_rely ?_⟩
  · show List.filter _ _ = []
    rw [hs.cleaning hdirty]
    rfl
  · exact { Project.Bears.refl n (s.projects project) with
      quiet := fun hquiet _ => by
        show List.filter _ _ = []
        rw [hquiet]
        rfl
      mine := fun hmem => List.mem_filter.mpr ⟨hmem, by simpa using hn⟩ }

/-- The answer to `mark_dirty`, which licenses changes when no call of `mark_clean` was
    beside it. -/
theorem finishDirty_good (hs : s.Sound) {ok : Bool}
    (hcalm : ok = true → seen.cleaning = [] → (s.projects project).cleans = seen.cleans →
      s.NeverClean project ∧ (s.projects project).cleaning = []) :
    (s.finish task seen ok (.markDirty project)).Sound ∧
      contract.Does task s (s.finish task seen ok (.markDirty project)) := by
  cases ok with
  | false => exact ⟨hs, does_refl task s⟩
  | true =>
      refine ⟨hs.record (fun hleads hclean => hs.vouched hleads hclean) fun hdirty => ?_,
        fun n _ => setProject_rely ?_⟩
      · simp only [Bool.or_eq_true, Bool.and_eq_true, List.isEmpty_iff, beq_iff_eq] at hdirty
        obtain hdirty | ⟨hquiet, heq⟩ := hdirty
        · exact ⟨hs.dirty hdirty, hs.cleaning hdirty⟩
        · exact hcalm rfl hquiet heq
      · exact { Project.Bears.refl n (s.projects project) with
          dirtied := Nat.le_succ _
          known := fun hdirty _ => by
            show (_ || _) = true
            rw [hdirty]
            rfl
          unknown := fun _ heq => absurd heq (Nat.succ_ne_self _) }

end VivadoServer.Projects
