/-
  VivadoServer.Projects.Reuse

  When a project may be reused.  Over every run of the store, with any number of
  operations under way, failing calls and power failures: the answer that a project
  is clean is given only where it was earned, and a marker that reads clean after a
  power failure stands for content that the failure did not touch.
-/

import VivadoServer.Projects.Operations

namespace VivadoServer.Projects

open Sync (FilePath IoError INTERNAL_DIR validateProjectName)
open StepSystem

variable {task : Nat} {s t : Store} {seen : Project} {project : String} {root path : FilePath}

/-! ## What happens besides the operations -/

theorem validateProjectName_ne (h : (validateProjectName project).isOk = true) :
    project ≠ INTERNAL_DIR := by
  rintro rfl
  exact absurd h (by decide)

theorem modify_good {version : Nat} {node : Option Node} (hs : s.Sound)
    (hdirty : (s.projects project).dirty = true) (hvalid : (validateProjectName project).isOk = true) :
    (s.modify project version node).Sound ∧ ∀ n, s.Rely n (s.modify project version node) := by
  have hspares : s.Spares (s.disk.setName (s.root ++ [project]) node) :=
    setName_spares fun q => markerPath_ne q (by simp)
  have hquiet := hs.cleaning hdirty
  have hspared := hs.spare hspares
  refine ⟨hspared.record (fun hleads hclean => ?_) fun _ => ⟨hspared.dirty hdirty, hquiet⟩, fun n => ?_⟩
  · exact absurd hclean (hspared.dirty hdirty _ hleads)
  -- nothing below the metadata directory is named like the project
  have hnames : ∀ {path}, metadataRoot s.root <+: path →
      (s.disk.setName (s.root ++ [project]) node).names path = s.disk.names path := by
    rintro _ ⟨rest, rfl⟩
    refine Function.update_of_ne (fun heq => ?_) ..
    simp only [metadataRoot, List.append_assoc, List.append_cancel_left_eq, List.cons_append,
      List.nil_append, List.cons.injEq] at heq
    exact validateProjectName_ne hvalid heq.1.symm
  refine Store.Rely.trans (t := { s with disk := s.disk.setName (s.root ++ [project]) node })
    { Store.Rely.refl n s with
      held := fun hlock => ⟨hlock, rfl, rfl, hnames⟩
      never := fun _ _ hnever i hleads => hnever i (hspares.leads hleads) }
    (setProject_rely ?_)
  exact { Project.Bears.refl n (s.projects project) with
    approved := fun hmem => by
      rw [hquiet] at hmem
      cases hmem
    flushed := fun hmem => by
      rw [hquiet] at hmem
      cases hmem
    unknown := fun hclean => by
      rw [hdirty] at hclean
      cases hclean }

theorem Name.Leads.crash {name : Name} {choice inode : Nat} (h : (name.crash choice).Leads inode) :
    name.Leads inode := by
  simp only [Name.Leads, Name.crash, List.mem_singleton] at h
  cases hget : (name.now :: name.before)[choice]? with
  | none =>
      rw [hget] at h
      rw [Name.Leads, h]
      exact List.mem_cons_self
  | some node =>
      rw [hget] at h
      rw [Name.Leads, h]
      exact List.mem_of_getElem? hget

theorem crash_sound (hs : s.Sound) (names : FilePath → Nat) (bytes : Nat → List UInt8)
    (versions : String → Nat) : (s.crash names bytes versions).Sound := by
  have hleads : ∀ {q i}, ((s.crash names bytes versions).marker q).Leads i → (s.marker q).Leads i :=
    fun h => h.crash
  have hinode : ∀ {q i}, (s.marker q).Leads i →
      (s.crash names bytes versions).disk.inodes i = s.disk.inodes i :=
    fun h => if_pos (hs.files h).2
  refine ⟨fun h => ?_, fun {q i} h hclean => ?_, fun {q} hdirty i h => ?_, fun _ => rfl⟩
  · rw [hinode (hleads h)]
    exact hs.files (hleads h)
  · rw [hinode (hleads h)] at hclean
    obtain ⟨hflushed, hversion⟩ := hs.vouched (hleads h) hclean
    refine ⟨rfl, ?_⟩
    show (if _ then _ else _) = (s.projects q).approved
    rw [if_pos hflushed, hversion]
  · rw [hinode (hleads h)]
    exact hs.dirty hdirty i (hleads h)

theorem fresh_sound (h : s.Fresh) : s.Sound where
  files {q i} hleads := by
    rw [Name.Leads, Store.marker, h.names, List.mem_singleton] at hleads
    exact ⟨h.files _ _ hleads.symm, h.inodes i⟩
  vouched {q i} _ _ := by
    obtain ⟨hflushed, hversion, -⟩ := h.projects q
    exact ⟨hflushed, hversion.symm⟩
  dirty {q} hdirty := by
    rw [(h.projects q).2.2.1] at hdirty
    cases hdirty
  cleaning {q} _ := (h.projects q).2.2.2

/-! ## The outline -/

/-- What ran before the machine stopped does not run any more; what runs now is safe. -/
def Place.At (task : Nat) (s : Store) : Place → Prop
  | asked _ => True
  | running boot seen operation calls => boot ≤ s.boot ∧
    (boot = s.boot → Calls.Safe contract task (operation.Post s.root seen) calls s)

/-- What a step does to the others, unless it stops the machine. -/
structure Store.Moves (mover : Option Nat) (s t : Store) : Prop where
  boot : s.boot ≤ t.boot
  rely : t.boot = s.boot → ∀ n, mover ≠ some n → s.Rely n t

theorem does_moves (h : contract.Does task s t) : s.Moves (some task) t where
  boot := (h (task + 1) (Nat.succ_ne_self _)).boot.ge
  rely _ n hn := h n fun heq => hn (congrArg some heq.symm)

theorem exec_good {p : Place} {choice : Choice} {o : Tasks.Outcome Store Place} (hs : s.Sound)
    (hat : p.At task s) (hexec : exec task choice s p = some o) :
    o.shared.Sound ∧ o.place.At task o.shared ∧ s.Moves (some task) o.shared ∧ o.child = none := by
  cases p with
  | asked operation =>
      cases hexec
      have hgood : (s.begin task operation).Sound ∧ contract.Does task s (s.begin task operation) :=
        begin_good hs operation
      obtain ⟨hsound, hdoes⟩ := hgood
      have hboot : (s.begin task operation).boot = s.boot := by cases operation <;> rfl
      have hroot : (s.begin task operation).root = s.root := by cases operation <;> rfl
      refine ⟨hsound, ⟨hboot.ge, fun _ => ?_⟩, does_moves hdoes, rfl⟩
      show Calls.Safe contract task (operation.Post (s.begin task operation).root _) _ _
      rw [hroot]
      exact program_holds _ hsound begin_facts
  | running boot seen operation calls =>
      cases calls with
      | done r => cases hexec
      | call c next =>
          simp only [exec] at hexec
          split at hexec
          · rename_i hboot
            obtain ⟨⟨a, u⟩, hserve, rfl⟩ := Option.map_eq_some_iff.mp hexec
            obtain ⟨hsound, hdoes, hsafe⟩ := hat.2 hboot s u choice a hs (.refl ..) hserve
            have hrely := hdoes (task + 1) (Nat.succ_ne_self _)
            refine ⟨hsound, ⟨hat.1.trans hrely.boot.ge, fun _ => ?_⟩, does_moves hdoes, rfl⟩
            show Calls.Safe contract task (operation.Post u.root seen) (next a) u
            rw [hrely.root]
            exact hsafe
          · cases hexec

theorem env_good {e : Event} (hs : s.Sound) (henv : s.env e = some t) :
    t.Sound ∧ s.Moves none t := by
  cases e with
  | modify project version node =>
      simp only [Store.env] at henv
      split at henv
      · rename_i hguard
        cases henv
        obtain ⟨hsound, hrely⟩ := modify_good hs hguard.1 hguard.2
        exact ⟨hsound, le_rfl, fun _ n _ => hrely n⟩
      · cases henv
  | crash names bytes versions =>
      cases henv
      exact ⟨crash_sound hs names bytes versions, Nat.le_succ _,
        fun heq => absurd heq (Nat.succ_ne_self _)⟩

theorem Place.At.stable {p : Place} {mover : Option Nat} (hmoves : s.Moves mover t)
    (hmover : mover ≠ some task) (hat : p.At task s) : p.At task t := by
  cases p with
  | asked operation => trivial
  | running boot seen operation calls =>
      refine ⟨hat.1.trans hmoves.boot, fun hboot => ?_⟩
      have hle := hat.1
      have hle' := hmoves.boot
      have hrely := hmoves.rely (by omega) task hmover
      rw [hrely.root]
      exact (hat.2 (by omega)).stable hrely

def outline : Tasks.Outline program where
  Inv := Store.Sound
  At task s p := p.At task s
  Idle _ _ := True
  Does mover _ s t := s.Moves mover t
  enter {task s p s'} hs _ henter := by
    cases p with
    | asked operation =>
        cases henter
        exact ⟨hs, trivial, le_rfl, fun _ n _ => .refl n _⟩
    | running boot seen operation calls => cases henter
  exec {task child c s p o} hs hat hexec _ := by
    obtain ⟨hsound, hat', hmoves, hchild⟩ := exec_good hs hat hexec
    refine ⟨hsound, hat', hmoves, fun q hq => ?_⟩
    rw [hchild] at hq
    cases hq
  env hs henv := env_good hs henv
  stable _ _ hmoves hmover _ hat := hat.stable hmoves hmover
  idle _ _ _ _ := trivial

/-! ## Runs -/

section

variable {ok : Tasks.Action Place Choice Event → Sys → Prop} {t : Sys}

theorem holds_of_run (hfresh : s.Fresh) (hrun : Run program.step ok (Tasks.State.start s) t) :
    outline.Holds t :=
  outline.run_holds hrun (outline.start_holds (fresh_sound hfresh) fun _ => trivial)

/-- Who was told, since the machine was last started, that a project is clean. -/
def Place.saysClean (boot : Nat) : Place → Option (Project × String)
  | running boot' seen (.isClean project) (.done (.ok true)) =>
    if boot' = boot then some (seen, project) else none
  | _ => none

theorem saysClean_some {p : Place} {boot : Nat} (h : p.saysClean boot = some (seen, project)) :
    p = .running boot seen (.isClean project) (.done (.ok true)) := by
  unfold Place.saysClean at h
  split at h
  · split at h
    · rename_i hboot
      cases h
      rw [hboot]
    · cases h
  · cases h

/-- An answer that a project is clean is earned.  If the project was known to be dirty when
    the question was put, it was called clean since; and unless it was called dirty since,
    its content is on the disk and is what was called clean. -/
theorem clean_answer_earned (hfresh : s.Fresh)
    (hrun : Run program.step ok (Tasks.State.start s) t)
    (hanswer : (t.tasks task).bind (·.saysClean t.shared.boot) = some (seen, project)) :
    (seen.dirty = true → seen.cleans < (t.shared.projects project).cleans) ∧
    ((t.shared.projects project).dirtied = seen.dirtied →
      (t.shared.projects project).flushed = true ∧
      (t.shared.projects project).version = (t.shared.projects project).approved) := by
  have hholds := holds_of_run hfresh hrun
  obtain ⟨p, hp, hsays⟩ := Option.bind_eq_some_iff.mp hanswer
  obtain rfl := saysClean_some hsays
  obtain ⟨-, hsafe⟩ := hholds.places hp
  obtain ⟨-, hearned⟩ := hsafe rfl t.shared hholds.inv (.refl ..)
  obtain ⟨hcalled, hvouched⟩ := hearned rfl
  exact ⟨hcalled, fun heq => (hvouched heq).2⟩

/-- A marker that reads clean after a power failure stands for a project whose content the
    failure did not touch, and which is what was last called clean. -/
theorem power_failure_spares_clean {names : FilePath → Nat} {bytes : Nat → List UInt8}
    {versions : String → Nat} {inode : Nat} (hfresh : s.Fresh)
    (hrun : Run program.step ok (Tasks.State.start s) t)
    (hmarker : ((t.shared.crash names bytes versions).marker project).now = some (.file inode))
    (hclean : ((t.shared.crash names bytes versions).disk.inodes inode).bytes = CLEAN) :
    ((t.shared.crash names bytes versions).projects project).version =
      (t.shared.projects project).version ∧
    (t.shared.projects project).version = (t.shared.projects project).approved ∧
    (t.shared.projects project).dirty = false := by
  have hsound : t.shared.Sound := (holds_of_run hfresh hrun).inv
  have hlater := crash_sound hsound names bytes versions
  have hleads : (t.shared.marker project).Leads inode := (Name.Leads.now hmarker).crash
  have hbytes : (t.shared.disk.inodes inode).bytes = CLEAN := by
    rw [← hclean]
    exact congrArg Inode.bytes (if_pos (hsound.files hleads).2).symm
  obtain ⟨hflushed, hversion⟩ := hsound.vouched hleads hbytes
  refine ⟨if_pos hflushed, hversion, ?_⟩
  by_contra hdirty
  exact hsound.dirty (by simpa using hdirty) inode hleads hbytes

end

/-! ## A sample run -/

/-- A workspace with one project, which has no marker yet. -/
def sampleStore : Store where
  root := ["work"]
  disk := {
    names := fun path =>
      if path ∈ [["work"], ["work", INTERNAL_DIR], ["work", INTERNAL_DIR, "projects"],
          ["work", "demo"]] then ⟨some .dir, []⟩
      else ⟨none, []⟩
    inodes := fun _ => ⟨[], true⟩
    next := 0 }
  lock := none
  boot := 0
  projects := fun _ => ⟨7, true, 7, false, [], 0, 0⟩

theorem sampleStore_fresh : sampleStore.Fresh where
  names path := by
    show (if _ then _ else _ : Name).before = []
    split <;> rfl
  inodes _ := rfl
  files path inode h := by
    have hnames : (sampleStore.disk.names path).now = some .dir ∨
        (sampleStore.disk.names path).now = none := by
      show (if _ then _ else _ : Name).now = _ ∨ (if _ then _ else _ : Name).now = _
      split
      · exact .inl rfl
      · exact .inr rfl
    obtain hdir | hnone := hnames
    · rw [hdir] at h
      cases h
    · rw [hnone] at h
      cases h
  lock := rfl
  projects _ := ⟨rfl, rfl, rfl, rfl⟩

/-- The project is called dirty, changed and called clean; the machine stops, and the question
    is put afterwards. -/
def sampleActions : List (Tasks.Action Place Choice Event) :=
  [.enter 1 (.asked (.markDirty "demo"))] ++ List.replicate 31 (.exec 1 {} 0) ++
  [.env (.modify "demo" 9 (some .dir)), .enter 2 (.asked (.markClean "demo"))] ++
  List.replicate 40 (.exec 2 {} 0) ++
  [.env (.crash (fun _ => 1) (fun _ => []) fun _ => 0), .enter 3 (.asked (.isClean "demo"))] ++
  List.replicate 23 (.exec 3 {} 0)

theorem sample_outcome :
    (StepSystem.exec program.step sampleActions (Tasks.State.start sampleStore)).any (fun t =>
      ((t.tasks 3).bind (·.saysClean t.shared.boot)).isSome &&
      ((t.shared.crash (fun _ => 0) (fun _ => []) fun _ => 0).marker "demo").now == some (.file 1) &&
      ((t.shared.crash (fun _ => 0) (fun _ => []) fun _ => 0).disk.inodes 1).bytes == CLEAN) = true := by
  decide +kernel

theorem clean_answer_earned_sample : ∃ t seen project,
    Run program.step (fun _ _ => True) (Tasks.State.start sampleStore) t ∧
    (t.tasks 3).bind (·.saysClean t.shared.boot) = some (seen, project) ∧
    (seen.dirty = true → seen.cleans < (t.shared.projects project).cleans) ∧
    ((t.shared.projects project).dirtied = seen.dirtied →
      (t.shared.projects project).flushed = true ∧
      (t.shared.projects project).version = (t.shared.projects project).approved) := by
  obtain ⟨t, ht, hcheck⟩ := exists_of_exec sample_outcome
  simp only [Bool.and_eq_true] at hcheck
  obtain ⟨⟨seen, project⟩, hsays⟩ := Option.isSome_iff_exists.mp hcheck.1.1
  exact ⟨t, seen, project, .of_exec ht, hsays,
    clean_answer_earned sampleStore_fresh (.of_exec ht) hsays⟩

theorem power_failure_spares_clean_sample : ∃ t,
    Run program.step (fun _ _ => True) (Tasks.State.start sampleStore) t ∧
    ((t.shared.crash (fun _ => 0) (fun _ => []) fun _ => 0).projects "demo").version =
      (t.shared.projects "demo").version ∧
    (t.shared.projects "demo").version = (t.shared.projects "demo").approved ∧
    (t.shared.projects "demo").dirty = false := by
  obtain ⟨t, ht, hcheck⟩ := exists_of_exec sample_outcome
  simp only [Bool.and_eq_true, beq_iff_eq] at hcheck
  exact ⟨t, .of_exec ht,
    power_failure_spares_clean sampleStore_fresh (.of_exec ht) hcheck.1.2 hcheck.2⟩

end VivadoServer.Projects
