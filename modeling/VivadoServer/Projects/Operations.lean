/-
  VivadoServer.Projects.Operations

  The operations on markers, call by call.  A mark knows what it holds before each of
  its calls: the lock, then a flushed project where it is to be called clean, then a
  file of its own, flushed before it gets the name of the marker.  A reader knows
  nothing until it opens the marker, and what it finds there does not change any more.
-/

import VivadoServer.Projects.Safety

namespace VivadoServer.Projects

open Sync (FilePath IoError INTERNAL_DIR validateProjectName)
open Calls (Looks Holds Runs Stable Result)

variable {task : Nat} {s t : Store} {seen : Project} {project : String} {root path : FilePath}
  {clean : Bool}

/-! ## A mark under way -/

/-- What a task knows that was asked to mark a project when it was `seen`. -/
structure Calling (task : Nat) (root : FilePath) (seen : Project) (project : String) (clean : Bool)
    (s : Store) : Prop where
  root : s.root = root
  cleans : seen.cleans ≤ (s.projects project).cleans
  mine : clean = true → task ∈ (s.projects project).cleaning
  approved : clean = true → (s.projects project).version = (s.projects project).approved
  calm : seen.cleaning = [] → (s.projects project).cleans = seen.cleans →
    (s.projects project).cleaning = []

/-- It has the lock. -/
structure Working (task : Nat) (root : FilePath) (seen : Project) (project : String) (clean : Bool)
    (s : Store) : Prop extends Calling task root seen project clean s where
  lock : s.lock = some task

/-- The project was flushed before it is called clean. -/
structure Ready (task : Nat) (root : FilePath) (seen : Project) (project : String) (clean : Bool)
    (s : Store) : Prop extends Working task root seen project clean s where
  flushed : clean = true → (s.projects project).flushed = true

/-- The task writes a file that no name of a marker leads to yet. -/
structure Writing (task : Nat) (root : FilePath) (seen : Project) (project : String) (clean : Bool)
    (uuid : String) (inode : Nat) (content : Inode) (s : Store) : Prop
    extends Ready task root seen project clean s where
  next : inode < s.disk.next
  content : s.disk.inodes inode = content
  temporary : (s.disk.names (temporaryPath s.root project uuid)).now = some (.file inode)

/-- The file became the marker. -/
structure Renamed (task : Nat) (root : FilePath) (seen : Project) (project : String) (clean : Bool)
    (inode : Nat) (content : Inode) (s : Store) : Prop
    extends Ready task root seen project clean s where
  content : s.disk.inodes inode = content
  name : (s.marker project).now = some (.file inode)

/-- A mark as dirty leaves nothing behind that reads clean, unless the project was called
    clean in the meantime. -/
def Settled (seen : Project) (project : String) (clean : Bool) (s : Store) : Prop :=
  clean = false → seen.cleaning = [] → (s.projects project).cleans = seen.cleans →
    s.NeverClean project

section Stability

variable {uuid : String} {inode : Nat} {content : Inode}

theorem Calling.stable : Stable contract task (Calling task root seen project clean) := by
  intro s t _ hrely h
  have hbears := hrely.projects project
  have hle := hbears.cleans
  have hle' := h.cleans
  exact {
    root := hrely.root.trans h.root
    cleans := hle'.trans hle
    mine := fun hclean => hbears.mine (h.mine hclean)
    approved := fun hclean => hbears.approved (h.mine hclean) (h.approved hclean)
    calm := fun hquiet heq =>
      hbears.quiet (h.calm hquiet (by omega)) (by omega) }

theorem Working.stable : Stable contract task (Working task root seen project clean) :=
  fun hinv hrely h => ⟨Calling.stable hinv hrely h.toCalling, (hrely.held h.lock).1⟩

theorem Ready.stable : Stable contract task (Ready task root seen project clean) :=
  fun hinv hrely h => ⟨Working.stable hinv hrely h.toWorking,
    fun hclean => (hrely.projects project).flushed (h.mine hclean) (h.flushed hclean)⟩

theorem markerPath_metadata (root : FilePath) (project : String) :
    metadataRoot root <+: markerPath root project := ⟨[project, "state"], by simp [markerPath]⟩

theorem temporaryPath_metadata (root : FilePath) (project uuid : String) :
    metadataRoot root <+: temporaryPath root project uuid :=
  ⟨[project, ".state-" ++ uuid], by simp [temporaryPath]⟩

theorem Writing.stable :
    Stable contract task (Writing task root seen project clean uuid inode content) := by
  intro s t hinv hrely h
  obtain ⟨-, hnext, hinodes, hnames⟩ := hrely.held h.lock
  exact {
    Ready.stable hinv hrely h.toReady with
    next := hnext.symm ▸ h.next
    content := (congrFun hinodes inode).trans h.content
    temporary := by
      rw [hrely.root, hnames (temporaryPath_metadata ..)]
      exact h.temporary }

theorem Renamed.stable : Stable contract task (Renamed task root seen project clean inode content) := by
  intro s t hinv hrely h
  obtain ⟨-, -, hinodes, hnames⟩ := hrely.held h.lock
  refine ⟨Ready.stable hinv hrely h.toReady, (congrFun hinodes inode).trans h.content, ?_⟩
  have hname := h.name
  rw [Store.marker, hrely.root, hnames (markerPath_metadata ..)]
  exact hname

theorem Settled.stable : Stable contract task fun s =>
    Calling task root seen project clean s ∧ Settled seen project clean s := by
  intro s t hinv hrely h
  refine ⟨Calling.stable hinv hrely h.1, fun hclean hquiet heq => ?_⟩
  have hle := (hrely.projects project).cleans
  have hle' := h.1.cleans
  have hsame : (s.projects project).cleans = seen.cleans := by omega
  exact hrely.never (h.1.calm hquiet hsame) (by omega) (h.2 hclean hquiet hsame)

theorem Settled.stable_if {done : Prop} : Stable contract task fun s =>
    Calling task root seen project clean s ∧ (done → Settled seen project clean s) :=
  fun hinv hrely h => ⟨Calling.stable hinv hrely h.1, fun hdone =>
    (Settled.stable hinv hrely ⟨h.1, h.2 hdone⟩).2⟩

theorem Ready.settled_stable : Stable contract task fun s =>
    Ready task root seen project clean s ∧ Settled seen project clean s :=
  fun hinv hrely h => ⟨Ready.stable hinv hrely h.1,
    (Settled.stable hinv hrely ⟨h.1.toCalling, h.2⟩).2⟩

end Stability

/-! ## Programs that only look -/

/-- The call changes nothing. -/
def Call.looks : Call → Bool
  | symlinkMetadata _ | canonicalize _ | openMarker _ | isFile _ | read .. | newUuid => true
  | _ => false

theorem unlessFails_same {α : Type} {choice : Choice} {x : Except IoError (α × Store)}
    {a : Except IoError α} (hx : ∀ value, x = .ok (value, t) → t = s)
    (h : unlessFails s choice x = some (a, t)) : t = s := by
  obtain ⟨-, -, rfl⟩ | ⟨value, -, heq⟩ := unlessFails_some h
  · rfl
  · exact hx value heq

theorem serve_looks {c : Call} (hc : c.looks = true) {choice : Choice} {a : c.Answer}
    (h : contract.serve task c choice s = some (a, t)) : t = s := by
  cases c with
  | symlinkMetadata path =>
      refine unlessFails_same (fun value heq => ?_) h
      cases hlook : s.disk.look path <;> rw [hlook] at heq <;> cases heq
      rfl
  | canonicalize path =>
      refine unlessFails_same (fun value heq => ?_) h
      cases hlook : s.disk.look path <;> rw [hlook] at heq <;> cases heq
      rfl
  | openMarker path =>
      refine unlessFails_same (fun value heq => ?_) h
      split at heq <;> cases heq <;> rfl
  | isFile marker =>
      refine unlessFails_same (fun value heq => ?_) h
      cases heq
      rfl
  | read marker limit =>
      refine unlessFails_same (fun value heq => ?_) h
      cases marker <;> cases heq
      rfl
  | newUuid =>
      cases h
      rfl
  | _ => cases hc

theorem request_looks {c : Call} (hc : c.looks = true) : Looks contract (request c).run :=
  .call (serve_looks hc) fun _ => .done _

theorem throw_looks {α : Type} (e : AppError) : Looks contract (throw e : Marking α).run := .done _

theorem pure_looks {α : Type} (a : α) : Looks contract (pure a : Marking α).run := .done _

theorem orInternal_looks {α : Type} (what : String) (x : Except IoError α) :
    Looks contract (orInternal what x).run := by
  cases x <;> exact .done _

theorem ensureRealDirectoryChain_looks (path : FilePath) :
    Looks contract (ensureRealDirectoryChain path).run := by
  unfold ensureRealDirectoryChain
  induction path.inits with
  | nil => exact .done _
  | cons current rest ih =>
      rw [List.forM_eq_forM, List.forM_cons]
      refine .seq (.seq (request_looks rfl) fun r => ?_) fun _ => ih
      split
      · exact pure_looks _
      · exact throw_looks _
      · exact throw_looks _

theorem ensureSafeProjectRoot_looks (projectDir : FilePath) :
    Looks contract (ensureSafeProjectRoot root projectDir).run := by
  unfold ensureSafeProjectRoot
  refine .seq (ensureRealDirectoryChain_looks root) fun _ => .seq (request_looks rfl) fun _ =>
    .seq (orInternal_looks ..) fun canonicalRoot => .seq (request_looks rfl) fun _ =>
      .seq (orInternal_looks ..) fun kind => ?_
  have hrest : Looks contract (do
      let canonicalProject ← orInternal "failed to canonicalize project directory: "
        (← request (.canonicalize projectDir))
      if canonicalProject = [] ∨ canonicalProject.dropLast ≠ canonicalRoot then
        throw (.badRequest "project directory escapes workspace_root") : Marking Unit).run := by
    refine .seq (request_looks rfl) fun _ => .seq (orInternal_looks ..) fun _ => ?_
    split
    · exact throw_looks _
    · exact pure_looks _
  split
  · exact .seq (throw_looks _) fun _ => hrest
  · exact hrest

theorem checkedProjectPath_looks : Looks contract (checkedProjectPath root project).run := by
  unfold checkedProjectPath
  refine .seq (ensureRealDirectoryChain_looks root) fun _ => .seq (request_looks rfl) fun r => ?_
  dsimp only
  split
  · exact .seq (ensureSafeProjectRoot_looks _) fun _ => pure_looks _
  · exact pure_looks _
  · exact .seq (orInternal_looks ..) fun _ => pure_looks _

/-! ## The calls of a mark -/

/-- What the file is to say. -/
def markerValue (clean : Bool) : List UInt8 := if clean then CLEAN else DIRTY

section Steps

variable {uuid : String} {inode : Nat} {content : Inode} {d : Disk}

theorem Ready.disk (h : Ready task root seen project clean s) :
    Ready task root seen project clean { s with disk := d } := { h with }

/-- A call that spares the markers. -/
theorem Store.Spares.good (h : s.Spares d) (hs : s.Sound) (hlock : s.lock = some task) :
    { s with disk := d }.Sound ∧ contract.Does task s { s with disk := d } :=
  ⟨hs.spare h, h.does hs hlock⟩

theorem lock_runs : Runs contract task (Calling task root seen project clean) (request .lock)
    (fun _ => Working task root seen project clean) fun _ => Calling task root seen project clean := by
  refine .lift (.ask Calling.stable (fun s u choice a hs h hserve => ?_) fun _ => Working.stable)
  simp only [contract, serve] at hserve
  split at hserve
  · rename_i hfree
    cases hserve
    have hsound : s.Sound := hs
    refine ⟨{ hsound with }, fun n hn => ?_, { h with lock := rfl }⟩
    exact { Store.Rely.refl n s with
      held := fun hlock => by
        rw [hfree] at hlock
        cases hlock }
  · cases hserve

theorem unlock_runs {done : Prop} : Runs contract task
    (fun s => Working task root seen project clean s ∧ (done → Settled seen project clean s))
    (request .unlock)
    (fun _ s => Calling task root seen project clean s ∧ (done → Settled seen project clean s))
    fun _ => Calling task root seen project clean := by
  refine .lift (.ask (fun hinv hrely h => ⟨Working.stable hinv hrely h.1,
    (Settled.stable_if hinv hrely ⟨h.1.toCalling, h.2⟩).2⟩) (fun s u choice a hs h hserve => ?_)
    fun _ => Settled.stable_if)
  simp only [contract, serve] at hserve
  split at hserve
  · cases hserve
    have hsound : s.Sound := hs
    refine ⟨{ hsound with }, fun n hn => ?_, { h.1 with }, h.2⟩
    exact { Store.Rely.refl n s with
      held := fun hlock => absurd (Option.some.inj (hlock.symm.trans h.1.lock)) hn }
  · cases hserve

/-- All that is on the machine gets to the disk. -/
theorem syncfs_good (hs : s.Sound) (hlock : s.lock = some task) :
    Store.Sound { s with
      disk := s.disk.syncAll
      projects := fun q => { s.projects q with flushed := true } } ∧
    contract.Does task s { s with
      disk := s.disk.syncAll
      projects := fun q => { s.projects q with flushed := true } } := by
  have hleads : ∀ {q i}, (s.disk.syncAll.names (markerPath s.root q)).Leads i → (s.marker q).Leads i :=
    fun h => h.flush
  refine ⟨{
    files := fun h => ⟨(hs.files (hleads h)).1, rfl⟩
    vouched := fun h hclean => ⟨rfl, (hs.vouched (hleads h) hclean).2⟩
    dirty := fun hdirty i h => hs.dirty hdirty i (hleads h)
    cleaning := hs.cleaning }, fun n hn => {
      root := rfl
      boot := rfl
      next := le_rfl
      inodes := fun {i} _ hsynced => ?_
      held := fun hlock' => absurd (Option.some.inj (hlock'.symm.trans hlock)) hn
      projects := fun q => {
        Project.Bears.refl n (s.projects q) with
        flushed := fun _ _ => rfl
        unknown := fun hdirty _ => ⟨hdirty, fun h => ⟨rfl, h.2⟩⟩ }
      never := fun _ _ hnever i h => hnever i (hleads h) }⟩
  show ({ s.disk.inodes i with synced := true } : Inode) = s.disk.inodes i
  rw [← hsynced]

theorem ioError_runs {α : Type} {r : Except IoError α} {P : α → Store → Prop} {fail : Store → Prop}
    (hstable : ∀ a, Stable contract task (P a)) (hfail : Stable contract task fail) :
    Runs contract task (Result P (fun _ => fail) r) (ioError r) P fun _ => fail := by
  cases r with
  | ok a => exact .ret (hstable a) fun _ _ h => h
  | error e => exact .raise hfail fun _ _ h => h

theorem result_stable {α : Type} {P : α → Store → Prop} {fail : Store → Prop}
    (hstable : ∀ a, Stable contract task (P a)) (hfail : Stable contract task fail)
    (r : Except IoError α) : Stable contract task (Result P (fun _ => fail) r) := by
  cases r with
  | ok a => exact hstable a
  | error e => exact hfail

theorem syncfs_runs {projectDir : FilePath} : Runs contract task
    (Working task root seen project true) (request (.syncfs projectDir))
    (Result (fun _ => Ready task root seen project true) fun _ => Working task root seen project true)
    fun _ => Working task root seen project true := by
  refine .lift (.ask Working.stable (fun s u choice a hs h hserve => ?_)
    (result_stable (fun _ => Ready.stable) Working.stable))
  obtain ⟨e, rfl, rfl⟩ | ⟨value, rfl, heq⟩ := unlessFails_some hserve
  · exact ⟨hs, does_refl task _, h⟩
  · split at heq <;> cases heq
    obtain ⟨hsound, hdoes⟩ := syncfs_good hs h.lock
    exact ⟨hsound, hdoes, { h with flushed := fun _ => rfl }⟩

/-- A call that changes the disk and no marker. -/
theorem spares_runs {c : Call} {P : Store → Prop} {M : c.Answer → Store → Prop}
    (hP : Stable contract task P) (hM : ∀ a, Stable contract task (M a))
    (hlock : ∀ {s}, P s → s.lock = some task)
    (hcall : ∀ {s u choice a}, s.Sound → P s → serve task c choice s = some (a, u) →
      ∃ d, u = { s with disk := d } ∧ s.Spares d ∧ M a { s with disk := d }) :
    Holds contract task P (Calls.ask c) M := by
  refine .ask hP (fun s u choice a hs h hserve => ?_) hM
  obtain ⟨d, rfl, hspares, hmid⟩ := hcall hs h hserve
  obtain ⟨hsound, hdoes⟩ := hspares.good hs (hlock h)
  exact ⟨hsound, hdoes, hmid⟩

/-- Neither the directory of a project nor what is above it is a marker. -/
theorem directory_ne (h : path = metadataRoot root ∨ path = metadataRoot root ++ [project]) (q : String) :
    path ≠ markerPath root q := by
  apply markerPath_ne
  obtain rfl | rfl := h <;> simp [metadataRoot]

theorem createDir_runs : Runs contract task (Ready task root seen project clean)
    (request (.createDir (metadataRoot root ++ [project]))) (fun _ => Ready task root seen project clean)
    fun _ => Ready task root seen project clean := by
  refine .lift (spares_runs Ready.stable (fun _ => Ready.stable) (fun h => h.lock)
    fun {s u choice a} hs h hserve => ?_)
  obtain ⟨e, rfl, rfl⟩ | ⟨value, rfl, heq⟩ := unlessFails_some hserve
  · exact ⟨u.disk, rfl, .refl u, h⟩
  · cases hfree : s.disk.free (metadataRoot root ++ [project]) <;> rw [hfree] at heq <;> cases heq
    refine ⟨_, rfl, makeDir_spares fun q => ?_, h.disk⟩
    rw [h.root]
    exact directory_ne (.inr rfl) q

theorem syncDirectory_holds {path : FilePath} : Holds contract task (Ready task root seen project clean)
    (Calls.ask (.syncDirectory path)) fun _ => Ready task root seen project clean := by
  refine spares_runs Ready.stable (fun _ => Ready.stable) (fun h => h.lock)
    fun {s u choice a} hs h hserve => ?_
  obtain ⟨e, rfl, rfl⟩ | ⟨value, rfl, heq⟩ := unlessFails_some hserve
  · exact ⟨u.disk, rfl, .refl u, h⟩
  · split at heq <;> cases heq
    exact ⟨_, rfl, syncNames_spares, h.disk⟩

theorem removeFile_runs : Runs contract task (Ready task root seen project clean)
    (request (.removeFile (temporaryPath root project uuid)))
    (fun _ => Ready task root seen project clean) fun _ => Ready task root seen project clean := by
  refine .lift (spares_runs Ready.stable (fun _ => Ready.stable) (fun h => h.lock)
    fun {s u choice a} hs h hserve => ?_)
  obtain ⟨e, rfl, rfl⟩ | ⟨value, rfl, heq⟩ := unlessFails_some hserve
  · exact ⟨u.disk, rfl, .refl u, h⟩
  · split at heq <;> cases heq
    refine ⟨_, rfl, setName_spares fun q => ?_, h.disk⟩
    rw [h.root]
    exact temporary_ne uuid q

theorem createNew_holds : Holds contract task (Ready task root seen project clean)
    (Calls.ask (.createNew (temporaryPath root project uuid)))
    (Result (fun inode => Writing task root seen project clean uuid inode ⟨[], false⟩)
      fun _ => Ready task root seen project clean) := by
  refine spares_runs Ready.stable
    (result_stable (fun _ => Writing.stable) Ready.stable) (fun h => h.lock)
    fun {s u choice a} hs h hserve => ?_
  obtain ⟨e, rfl, rfl⟩ | ⟨value, rfl, heq⟩ := unlessFails_some hserve
  · exact ⟨u.disk, rfl, .refl u, h⟩
  · cases hfree : s.disk.free (temporaryPath root project uuid) <;>
      rw [hfree] at heq <;> cases heq
    refine ⟨_, rfl, makeFile_spares fun q => ?_, { h with
      next := Nat.lt_succ_self _
      content := Function.update_self ..
      temporary := ?_ }⟩
    · rw [h.root]
      exact temporary_ne uuid q
    · simp [Disk.makeFile, Disk.setName, Disk.setInode, Name.set, h.root]

theorem writeAll_holds {value : List UInt8} : Holds contract task
    (Writing task root seen project clean uuid inode ⟨[], false⟩) (Calls.ask (.writeAll inode value))
    (Result (fun _ => Writing task root seen project clean uuid inode ⟨value, false⟩)
      fun _ => Ready task root seen project clean) := by
  refine spares_runs Writing.stable
    (result_stable (fun _ => Writing.stable) Ready.stable) (fun h => h.lock)
    fun {s u choice a} hs h hserve => ?_
  have hspares : ∀ content, s.Spares (s.disk.setInode inode content) := fun content =>
    setInode_spares (by rw [h.content])
  simp only [serve] at hserve
  split at hserve <;> cases hserve
  · exact ⟨_, rfl, hspares _, { h with content := Function.update_self .. }⟩
  · exact ⟨_, rfl, hspares _, h.toReady.disk⟩

theorem syncAll_holds {value : List UInt8} : Holds contract task
    (Writing task root seen project clean uuid inode ⟨value, false⟩) (Calls.ask (.syncAll inode))
    (Result (fun _ => Writing task root seen project clean uuid inode ⟨value, true⟩)
      fun _ => Ready task root seen project clean) := by
  refine spares_runs Writing.stable
    (result_stable (fun _ => Writing.stable) Ready.stable) (fun h => h.lock)
    fun {s u choice a} hs h hserve => ?_
  obtain ⟨e, rfl, rfl⟩ | ⟨value, rfl, heq⟩ := unlessFails_some hserve
  · exact ⟨u.disk, rfl, .refl u, h.toReady⟩
  · cases heq
    refine ⟨_, rfl, setInode_spares (by rw [h.content]), { h with content := ?_ }⟩
    show Function.update _ _ _ _ = _
    rw [Function.update_self, h.content]

theorem look_name {node : Node} (h : d.look path = .ok node) (hpath : path ≠ []) :
    (d.names path).now = some node := by
  unfold Disk.look at h
  split at h
  · split at h <;> cases h
  · rw [if_neg hpath] at h
    split at h
    · rename_i heq
      cases h
      exact heq
    · cases h

/-- The file gets the name of the marker, its own name is gone. -/
def Store.renamed (s : Store) (project uuid : String) (inode : Nat) : Store :=
  { s with
    disk := s.disk.moveFile (temporaryPath s.root project uuid) (markerPath s.root project) inode }

theorem renamed_marker (q : String) : (s.renamed project uuid inode).marker q =
    if q = project then (s.marker q).set (some (.file inode)) else s.marker q := by
  show (s.disk.moveFile _ _ _).names (markerPath s.root q) = _
  simp only [Disk.moveFile, Disk.setName]
  rw [Function.update_of_ne (temporary_ne uuid q).symm]
  by_cases hq : q = project
  · subst hq
    rw [Function.update_self, if_pos rfl, Store.marker]
  · rw [Function.update_of_ne fun heq => hq (markerPath_injective heq), if_neg hq, Store.marker]

theorem renamed_leads {q : String} {i : Nat} (h : ((s.renamed project uuid inode).marker q).Leads i) :
    (q = project ∧ i = inode) ∨ (s.marker q).Leads i := by
  rw [renamed_marker] at h
  split at h
  · rename_i hq
    obtain heq | hlead := h.set
    · cases heq
      exact .inl ⟨hq, rfl⟩
    · exact .inr hlead
  · exact .inr h

theorem renamed_good (hs : s.Sound)
    (h : Writing task root seen project clean uuid inode ⟨markerValue clean, true⟩ s) :
    (s.renamed project uuid inode).Sound ∧
      contract.Does task s (s.renamed project uuid inode) ∧
      Renamed task root seen project clean inode ⟨markerValue clean, true⟩
        (s.renamed project uuid inode) := by
  -- a file that says clean is moved by a task that was asked to call the project clean
  have hvalue : (s.disk.inodes inode).bytes = CLEAN →
      (s.projects project).Vouched ∧ (s.projects project).cleaning ≠ [] := by
    intro hbytes
    rw [h.content] at hbytes
    cases clean with
    | false => cases hbytes
    | true => exact ⟨⟨h.flushed rfl, h.approved rfl⟩, List.ne_nil_of_mem (h.mine rfl)⟩
  refine ⟨⟨fun {q i} hlead => ?_, fun {q i} hlead hclean => ?_, fun {q} hdirty i hlead hclean => ?_,
    hs.cleaning⟩, fun n hn => ?_, { h with name := ?_ }⟩
  · obtain ⟨rfl, rfl⟩ | hlead := renamed_leads hlead
    · exact ⟨h.next, congrArg Inode.synced h.content⟩
    · exact hs.files hlead
  · obtain ⟨rfl, rfl⟩ | hlead := renamed_leads hlead
    · exact (hvalue hclean).1
    · exact hs.vouched hlead hclean
  · obtain ⟨rfl, rfl⟩ | hlead := renamed_leads hlead
    · exact (hvalue hclean).2 (hs.cleaning hdirty)
    · exact hs.dirty hdirty i hlead hclean
  · refine { Store.Rely.refl n s with
      held := fun hlock => absurd (Option.some.inj (hlock.symm.trans h.lock)) hn
      never := fun {q} hquiet _ hnever i hlead hclean => ?_ }
    obtain ⟨rfl, rfl⟩ | hlead := renamed_leads hlead
    · exact (hvalue hclean).2 hquiet
    · exact hnever i hlead hclean
  · rw [renamed_marker, if_pos rfl]
    rfl

theorem rename_holds : Holds contract task
    (Writing task root seen project clean uuid inode ⟨markerValue clean, true⟩)
    (Calls.ask (.rename (temporaryPath root project uuid) (markerPath root project)))
    (Result (fun _ => Renamed task root seen project clean inode ⟨markerValue clean, true⟩)
      fun _ => Ready task root seen project clean) := by
  refine .ask Writing.stable (fun s u choice a hs h hserve => ?_)
    (result_stable (fun _ => Renamed.stable) Ready.stable)
  obtain ⟨e, rfl, rfl⟩ | ⟨value, rfl, heq⟩ := unlessFails_some hserve
  · exact ⟨hs, does_refl task u, h.toReady⟩
  obtain rfl := h.root
  have hmoved : u = s.renamed project uuid inode := by
    unfold Store.renamed
    -- what stands at the temporary path is the file the task wrote
    have hfile : ∀ {i}, s.disk.look (temporaryPath s.root project uuid) = .ok (.file i) → i = inode := by
      intro i hlook
      have hname := look_name hlook (by simp [temporaryPath])
      rw [h.temporary] at hname
      cases hname
      rfl
    split at heq
    · rename_i hlook _
      cases heq
      rw [hfile hlook]
    · rename_i hlook _
      cases heq
      rw [hfile hlook]
    · rename_i hlook _
      cases heq
      rw [hfile hlook]
    · rename_i hlook _
      split at heq <;> cases heq
      rw [hfile hlook]
    all_goals cases heq
  obtain ⟨hsound, hdoes, hrenamed⟩ := renamed_good hs h
  rw [hmoved]
  exact ⟨hsound, hdoes, hrenamed⟩

/-- Once its directory is flushed, the marker is the only one a power failure leaves. -/
theorem syncMarker_holds : Holds contract task
    (Renamed task root seen project clean inode ⟨markerValue clean, true⟩)
    (Calls.ask (.syncDirectory (metadataRoot root ++ [project])))
    (Result (fun _ s => Ready task root seen project clean s ∧ Settled seen project clean s)
      fun _ => Ready task root seen project clean) := by
  refine spares_runs Renamed.stable
    (result_stable (fun _ => Ready.settled_stable) Ready.stable) (fun h => h.lock)
    fun {s u choice a} hs h hserve => ?_
  obtain ⟨e, rfl, rfl⟩ | ⟨value, rfl, heq⟩ := unlessFails_some hserve
  · exact ⟨u.disk, rfl, .refl u, h.toReady⟩
  · split at heq <;> cases heq
    refine ⟨_, rfl, syncNames_spares, h.toReady.disk, fun hclean _ _ i hlead hbytes => ?_⟩
    have hname := h.name
    simp only [Store.marker, Disk.syncNames, markerPath, List.dropLast_concat, h.root, if_true,
      Name.Leads, Name.flush, List.mem_singleton] at hlead hname
    rw [hname] at hlead
    cases hlead
    subst hclean
    have hcontent : s.disk.inodes inode = ⟨DIRTY, true⟩ := h.content
    have hbytes' : (s.disk.inodes inode).bytes = CLEAN := hbytes
    rw [hcontent] at hbytes'
    cases hbytes'

end Steps

/-! ## The operations -/

theorem replaceMarker_runs {uuid : String} : Runs contract task (Ready task root seen project clean)
    (replaceMarker (metadataRoot root ++ [project]) (markerPath root project)
      (temporaryPath root project uuid) (markerValue clean))
    (fun _ s => Ready task root seen project clean s ∧ Settled seen project clean s)
    fun _ => Ready task root seen project clean := by
  unfold replaceMarker
  refine .bind createNew_holds (fun _ => Ready.stable) fun inode => ?_
  refine .bind writeAll_holds (fun _ => Ready.stable) fun _ => ?_
  refine .bind syncAll_holds (fun _ => Ready.stable) fun _ => ?_
  exact .bind rename_holds (fun _ => Ready.stable) fun _ => syncMarker_holds

theorem createRealDirectory_runs : Runs contract task (Ready task root seen project clean)
    (createRealDirectory (metadataRoot root ++ [project])) (fun _ => Ready task root seen project clean)
    fun _ => Ready task root seen project clean := by
  have hlooks : ∀ {x : Marking Unit}, Looks contract x.run → Runs contract task
      (Ready task root seen project clean) x (fun _ => Ready task root seen project clean)
      fun _ => Ready task root seen project clean := fun h => h.runs does_refl Ready.stable
  unfold createRealDirectory
  refine .bind (hlooks (ensureRealDirectoryChain_looks _)) (fun _ => Ready.stable) fun _ => ?_
  refine .bind createDir_runs (fun _ => Ready.stable) fun r => ?_
  split
  · refine .bind (.lift syncDirectory_holds) (fun _ => Ready.stable) fun r => ?_
    refine .bind (hlooks (orInternal_looks ..)) (fun _ => Ready.stable) fun _ => ?_
    exact .bind (.lift syncDirectory_holds) (fun _ => Ready.stable) fun r => hlooks (orInternal_looks ..)
  · exact hlooks (ensureRealDirectoryChain_looks _)
  · exact hlooks (orInternal_looks ..)

theorem atomicMarker_runs : Runs contract task (Ready task root seen project clean)
    (atomicMarker (metadataRoot root ++ [project]) (markerValue clean))
    (fun _ s => Ready task root seen project clean s ∧ Settled seen project clean s)
    fun _ => Ready task root seen project clean := by
  have hlooks : ∀ {α : Type} {x : Marking α}, Looks contract x.run → Runs contract task
      (Ready task root seen project clean) x (fun _ => Ready task root seen project clean)
      fun _ => Ready task root seen project clean := fun h => h.runs does_refl Ready.stable
  -- what follows the look at the marker
  have hrest : Runs contract task (Ready task root seen project clean) (do
      let uuid : String ← request .newUuid
      let temporary := metadataRoot root ++ [project] ++ [".state-" ++ uuid]
      let result ← ExceptT.lift (replaceMarker (metadataRoot root ++ [project])
        (metadataRoot root ++ [project] ++ ["state"]) temporary (markerValue clean)).run
      if !result.isOk then
        let _ ← request (.removeFile temporary)
        pure ()
      ioError result : Marking Unit)
      (fun _ s => Ready task root seen project clean s ∧ Settled seen project clean s)
      fun _ => Ready task root seen project clean := by
    refine .bind (hlooks (request_looks rfl)) (fun _ => Ready.stable) fun uuid => ?_
    refine .bind (.lift replaceMarker_runs) (fun _ => Ready.stable) fun result => ?_
    cases result with
    | ok a => exact ioError_runs (fun _ => Ready.settled_stable) Ready.stable
    | error e =>
        refine .bind removeFile_runs (fun _ => Ready.stable) fun _ => ?_
        exact .raise Ready.stable fun _ _ h => h
  unfold atomicMarker
  refine .bind (hlooks (ensureRealDirectoryChain_looks _)) (fun _ => Ready.stable) fun _ => ?_
  refine .bind (hlooks (request_looks rfl)) (fun _ => Ready.stable) fun r => ?_
  dsimp only
  split
  · exact hrest
  · exact .bind (hlooks (throw_looks _)) (fun _ => Ready.stable) fun _ => hrest
  · exact hrest
  · exact .bind (hlooks (orInternal_looks ..)) (fun _ => Ready.stable) fun _ => hrest

theorem changeMarker_runs : Runs contract task (Working task root seen project clean)
    (changeMarker root project clean)
    (fun _ s => Working task root seen project clean s ∧ Settled seen project clean s)
    fun _ => Working task root seen project clean := by
  -- what follows the flush of the project
  have hrest : Runs contract task (Ready task root seen project clean) (do
      createRealDirectory (metadataRoot root ++ [project])
      atomicMarker (metadataRoot root ++ [project]) (if clean then CLEAN else DIRTY) : Marking Unit)
      (fun _ s => Ready task root seen project clean s ∧ Settled seen project clean s)
      fun _ => Ready task root seen project clean :=
    .bind createRealDirectory_runs (fun _ => Ready.stable) fun _ => atomicMarker_runs
  have hworking : Runs contract task (Ready task root seen project clean) (do
      createRealDirectory (metadataRoot root ++ [project])
      atomicMarker (metadataRoot root ++ [project]) (if clean then CLEAN else DIRTY) : Marking Unit)
      (fun _ s => Working task root seen project clean s ∧ Settled seen project clean s)
      fun _ => Working task root seen project clean := by
    refine Holds.weaken hrest (fun _ _ h => h) fun r s _ h => ?_
    cases r with
    | ok a => exact ⟨h.1.toWorking, h.2⟩
    | error e => exact h.toWorking
  unfold changeMarker
  refine .bind (checkedProjectPath_looks.runs does_refl Working.stable) (fun _ => Working.stable)
    fun projectDir => ?_
  cases clean with
  | false => exact hworking.weaken (fun _ _ h => { h with flushed := (by rintro ⟨⟩) }) fun _ _ _ h => h
  | true =>
      refine .bind ((ensureSafeProjectRoot_looks _).runs does_refl Working.stable)
        (fun _ => Working.stable) fun _ => ?_
      refine .bind syncfs_runs (fun _ => Working.stable) fun r => ?_
      exact .bind (ioError_runs (fun _ => Ready.stable) Working.stable) (fun _ => Working.stable)
        fun _ => hworking

theorem writeMarker_runs : Runs contract task (Calling task root seen project clean)
    (writeMarker root project clean)
    (fun _ s => Calling task root seen project clean s ∧ Settled seen project clean s)
    fun _ => Calling task root seen project clean := by
  unfold writeMarker
  refine .bind lock_runs (fun _ => Calling.stable) fun _ => ?_
  refine .bind (.attempt changeMarker_runs) (fun _ => Calling.stable) fun result => ?_
  have hunlock : Runs contract task
      (Result (fun _ s => Working task root seen project clean s ∧ Settled seen project clean s)
        (fun _ => Working task root seen project clean) result)
      (request .unlock)
      (fun _ s => Calling task root seen project clean s ∧
        (result.isOk = true → Settled seen project clean s))
      fun _ => Calling task root seen project clean := by
    refine .weaken unlock_runs (fun s _ h => ?_) fun _ _ _ h => h
    cases result with
    | ok a => exact ⟨h.1, fun _ => h.2⟩
    | error e => exact ⟨h, by rintro ⟨⟩⟩
  refine .bind hunlock (fun _ => Calling.stable) fun _ => ?_
  cases result with
  | ok a => exact .done Settled.stable_if fun _ _ h => ⟨h.1, h.2 rfl⟩
  | error e => exact .done Settled.stable_if fun _ _ h => h.1

/-! ## A reader -/

/-- What a task knows that was asked whether a project is clean when it was `seen`. -/
structure Asking (root : FilePath) (seen : Project) (project : String) (s : Store) : Prop where
  root : s.root = root
  cleans : seen.cleans ≤ (s.projects project).cleans
  dirtied : seen.dirtied ≤ (s.projects project).dirtied
  known : seen.dirty = true → (s.projects project).cleans = seen.cleans →
    (s.projects project).dirty = true

/-- What it takes to answer that the project is clean. -/
structure Earned (seen : Project) (p : Project) : Prop where
  called : seen.dirty = true → seen.cleans < p.cleans
  vouched : p.dirtied = seen.dirtied → p.dirty = false ∧ p.Vouched

/-- The marker that was opened says clean only where that is earned. -/
structure Opened (root : FilePath) (seen : Project) (project : String) (inode : Nat)
    (s : Store) : Prop extends Asking root seen project s where
  next : inode < s.disk.next
  synced : (s.disk.inodes inode).synced = true
  earned : (s.disk.inodes inode).bytes = CLEAN → Earned seen (s.projects project)

theorem Earned.bears {p q : Project} (h : Earned seen p) (hle : seen.dirtied ≤ p.dirtied)
    (hbears : p.Bears task q) : Earned seen q where
  called hdirty := (h.called hdirty).trans_le hbears.cleans
  vouched heq := by
    have hle' := hbears.dirtied
    obtain ⟨hdirty, hvouched⟩ := h.vouched (by omega)
    obtain ⟨hdirty', hkeeps⟩ := hbears.unknown hdirty (by omega)
    exact ⟨hdirty', hkeeps hvouched⟩

theorem Asking.stable : Stable contract task (Asking root seen project) := by
  intro s t _ hrely h
  have hbears := hrely.projects project
  have hle := hbears.cleans
  have hle' := h.cleans
  exact {
    root := hrely.root.trans h.root
    cleans := hle'.trans hle
    dirtied := h.dirtied.trans hbears.dirtied
    known := fun hdirty heq => hbears.known (h.known hdirty (by omega)) (by omega) }

theorem Opened.stable {inode : Nat} : Stable contract task (Opened root seen project inode) := by
  intro s t hinv hrely h
  have hsame := hrely.inodes h.next h.synced
  exact {
    Asking.stable hinv hrely h.toAsking with
    next := h.next.trans_le hrely.next
    synced := by rw [hsame, h.synced]
    earned := fun hbytes => (h.earned (by rw [← hsame, hbytes])).bears h.dirtied (hrely.projects project) }

/-- The answer so far is clean only where that is earned. -/
theorem Earned.stable {clean : Prop} : Stable contract task fun s =>
    Asking root seen project s ∧ (clean → Earned seen (s.projects project)) :=
  fun hinv hrely h => ⟨Asking.stable hinv hrely h.1,
    fun hclean => (h.2 hclean).bears h.1.dirtied (hrely.projects project)⟩

theorem Opened.stable_if {marker : Option Nat} : Stable contract task fun s =>
    Asking root seen project s ∧ ∀ inode, marker = some inode → Opened root seen project inode s :=
  fun hinv hrely h => ⟨Asking.stable hinv hrely h.1,
    fun inode hmarker => Opened.stable hinv hrely (h.2 inode hmarker)⟩

/-- The moment that decides an answer: the marker is opened. -/
theorem openMarker_runs : Runs contract task (Asking root seen project)
    (request (.openMarker (markerPath root project)))
    (Result (fun marker s => Asking root seen project s ∧
      ∀ inode, marker = some inode → Opened root seen project inode s)
      fun _ => Asking root seen project)
    fun _ => Asking root seen project := by
  refine .lift (.ask Asking.stable (fun s u choice a hs h hserve => ?_)
    (result_stable (fun _ => Opened.stable_if) Asking.stable))
  have hsound : s.Sound := hs
  have hsame : u = s := serve_looks rfl hserve
  subst hsame
  refine ⟨hs, does_refl task u, ?_⟩
  obtain ⟨e, rfl, -⟩ | ⟨marker, rfl, heq⟩ := unlessFails_some hserve
  · exact h
  refine ⟨h, fun inode hmarker => ?_⟩
  subst hmarker
  obtain rfl := h.root
  have hleads : (u.marker project).Leads inode := by
    split at heq <;> cases heq
    rename_i hlook
    exact .now (look_name hlook (by simp [markerPath]))
  obtain ⟨hnext, hsynced⟩ := hsound.files hleads
  refine { h with next := hnext, synced := hsynced, earned := fun hbytes => ?_ }
  have hdirty : (u.projects project).dirty = false := by
    by_contra hdirty
    exact hsound.dirty (by simpa using hdirty) inode hleads hbytes
  refine ⟨fun hseen => ?_, fun _ => ⟨hdirty, hsound.vouched hleads hbytes⟩⟩
  obtain hlt | heq := Nat.lt_or_eq_of_le h.cleans
  · exact hlt
  · rw [h.known hseen heq.symm] at hdirty
    cases hdirty

theorem read_runs {marker : Option Nat} : Runs contract task
    (fun s => Asking root seen project s ∧
      ∀ inode, marker = some inode → Opened root seen project inode s)
    (request (.read marker (CLEAN.length + 1)))
    (Result (fun bytes s => Asking root seen project s ∧
      (bytes = CLEAN → Earned seen (s.projects project))) fun _ => Asking root seen project)
    fun _ => Asking root seen project := by
  refine .lift (.ask Opened.stable_if (fun s u choice a hs h hserve => ?_)
    (result_stable (fun _ => Earned.stable) Asking.stable))
  have hsame : u = s := serve_looks rfl hserve
  subst hsame
  refine ⟨hs, does_refl task u, ?_⟩
  obtain ⟨e, rfl, -⟩ | ⟨bytes, rfl, heq⟩ := unlessFails_some hserve
  · exact h.1
  refine ⟨h.1, fun hbytes => ?_⟩
  subst hbytes
  cases marker with
  | none => cases heq
  | some inode =>
      refine (h.2 inode rfl).earned ?_
      -- one byte more than the marker is read, so that a longer file is not taken for it
      have htake : (u.disk.inodes inode).bytes.take (CLEAN.length + 1) = CLEAN := by
        injection heq with heq
        exact congrArg Prod.fst heq
      have hlength := congrArg List.length htake
      rw [List.length_take] at hlength
      rw [List.take_of_length_le (by omega)] at htake
      exact htake

theorem readClean_runs : Runs contract task (Asking root seen project) (readClean root project)
    (fun clean s => Asking root seen project s ∧ (clean = true → Earned seen (s.projects project)))
    fun _ => Asking root seen project := by
  unfold readClean
  refine .bind (checkedProjectPath_looks.runs does_refl Asking.stable) (fun _ => Asking.stable)
    fun projectDir => ?_
  refine .bind ((ensureSafeProjectRoot_looks _).runs does_refl Asking.stable)
    (fun _ => Asking.stable) fun _ => ?_
  refine .bind ((ensureRealDirectoryChain_looks _).runs does_refl Asking.stable)
    (fun _ => Asking.stable) fun _ => ?_
  refine .bind openMarker_runs (fun _ => Asking.stable) fun r => ?_
  refine .bind (ioError_runs (fun _ => Opened.stable_if) Asking.stable) (fun _ => Asking.stable) fun marker => ?_
  have hlooks : ∀ {α : Type} {x : Marking α}, Looks contract x.run → Runs contract task
      (fun s => Asking root seen project s ∧
        ∀ inode, marker = some inode → Opened root seen project inode s) x
      (fun _ s => Asking root seen project s ∧
        ∀ inode, marker = some inode → Opened root seen project inode s)
      fun _ => Asking root seen project := by
    intro α x hx
    refine Holds.weaken (hx.runs does_refl Opened.stable_if) (fun _ _ h => h) fun r s _ h => ?_
    cases r with
    | ok a => exact h
    | error e => exact h.1
  refine .bind (hlooks (request_looks rfl)) (fun _ => Asking.stable) fun r => ?_
  refine .bind (hlooks (orInternal_looks ..)) (fun _ => Asking.stable) fun isFile => ?_
  split
  · exact Runs.ret Opened.stable_if fun _ _ h => ⟨h.1, by rintro ⟨⟩⟩
  · refine .bind read_runs (fun _ => Asking.stable) fun r => ?_
    refine .bind (ioError_runs (fun _ => Earned.stable) Asking.stable) (fun _ => Asking.stable) fun bytes => ?_
    exact .ret Earned.stable fun _ _ h => ⟨h.1, fun hclean => h.2 (by simpa using hclean)⟩

/-- What is known when an operation was called. -/
def Operation.Facts (task : Nat) (root : FilePath) (seen : Project) : Operation → Store → Prop
  | isClean project => Asking root seen project
  | markDirty project => Calling task root seen project false
  | markClean project => Calling task root seen project true

/-- What is known when it has its result. -/
def Operation.Answered (task : Nat) (root : FilePath) (seen : Project) :
    Operation → Except AppError Bool → Store → Prop
  | isClean project, r, s =>
    Asking root seen project s ∧ (r = .ok true → Earned seen (s.projects project))
  | markDirty project, r, s => Calling task root seen project false s ∧
    (r.isOk = true → Settled seen project false s)
  | markClean project, _, s => Calling task root seen project true s

/-- What is known when it returned. -/
def Operation.Post (root : FilePath) (seen : Project) :
    Operation → Except AppError Bool → Store → Prop
  | isClean project, r, s =>
    Asking root seen project s ∧ (r = .ok true → Earned seen (s.projects project))
  | _, _, _ => True

variable {operation : Operation}

theorem begin_facts : operation.Facts task s.root (s.projects operation.project) (s.begin task operation) := by
  cases operation with
  | isClean project => exact ⟨rfl, le_rfl, le_rfl, fun h _ => h⟩
  | markDirty project => exact ⟨rfl, le_rfl, by rintro ⟨⟩, by rintro ⟨⟩, fun h _ => h⟩
  | markClean project =>
      have hself : (s.begin task (.markClean project)).projects project = { s.projects project with
          approved := (s.projects project).version, dirty := false
          cleaning := task :: (s.projects project).cleaning
          cleans := (s.projects project).cleans + 1 } := Function.update_self ..
      refine ⟨rfl, ?_, fun _ => ?_, fun _ => ?_, fun _ heq => ?_⟩
      · rw [hself]
        exact Nat.le_succ _
      · rw [hself]
        exact List.mem_cons_self
      · rw [hself]
      · rw [hself] at heq
        exact absurd heq (Nat.succ_ne_self _)

theorem body_holds : Holds contract task (operation.Facts task root seen) (operation.body root).run
    (operation.Answered task root seen) := by
  cases operation with
  | isClean project =>
      have hruns : Runs contract task (Asking root seen project)
          (Operation.body root (.isClean project))
          (fun clean s => Asking root seen project s ∧
            (clean = true → Earned seen (s.projects project)))
          fun _ => Asking root seen project := by
        refine .bind (.attempt readClean_runs) (fun _ => Asking.stable) fun result => ?_
        cases result with
        | ok clean => exact .ret Earned.stable fun _ _ h => h
        | error e => exact .ret Asking.stable fun _ _ h => ⟨h, by rintro ⟨⟩⟩
      refine Holds.weaken hruns (fun _ _ h => h) fun r s _ h => ?_
      cases r with
      | ok clean => exact ⟨h.1, fun heq => h.2 (Except.ok.inj heq)⟩
      | error e => exact ⟨h, by rintro ⟨⟩⟩
  | markDirty project =>
      have hruns : Runs contract task (Calling task root seen project false)
          (Operation.body root (.markDirty project))
          (fun _ s => Calling task root seen project false s ∧ Settled seen project false s)
          fun _ => Calling task root seen project false :=
        .bind writeMarker_runs (fun _ => Calling.stable) fun _ => .ret Settled.stable fun _ _ h => h
      refine Holds.weaken hruns (fun _ _ h => h) fun r s _ h => ?_
      cases r with
      | ok clean => exact ⟨h.1, fun _ => h.2⟩
      | error e => exact ⟨h, by rintro ⟨⟩⟩
  | markClean project =>
      have hruns : Runs contract task (Calling task root seen project true)
          (Operation.body root (.markClean project))
          (fun _ s => Calling task root seen project true s ∧ Settled seen project true s)
          fun _ => Calling task root seen project true :=
        .bind writeMarker_runs (fun _ => Calling.stable) fun _ => .ret Settled.stable fun _ _ h => h
      refine Holds.weaken hruns (fun _ _ h => h) fun r s _ h => ?_
      cases r with
      | ok clean => exact h.1
      | error e => exact h

theorem Operation.Facts.stable : Stable contract task (operation.Facts task root seen) := by
  cases operation with
  | isClean project => exact Asking.stable
  | markDirty project => exact Calling.stable
  | markClean project => exact Calling.stable

theorem Operation.Answered.stable {r : Except AppError Bool} :
    Stable contract task (operation.Answered task root seen r) := by
  cases operation with
  | isClean project => exact Earned.stable
  | markDirty project => exact Settled.stable_if
  | markClean project => exact Calling.stable

theorem Operation.Post.stable {r : Except AppError Bool} :
    Stable contract task (operation.Post root seen r) := by
  cases operation with
  | isClean project => exact Earned.stable
  | markDirty project => exact fun _ _ _ => trivial
  | markClean project => exact fun _ _ _ => trivial

/-- An invalid name is answered before anything is done. -/
theorem Operation.Answered.refused {e : AppError} (h : operation.Facts task root seen s) :
    operation.Answered task root seen (.error e) s := by
  cases operation with
  | isClean project => exact ⟨h, by rintro ⟨⟩⟩
  | markDirty project => exact ⟨h, by rintro ⟨⟩⟩
  | markClean project => exact h

theorem finish_holds {r : Except AppError Bool} : Holds contract task
    (operation.Answered task root seen r) (Calls.ask (.finish operation seen r.isOk))
    fun _ => operation.Post root seen r := by
  refine .ask Operation.Answered.stable (fun s u choice a hs h hserve => ?_)
    fun _ => Operation.Post.stable
  have hsound : s.Sound := hs
  cases hserve
  cases operation with
  | isClean project => exact ⟨hs, does_refl task s, h⟩
  | markDirty project =>
      have hgood : (s.finish task seen r.isOk (.markDirty project)).Sound ∧
          contract.Does task s (s.finish task seen r.isOk (.markDirty project)) :=
        finishDirty_good hsound fun hok hquiet heq =>
          ⟨h.2 hok rfl hquiet heq, h.1.calm hquiet heq⟩
      exact ⟨hgood.1, hgood.2, trivial⟩
  | markClean project =>
      have hgood : (s.finish task seen r.isOk (.markClean project)).Sound ∧
          contract.Does task s (s.finish task seen r.isOk (.markClean project)) :=
        finishClean_good hsound r.isOk
      exact ⟨hgood.1, hgood.2, trivial⟩

theorem program_holds : Holds contract task (operation.Facts task root seen)
    (operation.program root seen) (operation.Post root seen) := by
  refine .bind (?_ : Holds contract task _ _ (operation.Answered task root seen)) fun r =>
    .bind finish_holds fun _ => .done Operation.Post.stable fun _ _ h => h
  -- a name that is refused ends the operation before its first call
  split
  · exact body_holds
  · exact .done Operation.Facts.stable fun _ _ h => .refused h

end VivadoServer.Projects
