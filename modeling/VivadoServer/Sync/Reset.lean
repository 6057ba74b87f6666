/-
  VivadoServer.Sync.Reset

  A full replacement installs its manifest.  The staged tree is compared with the
  plan by a count and by looking every entry up; as no path is listed twice on
  either side, this is equality.  The walk does not enter `.vivado-server`, so what
  is staged below such a name is installed without being compared.
-/

import VivadoServer.Sync.Protect

namespace VivadoServer.Sync

open FileTree History CommitTransaction

/-! ## The plan of a replacement -/

/-- The plan lists what a manifest lists, as something to upload or to make. -/
structure Lists (limits : SyncLimits) (client : List ManifestEntry) (plan : CommitPlan) : Prop where
  whole : Whole client
  dirs : ∀ {p}, p ∈ plan.createDirs ↔ dirEntry p ∈ client
  files : ∀ {upload}, upload ∈ plan.uploadFiles ↔
    ∃ p facts, fileEntry p facts ∈ client ∧ upload = uploadOf p facts
  dirsOnce : plan.createDirs.Nodup
  filesOnce : (plan.uploadFiles.map (·.entry.path)).Nodup
  paths : ∀ e ∈ client, ValidPath e.path
  sizes : ∀ {p facts}, fileEntry p facts ∈ client → facts.sizeBytes ≤ limits.syncMaxFileBytes
  length : client.length ≤ limits.syncMaxManifestEntries

section Plan

variable {glob : String → Except String (String → Bool)} {digest : Sha256} {limits : SyncLimits}
  {request : PushPlanRequest} {project : Option (Tree String Leaf)} {plan : CommitPlan}
  {client actual : List ManifestEntry} {e : ManifestEntry} {p : String} {facts : FileFacts}

/-- The project does not matter for a full replacement. -/
theorem createCommitPlan_reset : createCommitPlan glob digest limits request true project =
    createCommitPlan glob digest limits request true none := rfl

/-- What the check accepts can be synchronized, with everything above it. -/
theorem Checked.valid {filters : SyncFilters} {maxEntries maxFileBytes : Nat}
    {entries : List ManifestEntry} (h : Checked filters maxEntries maxFileBytes entries client)
    (he : e ∈ client) : ValidPath e.path := by
  have hselected : ∀ {e'}, ClientSelected filters maxFileBytes entries e' → ValidPath e'.path := by
    rintro e' ⟨raw, hraw, -, hcheck⟩
    rw [checkEntry_path hcheck]
    exact h.paths raw hraw
  obtain he | ⟨q, rfl, ⟨e', he', habove⟩, -⟩ := h.manifest.mem.mp he
  · exact hselected he
  · exact (hselected he').above habove

theorem Checked.size {filters : SyncFilters} {maxEntries maxFileBytes : Nat}
    {entries : List ManifestEntry} (h : Checked filters maxEntries maxFileBytes entries client)
    (he : fileEntry p facts ∈ client) : facts.sizeBytes ≤ maxFileBytes := by
  obtain ⟨raw, -, -, hcheck⟩ | ⟨q, heq, -, -⟩ := h.manifest.mem.mp he
  · obtain ⟨node, heq, hsize⟩ := checkEntry_ok hcheck
    obtain ⟨-, hnode⟩ := entryOf_inj (show entryOf p (.file facts) = entryOf raw.path node from heq)
    exact hsize facts hnode.symm
  · cases heq

theorem lists_of_plan (hplan : createCommitPlan glob digest limits request true project = .ok plan)
    (hclient : validateClientManifest request.entries .none limits.syncMaxManifestEntries
      limits.syncMaxFileBytes = .ok client) : Lists limits client plan := by
  rw [createCommitPlan_reset] at hplan
  have hempty : OnDisk (projectTree none) := ⟨trivial, fun {p} hview => by
    cases p with
    | nil => rintro _ ⟨⟩
    | cons n p => exact absurd rfl hview⟩
  obtain ⟨filters, client', server, d, hcompares, hplanned, rfl⟩ := createCommitPlan_ok hempty hplan
  obtain ⟨rfl, hincludes, hexcludes⟩ := hcompares.replaced rfl
  obtain rfl : filters = .none := by
    have hcompiled := hcompares.compiled
    rw [hincludes, hexcludes, SyncFilters.new_nil] at hcompiled
    cases hcompiled
    rfl
  have hchecked := validateClientManifest_ok hclient
  obtain rfl : client' = client := hcompares.checked.manifest.unique hchecked.manifest
  have hwhole := hcompares.wholeClient
  have hnone : ∀ p, manifestView [] (segments p) = none := fun p => view_segments_eq_none.mpr (by rintro _ ⟨⟩)
  exact {
    whole := hwhole
    dirs := by
      intro p
      rw [hplanned.createDirs, hwhole.view_dir, hnone]
      simp
    files := by
      intro upload
      rw [hplanned.files]
      simp only [hwhole.view_file, hnone]
      simp
    dirsOnce := hplanned.createOrder.imp fun hlt => ne_of_lt hlt
    filesOnce := hplanned.fileOrder.imp fun hlt => ne_of_lt hlt
    paths := fun e he => hchecked.valid he
    sizes := hchecked.size
    length := hchecked.length }

namespace Lists

theorem upload_eq_some (h : Lists limits client plan) {upload : PlannedUpload} :
    plan.upload? p = some upload ↔ ∃ facts, fileEntry p facts ∈ client ∧ upload = uploadOf p facts := by
  constructor
  · intro hfind
    obtain ⟨q, facts, hentry, rfl⟩ := h.files.mp (List.mem_of_find?_eq_some hfind)
    have hpath : q = p := by simpa [uploadOf, fileEntry] using List.find?_some hfind
    rw [hpath] at hentry ⊢
    exact ⟨facts, hentry, rfl⟩
  · rintro ⟨facts, hentry, rfl⟩
    have hmem := h.files.mpr ⟨p, facts, hentry, rfl⟩
    cases hfind : plan.upload? p with
    | none =>
        have hnot := List.find?_eq_none.mp hfind _ hmem
        exact absurd (by simp [uploadOf, fileEntry]) hnot
    | some found =>
        have hpath : found.entry.path = p := by simpa using List.find?_some hfind
        rw [List.inj_on_of_nodup_map h.filesOnce (List.mem_of_find?_eq_some hfind) hmem hpath]

/-- The entries of the manifest, kind by kind. -/
theorem perm (h : Lists limits client plan) :
    client.Perm (plan.createDirs.map dirEntry ++ plan.uploadFiles.map (·.entry)) := by
  apply (List.perm_ext_iff_of_nodup ?_ ?_).mpr
  · intro e
    rw [List.mem_append, List.mem_map, List.mem_map]
    constructor
    · intro he
      obtain ⟨node, hnode⟩ := h.whole.nodes he
      cases node with
      | dir =>
          rw [hnode] at he
          exact .inl ⟨e.path, h.dirs.mpr he, hnode.symm⟩
      | file facts =>
          rw [hnode] at he
          exact .inr ⟨_, h.files.mpr ⟨e.path, facts, he, rfl⟩, hnode.symm⟩
    · rintro (⟨p, hp, rfl⟩ | ⟨upload, hupload, rfl⟩)
      · exact h.dirs.mp hp
      · obtain ⟨p, facts, hentry, rfl⟩ := h.files.mp hupload
        exact hentry
  · exact h.whole.sorted.imp fun hlt heq => by
      rw [heq] at hlt
      exact lt_irrefl _ hlt
  · have hdirs : (plan.createDirs.map dirEntry).Nodup := h.dirsOnce.map fun _ _ heq =>
      congrArg ManifestEntry.path heq
    apply List.nodup_append.mpr
    refine ⟨hdirs, ?_, ?_⟩
    · have hpaths : ((plan.uploadFiles.map (·.entry)).map (·.path)).Nodup := by
        rw [List.map_map]
        exact h.filesOnce
      exact hpaths.of_map
    · intro a ha b hb hab
      obtain ⟨p, -, rfl⟩ := List.mem_map.mp ha
      obtain ⟨upload, hupload, rfl⟩ := List.mem_map.mp hb
      obtain ⟨q, facts, -, rfl⟩ := h.files.mp hupload
      cases hab

/-- The test of the replacement tree looks an entry up in the manifest. -/
theorem entry_iff (h : Lists limits client plan) (hactual : Whole actual) (he : e ∈ actual) :
    (match e.kind with
      | .dir => plan.createDirs.contains e.path
      | .file => match plan.upload? e.path with
        | some upload => sameFile e upload.entry
        | none => false) = true ↔ e ∈ client := by
  obtain ⟨node, hnode⟩ := hactual.nodes he
  generalize e.path = p at hnode
  subst hnode
  cases node with
  | dir =>
      show plan.createDirs.contains p = true ↔ _
      rw [List.contains_iff_mem, h.dirs]
      exact Iff.rfl
  | file facts =>
      show (match plan.upload? p with
        | some upload => sameFile (entryOf p (.file facts)) upload.entry
        | none => false) = true ↔ _
      cases hfind : plan.upload? p with
      | none =>
          constructor
          · rintro ⟨⟩
          · intro hentry
            rw [h.upload_eq_some.mpr ⟨facts, hentry, rfl⟩] at hfind
            cases hfind
      | some upload =>
          obtain ⟨facts', hentry, rfl⟩ := h.upload_eq_some.mp hfind
          show sameFile (entryOf p (.file facts)) (entryOf p (.file facts')) = true ↔ _
          rw [sameFile_iff]
          constructor
          · rintro ⟨heq, -⟩
            rw [heq]
            exact hentry
          · intro hentry'
            have hsame := h.whole.path_inj hentry' hentry rfl
            exact ⟨(entryOf_inj hsame).2, (by rintro ⟨⟩)⟩

end Lists

/-- The count and the one-sided test decide that the staged tree is the manifest. -/
theorem sameTree_iff (h : Lists limits client plan) (hactual : Whole actual) :
    sameTree plan actual = true ↔ ∀ e, e ∈ actual ↔ e ∈ client := by
  have hnodup : ∀ {l}, Whole l → l.Nodup := fun hl => hl.sorted.imp fun hlt heq => by
    rw [heq] at hlt
    exact lt_irrefl _ hlt
  have hlength : plan.createDirs.dedup.length + plan.uploadFiles.length = client.length := by
    rw [h.perm.length_eq, List.length_append, List.length_map, List.length_map, h.dirsOnce.dedup]
  unfold sameTree
  rw [Bool.and_eq_true, beq_iff_eq, List.all_eq_true, hlength]
  constructor
  · rintro ⟨hcount, hall⟩
    have hsub : actual ⊆ client := fun e he => (h.entry_iff hactual he).mp (hall e he)
    have hperm := (List.subperm_of_subset (hnodup hactual) hsub).perm_of_length_le (by omega)
    exact fun e => hperm.mem_iff
  · intro hmem
    have hperm := (List.perm_ext_iff_of_nodup (hnodup hactual) (hnodup h.whole)).mpr hmem
    exact ⟨hperm.length_eq, fun e he => (h.entry_iff hactual he).mpr ((hmem e).mp he)⟩

end Plan

/-! ## What the comparison says of a tree -/

section Trees

variable {digest : Sha256} {maxEntries maxFileBytes : Nat} {tree : Tree String Leaf}
  {client actual : List ManifestEntry} {p : FilePath}

/-- The scanned tree is the manifest, as far as the walk comes. -/
def SameTree (digest : Sha256) (client : List ManifestEntry) (v : View String Leaf) : Prop :=
  ∀ p, isInternalPath (join p) = false → (v p).map (described digest) = (manifestView client p).map some

theorem Scanned.described (h : Scanned digest tree .none maxEntries maxFileBytes actual)
    (hp : isInternalPath (join p) = false) :
    (tree.view p).map (described digest) = ((tree.view p).bind (described digest)).map some := by
  cases hview : tree.view p with
  | none => rfl
  | some node =>
      have hfacts : ∃ facts, Sync.described digest node = some facts := by
        by_cases hroot : p = []
        · rw [hroot, Tree.view_nil] at hview
          cases hview
          exact ⟨.dir, rfl⟩
        · obtain ⟨-, facts, hfacts, -⟩ := h.accepted hroot hview
            (by rw [SyncFilters.none_matchesEntry, hp]; rfl)
          exact ⟨facts, hfacts⟩
      obtain ⟨facts, hfacts⟩ := hfacts
      simp [hfacts]

/-- A scan has the entries of a manifest if what stands there is what it says. -/
theorem sameTree_of_scan (hwhole : Whole client) (hpaths : ∀ e ∈ client, ValidPath e.path)
    (h : OnDisk tree) (hscan : Scanned digest tree .none maxEntries maxFileBytes actual) :
    (∀ e, e ∈ actual ↔ e ∈ client) ↔ SameTree digest client tree.view := by
  have hactual : Whole actual := hscan.manifest.whole TreeSelected.node
  have hview : ∀ p, isInternalPath (join p) = false →
      manifestView actual p = (tree.view p).bind (described digest) := by
    intro p hp
    rw [manifestView_scan h hscan.manifest, hp]
    rfl
  constructor
  · intro hmem p hp
    have hsame : actual = client := eq_of_sorted hactual.sorted hwhole.sorted hmem
    rw [hscan.described hp, ← hview p hp, hsame]
  · intro hsame e
    have hside : ∀ {s node}, isInternalPath s = false →
        (entryOf s node ∈ actual ↔ entryOf s node ∈ client) := by
      intro s node hs
      have hjoin : isInternalPath (join (segments s)) = false := by rwa [join_segments]
      have heq := hsame _ hjoin
      rw [hscan.described hjoin, ← hview _ hjoin] at heq
      rw [← hactual.view_segments, ← hwhole.view_segments,
        Option.map_injective (fun _ _ => Option.some.inj) heq]
    constructor
    · intro he
      obtain ⟨node, hnode⟩ := hactual.nodes he
      have hinside : isInternalPath e.path = false := by
        by_contra hnot
        rw [Bool.not_eq_false] at hnot
        have hthere := hactual.view_segments.mpr (hnode ▸ he)
        rw [manifestView_scan h hscan.manifest, join_segments, hnot] at hthere
        cases hthere
      rw [hnode] at he ⊢
      exact (hside hinside).mp he
    · intro he
      obtain ⟨node, hnode⟩ := hwhole.nodes he
      have hinside := (hpaths e he).isInternalPath
      rw [hnode] at he ⊢
      exact (hside hinside).mpr he

end Trees

/-! ## The staged tree before it is compared -/

/-- The first half of `apply_reset`: the manifest's directories and attributes. -/
def prepareStaged (site : CommitSite) (plan : CommitPlan) : Commit Unit := do
  plan.createDirs.forM (createStagedDir site)
  plan.uploadFiles.forM (setStagedAttributes site)

/-- The second half: what is staged is compared and installed. -/
def installStaged (site : CommitSite) (syncId : Uuid) (plan : CommitPlan) :
    Commit CommitSyncResponse := do
  let actual ← scanStaged site
  if !sameTree plan actual then
    throw (.conflict "replacement tree differs from the complete manifest")
  CommitTransaction.new site.rollbackDir
  settleTransaction (replaceOperations site syncId plan)

/-- Below the staged tree anything may have changed, as long as names are names. -/
structure Prepared (site : CommitSite) (v : View String Leaf) (files : Files)
    (_ : CommitTransaction) : Prop where
  valid : files.Valid
  outside : ∀ q, ¬ (site.stagedFiles <+: q ∧ q ≠ site.stagedFiles) → files.view q = v q
  names : ∀ {p}, files.view (site.stagedFiles ++ p) ≠ none → ∀ name ∈ p, '/' ∉ name.toList

section Prepare

variable {quiet : Prop} {site : CommitSite} {plan : CommitPlan} {syncId : Uuid}
  {v u : View String Leaf} {path : SyncPath} {p : FilePath}

theorem applyReset_eq : applyReset site syncId plan =
    prepareStaged site plan >>= fun _ => installStaged site syncId plan := by
  simp only [applyReset, prepareStaged, installStaged, bind_assoc]

theorem prepared_stable (hp : p ≠ []) (hnames : ∀ name ∈ p, '/' ∉ name.toList) :
    Stable (Prepared site v) (site.stagedFiles ++ p) where
  valid _ _ h := h.valid
  change files files' tx h hvalid hview := by
    refine ⟨hvalid, fun q hq => ?_, fun {r} hr => ?_⟩
    · rw [hview, h.outside q hq]
      rintro rfl
      exact hq ⟨List.prefix_append _ _, by simpa using hp⟩
    · by_cases heq : r = p
      · rw [heq]
        exact hnames
      · apply h.names
        rwa [← hview]
        simpa using heq

theorem createStagedDir_prepares (hdir : v site.stagedFiles = some .dir) (hclosed : v.Closed) :
    Always (Prepared site v) (createStagedDir site path) := by
  apply (ensurePathHasNoLinks_reads _).seq
  intro _
  apply Triple.seq (M := fun target => On fun files tx =>
    target = site.stagedFiles ++ segments path ∧ Prepared site v files tx)
  · cases hresolve : resolveRelativePath site.stagedFiles path with
    | error e => exact Triple.raise fun _ => id
    | ok target => exact Triple.ret fun _ hd => ⟨(resolve_eq hresolve).2, hd⟩
  rintro target d ⟨rfl, hd⟩
  suffices hmake : Always (Prepared site v)
      (createDirAll (site.stagedFiles ++ segments path) >>= internalIo) from hmake d hd
  apply Always.seq
  · apply always_createDirAll
    intro dir hpre
    by_cases hin : site.stagedFiles <+: dir ∧ dir ≠ site.stagedFiles
    · obtain ⟨⟨p, rfl⟩, hne⟩ := hin
      left
      apply prepared_stable (by simpa using hne)
      intro name hname
      rw [List.prefix_append_right_inj] at hpre
      exact slash_notMem_segments (hpre.subset hname)
    · -- it is above what is staged, and there already
      right
      intro files tx h
      rw [h.outside dir hin]
      have habove : dir <+: site.stagedFiles := by
        obtain h | h := comparable hpre (List.prefix_append site.stagedFiles (segments path))
        · exact h
        · by_contra hnot
          exact hin ⟨h, fun heq => hnot (heq ▸ List.prefix_rfl)⟩
      by_cases heq : dir = site.stagedFiles
      · rw [heq, hdir]
        rintro ⟨⟩
      · rw [dir_on_way hclosed habove heq (by rw [hdir]; rintro ⟨⟩)]
        rintro ⟨⟩
  · intro _
    exact always_orInternal

theorem prepareStaged_prepares (hdir : v site.stagedFiles = some .dir) (hclosed : v.Closed) :
    Always (Prepared site v) (prepareStaged site plan) := by
  apply Always.seq
  · apply Always.forM
    intro path _
    exact createStagedDir_prepares hdir hclosed
  · intro _
    apply Always.forM
    intro upload _
    unfold setStagedAttributes
    cases hresolve : resolveRelativePath site.stagedFiles upload.entry.path with
    | error e => exact fun _ => id
    | ok target =>
        obtain ⟨-, rfl⟩ := resolve_eq hresolve
        apply Stable.setFileAttributes
        apply prepared_stable (segments_ne_nil _)
        exact fun name => slash_notMem_segments

end Prepare

/-! ## Calls that are not refused -/

/-- No call to come is refused. -/
def Calm (d : Disk) : Prop := ∀ fault ∈ d.faults, fault = none

/-- The program does not bring refusals. -/
def Calms {α : Type} (x : Commit α) : Prop := Triple Calm x (fun _ => Calm) fun _ => Calm

section Calm

variable {α β : Type} {x : Commit α} {f : α → Commit β} {site : CommitSite} {plan : CommitPlan}
  {path : FilePath} {text : String}

theorem Calms.ret {a : α} : Calms (pure a : Commit α) := Triple.ret fun _ => id

theorem Calms.raise {e : AppError} : Calms (throw e : Commit α) := Triple.raise fun _ => id

theorem Calms.seq (hx : Calms x) (hf : ∀ a, Calms (f a)) : Calms (x >>= f) := Triple.seq hx hf

theorem calms_call {op : Files → Except IoError (α × Files)} : Calms (call op) := by
  intro d hd
  obtain ⟨files, faults, uuids, tx⟩ := d
  rw [exec_call]
  rcases faults with _ | ⟨_ | refusal, faults⟩
  · cases op files <;> exact hd
  · cases op files <;> exact fun fault hfault => hd fault (List.mem_cons_of_mem _ hfault)
  · exact absurd (hd _ (List.mem_cons_self ..)) (by rintro ⟨⟩)

theorem calms_orInternal {what : String} {r : Except IoError α} : Calms (orInternal what r) := by
  cases r with
  | ok a => exact .ret
  | error e => exact .raise

theorem calms_orThrow {r : Except AppError α} : Calms (orThrow r) := by
  cases r with
  | ok a => exact .ret
  | error e => exact .raise

theorem ensureRealDirectoryChain_calms : Calms (ensureRealDirectoryChain path) := by
  apply Triple.forM_inv
  intro current _
  apply calms_call.seq
  rintro (_ | _ | _)
  · exact .raise
  · exact .ret
  · exact .raise

theorem checkLinks_calms {parts : List String} : Calms (checkLinks text path parts) := by
  induction parts generalizing path with
  | nil => exact .ret
  | cons part rest ih =>
      apply calms_call.seq
      rintro (e | _ | _ | _ | _)
      · cases e <;> first | exact .ret | exact .raise
      · exact ih
      · exact .ret
      · exact .raise
      · exact .ret

theorem createDirs_calms {dirs : List FilePath} : Calms (createDirs dirs) := by
  induction dirs with
  | nil => exact .ret
  | cons dir rest ih =>
      apply calms_call.seq
      rintro (_ | _)
      · apply calms_call.seq
        rintro (_ | _ | _)
        · exact .ret
        · exact ih
        · exact .ret
      · exact ih

theorem setFileAttributes_calms {mtimeUnixMs : Option Int} {executable : Bool} :
    Calms (setFileAttributes path mtimeUnixMs executable) := by
  have hexecutable : Calms (setExecutable path executable) := by
    apply calms_call.seq
    intro _
    apply calms_orInternal.seq
    intro _
    apply calms_call.seq
    intro _
    exact calms_orInternal
  cases mtimeUnixMs with
  | none => exact hexecutable
  | some mtime =>
      have hmtime : Calms (setFileMtime path mtime) := calms_call.seq fun _ => calms_orInternal
      exact hmtime.seq fun _ => hexecutable

theorem prepareStaged_calms : Calms (prepareStaged site plan) := by
  apply Calms.seq
  · apply Triple.forM_inv
    intro path _
    have hlooks : Calms (ensureRealDirectoryChain site.stagedFiles >>= fun _ =>
        checkLinks path site.stagedFiles (segments path)) :=
      ensureRealDirectoryChain_calms.seq fun _ => checkLinks_calms
    have hchecks : Calms (ensurePathHasNoLinks site.stagedFiles path) := by
      unfold ensurePathHasNoLinks
      split
      · exact Calms.raise.seq fun _ => hlooks
      · exact hlooks
    apply hchecks.seq
    intro _
    apply calms_orThrow.seq
    intro target
    exact createDirs_calms.seq fun _ => calms_orInternal
  · intro _
    apply Triple.forM_inv
    intro upload _
    exact calms_orThrow.seq fun _ => setFileAttributes_calms

end Calm

/-! ## Installing what is staged -/

/-- A replacement finds what it works on. -/
structure Sited (site : CommitSite) (v : View String Leaf) : Prop where
  staged : v site.stagedFiles = some .dir
  rollback : v site.rollbackDir = some .dir ∨ v site.rollbackDir = none
  project : v site.projectDir = some .dir ∨ v site.projectDir = none

section Install

variable {quiet : Prop} {site : CommitSite} {plan : CommitPlan} {syncId : Uuid}
  {client : List ManifestEntry} {staged : Files} {tree : Tree String Leaf} {v : View String Leaf}

theorem Sited.above (h : Sited site v) (hclosed : v.Closed) {q : FilePath}
    (hq : q <+: site.stagingDir) : v q = some .dir := by
  apply dir_on_way hclosed (hq.trans (List.prefix_append _ ["files"]))
  · rintro rfl
    simpa [CommitSite.stagedFiles] using hq.length_le
  · show v site.stagedFiles ≠ none
    rw [h.staged]
    rintro ⟨⟩

theorem Sited.root (h : Sited site v) (hclosed : v.Closed) : v site.workspaceRoot = some .dir :=
  h.above hclosed (List.prefix_append _ _)

/-- The way to the backups is free. -/
theorem Sited.backups (h : Sited site v) (hclosed : v.Closed) {q : FilePath}
    (hq : q <+: site.rollbackDir) : v q = some .dir ∨ v q = none := by
  obtain hq | rfl : q <+: site.stagingDir ∨ q = site.rollbackDir := by
    obtain ⟨rest, hrest⟩ := hq
    obtain rfl | ⟨front, last, rfl⟩ := List.eq_nil_or_concat rest
    · exact .inr (by simpa using hrest)
    · rw [CommitSite.rollbackDir, List.concat_eq_append, ← List.append_assoc] at hrest
      exact .inl ⟨front, (List.append_inj' hrest rfl).1⟩
  · exact .inl (h.above hclosed hq)
  · exact h.rollback

theorem scanStaged_does (hget : staged.get site.stagedFiles = some (.dir tree))
    (hscan : quiet → ∃ actual, scanManifest site.digest tree .none site.limits.syncMaxManifestEntries
      site.limits.syncMaxFileBytes = .ok actual) :
    Does quiet (fun files _ => files = staged) (scanStaged site) fun actual files _ =>
      scanManifest site.digest tree .none site.limits.syncMaxManifestEntries
        site.limits.syncMaxFileBytes = .ok actual ∧ files = staged := by
  have hread : Does quiet (fun files _ => files = staged)
      (call (Files.readTree site.stagedFiles) >>= orInternal "failed to walk project: ")
      fun children files _ => children = tree ∧ files = staged := by
    apply does_orInternal
    rintro files tx rfl
    unfold Files.readTree
    rw [hget]
    exact ⟨rfl, rfl⟩
  show Does quiet _ (call (Files.readTree site.stagedFiles) >>= fun r =>
    orInternal _ r >>= fun _ => _) _
  rw [← bind_assoc]
  apply hread.seq
  intro children
  apply Does.assuming
  rintro rfl
  cases hmanifest : scanManifest site.digest children .none site.limits.syncMaxManifestEntries
      site.limits.syncMaxFileBytes with
  | ok actual => exact Does.ret fun _ _ h => ⟨rfl, h⟩
  | error e =>
      apply Does.raise
      intro _ _ _ hquiet
      obtain ⟨actual, hactual⟩ := hscan hquiet
      rw [hactual] at hmanifest
      cases hmanifest

/-- What is staged becomes the project if it is the manifest. -/
theorem installStaged_does (hproject : site.project ≠ INTERNAL_DIR)
    (hlists : Lists site.limits client plan) (hvalid : staged.Valid) (hsited : Sited site staged.view)
    (hget : staged.get site.stagedFiles = some (.dir tree)) (hdisk : OnDisk tree)
    (hsame : quiet → ∃ actual, scanManifest site.digest tree .none site.limits.syncMaxManifestEntries
      site.limits.syncMaxFileBytes = .ok actual ∧ ∀ e, e ∈ actual ↔ e ∈ client) :
    Does quiet (fun files _ => files = staged) (installStaged site syncId plan) fun _ files _ =>
      (∃ actual, scanManifest site.digest tree .none site.limits.syncMaxManifestEntries
        site.limits.syncMaxFileBytes = .ok actual ∧ ∀ e, e ∈ actual ↔ e ∈ client) ∧
      ∀ p, files.view (site.projectDir ++ p) = staged.view (site.stagedFiles ++ p) := by
  obtain ⟨hplaces, -⟩ := separate_of_project hproject
  have hclosed := Tree.view_closed staged
  apply Does.seq (scanStaged_does hget fun hquiet => (hsame hquiet).imp fun _ h => h.1)
  intro actual
  apply Does.assuming
  intro hscan
  have hwhole : Whole actual := (scanManifest_ok hdisk hscan).manifest.whole TreeSelected.node
  split
  · rename_i hdiffers
    apply Does.seq (Q := fun _ _ _ => False)
    · apply Does.raise
      intro _ _ _ hquiet
      obtain ⟨actual', hscan', hmem⟩ := hsame hquiet
      rw [hscan] at hscan'
      cases hscan'
      rw [(sameTree_iff hlists hwhole).mpr hmem] at hdiffers
      cases hdiffers
    · rintro _ d ⟨⟨⟩, -⟩
  · rename_i hequal
    rw [Bool.not_eq_true, Bool.not_eq_false'] at hequal
    have hmem := (sameTree_iff hlists hwhole).mp hequal
    have hnew : Does quiet (fun files _ => files = staged) (CommitTransaction.new site.rollbackDir)
        fun _ => Shows site.rollbackDir (made site.rollbackDir staged.view) := by
      apply Does.weaken (new_does fun _ q hq => hsited.backups hclosed hq) ?_ fun _ _ _ => id
      rintro files tx rfl
      exact ⟨hvalid, rfl⟩
    have hmade : ∀ q, ¬ q <+: site.rollbackDir → made site.rollbackDir staged.view q = staged.view q :=
      fun q hq => if_neg hq
    have hstaged : ∀ p, made site.rollbackDir staged.view (site.stagedFiles ++ p) =
        staged.view (site.stagedFiles ++ p) := fun p =>
      hmade _ (hplaces.backups.symm.below (List.prefix_append _ p)).2
    have hprojectDir : Apart site.projectDir site.rollbackDir := by
      have hrollback : site.rollbackDir = site.workspaceRoot ++ INTERNAL_DIR ::
          ["staging", site.staging, "rollback"] := by
        simp [CommitSite.rollbackDir, CommitSite.stagingDir]
      rw [hrollback]
      exact apart_of_ne hproject
    apply hnew.seq
    intro _
    apply settleTransaction_does
    apply Does.seq (replaceProject_does hprojectDir hplaces.backups hplaces.project ?_ ?_)
    · intro _
      apply Does.ret
      intro files tx hshows
      refine ⟨⟨actual, hscan, hmem⟩, fun p => ?_⟩
      have hout : Apart site.stagedFiles (site.projectDir ++ p) :=
        hplaces.project.below (List.prefix_append _ p)
      rw [hshows.outside _ (hprojectDir.symm.below (List.prefix_append _ p)).1, moved,
        if_pos (List.prefix_append _ _), List.drop_left, cleared,
        if_neg (hplaces.project.symm.below (List.prefix_append _ p)).1, hstaged]
    · have hhere := hstaged []
      rw [List.append_nil] at hhere
      rw [hhere, hsited.staged]
    · intro _
      constructor
      · rw [hmade _ hprojectDir.1]
        exact hsited.project.symm
      · refine ⟨site.workspaceRoot, site.project, rfl, ?_, ?_⟩
        · rw [made]
          split
          · rfl
          · exact hsited.root hclosed
        · intro h
          simpa [CommitSite.rollbackDir, CommitSite.stagingDir] using h.length_le

end Install

end VivadoServer.Sync
