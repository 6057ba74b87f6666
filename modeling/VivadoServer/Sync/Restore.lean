/-
  VivadoServer.Sync.Restore

  A commit that fails gives the project back.  The checks before the transaction
  only look, the staging area is apart from the project, and every step of the
  transaction keeps what its rollback restores.
-/

import VivadoServer.Sync.Apply
import VivadoServer.Sync.Rollback

namespace VivadoServer.Sync

open FileTree History CommitTransaction

/-! ## Conditions that hold throughout -/

/-- The condition holds after the program, however it ends. -/
def Always {α : Type} (P : Files → CommitTransaction → Prop) (x : Commit α) : Prop :=
  Triple (On P) x (fun _ => On P) fun _ => On P

/-- The program only looks at the disk. -/
def Reads {α : Type} (x : Commit α) : Prop := ∀ P, Always P x

section Always

variable {α β : Type} {P : Files → CommitTransaction → Prop} {x : Commit α} {f : α → Commit β}
  {what : String}

theorem Always.ret {a : α} : Always P (pure a : Commit α) := Triple.ret fun _ => id

theorem Always.raise {e : AppError} : Always P (throw e : Commit α) := Triple.raise fun _ => id

theorem Always.seq (hx : Always P x) (hf : ∀ a, Always P (f a)) : Always P (x >>= f) :=
  Triple.seq hx hf

theorem Always.forM {γ : Type} {l : List γ} {body : γ → Commit Unit}
    (h : ∀ a ∈ l, Always P (body a)) : Always P (l.forM body) :=
  Triple.forM_inv h

theorem Always.ite {c : Prop} [Decidable c] {x y : Commit α} (hx : Always P x) (hy : Always P y) :
    Always P (if c then x else y) := by
  split
  · exact hx
  · exact hy

theorem always_orInternal {r : Except IoError α} : Always P (orInternal what r) := by
  cases r with
  | ok a => exact .ret
  | error e => exact .raise

theorem always_orThrow {r : Except AppError α} : Always P (orThrow r) := by
  cases r with
  | ok a => exact .ret
  | error e => exact .raise

/-- A call that does not touch the files. -/
theorem always_call {op : Files → Except IoError (α × Files)}
    (h : ∀ files a files', op files = .ok (a, files') → files' = files) : Always P (call op) := by
  apply call_any
  intro files tx hfiles
  refine ⟨fun _ => hfiles, ?_⟩
  cases hop : op files with
  | ok result =>
      show P result.2 tx
      rwa [h files result.1 result.2 hop]
  | error e => exact hfiles

theorem always_symlinkMetadata {path : FilePath} : Always P (call (Files.symlinkMetadata path)) := by
  apply always_call
  intro files a files' h
  unfold Files.symlinkMetadata at h
  split at h <;> cases h
  rfl

theorem always_metadata {path : FilePath} : Always P (call (Files.metadata path)) := by
  apply always_call
  intro files a files' h
  unfold Files.metadata at h
  split at h <;> cases h
  rfl

theorem always_canonicalize {path : FilePath} : Always P (call (Files.canonicalize path)) := by
  apply always_call
  intro files a files' h
  unfold Files.canonicalize at h
  split at h <;> cases h
  rfl

theorem always_read {path : FilePath} : Always P (call (Files.read path)) := by
  apply always_call
  intro files a files' h
  unfold Files.read at h
  split at h <;> cases h
  rfl

theorem always_readTree {path : FilePath} : Always P (call (Files.readTree path)) := by
  apply always_call
  intro files a files' h
  unfold Files.readTree at h
  split at h <;> cases h
  all_goals rfl

end Always

/-! ## The checks -/

section Checks

variable {site : CommitSite} {plan : CommitPlan} {path : FilePath} {text : String} {digest : Sha256}

theorem ensureRealDirectoryChain_reads : Reads (ensureRealDirectoryChain path) := by
  intro P
  apply Always.forM
  intro current _
  apply always_symlinkMetadata.seq
  rintro (_ | _ | _)
  · exact .raise
  · exact .ret
  · exact .raise

theorem checkLinks_reads {parts : List String} : Reads (checkLinks text path parts) := by
  intro P
  induction parts generalizing path with
  | nil => exact .ret
  | cons part rest ih =>
      apply always_symlinkMetadata.seq
      rintro (e | _ | _ | _ | _)
      · cases e <;> first | exact .ret | exact .raise
      · exact ih
      · exact .ret
      · exact .raise
      · exact .ret

theorem ensurePathHasNoLinks_reads : Reads (ensurePathHasNoLinks path text) := by
  intro P
  have hlooks : Always P (ensureRealDirectoryChain path >>= fun _ =>
      checkLinks text path (segments text)) :=
    (ensureRealDirectoryChain_reads P).seq fun _ => checkLinks_reads P
  unfold ensurePathHasNoLinks
  split
  · exact Always.raise.seq fun _ => hlooks
  · exact hlooks

theorem ensureSafeProjectRoot_reads {projectDir : FilePath} :
    Reads (ensureSafeProjectRoot path projectDir) := by
  intro P
  apply (ensureRealDirectoryChain_reads P).seq
  intro _
  apply always_canonicalize.seq
  intro _
  apply always_orInternal.seq
  intro canonicalRoot
  apply always_symlinkMetadata.seq
  intro _
  apply always_orInternal.seq
  intro metadata
  have hinside : Always P (call (Files.canonicalize projectDir) >>= fun r =>
      orInternal "failed to canonicalize project directory: " r >>= fun canonicalProject =>
        if canonicalProject.dropLast ≠ canonicalRoot then
          throw (.badRequest "project directory escapes workspace_root")
        else pure ()) := by
    apply always_canonicalize.seq
    intro _
    apply always_orInternal.seq
    intro _
    exact .ite .raise .ret
  exact .ite (Always.raise.seq fun _ => hinside) hinside

theorem checkProjectRoot_reads : Reads (checkProjectRoot site) := by
  intro P
  apply always_symlinkMetadata.seq
  rintro (e | _)
  · cases e <;> first | exact .ret | exact .raise
  · exact ensureSafeProjectRoot_reads P

theorem projectDevice_reads : Reads (projectDevice site) := by
  intro P
  apply always_symlinkMetadata.seq
  rintro (e | _)
  · cases e <;> first | exact .ret | exact .raise
  · exact .ret

theorem ensureSameFilesystem_reads : Reads (ensureSameFilesystem site) := by
  intro P
  apply always_metadata.seq
  intro _
  apply always_orInternal.seq
  intro _
  apply always_metadata.seq
  intro _
  apply always_orInternal.seq
  intro _
  apply (projectDevice_reads P).seq
  intro _
  exact .ite .raise .ret

theorem regularData_reads {node : Node Leaf} : Reads (regularData node) := by
  intro P
  cases node with
  | dir => exact .raise
  | file leaf => cases leaf <;> first | exact .ret | exact .raise

theorem readForTransfer_reads {maxFileBytes : Nat} :
    Reads (readForTransfer digest path text maxFileBytes) := by
  intro P
  apply always_metadata.seq
  intro _
  apply always_orInternal.seq
  intro _
  apply (regularData_reads P).seq
  intro before
  apply always_symlinkMetadata.seq
  intro _
  apply always_orInternal.seq
  intro _
  apply (regularData_reads P).seq
  intro _
  apply always_orThrow.seq
  intro transfer
  apply always_read.seq
  intro _
  apply always_orInternal.seq
  intro _
  apply always_metadata.seq
  intro _
  apply always_orInternal.seq
  intro _
  apply (regularData_reads P).seq
  intro after
  have hseek : Always P (call (Files.metadata path) >>= fun r =>
      orInternal "failed to rewind transfer file: " r >>= fun _ => pure transfer) := by
    apply always_metadata.seq
    intro _
    exact always_orInternal.seq fun _ => .ret
  exact .ite (Always.raise.seq fun _ => hseek) hseek

theorem openFileForTransfer_reads {maxFileBytes : Nat} :
    Reads (openFileForTransfer digest path text maxFileBytes) := by
  intro P
  apply always_symlinkMetadata.seq
  rintro (e | _)
  · cases e <;> exact .raise
  · exact readForTransfer_reads P

theorem checkStaged_reads {upload : PlannedUpload} : Reads (checkStaged site upload) := by
  intro P
  apply (ensurePathHasNoLinks_reads P).seq
  intro _
  apply always_orThrow.seq
  intro _
  apply (openFileForTransfer_reads P).seq
  intro _
  exact .ite .raise .ret

theorem standing_reads : Reads (standing path) := by
  intro P
  apply always_metadata.seq
  rintro (_ | _) <;> exact .ret

theorem hashFile_reads : Reads (hashFile digest path) := by
  intro P
  apply always_metadata.seq
  intro _
  apply always_orInternal.seq
  intro _
  apply always_read.seq
  intro _
  apply always_orInternal.seq
  rintro (_ | _ | _) <;> first | exact .ret | exact .raise

theorem ensureFileMatches_reads {entry : ManifestEntry} :
    Reads (ensureFileMatches digest path entry) := by
  intro P
  have hcompare : Always P (call (Files.metadata path) >>= fun r =>
      orInternal "failed to inspect baseline file: " r >>= fun node =>
      regularData node >>= fun metadata => hashFile digest path >>= fun currentSha =>
      call (Files.metadata path) >>= fun r => internalIo r >>= fun node =>
      regularData node >>= fun after =>
        if metadata.content.length = after.content.length ∧ metadata.mtime = after.mtime ∧
            some metadata.content.length = entry.sizeBytes ∧
            some (systemTimeToMs metadata.mtime) = entry.mtimeUnixMs ∧
            some currentSha = entry.sha256 ∧ metadata.executable = entry.executable ∧
            after.executable = entry.executable then pure ()
        else throw (.conflict ("target changed since plan: " ++ entry.path))) := by
    apply always_metadata.seq
    intro _
    apply always_orInternal.seq
    intro _
    apply (regularData_reads P).seq
    intro _
    apply (hashFile_reads P).seq
    intro _
    apply always_metadata.seq
    intro _
    apply always_orInternal.seq
    intro _
    apply (regularData_reads P).seq
    intro _
    exact .ite .ret .raise
  apply (standing_reads P).seq
  rintro (_ | _ | _ | _ | _)
  · exact .raise
  · exact .raise
  · exact hcompare
  · exact .raise
  · exact .raise

theorem ensureBaselineMatches_reads {baseline : Option ManifestEntry} :
    Reads (ensureBaselineMatches digest path baseline) := by
  intro P
  cases baseline with
  | none =>
      apply (standing_reads P).seq
      intro _
      exact .ite .raise .ret
  | some entry =>
      simp only [ensureBaselineMatches]
      cases entry.kind with
      | dir =>
          apply (standing_reads P).seq
          intro _
          exact .ite .raise .ret
      | file => exact ensureFileMatches_reads P

theorem checkTarget_reads {target : SyncPath} : Reads (checkTarget site plan target) := by
  intro P
  apply (ensurePathHasNoLinks_reads P).seq
  intro _
  apply always_orThrow.seq
  intro _
  exact ensureBaselineMatches_reads P

theorem scanStaged_reads : Reads (scanStaged site) := by
  intro P
  apply always_readTree.seq
  intro _
  apply always_orInternal.seq
  intro _
  exact always_orThrow

end Checks

/-! ## Attributes of what was installed -/

section Attributes

variable {project backups staged target path : FilePath} {original : View String Leaf}
  {files files' : Files} {f : FileData → FileData} {what : String}
  {P : Files → CommitTransaction → Prop}

theorem setData_ok {u : Unit} (hvalid : files.Valid)
    (h : Files.setData path f files = .ok (u, files')) :
    files'.Valid ∧ (∀ q, q ≠ path → files'.view q = files.view q) := by
  unfold Files.setData at h
  split at h
  · rename_i data hview
    cases h
    obtain ⟨q, n, rfl⟩ := (Tree.view_closed files).split (by rw [hview]; rintro ⟨⟩)
    have hparent := Tree.view_parent (by rw [hview]; rintro ⟨⟩)
    obtain ⟨hvalid', hput⟩ := Tree.put_spec hvalid hparent
      (by rw [hview]; rintro ⟨⟩) (a := .regular (f data))
    refine ⟨hvalid', fun r hr => ?_⟩
    rw [hput, Function.update_of_ne hr]
  · cases h
    exact ⟨hvalid, fun _ _ => rfl⟩
  · cases h

/-- The condition stays when something else stands at the path. -/
structure Stable (P : Files → CommitTransaction → Prop) (path : FilePath) : Prop where
  valid : ∀ files tx, P files tx → files.Valid
  change : ∀ files files' tx, P files tx → files'.Valid →
    (∀ q, q ≠ path → files'.view q = files.view q) → P files' tx

theorem Stable.setData (h : Stable P path) :
    Always P (call (Files.setData path f) >>= orInternal what) := by
  apply call_orInternal
  intro files tx u files' hfiles hset
  obtain ⟨hvalid, hview⟩ := setData_ok (h.valid files tx hfiles) hset
  exact h.change files files' tx hfiles hvalid hview

theorem Stable.setFileAttributes {mtimeUnixMs : Option Int} {executable : Bool} (h : Stable P path) :
    Always P (setFileAttributes path mtimeUnixMs executable) := by
  have hexecutable : Always P (setExecutable path executable) := by
    apply always_metadata.seq
    intro _
    apply always_orInternal.seq
    intro _
    exact h.setData
  cases mtimeUnixMs with
  | none => exact hexecutable
  | some mtime =>
      have hmtime : Always P (setFileMtime path mtime) := h.setData
      exact hmtime.seq fun _ => hexecutable

/-- Directories are made where the condition allows it, or are there already. -/
theorem always_createDirs {dirs : List FilePath}
    (h : ∀ dir ∈ dirs, Stable P dir ∨ ∀ files tx, P files tx → files.view dir ≠ none) :
    Always P (createDirs dirs) := by
  induction dirs with
  | nil => exact .ret
  | cons dir rest ih =>
      have hrest := ih fun d hd => h d (List.mem_cons_of_mem _ hd)
      have hcreate : Always P (call (Files.createDir dir)) := by
        apply call_any
        intro files tx hfiles
        refine ⟨fun _ => hfiles, ?_⟩
        cases hop : Files.createDir dir files with
        | error e => exact hfiles
        | ok result =>
            obtain hstable | hthere := h dir (List.mem_cons_self ..)
            · obtain ⟨hvalid, hview⟩ := createDir_ok (hstable.valid files tx hfiles) hop
              apply hstable.change files result.2 tx hfiles hvalid
              intro q hq
              rw [hview, Function.update_of_ne hq]
            · unfold Files.createDir at hop
              split at hop
              · cases hop
              · rename_i hfree _
                exact absurd hfree (hthere files tx hfiles)
              · cases hop
      apply hcreate.seq
      rintro (e | _)
      · apply always_symlinkMetadata.seq
        rintro (_ | _ | _)
        · exact .ret
        · exact hrest
        · exact .ret
      · exact hrest

theorem always_createDirAll
    (h : ∀ dir, dir <+: path → Stable P dir ∨ ∀ files tx, P files tx → files.view dir ≠ none) :
    Always P (createDirAll path) :=
  always_createDirs fun dir hdir => h dir ((List.mem_inits _ _).mp (List.mem_filter.mp hdir).1)

/-- What was installed may change, the rollback takes it away again. -/
theorem LastInstalled.changed {tx : CommitTransaction}
    (h : LastInstalled project backups staged target original files tx) (hvalid : files'.Valid)
    (hview : ∀ q, q ≠ target → files'.view q = files.view q) :
    LastInstalled project backups staged target original files' tx := by
  obtain ⟨h, backup, rest, hchanges⟩ := h
  have hplaced := h.placed _ (hchanges ▸ List.mem_cons_self ..)
  refine ⟨⟨hvalid, h.root, h.placed, ?_⟩, backup, rest, hchanges⟩
  have hrestored := h.restored
  rw [hchanges] at hrestored ⊢
  refine (restored_agree (fun c hc => h.placed c (hchanges ▸ List.mem_cons_of_mem _ hc)) ?_).trans
    hrestored
  cases hplaced with
  | installed htarget hproject hbackups hpath =>
      -- what stands at the target goes to the staging area
      have hstaged : Agree project backups (moved target staged files'.view)
          (moved target staged files.view) := by
        intro q hq
        have hout : ¬ staged <+: q := fun h => hq.elim (hproject.not_both h) (hbackups.not_both h)
        simp only [moved, if_neg hout]
        split
        · rfl
        · rename_i htarget
          exact hview q fun heq => htarget (heq ▸ List.prefix_rfl)
      cases backup with
      | none => exact hstaged
      | some path =>
          apply moved_agree (fun q => ?_) hstaged
          exact hstaged _ (.inr ((hpath path rfl).below.trans (List.prefix_append _ _)))

theorem LastInstalled.stable : Stable (LastInstalled project backups staged target original) target where
  valid _ _ h := h.1.valid
  change _ _ _ h hvalid hview := LastInstalled.changed h hvalid hview

end Attributes

/-! ## The transaction of a commit -/

section Commit

variable {site : CommitSite} {plan : CommitPlan} {original : View String Leaf} {syncId : Uuid}
  {project backups : FilePath}

theorem resolve_below {root path : FilePath} {text : String}
    (h : resolveRelativePath root text = .ok path) : root <+: path := by
  unfold resolveRelativePath at h
  cases hnormal : normalizeSyncPath text with
  | error e =>
      rw [hnormal] at h
      cases h
  | ok normalized =>
      rw [hnormal] at h
      cases h
      exact List.prefix_append _ _

/-- A program at a path below a directory. -/
theorem keeps_resolved {α : Type} {P : Files → CommitTransaction → Prop} {root : FilePath}
    {text : String} {f : FilePath → Commit α} (h : ∀ path, root <+: path → Always P (f path)) :
    Always P (orThrow (resolveRelativePath root text) >>= f) := by
  cases hresolve : resolveRelativePath root text with
  | error e => exact fun _ => id
  | ok path => exact h path (resolve_below hresolve)

theorem reported_keeps {P : Files → CommitTransaction → Prop} {round : SyncPath → Commit Bool}
    {paths : List SyncPath} (h : ∀ path, Always P (round path)) : Always P (reported round paths) := by
  induction paths with
  | nil => exact .ret
  | cons path rest ih =>
      apply (h path).seq
      intro _
      apply ih.seq
      intro _
      exact .ret

/-- Where the staged files and the backups of a commit lie. -/
structure Separate (project backups staged : FilePath) : Prop where
  project : Apart staged project
  backups : Apart staged backups

theorem installUpload_keeps {upload : PlannedUpload}
    (hplaces : Separate site.projectDir site.rollbackDir site.stagedFiles) :
    Keeps site.projectDir site.rollbackDir (installUpload site upload) := by
  intro original
  apply keeps_resolved
  intro target htarget
  apply keeps_resolved
  intro staged hstaged
  have hproject := (hplaces.project.symm.below hstaged).symm
  have hbackups := (hplaces.backups.symm.below hstaged).symm
  apply Triple.seq (installFile_spec htarget hproject hbackups)
  intro _
  exact LastInstalled.stable.setFileAttributes.weaken (fun _ => id) (fun _ _ h => h.1) fun _ _ h => h.1

theorem commitOperations_keeps
    (hplaces : Separate site.projectDir site.rollbackDir site.stagedFiles) :
    Keeps site.projectDir site.rollbackDir (commitOperations site syncId plan) := by
  intro original
  apply Always.seq (createDir_keeps List.prefix_rfl original)
  intro _
  apply Always.seq (reported_keeps fun path => keeps_resolved fun target htarget =>
    deleteFile_keeps htarget original)
  intro _
  apply Always.seq (reported_keeps fun path => keeps_resolved fun target htarget =>
    deleteEmptyDir_keeps htarget original)
  intro _
  apply Always.seq (Always.forM fun path _ => keeps_resolved fun target htarget =>
    createDir_keeps htarget original)
  intro _
  apply Always.seq (Always.forM fun upload _ => installUpload_keeps hplaces original)
  intro _
  exact .ret

theorem replaceOperations_keeps
    (hplaces : Separate site.projectDir site.rollbackDir site.stagedFiles) :
    Keeps site.projectDir site.rollbackDir (replaceOperations site syncId plan) := by
  intro original
  apply Always.seq (replaceProject_keeps List.prefix_rfl hplaces.project hplaces.backups original)
  intro _
  exact .ret

/-- Every error but one means that the project is as it was. -/
def Restored (project : FilePath) (original : View String Leaf) (e : AppError) (d : Disk) : Prop :=
  (∀ text, e ≠ .projectReuploadRequired text) → ∀ q, project <+: q → d.files.view q = original q

theorem settleTransaction_restores {α : Type} {x : Commit α}
    (hx : Always (Restores project backups original) x) :
    Triple (On (Restores project backups original)) (settleTransaction x) (fun _ _ => True)
      (Restored project original) := by
  apply Triple.seq (M := fun _ => On (Restores project backups original))
  · exact Triple.attempt hx
  · rintro (e | a)
    · apply Triple.seq (M := fun r d => r = .ok () →
        ∀ q, project <+: q → d.files.view q = original q)
      · apply Triple.attempt
        apply rollback_spec.weaken (fun _ => id)
        · intro _ d h _ q hq
          exact h.2 q (.inl hq)
        · intro _ d _ h
          cases h
      · rintro (e' | _)
        · exact Triple.raise fun d h hother => absurd rfl (hother _)
        · exact Triple.raise fun d h _ => h rfl
    · exact Triple.ret fun _ _ => trivial

/-- The project is as it was. -/
def Untouched (project : FilePath) (original : View String Leaf) (files : Files)
    (_ : CommitTransaction) : Prop :=
  files.Valid ∧ ∀ q, project <+: q → files.view q = original q

theorem untouched_stable {path : FilePath} (h : ¬ project <+: path) :
    Stable (Untouched project original) path where
  valid _ _ hfiles := hfiles.1
  change files files' tx hfiles hvalid hview := by
    refine ⟨hvalid, fun q hq => ?_⟩
    rw [hview q (fun heq => h (heq ▸ hq)), hfiles.2 q hq]

theorem createDirAll_untouched {path : FilePath} (h : ¬ project <+: path) :
    Always (Untouched project original) (createDirAll path) :=
  always_createDirAll fun _ hpre => .inl (untouched_stable fun hproject => h (hproject.trans hpre))

/-- A new transaction restores what stands now. -/
theorem new_spec (h : ¬ project <+: backups) :
    Triple (On (Untouched project original)) (CommitTransaction.new backups)
      (fun _ d => ∃ now, (∀ q, project <+: q → now q = original q) ∧
        On (Restores project backups now) d)
      fun _ => On (Untouched project original) := by
  apply Triple.seq (createDirAll_untouched h)
  intro _
  apply Triple.seq always_orInternal
  intro _
  apply Triple.update
  rintro d ⟨hvalid, hsame⟩
  exact ⟨d.files.view, hsame, hvalid, rfl, (by rintro _ ⟨⟩), fun _ _ => rfl⟩

/-- A transaction from its start to its end. -/
theorem transaction_restores {α : Type} {x : Commit α} (h : ¬ project <+: backups)
    (hx : Keeps project backups x) :
    Triple (On (Untouched project original))
      (CommitTransaction.new backups >>= fun _ => settleTransaction x) (fun _ _ => True)
      (Restored project original) := by
  have hbefore : ∀ e d, On (Untouched project original) d → Restored project original e d :=
    fun _ _ hd _ => hd.2
  apply Triple.seq ((new_spec h).weaken (fun _ => id) (fun _ _ => id) hbefore)
  rintro _ d ⟨now, hnow, hd⟩
  have hrun := settleTransaction_restores (hx now) d hd
  split
  · trivial
  · rename_i heq
    rw [heq] at hrun
    exact fun hother q hq => (hrun hother q hq).trans (hnow q hq)

/-- What the checks before a transaction meet. -/
theorem Always.untouched {α β : Type} {x : Commit α} {f : α → Commit β} (hx : Always (Untouched project original) x)
    (hf : ∀ a, Triple (On (Untouched project original)) (f a) (fun _ _ => True)
      (Restored project original)) :
    Triple (On (Untouched project original)) (x >>= f) (fun _ _ => True)
      (Restored project original) :=
  Triple.seq (hx.weaken (fun _ => id) (fun _ _ => id) fun _ _ h _ => h.2) hf

/-- The directories of a site lie apart. -/
theorem separate_of_project (h : site.project ≠ INTERNAL_DIR) :
    Separate site.projectDir site.rollbackDir site.stagedFiles ∧
      ¬ site.projectDir <+: site.rollbackDir := by
  have hstaged : site.stagedFiles = site.workspaceRoot ++ INTERNAL_DIR ::
      ["staging", site.staging, "files"] := by
    simp [CommitSite.stagedFiles, CommitSite.stagingDir]
  have hrollback : site.rollbackDir = site.workspaceRoot ++ INTERNAL_DIR ::
      ["staging", site.staging, "rollback"] := by
    simp [CommitSite.rollbackDir, CommitSite.stagingDir]
  refine ⟨⟨?_, apart_of_ne (by decide)⟩, ?_⟩
  · rw [hstaged]
    exact apart_of_ne h.symm
  · rw [hrollback]
    exact (apart_of_ne h).1

theorem applyReset_restores (hplaces : Separate site.projectDir site.rollbackDir site.stagedFiles)
    (hbackups : ¬ site.projectDir <+: site.rollbackDir) :
    Triple (On (Untouched site.projectDir original)) (applyReset site syncId plan)
      (fun _ _ => True) (Restored site.projectDir original) := by
  have houtside : ∀ path, site.stagedFiles <+: path → ¬ site.projectDir <+: path := fun path hstaged =>
    hplaces.project.not_both hstaged
  apply Always.untouched
  · apply Always.forM
    intro path _
    apply (ensurePathHasNoLinks_reads _).seq
    intro _
    apply keeps_resolved
    intro target htarget
    apply (createDirAll_untouched (houtside target htarget)).seq
    intro _
    exact always_orInternal
  · intro _
    apply Always.untouched
    · apply Always.forM
      intro upload _
      apply keeps_resolved
      intro target htarget
      exact (untouched_stable (houtside target htarget)).setFileAttributes
    · intro _
      apply (scanStaged_reads _).untouched
      intro actual
      have hkeeps : Keeps site.projectDir site.rollbackDir (replaceOperations site syncId plan) :=
        replaceOperations_keeps hplaces
      have hrest : Triple (On (Untouched site.projectDir original))
          (CommitTransaction.new site.rollbackDir >>= fun _ =>
            settleTransaction (replaceOperations site syncId plan)) (fun _ _ => True)
          (Restored site.projectDir original) := transaction_restores hbackups hkeeps
      split
      · exact (Always.raise).untouched fun _ => hrest
      · exact hrest

theorem applyCommit_triple (hplaces : Separate site.projectDir site.rollbackDir site.stagedFiles)
    (hbackups : ¬ site.projectDir <+: site.rollbackDir) :
    Triple (On (Untouched site.projectDir original)) (applyCommit site syncId plan)
      (fun _ _ => True) (Restored site.projectDir original) := by
  apply (checkProjectRoot_reads _).untouched
  intro _
  apply (ensureSameFilesystem_reads _).untouched
  intro _
  apply (Always.forM fun upload _ => checkStaged_reads _).untouched
  intro _
  split
  · exact applyReset_restores hplaces hbackups
  · apply (Always.forM fun path _ => checkTarget_reads _).untouched
    intro _
    exact transaction_restores hbackups (commitOperations_keeps hplaces)

end Commit

/-! ## Any sequence of operations -/

/-- A call of one operation of a transaction. -/
inductive Operation where
  | createDir (target : FilePath) (path : String)
  | installFile (staged target : FilePath) (path : String)
  | deleteFile (target : FilePath) (path : String)
  | deleteEmptyDir (target : FilePath) (path : String)
  | replaceProject (staged target : FilePath)

namespace Operation

/-- The operation, whatever it answers. -/
def run : Operation → Commit Unit
  | createDir target path => CommitTransaction.createDir target path
  | installFile staged target path => CommitTransaction.installFile staged target path
  | deleteFile target path => do
    let _ ← CommitTransaction.deleteFile target path
  | deleteEmptyDir target path => do
    let _ ← CommitTransaction.deleteEmptyDir target path
  | replaceProject staged target => CommitTransaction.replaceProject staged target

/-- The target is in the project; what is installed comes from outside. -/
def Inside (project backups : FilePath) : Operation → Prop
  | createDir target _ => project <+: target
  | installFile staged target _ => project <+: target ∧ Apart staged project ∧ Apart staged backups
  | deleteFile target _ => project <+: target
  | deleteEmptyDir target _ => project <+: target
  | replaceProject staged target => project <+: target ∧ Apart staged project ∧ Apart staged backups

theorem run_keeps {project backups : FilePath} {op : Operation} (h : op.Inside project backups) :
    Keeps project backups op.run := by
  intro original
  cases op with
  | createDir target path => exact createDir_keeps h original
  | installFile staged target path =>
      exact (installFile_spec h.1 h.2.1 h.2.2).weaken (fun _ => id) (fun _ _ h => h.1) fun _ _ => id
  | deleteFile target path =>
      apply (deleteFile_keeps h original).seq
      intro _
      exact Always.ret
  | deleteEmptyDir target path =>
      apply (deleteEmptyDir_keeps h original).seq
      intro _
      exact Always.ret
  | replaceProject staged target => exact replaceProject_keeps h.1 h.2.1 h.2.2 original

end Operation

/-- Operations one after the other, also after one that failed. -/
def runAll (ops : List Operation) : Commit Unit := ops.forM fun op => do
  let _ ← op.run.attempt

theorem runAll_keeps {project backups : FilePath} {ops : List Operation}
    (h : ∀ op ∈ ops, op.Inside project backups) : Keeps project backups (runAll ops) := by
  intro original
  apply Always.forM
  intro op hop
  apply Always.seq (Triple.attempt (Operation.run_keeps (h op hop) original))
  intro _
  exact .ret

theorem project_ne_internal {project : String} (h : validateProjectName project = .ok ()) :
    project ≠ INTERNAL_DIR := by
  rintro rfl
  have hrefused : validateProjectName INTERNAL_DIR = .error .invalidProject := by decide +kernel
  rw [hrefused] at h
  cases h

/-- A commit that fails without asking for a new upload leaves the project as it was,
    and so does a rollback without an error after any operations of a transaction. -/
theorem failed_commit_restores :
    (∀ (site : CommitSite) (syncId : Uuid) (plan : CommitPlan) (d : Disk) (e : AppError),
      validateProjectName site.project = .ok () → d.files.Valid →
      ((applyCommit site syncId plan).exec d).1 = .error e →
      (∀ text, e ≠ .projectReuploadRequired text) →
      ∀ q, site.projectDir <+: q →
        ((applyCommit site syncId plan).exec d).2.files.view q = d.files.view q) ∧
    ∀ (project backups : FilePath) (ops : List Operation) (d : Disk),
      (∀ op ∈ ops, op.Inside project backups) → d.files.Valid →
      d.transaction = { backupRoot := backups, changes := [] } →
      ((runAll ops >>= fun _ => CommitTransaction.rollback).exec d).1 = .ok () →
      ∀ q, project <+: q →
        ((runAll ops >>= fun _ => CommitTransaction.rollback).exec d).2.files.view q =
          d.files.view q := by
  constructor
  · intro site syncId plan d e hproject hvalid hfailed hother
    obtain ⟨hplaces, hbackups⟩ := separate_of_project (project_ne_internal hproject)
    have hcommit : Triple (On (Untouched site.projectDir d.files.view)) (applyCommit site syncId plan)
        (fun _ _ => True) (Restored site.projectDir d.files.view) :=
      applyCommit_triple hplaces hbackups
    have hrun := hcommit d ⟨hvalid, fun _ _ => rfl⟩
    generalize (applyCommit site syncId plan).exec d = result at hrun hfailed ⊢
    obtain ⟨r, d'⟩ := result
    cases hfailed
    exact hrun hother
  · intro project backups ops d hinside hvalid hnew hok
    have hstart : On (Restores project backups d.files.view) d :=
      ⟨hvalid, by rw [hnew], by rw [hnew]; rintro _ ⟨⟩, by rw [hnew]; exact fun _ _ => rfl⟩
    have hrun := (Triple.seq ((runAll_keeps hinside d.files.view).weaken (fun _ => id)
      (fun _ _ => id) fun _ _ h => h.valid) fun _ => rollback_spec) d hstart
    generalize (runAll ops >>= fun _ => CommitTransaction.rollback).exec d = result at hrun hok ⊢
    obtain ⟨r, d'⟩ := result
    cases hok
    exact fun q hq => hrun.2 q (.inl hq)

/-! ### An example -/

/-- A name longer than all names in use. -/
def sampleUuids : UuidSource where
  name used := String.ofList (List.replicate ((used.map String.length).sum + 1) 'b')
  fresh used h := by
    have hle : ((used.map String.length).sum + 1) ≤ (used.map String.length).sum := by
      have hmem := List.mem_map_of_mem (f := String.length) h
      simpa using List.le_sum_of_mem hmem
    omega

def sampleSite : CommitSite where
  workspaceRoot := ["ws"]
  project := "demo"
  staging := "1"
  device _ := 0
  digest _ := emptySha256
  limits := ⟨4, 0⟩

/-- The project `demo` and an empty staging directory. -/
def sampleFiles : Files :=
  .dir "ws" (.dir "demo" sampleServer (.dir INTERNAL_DIR (.dir "staging" (.dir "1" (.dir "files" .nil
    (.dir "tmp" .nil .nil)) .nil) .nil) .nil)) .nil

/-- The file `run` becomes a directory. -/
def samplePlan : CommitPlan where
  reset := false
  uploadFiles := []
  createDirs := ["run"]
  deleteFiles := ["run"]
  deleteDirs := []
  baseline := [fileEntry "run" ⟨0, 7, hexDigest emptySha256.toList, true⟩]

/-- The directory cannot be made after the file is gone. -/
def sampleDisk : Disk where
  files := sampleFiles
  faults := List.replicate 40 none ++ [some .failed]
  uuids := sampleUuids
  transaction := { backupRoot := sampleSite.rollbackDir, changes := [] }

def sampleOperations : List Operation :=
  [.deleteFile ["ws", "demo", "run"] "run", .createDir ["ws", "demo", "run"] "run"]

theorem failed_commit_restores_sample :
    ((applyCommit sampleSite 1 samplePlan).exec sampleDisk).1 =
      .error (.internal "failed to create dir run: Input/output error (os error 5)") ∧
    (∀ q, sampleSite.projectDir <+: q →
      ((applyCommit sampleSite 1 samplePlan).exec sampleDisk).2.files.view q =
        sampleDisk.files.view q) ∧
    ∀ q, sampleSite.projectDir <+: q →
      ((runAll sampleOperations >>= fun _ => CommitTransaction.rollback).exec
        { sampleDisk with faults := [] }).2.files.view q = sampleDisk.files.view q := by
  have hfailed : ((applyCommit sampleSite 1 samplePlan).exec sampleDisk).1 =
      .error (.internal "failed to create dir run: Input/output error (os error 5)") := by
    decide +kernel
  refine ⟨hfailed, ?_, ?_⟩
  · exact failed_commit_restores.1 sampleSite 1 samplePlan sampleDisk _ (by decide +kernel)
      (by decide +kernel) hfailed fun _ => (by rintro ⟨⟩)
  · apply failed_commit_restores.2 sampleSite.projectDir sampleSite.rollbackDir sampleOperations
    · intro op hop
      obtain rfl | rfl := List.mem_pair.mp hop <;> exact ⟨_, rfl⟩
    · decide +kernel
    · rfl
    · decide +kernel

end VivadoServer.Sync
