/-
  VivadoServer.Sync.Rollback

  What a rollback restores.  Undoing one change is a function of what stands on the
  disk, so the log says at every moment which project a rollback would give back.
  Every operation of a transaction keeps that project, however it ends; and a
  rollback that reports no error has given it back.
-/

import VivadoServer.Sync.Transaction

namespace VivadoServer.Sync

open FileTree

/-! ## Conditions on the disk -/

/-- A condition on the files and the transaction, whatever fails later. -/
def On (P : Files → CommitTransaction → Prop) : Disk → Prop := fun d => P d.files d.transaction

section Calls

variable {α β : Type} {P P' : Files → CommitTransaction → Prop}
  {Q : α → Files → CommitTransaction → Prop} {fail : AppError → Disk → Prop}
  {op : Files → Except IoError (α × Files)} {what : String}

theorem exec_call (d : Disk) : (call op).exec d =
    match d.faults with
    | some refusal :: faults => (.ok (.error refusal.error), { d with faults := faults })
    | faults =>
      match op d.files with
      | .ok (a, files) => (.ok (.ok a), { d with files := files, faults := faults.tail })
      | .error e => (.ok (.error e), { d with faults := faults.tail }) := rfl

theorem call_any {R : Except IoError α → Files → CommitTransaction → Prop}
    (h : ∀ files tx, P files tx → (∀ refusal : Refusal, R (.error refusal.error) files tx) ∧
      match op files with
      | .ok (a, files') => R (.ok a) files' tx
      | .error e => R (.error e) files tx) :
    Triple (On P) (call op) (fun r => On (R r)) fail := by
  intro d hd
  obtain ⟨hfault, hdone⟩ := h d.files d.transaction hd
  rw [exec_call]
  split
  · rename_i heq
    split at heq
    · cases heq
      exact hfault _
    · split at heq
      · rename_i hop
        rw [hop] at hdone
        cases heq
        exact hdone
      · rename_i hop
        rw [hop] at hdone
        cases heq
        exact hdone
  · rename_i heq
    split at heq
    · cases heq
    · split at heq <;> cases heq

/-- A call whose error becomes the answer leaves everything as it was when it fails. -/
theorem call_orInternal
    (h : ∀ files tx a files', P files tx → op files = .ok (a, files') → Q a files' tx) :
    Triple (On P) (call op >>= orInternal what) (fun a => On (Q a)) fun _ => On P := by
  refine Triple.seq
    (M := fun r => On fun files tx => Ends (fun a => Q a files tx) (fun _ => P files tx) r) ?_ fun r => ?_
  · apply call_any
    intro files tx hfiles
    refine ⟨fun _ => hfiles, ?_⟩
    cases hop : op files with
    | ok result => exact h files tx result.1 result.2 hfiles hop
    | error e => exact hfiles
  · cases r with
    | ok a => exact Triple.ret fun _ => id
    | error e => exact Triple.raise fun _ => id

theorem call_metadata {path : FilePath} : Triple (On P) (call (Files.symlinkMetadata path))
    (fun r => On fun files tx => P files tx ∧ (∀ node, r = .ok node → files.view path = some node) ∧
      (r = .error .notFound → files.view path = none)) fail := by
  apply call_any
  intro files tx hfiles
  refine ⟨fun refusal => ⟨hfiles, (by rintro _ ⟨⟩), fun h => by cases refusal <;> cases h⟩, ?_⟩
  unfold Files.symlinkMetadata
  cases hview : files.view path with
  | none => exact ⟨hfiles, (by rintro _ ⟨⟩), fun _ => rfl⟩
  | some node =>
      refine ⟨hfiles, fun node' heq => ?_, (by rintro ⟨⟩)⟩
      cases heq
      exact hview

/-- What a program does after it looked at what stands at a path. -/
theorem inspect {path : FilePath} {post : α → Disk → Prop} {f : Except IoError (Node Leaf) → Commit α}
    (hdir : Triple (On fun files tx => P files tx ∧ files.view path = some .dir) (f (.ok .dir))
      post fail)
    (hfile : ∀ leaf, Triple (On fun files tx => P files tx ∧ files.view path = some (.file leaf))
      (f (.ok (.file leaf))) post fail)
    (hmissing : Triple (On fun files tx => P files tx ∧ files.view path = none)
      (f (.error .notFound)) post fail)
    (hfailed : ∀ e, e ≠ .notFound → Triple (On P) (f (.error e)) post fail) :
    Triple (On P) (call (Files.symlinkMetadata path) >>= f) post fail := by
  apply Triple.seq call_metadata
  intro r
  match r with
  | .ok .dir => exact hdir.strengthen fun _ h => ⟨h.1, h.2.1 _ rfl⟩
  | .ok (.file leaf) => exact (hfile leaf).strengthen fun _ h => ⟨h.1, h.2.1 _ rfl⟩
  | .error e =>
      by_cases he : e = .notFound
      · subst he
        exact hmissing.strengthen fun _ h => ⟨h.1, h.2.2 rfl⟩
      · exact (hfailed e he).strengthen fun _ h => h.1

/-- The name of a backup is free. -/
theorem backupPath_fresh : Triple (On P) CommitTransaction.backupPath (fun path => On fun files tx =>
    P files tx ∧ files.view path = none ∧ ∃ n, path = tx.backupRoot ++ [n]) fail := by
  intro d hd
  refine ⟨hd, ?_, _, rfl⟩
  show d.files.view (d.transaction.backupRoot ++ [d.uuids.name (CommitTransaction.backupNames d)]) = none
  have hfresh := d.uuids.fresh (CommitTransaction.backupNames d)
  by_contra hview
  obtain ⟨children, hget⟩ := Tree.get_eq_dir (Tree.view_parent hview)
  rw [Tree.view_append hget] at hview
  apply hview
  rw [Item.view, Item.get, Tree.get_eq_none_of_names, Option.map_none]
  rwa [CommitTransaction.backupNames, hget] at hfresh ⊢

end Calls

/-! ## Moving on views -/

/-- What stands at each path after a rename. -/
def moved (source target : FilePath) (v : View String Leaf) : View String Leaf := fun q =>
  if target <+: q then v (source ++ q.drop target.length)
  else if source <+: q then none
  else v q

/-- Only what stands somewhere is moved. -/
theorem rename_source {source target : FilePath} {files files' : Files} {u : Unit}
    (h : Files.rename source target files = .ok (u, files')) : files.view source ≠ none := by
  intro hview
  unfold Files.rename at h
  rw [Tree.get_eq_none_iff.mpr hview] at h
  cases h

theorem rename_ok {source target : FilePath} {files files' : Files} {u : Unit}
    (hvalid : files.Valid) (hne : source ≠ target)
    (h : Files.rename source target files = .ok (u, files')) :
    files'.Valid ∧ ¬ source <+: target ∧ files'.view = moved source target files.view := by
  unfold Files.rename at h
  split at h
  · cases h
  · rename_i item hget
    rw [if_neg hne] at h
    split at h
    · cases h
    · rename_i hout
      have hsource : source ≠ [] := by
        rintro rfl
        exact hout List.nil_prefix
      have htarget : target ≠ [] := by
        rintro rfl
        rw [Tree.get_nil, List.dropLast_nil, Tree.view_nil] at h
        cases item with
        | file => cases h
        | dir children =>
            cases files with
            | nil =>
                obtain ⟨n, p, rfl⟩ := List.exists_cons_of_ne_nil hsource
                cases hget
            | file => cases h
            | dir => cases h
      -- every rename that goes through is a move into a directory
      have hparent : files.view target.dropLast = some .dir := by
        cases hview : files.view target.dropLast with
        | none =>
            rw [hview] at h
            cases h
        | some node =>
            cases node with
            | dir => rfl
            | file =>
                rw [hview] at h
                cases h
      have hmove : files' = files.move source target := by
        rw [hparent] at h
        cases item with
        | file data =>
            cases hold : files.get target with
            | none =>
                rw [hold] at h
                cases h
                rfl
            | some old =>
                rw [hold] at h
                cases old <;> cases h
                rfl
        | dir children =>
            cases hold : files.get target with
            | none =>
                rw [hold] at h
                cases h
                rfl
            | some old =>
                rw [hold] at h
                cases old with
                | file => cases h
                | dir there =>
                    cases there <;> cases h
                    rfl
      subst hmove
      obtain rfl | ⟨q, n, rfl⟩ := List.eq_nil_or_concat target
      · exact absurd rfl htarget
      · rw [List.concat_eq_append] at hparent hout hne ⊢
        rw [List.dropLast_concat] at hparent
        obtain ⟨hvalid', hview⟩ := Tree.move_spec hvalid hsource hget hout hparent
        refine ⟨hvalid', hout, funext fun r => ?_⟩
        rw [hview, moved]
        split
        · rw [Tree.view_append hget]
        · rfl

theorem createDir_ok {path : FilePath} {files files' : Files} {u : Unit} (hvalid : files.Valid)
    (h : Files.createDir path files = .ok (u, files')) :
    files'.Valid ∧ files'.view = Function.update files.view path (some .dir) := by
  unfold Files.createDir at h
  split at h
  · cases h
  · rename_i hfree hparent
    cases h
    obtain ⟨q, n, rfl⟩ := (Tree.view_closed files).split (by rw [hfree]; rintro ⟨⟩)
    rw [List.dropLast_concat] at hparent
    exact ⟨Tree.valid_insert hvalid trivial (Tree.get_eq_none_iff.mpr hfree) hparent,
      Tree.view_insert_update hfree hparent fun _ _ => rfl⟩
  · cases h

/-! ## What a log restores -/

/-- What stands at each path when a change is undone. -/
def undone : AppliedChange → View String Leaf → View String Leaf
  | .created target, v => fun q => if target <+: q then none else v q
  | .replaced target backup, v => moved backup target v
  | .installed target staged none, v => moved target staged v
  | .installed target staged (some backup), v => moved backup target (moved target staged v)

/-- What stands at each path when every change is undone, the last one first. -/
def restored (changes : List AppliedChange) (v : View String Leaf) : View String Leaf :=
  changes.foldl (fun v change => undone change v) v

section Restored

variable {project backups : FilePath}

/-- A backup lies in its directory. -/
def Backup (backups path : FilePath) : Prop := ∃ n, path = backups ++ [n]

/-- A change is at or below the project; what it moved lies outside. -/
inductive Placed (project backups : FilePath) : AppliedChange → Prop
  | created {target} : project <+: target → Placed project backups (.created target)
  | replaced {target backup} : project <+: target → Backup backups backup →
      Placed project backups (.replaced target backup)
  | installed {target staged backup} : project <+: target → Apart staged project →
      Apart staged backups → (∀ path, backup = some path → Backup backups path) →
      Placed project backups (.installed target staged backup)

/-- The same stands in the project and among the backups. -/
def Agree (project backups : FilePath) (v v' : View String Leaf) : Prop :=
  ∀ q, project <+: q ∨ backups <+: q → v q = v' q

theorem Agree.trans {v v' v'' : View String Leaf} (h : Agree project backups v v')
    (h' : Agree project backups v' v'') : Agree project backups v v'' := fun q hq =>
  (h q hq).trans (h' q hq)

theorem Backup.below {path : FilePath} (h : Backup backups path) : backups <+: path := by
  obtain ⟨n, rfl⟩ := h
  exact List.prefix_append _ _

/-- A move reads what it takes away. -/
theorem moved_agree {source target : FilePath} {v v' : View String Leaf}
    (hsource : ∀ q, v (source ++ q) = v' (source ++ q)) (h : Agree project backups v v') :
    Agree project backups (moved source target v) (moved source target v') := by
  intro q hq
  simp only [moved, hsource]
  split
  · rfl
  · split
    · rfl
    · exact h q hq

/-- What is moved out of the project and the backups is not looked at. -/
theorem moved_out_agree {source target : FilePath} {v v' : View String Leaf}
    (hproject : Apart target project) (hbackups : Apart target backups)
    (h : Agree project backups v v') :
    Agree project backups (moved source target v) (moved source target v') := by
  intro q hq
  have hout : ¬ target <+: q := fun htarget =>
    hq.elim (hproject.not_both htarget) (hbackups.not_both htarget)
  simp only [moved, if_neg hout]
  split
  · rfl
  · exact h q hq

/-- Undoing a change reads only the project and the backups. -/
theorem undone_agree {change : AppliedChange} (hplaced : Placed project backups change)
    {v v' : View String Leaf} (h : Agree project backups v v') :
    Agree project backups (undone change v) (undone change v') := by
  have hbackup : ∀ {path : FilePath} {v v' : View String Leaf}, Agree project backups v v' →
      Backup backups path → ∀ q, v (path ++ q) = v' (path ++ q) :=
    fun h hpath q => h _ (.inr (hpath.below.trans (List.prefix_append _ _)))
  cases hplaced with
  | created htarget =>
      intro q hq
      simp only [undone]
      split
      · rfl
      · exact h q hq
  | replaced htarget hpath => exact moved_agree (hbackup h hpath) h
  | @installed target staged backup htarget hproject hbackups hpath =>
      have hstaged : Agree project backups (moved target staged v) (moved target staged v') :=
        moved_out_agree hproject hbackups h
      cases backup with
      | none => exact hstaged
      | some path => exact moved_agree (hbackup hstaged (hpath path rfl)) hstaged

theorem restored_agree {changes : List AppliedChange}
    (hplaced : ∀ change ∈ changes, Placed project backups change) {v v' : View String Leaf}
    (h : Agree project backups v v') :
    Agree project backups (restored changes v) (restored changes v') := by
  induction changes generalizing v v' with
  | nil => exact h
  | cons change changes ih =>
      exact ih (fun c hc => hplaced c (List.mem_cons_of_mem _ hc))
        (undone_agree (hplaced change (List.mem_cons_self ..)) h)

/-- A rollback now would restore `original`. -/
structure Restores (project backups : FilePath) (original : View String Leaf) (files : Files)
    (tx : CommitTransaction) : Prop where
  valid : files.Valid
  root : tx.backupRoot = backups
  placed : ∀ change ∈ tx.changes, Placed project backups change
  restored : Agree project backups (restored tx.changes files.view) original

end Restored

/-! ## Logging a change -/

section Log

variable {project backups target : FilePath} {original : View String Leaf}

/-- Logging a change whose undoing gives back what stood before. -/
theorem Restores.log {files files' : Files} {tx : CommitTransaction}
    {change : AppliedChange} (h : Restores project backups original files tx)
    (hvalid : files'.Valid) (hplaced : Placed project backups change)
    (hundone : Agree project backups (undone change files'.view) files.view) :
    Restores project backups original files' { tx with changes := change :: tx.changes } where
  valid := hvalid
  root := h.root
  placed c hc := by
    obtain rfl | hc := List.mem_cons.mp hc
    · exact hplaced
    · exact h.placed c hc
  restored := (restored_agree h.placed hundone).trans h.restored

/-- Undoing a creation takes away what was made at a free place. -/
theorem undone_created {v : View String Leaf} (hclosed : v.Closed) {node : Option (Node Leaf)}
    (hfree : v target = none) : undone (.created target) (Function.update v target node) = v := by
  funext q
  simp only [undone]
  split
  · rename_i hq
    obtain ⟨rest, rfl⟩ := hq
    rw [hclosed.below_free hfree]
  · rename_i hq
    rw [Function.update_of_ne]
    rintro rfl
    exact hq List.prefix_rfl

/-- Moving to a free place and back changes nothing. -/
theorem moved_back {source : FilePath} {v : View String Leaf} (hclosed : v.Closed) (hfree : v target = none) :
    moved target source (moved source target v) = v := by
  funext q
  simp only [moved]
  split
  · rename_i hq
    obtain ⟨rest, rfl⟩ := hq
    rw [List.drop_left, if_pos (List.prefix_append _ _), List.drop_left]
  · rename_i hsource
    split
    · rename_i hq
      obtain ⟨rest, rfl⟩ := hq
      rw [hclosed.below_free hfree]
    · rfl

/-- What was moved into a free backup comes back when the log says so. -/
theorem Restores.backup {files files' : Files} {tx : CommitTransaction} {path : FilePath}
    (h : Restores project backups original files tx) (htarget : project <+: target)
    (hpath : Backup backups path) (hfree : files.view path = none) (hvalid : files'.Valid)
    (hmoved : files'.view = moved target path files.view) :
    Restores project backups original files'
      { tx with changes := .replaced target path :: tx.changes } := by
  apply h.log hvalid (.replaced htarget hpath)
  rw [hmoved]
  show Agree project backups (moved path target (moved target path files.view)) files.view
  rw [moved_back (Tree.view_closed files) hfree]
  exact fun _ _ => rfl

end Log

/-! ## The operations keep what a rollback restores -/

namespace CommitTransaction

section Operations

variable {project backups target staged : FilePath} {original : View String Leaf}
  {path what : String}

/-- However the program ends, a rollback would restore the same. -/
def Keeps {α : Type} (project backups : FilePath) (x : Commit α) : Prop := ∀ original,
  Triple (On (Restores project backups original)) x
    (fun _ => On (Restores project backups original)) fun _ => On (Restores project backups original)

theorem backup_spec (htarget : project <+: target) :
    Triple (On (Restores project backups original)) (backup target)
      (fun backup => On fun files tx => Backup backups backup ∧ files.view target = none ∧
        Restores project backups original files
          { tx with changes := .replaced target backup :: tx.changes })
      fun _ => On (Restores project backups original) := by
  apply Triple.seq backupPath_fresh
  intro backup
  rw [← bind_assoc]
  apply Triple.seq (M := fun _ => On fun files tx => Backup backups backup ∧
    files.view target = none ∧ Restores project backups original files
      { tx with changes := .replaced target backup :: tx.changes })
  · apply (call_orInternal ?_).weaken (fun _ => id) (fun _ _ => id) fun _ _ h => h.1
    rintro files tx u files' ⟨h, hfree, n, hpath⟩ hrename
    rw [h.root] at hpath
    subst hpath
    -- nothing stands below a free place, the target does not either
    have hnot : ¬ backups ++ [n] <+: target := by
      rintro ⟨rest, rfl⟩
      exact rename_source hrename ((Tree.view_closed files).below_free hfree rest)
    have hne : target ≠ backups ++ [n] := fun heq => hnot (heq ▸ List.prefix_rfl)
    obtain ⟨hvalid, -, hview⟩ := rename_ok h.valid hne hrename
    refine ⟨⟨n, rfl⟩, ?_, h.backup htarget ⟨n, rfl⟩ hfree hvalid hview⟩
    rw [hview, moved, if_neg hnot, if_pos List.prefix_rfl]
  · intro _
    exact Triple.ret fun _ => id

theorem record_spec {P : Files → CommitTransaction → Prop} {change : AppliedChange}
    {fail : AppError → Disk → Prop} :
    Triple (On fun files tx => P files { tx with changes := change :: tx.changes })
      (record change) (fun _ => On P) fail :=
  Triple.update fun _ => id

/-- Taking something out of the project: it is moved and the move logged. -/
theorem takeOut_spec (htarget : project <+: target) :
    Triple (On (Restores project backups original))
      (backup target >>= fun backup => record (.replaced target backup) >>= fun _ => pure true)
      (fun _ => On (Restores project backups original))
      fun _ => On (Restores project backups original) := by
  apply Triple.seq (backup_spec htarget)
  intro backup
  apply Triple.seq (record_spec.strengthen fun _ h => h.2.2)
  intro _
  exact Triple.ret fun _ => id

theorem createDir_keeps (htarget : project <+: target) :
    Keeps project backups (createDir target path) := by
  intro original
  apply inspect
  · exact Triple.ret fun _ h => h.1
  · intro _
    exact Triple.raise fun _ h => h.1
  · rw [← bind_assoc]
    apply Triple.seq (M := fun _ => On fun files tx => Restores project backups original files
      { tx with changes := .created target :: tx.changes })
    · apply (call_orInternal ?_).weaken (fun _ => id) (fun _ _ => id) fun _ _ h => h.1
      rintro files tx u files' ⟨h, hfree⟩ hcreate
      obtain ⟨hvalid, hview⟩ := createDir_ok h.valid hcreate
      apply h.log hvalid (.created htarget)
      rw [hview, undone_created (Tree.view_closed files) hfree]
      exact fun _ _ => rfl
    · intro _
      exact Triple.update fun _ => id
  · intro e he
    cases e <;> first | exact absurd rfl he | exact Triple.raise fun _ => id

theorem deleteFile_keeps (htarget : project <+: target) :
    Keeps project backups (deleteFile target path) := by
  intro original
  apply inspect
  · exact Triple.raise fun _ h => h.1
  · rintro (_ | _ | _)
    · exact (takeOut_spec htarget).strengthen fun _ h => h.1
    · exact Triple.raise fun _ h => h.1
    · exact Triple.raise fun _ h => h.1
  · exact Triple.ret fun _ h => h.1
  · intro e he
    cases e <;> first | exact absurd rfl he | exact Triple.raise fun _ => id

/-- Reading a directory changes nothing. -/
theorem readDir_spec {P : Files → CommitTransaction → Prop} :
    Triple (On P) (call (Files.readDir target) >>= orInternal what)
      (fun names => On fun files tx => P files tx ∧
        (names = [] → ∀ n, files.view (target ++ [n]) = none)) fun _ => On P := by
  apply call_orInternal
  intro files tx names files' h hread
  unfold Files.readDir at hread
  split at hread
  · rename_i children hget
    cases hread
    refine ⟨h, fun hnames n => ?_⟩
    rw [Tree.view_append hget, Item.view, Item.get, Tree.get_eq_none_of_names (hnames ▸ (by rintro ⟨⟩)),
      Option.map_none]
  · cases hread
  · cases hread

theorem deleteEmptyDir_keeps (htarget : project <+: target) :
    Keeps project backups (deleteEmptyDir target path) := by
  intro original
  apply inspect
  · rw [← bind_assoc]
    apply Triple.seq ((readDir_spec (P := Restores project backups original)).weaken
      (fun _ h => h.1) (fun _ _ h => h.1) fun _ _ => id)
    intro names
    split
    · exact takeOut_spec htarget
    · exact Triple.raise fun _ => id
  · intro _
    exact Triple.raise fun _ h => h.1
  · exact Triple.ret fun _ h => h.1
  · intro e he
    cases e <;> first | exact absurd rfl he | exact Triple.raise fun _ => id

/-- The target is free; the log would know where what stood there is. -/
def Freed (project backups target : FilePath) (original : View String Leaf)
    (backup : Option FilePath) (files : Files) (tx : CommitTransaction) : Prop :=
  files.view target = none ∧ match backup with
  | some path => Backup backups path ∧ Restores project backups original files
      { tx with changes := .replaced target path :: tx.changes }
  | none => Restores project backups original files tx

theorem freed_spec (htarget : project <+: target) :
    Triple (On (Restores project backups original))
      (backup target >>= fun backup => pure (some backup))
      (fun backup => On (Freed project backups target original backup))
      fun _ => On (Restores project backups original) := by
  apply Triple.seq (backup_spec htarget)
  intro backup
  exact Triple.ret fun _ h => ⟨h.2.1, h.1, h.2.2⟩

/-- The last change put the staged item at the target. -/
def LastInstalled (project backups staged target : FilePath) (original : View String Leaf)
    (files : Files) (tx : CommitTransaction) : Prop :=
  Restores project backups original files tx ∧
    ∃ backup rest, tx.changes = .installed target staged backup :: rest

/-- The staged item takes the place of the target, which is free or in the backup. -/
theorem install_spec {backup : Option FilePath} (htarget : project <+: target)
    (hproject : Apart staged project) (hbackups : Apart staged backups) :
    Triple (On (Freed project backups target original backup))
      (install what staged target backup)
      (fun _ => On (LastInstalled project backups staged target original))
      fun _ => On (Restores project backups original) := by
  apply Triple.seq (M := fun _ => On fun files tx => files.view target = none ∧
    Restores project backups original files tx ∧ ∀ path, backup = some path →
      Backup backups path ∧ ∃ changes, tx.changes = .replaced target path :: changes)
  · cases backup with
    | none => exact Triple.ret fun _ h => ⟨h.1, h.2, (by rintro _ ⟨⟩)⟩
    | some path =>
        apply Triple.update
        rintro d ⟨hfree, hpath, h⟩
        refine ⟨hfree, h, fun path' heq => ?_⟩
        cases heq
        exact ⟨hpath, _, rfl⟩
  · intro _
    rw [← bind_assoc]
    apply Triple.seq (M := fun _ => On fun files tx => Restores project backups original files
      { tx with changes := .installed target staged backup ::
          (if backup.isSome then tx.changes.tail else tx.changes) })
    · apply (call_orInternal ?_).weaken (fun _ => id) (fun _ _ => id) fun _ _ h => h.2.1
      rintro files tx u files' ⟨hfree, h, hlogged⟩ hrename
      have hne : staged ≠ target := by
        rintro rfl
        exact rename_source hrename hfree
      obtain ⟨hvalid, -, hview⟩ := rename_ok h.valid hne hrename
      have hback : moved target staged files'.view = files.view := by
        rw [hview, moved_back (Tree.view_closed files) hfree]
      cases backup with
      | none =>
          have hplaced : Placed project backups (.installed target staged none) :=
            .installed htarget hproject hbackups (by rintro _ ⟨⟩)
          apply h.log hvalid hplaced
          show Agree project backups (moved target staged files'.view) files.view
          rw [hback]
          exact fun _ _ => rfl
      | some path =>
          obtain ⟨hpath, changes, hchanges⟩ := hlogged path rfl
          -- the record of the backup becomes the record of the installation
          refine ⟨hvalid, h.root, ?_, ?_⟩
          · intro change hchange
            obtain rfl | hchange := List.mem_cons.mp hchange
            · exact .installed htarget hproject hbackups fun _ heq => by cases heq; exact hpath
            · exact h.placed change (List.mem_of_mem_tail hchange)
          · have hrestored := h.restored
            rw [hchanges] at hrestored ⊢
            show Agree project backups (restored changes
              (moved path target (moved target staged files'.view))) original
            rwa [hback]
    · intro _
      exact Triple.update fun _ h => ⟨h, backup, _, rfl⟩

theorem installFile_spec (htarget : project <+: target) (hproject : Apart staged project)
    (hbackups : Apart staged backups) :
    Triple (On (Restores project backups original)) (installFile staged target path)
      (fun _ => On (LastInstalled project backups staged target original))
      fun _ => On (Restores project backups original) := by
  apply Triple.seq (M := fun backup => On (Freed project backups target original backup))
  · apply inspect
    · exact Triple.raise fun _ h => h.1
    · rintro (_ | _ | _)
      · exact (freed_spec htarget).strengthen fun _ h => h.1
      · exact Triple.raise fun _ h => h.1
      · exact Triple.raise fun _ h => h.1
    · exact Triple.ret fun _ h => ⟨h.2, h.1⟩
    · intro e he
      cases e <;> first | exact absurd rfl he | exact Triple.raise fun _ => id
  · intro backup
    exact install_spec htarget hproject hbackups

theorem replaceProject_keeps (htarget : project <+: target) (hproject : Apart staged project)
    (hbackups : Apart staged backups) :
    Keeps project backups (replaceProject staged target) := by
  intro original
  apply Triple.seq (M := fun backup => On (Freed project backups target original backup))
  · apply inspect
    · exact (freed_spec htarget).strengthen fun _ h => h.1
    · intro _
      exact Triple.raise fun _ h => h.1
    · exact Triple.ret fun _ h => ⟨h.2, h.1⟩
    · intro e he
      cases e <;> first | exact absurd rfl he | exact Triple.raise fun _ => id
  · intro backup
    exact (install_spec htarget hproject hbackups).weaken (fun _ => id) (fun _ _ h => h.1)
      fun _ _ => id

end Operations

/-! ## Undoing -/

section Undo

variable {project backups target : FilePath} {original v : View String Leaf} {what : String}

/-- What stands on a disk in order. -/
def Stands (v : View String Leaf) (files : Files) : Prop := files.Valid ∧ files.view = v

theorem rename_spec {source : FilePath} (hne : v target = none ∨ source ≠ target) :
    Triple (On fun files _ => Stands v files) (call (Files.rename source target) >>= orInternal what)
      (fun _ => On fun files _ => ¬ source <+: target ∧ Stands (moved source target v) files)
      fun _ => On fun files _ => files.Valid := by
  apply (call_orInternal ?_).weaken (fun _ => id) (fun _ _ => id) fun _ _ h => h.1
  rintro files tx u files' ⟨hvalid, rfl⟩ hrename
  have hne : source ≠ target := by
    obtain hfree | hne := hne
    · rintro rfl
      exact rename_source hrename hfree
    · exact hne
  obtain ⟨hvalid', hout, hview⟩ := rename_ok hvalid hne hrename
  exact ⟨hout, hvalid', hview⟩

theorem removeDir_ok {path : FilePath} {files files' : Files} {u : Unit} (hvalid : files.Valid)
    (h : Files.removeDir path files = .ok (u, files')) :
    files'.Valid ∧ (∀ q, q ≠ [] → files.view (path ++ q) = none) ∧
      files'.view = Function.update files.view path none := by
  unfold Files.removeDir at h
  split at h
  · rename_i name rest hget
    cases h
    have hbelow : ∀ q, q ≠ [] → files.view (name :: rest ++ q) = none := by
      intro q hq
      obtain ⟨n, q, rfl⟩ := List.exists_cons_of_ne_nil hq
      rw [Tree.view_append hget]
      rfl
    exact ⟨Tree.valid_remove hvalid _, hbelow,
      Tree.view_remove_update hvalid (List.cons_ne_nil _ _) hbelow⟩
  all_goals cases h

theorem removeDir_notFound {path : FilePath} {files : Files}
    (h : Files.removeDir path files = .error .notFound) : files.view path = none := by
  unfold Files.removeDir at h
  split at h
  · cases h
  · cases h
  · cases h
  · rename_i hget
    exact Tree.get_eq_none_iff.mp hget

theorem removeFile_ok {path : FilePath} {files files' : Files} {u : Unit} (hvalid : files.Valid)
    (h : Files.removeFile path files = .ok (u, files')) :
    files'.Valid ∧ files'.view = Function.update files.view path none := by
  unfold Files.removeFile at h
  split at h
  · rename_i data hget
    cases h
    have hview : files.view path = some (.file data) := by rw [Tree.view, hget]; rfl
    have hpath : path ≠ [] := by
      rintro rfl
      rw [Tree.view_nil] at hview
      cases hview
    exact ⟨Tree.valid_remove hvalid _, Tree.view_remove_update hvalid hpath fun q hq =>
      Tree.view_below (by rw [hview]; rintro ⟨⟩) hq⟩
  · cases h
  · cases h

theorem removeCreatedPath_spec : Triple (On fun files _ => Stands v files)
    (removeCreatedPath target) (fun _ => On fun files _ => Stands (undone (.created target) v) files)
    fun _ => On fun files _ => files.Valid := by
  apply Triple.seq (M := fun r => On fun files _ =>
    Ends (fun _ => Stands (undone (.created target) v) files)
      (fun e => files.Valid ∧ (e = .notFound → Stands (undone (.created target) v) files)) r)
  · apply call_any
    rintro files tx ⟨hvalid, rfl⟩
    refine ⟨fun refusal => ⟨hvalid, by cases refusal <;> rintro ⟨⟩⟩, ?_⟩
    cases hremove : Files.removeDir target files with
    | ok result =>
        obtain ⟨hvalid', hbelow, hview⟩ := removeDir_ok hvalid hremove
        refine ⟨hvalid', ?_⟩
        rw [hview]
        funext q
        simp only [undone, Function.update_apply]
        split
        · rename_i hq
          rw [hq, if_pos List.prefix_rfl]
        · split
          · rename_i hq hpre
            obtain ⟨rest, rfl⟩ := hpre
            exact hbelow rest (by rintro rfl; exact hq (List.append_nil _))
          · rfl
    | error e =>
        refine ⟨hvalid, ?_⟩
        rintro rfl
        refine ⟨hvalid, ?_⟩
        have hfree := removeDir_notFound hremove
        funext q
        simp only [undone]
        split
        · rename_i hpre
          obtain ⟨rest, rfl⟩ := hpre
          exact (Tree.view_closed files).below_free hfree rest
        · rfl
  · rintro (e | _)
    · cases e <;> first | exact Triple.ret fun _ h => h.2 rfl | exact Triple.raise fun _ h => h.1
    · exact Triple.ret fun _ => id

theorem removeReplacementTarget_spec : Triple (On fun files _ => Stands v files)
    (removeReplacementTarget target)
    (fun _ => On fun files _ => Stands (Function.update v target none) files)
    fun _ => On fun files _ => files.Valid := by
  apply inspect
  · apply (call_orInternal ?_).weaken (fun _ => id) (fun _ _ => id) fun _ _ h => h.1.1
    rintro files tx u files' ⟨⟨hvalid, rfl⟩, -⟩ hremove
    obtain ⟨hvalid', -, hview⟩ := removeDir_ok hvalid hremove
    exact ⟨hvalid', hview⟩
  · intro _
    apply (call_orInternal ?_).weaken (fun _ => id) (fun _ _ => id) fun _ _ h => h.1.1
    rintro files tx u files' ⟨⟨hvalid, rfl⟩, -⟩ hremove
    exact removeFile_ok hvalid hremove
  · apply Triple.ret
    rintro d ⟨⟨hvalid, hview⟩, hfree⟩
    refine ⟨hvalid, ?_⟩
    rw [← hview, ← hfree, Function.update_eq_self]
  · intro e he
    cases e <;> first | exact absurd rfl he | exact Triple.raise fun _ h => h.1

/-- What is overwritten by a move need not be there. -/
theorem moved_over {source : FilePath} (hout : ¬ source <+: target) :
    moved source target (Function.update v target none) = moved source target v := by
  funext q
  simp only [moved, Function.update_apply]
  split
  · rw [if_neg]
    rintro heq
    exact hout ⟨_, heq⟩
  · rename_i hq
    have hne : q ≠ target := fun heq => hq (heq ▸ List.prefix_rfl)
    rw [if_neg hne]

/-- Undoing a change does what it says, or reports an error. -/
theorem undo_spec {change : AppliedChange} (hplaced : Placed project backups change) :
    Triple (On fun files _ => Stands v files) (undo change)
      (fun _ => On fun files _ => Stands (undone change v) files)
      fun _ => On fun files _ => files.Valid := by
  cases hplaced with
  | created htarget => exact removeCreatedPath_spec
  | @replaced target backup htarget hpath =>
      apply Triple.seq removeReplacementTarget_spec
      intro _
      apply (rename_spec (.inl (Function.update_self ..))).weaken (fun _ => id) ?_ fun _ _ => id
      rintro _ d ⟨hout, hvalid, hview⟩
      exact ⟨hvalid, hview.trans (moved_over hout)⟩
  | @installed target staged backup htarget hproject hbackups hpath =>
      have hstaged : ¬ staged <+: target := fun h => hproject.not_both h htarget
      have hne : target ≠ staged := by
        rintro rfl
        exact hstaged List.prefix_rfl
      show Triple _ (call (Files.rename target staged) >>= fun r => orInternal _ r >>= fun _ => _) _ _
      rw [← bind_assoc]
      apply Triple.seq (M := fun _ => On fun files _ => Stands (moved target staged v) files)
      · exact (rename_spec (.inr hne)).weaken (fun _ => id) (fun _ _ h => h.2) fun _ _ => id
      · intro _
        cases backup with
        | none => exact Triple.ret fun _ => id
        | some path =>
            have hfree : moved target staged v target = none := by
              rw [moved, if_neg hstaged, if_pos List.prefix_rfl]
            exact (rename_spec (.inl hfree)).weaken (fun _ => id) (fun _ _ h => h.2) fun _ _ => id

/-- Either an error is reported or every change is undone. -/
theorem undoAll_spec {changes : List AppliedChange} {errors : List String}
    {fail : AppError → Disk → Prop} (hplaced : ∀ change ∈ changes, Placed project backups change) :
    Triple (On fun files _ => files.Valid ∧
        (errors = [] → Agree project backups (restored changes files.view) original))
      (undoAll changes errors)
      (fun errors => On fun files _ => files.Valid ∧
        (errors = [] → Agree project backups files.view original)) fail := by
  induction changes generalizing errors with
  | nil => exact Triple.ret fun _ => id
  | cons change changes ih =>
      have hrest := fun c hc => hplaced c (List.mem_cons_of_mem _ hc)
      intro d hd
      suffices h : Triple (On fun files _ => Stands d.files.view files)
          (undoAll (change :: changes) errors) (fun errors => On fun files _ => files.Valid ∧
            (errors = [] → Agree project backups files.view original)) fail from
        h d ⟨hd.1, rfl⟩
      apply Triple.seq (M := fun _ => On fun files _ => Stands d.files.view files)
      · exact Triple.update fun _ => id
      · intro _
        apply Triple.seq (M := fun r => On fun files _ => files.Valid ∧
          (r = .ok () → files.view = undone change d.files.view))
        · apply Triple.attempt
          apply (undo_spec (hplaced change (List.mem_cons_self ..))).weaken (fun _ => id)
          · rintro _ d' ⟨hvalid, hview⟩
            exact ⟨hvalid, fun _ => hview⟩
          · rintro _ d' hvalid
            exact ⟨hvalid, (by rintro ⟨⟩)⟩
        · rintro (e | _)
          · apply (ih hrest).strengthen
            rintro d' ⟨hvalid, -⟩
            exact ⟨hvalid, fun h => absurd h (List.append_ne_nil_of_right_ne_nil _ (by simp))⟩
          · apply (ih hrest).strengthen
            rintro d' ⟨hvalid, hview⟩
            refine ⟨hvalid, fun herrors => ?_⟩
            rw [hview rfl]
            exact hd.2 herrors

/-- A rollback that reports no error has restored what the log says. -/
theorem rollback_spec : Triple (On (Restores project backups original)) rollback
    (fun _ => On fun files _ => files.Valid ∧ Agree project backups files.view original)
    fun _ => On fun files _ => files.Valid := by
  apply Triple.seq (M := fun changes => On fun files _ =>
    (∀ change ∈ changes, Placed project backups change) ∧ files.Valid ∧
      Agree project backups (restored changes files.view) original)
  · rintro d h
    exact ⟨h.placed, h.valid, h.restored⟩
  · intro changes d hd
    suffices h : Triple (On fun files _ => files.Valid ∧
        Agree project backups (restored changes files.view) original)
        (undoAll changes [] >>= fun errors => if errors.isEmpty then pure () else throw _)
        (fun _ => On fun files _ => files.Valid ∧ Agree project backups files.view original)
        fun _ => On fun files _ => files.Valid from h d hd.2
    apply Triple.seq ((undoAll_spec hd.1).strengthen fun _ h => ⟨h.1, fun _ => h.2⟩)
    intro errors
    split
    · rename_i hempty
      exact Triple.ret fun _ h => ⟨h.1, h.2 (List.isEmpty_iff.mp hempty)⟩
    · exact Triple.raise fun _ h => h.1

end Undo

end CommitTransaction

end VivadoServer.Sync
