/-
  VivadoServer.Sync.Effect

  What the operations of a transaction do to what stands outside the backups.  Each
  changes one place.  When no call is refused and the operation can be done it does
  not fail; both readings are one statement, with a proposition `quiet` that says
  whether refusals are excluded.
-/

import VivadoServer.Sync.Restore

namespace VivadoServer.Sync

open FileTree

/-! ## Programs without refusals -/

/-- A condition on the disk; if `quiet`, no call to come is refused. -/
def In (quiet : Prop) (P : Files → CommitTransaction → Prop) : Disk → Prop := fun d =>
  P d.files d.transaction ∧ (quiet → ∀ fault ∈ d.faults, fault = none)

/-- The program leads from `P` to `Q`, and if `quiet`, it does not fail. -/
def Does {α : Type} (quiet : Prop) (P : Files → CommitTransaction → Prop) (x : Commit α)
    (Q : α → Files → CommitTransaction → Prop) : Prop :=
  Triple (In quiet P) x (fun a => In quiet (Q a)) fun _ _ => ¬ quiet

section Does

variable {α β : Type} {quiet : Prop} {P P' : Files → CommitTransaction → Prop}
  {Q Q' : α → Files → CommitTransaction → Prop} {R : β → Files → CommitTransaction → Prop}
  {x : Commit α} {f : α → Commit β} {op : Files → Except IoError (α × Files)} {what : String}

theorem Does.ret {a : α} (h : ∀ files tx, P files tx → Q a files tx) : Does quiet P (pure a) Q :=
  Triple.ret fun d hd => ⟨h d.files d.transaction hd.1, hd.2⟩

theorem Does.raise {e : AppError} (h : ∀ files tx, P files tx → ¬ quiet) :
    Does quiet P (throw e : Commit α) Q :=
  Triple.raise fun d hd => h d.files d.transaction hd.1

theorem Does.seq (hx : Does quiet P x Q) (hf : ∀ a, Does quiet (Q a) (f a) R) :
    Does quiet P (x >>= f) R :=
  Triple.seq hx hf

theorem Does.weaken (h : Does quiet P x Q) (hP : ∀ files tx, P' files tx → P files tx)
    (hQ : ∀ a files tx, Q a files tx → Q' a files tx) : Does quiet P' x Q' :=
  Triple.weaken h (fun d hd => ⟨hP d.files d.transaction hd.1, hd.2⟩)
    (fun a d hd => ⟨hQ a d.files d.transaction hd.1, hd.2⟩) fun _ _ => id

/-- A fact that does not speak of the disk. -/
theorem Does.assuming {p : Prop} (h : p → Does quiet P x Q) :
    Does quiet (fun files tx => p ∧ P files tx) x Q :=
  fun d hd => h hd.1.1 d ⟨hd.1.2, hd.2⟩

theorem Does.forM {γ : Type} {l : List γ} {body : γ → Commit Unit}
    {I : List γ → Files → CommitTransaction → Prop}
    (h : ∀ past a rest, l = past ++ a :: rest →
      Does quiet (I past) (body a) fun _ => I (past ++ [a])) :
    Does quiet (I []) (l.forM body) fun _ => I l :=
  Triple.forM (I := fun past => In quiet (I past)) h

/-- A call that is not refused, or one that fails. -/
theorem does_call {R : Except IoError α → Files → CommitTransaction → Prop}
    (h : ∀ files tx, P files tx →
      (¬ quiet → ∀ refusal : Refusal, R (.error refusal.error) files tx) ∧
      match op files with
      | .ok (a, files') => R (.ok a) files' tx
      | .error e => R (.error e) files tx) :
    Does quiet P (call op) R := by
  intro d hd
  obtain ⟨hfault, hdone⟩ := h d.files d.transaction hd.1
  rw [exec_call]
  cases hfaults : d.faults with
  | nil =>
      cases hop : op d.files with
      | ok result =>
          rw [hop] at hdone
          exact ⟨hdone, fun _ _ => (by rintro ⟨⟩)⟩
      | error e =>
          rw [hop] at hdone
          exact ⟨hdone, fun _ _ => (by rintro ⟨⟩)⟩
  | cons fault faults =>
      have hrest : quiet → ∀ fault ∈ faults, fault = none := fun hquiet fault hfault =>
        hd.2 hquiet fault (hfaults ▸ List.mem_cons_of_mem _ hfault)
      cases fault with
      | some refusal =>
          refine ⟨hfault (fun hquiet => ?_) refusal, hrest⟩
          cases hd.2 hquiet _ (hfaults ▸ List.mem_cons_self ..)
      | none =>
          cases hop : op d.files with
          | ok result =>
              rw [hop] at hdone
              exact ⟨hdone, hrest⟩
          | error e =>
              rw [hop] at hdone
              exact ⟨hdone, hrest⟩

/-- A call whose error becomes the answer. -/
theorem does_orInternal
    (h : ∀ files tx, P files tx → match op files with
      | .ok (a, files') => Q a files' tx
      | .error _ => ¬ quiet) :
    Does quiet P (call op >>= orInternal what) Q := by
  apply Does.seq (Q := fun r files tx => Ends (fun a => Q a files tx) (fun _ => ¬ quiet) r)
  · apply does_call
    intro files tx hfiles
    refine ⟨fun hquiet _ => hquiet, ?_⟩
    have hop := h files tx hfiles
    cases heq : op files with
    | ok result =>
        rw [heq] at hop
        exact hop
    | error e =>
        rw [heq] at hop
        exact hop
  · rintro (e | a)
    · exact Does.raise fun _ _ => id
    · exact Does.ret fun _ _ => id

/-- Nothing above the path is a file, so what is missing is reported as missing. -/
def Open (files : Files) (path : FilePath) : Prop :=
  files.view path = none → files.missing path = .notFound

theorem open_child {files : Files} {p : FilePath} {n : String} (h : files.view p = some .dir) :
    Open files (p ++ [n]) := by
  intro _
  unfold Files.missing
  rw [if_neg]
  intro hany
  obtain ⟨above, habove, hfile⟩ := List.any_eq_true.mp hany
  have hpre := (List.mem_inits _ _).mp habove
  by_cases heq : above = p ++ [n]
  · rw [heq] at hfile
    split at hfile
    · simp at hfile
    · cases hfile
  · have hdir : files.view above = some .dir := by
      obtain ⟨rest, hrest⟩ := List.prefix_concat_iff.mp hpre |>.resolve_left heq
      by_cases hempty : rest = []
      · rw [hempty, List.append_nil] at hrest
        rw [hrest, h]
      · exact Tree.view_above (by rw [hrest, h]; rintro ⟨⟩) hempty
    rw [hdir] at hfile
    cases hfile

/-- What a program does after it looked at what stands at a path. -/
theorem does_inspect {path : FilePath} {f : Except IoError (Node Leaf) → Commit α}
    (hopen : quiet → ∀ files tx, P files tx → Open files path)
    (hdir : Does quiet (fun files tx => P files tx ∧ files.view path = some .dir) (f (.ok .dir)) Q)
    (hfile : ∀ leaf, Does quiet (fun files tx => P files tx ∧ files.view path = some (.file leaf))
      (f (.ok (.file leaf))) Q)
    (hmissing : Does quiet (fun files tx => P files tx ∧ files.view path = none)
      (f (.error .notFound)) Q)
    (hfailed : ∀ e, e ≠ .notFound → Does quiet (fun _ _ => ¬ quiet) (f (.error e)) Q) :
    Does quiet P (call (Files.symlinkMetadata path) >>= f) Q := by
  apply Does.seq (Q := fun r files tx => (P files tx ∧
    Ends (fun node => files.view path = some node) (fun e => e = .notFound → files.view path = none) r) ∧
      ∀ e, r = .error e → e = .notFound ∨ ¬ quiet)
  · apply does_call
    intro files tx hfiles
    refine ⟨fun hquiet refusal => ⟨⟨hfiles, ?_⟩, fun _ _ => .inr hquiet⟩, ?_⟩
    · cases refusal <;> rintro ⟨⟩
    · unfold Files.symlinkMetadata
      cases hview : files.view path with
      | some node => exact ⟨⟨hfiles, hview⟩, (by rintro _ ⟨⟩)⟩
      | none =>
          refine ⟨⟨hfiles, ?_⟩, fun e he => ?_⟩
          · exact fun _ => rfl
          · cases he
            by_cases hquiet : quiet
            · exact .inl (hopen hquiet files tx hfiles hview)
            · exact .inr hquiet
  · rintro (e | _ | leaf)
    · by_cases he : e = .notFound
      · subst he
        exact hmissing.weaken (fun _ _ h => ⟨h.1.1, h.1.2 rfl⟩) fun _ _ _ => id
      · exact (hfailed e he).weaken (fun _ _ h => (h.2 e rfl).resolve_left he) fun _ _ _ => id
    · exact hdir.weaken (fun _ _ h => h.1) fun _ _ _ => id
    · exact (hfile leaf).weaken (fun _ _ h => h.1) fun _ _ _ => id

end Does

/-! ## What stands outside the backups -/

/-- The disk shows `u` outside the backups of the transaction. -/
structure Shows (backups : FilePath) (u : View String Leaf) (files : Files)
    (tx : CommitTransaction) : Prop where
  valid : files.Valid
  root : tx.backupRoot = backups
  store : files.view backups = some .dir
  outside : ∀ q, ¬ backups <+: q → files.view q = u q

/-- What is below a file, or in an empty directory, is nothing. -/
theorem Shows.below {backups target : FilePath} {u : View String Leaf} {files : Files} {tx : CommitTransaction} (h : Shows backups u files tx)
    (hout : Apart target backups) (hbelow : ∀ q, q ≠ [] → files.view (target ++ q) = none) :
    ∀ q, q ≠ [] → u (target ++ q) = none := by
  intro q hq
  rw [← hbelow q hq, h.outside]
  exact (hout.symm.below (List.prefix_append _ _)).1

namespace CommitTransaction

section Effects

variable {quiet : Prop} {backups target staged : FilePath} {u : View String Leaf}
  {path what : String} {leaf : Leaf}

theorem does_record {P : Files → CommitTransaction → Prop} {change : AppliedChange} :
    Does quiet (fun files tx => P files { tx with changes := change :: tx.changes })
      (record change) fun _ => P :=
  Triple.update fun _ => id

/-- A move to a free place in a directory goes through. -/
theorem rename_total {source p : FilePath} {n : String} {files : Files}
    (hsource : files.view source ≠ none) (hout : ¬ source <+: p ++ [n])
    (hparent : files.view p = some .dir) (hfree : files.view (p ++ [n]) = none) :
    ∃ files', Files.rename source (p ++ [n]) files = .ok ((), files') := by
  unfold Files.rename
  have hget : files.get (p ++ [n]) = none := Tree.get_eq_none_iff.mpr hfree
  have hne : source ≠ p ++ [n] := fun heq => hout (heq ▸ List.prefix_rfl)
  cases hitem : files.get source with
  | none => exact absurd (Tree.get_eq_none_iff.mp hitem) hsource
  | some item =>
      simp only [if_neg hne, if_neg hout, List.dropLast_concat, hparent, hget]
      cases item <;> exact ⟨_, rfl⟩

/-- What is left when everything at and below a place is taken away. -/
def cleared (target : FilePath) (u : View String Leaf) : View String Leaf := fun q =>
  if target <+: q then none else u q

theorem backup_does (hout : Apart target backups) (hsome : quiet → u target ≠ none) :
    Does quiet (Shows backups u) (backup target) fun _ => Shows backups (cleared target u) := by
  apply Does.seq (Q := fun path files tx => Shows backups u files tx ∧ files.view path = none ∧
    ∃ n, path = backups ++ [n])
  · intro d hd
    have hbackup : Triple (On (Shows backups u)) backupPath (fun path => On fun files tx =>
        Shows backups u files tx ∧ files.view path = none ∧ ∃ n, path = tx.backupRoot ++ [n])
        fun _ _ => False := backupPath_fresh
    have hfresh := hbackup d hd.1
    refine ⟨⟨hd.1, hfresh.2.1, ?_⟩, hd.2⟩
    obtain ⟨n, hn⟩ := hfresh.2.2
    exact ⟨n, hn.trans (by rw [hd.1.root])⟩
  · intro backup
    rw [← bind_assoc]
    apply Does.seq (Q := fun _ => Shows backups (cleared target u))
    · apply does_orInternal
      rintro files tx ⟨h, hfree, n, rfl⟩
      have hin : ¬ target <+: backups ++ [n] := fun htarget =>
        (comparable htarget (List.prefix_append backups [n])).elim hout.1 hout.2
      cases hop : Files.rename target (backups ++ [n]) files with
      | ok result =>
          have hne : target ≠ backups ++ [n] := by
            rintro rfl
            exact hin List.prefix_rfl
          obtain ⟨hvalid, -, hview⟩ := rename_ok h.valid hne hop
          have hlonger : ¬ backups ++ [n] <+: backups := fun hpre => by
            simpa using hpre.length_le
          refine ⟨hvalid, h.root, ?_, fun q hq => ?_⟩
          · rw [hview, moved, if_neg hlonger, if_neg hout.1, h.store]
          · have hback : ¬ backups ++ [n] <+: q := fun h => hq ((List.prefix_append _ _).trans h)
            rw [hview, moved, if_neg hback, cleared]
            split
            · rfl
            · exact h.outside q hq
      | error e =>
          intro hquiet
          have hsource : files.view target ≠ none := by
            rw [h.outside _ hout.2]
            exact hsome hquiet
          obtain ⟨files', hok⟩ := rename_total hsource hin h.store hfree
          rw [hop] at hok
          cases hok
    · intro _
      exact Does.ret fun _ _ => id

/-- The target lies in a directory outside the backups. -/
def Housed (backups : FilePath) (u : View String Leaf) (target : FilePath) : Prop :=
  ∃ p n, target = p ++ [n] ∧ u p = some .dir ∧ ¬ backups <+: p

theorem Housed.open {files : Files} {tx : CommitTransaction} (h : Housed backups u target)
    (hshows : Shows backups u files tx) : Open files target := by
  obtain ⟨p, n, rfl, hparent, hp⟩ := h
  exact open_child ((hshows.outside p hp).trans hparent)

/-- The rename of an installation, after the target was freed. -/
theorem install_does {item : Node Leaf} {backup : Option FilePath} (hout : Apart target backups)
    (hstaged : Apart staged backups) (happart : Apart staged target) (hitem : u staged = some item)
    (hfree : u target = none) (hhoused : quiet → Housed backups u target) :
    Does quiet (Shows backups u) (install what staged target backup) fun _ =>
      Shows backups (moved staged target u) := by
  apply Does.seq (Q := fun _ => Shows backups u)
  · cases backup with
    | none => exact Does.ret fun _ _ => id
    | some path =>
        exact does_record.weaken (fun _ _ h => ⟨h.valid, h.root, h.store, h.outside⟩) fun _ _ _ => id
  · intro _
    rw [← bind_assoc]
    apply Does.seq (Q := fun _ => Shows backups (moved staged target u))
    · apply does_orInternal
      intro files tx h
      have hfree' := (h.outside _ hout.2).trans hfree
      cases hop : Files.rename staged target files with
      | ok result =>
          obtain ⟨hvalid, -, hview⟩ := rename_ok h.valid happart.ne hop
          have hstore : ¬ target <+: backups ∧ ¬ staged <+: backups := ⟨hout.1, hstaged.1⟩
          refine ⟨hvalid, h.root, ?_, fun q hq => ?_⟩
          · rw [hview, moved, if_neg hout.1, if_neg hstaged.1, h.store]
          · rw [hview]
            simp only [moved]
            split
            · exact h.outside _ (hstaged.symm.below (List.prefix_append _ _)).1
            · split
              · rfl
              · exact h.outside q hq
      | error e =>
          intro hquiet
          obtain ⟨p, n, rfl, hparent, hp⟩ := hhoused hquiet
          have hsource : files.view staged ≠ none := by
            rw [h.outside _ hstaged.2, hitem]
            rintro ⟨⟩
          obtain ⟨files', hok⟩ :=
            rename_total hsource happart.1 ((h.outside p hp).trans hparent) hfree'
          rw [hop] at hok
          cases hok
    · intro _
      exact Triple.update fun d hd =>
        ⟨⟨hd.1.valid, hd.1.root, hd.1.store, hd.1.outside⟩, hd.2⟩

theorem replaceProject_does (hout : Apart target backups) (hstaged : Apart staged backups)
    (happart : Apart staged target) (hdir : u staged = some .dir)
    (henabled : quiet → (u target = none ∨ u target = some .dir) ∧ Housed backups u target) :
    Does quiet (Shows backups u) (replaceProject staged target) fun _ =>
      Shows backups (moved staged target (cleared target u)) := by
  apply Does.seq (Q := fun _ => Shows backups (cleared target u))
  · have hother : ∀ {leaf : Leaf} {files : Files} {tx : CommitTransaction},
        Shows backups u files tx → files.view target = some (.file leaf) → ¬ quiet := by
      rintro leaf files tx h hview hquiet
      rw [h.outside _ hout.2] at hview
      obtain hnone | hsome := (henabled hquiet).1
      · rw [hnone] at hview
        cases hview
      · rw [hsome] at hview
        cases hview
    apply does_inspect
    · intro hquiet files tx h
      exact (henabled hquiet).2.open h
    · apply Does.weaken (P := fun files tx => u target = some .dir ∧ Shows backups u files tx) ?_ ?_
        fun _ _ _ => id
      · apply Does.assuming
        intro hu
        apply Does.seq (backup_does hout fun _ => by rw [hu]; rintro ⟨⟩)
        intro backup
        exact Does.ret fun _ _ => id
      · rintro files tx ⟨h, hview⟩
        exact ⟨by rw [← h.outside _ hout.2, hview], h⟩
    · intro leaf
      exact Does.raise fun _ _ h => hother h.1 h.2
    · apply Does.ret
      rintro files tx ⟨h, hview⟩
      refine ⟨h.valid, h.root, h.store, fun q hq => ?_⟩
      rw [cleared]
      split
      · rename_i hpre
        obtain ⟨rest, rfl⟩ := hpre
        exact (Tree.view_closed files).below_free hview rest
      · exact h.outside q hq
    · intro e he
      cases e <;> first | exact absurd rfl he | exact Does.raise fun _ _ => id
  · intro backup
    have hitem : cleared target u staged = some .dir := by rw [cleared, if_neg happart.2, hdir]
    have hfree : cleared target u target = none := by rw [cleared, if_pos List.prefix_rfl]
    apply install_does hout hstaged happart hitem hfree
    intro hquiet
    obtain ⟨p, n, rfl, hparent, hp⟩ := (henabled hquiet).2
    refine ⟨p, n, rfl, ?_, hp⟩
    rw [cleared, if_neg (fun h => by simpa using h.length_le), hparent]

end Effects

end CommitTransaction

/-! ## Attributes -/

section Attributes

variable {quiet : Prop} {backups target : FilePath} {u : View String Leaf} {what : String}
  {data : FileData}

end Attributes

/-! ## Making directories -/

section Directories

variable {quiet : Prop} {v : View String Leaf} {p rest path backups : FilePath}

/-- The directories on the way from `p` down are there. -/
def madeBelow (p rest : FilePath) (v : View String Leaf) : View String Leaf := fun q =>
  if p <+: q ∧ q <+: p ++ rest then some .dir else v q

/-- The directories on the way to a path are there. -/
def made (path : FilePath) (v : View String Leaf) : View String Leaf := fun q =>
  if q <+: path then some .dir else v q

theorem inits_tail_cons {n : String} : (n :: rest).inits.tail.map (p ++ ·) =
    (p ++ [n]) :: rest.inits.tail.map ((p ++ [n]) ++ ·) := by
  rw [List.inits_cons, List.tail_cons, List.map_map]
  cases rest with
  | nil => rfl
  | cons m rest =>
      rw [List.inits_cons, List.map_cons, List.tail_cons]
      simp

theorem madeBelow_cons {n : String} (hdir : v p = some .dir) :
    madeBelow (p ++ [n]) rest (Function.update v (p ++ [n]) (some .dir)) =
      madeBelow p (n :: rest) v := by
  funext q
  have happend : p ++ [n] ++ rest = p ++ n :: rest := by simp
  simp only [madeBelow, happend, Function.update_apply]
  by_cases hq : q <+: p ++ n :: rest
  · by_cases hbelow : p ++ [n] <+: q
    · rw [if_pos ⟨hbelow, hq⟩, if_pos ⟨(List.prefix_append _ _).trans hbelow, hq⟩]
    · have hne : q ≠ p ++ [n] := fun heq => hbelow (heq ▸ List.prefix_rfl)
      rw [if_neg (fun h => hbelow h.1), if_neg hne]
      split
      · rename_i hp
        obtain ⟨r, rfl⟩ := hp.1
        cases r with
        | nil => rw [List.append_nil, hdir]
        | cons m r =>
            refine absurd ?_ hbelow
            rw [List.prefix_append_right_inj, List.cons_prefix_cons] at hq
            rw [List.prefix_append_right_inj, List.cons_prefix_cons]
            exact ⟨hq.1.symm, List.nil_prefix⟩
      · rfl
  · have hne : q ≠ p ++ [n] := by
      rintro rfl
      exact hq (by simp)
    rw [if_neg (fun h => hq h.2), if_neg hne, if_neg (fun h => hq h.2)]

/-- Directories are made from the top where they are missing. -/
theorem createDirs_does (hdir : v p = some .dir)
    (henabled : quiet → ∀ q, q <+: rest → v (p ++ q) = some .dir ∨ v (p ++ q) = none) :
    Does quiet (fun files _ => CommitTransaction.Stands v files)
      (createDirs (rest.inits.tail.map (p ++ ·))) fun r files _ =>
        (r = .ok () ∧ CommitTransaction.Stands (madeBelow p rest v) files) ∨
          ¬ quiet ∧ ∃ e, r = .error e := by
  induction rest generalizing p v with
  | nil =>
      apply Does.ret
      rintro files tx ⟨hvalid, rfl⟩
      refine .inl ⟨rfl, hvalid, funext fun q => ?_⟩
      rw [madeBelow, List.append_nil]
      split
      · rename_i hq
        rw [hq.2.eq_of_length_le hq.1.length_le, hdir]
      · rfl
  | cons n rest ih =>
      have hrest : Does quiet
          (fun files _ => CommitTransaction.Stands (Function.update v (p ++ [n]) (some .dir)) files)
          (createDirs (rest.inits.tail.map ((p ++ [n]) ++ ·))) fun r files _ =>
            (r = .ok () ∧ CommitTransaction.Stands (madeBelow p (n :: rest) v) files) ∨
              ¬ quiet ∧ ∃ e, r = .error e := by
        rw [← madeBelow_cons hdir]
        apply ih (Function.update_self ..)
        intro hquiet q hq
        by_cases hempty : q = []
        · rw [hempty, List.append_nil, Function.update_self]
          exact .inl rfl
        · rw [Function.update_of_ne (by simpa using hempty), List.append_assoc]
          exact henabled hquiet (n :: q) ((List.cons_prefix_cons).mpr ⟨rfl, hq⟩)
      rw [inits_tail_cons]
      apply Does.seq (Q := fun r files _ => CommitTransaction.Stands
        (if r = .ok () then Function.update v (p ++ [n]) (some .dir) else v) files ∧
          (quiet → r = .ok () ∨ v (p ++ [n]) = some .dir))
      · apply does_call
        rintro files tx ⟨hvalid, rfl⟩
        refine ⟨fun hquiet _ => ⟨⟨hvalid, (if_neg (by rintro ⟨⟩)).symm⟩, fun h => absurd h hquiet⟩, ?_⟩
        cases hop : Files.createDir (p ++ [n]) files with
        | ok result =>
            obtain ⟨hvalid', hview⟩ := createDir_ok hvalid hop
            exact ⟨⟨hvalid', by rw [if_pos rfl, hview]⟩, fun _ => .inl rfl⟩
        | error e =>
            refine ⟨⟨hvalid, (if_neg (by rintro ⟨⟩)).symm⟩, fun hquiet => .inr ?_⟩
            have hpre : [n] <+: n :: rest := (List.cons_prefix_cons).mpr ⟨rfl, List.nil_prefix⟩
            obtain hsome | hnone := henabled hquiet [n] hpre
            · exact hsome
            · unfold Files.createDir at hop
              rw [hnone, List.dropLast_concat, hdir] at hop
              cases hop
      · rintro (e | _)
        · rw [if_neg (by rintro ⟨⟩)]
          apply does_inspect (P := fun files _ => CommitTransaction.Stands v files ∧
            (quiet → Except.error e = .ok () ∨ v (p ++ [n]) = some .dir))
          · rintro hquiet files tx ⟨⟨hvalid, rfl⟩, hthere⟩ hnone
            obtain h | hsome := hthere hquiet
            · cases h
            · rw [hsome] at hnone
              cases hnone
          · apply hrest.weaken _ fun _ _ _ => id
            rintro files tx ⟨⟨⟨hvalid, rfl⟩, -⟩, hview⟩
            exact ⟨hvalid, by rw [← hview, Function.update_eq_self]⟩
          · intro leaf
            apply Does.ret
            rintro files tx ⟨⟨⟨hvalid, rfl⟩, hthere⟩, hview⟩
            refine .inr ⟨fun hquiet => ?_, e, rfl⟩
            obtain h | hsome := hthere hquiet
            · cases h
            · rw [hsome] at hview
              cases hview
          · apply Does.ret
            rintro files tx ⟨⟨⟨hvalid, rfl⟩, hthere⟩, hview⟩
            refine .inr ⟨fun hquiet => ?_, e, rfl⟩
            obtain h | hsome := hthere hquiet
            · cases h
            · rw [hsome] at hview
              cases hview
          · intro e' _
            cases e' <;> exact Does.ret fun _ _ h => .inr ⟨h, e, rfl⟩
        · exact hrest.weaken (fun _ _ h => h.1) fun _ _ _ => id

theorem createDirAll_does {what : String}
    (henabled : quiet → ∀ q, q <+: path → v q = some .dir ∨ v q = none) :
    Does quiet (fun files _ => CommitTransaction.Stands v files)
      (createDirAll path >>= orInternal what) fun _ files _ =>
        CommitTransaction.Stands (made path v) files := by
  intro d hd
  -- the root is there
  have hroot : v [] = some .dir := by rw [← hd.1.2, Tree.view_nil]
  have hdirs : path.inits.filter (· ≠ []) = path.inits.tail.map ([] ++ ·) := by
    cases path with
    | nil => rfl
    | cons n rest =>
        rw [List.inits_cons, List.filter_cons_of_neg (by simp), List.tail_cons, List.filter_eq_self.mpr]
        · simp
        · intro q hq
          obtain ⟨r, -, rfl⟩ := List.mem_map.mp hq
          simp
  have hmade : madeBelow [] path v = made path v := by
    funext q
    simp only [madeBelow, made, List.nil_prefix, true_and, List.nil_append]
  suffices h : Does quiet (fun files _ => CommitTransaction.Stands v files)
      (createDirAll path >>= orInternal what) fun _ files _ =>
        CommitTransaction.Stands (made path v) files from h d hd
  have hcreate : Does quiet (fun files _ => CommitTransaction.Stands v files)
      (createDirs (path.inits.tail.map ([] ++ ·))) fun r files _ =>
        (r = .ok () ∧ CommitTransaction.Stands (madeBelow [] path v) files) ∨
          ¬ quiet ∧ ∃ e, r = .error e := createDirs_does hroot henabled
  rw [← hdirs, hmade] at hcreate
  apply Does.seq hcreate
  rintro (e | _)
  · apply Does.raise
    rintro files tx (h | h)
    · cases h.1
    · exact h.1
  · apply Does.ret
    rintro files tx (h | ⟨-, e, he⟩)
    · exact h.2
    · cases he

theorem new_does (henabled : quiet → ∀ q, q <+: backups → v q = some .dir ∨ v q = none) :
    Does quiet (fun files _ => CommitTransaction.Stands v files) (CommitTransaction.new backups)
      fun _ => Shows backups (made backups v) := by
  show Does quiet _ (createDirAll backups >>= fun r => orInternal _ r >>= fun _ => _) _
  rw [← bind_assoc]
  apply Does.seq (createDirAll_does henabled)
  intro _
  apply Triple.update
  rintro d ⟨⟨hvalid, hview⟩, hcalm⟩
  refine ⟨⟨hvalid, rfl, ?_, fun q _ => by rw [hview]⟩, hcalm⟩
  rw [hview, made, if_pos List.prefix_rfl]

end Directories

end VivadoServer.Sync
