/-
  VivadoServer.Workspace.Quiet

  A world in which nobody changes the tree, no call fails and nobody cancels.  A program
  then has one answer (`Yields`), or at least one that is known (`Settles`), whenever it is
  run; a path leads to a directory just when its names do.
-/

import VivadoServer.Workspace.Shown
import VivadoServer.Workspace.Snapshot

namespace VivadoServer.Workspace

open Sync
open UnixPath (Bytes Component Plain fileName slash)
open Openat

variable {Obj : Type}

/-! ## A quiet world -/

/-- The world is the tree, at every time. -/
structure Snapshot.Holds (tree : Snapshot Obj) (w : World Obj) : Prop where
  kind : ∀ o, w.kind o = tree.kind o
  entry : ∀ t d name, Plain name → w.entry t d name = (tree.children d).lookup name
  dirent : ∀ t d k, w.dirent t d k = (tree.listing d)[k]?
  metadata : ∀ t o, w.metadata t o = w.metadata 0 o
  links : ∀ o, tree.kind o = .regular → ((w.metadata 0 o).nlink = 1 ↔ tree.single o = true)
  contents : ∀ t o, w.contents t o = tree.bytes o
  len : ∀ o, tree.kind o = .regular → (w.metadata 0 o).len = (tree.bytes o).length

/-- No call fails, nobody cancels, and the time does not run out. -/
structure Quiet (w : World Obj) : Prop where
  fault : ∀ t, w.fault t = none
  zipFault : ∀ t, w.zipFault t = none
  currentDir : ∀ t, w.currentDir t = w.currentDir 0
  permit : ∀ t, w.permit t = true
  cancelled : ∀ t, w.cancelled t = false
  now : ∀ t started, w.now t - w.now started ≤ MAX_ARCHIVE_TIME

/-- The answer does not depend on when the program is run. -/
def Yields {α : Type} (x : Reading Obj α) (r : Except AppError α) : Prop := ∀ s, (x.exec s).1 = r

namespace Yields

variable {α β : Type} {a : α} {e : AppError} {r : Except AppError β} {x : Reading Obj α}
  {f : α → Reading Obj β} {w : World Obj}

theorem ret : Yields (pure a : Reading Obj α) (.ok a) := fun _ => rfl

theorem raise : Yields (throw e : Reading Obj α) (.error e) := fun _ => rfl

/-- A step whose answer may depend on the time, but not what is known of it. -/
theorem some (known : α → Prop) (hx : ∀ s, ∃ a, (x.exec s).1 = .ok a ∧ known a)
    (hf : ∀ a, known a → Yields (f a) r) : Yields (x >>= f) r := by
  intro s
  obtain ⟨a, ha, hknown⟩ := hx s
  rw [Prog.exec_bind]
  cases hexec : x.exec s with
  | mk first s' =>
      rw [hexec] at ha
      obtain rfl : first = .ok a := ha
      exact hf a hknown s'

theorem seq (hx : Yields x (.ok a)) (hf : Yields (f a) r) : Yields (x >>= f) r := by
  apply some (fun b => b = a) fun s => ⟨a, hx s, rfl⟩
  rintro b rfl
  exact hf

theorem stop (hx : Yields x (.error e)) : Yields (x >>= f) (.error e) := by
  intro s
  have hs := hx s
  rw [Prog.exec_bind]
  cases hexec : x.exec s with
  | mk first s' =>
      rw [hexec] at hs
      obtain rfl : first = .error e := hs
      rfl

theorem attempt {r : Except AppError α} (hx : Yields x r) : Yields x.attempt (.ok r) := by
  intro s
  rw [Prog.exec_attempt, hx s]

/-- A call that cannot fail on its own. -/
theorem call_exec {g : Nat → Except Errno α} (hquiet : Quiet w) (s : System Obj) :
    ((Workspace.call w g).exec s).1 = (g s.clock).mapError ioError := by
  rw [Workspace.call, Prog.exec_bind]
  have hanswer : (observe (fun t => (w.fault t).elim (g t) .error) : Reading Obj _).exec s =
      (.ok (g s.clock), { s with clock := s.clock + 1 }) := by
    show (Except.ok ((w.fault s.clock).elim (g s.clock) .error), _) = _
    rw [hquiet.fault]
    rfl
  rw [hanswer]
  cases g s.clock <;> rfl

theorem call {g : Nat → Except Errno α} {r : Except Errno α} (hquiet : Quiet w) (h : ∀ t, g t = r) :
    Yields (Workspace.call w g) (r.mapError ioError) := by
  intro s
  rw [call_exec hquiet, h]

theorem failIf {bad : Bool} (h : bad = false) : Yields (Workspace.failIf bad e : Reading Obj Unit) (.ok ()) := by
  rw [h]
  exact ret

theorem onlyIf {c : Bool} {x : Reading Obj Unit} (h : c = true → Yields x (.ok ())) :
    Yields (Workspace.onlyIf c x) (.ok ()) := by
  cases c with
  | false => exact ret
  | true => exact h rfl

theorem orFail {r : Except AppError α} : Yields (Workspace.orFail r : Reading Obj α) r := by
  cases r with
  | ok a => exact ret
  | error error => exact raise

end Yields

/-! ## Opening in the tree -/

section Opening

variable {tree : Snapshot Obj} {w : World Obj} {d o : Obj} {name : String} {directory : Bool}

/-- A name that `open_at` hands to the system as one component. -/
structure Single (name : String) : Prop where
  plain : Plain (fileName name)
  noNul : name.toList.contains (Char.ofNat 0) = false

theorem Single.of_segment (h : validSegment name = true) : Single name := by
  refine ⟨(Allowed.of_segment h).plain, ?_⟩
  simp only [validSegment, Bool.and_eq_true, Bool.not_eq_true', List.any_eq_false] at h
  rw [Bool.eq_false_iff, ne_eq, List.contains_iff_mem]
  intro hnul
  exact h.2 _ hnul (by decide)

theorem Single.of_project (h : validateProjectName name = .ok ()) : Single name := by
  refine ⟨(Allowed.of_project h).plain, ?_⟩
  have hportable := portable_project h
  simp only [validatePortableSegment, Bool.not_eq_true', Bool.or_eq_false_iff, List.any_eq_false] at hportable
  rw [Bool.eq_false_iff, ne_eq, List.contains_iff_mem]
  intro hnul
  exact hportable.2 _ hnul (by decide)

/-- What `open_at` makes of what it has found. -/
def Opens (tree : Snapshot Obj) (directory : Bool) (o : Obj) : Prop :=
  tree.kind o = .directory ∨ directory = false ∧ tree.kind o = .regular ∧ tree.single o = true

/-- The program ends with this answer, or fails with some error. -/
def Settles {α : Type} (x : Reading Obj α) : Option α → Prop
  | some a => Yields x (.ok a)
  | none => ∃ e, Yields x (.error e)

theorem Settles.seq {α β : Type} {x : Reading Obj α} {f : α → Reading Obj β} {answer : Option α}
    {g : α → Option β} (hx : Settles x answer) (hf : ∀ a, answer = some a → Settles (f a) (g a)) :
    Settles (x >>= f) (answer.bind g) := by
  cases answer with
  | none =>
      obtain ⟨e, he⟩ := hx
      exact ⟨e, .stop he⟩
  | some a =>
      have hrest := hf a rfl
      rw [Option.bind_some]
      cases hg : g a with
      | none =>
          rw [hg] at hrest
          obtain ⟨e, he⟩ := hrest
          exact ⟨e, .seq hx he⟩
      | some b =>
          rw [hg] at hrest
          exact Yields.seq hx hrest

/-- The names of the workspace root, if `open_root` can follow them. -/
def rootNames : List Component → Option (List Bytes)
  | [] => some []
  | .rootDir :: rest => rootNames rest
  | .curDir :: rest => rootNames rest
  | .parentDir :: _ => none
  | .normal bytes :: rest =>
    match toStr bytes with
    | none => none
    | some name => if name.toList.contains (Char.ofNat 0) then none else (rootNames rest).map (bytes :: ·)

/-- The absolute path of the workspace root. -/
def rootPath (w : World Obj) (root : Bytes) : Bytes :=
  if root.head? = some slash then root else UnixPath.push (w.currentDir 0) root

/-- The directory that a request is about. -/
def Leads (tree : Snapshot Obj) (w : World Obj) (root : Bytes) (project path : String) (d : Obj) : Prop :=
  validateProjectName project = .ok () ∧ validatePath path true = .ok () ∧
    ∃ names, rootNames (UnixPath.components (rootPath w root)) = some names ∧
      (names ++ requested project path).foldlM tree.subdirectory w.top = some d

end Opening

end VivadoServer.Workspace
