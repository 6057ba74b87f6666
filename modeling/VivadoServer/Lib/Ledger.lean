/-
  VivadoServer.Lib.Ledger

  A ledger of reserved sequence numbers.

  Producers reserve numbers in order.  A reserved number travels in `flight`
  until it is shown to readers, or it is lost on the way: then it is parked, and
  declared later.  Readers see `shown`, the declared numbers `covered` and the
  `head`; they do not see what is parked.

  `Ledger.Step` lists what may happen to such a ledger, whoever does it.  Two
  things hold of every run:

    * `Run.accounted` — no reserved number is unaccounted for: it is below the
      floor the run started with, shown, covered, parked or still in flight;
    * `Run.late`      — what is shown later lies above the head seen before.

  Together they are the reader's contract: when nothing at or below the head is
  parked, every number up to the head is shown or covered
  (`Ledger.Accounted.visible`), and a reader that has read up to the head has
  missed nothing and will miss nothing.
-/

import Mathlib.Data.Set.Lattice
import Mathlib.Order.Lattice
import VivadoServer.Lib.StepSystem

namespace SequenceLedger

variable {α : Type*} [LinearOrder α]

@[ext] structure Ledger (α : Type*) where
  head : α
  reserved : α
  shown : Set α
  covered : Set α
  parked : Set α
  flight : List α

/-- What may happen to a ledger.  Declaring and parking may cover more than the
    numbers at hand: ranges are merged. -/
inductive Step (L : Ledger α) : Ledger α → Prop
  /-- Reserve the numbers up to `r` and send them on their way. -/
  | reserve {r : α} {items : List α} (le : L.reserved ≤ r) (sorted : items.Pairwise (· < ·))
      (mem : ∀ x, x ∈ items ↔ L.reserved < x ∧ x ≤ r) :
      Step L { L with reserved := r, flight := L.flight ++ items }
  /-- Reserve the numbers up to `r` and lose them at once. -/
  | drop {r : α} {P : Set α} (le : L.reserved ≤ r) (old : L.parked ⊆ P)
      (new : ∀ x, L.reserved < x → x ≤ r → x ∈ P) (bound : ∀ x ∈ P, x ≤ r) :
      Step L { L with reserved := r, parked := P }
  /-- Lose the first numbers in flight. -/
  | lose {xs ys : List α} {P : Set α} (split : L.flight = xs ++ ys) (old : L.parked ⊆ P)
      (new : ∀ x ∈ xs, x ∈ P) (bound : ∀ x ∈ P, x ≤ L.reserved) :
      Step L { L with flight := ys, parked := P }
  /-- Publish the first number in flight. -/
  | publish {x : α} {ys : List α} (split : L.flight = x :: ys) :
      Step L { L with flight := ys, shown := insert x L.shown, head := max L.head x }
  /-- Declare parked numbers. -/
  | declare {C P : Set α} (old : L.covered ∪ L.parked ⊆ C ∪ P)
      (boundC : ∀ x ∈ C, x ≤ L.reserved) (boundP : ∀ x ∈ P, x ≤ L.reserved) :
      Step L { L with covered := C, parked := P }
  /-- Withdraw shown numbers and declare them. -/
  | retire {S C : Set α} (sub : S ⊆ L.shown) (old : L.covered ⊆ C)
      (new : ∀ x ∈ L.shown, x ∉ S → x ∈ C) (bound : ∀ x ∈ C, x ≤ L.reserved) :
      Step L { L with shown := S, covered := C }
  /-- With nothing in flight, move the head across lost numbers. -/
  | cross {h : α} (empty : L.flight = []) (le : L.head ≤ h) (bound : h ≤ L.reserved) :
      Step L { L with head := h }

/-- Numbers in flight are in order, above the head and reserved; only reserved
    numbers are covered or parked. -/
structure Ledger.Ordered (L : Ledger α) : Prop where
  head_le : L.head ≤ L.reserved
  sorted : L.flight.Pairwise (· < ·)
  flight_bound : ∀ x ∈ L.flight, L.head < x ∧ x ≤ L.reserved
  covered_le : ∀ x ∈ L.covered, x ≤ L.reserved
  parked_le : ∀ x ∈ L.parked, x ≤ L.reserved

/-- Every reserved number above the floor is somewhere. -/
def Ledger.Accounted (floor : α) (L : Ledger α) : Prop :=
  ∀ x ≤ L.reserved, x ≤ floor ∨ x ∈ L.shown ∨ x ∈ L.covered ∨ x ∈ L.parked ∨ x ∈ L.flight

variable {L L' : Ledger α} {floor : α}

/-! ## One step -/

theorem Step.ordered (h : Step L L') (hL : L.Ordered) : L'.Ordered := by
  cases h with
  | @reserve r items le sorted mem =>
      refine ⟨hL.head_le.trans le, ?_, ?_, fun x hx => (hL.covered_le x hx).trans le,
        fun x hx => (hL.parked_le x hx).trans le⟩
      · refine List.pairwise_append.mpr ⟨hL.sorted, sorted, fun x hx y hy => ?_⟩
        exact (hL.flight_bound x hx).2.trans_lt ((mem y).mp hy).1
      · intro x hx
        rcases List.mem_append.mp hx with hx | hx
        · exact ⟨(hL.flight_bound x hx).1, (hL.flight_bound x hx).2.trans le⟩
        · exact ⟨hL.head_le.trans_lt ((mem x).mp hx).1, ((mem x).mp hx).2⟩
  | drop le old new bound =>
      exact ⟨hL.head_le.trans le, hL.sorted,
        fun x hx => ⟨(hL.flight_bound x hx).1, (hL.flight_bound x hx).2.trans le⟩,
        fun x hx => (hL.covered_le x hx).trans le, bound⟩
  | lose split old new bound =>
      have hsorted := hL.sorted
      rw [split] at hsorted
      refine ⟨hL.head_le, (List.pairwise_append.mp hsorted).2.1, fun x hx => ?_, hL.covered_le,
        bound⟩
      exact hL.flight_bound x (split ▸ List.mem_append_right _ hx)
  | @publish y ys split =>
      have hsorted := hL.sorted
      rw [split] at hsorted
      obtain ⟨hfirst, hrest⟩ := List.pairwise_cons.mp hsorted
      have hy := hL.flight_bound y (split ▸ List.mem_cons_self)
      refine ⟨max_le hL.head_le hy.2, hrest, fun x hx => ?_, hL.covered_le, hL.parked_le⟩
      have hx' := hL.flight_bound x (split ▸ List.mem_cons_of_mem _ hx)
      exact ⟨max_lt hx'.1 (hfirst x hx), hx'.2⟩
  | declare old boundC boundP =>
      exact ⟨hL.head_le, hL.sorted, hL.flight_bound, boundC, boundP⟩
  | retire sub old new bound =>
      exact ⟨hL.head_le, hL.sorted, hL.flight_bound, bound, hL.parked_le⟩
  | cross empty le bound =>
      refine ⟨bound, hL.sorted, fun x hx => ?_, hL.covered_le, hL.parked_le⟩
      simp [empty] at hx

theorem Step.accounted (h : Step L L') (hL : L.Accounted floor) : L'.Accounted floor := by
  intro x hx
  cases h with
  | @reserve r items le sorted mem =>
      by_cases hres : x ≤ L.reserved
      · rcases hL x hres with h | h | h | h | h
        · exact .inl h
        · exact .inr (.inl h)
        · exact .inr (.inr (.inl h))
        · exact .inr (.inr (.inr (.inl h)))
        · exact .inr (.inr (.inr (.inr (List.mem_append_left _ h))))
      · have hitem : x ∈ items := (mem x).mpr ⟨not_le.mp hres, hx⟩
        exact .inr (.inr (.inr (.inr (List.mem_append_right _ hitem))))
  | drop le old new bound =>
      by_cases hres : x ≤ L.reserved
      · rcases hL x hres with h | h | h | h | h
        · exact .inl h
        · exact .inr (.inl h)
        · exact .inr (.inr (.inl h))
        · exact .inr (.inr (.inr (.inl (old h))))
        · exact .inr (.inr (.inr (.inr h)))
      · exact .inr (.inr (.inr (.inl (new x (not_le.mp hres) hx))))
  | lose split old new bound =>
      rcases hL x hx with h | h | h | h | h
      · exact .inl h
      · exact .inr (.inl h)
      · exact .inr (.inr (.inl h))
      · exact .inr (.inr (.inr (.inl (old h))))
      · rcases List.mem_append.mp (split ▸ h) with h | h
        · exact .inr (.inr (.inr (.inl (new x h))))
        · exact .inr (.inr (.inr (.inr h)))
  | publish split =>
      rcases hL x hx with h | h | h | h | h
      · exact .inl h
      · exact .inr (.inl (Set.mem_insert_of_mem _ h))
      · exact .inr (.inr (.inl h))
      · exact .inr (.inr (.inr (.inl h)))
      · rcases List.mem_cons.mp (split ▸ h) with rfl | h
        · exact .inr (.inl (Set.mem_insert _ _))
        · exact .inr (.inr (.inr (.inr h)))
  | declare old boundC boundP =>
      rcases hL x hx with h | h | h | h | h
      · exact .inl h
      · exact .inr (.inl h)
      · rcases old (.inl h) with h | h
        · exact .inr (.inr (.inl h))
        · exact .inr (.inr (.inr (.inl h)))
      · rcases old (.inr h) with h | h
        · exact .inr (.inr (.inl h))
        · exact .inr (.inr (.inr (.inl h)))
      · exact .inr (.inr (.inr (.inr h)))
  | @retire S C sub old new bound =>
      rcases hL x hx with h | h | h | h | h
      · exact .inl h
      · by_cases hS : x ∈ S
        · exact .inr (.inl hS)
        · exact .inr (.inr (.inl (new x h hS)))
      · exact .inr (.inr (.inl (old h)))
      · exact .inr (.inr (.inr (.inl h)))
      · exact .inr (.inr (.inr (.inr h)))
  | cross empty le bound => exact hL x hx

theorem Step.head_le (h : Step L L') : L.head ≤ L'.head := by
  cases h with
  | publish split => exact le_max_left _ _
  | cross empty le bound => exact le
  | _ => exact le_rfl

theorem Step.reserved_le (h : Step L L') : L.reserved ≤ L'.reserved := by
  cases h with
  | reserve le => exact le
  | drop le => exact le
  | _ => exact le_rfl

/-- What a step shows lay above the head. -/
theorem Step.late (h : Step L L') (hL : L.Ordered) : ∀ x ∈ L'.shown, x ≤ L.head → x ∈ L.shown := by
  intro x hx hle
  cases h with
  | @publish y ys split =>
      rcases hx with rfl | hx
      · exact absurd hle (not_le.mpr (hL.flight_bound x (split ▸ List.mem_cons_self)).1)
      · exact hx
  | retire sub old new bound => exact sub hx
  | _ => exact hx

/-! ## Runs -/

/-- A run of ledger steps. -/
abbrev Run (L L' : Ledger α) : Prop := Relation.ReflTransGen Step L L'

theorem Run.ordered (h : Run L L') (hL : L.Ordered) : L'.Ordered := by
  induction h with
  | refl => exact hL
  | tail _ hstep ih => exact hstep.ordered ih

theorem Run.accounted (h : Run L L') (hL : L.Accounted floor) : L'.Accounted floor := by
  induction h with
  | refl => exact hL
  | tail _ hstep ih => exact hstep.accounted ih

theorem Run.head_le (h : Run L L') : L.head ≤ L'.head := by
  induction h with
  | refl => exact le_rfl
  | tail _ hstep ih => exact ih.trans hstep.head_le

theorem Run.reserved_le (h : Run L L') : L.reserved ≤ L'.reserved := by
  induction h with
  | refl => exact le_rfl
  | tail _ hstep ih => exact ih.trans hstep.reserved_le

theorem Run.late (h : Run L L') (hL : L.Ordered) : ∀ x ∈ L'.shown, x ≤ L.head → x ∈ L.shown := by
  induction h with
  | refl => exact fun x hx _ => hx
  | tail run hstep ih =>
      intro x hx hle
      exact ih x (hstep.late (Run.ordered run hL) x hx (hle.trans (Run.head_le run))) hle

/-- With nothing parked at or below the head, a reader sees every number up to
    the head shown or declared. -/
theorem Ledger.Accounted.visible (hacc : L.Accounted floor) (hord : L.Ordered) {x : α}
    (hx : x ≤ L.head) (hparked : x ∉ L.parked) : x ≤ floor ∨ x ∈ L.shown ∨ x ∈ L.covered := by
  rcases hacc x (hx.trans hord.head_le) with h | h | h | h | h
  · exact .inl h
  · exact .inr (.inl h)
  · exact .inr (.inr h)
  · exact absurd h hparked
  · exact absurd (hord.flight_bound x h).1 (not_lt.mpr hx)

/-- The floor of an account may be raised as far as nothing shown is below it. -/
theorem Ledger.Accounted.raise {floor' : α} (hacc : L.Accounted floor) (hle : floor ≤ floor') :
    L.Accounted floor' := by
  intro x hx
  rcases hacc x hx with h | h
  · exact .inl (h.trans hle)
  · exact .inr h

end SequenceLedger
