/-
  VivadoServer.Lib.SortDedup

  Sorting and removing what is next to an equal: with a total order where only
  equals tie, each element is left once, in order.
-/

import Mathlib.Data.List.Destutter
import Mathlib.Data.List.Sort

namespace SortDedup

variable {α : Type*} [DecidableEq α] {le : α → α → Bool} {l : List α} {a b : α}

/-- The list in order, each element once. -/
def sortDedup (le : α → α → Bool) (l : List α) : List α :=
  (l.mergeSort le).destutter (· ≠ ·)

theorem mem_destutter' : a ∈ l.destutter' (· ≠ ·) b ↔ a = b ∨ a ∈ l := by
  induction l generalizing b with
  | nil => simp [List.destutter'_nil]
  | cons c l ih =>
      by_cases hbc : b = c
      · rw [List.destutter'_cons_neg _ (by simpa using hbc), ih, List.mem_cons, hbc]
        tauto
      · rw [List.destutter'_cons_pos _ hbc, List.mem_cons, ih, List.mem_cons]

@[simp] theorem mem_sortDedup : a ∈ sortDedup le l ↔ a ∈ l := by
  have hmem : ∀ l : List α, a ∈ l.destutter (· ≠ ·) ↔ a ∈ l := fun l => by
    cases l with
    | nil => rfl
    | cons b l => rw [List.destutter_cons', mem_destutter', List.mem_cons]
  rw [sortDedup, hmem, List.mem_mergeSort]

/-- Two relations along a chain. -/
theorem isChain_and {β : Type*} {R S : β → β → Prop} {l : List β} (hR : l.IsChain R) (hS : l.IsChain S) :
    l.IsChain fun a b => R a b ∧ S a b := by
  induction l with
  | nil => exact .nil
  | cons a l ih =>
      rw [List.isChain_cons] at hR hS ⊢
      exact ⟨fun b hb => ⟨hR.1 b hb, hS.1 b hb⟩, ih hR.2 hS.2⟩

/-- What comes first is no larger. -/
theorem pairwise_sortDedup (htotal : ∀ a b, le a b || le b a)
    (htrans : ∀ a b c, le a b → le b c → le a c) :
    (sortDedup le l).Pairwise fun a b => le a b = true :=
  (List.pairwise_mergeSort htrans htotal l).sublist (List.destutter_sublist _ _)

theorem nodup_sortDedup (htotal : ∀ a b, le a b || le b a)
    (htrans : ∀ a b c, le a b → le b c → le a c) (hantisymm : ∀ a b, le a b → le b a → a = b) :
    (sortDedup le l).Nodup := by
  have hchain : (sortDedup le l).IsChain fun a b => le a b = true ∧ a ≠ b :=
    isChain_and (pairwise_sortDedup htotal htrans).isChain (List.isChain_destutter _ _)
  have hstrict : IsTrans α fun a b => le a b = true ∧ a ≠ b :=
    ⟨fun a b c hab hbc => ⟨htrans a b c hab.1 hbc.1, fun hac =>
      hab.2 (hantisymm a b hab.1 (hac ▸ hbc.1))⟩⟩
  exact (List.isChain_iff_pairwise.mp hchain).imp fun h => h.2

end SortDedup
