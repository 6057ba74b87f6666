/-
  VivadoServer.Lib.OrderedMap

  `Std.ExtTreeMap` with natural number keys: the list of its entries is
  strictly ordered, and a list of entries in key order is determined by its
  members.
-/

import Mathlib

namespace OrderedMap

open Std (ExtTreeMap)

variable {β : Type*} {t : ExtTreeMap Nat β} {k : Nat} {v : β}

theorem mem_toList : (k, v) ∈ t.toList ↔ t[k]? = some v :=
  ExtTreeMap.mem_toList_iff_getElem?_eq_some

theorem mem_iff_exists : k ∈ t ↔ ∃ v, t[k]? = some v := by
  rw [ExtTreeMap.mem_iff_isSome_getElem?, Option.isSome_iff_exists]

theorem toList_pairwise : t.toList.Pairwise fun a b => a.1 < b.1 := by
  have h := ExtTreeMap.ordered_keys_toList (t := t)
  simpa [Nat.compare_eq_lt] using h

theorem toList_nodup : t.toList.Nodup :=
  toList_pairwise.imp fun hlt heq => absurd (heq ▸ hlt) (lt_irrefl _)

@[simp] theorem getElem?_insert_self' : (t.insert k v)[k]? = some v := by simp

theorem mem_insert {k' : Nat} : k' ∈ t.insert k v ↔ k' = k ∨ k' ∈ t := by
  rw [ExtTreeMap.mem_insert, Nat.compare_eq_eq, eq_comm]

theorem getElem?_insert_of_ne {k' : Nat} (h : k ≠ k') : (t.insert k v)[k']? = t[k']? := by
  rw [ExtTreeMap.getElem?_insert, if_neg (by simpa using h)]

theorem getElem?_erase_of_ne {k' : Nat} (h : k ≠ k') : (t.erase k)[k']? = t[k']? := by
  rw [ExtTreeMap.getElem?_erase, if_neg (by simpa using h)]

theorem getElem?_of_erase {k' : Nat} (h : (t.erase k)[k']? = some v) :
    t[k']? = some v ∧ k' ≠ k := by
  rw [ExtTreeMap.getElem?_erase] at h
  split at h
  · cases h
  · rename_i hne
    exact ⟨h, fun heq => hne (by simp [heq])⟩

/-- The smallest key, with its entry. -/
theorem head?_keys_eq_some (h : t.keys.head? = some k) :
    (∃ v, t[k]? = some v) ∧ ∀ k' v', t[k']? = some v' → k ≤ k' := by
  rw [← ExtTreeMap.minKey?_eq_head?_keys] at h
  obtain ⟨hmem, hle⟩ := ExtTreeMap.minKey?_eq_some_iff_mem_and_forall.mp h
  refine ⟨mem_iff_exists.mp hmem, fun k' v' hk' => ?_⟩
  have := hle k' (mem_iff_exists.mpr ⟨v', hk'⟩)
  simpa [Nat.isLE_compare] using this

theorem head?_keys_eq_none (h : t.keys.head? = none) : t[k]? = none := by
  rw [← ExtTreeMap.minKey?_eq_head?_keys, ExtTreeMap.minKey?_eq_none_iff] at h
  simp [h]

end OrderedMap
