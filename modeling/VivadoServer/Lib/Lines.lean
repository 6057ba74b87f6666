/-
  VivadoServer.Lib.Lines

  Text that is written line by line and read back line by line.  A line is
  ended by a separator that it does not contain; a text cut off at any place is
  some whole lines and a torn one (`exists_lines_torn`, `prefix_lines`), and
  `split` finds exactly them (`split_lines`).
-/

import Mathlib.Data.List.Infix

namespace Lines

variable {α : Type*} {sep : α} {l t rest : List α} {ls : List (List α)}

/-- Cut a text after each separator; the last piece may lack one. -/
def split [DecidableEq α] (sep : α) : List α → List (List α)
  | [] => []
  | b :: bs =>
    if b = sep then [b] :: split sep bs
    else
      match split sep bs with
      | [] => [[b]]
      | l :: ls => (b :: l) :: ls

/-- Each line with its separator behind it. -/
def text (sep : α) (ls : List (List α)) : List α := ls.flatMap (· ++ [sep])

@[simp] theorem text_nil : text sep [] = [] := rfl

@[simp] theorem text_cons : text sep (l :: ls) = l ++ [sep] ++ text sep ls := rfl

theorem text_append {ls' : List (List α)} : text sep (ls ++ ls') = text sep ls ++ text sep ls' :=
  List.flatMap_append

/-! ## Splitting -/

variable [DecidableEq α]

theorem split_line_append (h : sep ∉ l) :
    split sep (l ++ [sep] ++ rest) = (l ++ [sep]) :: split sep rest := by
  induction l with
  | nil => simp [split]
  | cons b l ih =>
      have hb : b ≠ sep := fun heq => h (heq ▸ List.mem_cons_self)
      have hl : sep ∉ l := fun hmem => h (List.mem_cons_of_mem _ hmem)
      rw [List.cons_append, List.cons_append, split, if_neg hb, ih hl]

/-- A text without a separator is one torn line, or nothing. -/
theorem split_torn (h : sep ∉ t) : split sep t = if t = [] then [] else [t] := by
  induction t with
  | nil => rfl
  | cons b t ih =>
      have hb : b ≠ sep := fun heq => h (heq ▸ List.mem_cons_self)
      rw [split, if_neg hb, ih fun hmem => h (List.mem_cons_of_mem _ hmem)]
      cases t <;> simp

theorem split_lines (h : ∀ l ∈ ls, sep ∉ l) :
    split sep (text sep ls ++ rest) = ls.map (· ++ [sep]) ++ split sep rest := by
  induction ls with
  | nil => rfl
  | cons l ls ih =>
      rw [text_cons, List.append_assoc, split_line_append (h l List.mem_cons_self),
        ih fun l' hl' => h l' (List.mem_cons_of_mem _ hl'), List.map_cons, List.cons_append]

/-! ## Cutting off -/

/-- Every text is some whole lines and a torn one. -/
theorem exists_lines_torn (sep : α) (bs : List α) :
    ∃ ls t, bs = text sep ls ++ t ∧ (∀ l ∈ ls, sep ∉ l) ∧ sep ∉ t := by
  induction bs with
  | nil => exact ⟨[], [], rfl, by simp, by simp⟩
  | cons b bs ih =>
      obtain ⟨ls, t, rfl, hls, ht⟩ := ih
      by_cases hb : b = sep
      · subst hb
        exact ⟨[] :: ls, t, by simp, by simpa using hls, ht⟩
      · cases ls with
        | nil => exact ⟨[], b :: t, rfl, by simp, by simpa [Ne.symm hb] using ht⟩
        | cons l ls =>
            refine ⟨(b :: l) :: ls, t, by simp, fun l' hl' => ?_, ht⟩
            rcases List.mem_cons.mp hl' with rfl | hl'
            · have hl := hls l List.mem_cons_self
              simpa [Ne.symm hb] using hl
            · exact hls l' (List.mem_cons_of_mem _ hl')

omit [DecidableEq α] in
/-- What is left of written lines after a cut: the first ones, and part of the next. -/
theorem prefix_lines (h : ∀ l ∈ ls, sep ∉ l) {p : List α} (hp : p <+: text sep ls) :
    ∃ k t, p = text sep (ls.take k) ++ t ∧ sep ∉ t := by
  induction ls generalizing p with
  | nil =>
      rw [text_nil, List.prefix_nil] at hp
      exact ⟨0, [], by simp [hp], by simp⟩
  | cons l ls ih =>
      have hl : sep ∉ l := h l List.mem_cons_self
      rw [text_cons] at hp
      rcases Nat.lt_or_ge p.length (l ++ [sep]).length with hlt | hge
      · -- The cut falls into the first line.
        refine ⟨0, p, by simp, fun hmem => ?_⟩
        rw [List.append_assoc] at hp
        have hpre : p <+: l := by
          refine List.prefix_of_prefix_length_le hp (List.prefix_append l _) ?_
          rw [List.length_append, List.length_singleton] at hlt
          omega
        exact hl (hpre.subset hmem)
      · obtain ⟨q, rfl⟩ : ∃ q, p = l ++ [sep] ++ q := by
          obtain ⟨q, hq⟩ := List.prefix_of_prefix_length_le (List.prefix_append _ _) hp hge
          exact ⟨q, hq.symm⟩
        obtain ⟨k, t, rfl, ht⟩ := ih (fun l' hl' => h l' (List.mem_cons_of_mem _ hl'))
          ((List.prefix_append_right_inj _).mp hp)
        exact ⟨k + 1, t, by simp, ht⟩

end Lines
