import Mathlib.Data.List.Basic

/-!
# Fields with a separator between them

A text is `[x].intercalate fs` for the fields `fs`, which do not have the separator `x`.
-/

namespace FF

open List

section Fields

variable {α : Type*} {x : α} {xs f : List α} {fs gs : List (List α)}

theorem intercalate_append (hfs : fs ≠ []) (hgs : gs ≠ []) :
    [x].intercalate (fs ++ gs) = [x].intercalate fs ++ x :: [x].intercalate gs := by
  induction fs with
  | nil => exact absurd rfl hfs
  | cons f fs ih =>
    cases fs with
    | nil =>
      rw [singleton_append, intercalate_cons_of_ne_nil hgs,
        intercalate_singleton, append_assoc, singleton_append]
    | cons f' fs =>
      rw [cons_append, intercalate_cons_of_ne_nil (by simp), ih (by simp),
        intercalate_cons_cons, append_assoc, append_assoc, append_assoc]

variable [DecidableEq α]

/-- A field does not have the separator. -/
theorem not_mem_of_mem_splitOn (h : f ∈ xs.splitOn x) : x ∉ f := by
  induction xs generalizing f with
  | nil =>
    rw [splitOn_nil, mem_singleton] at h
    rw [h]
    exact not_mem_nil
  | cons a xs ih =>
    rw [splitOn_cons_eq_if_modifyHead] at h
    split at h
    · rcases mem_cons.mp h with rfl | h
      · exact not_mem_nil
      · exact ih h
    next hne =>
      obtain ⟨g, gs, hgs⟩ := exists_cons_of_ne_nil (splitOn_ne_nil x xs)
      rw [hgs, modifyHead_cons] at h
      rcases mem_cons.mp h with rfl | h
      · rw [mem_cons, not_or]
        exact ⟨fun hax => hne (by simp [hax]), ih (hgs ▸ mem_cons_self)⟩
      · exact ih (hgs ▸ mem_cons_of_mem g h)

/-- **Every text has its fields.** -/
theorem exists_fields (x : α) (xs : List α) :
    ∃ fs, fs ≠ [] ∧ (∀ f ∈ fs, x ∉ f) ∧ xs = [x].intercalate fs :=
  ⟨xs.splitOn x, splitOn_ne_nil x xs, fun _ hf => not_mem_of_mem_splitOn hf,
    (intercalate_splitOn x).symm⟩

/-- There is a separator between two fields. -/
theorem count_intercalate (hfs : ∀ f ∈ fs, x ∉ f) :
    ([x].intercalate fs).count x = fs.length - 1 := by
  induction fs with
  | nil => rfl
  | cons f fs ih =>
    obtain ⟨hf, hfs⟩ := forall_mem_cons.mp hfs
    cases fs with
    | nil => rw [intercalate_singleton, count_eq_zero_of_not_mem hf]; rfl
    | cons f' fs =>
      rw [intercalate_cons_cons, count_append, count_append, ih hfs,
        count_eq_zero_of_not_mem hf, count_singleton_self]
      simp only [length_cons]
      omega

end Fields

end FF
