import Mathlib.Data.List.Basic

/-!
# Lists between separators

A list is cut at separators into parts. Each part keeps the separator behind it, so that the list
can be put together again, and what is behind the last separator is a part only if it is not
empty.
-/

namespace FF

namespace Split

open List

variable {α : Type*} {sep : α → Bool}

/-- The parts of the list behind the beginning `acc` of a part. -/
def parts (sep : α → Bool) : List α → List α → List (List α × Option α)
  | [], [] => []
  | a :: acc, [] => [(a :: acc, none)]
  | acc, x :: l => if sep x then (acc, some x) :: parts sep [] l else parts sep (acc ++ [x]) l

/-- The parts, put together. -/
def join (ps : List (List α × Option α)) : List α := ps.flatMap fun p => p.1 ++ p.2.toList

/-- **Well-formed parts**: there is no separator inside of a part, and a separator behind each one
but the last, which is not empty when it has none. -/
inductive IsParts (sep : α → Bool) : List (List α × Option α) → Prop
  | nil : IsParts sep []
  | last {n : List α} (hne : n ≠ []) (hn : ∀ x ∈ n, sep x = false) : IsParts sep [(n, none)]
  | cons {n : List α} {s : α} {ps : List (List α × Option α)} (hn : ∀ x ∈ n, sep x = false)
      (hs : sep s = true) (h : IsParts sep ps) : IsParts sep ((n, some s) :: ps)

@[simp] theorem join_nil : join ([] : List (List α × Option α)) = [] := rfl

@[simp] theorem join_cons (p : List α × Option α) (ps : List (List α × Option α)) :
    join (p :: ps) = p.1 ++ p.2.toList ++ join ps := by
  simp [join]

@[simp] theorem join_append (ps qs : List (List α × Option α)) :
    join (ps ++ qs) = join ps ++ join qs := by
  simp [join]

theorem parts_cons_sep {x : α} (hx : sep x = true) (acc l : List α) :
    parts sep acc (x :: l) = (acc, some x) :: parts sep [] l := by
  cases acc <;> simp [parts, hx]

theorem parts_cons_other {x : α} (hx : sep x = false) (acc l : List α) :
    parts sep acc (x :: l) = parts sep (acc ++ [x]) l := by
  cases acc <;> simp [parts, hx]

theorem parts_end {acc : List α} (h : acc ≠ []) : parts sep acc [] = [(acc, none)] := by
  cases acc with
  | nil => exact absurd rfl h
  | cons a acc => rfl

/-- Other elements go on with a part. -/
theorem parts_append {n : List α} (hn : ∀ x ∈ n, sep x = false) (acc l : List α) :
    parts sep acc (n ++ l) = parts sep (acc ++ n) l := by
  induction n generalizing acc with
  | nil => simp
  | cons x n ih =>
    rw [cons_append, parts_cons_other (hn x mem_cons_self),
      ih (fun y hy => hn y (mem_cons_of_mem _ hy)), append_assoc, singleton_append]

/-- What has been begun is the beginning of the first part. -/
theorem exists_parts_cons {acc : List α} (h : acc ≠ []) (l : List α) :
    ∃ t o ps, parts sep acc l = (acc ++ t, o) :: ps := by
  induction l generalizing acc with
  | nil => exact ⟨[], none, [], by rw [parts_end h, append_nil]⟩
  | cons x l ih =>
    cases hx : sep x with
    | true => exact ⟨[], some x, parts sep [] l, by rw [parts_cons_sep hx, append_nil]⟩
    | false =>
      obtain ⟨t, o, ps, hps⟩ := @ih (acc ++ [x]) (by simp)
      exact ⟨x :: t, o, ps, by rw [parts_cons_other hx, hps, append_assoc]; rfl⟩

/-- **The parts of a list, put together, are the list.** -/
theorem join_parts (acc l : List α) : join (parts sep acc l) = acc ++ l := by
  induction l generalizing acc with
  | nil =>
    cases acc with
    | nil => rfl
    | cons a acc => simp [parts]
  | cons x l ih =>
    cases hx : sep x with
    | true =>
      rw [parts_cons_sep hx, join_cons, ih]
      simp
    | false =>
      rw [parts_cons_other hx, ih]
      simp

/-- The parts of a list are well-formed. -/
theorem isParts_parts {acc : List α} (hacc : ∀ x ∈ acc, sep x = false) (l : List α) :
    IsParts sep (parts sep acc l) := by
  induction l generalizing acc with
  | nil =>
    cases acc with
    | nil => exact .nil
    | cons a acc => exact .last (by simp) hacc
  | cons x l ih =>
    cases hx : sep x with
    | true =>
      rw [parts_cons_sep hx]
      exact .cons hacc hx (ih (by simp))
    | false =>
      rw [parts_cons_other hx]
      refine ih fun y hy => ?_
      rcases mem_append.mp hy with hy | hy
      · exact hacc y hy
      · rw [mem_singleton.mp hy]
        exact hx

/-- **What is put together of well-formed parts has these parts.** -/
theorem parts_join {ps : List (List α × Option α)} (h : IsParts sep ps) :
    parts sep [] (join ps) = ps := by
  induction h with
  | nil => rfl
  | @last n hne hn =>
    have happ := parts_append hn [] []
    rw [nil_append, parts_end hne, append_nil] at happ
    simpa using happ
  | @cons n s ps hn hs h ih =>
    rw [join_cons, Option.toList_some, append_assoc, parts_append hn, nil_append,
      singleton_append, parts_cons_sep hs, ih]

/-- Well-formed parts behind parts with separators. -/
theorem IsParts.append {ps qs : List (List α × Option α)}
    (hp : ∀ p ∈ ps, (∀ x ∈ p.1, sep x = false) ∧ ∃ s, p.2 = some s ∧ sep s = true)
    (hq : IsParts sep qs) : IsParts sep (ps ++ qs) := by
  induction ps with
  | nil => exact hq
  | cons p ps ih =>
    obtain ⟨n, o⟩ := p
    obtain ⟨hn, s, rfl, hs⟩ := hp _ mem_cons_self
    exact .cons hn hs (ih fun p h => hp p (mem_cons_of_mem _ h))

theorem IsParts.tail {ps : List (List α × Option α)} (h : IsParts sep ps) :
    IsParts sep ps.tail := by
  cases h with
  | nil => exact .nil
  | last => exact .nil
  | cons hn hs h => exact h

theorem IsParts.filter (f : List α × Option α → Bool) {ps : List (List α × Option α)}
    (h : IsParts sep ps) : IsParts sep (ps.filter f) := by
  induction h with
  | nil => exact .nil
  | @last n hne hn =>
    cases hf : f (n, none) with
    | true => simpa [hf] using .last hne hn
    | false => simpa [hf] using .nil
  | @cons n s ps hn hs h ih =>
    rw [filter_cons]
    split
    · exact .cons hn hs ih
    · exact ih

/-- **A part of two lists with a separator between them** is a part of one of them. -/
theorem mem_parts_append {w : List α} (hw : w ≠ []) {s : α} (hs : sep s = true)
    (acc l rest : List α) :
    w ∈ (parts sep acc (l ++ s :: rest)).map Prod.fst ↔
      w ∈ (parts sep acc l).map Prod.fst ∨ w ∈ (parts sep [] rest).map Prod.fst := by
  induction l generalizing acc with
  | nil =>
    rw [nil_append, parts_cons_sep hs]
    cases acc with
    | nil => simp [parts, hw]
    | cons a acc => simp [parts]
  | cons x l ih =>
    rw [cons_append]
    cases hx : sep x with
    | true =>
      rw [parts_cons_sep hx, parts_cons_sep hx, map_cons, map_cons, mem_cons,
        mem_cons, ih, or_assoc]
    | false => rw [parts_cons_other hx, parts_cons_other hx, ih]

end Split

end FF
