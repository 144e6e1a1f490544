import Mathlib.Algebra.Order.Group.Int
import Mathlib.Data.List.Perm.Subperm
import Mathlib.Data.List.Count

/-!
# Stable sorting

A list is sorted in a stable way if it is in order, and if the elements that are equal for the
order come one behind another as they did before. The second part is a statement about one list for
each element, and it makes the result a permutation of the input.

## Main results

* `StableSorted.perm`: the result is a permutation.
* `StableSorted.merge`: two sorted halves are merged.
* `StableSorted.insert`: an element from behind is put in front of the greater ones.
* `stableSorted_congr`: what is a stable sort of a list depends on its classes of equal elements.
-/

namespace FF

open List

/-- A total preorder. -/
structure TotalPreorder {α : Type*} (le : α → α → Bool) : Prop where
  trans : ∀ a b c, le a b = true → le b c = true → le a c = true
  total : ∀ a b, (le a b || le b a) = true

/-- Two elements that are equal for the order. -/
def ordEq {α : Type*} (le : α → α → Bool) (x y : α) : Bool := le x y && le y x

/-- `out` has the elements of `xs` in order, and equal ones in the order of `xs`. -/
structure StableSorted {α : Type*} (le : α → α → Bool) (xs out : List α) : Prop where
  sorted : out.Pairwise fun a b => le a b = true
  stable : ∀ x, out.filter (ordEq le x) = xs.filter (ordEq le x)

section

variable {α : Type*} {le : α → α → Bool} {xs ys as bs : List α} {b c x : α}

namespace TotalPreorder

theorem refl (h : TotalPreorder le) (a : α) : le a a = true := by
  simpa using h.total a a

theorem of_not (h : TotalPreorder le) (hcb : ¬le c b = true) : le b c = true := by
  have htotal := h.total c b
  rw [Bool.or_eq_true] at htotal
  exact htotal.resolve_left hcb

/-- An order by a key -/
theorem of_key (key : α → ℤ) (h : ∀ a b, le a b = true ↔ key a ≤ key b) : TotalPreorder le := by
  refine ⟨fun a b c hab hbc => ?_, fun a b => ?_⟩
  · rw [h] at *
    exact le_trans hab hbc
  · rw [Bool.or_eq_true, h, h]
    exact le_total _ _

/-- What is above `b` is in no class that `b` is in. -/
theorem ordEq_above (h : TotalPreorder le) (hcb : ¬le c b = true) (hx : ordEq le x b = true) :
    ordEq le x c = false := by
  rw [Bool.eq_false_iff]
  intro hc
  rw [ordEq, Bool.and_eq_true] at hc hx
  exact hcb (h.trans _ _ _ hc.2 hx.1)

/-- A list above `b` has nothing of a class that `b` is in. -/
theorem filter_above (h : TotalPreorder le) (has : ∀ c ∈ as, ¬le c b = true)
    (hx : ordEq le x b = true) : as.filter (ordEq le x) = [] := by
  rw [filter_eq_nil_iff]
  intro c hc
  rw [h.ordEq_above (has c hc) hx]
  exact Bool.false_ne_true

end TotalPreorder

/-- **The result is a permutation** of the input. -/
theorem StableSorted.perm (hle : TotalPreorder le) (h : StableSorted le xs as) : as.Perm xs := by
  classical
  rw [perm_iff_count]
  intro a
  have hself : ordEq le a a = true := by rw [ordEq, hle.refl, Bool.and_self]
  rw [← count_filter hself, h.stable, count_filter hself]

/-- **Only the classes of equal elements matter.** -/
theorem stableSorted_congr (h : StableSorted le ys as) :
    StableSorted le xs as ↔ ∀ x, ys.filter (ordEq le x) = xs.filter (ordEq le x) :=
  ⟨fun hxs x => (h.stable x).symm.trans (hxs.stable x),
    fun hclass => ⟨h.sorted, fun x => (h.stable x).trans (hclass x)⟩⟩

/-- Copies of one element are sorted. -/
theorem StableSorted.replicate (hle : TotalPreorder le) (n : ℕ) (a : α) :
    StableSorted le (List.replicate n a) (List.replicate n a) :=
  ⟨pairwise_replicate.mpr (.inr (hle.refl a)), fun _ => rfl⟩

theorem StableSorted.of_length_le_one (h : xs.length ≤ 1) : StableSorted le xs xs := by
  refine ⟨?_, fun _ => rfl⟩
  match xs, h with
  | [], _ => exact List.Pairwise.nil
  | [a], _ => exact pairwise_singleton _ a

/-- In the merge, the elements of a class come from the left list first. -/
theorem filter_merge (hle : TotalPreorder le) (x : α) (has : as.Pairwise fun a b => le a b = true) :
    (as.merge bs le).filter (ordEq le x) =
      as.filter (ordEq le x) ++ bs.filter (ordEq le x) := by
  induction as generalizing bs with
  | nil => rw [nil_merge, filter_nil, nil_append]
  | cons a as ih =>
    induction bs with
    | nil => rw [merge_right, filter_nil, append_nil]
    | cons b bs ihb =>
      by_cases hab : le a b = true
      · rw [cons_merge_cons_pos _ _ _ hab]
        by_cases hx : ordEq le x a = true
        · rw [filter_cons_of_pos hx, ih has.tail, filter_cons_of_pos hx, cons_append]
        · rw [filter_cons_of_neg hx, ih has.tail, filter_cons_of_neg hx]
      rw [cons_merge_cons_neg _ _ _ hab]
      by_cases hx : ordEq le x b = true
      · -- the left list is above `b`
        have habove : ∀ c ∈ a :: as, ¬le c b = true := by
          intro c hc hcb
          rcases mem_cons.mp hc with rfl | hc
          · exact hab hcb
          · exact hab (hle.trans _ _ _ (rel_of_pairwise_cons has hc) hcb)
        rw [filter_cons_of_pos hx, ihb, hle.filter_above habove hx, nil_append,
          nil_append, filter_cons_of_pos hx]
      · rw [filter_cons_of_neg hx, ihb, filter_cons_of_neg hx]

/-- **Two sorted halves are merged**; of two equal elements the one on the left comes first. -/
theorem StableSorted.merge (hle : TotalPreorder le) (hl : StableSorted le xs as)
    (hr : StableSorted le ys bs) : StableSorted le (xs ++ ys) (as.merge bs le) := by
  refine ⟨pairwise_merge hle.trans hle.total as bs hl.sorted hr.sorted, fun x => ?_⟩
  rw [filter_merge hle x hl.sorted, hl.stable, hr.stable, filter_append]

/-- **An element from behind is put in front of the greater ones.** -/
theorem StableSorted.insert (hle : TotalPreorder le) (h : StableSorted le xs (as ++ bs))
    (has : ∀ a ∈ as.getLast?, le a b = true) (hbs : ∀ c ∈ bs, ¬le c b = true) :
    StableSorted le (xs ++ [b]) (as ++ b :: bs) := by
  obtain ⟨hsas, hsbs, hcross⟩ := pairwise_append.mp h.sorted
  have hbelow : ∀ a ∈ as, le a b = true := by
    intro a ha
    obtain ⟨as, l, rfl⟩ := (eq_nil_or_concat as).resolve_left (ne_nil_of_mem ha)
    have hl := has l (by simp)
    rw [concat_eq_append, mem_append, mem_singleton] at ha
    rcases ha with ha | rfl
    · rw [concat_eq_append] at hsas
      exact hle.trans _ _ _ ((pairwise_append.mp hsas).2.2 a ha l (mem_singleton_self l)) hl
    · exact hl
  refine ⟨pairwise_append.mpr ⟨hsas, pairwise_cons.mpr
    ⟨fun c hc => hle.of_not (hbs c hc), hsbs⟩, fun a ha c hc => ?_⟩, fun x => ?_⟩
  · rcases mem_cons.mp hc with rfl | hc
    · exact hbelow a ha
    · exact hcross a ha c hc
  · rw [filter_append, filter_append, ← h.stable, filter_append, append_assoc]
    by_cases hx : ordEq le x b = true
    · rw [hle.filter_above hbs hx, nil_append, filter_cons, hle.filter_above hbs hx,
        filter_cons, filter_nil]
    · rw [filter_cons, if_neg hx, filter_cons, if_neg hx, filter_nil, append_nil]

end

end FF
