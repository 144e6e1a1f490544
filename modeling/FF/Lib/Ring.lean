import Mathlib.Data.List.Cycle
import FF.Lib.Heap

/-!
# Circular doubly linked lists

A ring is a cyclic list of cells in which each cell's `next` link leads to its successor and
each cell's `prev` link to its predecessor; a list with a head is a ring with one cell more.
A ring may be entered at any of its cells (`Ring.rotate`).

## Main results

* `Ring.insert`: the four link writes that put a cell after another one.
* `Ring.remove`: the two link writes that take a cell out.
* `Ring.eq_singleton`: a cell that is its own successor is alone in its ring.
-/

namespace FF

open List

section Ring

variable {A : Type*} {N P : A → Option A}

/-- The links of `a` and `b` make them neighbours. -/
def Linked (N P : A → Option A) (a b : A) : Prop := N a = some b ∧ P b = some a

/-- The cells of `l` form a ring, in this order, under the links `N` (next) and `P` (prev). -/
def Ring (N P : A → Option A) (l : List A) : Prop := Cycle.Chain (Linked N P) (l : Cycle A)

theorem ring_cons {a : A} {l : List A} :
    Ring N P (a :: l) ↔ List.IsChain (Linked N P) (a :: (l ++ [a])) :=
  Cycle.chain_coe_cons _ _ _

theorem ring_singleton {a : A} : Ring N P [a] ↔ N a = some a ∧ P a = some a :=
  Cycle.chain_singleton _ _

/-- A ring may be entered anywhere. -/
theorem Ring.rotate {l₁ l₂ : List A} (h : Ring N P (l₁ ++ l₂)) : Ring N P (l₂ ++ l₁) := by
  have he : ((l₂ ++ l₁ : List A) : Cycle A) = (l₁ ++ l₂ : List A) :=
    Cycle.coe_eq_coe.mpr isRotated_append
  rw [Ring, he]
  exact h

/-- A ring entered at one of its cells. -/
theorem Ring.focus {l : List A} (h : Ring N P l) {a : A} (ha : a ∈ l) :
    ∃ l', Ring N P (a :: l') ∧ (a :: l').Perm l := by
  obtain ⟨l₁, l₂, rfl⟩ := append_of_mem ha
  exact ⟨l₂ ++ l₁, h.rotate, @perm_append_comm _ (a :: l₂) l₁⟩

/-- Only the links of its own cells matter for a ring. -/
theorem Ring.congr {N' P' : A → Option A} {l : List A} (h : Ring N P l)
    (hN : ∀ a ∈ l, N' a = N a) (hP : ∀ a ∈ l, P' a = P a) : Ring N' P' l := by
  cases l with
  | nil => trivial
  | cons a l =>
    rw [ring_cons] at h ⊢
    refine h.imp_of_mem_imp fun x y hx hy hxy => ?_
    have hmem : ∀ z ∈ a :: (l ++ [a]), z ∈ a :: l := fun z hz => by
      simp only [mem_cons, mem_append, not_mem_nil, or_false] at hz ⊢
      tauto
    exact ⟨(hN x (hmem x hx)).trans hxy.1, (hP y (hmem y hy)).trans hxy.2⟩

/-- The successor of the first cell. -/
theorem Ring.next {a b : A} {l : List A} (h : Ring N P (a :: b :: l)) :
    N a = some b ∧ P b = some a :=
  (isChain_cons_cons.mp (ring_cons.mp h)).1

/-- The first cell's predecessor is the last one. -/
theorem Ring.prev {a b : A} {l : List A} (h : Ring N P (a :: l ++ [b])) :
    N b = some a ∧ P a = some b := by
  have h' : Ring N P ([b] ++ a :: l) := Ring.rotate h
  exact h'.next

/-- Every cell of a ring has links, to cells of the ring. -/
theorem Ring.links {l : List A} (h : Ring N P l) {a : A} (ha : a ∈ l) :
    (∃ b ∈ l, N a = some b) ∧ ∃ p ∈ l, P a = some p := by
  obtain ⟨l', hl', hperm⟩ := h.focus ha
  have hmem : ∀ x, x ∈ a :: l' → x ∈ l := fun x hx => hperm.mem_iff.mp hx
  constructor
  · cases l' with
    | nil => exact ⟨a, ha, (ring_singleton.mp hl').1⟩
    | cons b l' => exact ⟨b, hmem b (by simp), hl'.next.1⟩
  · rcases eq_nil_or_concat l' with rfl | ⟨l'', p, rfl⟩
    · exact ⟨a, ha, (ring_singleton.mp hl').2⟩
    · rw [concat_eq_append] at hl' hmem
      exact ⟨p, hmem p (by simp), (Ring.prev (l := l'') hl').2⟩

/-- A cell that is its own successor is alone. -/
theorem Ring.eq_singleton {l : List A} (h : Ring N P l) (hn : l.Nodup) {a : A} (ha : a ∈ l)
    (hself : N a = some a) : l = [a] := by
  obtain ⟨l', hl', hperm⟩ := h.focus ha
  cases l' with
  | nil => exact perm_singleton.mp hperm.symm
  | cons b l' =>
    have hab : a = b := Option.some.inj (hself.symm.trans hl'.next.1)
    have := hperm.nodup_iff.mpr hn
    simp [hab] at this

/-- In a list of different cells, the second of two neighbours is not the first cell, and the
first of them not the last. -/
theorem neighbours_ne {l l₁ l₂ : List A} {y z a b : A} (hn : l.Nodup)
    (hl : l = l₁ ++ y :: z :: l₂) (hb : l.head? = some b) (ha : l.getLast? = some a) :
    z ≠ b ∧ y ≠ a := by
  subst hl
  constructor
  · rintro rfl
    cases l₁ with
    | nil =>
      obtain rfl : y = z := by simpa using hb
      simp at hn
    | cons x l₁ =>
      obtain rfl : x = z := by simpa using hb
      simp at hn
  rintro rfl
  have hmem : y ∈ z :: l₂ := by
    rw [getLast?_append_cons, getLast?_cons_cons] at ha
    exact mem_of_getLast? ha
  have := (nodup_append.mp hn).2.1
  exact (nodup_cons.mp this).1 hmem

variable [DecidableEq A]

/-- **A cell `x` is put after `a`**; `b` is the cell that came after `a`. -/
theorem Ring.insert {a b x : A} {l : List A} (h : Ring N P (a :: l))
    (hn : (a :: x :: l).Nodup) (hb : (l ++ [a]).head? = some b) :
    Ring (Function.update (Function.update N x (some b)) a (some x))
      (Function.update (Function.update P b (some x)) x (some a)) (a :: x :: l) := by
  rw [ring_cons] at h ⊢
  simp only [nodup_cons, mem_cons, not_or] at hn
  obtain ⟨⟨hax, hal⟩, hxl, hl⟩ := hn
  obtain ⟨m, hm⟩ : ∃ m, m = l ++ [a] := ⟨_, rfl⟩
  have hnm : m.Nodup := by
    rw [hm, nodup_append]
    exact ⟨hl, by simp, fun y hy z hz e => hal (mem_singleton.mp hz ▸ e ▸ hy)⟩
  have hxm : x ∉ m := by simp [hm, hxl, Ne.symm hax]
  have hlast : m.getLast? = some a := by simp [hm]
  rw [cons_append, ← hm]
  rw [← hm] at h hb
  obtain ⟨m', rfl⟩ : ∃ m', m = b :: m' := by
    cases m with
    | nil => simp at hb
    | cons c m' => exact ⟨m', by simpa using hb⟩
  obtain ⟨-, hchain⟩ := isChain_cons_cons.mp h
  have hxb : x ≠ b := fun e => hxm (e ▸ mem_cons_self)
  refine isChain_cons_cons.mpr ⟨⟨by simp, by simp⟩, isChain_cons_cons.mpr
    ⟨⟨by simp [Ne.symm hax], by simp [Ne.symm hxb]⟩, ?_⟩⟩
  -- the links between the cells from `b` on: `a` is the last one
  rw [isChain_iff_forall_rel_of_append_cons_cons] at hchain ⊢
  intro y z l₁ l₂ hyz
  obtain ⟨hzb, hya⟩ := neighbours_ne hnm hyz hb hlast
  obtain ⟨h1, h2⟩ := hchain hyz
  have hyx : y ≠ x := fun e => hxm (by rw [hyz, e]; simp)
  have hzx : z ≠ x := fun e => hxm (by rw [hyz, e]; simp)
  exact ⟨by simp [hya, hyx, h1], by simp [hzx, hzb, h2]⟩

/-- **The cell `a` is taken out**; `p` and `b` are its neighbours. -/
theorem Ring.remove {a b p : A} {l : List A} (h : Ring N P (a :: l)) (hn : (a :: l).Nodup)
    (hb : l.head? = some b) (hp : l.getLast? = some p) :
    Ring (Function.update N p (some b)) (Function.update P b (some p)) l := by
  obtain ⟨hal, hl⟩ := nodup_cons.mp hn
  obtain ⟨m, rfl⟩ : ∃ m, l = b :: m := by
    cases l with
    | nil => simp at hb
    | cons c m => exact ⟨m, by simpa using hb⟩
  rw [ring_cons] at h ⊢
  obtain ⟨-, hchain⟩ := isChain_cons_cons.mp h
  obtain ⟨m', hm'⟩ : ∃ m', b :: m = m' ++ [p] := by
    rw [getLast?_eq_some_iff] at hp
    exact hp
  have hlist : b :: (m ++ [b]) = m' ++ p :: b :: [] := by
    rw [← cons_append, hm']
    simp
  rw [isChain_iff_forall_rel_of_append_cons_cons] at hchain ⊢
  intro y z l₁ l₂ hyz
  by_cases hl₂ : l₂ = []
  · -- the last two are `p` and `b`
    subst hl₂
    rw [hlist] at hyz
    have := append_inj_right' hyz rfl
    obtain ⟨rfl, rfl⟩ := this
    exact ⟨by simp, by simp⟩
  obtain ⟨l₃, w, rfl⟩ := (eq_nil_or_concat l₂).resolve_left hl₂
  have hinner : b :: m = l₁ ++ y :: z :: l₃ := by
    have : (b :: m) ++ [b] = (l₁ ++ y :: z :: l₃) ++ [w] := by
      rw [cons_append, hyz]
      simp
    exact (append_inj' this rfl).1
  obtain ⟨hzb, hyp⟩ := neighbours_ne hl hinner rfl hp
  have hmid : b :: m ++ [a] = l₁ ++ y :: z :: (l₃ ++ [a]) := by
    rw [hinner]
    simp
  obtain ⟨h1, h2⟩ := hchain hmid
  exact ⟨by simp [hyp, h1], by simp [hzb, h2]⟩

end Ring

end FF
