import Mathlib.Data.List.Perm.Basic
import Mathlib.Data.List.Nodup

/-!
# Red-black trees with a focus

Trees with coloured nodes, and the one-hole contexts in which an algorithm that climbs
from a node towards the root works. A context is a list of frames, innermost first; a
frame is a node with one of its children missing.

The mirrored cases of red-black algorithms are written once, with a direction: `mk d c a t s`
is the node whose child on the side `d` is `t` and whose other child is `s`.

## Main definitions

* `IsRB t n`: no red node of `t` has a red child and every path from the root to a leaf
  has `n` black nodes.
* `CtxRB K n`: a tree of black height `n` fits into `K`.
* `Short t n`: `t` misses one black node to fit where black height `n + 1` is wanted.

## Main results

* `isRB_plug`, `ctxRB_of_plug`: the colour invariant of a plugged tree splits into those of
  the context and of the tree.
* `CtxRB.recolor`, `CtxRB.rotate_outer`, `CtxRB.rotate_inner`: the cases after an insertion.
* `CtxRB.red_sibling`, `CtxRB.black_nephews`, `CtxRB.far_nephew`, `CtxRB.near_nephew`: the
  cases after a removal.
-/

namespace FF

open List

/-- A side of a binary node. -/
inductive Dir
  | left
  | right
  deriving DecidableEq, Repr

/-- The opposite side. -/
def Dir.other : Dir → Dir
  | .left => .right
  | .right => .left

@[simp] theorem Dir.other_other (d : Dir) : d.other.other = d := by cases d <;> rfl

@[simp] theorem Dir.other_ne (d : Dir) : d.other ≠ d := by cases d <;> decide

theorem Dir.eq_or_eq_other (d e : Dir) : e = d ∨ e = d.other := by
  cases d <;> cases e <;> decide

/-- Concatenation seen from a side: what comes first on the side `d`. -/
def Dir.app {α : Type*} : Dir → List α → List α → List α
  | .left, xs, ys => xs ++ ys
  | .right, xs, ys => ys ++ xs

theorem Dir.app_assoc {α : Type*} (d : Dir) (xs ys zs : List α) :
    d.app (d.app xs ys) zs = d.app xs (d.app ys zs) := by
  cases d <;> simp [Dir.app]

/-- The colours of a red-black tree. -/
inductive Color
  | black
  | red
  deriving DecidableEq, Repr

theorem Color.eq_black_or_red (c : Color) : c = .black ∨ c = .red := by
  cases c <;> simp

/-- Binary trees with a colour and a value at every node. -/
inductive Tree (α : Type*)
  | nil
  | node (c : Color) (l : Tree α) (a : α) (r : Tree α)

namespace Tree

variable {α : Type*}

/-- The values in order. -/
def toList : Tree α → List α
  | nil => []
  | node _ l a r => l.toList ++ a :: r.toList

/-- The colour of the root; a leaf counts as black. -/
def rootColor : Tree α → Color
  | nil => .black
  | node c _ _ _ => c

/-- The tree with its root painted. -/
def paint (c : Color) : Tree α → Tree α
  | nil => nil
  | node _ l a r => node c l a r

/-- The node whose child on the side `d` is `t` and whose other child is `s`. -/
def mk (d : Dir) (c : Color) (a : α) (t s : Tree α) : Tree α :=
  match d with
  | .left => node c t a s
  | .right => node c s a t

@[simp] theorem toList_nil : (nil : Tree α).toList = [] := rfl

@[simp] theorem toList_node (c : Color) (l : Tree α) (a : α) (r : Tree α) :
    (node c l a r).toList = l.toList ++ a :: r.toList := rfl

@[simp] theorem rootColor_nil : (nil : Tree α).rootColor = .black := rfl

@[simp] theorem rootColor_mk (d : Dir) (c : Color) (a : α) (t s : Tree α) :
    (mk d c a t s).rootColor = c := by cases d <;> rfl

@[simp] theorem paint_mk (d : Dir) (c c' : Color) (a : α) (t s : Tree α) :
    (mk d c a t s).paint c' = mk d c' a t s := by cases d <;> rfl

@[simp] theorem toList_paint (c : Color) (t : Tree α) : (t.paint c).toList = t.toList := by
  cases t <;> rfl

theorem toList_mk (d : Dir) (c : Color) (a : α) (t s : Tree α) :
    (mk d c a t s).toList = d.app t.toList (d.app [a] s.toList) := by
  cases d <;> simp [mk, Dir.app]

@[simp] theorem mk_ne_nil (d : Dir) (c : Color) (a : α) (t s : Tree α) :
    mk d c a t s ≠ nil := by
  cases d <;> simp [mk]

/-- Every node is a `mk` seen from either side. -/
theorem exists_mk (d : Dir) {t : Tree α} (h : t ≠ nil) :
    ∃ c a t₁ t₂, t = mk d c a t₁ t₂ := by
  cases t with
  | nil => exact absurd rfl h
  | node c l a r =>
    cases d with
    | left => exact ⟨c, a, l, r, rfl⟩
    | right => exact ⟨c, a, r, l, rfl⟩

theorem mk_other (d : Dir) (c : Color) (a : α) (t s : Tree α) :
    mk d.other c a t s = mk d c a s t := by cases d <;> rfl

theorem mk_perm (d : Dir) (c : Color) (a : α) (t s : Tree α) :
    (mk d c a t s).toList.Perm (a :: (t.toList ++ s.toList)) := by
  cases d with
  | left => exact perm_middle
  | right =>
    exact perm_middle.trans (List.Perm.cons a (perm_append_comm))

/-- A rotation does not change the order of the values. -/
theorem toList_rotate (d : Dir) (c₁ c₂ c₃ c₄ : Color) (x y : α) (s t u : Tree α) :
    (mk d c₁ x s (mk d c₂ y t u)).toList = (mk d c₃ y (mk d c₄ x s t) u).toList := by
  simp only [toList_mk, Dir.app_assoc]

/-! ### Paths -/

/-- The number of black nodes on each path from the root to a leaf. -/
def blackCounts : Tree α → List ℕ
  | nil => [0]
  | node c l _ r =>
    (l.blackCounts ++ r.blackCounts).map fun n => if c = .black then n + 1 else n

/-- No red node has a red child. -/
def NoRedRed : Tree α → Prop
  | nil => True
  | node c l _ r =>
    (c = .red → l.rootColor = .black ∧ r.rootColor = .black) ∧ l.NoRedRed ∧ r.NoRedRed

/-! ### The colour invariant -/

/-- No red node has a red child and every path from the root to a leaf has `n` black
nodes. -/
inductive IsRB : Tree α → ℕ → Prop
  | nil : IsRB nil 0
  | red {l r : Tree α} {a : α} {n : ℕ} :
      IsRB l n → IsRB r n → l.rootColor = .black → r.rootColor = .black →
      IsRB (node .red l a r) n
  | black {l r : Tree α} {a : α} {n : ℕ} :
      IsRB l n → IsRB r n → IsRB (node .black l a r) (n + 1)

theorem IsRB.noRedRed {t : Tree α} {n : ℕ} (h : IsRB t n) : t.NoRedRed := by
  induction h with
  | nil => trivial
  | red _ _ hl hr ihl ihr => exact ⟨fun _ => ⟨hl, hr⟩, ihl, ihr⟩
  | black _ _ ihl ihr => exact ⟨fun h => Color.noConfusion h, ihl, ihr⟩

theorem IsRB.blackCounts_eq {t : Tree α} {n : ℕ} (h : IsRB t n) :
    ∀ b ∈ t.blackCounts, b = n := by
  induction h with
  | nil => simp [blackCounts]
  | red _ _ _ _ ihl ihr =>
    intro b hb
    simp only [blackCounts, map_append, mem_append, mem_map] at hb
    rcases hb with ⟨m, hm, rfl⟩ | ⟨m, hm, rfl⟩
    · simpa using ihl m hm
    · simpa using ihr m hm
  | black _ _ ihl ihr =>
    intro b hb
    simp only [blackCounts, map_append, mem_append, mem_map] at hb
    rcases hb with ⟨m, hm, rfl⟩ | ⟨m, hm, rfl⟩
    · simpa using ihl m hm
    · simpa using ihr m hm

theorem isRB_mk_red {d : Dir} {a : α} {t s : Tree α} {n : ℕ} :
    IsRB (mk d .red a t s) n ↔
      IsRB t n ∧ IsRB s n ∧ t.rootColor = .black ∧ s.rootColor = .black := by
  constructor
  · intro h
    cases d <;> cases h with
    | red hl hr hlc hrc => first | exact ⟨hl, hr, hlc, hrc⟩ | exact ⟨hr, hl, hrc, hlc⟩
  · rintro ⟨ht, hs, htc, hsc⟩
    cases d with
    | left => exact .red ht hs htc hsc
    | right => exact .red hs ht hsc htc

theorem isRB_mk_black {d : Dir} {a : α} {t s : Tree α} {n : ℕ} :
    IsRB (mk d .black a t s) (n + 1) ↔ IsRB t n ∧ IsRB s n := by
  constructor
  · intro h
    cases d <;> cases h with
    | black hl hr => first | exact ⟨hl, hr⟩ | exact ⟨hr, hl⟩
  · rintro ⟨ht, hs⟩
    cases d with
    | left => exact .black ht hs
    | right => exact .black hs ht

/-- A black node has positive black height. -/
theorem IsRB.mk_black_height {d : Dir} {a : α} {t s : Tree α} {n : ℕ}
    (h : IsRB (mk d .black a t s) n) : ∃ m, n = m + 1 := by
  cases d <;> cases h <;> exact ⟨_, rfl⟩

/-- Positive black height is not that of a leaf. -/
theorem IsRB.ne_nil {t : Tree α} {n : ℕ} (h : IsRB t (n + 1)) : t ≠ .nil := by
  rintro rfl
  cases h

/-- Blackening a red root adds one black node to every path. -/
theorem IsRB.paint_black {t : Tree α} {n : ℕ} (h : IsRB t n) (hc : t.rootColor = .red) :
    IsRB (t.paint .black) (n + 1) := by
  cases h with
  | nil => exact absurd hc (by simp)
  | red hl hr _ _ => exact .black hl hr
  | black _ _ => exact absurd hc (by simp [rootColor])

/-- A black root may be painted black without any change. -/
theorem paint_of_rootColor {t : Tree α} {c : Color} (h : t.rootColor = c) : t.paint c = t := by
  cases t with
  | nil => rfl
  | node => simp only [rootColor] at h; rw [← h]; rfl

/-- The tree misses one black node: a black tree of black height `n`, or a red one that has
`n + 1` once it is painted black. -/
def Short (t : Tree α) (n : ℕ) : Prop :=
  (t.rootColor = .black ∧ IsRB t n) ∨ (t.rootColor = .red ∧ IsRB (t.paint .black) (n + 1))

theorem IsRB.short {t : Tree α} {n : ℕ} (h : IsRB t n) : Short t n := by
  rcases t.rootColor.eq_black_or_red with hc | hc
  · exact .inl ⟨hc, h⟩
  · exact .inr ⟨hc, h.paint_black hc⟩

end Tree

open FF.Tree

/-- A node with one child missing: the side and the node's colour and value, and the child on
the other side. -/
structure Frame (α : Type*) where
  dir : Dir
  color : Color
  elem : α
  sib : Tree α

/-- Put a tree into the hole of a frame. -/
def Frame.fill {α : Type*} (f : Frame α) (t : Tree α) : Tree α :=
  Tree.mk f.dir f.color f.elem t f.sib

/-- A one-hole context: the frames from the hole to the root. -/
abbrev Ctx (α : Type*) := List (Frame α)

namespace Ctx

variable {α : Type*}

/-- Put a tree into the hole of a context. -/
def plug : Ctx α → Tree α → Tree α
  | [], t => t
  | f :: K, t => plug K (f.fill t)

@[simp] theorem plug_nil (t : Tree α) : plug [] t = t := rfl

@[simp] theorem plug_cons (f : Frame α) (K : Ctx α) (t : Tree α) :
    plug (f :: K) t = plug K (f.fill t) := rfl

theorem plug_append (c₁ c₂ : Ctx α) (t : Tree α) :
    plug (c₁ ++ c₂) t = plug c₂ (plug c₁ t) := by
  induction c₁ generalizing t with
  | nil => rfl
  | cons f c₁ ih => exact ih _

/-- The second child of the focused node may be focused instead. -/
theorem plug_mk_other (d : Dir) (c : Color) (a : α) (t s : Tree α) (K : Ctx α) :
    plug (⟨d.other, c, a, t⟩ :: K) s = plug K (mk d c a t s) := by
  simp [Frame.fill, mk_other]

/-- The hole may be moved to the other child of the innermost node. -/
theorem plug_flip (d : Dir) (c : Color) (a : α) (s t : Tree α) (K : Ctx α) :
    plug (⟨d, c, a, s⟩ :: K) t = plug (⟨d.other, c, a, t⟩ :: K) s :=
  (plug_mk_other d c a t s K).symm

/-- The values of a context before the hole, in order. -/
def before : Ctx α → List α
  | [] => []
  | f :: K => before K ++ match f.dir with
      | .left => []
      | .right => f.sib.toList ++ [f.elem]

/-- The values of a context after the hole, in order. -/
def after : Ctx α → List α
  | [] => []
  | f :: K => (match f.dir with
      | .left => f.elem :: f.sib.toList
      | .right => []) ++ after K

theorem toList_plug (K : Ctx α) (t : Tree α) :
    (plug K t).toList = before K ++ t.toList ++ after K := by
  induction K generalizing t with
  | nil => simp [before, after]
  | cons f K ih =>
    obtain ⟨d, c, a, s⟩ := f
    cases d <;> simp [ih, Frame.fill, Tree.mk, before, after]

/-- Plugging trees with the same values gives the same values. -/
theorem toList_plug_congr (K : Ctx α) {t t' : Tree α} (h : t.toList = t'.toList) :
    (plug K t).toList = (plug K t').toList := by
  rw [toList_plug, toList_plug, h]

/-- The values of a context. -/
def elems : Ctx α → List α
  | [] => []
  | f :: K => f.elem :: (f.sib.toList ++ elems K)

theorem toList_plug_perm (K : Ctx α) (t : Tree α) :
    (plug K t).toList.Perm (t.toList ++ elems K) := by
  induction K generalizing t with
  | nil => simp [elems]
  | cons f K ih =>
    refine (ih _).trans ?_
    have h := (mk_perm f.dir f.color f.elem t f.sib).append_right (elems K)
    refine h.trans ?_
    simpa [elems] using
      (@perm_middle _ f.elem t.toList (f.sib.toList ++ elems K)).symm

/-- Every frame of a context holds a value of the plugged tree. -/
theorem length_le_plug (K : Ctx α) (t : Tree α) : K.length ≤ (plug K t).toList.length := by
  rw [(toList_plug_perm K t).length_eq, length_append]
  refine Nat.le_trans ?_ (Nat.le_add_left _ _)
  induction K with
  | nil => simp
  | cons f K ih => simp only [elems, length_cons, length_append]; omega

theorem plug_eq_nil {K : Ctx α} {t : Tree α} (h : plug K t = .nil) :
    K = [] ∧ t = .nil := by
  have hlen := length_le_plug K t
  rw [h] at hlen
  obtain rfl : K = [] := length_eq_zero_iff.mp (Nat.le_zero.mp hlen)
  exact ⟨rfl, h⟩

/-- Any value of a tree may be focused. -/
theorem exists_plug_of_mem {a : α} {t : Tree α} (h : a ∈ t.toList) :
    ∃ K c l r, t = plug K (.node c l a r) := by
  induction t with
  | nil => simp at h
  | node c l b r ihl ihr =>
    simp only [toList_node, mem_append, mem_cons] at h
    rcases h with h | rfl | h
    · obtain ⟨K, c', l', r', rfl⟩ := ihl h
      exact ⟨K ++ [⟨.left, c, b, r⟩], c', l', r', by rw [plug_append]; rfl⟩
    · exact ⟨[], c, l, r, rfl⟩
    · obtain ⟨K, c', l', r', rfl⟩ := ihr h
      exact ⟨K ++ [⟨.right, c, b, l⟩], c', l', r', by rw [plug_append]; rfl⟩

/-- Nothing comes before a hole that only left links lead to. -/
theorem before_eq_nil {K : Ctx α} (h : ∀ f ∈ K, f.dir = .left) : before K = [] := by
  induction K with
  | nil => rfl
  | cons f K ih =>
    rw [before, ih fun g hg => h g (mem_cons_of_mem _ hg), h f mem_cons_self]
    rfl

/-- A red tree is allowed in the hole. -/
def RedOk : Ctx α → Prop
  | [] => False
  | f :: _ => f.color = .black

/-- A tree of black height `n` fits into the context: the plugged tree then obeys the colour
invariant and has a black root, when the colour at the hole is allowed (`RedOk`). -/
inductive CtxRB : Ctx α → ℕ → Prop
  | nil {n : ℕ} : CtxRB [] n
  | red {d : Dir} {a : α} {s : Tree α} {K : Ctx α} {n : ℕ} :
      CtxRB K n → RedOk K → IsRB s n → s.rootColor = .black →
      CtxRB (⟨d, .red, a, s⟩ :: K) n
  | black {d : Dir} {a : α} {s : Tree α} {K : Ctx α} {n : ℕ} :
      CtxRB K (n + 1) → IsRB s n → CtxRB (⟨d, .black, a, s⟩ :: K) n

/-- A fitting tree makes the plugged tree obey the invariant. -/
theorem isRB_plug {K : Ctx α} {n : ℕ} (hctx : CtxRB K n) {t : Tree α} (ht : IsRB t n)
    (hc : t.rootColor = .red → RedOk K) :
    (∃ m, IsRB (plug K t) m) ∧ (plug K t).rootColor = .black := by
  induction hctx generalizing t with
  | nil =>
    refine ⟨⟨_, ht⟩, ?_⟩
    rcases t.rootColor.eq_black_or_red with h | h
    · exact h
    · exact (hc h).elim
  | red hctx hok hs hsc ih =>
    refine ih (isRB_mk_red.mpr ⟨ht, hs, ?_, hsc⟩) fun _ => hok
    rcases t.rootColor.eq_black_or_red with h | h
    · exact h
    · exact absurd (hc h) (by simp [RedOk])
  | black hctx hs ih =>
    exact ih (isRB_mk_black.mpr ⟨ht, hs⟩) (by simp [Frame.fill])

/-- The invariant of a plugged tree splits at the hole. -/
theorem ctxRB_of_plug {K : Ctx α} {t : Tree α} {m : ℕ} (h : IsRB (plug K t) m)
    (hc : (plug K t).rootColor = .black) :
    ∃ n, CtxRB K n ∧ IsRB t n ∧ (t.rootColor = .red → RedOk K) := by
  induction K generalizing t with
  | nil =>
    refine ⟨m, .nil, h, fun hr => ?_⟩
    rw [plug_nil] at hc
    exact absurd (hc.symm.trans hr) (by decide)
  | cons f K ih =>
    obtain ⟨n, hctx, hf, hfc⟩ := ih h hc
    obtain ⟨d, c, a, s⟩ := f
    cases c with
    | red =>
      obtain ⟨ht, hs, htc, hsc⟩ := isRB_mk_red.mp hf
      refine ⟨n, .red hctx (hfc (by simp [Frame.fill])) hs hsc, ht, fun hr => ?_⟩
      exact absurd (htc.symm.trans hr) (by decide)
    | black =>
      obtain ⟨k, rfl⟩ := hf.mk_black_height
      obtain ⟨ht, hs⟩ := isRB_mk_black.mp hf
      exact ⟨k, .black hctx hs, ht, fun _ => rfl⟩

theorem CtxRB.red_inv {d : Dir} {a : α} {s : Tree α} {K : Ctx α} {n : ℕ}
    (h : CtxRB (⟨d, .red, a, s⟩ :: K) n) :
    CtxRB K n ∧ RedOk K ∧ IsRB s n ∧ s.rootColor = .black := by
  cases h with
  | red h1 h2 h3 h4 => exact ⟨h1, h2, h3, h4⟩

theorem CtxRB.black_inv {d : Dir} {a : α} {s : Tree α} {K : Ctx α} {n : ℕ}
    (h : CtxRB (⟨d, .black, a, s⟩ :: K) n) : CtxRB K (n + 1) ∧ IsRB s n := by
  cases h with
  | black h1 h2 => exact ⟨h1, h2⟩

/-- The values of the frames do not matter for the colour invariant. -/
theorem CtxRB.set_elem {c₁ K : Ctx α} {d : Dir} {c : Color} {a b : α} {s : Tree α} {n : ℕ}
    (h : CtxRB (c₁ ++ ⟨d, c, a, s⟩ :: K) n) : CtxRB (c₁ ++ ⟨d, c, b, s⟩ :: K) n := by
  induction c₁ generalizing n with
  | nil =>
    cases h with
    | red h1 h2 h3 h4 => exact .red h1 h2 h3 h4
    | black h1 h2 => exact .black h1 h2
  | cons f c₁ ih =>
    cases h with
    | red h1 h2 h3 h4 =>
      refine .red (ih h1) ?_ h3 h4
      cases c₁ <;> exact h2
    | black h1 h2 => exact .black (ih h1) h2

theorem RedOk.set_elem {c₁ K : Ctx α} {d : Dir} {c : Color} {a b : α} {s : Tree α}
    (h : RedOk (c₁ ++ ⟨d, c, a, s⟩ :: K)) : RedOk (c₁ ++ ⟨d, c, b, s⟩ :: K) := by
  cases c₁ <;> exact h

/-! ### After an insertion

The tree in the hole is a valid red tree; only its parent may be red too. -/

section Insert

variable {d e : Dir} {p g : α} {s u t : Tree α} {K : Ctx α} {n : ℕ}

/-- The grandparent of a red tree with a red parent is black. -/
theorem CtxRB.grandparent {c : Color}
    (h : CtxRB (⟨d, .red, p, s⟩ :: ⟨e, c, g, u⟩ :: K) n) :
    c = .black ∧ IsRB s n ∧ s.rootColor = .black ∧ IsRB u n ∧ CtxRB K (n + 1) := by
  obtain ⟨h1, hok, hs, hsc⟩ := h.red_inv
  obtain rfl : c = .black := hok
  exact ⟨rfl, hs, hsc, h1.black_inv.2, h1.black_inv.1⟩

/-- Parent and uncle are red: they take the grandparent's black. -/
theorem CtxRB.recolor (h : CtxRB (⟨d, .red, p, s⟩ :: ⟨e, .black, g, u⟩ :: K) n)
    (ht : IsRB t n) (hu : u.rootColor = .red) :
    CtxRB K (n + 1) ∧
      IsRB (mk e .red g (mk d .black p t s) (u.paint .black)) (n + 1) := by
  obtain ⟨-, hs, -, hun, hctx⟩ := h.grandparent
  have huc : (u.paint .black).rootColor = .black := by cases u <;> rfl
  exact ⟨hctx, isRB_mk_red.mpr
    ⟨isRB_mk_black.mpr ⟨ht, hs⟩, hun.paint_black hu, rootColor_mk .., huc⟩⟩

/-- Parent red, uncle black, the three nodes in line: one rotation at the grandparent. -/
theorem CtxRB.rotate_outer (h : CtxRB (⟨d, .red, p, s⟩ :: ⟨e, .black, g, u⟩ :: K) n)
    (ht : IsRB t n) (hu : u.rootColor = .black) :
    CtxRB K (n + 1) ∧ IsRB (mk e .black p t (mk e .red g s u)) (n + 1) := by
  obtain ⟨-, hs, hsc, hun, hctx⟩ := h.grandparent
  exact ⟨hctx, isRB_mk_black.mpr ⟨ht, isRB_mk_red.mpr ⟨hs, hun, hsc, hu⟩⟩⟩

/-- Parent red, uncle black, the three nodes bent: a rotation at the parent first. -/
theorem CtxRB.rotate_inner {a : α} {t₁ t₂ : Tree α}
    (h : CtxRB (⟨d, .red, p, s⟩ :: ⟨e, .black, g, u⟩ :: K) n)
    (ht : IsRB (mk e .red a t₁ t₂) n) (hu : u.rootColor = .black) :
    CtxRB K (n + 1) ∧
      IsRB (mk e .black a (mk e .red p s t₁) (mk e .red g t₂ u)) (n + 1) := by
  obtain ⟨-, hs, hsc, hun, hctx⟩ := h.grandparent
  obtain ⟨h1, h2, h1c, h2c⟩ := isRB_mk_red.mp ht
  exact ⟨hctx, isRB_mk_black.mpr
    ⟨isRB_mk_red.mpr ⟨hs, h1, hsc, h1c⟩, isRB_mk_red.mpr ⟨h2, hun, h2c, hu⟩⟩⟩

end Insert

/-! ### After a removal

The context wants black height `n + 1` and the tree in the hole is one black node short. -/

section Remove

variable {d : Dir} {c : Color} {p q v : α} {t s s₁ s₂ : Tree α} {K : Ctx α} {n : ℕ}

/-- The sibling of a short tree is not a leaf. -/
theorem CtxRB.sib_ne_nil (h : CtxRB (⟨d, c, p, s⟩ :: K) (n + 1)) : s ≠ .nil := by
  cases c with
  | red => exact h.red_inv.2.2.1.ne_nil
  | black => exact h.black_inv.2.ne_nil

/-- A red sibling: after a rotation at the parent the new sibling is black. -/
theorem CtxRB.red_sibling (h : CtxRB (⟨d, c, p, mk d .red q s₁ s₂⟩ :: K) (n + 1)) :
    c = .black ∧ s₁.rootColor = .black ∧
      CtxRB (⟨d, .red, p, s₁⟩ :: ⟨d, .black, q, s₂⟩ :: K) (n + 1) := by
  cases c with
  | red =>
    have := h.red_inv.2.2.2
    exact absurd this (by simp)
  | black =>
    obtain ⟨hctx, hs⟩ := h.black_inv
    obtain ⟨h1, h2, h1c, -⟩ := isRB_mk_red.mp hs
    exact ⟨rfl, h1c, .red (.black hctx h2) rfl h1 h1c⟩

/-- What the context says about a black sibling. -/
theorem CtxRB.black_sibling
    (h : CtxRB (⟨d, c, p, mk d .black q s₁ s₂⟩ :: K) (n + 1)) :
    IsRB s₁ n ∧ IsRB s₂ n ∧
      ((c = .red ∧ CtxRB K (n + 1) ∧ RedOk K) ∨ (c = .black ∧ CtxRB K (n + 2))) := by
  cases c with
  | red =>
    obtain ⟨hctx, hok, hs, -⟩ := h.red_inv
    obtain ⟨h1, h2⟩ := isRB_mk_black.mp hs
    exact ⟨h1, h2, .inl ⟨rfl, hctx, hok⟩⟩
  | black =>
    obtain ⟨hctx, hs⟩ := h.black_inv
    obtain ⟨h1, h2⟩ := isRB_mk_black.mp hs
    exact ⟨h1, h2, .inr ⟨rfl, hctx⟩⟩

/-- Both nephews are black: the sibling turns red and the parent's tree is short instead. -/
theorem CtxRB.black_nephews (h : CtxRB (⟨d, c, p, mk d .black q s₁ s₂⟩ :: K) (n + 1))
    (ht : IsRB t n) (h1c : s₁.rootColor = .black) (h2c : s₂.rootColor = .black) :
    ∃ k, CtxRB K (k + 1) ∧ Short (mk d c p t (mk d .red q s₁ s₂)) k := by
  obtain ⟨h1, h2, ⟨rfl, hctx, -⟩ | ⟨rfl, hctx⟩⟩ := h.black_sibling
  · refine ⟨n, hctx, .inr ⟨rootColor_mk .., ?_⟩⟩
    rw [paint_mk]
    exact isRB_mk_black.mpr ⟨ht, isRB_mk_red.mpr ⟨h1, h2, h1c, h2c⟩⟩
  · exact ⟨n + 1, hctx, .inl ⟨rootColor_mk ..,
      isRB_mk_black.mpr ⟨ht, isRB_mk_red.mpr ⟨h1, h2, h1c, h2c⟩⟩⟩⟩

/-- A node of the parent's colour over two black nodes replaces the parent. -/
theorem CtxRB.replace_parent {l r : Tree α} {q' a b : α}
    (h : CtxRB (⟨d, c, p, mk d .black q s₁ s₂⟩ :: K) (n + 1))
    {l₁ l₂ r₁ r₂ : Tree α} (hl : l = mk d .black a l₁ l₂) (hr : r = mk d .black b r₁ r₂)
    (hln : IsRB l (n + 1)) (hrn : IsRB r (n + 1)) :
    ∃ k, CtxRB K k ∧ IsRB (mk d c q' l r) k ∧
      ((mk d c q' l r).rootColor = .red → RedOk K) := by
  subst hl hr
  obtain ⟨-, -, ⟨rfl, hctx, hok⟩ | ⟨rfl, hctx⟩⟩ := h.black_sibling
  · exact ⟨n + 1, hctx, isRB_mk_red.mpr ⟨hln, hrn, rootColor_mk .., rootColor_mk ..⟩,
      fun _ => hok⟩
  · exact ⟨n + 2, hctx, isRB_mk_black.mpr ⟨hln, hrn⟩, by simp⟩

/-- The far nephew is red: a rotation at the parent ends the repair. -/
theorem CtxRB.far_nephew {b : α} {u₁ u₂ : Tree α}
    (h : CtxRB (⟨d, c, p, mk d .black q s₁ (mk d .red b u₁ u₂)⟩ :: K) (n + 1))
    (ht : IsRB t n) :
    ∃ k, CtxRB K k ∧ IsRB (mk d c q (mk d .black p t s₁) (mk d .black b u₁ u₂)) k ∧
      ((mk d c q (mk d .black p t s₁) (mk d .black b u₁ u₂)).rootColor = .red →
        RedOk K) := by
  obtain ⟨h1, h2, -⟩ := h.black_sibling
  obtain ⟨hu1, hu2, -, -⟩ := isRB_mk_red.mp h2
  exact h.replace_parent rfl rfl (isRB_mk_black.mpr ⟨ht, h1⟩) (isRB_mk_black.mpr ⟨hu1, hu2⟩)

/-- Only the near nephew is red: a rotation at the sibling comes first. -/
theorem CtxRB.near_nephew {u₁ u₂ : Tree α}
    (h : CtxRB (⟨d, c, p, mk d .black q (mk d .red v u₁ u₂) s₂⟩ :: K) (n + 1))
    (ht : IsRB t n) :
    ∃ k, CtxRB K k ∧ IsRB (mk d c v (mk d .black p t u₁) (mk d .black q u₂ s₂)) k ∧
      ((mk d c v (mk d .black p t u₁) (mk d .black q u₂ s₂)).rootColor = .red →
        RedOk K) := by
  obtain ⟨h1, h2, -⟩ := h.black_sibling
  obtain ⟨hu1, hu2, -, -⟩ := isRB_mk_red.mp h1
  exact h.replace_parent rfl rfl (isRB_mk_black.mpr ⟨ht, hu1⟩) (isRB_mk_black.mpr ⟨hu2, h2⟩)

end Remove

end Ctx

end FF
