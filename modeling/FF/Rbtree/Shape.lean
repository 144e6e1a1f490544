import FF.Rbtree.Basic

/-!
# Trees in memory

A red-black tree as a value (`Tree` over pairs of an address and a key) and the memory that
holds it. `Shape h par t` says that every node of `t` has a cell with exactly the links,
colour and key that `t` gives it, the root's parent link being `par`; the parent links are
the inverse of the child links because each cell is stated whole. `Rep h root t` adds that
`root` points to the root of `t` and that no node occurs twice.

`ShapeCtx` is the same for a one-hole context, and `rep_plug` splits a tree in memory at any
node. Rotations, relinking and recolouring are stated for a plugged tree.
-/

namespace FF

open List

open FF.Tree FF.Ctx

/-- The tree of node addresses and keys. -/
abbrev NodeTree := Tree (ℕ × ℕ)

/-- A context of node addresses and keys. -/
abbrev NodeCtx := Ctx (ℕ × ℕ)

/-- The pointer to a tree: the sentinel stands for the empty tree. -/
@[grind =] def rootPtr : NodeTree → Ptr
  | .nil => .sentl
  | .node _ _ a _ => .node a.1

/-- The parent link of the tree in the hole. -/
@[grind =] def ctxPtr : NodeCtx → Ptr
  | [] => .sentl
  | f :: _ => .node f.elem.1

/-- The cell of a node, seen from a side. -/
@[grind =] def cell (d : Dir) (c : Color) (key : ℕ) (t s par : Ptr) : FfrbtNode :=
  match d with
  | .left => ⟨t, s, par, c, key⟩
  | .right => ⟨s, t, par, c, key⟩

/-- The addresses of a list of nodes. -/
def addrs (l : List (ℕ × ℕ)) : List Ptr := l.map fun a => .node a.1

/-- The cells of the tree are in memory, its root having the parent link `par`. -/
@[grind =] def Shape (h : Nodes) : Ptr → NodeTree → Prop
  | _, .nil => True
  | par, .node c l a r =>
    h (.node a.1) = some ⟨rootPtr l, rootPtr r, par, c, a.2⟩ ∧
      Shape h (.node a.1) l ∧ Shape h (.node a.1) r

/-- The cells of the context are in memory, its hole being filled with `p`. -/
@[grind =] def ShapeCtx (h : Nodes) : Ptr → NodeCtx → Prop
  | _, [] => True
  | p, f :: K =>
    h (.node f.elem.1) =
        some (cell f.dir f.color f.elem.2 p (rootPtr f.sib) (ctxPtr K)) ∧
      Shape h (.node f.elem.1) f.sib ∧ ShapeCtx h (.node f.elem.1) K

/-- The tree `t` is in memory under the root pointer `root`. -/
structure Rep (h : Nodes) (root : Ptr) (t : NodeTree) : Prop where
  root_eq : root = rootPtr t
  shape : Shape h .sentl t
  nodup : (addrs t.toList).Nodup

/-! ### Cells -/

section Cells

variable (d : Dir) (c c' : Color) (k : ℕ) (t s par q : Ptr)

@[simp] theorem cell_child : (cell d c k t s par).child d = t := by cases d <;> rfl

@[simp] theorem cell_child_other : (cell d c k t s par).child d.other = s := by
  cases d <;> rfl

@[simp] theorem cell_parent : (cell d c k t s par).parent = par := by cases d <;> rfl

@[simp] theorem cell_color : (cell d c k t s par).color = c := by cases d <;> rfl

@[simp] theorem cell_key : (cell d c k t s par).key = k := by cases d <;> rfl

@[simp] theorem cell_setChild : (cell d c k t s par).setChild d q = cell d c k q s par := by
  cases d <;> rfl

@[simp] theorem cell_setChild_other :
    (cell d c k t s par).setChild d.other q = cell d c k t q par := by
  cases d <;> rfl

@[simp] theorem cell_set_parent :
    { cell d c k t s par with parent := q } = cell d c k t s q := by
  cases d <;> rfl

@[simp] theorem cell_set_color :
    { cell d c k t s par with color := c' } = cell d c' k t s par := by
  cases d <;> rfl

end Cells

/-! ### Pointers of trees and contexts -/

@[simp] theorem rootPtr_nil : rootPtr .nil = .sentl := rfl

@[simp] theorem rootPtr_node (c : Color) (l : NodeTree) (a : ℕ × ℕ) (r : NodeTree) :
    rootPtr (.node c l a r) = .node a.1 := rfl

@[simp] theorem rootPtr_mk (d : Dir) (c : Color) (a : ℕ × ℕ) (t s : NodeTree) :
    rootPtr (mk d c a t s) = .node a.1 := by cases d <;> rfl

@[simp] theorem rootPtr_fill (f : Frame (ℕ × ℕ)) (t : NodeTree) :
    rootPtr (f.fill t) = .node f.elem.1 := rootPtr_mk ..

@[simp] theorem rootPtr_paint (c : Color) (t : NodeTree) :
    rootPtr (t.paint c) = rootPtr t := by cases t <;> rfl

@[simp] theorem ctxPtr_nil : ctxPtr [] = .sentl := rfl

@[simp] theorem ctxPtr_cons (f : Frame (ℕ × ℕ)) (K : NodeCtx) :
    ctxPtr (f :: K) = .node f.elem.1 := rfl

theorem rootPtr_ne_null (t : NodeTree) : rootPtr t ≠ .null := by
  cases t <;> simp [rootPtr]

theorem rootPtr_eq_sentl {t : NodeTree} : rootPtr t = .sentl ↔ t = .nil := by
  cases t <;> simp [rootPtr]

theorem rootPtr_mem {t : NodeTree} (h : t ≠ .nil) : rootPtr t ∈ addrs t.toList := by
  cases t with
  | nil => exact absurd rfl h
  | node c l a r => simp [rootPtr, addrs]

theorem rootPtr_plug_cons (f : Frame (ℕ × ℕ)) (K : NodeCtx) (t t' : NodeTree) :
    rootPtr (plug (f :: K) t) = rootPtr (plug (f :: K) t') := by
  induction K generalizing f t t' with
  | nil => simp
  | cons g K ih => exact ih g _ _

theorem rootPtr_plug_congr (K : NodeCtx) {t t' : NodeTree} (h : rootPtr t = rootPtr t') :
    rootPtr (plug K t) = rootPtr (plug K t') := by
  cases K with
  | nil => exact h
  | cons f K => exact rootPtr_plug_cons f K t t'

theorem rootPtr_plug_cons_mem (f : Frame (ℕ × ℕ)) (K : NodeCtx) (t : NodeTree) :
    rootPtr (plug (f :: K) t) ∈ addrs (elems (f :: K)) := by
  induction K generalizing f t with
  | nil => simp [addrs, elems]
  | cons g K ih =>
    have := ih g (f.fill t)
    simp only [addrs, elems, map_cons, map_append, mem_cons, mem_append] at this ⊢
    tauto

theorem rootPtr_plug_leaf (K : NodeCtx) (t : NodeTree) :
    rootPtr (plug K t) =
      if rootPtr (plug K .nil) = .sentl then rootPtr t else rootPtr (plug K .nil) := by
  cases K with
  | nil => simp
  | cons f K =>
    have hne : rootPtr (plug (f :: K) .nil) ≠ .sentl := fun he => by
      have hmem := rootPtr_plug_cons_mem f K .nil
      rw [he] at hmem
      simp [addrs] at hmem
    rw [if_neg hne]
    exact rootPtr_plug_cons f K _ _

@[simp] theorem addrs_nil : addrs [] = [] := rfl

@[simp] theorem addrs_cons (a : ℕ × ℕ) (l : List (ℕ × ℕ)) :
    addrs (a :: l) = .node a.1 :: addrs l := rfl

@[simp] theorem addrs_append (l m : List (ℕ × ℕ)) : addrs (l ++ m) = addrs l ++ addrs m :=
  map_append

theorem sentl_notMem_addrs (l : List (ℕ × ℕ)) : Ptr.sentl ∉ addrs l := by
  simp [addrs]

theorem null_notMem_addrs (l : List (ℕ × ℕ)) : Ptr.null ∉ addrs l := by
  simp [addrs]

theorem node_mem_addrs {l : List (ℕ × ℕ)} {n : ℕ} :
    Ptr.node n ∈ addrs l ↔ ∃ k, (n, k) ∈ l := by
  simp [addrs]

theorem addrs_nodup_iff {l : List (ℕ × ℕ)} : (addrs l).Nodup ↔ (l.map Prod.fst).Nodup := by
  have he : addrs l = (l.map Prod.fst).map Ptr.node := by simp [addrs]
  rw [he]
  exact nodup_map_iff fun a b h => Ptr.node.inj h

theorem filter_addr {pre post : List (ℕ × ℕ)} {n k : ℕ}
    (hnd : (addrs (pre ++ (n, k) :: post)).Nodup) :
    (pre ++ (n, k) :: post).filter (fun a => a.1 ≠ n) = pre ++ post := by
  rw [addrs_append, addrs_cons, nodup_append, nodup_cons] at hnd
  obtain ⟨-, ⟨hpost, -⟩, hpre⟩ := hnd
  have hkeep : ∀ l : List (ℕ × ℕ), Ptr.node n ∉ addrs l → l.filter (fun a => a.1 ≠ n) = l := by
    intro l hl
    refine filter_eq_self.mpr fun a ha => ?_
    have hne : a.1 ≠ n := fun e => hl (node_mem_addrs.mpr ⟨a.2, by rwa [← e]⟩)
    simpa using hne
  rw [filter_append, filter_cons, hkeep post hpost,
    hkeep pre fun hh => hpre _ hh _ mem_cons_self rfl]
  simp

/-! ### Shapes -/

@[simp] theorem shape_nil (h : Nodes) (par : Ptr) : Shape h par .nil := trivial

theorem shape_mk {h : Nodes} {par : Ptr} {d : Dir} {c : Color} {a : ℕ × ℕ}
    {t s : NodeTree} :
    Shape h par (mk d c a t s) ↔
      h (.node a.1) = some (cell d c a.2 (rootPtr t) (rootPtr s) par) ∧
        Shape h (.node a.1) t ∧ Shape h (.node a.1) s := by
  cases d with
  | left => exact Iff.rfl
  | right => exact and_congr_right fun _ => and_comm

theorem Shape.congr {h h' : Nodes} {par : Ptr} {t : NodeTree} (hs : Shape h par t)
    (hag : ∀ p ∈ addrs t.toList, h' p = h p) : Shape h' par t := by
  induction t generalizing par with
  | nil => trivial
  | node c l a r ihl ihr =>
    obtain ⟨hc, hl, hr⟩ := hs
    refine ⟨(hag _ (by simp)).trans hc, ihl hl fun p hp => hag p ?_,
      ihr hr fun p hp => hag p ?_⟩
    · simp [hp]
    · simp [hp]

theorem ShapeCtx.congr {h h' : Nodes} {p : Ptr} {K : NodeCtx} (hs : ShapeCtx h p K)
    (hag : ∀ q ∈ addrs (elems K), h' q = h q) : ShapeCtx h' p K := by
  induction K generalizing p with
  | nil => trivial
  | cons f K ih =>
    obtain ⟨hc, hsib, hctx⟩ := hs
    refine ⟨(hag _ (by simp [elems])).trans hc, hsib.congr fun q hq => hag q ?_,
      ih hctx fun q hq => hag q ?_⟩
    · simp [elems, hq]
    · simp [elems, hq]

theorem shape_plug {h : Nodes} {K : NodeCtx} {t : NodeTree} :
    Shape h .sentl (plug K t) ↔ ShapeCtx h (rootPtr t) K ∧ Shape h (ctxPtr K) t := by
  induction K generalizing t with
  | nil => simp [ShapeCtx]
  | cons f K ih =>
    rw [plug_cons, ih, rootPtr_fill, Frame.fill, shape_mk, ShapeCtx]
    constructor
    · rintro ⟨hctx, hc, ht, hs⟩
      exact ⟨⟨hc, hs, hctx⟩, ht⟩
    · rintro ⟨⟨hc, hs, hctx⟩, ht⟩
      exact ⟨hctx, hc, ht, hs⟩

theorem addrs_plug_perm (K : NodeCtx) (t : NodeTree) :
    (addrs (plug K t).toList).Perm (addrs (t.toList ++ elems K)) :=
  (toList_plug_perm K t).map _

theorem nodup_plug {K : NodeCtx} {t : NodeTree} :
    (addrs (plug K t).toList).Nodup ↔ (addrs (t.toList ++ elems K)).Nodup :=
  (addrs_plug_perm K t).nodup_iff

theorem rep_plug {h : Nodes} {root : Ptr} {K : NodeCtx} {t : NodeTree} :
    Rep h root (plug K t) ↔
      root = rootPtr (plug K t) ∧ ShapeCtx h (rootPtr t) K ∧ Shape h (ctxPtr K) t ∧
        (addrs (t.toList ++ elems K)).Nodup := by
  constructor
  · rintro ⟨hr, hs, hn⟩
    obtain ⟨hctx, ht⟩ := shape_plug.mp hs
    exact ⟨hr, hctx, ht, nodup_plug.mp hn⟩
  · rintro ⟨hr, hctx, ht, hn⟩
    exact ⟨hr, shape_plug.mpr ⟨hctx, ht⟩, nodup_plug.mpr hn⟩

theorem mem_addrs_plug (K : NodeCtx) (d : Dir) (c : Color) (a : ℕ × ℕ) (t s : NodeTree) :
    Ptr.node a.1 ∈ addrs (plug K (mk d c a t s)).toList := by
  rw [(addrs_plug_perm K _).mem_iff, addrs_append, mem_append]
  refine .inl (((mk_perm d c a t s).map _).mem_iff.mpr ?_)
  simp

theorem Rep.congr {h h' : Nodes} {root : Ptr} {t : NodeTree} (hr : Rep h root t)
    (hag : ∀ p ∈ addrs t.toList, h' p = h p) : Rep h' root t :=
  ⟨hr.root_eq, hr.shape.congr hag, hr.nodup⟩

theorem Rep.cell {h : Nodes} {root : Ptr} {K : NodeCtx} {d : Dir} {c : Color}
    {a : ℕ × ℕ} {t s : NodeTree} (hr : Rep h root (plug K (Tree.mk d c a t s))) :
    h (.node a.1) = some (FF.cell d c a.2 (rootPtr t) (rootPtr s) (ctxPtr K)) :=
  (shape_mk.mp (rep_plug.mp hr).2.2.1).1

theorem Rep.frame_cell {h : Nodes} {root : Ptr} {f : Frame (ℕ × ℕ)} {K : NodeCtx}
    {t : NodeTree} (hr : Rep h root (plug (f :: K) t)) :
    h (.node f.elem.1) =
      some (FF.cell f.dir f.color f.elem.2 (rootPtr t) (rootPtr f.sib) (ctxPtr K)) :=
  Rep.cell (K := K) hr

theorem Rep.exists_focus {h : Nodes} {root p : Ptr} {t : NodeTree} (hr : Rep h root t)
    (hp : p ∈ addrs t.toList) :
    ∃ K c a l r, t = plug K (.node c l a r) ∧ p = .node a.1 ∧
      h p = some ⟨rootPtr l, rootPtr r, ctxPtr K, c, a.2⟩ := by
  obtain ⟨a, ha, rfl⟩ := mem_map.mp hp
  obtain ⟨K, c, l, r, rfl⟩ := exists_plug_of_mem ha
  exact ⟨K, c, a, l, r, rfl, rfl, Rep.cell (d := .left) hr⟩

theorem Rep.rootPtr_ne_sib {h : Nodes} {root : Ptr} {f : Frame (ℕ × ℕ)} {K : NodeCtx}
    {t : NodeTree} (hr : Rep h root (plug (f :: K) t)) (hne : t ≠ .nil ∨ f.sib ≠ .nil) :
    rootPtr t ≠ rootPtr f.sib := by
  intro he
  have ht : t ≠ .nil := by
    rintro rfl
    exact hne.elim (· rfl) (· (rootPtr_eq_sentl.mp he.symm))
  have hs : f.sib ≠ .nil := fun h0 => ht (rootPtr_eq_sentl.mp (by rw [he, h0, rootPtr_nil]))
  have hn := (rep_plug.mp hr).2.2.2
  rw [addrs_append] at hn
  refine disjoint_of_nodup_append hn (rootPtr_mem ht) ?_
  rw [he]
  simp [elems, rootPtr_mem hs]

theorem Rep.eq_left_iff {h : Nodes} {root : Ptr} {f : Frame (ℕ × ℕ)} {K : NodeCtx}
    {t : NodeTree} (hr : Rep h root (plug (f :: K) t)) (ht : t ≠ .nil ∨ f.sib ≠ .nil)
    (k : ℕ) (q : Ptr) :
    rootPtr t = (FF.cell f.dir f.color k (rootPtr t) (rootPtr f.sib) q).left ↔
      f.dir = .left := by
  have hne := hr.rootPtr_ne_sib ht
  cases f.dir with
  | left => simp [FF.cell]
  | right => simp [FF.cell, hne]

theorem Rep.rootPtr_eq_root_iff {h : Nodes} {root : Ptr} {K : NodeCtx} {t : NodeTree}
    (hr : Rep h root (plug K t)) : rootPtr t = root ↔ K = [] := by
  obtain ⟨hroot, -, -, hn⟩ := rep_plug.mp hr
  constructor
  · intro he
    cases K with
    | nil => rfl
    | cons f K =>
      have hmem : rootPtr t ∈ addrs (elems (f :: K)) := by
        rw [he, hroot]
        exact rootPtr_plug_cons_mem f K t
      have ht : t ≠ .nil := by
        rintro rfl
        exact sentl_notMem_addrs _ hmem
      rw [addrs_append] at hn
      exact (disjoint_of_nodup_append hn (rootPtr_mem ht) hmem).elim
  · rintro rfl
    exact hroot.symm

/-! ### The invariant of a tree -/

/-- The nodes are in the order of their keys. -/
def KeySorted (l : List (ℕ × ℕ)) : Prop := l.Pairwise fun a b => a.2 ≤ b.2

/-- The sentinel is in memory and black. -/
def SentlBlack (h : Nodes) : Prop := ∃ s, h .sentl = some s ∧ s.color = .black

/-- **The invariant of `ffrbtree`**: the tree in memory is a red-black tree, its root and the
sentinel are black, and `len` counts at least its nodes. The order of the keys is apart. -/
structure Ffrbtree.Inv (tr : Ffrbtree) (t : NodeTree) : Prop where
  rep : Rep tr.nodes tr.root t
  sentl : SentlBlack tr.nodes
  isRB : ∃ n, IsRB t n
  root_black : t.rootColor = .black
  len_le : t.toList.length ≤ tr.len

theorem Ffrbtree.Inv.set_key {tr : Ffrbtree} {t : NodeTree} (hi : tr.Inv t) {n : ℕ}
    (hn : Ptr.node n ∉ addrs t.toList) (v : FfrbtNode) :
    ({ tr with nodes := tr.nodes.set (.node n) v } : Ffrbtree).Inv t := by
  obtain ⟨s, hs, hsc⟩ := hi.sentl
  exact ⟨hi.rep.congr fun q hq => Heap.set_of_ne _ _ fun e => hn (e ▸ hq),
    ⟨s, by simpa [Heap.set] using hs, hsc⟩, hi.isRB, hi.root_black, hi.len_le⟩

end FF
