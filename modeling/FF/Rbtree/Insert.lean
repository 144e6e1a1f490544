import FF.Rbtree.Find

/-!
# Insertion

`ffrbt_insert` on a represented tree: the new node becomes a leaf of the binary tree, and the
fix-up climbs from it to the root. The loop keeps the tree in memory a red-black tree but for
one place: the focused red node may have a red parent.
-/

namespace FF

open List Option

open FF.Tree FF.Ctx

/-! ### The place of a new node -/

theorem KeySorted.insert {n key : ℕ} {c : Color} {K : NodeCtx}
    (hb : ∀ f ∈ K, Below key f) (hs : KeySorted (plug K .nil).toList) :
    KeySorted (plug K (.node c .nil (n, key) .nil)).toList := by
  rw [toList_plug, toList_nil, append_nil] at hs
  obtain ⟨h1, h2⟩ := Below.bounds hb hs
  obtain ⟨hs1, hs2, hs12⟩ := pairwise_append.mp hs
  simp only [KeySorted, toList_plug, toList_node, toList_nil, nil_append, append_assoc,
    singleton_append, pairwise_append, pairwise_cons, mem_cons]
  refine ⟨hs1, ⟨h2, hs2⟩, fun x hx y hy => ?_⟩
  rcases hy with rfl | hy
  · exact h1 x hx
  · exact hs12 x hx y hy

/-- **The descent of `fftree_insert`** ends at an empty child, and passes every node below its
start on the side that its key asks for. -/
theorem insertLoop_spec {fuel : ℕ} {h : Nodes} {root nod : Ptr} {K : NodeCtx}
    {t : NodeTree} {nn : FfrbtNode} (hr : Rep h root (plug K t)) (ht : t ≠ .nil)
    (hn : h nod = some nn) (hfuel : t.toList.length < fuel) :
    ∃ f K', insertLoop fuel h nod (rootPtr t) = some (f.dir, .node f.elem.1) ∧
      plug K t = plug (f :: K' ++ K) .nil ∧ ∀ g ∈ f :: K', Below nn.key g := by
  induction fuel generalizing K t with
  | zero => omega
  | succ fuel ih =>
    obtain ⟨key, hkey⟩ : ∃ key, h (rootPtr t) = some key := by
      obtain ⟨c, a, t₁, t₂, rfl⟩ := exists_mk .left ht
      exact ⟨_, by rw [rootPtr_mk]; exact hr.cell⟩
    obtain ⟨d, hd⟩ : ∃ d, d = if nn.key < key.key then Dir.left else Dir.right := ⟨_, rfl⟩
    obtain ⟨c, a, t₁, t₂, rfl⟩ := exists_mk d ht
    rw [rootPtr_mk] at hkey ⊢
    obtain rfl := some.inj (hkey.symm.trans hr.cell)
    rw [cell_key] at hd
    have hbelow : Below nn.key ⟨d, c, a, t₂⟩ := by
      by_cases hlt : nn.key < a.2
      · rw [if_pos hlt] at hd
        simpa [Below, hd] using hlt
      · rw [if_neg hlt] at hd
        simpa [Below, hd] using hlt
    by_cases h0 : t₁ = .nil
    · subst h0
      refine ⟨⟨d, c, a, t₂⟩, [], ?_, rfl, by simpa using hbelow⟩
      simp [insertLoop, hn, hkey, ← hd]
    have hlen : t₁.toList.length < fuel := by
      have := (mk_perm d c a t₁ t₂).length_eq
      simp only [length_cons, length_append] at this
      omega
    obtain ⟨f, K', he, hplug, hall⟩ := ih (K := ⟨d, c, a, t₂⟩ :: K) hr h0 hlen
    refine ⟨f, K' ++ [⟨d, c, a, t₂⟩], ?_, by simpa [Frame.fill] using hplug, fun g hg => ?_⟩
    · rw [← he]
      simp [insertLoop, hn, hkey, ← hd, rootPtr_eq_sentl, h0]
    · simp only [mem_cons, mem_append, not_mem_nil, or_false] at hg hall
      rcases hg with hg | hg | rfl
      · exact hall g (.inl hg)
      · exact hall g (.inr hg)
      · exact hbelow

/-! ### One round of the fix-up -/

/-- The last three writes of a round that ends the fix-up: a node and its parent exchange
their places and take the colours black and red. -/
theorem insertSide_finish {h : Nodes} {root : Ptr} {K : NodeCtx} {d : Dir} {cg cm : Color}
    {g m : ℕ × ℕ} {a b u : NodeTree}
    (hr : Rep h root (plug K (mk d cg g (mk d cm m a b) u))) :
    ∃ h₁ h₂ h₃ root', setColor h (.node m.1) .black = some h₁ ∧
      setColor h₁ (.node g.1) .red = some h₂ ∧
      rotate d.other h₂ root (.node g.1) = some (h₃, root') ∧
      Evolves h (plug K (mk d cg g (mk d cm m a b) u)) h₃ root'
        (plug K (mk d .black m a (mk d .red g b u))) := by
  obtain ⟨h₁, he₁, e₁⟩ := setColor_spec (K := ⟨d, cg, g, u⟩ :: K) .black hr
  obtain ⟨h₂, he₂, e₂⟩ := setColor_spec (K := K) .red e₁.rep
  obtain ⟨h₃, root', he₃, e₃⟩ := rotate_up_spec e₂.rep
  exact ⟨h₁, h₂, h₃, root', he₁, he₂, he₃, e₁.trans (e₂.trans e₃)⟩

/-- **One round of the fix-up.** The focused tree `t` is red and so is its parent; the round
ends with the grandparent's place taken by a black tree, or goes on with a red one. -/
theorem insertSide_spec {h : Nodes} {root : Ptr} {K : NodeCtx} {d e : Dir} {p g : ℕ × ℕ}
    {t s u : NodeTree} {n : ℕ}
    (hr : Rep h root (plug (⟨d, .red, p, s⟩ :: ⟨e, .black, g, u⟩ :: K) t))
    (hb : SentlBlack h) (hctx : CtxRB (⟨d, .red, p, s⟩ :: ⟨e, .black, g, u⟩ :: K) n)
    (ht : IsRB t n) (hc : t.rootColor = .red) :
    ∃ h' root' next t', insertSide e h root (rootPtr t) = some (h', root', next) ∧
      Evolves h (plug (⟨d, .red, p, s⟩ :: ⟨e, .black, g, u⟩ :: K) t) h' root'
        (plug K t') ∧
      CtxRB K (n + 1) ∧ IsRB t' (n + 1) ∧
      ((next = none ∧ t'.rootColor = .black) ∨
        (next = some (rootPtr t') ∧ t'.rootColor = .red)) := by
  have ht0 : t ≠ .nil := by
    rintro rfl
    simp at hc
  obtain ⟨c, a, t₁, t₂, rfl⟩ := exists_mk e ht0
  obtain rfl : c = .red := by simpa using hc
  have hnod := hr.cell
  have hp := hr.frame_cell
  have hg := Rep.frame_cell (K := K) (f := ⟨e, .black, g, u⟩) hr
  obtain ⟨nu, hu, hnu⟩ := Shape.color (rep_plug.mp hr).2.1.2.2.2.1 hb
  rw [ctxPtr_cons] at hnod
  rw [rootPtr_mk, ctxPtr_cons] at hp
  rw [rootPtr_fill] at hg
  rw [rootPtr_mk]
  simp only [insertSide, hnod, cell_parent, hp, hg, cell_child_other, hu, hnu,
    bind_eq_bind, bind_some, Option.pure_def]
  rcases u.rootColor.eq_black_or_red with huc | huc
  · rw [if_pos huc]
    rcases Dir.eq_or_eq_other e d with rfl | rfl
    · -- the node, its parent and its grandparent are in line
      have hne : Ptr.node a.1 ≠ rootPtr s := by
        simpa using hr.rootPtr_ne_sib (.inl (by simp))
      obtain ⟨h₁, h₂, h₃, root', he₁, he₂, he₃, ev⟩ := insertSide_finish (K := K) hr
      obtain ⟨hk, ht'⟩ := hctx.rotate_outer ht huc
      refine ⟨h₃, root', none, _, ?_, ev, hk, ht', .inl ⟨rfl, rootColor_mk ..⟩⟩
      simp [hne, hnod, he₁, he₂, he₃]
    -- bent: a rotation at the parent lines them up
    rw [plug_flip, Dir.other_other, plug_cons] at hr ⊢
    obtain ⟨h₀, root₀, he₀, ev₀⟩ := rotate_spec hr
    have hp₀ := Rep.cell (K := ⟨e, .red, a, t₂⟩ :: ⟨e, .black, g, u⟩ :: K) ev₀.rep
    obtain ⟨h₁, h₂, h₃, root', he₁, he₂, he₃, ev⟩ := insertSide_finish (K := K) ev₀.rep
    obtain ⟨hk, ht'⟩ := hctx.rotate_inner ht huc
    refine ⟨h₃, root', none, _, ?_, ev₀.trans ev, hk, ht', .inl ⟨rfl, rootColor_mk ..⟩⟩
    simp [he₀, hp₀, he₁, he₂, he₃]
  -- both parent and uncle are red
  rw [if_neg (by simp [huc])]
  have hu0 : u ≠ .nil := by
    rintro rfl
    simp at huc
  obtain ⟨cu, b, u₁, u₂, rfl⟩ := exists_mk e hu0
  obtain ⟨h₁, he₁, ev₁⟩ := setColor_spec (K := ⟨e, .black, g, mk e cu b u₁ u₂⟩ :: K)
    .black hr
  have hr₁ := ev₁.rep
  rw [plug_flip] at hr₁
  obtain ⟨h₂, he₂, ev₂⟩ := setColor_spec .black hr₁
  rw [plug_flip, ← plug_flip e, Dir.other_other] at ev₂
  obtain ⟨h₃, he₃, ev₃⟩ := setColor_spec (K := K) .red ev₂.rep
  obtain ⟨hk, ht'⟩ := hctx.recolor ht huc
  rw [paint_mk] at ht'
  refine ⟨h₃, root, some (.node g.1), _, ?_, ev₁.trans (ev₂.trans ev₃), hk, ht',
    .inr ⟨by simp, rootColor_mk ..⟩⟩
  simp [he₁, he₂, he₃]

/-- **The fix-up loop ends**, with a tree that is red-black once its root is painted black. -/
theorem insertFixup_spec {fuel : ℕ} {h : Nodes} {root : Ptr} {K : NodeCtx} {t : NodeTree}
    {n : ℕ} (hr : Rep h root (plug K t)) (hb : SentlBlack h) (hctx : CtxRB K n)
    (ht : IsRB t n) (hc : t.rootColor = .red) (hfuel : K.length < fuel) :
    ∃ h' root' t' m, insertFixup fuel h root (rootPtr t) = some (h', root') ∧
      Evolves h (plug K t) h' root' t' ∧ IsRB (t'.paint .black) m := by
  induction fuel generalizing h root K t n with
  | zero => omega
  | succ fuel ih =>
    have ht0 : t ≠ .nil := by
      rintro rfl
      simp at hc
    obtain ⟨c, a, t₁, t₂, rfl⟩ := exists_mk .left ht0
    have hnod := hr.cell
    rw [rootPtr_mk]
    match K, hctx, hr, hnod with
    | [], _, hr, hnod =>
      -- the root may be red here
      obtain ⟨s, hs, hsc⟩ := hb
      refine ⟨h, root, _, _, ?_, .refl hr, ht.paint_black hc⟩
      simp [insertFixup, hnod, hs, hsc]
    | ⟨d, .black, p, s⟩ :: K, hctx, hr, hnod =>
      have hp := hr.frame_cell
      obtain ⟨⟨m, hm⟩, hroot⟩ := isRB_plug hctx ht fun _ => rfl
      refine ⟨h, root, _, m, ?_, .refl hr, by rwa [paint_of_rootColor hroot]⟩
      simp [insertFixup, hnod, hp]
    | [⟨d, .red, p, s⟩], hctx, _, _ => exact hctx.red_inv.2.1.elim
    | ⟨d, .red, p, s⟩ :: ⟨e, c', g, u⟩ :: K, hctx, hr, hnod =>
      obtain rfl : c' = .black := hctx.red_inv.2.1
      have hp := hr.frame_cell
      have hg := Rep.frame_cell (K := K) (f := ⟨e, .black, g, u⟩) hr
      have hside := Rep.eq_left_iff (K := K) (f := ⟨e, .black, g, u⟩) hr
        (.inl (mk_ne_nil _ _ _ _ _)) g.2 (ctxPtr K)
      obtain ⟨h₁, root₁, next, t', he₁, ev₁, hk, ht', hnext⟩ :=
        insertSide_spec hr hb hctx ht hc
      rw [rootPtr_mk] at he₁
      rw [rootPtr_fill] at hg hside
      have hround : insertFixup (fuel + 1) h root (.node a.1) =
          next.elim (some (h₁, root₁)) (insertFixup fuel h₁ root₁) := by
        simp only [insertFixup, hnod, hp, hg, ctxPtr_cons, cell_parent, cell_color, hside,
          bind_eq_bind, bind_some]
        cases e <;> simp only [he₁, if_true, if_false, reduceCtorEq, bind_some] <;>
          cases next <;> rfl
      rw [hround]
      rcases hnext with ⟨rfl, hblack⟩ | ⟨rfl, hred⟩
      · obtain ⟨⟨m, hm⟩, hroot⟩ := isRB_plug hk ht' (by simp [hblack])
        exact ⟨h₁, root₁, _, m, rfl, ev₁, by rwa [paint_of_rootColor hroot]⟩
      · obtain ⟨h₂, root₂, t'', m, he₂, ev₂, hm⟩ := ih ev₁.rep (ev₁.sentlBlack hb) hk ht'
          hred (by simp only [length_cons] at hfuel; omega)
        exact ⟨h₂, root₂, t'', m, he₂, ev₁.trans ev₂, hm⟩

/-! ### The whole insertion -/

/-- **`fftree_insert`** from the node at the hole of `K`: the new node becomes a leaf. -/
theorem fftreeInsert_spec {fuel n : ℕ} {h : Nodes} {root : Ptr} {K : NodeCtx} {t : NodeTree}
    {nn : FfrbtNode} (hr : Rep h root (plug K t)) (ht : t = .nil → K = [])
    (hn : h (.node n) = some nn) (hnew : .node n ∉ addrs (plug K t).toList)
    (hfuel : t.toList.length < fuel) :
    ∃ h' K', fftreeInsert fuel h (.node n) (rootPtr t) =
        some (h', if rootPtr t = .sentl then .node n else rootPtr t) ∧
      plug K t = plug (K' ++ K) .nil ∧ (∀ g ∈ K', Below nn.key g) ∧
      Rep h' (rootPtr (plug (K' ++ K) (.node nn.color .nil (n, nn.key) .nil)))
        (plug (K' ++ K) (.node nn.color .nil (n, nn.key) .nil)) ∧
      Heap.EqOff (.node n :: addrs (plug K t).toList) h h' := by
  by_cases h0 : t = .nil
  · subst h0
    obtain rfl := ht rfl
    obtain ⟨h₁, hh₁⟩ : ∃ h₁, h₁ = h.set (.node n) { nn with parent := .sentl } := ⟨_, rfl⟩
    have hn₁ : h₁ (.node n) = some { nn with parent := .sentl } := by rw [hh₁, Heap.set_self]
    refine ⟨h₁.set (.node n) ⟨.sentl, .sentl, .sentl, nn.color, nn.key⟩, [], ?_, rfl, by simp,
      ⟨rfl, ⟨by simp, trivial, trivial⟩, by simp⟩, fun p hp => ?_⟩
    · simp [fftreeInsert, setParent, Heap.modify_of_some _ hn, ← hh₁, Heap.modify_of_some _ hn₁]
    · have hpn : p ≠ .node n := fun e => hp (by simp [e])
      rw [Heap.set_of_ne _ _ hpn, hh₁, Heap.set_of_ne _ _ hpn]
  obtain ⟨f, K', he, hplug, hall⟩ := insertLoop_spec hr h0 hn hfuel
  rw [hplug] at hr hnew
  obtain ⟨hroot, hctx, -, hdup⟩ := rep_plug.mp hr
  rw [(addrs_plug_perm _ _).mem_iff] at hnew
  obtain ⟨h₁, he₁, hctx₁, hag₁⟩ := linkHole_spec (.node n) hctx hdup
  have hfn : Ptr.node n ≠ .node f.elem.1 := fun e => hnew (by simp [elems, e])
  have hn₁ := (hag₁ _ hfn).trans hn
  obtain ⟨h₂, hh₂⟩ : ∃ h₂, h₂ = h₁.set (.node n) { nn with parent := .node f.elem.1 } :=
    ⟨_, rfl⟩
  have hn₂ : h₂ (.node n) = some { nn with parent := .node f.elem.1 } := by
    rw [hh₂, Heap.set_self]
  obtain ⟨h₃, hh₃⟩ : ∃ h₃, h₃ = h₂.set (.node n)
      ⟨.sentl, .sentl, .node f.elem.1, nn.color, nn.key⟩ := ⟨_, rfl⟩
  have hag₃ : ∀ p, p ≠ .node n → h₃ p = h₁ p := fun p hp => by
    rw [hh₃, Heap.set_of_ne _ _ hp, hh₂, Heap.set_of_ne _ _ hp]
  refine ⟨h₃, f :: K', ?_, hplug, hall, rep_plug.mpr ⟨rfl, ?_, ⟨?_, trivial, trivial⟩, ?_⟩,
    fun p hp => ?_⟩
  · simp only [fftreeInsert, rootPtr_eq_sentl, h0, if_false, he, bind_eq_bind,
      bind_some, Option.pure_def, he₁]
    rw [setParent, Heap.modify_of_some _ hn₁, ← hh₂]
    simp only [bind_some]
    rw [Heap.modify_of_some _ hn₂, hh₃]
    rfl
  · exact hctx₁.congr fun p hp => hag₃ p fun e => hnew (e ▸ hp)
  · rw [hh₃, Heap.set_self]
    rfl
  · simpa using ⟨hnew, hdup⟩
  · rw [hplug, mem_cons, (addrs_plug_perm _ _).mem_iff] at hp
    simp only [toList_nil, nil_append, not_or] at hp
    rw [hag₃ p hp.1, hag₁ p fun e => hp.2 (by simp [elems, e])]

/-- **`ffrbt_insert`** keeps the invariant and adds the node to the tree. -/
theorem ffrbtInsert_spec {tr : Ffrbtree} {t : NodeTree} {n : ℕ} {nn : FfrbtNode} {parent : Ptr}
    (hi : tr.Inv t) (hsort : KeySorted t.toList) (hn : tr.nodes (.node n) = some nn)
    (hnew : .node n ∉ addrs t.toList) (hpar : Ancestor nn.key t parent) :
    ∃ tr' t', ffrbtInsert tr (.node n) parent = some tr' ∧ tr'.Inv t' ∧
      KeySorted t'.toList ∧ t'.toList.Perm ((n, nn.key) :: t.toList) ∧ tr'.len = tr.len + 1 ∧
      Heap.EqOff (.node n :: addrs t.toList) tr.nodes tr'.nodes := by
  obtain ⟨len, root, h⟩ := tr
  obtain ⟨hr, hb, ⟨m, hm⟩, hblack, hlen⟩ := hi
  dsimp only at hr hb hn hlen
  -- the start of the descent
  obtain ⟨K, s, rfl, hs, hstart, hroot', hbelow⟩ : ∃ K s, t = plug K s ∧
      (s = .nil → K = []) ∧
      (if parent ≠ .null ∧ parent ≠ .sentl then parent else root) = rootPtr s ∧
      (¬(parent ≠ .null ∧ parent ≠ .sentl) → K = []) ∧ ∀ f ∈ K, Below nn.key f := by
    rcases hpar with rfl | rfl | ⟨K, s, rfl, hs, rfl, hb⟩
    · exact ⟨[], t, rfl, fun _ => rfl, by simpa using hr.root_eq, fun _ => rfl, by simp⟩
    · exact ⟨[], t, rfl, fun _ => rfl, by simpa using hr.root_eq, fun _ => rfl, by simp⟩
    · have hp : rootPtr s ≠ .null ∧ rootPtr s ≠ .sentl :=
        ⟨rootPtr_ne_null s, fun e => hs (rootPtr_eq_sentl.mp e)⟩
      exact ⟨K, s, rfl, fun e => absurd e hs, if_pos hp, fun e => absurd hp e, hb⟩
  have hsize : s.toList.length < len + 1 := by
    have := (toList_plug_perm K s).length_eq
    rw [length_append] at this
    omega
  obtain ⟨h₁, K', he₁, hplug, hall, hr₁, hoff₁⟩ := fftreeInsert_spec hr hs hn hnew hsize
  have hbelow' : ∀ g ∈ K' ++ K, Below nn.key g := fun g hg =>
    (mem_append.mp hg).elim (hall g) (hbelow g)
  have hroot₁ : (if parent ≠ .null ∧ parent ≠ .sentl then root
      else if rootPtr s = .sentl then .node n else rootPtr s) =
      rootPtr (plug (K' ++ K) (.node nn.color .nil (n, nn.key) .nil)) := by
    rw [rootPtr_plug_leaf, ← hplug, rootPtr_node]
    by_cases hp : parent ≠ .null ∧ parent ≠ .sentl
    · have hs0 : rootPtr (plug K s) ≠ .sentl := by
        rw [if_pos hp] at hstart
        intro he
        obtain ⟨-, rfl⟩ := plug_eq_nil (rootPtr_eq_sentl.mp he)
        exact hp.2 hstart
      rw [if_pos hp, if_neg hs0, hr.root_eq]
    · rw [if_neg hp, hroot' hp]
      rfl
  -- the node becomes red
  obtain ⟨h₂, he₂, ev₂⟩ := setColor_spec (d := .left) (a := (n, nn.key)) (t := .nil)
    (s := .nil) .red hr₁
  have hb₁ : SentlBlack h₁ := by
    obtain ⟨c, hc, hcb⟩ := hb
    exact ⟨c, (hoff₁ _ (by simp [sentl_notMem_addrs])).trans hc, hcb⟩
  -- the fix-up
  obtain ⟨k, hctx, ht, -⟩ := ctxRB_of_plug (hplug ▸ hm) (hplug ▸ hblack)
  obtain rfl : k = 0 := by cases ht; rfl
  have hleaf : IsRB (mk .left .red (n, nn.key) .nil .nil) 0 :=
    isRB_mk_red.mpr ⟨.nil, .nil, rfl, rfl⟩
  have hlen' : (K' ++ K).length < len + 1 := by
    have := length_le_plug (K' ++ K) (.nil : NodeTree)
    rw [hplug] at hlen
    omega
  obtain ⟨h₃, root₃, t₃, m₃, he₃, ev₃, hrb₃⟩ := insertFixup_spec ev₂.rep (ev₂.sentlBlack hb₁)
    hctx hleaf (rootColor_mk ..) hlen'
  have hperm : t₃.toList.Perm ((n, nn.key) :: (plug K s).toList) := by
    rw [ev₃.toList_eq, hplug]
    refine (toList_plug_perm _ _).trans (List.Perm.trans ?_
      ((toList_plug_perm (K' ++ K) .nil).symm.cons _))
    simp [mk]
  -- the root becomes black
  have ht₃ : t₃ ≠ .nil := by
    rintro rfl
    simpa using hperm.length_eq
  obtain ⟨c, a, u, v, rfl⟩ := exists_mk .left ht₃
  obtain ⟨h₄, he₄, ev₄⟩ := setColor_spec (K := []) .black ev₃.rep
  rw [← rootPtr_mk .left c a u v, ← ev₃.rep.root_eq] at he₄
  simp only [plug_nil] at ev₄
  have ev := ev₂.trans (ev₃.trans ev₄)
  refine ⟨⟨len + 1, root₃, h₄⟩, _, ?_,
    ⟨ev.rep, ev.sentlBlack hb₁, ⟨m₃, by simpa using hrb₃⟩, by simp, ?_⟩, ?_, ?_, rfl, ?_⟩
  · rw [rootPtr_mk] at he₃
    simp only [ffrbtInsert, hstart, he₁, bind_eq_bind, bind_some, he₂, hroot₁,
      he₃, he₄, Option.pure_def]
  · rw [ev₄.toList_eq, hperm.length_eq]
    exact Nat.succ_le_succ hlen
  · rw [ev.toList_eq]
    exact KeySorted.insert hbelow' (hplug ▸ hsort)
  · rw [ev₄.toList_eq]
    exact hperm
  · refine hoff₁.trans (ev.eqOff.mono ?_)
    intro p hp
    rw [(addrs_plug_perm _ _).mem_iff] at hp
    rw [mem_cons, hplug, (addrs_plug_perm _ _).mem_iff]
    simpa [mk] using hp

end FF
