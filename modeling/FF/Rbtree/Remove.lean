import FF.Rbtree.Find

/-!
# Removal

`ffrbt_rm` on a represented tree: `tree_rm` unlinks the node and leaves the focus at the
subtree that moved up, and when a black node was lost the fix-up climbs from there. The
subtree in focus may be empty; its parent is then read from the sentinel, whose parent link
`tree_rm` has set.
-/

namespace FF

open List

open FF.Tree FF.Ctx

/-! ### One round of the fix-up -/

/-- The last writes of a round that ends the fix-up, once the far nephew `b` is red or has just
been made the far nephew: the sibling `q` takes the place and the colour of the parent `p`. -/
theorem removeSide_finish {h : Nodes} {root : Ptr} {K : NodeCtx} {d : Dir}
    {c cq cb : Color} {p q b : ℕ × ℕ} {t s u₁ u₂ : NodeTree}
    (hr : Rep h root (plug K (mk d c p t (mk d cq q s (mk d cb b u₁ u₂))))) :
    ∃ np h₁ h₂ nq h₃ h₄ root', h (.node p.1) = some np ∧ np.color = c ∧
      setColor h (.node q.1) c = some h₁ ∧ setColor h₁ (.node p.1) .black = some h₂ ∧
      h₂ (.node q.1) = some nq ∧ nq.child d.other = .node b.1 ∧
      setColor h₂ (.node b.1) .black = some h₃ ∧
      rotate d h₃ root (.node p.1) = some (h₄, root') ∧
      Evolves h (plug K (mk d c p t (mk d cq q s (mk d cb b u₁ u₂)))) h₄ root'
        (plug K (mk d c q (mk d .black p t s) (mk d .black b u₁ u₂))) := by
  have hp := hr.cell
  rw [← plug_mk_other] at hr
  obtain ⟨h₁, he₁, ev₁⟩ := setColor_spec c hr
  rw [plug_mk_other, plug_mk_other] at ev₁
  obtain ⟨h₂, he₂, ev₂⟩ := setColor_spec .black ev₁.rep
  have hr₂ := ev₂.rep
  rw [← plug_mk_other] at hr₂
  have hq := hr₂.cell
  rw [← plug_mk_other] at hr₂
  obtain ⟨h₃, he₃, ev₃⟩ := setColor_spec .black hr₂
  simp only [plug_mk_other] at ev₃
  obtain ⟨h₄, root', he₄, ev₄⟩ := rotate_spec ev₃.rep
  exact ⟨_, h₁, h₂, _, h₃, h₄, root', hp, cell_color .., he₁, he₂, hq, by simp, he₃, he₄,
    ev₁.trans (ev₂.trans (ev₃.trans ev₄))⟩

/-- The result of a round of the fix-up at the parent `p`: finished, or to be continued at the
place of `p`, which is no deeper than before unless it holds a red node. -/
def RoundResult (K : NodeCtx) (p : ℕ × ℕ) (fin : Bool) (K' : NodeCtx) (t' : NodeTree) :
    Prop :=
  (fin = true ∧ ∃ k, CtxRB K' k ∧ IsRB t' k ∧ (t'.rootColor = .red → RedOk K')) ∨
    (fin = false ∧ rootPtr t' = .node p.1 ∧ (∃ k, CtxRB K' (k + 1) ∧ Short t' k) ∧
      (t'.rootColor = .black → K'.length ≤ K.length))

/-- **A round of the fix-up with a black sibling.** -/
theorem removeBlackSib_spec {h : Nodes} {root : Ptr} {K : NodeCtx} {d : Dir} {c : Color}
    {p q : ℕ × ℕ} {t s₁ s₂ : NodeTree} {n : ℕ}
    (hr : Rep h root (plug K (mk d c p t (mk d .black q s₁ s₂)))) (hb : SentlBlack h)
    (hctx : CtxRB (⟨d, c, p, mk d .black q s₁ s₂⟩ :: K) (n + 1)) (ht : IsRB t n) :
    ∃ h' root' fin t', removeBlackSib d h root (.node p.1) (.node q.1) = some (h', root', fin) ∧
      Evolves h (plug K (mk d c p t (mk d .black q s₁ s₂))) h' root' (plug K t') ∧
      RoundResult K p fin K t' ∧ (fin = false → c = .red → t'.rootColor = .red) := by
  have hr' := hr
  rw [← plug_mk_other] at hr'
  have hq := hr'.cell
  obtain ⟨-, hs₁, hs₂⟩ := shape_mk.mp (rep_plug.mp hr').2.2.1
  obtain ⟨n₁, hn₁, hc₁⟩ := hs₁.color hb
  obtain ⟨n₂, hn₂, hc₂⟩ := hs₂.color hb
  simp only [removeBlackSib, hq, cell_child, cell_child_other, hn₁, hn₂, hc₁, hc₂,
    Option.bind_eq_bind, Option.bind_some, Option.pure_def]
  rcases s₂.rootColor.eq_black_or_red with h2c | h2c
  · rcases s₁.rootColor.eq_black_or_red with h1c | h1c
    · -- both nephews are black
      obtain ⟨h₁, he₁, ev₁⟩ := setColor_spec .red hr'
      rw [plug_mk_other, plug_mk_other] at ev₁
      obtain ⟨k, hk, hshort⟩ := hctx.black_nephews ht h1c h2c
      refine ⟨h₁, root, false, _, ?_, ev₁, .inr ⟨rfl, rootPtr_mk .., ⟨k, hk, hshort⟩,
        fun _ => le_rfl⟩, fun _ hc => by simpa using hc⟩
      simp [h1c, h2c, he₁]
    -- only the near nephew is red
    have h10 : s₁ ≠ .nil := by
      rintro rfl
      simp at h1c
    obtain ⟨cv, v, u₁, u₂, rfl⟩ := exists_mk d h10
    obtain rfl : cv = .red := by simpa using h1c
    obtain ⟨h₁, he₁, ev₁⟩ := setColor_spec (K := ⟨d, .black, q, s₂⟩ ::
      ⟨d.other, c, p, t⟩ :: K) .black hr'
    obtain ⟨h₂, he₂, ev₂⟩ := setColor_spec (K := ⟨d.other, c, p, t⟩ :: K) .red ev₁.rep
    obtain ⟨h₃, root₃, he₃, ev₃⟩ := rotate_up_spec ev₂.rep
    have ev := ev₁.trans (ev₂.trans ev₃)
    simp only [plug_cons, Frame.fill, mk_other] at ev
    have hp₃ := ev.rep.cell
    obtain ⟨np, h₄, h₅, nq, h₆, h₇, root', hp, hpc, he₄, he₅, hq, hqb, he₆, he₇, ev'⟩ :=
      removeSide_finish ev.rep
    refine ⟨h₇, root', true, _, ?_, ev.trans ev', .inl ⟨rfl, hctx.near_nephew ht⟩,
      fun h0 => by simp at h0⟩
    simp [h2c, he₁, he₂, he₃, hp₃, he₄, he₅, hq, hqb, he₆, he₇]
  -- the far nephew is red
  have h20 : s₂ ≠ .nil := by
    rintro rfl
    simp at h2c
  obtain ⟨cb, b, u₁, u₂, rfl⟩ := exists_mk d h20
  obtain rfl : cb = .red := by simpa using h2c
  obtain ⟨np, h₁, h₂, nq, h₃, h₄, root', hp, hpc, he₁, he₂, hq', hqb, he₃, he₄, ev⟩ :=
    removeSide_finish hr
  refine ⟨h₄, root', true, _, ?_, ev, .inl ⟨rfl, hctx.far_nephew ht⟩,
    fun h0 => by simp at h0⟩
  simp [hp, hpc, he₁, he₂, hq', hqb, he₃, he₄]

/-- **One round of the fix-up.** -/
theorem removeSide_spec {h : Nodes} {root : Ptr} {K : NodeCtx} {d : Dir} {c : Color}
    {p : ℕ × ℕ} {t s : NodeTree} {n : ℕ}
    (hr : Rep h root (plug (⟨d, c, p, s⟩ :: K) t)) (hb : SentlBlack h)
    (hctx : CtxRB (⟨d, c, p, s⟩ :: K) (n + 1)) (ht : IsRB t n) :
    ∃ h' root' fin K' t', removeSide d h root (.node p.1) = some (h', root', fin) ∧
      Evolves h (plug (⟨d, c, p, s⟩ :: K) t) h' root' (plug K' t') ∧
      RoundResult K p fin K' t' := by
  obtain ⟨cs, q, s₁, s₂, rfl⟩ := exists_mk d hctx.sib_ne_nil
  have hp := hr.frame_cell
  have hr' := hr
  rw [plug_flip] at hr'
  have hq := hr'.cell
  simp only [removeSide, hp, hq, cell_child_other, rootPtr_mk, cell_color, Option.bind_eq_bind,
    Option.bind_some]
  rcases cs.eq_black_or_red with rfl | rfl
  · obtain ⟨h', root', fin, t', he, ev, hres, -⟩ := removeBlackSib_spec hr hb hctx ht
    exact ⟨h', root', fin, K, t', by simpa using he, ev, hres⟩
  -- a red sibling: the rotation puts one of the nephews in its place, which is black
  obtain ⟨rfl, h1c, hctx'⟩ := hctx.red_sibling
  obtain ⟨h₁, he₁, ev₁⟩ := setColor_spec .black hr'
  rw [plug_mk_other, plug_mk_other] at ev₁
  obtain ⟨h₂, he₂, ev₂⟩ := setColor_spec .red ev₁.rep
  obtain ⟨h₃, root₃, he₃, ev₃⟩ := rotate_spec ev₂.rep
  have ev := ev₁.trans (ev₂.trans ev₃)
  obtain ⟨cs₁, q₁, v₁, v₂, rfl⟩ := exists_mk d hctx'.sib_ne_nil
  obtain rfl : cs₁ = .black := by simpa using h1c
  have hp₃ := Rep.cell (K := ⟨d, .black, q, s₂⟩ :: K) ev.rep
  obtain ⟨h₄, root₄, fin, t', he₄, ev₄, hres, hred⟩ := removeBlackSib_spec
    (K := ⟨d, .black, q, s₂⟩ :: K) ev.rep (ev.sentlBlack hb) hctx' ht
  refine ⟨h₄, root₄, fin, _, t', ?_, ev.trans ev₄, ?_⟩
  · simp [he₁, he₂, he₃, hp₃, he₄]
  · rcases hres with hres | ⟨hfin, hptr, hk, -⟩
    · exact .inl hres
    · refine .inr ⟨hfin, hptr, hk, fun hblack => ?_⟩
      exact absurd (hblack.symm.trans (hred hfin rfl)) (by decide)

/-! ### The fix-up loop -/

/-- The node or sentinel in focus has the parent link of the hole. -/
def HoleParent (h : Nodes) (K : NodeCtx) (t : NodeTree) : Prop :=
  ∃ x, h (rootPtr t) = some x ∧ x.parent = ctxPtr K ∧ x.color = t.rootColor

theorem Rep.holeParent {h : Nodes} {root : Ptr} {K : NodeCtx} {t : NodeTree}
    (hr : Rep h root (plug K t)) (ht : t ≠ .nil) : HoleParent h K t := by
  obtain ⟨c, a, t₁, t₂, rfl⟩ := exists_mk .left ht
  exact ⟨_, by rw [rootPtr_mk]; exact hr.cell, cell_parent .., by simp⟩

/-- **The fix-up loop ends**, with a tree that is red-black once the final node is painted
black. -/
theorem removeFixup_spec {fuel : ℕ} {h : Nodes} {root : Ptr} {K : NodeCtx} {t : NodeTree}
    {n : ℕ} (hr : Rep h root (plug K t)) (hb : SentlBlack h) (hx : HoleParent h K t)
    (hctx : CtxRB K (n + 1)) (ht : Short t n) (hpos : 0 < fuel)
    (hfuel : t.rootColor = .black → K.length < fuel) :
    ∃ h' root' x K' t', removeFixup fuel h root (rootPtr t) = some (h', root', x) ∧
      Evolves h (plug K t) h' root' (plug K' t') ∧ x = rootPtr t' ∧
      ∃ m, IsRB (plug K' (t'.paint .black)) m ∧
        (plug K' (t'.paint .black)).rootColor = .black := by
  induction fuel generalizing h root K t n with
  | zero => omega
  | succ fuel ih =>
    obtain ⟨nx, hnx, hpar, hcol⟩ := hx
    have hpaint : (t.paint .black).rootColor = .black := by cases t <;> rfl
    by_cases hroot : K = []
    · subst hroot
      have he : rootPtr t = root := (hr.rootPtr_eq_root_iff).mpr rfl
      have hm : ∃ m, IsRB (t.paint .black) m := by
        rcases ht with ⟨hc, ht⟩ | ⟨-, ht⟩
        · exact ⟨n, by rwa [paint_of_rootColor hc]⟩
        · exact ⟨n + 1, ht⟩
      obtain ⟨m, hm⟩ := hm
      exact ⟨h, root, _, [], t, by simp [removeFixup, he], .refl hr, rfl, m, hm, hpaint⟩
    have hne : rootPtr t ≠ root := fun he => hroot (hr.rootPtr_eq_root_iff.mp he)
    rcases ht with ⟨hc, ht⟩ | ⟨hc, ht⟩
    · obtain ⟨f, K, rfl⟩ := exists_cons_of_ne_nil hroot
      obtain ⟨d, c, p, s⟩ := f
      have hp := hr.frame_cell
      have hside := hr.eq_left_iff (.inr hctx.sib_ne_nil) p.2 (ctxPtr K)
      obtain ⟨h₁, root₁, fin, K₁, t₁, he₁, ev₁, hres⟩ := removeSide_spec hr hb hctx ht
      have hround : removeFixup (fuel + 1) h root (rootPtr t) =
          if fin then pure (h₁, root₁, root₁)
          else removeFixup fuel h₁ root₁ (.node p.1) := by
        simp only [removeFixup, hne, if_false, hnx, hcol, hc, hpar, ctxPtr_cons, hp, hside,
          Option.bind_eq_bind, Option.bind_some, reduceCtorEq]
        cases d <;> simp [he₁]
      rw [hround]
      rcases hres with ⟨rfl, k, hk, ht₁, hred⟩ | ⟨rfl, hptr, ⟨k, hk, ht₁⟩, hlen⟩
      · obtain ⟨⟨m, hm⟩, hblack⟩ := isRB_plug hk ht₁ hred
        refine ⟨h₁, root₁, root₁, [], _, rfl, ev₁, ev₁.rep.root_eq, m, ?_, ?_⟩
        · rwa [plug_nil, paint_of_rootColor hblack]
        · rwa [plug_nil, paint_of_rootColor hblack]
      have h0 : t₁ ≠ .nil := by
        rintro rfl
        simp at hptr
      have hlt : K.length < fuel := by
        have := hfuel hc
        simp only [length_cons] at this
        omega
      obtain ⟨h₂, root₂, x, K₂, t₂, he₂, ev₂, hx₂, hrb⟩ := ih ev₁.rep
        (ev₁.sentlBlack hb) (ev₁.rep.holeParent h0) hk ht₁ (by omega)
        fun hb₁ => (hlen hb₁).trans_lt hlt
      exact ⟨h₂, root₂, x, K₂, t₂, by simpa [hptr] using he₂, ev₁.trans ev₂, hx₂, hrb⟩
    · -- a red node takes the missing black itself
      obtain ⟨⟨m, hm⟩, hblack⟩ := isRB_plug hctx ht (by simp [hpaint])
      refine ⟨h, root, _, K, t, ?_, .refl hr, rfl, m, hm, hblack⟩
      simp [removeFixup, hne, hnx, hcol, hc]

/-! ### Unlinking a node -/

/-- **`fftree_min`** goes down the left links. -/
theorem minLoop_spec {fuel : ℕ} {h : Nodes} {par : Ptr} {t : NodeTree} (hs : Shape h par t)
    (ht : t ≠ .nil) (hfuel : t.toList.length < fuel) :
    ∃ K c m s, minLoop fuel h (rootPtr t) = some (.node m.1) ∧
      t = plug K (.node c .nil m s) ∧ ∀ f ∈ K, f.dir = .left := by
  induction fuel generalizing par t with
  | zero => omega
  | succ fuel ih =>
    cases t with
    | nil => exact absurd rfl ht
    | node c l a r =>
      obtain ⟨hc, hl, -⟩ := hs
      by_cases h0 : l = .nil
      · subst h0
        exact ⟨[], c, a, r, by simp [minLoop, hc], rfl, by simp⟩
      have hlen : l.toList.length < fuel := by
        simp only [toList_node, length_append, length_cons] at hfuel
        omega
      obtain ⟨K, c', m, s, he, rfl, hdir⟩ := ih hl h0 hlen
      refine ⟨K ++ [⟨.left, c, a, r⟩], c', m, s, ?_, ?_, ?_⟩
      · simpa [minLoop, hc, rootPtr_eq_sentl, h0] using he
      · simp [plug_append, Frame.fill, mk]
      · simpa [or_imp, forall_and] using hdir

theorem Shape.reparent {h h' : Nodes} {par par' : Ptr} {t : NodeTree} {m : FfrbtNode}
    (hs : Shape h par t) (hn : (addrs t.toList).Nodup) (hm : h (rootPtr t) = some m)
    (hm' : h' (rootPtr t) = some { m with parent := par' })
    (hag : ∀ q ∈ addrs t.toList, q ≠ rootPtr t → h' q = h q) : Shape h' par' t := by
  cases t with
  | nil => trivial
  | node c l a r =>
    obtain ⟨hc, hl, hr⟩ := hs
    simp only [toList_node, addrs_append, addrs_cons, nodup_append, nodup_cons, mem_cons] at hn
    obtain rfl := Option.some.inj (hm.symm.trans hc)
    refine ⟨hm', hl.congr fun q hq => hag q (by simp [hq]) ?_,
      hr.congr fun q hq => hag q (by simp [hq]) ?_⟩
    · exact hn.2.2 q hq _ (.inl rfl)
    · rintro rfl
      exact hn.2.1.1 hq

theorem rootPtr_relink (K : NodeCtx) (t t' : NodeTree) :
    (if K = [] then rootPtr t' else rootPtr (plug K t)) = rootPtr (plug K t') := by
  cases K with
  | nil => simp
  | cons f K => simpa using rootPtr_plug_cons f K t t'

/-- The sentinel is black, and when it stands for the tree in focus its parent link is that of
the hole. -/
def SentlHole (h : Nodes) (K : NodeCtx) (t : NodeTree) : Prop :=
  ∃ s, h .sentl = some s ∧ s.color = .black ∧ (t = .nil → s.parent = ctxPtr K)

theorem SentlHole.sentlBlack {h : Nodes} {K : NodeCtx} {t : NodeTree}
    (hs : SentlHole h K t) : SentlBlack h := by
  obtain ⟨s, h1, h2, -⟩ := hs
  exact ⟨s, h1, h2⟩

/-- What `tree_rm` and its parts do to memory: a node is unlinked and the focus is at the tree
that moved up. -/
structure Unlinked (h : Nodes) (t₀ : NodeTree) (h' : Nodes) (root' : Ptr) (K : NodeCtx)
    (t : NodeTree) : Prop where
  rep : Rep h' root' (plug K t)
  sentl : SentlHole h' K t
  eqOff : Heap.EqOff (.sentl :: addrs t₀.toList) h h'

/-- **A node with one child missing** is replaced by its other child. -/
theorem spliceOut_spec {h : Nodes} {root : Ptr} {K : NodeCtx} {d : Dir} {c : Color}
    {a : ℕ × ℕ} {t : NodeTree} (hr : Rep h root (plug K (mk d c a .nil t)))
    (hb : SentlBlack h) :
    ∃ h', relinkParent h root (.node a.1) (rootPtr t) = some (h', rootPtr (plug K t)) ∧
      Unlinked h (plug K (mk d c a .nil t)) h' (rootPtr (plug K t)) K t ∧
      h' (.node a.1) = h (.node a.1) := by
  obtain ⟨hroot, hctx, ha, hn⟩ := rep_plug.mp hr
  obtain ⟨ha, -, ht⟩ := shape_mk.mp ha
  rw [rootPtr_mk] at hctx
  have hperm : (addrs ((mk d c a .nil t).toList ++ elems K)).Perm
      (.node a.1 :: (addrs t.toList ++ addrs (elems K))) := by
    have := ((mk_perm d c a .nil t).append_right (elems K)).map fun a : ℕ × ℕ => Ptr.node a.1
    simpa [addrs] using this
  have hnd := hperm.nodup_iff.mp hn
  simp only [nodup_cons, mem_append, not_or, nodup_append] at hnd
  obtain ⟨⟨hat, hak⟩, htn, hkn, htk⟩ := hnd
  obtain ⟨m, hm, hmc⟩ := ht.color hb
  have htk' : rootPtr t ∉ addrs (elems K) := by
    intro hmem
    by_cases h0 : t = .nil
    · subst h0
      exact sentl_notMem_addrs _ hmem
    · exact htk _ (rootPtr_mem h0) _ hmem rfl
  obtain ⟨h', he, hctx', hm', hag⟩ := relinkParent_spec root hctx hkn ha
    (cell_parent ..) hm hak (by simp) htk'
  have hta : Ptr.node a.1 ≠ rootPtr t := by
    intro e
    by_cases h0 : t = .nil
    · simp [h0] at e
    · exact hat (e ▸ rootPtr_mem h0)
  have hsib : Shape h' (ctxPtr K) t := ht.reparent htn hm hm' fun q hq hne =>
    hag q hne fun hk => htk q hq q hk rfl
  have hroot' : (if K = [] then rootPtr t else root) = rootPtr (plug K t) := by
    rw [hroot]
    exact rootPtr_relink K _ t
  rw [hroot'] at he
  refine ⟨h', he, ⟨rep_plug.mpr ⟨rfl, hctx', hsib, ?_⟩, ?_, fun q hq => ?_⟩, hag _ hta hak⟩
  · rw [addrs_append]
    exact nodup_append.mpr ⟨htn, hkn, htk⟩
  · by_cases h0 : t = .nil
    · subst h0
      exact ⟨_, hm', hmc, fun _ => rfl⟩
    · obtain ⟨s, hs, hsc⟩ := hb
      refine ⟨s, (hag _ (fun e => h0 (rootPtr_eq_sentl.mp e.symm))
        (sentl_notMem_addrs _)).trans hs, hsc, fun e => absurd e h0⟩
  rw [mem_cons, (addrs_plug_perm K _).mem_iff, hperm.mem_iff, mem_cons, mem_append] at hq
  simp only [not_or] at hq
  refine hag q (fun e => ?_) hq.2.2.2
  by_cases h0 : t = .nil
  · exact hq.1 (by rw [e, h0, rootPtr_nil])
  · exact hq.2.2.1 (e ▸ rootPtr_mem h0)

/-- **Linking a tree into the hole of a context.** -/
theorem linkChild_spec {h : Nodes} {p par : Ptr} {f : Frame (ℕ × ℕ)} {K : NodeCtx}
    {t : NodeTree} (hctx : ShapeCtx h p (f :: K)) (ht : Shape h par t) (hb : SentlBlack h)
    (hn : (addrs (t.toList ++ elems (f :: K))).Nodup) :
    ∃ h', linkChild f.dir h (.node f.elem.1) (rootPtr t) = some h' ∧
      ShapeCtx h' (rootPtr t) (f :: K) ∧ Shape h' (.node f.elem.1) t ∧
      SentlHole h' (f :: K) t ∧
      ∀ q, q ∉ addrs t.toList → q ≠ .node f.elem.1 → q ≠ .sentl → h' q = h q := by
  rw [addrs_append] at hn
  obtain ⟨htn, hkn, htk⟩ := nodup_append.mp hn
  obtain ⟨s, hs, hsc⟩ := hb
  obtain ⟨h₁, he₁, hctx₁, hag₁⟩ := linkHole_spec (rootPtr t) hctx hkn
  have hft : Ptr.node f.elem.1 ∉ addrs t.toList := fun hm =>
    htk _ hm _ (by simp [elems]) rfl
  have ht₁ : Shape h₁ par t := ht.congr fun q hq => hag₁ q fun e => hft (e ▸ hq)
  have hs₁ : h₁ .sentl = some s := (hag₁ _ (by simp)).trans hs
  obtain ⟨h₂, he₂, ht₂, hag₂, hnil, hne⟩ := setParent_spec (.node f.elem.1) ht₁ htn hs₁
  refine ⟨h₂, ?_, hctx₁.congr fun q hq => hag₂ q (fun hm => htk q hm q hq rfl) ?_, ht₂, ?_,
    fun q hqt hqf hqs => (hag₂ q hqt hqs).trans (hag₁ q hqf)⟩
  · simp [linkChild, he₁, he₂]
  · rintro rfl
    exact sentl_notMem_addrs _ hq
  · by_cases h0 : t = .nil
    · exact ⟨_, hnil h0, hsc, fun _ => rfl⟩
    · exact ⟨s, hne h0, hsc, fun e => absurd e h0⟩

/-- **The successor leaves the right subtree** of the node to be removed, and the rest of that
subtree becomes its own. -/
theorem detachNext_spec {h : Nodes} {root : Ptr} {K ctxr : NodeCtx} {c cm : Color}
    {a m : ℕ × ℕ} {l t : NodeTree}
    (hr : Rep h root (plug K (.node c l a (plug ctxr (.node cm .nil m t)))))
    (hb : SentlBlack h) (hdir : ∀ f ∈ ctxr, f.dir = .left) :
    ∃ h' par, detachNext h (.node a.1) (.node m.1) (rootPtr t) = some h' ∧
      h' (.node m.1) = some ⟨.sentl, rootPtr (plug ctxr t), par, cm, m.2⟩ ∧
      Shape h' (.node m.1) (plug ctxr t) ∧
      SentlHole h' (ctxr ++ ⟨.right, cm, m, l⟩ :: K) t ∧
      ∀ q, q ∉ addrs (plug ctxr (.node cm .nil m t)).toList → q ≠ .sentl → h' q = h q := by
  have ha := Rep.cell (d := .right) hr
  have hfocus : plug K (.node c l a (plug ctxr (.node cm .nil m t))) =
      plug (ctxr ++ ⟨.right, c, a, l⟩ :: K) (.node cm .nil m t) := by
    rw [plug_append]
    rfl
  rw [hfocus] at hr
  obtain ⟨hroot, hctx, ⟨hm, -, ht⟩, hn⟩ := rep_plug.mp hr
  simp only [toList_node, toList_nil, nil_append, cons_append, addrs_cons, nodup_cons] at hn
  obtain ⟨hmt, hn⟩ := hn
  cases ctxr with
  | nil =>
    -- the successor is the right child
    obtain ⟨s, hs, hsc⟩ := hb
    have htn : (addrs t.toList).Nodup := by
      rw [addrs_append] at hn
      exact (nodup_append.mp hn).1
    have hmt' : Ptr.node m.1 ∉ addrs t.toList := fun hh => hmt (by simp [hh])
    obtain ⟨h', he, ht', hag, hnil, hne⟩ := setParent_spec (.node m.1) ht htn hs
    refine ⟨h', _, ?_, (hag _ hmt' (by simp)).trans hm, ht', ?_, fun q hq hqs => ?_⟩
    · simpa [detachNext, ha, FF.cell] using he
    · by_cases h0 : t = .nil
      · exact ⟨_, hnil h0, hsc, fun _ => rfl⟩
      · exact ⟨s, hne h0, hsc, fun e => absurd e h0⟩
    · exact hag q (fun hh => hq (by simp [hh])) hqs
  | cons f ctxr =>
    have hd : f.dir = .left := hdir f mem_cons_self
    obtain ⟨R, hR⟩ : ∃ R, R = plug (f :: ctxr) t := ⟨_, rfl⟩
    have hRptr : rootPtr (plug (f :: ctxr) (.node cm .nil m t)) = rootPtr R := by
      rw [hR]
      exact rootPtr_plug_cons f ctxr _ _
    have hR0 : R ≠ .nil := fun e => by
      have := (plug_eq_nil (hR ▸ e)).1
      simp at this
    -- the hole of the successor gets its right child
    obtain ⟨h₁, he₁, hctx₁, ht₁, ⟨s, hs, hsc, hsp⟩, hag₁⟩ := linkChild_spec hctx ht hb hn
    have hr₁ : Rep h₁ root (plug (⟨.right, c, a, l⟩ :: K) R) := by
      rw [hR, ← plug_append]
      refine rep_plug.mpr ⟨?_, hctx₁, ht₁, hn⟩
      rw [hroot]
      exact rootPtr_plug_cons f _ _ _
    have ha₁ := hr₁.frame_cell
    have hR₁ : Shape h₁ (.node a.1) R := (rep_plug.mp hr₁).2.2.1
    -- the successor is none of the nodes left in the tree
    have hmF : Ptr.node m.1 ∉ addrs (R.toList ++ elems (⟨.right, c, a, l⟩ :: K)) := by
      rw [← (addrs_plug_perm _ _).mem_iff, hR, ← plug_append, (addrs_plug_perm _ _).mem_iff]
      exact hmt
    rw [addrs_append, mem_append, not_or] at hmF
    have hmR : Ptr.node m.1 ≠ rootPtr R := fun e => hmF.1 (e ▸ rootPtr_mem hR0)
    have hRn : (addrs R.toList).Nodup := by
      have := (rep_plug.mp hr₁).2.2.2
      rw [addrs_append] at this
      exact (nodup_append.mp this).1
    have hmf : Ptr.node m.1 ≠ .node f.elem.1 := fun e => hmt (by simp [elems, e])
    have hmt' : Ptr.node m.1 ∉ addrs t.toList := fun hh => hmt (by simp [hh])
    have hm₁ := (hag₁ _ hmt' hmf (by simp)).trans hm
    -- the rest of the right subtree goes to the successor
    obtain ⟨h₂, hh₂⟩ : ∃ h₂, h₂ = h₁.set (.node m.1)
        ⟨.sentl, rootPtr R, .node f.elem.1, cm, m.2⟩ := ⟨_, rfl⟩
    have hR₂ : Shape h₂ (.node a.1) R := hh₂ ▸ hR₁.set _ hmF.1
    have hs₂ : h₂ .sentl = some s := by rw [hh₂, Heap.set_of_ne _ _ (by simp), hs]
    obtain ⟨h₃, he₃, hR₃, hag₃, -, hs₃⟩ := setParent_spec (.node m.1) hR₂ hRn hs₂
    refine ⟨h₃, .node f.elem.1, ?_, ?_, hR ▸ hR₃, ⟨s, hs₃ hR0, hsc, hsp⟩, fun q hq hqs => ?_⟩
    · have hright : (FF.cell .right c a.2 (rootPtr R) (rootPtr l) (ctxPtr K)).right =
          rootPtr R := rfl
      rw [hd] at he₁
      simp only [detachNext, ha, hRptr, hright, Option.bind_eq_bind, Option.bind_some, hmR,
        if_false, hm, ctxPtr_cons, linkLeftchild, linkRightchild, cons_append, he₁, ha₁]
      simp only [linkChild, Option.bind_eq_bind]
      rw [Heap.modify_of_some _ hm₁]
      simpa [FfrbtNode.setChild, ← hh₂] using he₃
    · rw [hag₃ _ hmF.1 (by simp), hh₂, Heap.set_self, hR]
    have hsub : ∀ x, x ∈ addrs R.toList → x ∈ addrs (plug (f :: ctxr)
        (.node cm .nil m t)).toList := fun x hx => by
      rw [hR, (addrs_plug_perm _ _).mem_iff, addrs_append, mem_append] at hx
      rw [(addrs_plug_perm _ _).mem_iff]
      simp only [toList_node, toList_nil, nil_append, cons_append, addrs_cons,
        addrs_append, mem_cons, mem_append]
      tauto
    have hqm : q ≠ .node m.1 := fun e => hq (e ▸ mem_addrs_plug (f :: ctxr) .left cm m .nil t)
    have hqf : q ≠ .node f.elem.1 := fun e => hq (hsub _ (by
      rw [hR, (addrs_plug_perm _ _).mem_iff]
      simp [elems, e]))
    have hqt : q ∉ addrs t.toList := fun hh => hq (hsub _ (by
      rw [hR, (addrs_plug_perm _ _).mem_iff]
      simp [hh]))
    rw [hag₃ q (fun hh => hq (hsub q hh)) hqs, hh₂, Heap.set_of_ne _ _ hqm,
      hag₁ q hqt hqf hqs]

/-- **The successor takes the place of the removed node** `a`: its left subtree and its parent.
The right subtree `r` of `a` has been split already into the successor `m` and the rest. -/
theorem takePlace_spec {h h' : Nodes} {root par : Ptr} {K : NodeCtx} {c cm : Color}
    {a m : ℕ × ℕ} {l r r' : NodeTree} (hr : Rep h root (plug K (.node c l a r)))
    (hl : l ≠ .nil) (hm : h' (.node m.1) = some ⟨.sentl, rootPtr r', par, cm, m.2⟩)
    (hr' : Shape h' (.node m.1) r') (hperm : r.toList.Perm (m :: r'.toList))
    (hag : ∀ q, q ∉ addrs r.toList → q ≠ .sentl → h' q = h q) {s : FfrbtNode}
    (hs : h' .sentl = some s) :
    ∃ h₁ h₂, linkLeftchild h' (.node m.1) (rootPtr l) = some h₁ ∧
      relinkParent h₁ root (.node a.1) (.node m.1) =
        some (h₂, rootPtr (plug K (.node cm l m r'))) ∧
      Rep h₂ (rootPtr (plug K (.node cm l m r'))) (plug K (.node cm l m r')) ∧
      h₂ (.node a.1) = h (.node a.1) ∧ h₂ .sentl = some s ∧
      ∀ q, q ∉ addrs (plug K (.node c l a r)).toList → q ≠ .sentl → h₂ q = h q := by
  obtain ⟨hroot, hctx, ⟨ha, hl', -⟩, hn⟩ := rep_plug.mp hr
  rw [rootPtr_node] at hctx
  -- the nodes involved are pairwise different
  have hp : (addrs ((Tree.node c l a r).toList ++ elems K)).Perm
      (.node a.1 :: .node m.1 :: (addrs l.toList ++ (addrs r'.toList ++ addrs (elems K)))) := by
    have h1 := (mk_perm .left c a l r).append_right (elems K)
    have h2 : (a :: (l.toList ++ r.toList)).Perm (a :: (l.toList ++ m :: r'.toList)) :=
      (hperm.append_left _).cons a
    have h3 : (a :: (l.toList ++ m :: r'.toList)).Perm (a :: m :: (l.toList ++ r'.toList)) :=
      perm_middle.cons a
    simpa [addrs, mk] using (h1.trans ((h2.trans h3).append_right (elems K))).map
      fun a : ℕ × ℕ => Ptr.node a.1
  have hnd := hp.nodup_iff.mp hn
  simp only [nodup_cons, mem_cons, mem_append, not_or, nodup_append]
    at hnd
  obtain ⟨⟨ham, hal, har, hak⟩, ⟨hml, hmr, hmk⟩, hln, ⟨hrn, hkn, hrk⟩, hlrk⟩ := hnd
  have hr'mem : ∀ q, q ∈ addrs r.toList ↔ q = .node m.1 ∨ q ∈ addrs r'.toList := fun q => by
    have := (hperm.map fun a : ℕ × ℕ => Ptr.node a.1).mem_iff (a := q)
    simpa [addrs] using this
  have hag' : ∀ q, q ≠ .node m.1 → q ∉ addrs r'.toList → q ≠ .sentl → h' q = h q :=
    fun q h1 h2 => hag q (by rw [hr'mem]; simp [h1, h2])
  have hl0 : ∀ q ∈ addrs l.toList, q ≠ .sentl := fun q hq e => sentl_notMem_addrs _ (e ▸ hq)
  have hk0 : ∀ q ∈ addrs (elems K), q ≠ .sentl := fun q hq e =>
    sentl_notMem_addrs _ (e ▸ hq)
  -- the left subtree
  obtain ⟨h₀, hh₀⟩ : ∃ h₀, h₀ = h'.set (.node m.1) ⟨rootPtr l, rootPtr r', par, cm, m.2⟩ :=
    ⟨_, rfl⟩
  have hag₀ : ∀ q, q ≠ .node m.1 → h₀ q = h' q := fun q hq => by rw [hh₀, Heap.set_of_ne _ _ hq]
  have hl₀ : Shape h₀ (.node a.1) l := hl'.congr fun q hq =>
    (hag₀ q fun e => hml (e ▸ hq)).trans (hag' q (fun e => hml (e ▸ hq))
      (fun hq' => hlrk q hq q (.inl hq') rfl) (hl0 q hq))
  have hs₀ : h₀ .sentl = some s := (hag₀ _ (by simp)).trans hs
  obtain ⟨h₁, he₁, hl₁, hag₁, -, hs₁⟩ := setParent_spec (.node m.1) hl₀ hln hs₀
  have hm₁ : h₁ (.node m.1) = some ⟨rootPtr l, rootPtr r', par, cm, m.2⟩ := by
    rw [hag₁ _ hml (by simp), hh₀, Heap.set_self]
  have hoff₁ : ∀ q, q ≠ .node m.1 → q ∉ addrs l.toList → q ∉ addrs r'.toList → q ≠ .sentl →
      h₁ q = h q := fun q h1 h2 h3 h4 =>
    (hag₁ q h2 h4).trans ((hag₀ q h1).trans (hag' q h1 h3 h4))
  have ha₁ : h₁ (.node a.1) = _ := (hoff₁ _ ham hal har (by simp)).trans ha
  have hctx₁ : ShapeCtx h₁ (.node a.1) K := hctx.congr fun q hq =>
    hoff₁ q (fun e => hmk (e ▸ hq)) (fun hq' => hlrk q hq' q (.inr hq) rfl)
      (fun hq' => hrk q hq' q hq rfl) (hk0 q hq)
  -- the parent
  obtain ⟨h₂, he₂, hctx₂, hm₂, hag₂⟩ := relinkParent_spec root hctx₁ hkn ha₁ rfl hm₁
    hak (by simp) hmk
  have hroot₂ : (if K = [] then Ptr.node m.1 else root) =
      rootPtr (plug K (.node cm l m r')) := by
    rw [hroot]
    exact rootPtr_relink K _ (.node cm l m r')
  rw [hroot₂] at he₂
  refine ⟨h₁, h₂, ?_, he₂, rep_plug.mpr ⟨rfl, hctx₂, ⟨hm₂, ?_, ?_⟩, ?_⟩, ?_, ?_, fun q hq hqs => ?_⟩
  · rw [linkLeftchild, linkChild, Heap.modify_of_some _ hm]
    simpa [FfrbtNode.setChild, ← hh₀] using he₁
  · exact hl₁.congr fun q hq => hag₂ q (fun e => hml (e ▸ hq))
      fun hq' => hlrk q hq q (.inr hq') rfl
  · refine hr'.congr fun q hq => ?_
    have hqs : q ≠ .sentl := fun e => sentl_notMem_addrs _ (e ▸ hq)
    have hqm : q ≠ .node m.1 := fun e => hmr (e ▸ hq)
    rw [hag₂ q hqm fun hq' => hrk q hq q hq' rfl,
      hag₁ q (fun hq' => hlrk q hq' q (.inl hq) rfl) hqs, hag₀ q hqm]
  · have hp' : (addrs ((Tree.node cm l m r').toList ++ elems K)).Perm
        (.node m.1 :: (addrs l.toList ++ (addrs r'.toList ++ addrs (elems K)))) := by
      simpa [addrs, mk] using ((mk_perm .left cm m l r').append_right (elems K)).map
        fun a : ℕ × ℕ => Ptr.node a.1
    rw [hp'.nodup_iff]
    exact (nodup_cons.mp (hp.nodup_iff.mp hn)).2
  · rw [hag₂ _ ham hak, ha₁, ha]
  · rw [hag₂ _ (by simp) (sentl_notMem_addrs _), hs₁ hl]
  · rw [(addrs_plug_perm K _).mem_iff, hp.mem_iff] at hq
    simp only [mem_cons, mem_append, not_or] at hq
    rw [hag₂ q hq.2.1 hq.2.2.2.2, hoff₁ q hq.2.1 hq.2.2.1 hq.2.2.2.1 hqs]

theorem Unlinked.set {h h' : Nodes} {t₀ t : NodeTree} {root' p : Ptr} {K : NodeCtx}
    (u : Unlinked h t₀ h' root' K t) (v : FfrbtNode) (hp : p ∉ addrs (plug K t).toList)
    (hps : p ≠ .sentl) (hp₀ : p ∈ addrs t₀.toList) :
    Unlinked h t₀ (h'.set p v) root' K t := by
  obtain ⟨s, hs, hsc, hsp⟩ := u.sentl
  refine ⟨u.rep.congr fun q hq => Heap.set_of_ne _ _ fun e => hp (e ▸ hq),
    ⟨s, (Heap.set_of_ne _ _ hps.symm).trans hs, hsc, hsp⟩, fun q hq => ?_⟩
  rw [Heap.set_of_ne _ _ fun e => hq (by simp [e, hp₀]), u.eqOff q hq]

/-- Where `tree_rm` leaves the focus: the context and the tree that moved up, and the successor
that took the place of the node `node c l a r` at the hole of `K`, if any. -/
inductive Spliced (c : Color) (l r : NodeTree) (K : NodeCtx) : Ptr → NodeCtx → NodeTree → Prop
  | right : l = .nil → Spliced c l r K .null K r
  | left : r = .nil → Spliced c l r K .null K l
  | next {ctxr : NodeCtx} {cm : Color} {m : ℕ × ℕ} {t : NodeTree} :
      r = plug ctxr (.node cm .nil m t) → (∀ f ∈ ctxr, f.dir = .left) →
      Spliced c l r K (.node m.1) (ctxr ++ ⟨.right, cm, m, l⟩ :: K) t

/-- **`tree_rm`** unlinks the node and clears its links and key. -/
theorem treeRm_spec {fuel n k : ℕ} {h : Nodes} {root : Ptr} {K : NodeCtx} {c : Color}
    {l r : NodeTree} (hr : Rep h root (plug K (.node c l (n, k) r))) (hb : SentlBlack h)
    (hfuel : r.toList.length < fuel) :
    ∃ next h' K' t, treeRm fuel h (.node n) root =
        some (rootPtr t, next, h', rootPtr (plug K' t)) ∧
      Spliced c l r K next K' t ∧
      Unlinked h (plug K (.node c l (n, k) r)) h' (rootPtr (plug K' t)) K' t ∧
      h' (.node n) = some ⟨.null, .null, .null, c, 0⟩ := by
  have hn := Rep.cell (d := .left) hr
  have hnod := (rep_plug.mp hr).2.2.2
  have hmem : Ptr.node n ∈ addrs (plug K (.node c l (n, k) r)).toList :=
    mem_addrs_plug K .left c (n, k) l r
  have hnot : Ptr.node n ∉ addrs (l.toList ++ r.toList ++ elems K) := by
    have := (((mk_perm .left c (n, k) l r).append_right (elems K)).map
      fun a : ℕ × ℕ => Ptr.node a.1).nodup_iff.mp hnod
    exact (nodup_cons.mp this).1
  simp only [addrs_append, mem_append, not_or] at hnot
  by_cases hl : l = .nil
  · subst hl
    obtain ⟨h', he, hu, hn'⟩ := spliceOut_spec (d := .left) hr hb
    rw [hn] at hn'
    refine ⟨.null, _, K, r, ?_, .right rfl, hu.set _ ?_ (by simp) hmem, Heap.set_self ..⟩
    · simp [treeRm, hn, FF.cell, he, Heap.modify_of_some _ hn']
    · simp [(addrs_plug_perm K r).mem_iff, hnot]
  by_cases hr0 : r = .nil
  · subst hr0
    obtain ⟨h', he, hu, hn'⟩ := spliceOut_spec (d := .right) hr hb
    rw [hn] at hn'
    refine ⟨.null, _, K, l, ?_, .left rfl, hu.set _ ?_ (by simp) hmem, Heap.set_self ..⟩
    · simp [treeRm, hn, FF.cell, rootPtr_eq_sentl, hl, he, Heap.modify_of_some _ hn']
    · simp [(addrs_plug_perm K l).mem_iff, hnot]
  -- both children: the successor replaces the node
  obtain ⟨ctxr, cm, m, t, he₁, rfl, hdir⟩ :=
    minLoop_spec (rep_plug.mp hr).2.2.1.2.2 hr0 hfuel
  have hfocus : plug K (.node c l (n, k) (plug ctxr (.node cm .nil m t))) =
      plug (ctxr ++ ⟨.right, c, (n, k), l⟩ :: K) (.node cm .nil m t) := by
    rw [plug_append]
    rfl
  have hm := Rep.cell (d := .left) (hfocus ▸ hr)
  obtain ⟨h₁, par, he₂, hm₁, hr₁, ⟨s, hs, hsc, hsp⟩, hag₁⟩ := detachNext_spec hr hb hdir
  have hperm : (plug ctxr (.node cm .nil m t)).toList.Perm (m :: (plug ctxr t).toList) :=
    (toList_plug_perm _ _).trans ((toList_plug_perm ctxr t).symm.cons m)
  obtain ⟨h₂, h₃, he₃, he₄, hr₃, hn₃, hs₃, hag₃⟩ :=
    takePlace_spec hr hl hm₁ hr₁ hperm hag₁ hs
  have hplug : plug K (.node cm l m (plug ctxr t)) =
      plug (ctxr ++ ⟨.right, cm, m, l⟩ :: K) t := by
    rw [plug_append]
    rfl
  rw [hplug] at he₄ hr₃
  rw [hn] at hn₃
  have hu : Unlinked h (plug K (.node c l (n, k) (plug ctxr (.node cm .nil m t)))) h₃ _
      (ctxr ++ ⟨.right, cm, m, l⟩ :: K) t :=
    ⟨hr₃, ⟨s, hs₃, hsc, hsp⟩, fun q hq => by
      simp only [mem_cons, not_or] at hq
      exact hag₃ q hq.2 hq.1⟩
  have hn₁ := (hag₁ _ hnot.1.2 (by simp)).trans hn
  refine ⟨.node m.1, _, _, t, ?_, .next rfl hdir, hu.set _ ?_ (by simp) hmem,
    Heap.set_self ..⟩
  · simp [treeRm, hn, FF.cell, rootPtr_eq_sentl, hl, hr0, fftreeMin, he₁, hm, he₂, hn₁, he₃,
      he₄, Heap.modify_of_some _ hn₃]
  intro hh
  rw [← hplug, (addrs_plug_perm K _).mem_iff] at hh
  have hne : Ptr.node n ∉ addrs (m :: (plug ctxr t).toList) := fun hh' =>
    hnot.1.2 ((hperm.map fun a : ℕ × ℕ => Ptr.node a.1).mem_iff.mpr hh')
  simp only [addrs_cons, mem_cons, not_or] at hne
  simp only [toList_node, addrs_append, addrs_cons, mem_append, mem_cons] at hh
  tauto

/-! ### The whole removal -/

/-- `x->color = BLACK` at the end of `ffrbt_rm`, on a node or on the sentinel. -/
theorem paintBlack_spec {h : Nodes} {root : Ptr} {K : NodeCtx} {t : NodeTree}
    (hr : Rep h root (plug K t)) (hb : SentlBlack h) :
    ∃ h', setColor h (rootPtr t) .black = some h' ∧ Rep h' root (plug K (t.paint .black)) ∧
      SentlBlack h' ∧ Heap.EqOff (.sentl :: addrs (plug K t).toList) h h' := by
  by_cases h0 : t = .nil
  · subst h0
    obtain ⟨s, hs, -⟩ := hb
    refine ⟨_, Heap.modify_of_some _ hs, hr.congr fun q hq => Heap.set_of_ne _ _ fun e =>
      sentl_notMem_addrs _ (e ▸ hq), ⟨_, Heap.set_self .., rfl⟩,
      fun q hq => Heap.set_of_ne _ _ fun e => hq (by simp [e])⟩
  · obtain ⟨c, a, t₁, t₂, rfl⟩ := exists_mk .left h0
    obtain ⟨h', he, ev⟩ := setColor_spec .black hr
    refine ⟨h', by rwa [rootPtr_mk], by rw [paint_mk]; exact ev.rep, ev.sentlBlack hb,
      ev.eqOff.mono (subset_cons_self ..)⟩

/-- What the colours around the focus say once the successor has taken over the colour of the
removed node: the black node that may have been lost is missing at the focus only. -/
def Lost (clr : Color) (K : NodeCtx) (t : NodeTree) : Prop :=
  match clr with
  | .red => t.rootColor = .black ∧ (plug K t).rootColor = .black ∧ ∃ m, IsRB (plug K t) m
  | .black => ∃ n, CtxRB K (n + 1) ∧ IsRB t n

theorem lost_of_mk {c : Color} {d : Dir} {a : ℕ × ℕ} {K : NodeCtx} {t : NodeTree} {n : ℕ}
    (hctx : CtxRB K n) (ht : IsRB (mk d c a .nil t) n) (hc : c = .red → RedOk K) :
    Lost c K t := by
  cases c with
  | red =>
    obtain ⟨-, ht, -, htc⟩ := isRB_mk_red.mp ht
    obtain ⟨hm, hroot⟩ := isRB_plug hctx ht (by simp [htc])
    exact ⟨htc, hroot, hm⟩
  | black =>
    obtain ⟨k, rfl⟩ := ht.mk_black_height
    exact ⟨k, hctx, (isRB_mk_black.mp ht).2⟩

/-- **The repair after a removal**, from the focus that `tree_rm` leaves. -/
theorem ffrbtRm_repair {fuel : ℕ} {clr : Color} {h : Nodes} {root : Ptr} {K : NodeCtx}
    {t : NodeTree} (hr : Rep h root (plug K t)) (hs : SentlHole h K t)
    (hlost : Lost clr K t) (hfuel : K.length < fuel) :
    ∃ h₁ root' x h₂ t', (if clr = .red then some (h, root, rootPtr t)
        else removeFixup fuel h root (rootPtr t)) = some (h₁, root', x) ∧
      setColor h₁ x .black = some h₂ ∧ Rep h₂ root' t' ∧ SentlBlack h₂ ∧
      (∃ m, IsRB t' m) ∧ t'.rootColor = .black ∧ t'.toList = (plug K t).toList ∧
      Heap.EqOff (.sentl :: addrs (plug K t).toList) h h₂ := by
  cases clr with
  | red =>
    obtain ⟨htc, hroot, hm⟩ := hlost
    obtain ⟨h₂, he₂, hr₂, hb₂, hoff⟩ := paintBlack_spec hr hs.sentlBlack
    rw [paint_of_rootColor htc] at hr₂
    exact ⟨h, root, _, h₂, _, by simp, he₂, hr₂, hb₂, hm, hroot, rfl, hoff⟩
  | black =>
    obtain ⟨n, hctx, ht⟩ := hlost
    have hhole : HoleParent h K t := by
      by_cases h0 : t = .nil
      · subst h0
        obtain ⟨s, h1, h2, h3⟩ := hs
        exact ⟨s, h1, h3 rfl, h2⟩
      · exact hr.holeParent h0
    obtain ⟨h₁, root', x, K', t', he₁, ev, rfl, m, hm, hroot⟩ := removeFixup_spec hr
      hs.sentlBlack hhole hctx ht.short (by omega) fun _ => hfuel
    obtain ⟨h₂, he₂, hr₂, hb₂, hoff⟩ := paintBlack_spec ev.rep (ev.sentlBlack hs.sentlBlack)
    refine ⟨h₁, root', _, h₂, _, by simpa using he₁, he₂, hr₂, hb₂, ⟨m, hm⟩, hroot, ?_, ?_⟩
    · rw [← ev.toList_eq]
      exact toList_plug_congr _ (toList_paint _ _)
    · refine (ev.eqOff.mono (subset_cons_self ..)).trans ?_
      rw [← ev.toList_eq]
      exact hoff

theorem Spliced.exchange {c : Color} {l r t : NodeTree} {n k : ℕ} {K K' : NodeCtx}
    {next : Ptr} (hsp : Spliced c l r K next K' t) {h : Nodes} {m : ℕ}
    (hr : Rep h (rootPtr (plug K' t)) (plug K' t)) (hs : SentlHole h K' t)
    (hctx : CtxRB K m) (ht : IsRB (.node c l (n, k) r) m) (hc : c = .red → RedOk K) :
    ∃ clr h' K'', exchangeColors h c next = some (clr, h') ∧
      Rep h' (rootPtr (plug K' t)) (plug K'' t) ∧ SentlHole h' K'' t ∧
      Lost clr K'' t ∧ (plug K'' t).toList = (plug K' t).toList ∧
      K''.length = K'.length ∧ Heap.EqOff (addrs (plug K' t).toList) h h' := by
  cases hsp with
  | right hl =>
    subst hl
    exact ⟨c, h, K, by simp [exchangeColors], hr, hs, lost_of_mk (d := .left) hctx ht hc, rfl, rfl, .refl _ _⟩
  | left hr0 =>
    subst hr0
    exact ⟨c, h, K, by simp [exchangeColors], hr, hs, lost_of_mk (d := .right) hctx ht hc, rfl, rfl,
      .refl _ _⟩
  | @next ctxr cm a _ hr0 hdir =>
    subst hr0
    have hplug : ∀ c', plug (ctxr ++ ⟨.right, c', a, l⟩ :: K) t =
        plug K (mk .right c' a (plug ctxr t) l) := fun c' => by
      rw [plug_append]
      rfl
    rw [hplug] at hr
    have ha := hr.cell
    obtain ⟨h', he, ev⟩ := setColor_spec c hr
    -- the tree before the removal, with the focus at the successor
    obtain ⟨⟨m', hm'⟩, hroot⟩ := isRB_plug hctx ht hc
    have hfocus : plug K (.node c l (n, k) (plug ctxr (.node cm .nil a t))) =
        plug (ctxr ++ ⟨.right, c, (n, k), l⟩ :: K) (mk .left cm a .nil t) := by
      rw [plug_append]
      rfl
    rw [hfocus] at hm' hroot
    obtain ⟨m'', hctx'', ht'', hc''⟩ := ctxRB_of_plug hm' hroot
    rw [rootColor_mk] at hc''
    refine ⟨cm, h', ctxr ++ ⟨.right, c, a, l⟩ :: K, ?_, ?_, ?_, ?_, ?_, ?_, ?_⟩
    · simp [exchangeColors, ha, he]
    · have hroot' : rootPtr (plug K (mk .right cm a (plug ctxr t) l)) =
          rootPtr (plug K (mk .right c a (plug ctxr t) l)) := rootPtr_plug_congr K (by simp)
      rw [hplug, hplug, hroot']
      rw [hroot'] at ev
      exact ev.rep
    · obtain ⟨s, h1, h2, h3⟩ := hs
      refine ⟨s, ev.sentl.trans h1, h2, fun h0 => (h3 h0).trans ?_⟩
      cases ctxr <;> rfl
    · exact lost_of_mk hctx''.set_elem ht'' fun h0 => (hc'' h0).set_elem
    · rw [hplug, hplug]
      exact toList_plug_congr K (by simp only [toList_mk])
    · simp
    · rw [hplug]
      exact ev.eqOff

theorem Spliced.toList_eq {c : Color} {l r t : NodeTree} {a : ℕ × ℕ} {K K' : NodeCtx}
    {next : Ptr} (hsp : Spliced c l r K next K' t) :
    (plug K (.node c l a r)).toList = (before K ++ l.toList) ++ a :: (r.toList ++ after K) ∧
      (plug K' t).toList = (before K ++ l.toList) ++ (r.toList ++ after K) := by
  refine ⟨by simp [toList_plug], ?_⟩
  cases hsp with
  | right hl => simp [toList_plug, hl]
  | left hr0 => simp [toList_plug, hr0]
  | next hr0 hdir => simp [hr0, plug_append, toList_plug, Frame.fill, mk, before_eq_nil hdir]

/-- **`ffrbt_rm`** keeps the invariant and takes the node out of the tree. -/
theorem ffrbtRm_spec {tr : Ffrbtree} {t : NodeTree} {n : ℕ} (hi : tr.Inv t)
    (hn : .node n ∈ addrs t.toList) :
    ∃ tr' t' k pre post c, ffrbtRm tr (.node n) = some tr' ∧ tr'.Inv t' ∧
      t.toList = pre ++ (n, k) :: post ∧ t'.toList = pre ++ post ∧ tr'.len = tr.len - 1 ∧
      tr'.nodes (.node n) = some ⟨.null, .null, .null, c, 0⟩ ∧
      Heap.EqOff (.sentl :: addrs t.toList) tr.nodes tr'.nodes := by
  obtain ⟨len, root, h⟩ := tr
  obtain ⟨hr, hb, ⟨m, hm⟩, hblack, hlen⟩ := hi
  obtain ⟨k, hnk⟩ := node_mem_addrs.mp hn
  obtain ⟨K, c, l, r, rfl⟩ := exists_plug_of_mem hnk
  obtain ⟨j, hctx, ht, hc⟩ := ctxRB_of_plug hm hblack
  have hsize : r.toList.length < len + 1 := by
    rw [toList_plug] at hlen
    simp only [toList_node, length_append, length_cons] at hlen
    omega
  obtain ⟨next, h₁, K₁, t₁, he₁, hsp, hu, hn₁⟩ := treeRm_spec hr hb hsize
  obtain ⟨clr, h₂, K₂, he₂, hr₂, hs₂, hlost, hlist₂, hlen₂, hoff₂⟩ :=
    hsp.exchange hu.rep hu.sentl hctx ht hc
  obtain ⟨htl, htl₁⟩ := hsp.toList_eq (a := (n, k))
  have hfuel : K₂.length < len + 1 := by
    have h1 := length_le_plug K₁ t₁
    rw [htl₁] at h1
    rw [htl] at hlen
    simp only [length_append, length_cons] at h1 hlen
    omega
  obtain ⟨h₃, root₃, x, h₄, t', he₃, he₄, hr₄, hb₄, hm₄, hroot₄, hlist₄, hoff₄⟩ :=
    ffrbtRm_repair hr₂ hs₂ hlost hfuel
  rw [hlist₂] at hlist₄ hoff₄
  -- the removed node is not written to any more
  have hnot : Ptr.node n ∉ addrs (plug K₁ t₁).toList := by
    have hnd := hr.nodup
    rw [htl, addrs_append, addrs_cons, nodup_append, nodup_cons] at hnd
    rw [htl₁, addrs_append, mem_append, not_or]
    exact ⟨fun hh => hnd.2.2 _ hh _ mem_cons_self rfl, hnd.2.1.1⟩
  have hsub : addrs (plug K₁ t₁).toList ⊆ addrs (plug K (.node c l (n, k) r)).toList := by
    rw [htl, htl₁]
    intro q hq
    simp only [addrs_append, addrs_cons, mem_append, mem_cons] at hq ⊢
    tauto
  refine ⟨⟨len - 1, root₃, h₄⟩, t', k, _, _, c, ?_, ⟨hr₄, hb₄, hm₄, hroot₄, ?_⟩, htl,
    hlist₄.trans htl₁, rfl, ?_, ?_⟩
  · have hlen0 : len ≠ 0 := by
      rintro rfl
      simp [htl] at hlen
    simp only [ffrbtRm, hlen0, ne_eq, not_false_eq_true, guard_true, Option.pure_def,
      Option.bind_eq_bind, Option.bind_some, he₁, hn₁, he₂, he₃, he₄]
  · rw [htl] at hlen
    simp only [hlist₄, htl₁, length_append, length_cons] at hlen ⊢
    omega
  · dsimp only
    rw [hoff₄ _ (by simpa using hnot), hoff₂ _ hnot, hn₁]
  · refine hu.eqOff.trans ((hoff₂.mono ?_).trans (hoff₄.mono ?_))
    · exact fun q hq => mem_cons_of_mem _ (hsub hq)
    · exact cons_subset_cons _ hsub

end FF
