import FF.Rbtree.Shape
import Mathlib.Data.Option.Basic

/-!
# Rotations, relinking and recolouring

Specifications of the functions that change links and colours, on a represented tree with the
focus at the node they work on.
-/

namespace FF

open List Option

open FF.Tree FF.Ctx

/-- The tree `t` in memory has become `t'`, of the same nodes in the same order, by writes to
its own nodes only. -/
structure Evolves (h : Nodes) (t : NodeTree) (h' : Nodes) (root' : Ptr) (t' : NodeTree) :
    Prop where
  rep : Rep h' root' t'
  toList_eq : t'.toList = t.toList
  eqOff : Heap.EqOff (addrs t.toList) h h'

theorem Evolves.refl {h : Nodes} {root : Ptr} {t : NodeTree} (hr : Rep h root t) :
    Evolves h t h root t :=
  ⟨hr, rfl, .refl _ _⟩

theorem Evolves.trans {h₀ h₁ h₂ : Nodes} {r₁ r₂ : Ptr} {t₀ t₁ t₂ : NodeTree}
    (e₁ : Evolves h₀ t₀ h₁ r₁ t₁) (e₂ : Evolves h₁ t₁ h₂ r₂ t₂) : Evolves h₀ t₀ h₂ r₂ t₂ :=
  ⟨e₂.rep, e₂.toList_eq.trans e₁.toList_eq,
    e₁.eqOff.trans (by rw [← e₁.toList_eq]; exact e₂.eqOff)⟩

theorem Evolves.sentl {h h' : Nodes} {root' : Ptr} {t t' : NodeTree}
    (e : Evolves h t h' root' t') : h' .sentl = h .sentl :=
  e.eqOff _ (sentl_notMem_addrs _)

theorem Evolves.sentlBlack {h h' : Nodes} {root' : Ptr} {t t' : NodeTree}
    (e : Evolves h t h' root' t') (hs : SentlBlack h) : SentlBlack h' := by
  obtain ⟨s, h1, h2⟩ := hs
  exact ⟨s, e.sentl.trans h1, h2⟩

/-! ### Single writes -/

theorem Shape.set {h : Nodes} {par p : Ptr} {t : NodeTree} (hs : Shape h par t)
    (v : FfrbtNode) (hp : p ∉ addrs t.toList) : Shape (h.set p v) par t :=
  hs.congr fun _ hq => Heap.set_of_ne h v fun he => hp (he ▸ hq)

theorem ShapeCtx.set {h : Nodes} {p q : Ptr} {K : NodeCtx} (hs : ShapeCtx h q K)
    (v : FfrbtNode) (hp : p ∉ addrs (elems K)) : ShapeCtx (h.set p v) q K :=
  hs.congr fun _ hq => Heap.set_of_ne h v fun he => hp (he ▸ hq)

theorem reparent_spec {h : Nodes} {par : Ptr} {t : NodeTree} (q : Ptr)
    (hs : Shape h par t) (hn : (addrs t.toList).Nodup) :
    ∃ h', (if rootPtr t ≠ .sentl then setParent h (rootPtr t) q else pure h) = some h' ∧
      Shape h' q t ∧ ∀ p, p ∉ addrs t.toList → h' p = h p := by
  cases t with
  | nil => exact ⟨h, by simp, trivial, fun _ _ => rfl⟩
  | node c l a r =>
    obtain ⟨hc, hl, hr⟩ := hs
    simp only [toList_node, addrs_append, addrs_cons, nodup_append, nodup_cons, mem_cons] at hn
    have hal : Ptr.node a.1 ∉ addrs l.toList := fun hm => hn.2.2 _ hm _ (.inl rfl) rfl
    refine ⟨_, by simpa [setParent] using Heap.modify_of_some _ hc,
      ⟨by simp, hl.set _ hal, hr.set _ hn.2.1.1⟩, fun p hp => Heap.set_of_ne _ _ ?_⟩
    rintro rfl
    exact hp (by simp)

/-- The same when the write is made for the sentinel as well: the sentinel's parent link
changes then. -/
theorem setParent_spec {h : Nodes} {par : Ptr} {t : NodeTree} (q : Ptr)
    (hs : Shape h par t) (hn : (addrs t.toList).Nodup) {s : FfrbtNode}
    (hsentl : h .sentl = some s) :
    ∃ h', setParent h (rootPtr t) q = some h' ∧ Shape h' q t ∧
      (∀ p, p ∉ addrs t.toList → p ≠ .sentl → h' p = h p) ∧
      (t = .nil → h' .sentl = some { s with parent := q }) ∧
      (t ≠ .nil → h' .sentl = some s) := by
  cases t with
  | nil =>
    refine ⟨_, Heap.modify_of_some _ hsentl, trivial, fun p _ hp => Heap.set_of_ne _ _ hp,
      fun _ => by simp, fun h0 => absurd rfl h0⟩
  | node c l a r =>
    obtain ⟨h', he, hs', hag⟩ := reparent_spec q hs hn
    refine ⟨h', by simpa using he, hs', fun p hp _ => hag p hp,
      fun h0 => by simp at h0, fun _ => ?_⟩
    rw [hag _ (sentl_notMem_addrs _), hsentl]

/-! ### Relinking -/

theorem linkHole_spec {h : Nodes} {p : Ptr} {f : Frame (ℕ × ℕ)} {K : NodeCtx} (q : Ptr)
    (hctx : ShapeCtx h p (f :: K)) (hdup : (addrs (elems (f :: K))).Nodup) :
    ∃ h', (h.modify (.node f.elem.1) fun n => n.setChild f.dir q) = some h' ∧
      ShapeCtx h' q (f :: K) ∧ ∀ x, x ≠ .node f.elem.1 → h' x = h x := by
  obtain ⟨hf, hsib, hrest⟩ := hctx
  simp only [elems, addrs_cons, addrs_append, nodup_cons, mem_append, not_or] at hdup
  refine ⟨_, Heap.modify_of_some _ hf, ⟨?_, hsib.set _ hdup.1.1, hrest.set _ hdup.1.2⟩,
    fun x hx => Heap.set_of_ne _ _ hx⟩
  rw [Heap.set_self, cell_setChild]

/-- The hole of a context, filled with `p`, gets the node `nnew` instead; `nnew` may be the
sentinel. -/
theorem relinkParent_spec {h : Nodes} (root : Ptr) {p nnew : Ptr} {K : NodeCtx}
    {n m : FfrbtNode} (hctx : ShapeCtx h p K) (hdup : (addrs (elems K)).Nodup)
    (hp : h p = some n) (hpar : n.parent = ctxPtr K) (hnew : h nnew = some m)
    (hpc : p ∉ addrs (elems K)) (hps : p ≠ .sentl) (hnc : nnew ∉ addrs (elems K)) :
    ∃ h', relinkParent h root p nnew = some (h', if K = [] then nnew else root) ∧
      ShapeCtx h' nnew K ∧ h' nnew = some { m with parent := ctxPtr K } ∧
      ∀ q, q ≠ nnew → q ∉ addrs (elems K) → h' q = h q := by
  cases K with
  | nil =>
    refine ⟨h.set nnew { m with parent := .sentl }, ?_, trivial, by simp,
      fun q hq _ => Heap.set_of_ne _ _ hq⟩
    simp [relinkParent, hp, hpar, setParent, Heap.modify_of_some _ hnew]
  | cons f K =>
    obtain ⟨d, c, a, s⟩ := f
    obtain ⟨hf, hsib, hrest⟩ := hctx
    simp only [elems, addrs_cons, addrs_append, nodup_cons, mem_append,
      nodup_append, mem_cons, not_or] at hdup hpc hnc
    -- the test on the left child finds the side of the hole
    have hside : (if p = (cell d c a.2 p (rootPtr s) (ctxPtr K)).left then Dir.left
        else Dir.right) = d := by
      cases d with
      | left => simp [cell]
      | right =>
        have : p ≠ rootPtr s := by
          rintro rfl
          rcases eq_or_ne s .nil with rfl | h0
          · exact hps rfl
          · exact hpc.2.1 (rootPtr_mem h0)
        simp [cell, this]
    have hm : nnew ≠ .node a.1 := hnc.1
    set h₁ := h.set (.node a.1) (cell d c a.2 nnew (rootPtr s) (ctxPtr K)) with hh₁
    have hnew₁ : h₁ nnew = some m := by rw [hh₁, Heap.set_of_ne _ _ hm, hnew]
    refine ⟨h₁.set nnew { m with parent := .node a.1 }, ?_, ⟨?_, ?_, ?_⟩, by simp, ?_⟩
    · simp only [relinkParent, hp, bind_eq_bind, bind_some, hpar, ctxPtr_cons,
        reduceCtorEq, if_false, hf, hside]
      rw [Heap.modify_of_some _ hf]
      simp [setParent, Heap.modify_of_some _ hnew₁, ← hh₁]
    · rw [Heap.set_of_ne _ _ hm.symm, hh₁]
      simp
    · exact (hsib.set _ hdup.1.1).set _ hnc.2.1
    · exact (hrest.set _ hdup.1.2).set _ hnc.2.2
    · intro q hq hqc
      simp only [elems, addrs_cons, mem_cons, not_or] at hqc
      rw [Heap.set_of_ne _ _ hq, hh₁, Heap.set_of_ne _ _ hqc.1]

/-! ### Rotation -/

theorem rotate_addrs_perm (d : Dir) (cx cy : Color) (x y : ℕ × ℕ) (a b c : NodeTree)
    (K : NodeCtx) :
    (addrs ((mk d cx x a (mk d cy y b c)).toList ++ elems K)).Perm
      (.node x.1 :: .node y.1 :: (addrs a.toList ++ (addrs b.toList ++ (addrs c.toList ++
        addrs (elems K))))) := by
  have h1 := (mk_perm d cx x a (mk d cy y b c)).append_right (elems K)
  have h2 := ((mk_perm d cy y b c).append_left a.toList).cons x
  have h3 : (x :: (a.toList ++ y :: (b.toList ++ c.toList))).Perm
      (x :: y :: (a.toList ++ (b.toList ++ c.toList))) := perm_middle.cons x
  have h4 := h1.trans ((h2.trans h3).append_right (elems K))
  simpa [addrs] using h4.map fun a : ℕ × ℕ => Ptr.node a.1

/-- `rotate d` at `x`: the child `y` on the other side takes the place of `x`. -/
theorem rotate_spec {h : Nodes} {root : Ptr} {K : NodeCtx} {d : Dir} {cx cy : Color}
    {x y : ℕ × ℕ} {a b c : NodeTree}
    (hr : Rep h root (plug K (mk d cx x a (mk d cy y b c)))) :
    ∃ h' root', rotate d h root (.node x.1) = some (h', root') ∧
      Evolves h (plug K (mk d cx x a (mk d cy y b c))) h' root'
        (plug K (mk d cy y (mk d cx x a b) c)) := by
  obtain ⟨hroot, hctx, hx, hn⟩ := rep_plug.mp hr
  obtain ⟨hx, ha, hy⟩ := shape_mk.mp hx
  obtain ⟨hy, hb, hc⟩ := shape_mk.mp hy
  rw [rootPtr_mk] at hctx hx
  -- the nodes involved are pairwise different
  have hnd := (rotate_addrs_perm d cx cy x y a b c K).nodup_iff.mp hn
  simp only [nodup_cons, mem_cons, mem_append, not_or, nodup_append]
    at hnd
  obtain ⟨⟨hxy, hxa, hxb, hxc, hxk⟩, ⟨hya, hyb, hyc, hyk⟩, -, ⟨hbn, ⟨-, hkn, hck⟩, hbck⟩,
    habck⟩ := hnd
  have hba : ∀ p ∈ addrs a.toList, p ∉ addrs b.toList := fun p hp hp' =>
    habck p hp p (.inl hp') rfl
  have hbc : ∀ p ∈ addrs c.toList, p ∉ addrs b.toList := fun p hp hp' =>
    hbck p hp' p (.inl hp) rfl
  have hbk : ∀ p ∈ addrs (elems K), p ∉ addrs b.toList := fun p hp hp' =>
    hbck p hp' p (.inr hp) rfl
  have hak : ∀ p ∈ addrs a.toList, p ∉ addrs (elems K) := fun p hp hp' =>
    habck p hp p (.inr (.inr hp')) rfl
  have hck' : ∀ p ∈ addrs c.toList, p ∉ addrs (elems K) := fun p hp hp' => hck p hp p hp' rfl
  -- nod->right = r->left
  obtain ⟨h₁, hh₁⟩ : ∃ h₁, h₁ =
      h.set (.node x.1) (cell d cx x.2 (rootPtr a) (rootPtr b) (ctxPtr K)) := ⟨_, rfl⟩
  have hag₁ : ∀ p, p ≠ .node x.1 → h₁ p = h p := fun p hp => by
    rw [hh₁, Heap.set_of_ne _ _ hp]
  have hb₁ : Shape h₁ (.node y.1) b := hh₁ ▸ hb.set _ hxb
  obtain ⟨h₂, he₂, hb₂, hag₂⟩ := reparent_spec (.node x.1) hb₁ hbn
  have hx₂ : h₂ (.node x.1) = some (cell d cx x.2 (rootPtr a) (rootPtr b) (ctxPtr K)) := by
    rw [hag₂ _ hxb, hh₁, Heap.set_self]
  have hy₂ : h₂ (.node y.1) = some (cell d cy y.2 (rootPtr b) (rootPtr c) (.node x.1)) := by
    rw [hag₂ _ hyb, hag₁ _ (Ne.symm hxy), hy]
  have hctx₂ : ShapeCtx h₂ (.node x.1) K := hctx.congr fun p hp => by
    rw [hag₂ p (hbk p hp), hag₁ p fun e => hxk (e ▸ hp)]
  -- r takes the place of nod
  obtain ⟨h₃, he₃, hctx₃, hy₃, hag₃⟩ := relinkParent_spec root hctx₂ hkn hx₂
    (cell_parent ..) hy₂ hxk (by simp) hyk
  rw [cell_set_parent] at hy₃
  have hx₃ := (hag₃ _ hxy hxk).trans hx₂
  -- nod becomes a child of r
  obtain ⟨h₄, hh₄⟩ : ∃ h₄, h₄ =
      h₃.set (.node y.1) (cell d cy y.2 (.node x.1) (rootPtr c) (ctxPtr K)) := ⟨_, rfl⟩
  have hx₄ : h₄ (.node x.1) = some (cell d cx x.2 (rootPtr a) (rootPtr b) (ctxPtr K)) := by
    rw [hh₄, Heap.set_of_ne _ _ hxy, hx₃]
  obtain ⟨h₅, hh₅⟩ : ∃ h₅, h₅ =
      h₄.set (.node x.1) (cell d cx x.2 (rootPtr a) (rootPtr b) (.node y.1)) := ⟨_, rfl⟩
  have hag₅ : ∀ p, p ≠ .node x.1 → p ≠ .node y.1 → h₅ p = h₃ p := fun p hpx hpy => by
    rw [hh₅, Heap.set_of_ne _ _ hpx, hh₄, Heap.set_of_ne _ _ hpy]
  have hag : ∀ p, p ≠ .node x.1 → p ≠ .node y.1 → p ∉ addrs b.toList →
      p ∉ addrs (elems K) → h₅ p = h p := fun p hpx hpy hpb hpk => by
    rw [hag₅ p hpx hpy, hag₃ p hpy hpk, hag₂ p hpb, hag₁ p hpx]
  have heq : rotate d h root (.node x.1) =
      some (h₅, if K = [] then .node y.1 else root) := by
    simp only [rotate, hx, bind_eq_bind, bind_some, cell_child_other, ne_eq,
      reduceCtorEq, not_false_eq_true, and_self, guard_true, Option.pure_def, hy, cell_child]
    rw [Heap.modify_of_some _ hx, cell_setChild_other]
    simp only [bind_some]
    rw [← hh₁, ← Option.pure_def, he₂]
    simp only [bind_some]
    rw [he₃]
    simp only [bind_some, linkChild]
    rw [Heap.modify_of_some _ hy₃, cell_setChild, ← hh₄]
    simp only [bind_eq_bind, bind_some, setParent]
    rw [Heap.modify_of_some _ hx₄, cell_set_parent, ← hh₅]
    rfl
  refine ⟨h₅, _, heq, rep_plug.mpr
    ⟨?_, ?_, shape_mk.mpr ⟨?_, shape_mk.mpr ⟨?_, ?_, ?_⟩, ?_⟩, ?_⟩,
    toList_plug_congr K (toList_rotate ..).symm, ?_⟩
  · cases K with
    | nil => simp
    | cons f K =>
      rw [if_neg (by simp), hroot]
      exact rootPtr_plug_cons f K _ _
  · rw [rootPtr_mk]
    exact hctx₃.congr fun p hp => hag₅ p (fun e => hxk (e ▸ hp)) fun e => hyk (e ▸ hp)
  · rw [hh₅, Heap.set_of_ne _ _ (Ne.symm hxy), hh₄, Heap.set_self, rootPtr_mk]
  · rw [hh₅, Heap.set_self]
  · exact ha.congr fun p hp => hag p (fun e => hxa (e ▸ hp)) (fun e => hya (e ▸ hp))
      (hba p hp) (hak p hp)
  · exact hb₂.congr fun p hp => (hag₅ p (fun e => hxb (e ▸ hp)) fun e => hyb (e ▸ hp)).trans
      (hag₃ p (fun e => hyb (e ▸ hp)) fun hk => hbk p hk hp)
  · exact hc.congr fun p hp => hag p (fun e => hxc (e ▸ hp)) (fun e => hyc (e ▸ hp))
      (hbc p hp) (hck' p hp)
  · rwa [← toList_rotate d cx cy cy cx]
  · intro p hp
    rw [(addrs_plug_perm K _).mem_iff, (rotate_addrs_perm d cx cy x y a b c K).mem_iff] at hp
    simp only [mem_cons, mem_append, not_or] at hp
    obtain ⟨hpx, hpy, -, hpb, -, hpk⟩ := hp
    exact hag p hpx hpy hpb hpk

theorem rotate_up_spec {h : Nodes} {root : Ptr} {K : NodeCtx} {d : Dir} {cx cy : Color}
    {x y : ℕ × ℕ} {a b c : NodeTree}
    (hr : Rep h root (plug K (mk d cx x (mk d cy y a b) c))) :
    ∃ h' root', rotate d.other h root (.node x.1) = some (h', root') ∧
      Evolves h (plug K (mk d cx x (mk d cy y a b) c)) h' root'
        (plug K (mk d cy y a (mk d cx x b c))) := by
  have e₁ : mk d cx x (mk d cy y a b) c = mk d.other cx x c (mk d.other cy y b a) := by
    simp only [mk_other]
  have e₂ : mk d cy y a (mk d cx x b c) = mk d.other cy y (mk d.other cx x c b) a := by
    simp only [mk_other]
  rw [e₁] at hr ⊢
  rw [e₂]
  exact rotate_spec hr

/-! ### Recolouring -/

theorem Shape.color {h : Nodes} {par : Ptr} {t : NodeTree} (hs : Shape h par t)
    (hb : SentlBlack h) : ∃ n, h (rootPtr t) = some n ∧ n.color = t.rootColor := by
  cases t with
  | nil => exact hb
  | node c l a r => exact ⟨_, hs.1, rfl⟩

theorem setColor_spec {h : Nodes} {root : Ptr} {K : NodeCtx} {d : Dir} {c : Color}
    {a : ℕ × ℕ} {t s : NodeTree} (c' : Color) (hr : Rep h root (plug K (mk d c a t s))) :
    ∃ h', setColor h (.node a.1) c' = some h' ∧
      Evolves h (plug K (mk d c a t s)) h' root (plug K (mk d c' a t s)) := by
  obtain ⟨hroot, hctx, ht, hn⟩ := rep_plug.mp hr
  obtain ⟨hc, ht, hs⟩ := shape_mk.mp ht
  have hnd := (((mk_perm d c a t s).append_right (elems K)).map
    fun a : ℕ × ℕ => Ptr.node a.1).nodup_iff.mp hn
  simp only [cons_append, map_cons, nodup_cons, append_assoc, map_append, mem_append, not_or] at hnd
  obtain ⟨⟨hat, has, hak⟩, -⟩ := hnd
  refine ⟨_, Heap.modify_of_some _ hc, rep_plug.mpr ⟨?_, ?_, shape_mk.mpr ⟨?_, ht.set _ hat,
    hs.set _ has⟩, ?_⟩, toList_plug_congr K (by simp only [toList_mk]),
    fun p hp => Heap.set_of_ne _ _ fun e => hp ?_⟩
  · rw [hroot]
    exact rootPtr_plug_congr K (by simp)
  · rw [rootPtr_mk] at hctx ⊢
    exact hctx.set _ hak
  · rw [Heap.set_self, cell_set_color]
  · rwa [toList_mk, ← toList_mk d c]
  · exact e ▸ mem_addrs_plug K d c a t s

end FF
