import FF.Rbtree.Run

/-!
# Walking over a tree

`FFTREE_WALK` starts at the minimum and goes on with `fftree_successor`, which descends into the
right subtree or climbs until it comes from the left. The node of a plugged tree that comes next is
the first one of its right subtree, or else of what is behind the hole (`Ctx.after`).
-/

namespace FF

open List Option

open FF.Tree FF.Ctx

/-! ### Program -/

/-- The loop of `fftree_successor`: go up until the node is the left child of its parent. -/
@[grind =] def successorLoop : ℕ → Nodes → Ptr → Ptr → Option Ptr
  | 0, _, _, _ => none
  | fuel + 1, h, it, nod =>
    if nod = .sentl then some nod
    else do
      let n ← h nod
      if it = n.right then successorLoop fuel h nod n.parent else some nod

/-- `fftree_successor`. -/
def fftreeSuccessor (fuel : ℕ) (h : Nodes) (it : Ptr) : Option Ptr := do
  guard (it ≠ .sentl)
  let n ← h it
  if n.right ≠ .sentl then fftreeMin fuel h n.right else successorLoop fuel h it n.parent

/-- The loop of `FFTREE_WALK`, with the nodes for which its body is run. -/
@[grind =] def walkLoop (steps : ℕ) (h : Nodes) : ℕ → Ptr → Option (List Ptr)
  | 0, _ => none
  | fuel + 1, nod =>
    if nod = .sentl then some []
    else do
      let next ← fftreeSuccessor steps h nod
      (walkLoop steps h fuel next).map (nod :: ·)

/-- `FFTREE_WALK`. -/
def fftreeWalk (tr : Ffrbtree) : Option (List Ptr) :=
  if tr.root = .sentl then some []
  else do
    let nod ← fftreeMin (tr.len + 1) tr.nodes tr.root
    walkLoop (tr.len + 1) tr.nodes (tr.len + 1) nod

/-! ### The next node -/

section Walk

variable {h : Nodes} {root : Ptr} {fuel : ℕ} {t : NodeTree}

/-- The pointer is the first of these nodes of the tree, with the rest behind it. -/
def Heads (t : NodeTree) (l : List (ℕ × ℕ)) (p : Ptr) : Prop :=
  (l = [] ∧ p = .sentl) ∨
    ∃ K c a s r, t = plug K (.node c s a r) ∧ p = .node a.1 ∧
      l = a :: (r.toList ++ Ctx.after K)

theorem minLoop_heads {K : NodeCtx} {u : NodeTree} (hr : Rep h root (plug K u)) (hu : u ≠ .nil)
    (hfuel : u.toList.length < fuel) :
    ∃ p, minLoop fuel h (rootPtr u) = some p ∧
      Heads (plug K u) (u.toList ++ Ctx.after K) p := by
  obtain ⟨M, c, m, s, he, rfl, hdir⟩ := minLoop_spec (rep_plug.mp hr).2.2.1 hu hfuel
  have hleft : before M = [] ∧ Ctx.after (M ++ K) = Ctx.after M ++ Ctx.after K := by
    clear hr hu hfuel he
    induction M with
    | nil => exact ⟨rfl, rfl⟩
    | cons f M ih =>
      obtain ⟨h1, h2⟩ := ih fun g hg => hdir g (mem_cons_of_mem _ hg)
      simp [before, Ctx.after, hdir f mem_cons_self, h1, h2]
  refine ⟨_, he, .inr ⟨M ++ K, c, m, .nil, s, (plug_append ..).symm, rfl, ?_⟩⟩
  rw [toList_plug, hleft.1, hleft.2]
  simp

theorem successorLoop_heads {K : NodeCtx} {u : NodeTree} (hr : Rep h root (plug K u))
    (hu : u ≠ .nil) (hfuel : K.length < fuel) :
    ∃ p, successorLoop fuel h (rootPtr u) (ctxPtr K) = some p ∧
      Heads (plug K u) (Ctx.after K) p := by
  induction fuel generalizing K u with
  | zero => omega
  | succ fuel ih =>
    cases K with
    | nil => exact ⟨.sentl, rfl, .inl ⟨rfl, rfl⟩⟩
    | cons f K =>
      have hcell := hr.frame_cell
      have hne := hr.rootPtr_ne_sib (.inl hu)
      rw [successorLoop, ctxPtr_cons, if_neg (by simp), hcell]
      obtain ⟨d, c, a, s⟩ := f
      cases d with
      | left => exact ⟨.node a.1, by simp [cell, hne], .inr ⟨K, c, a, u, s, rfl, rfl, rfl⟩⟩
      | right =>
        obtain ⟨p, hp, hheads⟩ := ih (u := .node c s a u) hr (by simp) (by simpa using hfuel)
        exact ⟨p, by simpa [cell] using hp, hheads⟩

/-- **`fftree_successor`** gives the node behind the given one. -/
theorem fftreeSuccessor_heads {K : NodeCtx} {c : Color} {a : ℕ × ℕ} {s r : NodeTree}
    (hr : Rep h root (plug K (.node c s a r)))
    (hfuel : (plug K (.node c s a r)).toList.length < fuel) :
    ∃ p, fftreeSuccessor fuel h (.node a.1) = some p ∧
      Heads (plug K (.node c s a r)) (r.toList ++ Ctx.after K) p := by
  have hcell := Rep.cell (d := .left) hr
  have hdepth := length_le_plug K (.node c s a r)
  have hright : r.toList.length < fuel := by
    rw [toList_plug] at hfuel
    simp only [toList_node, length_append, length_cons] at hfuel
    omega
  rw [fftreeSuccessor, hcell]
  by_cases h0 : r = .nil
  · obtain ⟨p, hp, hheads⟩ := @successorLoop_heads _ _ fuel K (.node c s a r) hr
      (by simp) (by omega)
    subst h0
    exact ⟨p, by simpa [cell] using hp, hheads⟩
  · have hplug : plug (⟨.right, c, a, s⟩ :: K) r = plug K (.node c s a r) := rfl
    rw [← hplug] at hr ⊢
    obtain ⟨p, hp, hheads⟩ := minLoop_heads hr h0 hright
    refine ⟨p, ?_, hheads⟩
    simpa [cell, fftreeMin, rootPtr_eq_sentl, h0] using hp

theorem walkLoop_heads {steps : ℕ} {p : Ptr} {l : List (ℕ × ℕ)} (hr : Rep h root t)
    (hsteps : t.toList.length < steps) (hp : Heads t l p) (hfuel : l.length < fuel) :
    walkLoop steps h fuel p = some (addrs l) := by
  induction l generalizing fuel p with
  | nil =>
    obtain ⟨n, rfl⟩ : ∃ n, fuel = n + 1 := ⟨fuel - 1, by omega⟩
    obtain ⟨-, rfl⟩ | ⟨K, c, a, s, r, -, -, hl⟩ := hp
    · rfl
    · cases hl
  | cons b l ih =>
    rw [length_cons] at hfuel
    obtain ⟨n, rfl⟩ : ∃ n, fuel = n + 1 := ⟨fuel - 1, by omega⟩
    obtain ⟨hl, -⟩ | ⟨K, c, a, s, r, rfl, rfl, hl⟩ := hp
    · cases hl
    obtain ⟨rfl, rfl⟩ := List.cons.inj hl
    obtain ⟨q, hq, hheads⟩ := fftreeSuccessor_heads hr hsteps
    have hrest : walkLoop steps h n q = some (addrs (r.toList ++ Ctx.after K)) :=
      ih hheads (by omega)
    rw [walkLoop, if_neg (by simp), hq, bind_eq_bind, bind_some, hrest]
    rfl

end Walk

/-- **The walk visits the nodes of the tree in order**, each of them once. -/
theorem fftreeWalk_spec {tr : Ffrbtree} {t : NodeTree} (hi : tr.Inv t) :
    fftreeWalk tr = some (addrs t.toList) := by
  have hlen := hi.len_le
  rw [fftreeWalk, hi.rep.root_eq]
  by_cases h0 : t = .nil
  · rw [if_pos (rootPtr_eq_sentl.mpr h0), h0]
    rfl
  · have hroot : rootPtr t ≠ .sentl := fun h => h0 (rootPtr_eq_sentl.mp h)
    obtain ⟨p, hp, hheads⟩ := @minLoop_heads _ _ (tr.len + 1) [] _ hi.rep h0 (by omega)
    rw [plug_nil, Ctx.after, append_nil] at hheads
    rw [if_neg hroot, fftreeMin, hp]
    simpa [hroot] using walkLoop_heads hi.rep (by omega) hheads (by omega)

/-- **After any run of insertions and removals** the walk ends, and gives the nodes that are in the
tree in the order of their keys. -/
theorem ffrbtWalk_runs {m : Nodes} {tr₀ : Ffrbtree} {o : List RbtOp}
    (hinit : ffrbtInit m = some tr₀)
    (hlegal : LegalRun rbtLive rbtStep (rbtLegal m) [] tr₀ o) :
    ∃ tr l, runs rbtStep tr₀ o = some (tr, (specRuns rbtLive [] o).2) ∧
      fftreeWalk tr = some (addrs l) ∧ l.Perm (specRuns rbtLive [] o).1 ∧ KeySorted l := by
  obtain ⟨tr, he, ⟨t, hi, hsort, hperm⟩, -⟩ :=
    (rbtStep_simulates m).runs (ffrbtInit_inv hinit) hlegal
  exact ⟨tr, t.toList, he, fftreeWalk_spec hi, hperm, hsort⟩

/-- Three insertions and a removal, and the walk over what is left. -/
theorem ffrbtWalk_runs_example :
    ∃ tr₀ tr l, ffrbtInit zeroNodes = some tr₀ ∧
      runs rbtStep tr₀ [.insert 1 5 false, .insert 2 3 true, .insert 3 5 true, .rm 1] =
        some (tr, [(), (), (), ()]) ∧
      fftreeWalk tr = some (addrs l) ∧ l.Perm [(3, 5), (2, 3)] ∧ KeySorted l := by
  obtain ⟨tr, l, he, hwalk, hperm, hsort⟩ := ffrbtWalk_runs (m := zeroNodes)
    (o := [.insert 1 5 false, .insert 2 3 true, .insert 3 5 true, .rm 1]) rfl
    (by simp [LegalRun, rbtLegal, rbtLive, addrs, zeroNodes])
  exact ⟨_, tr, l, rfl, he, hwalk, hperm, hsort⟩

end FF
