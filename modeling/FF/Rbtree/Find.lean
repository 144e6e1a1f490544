import Mathlib.Data.Nat.Basic
import Mathlib.Order.Basic
import FF.Rbtree.Rotate

/-!
# Search

`ffrbt_find` descends from the root. A frame that a descent with a key passes is `Below` that
key: the descent went left because the key is smaller, or right because it is not. In a tree
whose nodes are in order, this bounds everything before and after the hole.
-/

namespace FF

open FF.Tree FF.Ctx

/-- A descent with the key passes the frame on the side of its hole. -/
def Below (key : ℕ) (f : Frame (ℕ × ℕ)) : Prop :=
  match f.dir with
  | .left => key < f.elem.2
  | .right => f.elem.2 ≤ key

theorem KeySorted.bounds {K : NodeCtx} (hs : KeySorted (before K ++ after K))
    {L U : ℕ → Prop} (hL : ∀ a b, a ≤ b → L b → L a)
    (hU : ∀ a b, a ≤ b → U a → U b)
    (hctx : ∀ f ∈ K, match f.dir with | .left => U f.elem.2 | .right => L f.elem.2) :
    (∀ x ∈ before K, L x.2) ∧ ∀ x ∈ after K, U x.2 := by
  induction K with
  | nil => simp [before, after]
  | cons f K ih =>
    obtain ⟨d, c, a, s⟩ := f
    have hf := hctx _ List.mem_cons_self
    have hctx' := fun f hf => hctx f (List.mem_cons_of_mem _ hf)
    cases d with
    | left =>
      simp only [before, after, List.append_nil] at hs ⊢
      obtain ⟨h1, h2⟩ := ih (hs.sublist (by simp)) hctx'
      refine ⟨h1, fun x hx => ?_⟩
      simp only [List.cons_append, List.mem_cons, List.mem_append] at hx
      rcases hx with rfl | hx | hx
      · exact hf
      · have hs' := (List.pairwise_append.mp hs).2.1
        exact hU _ _ (List.rel_of_pairwise_cons hs' (by simp [hx])) hf
      · exact h2 x hx
    | right =>
      simp only [before, after, List.nil_append] at hs ⊢
      obtain ⟨h1, h2⟩ := ih (hs.sublist (by simp)) hctx'
      refine ⟨fun x hx => ?_, h2⟩
      simp only [List.mem_append, List.mem_singleton] at hx
      rcases hx with hx | hx | rfl
      · exact h1 x hx
      · have hs' := (List.pairwise_append.mp (List.pairwise_append.mp hs).1).2.1
        exact hL _ _ ((List.pairwise_append.mp hs').2.2 x hx a (by simp)) hf
      · exact hf

/-- Everything before a hole that a descent with the key reaches has a key that is at most as
large, and everything after it one that is at least as large. -/
theorem Below.bounds {key : ℕ} {K : NodeCtx} (hb : ∀ f ∈ K, Below key f)
    (hs : KeySorted (before K ++ after K)) :
    (∀ x ∈ before K, x.2 ≤ key) ∧ ∀ x ∈ after K, key ≤ x.2 := by
  refine hs.bounds (fun a b hab hb => hab.trans hb) (fun a b hab ha => ha.trans hab) fun f hf => ?_
  have hbf := hb f hf
  cases hd : f.dir with
  | left =>
    simp only [Below, hd] at hbf
    exact hbf.le
  | right => simpa [Below, hd] using hbf

theorem Below.key_ne {key : ℕ} {K : NodeCtx}
    (hb : ∀ f ∈ K, Below key f ∧ f.elem.2 ≠ key) (hs : KeySorted (before K ++ after K)) :
    ∀ x ∈ before K ++ after K, x.2 ≠ key := by
  obtain ⟨h1, h2⟩ := hs.bounds (L := (· < key)) (U := (key < ·))
    (fun a b hab hb => hab.trans_lt hb) (fun a b hab ha => ha.trans_le hab) fun f hf => by
      obtain ⟨hbf, hne⟩ := hb f hf
      cases hd : f.dir with
      | left => simpa [Below, hd] using hbf
      | right =>
        simp only [Below, hd] at hbf
        exact lt_of_le_of_ne hbf hne
  intro x hx
  rcases List.mem_append.mp hx with hx | hx
  · exact (h1 x hx).ne
  · exact (h2 x hx).ne'

/-- Where a search for the place of a new key may start: at `NULL` or the sentinel, which stand
for the root, or at a node that a descent with the key comes to. -/
def Ancestor (key : ℕ) (t : NodeTree) (p : Ptr) : Prop :=
  p = .null ∨ p = .sentl ∨
    ∃ K s, t = plug K s ∧ s ≠ .nil ∧ p = rootPtr s ∧ ∀ f ∈ K, Below key f

/-- **The descent of `fftree_findnode`** stops at a node with the key, or at an empty child
where no node passed has the key. -/
theorem findnodeLoop_spec {fuel : ℕ} (key : ℕ) {h : Nodes} {root last : Ptr} {K : NodeCtx}
    {t : NodeTree} (hr : Rep h root (plug K t))
    (hb : ∀ f ∈ K, Below key f ∧ f.elem.2 ≠ key)
    (hlast : t = .nil → last = ctxPtr K) (hfuel : t.toList.length < fuel) :
    (∃ K' n c l r, findnodeLoop fuel h key (rootPtr t) last = some (.node n, .node n) ∧
        plug K t = plug K' (.node c l (n, key) r) ∧ ∀ f ∈ K', Below key f) ∨
      ∃ K', findnodeLoop fuel h key (rootPtr t) last = some (.null, ctxPtr K') ∧
        plug K t = plug K' .nil ∧ ∀ f ∈ K', Below key f ∧ f.elem.2 ≠ key := by
  induction fuel generalizing K t last with
  | zero => omega
  | succ fuel ih =>
    by_cases h0 : t = .nil
    · subst h0
      exact .inr ⟨K, by simp [findnodeLoop, hlast rfl], rfl, hb⟩
    have hstep : ∀ d : Dir, ∀ c a t₁ t₂, t = mk d c a t₁ t₂ →
        Below key ⟨d, c, a, t₂⟩ → a.2 ≠ key →
        findnodeLoop (fuel + 1) h key (rootPtr t) last =
          findnodeLoop fuel h key (rootPtr t₁) (.node a.1) := by
      rintro d c a t₁ t₂ rfl hbelow hne
      have hcell := hr.cell
      rw [rootPtr_mk]
      cases d with
      | left =>
        have hlt : key < a.2 := hbelow
        simp [findnodeLoop, hcell, hlt, FF.cell]
      | right =>
        have hlt : a.2 < key := lt_of_le_of_ne hbelow hne
        simp [findnodeLoop, hcell, hlt, hlt.not_gt, FF.cell]
    obtain ⟨d, c, a, t₁, t₂, rfl, hd⟩ : ∃ d c a t₁ t₂, t = mk d c a t₁ t₂ ∧
        Below key ⟨d, c, a, t₂⟩ := by
      obtain ⟨c, a, t₁, t₂, rfl⟩ := exists_mk .left h0
      rcases lt_or_ge key a.2 with hlt | hge
      · exact ⟨.left, c, a, t₁, t₂, rfl, hlt⟩
      · exact ⟨.right, c, a, t₂, t₁, rfl, hge⟩
    by_cases hne : a.2 = key
    · obtain ⟨n, k⟩ := a
      obtain rfl : k = key := hne
      have hfound : findnodeLoop (fuel + 1) h k (rootPtr (mk d c (n, k) t₁ t₂)) last =
          some (.node n, .node n) := by
        rw [rootPtr_mk]
        simp [findnodeLoop, hr.cell]
      cases d with
      | left => exact .inl ⟨K, n, c, t₁, t₂, hfound, rfl, fun f hf => (hb f hf).1⟩
      | right => exact .inl ⟨K, n, c, t₂, t₁, hfound, rfl, fun f hf => (hb f hf).1⟩
    rw [hstep d c a t₁ t₂ rfl hd hne]
    have hlen : t₁.toList.length < fuel := by
      have := (mk_perm d c a t₁ t₂).length_eq
      simp only [List.length_cons, List.length_append] at this
      omega
    refine ih (K := ⟨d, c, a, t₂⟩ :: K) hr (fun f hf => ?_) (fun _ => rfl) hlen
    rcases List.mem_cons.mp hf with rfl | hf
    · exact ⟨hd, hne⟩
    · exact hb f hf

/-- **`ffrbt_find`**: a node found has the key; `NULL` means that no node has it; and the last
node visited is a place from which an insertion of the key may start. -/
theorem ffrbtFind_spec {tr : Ffrbtree} {t : NodeTree} (key : ℕ) (hi : tr.Inv t)
    (hsort : KeySorted t.toList) :
    ∃ q last, ffrbtFind tr key = some (q, last) ∧ Ancestor key t last ∧
      ((∃ n, q = .node n ∧ (n, key) ∈ t.toList) ∨
        (q = .null ∧ ∀ x ∈ t.toList, x.2 ≠ key)) := by
  have hlast : t = .nil → tr.root = ctxPtr [] := by
    rintro rfl
    exact hi.rep.root_eq
  have hfuel : t.toList.length < tr.len + 1 := by
    have := hi.len_le
    omega
  rcases findnodeLoop_spec key (K := []) hi.rep (by simp) hlast hfuel with
    ⟨K, n, c, l, r, he, hplug, hb⟩ | ⟨K, he, hplug, hb⟩
  · rw [← hi.rep.root_eq] at he
    simp only [plug_nil] at hplug
    refine ⟨_, _, he, .inr (.inr ⟨K, _, hplug, by simp, rfl, hb⟩), .inl ⟨n, rfl, ?_⟩⟩
    rw [hplug, toList_plug]
    simp
  rw [← hi.rep.root_eq] at he
  simp only [plug_nil] at hplug
  refine ⟨_, _, he, ?_, .inr ⟨rfl, ?_⟩⟩
  · cases K with
    | nil => exact .inr (.inl rfl)
    | cons f K =>
      exact .inr (.inr ⟨K, f.fill .nil, hplug, mk_ne_nil _ _ _ _ _, by simp,
        fun g hg => (hb g (List.mem_cons_of_mem _ hg)).1⟩)
  · have hl : t.toList = before K ++ after K := by simp [hplug, toList_plug]
    rw [hl]
    exact Below.key_ne hb (hl ▸ hsort)

end FF
