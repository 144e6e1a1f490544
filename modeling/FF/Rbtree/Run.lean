import FF.Lib.Refine
import FF.Rbtree.Insert
import FF.Rbtree.Remove

/-!
# Runs of tree operations

Any sequence of insertions and removals from an empty tree, as a user of `ffrbt_insert` and
`ffrbt_rm` makes them: the key is stored in the node, the place for it is searched from the
root or from the node that `ffrbt_find` stopped at, and a node is inserted only while it is
not in the tree, removed only while it is.
-/

namespace FF

open List Option

open FF.Tree FF.Ctx

/-! ### Calls -/

/-- `ffrbt_insert4`: store the key and insert the node. -/
def ffrbtInsert4 (tr : Ffrbtree) (nod ancestor : Ptr) (key : ℕ) : Option Ffrbtree := do
  let h ← tr.nodes.modify nod fun n => { n with key := key }
  ffrbtInsert { tr with nodes := h } nod ancestor

/-- The calls of a user: insert a node with a key, with the ancestor that `ffrbt_find` returns
or with `NULL`, and remove a node. -/
inductive RbtOp
  | insert (nod key : ℕ) (useFind : Bool)
  | rm (nod : ℕ)
  deriving DecidableEq, Repr

/-- One call. -/
def rbtStep (tr : Ffrbtree) : RbtOp → Option (Ffrbtree × Unit)
  | .insert nod key useFind => do
      let ancestor ← (if useFind then (ffrbtFind tr key).map Prod.snd else some .null)
      let tr ← ffrbtInsert4 tr (.node nod) ancestor key
      some (tr, ())
  | .rm nod => do
      let tr ← ffrbtRm tr (.node nod)
      some (tr, ())

/-- The nodes that have been inserted and not yet removed. -/
def rbtLive (live : List (ℕ × ℕ)) : RbtOp → List (ℕ × ℕ) × Unit
  | .insert nod key _ => ((nod, key) :: live, ())
  | .rm nod => (live.filter (fun a => a.1 ≠ nod), ())

/-- A node is inserted while it is not in the tree, from the memory of the user, and removed
while it is in the tree. -/
def rbtLegal (mem : Nodes) (live : List (ℕ × ℕ)) (_ : Ffrbtree) : RbtOp → Prop
  | .insert nod _ _ => .node nod ∉ addrs live ∧ (mem (.node nod)).isSome
  | .rm nod => .node nod ∈ addrs live

/-! ### What holds of the tree in memory -/

/-- Binary search tree by key; equal keys may stand on both sides. -/
def IsBST : NodeTree → Prop
  | .nil => True
  | .node _ l a r =>
    (∀ x ∈ l.toList, x.2 ≤ a.2) ∧ (∀ x ∈ r.toList, a.2 ≤ x.2) ∧ IsBST l ∧ IsBST r

theorem KeySorted.isBST {t : NodeTree} (h : KeySorted t.toList) : IsBST t := by
  induction t with
  | nil => trivial
  | node c l a r ihl ihr =>
    obtain ⟨hl, hr, hlr⟩ := pairwise_append.mp h
    exact ⟨fun x hx => hlr x hx a mem_cons_self,
      fun x hx => rel_of_pairwise_cons hr hx, ihl hl, ihr hr.of_cons⟩

/-- The parent links are the inverse of the child links. -/
structure ParentLinks (h : Nodes) (root : Ptr) (nodes : List Ptr) : Prop where
  /-- The parent link of a node's child leads back to the node. -/
  child : ∀ p ∈ nodes, ∀ n, h p = some n → ∀ d, n.child d ≠ .sentl →
    n.child d ∈ nodes ∧ ∃ m, h (n.child d) = some m ∧ m.parent = p
  /-- A node is a child of the node that its parent link leads to; the root's is the
  sentinel. -/
  parent : ∀ p ∈ nodes, ∀ n, h p = some n →
    (n.parent = .sentl ∧ p = root) ∨
      (n.parent ∈ nodes ∧ p ≠ root ∧ ∃ m d, h n.parent = some m ∧ m.child d = p)

theorem Rep.parentLinks {h : Nodes} {root : Ptr} {t : NodeTree} (hr : Rep h root t) :
    ParentLinks h root (addrs t.toList) := by
  constructor
  · rintro p hp n hn d hd
    obtain ⟨K, c, a, l, r, rfl, rfl, hcell⟩ := hr.exists_focus hp
    obtain rfl := some.inj (hn.symm.trans hcell)
    have hs := (rep_plug.mp hr).2.2.1
    -- the child on the side `d` is a tree of its own
    obtain ⟨u, hu, hus, hmem⟩ : ∃ u, FfrbtNode.child
        ⟨rootPtr l, rootPtr r, ctxPtr K, c, a.2⟩ d = rootPtr u ∧
        Shape h (.node a.1) u ∧ (u ≠ .nil → rootPtr u ∈ addrs (Tree.node c l a r).toList) := by
      cases d with
      | left => exact ⟨l, rfl, hs.2.1, fun h0 => by simp [rootPtr_mem h0]⟩
      | right => exact ⟨r, rfl, hs.2.2, fun h0 => by simp [rootPtr_mem h0]⟩
    rw [hu] at hd ⊢
    have hu0 : u ≠ .nil := fun e => hd (rootPtr_eq_sentl.mpr e)
    refine ⟨?_, ?_⟩
    · rw [(addrs_plug_perm K _).mem_iff, addrs_append, mem_append]
      exact .inl (hmem hu0)
    · obtain ⟨c', b, u₁, u₂, rfl⟩ := exists_mk .left hu0
      exact ⟨_, by rw [rootPtr_mk]; exact (shape_mk.mp hus).1, cell_parent ..⟩
  rintro p hp n hn
  obtain ⟨K, c, a, l, r, rfl, rfl, hcell⟩ := hr.exists_focus hp
  obtain rfl := some.inj (hn.symm.trans hcell)
  have hroot := hr.rootPtr_eq_root_iff
  rw [rootPtr_node] at hroot
  cases K with
  | nil => exact .inl ⟨rfl, hroot.mpr rfl⟩
  | cons f K =>
    refine .inr ⟨?_, fun e => by simpa using hroot.mp e, _, f.dir, hr.frame_cell, by simp⟩
    rw [(addrs_plug_perm _ _).mem_iff]
    simp [elems]

/-- What the invariant of `ffrbtree` says of a tree in memory, and of a search in it. -/
structure RbtOk (tr : Ffrbtree) (live : List (ℕ × ℕ)) : Prop where
  /-- The links in memory are those of a tree. -/
  tree : ∃ t : NodeTree, Rep tr.nodes tr.root t ∧ IsBST t ∧ t.rootColor = .black ∧
    t.NoRedRed ∧ (∃ b, ∀ x ∈ t.blackCounts, x = b) ∧ tr.len = t.toList.length ∧
    t.toList.Perm live
  sentl : SentlBlack tr.nodes
  links : ParentLinks tr.nodes tr.root (addrs live)
  /-- A search ends; it returns a node with the key, or `NULL` if there is none. -/
  find : ∀ key, ∃ q last, ffrbtFind tr key = some (q, last) ∧
    ((∃ n, q = .node n ∧ (n, key) ∈ live) ∨ (q = .null ∧ ∀ x ∈ live, x.2 ≠ key))

theorem ParentLinks.perm {h : Nodes} {root : Ptr} {l m : List Ptr} (hl : ParentLinks h root l)
    (hp : l.Perm m) : ParentLinks h root m := by
  constructor
  · intro p hm n hn d hd
    obtain ⟨h1, h2⟩ := hl.child p (hp.mem_iff.mpr hm) n hn d hd
    exact ⟨hp.mem_iff.mp h1, h2⟩
  · intro p hm n hn
    rcases hl.parent p (hp.mem_iff.mpr hm) n hn with h1 | ⟨h1, h2⟩
    · exact .inl h1
    · exact .inr ⟨hp.mem_iff.mp h1, h2⟩

theorem Ffrbtree.Inv.rbtOk {tr : Ffrbtree} {t : NodeTree} {live : List (ℕ × ℕ)}
    (hi : tr.Inv t) (hsort : KeySorted t.toList) (hp : t.toList.Perm live)
    (hlen : tr.len = live.length) : RbtOk tr live := by
  obtain ⟨m, hm⟩ := hi.isRB
  refine ⟨⟨t, hi.rep, hsort.isBST, hi.root_black, hm.noRedRed, ⟨m, hm.blackCounts_eq⟩,
    hlen.trans hp.length_eq.symm, hp⟩, hi.sentl, hi.rep.parentLinks.perm (hp.map _),
    fun key => ?_⟩
  obtain ⟨q, last, he, -, ⟨n, hq, hmem⟩ | ⟨hq, hall⟩⟩ := ffrbtFind_spec key hi hsort
  · exact ⟨q, last, he, .inl ⟨n, hq, hp.mem_iff.mp hmem⟩⟩
  · exact ⟨q, last, he, .inr ⟨hq, fun x hx => hall x (hp.mem_iff.mpr hx)⟩⟩

/-! ### Runs -/

/-- The relation between the nodes that are in the tree and its memory; `mem` is the memory
that the user allocated. -/
def RbtInv (mem : Nodes) (live : List (ℕ × ℕ)) (tr : Ffrbtree) : Prop :=
  (∃ t, tr.Inv t ∧ KeySorted t.toList ∧ t.toList.Perm live) ∧ tr.len = live.length ∧
    ∀ n, (mem (.node n)).isSome → (tr.nodes (.node n)).isSome

/-- **One call keeps the invariant.** -/
theorem rbtStep_simulates (mem : Nodes) :
    Simulates rbtLive rbtStep (rbtLegal mem) (RbtInv mem) := by
  rintro live tr op ⟨⟨t, hi, hsort, hperm⟩, hlen, halloc⟩ hlegal
  have haddrs : (addrs t.toList).Perm (addrs live) := hperm.map _
  cases op with
  | insert n key useFind =>
    obtain ⟨hnew, hmem⟩ := hlegal
    have hnew' : Ptr.node n ∉ addrs t.toList := fun hh => hnew (haddrs.mem_iff.mp hh)
    obtain ⟨nn, hnn⟩ := isSome_iff_exists.mp (halloc n hmem)
    obtain ⟨ancestor, hanc, hanc'⟩ : ∃ p, (if useFind then (ffrbtFind tr key).map Prod.snd
        else some .null) = some p ∧ Ancestor key t p := by
      cases useFind with
      | false => exact ⟨.null, rfl, .inl rfl⟩
      | true =>
        obtain ⟨q, last, he, hlast, -⟩ := ffrbtFind_spec key hi hsort
        exact ⟨last, by simp [he], hlast⟩
    obtain ⟨tr', t', he, hi', hsort', hperm', hlen', hoff⟩ := ffrbtInsert_spec
      (hi.set_key hnew' { nn with key := key }) hsort (Heap.set_self ..) hnew' hanc'
    refine ⟨tr', ?_, ⟨t', hi', hsort', hperm'.trans (hperm.cons _)⟩, ?_, fun m hm => ?_⟩
    · rw [rbtStep, hanc]
      simp [ffrbtInsert4, Heap.modify_of_some _ hnn, he, rbtLive]
    · simp [hlen', hlen, rbtLive]
    by_cases hmt : Ptr.node m ∈ Ptr.node n :: addrs t.toList
    · have hmt' : Ptr.node m ∈ addrs t'.toList :=
        (hperm'.map fun a : ℕ × ℕ => Ptr.node a.1).mem_iff.mpr hmt
      obtain ⟨_, _, _, _, _, _, _, hcell⟩ := hi'.rep.exists_focus hmt'
      simp [hcell]
    · rw [hoff _ hmt]
      have hmn : Ptr.node m ≠ .node n := fun e => hmt (by simp [e])
      simpa [Heap.set_of_ne _ _ hmn] using halloc m hm
  | rm n =>
    have hn : Ptr.node n ∈ addrs t.toList := haddrs.mem_iff.mpr hlegal
    obtain ⟨tr', t', k, pre, post, c, he, hi', ht, ht', hlen', hnode, hoff⟩ :=
      ffrbtRm_spec hi hn
    have hnd := hi.rep.nodup
    rw [ht] at hnd
    have hfilter := filter_addr hnd
    rw [← ht, ← ht'] at hfilter
    have hperm' : t'.toList.Perm (live.filter (fun a => a.1 ≠ n)) := by
      rw [← hfilter]
      exact hperm.filter _
    refine ⟨tr', by simp [rbtStep, he, rbtLive], ⟨t', hi', ?_, hperm'⟩, ?_, fun m hm => ?_⟩
    · rw [ht']
      rw [ht] at hsort
      exact hsort.sublist (by simp)
    · rw [hlen', hlen, ← hperm.length_eq, ht, rbtLive, ← hperm'.length_eq, ht']
      simp only [length_append, length_cons]
      omega
    by_cases hmt : Ptr.node m ∈ addrs t.toList
    · by_cases hmn : m = n
      · subst hmn
        simp [hnode]
      have hmt' : Ptr.node m ∈ addrs t'.toList := by
        rw [ht] at hmt
        rw [ht']
        simpa [hmn] using hmt
      obtain ⟨_, _, _, _, _, _, _, hcell⟩ := hi'.rep.exists_focus hmt'
      simp [hcell]
    · rw [hoff _ (by simpa using hmt)]
      exact halloc m hm

theorem ffrbtInit_inv {mem : Nodes} {tr : Ffrbtree} (hinit : ffrbtInit mem = some tr) :
    RbtInv mem [] tr := by
  cases hs : mem .sentl with
  | none => simp [ffrbtInit, setColor, Heap.modify, hs] at hinit
  | some s =>
    simp only [ffrbtInit, setColor, Heap.modify_of_some _ hs, bind_eq_bind,
      bind_some, Option.pure_def, some.injEq] at hinit
    subst hinit
    refine ⟨⟨.nil, ⟨⟨rfl, trivial, by simp⟩, ⟨{ s with color := .black }, by simp, rfl⟩,
      ⟨0, .nil⟩, rfl, le_rfl⟩, List.Pairwise.nil, .refl _⟩, rfl, fun n hn => ?_⟩
    simpa [Heap.set_of_ne] using hn

/-- **Every run of insertions and removals from an empty tree succeeds and leaves a red-black
search tree of the nodes inserted and not yet removed.** -/
theorem ffrbtree_runs {m : Nodes} {tr₀ : Ffrbtree} {o : List RbtOp}
    (hinit : ffrbtInit m = some tr₀)
    (hlegal : LegalRun rbtLive rbtStep (rbtLegal m) [] tr₀ o) :
    ∃ tr, runs rbtStep tr₀ o = some (tr, (specRuns rbtLive [] o).2) ∧
      RbtOk tr (specRuns rbtLive [] o).1 := by
  obtain ⟨tr, he, ⟨t, hi, hsort, hperm⟩, hlen, -⟩ :=
    (rbtStep_simulates m).runs (ffrbtInit_inv hinit) hlegal
  exact ⟨tr, he, hi.rbtOk hsort hperm hlen⟩

/-- Memory in which the sentinel and every node are allocated and zeroed. -/
def zeroNodes : Nodes := fun p => if p = .null then none else some FfrbtNode.zero

/-- Three insertions, one of them at the place a search returned, and a removal. -/
theorem ffrbtree_runs_example :
    ∃ tr₀ tr, ffrbtInit zeroNodes = some tr₀ ∧
      runs rbtStep tr₀ [.insert 1 5 false, .insert 2 3 true, .insert 3 5 true, .rm 1] =
        some (tr, [(), (), (), ()]) ∧
      RbtOk tr [(3, 5), (2, 3)] := by
  obtain ⟨tr, he, hok⟩ := ffrbtree_runs (m := zeroNodes)
    (o := [.insert 1 5 false, .insert 2 3 true, .insert 3 5 true, .rm 1]) rfl
    (by simp [LegalRun, rbtLegal, rbtLive, addrs, zeroNodes])
  exact ⟨_, tr, rfl, he, hok⟩

end FF
