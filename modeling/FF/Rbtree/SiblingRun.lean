import FF.Rbtree.Run
import FF.Rbtree.Sibling

/-!
# Runs of operations on trees with sibling rings

Any sequence of `ffrbtl_insert`, `ffrbtl_rm` and `ffrbtl_move` from an empty tree. A node is
zeroed and gets its key before it is inserted; `ffrbtl_move` is called with the new key stored
in the node.

`ffrbtl_move` is a removal followed by an insertion, and the removal does not leave the new key
alone: `tree_rm` clears the key of a node without siblings, and a tree node with siblings hands
its key, the new one already, to the sibling that replaces it. `MoveOk` is what remains.
-/

namespace FF

open List Option

open FF.Tree FF.Ctx

/-! ### Calls -/

/-- The calls of a user; `move` stores the new key first. -/
inductive RbtlOp
  | insert (nod key : ℕ)
  | rm (nod : ℕ)
  | move (nod key : ℕ)
  deriving DecidableEq, Repr

/-- One call. -/
def rbtlStep (s : Ffrbtl) : RbtlOp → Option (Ffrbtl × Unit)
  | .insert nod key => do
      let h ← s.tr.nodes.modify (.node nod) fun _ => { FfrbtNode.zero with key := key }
      let sibs ← s.sibs.modify nod fun _ => .zero
      let s ← ffrbtlInsert ⟨{ s.tr with nodes := h }, sibs⟩ nod
      some (s, ())
  | .rm nod => do
      let s ← ffrbtlRm s nod
      some (s, ())
  | .move nod key => do
      let h ← s.tr.nodes.modify (.node nod) fun n => { n with key := key }
      let s ← ffrbtlMove { s with tr := { s.tr with nodes := h } } nod
      some (s, ())

/-- The nodes that have been inserted and not yet removed. -/
def rbtlLive (live : List (ℕ × ℕ)) : RbtlOp → List (ℕ × ℕ) × Unit
  | .insert nod key => ((nod, key) :: live, ())
  | .rm nod => (live.filter (fun a => a.1 ≠ nod), ())
  | .move nod key => ((nod, key) :: live.filter (fun a => a.1 ≠ nod), ())

/-- A node is inserted while it is not in the tree or a ring, from the memory of the user, and
removed or moved while it is. -/
def rbtlLegal (mem : Nodes) (sibs : Links ℕ) (live : List (ℕ × ℕ)) (_ : Ffrbtl) :
    RbtlOp → Prop
  | .insert nod _ =>
    nod ∉ live.map Prod.fst ∧ (mem (.node nod)).isSome ∧ (sibs nod).isSome
  | .rm nod => nod ∈ live.map Prod.fst
  | .move nod _ => nod ∈ live.map Prod.fst

/-- **When a move keeps the keys**: the node is a list item; or it is alone with its key, and
the new key is 0; or it is a tree node with siblings, and the key stays the same. -/
def MoveOk (s : Ffrbtl) (nod key : ℕ) : Prop :=
  ∃ c, s.tr.nodes (.node nod) = some c ∧
    if s.sibs.next nod = some nod then key = 0 else c.parent = .null ∨ key = c.key

/-- The calls for which the functions do what they are for. -/
def rbtlGood (mem : Nodes) (sibs : Links ℕ) (live : List (ℕ × ℕ)) (s : Ffrbtl) (op : RbtlOp) :
    Prop :=
  rbtlLegal mem sibs live s op ∧ ∀ nod key, op = .move nod key → MoveOk s nod key

/-! ### What holds of the tree and the rings in memory -/

/-- The red-black tree invariants, one tree node for every key, a ring of exactly the nodes with
the key at every tree node, and searches that end at them. -/
structure RbtlOk (s : Ffrbtl) (live : List (ℕ × ℕ)) : Prop where
  tree : ∃ t : NodeTree, Rep s.tr.nodes s.tr.root t ∧ IsBST t ∧ t.rootColor = .black ∧
    t.NoRedRed ∧ (∃ b, ∀ x ∈ t.blackCounts, x = b) ∧
    ParentLinks s.tr.nodes s.tr.root (addrs t.toList) ∧
    (t.toList.map Prod.snd).Nodup ∧ (∀ x ∈ live, ∃ n, (n, x.2) ∈ t.toList) ∧
    ∀ a ∈ t.toList, ∃ r, s.sibs.Ring (a.1 :: r) ∧ (a.1 :: r).Perm (members live a.2)
  sentl : SentlBlack s.tr.nodes
  len : s.tr.len = live.length
  /-- A search ends; it returns a node whose ring has all the nodes with the key, or `NULL` if
  there is none. -/
  find : ∀ key, ∃ q last, ffrbtFind s.tr key = some (q, last) ∧
    ((∃ n r, q = .node n ∧ s.sibs.Ring (n :: r) ∧ (n :: r).Perm (members live key)) ∨
      (q = .null ∧ ∀ x ∈ live, x.2 ≠ key))

/-- Removing a tree node whose next sibling is another node puts that node in its place. -/
def ReplacesInPlace (s : Ffrbtl) : Prop :=
  ∀ (K : NodeCtx) (c : Color) (l r : NodeTree) (n k m : ℕ),
    Rep s.tr.nodes s.tr.root (plug K (.node c l (n, k) r)) → s.sibs.next n = some m → m ≠ n →
    ∃ s', rbtlStep s (.rm n) = some (s', ()) ∧
      Rep s'.tr.nodes s'.tr.root (plug K (.node c l (m, k) r))

theorem Shape.unique {h : Nodes} {par par' : Ptr} {t t' : NodeTree} (hs : Shape h par t)
    (hs' : Shape h par' t') (hroot : rootPtr t = rootPtr t') : t = t' := by
  induction t generalizing par par' t' with
  | nil => exact (rootPtr_eq_sentl.mp hroot.symm).symm
  | node c l a r ihl ihr =>
    cases t' with
    | nil => simp at hroot
    | node c' l' a' r' =>
      obtain ⟨hc, hl, hr⟩ := hs
      obtain ⟨hc', hl', hr'⟩ := hs'
      obtain ⟨n, k⟩ := a
      obtain ⟨n', k'⟩ := a'
      obtain rfl : n = n' := by simpa using hroot
      have he := some.inj (hc.symm.trans hc')
      simp only [FfrbtNode.mk.injEq] at he
      obtain ⟨hle, hre, -, rfl, rfl⟩ := he
      rw [ihl hl hl' hle, ihr hr hr' hre]

theorem RbtlRep.rbtlOk {live : List (ℕ × ℕ)} {s : Ffrbtl} {t : NodeTree}
    (hs : RbtlRep live s t) : RbtlOk s live := by
  obtain ⟨m, hm⟩ := hs.inv.isRB
  refine ⟨⟨t, hs.inv.rep, hs.sorted.isBST, hs.inv.root_black, hm.noRedRed,
    ⟨m, hm.blackCounts_eq⟩, hs.inv.rep.parentLinks, hs.keys, hs.cover, hs.ring⟩, hs.inv.sentl,
    hs.len_eq, fun key => ?_⟩
  obtain ⟨q, last, he, -, ⟨n, hq, hmem⟩ | ⟨hq, hall⟩⟩ := ffrbtFind_spec key hs.inv hs.sorted
  · obtain ⟨r, hr, hperm⟩ := hs.ring _ hmem
    exact ⟨q, last, he, .inl ⟨n, r, hq, hr, hperm⟩⟩
  · refine ⟨q, last, he, .inr ⟨hq, fun x hx hxk => ?_⟩⟩
    obtain ⟨n, hn⟩ := hs.cover x hx
    exact hall _ hn hxk

theorem RbtlRep.replacesInPlace {live : List (ℕ × ℕ)} {s : Ffrbtl} {t : NodeTree}
    (hs : RbtlRep live s t) : ReplacesInPlace s := by
  intro K c l r n k m hrep hnext hmn
  have hroot : rootPtr t = rootPtr (plug K (.node c l (n, k) r)) :=
    hs.inv.rep.root_eq.symm.trans hrep.root_eq
  obtain rfl := hs.inv.rep.shape.unique hrep.shape hroot
  obtain ⟨m', s', hnext', he, hs', -⟩ := hs.rm_replace (by
    rw [hnext]
    simpa using hmn)
  obtain rfl : m = m' := some.inj (hnext.symm.trans hnext')
  exact ⟨s', by simp [rbtlStep, he], hs'.inv.rep⟩

/-! ### One call -/

theorem RbtlRep.set_free {live : List (ℕ × ℕ)} {s : Ffrbtl} {t : NodeTree}
    (hs : RbtlRep live s t) {n : ℕ} (hn : n ∉ live.map Prod.fst) (v : FfrbtNode)
    (w : FfchainItem ℕ) :
    RbtlRep live ⟨{ s.tr with nodes := s.tr.nodes.set (.node n) v }, s.sibs.set n w⟩ t := by
  have hne : ∀ k, (n, k) ∉ live := fun k hk => hn (mem_map_of_mem hk)
  refine ⟨hs.inv.set_key (hs.addr_notMem hn) v, hs.sorted, hs.keys, hs.sub, hs.cover,
    fun a ha => ?_, fun x hx hxt => ?_, hs.nodup, hs.len_eq⟩
  · refine hs.ring_congr ha (Heap.eqOff_set _ _ _) fun m hm => ?_
    obtain rfl := mem_singleton.mp hm
    exact hne _
  · obtain ⟨c, hc, hp⟩ := hs.item x hx hxt
    refine ⟨c, (Heap.set_of_ne _ _ fun e => ?_).trans hc, hp⟩
    obtain rfl : x.1 = n := by simpa using e
    exact hne _ hx

theorem RbtlRep.alloc {live : List (ℕ × ℕ)} {s : Ffrbtl} {t : NodeTree}
    (hs : RbtlRep live s t) {n : ℕ} (hn : n ∈ live.map Prod.fst) :
    (s.tr.nodes (.node n)).isSome ∧ (s.sibs n).isSome := by
  obtain ⟨⟨n', k⟩, hx, rfl⟩ := mem_map.mp hn
  obtain ⟨r, hr, -⟩ := hs.focus hx
  refine ⟨?_, hr.isSome mem_cons_self⟩
  by_cases ht : (n', k) ∈ t.toList
  · obtain ⟨_, _, _, _, _, _, _, hcell⟩ :=
      hs.inv.rep.exists_focus (node_mem_addrs.mpr ⟨k, ht⟩)
    simp [hcell]
  · obtain ⟨c, hc, -⟩ := hs.item _ hx ht
    simp [hc]

/-- **`ffrbtl_rm`**, with a key that the user may have stored in the node before. -/
theorem RbtlRep.rm {live : List (ℕ × ℕ)} {s : Ffrbtl} {t : NodeTree} (hs : RbtlRep live s t)
    {n k : ℕ} {c : FfrbtNode} (key : ℕ) (hn : (n, k) ∈ live)
    (hc : s.tr.nodes (.node n) = some c)
    (hkey : s.sibs.next n ≠ some n → c.parent = .null ∨ key = c.key) :
    ∃ s' t' c', ffrbtlRm (s.withKey n c key) n = some s' ∧
      RbtlRep (live.filter fun x => x.1 ≠ n) s' t' ∧ s'.tr.nodes (.node n) = some c' ∧
      c'.parent = .null ∧ c'.key = (if s.sibs.next n = some n then 0 else key) ∧
      (s'.sibs n).isSome ∧ Ffrbtl.EqOff (live.map Prod.fst) s s' := by
  by_cases hself : s.sibs.next n = some n
  · obtain ⟨s', t', cl, he, hs', hc', hsib, hoff⟩ := hs.rm_sole key hn hc hself
    refine ⟨s', t', _, he, hs', hc', rfl, by simp [hself], ?_, hoff⟩
    rw [hsib]
    exact (hs.alloc (mem_map_of_mem hn)).2
  by_cases hp : c.parent = .null
  · obtain ⟨s', he, hs', hc', hsib, hoff⟩ := hs.rm_item key hn hc hself hp
    exact ⟨s', t, _, he, hs', hc', hp, by simp [hself], by simp [hsib], hoff⟩
  obtain rfl := (hkey hself).resolve_left hp
  have ht : (n, k) ∈ t.toList := by
    by_contra ht
    obtain ⟨c', hc', hp'⟩ := hs.item _ hn ht
    obtain rfl := some.inj (hc.symm.trans hc')
    exact hp hp'
  have hwith : s.withKey n c c.key = s := by
    rw [Ffrbtl.withKey, Heap.set_eq_self hc]
  obtain ⟨K, cl, l, r, rfl⟩ := exists_plug_of_mem ht
  obtain ⟨m, s', -, he, hs', hc', hsib, hoff⟩ := hs.rm_replace hself
  have hck : c.key = k := by
    obtain rfl := some.inj (hc.symm.trans (Rep.cell (d := .left) hs.inv.rep))
    rfl
  exact ⟨s', _, _, by rw [hwith]; exact he, hs', hc', rfl, by simp [hself, hck],
    by simp [hsib], hoff⟩

/-- The relation between the nodes of the tree and its rings and the memory; `mem` and `sibs`
are the memory that the user allocated. -/
def RbtlInv (mem : Nodes) (sibs : Links ℕ) (live : List (ℕ × ℕ)) (s : Ffrbtl) : Prop :=
  (∃ t, RbtlRep live s t) ∧
    ∀ n, (mem (.node n)).isSome → (sibs n).isSome →
      (s.tr.nodes (.node n)).isSome ∧ (s.sibs n).isSome

/-- Memory stays allocated when a call writes to nodes that are in the tree and the rings before
or afterwards, and to `n`. -/
theorem RbtlInv.of_rep {mem : Nodes} {sibs : Links ℕ} {live live' : List (ℕ × ℕ)}
    {s s' : Ffrbtl} {t' : NodeTree} {n : ℕ} (hi : RbtlInv mem sibs live s)
    (hs' : RbtlRep live' s' t') (hoff : Ffrbtl.EqOff (n :: live.map Prod.fst) s s')
    (hlive : ∀ m ∈ live.map Prod.fst, m ≠ n → m ∈ live'.map Prod.fst)
    (hn : (s'.tr.nodes (.node n)).isSome ∧ (s'.sibs n).isSome) :
    RbtlInv mem sibs live' s' := by
  refine ⟨⟨t', hs'⟩, fun m hm hsm => ?_⟩
  by_cases hmn : m = n
  · subst hmn
    exact hn
  · by_cases hml : m ∈ live.map Prod.fst
    · exact hs'.alloc (hlive m hml hmn)
    · obtain ⟨h1, h2⟩ := hoff m (by simp [hmn, hml])
      rw [h1, h2]
      exact hi.2 m hm hsm

theorem mem_fst_erase {live : List (ℕ × ℕ)} {n m : ℕ} (hm : m ∈ live.map Prod.fst)
    (hmn : m ≠ n) : m ∈ (live.filter fun x => x.1 ≠ n).map Prod.fst := by
  obtain ⟨x, hx, rfl⟩ := mem_map.mp hm
  exact mem_map_of_mem (RbtlRep.mem_erase.mpr ⟨hx, hmn⟩)

/-- **One call keeps the invariant**, when a move is `MoveOk`. -/
theorem rbtlStep_simulates (mem : Nodes) (sibs : Links ℕ) :
    Simulates rbtlLive rbtlStep (rbtlGood mem sibs) (RbtlInv mem sibs) := by
  rintro live s op hi ⟨hlegal, hmove⟩
  obtain ⟨⟨t, hs⟩, halloc⟩ := id hi
  cases op with
  | insert n key =>
    obtain ⟨hn, hm, hsm⟩ := hlegal
    obtain ⟨h1, h2⟩ := halloc n hm hsm
    obtain ⟨c, hc⟩ := isSome_iff_exists.mp h1
    obtain ⟨x, hx⟩ := isSome_iff_exists.mp h2
    obtain ⟨s', t', he, hs', hoff⟩ := (hs.set_free hn { FfrbtNode.zero with key := key }
      .zero).insert hn (Heap.set_self ..) rfl (by simp)
    refine ⟨s', ?_, hi.of_rep (n := n) hs' (fun m hm => ?_) (fun m hm _ => ?_)
      (hs'.alloc (by simp))⟩
    · simp [rbtlStep, Heap.modify_of_some _ hc, Heap.modify_of_some _ hx, he, rbtlLive]
    · obtain ⟨h3, h4⟩ := hoff m hm
      have hmn : m ≠ n := fun e => hm (by simp [e])
      exact ⟨h3.trans (Heap.set_of_ne _ _ (by simpa using hmn)),
        h4.trans (Heap.set_of_ne _ _ hmn)⟩
    · exact mem_cons_of_mem _ hm
  | rm n =>
    obtain ⟨⟨n', k⟩, hn, rfl⟩ := mem_map.mp hlegal
    obtain ⟨c, hc⟩ := isSome_iff_exists.mp (hs.alloc (mem_map_of_mem hn)).1
    obtain ⟨s', t', c', he, hs', hc', -, -, hsib, hoff⟩ := hs.rm c.key hn hc
      fun _ => .inr rfl
    have hwith : s.withKey n' c c.key = s := by
      rw [Ffrbtl.withKey, Heap.set_eq_self hc]
    rw [hwith] at he
    refine ⟨s', by simp [rbtlStep, he, rbtlLive], hi.of_rep (n := n') hs'
      (fun m hm => hoff m fun h => hm (mem_cons_of_mem _ h))
      (fun m hm hmn => mem_fst_erase hm hmn) ⟨by simp [hc'], hsib⟩⟩
  | move n key =>
    obtain ⟨⟨n', k⟩, hn, rfl⟩ := mem_map.mp hlegal
    obtain ⟨c, hc, hok⟩ := hmove _ _ rfl
    obtain ⟨s', t', c', he, hs', hc', hp', hk', hsib, hoff⟩ := hs.rm key hn hc fun hself => by
      rwa [if_neg hself] at hok
    obtain rfl : c'.key = key := by
      rw [hk']
      split
      · rename_i hself
        rw [if_pos hself] at hok
        exact hok.symm
      · rfl
    have hn' : n' ∉ (live.filter fun x => x.1 ≠ n').map Prod.fst := by simp
    obtain ⟨s'', t'', he', hs'', hoff'⟩ := hs'.insert hn' hc' hp' hsib
    refine ⟨s'', ?_, hi.of_rep (n := n') hs'' (fun m hm => ?_) (fun m hm hmn => ?_)
      (hs''.alloc (by simp))⟩
    · have he'' : ffrbtlRm { s with tr := { s.tr with
          nodes := s.tr.nodes.set (.node n') { c with key := c'.key } } } n' = some s' := he
      simp [rbtlStep, Heap.modify_of_some _ hc, ffrbtlMove, he'', he', rbtlLive]
    · simp only [mem_cons, not_or] at hm
      obtain ⟨h1, h2⟩ := hoff m hm.2
      obtain ⟨h3, h4⟩ := hoff' m (by
        simp only [mem_cons, not_or]
        exact ⟨hm.1, fun h => hm.2 (List.Sublist.subset (filter_sublist.map _) h)⟩)
      exact ⟨h3.trans h1, h4.trans h2⟩
    · exact mem_cons_of_mem _ (mem_fst_erase hm hmn)

/-! ### Runs -/

theorem rbtlInit_inv {mem : Nodes} {sibs : Links ℕ} {tr : Ffrbtree}
    (hinit : ffrbtInit mem = some tr) : RbtlInv mem sibs [] ⟨tr, sibs⟩ := by
  obtain ⟨⟨t, hi, hsort, hperm⟩, hlen, halloc⟩ := ffrbtInit_inv hinit
  have ht : t.toList = [] := perm_nil.mp hperm
  exact ⟨⟨t, hi, hsort, by simp [ht], by simp [ht], by simp, by simp [ht], by simp, by simp,
    hlen⟩, fun n hm hsm => ⟨halloc n hm, hsm⟩⟩

/-- **Every run whose moves keep the keys succeeds and keeps the tree and its rings**, and a
tree node with siblings is replaced in its place. -/
theorem ffrbtl_runs {m : Nodes} {b : Links ℕ} {tr₀ : Ffrbtree} {o : List RbtlOp}
    (hinit : ffrbtInit m = some tr₀)
    (hgood : LegalRun rbtlLive rbtlStep (rbtlGood m b) [] ⟨tr₀, b⟩ o) :
    ∃ s, runs rbtlStep ⟨tr₀, b⟩ o = some (s, (specRuns rbtlLive [] o).2) ∧
      RbtlOk s (specRuns rbtlLive [] o).1 ∧ ReplacesInPlace s := by
  obtain ⟨s, he, ⟨t, hs⟩, -⟩ := (rbtlStep_simulates m b).runs (rbtlInit_inv hinit) hgood
  exact ⟨s, he, hs.rbtlOk, hs.replacesInPlace⟩

/-- Zeroed links of every node. -/
def zeroLinks : Links ℕ := fun _ => some .zero

/-- Two nodes with one key and a third one; the list item moves, and then the node that is left
alone moves to key 0. -/
theorem ffrbtl_runs_example :
    ∃ tr₀ s, ffrbtInit zeroNodes = some tr₀ ∧
      runs rbtlStep ⟨tr₀, zeroLinks⟩
        [.insert 1 5, .insert 2 5, .insert 3 9, .move 2 7, .move 1 0] =
        some (s, [(), (), (), (), ()]) ∧
      RbtlOk s [(1, 0), (2, 7), (3, 9)] ∧ ReplacesInPlace s := by
  obtain ⟨s, he, hok⟩ := ffrbtl_runs (m := zeroNodes) (b := zeroLinks)
    (o := [.insert 1 5, .insert 2 5, .insert 3 9, .move 2 7, .move 1 0]) rfl
    (.cons rfl ⟨by simp [rbtlLegal, zeroNodes, zeroLinks], by simp⟩
      (.cons rfl ⟨by simp [rbtlLegal, rbtlLive, zeroNodes, zeroLinks], by simp⟩
        (.cons rfl ⟨by simp [rbtlLegal, rbtlLive, zeroNodes, zeroLinks], by simp⟩
          (.cons rfl ⟨by simp [rbtlLegal, rbtlLive], by
            rintro _ _ ⟨rfl, rfl⟩
            exact ⟨_, rfl, by decide⟩⟩
            (.cons rfl ⟨by simp [rbtlLegal, rbtlLive], by
              rintro _ _ ⟨rfl, rfl⟩
              exact ⟨_, rfl, by decide⟩⟩ trivial)))))
  exact ⟨_, s, rfl, he, hok⟩

/-- **`ffrbtl_move` loses the new key** of a node without siblings: the removal clears it, and
the node is inserted under key 0. -/
theorem ffrbtl_move_loses_key :
    ¬ ∀ (m : Nodes) (b : Links ℕ) (tr₀ : Ffrbtree) (o : List RbtlOp), ffrbtInit m = some tr₀ →
      LegalRun rbtlLive rbtlStep (rbtlLegal m b) [] ⟨tr₀, b⟩ o →
      ∃ s, runs rbtlStep ⟨tr₀, b⟩ o = some (s, (specRuns rbtlLive [] o).2) ∧
        RbtlOk s (specRuns rbtlLive [] o).1 := by
  intro h
  obtain ⟨tr₀, htr₀⟩ : ∃ tr₀ : Ffrbtree, tr₀ =
      ⟨0, .sentl, zeroNodes.set .sentl FfrbtNode.zero⟩ := ⟨_, rfl⟩
  obtain ⟨s, he, hok⟩ := h zeroNodes zeroLinks tr₀ [.insert 1 5, .move 1 7] (by rw [htr₀]; rfl)
    (by simp [LegalRun, rbtlLegal, rbtlLive, zeroNodes, zeroLinks])
  have hnone : ((runs rbtlStep ⟨tr₀, zeroLinks⟩ [.insert 1 5, .move 1 7]).bind
      fun p => ffrbtFind p.1.tr 7) = some (.null, .node 1) := by
    rw [htr₀]
    rfl
  rw [he] at hnone
  obtain ⟨q, last, hq, ⟨n, r, rfl, -⟩ | ⟨rfl, hall⟩⟩ := hok.find 7
  · simp [hq] at hnone
  · exact hall (1, 7) (by simp [specRuns, rbtlLive]) rfl

end FF
