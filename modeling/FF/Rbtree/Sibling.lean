import FF.Chain
import FF.Rbtree.Insert
import FF.Rbtree.Remove

/-!
# Trees with sibling rings

`ffrbtl_insert`, `ffrbtl_rm` and `ffrbtl_move`. Nodes with equal keys form a ring through
their `sib` items; one of them is the node in the tree, and the others, the list items, are
recognised by their parent link `NULL`.
-/

namespace FF

open List

open FF.Tree FF.Ctx

/-! ### The functions -/

/-- A tree of `ffrbtl_node`s: the `sib` items are kept apart from the other fields. -/
structure Ffrbtl where
  tr : Ffrbtree
  sibs : Links ℕ

/-- `ffrbtl_insert3`. -/
def ffrbtlInsert3 (s : Ffrbtl) (nod : ℕ) (parent : Ptr) : Option Ffrbtl := do
  let tr ← ffrbtInsert s.tr (.node nod) parent
  let sibs ← s.sibs.modify nod fun _ => ⟨some nod, some nod⟩
  pure ⟨tr, sibs⟩

/-- `ffrbtl_insert`. -/
def ffrbtlInsert (s : Ffrbtl) (k : ℕ) : Option Ffrbtl := do
  let key := (← s.tr.nodes (.node k)).key
  let (found, n) ← ffrbtFind s.tr key
  match found with
  | .node f => do
      let sibs ← ffchainAppend s.sibs k f
      pure ⟨{ s.tr with len := s.tr.len + 1 }, sibs⟩
  | _ => ffrbtlInsert3 s k n

/-- The child of `k` on a side becomes that of `next`. -/
def adoptChild (d : Dir) (h : Nodes) (next k : Ptr) : Option Nodes := do
  let h ← h.modify next fun n => n.setChild d .sentl
  let c := (← h k).child d
  if c ≠ .sentl then linkChild d h next c else pure h

/-- The part of `ffrbtl_rm` that puts the sibling `next` in the place of the tree node `k`.
Returns the memory and the root. -/
def replaceBySibling (h : Nodes) (root k next : Ptr) : Option (Nodes × Ptr) := do
  let kn ← h k
  let h ← h.modify next fun n => { n with key := kn.key, color := kn.color }
  let (h, root) ← relinkParent h root k next
  let h ← adoptChild .left h next k
  let h ← adoptChild .right h next k
  let h ← h.modify k fun n => { n with left := .null, right := .null, parent := .null }
  pure (h, root)

/-- `ffrbtl_rm`. -/
def ffrbtlRm (s : Ffrbtl) (k : ℕ) : Option Ffrbtl := do
  guard (s.tr.len ≠ 0)
  let sib ← s.sibs k
  if sib.next = some k then do
    -- the node has no siblings
    let tr ← ffrbtRm s.tr (.node k)
    pure { s with tr := tr }
  else do
    let next ← sib.next
    let sibs ← ffchainUnlink s.sibs k
    if (← s.tr.nodes (.node k)).parent = .null then
      -- the node is just a list item
      pure ⟨{ s.tr with len := s.tr.len - 1 }, sibs⟩
    else do
      let (h, root) ← replaceBySibling s.tr.nodes s.tr.root (.node k) (.node next)
      pure ⟨⟨s.tr.len - 1, root, h⟩, sibs⟩

/-- `ffrbtl_move`. -/
def ffrbtlMove (s : Ffrbtl) (k : ℕ) : Option Ffrbtl := do
  let s ← ffrbtlRm s k
  ffrbtlInsert s k

/-! ### Replacement in place -/

theorem adoptChild_spec {h : Nodes} {d : Dir} {next k par : Ptr} {t : NodeTree}
    {nn kn : FfrbtNode} (hnext : h next = some nn) (hk : h k = some kn)
    (hkc : kn.child d = rootPtr t) (hnk : next ≠ k) (ht : Shape h par t)
    (hn : (addrs t.toList).Nodup) (hnt : next ∉ addrs t.toList) (hkt : k ∉ addrs t.toList) :
    ∃ h', adoptChild d h next k = some h' ∧ h' next = some (nn.setChild d (rootPtr t)) ∧
      Shape h' next t ∧ ∀ q, q ≠ next → q ∉ addrs t.toList → h' q = h q := by
  obtain ⟨h₁, hh₁⟩ : ∃ h₁, h₁ = h.set next (nn.setChild d .sentl) := ⟨_, rfl⟩
  have hn₁ : h₁ next = some (nn.setChild d .sentl) := by rw [hh₁, Heap.set_self]
  have hk₁ : h₁ k = some kn := by rw [hh₁, Heap.set_of_ne _ _ hnk.symm, hk]
  have hss : ∀ p, (nn.setChild d .sentl).setChild d p = nn.setChild d p := by
    intro p
    cases d <;> rfl
  by_cases h0 : t = .nil
  · subst h0
    refine ⟨h₁, ?_, hn₁, trivial, fun q hq _ => by rw [hh₁, Heap.set_of_ne _ _ hq]⟩
    simp [adoptChild, Heap.modify_of_some _ hnext, ← hh₁, hk₁, hkc]
  obtain ⟨h₂, hh₂⟩ : ∃ h₂, h₂ = h₁.set next (nn.setChild d (rootPtr t)) := ⟨_, rfl⟩
  have ht₂ : Shape h₂ par t := hh₂ ▸ (hh₁ ▸ ht.set _ hnt).set _ hnt
  obtain ⟨h₃, he₃, ht₃, hag₃⟩ := reparent_spec next ht₂ hn
  have hr0 : rootPtr t ≠ .sentl := fun e => h0 (rootPtr_eq_sentl.mp e)
  rw [if_pos hr0] at he₃
  refine ⟨h₃, ?_, ?_, ht₃, fun q hq hqt => ?_⟩
  · simp [adoptChild, Heap.modify_of_some _ hnext, ← hh₁, hk₁, hkc, hr0, linkChild,
      Heap.modify_of_some _ hn₁, hss, ← hh₂, he₃]
  · rw [hag₃ _ hnt, hh₂, Heap.set_self]
  · rw [hag₃ _ hqt, hh₂, Heap.set_of_ne _ _ hq, hh₁, Heap.set_of_ne _ _ hq]

/-- **The sibling `m` takes exactly the place of the tree node `a`**: its colour, parent,
children and key. -/
theorem replaceBySibling_spec {h : Nodes} {root : Ptr} {K : NodeCtx} {c : Color} {a : ℕ × ℕ}
    {l r : NodeTree} {m : ℕ} {mn : FfrbtNode} (hr : Rep h root (plug K (.node c l a r)))
    (hm : h (.node m) = some mn) (hmt : .node m ∉ addrs (plug K (.node c l a r)).toList) :
    ∃ h', replaceBySibling h root (.node a.1) (.node m) =
        some (h', rootPtr (plug K (.node c l (m, a.2) r))) ∧
      Rep h' (rootPtr (plug K (.node c l (m, a.2) r))) (plug K (.node c l (m, a.2) r)) ∧
      h' (.node a.1) = some ⟨.null, .null, .null, c, a.2⟩ ∧
      ∀ q, q ≠ .node m → q ∉ addrs (plug K (.node c l a r)).toList → h' q = h q := by
  obtain ⟨hroot, hctx, ⟨ha, hl, hr'⟩, hn⟩ := rep_plug.mp hr
  rw [rootPtr_node] at hctx
  -- the nodes involved are pairwise different
  have hp : ∀ x : ℕ × ℕ, (addrs ((Tree.node c l x r).toList ++ elems K)).Perm
      (.node x.1 :: (addrs l.toList ++ (addrs r.toList ++ addrs (elems K)))) := fun x => by
    simpa [addrs, mk] using ((mk_perm .left c x l r).append_right (elems K)).map
      fun a : ℕ × ℕ => Ptr.node a.1
  have hnd := (hp a).nodup_iff.mp hn
  rw [(addrs_plug_perm K _).mem_iff, (hp a).mem_iff] at hmt
  simp only [nodup_cons, mem_cons, mem_append, not_or, nodup_append]
    at hnd hmt
  obtain ⟨⟨hal, har, hak⟩, hln, ⟨hrn, hkn, hrk⟩, hlrk⟩ := hnd
  obtain ⟨hma, hml, hmr, hmk⟩ := hmt
  -- key and colour
  obtain ⟨h₁, hh₁⟩ : ∃ h₁, h₁ = h.set (.node m) { mn with key := a.2, color := c } := ⟨_, rfl⟩
  have hag₁ : ∀ q, q ≠ .node m → h₁ q = h q := fun q hq => by rw [hh₁, Heap.set_of_ne _ _ hq]
  have hm₁ : h₁ (.node m) = some { mn with key := a.2, color := c } := by rw [hh₁, Heap.set_self]
  have ha₁ := (hag₁ _ (Ne.symm hma)).trans ha
  have hctx₁ : ShapeCtx h₁ (.node a.1) K := hh₁ ▸ hctx.set _ hmk
  -- the parent
  obtain ⟨h₂, he₂, hctx₂, hm₂, hag₂⟩ := relinkParent_spec root hctx₁ hkn ha₁ rfl hm₁ hak
    (by simp) hmk
  have hroot₂ : (if K = [] then Ptr.node m else root) =
      rootPtr (plug K (.node c l (m, a.2) r)) := by
    rw [hroot]
    exact rootPtr_relink K _ (.node c l (m, a.2) r)
  rw [hroot₂] at he₂
  have ha₂ := (hag₂ _ (Ne.symm hma) hak).trans ha₁
  have hl₂ : Shape h₂ (.node a.1) l := hl.congr fun q hq =>
    (hag₂ q (fun e => hml (e ▸ hq)) fun hk => hlrk q hq q (.inr hk) rfl).trans
      (hag₁ q fun e => hml (e ▸ hq))
  have hr₂ : Shape h₂ (.node a.1) r := hr'.congr fun q hq =>
    (hag₂ q (fun e => hmr (e ▸ hq)) fun hk => hrk q hq q hk rfl).trans
      (hag₁ q fun e => hmr (e ▸ hq))
  -- the children
  obtain ⟨h₃, he₃, hm₃, hl₃, hag₃⟩ := adoptChild_spec (d := .left) hm₂ ha₂ rfl hma hl₂ hln hml
    hal
  have ha₃ := (hag₃ _ (Ne.symm hma) hal).trans ha₂
  have hr₃ : Shape h₃ (.node a.1) r := hr₂.congr fun q hq =>
    hag₃ q (fun e => hmr (e ▸ hq)) fun hql => hlrk q hql q (.inl hq) rfl
  obtain ⟨h₄, he₄, hm₄, hr₄, hag₄⟩ := adoptChild_spec (d := .right) hm₃ ha₃ rfl hma hr₃ hrn hmr
    har
  have ha₄ := (hag₄ _ (Ne.symm hma) har).trans ha₃
  obtain ⟨h₅, hh₅⟩ : ∃ h₅, h₅ = h₄.set (.node a.1) ⟨.null, .null, .null, c, a.2⟩ := ⟨_, rfl⟩
  have hag₅ : ∀ q, q ≠ .node a.1 → h₅ q = h₄ q := fun q hq => by rw [hh₅, Heap.set_of_ne _ _ hq]
  refine ⟨h₅, ?_, rep_plug.mpr ⟨rfl, ?_, ⟨?_, ?_, ?_⟩, ?_⟩, by rw [hh₅, Heap.set_self],
    fun q hqm hq => ?_⟩
  · simp [replaceBySibling, ha, Heap.modify_of_some _ hm, ← hh₁, he₂, he₃, he₄,
      Heap.modify_of_some _ ha₄, ← hh₅]
  · refine hctx₂.congr fun q hq => ?_
    have hqm : q ≠ .node m := fun e => hmk (e ▸ hq)
    rw [hag₅ q fun e => hak (e ▸ hq), hag₄ q hqm fun hqr => hrk q hqr q hq rfl,
      hag₃ q hqm fun hql => hlrk q hql q (.inr hq) rfl]
  · rw [hag₅ _ hma, hm₄]
    rfl
  · exact hl₃.congr fun q hq => (hag₅ q fun e => hal (e ▸ hq)).trans
      (hag₄ q (fun e => hml (e ▸ hq)) fun hqr => hlrk q hq q (.inl hqr) rfl)
  · exact hr₄.congr fun q hq => hag₅ q fun e => har (e ▸ hq)
  · rw [(hp (m, a.2)).nodup_iff]
    refine nodup_cons.mpr ⟨?_, (nodup_cons.mp ((hp a).nodup_iff.mp hn)).2⟩
    simp only [mem_append, not_or]
    exact ⟨hml, hmr, hmk⟩
  · rw [(addrs_plug_perm K _).mem_iff, (hp a).mem_iff] at hq
    simp only [mem_cons, mem_append, not_or] at hq
    rw [hag₅ q hq.1, hag₄ q hqm hq.2.2.1, hag₃ q hqm hq.2.1, hag₂ q hqm hq.2.2.2, hag₁ q hqm]

/-! ### Rings -/

/-- The nodes with a key. -/
def members (live : List (ℕ × ℕ)) (k : ℕ) : List ℕ :=
  (live.filter fun x => x.2 = k).map Prod.fst

theorem mem_members {live : List (ℕ × ℕ)} {n k : ℕ} :
    n ∈ members live k ↔ (n, k) ∈ live := by
  simp [members]

theorem members_cons (live : List (ℕ × ℕ)) (n k j : ℕ) :
    members ((n, k) :: live) j = if k = j then n :: members live j else members live j := by
  by_cases hkj : k = j
  · simp [members, hkj]
  · simp [members, hkj]

theorem members_nodup {live : List (ℕ × ℕ)} (hn : (live.map Prod.fst).Nodup) (k : ℕ) :
    (members live k).Nodup :=
  hn.sublist (filter_sublist.map _)

theorem members_erase (live : List (ℕ × ℕ)) (n k : ℕ) :
    members (live.filter fun x => x.1 ≠ n) k = (members live k).filter (· ≠ n) := by
  simp only [members, filter_map, filter_filter]
  congr 1
  refine filter_congr fun x _ => ?_
  simp [Bool.and_comm]

theorem key_unique {live : List (ℕ × ℕ)} (hn : (live.map Prod.fst).Nodup) {n k j : ℕ}
    (hk : (n, k) ∈ live) (hj : (n, j) ∈ live) : k = j := by
  have := inj_on_of_nodup_map hn hk hj rfl
  exact congrArg Prod.snd this

/-- **A tree with sibling rings in memory**: the tree `t` holds one node of every key, the ring
of a tree node holds exactly the nodes of `live` with its key, the other nodes have the parent
link `NULL`, and `len` counts them all. -/
structure RbtlRep (live : List (ℕ × ℕ)) (s : Ffrbtl) (t : NodeTree) : Prop where
  inv : s.tr.Inv t
  sorted : KeySorted t.toList
  keys : (t.toList.map Prod.snd).Nodup
  sub : ∀ a ∈ t.toList, a ∈ live
  cover : ∀ x ∈ live, ∃ n, (n, x.2) ∈ t.toList
  ring : ∀ a ∈ t.toList, ∃ r, s.sibs.Ring (a.1 :: r) ∧ (a.1 :: r).Perm (members live a.2)
  item : ∀ x ∈ live, x ∉ t.toList → ∃ c, s.tr.nodes (.node x.1) = some c ∧ c.parent = .null
  nodup : (live.map Prod.fst).Nodup
  len_eq : s.tr.len = live.length

/-- What a call leaves alone: the nodes outside `S`. -/
def Ffrbtl.EqOff (S : List ℕ) (s s' : Ffrbtl) : Prop :=
  ∀ n, n ∉ S → s'.tr.nodes (.node n) = s.tr.nodes (.node n) ∧ s'.sibs n = s.sibs n

/-- The user stores a key into a node. -/
def Ffrbtl.withKey (s : Ffrbtl) (n : ℕ) (c : FfrbtNode) (key : ℕ) : Ffrbtl :=
  { s with tr := { s.tr with nodes := s.tr.nodes.set (.node n) { c with key := key } } }

namespace RbtlRep

variable {live : List (ℕ × ℕ)} {s : Ffrbtl} {t : NodeTree}

theorem focus (hs : RbtlRep live s t) {n k : ℕ} (hn : (n, k) ∈ live) :
    ∃ r, s.sibs.Ring (n :: r) ∧ (n :: r).Perm (members live k) := by
  obtain ⟨m, hm⟩ := hs.cover _ hn
  obtain ⟨r, hr, hperm⟩ := hs.ring _ hm
  obtain ⟨r', hr', hperm'⟩ := FF.Ring.focus hr (hperm.mem_iff.mpr (mem_members.mpr hn))
  exact ⟨r', hr', hperm'.trans hperm⟩

theorem addr_notMem (hs : RbtlRep live s t) {n : ℕ} (hn : n ∉ live.map Prod.fst) :
    Ptr.node n ∉ addrs t.toList := by
  rw [node_mem_addrs]
  rintro ⟨k, hk⟩
  exact hn (mem_map_of_mem (hs.sub _ hk))

/-- The sibling rings of other keys are not touched by writes to the nodes of `S`. -/
theorem ring_congr (hs : RbtlRep live s t) {sibs' : Links ℕ} {S : List ℕ} {a : ℕ × ℕ}
    (ha : a ∈ t.toList) (hoff : Heap.EqOff S s.sibs sibs')
    (hS : ∀ n ∈ S, (n, a.2) ∉ live) :
    ∃ r, sibs'.Ring (a.1 :: r) ∧ (a.1 :: r).Perm (members live a.2) := by
  obtain ⟨r, hr, hperm⟩ := hs.ring a ha
  refine ⟨r, hr.congr fun n hn => hoff n fun hnS => ?_, hperm⟩
  exact hS n hnS (mem_members.mp (hperm.mem_iff.mp hn))

/-! ### Insertion -/

/-- **A node with a known key** becomes a list item, after any of the nodes with that key. -/
theorem append (hs : RbtlRep live s t) {n k after : ℕ} {c : FfrbtNode}
    (hn : n ∉ live.map Prod.fst) (hc : s.tr.nodes (.node n) = some c) (hp : c.parent = .null)
    (hsib : (s.sibs n).isSome) (hafter : (after, k) ∈ live) :
    ∃ sibs', ffchainAppend s.sibs n after = some sibs' ∧
      RbtlRep ((n, k) :: live) ⟨{ s.tr with len := s.tr.len + 1 }, sibs'⟩ t ∧
      Ffrbtl.EqOff (n :: live.map Prod.fst) s ⟨{ s.tr with len := s.tr.len + 1 }, sibs'⟩ := by
  obtain ⟨r, hr, hperm⟩ := hs.focus hafter
  have hnot : ∀ j, (n, j) ∉ live := fun j hj => hn (mem_map_of_mem hj)
  have hnr : n ∉ after :: r := fun hm => hnot k (mem_members.mp (hperm.mem_iff.mp hm))
  have hnd : (after :: r).Nodup := hperm.nodup_iff.mpr (members_nodup hs.nodup k)
  have hnd' : (after :: n :: r).Nodup := by
    simp only [nodup_cons, mem_cons, not_or] at hnr hnd ⊢
    exact ⟨⟨Ne.symm hnr.1, hnd.1⟩, hnr.2, hnd.2⟩
  obtain ⟨sibs', he, hr', -, hoff⟩ := ffchainAppend_spec hr hnd' hsib
  have hperm' : (after :: n :: r).Perm (members ((n, k) :: live) k) := by
    rw [members_cons, if_pos rfl]
    exact (List.Perm.swap n after r).trans (hperm.cons n)
  refine ⟨sibs', he, ⟨?_, hs.sorted, hs.keys, fun a ha => mem_cons_of_mem _ (hs.sub a ha),
    ?_, ?_, ?_, ?_, ?_⟩, fun m hm => ⟨rfl, hoff m fun hmem => hm ?_⟩⟩
  · exact ⟨hs.inv.rep, hs.inv.sentl, hs.inv.isRB, hs.inv.root_black,
      Nat.le_succ_of_le hs.inv.len_le⟩
  · intro x hx
    rcases mem_cons.mp hx with rfl | hx
    · exact hs.cover (after, k) hafter
    · exact hs.cover x hx
  · intro a ha
    by_cases hak : a.2 = k
    · have hmem : a.1 ∈ after :: n :: r := by
        rw [hperm'.mem_iff, mem_members, ← hak]
        exact mem_cons_of_mem _ (hs.sub a ha)
      obtain ⟨r', hr'', hperm''⟩ := FF.Ring.focus hr' hmem
      exact ⟨r', hr'', by rw [hak]; exact hperm''.trans hperm'⟩
    rw [members_cons, if_neg (Ne.symm hak)]
    refine hs.ring_congr ha hoff fun m hm hm' => ?_
    rcases mem_cons.mp (hperm'.mem_iff.mp hm |> fun h => by
      simpa [members_cons] using h) with rfl | hm''
    · exact hnot _ hm'
    · exact hak (key_unique hs.nodup hm' (mem_members.mp hm''))
  · intro x hx hxt
    rcases mem_cons.mp hx with rfl | hx
    · exact ⟨c, hc, hp⟩
    · exact hs.item x hx hxt
  · exact nodup_cons.mpr ⟨hn, hs.nodup⟩
  · simp [hs.len_eq]
  · have := hperm'.mem_iff.mp hmem
    rw [members_cons, if_pos rfl] at this
    rcases mem_cons.mp this with rfl | hm'
    · exact mem_cons_self
    · exact mem_cons_of_mem _ (mem_map_of_mem (mem_members.mp hm'))

/-- **A node with a new key** goes into the tree, with a ring of its own. -/
theorem insert3 (hs : RbtlRep live s t) {n : ℕ} {c : FfrbtNode} {parent : Ptr}
    (hn : n ∉ live.map Prod.fst) (hc : s.tr.nodes (.node n) = some c)
    (hsib : (s.sibs n).isSome) (hnew : ∀ x ∈ live, x.2 ≠ c.key)
    (hanc : Ancestor c.key t parent) :
    ∃ s' t', ffrbtlInsert3 s n parent = some s' ∧ RbtlRep ((n, c.key) :: live) s' t' ∧
      Ffrbtl.EqOff (n :: live.map Prod.fst) s s' := by
  obtain ⟨tr', t', he, hi', hsort', hperm, hlen, hoff⟩ := ffrbtInsert_spec hs.inv hs.sorted hc
    (hs.addr_notMem hn) hanc
  obtain ⟨x, hx⟩ := Option.isSome_iff_exists.mp hsib
  have hne : ∀ m, m ∈ live.map Prod.fst → m ≠ n := fun m hm e => hn (e ▸ hm)
  have hoff' : Heap.EqOff [n] s.sibs (s.sibs.set n ⟨some n, some n⟩) :=
    Heap.eqOff_set _ _ _
  refine ⟨⟨tr', s.sibs.set n ⟨some n, some n⟩⟩, t', ?_, ⟨hi', hsort', ?_, ?_, ?_, ?_, ?_, ?_, ?_⟩,
    fun m hm => ⟨?_, hoff' m ?_⟩⟩
  · simp [ffrbtlInsert3, he, Heap.modify_of_some _ hx]
  · rw [(hperm.map _).nodup_iff]
    refine nodup_cons.mpr ⟨fun hmem => ?_, hs.keys⟩
    obtain ⟨a, ha, hak⟩ := mem_map.mp hmem
    exact hnew a (hs.sub a ha) hak
  · intro a ha
    rcases mem_cons.mp (hperm.mem_iff.mp ha) with rfl | ha
    · exact mem_cons_self
    · exact mem_cons_of_mem _ (hs.sub a ha)
  · intro x hx
    rcases mem_cons.mp hx with rfl | hx
    · exact ⟨n, hperm.mem_iff.mpr mem_cons_self⟩
    · obtain ⟨m, hm⟩ := hs.cover x hx
      exact ⟨m, hperm.mem_iff.mpr (mem_cons_of_mem _ hm)⟩
  · intro a ha
    rcases mem_cons.mp (hperm.mem_iff.mp ha) with rfl | ha
    · refine ⟨[], ring_singleton.mpr ⟨by simp [Links.next], by simp [Links.prev]⟩, ?_⟩
      have hnil : members live c.key = [] := by
        refine eq_nil_iff_forall_not_mem.mpr fun m hm => ?_
        exact hnew _ (mem_members.mp hm) rfl
      simp [members_cons, hnil]
    · have hak : c.key ≠ a.2 := Ne.symm (hnew a (hs.sub a ha))
      rw [members_cons, if_neg hak]
      refine hs.ring_congr ha hoff' fun m hm hm' => ?_
      obtain rfl := mem_singleton.mp hm
      exact hn (mem_map_of_mem hm')
  · intro x hx hxt
    rcases mem_cons.mp hx with rfl | hx
    · exact absurd (hperm.mem_iff.mpr mem_cons_self) hxt
    have hxt' : x ∉ t.toList := fun h => hxt (hperm.mem_iff.mpr (mem_cons_of_mem _ h))
    obtain ⟨cx, hcx, hcp⟩ := hs.item x hx hxt'
    refine ⟨cx, (hoff _ ?_).trans hcx, hcp⟩
    rw [mem_cons, not_or, node_mem_addrs]
    refine ⟨fun e => hne x.1 (mem_map_of_mem hx) (by simpa using e), ?_⟩
    rintro ⟨k, hk⟩
    have hkey := key_unique hs.nodup hx (hs.sub _ hk)
    exact hxt' (by rwa [← hkey] at hk)
  · exact nodup_cons.mpr ⟨hn, hs.nodup⟩
  · simp [hlen, hs.len_eq]
  · refine hoff _ ?_
    simp only [mem_cons, not_or, node_mem_addrs] at hm ⊢
    refine ⟨fun e => hm.1 (by simpa using e), ?_⟩
    rintro ⟨k, hk⟩
    exact hm.2 (mem_map_of_mem (hs.sub _ hk))
  · simp only [mem_cons, not_or] at hm
    simp [hm.1]

/-- **`ffrbtl_insert`** keeps the representation. -/
theorem insert (hs : RbtlRep live s t) {n : ℕ} {c : FfrbtNode}
    (hn : n ∉ live.map Prod.fst) (hc : s.tr.nodes (.node n) = some c) (hp : c.parent = .null)
    (hsib : (s.sibs n).isSome) :
    ∃ s' t', ffrbtlInsert s n = some s' ∧ RbtlRep ((n, c.key) :: live) s' t' ∧
      Ffrbtl.EqOff (n :: live.map Prod.fst) s s' := by
  obtain ⟨q, last, he, hanc, ⟨f, rfl, hf⟩ | ⟨rfl, hnone⟩⟩ := ffrbtFind_spec c.key hs.inv hs.sorted
  · obtain ⟨sibs', he', hs', hoff⟩ := hs.append hn hc hp hsib (hs.sub _ hf)
    exact ⟨_, t, by simp [ffrbtlInsert, hc, he, he'], hs', hoff⟩
  · have hnew : ∀ x ∈ live, x.2 ≠ c.key := fun x hx hxk => by
      obtain ⟨m, hm⟩ := hs.cover x hx
      exact hnone _ hm hxk
    obtain ⟨s', t', he', hs', hoff⟩ := hs.insert3 hn hc hsib hnew hanc
    exact ⟨s', t', by simp [ffrbtlInsert, hc, he, he'], hs', hoff⟩

/-! ### Removal

The user may have stored another key in the node already, as before `ffrbtl_move`. -/

theorem live_erase {n k : ℕ} (hnd : (live.map Prod.fst).Nodup) (hn : (n, k) ∈ live) :
    ∃ pre post, live = pre ++ (n, k) :: post ∧
      live.filter (fun x => x.1 ≠ n) = pre ++ post := by
  obtain ⟨pre, post, rfl⟩ := append_of_mem hn
  exact ⟨pre, post, rfl, filter_addr (addrs_nodup_iff.mpr hnd)⟩

theorem mem_erase {n : ℕ} {x : ℕ × ℕ} :
    x ∈ live.filter (fun x => x.1 ≠ n) ↔ x ∈ live ∧ x.1 ≠ n := by
  simp

theorem length_erase {n k : ℕ} (hs : RbtlRep live s t) (hn : (n, k) ∈ live) :
    (live.filter fun x => x.1 ≠ n).length = s.tr.len - 1 := by
  obtain ⟨pre, post, hl, hf⟩ := live_erase hs.nodup hn
  rw [hs.len_eq, hf]
  simp [hl]

theorem members_erase_of_ne {n k j : ℕ} (hs : RbtlRep live s t) (hn : (n, k) ∈ live)
    (hjk : j ≠ k) : members (live.filter fun x => x.1 ≠ n) j = members live j := by
  rw [members_erase]
  refine filter_eq_self.mpr fun m hm => ?_
  have hmn : m ≠ n := by
    rintro rfl
    exact hjk (key_unique hs.nodup (mem_members.mp hm) hn)
  simpa using hmn

theorem members_erase_self {n k : ℕ} {r : List ℕ} (hs : RbtlRep live s t)
    (hperm : (n :: r).Perm (members live k)) :
    r.Perm (members (live.filter fun x => x.1 ≠ n) k) := by
  have hnd : (n :: r).Nodup := hperm.nodup_iff.mpr (members_nodup hs.nodup k)
  rw [members_erase]
  have hf : (n :: r).filter (fun m => decide (m ≠ n)) = r := by
    rw [filter_cons]
    simp only [ne_eq, not_true_eq_false, decide_false, Bool.false_eq_true, if_false]
    refine filter_eq_self.mpr fun m hm => ?_
    have hmn : m ≠ n := fun e => (nodup_cons.mp hnd).1 (e ▸ hm)
    simpa using hmn
  rw [← hf]
  exact hperm.filter _

/-- **A node without siblings** is removed from the tree, and its key is cleared. -/
theorem rm_sole (hs : RbtlRep live s t) {n k : ℕ} {c : FfrbtNode} (key : ℕ)
    (hn : (n, k) ∈ live) (hc : s.tr.nodes (.node n) = some c) (hself : s.sibs.next n = some n) :
    ∃ s' t' cl, ffrbtlRm (s.withKey n c key) n = some s' ∧
      RbtlRep (live.filter fun x => x.1 ≠ n) s' t' ∧
      s'.tr.nodes (.node n) = some ⟨.null, .null, .null, cl, 0⟩ ∧ s'.sibs = s.sibs ∧
      Ffrbtl.EqOff (live.map Prod.fst) s s' := by
  -- the node is alone with its key, hence in the tree
  obtain ⟨r, hr, hperm⟩ := hs.focus hn
  have hnd : (n :: r).Nodup := hperm.nodup_iff.mpr (members_nodup hs.nodup k)
  have hone : n :: r = [n] := FF.Ring.eq_singleton hr hnd mem_cons_self hself
  have honly : ∀ m, (m, k) ∈ live → m = n := fun m hm => by
    have := hperm.mem_iff.mpr (mem_members.mpr hm)
    rw [hone] at this
    exact mem_singleton.mp this
  have hnt : (n, k) ∈ t.toList := by
    obtain ⟨m, hm⟩ := hs.cover _ hn
    rwa [honly m (hs.sub _ hm)] at hm
  -- the tree with the new key in the node
  obtain ⟨K, cl, l, r', rfl⟩ := exists_plug_of_mem hnt
  obtain ⟨hroot, hctx, ⟨hcell, hl, hr'⟩, hnd'⟩ := rep_plug.mp hs.inv.rep
  obtain rfl := Option.some.inj (hc.symm.trans hcell)
  have hp : ∀ x, (addrs ((Tree.node cl l (n, x) r').toList ++ elems K)).Perm
      (.node n :: (addrs l.toList ++ (addrs r'.toList ++ addrs (elems K)))) := fun x => by
    simpa [addrs, mk] using ((mk_perm .left cl (n, x) l r').append_right (elems K)).map
      fun a : ℕ × ℕ => Ptr.node a.1
  have hnot := (nodup_cons.mp ((hp k).nodup_iff.mp hnd')).1
  simp only [mem_append, not_or] at hnot
  have hinv : (s.withKey n ⟨rootPtr l, rootPtr r', ctxPtr K, cl, k⟩ key).tr.Inv
      (plug K (.node cl l (n, key) r')) := by
    obtain ⟨m, hm⟩ := hs.inv.isRB
    obtain ⟨j, hctx', ht', hc'⟩ := ctxRB_of_plug hm hs.inv.root_black
    have ht'' : IsRB (.node cl l (n, key) r') j := by
      cases ht' with
      | red h1 h2 h3 h4 => exact .red h1 h2 h3 h4
      | black h1 h2 => exact .black h1 h2
    obtain ⟨hm', hblack⟩ := isRB_plug hctx' ht'' hc'
    obtain ⟨z, hz, hzc⟩ := hs.inv.sentl
    refine ⟨rep_plug.mpr ⟨?_, hctx.set _ hnot.2.2, ⟨Heap.set_self .., hl.set _ hnot.1,
      hr'.set _ hnot.2.1⟩, ?_⟩, ⟨z, ?_, hzc⟩, hm', hblack, ?_⟩
    · exact hroot.trans (rootPtr_plug_congr K rfl)
    · rw [(hp key).nodup_iff, ← (hp k).nodup_iff]
      exact hnd'
    · simpa [Ffrbtl.withKey, Heap.set] using hz
    · refine le_trans (le_of_eq ?_) hs.inv.len_le
      simp [toList_plug]
  have hmem : Ptr.node n ∈ addrs (plug K (.node cl l (n, key) r')).toList :=
    mem_addrs_plug K .left cl (n, key) l r'
  obtain ⟨tr', t', k', pre, post, cl', he, hi', ht, ht', hlen, hcell', hoff⟩ :=
    ffrbtRm_spec hinv hmem
  -- what is left in the tree
  have hfilter : t'.toList =
      (plug K (.node cl l (n, k) r')).toList.filter fun x => x.1 ≠ n := by
    have h1 := filter_addr (ht ▸ hinv.rep.nodup)
    rw [ht', ← h1, ← ht]
    simp [toList_plug]
  have haddr : addrs (plug K (.node cl l (n, key) r')).toList =
      addrs (plug K (.node cl l (n, k) r')).toList := by
    simp [toList_plug]
  rw [haddr] at hoff
  have hsub : t'.toList.Sublist (plug K (.node cl l (n, k) r')).toList := by
    rw [hfilter]
    exact filter_sublist
  have hnodes : ∀ m, m ∉ live.map Prod.fst → tr'.nodes (.node m) = s.tr.nodes (.node m) := by
    intro m hm
    have hmn : m ≠ n := fun e => hm (e ▸ mem_map_of_mem hn)
    rw [hoff (.node m) ?_]
    · exact Heap.set_of_ne _ _ (by simpa using hmn)
    · rw [mem_cons, not_or]
      exact ⟨by simp, hs.addr_notMem hm⟩
  refine ⟨⟨tr', s.sibs⟩, t', cl', ?_, ⟨hi', hs.sorted.sublist hsub, hs.keys.sublist (hsub.map _),
    ?_, ?_, ?_, ?_, ?_, ?_⟩, hcell', rfl, fun m hm => ⟨hnodes m hm, rfl⟩⟩
  · obtain ⟨x, hx⟩ := Option.isSome_iff_exists.mp (hr.isSome mem_cons_self)
    have hxn : x.next = some n := by simpa [Links.next, hx] using hself
    have hlen0 : s.tr.len ≠ 0 := by
      rw [hs.len_eq]
      exact ne_nil_of_mem hn |> fun h => by simpa using h
    have he' : ffrbtRm (s.withKey n ⟨rootPtr l, rootPtr r', ctxPtr K, cl, k⟩ key).tr (.node n) =
        some tr' := he
    simp [ffrbtlRm, Ffrbtl.withKey, hlen0, hx, hxn] at he' ⊢
    simp [he']
  · intro a ha
    rw [hfilter, mem_erase] at ha
    exact mem_erase.mpr ⟨hs.sub a ha.1, ha.2⟩
  · intro x hx
    obtain ⟨hx', hxn⟩ := mem_erase.mp hx
    obtain ⟨m, hm⟩ := hs.cover x hx'
    refine ⟨m, ?_⟩
    rw [hfilter, mem_erase]
    refine ⟨hm, fun hmn => hxn ?_⟩
    obtain rfl : m = n := hmn
    have hxk : x.2 = k := key_unique hs.nodup (hs.sub _ hm) hn
    exact honly x.1 (hxk ▸ hx')
  · intro a ha
    rw [hfilter, mem_erase] at ha
    have hak : a.2 ≠ k := fun e => ha.2 (honly a.1 (e ▸ hs.sub a ha.1))
    rw [hs.members_erase_of_ne hn hak]
    exact hs.ring a ha.1
  · intro x hx hxt
    obtain ⟨hx, hxn⟩ := mem_erase.mp hx
    have hxt' : x ∉ (plug K (.node cl l (n, k) r')).toList := fun h => hxt (by
      rw [hfilter, mem_erase]
      exact ⟨h, hxn⟩)
    obtain ⟨cx, hcx, hcp⟩ := hs.item x hx hxt'
    refine ⟨cx, ?_, hcp⟩
    rw [← hcx, hoff (.node x.1) ?_]
    · exact Heap.set_of_ne _ _ (by simpa using hxn)
    · rw [mem_cons, not_or, node_mem_addrs]
      refine ⟨by simp, ?_⟩
      rintro ⟨j, hj⟩
      have hkey := key_unique hs.nodup hx (hs.sub _ hj)
      exact hxt' (by rwa [← hkey] at hj)
  · exact hs.nodup.sublist (filter_sublist.map _)
  · rw [hs.length_erase hn]
    exact hlen

theorem unlink (hs : RbtlRep live s t) {n k : ℕ} (hn : (n, k) ∈ live)
    (hself : s.sibs.next n ≠ some n) :
    ∃ m r sibs', s.sibs.next n = some m ∧ m ≠ n ∧ (m, k) ∈ live ∧
      ffchainUnlink s.sibs n = some sibs' ∧ sibs' n = some .zero ∧ sibs'.Ring (m :: r) ∧
      (m :: r).Perm (members (live.filter fun x => x.1 ≠ n) k) ∧
      Heap.EqOff (members live k) s.sibs sibs' := by
  obtain ⟨r, hr, hperm⟩ := hs.focus hn
  have hnd : (n :: r).Nodup := hperm.nodup_iff.mpr (members_nodup hs.nodup k)
  cases r with
  | nil => exact absurd (ring_singleton.mp hr).1 hself
  | cons m r =>
    obtain ⟨sibs', he, hr', hz, -, hoff⟩ := ffchainUnlink_spec hr hnd (by simp)
    have hm : (m, k) ∈ live := mem_members.mp (hperm.mem_iff.mp (by simp))
    refine ⟨m, r, sibs', (FF.Ring.next hr).1, ?_, hm, he, hz, hr',
      hs.members_erase_self hperm, hoff.mono fun x hx => hperm.mem_iff.mp hx⟩
    rintro rfl
    simp at hnd

theorem ring_erase (hs : RbtlRep live s t) {n k m : ℕ} {r : List ℕ} {sibs' : Links ℕ}
    (hn : (n, k) ∈ live) (hr : sibs'.Ring (m :: r))
    (hperm : (m :: r).Perm (members (live.filter fun x => x.1 ≠ n) k))
    (hoff : Heap.EqOff (members live k) s.sibs sibs') {a : ℕ × ℕ} (ha : a ∈ live)
    (han : a.1 ≠ n) :
    ∃ r', sibs'.Ring (a.1 :: r') ∧
      (a.1 :: r').Perm (members (live.filter fun x => x.1 ≠ n) a.2) := by
  by_cases hak : a.2 = k
  · have hmem : a.1 ∈ m :: r := by
      rw [hperm.mem_iff, mem_members, ← hak, mem_erase]
      exact ⟨ha, han⟩
    obtain ⟨r', hr', hperm'⟩ := FF.Ring.focus hr hmem
    exact ⟨r', hr', hak ▸ hperm'.trans hperm⟩
  · rw [hs.members_erase_of_ne hn hak]
    obtain ⟨r', hr', hperm'⟩ := hs.focus ha
    refine ⟨r', hr'.congr fun x hx => hoff x fun hxk => ?_, hperm'⟩
    exact hak (key_unique hs.nodup (mem_members.mp (hperm'.mem_iff.mp hx)) (mem_members.mp hxk))

/-- **A list item** leaves its ring. -/
theorem rm_item (hs : RbtlRep live s t) {n k : ℕ} {c : FfrbtNode} (key : ℕ)
    (hn : (n, k) ∈ live) (hc : s.tr.nodes (.node n) = some c)
    (hself : s.sibs.next n ≠ some n) (hpar : c.parent = .null) :
    ∃ s', ffrbtlRm (s.withKey n c key) n = some s' ∧
      RbtlRep (live.filter fun x => x.1 ≠ n) s' t ∧
      s'.tr.nodes (.node n) = some { c with key := key } ∧ s'.sibs n = some .zero ∧
      Ffrbtl.EqOff (live.map Prod.fst) s s' := by
  obtain ⟨m, r, sibs', hnext, hmn, hm, he, hz, hr, hperm, hoff⟩ := hs.unlink hn hself
  have hnt : (n, k) ∉ t.toList := fun hh => by
    obtain ⟨K, _, _, _, _, rfl, he', hcell⟩ :=
      hs.inv.rep.exists_focus (node_mem_addrs.mpr ⟨k, hh⟩)
    obtain rfl := Option.some.inj (hc.symm.trans hcell)
    cases K <;> simp at hpar
  have hna : Ptr.node n ∉ addrs t.toList := by
    rw [node_mem_addrs]
    rintro ⟨j, hj⟩
    exact hnt (key_unique hs.nodup hn (hs.sub _ hj) ▸ hj)
  have hinv := hs.inv.set_key hna { c with key := key }
  have hlen := hs.length_erase hn
  refine ⟨⟨{ (s.withKey n c key).tr with len := s.tr.len - 1 }, sibs'⟩, ?_,
    ⟨⟨hinv.rep, hinv.sentl, hinv.isRB, hinv.root_black, ?_⟩, hs.sorted, hs.keys, ?_, ?_, ?_,
      ?_, hs.nodup.sublist (filter_sublist.map _), hlen.symm⟩, Heap.set_self .., hz,
    fun x hx => ⟨?_, hoff x fun hxk => hx ?_⟩⟩
  · obtain ⟨x, hx⟩ : ∃ x, s.sibs n = some x := by
      cases hsn : s.sibs n with
      | none => simp [Links.next, hsn] at hnext
      | some x => exact ⟨x, rfl⟩
    have hxn : x.next = some m := by simpa [Links.next, hx] using hnext
    have hlen0 : s.tr.len ≠ 0 := by
      rw [hs.len_eq]
      simpa using ne_nil_of_mem hn
    simp [ffrbtlRm, Ffrbtl.withKey, hlen0, hx, hxn, hmn, he, hpar]
  · -- one node outside the tree has left
    have hlt : t.toList.length ≤ (live.filter fun x => x.1 ≠ n).length := by
      have hnd : t.toList.Nodup := List.Nodup.of_map _ (addrs_nodup_iff.mp hs.inv.rep.nodup)
      refine List.Subperm.length_le (hnd.subperm fun a ha => mem_erase.mpr ⟨hs.sub a ha, ?_⟩)
      exact fun e => hna (node_mem_addrs.mpr ⟨a.2, by rwa [← e]⟩)
    exact hlen ▸ hlt
  · exact fun a ha => mem_erase.mpr ⟨hs.sub a ha, fun e =>
      hna (node_mem_addrs.mpr ⟨a.2, by rwa [← e]⟩)⟩
  · exact fun x hx => hs.cover x (mem_erase.mp hx).1
  · exact fun a ha => hs.ring_erase hn hr hperm hoff (hs.sub a ha) fun e =>
      hna (node_mem_addrs.mpr ⟨a.2, by rwa [← e]⟩)
  · intro x hx hxt
    obtain ⟨hx', hxn⟩ := mem_erase.mp hx
    obtain ⟨cx, hcx, hcp⟩ := hs.item x hx' hxt
    exact ⟨cx, (Heap.set_of_ne _ _ (by simpa using hxn)).trans hcx, hcp⟩
  · exact Heap.set_of_ne _ _ fun e => hx (by
      obtain rfl : x = n := by simpa using e
      exact mem_map_of_mem hn)
  · exact mem_map_of_mem (mem_members.mp hxk)

theorem keySorted_iff {l : List (ℕ × ℕ)} :
    KeySorted l ↔ (l.map Prod.snd).Pairwise (· ≤ ·) := by
  simp [KeySorted, pairwise_map]

/-- The members of a list in which `y` has taken the place of `x`. -/
theorem mem_replace {l₁ l₂ : List (ℕ × ℕ)} {x y a : ℕ × ℕ} (hnd : (l₁ ++ x :: l₂).Nodup) :
    a ∈ l₁ ++ y :: l₂ ↔ a = y ∨ (a ∈ l₁ ++ x :: l₂ ∧ a ≠ x) := by
  rw [nodup_append, nodup_cons] at hnd
  simp only [mem_append, mem_cons]
  have h1 : ∀ a ∈ l₁, a ≠ x := fun a ha => hnd.2.2 a ha x mem_cons_self
  have h2 : ∀ a ∈ l₂, a ≠ x := fun a ha e => hnd.2.1.1 (e ▸ ha)
  constructor
  · rintro (ha | rfl | ha)
    · exact .inr ⟨.inl ha, h1 a ha⟩
    · exact .inl rfl
    · exact .inr ⟨.inr (.inr ha), h2 a ha⟩
  · rintro (rfl | ⟨ha | rfl | ha, hne⟩)
    · exact .inr (.inl rfl)
    · exact .inl ha
    · exact absurd rfl hne
    · exact .inr (.inr ha)

/-- **A tree node with siblings** is replaced in its place by the next one. -/
theorem rm_replace {K : NodeCtx} {cl : Color} {l r : NodeTree} {n k : ℕ}
    (hs : RbtlRep live s (plug K (.node cl l (n, k) r))) (hself : s.sibs.next n ≠ some n) :
    ∃ m s', s.sibs.next n = some m ∧ ffrbtlRm s n = some s' ∧
      RbtlRep (live.filter fun x => x.1 ≠ n) s' (plug K (.node cl l (m, k) r)) ∧
      s'.tr.nodes (.node n) = some ⟨.null, .null, .null, cl, k⟩ ∧ s'.sibs n = some .zero ∧
      Ffrbtl.EqOff (live.map Prod.fst) s s' := by
  have hnt : (n, k) ∈ (plug K (.node cl l (n, k) r)).toList := by simp [toList_plug]
  have hn := hs.sub _ hnt
  obtain ⟨m, rg, sibs', hnext, hmn, hm, he, hz, hr, hperm, hoff⟩ := hs.unlink hn hself
  have hcell := Rep.cell (d := .left) hs.inv.rep
  -- the next node is a list item
  have hkeys : ∀ j, (j, k) ∈ (plug K (.node cl l (n, k) r)).toList → j = n := fun j hj =>
    congrArg Prod.fst (inj_on_of_nodup_map hs.keys hj hnt rfl)
  have hmt : (m, k) ∉ (plug K (.node cl l (n, k) r)).toList := fun hh => hmn (hkeys m hh)
  have hma : Ptr.node m ∉ addrs (plug K (.node cl l (n, k) r)).toList := by
    rw [node_mem_addrs]
    rintro ⟨j, hj⟩
    exact hmt (key_unique hs.nodup hm (hs.sub _ hj) ▸ hj)
  obtain ⟨mn, hmn', -⟩ := hs.item _ hm hmt
  obtain ⟨h', he', hrep, hn', hag⟩ := replaceBySibling_spec hs.inv.rep hmn' hma
  have hlist : ∀ x : ℕ, (plug K (.node cl l (x, k) r)).toList =
      (before K ++ l.toList) ++ (x, k) :: (r.toList ++ after K) := fun x => by
    simp [toList_plug]
  have hmem : ∀ a, a ∈ (plug K (.node cl l (m, k) r)).toList ↔
      a = (m, k) ∨ (a ∈ (plug K (.node cl l (n, k) r)).toList ∧ a ≠ (n, k)) := fun a => by
    rw [hlist, hlist]
    exact mem_replace (hlist n ▸ List.Nodup.of_map _ (addrs_nodup_iff.mp hs.inv.rep.nodup))
  -- the nodes of the tree are `m` and nodes of the old tree other than `n`
  have hsub : ∀ a ∈ (plug K (.node cl l (m, k) r)).toList, a ∈ live ∧ a.1 ≠ n := fun a ha => by
    rcases (hmem a).mp ha with rfl | ⟨ha', hne⟩
    · exact ⟨hm, hmn⟩
    · refine ⟨hs.sub a ha', fun e => hne (Prod.ext e ?_)⟩
      exact key_unique hs.nodup (n := n) (by rw [← e]; exact hs.sub a ha') hn
  have hkeysEq : (plug K (.node cl l (m, k) r)).toList.map Prod.snd =
      (plug K (.node cl l (n, k) r)).toList.map Prod.snd := by
    rw [hlist, hlist]
    simp
  have hlen := hs.length_erase hn
  obtain ⟨z, hz', hzc⟩ := hs.inv.sentl
  obtain ⟨j, hj⟩ := hs.inv.isRB
  obtain ⟨i, hctx, ht, hc⟩ := ctxRB_of_plug hj hs.inv.root_black
  have ht' : IsRB (.node cl l (m, k) r) i := by
    cases ht with
    | red h1 h2 h3 h4 => exact .red h1 h2 h3 h4
    | black h1 h2 => exact .black h1 h2
  obtain ⟨hrb, hblack⟩ := isRB_plug hctx ht' hc
  refine ⟨m, ⟨⟨s.tr.len - 1, rootPtr (plug K (.node cl l (m, k) r)), h'⟩, sibs'⟩, hnext, ?_,
    ⟨⟨hrep, ⟨z, (hag _ (by simp) (sentl_notMem_addrs _)).trans hz', hzc⟩, hrb, hblack, ?_⟩,
      ?_, ?_, ?_, ?_, ?_, ?_, hs.nodup.sublist (filter_sublist.map _), hlen.symm⟩, hn', hz,
    fun x hx => ⟨?_, hoff x fun hxk => hx (mem_map_of_mem (mem_members.mp hxk))⟩⟩
  · obtain ⟨x, hx⟩ : ∃ x, s.sibs n = some x := by
      cases hsn : s.sibs n with
      | none => simp [Links.next, hsn] at hnext
      | some x => exact ⟨x, rfl⟩
    have hxn : x.next = some m := by simpa [Links.next, hx] using hnext
    have hlen0 : s.tr.len ≠ 0 := by
      rw [hs.len_eq]
      simpa using ne_nil_of_mem hn
    have hpar : ctxPtr K ≠ .null := by cases K <;> simp
    simp [ffrbtlRm, hlen0, hx, hxn, hmn, he, hcell, hpar, he']
  · -- `m` was outside the tree and is inside now, `n` the other way round
    have hlt : (plug K (.node cl l (m, k) r)).toList.length ≤
        (live.filter fun x => x.1 ≠ n).length := by
      have hnd : (plug K (.node cl l (m, k) r)).toList.Nodup :=
        List.Nodup.of_map _ (addrs_nodup_iff.mp hrep.nodup)
      exact List.Subperm.length_le (hnd.subperm fun a ha => mem_erase.mpr (hsub a ha))
    exact hlen ▸ hlt
  · exact keySorted_iff.mpr (hkeysEq ▸ keySorted_iff.mp hs.sorted)
  · exact hkeysEq ▸ hs.keys
  · exact fun a ha => mem_erase.mpr (hsub a ha)
  · intro x hx
    obtain ⟨hx', hxn⟩ := mem_erase.mp hx
    obtain ⟨y, hy⟩ := hs.cover x hx'
    by_cases hyn : (y, x.2) = (n, k)
    · obtain ⟨-, hxk⟩ := Prod.mk.inj hyn
      exact ⟨m, by rw [hlist, hxk]; simp⟩
    · exact ⟨y, (hmem _).mpr (.inr ⟨hy, hyn⟩)⟩
  · exact fun a ha => hs.ring_erase hn hr hperm hoff (hsub a ha).1 (hsub a ha).2
  · intro x hx hxt
    obtain ⟨hx', hxn⟩ := mem_erase.mp hx
    have hxt' : x ∉ (plug K (.node cl l (n, k) r)).toList := fun h =>
      hxt ((hmem x).mpr (.inr ⟨h, fun e => hxn (by rw [e])⟩))
    obtain ⟨cx, hcx, hcp⟩ := hs.item x hx' hxt'
    refine ⟨cx, (hag _ ?_ ?_).trans hcx, hcp⟩
    · intro e
      have hxm : x.1 = m := by simpa using e
      have hkey := key_unique hs.nodup (n := m) (by rw [← hxm]; exact hx') hm
      exact hxt ((hmem x).mpr (.inl (Prod.ext hxm hkey)))
    · rw [node_mem_addrs]
      rintro ⟨y, hy⟩
      have hkey := key_unique hs.nodup hx' (hs.sub _ hy)
      exact hxt' (by rwa [← hkey] at hy)
  · refine hag _ (fun e => hx ?_) (hs.addr_notMem hx)
    obtain rfl : x = m := by simpa using e
    exact mem_map_of_mem hm

end RbtlRep

end FF
