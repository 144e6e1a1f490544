import FF.Ffstring
import FF.Rbtree.Run

/-!
# Timer queue

The queue of `FF/sys/timer-queue.h` and `FF/sys/fftmr.c`: a red-black tree of entries by the time
at which they are due, in which `tree_instimer` inserts by signed 8-byte keys. `tmrq_onfire` calls
the handlers of the entries that are due one after another; a handler may add and remove entries.

The ledger says what was added, fired and removed during an event, with deadlines that do not
overflow. `NoOverflow` says that those of the program do not either.
-/

namespace FF

open List Option

open FF.Tree FF.Ctx

/-! ### Program -/

/-- `fftimer_queue`, with the intervals of the entries. The nodes of the tree have 8-byte keys. -/
structure FftimerQueue where
  msecTime : ℕ
  items : Ffrbtree
  interval : ℕ → ℤ

/-- The loop of `tree_instimer`: keys are compared as signed numbers. -/
def instimerLoop : ℕ → Nodes → Ptr → Ptr → Option (Dir × Ptr)
  | 0, _, _, _ => none
  | fuel + 1, h, nod, parent => do
      let n ← h nod
      let p ← h parent
      let d := if int64 n.key < int64 p.key then Dir.left else Dir.right
      if p.child d = .sentl then some (d, parent) else instimerLoop fuel h nod (p.child d)

/-- `tree_instimer`. -/
def treeInstimer (fuel : ℕ) (h : Nodes) (nod root : Ptr) : Option (Nodes × Ptr) := do
  let (h, root) ←
    (if root = .sentl then do
      let h ← setParent h nod .sentl
      pure (h, nod)
    else do
      let (d, parent) ← instimerLoop fuel h nod root
      let h ← h.modify parent fun n => n.setChild d nod
      let h ← setParent h nod parent
      pure (h, root))
  let h ← h.modify nod fun n => { n with left := .sentl, right := .sentl }
  pure (h, root)

/-- `ffrbt_insert` without an ancestor, where `tr->insnode` is the given function. -/
def ffrbtInsertBy (insnode : ℕ → Nodes → Ptr → Ptr → Option (Nodes × Ptr)) (tr : Ffrbtree)
    (nod : Ptr) : Option Ffrbtree := do
  let (h, root) ← insnode (tr.len + 1) tr.nodes nod tr.root
  let h ← setColor h nod .red
  let (h, root) ← insertFixup (tr.len + 1) h root nod
  let h ← setColor h root .black
  pure { len := tr.len + 1, root := root, nodes := h }

/-- Store the key of an entry and insert it. -/
def insertTimer (tr : Ffrbtree) (t key : ℕ) : Option Ffrbtree := do
  let h ← tr.nodes.modify (.node t) fun n => { n with key := key }
  ffrbtInsertBy treeInstimer { tr with nodes := h } (.node t)

/-- `fftmrq_init`, on memory that holds the sentinel, at the time `now`. -/
def fftmrqInit (h : Nodes) (now : ℕ) : Option FftimerQueue := do
  let items ← ffrbtInit h
  some ⟨now, items, fun _ => 0⟩

/-- `fftmrq_active`. -/
def fftmrqActive (tq : FftimerQueue) (t : ℕ) : Option Bool :=
  (tq.items.nodes (.node t)).map fun n => n.key ≠ 0

/-- `fftmrq_add`. -/
def fftmrqAdd (tq : FftimerQueue) (t : ℕ) (interval : ℤ) : Option FftimerQueue := do
  let items ← insertTimer tq.items t ((tq.msecTime + interval.natAbs) % 2 ^ 64)
  some { tq with items := items, interval := Function.update tq.interval t interval }

/-- `fftmrq_rm`. -/
def fftmrqRm (tq : FftimerQueue) (t : ℕ) : Option FftimerQueue := do
  let items ← ffrbtRm tq.items (.node t)
  let h ← items.nodes.modify (.node t) fun n => { n with key := 0 }
  some { tq with items := { items with nodes := h } }

/-- A round of the loop of `tmrq_onfire` up to the call of the handler: the entry, or the end of
the loop. -/
def tmrqOnfire (tq : FftimerQueue) : Option (FftimerQueue × Option ℕ) :=
  if tq.items.root = .sentl then some (tq, none)
  else do
    let nod ← fftreeMin (tq.items.len + 1) tq.items.nodes tq.items.root
    let key := (← tq.items.nodes nod).key
    if int64 tq.msecTime < int64 key then some (tq, none)
    else
      match nod with
      | .node ent => do
          let tq ← fftmrqRm tq ent
          if tq.interval ent ≤ 0 then some (tq, some ent)
          else do
            let next := max ((key + (tq.interval ent).natAbs) % 2 ^ 64) ((tq.msecTime + 1) % 2 ^ 64)
            let items ← insertTimer tq.items ent next
            some ({ tq with items := items }, some ent)
      | _ => none

/-! ### Runs and their ledger -/

/-- The place of the event handler. -/
inductive TmrPc
  | idle
  | loop
  | handler
  deriving DecidableEq, Repr

/-- What has happened; an entry is listed with its deadline. -/
structure TmrLedger where
  active : List (ℕ × ℕ)
  /-- The active entries at the beginning of the event. -/
  start : List (ℕ × ℕ)
  /-- Those that were added or armed again during the event. -/
  added : List (ℕ × ℕ)
  /-- Those that were removed during the event. -/
  removed : List (ℕ × ℕ)
  /-- Those that were fired, in this order. -/
  fired : List (ℕ × ℕ)
  /-- The active entries at the end of the event. -/
  ended : List (ℕ × ℕ)

/-- A timer queue, its event handler and the ledger. -/
structure TmrSys where
  tq : FftimerQueue
  pc : TmrPc
  led : TmrLedger

/-- What is done with a timer queue. -/
inductive TmrAct
  /-- User code, also in a handler, adds an entry. -/
  | add (t : ℕ) (interval : ℤ)
  /-- User code, also in a handler, removes an entry. -/
  | rm (t : ℕ)
  /-- The timer fires, and the clock shows this time. -/
  | event (now : ℕ)
  /-- A round of the loop, up to the call of a handler or the end of the event. -/
  | step
  /-- The handler returns. -/
  | ret
  deriving DecidableEq, Repr

namespace TmrLedger

/-- An entry is added, during an event or between two. -/
def add (l : TmrLedger) (inEvent : Bool) (t d : ℕ) : TmrLedger :=
  { l with
    active := (t, d) :: l.active
    added := if inEvent then (t, d) :: l.added else l.added }

/-- An entry is removed, during an event or between two. -/
def rm (l : TmrLedger) (inEvent : Bool) (t : ℕ) : TmrLedger :=
  { l with
    active := l.active.filter fun p => p.1 ≠ t
    removed :=
      if inEvent then l.removed ++ l.active.filter fun p => p.1 = t else l.removed }

/-- An event begins. -/
def begin (l : TmrLedger) : TmrLedger :=
  { l with start := l.active, added := [], removed := [], fired := [] }

/-- An entry is fired; it is armed again if it is periodic. -/
def fire (l : TmrLedger) (now t : ℕ) (interval : ℤ) : TmrLedger :=
  let l' := { l with
    active := l.active.filter fun p => p.1 ≠ t
    fired := l.fired ++ l.active.filter fun p => p.1 = t }
  match l.active.find? fun p => p.1 = t with
  | none => l'
  | some p => if interval ≤ 0 then l' else l'.add true t (max (p.2 + interval.natAbs) (now + 1))

end TmrLedger

/-- One action. -/
def tmrStep (s : TmrSys) : TmrAct → Option TmrSys
  | .add t interval => do
      let tq ← fftmrqAdd s.tq t interval
      some { s with tq := tq, led := s.led.add (s.pc ≠ .idle) t (s.tq.msecTime + interval.natAbs) }
  | .rm t => do
      let tq ← fftmrqRm s.tq t
      some { s with tq := tq, led := s.led.rm (s.pc ≠ .idle) t }
  | .event now => some ⟨{ s.tq with msecTime := now }, .loop, s.led.begin⟩
  | .step => do
      let (tq, ent) ← tmrqOnfire s.tq
      match ent with
      | none => some ⟨tq, .idle, { s.led with ended := s.led.active }⟩
      | some t => some ⟨tq, .handler, s.led.fire s.tq.msecTime t (s.tq.interval t)⟩
  | .ret => some { s with pc := .loop }

/-- A new queue. -/
def tmrInit (tq : FftimerQueue) : TmrSys := ⟨tq, .idle, ⟨[], [], [], [], [], []⟩⟩

/-- User code adds entries that are not active and removes active ones, between events and in
handlers; the clock does not go back. -/
def tmrLegal (s : TmrSys) : TmrAct → Prop
  | .add t _ => s.pc ≠ .loop ∧ t ∉ s.led.active.map Prod.fst ∧ (s.tq.items.nodes (.node t)).isSome
  | .rm t => s.pc ≠ .loop ∧ t ∈ s.led.active.map Prod.fst
  | .event now => s.pc = .idle ∧ s.tq.msecTime ≤ now
  | .step => s.pc = .loop
  | .ret => s.pc = .handler

/-- The time and the deadlines are positive numbers of 64 bits with a sign: the deadline of an
entry that is added, and the next one of a periodic entry that is fired. -/
def NoOverflow (s : TmrSys) : TmrAct → Prop
  | .add _ interval =>
    0 < s.tq.msecTime + interval.natAbs ∧ s.tq.msecTime + interval.natAbs < 2 ^ 63
  | .event now => now < 2 ^ 63
  | .step => ∀ p ∈ s.led.active, (∀ q ∈ s.led.active, p.2 ≤ q.2) → p.2 ≤ s.tq.msecTime →
      0 < s.tq.interval p.1 →
      max (p.2 + (s.tq.interval p.1).natAbs) (s.tq.msecTime + 1) < 2 ^ 63
  | .rm _ | .ret => True

instance (s : TmrSys) (a : TmrAct) : Decidable (tmrLegal s a) :=
  match a with
  | .add t _ => inferInstanceAs (Decidable (s.pc ≠ .loop ∧ t ∉ s.led.active.map Prod.fst ∧
      (s.tq.items.nodes (.node t)).isSome))
  | .rm t => inferInstanceAs (Decidable (s.pc ≠ .loop ∧ t ∈ s.led.active.map Prod.fst))
  | .event now => inferInstanceAs (Decidable (s.pc = .idle ∧ s.tq.msecTime ≤ now))
  | .step => inferInstanceAs (Decidable (s.pc = .loop))
  | .ret => inferInstanceAs (Decidable (s.pc = .handler))

instance (s : TmrSys) (a : TmrAct) : Decidable (NoOverflow s a) :=
  match a with
  | .add _ interval => inferInstanceAs (Decidable (0 < s.tq.msecTime + interval.natAbs ∧
      s.tq.msecTime + interval.natAbs < 2 ^ 63))
  | .event now => inferInstanceAs (Decidable (now < 2 ^ 63))
  | .step => inferInstanceAs (Decidable (∀ p ∈ s.led.active, (∀ q ∈ s.led.active, p.2 ≤ q.2) →
      p.2 ≤ s.tq.msecTime → 0 < s.tq.interval p.1 →
      max (p.2 + (s.tq.interval p.1).natAbs) (s.tq.msecTime + 1) < 2 ^ 63))
  | .rm _ | .ret => isTrue trivial

/-! ### The order of the keys -/

theorem int64_of_lt {k : ℕ} (h : k < 2 ^ 63) : int64 k = k := if_pos h

/-- Numbers below `2 ^ 63` have the order of their signed values. -/
theorem int64_lt_iff {k m : ℕ} (hk : k < 2 ^ 63) (hm : m < 2 ^ 63) : int64 k < int64 m ↔ k < m := by
  rw [int64_of_lt hk, int64_of_lt hm]
  omega

/-- The descent of `tree_instimer` is the one of `fftree_insert`. -/
theorem instimerLoop_eq {fuel : ℕ} {h : Nodes} {nod par : Ptr} {t : NodeTree} {nn : FfrbtNode}
    (hs : Shape h par t) (ht : t ≠ .nil) (hkeys : ∀ x ∈ t.toList, x.2 < 2 ^ 63)
    (hn : h nod = some nn) (hk : nn.key < 2 ^ 63) :
    instimerLoop fuel h nod (rootPtr t) = insertLoop fuel h nod (rootPtr t) := by
  induction fuel generalizing par t with
  | zero => rfl
  | succ fuel ih =>
    cases t with
    | nil => exact absurd rfl ht
    | node c l a r =>
      obtain ⟨hc, hl, hr⟩ := hs
      have ha : a.2 < 2 ^ 63 := hkeys a (by simp)
      have hiff := int64_lt_iff hk ha
      rw [rootPtr_node, instimerLoop, insertLoop]
      simp only [hn, hc, bind_eq_bind, bind_some, hiff]
      by_cases hlt : nn.key < a.2
      · by_cases h0 : l = .nil
        · simp [hlt, FfrbtNode.child, h0]
        · have := ih hl h0 fun x hx => hkeys x (by simp [hx])
          simp [hlt, FfrbtNode.child, rootPtr_eq_sentl, h0, this]
      · by_cases h0 : r = .nil
        · simp [hlt, FfrbtNode.child, h0]
        · have := ih hr h0 fun x hx => hkeys x (by simp [hx])
          simp [hlt, FfrbtNode.child, rootPtr_eq_sentl, h0, this]

theorem treeInstimer_eq {fuel : ℕ} {h : Nodes} {root nod : Ptr} {t : NodeTree} {nn : FfrbtNode}
    (hr : Rep h root t) (hkeys : ∀ x ∈ t.toList, x.2 < 2 ^ 63) (hn : h nod = some nn)
    (hk : nn.key < 2 ^ 63) : treeInstimer fuel h nod root = fftreeInsert fuel h nod root := by
  rw [treeInstimer, fftreeInsert]
  by_cases h0 : root = .sentl
  · rw [if_pos h0, if_pos h0]
  · have ht : t ≠ .nil := fun e => h0 (by rw [hr.root_eq, e, rootPtr_nil])
    rw [if_neg h0, if_neg h0, hr.root_eq, instimerLoop_eq hr.shape ht hkeys hn hk]

theorem ffrbtInsertBy_eq {tr : Ffrbtree} {nod : Ptr}
    {f : ℕ → Nodes → Ptr → Ptr → Option (Nodes × Ptr)}
    (hf : f (tr.len + 1) tr.nodes nod tr.root = fftreeInsert (tr.len + 1) tr.nodes nod tr.root) :
    ffrbtInsertBy f tr nod = ffrbtInsert tr nod .null := by
  rw [ffrbtInsertBy, hf]
  simp [ffrbtInsert]

/-- **An entry is inserted** in the order of the keys, as long as they are below `2 ^ 63`. -/
theorem insertTimer_spec {tr : Ffrbtree} {t : NodeTree} {n key : ℕ} (hi : tr.Inv t)
    (hsort : KeySorted t.toList) (hkeys : ∀ x ∈ t.toList, x.2 < 2 ^ 63)
    (hn : (tr.nodes (.node n)).isSome) (hnew : .node n ∉ addrs t.toList) (hk : key < 2 ^ 63) :
    ∃ tr' t', insertTimer tr n key = some tr' ∧ tr'.Inv t' ∧ KeySorted t'.toList ∧
      t'.toList.Perm ((n, key) :: t.toList) ∧
      Heap.EqOff (.node n :: addrs t.toList) tr.nodes tr'.nodes := by
  obtain ⟨nn, hnn⟩ := isSome_iff_exists.mp hn
  have hi' := hi.set_key hnew { nn with key := key }
  obtain ⟨tr', t', he, hinv, hsort', hperm, -, hoff⟩ := ffrbtInsert_spec hi' hsort
    (Heap.set_self ..) hnew (.inl rfl)
  refine ⟨tr', t', ?_, hinv, hsort', hperm, fun p hp => ?_⟩
  · rw [insertTimer, Heap.modify_of_some _ hnn]
    simp only [bind_eq_bind, bind_some]
    rw [ffrbtInsertBy_eq, he]
    exact treeInstimer_eq hi'.rep hkeys (Heap.set_self ..) hk
  · rw [hoff p hp]
    exact Heap.set_of_ne _ _ fun e => hp (by simp [e])

/-! ### The entries in the tree -/

/-- The tree holds the entries, whose deadlines are positive signed numbers. -/
structure HoldsTimers (tr : Ffrbtree) (live : List (ℕ × ℕ)) : Prop where
  tree : ∃ t, tr.Inv t ∧ KeySorted t.toList ∧ t.toList.Perm live
  keys : ∀ p ∈ live, 0 < p.2 ∧ p.2 < 2 ^ 63

/-- The entries that are neither in the list nor the given one are unchanged. -/
def SameOutside (live : List (ℕ × ℕ)) (n : ℕ) (tr tr' : Ffrbtree) : Prop :=
  ∀ m, m ≠ n → m ∉ live.map Prod.fst → tr'.nodes (.node m) = tr.nodes (.node m)

theorem notMem_addrs {l live : List (ℕ × ℕ)} (hp : l.Perm live) {n : ℕ}
    (hn : n ∉ live.map Prod.fst) : Ptr.node n ∉ addrs l := by
  intro hmem
  obtain ⟨k, hk⟩ := node_mem_addrs.mp hmem
  exact hn (mem_map.mpr ⟨(n, k), hp.mem_iff.mp hk, rfl⟩)

namespace HoldsTimers

variable {tr : Ffrbtree} {live : List (ℕ × ℕ)} {n : ℕ}

theorem nodup (h : HoldsTimers tr live) : (live.map Prod.fst).Nodup := by
  obtain ⟨t, hi, -, hperm⟩ := h.tree
  exact (hperm.map Prod.fst).nodup_iff.mp (addrs_nodup_iff.mp hi.rep.nodup)

theorem cell (h : HoldsTimers tr live) {p : ℕ × ℕ} (hp : p ∈ live) :
    ∃ c, tr.nodes (.node p.1) = some c ∧ c.key = p.2 := by
  obtain ⟨t, hi, -, hperm⟩ := h.tree
  obtain ⟨K, c, l, r, ht⟩ := exists_plug_of_mem (hperm.mem_iff.mpr hp)
  have hr := hi.rep
  rw [ht] at hr
  have hc : tr.nodes (.node p.1) = some _ := hr.cell (d := .left)
  exact ⟨_, hc, cell_key ..⟩

theorem insert (h : HoldsTimers tr live) (key : ℕ) (hn : n ∉ live.map Prod.fst)
    (hmem : (tr.nodes (.node n)).isSome) (h0 : 0 < key) (hk : key < 2 ^ 63) :
    ∃ tr', insertTimer tr n key = some tr' ∧ HoldsTimers tr' ((n, key) :: live) ∧
      SameOutside live n tr tr' := by
  obtain ⟨t, hi, hsort, hperm⟩ := h.tree
  obtain ⟨tr', t', he, hi', hsort', hperm', hoff⟩ := insertTimer_spec hi hsort
    (fun x hx => (h.keys x (hperm.mem_iff.mp hx)).2) hmem (notMem_addrs hperm hn) hk
  refine ⟨tr', he, ⟨⟨t', hi', hsort', hperm'.trans (hperm.cons _)⟩, ?_⟩, fun m hmn hm => ?_⟩
  · intro p hp
    rcases mem_cons.mp hp with rfl | hp
    · exact ⟨h0, hk⟩
    · exact h.keys p hp
  · refine hoff _ fun hmem' => ?_
    rcases mem_cons.mp hmem' with he | hmem'
    · exact hmn (Ptr.node.inj he)
    · exact notMem_addrs hperm hm hmem'

end HoldsTimers

/-- **`fftmrq_rm`** takes the entry out of the tree; its key is then 0. -/
theorem fftmrqRm_spec {tq : FftimerQueue} {live : List (ℕ × ℕ)} {n : ℕ}
    (h : HoldsTimers tq.items live) (hn : n ∈ live.map Prod.fst) :
    ∃ tr, fftmrqRm tq n = some { tq with items := tr } ∧
      HoldsTimers tr (live.filter fun p => p.1 ≠ n) ∧
      (∃ c, tr.nodes (.node n) = some c ∧ c.key = 0) ∧ SameOutside live n tq.items tr := by
  obtain ⟨t, hi, hsort, hperm⟩ := h.tree
  obtain ⟨⟨m, k⟩, hp, rfl⟩ := mem_map.mp hn
  have hmem : Ptr.node m ∈ addrs t.toList := node_mem_addrs.mpr ⟨k, hperm.mem_iff.mpr hp⟩
  obtain ⟨tr, t', k', pre, post, c, he, hi', ht, ht', -, hcell, hoff⟩ := ffrbtRm_spec hi hmem
  have hnd := hi.rep.nodup
  rw [ht] at hnd
  have hfilter := filter_addr hnd
  rw [← ht, ← ht'] at hfilter
  have hnew : Ptr.node m ∉ addrs t'.toList := by
    rw [← hfilter]
    intro hmem'
    obtain ⟨k'', hk''⟩ := node_mem_addrs.mp hmem'
    simp at hk''
  refine ⟨_, ?_, ⟨⟨t', hi'.set_key hnew ⟨.null, .null, .null, c, 0⟩, ?_, ?_⟩, ?_⟩, ?_, ?_⟩
  · rw [fftmrqRm, he]
    simp only [bind_eq_bind, bind_some, Heap.modify_of_some _ hcell]
  · rw [← hfilter]
    exact hsort.filter _
  · rw [← hfilter]
    exact hperm.filter _
  · intro p hp
    exact h.keys p (mem_of_mem_filter hp)
  · exact ⟨⟨.null, .null, .null, c, 0⟩, Heap.set_self .., rfl⟩
  intro j hjm hj
  have hne : Ptr.node j ≠ .node m := fun e => hjm (Ptr.node.inj e)
  dsimp only
  rw [Heap.set_of_ne _ _ hne]
  refine hoff _ fun hmem' => ?_
  rcases mem_cons.mp hmem' with he | hmem'
  · cases he
  · exact notMem_addrs hperm hj hmem'

/-- **The leftmost node** is the entry with the first deadline. -/
theorem fftreeMin_first {tr : Ffrbtree} {live : List (ℕ × ℕ)} (h : HoldsTimers tr live)
    (hroot : tr.root ≠ .sentl) :
    ∃ p ∈ live, fftreeMin (tr.len + 1) tr.nodes tr.root = some (.node p.1) ∧
      ∀ q ∈ live, p.2 ≤ q.2 := by
  obtain ⟨t, hi, hsort, hperm⟩ := h.tree
  have ht : t ≠ .nil := fun e => hroot (by rw [hi.rep.root_eq, e, rootPtr_nil])
  obtain ⟨K, c, m, s, he, hplug, hleft⟩ := minLoop_spec hi.rep.shape ht
    (Nat.lt_succ_of_le hi.len_le)
  have hlist : t.toList = m :: (s.toList ++ after K) := by
    rw [hplug, toList_plug, before_eq_nil hleft]
    simp
  rw [hlist] at hsort hperm
  refine ⟨m, hperm.mem_iff.mp mem_cons_self, ?_, fun q hq => ?_⟩
  · rw [fftreeMin, hi.rep.root_eq]
    have hs : rootPtr t ≠ .sentl := fun e => ht (rootPtr_eq_sentl.mp e)
    simp [hs, he]
  · rcases mem_cons.mp (hperm.mem_iff.mpr hq) with rfl | hq
    · exact Nat.le_refl _
    · exact rel_of_pairwise_cons hsort hq

/-! ### A round of the loop -/

theorem filter_key_eq {live : List (ℕ × ℕ)} (hnd : (live.map Prod.fst).Nodup) {p : ℕ × ℕ}
    (hp : p ∈ live) : live.filter (fun q => q.1 = p.1) = [p] := by
  induction live with
  | nil => cases hp
  | cons a live ih =>
    rw [map_cons, nodup_cons] at hnd
    rcases mem_cons.mp hp with rfl | hp
    · have hnone : live.filter (fun q => q.1 = p.1) = [] := by
        refine filter_eq_nil_iff.mpr fun q hq he => hnd.1 ?_
        exact mem_map.mpr ⟨q, hq, by simpa using he⟩
      simp [hnone]
    · have hne : a.1 ≠ p.1 := fun e => hnd.1 (e ▸ mem_map.mpr ⟨p, hp, rfl⟩)
      rw [filter_cons_of_neg (by simpa using hne)]
      exact ih hnd.2 hp

theorem find_key_eq {live : List (ℕ × ℕ)} (hnd : (live.map Prod.fst).Nodup) {p : ℕ × ℕ}
    (hp : p ∈ live) : live.find? (fun q => q.1 = p.1) = some p := by
  rw [← head?_filter, filter_key_eq hnd hp]
  rfl

/-- The active entries behind the call of `p`. -/
def refire (live : List (ℕ × ℕ)) (now : ℕ) (p : ℕ × ℕ) (interval : ℤ) : List (ℕ × ℕ) :=
  let rest := live.filter fun q => q.1 ≠ p.1
  if interval ≤ 0 then rest else (p.1, max (p.2 + interval.natAbs) (now + 1)) :: rest

/-- **A round of `tmrq_onfire`** ends the loop where no entry is due, or takes the first of them
out of the tree, into which it puts a periodic one again. -/
theorem tmrqOnfire_spec {tq : FftimerQueue} {live : List (ℕ × ℕ)} (h : HoldsTimers tq.items live)
    (hnow : tq.msecTime < 2 ^ 63)
    (hno : ∀ p ∈ live, (∀ q ∈ live, p.2 ≤ q.2) → p.2 ≤ tq.msecTime → 0 < tq.interval p.1 →
      max (p.2 + (tq.interval p.1).natAbs) (tq.msecTime + 1) < 2 ^ 63) :
    (tmrqOnfire tq = some (tq, none) ∧ ∀ p ∈ live, tq.msecTime < p.2) ∨
      ∃ p ∈ live, p.2 ≤ tq.msecTime ∧ (∀ q ∈ live, p.2 ≤ q.2) ∧
        ∃ tr, tmrqOnfire tq = some ({ tq with items := tr }, some p.1) ∧
          HoldsTimers tr (refire live tq.msecTime p (tq.interval p.1)) ∧
          (tq.interval p.1 ≤ 0 → ∃ c, tr.nodes (.node p.1) = some c ∧ c.key = 0) ∧
          SameOutside live p.1 tq.items tr := by
  by_cases hroot : tq.items.root = .sentl
  · obtain ⟨t, hi, -, hperm⟩ := h.tree
    obtain rfl : t = .nil := rootPtr_eq_sentl.mp (hi.rep.root_eq ▸ hroot)
    obtain rfl := hperm.nil_eq
    exact .inl ⟨by rw [tmrqOnfire, if_pos hroot], by simp⟩
  obtain ⟨p, hp, hmin, hfirst⟩ := fftreeMin_first h hroot
  obtain ⟨c, hc, hck⟩ := h.cell hp
  have hiff := int64_lt_iff hnow (h.keys p hp).2
  rw [tmrqOnfire, if_neg hroot, hmin]
  simp only [bind_eq_bind, bind_some, hc, hiff, hck]
  by_cases hlt : tq.msecTime < p.2
  · rw [if_pos hlt]
    exact .inl ⟨rfl, fun q hq => Nat.lt_of_lt_of_le hlt (hfirst q hq)⟩
  rw [if_neg hlt]
  have hdue : p.2 ≤ tq.msecTime := Nat.le_of_not_lt hlt
  refine .inr ⟨p, hp, hdue, hfirst, ?_⟩
  obtain ⟨tr, he, htr, hcell, hsame⟩ := fftmrqRm_spec h (mem_map.mpr ⟨p, hp, rfl⟩)
  simp only [he, bind_some]
  by_cases hI : tq.interval p.1 ≤ 0
  · refine ⟨tr, by rw [if_pos hI], ?_, fun _ => hcell, hsame⟩
    rw [refire, if_pos hI]
    exact htr
  obtain ⟨c', hc', -⟩ := hcell
  have hmax := hno p hp hfirst hdue (Int.lt_of_not_ge hI)
  have hrest : p.1 ∉ (live.filter fun q => q.1 ≠ p.1).map Prod.fst := by simp
  obtain ⟨tr', he', htr', hsame'⟩ := htr.insert
    (max (p.2 + (tq.interval p.1).natAbs) (tq.msecTime + 1)) hrest (by simp [hc'])
    (by omega) hmax
  refine ⟨tr', ?_, ?_, fun hI' => absurd hI' hI, fun m hm hm' => ?_⟩
  · rw [if_neg hI, Nat.mod_eq_of_lt (by omega), Nat.mod_eq_of_lt (by omega), he']
    rfl
  · rw [refire, if_neg hI]
    exact htr'
  · rw [hsame' m hm, hsame m hm hm']
    intro hmem
    obtain ⟨q, hq, rfl⟩ := mem_map.mp hmem
    exact hm' (mem_map.mpr ⟨q, mem_of_mem_filter hq, rfl⟩)

/-! ### What holds in a run -/

/-- The entries that an event has left active: those of the moment, or of its end. -/
def TmrSys.remaining (s : TmrSys) : List (ℕ × ℕ) :=
  if s.pc = .idle then s.led.ended else s.led.active

/-- **What a queue does with the entries.** -/
structure TmrOk (s : TmrSys) : Prop where
  /-- The active entries are in the queue, each with its deadline. -/
  active : ∀ p ∈ s.led.active, fftmrqActive s.tq p.1 = some true ∧
    (s.tq.items.nodes (.node p.1)).map FfrbtNode.key = some p.2
  /-- An entry that was fired or removed, and not added again, is not. -/
  inactive : ∀ p ∈ s.led.fired ++ s.led.removed, p.1 ∉ s.led.active.map Prod.fst →
    fftmrqActive s.tq p.1 = some false
  /-- What was active or added is fired, removed or left active, and once only. -/
  account : (s.led.fired ++ s.led.removed ++ s.remaining).Perm (s.led.start ++ s.led.added)
  /-- No entry is fired before its deadline. -/
  due : ∀ p ∈ s.led.fired, p.2 ≤ s.tq.msecTime
  order : s.led.fired.Pairwise fun p q => p.2 ≤ q.2
  /-- No entry that is due is left at the end. -/
  rest : s.pc = .idle → ∀ p ∈ s.led.ended, s.tq.msecTime < p.2

/-- **What a round of the loop does**: it ends the event, or it fires an active entry. A one-shot
entry is then inactive, and a periodic one has a deadline later than now. -/
def FireOk (s s' : TmrSys) : Prop :=
  (s'.pc = .idle ∧ s'.led.fired = s.led.fired) ∨
    ∃ p ∈ s.led.active, s'.pc = .handler ∧ s'.led.fired = s.led.fired ++ [p] ∧
      if s.tq.interval p.1 ≤ 0 then
        fftmrqActive s'.tq p.1 = some false ∧ p.1 ∉ s'.led.active.map Prod.fst
      else ∃ d, s.tq.msecTime < d ∧ (p.1, d) ∈ s'.led.active ∧ fftmrqActive s'.tq p.1 = some true

/-- The invariant of a run. -/
structure TmrInv (s : TmrSys) : Prop where
  holds : HoldsTimers s.tq.items s.led.active
  time : s.pc ≠ .idle → s.tq.msecTime < 2 ^ 63
  released : ∀ p ∈ s.led.fired ++ s.led.removed, p.1 ∉ s.led.active.map Prod.fst →
    ∃ c, s.tq.items.nodes (.node p.1) = some c ∧ c.key = 0
  account : (s.led.fired ++ s.led.removed ++ s.remaining).Perm (s.led.start ++ s.led.added)
  due : ∀ p ∈ s.led.fired, p.2 ≤ s.tq.msecTime
  order : s.led.fired.Pairwise fun p q => p.2 ≤ q.2
  rest : s.pc = .idle → ∀ p ∈ s.led.ended, s.tq.msecTime < p.2
  /-- The loop has not fired an entry before one with an earlier deadline. -/
  ahead : s.pc ≠ .idle → ∀ p ∈ s.led.fired, ∀ q ∈ s.led.active, p.2 ≤ q.2

theorem HoldsTimers.fftmrqActive {tq : FftimerQueue} {live : List (ℕ × ℕ)}
    (h : HoldsTimers tq.items live) {n key : ℕ} (hp : (n, key) ∈ live) :
    fftmrqActive tq n = some true := by
  obtain ⟨c, hc, hck⟩ := h.cell hp
  have hpos := (h.keys _ hp).1
  rw [FF.fftmrqActive, hc, map_some, hck]
  simp [Nat.ne_of_gt hpos]

theorem TmrInv.ok {s : TmrSys} (h : TmrInv s) : TmrOk s where
  active p hp := by
    obtain ⟨c, hc, hck⟩ := h.holds.cell hp
    exact ⟨h.holds.fftmrqActive hp, by rw [hc, map_some, hck]⟩
  inactive p hp hout := by
    obtain ⟨c, hc, hck⟩ := h.released p hp hout
    rw [fftmrqActive, hc, map_some, hck]
    rfl
  account := h.account
  due := h.due
  order := h.order
  rest := h.rest

/-! ### One action -/

theorem filter_key_perm (live : List (ℕ × ℕ)) (t : ℕ) :
    (live.filter (fun p => p.1 = t) ++ live.filter fun p => p.1 ≠ t).Perm live := by
  have h := filter_append_perm (fun p : ℕ × ℕ => decide (p.1 = t)) live
  simpa using h

/-- **`fftmrq_add`.** -/
theorem TmrInv.add {s : TmrSys} (h : TmrInv s) {t : ℕ} {interval : ℤ}
    (hlegal : tmrLegal s (.add t interval)) (hno : NoOverflow s (.add t interval)) :
    ∃ s', tmrStep s (.add t interval) = some s' ∧ TmrInv s' := by
  obtain ⟨-, hnew, hmem⟩ := hlegal
  obtain ⟨hpos, hlt⟩ := hno
  obtain ⟨tr, he, htr, hsame⟩ := h.holds.insert _ hnew hmem hpos hlt
  refine ⟨⟨⟨s.tq.msecTime, tr, Function.update s.tq.interval t interval⟩, s.pc,
    s.led.add (s.pc ≠ .idle) t (s.tq.msecTime + interval.natAbs)⟩, ?_, htr, h.time,
    fun p hp hout => ?_, ?_, h.due, h.order, h.rest, ?_⟩
  · rw [tmrStep, fftmrqAdd, Nat.mod_eq_of_lt (by omega), he]
    rfl
  · obtain ⟨hne, hpin⟩ : p.1 ≠ t ∧ p.1 ∉ s.led.active.map Prod.fst := by
      simpa [TmrLedger.add, not_or] using hout
    rw [hsame _ hne hpin]
    exact h.released p hp hpin
  · have haccount := h.account
    by_cases hidle : s.pc = .idle
    · simpa [TmrSys.remaining, TmrLedger.add, hidle] using haccount
    · simp only [TmrSys.remaining, hidle, if_false] at haccount
      simp only [TmrSys.remaining, TmrLedger.add, hidle, if_false, if_true, decide_true, ne_eq,
        not_false_iff]
      exact perm_middle.trans ((haccount.cons _).trans perm_middle.symm)
  · intro hpc p hp q hq
    rcases mem_cons.mp hq with rfl | hq
    · exact Nat.le_trans (h.due p hp) (Nat.le_add_right _ _)
    · exact h.ahead hpc p hp q hq

/-- **`fftmrq_rm`.** -/
theorem TmrInv.rm {s : TmrSys} (h : TmrInv s) {t : ℕ} (hlegal : tmrLegal s (.rm t)) :
    ∃ s', tmrStep s (.rm t) = some s' ∧ TmrInv s' := by
  obtain ⟨tr, he, htr, hcell, hsame⟩ := fftmrqRm_spec h.holds hlegal.2
  refine ⟨⟨{ s.tq with items := tr }, s.pc, s.led.rm (s.pc ≠ .idle) t⟩, ?_, htr, h.time,
    fun p hp hout => ?_, ?_, h.due, h.order, h.rest, ?_⟩
  · rw [tmrStep, he]
    rfl
  · by_cases hpt : p.1 = t
    · rw [hpt]
      exact hcell
    have hpin : p.1 ∉ s.led.active.map Prod.fst := by
      intro hin
      obtain ⟨q, hq, hqp⟩ := mem_map.mp hin
      refine hout (mem_map.mpr ⟨q, mem_filter.mpr ⟨hq, ?_⟩, hqp⟩)
      simpa [hqp] using hpt
    rw [hsame _ hpt hpin]
    refine h.released p ?_ hpin
    rcases mem_append.mp hp with hp | hp
    · exact mem_append_left _ hp
    simp only [TmrLedger.rm] at hp
    split at hp
    · rcases mem_append.mp hp with hp | hp
      · exact mem_append_right _ hp
      · exact absurd (by simpa using (mem_filter.mp hp).2) hpt
    · exact mem_append_right _ hp
  · have haccount := h.account
    by_cases hidle : s.pc = .idle
    · simpa [TmrSys.remaining, TmrLedger.rm, hidle] using haccount
    simp only [TmrSys.remaining, hidle, if_false] at haccount
    simp only [TmrSys.remaining, TmrLedger.rm, hidle, if_false, if_true, decide_true, ne_eq,
      not_false_iff]
    rw [perm_iff_count] at haccount ⊢
    intro a
    have h1 := haccount a
    have h2 := (filter_key_perm s.led.active t).count_eq a
    simp only [count_append, ne_eq] at h1 h2 ⊢
    omega
  · intro hpc p hp q hq
    exact h.ahead hpc p hp q (mem_of_mem_filter hq)

theorem TmrInv.event {s : TmrSys} (h : TmrInv s) {now : ℕ} (hno : NoOverflow s (.event now)) :
    ∃ s', tmrStep s (.event now) = some s' ∧ TmrInv s' := by
  refine ⟨_, rfl, ⟨h.holds, fun _ => hno, by simp [TmrLedger.begin], ?_, by simp [TmrLedger.begin],
    by simp [TmrLedger.begin], nofun, by simp [TmrLedger.begin]⟩⟩
  simp [TmrSys.remaining, TmrLedger.begin]

/-- What the ledger notes of a round that calls `p`. -/
theorem TmrLedger.fire_eq {l : TmrLedger} (hnd : (l.active.map Prod.fst).Nodup) {p : ℕ × ℕ}
    (hp : p ∈ l.active) (now : ℕ) (interval : ℤ) :
    l.fire now p.1 interval = { l with
      active := refire l.active now p interval
      fired := l.fired ++ [p]
      added := if interval ≤ 0 then l.added
        else (p.1, max (p.2 + interval.natAbs) (now + 1)) :: l.added } := by
  rw [TmrLedger.fire, find_key_eq hnd hp, filter_key_eq hnd hp, refire]
  by_cases hI : interval ≤ 0
  · simp [hI]
  · simp [hI, TmrLedger.add]

theorem mem_refire {live : List (ℕ × ℕ)} {now : ℕ} {p q : ℕ × ℕ} {interval : ℤ}
    (h : q ∈ refire live now p interval) : q ∈ live ∨ now < q.2 := by
  rw [refire] at h
  split at h
  · exact .inl (mem_of_mem_filter h)
  · rcases mem_cons.mp h with rfl | h
    · exact .inr (Nat.lt_of_succ_le (Nat.le_max_right _ _))
    · exact .inl (mem_of_mem_filter h)

/-- **A round of the loop** succeeds, and does what it should. -/
theorem TmrInv.step {s : TmrSys} (h : TmrInv s) (hlegal : tmrLegal s .step)
    (hno : NoOverflow s .step) : ∃ s', tmrStep s .step = some s' ∧ TmrInv s' ∧ FireOk s s' := by
  have hpc : s.pc = .loop := hlegal
  have hbusy : s.pc ≠ .idle := by simp [hpc]
  have haccount := h.account
  simp only [TmrSys.remaining, hbusy, if_false] at haccount
  rcases tmrqOnfire_spec h.holds (h.time hbusy) hno with
    ⟨he, hlate⟩ | ⟨p, hp, hdue, hfirst, tr, he, htr, hcell, hsame⟩
  · -- the loop ends
    refine ⟨⟨s.tq, .idle, { s.led with ended := s.led.active }⟩, ?_,
      ⟨h.holds, fun hne => absurd rfl hne, h.released, ?_, h.due, h.order, fun _ => hlate,
        fun hne => absurd rfl hne⟩, .inl ⟨rfl, rfl⟩⟩
    · rw [tmrStep, he]
      rfl
    · simpa [TmrSys.remaining] using haccount
  -- the handler of `p` is called
  have hfire := TmrLedger.fire_eq h.holds.nodup hp s.tq.msecTime (s.tq.interval p.1)
  have hgone : p.1 ∉ (s.led.active.filter fun q => q.1 ≠ p.1).map Prod.fst := by simp
  refine ⟨⟨{ s.tq with items := tr }, .handler,
    s.led.fire s.tq.msecTime p.1 (s.tq.interval p.1)⟩, ?_, ?_, ?_⟩
  · rw [tmrStep, he]
    rfl
  · rw [hfire]
    refine ⟨htr, fun _ => h.time hbusy, fun q hq hout => ?_, ?_, fun q hq => ?_, ?_, nofun,
      fun _ q hq r hr => ?_⟩
    · by_cases hqp : q.1 = p.1
      · rw [hqp] at hout ⊢
        refine hcell (Int.not_lt.mp fun hI => hout ?_)
        rw [refire, if_neg (Int.not_le.mpr hI)]
        exact mem_cons_self
      have hqin : q.1 ∉ s.led.active.map Prod.fst := by
        intro hin
        obtain ⟨r, hr, hrq⟩ := mem_map.mp hin
        have hrest : r ∈ s.led.active.filter fun q => q.1 ≠ p.1 :=
          mem_filter.mpr ⟨hr, by simpa [hrq] using hqp⟩
        refine hout (mem_map.mpr ⟨r, ?_, hrq⟩)
        rw [refire]
        split
        · exact hrest
        · exact mem_cons_of_mem _ hrest
      rw [hsame _ hqp hqin]
      refine h.released q ?_ hqin
      have hne : q ≠ p := fun e => hqp (by rw [e])
      simpa [hne] using hq
    · have h2 := filter_key_perm s.led.active p.1
      rw [filter_key_eq h.holds.nodup hp] at h2
      rw [perm_iff_count] at haccount h2 ⊢
      intro a
      have h1 := haccount a
      have h2 := h2 a
      simp only [count_append, count_cons, count_nil, TmrSys.remaining, refire,
        reduceCtorEq, if_false] at h1 h2 ⊢
      by_cases hI : s.tq.interval p.1 ≤ 0
      · simp only [if_pos hI]
        omega
      · simp only [if_neg hI, count_cons]
        omega
    · rcases mem_append.mp hq with hq | hq
      · exact h.due q hq
      · rw [mem_singleton.mp hq]
        exact hdue
    · refine pairwise_append.mpr ⟨h.order, pairwise_singleton .., fun q hq r hr => ?_⟩
      rw [mem_singleton.mp hr]
      exact h.ahead hbusy q hq p hp
    rcases mem_refire hr with hr | hr
    · rcases mem_append.mp hq with hq | hq
      · exact h.ahead hbusy q hq r hr
      · rw [mem_singleton.mp hq]
        exact hfirst r hr
    · rcases mem_append.mp hq with hq | hq
      · exact Nat.le_of_lt (Nat.lt_of_le_of_lt (h.due q hq) hr)
      · rw [mem_singleton.mp hq]
        exact Nat.le_of_lt (Nat.lt_of_le_of_lt hdue hr)
  · refine .inr ⟨p, hp, rfl, by rw [hfire], ?_⟩
    rw [hfire]
    by_cases hI : s.tq.interval p.1 ≤ 0
    · obtain ⟨c, hc, hck⟩ := hcell hI
      rw [if_pos hI]
      refine ⟨by rw [fftmrqActive, hc, map_some, hck]; rfl, ?_⟩
      rw [refire, if_pos hI]
      exact hgone
    rw [if_neg hI]
    have hmem : (p.1, max (p.2 + (s.tq.interval p.1).natAbs) (s.tq.msecTime + 1)) ∈
        refire s.led.active s.tq.msecTime p (s.tq.interval p.1) := by
      rw [refire, if_neg hI]
      exact mem_cons_self
    have htr' : HoldsTimers ({ s.tq with items := tr } : FftimerQueue).items _ := htr
    exact ⟨_, Nat.lt_of_succ_le (Nat.le_max_right _ _), hmem, htr'.fftmrqActive hmem⟩

/-- **One action keeps the invariant.** -/
theorem tmrStep_preserves :
    Preserves tmrStep (fun s a => tmrLegal s a ∧ NoOverflow s a) TmrInv := by
  rintro s a h ⟨hlegal, hno⟩
  cases a with
  | add t interval => exact h.add hlegal hno
  | rm t => exact h.rm hlegal
  | event now => exact h.event hno
  | step =>
    obtain ⟨s', he, hinv, -⟩ := h.step hlegal hno
    exact ⟨s', he, hinv⟩
  | ret =>
    have hpc : s.pc = .handler := hlegal
    refine ⟨_, rfl, ⟨h.holds, fun _ => h.time (by simp [hpc]), h.released, ?_, h.due, h.order,
      nofun, fun _ => h.ahead (by simp [hpc])⟩⟩
    simpa [TmrSys.remaining, hpc] using h.account

/-! ### The end of the loop -/

/-- Actions during an event in which handlers add no entry with the interval 0. -/
def WithinEvent : TmrAct → Prop
  | .add _ interval => interval ≠ 0
  | .event _ => False
  | .rm _ | .step | .ret => True

/-- The number of entries that are due. -/
def TmrSys.numDue (s : TmrSys) : ℕ := s.led.active.countP fun p => p.2 ≤ s.tq.msecTime

/-- The rounds that are left to the loop, at most. -/
def TmrSys.work (s : TmrSys) : ℕ := if s.pc = .idle then 0 else s.numDue + 1

theorem countP_refire {live : List (ℕ × ℕ)} (hnd : (live.map Prod.fst).Nodup) {p : ℕ × ℕ}
    (hp : p ∈ live) {now : ℕ} (hdue : p.2 ≤ now) (interval : ℤ) :
    (refire live now p interval).countP (fun q => q.2 ≤ now) + 1 =
      live.countP fun q => q.2 ≤ now := by
  have h := (filter_key_perm live p.1).countP_eq fun q => decide (q.2 ≤ now)
  rw [filter_key_eq hnd hp, countP_append, countP_singleton, if_pos (decide_eq_true hdue)] at h
  rw [refire, ← h, Nat.add_comm]
  by_cases hI : interval ≤ 0
  · rw [if_pos hI]
  · rw [if_neg hI, countP_cons_of_neg (by simp)]

/-- **A round uses up an entry that is due**, and no other action makes one. -/
theorem TmrInv.work_step {s s' : TmrSys} {a : TmrAct} (h : TmrInv s) (hlegal : tmrLegal s a)
    (hno : NoOverflow s a) (hin : WithinEvent a) (hs : tmrStep s a = some s') :
    (if a = .step then 1 else 0) + s'.work ≤ s.work := by
  cases a with
  | event now => exact hin.elim
  | ret =>
    cases hs
    have hpc : s.pc = .handler := hlegal
    simp [TmrSys.work, hpc, TmrSys.numDue]
  | rm t =>
    obtain ⟨tr, he, -⟩ := fftmrqRm_spec h.holds hlegal.2
    rw [tmrStep, he] at hs
    cases hs
    have hle := (filter_sublist (p := fun p : ℕ × ℕ => p.1 ≠ t)
      (l := s.led.active)).countP_le (p := fun p : ℕ × ℕ => decide (p.2 ≤ s.tq.msecTime))
    by_cases hidle : s.pc = .idle
    · simp [TmrSys.work, hidle]
    · simpa [TmrSys.work, hidle, TmrSys.numDue, TmrLedger.rm] using hle
  | add t interval =>
    obtain ⟨tr, he, -⟩ := h.holds.insert _ hlegal.2.1 hlegal.2.2 hno.1 hno.2
    rw [tmrStep, fftmrqAdd, Nat.mod_eq_of_lt (by have := hno.2; omega), he] at hs
    cases hs
    have hpos : interval.natAbs ≠ 0 := Int.natAbs_ne_zero.mpr hin
    by_cases hidle : s.pc = .idle
    · simp [TmrSys.work, hidle]
    · simp [TmrSys.work, hidle, TmrSys.numDue, TmrLedger.add, hpos]
  | step =>
    have hpc : s.pc = .loop := hlegal
    have hbusy : s.pc ≠ .idle := by simp [hpc]
    rcases tmrqOnfire_spec h.holds (h.time hbusy) hno with
      ⟨he, -⟩ | ⟨p, hp, hdue, -, tr, he, -⟩
    · rw [tmrStep, he] at hs
      cases hs
      simp [TmrSys.work, hbusy]
    rw [tmrStep, he] at hs
    cases hs
    have hcount := countP_refire h.holds.nodup hp hdue (s.tq.interval p.1)
    rw [TmrLedger.fire_eq h.holds.nodup hp]
    simp only [TmrSys.work, hbusy, TmrSys.numDue, if_true, if_false, reduceCtorEq]
    omega

theorem TmrInv.count_steps {s : TmrSys} (h : TmrInv s) {acts : List TmrAct}
    (hgood : GoodRun tmrStep (fun s a => tmrLegal s a ∧ NoOverflow s a) s acts)
    (hin : ∀ a ∈ acts, WithinEvent a) : acts.count .step ≤ s.work := by
  induction acts generalizing s with
  | nil => exact Nat.zero_le _
  | cons a acts ih =>
    obtain ⟨hg, hrest⟩ := hgood
    obtain ⟨s', hs, hinv⟩ := tmrStep_preserves s a h hg
    have hstep := h.work_step hg.1 hg.2 (hin a mem_cons_self) hs
    have hrec := ih hinv (hrest s' hs) fun x hx => hin x (mem_cons_of_mem _ hx)
    rw [count_cons]
    simp only [beq_iff_eq]
    omega

/-! ### Runs -/

theorem tmrInit_inv {h : Nodes} {now : ℕ} {tq : FftimerQueue} (hinit : fftmrqInit h now = some tq) :
    TmrInv (tmrInit tq) := by
  obtain ⟨items, hitems, he⟩ := bind_eq_some_iff.mp hinit
  cases he
  obtain ⟨⟨t, hi, hsort, hperm⟩, -, -⟩ := ffrbtInit_inv hitems
  exact ⟨⟨⟨t, hi, hsort, hperm⟩, nofun⟩, fun h0 => absurd rfl h0, nofun, List.Perm.refl _, nofun,
    List.Pairwise.nil, nofun, fun h0 => absurd rfl h0⟩

/-- **A run without overflow.** Every action succeeds. At each event the entries that are due are
fired in the order of their deadlines, and no others. A one-shot entry is inactive when its handler
is called, and a periodic one has a deadline later than now. The loop ends: it makes no more rounds
than entries are due and one, as long as handlers only add entries with an interval that is not
zero. -/
theorem fftmrq_runs {h : Nodes} {now : ℕ} {tq : FftimerQueue} {acts : List TmrAct}
    (hinit : fftmrqInit h now = some tq)
    (hgood : GoodRun tmrStep (fun s a => tmrLegal s a ∧ NoOverflow s a) (tmrInit tq) acts) :
    (∃ s, run tmrStep (tmrInit tq) acts = some s ∧ TmrOk s ∧
      (tmrLegal s .step → NoOverflow s .step → ∃ s', tmrStep s .step = some s' ∧ FireOk s s')) ∧
      ∀ a b s, acts = a ++ b → run tmrStep (tmrInit tq) a = some s → (∀ x ∈ b, WithinEvent x) →
        b.count .step ≤ s.numDue + 1 := by
  constructor
  · obtain ⟨s, he, hinv⟩ := tmrStep_preserves.run (tmrInit_inv hinit) hgood
    refine ⟨s, he, hinv.ok, fun hlegal hno => ?_⟩
    obtain ⟨s', hs, -, hfire⟩ := hinv.step hlegal hno
    exact ⟨s', hs, hfire⟩
  rintro a b s rfl hrun hin
  obtain ⟨ha, hb⟩ := hgood.of_append
  obtain ⟨s', he, hinv⟩ := tmrStep_preserves.run (tmrInit_inv hinit) ha
  obtain rfl := some.inj (he.symm.trans hrun)
  refine Nat.le_trans (hinv.count_steps (hb s' he) hin) ?_
  rw [TmrSys.work]
  split
  · exact Nat.zero_le _
  · exact Nat.le_refl _

/-- The queue at the time 1000, on zeroed memory. -/
def zeroQueue : FftimerQueue := ⟨1000, ⟨0, .sentl, zeroNodes.set .sentl .zero⟩, fun _ => 0⟩

theorem fftmrqInit_zero : fftmrqInit zeroNodes 1000 = some zeroQueue := rfl

/-- A periodic entry and a one-shot one, whose handler adds a third. -/
theorem fftmrq_runs_example :
    (∃ s, run tmrStep (tmrInit zeroQueue) [.add 1 5, .add 2 (-3), .event 1010, .step, .add 3 1,
        .ret, .step, .ret, .step] = some s ∧ TmrOk s ∧
      (tmrLegal s .step → NoOverflow s .step → ∃ s', tmrStep s .step = some s' ∧ FireOk s s')) ∧
      ∀ a b s, [TmrAct.add 1 5, .add 2 (-3), .event 1010, .step, .add 3 1, .ret, .step, .ret,
          .step] = a ++ b → run tmrStep (tmrInit zeroQueue) a = some s →
        (∀ x ∈ b, WithinEvent x) → b.count .step ≤ s.numDue + 1 :=
  fftmrq_runs fftmrqInit_zero (by decide)

/-- **An overflow**: an entry that is not due for ages is fired at the next event. -/
theorem fftmrq_overflow :
    ¬∀ (h : Nodes) (now : ℕ) (tq : FftimerQueue) (acts : List TmrAct),
      fftmrqInit h now = some tq → GoodRun tmrStep tmrLegal (tmrInit tq) acts →
        ∃ s, run tmrStep (tmrInit tq) acts = some s ∧ TmrOk s := by
  intro hall
  obtain ⟨s, he, hok⟩ := hall zeroNodes 1000 zeroQueue
    [.add 1 (-(2 ^ 63 - 1)), .event 1001, .step] fftmrqInit_zero (by decide)
  have hfired : (run tmrStep (tmrInit zeroQueue)
      [.add 1 (-(2 ^ 63 - 1)), .event 1001, .step]).map (fun s => (s.led.fired, s.tq.msecTime)) =
        some ([(1, 2 ^ 63 + 999)], 1001) := by decide
  rw [he, map_some, some.injEq, Prod.mk.injEq] at hfired
  have hdue := hok.due (1, 2 ^ 63 + 999) (by rw [hfired.1]; exact mem_cons_self)
  rw [hfired.2] at hdue
  omega

end FF
