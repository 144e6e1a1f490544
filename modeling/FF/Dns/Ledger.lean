import FF.Dns.Match
import Mathlib.Data.List.Perm.Basic

/-!
# The callbacks and the results of the DNS client

Every registration is in one place: its user has been called, it has been cancelled, or it waits
in a query in the tree. Every result is held by a query, or it has been handed to users and its
reference count is the number of those that have not released it yet.
-/

namespace FF

namespace Dns

open List

/-- **What is expected of the client** in every state. -/
structure Sound (c : Client) : Prop where
  once : (c.calls.map Call.reg).Nodup
  notCancelled : ∀ r ∈ c.cancelled, r ∉ c.calls.map Call.reg
  accounted : ∀ r < c.nreg, r ∈ c.calls.map Call.reg ∨ r ∈ c.cancelled ∨
    ∃ q ∈ c.queries, ∃ u ∈ q.users, u.reg = r
  live : ∀ q ∈ c.queries, q.freed = false
  counted : ∀ (i : ℕ) (o : ResObj), c.results[i]? = some o → 0 < c.calls.countP (fun k => i ∈ k.res) →
    o.released ≤ c.calls.countP (fun k => i ∈ k.res) ∧
      o.usage = some (c.calls.countP (fun k => i ∈ k.res) - o.released) ∧
      (o.freed = true ↔ o.released = c.calls.countP (fun k => i ∈ k.res))

/-- **The events that the accounts survive**: a user is attached to the query that is found only
if this one is for the same name and there is memory, and a query with results and users is not
finished by its timer, since one of the tries that are left succeeds. -/
def Client.isGood (c : Client) : Client.Event → Bool
  | .resolve name _ _ mem _ _ _ =>
    (c.find (ffcrc32Iget name)).all fun q => q.name = name && mem.addusr
  | .expire key sends =>
    (c.find key).all fun q =>
      q.res = [] || q.users = [] || (List.range q.triesLeft).any fun i => sends.getD i false
  | .cancel _ _ _ => true
  | .response _ _ => true
  | .unref _ => true

/-- The registrations that wait in queries. -/
def waiting (qs : List Query) : List ℕ := qs.flatMap fun q => q.users.map Quser.reg

/-- The results that are held by queries. -/
def pending (qs : List Query) : List ℕ := qs.flatMap Query.res

@[simp] theorem waiting_cons (q : Query) (qs : List Query) :
    waiting (q :: qs) = q.users.map Quser.reg ++ waiting qs := rfl

@[simp] theorem pending_cons (q : Query) (qs : List Query) :
    pending (q :: qs) = q.res ++ pending qs := rfl

/-- A result that has not been handed out, or whose reference count is the number of the users
that have not released it. -/
def ResObj.Counted (o : ResObj) : Prop :=
  (o.handed = 0 ∧ o.released = 0 ∧ o.freed = false) ∨
    (o.released ≤ o.handed ∧ o.usage = some (o.handed - o.released) ∧
      (o.freed = true ↔ o.released = o.handed))

/-- **Both accounts**, for a client with the queries `qs` in its tree. -/
structure Balanced (qs : List Query) (c : Client) : Prop where
  live : ∀ q ∈ qs, q.freed = false
  regs : (c.calls.map Call.reg ++ c.cancelled ++ waiting qs).Perm (List.range c.nreg)
  pending_nodup : (pending qs).Nodup
  held : ∀ i ∈ pending qs, c.results[i]? = some ResObj.new
  counted : ∀ (i : ℕ) (o : ResObj), c.results[i]? = some o → o.Counted
  handed : ∀ (i : ℕ) (o : ResObj), c.results[i]? = some o → o.handed = c.calls.countP (fun k => i ∈ k.res)
  known : ∀ k ∈ c.calls, ∀ i ∈ k.res, i < c.results.length

theorem Balanced.sound {c : Client} (h : Balanced c.queries c) : Sound c := by
  have hnd := h.regs.nodup_iff.mpr nodup_range
  obtain ⟨hcc, -, -⟩ := nodup_append'.mp hnd
  obtain ⟨hcalls, -, hdisj⟩ := nodup_append'.mp hcc
  refine ⟨hcalls, fun r hr hr' => hdisj hr' hr, fun r hr => ?_, h.live, fun i o ho hpos => ?_⟩
  · have hmem := h.regs.mem_iff.mpr (mem_range.mpr hr)
    rcases mem_append.mp hmem with hmem | hmem
    · rcases mem_append.mp hmem with hmem | hmem
      · exact .inl hmem
      · exact .inr (.inl hmem)
    · obtain ⟨q, hq, hu⟩ := mem_flatMap.mp hmem
      obtain ⟨u, hmem, hreg⟩ := mem_map.mp hu
      exact .inr (.inr ⟨q, hq, u, hmem, hreg⟩)
  · rw [← h.handed i o ho] at hpos ⊢
    rcases h.counted i o ho with ⟨h0, -, -⟩ | hc
    · omega
    · exact hc

theorem getElem?_concat_cases {α : Type*} {l : List α} {a b : α} {i : ℕ}
    (h : (l ++ [a])[i]? = some b) : l[i]? = some b ∨ (i = l.length ∧ b = a) := by
  rcases Nat.lt_trichotomy i l.length with hlt | heq | hgt
  · left
    rwa [getElem?_append_left hlt] at h
  · right
    rw [heq, getElem?_concat_length] at h
    exact ⟨heq, (Option.some.inj h).symm⟩
  · rw [getElem?_eq_none (by rw [length_append, length_singleton]; omega)] at h
    cases h

namespace Balanced

variable {qs rest : List Query} {c : Client} {q : Query}

theorem perm {qs' : List Query} (h : Balanced qs c) (hp : qs.Perm qs') : Balanced qs' c where
  live q hq := h.live q (hp.mem_iff.mpr hq)
  regs := ((hp.flatMap_right _).symm.append_left _).trans h.regs
  pending_nodup := (hp.flatMap_right _).nodup_iff.mp h.pending_nodup
  held i hi := h.held i ((hp.flatMap_right _).mem_iff.mpr hi)
  counted := h.counted
  handed := h.handed
  known := h.known

theorem set {q' : Query} (h : Balanced (q :: rest) c) (hu : q'.users = q.users)
    (hr : q'.res = q.res) (hf : q'.freed = q.freed) : Balanced (q' :: rest) c where
  live := forall_mem_cons.mpr
    ⟨hf.trans (h.live q mem_cons_self), (forall_mem_cons.mp h.live).2⟩
  regs := by simpa [hu] using h.regs
  pending_nodup := by simpa [hr] using h.pending_nodup
  held := by simpa [hr] using h.held
  counted := h.counted
  handed := h.handed
  known := h.known

theorem congr {c' : Client} (h : Balanced qs c) (hn : c'.nreg = c.nreg)
    (hcalls : c'.calls = c.calls) (hcan : c'.cancelled = c.cancelled)
    (hres : c'.results = c.results) : Balanced qs c' := by
  refine ⟨h.live, ?_, h.pending_nodup, ?_, ?_, ?_, ?_⟩
  · rw [hn, hcalls, hcan]
    exact h.regs
  · rw [hres]
    exact h.held
  · rw [hres]
    exact h.counted
  · rw [hres, hcalls]
    exact h.handed
  · rw [hres, hcalls]
    exact h.known

theorem refuse {c' : Client} (h : Balanced qs c) (status : ℤ) (hn : c'.nreg = c.nreg + 1)
    (hcalls : c'.calls = c.calls ++ [⟨c.nreg, status, []⟩]) (hcan : c'.cancelled = c.cancelled)
    (hres : c'.results = c.results) : Balanced qs c' where
  live := h.live
  regs := by
    rw [hn, hcalls, hcan, range_succ, map_append]
    refine .trans ?_ (h.regs.append_right [c.nreg])
    simp only [append_assoc, map_cons, map_nil]
    rw [← append_assoc c.cancelled]
    exact perm_append_comm.append_left _
  pending_nodup := h.pending_nodup
  held := by
    rw [hres]
    exact h.held
  counted := by
    rw [hres]
    exact h.counted
  handed := by
    rw [hres, hcalls]
    intro i o ho
    simp [h.handed i o ho]
  known := by
    rw [hres, hcalls]
    intro k hk i hi
    rcases mem_append.mp hk with hk | hk
    · exact h.known k hk i hi
    · obtain rfl := mem_singleton.mp hk
      cases hi

theorem attach {c' : Client} {q' : Query} (h : Balanced (q :: rest) c) {u : Quser}
    (hreg : u.reg = c.nreg) (hu : q'.users = q.users ++ [u]) (hr : q'.res = q.res)
    (hf : q'.freed = q.freed) (hn : c'.nreg = c.nreg + 1) (hcalls : c'.calls = c.calls)
    (hcan : c'.cancelled = c.cancelled) (hres : c'.results = c.results) :
    Balanced (q' :: rest) c' where
  live := forall_mem_cons.mpr
    ⟨hf.trans (h.live q mem_cons_self), (forall_mem_cons.mp h.live).2⟩
  regs := by
    have hregs := h.regs
    rw [waiting_cons] at hregs ⊢
    rw [hn, hcalls, hcan, range_succ, hu, map_append]
    refine .trans ?_ (hregs.append_right [c.nreg])
    simp only [append_assoc, map_cons, map_nil, hreg]
    exact ((perm_append_comm.append_left _).append_left _).append_left _
  pending_nodup := by simpa [hr] using h.pending_nodup
  held := by simpa [hr, hres] using h.held
  counted := by
    rw [hres]
    exact h.counted
  handed := by
    rw [hres, hcalls]
    exact h.handed
  known := by
    rw [hres, hcalls]
    exact h.known

theorem insert (h : Balanced qs c) (hu : q.users = []) (hr : q.res = [])
    (hf : q.freed = false) : Balanced (q :: qs) c where
  live := forall_mem_cons.mpr ⟨hf, h.live⟩
  regs := by simpa [hu] using h.regs
  pending_nodup := by simpa [hr] using h.pending_nodup
  held := by simpa [hr] using h.held
  counted := h.counted
  handed := h.handed
  known := h.known

theorem cancel {c' : Client} {q' : Query} (h : Balanced (q :: rest) c) {u : Quser}
    (hu : (q'.users ++ [u]).Perm q.users) (hr : q'.res = q.res) (hf : q'.freed = q.freed)
    (hn : c'.nreg = c.nreg) (hcalls : c'.calls = c.calls)
    (hcan : c'.cancelled = c.cancelled ++ [u.reg]) (hres : c'.results = c.results) :
    Balanced (q' :: rest) c' where
  live := forall_mem_cons.mpr
    ⟨hf.trans (h.live q mem_cons_self), (forall_mem_cons.mp h.live).2⟩
  regs := by
    have hregs := h.regs
    rw [waiting_cons] at hregs ⊢
    rw [hn, hcalls, hcan]
    refine .trans ?_ hregs
    have hmap := hu.map Quser.reg
    rw [map_append, map_cons, map_nil] at hmap
    simp only [append_assoc]
    refine (List.Perm.append_left _ ?_).append_left _
    rw [← append_assoc]
    exact (perm_append_comm.trans hmap).append_right _
  pending_nodup := by simpa [hr] using h.pending_nodup
  held := by simpa [hr, hres] using h.held
  counted := by
    rw [hres]
    exact h.counted
  handed := by
    rw [hres, hcalls]
    exact h.handed
  known := by
    rw [hres, hcalls]
    exact h.known

theorem result {c' : Client} {q' : Query} (h : Balanced (q :: rest) c) (hu : q'.users = q.users)
    (hr : q'.res = q.res ++ [c.results.length]) (hf : q'.freed = q.freed)
    (hn : c'.nreg = c.nreg) (hcalls : c'.calls = c.calls) (hcan : c'.cancelled = c.cancelled)
    (hres : c'.results = c.results ++ [ResObj.new]) : Balanced (q' :: rest) c' where
  live := forall_mem_cons.mpr
    ⟨hf.trans (h.live q mem_cons_self), (forall_mem_cons.mp h.live).2⟩
  regs := by
    rw [hn, hcalls, hcan, waiting_cons, hu, ← waiting_cons]
    exact h.regs
  pending_nodup := by
    have hnew : c.results.length ∉ pending (q :: rest) := by
      intro hmem
      have hheld := h.held _ hmem
      rw [getElem?_eq_none (Nat.le_refl _)] at hheld
      cases hheld
    have hperm : (pending (q' :: rest)).Perm (c.results.length :: pending (q :: rest)) := by
      rw [pending_cons, pending_cons, hr, append_assoc]
      exact perm_middle
    exact hperm.nodup_iff.mpr (nodup_cons.mpr ⟨hnew, h.pending_nodup⟩)
  held := by
    intro i hi
    rw [pending_cons, hr, append_assoc, mem_append, mem_append, mem_singleton] at hi
    rw [hres]
    by_cases hlen : i = c.results.length
    · rw [hlen, getElem?_concat_length]
    have hmem : i ∈ pending (q :: rest) := by
      rw [pending_cons, List.mem_append]
      exact hi.imp_right (Or.resolve_left · hlen)
    have hheld := h.held i hmem
    rw [List.getElem?_append_left (List.getElem?_eq_some_iff.mp hheld).1]
    exact hheld
  counted := by
    rw [hres]
    intro i o ho
    rcases getElem?_concat_cases ho with ho | ⟨-, rfl⟩
    · exact h.counted i o ho
    · exact .inl ⟨rfl, rfl, rfl⟩
  handed := by
    rw [hres, hcalls]
    intro i o ho
    rcases getElem?_concat_cases ho with ho | ⟨rfl, rfl⟩
    · exact h.handed i o ho
    · refine (countP_eq_zero.mpr fun k hk => ?_).symm
      intro hmem
      exact Nat.lt_irrefl _ (h.known k hk _ (by simpa using hmem))
  known := by
    rw [hres, hcalls]
    intro k hk i hi
    have hlt := h.known k hk i hi
    rw [length_append]
    omega

/-- The change of results that `query_fin` makes, alone or behind the setting of the reference
counts. -/
theorem fin {c' : Client} {f : ResObj → ResObj} {status : ℤ} (h : Balanced (q :: rest) c)
    (hf : q.res ≠ [] → (f ResObj.new).Counted ∧ (f ResObj.new).handed = q.users.length)
    (hn : c'.nreg = c.nreg) (hcan : c'.cancelled = c.cancelled)
    (hcalls : c'.calls = c.calls ++ q.users.map fun u => ⟨u.reg, status, q.res⟩)
    (hres : ∀ i : ℕ, c'.results[i]? = (c.results[i]?).map fun o => if i ∈ q.res then f o else o) :
    Balanced rest c' := by
  obtain ⟨hnd, hndr, hdisj⟩ := nodup_append'.mp (pending_cons q rest ▸ h.pending_nodup)
  have hheld : ∀ i ∈ q.res, c.results[i]? = some ResObj.new := by
    intro i hi
    exact h.held i (by rw [pending_cons]; exact mem_append_left _ hi)
  -- what a result has become
  have hcases : ∀ (i : ℕ) (o : ResObj), c'.results[i]? = some o →
      (i ∉ q.res ∧ c.results[i]? = some o) ∨ (i ∈ q.res ∧ o = f ResObj.new) := by
    intro i o ho
    rw [hres] at ho
    by_cases hi : i ∈ q.res
    · rw [hheld i hi, Option.map_some, if_pos hi] at ho
      exact .inr ⟨hi, (Option.some.inj ho).symm⟩
    · simp only [if_neg hi, Option.map_id'] at ho
      exact .inl ⟨hi, ho⟩
  have hcount : ∀ i : ℕ, c'.calls.countP (fun k => i ∈ k.res) =
      c.calls.countP (fun k => i ∈ k.res) + if i ∈ q.res then q.users.length else 0 := by
    intro i
    rw [hcalls, countP_append, countP_map]
    congr 1
    by_cases hi : i ∈ q.res
    · simp [Function.comp_def, hi]
    · simp [Function.comp_def, hi]
  refine ⟨(forall_mem_cons.mp h.live).2, ?_, hndr, ?_, ?_, ?_, ?_⟩
  · have hregs := h.regs
    rw [waiting_cons] at hregs
    rw [hn, hcan, hcalls, map_append, map_map]
    refine .trans ?_ hregs
    simp only [append_assoc, Function.comp_def]
    refine List.Perm.append_left _ ?_
    rw [← append_assoc, ← append_assoc]
    exact perm_append_comm.append_right _
  · intro i hi
    have hno : i ∉ q.res := fun hmem => hdisj hmem hi
    have hnew := h.held i (by rw [pending_cons]; exact mem_append_right _ hi)
    rw [hres, hnew, Option.map_some, if_neg hno]
  · intro i o ho
    rcases hcases i o ho with ⟨-, ho⟩ | ⟨hi, rfl⟩
    · exact h.counted i o ho
    · exact (hf (ne_nil_of_mem hi)).1
  · intro i o ho
    rw [hcount]
    rcases hcases i o ho with ⟨hi, ho⟩ | ⟨hi, rfl⟩
    · rw [if_neg hi, h.handed i o ho, Nat.add_zero]
    · have h0 := h.handed i _ (hheld i hi)
      rw [if_pos hi, ← h0, (hf (ne_nil_of_mem hi)).2]
      exact (Nat.zero_add _).symm
  intro k hk i hi
  have hlen : c'.results.length = c.results.length := by
    have hl := hres c.results.length
    have hl' := hres c'.results.length
    rw [getElem?_eq_none (Nat.le_refl _), Option.map_none, getElem?_eq_none_iff] at hl
    rw [getElem?_eq_none (Nat.le_refl _), eq_comm, Option.map_eq_none_iff,
      getElem?_eq_none_iff] at hl'
    omega
  rw [hlen]
  rw [hcalls] at hk
  rcases List.mem_append.mp hk with hk | hk
  · exact h.known k hk i hi
  · obtain ⟨u, -, rfl⟩ := List.mem_map.mp hk
    exact (List.getElem?_eq_some_iff.mp (hheld i hi)).1

theorem unref {c' : Client} {r n : ℕ} {o : ResObj} (h : Balanced qs c)
    (ho : c.results[r]? = some o) (hlt : o.released < o.handed) (hu : o.usage = some (n + 1))
    (hn : c'.nreg = c.nreg) (hcalls : c'.calls = c.calls) (hcan : c'.cancelled = c.cancelled)
    (hres : c'.results = c.results.set r
      { o with usage := some n, freed := decide (n = 0), released := o.released + 1 }) :
    Balanced qs c' := by
  have hlen := (List.getElem?_eq_some_iff.mp ho).1
  have hnext : ∀ (i : ℕ) (o' : ResObj), c'.results[i]? = some o' →
      (i ≠ r ∧ c.results[i]? = some o') ∨ (i = r ∧
        o' = { o with usage := some n, freed := decide (n = 0), released := o.released + 1 }) := by
    intro i o' ho'
    rw [hres] at ho'
    by_cases hi : r = i
    · subst hi
      rw [getElem?_set_self hlen] at ho'
      exact .inr ⟨rfl, (Option.some.inj ho').symm⟩
    · rw [getElem?_set_ne hi] at ho'
      exact .inl ⟨Ne.symm hi, ho'⟩
  refine ⟨h.live, ?_, h.pending_nodup, ?_, ?_, ?_, ?_⟩
  · rw [hn, hcalls, hcan]
    exact h.regs
  · intro i hi
    have hnew := h.held i hi
    have hne : r ≠ i := by
      rintro rfl
      obtain rfl : o = ResObj.new := by simpa [ho] using hnew
      exact absurd hlt (Nat.lt_irrefl 0)
    rw [hres, getElem?_set_ne hne, hnew]
  · intro i o' ho'
    rcases hnext i o' ho' with ⟨-, ho'⟩ | ⟨-, rfl⟩
    · exact h.counted i o' ho'
    right
    rcases h.counted r o ho with ⟨h0, -, -⟩ | ⟨-, husage, -⟩
    · omega
    have hcount : n + 1 = o.handed - o.released := by
      rw [hu] at husage
      exact Option.some.inj husage
    refine ⟨hlt, congrArg some (by simp only; omega), ?_⟩
    simp only [decide_eq_true_eq]
    omega
  · intro i o' ho'
    rw [hcalls]
    rcases hnext i o' ho' with ⟨-, ho'⟩ | ⟨rfl, rfl⟩
    · exact h.handed i o' ho'
    · exact h.handed i o ho
  · rw [hcalls, hres, length_set]
    exact h.known

end Balanced

/-! ### Operations of the client -/

section Operations

variable {c : Client} {q : Query}

theorem modifyResults_getElem? (rs : List ℕ) (f : ResObj → ResObj) (i : ℕ) :
    (c.modifyResults rs f).results[i]? =
      (c.results[i]?).map fun o => if i ∈ rs then f o else o := by
  rw [Client.modifyResults, getElem?_mapIdx]

theorem Keyed.perm (hc : Keyed c) (hq : q ∈ c.queries) :
    c.queries.Perm (q :: c.queries.filter fun q' => q'.key ≠ q.key) := by
  have hnd := hc.nodup
  generalize c.queries = qs at hnd hq
  induction qs with
  | nil => cases hq
  | cons q' qs ih =>
    obtain ⟨hni, hnd⟩ := nodup_cons.mp hnd
    rcases mem_cons.mp hq with rfl | hq
    · have hall : qs.filter (fun q' => q'.key ≠ q.key) = qs := by
        refine filter_eq_self.mpr fun q' hq' => ?_
        have hne : q'.key ≠ q.key := fun he => hni (he ▸ mem_map_of_mem hq')
        simpa using hne
      rw [filter_cons_of_neg (by simp), hall]
    · have hne : q'.key ≠ q.key := fun he => hni (he ▸ mem_map_of_mem hq)
      rw [filter_cons_of_pos (by simpa using hne)]
      exact ((ih hnd hq).cons q').trans (List.Perm.swap q q' _)

theorem Keyed.perm_modify (hc : Keyed c) (hq : q ∈ c.queries) (f : Query → Query) :
    (c.modify q.key f).queries.Perm (f q :: c.queries.filter fun q' => q'.key ≠ q.key) := by
  have hmap := (hc.perm hq).map fun q' => if q'.key = q.key then f q' else q'
  have hrest : (c.queries.filter fun q' => q'.key ≠ q.key).map
      (fun q' => if q'.key = q.key then f q' else q') =
      c.queries.filter fun q' => q'.key ≠ q.key := by
    refine (map_congr_left fun q' hq' => ?_).trans (map_id _)
    rw [if_neg (by simpa using (mem_filter.mp hq').2)]
    rfl
  rw [map_cons, if_pos rfl, hrest] at hmap
  exact hmap

/-- **Both accounts of a client** -/
structure Inv (c : Client) : Prop where
  keyed : Keyed c
  balanced : Balanced c.queries c

theorem Inv.split (h : Inv c) (hq : q ∈ c.queries) :
    Balanced (q :: c.queries.filter fun q' => q'.key ≠ q.key) c :=
  h.balanced.perm (h.keyed.perm hq)

/-- `query_fin` of a query that has no results or no users. -/
theorem Inv.fin (h : Inv c) (hq : q ∈ c.queries) (hempty : q.res = [] ∨ q.users = [])
    (status : ℤ) : Inv (c.fin q status) where
  keyed := h.keyed.fin q status
  balanced := by
    refine (h.split hq).fin ?_ rfl rfl rfl (modifyResults_getElem? _ _)
    intro hres
    rw [hempty.resolve_left hres]
    exact ⟨.inl ⟨rfl, rfl, rfl⟩, rfl⟩

theorem sendLoop_none {n : ℕ} {sends : List Bool} (h : Client.sendLoop n sends = none) :
    ∀ i < n, sends.getD i false = false := by
  induction n generalizing sends with
  | zero =>
    intro i hi
    omega
  | succ n ih =>
    rw [Client.sendLoop] at h
    split at h
    · cases h
    rename_i hhead
    intro i hi
    cases sends with
    | nil => simp
    | cons s sends =>
      cases i with
      | zero => simpa using hhead
      | succ i => simpa using ih h i (by omega)

/-- `query_send` -/
theorem Inv.send (h : Inv c) (hq : q ∈ c.queries) {sends : List Bool}
    (hempty : (∀ i < q.triesLeft, sends.getD i false = false) → q.res = [] ∨ q.users = []) :
    Inv (c.send q sends) := by
  refine ⟨h.keyed.send q sends, ?_⟩
  unfold Client.send
  split
  · refine Balanced.perm ?_ (h.keyed.perm_modify hq _).symm
    exact Balanced.congr ((h.split hq).set rfl rfl rfl) rfl rfl rfl rfl
  · rename_i hnone
    exact (h.fin hq (hempty (sendLoop_none hnone)) (-1)).balanced

/-- A computation of the client that gives a result with `P`, or fails because memory is accessed
outside of an object. -/
def Post {α : Type} (P : α → Prop) : Except ClientStop α → Prop
  | .ok a => P a
  | .error s => ∃ e, s = .mem e

theorem Post.bind {α β : Type} {P : α → Prop} {Q : β → Prop} {x : Except ClientStop α}
    {f : α → Except ClientStop β} (hx : Post P x) (hf : ∀ a, P a → Post Q (f a)) :
    Post Q (x >>= f) := by
  cases x with
  | error s => exact hx
  | ok a => exact hf a hx

theorem Post.mapError {α : Type} (x : Except MemStop α) :
    Post (fun a => x = .ok a) (x.mapError .mem) := by
  cases x with
  | error e => exact ⟨e, rfl⟩
  | ok a => rfl

theorem Inv.resolveNew (h : Inv c) {user : Quser} (hreg : user.reg = c.nreg) {host : List UInt8}
    (mem : Client.Mem) (txid4 txid6 : ℕ) (sends : List Bool)
    (hfree : c.find (ffcrc32Iget host) = none) :
    Post Inv (Client.resolveNew { c with nreg := c.nreg + 1 } user host mem txid4 txid6 sends) := by
  have hrefuse : Inv (Client.call { c with nreg := c.nreg + 1 } user.reg (-1) []) :=
    ⟨h.keyed.congr rfl, h.balanced.refuse (-1) rfl (by rw [Client.call, hreg]) rfl rfl⟩
  refine Post.bind (Post.mapError _) fun buf4 hbuf4 => ?_
  cases buf4 with
  | none => exact hrefuse
  | some buf4 =>
    have hprep6 : Post (fun buf6 : Option (List UInt8) =>
        buf6.getD [] = [] ∨ IsQuery host FFDNS_AAAA (buf6.getD []))
        (Client.prep6 { c with nreg := c.nreg + 1 } host txid6) := by
      unfold Client.prep6
      split
      · cases hp : queryPrep c.edns c.bufSize txid6 host FFDNS_AAAA with
        | error e => exact ⟨e, rfl⟩
        | ok msg =>
          cases msg with
          | none => exact .inl rfl
          | some msg => exact .inr (queryPrep_some hp)
      · exact .inl rfl
    refine Post.bind hprep6 fun buf6 hbuf6 => ?_
    split
    · exact hrefuse
    have hkeyed : Keyed { c with nreg := c.nreg + 1 } := h.keyed.congr rfl
    obtain ⟨q, hq⟩ : ∃ q, q = Client.newQuery { c with nreg := c.nreg + 1 } user host txid4 txid6
      buf4 (buf6.getD []) := ⟨_, rfl⟩
    have hins := @Balanced.insert c.queries c { q with users := [] } h.balanced rfl
      (by rw [hq]; rfl) (by rw [hq]; rfl)
    have hinv : Inv { c with nreg := c.nreg + 1, queries := q :: c.queries } := by
      refine ⟨hkeyed.cons ?_ ?_ ?_, ?_⟩
      · rw [hq]
        exact hfree
      · rw [hq]
        rfl
      · rw [hq]
        exact ⟨queryPrep_some hbuf4, hbuf6⟩
      · exact hins.attach hreg (by rw [hq]; rfl) rfl rfl rfl rfl rfl rfl
    have hsend := @Inv.send _ _ hinv mem_cons_self sends
      (fun _ => .inl (by rw [hq]; rfl))
    rw [hq] at hsend
    exact hsend

/-- `ffdnscl_resolve` -/
theorem Inv.resolve (h : Inv c) (name : List UInt8) (ondone udata : ℕ) (mem : Client.Mem)
    (rnd4 rnd6 : ℕ) (sends : List Bool)
    (hgood : c.isGood (.resolve name ondone udata mem rnd4 rnd6 sends) = true) :
    Post Inv (c.resolve name ondone udata mem rnd4 rnd6 sends) := by
  unfold Client.resolve
  cases hfind : c.find (ffcrc32Iget name) with
  | none =>
    have hfind' : Client.find { c with nreg := c.nreg + 1 } (ffcrc32Iget name) = none := hfind
    simp only [hfind']
    exact h.resolveNew rfl mem _ _ sends hfind
  | some q =>
    have hfind' : Client.find { c with nreg := c.nreg + 1 } (ffcrc32Iget name) = some q := hfind
    have hq := (Keyed.mem_of_find hfind).1
    obtain ⟨hname, hmem⟩ : q.name = name ∧ mem.addusr = true := by
      simpa [Client.isGood, hfind] using hgood
    have hlive : q.freed = false := h.balanced.live q hq
    have hkeyed : Keyed { c with nreg := c.nreg + 1 } := h.keyed.congr rfl
    simp only [hfind', hlive, hname, hmem, ne_eq, not_true, Bool.not_true, Bool.false_eq_true,
      or_self, if_false]
    refine ⟨hkeyed.modify fun _ _ _ => rfl, ?_⟩
    refine Balanced.perm ?_ (hkeyed.perm_modify hq _).symm
    exact (h.split hq).attach (u := ⟨ondone, udata, c.nreg⟩) rfl rfl rfl rfl rfl rfl rfl rfl

theorem rmswap_perm {α : Type*} {l : List α} {i : ℕ} (hi : i < l.length) :
    (Client.rmswap l i ++ [l[i]]).Perm l := by
  obtain ⟨init, last, rfl⟩ := eq_nil_or_concat' l |>.resolve_left (by
    rintro rfl
    exact Nat.not_lt_zero i hi)
  rw [Client.rmswap, getLast?_concat]
  simp only
  by_cases hlast : i = init.length
  · subst hlast
    simp
  have hlt : i < init.length := by
    rw [length_append, length_singleton] at hi
    omega
  rw [set_append_left _ _ hlt, dropLast_concat, getElem_append_left hlt]
  calc (init.set i last ++ [init[i]]).Perm (init[i] :: init.set i last) :=
        perm_append_singleton _ _
    _ |>.Perm (init[i] :: last :: init.eraseIdx i) :=
        (set_perm_cons_eraseIdx hlt last).cons _
    _ |>.Perm (last :: init[i] :: init.eraseIdx i) := List.Perm.swap _ _ _
    _ |>.Perm (last :: init) := (getElem_cons_eraseIdx_perm hlt).cons _
    _ |>.Perm (init ++ [last]) := (perm_append_singleton _ _).symm

/-- `query_rmuser` -/
theorem Inv.cancel (h : Inv c) (host : List UInt8) (ondone udata : ℕ) :
    Post Inv (c.cancel host ondone udata) := by
  unfold Client.cancel
  cases hfind : c.find (ffcrc32Iget host) with
  | none => exact h
  | some q =>
    have hq := (Keyed.mem_of_find hfind).1
    have hlive : q.freed = false := h.balanced.live q hq
    simp only [hlive, Bool.false_eq_true, if_false]
    split
    · exact h
    split
    · exact h
    rename_i i hi
    obtain ⟨hlt, -, -⟩ := findIdx?_eq_some_iff_getElem.mp hi
    have hkeyed : Keyed (c.modify q.key fun q' => { q' with users := Client.rmswap q'.users i }) :=
      h.keyed.modify fun _ _ _ => rfl
    refine ⟨hkeyed.congr rfl, ?_⟩
    refine Balanced.perm ?_ (h.keyed.perm_modify hq _).symm
    refine (h.split hq).cancel (u := q.users[i]) (rmswap_perm hlt) rfl rfl rfl rfl ?_ rfl
    simp [getElem?_eq_getElem hlt]

/-- `query_onexpire` -/
theorem Inv.onexpire (h : Inv c) (key : UInt32) (sends : List Bool)
    (hgood : c.isGood (.expire key sends) = true) : Inv (c.onexpire key sends) := by
  unfold Client.onexpire
  cases hfind : c.find key with
  | none => exact h
  | some q =>
    have hq := (Keyed.mem_of_find hfind).1
    have hempty : (∀ i < q.triesLeft, sends.getD i false = false) → q.res = [] ∨ q.users = [] := by
      intro hall
      have hany : (List.range q.triesLeft).any (fun i => sends.getD i false) = false := by
        rw [any_eq_false]
        intro i hi
        rw [hall i (mem_range.mp hi)]
        exact Bool.false_ne_true
      rw [Client.isGood, hfind, Option.all_some, hany] at hgood
      simpa using hgood
    simp only
    split
    · exact h
    · split
      · rename_i hzero
        refine h.fin hq (hempty fun i hi => ?_) (-1)
        omega
      · exact h.send hq hempty

/-- `ffdnscl_unref` -/
theorem Inv.unref (h : Inv c) (r : ℕ) : Post Inv (c.unref r) := by
  unfold Client.unref
  split
  · exact h
  rename_i o ho
  split
  · exact h
  rename_i hlt
  obtain ⟨-, husage, -⟩ : o.released ≤ o.handed ∧ o.usage = some (o.handed - o.released) ∧
      (o.freed = true ↔ o.released = o.handed) := by
    rcases h.balanced.counted r o ho with ⟨h0, -, -⟩ | hc
    · omega
    · exact hc
  obtain ⟨n, hn⟩ : ∃ n, o.handed - o.released = n + 1 := ⟨o.handed - o.released - 1, by omega⟩
  rw [hn] at husage
  simp only [husage]
  exact ⟨h.keyed.congr rfl,
    h.balanced.unref ho (Nat.lt_of_not_le hlt) husage rfl rfl rfl rfl⟩

/-- `ans_proc` up to the response code and the result of the response: `q'` takes the place of the
query `q`, which is still in the tree. -/
theorem Inv.ansStatus (h : Inv c) (hq : q ∈ c.queries) {q' : Query}
    (he : Keyed.entry q' = Keyed.entry q) (hu : q'.users = q.users) (hr : q'.res = q.res)
    (hf : q'.freed = q.freed) (resp : List UInt8) (hdr : HdrHost) (is4 mem : Bool) :
    Post (fun p => p.1.queries = c.queries ∧ Keyed.entry p.2 = Keyed.entry q ∧
      Balanced (p.2 :: c.queries.filter fun q' => q'.key ≠ q.key) p.1)
      (c.ansStatus resp hdr q' is4 mem) := by
  have hset := (h.split hq).set hu hr hf
  unfold Client.ansStatus
  split
  · exact ⟨rfl, he, (h.split hq).set hu hr hf⟩
  · refine Post.bind (Post.mapError _) fun res _ => ?_
    cases res with
    | none => exact ⟨rfl, he, (h.split hq).set hu hr hf⟩
    | some r => exact ⟨rfl, he, hset.result rfl rfl rfl rfl rfl rfl rfl⟩

/-- `ans_proc` behind the response -/
theorem Inv.ansFin (hkeyed : Keyed c) (hq : q ∈ c.queries) {q' : Query}
    (he : Keyed.entry q' = Keyed.entry q)
    (hbal : Balanced (q' :: c.queries.filter fun q' => q'.key ≠ q.key) c) : Inv (c.ansFin q') := by
  refine ⟨hkeyed.ansFin hq he, ?_⟩
  have hkey : q'.key = q.key := (Keyed.entry_inj he).1
  unfold Client.ansFin
  split
  · rw [hkey]
    exact (hbal.perm (hkeyed.perm_modify hq fun _ => q').symm).congr rfl rfl rfl rfl
  have hqueries : ((c.modifyResults q'.res fun o => { o with usage := some q'.users.length }).fin
      q' q'.status).queries = c.queries.filter fun q' => q'.key ≠ q.key := by
    rw [← hkey]
    rfl
  rw [hqueries]
  refine hbal.fin (f := fun o => { o with
    usage := some q'.users.length, handed := o.handed + q'.users.length }) ?_ rfl rfl rfl ?_
  · intro _
    refine ⟨?_, Nat.zero_add _⟩
    by_cases hzero : q'.users.length = 0
    · exact .inl ⟨by rw [hzero]; rfl, rfl, rfl⟩
    · refine .inr ⟨Nat.zero_le _, ?_, ?_⟩
      · simp [ResObj.new]
      · simp only [ResObj.new, Nat.zero_add, Bool.false_eq_true, false_iff]
        omega
  intro i
  have h1 := modifyResults_getElem? (c := c) q'.res
    (fun o => { o with usage := some q'.users.length }) i
  have h2 := modifyResults_getElem?
    (c := c.modifyResults q'.res fun o => { o with usage := some q'.users.length }) q'.res
    (fun o => { o with handed := o.handed + q'.users.length }) i
  rw [h1, Option.map_map] at h2
  refine h2.trans (congrArg (fun f => Option.map f c.results[i]?) ?_)
  funext o
  by_cases hi : i ∈ q'.res
  · simp [Function.comp, hi]
  · simp [Function.comp, hi]

/-- `ans_find_query` -/
theorem Inv.ansFindQuery (h : Inv c) (resp : List UInt8) :
    Post (fun r => ∀ p, r = some p → p.2 ∈ c.queries) (c.ansFindQuery resp) := by
  refine Post.bind (Post.mapError _) fun r _ => ?_
  have hnone : Post (fun r : Option (HdrHost × Query) => ∀ p, r = some p → p.2 ∈ c.queries)
      (.ok none) := fun p hp => by cases hp
  cases r with
  | none => exact hnone
  | some p =>
    obtain ⟨hdr, name⟩ := p
    simp only
    cases hfind : c.find (ffcrc32Get name) with
    | none => exact hnone
    | some q =>
      have hq := (Keyed.mem_of_find hfind).1
      have hlive : q.freed = false := h.balanced.live q hq
      simp only [hlive, Bool.false_eq_true, if_false]
      split
      · exact hnone
      · intro p hp
        cases hp
        exact hq

/-- `ans_proc` -/
theorem Inv.ansProc (h : Inv c) (resp : List UInt8) (mem : Bool) :
    Post Inv (c.ansProc resp mem) := by
  refine Post.bind (h.ansFindQuery resp) fun r hr => ?_
  cases r with
  | none => exact h
  | some p =>
    obtain ⟨hdr, q⟩ := p
    have hq : q ∈ c.queries := hr _ rfl
    have hfin : ∀ p : Client × Query, (p.1.queries = c.queries ∧
        Keyed.entry p.2 = Keyed.entry q ∧
        Balanced (p.2 :: c.queries.filter fun q' => q'.key ≠ q.key) p.1) →
        Post Inv (pure (p.1.ansFin p.2)) := by
      rintro ⟨c', q'⟩ ⟨hqs, he, hbal⟩
      exact Inv.ansFin (h.keyed.congr hqs) (hqs ▸ hq) he (hqs ▸ hbal)
    simp only
    split
    · exact Post.bind (@Inv.ansStatus _ _ h hq { q with need4 := false } rfl rfl rfl rfl resp hdr
        true mem) hfin
    split
    · exact Post.bind (@Inv.ansStatus _ _ h hq { q with need6 := false } rfl rfl rfl rfl resp hdr
        false mem) hfin
    · exact h

/-- **An event** keeps both accounts, or memory is accessed outside of an object. -/
theorem Inv.step (h : Inv c) (e : Client.Event) (hgood : c.isGood e = true) :
    Post Inv (c.step e) := by
  cases e with
  | resolve name ondone udata mem rnd4 rnd6 sends =>
    exact h.resolve name ondone udata mem rnd4 rnd6 sends hgood
  | cancel name ondone udata => exact h.cancel name ondone udata
  | response resp mem => exact h.ansProc resp mem
  | expire key sends => exact h.onexpire key sends hgood
  | unref r => exact h.unref r

theorem inv_new (maxTries bufSize : ℕ) (enableIpv6 edns debugLog : Bool) :
    Inv (Client.new maxTries bufSize enableIpv6 edns debugLog) where
  keyed := @Keyed.of_run _ _ _ _ _ _ [] rfl
  balanced := ⟨by simp [Client.new], by simp [Client.new, waiting], nodup_nil,
    by simp [Client.new, pending], by simp [Client.new], by simp [Client.new],
    by simp [Client.new]⟩

end Operations

/-- **Every run of good events.** In each state that is reached, no user has been called twice or
after it has cancelled, every other user waits in a query in the tree, no query in the tree has
been freed, and the reference count of each result is the number of users that hold it. A further
good event does not use a freed query, or a reference count that is not set or is 0. -/
theorem run_sound {maxTries bufSize : ℕ} {enableIpv6 edns debugLog : Bool}
    {es : List Client.Event} {c : Client}
    (hgood : GoodRun Client.next (fun c e => c.isGood e = true)
      (Client.new maxTries bufSize enableIpv6 edns debugLog) es)
    (hrun : run Client.next (Client.new maxTries bufSize enableIpv6 edns debugLog) es = some c) :
    Sound c ∧ ∀ e s, c.isGood e = true → c.step e = .error s → ∃ m, s = .mem m := by
  have hinv : Inv c := by
    refine hgood.inv (fun {c e c'} (h : Inv c) hg hs => ?_) (inv_new ..) hrun
    have hpost := h.step e hg
    unfold Client.next at hs
    cases hstep : c.step e with
    | error _ =>
      rw [hstep] at hs
      cases hs
    | ok c'' =>
      rw [hstep] at hs hpost
      cases hs
      exact hpost
  refine ⟨hinv.balanced.sound, fun e s hg hs => ?_⟩
  have hpost := hinv.step e hg
  rw [hs] at hpost
  exact hpost

/-- Two users register for a name, one of them cancels, the response comes, and the other one
releases the result. -/
def goodEvents : List Client.Event :=
  [.resolve [0x61] 1 2 ⟨true, true, true⟩ 7 0 [true], .resolve [0x61] 1 3 ⟨true, true, true⟩ 0 0 [],
    .cancel [0x61] 1 2, .response (twoRecords 12) true, .unref 0]

/-- The run of these events. -/
theorem run_sound_example :
    ∃ c, run Client.next (Client.new 5 512 false false false) goodEvents = some c ∧ Sound c ∧
      c.calls = [⟨1, 0, [0]⟩] ∧ c.cancelled = [0] := by
  obtain ⟨c, hc⟩ : ∃ c, c = (run Client.next (Client.new 5 512 false false false) goodEvents).get
    (by decide) := ⟨_, rfl⟩
  have hrun : run Client.next (Client.new 5 512 false false false) goodEvents = some c := by
    rw [hc, Option.some_get]
  refine ⟨c, hrun, (run_sound (by decide) hrun).1, ?_, ?_⟩
  · rw [hc]
    decide
  · rw [hc]
    decide

/-- A user registers for `a`. -/
def firstEvent : Client.Event := .resolve [0x61] 1 2 ⟨true, true, true⟩ 7 8 [true]

/-- A second user registers for `A`, which has the same hash value. -/
def collisionEvents : List Client.Event :=
  [firstEvent, .resolve [0x41] 1 3 ⟨true, true, true⟩ 0 0 []]

/-- A second user registers for `a`, and there is no memory for it. -/
def nomemEvents : List Client.Event :=
  [firstEvent, .resolve [0x61] 1 3 ⟨true, false, true⟩ 0 0 []]

/-- The response for the IPv4 address comes, the one for the IPv6 address does not. -/
def timeoutEvents : List Client.Event :=
  [firstEvent, .response (twoRecords 12) true, .expire (ffcrc32Iget [0x61]) []]

/-- The query for `a` when it has been freed in the tree. -/
def lostQuery : Query :=
  { letterQuery 0x61 with
    triesLeft := 0
    users := []
    txid6 := 8
    need6 := true
    question6 := [0, 8, 1, 0, 0, 1, 0, 0, 0, 0, 0, 0] ++ [1, 0x61, 0, 0, 28, 0, 1]
    timer := false
    freed := true }

/-- The client when its query has been freed and the second user has been called. -/
def lostClient : Client :=
  { Client.new 1 512 true false false with
    queries := [lostQuery]
    calls := [⟨1, -1, []⟩]
    nreg := 2 }

/-- The client when a result has been handed out by the timer. -/
def timeoutClient : Client :=
  { Client.new 1 512 true false false with
    results := [⟨none, false, 1, 0⟩]
    calls := [⟨0, -1, [0]⟩]
    nreg := 1 }

/-- **Runs of other events.** A query that is found but can't be used is freed and stays in the
tree; its user is never called. When there are no tries left, a result is handed to a user without
its reference count. -/
theorem run_unsound :
    (∀ es ∈ [collisionEvents, nomemEvents],
      run Client.next (Client.new 1 512 true false false) es = some lostClient) ∧
      run Client.next (Client.new 1 512 true false false) timeoutEvents = some timeoutClient ∧
      ¬Sound lostClient ∧ ¬Sound timeoutClient := by
  refine ⟨by decide, by decide, ?_, ?_⟩
  · intro h
    exact Bool.false_ne_true (h.live lostQuery mem_cons_self).symm
  · intro h
    obtain ⟨-, husage, -⟩ := h.counted 0 ⟨none, false, 1, 0⟩ rfl Nat.one_pos
    cases husage

end Dns

end FF
