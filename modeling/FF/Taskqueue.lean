import FF.Fflist
import FF.Lib.Refine
import Mathlib.Data.List.Sigma

/-!
# Task queue

The queue of `FF/sys/taskqueue.h` with any number of threads that post tasks and one thread that
runs and deletes them. The sections under the lock are atomic; the first item is read outside of
it. Handlers run on the thread of `fftask_run` and may post and delete.

The purpose is a queue of numbered posts. The number `i` is that of the post that queued a task
as the `i`-th one; a post of a task that is queued has no number.
-/

namespace FF

open List

/-! ### Program -/

/-- `fftaskmgr`, with the memory of the items of its list and of the tasks. -/
structure Fftaskmgr (A : Type*) where
  mem : Links A
  tasks : Fflist A
  maxRun : ℕ

/-- The place of the running thread; `n` is the loop's counter. -/
inductive RunPc (A : Type*)
  /-- Not in `fftask_run`; what the last call returned. -/
  | ret (r : ℕ)
  /-- At the head of the loop. -/
  | loop (n : ℕ)
  /-- The first item was read. -/
  | lock (it : A) (n : ℕ)
  /-- The item was unlinked. -/
  | call (it : A) (n : ℕ)
  /-- In the handler of a task. -/
  | handler (n : ℕ)
  deriving DecidableEq, Repr

/-- What a step shows to the user of the queue. -/
inductive TaskEvent (A : Type*)
  | quiet
  | posted (r : ℕ)
  | called (t : A)
  | returned (r : ℕ)
  deriving DecidableEq, Repr

section Program

variable {A : Type*} [DecidableEq A]

/-- `fftask_init`; `max_run` is 64 unless the user sets it. -/
def fftaskInit (mem : Links A) (sentl : A) (maxRun : ℕ) : Option (Fftaskmgr A) := do
  let (mem, tasks) ← fflistInit mem sentl
  some ⟨mem, tasks, maxRun⟩

/-- `fftask_active`: the task is in the queue. -/
def fftaskActive (m : Fftaskmgr A) (t : A) : Option Bool := (m.mem t).map fun x => x.next ≠ none

/-- `fftask_post`: 1 if the task was added to an empty queue. -/
def fftaskPost (m : Fftaskmgr A) (t : A) : Option (Fftaskmgr A × ℕ) :=
  (fftaskActive m t).bind fun active =>
    if active then some (m, 0)
    else (fflistEmpty m.mem m.tasks).bind fun r => do
      let (mem, tasks) ← fflistIns m.mem m.tasks t
      some ({ m with mem := mem, tasks := tasks }, r.toNat)

/-- `fftask_del`. -/
def fftaskDel (m : Fftaskmgr A) (t : A) : Option (Fftaskmgr A) :=
  (fftaskActive m t).bind fun active =>
    if active then do
      let (mem, tasks) ← fflistRm m.mem m.tasks t
      some { m with mem := mem, tasks := tasks }
    else some m

/-- The section of `fftask_run` under the lock: the item is unlinked, its `prev` stays. -/
def fftaskUnlink (m : Fftaskmgr A) (it : A) : Option (Fftaskmgr A) := do
  if m.tasks.len = 0 then none
  let x ← m.mem it
  let mem ← ffchainLink2 m.mem x.prev x.next
  let mem ← mem.modify it fun x => { x with next := none }
  some { m with mem := mem, tasks := { m.tasks with len := m.tasks.len - 1 } }

/-- `fftask_run`, one step. -/
def fftaskRunStep (m : Fftaskmgr A) : RunPc A → Option ((Fftaskmgr A × RunPc A) × TaskEvent A)
  | .ret r => some ((m, .ret r), .quiet)
  | .loop 0 => some ((m, .ret (m.maxRun - 0)), .returned (m.maxRun - 0))
  | .loop (n + 1) => do
      let it ← (← m.mem m.tasks.sentl).next
      if it = m.tasks.sentl then
        some ((m, .ret (m.maxRun - (n + 1))), .returned (m.maxRun - (n + 1)))
      else some ((m, .lock it (n + 1)), .quiet)
  | .lock it n => do
      let m ← fftaskUnlink m it
      some ((m, .call it n), .quiet)
  | .call it n => some ((m, .handler n), .called it)
  | .handler n => some ((m, .loop (n - 1)), .quiet)

/-- What the threads do. -/
inductive TaskAct (A : Type*)
  /-- A thread or a handler calls `fftask_post`. -/
  | post (t : A)
  /-- The running thread, also in a handler, calls `fftask_del`. -/
  | del (t : A)
  /-- The running thread calls `fftask_run`. -/
  | run
  /-- The running thread makes a step of `fftask_run`. -/
  | step
  deriving DecidableEq, Repr

/-- One step of the threads. -/
def taskStep (s : Fftaskmgr A × RunPc A) :
    TaskAct A → Option ((Fftaskmgr A × RunPc A) × TaskEvent A)
  | .post t => do
      let (m, r) ← fftaskPost s.1 t
      some ((m, s.2), .posted r)
  | .del t => do
      let m ← fftaskDel s.1 t
      some ((m, s.2), .quiet)
  | .run => some ((s.1, .loop s.1.maxRun), .quiet)
  | .step => fftaskRunStep s.1 s.2

end Program

/-! ### Purpose -/

section Purpose

variable {A : Type*}

/-- The running thread is not in `fftask_run`. -/
def RunPc.returned : RunPc A → Bool
  | .ret _ => true
  | _ => false

/-- User code runs on the running thread. -/
def RunPc.free : RunPc A → Bool
  | .ret _ | .handler _ => true
  | _ => false

/-- The item that was unlinked and whose handler was not called yet. -/
def RunPc.pending : RunPc A → List A
  | .call it _ => [it]
  | _ => []

/-- The same place with other items. -/
def RunPc.map {B : Type*} (f : A → B) : RunPc A → RunPc B
  | .ret r => .ret r
  | .loop n => .loop n
  | .lock it n => .lock (f it) n
  | .call it n => .call (f it) n
  | .handler n => .handler n

/-- A queue of posts, each a task and the number of the post. -/
structure TaskSpec (A : Type*) where
  maxRun : ℕ
  pc : RunPc (A × ℕ)
  /-- The posts that wait. -/
  queue : List (A × ℕ)
  /-- The tasks of all posts that queued one. -/
  posts : List A
  /-- The numbers of the posts that were deleted. -/
  deleted : List ℕ
  /-- The posts whose handlers were called, in this order. -/
  executed : List (A × ℕ)
  /-- How many had been executed when `fftask_run` was called. -/
  started : ℕ

namespace TaskSpec

/-- The task is queued. -/
def Queued (g : TaskSpec A) (t : A) : Prop := ∃ p ∈ g.queue, p.1 = t

instance [DecidableEq A] (g : TaskSpec A) (t : A) : Decidable (g.Queued t) :=
  inferInstanceAs (Decidable (∃ p ∈ g.queue, p.1 = t))

/-- A post adds a task that is not queued. -/
def post [DecidableEq A] (g : TaskSpec A) (t : A) : TaskSpec A × TaskEvent A :=
  if g.Queued t then (g, .posted 0)
  else
    ({ g with queue := g.queue ++ [(t, g.posts.length)], posts := g.posts ++ [t] },
      .posted g.queue.isEmpty.toNat)

/-- The post of the task is deleted. -/
def del [DecidableEq A] (g : TaskSpec A) (t : A) : TaskSpec A :=
  { g with
    queue := g.queue.filter fun p => p.1 ≠ t
    deleted := g.deleted ++ (g.queue.filter fun p => p.1 = t).map Prod.snd }

/-- The running thread takes the first post and executes it. -/
def runStep (g : TaskSpec A) : RunPc (A × ℕ) → TaskSpec A × TaskEvent A
  | .ret _ => (g, .quiet)
  | .loop 0 => ({ g with pc := .ret g.maxRun }, .returned g.maxRun)
  | .loop (n + 1) =>
    match g.queue with
    | [] => ({ g with pc := .ret (g.maxRun - (n + 1)) }, .returned (g.maxRun - (n + 1)))
    | p :: _ => ({ g with pc := .lock p (n + 1) }, .quiet)
  | .lock p n => ({ g with pc := .call p n, queue := g.queue.tail }, .quiet)
  | .call p n => ({ g with pc := .handler n, executed := g.executed ++ [p] }, .called p.1)
  | .handler n => ({ g with pc := .loop (n - 1) }, .quiet)

/-- One step of the threads. -/
def next [DecidableEq A] (g : TaskSpec A) : TaskAct A → TaskSpec A × TaskEvent A
  | .post t => g.post t
  | .del t => (g.del t, .quiet)
  | .run => ({ g with pc := .loop g.maxRun, started := g.executed.length }, .quiet)
  | .step => g.runStep g.pc

/-- A queue without posts. -/
def init (maxRun : ℕ) : TaskSpec A := ⟨maxRun, .ret 0, [], [], [], [], 0⟩

end TaskSpec

/-- Calls that threads may make: tasks are in memory, and only the running thread deletes. -/
def taskLegal (s : Fftaskmgr A × RunPc A) : TaskAct A → Prop
  | .post t => t ≠ s.1.tasks.sentl ∧ (s.1.mem t).isSome
  | .del t => (t ≠ s.1.tasks.sentl ∧ (s.1.mem t).isSome) ∧ s.2.free
  | .run => s.2.returned
  | .step => ¬ s.2.returned

instance [DecidableEq A] (s : Fftaskmgr A × RunPc A) (a : TaskAct A) : Decidable (taskLegal s a) :=
  match a with
  | .post t => inferInstanceAs (Decidable (t ≠ s.1.tasks.sentl ∧ (s.1.mem t).isSome))
  | .del t =>
    inferInstanceAs (Decidable ((t ≠ s.1.tasks.sentl ∧ (s.1.mem t).isSome) ∧ s.2.free))
  | .run => inferInstanceAs (Decidable (s.2.returned = true))
  | .step => inferInstanceAs (Decidable ¬ (s.2.returned = true))

end Purpose

/-! ### The queue of posts -/

section Posts

variable {A : Type*}

@[simp] theorem RunPc.map_returned {B : Type*} (f : A → B) (pc : RunPc A) :
    (pc.map f).returned = pc.returned := by
  cases pc <;> rfl

@[simp] theorem RunPc.map_free {B : Type*} (f : A → B) (pc : RunPc A) :
    (pc.map f).free = pc.free := by
  cases pc <;> rfl

/-- User code does not run between the unlinking of a task and the call of its handler. -/
theorem RunPc.pending_of_free {pc : RunPc A} (h : pc.free) : pc.pending = [] := by
  cases pc with
  | call it n => cases h
  | _ => rfl

namespace TaskSpec

/-- What the counter of the loop has to do with the executed tasks. -/
def Counted (g : TaskSpec A) : Prop :=
  match g.pc with
  | .ret r => r + g.started = g.executed.length
  | .loop n => n + g.executed.length = g.maxRun + g.started
  | .lock _ n | .call _ n => 0 < n ∧ n + g.executed.length = g.maxRun + g.started
  | .handler n => 0 < n ∧ n + g.executed.length = g.maxRun + g.started + 1

/-- **Posts are executed in order**: those that were executed, the one that is about to be, and
those that wait are the posts that were not deleted. -/
structure Fifo (g : TaskSpec A) : Prop where
  order : g.executed ++ g.pc.pending ++ g.queue = g.posts.zipIdx.filter fun p => p.2 ∉ g.deleted
  deleted : ∀ i ∈ g.deleted, i < g.posts.length
  lock : ∀ p n, g.pc = .lock p n → g.queue.head? = some p
  started : g.started ≤ g.executed.length
  counted : g.Counted

/-- The steps that threads may make. -/
def Legal (g : TaskSpec A) : TaskAct A → Prop
  | .post _ => True
  | .del _ => g.pc.free
  | .run => g.pc.returned
  | .step => ¬ g.pc.returned

variable {g : TaskSpec A}

theorem Fifo.mem_posts (hg : g.Fifo) {p : A × ℕ}
    (hp : p ∈ g.executed ++ g.pc.pending ++ g.queue) : g.posts[p.2]? = some p.1 := by
  rw [hg.order] at hp
  exact mem_zipIdx_iff_getElem?.mp (mem_of_mem_filter hp)

theorem Fifo.nodup (hg : g.Fifo) :
    ((g.executed ++ g.pc.pending ++ g.queue).map Prod.snd).Nodup := by
  rw [hg.order]
  exact (nodup_zipIdx_map_snd g.posts).sublist (filter_sublist.map _)

theorem Fifo.init (maxRun : ℕ) : (TaskSpec.init maxRun : TaskSpec A).Fifo where
  order := rfl
  deleted := fun _ h => absurd h not_mem_nil
  lock := nofun
  started := le_rfl
  counted := rfl

theorem Fifo.step (hg : g.Fifo) : (g.runStep g.pc).1.Fifo := by
  have horder := hg.order
  have hstarted := hg.started
  have hcounted := hg.counted
  rw [Counted] at hcounted
  cases hpc : g.pc with
  | ret r => exact hg
  | loop n =>
    simp only [hpc] at horder hcounted
    cases n with
    | zero =>
      refine ⟨horder, hg.deleted, nofun, hstarted, ?_⟩
      rw [Counted, runStep]
      dsimp only
      omega
    | succ n =>
      cases hq : g.queue with
      | nil =>
        simp only [runStep, hq]
        refine ⟨hq ▸ horder, hg.deleted, nofun, hstarted, ?_⟩
        rw [Counted]
        dsimp only
        omega
      | cons p q =>
        simp only [runStep, hq]
        refine ⟨hq ▸ horder, hg.deleted, ?_, hstarted, Nat.succ_pos n, hcounted⟩
        intro p' n' he
        obtain ⟨rfl, -⟩ := RunPc.lock.inj he
        rfl
  | lock p n =>
    simp only [hpc] at horder hcounted
    obtain ⟨q, hq⟩ := head?_eq_some_iff.mp (hg.lock p n hpc)
    refine ⟨?_, hg.deleted, nofun, hstarted, hcounted⟩
    refine Eq.trans ?_ horder
    simp [runStep, RunPc.pending, hq]
  | call p n =>
    simp only [hpc] at horder hcounted
    refine ⟨?_, hg.deleted, nofun, ?_, hcounted.1, ?_⟩
    · refine Eq.trans ?_ horder
      simp [runStep, RunPc.pending]
    · simp only [runStep, length_append]
      omega
    · simp only [runStep, length_append, length_singleton]
      omega
  | handler n =>
    simp only [hpc] at horder hcounted
    refine ⟨horder, hg.deleted, nofun, hstarted, ?_⟩
    rw [Counted, runStep]
    dsimp only
    omega

variable [DecidableEq A]

theorem Fifo.post (hg : g.Fifo) (t : A) : (g.post t).1.Fifo := by
  rw [TaskSpec.post]
  by_cases hq : g.Queued t
  · rw [if_pos hq]
    exact hg
  rw [if_neg hq]
  have hnew : g.posts.length ∉ g.deleted := fun h => absurd (hg.deleted _ h) (lt_irrefl _)
  refine ⟨?_, fun i hi => ?_, fun p n hpc => ?_, hg.started, hg.counted⟩
  · show g.executed ++ g.pc.pending ++ (g.queue ++ [(t, g.posts.length)]) = _
    rw [← append_assoc, hg.order, zipIdx_append, filter_append]
    simp [hnew]
  · have := hg.deleted i hi
    simp only [length_append]
    omega
  · obtain ⟨q, hq'⟩ := head?_eq_some_iff.mp (hg.lock p n hpc)
    simp [hq']

theorem Fifo.del (hg : g.Fifo) (hfree : g.pc.free) (t : A) : (g.del t).Fifo := by
  have hnodup := hg.nodup
  have horder := hg.order
  simp only [RunPc.pending_of_free hfree, append_nil] at hnodup horder
  rw [map_append] at hnodup
  obtain ⟨-, hqueue, hdisj⟩ := nodup_append'.mp hnodup
  have hmem : ∀ p ∈ g.queue, p.2 ∈ (g.queue.filter fun p => p.1 = t).map Prod.snd ↔ p.1 = t := by
    intro p hp
    simp only [mem_map, mem_filter, decide_eq_true_eq]
    constructor
    · rintro ⟨q, ⟨hq, rfl⟩, hqp⟩
      rw [inj_on_of_nodup_map hqueue hq hp hqp]
    · intro ht
      exact ⟨p, ⟨hp, ht⟩, rfl⟩
  have hexec : ∀ p ∈ g.executed, p.2 ∉ (g.queue.filter fun p => p.1 = t).map Prod.snd := by
    intro p hp hd
    obtain ⟨q, hq, hqp⟩ := mem_map.mp hd
    refine hdisj (mem_map_of_mem hp) ?_
    rw [← hqp]
    exact mem_map_of_mem (mem_of_mem_filter hq)
  refine ⟨?_, fun i hi => ?_, fun p n hpc => ?_, hg.started, hg.counted⟩
  · show g.executed ++ g.pc.pending ++ (g.queue.filter fun p => p.1 ≠ t) = g.posts.zipIdx.filter
      fun p => p.2 ∉ g.deleted ++ (g.queue.filter fun p => p.1 = t).map Prod.snd
    have hsplit : (g.posts.zipIdx.filter fun p =>
        p.2 ∉ g.deleted ++ (g.queue.filter fun p => p.1 = t).map Prod.snd) =
        (g.posts.zipIdx.filter fun p => p.2 ∉ g.deleted).filter
          fun p => p.2 ∉ (g.queue.filter fun p => p.1 = t).map Prod.snd := by
      rw [filter_filter]
      refine filter_congr fun p _ => ?_
      rw [← Bool.decide_and, decide_eq_decide, mem_append, not_or, and_comm]
    have hkeep : (g.executed.filter fun p =>
        p.2 ∉ (g.queue.filter fun p => p.1 = t).map Prod.snd) = g.executed :=
      filter_eq_self.mpr fun p hp => decide_eq_true (hexec p hp)
    have hdrop : (g.queue.filter fun p => p.2 ∉ (g.queue.filter fun p => p.1 = t).map Prod.snd) =
        g.queue.filter fun p => p.1 ≠ t :=
      filter_congr fun p hp => by rw [decide_eq_decide, hmem p hp]
    rw [hsplit, ← horder, RunPc.pending_of_free hfree, append_nil, filter_append, hkeep, hdrop]
  · rcases mem_append.mp hi with h | h
    · exact hg.deleted i h
    · obtain ⟨p, hp, rfl⟩ := List.mem_map.mp h
      have := hg.mem_posts (List.mem_append_right _ (List.mem_of_mem_filter hp))
      exact (List.getElem?_eq_some_iff.mp this).1
  · have hpc' : g.pc = .lock p n := hpc
    rw [hpc'] at hfree
    cases hfree

theorem Fifo.run (hg : g.Fifo) (hret : g.pc.returned) : (g.next .run).1.Fifo := by
  have hpending : g.pc.pending = [] := by
    cases hpc : g.pc with
    | call it n =>
      rw [hpc] at hret
      cases hret
    | _ => rfl
  have horder := hg.order
  rw [hpending] at horder
  exact ⟨horder, hg.deleted, nofun, le_rfl, rfl⟩

/-- **A legal step keeps the order.** -/
theorem Fifo.next (hg : g.Fifo) {a : TaskAct A} (ha : g.Legal a) : (g.next a).1.Fifo := by
  cases a with
  | post t => exact hg.post t
  | del t => exact hg.del ha t
  | run => exact hg.run ha
  | step => exact hg.step

end TaskSpec

end Posts

/-! ### The operations on a queue -/

section Operations

variable {A : Type*}

/-- The queue holds the tasks of `l`; other tasks have no `next`. -/
structure Fftaskmgr.Holds (m : Fftaskmgr A) (l : List A) : Prop where
  list : m.tasks.Holds m.mem l
  inactive : ∀ t x, m.mem t = some x → t ∉ m.tasks.sentl :: l → x.next = none

variable [DecidableEq A] {m : Fftaskmgr A} {l : List A} {t : A}

theorem fftaskActive_spec (hm : m.Holds l) (ht : t ≠ m.tasks.sentl) (hmem : (m.mem t).isSome) :
    fftaskActive m t = some (decide (t ∈ l)) := by
  obtain ⟨x, hx⟩ := Option.isSome_iff_exists.mp hmem
  simp only [fftaskActive, hx, Option.map_some, Option.some.injEq, decide_eq_decide]
  constructor
  · intro hnext
    by_contra hl
    exact hnext (hm.inactive t x hx (by simp [ht, hl]))
  · intro hl hnext
    have := hm.list.next_isSome hl
    simp [Links.next, hx, hnext] at this

theorem fftaskPost_queued (hm : m.Holds l) (ht : t ∈ l) : fftaskPost m t = some (m, 0) := by
  have hne : t ≠ m.tasks.sentl := fun h => hm.list.sentl_notMem (h ▸ ht)
  have hmem := hm.list.ring.isSome (mem_cons_of_mem _ ht)
  simp [fftaskPost, fftaskActive_spec hm hne hmem, ht]

theorem fftaskPost_new (hm : m.Holds l) (hne : t ≠ m.tasks.sentl) (hmem : (m.mem t).isSome)
    (ht : t ∉ l) :
    ∃ m', fftaskPost m t = some (m', l.isEmpty.toNat) ∧ m'.Holds (l ++ [t]) ∧
      m'.maxRun = m.maxRun ∧ m'.tasks.sentl = m.tasks.sentl ∧
      ∀ b, (m'.mem b).isSome = (m.mem b).isSome := by
  obtain ⟨h', lst', he, hsentl, hl', hsome, hoff⟩ := fflistIns_spec hm.list hmem (by simp [hne, ht])
  refine ⟨{ m with mem := h', tasks := lst' }, ?_, ⟨hl', fun b x hb hnot => ?_⟩, rfl, hsentl, hsome⟩
  · simp [fftaskPost, fftaskActive_spec hm hne hmem, ht, fflistEmpty_spec hm.list, he]
  · simp only [hsentl, mem_cons, mem_append, not_mem_nil, or_false, not_or] at hnot
    exact hm.inactive b x ((hoff b (by simp [hnot])).symm.trans hb) (by simp [hnot])

theorem fftaskDel_spec (hm : m.Holds l) (hne : t ≠ m.tasks.sentl) (hmem : (m.mem t).isSome) :
    ∃ m', fftaskDel m t = some m' ∧ m'.Holds (l.erase t) ∧ m'.maxRun = m.maxRun ∧
      m'.tasks.sentl = m.tasks.sentl ∧ ∀ b, (m'.mem b).isSome = (m.mem b).isSome := by
  by_cases ht : t ∈ l
  · obtain ⟨h', lst', he, hsentl, hl', hzero, hsome, hoff⟩ := fflistRm_spec hm.list ht
    refine ⟨{ m with mem := h', tasks := lst' }, ?_, ⟨hl', fun b x hb hnot => ?_⟩, rfl, hsentl,
      hsome⟩
    · simp [fftaskDel, fftaskActive_spec hm hne hmem, ht, he]
    by_cases hbt : b = t
    · subst hbt
      obtain rfl := Option.some.inj (hzero.symm.trans hb)
      rfl
    · simp only [hsentl, mem_cons, mem_erase_of_ne hbt] at hnot
      exact hm.inactive b x ((hoff b (by simpa using hnot)).symm.trans hb) (by simpa using hnot)
  · refine ⟨m, ?_, ?_, rfl, rfl, fun _ => rfl⟩
    · simp [fftaskDel, fftaskActive_spec hm hne hmem, ht]
    · rwa [erase_of_not_mem ht]

theorem fftaskUnlink_spec (hm : m.Holds (t :: l)) :
    ∃ m', fftaskUnlink m t = some m' ∧ m'.Holds l ∧ m'.maxRun = m.maxRun ∧
      m'.tasks.sentl = m.tasks.sentl ∧ ∀ b, (m'.mem b).isSome = (m.mem b).isSome := by
  obtain ⟨l₁, l₂, hsplit, herase, hr, hn⟩ := hm.list.focus mem_cons_self
  obtain ⟨x, h₁, hx, -, he₁, hr₁, hsome, hoff⟩ := ffchainLink2_neighbours hr hn (by simp)
  have htl : t ∉ l₂ ++ m.tasks.sentl :: l₁ := (nodup_cons.mp hn).1
  have hx₁ : h₁ t = some x := (hoff t htl).trans hx
  have hlen : m.tasks.len ≠ 0 := by simp [hm.list.len]
  have hr₂ : Links.Ring (h₁.set t { x with next := none }) (l₂ ++ m.tasks.sentl :: l₁) :=
    hr₁.congr fun c hc => Heap.set_of_ne _ _ fun e => htl (e ▸ hc)
  have hmem : ∀ c, c ∈ l₂ ++ m.tasks.sentl :: l₁ → c ∈ m.tasks.sentl :: t :: l := fun c hc => by
    rw [hsplit]
    simp only [mem_append, mem_cons] at hc ⊢
    tauto
  refine ⟨{ m with
    mem := h₁.set t { x with next := none }, tasks := { m.tasks with len := m.tasks.len - 1 } },
    ?_, ⟨?_, fun b y hb hnot => ?_⟩, rfl, rfl, fun b => ?_⟩
  · simp [fftaskUnlink, hlen, hx, he₁, Heap.modify_of_some _ hx₁]
  · have := hm.list.unlinked mem_cons_self herase hr₂
    rwa [erase_cons_head] at this
  · by_cases hbt : b = t
    · subst hbt
      obtain rfl := Option.some.inj ((Heap.set_self ..).symm.trans hb)
      rfl
    have hout : b ∉ m.tasks.sentl :: t :: l := by
      simp only [mem_cons] at hnot ⊢
      tauto
    have hb' : m.mem b = some y := by
      rw [← hoff b fun hc => hout (hmem b hc), ← Heap.set_of_ne h₁ { x with next := none } hbt]
      exact hb
    exact hm.inactive b y hb' hout
  · by_cases hbt : b = t
    · simp [hbt, hx]
    · have hset := Heap.set_of_ne h₁ { x with next := none } hbt
      exact (congrArg Option.isSome hset).trans (hsome b)

end Operations

/-! ### Progress -/

section Progress

variable {A : Type*}

/-- A step of the running thread, other than a deletion. -/
def TaskAct.isRunner : TaskAct A → Bool
  | .run | .step => true
  | _ => false

/-- How many steps the running thread is away from the next call of a handler. -/
def RunPc.phase : RunPc A → ℕ
  | .ret _ => 4
  | .loop 0 => 5
  | .loop (_ + 1) => 3
  | .lock _ _ => 2
  | .call _ _ => 1
  | .handler _ => 6

theorem RunPc.one_le_phase (pc : RunPc A) : 1 ≤ pc.phase := by
  rw [RunPc.phase.eq_def]
  split <;> decide

theorem RunPc.phase_loop_le (n : ℕ) : (RunPc.loop n : RunPc A).phase ≤ 5 := by
  cases n with
  | zero => exact le_rfl
  | succ n => exact Nat.le_add_right 3 2

namespace TaskSpec

/-- The post was executed or deleted. -/
def Done (g : TaskSpec A) (i : ℕ) : Prop := (∃ p ∈ g.executed, p.2 = i) ∨ i ∈ g.deleted

/-- After `k` steps of the running thread the post `i` is done: six steps for each post in front
of it, and those up to the next call. -/
def Due (g : TaskSpec A) (i k : ℕ) : Prop :=
  g.Done i ∨ ∃ j, ((g.pc.pending ++ g.queue).map Prod.snd)[j]? = some i ∧ 6 * j + g.pc.phase ≤ k

variable {g : TaskSpec A} {i k : ℕ}

theorem Due.done (h : g.Due i 0) : g.Done i := by
  rcases h with h | ⟨j, -, hj⟩
  · exact h
  · have := g.pc.one_le_phase
    omega

theorem Due.step (hg : g.Fifo) (hret : ¬ g.pc.returned)
    (h : g.Due i (k + 1)) : (g.runStep g.pc).1.Due i k := by
  rcases h with h | ⟨j, hget, hj⟩
  · refine .inl ?_
    cases hpc : g.pc with
    | call p n =>
      refine h.imp_left fun hex => ?_
      obtain ⟨q, hq, rfl⟩ := hex
      exact ⟨q, mem_append_left _ hq, rfl⟩
    | loop n =>
      cases n with
      | zero => exact h
      | succ n =>
        rw [runStep]
        split <;> exact h
    | _ => exact h
  cases hpc : g.pc with
  | ret r =>
    rw [hpc] at hret
    exact absurd rfl hret
  | loop n =>
    rw [hpc] at hget hj
    cases n with
    | zero =>
      rw [RunPc.phase] at hj
      refine .inr ⟨j, hget, ?_⟩
      rw [runStep, RunPc.phase]
      omega
    | succ n =>
      rw [RunPc.phase] at hj
      cases hq : g.queue with
      | nil => simp [hq, RunPc.pending] at hget
      | cons p q =>
        simp only [runStep, hq]
        refine .inr ⟨j, hq ▸ hget, ?_⟩
        rw [RunPc.phase]
        omega
  | lock p n =>
    rw [hpc] at hget hj
    rw [RunPc.phase] at hj
    obtain ⟨q, hq⟩ := head?_eq_some_iff.mp (hg.lock p n hpc)
    refine .inr ⟨j, by simpa [runStep, RunPc.pending, hq] using hget, ?_⟩
    rw [runStep, RunPc.phase]
    omega
  | call p n =>
    rw [hpc] at hget hj
    rw [RunPc.phase] at hj
    cases j with
    | zero =>
      refine .inl (.inl ⟨p, mem_append_right _ mem_cons_self, ?_⟩)
      simpa [RunPc.pending] using hget
    | succ j =>
      refine .inr ⟨j, by simpa [runStep, RunPc.pending] using hget, ?_⟩
      rw [runStep, RunPc.phase]
      omega
  | handler n =>
    rw [hpc] at hget hj
    rw [RunPc.phase] at hj
    have := RunPc.phase_loop_le (A := A × ℕ) (n - 1)
    refine .inr ⟨j, hget, ?_⟩
    rw [runStep]
    dsimp only
    omega

theorem getElem?_filter_le {α : Type*} {p : α → Bool} {l : List α} {j : ℕ} {x : α}
    (h : l[j]? = some x) (hp : p x) : ∃ j' ≤ j, (l.filter p)[j']? = some x := by
  induction l generalizing j with
  | nil => simp at h
  | cons y l ih =>
    cases j with
    | zero =>
      obtain rfl : y = x := by simpa using h
      exact ⟨0, le_rfl, by simp [hp]⟩
    | succ j =>
      obtain ⟨j', hj', hget⟩ := ih (by simpa using h)
      by_cases hy : p y
      · exact ⟨j' + 1, by omega, by simpa [hy] using hget⟩
      · exact ⟨j', by omega, by simpa [hy] using hget⟩

variable [DecidableEq A]

/-- A call of `fftask_run` that executes tasks. -/
theorem Due.run (hmax : 0 < g.maxRun) (hret : g.pc.returned) (h : g.Due i (k + 1)) :
    (g.next .run).1.Due i k := by
  rcases h with h | ⟨j, hget, hj⟩
  · exact .inl h
  cases hpc : g.pc with
  | ret r =>
    rw [hpc] at hget hj
    obtain ⟨n, hn⟩ := Nat.exists_eq_succ_of_ne_zero hmax.ne'
    refine .inr ⟨j, hget, ?_⟩
    rw [RunPc.phase] at hj
    rw [next, hn]
    show 6 * j + 3 ≤ k
    omega
  | _ =>
    rw [hpc] at hret
    cases hret

theorem Due.other {a : TaskAct A} (hlegal : g.Legal a) (ha : ¬ a.isRunner) (h : g.Due i k) :
    (g.next a).1.Due i k := by
  cases a with
  | run => exact absurd rfl ha
  | step => exact absurd rfl ha
  | post t =>
    rw [next, TaskSpec.post]
    split
    · exact h
    rcases h with h | ⟨j, hget, hj⟩
    · exact .inl h
    · refine .inr ⟨j, ?_, hj⟩
      rw [← List.append_assoc, List.map_append,
        List.getElem?_append_left (List.getElem?_eq_some_iff.mp hget).1]
      exact hget
  | del t =>
    rcases h with h | ⟨j, hget, hj⟩
    · exact .inl (h.imp_right fun hd => mem_append_left _ hd)
    have hpending := RunPc.pending_of_free hlegal
    rw [hpending, nil_append, getElem?_map] at hget
    obtain ⟨p, hp, rfl⟩ := Option.map_eq_some_iff.mp hget
    by_cases hpt : p.1 = t
    · refine .inl (.inr (mem_append_right _ ?_))
      exact mem_map_of_mem
        (mem_filter.mpr ⟨mem_of_getElem? hp, decide_eq_true hpt⟩)
    · obtain ⟨j', hj', hget'⟩ :=
        getElem?_filter_le (p := fun p => decide (p.1 ≠ t)) hp (decide_eq_true hpt)
      refine .inr ⟨j', ?_, (Nat.add_le_add_right (Nat.mul_le_mul_left 6 hj') _).trans hj⟩
      show ((g.pc.pending ++ g.queue.filter _).map Prod.snd)[j']? = some p.2
      rw [hpending, nil_append, getElem?_map, hget', Option.map_some]

theorem Due.next (hmax : 0 < g.maxRun) (hg : g.Fifo) {a : TaskAct A} (ha : g.Legal a)
    (h : g.Due i k) : (g.next a).1.Due i (k - a.isRunner.toNat) := by
  cases k with
  | zero =>
    have hdue : g.Due i 1 := .inl h.done
    cases a with
    | post t => exact h.other ha (by simp [TaskAct.isRunner])
    | del t => exact h.other ha (by simp [TaskAct.isRunner])
    | run => exact hdue.run hmax ha
    | step => exact hdue.step hg ha
  | succ k =>
    cases a with
    | post t => exact h.other ha (by simp [TaskAct.isRunner])
    | del t => exact h.other ha (by simp [TaskAct.isRunner])
    | run => exact h.run hmax ha
    | step => exact h.step hg ha

theorem next_maxRun (g : TaskSpec A) (a : TaskAct A) : (g.next a).1.maxRun = g.maxRun := by
  cases a with
  | post t =>
    rw [next, TaskSpec.post]
    split <;> rfl
  | del t => rfl
  | run => rfl
  | step =>
    rw [next, runStep.eq_def]
    split <;> try rfl
    split <;> rfl

omit [DecidableEq A] in
theorem Fifo.due (hg : g.Fifo) (hi : i < g.posts.length) : g.Due i (6 * g.posts.length) := by
  by_cases hdel : i ∈ g.deleted
  · exact .inl (.inr hdel)
  have hmem : (g.posts[i], i) ∈ g.executed ++ (g.pc.pending ++ g.queue) := by
    rw [← append_assoc, hg.order]
    exact mem_filter.mpr ⟨mem_zipIdx_iff_getElem?.mpr (by simp [hi]),
      decide_eq_true hdel⟩
  rcases mem_append.mp hmem with hex | hwait
  · exact .inl (.inl ⟨_, hex, rfl⟩)
  obtain ⟨j, hj, hget⟩ := mem_iff_getElem.mp hwait
  have hlen : (g.executed ++ g.pc.pending ++ g.queue).length ≤ g.posts.length := by
    rw [hg.order, ← length_zipIdx (l := g.posts) (i := 0)]
    exact length_filter_le _ _
  have hphase : g.pc.phase ≤ 6 := by
    rw [RunPc.phase.eq_def]
    split <;> decide
  refine .inr ⟨j, by rw [getElem?_map, getElem?_eq_getElem hj, hget]; rfl, ?_⟩
  simp only [length_append] at hlen hj
  omega

end TaskSpec

end Progress

/-! ### Interleavings -/

section Interleavings

variable {A : Type*}

/-- The queue in memory and the running thread are those of the queue of posts. -/
structure TaskRel (g : TaskSpec A) (s : Fftaskmgr A × RunPc A) : Prop where
  fifo : g.Fifo
  holds : s.1.Holds (g.queue.map Prod.fst)
  maxRun : s.1.maxRun = g.maxRun
  pc : s.2 = g.pc.map Prod.fst

variable {g : TaskSpec A} {s : Fftaskmgr A × RunPc A}

theorem TaskRel.legal (h : TaskRel g s) {a : TaskAct A} (ha : taskLegal s a) : g.Legal a := by
  cases a with
  | post t => trivial
  | del t =>
    have := ha.2
    rwa [h.pc, RunPc.map_free] at this
  | run =>
    have : s.2.returned := ha
    rwa [h.pc, RunPc.map_returned] at this
  | step =>
    have : ¬ s.2.returned := ha
    rwa [h.pc, RunPc.map_returned] at this

theorem TaskSpec.queued_iff {t : A} : g.Queued t ↔ t ∈ g.queue.map Prod.fst := by
  rw [TaskSpec.Queued, mem_map]

variable [DecidableEq A]

theorem fftaskRunStep_spec (h : TaskRel g s) (hret : ¬ s.2.returned) :
    ∃ s', fftaskRunStep s.1 s.2 = some (s', (g.runStep g.pc).2) ∧
      TaskRel (g.runStep g.pc).1 s' := by
  have hfifo := h.fifo.step
  obtain ⟨m, pc⟩ := s
  obtain rfl : pc = g.pc.map Prod.fst := h.pc
  have hmax : m.maxRun = g.maxRun := h.maxRun
  cases hpc : g.pc with
  | ret r =>
    rw [hpc] at hret
    exact absurd rfl hret
  | loop n =>
    rw [hpc] at hfifo
    cases n with
    | zero => exact ⟨(m, .ret g.maxRun), by simp [fftaskRunStep, RunPc.map, hmax, TaskSpec.runStep],
        hfifo, h.holds, h.maxRun, rfl⟩
    | succ n =>
      obtain ⟨x, hx, hnext, -⟩ := h.holds.list.sentl_eq
      have hx' : m.mem m.tasks.sentl = some x := hx
      cases hq : g.queue with
      | nil =>
        simp only [TaskSpec.runStep, hq] at hfifo ⊢
        simp only [hq, map_nil, head?_nil, Option.getD_none] at hnext
        refine ⟨(m, .ret (g.maxRun - (n + 1))), ?_, hfifo, hq ▸ h.holds, h.maxRun, rfl⟩
        simp [fftaskRunStep, RunPc.map, hmax, hx', hnext]
      | cons p q =>
        simp only [TaskSpec.runStep, hq] at hfifo ⊢
        simp only [hq, map_cons, head?_cons, Option.getD_some] at hnext
        have hne : p.1 ≠ m.tasks.sentl := fun he => h.holds.list.sentl_notMem (by
          rw [hq, ← he]
          exact mem_cons_self)
        refine ⟨(m, .lock p.1 (n + 1)), ?_, hfifo, hq ▸ h.holds, h.maxRun, rfl⟩
        simp [fftaskRunStep, RunPc.map, hx', hnext, hne]
  | lock p n =>
    rw [hpc] at hfifo
    obtain ⟨q, hq⟩ := head?_eq_some_iff.mp (h.fifo.lock p n hpc)
    have hholds := h.holds
    rw [hq, map_cons] at hholds
    obtain ⟨m', he, hm', hmax', -⟩ := fftaskUnlink_spec hholds
    refine ⟨(m', .call p.1 n), ?_, hfifo, ?_, hmax'.trans hmax, rfl⟩
    · simp [fftaskRunStep, RunPc.map, TaskSpec.runStep, he]
    · simpa [TaskSpec.runStep, hq] using hm'
  | call p n =>
    rw [hpc] at hfifo
    exact ⟨(m, .handler n), rfl, hfifo, h.holds, h.maxRun, rfl⟩
  | handler n =>
    rw [hpc] at hfifo
    exact ⟨(m, .loop (n - 1)), rfl, hfifo, h.holds, h.maxRun, rfl⟩

/-- **A step of the threads is a step of the queue of posts.** -/
theorem taskSimulates :
    Simulates TaskSpec.next taskStep (fun _ s a => taskLegal s a) (TaskRel (A := A)) := by
  intro g s a h ha
  have hfifo := h.fifo.next (h.legal ha)
  cases a with
  | post t =>
    rw [TaskSpec.next, TaskSpec.post] at hfifo ⊢
    by_cases ht : g.Queued t
    · rw [if_pos ht] at hfifo ⊢
      refine ⟨s, ?_, h⟩
      simp [taskStep, fftaskPost_queued h.holds (TaskSpec.queued_iff.mp ht)]
    · rw [if_neg ht] at hfifo ⊢
      obtain ⟨m', he, hm', hmax, -⟩ :=
        fftaskPost_new h.holds ha.1 ha.2 fun hq => ht (TaskSpec.queued_iff.mpr hq)
      refine ⟨(m', s.2), ?_, hfifo, by simpa using hm', hmax.trans h.maxRun, h.pc⟩
      simp [taskStep, he]
  | del t =>
    obtain ⟨m', he, hm', hmax, -⟩ := fftaskDel_spec h.holds ha.1.1 ha.1.2
    refine ⟨(m', s.2), by simp [taskStep, he, TaskSpec.next], hfifo, ?_, hmax.trans h.maxRun, h.pc⟩
    have hnodup := (nodup_cons.mp h.holds.list.nodup).2
    have hkeep : ((· != t) ∘ Prod.fst : A × ℕ → Bool) = fun p => decide (p.1 ≠ t) :=
      funext fun p => Bool.eq_iff_iff.mpr (bne_iff_ne.trans decide_eq_true_iff.symm)
    rw [hnodup.erase_eq_filter, filter_map, hkeep] at hm'
    exact hm'
  | run =>
    refine ⟨(s.1, .loop s.1.maxRun), rfl, hfifo, h.holds, h.maxRun, ?_⟩
    rw [TaskSpec.next, RunPc.map, h.maxRun]
  | step => exact fftaskRunStep_spec h ha

/-- The task whose handler was called. -/
def TaskEvent.task? : TaskEvent A → Option A
  | .called t => some t
  | _ => none

omit [DecidableEq A] in
theorem TaskSpec.runStep_executed (g : TaskSpec A) (pc : RunPc (A × ℕ)) :
    (g.runStep pc).1.executed.map Prod.fst =
      g.executed.map Prod.fst ++ (g.runStep pc).2.task?.toList := by
  cases pc with
  | loop n =>
    cases n with
    | zero => simp [runStep, TaskEvent.task?]
    | succ n =>
      rw [runStep]
      split <;> simp [TaskEvent.task?]
  | _ => simp [runStep, TaskEvent.task?]

theorem TaskSpec.specRuns_executed (g : TaskSpec A) (acts : List (TaskAct A)) :
    (specRuns next g acts).1.executed.map Prod.fst =
      g.executed.map Prod.fst ++ (specRuns next g acts).2.filterMap TaskEvent.task? := by
  induction acts generalizing g with
  | nil => simp [specRuns]
  | cons a acts ih =>
    have hnext : (g.next a).1.executed.map Prod.fst =
        g.executed.map Prod.fst ++ (g.next a).2.task?.toList := by
      cases a with
      | post t =>
        rw [next, TaskSpec.post]
        split <;> simp [TaskEvent.task?]
      | del t => simp [next, del, TaskEvent.task?]
      | run => simp [next, TaskEvent.task?]
      | step => exact g.runStep_executed g.pc
    simp only [specRuns, ih, hnext]
    cases h : (g.next a).2.task? <;> simp [h]

theorem TaskRel.done {acts : List (TaskAct A)} {i k : ℕ} (h : TaskRel g s) (hmax : 0 < g.maxRun)
    (hlegal : LegalRun TaskSpec.next taskStep (fun _ s a => taskLegal s a) g s acts)
    (hdue : g.Due i k) (hk : k ≤ acts.countP TaskAct.isRunner) :
    (specRuns TaskSpec.next g acts).1.Done i := by
  induction acts generalizing g s k with
  | nil =>
    obtain rfl : k = 0 := by simpa using hk
    exact hdue.done
  | cons a acts ih =>
    obtain ⟨hl, hrest⟩ := hlegal
    obtain ⟨s', hs', h'⟩ := taskSimulates g s a h hl
    refine ih h' (hmax.trans_eq (g.next_maxRun a).symm) (hrest s' _ hs')
      (hdue.next hmax h.fifo (h.legal hl)) ?_
    rw [countP_cons] at hk
    cases hr : a.isRunner <;> simp [hr] at hk ⊢ <;> omega

/-- What a run of the threads leaves behind, and the events that it showed. -/
structure TaskFifo (g : TaskSpec A) (s : Fftaskmgr A × RunPc A) (es : List (TaskEvent A)) :
    Prop where
  /-- The posts that were not deleted were executed, are about to be, or wait, in order. -/
  order : g.executed ++ g.pc.pending ++ g.queue = g.posts.zipIdx.filter fun p => p.2 ∉ g.deleted
  /-- The handlers that were called are those of the executed posts. -/
  called : es.filterMap TaskEvent.task? = g.executed.map Prod.fst
  /-- The list in memory and its length are those of the posts that wait. -/
  list : s.1.tasks.Holds s.1.mem (g.queue.map Prod.fst)
  /-- A task has a link if it is queued. -/
  active : ∀ t, t ≠ s.1.tasks.sentl → (s.1.mem t).isSome →
    fftaskActive s.1 t = some (decide (g.Queued t))
  /-- A post of a queued task changes nothing. -/
  queued : ∀ t, g.Queued t → fftaskPost s.1 t = some (s.1, 0)
  /-- The result of `fftask_run` is the number of tasks that it executed. -/
  returned : ∀ r, s.2 = .ret r → r + g.started = g.executed.length

/-- The invariant after `fftask_init`, when no task was posted. -/
theorem fftaskInit_rel {mem : Links A} {sentl : A} {maxRun : ℕ} {m : Fftaskmgr A}
    (hmem : ∀ t x, mem t = some x → t ≠ sentl → x.next = none)
    (hinit : fftaskInit mem sentl maxRun = some m) :
    TaskRel (TaskSpec.init maxRun) (m, .ret 0) := by
  obtain ⟨x, hx⟩ : ∃ x, mem sentl = some x := by
    cases hx : mem sentl with
    | none => simp [fftaskInit, fflistInit, Heap.modify, hx] at hinit
    | some x => exact ⟨x, rfl⟩
  obtain rfl : m = ⟨mem.set sentl ⟨some sentl, some sentl⟩, ⟨sentl, 0⟩, maxRun⟩ := by
    simpa [fftaskInit, fflistInit, Heap.modify_of_some _ hx] using hinit.symm
  refine ⟨.init maxRun, ⟨⟨?_, nodup_singleton _, rfl⟩, fun t y hy ht => ?_⟩, rfl, rfl⟩
  · exact ring_singleton.mpr ⟨by simp [Links.next], by simp [Links.prev]⟩
  · have hne : t ≠ sentl := by simpa [TaskSpec.init] using ht
    exact hmem t y ((Heap.set_of_ne mem _ hne).symm.trans hy) hne

end Interleavings

section Main

variable {A : Type*} [DecidableEq A]

/-- **In every interleaving** of posts by any threads and handlers with the steps and deletions of
the running thread, every post that is not deleted is executed once, in the order of the posts;
the list stays consistent, and a post of a queued task changes nothing. What was posted is
executed or deleted after six steps of the running thread for each post. -/
theorem fftask_interleaving {mem : Links A} {sentl : A} {maxRun : ℕ} {m : Fftaskmgr A}
    (hmem : ∀ t x, mem t = some x → t ≠ sentl → x.next = none)
    (hinit : fftaskInit mem sentl maxRun = some m) {acts : List (TaskAct A)}
    (hlegal : LegalRun TaskSpec.next taskStep (fun _ s a => taskLegal s a)
      (TaskSpec.init maxRun) (m, .ret 0) acts) :
    ∃ s es, runs taskStep (m, .ret 0) acts = some (s, es) ∧
      TaskFifo (specRuns TaskSpec.next (TaskSpec.init maxRun) acts).1 s es ∧
      ∀ a b, acts = a ++ b → 0 < maxRun →
        6 * (specRuns TaskSpec.next (TaskSpec.init maxRun) a).1.posts.length ≤
          b.countP TaskAct.isRunner →
        ∀ i < (specRuns TaskSpec.next (TaskSpec.init maxRun) a).1.posts.length,
          (specRuns TaskSpec.next (TaskSpec.init maxRun) acts).1.Done i := by
  have h₀ := fftaskInit_rel hmem hinit
  obtain ⟨s, he, h⟩ := taskSimulates.runs h₀ hlegal
  refine ⟨s, _, he, ⟨h.fifo.order, ?_, h.holds.list, fun t ht hsome => ?_, fun t ht => ?_,
    fun r hr => ?_⟩, ?_⟩
  · exact (TaskSpec.specRuns_executed (TaskSpec.init maxRun) acts).symm
  · simp only [fftaskActive_spec h.holds ht hsome, TaskSpec.queued_iff]
  · exact fftaskPost_queued h.holds (TaskSpec.queued_iff.mp ht)
  · have hcounted := h.fifo.counted
    rw [TaskSpec.Counted] at hcounted
    have hpc := h.pc
    rw [hr] at hpc
    revert hcounted
    cases hg : (specRuns TaskSpec.next (TaskSpec.init maxRun) acts).1.pc with
    | ret r' =>
      rw [hg] at hpc
      obtain rfl : r = r' := RunPc.ret.inj hpc
      exact id
    | _ =>
      rw [hg] at hpc
      cases hpc
  rintro a b rfl hmax hk i hi
  obtain ⟨s', h', hlegal'⟩ := taskSimulates.legalRun_append h₀ hlegal
  have hmaxRun : ∀ (g : TaskSpec A) (os : List (TaskAct A)),
      (specRuns TaskSpec.next g os).1.maxRun = g.maxRun := by
    intro g os
    induction os generalizing g with
    | nil => rfl
    | cons o os ih => exact (ih _).trans (g.next_maxRun o)
  rw [specRuns_append]
  exact h'.done (hmax.trans_eq (hmaxRun (TaskSpec.init maxRun) a).symm) hlegal' (h'.fifo.due hi) hk

end Main

/-- Memory with an item for the list, at 0, and two tasks. -/
def twoTasks : Links ℕ := fun a => if a ≤ 2 then some .zero else none

/-- A task is posted between the read of the first item and the lock, and again by its own
handler; another one is deleted. -/
theorem fftask_interleaving_example :
    ∃ s es, runs taskStep (⟨twoTasks.set 0 ⟨some 0, some 0⟩, ⟨0, 0⟩, 64⟩, .ret 0)
        [.post 1, .run, .step, .post 2, .post 1, .step, .step, .del 2, .post 1] = some (s, es) ∧
      TaskFifo (specRuns TaskSpec.next (TaskSpec.init 64)
        [.post 1, .run, .step, .post 2, .post 1, .step, .step, .del 2, .post 1]).1 s es := by
  have hfresh : ∀ t x, twoTasks t = some x → t ≠ 0 → x.next = none := by
    intro t x hx _
    by_cases ht : t ≤ 2
    · obtain rfl : FfchainItem.zero = x := by simpa [twoTasks, ht] using hx
      rfl
    · simp [twoTasks, ht] at hx
  obtain ⟨s, es, hrun, hfifo, -⟩ := @fftask_interleaving ℕ _ twoTasks 0 64 _ hfresh rfl
    [.post 1, .run, .step, .post 2, .post 1, .step, .step, .del 2, .post 1] (by decide)
  exact ⟨s, es, hrun, hfifo⟩

end FF
