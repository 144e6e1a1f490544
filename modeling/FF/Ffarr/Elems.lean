import FF.Lib.Refine
import FF.Lib.Slots
import Mathlib.Algebra.Group.Nat.Defs

/-!
# Arrays of elements

`ffarr` for elements of `elsz` bytes: `_ffarr_realloc`, `_ffarr_grow`, `_ffarr_append`,
`_ffarr_crop` and `_ffarr_rm`. Lengths are numbers of elements; what is copied is a number of bytes.

## Conventions

* `mem` is the memory from the pointer on. With the capacity 0 it belongs to somebody else.
* Numbers are words of 64 bits where a capacity or the size of an allocation is computed. Positions
  within the memory do not wrap around.
* `ffmem_realloc` is not a part of the repository; a call of it is given by a function.
-/

namespace FF

namespace Elem

open List Option

/-! ### The functions -/

/-- `ffmem_realloc`: memory of `n` bytes that begins with the old ones, or nothing. -/
structure Realloc where
  call : List UInt8 → ℕ → Option (List UInt8)
  length_eq : ∀ {old mem n}, call old n = some mem → mem.length = n
  take_eq : ∀ {old mem n}, call old n = some mem → mem.take old.length = old.take n

/-- `ffarr` -/
structure Arr where
  mem : List UInt8
  len : ℕ
  cap : ℕ
  deriving DecidableEq, Repr

/-- `ffarr_null` -/
def Arr.null : Arr := ⟨[], 0, 0⟩

/-- The number of elements that are asked for; a request for none is one for one element. -/
def asked (newlen : ℕ) : ℕ := if newlen = 0 then 1 else newlen

/-- The memory that is given to `ffmem_realloc`: none, unless there is data to preserve. -/
def Arr.old (ar : Arr) : List UInt8 := if ar.cap ≠ 0 ∧ ar.len ≠ 0 then ar.mem else []

/-- `_ffarr_realloc`: the array, and whether there is no error. -/
def ffarrRealloc (r : Realloc) (elsz : ℕ) (ar : Arr) (newlen : ℕ) : Arr × Bool :=
  let newlen := asked newlen
  if ar.cap ≠ 0 ∧ newlen ≤ ar.cap then (ar, true)
  else
    let d := r.call ar.old (newlen * elsz % 2 ^ 64)
    let ar := if ar.cap ≠ 0 ∧ ar.len = 0 then Arr.null else ar
    match d with
    | none => (ar, false)
    | some d =>
      let d :=
        if ar.cap = 0 ∧ ar.len ≠ 0 then splice d 0 (ar.mem.take (min ar.len newlen)) else d
      (⟨d, min ar.len newlen, newlen⟩, true)

/-- The capacity that `_ffarr_grow` asks for: `n` more elements, or `lowat` more, or a quarter of
the elements with the flag in bit 31. -/
def growCap (ar : Arr) (n lowat : ℕ) : ℕ :=
  let newcap := (ar.len + n) % 2 ^ 64
  let lowat := if lowat.testBit 31 then max (lowat % 2 ^ 31) (newcap / 4) else lowat
  (ar.len + max lowat n) % 2 ^ 64

/-- `_ffarr_grow` -/
def ffarrGrow (r : Realloc) (elsz : ℕ) (ar : Arr) (n lowat : ℕ) : Arr × Bool :=
  if (ar.len + n) % 2 ^ 64 ≤ ar.cap then (ar, true)
  else ffarrRealloc r elsz ar (growCap ar n lowat)

/-- `_ffarr_append`: `num` elements from `src`. -/
def ffarrAppend (r : Realloc) (elsz : ℕ) (ar : Arr) (src : List UInt8) (num : ℕ) : Arr × Bool :=
  let out :=
    if ar.cap < (ar.len + num) % 2 ^ 64 then ffarrRealloc r elsz ar ((ar.len + num) % 2 ^ 64)
    else (ar, true)
  if out.2 then
    let ar := out.1
    (⟨splice ar.mem (ar.len * elsz) (src.take (num * elsz)), ar.len + num, ar.cap⟩, true)
  else out

/-- `_ffarr_crop` -/
def ffarrCrop (elsz : ℕ) (ar : Arr) (off n : ℕ) : Arr :=
  if off ≠ 0 then
    if ar.cap ≠ 0 then
      ⟨splice ar.mem 0 ((ar.mem.drop (off * elsz)).take (n * elsz)), n, ar.cap⟩
    else ⟨ar.mem.drop (off + elsz), n, ar.cap⟩
  else ⟨ar.mem, n, ar.cap⟩

/-- `_ffarr_rm`; `none` where the assertion fails. -/
def ffarrRm (elsz : ℕ) (ar : Arr) (off n : ℕ) : Option Arr :=
  if ar.len < off + n then none
  else if off + n = ar.len then some ⟨ar.mem, ar.len - n, ar.cap⟩
  else if ar.cap = 0 then
    if off ≠ 0 then some ar else some ⟨ar.mem.drop (n * elsz), ar.len - n, ar.cap⟩
  else
    some ⟨splice ar.mem (off * elsz)
      ((ar.mem.drop ((off + n) * elsz)).take ((ar.len - off - n) * elsz)), ar.len - n, ar.cap⟩

/-- A call. -/
inductive Op
  | realloc (newlen : ℕ)
  | grow (n lowat : ℕ)
  | append (src : List UInt8) (num : ℕ)
  | crop (off n : ℕ)
  | rm (off n : ℕ)
  deriving DecidableEq, Repr

/-- The array behind a call, and whether there is no error. -/
def call (r : Realloc) (elsz : ℕ) (ar : Arr) : Op → Option (Arr × Bool)
  | .realloc newlen => some (ffarrRealloc r elsz ar newlen)
  | .grow n lowat => some (ffarrGrow r elsz ar n lowat)
  | .append src num => some (ffarrAppend r elsz ar src num)
  | .crop off n => some (ffarrCrop elsz ar off n, true)
  | .rm off n => (ffarrRm elsz ar off n).map fun ar => (ar, true)

/-! ### What the calls are for -/

/-- The elements of an array. -/
def Arr.elems (elsz : ℕ) (ar : Arr) : List (List UInt8) := slots elsz ar.len ar.mem

/-- **The list operations.** Elements in the middle of a view are not removed; `ok` is whether the
call gives no error. -/
def listOp (elsz : ℕ) (view ok : Bool) (xs : List (List UInt8)) : Op → List (List UInt8)
  | .realloc _ => xs
  | .grow _ _ => xs
  | .append src num => if ok then xs ++ slots elsz num src else xs
  | .crop off n => (xs.drop off).take n
  | .rm off n =>
    if view ∧ off ≠ 0 ∧ off + n ≠ xs.length then xs else xs.take off ++ xs.drop (off + n)

/-- The array and the list go on together. -/
def step (elsz : ℕ) (p : Arr × List (List UInt8)) (o : Realloc × Op) :
    Option (Arr × List (List UInt8)) :=
  (call o.1 elsz p.1 o.2).map fun out => (out.1, listOp elsz (p.1.cap = 0) out.2 p.2 o.2)

/-- An array whose elements are in its memory. -/
structure Arr.Valid (elsz : ℕ) (ar : Arr) : Prop where
  within : ar.len * elsz ≤ ar.mem.length
  owned : ar.cap ≠ 0 → ar.len ≤ ar.cap ∧ ar.mem.length = ar.cap * elsz

/-- **The reallocations that keep the elements.** Nothing is done, the allocation fails, or the size
is computed without overflow, and a view with elements has elements of one byte and is not cut. -/
def Keeps (r : Realloc) (elsz : ℕ) (ar : Arr) (newlen : ℕ) : Prop :=
  (ar.cap ≠ 0 ∧ asked newlen ≤ ar.cap) ∨ r.call ar.old (asked newlen * elsz % 2 ^ 64) = none ∨
    (asked newlen * elsz < 2 ^ 64 ∧
      (ar.cap = 0 → ar.len ≠ 0 → elsz = 1 ∧ ar.len ≤ asked newlen))

/-- **The calls that do what the list operation does.** -/
def Fits (r : Realloc) (elsz : ℕ) (ar : Arr) : Op → Prop
  | .realloc newlen => Keeps r elsz ar newlen
  | .grow n lowat => (ar.len + n) % 2 ^ 64 ≤ ar.cap ∨ Keeps r elsz ar (growCap ar n lowat)
  | .append src num =>
    num * elsz ≤ src.length ∧ ar.len + num < 2 ^ 64 ∧
      (ar.cap < ar.len + num → Keeps r elsz ar (ar.len + num))
  | .crop off n =>
    off + n ≤ ar.len ∧ (off = 0 ∨ n = 0 ∨ ar.cap ≠ 0 ∨ off + elsz = off * elsz)
  | .rm off n => off + n ≤ ar.len

section Elems

variable {r : Realloc} {elsz newlen n off num lowat : ℕ} {ar : Arr} {src : List UInt8}

theorem Arr.length_elems (elsz : ℕ) (ar : Arr) : (ar.elems elsz).length = ar.len :=
  length_slots elsz ar.len ar.mem

theorem Arr.null_valid : Arr.null.Valid elsz where
  within := by
    rw [Arr.null, Nat.zero_mul]
    exact Nat.zero_le _
  owned := fun h => absurd rfl h

theorem Arr.elems_nil (h : ar.len = 0) : ar.elems elsz = [] := by
  rw [Arr.elems, h]
  rfl

/-- What an array is to be behind a reallocation. -/
def Kept (elsz newlen : ℕ) (ar : Arr) (out : Arr × Bool) : Prop :=
  out.1.Valid elsz ∧ out.1.elems elsz = ar.elems elsz ∧ out.1.len = ar.len ∧
    (out.2 = true → asked newlen ≤ out.1.cap)

theorem kept_nil {d : List UInt8} (hlen : ar.len = 0) (hd : d.length = asked newlen * elsz) :
    Kept elsz newlen ar (⟨d, 0, asked newlen⟩, true) := by
  refine ⟨⟨?_, fun _ => ⟨Nat.zero_le _, hd⟩⟩, ?_, hlen.symm, fun _ => Nat.le_refl _⟩
  · rw [Nat.zero_mul]
    exact Nat.zero_le _
  · rw [Arr.elems_nil hlen]
    rfl

theorem kept_some {d : List UInt8} (hd : d.length = asked newlen * elsz)
    (hle : ar.len ≤ asked newlen) (htake : d.take (ar.len * elsz) = ar.mem.take (ar.len * elsz)) :
    Kept elsz newlen ar (⟨d, min ar.len (asked newlen), asked newlen⟩, true) := by
  rw [Nat.min_eq_left hle]
  refine ⟨⟨?_, fun _ => ⟨hle, hd⟩⟩, slots_congr htake, rfl, fun _ => Nat.le_refl _⟩
  rw [hd]
  exact Nat.mul_le_mul_right elsz hle

/-- **A reallocation** keeps the elements, and makes room if there is no error. -/
theorem ffarrRealloc_spec (h : ar.Valid elsz) (hkeeps : Keeps r elsz ar newlen) :
    Kept elsz newlen ar (ffarrRealloc r elsz ar newlen) := by
  rw [ffarrRealloc]
  by_cases hroom : ar.cap ≠ 0 ∧ asked newlen ≤ ar.cap
  · rw [if_pos hroom]
    exact ⟨h, rfl, rfl, fun _ => hroom.2⟩
  rw [if_neg hroom]
  have hkeeps' := hkeeps.resolve_left hroom
  cases hcall : r.call ar.old (asked newlen * elsz % 2 ^ 64) with
  | none =>
    by_cases hfree : ar.cap ≠ 0 ∧ ar.len = 0
    · rw [if_pos hfree]
      refine ⟨Arr.null_valid, ?_, hfree.2.symm, fun hok => absurd hok Bool.false_ne_true⟩
      rw [Arr.elems_nil hfree.2]
      rfl
    · rw [if_neg hfree]
      exact ⟨h, rfl, rfl, fun hok => absurd hok Bool.false_ne_true⟩
  | some d =>
    obtain ⟨hsize, hview⟩ := hkeeps'.resolve_left fun hnone => by
      rw [hcall] at hnone
      cases hnone
    rw [Nat.mod_eq_of_lt hsize] at hcall
    have hd := r.length_eq hcall
    dsimp only
    by_cases hfree : ar.cap ≠ 0 ∧ ar.len = 0
    · -- The memory has been freed.
      have hnocopy : ¬(Arr.null.cap = 0 ∧ Arr.null.len ≠ 0) := fun hcopy => hcopy.2 rfl
      rw [if_pos hfree, if_neg hnocopy]
      have hzero : min Arr.null.len (asked newlen) = 0 := Nat.zero_min _
      rw [hzero]
      exact kept_nil hfree.2 hd
    rw [if_neg hfree]
    by_cases hcopy : ar.cap = 0 ∧ ar.len ≠ 0
    · -- A view with elements of one byte.
      obtain ⟨rfl, hle⟩ := hview hcopy.1 hcopy.2
      have hwithin : ar.len ≤ ar.mem.length := Nat.mul_one ar.len ▸ h.within
      have hcopied : (ar.mem.take ar.len).length = ar.len := length_take_of_le hwithin
      have hmin : ar.mem.take (min ar.len (asked newlen)) = ar.mem.take ar.len := by
        rw [Nat.min_eq_left hle]
      rw [if_pos hcopy, hmin]
      refine kept_some ?_ hle ?_
      · rw [length_splice (by omega), hd]
      · rw [Nat.mul_one, splice, take_zero, nil_append, take_left' hcopied]
    rw [if_neg hcopy]
    by_cases hlen : ar.len = 0
    · rw [hlen, Nat.zero_min]
      exact kept_nil hlen hd
    -- The array owns its memory: the bytes in front are the same.
    have hcap : ar.cap ≠ 0 := fun hcap => hcopy ⟨hcap, hlen⟩
    have hold : ar.old = ar.mem := if_pos ⟨hcap, hlen⟩
    obtain ⟨hle, hmem⟩ := h.owned hcap
    have hle' : ar.len ≤ asked newlen := by omega
    refine kept_some hd hle' ?_
    have htake := r.take_eq hcall
    rw [hold] at htake
    have hfront := congrArg (List.take (ar.len * elsz)) htake
    rwa [take_take, take_take, Nat.min_eq_left h.within,
      Nat.min_eq_left (Nat.mul_le_mul_right elsz hle')] at hfront

/-- **Growing** -/
theorem ffarrGrow_spec (h : ar.Valid elsz) (hfits : Fits r elsz ar (.grow n lowat)) :
    (ffarrGrow r elsz ar n lowat).1.Valid elsz ∧
      (ffarrGrow r elsz ar n lowat).1.elems elsz = ar.elems elsz := by
  rw [ffarrGrow]
  by_cases hroom : (ar.len + n) % 2 ^ 64 ≤ ar.cap
  · rw [if_pos hroom]
    exact ⟨h, rfl⟩
  · rw [if_neg hroom]
    obtain ⟨hvalid, helems, -, -⟩ := ffarrRealloc_spec h (hfits.resolve_left hroom)
    exact ⟨hvalid, helems⟩

theorem append_room (h : ar.Valid elsz) (hsrc : num * elsz ≤ src.length)
    (hroom : ar.len + num ≤ ar.cap) :
    (⟨splice ar.mem (ar.len * elsz) (src.take (num * elsz)), ar.len + num, ar.cap⟩ :
        Arr).Valid elsz ∧
      (⟨splice ar.mem (ar.len * elsz) (src.take (num * elsz)), ar.len + num, ar.cap⟩ :
        Arr).elems elsz = ar.elems elsz ++ slots elsz num src := by
  have hcopied : (src.take (num * elsz)).length = num * elsz := length_take_of_le hsrc
  have hbytes : (ar.len + num) * elsz ≤ ar.mem.length := by
    by_cases hcap : ar.cap = 0
    · have hnone : ar.len + num = 0 := by omega
      rw [hnone, Nat.zero_mul]
      exact Nat.zero_le _
    · rw [(h.owned hcap).2]
      exact Nat.mul_le_mul_right elsz hroom
  have hlen : (splice ar.mem (ar.len * elsz) (src.take (num * elsz))).length = ar.mem.length := by
    refine length_splice ?_
    rw [hcopied, ← Nat.add_mul]
    exact hbytes
  refine ⟨⟨?_, fun hcap => ⟨hroom, ?_⟩⟩, ?_⟩
  · rw [hlen]
    exact hbytes
  · rw [hlen]
    exact (h.owned hcap).2
  · rw [Arr.elems, Arr.elems, slots_splice h.within hcopied, slots_take]

/-- **Appending** -/
theorem ffarrAppend_spec (h : ar.Valid elsz) (hfits : Fits r elsz ar (.append src num)) :
    (ffarrAppend r elsz ar src num).1.Valid elsz ∧
      (ffarrAppend r elsz ar src num).1.elems elsz =
        if (ffarrAppend r elsz ar src num).2 then ar.elems elsz ++ slots elsz num src
        else ar.elems elsz := by
  obtain ⟨hsrc, hsum, hkeeps⟩ := hfits
  rw [ffarrAppend, Nat.mod_eq_of_lt hsum]
  by_cases hroom : ar.cap < ar.len + num
  · rw [if_pos hroom]
    obtain ⟨hvalid, helems, hlen, hmade⟩ := ffarrRealloc_spec h (hkeeps hroom)
    have hasked : ar.len + num ≤ asked (ar.len + num) := by
      rw [asked]
      split <;> omega
    cases hok : (ffarrRealloc r elsz ar (ar.len + num)).2 with
    | false =>
      rw [if_neg Bool.false_ne_true, hok, if_neg Bool.false_ne_true]
      exact ⟨hvalid, helems⟩
    | true =>
      rw [if_pos rfl, if_pos rfl, ← helems]
      refine append_room hvalid hsrc ?_
      rw [hlen]
      exact Nat.le_trans hasked (hmade hok)
  · rw [if_neg hroom, if_pos rfl, if_pos rfl]
    exact append_room h hsrc (Nat.le_of_not_lt hroom)

/-- **Cropping** -/
theorem ffarrCrop_spec (h : ar.Valid elsz) (hfits : Fits r elsz ar (.crop off n)) :
    (ffarrCrop elsz ar off n).Valid elsz ∧
      (ffarrCrop elsz ar off n).elems elsz = ((ar.elems elsz).drop off).take n := by
  obtain ⟨hin, hplace⟩ := hfits
  have hlist : ((ar.elems elsz).drop off).take n = slots elsz n (ar.mem.drop (off * elsz)) := by
    rw [Arr.elems, drop_slots (Nat.le_trans (Nat.le_add_right off n) hin),
      take_slots (Nat.le_sub_of_add_le' hin)]
  have hbytes : (off + n) * elsz ≤ ar.mem.length :=
    Nat.le_trans (Nat.mul_le_mul_right elsz hin) h.within
  rw [Nat.add_mul] at hbytes
  rw [hlist, ffarrCrop]
  by_cases hoff : off = 0
  · subst hoff
    rw [if_neg (not_not.mpr rfl), Nat.zero_mul, drop_zero]
    refine ⟨⟨?_, fun hcap => ⟨?_, (h.owned hcap).2⟩⟩, rfl⟩
    · exact Nat.le_trans (Nat.le_add_left _ _) hbytes
    · exact Nat.le_trans (Nat.zero_add n ▸ hin) (h.owned hcap).1
  rw [if_pos hoff]
  by_cases hcap : ar.cap = 0
  · -- A view: the pointer is moved.
    rw [if_neg (not_not.mpr hcap)]
    refine ⟨⟨?_, fun hne => absurd hcap hne⟩, ?_⟩
    · dsimp only
      rw [length_drop]
      rcases hplace with hzero | rfl | hne | hsame
      · exact absurd hzero hoff
      · rw [Nat.zero_mul]
        exact Nat.zero_le _
      · exact absurd hcap hne
      · rw [hsame]
        exact Nat.le_sub_of_add_le' hbytes
    · rcases hplace with hzero | rfl | hne | hsame
      · exact absurd hzero hoff
      · rfl
      · exact absurd hcap hne
      · rw [Arr.elems, hsame]
  rw [if_pos hcap]
  have hpiece : ((ar.mem.drop (off * elsz)).take (n * elsz)).length = n * elsz := by
    rw [length_take, length_drop]
    omega
  have hlen : (splice ar.mem 0 ((ar.mem.drop (off * elsz)).take (n * elsz))).length =
      ar.mem.length := length_splice (by omega)
  refine ⟨⟨?_, fun hne => ⟨?_, ?_⟩⟩, ?_⟩
  · rw [hlen]
    exact Nat.le_trans (Nat.le_add_left _ _) hbytes
  · exact Nat.le_trans (Nat.le_trans (Nat.le_add_left n off) hin) (h.owned hne).1
  · rw [hlen]
    exact (h.owned hne).2
  · have hslots := @slots_splice _ elsz 0 n ar.mem _ (by omega) hpiece
    rw [Nat.zero_mul, Nat.zero_add, slots_take] at hslots
    exact hslots

/-- **Removing** -/
theorem ffarrRm_spec (h : ar.Valid elsz) (hin : off + n ≤ ar.len) :
    ∃ ar', ffarrRm elsz ar off n = some ar' ∧ ar'.Valid elsz ∧
      ar'.elems elsz = listOp elsz (ar.cap = 0) true (ar.elems elsz) (.rm off n) := by
  have hbytes : (off + n + (ar.len - off - n)) * elsz ≤ ar.mem.length := by
    have hall : off + n + (ar.len - off - n) = ar.len := by omega
    rw [hall]
    exact h.within
  rw [Nat.add_mul] at hbytes
  have hback : (ar.elems elsz).drop (off + n) =
      slots elsz (ar.len - off - n) (ar.mem.drop ((off + n) * elsz)) := by
    rw [Arr.elems, drop_slots hin, Nat.sub_sub]
  have hfront : (ar.elems elsz).take off = slots elsz off ar.mem :=
    take_slots (Nat.le_trans (Nat.le_add_right off n) hin)
  rw [ffarrRm, listOp, if_neg (Nat.not_lt.mpr hin), Arr.length_elems]
  by_cases hlast : off + n = ar.len
  · -- The last elements
    have hsub : ar.len - n = off := by omega
    have hoff : off ≤ ar.len := Nat.le_trans (Nat.le_add_right off n) hin
    have hmiddle : ¬(decide (ar.cap = 0) = true ∧ off ≠ 0 ∧ off + n ≠ ar.len) :=
      fun hmid => hmid.2.2 hlast
    rw [if_pos hlast, if_neg hmiddle, hsub]
    refine ⟨_, rfl, ⟨?_, fun hcap => ⟨?_, (h.owned hcap).2⟩⟩, ?_⟩
    · exact Nat.le_trans (Nat.mul_le_mul_right elsz hoff) h.within
    · exact Nat.le_trans hoff (h.owned hcap).1
    · have hnil : (ar.elems elsz).drop (off + n) = [] :=
        drop_eq_nil_of_le (by rw [Arr.length_elems, hlast])
      rw [hfront, hnil, append_nil]
      rfl
  rw [if_neg hlast]
  by_cases hview : ar.cap = 0
  · rw [if_pos hview]
    by_cases hoff : off = 0
    · subst hoff
      have hmiddle : ¬(decide (ar.cap = 0) = true ∧ 0 ≠ 0 ∧ 0 + n ≠ ar.len) :=
        fun hmid => hmid.2.1 rfl
      rw [if_neg (not_not.mpr rfl), if_neg hmiddle]
      refine ⟨_, rfl, ⟨?_, fun hne => absurd hview hne⟩, ?_⟩
      · dsimp only
        rw [length_drop]
        have hwithin := h.within
        rw [Nat.sub_mul]
        omega
      · rw [take_zero, nil_append, hback, Nat.zero_add, Nat.sub_zero]
        rfl
    · rw [if_pos hoff, if_pos ⟨decide_eq_true hview, hoff, hlast⟩]
      exact ⟨ar, rfl, h, rfl⟩
  have hmiddle : ¬(decide (ar.cap = 0) = true ∧ off ≠ 0 ∧ off + n ≠ ar.len) :=
    fun hmid => hview (of_decide_eq_true hmid.1)
  rw [if_neg hview, if_neg hmiddle]
  have hpiece : ((ar.mem.drop ((off + n) * elsz)).take ((ar.len - off - n) * elsz)).length =
      (ar.len - off - n) * elsz := by
    rw [length_take, length_drop]
    omega
  have hle : off * elsz ≤ (off + n) * elsz := Nat.mul_le_mul_right elsz (Nat.le_add_right _ _)
  have hlen : (splice ar.mem (off * elsz)
      ((ar.mem.drop ((off + n) * elsz)).take ((ar.len - off - n) * elsz))).length =
        ar.mem.length := length_splice (by omega)
  have hsub : ar.len - n = off + (ar.len - off - n) := by omega
  refine ⟨_, rfl, ⟨?_, fun hne => ⟨?_, ?_⟩⟩, ?_⟩
  · rw [hlen]
    exact Nat.le_trans (Nat.mul_le_mul_right elsz (Nat.sub_le _ _)) h.within
  · exact Nat.le_trans (Nat.sub_le _ _) (h.owned hne).1
  · rw [hlen]
    exact (h.owned hne).2
  · have hslots := @slots_splice _ elsz off (ar.len - off - n) ar.mem _ (by omega) hpiece
    rw [slots_take, ← hsub] at hslots
    rw [hfront, hback]
    exact hslots

/-- **A call** does to the elements what it does to a list. -/
theorem elems_call (h : ar.Valid elsz) {op : Op} (hfits : Fits r elsz ar op) :
    ∃ ar' ok, call r elsz ar op = some (ar', ok) ∧ ar'.Valid elsz ∧
      ar'.elems elsz = listOp elsz (ar.cap = 0) ok (ar.elems elsz) op := by
  cases op with
  | realloc newlen =>
    obtain ⟨hvalid, helems, -, -⟩ := ffarrRealloc_spec h hfits
    exact ⟨_, _, rfl, hvalid, helems⟩
  | grow n lowat =>
    obtain ⟨hvalid, helems⟩ := ffarrGrow_spec h hfits
    exact ⟨_, _, rfl, hvalid, helems⟩
  | append src num =>
    obtain ⟨hvalid, helems⟩ := ffarrAppend_spec h hfits
    exact ⟨_, _, rfl, hvalid, helems⟩
  | crop off n =>
    obtain ⟨hvalid, helems⟩ := ffarrCrop_spec h hfits
    exact ⟨_, _, rfl, hvalid, helems⟩
  | rm off n =>
    obtain ⟨ar', hrm, hvalid, helems⟩ := ffarrRm_spec h hfits
    refine ⟨ar', true, ?_, hvalid, helems⟩
    rw [call, hrm]
    rfl

theorem step_preserves (elsz : ℕ) :
    Preserves (step elsz) (fun p o => Fits o.1 elsz p.1 o.2)
      (fun p => p.1.Valid elsz ∧ p.1.elems elsz = p.2) := by
  rintro ⟨ar, xs⟩ ⟨r, op⟩ ⟨hvalid, hsame⟩ hfits
  obtain rfl : ar.elems elsz = xs := hsame
  obtain ⟨ar', ok, hcall, hvalid', helems⟩ := elems_call hvalid hfits
  refine ⟨(ar', listOp elsz (ar.cap = 0) ok (ar.elems elsz) op), ?_, hvalid', helems⟩
  rw [step, hcall]
  rfl

/-- **In a run of calls that fit**, the elements are those of the list in every state that is
reached. -/
theorem elems_run (elsz : ℕ) (ar : Arr) (ops : List (Realloc × Op)) (h : ar.Valid elsz)
    (hgood : GoodRun (step elsz) (fun p o => Fits o.1 elsz p.1 o.2) (ar, ar.elems elsz) ops) :
    ∀ ops', ops' <+: ops → ∃ ar' xs, run (step elsz) (ar, ar.elems elsz) ops' = some (ar', xs) ∧
      ar'.elems elsz = xs := by
  rintro ops' ⟨rest, rfl⟩
  obtain ⟨⟨ar', xs⟩, hrun, -, helems⟩ :=
    (step_preserves elsz).run (s := (ar, ar.elems elsz)) ⟨h, rfl⟩ hgood.of_append.1
  exact ⟨ar', xs, hrun, helems⟩

/-- Memory with zeros behind the old bytes. -/
def zeroed : Realloc where
  call old n := some (old.take n ++ List.replicate (n - old.length) 0)
  length_eq := by
    rintro old mem n hcall
    obtain rfl := some.inj hcall
    rw [length_append, length_take, length_replicate]
    omega
  take_eq := by
    rintro old mem n hcall
    obtain rfl := some.inj hcall
    rcases Nat.le_total n old.length with hle | hle
    · rw [Nat.sub_eq_zero_of_le hle, replicate_zero, append_nil,
        take_of_length_le (by rw [length_take]; omega)]
    · rw [take_of_length_le hle, take_left' rfl]

instance (r : Realloc) (elsz : ℕ) (ar : Arr) (newlen : ℕ) : Decidable (Keeps r elsz ar newlen) :=
  inferInstanceAs (Decidable (_ ∨ _ ∨ (_ ∧ (_ → _ → _ ∧ _))))

instance (r : Realloc) (elsz : ℕ) (ar : Arr) : ∀ op, Decidable (Fits r elsz ar op)
  | .realloc newlen => inferInstanceAs (Decidable (Keeps r elsz ar newlen))
  | .grow _ _ => inferInstanceAs (Decidable (_ ∨ Keeps _ _ _ _))
  | .append _ _ => inferInstanceAs (Decidable (_ ∧ _ ∧ (_ → Keeps _ _ _ _)))
  | .crop _ _ => inferInstanceAs (Decidable (_ ∧ (_ ∨ _ ∨ _ ∨ _)))
  | .rm _ _ => inferInstanceAs (Decidable (_ ≤ _))

/-- Elements of two bytes: two appends, the first element is removed, and the last one is kept. -/
theorem elems_run_words :
    ∃ ar', run (step 2) (Arr.null, []) [(zeroed, .append [1, 2, 3, 4] 2),
        (zeroed, .append [5, 6] 1), (zeroed, .rm 0 1), (zeroed, .crop 1 1)] =
      some (ar', [[5, 6]]) ∧ ar'.elems 2 = [[5, 6]] := by
  obtain ⟨ar', xs, hrun, helems⟩ := elems_run 2 Arr.null
    [(zeroed, .append [1, 2, 3, 4] 2), (zeroed, .append [5, 6] 1), (zeroed, .rm 0 1),
      (zeroed, .crop 1 1)] Arr.null_valid (by decide) _ prefix_rfl
  have hlist : (run (step 2) (Arr.null, []) [(zeroed, .append [1, 2, 3, 4] 2),
      (zeroed, .append [5, 6] 1), (zeroed, .rm 0 1), (zeroed, .crop 1 1)]).map Prod.snd =
        some [[5, 6]] := rfl
  have hnil : Arr.null.elems 2 = [] := rfl
  rw [hnil] at hrun
  rw [hrun] at hlist
  obtain rfl : xs = [[5, 6]] := some.inj hlist
  exact ⟨ar', hrun, helems⟩

/-- **Views**: of two elements of two bytes, two bytes are copied; cropping moves the pointer by one
byte more than the offset. -/
theorem elems_run_view :
    (∃ ar', run (step 2) (⟨[1, 2, 3, 4], 2, 0⟩, [[1, 2], [3, 4]]) [(zeroed, .realloc 2)] =
        some (ar', [[1, 2], [3, 4]]) ∧ ar'.elems 2 = [[1, 2], [0, 0]]) ∧
      ∃ ar', run (step 1) (⟨[97, 98, 99], 3, 0⟩, [[97], [98], [99]]) [(zeroed, .crop 1 1)] =
        some (ar', [[98]]) ∧ ar'.elems 1 = [[99]] :=
  ⟨⟨_, rfl, rfl⟩, ⟨_, rfl, rfl⟩⟩

end Elems

end Elem

end FF
