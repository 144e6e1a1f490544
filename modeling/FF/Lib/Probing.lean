import Mathlib.Data.List.Rotate
import Mathlib.Data.Nat.ModEq

/-!
# Open addressing with linear probing

A table is a list of slots, some of them busy. The probe sequence of a hash value begins at its
home slot and goes round the table. An entry is put into the first free slot of its probe
sequence; a search goes along the probe sequence up to the first free slot. Entries are never
removed.

## Main results

* `Probed`: what holds of the table, in terms of the entries in the order of their insertion.
* `Probed.insert`: an entry put into the first free slot of its probe sequence keeps it.
* `Probed.find_path`: what a search finds before the first free slot is the earliest entry.
-/

namespace FF

open List

section Rotate

variable {α : Type*}

/-- The probe sequence of the next slot. -/
theorem rotate_next {l rest : List α} {i : ℕ} {x : α} (hi : i < l.length)
    (h : l.rotate i = x :: rest) :
    l[i]? = some x ∧ l.rotate ((i + 1) % l.length) = rest ++ [x] := by
  refine ⟨?_, ?_⟩
  · rw [← head?_rotate hi, h, head?_cons]
  · rw [rotate_mod, ← rotate_rotate, h, rotate_cons_succ, rotate_zero]

/-- A slot in a probe sequence that begins elsewhere. -/
theorem rotate_split (X Y : List α) (f : α) (r : ℕ) :
    ∃ C D, (X ++ f :: Y).rotate r = C ++ f :: D ∧
      (∀ e, (X ++ e :: Y).rotate r = C ++ e :: D) ∧
      C.length + r ≡ X.length [MOD (X ++ f :: Y).length] := by
  obtain ⟨m, hm⟩ : ∃ m, m = r % (X ++ f :: Y).length := ⟨_, rfl⟩
  have hlen : ∀ e, (X ++ e :: Y).length = (X ++ f :: Y).length := by simp
  have hrot : ∀ e, (X ++ e :: Y).rotate r = (X ++ e :: Y).drop m ++ (X ++ e :: Y).take m := by
    intro e
    rw [rotate_eq_drop_append_take_mod, hlen, hm]
  have hmlt : m < (X ++ f :: Y).length := hm ▸ Nat.mod_lt _ (length_pos_of_ne_nil (by simp))
  have hmr : m ≡ r [MOD (X ++ f :: Y).length] := hm ▸ Nat.mod_modEq ..
  rcases Nat.lt_or_ge X.length m with h | h
  · obtain ⟨j, rfl⟩ : ∃ j, m = X.length + (j + 1) := ⟨m - X.length - 1, by omega⟩
    have hform : ∀ e, (X ++ e :: Y).rotate r = (Y.drop j ++ X) ++ e :: Y.take j := by
      intro e
      rw [hrot, drop_append, take_append, drop_of_length_le (by omega),
        take_of_length_le (by omega)]
      simp
    refine ⟨_, _, hform f, hform, ((hmr.symm.add_left _).trans ?_)⟩
    have hsum : (Y.drop j ++ X).length + (X.length + (j + 1)) =
        X.length + (X ++ f :: Y).length := by
      simp only [length_append, length_drop, length_cons] at hmlt ⊢
      omega
    rw [hsum]
    exact Nat.add_mod_right ..
  have hform : ∀ e, (X ++ e :: Y).rotate r = X.drop m ++ e :: (Y ++ X.take m) := by
    intro e
    rw [hrot, drop_append_of_le_length h, take_append_of_le_length h, append_assoc]
    rfl
  refine ⟨_, _, hform f, hform, ((hmr.symm.add_left _).trans ?_)⟩
  rw [length_drop, Nat.sub_add_cancel h]

/-- Writing to the slot that the probe sequence `A ++ f :: B` leads to. -/
theorem set_rotate {l A B : List α} {f : α} {i : ℕ} (hi : i < l.length)
    (h : l.rotate i = A ++ f :: B) (e : α) :
    (l.set ((i + A.length) % l.length) e).rotate i = A ++ e :: B ∧
      ∃ X Y, l = X ++ f :: Y ∧ l.set ((i + A.length) % l.length) e = X ++ e :: Y := by
  obtain ⟨X, Y, hf, he, hX⟩ := rotate_split A B f (l.length - i)
  have hback : ∀ L : List α, L.length = l.length → (L.rotate (l.length - i)).rotate i = L := by
    intro L hL
    rw [rotate_rotate, Nat.sub_add_cancel hi.le, ← hL, rotate_length]
  have hlen : (A ++ f :: B).length = l.length := by rw [← h, length_rotate]
  have hl : l = X ++ f :: Y := by
    rw [← hf, ← h, rotate_rotate, Nat.add_sub_cancel' hi.le, rotate_length]
  have hpos : (i + A.length) % l.length = X.length := by
    rw [hlen] at hX
    have h1 := hX.add_left i
    rw [show i + (X.length + (l.length - i)) = X.length + l.length by omega, Nat.ModEq,
      Nat.add_mod_right] at h1
    rw [← h1]
    refine Nat.mod_eq_of_lt ?_
    have := congrArg List.length hl
    simp only [length_append, length_cons] at this
    omega
  have hset : l.set ((i + A.length) % l.length) e = X ++ e :: Y := by
    rw [hpos]
    conv_lhs => rw [hl]
    rw [set_append_right _ _ le_rfl, Nat.sub_self]
    rfl
  refine ⟨?_, X, Y, hl, hset⟩
  rw [hset, ← he e]
  exact hback _ (by simpa using hlen)

/-- A list up to its first free slot. -/
theorem exists_first_free {l : List α} {busy : α → Bool} (h : ∃ x ∈ l, busy x = false) :
    ∃ A f B, l = A ++ f :: B ∧ (∀ x ∈ A, busy x) ∧ busy f = false := by
  obtain ⟨x, hx, hfree⟩ := h
  have hsome : (l.find? fun x => !busy x).isSome := find?_isSome.mpr ⟨x, hx, by simp [hfree]⟩
  obtain ⟨f, hf⟩ := Option.isSome_iff_exists.mp hsome
  obtain ⟨hf', A, B, hl, hA⟩ := find?_eq_some_iff_append.mp hf
  exact ⟨A, f, B, hl, fun a ha => by simpa using hA a ha, by simpa using hf'⟩

end Rotate

section Probing

variable {α η : Type*} [DecidableEq η]

/-- The table `slots` after the insertion of the entries `es`, the last one last. -/
structure Probed (busy : α → Bool) (hash : α → η) (home : η → ℕ) (slots es : List α) : Prop where
  /-- The entries with one hash value are in the table, in the order of their insertion along
  their probe sequence. -/
  entries : ∀ h, (slots.rotate (home h)).filter (fun x => busy x && decide (hash x = h)) =
    es.filter fun x => decide (hash x = h)
  /-- None of them is behind the first free slot. -/
  path : ∀ h, ∀ x ∈ (slots.rotate (home h)).dropWhile busy, busy x → hash x ≠ h
  busy_es : ∀ e ∈ es, busy e
  count : (slots.filter busy).length = es.length

variable {busy : α → Bool} {hash : α → η} {home : η → ℕ} {slots es : List α}

/-- There is a free slot while there are fewer entries than slots. -/
theorem Probed.exists_free (h : Probed busy hash home slots es)
    (hlt : es.length < slots.length) : ∃ x ∈ slots, busy x = false := by
  by_contra hall
  push Not at hall
  have hfull : slots.filter busy = slots :=
    filter_eq_self.mpr fun x hx => by simpa using hall x hx
  have := h.count
  rw [hfull] at this
  omega

/-- With as many entries as slots all slots are busy. -/
theorem Probed.all_busy (h : Probed busy hash home slots es) (hle : slots.length ≤ es.length) :
    ∀ x ∈ slots, busy x := by
  have hlen : (slots.filter busy).length = slots.length :=
    le_antisymm (length_filter_le ..) (h.count ▸ hle)
  exact fun x hx => filter_eq_self.mp
    ((filter_sublist).eq_of_length hlen) x hx

/-- **An entry put into the first free slot** of its probe sequence. -/
theorem Probed.insert (h : Probed busy hash home slots es) {e f : α} {A B : List α}
    (hhome : home (hash e) < slots.length) (hpath : slots.rotate (home (hash e)) = A ++ f :: B)
    (hA : ∀ x ∈ A, busy x) (hf : busy f = false) (he : busy e) :
    Probed busy hash home (slots.set ((home (hash e) + A.length) % slots.length) e)
      (es ++ [e]) := by
  obtain ⟨hrot, X, Y, hX, hset⟩ := set_rotate hhome hpath e
  -- the probe sequence of another hash value
  have hsplit : ∀ k, ∃ C D, slots.rotate (home k) = C ++ f :: D ∧
      (slots.set ((home (hash e) + A.length) % slots.length) e).rotate (home k) =
        C ++ e :: D := by
    intro k
    obtain ⟨C, D, h1, h2, -⟩ := rotate_split X Y f (home k)
    exact ⟨C, D, by rw [hX, h1], by rw [hset, h2]⟩
  have hbehind : ∀ x ∈ B, busy x → hash x ≠ hash e := by
    intro x hx
    have hp := h.path (hash e) x
    rw [hpath, dropWhile_append_of_pos hA, dropWhile_cons_of_neg (by simp [hf])] at hp
    exact hp (mem_cons_of_mem _ hx)
  refine ⟨fun k => ?_, fun k => ?_, ?_, ?_⟩
  · have hent := h.entries k
    rw [filter_append, ← hent]
    by_cases hk : hash e = k
    · subst hk
      have hB : B.filter (fun x => busy x && decide (hash x = hash e)) = [] := by
        rw [filter_eq_nil_iff]
        intro x hx hb
        simp only [Bool.and_eq_true, decide_eq_true_eq] at hb
        exact hbehind x hx hb.1 hb.2
      rw [hrot, hpath]
      simp [filter_append, hf, he, hB]
    · obtain ⟨C, D, h1, h2⟩ := hsplit k
      rw [h1, h2]
      simp [filter_append, hf, hk]
  · by_cases hk : hash e = k
    · subst hk
      rw [hrot, dropWhile_append_of_pos hA, dropWhile_cons_of_pos he]
      exact fun x hx => hbehind x ((dropWhile_sublist _).subset hx)
    obtain ⟨C, D, h1, h2⟩ := hsplit k
    have hold := h.path k
    rw [h1, dropWhile_append] at hold
    rw [h2, dropWhile_append]
    intro x hx hb
    by_cases hC : (C.dropWhile busy).isEmpty
    · rw [if_pos hC, dropWhile_cons_of_neg (by simp [hf])] at hold
      rw [if_pos hC, dropWhile_cons_of_pos he] at hx
      exact hold x (mem_cons_of_mem _ ((dropWhile_sublist _).subset hx)) hb
    rw [if_neg hC] at hold hx
    rcases mem_append.mp hx with hx | hx
    · exact hold x (mem_append_left _ hx) hb
    · rcases mem_cons.mp hx with rfl | hx
      · exact hk
      · exact hold x (mem_append_right _ (mem_cons_of_mem _ hx)) hb
  · intro x hx
    rcases mem_append.mp hx with hx | hx
    · exact h.busy_es x hx
    · rwa [mem_singleton.mp hx]
  have hcount := h.count
  rw [hX] at hcount
  rw [hset]
  simp only [filter_append, filter_cons, hf, he, if_true, length_append,
    length_cons, length_nil, Bool.false_eq_true, if_false] at hcount ⊢
  omega

/-- The entries with a hash value are those of the probe sequence before the first free slot. -/
theorem Probed.filter_path (h : Probed busy hash home slots es) (k : η) :
    ((slots.rotate (home k)).takeWhile busy).filter (fun x => decide (hash x = k)) =
      es.filter fun x => decide (hash x = k) := by
  rw [← h.entries k]
  conv_rhs => rw [← takeWhile_append_dropWhile (p := busy) (l := slots.rotate (home k))]
  rw [filter_append]
  have hrest : ((slots.rotate (home k)).dropWhile busy).filter
      (fun x => busy x && decide (hash x = k)) = [] := by
    rw [filter_eq_nil_iff]
    intro x hx hb
    simp only [Bool.and_eq_true, decide_eq_true_eq] at hb
    exact h.path k x hx hb.1 hb.2
  rw [hrest, append_nil]
  refine filter_congr fun x hx => ?_
  rw [all_eq_true.mp all_takeWhile x hx, Bool.true_and]

/-- **A search along the probe sequence** finds the earliest entry that matches. -/
theorem Probed.find_path (h : Probed busy hash home slots es) {k : η} {m : α → Bool}
    (hm : ∀ x, m x → hash x = k) :
    ((slots.rotate (home k)).takeWhile busy).find? m = es.find? m := by
  have hand : (fun x => decide (decide (hash x = k) = true ∧ m x = true)) = m := by
    funext x
    cases hx : m x with
    | false => simp
    | true => simp [hm x hx]
  have hfind : ∀ l : List α, (l.filter fun x => decide (hash x = k)).find? m = l.find? m := by
    intro l
    rw [find?_filter, hand]
  rw [← hfind, h.filter_path k, hfind]

end Probing

end FF
