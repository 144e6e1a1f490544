import FF.IntSort
import FF.Lib.FirstDiff
import FF.Str.Nextval
import FF.Toint

/-!
# Versions

`ffstr_vercmp` compares two version strings, decimal numbers with dots between them, part by part; a
part that is missing counts as 0. A part that is no number ends it with an error.
-/

namespace FF

open List

/-! ### The function -/

/-- `FFS_INT64` -/
def ffsInt64 : IntFlags := ⟨8, false, false, false⟩

/-- The next part of a version: what is left, and the number. `none` where it is no number. -/
def vercmpPart (s : List UInt8) : Option (List UInt8 × ℕ) :=
  if s = [] then some ([], 0)
  else
    let (rest, part) := ffstrNextval3 s 0x2e nvKeep
    (ffstrToint part ffsInt64).map fun n => (rest, n)

/-- The variables of the loop. -/
structure VercmpSt where
  r : ℤ
  s : List UInt8
  d : List UInt8
  deriving DecidableEq, Repr

/-- `FFSTR_VERCMP_ERRV1` -/
def vercmpErrv1 : ℤ := -2

/-- `FFSTR_VERCMP_ERRV2` -/
def vercmpErrv2 : ℤ := -3

/-- One pass of the loop of `ffstr_vercmp`; the result is the only event. -/
def vercmpMove (st : VercmpSt) : List ℤ × Option VercmpSt :=
  if st.s = [] ∧ st.d = [] then ([st.r], none)
  else
    match vercmpPart st.s with
    | none => ([vercmpErrv1], none)
    | some (s, n1) =>
      match vercmpPart st.d with
      | none => ([vercmpErrv2], none)
      | some (d, n2) => ([], some ⟨if st.r = 0 then ffintCmp n1 n2 else st.r, s, d⟩)

/-- The result of `ffstr_vercmp`. -/
def FfstrVercmp (v1 v2 : List UInt8) (res : ℤ) : Prop := RunEnds vercmpMove ⟨0, v1, v2⟩ [res]

/-! ### Versions -/

/-- A version: parts that are decimal digits. -/
structure Version where
  parts : List (List UInt8)
  digits : ∀ p ∈ parts, p ≠ [] ∧ ∀ c ∈ p, (digitOf 10 c).isSome = true

/-- Parts with dots between them. -/
def dotText : List (List UInt8) → List UInt8
  | [] => []
  | [p] => p
  | p :: q :: ps => p ++ 0x2e :: dotText (q :: ps)

namespace Version

variable (v w : Version)

/-- The string -/
def text : List UInt8 := dotText v.parts

/-- The numbers -/
def values : List ℕ := v.parts.map (numVal (digitOf 10) 10 0)

/-- What is left of the numbers in 64 bits. -/
def words : List ℕ := v.values.map (· % 2 ^ 64)

/-- No part has more than 20 digits. -/
def Short : Prop := ∀ p ∈ v.parts, p.length ≤ 20

/-- The parts behind the first one. -/
def tail : Version := ⟨v.parts.tail, fun p hp => v.digits p (mem_of_mem_tail hp)⟩

theorem values_tail : v.tail.values = v.values.tail := map_tail

theorem words_tail : v.tail.words = v.words.tail := by
  rw [words, values_tail, map_tail]
  rfl

theorem short_iff : v.Short ↔ (v.parts.headD []).length ≤ 20 ∧ v.tail.Short := by
  change (∀ p ∈ v.parts, p.length ≤ 20) ↔ _ ∧ ∀ p ∈ v.parts.tail, p.length ≤ 20
  cases v.parts with
  | nil => simp
  | cons p ps => simp

end Version

/-! ### One part -/

theorem dot_notMem {p : List UInt8} (h : ∀ c ∈ p, (digitOf 10 c).isSome = true) : 0x2e ∉ p :=
  fun hdot => absurd (h 0x2e hdot) Bool.false_ne_true

theorem dotText_ne_nil {ps : List (List UInt8)} (hps : ps ≠ []) (hne : ∀ p ∈ ps, p ≠ []) :
    dotText ps ≠ [] := by
  cases ps with
  | nil => exact absurd rfl hps
  | cons p ps =>
    have hp := hne p mem_cons_self
    cases ps with
    | nil => exact hp
    | cons q ps =>
      intro h
      exact hp (append_eq_nil_iff.mp h).1

theorem nextval3_dotText {p : List UInt8} {ps : List (List UInt8)}
    (hdigits : ∀ q ∈ p :: ps, q ≠ [] ∧ ∀ c ∈ q, (digitOf 10 c).isSome = true) :
    ffstrNextval3 (dotText (p :: ps)) 0x2e nvKeep = (dotText ps, p) := by
  have hspl : (0x2e : UInt8) ≠ 0x20 ∧ (0x2e : UInt8) ≠ 0x09 := ⟨by decide, by decide⟩
  obtain ⟨hp, hpd⟩ := hdigits p mem_cons_self
  cases ps with
  | nil =>
    rw [show dotText [p] = p from rfl, ffstrNextval3, nextval_only hspl (dot_notMem hpd) hp]
    rw [drop_length]
    rfl
  | cons q ps =>
    have hne : dotText (q :: ps) ≠ [] :=
      dotText_ne_nil (cons_ne_nil q ps) fun x hx => (hdigits x (mem_cons_of_mem p hx)).1
    have hshift : nextvalShift p (dotText (q :: ps)) = p.length + 1 :=
      if_neg fun h => hne (length_eq_zero_iff.mp h.1)
    rw [show dotText (p :: q :: ps) = p ++ 0x2e :: dotText (q :: ps) from rfl, ffstrNextval3,
      nextval_keep hspl (dot_notMem hpd), hshift]
    change ((p ++ 0x2e :: dotText (q :: ps)).drop (p.length + 1), p) = _
    rw [drop_sep]

/-- **One part of a version.** -/
theorem vercmpPart_text (v : Version) :
    vercmpPart v.text =
      if (v.parts.headD []).length ≤ 20 then some (v.tail.text, v.words.headD 0) else none := by
  obtain ⟨ps, hdigits⟩ := v
  cases ps with
  | nil => rfl
  | cons p ps =>
    have hne : dotText (p :: ps) ≠ [] :=
      dotText_ne_nil (cons_ne_nil p ps) fun x hx => (hdigits x hx).1
    obtain ⟨hp, hpd⟩ := hdigits p mem_cons_self
    rw [Version.text, vercmpPart, if_neg hne, nextval3_dotText hdigits]
    dsimp only
    rw [ffsInt64, ffstrToint_u64, headD_cons]
    by_cases hlen : p.length ≤ 20
    · rw [if_pos ⟨hp, hpd, hlen⟩, if_pos hlen]
      rfl
    · rw [if_neg fun h => hlen h.2.2, if_neg hlen]
      rfl

/-! ### The run -/

/-- `enum FFSTR_VERCMP` for an order -/
def vercmpRes : Ordering → ℤ
  | .lt => -1
  | .eq => 0
  | .gt => 1

theorem vercmpRes_inj {o o' : Ordering} (h : vercmpRes o = vercmpRes o') : o = o' := by
  cases o <;> cases o' <;> first | rfl | cases h

theorem vercmpRes_swap (o : Ordering) : vercmpRes o.swap = -vercmpRes o := by
  cases o <;> rfl

theorem ffintCmp_eq (a b : ℕ) : ffintCmp a b = vercmpRes (cmp a b) := by
  rw [ffintCmp]
  rcases Nat.lt_trichotomy a b with hlt | rfl | hgt
  · rw [(cmp_eq_lt_iff a b).mpr hlt, if_neg (by omega), if_pos (by omega)]
    rfl
  · rw [cmp_self_eq_eq, if_pos rfl]
    rfl
  · rw [(cmp_eq_gt_iff a b).mpr hgt, if_neg (by omega), if_neg (by omega)]
    rfl

theorem vercmpRes_ge (o : Ordering) : ¬vercmpRes o < -1 := by
  cases o <;> decide

theorem vercmpRes_then (o o' : Ordering) :
    (if vercmpRes o = 0 then vercmpRes o' else vercmpRes o) = vercmpRes (o.then o') := by
  cases o <;> rfl

theorem vercmpMove_text {v w : Version} (r : ℤ) (hne : ¬(v.text = [] ∧ w.text = [])) :
    vercmpMove ⟨r, v.text, w.text⟩ =
      if (v.parts.headD []).length ≤ 20 then
        if (w.parts.headD []).length ≤ 20 then
          ([], some ⟨if r = 0 then ffintCmp ((v.words.headD 0 : ℕ) : ℤ) (w.words.headD 0 : ℕ) else r,
            v.tail.text, w.tail.text⟩)
        else ([vercmpErrv2], none)
      else ([vercmpErrv1], none) := by
  rw [vercmpMove, if_neg hne, vercmpPart_text, vercmpPart_text]
  by_cases hv : (v.parts.headD []).length ≤ 20
  · rw [if_pos hv, if_pos hv]
    by_cases hw : (w.parts.headD []).length ≤ 20
    · rw [if_pos hw, if_pos hw]
    · rw [if_neg hw, if_neg hw]
  · rw [if_neg hv, if_neg hv]

theorem Version.text_eq_nil {v : Version} : v.text = [] ↔ v.parts = [] := by
  constructor
  · intro h
    by_contra hne
    exact dotText_ne_nil hne (fun p hp => (v.digits p hp).1) h
  · intro h
    rw [Version.text, h]
    rfl

/-- What the loop returns: the order of the words where no part is too long. -/
def VercmpReturns (v w : Version) (r e : ℤ) : Prop :=
  (v.Short ∧ w.Short → e = if r = 0 then vercmpRes (padCompare 0 v.words w.words) else r) ∧
  (¬(v.Short ∧ w.Short) → e < -1)

/-- **The loop ends** for all versions. -/
theorem vercmp_run (n : ℕ) : ∀ v w : Version, v.parts.length + w.parts.length ≤ n → ∀ r,
    ∃ e, RunEnds vercmpMove ⟨r, v.text, w.text⟩ [e] ∧ VercmpReturns v w r e := by
  have hdone : ∀ v w : Version, v.text = [] ∧ w.text = [] → ∀ r,
      ∃ e, RunEnds vercmpMove ⟨r, v.text, w.text⟩ [e] ∧ VercmpReturns v w r e := by
    intro v w hnil r
    have hv := Version.text_eq_nil.mp hnil.1
    have hw := Version.text_eq_nil.mp hnil.2
    have hcmp : padCompare 0 v.words w.words = .eq := by
      rw [Version.words, Version.words, Version.values, Version.values, hv, hw]
      rfl
    refine ⟨r, RunEnds.last (if_pos hnil), fun _ => ?_, fun hno => absurd ⟨?_, ?_⟩ hno⟩
    · rw [hcmp]
      split
      · next h0 => exact h0
      · rfl
    · rw [Version.Short, hv]
      exact fun p hp => absurd hp not_mem_nil
    · rw [Version.Short, hw]
      exact fun p hp => absurd hp not_mem_nil
  induction n with
  | zero =>
    intro v w hlen r
    exact hdone v w ⟨Version.text_eq_nil.mpr (length_eq_zero_iff.mp (by omega)),
      Version.text_eq_nil.mpr (length_eq_zero_iff.mp (by omega))⟩ r
  | succ n ih =>
    intro v w hlen r
    by_cases hnil : v.text = [] ∧ w.text = []
    · exact hdone v w hnil r
    have hmove := vercmpMove_text r hnil
    have hshort : v.Short ∧ w.Short ↔ ((v.parts.headD []).length ≤ 20 ∧
        (w.parts.headD []).length ≤ 20) ∧ v.tail.Short ∧ w.tail.Short := by
      rw [v.short_iff, w.short_iff]
      exact and_and_and_comm
    by_cases hv : (v.parts.headD []).length ≤ 20
    · by_cases hw : (w.parts.headD []).length ≤ 20
      · rw [if_pos hv, if_pos hw] at hmove
        have htail : v.tail.parts.length + w.tail.parts.length ≤ n := by
          rw [Version.text_eq_nil, Version.text_eq_nil, ← length_eq_zero_iff,
            ← length_eq_zero_iff] at hnil
          rw [Version.tail, Version.tail, length_tail, length_tail]
          omega
        obtain ⟨e, hrun, hok, hbad⟩ := ih v.tail w.tail htail _
        refine ⟨e, RunEnds.silent hmove hrun, fun h => ?_, fun h => hbad fun h' => h ?_⟩
        · rw [hok (hshort.mp h).2, padCompare_head 0 v.words, v.words_tail, w.words_tail,
            ← vercmpRes_then, ← ffintCmp_eq]
          by_cases hr : r = 0
          · rw [if_pos hr, if_pos hr]
          · rw [if_neg hr, if_neg hr, if_neg hr]
        · exact hshort.mpr ⟨⟨hv, hw⟩, h'⟩
      · rw [if_pos hv, if_neg hw] at hmove
        exact ⟨_, RunEnds.last hmove, fun h => absurd (hshort.mp h).1.2 hw, fun _ => by decide⟩
    · rw [if_neg hv] at hmove
      exact ⟨_, RunEnds.last hmove, fun h => absurd (hshort.mp h).1.1 hv, fun _ => by decide⟩

/-! ### The order of versions -/

/-- **The result is the order of the versions.** -/
def VercmpOrder (v w : Version) : Prop :=
  FfstrVercmp v.text w.text (vercmpRes (padCompare 0 v.values w.values))

/-- **Where the numbers first differ in 64 bits** decides as the place where they first differ. -/
def SameInWords (v w : Version) : Prop :=
  ∀ i, firstDiff 0 v.values w.values = some i →
    ∃ j, firstDiff 0 v.words w.words = some j ∧
      (v.values.getD i 0 < w.values.getD i 0 ↔ v.words.getD j 0 < w.words.getD j 0)

theorem Version.words_getD (v : Version) (i : ℕ) : v.words.getD i 0 = v.values.getD i 0 % 2 ^ 64 := by
  rw [Version.words, getD_eq_getElem?_getD, getD_eq_getElem?_getD, getElem?_map]
  cases v.values[i]? with
  | none => rfl
  | some n => rfl

theorem cmp_congr {a b c d : ℕ} (hab : a ≠ b) (hcd : c ≠ d) : cmp a b = cmp c d ↔ (a < b ↔ c < d) := by
  rcases Nat.lt_or_gt_of_ne hab with h | h
  · rw [(cmp_eq_lt_iff a b).mpr h, eq_comm, cmp_eq_lt_iff]
    simp [h]
  · rw [(cmp_eq_gt_iff a b).mpr h, eq_comm, cmp_eq_gt_iff]
    omega

theorem padCompare_words (v w : Version) :
    padCompare 0 v.words w.words = padCompare 0 v.values w.values ↔ SameInWords v w := by
  rw [SameInWords, padCompare, padCompare]
  cases hf : firstDiff 0 v.values w.values with
  | none =>
    have hwords : firstDiff 0 v.words w.words = none := firstDiff_none.mpr fun i => by
      rw [v.words_getD, w.words_getD, firstDiff_none.mp hf i]
    rw [hwords]
    exact iff_of_true rfl fun i hi => by cases hi
  | some i =>
    have hi := (firstDiff_some.mp hf).1
    have hne : cmp (v.values.getD i 0) (w.values.getD i 0) ≠ .eq :=
      fun h => hi ((cmp_eq_eq_iff _ _).mp h)
    cases hg : firstDiff 0 v.words w.words with
    | none =>
      refine iff_of_false (fun h => hne h.symm) fun h => ?_
      obtain ⟨j, hj, -⟩ := h i rfl
      cases hj
    | some j =>
      have hj := (firstDiff_some.mp hg).1
      rw [eq_comm, cmp_congr hi hj]
      constructor
      · rintro h k hk
        obtain rfl := Option.some.inj hk
        exact ⟨j, rfl, h⟩
      · intro h
        obtain ⟨k, hk, hcmp⟩ := h i rfl
        obtain rfl := Option.some.inj hk
        exact hcmp

/-- **The result is the order of the versions** if and only if no part has more than 20 digits and
the numbers, where they differ, do so the same way in 64 bits. -/
theorem ffstrVercmp_iff (v w : Version) :
    VercmpOrder v w ↔ v.Short ∧ w.Short ∧ SameInWords v w := by
  obtain ⟨e, hrun, hok, hbad⟩ := vercmp_run _ v w le_rfl 0
  have hres : VercmpOrder v w ↔ e = vercmpRes (padCompare 0 v.values w.values) := by
    constructor
    · intro h
      exact (List.cons.inj (RunEnds.unique hrun h)).1
    · rintro rfl
      exact hrun
  rw [hres]
  by_cases hshort : v.Short ∧ w.Short
  · rw [hok hshort, if_pos rfl, ← padCompare_words]
    exact ⟨fun h => ⟨hshort.1, hshort.2, vercmpRes_inj h⟩, fun h => by rw [h.2.2]⟩
  · refine iff_of_false (fun h => ?_) fun h => hshort ⟨h.1, h.2.1⟩
    have hlt := hbad hshort
    rw [h] at hlt
    exact absurd hlt (vercmpRes_ge _)

/-- The numbers have at most 20 digits and 64 bits. -/
def Version.Fits (v : Version) : Prop := v.Short ∧ ∀ n ∈ v.values, n < 2 ^ 64

theorem Version.Fits.order {v w : Version} (hv : v.Fits) (hw : w.Fits) : VercmpOrder v w := by
  obtain ⟨e, hrun, hok, -⟩ := vercmp_run _ v w le_rfl 0
  have hwords : ∀ {u : Version}, u.Fits → u.words = u.values := fun hu =>
    (map_congr_left fun n hn => Nat.mod_eq_of_lt (hu.2 n hn)).trans (map_id' _)
  rw [VercmpOrder, ← hwords hv, ← hwords hw]
  rwa [hok ⟨hv.1, hw.1⟩, if_pos rfl] at hrun

/-- **The order of the versions that fit**: the results are antisymmetric and transitive, and 0 just
for versions whose numbers are the same, missing ones being 0. -/
theorem ffstrVercmp_order {u v w : Version} (hu : u.Fits) (hv : v.Fits) (hw : w.Fits) :
    (∀ a b, FfstrVercmp u.text v.text a → FfstrVercmp v.text u.text b → b = -a) ∧
      (FfstrVercmp u.text v.text (-1) → FfstrVercmp v.text w.text (-1) →
        FfstrVercmp u.text w.text (-1)) ∧
      (FfstrVercmp u.text v.text 0 ↔ ∀ i, u.values.getD i 0 = v.values.getD i 0) := by
  have hres : ∀ {v w : Version} {a : ℤ}, v.Fits → w.Fits → FfstrVercmp v.text w.text a →
      a = vercmpRes (padCompare 0 v.values w.values) :=
    fun hv hw hrun => (List.cons.inj (RunEnds.unique hrun (hv.order hw))).1
  refine ⟨fun a b ha hb => ?_, fun huv hvw => ?_, ?_⟩
  · rw [hres hu hv ha, hres hv hu hb, ← vercmpRes_swap, padCompare_swap]
  · have huw := hu.order hw
    rwa [VercmpOrder, padCompare_trans (vercmpRes_inj (hres hu hv huv).symm)
      (vercmpRes_inj (hres hv hw hvw).symm)] at huw
  rw [← firstDiff_none, ← padCompare_eq_eq]
  constructor
  · exact fun h => vercmpRes_inj (hres hu hv h).symm
  · intro h
    have huv := hu.order hv
    rwa [VercmpOrder, h] at huv

theorem ffstrVercmp_order_ones :
    FfstrVercmp (ascii "1") (ascii "1.0") 0 ↔ ∀ i, [1].getD i 0 = [1, 0].getD i 0 := by
  have hone : Version.Fits ⟨[ascii "1"], by simp [ascii]; decide⟩ :=
    ⟨by simp [Version.Short, ascii], by decide⟩
  have hzero : Version.Fits ⟨[ascii "1", ascii "0"], by simp [ascii]; decide⟩ :=
    ⟨by simp [Version.Short, ascii], by decide⟩
  exact (ffstrVercmp_order hone hzero hone).2.2

/-- **A part of 65 bits** is less than 1. -/
theorem ffstrVercmp_wraps :
    FfstrVercmp (ascii "18446744073709551616") (ascii "1") (-1) ∧ ¬∀ v w, VercmpOrder v w := by
  have hrun : FfstrVercmp (ascii "18446744073709551616") (ascii "1") (-1) :=
    @RunEnds.of_runFor _ _ _ _ _ 2 rfl
  refine ⟨hrun, fun h => ?_⟩
  have hok : ∀ s : List UInt8, s ≠ [] → (s.all fun c => (digitOf 10 c).isSome) = true →
      ∀ p ∈ [s], p ≠ [] ∧ ∀ c ∈ p, (digitOf 10 c).isSome = true := by
    intro s hne hall p hp
    obtain rfl := mem_singleton.mp hp
    exact ⟨hne, all_eq_true.mp hall⟩
  have hgt := h ⟨[ascii "18446744073709551616"], hok _ (by simp [ascii]) rfl⟩
    ⟨[ascii "1"], hok _ (by simp [ascii]) rfl⟩
  have hres : (-1 : ℤ) = vercmpRes (padCompare 0 [18446744073709551616] [1]) :=
    (List.cons.inj (RunEnds.unique hrun hgt)).1
  cases hres

end FF
