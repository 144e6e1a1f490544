import FF.Ffstring
import FF.Lib.Runs

/-!
# Fields between separators

`ffstr_nextval` gives the first field of a string, or the last one, and how many bytes belong to it.
A separator at the end is left there if there is something in front of it, so that the empty field
behind it is found by the next call.
-/

namespace FF

open List

/-! ### The function -/

/-- `enum FFSTR_NEXTVAL` -/
structure NvFlags where
  dblquot : Bool := false
  keepwhite : Bool := false
  reverse : Bool := false
  tabs : Bool := false
  words : Bool := false
  cr : Bool := false
  deriving DecidableEq, Repr

/-- The local `spc`. -/
def NvFlags.spc (f : NvFlags) : List UInt8 :=
  if f.cr then ascii " \t\r" else if f.tabs then ascii "\t " else ascii " "

/-- What is looked for. -/
def NvFlags.isSep (f : NvFlags) (spl c : UInt8) : Bool :=
  if f.words then f.spc.contains c else c == spl

/-- `ffs_skipof` -/
def ffsSkipof (s anyof : List UInt8) : List UInt8 := s.dropWhile fun c => anyof.contains c

/-- `ffs_rfind`, `ffs_rfindof`: the last place, or the end. -/
def ffsRfind (p : UInt8 → Bool) (s : List UInt8) : ℕ :=
  if s.any p then s.length - 1 - s.reverse.findIdx p else s.length

/-- `ffstr_nextval` with `FFS_NV_REVERSE`. -/
def nextvalReverse (buf : List UInt8) (spl : UInt8) (f : NvFlags) : ℕ × List UInt8 :=
  let pos := ffsRfind (f.isSep spl) buf
  let len :=
    if pos = buf.length then buf.length
    else if pos = 0 ∧ pos + 1 ≠ buf.length then buf.length - pos - 1
    else buf.length - pos
  let dst := if pos = buf.length then buf else buf.drop (pos + 1)
  (len, if f.keepwhite then dst else ffsRskipof (ffsSkipof dst f.spc) f.spc)

/-- `ffstr_nextval` with the flags `f`: the number of bytes and `dst`. -/
def ffstrNextvalFlags (buf : List UInt8) (spl : UInt8) (f : NvFlags) : ℕ × List UInt8 :=
  if f.reverse then nextvalReverse buf spl f
  else
    let len := buf.length
    let buf := if f.keepwhite then buf else ffsSkipof buf f.spc
    if buf = [] then (len, [])
    else if f.dblquot ∧ buf.head? = some 0x22 then
      let pos := buf.tail.findIdx fun c => c == 0x22
      let rest := buf.tail.drop (pos + 1)
      let rest := if f.keepwhite then rest else ffsSkipof rest f.spc
      (len - rest.length, buf.tail.take pos)
    else
      let pos := buf.findIdx (f.isSep spl)
      if f.words ∨ spl = 0x20 ∨ spl = 0x09 then
        (len - ((buf.drop pos).dropWhile (f.isSep spl)).length, buf.take pos)
      else
        let skipped := len - buf.length
        let shift :=
          if pos = buf.length then len
          else if pos + 1 = buf.length ∧ pos ≠ 0 then skipped + pos
          else skipped + pos + 1
        (shift, if f.keepwhite then buf.take pos else ffsRskipof (buf.take pos) f.spc)

/-- `ffstr_nextval3`: what is left of the string, and `dst`. -/
def ffstrNextval3 (src : List UInt8) (spl : UInt8) (f : NvFlags) : List UInt8 × List UInt8 :=
  let r := ffstrNextvalFlags src spl f
  (if f.reverse then src.take (src.length - r.1) else src.drop r.1, r.2)

/-- `ffstr_nextval3` is called as long as something is left. -/
def nextvalMove (spl : UInt8) (f : NvFlags) (src : List UInt8) :
    List (List UInt8) × Option (List UInt8) :=
  if src = [] then ([], none)
  else ([(ffstrNextval3 src spl f).2], some (ffstrNextval3 src spl f).1)

/-- `FFS_NV_KEEPWHITE` -/
def nvKeep : NvFlags := { keepwhite := true }

/-- `FFS_NV_KEEPWHITE | FFS_NV_REVERSE` -/
def nvKeepReverse : NvFlags := { keepwhite := true, reverse := true }

section Nextval

variable {spl : UInt8} {s x y : List UInt8}

/-- Without flags, and with a character that is no whitespace, it is the function of the parsers. -/
theorem ffstrNextvalFlags_plain (hspl : spl ≠ 0x20 ∧ spl ≠ 0x09) (buf : List UInt8) :
    ffstrNextvalFlags buf spl {} = ffstrNextval buf spl := by
  have hspc : (fun c => ([0x20] : List UInt8).contains c) = fun c => c == 0x20 := by
    funext c
    rw [Bool.eq_iff_iff]
    simp
  have hmerge : ¬(False ∨ spl = 0x20 ∨ spl = 0x09) := by
    rintro (h | h | h)
    exacts [h, hspl.1 h, hspl.2 h]
  have hsep : ({} : NvFlags).isSep spl = fun c => c == spl := rfl
  have hspace : ({} : NvFlags).spc = [0x20] := by decide
  simp only [ffstrNextvalFlags, ffstrNextval, Bool.false_eq_true, if_false, ffsSkipof, hspace, hspc,
    false_and, if_neg hmerge, hsep]

/-! ### One field -/

theorem findIdx_sep (hx : spl ∉ x) (y : List UInt8) :
    (x ++ spl :: y).findIdx (fun c => c == spl) = x.length := by
  induction x with
  | nil => simp [findIdx_cons]
  | cons c x ih =>
    rw [mem_cons, not_or] at hx
    have hc : (c == spl) = false := by simpa using fun h : c = spl => hx.1 h.symm
    rw [cons_append, findIdx_cons, hc, cond_false, ih hx.2, length_cons]

theorem findIdx_noSep (hs : spl ∉ s) : s.findIdx (fun c => c == spl) = s.length := by
  rw [findIdx_eq_length]
  intro c hc
  simpa using fun h : c = spl => hs (h ▸ hc)

theorem sep_cases (spl : UInt8) (s : List UInt8) :
    spl ∉ s ∨ ∃ x y, s = x ++ spl :: y ∧ spl ∉ x := by
  by_cases h : spl ∈ s
  · exact .inr (append_of_mem h |> fun _ => eq_append_cons_of_mem h)
  · exact .inl h

theorem nextval_keepEq (hspl : spl ≠ 0x20 ∧ spl ≠ 0x09) (hne : s ≠ []) {n : ℕ}
    (hn : s.findIdx (fun c => c == spl) = n) :
    ffstrNextvalFlags s spl nvKeep =
      (if n = s.length then s.length else if n + 1 = s.length ∧ n ≠ 0 then n else n + 1,
        s.take n) := by
  have hmerge : ¬(False ∨ spl = 0x20 ∨ spl = 0x09) := by
    rintro (h | h | h)
    exacts [h, hspl.1 h, hspl.2 h]
  have hsep : ({ keepwhite := true } : NvFlags).isSep spl = fun c => c == spl := rfl
  simp only [ffstrNextvalFlags, nvKeep, Bool.false_eq_true, if_false, if_true, false_and,
    if_neg hne, if_neg hmerge, hsep, hn, Nat.sub_self, Nat.zero_add]

/-- The number of bytes that belong to the first field. -/
def nextvalShift (x y : List UInt8) : ℕ :=
  if y.length = 0 ∧ x.length ≠ 0 then x.length else x.length + 1

/-- **The first field.** -/
theorem nextval_keep (hspl : spl ≠ 0x20 ∧ spl ≠ 0x09) (hx : spl ∉ x) (y : List UInt8) :
    ffstrNextvalFlags (x ++ spl :: y) spl nvKeep = (nextvalShift x y, x) := by
  have hne : x ++ spl :: y ≠ [] := by simp
  have hlen : (x ++ spl :: y).length = x.length + (y.length + 1) := by
    rw [length_append, length_cons]
  rw [nextval_keepEq hspl hne (findIdx_sep hx y), take_left, hlen, nextvalShift,
    if_neg (by omega)]
  by_cases hlast : y.length = 0 ∧ x.length ≠ 0
  · rw [if_pos (by omega), if_pos hlast]
  · rw [if_neg (by omega), if_neg hlast]

theorem nextval_only (hspl : spl ≠ 0x20 ∧ spl ≠ 0x09) (hs : spl ∉ s) (hne : s ≠ []) :
    ffstrNextvalFlags s spl nvKeep = (s.length, s) := by
  rw [nextval_keepEq hspl hne (findIdx_noSep hs), if_pos rfl, take_length]

/-- **The way from the end** is the way from the begin of the reversed string. -/
theorem nextval_mirror (hspl : spl ≠ 0x20 ∧ spl ≠ 0x09) (hne : s ≠ []) :
    ffstrNextvalFlags s.reverse spl nvKeepReverse =
      ((ffstrNextvalFlags s spl nvKeep).1, (ffstrNextvalFlags s spl nvKeep).2.reverse) := by
  have hsep : nvKeepReverse.isSep spl = fun c => c == spl := rfl
  change nextvalReverse s.reverse spl nvKeepReverse = _
  rcases sep_cases spl s with hs | ⟨x, y, rfl, hx⟩
  · have hany : ¬(s.reverse.any fun c => c == spl) = true := by
      rw [any_reverse, any_eq_true]
      rintro ⟨c, hc, heq⟩
      exact hs (beq_iff_eq.mp heq ▸ hc)
    have hrfind : ffsRfind (fun c => c == spl) s.reverse = s.reverse.length := if_neg hany
    rw [nextval_only hspl hs hne, nextvalReverse, hsep, hrfind]
    simp only [if_true, length_reverse]
    rfl
  have hany : ((x ++ spl :: y).reverse.any fun c => c == spl) = true := by simp
  have hrfind : ffsRfind (fun c => c == spl) (x ++ spl :: y).reverse = y.length := by
    rw [ffsRfind, if_pos hany, reverse_reverse, findIdx_sep hx, length_reverse,
      length_append, length_cons]
    omega
  have hlen : (x ++ spl :: y).reverse.length = x.length + (y.length + 1) := by
    rw [length_reverse, length_append, length_cons]
  have hdrop : (x ++ spl :: y).reverse.drop (y.length + 1) = x.reverse := by
    have hsplit : (x ++ spl :: y).reverse = (y.reverse ++ [spl]) ++ x.reverse := by simp
    have hpart : (y.reverse ++ [spl]).length = y.length + 1 := by simp
    rw [hsplit, ← hpart, drop_left]
  have hshift : (if y.length = 0 ∧ y.length + 1 ≠ x.length + (y.length + 1) then
      x.length + (y.length + 1) - y.length - 1 else x.length + (y.length + 1) - y.length) =
      nextvalShift x y := by
    rw [nextvalShift]
    by_cases hlast : y.length = 0 ∧ x.length ≠ 0
    · rw [if_pos (by omega), if_pos hlast]
      omega
    · rw [if_neg (by omega), if_neg hlast]
      omega
  rw [nextval_keep hspl hx, nextvalReverse, hsep, hrfind, hlen]
  simp only [if_neg (show ¬y.length = x.length + (y.length + 1) by omega), hshift, hdrop]
  rfl

/-- **Each call makes progress**, and takes bytes of the string. -/
theorem nextval_progress (hspl : spl ≠ 0x20 ∧ spl ≠ 0x09) (hne : s ≠ []) :
    0 < (ffstrNextvalFlags s spl nvKeep).1 ∧ (ffstrNextvalFlags s spl nvKeep).1 ≤ s.length := by
  rcases sep_cases spl s with hs | ⟨x, y, rfl, hx⟩
  · rw [nextval_only hspl hs hne]
    exact ⟨length_pos_iff.mpr hne, le_refl _⟩
  · rw [nextval_keep hspl hx, length_append, length_cons, nextvalShift]
    split <;> omega

/-! ### All fields -/

/-- **A separator in front of another one at the end**, or a separator that is the whole string. -/
def LostField (spl : UInt8) (s : List UInt8) : Prop := s = [spl] ∨ [spl, spl] <:+ s

theorem nextvalMove_keep (hspl : spl ≠ 0x20 ∧ spl ≠ 0x09) (hx : spl ∉ x) (y : List UInt8) :
    nextvalMove spl nvKeep (x ++ spl :: y) =
      ([x], some ((x ++ spl :: y).drop (nextvalShift x y))) := by
  have hne : x ++ spl :: y ≠ [] := by simp
  rw [nextvalMove, if_neg hne, ffstrNextval3, nextval_keep hspl hx]
  rfl

theorem drop_sep (x y : List UInt8) : (x ++ spl :: y).drop (x.length + 1) = y := by
  have hsplit : x ++ spl :: y = (x ++ [spl]) ++ y := by simp
  have hlen : (x ++ [spl]).length = x.length + 1 := by simp
  rw [hsplit, ← hlen, drop_left]

theorem lostField_cons (x : List UInt8) (hy : y ≠ []) :
    LostField spl (x ++ spl :: y) ↔ LostField spl y := by
  have hpos := length_pos_iff.mpr hy
  have hsuffix : [spl, spl] <:+ x ++ spl :: y ↔ [spl, spl] <:+ spl :: y := by
    constructor
    · intro h
      apply suffix_of_suffix_length_le h (suffix_append x _)
      simp only [length_cons, length_nil]
      omega
    · exact fun h => h.trans (suffix_append x _)
  have hwhole : ¬x ++ spl :: y = [spl] := by
    intro h
    have hlen := congrArg List.length h
    simp only [length_append, length_cons, length_nil] at hlen
    omega
  rw [LostField, LostField, hsuffix, suffix_cons_iff, List.cons.injEq, eq_comm (b := y)]
  simp only [hwhole, false_or, true_and]

theorem lostField_last (hx : spl ∉ x) (hne : x ≠ []) : ¬LostField spl (x ++ [spl]) := by
  rintro (h | ⟨z, hz⟩)
  · have hnil := append_left_eq_self.mp h
    exact hne hnil
  · have hsplit : z ++ [spl, spl] = (z ++ [spl]) ++ [spl] := by simp
    rw [hsplit] at hz
    have hx' := append_cancel_right hz
    exact hx (hx' ▸ mem_append_right z mem_cons_self)

/-- **The fields that are found.** -/
theorem nextval_run (hspl : spl ≠ 0x20 ∧ spl ≠ 0x09) (n : ℕ) : ∀ s, s.length ≤ n → s ≠ [] →
    ∃ fs, RunEnds (nextvalMove spl nvKeep) s fs ∧ (fs = s.splitOn spl ↔ ¬LostField spl s) := by
  induction n with
  | zero =>
    intro s hlen hne
    exact absurd (length_eq_zero_iff.mp (Nat.le_zero.mp hlen)) hne
  | succ n ih =>
    intro s hlen hne
    have hend : RunEnds (nextvalMove spl nvKeep) [] [] := RunEnds.last rfl
    rcases sep_cases spl s with hs | ⟨x, y, rfl, hx⟩
    · have hmove : nextvalMove spl nvKeep s = ([s], some []) := by
        rw [nextvalMove, if_neg hne, ffstrNextval3, nextval_only hspl hs hne]
        change ([s], some (s.drop s.length)) = _
        rw [drop_length]
      refine ⟨[s], RunEnds.cons hmove hend, iff_of_true ?_ ?_⟩
      · exact (splitOn_eq_singleton hs).symm
      · rintro (rfl | hsuf)
        · exact hs mem_cons_self
        · exact hs (hsuf.subset mem_cons_self)
    have hmove := nextvalMove_keep hspl hx y
    rw [splitOn_append_cons_self, splitOn_eq_singleton hx]
    by_cases hy : y = []
    · subst hy
      have hone : RunEnds (nextvalMove spl nvKeep) [spl] [[]] := by
        have hsep := @nextvalMove_keep spl [] hspl not_mem_nil []
        exact RunEnds.cons hsep hend
      by_cases hnil : x = []
      · subst hnil
        exact ⟨[[]], hone, iff_of_false (by simp) (fun h => h (.inl rfl))⟩
      have hdrop : (x ++ [spl]).drop (nextvalShift x []) = [spl] := by
        have hshift : nextvalShift x [] = x.length :=
          if_pos ⟨rfl, fun h => hnil (length_eq_zero_iff.mp h)⟩
        rw [hshift, drop_left]
      rw [hdrop] at hmove
      exact ⟨[x, []], RunEnds.cons hmove hone,
        iff_of_true (by simp) (lostField_last hx hnil)⟩
    have hshift : nextvalShift x y = x.length + 1 :=
      if_neg fun h => hy (length_eq_zero_iff.mp h.1)
    rw [hshift, drop_sep] at hmove
    rw [length_append, length_cons] at hlen
    obtain ⟨fs, hrun, hfs⟩ := ih y (by omega) hy
    refine ⟨x :: fs, RunEnds.cons hmove hrun, ?_⟩
    rw [lostField_cons x hy, ← hfs, singleton_append, List.cons.injEq, and_iff_right rfl]

theorem splitOn_reverse (spl : UInt8) (n : ℕ) : ∀ s : List UInt8, s.length ≤ n →
    s.reverse.splitOn spl = ((s.splitOn spl).map List.reverse).reverse := by
  induction n with
  | zero =>
    intro s hlen
    rw [length_eq_zero_iff.mp (Nat.le_zero.mp hlen)]
    rfl
  | succ n ih =>
    intro s hlen
    rcases sep_cases spl s with hs | ⟨x, y, rfl, hx⟩
    · rw [splitOn_eq_singleton hs, splitOn_eq_singleton (by rwa [mem_reverse])]
      rfl
    have hrev : (x ++ spl :: y).reverse = y.reverse ++ spl :: x.reverse := by simp
    have hx' : spl ∉ x.reverse := by rwa [mem_reverse]
    rw [length_append, length_cons] at hlen
    rw [hrev, splitOn_append_cons_self, splitOn_append_cons_self,
      splitOn_eq_singleton hx, ih y (by omega), splitOn_eq_singleton hx',
      singleton_append, map_cons, reverse_cons]

/-- **The calls from the end** make the steps of those from the begin. -/
theorem nextvalMove_mirror (hspl : spl ≠ 0x20 ∧ spl ≠ 0x09) (s : List UInt8) :
    nextvalMove spl nvKeepReverse s.reverse =
      ((nextvalMove spl nvKeep s).1.map List.reverse,
        (nextvalMove spl nvKeep s).2.map List.reverse) := by
  by_cases hne : s = []
  · subst hne
    rfl
  obtain ⟨-, hle⟩ := nextval_progress hspl hne
  have hrev : ¬s.reverse = [] := by rwa [reverse_eq_nil_iff]
  rw [nextvalMove, nextvalMove, if_neg hne, if_neg hrev, ffstrNextval3, ffstrNextval3,
    nextval_mirror hspl hne]
  change ([_], some (s.reverse.take (s.reverse.length - _))) =
    ([_], some (s.drop (ffstrNextvalFlags s spl nvKeep).1).reverse)
  rw [reverse_drop, length_reverse]

end Nextval

/-! ### Results -/

/-- **When the fields of a string are found**: unless the last one, or on the way from the end the
first one, is an empty field next to another empty one. Each call makes progress. -/
theorem ffstrNextval_iff (spl : UInt8) (hspl : spl ≠ 0x20 ∧ spl ≠ 0x09) (s : List UInt8)
    (hne : s ≠ []) :
    ∃ fs rs, RunEnds (nextvalMove spl nvKeep) s fs ∧ RunEnds (nextvalMove spl nvKeepReverse) s rs ∧
      (∀ t : List UInt8, t ≠ [] → ∀ f ∈ [nvKeep, nvKeepReverse],
        0 < (ffstrNextvalFlags t spl f).1 ∧ (ffstrNextvalFlags t spl f).1 ≤ t.length) ∧
      ((fs = s.splitOn spl ∧ rs = (s.splitOn spl).reverse) ↔
        (s ≠ [spl] ∧ ¬[spl, spl] <:+ s ∧ ¬[spl, spl] <+: s)) := by
  have hrev : s.reverse ≠ [] := by rwa [ne_eq, reverse_eq_nil_iff]
  obtain ⟨fs, hfs, hiff⟩ := nextval_run hspl s.length s (le_refl _) hne
  obtain ⟨rs, hrs, hiff'⟩ := nextval_run hspl s.reverse.length s.reverse (le_refl _) hrev
  have hmirror := RunEnds.map (nextvalMove_mirror hspl) hrs
  rw [reverse_reverse] at hmirror
  refine ⟨fs, rs.map List.reverse, hfs, hmirror, ?_, ?_⟩
  · intro t ht f hf
    obtain ⟨hpos, hle⟩ := nextval_progress hspl ht
    rcases mem_cons.mp hf with rfl | hf
    · exact ⟨hpos, hle⟩
    obtain rfl := mem_singleton.mp hf
    have ht' : t.reverse ≠ [] := by rwa [ne_eq, reverse_eq_nil_iff]
    have hkeep := nextval_progress hspl ht'
    have hback := nextval_mirror hspl ht'
    rw [reverse_reverse] at hback
    rw [hback]
    rwa [length_reverse] at hkeep
  have hsplit := splitOn_reverse spl s.length s (le_refl _)
  have hinv : ∀ l : List (List UInt8), (l.map List.reverse).map List.reverse = l := by
    intro l
    rw [map_map]
    exact map_id'' reverse_reverse l
  have hrs' : rs.map List.reverse = (s.splitOn spl).reverse ↔ rs = s.reverse.splitOn spl := by
    rw [hsplit]
    constructor
    · intro h
      have hmap := congrArg (List.map List.reverse) h
      rwa [hinv, map_reverse] at hmap
    · rintro rfl
      rw [map_reverse, hinv]
  have hstart : [spl, spl] <:+ s.reverse ↔ [spl, spl] <+: s := by
    rw [← reverse_prefix, reverse_reverse]
    rfl
  have hone : s.reverse = [spl] ↔ s = [spl] := by
    rw [reverse_eq_iff]
    rfl
  rw [hrs', hiff, hiff', LostField, LostField, hstart, hone]
  tauto

theorem ffstrNextval_iff_example :
    ∃ fs rs, RunEnds (nextvalMove 0x2c nvKeep) (ascii ",a,") fs ∧
      RunEnds (nextvalMove 0x2c nvKeepReverse) (ascii ",a,") rs ∧
      ((fs = (ascii ",a,").splitOn 0x2c ∧ rs = ((ascii ",a,").splitOn 0x2c).reverse) ↔
        (ascii ",a," ≠ [0x2c] ∧ ¬[0x2c, 0x2c] <:+ ascii ",a," ∧
        ¬[0x2c, 0x2c] <+: ascii ",a,")) := by
  obtain ⟨fs, rs, hfs, hrs, -, hiff⟩ :=
    ffstrNextval_iff 0x2c (by decide) (ascii ",a,") (by decide)
  exact ⟨fs, rs, hfs, hrs, hiff⟩

/-- A comma has an empty field on both sides, and one of them is found. -/
theorem ffstrNextval_comma :
    ¬∀ s : List UInt8, s ≠ [] → ∀ fs, RunEnds (nextvalMove 0x2c nvKeep) s fs →
      fs = s.splitOn 0x2c := by
  intro h
  have hrun : RunEnds (nextvalMove 0x2c nvKeep) [0x2c] [[]] := by
    have hmove : nextvalMove 0x2c nvKeep [0x2c] = ([[]], some []) := by decide
    have hend : RunEnds (nextvalMove 0x2c nvKeep) [] [] := RunEnds.last rfl
    exact RunEnds.cons hmove hend
  exact absurd (h [0x2c] (by decide) [[]] hrun) (by decide)

end FF
