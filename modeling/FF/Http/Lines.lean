import FF.Http.Header
import Mathlib.Data.List.DropRight

/-!
# Header lines

What `ffhttp_nexthdr` reads, in terms of the text: a name, a colon, a value with spaces around it,
and the end of the line. The parser accepts exactly these lines, and its fields are the ranges of
the name and the value.
-/

namespace FF

namespace Http

open List

/-! ### Lines -/

/-- A character of a name behind the first one -/
def isHdrChar (ch : UInt8) : Bool := ffcharIsname ch || ch == 0x2d

/-- A character of a value -/
def isValChar (ch : UInt8) : Bool := ch != CR && ch != LF

/-- **A name** -/
def IsName (name : List UInt8) : Prop :=
  name.head?.any ffcharIsname = true ∧ name.all isHdrChar = true

/-- **A value**: it does not begin or end with a space. -/
def IsValue (val : List UInt8) : Prop :=
  val.all isValChar = true ∧ val.head? ≠ some 0x20 ∧ val.getLast? ≠ some 0x20

/-- Spaces -/
def IsSpaces (sp : List UInt8) : Prop := sp.all (· == 0x20) = true

/-- The end of a line -/
def IsEol (e : List UInt8) : Prop := e = [LF] ∨ e = [CR, LF]

/-- **A header line** with its name and its value. -/
inductive HdrLine : List UInt8 → List UInt8 → List UInt8 → Prop
  | mk {name sp val sp' e : List UInt8} (hname : IsName name) (hsp : IsSpaces sp)
      (hval : IsValue val) (hsp' : IsSpaces sp') (he : IsEol e) :
      HdrLine (name ++ 0x3a :: (sp ++ (val ++ (sp' ++ e)))) name val

/-- **The headers of a message** up to the empty line, with what is behind it. -/
inductive HdrBlock : List UInt8 → List (List UInt8 × List UInt8) → List UInt8 → Prop
  | fin {e rest : List UInt8} (he : IsEol e) : HdrBlock (e ++ rest) [] rest
  | cons {line name val text rest : List UInt8} {hs : List (List UInt8 × List UInt8)}
      (hline : HdrLine line name val) (h : HdrBlock text hs rest) :
      HdrBlock (line ++ text) ((name, val) :: hs) rest

/-! ### The loop of the parser -/

section Loop

variable {d cs : List UInt8} {h : FfhttpHdr} {i : ℕ}

theorem span_cases (p : UInt8 → Bool) (l : List UInt8) :
    ∃ w r, l = w ++ r ∧ w.all p = true ∧ (r = [] ∨ ∃ c r', r = c :: r' ∧ p c = false) := by
  induction l with
  | nil => exact ⟨[], [], rfl, rfl, .inl rfl⟩
  | cons c l ih =>
    cases hc : p c with
    | false => exact ⟨[], c :: l, rfl, rfl, .inr ⟨c, l, rfl, hc⟩⟩
    | true =>
      obtain ⟨w, r, rfl, hw, hr⟩ := ih
      exact ⟨c :: w, r, rfl, by rw [all_cons, hc, hw]; rfl, hr⟩

theorem loop_name {w : List UInt8} (hw : w.all isHdrChar = true) :
    nexthdrLoop d .keyData h i (w ++ cs) =
      nexthdrLoop d .keyData { h with crc := w.foldl ffcrc32Iupdate h.crc } (i + w.length) cs := by
  induction w generalizing h i with
  | nil => rfl
  | cons c w ih =>
    rw [all_cons, Bool.and_eq_true] at hw
    have hcolon : c ≠ 0x3a := by
      rintro rfl
      exact absurd hw.1 (by decide)
    have heol : ¬(c = CR ∨ c = LF) := by
      rintro (rfl | rfl)
      · exact absurd hw.1 (by decide)
      · exact absurd hw.1 (by decide)
    have hname : ¬(!(ffcharIsname c || c == 0x2d)) = true := by
      rw [← isHdrChar, hw.1]
      decide
    have hstep : hdrSwitch .keyData h i c =
        .next .keyData { h with crc := ffcrc32Iupdate h.crc c } := by
      show caseKeyData h i c = _
      rw [caseKeyData, if_neg hcolon, if_neg heol, if_neg hname]
    rw [cons_append, nexthdrLoop, hstep]
    refine (ih hw.2).trans ?_
    rw [length_cons, foldl_cons, Nat.add_assoc, Nat.add_comm 1]

theorem loop_spaces {sp : List UInt8} (hsp : IsSpaces sp) :
    nexthdrLoop d .spaceBeforeVal h i (sp ++ cs) =
      nexthdrLoop d .spaceBeforeVal h (i + sp.length) cs := by
  induction sp generalizing i with
  | nil => rfl
  | cons c sp ih =>
    rw [IsSpaces, all_cons, Bool.and_eq_true] at hsp
    have hc : c = 0x20 := by simpa using hsp.1
    have hstep : hdrSwitch .spaceBeforeVal h i c = .next .spaceBeforeVal h := if_pos hc
    rw [cons_append, nexthdrLoop, hstep]
    refine (ih hsp.2).trans ?_
    rw [length_cons, Nat.add_assoc, Nat.add_comm 1]

/-- The value has been read up to the end of `w`: its length is known behind a space. -/
def ValAt (off : ℕ) (w : List UInt8) (idx : HdrIdx) (h : FfhttpHdr) : Prop :=
  h.val.off = off ∧
    ((idx = .val ∧ w.rdropWhile (· == 0x20) = w) ∨
      (idx = .spaceAfterVal ∧ h.val.len = (w.rdropWhile (· == 0x20)).length))

theorem ValAt.step {off : ℕ} {w : List UInt8} {idx : HdrIdx} (hv : ValAt off w idx h)
    (hi : i = off + w.length) {c : UInt8} (hc : isValChar c = true) :
    ∃ idx' val', hdrSwitch idx h i c = .next idx' { h with val := val' } ∧
      ValAt off (w ++ [c]) idx' { h with val := val' } := by
  rw [isValChar, Bool.and_eq_true, bne_iff_ne, bne_iff_ne] at hc
  obtain ⟨hcr, hlf⟩ := hc
  obtain ⟨hoff, ⟨rfl, hw⟩ | ⟨rfl, hlen⟩⟩ := hv
  · by_cases hsp : c = 0x20
    · refine ⟨.spaceAfterVal, { h.val with len := i - h.val.off }, if_pos hsp, hoff,
        .inr ⟨rfl, ?_⟩⟩
      rw [rdropWhile_concat_pos _ _ _ (by simp [hsp]), hw]
      show i - h.val.off = w.length
      omega
    · refine ⟨.val, h.val, ?_, hoff, .inl ⟨rfl, ?_⟩⟩
      · show caseHdrVal h i c = _
        rw [caseHdrVal, if_neg hsp, if_neg hcr, if_neg hlf]
      · exact rdropWhile_concat_neg _ _ _ (by simp [hsp])
  by_cases hsp : c = 0x20
  · refine ⟨.spaceAfterVal, h.val, if_pos hsp, hoff, .inr ⟨rfl, ?_⟩⟩
    rw [rdropWhile_concat_pos _ _ _ (by simp [hsp])]
    exact hlen
  · refine ⟨.val, { h.val with len := i }, ?_, hoff, .inl ⟨rfl, ?_⟩⟩
    · show caseSpaceAfterVal h i c = _
      rw [caseSpaceAfterVal, if_neg hsp, if_neg hcr, if_neg hlf]
    · exact rdropWhile_concat_neg _ _ _ (by simp [hsp])

theorem loop_value {off : ℕ} {w w' : List UInt8} {idx : HdrIdx} (hv : ValAt off w idx h)
    (hi : i = off + w.length) (hw' : w'.all isValChar = true) :
    ∃ idx' val', nexthdrLoop d idx h i (w' ++ cs) =
        nexthdrLoop d idx' { h with val := val' } (i + w'.length) cs ∧
      ValAt off (w ++ w') idx' { h with val := val' } := by
  induction w' generalizing h i idx w with
  | nil =>
    rw [append_nil]
    exact ⟨idx, h.val, rfl, hv⟩
  | cons c w' ih =>
    rw [all_cons, Bool.and_eq_true] at hw'
    obtain ⟨idx₁, val₁, hstep, hv₁⟩ := hv.step hi hw'.1
    have hi₁ : i + 1 = off + (w ++ [c]).length := by
      rw [length_append, length_singleton, hi, Nat.add_assoc]
    obtain ⟨idx₂, val₂, hloop, hv₂⟩ := ih hv₁ hi₁ hw'.2
    refine ⟨idx₂, val₂, ?_, ?_⟩
    · rw [cons_append, nexthdrLoop, hstep]
      refine hloop.trans ?_
      rw [length_cons, Nat.add_assoc, Nat.add_comm 1]
    · rwa [append_assoc] at hv₂

theorem ValAt.eol {off : ℕ} {w : List UInt8} {idx : HdrIdx} (hv : ValAt off w idx h)
    (hi : i = off + w.length) :
    hdrSwitch idx h i LF =
        .done { h with val := ⟨(w.rdropWhile (· == 0x20)).length, off⟩ } ∧
      hdrSwitch idx h i CR =
        .next .lastLf { h with val := ⟨(w.rdropWhile (· == 0x20)).length, off⟩ } := by
  obtain ⟨hoff, ⟨rfl, hw⟩ | ⟨rfl, hlen⟩⟩ := hv
  · have hval : { h.val with len := i - h.val.off } =
        (⟨(w.rdropWhile (· == 0x20)).length, off⟩ : Ffrange) := by
      rw [hw, hoff, hi, Nat.add_sub_cancel_left, ← hoff]
    exact ⟨by rw [← hval]; rfl, by rw [← hval]; rfl⟩
  · have hval : h.val = (⟨(w.rdropWhile (· == 0x20)).length, off⟩ : Ffrange) := by
      rw [← hlen, ← hoff]
    exact ⟨by rw [← hval]; rfl, by rw [← hval]; rfl⟩

theorem rdropWhile_append_spaces {val sp : List UInt8} (hval : val.getLast? ≠ some 0x20)
    (hsp : IsSpaces sp) : (val ++ sp).rdropWhile (· == 0x20) = val := by
  induction sp using List.reverseRecOn with
  | nil =>
    rw [append_nil, rdropWhile_eq_self_iff]
    intro hne hlast
    rw [getLast?_eq_some_getLast hne] at hval
    exact hval (congrArg some (by simpa using hlast))
  | append_singleton sp c ih =>
    rw [IsSpaces, all_append, Bool.and_eq_true] at hsp
    have hc : (c == 0x20) = true := by simpa using hsp.2
    rw [← append_assoc, rdropWhile_concat_pos (p := (· == 0x20)) _ _ hc]
    exact ih hsp.1

theorem isValChar_of_spaces {sp : List UInt8} (hsp : IsSpaces sp) : sp.all isValChar = true := by
  rw [IsSpaces, all_eq_true] at hsp
  rw [all_eq_true]
  intro c hc
  have hsp' : c = 0x20 := by simpa using hsp c hc
  rw [hsp']
  decide

theorem loop_eol {off : ℕ} {w e : List UInt8} {idx : HdrIdx} (hv : ValAt off w idx h)
    (hi : i = off + w.length) (he : IsEol e) :
    nexthdrLoop d idx h i (e ++ cs) =
      hdrDone { h with val := ⟨(w.rdropWhile (· == 0x20)).length, off⟩ } (i + e.length - 1) d := by
  obtain ⟨hlf, hcr⟩ := hv.eol hi
  rcases he with rfl | rfl
  · rw [singleton_append, nexthdrLoop, hlf]
    rfl
  · rw [cons_append, nexthdrLoop, hcr]
    rfl

/-- **The loop over a value** up to the end of the line -/
theorem loop_valueLine {val sp e : List UInt8} (hval : IsValue val) (hsp : IsSpaces sp)
    (hne : val = [] → sp = []) (he : IsEol e) :
    nexthdrLoop d .spaceBeforeVal h i (val ++ (sp ++ (e ++ cs))) =
      hdrDone { h with val := ⟨val.length, i⟩ } (i + (val ++ sp).length + e.length - 1) d := by
  obtain ⟨hchars, hhead, hlast⟩ := hval
  obtain ⟨c, text, htext, hc⟩ : ∃ c text, val ++ (sp ++ (e ++ cs)) = c :: text ∧ c ≠ 0x20 := by
    cases val with
    | cons c val => exact ⟨c, _, rfl, fun hc => hhead (congrArg some hc)⟩
    | nil =>
      rw [hne rfl]
      rcases he with rfl | rfl
      · exact ⟨LF, _, rfl, by decide⟩
      · exact ⟨CR, _, rfl, by decide⟩
  have hstart : nexthdrLoop d .spaceBeforeVal h i (val ++ (sp ++ (e ++ cs))) =
      nexthdrLoop d .val { h with val := { h.val with off := i } } i (val ++ (sp ++ (e ++ cs))) := by
    have hstep : hdrSwitch .spaceBeforeVal h i c =
        hdrSwitch .val { h with val := { h.val with off := i } } i c := if_neg hc
    rw [htext, nexthdrLoop, nexthdrLoop, hstep]
  have hv : ValAt i [] .val { h with val := { h.val with off := i } } := ⟨rfl, .inl ⟨rfl, rfl⟩⟩
  have hall : (val ++ sp).all isValChar = true := by
    rw [all_append, hchars, isValChar_of_spaces hsp]
    rfl
  obtain ⟨idx', val', hloop, hv'⟩ := loop_value (d := d) (i := i) hv rfl hall
  rw [hstart, ← append_assoc, hloop, loop_eol hv' (by rfl) he, nil_append,
    rdropWhile_append_spaces hlast hsp]

theorem loop_nameStart {name : List UInt8} (hname : IsName name) :
    nexthdrLoop d .key h i (name ++ cs) =
      nexthdrLoop d .keyData
        { h with
          crc := name.foldl ffcrc32Iupdate ffcrc32Start
          key := { h.key with off := i } } (i + name.length) cs := by
  obtain ⟨hhead, hall⟩ := hname
  cases name with
  | nil => cases hhead
  | cons c w =>
    have hc : ffcharIsname c = true := hhead
    have hcr : c ≠ CR := by
      rintro rfl
      exact absurd hc (by decide)
    have hlf : c ≠ LF := by
      rintro rfl
      exact absurd hc (by decide)
    have hstart : nexthdrLoop d .key h i (c :: w ++ cs) =
        nexthdrLoop d .keyData { h with crc := ffcrc32Start, key := { h.key with off := i } } i
          (c :: w ++ cs) := by
      have hstep : hdrSwitch .key h i c =
          hdrSwitch .keyData { h with crc := ffcrc32Start, key := { h.key with off := i } } i c := by
        show caseHdrKey h i c = caseKeyData _ i c
        rw [caseHdrKey]
        simp only [if_neg hcr, if_neg hlf, hc, Bool.not_true, Bool.false_eq_true, if_false]
      rw [cons_append, nexthdrLoop, nexthdrLoop, hstep]
    rw [hstart, loop_name hall]

theorem loop_key {name : List UInt8} (hname : IsName name) :
    nexthdrLoop d .key h i (name ++ 0x3a :: cs) =
      nexthdrLoop d .spaceBeforeVal
        { h with
          crc := name.foldl ffcrc32Iupdate ffcrc32Start
          key := ⟨name.length, i⟩ } (i + name.length + 1) cs := by
  have hcolon : hdrSwitch .keyData { h with
        crc := name.foldl ffcrc32Iupdate ffcrc32Start
        key := { h.key with off := i } } (i + name.length) 0x3a =
      .next .spaceBeforeVal { h with
        crc := name.foldl ffcrc32Iupdate ffcrc32Start
        key := ⟨name.length, i⟩ } := by
    show HdrStep.next .spaceBeforeVal _ = _
    rw [Nat.add_sub_cancel_left]
  rw [loop_nameStart hname, nexthdrLoop, hcolon]

end Loop

/-! ### The header -/

section Header

variable {d rest : List UInt8} {h : FfhttpHdr}

theorem take_of_drop_take {n i : ℕ} {w r : List UInt8} (hd : (d.take n).drop i = w ++ r) :
    (d.drop i).take w.length = w := by
  rw [drop_take] at hd
  have hlen := congrArg List.length hd
  rw [length_take, length_append] at hlen
  have htake := congrArg (List.take w.length) hd
  rwa [take_take, Nat.min_eq_left (by omega), take_left] at htake

/-- What `ffhttp_nexthdr` gives for a header with this name and value, whose line ends at `n`. -/
structure IsHdr (d : List UInt8) (name val : List UInt8) (n : ℕ) (h : FfhttpHdr) : Prop where
  len : h.len = n
  idx : h.idx = 0
  crc : h.crc = ffcrc32Iget name
  ihdr : h.ihdr = knownHdr (ffcrc32Iget name) name
  key : ffrangGet h.key d = name
  val : ffrangGet h.val d = val

theorem HdrLine.normal {line name val : List UInt8} (hline : HdrLine line name val) :
    ∃ sp sp' e, IsName name ∧ IsSpaces sp ∧ IsValue val ∧ IsSpaces sp' ∧ (val = [] → sp' = []) ∧
      IsEol e ∧ line = name ++ 0x3a :: (sp ++ (val ++ (sp' ++ e))) := by
  cases hline with
  | @mk _ sp _ sp' e hname hsp hval hsp' he =>
    by_cases hnil : val = []
    · refine ⟨sp ++ sp', [], e, hname, ?_, hval, rfl, fun _ => rfl, he, ?_⟩
      · rw [IsSpaces, all_append, hsp, hsp']
        rfl
      · rw [hnil]
        simp
    · exact ⟨sp, sp', e, hname, hsp, hval, hsp', fun h => absurd h hnil, he, rfl⟩

/-- **A header line** gives its name and its value. -/
theorem nexthdr_line {line name val : List UInt8} (hline : HdrLine line name val)
    (hd : (d.take 0xffff).drop h.len = line ++ rest) (hidx : h.idx = 0) :
    ∃ h', ffhttpNexthdr h d = (h', .ok) ∧ IsHdr d name val (h.len + line.length) h' := by
  obtain ⟨sp, sp', e, hname, hsp, hval, hsp', hnil, he, rfl⟩ := hline.normal
  have hkey : ffrangGet ⟨name.length, h.len⟩ d = name := by
    rw [append_assoc] at hd
    exact take_of_drop_take hd
  have hvalue : ffrangGet ⟨val.length, h.len + name.length + 1 + sp.length⟩ d = val := by
    have hdrop : (d.take 0xffff).drop (h.len + name.length + 1 + sp.length) =
        val ++ (sp' ++ (e ++ rest)) := by
      have hn : h.len + name.length + 1 + sp.length = h.len + (name ++ 0x3a :: sp).length := by
        rw [length_append, length_cons]
        omega
      have htext : name ++ 0x3a :: (sp ++ (val ++ (sp' ++ e))) ++ rest =
          (name ++ 0x3a :: sp) ++ (val ++ (sp' ++ (e ++ rest))) := by simp
      rw [hn, ← drop_drop, hd, htext, drop_left]
    exact take_of_drop_take hdrop
  have hne : name.length ≠ 0 := by
    rw [length_eq_zero_iff.ne]
    rintro rfl
    cases hname.1
  have htext : name ++ 0x3a :: (sp ++ (val ++ (sp' ++ e))) ++ rest =
      name ++ 0x3a :: (sp ++ (val ++ (sp' ++ (e ++ rest)))) := by simp
  rw [ffhttpNexthdr, hidx, hd, htext]
  show ∃ h', nexthdrLoop d .key h h.len _ = _ ∧ _
  rw [loop_key hname, loop_spaces hsp, loop_valueLine hval hsp' hnil he, hdrDone]
  simp only [if_neg hne]
  refine ⟨_, rfl, ?_, rfl, rfl, ?_, hkey, hvalue⟩
  · simp only [length_append, length_cons]
    omega
  · dsimp only
    rw [hkey]
    rfl

/-- **An empty line** is the end of the headers. -/
theorem nexthdr_fin {e : List UInt8} (he : IsEol e)
    (hd : (d.take 0xffff).drop h.len = e ++ rest) (hidx : h.idx = 0) :
    ∃ h', ffhttpNexthdr h d = (h', .done) ∧ h'.len = h.len + e.length ∧ h'.idx = 0 := by
  rw [ffhttpNexthdr, hidx, hd]
  rcases he with rfl | rfl
  · exact ⟨_, rfl, rfl, rfl⟩
  · exact ⟨_, rfl, rfl, rfl⟩

/-- What the parser gives for a text that is neither. -/
def IsOther (e : FfhttpE) : Prop := e ≠ .ok ∧ e ≠ .done

theorem isOther_nil {idx : HdrIdx} {h : FfhttpHdr} {i : ℕ} :
    IsOther (nexthdrLoop d idx h i []).2 := by
  by_cases hi : i = 0xffff
  · have he : (nexthdrLoop d idx h i []).2 = .etoolarge := if_pos hi
    rw [he]
    exact ⟨by decide, by decide⟩
  · have he : (nexthdrLoop d idx h i []).2 = .more := if_neg hi
    rw [he]
    exact ⟨by decide, by decide⟩

theorem isOther_fail {idx idx' : HdrIdx} {h h' : FfhttpHdr} {i : ℕ} {c : UInt8} {cs : List UInt8}
    {e : FfhttpE} (hstep : hdrSwitch idx h i c = .fail idx' h' e) (he : IsOther e) :
    IsOther (nexthdrLoop d idx h i (c :: cs)).2 := by
  rw [nexthdrLoop, hstep]
  exact he

theorem lastLf_cases (h : FfhttpHdr) (i : ℕ) (r : List UInt8) :
    (∃ r', r = LF :: r') ∨ IsOther (nexthdrLoop d .lastLf h i r).2 := by
  cases r with
  | nil => exact .inr isOther_nil
  | cons c r =>
    by_cases hc : c = LF
    · exact .inl ⟨r, by rw [hc]⟩
    · exact .inr (isOther_fail (if_pos hc) ⟨by decide, by decide⟩)

theorem isValue_rdropWhile {w : List UInt8} (hall : w.all isValChar = true)
    (hhead : w.head? ≠ some 0x20) : IsValue (w.rdropWhile (· == 0x20)) := by
  have hw : w.rdropWhile (· == 0x20) ++ w.rtakeWhile (· == 0x20) = w :=
    rdropWhile_append_rtakeWhile
  refine ⟨?_, ?_, ?_⟩
  · rw [← hw, all_append, Bool.and_eq_true] at hall
    exact hall.1
  · cases hd : w.rdropWhile (· == 0x20) with
    | nil => simp
    | cons c t =>
      rw [← hw, hd] at hhead
      exact hhead
  intro hlast
  have hne : w.rdropWhile (· == 0x20) ≠ [] := by
    rintro hnil
    rw [hnil] at hlast
    cases hlast
  have hno := rdropWhile_last_not (· == 0x20) w hne
  rw [getLast?_eq_some_getLast hne] at hlast
  exact hno (by simpa using hlast)

theorem value_cases (h : FfhttpHdr) (i : ℕ) (r : List UInt8) :
    (∃ sp val sp' e r', IsSpaces sp ∧ IsValue val ∧ IsSpaces sp' ∧ IsEol e ∧
      r = sp ++ (val ++ (sp' ++ e)) ++ r') ∨
    IsOther (nexthdrLoop d .spaceBeforeVal h i r).2 := by
  obtain ⟨sp, r₂, rfl, hsp, rfl | ⟨c, r₃, rfl, hc⟩⟩ := span_cases (· == 0x20) r
  · refine .inr ?_
    rw [loop_spaces hsp]
    exact isOther_nil
  have hc' : c ≠ 0x20 := by simpa using hc
  have hstart : nexthdrLoop d .spaceBeforeVal h (i + sp.length) (c :: r₃) =
      nexthdrLoop d .val { h with val := { h.val with off := i + sp.length } } (i + sp.length)
        (c :: r₃) := by
    have hstep : hdrSwitch .spaceBeforeVal h (i + sp.length) c =
        hdrSwitch .val { h with val := { h.val with off := i + sp.length } } (i + sp.length) c :=
      if_neg hc'
    rw [nexthdrLoop, nexthdrLoop, hstep]
  have hv : ValAt (i + sp.length) [] .val { h with val := { h.val with off := i + sp.length } } :=
    ⟨rfl, .inl ⟨rfl, rfl⟩⟩
  rw [loop_spaces hsp, hstart]
  obtain ⟨w, r₄, hw, hall, hr₄⟩ := span_cases isValChar (c :: r₃)
  obtain ⟨idx', val', hloop, hv'⟩ := @loop_value d r₄ _ (i + sp.length) _ _ _ _ hv rfl hall
  obtain ⟨-, hcr⟩ := hv'.eol (i := i + sp.length + w.length) (by rw [nil_append])
  have hhead : w.head? ≠ some 0x20 := by
    cases w with
    | nil => simp
    | cons c' w =>
      rw [cons_append, List.cons.injEq] at hw
      rw [head?_cons, ← hw.1]
      exact fun h => hc' (Option.some.inj h)
  have hline : ∀ e r', IsEol e → ∃ sp₁ val sp' e₁ r₁, IsSpaces sp₁ ∧ IsValue val ∧ IsSpaces sp' ∧
      IsEol e₁ ∧ sp ++ (w ++ (e ++ r')) = sp₁ ++ (val ++ (sp' ++ e₁)) ++ r₁ := by
    intro e r' he
    refine ⟨sp, w.rdropWhile (· == 0x20), w.rtakeWhile (· == 0x20), e, r', hsp,
      isValue_rdropWhile hall hhead, ?_, he, ?_⟩
    · rw [IsSpaces, all_eq_true]
      exact fun x hx => mem_rtakeWhile_imp (p := (· == 0x20)) hx
    · rw [← append_assoc (w.rdropWhile _), rdropWhile_append_rtakeWhile]
      simp
  rw [hw, hloop]
  rcases hr₄ with rfl | ⟨c', r₅, rfl, hc₅⟩
  · exact .inr isOther_nil
  by_cases hlf' : c' = LF
  · rw [hlf']
    exact .inl (hline [LF] r₅ (.inl rfl))
  have hcr' : c' = CR := by
    by_contra hno
    rw [isValChar, bne_iff_ne.mpr hno, bne_iff_ne.mpr hlf'] at hc₅
    cases hc₅
  subst hcr'
  obtain ⟨r', rfl⟩ | hother := lastLf_cases (d := d) { h with
    val := ⟨(([] ++ w).rdropWhile (· == 0x20)).length, i + sp.length⟩ } (i + sp.length + w.length + 1) r₅
  · exact .inl (hline [CR, LF] r' (.inr rfl))
  · refine .inr ?_
    rw [nexthdrLoop, hcr]
    exact hother

/-- **A text whose parsing comes to an end** begins with a header line or with an empty line. -/
theorem nexthdr_cases (hidx : h.idx = 0) :
    (∃ line name val r, HdrLine line name val ∧ (d.take 0xffff).drop h.len = line ++ r) ∨
    (∃ e r, IsEol e ∧ (d.take 0xffff).drop h.len = e ++ r) ∨
    IsOther (ffhttpNexthdr h d).2 := by
  rw [ffhttpNexthdr, hidx]
  show _ ∨ _ ∨ IsOther (nexthdrLoop d .key h h.len _).2
  generalize (d.take 0xffff).drop h.len = l
  cases l with
  | nil => exact .inr (.inr isOther_nil)
  | cons c l =>
    by_cases hlf : c = LF
    · exact .inr (.inl ⟨[LF], l, .inl rfl, by rw [hlf]; rfl⟩)
    by_cases hcr : c = CR
    · rw [hcr, nexthdrLoop]
      obtain ⟨r', hr'⟩ | hother := lastLf_cases (d := d) _ _ l
      · exact .inr (.inl ⟨[CR, LF], r', .inr rfl, by rw [hr']; rfl⟩)
      · exact .inr (.inr hother)
    by_cases hname : ffcharIsname c = true
    · obtain ⟨w, r, hw, hall, hr⟩ := span_cases isHdrChar (c :: l)
      have hwname : IsName w := by
        refine ⟨?_, hall⟩
        cases w with
        | nil =>
          obtain rfl | ⟨c', r', rfl, hc'⟩ := hr
          · cases hw
          · obtain ⟨rfl, -⟩ := List.cons.inj hw
            rw [isHdrChar, hname] at hc'
            cases hc'
        | cons c' w =>
          obtain ⟨rfl, -⟩ := List.cons.inj hw
          exact hname
      rw [hw]
      rcases hr with rfl | ⟨c', r', rfl, hc'⟩
      · refine .inr (.inr ?_)
        rw [loop_nameStart hwname]
        exact isOther_nil
      by_cases hcolon : c' = 0x3a
      · rw [hcolon, loop_key hwname]
        obtain ⟨sp, val, sp', e, r₁, hsp, hval, hsp', he, rfl⟩ | hother :=
          value_cases (d := d) { h with
            crc := w.foldl ffcrc32Iupdate ffcrc32Start
            key := ⟨w.length, h.len⟩ } (h.len + w.length + 1) r'
        · exact .inl ⟨_, w, val, r₁, .mk hwname hsp hval hsp' he, by simp⟩
        · exact .inr (.inr hother)
      refine .inr (.inr ?_)
      rw [loop_nameStart hwname]
      by_cases heol : c' = CR ∨ c' = LF
      · exact @isOther_fail _ _ .keyData _ _ _ _ _ .enoval
          (by show caseKeyData _ _ _ = _; rw [caseKeyData, if_neg hcolon, if_pos heol])
          ⟨by decide, by decide⟩
      have hno : (!(ffcharIsname c' || c' == 0x2d)) = true := by
        rw [← isHdrChar, hc']
        rfl
      exact @isOther_fail _ _ .keyData _ _ _ _ _ .ehdrkey
        (by show caseKeyData _ _ _ = _; rw [caseKeyData, if_neg hcolon, if_neg heol, if_pos hno])
        ⟨by decide, by decide⟩
    · refine .inr (.inr (@isOther_fail _ _ .key _
        { h with crc := ffcrc32Start, key := { h.key with off := h.len } } _ _ _ .ehdrkey ?_
        ⟨by decide, by decide⟩))
      show caseHdrKey h h.len c = _
      rw [caseHdrKey]
      simp [hlf, hcr, hname]

/-! ### The block of headers -/

/-- **The headers that repeated calls give** up to the end, with the state behind it. -/
inductive HdrRun (d : List UInt8) :
    FfhttpHdr → List (List UInt8 × List UInt8) → FfhttpHdr → Prop
  | fin {h h' : FfhttpHdr} (hcall : ffhttpNexthdr h d = (h', .done)) : HdrRun d h [] h'
  | cons {h h' h'' : FfhttpHdr} {hs : List (List UInt8 × List UInt8)}
      (hcall : ffhttpNexthdr h d = (h', .ok)) (hrun : HdrRun d h' hs h'') :
      HdrRun d h ((ffrangGet h'.key d, ffrangGet h'.val d) :: hs) h''

theorem drop_of_drop_eq {n i : ℕ} {w r : List UInt8} (hd : (d.take n).drop i = w ++ r) :
    (d.take n).drop (i + w.length) = r := by
  rw [← drop_drop, hd, drop_left]

theorem HdrRun.block {hs : List (List UInt8 × List UInt8)} {h' : FfhttpHdr}
    (hrun : HdrRun d h hs h') (hidx : h.idx = 0) :
    HdrBlock ((d.take 0xffff).drop h.len) hs ((d.take 0xffff).drop h'.len) := by
  induction hrun with
  | @fin h h' hcall =>
    rcases nexthdr_cases (d := d) hidx with ⟨_, _, _, r, hline, hd⟩ | ⟨e, r, he, hd⟩ | hother
    · obtain ⟨_, hok, -⟩ := nexthdr_line hline hd hidx
      rw [hcall] at hok
      cases hok
    · obtain ⟨_, hdone, hlen, -⟩ := nexthdr_fin he hd hidx
      obtain ⟨rfl, -⟩ := Prod.mk.inj (hcall.symm.trans hdone)
      rw [hlen, drop_of_drop_eq hd, hd]
      exact .fin he
    · rw [hcall] at hother
      exact absurd rfl hother.2
  | @cons h h' h'' hs hcall _ ih =>
    rcases nexthdr_cases (d := d) hidx with ⟨_, _, _, r, hline, hd⟩ | ⟨e, r, he, hd⟩ | hother
    · obtain ⟨_, hok, hhdr⟩ := nexthdr_line hline hd hidx
      obtain ⟨rfl, -⟩ := Prod.mk.inj (hcall.symm.trans hok)
      have hrest := ih hhdr.idx
      rw [hhdr.len, drop_of_drop_eq hd] at hrest
      rw [hhdr.key, hhdr.val, hd]
      exact .cons hline hrest
    · obtain ⟨_, hdone, -⟩ := nexthdr_fin he hd hidx
      rw [hcall] at hdone
      cases hdone
    · rw [hcall] at hother
      exact absurd rfl hother.1

theorem HdrBlock.run {text : List UInt8} {hs : List (List UInt8 × List UInt8)}
    (hblock : HdrBlock text hs rest) (hd : (d.take 0xffff).drop h.len = text) (hidx : h.idx = 0) :
    ∃ h', HdrRun d h hs h' ∧ (d.take 0xffff).drop h'.len = rest := by
  induction hblock generalizing h with
  | fin he =>
    obtain ⟨h', hcall, hlen, -⟩ := nexthdr_fin he hd hidx
    exact ⟨h', .fin hcall, by rw [hlen, drop_of_drop_eq hd]⟩
  | cons hline _ ih =>
    obtain ⟨h', hcall, hhdr⟩ := nexthdr_line hline hd hidx
    obtain ⟨h'', hrun, hrest⟩ := ih (by rw [hhdr.len, drop_of_drop_eq hd]) hhdr.idx
    refine ⟨h'', ?_, hrest⟩
    rw [← hhdr.key, ← hhdr.val]
    exact .cons hcall hrun

/-- **A block of headers is parsed** exactly if it is one: the calls give the names and the values
of its lines in order, and stop behind the empty line. -/
theorem hdrRun_iff (hidx : h.idx = 0) (hs : List (List UInt8 × List UInt8)) (rest : List UInt8) :
    (∃ h', HdrRun d h hs h' ∧ (d.take 0xffff).drop h'.len = rest) ↔
      HdrBlock ((d.take 0xffff).drop h.len) hs rest := by
  constructor
  · rintro ⟨h', hrun, rfl⟩
    exact hrun.block hidx
  · exact fun hblock => hblock.run rfl hidx

theorem hdrRun_host :
    ∃ h', HdrRun (ascii "Host: ff\r\n\r\n") ffhttpInithdr [(ascii "Host", ascii "ff")] h' ∧
      ((ascii "Host: ff\r\n\r\n").take 0xffff).drop h'.len = [] := by
  refine (hdrRun_iff rfl _ _).mpr ?_
  have hline : HdrLine (ascii "Host: ff\r\n") (ascii "Host") (ascii "ff") :=
    @HdrLine.mk (ascii "Host") [0x20] (ascii "ff") [] [CR, LF] ⟨by decide, by decide⟩ (by rfl)
      ⟨by decide, by decide, by decide⟩ rfl (.inr rfl)
  exact .cons hline (.fin (e := [CR, LF]) (.inr rfl))

end Header

end Http

end FF
