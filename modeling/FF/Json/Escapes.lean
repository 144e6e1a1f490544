import FF.Json.Document
import FF.Toint
import FF.Unicode

/-!
# The strings of a JSON text

What a string of a JSON text denotes, beside what the machine makes of it. The strings in which the
parser takes too much for an escape sequence are apart (`UniSlip`).
-/

namespace FF

open List Option

/-! ### What a string denotes -/

/-- A high surrogate -/
def IsHigh (u : ℕ) : Prop := 0xd800 ≤ u ∧ u < 0xdc00

/-- A low surrogate -/
def IsLow (u : ℕ) : Prop := 0xdc00 ≤ u ∧ u < 0xe000

instance (u : ℕ) : Decidable (IsHigh u) := inferInstanceAs (Decidable (_ ∧ _))

instance (u : ℕ) : Decidable (IsLow u) := inferInstanceAs (Decidable (_ ∧ _))

/-- **The code unit of four hexadecimal digits** at the start of a text, and the text behind
them. -/
def hexUnit (t : List UInt8) : Option (ℕ × List UInt8) :=
  if (t.take 4).length = 4 ∧ (t.take 4).all (fun d => (digitOf 16 d).isSome) then
    some (numVal (digitOf 16) 16 0 (t.take 4), t.drop 4)
  else none

/-- An escape sequence of a low surrogate at the start of a text. -/
def lowEscape (t : List UInt8) : Option (ℕ × List UInt8) :=
  if t.take 2 = [0x5c, 0x75] then (hexUnit (t.drop 2)).filter fun r => IsLow r.1 else none

/-- The UTF-8 encoding of a code point. -/
def utf8Of (cp : ℕ) : List UInt8 := String.utf8EncodeChar (Char.ofNat cp)

/-- **The character of an escape sequence** behind its `\u`: four hexadecimal digits, and behind
those of a high surrogate at once the sequence of a low one; with the text behind it. -/
def uniEscape (t : List UInt8) : Option (List UInt8 × List UInt8) := do
  let (u, r) ← hexUnit t
  if IsLow u then none
  else if IsHigh u then
    let (l, r) ← lowEscape r
    some (utf8Of (0x10000 + (u - 0xd800) * 1024 + (l - 0xdc00)), r)
  else some (utf8Of u, r)

/-- The first character or escape sequence of a text inside of a string, and the text behind it. -/
def strItem (t : List UInt8) : Option (List UInt8 × List UInt8) :=
  match t with
  | [] => none
  | c :: t =>
    if c = 0x22 ∨ c = 0x0a then none
    else if c ≠ 0x5c then some ([c], t)
    else
      match t with
      | [] => none
      | e :: t =>
        if e = 0x75 then uniEscape t
        else if e ∈ escchar then some ([escbyte.getD (escchar.idxOf e) 0], t)
        else none

theorem strItem_cons (c : UInt8) (t : List UInt8) : strItem (c :: t) =
    if c = 0x22 ∨ c = 0x0a then none
    else if c ≠ 0x5c then some ([c], t)
    else
      match t with
      | [] => none
      | e :: t =>
        if e = 0x75 then uniEscape t
        else if e ∈ escchar then some ([escbyte.getD (escchar.idxOf e) 0], t)
        else none := rfl

/-- **The text `t` goes on as `r` behind characters and escape sequences that denote `w`.** -/
inductive StrReads : List UInt8 → List UInt8 → List UInt8 → Prop
  | done (t) : StrReads t [] t
  | item {t r r' w w'} (h : strItem t = some (w, r)) (h' : StrReads r w' r') :
      StrReads t (w ++ w') r'

/-- Four characters with one that `ffchar_tohex` takes for the digit 9. -/
def HexSlip (t : List UInt8) : Prop := 0x40 ∈ t.take 4 ∨ 0x60 ∈ t.take 4

/-- An escape sequence of a single character. -/
def OtherEscape (t : List UInt8) : Prop :=
  (∃ e r, t = 0x5c :: e :: r ∧ e ∈ escchar) ∨
  ∃ t' u r, t = 0x5c :: 0x75 :: t' ∧ hexUnit t' = some (u, r) ∧ ¬IsHigh u ∧ ¬IsLow u

/-- **Escape sequences in which the parser takes too much**, behind their `\u`: with an `@` or a
grave accent in the place of a digit, or with another sequence than a surrogate behind a high
surrogate. -/
def UniSlip (t : List UInt8) : Prop :=
  HexSlip t ∨ ∃ u r, hexUnit t = some (u, r) ∧ IsHigh u ∧
    (OtherEscape r ∨ ∃ r', r = 0x5c :: 0x75 :: r' ∧ HexSlip r')

/-- None of the escape sequences of a string is such. -/
def NoSlip (t : List UInt8) : Prop :=
  ∀ w r, StrReads t w (0x5c :: 0x75 :: r) → ¬UniSlip r

/-! ### Code units -/

theorem hexUnit_lt {t r : List UInt8} {u : ℕ} (h : hexUnit t = some (u, r)) : u < 2 ^ 16 := by
  rw [hexUnit] at h
  split at h
  · next hds =>
      cases h
      have hlt := @numVal_lt (digitOf 16) 16 (by omega) (fun _ _ => digitOf_lt) (t.take 4)
      rwa [hds.1] at hlt
  · cases h

theorem hexUnit_some {t r : List UInt8} {u : ℕ} (h : hexUnit t = some (u, r)) :
    (t.take 4).length = 4 ∧ r = t.drop 4 := by
  rw [hexUnit] at h
  split at h
  · next hds =>
      cases h
      exact ⟨hds.1, rfl⟩
  · cases h

/-- The digits behind `\u` that `ffs_toint` takes. -/
theorem intTaken_hex4 {ds : List UInt8} (hslip : ¬(0x40 ∈ ds ∨ 0x60 ∈ ds)) :
    intTaken ds ⟨2, false, true, false⟩ = ds.takeWhile fun c => (digitOf 16 c).isSome := by
  change ds.takeWhile (fun c => (ffcharTohex c).isSome) = _
  induction ds with
  | nil => rfl
  | cons c ds ih =>
    have hc : ¬(c = 0x40 ∨ c = 0x60) := by
      rintro (rfl | rfl)
      · exact hslip (.inl mem_cons_self)
      · exact hslip (.inr mem_cons_self)
    have hrest : ¬(0x40 ∈ ds ∨ 0x60 ∈ ds) := by
      rintro (h | h)
      · exact hslip (.inl (mem_cons_of_mem _ h))
      · exact hslip (.inr (mem_cons_of_mem _ h))
    rw [takeWhile_cons, takeWhile_cons, ffcharTohex_eq, if_neg hc, ih hrest]

/-- **`ffjson_unescapechar` on four characters** -/
theorem ffjsonUnescapechar_unit {t : List UInt8} (hlen : (t.take 4).length = 4)
    (hslip : ¬HexSlip t) :
    ffjsonUnescapechar (0x75 :: t.take 4) =
      match hexUnit t with
      | some (u, _) => .char (UInt32.ofNat u)
      | none => .error := by
  obtain ⟨ds, hds⟩ : ∃ ds, ds = t.take 4 := ⟨_, rfl⟩
  have htaken := intTaken_hex4 hslip
  have hvalid : IntFlags.Valid ⟨2, false, true, false⟩ := .inr (.inl rfl)
  have hres := ffsToint_eq ds hvalid
  have hu : (0x75 : UInt8) ∉ escchar := by decide
  have hfour : ds.take 4 = ds := take_of_length_le (le_of_eq (hds ▸ hlen))
  have hlong : ¬((0x75 : UInt8) :: ds).length < 5 := by
    rw [length_cons, hds, hlen]
    omega
  have hun : ∀ sh, ffsToint ds ⟨2, false, true, false⟩ = some (4, sh) →
      ffjsonUnescapechar (0x75 :: ds) = .char (UInt32.ofNat sh) := by
    intro sh hsh
    simp only [ffjsonUnescapechar, if_neg hu, if_neg hlong, hfour, hsh, if_true]
  have hunNot : (∀ m sh, ffsToint ds ⟨2, false, true, false⟩ = some (m, sh) → m ≠ 4) →
      ffjsonUnescapechar (0x75 :: ds) = .error := by
    intro hno
    rw [ffjsonUnescapechar, if_neg hu, if_pos rfl, if_neg hlong, hfour]
    split
    · next sh hm => exact absurd rfl (hno 4 sh hm)
    · rfl
  simp only [hexUnit, ← hds] at hlen htaken ⊢
  by_cases hall : ∀ d ∈ ds, (digitOf 16 d).isSome
  · have hwhole : ds.takeWhile (fun c => (digitOf 16 c).isSome) = ds :=
      takeWhile_eq_self_iff.mpr hall
    have hval : numVal ffcharTohex 16 0 ds = numVal (digitOf 16) 16 0 ds := by
      refine numVal_congr (fun c hc => ?_) _ _
      obtain ⟨b, hb⟩ := isSome_iff_exists.mp (hall c hc)
      rw [hb, ffcharTohex_of_digitOf hb]
    have hlt : numVal (digitOf 16) 16 0 ds < 16 ^ 4 := by
      have := @numVal_lt (digitOf 16) 16 (by omega) (fun _ _ => digitOf_lt) ds
      rwa [hlen] at this
    have hword : numVal (IntFlags.digit ⟨2, false, true, false⟩)
        (IntFlags.base ⟨2, false, true, false⟩) 0 ds % 2 ^ 64 = numVal (digitOf 16) 16 0 ds := by
      change numVal ffcharTohex 16 0 ds % 2 ^ 64 = _
      rw [hval]
      exact Nat.mod_eq_of_lt (by omega)
    have hfits : ¬(ds = [] ∨ IntFlags.maxDigits ⟨2, false, true, false⟩ < ds.length ∨
        2 ^ IntFlags.bits ⟨2, false, true, false⟩ ≤ numVal (digitOf 16) 16 0 ds) := by
      change ¬(ds = [] ∨ 16 < ds.length ∨ 2 ^ 16 ≤ numVal (digitOf 16) 16 0 ds)
      rintro (rfl | h | h)
      · cases hlen
      · omega
      · omega
    have hread : ffsToint ds ⟨2, false, true, false⟩ =
        some (4, numVal (digitOf 16) 16 0 ds) := by
      rw [htaken, hwhole, hword, if_neg hfits, hlen] at hres
      refine hres.trans (congrArg some (Prod.ext rfl ?_))
      exact Nat.mod_eq_of_lt hlt
    rw [hun _ hread, if_pos ⟨hlen, all_eq_true.mpr hall⟩]
  have hshort : (ds.takeWhile fun c => (digitOf 16 c).isSome).length < 4 := by
    rw [← hlen]
    refine lt_of_le_of_ne ( takeWhile_prefix _).length_le fun heq => hall ?_
    exact takeWhile_eq_self_iff.mp (( takeWhile_prefix _).eq_of_length heq)
  have hno : ∀ m sh, ffsToint ds ⟨2, false, true, false⟩ = some (m, sh) → m ≠ 4 := by
    intro m sh hm
    rw [hres, htaken] at hm
    split at hm
    · cases hm
    · obtain ⟨hm, -⟩ := Prod.mk.inj (some.inj hm)
      change 0 + _ = m at hm
      omega
  rw [hunNot hno, if_neg (fun h => hall (all_eq_true.mp h.2))]

theorem ffjsonUnescapechar_short {ds : List UInt8} (h : ds.length < 4) :
    ffjsonUnescapechar (0x75 :: ds) = .incomplete := by
  have hu : (0x75 : UInt8) ∉ escchar := by decide
  have hlen : (0x75 :: ds).length < 5 := by
    rw [length_cons]
    omega
  rw [ffjsonUnescapechar, if_neg hu, if_pos rfl, if_pos hlen]

section Strings

variable {δ : Type} {floatVal : List UInt8 → δ} {a a' : Ffjson (List UInt8) δ}

/-! ### The machine on a code unit -/

/-- What `hdlEsc` makes of a character. -/
def escUnit (p : Ffjson (List UInt8) δ) (uch : UInt32) : Ffjson (List UInt8) δ × FfparsE :=
  if ffutf16Basic uch then escPut listOps p uch
  else if ffutf16Highsurr uch then
    if p.escUtf16 then (p, .eesc)
    else ({ p with escUtf16 := true, escHiword := uch, state := .quot }, .more)
  else if !p.escUtf16 then (p, .eesc)
  else escPut listOps { p with escUtf16 := false, escHiword := 0 } (ffutf16Suppl p.escHiword uch)

theorem jsonSwitch_quotEsc (hst : a.state = .quotEsc) (c : UInt8) :
    jsonSwitch listOps (fun _ => true) floatVal a c [c] = some (plain (hdlEsc listOps a c)) := by
  simp only [jsonSwitch, hst]

/-- A pass of `hdlEsc` -/
theorem hdlEsc_eq (hesc : a.esc.length < 5) (c : UInt8) :
    hdlEsc listOps a c =
      match ffjsonUnescapechar (a.esc ++ [c]) with
      | .error => ({ a with esc := a.esc ++ [c] }, .eesc)
      | .incomplete => ({ a with esc := a.esc ++ [c] }, .more)
      | .char uch => escUnit { a with esc := a.esc ++ [c] } uch := by
  rw [hdlEsc, if_neg (by omega)]
  rfl

/-- Fewer than four characters behind `\u` are kept. -/
theorem reach_digits (hst : a.state = .quotEsc) {pre ds : List UInt8}
    (hesc : a.esc = 0x75 :: pre) (hlen : pre.length + ds.length < 4) :
    Reach floatVal a ds [] .more { a with esc := 0x75 :: (pre ++ ds) } := by
  induction ds generalizing a pre with
  | nil =>
    rw [append_nil, ← hesc]
    exact .nil a
  | cons c ds ih =>
    rw [length_cons] at hlen
    have hshort : (pre ++ [c]).length < 4 := by
      rw [length_append, length_singleton]
      omega
    have hsw : jsonSwitch listOps (fun _ => true) floatVal a c [c] =
        some ({ a with esc := 0x75 :: (pre ++ [c]) }, .more, false) := by
      rw [jsonSwitch_quotEsc hst, hdlEsc_eq (by rw [hesc, length_cons]; omega), hesc,
        cons_append, ffjsonUnescapechar_short hshort]
    have hrest := @ih { a with esc := 0x75 :: (pre ++ [c]) } hst (pre ++ [c]) rfl (by
      rw [length_append, length_singleton]
      omega)
    rw [append_assoc, singleton_append] at hrest
    exact .cons hsw hrest

/-- The `u` of an escape sequence -/
theorem reach_u (hst : a.state = .quotEsc) (hesc : a.esc = []) :
    Reach floatVal a [0x75] [] .more { a with esc := [0x75] } := by
  refine .more ?_
  rw [jsonSwitch_quotEsc hst, hdlEsc_eq (by rw [hesc]; decide), hesc, nil_append,
    ffjsonUnescapechar_short (by decide)]

/-- **The last of four characters** behind `\u` -/
theorem reach_unit (hst : a.state = .quotEsc) (hesc : a.esc = []) {t : List UInt8}
    (hlen : (t.take 4).length = 4) (hslip : ¬HexSlip t) :
    ∃ b ds d, t.take 4 = ds ++ [d] ∧ Reach floatVal a (0x75 :: ds) [] .more b ∧
      jsonSwitch listOps (fun _ => true) floatVal b d [d] = some (plain
        (match hexUnit t with
        | some (u, _) => escUnit { a with esc := 0x75 :: t.take 4 } (UInt32.ofNat u)
        | none => ({ a with esc := 0x75 :: t.take 4 }, .eesc))) := by
  obtain ⟨ds, d, hds⟩ : ∃ ds d, t.take 4 = ds ++ [d] := by
    rcases eq_nil_or_concat (t.take 4) with h | ⟨ds, d, h⟩
    · rw [h] at hlen
      cases hlen
    · exact ⟨ds, d, h.trans (concat_eq_append ..)⟩
  have hthree : ds.length = 3 := by
    rw [hds, length_append, length_singleton] at hlen
    omega
  have hreach := (@reach_u _ floatVal _ hst hesc).append (by simp [FfparsE.verdict]) (.inr rfl)
    (@reach_digits _ floatVal { a with esc := [0x75] } hst [] ds rfl (by
      rw [hthree, length_nil]
      omega))
  obtain ⟨b, hb⟩ : ∃ b, b = { a with esc := 0x75 :: ds } := ⟨_, rfl⟩
  have hlast : { b with esc := 0x75 :: t.take 4 } = { a with esc := 0x75 :: t.take 4 } := by
    rw [hb]
  have hbst : b.state = .quotEsc := by
    rw [hb]
    exact hst
  have hbesc : b.esc = 0x75 :: ds := by rw [hb]
  refine ⟨b, ds, d, hds, by rw [hb]; exact hreach, ?_⟩
  rw [jsonSwitch_quotEsc hbst, hdlEsc_eq (by rw [hbesc, length_cons]; omega), hbesc,
    cons_append, ← hds, ffjsonUnescapechar_unit hlen hslip, hlast]
  cases hexUnit t with
  | none => rfl
  | some r => rfl

theorem reach_short (hst : a.state = .quotEsc) (hesc : a.esc = []) {t : List UInt8}
    (hlen : (t.take 4).length ≠ 4) : Reach floatVal a (0x75 :: t) [] .more
      { a with esc := 0x75 :: t } := by
  rw [length_take] at hlen
  exact (@reach_u _ floatVal _ hst hesc).append (by simp [FfparsE.verdict]) (.inr rfl)
    (@reach_digits _ floatVal { a with esc := [0x75] } hst [] t rfl (by
      rw [length_nil]
      omega))

theorem reach_unit_stop (hst : a.state = .quotEsc) (hesc : a.esc = []) {t : List UInt8}
    (hslip : ¬HexSlip t)
    (hstop : ∀ u r, hexUnit t = some (u, r) →
      (escUnit { a with esc := 0x75 :: t.take 4 } (UInt32.ofNat u)).2.verdict = .stop) :
    ∃ er a', Reach floatVal a (0x75 :: t) [] er a' := by
  by_cases hlen : (t.take 4).length = 4
  · obtain ⟨b, ds, d, hds, hreach, hsw⟩ := @reach_unit _ floatVal _ hst hesc _ hlen hslip
    have hsplit : t = ds ++ d :: t.drop 4 := by
      have happ := (take_append_drop 4 t).symm
      rw [hds, append_assoc] at happ
      exact happ
    rw [hsplit]
    cases hu : hexUnit t with
    | none =>
      rw [hu] at hsw
      exact ⟨_, _, hreach.append (by simp [FfparsE.verdict]) (.inr rfl) (.stop hsw rfl)⟩
    | some ur =>
      rw [hu] at hsw
      exact ⟨_, _, hreach.append (by simp [FfparsE.verdict]) (.inr rfl)
        (.stop hsw (hstop ur.1 ur.2 hu))⟩
  · exact ⟨_, _, reach_short hst hesc hlen⟩

theorem reach_unit_more (hst : a.state = .quotEsc) (hesc : a.esc = []) {t r : List UInt8} {u : ℕ}
    (hslip : ¬HexSlip t) (hu : hexUnit t = some (u, r))
    (hmore : escUnit { a with esc := 0x75 :: t.take 4 } (UInt32.ofNat u) = (a', .more)) :
    t = t.take 4 ++ r ∧ Reach floatVal a (0x75 :: t.take 4) [] .more a' := by
  obtain ⟨hlen, rfl⟩ := hexUnit_some hu
  obtain ⟨b, ds, d, hds, hreach, hsw⟩ := @reach_unit _ floatVal _ hst hesc _ hlen hslip
  rw [hu] at hsw
  simp only [hmore] at hsw
  rw [hds]
  exact ⟨by rw [← hds, take_append_drop],
    hreach.append (by simp [FfparsE.verdict]) (.inr rfl) (.more hsw)⟩

/-! ### Characters -/

theorem ffutf8Encode1_of {u : UInt32} (h : u.toNat.isValidChar) :
    ffutf8Encode1 8 u = utf8Of u.toNat := by
  have hval : (Char.ofNat u.toNat).val = u := by
    rw [Char.ofNat, dif_pos h]
    exact UInt32.toNat_inj.mp rfl
  rw [utf8Of, ← ffutf8Encode1_char, hval]

theorem ofNat_unit {u : ℕ} (h : u < 2 ^ 16) : (UInt32.ofNat u).toNat = u := by
  rw [UInt32.toNat_ofNat']
  exact Nat.mod_eq_of_lt (by omega)

theorem escUnit_basic {u : ℕ} (hlt : u < 2 ^ 16) (hhigh : ¬IsHigh u)
    (hlow : ¬IsLow u) :
    escUnit a (UInt32.ofNat u) = ({ a with buf := a.buf ++ utf8Of u, state := .quot }, .more) := by
  have hu := ofNat_unit hlt
  have hbasic : ffutf16Basic (UInt32.ofNat u) = true := by
    rw [ffutf16Basic_iff (by rw [hu]; exact hlt), hu]
    rw [IsHigh] at hhigh
    rw [IsLow] at hlow
    omega
  have hvalid : (UInt32.ofNat u).toNat.isValidChar := by
    rw [hu]
    rw [IsHigh] at hhigh
    rw [IsLow] at hlow
    omega
  rw [escUnit, if_pos hbasic, escPut, store_listOps, ffutf8Encode1_of hvalid, hu]

theorem ffutf16Basic_surrogate {u : ℕ} (hlt : u < 2 ^ 16) (h : IsHigh u ∨ IsLow u) :
    ¬ffutf16Basic (UInt32.ofNat u) = true := by
  have hu := ofNat_unit hlt
  rw [ffutf16Basic_iff (by rw [hu]; exact hlt), hu, not_not]
  rcases h with h | h
  · exact ⟨h.1, by have := h.2; omega⟩
  · exact ⟨by have := h.1; omega, h.2⟩

theorem escUnit_high {u : ℕ} (h : IsHigh u) :
    escUnit a (UInt32.ofNat u) =
      if a.escUtf16 then (a, .eesc)
      else ({ a with escUtf16 := true, escHiword := UInt32.ofNat u, state := .quot }, .more) := by
  have hlt : u < 2 ^ 16 := by
    have := h.2
    omega
  have hu := ofNat_unit hlt
  have hhigh : ffutf16Highsurr (UInt32.ofNat u) = true := by
    rw [ffutf16Highsurr_iff (by rw [hu]; exact hlt), hu]
    exact h
  rw [escUnit, if_neg (ffutf16Basic_surrogate hlt (.inl h)), if_pos hhigh]

theorem escUnit_low {u : ℕ} (h : IsLow u) :
    escUnit a (UInt32.ofNat u) =
      if !a.escUtf16 then (a, .eesc)
      else escPut listOps { a with escUtf16 := false, escHiword := 0 }
        (ffutf16Suppl a.escHiword (UInt32.ofNat u)) := by
  have hlt : u < 2 ^ 16 := by
    have := h.2
    omega
  have hu := ofNat_unit hlt
  have hhigh : ¬ffutf16Highsurr (UInt32.ofNat u) = true := by
    rw [ffutf16Highsurr_iff (by rw [hu]; exact hlt), hu]
    have := h.1
    omega
  rw [escUnit, if_neg (ffutf16Basic_surrogate hlt (.inr h)), if_neg hhigh]

/-! ### The machine on an escape sequence -/

/-- The state behind a high surrogate. -/
structure InPair (a : Ffjson (List UInt8) δ) (nextst : JsonIdx) (ctxs : List FfjsonT)
    (s : List UInt8) (u : ℕ) : Prop where
  state : a.state = .quot
  nextst : a.nextst = nextst
  ctxs : a.ctxs = ctxs
  buf : a.buf = s
  esc : a.escUtf16 = true
  hiword : a.escHiword = UInt32.ofNat u

variable {nextst : JsonIdx} {ctxs : List FfjsonT} {s : List UInt8}

theorem jsonSwitch_quot (hst : a.state = .quot) (c : UInt8) :
    jsonSwitch listOps (fun _ => true) floatVal a c [c] =
      some (plain (hdlQuote listOps a c [c])) := by
  simp only [jsonSwitch, hst]

theorem reach_backslash (hst : a.state = .quot) :
    Reach floatVal a [0x5c] [] .more { a with esc := [], state := .quotEsc } := by
  refine .more ((jsonSwitch_quot hst 0x5c).trans ?_)
  simp [plain, hdlQuote, quoteChar]

theorem reach_badEscape (hst : a.state = .quotEsc) (hesc : a.esc = []) {c : UInt8}
    (hu : c ≠ 0x75) (hc : c ∉ escchar) (t : List UInt8) :
    ∃ er a', Reach floatVal a (c :: t) [] er a' := by
  have hun : ffjsonUnescapechar [c] = .error := by
    rw [ffjsonUnescapechar, if_neg hc, if_neg hu]
  have hsw : jsonSwitch listOps (fun _ => true) floatVal a c [c] =
      some ({ a with esc := [c] }, .eesc, false) := by
    rw [jsonSwitch_quotEsc hst, hdlEsc_eq (by rw [hesc]; decide), hesc, nil_append, hun]
  exact ⟨_, _, .stop hsw rfl⟩

theorem lowEscape_some {t r : List UInt8} {l : ℕ} (h : lowEscape t = some (l, r)) :
    ∃ t', t = 0x5c :: 0x75 :: t' ∧ hexUnit t' = some (l, r) ∧ IsLow l := by
  rw [lowEscape] at h
  split at h
  · next htake =>
      obtain ⟨hunit, hlow⟩ := filter_eq_some_iff.mp h
      refine ⟨t.drop 2, ?_, hunit, of_decide_eq_true hlow⟩
      have happ := (take_append_drop 2 t).symm
      rw [htake] at happ
      exact happ
  · cases h

theorem lowEscape_u (t : List UInt8) :
    lowEscape (0x5c :: 0x75 :: t) = (hexUnit t).filter fun r => IsLow r.1 := rfl

theorem reach_pairChar {u : ℕ} (ha : InPair a nextst ctxs s u) {c : UInt8} (hc : c ≠ 0x5c)
    (t : List UInt8) : ∃ er a', Reach floatVal a (c :: t) [] er a' := by
  have hstop : (hdlQuote listOps a c [c]).2 = .eesc := by
    simp only [hdlQuote, quoteChar, if_neg hc]
    by_cases h1 : c = 0x22
    · simp only [if_pos h1]
      by_cases hk : a.nextst = .key
      · simp [if_pos hk, ha.esc]
      · simp [if_neg hk, ha.esc]
    · simp only [if_neg h1]
      by_cases h2 : c = 0x0a
      · simp [if_pos h2, ha.esc, ha.state]
      · simp [if_neg h2, ha.esc, ha.state]
  exact ⟨_, _, .stop (jsonSwitch_quot ha.state c) (by rw [hstop]; rfl)⟩

/-- **The low surrogate** of a pair -/
theorem reach_lowUnit {u : ℕ} (ha : InPair a nextst ctxs s u) (hu : IsHigh u)
    {t r : List UInt8} {l : ℕ} (hslip : ¬HexSlip t) (hunit : hexUnit t = some (l, r))
    (hl : IsLow l) :
    t = t.take 4 ++ r ∧ ∃ a', Reach floatVal a (0x5c :: 0x75 :: t.take 4) [] .more a' ∧
      InStr a' nextst ctxs (s ++ utf8Of (0x10000 + (u - 0xd800) * 1024 + (l - 0xdc00))) := by
  have hlu : u < 2 ^ 16 := by
    have := hu.2
    omega
  obtain ⟨cp, hcp⟩ : ∃ cp, cp = ffutf16Suppl (UInt32.ofNat u) (UInt32.ofNat l) := ⟨_, rfl⟩
  have hval : cp.toNat = 0x10000 + (u - 0xd800) * 1024 + (l - 0xdc00) := by
    have h1 := ofNat_unit hlu
    have h2 := ofNat_unit (hexUnit_lt hunit)
    rw [hcp, ffutf16Suppl_toNat (by rw [h1]; exact hu) (by rw [h2]; exact hl), h1, h2]
  have hvalid : cp.toNat.isValidChar := by
    have h1 := hu.2
    have h2 := hl.2
    refine .inr ⟨?_, ?_⟩
    · omega
    · omega
  have hput : escUnit { a with state := .quotEsc, esc := 0x75 :: t.take 4 } (UInt32.ofNat l) =
      ({ a with
          esc := 0x75 :: t.take 4
          escUtf16 := false
          escHiword := 0
          buf := a.buf ++ utf8Of cp.toNat
          state := .quot }, .more) := by
    rw [escUnit_low hl]
    simp only [ha.esc, ha.hiword, Bool.not_true, Bool.false_eq_true, if_false, escPut,
      store_listOps, ← hcp, ffutf8Encode1_of hvalid]
  obtain ⟨hsplit, hreach⟩ := @reach_unit_more _ floatVal
    { a with esc := [], state := .quotEsc } _ rfl rfl _ _ _ hslip hunit hput
  refine ⟨hsplit, _, (reach_backslash ha.state).append (by simp [FfparsE.verdict]) (.inr rfl)
    hreach, rfl, ha.nextst, ha.ctxs, ?_, rfl⟩
  rw [← ha.buf, ← hval]

/-- **Behind a high surrogate** the sequence of a low one must follow at once. -/
theorem reach_low {u : ℕ} (ha : InPair a nextst ctxs s u) (hu : IsHigh u) {t : List UInt8}
    (hother : ¬OtherEscape t) (hslip : ¬∃ r, t = 0x5c :: 0x75 :: r ∧ HexSlip r) :
    (∀ l r, lowEscape t = some (l, r) → ∃ w a', t = w ++ r ∧ Reach floatVal a w [] .more a' ∧
      InStr a' nextst ctxs (s ++ utf8Of (0x10000 + (u - 0xd800) * 1024 + (l - 0xdc00)))) ∧
    (lowEscape t = none → ∃ er a', Reach floatVal a t [] er a') := by
  constructor
  · intro l r h
    obtain ⟨t', rfl, hunit, hlow⟩ := lowEscape_some h
    obtain ⟨hsplit, a', hreach, ha'⟩ := @reach_lowUnit _ floatVal _ _ _ _ _ ha hu _ _ _
      (fun h => hslip ⟨t', rfl, h⟩) hunit hlow
    refine ⟨0x5c :: 0x75 :: t'.take 4, a', ?_, hreach, ha'⟩
    rw [cons_append, cons_append, ← hsplit]
  intro h
  cases t with
  | nil => exact ⟨_, _, .nil a⟩
  | cons c t =>
    by_cases hc : c = 0x5c
    · rw [hc]
      cases t with
      | nil => exact ⟨_, _, reach_backslash ha.state⟩
      | cons e t =>
        have hback := @reach_backslash _ floatVal _ ha.state
        have hnext : ∃ er a', Reach floatVal { a with esc := [], state := .quotEsc }
            (e :: t) [] er a' := by
          by_cases he : e = 0x75
          · rw [hc, he] at h hother hslip
            rw [he]
            refine reach_unit_stop rfl rfl (fun hs => hslip ⟨t, rfl, hs⟩) fun v r hv => ?_
            have hlow : ¬IsLow v := by
              intro hlow
              rw [lowEscape_u, hv, filter_some, if_pos (by simpa using hlow)] at h
              cases h
            have hhigh : IsHigh v := by
              by_contra hhigh
              exact hother (.inr ⟨t, v, r, rfl, hv, hhigh, hlow⟩)
            rw [escUnit_high hhigh]
            simp only [ha.esc, if_true]
            rfl
          · have hesc : e ∉ escchar := fun hm => hother (.inl ⟨e, t, by rw [hc], hm⟩)
            exact reach_badEscape rfl rfl he hesc t
        obtain ⟨er, a', hreach⟩ := hnext
        exact ⟨er, a', hback.append (by simp [FfparsE.verdict]) (.inr rfl) hreach⟩
    · exact reach_pairChar ha hc t

/-- **The machine on the sequence of a code unit** -/
theorem reach_uni (hst : a.state = .quotEsc) (hesc : a.esc = [])
    (ha : InStr { a with state := .quot } nextst ctxs s) {t : List UInt8} (hslip : ¬UniSlip t) :
    (∀ w r, uniEscape t = some (w, r) → ∃ ds a', t = ds ++ r ∧
      Reach floatVal a (0x75 :: ds) [] .more a' ∧ InStr a' nextst ctxs (s ++ w)) ∧
    (uniEscape t = none → ∃ er a', Reach floatVal a (0x75 :: t) [] er a') := by
  have hhex : ¬HexSlip t := fun h => hslip (.inl h)
  have hflag : a.escUtf16 = false := ha.esc
  rw [uniEscape]
  cases hunit : hexUnit t with
  | none =>
    refine ⟨fun w r h => (by cases h), fun _ => reach_unit_stop hst hesc hhex ?_⟩
    intro u r h
    rw [hunit] at h
    cases h
  | some ur =>
    obtain ⟨u, r⟩ := ur
    have hlt := hexUnit_lt hunit
    simp only [bind_eq_bind, bind_some]
    by_cases hlow : IsLow u
    · rw [if_pos hlow]
      refine ⟨fun w r h => (by cases h), fun _ => reach_unit_stop hst hesc hhex ?_⟩
      intro u' r' h
      rw [hunit] at h
      cases h
      rw [escUnit_low hlow]
      simp only [hflag]
      rfl
    rw [if_neg hlow]
    by_cases hhigh : IsHigh u
    · rw [if_pos hhigh]
      obtain ⟨hsplit, hreach⟩ := @reach_unit_more _ floatVal _ _ hst hesc _ _ _ hhex hunit (by
        rw [escUnit_high hhigh]
        exact if_neg (by simp [hflag]))
      have hpair := @reach_low _ floatVal { a with
          esc := 0x75 :: t.take 4
          escUtf16 := true
          escHiword := UInt32.ofNat u
          state := .quot } _ _ _ _ ⟨rfl, ha.nextst, ha.ctxs, ha.buf, rfl, rfl⟩ hhigh r
        (fun h => hslip (.inr ⟨u, r, hunit, hhigh, .inl h⟩))
        (fun h => hslip (.inr ⟨u, r, hunit, hhigh, .inr h⟩))
      constructor
      · intro w r' h
        obtain ⟨⟨l, r₁⟩, hl, h⟩ := bind_eq_some_iff.mp h
        obtain ⟨rfl, rfl⟩ := Prod.mk.inj (some.inj h)
        obtain ⟨w', a', hr, hreach', ha'⟩ := hpair.1 l _ hl
        refine ⟨t.take 4 ++ w', a', ?_, hreach.append (by simp [FfparsE.verdict]) (.inr rfl)
          hreach', ha'⟩
        rw [append_assoc, ← hr]
        exact hsplit
      intro h
      have hnone : lowEscape r = none := by
        cases hl : lowEscape r with
        | none => rfl
        | some lr =>
          rw [hl] at h
          cases h
      obtain ⟨er, a', hreach'⟩ := hpair.2 hnone
      rw [hsplit]
      exact ⟨er, a', hreach.append (by simp [FfparsE.verdict]) (.inr rfl) hreach'⟩
    rw [if_neg hhigh]
    obtain ⟨hsplit, hreach⟩ := @reach_unit_more _ floatVal _ _ hst hesc _ _ _ hhex hunit
      (escUnit_basic hlt hhigh hlow)
    refine ⟨fun w r' h => ?_, fun h => by cases h⟩
    obtain ⟨rfl, rfl⟩ := Prod.mk.inj (some.inj h)
    exact ⟨_, _, hsplit, hreach, rfl, ha.nextst, ha.ctxs, congrArg (· ++ _) ha.buf, ha.esc⟩

/-! ### The machine on a string -/

/-- **The machine on a character or an escape sequence** -/
theorem reach_item (ha : InStr a nextst ctxs s) {t w r : List UInt8}
    (hslip : ∀ t', t = 0x5c :: 0x75 :: t' → ¬UniSlip t') (h : strItem t = some (w, r)) :
    ∃ ds a', t = ds ++ r ∧ ds ≠ [] ∧ Reach floatVal a ds [] .more a' ∧
      InStr a' nextst ctxs (s ++ w) := by
  cases t with
  | nil => cases h
  | cons c t =>
    rw [strItem_cons] at h
    by_cases hq : c = 0x22 ∨ c = 0x0a
    · rw [if_pos hq] at h
      cases h
    rw [if_neg hq] at h
    by_cases hc : c ≠ 0x5c
    · rw [if_pos hc] at h
      obtain ⟨rfl, rfl⟩ := Prod.mk.inj (some.inj h)
      refine ⟨[c], { a with buf := a.buf ++ [c] }, rfl, cons_ne_nil _ _, .more ?_, ha.state,
        ha.nextst, ha.ctxs, congrArg (· ++ _) ha.buf, ha.esc⟩
      rw [jsonSwitch_quot ha.state]
      simp only [plain, hdlQuote, quoteChar, if_neg (not_or.mp hq).1, if_neg hc,
        if_neg (not_or.mp hq).2, addByte_listOps, ha.esc]
      rfl
    rw [if_neg hc] at h
    obtain rfl := not_not.mp hc
    have hback := @reach_backslash _ floatVal _ ha.state
    cases t with
    | nil => cases h
    | cons e t =>
      simp only at h
      by_cases he : e = 0x75
      · rw [if_pos he] at h
        rw [he]
        obtain ⟨ds, a', hsplit, hreach, ha'⟩ := (@reach_uni _ floatVal
          { a with esc := [], state := .quotEsc } _ _ _ rfl rfl
          ⟨rfl, ha.nextst, ha.ctxs, ha.buf, ha.esc⟩ t (hslip t (by rw [he]))).1 w r h
        refine ⟨0x5c :: 0x75 :: ds, a', ?_, cons_ne_nil _ _,
          hback.append (by simp [FfparsE.verdict]) (.inr rfl) hreach, ha'⟩
        rw [hsplit]
        rfl
      rw [if_neg he] at h
      by_cases hm : e ∈ escchar
      · rw [if_pos hm] at h
        obtain ⟨rfl, rfl⟩ := Prod.mk.inj (some.inj h)
        have hall : escchar.all
            (fun e => EscSeq (escbyte.getD (escchar.idxOf e) 0) [e]) = true := rfl
        have hseq := of_decide_eq_true (all_eq_true.mp hall e hm)
        obtain ⟨a', hreach, ha'⟩ := @reach_escSeq _ floatVal _ _ hseq [] _ rfl
          (cons_ne_nil _ _) { a with esc := [], state := .quotEsc } _ _ _ rfl rfl
          ⟨rfl, ha.nextst, ha.ctxs, ha.buf, ha.esc⟩
        exact ⟨[0x5c, e], a', rfl, cons_ne_nil _ _,
          hback.append (by simp [FfparsE.verdict]) (.inr rfl) hreach, ha'⟩
      · rw [if_neg hm] at h
        cases h

/-- **Where there is neither, nor a closing quote**, no event is given. -/
theorem reach_badItem (ha : InStr a nextst ctxs s) {t : List UInt8}
    (hslip : ∀ t', t = 0x5c :: 0x75 :: t' → ¬UniSlip t') (h : strItem t = none)
    (hquote : ∀ r, t ≠ 0x22 :: r) : ∃ er a', Reach floatVal a t [] er a' := by
  cases t with
  | nil => exact ⟨_, _, .nil a⟩
  | cons c t =>
    rw [strItem_cons] at h
    have hc22 : c ≠ 0x22 := by
      rintro rfl
      exact hquote t rfl
    by_cases hnl : c = 0x0a
    · have hback : c ≠ 0x5c := by
        rw [hnl]
        decide
      have hchar : quoteChar listOps a c [c] = (a, .ebadchar) := by
        rw [quoteChar, if_neg hc22, if_neg hback, if_pos hnl]
      have hsw : jsonSwitch listOps (fun _ => true) floatVal a c [c] =
          some (a, .ebadchar, false) := by
        rw [jsonSwitch_quot ha.state]
        simp only [plain, hdlQuote, hchar, ha.esc]
        rfl
      exact ⟨_, _, .stop hsw rfl⟩
    rw [if_neg (not_or.mpr ⟨hc22, hnl⟩)] at h
    by_cases hc : c ≠ 0x5c
    · rw [if_pos hc] at h
      cases h
    rw [if_neg hc] at h
    obtain rfl := not_not.mp hc
    have hback := @reach_backslash _ floatVal _ ha.state
    cases t with
    | nil => exact ⟨_, _, hback⟩
    | cons e t =>
      simp only at h
      have hnext : ∃ er a', Reach floatVal { a with esc := [], state := .quotEsc }
          (e :: t) [] er a' := by
        by_cases he : e = 0x75
        · rw [if_pos he] at h
          rw [he]
          exact (@reach_uni _ floatVal { a with esc := [], state := .quotEsc } _ _ _ rfl rfl
            ⟨rfl, ha.nextst, ha.ctxs, ha.buf, ha.esc⟩ t (hslip t (by rw [he]))).2 h
        · rw [if_neg he] at h
          refine reach_badEscape rfl rfl he (fun hm => ?_) t
          rw [if_pos hm] at h
          cases h
      obtain ⟨er, a', hreach⟩ := hnext
      exact ⟨er, a', hback.append (by simp [FfparsE.verdict]) (.inr rfl) hreach⟩

theorem Reach.unique {d : List UInt8} {es es' : List (JsonEvent δ)} {er er' : FfparsE}
    {b b' : Ffjson (List UInt8) δ} (h : Reach floatVal a d es er b)
    (h' : Reach floatVal a d es' er' b') : es = es' := by
  obtain ⟨n, l, p, h⟩ := h
  obtain ⟨n', l', p', h'⟩ := h'
  exact (Prod.mk.inj (Prod.mk.inj (jsonRun_unique h h')).2).1

theorem reach_total (ha : JsonInv a) (t : List UInt8) : ∃ es er b, Reach floatVal a t es er b := by
  obtain ⟨⟨b, es, er⟩, h⟩ := jsonRun_total floatVal ha .more t le_rfl
  exact ⟨es, er, b, _, b.line, b.ch, h⟩

theorem InStr.inv (ha : InStr a nextst ctxs s) : JsonInv a := by
  simp only [JsonInv, ha.state]

theorem strReads_iff {t w t' : List UInt8} : StrReads t w t' ↔
    (w = [] ∧ t = t') ∨ ∃ v r w', strItem t = some (v, r) ∧ StrReads r w' t' ∧ w = v ++ w' := by
  constructor
  · intro h
    cases h with
    | done => exact .inl ⟨rfl, rfl⟩
    | item h' hr => exact .inr ⟨_, _, _, h', hr, rfl⟩
  · rintro (⟨rfl, rfl⟩ | ⟨v, r, w', h, hr, rfl⟩)
    · exact .done t
    · exact .item h hr

theorem NoSlip.item {t w r : List UInt8} (h : NoSlip t) (hitem : strItem t = some (w, r)) :
    NoSlip r := fun v r' hr => h (w ++ v) r' (.item hitem hr)

theorem NoSlip.head {t : List UInt8} (h : NoSlip t) :
    ∀ t', t = 0x5c :: 0x75 :: t' → ¬UniSlip t' := by
  rintro t' rfl
  exact h [] t' (.done _)

theorem reach_quote_first (ha : InStr a nextst ctxs s) {t : List UInt8}
    {es : List (JsonEvent δ)} {er : FfparsE} (hr : Reach floatVal a (0x22 :: t) es er a') :
    ∃ e es', es = e :: es' ∧ e.type = .str ∧ e.val = s := by
  have hv : (if nextst = .key then FfparsE.key else .val).verdict = .event := by
    split <;> rfl
  obtain ⟨b, hb⟩ : ∃ b : Ffjson (List UInt8) δ, b = { a with
      type := .str
      state := .iwspace
      nextst := if nextst = .key then .afterKey else .afterVal } := ⟨_, rfl⟩
  have hquote := @reach_quote _ floatVal _ _ _ _ ha
  rw [← hb] at hquote
  have hinv : JsonInv b := by
    rw [hb]
    by_cases hk : nextst = .key
    · rw [if_pos hk]
      trivial
    · rw [if_neg hk]
      trivial
  have htype : b.type = .str := by rw [hb]
  cases t with
  | nil =>
    obtain rfl := hquote.unique hr
    exact ⟨_, [], rfl, htype, rfl⟩
  | cons c t =>
    obtain ⟨es', er', b', hr'⟩ := @reach_total _ floatVal _ hinv (c :: t)
    obtain rfl := (hquote.append (by rw [hv]; exact Verdict.noConfusion)
      (.inl (cons_ne_nil _ _)) hr').unique hr
    exact ⟨_, es', rfl, htype, rfl⟩

/-- **The machine reports a string exactly where there is one**, with its value. -/
theorem reach_string {t : List UInt8} (ha : InStr a nextst ctxs s) (hslip : NoSlip t)
    {es : List (JsonEvent δ)} {er : FfparsE} (hr : Reach floatVal a t es er a')
    (v : List UInt8) :
    (∃ e, es.head? = some e ∧ e.type = .str ∧ e.val = v) ↔
      ∃ w r, StrReads t w (0x22 :: r) ∧ v = s ++ w := by
  generalize hn : t.length = n
  induction n using Nat.strong_induction_on generalizing t a s es er a' with
  | _ n ih =>
    cases hitem : strItem t with
    | some wr =>
      obtain ⟨w, r⟩ := wr
      obtain ⟨ds, b, rfl, hds, hreach, hb⟩ :=
        @reach_item _ floatVal _ _ _ _ ha _ _ _ hslip.head hitem
      have hlen : r.length < n := by
        rw [← hn, length_append]
        have := length_pos_iff.mpr hds
        omega
      have hquote : ∀ r', ds ++ r ≠ 0x22 :: r' := by
        intro r' h
        rw [h, strItem_cons, if_pos (.inl rfl)] at hitem
        cases hitem
      obtain ⟨es', er', b', hr'⟩ := @reach_total _ floatVal _ hb.inv r
      obtain rfl : [] ++ es' = es :=
        (hreach.append (by simp [FfparsE.verdict]) (.inr rfl) hr').unique hr
      rw [nil_append, ih r.length hlen hb (hslip.item hitem) hr' rfl]
      constructor
      · rintro ⟨w', r', hw', rfl⟩
        exact ⟨w ++ w', r', .item hitem hw', append_assoc ..⟩
      rintro ⟨w', r', hw', rfl⟩
      rcases strReads_iff.mp hw' with ⟨-, ht⟩ | ⟨v, r₁, v', hitem', hv', rfl⟩
      · exact absurd ht (hquote r')
      · rw [hitem] at hitem'
        obtain ⟨rfl, rfl⟩ := Prod.mk.inj (some.inj hitem')
        exact ⟨v', r', hv', (append_assoc ..).symm⟩
    | none =>
      have hnone : ∀ w r, StrReads t w (0x22 :: r) → t = 0x22 :: r ∧ w = [] := by
        intro w r h
        rcases strReads_iff.mp h with ⟨rfl, rfl⟩ | ⟨v, r', w', h', -⟩
        · exact ⟨rfl, rfl⟩
        · rw [hitem] at h'
          cases h'
      by_cases hquote : ∃ r, t = 0x22 :: r
      · obtain ⟨r, rfl⟩ := hquote
        obtain ⟨e, es', rfl, htype, hval⟩ : ∃ e es', es = e :: es' ∧ e.type = .str ∧
            e.val = s := reach_quote_first ha hr
        constructor
        · rintro ⟨e', he', -, rfl⟩
          obtain rfl := some.inj he'
          exact ⟨[], r, .done _, by rw [hval, append_nil]⟩
        · rintro ⟨w, r', hw, rfl⟩
          obtain ⟨-, rfl⟩ := hnone w r' hw
          exact ⟨e, rfl, htype, by rw [hval, append_nil]⟩
      obtain ⟨er', b', hr'⟩ := @reach_badItem _ floatVal _ _ _ _ ha _ hslip.head hitem
        fun r h => hquote ⟨r, h⟩
      obtain rfl := hr'.unique hr
      constructor
      · rintro ⟨e, he, -⟩
        cases he
      · rintro ⟨w, r, hw, -⟩
        exact absurd ⟨r, (hnone w r hw).1⟩ hquote

end Strings

end FF
