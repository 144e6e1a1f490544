import Mathlib.Algebra.Ring.Nat

/-!
# Tracks of a CUE sheet

`ffcue_index` of `FF/data/ffcue.c`: the times of the `INDEX` lines arrive as events, and the
function returns the range of a track as soon as it is known. How the gap before a track is
treated is an option (`enum FFCUE_GAP`).

The documentation of the option is `cueStart` and `cueEnd`. A track that has no `INDEX 00` line has
no gap, so that its gap begins with the track; the end of the last track is not known, and the
program returns 0 for it.
-/

namespace FF

open List

/-! ### Program -/

/-- `enum FFCUE_T`. -/
inductive FfcueT
  | remName
  | remVal
  | performer
  | title
  | file
  | filetype
  | trackno
  | trkTitle
  | trkPerformer
  | trkIndex00
  | trkIndex
  | fin
  deriving DecidableEq, Repr

/-- `enum FFCUE_GAP`. -/
inductive FfcueGap
  | gapPrev
  | gapPrev1
  | gapCurr
  | gapSkip
  deriving DecidableEq, Repr

/-- `ffcuetrk`. -/
structure Ffcuetrk where
  «from» : ℕ
  «to» : ℕ
  deriving DecidableEq, Repr

/-- `ffcue`. -/
structure Ffcue where
  options : FfcueGap
  «from» : ℕ
  trk : Ffcuetrk
  first : Bool
  next : Bool
  deriving DecidableEq, Repr

/-- `-1` as a number of 32 bits: the time is not known. -/
def cueNone : ℕ := 2 ^ 32 - 1

/-- `ffcue_index`. -/
def ffcueIndex (c : Ffcue) (type : FfcueT) (val : ℕ) : Ffcue × Option Ffcuetrk :=
  match type with
  | .file => ({ c with «from» := cueNone, first := true }, none)
  | .trackno => ({ c with trk := ⟨cueNone, cueNone⟩, next := false }, none)
  | .trkIndex00 =>
    if c.first then
      if c.options = .gapPrev1 ∨ c.options = .gapCurr then ({ c with «from» := val }, none)
      else (c, none)
    else if c.options = .gapSkip then ({ c with trk := { c.trk with «to» := val } }, none)
    else if c.options = .gapCurr then
      ({ c with trk := ⟨c.«from», val⟩, «from» := val }, none)
    else (c, none)
  | .trkIndex =>
    if c.first then
      ({ c with first := false, «from» := if c.«from» = cueNone then val else c.«from» }, none)
    else if c.next then (c, none) -- skip "INDEX XX" after "INDEX 01"
    else
      let c :=
        if c.trk.«from» = cueNone then
          { c with trk := { c.trk with «from» := c.«from» }, «from» := val }
        else c
      let trk : Ffcuetrk := ⟨c.trk.«from», if c.trk.«to» = cueNone then val else c.trk.«to»⟩
      ({ c with trk := trk, next := true }, some trk)
  | .fin => ({ c with trk := ⟨c.«from», 0⟩ }, some ⟨c.«from», 0⟩)
  | _ => (c, none)

/-- The state behind some events. -/
@[grind =] def cueState : Ffcue → List (FfcueT × ℕ) → Ffcue
  | c, [] => c
  | c, e :: es => cueState (ffcueIndex c e.1 e.2).1 es

/-- The ranges that are returned for some events. -/
@[grind =] def cueRun : Ffcue → List (FfcueT × ℕ) → List Ffcuetrk
  | _, [] => []
  | c, e :: es => (ffcueIndex c e.1 e.2).2.toList ++ cueRun (ffcueIndex c e.1 e.2).1 es

/-! ### Track lists and the documentation -/

/-- The times of a track, in CD frames. Those that `ffcue_parse` reads are known
(`cueTime_lt`). -/
structure CueTrack where
  index00 : Option ℕ
  index01 : ℕ
  more : List ℕ
  known00 : ∀ t ∈ index00, t < cueNone
  known01 : index01 < cueNone

/-- The value of an `INDEX` line in `ffcue_parse`, whose numbers have two digits. -/
def cueTime (m sec f : ℕ) : ℕ := (m * 60 + sec) * 75 + f

/-- The `INDEX` lines behind the first two. -/
def moreEvents (ts : List ℕ) : List (FfcueT × ℕ) := ts.map fun t => (.trkIndex, t)

/-- The events of a track up to `INDEX 01`. -/
def CueTrack.base (t : CueTrack) : List (FfcueT × ℕ) :=
  (.trackno, 0) ::
    ((t.index00.toList.map fun v => (FfcueT.trkIndex00, v)) ++ [(FfcueT.trkIndex, t.index01)])

/-- The events of a track. -/
def CueTrack.events (t : CueTrack) : List (FfcueT × ℕ) := t.base ++ moreEvents t.more

/-- The events of a track list that `ffcue_index` looks at. -/
def cueEvents (ts : List CueTrack) : List (FfcueT × ℕ) :=
  (.file, 0) :: ts.flatMap CueTrack.events

/-- The events without those that `ffcue_index` ignores, and without values that it ignores. -/
@[grind =] def cueStrip : List (FfcueT × ℕ) → List (FfcueT × ℕ)
  | [] => []
  | (.file, _) :: es => (.file, 0) :: cueStrip es
  | (.trackno, _) :: es => (.trackno, 0) :: cueStrip es
  | (.trkIndex00, v) :: es => (.trkIndex00, v) :: cueStrip es
  | (.trkIndex, v) :: es => (.trkIndex, v) :: cueStrip es
  | (.fin, _) :: es => (.fin, 0) :: cueStrip es
  | _ :: es => cueStrip es

/-- Where the gap before a track begins. -/
def CueTrack.gap (t : CueTrack) : ℕ := t.index00.getD t.index01

/-- The start of a track in the documentation of the option. -/
def cueStart (g : FfcueGap) (first : Bool) (t : CueTrack) : ℕ :=
  match g with
  | .gapPrev => t.index01
  | .gapPrev1 => if first then t.gap else t.index01
  | .gapCurr => t.gap
  | .gapSkip => t.index01

/-- The end of a track in the documentation of the option, by the track behind it. -/
def cueEnd (g : FfcueGap) (t : CueTrack) : ℕ :=
  match g with
  | .gapPrev => t.index01
  | .gapPrev1 => t.index01
  | .gapCurr => t.gap
  | .gapSkip => t.gap

/-- The ranges of the documentation. -/
@[grind =] def cueRanges (g : FfcueGap) : Bool → List CueTrack → List Ffcuetrk
  | _, [] => []
  | first, t :: ts => ⟨cueStart g first t, (ts.head?.map (cueEnd g)).getD 0⟩ :: cueRanges g false ts

theorem cueRanges_length (g : FfcueGap) (first : Bool) (ts : List CueTrack) :
    (cueRanges g first ts).length = ts.length := by
  induction ts generalizing first with
  | nil => rfl
  | cons t ts ih => rw [cueRanges, length_cons, length_cons, ih]

/-! ### Steps -/

section Steps

variable {c : Ffcue} {g : FfcueGap} {s : ℕ}

theorem cueRun_append (c : Ffcue) (es es' : List (FfcueT × ℕ)) :
    cueRun c (es ++ es') = cueRun c es ++ cueRun (cueState c es) es' := by
  induction es generalizing c with
  | nil => rfl
  | cons e es ih =>
    rw [cons_append, cueRun, ih, cueRun, cueState, append_assoc]

theorem cueState_append (c : Ffcue) (es es' : List (FfcueT × ℕ)) :
    cueState c (es ++ es') = cueState (cueState c es) es' := by
  induction es generalizing c with
  | nil => rfl
  | cons e es ih => rw [cons_append, cueState, ih, cueState]

/-- **Other events** change nothing. -/
theorem cueRun_strip (c : Ffcue) (es : List (FfcueT × ℕ)) :
    cueRun c es = cueRun c (cueStrip es) := by
  induction es generalizing c with
  | nil => rfl
  | cons e es ih =>
    obtain ⟨t, v⟩ := e
    cases t <;> simp [cueRun, cueStrip, ffcueIndex, ih]

theorem cueStrip_append (es es' : List (FfcueT × ℕ)) :
    cueStrip (es ++ es') = cueStrip es ++ cueStrip es' := by
  induction es with
  | nil => rfl
  | cons e es ih =>
    obtain ⟨t, v⟩ := e
    cases t <;> simp [cueStrip, ih]

/-- Behind the `INDEX 01` of a track: the start of the track is kept. -/
structure CueAt (c : Ffcue) (g : FfcueGap) (s : ℕ) : Prop where
  options : c.options = g
  first : c.first = false
  start : c.«from» = s
  known : s < cueNone

theorem CueAt.fin (h : CueAt c g s) : cueRun c [(.fin, 0)] = [⟨s, 0⟩] := by
  rw [cueRun, ffcueIndex, h.start]
  rfl

/-- `INDEX` lines behind `INDEX 01` are skipped once a range was returned. -/
theorem cueRun_skip (hf : c.first = false) (hn : c.next = true) (ts : List ℕ) :
    cueRun c (moreEvents ts) = [] ∧ cueState c (moreEvents ts) = c := by
  induction ts with
  | nil => exact ⟨rfl, rfl⟩
  | cons t ts ih =>
    have hstep : ffcueIndex c .trkIndex t = (c, none) := by
      rw [ffcueIndex, hf, hn]
      rfl
    rw [moreEvents, map_cons, cueRun, cueState, hstep]
    exact ih

theorem CueTrack.ne_none (t : CueTrack) :
    t.index01 ≠ cueNone ∧ ∀ v, t.index00 = some v → v ≠ cueNone :=
  ⟨Nat.ne_of_lt t.known01, fun v hv => Nat.ne_of_lt (t.known00 v hv)⟩

theorem cueStart_lt (g : FfcueGap) (first : Bool) (t : CueTrack) :
    cueStart g first t < cueNone := by
  have hgap : t.gap < cueNone := by
    rw [CueTrack.gap]
    cases h : t.index00 with
    | none => exact t.known01
    | some v => exact t.known00 v h
  cases g with
  | gapPrev => exact t.known01
  | gapPrev1 =>
    cases first with
    | false => exact t.known01
    | true => exact hgap
  | gapCurr => exact hgap
  | gapSkip => exact t.known01

/-- A track behind the first up to its `INDEX 01`: one range is returned, and it is that of the
track before if the start of that track is known. -/
theorem cueRun_base (hf : c.first = false) (t : CueTrack) :
    (cueRun c t.base).length = 1 ∧ (cueState c t.base).first = false ∧
      (cueState c t.base).next = true ∧ (cueState c t.base).options = c.options ∧
      (c.«from» ≠ cueNone → cueRun c t.base = [⟨c.«from», cueEnd c.options t⟩] ∧
        (cueState c t.base).«from» = cueStart c.options false t) := by
  obtain ⟨o, f, trk, fst, nx⟩ := c
  obtain rfl : fst = false := hf
  obtain ⟨h1, h0⟩ := t.ne_none
  rw [CueTrack.base]
  cases hi : t.index00 with
  | none =>
    cases o <;> simp [cueRun, cueState, ffcueIndex, cueEnd, cueStart, CueTrack.gap, hi]
  | some v =>
    have hv := h0 v hi
    by_cases hfn : f = cueNone <;> cases o <;>
      simp [cueRun, cueState, ffcueIndex, cueEnd, cueStart, CueTrack.gap, hi, hfn, hv]

/-- **A track behind the first** ends the range of the track before it. -/
theorem cueRun_track (h : CueAt c g s) (t : CueTrack) :
    cueRun c t.events = [⟨s, cueEnd g t⟩] ∧
      CueAt (cueState c t.events) g (cueStart g false t) := by
  obtain ⟨rfl, hfirst, rfl, hknown⟩ := h
  obtain ⟨-, hf, hn, ho, hrange⟩ := cueRun_base hfirst t
  obtain ⟨hr, hstart⟩ := hrange (Nat.ne_of_lt hknown)
  obtain ⟨hskip, hsame⟩ := cueRun_skip hf hn t.more
  rw [CueTrack.events, cueRun_append, cueState_append, hskip, hsame, append_nil]
  exact ⟨hr, ho, hf, hstart, cueStart_lt _ _ t⟩

theorem cueRun_tracks (h : CueAt c g s) (ts : List CueTrack) :
    cueRun c (ts.flatMap CueTrack.events ++ [(FfcueT.fin, 0)]) =
      ⟨s, (ts.head?.map (cueEnd g)).getD 0⟩ :: cueRanges g false ts := by
  induction ts generalizing c s with
  | nil => exact h.fin
  | cons t ts ih =>
    obtain ⟨hr, hat⟩ := cueRun_track h t
    rw [flatMap_cons, append_assoc, cueRun_append, hr, ih hat]
    rfl

/-- **The first track** up to its `INDEX 01`: its start is kept. -/
theorem cueRun_first (c : Ffcue) (t : CueTrack) :
    cueRun c ((.file, 0) :: t.base) = [] ∧
      CueAt (cueState c ((.file, 0) :: t.base)) c.options (cueStart c.options true t) ∧
      (cueState c ((.file, 0) :: t.base)).next = false ∧
      (cueState c ((.file, 0) :: t.base)).trk = ⟨cueNone, cueNone⟩ := by
  obtain ⟨o, f, trk, fst, nx⟩ := c
  obtain ⟨h1, h0⟩ := t.ne_none
  have hlt := cueStart_lt o true t
  suffices key : cueRun ⟨o, f, trk, fst, nx⟩ ((.file, 0) :: t.base) = [] ∧
      cueState ⟨o, f, trk, fst, nx⟩ ((.file, 0) :: t.base) =
        ⟨o, cueStart o true t, ⟨cueNone, cueNone⟩, false, false⟩ by
    obtain ⟨hr, hstate⟩ := key
    rw [hstate]
    exact ⟨hr, ⟨rfl, rfl, rfl, hlt⟩, rfl, rfl⟩
  rw [CueTrack.base]
  cases hi : t.index00 with
  | none => cases o <;> simp [cueRun, cueState, ffcueIndex, cueStart, CueTrack.gap, hi]
  | some v =>
    have hv := h0 v hi
    cases o <;> simp [cueRun, cueState, ffcueIndex, cueStart, CueTrack.gap, hi, hv]

/-- Further `INDEX` lines of the first track return a range, of which the program believes that it
is the one of the first track. -/
theorem cueRun_more (h : CueAt c g s) (hn : c.next = false) (hk : c.trk = ⟨cueNone, cueNone⟩)
    (t : ℕ) (ts : List ℕ) :
    cueRun c (moreEvents (t :: ts)) = [⟨s, t⟩] ∧
      (cueState c (moreEvents (t :: ts))).first = false ∧
      (cueState c (moreEvents (t :: ts))).options = g := by
  obtain ⟨o, f, trk, fst, nx⟩ := c
  obtain ⟨rfl, rfl, rfl, -⟩ := h
  obtain rfl : nx = false := hn
  obtain rfl : trk = ⟨cueNone, cueNone⟩ := hk
  have hstep : ffcueIndex ⟨o, f, ⟨cueNone, cueNone⟩, false, false⟩ .trkIndex t =
      (⟨o, t, ⟨f, t⟩, false, true⟩, some ⟨f, t⟩) := by
    simp [ffcueIndex]
  have hsplit : moreEvents (t :: ts) = (.trkIndex, t) :: moreEvents ts := rfl
  obtain ⟨hskip, hsame⟩ := @cueRun_skip ⟨o, t, ⟨f, t⟩, false, true⟩ rfl rfl ts
  rw [hsplit, cueRun, cueState, hstep, hskip, hsame]
  exact ⟨rfl, rfl, rfl⟩

theorem cueRun_track_length (hf : c.first = false) (t : CueTrack) :
    (cueRun c t.events).length = 1 ∧ (cueState c t.events).first = false := by
  obtain ⟨hlen, hfirst, hn, -⟩ := cueRun_base hf t
  obtain ⟨hskip, hsame⟩ := cueRun_skip hfirst hn t.more
  rw [CueTrack.events, cueRun_append, cueState_append, hskip, hsame, append_nil]
  exact ⟨hlen, hfirst⟩

theorem cueRun_tracks_length (hf : c.first = false) (ts : List CueTrack) :
    (cueRun c (ts.flatMap CueTrack.events ++ [(FfcueT.fin, 0)])).length = ts.length + 1 := by
  induction ts generalizing c with
  | nil => rfl
  | cons t ts ih =>
    obtain ⟨hlen, hfirst⟩ := cueRun_track_length hf t
    rw [flatMap_cons, append_assoc, cueRun_append, length_append, hlen, ih hfirst,
      length_cons, Nat.add_comm]

/-- The first track without `INDEX` lines behind `INDEX 01`. -/
theorem cueRun_noMore (c : Ffcue) {t : CueTrack} (ht : t.more = []) (ts : List CueTrack) :
    cueRun c (cueEvents (t :: ts) ++ [(FfcueT.fin, 0)]) = cueRanges c.options true (t :: ts) := by
  obtain ⟨hr, hat, -, -⟩ := cueRun_first c t
  have hev : cueEvents (t :: ts) ++ [(FfcueT.fin, 0)] =
      ((FfcueT.file, 0) :: t.base) ++ (ts.flatMap CueTrack.events ++ [(FfcueT.fin, 0)]) := by
    simp [cueEvents, CueTrack.events, ht, moreEvents]
  rw [hev, cueRun_append, hr, cueRun_tracks hat ts]
  rfl

/-- **The first track with such a line**: there is a range too many. -/
theorem cueRun_more_length (c : Ffcue) {t : CueTrack} (ht : t.more ≠ []) (ts : List CueTrack) :
    (cueRun c (cueEvents (t :: ts) ++ [(FfcueT.fin, 0)])).length = ts.length + 2 := by
  obtain ⟨v, vs, hm⟩ := exists_cons_of_ne_nil ht
  obtain ⟨hr, hat, hn, hk⟩ := cueRun_first c t
  obtain ⟨hr', hfirst, -⟩ := cueRun_more hat hn hk v vs
  have hev : cueEvents (t :: ts) ++ [(FfcueT.fin, 0)] = ((FfcueT.file, 0) :: t.base) ++
      (moreEvents (v :: vs) ++ (ts.flatMap CueTrack.events ++ [(FfcueT.fin, 0)])) := by
    simp [cueEvents, CueTrack.events, hm]
  rw [hev, cueRun_append, hr, cueRun_append, hr', nil_append, length_append,
    cueRun_tracks_length hfirst, length_singleton]
  omega

end Steps

/-! ### Results -/

/-- **`ffcue_index`** gives the ranges of the documentation, one for each track, exactly if there
is a track and the first one has no `INDEX` line behind `INDEX 01`. -/
theorem ffcueIndex_iff (c : Ffcue) (ts : List CueTrack) (es : List (FfcueT × ℕ)) (v : ℕ)
    (hes : cueStrip es = cueEvents ts) :
    cueRun c (es ++ [(.fin, v)]) = cueRanges c.options true ts ↔
      ∃ t ts', ts = t :: ts' ∧ t.more = [] := by
  have hrun : cueRun c (es ++ [(FfcueT.fin, v)]) =
      cueRun c (cueEvents ts ++ [(FfcueT.fin, 0)]) := by
    rw [cueRun_strip, cueStrip_append, hes]
    rfl
  rw [hrun]
  cases ts with
  | nil =>
    constructor
    · intro h
      cases (congrArg List.length h : 1 = 0)
    · rintro ⟨_, _, h, -⟩
      cases h
  | cons t ts =>
    constructor
    · intro h
      refine ⟨t, ts, rfl, Classical.byContradiction fun ht => ?_⟩
      have hlen := congrArg List.length h
      rw [cueRun_more_length c ht, cueRanges_length, length_cons] at hlen
      omega
    · rintro ⟨_, _, h, ht⟩
      obtain ⟨rfl, rfl⟩ := List.cons.inj h
      exact cueRun_noMore c ht ts

/-- Two tracks; the second has a gap and an `INDEX 02`. -/
theorem ffcueIndex_iff_example :
    cueRun ⟨.gapSkip, 0, ⟨0, 0⟩, false, false⟩
      ([(.file, 0), (.filetype, 0), (.trackno, 1), (.trkTitle, 0), (.trkIndex, 75), (.trackno, 2),
        (.trkIndex00, 150), (.trkIndex, 225), (.trkIndex, 300)] ++ [(.fin, 0)]) =
      [⟨75, 150⟩, ⟨225, 0⟩] :=
  (ffcueIndex_iff ⟨.gapSkip, 0, ⟨0, 0⟩, false, false⟩
    [⟨none, 75, [], nofun, by decide⟩, ⟨some 150, 225, [300], by decide, by decide⟩]
    _ 0 (by decide)).mpr ⟨_, _, rfl, rfl⟩

/-- One track of which `INDEX 02` is known: a range up to it is returned as well. -/
theorem ffcueIndex_more :
    cueStrip [(.file, 0), (.trackno, 1), (.trkIndex, 0), (.trkIndex, 75)] =
        cueEvents [⟨none, 0, [75], nofun, by decide⟩] ∧
      cueRun ⟨.gapPrev, 0, ⟨0, 0⟩, false, false⟩
        [(.file, 0), (.trackno, 1), (.trkIndex, 0), (.trkIndex, 75), (.fin, 0)] =
        [⟨0, 75⟩, ⟨75, 0⟩] ∧
      cueRanges .gapPrev true [⟨none, 0, [75], nofun, by decide⟩] = [⟨0, 0⟩] := by
  decide

end FF
