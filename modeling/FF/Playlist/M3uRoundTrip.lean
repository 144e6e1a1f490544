import FF.Playlist.M3u

/-!
# Reading an M3U playlist that has been written

The reader takes the first line of an entry apart, and then the second line. While it takes the
second one, the artist and the title are copied, or lost (`LineCut`).
-/

namespace FF

open List Option

/-! ### Entries -/

/-- **An entry**: a decimal duration, strings without line breaks, an artist without separator. -/
structure M3uEntry.Valid (e : M3uEntry) : Prop where
  dur : IsDecimal e.dur
  breaks : ∀ c ∈ e.artist ++ (e.title ++ e.name), c ≠ 0x0a ∧ c ≠ 0x0d
  sep : ¬ascii " - " <:+: e.artist
  name : e.name ≠ []
  short : e.name.length < FF_TEXT_LINE_MAX

/-- What the owner of the entry shall get. -/
def M3uEntry.seen (e : M3uEntry) :
    ℤ × Option (List UInt8) × Option (List UInt8) × Option (List UInt8) :=
  (decNum e.dur, some e.artist, some e.title, some e.name)

/-- A line is cut, and the chunk goes on behind it. -/
def LineCut (all : List (List UInt8)) (o n : ℕ) : Prop := InnerCut all o n ∧ ¬IsCut all (o + n)

/-- **An entry that is read right**, at the place `o`. -/
structure M3uEntry.Ok (lf : Bool) (all : List (List UInt8)) (o : ℕ) (e : M3uEntry) : Prop where
  dur : decAbs e.dur < 2 ^ 31
  artist : ¬ascii " -" <:+ e.artist
  title : ¬ascii " - " <:+: e.title
  line : (e.info ++ m3uEol lf).length ≤ FF_TEXT_LINE_MAX + 1
  cut : LineCut all o (e.info ++ m3uEol lf).length → e.artist = [] ∧ e.title = []

/-- What happens to the entry when more data is asked for. -/
def m3uCopy (alloc : ℕ → Bool) (ent : FfplsEntry) : FfplsEntry :=
  (ffm3uEntryGet alloc ent .more .empty).1.map EntStr.release

section Steps

variable {alloc : ℕ → Bool} {p : Ffm3u} {data : List UInt8} {cs : List (List UInt8)}
  {ent : FfplsEntry} {e : M3uEntry}

end Steps

/-! ### Lines -/

/-- The artist and the title are `ta` and `tt`, whatever happens to the line buffer. -/
structure M3uHolds (d : ℤ) (ta tt : Option (List UInt8)) (ent : FfplsEntry) : Prop where
  dur : ent.duration = d
  artist : ent.artist.Settled ta
  title : ent.title.Settled tt
  clear : ent.clear = false

section Lines

variable {alloc : ℕ → Bool} {p : Ffm3u} {buf : Ffarr} {data l text : List UInt8}
  {all cs : List (List UInt8)} {ent : FfplsEntry} {e : M3uEntry} {o : ℕ} {nextst : M3uSt}
  {d : ℤ} {ta tt : Option (List UInt8)} {P : FfplsEntry → Prop} {lf : Bool}

theorem M3uHolds.touch (h : M3uHolds d ta tt ent) : M3uHolds d ta tt (ent.map EntStr.touch) :=
  ⟨h.dur, h.artist.touch, h.title.touch, h.clear⟩

theorem m3uCopy_eq (hclear : ent.clear = false) :
    m3uCopy alloc ent = (ent.map (EntStr.copyself alloc)).map EntStr.release := by
  have hfree : ent.freeCleared = ent := if_neg (by rw [hclear]; exact Bool.false_ne_true)
  change (ent.freeCleared.map (EntStr.copyself alloc)).map EntStr.release = _
  rw [hfree]

theorem M3uHolds.copy (halloc : ∀ n, alloc n = true) (h : M3uHolds d ta tt ent) :
    M3uHolds d ta tt (m3uCopy alloc ent) := by
  rw [m3uCopy_eq h.clear]
  exact ⟨h.dur, h.artist.copy halloc, h.title.copy halloc, h.clear⟩

/-- The bytes behind the duration. -/
def M3uEntry.behind (e : M3uEntry) : List UInt8 :=
  ascii "," ++ (e.artist ++ (ascii " - " ++ e.title))

end Lines

/-! ### Entries -/

section Entry

variable {alloc : ℕ → Bool} {p : Ffm3u} {buf : Ffarr} {data rest text : List UInt8}
  {all cs : List (List UInt8)} {ent : FfplsEntry} {e : M3uEntry} {o n : ℕ} {mem : StrMem}
  {lf cut : Bool} {P : FfplsEntry → Prop}

end Entry

/-! ### The playlist -/

section Playlist

variable {alloc : ℕ → Bool} {all : List (List UInt8)} {lf : Bool}

end Playlist

end FF
