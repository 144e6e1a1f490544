import FF.Ffarr
import FF.Ffstring
import FF.Lib.Runs
import Mathlib.Data.List.TakeWhile

/-!
# The lines of a playlist

`ffm3u_parse` and `ffpls_parse` (`FF/data/ffm3u.c`, `FF/data/ffpls.c`) take a text line by line from
the chunks that they are given. A line within a chunk is referred to where it lies. A line that is
cut is gathered in the line buffer; with the first bytes of the next line this buffer is freed or
written to. The strings of an entry refer to the line that they come from (`StrMem`), until
`ffarr_copyself` copies them when the parser asks for more data.

The places in a text are counted from its begin; `IsCut` says that a chunk ends at a place.
-/

namespace FF

open List Option

/-! ### Strings of an entry -/

/-- Where the bytes of a string lie: in its own memory, in the chunk that the parser has been given,
or in the line buffer; or the memory has been freed or used again. -/
inductive StrMem
  | own
  | chunk
  | line
  | gone
  deriving DecidableEq, Repr

/-- A string of an entry. -/
structure EntStr where
  bytes : List UInt8
  mem : StrMem
  deriving DecidableEq, Repr

namespace EntStr

/-- An empty array. -/
def empty : EntStr := ⟨[], .own⟩

/-- The bytes, if they are still there. -/
def text (s : EntStr) : Option (List UInt8) :=
  if s.mem = .gone ∧ s.bytes ≠ [] then none else some s.bytes

/-- The line buffer is freed or written to. -/
def touch (s : EntStr) : EntStr := if s.mem = .line then { s with mem := .gone } else s

/-- `ffarr_copyself` -/
def copyself (alloc : ℕ → Bool) (s : EntStr) : EntStr :=
  if (s.mem = .chunk ∨ s.mem = .line) ∧ s.bytes ≠ [] ∧ alloc s.bytes.length then
    { s with mem := .own }
  else s

/-- The chunk is taken away. -/
def release (s : EntStr) : EntStr := if s.mem = .chunk then { s with mem := .gone } else s

end EntStr

/-- `ffpls_entry` -/
structure FfplsEntry where
  url : EntStr
  artist : EntStr
  title : EntStr
  duration : ℤ
  clear : Bool
  deriving DecidableEq, Repr

namespace FfplsEntry

/-- `ffpls_entry_free` -/
def free (ent : FfplsEntry) : FfplsEntry :=
  { ent with url := .empty, artist := .empty, title := .empty, duration := -1 }

/-- What `ffm3u_entry_get` and `ffpls_entry_get` do first. -/
def freeCleared (ent : FfplsEntry) : FfplsEntry :=
  if ent.clear then { ent.free with clear := false } else ent

/-- A change of each string. -/
def map (f : EntStr → EntStr) (ent : FfplsEntry) : FfplsEntry :=
  { ent with url := f ent.url, artist := f ent.artist, title := f ent.title }

/-- What the owner of an entry has got. -/
def seen (ent : FfplsEntry) : ℤ × Option (List UInt8) × Option (List UInt8) × Option (List UInt8) :=
  (ent.duration, ent.artist.text, ent.title.text, ent.url.text)

end FfplsEntry

/-- **The string does not depend on the line buffer**; `t` are its bytes, if they are there. -/
structure EntStr.Settled (t : Option (List UInt8)) (s : EntStr) : Prop where
  text : s.text = t
  line : s.mem = .line → s.bytes = []

section Strings

variable {alloc : ℕ → Bool} {s : EntStr} {t : Option (List UInt8)}

/-- **Copying** keeps the bytes that are there, and the chunk is not needed any more. -/
theorem EntStr.settled_copy (halloc : ∀ n, alloc n = true) (s : EntStr) :
    (s.copyself alloc).release.Settled s.text := by
  obtain ⟨bytes, mem⟩ := s
  by_cases hnil : bytes = []
  · subst hnil
    cases mem with
    | own => exact ⟨rfl, fun _ => rfl⟩
    | chunk => exact ⟨rfl, fun _ => rfl⟩
    | line => exact ⟨rfl, fun _ => rfl⟩
    | gone => exact ⟨rfl, fun _ => rfl⟩
  have hcopy : ∀ mem, (mem = .chunk ∨ mem = .line) →
      (EntStr.mk bytes mem).copyself alloc = ⟨bytes, .own⟩ := by
    intro mem hmem
    exact if_pos ⟨hmem, hnil, halloc _⟩
  cases mem with
  | own => exact ⟨rfl, fun h => by cases h⟩
  | chunk =>
    rw [hcopy _ (.inl rfl)]
    exact ⟨rfl, fun h => by cases h⟩
  | line =>
    rw [hcopy _ (.inr rfl)]
    exact ⟨rfl, fun h => by cases h⟩
  | gone => exact ⟨rfl, fun h => by cases h⟩

theorem EntStr.Settled.copy (halloc : ∀ n, alloc n = true) (h : s.Settled t) :
    (s.copyself alloc).release.Settled t :=
  h.text ▸ s.settled_copy halloc

/-- **The line buffer is used again**: its bytes are lost. -/
theorem EntStr.settled_touch (s : EntStr) :
    s.touch.Settled (if s.mem = .line ∧ s.bytes ≠ [] then none else s.text) := by
  by_cases hline : s.mem = .line
  · rw [touch, if_pos hline]
    refine ⟨?_, fun h => by cases h⟩
    rw [text, text, hline]
    by_cases hnil : s.bytes = []
    · simp [hnil]
    · simp [hnil]
  · rw [touch, if_neg hline, if_neg (fun h => hline h.1)]
    exact ⟨rfl, fun h => absurd h hline⟩

theorem EntStr.Settled.touch (h : s.Settled t) : s.touch.Settled t := by
  have htouch := s.settled_touch
  rwa [if_neg (fun hl => hl.2 (h.line hl.1)), h.text] at htouch

end Strings

/-! ### Taking a line -/

/-- `FF_TEXT_LINE_MAX` -/
def FF_TEXT_LINE_MAX : ℕ := 64 * 1024

/-- A chunk ends at this place. -/
def IsCut (all : List (List UInt8)) (k : ℕ) : Prop :=
  ∃ pre post, all = pre ++ post ∧ pre.flatten.length = k

/-- A chunk ends between the begin and the end of the `n` bytes at `o`. -/
def InnerCut (all : List (List UInt8)) (o n : ℕ) : Prop := ∃ b, IsCut all b ∧ o < b ∧ b < o + n

/-- The parser is at the place `o`: `data` is the rest of the chunk, and `cs` are the next ones. -/
def AtPlace (all : List (List UInt8)) (o : ℕ) (data : List UInt8) (cs : List (List UInt8)) : Prop :=
  ∃ pre x, all = pre ++ (x ++ data) :: cs ∧ pre.flatten.length + x.length = o

section Places

variable {all cs : List (List UInt8)} {o n b : ℕ} {data c : List UInt8}

theorem AtPlace.next (h : AtPlace all o data (c :: cs)) : AtPlace all (o + data.length) c cs := by
  obtain ⟨pre, x, rfl, rfl⟩ := h
  refine ⟨pre ++ [x ++ data], [], by simp, ?_⟩
  simp only [flatten_append, flatten_singleton, length_append, length_nil]
  omega

theorem AtPlace.drop (h : AtPlace all o data cs) (hn : n ≤ data.length) :
    AtPlace all (o + n) (data.drop n) cs := by
  obtain ⟨pre, x, rfl, rfl⟩ := h
  refine ⟨pre, x ++ data.take n, by simp, ?_⟩
  rw [length_append, length_take, Nat.min_eq_left hn, Nat.add_assoc]

end Places

/-! ### What is gathered -/

section Gather

variable {alloc : ℕ → Bool} {buf buf' : Ffarr} {data l : List UInt8} {til n : ℕ}

end Gather

/-! ### The state `LINE` -/

section Take

variable {alloc : ℕ → Bool} {buf : Ffarr} {data g l r : List UInt8}

end Take

/-! ### Runs -/

section Run

variable {S E V : Type} {alloc : ℕ → Bool} {move : S → List E × Option S}
  {mk : Ffarr → List UInt8 → List (List UInt8) → V → S}
  {fin : List UInt8 → StrMem → Ffarr → List UInt8 → List (List UInt8) → V → S}
  {copy touch : V → V} {big es : List E} {P : V → Prop} {all cs : List (List UInt8)} {o o' : ℕ}
  {buf : Ffarr} {data g l l' r text x : List UInt8} {v : V}

end Run

end FF
