import FF.Playlist.Decimal
import FF.Playlist.Lines

/-!
# M3U playlists

`FF/data/ffm3u.c`. The writer puts two lines for each entry, the reader makes an entry of the values
that it finds in them. It looks for the separator of artist and title again in the title, and the
artist and the title refer to the first line while the second one is read.

The caller of the reader gives the chunks, and each result to `ffm3u_entry_get` (`m3uMove`).
-/

namespace FF

open List Option

/-! ### Reading -/

/-- `enum FFM3U_T` -/
inductive FFM3U_T
  | url
  | dur
  | artist
  | title
  | ext
  deriving DecidableEq, Repr

/-- The errors of the two parsers. -/
inductive ListE
  | ebigval
  | esys
  | ebadval
  deriving DecidableEq, Repr

/-- What `ffm3u_parse` returns. -/
inductive M3uR
  | more
  | err (e : ListE)
  | val (t : FFM3U_T)
  deriving DecidableEq, Repr

/-- `ffm3u_entry_get`: the entry, and whether it is ready. -/
def ffm3uEntryGet (alloc : ℕ → Bool) (ent : FfplsEntry) (type : M3uR) (val : EntStr) :
    FfplsEntry × Bool :=
  let ent := ent.freeCleared
  match type with
  | .more => (ent.map (EntStr.copyself alloc), false)
  | .val .artist => ({ ent with artist := val }, false)
  | .val .title => ({ ent with title := val }, false)
  | .val .dur => ({ ent with duration := tointInt32 val.bytes ent.duration }, false)
  | .val .url => ({ ent with url := val, clear := true }, true)
  | .val .ext | .err _ => (ent, false)

/-- An entry of a playlist. -/
structure M3uEntry where
  dur : List UInt8
  artist : List UInt8
  title : List UInt8
  name : List UInt8
  deriving DecidableEq, Repr

/-- The end of a line. -/
def m3uEol (lf : Bool) : List UInt8 := if lf then [0x0a] else [0x0d, 0x0a]

/-- The first line of an entry. -/
def M3uEntry.info (e : M3uEntry) : List UInt8 :=
  ascii "#EXTINF:" ++ (e.dur ++ (ascii "," ++ (e.artist ++ (ascii " - " ++ e.title))))

/-- The lines of an entry. -/
def M3uEntry.text (lf : Bool) (e : M3uEntry) : List UInt8 :=
  e.info ++ m3uEol lf ++ (e.name ++ m3uEol lf)

section Writer

variable {alloc : ℕ → Bool} {lf : Bool} {ar : Ffarr} {l : List UInt8} {m : Ffm3uCook}
  {e : M3uEntry}

end Writer

/-! ### The separator -/

section Separator

variable {search s : List UInt8} {c : UInt8}

end Separator

end FF
