import Mathlib.Data.Nat.Notation

/-!
# UTF-8 and UTF-16

The functions of `ffutf8` that the parsers use: code units of UTF-16, and one character as UTF-8.
-/

namespace FF

/-- `ffutf16_basic`: a code unit outside the surrogates. -/
def ffutf16Basic (ch : UInt32) : Bool := (ch &&& 0xf800) != 0xd800

/-- `ffutf16_highsurr` -/
def ffutf16Highsurr (ch : UInt32) : Bool := (ch &&& 0xfc00) == 0xd800

/-- `ffutf16_suppl`: the character of two surrogates. -/
def ffutf16Suppl (hi lo : UInt32) : UInt32 := 
  0x10000 + ((hi - 0xd800) <<< (10 : UInt32)) + (lo - 0xdc00)

/-- `ffutf8_size` -/
def ffutf8Size (uch : UInt32) : ℕ :=
  if uch < 0x80 then 1
  else if uch < 0x0800 then 2
  else if uch < 0x10000 then 3
  else if uch < 0x200000 then 4
  else if uch < 0x04000000 then 5
  else if uch < 0x80000000 then 6
  else 0

/-- The last bytes of a character, shifted by `n`, in `ffutf8_encode1`. -/
def utf8Tail (uch n : UInt32) : UInt8 := (0x80 ||| ((uch >>> n) &&& ~~~0xc0)).toUInt8

/-- The first byte of a character, with the mark `b`, in `ffutf8_encode1`. -/
def utf8Head (b uch n : UInt32) : UInt8 := (b ||| (uch >>> n)).toUInt8

/-- `ffutf8_encode1`: the bytes of a character, none where `cap` has no room for them. -/
def ffutf8Encode1 (cap : ℕ) (uch : UInt32) : List UInt8 :=
  if cap < ffutf8Size uch then []
  else
    match ffutf8Size uch with
    | 1 => [uch.toUInt8]
    | 2 => [utf8Head 0xc0 uch 6, utf8Tail uch 0]
    | 3 => [utf8Head 0xe0 uch 12, utf8Tail uch 6, utf8Tail uch 0]
    | 4 => [utf8Head 0xf0 uch 18, utf8Tail uch 12, utf8Tail uch 6, utf8Tail uch 0]
    | 5 => [utf8Head 0xf8 uch 24, utf8Tail uch 18, utf8Tail uch 12, utf8Tail uch 6,
        utf8Tail uch 0]
    | 6 => [utf8Head 0xfc uch 30, utf8Tail uch 24, utf8Tail uch 18, utf8Tail uch 12,
        utf8Tail uch 6, utf8Tail uch 0]
    | _ => []

end FF
