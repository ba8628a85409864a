/-! # UTF-16 units

A character above U+FFFF takes two 16-bit units in UTF-16: a high surrogate (U+D800 to U+DBFF)
carrying the upper ten bits of `c - 0x10000` and a low surrogate (U+DC00 to U+DFFF) carrying the
lower ten. `Utf16.combine` joins such a pair and `Utf16.units` splits a character.
-/

namespace JsonCodec.Utf16

/-- Whether a unit is a high (leading) surrogate. -/
def isHigh (u : Nat) : Bool := 0xD800 ≤ u && u ≤ 0xDBFF

/-- Whether a unit is a low (trailing) surrogate. -/
def isLow (u : Nat) : Bool := 0xDC00 ≤ u && u ≤ 0xDFFF

/-- The code point of a high and a low surrogate. -/
def combine (high low : Nat) : Nat := 0x10000 + (high - 0xD800) * 0x400 + (low - 0xDC00)

/-- The UTF-16 units of a character: the code point itself below U+10000, else its pair. -/
def units (c : Char) : List Nat :=
  let n := c.toNat
  if n < 0x10000 then [n]
  else [0xD800 + (n - 0x10000) / 0x400, 0xDC00 + (n - 0x10000) % 0x400]

example : units '😀' = [0xD83D, 0xDE00] := by decide
example : combine 0xD83D 0xDE00 = '😀'.toNat := by decide

end JsonCodec.Utf16
