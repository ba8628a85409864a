import JsonCodec.Unicode.Utf16
import JsonCodec.Unicode.Utf8
import JsonCodec.Error

/-! # String literals in written documents

A string is written between double quotes. The quote and the backslash are escaped as `\"` and
`\\`; line feed, carriage return, tab, backspace and form feed take their short escapes; every
other character below U+0020 is written `\u00XX` in uppercase hex. With `escapeNonAscii`, each
character above U+007F is written as `\uXXXX` escapes of its UTF-16 units. The slash and U+007F
are never escaped.

`quote` writes a string character by character. `quoteBytes` writes it as the writer does, byte by
byte: runs of bytes that need no escape are copied as slices of the string between the escapes,
and slicing off a character boundary would panic, which `quoteBytes` answers with none. The two
agree on every string (`Escape.quoteBytes_eq`).
-/

namespace JsonCodec.Escape

/-- The `\\u` escapes of a character's UTF-16 units, four uppercase hex digits each. -/
def unitEscapes (c : Char) : String :=
  String.join ((Utf16.units c).map fun u => "\\u" ++ hexUpper4 u)

/-- How one character of a string is written. -/
def writeChar (escapeNonAscii : Bool) (c : Char) : String :=
  if c = '"' then "\\\""
  else if c = '\\' then "\\\\"
  else if c = '\n' then "\\n"
  else if c = '\r' then "\\r"
  else if c = '\t' then "\\t"
  else if c = '\x08' then "\\b"
  else if c = '\x0c' then "\\f"
  else if c.toNat < 0x20 || (escapeNonAscii && 0x80 ≤ c.toNat) then
    unitEscapes c
  else c.toString

/-- A string as a quoted literal. -/
def quote (escapeNonAscii : Bool) (s : String) : String :=
  s.foldl (fun acc c => acc ++ writeChar escapeNonAscii c) "\"" ++ "\""

example : quote false "a\"\x01é" = "\"a\\\"\\u0001é\"" := by cbv
example : quote true "é😀/" = "\"\\u00E9\\uD83D\\uDE00/\"" := by cbv

/-! ### Quoting byte by byte -/

/-- Whether a byte index into a string's UTF-8 bytes is a character boundary: the start, the end,
or an index whose byte begins a character. Slicing a string anywhere else panics. -/
def isCharBoundary (bytes : List UInt8) (i : Nat) : Bool :=
  i == 0 ||
    match bytes[i]? with
    | some b => b < 0x80 || 0xC0 ≤ b
    | none => i == bytes.length

/-- The bytes from index `start` up to `stop`, or none where slicing there panics: the ends out of
order, or either off a character boundary. -/
def slice (bytes : List UInt8) (start stop : Nat) : Option (List UInt8) :=
  if start ≤ stop ∧ isCharBoundary bytes start = true ∧ isCharBoundary bytes stop = true then
    some ((bytes.drop start).take (stop - start))
  else none

/-- The character that starts at a byte index, U+FFFD where none does, or none where the index is
off a character boundary, which panics. -/
def charAt (bytes : List UInt8) (i : Nat) : Option Char :=
  if isCharBoundary bytes i then some (Utf8.headChar (bytes.drop i)) else none

/-- What is written for a byte that starts an escape: its short escape, or the empty text where
the character there is written as `\\u` escapes of its UTF-16 units; none for a byte that is
copied as it is. A byte above 0x7F starts an escape only with `escapeNonAscii`. -/
def byteEscape (escapeNonAscii : Bool) (b : UInt8) : Option String :=
  if b = 0x22 then some "\\\""
  else if b = 0x5C then some "\\\\"
  else if b = 0x0A then some "\\n"
  else if b = 0x0D then some "\\r"
  else if b = 0x09 then some "\\t"
  else if b = 0x08 then some "\\b"
  else if b = 0x0C then some "\\f"
  else if b ≤ 0x1F then some ""
  else if 0x80 ≤ b ∧ escapeNonAscii = true then some ""
  else none

/-- One byte of the walk, at index `i`, given the bytes written so far and the index where the run
still to be copied starts; none where the walk panics. A byte that starts no escape is passed
over, and so is a byte that continues a character; at any other byte the run before it is copied
as a slice, then its escape, and the run starts again after the character it escaped. -/
def walkByte (escapeNonAscii : Bool) (bytes : List UInt8) (i : Nat) (b : UInt8)
    (st : List UInt8 × Nat) : Option (List UInt8 × Nat) :=
  match byteEscape escapeNonAscii b with
  | none => some st
  | some esc =>
    if 0x80 ≤ b ∧ b &&& 0xC0 = 0x80 then some st
    else
      (slice bytes st.2 i).bind fun run =>
        if esc.isEmpty then
          (charAt bytes i).map fun c => (st.1 ++ run ++ (unitEscapes c).toUTF8.toList, i + c.utf8Size)
        else some (st.1 ++ run ++ esc.toUTF8.toList, i + 1)

/-- The walk over the bytes from index `i` on. -/
def walk (escapeNonAscii : Bool) (bytes : List UInt8) :
    List UInt8 → Nat → List UInt8 × Nat → Option (List UInt8 × Nat)
  | [], _, st => some st
  | b :: rest, i, st =>
    (walkByte escapeNonAscii bytes i b st).bind (walk escapeNonAscii bytes rest (i + 1))

/-- A string as a quoted literal, written byte by byte: the walk over its bytes, then the run
left at the end, between double quotes; none where a slice would panic. -/
def quoteBytes (escapeNonAscii : Bool) (s : String) : Option (List UInt8) :=
  (walk escapeNonAscii s.toUTF8.toList s.toUTF8.toList 0 ([], 0)).bind fun st =>
    (slice s.toUTF8.toList st.2 s.toUTF8.toList.length).map fun run => [0x22] ++ st.1 ++ run ++ [0x22]

end JsonCodec.Escape
