import JsonCodec.Unicode.Printable
import JsonCodec.Unicode.GraphemeExtend

/-! # Quoted literals in messages

Error messages show a character as a character literal (`'x'`) and a string as a string literal
(`"abc"`). Inside the quotes NUL, tab, carriage return, line feed, the backslash and the quote
itself are written with a backslash (`\0`, `\t`, `\r`, `\n`, `\\`, `\'` or `\"`); a grapheme
extender or a character that does not print is written `\u{h}` with its code point in lowercase
hex without padding; every other character is written as itself.
-/

namespace JsonCodec.Quoted

/-- Lowercase hex digits of a number, without padding. -/
def hexLower (n : Nat) : String := String.ofList (Nat.toDigits 16 n)

/-- A character inside a literal delimited by `quote`. -/
def escapeChar (quote : Char) (c : Char) : String :=
  if c = '\x00' then "\\0"
  else if c = '\t' then "\\t"
  else if c = '\r' then "\\r"
  else if c = '\n' then "\\n"
  else if c = '\\' then "\\\\"
  else if c = quote then "\\" ++ c.toString
  else if Unicode.isGraphemeExtend c || !Unicode.isPrintable c then
    "\\u\x7b" ++ hexLower c.toNat ++ "\x7d"
  else c.toString

/-- A character literal: the character between single quotes. -/
def char (c : Char) : String := "'" ++ escapeChar '\'' c ++ "'"

/-- A string literal: the characters between double quotes. -/
def string (s : String) : String :=
  "\"" ++ String.join (s.toList.map (escapeChar '"')) ++ "\""

example : char '\'' = "'\\''" := by cbv

end JsonCodec.Quoted
