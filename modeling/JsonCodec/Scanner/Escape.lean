import JsonCodec.Unicode.Utf8
import JsonCodec.Unicode.Utf16
import JsonCodec.Error

/-! # Escape sequences

A backslash in a string starts an escape: `\"`, `\\`, `\/`, `\b`, `\f`, `\n`, `\r`, `\t`, or `\u`
and four hex digits naming a UTF-16 unit. A high surrogate must be followed at once by a second
`\u` escape holding a low surrogate, and the pair names one character; a lone surrogate is a fault.

The escape is read from the raw bytes after the backslash, whatever they are: a closing quote in
place of a hex digit is a bad digit, and bytes running out is an unterminated string. Faults carry
the offset they refer to: the backslash for a bad escape letter or a lone surrogate, the digit for
a bad hex digit, the second escape for a bad low surrogate.
-/

namespace JsonCodec.Escape

/-- The value of an ASCII hex digit of either case. -/
def hexValue? (b : UInt8) : Option Nat :=
  if 0x30 ≤ b ∧ b ≤ 0x39 then some (b.toNat - 0x30)
  else if 0x61 ≤ b ∧ b ≤ 0x66 then some (b.toNat - 0x61 + 10)
  else if 0x41 ≤ b ∧ b ≤ 0x46 then some (b.toNat - 0x41 + 10)
  else none

/-- Reads `n` more hex digits onto `acc`; the first of `bs` is at offset `off`. A missing byte is
an unterminated string, a byte that is no hex digit is shown as the character of its code. -/
def hexDigits (acc : Nat) (off : Nat) : Nat → List UInt8 → Except (SyntaxFault × Nat) Nat
  | 0, _ => .ok acc
  | _ + 1, [] => .error (.unterminatedString, off)
  | n + 1, b :: r =>
    match hexValue? b with
    | some d => hexDigits (acc * 16 + d) (off + 1) n r
    | none => .error (.invalidUnicodeEscapeChar (Char.ofNat b.toNat), off)

/-- The unit spelled by four hex digits at the front of `bs`, which is at offset `off`. -/
def hex4 (bs : List UInt8) (off : Nat) : Except (SyntaxFault × Nat) Nat := hexDigits 0 off 4 bs

/-- The `\u` escape whose backslash is at `off`; `after` are the bytes after the `u`. Gives the
character and the number of bytes of `after` it takes. -/
def unicode (after : List UInt8) (off : Nat) : Except (SyntaxFault × Nat) (Char × Nat) := do
  let unit ← hex4 after (off + 2)
  if Utf16.isHigh unit then
    if (after.drop 4).take 2 ≠ [0x5C, 0x75] then throw (.invalidUnicodeEscape unit, off)
    let low ← hex4 (after.drop 6) (off + 8)
    if !Utf16.isLow low then throw (.invalidUnicodeEscape low, off + 6)
    return (Char.ofNat (Utf16.combine unit low), 10)
  else if Utf16.isLow unit then throw (.invalidUnicodeEscape unit, off)
  else return (Char.ofNat unit, 4)

/-- The escape whose backslash is at `off`; `after` are the bytes after the backslash. Gives the
character and the number of bytes of `after` it takes. -/
def decode (after : List UInt8) (off : Nat) : Except (SyntaxFault × Nat) (Char × Nat) :=
  match after with
  | [] => .error (.unterminatedString, off)
  | c :: rest =>
    if c = 0x22 then .ok ('"', 1)
    else if c = 0x5C then .ok ('\\', 1)
    else if c = 0x2F then .ok ('/', 1)
    else if c = 0x62 then .ok ('\x08', 1)
    else if c = 0x66 then .ok ('\x0c', 1)
    else if c = 0x6E then .ok ('\n', 1)
    else if c = 0x72 then .ok ('\r', 1)
    else if c = 0x74 then .ok ('\t', 1)
    else if c = 0x75 then (unicode rest off).map fun (ch, n) => (ch, n + 1)
    else .error (.invalidEscape (Utf8.headChar after), off)

end JsonCodec.Escape
