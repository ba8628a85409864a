import JsonCodec.Number.Round
import JsonCodec.Unicode.Utf8
import JsonCodec.Unicode.Space
import JsonCodec.Error

/-! # Lexemes

The pieces of JSON text that are read off the front of the remaining bytes without looking at
anything before them: white space, the words `null`, `true` and `false`, and numbers. Each reader
returns how many bytes the piece takes, so that a scanner can step over it.

A number follows `-? (0 | [1-9][0-9]*) (. [0-9]+)? ([eE] [+-]? [0-9]+)?`, read as the longest
match of that grammar: a zero followed by a digit, and a point or exponent mark with no digit after
it, break the grammar. `number?` gives the exact `Decimal` value of the lexeme. `scanNumber`
gives the binary64 value the scanner hands out: a plain integer of at most eighteen digits is
accumulated in a 64-bit word and converted, and every other lexeme is rounded from its decimal.
-/

namespace JsonCodec.Lexeme

/-- Whether a byte is an ASCII digit. -/
def isDigit (b : UInt8) : Bool := 0x30 ≤ b && b ≤ 0x39

/-- Whether a byte is an ASCII letter. -/
def isAlpha (b : UInt8) : Bool := (0x41 ≤ b && b ≤ 0x5A) || (0x61 ≤ b && b ≤ 0x7A)

/-- Whether a byte is one of the four blanks of JSON: space, line feed, carriage return, tab. -/
def isBlank (b : UInt8) : Bool := b == 0x20 || b == 0x0A || b == 0x0D || b == 0x09

/-- The length of the white space at the front, added to `acc`: the four JSON blanks, and with
`unicode` also every character with the White_Space property. -/
def spaceLengthFrom (unicode : Bool) (acc : Nat) (bs : List UInt8) : Nat :=
  match bs with
  | [] => acc
  | b :: rest =>
    if isBlank b then spaceLengthFrom unicode (acc + 1) rest
    else if unicode then
      match h : Utf8.decodeChar? (b :: rest) with
      | some (c, r) =>
        have : r.length < (b :: rest).length := Utf8.decodeChar?_length_lt h
        if Unicode.isSpace c then spaceLengthFrom unicode (acc + c.utf8Size) r else acc
      | none => acc
    else acc
termination_by bs.length
decreasing_by all_goals (simp only [List.length_cons] at *; omega)

/-- The length of the white space at the front. -/
def spaceLength (unicode : Bool) (bs : List UInt8) : Nat := spaceLengthFrom unicode 0 bs

/-- The value of a run of ASCII digits. -/
def digitsValue (ds : List UInt8) : Nat := ds.foldl (fun n d => n * 10 + (d.toNat - 0x30)) 0

/-- The integer part at the front: a lone zero, or a nonzero digit and the digits after it. -/
def integerPart? : List UInt8 → Option (List UInt8 × List UInt8)
  | [] => none
  | d :: r =>
    if d = 0x30 then
      match r with
      | e :: _ => if isDigit e then none else some ([d], r)
      | [] => some ([d], r)
    else if isDigit d then
      let (ds, r') := r.span isDigit
      some (d :: ds, r')
    else none

/-- The fraction at the front: nothing, or a point and at least one digit. Gives the digits,
the length with the point, and the bytes after. -/
def fractionPart? : List UInt8 → Option (List UInt8 × Nat × List UInt8)
  | [] => some ([], 0, [])
  | b :: r =>
    if b = 0x2E then
      let (ds, r') := r.span isDigit
      if ds.isEmpty then none else some (ds, ds.length + 1, r')
    else some ([], 0, b :: r)

/-- The exponent at the front: nothing, or `e` or `E`, an optional sign and at least one digit.
Gives its value and its length. -/
def exponentPart? : List UInt8 → Option (Int × Nat)
  | [] => some (0, 0)
  | b :: r =>
    if b = 0x65 ∨ b = 0x45 then
      let (neg, k, r') : Bool × Nat × List UInt8 :=
        match r with
        | 0x2D :: t => (true, 1, t)
        | 0x2B :: t => (false, 1, t)
        | t => (false, 0, t)
      let ds := r'.takeWhile isDigit
      if ds.isEmpty then none
      else
        let v : Int := digitsValue ds
        some (if neg then -v else v, 1 + k + ds.length)
    else some (0, 0)

/-- A number lexeme as the grammar splits it: the sign, the integer digits, the fraction digits,
the exponent, whether it is a plain integer (neither a point nor an exponent is written), and its
length in bytes. -/
structure NumberLexeme where
  neg : Bool
  ints : List UInt8
  fracs : List UInt8
  exp : Int
  integral : Bool
  length : Nat

/-- The exact value a number lexeme spells. -/
def NumberLexeme.decimal (l : NumberLexeme) : Decimal :=
  ⟨l.neg, digitsValue (l.ints ++ l.fracs), l.exp - l.fracs.length⟩

/-- The number lexeme at the front, or none where the bytes break the grammar of a number. -/
def numberLexeme? (bs : List UInt8) : Option NumberLexeme := do
  let (neg, k) : Bool × Nat := match bs with
    | 0x2D :: _ => (true, 1)
    | _ => (false, 0)
  let (ints, r) ← integerPart? (bs.drop k)
  let (fracs, fracLen, r) ← fractionPart? r
  let (e, expLen) ← exponentPart? r
  some ⟨neg, ints, fracs, e, fracLen == 0 && expLen == 0, k + ints.length + fracLen + expLen⟩

/-- The number at the front: its exact value and its length, or none where the bytes break the
grammar of a number. -/
def number? (bs : List UInt8) : Option (Decimal × Nat) :=
  (numberLexeme? bs).map fun l => (l.decimal, l.length)

/-- Integer lexemes of at most this many digits are accumulated exactly in a 64-bit word. -/
def fastIntegerDigits : Nat := 18

/-- Digits accumulated in a 64-bit word, most significant first; the word arithmetic wraps. -/
def digitsWord (ds : List UInt8) : UInt64 :=
  ds.foldl (fun n d => n * 10 + (d - 0x30).toUInt64) 0

/-- The binary64 value the scanner gives a number lexeme. A plain integer of at most `fast`
digits is accumulated in a 64-bit word, converted to the nearest double and given its sign;
every other lexeme is rounded from the decimal it spells, as a general decimal reader does. -/
def NumberLexeme.toDouble (fast : Nat) (l : NumberLexeme) : Double :=
  if l.integral && decide (l.ints.length ≤ fast) then
    let m := Double.ofUInt64 (digitsWord l.ints)
    if l.neg then m.neg else m
  else l.decimal.toDouble

/-- The number at the front as the scanner reads it, plain integers of at most `fast` digits
taking the word path: its binary64 value and its length. -/
def scanNumber (fast : Nat) (bs : List UInt8) : Option (Double × Nat) :=
  (numberLexeme? bs).map fun l => (l.toDouble fast, l.length)

/-- The bytes of the three words of JSON. -/
def nullWord : List UInt8 := [0x6E, 0x75, 0x6C, 0x6C]
/-- The bytes of `true`. -/
def trueWord : List UInt8 := [0x74, 0x72, 0x75, 0x65]
/-- The bytes of `false`. -/
def falseWord : List UInt8 := [0x66, 0x61, 0x6C, 0x73, 0x65]

/-- The word of ASCII letters at the front as a token, with its length; any word other than
`null`, `true` and `false` is a fault that names it. -/
def literal (bs : List UInt8) : Except SyntaxFault (Token × Nat) :=
  let word := bs.takeWhile isAlpha
  if word = nullWord then .ok (.null, 4)
  else if word = trueWord then .ok (.bool true, 4)
  else if word = falseWord then .ok (.bool false, 5)
  else .error (.invalidLiteral (String.ofList (word.map fun b => Char.ofNat b.toNat)))

example : number? [0x2D, 0x31, 0x2E, 0x35, 0x65, 0x33, 0x5D] = some (⟨true, 15, 2⟩, 6) := by decide
example : number? [0x30, 0x31] = none := by decide
example : number? [0x31, 0x2E] = none := by decide

end JsonCodec.Lexeme
