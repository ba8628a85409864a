import JsonCodec.Number.Round

/-! # Numbers in relaxed text

`Double.parse?` reads a number written more freely than JSON allows: an optional `+` or `-`, then
either one of the words `inf`, `infinity` and `nan` in any mix of case, or digits with an optional
point that has digits on at least one side (`.5`, `5.`), and an optional exponent (`e` or `E`, an
optional sign, at least one digit). The value is rounded as `Decimal.toDouble` rounds. Anything
else, the empty text included, is refused.
-/

namespace JsonCodec.Double

/-- Whether a character is an ASCII digit. -/
def isDigitChar (c : Char) : Bool := '0' ≤ c && c ≤ '9'

/-- The value of a run of ASCII digits. -/
def digitCharsValue (ds : List Char) : Nat :=
  ds.foldl (fun n d => n * 10 + (d.toNat - '0'.toNat)) 0

/-- A leading sign: whether it is a minus, and the characters after it. -/
def leadingSign : List Char → Bool × List Char
  | '-' :: r => (true, r)
  | '+' :: r => (false, r)
  | r => (false, r)

/-- The exponent at the end of the text: nothing, or `e`/`E`, an optional sign and digits. -/
def exponent? : List Char → Option Int
  | [] => some 0
  | c :: r =>
    if c = 'e' ∨ c = 'E' then
      let (neg, r) := leadingSign r
      let (ds, rest) := r.span isDigitChar
      if ds.isEmpty || !rest.isEmpty then none
      else
        let v : Int := digitCharsValue ds
        some (if neg then -v else v)
    else none

/-- Reads a number in the relaxed form. -/
def parse? (s : String) : Option Double :=
  let (neg, cs) := leadingSign s.toList
  let word := String.ofList (cs.map Char.toLower)
  if word = "inf" ∨ word = "infinity" then some (infinity neg)
  else if word = "nan" then some nan
  else
    let (ints, r) := cs.span isDigitChar
    let (fracs, r) : List Char × List Char := match r with
      | '.' :: r' => r'.span isDigitChar
      | _ => ([], r)
    if ints.isEmpty && fracs.isEmpty then none
    else
      (exponent? r).map fun e =>
        (Decimal.mk neg (digitCharsValue (ints ++ fracs)) (e - fracs.length)).toDouble

end JsonCodec.Double
