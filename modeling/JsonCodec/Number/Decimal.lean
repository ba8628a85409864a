/-! # Decimal numbers

A `Decimal` is a sign, a natural number of digits and a power of ten: the exact value of a number
as it is written in decimal text. It is what the scanner reads off a number token and what the
shortest-digits search hands to the printer.

`Decimal.positional` writes all digits with the point placed by the exponent (`0.00015`,
`1200`); `Decimal.scientific` writes one digit before the point and the exponent after `e`
(`1.5e-7`, `1e21`), with no plus sign and no padding. Neither writes trailing zeros after a point.
-/

namespace JsonCodec

/-- The number `(-1)^neg · digits · 10^exp`. -/
structure Decimal where
  neg : Bool
  digits : Nat
  exp : Int
deriving DecidableEq, Inhabited

namespace Decimal

/-- Removes trailing zero digits, raising the exponent to keep the value. -/
def normalize (d : Decimal) : Decimal :=
  if h : d.digits ≠ 0 ∧ d.digits % 10 = 0 then
    have : d.digits / 10 < d.digits := Nat.div_lt_self (Nat.pos_of_ne_zero h.1) (by decide)
    normalize { d with digits := d.digits / 10, exp := d.exp + 1 }
  else d
termination_by d.digits
decreasing_by omega

/-- The sign of a decimal as written: a minus when it is negative. -/
def signText (d : Decimal) : String := if d.neg then "-" else ""

/-- The digits written out in full, with a point where the exponent puts one. -/
def positional (d : Decimal) : String :=
  let s := toString d.digits
  if 0 ≤ d.exp then
    signText d ++ s ++ String.ofList (List.replicate d.exp.toNat '0')
  else
    let shift := (-d.exp).toNat
    if shift < s.length then
      let cs := s.toList
      signText d ++ String.ofList (cs.take (s.length - shift)) ++ "." ++
        String.ofList (cs.drop (s.length - shift))
    else
      signText d ++ "0." ++ String.ofList (List.replicate (shift - s.length) '0') ++ s

/-- One digit, then the others after a point if there are any, then `e` and the exponent. -/
def scientific (d : Decimal) : String :=
  let cs := (toString d.digits).toList
  let power : Int := d.exp + (cs.length - 1 : Nat)
  let head := String.ofList (cs.take 1)
  let tail := if cs.length > 1 then "." ++ String.ofList (cs.drop 1) else ""
  signText d ++ head ++ tail ++ "e" ++ toString power

example : positional ⟨false, 15, -5⟩ = "0.00015" := by decide
example : positional ⟨true, 12, 2⟩ = "-1200" := by decide
example : positional ⟨false, 123456, -3⟩ = "123.456" := by decide
example : scientific ⟨false, 15, -8⟩ = "1.5e-7" := by decide
example : scientific ⟨false, 1, 21⟩ = "1e21" := by decide

end Decimal

end JsonCodec
