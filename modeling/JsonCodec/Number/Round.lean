import JsonCodec.Number.Double
import JsonCodec.Number.Decimal

/-! # Rounding to binary64

`Double.roundQuotient neg p q` is the number nearest to `±p / q`, a tie going to the even
significand; magnitudes from the overflow threshold up become infinity and those at most half the
least subnormal become zero. The quotient is never divided early: the binary exponent comes from
bit lengths and one exact comparison, and the significand from one division with remainder.

`Decimal.toDouble` rounds a decimal this way. Exponents so large or so small that the result is
certainly infinite or zero are settled from the digit count alone, so text such as `1e999999999`
costs nothing.
-/

namespace JsonCodec

namespace Double

/-- Whether `p / q ≥ 2 ^ k`, compared as a product of naturals. -/
def quotientAtLeastPow2 (p q : Nat) (k : Int) : Bool :=
  q * Nat.pow 2 k.toNat ≤ p * Nat.pow 2 (-k).toNat

/-- The integer part of `log₂ (p / q)` for positive `p` and `q`: the bit lengths give it up to
one, and one comparison settles which. -/
def floorLog2Quotient (p q : Nat) : Int :=
  let est : Int := (p.log2 : Int) - q.log2
  if quotientAtLeastPow2 p q est then est else est - 1

/-- The number nearest to `p / q` with the sign `neg`; a tie goes to the even significand. -/
def roundQuotient (neg : Bool) (p q : Nat) : Double :=
  if p = 0 then zero neg
  else
    let e : Int := max (floorLog2Quotient p q - 52) (-1074)
    let num := p * Nat.pow 2 (-e).toNat
    let den := q * Nat.pow 2 e.toNat
    let m := num / den
    let r := num % den
    let m := if den < 2 * r ∨ (2 * r = den ∧ m % 2 = 1) then m + 1 else m
    -- rounding up may carry into a new binade
    let (m, e) := if m = Nat.pow 2 53 then (Nat.pow 2 52, e + 1) else (m, e)
    if m < Nat.pow 2 52 then ofFields neg 0 m
    else
      let be := (e + 1075).toNat
      if 2047 ≤ be then infinity neg else ofFields neg be (m - Nat.pow 2 52)

/-- The conversion of an unsigned 64-bit integer: the nearest number, a tie going to the even
significand. -/
def ofUInt64 (w : UInt64) : Double := roundQuotient false w.toNat 1

end Double

namespace Decimal

/-- The binary64 number nearest to the decimal, ties to even. -/
def toDouble (d : Decimal) : Double :=
  if d.digits = 0 then Double.zero d.neg
  else if 0 ≤ d.exp then
    -- digits · 10^exp ≥ 2^(log₂ digits + 3 exp): at least 2^1024 is past every finite number
    if 1024 ≤ d.digits.log2 + 3 * d.exp.toNat then Double.infinity d.neg
    else Double.roundQuotient d.neg (d.digits * Nat.pow 10 d.exp.toNat) 1
  else
    let n := (-d.exp).toNat
    -- digits / 10^n < 2^(log₂ digits + 1 - 3 n): at most 2^-1076 rounds to zero
    if d.digits.log2 + 1077 ≤ 3 * n then Double.zero d.neg
    else Double.roundQuotient d.neg d.digits (Nat.pow 10 n)

end Decimal

end JsonCodec
