import JsonCodec.Number.Shortest

/-! # Numbers in written documents

Whole numbers are written in decimal. A binary64 number is written by these rules, in order: NaN
and the infinities as `null`; both zeros as `0`; a whole number below 2^53 in magnitude as an
integer; a magnitude from 1e-6 up to (not including) 1e21 in positional notation with the
shortest digits that read back; everything else in scientific notation with those digits
(`1e21`, `1.5e-7`, `5e-324`).
-/

namespace JsonCodec

/-- The decimal text of a whole number. -/
def integerText (n : Int) : String := toString n

namespace Double

/-- 2^53, below which every whole number is exact. -/
def exactIntegerBound : Double := (Decimal.mk false (Nat.pow 2 53) 0).toDouble

/-- 1e-6, the least magnitude written positionally. -/
def positionalLow : Double := (Decimal.mk false 1 (-6)).toDouble

/-- 1e21, the least magnitude written in scientific notation again. -/
def positionalHigh : Double := (Decimal.mk false 1 21).toDouble

/-- The text of a number in a written document. -/
def jsonText (x : Double) : String :=
  if !x.isFinite then "null"
  else if x.isZero then "0"
  else if x.magnitudeLt exactIntegerBound && x.isIntegral then integerText x.truncate
  else if !x.magnitudeLt positionalLow && x.magnitudeLt positionalHigh then x.shortest.positional
  else x.shortest.scientific

end Double

end JsonCodec
