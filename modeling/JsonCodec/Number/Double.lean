/-! # Binary64 numbers

`Double` holds the 64 bits of an IEEE 754 binary64 number: a sign bit, eleven exponent bits and
fifty-two fraction bits. Every field is read off the bits by `Nat` division, so a finite number is
the exact product `significand · 2 ^ exponent` and lemmas about it are statements about naturals.
Powers are written `Nat.pow` and `Int.pow` in full, here and in the modules built on this one, so
that they are core's powers whatever algebra library is loaded beside them.

* `Double.ofFields` assembles a number from sign, biased exponent and fraction;
* `Double.significand` and `Double.exponent` give the exact value of a finite number;
* `Double.truncate` is the integer part of a finite number, and `Double.clampToInt` the conversion
  to a bounded integer range that sends NaN to zero and infinities to the nearer bound.
-/

namespace JsonCodec

/-- An IEEE 754 binary64 number, held as its bit pattern. -/
structure Double where
  bits : UInt64
deriving DecidableEq, Inhabited

namespace Double

/-- The fraction field: the low 52 bits. -/
def fraction (x : Double) : Nat := x.bits.toNat % Nat.pow 2 52

/-- The biased exponent field: the 11 bits above the fraction. -/
def biasedExponent (x : Double) : Nat := x.bits.toNat / Nat.pow 2 52 % Nat.pow 2 11

/-- The sign bit, set for negative numbers, for -0 and for some NaNs. -/
def sign (x : Double) : Bool := decide (Nat.pow 2 63 ≤ x.bits.toNat)

/-- Assembles a number from its sign, biased exponent (below 2048) and fraction (below 2^52). -/
def ofFields (neg : Bool) (e f : Nat) : Double :=
  ⟨UInt64.ofNat ((if neg then Nat.pow 2 63 else 0) + e * Nat.pow 2 52 + f)⟩

/-- Zero with the given sign. -/
def zero (neg : Bool) : Double := ofFields neg 0 0

/-- Infinity with the given sign. -/
def infinity (neg : Bool) : Double := ofFields neg 2047 0

/-- The quiet NaN with a clear sign bit. -/
def nan : Double := ofFields false 2047 (Nat.pow 2 51)

/-- Whether the number is a NaN: all exponent bits set and a nonzero fraction. -/
def isNaN (x : Double) : Bool := x.biasedExponent == 2047 && x.fraction != 0

/-- Whether the number is an infinity of either sign. -/
def isInfinite (x : Double) : Bool := x.biasedExponent == 2047 && x.fraction == 0

/-- Whether the number is neither NaN nor infinite. -/
def isFinite (x : Double) : Bool := x.biasedExponent != 2047

/-- Whether the number is zero of either sign. -/
def isZero (x : Double) : Bool := x.biasedExponent == 0 && x.fraction == 0

/-- The same number with the sign bit flipped. -/
def neg (x : Double) : Double := ofFields (!x.sign) x.biasedExponent x.fraction

/-- The same number with the sign bit cleared. -/
def abs (x : Double) : Double := ofFields false x.biasedExponent x.fraction

/-- The integer significand of a finite number: the fraction, with the hidden bit when normal. -/
def significand (x : Double) : Nat :=
  if x.biasedExponent = 0 then x.fraction else x.fraction + Nat.pow 2 52

/-- The power of two that scales the significand of a finite number. -/
def exponent (x : Double) : Int :=
  if x.biasedExponent = 0 then -1074 else (x.biasedExponent : Int) - 1075

/-- Whether a finite number is a whole number. -/
def isIntegral (x : Double) : Bool :=
  x.isFinite && (decide (0 ≤ x.exponent) || x.significand % Nat.pow 2 (-x.exponent).toNat == 0)

/-- The integer part of a finite number, rounded toward zero. -/
def truncate (x : Double) : Int :=
  let m : Nat :=
    if 0 ≤ x.exponent then x.significand * Nat.pow 2 x.exponent.toNat
    else x.significand / Nat.pow 2 (-x.exponent).toNat
  if x.sign then -(m : Int) else m

/-- Conversion to the integers from `lo` to `hi` (with `lo ≤ 0 ≤ hi`): finite numbers are
truncated and then clamped, infinities go to the bound on their side, and NaN goes to zero. -/
def clampToInt (lo hi : Int) (x : Double) : Int :=
  if x.isNaN then 0
  else if x.isInfinite then (if x.sign then lo else hi)
  else max lo (min hi x.truncate)

/-- Conversion to a 32-bit signed integer, clamping as `clampToInt` does. -/
def toInt32 (x : Double) : Int32 := Int32.ofInt (clampToInt (-Int.pow 2 31) (Int.pow 2 31 - 1) x)

/-- Conversion to a 64-bit signed integer, clamping as `clampToInt` does. -/
def toInt64 (x : Double) : Int64 := Int64.ofInt (clampToInt (-Int.pow 2 63) (Int.pow 2 63 - 1) x)

/-- Conversion to a 32-bit unsigned integer, clamping as `clampToInt` does. -/
def toUInt32 (x : Double) : UInt32 := UInt32.ofNat (clampToInt 0 (Int.pow 2 32 - 1) x).toNat

/-- Compares magnitudes of two numbers that are not NaN: for such numbers the order of the
magnitudes is the order of the bit patterns with the sign bit cleared. -/
def magnitudeLt (x y : Double) : Bool := x.abs.bits.toNat < y.abs.bits.toNat

/-- The stored fraction takes 52 bits. -/
@[simp] theorem fraction_lt (x : Double) : x.fraction < Nat.pow 2 52 := Nat.mod_lt _ (by decide)

/-- The biased exponent takes 11 bits. -/
@[simp] theorem biasedExponent_lt (x : Double) : x.biasedExponent < 2048 := Nat.mod_lt _ (by decide)

end Double

end JsonCodec
