import JsonCodec.Number.Round

/-! # Shortest decimal digits

`Double.shortest x` is the decimal with the fewest significant digits that rounds back to `x`;
of two such decimals at that length the nearer to `x` wins, and an exact tie goes to the one of
greater magnitude. Zero gives zero digits.

The rounding interval of a positive finite `x = m · 2^q` reaches half a unit in the last place to
either side (a quarter below when `m` is the least significand of a binade above the first), and
includes its ends exactly when `m` is even. For each length `n = 1, 2, …, 17` the search takes the
two neighbours of `x` on the grid of `n`-digit decimals and tests them against the interval in
exact `Nat` arithmetic: the first length with a hit wins. Seventeen digits always suffice.
-/

namespace JsonCodec

namespace Double

/-- The scaled view of a positive finite number used by the search: the value is
`value / 2 ^ (2 + eNeg)`, the interval reaches `above` up and `below` down in the same unit. -/
private structure Interval where
  value : Nat
  above : Nat
  below : Nat
  eNeg : Nat
  inclusive : Bool

/-- The interval of a positive finite number: its significand and the halfway points to its
neighbours, scaled to whole numbers; the lower neighbour is nearer at the bottom of a binade. -/
private def interval (x : Double) : Interval :=
  let m := x.significand
  let ePos := x.exponent.toNat
  let up := Nat.pow 2 (1 + ePos)
  { value := m * Nat.pow 2 (2 + ePos)
    above := up
    below := if m = Nat.pow 2 52 ∧ 1 < x.biasedExponent then Nat.pow 2 ePos else up
    eNeg := (-x.exponent).toNat
    inclusive := m % 2 == 0 }

/-- Whether `10 ^ j` is at most the value. -/
private def Interval.pow10Le (iv : Interval) (j : Int) : Bool :=
  Nat.pow 10 j.toNat * Nat.pow 2 (2 + iv.eNeg) ≤ iv.value * Nat.pow 10 (-j).toNat

/-- The integer part of `log₁₀` of the value: `log₂` times 0.30103 is within one of it, and at
most three comparisons with powers of ten settle it. -/
private def Interval.floorLog10 (iv : Interval) : Int :=
  let fl2 : Int := (iv.value.log2 : Int) - (2 + iv.eNeg)
  let est := fl2 * 30103 / 100000
  if iv.pow10Le (est + 2) then est + 2
  else if iv.pow10Le (est + 1) then est + 1
  else if iv.pow10Le est then est
  else est - 1

/-- The `n`-digit neighbour of the value that lies in the interval, if one does: the nearer of
the two, an exact tie going up. The result `c` stands for `c · 10 ^ k`. -/
private def Interval.hit (iv : Interval) (k : Int) : Option Nat :=
  let p := Nat.pow 10 k.toNat
  let q := Nat.pow 10 (-k).toNat
  let unit := p * Nat.pow 2 (2 + iv.eNeg)
  -- everything below is scaled by q · 2 ^ (2 + eNeg)
  let v := iv.value * q
  let lo := (iv.value - iv.below) * q
  let hi := (iv.value + iv.above) * q
  let inside (a : Nat) : Bool :=
    if iv.inclusive then lo ≤ a && a ≤ hi else lo < a && a < hi
  let t := v / unit
  let down := t * unit
  let up := (t + 1) * unit
  match inside down, inside up with
  | true, true => if v - down < up - v then some t else some (t + 1)
  | true, false => some t
  | false, true => some (t + 1)
  | false, false => none

/-- Tries lengths `n` up to 17 in turn; `f` is the decimal exponent of the value. -/
private def Interval.search (iv : Interval) (f : Int) : Nat → Nat → Decimal
  | 0, _ => ⟨false, iv.value / Nat.pow 2 (2 + iv.eNeg), 0⟩
  | fuel + 1, n =>
    let k := f - n + 1
    match iv.hit k with
    | some c => ⟨false, c, k⟩
    | none => if n < 17 then iv.search f fuel (n + 1)
      else
        ⟨false, (iv.value * Nat.pow 10 (-k).toNat) / (Nat.pow 10 k.toNat * Nat.pow 2 (2 + iv.eNeg)),
          k⟩

/-- The shortest decimal that rounds back to a finite number, nearest among those of its length,
an exact tie going away from zero; trailing zeros removed. Zero gives zero digits. -/
def shortest (x : Double) : Decimal :=
  if x.isZero then ⟨x.sign, 0, 0⟩
  else
    let iv := interval x
    let d := iv.search iv.floorLog10 17 1
    Decimal.normalize { d with neg := x.sign }

end Double

end JsonCodec
