import JsonCodec.Number.Round
import Mathlib

/-! # Decimals read as the nearest double

`Decimal.toDouble` rounds the exact value of a decimal to binary64: to the nearest finite number,
a tie going to the even significand, to infinity from `2 ^ 1024 - 2 ^ 970` up, and with the
decimal's sign kept, on zero too (`RoundsTo`). The statement is over the rationals, against every
finite number; the code never leaves the naturals.

* `pack` and `roundHalfEven` name the two halves of `Double.roundQuotient`: the significand is
  `p / q` scaled to the last place and rounded half to even, then packed into the fields.
* `floorLog2Quotient_spec`: bit lengths and one comparison give `⌊log₂ (p / q)⌋` exactly, so the
  scaled quotient has 53 bits, or fewer only for subnormals.
* `roundHalfEven_nearest`: the rounded significand is the nearest natural to the scaled quotient.
* `exists_grid_or_below`: every finite number lies on the grid of the last place, or below the
  binade the quotient lies in; so the nearest point of the grid is the nearest finite number.
* `roundQuotient_roundsTo` and `toDouble_roundsTo`: the rounding is correct, the shortcuts of
  `toDouble` for huge and tiny exponents included.
-/

namespace JsonCodec

namespace Double

/-! ### Fields and values -/

/-- The exact value of a finite number: its significand times its power of two, with its sign. -/
def value (x : Double) : ℚ := (if x.sign then -1 else 1) * (x.significand * 2 ^ x.exponent)

/-- The least magnitude that rounds to infinity: halfway between the greatest finite number,
`(2 ^ 53 - 1) · 2 ^ 971`, and `2 ^ 1024`. -/
def overflowThreshold : ℚ := 2 ^ 1024 - 2 ^ 970

/-- `x` is `v` rounded to binary64, to nearest with ties to even: its sign is `neg` (which
matters when `v` is zero), it is infinite exactly when `|v|` reaches the threshold and finite
otherwise, no finite number is nearer to `v`, and one as near with another value leaves `x`
with an even significand. -/
structure RoundsTo (neg : Bool) (v : ℚ) (x : Double) : Prop where
  sign : x.sign = neg
  infinite_iff : x.isInfinite = true ↔ overflowThreshold ≤ |v|
  finite_iff : x.isFinite = true ↔ |v| < overflowThreshold
  nearest : x.isFinite = true → ∀ y : Double, y.isFinite = true → |x.value - v| ≤ |y.value - v|
  tie_even : x.isFinite = true → ∀ y : Double, y.isFinite = true →
    |y.value - v| = |x.value - v| → y.value ≠ x.value → x.significand % 2 = 0

/-- The bits of a number built from fields that fit: sign bit, biased exponent and fraction side by
side. -/
theorem ofFields_bits {neg : Bool} {e f : Nat} (he : e < 2048) (hf : f < 2 ^ 52) :
    (ofFields neg e f).bits.toNat = (if neg then 2 ^ 63 else 0) + e * 2 ^ 52 + f := by
  have hlt : (if neg then 2 ^ 63 else 0) + e * 2 ^ 52 + f < 2 ^ 64 := by
    split <;> omega
  simp only [ofFields, Nat.pow_eq, UInt64.toNat_ofNat', Nat.mod_eq_of_lt hlt]

section Fields

variable {neg : Bool} {e f : Nat}

/-- A number built from fields has the sign it was given. -/
@[simp] theorem sign_ofFields (he : e < 2048) (hf : f < 2 ^ 52) : (ofFields neg e f).sign = neg := by
  simp only [sign, Nat.pow_eq, ofFields_bits he hf]
  cases neg <;> simp <;> omega

/-- A number built from fields has the biased exponent it was given. -/
@[simp] theorem biasedExponent_ofFields (he : e < 2048) (hf : f < 2 ^ 52) :
    (ofFields neg e f).biasedExponent = e := by
  simp only [biasedExponent, Nat.pow_eq, ofFields_bits he hf]
  cases neg <;> simp <;> omega

/-- A number built from fields has the fraction it was given. -/
@[simp] theorem fraction_ofFields (he : e < 2048) (hf : f < 2 ^ 52) :
    (ofFields neg e f).fraction = f := by
  simp only [fraction, Nat.pow_eq, ofFields_bits he hf]
  cases neg <;> simp <;> omega

/-- Below the all-ones exponent, a number built from fields is finite. -/
theorem isFinite_ofFields (he : e < 2047) (hf : f < 2 ^ 52) : (ofFields neg e f).isFinite = true := by
  simp only [isFinite, biasedExponent_ofFields (show e < 2048 by omega) hf]
  simpa using Nat.ne_of_lt he

/-- A subnormal's significand is its fraction, with no hidden bit. -/
theorem significand_ofFields_zero (hf : f < 2 ^ 52) : (ofFields neg 0 f).significand = f := by
  rw [significand, biasedExponent_ofFields (by decide) hf, fraction_ofFields (by decide) hf,
    if_pos rfl]

/-- Every subnormal has the least exponent. -/
theorem exponent_ofFields_zero (hf : f < 2 ^ 52) : (ofFields neg 0 f).exponent = -1074 := by
  rw [exponent, biasedExponent_ofFields (by decide) hf, if_pos rfl]

/-- A normal number's significand is its fraction with the hidden bit. -/
theorem significand_ofFields (he : 0 < e) (he' : e < 2048) (hf : f < 2 ^ 52) :
    (ofFields neg e f).significand = f + 2 ^ 52 := by
  rw [significand, biasedExponent_ofFields he' hf, fraction_ofFields he' hf,
    if_neg (Nat.ne_of_gt he), Nat.pow_eq]

/-- A normal number's exponent is its biased exponent less the bias and the 52 places of the
fraction. -/
theorem exponent_ofFields (he : 0 < e) (he' : e < 2048) (hf : f < 2 ^ 52) :
    (ofFields neg e f).exponent = (e : Int) - 1075 := by
  rw [exponent, biasedExponent_ofFields he' hf, if_neg (Nat.ne_of_gt he)]

end Fields

/-- Infinity has the sign it was given. -/
@[simp] theorem sign_infinity (neg : Bool) : (infinity neg).sign = neg :=
  sign_ofFields (by decide) (by decide)

/-- Infinity is infinite. -/
@[simp] theorem isInfinite_infinity (neg : Bool) : (infinity neg).isInfinite = true := by
  simp [isInfinite, infinity]

/-- Infinity is not finite. -/
@[simp] theorem isFinite_infinity (neg : Bool) : (infinity neg).isFinite = false := by
  simp [isFinite, infinity]

/-- Zero has the sign it was given. -/
@[simp] theorem sign_zero (neg : Bool) : (zero neg).sign = neg :=
  sign_ofFields (by decide) (by decide)

/-- Zero of either sign is finite. -/
@[simp] theorem isFinite_zero (neg : Bool) : (zero neg).isFinite = true :=
  isFinite_ofFields (by decide) (by decide)

/-- Zero has no significand. -/
@[simp] theorem significand_zero (neg : Bool) : (zero neg).significand = 0 :=
  significand_ofFields_zero (by decide)

/-- Zero of either sign is worth zero. -/
@[simp] theorem value_zero (neg : Bool) : (zero neg).value = 0 := by
  simp [value]

/-- A finite number is not infinite. -/
theorem isInfinite_of_isFinite {x : Double} (h : x.isFinite = true) : x.isInfinite = false := by
  simp only [isFinite, bne_iff_ne, ne_eq] at h
  simp [isInfinite, h]

/-- The sign in front of a magnitude. -/
def signed (neg : Bool) (r : ℚ) : ℚ := (if neg then -1 else 1) * r

/-- A sign does not change the magnitude. -/
@[simp] theorem abs_signed (neg : Bool) (r : ℚ) : |signed neg r| = |r| := by
  cases neg <;> simp [signed]

/-- The value of a finite number is its magnitude with its sign. -/
theorem value_eq_signed (x : Double) : x.value = signed x.sign (x.significand * 2 ^ x.exponent) :=
  rfl

/-! ### Every finite number on a grid -/

/-- No finite number has an exponent below that of the subnormals. -/
theorem exponent_ge (x : Double) : -1074 ≤ x.exponent := by
  unfold exponent
  split <;> omega

/-- Every significand has at most 53 bits. -/
theorem significand_lt (x : Double) : x.significand < 2 ^ 53 := by
  have := x.fraction_lt
  unfold significand
  split <;> simp only [Nat.pow_eq] at * <;> omega

/-- Above the least exponent, the significand has its hidden bit. -/
theorem significand_ge (x : Double) (h : x.exponent ≠ -1074) : 2 ^ 52 ≤ x.significand := by
  unfold exponent at h
  unfold significand
  split
  · simp_all
  · simp

/-- The magnitude of a finite number is its significand times its power of two. -/
theorem abs_value (x : Double) : |x.value| = x.significand * 2 ^ x.exponent := by
  rw [value_eq_signed, abs_signed, abs_of_nonneg (by positivity)]

/-- Against the grid of multiples of `2 ^ e`, a finite number lies on the grid, or below
`2 ^ (e + 52)` with `e` above the least exponent: only a smaller exponent leaves the grid, and
its significand has at most 53 bits. -/
theorem exists_grid_or_below (x : Double) (e : Int) :
    (∃ k : Nat, |x.value| = k * 2 ^ e) ∨ (e ≠ -1074 ∧ |x.value| < 2 ^ (e + 52)) := by
  rw [abs_value]
  by_cases hx : e ≤ x.exponent
  · -- the grid point `significand · 2 ^ (exponent - e)`
    left
    refine ⟨x.significand * 2 ^ (x.exponent - e).toNat, ?_⟩
    have hsplit : x.exponent = (x.exponent - e).toNat + e := by omega
    rw [Nat.cast_mul, Nat.cast_pow, Nat.cast_ofNat, mul_assoc, ← zpow_natCast, ← zpow_add₀ two_ne_zero,
      ← hsplit]
  · right
    have hlow := x.exponent_ge
    refine ⟨by omega, ?_⟩
    calc (x.significand : ℚ) * 2 ^ x.exponent < 2 ^ (53 : Int) * 2 ^ x.exponent := by
          gcongr
          exact_mod_cast x.significand_lt
      _ = 2 ^ (x.exponent + 53) := by rw [zpow_add₀ two_ne_zero, mul_comm]
      _ ≤ 2 ^ (e + 52) := zpow_le_zpow_right₀ (by norm_num) (by omega)

/-! ### The binade of a quotient -/

/-- A natural power of two is the same power with an integer exponent. -/
theorem two_zpow_natCast (n : Nat) : ((2 ^ n : Nat) : ℚ) = (2 : ℚ) ^ (n : Int) := by
  rw [zpow_natCast]
  push_cast
  rfl

/-- The comparison with a power of two, made on naturals, is the comparison of the quotient. -/
theorem quotientAtLeastPow2_iff {p q : Nat} (hq : 0 < q) (k : Int) :
    quotientAtLeastPow2 p q k = true ↔ (2 : ℚ) ^ k ≤ p / q := by
  have hq' : (0 : ℚ) < q := by exact_mod_cast hq
  rw [quotientAtLeastPow2, decide_eq_true_iff, le_div_iff₀ hq', ← Nat.cast_le (α := ℚ)]
  simp only [Nat.pow_eq]
  push_cast
  rcases le_or_gt 0 k with hk | hk
  · -- a whole power: `q · 2 ^ k ≤ p`
    obtain ⟨n, rfl⟩ := Int.eq_ofNat_of_zero_le hk
    simp [mul_comm]
  · -- a fraction: `q ≤ p · 2 ^ -k`
    obtain ⟨n, hn⟩ : ∃ n : Nat, k = -(n : Int) := ⟨(-k).toNat, by omega⟩
    subst hn
    have hpos : (0 : ℚ) < 2 ^ n := by positivity
    simp only [Int.toNat_neg_natCast, pow_zero, mul_one, neg_neg, Int.toNat_natCast, zpow_neg,
      zpow_natCast]
    rw [← div_eq_inv_mul, div_le_iff₀ hpos]

/-- The integer part of `log₂ (p / q)`: the quotient lies in `[2 ^ L, 2 ^ (L + 1))`. -/
theorem floorLog2Quotient_spec {p q : Nat} (hp : 0 < p) (hq : 0 < q) :
    (2 : ℚ) ^ floorLog2Quotient p q ≤ p / q ∧ (p / q : ℚ) < 2 ^ (floorLog2Quotient p q + 1) := by
  have hq' : (0 : ℚ) < q := by exact_mod_cast hq
  -- bit lengths bound each side by a power of two
  have hp₁ : (2 : ℚ) ^ (p.log2 : Int) ≤ p := by
    rw [← two_zpow_natCast]; exact_mod_cast Nat.log2_self_le (Nat.ne_of_gt hp)
  have hp₂ : (p : ℚ) < 2 ^ ((p.log2 : Int) + 1) := by
    rw [show (p.log2 : Int) + 1 = ((p.log2 + 1 : Nat) : Int) by push_cast; rfl, ← two_zpow_natCast]
    exact_mod_cast Nat.lt_log2_self
  have hq₁ : (2 : ℚ) ^ (q.log2 : Int) ≤ q := by
    rw [← two_zpow_natCast]; exact_mod_cast Nat.log2_self_le (Nat.ne_of_gt hq)
  have hq₂ : (q : ℚ) < 2 ^ ((q.log2 : Int) + 1) := by
    rw [show (q.log2 : Int) + 1 = ((q.log2 + 1 : Nat) : Int) by push_cast; rfl, ← two_zpow_natCast]
    exact_mod_cast Nat.lt_log2_self
  set est : Int := (p.log2 : Int) - q.log2 with hest
  -- so the quotient lies strictly between `2 ^ (est - 1)` and `2 ^ (est + 1)`
  have hlo : (2 : ℚ) ^ (est - 1) < p / q := by
    rw [lt_div_iff₀ hq', hest, show (p.log2 : Int) - q.log2 - 1 = p.log2 - (q.log2 + 1) by ring,
      zpow_sub₀ two_ne_zero]
    calc (2 : ℚ) ^ (p.log2 : Int) / 2 ^ ((q.log2 : Int) + 1) * q
        < 2 ^ (p.log2 : Int) / 2 ^ ((q.log2 : Int) + 1) * 2 ^ ((q.log2 : Int) + 1) := by
          gcongr
      _ = 2 ^ (p.log2 : Int) := div_mul_cancel₀ _ (by positivity)
      _ ≤ p := hp₁
  have hhi : (p / q : ℚ) < 2 ^ (est + 1) := by
    rw [div_lt_iff₀ hq', hest, show (p.log2 : Int) - q.log2 + 1 = (p.log2 + 1) - q.log2 by ring,
      zpow_sub₀ two_ne_zero]
    calc (p : ℚ) < 2 ^ ((p.log2 : Int) + 1) := hp₂
      _ = 2 ^ ((p.log2 : Int) + 1) / 2 ^ (q.log2 : Int) * 2 ^ (q.log2 : Int) :=
          (div_mul_cancel₀ _ (by positivity)).symm
      _ ≤ 2 ^ ((p.log2 : Int) + 1) / 2 ^ (q.log2 : Int) * q := by gcongr
  -- one exact comparison settles which of the two binades it is
  unfold floorLog2Quotient
  simp only [← hest]
  split
  · next h => exact ⟨(quotientAtLeastPow2_iff hq est).1 h, hhi⟩
  · next h =>
    refine ⟨hlo.le, ?_⟩
    rw [sub_add_cancel]
    exact lt_of_not_ge fun h' => h ((quotientAtLeastPow2_iff hq est).2 h')

/-! ### Rounding half to even -/

/-- `num / den` rounded to the nearest natural, a tie going to the even one: the rounding step of
`roundQuotient`. -/
def roundHalfEven (num den : Nat) : Nat :=
  if den < 2 * (num % den) ∨ (2 * (num % den) = den ∧ num / den % 2 = 1) then num / den + 1
  else num / den

section HalfEven

variable {num den : Nat}

/-- Where a natural `k` lies against the quotient, in units of `1 / den`. -/
theorem mul_den_cases (den k m₀ : Nat) :
    k * den + den ≤ m₀ * den ∨ k = m₀ ∨ k = m₀ + 1 ∨ m₀ * den + 2 * den ≤ k * den := by
  rcases Nat.lt_or_ge k m₀ with h | h
  · left
    simpa [Nat.succ_mul] using Nat.mul_le_mul_right den (Nat.succ_le_of_lt h)
  · rcases Nat.eq_or_lt_of_le h with h | h
    · exact .inr (.inl h.symm)
    · rcases Nat.eq_or_lt_of_le (Nat.succ_le_of_lt h) with h' | h'
      · exact .inr (.inr (.inl h'.symm))
      · right; right; right
        have := Nat.mul_le_mul_right den (Nat.succ_le_of_lt h')
        simp only [Nat.succ_mul] at this
        omega

/-- In units of `1 / den`, the rounded quotient is no farther from `num / den` than any
natural. -/
theorem roundHalfEven_nearest_int (hden : 0 < den) (k : Nat) :
    |((roundHalfEven num den * den : Nat) : Int) - num| ≤ |((k * den : Nat) : Int) - num| := by
  have hdiv : den * (num / den) + num % den = num := Nat.div_add_mod num den
  have hmod : num % den < den := Nat.mod_lt num hden
  have hcomm : den * (num / den) = num / den * den := Nat.mul_comm _ _
  have hsucc : (num / den + 1) * den = num / den * den + den := Nat.succ_mul _ _
  have hk := mul_den_cases den k (num / den)
  unfold roundHalfEven
  simp only [abs_eq_max_neg]
  rcases hk with hk | rfl | rfl | hk <;> split <;> omega

/-- A natural as near as the rounded quotient, and another, makes a tie: the rounded quotient
is then even. -/
theorem roundHalfEven_tie_int (hden : 0 < den) {k : Nat}
    (hk : |((k * den : Nat) : Int) - num| = |((roundHalfEven num den * den : Nat) : Int) - num|)
    (hne : k ≠ roundHalfEven num den) : roundHalfEven num den % 2 = 0 := by
  have hdiv : den * (num / den) + num % den = num := Nat.div_add_mod num den
  have hmod : num % den < den := Nat.mod_lt num hden
  have hcomm : den * (num / den) = num / den * den := Nat.mul_comm _ _
  have hsucc : (num / den + 1) * den = num / den * den + den := Nat.succ_mul _ _
  have hpos := mul_den_cases den k (num / den)
  unfold roundHalfEven at hk hne ⊢
  simp only [abs_eq_max_neg] at hk
  by_cases hc : den < 2 * (num % den) ∨ (2 * (num % den) = den ∧ num / den % 2 = 1)
  · rw [if_pos hc] at hk hne ⊢
    rcases hpos with hpos | rfl | rfl | hpos <;> omega
  · rw [if_neg hc] at hk hne ⊢
    rcases hpos with hpos | rfl | rfl | hpos <;> omega

/-- The distance of a natural to `num / den`, as a whole number of units `1 / den`. -/
theorem abs_sub_div (hden : 0 < den) (m : Nat) :
    |(m : ℚ) - num / den| = ((|((m * den : Nat) : Int) - num| : Int) : ℚ) / den := by
  have hd : (0 : ℚ) < den := by exact_mod_cast hden
  rw [Int.cast_abs, ← abs_of_pos hd, ← abs_div, abs_of_pos hd]
  congr 1
  push_cast
  field_simp

/-- Rounding half to even gives the natural nearest to the quotient. -/
theorem roundHalfEven_nearest (hden : 0 < den) (k : Nat) :
    |(roundHalfEven num den : ℚ) - num / den| ≤ |(k : ℚ) - num / den| := by
  have hd : (0 : ℚ) < den := by exact_mod_cast hden
  rw [abs_sub_div hden, abs_sub_div hden, div_le_div_iff_of_pos_right hd]
  exact Int.cast_le.mpr (roundHalfEven_nearest_int hden k)

/-- Of two naturals equally near the quotient, rounding half to even gives the even one. -/
theorem roundHalfEven_tie (hden : 0 < den) {k : Nat}
    (hk : |(k : ℚ) - num / den| = |(roundHalfEven num den : ℚ) - num / den|)
    (hne : k ≠ roundHalfEven num den) : roundHalfEven num den % 2 = 0 := by
  have hd : (0 : ℚ) < den := by exact_mod_cast hden
  rw [abs_sub_div hden, abs_sub_div hden, div_left_inj' hd.ne'] at hk
  exact roundHalfEven_tie_int hden (by exact_mod_cast hk) hne

end HalfEven

/-! ### The last place and the packing -/

/-- The last place kept for `p / q`: 52 binary places below its leading bit, but no finer than
the least subnormal. -/
def lastPlace (p q : Nat) : Int := max (floorLog2Quotient p q - 52) (-1074)

/-- Packs `m · 2 ^ e` into a number: a carry to `2 ^ 53` moves to the next binade, a
significand below `2 ^ 52` is subnormal, and an exponent field from 2047 up is infinity. The
packing step of `roundQuotient`. -/
def pack (neg : Bool) (m : Nat) (e : Int) : Double :=
  let (m, e) := if m = Nat.pow 2 53 then (Nat.pow 2 52, e + 1) else (m, e)
  if m < Nat.pow 2 52 then ofFields neg 0 m
  else
    let be := (e + 1075).toNat
    if 2047 ≤ be then infinity neg else ofFields neg be (m - Nat.pow 2 52)

/-- `roundQuotient` scales the quotient to its last place, rounds half to even and packs. -/
theorem roundQuotient_eq {neg : Bool} {p q : Nat} (hp : p ≠ 0) :
    roundQuotient neg p q =
      pack neg (roundHalfEven (p * 2 ^ (-lastPlace p q).toNat) (q * 2 ^ (lastPlace p q).toNat))
        (lastPlace p q) := by
  simp only [roundQuotient, if_neg hp]
  rfl

/-- The quotient in units of `2 ^ e`, as the code computes it on naturals. -/
theorem scaled_div (p q : Nat) (e : Int) :
    ((p * 2 ^ (-e).toNat : Nat) : ℚ) / ((q * 2 ^ e.toNat : Nat) : ℚ) = p / q / 2 ^ e := by
  push_cast
  rcases le_or_gt 0 e with he | he
  · obtain ⟨n, rfl⟩ := Int.eq_ofNat_of_zero_le he
    simp [div_div]
  · obtain ⟨n, hn⟩ : ∃ n : Nat, e = -(n : Int) := ⟨(-e).toNat, by omega⟩
    subst hn
    simp only [Int.toNat_neg_natCast, pow_zero, mul_one, neg_neg, Int.toNat_natCast, zpow_neg,
      zpow_natCast, div_inv_eq_mul]
    ring

/-- In units of the last place the quotient has 53 bits, or fewer at the least exponent. -/
theorem lastPlace_spec {p q : Nat} (hp : 0 < p) (hq : 0 < q) :
    -1074 ≤ lastPlace p q ∧ (p / q / 2 ^ lastPlace p q : ℚ) < 2 ^ 53 ∧
      (lastPlace p q ≠ -1074 → (2 : ℚ) ^ 52 ≤ p / q / 2 ^ lastPlace p q) := by
  obtain ⟨hlo, hhi⟩ := floorLog2Quotient_spec hp hq
  have hpos : (0 : ℚ) < 2 ^ lastPlace p q := by positivity
  refine ⟨le_max_right _ _, ?_, fun he => ?_⟩
  · rw [div_lt_iff₀ hpos]
    calc (p / q : ℚ) < 2 ^ (floorLog2Quotient p q + 1) := hhi
      _ ≤ 2 ^ ((53 : Int) + lastPlace p q) :=
          zpow_le_zpow_right₀ (by norm_num) (by unfold lastPlace; omega)
      _ = 2 ^ 53 * 2 ^ lastPlace p q := by rw [zpow_add₀ two_ne_zero]; norm_num
  · -- above the least exponent the last place is 52 places below the leading bit
    have hL : lastPlace p q = floorLog2Quotient p q - 52 := by unfold lastPlace at he ⊢; omega
    rw [le_div_iff₀ hpos]
    calc (2 : ℚ) ^ 52 * 2 ^ lastPlace p q = 2 ^ ((52 : Int) + lastPlace p q) := by
          rw [zpow_add₀ two_ne_zero]; norm_num
      _ = 2 ^ floorLog2Quotient p q := by rw [hL]; ring_nf
      _ ≤ p / q := hlo

/-- A significand of at least `a` bits scales to at least `2 ^ (a + k)` from exponent `k` up. -/
theorem pow_le_mul_zpow {m a : Nat} {e k : Int} (hm : 2 ^ a ≤ m) (he : k ≤ e) :
    (2 : ℚ) ^ ((a : Int) + k) ≤ m * 2 ^ e := by
  calc (2 : ℚ) ^ ((a : Int) + k) = 2 ^ a * 2 ^ k := by rw [zpow_add₀ two_ne_zero, zpow_natCast]
    _ ≤ m * 2 ^ e :=
        mul_le_mul (by exact_mod_cast hm) (zpow_le_zpow_right₀ (by norm_num) he) (by positivity)
          (by positivity)

/-- A significand below `2 ^ a` scales to below `2 ^ (a + k)` up to exponent `k`. -/
theorem mul_zpow_lt_pow {m a : Nat} {e k : Int} (hm : m < 2 ^ a) (he : e ≤ k) :
    (m : ℚ) * 2 ^ e < 2 ^ ((a : Int) + k) := by
  calc (m : ℚ) * 2 ^ e < 2 ^ a * 2 ^ k :=
        mul_lt_mul (by exact_mod_cast hm) (zpow_le_zpow_right₀ (by norm_num) he) (by positivity)
          (by positivity)
    _ = 2 ^ ((a : Int) + k) := by rw [zpow_add₀ two_ne_zero, zpow_natCast]

/-- A power of two with a whole exponent, written as an integer one. -/
theorem two_zpow_eq_pow {k : Int} {n : Nat} (h : k = n) : (2 : ℚ) ^ k = 2 ^ n := by
  rw [h, zpow_natCast]

section Pack

variable {neg : Bool} {m : Nat} {e : Int}

/-- A significand below `2 ^ 52` packs as a subnormal. -/
theorem pack_subnormal (hm : m < 2 ^ 52) : pack neg m e = ofFields neg 0 m := by
  have hne : m ≠ 2 ^ 53 := by omega
  simp only [pack, Nat.pow_eq, if_neg hne, if_pos hm]

/-- A significand of 53 bits packs as a normal number while its exponent stays below the
overflow. -/
theorem pack_normal (hm : 2 ^ 52 ≤ m) (hm' : m < 2 ^ 53) (he : e ≤ 971) :
    pack neg m e = ofFields neg (e + 1075).toNat (m - 2 ^ 52) := by
  have hne : m ≠ 2 ^ 53 := by omega
  have hbe : ¬2047 ≤ (e + 1075).toNat := by omega
  simp only [pack, Nat.pow_eq, if_neg hne, if_neg (show ¬m < 2 ^ 52 by omega), if_neg hbe]

/-- A significand of 53 bits at too large an exponent packs as infinity. -/
theorem pack_overflow (hm : 2 ^ 52 ≤ m) (hm' : m < 2 ^ 53) (he : 972 ≤ e) :
    pack neg m e = infinity neg := by
  have hne : m ≠ 2 ^ 53 := by omega
  have hbe : 2047 ≤ (e + 1075).toNat := by omega
  simp only [pack, Nat.pow_eq, if_neg hne, if_neg (show ¬m < 2 ^ 52 by omega), if_pos hbe]

/-- A carry to `2 ^ 53` is the least significand of the next binade. -/
theorem pack_carry (he : e ≤ 970) : pack neg (2 ^ 53) e = ofFields neg (e + 1 + 1075).toNat 0 := by
  have hbe : ¬2047 ≤ (e + 1 + 1075).toNat := by omega
  simp only [pack, Nat.pow_eq, ↓reduceIte, lt_self_iff_false, if_neg hbe, Nat.sub_self]

/-- A carry at the greatest exponent packs as infinity. -/
theorem pack_carry_overflow (he : 971 ≤ e) : pack neg (2 ^ 53) e = infinity neg := by
  have hbe : 2047 ≤ (e + 1 + 1075).toNat := by omega
  simp only [pack, Nat.pow_eq, ↓reduceIte, lt_self_iff_false, if_pos hbe]

/-- A significand of at most 53 bits, subnormal only at the least exponent, packs as the finite
number `± m · 2 ^ e` while that stays below `2 ^ 1024`, with the significand's parity. -/
theorem pack_finite (hm : m ≤ 2 ^ 53) (hsub : m < 2 ^ 52 → e = -1074) (he : -1074 ≤ e)
    (hlt : (m : ℚ) * 2 ^ e < 2 ^ 1024) :
    (pack neg m e).isFinite = true ∧ (pack neg m e).sign = neg ∧
      (pack neg m e).value = signed neg (m * 2 ^ e) ∧ (pack neg m e).significand % 2 = m % 2 := by
  rcases Nat.lt_or_ge m (2 ^ 52) with h52 | h52
  · -- a subnormal, at the least exponent
    obtain rfl := hsub h52
    rw [pack_subnormal h52]
    refine ⟨isFinite_ofFields (by decide) h52, sign_ofFields (by decide) h52, ?_, ?_⟩
    · rw [value_eq_signed, sign_ofFields (by decide) h52, significand_ofFields_zero h52,
        exponent_ofFields_zero h52]
    · rw [significand_ofFields_zero h52]
  rcases Nat.lt_or_ge m (2 ^ 53) with h53 | h53
  · -- 53 bits in the binade of `e`, which `2 ^ 1024` keeps at 971 at most
    have he' : e ≤ 971 := by
      by_contra h
      have h1 := pow_le_mul_zpow (a := 52) h52 (show (972 : Int) ≤ e by omega)
      rw [two_zpow_eq_pow (n := 1024) (by norm_num)] at h1
      exact absurd h1 (not_le.2 hlt)
    have hbe : 0 < (e + 1075).toNat := by omega
    have hbe' : (e + 1075).toNat < 2047 := by omega
    have hf : m - 2 ^ 52 < 2 ^ 52 := by omega
    rw [pack_normal h52 h53 he']
    refine ⟨isFinite_ofFields hbe' hf, sign_ofFields (by omega) hf, ?_, ?_⟩
    · rw [value_eq_signed, sign_ofFields (by omega) hf, significand_ofFields hbe (by omega) hf,
        exponent_ofFields hbe (by omega) hf, Nat.sub_add_cancel h52]
      congr 3
      omega
    · rw [significand_ofFields hbe (by omega) hf, Nat.sub_add_cancel h52]
  · -- the carry, one binade up
    obtain rfl : m = 2 ^ 53 := by omega
    have he' : e ≤ 970 := by
      by_contra h
      have h1 := pow_le_mul_zpow (a := 53) le_rfl (show (971 : Int) ≤ e by omega)
      rw [two_zpow_eq_pow (n := 1024) (by norm_num)] at h1
      exact absurd h1 (not_le.2 hlt)
    have hbe : 0 < (e + 1 + 1075).toNat := by omega
    have hbe' : (e + 1 + 1075).toNat < 2047 := by omega
    rw [pack_carry he']
    refine ⟨isFinite_ofFields hbe' (by decide), sign_ofFields (by omega) (by decide), ?_, ?_⟩
    · rw [value_eq_signed, sign_ofFields (by omega) (by decide),
        significand_ofFields hbe (by omega) (by decide), exponent_ofFields hbe (by omega) (by decide)]
      congr 1
      rw [show ((e + 1 + 1075).toNat : Int) - 1075 = e + 1 by omega, zpow_add₀ two_ne_zero]
      push_cast
      ring
    · rw [significand_ofFields hbe (by omega) (by decide)]
      norm_num

/-- From `2 ^ 1024` up the packed number is infinite. -/
theorem pack_infinite (hm : m ≤ 2 ^ 53) (hsub : m < 2 ^ 52 → e = -1074)
    (hge : (2 : ℚ) ^ 1024 ≤ m * 2 ^ e) : pack neg m e = infinity neg := by
  rcases Nat.lt_or_ge m (2 ^ 52) with h52 | h52
  · -- a subnormal is far below
    obtain rfl := hsub h52
    have h1 := mul_zpow_lt_pow (a := 52) h52 (le_refl (-1074 : Int))
    have h2 : (2 : ℚ) ^ ((52 : Nat) + (-1074 : Int)) ≤ 2 ^ 1024 := by
      rw [← two_zpow_eq_pow (k := 1024) rfl]
      exact zpow_le_zpow_right₀ (by norm_num) (by norm_num)
    exact absurd hge (not_le.2 (lt_of_lt_of_le h1 h2))
  rcases Nat.lt_or_ge m (2 ^ 53) with h53 | h53
  · apply pack_overflow h52 h53
    by_contra h
    have h1 := mul_zpow_lt_pow (a := 53) h53 (show e ≤ 971 by omega)
    rw [two_zpow_eq_pow (k := ((53 : Nat) : Int) + 971) (n := 1024) (by norm_num)] at h1
    exact absurd hge (not_le.2 h1)
  · obtain rfl : m = 2 ^ 53 := by omega
    apply pack_carry_overflow
    by_contra h
    have h1 := mul_zpow_lt_pow (a := 54) (show 2 ^ 53 < 2 ^ 54 by decide) (show e ≤ 970 by omega)
    rw [two_zpow_eq_pow (k := ((54 : Nat) : Int) + 970) (n := 1024) (by norm_num)] at h1
    exact absurd hge (not_le.2 h1)

end Pack

/-! ### The nearest point of the grid is the nearest number -/

/-- Subtracting two magnitudes of one sign subtracts the magnitudes. -/
theorem signed_sub (neg : Bool) (a b : ℚ) : signed neg a - signed neg b = signed neg (a - b) := by
  unfold signed
  split <;> ring

/-- The natural nearest to a nonnegative `t` is within a half of it. -/
theorem abs_sub_le_half {t : ℚ} {m : Nat} (ht : 0 ≤ t)
    (hm : ∀ k : Nat, |(m : ℚ) - t| ≤ |(k : ℚ) - t|) : |(m : ℚ) - t| ≤ 1 / 2 := by
  -- the naturals just below and just above `t` are a whole unit apart
  have hfl := Nat.floor_le ht
  have hfl' := Nat.lt_floor_add_one t
  rcases le_or_gt (t - ⌊t⌋₊) (1 / 2) with h | h
  · calc |(m : ℚ) - t| ≤ |(⌊t⌋₊ : ℚ) - t| := hm _
      _ = t - ⌊t⌋₊ := by rw [abs_sub_comm, abs_of_nonneg (by linarith)]
      _ ≤ 1 / 2 := h
  · calc |(m : ℚ) - t| ≤ |((⌊t⌋₊ + 1 : Nat) : ℚ) - t| := hm _
      _ = ⌊t⌋₊ + 1 - t := by push_cast; rw [abs_of_nonneg (by linarith)]
      _ ≤ 1 / 2 := by linarith

/-- Scaled back by `2 ^ e`, the natural `m` nearest to `t = r / 2 ^ e` is no farther from `r`
than any finite number's magnitude, as long as `t` has at least 53 bits above the least
exponent. A magnitude as near but other is a second natural as near to `t`. -/
theorem grid_nearest {r : ℚ} {e : Int} {m : Nat}
    (hm : ∀ k : Nat, |(m : ℚ) - r / 2 ^ e| ≤ |(k : ℚ) - r / 2 ^ e|)
    (h52 : e ≠ -1074 → (2 : ℚ) ^ 52 ≤ r / 2 ^ e) (y : Double) :
    |(m : ℚ) * 2 ^ e - r| ≤ |(|y.value| - r)| ∧
      (|(|y.value| - r)| = |(m : ℚ) * 2 ^ e - r| → |y.value| ≠ m * 2 ^ e →
        ∃ k : Nat, k ≠ m ∧ |(k : ℚ) - r / 2 ^ e| = |(m : ℚ) - r / 2 ^ e|) := by
  have hpos : (0 : ℚ) < 2 ^ e := by positivity
  -- distances scale by `2 ^ e`
  have hscale : ∀ a : ℚ, |a * 2 ^ e - r| = |a - r / 2 ^ e| * 2 ^ e := by
    intro a
    rw [← abs_of_pos hpos, ← abs_mul, abs_of_pos hpos, sub_mul, div_mul_cancel₀ _ hpos.ne']
  rcases y.exists_grid_or_below e with ⟨k, hk⟩ | ⟨he, hlt⟩
  · -- on the grid: a natural `k`
    rw [hk, hscale, hscale]
    refine ⟨mul_le_mul_of_nonneg_right (hm k) hpos.le, fun heq hne => ⟨k, ?_, ?_⟩⟩
    · rintro rfl
      exact hne rfl
    · exact mul_right_cancel₀ hpos.ne' heq
  · -- below the binade of `r`: farther than the grid point `2 ^ 52`, no nearer than `m`
    have ht := h52 he
    have hclose : |(m : ℚ) * 2 ^ e - r| < |(|y.value| - r)| := by
      rw [hscale]
      calc |(m : ℚ) - r / 2 ^ e| * 2 ^ e ≤ |((2 ^ 52 : Nat) : ℚ) - r / 2 ^ e| * 2 ^ e :=
            mul_le_mul_of_nonneg_right (hm _) hpos.le
        _ = r - 2 ^ (e + 52) := by
            push_cast
            rw [abs_sub_comm, abs_of_nonneg (by linarith), sub_mul, div_mul_cancel₀ _ hpos.ne',
              zpow_add₀ two_ne_zero, mul_comm]
            norm_num
        _ < r - |y.value| := by linarith
        _ ≤ |(|y.value| - r)| := by rw [abs_sub_comm]; exact le_abs_self _
    exact ⟨hclose.le, fun heq => absurd heq (ne_of_gt hclose)⟩

/-! ### Correct rounding of a quotient -/

/-- `m` is `r ≥ 0` rounded in units of `2 ^ e`: the natural nearest to `t = r / 2 ^ e`, even
on a tie, where `e` is no finer than the least subnormal, `t` has at most 53 bits, and fewer
only at the least exponent. -/
structure NearestScaled (r : ℚ) (e : Int) (m : Nat) : Prop where
  nearest : ∀ k : Nat, |(m : ℚ) - r / 2 ^ e| ≤ |(k : ℚ) - r / 2 ^ e|
  tie : ∀ k : Nat, |(k : ℚ) - r / 2 ^ e| = |(m : ℚ) - r / 2 ^ e| → k ≠ m → m % 2 = 0
  least : -1074 ≤ e
  below : r / 2 ^ e < 2 ^ 53
  above : e ≠ -1074 → (2 : ℚ) ^ 52 ≤ r / 2 ^ e

/-- The quotient's rounding, as `roundQuotient` makes it. -/
theorem nearestScaled_roundHalfEven {p q : Nat} (hp : 0 < p) (hq : 0 < q) :
    NearestScaled (p / q) (lastPlace p q)
      (roundHalfEven (p * 2 ^ (-lastPlace p q).toNat) (q * 2 ^ (lastPlace p q).toNat)) := by
  obtain ⟨he, hbelow, habove⟩ := lastPlace_spec hp hq
  have hden : 0 < q * 2 ^ (lastPlace p q).toNat := by positivity
  refine ⟨fun k => ?_, fun k hk hne => ?_, he, hbelow, habove⟩
  · rw [← scaled_div p q]
    exact roundHalfEven_nearest hden k
  · rw [← scaled_div p q] at hk
    exact roundHalfEven_tie hden hk hne

/-- The last place of the greatest binade, `2 ^ 971`, measures `2 ^ 1024` and the threshold. -/
theorem top_unit : (2 : ℚ) ^ 1024 = 2 ^ 53 * 2 ^ (971 : Int) ∧
    overflowThreshold = (2 ^ 53 - 1 / 2) * 2 ^ (971 : Int) := by
  have h1024 : (2 : ℚ) ^ 1024 = 2 ^ 54 * 2 ^ 970 := by rw [← pow_add]
  have h971 : (2 : ℚ) ^ 971 = 2 * 2 ^ 970 := by rw [← pow_succ']
  unfold overflowThreshold
  rw [zpow_ofNat, h1024, h971]
  generalize (2 : ℚ) ^ 970 = u
  constructor <;> ring

/-- The threshold of overflow lies below `2 ^ 1024`. -/
theorem overflowThreshold_le : overflowThreshold ≤ 2 ^ 1024 := by
  unfold overflowThreshold
  exact sub_le_self _ (by positivity)

section Scaled

variable {r : ℚ} {e : Int} {m : Nat}

/-- The natural nearest to a nonnegative scaled value below `2 ^ 53` is at most `2 ^ 53`:
rounding goes past 53 bits only by the carry. -/
theorem NearestScaled.le_two_pow (h : NearestScaled r e m) (hr : 0 ≤ r) : m ≤ 2 ^ 53 := by
  have ht : 0 ≤ r / 2 ^ e := by positivity
  have hhalf := (abs_le.1 (abs_sub_le_half ht h.nearest)).2
  have hlt := h.below
  by_contra hm
  have h1 : (2 : ℚ) ^ 53 + 1 ≤ m := by exact_mod_cast (show 2 ^ 53 + 1 ≤ m by omega)
  linarith

/-- A significand below `2 ^ 52` comes only from the least exponent. -/
theorem NearestScaled.subnormal (h : NearestScaled r e m) (hr : 0 ≤ r) (hm : m < 2 ^ 52) :
    e = -1074 := by
  by_contra he
  have ht : 0 ≤ r / 2 ^ e := by positivity
  have hhalf := (abs_le.1 (abs_sub_le_half ht h.nearest)).1
  have h52 := h.above he
  have h1 : (m : ℚ) + 1 ≤ 2 ^ 52 := by exact_mod_cast (show m + 1 ≤ 2 ^ 52 by omega)
  linarith

/-- The scaled quotient rounds to the carry `2 ^ 53` exactly when it is within a half of it: just
below, `2 ^ 53 - 1/2` is a tie between the odd `2 ^ 53 - 1` and the even carry. -/
theorem NearestScaled.eq_carry_iff (h : NearestScaled r e m) (hr : 0 ≤ r) :
    m = 2 ^ 53 ↔ (2 : ℚ) ^ 53 - 1 / 2 ≤ r / 2 ^ e := by
  have ht : 0 ≤ r / 2 ^ e := by positivity
  have hhalf := abs_le.1 (abs_sub_le_half ht h.nearest)
  constructor
  · -- the carry is within a half of the quotient
    rintro rfl
    push_cast at hhalf
    linarith [hhalf.2]
  · intro ht53
    have hm53 := h.le_two_pow hr
    -- otherwise the quotient is within a half of `2 ^ 53 - 1` too, so exactly halfway, and the tie
    -- goes to the even carry
    by_contra hne
    have hm' : m + 1 = 2 ^ 53 := by
      by_contra h'
      have : (m : ℚ) + 2 ≤ 2 ^ 53 := by exact_mod_cast (show m + 2 ≤ 2 ^ 53 by omega)
      linarith [hhalf.1]
    have hmq : (m : ℚ) = 2 ^ 53 - 1 := by
      have : ((m + 1 : Nat) : ℚ) = 2 ^ 53 := by rw [hm']; push_cast; rfl
      push_cast at this
      linarith
    have htq : r / 2 ^ e = 2 ^ 53 - 1 / 2 := by linarith [hhalf.1]
    have htie := h.tie (2 ^ 53) (by rw [hmq, htq]; push_cast; norm_num) (by omega)
    omega

/-- Where the scaled significand reaches `2 ^ 1024`, `r` reaches the threshold: at exponent 971
the significand is the carry `2 ^ 53`, and above 971 `r` is past `2 ^ 1024` already. -/
theorem NearestScaled.threshold_le (h : NearestScaled r e m) (hr : 0 ≤ r)
    (hbig : (2 : ℚ) ^ 1024 ≤ m * 2 ^ e) : overflowThreshold ≤ r := by
  have hm := h.le_two_pow hr
  have hpos : (0 : ℚ) < 2 ^ e := by positivity
  have hr_eq : r = r / 2 ^ e * 2 ^ e := (div_mul_cancel₀ _ hpos.ne').symm
  -- below exponent 971 even `2 ^ 53` stays under `2 ^ 1024`
  have he : 971 ≤ e := by
    by_contra he
    have h1 := mul_zpow_lt_pow (a := 54) (show m < 2 ^ 54 by omega) (show e ≤ 970 by omega)
    rw [two_zpow_eq_pow (k := ((54 : Nat) : Int) + 970) (n := 1024) (by norm_num)] at h1
    exact absurd hbig (not_le.2 h1)
  rcases Int.le_iff_eq_or_lt.1 he with rfl | he
  · have hm53 : m = 2 ^ 53 := by
      by_contra hne
      have h1 := mul_zpow_lt_pow (a := 53) (show m < 2 ^ 53 by omega) (le_refl (971 : Int))
      rw [two_zpow_eq_pow (k := ((53 : Nat) : Int) + 971) (n := 1024) (by norm_num)] at h1
      exact absurd hbig (not_le.2 h1)
    rw [top_unit.2, hr_eq]
    exact mul_le_mul_of_nonneg_right ((h.eq_carry_iff hr).1 hm53) hpos.le
  · have ht52 := h.above (by omega)
    have h2 := pow_le_mul_zpow (m := 2 ^ 52) (a := 52) le_rfl (show (972 : Int) ≤ e by omega)
    -- the two cast lemmas, not `push_cast`, which spends half a minute on this hypothesis
    rw [two_zpow_eq_pow (k := ((52 : Nat) : Int) + 972) (n := 1024) (by norm_num), Nat.cast_pow,
      Nat.cast_ofNat] at h2
    calc overflowThreshold ≤ 2 ^ 1024 := overflowThreshold_le
      _ ≤ 2 ^ 52 * 2 ^ e := h2
      _ ≤ r / 2 ^ e * 2 ^ e := mul_le_mul_of_nonneg_right ht52 hpos.le
      _ = r := hr_eq.symm

/-- Where `r` reaches the threshold, the scaled significand reaches `2 ^ 1024`: the exponent is
at least 971, and at 971 the quotient is within a half of the carry `2 ^ 53`. -/
theorem NearestScaled.le_of_threshold_le (h : NearestScaled r e m) (hr : 0 ≤ r)
    (hT : overflowThreshold ≤ r) : (2 : ℚ) ^ 1024 ≤ m * 2 ^ e := by
  have hpos : (0 : ℚ) < 2 ^ e := by positivity
  have hr_eq : r = r / 2 ^ e * 2 ^ e := (div_mul_cancel₀ _ hpos.ne').symm
  -- below exponent 971, `r` stays under `2 ^ 53 · 2 ^ 970`, below the threshold
  have he : 971 ≤ e := by
    by_contra he
    have h1 : r < 2 ^ 53 * 2 ^ (970 : Int) :=
      calc r = r / 2 ^ e * 2 ^ e := hr_eq
        _ < 2 ^ 53 * 2 ^ e := mul_lt_mul_of_pos_right h.below hpos
        _ ≤ 2 ^ 53 * 2 ^ (970 : Int) :=
            mul_le_mul_of_nonneg_left (zpow_le_zpow_right₀ (by norm_num) (by omega)) (by positivity)
    have h2 : overflowThreshold = (2 ^ 54 - 1) * 2 ^ (970 : Int) := by
      rw [top_unit.2, show (971 : Int) = 970 + 1 from rfl, zpow_add_one₀ two_ne_zero]
      generalize (2 : ℚ) ^ (970 : Int) = u
      ring
    have h3 : (2 : ℚ) ^ 53 * 2 ^ (970 : Int) < (2 ^ 54 - 1) * 2 ^ (970 : Int) :=
      mul_lt_mul_of_pos_right (by norm_num) (by positivity)
    rw [h2] at hT
    exact absurd hT (not_le.2 (h1.trans h3))
  rcases Int.le_iff_eq_or_lt.1 he with rfl | he
  · have ht53 : (2 : ℚ) ^ 53 - 1 / 2 ≤ r / 2 ^ (971 : Int) := by
      rw [le_div_iff₀ hpos, ← top_unit.2]
      exact hT
    rw [(h.eq_carry_iff hr).2 ht53, top_unit.1, Nat.cast_pow, Nat.cast_ofNat]
  · -- above 971 the significand has its 53 bits and the exponent is past 971
    have hm52 : 2 ^ 52 ≤ m := by
      by_contra hm
      exact (by omega : e ≠ -1074) (h.subnormal hr (by omega))
    have h2 := pow_le_mul_zpow (a := 52) hm52 (show (972 : Int) ≤ e by omega)
    rwa [two_zpow_eq_pow (k := ((52 : Nat) : Int) + 972) (n := 1024) (by norm_num)] at h2

end Scaled

/-! ### Correct rounding -/

/-- Taking the same sign twice gives back the value. -/
@[simp] theorem signed_signed (neg : Bool) (r : ℚ) : signed neg (signed neg r) = r := by
  cases neg <;> simp [signed]

/-- The threshold of overflow is above one. -/
theorem one_lt_overflowThreshold : 1 < overflowThreshold := by
  rw [top_unit.2]
  have hu : (1 : ℚ) ≤ 2 ^ (971 : Int) := one_le_zpow₀ (by norm_num) (by norm_num)
  generalize (2 : ℚ) ^ (971 : Int) = u at hu ⊢
  nlinarith

/-- A finite number other than zero is at least the least subnormal. -/
theorem le_abs_value {y : Double} (hy : y.value ≠ 0) : (2 : ℚ) ^ (-1074 : Int) ≤ |y.value| := by
  rw [abs_value]
  have hs : y.significand ≠ 0 := by
    intro h
    apply hy
    simp [value, h]
  calc (2 : ℚ) ^ (-1074 : Int) = 1 * 2 ^ (-1074 : Int) := (one_mul _).symm
    _ ≤ y.significand * 2 ^ y.exponent :=
        mul_le_mul (by exact_mod_cast Nat.one_le_iff_ne_zero.2 hs)
          (zpow_le_zpow_right₀ (by norm_num) y.exponent_ge) (by positivity) (by positivity)

/-- Magnitudes from the threshold up round to infinity. -/
theorem roundsTo_infinity {neg : Bool} {v : ℚ} (hv : overflowThreshold ≤ |v|) :
    RoundsTo neg v (infinity neg) where
  sign := sign_infinity neg
  infinite_iff := by simp [hv]
  finite_iff := by simp [hv]
  nearest h := by simp at h
  tie_even h := by simp at h

/-- Magnitudes up to half the least subnormal round to zero: every other finite number is at
least twice as far. -/
theorem roundsTo_zero {neg : Bool} {v : ℚ} (hv : |v| ≤ 2 ^ (-1075 : Int)) :
    RoundsTo neg v (zero neg) := by
  have hsmall : |v| < overflowThreshold :=
    lt_of_le_of_lt (hv.trans (zpow_le_one_of_nonpos₀ (by norm_num) (by norm_num)))
      one_lt_overflowThreshold
  refine ⟨sign_zero neg, ?_, ?_, fun _ y _ => ?_, fun _ _ _ _ _ => by simp⟩
  · simp [isInfinite_of_isFinite (isFinite_zero neg), not_le.2 hsmall]
  · simp [hsmall]
  · -- nearness: zero is at most `2 ^ -1075` away, and any other number at least `2 ^ -1074` from
    -- zero
    rw [value_zero, zero_sub, abs_neg]
    by_cases hy : y.value = 0
    · rw [hy, zero_sub, abs_neg]
    · have hle := le_abs_value hy
      have hhalf : (2 : ℚ) ^ (-1074 : Int) = 2 * 2 ^ (-1075 : Int) := by
        rw [show (-1074 : Int) = -1075 + 1 from rfl, zpow_add_one₀ two_ne_zero, mul_comm]
      have hdist := abs_sub_abs_le_abs_sub y.value v
      rw [hhalf] at hle
      generalize (2 : ℚ) ^ (-1075 : Int) = u at hle hv
      linarith

section Scaled

variable {r : ℚ} {e : Int} {m : Nat}

/-- A rounding of `r > 0` in units of `2 ^ e`, packed with a sign, is `± r` rounded to binary64.
The nearest point of the grid is the nearest finite number; a finite number as near with another
value is another point of the grid, a tie, or the grid point of the other sign, which is
farther. -/
theorem NearestScaled.pack_roundsTo (h : NearestScaled r e m) (hr : 0 < r) (neg : Bool) :
    RoundsTo neg (signed neg r) (pack neg m e) := by
  have hm := h.le_two_pow hr.le
  have hsub : m < 2 ^ 52 → e = -1074 := h.subnormal hr.le
  by_cases hbig : (2 : ℚ) ^ 1024 ≤ m * 2 ^ e
  · rw [pack_infinite hm hsub hbig]
    exact roundsTo_infinity (by rw [abs_signed, abs_of_pos hr]; exact h.threshold_le hr.le hbig)
  obtain ⟨hfin, hsign, hval, hpar⟩ := @pack_finite neg m e hm hsub h.least (not_le.1 hbig)
  have hlt : r < overflowThreshold := not_le.1 fun hT => hbig (h.le_of_threshold_le hr.le hT)
  -- a number's distance to `± r` is that of its value signed back to `r`'s side
  have hdist : ∀ y : Double, |y.value - signed neg r| = |signed neg y.value - r| := by
    intro y
    rw [← abs_signed neg, ← signed_sub, signed_signed]
  have hgrid := grid_nearest h.nearest h.above
  refine ⟨hsign, ?_, ?_, fun _ y _ => ?_, fun _ y _ heq hne => ?_⟩
  · simp [isInfinite_of_isFinite hfin, abs_of_pos hr, hlt]
  · simp [hfin, abs_of_pos hr, hlt]
  · rw [hval, signed_sub, abs_signed, hdist]
    calc |(m : ℚ) * 2 ^ e - r| ≤ |(|y.value| - r)| := (hgrid y).1
      _ = |(|signed neg y.value| - |r|)| := by rw [abs_signed, abs_of_pos hr]
      _ ≤ |signed neg y.value - r| := abs_abs_sub_abs_le_abs_sub _ _
  · rw [hpar]
    rw [hval, signed_sub, abs_signed, hdist] at heq
    -- `w` is `y`'s value on `r`'s side, as far from `r` as the grid point `a`
    set w := signed neg y.value with hw
    set a := (m : ℚ) * 2 ^ e with ha
    have hwa : w ≠ a := by
      intro hwa
      apply hne
      rw [hval, ← hwa, hw, signed_signed]
    have hfar := (hgrid y).1
    rw [← abs_signed neg y.value, ← hw] at hfar
    have hnear : |(|w| - r)| ≤ |w - r| := by
      have := abs_abs_sub_abs_le_abs_sub w r
      rwa [abs_of_pos hr] at this
    by_cases habs : |w| = a
    · -- the grid point of the other sign is farther than `a` from `r`
      exfalso
      have ha0 : 0 ≤ a := by positivity
      rcases (abs_eq ha0).1 habs with hwa' | hwa'
      · exact hwa hwa'
      · have hpos : 0 < a := lt_of_le_of_ne ha0 fun h0 => hwa (by rw [hwa', ← h0, neg_zero])
        rw [hwa', show -a - r = -(a + r) by ring, abs_neg, abs_of_pos (by linarith)] at heq
        have := (abs_sub_lt_iff.2 ⟨by linarith, by linarith⟩ : |a - r| < a + r)
        linarith
    · obtain ⟨k, hk, hkm⟩ := (hgrid y).2 (by
        rw [← abs_signed neg y.value, ← hw]
        linarith) (by rwa [← abs_signed neg y.value, ← hw])
      exact h.tie k hkm hk

end Scaled

/-- `roundQuotient` rounds `± p / q` to binary64. -/
theorem roundQuotient_roundsTo (neg : Bool) {p q : Nat} (hp : 0 < p) (hq : 0 < q) :
    RoundsTo neg (signed neg (p / q)) (roundQuotient neg p q) := by
  rw [roundQuotient_eq hp.ne']
  exact (nearestScaled_roundHalfEven hp hq).pack_roundsTo (by positivity) neg

end Double

namespace Decimal

open Double

/-- The exact value of a decimal. -/
def value (d : Decimal) : ℚ := signed d.neg (d.digits * 10 ^ d.exp)

/-- With a nonnegative exponent, digits times `10 ^ exp` reach `2 ^ (log₂ digits + 3 · exp)`. -/
theorem pow_le_digits_mul {digits : Nat} (h0 : digits ≠ 0) (n : Nat) :
    2 ^ (digits.log2 + 3 * n) ≤ digits * 10 ^ n := by
  rw [pow_add, pow_mul]
  exact Nat.mul_le_mul (Nat.log2_self_le h0) (Nat.pow_le_pow_left (by norm_num) n)

/-- With a negative exponent, digits stay below `2 ^ (log₂ digits + 1)` and `10 ^ n` above
`8 ^ n`. -/
theorem digits_mul_lt {digits n : Nat} (h : digits.log2 + 1077 ≤ 3 * n) :
    digits * 2 ^ 1075 < 10 ^ n := by
  calc digits * 2 ^ 1075 < 2 ^ (digits.log2 + 1) * 2 ^ 1075 :=
        Nat.mul_lt_mul_of_pos_right Nat.lt_log2_self (by positivity)
    _ = 2 ^ (digits.log2 + 1076) := by rw [← pow_add]
    _ ≤ 2 ^ (3 * n) := Nat.pow_le_pow_right (by norm_num) (by omega)
    _ = 8 ^ n := by rw [pow_mul]; norm_num
    _ ≤ 10 ^ n := Nat.pow_le_pow_left (by norm_num) n

/-- `toDouble` rounds a decimal's exact value to binary64, its sign kept on zero: the rounding
of the quotient, and the shortcuts for huge and tiny exponents land where it would. -/
theorem toDouble_roundsTo (d : Decimal) : RoundsTo d.neg d.value d.toDouble := by
  obtain ⟨neg, digits, exp⟩ := d
  unfold toDouble value
  simp only [Nat.pow_eq]
  split_ifs with h0 hexp hbig hsmall
  · -- no digits: zero
    apply roundsTo_zero
    simp [h0]
  · -- a huge positive exponent: past `2 ^ 1024`
    obtain ⟨n, rfl⟩ := Int.eq_ofNat_of_zero_le hexp
    apply roundsTo_infinity
    have hexp' : 1024 ≤ digits.log2 + 3 * n := by simpa using hbig
    have hle : (2 : ℚ) ^ 1024 ≤ digits * 10 ^ n :=
      calc (2 : ℚ) ^ 1024 ≤ 2 ^ (digits.log2 + 3 * n) := pow_le_pow_right₀ (by norm_num) hexp'
        _ ≤ digits * 10 ^ n := by exact_mod_cast pow_le_digits_mul h0 n
    rw [abs_signed, zpow_natCast, abs_of_nonneg (by positivity)]
    exact overflowThreshold_le.trans hle
  · obtain ⟨n, rfl⟩ := Int.eq_ofNat_of_zero_le hexp
    have hv : (digits : ℚ) * 10 ^ (n : Int) = ((digits * 10 ^ n : Nat) : ℚ) / ((1 : Nat) : ℚ) := by
      push_cast
      rw [div_one, zpow_natCast]
    rw [hv, Int.toNat_natCast]
    exact roundQuotient_roundsTo neg (by positivity) one_pos
  · -- a tiny negative exponent: at most half the least subnormal
    obtain ⟨n, hn⟩ : ∃ n : Nat, exp = -(n : Int) := ⟨(-exp).toNat, by omega⟩
    subst hn
    rw [Int.neg_neg, Int.toNat_natCast] at hsmall
    apply roundsTo_zero
    have hlt : (digits : ℚ) * 2 ^ 1075 < 10 ^ n := by
      exact_mod_cast digits_mul_lt hsmall
    rw [abs_signed, abs_of_nonneg (by positivity), zpow_neg, zpow_neg, zpow_natCast, zpow_ofNat,
      ← div_eq_mul_inv, div_le_iff₀ (by positivity), inv_mul_eq_div, le_div_iff₀ (by positivity)]
    exact hlt.le
  · obtain ⟨n, hn⟩ : ∃ n : Nat, exp = -(n : Int) := ⟨(-exp).toNat, by omega⟩
    subst hn
    have hv : (digits : ℚ) * 10 ^ (-(n : Int)) = ((digits : Nat) : ℚ) / ((10 ^ n : Nat) : ℚ) := by
      push_cast
      rw [zpow_neg, zpow_natCast, div_eq_mul_inv]
    rw [hv, Int.neg_neg, Int.toNat_natCast]
    exact roundQuotient_roundsTo neg (Nat.pos_of_ne_zero h0) (by positivity)

end Decimal

end JsonCodec
