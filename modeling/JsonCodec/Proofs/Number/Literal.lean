import JsonCodec.Proofs.Grammar
import JsonCodec.Proofs.Number.Round
import JsonCodec.Writer.Number
import Mathlib

/-! # Number texts read back

The writer spells a number in one of four ways (`Double.jsonText`): `null` for NaN and the
infinities, `0` for both zeros, the integer text of a whole number, and the shortest digits of
the rest in positional or scientific form. This module relates each way to the number literals of
the grammar and to the double each literal reads as.

* `Decimal.Spells`: a text is a number literal of the grammar spelling a decimal. The integer text
  of a whole number spells it (`spells_integerText`); the positional and scientific forms of a
  decimal with digits spell the decimal itself (`spells_positional_of_neg`, `spells_scientific`),
  except positional notation without a point, which spells the digits shifted to a whole number
  (`spells_positional_of_nonneg`).
* `Double.eq_of_value_eq`: a number is determined by its sign and value; hence a decimal whose
  value is that of a finite number reads as that number (`toDouble_eq_of_value_eq`), and the
  integer text of a whole number reads back as the number (`toDouble_truncate`).
* `Double.jsonText_spells`: the written text of a finite number other than zero spells a decimal
  that reads back as the number, wherever its shortest digits do.
-/

namespace JsonCodec

namespace Grammar

/-! ### Digits -/

/-- The value of a digit list is Lean's reading of it in base ten. -/
theorem digitsValue_eq_ofDigitChars (ds : List Char) : digitsValue ds = Nat.ofDigitChars 10 ds 0 := by
  rw [digitsValue, Nat.ofDigitChars_eq_foldl]
  congr 1
  funext n d
  rw [Nat.mul_comm]

/-- The decimal digits of a number read back as the number. -/
@[simp] theorem digitsValue_toDigits (n : Nat) : digitsValue (Nat.toDigits 10 n) = n := by
  rw [digitsValue_eq_ofDigitChars, Nat.ofDigitChars_ten_toDigits]

/-- The decimal digits of a positive number start with a digit from one to nine. -/
theorem toDigits_head : ∀ n : Nat, n ≠ 0 →
    ∃ d ds, Nat.toDigits 10 n = d :: ds ∧ '1' ≤ d ∧ d ≤ '9' := by
  intro n
  induction n using Nat.strong_induction_on with
  | _ n ih =>
    intro hn
    rw [Nat.toDigits_eq_if (by decide)]
    split
    · -- a single digit
      have hpos : 0 < n := Nat.pos_of_ne_zero hn
      refine ⟨_, [], rfl, ?_⟩
      interval_cases n <;> decide
    · -- the leading digits are those of `n / 10`
      obtain ⟨d, ds, h, h₁, h₂⟩ := ih (n / 10) (by omega) (by omega)
      exact ⟨d, ds ++ _, by rw [h, List.cons_append], h₁, h₂⟩

/-- The decimal digits of any number make an integer part: a lone zero, or no leading zero. -/
theorem intDigits_toDigits (n : Nat) : IntDigits (Nat.toDigits 10 n) := by
  rcases Nat.eq_zero_or_pos n with rfl | hn
  · exact .inl (Nat.toDigits_zero 10)
  · obtain ⟨d, ds, h, h₁, h₂⟩ := toDigits_head n hn.ne'
    refine .inr ⟨d, ds, h, h₁, h₂, fun x hx => ?_⟩
    exact Nat.isDigit_of_mem_toDigits (by decide) (by decide) (h ▸ List.mem_cons_of_mem _ hx)

end Grammar

namespace Double

/-! ### A finite number is its sign and value -/

/-- A number is determined by its three fields. -/
theorem eq_of_fields {x y : Double} (hs : x.sign = y.sign)
    (he : x.biasedExponent = y.biasedExponent) (hf : x.fraction = y.fraction) : x = y := by
  obtain ⟨a⟩ := x
  obtain ⟨b⟩ := y
  simp only [sign, biasedExponent, fraction, Nat.pow_eq, Nat.reducePow, decide_eq_decide] at hs he hf
  have ha := a.toNat_lt
  have hb := b.toNat_lt
  simp only [Nat.reducePow] at ha hb
  congr 1
  apply UInt64.toNat_inj.1
  by_cases h : 9223372036854775808 ≤ a.toNat <;> omega

/-- The significand and exponent of a finite number fix its fields. -/
theorem eq_of_significand_exponent {x y : Double} (hs : x.sign = y.sign)
    (hm : x.significand = y.significand) (he : x.exponent = y.exponent) : x = y := by
  have hfx := x.fraction_lt
  have hfy := y.fraction_lt
  unfold significand at hm
  unfold exponent at he
  apply eq_of_fields hs _ _
  all_goals split_ifs at hm he <;> simp only [Nat.pow_eq] at * <;> omega

/-- Two significands of at most 53 bits, each with its hidden bit above the least exponent,
scale to the same number only with the same exponent. -/
theorem significand_exponent_unique {m₁ m₂ : Nat} {e₁ e₂ : Int} (hm₁ : m₁ < 2 ^ 53)
    (hn₂ : e₂ ≠ -1074 → 2 ^ 52 ≤ m₂) (he : e₁ ≤ e₂)
    (h : (m₁ : ℚ) * 2 ^ e₁ = m₂ * 2 ^ e₂) (hlow : -1074 ≤ e₁) : m₁ = m₂ ∧ e₁ = e₂ := by
  -- scaled to the smaller exponent, the first significand is the second shifted left
  obtain ⟨k, hk⟩ : ∃ k : Nat, e₂ = e₁ + k := ⟨(e₂ - e₁).toNat, by omega⟩
  have hshift : m₁ = m₂ * 2 ^ k := by
    have h2 : (m₁ : ℚ) * 2 ^ e₁ = (m₂ * 2 ^ k) * 2 ^ e₁ := by
      rw [h, hk, zpow_add₀ two_ne_zero, zpow_natCast]
      ring
    exact_mod_cast mul_right_cancel₀ (zpow_ne_zero _ two_ne_zero) h2
  rcases Nat.eq_zero_or_pos k with rfl | hk0
  · simp_all
  · have hm₂ := hn₂ (by omega)
    have : 2 ^ 53 ≤ m₂ * 2 ^ k :=
      calc 2 ^ 53 = 2 ^ 52 * 2 ^ 1 := by norm_num
        _ ≤ m₂ * 2 ^ k := Nat.mul_le_mul hm₂ (Nat.pow_le_pow_right (by norm_num) hk0)
    omega

/-- A finite number is determined by its sign and value. -/
theorem eq_of_value_eq {x y : Double} (hs : x.sign = y.sign) (hv : x.value = y.value) : x = y := by
  have hmag : (x.significand : ℚ) * 2 ^ x.exponent = y.significand * 2 ^ y.exponent := by
    rw [← abs_value, ← abs_value, hv]
  have hnorm : ∀ z : Double, z.exponent ≠ -1074 → 2 ^ 52 ≤ z.significand := significand_ge
  obtain ⟨hm, he⟩ : x.significand = y.significand ∧ x.exponent = y.exponent := by
    rcases le_total x.exponent y.exponent with hle | hle
    · exact significand_exponent_unique x.significand_lt (hnorm y) hle hmag x.exponent_ge
    · obtain ⟨hm, he⟩ := significand_exponent_unique y.significand_lt (hnorm x) hle hmag.symm
        y.exponent_ge
      exact ⟨hm.symm, he.symm⟩
  exact eq_of_significand_exponent hs hm he

/-- A finite number is below the overflow threshold: its significand has at most 53 bits and
its exponent is at most 971. -/
theorem abs_value_lt {x : Double} (hx : x.isFinite = true) : |x.value| < overflowThreshold := by
  have he : x.exponent ≤ 971 := by
    have hb := x.biasedExponent_lt
    simp only [isFinite, bne_iff_ne, ne_eq] at hx
    unfold exponent
    split <;> omega
  have hm : (x.significand : ℚ) + 1 ≤ 2 ^ 53 := by exact_mod_cast x.significand_lt
  rw [abs_value, top_unit.2]
  calc (x.significand : ℚ) * 2 ^ x.exponent ≤ x.significand * 2 ^ (971 : Int) := by
        gcongr
        norm_num
    _ < (2 ^ 53 - 1 / 2) * 2 ^ (971 : Int) := by
        gcongr
        linarith

/-- A number is zero exactly when its significand is. -/
theorem isZero_iff_significand {x : Double} : x.isZero = true ↔ x.significand = 0 := by
  unfold isZero significand
  split <;> simp_all

/-- Either zero is zero. -/
@[simp] theorem isZero_zero (neg : Bool) : (zero neg).isZero = true :=
  isZero_iff_significand.2 (significand_zero neg)

end Double

namespace Decimal

open Double

/-- A decimal whose value is that of a finite number, with its sign, reads as that number: the
nearest finite number to its value is the number itself. -/
theorem toDouble_eq_of_value_eq {d : Decimal} {x : Double} (hx : x.isFinite = true)
    (hs : x.sign = d.neg) (hv : x.value = d.value) : d.toDouble = x := by
  have hr := toDouble_roundsTo d
  have hfin : d.toDouble.isFinite = true := hr.finite_iff.2 (hv ▸ abs_value_lt hx)
  have hnear := hr.nearest hfin x hx
  rw [hv, sub_self, abs_zero] at hnear
  have hval : d.toDouble.value = x.value := by
    rw [hv]
    exact sub_eq_zero.1 (abs_nonpos_iff.1 hnear)
  exact eq_of_value_eq (hr.sign.trans hs.symm) hval

/-- Digits shifted by whole powers of ten read as the decimal with the exponent, wherever that
one is finite: both round the same whole number, and past `2 ^ 1024` both would be infinite. -/
theorem toDouble_shift {neg : Bool} {digits k : Nat}
    (hfin : (⟨neg, digits, k⟩ : Decimal).toDouble.isFinite = true) :
    (⟨neg, digits * 10 ^ k, 0⟩ : Decimal).toDouble = (⟨neg, digits, k⟩ : Decimal).toDouble := by
  by_cases h0 : digits = 0
  · simp [toDouble, h0]
  have hp : digits * 10 ^ k ≠ 0 := Nat.mul_ne_zero h0 (by positivity)
  -- the exponent form is not cut short: it is finite
  have hround : (⟨neg, digits, k⟩ : Decimal).toDouble = roundQuotient neg (digits * 10 ^ k) 1 := by
    unfold toDouble at hfin ⊢
    simp only [h0, if_false, Int.natCast_nonneg, if_true, Int.toNat_natCast, Nat.pow_eq] at hfin ⊢
    split_ifs at hfin ⊢
    · simp at hfin
    · rfl
  rw [hround] at hfin ⊢
  unfold toDouble
  simp only [hp, if_false, le_refl, if_true, Int.toNat_zero, Nat.pow_eq, pow_zero, mul_one,
    Nat.mul_zero, Nat.add_zero]
  split_ifs with hbig
  · -- from `2 ^ 1024` up the rounding would be infinite too
    have hr := roundQuotient_roundsTo neg (Nat.pos_of_ne_zero hp) Nat.one_pos
    have hle : (2 : ℚ) ^ 1024 ≤ (digits * 10 ^ k : Nat) := by
      exact_mod_cast (Nat.le_log2 hp).1 (by simpa using hbig)
    have hinf := hr.infinite_iff.2 (by
      rw [abs_signed, Nat.cast_one, div_one, abs_of_nonneg (by positivity)]
      exact overflowThreshold_le.trans hle)
    rw [isInfinite_of_isFinite hfin] at hinf
    cases hinf
  · rfl

/-- A whole number other than zero is the decimal of its integer part. -/
theorem toDouble_truncate {x : Double} (hi : x.isIntegral = true) (hz : x.isZero = false) :
    (⟨decide (x.truncate < 0), x.truncate.natAbs, 0⟩ : Decimal).toDouble = x := by
  simp only [isIntegral, Bool.and_eq_true, Bool.or_eq_true, decide_eq_true_eq, beq_iff_eq] at hi
  obtain ⟨hfin, hint⟩ := hi
  -- the magnitude of the integer part, exact because the number is whole
  set m : Nat := if 0 ≤ x.exponent then x.significand * Nat.pow 2 x.exponent.toNat
    else x.significand / Nat.pow 2 (-x.exponent).toNat with hm
  have hexact : (x.significand : ℚ) * 2 ^ x.exponent = m := by
    rw [hm]
    split_ifs with he
    · simp only [Nat.pow_eq, Nat.cast_mul, Nat.cast_pow, Nat.cast_ofNat]
      rw [← zpow_natCast, Int.toNat_of_nonneg he]
    · have hdvd : Nat.pow 2 (-x.exponent).toNat ∣ x.significand := by
        rcases hint with h | h
        · exact absurd h he
        · exact Nat.dvd_of_mod_eq_zero h
      rw [Nat.cast_div hdvd (by simp), Nat.pow_eq, Nat.cast_pow, Nat.cast_ofNat, div_eq_mul_inv,
        ← zpow_natCast, ← zpow_neg, Int.toNat_of_nonneg (by omega), neg_neg]
  have hm0 : m ≠ 0 := by
    intro h
    rw [h, Nat.cast_zero] at hexact
    have hs : x.significand = 0 := by
      exact_mod_cast (mul_eq_zero.1 hexact).resolve_right (zpow_ne_zero _ two_ne_zero)
    rw [← isZero_iff_significand] at hs
    rw [hs] at hz
    cases hz
  have htrunc : x.truncate = if x.sign then -(m : Int) else m := rfl
  apply toDouble_eq_of_value_eq hfin
  · cases hsign : x.sign with
    | false => simp [htrunc, hsign]
    | true =>
      simp [htrunc, hsign]
      omega
  · rw [value_eq_signed, hexact, Decimal.value, htrunc]
    cases x.sign <;> simp [signed]

/-! ### Texts that spell decimals -/

open Grammar

/-- A text is a number literal of the grammar spelling the decimal `d`, whatever follows it. -/
def Spells (cs : List Char) (d : Decimal) : Prop := ∀ t, NumLit (cs ++ t) d t

/-- A literal put together from its parts: sign, integer digits, fraction and exponent. -/
theorem spells_of_parts (neg : Bool) {ints fp fracs ep : List Char} {e : Int} (hi : IntDigits ints)
    (hf : FracPart fp fracs) (he : ExpPart ep e) {cs : List Char} {d : Decimal}
    (hcs : cs = (if neg then ['-'] else []) ++ ints ++ fp ++ ep)
    (hd : d = ⟨neg, digitsValue (ints ++ fracs), e - fracs.length⟩) : Spells cs d := by
  subst hcs hd
  intro t
  exact NumLit.mk hi hf he

end Decimal

namespace Grammar

/-- Zeros alone are worth nothing. -/
theorem digitsValue_replicate_zero (k : Nat) : digitsValue (List.replicate k '0') = 0 := by
  induction k with
  | zero => rfl
  | succ k ih =>
    rw [List.replicate_succ', digitsValue_append, ih]
    rfl

/-- The digits of a positive number, and any digits after them, make an integer part. -/
theorem intDigits_toDigits_append {n : Nat} (hn : n ≠ 0) {rest : List Char}
    (hrest : ∀ x ∈ rest, x.isDigit) : IntDigits (Nat.toDigits 10 n ++ rest) := by
  obtain ⟨d, ds, h, h₁, h₂⟩ := toDigits_head n hn
  refine .inr ⟨d, ds ++ rest, by rw [h, List.cons_append], h₁, h₂, fun x hx => ?_⟩
  rcases List.mem_append.1 hx with hx | hx
  · exact Nat.isDigit_of_mem_toDigits (by decide) (by decide) (h ▸ List.mem_cons_of_mem _ hx)
  · exact hrest x hx

/-- Every decimal digit of a number is a digit character. -/
theorem isDigit_of_mem_toDigits {n : Nat} {x : Char} (hx : x ∈ Nat.toDigits 10 n) : x.isDigit :=
  Nat.isDigit_of_mem_toDigits (by decide) (by decide) hx

/-- A nonempty prefix of the digits of a positive number is an integer part. -/
theorem intDigits_take {n j : Nat} (hn : n ≠ 0) (hj : 0 < j) :
    IntDigits ((Nat.toDigits 10 n).take j) := by
  obtain ⟨d, ds, h, h₁, h₂⟩ := toDigits_head n hn
  obtain ⟨j, rfl⟩ : ∃ i, j = i + 1 := ⟨j - 1, by omega⟩
  refine .inr ⟨d, ds.take j, by rw [h, List.take_succ_cons], h₁, h₂, fun x hx => ?_⟩
  exact isDigit_of_mem_toDigits (h ▸ List.mem_cons_of_mem _ (List.mem_of_mem_take hx))

/-- An exponent written as `e` and the decimal text of a whole number. -/
theorem expPart_toString (p : Int) : ExpPart ('e' :: (toString p).toList) p := by
  cases p with
  | ofNat k =>
    have h : ExpPart ('e' :: [] ++ Nat.toDigits 10 k) (if false then _ else _) :=
      .some (.inl rfl) (.inl ⟨rfl, rfl⟩) Nat.toDigits_ne_nil fun x hx => isDigit_of_mem_toDigits hx
    show ExpPart ('e' :: (toString k).toList) k
    simpa using h
  | negSucc k =>
    have h : ExpPart ('e' :: ['-'] ++ Nat.toDigits 10 (k + 1)) (if true then _ else _) :=
      .some (.inl rfl) (.inr (.inr ⟨rfl, rfl⟩)) Nat.toDigits_ne_nil
        fun x hx => isDigit_of_mem_toDigits hx
    have hval : Int.negSucc k = -((k + 1 : Nat) : Int) := by omega
    show ExpPart ('e' :: ("-" ++ toString (k + 1)).toList) (Int.negSucc k)
    rw [hval]
    simpa using h

end Grammar

/-- The text of a whole number: a minus sign exactly when it is negative, then the digits of its
magnitude as the digit loop writes them. -/
theorem integerText_toList (n : Int) :
    (integerText n).toList = (if n < 0 then ['-'] else []) ++ Nat.toDigits 10 n.natAbs := by
  cases n with
  | ofNat k =>
    show (toString k).toList = _
    simp
  | negSucc k =>
    show ("-" ++ toString (k + 1)).toList = _
    simp

namespace Decimal

open Grammar

/-- The decimal text of a whole number spells it. -/
theorem spells_integerText (n : Int) :
    Spells (integerText n).toList ⟨decide (n < 0), n.natAbs, 0⟩ := by
  refine spells_of_parts (decide (n < 0)) (intDigits_toDigits n.natAbs) .none .none ?_ ?_
  · rw [integerText_toList]
    simp
  · simp

/-- The sign of a decimal is a minus exactly when it is negative. -/
theorem toList_signText (d : Decimal) : d.signText.toList = if d.neg then ['-'] else [] := by
  unfold signText
  split <;> rfl

/-- Positional notation with a nonnegative exponent spells the digits followed by the zeros. -/
theorem spells_positional_of_nonneg {d : Decimal} (hd : d.digits ≠ 0) (he : 0 ≤ d.exp) :
    Spells d.positional.toList ⟨d.neg, d.digits * 10 ^ d.exp.toNat, 0⟩ := by
  have hzeros : ∀ x ∈ List.replicate d.exp.toNat '0', x.isDigit := by
    intro x hx
    rw [List.eq_of_mem_replicate hx]
    rfl
  refine spells_of_parts d.neg (intDigits_toDigits_append hd hzeros) .none .none ?_ ?_
  · simp [positional, he, toList_signText]
  · simp [digitsValue_append, digitsValue_replicate_zero]

/-- A number's text has as many characters as it has decimal digits. -/
theorem length_repr (n : Nat) : n.repr.length = (Nat.toDigits 10 n).length := by
  rw [Nat.repr, String.length_ofList]

/-- Positional notation with a negative exponent spells the decimal itself: the point falls
inside the digits, or after `0.` and zeros before them. -/
theorem spells_positional_of_neg {d : Decimal} (hd : d.digits ≠ 0) (he : d.exp < 0) :
    Spells d.positional.toList d := by
  obtain ⟨neg, digits, exp⟩ := d
  simp only at hd he
  have hne : Nat.toDigits 10 digits ≠ [] := Nat.toDigits_ne_nil
  have hpos : 0 < (Nat.toDigits 10 digits).length := List.length_pos_iff.2 hne
  by_cases hs : (-exp).toNat < (Nat.toDigits 10 digits).length
  · -- the point falls inside the digits
    have hfr : ∀ x ∈ (Nat.toDigits 10 digits).drop ((Nat.toDigits 10 digits).length - (-exp).toNat),
        x.isDigit := fun x hx => isDigit_of_mem_toDigits (List.mem_of_mem_drop hx)
    refine spells_of_parts neg
      (intDigits_take (j := (Nat.toDigits 10 digits).length - (-exp).toNat) hd (by omega))
      (.some (by simp; omega) hfr) .none ?_ ?_
    · simp [positional, not_le.2 he, length_repr, hs, toList_signText]
    · rw [List.take_append_drop, digitsValue_toDigits, List.length_drop]
      congr 1
      omega
  · -- the digits come after `0.` and zeros
    have hfr : ∀ x ∈ List.replicate ((-exp).toNat - (Nat.toDigits 10 digits).length) '0' ++
        Nat.toDigits 10 digits, x.isDigit := by
      intro x hx
      rcases List.mem_append.1 hx with hx | hx
      · rw [List.eq_of_mem_replicate hx]; rfl
      · exact isDigit_of_mem_toDigits hx
    refine spells_of_parts neg (.inl rfl) (.some (by simp [hne]) hfr) .none ?_ ?_
    · simp [positional, not_le.2 he, length_repr, hs, toList_signText]
    · have hzeros : ['0'] ++ (List.replicate ((-exp).toNat - (Nat.toDigits 10 digits).length) '0' ++
          Nat.toDigits 10 digits) =
          List.replicate ((-exp).toNat - (Nat.toDigits 10 digits).length + 1) '0' ++
            Nat.toDigits 10 digits := by
        simp [List.replicate_succ]
      rw [hzeros, digitsValue_append, digitsValue_replicate_zero, digitsValue_toDigits, Nat.zero_mul,
        Nat.zero_add, List.length_append, List.length_replicate]
      congr 1
      omega

/-- Scientific notation spells the decimal itself: one digit, the others after a point, and the
exponent that puts the point back. -/
theorem spells_scientific {d : Decimal} (hd : d.digits ≠ 0) : Spells d.scientific.toList d := by
  obtain ⟨neg, digits, exp⟩ := d
  simp only at hd
  have hpos : 0 < (Nat.toDigits 10 digits).length := List.length_pos_iff.2 Nat.toDigits_ne_nil
  -- several digits put a point after the first; a single digit is written with no point
  by_cases h1 : 1 < (Nat.toDigits 10 digits).length
  · have hfr : ∀ x ∈ (Nat.toDigits 10 digits).drop 1, x.isDigit :=
      fun x hx => isDigit_of_mem_toDigits (List.mem_of_mem_drop hx)
    have hfne : (Nat.toDigits 10 digits).drop 1 ≠ [] := by
      rw [← List.length_pos_iff, List.length_drop]
      omega
    refine spells_of_parts neg (intDigits_take (j := 1) hd Nat.one_pos) (.some hfne hfr)
      (expPart_toString (exp + ((Nat.toDigits 10 digits).length - 1 : Nat))) ?_ ?_
    · simp [scientific, toList_signText, h1]
    · rw [List.take_append_drop, digitsValue_toDigits, List.length_drop]
      congr 1
      omega
  · have htake : (Nat.toDigits 10 digits).take 1 = Nat.toDigits 10 digits :=
      List.take_of_length_le (by omega)
    refine spells_of_parts neg (intDigits_take (j := 1) hd Nat.one_pos) .none
      (expPart_toString (exp + ((Nat.toDigits 10 digits).length - 1 : Nat))) ?_ ?_
    · simp [scientific, toList_signText, h1]
    · rw [List.append_nil, htake, digitsValue_toDigits, List.length_nil]
      congr 1
      omega

end Decimal

namespace Double

open Grammar

/-- The written text of a finite number other than zero spells a decimal that reads back as the
number, wherever its shortest digits do: a whole number by its integer part, and the others by
their shortest digits, shifted back to a whole number in positional notation with no point. -/
theorem jsonText_spells {x : Double} (hfin : x.isFinite = true) (hz : x.isZero = false)
    (hx : x.shortest.toDouble = x) : ∃ d : Decimal, d.Spells x.jsonText.toList ∧ d.toDouble = x := by
  -- the shortest digits of a number other than zero are not all gone
  have hdig : x.shortest.digits ≠ 0 := by
    intro h0
    have hzero : x.shortest.toDouble = zero x.shortest.neg := by simp [Decimal.toDouble, h0]
    rw [hx] at hzero
    rw [hzero, isZero_zero] at hz
    cases hz
  unfold jsonText
  simp only [hfin, hz, Bool.not_true, Bool.false_eq_true, if_false]
  split_ifs with hint hpos
  · -- a whole number below 2^53: its integer text
    simp only [Bool.and_eq_true] at hint
    exact ⟨_, Decimal.spells_integerText _, Decimal.toDouble_truncate hint.2 hz⟩
  · by_cases he : 0 ≤ x.shortest.exp
    · -- no point: the digits shifted to a whole number
      refine ⟨_, Decimal.spells_positional_of_nonneg hdig he, ?_⟩
      have hd : x.shortest = ⟨x.shortest.neg, x.shortest.digits, (x.shortest.exp.toNat : Int)⟩ := by
        rw [Int.toNat_of_nonneg he]
      rw [Decimal.toDouble_shift (by rw [← hd, hx]; exact hfin), ← hd, hx]
    · exact ⟨_, Decimal.spells_positional_of_neg hdig (not_le.1 he), hx⟩
  · exact ⟨_, Decimal.spells_scientific hdig, hx⟩

end Double

end JsonCodec
