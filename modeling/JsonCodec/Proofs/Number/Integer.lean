import JsonCodec.Proofs.Number.Literal
import JsonCodec.Proofs.Scanner.Number
import JsonCodec.Proofs.Reader.Typed

/-! # Whole numbers written and read back

The writer spells a whole number with the digit loop of `Nat.toDigits`: the last digit first, by
remainders of ten until nothing is left, one slot of the digit buffer per digit. So the text of
a 64-bit integer is a minus sign when it is negative and then at most twenty digits with no
leading zero (`integerText_toList`). The text is a number of the grammar spelling the integer
exactly, so reading it back gives the integer rounded to the nearest double (`Double.ofInt`), then
converted as the integer reads convert (`parseBytes_integerText`).

A whole number of at most 53 bits is a double exactly (`Double.roundQuotient_whole`), and a
finite double with a whole value truncates to it (`Double.truncate_of_value`); so such integers,
the 32-bit ones among them, read back as themselves (`Double.ofInt_exact`).
-/

namespace JsonCodec

namespace Double

/-- The conversion of a signed integer: the nearest number, a tie going to the even significand. -/
def ofInt (n : Int) : Double := roundQuotient (decide (n < 0)) n.natAbs 1

/-- Rounding a positive number as a quotient by one starts from its bit length. -/
theorem lastPlace_one {m : Nat} (hm : m ≠ 0) : lastPlace m 1 = (m.log2 : Int) - 52 := by
  have hfl : floorLog2Quotient m 1 = m.log2 := by
    simp [floorLog2Quotient, quotientAtLeastPow2, Nat.log2_self_le hm, show Nat.log2 1 = 0 by decide]
  rw [lastPlace, hfl]
  omega

/-- An integer is its magnitude with its sign. -/
theorem signed_natAbs (n : Int) : signed (decide (n < 0)) (n.natAbs : ℚ) = n := by
  rw [signed, Nat.cast_natAbs, Int.cast_abs]
  by_cases hneg : n < 0
  · rw [decide_eq_true hneg, abs_of_neg (by exact_mod_cast hneg)]
    simp
  · rw [decide_eq_false hneg, abs_of_nonneg (by exact_mod_cast not_lt.1 hneg)]
    simp

/-- The conversion of an integer rounds it to the nearest number, a tie going to the even
significand. -/
theorem roundsTo_ofInt (n : Int) : RoundsTo (decide (n < 0)) n (ofInt n) := by
  by_cases h0 : n = 0
  · subst h0
    have hz : ofInt 0 = zero false := by simp [ofInt, roundQuotient]
    rw [hz, Int.cast_zero, show decide ((0 : Int) < 0) = false by decide]
    exact roundsTo_zero (by rw [abs_zero]; positivity)
  · have h := roundQuotient_roundsTo (decide (n < 0)) (Int.natAbs_pos.2 h0) Nat.one_pos
    rwa [Nat.cast_one, div_one, signed_natAbs] at h

/-- A whole number of at most 53 bits is a double exactly: its rounding is finite, keeps the
sign asked for, and has the number's value. -/
theorem roundQuotient_whole (neg : Bool) {m : Nat} (hm : 0 < m) (hm' : m ≤ 2 ^ 53) :
    (roundQuotient neg m 1).isFinite = true ∧ (roundQuotient neg m 1).sign = neg ∧
      (roundQuotient neg m 1).value = signed neg m := by
  have hns := nearestScaled_roundHalfEven hm Nat.one_pos
  have hlog : m.log2 ≤ 53 := by
    have := (Nat.log2_lt hm.ne').2 (show m < 2 ^ 54 by omega)
    omega
  -- in units of the last place the number is a whole number `j`
  obtain ⟨j, hj⟩ : ∃ j : Nat, ((m : Nat) : ℚ) / ((1 : Nat) : ℚ) / 2 ^ lastPlace m 1 = j := by
    rw [lastPlace_one hm.ne', Nat.cast_one, div_one]
    rcases Nat.lt_or_ge m.log2 53 with h52 | h53
    · -- a place at or below one: the number times a power of two
      refine ⟨m * 2 ^ (52 - m.log2), ?_⟩
      rw [show (m.log2 : Int) - 52 = -((52 - m.log2 : Nat) : Int) by omega, zpow_neg, zpow_natCast,
        div_inv_eq_mul]
      push_cast
      ring
    · -- the place two: only `2 ^ 53` itself has 54 bits
      have hm53 : m = 2 ^ 53 := by
        have := Nat.log2_self_le hm.ne'
        rw [show m.log2 = 53 by omega] at this
        omega
      refine ⟨2 ^ 52, ?_⟩
      rw [show (m.log2 : Int) - 52 = ((1 : Nat) : Int) by omega, zpow_natCast, hm53]
      norm_num
  -- the nearest natural to a natural is itself
  have hkj : roundHalfEven (m * 2 ^ (-lastPlace m 1).toNat) (1 * 2 ^ (lastPlace m 1).toNat) = j := by
    have hnear := hns.nearest j
    rw [hj, sub_self, abs_zero] at hnear
    exact_mod_cast sub_eq_zero.1 (abs_nonpos_iff.1 hnear)
  have hval : ((roundHalfEven (m * 2 ^ (-lastPlace m 1).toNat) (1 * 2 ^ (lastPlace m 1).toNat) :
      Nat) : ℚ) * 2 ^ lastPlace m 1 = m := by
    rw [hkj, ← hj, Nat.cast_one, div_one, div_mul_cancel₀ _ (zpow_ne_zero _ two_ne_zero)]
  have hsmall : ((m : Nat) : ℚ) < 2 ^ 1024 := by
    exact_mod_cast lt_of_le_of_lt hm' (Nat.pow_lt_pow_right (by norm_num) (by norm_num))
  obtain ⟨hfin, hsign, hvalue, -⟩ := @pack_finite neg _ _ (hns.le_two_pow (by positivity))
    (hns.subnormal (by positivity)) hns.least (by rw [hval]; exact hsmall)
  rw [roundQuotient_eq hm.ne']
  exact ⟨hfin, hsign, by rw [hvalue, hval]⟩

/-- A finite number whose value is a whole number, with that number's sign unless it is zero,
has the number as its integer part. -/
theorem truncate_of_value {x : Double} {n : Int} (hv : x.value = n)
    (hs : n ≠ 0 → x.sign = decide (n < 0)) : x.truncate = n := by
  have habs : (x.significand : ℚ) * 2 ^ x.exponent = (n.natAbs : ℚ) := by
    rw [← abs_value, hv, Nat.cast_natAbs, Int.cast_abs]
  -- the magnitude of the integer part is that of the value
  have hmag : (if 0 ≤ x.exponent then x.significand * Nat.pow 2 x.exponent.toNat
      else x.significand / Nat.pow 2 (-x.exponent).toNat) = n.natAbs := by
    split_ifs with he
    · have h : ((x.significand * 2 ^ x.exponent.toNat : Nat) : ℚ) = n.natAbs := by
        rw [← habs]
        push_cast
        rw [← zpow_natCast, Int.toNat_of_nonneg he]
      rw [Nat.pow_eq]
      exact Nat.cast_injective h
    · have hsig : x.significand = n.natAbs * 2 ^ (-x.exponent).toNat := by
        have h : (x.significand : ℚ) = n.natAbs * 2 ^ (-x.exponent).toNat := by
          rw [← habs, mul_assoc, ← zpow_natCast, Int.toNat_of_nonneg (by omega),
            ← zpow_add₀ two_ne_zero, add_neg_cancel, zpow_zero, mul_one]
        exact_mod_cast h
      rw [hsig, Nat.pow_eq, Nat.mul_div_cancel _ (by positivity)]
  unfold truncate
  simp only [hmag]
  by_cases h0 : n = 0
  · subst h0
    simp
  · rw [hs h0]
    by_cases hneg : n < 0
    · simp only [hneg, decide_true, if_true]
      omega
    · simp only [hneg, decide_false, Bool.false_eq_true, if_false]
      omega

/-- A finite number converts to a bounded integer range as its integer part, when that is in
the range. -/
theorem clampToInt_of_isFinite {x : Double} (hx : x.isFinite = true) {lo hi : Int}
    (hlo : lo ≤ x.truncate) (hhi : x.truncate ≤ hi) : clampToInt lo hi x = x.truncate := by
  have hnan : x.isNaN = false := by
    simp only [isFinite, bne_iff_ne, ne_eq] at hx
    simp [isNaN, hx]
  rw [clampToInt, hnan, isInfinite_of_isFinite hx]
  simp only [Bool.false_eq_true, if_false]
  omega

/-- An integer of at most 53 bits in magnitude converts to a finite number whose integer part is
the integer again. -/
theorem ofInt_exact {n : Int} (hn : n.natAbs ≤ 2 ^ 53) :
    (ofInt n).isFinite = true ∧ (ofInt n).truncate = n := by
  by_cases h0 : n = 0
  · subst h0
    exact ⟨isFinite_zero false, truncate_of_value (value_zero false) (absurd rfl)⟩
  · obtain ⟨hfin, hsign, hval⟩ := roundQuotient_whole (decide (n < 0)) (Int.natAbs_pos.2 h0) hn
    refine ⟨hfin, truncate_of_value ?_ fun _ => hsign⟩
    rw [ofInt, hval, signed_natAbs]

/-- An integer of at most 53 bits in magnitude, converted to its nearest double and back to a
range that holds it, is itself. -/
theorem clampToInt_ofInt {n lo hi : Int} (hn : n.natAbs ≤ 2 ^ 53) (hlo : lo ≤ n) (hhi : n ≤ hi) :
    clampToInt lo hi (ofInt n) = n := by
  obtain ⟨hfin, htrunc⟩ := ofInt_exact hn
  rw [clampToInt_of_isFinite hfin (by rw [htrunc]; exact hlo) (by rw [htrunc]; exact hhi), htrunc]

end Double

open Grammar

/-- The text of a whole number below `2 ^ 1024` in magnitude is a JSON text denoting the
number's nearest double. -/
theorem doc_integerText (u : Bool) {n : Int} (hn : n.natAbs.log2 < 1024) :
    Doc u (integerText n).toList (.number (Double.ofInt n)) := by
  have hnum := Elem.number (u := u) (Decimal.spells_integerText n [])
  rw [List.append_nil, Decimal.toDouble_integer hn] at hnum
  exact ⟨_, [], .nil _, hnum, .nil _⟩

/-- Read with a shape, the text of a 64-bit whole number gives what the shape makes of the
number's nearest double. -/
theorem parseBytes_integerText (u : Bool) {n : Int} (hn : n.natAbs ≤ 2 ^ 63) (T : Schema) :
    (T.parseBytes (integerText n).toUTF8.toList u).toOption.map T.plain =
      T.decode (.number (Double.ofInt n)) := by
  have hlog : n.natAbs.log2 < 1024 := by
    by_cases h0 : n.natAbs = 0
    · simp [h0]
    · have := (Nat.log2_lt h0).2 (show n.natAbs < 2 ^ 64 by omega)
      omega
  rw [Utf8.toUTF8_eq_encode]
  exact Schema.parseBytes_eq_decode (doc_integerText u hlog) T

/-- A result that reads back, after a map that changes nothing, as some value is that value. -/
theorem Except.eq_ok_of_toOption_map {ε α : Type} {r : Except ε α} {f : α → α} {a : α}
    (hf : ∀ x, f x = x) (h : r.toOption.map f = some a) : r = .ok a := by
  cases r <;> simp_all [Except.toOption]

/-- Read with a shape that keeps its values as they are, the text of a 64-bit whole number gives
the shape's conversion of the number's nearest double. -/
theorem parseBytes_integerText_ok (u : Bool) {n : Int} (hn : n.natAbs ≤ 2 ^ 63) {T : Schema}
    (hp : ∀ x, T.plain x = x) {a : T.Carrier} (hd : T.decode (.number (Double.ofInt n)) = some a) :
    T.parseBytes (integerText n).toUTF8.toList u = .ok a := by
  have h := parseBytes_integerText u hn T
  rw [hd] at h
  exact Except.eq_ok_of_toOption_map hp h

/-- The text of a 64-bit integer, read back as one, gives the conversion of its nearest
double. -/
theorem parseBytes_integerText_int64 (u : Bool) (v : Int64) :
    Schema.int64.parseBytes (integerText v.toInt).toUTF8.toList u =
      .ok (Double.ofInt v.toInt).toInt64 := by
  have hlo := v.le_toInt
  have hhi := v.toInt_lt
  exact parseBytes_integerText_ok u (by omega) (fun _ => rfl) rfl

/-- A 64-bit integer of at most 53 bits in magnitude, converted to its nearest double and back,
is itself. -/
theorem Double.toInt64_ofInt {v : Int64} (hv : v.toInt.natAbs ≤ 2 ^ 53) :
    (Double.ofInt v.toInt).toInt64 = v := by
  have hlo := v.le_toInt
  have hhi := v.toInt_lt
  rw [Double.toInt64, Double.clampToInt_ofInt hv (by simpa using hlo) (by simp; omega),
    Int64.ofInt_toInt]

/-- A written 32-bit integer, read back as one, is itself: it is an exact double. -/
theorem parseBytes_render_int32 (u e : Bool) (n : Int32) :
    Schema.int32.parseBytes (Schema.int32.render n e).toUTF8.toList u = .ok n := by
  have hlo := n.le_toInt
  have hhi := n.toInt_lt
  have hr : Schema.int32.render n e = integerText n.toInt := by
    simp [Schema.render, Schema.write, Writer.integer, Writer.beforeValue, Writer.new, Writer.emit]
  have hclamp : Double.clampToInt (-Int.pow 2 31) (Int.pow 2 31 - 1) (Double.ofInt n.toInt) =
      n.toInt := Double.clampToInt_ofInt (by omega) (by simpa using hlo) (by simp; omega)
  rw [hr]
  refine parseBytes_integerText_ok u (by omega) (fun _ => rfl) ?_
  show some (Int32.ofInt (Double.clampToInt _ _ (Double.ofInt n.toInt))) = some n
  rw [hclamp, Int32.ofInt_toInt]

/-- A written unsigned 32-bit integer, read back as one, is itself. -/
theorem parseBytes_render_uint32 (u e : Bool) (n : UInt32) :
    Schema.uint32.parseBytes (Schema.uint32.render n e).toUTF8.toList u = .ok n := by
  have hhi := n.toNat_lt
  have hr : Schema.uint32.render n e = integerText n.toNat := by
    simp [Schema.render, Schema.write, Writer.integer, Writer.beforeValue, Writer.new, Writer.emit]
  have hclamp : Double.clampToInt 0 (Int.pow 2 32 - 1) (Double.ofInt n.toNat) = n.toNat :=
    Double.clampToInt_ofInt (by omega) (by omega) (by simp; omega)
  rw [hr]
  refine parseBytes_integerText_ok u (by omega) (fun _ => rfl) ?_
  show some (UInt32.ofNat (Double.clampToInt _ _ (Double.ofInt n.toNat)).toNat) = some n
  rw [hclamp, Int.toNat_natCast, UInt32.ofNat_toNat]

/-- The text of an integer below `10 ^ 20` in magnitude is its canonical numeral: a minus sign
exactly when it is negative, then at most twenty digits with no leading zero spelling the
magnitude, a lone zero for zero. -/
theorem integerText_canonical {n : Int} (hn : n.natAbs < 10 ^ 20) :
    ∃ ds, (integerText n).toList = (if n < 0 then ['-'] else []) ++ ds ∧ IntDigits ds ∧
      digitsValue ds = n.natAbs ∧ (n = 0 → ds = ['0']) ∧ ds.length ≤ 20 := by
  refine ⟨Nat.toDigits 10 n.natAbs, integerText_toList n, intDigits_toDigits _,
    digitsValue_toDigits _, ?_, Nat.toDigits_length 10 _ 20 (by norm_num) hn⟩
  rintro rfl
  simp

/-- Whole numbers written and read back. The text of every 64-bit integer is its canonical
numeral of at most twenty digits, so the writer's twenty-slot digit buffer is never overrun.
Read back as a 64-bit integer it gives the conversion of its nearest double, which is the
integer itself up to `2 ^ 53` in magnitude; so 32-bit integers, signed and unsigned, written
with their shape read back as themselves. -/
theorem integer_text_reads_back (u e : Bool) :
    (∀ v : Int64, ∃ ds, (integerText v.toInt).toList = (if v.toInt < 0 then ['-'] else []) ++ ds ∧
        IntDigits ds ∧ digitsValue ds = v.toInt.natAbs ∧ (v.toInt = 0 → ds = ['0']) ∧
        ds.length ≤ 20) ∧
      (∀ v : Int64, Double.RoundsTo (decide (v.toInt < 0)) v.toInt (Double.ofInt v.toInt) ∧
        Schema.int64.parseBytes (integerText v.toInt).toUTF8.toList u =
          .ok (Double.ofInt v.toInt).toInt64 ∧
        (v.toInt.natAbs ≤ 2 ^ 53 → (Double.ofInt v.toInt).toInt64 = v)) ∧
      (∀ n : Int32, Schema.int32.parseBytes (Schema.int32.render n e).toUTF8.toList u = .ok n) ∧
      (∀ n : UInt32, Schema.uint32.parseBytes (Schema.uint32.render n e).toUTF8.toList u = .ok n) := by
  refine ⟨fun v => integerText_canonical ?_, fun v => ⟨Double.roundsTo_ofInt _,
    parseBytes_integerText_int64 u v, Double.toInt64_ofInt⟩, parseBytes_render_int32 u e,
    parseBytes_render_uint32 u e⟩
  -- a 64-bit magnitude is at most `2 ^ 63`, below `10 ^ 20`
  have hlo := v.le_toInt
  have hhi := v.toInt_lt
  omega

/-- At `2 ^ 53`, the last place where every integer is a double, the read back is exact. -/
theorem integer_text_reads_back_two_pow_53 :
    (9007199254740992 : Int64).toInt.natAbs ≤ 2 ^ 53 ∧
      (Double.ofInt (9007199254740992 : Int64).toInt).toInt64 = 9007199254740992 :=
  ⟨by decide, ((integer_text_reads_back false false).2.1 9007199254740992).2.2 (by decide)⟩

end JsonCodec
