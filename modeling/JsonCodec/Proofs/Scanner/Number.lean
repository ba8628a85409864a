import JsonCodec.Proofs.Scanner.Lexed
import JsonCodec.Proofs.Number.Round

/-! # Numbers as the scanner reads them

The scanner gives a plain integer of at most eighteen digits a path of its own: the digits are
accumulated in a 64-bit word, the word is converted to the nearest double, and the sign is put on
after. Every other lexeme is rounded from the decimal it spells. The two agree on every lexeme:

* the word never wraps: while the value of the digits fits in a word, the accumulation is exact
  (`digitsWord_toNat`), and eighteen digits stay below `10 ^ 18` (`digitsValue_lt`);
* rounding is symmetric in the sign (`Double.roundQuotient_neg`), and the decimal reader rounds a
  whole number as its quotient by one (`Decimal.toDouble_integer`); so the signed conversion of
  the word is the decimal's rounding, `-0` read as the negative zero (`toDouble_eq_decimal`).

Hence the scanner reads every number as the double nearest to the decimal it spells
(`scanNumber_eq`), and the word path can be switched off without changing any result
(`scanNumber_word_path_agrees`).
-/

namespace JsonCodec

namespace Double

section Sign

variable {neg : Bool} {e f : Nat}

/-- Flipping the sign of a number assembled from fields in range flips its sign field. -/
theorem neg_ofFields (he : e < 2048) (hf : f < 2 ^ 52) :
    (ofFields neg e f).neg = ofFields (!neg) e f := by
  rw [Double.neg, sign_ofFields he hf, biasedExponent_ofFields he hf, fraction_ofFields he hf]

/-- Packing with the other sign flips the sign of the packed number, infinities included. -/
theorem pack_neg {m : Nat} {e : Int} (hm : m ≤ 2 ^ 53) : (pack neg m e).neg = pack (!neg) m e := by
  rcases Nat.lt_or_ge m (2 ^ 52) with h52 | h52
  · rw [pack_subnormal h52, pack_subnormal h52, neg_ofFields (by decide) h52]
  rcases Nat.lt_or_ge m (2 ^ 53) with h53 | h53
  · by_cases he : e ≤ 971
    · rw [pack_normal h52 h53 he, pack_normal h52 h53 he, neg_ofFields (by omega) (by omega)]
    · rw [pack_overflow h52 h53 (by omega), pack_overflow h52 h53 (by omega), infinity, infinity,
        neg_ofFields (by decide) (by decide)]
  · -- the carry into the next binade
    obtain rfl : m = 2 ^ 53 := by omega
    by_cases he : e ≤ 970
    · rw [pack_carry he, pack_carry he, neg_ofFields (by omega) (by decide)]
    · rw [pack_carry_overflow (by omega), pack_carry_overflow (by omega), infinity, infinity,
        neg_ofFields (by decide) (by decide)]

end Sign

/-- Rounding is symmetric in the sign: the quotient rounded with the other sign is the number
with its sign flipped. -/
theorem roundQuotient_neg (neg : Bool) (p : Nat) {q : Nat} (hq : 0 < q) :
    (roundQuotient neg p q).neg = roundQuotient (!neg) p q := by
  rcases Nat.eq_zero_or_pos p with rfl | hp
  · exact neg_ofFields (by decide) (by decide)
  · rw [roundQuotient_eq hp.ne', roundQuotient_eq hp.ne']
    exact pack_neg ((nearestScaled_roundHalfEven hp hq).le_two_pow (by positivity))

end Double

/-- A decimal with no fractional part and fewer than 1024 bits is rounded as the quotient of its
digits by one. -/
theorem Decimal.toDouble_integer {neg : Bool} {m : Nat} (hm : m.log2 < 1024) :
    (⟨neg, m, 0⟩ : Decimal).toDouble = Double.roundQuotient neg m 1 := by
  by_cases h0 : m = 0
  · subst h0
    simp [Decimal.toDouble, Double.roundQuotient]
  · simp only [Decimal.toDouble, h0, if_false, le_refl, if_true, Int.toNat_zero, Nat.pow_eq,
      pow_zero, Nat.mul_one, Nat.mul_zero, Nat.add_zero, not_le.2 hm]

namespace Lexeme

/-! ### The word never wraps -/

/-- One more digit multiplies the value by ten and adds the digit. -/
theorem digitsValue_append_digit (ds : List UInt8) (d : UInt8) :
    digitsValue (ds ++ [d]) = digitsValue ds * 10 + (d.toNat - 0x30) := by
  simp [digitsValue, List.foldl_append]

/-- One more digit multiplies the word by ten and adds the digit, wrapping as the word does. -/
theorem digitsWord_append_digit (ds : List UInt8) (d : UInt8) :
    digitsWord (ds ++ [d]) = digitsWord ds * 10 + (d - 0x30).toUInt64 := by
  simp [digitsWord, List.foldl_append]

/-- A digit byte stands for a digit from zero to nine, which it yields in a word too. -/
theorem digit_word {d : UInt8} (hd : isDigit d) :
    d.toNat - 0x30 ≤ 9 ∧ (d - 0x30).toUInt64.toNat = d.toNat - 0x30 := by
  simp only [isDigit, Bool.and_eq_true, decide_eq_true_eq, UInt8.le_iff_toNat_le] at hd
  simp only [UInt8.toNat_toUInt64, UInt8.toNat_sub, UInt8.reduceToNat] at hd ⊢
  omega

/-- Digits are worth less than ten to the power of their number. -/
theorem digitsValue_lt {ds : List UInt8} (hd : ∀ b ∈ ds, isDigit b) :
    digitsValue ds < 10 ^ ds.length := by
  induction ds using List.reverseRecOn with
  | nil => simp [digitsValue]
  | append_singleton ds d ih =>
    have hd' := (digit_word (hd d (by simp))).1
    have hlt := ih fun b hb => hd b (by simp [hb])
    rw [digitsValue_append_digit, List.length_append, List.length_singleton, pow_succ]
    omega

/-- While the value of the digits fits in a word, the word accumulates it exactly: no step
wraps, since each passes through the value of a prefix, which is at most the whole. -/
theorem digitsWord_toNat {ds : List UInt8} (hd : ∀ b ∈ ds, isDigit b)
    (hlt : digitsValue ds < 2 ^ 64) : (digitsWord ds).toNat = digitsValue ds := by
  induction ds using List.reverseRecOn with
  | nil => rfl
  | append_singleton ds d ih =>
    obtain ⟨hd₉, hword⟩ := digit_word (hd d (by simp))
    rw [digitsValue_append_digit] at hlt ⊢
    have hprefix := ih (fun b hb => hd b (by simp [hb])) (by omega)
    rw [digitsWord_append_digit, UInt64.toNat_add, UInt64.toNat_mul, hprefix, hword]
    simp only [UInt64.reduceToNat]
    omega

/-! ### What a number lexeme is made of -/

/-- The parts of a number lexeme: the integer part, the fraction and the exponent the readers
accept after the sign, and whether the latter two are empty. -/
theorem numberLexeme?_parts {bs : List UInt8} {l : NumberLexeme} (h : numberLexeme? bs = some l) :
    ∃ k r r' fl el, integerPart? (bs.drop k) = some (l.ints, r) ∧
      fractionPart? r = some (l.fracs, fl, r') ∧ exponentPart? r' = some (l.exp, el) ∧
      l.integral = (fl == 0 && el == 0) := by
  simp only [numberLexeme?, Option.bind_eq_bind] at h
  -- with a minus sign or without, the same three readers follow it
  split at h <;>
  · simp only [Option.bind_eq_some_iff] at h
    obtain ⟨⟨ints, r⟩, hi, ⟨fracs, fl, r'⟩, hf, ⟨e, el⟩, he, hd⟩ := h
    simp only [Option.some.injEq] at hd
    subst hd
    exact ⟨_, r, r', fl, el, hi, hf, he, rfl⟩

/-- The integer part is at least one digit. -/
theorem integerPart?_digits {bs ints r : List UInt8} (h : integerPart? bs = some (ints, r)) :
    ints ≠ [] ∧ ∀ b ∈ ints, isDigit b := by
  obtain ⟨ic, hic, rfl, -⟩ := integerPart?_sound h
  refine ⟨fun hnil => ?_, isDigit_encode hic.digits⟩
  have hlen := Utf8.length_le_encode ic
  rw [hnil] at hlen
  rcases hic with rfl | ⟨c, cs, rfl, -⟩ <;> simp at hlen

/-- The integer digits of a number lexeme are digits. -/
theorem numberLexeme?_digits {bs : List UInt8} {l : NumberLexeme} (h : numberLexeme? bs = some l) :
    ∀ b ∈ l.ints, isDigit b := by
  obtain ⟨k, r, -, -, -, hi, -⟩ := numberLexeme?_parts h
  exact (integerPart?_digits hi).2

/-- A fraction that takes no bytes has no digits. -/
theorem fractionPart?_empty {r fracs r' : List UInt8} (h : fractionPart? r = some (fracs, 0, r')) :
    fracs = [] := by
  obtain ⟨fp, fc, hfp, rfl, -, hlen⟩ := fractionPart?_sound h
  cases hfp with
  | none => rfl
  | some _ _ =>
    have := Utf8.length_le_encode ('.' :: fc)
    rw [← hlen] at this
    simp at this

/-- An exponent that takes no bytes is zero. -/
theorem exponentPart?_empty {r : List UInt8} {e : Int} (h : exponentPart? r = some (e, 0)) :
    e = 0 := by
  obtain ⟨ep, r', hep, -, hlen⟩ := exponentPart?_sound h
  cases hep with
  | none => rfl
  | @some c sign ds _ _ _ _ _ =>
    have := Utf8.length_le_encode (c :: sign ++ ds)
    rw [← hlen] at this
    simp at this

/-! ### The two paths agree -/

/-- On a plain integer short enough for the word path, that path gives the rounding of the
decimal the lexeme spells. -/
theorem toDouble_eq_decimal {bs : List UInt8} {l : NumberLexeme} (h : numberLexeme? bs = some l)
    {fast : Nat} (hfast : fast ≤ fastIntegerDigits) : l.toDouble fast = l.decimal.toDouble := by
  unfold NumberLexeme.toDouble
  by_cases hpath : (l.integral && decide (l.ints.length ≤ fast)) = true
  · rw [if_pos hpath]
    simp only [Bool.and_eq_true, decide_eq_true_eq] at hpath
    obtain ⟨k, r, r', fl, el, -, hf, he, hint⟩ := numberLexeme?_parts h
    have hd := numberLexeme?_digits h
    -- a plain integer has neither fraction digits nor an exponent
    have hfl : fl = 0 ∧ el = 0 := by simpa [hint] using hpath.1
    rw [hfl.1] at hf
    rw [hfl.2] at he
    have hdec : l.decimal = ⟨l.neg, digitsValue l.ints, 0⟩ := by
      simp [NumberLexeme.decimal, fractionPart?_empty hf, exponentPart?_empty he]
    have hv : digitsValue l.ints < 2 ^ 64 :=
      calc digitsValue l.ints < 10 ^ l.ints.length := digitsValue_lt hd
        _ ≤ 10 ^ 18 := Nat.pow_le_pow_right (by norm_num) (hpath.2.trans hfast)
        _ < 2 ^ 64 := by norm_num
    have hlog : (digitsValue l.ints).log2 < 1024 := by
      by_cases h0 : digitsValue l.ints = 0
      · simp [h0]
      · have := (Nat.log2_lt h0).2 hv
        omega
    rw [hdec, Decimal.toDouble_integer hlog, Double.ofUInt64, digitsWord_toNat hd hv]
    cases l.neg with
    | false => exact if_neg Bool.false_ne_true
    | true =>
      rw [if_pos rfl]
      exact Double.roundQuotient_neg false _ Nat.one_pos
  · rw [if_neg hpath]

/-- The scanner reads a number as the double nearest to the decimal it spells. -/
theorem scanNumber_eq (bs : List UInt8) :
    scanNumber fastIntegerDigits bs = (number? bs).map fun p => (p.1.toDouble, p.2) := by
  unfold scanNumber number?
  cases h : numberLexeme? bs with
  | none => rfl
  | some l => simp [toDouble_eq_decimal h le_rfl]

/-- The word path changes no result. On every input, reading a number with the word path and
with every lexeme rounded from its decimal (a bound of zero digits) gives the same value, the same
length and the same refusal. On a plain integer of at most eighteen digits the word never wraps:
every value it passes through is the exact value of a prefix of the digits, below `10 ^ 18`; and
the signed conversion of the word is the decimal's rounding, `-0` included. -/
theorem scanNumber_word_path_agrees (bs : List UInt8) :
    scanNumber fastIntegerDigits bs = scanNumber 0 bs ∧
      ∀ l, numberLexeme? bs = some l → l.integral = true → l.ints.length ≤ fastIntegerDigits →
        (∀ p, p <+: l.ints → (digitsWord p).toNat = digitsValue p ∧ digitsValue p < 10 ^ 18) ∧
          l.toDouble fastIntegerDigits = l.decimal.toDouble := by
  refine ⟨?_, fun l h _ hlen => ⟨fun p hp => ?_, toDouble_eq_decimal h le_rfl⟩⟩
  · -- both bounds give every lexeme the decimal's rounding
    unfold scanNumber
    cases h : numberLexeme? bs with
    | none => rfl
    | some l => simp [toDouble_eq_decimal h le_rfl, toDouble_eq_decimal h (Nat.zero_le _)]
  · have hpd : ∀ b ∈ p, isDigit b := fun b hb => numberLexeme?_digits h b (hp.subset hb)
    have hv : digitsValue p < 10 ^ 18 :=
      calc digitsValue p < 10 ^ p.length := digitsValue_lt hpd
        _ ≤ 10 ^ 18 := Nat.pow_le_pow_right (by norm_num) (hp.length_le.trans hlen)
    exact ⟨digitsWord_toNat hpd (lt_trans hv (by norm_num)), hv⟩

/-- `-0` takes the word path and reads as the negative zero, as its decimal does. -/
theorem scanNumber_word_path_agrees_neg_zero :
    scanNumber fastIntegerDigits [0x2D, 0x30] = scanNumber 0 [0x2D, 0x30] ∧
      numberLexeme? [0x2D, 0x30] = some ⟨true, [0x30], [], 0, true, 2⟩ ∧
      (⟨true, [0x30], [], 0, true, 2⟩ : NumberLexeme).toDouble fastIntegerDigits =
        Double.zero true := by
  have hl : numberLexeme? [0x2D, 0x30] = some ⟨true, [0x30], [], 0, true, 2⟩ := rfl
  have h := scanNumber_word_path_agrees [0x2D, 0x30]
  refine ⟨h.1, hl, ?_⟩
  rw [(h.2 _ hl rfl (by decide)).2]
  rfl

end Lexeme

end JsonCodec
