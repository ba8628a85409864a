import JsonCodec.Proofs.Scanner.StringLiteral
import JsonCodec.Proofs.Run
import JsonCodec.Proofs.Walk

/-! # What the lexeme readers accept

The converse of the lexeme lemmas: whatever a lexeme reader accepts is the UTF-8 encoding of a
phrase of the grammar, followed by the bytes it leaves. White space stepped over is white space
(`spaceLengthFrom_sound`), a word is one of the three words (`literal_sound`), a number is a
number spelling the decimal read (`number?_sound`), and a string literal is one denoting the
characters read (`scan_sound`).

Each phrase is stated for every text `t` that may follow it, as the grammar's rules are: what
a reader accepts never depends on what comes after, except that a number or a word stops at the
first byte that cannot go on with it, and that byte is left for the next reader.
-/

namespace JsonCodec.Lexeme

open Grammar Utf8

/-! ### White space -/

/-- A byte the scanner takes for a blank is the encoding of one of JSON's four blanks. -/
theorem isBlank_char {b : UInt8} (hb : isBlank b) :
    ∃ c, String.utf8EncodeChar c = [b] ∧ isWs false c := by
  simp only [isBlank, Bool.or_eq_true, beq_iff_eq] at hb
  rcases hb with ((rfl | rfl) | rfl) | rfl
  exacts [⟨' ', rfl, rfl⟩, ⟨'\n', rfl, rfl⟩, ⟨'\r', rfl, rfl⟩, ⟨'\t', rfl, rfl⟩]

/-- White space without the Unicode option is white space with it. -/
theorem isWs_of_false {u : Bool} {c : Char} (h : isWs false c) : isWs u c := by
  rw [isWs_eq]
  simp [h]

/-- What the scanner steps over as white space is the encoding of white space. -/
theorem spaceLengthFrom_sound (u : Bool) (acc : Nat) (bs : List UInt8) :
    ∃ w r, bs = encode w ++ r ∧ spaceLengthFrom u acc bs = acc + (encode w).length ∧
      ∀ c ∈ w, isWs u c := by
  fun_induction spaceLengthFrom u acc bs with
  | case1 acc => exact ⟨[], [], rfl, rfl, by simp⟩
  | case2 acc b rest hb ih =>
    obtain ⟨w, r, rfl, hlen, hw⟩ := ih
    obtain ⟨c, hc, hws⟩ := isBlank_char hb
    refine ⟨c :: w, r, by simp [hc], by simp [hlen, hc]; omega, ?_⟩
    simpa [isWs_of_false hws] using hw
  | case3 acc b rest _ hu c r hd _ hs ih =>
    -- with Unicode white space on, a decoded space character is stepped over whole
    obtain ⟨w, r', rfl, hlen, hw⟩ := ih
    refine ⟨c :: w, r', by rw [decodeChar?_sound hd, encode_cons, List.append_assoc], ?_, ?_⟩
    · rw [hlen, encode_cons, List.length_append, String.length_utf8EncodeChar]
      omega
    · refine List.forall_mem_cons.2 ⟨?_, hw⟩
      simp [isWs, hu, hs]
  | case4 => exact ⟨[], _, rfl, rfl, by simp⟩
  | case5 => exact ⟨[], _, rfl, rfl, by simp⟩
  | case6 => exact ⟨[], _, rfl, rfl, by simp⟩

/-! ### Words -/

/-- An ASCII byte is the encoding of the character of its code. -/
theorem ascii_char {b : UInt8} (h : b.toNat < 0x80) :
    String.utf8EncodeChar (Char.ofNat b.toNat) = [b] ∧ (Char.ofNat b.toNat).toNat = b.toNat := by
  have hc : (Char.ofNat b.toNat).toNat = b.toNat := toNat_ofNat_of_valid (Or.inl (by omega))
  refine ⟨?_, hc⟩
  rw [utf8EncodeChar_ascii (by omega), hc, UInt8.ofNat_toNat]

/-- The word reader accepts the three words of JSON only. -/
theorem literal_sound {bs : List UInt8} {t : Token} {n : Nat} (h : literal bs = .ok (t, n)) :
    ∃ v word, bs = encode word ++ bs.drop n ∧ TreeSource.nodeFrame v = none ∧
      t.erase = TreeSource.nodeToken v ∧ ∀ u T, Elem u (word ++ T) v T := by
  have hbs := (List.takeWhile_append_dropWhile (p := isAlpha) (l := bs)).symm
  generalize bs.dropWhile isAlpha = r at hbs
  simp only [literal] at h
  split_ifs at h with h₁ h₂ h₃ <;> simp only [Except.ok.injEq, Prod.mk.injEq] at h <;>
    obtain ⟨rfl, rfl⟩ := h
  · rw [h₁] at hbs
    subst hbs
    exact ⟨.null, ['n', 'u', 'l', 'l'], rfl, rfl, rfl, fun _ T => .null T⟩
  · rw [h₂] at hbs
    subst hbs
    exact ⟨.bool true, ['t', 'r', 'u', 'e'], rfl, rfl, rfl, fun _ T => .true T⟩
  · rw [h₃] at hbs
    subst hbs
    exact ⟨.bool false, ['f', 'a', 'l', 's', 'e'], rfl, rfl, rfl, fun _ T => .false T⟩

/-! ### Numbers -/

/-- A run of digit bytes is the encoding of digit characters. -/
theorem digits_chars {ds : List UInt8} (h : ∀ b ∈ ds, isDigit b) :
    ∃ cs, ds = encode cs ∧ ∀ x ∈ cs, x.isDigit := by
  induction ds with
  | nil => exact ⟨[], rfl, by simp⟩
  | cons b ds ih =>
    obtain ⟨cs, rfl, hcs⟩ := ih fun x hx => h x (by simp [hx])
    have hb := h b (by simp)
    have hlt : b.toNat < 0x80 := by
      simp only [isDigit, Bool.and_eq_true, decide_eq_true_eq, UInt8.le_iff_toNat_le] at hb
      simp at hb
      omega
    obtain ⟨henc, hc⟩ := ascii_char hlt
    refine ⟨Char.ofNat b.toNat :: cs, by simp [henc], ?_⟩
    refine List.forall_mem_cons.2 ⟨?_, hcs⟩
    rw [← isDigit_ascii _ (by omega), hc, UInt8.ofNat_toNat]
    exact hb

/-- The run of digits at the front, split off by `span`. -/
theorem span_digits_sound (bs : List UInt8) :
    ∃ cs, (bs.span isDigit).1 = encode cs ∧ bs = encode cs ++ (bs.span isDigit).2 ∧
      (∀ x ∈ cs, x.isDigit) ∧ HeadNot isDigit (bs.span isDigit).2 := by
  obtain ⟨cs, hcs, hd⟩ := digits_chars fun b (hb : b ∈ bs.takeWhile isDigit) =>
    List.mem_takeWhile_imp hb
  refine ⟨cs, by simp [List.span_eq_takeWhile_dropWhile, hcs], ?_, hd, ?_⟩
  · rw [List.span_eq_takeWhile_dropWhile, ← hcs, List.takeWhile_append_dropWhile]
  · intro b r hb
    simp only [List.span_eq_takeWhile_dropWhile] at hb
    have hhead := List.head?_dropWhile_not isDigit bs
    rwa [hb] at hhead

/-- An integer part the reader takes is the encoding of an integer part of the grammar. -/
theorem integerPart?_sound {bs ints r : List UInt8} (h : integerPart? bs = some (ints, r)) :
    ∃ ic, IntDigits ic ∧ ints = encode ic ∧ bs = ints ++ r := by
  rcases bs with _ | ⟨d, rest⟩
  · simp [integerPart?] at h
  by_cases h0 : d = 0x30
  · -- a lone zero
    subst h0
    have hr : ints = [0x30] ∧ r = rest := by
      cases rest with
      | nil => simpa [integerPart?, eq_comm] using h
      | cons e _ =>
        simp only [integerPart?, if_true] at h
        split_ifs at h
        simpa [eq_comm] using h
    obtain ⟨rfl, rfl⟩ := hr
    exact ⟨['0'], Or.inl rfl, rfl, rfl⟩
  · -- a nonzero digit and the digits after it
    simp only [integerPart?, h0, if_false] at h
    split_ifs at h with hd
    obtain ⟨cs, h1, h2, hcs, -⟩ := span_digits_sound rest
    simp only [Option.some.injEq, Prod.mk.injEq] at h
    obtain ⟨rfl, rfl⟩ := h
    have hd' : 49 ≤ d.toNat ∧ d.toNat ≤ 57 := by
      have hne : d.toNat ≠ 48 := fun he => h0 (UInt8.toNat_inj.mp he)
      simp only [isDigit, Bool.and_eq_true, decide_eq_true_eq, UInt8.le_iff_toNat_le] at hd
      simp at hd
      omega
    obtain ⟨henc, hc⟩ := ascii_char (b := d) (by omega)
    refine ⟨Char.ofNat d.toNat :: cs, Or.inr ⟨_, cs, rfl, ?_, ?_, hcs⟩,
      by rw [h1, encode_cons, henc, List.singleton_append], ?_⟩
    · simp only [Char.le_def, UInt32.le_iff_toNat_le]
      change _ ≤ (Char.ofNat d.toNat).toNat
      rw [hc]
      simp
      omega
    · simp only [Char.le_def, UInt32.le_iff_toNat_le]
      change (Char.ofNat d.toNat).toNat ≤ _
      rw [hc]
      simp
      omega
    · rw [h1, List.cons_append, ← h2]

/-- A fraction part the reader takes is the encoding of a fraction part of the grammar: none, or a
point and digits. -/
theorem fractionPart?_sound {bs fracs r : List UInt8} {len : Nat}
    (h : fractionPart? bs = some (fracs, len, r)) :
    ∃ fp fc, FracPart fp fc ∧ fracs = encode fc ∧ bs = encode fp ++ r ∧
      len = (encode fp).length := by
  rcases bs with _ | ⟨b, rest⟩
  · simp only [fractionPart?, Option.some.injEq, Prod.mk.injEq] at h
    obtain ⟨rfl, rfl, rfl⟩ := h
    exact ⟨[], [], .none, rfl, rfl, rfl⟩
  by_cases hb : b = 0x2E
  · -- a point and the digits after it, of which there is at least one
    subst hb
    obtain ⟨cs, h1, h2, hcs, -⟩ := span_digits_sound rest
    simp only [fractionPart?, if_true] at h
    split_ifs at h with he
    simp only [Option.some.injEq, Prod.mk.injEq] at h
    obtain ⟨rfl, rfl, rfl⟩ := h
    have hne : cs ≠ [] := by
      rintro rfl
      rw [h1] at he
      exact he rfl
    refine ⟨'.' :: cs, cs, .some hne hcs, h1, ?_, ?_⟩
    · simp only [encode_cons, List.append_assoc]
      rw [← h2]
      rfl
    · rw [h1, encode_cons, List.length_append, Nat.add_comm]
      rfl
  · simp only [fractionPart?, hb, if_false, Option.some.injEq, Prod.mk.injEq] at h
    obtain ⟨rfl, rfl, rfl⟩ := h
    exact ⟨[], [], .none, rfl, rfl, rfl⟩

/-- An exponent mark, the sign read after it as `neg`, and at least one digit. -/
theorem exponent_digits {b : UInt8} {sign : List Char} {neg : Bool} {r : List UInt8} {e : Int}
    {len : Nat} (hm : b = 0x65 ∨ b = 0x45)
    (hs : sign = [] ∧ neg = false ∨ sign = ['+'] ∧ neg = false ∨ sign = ['-'] ∧ neg = true)
    (h : (if (r.takeWhile isDigit).isEmpty = true then none
      else some (if neg = true then -(digitsValue (r.takeWhile isDigit) : Int)
          else digitsValue (r.takeWhile isDigit),
        1 + (encode sign).length + (r.takeWhile isDigit).length)) = some (e, len)) :
    ∃ ep r', ExpPart ep e ∧ b :: (encode sign ++ r) = encode ep ++ r' ∧
      len = (encode ep).length := by
  by_cases he : (r.takeWhile isDigit).isEmpty = true
  · simp [he] at h
  rw [if_neg he, Option.some.injEq, Prod.mk.injEq] at h
  obtain ⟨rfl, rfl⟩ := h
  -- the digits taken are the encoding of digit characters, at least one of them
  obtain ⟨cs, hcs, hd⟩ := digits_chars fun x (hx : x ∈ r.takeWhile isDigit) =>
    List.mem_takeWhile_imp hx
  have hne : cs ≠ [] := by
    rintro rfl
    rw [hcs] at he
    exact he rfl
  obtain ⟨c, henc, hc⟩ : ∃ c, String.utf8EncodeChar c = [b] ∧ (c = 'e' ∨ c = 'E') := by
    rcases hm with rfl | rfl
    exacts [⟨'e', rfl, Or.inl rfl⟩, ⟨'E', rfl, Or.inr rfl⟩]
  have hv : digitsValue (r.takeWhile isDigit) = Grammar.digitsValue cs := by
    rw [hcs, digitsValue_encode hd]
  -- the exponent part is the mark, the sign and the digits
  refine ⟨c :: sign ++ cs, r.dropWhile isDigit, ?_, ?_, ?_⟩
  · rw [hv]
    exact .some hc hs hne hd
  · have hr : r = encode cs ++ r.dropWhile isDigit := by
      rw [← hcs, List.takeWhile_append_dropWhile]
    conv_lhs => rw [hr]
    simp [henc]
  · simp [hcs, henc]
    omega

/-- An exponent the reader takes is the encoding of an exponent part of the grammar denoting it. -/
theorem exponentPart?_sound {bs : List UInt8} {e : Int} {len : Nat}
    (h : exponentPart? bs = some (e, len)) :
    ∃ ep r, ExpPart ep e ∧ bs = encode ep ++ r ∧ len = (encode ep).length := by
  rcases bs with _ | ⟨b, rest⟩
  · simp only [exponentPart?, Option.some.injEq, Prod.mk.injEq] at h
    obtain ⟨rfl, rfl⟩ := h
    exact ⟨[], [], .none, rfl, rfl⟩
  by_cases hm : b = 0x65 ∨ b = 0x45
  · simp only [exponentPart?, hm, if_true] at h
    -- the sign, if any, decides what the digits after it are read as
    split at h
    · exact exponent_digits hm (Or.inr (Or.inr ⟨rfl, rfl⟩)) h
    · exact exponent_digits hm (Or.inr (Or.inl ⟨rfl, rfl⟩)) h
    · exact exponent_digits hm (Or.inl ⟨rfl, rfl⟩) h
  · simp only [exponentPart?, hm, if_false, Option.some.injEq, Prod.mk.injEq] at h
    obtain ⟨rfl, rfl⟩ := h
    exact ⟨[], _, .none, rfl, rfl⟩

/-- A sign, then an integer part, a fraction and an exponent that the readers accept, make a
number the grammar reads as the decimal they spell. -/
theorem number_parts (neg : Bool) {bs ints r fracs r' : List UInt8} {fl el : Nat} {e : Int}
    (hi : integerPart? bs = some (ints, r)) (hf : fractionPart? r = some (fracs, fl, r'))
    (he : exponentPart? r' = some (e, el)) :
    ∃ nc, encode (if neg then ['-'] else []) ++ bs =
        encode nc ++ (encode (if neg then ['-'] else []) ++ bs).drop
          ((if neg then 1 else 0) + ints.length + fl + el) ∧
      ∀ t, NumLit (nc ++ t) ⟨neg, digitsValue (ints ++ fracs), e - fracs.length⟩ t := by
  obtain ⟨ic, hic, rfl, rfl⟩ := integerPart?_sound hi
  obtain ⟨fp, fc, hfp, rfl, rfl, rfl⟩ := fractionPart?_sound hf
  obtain ⟨ep, rest, hep, rfl, rfl⟩ := exponentPart?_sound he
  have hfl : (encode fc).length = fc.length := length_encode_digits hfp.digits
  -- the digits of the integer part and of the fraction are read as one run of digits
  have hv : digitsValue (encode ic ++ encode fc) = Grammar.digitsValue (ic ++ fc) := by
    rw [← encode_append, digitsValue_encode]
    intro x hx
    rcases List.mem_append.1 hx with hx | hx
    exacts [hic.digits x hx, hfp.digits x hx]
  have hsign : (encode (if neg then ['-'] else [])).length = if neg then 1 else 0 := by
    cases neg <;> rfl
  refine ⟨(if neg then ['-'] else []) ++ ic ++ fp ++ ep, ?_, fun t => ?_⟩
  · rw [show (if neg then 1 else 0) + (encode ic).length + (encode fp).length + (encode ep).length =
      (encode ((if neg then ['-'] else []) ++ ic ++ fp ++ ep)).length by simp [hsign]; omega]
    simp
  · rw [hv, hfl]
    exact .mk hic hfp hep

/-- What the number reader accepts is a number of the grammar, read as the decimal it spells. -/
theorem number?_sound {bs : List UInt8} {d : Decimal} {n : Nat} (h : number? bs = some (d, n)) :
    ∃ nc, bs = encode nc ++ bs.drop n ∧ ∀ t, NumLit (nc ++ t) d t := by
  obtain ⟨l, hl, hdn⟩ := Option.map_eq_some_iff.1 h
  simp only [Prod.mk.injEq] at hdn
  obtain ⟨rfl, rfl⟩ := hdn
  rcases bs with _ | ⟨b, bs⟩
  · simp [numberLexeme?, integerPart?] at hl
  -- a leading minus is read as the sign, and the parts follow it; otherwise the parts start at
  -- once
  by_cases hb : b = 0x2D
  · subst hb
    simp only [numberLexeme?, List.drop_succ_cons, List.drop_zero, Option.bind_eq_bind,
      Option.bind_eq_some_iff] at hl
    obtain ⟨⟨ints, r⟩, hi, ⟨fracs, fl, r'⟩, hf, ⟨e, el⟩, he, hd⟩ := hl
    simp only [Option.some.injEq] at hd
    subst hd
    exact number_parts true hi hf he
  · simp only [numberLexeme?, Option.bind_eq_bind, Option.bind_eq_some_iff] at hl
    split at hl
    · next tail he => exact absurd (List.cons.inj he).1 hb
    simp only [List.drop_zero] at hl
    obtain ⟨⟨ints, r⟩, hi, ⟨fracs, fl, r'⟩, hf, ⟨e, el⟩, he, hd⟩ := hl
    simp only [Option.some.injEq] at hd
    subst hd
    exact number_parts false hi hf he

end JsonCodec.Lexeme

namespace JsonCodec.Escape

open Grammar

/-- What an escape does with its letter: the encoding of a letter that `shortEscape` knows is
read alone as the character it stands for, `u` goes on as the unicode reader does, and any
other letter is refused at the backslash as an invalid escape. -/
theorem decode_cons_cases (x : UInt8) (rest : List UInt8) (off : Nat) :
    (∃ e c, String.utf8EncodeChar e = [x] ∧ shortEscape e = some c ∧
        decode (x :: rest) off = .ok (c, 1)) ∨
      (x = 0x75 ∧ (∀ p, unicode rest off = .ok p → decode (x :: rest) off = .ok (p.1, p.2 + 1)) ∧
        ∀ e, unicode rest off = .error e → decode (x :: rest) off = .error e) ∨
      ∃ c, decode (x :: rest) off = .error (.invalidEscape c, off) := by
  -- one test of the letter at a time, as the definition makes them
  have hd := decode.eq_2 off x rest
  by_cases h1 : x = 34
  · subst h1; exact .inl ⟨'"', _, rfl, rfl, by rw [hd, if_pos rfl]⟩
  rw [if_neg h1] at hd
  by_cases h2 : x = 92
  · subst h2; exact .inl ⟨'\\', _, rfl, rfl, by rw [hd, if_pos rfl]⟩
  rw [if_neg h2] at hd
  by_cases h3 : x = 47
  · subst h3; exact .inl ⟨'/', _, rfl, rfl, by rw [hd, if_pos rfl]⟩
  rw [if_neg h3] at hd
  by_cases h4 : x = 98
  · subst h4; exact .inl ⟨'b', _, rfl, rfl, by rw [hd, if_pos rfl]⟩
  rw [if_neg h4] at hd
  by_cases h5 : x = 102
  · subst h5; exact .inl ⟨'f', _, rfl, rfl, by rw [hd, if_pos rfl]⟩
  rw [if_neg h5] at hd
  by_cases h6 : x = 110
  · subst h6; exact .inl ⟨'n', _, rfl, rfl, by rw [hd, if_pos rfl]⟩
  rw [if_neg h6] at hd
  by_cases h7 : x = 114
  · subst h7; exact .inl ⟨'r', _, rfl, rfl, by rw [hd, if_pos rfl]⟩
  rw [if_neg h7] at hd
  by_cases h8 : x = 116
  · subst h8; exact .inl ⟨'t', _, rfl, rfl, by rw [hd, if_pos rfl]⟩
  rw [if_neg h8] at hd
  by_cases hu : x = 117
  · rw [if_pos hu] at hd
    exact .inr (.inl ⟨hu, fun p h => by simp [hd, Except.map, h],
      fun e h => by simp [hd, Except.map, h]⟩)
  · rw [if_neg hu] at hd
    exact .inr (.inr ⟨_, hd⟩)

end JsonCodec.Escape

namespace JsonCodec.StringLiteral

open Grammar Utf8

/-! ### Escapes -/

/-- A byte the hex reader accepts is the encoding of a hex digit of the same value. -/
theorem hexValue?_sound {b : UInt8} {v : Nat} (h : Escape.hexValue? b = some v) :
    String.utf8EncodeChar (Char.ofNat b.toNat) = [b] ∧ hexDigit? (Char.ofNat b.toNat) = some v := by
  have hlt : b.toNat < 0x80 := by
    simp only [Escape.hexValue?, UInt8.le_iff_toNat_le] at h
    split_ifs at h with h₁ h₂ h₃
    · simp at h₁; omega
    · simp at h₂; omega
    · simp at h₃; omega
  obtain ⟨henc, hc⟩ := Lexeme.ascii_char hlt
  refine ⟨henc, ?_⟩
  rw [← hexValue?_ascii _ (by omega), hc, UInt8.ofNat_toNat, h]

/-- One hex digit more: the reader takes a byte that is one. -/
theorem hexDigits_succ {acc off n v : Nat} {bs : List UInt8}
    (h : Escape.hexDigits acc off (n + 1) bs = .ok v) :
    ∃ b r d, bs = b :: r ∧ Escape.hexValue? b = some d ∧
      Escape.hexDigits (acc * 16 + d) (off + 1) n r = .ok v := by
  rcases bs with _ | ⟨b, r⟩
  · simp [Escape.hexDigits] at h
  · cases hb : Escape.hexValue? b with
    | none => simp [Escape.hexDigits, hb] at h
    | some d => exact ⟨b, r, d, rfl, hb, by simpa [Escape.hexDigits, hb] using h⟩

/-- What the reader of four hex digits accepts is four hex digits spelling the unit it gives. -/
theorem hex4_sound {bs : List UInt8} {off v : Nat} (h : Escape.hex4 bs off = .ok v) :
    ∃ a b c d, bs = encode [a, b, c, d] ++ bs.drop 4 ∧ Hex4 a b c d v := by
  rw [Escape.hex4] at h
  obtain ⟨b₀, r₀, v₀, rfl, h₀, h⟩ := hexDigits_succ h
  obtain ⟨b₁, r₁, v₁, rfl, h₁, h⟩ := hexDigits_succ h
  obtain ⟨b₂, r₂, v₂, rfl, h₂, h⟩ := hexDigits_succ h
  obtain ⟨b₃, r₃, v₃, rfl, h₃, h⟩ := hexDigits_succ h
  simp only [Escape.hexDigits, Except.ok.injEq] at h
  obtain ⟨e₀, d₀⟩ := hexValue?_sound h₀
  obtain ⟨e₁, d₁⟩ := hexValue?_sound h₁
  obtain ⟨e₂, d₂⟩ := hexValue?_sound h₂
  obtain ⟨e₃, d₃⟩ := hexValue?_sound h₃
  refine ⟨_, _, _, _, by simp [e₀, e₁, e₂, e₃], v₀, v₁, v₂, v₃, d₀, d₁, d₂, d₃, ?_⟩
  rw [← h]
  omega

/-- The unit after a `\\u` has to be no surrogate, or a high surrogate followed by the escape of
a low one; what the reader accepts is either, read as the character the grammar gives it. -/
theorem unicode_sound {after : List UInt8} {off : Nat} {c : Char} {n : Nat}
    (h : Escape.unicode after off = .ok (c, n)) :
    ∃ esc, after = encode esc ++ after.drop n ∧ (encode esc).length = n ∧
      ∀ cs s t, StrChars cs s t → StrChars ('\\' :: 'u' :: esc ++ cs) (c :: s) t := by
  simp only [Escape.unicode, Except.bind_eq_ok] at h
  obtain ⟨unit, hx, h⟩ := h
  obtain ⟨a, b, c', d, hbs, hu⟩ := hex4_sound hx
  by_cases hh : Utf16.isHigh unit
  · -- a high surrogate: the escape of a low one must follow at once
    by_cases hc : (after.drop 4).take 2 = [0x5C, 0x75]
    · simp only [hh, hc, if_true, ne_eq, not_true_eq_false, if_false, Except.bind_eq_ok] at h
      obtain ⟨low, hx₂, h⟩ := h
      obtain ⟨a₂, b₂, c₂, d₂, hbs₂, hu₂⟩ := hex4_sound hx₂
      by_cases hl : Utf16.isLow low
      · simp only [hl, Bool.not_true, Bool.false_eq_true, if_false] at h
        simp only [pure, Except.pure, Except.ok.injEq, Prod.mk.injEq] at h
        obtain ⟨rfl, rfl⟩ := h
        have h₄ : after.drop 4 = 0x5C :: 0x75 :: after.drop 6 := by
          rw [← List.take_append_drop 2 (after.drop 4), hc, List.drop_drop]
          rfl
        rw [List.drop_drop] at hbs₂
        -- the escape is two runs of four hex digits joined by the second backslash and u
        have henc : encode [a, b, c', d, '\\', 'u', a₂, b₂, c₂, d₂] =
            encode [a, b, c', d] ++ 0x5C :: 0x75 :: encode [a₂, b₂, c₂, d₂] := by
          rw [show [a, b, c', d, '\\', 'u', a₂, b₂, c₂, d₂] =
            [a, b, c', d] ++ '\\' :: 'u' :: [a₂, b₂, c₂, d₂] from rfl, encode_append, encode_cons,
            encode_cons]
          rfl
        refine ⟨[a, b, c', d, '\\', 'u', a₂, b₂, c₂, d₂], ?_, ?_,
          fun cs s t hr => .pair hu hu₂ hh hl hr⟩
        · conv_lhs => rw [hbs, h₄, hbs₂]
          rw [henc, List.append_assoc]
          rfl
        · rw [henc, hex4_length hu, hex4_length hu₂]
          rfl
      · simp [hl] at h
    · simp [hh, hc, Except.bind_eq_ok] at h
  · by_cases hl : Utf16.isLow unit
    · simp [hh, hl] at h
    · simp only [hh, hl, Bool.false_eq_true, if_false] at h
      simp only [pure, Except.pure, Except.ok.injEq, Prod.mk.injEq] at h
      obtain ⟨rfl, rfl⟩ := h
      exact ⟨[a, b, c', d], hbs, by rw [hex4_length hu]; rfl, fun cs s t hr =>
        .unit hu (by simpa using hh) (by simpa using hl) hr⟩

/-- A short escape: its letter is one byte, read as the character the grammar gives it. -/
theorem short_sound {x : UInt8} {rest : List UInt8} {e c c' : Char} {n : Nat}
    (he : String.utf8EncodeChar e = [x]) (hs : shortEscape e = some c')
    (h : (Except.ok (c', 1) : Except (SyntaxFault × Nat) (Char × Nat)) = .ok (c, n)) :
    ∃ esc, x :: rest = encode esc ++ (x :: rest).drop n ∧ (encode esc).length = n ∧
      ∀ cs s t, StrChars cs s t → StrChars ('\\' :: esc ++ cs) (c :: s) t := by
  simp only [Except.ok.injEq, Prod.mk.injEq] at h
  obtain ⟨rfl, rfl⟩ := h
  exact ⟨[e], by simp [he], by simp [he], fun _ _ _ h => .short hs h⟩

/-- What the escape reader accepts after a backslash is an escape of the grammar, read as the
character it stands for. -/
theorem escape_sound {after : List UInt8} {off : Nat} {c : Char} {n : Nat}
    (h : Escape.decode after off = .ok (c, n)) :
    ∃ esc, after = encode esc ++ after.drop n ∧ (encode esc).length = n ∧
      ∀ cs s t, StrChars cs s t → StrChars ('\\' :: esc ++ cs) (c :: s) t := by
  rcases after with _ | ⟨x, rest⟩
  · simp [Escape.decode] at h
  rcases Escape.decode_cons_cases x rest off with ⟨e, c', he, hs, hd⟩ | ⟨rfl, hmo, hme⟩ | ⟨c', hd⟩
  · rw [hd] at h
    exact short_sound he hs h
  · -- a unit escape: the letter, then what the unicode reader took
    cases hu : Escape.unicode rest off with
    | error f =>
      rw [hme f hu] at h
      cases h
    | ok p =>
      rw [hmo p hu] at h
      cases h
      obtain ⟨esc, hesc, hlen, hs⟩ := unicode_sound hu
      refine ⟨'u' :: esc, by rw [List.drop_succ_cons, encode_cons, List.append_assoc, ← hesc]; rfl,
        ?_, fun cs s t hr => hs cs s t hr⟩
      rw [encode_cons, List.length_append, hlen, Nat.add_comm]
      rfl
  · rw [hd] at h
    cases h

/-! ### Bodies and literals -/

/-- A run of bytes none of which stops a run is the encoding of plain characters. -/
theorem plain_of_encode {cs : List Char} (h : ∀ b ∈ encode cs, isStop b = false) :
    ∀ c ∈ cs, Plain c := by
  intro c hc
  obtain ⟨b, bs, he, hlo, hhi⟩ := Lexeme.utf8EncodeChar_eq_cons c
  have hb : isStop b = false := h b (by
    simp only [encode, List.mem_flatMap]
    exact ⟨c, hc, by simp [he]⟩)
  by_cases ha : c.toNat < 0x80
  · rw [(hlo ha).1, isStop_ascii c ha] at hb
    simp only [Bool.or_eq_false_iff, decide_eq_false_iff_not, beq_eq_false_iff_ne] at hb
    exact ⟨by omega, hb.1.2, hb.2⟩
  · refine ⟨by omega, ?_, ?_⟩ <;> rintro rfl <;> simp at ha

/-- Plain characters stand for themselves in front of any body. -/
theorem StrChars.plains {p cs s t : List Char} (hp : ∀ c ∈ p, Plain c) (h : StrChars cs s t) :
    StrChars (p ++ cs) (p ++ s) t := by
  induction p with
  | nil => exact h
  | cons c p ih =>
    obtain ⟨h₁, h₂, h₃⟩ := hp c (by simp)
    exact .plain h₁ h₂ h₃ (ih fun x hx => hp x (by simp [hx]))

/-- The run before the first stop byte, decoded: plain characters, then the stop byte. -/
theorem run_sound {bs after : List UInt8} {k : Nat} {x : UInt8} {s : String}
    (hk : bs.findIdx? isStop = some k) (hd : bs.drop k = x :: after)
    (hs : decode (bs.take k) = .ok s) :
    bs = encode s.toList ++ x :: after ∧ (encode s.toList).length = k ∧
      ∀ c ∈ s.toList, Plain c := by
  have hrun := decode_sound hs
  obtain ⟨hlt, -, hbefore⟩ := List.findIdx?_eq_some_iff_getElem.1 hk
  refine ⟨by rw [← hrun, ← hd, List.take_append_drop], ?_, plain_of_encode ?_⟩
  · rw [← hrun, List.length_take]
    omega
  · intro b hb
    rw [← hrun] at hb
    obtain ⟨j, hj, rfl⟩ := List.mem_take_iff_getElem.1 hb
    simpa using hbefore j (by omega)

/-- What the body reader accepts is a string body of the grammar up to its closing quote: runs
of plain characters and escapes, read as the characters they denote after the text read so far. -/
theorem body_sound {start : Nat} {acc : Option String} {bs : List UInt8} {off : Nat}
    {text : Text} {e : Nat} (h : body start acc bs off = .ok (text, e)) :
    ∃ lit s r, bs = encode lit ++ r ∧ e = off + (encode lit).length ∧
      (∀ t, StrChars (lit ++ t) s t) ∧ text.str = acc.getD "" ++ String.ofList s := by
  fun_induction body start acc bs off with
  | case4 acc bs off k hk run after s hs text hd =>
    -- a run of plain characters up to the closing quote
    simp only [Except.ok.injEq, Prod.mk.injEq] at h
    obtain ⟨rfl, rfl⟩ := h
    obtain ⟨hbs, hlen, hp⟩ := run_sound hk hd hs
    have hquote : String.utf8EncodeChar '"' = [0x22] := rfl
    refine ⟨s.toList ++ ['"'], s.toList, after, by simpa [hquote] using hbs,
      by simp [hlen, hquote]; omega, fun t => by simpa using StrChars.plains hp (.close t), ?_⟩
    cases acc <;> simp [text]
  | case7 acc bs off k hk run after s hs c n he hd _ _ ih =>
    -- a run of plain characters, an escape, and the rest of the body
    obtain ⟨lit, s', r, hr, rfl, hlit, htext⟩ := ih h
    obtain ⟨hbs, hlen, hp⟩ := run_sound hk hd hs
    obtain ⟨esc, hesc, hn, hchars⟩ := escape_sound he
    have hslash : String.utf8EncodeChar '\\' = [0x5C] := rfl
    refine ⟨s.toList ++ '\\' :: esc ++ lit, s.toList ++ c :: s', r, ?_, ?_, fun t => ?_, ?_⟩
    · rw [hbs, hesc, hr]
      simp [hslash]
    · simp [hlen, hn, hslash]
      omega
    · simpa using StrChars.plains hp (hchars _ _ _ (hlit t))
    · rw [htext, Option.getD_some, ← push_append_ofList, String.ofList_toList]
  | _ => simp at h

/-- What the string reader accepts at a quote is a string literal of the grammar, read as the
characters it denotes. -/
theorem scan_sound {rest : List UInt8} {start e : Nat} {text : Text}
    (h : scan (0x22 :: rest) start = .ok (text, e)) :
    ∃ lit s r, 0x22 :: rest = encode lit ++ r ∧ e = start + (encode lit).length ∧
      (∀ t, StrLit (lit ++ t) s t) ∧ text.str = String.ofList s := by
  obtain ⟨lit, s, r, hr, he, hlit, htext⟩ := body_sound h
  rw [List.drop_one, List.tail_cons] at hr
  refine ⟨'"' :: lit, s, r, by rw [hr]; rfl, ?_, fun t => .mk (hlit t), by simpa using htext⟩
  rw [he, encode_cons, List.length_append, show (String.utf8EncodeChar '"').length = 1 from rfl]
  omega

end JsonCodec.StringLiteral
