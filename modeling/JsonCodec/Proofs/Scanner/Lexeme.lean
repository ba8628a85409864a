import JsonCodec.Proofs.Unicode.Utf8
import JsonCodec.Proofs.Grammar
import JsonCodec.Scanner.Lexeme
import Mathlib.Data.List.TakeDrop

/-! # Lexemes of grammatical text

The scanner reads bytes, the grammar speaks of characters. Here the lexeme readers are run on
the UTF-8 encoding of text the grammar derives: white space is stepped over exactly
(`spaceLength_ws`), a word is read as its token (`literal_null`, …), and a number as the decimal
it spells (`number?_numLit`), whenever what follows the lexeme cannot continue it.

Most byte tests look at the first byte of a character. For an ASCII character that byte is its
code, so the test agrees with the matching test on characters, which is checked once for all 128
of them by `decide` (`Grammar.ascii_all`); every other character starts with a byte from 0xC0 on, which
no test on ASCII bytes accepts.
-/

namespace JsonCodec.Lexeme

open Grammar Utf8

/-! ### First bytes -/

/-- An ASCII character is its own byte; any other starts with a byte from 0xC0 on. -/
theorem utf8EncodeChar_eq_cons (c : Char) : ∃ b bs, String.utf8EncodeChar c = b :: bs ∧
    (c.toNat < 0x80 → b = UInt8.ofNat c.toNat ∧ bs = []) ∧ (0x80 ≤ c.toNat → 0xC0 ≤ b.toNat) := by
  have hv := char_toNat_valid c
  unfold String.utf8EncodeChar
  simp only [Char.toNat] at hv ⊢
  generalize c.val.toNat = v at hv ⊢
  by_cases h1 : v ≤ 0x7f
  · simp only [h1, if_true]
    exact ⟨_, _, rfl, fun _ => ⟨rfl, rfl⟩, fun h => by omega⟩
  by_cases h2 : v ≤ 0x7ff
  · simp only [h1, h2, if_false, if_true]
    exact ⟨_, _, rfl, fun h => by omega, fun _ => by simp; omega⟩
  by_cases h3 : v ≤ 0xffff
  · simp only [h1, h2, h3, if_false, if_true]
    exact ⟨_, _, rfl, fun h => by omega, fun _ => by simp; omega⟩
  · simp only [h1, h2, h3, if_false]
    exact ⟨_, _, rfl, fun h => by omega, fun _ => by simp; omega⟩

/-- On an ASCII character's byte, the scanner's test for a blank is JSON's own white space. -/
theorem isBlank_ascii : ∀ c : Char, c.toNat < 0x80 →
    isBlank (UInt8.ofNat c.toNat) = isWs false c :=
  ascii_all (by decide)

/-- No character above ASCII is one of JSON's four blanks. -/
theorem isWs_false_of_ge {c : Char} (hc : 0x80 ≤ c.toNat) : isWs false c = false := by
  have : c ≠ ' ' ∧ c ≠ '\t' ∧ c ≠ '\n' ∧ c ≠ '\r' := by
    refine ⟨?_, ?_, ?_, ?_⟩ <;> rintro rfl <;> simp at hc
  simp [isWs, this]

/-- White space is JSON's blanks, and under `u` Unicode's White_Space as well. -/
theorem isWs_eq (u : Bool) (c : Char) :
    isWs u c = (isWs false c || (u && Unicode.isSpace c)) := by
  cases u <;> simp [isWs]

/-- The first byte of a character is a blank exactly when the character is. -/
theorem isBlank_head {c : Char} {b : UInt8} {bs : List UInt8}
    (h : String.utf8EncodeChar c = b :: bs) : isBlank b = isWs false c := by
  obtain ⟨b', bs', he, hlo, hhi⟩ := utf8EncodeChar_eq_cons c
  rw [h, List.cons.injEq] at he
  obtain ⟨rfl, rfl⟩ := he
  by_cases hc : c.toNat < 0x80
  · rw [(hlo hc).1]
    exact isBlank_ascii c hc
  · have hb := hhi (by omega)
    rw [isWs_false_of_ge (by omega)]
    simp only [isBlank, Bool.or_eq_false_iff, beq_eq_false_iff_ne]
    refine ⟨⟨⟨?_, ?_⟩, ?_⟩, ?_⟩ <;> intro he <;> rw [he] at hb <;> simp at hb

/-! ### White space -/

/-- A white-space character is stepped over whole, all its bytes counted. -/
theorem spaceLengthFrom_char {u : Bool} {c : Char} (h : isWs u c) (acc : Nat) (rest : List UInt8) :
    spaceLengthFrom u acc (String.utf8EncodeChar c ++ rest) =
      spaceLengthFrom u (acc + (String.utf8EncodeChar c).length) rest := by
  obtain ⟨b, bs, he, hlo, hhi⟩ := utf8EncodeChar_eq_cons c
  have hblank := isBlank_head he
  have hdec := decodeChar?_encodeChar c rest
  rw [he, List.cons_append] at hdec ⊢
  rw [spaceLengthFrom.eq_def]
  dsimp only
  by_cases hb : isWs false c
  · -- a blank is one ASCII byte
    have hc : c.toNat < 0x80 := by
      refine Nat.lt_of_not_le fun hc => ?_
      rw [isWs_false_of_ge hc] at hb
      exact absurd hb (by simp)
    obtain ⟨-, rfl⟩ := hlo hc
    simp [hblank, hb]
  · -- otherwise it is a Unicode space, which the decoder reads back
    have hu : u = true ∧ Unicode.isSpace c = true := by
      rw [isWs_eq] at h
      simpa [hb] using h
    obtain ⟨rfl, hs⟩ := hu
    simp only [hblank, hb, Bool.false_eq_true, if_false, if_true]
    split
    · next c' r hd =>
      rw [hdec] at hd
      simp only [Option.some.injEq, Prod.mk.injEq] at hd
      obtain ⟨rfl, rfl⟩ := hd
      rw [← he, String.length_utf8EncodeChar, if_pos hs]
    · next hd => simp [hdec] at hd

/-- The count of white space stops at the first character that is none. -/
theorem spaceLengthFrom_stop {u : Bool} {c : Char} (h : isWs u c = false) (acc : Nat)
    (rest : List UInt8) : spaceLengthFrom u acc (String.utf8EncodeChar c ++ rest) = acc := by
  obtain ⟨b, bs, he, -, -⟩ := utf8EncodeChar_eq_cons c
  have hblank := isBlank_head he
  have hdec := decodeChar?_encodeChar c rest
  have hb : isWs false c = false ∧ (u && Unicode.isSpace c) = false := by
    rw [isWs_eq] at h
    simpa using h
  rw [he, List.cons_append] at hdec ⊢
  rw [spaceLengthFrom.eq_def]
  dsimp only
  simp only [hblank, hb.1, Bool.false_eq_true, if_false]
  -- without the Unicode option only the blank bytes count; with it the character is decoded, and
  -- it is no space either
  cases u with
  | false => rfl
  | true =>
    simp only [if_true]
    split
    · next c' r hd =>
      rw [hdec] at hd
      simp only [Option.some.injEq, Prod.mk.injEq] at hd
      obtain ⟨rfl, rfl⟩ := hd
      have hs : Unicode.isSpace c = false := by simpa using hb.2
      rw [if_neg (by simp [hs])]
    · rfl

/-- The white space the grammar passes over is exactly what the scanner steps over. -/
theorem spaceLengthFrom_ws {u : Bool} {cs t : List Char} (hw : Ws u cs t) (ht : NoWs u t)
    (acc : Nat) : ∃ w, cs = w ++ t ∧ spaceLengthFrom u acc (encode cs) = acc + (encode w).length := by
  induction hw generalizing acc with
  | nil t =>
    refine ⟨[], rfl, ?_⟩
    cases t with
    | nil => rw [spaceLengthFrom.eq_def]; rfl
    | cons c t' => simpa using spaceLengthFrom_stop (ht c t' rfl) acc (encode t')
  | cons hc _ ih =>
    obtain ⟨w, rfl, hlen⟩ := ih ht _
    refine ⟨_ :: w, rfl, ?_⟩
    rw [encode_cons, spaceLengthFrom_char hc, hlen]
    simp only [encode_cons, List.length_append]
    omega

/-- White space followed by a text that does not start with any is measured exactly: its bytes. -/
theorem spaceLength_ws {u : Bool} {cs t : List Char} (hw : Ws u cs t) (ht : NoWs u t) :
    ∃ w, cs = w ++ t ∧ spaceLength u (encode cs) = (encode w).length := by
  obtain ⟨w, hcs, hlen⟩ := spaceLengthFrom_ws hw ht 0
  exact ⟨w, hcs, by rw [spaceLength, hlen, Nat.zero_add]⟩

/-! ### Words -/

/-- The bytes do not start with one that `p` accepts. -/
def HeadNot (p : UInt8 → Bool) (r : List UInt8) : Prop := ∀ b bs, r = b :: bs → p b = false

/-- A list whose head fails the test has no prefix passing it. -/
theorem takeWhile_of_headNot {p : UInt8 → Bool} {r : List UInt8} (h : HeadNot p r) :
    r.takeWhile p = [] := by
  cases r with
  | nil => rfl
  | cons b bs => simp [h b bs rfl]

/-- A list whose head fails the test keeps all of itself past the prefix passing it. -/
theorem dropWhile_of_headNot {p : UInt8 → Bool} {r : List UInt8} (h : HeadNot p r) :
    r.dropWhile p = r := by
  cases r with
  | nil => rfl
  | cons b bs => simp [h b bs rfl]

/-- On an ASCII character that ends a word, the scanner sees no digit, letter or point. -/
theorem wordEnd_ascii : ∀ c : Char, c.toNat < 0x80 → c.isAlphanum = false → c ≠ '.' →
    isDigit (UInt8.ofNat c.toNat) = false ∧ isAlpha (UInt8.ofNat c.toNat) = false ∧
      (UInt8.ofNat c.toNat == 0x2E) = false :=
  ascii_all (by decide)

/-- What follows a word or a number starts with no letter, digit or point. -/
theorem wordEnd_head {t : List Char} (ht : WordEnd t) :
    HeadNot isDigit (encode t) ∧ HeadNot isAlpha (encode t) ∧ HeadNot (· == 0x2E) (encode t) := by
  cases t with
  | nil => exact ⟨fun _ _ h => by simp at h, fun _ _ h => by simp at h, fun _ _ h => by simp at h⟩
  | cons c t' =>
    obtain ⟨b, bs, he, hlo, hhi⟩ := utf8EncodeChar_eq_cons c
    obtain ⟨hc₁, hc₂⟩ := ht c t' rfl
    have hb : isDigit b = false ∧ isAlpha b = false ∧ (b == 0x2E) = false := by
      -- an ASCII character is its own byte; every byte of any other is at least 0x80, past every
      -- letter, digit and point
      by_cases hc : c.toNat < 0x80
      · rw [(hlo hc).1]
        exact wordEnd_ascii c hc hc₁ hc₂
      · have hb := hhi (by omega)
        simp only [isDigit, isAlpha, UInt8.le_iff_toNat_le, beq_eq_false_iff_ne]
        refine ⟨by simp; omega, by simp; omega, fun he => by rw [he] at hb; simp at hb⟩
    rw [encode_cons, he, List.cons_append]
    refine ⟨?_, ?_, ?_⟩ <;> intro b' bs' h <;> simp only [List.cons.injEq] at h <;>
      obtain ⟨rfl, -⟩ := h
    exacts [hb.1, hb.2.1, hb.2.2]

/-- The three words of JSON, followed by anything that does not go on with a letter. -/
theorem literal_words {t : List Char} (ht : WordEnd t) :
    literal (encode ('n' :: 'u' :: 'l' :: 'l' :: t)) = .ok (.null, 4) ∧
      literal (encode ('t' :: 'r' :: 'u' :: 'e' :: t)) = .ok (.bool true, 4) ∧
      literal (encode ('f' :: 'a' :: 'l' :: 's' :: 'e' :: t)) = .ok (.bool false, 5) := by
  have hw := takeWhile_of_headNot (wordEnd_head ht).2.1
  refine ⟨?_, ?_, ?_⟩ <;>
    simp [literal, encode_cons, String.utf8EncodeChar, isAlpha, hw, nullWord, trueWord, falseWord]

/-! ### Numbers -/

/-- On an ASCII character's byte, the scanner's test for a digit is the character's. -/
theorem isDigit_ascii : ∀ c : Char, c.toNat < 0x80 → isDigit (UInt8.ofNat c.toNat) = c.isDigit :=
  ascii_all (by decide)

/-- A decimal digit's code lies between those of `0` and `9`. -/
theorem digit_bounds {c : Char} (h : c.isDigit) : 48 ≤ c.toNat ∧ c.toNat ≤ 57 := by
  simp only [Char.isDigit, Bool.and_eq_true, decide_eq_true_eq, UInt32.le_iff_toNat_le,
    ge_iff_le] at h
  exact h

/-- An ASCII character is encoded as its own code, in one byte. -/
theorem utf8EncodeChar_ascii {c : Char} (h : c.toNat < 0x80) :
    String.utf8EncodeChar c = [UInt8.ofNat c.toNat] := by
  obtain ⟨b, bs, he, hlo, -⟩ := utf8EncodeChar_eq_cons c
  obtain ⟨rfl, rfl⟩ := hlo h
  exact he

/-- Digits are encoded one byte each, as their codes. -/
theorem encode_digits {ds : List Char} (hds : ∀ x ∈ ds, x.isDigit) :
    encode ds = ds.map fun c => UInt8.ofNat c.toNat := by
  induction ds with
  | nil => rfl
  | cons d ds ih =>
    have hd := digit_bounds (hds d (by simp))
    rw [encode_cons, utf8EncodeChar_ascii (by omega), ih fun x hx => hds x (by simp [hx])]
    rfl

/-- Every byte of the encoded digits is a digit. -/
theorem isDigit_encode {ds : List Char} (hds : ∀ x ∈ ds, x.isDigit) : ∀ b ∈ encode ds, isDigit b := by
  rw [encode_digits hds]
  simp only [List.mem_map, forall_exists_index, and_imp]
  rintro b c hc rfl
  have hd := digit_bounds (hds c hc)
  rw [isDigit_ascii c (by omega)]
  exact hds c hc

/-- Encoded digits take one byte each. -/
theorem length_encode_digits {ds : List Char} (hds : ∀ x ∈ ds, x.isDigit) :
    (encode ds).length = ds.length := by
  simp [encode_digits hds]

/-- Encoded digits have the value the digits have. -/
theorem digitsValue_encode {ds : List Char} (hds : ∀ x ∈ ds, x.isDigit) :
    digitsValue (encode ds) = Grammar.digitsValue ds := by
  rw [encode_digits hds, Lexeme.digitsValue, Grammar.digitsValue, List.foldl_map]
  -- the two folds add the same digit at every step
  have step : ∀ (acc : Nat) (l : List Char), (∀ x ∈ l, x.isDigit) →
      l.foldl (fun n c => n * 10 + ((UInt8.ofNat c.toNat).toNat - 0x30)) acc =
        l.foldl (fun n d => n * 10 + (d.toNat - '0'.toNat)) acc := by
    intro acc l hl
    induction l generalizing acc with
    | nil => rfl
    | cons c l ih =>
      have hc := digit_bounds (hl c (by simp))
      have hbyte : (UInt8.ofNat c.toNat).toNat = c.toNat := by simp; omega
      simp only [List.foldl_cons, hbyte]
      exact ih _ fun x hx => hl x (by simp [hx])
  exact step 0 ds hds

/-- Digits followed by anything that is not a digit: the run is exactly the digits. -/
theorem span_digits {ds : List Char} {r : List UInt8} (hds : ∀ x ∈ ds, x.isDigit)
    (hr : HeadNot isDigit r) : (encode ds ++ r).span isDigit = (encode ds, r) := by
  rw [List.span_eq_takeWhile_dropWhile, List.takeWhile_append_of_pos (isDigit_encode hds),
    List.dropWhile_append_of_pos (isDigit_encode hds), takeWhile_of_headNot hr,
    dropWhile_of_headNot hr, List.append_nil]

/-- The integer part of a number is read off its bytes, up to the first byte that is no digit. -/
theorem integerPart?_ints {ints : List Char} {r : List UInt8} (hi : IntDigits ints)
    (hr : HeadNot isDigit r) : integerPart? (encode ints ++ r) = some (encode ints, r) := by
  rcases hi with rfl | ⟨d, ds, rfl, h₁, h₂, hds⟩
  · -- a lone zero, not followed by a digit
    cases r with
    | nil => rfl
    | cons b bs => simp [integerPart?, encode_cons, String.utf8EncodeChar, hr b bs rfl]
  · have hd : 49 ≤ d.toNat ∧ d.toNat ≤ 57 := by
      simp only [Char.le_def, UInt32.le_iff_toNat_le] at h₁ h₂
      exact ⟨h₁, h₂⟩
    have hbyte : (UInt8.ofNat d.toNat).toNat = d.toNat := by simp; omega
    have hne : UInt8.ofNat d.toNat ≠ 0x30 := fun h => by
      rw [h] at hbyte
      simp at hbyte
      omega
    have hdig : isDigit (UInt8.ofNat d.toNat) = true := by
      simp only [isDigit, UInt8.le_iff_toNat_le, hbyte]
      simp
      omega
    rw [encode_cons, utf8EncodeChar_ascii (by omega), List.singleton_append, List.cons_append]
    simp only [integerPart?, hne, if_false, hdig, if_true, span_digits hds hr]

/-- The digits at the front of the bytes are those encoded, when no digit follows them. -/
theorem takeWhile_digits {ds : List Char} {r : List UInt8} (hds : ∀ x ∈ ds, x.isDigit)
    (hr : HeadNot isDigit r) : (encode ds ++ r).takeWhile isDigit = encode ds := by
  rw [List.takeWhile_append_of_pos (isDigit_encode hds), takeWhile_of_headNot hr, List.append_nil]

/-- What follows the digits at the front of the bytes is what came after them. -/
theorem dropWhile_digits {ds : List Char} {r : List UInt8} (hds : ∀ x ∈ ds, x.isDigit)
    (hr : HeadNot isDigit r) : (encode ds ++ r).dropWhile isDigit = r := by
  rw [List.dropWhile_append_of_pos (isDigit_encode hds), dropWhile_of_headNot hr]

/-- A nonempty text has bytes. -/
theorem encode_isEmpty {cs : List Char} (h : cs ≠ []) : (encode cs).isEmpty = false := by
  cases cs with
  | nil => exact absurd rfl h
  | cons c cs => simp [String.utf8EncodeChar_ne_nil]

/-- The fraction part of a number is read off its bytes: its digits, and the length of the point and
digits. -/
theorem fractionPart?_frac {fp fracs : List Char} {r : List UInt8} (hf : FracPart fp fracs)
    (hr : HeadNot isDigit r) (hdot : fp = [] → HeadNot (· == 0x2E) r) :
    fractionPart? (encode fp ++ r) = some (encode fracs, (encode fp).length, r) := by
  cases hf with
  | none =>
    have hd := hdot rfl
    cases r with
    | nil => rfl
    | cons b bs =>
      have hb : b ≠ 0x2E := by simpa using hd b bs rfl
      simp [fractionPart?, hb]
  | some hne hds =>
    simp only [encode_cons, show String.utf8EncodeChar '.' = [0x2E] from rfl,
      List.cons_append, List.nil_append, fractionPart?, if_true, List.span_eq_takeWhile_dropWhile,
      takeWhile_digits hds hr, dropWhile_digits hds hr, encode_isEmpty hne, List.length_cons]
    rfl

/-- The exponent part of a number is read off its bytes, when no digit or letter follows it. -/
theorem exponentPart?_exp {ep : List Char} {e : Int} {r : List UInt8} (he : ExpPart ep e)
    (hd : HeadNot isDigit r) (ha : HeadNot isAlpha r) :
    exponentPart? (encode ep ++ r) = some (e, (encode ep).length) := by
  cases he with
  | none =>
    cases r with
    | nil => rfl
    | cons b bs =>
      have hb := ha b bs rfl
      have h₁ : b ≠ 0x65 := fun h => by subst h; simp [isAlpha] at hb
      have h₂ : b ≠ 0x45 := fun h => by subst h; simp [isAlpha] at hb
      simp [exponentPart?, h₁, h₂]
  | @some c sign ds neg hc hsign hne hds =>
    obtain ⟨mb, hmb, hm⟩ : ∃ mb, String.utf8EncodeChar c = [mb] ∧ (mb = 0x65 ∨ mb = 0x45) := by
      rcases hc with rfl | rfl
      exacts [⟨_, rfl, Or.inl rfl⟩, ⟨_, rfl, Or.inr rfl⟩]
    obtain ⟨d, ds', rfl⟩ : ∃ d ds', ds = d :: ds' := by
      cases ds with
      | nil => exact absurd rfl hne
      | cons d ds' => exact ⟨d, ds', rfl⟩
    have hd₀ := digit_bounds (hds d (by simp))
    have hbyte : (UInt8.ofNat d.toNat).toNat = d.toNat := by simp; omega
    have htake := takeWhile_digits hds hd
    have hval := digitsValue_encode hds
    have hlen := length_encode_digits hds
    rw [encode_cons, utf8EncodeChar_ascii (by omega), List.singleton_append] at htake hval hlen
    rw [encode_append, encode_cons, hmb, List.singleton_append, List.cons_append,
      List.cons_append, List.append_assoc, encode_cons, utf8EncodeChar_ascii (by omega),
      List.singleton_append]
    -- the sign, if any, then the digits up to the first byte that is not one
    rcases hsign with ⟨rfl, rfl⟩ | ⟨rfl, rfl⟩ | ⟨rfl, rfl⟩
    · simp only [exponentPart?, hm, if_true, encode_nil, List.nil_append]
      generalize hrest : UInt8.ofNat d.toNat :: encode ds' ++ r = rest at htake ⊢
      split
      · simp only [List.cons_append, List.cons.injEq] at hrest
        rw [hrest.1] at hbyte
        simp at hbyte
        omega
      · simp only [List.cons_append, List.cons.injEq] at hrest
        rw [hrest.1] at hbyte
        simp at hbyte
        omega
      · simp [htake, hval, hlen]
        omega
    · simp only [exponentPart?, hm, if_true, encode_cons, encode_nil,
        show String.utf8EncodeChar '+' = [0x2B] from rfl, List.singleton_append]
      simp only [List.cons_append] at htake
      simp [htake, hval, hlen]
      omega
    · simp only [exponentPart?, hm, if_true, encode_cons, encode_nil,
        show String.utf8EncodeChar '-' = [0x2D] from rfl, List.singleton_append]
      simp only [List.cons_append] at htake
      simp [htake, hval, hlen]
      omega

/-- After the integer part comes a point, an exponent mark or the end of the number; none of them
is a digit, and only the first is a point. -/
theorem expPart_headNot {ep : List Char} {e : Int} {t : List Char} (h : ExpPart ep e)
    (ht : WordEnd t) :
    HeadNot isDigit (encode ep ++ encode t) ∧ HeadNot (· == 0x2E) (encode ep ++ encode t) := by
  cases h with
  | none => simpa using ⟨(wordEnd_head ht).1, (wordEnd_head ht).2.2⟩
  | @some c sign ds neg hc _ _ _ =>
    have hm : String.utf8EncodeChar c = [0x65] ∨ String.utf8EncodeChar c = [0x45] := by
      rcases hc with rfl | rfl
      exacts [Or.inl rfl, Or.inr rfl]
    rw [encode_append, encode_cons]
    rcases hm with hm | hm <;> rw [hm] <;>
      exact ⟨fun b bs h => by simp at h; rw [← h.1]; rfl,
        fun b bs h => by simp at h; rw [← h.1]; rfl⟩

/-- A fraction part, or nothing, followed by no digit, starts with no digit. -/
theorem fracPart_headNot {fp fracs : List Char} {r : List UInt8} (h : FracPart fp fracs)
    (hr : HeadNot isDigit r) : HeadNot isDigit (encode fp ++ r) := by
  cases h with
  | none => simpa using hr
  | some _ _ =>
    intro b bs hb
    simp only [encode_cons, show String.utf8EncodeChar '.' = [0x2E] from rfl, List.cons_append,
      List.nil_append, List.cons.injEq] at hb
    rw [← hb.1]
    rfl

/-- A number followed by anything that does not go on with a letter, digit or point is read as
the decimal it spells, and the reader stops right after it. -/
theorem number?_numLit {cs t : List Char} {d : Decimal} (hn : NumLit cs d t) (ht : WordEnd t) :
    ∃ n, number? (encode cs) = some (d, n) ∧ (encode cs).drop n = encode t := by
  cases hn with
  | @mk neg ints fp fracs ep _ e hi hf he =>
    have hexp := exponentPart?_exp he (wordEnd_head ht).1 (wordEnd_head ht).2.1
    obtain ⟨hed, hedot⟩ := expPart_headNot he ht
    have hfrac := fractionPart?_frac hf hed fun h => hedot
    have hint := integerPart?_ints hi (fracPart_headNot hf hed)
    have hval : digitsValue (encode ints ++ encode fracs) = Grammar.digitsValue (ints ++ fracs) := by
      rw [← encode_append, digitsValue_encode]
      simp only [List.mem_append]
      rintro x (hx | hx)
      exacts [hi.digits x hx, hf.digits x hx]
    have hfl : (encode fracs).length = fracs.length := length_encode_digits hf.digits
    have hpre : ∀ pre : List UInt8,
        (pre ++ (encode ints ++ (encode fp ++ (encode ep ++ encode t)))).drop
          (pre.length + (encode ints).length + (encode fp).length + (encode ep).length) =
          encode t := by
      intro pre
      rw [show pre.length + (encode ints).length + (encode fp).length + (encode ep).length =
        (pre ++ (encode ints ++ (encode fp ++ encode ep))).length by simp; omega]
      simp
    simp only [encode_append]
    cases neg with
    | true =>
      simp only [if_true, encode_cons, encode_nil, show String.utf8EncodeChar '-' = [0x2D] from rfl,
        List.append_nil, List.append_assoc, List.cons_append]
      refine ⟨1 + (encode ints).length + (encode fp).length + (encode ep).length, ?_,
        by simpa using hpre [0x2D]⟩
      simp only [number?, numberLexeme?, List.drop_succ_cons, List.drop_zero]
      simp [hint, hfrac, hexp, hval, hfl, NumberLexeme.decimal]
    | false =>
      -- a number without a minus starts with a digit, which the sign test passes over
      obtain ⟨d₀, ds, rfl⟩ : ∃ d₀ ds, ints = d₀ :: ds := by
        rcases hi with rfl | ⟨d₀, ds, rfl, -⟩
        exacts [⟨_, _, rfl⟩, ⟨_, _, rfl⟩]
      have hd₀ := digit_bounds (hi.digits d₀ (by simp))
      have hbyte : (UInt8.ofNat d₀.toNat).toNat = d₀.toNat := by simp; omega
      have hdrop := hpre []
      simp only [Bool.false_eq_true, if_false, encode_nil, List.nil_append, List.append_assoc,
        List.length_nil, Nat.zero_add] at hdrop ⊢
      refine ⟨(encode (d₀ :: ds)).length + (encode fp).length + (encode ep).length, ?_, hdrop⟩
      rw [encode_cons, utf8EncodeChar_ascii (by omega)] at hint hval ⊢
      simp only [List.cons_append, List.nil_append] at hint hval ⊢
      simp only [number?, numberLexeme?]
      split
      · next tail h =>
        simp only [List.cons.injEq] at h
        rw [h.1] at hbyte
        simp at hbyte
        omega
      · simp [hint, hfrac, hexp, hval, hfl, NumberLexeme.decimal]

end JsonCodec.Lexeme
