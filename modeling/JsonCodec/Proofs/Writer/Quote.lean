import JsonCodec.Proofs.Scanner.Step
import JsonCodec.Writer.Escape

/-! # Quoted strings read back

The writer spells a string as a quoted literal (`Escape.quote`), character by character
(`Escape.writeChar`): a plain character as itself, the quote, the backslash and five control
characters by their short escapes, and any other character that must be escaped as `\u` escapes
of its UTF-16 units, in four uppercase hex digits each (`hexUpper4`). `writeChar_cases` says
this once; every later proof splits on it.

* `strLit_quote`: a written literal is a string literal of the grammar denoting the string, so
  the scanner reads it back as one string token holding the string, and nothing after it
  (`next_quote`).
* `backslash_mem_quote`: a literal holds a backslash exactly when some character had to be
  escaped. The scanner returns a string as its own bytes exactly when there was no backslash, so
  a string is read back verbatim exactly when none of its characters is escaped.
* `quote_ascii`: with `escapeNonAscii` a written literal is ASCII.
-/

namespace JsonCodec

open Grammar Utf8 StringLiteral

/-- Every character of a text is ASCII. -/
def Ascii (s : String) : Prop := ∀ c ∈ s.toList, c.toNat < 0x80

/-- Whether a text is ASCII is decided character by character. -/
instance : DecidablePred Ascii := fun s => inferInstanceAs (Decidable (∀ c ∈ s.toList, _))

/-- Two texts joined are ASCII exactly when both are. -/
@[simp] theorem ascii_append {s t : String} : Ascii (s ++ t) ↔ Ascii s ∧ Ascii t := by
  simp [Ascii, String.toList_append, or_imp, forall_and]

/-! ### Four hex digits -/

/-- An uppercase hex digit reads back as its value. -/
theorem hexDigit?_upper : ∀ d < 16, hexDigit? (Nat.digitChar d).toUpper = some d := by decide

/-- A number below sixteen is one hex digit. -/
theorem toDigits_hex_of_lt {n : Nat} (h : n < 16) : Nat.toDigits 16 n = [Nat.digitChar n] := by
  rw [Nat.toDigits_eq_if (by decide), if_pos h]

/-- A number from sixteen up is its hex digits without the last, then its last. -/
theorem toDigits_hex_of_ge {n : Nat} (h : 16 ≤ n) :
    Nat.toDigits 16 n = Nat.toDigits 16 (n / 16) ++ [Nat.digitChar (n % 16)] := by
  rw [Nat.toDigits_eq_if (by decide), if_neg (by omega)]

/-- A unit is written in exactly four digits, leading zeros included. -/
theorem hexUpper4_toList {n : Nat} (h : n < 0x10000) :
    (hexUpper4 n).toList = [(Nat.digitChar (n / 0x1000)).toUpper,
      (Nat.digitChar (n / 0x100 % 16)).toUpper, (Nat.digitChar (n / 0x10 % 16)).toUpper,
      (Nat.digitChar (n % 16)).toUpper] := by
  unfold hexUpper4
  have hz : (Nat.digitChar 0).toUpper = '0' := by decide
  -- the number of digits `Nat.toDigits` gives, one to four
  by_cases h1 : n < 16
  · rw [toDigits_hex_of_lt h1]
    have e1 : n / 0x1000 = 0 := by omega
    have e2 : n / 0x100 % 16 = 0 := by omega
    have e3 : n / 0x10 % 16 = 0 := by omega
    have e4 : n % 16 = n := by omega
    simp [e1, e2, e3, e4, hz]
  by_cases h2 : n < 256
  · rw [toDigits_hex_of_ge (by omega), toDigits_hex_of_lt (by omega)]
    have e1 : n / 0x1000 = 0 := by omega
    have e2 : n / 0x100 % 16 = 0 := by omega
    have e3 : n / 0x10 % 16 = n / 16 := by omega
    simp [e1, e2, e3, hz]
  by_cases h3 : n < 4096
  · rw [toDigits_hex_of_ge (by omega), toDigits_hex_of_ge (by omega),
      toDigits_hex_of_lt (by omega)]
    have e1 : n / 0x1000 = 0 := by omega
    have e2 : n / 0x100 % 16 = n / 16 / 16 := by omega
    simp [e1, e2, hz]
  · rw [toDigits_hex_of_ge (by omega), toDigits_hex_of_ge (by omega),
      toDigits_hex_of_ge (by omega), toDigits_hex_of_lt (by omega)]
    have e1 : n / 0x1000 = n / 16 / 16 / 16 := by omega
    have e2 : n / 0x100 % 16 = n / 16 / 16 % 16 := by omega
    simp [e1, e2]

/-- The four digits written for a unit spell it back. -/
theorem hex4_hexUpper4 {n : Nat} (h : n < 0x10000) :
    ∃ a b c d, (hexUpper4 n).toList = [a, b, c, d] ∧ Hex4 a b c d n :=
  ⟨_, _, _, _, hexUpper4_toList h, n / 0x1000, n / 0x100 % 16, n / 0x10 % 16, n % 16,
    hexDigit?_upper _ (by omega), hexDigit?_upper _ (by omega), hexDigit?_upper _ (by omega),
    hexDigit?_upper _ (by omega), by omega⟩

/-- The four digits written for a unit are ASCII. -/
theorem hexUpper4_ascii {n : Nat} (h : n < 0x10000) : Ascii (hexUpper4 n) := by
  obtain ⟨a, b, c, d, hl, va, vb, vc, vd, ha, hb, hc, hd, -⟩ := hex4_hexUpper4 h
  rw [Ascii, hl]
  simp only [List.mem_cons, List.not_mem_nil, or_false]
  rintro x (rfl | rfl | rfl | rfl)
  exacts [hexDigit?_lt ha, hexDigit?_lt hb, hexDigit?_lt hc, hexDigit?_lt hd]

/-! ### One character -/

namespace Utf16

/-- Every character is at least one UTF-16 unit. -/
theorem units_ne_nil (c : Char) : units c ≠ [] := by
  by_cases hlt : c.toNat < 0x10000 <;> simp [units, hlt]

/-- Every UTF-16 unit fits in four hex digits. -/
theorem units_lt (c : Char) : ∀ u ∈ units c, u < 0x10000 := by
  have hv := char_toNat_valid c
  by_cases hlt : c.toNat < 0x10000
  · simp [units, hlt]
  · simp only [units, hlt, ↓reduceIte, List.mem_cons, List.not_mem_nil, or_false]
    omega

end Utf16

namespace Escape

/-- How a character is written: as itself when it is plain and, under `escapeNonAscii`, ASCII;
else, if it is the quote, the backslash or a control character with one, by its short escape;
else as `\u` escapes of its UTF-16 units. -/
theorem writeChar_cases (e : Bool) (c : Char) :
    (Plain c ∧ (e = true → c.toNat < 0x80) ∧ (writeChar e c).toList = [c]) ∨
    ((c = '"' ∨ c = '\\' ∨ c.toNat < 0x20) ∧
      ∃ x, shortEscape x = some c ∧ (writeChar e c).toList = ['\\', x]) ∨
    ((c.toNat < 0x20 ∨ e = true ∧ 0x80 ≤ c.toNat) ∧
      (writeChar e c).toList = (Utf16.units c).flatMap fun u => '\\' :: 'u' :: (hexUpper4 u).toList) := by
  unfold writeChar
  -- the seven short escapes, in the order `writeChar` tries them
  by_cases h₁ : c = '"'
  · rw [if_pos h₁]; exact .inr (.inl ⟨.inl h₁, '"', by rw [h₁]; rfl, rfl⟩)
  rw [if_neg h₁]
  by_cases h₂ : c = '\\'
  · rw [if_pos h₂]; exact .inr (.inl ⟨.inr (.inl h₂), '\\', by rw [h₂]; rfl, rfl⟩)
  rw [if_neg h₂]
  by_cases h₃ : c = '\n'
  · rw [if_pos h₃]; exact .inr (.inl ⟨.inr (.inr (by rw [h₃]; decide)), 'n', by rw [h₃]; rfl, rfl⟩)
  rw [if_neg h₃]
  by_cases h₄ : c = '\r'
  · rw [if_pos h₄]; exact .inr (.inl ⟨.inr (.inr (by rw [h₄]; decide)), 'r', by rw [h₄]; rfl, rfl⟩)
  rw [if_neg h₄]
  by_cases h₅ : c = '\t'
  · rw [if_pos h₅]; exact .inr (.inl ⟨.inr (.inr (by rw [h₅]; decide)), 't', by rw [h₅]; rfl, rfl⟩)
  rw [if_neg h₅]
  by_cases h₆ : c = '\x08'
  · rw [if_pos h₆]; exact .inr (.inl ⟨.inr (.inr (by rw [h₆]; decide)), 'b', by rw [h₆]; rfl, rfl⟩)
  rw [if_neg h₆]
  by_cases h₇ : c = '\x0c'
  · rw [if_pos h₇]; exact .inr (.inl ⟨.inr (.inr (by rw [h₇]; decide)), 'f', by rw [h₇]; rfl, rfl⟩)
  rw [if_neg h₇]
  by_cases h₈ : (c.toNat < 0x20 || (e && 0x80 ≤ c.toNat)) = true
  · -- `\u` escapes of the UTF-16 units
    rw [if_pos h₈, unitEscapes, String.toList_join, List.flatMap_map]
    refine .inr (.inr ⟨by simpa using h₈, List.flatMap_congr fun u _ => ?_⟩)
    rw [String.toList_append]
    rfl
  · rw [if_neg h₈]
    simp only [Bool.or_eq_true, decide_eq_true_eq, Bool.and_eq_true, not_or, not_and,
      not_le] at h₈
    exact .inl ⟨⟨by omega, h₁, h₂⟩, h₈.2, by simp⟩

/-- The `\u` escapes of a character's UTF-16 units stand for the character: one unit for a
character below U+10000 (never a surrogate), a high and a low surrogate for the rest. -/
theorem units_strChars (c : Char) {cs s t : List Char} (h : StrChars cs s t) :
    StrChars (((Utf16.units c).flatMap fun u => '\\' :: 'u' :: (hexUpper4 u).toList) ++ cs)
      (c :: s) t := by
  have hv := char_toNat_valid c
  by_cases hlt : c.toNat < 0x10000
  · simp only [Utf16.units, hlt, ↓reduceIte]
    obtain ⟨a, b, x, d, hl, hx⟩ := hex4_hexUpper4 hlt
    have hu := StrChars.unit (s := s) hx (by simp [Utf16.isHigh]; omega)
      (by simp [Utf16.isLow]; omega) h
    simpa [hl] using hu
  · simp only [Utf16.units, hlt, ↓reduceIte]
    obtain ⟨a, b, x, d, hl, hx⟩ := hex4_hexUpper4 (n := 0xD800 + (c.toNat - 0x10000) / 0x400)
      (by omega)
    obtain ⟨a', b', x', d', hl', hx'⟩ := hex4_hexUpper4 (n := 0xDC00 + (c.toNat - 0x10000) % 0x400)
      (by omega)
    have hp := StrChars.pair (s := s) hx hx' (by simp [Utf16.isHigh]; omega)
      (by simp [Utf16.isLow]; omega) h
    -- the pair combines back to the code point
    have hcomb : Utf16.combine (0xD800 + (c.toNat - 0x10000) / 0x400)
        (0xDC00 + (c.toNat - 0x10000) % 0x400) = c.toNat := by
      unfold Utf16.combine; omega
    rw [hcomb, Char.ofNat_toNat] at hp
    simpa [hl, hl'] using hp

/-- A written character, in front of a body, stands for itself. -/
theorem writeChar_strChars (e : Bool) (c : Char) {cs s t : List Char} (h : StrChars cs s t) :
    StrChars ((writeChar e c).toList ++ cs) (c :: s) t := by
  rcases writeChar_cases e c with ⟨⟨h₁, h₂, h₃⟩, -, hw⟩ | ⟨-, x, hx, hw⟩ | ⟨-, hw⟩ <;> rw [hw]
  · exact .plain h₁ h₂ h₃ h
  · exact .short hx h
  · exact units_strChars c h

/-- The characters of a string, written one after another and closed by a quote, are a string
body denoting them. -/
theorem strChars_flatMap (e : Bool) (t : List Char) : ∀ s : List Char,
    StrChars ((s.flatMap fun c => (writeChar e c).toList) ++ '"' :: t) s t
  | [] => .close t
  | c :: s => by
    rw [List.flatMap_cons, List.append_assoc]
    exact writeChar_strChars e c (strChars_flatMap e t s)

/-- A quoted literal is the opening quote, each character as it is written, and the closing
quote. -/
theorem quote_toList (e : Bool) (s : String) :
    (quote e s).toList = '"' :: (s.toList.flatMap fun c => (writeChar e c).toList) ++ ['"'] := by
  -- the fold appends the written characters one by one to the opening quote
  have hfold : ∀ (acc : String) (l : List Char),
      (l.foldl (fun acc c => acc ++ writeChar e c) acc).toList =
        acc.toList ++ l.flatMap fun c => (writeChar e c).toList := by
    intro acc l
    induction l generalizing acc with
    | nil => simp
    | cons c l ih => simp [ih]
  rw [quote, String.toList_append, String.foldl_eq_foldl_toList, hfold]
  rfl

/-- A written literal is a string literal of the grammar denoting the string. -/
theorem strLit_quote (e : Bool) (s : String) : StrLit (quote e s).toList s.toList [] := by
  rw [quote_toList, List.cons_append, List.append_cons, List.append_nil]
  exact .mk (strChars_flatMap e [] s.toList)

/-! ### Which characters are escaped -/

/-- Only ASCII characters have short escapes. -/
theorem shortEscape_ascii {x c : Char} (h : shortEscape x = some c) : x.toNat < 0x80 := by
  unfold shortEscape at h
  split at h <;> first | decide | simp at h

/-- A written character holds a backslash exactly when it is escaped: when it is not plain, or
not ASCII under `escapeNonAscii`. -/
theorem backslash_mem_writeChar (e : Bool) (c : Char) :
    '\\' ∈ (writeChar e c).toList ↔ ¬ (Plain c ∧ (e = true → c.toNat < 0x80)) := by
  rcases writeChar_cases e c with ⟨hp, ha, hw⟩ | ⟨hc, x, -, hw⟩ | ⟨hc, hw⟩
  · have hne : '\\' ≠ c := fun h => hp.2.2 h.symm
    simpa [hw, hp, hne] using ha
  · have hesc : ¬ (Plain c ∧ (e = true → c.toNat < 0x80)) := by
      rintro ⟨⟨h₁, h₂, h₃⟩, -⟩
      rcases hc with rfl | rfl | hc
      exacts [h₂ rfl, h₃ rfl, by omega]
    simp [hw, hesc]
  · have hesc : ¬ (Plain c ∧ (e = true → c.toNat < 0x80)) := by
      rintro ⟨⟨h₁, -⟩, h₂⟩
      rcases hc with hc | ⟨he, hc⟩
      exacts [by omega, by have := h₂ he; omega]
    obtain ⟨u, us, hu⟩ := List.exists_cons_of_ne_nil (Utf16.units_ne_nil c)
    simp [hw, hu, hesc]

/-- Under `escapeNonAscii` every character is written in ASCII. -/
theorem writeChar_ascii (c : Char) : Ascii (writeChar true c) := by
  rcases writeChar_cases true c with ⟨-, ha, hw⟩ | ⟨-, y, hy, hw⟩ | ⟨-, hw⟩ <;> rw [Ascii, hw]
  · simpa using ha rfl
  · simp only [List.mem_cons, List.not_mem_nil, or_false]
    rintro x (rfl | rfl)
    exacts [by decide, shortEscape_ascii hy]
  · simp only [List.mem_flatMap, List.mem_cons]
    rintro x ⟨u, hu, rfl | rfl | hx⟩
    exacts [by decide, by decide, hexUpper4_ascii (Utf16.units_lt c u hu) x hx]

/-! ### Whole literals -/

/-- A written literal holds a backslash exactly when some character of the string was escaped. -/
theorem backslash_mem_quote (e : Bool) (s : String) :
    '\\' ∈ (quote e s).toList ↔ ∃ c ∈ s.toList, ¬ (Plain c ∧ (e = true → c.toNat < 0x80)) := by
  simp [quote_toList, List.mem_flatMap, backslash_mem_writeChar]

/-- Under `escapeNonAscii` a written literal is ASCII. -/
theorem quote_ascii (s : String) : Ascii (quote true s) := by
  simp only [Ascii, quote_toList, List.mem_cons, List.mem_append, List.mem_flatMap, List.not_mem_nil,
    or_false]
  rintro x ((rfl | ⟨c, -, hx⟩) | rfl)
  exacts [by decide, writeChar_ascii c x hx, by decide]

end Escape

/-! ### Reading a literal back -/

namespace Scanner

/-- A string literal that ends the input is read as one string token holding what it denotes,
and the scanner stops at the end; the token is the bytes themselves exactly when the literal
holds no backslash. -/
theorem scanToken_strLit_whole {sc : Scanner} {u : Bool} {cs str : List Char} (h : sc.At u cs)
    (hs : StrLit cs str []) :
    ∃ text sc', (scanToken).run sc = .ok (.string text) sc' ∧ text.str = String.ofList str ∧
      sc'.At u [] ∧ (text.verbatim = true ↔ '\\' ∉ cs) := by
  obtain ⟨text, n, hscan, hdrop, htext⟩ := scan_strLit hs sc.pos
  obtain ⟨body, rfl⟩ : ∃ body, cs = '"' :: body := by cases hs; exact ⟨_, rfl⟩
  have hq : encode ('"' :: body) = 0x22 :: encode body := by
    simp [show String.utf8EncodeChar '"' = [0x22] from rfl]
  refine ⟨text, sc.advance n, ?_, htext, h.advance hdrop, ?_⟩
  · rw [hq] at hscan
    simp [scanToken, h.head (c := '"') (by decide), scanString, hscan]
  · -- the scan reads every byte after the opening quote
    have hn : (encode body).length ≤ sc.pos + n - (sc.pos + 1) := by
      have := congrArg List.length hdrop
      simp only [hq, List.length_drop, List.length_cons, encode_nil, List.length_nil] at this
      omega
    rw [scan_verbatim hscan, hq, List.drop_one, List.tail_cons, List.take_of_length_le hn,
      backslash_mem_encode]
    simp

/-- The scanner reads a written literal back as one string token holding the string, with
nothing left after it. -/
theorem next_quote (e u : Bool) (s : String) :
    ∃ text sc, (next).run (ofString (Escape.quote e s) u) = .ok (.string text) sc ∧
      text.str = s ∧ sc.At u [] ∧ (text.verbatim = true ↔ '\\' ∉ (Escape.quote e s).toList) := by
  have hat : (ofString (Escape.quote e s) u).At u (Escape.quote e s).toList :=
    ⟨rfl, rfl, toUTF8_eq_encode _⟩
  -- no white space comes before the opening quote
  have hnows : NoWs u (Escape.quote e s).toList := by
    rw [Escape.quote_toList]
    exact noWs_of_startsValue (by decide) _
  obtain ⟨text, sc, hrun, htext, hend, hverb⟩ :=
    scanToken_strLit_whole (hat.skip (.nil _) hnows).mark (Escape.strLit_quote e s)
  refine ⟨text, sc, ?_, by simpa using htext, hend, hverb⟩
  rw [next_clear hat.1]
  exact hrun

end Scanner

end JsonCodec
