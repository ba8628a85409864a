import JsonCodec.Proofs.Scanner.Lexeme
import JsonCodec.Scanner.StringLiteral

/-! # String literals of grammatical text

A string literal the grammar derives is read by `StringLiteral.scan` as the characters it
denotes, and the reader stops right after the closing quote (`scan_strLit`). The body is read
in runs of plain characters, none of whose bytes stops a run: an ASCII one is its own byte, and
every byte of any other has its top bit set. Each run ends at the closing quote or at a
backslash, whose escape `Escape.decode` reads as the character the grammar gives it.
-/

namespace JsonCodec.StringLiteral

open Grammar Utf8

/-! ### Hex digits and escapes -/

/-- On an ASCII character's byte, the scanner's hex digit reader agrees with the grammar's. -/
theorem hexValue?_ascii : ∀ c : Char, c.toNat < 0x80 →
    Escape.hexValue? (UInt8.ofNat c.toNat) = hexDigit? c :=
  ascii_all (by decide)

/-- A hex digit is ASCII. -/
theorem hexDigit?_lt {c : Char} {v : Nat} (h : hexDigit? c = some v) : c.toNat < 0x80 := by
  simp only [hexDigit?] at h
  split_ifs at h with h₁ h₂ h₃
  · have := h₁.2
    simp only [Char.le_def, UInt32.le_iff_toNat_le] at this
    exact Nat.lt_of_le_of_lt this (by decide)
  · have := h₂.2
    simp only [Char.le_def, UInt32.le_iff_toNat_le] at this
    exact Nat.lt_of_le_of_lt this (by decide)
  · have := h₃.2
    simp only [Char.le_def, UInt32.le_iff_toNat_le] at this
    exact Nat.lt_of_le_of_lt this (by decide)

/-- A hex digit is its own byte, and the scanner reads that byte as the digit's value. -/
theorem hexValue?_of_hexDigit? {c : Char} {v : Nat} (h : hexDigit? c = some v) :
    String.utf8EncodeChar c = [UInt8.ofNat c.toNat] ∧ Escape.hexValue? (UInt8.ofNat c.toNat) = some v :=
  ⟨Lexeme.utf8EncodeChar_ascii (hexDigit?_lt h), (hexValue?_ascii c (hexDigit?_lt h)).trans h⟩

/-- Four hex digits are read as the unit they spell. -/
theorem hex4_encode {a b c d : Char} {n : Nat} (h : Hex4 a b c d n) (rest : List UInt8)
    (off : Nat) : Escape.hex4 (encode [a, b, c, d] ++ rest) off = .ok n := by
  obtain ⟨va, vb, vc, vd, ha, hb, hc, hd, rfl⟩ := h
  obtain ⟨ea, ha'⟩ := hexValue?_of_hexDigit? ha
  obtain ⟨eb, hb'⟩ := hexValue?_of_hexDigit? hb
  obtain ⟨ec, hc'⟩ := hexValue?_of_hexDigit? hc
  obtain ⟨ed, hd'⟩ := hexValue?_of_hexDigit? hd
  simp [Escape.hex4, Escape.hexDigits, encode_cons, ea, eb, ec, ed, ha', hb', hc', hd']

/-- Four hex digits are four bytes, one each. -/
theorem hex4_length {a b c d : Char} {n : Nat} (h : Hex4 a b c d n) :
    encode [a, b, c, d] = [UInt8.ofNat a.toNat, UInt8.ofNat b.toNat, UInt8.ofNat c.toNat,
      UInt8.ofNat d.toNat] := by
  obtain ⟨va, vb, vc, vd, ha, hb, hc, hd, -⟩ := h
  simp [encode_cons, (hexValue?_of_hexDigit? ha).1, (hexValue?_of_hexDigit? hb).1,
    (hexValue?_of_hexDigit? hc).1, (hexValue?_of_hexDigit? hd).1]

/-- A short escape is read as the character it stands for. -/
theorem decode_short {e c : Char} (h : shortEscape e = some c) (rest : List UInt8) (off : Nat) :
    Escape.decode (String.utf8EncodeChar e ++ rest) off = .ok (c, 1) := by
  unfold shortEscape at h
  split at h <;> simp only [Option.some.injEq, reduceCtorEq] at h <;> subst h <;>
    simp [String.utf8EncodeChar, Escape.decode]

/-- The escape of a code point that is no surrogate. -/
theorem decode_unit {a b c d : Char} {n : Nat} (h : Hex4 a b c d n) (hh : Utf16.isHigh n = false)
    (hl : Utf16.isLow n = false) (rest : List UInt8) (off : Nat) :
    Escape.decode (encode ['u', a, b, c, d] ++ rest) off = .ok (Char.ofNat n, 5) := by
  have hx : Escape.hex4 (encode [a, b, c, d] ++ rest) (off + 2) = pure n := hex4_encode h rest _
  rw [hex4_length h] at hx
  simp only [List.cons_append, List.nil_append] at hx
  rw [show encode ['u', a, b, c, d] = 0x75 :: encode [a, b, c, d] from rfl, hex4_length h]
  simp [Escape.decode, Escape.unicode, hx, hh, hl]
  rfl

/-- The escape of a surrogate pair, read as the character the pair names. -/
theorem decode_pair {a b c d a' b' c' d' : Char} {hi lo : Nat} (h₁ : Hex4 a b c d hi)
    (h₂ : Hex4 a' b' c' d' lo) (hh : Utf16.isHigh hi) (hl : Utf16.isLow lo) (rest : List UInt8)
    (off : Nat) :
    Escape.decode (encode ['u', a, b, c, d, '\\', 'u', a', b', c', d'] ++ rest) off =
      .ok (Char.ofNat (Utf16.combine hi lo), 11) := by
  -- both groups of digits read as their units, the second after the backslash and `u`
  have hx₁ : Escape.hex4 (encode [a, b, c, d] ++ 0x5C :: 0x75 :: (encode [a', b', c', d'] ++ rest))
      (off + 2) = pure hi := hex4_encode h₁ _ _
  have hx₂ : Escape.hex4 (encode [a', b', c', d'] ++ rest) (off + 8) = pure lo := hex4_encode h₂ _ _
  rw [hex4_length h₁, hex4_length h₂] at hx₁
  rw [hex4_length h₂] at hx₂
  simp only [List.cons_append, List.nil_append] at hx₁ hx₂
  have henc : encode ['u', a, b, c, d, '\\', 'u', a', b', c', d'] =
      0x75 :: encode [a, b, c, d] ++ 0x5C :: 0x75 :: encode [a', b', c', d'] := by
    simp [show String.utf8EncodeChar 'u' = [0x75] from rfl,
      show String.utf8EncodeChar '\\' = [0x5C] from rfl]
  rw [henc, hex4_length h₁, hex4_length h₂]
  simp [Escape.decode, Escape.unicode, hx₁, hx₂, hh, hl]
  simp [pure, Except.pure, Except.map]

/-! ### Runs -/

/-- A character that stands for itself in a string. -/
def Plain (c : Char) : Prop := 0x20 ≤ c.toNat ∧ c ≠ '"' ∧ c ≠ '\\'

/-- An ASCII character's byte stops a run exactly when it is a control character, the quote or the
backslash. -/
theorem isStop_ascii : ∀ c : Char, c.toNat < 0x80 →
    isStop (UInt8.ofNat c.toNat) = (decide (c.toNat < 0x20) || c == '"' || c == '\\') :=
  ascii_all (by decide)

/-- No byte of a plain character ends a run. -/
theorem isStop_plain {c : Char} (hc : Plain c) : ∀ b ∈ String.utf8EncodeChar c, isStop b = false := by
  obtain ⟨h₁, h₂, h₃⟩ := hc
  by_cases ha : c.toNat < 0x80
  · rw [Lexeme.utf8EncodeChar_ascii ha]
    simp only [List.mem_singleton, forall_eq]
    rw [isStop_ascii c ha]
    simp [h₂, h₃]
    omega
  · intro b hb
    have := utf8EncodeChar_ge (by omega) b hb
    simp only [isStop, Bool.or_eq_false_iff, decide_eq_false_iff_not, beq_eq_false_iff_ne,
      UInt8.lt_iff_toNat_lt]
    refine ⟨⟨by simp; omega, fun h => ?_⟩, fun h => ?_⟩ <;> (rw [h] at this; simp at this)

/-- A run of plain characters ends at the first stop byte after it. -/
theorem findIdx?_run {p : List Char} (hp : ∀ c ∈ p, Plain c) {b : UInt8} (hb : isStop b)
    (rest : List UInt8) : (encode p ++ b :: rest).findIdx? isStop = some (encode p).length := by
  have hnone : (encode p).findIdx? isStop = none := by
    rw [List.findIdx?_eq_none_iff]
    intro x hx
    simp only [encode, List.mem_flatMap] at hx
    obtain ⟨c, hc, hx⟩ := hx
    simp [isStop_plain (hp c hc) x hx]
  simp [hnone, List.findIdx?_cons, hb]

/-- The text a string reader returns once its body is complete. -/
theorem body_close {p : List Char} (hp : ∀ c ∈ p, Plain c) (start : Nat) (acc : Option String)
    (off : Nat) (rest : List UInt8) :
    ∃ text, body start acc (encode p ++ 0x22 :: rest) off =
        .ok (text, off + (encode p).length + 1) ∧
      text.str = acc.getD "" ++ String.ofList p := by
  have hk := findIdx?_run hp (show isStop 0x22 = true by decide) rest
  rw [body.eq_def]
  simp only [hk, List.take_left]
  split
  · next h => simp at h
  · next b after h =>
    simp only [List.drop_left, List.cons.injEq] at h
    obtain ⟨rfl, rfl⟩ := h
    cases acc <;> simp [decode_encode]

/-- A run ending at a backslash is added to the text with the escaped character, and the body reader
goes on after the escape. -/
theorem body_escape {p : List Char} (hp : ∀ c ∈ p, Plain c) (start : Nat) (acc : Option String)
    (off : Nat) {after : List UInt8} {c : Char} {n : Nat}
    (hd : Escape.decode after (off + (encode p).length) = .ok (c, n)) :
    body start acc (encode p ++ 0x5C :: after) off =
      body start (some ((acc.getD "" ++ String.ofList p).push c)) (after.drop n)
        (off + (encode p).length + 1 + n) := by
  have hk := findIdx?_run hp (show isStop 0x5C = true by decide) after
  rw [body.eq_def]
  simp only [hk, List.take_left]
  split
  · next h => simp at h
  · next b after' h =>
    simp only [List.drop_left, List.cons.injEq] at h
    obtain ⟨rfl, rfl⟩ := h
    simp [decode_encode, hd]

/-! ### Bodies and literals -/

/-- Pushing a character after a run and then adding what follows is adding the run, the character
and what follows. -/
theorem push_append_ofList (a : String) (p : List Char) (c : Char) (s : List Char) :
    (a ++ String.ofList p).push c ++ String.ofList s = a ++ String.ofList (p ++ c :: s) := by
  rw [← String.toList_inj]
  simp [String.toList_append, String.toList_push, String.toList_ofList]

/-- A character with a short escape is one byte. -/
theorem shortEscape_encode {e c : Char} (h : shortEscape e = some c) :
    (String.utf8EncodeChar e).length = 1 := by
  unfold shortEscape at h
  split at h <;> simp only [Option.some.injEq, reduceCtorEq] at h <;> rfl

/-- The body reader, started after any run `p` of plain characters, reads `cs` as the
characters `s` and stops where `t` begins. -/
def BodyReads (cs s t : List Char) : Prop :=
  ∀ (p : List Char), (∀ c ∈ p, Plain c) → ∀ (start : Nat) (acc : Option String) (off : Nat),
    ∃ text n, body start acc (encode p ++ encode cs) off = .ok (text, off + n) ∧
      (encode p ++ encode cs).drop n = encode t ∧
      text.str = acc.getD "" ++ String.ofList (p ++ s)

/-- An escape the decoder reads as `c`, whatever follows it, before a body that reads. -/
theorem bodyReads_escape {esc cs s t : List Char} {c : Char}
    (hd : ∀ rest off, Escape.decode (encode esc ++ rest) off = .ok (c, (encode esc).length))
    (ih : BodyReads cs s t) : BodyReads ('\\' :: esc ++ cs) (c :: s) t := by
  intro p hp start acc off
  have hstep := body_escape hp start acc off (hd (encode cs) (off + (encode p).length))
  obtain ⟨text, n, hrun, hdrop, htext⟩ := ih [] (by simp) start
    (some ((acc.getD "" ++ String.ofList p).push c)) (off + (encode p).length + 1 + (encode esc).length)
  simp only [encode_nil, List.nil_append] at hrun hdrop htext
  have henc : encode p ++ encode ('\\' :: esc ++ cs) = encode p ++ 0x5C :: (encode esc ++ encode cs) := by
    simp [show String.utf8EncodeChar '\\' = [0x5C] from rfl]
  refine ⟨text, (encode p).length + 1 + (encode esc).length + n, ?_, ?_, ?_⟩
  · rw [henc, hstep, List.drop_left, hrun]
    simp only [Nat.add_assoc]
  · rw [henc, show (encode p).length + 1 + (encode esc).length + n =
      (encode p ++ 0x5C :: encode esc).length + n by simp; omega, ← List.drop_drop]
    simpa using hdrop
  · rw [htext, Option.getD_some, push_append_ofList]

/-- The body reader reads every body the grammar derives. -/
theorem body_strChars {cs s t : List Char} (h : StrChars cs s t) : BodyReads cs s t := by
  induction h with
  | close t =>
    intro p hp start acc off
    obtain ⟨text, hrun, htext⟩ := body_close hp start acc off (encode t)
    refine ⟨text, (encode p).length + 1, ?_, ?_, by simpa using htext⟩
    · rw [encode_cons, show String.utf8EncodeChar '"' = [0x22] from rfl, List.singleton_append,
        hrun, Nat.add_assoc]
    · simp [show String.utf8EncodeChar '"' = [0x22] from rfl]
  | @plain c cs s t h₁ h₂ h₃ _ ih =>
    intro p hp start acc off
    -- a plain character joins the run
    have hp' : ∀ x ∈ p ++ [c], Plain x := by
      simpa [or_imp, forall_and] using ⟨hp, h₁, h₂, h₃⟩
    obtain ⟨text, n, hrun, hdrop, htext⟩ := ih (p ++ [c]) hp' start acc off
    have henc : encode (p ++ [c]) ++ encode cs = encode p ++ encode (c :: cs) := by simp
    rw [henc] at hrun hdrop
    exact ⟨text, n, hrun, hdrop, by simpa using htext⟩
  | @short e c cs s t he _ ih =>
    refine @bodyReads_escape [e] cs s t c (fun rest off => ?_) ih
    simpa [shortEscape_encode he] using decode_short he rest off
  | @unit a b c d n cs s t hx hh hl _ ih =>
    refine @bodyReads_escape ['u', a, b, c, d] cs s t _ (fun rest off => ?_) ih
    rw [decode_unit hx hh hl rest off]
    simp [hex4_length hx, show String.utf8EncodeChar 'u' = [0x75] from rfl]
  | @pair a b c d a' b' c' d' hi lo cs s t hx₁ hx₂ hh hl _ ih =>
    refine @bodyReads_escape ['u', a, b, c, d, '\\', 'u', a', b', c', d'] cs s t _
      (fun rest off => ?_) ih
    rw [decode_pair hx₁ hx₂ hh hl rest off]
    have l₁ := congrArg List.length (hex4_length hx₁)
    have l₂ := congrArg List.length (hex4_length hx₂)
    simp only [encode_cons, encode_nil, List.length_append, String.length_utf8EncodeChar,
      List.length_cons, List.length_nil] at l₁ l₂
    simp [show String.utf8EncodeChar 'u' = [0x75] from rfl,
      show String.utf8EncodeChar '\\' = [0x5C] from rfl]
    omega

/-- A string literal the grammar derives is read as the characters it denotes; the reader
stops right after the closing quote. -/
theorem scan_strLit {cs s t : List Char} (h : StrLit cs s t) (start : Nat) :
    ∃ text n, scan (encode cs) start = .ok (text, start + n) ∧ (encode cs).drop n = encode t ∧
      text.str = String.ofList s := by
  cases h with
  | @mk body s t hb =>
    obtain ⟨text, n, hrun, hdrop, htext⟩ := body_strChars hb [] (by simp) start none (start + 1)
    simp only [encode_nil, List.nil_append] at hrun hdrop htext
    refine ⟨text, n + 1, ?_, ?_, by simpa using htext⟩
    · simp only [scan, encode_cons, show String.utf8EncodeChar '"' = [0x22] from rfl,
        List.singleton_append, List.drop_succ_cons, List.drop_zero, hrun]
      rw [Nat.add_assoc, Nat.add_comm 1 n]
    · simpa [show String.utf8EncodeChar '"' = [0x22] from rfl] using hdrop

/-! ### Texts read verbatim

A body with no escape is returned as the bytes themselves (`Text.verbatim`); the first escape
makes the text a copy. So a body is read verbatim exactly when no backslash is among the bytes
it reads (`body_verbatim`), and a literal read whole exactly when it holds no backslash. -/

/-- A string body that reads ends past where it starts. -/
theorem body_offset_lt {start : Nat} {acc : Option String} {bs : List UInt8} {off : Nat}
    {text : Text} {e : Nat} (h : body start acc bs off = .ok (text, e)) : off < e := by
  fun_induction body start acc bs off generalizing text e with
  | case4 => simp only [Except.ok.injEq, Prod.mk.injEq] at h; omega
  | case7 =>
    rename_i ih
    have := ih h
    omega
  | _ => simp at h

/-- No byte before the first stop byte is a backslash. -/
theorem backslash_not_mem_take {bs : List UInt8} {k : Nat} (hk : bs.findIdx? isStop = some k) :
    0x5C ∉ bs.take k := by
  intro hmem
  obtain ⟨j, hj, hget⟩ := List.getElem_of_mem hmem
  obtain ⟨hlt, -, hbefore⟩ := List.findIdx?_eq_some_iff_getElem.1 hk
  simp only [List.length_take] at hj
  have hstop := hbefore j (by omega)
  rw [List.getElem_take] at hget
  simp [hget, isStop] at hstop

/-- A list that has `b` first once `k` are dropped has `b` at `k`. -/
theorem getElem?_of_drop_eq_cons {bs after : List UInt8} {k : Nat} {b : UInt8}
    (h : bs.drop k = b :: after) : bs[k]? = some b := by
  rw [← List.head?_drop, h]; rfl

/-- The text of a string body is the bytes themselves exactly when no escape was met before it
and no backslash is among the bytes it reads. -/
theorem body_verbatim {start : Nat} {acc : Option String} {bs : List UInt8} {off : Nat}
    {text : Text} {e : Nat} (h : body start acc bs off = .ok (text, e)) :
    text.verbatim = true ↔ acc = none ∧ 0x5C ∉ bs.take (e - off) := by
  fun_induction body start acc bs off generalizing text e with
  | case4 acc bs off k hk run after s _ =>
    rename_i hdrop
    -- the closing quote: the bytes read are the run before it and the quote
    simp only [Except.ok.injEq, Prod.mk.injEq] at h
    obtain ⟨rfl, rfl⟩ := h
    rw [show off + k + 1 - off = k + 1 by omega, List.take_add_one,
      getElem?_of_drop_eq_cons hdrop]
    have hrun := backslash_not_mem_take hk
    cases acc <;> simp +zetaDelta [hrun]
  | case7 acc bs off k _ run after s _ c n _ hdrop _ _ =>
    rename_i ih
    -- after an escape the text is a copy, and the backslash is among the bytes read
    have hcopy : text.verbatim = false := by simpa using (ih h).not.2 (by simp)
    have hlt := body_offset_lt h
    have hmem : 0x5C ∈ bs.take (e - off) := by
      rw [List.mem_iff_getElem?]
      exact ⟨k, by rw [List.getElem?_take, if_pos (by omega), getElem?_of_drop_eq_cons hdrop]⟩
    simp [hcopy, hmem]
  | _ => simp at h

/-- A string literal is read as its own bytes exactly when its body holds no backslash byte. -/
theorem scan_verbatim {bs : List UInt8} {start : Nat} {text : Text} {e : Nat}
    (h : scan bs start = .ok (text, e)) :
    text.verbatim = true ↔ 0x5C ∉ (bs.drop 1).take (e - (start + 1)) := by
  simpa using body_verbatim h

/-- The only character whose UTF-8 bytes hold a backslash byte is the backslash. -/
theorem backslash_mem_encode (cs : List Char) : 0x5C ∈ encode cs ↔ '\\' ∈ cs := by
  simp only [encode, List.mem_flatMap]
  constructor
  · rintro ⟨c, hc, hb⟩
    by_cases ha : c.toNat < 0x80
    · rw [Lexeme.utf8EncodeChar_ascii ha, List.mem_singleton] at hb
      have hc' : c = '\\' := by
        have hn := congrArg UInt8.toNat hb
        simp at hn
        exact Char.toNat_inj.1 (by rw [show '\\'.toNat = 92 from rfl]; omega)
      exact hc' ▸ hc
    · have := utf8EncodeChar_ge (by omega) _ hb
      simp at this
  · intro h
    exact ⟨'\\', h, by decide⟩

end JsonCodec.StringLiteral
