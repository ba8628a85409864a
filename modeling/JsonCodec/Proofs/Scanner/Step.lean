import JsonCodec.Proofs.Scanner.StringLiteral
import JsonCodec.Proofs.Run
import JsonCodec.Proofs.Walk
import JsonCodec.Scanner.Basic
import JsonCodec.Proofs.Scanner.Number

/-! # Steps of the scanner on well-formed text

Each lemma here runs one operation of the scanner on bytes that encode text the grammar derives,
and says what it returns and what text is left. A scanner is seen through three fields only: the
token put back (`pending`), the white-space option and the bytes left (`rest`). `Scanner.At u cs`
says that nothing is put back and the bytes left are the UTF-8 encoding of `cs`; every lemma
takes a scanner `At` some text and leaves one `At` the text after what it read.

The other fields (the offsets) never change an answer on well-formed text, so no lemma mentions
them. Moving the cursor keeps the three fields as they were apart from `rest`, which loses what
was read.
-/

namespace JsonCodec.Scanner
open Grammar Utf8

/-! ### Moving the cursor -/

/-- Advancing the cursor drops the bytes it passes. -/
theorem advance_rest (s : Scanner) (k : Nat) : (s.advance k).rest = s.rest.drop k := by
  unfold advance
  split
  next n r h =>
    rw [dropCount_eq] at h
    simp only [Nat.zero_add, Prod.mk.injEq] at h
    exact h.2.symm

/-- Advancing the cursor keeps the token put back. -/
theorem advance_pending (s : Scanner) (k : Nat) : (s.advance k).pending = s.pending := by
  unfold advance; split; rfl

/-- Advancing the cursor keeps the white-space option. -/
theorem advance_unicodeSpace (s : Scanner) (k : Nat) :
    (s.advance k).unicodeSpace = s.unicodeSpace := by
  unfold advance; split; rfl

/-- The bytes left are the input after the cursor. -/
theorem rest_length (s : Scanner) : s.rest.length = s.size - s.pos := by
  rw [s.rest_eq, List.length_drop, s.size_eq]

/-- The scanner has nothing put back and stands before the UTF-8 bytes of the text `cs`, reading
white space as `u` says. -/
def At (s : Scanner) (u : Bool) (cs : List Char) : Prop :=
  s.pending = none ∧ s.unicodeSpace = u ∧ s.rest = encode cs

/-- Advancing past bytes of the text that leave those of `t` stands at `t`. -/
theorem At.advance {s : Scanner} {u : Bool} {cs t : List Char} {n : Nat} (h : s.At u cs)
    (hd : (encode cs).drop n = encode t) : (s.advance n).At u t := by
  obtain ⟨hp, hu, hr⟩ := h
  exact ⟨by rw [advance_pending, hp], by rw [advance_unicodeSpace, hu],
    by rw [advance_rest, hr, hd]⟩

/-- A text that starts with an ASCII character has that character's byte first. -/
theorem At.head {s : Scanner} {u : Bool} {c : Char} {cs : List Char} (h : s.At u (c :: cs))
    (hc : c.toNat < 0x80) : s.rest = UInt8.ofNat c.toNat :: encode cs := by
  rw [h.2.2, encode_cons, Lexeme.utf8EncodeChar_ascii hc, List.singleton_append]

/-- An ASCII character is one byte. -/
theorem At.advance_one {s : Scanner} {u : Bool} {c : Char} {cs : List Char}
    (h : s.At u (c :: cs)) (hc : c.toNat < 0x80) : (s.advance 1).At u cs :=
  h.advance (by simp [Lexeme.utf8EncodeChar_ascii hc])

/-- The scanner with the cursor recorded as where the latest token begins. -/
def withMark (s : Scanner) : Scanner := { s with last := s.pos }

/-- Recording where the latest token begins leaves the bytes as they were. -/
@[simp] theorem withMark_rest (s : Scanner) : s.withMark.rest = s.rest := rfl

/-- Recording where the latest token begins keeps the scanner at its text. -/
theorem At.mark {s : Scanner} {u : Bool} {cs : List Char} (h : s.At u cs) : s.withMark.At u cs := h

/-- Marking records the cursor as the start of the latest token. -/
theorem mark_run (s : Scanner) : (mark).run s = .ok () s.withMark := rfl

/-- Skipping white space advances past as many bytes as the white space has. -/
theorem skipSpace_run (s : Scanner) :
    (skipSpace).run s = .ok () (s.advance (Lexeme.spaceLength s.unicodeSpace s.rest)) := rfl

/-- Stepping over white space that the grammar allows, up to a character that is none, leaves
the scanner right before that character. -/
theorem At.skip {s : Scanner} {u : Bool} {cs t : List Char} (h : s.At u cs) (hw : Ws u cs t)
    (ht : NoWs u t) : (s.advance (Lexeme.spaceLength s.unicodeSpace s.rest)).At u t := by
  obtain ⟨w, rfl, hlen⟩ := Lexeme.spaceLength_ws hw ht
  rw [h.2.2, h.2.1, hlen]
  exact h.advance (by simp)

/-! ### Tokens

The scanner picks what to read by the first byte. A byte that begins a number or a word is none
of the brackets or the quote, so the tests before the one that applies all fail. -/

/-- A digit is no bracket, brace or quote, so the scanner reads it as a number. -/
theorem isDigit_punct {b : UInt8} (hb : Lexeme.isDigit b) : b ≠ 0x5B ∧ b ≠ 0x7B ∧ b ≠ 0x22 := by
  simp [Lexeme.isDigit, UInt8.le_iff_toNat_le] at hb
  simp only [ne_eq, UInt8.ext_iff]
  simp
  omega

/-- A letter is no bracket, brace, quote, minus or digit, so the scanner reads it as a word. -/
theorem isAlpha_punct {b : UInt8} (hb : Lexeme.isAlpha b) :
    b ≠ 0x5B ∧ b ≠ 0x7B ∧ b ≠ 0x22 ∧ b ≠ 0x2D ∧ Lexeme.isDigit b = false := by
  simp [Lexeme.isAlpha, UInt8.le_iff_toNat_le] at hb
  simp only [ne_eq, UInt8.ext_iff, Lexeme.isDigit, UInt8.le_iff_toNat_le]
  simp
  omega

/-- An opening bracket scans as the start of an array, one byte long. -/
theorem scanToken_array {s : Scanner} {u : Bool} {cs : List Char} (h : s.At u ('[' :: cs)) :
    (scanToken).run s = .ok .arrayStart (s.advance 1) := by
  simp [scanToken, h.head (c := '[') (by decide)]

/-- An opening brace scans as the start of an object, one byte long. -/
theorem scanToken_object {s : Scanner} {u : Bool} {cs : List Char} (h : s.At u ('{' :: cs)) :
    (scanToken).run s = .ok .objectStart (s.advance 1) := by
  simp [scanToken, h.head (c := '{') (by decide)]

/-- A minus sign or a digit scans as the number that the bytes there spell, as long as they are. -/
theorem scanToken_number {s : Scanner} {b : UInt8} {bs : List UInt8} (hr : s.rest = b :: bs)
    (hb : b = 0x2D ∨ Lexeme.isDigit b) {d : Decimal} {n : Nat}
    (hn : Lexeme.number? s.rest = some (d, n)) :
    (scanToken).run s = .ok (.number d.toDouble) (s.advance n) := by
  have hs : Lexeme.scanNumber Lexeme.fastIntegerDigits s.rest = some (d.toDouble, n) := by
    rw [Lexeme.scanNumber_eq, hn]
    rfl
  rw [hr] at hs
  rcases hb with rfl | hb
  · simp [scanToken, hr, hs]
  · obtain ⟨h5B, h7B, h22⟩ := isDigit_punct hb
    simp [scanToken, hr, hs, hb, h5B, h7B, h22]

/-- A letter scans as the literal word there, as long as it is. -/
theorem scanToken_word {s : Scanner} {b : UInt8} {bs : List UInt8} (hr : s.rest = b :: bs)
    (hb : Lexeme.isAlpha b) {t : Token} {n : Nat} (hl : Lexeme.literal s.rest = .ok (t, n)) :
    (scanToken).run s = .ok t (s.advance n) := by
  rw [hr] at hl
  obtain ⟨h5B, h7B, h22, h2D, hd⟩ := isAlpha_punct hb
  simp [scanToken, hr, hl, hb, h5B, h7B, h22, h2D, hd]

/-- A string literal scans as its text, and the scanner stands after its closing quote. -/
theorem scanString_strLit {s : Scanner} {u : Bool} {cs str t : List Char} (h : s.At u cs)
    (hs : StrLit cs str t) :
    ∃ text s', (scanString).run s = .ok text s' ∧ text.str = String.ofList str ∧ s'.At u t := by
  obtain ⟨text, n, hscan, hdrop, htext⟩ := StringLiteral.scan_strLit hs s.pos
  refine ⟨text, s.advance n, ?_, htext, h.advance hdrop⟩
  simp [scanString, h.2.2, hscan]

/-- A string literal scans as a string token of its text, the scanner after its closing quote. -/
theorem scanToken_strLit {s : Scanner} {u : Bool} {cs str t : List Char} (h : s.At u cs)
    (hs : StrLit cs str t) :
    ∃ text s', (scanToken).run s = .ok (.string text) s' ∧ text.str = String.ofList str ∧
      s'.At u t := by
  obtain ⟨text, s', hrun, htext, hat⟩ := scanString_strLit h hs
  obtain ⟨body, rfl⟩ : ∃ body, cs = '"' :: body := by cases hs; exact ⟨_, rfl⟩
  refine ⟨text, s', ?_, htext, hat⟩
  simp [scanToken, h.head (c := '"') (by decide), hrun]

/-- A scalar the grammar derives is read as the token of its value, up to where its text ends. -/
theorem scanToken_scalar {s : Scanner} {u : Bool} {cs t : List Char} {v : Value} (h : s.At u cs)
    (he : Elem u cs v t) (ht : WordEnd t) (hv : TreeSource.nodeFrame v = none) :
    ∃ tok s', (scanToken).run s = .ok tok s' ∧ tok.erase = TreeSource.nodeToken v ∧
      s'.At u t := by
  -- a literal is a word that ends where its text does, so the word reader takes exactly it
  have hw := Lexeme.literal_words ht
  cases he with
  | null =>
    have hl : Lexeme.literal s.rest = .ok (.null, 4) := by rw [h.2.2]; exact hw.1
    exact ⟨_, _, scanToken_word (h.head (c := 'n') (by decide)) rfl hl, rfl, h.advance rfl⟩
  | true =>
    have hl : Lexeme.literal s.rest = .ok (.bool true, 4) := by rw [h.2.2]; exact hw.2.1
    exact ⟨_, _, scanToken_word (h.head (c := 't') (by decide)) rfl hl, rfl, h.advance rfl⟩
  | false =>
    have hl : Lexeme.literal s.rest = .ok (.bool false, 5) := by rw [h.2.2]; exact hw.2.2
    exact ⟨_, _, scanToken_word (h.head (c := 'f') (by decide)) rfl hl, rfl, h.advance rfl⟩
  | number hn =>
    -- a number starts with a minus or a digit, which sends the scanner to the number reader
    obtain ⟨n, hnum, hdrop⟩ := Lexeme.number?_numLit hn ht
    obtain ⟨c, rest, rfl, hc⟩ := hn.head
    have hlt : c.toNat < 0x80 := by
      rcases hc with rfl | hc
      exacts [by decide, digit_lt hc]
    have hb : UInt8.ofNat c.toNat = 0x2D ∨ Lexeme.isDigit (UInt8.ofNat c.toNat) := by
      rcases hc with rfl | hc
      · exact Or.inl rfl
      · exact Or.inr (by rw [Lexeme.isDigit_ascii c hlt]; exact hc)
    refine ⟨_, _, scanToken_number (h.head hlt) hb ?_, rfl, h.advance hdrop⟩
    rw [h.2.2]; exact hnum
  | string hs =>
    obtain ⟨text, s', hrun, htext, hat⟩ := scanToken_strLit h hs
    exact ⟨_, s', hrun, by simp [Token.erase, TreeSource.nodeToken, htext], hat⟩
  -- containers are not scalars
  | array => simp [TreeSource.nodeFrame] at hv
  | object => simp [TreeSource.nodeFrame] at hv

/-! ### Stepping through containers -/

/-- The byte of an ASCII character that starts a value is no closing bracket, comma or closing
brace. -/
theorem startsValue_byte : ∀ c : Char, c.toNat < 0x80 → startsValue c →
    UInt8.ofNat c.toNat ≠ 0x5D ∧ UInt8.ofNat c.toNat ≠ 0x2C ∧ UInt8.ofNat c.toNat ≠ 0x7D :=
  ascii_all (by decide)

/-- An array steps to its end at its closing bracket, after any white space. -/
theorem arrayNext_close {s : Scanner} {u : Bool} {cs t : List Char} (h : s.At u cs)
    (hw : Ws u cs (']' :: t)) (first : Bool) :
    ∃ s', (arrayNext first).run s = .ok false s' ∧ s'.At u t := by
  have hat := h.skip hw (noWs_of_punct (Or.inl rfl))
  refine ⟨_, ?_, hat.mark.advance_one (c := ']') (by decide)⟩
  simp [arrayNext, skipSpace_run, mark_run, h.1, hat.head (c := ']') (by decide)]

/-- An array steps past the comma before its next element. -/
theorem arrayNext_comma {s : Scanner} {u : Bool} {cs t : List Char} (h : s.At u cs)
    (hw : Ws u cs (',' :: t)) : ∃ s', (arrayNext false).run s = .ok true s' ∧ s'.At u t := by
  have hat := h.skip hw (noWs_of_punct (Or.inr (Or.inr (Or.inl rfl))))
  refine ⟨_, ?_, hat.mark.advance_one (c := ',') (by decide)⟩
  simp [arrayNext, skipSpace_run, mark_run, h.1, hat.head (c := ',') (by decide)]

/-- Right after the bracket no comma is due: the scanner stops before the first value. -/
theorem arrayNext_first {s : Scanner} {u : Bool} {cs cs₁ t : List Char} {v : Value}
    (h : s.At u cs) (hw : Ws u cs cs₁) (he : Elem u cs₁ v t) :
    ∃ s', (arrayNext true).run s = .ok true s' ∧ s'.At u cs₁ := by
  have hat := h.skip hw he.noWs
  refine ⟨_, ?_, hat.mark⟩
  obtain ⟨c, rest, rfl, hc⟩ := he.head
  have hlt := startsValue_lt hc
  simp [arrayNext, skipSpace_run, mark_run, h.1, hat.head hlt, (startsValue_byte c hlt hc).1]

/-- The colon after a member's name is taken, after any white space. -/
theorem expectColon_run {s : Scanner} {u : Bool} {cs t : List Char} (h : s.At u cs)
    (hw : Ws u cs (':' :: t)) (name : Text) :
    ∃ s', (expectColon name).run s = .ok (some name) s' ∧ s'.At u t := by
  have hat := h.skip hw (noWs_of_punct (Or.inr (Or.inr (Or.inr rfl))))
  refine ⟨_, ?_, hat.advance_one (c := ':') (by decide)⟩
  simp [expectColon, skipSpace_run, hat.head (c := ':') (by decide)]

/-- A member is read up to its value: the name, as the text it denotes, and the colon. -/
theorem propertyName_member {s : Scanner} {u : Bool} {cs t : List Char} {k : String} {v : Value}
    (h : s.At u cs) (hm : Member u cs k v t) :
    ∃ name s' cs₁ cs₂, (propertyName).run s = .ok (some name) s' ∧ name.str = k ∧
      s'.At u cs₁ ∧ Ws u cs₁ cs₂ ∧ Elem u cs₂ v t := by
  cases hm with
  | mk hs hw₁ hw₂ he =>
    obtain ⟨text, s₁, hrun₁, htext, hat₁⟩ := scanString_strLit h hs
    obtain ⟨s₂, hrun₂, hat₂⟩ := expectColon_run hat₁ hw₁ text
    obtain ⟨body, rfl⟩ : ∃ body, cs = '"' :: body := by cases hs; exact ⟨_, rfl⟩
    refine ⟨text, s₂, _, _, ?_, htext, hat₂, hw₂, he⟩
    simp [propertyName, h.head (c := '"') (by decide), hrun₁, hrun₂]

/-- An object steps to its end at its closing brace, after any white space. -/
theorem objectNext_close {s : Scanner} {u : Bool} {cs t : List Char} (h : s.At u cs)
    (hw : Ws u cs ('}' :: t)) (first : Bool) :
    ∃ s', (objectNext first).run s = .ok none s' ∧ s'.At u t := by
  have hat := h.skip hw (noWs_of_punct (Or.inr (Or.inl rfl)))
  refine ⟨_, ?_, hat.mark.advance_one (c := '}') (by decide)⟩
  simp [objectNext, skipSpace_run, mark_run, h.1, hat.head (c := '}') (by decide)]

/-- An object steps to its first member: its name is read, with the colon after it, and the value
follows. -/
theorem objectNext_first {s : Scanner} {u : Bool} {cs cs₁ t : List Char} {k : String} {v : Value}
    (h : s.At u cs) (hw : Ws u cs cs₁) (hm : Member u cs₁ k v t) :
    ∃ name s' cs₂ cs₃, (objectNext true).run s = .ok (some name) s' ∧ name.str = k ∧
      s'.At u cs₂ ∧ Ws u cs₂ cs₃ ∧ Elem u cs₃ v t := by
  obtain ⟨body, rfl⟩ := hm.head
  have hat := h.skip hw (noWs_of_startsValue (c := '"') rfl body)
  obtain ⟨name, s', cs₂, cs₃, hrun, hrest⟩ := propertyName_member hat.mark hm
  refine ⟨name, s', cs₂, cs₃, ?_, hrest⟩
  simp [objectNext, skipSpace_run, mark_run, h.1, hat.head (c := '"') (by decide), hrun]

/-- An object steps past the comma to its next member: its name is read, with the colon after it,
and the value follows. -/
theorem objectNext_comma {s : Scanner} {u : Bool} {cs cs₁ cs₂ t : List Char} {k : String}
    {v : Value} (h : s.At u cs) (hw : Ws u cs (',' :: cs₁)) (hw₁ : Ws u cs₁ cs₂)
    (hm : Member u cs₂ k v t) :
    ∃ name s' cs₃ cs₄, (objectNext false).run s = .ok (some name) s' ∧ name.str = k ∧
      s'.At u cs₃ ∧ Ws u cs₃ cs₄ ∧ Elem u cs₄ v t := by
  obtain ⟨body, rfl⟩ := hm.head
  have hat := h.skip hw (noWs_of_punct (Or.inr (Or.inr (Or.inl rfl))))
  have hat₁ := (hat.mark.advance_one (c := ',') (by decide)).skip hw₁
    (noWs_of_startsValue (c := '"') rfl body)
  obtain ⟨name, s', cs₃, cs₄, hrun, hrest⟩ := propertyName_member hat₁ hm
  refine ⟨name, s', cs₃, cs₄, ?_, hrest⟩
  simp [objectNext, skipSpace_run, mark_run, h.1, hat.head (c := ',') (by decide), hrun]

/-! ### The next token, looking ahead, and the end -/

/-- A token put back is the next one, taken without reading a byte. -/
theorem next_held {s : Scanner} {t : Token} (hp : s.pending = some t) :
    (next).run s = .ok t { s with pending := none } := by
  simp [next, hp]

/-- With nothing put back, the next token is scanned after the white space, its start recorded. -/
theorem next_clear {s : Scanner} (hp : s.pending = none) :
    (next).run s =
      (scanToken).run (s.advance (Lexeme.spaceLength s.unicodeSpace s.rest)).withMark := by
  simp [next, hp, skipSpace_run, mark_run]

/-- A scalar value, after white space, is the next token, the same token up to the provenance of its
text. -/
theorem next_scalar {s : Scanner} {u : Bool} {cs cs₁ t : List Char} {v : Value} (h : s.At u cs)
    (hw : Ws u cs cs₁) (he : Elem u cs₁ v t) (ht : WordEnd t)
    (hv : TreeSource.nodeFrame v = none) :
    ∃ tok s', (next).run s = .ok tok s' ∧ tok.erase = TreeSource.nodeToken v ∧ s'.At u t := by
  rw [next_clear h.1]
  exact scanToken_scalar (h.skip hw he.noWs).mark he ht hv

/-- An array's opening bracket, after white space, is the next token. -/
theorem next_array {s : Scanner} {u : Bool} {cs cs₁ : List Char} (h : s.At u cs)
    (hw : Ws u cs ('[' :: cs₁)) : ∃ s', (next).run s = .ok .arrayStart s' ∧ s'.At u cs₁ := by
  have hat := (h.skip hw (noWs_of_startsValue (c := '[') rfl cs₁)).mark
  rw [next_clear h.1]
  exact ⟨_, scanToken_array hat, hat.advance_one (by decide)⟩

/-- An object's opening brace, after white space, is the next token. -/
theorem next_object {s : Scanner} {u : Bool} {cs cs₁ : List Char} (h : s.At u cs)
    (hw : Ws u cs ('{' :: cs₁)) : ∃ s', (next).run s = .ok .objectStart s' ∧ s'.At u cs₁ := by
  have hat := (h.skip hw (noWs_of_startsValue (c := '{') rfl cs₁)).mark
  rw [next_clear h.1]
  exact ⟨_, scanToken_object hat, hat.advance_one (by decide)⟩

/-- Looking ahead reads the next token and puts it back. -/
theorem peekKind_run {s s' : Scanner} {t : Token} (hn : (next).run s = .ok t s') :
    (peekKind).run s = .ok t.kind { s' with pending := some t } := by
  simp [peekKind, hn]

/-- With a token put back, the input is not at its end, and nothing moves. -/
theorem isEof_held {s : Scanner} {t : Token} (hp : s.pending = some t) :
    s.isEof = (false, s) := by
  simp [isEof, hp]

/-- At white space followed by `t`, the input is at its end exactly when `t` is empty. -/
theorem isEof_at {s : Scanner} {u : Bool} {cs t : List Char} (h : s.At u cs) (hw : Ws u cs t)
    (ht : NoWs u t) : s.isEof.1 = t.isEmpty ∧ s.isEof.2.At u t := by
  have hat := h.skip hw ht
  refine ⟨?_, by simpa [isEof, h.1] using hat⟩
  simp only [isEof, h.1, Option.isSome_none, Bool.false_eq_true, if_false, hat.2.2]
  cases t with
  | nil => rfl
  | cons c t => exact Lexeme.encode_isEmpty (by simp)

end JsonCodec.Scanner
