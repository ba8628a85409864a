import JsonCodec.Proofs.Writer.Quote

/-! # Quoting byte by byte writes what quoting by characters writes

`Escape.quoteBytes` walks a string's UTF-8 bytes. A byte that starts no escape is passed over, and
so is a byte that continues a character; at any other byte the run of bytes since the last escape
is copied as a slice of the string, then the escape is written, and the next run starts after the
escaped character. A slice is taken only between character boundaries, or the walk fails.

The walk never fails, and it writes exactly the bytes of `Escape.quote`. Its state after a prefix
of the characters is described by `Escape.Tracks`: the escaped text of the characters up to the
last escaped one, and the index where the characters after it begin, each of them written as
itself. One character's bytes keep that description (`Escape.walk_encodeChar`): its lead byte
decides, as `writeChar` does, whether it is written as itself, by a short escape, or as `\u`
escapes, and its continuation bytes are passed over. Induction over the characters carries it
across the string (`Escape.walk_encode`).

## Key results

- `Escape.isCharBoundary_encode`: every index where a character's bytes begin is a boundary, so
  the slices the walk takes are the bytes of the characters between them (`Escape.slice_encode`).
- `Escape.lead_cases`: a character's lead byte starts the escape `writeChar` writes for it.
- `Escape.quoteBytes_eq`: the walk succeeds on every string, with the bytes of `quote`.
-/

namespace JsonCodec.Escape

open Utf8

/-! ### The bytes of a character -/

/-- Every byte of a character's encoding after the first is a continuation byte, from 0x80 up to
0xBF. -/
theorem utf8EncodeChar_tail {c : Char} {b : UInt8} {bs : List UInt8}
    (h : String.utf8EncodeChar c = b :: bs) : ∀ x ∈ bs, 0x80 ≤ x.toNat ∧ x.toNat < 0xC0 := by
  have hv := char_toNat_valid c
  unfold String.utf8EncodeChar at h
  simp only [Char.toNat] at hv h
  generalize c.val.toNat = v at hv h
  have hbyte : ∀ n, n < 256 → (UInt8.ofNat n).toNat = n := fun n h => by simp; omega
  -- one case per length of the encoding; each byte after the first is 0x80 plus six bits
  by_cases h1 : v ≤ 0x7f
  · rw [if_pos h1, List.cons.injEq] at h
    simp [← h.2]
  rw [if_neg h1] at h
  by_cases h2 : v ≤ 0x7ff
  · rw [if_pos h2, List.cons.injEq] at h
    rw [← h.2]
    simp only [List.mem_cons, List.not_mem_nil, or_false]
    rintro x rfl
    rw [hbyte _ (by omega)]
    omega
  rw [if_neg h2] at h
  by_cases h3 : v ≤ 0xffff
  · rw [if_pos h3, List.cons.injEq] at h
    rw [← h.2]
    simp only [List.mem_cons, List.not_mem_nil, or_false]
    rintro x (rfl | rfl) <;> rw [hbyte _ (by omega)] <;> omega
  · rw [if_neg h3, List.cons.injEq] at h
    rw [← h.2]
    simp only [List.mem_cons, List.not_mem_nil, or_false]
    rintro x (rfl | rfl | rfl) <;> rw [hbyte _ (by omega)] <;> omega

/-- A character's first byte is ASCII or from 0xC0 on: never a continuation byte. -/
theorem utf8EncodeChar_head {c : Char} {b : UInt8} {bs : List UInt8}
    (h : String.utf8EncodeChar c = b :: bs) : b.toNat < 0x80 ∨ 0xC0 ≤ b.toNat := by
  obtain ⟨b', bs', he, hlo, hhi⟩ := Lexeme.utf8EncodeChar_eq_cons c
  rw [h, List.cons.injEq] at he
  obtain ⟨rfl, -⟩ := he
  by_cases hc : c.toNat < 0x80
  · left
    rw [(hlo hc).1]
    simp
    omega
  · exact .inr (hhi (by omega))

/-- The walk's test for a continuation byte. -/
theorem cont_iff (b : UInt8) :
    (0x80 ≤ b ∧ b &&& 0xC0 = 0x80) ↔ 0x80 ≤ b.toNat ∧ b.toNat < 0xC0 := by
  have key : ∀ n < 256, (0x80 ≤ n ∧ n &&& 0xC0 = 0x80) ↔ 0x80 ≤ n ∧ n < 0xC0 := by
    decide +kernel
  rw [UInt8.le_iff_toNat_le, UInt8.ext_iff, UInt8.toNat_and]
  exact key b.toNat b.toNat_lt

/-! ### Boundaries and slices -/

/-- Where a character's bytes begin, and at the end, the bytes have a character boundary. -/
theorem isCharBoundary_encode (pre post : List Char) :
    isCharBoundary (encode (pre ++ post)) (encode pre).length = true := by
  cases post with
  | nil => simp [isCharBoundary]
  | cons c post =>
    obtain ⟨b, bs, he, -, -⟩ := Lexeme.utf8EncodeChar_eq_cons c
    have hget : (encode (pre ++ c :: post))[(encode pre).length]? = some b := by
      simp [he]
    have hb := utf8EncodeChar_head he
    simp only [isCharBoundary, hget, Bool.or_eq_true, beq_iff_eq, decide_eq_true_eq,
      UInt8.lt_iff_toNat_lt, UInt8.le_iff_toNat_le]
    right
    simpa using hb

/-- The slice between the ends of two runs of characters is the bytes of the second run. -/
theorem slice_encode (a b c : List Char) :
    slice (encode (a ++ b ++ c)) (encode a).length (encode (a ++ b)).length = some (encode b) := by
  have h₁ := isCharBoundary_encode a (b ++ c)
  have h₂ := isCharBoundary_encode (a ++ b) c
  rw [← List.append_assoc] at h₁
  rw [slice, if_pos ⟨by simp, h₁, h₂⟩]
  simp

/-- At the start of a character's bytes the walk reads that character. -/
theorem charAt_encode (pre post : List Char) (c : Char) :
    charAt (encode (pre ++ c :: post)) (encode pre).length = some c := by
  rw [charAt, if_pos (isCharBoundary_encode pre (c :: post))]
  simp [headChar, decodeChar?_encodeChar]

/-! ### Where escapes start -/

/-- On the byte of an ASCII character, `byteEscape` makes the tests `writeChar` makes. -/
theorem asciiByte_tests : ∀ c : Char, c.toNat < 0x80 →
    (UInt8.ofNat c.toNat = 0x22 ↔ c = '"') ∧ (UInt8.ofNat c.toNat = 0x5C ↔ c = '\\') ∧
    (UInt8.ofNat c.toNat = 0x0A ↔ c = '\n') ∧ (UInt8.ofNat c.toNat = 0x0D ↔ c = '\r') ∧
    (UInt8.ofNat c.toNat = 0x09 ↔ c = '\t') ∧ (UInt8.ofNat c.toNat = 0x08 ↔ c = '\x08') ∧
    (UInt8.ofNat c.toNat = 0x0C ↔ c = '\x0c') ∧ (UInt8.ofNat c.toNat ≤ 0x1F ↔ c.toNat < 0x20) ∧
    ¬ 0x80 ≤ UInt8.ofNat c.toNat :=
  Grammar.ascii_all (by decide)

/-- An ASCII character's byte starts no escape when the character is written as itself, its
short escape when it has one, and the empty text when it is written as a `\u` escape. -/
theorem byteEscape_ascii (e : Bool) {c : Char} (hc : c.toNat < 0x80) :
    (byteEscape e (UInt8.ofNat c.toNat) = none ∧ writeChar e c = c.toString) ∨
    (∃ esc, byteEscape e (UInt8.ofNat c.toNat) = some esc ∧ esc ≠ "" ∧ writeChar e c = esc) ∨
    (byteEscape e (UInt8.ofNat c.toNat) = some "" ∧ writeChar e c = unitEscapes c) := by
  obtain ⟨t₁, t₂, t₃, t₄, t₅, t₆, t₇, t₈, t₉⟩ := asciiByte_tests c hc
  unfold byteEscape writeChar
  -- the seven short escapes, which both try in the same order
  by_cases h₁ : c = '"'
  · rw [if_pos (t₁.2 h₁), if_pos h₁]; exact .inr (.inl ⟨_, rfl, by decide, rfl⟩)
  rw [if_neg (mt t₁.1 h₁), if_neg h₁]
  by_cases h₂ : c = '\\'
  · rw [if_pos (t₂.2 h₂), if_pos h₂]; exact .inr (.inl ⟨_, rfl, by decide, rfl⟩)
  rw [if_neg (mt t₂.1 h₂), if_neg h₂]
  by_cases h₃ : c = '\n'
  · rw [if_pos (t₃.2 h₃), if_pos h₃]; exact .inr (.inl ⟨_, rfl, by decide, rfl⟩)
  rw [if_neg (mt t₃.1 h₃), if_neg h₃]
  by_cases h₄ : c = '\r'
  · rw [if_pos (t₄.2 h₄), if_pos h₄]; exact .inr (.inl ⟨_, rfl, by decide, rfl⟩)
  rw [if_neg (mt t₄.1 h₄), if_neg h₄]
  by_cases h₅ : c = '\t'
  · rw [if_pos (t₅.2 h₅), if_pos h₅]; exact .inr (.inl ⟨_, rfl, by decide, rfl⟩)
  rw [if_neg (mt t₅.1 h₅), if_neg h₅]
  by_cases h₆ : c = '\x08'
  · rw [if_pos (t₆.2 h₆), if_pos h₆]; exact .inr (.inl ⟨_, rfl, by decide, rfl⟩)
  rw [if_neg (mt t₆.1 h₆), if_neg h₆]
  by_cases h₇ : c = '\x0c'
  · rw [if_pos (t₇.2 h₇), if_pos h₇]; exact .inr (.inl ⟨_, rfl, by decide, rfl⟩)
  rw [if_neg (mt t₇.1 h₇), if_neg h₇]
  -- any other control character is written as a `\u` escape, and the rest as themselves
  by_cases h₈ : c.toNat < 0x20
  · rw [if_pos (t₈.2 h₈), if_pos (by simp [h₈])]; exact .inr (.inr ⟨rfl, rfl⟩)
  rw [if_neg (mt t₈.1 h₈), if_neg (fun h => t₉ h.1), if_neg (by simp [h₈]; omega)]
  exact .inl ⟨rfl, rfl⟩

/-- A byte above ASCII starts an escape, as the empty text, exactly under `escapeNonAscii`. -/
theorem byteEscape_high (e : Bool) {b : UInt8} (hb : 0x80 ≤ b.toNat) :
    byteEscape e b = if e then some "" else none := by
  have hne : ∀ k : UInt8, k.toNat < 0x80 → b ≠ k := fun k hk h => by rw [h] at hb; omega
  have hctl : ¬ b ≤ 0x1F := by rw [UInt8.le_iff_toNat_le]; simp; omega
  unfold byteEscape
  rw [if_neg (hne _ (by decide)), if_neg (hne _ (by decide)), if_neg (hne _ (by decide)),
    if_neg (hne _ (by decide)), if_neg (hne _ (by decide)), if_neg (hne _ (by decide)),
    if_neg (hne _ (by decide)), if_neg hctl]
  cases e <;> simp [UInt8.le_iff_toNat_le, hb]

/-- A character above ASCII is written as `\u` escapes exactly under `escapeNonAscii`. -/
theorem writeChar_high (e : Bool) {c : Char} (hc : 0x80 ≤ c.toNat) :
    writeChar e c = if e then unitEscapes c else c.toString := by
  have hne : ∀ d : Char, d.toNat < 0x80 → c ≠ d := fun d hd h => by rw [h] at hc; omega
  unfold writeChar
  rw [if_neg (hne _ (by decide)), if_neg (hne _ (by decide)), if_neg (hne _ (by decide)),
    if_neg (hne _ (by decide)), if_neg (hne _ (by decide)), if_neg (hne _ (by decide)),
    if_neg (hne _ (by decide))]
  have hctl : ¬ c.toNat < 0x20 := by omega
  cases e <;> simp [hctl, hc]

/-- A character's lead byte starts the escape `writeChar` writes for it: none when it is written as
itself, its short escape (of a one-byte character), or the empty text for `\u` escapes. -/
theorem lead_cases (e : Bool) {c : Char} {b : UInt8} {bs : List UInt8}
    (h : String.utf8EncodeChar c = b :: bs) :
    (byteEscape e b = none ∧ writeChar e c = c.toString) ∨
    (∃ esc, byteEscape e b = some esc ∧ esc ≠ "" ∧ bs = [] ∧ writeChar e c = esc) ∨
    (byteEscape e b = some "" ∧ writeChar e c = unitEscapes c) := by
  obtain ⟨b', bs', he, hlo, hhi⟩ := Lexeme.utf8EncodeChar_eq_cons c
  rw [h, List.cons.injEq] at he
  obtain ⟨rfl, rfl⟩ := he
  by_cases hc : c.toNat < 0x80
  · obtain ⟨rfl, rfl⟩ := hlo hc
    rcases byteEscape_ascii e hc with h | ⟨esc, hs, hne, hw⟩ | h
    exacts [.inl h, .inr (.inl ⟨esc, hs, hne, rfl, hw⟩), .inr (.inr h)]
  · -- above ASCII the lead byte is from 0xC0 on, and only `escapeNonAscii` escapes it
    have hb := hhi (by omega)
    rw [byteEscape_high e (by omega), writeChar_high e (by omega)]
    cases e
    · exact .inl ⟨rfl, rfl⟩
    · exact .inr (.inr ⟨rfl, rfl⟩)

/-! ### One byte, one character -/

section Walk

variable {e : Bool} {bytes : List UInt8} {i : Nat} {b : UInt8} {st : List UInt8 × Nat}

/-- A byte that starts no escape is passed over. -/
theorem walkByte_none (h : byteEscape e b = none) : walkByte e bytes i b st = some st := by
  simp [walkByte, h]

/-- A continuation byte is passed over, escaped or not. -/
theorem walkByte_cont (h : 0x80 ≤ b.toNat ∧ b.toNat < 0xC0) : walkByte e bytes i b st = some st := by
  unfold walkByte
  split
  · rfl
  · rw [if_pos ((cont_iff b).2 h)]

/-- At a lead byte with a short escape, the run since the last escape is copied and the escape
written; the next run starts at the next byte. -/
theorem walkByte_short {esc : String} {run : List UInt8} (hl : b.toNat < 0x80 ∨ 0xC0 ≤ b.toNat)
    (hs : byteEscape e b = some esc) (hne : esc ≠ "") (hrun : slice bytes st.2 i = some run) :
    walkByte e bytes i b st = some (st.1 ++ run ++ esc.toUTF8.toList, i + 1) := by
  have hlead : ¬ (0x80 ≤ b ∧ b &&& 0xC0 = 0x80) := by rw [cont_iff]; omega
  simp only [walkByte, hs, if_neg hlead, hrun, Option.bind_some]
  rw [if_neg (by simpa using hne)]

/-- At a lead byte escaped as `\u` escapes, the run since the last escape is copied and the
character there written as the escapes of its units; the next run starts after the character. -/
theorem walkByte_unit {run : List UInt8} {c : Char} (hl : b.toNat < 0x80 ∨ 0xC0 ≤ b.toNat)
    (hs : byteEscape e b = some "") (hrun : slice bytes st.2 i = some run)
    (hc : charAt bytes i = some c) :
    walkByte e bytes i b st = some (st.1 ++ run ++ (unitEscapes c).toUTF8.toList, i + c.utf8Size) := by
  have hlead : ¬ (0x80 ≤ b ∧ b &&& 0xC0 = 0x80) := by rw [cont_iff]; omega
  simp [walkByte, hs, if_neg hlead, hrun, hc]

/-- The walk over continuation bytes passes all of them. -/
theorem walk_cont {l : List UInt8} (hl : ∀ b ∈ l, 0x80 ≤ b.toNat ∧ b.toNat < 0xC0) :
    walk e bytes l i st = some st := by
  induction l generalizing i with
  | nil => rfl
  | cons b l ih =>
    rw [walk, walkByte_cont (hl b (by simp)), Option.bind_some, ih (fun x hx => hl x (by simp [hx]))]

/-- The walk over two runs of bytes is the walk over the first, then over the second. -/
theorem walk_append (l₁ l₂ : List UInt8) :
    walk e bytes (l₁ ++ l₂) i st = (walk e bytes l₁ i st).bind (walk e bytes l₂ (i + l₁.length)) := by
  induction l₁ generalizing i st with
  | nil => rfl
  | cons b l₁ ih =>
    simp only [List.cons_append, walk, List.length_cons]
    cases walkByte e bytes i b st with
    | none => rfl
    | some st' => simp only [Option.bind_some, ih, Nat.add_assoc, Nat.add_comm 1]

end Walk

/-! ### The walk over a string -/

/-- The bytes of the written text of some characters. -/
def written (e : Bool) (cs : List Char) : List UInt8 :=
  encode (cs.flatMap fun c => (writeChar e c).toList)

/-- No characters, no bytes. -/
@[simp] theorem written_nil (e : Bool) : written e [] = [] := rfl

/-- The bytes written for two runs of characters, one after the other. -/
@[simp] theorem written_append (e : Bool) (cs ds : List Char) :
    written e (cs ++ ds) = written e cs ++ written e ds := by
  simp [written]

/-- The bytes written for one character are those of its written text. -/
theorem written_singleton (e : Bool) (c : Char) : written e [c] = (writeChar e c).toUTF8.toList := by
  rw [toUTF8_eq_encode]
  simp [written]

/-- Characters written as themselves are written as their own bytes. -/
theorem written_verbatim {e : Bool} {cs : List Char} (h : ∀ d ∈ cs, writeChar e d = d.toString) :
    written e cs = encode cs := by
  induction cs with
  | nil => rfl
  | cons c cs ih =>
    rw [← List.singleton_append, written_append, written_singleton, h c (by simp),
      ih (fun d hd => h d (by simp [hd])), toUTF8_eq_encode]
    simp

/-- The state of the walk once it has passed the characters `pre`: it has written the escaped
text of the characters up to the last one it escaped (`done`), and the characters after that
(`raw`), each written as itself, are the run it will copy from the index where they start. -/
def Tracks (e : Bool) (pre : List Char) (st : List UInt8 × Nat) : Prop :=
  ∃ done raw, pre = done ++ raw ∧ (∀ d ∈ raw, writeChar e d = d.toString) ∧
    st = (written e done, (encode done).length)

/-- The walk across one character's bytes keeps its state described: the character joins the run
if it is written as itself, and is otherwise written, after the run, by the escape `writeChar`
writes for it. -/
theorem walk_encodeChar (e : Bool) {pre : List Char} (c : Char) (post : List Char)
    {st : List UInt8 × Nat} (h : Tracks e pre st) :
    ∃ st', walk e (encode (pre ++ c :: post)) (String.utf8EncodeChar c) (encode pre).length st =
      some st' ∧ Tracks e (pre ++ [c]) st' := by
  obtain ⟨done, raw, rfl, hraw, rfl⟩ := h
  obtain ⟨b, bs, he, -, -⟩ := Lexeme.utf8EncodeChar_eq_cons c
  have hl := utf8EncodeChar_head he
  -- the run copied at an escape is the bytes of the characters written as themselves
  have hrun := slice_encode done raw (c :: post)
  -- an escaped character is written after what was written before and the run
  have hwritten : written e (done ++ raw ++ [c]) =
      written e done ++ encode raw ++ (writeChar e c).toUTF8.toList := by
    rw [written_append, written_append, written_verbatim hraw, written_singleton]
  rw [he, walk]
  rcases lead_cases e he with ⟨hn, hw⟩ | ⟨esc, hs, hne, rfl, hw⟩ | ⟨hs, hw⟩
  · -- written as itself: the walk passes the character, which joins the run
    refine ⟨_, by rw [walkByte_none hn, Option.bind_some, walk_cont (utf8EncodeChar_tail he)],
      done, raw ++ [c], by simp, ?_, rfl⟩
    intro d hd
    rcases List.mem_append.1 hd with hd | hd
    · exact hraw d hd
    · rw [List.mem_singleton.1 hd]; exact hw
  · -- a short escape, of a one-byte character
    refine ⟨_, by rw [walkByte_short hl hs hne hrun, Option.bind_some]; rfl,
      done ++ raw ++ [c], [], by simp, by simp, ?_⟩
    have hlen : (encode (done ++ raw ++ [c])).length = (encode (done ++ raw)).length + 1 := by
      simp [he, Nat.add_assoc]
    rw [hlen, hwritten, hw]
  · -- `\u` escapes of the character; its continuation bytes are passed
    have hc := charAt_encode (done ++ raw) post c
    refine ⟨_, by rw [walkByte_unit hl hs hrun hc, Option.bind_some,
      walk_cont (utf8EncodeChar_tail he)], done ++ raw ++ [c], [], by simp, by simp, ?_⟩
    have hlen : (encode (done ++ raw ++ [c])).length = (encode (done ++ raw)).length + c.utf8Size := by
      simp [String.length_utf8EncodeChar, Nat.add_assoc]
    rw [hlen, hwritten, hw]

/-- The walk across the bytes of a run of characters keeps its state described, whatever comes
before and after them. -/
theorem walk_encode (e : Bool) (post : List Char) :
    ∀ (cs pre : List Char) (st : List UInt8 × Nat), Tracks e pre st →
      ∃ st', walk e (encode (pre ++ cs ++ post)) (encode cs) (encode pre).length st = some st' ∧
        Tracks e (pre ++ cs) st'
  | [], pre, st, h => ⟨st, rfl, by simpa using h⟩
  | c :: cs, pre, st, h => by
    -- one character, then the rest from the state after it
    have hbytes : encode (pre ++ c :: cs ++ post) = encode (pre ++ c :: (cs ++ post)) := by simp
    obtain ⟨st₁, h₁, ht₁⟩ := walk_encodeChar e c (cs ++ post) h
    obtain ⟨st₂, h₂, ht₂⟩ := walk_encode e post cs (pre ++ [c]) st₁ ht₁
    have hbytes' : encode (pre ++ [c] ++ cs ++ post) = encode (pre ++ c :: (cs ++ post)) := by simp
    have hi : (encode (pre ++ [c])).length = (encode pre).length + (String.utf8EncodeChar c).length := by
      simp
    rw [hbytes', hi] at h₂
    refine ⟨st₂, ?_, by simpa using ht₂⟩
    rw [hbytes, encode_cons, walk_append, h₁, Option.bind_some, h₂]

/-- Quoting a string byte by byte never slices off a character boundary, and writes the bytes of
the quoted literal. -/
theorem quoteBytes_eq (e : Bool) (s : String) : quoteBytes e s = some (quote e s).toUTF8.toList := by
  obtain ⟨st, hwalk, done, raw, hs, hraw, rfl⟩ :=
    walk_encode e [] s.toList [] ([], 0) ⟨[], [], rfl, by simp, rfl⟩
  simp only [List.nil_append, List.append_nil, encode_nil, List.length_nil] at hwalk hs
  -- the run after the last escape is copied whole, up to the end
  have hrun := slice_encode done raw []
  rw [List.append_nil] at hrun
  have hquote : (quote e s).toUTF8.toList = [0x22] ++ written e s.toList ++ [0x22] := by
    rw [toUTF8_eq_encode, quote_toList]
    simp [written]
    rfl
  rw [quoteBytes, toUTF8_eq_encode, hwalk, Option.bind_some, hs, hrun, Option.map_some, hquote, hs,
    written_append, written_verbatim hraw]
  simp

example : quoteBytes false "é\"x" = some [0x22, 0xC3, 0xA9, 0x5C, 0x22, 0x78, 0x22] := by cbv
example : quoteBytes true "é\"x" = some "\"\\u00E9\\\"x\"".toUTF8.toList := by cbv

end JsonCodec.Escape
