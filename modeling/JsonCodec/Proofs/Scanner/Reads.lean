import JsonCodec.Proofs.Scanner.Lexed
import JsonCodec.Proofs.Scanner.Step

/-! # What the scanner's steps accept

The converse of the step lemmas: a step of the scanner that succeeds, started with nothing put
back, read the encoding of a piece of grammatical text, and stands after it with nothing put
back. `Scanner.Read u s cs s'` says so: the bytes `s` had left are the encoding of `cs` followed
by the bytes `s'` has. Readings chain (`Read.trans`), so a run of steps read the concatenation
of what each step read.

* `next_sound`: white space, then the text of the token given (`TokenText`): a bracket, a brace,
  or an element of the grammar denoting the token's value;
* `arrayNext_sound`, `objectNext_sound`: white space, then a closing bracket or brace, or a comma,
  or, in an object, a member's name and its colon (`MemberName`);
* `isEof_sound`: white space, and the end is reached when no byte is left.
-/

namespace JsonCodec.Scanner
open Grammar Utf8

/-! ### Readings -/

/-- Nothing is put back in the scanner, which reads white space as `u`. -/
def Clean (u : Bool) (s : Scanner) : Prop := s.pending = none ∧ s.unicodeSpace = u

/-- The scanner went from `s` to `s'` by reading the text `cs`: the bytes `s` had left are the
encoding of `cs` followed by those `s'` has, and nothing is put back in `s'`. -/
def Read (u : Bool) (s : Scanner) (cs : List Char) (s' : Scanner) : Prop :=
  s.rest = encode cs ++ s'.rest ∧ s'.Clean u

/-- Two readings in a row read what each read, one after the other. -/
theorem Read.trans {u : Bool} {s s' s'' : Scanner} {cs cs' : List Char} (h₁ : Read u s cs s')
    (h₂ : Read u s' cs' s'') : Read u s (cs ++ cs') s'' :=
  ⟨by rw [h₁.1, h₂.1, encode_append, List.append_assoc], h₂.2⟩

/-- A clean scanner has read nothing to stay where it is. -/
theorem Clean.read_nil {u : Bool} {s : Scanner} (h : s.Clean u) : Read u s [] s := ⟨rfl, h⟩

/-- Stepping over the encoding of `cs`. -/
theorem Clean.advance {u : Bool} {s : Scanner} {cs : List Char} {n : Nat} (h : s.Clean u)
    (hr : s.rest = encode cs ++ s.rest.drop n) : Read u s cs (s.advance n) :=
  ⟨by rw [advance_rest]; exact hr, by rw [Clean, advance_pending, advance_unicodeSpace]; exact h⟩

/-- What the scanner steps over as white space is white space. -/
theorem Clean.skip {u : Bool} {s : Scanner} (h : s.Clean u) :
    ∃ w, (∀ c ∈ w, isWs u c) ∧ Read u s w (s.advance (Lexeme.spaceLength s.unicodeSpace s.rest)) := by
  obtain ⟨w, r, hr, hlen, hw⟩ := Lexeme.spaceLengthFrom_sound u 0 s.rest
  have hn : Lexeme.spaceLength s.unicodeSpace s.rest = (encode w).length := by
    rw [Lexeme.spaceLength, h.2, hlen, Nat.zero_add]
  refine ⟨w, hw, h.advance ?_⟩
  rw [hn, hr, List.drop_left]

/-! ### Tokens -/

/-- What a token is read from: a bracket or a brace opens a container, and the text of a scalar
is an element of the grammar denoting the value of the token, whatever text follows it. -/
inductive TokenText (u : Bool) : Token → List Char → Prop where
  | arrayStart : TokenText u .arrayStart ['[']
  | objectStart : TokenText u .objectStart ['{']
  | scalar {t : Token} {v : Value} {pre : List Char} : TreeSource.nodeFrame v = none →
      t.erase = TreeSource.nodeToken v → (∀ T, Elem u (pre ++ T) v T) → TokenText u t pre

/-- What the string reader accepts at a quote is a string literal of the grammar. -/
theorem scanString_sound {u : Bool} {s s' : Scanner} {tail : List UInt8} {text : Text}
    (hc : s.Clean u) (hr : s.rest = 0x22 :: tail) (h : (scanString).run s = .ok text s') :
    ∃ lit str, (∀ T, StrLit (lit ++ T) str T) ∧ text.str = String.ofList str ∧ Read u s lit s' := by
  simp only [scanString, EStateM.run_bind, EStateM.run_get] at h
  split at h
  · next t e hs =>
    simp at h
    obtain ⟨rfl, rfl⟩ := h
    rw [hr] at hs
    obtain ⟨lit, str, r, hlit, he, hstr, htext⟩ := StringLiteral.scan_sound hs
    refine ⟨lit, str, hstr, htext, hc.advance ?_⟩
    rw [hr, hlit, he, Nat.add_sub_cancel_left, List.drop_left]
  · simp [fail] at h

/-- What the token reader accepts is the text of the token it gives. -/
theorem scanToken_sound {u : Bool} {s s' : Scanner} {tok : Token} (hc : s.Clean u)
    (h : (scanToken).run s = .ok tok s') : ∃ pre, TokenText u tok pre ∧ Read u s pre s' := by
  simp only [scanToken, EStateM.run_bind, EStateM.run_get] at h
  split at h
  · simp [fail] at h
  · next b tail hr =>
    split_ifs at h with h₁ h₂ h₃ h₄ h₅
    · simp at h
      obtain ⟨rfl, rfl⟩ := h
      subst h₁
      exact ⟨['['], .arrayStart, hc.advance (by rw [hr]; rfl)⟩
    · simp at h
      obtain ⟨rfl, rfl⟩ := h
      subst h₂
      exact ⟨['{'], .objectStart, hc.advance (by rw [hr]; rfl)⟩
    · -- a string
      subst h₃
      obtain ⟨text, s₁, hs, h⟩ := EStateM.run_bind_eq_ok.1 h
      simp at h
      obtain ⟨rfl, rfl⟩ := h
      obtain ⟨lit, str, hlit, htext, hread⟩ := scanString_sound hc hr hs
      exact ⟨lit, .scalar (v := .string (String.ofList str)) rfl
        (by simp [Token.erase, TreeSource.nodeToken, htext]) fun T => .string (hlit T), hread⟩
    · -- a number
      split at h
      · next x n hn =>
        simp at h
        obtain ⟨rfl, rfl⟩ := h
        rw [Lexeme.scanNumber_eq] at hn
        obtain ⟨⟨d, n'⟩, hdn, hx⟩ := Option.map_eq_some_iff.1 hn
        simp only [Prod.mk.injEq] at hx
        obtain ⟨rfl, rfl⟩ := hx
        obtain ⟨nc, hnc, hlit⟩ := Lexeme.number?_sound hdn
        exact ⟨nc, .scalar (v := .number d.toDouble) rfl rfl fun T => .number (hlit T),
          hc.advance hnc⟩
      · simp [fail] at h
    · -- a word
      split at h
      · next t n hl =>
        simp at h
        obtain ⟨rfl, rfl⟩ := h
        obtain ⟨v, word, hw, hv, ht, hword⟩ := Lexeme.literal_sound hl
        exact ⟨word, .scalar hv ht (hword u), hc.advance hw⟩
      · simp [fail] at h
    · simp [fail] at h

/-! ### Steps -/

/-! Recording where a token begins changes none of the fields a reading is seen through. -/

/-- Marking where a token begins keeps a scanner clean. -/
theorem Clean.withMark {u : Bool} {s : Scanner} (h : s.Clean u) : s.withMark.Clean u := h

/-- A reading from the marked scanner is a reading from the scanner. -/
theorem Read.of_withMark {u : Bool} {s s' : Scanner} {cs : List Char}
    (h : Read u s.withMark cs s') : Read u s cs s' := h

/-- A reading to a scanner is a reading to it marked. -/
theorem Read.withMark {u : Bool} {s s' : Scanner} {cs : List Char}
    (h : Read u s cs s') : Read u s cs s'.withMark := h

/-- The next token, with nothing put back: white space, then the text of the token. -/
theorem next_sound {u : Bool} {s s' : Scanner} {tok : Token} (hc : s.Clean u)
    (h : (next).run s = .ok tok s') :
    ∃ w pre, (∀ c ∈ w, isWs u c) ∧ TokenText u tok pre ∧ Read u s (w ++ pre) s' := by
  rw [next_clear hc.1] at h
  obtain ⟨w, hw, hskip⟩ := hc.skip
  obtain ⟨pre, htok, hread⟩ := scanToken_sound hskip.2.withMark h
  exact ⟨w, pre, hw, htok, hskip.trans hread.of_withMark⟩

/-- Taking the next value with no kind asked for is taking the next token. -/
theorem nextValue_sound {u : Bool} {s s' : Scanner} {tok : Token} (hc : s.Clean u)
    (h : (Source.nextValue none true : ScanM Token).run s = .ok tok s') :
    ∃ w pre, (∀ c ∈ w, isWs u c) ∧ TokenText u tok pre ∧ Read u s (w ++ pre) s' := by
  obtain ⟨t, s₁, hn, h⟩ := EStateM.run_bind_eq_ok.1 h
  simp [Token.check] at h
  obtain ⟨rfl, rfl⟩ := h
  exact next_sound hc hn

/-- Stepping inside an array: white space, then the closing bracket, a comma, or (right after
the opening bracket) nothing more. -/
theorem arrayNext_sound {u : Bool} {s s' : Scanner} {first more : Bool} (hc : s.Clean u)
    (h : (arrayNext first).run s = .ok more s') :
    ∃ w, (∀ c ∈ w, isWs u c) ∧
      (more = false ∧ Read u s (w ++ [']']) s' ∨
        more = true ∧ first = false ∧ Read u s (w ++ [',']) s' ∨
        more = true ∧ first = true ∧ Read u s w s') := by
  simp only [arrayNext, EStateM.run_bind, EStateM.run_get, hc.1, Option.isSome_none,
    Bool.false_eq_true, if_false, skipSpace_run, mark_run] at h
  obtain ⟨w, hw, hskip⟩ := hc.skip
  refine ⟨w, hw, ?_⟩
  split at h
  · simp [fail] at h
  · next b tail hr =>
    -- the byte after the white space: a closing bracket, a comma after an element, or a value
    -- right after the opening bracket, left unread
    split_ifs at h with h₁ h₂ h₃
    · simp at h
      obtain ⟨rfl, rfl⟩ := h
      subst h₁
      exact .inl ⟨rfl, hskip.withMark.trans (hskip.2.withMark.advance (by rw [hr]; rfl))⟩
    · simp at h
      obtain ⟨rfl, rfl⟩ := h
      obtain ⟨rfl, rfl⟩ := h₂
      exact .inr (.inl ⟨rfl, rfl,
        hskip.withMark.trans (hskip.2.withMark.advance (by rw [hr]; rfl))⟩)
    · simp at h
      obtain ⟨rfl, rfl⟩ := h
      exact .inr (.inr ⟨rfl, h₃, hskip.withMark⟩)
    · simp [fail] at h

/-- `cs` is the name of a member, denoting `k`, and the colon after it. -/
def MemberName (u : Bool) (cs : List Char) (k : String) : Prop :=
  ∃ lit str w, cs = lit ++ w ++ [':'] ∧ (∀ T, StrLit (lit ++ T) str T) ∧
    (∀ c ∈ w, isWs u c) ∧ k = String.ofList str

/-- A member's name and colon, white space, and a value make a member. -/
theorem MemberName.member {u : Bool} {pre Y cs₁ cs₂ : List Char} {k : String} {v : Value}
    (hname : MemberName u pre k) (hws : Ws u Y cs₁) (hel : Elem u cs₁ v cs₂) :
    Member u (pre ++ Y) k v cs₂ := by
  obtain ⟨lit, str, w, rfl, hlit, hw, rfl⟩ := hname
  simpa using Member.mk (hlit (w ++ ':' :: Y)) (Ws.blank hw (':' :: Y)) hws hel

/-- The colon after a member's name, with nothing put back: white space, then the colon. -/
theorem expectColon_sound {u : Bool} {s s' : Scanner} {name : Text} {r : Option Text}
    (hc : s.Clean u) (h : (expectColon name).run s = .ok r s') :
    r = some name ∧ ∃ w, (∀ c ∈ w, isWs u c) ∧ Read u s (w ++ [':']) s' := by
  simp only [expectColon, EStateM.run_bind, EStateM.run_get, skipSpace_run] at h
  obtain ⟨w, hw, hskip⟩ := hc.skip
  split at h
  · simp [fail] at h
  · next b tail hr =>
    split_ifs at h with h₁
    · simp at h
      obtain ⟨rfl, rfl⟩ := h
      subst h₁
      exact ⟨rfl, w, hw, hskip.trans (hskip.2.advance (by rw [hr]; rfl))⟩
    · simp [fail] at h

/-- A member's name, with nothing put back: what is read is the name's text in the grammar. -/
theorem propertyName_sound {u : Bool} {s s' : Scanner} {r : Option Text} (hc : s.Clean u)
    (h : (propertyName).run s = .ok r s') :
    ∃ text pre, r = some text ∧ MemberName u pre text.str ∧ Read u s pre s' := by
  simp only [propertyName, EStateM.run_bind, EStateM.run_get] at h
  split at h
  · simp [fail] at h
  · next b tail hr =>
    split_ifs at h with h₁
    · subst h₁
      obtain ⟨text, s₁, hs, h⟩ := EStateM.run_bind_eq_ok.1 h
      obtain ⟨lit, str, hlit, htext, hread⟩ := scanString_sound hc hr hs
      obtain ⟨rfl, w, hw, hread'⟩ := expectColon_sound hread.2 h
      refine ⟨text, lit ++ w ++ [':'], rfl, ⟨lit, str, w, rfl, hlit, hw, htext⟩, ?_⟩
      simpa [List.append_assoc] using hread.trans hread'
    · simp [fail] at h

/-- Stepping inside an object: white space, then the closing brace, or a member's name and colon
(after a comma unless right after the opening brace). -/
theorem objectNext_sound {u : Bool} {s s' : Scanner} {first : Bool} {r : Option Text}
    (hc : s.Clean u) (h : (objectNext first).run s = .ok r s') :
    ∃ w, (∀ c ∈ w, isWs u c) ∧
      (r = none ∧ Read u s (w ++ ['}']) s' ∨
        ∃ text pre, r = some text ∧ MemberName u pre text.str ∧
          (first = true ∧ Read u s (w ++ pre) s' ∨
            first = false ∧ ∃ w₁, (∀ c ∈ w₁, isWs u c) ∧ Read u s (w ++ ',' :: w₁ ++ pre) s')) := by
  simp only [objectNext, EStateM.run_bind, EStateM.run_get, hc.1, skipSpace_run,
    mark_run] at h
  obtain ⟨w, hw, hskip⟩ := hc.skip
  refine ⟨w, hw, ?_⟩
  split at h
  · simp [fail] at h
  · next b tail hr =>
    split_ifs at h with h₁ h₂ h₃
    · simp at h
      obtain ⟨rfl, rfl⟩ := h
      subst h₁
      exact .inl ⟨rfl, hskip.withMark.trans (hskip.2.withMark.advance (by rw [hr]; rfl))⟩
    · -- a comma, white space, and the next member's name
      obtain ⟨rfl, rfl⟩ := h₂
      simp only [skipSpace_run, EStateM.run_bind, EStateM.run_set] at h
      have hcomma : Read u (s.advance (Lexeme.spaceLength s.unicodeSpace s.rest)).withMark [',']
          ((s.advance (Lexeme.spaceLength s.unicodeSpace s.rest)).withMark.advance 1) :=
        hskip.2.withMark.advance (by rw [hr]; rfl)
      obtain ⟨w₁, hw₁, hskip₁⟩ := hcomma.2.skip
      obtain ⟨text, pre, rfl, hname, hread⟩ := propertyName_sound hskip₁.2 h
      refine .inr ⟨text, pre, rfl, hname, .inr ⟨rfl, w₁, hw₁, ?_⟩⟩
      simpa [List.append_assoc] using
        (hskip.withMark.trans hcomma).trans (hskip₁.trans hread)
    · obtain ⟨text, pre, rfl, hname, hread⟩ := propertyName_sound hskip.2.withMark h
      exact .inr ⟨text, pre, rfl, hname, .inl ⟨h₃, hskip.withMark.trans hread⟩⟩
    · simp [fail] at h

/-- Looking for the end steps over white space; the input has ended when nothing is left. -/
theorem isEof_sound {u : Bool} {s : Scanner} (hc : s.Clean u) :
    ∃ w, (∀ c ∈ w, isWs u c) ∧ Read u s w s.isEof.2 ∧ s.isEof.1 = s.isEof.2.rest.isEmpty := by
  obtain ⟨w, hw, hskip⟩ := hc.skip
  have he : s.isEof = ((s.advance (Lexeme.spaceLength s.unicodeSpace s.rest)).rest.isEmpty,
      s.advance (Lexeme.spaceLength s.unicodeSpace s.rest)) := by
    simp [isEof, hc.1]
  rw [he]
  exact ⟨w, hw, hskip, rfl⟩

end JsonCodec.Scanner
