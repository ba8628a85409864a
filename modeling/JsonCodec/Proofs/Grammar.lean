import JsonCodec.Number.Round
import JsonCodec.Tree.Source
import JsonCodec.Unicode.Space
import JsonCodec.Unicode.Utf16
import Mathlib

/-! # The grammar of JSON text

RFC 8259 over characters, with the value each derivation denotes. Every rule is written on a
list of characters and what is left after the phrase (`Ws cs t` says that `cs` is white space
followed by `t`), so rules chain without splitting lists.

* White space is JSON's four blanks, and with `unicode` every White_Space character as well.
* A number is `-? (0 | [1-9][0-9]*) (. [0-9]+)? ([eE] [+-]? [0-9]+)?` and denotes the `Decimal`
  it spells, read as a double by `Decimal.toDouble`.
* A string holds characters from U+0020 on other than quote and backslash, the short escapes,
  and `\u` escapes of a code point that is no surrogate, or of a high surrogate followed at once
  by an escaped low surrogate, which together name one character.
* An array denotes its elements in order, an object its members in order, duplicates included.

`Doc u cs v` says that `cs` is a JSON text, white space around one value, denoting `v`.
-/

namespace JsonCodec.Grammar

/-! ### White space -/

/-- Whether a character is white space between tokens. -/
def isWs (unicode : Bool) (c : Char) : Bool :=
  c = ' ' || c = '\t' || c = '\n' || c = '\r' || (unicode && Unicode.isSpace c)

/-- `cs` is white space followed by `t`. -/
inductive Ws (u : Bool) : List Char → List Char → Prop where
  | nil (t : List Char) : Ws u t t
  | cons {c : Char} {cs t : List Char} : isWs u c → Ws u cs t → Ws u (c :: cs) t

/-- `t` does not start with white space. -/
def NoWs (u : Bool) (t : List Char) : Prop := ∀ c t', t = c :: t' → isWs u c = false

/-- `t` does not go on with a word or a number: it is empty or starts with a character that is
neither a letter, a digit nor a point. -/
def WordEnd (t : List Char) : Prop := ∀ c t', t = c :: t' → c.isAlphanum = false ∧ c ≠ '.'

/-- A statement about every ASCII character, checked on their codes. -/
theorem ascii_all {P : Char → Prop} (h : ∀ n : Nat, n < 0x80 → P (Char.ofNat n)) :
    ∀ c : Char, c.toNat < 0x80 → P c := fun c hc => by
  have hp := h c.toNat hc
  rwa [Char.ofNat_toNat] at hp

/-- A prefix of blanks is white space. -/
theorem Ws.blank {u : Bool} {w : List Char} (hw : ∀ c ∈ w, isWs u c) (t : List Char) :
    Ws u (w ++ t) t := by
  induction w with
  | nil => exact .nil t
  | cons c w ih => exact .cons (hw c (by simp)) (ih fun x hx => hw x (by simp [hx]))

/-- White space followed by white space is white space. -/
theorem Ws.trans {u : Bool} {cs cs₁ cs₂ : List Char} (h₁ : Ws u cs cs₁) (h₂ : Ws u cs₁ cs₂) :
    Ws u cs cs₂ := by
  induction h₁ with
  | nil => exact h₂
  | cons hc _ ih => exact .cons hc (ih h₂)

/-! ### Numbers -/

/-- The value of a run of decimal digits. -/
def digitsValue (ds : List Char) : Nat := ds.foldl (fun n d => n * 10 + (d.toNat - '0'.toNat)) 0

/-- Reading digits on from `n` shifts `n` past them. -/
theorem foldl_digits (ds : List Char) (n : Nat) :
    ds.foldl (fun n d => n * 10 + (d.toNat - '0'.toNat)) n = n * 10 ^ ds.length + digitsValue ds := by
  induction ds generalizing n with
  | nil => simp [digitsValue]
  | cons d ds ih =>
    simp only [digitsValue, List.foldl_cons, List.length_cons] at ih ⊢
    rw [ih, ih (0 * 10 + _)]
    ring

/-- The digits of a concatenation: the first run shifted past the second. -/
theorem digitsValue_append (a b : List Char) :
    digitsValue (a ++ b) = digitsValue a * 10 ^ b.length + digitsValue b := by
  rw [digitsValue, List.foldl_append, foldl_digits]
  rfl

/-- The integer part: a lone zero, or a digit from one to nine and any digits after it. -/
def IntDigits (ints : List Char) : Prop :=
  ints = ['0'] ∨ ∃ d ds, ints = d :: ds ∧ '1' ≤ d ∧ d ≤ '9' ∧ ∀ x ∈ ds, x.isDigit

/-- The fraction: nothing, or a point and at least one digit; gives the digits. -/
inductive FracPart : List Char → List Char → Prop where
  | none : FracPart [] []
  | some {ds : List Char} : ds ≠ [] → (∀ x ∈ ds, x.isDigit) → FracPart ('.' :: ds) ds

/-- The exponent: nothing, or `e` or `E`, an optional sign and at least one digit; gives its
value. -/
inductive ExpPart : List Char → Int → Prop where
  | none : ExpPart [] 0
  | some {e : Char} {sign ds : List Char} {neg : Bool} : (e = 'e' ∨ e = 'E') →
      (sign = [] ∧ neg = false ∨ sign = ['+'] ∧ neg = false ∨ sign = ['-'] ∧ neg = true) →
      ds ≠ [] → (∀ x ∈ ds, x.isDigit) →
      ExpPart (e :: sign ++ ds) (if neg then -(digitsValue ds : Int) else digitsValue ds)

/-- A number, denoting the decimal it spells, followed by `t`. -/
inductive NumLit : List Char → Decimal → List Char → Prop where
  | mk {neg : Bool} {ints fp fracs ep t : List Char} {e : Int} :
      IntDigits ints → FracPart fp fracs → ExpPart ep e →
      NumLit ((if neg then ['-'] else []) ++ ints ++ fp ++ ep ++ t)
        ⟨neg, digitsValue (ints ++ fracs), e - fracs.length⟩ t

/-- The integer part of a number is digits. -/
theorem IntDigits.digits {ints : List Char} (h : IntDigits ints) : ∀ x ∈ ints, x.isDigit := by
  rcases h with rfl | ⟨d, ds, rfl, h₁, h₂, hds⟩
  · simp
  · have hd : 49 ≤ d.toNat ∧ d.toNat ≤ 57 := by
      simp only [Char.le_def, UInt32.le_iff_toNat_le] at h₁ h₂
      exact ⟨h₁, h₂⟩
    simp only [List.mem_cons, forall_eq_or_imp]
    refine ⟨?_, hds⟩
    simp only [Char.isDigit, Bool.and_eq_true, decide_eq_true_eq, UInt32.le_iff_toNat_le]
    exact ⟨by simp; omega, by simp; omega⟩

/-- The fraction part of a number, after its point, is digits. -/
theorem FracPart.digits {fp fracs : List Char} (h : FracPart fp fracs) : ∀ x ∈ fracs, x.isDigit := by
  cases h with
  | none => simp
  | some _ hds => exact hds

/-! ### Strings -/

/-- The character a short escape stands for, by the letter after the backslash. -/
def shortEscape : Char → Option Char
  | '"' => some '"'
  | '\\' => some '\\'
  | '/' => some '/'
  | 'b' => some '\x08'
  | 'f' => some '\x0c'
  | 'n' => some '\n'
  | 'r' => some '\r'
  | 't' => some '\t'
  | _ => none

/-- The value of a hex digit of either case. -/
def hexDigit? (c : Char) : Option Nat :=
  if '0' ≤ c ∧ c ≤ '9' then some (c.toNat - '0'.toNat)
  else if 'a' ≤ c ∧ c ≤ 'f' then some (c.toNat - 'a'.toNat + 10)
  else if 'A' ≤ c ∧ c ≤ 'F' then some (c.toNat - 'A'.toNat + 10)
  else none

/-- Four hex digits spelling the 16-bit unit `n`. -/
def Hex4 (a b c d : Char) (n : Nat) : Prop :=
  ∃ va vb vc vd, hexDigit? a = some va ∧ hexDigit? b = some vb ∧ hexDigit? c = some vc ∧
    hexDigit? d = some vd ∧ n = ((va * 16 + vb) * 16 + vc) * 16 + vd

/-- The body of a string after its opening quote, denoting the characters `s`, with `t` after
the closing quote. -/
inductive StrChars : List Char → List Char → List Char → Prop where
  | close (t : List Char) : StrChars ('"' :: t) [] t
  | plain {c : Char} {cs s t : List Char} : 0x20 ≤ c.toNat → c ≠ '"' → c ≠ '\\' →
      StrChars cs s t → StrChars (c :: cs) (c :: s) t
  | short {e c : Char} {cs s t : List Char} : shortEscape e = some c →
      StrChars cs s t → StrChars ('\\' :: e :: cs) (c :: s) t
  | unit {a b c d : Char} {n : Nat} {cs s t : List Char} : Hex4 a b c d n →
      Utf16.isHigh n = false → Utf16.isLow n = false → StrChars cs s t →
      StrChars ('\\' :: 'u' :: a :: b :: c :: d :: cs) (Char.ofNat n :: s) t
  | pair {a b c d a' b' c' d' : Char} {hi lo : Nat} {cs s t : List Char} :
      Hex4 a b c d hi → Hex4 a' b' c' d' lo → Utf16.isHigh hi → Utf16.isLow lo →
      StrChars cs s t →
      StrChars ('\\' :: 'u' :: a :: b :: c :: d :: '\\' :: 'u' :: a' :: b' :: c' :: d' :: cs)
        (Char.ofNat (Utf16.combine hi lo) :: s) t

/-- A string literal denoting the characters `s`, followed by `t`. -/
inductive StrLit : List Char → List Char → List Char → Prop where
  | mk {cs s t : List Char} : StrChars cs s t → StrLit ('"' :: cs) s t

/-! ### Values -/

mutual
/-- A value, with no white space around it, followed by `t`. -/
inductive Elem (u : Bool) : List Char → Value → List Char → Prop where
  | null (t : List Char) : Elem u ('n' :: 'u' :: 'l' :: 'l' :: t) .null t
  | true (t : List Char) : Elem u ('t' :: 'r' :: 'u' :: 'e' :: t) (.bool true) t
  | false (t : List Char) : Elem u ('f' :: 'a' :: 'l' :: 's' :: 'e' :: t) (.bool false) t
  | number {cs t : List Char} {d : Decimal} : NumLit cs d t → Elem u cs (.number d.toDouble) t
  | string {cs s t : List Char} : StrLit cs s t → Elem u cs (.string (String.ofList s)) t
  | array {cs t : List Char} {vs : List Value} : ArrBody u cs vs t → Elem u ('[' :: cs) (.array vs) t
  | object {cs t : List Char} {ms : List (String × Value)} :
      ObjBody u cs ms t → Elem u ('{' :: cs) (.object ms) t

/-- What follows the opening bracket of an array holding `vs`, up to and with the closing
bracket. -/
inductive ArrBody (u : Bool) : List Char → List Value → List Char → Prop where
  | empty {cs t : List Char} : Ws u cs (']' :: t) → ArrBody u cs [] t
  | items {cs cs₁ cs₂ t : List Char} {v : Value} {vs : List Value} :
      Ws u cs cs₁ → Elem u cs₁ v cs₂ → ArrTail u cs₂ vs t → ArrBody u cs (v :: vs) t

/-- What follows an element of an array when `vs` are still to come. -/
inductive ArrTail (u : Bool) : List Char → List Value → List Char → Prop where
  | close {cs t : List Char} : Ws u cs (']' :: t) → ArrTail u cs [] t
  | next {cs cs₁ cs₂ cs₃ t : List Char} {v : Value} {vs : List Value} :
      Ws u cs (',' :: cs₁) → Ws u cs₁ cs₂ → Elem u cs₂ v cs₃ → ArrTail u cs₃ vs t →
      ArrTail u cs (v :: vs) t

/-- What follows the opening brace of an object holding `ms`, up to and with the closing
brace. -/
inductive ObjBody (u : Bool) : List Char → List (String × Value) → List Char → Prop where
  | empty {cs t : List Char} : Ws u cs ('}' :: t) → ObjBody u cs [] t
  | members {cs cs₁ cs₂ t : List Char} {k : String} {v : Value} {ms : List (String × Value)} :
      Ws u cs cs₁ → Member u cs₁ k v cs₂ → ObjTail u cs₂ ms t → ObjBody u cs ((k, v) :: ms) t

/-- What follows a member of an object when `ms` are still to come. -/
inductive ObjTail (u : Bool) : List Char → List (String × Value) → List Char → Prop where
  | close {cs t : List Char} : Ws u cs ('}' :: t) → ObjTail u cs [] t
  | next {cs cs₁ cs₂ cs₃ t : List Char} {k : String} {v : Value} {ms : List (String × Value)} :
      Ws u cs (',' :: cs₁) → Ws u cs₁ cs₂ → Member u cs₂ k v cs₃ → ObjTail u cs₃ ms t →
      ObjTail u cs ((k, v) :: ms) t

/-- A member: its name, a colon and its value. -/
inductive Member (u : Bool) : List Char → String → Value → List Char → Prop where
  | mk {cs cs₁ cs₂ cs₃ t name : List Char} {v : Value} :
      StrLit cs name cs₁ → Ws u cs₁ (':' :: cs₂) → Ws u cs₂ cs₃ → Elem u cs₃ v t →
      Member u cs (String.ofList name) v t
end

/-- `cs` is a JSON text denoting `v`: one value with white space around it. -/
def Doc (u : Bool) (cs : List Char) (v : Value) : Prop :=
  ∃ cs₁ cs₂, Ws u cs cs₁ ∧ Elem u cs₁ v cs₂ ∧ Ws u cs₂ []

/-! ### Sizes

Every node of a value takes at least one character of its text. -/

/-- White space leaves no more than it was given. -/
theorem Ws.length_le {u : Bool} {cs t : List Char} (h : Ws u cs t) : t.length ≤ cs.length := by
  induction h with
  | nil => exact Nat.le_refl _
  | cons _ _ ih => simp only [List.length_cons]; omega

/-- The body of a string takes at least its closing quote. -/
theorem StrChars.length_lt {cs s t : List Char} (h : StrChars cs s t) : t.length < cs.length := by
  induction h <;> simp_all <;> omega

/-- A number takes at least one character. -/
theorem NumLit.length_lt {cs t : List Char} {d : Decimal} (h : NumLit cs d t) : t.length < cs.length := by
  cases h with
  | mk hi _ _ =>
    rcases hi with rfl | ⟨d, ds, rfl, -⟩ <;> simp <;> omega

/-- A string literal takes at least its two quotes. -/
theorem StrLit.length_lt {cs s t : List Char} (h : StrLit cs s t) : t.length < cs.length := by
  cases h with
  | mk h => have := h.length_lt; simp only [List.length_cons]; omega

mutual
/-- A value takes at least one character for each of its nodes. -/
theorem Elem.size_le {u : Bool} {cs t : List Char} {v : Value} :
    Elem u cs v t → v.size + t.length ≤ cs.length
  | .null _ | .true _ | .false _ => by simp only [Value.size, List.length_cons]; omega
  | .number h => by simp only [Value.size]; have := h.length_lt; omega
  | .string h => by simp only [Value.size]; have := h.length_lt; omega
  | .array h => by simp only [Value.size, List.length_cons]; have := ArrBody.size_le h; omega
  | .object h => by simp only [Value.size, List.length_cons]; have := ObjBody.size_le h; omega

/-- The elements of an array, with its closing bracket, take more characters than they have
nodes. -/
theorem ArrBody.size_le {u : Bool} {cs t : List Char} {vs : List Value} :
    ArrBody u cs vs t → Value.itemsSize vs + t.length < cs.length
  | .empty h => by have := h.length_le; simp [Value.itemsSize] at *; omega
  | .items h₁ h₂ h₃ => by
    have := h₁.length_le
    have := Elem.size_le h₂
    have := ArrTail.size_le h₃
    simp only [Value.itemsSize]
    omega

/-- The elements after an array's first, with its closing bracket, take more characters than they
have nodes. -/
theorem ArrTail.size_le {u : Bool} {cs t : List Char} {vs : List Value} :
    ArrTail u cs vs t → Value.itemsSize vs + t.length < cs.length
  | .close h => by have := h.length_le; simp [Value.itemsSize] at *; omega
  | .next h₁ h₂ h₃ h₄ => by
    have := h₁.length_le
    have := h₂.length_le
    have := Elem.size_le h₃
    have := ArrTail.size_le h₄
    simp only [Value.itemsSize, List.length_cons] at *
    omega

/-- The members of an object, with its closing brace, take more characters than their values have
nodes. -/
theorem ObjBody.size_le {u : Bool} {cs t : List Char} {ms : List (String × Value)} :
    ObjBody u cs ms t → Value.membersSize ms + t.length < cs.length
  | .empty h => by have := h.length_le; simp [Value.membersSize] at *; omega
  | .members h₁ h₂ h₃ => by
    have := h₁.length_le
    have := Member.size_le h₂
    have := ObjTail.size_le h₃
    simp only [Value.membersSize]
    omega

/-- The members after an object's first, with its closing brace, take more characters than their
values have nodes. -/
theorem ObjTail.size_le {u : Bool} {cs t : List Char} {ms : List (String × Value)} :
    ObjTail u cs ms t → Value.membersSize ms + t.length < cs.length
  | .close h => by have := h.length_le; simp [Value.membersSize] at *; omega
  | .next h₁ h₂ h₃ h₄ => by
    have := h₁.length_le
    have := h₂.length_le
    have := Member.size_le h₃
    have := ObjTail.size_le h₄
    simp only [Value.membersSize, List.length_cons] at *
    omega

/-- A member takes at least one character for each node of its value. -/
theorem Member.size_le {u : Bool} {cs t : List Char} {k : String} {v : Value} :
    Member u cs k v t → v.size + t.length ≤ cs.length
  | .mk h₁ h₂ h₃ h₄ => by
    have := h₁.length_lt
    have := h₂.length_le
    have := h₃.length_le
    have := Elem.size_le h₄
    simp only [List.length_cons] at *
    omega
end


/-! ### First characters

A value starts with a character that is no white space and that no word or number goes on with
(a letter, a digit or a point); every white space character is of that kind as well, and so is
every character that closes or separates. -/

/-- The characters a value can start with. -/
def startsValue (c : Char) : Bool :=
  c = 'n' || c = 't' || c = 'f' || c = '"' || c = '[' || c = '{' || c = '-' || c.isDigit

/-- A decimal digit is ASCII. -/
theorem digit_lt {c : Char} (h : c.isDigit) : c.toNat < 0x80 := by
  simp only [Char.isDigit, Bool.and_eq_true, decide_eq_true_eq, UInt32.le_iff_toNat_le] at h
  exact Nat.lt_of_le_of_lt h.2 (by decide)

/-- Every character that starts a value is ASCII. -/
theorem startsValue_lt {c : Char} (h : startsValue c) : c.toNat < 0x80 := by
  simp only [startsValue, Bool.or_eq_true, decide_eq_true_eq] at h
  rcases h with ((((((h | h) | h) | h) | h) | h) | h) | h
  all_goals first | (subst h; decide) | exact digit_lt h

/-- JSON's blanks are white space under either choice of white space. -/
theorem isWs_le {u : Bool} {c : Char} (h : isWs u c) : isWs true c := by
  cases u with
  | true => exact h
  | false =>
    unfold isWs at h ⊢
    simp only [Bool.false_and, Bool.or_false] at h
    simp [h]

/-- No ASCII character that starts a value is white space, of either kind. -/
theorem isWs_ascii : ∀ c : Char, c.toNat < 0x80 → startsValue c → isWs true c = false :=
  ascii_all (by decide)

/-- A character that starts a value is not white space. -/
theorem isWs_startsValue {u : Bool} {c : Char} (h : startsValue c) : isWs u c = false := by
  cases hw : isWs u c
  · rfl
  · have := isWs_ascii c (startsValue_lt h) h
    rw [isWs_le hw] at this
    exact absurd this (by decide)

/-- A text that starts with a value does not start with white space. -/
theorem noWs_of_startsValue {u : Bool} {c : Char} (hc : startsValue c) (t : List Char) :
    NoWs u (c :: t) := by
  intro c' t' he
  simp only [List.cons.injEq] at he
  rw [← he.1]
  exact isWs_startsValue hc

/-- A number starts with its minus sign or a digit. -/
theorem NumLit.head {cs t : List Char} {d : Decimal} (h : NumLit cs d t) :
    ∃ c rest, cs = c :: rest ∧ (c = '-' ∨ c.isDigit) := by
  cases h with
  | @mk neg ints fp fracs ep t e hi _ _ =>
    cases neg
    · obtain ⟨c, rest, hc⟩ : ∃ c rest, ints = c :: rest := by
        rcases hi with rfl | ⟨d, ds, rfl, -⟩
        · exact ⟨_, _, rfl⟩
        · exact ⟨_, _, rfl⟩
      exact ⟨c, rest ++ fp ++ ep ++ t, by simp [hc], Or.inr (hi.digits c (by simp [hc]))⟩
    · exact ⟨'-', _, rfl, Or.inl rfl⟩

/-- A value starts with a character that starts values. -/
theorem Elem.head {u : Bool} {cs t : List Char} {v : Value} (h : Elem u cs v t) :
    ∃ c rest, cs = c :: rest ∧ startsValue c := by
  cases h with
  | null => exact ⟨_, _, rfl, rfl⟩
  | true => exact ⟨_, _, rfl, rfl⟩
  | false => exact ⟨_, _, rfl, rfl⟩
  | number h =>
    obtain ⟨c, rest, rfl, hc⟩ := h.head
    refine ⟨c, rest, rfl, ?_⟩
    rcases hc with rfl | hc
    · rfl
    · simp [startsValue, hc]
  | string h => cases h; exact ⟨_, _, rfl, rfl⟩
  | array => exact ⟨_, _, rfl, rfl⟩
  | object => exact ⟨_, _, rfl, rfl⟩

/-- A value does not start with white space. -/
theorem Elem.noWs {u u' : Bool} {cs t : List Char} {v : Value} (h : Elem u cs v t) : NoWs u' cs := by
  obtain ⟨c, rest, rfl, hc⟩ := h.head
  exact noWs_of_startsValue hc rest

/-- No ASCII white space goes on with a word or a number. -/
theorem wordEnd_ascii : ∀ c : Char, c.toNat < 0x80 → isWs true c →
    c.isAlphanum = false ∧ c ≠ '.' :=
  ascii_all (by decide)

/-- No character above ASCII is a letter or a digit, as `Char.isAlphanum` counts them. -/
theorem isAlphanum_of_ge {c : Char} (h : 0x80 ≤ c.toNat) : c.isAlphanum = false := by
  have h' : 0x80 ≤ c.val.toNat := h
  simp [Char.isAlphanum, Char.isAlpha, Char.isUpper, Char.isLower, Char.isDigit,
    UInt32.le_iff_toNat_le]
  omega

/-- No white space goes on with a word or a number. -/
theorem isWs_wordEnd {u : Bool} {c : Char} (h : isWs u c) : c.isAlphanum = false ∧ c ≠ '.' := by
  by_cases hc : c.toNat < 0x80
  · exact wordEnd_ascii c hc (isWs_le h)
  · refine ⟨isAlphanum_of_ge (by omega), ?_⟩
    rintro rfl
    exact hc (by decide)

/-- White space in front of a word's end keeps it one: blanks end words too. -/
theorem Ws.wordEnd {u : Bool} {cs t : List Char} (h : Ws u cs t) (ht : WordEnd t) : WordEnd cs := by
  cases h with
  | nil => exact ht
  | cons hc _ =>
    intro c t' he
    simp only [List.cons.injEq] at he
    rw [← he.1]
    exact isWs_wordEnd hc

/-- A closing bracket or brace, or a comma, ends a word or a number. -/
theorem wordEnd_of_closing {c : Char} {t : List Char} (hc : c = ']' ∨ c = '}' ∨ c = ',') :
    WordEnd (c :: t) := by
  intro c' t' he
  simp only [List.cons.injEq] at he
  rw [← he.1]
  rcases hc with rfl | rfl | rfl <;> decide

/-- What follows an array's element ends a word or a number. -/
theorem ArrTail.wordEnd {u : Bool} {cs t : List Char} {vs : List Value} (h : ArrTail u cs vs t) :
    WordEnd cs := by
  cases h with
  | close hw => exact hw.wordEnd (wordEnd_of_closing (Or.inl rfl))
  | next hw _ _ _ => exact hw.wordEnd (wordEnd_of_closing (Or.inr (Or.inr rfl)))

/-- What follows an object's member ends a word or a number. -/
theorem ObjTail.wordEnd {u : Bool} {cs t : List Char} {ms : List (String × Value)}
    (h : ObjTail u cs ms t) : WordEnd cs := by
  cases h with
  | close hw => exact hw.wordEnd (wordEnd_of_closing (Or.inr (Or.inl rfl)))
  | next hw _ _ _ => exact hw.wordEnd (wordEnd_of_closing (Or.inr (Or.inr rfl)))

/-! ### White space before a token

Whatever white space a rule allows before its first token can be taken off: the rule still
derives what is left, which starts with a token. -/

/-- Punctuation after a value or a name is not white space. -/
theorem noWs_of_punct {u : Bool} {c : Char} {t : List Char}
    (hc : c = ']' ∨ c = '}' ∨ c = ',' ∨ c = ':') : NoWs u (c :: t) := by
  intro c' t' he
  simp only [List.cons.injEq] at he
  rw [← he.1]
  apply Bool.eq_false_iff.mpr
  intro hw
  have := isWs_le hw
  rcases hc with rfl | rfl | rfl | rfl <;> exact absurd this (by decide)

/-- The elements of an array start after its white space, at a character that is none. -/
theorem ArrBody.strip {u : Bool} {cs t : List Char} {vs : List Value} (h : ArrBody u cs vs t) :
    ∃ cs', Ws u cs cs' ∧ NoWs u cs' ∧ cs' ≠ [] ∧ ArrBody u cs' vs t := by
  cases h with
  | empty hw => exact ⟨_, hw, noWs_of_punct (Or.inl rfl), by simp, .empty (.nil _)⟩
  | items hw he ht =>
    obtain ⟨c, rest, hcs, -⟩ := he.head
    exact ⟨_, hw, he.noWs, by simp [hcs], .items (.nil _) he ht⟩

/-- What follows an array's element starts after its white space, at a character that is none. -/
theorem ArrTail.strip {u : Bool} {cs t : List Char} {vs : List Value} (h : ArrTail u cs vs t) :
    ∃ cs', Ws u cs cs' ∧ NoWs u cs' ∧ cs' ≠ [] ∧ ArrTail u cs' vs t := by
  cases h with
  | close hw => exact ⟨_, hw, noWs_of_punct (Or.inl rfl), by simp, .close (.nil _)⟩
  | next hw h₁ h₂ h₃ =>
    exact ⟨_, hw, noWs_of_punct (Or.inr (Or.inr (Or.inl rfl))), by simp, .next (.nil _) h₁ h₂ h₃⟩

/-- A member starts with the quote of its name. -/
theorem Member.head {u : Bool} {cs t : List Char} {k : String} {v : Value}
    (h : Member u cs k v t) : ∃ rest, cs = '"' :: rest := by
  cases h with
  | mk hs _ _ _ => cases hs; exact ⟨_, rfl⟩

/-- The members of an object start after its white space, at a character that is none. -/
theorem ObjBody.strip {u : Bool} {cs t : List Char} {ms : List (String × Value)}
    (h : ObjBody u cs ms t) : ∃ cs', Ws u cs cs' ∧ NoWs u cs' ∧ cs' ≠ [] ∧ ObjBody u cs' ms t := by
  cases h with
  | empty hw => exact ⟨_, hw, noWs_of_punct (Or.inr (Or.inl rfl)), by simp, .empty (.nil _)⟩
  | members hw hm ht =>
    obtain ⟨rest, rfl⟩ := hm.head
    exact ⟨_, hw, noWs_of_startsValue (c := '"') rfl rest, by simp, .members (.nil _) hm ht⟩

/-- What follows an object's member starts after its white space, at a character that is none. -/
theorem ObjTail.strip {u : Bool} {cs t : List Char} {ms : List (String × Value)}
    (h : ObjTail u cs ms t) : ∃ cs', Ws u cs cs' ∧ NoWs u cs' ∧ cs' ≠ [] ∧ ObjTail u cs' ms t := by
  cases h with
  | close hw => exact ⟨_, hw, noWs_of_punct (Or.inr (Or.inl rfl)), by simp, .close (.nil _)⟩
  | next hw h₁ h₂ h₃ =>
    exact ⟨_, hw, noWs_of_punct (Or.inr (Or.inr (Or.inl rfl))), by simp, .next (.nil _) h₁ h₂ h₃⟩

end JsonCodec.Grammar
