import JsonCodec.Proofs.Scanner.Lexed

/-! # Unicode escapes

`Escape.unicode` reads the `\u` escape whose backslash stands at offset `off`, from the bytes
`after` that follow the `u`. It is a decoder of UTF-16 units: four hex digits of either case spell
a unit, a unit outside the surrogates is the character of that code, and a high surrogate must be
followed at once by a second `\u` escape spelling a low surrogate, the two naming one character
above U+FFFF. The answer is the character with the number of bytes of `after` it takes (four, or
ten for a pair), or a fault with the offset it refers to.

`UnicodeEscape after off r` lists what may come of it, one case per outcome, the faults in the
order the checks are made, and `unicode_eq_iff` says that the decoder gives exactly that. A group
of four digits either spells its unit (`Spells`) or fails at its first byte that is missing or no
hex digit (`BadGroup`), as its own bytes say (`hex4_eq_ok_iff`, `hex4_eq_error_iff`).
-/

namespace JsonCodec.Escape

open Grammar

/-! ### Groups of four digits -/

/-- A byte is read as a hex digit when its character is one for the grammar. -/
theorem hexValue?_eq_hexDigit? (b : UInt8) : hexValue? b = hexDigit? (Char.ofNat b.toNat) := by
  by_cases hb : b.toNat < 0x80
  · have hc : (Char.ofNat b.toNat).toNat = b.toNat := Utf8.toNat_ofNat_of_valid (Or.inl (by omega))
    have h := StringLiteral.hexValue?_ascii (Char.ofNat b.toNat) (by omega)
    rwa [hc, UInt8.ofNat_toNat] at h
  · -- no byte from 0x80 up is a digit or a letter from `a` to `f`
    have hc : (Char.ofNat b.toNat).val.toNat = b.toNat :=
      Utf8.toNat_ofNat_of_valid (Or.inl (by have := b.toNat_lt; omega))
    simp only [hexValue?, hexDigit?, UInt8.le_iff_toNat_le, Char.le_def, UInt32.le_iff_toNat_le, hc]
    rw [if_neg (by simp; omega), if_neg (by simp; omega), if_neg (by simp; omega),
      if_neg (by simp; omega), if_neg (by simp; omega), if_neg (by simp; omega)]

/-- Whether a byte, read as a character, is a hex digit. -/
def IsHex (b : UInt8) : Prop := (hexDigit? (Char.ofNat b.toNat)).isSome

/-- The bytes begin with four hex digits of either case spelling the unit `u`, most significant
first. -/
def Spells (bs : List UInt8) (u : Nat) : Prop :=
  ∃ a b c d rest, bs = a :: b :: c :: d :: rest ∧
    Hex4 (Char.ofNat a.toNat) (Char.ofNat b.toNat) (Char.ofNat c.toNat) (Char.ofNat d.toNat) u

/-- Reading four hex digits from the front of `bs`, the first at offset `off`, fails with `e` at
the first byte that is missing or is no hex digit: an unterminated string, or the byte shown as
the character of its code. -/
def BadGroup (bs : List UInt8) (off : Nat) (e : SyntaxFault × Nat) : Prop :=
  ∃ pre rest, bs = pre ++ rest ∧ pre.length < 4 ∧ (∀ b ∈ pre, IsHex b) ∧
    ((rest = [] ∧ e = (.unterminatedString, off + pre.length)) ∨
      ∃ b r, rest = b :: r ∧ ¬ IsHex b ∧
        e = (.invalidUnicodeEscapeChar (Char.ofNat b.toNat), off + pre.length))

/-- A byte is a hex digit exactly when the digit reader gives it a value. -/
theorem isHex_iff (b : UInt8) : IsHex b ↔ ∃ d, hexValue? b = some d := by
  rw [IsHex, hexValue?_eq_hexDigit?, Option.isSome_iff_exists]

/-- Reading `n` digits fails exactly at the first of them that is missing or no hex digit. -/
theorem hexDigits_eq_error_iff (n : Nat) (acc off : Nat) (bs : List UInt8) (e : SyntaxFault × Nat) :
    hexDigits acc off n bs = .error e ↔
      ∃ pre rest, bs = pre ++ rest ∧ pre.length < n ∧ (∀ b ∈ pre, IsHex b) ∧
        ((rest = [] ∧ e = (.unterminatedString, off + pre.length)) ∨
          ∃ b r, rest = b :: r ∧ ¬ IsHex b ∧
            e = (.invalidUnicodeEscapeChar (Char.ofNat b.toNat), off + pre.length)) := by
  induction n generalizing acc off bs with
  | zero => simp [hexDigits]
  | succ n ih =>
    cases bs with
    | nil =>
      -- the missing byte is the first one
      simp only [hexDigits, Except.error.injEq, List.nil_eq_append_iff]
      constructor
      · rintro rfl
        exact ⟨[], [], ⟨rfl, rfl⟩, by simp, by simp, .inl ⟨rfl, by simp⟩⟩
      · rintro ⟨pre, rest, ⟨rfl, rfl⟩, -, -, ⟨-, rfl⟩ | ⟨b, r, h, -⟩⟩
        · simp
        · cases h
    | cons b r =>
      cases hb : hexValue? b with
      | none =>
        -- the first byte is no digit
        have hx : ¬ IsHex b := by simp [isHex_iff, hb]
        simp only [hexDigits, hb, Except.error.injEq]
        constructor
        · rintro rfl
          exact ⟨[], b :: r, rfl, by simp, by simp, .inr ⟨b, r, rfl, hx, by simp⟩⟩
        · rintro ⟨pre, rest, hbs, -, hpre, hend⟩
          cases pre with
          | nil =>
            simp only [List.nil_append] at hbs
            subst hbs
            rcases hend with ⟨h, -⟩ | ⟨b', r', h, -, rfl⟩
            · cases h
            · simp_all
          | cons b' pre => simp_all
      | some d =>
        -- the first byte is a digit: the fault is among the rest, one place on
        have hx : IsHex b := (isHex_iff b).2 ⟨d, hb⟩
        simp only [hexDigits, hb, ih]
        constructor
        · rintro ⟨pre, rest, rfl, hlen, hpre, hend⟩
          refine ⟨b :: pre, rest, rfl, by simp; omega, List.forall_mem_cons.2 ⟨hx, hpre⟩, ?_⟩
          simpa [Nat.add_assoc, Nat.add_comm 1] using hend
        · rintro ⟨pre, rest, hbs, hlen, hpre, hend⟩
          cases pre with
          | nil =>
            simp only [List.nil_append] at hbs
            subst hbs
            rcases hend with ⟨h, -⟩ | ⟨b', r', h, hb', -⟩
            · cases h
            · simp only [List.cons.injEq] at h
              exact absurd (h.1 ▸ hx) hb'
          | cons b' pre =>
            simp only [List.cons_append, List.cons.injEq] at hbs
            obtain ⟨rfl, rfl⟩ := hbs
            refine ⟨pre, rest, rfl, by simp at hlen; omega, fun x hx => hpre x (by simp [hx]), ?_⟩
            simpa [Nat.add_assoc, Nat.add_comm 1] using hend

/-- Four hex digits fail to read exactly at the first byte that is missing or no digit. -/
theorem hex4_eq_error_iff (bs : List UInt8) (off : Nat) (e : SyntaxFault × Nat) :
    hex4 bs off = .error e ↔ BadGroup bs off e :=
  hexDigits_eq_error_iff 4 0 off bs e

/-- Four hex digits read as the unit they spell, and only then. -/
theorem hex4_eq_ok_iff (bs : List UInt8) (off u : Nat) : hex4 bs off = .ok u ↔ Spells bs u := by
  constructor
  · intro h
    obtain ⟨a, r₁, va, rfl, ha, h⟩ := StringLiteral.hexDigits_succ h
    obtain ⟨b, r₂, vb, rfl, hb, h⟩ := StringLiteral.hexDigits_succ h
    obtain ⟨c, r₃, vc, rfl, hc, h⟩ := StringLiteral.hexDigits_succ h
    obtain ⟨d, rest, vd, rfl, hd, h⟩ := StringLiteral.hexDigits_succ h
    rw [hexValue?_eq_hexDigit?] at ha hb hc hd
    simp only [hexDigits, Except.ok.injEq] at h
    exact ⟨a, b, c, d, rest, rfl, va, vb, vc, vd, ha, hb, hc, hd, by omega⟩
  · rintro ⟨a, b, c, d, rest, rfl, va, vb, vc, vd, ha, hb, hc, hd, rfl⟩
    rw [← hexValue?_eq_hexDigit?] at ha hb hc hd
    simp [hex4, hexDigits, ha, hb, hc, hd]

/-! ### The escape -/

/-- What reading the `\u` escape whose backslash is at `off` may come to, from the bytes `after`
that follow the `u`: a character with the number of bytes of `after` it takes, or a fault with the
offset it refers to. The faults are listed in the order the checks are made. -/
inductive UnicodeEscape (after : List UInt8) (off : Nat) :
    Except (SyntaxFault × Nat) (Char × Nat) → Prop where
  /-- A unit outside the surrogates is the character of that code. -/
  | unit {u : Nat} {c : Char} : Spells after u → (u < 0xD800 ∨ 0xDFFF < u) → c.toNat = u →
      UnicodeEscape after off (.ok (c, 4))
  /-- A high surrogate and a low one in the escape right after it name one character. -/
  | pair {h l : Nat} {c : Char} : Spells after h → 0xD800 ≤ h → h ≤ 0xDBFF →
      (after.drop 4).take 2 = [0x5C, 0x75] → Spells (after.drop 6) l → 0xDC00 ≤ l → l ≤ 0xDFFF →
      c.toNat = 0x10000 + (h - 0xD800) * 0x400 + (l - 0xDC00) →
      UnicodeEscape after off (.ok (c, 10))
  /-- The first group of digits is cut short or holds a byte that is no hex digit. -/
  | badFirst {e : SyntaxFault × Nat} : BadGroup after (off + 2) e →
      UnicodeEscape after off (.error e)
  /-- A high surrogate whose next two bytes are not a backslash and a `u`, reported at the
  backslash. -/
  | loneHigh {h : Nat} : Spells after h → 0xD800 ≤ h → h ≤ 0xDBFF →
      (after.drop 4).take 2 ≠ [0x5C, 0x75] →
      UnicodeEscape after off (.error (.invalidUnicodeEscape h, off))
  /-- After a high surrogate, the second group of digits is cut short or holds a byte that is no
  hex digit. -/
  | badSecond {h : Nat} {e : SyntaxFault × Nat} : Spells after h → 0xD800 ≤ h → h ≤ 0xDBFF →
      (after.drop 4).take 2 = [0x5C, 0x75] → BadGroup (after.drop 6) (off + 8) e →
      UnicodeEscape after off (.error e)
  /-- After a high surrogate, a second escape that is no low surrogate, reported at its
  backslash. -/
  | notLow {h l : Nat} : Spells after h → 0xD800 ≤ h → h ≤ 0xDBFF →
      (after.drop 4).take 2 = [0x5C, 0x75] → Spells (after.drop 6) l → (l < 0xDC00 ∨ 0xDFFF < l) →
      UnicodeEscape after off (.error (.invalidUnicodeEscape l, off + 6))
  /-- A low surrogate with no high one before it, reported at the backslash. -/
  | loneLow {u : Nat} : Spells after u → 0xDC00 ≤ u → u ≤ 0xDFFF →
      UnicodeEscape after off (.error (.invalidUnicodeEscape u, off))

/-- The value of a hex digit is below 16. -/
theorem hexDigit?_lt_sixteen {c : Char} {v : Nat} (h : hexDigit? c = some v) : v < 16 := by
  have hv : ∀ c : Char, c.toNat < 0x80 → (hexDigit? c).getD 0 < 16 := ascii_all (by decide)
  simpa [h] using hv c (StringLiteral.hexDigit?_lt h)

/-- Four hex digits spell a unit below 0x10000. -/
theorem Spells.lt {bs : List UInt8} {u : Nat} (h : Spells bs u) : u < 0x10000 := by
  obtain ⟨_, _, _, _, _, -, va, vb, vc, vd, ha, hb, hc, hd, rfl⟩ := h
  have := hexDigit?_lt_sixteen ha
  have := hexDigit?_lt_sixteen hb
  have := hexDigit?_lt_sixteen hc
  have := hexDigit?_lt_sixteen hd
  omega

/-- A unit outside the surrogates is the code of a character. -/
theorem isValidChar_of_unit {u : Nat} (hr : u < 0xD800 ∨ 0xDFFF < u) (h : u < 0x10000) :
    u.isValidChar := by
  rcases hr with hr | hr
  · exact Or.inl hr
  · exact Or.inr ⟨hr, by omega⟩

/-- Whatever the decoder gives is an outcome the escape allows. -/
theorem unicodeEscape_unicode (after : List UInt8) (off : Nat) :
    UnicodeEscape after off (unicode after off) := by
  cases h₁ : hex4 after (off + 2) with
  | error e =>
    have he : unicode after off = .error e := by simp [unicode, h₁, bind, Except.bind]
    exact he ▸ .badFirst ((hex4_eq_error_iff _ _ _).1 h₁)
  | ok u =>
    have hu := (hex4_eq_ok_iff _ _ _).1 h₁
    simp only [unicode, h₁, bind, Except.bind, throw, throwThe, MonadExceptOf.throw, pure,
      Except.pure]
    by_cases hh : Utf16.isHigh u
    · -- a high surrogate: the escape of a low one must follow at once
      have hr : 0xD800 ≤ u ∧ u ≤ 0xDBFF := by simpa [Utf16.isHigh] using hh
      rw [if_pos hh]
      by_cases hp : (after.drop 4).take 2 = [0x5C, 0x75]
      · rw [if_neg (not_not.2 hp)]
        cases h₂ : hex4 (after.drop 6) (off + 8) with
        | error e => exact .badSecond hu hr.1 hr.2 hp ((hex4_eq_error_iff _ _ _).1 h₂)
        | ok l =>
          have hl := (hex4_eq_ok_iff _ _ _).1 h₂
          by_cases hlow : Utf16.isLow l
          · have hr' : 0xDC00 ≤ l ∧ l ≤ 0xDFFF := by simpa [Utf16.isLow] using hlow
            -- the pair names a character above U+FFFF
            have hc : Utf16.combine u l = 0x10000 + (u - 0xD800) * 0x400 + (l - 0xDC00) := rfl
            have hv : (Utf16.combine u l).isValidChar := by
              have := hl.lt
              exact Or.inr ⟨by rw [hc]; omega, by rw [hc]; omega⟩
            simp only [hlow, Bool.not_true, Bool.false_eq_true, if_false]
            exact .pair hu hr.1 hr.2 hp hl hr'.1 hr'.2 (hc ▸ Utf8.toNat_ofNat_of_valid hv)
          · have hr' : l < 0xDC00 ∨ 0xDFFF < l := by simp [Utf16.isLow] at hlow; omega
            simp only [hlow, Bool.not_false, if_true]
            exact .notLow hu hr.1 hr.2 hp hl hr'
      · rw [if_pos hp]
        exact .loneHigh hu hr.1 hr.2 hp
    · rw [if_neg hh]
      by_cases hlow : Utf16.isLow u
      · have hr : 0xDC00 ≤ u ∧ u ≤ 0xDFFF := by simpa [Utf16.isLow] using hlow
        rw [if_pos hlow]
        exact .loneLow hu hr.1 hr.2
      · -- no surrogate: the character of that code
        have hr : u < 0xD800 ∨ 0xDFFF < u := by
          simp [Utf16.isHigh] at hh; simp [Utf16.isLow] at hlow; omega
        rw [if_neg hlow]
        exact .unit hu hr (Utf8.toNat_ofNat_of_valid (isValidChar_of_unit hr hu.lt))

/-- A unit from 0xD800 to 0xDBFF is a high surrogate. -/
theorem isHigh_eq_true {u : Nat} (h₁ : 0xD800 ≤ u) (h₂ : u ≤ 0xDBFF) : Utf16.isHigh u = true := by
  simp [Utf16.isHigh]; omega

/-- A unit from 0xDC00 to 0xDFFF is a low surrogate. -/
theorem isLow_eq_true {u : Nat} (h₁ : 0xDC00 ≤ u) (h₂ : u ≤ 0xDFFF) : Utf16.isLow u = true := by
  simp [Utf16.isLow]; omega

/-- Every outcome the escape allows is what the decoder gives. -/
theorem unicode_of_unicodeEscape {after : List UInt8} {off : Nat}
    {r : Except (SyntaxFault × Nat) (Char × Nat)} (h : UnicodeEscape after off r) :
    unicode after off = r := by
  -- each outcome the escape allows is one path through the decoder: the groups of digits it reads,
  -- and the surrogate tests each unit passes or fails
  cases h with
  | @unit u c hu hr hc =>
    subst hc
    have hh : Utf16.isHigh c.toNat = false := by simp [Utf16.isHigh]; omega
    have hl : Utf16.isLow c.toNat = false := by simp [Utf16.isLow]; omega
    simp [unicode, (hex4_eq_ok_iff _ _ _).2 hu, bind, Except.bind, hh, hl, pure, Except.pure]
  | @pair h l c hu h₁ h₂ hp hl l₁ l₂ hc =>
    have hc' : Char.ofNat (Utf16.combine h l) = c := by rw [← Char.ofNat_toNat c, hc]; rfl
    simp [unicode, (hex4_eq_ok_iff _ _ _).2 hu, (hex4_eq_ok_iff _ _ _).2 hl, bind, Except.bind,
      isHigh_eq_true h₁ h₂, isLow_eq_true l₁ l₂, hp, pure, Except.pure, hc']
  | badFirst he => simp [unicode, (hex4_eq_error_iff _ _ _).2 he, bind, Except.bind]
  | @loneHigh h hu h₁ h₂ hp =>
    simp [unicode, (hex4_eq_ok_iff _ _ _).2 hu, bind, Except.bind, isHigh_eq_true h₁ h₂, hp,
      throw, throwThe, MonadExceptOf.throw]
  | @badSecond h e hu h₁ h₂ hp he =>
    simp [unicode, (hex4_eq_ok_iff _ _ _).2 hu, (hex4_eq_error_iff _ _ _).2 he, bind, Except.bind,
      isHigh_eq_true h₁ h₂, hp]
  | @notLow h l hu h₁ h₂ hp hl hr =>
    have hlow : Utf16.isLow l = false := by simp [Utf16.isLow]; omega
    simp [unicode, (hex4_eq_ok_iff _ _ _).2 hu, (hex4_eq_ok_iff _ _ _).2 hl, bind, Except.bind,
      isHigh_eq_true h₁ h₂, hp, hlow, throw, throwThe, MonadExceptOf.throw]
  | @loneLow u hu h₁ h₂ =>
    have hh : Utf16.isHigh u = false := by simp [Utf16.isHigh]; omega
    simp [unicode, (hex4_eq_ok_iff _ _ _).2 hu, bind, Except.bind, hh, isLow_eq_true h₁ h₂,
      throw, throwThe, MonadExceptOf.throw]

/-- The decoder of a `\u` escape gives exactly the outcomes `UnicodeEscape` lists: the character
of a unit outside the surrogates or of a surrogate pair, with the bytes it takes, or the first
fault met in the order the checks are made, at the offset it refers to. -/
theorem unicode_eq_iff (after : List UInt8) (off : Nat)
    (r : Except (SyntaxFault × Nat) (Char × Nat)) :
    unicode after off = r ↔ UnicodeEscape after off r :=
  ⟨fun h => h ▸ unicodeEscape_unicode after off, unicode_of_unicodeEscape⟩

example : unicode [0x44, 0x38, 0x33, 0x44, 0x5C, 0x75, 0x44, 0x45, 0x30, 0x30, 0x21] 0 =
    .ok ('😀', 10) := by decide

example : unicode [0x44, 0x38, 0x33, 0x44, 0x5C, 0x75, 0x30, 0x30, 0x34, 0x31] 0 =
    .error (.invalidUnicodeEscape 0x41, 6) := by decide

end JsonCodec.Escape
