import JsonCodec.Unicode.Utf8
import Mathlib

/-! # Decoding what was encoded

The decoder reads back every character from its UTF-8 encoding, `String.utf8EncodeChar`:
`decodeChar?_encodeChar` for one character with anything after it, and `decode_encode` for a
whole list. The lead byte fixes how many continuation bytes follow and the window the first of
them must lie in; for an encoded character the window always holds, since the encoding is the
shortest one and never of a surrogate. Conversely the windows admit nothing but such encodings:
`decodeChar?_sound` and `decode_sound` give back the bytes from what was decoded.
-/

namespace JsonCodec.Utf8

/-- The UTF-8 bytes of a list of characters. -/
def encode (cs : List Char) : List UInt8 := cs.flatMap String.utf8EncodeChar

/-- No characters, no bytes. -/
@[simp] theorem encode_nil : encode [] = [] := rfl

/-- The bytes of a character followed by more are its own bytes, then theirs. -/
@[simp] theorem encode_cons (c : Char) (cs : List Char) :
    encode (c :: cs) = String.utf8EncodeChar c ++ encode cs := rfl

/-- Encoding is a morphism of lists: the bytes of two texts are the bytes of each, in turn. -/
@[simp] theorem encode_append (cs ds : List Char) : encode (cs ++ ds) = encode cs ++ encode ds := by
  simp [encode]

/-- Every character takes at least one byte. -/
theorem length_le_encode (cs : List Char) : cs.length ≤ (encode cs).length := by
  induction cs with
  | nil => exact Nat.le_refl 0
  | cons c cs ih =>
    rw [encode_cons, List.length_append, String.length_utf8EncodeChar, List.length_cons]
    have := c.utf8Size_pos
    omega

/-! ### Lead bytes -/

/-- An ASCII byte is a character on its own. -/
theorem lead_ascii {b : UInt8} (h : b.toNat < 0x80) : lead b = some (.inl (Char.ofNat b.toNat)) := by
  simp [lead, h]

/-- A lead byte from 0xC2 to 0xDF owes one continuation byte, any from 0x80 to 0xBF. -/
theorem lead_two {b : UInt8} (h₁ : 0xC2 ≤ b.toNat) (h₂ : b.toNat < 0xE0) :
    lead b = some (.inr ⟨b.toNat % 32, 1, 0x80, 0xBF⟩) := by
  simp only [lead]
  rw [if_neg (by omega), if_neg (by omega), if_pos h₂]
  rfl

/-- A lead byte of three: after 0xE0 the next byte is at least 0xA0 (no overlong form), after
0xED at most 0x9F (no surrogate). -/
theorem lead_three {b : UInt8} (h₁ : 0xE0 ≤ b.toNat) (h₂ : b.toNat < 0xF0) :
    lead b = some (.inr ⟨b.toNat % 16, 2, if b.toNat = 0xE0 then 0xA0 else 0x80,
      if b.toNat = 0xED then 0x9F else 0xBF⟩) := by
  simp only [lead]
  generalize b.toNat = n at *
  rw [if_neg (by omega), if_neg (by omega), if_neg (by omega)]
  -- the two bytes with a narrowed range, then the rest of the block
  by_cases hE0 : n = 0xE0
  · subst hE0; rfl
  by_cases hED : n = 0xED
  · subst hED; rfl
  · rw [if_neg hE0, if_neg hED, if_pos h₂, if_neg hE0, if_neg hED]; rfl

/-- A lead byte of four: after 0xF0 the next byte is at least 0x90 (no overlong form), after
0xF4 at most 0x8F (nothing above U+10FFFF). -/
theorem lead_four {b : UInt8} (h₁ : 0xF0 ≤ b.toNat) (h₂ : b.toNat ≤ 0xF4) :
    lead b = some (.inr ⟨b.toNat % 8, 3, if b.toNat = 0xF0 then 0x90 else 0x80,
      if b.toNat = 0xF4 then 0x8F else 0xBF⟩) := by
  simp only [lead]
  generalize b.toNat = n at *
  -- every test below 0xF0 fails
  rw [if_neg (by omega), if_neg (by omega), if_neg (by omega), if_neg (by omega),
    if_neg (by omega), if_neg (by omega)]
  by_cases hF0 : n = 0xF0
  · subst hF0; rfl
  by_cases hF4 : n = 0xF4
  · subst hF4; rfl
  · rw [if_neg hF0, if_pos (by omega), if_neg hF0, if_neg hF4]; rfl

/-! ### Continuation bytes -/

/-- The last continuation byte owed, inside its window, finishes the character. -/
theorem finish_last {bits low high : Nat} {b : UInt8} (h₁ : low ≤ b.toNat) (h₂ : b.toNat ≤ high)
    (rest : List UInt8) :
    Partial.finish ⟨bits, 1, low, high⟩ (b :: rest) =
      some (Char.ofNat (bits * 64 + b.toNat % 64), rest) := by
  simp [Partial.finish, Partial.feed, h₁, h₂]

/-- A continuation byte inside its window, with more owed, adds its six bits and owes one less. -/
theorem finish_cont {bits owed low high : Nat} {b : UInt8} (h₁ : low ≤ b.toNat)
    (h₂ : b.toNat ≤ high) (rest : List UInt8) :
    Partial.finish ⟨bits, owed + 2, low, high⟩ (b :: rest) =
      Partial.finish ⟨bits * 64 + b.toNat % 64, owed + 1, 0x80, 0xBF⟩ rest := by
  simp [Partial.finish, Partial.feed, h₁, h₂]

/-! ### Characters and lists -/

/-- The code point of a character is no surrogate and at most U+10FFFF. -/
theorem char_toNat_valid (c : Char) :
    c.toNat < 0xD800 ∨ (0xDFFF < c.toNat ∧ c.toNat < 0x110000) := c.valid

/-- Every character is read back from its bytes, whatever follows them. -/
theorem decodeChar?_encodeChar (c : Char) (rest : List UInt8) :
    decodeChar? (String.utf8EncodeChar c ++ rest) = some (c, rest) := by
  have hv := char_toNat_valid c
  have hc : Char.ofNat c.toNat = c := Char.ofNat_toNat c
  unfold String.utf8EncodeChar
  simp only [Char.toNat] at hv hc
  generalize c.val.toNat = v at hv hc
  subst hc
  have hbyte : ∀ n, n < 256 → (UInt8.ofNat n).toNat = n := fun n h => by simp; omega
  -- one case per length of the encoding; each byte is read back as the value it was built from
  by_cases h1 : v ≤ 0x7f
  · have hl := lead_ascii (b := UInt8.ofNat v) (by rw [hbyte v (by omega)]; omega)
    simp only [h1, if_true, List.cons_append, List.nil_append, decodeChar?, hl, hbyte v (by omega)]
  by_cases h2 : v ≤ 0x7ff
  · simp only [h1, h2, if_false, if_true, List.cons_append, List.nil_append]
    have hb₀ := hbyte (v / 64 % 32 + 0xC0) (by omega)
    have hb₁ := hbyte (v % 64 + 0x80) (by omega)
    rw [decodeChar?, lead_two (by omega) (by omega), hb₀]
    dsimp only
    rw [finish_last (show 0x80 ≤ (UInt8.ofNat (v % 64 + 0x80)).toNat by omega)
      (show (UInt8.ofNat (v % 64 + 0x80)).toNat ≤ 0xBF by omega), hb₁,
      show (v / 64 % 32 + 0xC0) % 32 * 64 + (v % 64 + 0x80) % 64 = v by omega]
  by_cases h3 : v ≤ 0xffff
  · simp only [h1, h2, h3, if_false, if_true, List.cons_append, List.nil_append]
    have hb₀ := hbyte (v / 4096 % 16 + 0xE0) (by omega)
    have hb₁ := hbyte (v / 64 % 64 + 0x80) (by omega)
    have hb₂ := hbyte (v % 64 + 0x80) (by omega)
    rw [decodeChar?, lead_three (by omega) (by omega), hb₀]
    dsimp only
    rw [finish_cont (show (if v / 4096 % 16 + 0xE0 = 0xE0 then 0xA0 else 0x80) ≤
        (UInt8.ofNat (v / 64 % 64 + 0x80)).toNat by split <;> omega)
      (show (UInt8.ofNat (v / 64 % 64 + 0x80)).toNat ≤
        (if v / 4096 % 16 + 0xE0 = 0xED then 0x9F else 0xBF) by split <;> omega),
      finish_last (show 0x80 ≤ (UInt8.ofNat (v % 64 + 0x80)).toNat by omega)
        (show (UInt8.ofNat (v % 64 + 0x80)).toNat ≤ 0xBF by omega), hb₁, hb₂,
      show ((v / 4096 % 16 + 0xE0) % 16 * 64 + (v / 64 % 64 + 0x80) % 64) * 64 +
        (v % 64 + 0x80) % 64 = v by omega]
  · simp only [h1, h2, h3, if_false, List.cons_append, List.nil_append]
    have hb₀ := hbyte (v / 262144 % 8 + 0xF0) (by omega)
    have hb₁ := hbyte (v / 4096 % 64 + 0x80) (by omega)
    have hb₂ := hbyte (v / 64 % 64 + 0x80) (by omega)
    have hb₃ := hbyte (v % 64 + 0x80) (by omega)
    rw [decodeChar?, lead_four (by omega) (by omega), hb₀]
    dsimp only
    rw [finish_cont (show (if v / 262144 % 8 + 0xF0 = 0xF0 then 0x90 else 0x80) ≤
        (UInt8.ofNat (v / 4096 % 64 + 0x80)).toNat by split <;> omega)
      (show (UInt8.ofNat (v / 4096 % 64 + 0x80)).toNat ≤
        (if v / 262144 % 8 + 0xF0 = 0xF4 then 0x8F else 0xBF) by split <;> omega),
      finish_cont (show 0x80 ≤ (UInt8.ofNat (v / 64 % 64 + 0x80)).toNat by omega)
        (show (UInt8.ofNat (v / 64 % 64 + 0x80)).toNat ≤ 0xBF by omega),
      finish_last (show 0x80 ≤ (UInt8.ofNat (v % 64 + 0x80)).toNat by omega)
        (show (UInt8.ofNat (v % 64 + 0x80)).toNat ≤ 0xBF by omega), hb₁, hb₂, hb₃,
      show (((v / 262144 % 8 + 0xF0) % 8 * 64 + (v / 4096 % 64 + 0x80) % 64) * 64 +
        (v / 64 % 64 + 0x80) % 64) * 64 + (v % 64 + 0x80) % 64 = v by omega]

/-- Every byte of a character above ASCII has its top bit set. -/
theorem utf8EncodeChar_ge {c : Char} (h : 0x80 ≤ c.toNat) :
    ∀ b ∈ String.utf8EncodeChar c, 0x80 ≤ b.toNat := by
  have hv := char_toNat_valid c
  unfold String.utf8EncodeChar
  simp only [Char.toNat] at hv h ⊢
  generalize c.val.toNat = v at hv h ⊢
  have hbyte : ∀ n, n < 256 → (UInt8.ofNat n).toNat = n := fun n h => by simp; omega
  rw [if_neg (by omega)]
  split_ifs <;> simp only [List.mem_cons, List.not_mem_nil, or_false] <;>
    rintro b (rfl | rfl | rfl | rfl) <;> rw [hbyte _ (by omega)] <;> omega

/-- The bytes of a text decode to the text, after whatever was decoded before. -/
theorem decodeFrom_encode (cs : List Char) (done : Nat) (acc : String) :
    decodeFrom done acc (encode cs) = .ok (acc ++ String.ofList cs) := by
  induction cs generalizing done acc with
  | nil => rw [decodeFrom]; simp [String.ofList_nil]
  | cons c cs ih =>
    rw [decodeFrom]
    have hne : (encode (c :: cs)).isEmpty = false := by
      simp [String.utf8EncodeChar_ne_nil]
    simp only [hne, Bool.false_eq_true, if_false]
    -- the first character's bytes decode to it, and the rest by induction
    split
    · next c' rest hdec =>
      rw [encode_cons, decodeChar?_encodeChar] at hdec
      simp only [Option.some.injEq, Prod.mk.injEq] at hdec
      obtain ⟨rfl, rfl⟩ := hdec
      rw [ih]
      congr 1
      rw [← String.toList_inj]
      simp [String.toList_append, String.toList_push, String.toList_ofList]
    · next hdec => simp [decodeChar?_encodeChar] at hdec

/-- Decoding the encoding of a list of characters gives them back. -/
theorem decode_encode (cs : List Char) : decode (encode cs) = .ok (String.ofList cs) := by
  simp [decode, decodeFrom_encode]

/-! ### Reading back

The converse: whatever the decoder accepts is the encoding of what it gives. The lead byte and
the window each continuation byte must lie in pin the code point to the range its length encodes,
so encoding it again gives the same bytes. -/

/-- One continuation byte in range finishes a character or leaves one owed less. -/
theorem finish_cons {bits owed low high : Nat} {b : UInt8} {bs : List UInt8} {c : Char}
    {rest : List UInt8} (h : Partial.finish ⟨bits, owed + 1, low, high⟩ (b :: bs) = some (c, rest)) :
    low ≤ b.toNat ∧ b.toNat ≤ high ∧
      ((owed = 0 ∧ c = Char.ofNat (bits * 64 + b.toNat % 64) ∧ rest = bs) ∨
        (0 < owed ∧ Partial.finish ⟨bits * 64 + b.toNat % 64, owed, 0x80, 0xBF⟩ bs = some (c, rest))) := by
  simp only [Partial.finish, Partial.feed] at h
  -- a byte outside the window fails the character; inside it, the last byte owed finishes it
  by_cases hr : low ≤ b.toNat ∧ b.toNat ≤ high
  · rw [if_pos hr] at h
    refine ⟨hr.1, hr.2, ?_⟩
    by_cases ho : owed + 1 ≤ 1
    · rw [if_pos ho] at h
      simp only [Option.some.injEq, Prod.mk.injEq] at h
      exact Or.inl ⟨by omega, h.1.symm, h.2.symm⟩
    · rw [if_neg ho] at h
      refine Or.inr ⟨by omega, ?_⟩
      simpa using h
  · rw [if_neg hr] at h
    simp at h

section Finish

variable {bits low high : Nat} {bs rest : List UInt8} {c : Char}

/-- The last byte owed, in its window, finishes the character. -/
theorem finish_one_sound (h : Partial.finish ⟨bits, 1, low, high⟩ bs = some (c, rest)) :
    ∃ b, bs = b :: rest ∧ low ≤ b.toNat ∧ b.toNat ≤ high ∧
      c = Char.ofNat (bits * 64 + b.toNat % 64) := by
  cases bs with
  | nil => simp [Partial.finish] at h
  | cons b bs =>
    obtain ⟨hl, hh, ⟨-, rfl, rfl⟩ | ⟨h0, -⟩⟩ := finish_cons h
    · exact ⟨b, rfl, hl, hh, rfl⟩
    · omega

/-- Two bytes owed: the first in its window, the second a plain continuation byte. -/
theorem finish_two_sound (h : Partial.finish ⟨bits, 2, low, high⟩ bs = some (c, rest)) :
    ∃ b₁ b₂, bs = b₁ :: b₂ :: rest ∧ low ≤ b₁.toNat ∧ b₁.toNat ≤ high ∧
      0x80 ≤ b₂.toNat ∧ b₂.toNat ≤ 0xBF ∧
      c = Char.ofNat ((bits * 64 + b₁.toNat % 64) * 64 + b₂.toNat % 64) := by
  cases bs with
  | nil => simp [Partial.finish] at h
  | cons b₁ bs =>
    obtain ⟨hl, hh, ⟨h0, -⟩ | ⟨-, h⟩⟩ := finish_cons h
    · omega
    obtain ⟨b₂, rfl, hl₂, hh₂, rfl⟩ := finish_one_sound h
    exact ⟨b₁, b₂, rfl, hl, hh, hl₂, hh₂, rfl⟩

/-- Three bytes owed: the first in its window, the other two plain continuation bytes. -/
theorem finish_three_sound (h : Partial.finish ⟨bits, 3, low, high⟩ bs = some (c, rest)) :
    ∃ b₁ b₂ b₃, bs = b₁ :: b₂ :: b₃ :: rest ∧ low ≤ b₁.toNat ∧ b₁.toNat ≤ high ∧
      0x80 ≤ b₂.toNat ∧ b₂.toNat ≤ 0xBF ∧ 0x80 ≤ b₃.toNat ∧ b₃.toNat ≤ 0xBF ∧
      c = Char.ofNat (((bits * 64 + b₁.toNat % 64) * 64 + b₂.toNat % 64) * 64 + b₃.toNat % 64) := by
  cases bs with
  | nil => simp [Partial.finish] at h
  | cons b₁ bs =>
    obtain ⟨hl, hh, ⟨h0, -⟩ | ⟨-, h⟩⟩ := finish_cons h
    · omega
    obtain ⟨b₂, b₃, rfl, hl₂, hh₂, hl₃, hh₃, rfl⟩ := finish_two_sound h
    exact ⟨b₁, b₂, b₃, rfl, hl, hh, hl₂, hh₂, hl₃, hh₃, rfl⟩

end Finish

/-- A valid code point is the code of the character it makes. -/
theorem toNat_ofNat_of_valid {v : Nat} (h : v.isValidChar) : (Char.ofNat v).toNat = v := by
  simp [Char.ofNat, h, Char.ofNatAux, Char.toNat]

/-- A byte is the byte of its value. -/
theorem byte_eq {b : UInt8} {n : Nat} (h : b.toNat = n) : b = UInt8.ofNat n := by
  rw [← h, UInt8.ofNat_toNat]

/-- A code point up to U+007F is encoded in one byte, itself. -/
theorem utf8EncodeChar_ofNat_one {v : Nat} (h : v ≤ 0x7f) :
    String.utf8EncodeChar (Char.ofNat v) = [UInt8.ofNat v] := by
  have hv := toNat_ofNat_of_valid (v := v) (Or.inl (by omega))
  unfold String.utf8EncodeChar
  simp only [Char.toNat] at hv
  rw [hv, if_pos h]

/-- A code point from U+0080 to U+07FF is encoded in two bytes: 110 and five bits, 10 and six. -/
theorem utf8EncodeChar_ofNat_two {v : Nat} (h₁ : 0x7f < v) (h₂ : v ≤ 0x7ff) :
    String.utf8EncodeChar (Char.ofNat v) =
      [UInt8.ofNat (v / 64 % 32 + 0xC0), UInt8.ofNat (v % 64 + 0x80)] := by
  have hv := toNat_ofNat_of_valid (v := v) (Or.inl (by omega))
  unfold String.utf8EncodeChar
  simp only [Char.toNat] at hv
  rw [hv, if_neg (by omega), if_pos h₂]

/-- A code point from U+0800 to U+FFFF, no surrogate, is encoded in three bytes: 1110 and four bits,
then two of 10 and six. -/
theorem utf8EncodeChar_ofNat_three {v : Nat} (h₁ : 0x7ff < v) (h₂ : v ≤ 0xffff)
    (hs : v < 0xD800 ∨ 0xDFFF < v) :
    String.utf8EncodeChar (Char.ofNat v) =
      [UInt8.ofNat (v / 4096 % 16 + 0xE0), UInt8.ofNat (v / 64 % 64 + 0x80),
        UInt8.ofNat (v % 64 + 0x80)] := by
  have hv := toNat_ofNat_of_valid (v := v) (by rcases hs with hs | hs; exacts [Or.inl hs, Or.inr ⟨hs, by omega⟩])
  unfold String.utf8EncodeChar
  simp only [Char.toNat] at hv
  rw [hv, if_neg (by omega), if_neg (by omega), if_pos h₂]

/-- A code point from U+10000 on is encoded in four bytes: 11110 and three bits, then three of 10
and six. -/
theorem utf8EncodeChar_ofNat_four {v : Nat} (h₁ : 0xffff < v) (h₂ : v < 0x110000) :
    String.utf8EncodeChar (Char.ofNat v) =
      [UInt8.ofNat (v / 262144 % 8 + 0xF0), UInt8.ofNat (v / 4096 % 64 + 0x80),
        UInt8.ofNat (v / 64 % 64 + 0x80), UInt8.ofNat (v % 64 + 0x80)] := by
  have hv := toNat_ofNat_of_valid (v := v) (Or.inr ⟨by omega, h₂⟩)
  unfold String.utf8EncodeChar
  simp only [Char.toNat] at hv
  rw [hv, if_neg (by omega), if_neg (by omega), if_neg (by omega)]

/-- A byte from 0x80 to 0xC1, or above 0xF4, starts no character. -/
theorem lead_none {b : UInt8} (h : 0x80 ≤ b.toNat) (h' : b.toNat < 0xC2 ∨ 0xF4 < b.toNat) :
    lead b = none := by
  simp only [lead]
  generalize b.toNat = n at *
  rw [if_neg (by omega)]
  rcases h' with hlow | hhigh
  · rw [if_pos hlow]
  · rw [if_neg (by omega), if_neg (by omega), if_neg (by omega), if_neg (by omega),
      if_neg (by omega), if_neg (by omega), if_neg (by omega), if_neg (by omega)]

/-- What the decoder reads is the encoding of the character it gives. -/
theorem decodeChar?_sound {bs : List UInt8} {c : Char} {rest : List UInt8}
    (h : decodeChar? bs = some (c, rest)) : bs = String.utf8EncodeChar c ++ rest := by
  cases bs with
  | nil => simp [decodeChar?] at h
  | cons b bs =>
    have hb := b.toNat_lt
    simp only [decodeChar?] at h
    -- one case per range of the lead byte, as `lead` tells them apart
    by_cases h1 : b.toNat < 0x80
    · -- an ASCII byte is its own character
      rw [lead_ascii h1] at h
      simp only [Option.some.injEq, Prod.mk.injEq] at h
      obtain ⟨rfl, rfl⟩ := h
      rw [utf8EncodeChar_ofNat_one (by omega), UInt8.ofNat_toNat]
      rfl
    by_cases h2 : b.toNat < 0xC2
    · rw [lead_none (by omega) (Or.inl h2)] at h
      simp at h
    by_cases h3 : b.toNat < 0xE0
    · rw [lead_two (by omega) h3] at h
      dsimp only at h
      obtain ⟨b₁, rfl, hl₁, hh₁, rfl⟩ := finish_one_sound h
      rw [utf8EncodeChar_ofNat_two (by omega) (by omega)]
      simp only [List.cons_append, List.nil_append, List.cons.injEq, and_true]
      exact ⟨byte_eq (by omega), byte_eq (by omega)⟩
    by_cases h4 : b.toNat < 0xF0
    · rw [lead_three (by omega) h4] at h
      dsimp only at h
      obtain ⟨b₁, b₂, rfl, hl₁, hh₁, hl₂, hh₂, rfl⟩ := finish_two_sound h
      -- the second byte's window rules out overlong forms and surrogates
      have hw : 0x80 ≤ b₁.toNat ∧ b₁.toNat ≤ 0xBF ∧ (b.toNat = 0xE0 → 0xA0 ≤ b₁.toNat) ∧
          (b.toNat = 0xED → b₁.toNat ≤ 0x9F) := by
        by_cases hE0 : b.toNat = 0xE0 <;> by_cases hED : b.toNat = 0xED <;>
          simp [hE0, hED] at hl₁ hh₁ <;> omega
      rw [utf8EncodeChar_ofNat_three (by omega) (by omega) (by omega)]
      simp only [List.cons_append, List.nil_append, List.cons.injEq, and_true]
      exact ⟨byte_eq (by omega), byte_eq (by omega), byte_eq (by omega)⟩
    by_cases h5 : b.toNat ≤ 0xF4
    · rw [lead_four (by omega) h5] at h
      dsimp only at h
      obtain ⟨b₁, b₂, b₃, rfl, hl₁, hh₁, hl₂, hh₂, hl₃, hh₃, rfl⟩ := finish_three_sound h
      -- the second byte's window rules out overlong forms and code points past U+10FFFF
      have hw : 0x80 ≤ b₁.toNat ∧ b₁.toNat ≤ 0xBF ∧ (b.toNat = 0xF0 → 0x90 ≤ b₁.toNat) ∧
          (b.toNat = 0xF4 → b₁.toNat ≤ 0x8F) := by
        by_cases hF0 : b.toNat = 0xF0 <;> by_cases hF4 : b.toNat = 0xF4 <;>
          simp [hF0, hF4] at hl₁ hh₁ <;> omega
      rw [utf8EncodeChar_ofNat_four (by omega) (by omega)]
      simp only [List.cons_append, List.nil_append, List.cons.injEq, and_true]
      exact ⟨byte_eq (by omega), byte_eq (by omega), byte_eq (by omega), byte_eq (by omega)⟩
    · rw [lead_none (by omega) (Or.inr (by omega))] at h
      simp at h

/-- What decodes is the bytes of a text: the decoder accepts nothing but encodings. -/
theorem decodeFrom_sound {done : Nat} {acc : String} {bs : List UInt8} {s : String}
    (h : decodeFrom done acc bs = .ok s) : ∃ cs, bs = encode cs ∧ s = acc ++ String.ofList cs := by
  induction done, acc, bs using decodeFrom.induct with
  | case1 done acc bs hbs =>
    -- no byte left: the text is what was decoded so far
    rw [decodeFrom, if_pos hbs] at h
    cases h
    refine ⟨[], by simpa using hbs, by simp⟩
  | case2 done acc bs hbs c rest hc _ ih =>
    -- a character decoded: its bytes are its encoding, and the rest decodes by induction
    rw [decodeFrom, if_neg hbs] at h
    split at h
    · next c' rest' hc' =>
      rw [hc] at hc'
      simp only [Option.some.injEq, Prod.mk.injEq] at hc'
      obtain ⟨rfl, rfl⟩ := hc'
      obtain ⟨cs, hcs, hs⟩ := ih h
      refine ⟨c :: cs, ?_, ?_⟩
      · rw [decodeChar?_sound hc, hcs, encode_cons]
      · rw [hs, ← String.toList_inj]
        simp [String.toList_append, String.toList_push, String.toList_ofList]
    · next hc' => rw [hc] at hc'; cases hc'
  | case3 done acc bs hbs hc =>
    -- bytes that begin no character fail, so this case cannot succeed
    rw [decodeFrom, if_neg hbs] at h
    split at h
    · next c' rest' hc' => rw [hc] at hc'; cases hc'
    · cases h

/-- Bytes the decoder accepts are the encoding of the text it gives. -/
theorem decode_sound {bs : List UInt8} {s : String} (h : decode bs = .ok s) :
    bs = encode s.toList := by
  obtain ⟨cs, rfl, rfl⟩ := decodeFrom_sound h
  simp [String.toList_ofList]

/-! ### The bytes of a string -/

/-- Listing the bytes of an array, from index `i` on, after the reversed `r`. -/
theorem toList_loop (bs : ByteArray) (i : Nat) (r : List UInt8) :
    ByteArray.toList.loop bs i r = r.reverse ++ bs.data.toList.drop i := by
  fun_induction ByteArray.toList.loop bs i r with
  | case1 i r hlt ih =>
    have hlen : i < bs.data.toList.length := by simpa using hlt
    have hget : bs.get! i = bs.data.toList[i] := by
      cases bs with
      | mk data =>
        have hd : i < data.size := hlt
        simp [ByteArray.get!, getElem!_pos data i hd]
    rw [ih, List.drop_eq_getElem_cons hlen, hget]
    simp
  | case2 i r hge =>
    rw [List.drop_eq_nil_of_le (by simpa using Nat.le_of_not_lt hge), List.append_nil]

/-- A string's UTF-8 bytes are the encoding of its characters. -/
theorem toUTF8_ofList (cs : List Char) : (String.ofList cs).toUTF8.toList = encode cs := by
  rw [ByteArray.toList, toList_loop]
  simp [String.toUTF8, List.utf8Encode, List.data_toByteArray, encode]

/-- A string's UTF-8 bytes are the encoding of its characters. -/
theorem toUTF8_eq_encode (s : String) : s.toUTF8.toList = encode s.toList := by
  rw [← toUTF8_ofList, String.ofList_toList]

/-- Two lists of characters with the same bytes are the same: decoding gives each back. -/
theorem encode_injective {cs ds : List Char} (h : encode cs = encode ds) : cs = ds := by
  have hdec := decode_encode ds
  rw [← h, decode_encode, Except.ok.injEq] at hdec
  exact String.ofList_injective hdec

end JsonCodec.Utf8
