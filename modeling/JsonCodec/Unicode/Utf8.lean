/-! # UTF-8

A character is encoded in one to four bytes (RFC 3629): an ASCII byte alone, or a lead byte
followed by continuation bytes, in shortest form, with no surrogate and nothing above U+10FFFF.
The decoder runs one byte at a time: `lead` reads the first byte of a character and `Partial.feed`
each continuation byte, so a byte is refused exactly where no well-formed sequence can go on.

* `decodeChar?` reads the character at the front of a byte list and returns the bytes after it;
* `headChar` is that character, or U+FFFD where there is none;
* `decode` reads a whole list, or gives the number of bytes before the first sequence that is not
  well formed (a sequence cut short by the end counts as not well formed).
-/

namespace JsonCodec.Utf8

/-- A character begun but not finished: its bits so far, the continuation bytes still owed, and
the least and greatest value the next byte may take. -/
structure Partial where
  bits : Nat
  owed : Nat
  low : Nat
  high : Nat

/-- What is owed after a lead byte of a longer sequence. -/
private def begin (bits owed low high : Nat) : Option (Char ⊕ Partial) :=
  some (.inr ⟨bits, owed, low, high⟩)

/-- The first byte of a character: the character itself if it is ASCII, what is owed if it leads
a longer sequence, and none if no well-formed sequence starts with it. -/
def lead (b : UInt8) : Option (Char ⊕ Partial) :=
  let n := b.toNat
  if n < 0x80 then some (.inl (Char.ofNat n))
  else if n < 0xC2 then none
  else if n < 0xE0 then begin (n % 32) 1 0x80 0xBF
  else if n = 0xE0 then begin 0 2 0xA0 0xBF
  else if n = 0xED then begin 13 2 0x80 0x9F
  else if n < 0xF0 then begin (n % 16) 2 0x80 0xBF
  else if n = 0xF0 then begin 0 3 0x90 0xBF
  else if n < 0xF4 then begin (n % 8) 3 0x80 0xBF
  else if n = 0xF4 then begin 4 3 0x80 0x8F
  else none

/-- A continuation byte: the finished character, what is still owed, or none if the byte is out
of the allowed range. -/
def Partial.feed (p : Partial) (b : UInt8) : Option (Char ⊕ Partial) :=
  let n := b.toNat
  if p.low ≤ n ∧ n ≤ p.high then
    let bits := p.bits * 64 + n % 64
    if p.owed ≤ 1 then some (.inl (Char.ofNat bits))
    else some (.inr ⟨bits, p.owed - 1, 0x80, 0xBF⟩)
  else none

/-- Reads the continuation bytes of a begun character: the character and the bytes after it. -/
def Partial.finish (p : Partial) : List UInt8 → Option (Char × List UInt8)
  | [] => none
  | b :: rest =>
    match p.feed b with
    | some (.inl c) => some (c, rest)
    | some (.inr q) => q.finish rest
    | none => none

/-- The character at the front of the bytes and the bytes after it, if they begin with a
well-formed sequence. -/
def decodeChar? : List UInt8 → Option (Char × List UInt8)
  | [] => none
  | b :: rest =>
    match lead b with
    | some (.inl c) => some (c, rest)
    | some (.inr p) => p.finish rest
    | none => none

/-- The character at the front of the bytes, or U+FFFD where they do not begin with a
well-formed sequence. -/
def headChar (bs : List UInt8) : Char :=
  match decodeChar? bs with
  | some (c, _) => c
  | none => '\uFFFD'

/-- Finishing a partial sequence consumes at least one byte. -/
theorem Partial.finish_length_lt {p : Partial} {bs : List UInt8} {c : Char} {rest : List UInt8}
    (h : p.finish bs = some (c, rest)) : rest.length < bs.length := by
  induction bs generalizing p with
  | nil => simp [Partial.finish] at h
  | cons b bs ih =>
    simp only [Partial.finish] at h
    split at h
    · simp only [Option.some.injEq, Prod.mk.injEq] at h
      simp [← h.2]
    · have := ih h
      simp only [List.length_cons]
      omega
    · simp at h

/-- Decoding a character consumes at least one byte. -/
theorem decodeChar?_length_lt {bs : List UInt8} {c : Char} {rest : List UInt8}
    (h : decodeChar? bs = some (c, rest)) : rest.length < bs.length := by
  cases bs with
  | nil => simp [decodeChar?] at h
  | cons b bs =>
    simp only [decodeChar?] at h
    split at h
    · simp only [Option.some.injEq, Prod.mk.injEq] at h
      simp [← h.2]
    · have := Partial.finish_length_lt h
      simp only [List.length_cons]
      omega
    · simp at h

/-- Decodes bytes after `done` bytes already read into `acc`. -/
def decodeFrom (done : Nat) (acc : String) (bs : List UInt8) : Except Nat String :=
  if bs.isEmpty then .ok acc
  else
    match hc : decodeChar? bs with
    | some (c, rest) =>
      have : rest.length < bs.length := decodeChar?_length_lt hc
      decodeFrom (done + (bs.length - rest.length)) (acc.push c) rest
    | none => .error done
termination_by bs.length
decreasing_by omega

/-- The text of well-formed bytes, or the number of bytes before the first sequence that is not
well formed. -/
def decode (bs : List UInt8) : Except Nat String := decodeFrom 0 "" bs

example : decode [0x68, 0xC3, 0xA9] = .ok "hé" := by cbv
example : decode [0x61, 0xE2, 0x82] = .error 1 := by cbv
example : decode [0xED, 0xA0, 0x80] = .error 0 := by cbv

end JsonCodec.Utf8
