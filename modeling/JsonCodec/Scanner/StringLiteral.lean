import JsonCodec.Scanner.Escape
import JsonCodec.Token

/-! # String literals

The body of a string literal is read in runs: each run ends at the first byte that is a control
character (below 0x20), a quote or a backslash. A quote closes the string, a backslash starts an
escape, and a control character is a fault at its offset. The bytes of each run must be
well-formed UTF-8; a fault there is reported at the first byte of the first sequence that is not
well formed. A control character is reported without checking the run before it, and a string
that no stop byte ends is unterminated, reported at its opening quote.

A string with no escape is the input's own bytes (`Text.verbatim`); one with an escape is decoded.
-/

namespace JsonCodec.StringLiteral

/-- Whether a byte ends a run of string content. -/
def isStop (b : UInt8) : Bool := b < 0x20 || b == 0x22 || b == 0x5C

/-- Reads a string body. The opening quote stood at `start`; `bs` are the bytes still to read,
the first of them at offset `off`; `acc` is the text decoded so far once an escape has been met.
Gives the text and the offset just past the closing quote. -/
def body (start : Nat) (acc : Option String) (bs : List UInt8) (off : Nat) :
    Except (SyntaxFault × Nat) (Text × Nat) :=
  match bs.findIdx? isStop with
  | none => .error (.unterminatedString, start)
  | some k =>
    let run := bs.take k
    match h : bs.drop k with
    | [] => .error (.unterminatedString, start)
    | b :: after =>
      if b = 0x22 then
        match Utf8.decode run with
        | .error n => .error (.invalidUtf8, off + n)
        | .ok s =>
          let text : Text := match acc with
            | none => ⟨s, true⟩
            | some a => ⟨a ++ s, false⟩
          .ok (text, off + k + 1)
      else if b = 0x5C then
        match Utf8.decode run with
        | .error n => .error (.invalidUtf8, off + n)
        | .ok s =>
          match Escape.decode after (off + k) with
          | .error e => .error e
          | .ok (c, n) =>
            have : (after.drop n).length < bs.length := by
              have h1 : (bs.drop k).length = after.length + 1 := by rw [h]; rfl
              simp only [List.length_drop] at h1 ⊢
              omega
            body start (some ((acc.getD "" ++ s).push c)) (after.drop n) (off + k + 1 + n)
      else .error (.controlChar b.toNat, off + k)
termination_by bs.length
decreasing_by simp only [List.length_drop] at *; omega

/-- Reads a string literal whose opening quote is at the front of `bs`, at offset `start`.
Gives the text and the offset just past the closing quote. -/
def scan (bs : List UInt8) (start : Nat) : Except (SyntaxFault × Nat) (Text × Nat) :=
  body start none (bs.drop 1) (start + 1)

end JsonCodec.StringLiteral
