/-! # White space

The Unicode property White_Space: the ASCII blanks tab, line feed, vertical tab, form feed,
carriage return and space, and nineteen more, among them NEL, the no-break space and the line and
paragraph separators. The byte order mark U+FEFF and the zero width space U+200B are not white
space.
-/

namespace JsonCodec.Unicode

/-- Closed code point ranges of white space, ascending and disjoint. -/
def spaceRanges : List (Nat × Nat) :=
  [(0x9, 0xD), (0x20, 0x20), (0x85, 0x85), (0xA0, 0xA0), (0x1680, 0x1680), (0x2000, 0x200A),
   (0x2028, 0x2029), (0x202F, 0x202F), (0x205F, 0x205F), (0x3000, 0x3000)]

/-- Whether a character has the Unicode White_Space property. -/
def isSpace (c : Char) : Bool :=
  spaceRanges.any fun r => r.1 ≤ c.toNat && c.toNat ≤ r.2

/-- Every ASCII blank of core is white space here too. -/
theorem isSpace_of_isWhitespace {c : Char} (h : c.isWhitespace = true) : isSpace c = true := by
  simp only [Char.isWhitespace, Bool.or_eq_true, decide_eq_true_eq] at h
  rcases h with ((h | h) | h) | h <;> subst h <;> decide

example : spaceRanges.foldl (fun n r => n + (r.2 + 1 - r.1)) 0 = 25 := by decide

end JsonCodec.Unicode
