import JsonCodec.Proofs.Writer.Quote
import JsonCodec.Proofs.Writer.Session

/-! # Written text in ASCII

With `escapeNonAscii` the writer writes nothing but ASCII. Numbers, words and punctuation are
ASCII by their spelling (`jsonText_ascii`, `Value.render_ascii`), and a literal escapes every
character that is not (`Escape.quote_ascii`). `Writer.AsciiOut` says that a writer escapes and
has written only ASCII; every operation keeps it, hence every call of a session
(`Session.asciiOut_step`) and every run of calls from a new writer (`Session.asciiOut_run`).

`Escape.quote_reads_back` gathers what holds of a written string: the scanner reads it back as
one token holding the string, as the literal's own bytes exactly when nothing had to be escaped,
and the literal is ASCII under `escapeNonAscii`.
-/

namespace JsonCodec

open Grammar

/-- A string made of characters is ASCII exactly when each character is. -/
@[simp] theorem ascii_ofList {l : List Char} : Ascii (String.ofList l) ↔ ∀ c ∈ l, c.toNat < 0x80 := by
  simp [Ascii]

/-- The decimal digits of a natural are ASCII. -/
theorem ascii_toString_nat (n : Nat) : Ascii (toString n) := by
  intro c hc
  rw [Nat.toString_eq_repr, Nat.repr, String.toList_ofList] at hc
  exact digit_lt (Nat.isDigit_of_mem_toDigits (by decide) (by decide) hc)

/-- The decimal text of an integer, its minus sign included, is ASCII. -/
theorem ascii_toString_int (i : Int) : Ascii (toString i) := by
  cases i with
  | ofNat n => exact ascii_toString_nat n
  | negSucc n =>
    show Ascii ("-" ++ toString (n + 1))
    rw [ascii_append]
    exact ⟨by simp [Ascii], ascii_toString_nat _⟩

namespace Decimal

/-- A decimal's sign is ASCII. -/
theorem signText_ascii (d : Decimal) : Ascii d.signText := by
  unfold signText; split <;> simp [Ascii]

/-- A decimal written out in full, with its point, is ASCII. -/
theorem positional_ascii (d : Decimal) : Ascii d.positional := by
  have hs : Ascii d.digits.repr := ascii_toString_nat d.digits
  have hzeros : ∀ k, Ascii (String.ofList (List.replicate k '0')) := by
    intro k; simp only [ascii_ofList, List.mem_replicate]; rintro c ⟨-, rfl⟩; decide
  unfold positional
  dsimp only
  split_ifs
  · simp [signText_ascii, hs, hzeros]
  · simp only [ascii_append, ascii_ofList, signText_ascii, true_and]
    exact ⟨⟨fun c hc => hs c (List.mem_of_mem_take hc), by simp [Ascii]⟩,
      fun c hc => hs c (List.mem_of_mem_drop hc)⟩
  · simp only [ascii_append, signText_ascii, hzeros, true_and, and_true]
    exact ⟨by simp [Ascii], ascii_toString_nat _⟩

/-- A decimal in scientific notation, with its exponent, is ASCII. -/
theorem scientific_ascii (d : Decimal) : Ascii d.scientific := by
  have hs : Ascii d.digits.repr := ascii_toString_nat d.digits
  unfold scientific
  dsimp only
  simp only [ascii_append, ascii_ofList, signText_ascii, true_and]
  refine ⟨⟨⟨fun c hc => hs c (List.mem_of_mem_take hc), ?_⟩, by simp [Ascii]⟩, ascii_toString_int _⟩
  split
  · simp only [ascii_append, ascii_ofList]
    exact ⟨by simp [Ascii], fun c hc => hs c (List.mem_of_mem_drop hc)⟩
  · simp [Ascii]

end Decimal

/-- Every number's text is ASCII: digits, sign, point, exponent, or `null`. -/
theorem jsonText_ascii (x : Double) : Ascii x.jsonText := by
  unfold Double.jsonText
  split_ifs
  · simp [Ascii]
  · simp [Ascii]
  · exact ascii_toString_int _
  · exact Decimal.positional_ascii _
  · exact Decimal.scientific_ascii _

/-! ### Texts of values -/

/-- Under `escapeNonAscii` every scalar's token is ASCII. -/
theorem Scalar.text_ascii : (x : Scalar) → Ascii (x.text true)
  | .null => by simp [Scalar.text, Ascii]
  | .bool b => by cases b <;> simp [Scalar.text, Ascii]
  | .integer n => ascii_toString_int n
  | .double x => jsonText_ascii x
  | .string s => Escape.quote_ascii s

mutual
/-- Under `escapeNonAscii` every value's canonical text is ASCII. -/
theorem Value.render_ascii : (v : Value) → Ascii (v.render true)
  | .null => by simp [Value.render, Ascii]
  | .bool b => by cases b <;> simp [Value.render, Ascii]
  | .number x => jsonText_ascii x
  | .string s => Escape.quote_ascii s
  | .array items => by
    simp only [Value.render, ascii_append, Value.renderItems_ascii false items, and_true]
    simp [Ascii]
  | .object members => by
    simp only [Value.render, ascii_append, Value.renderMembers_ascii false members, and_true]
    simp [Ascii]

/-- Under `escapeNonAscii` the rendered items of an array are ASCII. -/
theorem Value.renderItems_ascii (comma : Bool) : (items : List Value) →
    Ascii (Value.renderItems true comma items)
  | [] => by simp [Value.renderItems, Ascii]
  | v :: rest => by
    simp only [Value.renderItems, ascii_append, Value.render_ascii v,
      Value.renderItems_ascii true rest, and_true]
    split <;> simp [Ascii]

/-- Under `escapeNonAscii` the rendered members of an object are ASCII, names included. -/
theorem Value.renderMembers_ascii (comma : Bool) : (members : List (String × Value)) →
    Ascii (Value.renderMembers true comma members)
  | [] => by simp [Value.renderMembers, Ascii]
  | (k, v) :: rest => by
    simp only [Value.renderMembers, ascii_append, Escape.quote_ascii k, Value.render_ascii v,
      Value.renderMembers_ascii true rest, and_true]
    refine ⟨?_, by simp [Ascii]⟩
    split <;> simp [Ascii]
end

/-! ### The writer -/

namespace Writer

/-- The writer escapes every character above U+007F, and all it has written is ASCII. -/
structure AsciiOut (w : Writer) : Prop where
  escapes : w.escapeNonAscii = true
  ascii : Ascii w.out

variable {w : Writer}

/-- Emitting ASCII text keeps the written text ASCII. -/
theorem AsciiOut.emit (h : w.AsciiOut) {t : String} (ht : Ascii t) : (w.emit t).AsciiOut :=
  ⟨h.escapes, by simp [h.ascii, ht]⟩

/-- Changing the innermost scope keeps the written text ASCII. -/
theorem AsciiOut.modifyTop (h : w.AsciiOut) (f : Scope → Scope) : (w.modifyTop f).AsciiOut :=
  ⟨h.escapes, h.ascii⟩

/-- Opening a scope keeps the written text ASCII. -/
theorem AsciiOut.pushScope (h : w.AsciiOut) (s : Scope) : (w.pushScope s).AsciiOut :=
  ⟨h.escapes, h.ascii⟩

/-- Leaving a scope keeps the written text ASCII. -/
theorem AsciiOut.popScope (h : w.AsciiOut) : w.popScope.AsciiOut := ⟨h.escapes, h.ascii⟩

/-- The separator before a value is ASCII. -/
theorem separator_ascii (w : Writer) : Ascii w.separator := by
  unfold separator
  split
  · split <;> simp [Ascii]
  · simp [Ascii]

/-- Writing the separator keeps the written text ASCII. -/
theorem AsciiOut.beforeValue (h : w.AsciiOut) : w.beforeValue.AsciiOut := by
  rw [beforeValue_eq]
  exact (h.emit (separator_ascii w)).modifyTop _

/-- Writing a whole value under `escapeNonAscii` keeps the written text ASCII. -/
theorem AsciiOut.value (h : w.AsciiOut) (v : Value) : (w.value v).AsciiOut := by
  rw [value_eq]
  exact h.beforeValue.emit (by rw [h.escapes]; exact Value.render_ascii v)

/-- Writing a member's name under `escapeNonAscii` keeps the written text ASCII. -/
theorem AsciiOut.writeName (h : w.AsciiOut) (k : String) : (w.writeName k).AsciiOut := by
  unfold Writer.writeName
  split
  next first w₁ hmatch =>
    -- before the name: the writer, its object marked as holding a member, and perhaps a comma
    have h₁ : w₁.AsciiOut := by
      split at hmatch
      · split at hmatch
        · cases hmatch; exact h
        · cases hmatch; exact h.modifyTop _
      · cases hmatch; exact h
    have h₂ : (if first = true then w₁ else w₁.emit ",").AsciiOut := by
      split
      · exact h₁
      · exact h₁.emit (by simp [Ascii])
    exact (h₂.emit (by rw [h₂.escapes]; exact Escape.quote_ascii k)).emit (by simp [Ascii])

/-- Opening a container keeps the written text ASCII. -/
theorem AsciiOut.openScope (h : w.AsciiOut) (inArray : Bool) : (w.openScope inArray).1.AsciiOut := by
  rw [openScope_fst]
  exact (h.beforeValue.emit (by split <;> simp [Ascii])).pushScope _

/-- Closing a container keeps the written text ASCII. -/
theorem AsciiOut.endScope (h : w.AsciiOut) (inArray : Bool) : (w.endScope inArray).AsciiOut := by
  unfold Writer.endScope
  exact h.popScope.emit (by split <;> simp [Ascii])

end Writer

namespace Handle

/-- Closing a handle leaves the writer as it was or closes the innermost scope. -/
theorem close_writer (h : Handle) (w : Writer) :
    (h.close w).2.2 = w ∨ (h.close w).2.2 = w.endScope h.inArray := by
  cases hc : h.closed
  · cases hl : h.live
    · exact .inl (close_of_not_live hl w).1
    · rw [close_live hl hc]
      split <;> simp
  · simp [close, hc]

/-- Closing a handle keeps the written text ASCII. -/
theorem asciiOut_close {w : Writer} (hw : w.AsciiOut) (h : Handle) : (h.close w).2.2.AsciiOut := by
  rcases close_writer h w with hc | hc <;> rw [hc]
  exacts [hw, hw.endScope _]

/-- Starting a handle, live or discarding, keeps the written text ASCII. -/
theorem asciiOut_start {w : Writer} (hw : w.AsciiOut) (live inArray : Bool) :
    (start w live inArray).1.AsciiOut := by
  unfold start
  split
  · exact hw.openScope inArray
  · exact hw

end Handle

namespace Session

/-- Every call keeps an escaping writer's text ASCII. -/
theorem asciiOut_step {s : Session} (h : s.writer.AsciiOut) : (c : Call) → (s.step c).1.writer.AsciiOut
  | .scalar live x => by
    simp only [step]
    split
    · -- a live scalar: the separator, then its token, ASCII since the writer escapes
      rw [Scalar.write_eq]
      exact h.beforeValue.emit (by rw [h.escapes]; exact x.text_ascii)
    · -- a discarding handle writes nothing
      exact h
  | .value live v => by
    simp only [step]
    split
    · exact h.value v
    · exact h
  | .name live k => by
    simp only [step]
    split
    · exact h.writeName k
    · exact h
  | .start live inArray => Handle.asciiOut_start h live inArray
  | .close i => by
    simp only [step]
    split
    · exact h
    · exact Handle.asciiOut_close h _

/-- Every run of calls keeps an escaping writer's text ASCII. -/
theorem asciiOut_run {s : Session} (h : s.writer.AsciiOut) : (calls : List Call) → (s.run calls).writer.AsciiOut
  | [] => h
  | c :: cs => asciiOut_run (asciiOut_step h c) cs

/-- A new writer that escapes past ASCII has written nothing but ASCII. -/
theorem asciiOut_new : (new true).writer.AsciiOut := ⟨rfl, by simp [new, Writer.new, Ascii]⟩

end Session

/-! ### Strings written and read back -/

namespace Escape

/-- A string written by the writer is a quoted literal after the separator its place owes. The
scanner, on the bytes of that literal, reads one string token holding the string and stops at
the end of the input. The token is the literal's own bytes exactly when no character of the
string needed an escape: none is the quote, the backslash or below U+0020, nor, under
`escapeNonAscii`, above U+007F. Under `escapeNonAscii` the literal is ASCII, and so is all a
writer writes, whatever calls it is given. -/
theorem quote_reads_back (e u : Bool) (s : String) :
    (∀ w : Writer, w.escapeNonAscii = e → (w.string s).out = w.out ++ w.separator ++ quote e s) ∧
    (∃ text sc, (Scanner.next).run (Scanner.ofBytes (quote e s).toUTF8.toList u) =
        .ok (.string text) sc ∧
      text.str = s ∧ sc.rest = [] ∧ (Scanner.isEof sc).1 = true ∧
      (text.verbatim = true ↔
        ∀ c ∈ s.toList, c ≠ '"' ∧ c ≠ '\\' ∧ 0x20 ≤ c.toNat ∧ (e = true → c.toNat < 0x80))) ∧
    Ascii (quote true s) ∧
    ∀ calls : List Call, Ascii ((Session.new true).run calls).writer.out := by
  refine ⟨fun w hw => by simp [Writer.string, Writer.beforeValue_eq, hw], ?_,
    quote_ascii s, fun calls => (Session.asciiOut_run Session.asciiOut_new calls).ascii⟩
  obtain ⟨text, sc, hrun, hstr, hend, hverb⟩ := Scanner.next_quote e u s
  refine ⟨text, sc, hrun, hstr, hend.2.2, ?_, ?_⟩
  · simp [Scanner.isEof, hend.1, Scanner.advance_rest, hend.2.2]
  · -- verbatim exactly when no backslash was written, and each character is plain or escaped
    rw [hverb, backslash_mem_quote, not_exists]
    refine forall_congr' fun c => ?_
    rw [not_and, not_not]
    refine imp_congr_right fun _ => ⟨?_, ?_⟩
    · rintro ⟨⟨h₁, h₂, h₃⟩, h₄⟩
      exact ⟨h₂, h₃, h₁, h₄⟩
    · rintro ⟨h₂, h₃, h₁, h₄⟩
      exact ⟨⟨h₁, h₂, h₃⟩, h₄⟩

/-- The string `a"é😀` under `escapeNonAscii` is read back as itself, and not as its own bytes,
since it holds a quote. -/
theorem quote_reads_back_escaped :
    ∃ text sc, (Scanner.next).run (Scanner.ofBytes (quote true "a\"é😀").toUTF8.toList false) =
        .ok (.string text) sc ∧ text.str = "a\"é😀" ∧ text.verbatim = false := by
  obtain ⟨-, ⟨text, sc, hrun, hstr, -, -, hverb⟩, -, -⟩ := quote_reads_back true false "a\"é😀"
  refine ⟨text, sc, hrun, hstr, ?_⟩
  cases hv : text.verbatim
  · rfl
  · have hquote := hverb.1 hv '"' (by simp)
    exact absurd rfl hquote.1

end Escape

end JsonCodec
