import JsonCodec.Proofs.Scanner.UnicodeEscape
import JsonCodec.Proofs.Scanner.Number
import JsonCodec.Proofs.Reader.Required

/-! # The scanner stays within its input

Whatever the bytes, every operation of the scanner keeps to the input it was given. The readers
it runs at the cursor take no byte past the end of what is left, and report faults no further
than that end (`ReadsWithin`): white space, words and numbers give lengths that the bytes there
cover, and a string literal ends, or fails, inside the input, its escapes included.

A step of the scanner `Keeps` to its input from a scanner `s` when it ends over the same input,
with the latest token starting no later than the cursor and the cursor not moved back
(`Moves`), and any fault it reports lies within the input. Every operation does so from every
scanner whose latest token starts no later than its cursor, and `Keeps` is closed under
sequencing, so over any sequence of calls (`Call.trace`, going on after a call that fails) the
offsets stay in order and inside the input, the cursor never moves back, and every fault is
reported within the input (`Scanner.Call.trace_offsets_in_bounds`).
-/

/-! ### Steps that lead from a state to related ones -/

namespace EStateM

/-- The error a step reported, if any, and the state it left. -/
def Result.outcome {ε σ α : Type} : Result ε σ α → Option ε × σ
  | .ok _ t => (none, t)
  | .error e t => (some e, t)

/-- A step that, run from `s`, ends in a state that `R` relates `s` to, whether it fails or not,
and fails only with an error that `E` allows from `s`. -/
structure Leads {ε σ α : Type} (R : σ → σ → Prop) (E : σ → ε → Prop) (s : σ)
    (m : EStateM ε σ α) : Prop where
  ok {a : α} {t : σ} : m.run s = .ok a t → R s t
  error {e : ε} {t : σ} : m.run s = .error e t → R s t ∧ E s e

namespace Leads

variable {ε σ α β : Type} {R : σ → σ → Prop} {E : σ → ε → Prop} {s : σ}

/-- A step that only returns leads nowhere new, so it leads where `R` allows when `R` is reflexive
at `s`. -/
theorem pure (hs : R s s) (a : α) : Leads R E s (Pure.pure a : EStateM ε σ α) where
  ok h := by cases h; exact hs
  error h := by cases h

/-- A step that only fails leads where `R` allows when the error is one `E` allows. -/
theorem throw (hs : R s s) {e : ε} (he : E s e) :
    Leads R E s (MonadExcept.throw e : EStateM ε σ α) where
  ok h := by cases h
  error h := by cases h; exact ⟨hs, he⟩

/-- Replacing the state leads to the new state. -/
theorem set {t : σ} (h : R s t) : Leads R E s (MonadState.set t : EStateM ε σ PUnit) where
  ok h' := by cases h'; exact h
  error h' := by cases h'

/-- Changing the state leads to the changed state. -/
theorem modify {g : σ → σ} (h : R s (g s)) : Leads R E s (modify g : EStateM ε σ PUnit) where
  ok h' := by rw [run_modify] at h'; cases h'; exact h
  error h' := by rw [run_modify] at h'; cases h'

/-- A step that goes on as the state says leads where the step it chooses leads. -/
theorem get_bind {g : σ → EStateM ε σ β} (h : Leads R E s (g s)) :
    Leads R E s (MonadState.get >>= g) := ⟨h.ok, h.error⟩

/-- Sequencing, where the relation composes and an error allowed from a later state is allowed
from an earlier one. -/
theorem bind (trans : ∀ {t u : σ}, R s t → R t u → R s u)
    (back : ∀ {t : σ} {e : ε}, R s t → E t e → E s e) {m : EStateM ε σ α}
    {g : α → EStateM ε σ β} (hm : Leads R E s m)
    (hg : ∀ a t, m.run s = .ok a t → Leads R E t (g a)) : Leads R E s (m >>= g) where
  ok {b u} h := by
    obtain ⟨a, t, h₁, h₂⟩ := run_bind_eq_ok.1 h
    exact trans (hm.ok h₁) ((hg a t h₁).ok h₂)
  error {e u} h := by
    rw [run_bind] at h
    -- the error comes from the first step, or from the second after the first succeeded
    cases h₁ : m.run s with
    | ok a t =>
      rw [h₁] at h
      have hst := hm.ok h₁
      obtain ⟨htu, he⟩ := (hg a t h₁).error h
      exact ⟨trans hst htu, back hst he⟩
    | error e' t =>
      rw [h₁] at h
      cases h
      exact hm.error h₁

/-- A step's end state and the error it reported, if any. -/
theorem outcome {m : EStateM ε σ α} (h : Leads R E s m) :
    R s (m.run s).outcome.2 ∧ ∀ e ∈ (m.run s).outcome.1, E s e := by
  cases hm : m.run s with
  | ok a t => exact ⟨h.ok hm, by simp [Result.outcome]⟩
  | error e t =>
    obtain ⟨hst, he⟩ := h.error hm
    exact ⟨hst, by simpa [Result.outcome] using he⟩

end Leads

end EStateM

namespace JsonCodec

/-! ### The readers take no byte past the end -/

namespace Utf8

/-- A run of bytes that is not well formed is refused at a place inside it. -/
theorem decodeFrom_error_lt {done : Nat} {acc : String} {bs : List UInt8} {n : Nat}
    (h : decodeFrom done acc bs = .error n) : n < done + bs.length := by
  fun_induction decodeFrom done acc bs with
  | case1 => simp at h
  | case2 done acc bs hne c rest hc _ ih =>
    -- the character read took the bytes between the two lengths
    have := ih h
    have := decodeChar?_length_lt hc
    omega
  | case3 done acc bs hne hc =>
    simp only [Except.error.injEq] at h
    have : bs ≠ [] := by simpa using hne
    have := List.length_pos_of_ne_nil this
    omega

/-- A list that fails to decode fails at an offset inside it. -/
theorem decode_error_lt {bs : List UInt8} {n : Nat} (h : decode bs = .error n) : n < bs.length := by
  simpa using decodeFrom_error_lt h

end Utf8

namespace Lexeme

/-- White space at the front of the bytes is no longer than the bytes. -/
theorem spaceLength_le (u : Bool) (bs : List UInt8) : spaceLength u bs ≤ bs.length := by
  obtain ⟨w, r, hbs, hlen, -⟩ := spaceLengthFrom_sound u 0 bs
  rw [spaceLength, hlen, hbs, List.length_append]
  omega

/-- A literal word is read off bytes that are there. -/
theorem literal_le {bs : List UInt8} {t : Token} {n : Nat} (h : literal bs = .ok (t, n)) :
    n ≤ bs.length := by
  -- the word is the letters at the front, and its length is what the reader reports
  have hw : (bs.takeWhile isAlpha).length ≤ bs.length := (List.takeWhile_prefix _).length_le
  simp only [literal] at h
  split_ifs at h with h₁ h₂ h₃ <;> simp only [Except.ok.injEq, Prod.mk.injEq] at h <;>
    obtain ⟨-, rfl⟩ := h
  · rw [h₁] at hw; simpa [nullWord] using hw
  · rw [h₂] at hw; simpa [trueWord] using hw
  · rw [h₃] at hw; simpa [falseWord] using hw

/-- A number lexeme is made of bytes that are there. -/
theorem numberLexeme?_length_le {bs : List UInt8} {l : NumberLexeme}
    (h : numberLexeme? bs = some l) : l.length ≤ bs.length := by
  simp only [numberLexeme?, Option.bind_eq_bind] at h
  -- the sign, then the three parts, each read off what the one before left
  split at h <;>
  · simp only [Option.bind_eq_some_iff] at h
    obtain ⟨⟨ints, r⟩, hi, ⟨fracs, fl, r'⟩, hf, ⟨e, el⟩, he, hd⟩ := h
    simp only [Option.some.injEq] at hd
    subst hd
    obtain ⟨-, -, -, hbs⟩ := integerPart?_sound hi
    obtain ⟨fp, -, -, -, hr, rfl⟩ := fractionPart?_sound hf
    obtain ⟨ep, rest, -, hr', rfl⟩ := exponentPart?_sound he
    simp only at hr hr'
    have hlen := congrArg List.length hbs
    rw [hr, hr'] at hlen
    simp only [List.length_append, List.length_drop] at hlen
    simp only [List.length_cons] at hlen ⊢
    omega

/-- The length a scanned number reports is covered by the bytes. -/
theorem scanNumber_le {fast : Nat} {bs : List UInt8} {x : Double} {n : Nat}
    (h : scanNumber fast bs = some (x, n)) : n ≤ bs.length := by
  obtain ⟨l, hl, hx⟩ := Option.map_eq_some_iff.1 h
  simp only [Prod.mk.injEq] at hx
  rw [← hx.2]
  exact numberLexeme?_length_le hl

end Lexeme

namespace Escape

/-- A `\u` escape's four hex digits take four bytes at least. -/
theorem Spells.length_ge {bs : List UInt8} {u : Nat} (h : Spells bs u) : 4 ≤ bs.length := by
  obtain ⟨_, _, _, _, rest, rfl, -⟩ := h
  simp

/-- A group of digits that fails does so at a byte of the group, or where the bytes end. -/
theorem BadGroup.le {bs : List UInt8} {off : Nat} {e : SyntaxFault × Nat} (h : BadGroup bs off e) :
    e.2 ≤ off + bs.length := by
  obtain ⟨pre, rest, rfl, -, -, ⟨-, rfl⟩ | ⟨b, r, -, -, rfl⟩⟩ := h <;> simp

/-- A `\u` escape takes no byte past the end, and is refused no further than the end. -/
theorem unicode_within (after : List UInt8) (off : Nat) :
    (∀ c n, unicode after off = .ok (c, n) → n ≤ after.length) ∧
      ∀ f o, unicode after off = .error (f, o) → o ≤ off + 2 + after.length := by
  have h := unicodeEscape_unicode after off
  generalize unicode after off = r at h
  cases h with
  | unit hu => exact ⟨by simpa using hu.length_ge, by simp⟩
  | pair _ _ _ _ hl =>
    have := hl.length_ge
    exact ⟨fun c n h => by cases h; simp at this; omega, by simp⟩
  | badFirst he => exact ⟨by simp, fun f o h => by cases h; exact he.le⟩
  | loneHigh => exact ⟨by simp, fun f o h => by cases h; omega⟩
  | badSecond hu _ _ hp he =>
    -- the second group starts six bytes in, after the backslash and `u` that are there
    have hlen : 6 ≤ after.length := by
      have := congrArg List.length hp
      simp at this
      omega
    refine ⟨by simp, fun f o h => ?_⟩
    cases h
    have := he.le
    simp at this
    omega
  | notLow _ _ _ hp hl =>
    have := hl.length_ge
    exact ⟨by simp, fun f o h => by cases h; simp at this; omega⟩
  | loneLow => exact ⟨by simp, fun f o h => by cases h; omega⟩

/-- An escape takes no byte past the end, and is refused no further than the end. -/
theorem decode_within (after : List UInt8) (off : Nat) :
    (∀ c n, decode after off = .ok (c, n) → n ≤ after.length) ∧
      ∀ f o, decode after off = .error (f, o) → o ≤ off + 1 + after.length := by
  cases after with
  | nil => exact ⟨by simp [decode], fun f o h => by simp [decode] at h; omega⟩
  | cons x rest =>
    obtain ⟨hok, herr⟩ := unicode_within rest off
    rcases decode_cons_cases x rest off with ⟨-, ch, -, -, hd⟩ | ⟨-, hmo, hme⟩ | ⟨c, hd⟩
    · -- a short escape takes its letter
      rw [hd]
      refine ⟨fun c n h => ?_, fun f o h => (by cases h)⟩
      cases h
      simp
    · -- `\u` takes the letter and what the unicode reader took, and fails as it does
      cases hu : unicode rest off with
      | ok p =>
        rw [hmo p hu]
        refine ⟨fun c n h => ?_, fun f o h => (by cases h)⟩
        cases h
        simpa using hok p.1 p.2 hu
      | error e =>
        rw [hme e hu]
        refine ⟨fun c n h => (by cases h), fun f o h => ?_⟩
        cases h
        have := herr f o hu
        simp only [List.length_cons]
        omega
    · rw [hd]
      refine ⟨fun c n h => (by cases h), fun f o h => ?_⟩
      cases h
      omega

end Escape

namespace StringLiteral

/-- Where dropping `k` bytes leaves a byte and more, the list is that long. -/
theorem length_of_drop_eq_cons {bs after : List UInt8} {k : Nat} {b : UInt8}
    (h : bs.drop k = b :: after) : bs.length = k + 1 + after.length := by
  have := congrArg List.length h
  simp only [List.length_drop, List.length_cons] at this
  omega

/-- The bytes before the first stop byte are well formed UTF-8, or refused at one of them. -/
theorem decode_take_error_lt {bs : List UInt8} {k n : Nat} (h : Utf8.decode (bs.take k) = .error n) :
    n < bs.length := by
  have := Utf8.decode_error_lt h
  simp only [List.length_take] at this
  omega

/-- A string body ends no further than the end of its bytes, and fails no further than that:
at the literal's start when no closing quote comes, else at a byte of the body or where the
bytes of an escape run out. -/
theorem body_within {start : Nat} {acc : Option String} {bs : List UInt8} {off : Nat}
    (hs : start ≤ off) :
    (∀ t e, body start acc bs off = .ok (t, e) → e ≤ off + bs.length) ∧
      ∀ f o, body start acc bs off = .error (f, o) → o ≤ off + bs.length := by
  fun_induction body start acc bs off with
  | case1 | case2 => exact ⟨by simp, fun f o h => by cases h; omega⟩
  | case3 acc bs off k _ run after n hn _ | case5 acc bs off k _ run after n hn _ _ =>
    have := decode_take_error_lt hn
    exact ⟨by simp, fun f o h => by cases h; omega⟩
  | case4 acc bs off k _ run after s _ _ hdrop =>
    have := length_of_drop_eq_cons hdrop
    exact ⟨fun t e h => by cases h; omega, by simp⟩
  | case6 acc bs off k _ run after s _ e he hdrop _ =>
    -- the escape begins right after the backslash, and its bytes are the rest of the body
    have := length_of_drop_eq_cons hdrop
    have := (Escape.decode_within after (off + k)).2 e.1 e.2 he
    exact ⟨by simp, fun f o h => by cases h; omega⟩
  | case7 acc bs off k _ run after s _ c n hc hdrop _ _ ih =>
    have hlen := length_of_drop_eq_cons hdrop
    have hn := (Escape.decode_within after (off + k)).1 c n hc
    obtain ⟨hok, herr⟩ := ih (by omega)
    simp only [List.length_drop] at hok herr
    exact ⟨fun t e h => by have := hok t e h; omega, fun f o h => by have := herr f o h; omega⟩
  | case8 acc bs off k _ b after hdrop =>
    have := length_of_drop_eq_cons hdrop
    exact ⟨by simp, fun f o h => by cases h; omega⟩

/-- A string literal at `start` ends, or fails, no further than the end of its bytes. -/
theorem scan_within (bs : List UInt8) (start : Nat) :
    (∀ t e, scan bs start = .ok (t, e) → e ≤ start + bs.length) ∧
      ∀ f o, scan bs start = .error (f, o) → o ≤ start + bs.length := by
  cases bs with
  | nil => exact ⟨by simp [scan, body], fun f o h => by simp [scan, body] at h; omega⟩
  | cons b rest =>
    obtain ⟨hok, herr⟩ := @body_within start none rest (start + 1) (Nat.le_succ start)
    simp only [scan, List.drop_succ_cons, List.drop_zero, List.length_cons]
    exact ⟨fun t e h => by have := hok t e h; omega, fun f o h => by have := herr f o h; omega⟩

end StringLiteral

/-! ### Every step keeps to the input -/

/-- A fault reported no further than offset `n`. -/
def ReadError.Within (e : ReadError) (n : Nat) : Prop := ∀ o ∈ e.offset, o ≤ n

namespace Scanner

/-- The cursor and the bytes after it make up the whole input. -/
theorem pos_add_rest_length (s : Scanner) : s.pos + s.rest.length = s.input.length := by
  have := s.pos_le
  rw [rest_length, s.size_eq]
  omega

/-- The latest token starts inside the input. -/
theorem last_le_length {s : Scanner} (hs : s.last ≤ s.pos) : s.last ≤ s.input.length :=
  Nat.le_trans hs s.pos_le

/-- The readers run at the cursor end inside the input, and fault no further: past white
space, a word, a number or a string literal the cursor would still be within the input. -/
structure ReadsWithin (s : Scanner) : Prop where
  space : s.pos + Lexeme.spaceLength s.unicodeSpace s.rest ≤ s.input.length
  literal {t : Token} {n : Nat} : Lexeme.literal s.rest = .ok (t, n) → s.pos + n ≤ s.input.length
  number {x : Double} {n : Nat} :
    Lexeme.scanNumber Lexeme.fastIntegerDigits s.rest = some (x, n) → s.pos + n ≤ s.input.length
  string {t : Text} {e : Nat} : StringLiteral.scan s.rest s.pos = .ok (t, e) → e ≤ s.input.length
  stringFault {f : SyntaxFault} {o : Nat} :
    StringLiteral.scan s.rest s.pos = .error (f, o) → o ≤ s.input.length

/-- Every scanner's readers stay within its input. -/
theorem readsWithin (s : Scanner) : s.ReadsWithin := by
  have hlen := pos_add_rest_length s
  obtain ⟨hok, herr⟩ := StringLiteral.scan_within s.rest s.pos
  refine ⟨?_, fun h => ?_, fun h => ?_, fun h => ?_, fun h => ?_⟩
  · have := Lexeme.spaceLength_le s.unicodeSpace s.rest; omega
  · have := Lexeme.literal_le h; omega
  · have := Lexeme.scanNumber_le h; omega
  · exact hlen ▸ hok _ _ h
  · exact hlen ▸ herr _ _ h

/-- A scanner that a step from `s` may end in: over the same input, the cursor not moved back,
and the latest token starting no later than the cursor. -/
structure Moves (s t : Scanner) : Prop where
  input : t.input = s.input
  pos : s.pos ≤ t.pos
  last : t.last ≤ t.pos

/-- A scanner moves to itself. -/
theorem Moves.refl {s : Scanner} (hs : s.last ≤ s.pos) : Moves s s := ⟨rfl, Nat.le_refl _, hs⟩

/-- Moving is transitive. -/
theorem Moves.trans {s t u : Scanner} (h₁ : Moves s t) (h₂ : Moves t u) : Moves s u :=
  ⟨h₂.input.trans h₁.input, Nat.le_trans h₁.pos h₂.pos, h₂.last⟩

/-- Advancing the cursor is a move. -/
theorem moves_advance {s : Scanner} (hs : s.last ≤ s.pos) (k : Nat) : Moves s (s.advance k) := by
  refine ⟨advance_input s k, ?_, ?_⟩ <;> rw [advance_pos]
  · omega
  · rw [advance_last]; omega

/-- Marking the start of a token at the cursor is a move. -/
theorem moves_withMark (s : Scanner) : Moves s s.withMark := ⟨rfl, Nat.le_refl _, Nat.le_refl _⟩

/-- Putting a token back is a move. -/
theorem moves_pending {s : Scanner} (hs : s.last ≤ s.pos) (t : Option Token) :
    Moves s { s with pending := t } := ⟨rfl, Nat.le_refl _, hs⟩

/-- A step that, run from `s`, keeps to its input: it ends in a scanner that `s` moves to,
whether it fails or not, and a fault it reports lies within the input. -/
def KeepsAt {α : Type} (s : Scanner) (m : ScanM α) : Prop :=
  EStateM.Leads Moves (fun s (e : ReadError) => e.Within s.input.length) s m

/-- A step that keeps to its input from every scanner whose latest token starts no later than
its cursor. -/
def Keeps {α : Type} (m : ScanM α) : Prop := ∀ s : Scanner, s.last ≤ s.pos → KeepsAt s m

namespace KeepsAt

variable {α β : Type} {s : Scanner}

/-- A step that only returns keeps to the input. -/
theorem pure (hs : s.last ≤ s.pos) (a : α) : KeepsAt s (Pure.pure a : ScanM α) :=
  EStateM.Leads.pure (.refl hs) a

/-- A step that fails within the input keeps to it. -/
theorem throw (hs : s.last ≤ s.pos) {e : ReadError} (he : e.Within s.input.length) :
    KeepsAt s (MonadExcept.throw e : ScanM α) :=
  EStateM.Leads.throw (.refl hs) he

/-- A syntax fault reported within the input keeps to it. -/
theorem fail (hs : s.last ≤ s.pos) (f : SyntaxFault) {o : Nat} (ho : o ≤ s.input.length) :
    KeepsAt s (Scanner.fail f o : ScanM α) :=
  .throw hs fun o' h => by cases h; exact ho

/-- Replacing the scanner by one it moves to keeps to the input. -/
theorem set {t : Scanner} (h : Moves s t) : KeepsAt s (MonadState.set t : ScanM PUnit) :=
  EStateM.Leads.set h

/-- Changing the scanner into one it moves to keeps to the input. -/
theorem modify {g : Scanner → Scanner} (h : Moves s (g s)) :
    KeepsAt s (modify g : ScanM PUnit) :=
  EStateM.Leads.modify h

/-- A step that goes on as the scanner says keeps to the input when the step it chooses does. -/
theorem get_bind {g : Scanner → ScanM β} (h : KeepsAt s (g s)) :
    KeepsAt s (MonadState.get >>= g) :=
  EStateM.Leads.get_bind h

/-- Keeping to the input is closed under sequencing: the second step runs from where the first
left the scanner, over the same input. -/
theorem bind {m : ScanM α} {g : α → ScanM β} (hm : KeepsAt s m)
    (hg : ∀ a t, m.run s = .ok a t → KeepsAt t (g a)) : KeepsAt s (m >>= g) :=
  EStateM.Leads.bind Moves.trans (fun h he => h.input ▸ he) hm hg

/-- A step keeping to the input from `s`, then steps that keep to it from anywhere, keep to it. -/
theorem bind_keeps {m : ScanM α} {g : α → ScanM β} (hm : KeepsAt s m) (hg : ∀ a, Keeps (g a)) :
    KeepsAt s (m >>= g) :=
  hm.bind fun a _ h => hg a _ (hm.ok h).last

/-- Moving the scanner and returning keeps to the input. -/
theorem set_pure {t : Scanner} (h : Moves s t) (a : α) :
    KeepsAt s (MonadState.set t >>= fun _ => (Pure.pure a : ScanM α)) :=
  KeepsAt.bind (.set h) fun _ _ h' => by cases h'; exact .pure h.last a

end KeepsAt

/-- Skipping white space keeps to the input. -/
theorem skipSpace_keeps : Keeps skipSpace := fun _ hs => .modify (moves_advance hs _)

/-- Marking the start of a token keeps to the input. -/
theorem mark_keeps : Keeps mark := fun s _ => .modify (moves_withMark s)

/-- Scanning a string literal keeps to the input, its faults included. -/
theorem scanString_keeps : Keeps scanString := by
  intro s hs
  refine .get_bind ?_
  split
  · exact .set_pure (moves_advance hs _) _
  · next f o h => exact .fail hs f ((readsWithin s).stringFault h)

/-- A step that only returns keeps to the input from every scanner. -/
theorem pure_keeps {α : Type} (a : α) : Keeps (Pure.pure a : ScanM α) := fun _ hs => .pure hs a

/-- Keeping to the input from every scanner is closed under sequencing. -/
theorem Keeps.bind {α β : Type} {m : ScanM α} {g : α → ScanM β} (hm : Keeps m)
    (hg : ∀ a, Keeps (g a)) : Keeps (m >>= g) :=
  fun s hs => (hm s hs).bind_keeps hg

/-- Scanning one token keeps to the input. -/
theorem scanToken_keeps : Keeps scanToken := by
  intro s hs
  refine .get_bind ?_
  -- a bracket moves one byte on, a string or number or word the length its reader gives, and
  -- every fault is at the cursor
  split
  · exact .fail hs _ s.pos_le
  · split_ifs
    · exact .set_pure (moves_advance hs 1) _
    · exact .set_pure (moves_advance hs 1) _
    · exact (scanString_keeps s hs).bind_keeps fun _ => pure_keeps _
    · split
      · exact .set_pure (moves_advance hs _) _
      · exact .fail hs _ s.pos_le
    · split
      · exact .set_pure (moves_advance hs _) _
      · exact .fail hs _ s.pos_le
    · exact .fail hs _ s.pos_le

/-- Taking the next token, a put-back one first, keeps to the input. -/
theorem next_keeps : Keeps next := by
  intro s hs
  refine .get_bind ?_
  split
  · exact .set_pure (moves_pending hs none) _
  · exact (skipSpace_keeps.bind fun _ => mark_keeps.bind fun _ => scanToken_keeps) s hs

/-- Looking at the next kind keeps to the input. -/
theorem peekKind_keeps : Keeps peekKind :=
  next_keeps.bind fun _ _ hs => KeepsAt.bind_keeps (.modify (moves_pending hs _)) fun _ => pure_keeps _

/-- Expecting a container's start keeps to the input. -/
theorem expectStart_keeps (expected : Kind) : Keeps (expectStart expected) := by
  refine next_keeps.bind fun t _ hs => ?_
  split
  · exact .pure hs _
  · -- a token of the wrong kind is reported where it begins
    exact .get_bind (.throw hs fun o h => by cases h; exact last_le_length hs)

/-- Stepping an array, past its comma or to its closing bracket, keeps to the input. -/
theorem arrayNext_keeps (first : Bool) : Keeps (arrayNext first) := by
  intro s hs
  refine .get_bind ?_
  split
  · split
    · exact .pure hs _
    · exact .fail hs _ (last_le_length hs)
  · refine (skipSpace_keeps.bind fun _ => mark_keeps.bind fun _ s hs => .get_bind ?_) s hs
    split
    · exact .fail hs _ s.pos_le
    · split_ifs
      · exact .set_pure (moves_advance hs 1) _
      · exact .set_pure (moves_advance hs 1) _
      · exact .pure hs _
      · exact .fail hs _ s.pos_le

/-- Expecting the colon after a member's name keeps to the input. -/
theorem expectColon_keeps (name : Text) : Keeps (expectColon name) := by
  refine skipSpace_keeps.bind fun _ s hs => .get_bind ?_
  split
  · exact .fail hs _ s.pos_le
  · split_ifs
    · exact .set_pure (moves_advance hs 1) _
    · exact .fail hs _ s.pos_le

/-- Reading a member's name keeps to the input. -/
theorem propertyName_keeps : Keeps propertyName := by
  intro s hs
  refine .get_bind ?_
  split
  · exact .fail hs _ s.pos_le
  · split_ifs
    · exact (scanString_keeps.bind expectColon_keeps) s hs
    · exact .fail hs _ s.pos_le

/-- Stepping an object, past its comma and the next name or to its closing brace, keeps to the
input. -/
theorem objectNext_keeps (first : Bool) : Keeps (objectNext first) := by
  intro s hs
  refine .get_bind ?_
  split
  · -- the token put back is taken, and a fault about it is reported where it began
    have hp := moves_pending hs none
    refine KeepsAt.bind (.set hp) fun _ t h => ?_
    cases h
    split
    · split
      · exact expectColon_keeps _ _ hp.last
      · exact .fail hp.last _ (last_le_length hs)
    · exact .fail hp.last _ (last_le_length hs)
  · refine (skipSpace_keeps.bind fun _ => mark_keeps.bind fun _ s hs => .get_bind ?_) s hs
    split
    · exact .fail hs _ s.pos_le
    · split_ifs
      · exact .set_pure (moves_advance hs 1) _
      · refine KeepsAt.bind_keeps (.set (moves_advance hs 1)) fun _ => ?_
        exact skipSpace_keeps.bind fun _ => propertyName_keeps
      · exact propertyName_keeps s hs
      · exact .fail hs _ s.pos_le

/-- Checking for the end of the input is a move. -/
theorem moves_isEof {s : Scanner} (hs : s.last ≤ s.pos) : Moves s (isEof s).2 := by
  unfold isEof
  split
  · exact .refl hs
  · exact moves_advance hs _

/-! ### Any sequence of calls -/

/-- The calls a client makes on a scanner: its operations, and putting a token back. -/
inductive Call where
  | next
  | pushback (t : Token)
  | peekKind
  | isEof
  | expectStart (k : Kind)
  | arrayNext (first : Bool)
  | objectNext (first : Bool)

/-- A call as a step of the scanner, what it returns left aside. -/
def Call.run : Call → ScanM Unit
  | .next => Scanner.next >>= fun _ => pure ()
  | .pushback t => modify fun s => { s with pending := some t }
  | .peekKind => Scanner.peekKind >>= fun _ => pure ()
  | .isEof => modify fun s => (Scanner.isEof s).2
  | .expectStart k => Scanner.expectStart k
  | .arrayNext first => Scanner.arrayNext first >>= fun _ => pure ()
  | .objectNext first => Scanner.objectNext first >>= fun _ => pure ()

/-- The scanners a sequence of calls passes through, each with the fault its call reported; a
call that fails leaves the scanner where it stopped, and the next call goes on from there. -/
def Call.trace (s : Scanner) : List Call → List (Option ReadError × Scanner)
  | [] => []
  | c :: cs =>
    let r := (c.run.run s).outcome
    r :: trace r.2 cs

/-- Every call a client makes on a scanner keeps to the input. -/
theorem Call.run_keeps : ∀ c : Call, Keeps c.run
  | .next => next_keeps.bind fun _ => pure_keeps _
  | .pushback _ => fun _ hs => .modify (moves_pending hs _)
  | .peekKind => peekKind_keeps.bind fun _ => pure_keeps _
  | .isEof => fun _ hs => .modify (moves_isEof hs)
  | .expectStart k => expectStart_keeps k
  | .arrayNext first => (arrayNext_keeps first).bind fun _ => pure_keeps _
  | .objectNext first => (objectNext_keeps first).bind fun _ => pure_keeps _

/-- Along any sequence of calls, every scanner passed through is one the first moves to, and
every fault is reported within the input. -/
theorem Call.trace_keeps {s : Scanner} (hs : s.last ≤ s.pos) (calls : List Call) :
    ∀ r ∈ Call.trace s calls, Moves s r.2 ∧ ∀ e ∈ r.1, e.Within s.input.length := by
  induction calls generalizing s with
  | nil => simp [Call.trace]
  | cons c cs ih =>
    obtain ⟨hst, he⟩ := (c.run_keeps s hs).outcome
    intro r hr
    simp only [Call.trace, List.mem_cons] at hr
    rcases hr with rfl | hr
    · exact ⟨hst, he⟩
    · -- later calls start from the scanner this one left, over the same input
      obtain ⟨hr₁, hr₂⟩ := ih hst.last r hr
      exact ⟨hst.trans hr₁, hst.input ▸ hr₂⟩

/-- Along any sequence of calls the cursor never moves back. -/
theorem Call.trace_pos_chain {s : Scanner} (hs : s.last ≤ s.pos) (calls : List Call) :
    List.IsChain (· ≤ ·) (s.pos :: (Call.trace s calls).map (·.2.pos)) := by
  induction calls generalizing s with
  | nil => simp [Call.trace]
  | cons c cs ih =>
    obtain ⟨hst, -⟩ := (c.run_keeps s hs).outcome
    simp only [Call.trace, List.map_cons]
    exact .cons_cons hst.pos (ih hst.last)

/-- Whatever the bytes, over any sequence of calls on a scanner at their start, every scanner
passed through has its latest token starting no later than its cursor and its cursor within the
input, the readers at its cursor end inside the input, every fault is reported within the input,
and the cursor never moves back. -/
theorem Call.trace_offsets_in_bounds (bs : List UInt8) (u : Bool) (calls : List Call) :
    (∀ r ∈ Call.trace (ofBytes bs u) calls,
      r.2.last ≤ r.2.pos ∧ r.2.pos ≤ bs.length ∧ r.2.ReadsWithin ∧ ∀ e ∈ r.1, e.Within bs.length) ∧
      List.IsChain (· ≤ ·) (0 :: (Call.trace (ofBytes bs u) calls).map (·.2.pos)) := by
  have hs : (ofBytes bs u).last ≤ (ofBytes bs u).pos := Nat.le_refl 0
  refine ⟨fun r hr => ?_, Call.trace_pos_chain hs calls⟩
  obtain ⟨hm, he⟩ := Call.trace_keeps hs calls r hr
  have hpos := r.2.pos_le
  rw [hm.input] at hpos
  exact ⟨hm.last, hpos, readsWithin r.2, he⟩

end Scanner

end JsonCodec
