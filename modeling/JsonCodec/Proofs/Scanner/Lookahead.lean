import JsonCodec.Proofs.Reader.Sources

/-! # A token put back

`peekKind` scans the next token and puts it back: the scanner moves past the token and holds
it, with its offset (`last`) already at the token's start. `Scanner.Ahead p u` relates the
scanner `p` that did so to the scanner `u` that did not: `u` has nothing put back, and scanning
its next token would leave it where `p` stands, but for the token held.

Every step that takes the token makes the two equal, and the steps that only look keep them
related:

* `Ahead.nextValue_run`: a value pulled is the same token, with the same state after it;
* `Ahead.peekKind_run`: looking again sees the same kind, and both end where `p` stands;
* `Ahead.isEof`: neither is at the end, and the white space `u` steps over keeps them related;
* `Ahead.arrayNext_first`: the first step into an array answers true on both, and leaves `u`
  at the token's start with its offset now `p`'s;
* `Ahead.objectNext_first`: the first step into an object gives the same name from the same
  state, or the same error.

White space is stepped over in one go (`Lexeme.spaceLength_drop`), so `u` may step over it
first and still scan the same token. `scanToken_eq_ok` says once what a scan that succeeded
read.
-/

namespace JsonCodec

namespace Lexeme

/-- The white space measured from `acc` is a prefix after which none is left. -/
theorem spaceLengthFrom_drop (u : Bool) (acc : Nat) (bs : List UInt8) :
    acc ≤ spaceLengthFrom u acc bs ∧
      spaceLength u (bs.drop (spaceLengthFrom u acc bs - acc)) = 0 := by
  fun_induction spaceLengthFrom u acc bs with
  | case1 acc => simp [spaceLength, spaceLengthFrom]
  | case2 acc b rest hb ih =>
    obtain ⟨hle, hzero⟩ := ih
    refine ⟨by omega, ?_⟩
    rwa [show spaceLengthFrom u (acc + 1) rest - acc = (spaceLengthFrom u (acc + 1) rest - (acc + 1)) + 1
      by omega, List.drop_succ_cons]
  | case3 acc b rest hb hu c r hd _ hs ih =>
    -- a Unicode space is the bytes of its character, which the decoder took
    obtain ⟨hle, hzero⟩ := ih
    have hsplit := Utf8.decodeChar?_sound hd
    have hlen : (String.utf8EncodeChar c).length = c.utf8Size := String.length_utf8EncodeChar c
    refine ⟨by omega, ?_⟩
    rw [hsplit, show spaceLengthFrom u (acc + c.utf8Size) r - acc =
      (String.utf8EncodeChar c).length + (spaceLengthFrom u (acc + c.utf8Size) r - (acc + c.utf8Size))
      by omega, List.drop_length_add_append]
    exact hzero
  | case4 acc b rest hb hu c r hd _ hs =>
    refine ⟨le_rfl, ?_⟩
    rw [Nat.sub_self, List.drop_zero, spaceLength, spaceLengthFrom]
    simp only [hb, Bool.false_eq_true, if_false, hu, if_true]
    split
    · next c' r' hd' =>
      rw [hd] at hd'
      simp only [Option.some.injEq, Prod.mk.injEq] at hd'
      obtain ⟨rfl, rfl⟩ := hd'
      simp [hs]
    · rfl
  | case5 acc b rest hb hu hd =>
    refine ⟨le_rfl, ?_⟩
    rw [Nat.sub_self, List.drop_zero, spaceLength, spaceLengthFrom]
    simp only [hb, Bool.false_eq_true, if_false, hu, if_true]
    split
    · next c' r' hd' => rw [hd] at hd'; cases hd'
    · rfl
  | case6 acc b rest hb hu =>
    refine ⟨le_rfl, ?_⟩
    rw [Nat.sub_self, List.drop_zero, spaceLength, spaceLengthFrom]
    simp [hb, hu]

/-- White space is stepped over in one go: after it, none is left. -/
theorem spaceLength_drop (u : Bool) (bs : List UInt8) :
    spaceLength u (bs.drop (spaceLength u bs)) = 0 := by
  have h := (spaceLengthFrom_drop u 0 bs).2
  rwa [Nat.sub_zero] at h

end Lexeme

namespace Scanner

/-! ### Moving the cursor and scanning a token -/

/-- Advancing the cursor keeps the input. -/
theorem advance_input (s : Scanner) (k : Nat) : (s.advance k).input = s.input := by
  unfold advance; split; rfl

/-- Advancing the cursor keeps where the latest token begins. -/
theorem advance_last (s : Scanner) (k : Nat) : (s.advance k).last = s.last := by
  unfold advance; split; rfl

/-- Advancing by nothing changes nothing. -/
theorem advance_zero (s : Scanner) : s.advance 0 = s := by
  unfold advance
  split
  next n r h =>
    simp only [dropCount, Prod.mk.injEq] at h
    obtain ⟨rfl, rfl⟩ := h
    rfl

/-- The scanner past the white space at its cursor. -/
def pastSpace (s : Scanner) : Scanner := s.advance (Lexeme.spaceLength s.unicodeSpace s.rest)

/-- Skipping white space leaves the scanner past it. -/
theorem skipSpace_run_pastSpace (s : Scanner) : (skipSpace).run s = .ok () s.pastSpace := rfl

/-- Stepping over white space keeps the token put back. -/
theorem pastSpace_pending (s : Scanner) : s.pastSpace.pending = s.pending := advance_pending _ _

/-- Stepping over white space keeps where the latest token begins. -/
theorem pastSpace_last (s : Scanner) : s.pastSpace.last = s.last := advance_last _ _

/-- Past white space, none is left to step over. -/
theorem spaceLength_pastSpace (s : Scanner) :
    Lexeme.spaceLength s.pastSpace.unicodeSpace s.pastSpace.rest = 0 := by
  rw [pastSpace, advance_unicodeSpace, advance_rest]
  exact Lexeme.spaceLength_drop _ _

/-- Recording where the latest token begins keeps the token put back. -/
@[simp] theorem withMark_pending (s : Scanner) : s.withMark.pending = s.pending := rfl

/-- Recording the start of a token twice is recording it once. -/
theorem withMark_withMark (s : Scanner) : s.withMark.withMark = s.withMark := rfl

/-- Stepping over white space twice is stepping over it once. -/
theorem pastSpace_pastSpace (s : Scanner) : s.pastSpace.pastSpace = s.pastSpace := by
  conv => lhs; rw [pastSpace, spaceLength_pastSpace, advance_zero]

/-- Recording the start of a token past white space leaves no white space to step over. -/
theorem pastSpace_withMark (s : Scanner) : s.pastSpace.withMark.pastSpace = s.pastSpace.withMark := by
  conv => lhs; rw [pastSpace, withMark_rest, show s.pastSpace.withMark.unicodeSpace =
    s.pastSpace.unicodeSpace from rfl, spaceLength_pastSpace, advance_zero]

/-- With nothing put back, the next token is scanned past the white space, from a mark there. -/
theorem next_run_clear {s : Scanner} (hp : s.pending = none) :
    (next).run s = (scanToken).run s.pastSpace.withMark :=
  next_clear hp

/-- A literal word is never a string. -/
theorem literal_ne_string {bs : List UInt8} {t : Token} {n : Nat}
    (h : Lexeme.literal bs = .ok (t, n)) (name : Text) : t ≠ .string name := by
  unfold Lexeme.literal at h
  simp only at h
  split_ifs at h <;> cases h <;> simp

/-- What a scan that succeeded read: a byte that starts a value, which is no closing bracket or
brace, and the cursor moved over the token; a string exactly when that byte was a quote, and
then the string literal read there. -/
theorem scanToken_eq_ok {s s' : Scanner} {t : Token} (h : (scanToken).run s = .ok t s') :
    ∃ b bs, s.rest = b :: bs ∧ b ≠ 0x5D ∧ b ≠ 0x7D ∧ (∃ k, s' = s.advance k) ∧
      (if b = 0x22 then ∃ name, t = .string name ∧ (scanString).run s = .ok name s'
        else ∀ name, t ≠ .string name) := by
  simp only [scanToken, EStateM.run_bind, EStateM.run_get] at h
  split at h
  · simp [fail] at h
  · next b bs hr =>
    refine ⟨b, bs, hr, ?_⟩
    by_cases h5B : b = 0x5B
    · subst h5B
      simp only [if_true, EStateM.run_bind, EStateM.run_set, EStateM.run_pure,
        EStateM.Result.ok.injEq] at h
      obtain ⟨rfl, rfl⟩ := h
      exact ⟨by decide, by decide, ⟨1, rfl⟩, by simp⟩
    by_cases h7B : b = 0x7B
    · subst h7B
      simp only [h5B, if_false, if_true, EStateM.run_bind, EStateM.run_set, EStateM.run_pure,
        EStateM.Result.ok.injEq] at h
      obtain ⟨rfl, rfl⟩ := h
      exact ⟨by decide, by decide, ⟨1, rfl⟩, by simp⟩
    by_cases h22 : b = 0x22
    · -- a quote: the string literal is read
      subst h22
      simp only [h5B, h7B, if_false, if_true] at h
      obtain ⟨name, s₁, hs, hp⟩ := EStateM.run_bind_eq_ok.1 h
      simp only [EStateM.run_pure, EStateM.Result.ok.injEq] at hp
      obtain ⟨rfl, rfl⟩ := hp
      refine ⟨by decide, by decide, ?_, by simpa using hs⟩
      simp only [scanString, EStateM.run_bind, EStateM.run_get] at hs
      split at hs
      · next text e _ =>
        simp only [EStateM.run_bind, EStateM.run_set, EStateM.run_pure,
          EStateM.Result.ok.injEq] at hs
        exact ⟨e - s.pos, hs.2.symm⟩
      · simp [fail] at hs
    simp only [h5B, h7B, h22, if_false] at h
    have h5D : ∀ {p : UInt8 → Bool}, p = Lexeme.isDigit ∨ p = Lexeme.isAlpha →
        p b = true → b ≠ 0x5D ∧ b ≠ 0x7D := by
      rintro p (rfl | rfl) hp <;> refine ⟨?_, ?_⟩ <;> rintro rfl <;> revert hp <;> decide
    split_ifs at h with hnum halpha
    · -- a number
      have hb : b ≠ 0x5D ∧ b ≠ 0x7D := by
        rcases hnum with rfl | hd
        · exact ⟨by decide, by decide⟩
        · exact h5D (.inl rfl) hd
      split at h
      · next d n _ =>
        simp only [EStateM.run_bind, EStateM.run_set, EStateM.run_pure,
          EStateM.Result.ok.injEq] at h
        obtain ⟨rfl, rfl⟩ := h
        exact ⟨hb.1, hb.2, ⟨n, rfl⟩, by simp [h22]⟩
      · simp [fail] at h
    · -- a word
      have hb := h5D (.inr rfl) halpha
      split at h
      · next t' n hl =>
        simp only [EStateM.run_bind, EStateM.run_set, EStateM.run_pure,
          EStateM.Result.ok.injEq] at h
        obtain ⟨rfl, rfl⟩ := h
        exact ⟨hb.1, hb.2, ⟨n, rfl⟩, by simpa [h22] using literal_ne_string hl⟩
      · simp [fail] at h
    · simp [fail] at h

/-! ### Ahead by a token -/

/-- `p` holds, put back, the token that `u` has yet to scan: `u` has nothing put back, and
scanning its next token leaves it where `p` stands but for the token held. -/
def Ahead (p u : Scanner) : Prop :=
  u.pending = none ∧ ∃ t, p.pending = some t ∧ (next).run u = .ok t { p with pending := none }

/-- Putting back the token a scanner held gives back the scanner. -/
theorem pending_eta {p : Scanner} {t : Token} (hp : p.pending = some t) :
    { { p with pending := none } with pending := some t } = p := by
  cases p
  simp only at hp
  subst hp
  rfl

/-- Looking ahead from a scanner with nothing put back puts it a token ahead. -/
theorem ahead_of_peekKind {u p : Scanner} {k : Kind} (hu : u.pending = none)
    (h : (peekKind).run u = .ok k p) : Ahead p u := by
  obtain ⟨t, u₁, hn, h⟩ := EStateM.run_bind_eq_ok.1 h
  simp only [EStateM.run_bind, EStateM.run_modify, EStateM.run_pure,
    EStateM.Result.ok.injEq] at h
  obtain ⟨-, rfl⟩ := h
  have hp₁ := next_pending hn
  refine ⟨hu, t, rfl, ?_⟩
  rw [hn]
  cases u₁
  simp only at hp₁
  subst hp₁
  rfl

/-- Looking ahead when a token is already put back changes nothing. -/
theorem peekKind_held {u : Scanner} {t : Token} (hp : u.pending = some t) :
    (peekKind).run u = .ok t.kind u := by
  rw [peekKind_run (next_held hp), pending_eta hp]

section Ahead

variable {p u : Scanner}

/-- The next token is the one held, taken alike on both. -/
theorem Ahead.next_run (h : Ahead p u) : (next).run p = (next).run u := by
  obtain ⟨-, t, hp, hu⟩ := h
  rw [next_held hp, hu]

/-- A value pulled is the token held, pulled alike on both. -/
theorem Ahead.nextValue_run (h : Ahead p u) (desired : Option Kind) (allowNull : Bool) :
    (Source.nextValue desired allowNull : ScanM Token).run p =
      (Source.nextValue desired allowNull).run u := by
  show (next >>= _).run p = (next >>= _).run u
  rw [EStateM.run_bind, EStateM.run_bind, h.next_run]

/-- Looking again sees the token held, and both end where `p` stands. -/
theorem Ahead.peekKind_run (h : Ahead p u) :
    ∃ k, (peekKind).run p = .ok k p ∧ (peekKind).run u = .ok k p := by
  obtain ⟨-, t, hp, hu⟩ := h
  exact ⟨t.kind, peekKind_held hp, by rw [Scanner.peekKind_run hu, pending_eta hp]⟩

/-- The offset of `p` is where the token held begins, and the budget counts it once. -/
theorem Ahead.budget_le (h : Ahead p u) : budget p ≤ budget u := by
  obtain ⟨-, t, hp, hu⟩ := h
  have hlt := budget_lt_of_nextValue (Scanner.nextValue_run hu rfl)
  simp only [budget, hp, Option.isSome_some, if_true, Option.isSome_none, Bool.false_eq_true,
    if_false] at hlt ⊢
  omega

/-- The token held was scanned from the mark past `u`'s white space, which is where `p`'s
offset stands. -/
theorem Ahead.scanToken_run (h : Ahead p u) :
    ∃ t, p.pending = some t ∧
      (scanToken).run u.pastSpace.withMark = .ok t { p with pending := none } := by
  obtain ⟨hu, t, hp, hn⟩ := h
  exact ⟨t, hp, by rwa [next_run_clear hu] at hn⟩

/-- The token held begins where `u` stands past its white space. -/
theorem Ahead.last_eq (h : Ahead p u) : p.last = u.pastSpace.pos := by
  obtain ⟨t, -, hs⟩ := h.scanToken_run
  obtain ⟨b, bs, -, -, -, ⟨k, hk⟩, -⟩ := scanToken_eq_ok hs
  have := congrArg Scanner.last hk
  simpa [advance_last, withMark] using this

/-- A scanner that scans the same token from the same mark is in step with `p` as `u` is. -/
theorem Ahead.of_pastSpace {v : Scanner} (h : Ahead p u) (hv : v.pending = none)
    (hmark : v.pastSpace.withMark = u.pastSpace.withMark) : Ahead p v := by
  obtain ⟨hu, t, hp, hn⟩ := h
  refine ⟨hv, t, hp, ?_⟩
  rwa [next_run_clear hv, hmark, ← next_run_clear hu]

/-- Neither is at the end; `u` steps over its white space and stays a token behind. -/
theorem Ahead.isEof (h : Ahead p u) :
    p.isEof = (false, p) ∧ u.isEof = (false, u.pastSpace) ∧ Ahead p u.pastSpace := by
  obtain ⟨t, hp, hs⟩ := h.scanToken_run
  obtain ⟨b, bs, hr, -⟩ := scanToken_eq_ok hs
  refine ⟨isEof_held hp, ?_, h.of_pastSpace (by rw [pastSpace_pending, h.1]) ?_⟩
  · simp only [Scanner.isEof, h.1, Option.isSome_none, Bool.false_eq_true, if_false]
    rw [show (u.advance (Lexeme.spaceLength u.unicodeSpace u.rest)).rest = b :: bs from hr]
    rfl
  · rw [pastSpace_pastSpace]

/-- The first step into an array answers true on both: `p` keeps the token held, and `u` is
left at the token's start, with `p`'s offset. -/
theorem Ahead.arrayNext_first (h : Ahead p u) :
    (arrayNext true).run p = .ok true p ∧
      (arrayNext true).run u = .ok true u.pastSpace.withMark ∧
        Ahead p u.pastSpace.withMark ∧ p.last = u.pastSpace.withMark.last := by
  obtain ⟨t, hp, hs⟩ := h.scanToken_run
  obtain ⟨b, bs, hr, h5D, -⟩ := scanToken_eq_ok hs
  refine ⟨?_, ?_, h.of_pastSpace (by rw [withMark_pending, pastSpace_pending, h.1])
    (by rw [pastSpace_withMark, withMark_withMark]), h.last_eq⟩
  · simp [arrayNext, hp]
  · simp only [arrayNext, EStateM.run_bind, EStateM.run_get, h.1, Option.isSome_none,
      Bool.false_eq_true, if_false, skipSpace_run_pastSpace, mark_run]
    rw [show u.pastSpace.withMark.rest = b :: bs from hr]
    simp [h5D]

/-- The first step into an object gives the same name from the same state on both, or fails on
both with the same error: a string held is the name, anything else is no name at `p`'s offset,
which is where `u` finds it. -/
theorem Ahead.objectNext_first (h : Ahead p u) :
    (objectNext true).run p = (objectNext true).run u ∨
      ∃ e sp su, (objectNext true).run p = .error e sp ∧ (objectNext true).run u = .error e su := by
  obtain ⟨t, hp, hs⟩ := h.scanToken_run
  obtain ⟨b, bs, hr, -, h7D, -, hstr⟩ := scanToken_eq_ok hs
  have hu : (objectNext true).run u = (propertyName).run u.pastSpace.withMark := by
    simp only [objectNext, EStateM.run_bind, EStateM.run_get, h.1, skipSpace_run_pastSpace,
      mark_run]
    rw [show u.pastSpace.withMark.rest = b :: bs from hr]
    simp [h7D]
  rw [hu]
  split_ifs at hstr with h22
  · -- a string: its text is the name on both, and the colon is read from the same state
    left
    obtain ⟨name, rfl, hname⟩ := hstr
    simp only [propertyName, EStateM.run_bind, EStateM.run_get, objectNext, hp,
      EStateM.run_set, if_true]
    rw [show u.pastSpace.withMark.rest = b :: bs from hr]
    simp [h22, hname]
  · -- anything else is no name, reported at the token's start on both
    right
    have hlast := h.last_eq
    obtain ⟨-, -, -, -, -, ⟨k, hk⟩, -⟩ := scanToken_eq_ok hs
    have hinput : p.input = u.pastSpace.input := by
      simpa [advance_input, withMark] using congrArg Scanner.input hk
    have hp' : (objectNext true).run p = .error (.fault (.expectedPropertyName
        (Utf8.headChar (p.input.drop p.last))) (some p.last)) { p with pending := none } := by
      cases t
      case string name => exact absurd rfl (hstr name)
      all_goals simp [objectNext, hp, fail]
    refine ⟨_, _, u.pastSpace.withMark, hp', ?_⟩
    simp only [propertyName, EStateM.run_bind, EStateM.run_get]
    rw [show u.pastSpace.withMark.rest = b :: bs from hr]
    simp only [h22, if_false, fail]
    rw [hlast, hinput, ← hr, withMark_rest, u.pastSpace.rest_eq]
    rfl

end Ahead

/-! ### A token held, a token ahead or not -/

/-- `p` holds a token put back, and `u` is a token behind it or is `p` itself. -/
def Peeked (p u : Scanner) : Prop := Ahead p u ∨ (u = p ∧ p.pending.isSome)

/-- Looking ahead leaves a scanner that holds what the one before it would take next. -/
theorem peeked_of_peekKind {u p : Scanner} {k : Kind} (h : (peekKind).run u = .ok k p) :
    Peeked p u := by
  cases hu : u.pending with
  | none => exact .inl (ahead_of_peekKind hu h)
  | some t =>
    rw [peekKind_held hu] at h
    cases h
    exact .inr ⟨rfl, by simp [hu]⟩

section Peeked

variable {p u : Scanner}

/-- The scanner that looked holds a token. -/
theorem Peeked.held (h : Peeked p u) : p.pending.isSome := by
  rcases h with ⟨-, t, hp, -⟩ | ⟨-, hp⟩
  · simp [hp]
  · exact hp

/-- Once both have looked, they are the same. -/
theorem Peeked.refl (h : Peeked p u) : Peeked p p := .inr ⟨rfl, h.held⟩

/-- A value pulled is taken alike on both. -/
theorem Peeked.nextValue_run (h : Peeked p u) (desired : Option Kind) (allowNull : Bool) :
    (Source.nextValue desired allowNull : ScanM Token).run p =
      (Source.nextValue desired allowNull).run u := by
  rcases h with h | ⟨rfl, -⟩
  · exact h.nextValue_run desired allowNull
  · rfl

/-- Looking at the next kind sees the same kind on both, and both end where `p` stands. -/
theorem Peeked.peekKind_run (h : Peeked p u) :
    ∃ k, (peekKind).run p = .ok k p ∧ (peekKind).run u = .ok k p := by
  rcases h with h | ⟨rfl, hp⟩
  · exact h.peekKind_run
  · obtain ⟨t, ht⟩ := Option.isSome_iff_exists.1 hp
    exact ⟨t.kind, peekKind_held ht, peekKind_held ht⟩

/-- The scanner that looked has no more budget than the one behind it. -/
theorem Peeked.budget_le (h : Peeked p u) : budget p ≤ budget u := by
  rcases h with h | ⟨rfl, -⟩
  · exact h.budget_le
  · exact le_rfl

/-- Neither is at the end; `u` keeps its offset, and stays behind `p` or equal to it. -/
theorem Peeked.isEof (h : Peeked p u) :
    p.isEof = (false, p) ∧ u.isEof.1 = false ∧ Peeked p u.isEof.2 ∧ u.isEof.2.last = u.last := by
  rcases h with h | ⟨rfl, hp⟩
  · obtain ⟨hp, hu, h'⟩ := h.isEof
    rw [hu]
    exact ⟨hp, rfl, .inl h', pastSpace_last u⟩
  · obtain ⟨t, ht⟩ := Option.isSome_iff_exists.1 hp
    rw [isEof_held ht]
    exact ⟨rfl, rfl, .inr ⟨rfl, hp⟩, rfl⟩

/-- The first step into an array answers true on both, and leaves `u` with `p`'s offset. -/
theorem Peeked.arrayNext_first (h : Peeked p u) :
    (arrayNext true).run p = .ok true p ∧
      ∃ u', (arrayNext true).run u = .ok true u' ∧ Peeked p u' ∧ u'.last = p.last := by
  rcases h with h | ⟨rfl, hp⟩
  · obtain ⟨hp, hu, h', hlast⟩ := h.arrayNext_first
    exact ⟨hp, _, hu, .inl h', hlast.symm⟩
  · have hrun : (arrayNext true).run u = .ok true u := by simp [arrayNext, hp]
    exact ⟨hrun, u, hrun, .inr ⟨rfl, hp⟩, rfl⟩

/-- The first step into an object gives the same result on both, or fails on both with the same
error. -/
theorem Peeked.objectNext_first (h : Peeked p u) :
    (objectNext true).run p = (objectNext true).run u ∨
      ∃ e sp su, (objectNext true).run p = .error e sp ∧ (objectNext true).run u = .error e su := by
  rcases h with h | ⟨rfl, -⟩
  · exact h.objectNext_first
  · exact .inl rfl

end Peeked

end Scanner

end JsonCodec
