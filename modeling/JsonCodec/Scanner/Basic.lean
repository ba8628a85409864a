import JsonCodec.Scanner.Lexeme
import JsonCodec.Scanner.StringLiteral
import JsonCodec.Number.Round
import JsonCodec.Source

/-! # The scanner

A `Scanner` reads the bytes of a JSON document one token at a time, without building a tree. It
holds the whole input and its length (`size`), the position of the cursor with the bytes from there
on (`rest`, always `input.drop pos`, so a step costs only the bytes it reads), the offset where the
latest token or delimiter began (`last`), and at most one token that was looked at and put back
(`pending`). Nesting is kept by the caller, who steps through
containers with `arrayNext` and `objectNext`.

Every operation runs in `ScanM`, so that a failing step still leaves a definite scanner behind:
its position after a fault is observable. A fault inside a token leaves the cursor at the token's
start. White space is the four JSON blanks, and with `unicodeSpace` every Unicode White_Space
character as well.
-/

namespace JsonCodec

/-- A scanner over the bytes of one JSON document. -/
structure Scanner where
  input : List UInt8
  pos : Nat
  rest : List UInt8
  last : Nat
  pending : Option Token
  unicodeSpace : Bool
  size : Nat
  rest_eq : rest = input.drop pos
  pos_le : pos ≤ input.length
  size_eq : size = input.length

/-- Steps of a scanner, which fail with a read error and keep the scanner's state either way. -/
abbrev ScanM := EStateM ReadError Scanner

namespace Scanner

/-- A scanner at the start of the given bytes. -/
def ofBytes (bs : List UInt8) (unicodeSpace : Bool) : Scanner :=
  { input := bs, pos := 0, rest := bs, last := 0, pending := none, unicodeSpace, size := bs.length
    rest_eq := rfl, pos_le := Nat.zero_le _, size_eq := rfl }

/-- A scanner at the start of the UTF-8 bytes of a text. -/
def ofString (s : String) (unicodeSpace : Bool) : Scanner :=
  ofBytes s.toUTF8.toList unicodeSpace

/-- Dropping as far as the list allows is dropping the number asked for. -/
private theorem drop_add_min {α : Type} (l : List α) (p k : Nat) (h : p ≤ l.length) :
    l.drop (p + min k (l.length - p)) = l.drop (p + k) := by
  by_cases hk : k ≤ l.length - p
  · rw [Nat.min_eq_left hk]
  · rw [Nat.min_eq_right (by omega), List.drop_eq_nil_of_le (by omega),
      List.drop_eq_nil_of_le (by omega)]

/-- Drops up to `k` elements of a list, adding the number dropped to `acc`. -/
def dropCount {α : Type} (acc : Nat) : Nat → List α → Nat × List α
  | 0, l => (acc, l)
  | _ + 1, [] => (acc, [])
  | k + 1, _ :: l => dropCount (acc + 1) k l

/-- `dropCount` drops what `List.drop` drops and counts it. -/
theorem dropCount_eq {α : Type} (acc k : Nat) (l : List α) :
    dropCount acc k l = (acc + min k l.length, l.drop k) := by
  induction k generalizing acc l with
  | zero => simp [dropCount]
  | succ k ih =>
    cases l with
    | nil => simp [dropCount]
    | cons a l =>
      simp only [dropCount, ih, List.length_cons, List.drop_succ_cons, Prod.mk.injEq, and_true]
      omega

/-- Moves the cursor `k` bytes on, stopping at the end of the input. -/
def advance (s : Scanner) (k : Nat) : Scanner :=
  match h : dropCount 0 k s.rest with
  | (n, r) =>
    have hn : n = min k s.rest.length ∧ r = s.rest.drop k := by
      rw [dropCount_eq] at h
      simp only [Nat.zero_add, Prod.mk.injEq] at h
      exact ⟨h.1.symm, h.2.symm⟩
    { s with
      pos := s.pos + n
      rest := r
      rest_eq := by
        rw [hn.1, hn.2, s.rest_eq, List.drop_drop, List.length_drop, drop_add_min _ _ _ s.pos_le]
      pos_le := by
        have := s.pos_le
        rw [hn.1, s.rest_eq, List.length_drop]
        omega }

/-- Fails with a syntax fault at the given offset. -/
def fail {α : Type} (f : SyntaxFault) (off : Nat) : ScanM α := throw (.fault f (some off))

/-- Steps over white space. -/
def skipSpace : ScanM Unit :=
  modify fun s => s.advance (Lexeme.spaceLength s.unicodeSpace s.rest)

/-- Records the cursor as where the latest token or delimiter begins. -/
def mark : ScanM Unit := modify fun s => { s with last := s.pos }

/-- Reads the string literal whose opening quote is at the cursor. -/
def scanString : ScanM Text := do
  let s ← get
  match StringLiteral.scan s.rest s.pos with
  | .ok (t, e) => set (s.advance (e - s.pos)); return t
  | .error (f, o) => fail f o

/-- Reads the token that begins at the cursor. -/
def scanToken : ScanM Token := do
  let s ← get
  match s.rest with
  | [] => fail .unexpectedEnd s.pos
  | b :: _ =>
    if b = 0x5B then set (s.advance 1); return .arrayStart
    else if b = 0x7B then set (s.advance 1); return .objectStart
    else if b = 0x22 then return .string (← scanString)
    else if b = 0x2D ∨ Lexeme.isDigit b then
      match Lexeme.scanNumber Lexeme.fastIntegerDigits s.rest with
      | some (x, n) => set (s.advance n); return .number x
      | none => fail .invalidNumber s.pos
    else if Lexeme.isAlpha b then
      match Lexeme.literal s.rest with
      | .ok (t, n) => set (s.advance n); return t
      | .error f => fail f s.pos
    else fail (.unexpectedChar (Utf8.headChar s.rest)) s.pos

/-- The next token: the one put back, if any, else the one after the white space. -/
def next : ScanM Token := do
  let s ← get
  match s.pending with
  | some t => set { s with pending := none }; return t
  | none => skipSpace; mark; scanToken

/-- The kind of the next token, which is put back to be read again. -/
def peekKind : ScanM Kind := do
  let t ← next
  modify fun s => { s with pending := some t }
  return t.kind

/-- Whether nothing but white space is left; steps over that white space. -/
def isEof (s : Scanner) : Bool × Scanner :=
  if s.pending.isSome then (false, s)
  else
    let s := s.advance (Lexeme.spaceLength s.unicodeSpace s.rest)
    (s.rest.isEmpty, s)

/-- Reads the next token, which must begin a container of the given kind. -/
def expectStart (expected : Kind) : ScanM Unit := do
  let t ← next
  if t.kind = expected then return ()
  else
    let s ← get
    throw (.mismatch expected t.kind (some s.last))

/-- Steps inside an array: true when a value follows, false once the closing bracket is read.
With `first` the cursor is right after the opening bracket and no comma is due. -/
def arrayNext (first : Bool) : ScanM Bool := do
  let s ← get
  if s.pending.isSome then
    -- a token looked at right after the bracket is the first value
    if first then return true else fail .pendingToken s.last
  else
    skipSpace
    mark
    let s ← get
    match s.rest with
    | [] => fail .unexpectedEnd s.pos
    | b :: _ =>
      if b = 0x5D then set (s.advance 1); return false
      else if b = 0x2C ∧ first = false then set (s.advance 1); return true
      else if first then return true
      else fail .expectedCommaOrArrayEnd s.pos

/-- Reads the colon after a property name. -/
def expectColon (name : Text) : ScanM (Option Text) := do
  skipSpace
  let s ← get
  match s.rest with
  | [] => fail .unexpectedEnd s.pos
  | b :: _ => if b = 0x3A then set (s.advance 1); return some name else fail .expectedColon s.pos

/-- Reads a property name and its colon at the cursor. -/
def propertyName : ScanM (Option Text) := do
  let s ← get
  match s.rest with
  | [] => fail .unexpectedEnd s.pos
  | b :: _ =>
    if b = 0x22 then expectColon (← scanString)
    else fail (.expectedPropertyName (Utf8.headChar s.rest)) s.pos

/-- Steps inside an object: the next property name with its colon read, or none once the closing
brace is read. With `first` the cursor is right after the opening brace and no comma is due. -/
def objectNext (first : Bool) : ScanM (Option Text) := do
  let s ← get
  match s.pending with
  | some t =>
    set { s with pending := none }
    match t with
    | .string name => if first then expectColon name else fail .pendingToken s.last
    | _ => fail (.expectedPropertyName (Utf8.headChar (s.input.drop s.last))) s.last
  | none =>
    skipSpace
    mark
    let s ← get
    match s.rest with
    | [] => fail .unexpectedEnd s.pos
    | b :: _ =>
      if b = 0x7D then set (s.advance 1); return none
      else if b = 0x2C ∧ first = false then
        set (s.advance 1)
        skipSpace
        propertyName
      else if first then propertyName
      else fail .expectedCommaOrObjectEnd s.pos

/-- An upper bound on the tokens still to come: each takes a byte or is the one put back. -/
def budget (s : Scanner) : Nat := s.size - s.pos + (if s.pending.isSome then 1 else 0)

end Scanner

/-- The scanner is a source of values: it pulls tokens from its bytes and checks each against the
kind asked for. -/
instance : Source Scanner where
  nextValue desired allowNull := do
    let t ← Scanner.next
    let s ← get
    match t.check desired allowNull (some s.last) with
    | .ok t => return t
    | .error e => throw e
  peekKind := Scanner.peekKind
  arrayNext := Scanner.arrayNext
  objectNext := Scanner.objectNext
  isEof := Scanner.isEof
  offset s := some s.last
  budget := Scanner.budget

end JsonCodec
