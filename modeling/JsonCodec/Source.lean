import JsonCodec.Error

/-! # Sources of values

A `Source` is what a reader pulls JSON values from, one token at a time: the scanner over the text
of a document, or a walk over a tree already in memory. Its operations run in
`EStateM ReadError σ`, so a failing step still leaves the source in a definite state.

`Token.check` is the one rule every source applies when a value of some kind is asked for: the
token passes when it is of that kind, or a null where a null is allowed; otherwise the answer is a
mismatch carrying the source's offset.
-/

namespace JsonCodec

/-- Passes a token of the kind asked for (or a null, when `allowNull`); any token when no kind
is asked for. -/
def Token.check (t : Token) (desired : Option Kind) (allowNull : Bool) (offset : Option Nat) :
    Except ReadError Token :=
  match desired with
  | none => .ok t
  | some k =>
    if t.kind = k ∨ (allowNull ∧ t.kind = .null) then .ok t
    else .error (.mismatch k t.kind offset)

/-- A source of JSON values. -/
class Source (σ : Type) where
  /-- The next value's token, checked by `Token.check` against the kind asked for. -/
  nextValue : Option Kind → Bool → EStateM ReadError σ Token
  /-- The kind of the next value, which stays unread. -/
  peekKind : EStateM ReadError σ Kind
  /-- Steps inside the innermost array: whether a value follows (`first` right after the start). -/
  arrayNext : Bool → EStateM ReadError σ Bool
  /-- Steps inside the innermost object: the next property name, or none at the end. -/
  objectNext : Bool → EStateM ReadError σ (Option Text)
  /-- Whether nothing but white space is left. -/
  isEof : σ → Bool × σ
  /-- Where the latest token began, if the source knows offsets. -/
  offset : σ → Option Nat
  /-- A bound on the number of values the source can still yield. -/
  budget : σ → Nat

end JsonCodec
