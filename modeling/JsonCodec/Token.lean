import JsonCodec.Number.Double

/-! # Tokens

What a source of JSON values hands to a reader: the kind of a value (`Kind`), a scalar or the start
of a container (`Token`), and strings as `Text`, which also records whether the characters stand
in the input as they are. A string with no escape sequence needs no decoding, so a reader can hand
out a slice of its input; one with an escape is decoded into fresh text.
-/

namespace JsonCodec

/-- The six kinds of JSON value. -/
inductive Kind where
  | null
  | bool
  | number
  | string
  | array
  | object
deriving DecidableEq, Inhabited

/-- The name of a kind, as messages write it. -/
def Kind.name : Kind → String
  | .null => "null"
  | .bool => "bool"
  | .number => "number"
  | .string => "string"
  | .array => "array"
  | .object => "object"

/-- A string as a reader hands it out: its characters, and whether they are the input's own
(no escape had to be decoded, so nothing was copied). -/
structure Text where
  str : String
  verbatim : Bool
deriving DecidableEq, Inhabited

/-- A scalar value, or the start of an array or an object. -/
inductive Token where
  | null
  | bool (b : Bool)
  | number (x : Double)
  | string (s : Text)
  | arrayStart
  | objectStart
deriving DecidableEq, Inhabited

/-- The kind of value a token begins. -/
def Token.kind : Token → Kind
  | .null => .null
  | .bool _ => .bool
  | .number _ => .number
  | .string _ => .string
  | .arrayStart => .array
  | .objectStart => .object

end JsonCodec
