import JsonCodec.Token
import JsonCodec.Text.Quoted

/-! # Errors

`SyntaxFault` lists what can be wrong with the text of a document; `ReadError` is what a reader
reports: a syntax fault, a value of the wrong kind, or a missing required property, each with the
byte offset where it was found when the source knows offsets. `WriteError` is what a writer
reports. `ReadError.message` and `WriteError.message` give the wording, in one place.
-/

namespace JsonCodec

/-- What can be wrong with the text of a document. -/
inductive SyntaxFault where
  /-- The input ended where more was needed. -/
  | unexpectedEnd
  /-- No value starts with this character. -/
  | unexpectedChar (c : Char)
  /-- A word that is not `null`, `true` or `false`. -/
  | invalidLiteral (word : String)
  /-- A number that breaks the grammar. -/
  | invalidNumber
  /-- A string with no closing quote (or input ending inside an escape). -/
  | unterminatedString
  /-- A backslash followed by a character that starts no escape. -/
  | invalidEscape (c : Char)
  /-- A byte in a `\u` escape that is not a hex digit, read as the character of that code. -/
  | invalidUnicodeEscapeChar (c : Char)
  /-- A `\u` escape whose unit is a surrogate without its partner. -/
  | invalidUnicodeEscape (unit : Nat)
  /-- A control character (below U+0020) inside a string. -/
  | controlChar (code : Nat)
  /-- String bytes that are not well-formed UTF-8. -/
  | invalidUtf8
  /-- Inside an array, neither a comma nor the closing bracket. -/
  | expectedCommaOrArrayEnd
  /-- Inside an object, neither a comma nor the closing brace. -/
  | expectedCommaOrObjectEnd
  /-- Inside an object, something other than a string where a name belongs. -/
  | expectedPropertyName (c : Char)
  /-- A property name not followed by a colon. -/
  | expectedColon
  /-- More input after the end of the document. -/
  | trailingData
  /-- A container step was asked for while a looked-ahead token was still unread. -/
  | pendingToken
  /-- A container step was asked for outside any container. -/
  | notInContainer
deriving DecidableEq, Inhabited

/-- An error met while reading, with the byte offset where it was found, if known. -/
inductive ReadError where
  /-- The text breaks the grammar. -/
  | fault (fault : SyntaxFault) (offset : Option Nat)
  /-- A value of another kind than the one asked for. -/
  | mismatch (expected actual : Kind) (offset : Option Nat)
  /-- An object ended before a required property appeared. -/
  | missingProperty (name : String) (offset : Option Nat)
deriving DecidableEq, Inhabited

/-- An error met while writing. -/
inductive WriteError where
  /-- A scope was closed while it was not the innermost open one of its kind. -/
  | scopeMismatch (expected actual : Nat)
  /-- The document was finished with scopes still open. -/
  | unclosedScopes (count : Nat)
deriving DecidableEq, Inhabited

/-- Four uppercase hex digits, or more if needed. -/
def hexUpper4 (n : Nat) : String :=
  let ds := (Nat.toDigits 16 n).map Char.toUpper
  String.ofList (List.replicate (4 - ds.length) '0' ++ ds)

namespace SyntaxFault

/-- The wording of a fault. -/
def message : SyntaxFault → String
  | .unexpectedEnd => "unexpected end of input"
  | .unexpectedChar c => "unexpected character " ++ Quoted.char c
  | .invalidLiteral w => "invalid literal " ++ Quoted.string w
  | .invalidNumber => "invalid number"
  | .unterminatedString => "unterminated string"
  | .invalidEscape c => "invalid escape sequence '\\" ++ c.toString ++ "'"
  | .invalidUnicodeEscapeChar c => "invalid unicode escape sequence at character " ++ Quoted.char c
  | .invalidUnicodeEscape u => "invalid unicode escape sequence \\u" ++ hexUpper4 u
  | .controlChar n => "unescaped control character U+" ++ hexUpper4 n ++ " in string"
  | .invalidUtf8 => "invalid UTF-8"
  | .expectedCommaOrArrayEnd => "expected ',' or ']'"
  | .expectedCommaOrObjectEnd => "expected ',' or '\x7d'"
  | .expectedPropertyName c => "expected property name but found " ++ Quoted.char c
  | .expectedColon => "expected ':'"
  | .trailingData => "unexpected data after the end of the document"
  | .pendingToken => "a peeked token must be read before advancing"
  | .notInContainer => "not positioned inside a container"

end SyntaxFault

/-- The suffix that places an error, when its offset is known. -/
def atOffset : Option Nat → String
  | some n => " at position " ++ toString n
  | none => ""

namespace ReadError

/-- The offset an error carries. -/
def offset : ReadError → Option Nat
  | .fault _ o => o
  | .mismatch _ _ o => o
  | .missingProperty _ o => o

/-- The wording of an error, with its position when known. -/
def message : ReadError → String
  | .fault f o => f.message ++ atOffset o
  | .mismatch e a o => "expected " ++ e.name ++ " but got " ++ a.name ++ atOffset o
  | .missingProperty n o =>
    "missing required property " ++ Quoted.string n ++ " in JSON object that ended" ++ atOffset o

end ReadError

/-- The wording of a writer error. -/
def WriteError.message : WriteError → String
  | .scopeMismatch e a =>
    "scope closed out of order: expected depth " ++ toString e ++ " but writer is at depth " ++
      toString a
  | .unclosedScopes n => "document finished with " ++ toString n ++ " unclosed scope(s)"

example : hexUpper4 0xd83d = "D83D" ∧ hexUpper4 0x1f = "001F" := by decide

end JsonCodec
