import JsonCodec.Reader.Schema
import JsonCodec.Scanner.Basic
import JsonCodec.Tree.Source

/-! # Whole documents

Reading a document from text or bytes reads one value of the requested shape and then requires
that nothing but white space is left. Reading from a tree reads the value and stops, whatever the
tree still holds. Writing a typed value gives its text.
-/

namespace JsonCodec

namespace Schema

/-- Reads a document of the shape from bytes: the value, then the end of the input. -/
def parseBytes (s : Schema) (bs : List UInt8) (unicodeSpace : Bool) : Except ReadError s.Carrier :=
  let m : ReadM Scanner s.Carrier := do
    let v ← s.read
    Reader.finish
    return v
  match m.run (Reader.ofSource (Scanner.ofBytes bs unicodeSpace)) with
  | .ok v _ => .ok v
  | .error e _ => .error e

/-- Reads a value of the shape from a tree, coercing scalars when `coerce` is set. -/
def readTree (s : Schema) (v : Value) (coerce : Bool) : Except ReadError s.Carrier :=
  match s.read.run (Reader.ofSource (TreeSource.ofValue v coerce)) with
  | .ok r _ => .ok r
  | .error e _ => .error e

/-- The text of a typed value. -/
def render (s : Schema) (v : s.Carrier) (escapeNonAscii : Bool) : String :=
  (s.write v (Writer.new escapeNonAscii)).out

end Schema

/-- Reads a JSON text into a value, with the default options. -/
def Value.parse (text : String) : Except ReadError Value :=
  Schema.value.parseBytes text.toUTF8.toList false

end JsonCodec
