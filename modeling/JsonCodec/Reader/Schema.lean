import JsonCodec.Reader.Basic
import JsonCodec.Writer.Basic

/-! # Typed documents

A `Schema` describes the shape of a typed document: a boolean, a 32-bit or 64-bit signed integer,
a 32-bit unsigned integer, a number, a string (`string` as text, `text` with whether it was the
input's own bytes), any value, or an optional, a list or a map (sorted by key) of a shape. Its
values form the type `Schema.Carrier`.

`Schema.read` reads a value of the shape: integers are numbers truncated toward zero and clamped
to their range, an optional looks ahead for a null, a list needs an array and a map an object,
where a later duplicate key replaces the earlier one. `Schema.write` writes it back.
-/

namespace JsonCodec

/-- The shape of a typed document. -/
inductive Schema where
  | bool
  | int32
  | int64
  | uint32
  | float
  | string
  | text
  | value
  | option (item : Schema)
  | list (item : Schema)
  | map (item : Schema)

/-- The values of a shape. -/
def Schema.Carrier : Schema → Type
  | .bool => Bool
  | .int32 => Int32
  | .int64 => Int64
  | .uint32 => UInt32
  | .float => Double
  | .string => String
  | .text => Text
  | .value => Value
  | .option s => Option s.Carrier
  | .list s => List s.Carrier
  | .map s => List (String × s.Carrier)

namespace Reader

variable {σ : Type} [Source σ]

/-- Reads the elements of an array with `item`, one per step of the cursor. -/
def listLoop {α : Type} (item : ReadM σ α) : Nat → ArrayCursor → Array α → ReadM σ (List α)
  | 0, _, _ => exhausted
  | fuel + 1, c, acc => do
    let (more, c) ← c.next
    if more then listLoop item fuel c (acc.push (← item))
    else return acc.toList

/-- Reads the members of an object with `item` into a map sorted by name. -/
def mapLoop {α : Type} (item : ReadM σ α) :
    Nat → ObjectCursor → List (String × α) → ReadM σ (List (String × α))
  | 0, _, _ => exhausted
  | fuel + 1, c, acc => do
    let (more, c) ← c.next
    if more then
      let v ← item
      mapLoop item fuel c (insertEntry c.name.str v acc)
    else return acc

end Reader

namespace Schema

/-- Reads a value of the shape. -/
def read {σ : Type} [Source σ] : (s : Schema) → ReadM σ s.Carrier
  | .bool => Reader.bool
  | .int32 => Reader.int
  | .int64 => Reader.long
  | .uint32 => return (← Reader.double).toUInt32
  | .float => Reader.double
  | .string => return (← Reader.string).str
  | .text => Reader.string
  | .value => Reader.value
  | .option s => do
    if (← Reader.peekKind) = .null then
      Reader.null
      return none
    else return some (← s.read)
  | .list s => do
    let c ← Reader.array
    Reader.listLoop s.read (Source.budget (← get).source + 1) c #[]
  | .map s => do
    let c ← Reader.object
    Reader.mapLoop s.read (Source.budget (← get).source + 1) c []

/-- Writes a value of the shape. -/
def write : (s : Schema) → s.Carrier → Writer → Writer
  | .bool, b, w => w.bool b
  | .int32, n, w => w.integer n.toInt
  | .int64, n, w => w.integer n.toInt
  | .uint32, n, w => w.integer n.toNat
  | .float, x, w => w.double x
  | .string, s, w => w.string s
  | .text, t, w => w.string t.str
  | .value, v, w => w.writeValue v
  | .option _, none, w => w.null
  | .option s, some v, w => s.write v w
  | .list s, vs, w => (vs.foldl (fun w v => s.write v w) (w.openScope true).1).endScope true
  | .map s, ms, w =>
    (ms.foldl (fun w (k, v) => s.write v (w.writeName k)) (w.openScope false).1).endScope false

end Schema

end JsonCodec
