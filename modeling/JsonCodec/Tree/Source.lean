import JsonCodec.Source
import JsonCodec.Value
import JsonCodec.Number.Parse
import JsonCodec.Unicode.Space
import JsonCodec.Writer.Number

/-! # Trees as sources

A `TreeSource` hands out the nodes of a `Value` held in memory, so that the reader works on a tree
as it works on text. It holds the node that comes next (if any) and the containers it is inside,
each with the elements or members still to come. Members come in the object's own order, sorted by
name. A tree has no byte offsets: every error it reports has none.

With coercion on, a scalar of one kind may be read as another when a kind is asked for: a boolean
or a number as a string (the number as a written document would show it), the strings `true`,
`on`, `false` and `off` as booleans, and a string as a number when, trimmed of white space, it
reads as a finite number in the relaxed form of `Double.parse?`.
-/

namespace JsonCodec

/-- A walk over a tree: the next node, the containers around it, whether to coerce, and a count
of the nodes not yet taken (the tree's size, less one per node taken). -/
structure TreeSource where
  current : Option Value
  frames : List TreeFrame
  coerce : Bool
  remaining : Nat

/-- Text with white space (the Unicode White_Space property) removed from both ends. -/
def trimSpace (s : String) : String :=
  String.ofList ((s.toList.dropWhile Unicode.isSpace).reverse.dropWhile Unicode.isSpace).reverse

/-- A token read as the kind asked for, where coercion allows it; otherwise the token itself. -/
def Token.coerce (t : Token) (desired : Kind) : Token :=
  match desired, t with
  | .string, .bool b => .string ⟨if b then "true" else "false", true⟩
  | .string, .number x => .string ⟨x.jsonText, false⟩
  | .bool, .string s =>
    if s.str = "true" ∨ s.str = "on" then .bool true
    else if s.str = "false" ∨ s.str = "off" then .bool false
    else t
  | .number, .string s =>
    match Double.parse? (trimSpace s.str) with
    | some x => if x.isFinite then .number x else t
    | none => t
  | _, _ => t

namespace TreeSource

/-- A walk at the root of a tree. -/
def ofValue (v : Value) (coerce : Bool) : TreeSource := ⟨some v, [], coerce, v.size⟩

/-- The token of a node. -/
def nodeToken : Value → Token
  | .null => .null
  | .bool b => .bool b
  | .number x => .number x
  | .string s => .string ⟨s, true⟩
  | .array _ => .arrayStart
  | .object _ => .objectStart

/-- The container a node opens, if it is one. -/
def nodeFrame : Value → Option TreeFrame
  | .array items => some (.array items)
  | .object members => some (.object members)
  | _ => none

/-- The fault of reading past the end of the tree. -/
def exhausted : ReadError := .fault .unexpectedEnd none

/-- The fault of stepping a container that is not the innermost open one. -/
def notInContainer : ReadError := .fault .notInContainer none

/-- Takes the next node; a container is entered once its token passes the check. -/
def nextValue (desired : Option Kind) (allowNull : Bool) : EStateM ReadError TreeSource Token := do
  let s ← get
  match s.current with
  | none => throw exhausted
  | some node =>
    set { s with current := none, remaining := s.remaining - 1 }
    let t := nodeToken node
    let t := match desired with
      | some k => if s.coerce then t.coerce k else t
      | none => t
    match t.check desired allowNull none with
    | .error e => throw e
    | .ok t =>
      if let some f := nodeFrame node then
        modify fun s => { s with frames := f :: s.frames }
      return t

/-- The kind of the next node. -/
def peekKind : EStateM ReadError TreeSource Kind := do
  match (← get).current with
  | none => throw exhausted
  | some node => return (nodeToken node).kind

/-- Steps the innermost array: its next element becomes the next node. -/
def arrayNext : EStateM ReadError TreeSource Bool := do
  let s ← get
  match s.frames with
  | .array (v :: rest) :: fs => set { s with current := some v, frames := .array rest :: fs }; return true
  | .array [] :: fs => set { s with current := none, frames := fs }; return false
  | _ => throw notInContainer

/-- Steps the innermost object: its next member's value becomes the next node. -/
def objectNext : EStateM ReadError TreeSource (Option Text) := do
  let s ← get
  match s.frames with
  | .object ((k, v) :: rest) :: fs =>
    set { s with current := some v, frames := .object rest :: fs }
    return some ⟨k, true⟩
  | .object [] :: fs => set { s with current := none, frames := fs }; return none
  | _ => throw notInContainer

end TreeSource

/-- A tree in memory is a source of values. -/
instance : Source TreeSource where
  nextValue := TreeSource.nextValue
  peekKind := TreeSource.peekKind
  arrayNext _ := TreeSource.arrayNext
  objectNext _ := TreeSource.objectNext
  isEof s := (s.current.isNone && s.frames.isEmpty, s)
  offset _ := none
  budget s := s.remaining

end JsonCodec
