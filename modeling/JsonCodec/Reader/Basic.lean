import JsonCodec.Source
import JsonCodec.Value

/-! # The reader

A `Reader` pulls typed values out of a `Source`. Scalars are read by kind (`bool`, `double`, …,
each with an `…OrNull` form that also takes a null); containers are read through cursors:
`ArrayCursor.next` and `ObjectCursor.next` step to the next element, and a cursor that is done
stays done.

The reader remembers whether the latest step of a cursor produced a value that has not been read
yet (`awaiting`). Stepping the cursor on skips such a value whole, so a caller may ignore elements
it does not want. An object cursor may require property names: when its object ends, the first
required name not seen is reported. A seen name marks only the first entry with that name, so a
name required twice stays missing.

Skipping and reading a whole value walk the nesting with an explicit list of open containers, so
depth costs no stack. Their loops run on fuel taken from the source's budget, one unit per value
pulled; a source that keeps to its budget never lets the fuel run out.
-/

namespace JsonCodec

/-- A reader over a source of values. -/
structure Reader (σ : Type) where
  source : σ
  awaiting : Bool

/-- Steps of a reader, which fail with a read error and keep the reader's state either way. -/
abbrev ReadM (σ : Type) := EStateM ReadError (Reader σ)

/-- A cursor over an array: whether there was an array at all (not a null), whether it has been
stepped, and whether it is done. -/
structure ArrayCursor where
  defined : Bool
  started : Bool
  done : Bool
deriving Inhabited

/-- A cursor over an object, like `ArrayCursor`, with the latest property name and the required
names, each with whether it has been seen. -/
structure ObjectCursor where
  defined : Bool
  started : Bool
  done : Bool
  name : Text
  required : List (String × Bool)
deriving Inhabited

/-- A cursor over an array that is there (`defined`) or stands for a null. -/
def ArrayCursor.ofDefined (defined : Bool) : ArrayCursor := ⟨defined, false, !defined⟩

/-- A cursor over an object that is there (`defined`) or stands for a null. -/
def ObjectCursor.ofDefined (defined : Bool) : ObjectCursor :=
  ⟨defined, false, !defined, ⟨"", true⟩, []⟩

/-- The cursor with a new list of required names, none of them seen yet. -/
def ObjectCursor.requireAll (c : ObjectCursor) (names : List String) : ObjectCursor :=
  { c with required := names.map fun n => (n, false) }

/-- Marks the first required entry of the given name as seen. -/
def markSeen (name : String) : List (String × Bool) → List (String × Bool)
  | [] => []
  | (n, seen) :: rest => if n = name then (n, true) :: rest else (n, seen) :: markSeen name rest

namespace Reader

variable {σ : Type} [Source σ]

/-- A reader at the start of a source. -/
def ofSource (s : σ) : Reader σ := ⟨s, false⟩

/-- Runs a step of the source. -/
def lift {α : Type} (m : EStateM ReadError σ α) : ReadM σ α := fun r =>
  match m r.source with
  | .ok a s => .ok a { r with source := s }
  | .error e s => .error e { r with source := s }

/-- Where the latest token began, if the source knows offsets. -/
def offset (r : Reader σ) : Option Nat := Source.offset r.source

/-- Whether nothing but white space is left. -/
def isEof : ReadM σ Bool := fun r =>
  let (b, s) := Source.isEof r.source
  .ok b { r with source := s }

/-- The kind of the next value, which stays unread. -/
def peekKind : ReadM σ Kind := lift Source.peekKind

/-- Checks that the document has ended: anything but white space is trailing data, reported
where its token begins (a malformed token is reported as itself). -/
def finish : ReadM σ Unit := do
  if ← isEof then return ()
  let _ ← peekKind
  throw (.fault .trailingData (← get).offset)

/-- Marks the pending value as being read. -/
def beginRead : ReadM σ Unit := modify fun r => { r with awaiting := false }

/-- Reads the next value's token, which must be of the given kind (or a null when allowed). -/
def take (desired : Kind) (allowNull : Bool) : ReadM σ Token := do
  beginRead
  lift (Source.nextValue (some desired) allowNull)

/-- Fails with a mismatch between the kind asked for and the token read. -/
def mismatch {α : Type} (expected : Kind) (t : Token) : ReadM σ α := do
  throw (.mismatch expected t.kind (← get).offset)

/-- Reads a null. -/
def null : ReadM σ Unit := do
  match ← take .null false with
  | .null => return ()
  | t => mismatch .null t

/-- Reads a boolean. -/
def bool : ReadM σ Bool := do
  match ← take .bool false with
  | .bool b => return b
  | t => mismatch .bool t

/-- Reads a boolean or a null. -/
def boolOrNull : ReadM σ (Option Bool) := do
  match ← take .bool true with
  | .bool b => return some b
  | .null => return none
  | t => mismatch .bool t

/-- Reads a number. -/
def double : ReadM σ Double := do
  match ← take .number false with
  | .number x => return x
  | t => mismatch .number t

/-- Reads a number or a null. -/
def doubleOrNull : ReadM σ (Option Double) := do
  match ← take .number true with
  | .number x => return some x
  | .null => return none
  | t => mismatch .number t

/-- Reads a number as a 32-bit integer, truncated and clamped. -/
def int : ReadM σ Int32 := return (← double).toInt32

/-- Reads a number as a 32-bit integer, or a null. -/
def intOrNull : ReadM σ (Option Int32) := return (← doubleOrNull).map Double.toInt32

/-- Reads a number as a 64-bit integer, truncated and clamped. -/
def long : ReadM σ Int64 := return (← double).toInt64

/-- Reads a number as a 64-bit integer, or a null. -/
def longOrNull : ReadM σ (Option Int64) := return (← doubleOrNull).map Double.toInt64

/-- Reads a string. -/
def string : ReadM σ Text := do
  match ← take .string false with
  | .string s => return s
  | t => mismatch .string t

/-- Reads a string or a null. -/
def stringOrNull : ReadM σ (Option Text) := do
  match ← take .string true with
  | .string s => return some s
  | .null => return none
  | t => mismatch .string t

/-- Reads the start of an array. -/
def array : ReadM σ ArrayCursor := do
  match ← take .array false with
  | .arrayStart => return .ofDefined true
  | t => mismatch .array t

/-- Reads the start of an array, or a null as a cursor with nothing in it. -/
def arrayOrNull : ReadM σ ArrayCursor := do
  match ← take .array true with
  | .arrayStart => return .ofDefined true
  | .null => return .ofDefined false
  | t => mismatch .array t

/-- Reads the start of an object. -/
def object : ReadM σ ObjectCursor := do
  match ← take .object false with
  | .objectStart => return .ofDefined true
  | t => mismatch .object t

/-- Reads the start of an object, or a null as a cursor with nothing in it. -/
def objectOrNull : ReadM σ ObjectCursor := do
  match ← take .object true with
  | .objectStart => return .ofDefined true
  | .null => return .ofDefined false
  | t => mismatch .object t

/-- Reads the next value's token, of any kind. -/
def any : ReadM σ Token := do
  beginRead
  lift (Source.nextValue none true)

/-- Steps the innermost container, an array or an object, of the source. -/
def containerNext (inArray first : Bool) : ReadM σ Bool :=
  if inArray then lift (Source.arrayNext first)
  else return (← lift (Source.objectNext first)).isSome

/-- Steps the innermost open container on (`first` right after its start), leaving the ones that
end and stepping the one around them. Gives the containers still open, each at a value. -/
def stepOut (first : Bool) : List Bool → ReadM σ (List Bool)
  | [] => return []
  | inArray :: rest => do
    if ← containerNext inArray first then return inArray :: rest
    else stepOut false rest

/-- The fault reported if a loop's fuel runs out, which a source within its budget never causes. -/
def exhausted {α : Type} : ReadM σ α := do throw (.fault .unexpectedEnd (← get).offset)

/-- Skips values until the containers opened on the way are closed; `stack` holds them,
innermost first, true for an array. -/
def skipLoop : Nat → List Bool → ReadM σ Unit
  | 0, _ => exhausted
  | fuel + 1, stack => do
    let t ← lift (Source.nextValue none true)
    let stack ← match t with
      | .arrayStart => stepOut true (true :: stack)
      | .objectStart => stepOut true (false :: stack)
      | _ => stepOut false stack
    if stack.isEmpty then return () else skipLoop fuel stack

/-- Skips the next value whole. -/
def skipValue : ReadM σ Unit := do
  beginRead
  skipLoop (Source.budget (← get).source + 1) []

/-- Steps an array on; a value left unread by the previous step is skipped first. -/
def advanceArray (first : Bool) : ReadM σ Bool := do
  if !first && (← get).awaiting then skipValue
  let more ← lift (Source.arrayNext first)
  modify fun r => { r with awaiting := more }
  return more

/-- Steps an object on; a value left unread by the previous step is skipped first. -/
def advanceObject (first : Bool) : ReadM σ (Option Text) := do
  if !first && (← get).awaiting then skipValue
  let name ← lift (Source.objectNext first)
  modify fun r => { r with awaiting := name.isSome }
  return name

/-- An array or an object being read, with what it holds so far (and the name of the member
whose value comes next). -/
inductive Open where
  | array (items : Array Value)
  | object (members : List (String × Value)) (name : String)

/-- Hands a finished value to the innermost open container and steps on, closing containers that
end. Gives the whole value once the outermost closes, or the containers still open. -/
def settle (v : Value) : List Open → ReadM σ (Value ⊕ List Open)
  | [] => return .inl v
  | .array items :: rest => do
    let items := items.push v
    if ← lift (Source.arrayNext false) then return .inr (.array items :: rest)
    else settle (.array items.toList) rest
  | .object members name :: rest => do
    let members := insertEntry name v members
    match ← lift (Source.objectNext false) with
    | some n => return .inr (.object members n.str :: rest)
    | none => settle (.object members) rest

/-- Reads values into the open containers until the outermost closes. -/
def valueLoop : Nat → List Open → ReadM σ Value
  | 0, _ => exhausted
  | fuel + 1, stack => do
    let t ← lift (Source.nextValue none true)
    let r ← match t with
      | .arrayStart =>
        if ← lift (Source.arrayNext true) then pure (.inr (.array #[] :: stack))
        else settle (.array []) stack
      | .objectStart => do
        match ← lift (Source.objectNext true) with
        | some n => pure (.inr (.object [] n.str :: stack))
        | none => settle (.object []) stack
      | .null => settle .null stack
      | .bool b => settle (.bool b) stack
      | .number x => settle (.number x) stack
      | .string s => settle (.string s.str) stack
    match r with
    | .inl v => return v
    | .inr stack => valueLoop fuel stack

/-- Reads the next value whole into a tree. -/
def value : ReadM σ Value := do
  beginRead
  valueLoop (Source.budget (← get).source + 1) []

end Reader

namespace ArrayCursor

variable {σ : Type} [Source σ]

/-- Steps to the next element: true when there is one. -/
def next (c : ArrayCursor) : ReadM σ (Bool × ArrayCursor) := do
  if c.done then return (false, c)
  let more ← Reader.advanceArray !c.started
  return (more, { c with started := true, done := !more })

end ArrayCursor

namespace ObjectCursor

variable {σ : Type} [Source σ]

/-- Steps to the next member, whose name becomes the cursor's: true when there is one. At the end
of the object the name is empty and the first required name not seen is reported. -/
def next (c : ObjectCursor) : ReadM σ (Bool × ObjectCursor) := do
  if c.done then return (false, c)
  match ← Reader.advanceObject !c.started with
  | some name =>
    return (true, { c with started := true, name, required := markSeen name.str c.required })
  | none =>
    let c := { c with started := true, done := true, name := ⟨"", true⟩ }
    match c.required.find? fun e => !e.2 with
    | some (n, _) => throw (.missingProperty n (← get).offset)
    | none => return (false, c)

end ObjectCursor

end JsonCodec
