import JsonCodec.Writer.Number
import JsonCodec.Writer.Escape
import JsonCodec.Value

/-! # The writer

A `Writer` builds the text of a JSON document from front to back. It keeps the text so far and the
scopes (arrays and objects) that are open, innermost first, each with whether it holds an item
yet. A value inside an array is preceded by a comma unless it is the first; inside an object the
comma comes with the member's name (`writeName`), and a name written while the innermost scope is
an array (or at the top) is written as a first name, with no comma.

A scope is opened by `openScope`, which gives the depth it sits at, and closed by `closeScope` only
if it is the innermost open scope at that depth and of that kind; otherwise nothing changes and the
answer is `WriteError.scopeMismatch`. `finish` gives the text once every scope is closed.
-/

namespace JsonCodec

/-- An open array or object of a writer. -/
structure Scope where
  inArray : Bool
  hasItems : Bool

/-- A document being written: the text so far, the open scopes (innermost first) and their number. -/
structure Writer where
  out : String
  scopes : List Scope
  depth : Nat
  escapeNonAscii : Bool
  depth_eq : depth = scopes.length

namespace Writer

/-- An empty document. -/
def new (escapeNonAscii : Bool) : Writer := ⟨"", [], 0, escapeNonAscii, rfl⟩

/-- Appends text. -/
def emit (w : Writer) (s : String) : Writer := { w with out := w.out ++ s }

/-- Changes the innermost scope, if there is one. -/
def modifyTop (w : Writer) (f : Scope → Scope) : Writer :=
  { w with
    scopes := w.scopes.modifyHead f
    depth_eq := by rw [List.length_modifyHead]; exact w.depth_eq }

/-- Opens a scope inside the others. -/
def pushScope (w : Writer) (s : Scope) : Writer :=
  { w with
    scopes := s :: w.scopes
    depth := w.depth + 1
    depth_eq := by rw [List.length_cons, w.depth_eq] }

/-- Leaves the innermost scope. -/
def popScope (w : Writer) : Writer :=
  { w with
    scopes := w.scopes.tail
    depth := w.depth - 1
    depth_eq := by rw [List.length_tail, w.depth_eq] }

/-- Writes the comma before a value that is not the first of its array, and counts the value. -/
def beforeValue (w : Writer) : Writer :=
  match w.scopes with
  | s :: _ =>
    if s.inArray then
      let w := if s.hasItems then w.emit "," else w
      w.modifyTop fun s => { s with hasItems := true }
    else w
  | [] => w

/-- Writes `null`. -/
def null (w : Writer) : Writer := w.beforeValue.emit "null"

/-- Writes a boolean. -/
def bool (w : Writer) (b : Bool) : Writer := w.beforeValue.emit (if b then "true" else "false")

/-- Writes a whole number. -/
def integer (w : Writer) (n : Int) : Writer := w.beforeValue.emit (integerText n)

/-- Writes a binary64 number. -/
def double (w : Writer) (x : Double) : Writer := w.beforeValue.emit x.jsonText

/-- Writes a string. -/
def string (w : Writer) (s : String) : Writer := w.beforeValue.emit (Escape.quote w.escapeNonAscii s)

/-- Writes the name of an object member and its colon, after a comma unless it is the first
name of the innermost object. -/
def writeName (w : Writer) (name : String) : Writer :=
  let (first, w) : Bool × Writer := match w.scopes with
    | s :: _ =>
      if s.inArray then (true, w)
      else (!s.hasItems, w.modifyTop fun s => { s with hasItems := true })
    | [] => (true, w)
  let w := if first then w else w.emit ","
  (w.emit (Escape.quote w.escapeNonAscii name)).emit ":"

/-- Starts an object member that may be left out: the name is written when the object is written
`live` and the member is `present`; gives whether the member's value is written. A member left
out writes nothing, and nothing written as its value reaches the document. -/
def maybeName (w : Writer) (live : Bool) (name : String) (present : Bool) : Writer × Bool :=
  if live && present then (w.writeName name, true) else (w, false)

/-- Writes an optional value: the value by `write`, or `null` where there is none. -/
def orNull {α : Type} (write : Writer → α → Writer) (w : Writer) : Option α → Writer
  | some a => write w a
  | none => w.null

/-- Opens an array (`inArray`) or an object; gives the depth of the new scope. -/
def openScope (w : Writer) (inArray : Bool) : Writer × Nat :=
  let w := (w.beforeValue.emit (if inArray then "[" else "\x7b")).pushScope ⟨inArray, false⟩
  (w, w.depth)

/-- Closes the innermost scope, whatever it is. -/
def endScope (w : Writer) (inArray : Bool) : Writer :=
  w.popScope.emit (if inArray then "]" else "\x7d")

/-- Closes the scope opened at `depth`, if it is the innermost one and of the given kind. -/
def closeScope (w : Writer) (depth : Nat) (inArray : Bool) : Except WriteError Writer :=
  match w.scopes with
  | s :: _ =>
    if w.depth = depth ∧ s.inArray = inArray then .ok (w.endScope inArray)
    else .error (.scopeMismatch depth w.depth)
  | [] => .error (.scopeMismatch depth w.depth)

/-- The finished text, if no scope is left open. -/
def finish (w : Writer) : Except WriteError String :=
  if w.depth = 0 then .ok w.out else .error (.unclosedScopes w.depth)

mutual
/-- Writes a whole value. -/
def value (w : Writer) : Value → Writer
  | .null => w.null
  | .bool b => w.bool b
  | .number x => w.double x
  | .string s => w.string s
  | .array items => (valueItems (w.openScope true).1 items).endScope true
  | .object members => (valueMembers (w.openScope false).1 members).endScope false

/-- Writes the items of an array. -/
def valueItems (w : Writer) : List Value → Writer
  | [] => w
  | v :: rest => valueItems (w.value v) rest

/-- Writes the members of an object. -/
def valueMembers (w : Writer) : List (String × Value) → Writer
  | [] => w
  | (k, v) :: rest => valueMembers ((w.writeName k).value v) rest
end

/-- Writes the value the loop holds, if any: a scalar whole, or a container's opening bracket,
its elements or members becoming the innermost frame. -/
def startValue (w : Writer) (frames : List TreeFrame) : Option Value → Writer × List TreeFrame
  | some .null => (w.null, frames)
  | some (.bool b) => (w.bool b, frames)
  | some (.number x) => (w.double x, frames)
  | some (.string s) => (w.string s, frames)
  | some (.array items) => ((w.openScope true).1, .array items :: frames)
  | some (.object members) => ((w.openScope false).1, .object members :: frames)
  | none => (w, frames)

/-- The loop that writes a whole value with its open containers kept as frames, innermost
first. Each turn writes the value in hand, then takes the next element of the innermost frame,
or its next member with the member's name written at once; a frame with nothing left is closed
with its bracket, and the loop ends when no frame is left. Each turn spends one unit of fuel. -/
def valueLoop : Nat → Writer → List TreeFrame → Option Value → Writer
  | 0, w, _, _ => w
  | fuel + 1, w, frames, next =>
    match w.startValue frames next with
    | (w, []) => w
    | (w, .array (v :: rest) :: outer) => valueLoop fuel w (.array rest :: outer) (some v)
    | (w, .array [] :: outer) => valueLoop fuel (w.endScope true) outer none
    | (w, .object ((k, v) :: rest) :: outer) =>
      valueLoop fuel (w.writeName k) (.object rest :: outer) (some v)
    | (w, .object [] :: outer) => valueLoop fuel (w.endScope false) outer none

/-- Writes a whole value by the loop. It takes one turn per node and one more after each
container is closed, so twice the value's nodes is fuel enough. -/
def writeValue (w : Writer) (v : Value) : Writer := w.valueLoop (2 * v.size) [] (some v)

end Writer

/-- A handle on a scope opened in a writer, through which its items are written; a discarding
handle writes nothing. Closing a handle closes its scope once: after the first close, whether it
succeeded or not, closing again does nothing. -/
structure Handle where
  live : Bool
  inArray : Bool
  depth : Nat
  closed : Bool

namespace Handle

/-- A handle that writes nothing and has nothing to close. -/
def discarding (inArray : Bool) : Handle := ⟨false, inArray, 0, true⟩

/-- Opens a scope through a live writer (or makes a discarding handle). -/
def start (w : Writer) (live inArray : Bool) : Writer × Handle :=
  if live then
    let (w, d) := w.openScope inArray
    (w, ⟨true, inArray, d, false⟩)
  else (w, discarding inArray)

/-- Closes the handle's scope, reporting an out-of-order close. -/
def close (h : Handle) (w : Writer) : Except WriteError Unit × Handle × Writer :=
  if h.closed then (.ok (), h, w)
  else
    let h := { h with closed := true }
    if h.live then
      match w.closeScope h.depth h.inArray with
      | .ok w => (.ok (), h, w)
      | .error e => (.error e, h, w)
    else (.ok (), h, w)

/-- Closes the handle's scope, ignoring an out-of-order close. -/
def drop (h : Handle) (w : Writer) : Writer := (h.close w).2.2

end Handle

end JsonCodec
