import JsonCodec.Writer.Basic
import Mathlib

/-! # Writing a value is writing its canonical text

`Value.render` is the canonical text of a value: `null`, `true` or `false`, a number as
`Double.jsonText` writes it, a string as `Escape.quote` quotes it, an array as its items' texts
between brackets and separated by commas, and an object as its members between braces, each the
quoted name, a colon and the value's text, separated by commas, in the object's own order.

`Writer.value` walks the value with the writer's own scopes: it opens a scope for each container,
lets `beforeValue` and `writeName` place the commas, and closes the scope with `endScope`. The
main result, `Writer.value_eq`, says that all this adds up to one step: the writer emits what its
innermost scope owes before a value (`Writer.separator`, a comma after an earlier item of the same
array), then the value's canonical text, and counts the value in that scope
(`Scope.afterValue`). Every scope opened on the way is closed again, so the scopes are those
found, with the innermost array now holding an item.

The writer's fields change in a few fixed ways (`emit`, `modifyTop`, `pushScope`, `popScope`);
their simp lemmas below let every other proof compare writers field by field (`Writer.ext`).
-/

namespace JsonCodec

mutual
/-- The canonical text of a value; `e` asks for every character above U+007F as an escape. -/
def Value.render (e : Bool) : Value → String
  | .null => "null"
  | .bool b => if b then "true" else "false"
  | .number x => x.jsonText
  | .string s => Escape.quote e s
  | .array items => "[" ++ Value.renderItems e false items ++ "]"
  | .object members => "\x7b" ++ Value.renderMembers e false members ++ "\x7d"

/-- The texts of array items, each after a comma, except the first when `comma` is false. -/
def Value.renderItems (e comma : Bool) : List Value → String
  | [] => ""
  | v :: rest => (if comma then "," else "") ++ v.render e ++ Value.renderItems e true rest

/-- The texts of object members, each after a comma, except the first when `comma` is false. -/
def Value.renderMembers (e comma : Bool) : List (String × Value) → String
  | [] => ""
  | (k, v) :: rest =>
    (if comma then "," else "") ++ Escape.quote e k ++ ":" ++ v.render e ++
      Value.renderMembers e true rest
end

namespace Value

variable (e : Bool)

/-- Joining a list by a separator: its head, then the separator before the rest if there is any. -/
private theorem intercalate_cons (s t : String) (l : List String) :
    s.intercalate (t :: l) = t ++ (if l = [] then "" else s ++ s.intercalate l) := by
  cases l with
  | nil => simp
  | cons u l => simp [String.intercalate_cons_cons, String.append_assoc]

/-- The items of an array rendered one after another are the items joined by commas, after a comma
if one is owed. -/
theorem renderItems_eq (comma : Bool) (items : List Value) :
    renderItems e comma items =
      (if comma && !items.isEmpty then "," else "") ++ ",".intercalate (items.map (render e)) := by
  induction items generalizing comma with
  | nil => simp [renderItems]
  | cons v rest ih =>
    rw [renderItems, ih, List.map_cons, intercalate_cons]
    cases rest <;> cases comma <;> simp [String.append_assoc]

/-- The members of an object rendered one after another are the members joined by commas, after a
comma if one is owed. -/
theorem renderMembers_eq (comma : Bool) (members : List (String × Value)) :
    renderMembers e comma members =
      (if comma && !members.isEmpty then "," else "") ++
        ",".intercalate (members.map fun m => Escape.quote e m.1 ++ ":" ++ m.2.render e) := by
  induction members generalizing comma with
  | nil => simp [renderMembers]
  | cons m rest ih =>
    obtain ⟨k, v⟩ := m
    rw [renderMembers, ih, List.map_cons, intercalate_cons]
    cases rest <;> cases comma <;> simp [String.append_assoc]

/-- An array is written as its items' texts, separated by commas, between brackets. -/
theorem render_array (items : List Value) :
    (array items).render e = "[" ++ ",".intercalate (items.map (render e)) ++ "]" := by
  simp [render, renderItems_eq]

/-- An object is written as its members, each the quoted name, a colon and the value's text,
separated by commas, between braces. -/
theorem render_object (members : List (String × Value)) :
    (object members).render e =
      "\x7b" ++ ",".intercalate (members.map fun m => Escape.quote e m.1 ++ ":" ++ m.2.render e) ++
        "\x7d" := by
  simp [render, renderMembers_eq]

end Value

/-- What a value written in a scope makes of it: an array now holds an item; an object counts its
members through their names instead. -/
def Scope.afterValue (s : Scope) : Scope := if s.inArray then { s with hasItems := true } else s

namespace Writer

/-- Writers with the same text, scopes and escaping option are the same writer: the depth is
the number of scopes. -/
@[ext] theorem ext {w₁ w₂ : Writer} (hout : w₁.out = w₂.out) (hscopes : w₁.scopes = w₂.scopes)
    (hesc : w₁.escapeNonAscii = w₂.escapeNonAscii) : w₁ = w₂ := by
  obtain ⟨out₁, scopes₁, depth₁, esc₁, h₁⟩ := w₁
  obtain ⟨out₂, scopes₂, depth₂, esc₂, h₂⟩ := w₂
  simp only at hout hscopes hesc
  subst hout hscopes hesc h₁ h₂
  rfl

variable (w : Writer)

/-- Emitting text appends it to the output. -/
@[simp] theorem emit_out (t : String) : (w.emit t).out = w.out ++ t := rfl
/-- Emitting text keeps the scopes. -/
@[simp] theorem emit_scopes (t : String) : (w.emit t).scopes = w.scopes := rfl
/-- Emitting text keeps the escaping option. -/
@[simp] theorem emit_escapeNonAscii (t : String) : (w.emit t).escapeNonAscii = w.escapeNonAscii :=
  rfl
/-- Emitting text keeps the depth. -/
@[simp] theorem emit_depth (t : String) : (w.emit t).depth = w.depth := rfl

/-- Changing the innermost scope keeps the output. -/
@[simp] theorem modifyTop_out (f : Scope → Scope) : (w.modifyTop f).out = w.out := rfl
/-- Changing the innermost scope changes the head of the scopes. -/
@[simp] theorem modifyTop_scopes (f : Scope → Scope) :
    (w.modifyTop f).scopes = w.scopes.modifyHead f := rfl
/-- Changing the innermost scope keeps the escaping option. -/
@[simp] theorem modifyTop_escapeNonAscii (f : Scope → Scope) :
    (w.modifyTop f).escapeNonAscii = w.escapeNonAscii := rfl
/-- Changing the innermost scope keeps the depth. -/
@[simp] theorem modifyTop_depth (f : Scope → Scope) : (w.modifyTop f).depth = w.depth := rfl

/-- Opening a scope keeps the output. -/
@[simp] theorem pushScope_out (s : Scope) : (w.pushScope s).out = w.out := rfl
/-- Opening a scope puts it innermost. -/
@[simp] theorem pushScope_scopes (s : Scope) : (w.pushScope s).scopes = s :: w.scopes := rfl
/-- Opening a scope keeps the escaping option. -/
@[simp] theorem pushScope_escapeNonAscii (s : Scope) :
    (w.pushScope s).escapeNonAscii = w.escapeNonAscii := rfl
/-- Opening a scope adds one to the depth. -/
@[simp] theorem pushScope_depth (s : Scope) : (w.pushScope s).depth = w.depth + 1 := rfl

/-- Leaving a scope keeps the output. -/
@[simp] theorem popScope_out : w.popScope.out = w.out := rfl
/-- Leaving a scope drops the innermost one. -/
@[simp] theorem popScope_scopes : w.popScope.scopes = w.scopes.tail := rfl
/-- Leaving a scope keeps the escaping option. -/
@[simp] theorem popScope_escapeNonAscii : w.popScope.escapeNonAscii = w.escapeNonAscii := rfl

/-- Emitting twice emits the two texts joined. -/
theorem emit_emit (t u : String) : (w.emit t).emit u = w.emit (t ++ u) := by
  ext <;> simp [String.append_assoc]

/-- Emitting nothing changes nothing. -/
@[simp] theorem emit_empty : w.emit "" = w := by ext <;> simp

/-- Emitting text and opening a scope commute. -/
theorem emit_pushScope (s : Scope) (t : String) : (w.pushScope s).emit t = (w.emit t).pushScope s :=
  rfl

/-- Changing the innermost scope just after opening it opens the changed scope. -/
theorem modifyTop_pushScope (s : Scope) (f : Scope → Scope) :
    (w.pushScope s).modifyTop f = w.pushScope (f s) := by
  ext <;> simp

/-- Leaving a scope just opened gives back the writer. -/
@[simp] theorem popScope_pushScope (s : Scope) : (w.pushScope s).popScope = w := by
  ext <;> simp

/-- Opening a container writes the separator its place owes and the opening bracket, then opens an
empty scope of its kind. -/
theorem openScope_fst (inArray : Bool) :
    (w.openScope inArray).1 =
      (w.beforeValue.emit (if inArray then "[" else "\x7b")).pushScope ⟨inArray, false⟩ := rfl

/-- Closing the scope just opened writes its closing bracket. -/
@[simp] theorem endScope_pushScope (s : Scope) (inArray : Bool) :
    (w.pushScope s).endScope inArray = w.emit (if inArray then "]" else "\x7d") := by
  simp [endScope]

/-- What a value owes its place before its own text: a comma when the innermost scope is an
array that already holds an item. -/
def separator : String :=
  match w.scopes with
  | s :: _ => if s.inArray && s.hasItems then "," else ""
  | [] => ""

/-- Inside a scope, a comma is owed exactly when it is an array that already holds an item. -/
@[simp] theorem separator_pushScope (s : Scope) :
    (w.pushScope s).separator = if s.inArray && s.hasItems then "," else "" := rfl

/-- Before a value the writer emits the separator and counts the value in its scope. -/
theorem beforeValue_eq : w.beforeValue = (w.emit w.separator).modifyTop Scope.afterValue := by
  obtain ⟨out, scopes, depth, esc, h⟩ := w
  cases scopes with
  | nil => ext <;> simp [beforeValue, separator]
  | cons s rest =>
    obtain ⟨inArray, hasItems⟩ := s
    cases inArray <;> cases hasItems <;>
      ext <;> simp [beforeValue, separator, Scope.afterValue, emit, modifyTop]

/-- Writing the separator keeps the escaping option. -/
@[simp] theorem beforeValue_escapeNonAscii : w.beforeValue.escapeNonAscii = w.escapeNonAscii := by
  simp [beforeValue_eq]

/-- Writing the separator keeps the depth. -/
@[simp] theorem beforeValue_depth : w.beforeValue.depth = w.depth := by
  simp [beforeValue_eq]

/-- A container is opened one level deeper than the writer stood. -/
theorem openScope_snd (inArray : Bool) : (w.openScope inArray).2 = w.depth + 1 := by
  simp [openScope]

/-- Inside a scope, the separator is a comma exactly for an array with items, and the array then
holds one more. -/
theorem beforeValue_pushScope (s : Scope) :
    (w.pushScope s).beforeValue =
      (w.emit (if s.inArray && s.hasItems then "," else "")).pushScope s.afterValue := by
  rw [beforeValue_eq, separator_pushScope, emit_pushScope, modifyTop_pushScope]

/-- A name written in an object comes after a comma unless it is the object's first, and marks
the object as holding a member. -/
theorem writeName_pushScope (c : Bool) (k : String) :
    (w.pushScope ⟨false, c⟩).writeName k =
      (w.emit ((if c then "," else "") ++ Escape.quote w.escapeNonAscii k ++ ":")).pushScope
        ⟨false, true⟩ := by
  cases c <;> ext <;> simp [writeName, pushScope, modifyTop, emit, String.append_assoc]

mutual
/-- Writing a value is one step: the separator its scope owes, then its canonical text, and the
value counted in the innermost scope. -/
theorem value_eq (w : Writer) :
    (v : Value) → w.value v = w.beforeValue.emit (v.render w.escapeNonAscii)
  | .null | .bool _ | .number _ | .string _ => rfl
  | .array items => by
    have hitems := valueItems_pushScope (w.beforeValue.emit "[") false items
    simp only [beforeValue_escapeNonAscii, emit_escapeNonAscii] at hitems
    rw [value, openScope_fst, if_pos rfl, hitems, endScope_pushScope, if_pos rfl, Value.render,
      emit_emit, emit_emit, String.append_assoc]
  | .object members => by
    have hmembers := valueMembers_pushScope (w.beforeValue.emit "\x7b") false members
    simp only [beforeValue_escapeNonAscii, emit_escapeNonAscii] at hmembers
    rw [value, openScope_fst, if_neg (by simp), hmembers, endScope_pushScope, if_neg (by simp),
      Value.render, emit_emit, emit_emit, String.append_assoc]

/-- The items of an array are written inside its scope as their texts, separated by commas (one
before the first too when the array already held an item). -/
theorem valueItems_pushScope (w : Writer) (c : Bool) :
    (items : List Value) → (w.pushScope ⟨true, c⟩).valueItems items =
      (w.emit (Value.renderItems w.escapeNonAscii c items)).pushScope ⟨true, c || !items.isEmpty⟩
  | [] => by simp [valueItems, Value.renderItems]
  | v :: rest => by
    have hv : (w.pushScope ⟨true, c⟩).value v =
        (w.emit ((if c then "," else "") ++ v.render w.escapeNonAscii)).pushScope ⟨true, true⟩ := by
      rw [value_eq, beforeValue_pushScope]
      ext <;> simp [Scope.afterValue]
    rw [valueItems, hv, valueItems_pushScope _ true rest]
    ext <;> simp [Value.renderItems, String.append_assoc]

/-- The members of an object are written inside its scope, each as its quoted name, a colon and
its value's text, separated by commas. -/
theorem valueMembers_pushScope (w : Writer) (c : Bool) :
    (members : List (String × Value)) → (w.pushScope ⟨false, c⟩).valueMembers members =
      (w.emit (Value.renderMembers w.escapeNonAscii c members)).pushScope
        ⟨false, c || !members.isEmpty⟩
  | [] => by simp [valueMembers, Value.renderMembers]
  | (k, v) :: rest => by
    have hv : ((w.pushScope ⟨false, c⟩).writeName k).value v =
        (w.emit ((if c then "," else "") ++ Escape.quote w.escapeNonAscii k ++ ":" ++
          v.render w.escapeNonAscii)).pushScope ⟨false, true⟩ := by
      rw [writeName_pushScope, value_eq, beforeValue_pushScope]
      ext <;> simp [Scope.afterValue, String.append_assoc]
    rw [valueMembers, hv, valueMembers_pushScope _ true rest]
    ext <;> simp [Value.renderMembers, String.append_assoc]
end

/-- Writing a value appends the separator its scope owes, then the value's canonical text. -/
theorem value_out (v : Value) :
    (w.value v).out = w.out ++ w.separator ++ v.render w.escapeNonAscii := by
  simp [value_eq, beforeValue_eq]

/-- Writing a value closes every scope it opens: the scopes are those found, the innermost array
now holding an item. -/
theorem value_scopes (v : Value) : (w.value v).scopes = w.scopes.modifyHead Scope.afterValue := by
  simp [value_eq, beforeValue_eq]

/-- At the top level nothing comes before a value. -/
theorem separator_of_scopes_eq_nil (h : w.scopes = []) : w.separator = "" := by
  simp [separator, h]

/-- After a member's name nothing more comes before its value. -/
theorem separator_writeName (c : Bool) (k : String) :
    ((w.pushScope ⟨false, c⟩).writeName k).separator = "" := by
  simp [writeName_pushScope]

end Writer

end JsonCodec
