import JsonCodec.Number.Double

/-! # JSON values

`Value` is a JSON document held in memory. The members of an object are kept sorted by name, each
name once: `insertEntry` puts a member in its place and replaces an earlier member of the same
name, so the last of two duplicates wins. Names compare by code point, which is the order of their
UTF-8 bytes.
-/

namespace JsonCodec

/-- A JSON value. -/
inductive Value where
  | null
  | bool (b : Bool)
  | number (x : Double)
  | string (s : String)
  | array (items : List Value)
  | object (members : List (String × Value))
deriving Inhabited

mutual
/-- The number of nodes of a value. -/
def Value.size : Value → Nat
  | .array items => Value.itemsSize items + 1
  | .object members => Value.membersSize members + 1
  | _ => 1

/-- The number of nodes of a list of values. -/
def Value.itemsSize : List Value → Nat
  | [] => 0
  | v :: rest => v.size + Value.itemsSize rest

/-- The number of nodes of the values of a list of members. -/
def Value.membersSize : List (String × Value) → Nat
  | [] => 0
  | (_, v) :: rest => v.size + Value.membersSize rest
end

/-- A container being walked or written, with the elements or members still to come. -/
inductive TreeFrame where
  | array (rest : List Value)
  | object (rest : List (String × Value))

/-- Inserts an entry into a list sorted by name, replacing the entry of the same name. -/
def insertEntry {α : Type} (name : String) (v : α) : List (String × α) → List (String × α)
  | [] => [(name, v)]
  | (k, w) :: rest =>
    if name < k then (name, v) :: (k, w) :: rest
    else if name = k then (name, v) :: rest
    else (k, w) :: insertEntry name v rest

example : insertEntry "b" 2 [("a", 1), ("b", 0), ("c", 3)] = [("a", 1), ("b", 2), ("c", 3)] := by
  decide

end JsonCodec
