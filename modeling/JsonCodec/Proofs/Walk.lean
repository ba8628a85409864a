import JsonCodec.Tree.Source
import Mathlib

/-! # Walks of a document

A reader sees a document one value at a time. A `Walk` is where it stands: the value that comes
next, if any, the containers around it with the elements or members still to come, and whether
the innermost container was entered just now (its first step owes no comma).

`Walk.take` consumes the next value, entering it when it is a container; `Walk.step` moves the
innermost container on; `Walk.size` counts the nodes still to come.

`FollowsWalk R` says that a source does what a walk does: from states related by `R`, every step
of the source answers as the walk says and leads to related states again. The reader's theorems
are proved once for such a source, and a tree in memory and a well-formed text are two of them.
Sources may differ in one thing only: whether a string is the input's own bytes, which
`Token.erase` forgets.
-/

namespace JsonCodec

/-- The kind of a value. -/
def Value.kind : Value → Kind
  | .null => .null
  | .bool _ => .bool
  | .number _ => .number
  | .string _ => .string
  | .array _ => .array
  | .object _ => .object

/-- A node's token has the node's kind. -/
@[simp] theorem nodeToken_kind (v : Value) : (TreeSource.nodeToken v).kind = v.kind := by
  cases v <;> rfl

/-- A token with the provenance mark of its string dropped. -/
def Token.erase : Token → Token
  | .string s => .string ⟨s.str, true⟩
  | t => t

/-- Erasing keeps a token's kind. -/
@[simp] theorem Token.erase_kind (t : Token) : t.erase.kind = t.kind := by
  cases t <;> rfl

/-- Erasing changes no token but a string. -/
theorem Token.eq_of_erase_eq {t u : Token} (h : t.erase = u) (hu : u.kind ≠ .string) : t = u := by
  subst h
  cases t <;> simp_all [Token.erase, Token.kind]

/-- Whether a value of kind `k` passes a request for `desired`, a null passing when `allowNull`. -/
def Kind.admits (k : Kind) (desired : Option Kind) (allowNull : Bool) : Bool :=
  match desired with
  | none => true
  | some d => k == d || (allowNull && k == .null)

/-- A token of an admitted kind passes the check unchanged. -/
theorem Token.check_of_admits {t : Token} {desired : Option Kind} {allowNull : Bool}
    (h : t.kind.admits desired allowNull) (o : Option Nat) :
    t.check desired allowNull o = .ok t := by
  cases desired with
  | none => rfl
  | some d =>
    simp only [Kind.admits, Bool.or_eq_true, beq_iff_eq, Bool.and_eq_true] at h
    simp only [Token.check]
    rw [if_pos (by simpa using h)]

/-- A token of a kind not admitted fails the check with the mismatch of the kind asked for and its
own. -/
theorem Token.check_of_not_admits {t : Token} {d : Kind} {allowNull : Bool}
    (h : t.kind.admits (some d) allowNull = false) (o : Option Nat) :
    t.check (some d) allowNull o = .error (.mismatch d t.kind o) := by
  simp only [Kind.admits, Bool.or_eq_false_iff, beq_eq_false_iff_ne, Bool.and_eq_false_imp] at h
  simp only [Token.check]
  rw [if_neg (by simp only [not_or, not_and]; exact ⟨h.1, fun hn => h.2 hn⟩)]

/-- The nodes of the elements or members a container still holds. -/
def TreeFrame.size : TreeFrame → Nat
  | .array rest => Value.itemsSize rest
  | .object rest => Value.membersSize rest

/-- Whether a container is an array. -/
def TreeFrame.isArray : TreeFrame → Bool
  | .array _ => true
  | .object _ => false

/-- Where a reader stands in a document. -/
structure Walk where
  /-- The value that comes next, if the reader stands on one. -/
  current : Option Value
  /-- The containers around it, innermost first, with what they still hold. -/
  frames : List TreeFrame
  /-- Whether the innermost container has just been entered. -/
  fresh : Bool

namespace Walk

/-- The walk of a whole document, standing on its root. -/
def start (v : Value) : Walk := ⟨some v, [], false⟩

/-- The walk after the next value is taken: a container is entered. -/
def take (w : Walk) : Walk :=
  match w.current with
  | some (.array items) => ⟨none, .array items :: w.frames, true⟩
  | some (.object members) => ⟨none, .object members :: w.frames, true⟩
  | _ => ⟨none, w.frames, false⟩

/-- The walk after the innermost container steps on: to its next value, or out of it. -/
def step (w : Walk) : Walk :=
  match w.frames with
  | .array (v :: rest) :: fs => ⟨some v, .array rest :: fs, false⟩
  | .array [] :: fs => ⟨none, fs, false⟩
  | .object ((_, v) :: rest) :: fs => ⟨some v, .object rest :: fs, false⟩
  | .object [] :: fs => ⟨none, fs, false⟩
  | [] => w

/-- The walk after the next value has been consumed whole. -/
def skip (w : Walk) : Walk := ⟨none, w.frames, false⟩

/-- Whether the document has been consumed. -/
def atEnd (w : Walk) : Bool := w.current.isNone && w.frames.isEmpty

/-- The nodes of a list of containers. -/
def framesSize (fs : List TreeFrame) : Nat := (fs.map TreeFrame.size).sum

/-- The nodes still to come. -/
def size (w : Walk) : Nat := (w.current.map Value.size).getD 0 + framesSize w.frames

/-- No containers hold no nodes. -/
@[simp] theorem framesSize_nil : framesSize [] = 0 := rfl

/-- The nodes of a list of containers, the innermost first. -/
@[simp] theorem framesSize_cons (f : TreeFrame) (fs : List TreeFrame) :
    framesSize (f :: fs) = f.size + framesSize fs := by
  simp [framesSize]

/-- The nodes of two lists of containers add up. -/
@[simp] theorem framesSize_append (fs gs : List TreeFrame) :
    framesSize (fs ++ gs) = framesSize fs + framesSize gs := by
  simp [framesSize]

/-- Taking the next value removes exactly one node from what is still to come. -/
theorem size_take {w : Walk} {v : Value} (h : w.current = some v) :
    w.take.size + 1 = w.size := by
  simp only [take, size, h]
  cases v <;> simp [Value.size, TreeFrame.size] <;> omega

/-- A container step keeps the nodes still to come: a value handed over leaves its container,
and a container that closes holds none. -/
theorem size_step {w : Walk} {f : TreeFrame} {fs : List TreeFrame} (hc : w.current = none)
    (hf : w.frames = f :: fs) : w.step.size = w.size := by
  simp only [step, size, hc, hf]
  rcases f with (_ | ⟨v, rest⟩) | (_ | ⟨⟨k, v⟩, rest⟩) <;>
    simp [TreeFrame.size, Value.itemsSize, Value.membersSize] <;> omega

/-- Taking an array enters it, with none of its elements stepped to yet. -/
theorem take_array {w : Walk} {items : List Value} (hc : w.current = some (.array items)) :
    w.take = ⟨none, .array items :: w.frames, true⟩ := by
  simp [take, hc]

/-- Taking an object enters it, with none of its members stepped to yet. -/
theorem take_object {w : Walk} {members : List (String × Value)}
    (hc : w.current = some (.object members)) :
    w.take = ⟨none, .object members :: w.frames, true⟩ := by
  simp [take, hc]

/-- Taking a scalar consumes it whole. -/
theorem take_eq_skip {w : Walk} {v : Value} (hc : w.current = some v)
    (hv : TreeSource.nodeFrame v = none) : w.take = w.skip := by
  cases v <;> simp_all [take, skip, TreeSource.nodeFrame]

end Walk

/-- A source follows walks of a document through `R`: from a state related to a walk, each step
of the source gives what the walk gives and leads to a state related to the walk after it. Only
the steps a reader takes where the walk allows them are constrained: a value is asked for where
the walk stands on one, and a container is stepped where the walk is between its values, with
`first` telling whether it was just entered. -/
structure FollowsWalk {σ : Type} [Source σ] (R : σ → Walk → Prop) : Prop where
  nextValue {s : σ} {w : Walk} {v : Value} {desired : Option Kind} {allowNull : Bool} :
    R s w → w.current = some v → v.kind.admits desired allowNull →
      ∃ t s', (Source.nextValue desired allowNull).run s = .ok t s' ∧
        t.erase = TreeSource.nodeToken v ∧ R s' w.take
  peekKind {s : σ} {w : Walk} {v : Value} :
    R s w → w.current = some v → ∃ s', (Source.peekKind).run s = .ok v.kind s' ∧ R s' w
  arrayNext {s : σ} {w : Walk} {items : List Value} {fs : List TreeFrame} :
    R s w → w.current = none → w.frames = .array items :: fs →
      ∃ s', (Source.arrayNext w.fresh).run s = .ok (!items.isEmpty) s' ∧ R s' w.step
  objectNext {s : σ} {w : Walk} {members : List (String × Value)} {fs : List TreeFrame} :
    R s w → w.current = none → w.frames = .object members :: fs →
      ∃ n s', (Source.objectNext w.fresh).run s = .ok n s' ∧
        n.map Text.str = members.head?.map Prod.fst ∧ R s' w.step
  isEof {s : σ} {w : Walk} : R s w → (Source.isEof s).1 = w.atEnd ∧ R (Source.isEof s).2 w
  budget {s : σ} {w : Walk} : R s w → w.size ≤ Source.budget s

end JsonCodec
