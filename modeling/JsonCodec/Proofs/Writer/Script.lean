import JsonCodec.Proofs.Writer.Loop

/-! # Programs over the writer's handles

A client writes containers through handles: it opens an array or an object on the writer or on
the handle it holds, writes the items (or, in an object, a name and then a value) and lets go of
the handle, by closing it, by dropping it, or by forgetting it so that its scope stays open. A
name written with `present` false is not written at all, and everything written for it is
discarded. Each handle borrows the one it was opened from, so such a client is a tree, a
`Script`: `Script.run` performs it on a writer, live or discarding.

`Script.text` is the text such a program stands for, built by the rules of the canonical text:
scalars as single tokens, a value by `Value.render`, containers with their items (or present
members) separated by commas. A program is `tidy` when it lets go of every handle by closing or
dropping it, and writes a value after every name it writes.

Main results:
- `Script.run_discarding`: a discarding program writes nothing.
- `Script.run_tidy`: a tidy program writes like a single value, the separator its place owes and
  then its text, and leaves the scopes as it found them, the innermost array counting one item.
- `Script.finish_run_new`: a tidy program run on a new writer finishes with its text.
- `Script.separator_runItems`: inside an array opened by a program, the separator before the
  next item is a comma exactly when an item has been written.
-/

namespace JsonCodec

/-- A scalar written through the writer or a handle. -/
inductive Scalar where
  | null
  | bool (b : Bool)
  | integer (n : Int)
  | double (x : Double)
  | string (s : String)

namespace Scalar

/-- Writes the scalar. -/
def write : Scalar → Writer → Writer
  | .null, w => w.null
  | .bool b, w => w.bool b
  | .integer n, w => w.integer n
  | .double x, w => w.double x
  | .string s, w => w.string s

/-- The scalar's token. -/
def text (e : Bool) : Scalar → String
  | .null => "null"
  | .bool b => if b then "true" else "false"
  | .integer n => integerText n
  | .double x => x.jsonText
  | .string s => Escape.quote e s

/-- A scalar is written as its token, after whatever separates it from the value before. -/
theorem write_eq (s : Scalar) (w : Writer) : s.write w = w.beforeValue.emit (s.text w.escapeNonAscii) :=
  by cases s <;> rfl

end Scalar

/-- How a client lets go of a handle. -/
inductive Release where
  /-- `end()`: the scope is closed, and the handle, now closed, is dropped. -/
  | close
  /-- The handle goes out of scope, which closes its scope and ignores a mismatch. -/
  | drop
  /-- The handle is forgotten: its scope stays open. -/
  | forget
deriving DecidableEq

/-- Lets go of a handle. -/
def Release.apply : Release → Handle → Writer → Writer
  | .close, h, w => let (_, h, w) := h.close w; h.drop w
  | .drop, h, w => h.drop w
  | .forget, _, w => w

namespace Writer

/-- A member's name is written exactly when the object is live and the member present. -/
@[simp] theorem maybeName_fst (w : Writer) (live : Bool) (k : String) (present : Bool) :
    (w.maybeName live k present).1 = if live && present then w.writeName k else w := by
  unfold maybeName; split <;> rfl

/-- A member's value is written live exactly when its name is written. -/
@[simp] theorem maybeName_snd (w : Writer) (live : Bool) (k : String) (present : Bool) :
    (w.maybeName live k present).2 = (live && present) := by
  unfold maybeName; split <;> simp_all

end Writer

namespace Handle

/-- Closing a handle that is already closed does nothing. -/
theorem close_of_closed {h : Handle} (hc : h.closed = true) (w : Writer) :
    h.close w = (.ok (), h, w) := by
  simp [close, hc]

/-- A live handle whose scope is the innermost one closes it with one bracket. -/
theorem close_pushScope {h : Handle} {w : Writer} {s : Scope} (hlive : h.live = true)
    (hc : h.closed = false) (hd : h.depth = w.depth + 1) (hk : h.inArray = s.inArray) :
    h.close (w.pushScope s) =
      (.ok (), { h with closed := true }, w.emit (if s.inArray then "]" else "\x7d")) := by
  simp [close, hc, hlive, Writer.closeScope, Writer.pushScope, hd, hk, Writer.endScope,
    Writer.popScope, Writer.emit]

end Handle

/-- Letting go of a discarding handle does nothing. -/
theorem Release.apply_discarding (r : Release) (inArray : Bool) (w : Writer) :
    r.apply (Handle.discarding inArray) w = w := by
  cases r <;> simp [apply, Handle.drop, Handle.close_of_closed, Handle.discarding]

/-- Closing or dropping a live handle whose scope is the innermost one closes it with one
bracket; the drop that follows a close does nothing. -/
theorem Release.apply_pushScope {r : Release} (hr : r ≠ .forget) {h : Handle} {w : Writer}
    {s : Scope} (hlive : h.live = true) (hc : h.closed = false) (hd : h.depth = w.depth + 1)
    (hk : h.inArray = s.inArray) :
    r.apply h (w.pushScope s) = w.emit (if s.inArray then "]" else "\x7d") := by
  cases r with
  | close => simp [apply, Handle.close_pushScope hlive hc hd hk, Handle.drop, Handle.close_of_closed]
  | drop => simp [apply, Handle.drop, Handle.close_pushScope hlive hc hd hk]
  | forget => exact absurd rfl hr

/-- A client's program for one value: a scalar, a whole value (`write`), or a container opened
as a handle, with its items, or its members as a name, whether the name is present, and the
value written for it, if any. -/
inductive Script where
  | scalar (s : Scalar)
  | value (v : Value)
  | array (items : List Script) (release : Release)
  | object (members : List (String × Bool × Option Script)) (release : Release)

namespace Script

mutual
/-- Performs the program through a live or a discarding handle. -/
def run (live : Bool) : Script → Writer → Writer
  | .scalar s, w => if live then s.write w else w
  | .value v, w => if live then w.writeValue v else w
  | .array items r, w =>
    let (w, h) := Handle.start w live true
    r.apply h (runItems h.live items w)
  | .object members r, w =>
    let (w, h) := Handle.start w live false
    r.apply h (runMembers h.live members w)

/-- Performs the items of an array. -/
def runItems (live : Bool) : List Script → Writer → Writer
  | [], w => w
  | p :: rest, w => runItems live rest (p.run live w)

/-- Performs the members of an object: a present name is written, and its value through a handle
that is live when the name is. -/
def runMembers (live : Bool) : List (String × Bool × Option Script) → Writer → Writer
  | [], w => w
  | (k, present, none) :: rest, w => runMembers live rest (w.maybeName live k present).1
  | (k, present, some p) :: rest, w =>
    let slot := w.maybeName live k present
    runMembers live rest (p.run slot.2 slot.1)
end

mutual
/-- The text the program stands for. -/
def text (e : Bool) : Script → String
  | .scalar s => s.text e
  | .value v => v.render e
  | .array items _ => "[" ++ itemsText e false items ++ "]"
  | .object members _ => "\x7b" ++ membersText e false members ++ "\x7d"

/-- The texts of array items, each after a comma, except the first when `comma` is false. -/
def itemsText (e comma : Bool) : List Script → String
  | [] => ""
  | p :: rest => (if comma then "," else "") ++ p.text e ++ itemsText e true rest

/-- The texts of the present members, each after a comma, except the first when `comma` is
false; an absent member is left out with all of its value. -/
def membersText (e comma : Bool) : List (String × Bool × Option Script) → String
  | [] => ""
  | (_, false, _) :: rest => membersText e comma rest
  | (k, true, none) :: rest =>
    (if comma then "," else "") ++ Escape.quote e k ++ ":" ++ membersText e true rest
  | (k, true, some p) :: rest =>
    (if comma then "," else "") ++ Escape.quote e k ++ ":" ++ p.text e ++ membersText e true rest
end

mutual
/-- Every handle is closed or dropped, and every present name is followed by a value. -/
def tidy : Script → Bool
  | .scalar _ | .value _ => true
  | .array items r => r != .forget && tidyItems items
  | .object members r => r != .forget && tidyMembers members

/-- Every item is tidy. -/
def tidyItems : List Script → Bool
  | [] => true
  | p :: rest => p.tidy && tidyItems rest

/-- Every present name has a value, and every value is tidy. -/
def tidyMembers : List (String × Bool × Option Script) → Bool
  | [] => true
  | (_, present, none) :: rest => !present && tidyMembers rest
  | (_, _, some p) :: rest => p.tidy && tidyMembers rest
end

section Runs

open Writer

mutual
/-- A discarding program writes nothing: every handle it opens discards too. -/
theorem run_discarding (w : Writer) : (p : Script) → p.run false w = w
  | .scalar _ | .value _ => rfl
  | .array items r => by
    simp only [run, Handle.start, Bool.false_eq_true, if_false, Handle.discarding,
      runItems_discarding]
    exact Release.apply_discarding r true w
  | .object members r => by
    simp only [run, Handle.start, Bool.false_eq_true, if_false, Handle.discarding,
      runMembers_discarding]
    exact Release.apply_discarding r false w

/-- Discarding elements writes nothing. -/
theorem runItems_discarding (w : Writer) : (items : List Script) → runItems false items w = w
  | [] => rfl
  | p :: rest => by rw [runItems, run_discarding, runItems_discarding]

/-- Discarding members writes nothing: no name, no value. -/
theorem runMembers_discarding (w : Writer) :
    (members : List (String × Bool × Option Script)) → runMembers false members w = w
  | [] => rfl
  | (_, _, none) :: rest => by
    simp only [runMembers, Writer.maybeName_fst, Bool.false_and, runMembers_discarding]; rfl
  | (_, _, some p) :: rest => by
    simp only [runMembers, Writer.maybeName_fst, Writer.maybeName_snd, Bool.false_and,
      run_discarding, runMembers_discarding]; rfl
end

mutual
/-- A tidy program, run live, writes like one value: the separator its place owes and then its
text, and it leaves the scopes as it found them, the innermost array counting one more item. -/
theorem run_tidy (w : Writer) :
    (p : Script) → p.tidy → p.run true w = w.beforeValue.emit (p.text w.escapeNonAscii)
  | .scalar s, _ => Scalar.write_eq s w
  | .value v, _ => (writeValue_eq_value w v).trans (value_eq w v)
  | .array items r, hp => by
    simp only [tidy, Bool.and_eq_true, bne_iff_ne, ne_eq] at hp
    -- the bracket, the elements inside the new scope, and the release that closes it once
    have hitems := runItems_tidy (w.beforeValue.emit "[") false items hp.2
    simp only [beforeValue_escapeNonAscii, emit_escapeNonAscii] at hitems
    have hd : (w.openScope true).2 = (w.beforeValue.emit "[").depth + 1 := by
      simp [openScope_snd]
    simp only [run, Handle.start, if_true, openScope_fst, if_true]
    rw [hitems, Release.apply_pushScope hp.1 rfl rfl (by rw [hd]; simp) rfl]
    simp only [text, if_true, emit_emit, String.append_assoc]
  | .object members r, hp => by
    simp only [tidy, Bool.and_eq_true, bne_iff_ne, ne_eq] at hp
    have hmembers := runMembers_tidy (w.beforeValue.emit "\x7b") false members hp.2
    simp only [beforeValue_escapeNonAscii, emit_escapeNonAscii] at hmembers
    have hd : (w.openScope false).2 = (w.beforeValue.emit "\x7b").depth + 1 := by
      simp [openScope_snd]
    simp only [run, Handle.start, if_true, openScope_fst, Bool.false_eq_true, if_false]
    rw [hmembers, Release.apply_pushScope hp.1 rfl rfl (by rw [hd]; simp) rfl]
    simp only [text, Bool.false_eq_true, if_false, emit_emit, String.append_assoc]

/-- The items of a tidy array are written inside its scope as their texts, separated by commas. -/
theorem runItems_tidy (w : Writer) (c : Bool) :
    (items : List Script) → tidyItems items → runItems true items (w.pushScope ⟨true, c⟩) =
      (w.emit (itemsText w.escapeNonAscii c items)).pushScope ⟨true, c || !items.isEmpty⟩
  | [], _ => by simp [runItems, itemsText]
  | p :: rest, hp => by
    simp only [tidyItems, Bool.and_eq_true] at hp
    have hv : p.run true (w.pushScope ⟨true, c⟩) =
        (w.emit ((if c then "," else "") ++ p.text w.escapeNonAscii)).pushScope ⟨true, true⟩ := by
      rw [run_tidy _ p hp.1, beforeValue_pushScope]
      ext <;> simp [Scope.afterValue]
    rw [runItems, hv, runItems_tidy _ true rest hp.2]
    ext <;> simp [itemsText, String.append_assoc]

/-- The members of a tidy object are written inside its scope: each present one as its quoted
name, a colon and its value's text, separated by commas; an absent one not at all. -/
theorem runMembers_tidy (w : Writer) (c : Bool) :
    (members : List (String × Bool × Option Script)) → tidyMembers members →
      runMembers true members (w.pushScope ⟨false, c⟩) =
        (w.emit (membersText w.escapeNonAscii c members)).pushScope
          ⟨false, c || members.any (·.2.1)⟩
  | [], _ => by simp [runMembers, membersText]
  | (k, present, none) :: rest, hp => by
    simp only [tidyMembers, Bool.and_eq_true, Bool.not_eq_eq_eq_not, Bool.not_true] at hp
    -- a member with no value in a tidy program is absent: its name gate writes nothing
    obtain ⟨rfl, hrest⟩ := hp
    rw [runMembers, Writer.maybeName_fst, Bool.and_false, if_neg (by simp),
      runMembers_tidy _ c rest hrest]
    simp [membersText]
  | (k, present, some p) :: rest, hp => by
    simp only [tidyMembers, Bool.and_eq_true] at hp
    cases present with
    | false =>
      -- an absent member's value is run discarding, and writes nothing
      rw [runMembers, Writer.maybeName_snd, Writer.maybeName_fst, Bool.and_false, if_neg (by simp),
        run_discarding, runMembers_tidy _ c rest hp.2]
      simp [membersText]
    | true =>
      -- a present member: a comma unless first, the quoted name and colon, then the value
      have hv : p.run true ((w.pushScope ⟨false, c⟩).writeName k) =
          (w.emit ((if c then "," else "") ++ Escape.quote w.escapeNonAscii k ++ ":" ++
            p.text w.escapeNonAscii)).pushScope ⟨false, true⟩ := by
        rw [writeName_pushScope, run_tidy _ p hp.1, beforeValue_pushScope]
        ext <;> simp [Scope.afterValue, String.append_assoc]
      rw [runMembers, Writer.maybeName_snd, Writer.maybeName_fst, Bool.and_true, if_pos rfl, hv,
        runMembers_tidy _ true rest hp.2]
      ext <;> simp [membersText, String.append_assoc]
end

/-- A tidy program run on a new writer finishes with its text. -/
theorem finish_run_new (p : Script) (hp : p.tidy) (e : Bool) :
    (p.run true (Writer.new e)).finish = .ok (p.text e) := by
  rw [run_tidy _ p hp]
  simp [finish, Writer.new, beforeValue, emit]

/-- Inside an array opened by a program, the next item is preceded by a comma exactly when an
item has already been written. -/
theorem separator_runItems (w : Writer) (items : List Script) (hitems : tidyItems items) :
    (runItems true items (Handle.start w true true).1).separator =
      if items = [] then "" else "," := by
  simp only [Handle.start, if_true, openScope_fst]
  rw [runItems_tidy _ false items hitems]
  cases items <;> simp

end Runs

end Script

open Writer in
/-- The writer writes the canonical text. A value written through `Writer.value`, in any scope,
appends the separator its place owes and then its canonical text, and closes every scope it
opens, so that the scopes are those it found, the innermost array now holding an item. That
separator is nothing at the top level and after a member's name, and inside an array opened by a
program it is a comma exactly when an item has already been written. A tidy program over the
handles, run on a new writer, finishes with the text it stands for. -/
theorem writer_writes_canonical_text :
    (∀ (w : Writer) (v : Value),
      (w.value v).out = w.out ++ w.separator ++ v.render w.escapeNonAscii ∧
        (w.value v).scopes = w.scopes.modifyHead Scope.afterValue) ∧
    (∀ w : Writer, w.scopes = [] → w.separator = "") ∧
    (∀ (w : Writer) (c : Bool) (k : String),
      ((w.pushScope ⟨false, c⟩).writeName k).separator = "") ∧
    (∀ (w : Writer) (items : List Script), Script.tidyItems items →
      (Script.runItems true items (Handle.start w true true).1).separator =
        if items = [] then "" else ",") ∧
    (∀ (p : Script) (e : Bool), p.tidy → (p.run true (Writer.new e)).finish = .ok (p.text e)) :=
  ⟨fun w v => ⟨value_out w v, value_scopes w v⟩, separator_of_scopes_eq_nil,
    separator_writeName, Script.separator_runItems,
    fun p e hp => Script.finish_run_new p hp e⟩

/-- An object with a present member holding an array and an absent one, dropped at the end, is
written as the present member alone. -/
theorem writer_writes_canonical_text_object :
    (Writer.new false).scopes = [] ∧ (Writer.new false).separator = "" ∧
    Script.tidyItems [.scalar .null] = true ∧
    (Script.runItems true [.scalar .null] (Handle.start (Writer.new false) true true).1).separator =
      "," ∧
    (Script.object [("a", true, some (.value (.array [.null, .bool true]))),
      ("b", false, some (.scalar (.integer 7)))] .drop).tidy = true ∧
    ((Script.object [("a", true, some (.value (.array [.null, .bool true]))),
      ("b", false, some (.scalar (.integer 7)))] .drop).run true (Writer.new false)).finish =
        .ok "\x7b\"a\":[null,true]\x7d" := by
  refine ⟨rfl, writer_writes_canonical_text.2.1 _ rfl, by decide, ?_, by decide, ?_⟩
  · rw [writer_writes_canonical_text.2.2.2.1 _ _ (by decide)]
    simp
  · rw [writer_writes_canonical_text.2.2.2.2 _ false (by decide)]
    cbv

end JsonCodec
