import JsonCodec.Proofs.Reader.Plan
import JsonCodec.Reader.Schema

/-! # Clients of the reader

A client drives a reader with a sequence of calls (`Call`): the reads of every kind, `any`,
`skipValue`, reading a value whole or by a schema, `peekKind`, `isEof`, `finish` and `offset`,
and the calls on the cursors it opened, which it names by number in the order they were made.
`Client.run` makes the calls one after another and records what each answered; the first call
that fails ends the run with its error, as a client stops at its first error.

Two notions describe how a client uses the cursors:

* `Client.Disciplined`: the nesting rule. A cursor is stepped only once every cursor made after
  it, which lies inside its container, has reached its end.
* `Client.AtValue owner`: the reader stands on a value the client has yet to read. Either every
  cursor is done (`owner = none`, the top of the document), or `owner` is the innermost open
  cursor and has not been stepped yet or its latest step went to the value.

A client stands on a value at the start (`atValue_ofSource`), right after a cursor's step answered
true (`atValue_of_next`), and right after a call opened a container (`atValue_of_open`).
-/

namespace JsonCodec

/-! ### Steps of cursors -/

section Steps

variable {σ : Type} [Source σ]

omit [Source σ] in
/-- A step that ends by recording whether a value is awaited leaves that record. -/
theorem Reader.awaiting_of_record {α : Type} {m : ReadM σ α} {g : α → Bool} {r r' : Reader σ}
    {a : α} (h : (m >>= fun a => modify (fun r : Reader σ => { r with awaiting := g a }) >>=
      fun _ => pure a).run r = .ok a r') : r'.awaiting = g a := by
  obtain ⟨a', r₁, -, h⟩ := EStateM.run_bind_eq_ok.1 h
  simp only [EStateM.run_bind, EStateM.run_modify, EStateM.run_pure,
    EStateM.Result.ok.injEq] at h
  rw [← h.2, h.1]

/-- After an array step the reader awaits a value exactly when the step found one. -/
theorem Reader.advanceArray_awaiting {first more : Bool} {r r' : Reader σ}
    (h : (Reader.advanceArray first).run r = .ok more r') : r'.awaiting = more := by
  obtain ⟨u, r₁, -, h⟩ := EStateM.run_bind_eq_ok.1 h
  -- whether or not an unread value was skipped first, the step records what it found
  simp only at h
  split at h
  · obtain ⟨_, r₂, -, h⟩ := EStateM.run_bind_eq_ok.1 h
    exact Reader.awaiting_of_record (g := id) h
  · exact Reader.awaiting_of_record (g := id) h

/-- After an object step the reader awaits a value exactly when the step found a member. -/
theorem Reader.advanceObject_awaiting {first : Bool} {name : Option Text} {r r' : Reader σ}
    (h : (Reader.advanceObject first).run r = .ok name r') : r'.awaiting = name.isSome := by
  obtain ⟨u, r₁, -, h⟩ := EStateM.run_bind_eq_ok.1 h
  simp only at h
  split at h
  · obtain ⟨_, r₂, -, h⟩ := EStateM.run_bind_eq_ok.1 h
    exact Reader.awaiting_of_record h
  · exact Reader.awaiting_of_record h

/-- A step of an array cursor that finds a value leaves it open and the value awaited. -/
theorem ArrayCursor.next_eq_true {c c' : ArrayCursor} {r r' : Reader σ}
    (h : (c.next).run r = .ok (true, c') r') : c'.done = false ∧ r'.awaiting = true := by
  unfold ArrayCursor.next at h
  by_cases hd : c.done = true
  · simp [hd] at h
  · simp only [hd, Bool.false_eq_true, if_false] at h
    obtain ⟨more, r₁, hadv, h⟩ := EStateM.run_bind_eq_ok.1 h
    simp only [EStateM.run_pure, EStateM.Result.ok.injEq, Prod.mk.injEq] at h
    obtain ⟨⟨rfl, rfl⟩, rfl⟩ := h
    exact ⟨rfl, Reader.advanceArray_awaiting hadv⟩

/-- A step of an object cursor that finds a member leaves it open and the value awaited. -/
theorem ObjectCursor.next_eq_true {c c' : ObjectCursor} {r r' : Reader σ}
    (h : (c.next).run r = .ok (true, c') r') : c'.done = false ∧ r'.awaiting = true := by
  unfold ObjectCursor.next at h
  by_cases hd : c.done = true
  · simp [hd] at h
  · simp only [hd, Bool.false_eq_true, if_false] at h
    obtain ⟨name, r₁, hadv, h⟩ := EStateM.run_bind_eq_ok.1 h
    have hw := Reader.advanceObject_awaiting hadv
    -- a member found leaves the cursor open; the object's end never answers true
    cases name with
    | some n =>
      simp only [EStateM.run_pure, EStateM.Result.ok.injEq, Prod.mk.injEq] at h
      obtain ⟨⟨-, rfl⟩, rfl⟩ := h
      exact ⟨rfl, hw⟩
    | none =>
      simp only at h
      split at h
      · simp at h
      · simp at h

end Steps

namespace Reader

/-- A cursor a client holds. -/
inductive Cursor where
  | array (c : ArrayCursor)
  | object (c : ObjectCursor)

namespace Cursor

/-- Whether the cursor has reached the end of its container. -/
def done : Cursor → Bool
  | .array c => c.done
  | .object c => c.done

/-- Whether the cursor has been stepped. -/
def started : Cursor → Bool
  | .array c => c.started
  | .object c => c.started

/-- Whether there was a container at all, not a null. -/
def defined : Cursor → Bool
  | .array c => c.defined
  | .object c => c.defined

end Cursor

/-- A call a client makes on the reader, or on one of its cursors named by number. -/
inductive Call where
  | scalar (r : ScalarRead)
  | array (orNull : Bool)
  | object (orNull : Bool) (required : List String)
  | any (required : List String)
  | skip
  | value
  | typed (s : Schema)
  | peek
  | isEof
  | finish
  | offset
  | next (cursor : Nat)
  | name (cursor : Nat)
  | defined (cursor : Nat)
  | require (cursor : Nat) (names : List String)

/-- What a call answered. -/
inductive Answer where
  | scalar (e : Event)
  /-- A cursor was made; `false` when it stands for a null. -/
  | opened (defined : Bool)
  /-- `any` read this token; a cursor was made if it starts a container. -/
  | token (t : Token)
  | skipped
  | value (v : Value)
  | typed (v : (s : Schema) × s.Carrier)
  | kind (k : Kind)
  | eof (b : Bool)
  | finished
  | offset (o : Option Nat)
  /-- A cursor step: whether a value follows and, for an object, the name the cursor holds. -/
  | stepped (more : Bool) (name : Option Text)
  | name (t : Text)
  | defined (b : Bool)
  | required
  /-- The call names no cursor of its kind, and nothing happens. -/
  | noCursor
  | failed (e : ReadError)

/-- Whether an answer reports that a cursor over a container was made. -/
def Answer.opensContainer : Answer → Bool
  | .opened d => d
  | .token .arrayStart | .token .objectStart => true
  | _ => false

namespace Call

/-- Whether the call opens a container: `array`, `object` and `any` do. -/
def opens : Call → Bool
  | .array _ | .object _ _ | .any _ => true
  | _ => false

variable {σ : Type} [Source σ]

/-- Opens an array, or also takes a null as a cursor over nothing. -/
def openArray (orNull : Bool) : ReadM σ ArrayCursor :=
  if orNull then Reader.arrayOrNull else Reader.array

/-- Opens an object, or also takes a null as a cursor over nothing. -/
def openObject (orNull : Bool) : ReadM σ ObjectCursor :=
  if orNull then Reader.objectOrNull else Reader.object

/-- Makes the call over the cursors `cs`: what it answers, and the cursors after it. -/
def run (cs : List Cursor) : Call → ReadM σ (Answer × List Cursor)
  | .scalar r => return (.scalar (← r.run), cs)
  | .array orNull => do
    let c ← openArray orNull
    return (.opened c.defined, cs ++ [.array c])
  | .object orNull names => do
    let c ← openObject orNull
    return (.opened c.defined, cs ++ [.object (c.requireAll names)])
  | .any names => do
    match ← Reader.any with
    | .arrayStart => return (.token .arrayStart, cs ++ [.array (.ofDefined true)])
    | .objectStart =>
      return (.token .objectStart, cs ++ [.object ((ObjectCursor.ofDefined true).requireAll names)])
    | t => return (.token t, cs)
  | .skip => do Reader.skipValue; return (.skipped, cs)
  | .value => return (.value (← Reader.value), cs)
  | .typed s => return (.typed ⟨s, ← s.read⟩, cs)
  | .peek => return (.kind (← Reader.peekKind), cs)
  | .isEof => return (.eof (← Reader.isEof), cs)
  | .finish => do Reader.finish; return (.finished, cs)
  | .offset => return (.offset (← get).offset, cs)
  | .next i =>
    match cs[i]? with
    | some (.array c) => do
      let (more, c) ← c.next
      return (.stepped more none, cs.set i (.array c))
    | some (.object c) => do
      let (more, c) ← c.next
      return (.stepped more (some c.name), cs.set i (.object c))
    | none => return (.noCursor, cs)
  | .name i =>
    match cs[i]? with
    | some (.object c) => return (.name c.name, cs)
    | _ => return (.noCursor, cs)
  | .defined i =>
    match cs[i]? with
    | some c => return (.defined c.defined, cs)
    | none => return (.noCursor, cs)
  | .require i names =>
    match cs[i]? with
    | some (.object c) => return (.required, cs.set i (.object (c.requireAll names)))
    | _ => return (.noCursor, cs)

end Call

/-- A reader and the cursors a client made on it, numbered in the order they were made. -/
structure Client (σ : Type) where
  reader : Reader σ
  cursors : List Cursor

/-- Every cursor made after cursor `i` has reached its end. -/
def InnerDone (cs : List Cursor) (i : Nat) : Prop := ∀ j, i < j → ∀ cur ∈ cs[j]?, cur.done = true

/-- Every cursor made after the last one has reached its end: there is none. -/
theorem innerDone_of_length_le {cs : List Cursor} {i : Nat} (h : cs.length ≤ i + 1) :
    InnerDone cs i := fun j hj cur hcur => by
  rw [List.getElem?_eq_none (by omega)] at hcur
  cases hcur

/-- A call keeps to the nesting of cursors: it steps a cursor only once every cursor made after
it has reached its end. -/
def Call.Nested (cs : List Cursor) : Call → Prop
  | .next i => InnerDone cs i
  | _ => True

namespace Client

variable {σ : Type} [Source σ]

/-- A client that has made no call yet. -/
def ofSource (s : σ) : Client σ := ⟨Reader.ofSource s, []⟩

/-- Where the latest token began, if the source knows offsets. -/
def offset (c : Client σ) : Option Nat := c.reader.offset

/-- Makes one call: what it answered, and the client after it unless the call failed. -/
def step (c : Client σ) (call : Call) : Answer × Option (Client σ) :=
  match (call.run c.cursors).run c.reader with
  | .ok (a, cs) r => (a, some ⟨r, cs⟩)
  | .error e _ => (.failed e, none)

/-- Makes the calls in turn and records their answers, up to the first that fails. -/
def run (c : Client σ) : List Call → List Answer
  | [] => []
  | call :: calls =>
    match c.step call with
    | (a, some c') => a :: c'.run calls
    | (a, none) => [a]

/-- A call that keeps the run going answers, and the rest of the run follows from the client after
it. -/
theorem run_cons_of_step {c c' : Client σ} {call : Call} {a : Answer} (calls : List Call)
    (h : c.step call = (a, some c')) : c.run (call :: calls) = a :: c'.run calls := by
  simp [run, h]

/-- A call that ends the run is its last answer. -/
theorem run_cons_of_step_none {c : Client σ} {call : Call} {a : Answer} (calls : List Call)
    (h : c.step call = (a, none)) : c.run (call :: calls) = [a] := by
  simp [run, h]

/-- Every call of the run keeps to the nesting of cursors. -/
def Disciplined (c : Client σ) : List Call → Prop
  | [] => True
  | call :: calls => call.Nested c.cursors ∧ ∀ a c', c.step call = (a, some c') → c'.Disciplined calls

/-- The reader stands on a value the client has yet to read: at the top, with every cursor done,
or at the innermost open cursor `owner`, not stepped yet or with its latest step at the value. -/
def AtValue (c : Client σ) : Option Nat → Prop
  | none => ∀ cur ∈ c.cursors, cur.done = true
  | some i => InnerDone c.cursors i ∧
      ∃ cur ∈ c.cursors[i]?, cur.done = false ∧ (cur.started = false ∨ c.reader.awaiting = true)

/-- A call that keeps the run going ran to its answer, the cursors and the reader of the client
after it. -/
theorem step_eq_some {c c' : Client σ} {call : Call} {a : Answer}
    (h : c.step call = (a, some c')) :
    (call.run c.cursors).run c.reader = .ok (a, c'.cursors) c'.reader := by
  unfold step at h
  split at h
  · next a' cs r hrun =>
    simp only [Prod.mk.injEq, Option.some.injEq] at h
    obtain ⟨rfl, rfl⟩ := h
    exact hrun
  · simp at h

end Client

/-! ### Where a client stands on a value -/

section Positions

variable {σ : Type} [Source σ]

/-- Replacing a cursor keeps every cursor made after it done. -/
theorem InnerDone.set {cs : List Cursor} {i : Nat} (h : InnerDone cs i) (cur : Cursor) :
    InnerDone (cs.set i cur) i := by
  intro j hj c hc
  rw [List.getElem?_set_ne (by omega)] at hc
  exact h j hj c hc

/-- A cursor just made is the last one, so none is made after it. -/
theorem innerDone_append_length (cs : List Cursor) (cur : Cursor) :
    InnerDone (cs ++ [cur]) cs.length :=
  innerDone_of_length_le (by simp)

omit [Source σ] in
/-- At the start the client stands on the document's value. -/
theorem atValue_ofSource (s : σ) : (Client.ofSource s).AtValue none := by
  simp [Client.AtValue, Client.ofSource]

/-- Right after a cursor's step, made after the cursors inside it ended, answered true, the
client stands on the value it found. -/
theorem atValue_of_next {c c' : Client σ} {i : Nat} {name : Option Text}
    (hn : InnerDone c.cursors i) (h : c.step (.next i) = (.stepped true name, some c')) :
    c'.AtValue (some i) := by
  have hrun := Client.step_eq_some h
  simp only [Call.run] at hrun
  -- the cursor stepped is over an array or an object; either step that found a value leaves the
  -- cursor open, the reader awaiting the value, and every later cursor done
  split at hrun
  · next ac hac =>
    obtain ⟨p, r₁, hnext, hp⟩ := EStateM.run_bind_eq_ok.1 hrun
    simp only [EStateM.run_pure, EStateM.Result.ok.injEq, Prod.mk.injEq] at hp
    obtain ⟨⟨hmore, hcs⟩, rfl⟩ := hp
    obtain ⟨more, ac'⟩ := p
    simp only at hmore hcs
    obtain ⟨rfl, -⟩ := Answer.stepped.inj hmore
    obtain ⟨hd, hw⟩ := ArrayCursor.next_eq_true hnext
    have hi : i < c.cursors.length := (List.getElem?_eq_some_iff.1 hac).1
    refine ⟨hcs ▸ hn.set _, .array ac', ?_, hd, .inr hw⟩
    rw [← hcs, List.getElem?_set_self hi]
    rfl
  · next oc hoc =>
    obtain ⟨p, r₁, hnext, hp⟩ := EStateM.run_bind_eq_ok.1 hrun
    simp only [EStateM.run_pure, EStateM.Result.ok.injEq, Prod.mk.injEq] at hp
    obtain ⟨⟨hmore, hcs⟩, rfl⟩ := hp
    obtain ⟨more, oc'⟩ := p
    simp only at hmore hcs
    obtain ⟨rfl, -⟩ := Answer.stepped.inj hmore
    obtain ⟨hd, hw⟩ := ObjectCursor.next_eq_true hnext
    have hi : i < c.cursors.length := (List.getElem?_eq_some_iff.1 hoc).1
    refine ⟨hcs ▸ hn.set _, .object oc', ?_, hd, .inr hw⟩
    rw [← hcs, List.getElem?_set_self hi]
    rfl
  · -- no cursor at `i`: the call answers that, not a step
    simp at hrun

/-- Opening an array gives a cursor over it, or over nothing for a null. -/
theorem openArray_eq_ofDefined {orNull : Bool} {r r' : Reader σ} {c : ArrayCursor}
    (h : (Call.openArray orNull).run r = .ok c r') : ∃ d, c = .ofDefined d := by
  cases orNull <;> simp only [Call.openArray, Bool.false_eq_true, if_false, if_true] at h <;>
    obtain ⟨t, r₁, -, h⟩ := EStateM.run_bind_eq_ok.1 h <;> split at h <;>
    simp [Reader.mismatch] at h <;> exact ⟨_, h.1.symm⟩

/-- Opening an object gives a cursor over it, or over nothing for a null. -/
theorem openObject_eq_ofDefined {orNull : Bool} {r r' : Reader σ} {c : ObjectCursor}
    (h : (Call.openObject orNull).run r = .ok c r') : ∃ d, c = .ofDefined d := by
  cases orNull <;> simp only [Call.openObject, Bool.false_eq_true, if_false, if_true] at h <;>
    obtain ⟨t, r₁, -, h⟩ := EStateM.run_bind_eq_ok.1 h <;> split at h <;>
    simp [Reader.mismatch] at h <;> exact ⟨_, h.1.symm⟩

/-- Right after `array`, `object` or `any` made a cursor over a container, the client stands on
the container's first value, or its end. -/
theorem atValue_of_open {c c' : Client σ} {call : Call} {a : Answer} (hc : call.opens = true)
    (h : c.step call = (a, some c')) (ha : a.opensContainer = true) :
    c'.AtValue (some c.cursors.length) := by
  have hrun := Client.step_eq_some h
  -- a fresh cursor `cur`, over a container, appended to the cursors
  suffices hnew : ∃ cur, c'.cursors = c.cursors ++ [cur] ∧ cur.done = false ∧ cur.started = false by
    obtain ⟨cur, hcs, hd, hs⟩ := hnew
    refine ⟨hcs ▸ innerDone_append_length _ _, cur, ?_, hd, .inl hs⟩
    rw [hcs]
    simp
  cases call with
  | array orNull =>
    obtain ⟨ac, r₁, hopen, hp⟩ := EStateM.run_bind_eq_ok.1 hrun
    simp only [EStateM.run_pure, EStateM.Result.ok.injEq, Prod.mk.injEq] at hp
    obtain ⟨⟨rfl, hcs⟩, -⟩ := hp
    obtain ⟨d, rfl⟩ := openArray_eq_ofDefined hopen
    exact ⟨.array _, hcs.symm, by simpa [Cursor.done, ArrayCursor.ofDefined, Answer.opensContainer] using ha, rfl⟩
  | object orNull names =>
    obtain ⟨oc, r₁, hopen, hp⟩ := EStateM.run_bind_eq_ok.1 hrun
    simp only [EStateM.run_pure, EStateM.Result.ok.injEq, Prod.mk.injEq] at hp
    obtain ⟨⟨rfl, hcs⟩, -⟩ := hp
    obtain ⟨d, rfl⟩ := openObject_eq_ofDefined hopen
    exact ⟨.object _, hcs.symm, by simpa [Cursor.done, ObjectCursor.ofDefined, ObjectCursor.requireAll,
      Answer.opensContainer] using ha, rfl⟩
  | any names =>
    obtain ⟨t, r₁, -, hp⟩ := EStateM.run_bind_eq_ok.1 hrun
    split at hp <;> simp only [EStateM.run_pure, EStateM.Result.ok.injEq, Prod.mk.injEq] at hp <;>
      obtain ⟨⟨rfl, hcs⟩, -⟩ := hp
    · exact ⟨_, hcs.symm, rfl, rfl⟩
    · exact ⟨_, hcs.symm, rfl, rfl⟩
    · next t' hne₁ hne₂ =>
      cases t' <;> simp_all [Answer.opensContainer]
  | _ => simp [Call.opens] at hc

end Positions

end Reader

end JsonCodec
