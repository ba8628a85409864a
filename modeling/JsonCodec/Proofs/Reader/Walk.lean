import JsonCodec.Proofs.Walk
import JsonCodec.Proofs.Run
import JsonCodec.Reader.Basic

/-! # The reader over a source that follows a walk

For any source that follows walks (`FollowsWalk R`), each operation of the reader is pinned down
by the walk alone: what it returns and where the walk stands afterwards. These are the reader's
own spec lemmas, and every theorem about whole reads is assembled from them.

* `take_run`, `peekKind_run`, `isEof_run`, `finish_run`: one value, one look at the walk, or its end;
* `skipValue_run`: skipping consumes the value the walk stands on, however deep, and nothing else;
* `value_run`: reading a value whole gives `Value.canon` of it, the tree with every object made
  a map sorted by name in which a later member replaces an earlier one of the same name;
* `advanceArray_run`, `advanceObject_run`: a container steps on, skipping an element left unread.

Skipping and reading run on loops with explicit stacks and fuel. Their lemmas follow the value
instead: the loop that meets a value of size `n` spends exactly `n` of its fuel on it and is then
where it would be had the value been a single step (`skipLoop_run`, `valueLoop_run`).
-/

namespace JsonCodec

mutual
/-- A value as reading rebuilds it: every object becomes a map sorted by name, in which a later
member replaces an earlier one of the same name. -/
def Value.canon : Value → Value
  | .array items => .array (Value.canonItems items)
  | .object members => .object (Value.canonMembers [] members)
  | v => v

/-- `Value.canon` of each element of a list. -/
def Value.canonItems : List Value → List Value
  | [] => []
  | v :: rest => v.canon :: Value.canonItems rest

/-- The map built from `acc` by inserting each member, made canonical, in turn. -/
def Value.canonMembers (acc : List (String × Value)) :
    List (String × Value) → List (String × Value)
  | [] => acc
  | (k, v) :: rest => Value.canonMembers (insertEntry k v.canon acc) rest
end

namespace Reader

variable {σ : Type}

/-- Running an operation of the source inside the reader runs it on the reader's source. -/
@[simp] theorem run_lift {α : Type} (m : EStateM ReadError σ α) (r : Reader σ) :
    (lift m).run r =
      match m.run r.source with
      | .ok a s => .ok a { r with source := s }
      | .error e s => .error e { r with source := s } := rfl

/-- Beginning a read clears the flag of a value left unread. -/
@[simp] theorem run_beginRead (r : Reader σ) :
    (beginRead : ReadM σ Unit).run r = .ok () { r with awaiting := false } := rfl

/-- Reading the reader's state returns it unchanged. -/
@[simp] theorem run_get (r : Reader σ) : (get : ReadM σ (Reader σ)).run r = .ok r r := rfl

section Follows

variable [Source σ] {R : σ → Walk → Prop} (hR : FollowsWalk R)
include hR

/-- Reading the next value's token takes the value the walk stands on. -/
theorem take_run {r : Reader σ} {w : Walk} {v : Value} {desired : Kind} {allowNull : Bool}
    (hr : R r.source w) (hc : w.current = some v) (hk : v.kind.admits (some desired) allowNull) :
    ∃ t s', (take desired allowNull).run r = .ok t ⟨s', false⟩ ∧
      t.erase = TreeSource.nodeToken v ∧ R s' w.take := by
  obtain ⟨t, s', hrun, ht, hs⟩ := hR.nextValue hr hc hk
  exact ⟨t, s', by simp [take, hrun], ht, hs⟩

/-- `any` takes the next value whatever its kind. -/
theorem any_run {r : Reader σ} {w : Walk} {v : Value} (hr : R r.source w)
    (hc : w.current = some v) :
    ∃ t s', (any : ReadM σ Token).run r = .ok t ⟨s', false⟩ ∧
      t.erase = TreeSource.nodeToken v ∧ R s' w.take := by
  obtain ⟨t, s', hrun, ht, hs⟩ := hR.nextValue hr hc (show v.kind.admits none true from rfl)
  exact ⟨t, s', by simp [any, hrun], ht, hs⟩

/-- Looking at the next value's kind leaves the walk where it is. -/
theorem peekKind_run {r : Reader σ} {w : Walk} {v : Value} (hr : R r.source w)
    (hc : w.current = some v) :
    ∃ s', (peekKind : ReadM σ Kind).run r = .ok v.kind { r with source := s' } ∧ R s' w := by
  obtain ⟨s', hrun, hs⟩ := hR.peekKind hr hc
  exact ⟨s', by simp [peekKind, hrun], hs⟩

/-- Asking whether the document has ended answers whether the walk is at its end, and leaves the
walk where it is. -/
theorem isEof_run {r : Reader σ} {w : Walk} (hr : R r.source w) :
    ∃ s', (isEof : ReadM σ Bool).run r = .ok w.atEnd { r with source := s' } ∧ R s' w := by
  obtain ⟨h1, h2⟩ := hR.isEof hr
  refine ⟨(Source.isEof r.source).2, ?_, h2⟩
  rw [← h1]
  rfl

/-- Once the walk is at its end, the check for the end of the document passes. -/
theorem finish_run {r : Reader σ} {w : Walk} (hr : R r.source w) (hend : w.atEnd = true) :
    ∃ s', (finish : ReadM σ Unit).run r = .ok () { r with source := s' } ∧ R s' w := by
  obtain ⟨s', hrun, hs⟩ := isEof_run hR hr
  refine ⟨s', ?_, hs⟩
  simp [finish, hrun, hend]

/-- One step of a container that is the innermost: what `Walk.step` does, answered as a
`Bool` telling whether a value follows. -/
theorem containerNext_run {r : Reader σ} {w : Walk} {f : TreeFrame} {fs : List TreeFrame}
    (hr : R r.source w) (hc : w.current = none) (hf : w.frames = f :: fs) :
    ∃ s', (containerNext f.isArray w.fresh).run r = .ok (w.step.current.isSome)
      { r with source := s' } ∧ R s' w.step := by
  cases f with
  | array items =>
    obtain ⟨s', hrun, hs⟩ := hR.arrayNext hr hc hf
    refine ⟨s', ?_, hs⟩
    cases items <;> simp_all [containerNext, TreeFrame.isArray, Walk.step]
  | object members =>
    obtain ⟨n, s', hrun, hn, hs⟩ := hR.objectNext hr hc hf
    refine ⟨s', ?_, hs⟩
    rcases members with _ | ⟨⟨k, v⟩, rest⟩ <;> cases n <;>
      simp_all [containerNext, TreeFrame.isArray, Walk.step]

/-! ### Skipping a value -/

/-- What the skipping loop does once it has taken a token: step the open containers on (`first`
right after one was entered), and go on while one of them still holds a value. -/
def skipRest (first : Bool) (fuel : Nat) (stack : List Bool) : ReadM σ Unit := do
  let stack ← stepOut first stack
  if stack.isEmpty then return () else skipLoop fuel stack

omit hR in
/-- The skipping loop's continuation unfolded. -/
theorem skipRest_eq (first : Bool) (fuel : Nat) (stack : List Bool) :
    (skipRest first fuel stack : ReadM σ Unit) =
      stepOut first stack >>= fun S => if S.isEmpty then pure () else skipLoop fuel S := rfl

omit hR in
/-- Stepping out of the innermost container: if it holds another value the stack stays, else the
loop steps the container around it. -/
theorem stepOut_cons (first inArray : Bool) (stack : List Bool) :
    (stepOut first (inArray :: stack) : ReadM σ (List Bool)) =
      containerNext inArray first >>= fun more =>
        if more then pure (inArray :: stack) else stepOut false stack := rfl

omit hR in
/-- A turn of the skipping loop takes a token and continues with `skipRest`, pushing a frame for a
container it enters. -/
theorem skipLoop_succ (fuel : Nat) (stack : List Bool) :
    (skipLoop (fuel + 1) stack : ReadM σ Unit) =
      lift (Source.nextValue none true) >>= fun t =>
        match t with
        | .arrayStart => skipRest true fuel (true :: stack)
        | .objectStart => skipRest true fuel (false :: stack)
        | _ => skipRest false fuel stack := by
  simp only [skipLoop]
  congr 1

/-- A scalar is one step of the skipping loop. -/
theorem skipLoop_leaf_run {v : Value} (hv : TreeSource.nodeFrame v = none) (n : Nat)
    (stack : List Bool) {r : Reader σ} {w : Walk} (hr : R r.source w) (hc : w.current = some v) :
    ∃ s', R s' w.skip ∧
      (skipLoop (n + 1) stack).run r = (skipRest false n stack).run { r with source := s' } := by
  obtain ⟨t, s', hrun, ht, hs⟩ := hR.nextValue hr hc (show v.kind.admits none true from rfl)
  have hw : w.take = w.skip := by
    cases v <;> simp_all [Walk.take, Walk.skip, TreeSource.nodeFrame]
  refine ⟨s', hw ▸ hs, ?_⟩
  rw [skipLoop_succ, EStateM.run_bind, run_lift, hrun]
  cases v <;> cases t <;> simp_all [Token.erase, TreeSource.nodeToken, TreeSource.nodeFrame]

mutual
/-- The skipping loop spends a value's size of fuel on it and is then where a single step
would have left it. -/
theorem skipLoop_run : (v : Value) → ∀ (n : Nat) (stack : List Bool) (r : Reader σ) (w : Walk),
    R r.source w → w.current = some v →
      ∃ s', R s' w.skip ∧
        (skipLoop (n + v.size) stack).run r = (skipRest false n stack).run { r with source := s' }
  | .array items, n, stack, r, w, hr, hc => by
    -- a container costs one turn for its start, then its contents' fuel, spent by the lemma for
    -- its elements
    obtain ⟨t, s₁, hrun, ht, hs₁⟩ := hR.nextValue hr hc (show Kind.array.admits none true from rfl)
    have htk : t = .arrayStart := by cases t <;> simp_all [Token.erase, TreeSource.nodeToken]
    obtain ⟨s', hs', heq⟩ :=
      skipItems_run items n stack true { r with source := s₁ } w.frames
        (Walk.take_array hc ▸ hs₁)
    refine ⟨s', hs', ?_⟩
    rw [show n + (Value.array items).size = (n + Value.itemsSize items) + 1 by
      simp [Value.size]; omega, skipLoop_succ, EStateM.run_bind, run_lift, hrun, htk]
    exact heq
  | .object members, n, stack, r, w, hr, hc => by
    obtain ⟨t, s₁, hrun, ht, hs₁⟩ :=
      hR.nextValue hr hc (show Kind.object.admits none true from rfl)
    have htk : t = .objectStart := by cases t <;> simp_all [Token.erase, TreeSource.nodeToken]
    obtain ⟨s', hs', heq⟩ :=
      skipMembers_run members n stack true { r with source := s₁ } w.frames
        (Walk.take_object hc ▸ hs₁)
    refine ⟨s', hs', ?_⟩
    rw [show n + (Value.object members).size = (n + Value.membersSize members) + 1 by
      simp [Value.size]; omega, skipLoop_succ, EStateM.run_bind, run_lift, hrun, htk]
    exact heq
  | .null, n, stack, r, w, hr, hc => skipLoop_leaf_run hR rfl n stack hr hc
  | .bool _, n, stack, r, w, hr, hc => skipLoop_leaf_run hR rfl n stack hr hc
  | .number _, n, stack, r, w, hr, hc => skipLoop_leaf_run hR rfl n stack hr hc
  | .string _, n, stack, r, w, hr, hc => skipLoop_leaf_run hR rfl n stack hr hc

/-- Skipping the elements an array still holds, up to and including its closing step. -/
theorem skipItems_run : (items : List Value) → ∀ (n : Nat) (stack : List Bool) (first : Bool)
    (r : Reader σ) (fs : List TreeFrame), R r.source ⟨none, .array items :: fs, first⟩ →
      ∃ s', R s' ⟨none, fs, false⟩ ∧
        (skipRest first (n + Value.itemsSize items) (true :: stack)).run r =
          (skipRest false n stack).run { r with source := s' }
  | [], n, stack, first, r, fs, hr => by
    -- the closing step pops the array's flag
    obtain ⟨s₁, hrun, hs₁⟩ := containerNext_run hR hr rfl rfl
    simp only [TreeFrame.isArray, Walk.step] at hrun hs₁
    refine ⟨s₁, hs₁, ?_⟩
    rw [skipRest_eq, stepOut_cons, EStateM.run_bind, EStateM.run_bind, hrun]
    simp [Value.itemsSize, skipRest_eq]
  | v :: rest, n, stack, first, r, fs, hr => by
    -- an element keeps the flag and is skipped with the fuel of its size
    obtain ⟨s₁, hrun, hs₁⟩ := containerNext_run hR hr rfl rfl
    simp only [TreeFrame.isArray, Walk.step] at hrun hs₁
    obtain ⟨s₂, hs₂, heq₂⟩ := skipLoop_run v (n + Value.itemsSize rest) (true :: stack)
      { r with source := s₁ } _ hs₁ rfl
    obtain ⟨s', hs', heq⟩ := skipItems_run rest n stack false { r with source := s₂ } fs hs₂
    refine ⟨s', hs', ?_⟩
    rw [← heq, skipRest_eq, stepOut_cons, EStateM.run_bind, EStateM.run_bind, hrun]
    simp only [Option.isSome_some, if_true, EStateM.run_pure, List.isEmpty_cons]
    rw [show n + Value.itemsSize (v :: rest) = n + Value.itemsSize rest + v.size by
      simp [Value.itemsSize]; omega]
    exact heq₂

/-- Skipping the members an object still holds, up to and including its closing step. -/
theorem skipMembers_run : (members : List (String × Value)) → ∀ (n : Nat) (stack : List Bool)
    (first : Bool) (r : Reader σ) (fs : List TreeFrame),
    R r.source ⟨none, .object members :: fs, first⟩ →
      ∃ s', R s' ⟨none, fs, false⟩ ∧
        (skipRest first (n + Value.membersSize members) (false :: stack)).run r =
          (skipRest false n stack).run { r with source := s' }
  | [], n, stack, first, r, fs, hr => by
    -- the closing step pops the object's flag
    obtain ⟨s₁, hrun, hs₁⟩ := containerNext_run hR hr rfl rfl
    simp only [TreeFrame.isArray, Walk.step] at hrun hs₁
    refine ⟨s₁, hs₁, ?_⟩
    rw [skipRest_eq, stepOut_cons, EStateM.run_bind, EStateM.run_bind, hrun]
    simp [Value.membersSize, skipRest_eq]
  | (k, v) :: rest, n, stack, first, r, fs, hr => by
    -- a member keeps the flag and its value is skipped with the fuel of its size
    obtain ⟨s₁, hrun, hs₁⟩ := containerNext_run hR hr rfl rfl
    simp only [TreeFrame.isArray, Walk.step] at hrun hs₁
    obtain ⟨s₂, hs₂, heq₂⟩ := skipLoop_run v (n + Value.membersSize rest) (false :: stack)
      { r with source := s₁ } _ hs₁ rfl
    obtain ⟨s', hs', heq⟩ := skipMembers_run rest n stack false { r with source := s₂ } fs hs₂
    refine ⟨s', hs', ?_⟩
    rw [← heq, skipRest_eq, stepOut_cons, EStateM.run_bind, EStateM.run_bind, hrun]
    simp only [Option.isSome_some, if_true, EStateM.run_pure, List.isEmpty_cons]
    rw [show n + Value.membersSize ((k, v) :: rest) = n + Value.membersSize rest + v.size by
      simp [Value.membersSize]; omega]
    exact heq₂
end

/-- Skipping a value consumes exactly the value the walk stands on. -/
theorem skipValue_run {r : Reader σ} {w : Walk} {v : Value} (hr : R r.source w)
    (hc : w.current = some v) :
    ∃ s', (skipValue : ReadM σ Unit).run r = .ok () ⟨s', false⟩ ∧ R s' w.skip := by
  -- the budget plus one is fuel enough: the walk's nodes, this value's among them, fit in the
  -- budget
  have hsize : v.size ≤ Source.budget r.source := by
    have := hR.budget hr
    simp only [Walk.size, hc, Option.map_some, Option.getD_some] at this
    omega
  obtain ⟨s', hs', heq⟩ := skipLoop_run hR v (Source.budget r.source + 1 - v.size) []
    { r with awaiting := false } w hr hc
  refine ⟨s', ?_, hs'⟩
  have hn : Source.budget r.source + 1 - v.size + v.size = Source.budget r.source + 1 := by omega
  rw [hn] at heq
  simp only [skipValue, EStateM.run_bind, run_beginRead, run_get, heq]
  simp [skipRest_eq, stepOut]

/-! ### Reading a value whole -/

/-- What the reading loop does with what `settle` gives: the finished value, or the containers
still open, read on with the fuel left. -/
def valueRest (fuel : Nat) : Value ⊕ List Open → ReadM σ Value
  | .inl v => pure v
  | .inr stack => valueLoop fuel stack

/-- Steps an array being read (`first` right after its opening): the next element is read into
it, or it closes holding `acc` and is settled into the containers around it. -/
def arrayRest (first : Bool) (acc : Array Value) (stack : List Open) :
    ReadM σ (Value ⊕ List Open) := do
  if ← lift (Source.arrayNext first) then pure (.inr (.array acc :: stack))
  else settle (.array acc.toList) stack

/-- Steps an object being read, as `arrayRest` steps an array. -/
def objectRest (first : Bool) (acc : List (String × Value)) (stack : List Open) :
    ReadM σ (Value ⊕ List Open) := do
  match ← lift (Source.objectNext first) with
  | some n => pure (.inr (.object acc n.str :: stack))
  | none => settle (.object acc) stack

/-- What the reading loop does with the token it has taken. -/
def valueStep (t : Token) (stack : List Open) : ReadM σ (Value ⊕ List Open) :=
  match t with
  | .arrayStart => arrayRest true #[] stack
  | .objectStart => objectRest true [] stack
  | .null => settle .null stack
  | .bool b => settle (.bool b) stack
  | .number x => settle (.number x) stack
  | .string s => settle (.string s.str) stack

omit hR in
/-- A turn of the reading loop takes a token, handles it with `valueStep` and continues with
`valueRest`. -/
theorem valueLoop_succ (fuel : Nat) (stack : List Open) :
    (valueLoop (fuel + 1) stack : ReadM σ Value) =
      lift (Source.nextValue none true) >>= fun t => valueStep t stack >>= valueRest fuel := by
  simp only [valueLoop]
  congr 1
  funext t
  -- the loop's body is `valueStep` then `valueRest`; only a container's start needs its steps
  -- reassociated, and one that holds a value goes on through `valueRest`
  cases t with
  | arrayStart =>
    simp only [valueStep, arrayRest, bind_assoc]
    congr 1
    funext more
    cases more
    · congr 1
    · simp [valueRest]
  | objectStart =>
    simp only [valueStep, objectRest, bind_assoc]
    congr 1
    funext name
    cases name
    · congr 1
    · simp [valueRest]
  | _ => simp only [valueStep]; congr 1

omit hR in
/-- A value settled into an open array is pushed onto it, and the array steps on. -/
theorem settle_array (v : Value) (acc : Array Value) (stack : List Open) :
    (settle v (.array acc :: stack) : ReadM σ (Value ⊕ List Open)) =
      arrayRest false (acc.push v) stack := rfl

omit hR in
/-- A value settled into an open object is inserted under the member's name, and the object steps
on. -/
theorem settle_object (v : Value) (acc : List (String × Value)) (name : String)
    (stack : List Open) :
    (settle v (.object acc name :: stack) : ReadM σ (Value ⊕ List Open)) =
      objectRest false (insertEntry name v acc) stack := rfl

/-- A scalar is one step of the reading loop, settled as it is. -/
theorem valueLoop_leaf_run {v : Value} (hv : TreeSource.nodeFrame v = none) (n : Nat)
    (stack : List Open) {r : Reader σ} {w : Walk} (hr : R r.source w) (hc : w.current = some v) :
    ∃ s', R s' w.skip ∧
      (valueLoop (n + 1) stack).run r =
        (settle v.canon stack >>= valueRest n).run { r with source := s' } := by
  obtain ⟨t, s', hrun, ht, hs⟩ := hR.nextValue hr hc (show v.kind.admits none true from rfl)
  have hw : w.take = w.skip := by
    cases v <;> simp_all [Walk.take, Walk.skip, TreeSource.nodeFrame]
  refine ⟨s', hw ▸ hs, ?_⟩
  rw [valueLoop_succ, EStateM.run_bind, run_lift, hrun]
  cases v <;> cases t <;>
    simp_all [Token.erase, TreeSource.nodeToken, TreeSource.nodeFrame, valueStep, Value.canon]

mutual
/-- The reading loop spends a value's size of fuel on it and then settles `Value.canon` of it,
where a single step would have left it. -/
theorem valueLoop_run : (v : Value) → ∀ (n : Nat) (stack : List Open) (r : Reader σ) (w : Walk),
    R r.source w → w.current = some v →
      ∃ s', R s' w.skip ∧
        (valueLoop (n + v.size) stack).run r =
          (settle v.canon stack >>= valueRest n).run { r with source := s' }
  | .array items, n, stack, r, w, hr, hc => by
    -- a container costs one turn for its start and then the fuel of its contents, which the lemma
    -- for its elements spends
    obtain ⟨t, s₁, hrun, ht, hs₁⟩ := hR.nextValue hr hc (show Kind.array.admits none true from rfl)
    have htk : t = .arrayStart := by cases t <;> simp_all [Token.erase, TreeSource.nodeToken]
    obtain ⟨s', hs', heq⟩ :=
      valueItems_run items n stack #[] true { r with source := s₁ } w.frames
        (Walk.take_array hc ▸ hs₁)
    refine ⟨s', hs', ?_⟩
    rw [show n + (Value.array items).size = (n + Value.itemsSize items) + 1 by
      simp [Value.size]; omega, valueLoop_succ, EStateM.run_bind, run_lift, hrun, htk]
    simp only [Value.canon]
    exact heq
  | .object members, n, stack, r, w, hr, hc => by
    obtain ⟨t, s₁, hrun, ht, hs₁⟩ :=
      hR.nextValue hr hc (show Kind.object.admits none true from rfl)
    have htk : t = .objectStart := by cases t <;> simp_all [Token.erase, TreeSource.nodeToken]
    obtain ⟨s', hs', heq⟩ :=
      valueMembers_run members n stack [] true { r with source := s₁ } w.frames
        (Walk.take_object hc ▸ hs₁)
    refine ⟨s', hs', ?_⟩
    rw [show n + (Value.object members).size = (n + Value.membersSize members) + 1 by
      simp [Value.size]; omega, valueLoop_succ, EStateM.run_bind, run_lift, hrun, htk]
    simp only [Value.canon]
    exact heq
  | .null, n, stack, r, w, hr, hc => valueLoop_leaf_run hR rfl n stack hr hc
  | .bool _, n, stack, r, w, hr, hc => valueLoop_leaf_run hR rfl n stack hr hc
  | .number _, n, stack, r, w, hr, hc => valueLoop_leaf_run hR rfl n stack hr hc
  | .string _, n, stack, r, w, hr, hc => valueLoop_leaf_run hR rfl n stack hr hc

/-- Reading the elements an array still holds into `acc`, up to and including its closing
step. -/
theorem valueItems_run : (items : List Value) → ∀ (n : Nat) (stack : List Open) (acc : Array Value)
    (first : Bool) (r : Reader σ) (fs : List TreeFrame),
    R r.source ⟨none, .array items :: fs, first⟩ →
      ∃ s', R s' ⟨none, fs, false⟩ ∧
        (arrayRest first acc stack >>= valueRest (n + Value.itemsSize items)).run r =
          (settle (.array (acc.toList ++ Value.canonItems items)) stack >>= valueRest n).run
            { r with source := s' }
  | [], n, stack, acc, first, r, fs, hr => by
    -- the closing step: the array is settled into what holds it
    obtain ⟨s₁, hrun, hs₁⟩ := hR.arrayNext hr rfl rfl
    refine ⟨s₁, hs₁, ?_⟩
    simp only [arrayRest, EStateM.run_bind, run_lift, hrun]
    simp [Value.itemsSize, Value.canonItems]
  | v :: rest, n, stack, acc, first, r, fs, hr => by
    -- an element: it is read with the fuel of its size and pushed, and the rest follows
    obtain ⟨s₁, hrun, hs₁⟩ := hR.arrayNext hr rfl rfl
    simp only [Walk.step] at hs₁
    obtain ⟨s₂, hs₂, heq₂⟩ := valueLoop_run v (n + Value.itemsSize rest) (.array acc :: stack)
      { r with source := s₁ } _ hs₁ rfl
    obtain ⟨s', hs', heq⟩ :=
      valueItems_run rest n stack (acc.push v.canon) false { r with source := s₂ } fs hs₂
    refine ⟨s', hs', ?_⟩
    rw [settle_array] at heq₂
    dsimp only at hrun
    have hstep : (arrayRest first acc stack >>= valueRest (n + Value.itemsSize (v :: rest))).run r =
        (valueLoop (n + Value.itemsSize rest + v.size) (.array acc :: stack)).run
          { r with source := s₁ } := by
      rw [show n + Value.itemsSize (v :: rest) = n + Value.itemsSize rest + v.size by
        simp [Value.itemsSize]; omega]
      simp [arrayRest, hrun, valueRest]
    rw [hstep, heq₂, heq]
    simp [Value.canonItems]

/-- Reading the members an object still holds into the map `acc`, up to and including its
closing step. -/
theorem valueMembers_run : (members : List (String × Value)) → ∀ (n : Nat) (stack : List Open)
    (acc : List (String × Value)) (first : Bool) (r : Reader σ) (fs : List TreeFrame),
    R r.source ⟨none, .object members :: fs, first⟩ →
      ∃ s', R s' ⟨none, fs, false⟩ ∧
        (objectRest first acc stack >>= valueRest (n + Value.membersSize members)).run r =
          (settle (.object (Value.canonMembers acc members)) stack >>= valueRest n).run
            { r with source := s' }
  | [], n, stack, acc, first, r, fs, hr => by
    -- the closing step: the object is settled into what holds it
    obtain ⟨name, s₁, hrun, hname, hs₁⟩ := hR.objectNext hr rfl rfl
    cases name with
    | some _ => simp at hname
    | none =>
      refine ⟨s₁, hs₁, ?_⟩
      simp only [objectRest, EStateM.run_bind, run_lift, hrun]
      simp [Value.membersSize, Value.canonMembers]
  | (k, v) :: rest, n, stack, acc, first, r, fs, hr => by
    -- a member: its value is read with the fuel of its size and inserted under its name, and the
    -- rest follows
    obtain ⟨name, s₁, hrun, hname, hs₁⟩ := hR.objectNext hr rfl rfl
    simp only [Walk.step] at hs₁
    obtain ⟨s₂, hs₂, heq₂⟩ := valueLoop_run v (n + Value.membersSize rest)
      (.object acc k :: stack) { r with source := s₁ } _ hs₁ rfl
    obtain ⟨s', hs', heq⟩ := valueMembers_run rest n stack (insertEntry k v.canon acc) false
      { r with source := s₂ } fs hs₂
    refine ⟨s', hs', ?_⟩
    cases name with
    | none => simp at hname
    | some name =>
      simp only [List.head?_cons, Option.map_some, Option.some.injEq] at hname
      rw [settle_object] at heq₂
      dsimp only at hrun
      have hstep : (objectRest first acc stack >>=
            valueRest (n + Value.membersSize ((k, v) :: rest))).run r =
          (valueLoop (n + Value.membersSize rest + v.size) (.object acc k :: stack)).run
            { r with source := s₁ } := by
        rw [show n + Value.membersSize ((k, v) :: rest) = n + Value.membersSize rest + v.size by
          simp [Value.membersSize]; omega]
        simp [objectRest, hrun, valueRest, hname]
      rw [hstep, heq₂, heq]
      simp [Value.canonMembers]
end

/-- Reading a value whole gives `Value.canon` of the value the walk stands on, and consumes
exactly that value. -/
theorem value_run {r : Reader σ} {w : Walk} {v : Value} (hr : R r.source w)
    (hc : w.current = some v) :
    ∃ s', (value : ReadM σ Value).run r = .ok v.canon ⟨s', false⟩ ∧ R s' w.skip := by
  have hsize : v.size ≤ Source.budget r.source := by
    have := hR.budget hr
    simp only [Walk.size, hc, Option.map_some, Option.getD_some] at this
    omega
  obtain ⟨s', hs', heq⟩ := valueLoop_run hR v (Source.budget r.source + 1 - v.size) []
    { r with awaiting := false } w hr hc
  refine ⟨s', ?_, hs'⟩
  have hn : Source.budget r.source + 1 - v.size + v.size = Source.budget r.source + 1 := by omega
  rw [hn] at heq
  simp only [value, EStateM.run_bind, run_beginRead, run_get, heq]
  simp [settle, valueRest]

/-! ### Stepping a container -/

/-- Where a container step may start: right after the container was entered or after its
latest value was read (nothing awaits), or on a value left unread. -/
def StepsFrom (r : Reader σ) (w : Walk) (f : TreeFrame) (fs : List TreeFrame) (first : Bool) :
    Prop :=
  (r.awaiting = false ∧ w = ⟨none, f :: fs, first⟩) ∨
    (r.awaiting = true ∧ first = false ∧ ∃ v, w = ⟨some v, f :: fs, false⟩)

omit hR [Source σ] in
/-- After a plan at an element, the reader stands where the next cursor step expects it: past
the element, or still before it when it was left unread. -/
theorem stepsFrom_after {s : σ} {v : Value} {f : TreeFrame} {fs : List TreeFrame} (l : Bool) :
    StepsFrom ⟨s, l && true⟩ (if l then ⟨some v, f :: fs, false⟩ else Walk.skip ⟨some v, f :: fs, false⟩)
      f fs false := by
  cases l
  · exact Or.inl ⟨rfl, rfl⟩
  · exact Or.inr ⟨rfl, rfl, v, rfl⟩

/-- Stepping an array, after skipping an element left unread, answers whether an element follows and
moves the walk one container step. -/
theorem advanceArray_run {r : Reader σ} {w : Walk} {items : List Value} {fs : List TreeFrame}
    {first : Bool} (hr : R r.source w) (hpos : StepsFrom r w (.array items) fs first) :
    ∃ s', (advanceArray first).run r = .ok (!items.isEmpty) ⟨s', !items.isEmpty⟩ ∧
      R s' (Walk.step ⟨none, .array items :: fs, first⟩) := by
  rcases hpos with ⟨ha, rfl⟩ | ⟨ha, rfl, v, rfl⟩
  · -- nothing awaits: the array steps at once
    obtain ⟨s', hrun, hs'⟩ := hR.arrayNext hr rfl rfl
    exact ⟨s', by simp [advanceArray, ha, hrun], hs'⟩
  · -- the element left unread is skipped first
    obtain ⟨s₁, hskip, hs₁⟩ := skipValue_run hR hr rfl
    obtain ⟨s', hrun, hs'⟩ := hR.arrayNext hs₁ rfl rfl
    dsimp only [Walk.skip] at hrun
    exact ⟨s', by simp [advanceArray, ha, hskip, hrun], hs'⟩

/-- Stepping an object, after skipping a member's value left unread, gives the next member's name if
there is one and moves the walk one container step. -/
theorem advanceObject_run {r : Reader σ} {w : Walk} {members : List (String × Value)}
    {fs : List TreeFrame} {first : Bool} (hr : R r.source w)
    (hpos : StepsFrom r w (.object members) fs first) :
    ∃ n s', (advanceObject first).run r = .ok n ⟨s', n.isSome⟩ ∧
      n.map Text.str = members.head?.map Prod.fst ∧
      R s' (Walk.step ⟨none, .object members :: fs, first⟩) := by
  rcases hpos with ⟨ha, rfl⟩ | ⟨ha, rfl, v, rfl⟩
  · obtain ⟨n, s', hrun, hn, hs'⟩ := hR.objectNext hr rfl rfl
    exact ⟨n, s', by simp [advanceObject, ha, hrun], hn, hs'⟩
  · obtain ⟨s₁, hskip, hs₁⟩ := skipValue_run hR hr rfl
    obtain ⟨n, s', hrun, hn, hs'⟩ := hR.objectNext hs₁ rfl rfl
    dsimp only [Walk.skip] at hrun
    exact ⟨n, s', by simp [advanceObject, ha, hskip, hrun], hn, hs'⟩

/-! ### Cursors -/

/-- A cursor over an array that is not done steps the array: to its next element, or past its
end, after which the cursor is done. -/
theorem arrayCursor_next_run {c : ArrayCursor} {r : Reader σ} {w : Walk} {items : List Value}
    {fs : List TreeFrame} (hd : c.done = false) (hr : R r.source w)
    (hpos : StepsFrom r w (.array items) fs !c.started) :
    ∃ s', (c.next).run r =
        .ok (!items.isEmpty, { c with started := true, done := items.isEmpty })
          ⟨s', !items.isEmpty⟩ ∧
      R s' (Walk.step ⟨none, .array items :: fs, !c.started⟩) := by
  obtain ⟨s', hrun, hs'⟩ := advanceArray_run hR hr hpos
  exact ⟨s', by simp [ArrayCursor.next, hd, hrun], hs'⟩

/-- A cursor over an object that is not done steps to the next member, whose name it takes and
marks as seen among the required names. -/
theorem objectCursor_next_member {c : ObjectCursor} {r : Reader σ} {w : Walk} {k : String}
    {v : Value} {rest : List (String × Value)} {fs : List TreeFrame} (hd : c.done = false)
    (hr : R r.source w) (hpos : StepsFrom r w (.object ((k, v) :: rest)) fs !c.started) :
    ∃ name s', name.str = k ∧
      (c.next).run r =
        .ok (true, { c with started := true, name, required := markSeen k c.required })
          ⟨s', true⟩ ∧
      R s' ⟨some v, .object rest :: fs, false⟩ := by
  obtain ⟨n, s', hrun, hn, hs'⟩ := advanceObject_run hR hr hpos
  cases n with
  | none => simp at hn
  | some name =>
    simp only [Option.map_some, List.head?_cons, Option.some.injEq] at hn
    refine ⟨name, s', hn, ?_, hs'⟩
    simp [ObjectCursor.next, hd, hrun, hn]

/-- At the end of its object a cursor is done, and reports the first required name it has not
seen. -/
theorem objectCursor_next_end {c : ObjectCursor} {r : Reader σ} {w : Walk} {fs : List TreeFrame}
    (hd : c.done = false) (hr : R r.source w) (hpos : StepsFrom r w (.object []) fs !c.started) :
    ∃ s', R s' ⟨none, fs, false⟩ ∧
      (c.next).run r =
        match c.required.find? fun e => !e.2 with
        | some (n, _) => .error (.missingProperty n (Source.offset s')) ⟨s', false⟩
        | none =>
          .ok (false, { c with started := true, done := true, name := ⟨"", true⟩ }) ⟨s', false⟩ := by
  obtain ⟨n, s', hrun, hn, hs'⟩ := advanceObject_run hR hr hpos
  -- the object holds no more members, so its step finds none
  cases n with
  | some _ => simp at hn
  | none =>
    refine ⟨s', hs', ?_⟩
    simp only [ObjectCursor.next, hd]
    cases c.required.find? fun e => !e.2 <;> simp [hrun, offset]

end Follows

end Reader

end JsonCodec
