import JsonCodec.Proofs.Reader.Walk
import JsonCodec.Reader.Schema

/-! # Skipping a value is reading it and dropping it

`Reader.skipValue` walks the nesting of a value with a stack of flags, true for an array, and
`Reader.value` walks it with a stack of the containers it is building. The two loops pull the same
tokens and step the same containers in the same order, on any source and from any state:

* `value_map_eq_skipValue`: reading a value whole and dropping it is, as a step of the reader,
  skipping it. Both fail with the same error in the same state, or both succeed in the same state.
  Since this holds of every source, it holds of one that records its calls: the two issue the
  same calls.

The loops are compared one token at a time. What the reading loop holds after settling a value
is seen as the skipping loop's stack (`openFlags`), and what the skipping loop holds after
stepping out is seen the same way (`nonEmptyFlags`); `settle` and `stepOut` agree through these
views (`settle_openFlags`).
-/

namespace JsonCodec.Reader

variable {σ : Type} [Source σ]

/-! ### The two loops, one token at a time -/

/-- Whether an open container is an array: the flag the skipping loop keeps for it. -/
def Open.isArray : Open → Bool
  | .array _ => true
  | .object _ _ => false

/-- Where the reading loop stands after settling a value, as the skipping loop would hold it:
the flags of the containers still open, none once the outermost has closed. -/
def openFlags : Value ⊕ List Open → Option (List Bool)
  | .inl _ => none
  | .inr stack => some (stack.map Open.isArray)

/-- The skipping loop's stack after stepping out, none once it is empty. -/
def nonEmptyFlags (flags : List Bool) : Option (List Bool) :=
  if flags.isEmpty then none else some flags

/-- The skipping loop steps an array as the source steps it. -/
theorem containerNext_true (first : Bool) :
    (containerNext true first : ReadM σ Bool) = lift (Source.arrayNext first) := rfl

/-- The skipping loop steps an object as the source steps it, keeping only whether a member
follows. -/
theorem containerNext_false (first : Bool) :
    (containerNext false first : ReadM σ Bool) =
      lift (Source.objectNext first) >>= fun name => pure name.isSome := rfl

/-- Stepping an array being read is stepping it in the skipping loop, once what closes around
it agrees. -/
theorem arrayRest_openFlags {stack : List Open}
    (h : ∀ v, openFlags <$> (settle v stack : ReadM σ _) =
      nonEmptyFlags <$> stepOut false (stack.map Open.isArray))
    (first : Bool) (acc : Array Value) :
    openFlags <$> (arrayRest first acc stack : ReadM σ _) =
      nonEmptyFlags <$> stepOut first (true :: stack.map Open.isArray) := by
  rw [arrayRest, stepOut_cons, containerNext_true, map_bind, map_bind]
  congr 1
  funext more
  cases more
  · simp [h]
  · simp [openFlags, nonEmptyFlags, Open.isArray]

/-- Stepping an object being read is stepping it in the skipping loop, as for arrays. -/
theorem objectRest_openFlags {stack : List Open}
    (h : ∀ v, openFlags <$> (settle v stack : ReadM σ _) =
      nonEmptyFlags <$> stepOut false (stack.map Open.isArray))
    (first : Bool) (acc : List (String × Value)) :
    openFlags <$> (objectRest first acc stack : ReadM σ _) =
      nonEmptyFlags <$> stepOut first (false :: stack.map Open.isArray) := by
  rw [objectRest, stepOut_cons, containerNext_false, bind_assoc, map_bind, map_bind]
  congr 1
  funext name
  cases name
  · simp [h]
  · simp [openFlags, nonEmptyFlags, Open.isArray]

/-- Settling a value closes the containers that end and stops at the first that goes on, as
stepping out of them does. -/
theorem settle_openFlags (stack : List Open) (v : Value) :
    openFlags <$> (settle v stack : ReadM σ _) =
      nonEmptyFlags <$> stepOut false (stack.map Open.isArray) := by
  induction stack generalizing v with
  | nil => simp [settle, stepOut, openFlags, nonEmptyFlags]
  | cons o stack ih =>
    cases o with
    | array acc => exact arrayRest_openFlags ih false (acc.push v)
    | object acc name => exact objectRest_openFlags ih false (insertEntry name v acc)

/-- After one step, the reading loop goes on as the skipping loop does: given that both step
the containers alike, reading on and dropping the value is skipping on. -/
theorem valueRest_map {X : ReadM σ (Value ⊕ List Open)} {Y : ReadM σ (List Bool)} {fuel : Nat}
    (hXY : openFlags <$> X = nonEmptyFlags <$> Y)
    (ih : ∀ stack, (fun _ => ()) <$> (valueLoop fuel stack : ReadM σ Value) =
      skipLoop fuel (stack.map Open.isArray)) :
    (fun _ => ()) <$> (X >>= valueRest fuel) =
      Y >>= fun flags => if flags.isEmpty then pure () else skipLoop fuel flags := by
  -- the skipping loop's test of its stack, read off the view of that stack
  let K : Option (List Bool) → ReadM σ Unit
    | none => pure ()
    | some flags => skipLoop fuel flags
  have hK : ∀ flags : List Bool,
      (if flags.isEmpty then pure () else skipLoop fuel flags : ReadM σ Unit) =
        K (nonEmptyFlags flags) := by
    intro flags
    unfold nonEmptyFlags
    split <;> rfl
  calc (fun _ => ()) <$> (X >>= valueRest fuel)
      = X >>= fun x => K (openFlags x) := by
        rw [map_bind]
        congr 1
        funext x
        cases x with
        | inl v => simp [valueRest, K, openFlags]
        | inr stack => exact ih stack
    _ = (openFlags <$> X) >>= K := (bind_map_left _ _ _).symm
    _ = (nonEmptyFlags <$> Y) >>= K := by rw [hXY]
    _ = Y >>= fun flags => if flags.isEmpty then pure () else skipLoop fuel flags := by
        rw [bind_map_left]
        congr 1
        funext flags
        exact (hK flags).symm

/-- With the same fuel, reading values into the open containers and dropping the result is
skipping them with their flags. -/
theorem valueLoop_map (fuel : Nat) (stack : List Open) :
    (fun _ => ()) <$> (valueLoop fuel stack : ReadM σ Value) =
      skipLoop fuel (stack.map Open.isArray) := by
  -- one turn at a time: both loops take the same token, and what the reading loop holds after it
  -- is seen as the skipping loop's stack (`openFlags`)
  induction fuel generalizing stack with
  | zero => rfl
  | succ fuel ih =>
    rw [valueLoop_succ, skipLoop_succ, map_bind]
    congr 1
    funext t
    cases t with
    | arrayStart =>
      exact valueRest_map (arrayRest_openFlags (settle_openFlags stack) true #[]) ih
    | objectStart =>
      exact valueRest_map (objectRest_openFlags (settle_openFlags stack) true []) ih
    | null => exact valueRest_map (settle_openFlags stack _) ih
    | bool b => exact valueRest_map (settle_openFlags stack _) ih
    | number x => exact valueRest_map (settle_openFlags stack _) ih
    | string s => exact valueRest_map (settle_openFlags stack _) ih

/-- Reading a value whole and dropping it is skipping it. -/
theorem value_map_eq_skipValue :
    (fun _ => ()) <$> (value : ReadM σ Value) = skipValue := by
  simp only [value, skipValue, map_bind]
  congr 1
  funext u
  congr 1
  funext r
  exact valueLoop_map _ []

/-! ### What skipping consumes -/

/-- Steps the innermost container of the source, an array or an object: whether a value
follows. -/
def containerStep (inArray first : Bool) : EStateM ReadError σ Bool :=
  if inArray then Source.arrayNext first else Option.isSome <$> Source.objectNext first

/-- The skipping loop's container step is the source's, lifted into the reader. -/
theorem containerNext_eq_lift (inArray first : Bool) :
    (containerNext inArray first : ReadM σ Bool) = lift (containerStep inArray first) := by
  cases inArray with
  | true => rfl
  | false =>
    apply EStateM.ext
    intro r
    simp only [containerNext_false, containerStep, Bool.false_eq_true, if_false,
      EStateM.run_bind, run_lift, EStateM.run_map]
    cases (Source.objectNext first : EStateM ReadError σ _).run r.source <;> rfl

mutual
/-- `Skips n s s'`: from `s`, in `n` pulls, the source yields one whole value and stands at `s'`
after it. Only the calls skipping makes are taken, and each succeeds. -/
inductive Skips : Nat → σ → σ → Prop
  | scalar {s s' : σ} {t : Token} : (Source.nextValue none true).run s = .ok t s' →
      t ≠ .arrayStart → t ≠ .objectStart → Skips 1 s s'
  | array {n : Nat} {s s₁ s' : σ} : (Source.nextValue none true).run s = .ok .arrayStart s₁ →
      SkipsRest true true n s₁ s' → Skips (n + 1) s s'
  | object {n : Nat} {s s₁ s' : σ} : (Source.nextValue none true).run s = .ok .objectStart s₁ →
      SkipsRest false true n s₁ s' → Skips (n + 1) s s'

/-- `SkipsRest inArray first n s s'`: the innermost container, an array when `inArray`, stepped
from `s` (`first` right after its start), yields the values it still holds in `n` pulls and
closes at `s'`. -/
inductive SkipsRest : Bool → Bool → Nat → σ → σ → Prop
  | done {inArray first : Bool} {s s' : σ} :
      (containerStep inArray first).run s = .ok false s' → SkipsRest inArray first 0 s s'
  | more {inArray first : Bool} {m n : Nat} {s s₁ s₂ s' : σ} :
      (containerStep inArray first).run s = .ok true s₁ → Skips m s₁ s₂ →
        SkipsRest inArray false n s₂ s' → SkipsRest inArray first (m + n) s s'
end

mutual
/-- A value the source yields in `n` pulls costs the skipping loop `n` units of fuel, and the
loop then steps out of the containers around it. -/
theorem skipLoop_of_skips {n : Nat} {s s' : σ} :
    Skips n s s' → ∀ (fuel : Nat) (stack : List Bool) (r : Reader σ), r.source = s →
      (skipLoop (fuel + n) stack).run r = (skipRest false fuel stack).run { r with source := s' }
  | .scalar (t := t) h ha ho, fuel, stack, r, hr => by
    rw [skipLoop_succ, EStateM.run_bind, run_lift, hr, h]
    cases t <;> first | rfl | contradiction
  | .array (n := n) h hrest, fuel, stack, r, hr => by
    rw [show fuel + (n + 1) = (fuel + n) + 1 by omega, skipLoop_succ, EStateM.run_bind, run_lift,
      hr, h]
    exact skipRest_of_skipsRest hrest fuel stack _ rfl
  | .object (n := n) h hrest, fuel, stack, r, hr => by
    rw [show fuel + (n + 1) = (fuel + n) + 1 by omega, skipLoop_succ, EStateM.run_bind, run_lift,
      hr, h]
    exact skipRest_of_skipsRest hrest fuel stack _ rfl

/-- The rest of a container costs the skipping loop one unit of fuel per pull. -/
theorem skipRest_of_skipsRest {inArray first : Bool} {n : Nat} {s s' : σ} :
    SkipsRest inArray first n s s' → ∀ (fuel : Nat) (stack : List Bool) (r : Reader σ),
      r.source = s → (skipRest first (fuel + n) (inArray :: stack)).run r =
        (skipRest false fuel stack).run { r with source := s' }
  | .done h, fuel, stack, r, hr => by
    rw [skipRest_eq, stepOut_cons, bind_assoc, EStateM.run_bind, containerNext_eq_lift, run_lift,
      hr, h]
    rfl
  | .more (m := m) (n := n) h hskip hrest, fuel, stack, r, hr => by
    rw [skipRest_eq, stepOut_cons, bind_assoc, EStateM.run_bind, containerNext_eq_lift, run_lift,
      hr, h]
    simp only [if_true, pure_bind, List.isEmpty_cons, Bool.false_eq_true, if_false]
    rw [show fuel + (m + n) = (fuel + n) + m by omega,
      skipLoop_of_skips hskip (fuel + n) (inArray :: stack) _ rfl]
    exact skipRest_of_skipsRest hrest fuel stack _ rfl
end

/-- `SkipsOut first stack s s'`: from `s`, right after a value, the source closes the containers of
`stack` in turn, innermost first and stepped with `first`, and stands at `s'`. -/
def SkipsOut : Bool → List Bool → σ → σ → Prop
  | _, [], s, s' => s' = s
  | first, inArray :: stack, s, s' =>
    ∃ n s₁, SkipsRest inArray first n s s₁ ∧ SkipsOut false stack s₁ s'

/-- Stepping out after a value succeeds only by closing the containers, given that the skipping
loop, with the fuel left, succeeds only by skipping a value and closing its containers. -/
theorem skipRest_closes {fuel : Nat}
    (hloop : ∀ (stack : List Bool) (r r' : Reader σ), (skipLoop fuel stack).run r = .ok () r' →
      r'.awaiting = r.awaiting ∧ ∃ n s₁, Skips n r.source s₁ ∧ SkipsOut false stack s₁ r'.source)
    (stack : List Bool) :
    ∀ (first : Bool) (r r' : Reader σ), (skipRest first fuel stack).run r = .ok () r' →
      r'.awaiting = r.awaiting ∧ SkipsOut first stack r.source r'.source := by
  induction stack with
  | nil =>
    intro first r r' h
    simp only [skipRest_eq, stepOut, pure_bind, List.isEmpty_nil, if_true, EStateM.run_pure,
      EStateM.Result.ok.injEq, true_and] at h
    subst h
    exact ⟨rfl, rfl⟩
  | cons inArray stack ih =>
    intro first r r' h
    rw [skipRest_eq, stepOut_cons, bind_assoc, EStateM.run_bind, containerNext_eq_lift,
      run_lift] at h
    cases hc : (containerStep inArray first).run r.source with
    | error e s₁ => simp [hc] at h
    | ok more s₁ =>
      rw [hc] at h
      cases more with
      | false =>
        -- the container ends: close the ones around it
        obtain ⟨hr, hcl⟩ := ih false _ _ h
        exact ⟨hr, 0, s₁, .done hc, hcl⟩
      | true =>
        -- the container goes on: the loop skips its next value, and it is still open after it
        simp only [if_true, pure_bind, List.isEmpty_cons, Bool.false_eq_true, if_false] at h
        obtain ⟨hr, m, s₂, hskip, n, s₃, hrest, hcl⟩ := hloop _ _ _ h
        exact ⟨hr, m + n, s₃, .more hc hskip hrest, hcl⟩

/-- The skipping loop succeeds only by skipping one value and then closing the containers of
its stack. -/
theorem skipLoop_skips (fuel : Nat) :
    ∀ (stack : List Bool) (r r' : Reader σ), (skipLoop fuel stack).run r = .ok () r' →
      r'.awaiting = r.awaiting ∧ ∃ n s₁, Skips n r.source s₁ ∧ SkipsOut false stack s₁ r'.source := by
  induction fuel with
  | zero =>
    intro stack r r' h
    simp [skipLoop, exhausted] at h
  | succ fuel ih =>
    intro stack r r' h
    rw [skipLoop_succ, EStateM.run_bind, run_lift] at h
    cases hn : (Source.nextValue none true).run r.source with
    | error e s₁ => simp [hn] at h
    | ok t s₁ =>
      rw [hn] at h
      -- a container's start opens one more level of the stack; any other token is a whole value
      cases t
      case arrayStart =>
        obtain ⟨hr, n, s₂, hrest, hcl⟩ := skipRest_closes ih _ true _ _ h
        exact ⟨hr, n + 1, s₂, .array hn hrest, hcl⟩
      case objectStart =>
        obtain ⟨hr, n, s₂, hrest, hcl⟩ := skipRest_closes ih _ true _ _ h
        exact ⟨hr, n + 1, s₂, .object hn hrest, hcl⟩
      all_goals
        obtain ⟨hr, hcl⟩ := skipRest_closes ih _ false _ _ h
        exact ⟨hr, 1, s₁, .scalar hn (by simp) (by simp), hcl⟩

/-- Skipping succeeds only where the source yields one whole value. -/
theorem skips_of_skipValue {r r' : Reader σ} (h : (skipValue : ReadM σ Unit).run r = .ok () r') :
    r'.awaiting = false ∧ ∃ n, Skips n r.source r'.source := by
  simp only [skipValue, EStateM.run_bind, run_beginRead, run_get] at h
  obtain ⟨hr, n, s₁, hskip, hcl⟩ := skipLoop_skips _ [] _ _ h
  exact ⟨hr, n, hcl ▸ hskip⟩

/-- Where the source yields one whole value within its budget, skipping takes exactly it. -/
theorem skipValue_of_skips {r : Reader σ} {n : Nat} {s' : σ} (h : Skips n r.source s')
    (hn : n ≤ Source.budget r.source) :
    (skipValue : ReadM σ Unit).run r = .ok () ⟨s', false⟩ := by
  simp only [skipValue, EStateM.run_bind, run_beginRead, run_get]
  rw [show Source.budget r.source + 1 = (Source.budget r.source + 1 - n) + n by omega,
    skipLoop_of_skips h _ [] { r with awaiting := false } rfl]
  rfl

/-! ### Budgets -/

/-- A source keeps to its budget on the states `good`, which its steps keep: a value pulled
costs at least one unit, and stepping a container costs nothing. -/
structure KeepsBudget (good : σ → Prop) : Prop where
  nextValue {s s' : σ} {t : Token} : good s → (Source.nextValue none true).run s = .ok t s' →
    good s' ∧ Source.budget s' < Source.budget s
  containerStep {s s' : σ} {inArray first more : Bool} : good s →
    (containerStep inArray first).run s = .ok more s' → good s' ∧ Source.budget s' ≤ Source.budget s

mutual
/-- A value yielded in `n` pulls costs at least `n` units of the budget. -/
theorem Skips.budget_le {good : σ → Prop} (hb : KeepsBudget good) {n : Nat} {s s' : σ} :
    Skips n s s' → good s → good s' ∧ n + Source.budget s' ≤ Source.budget s
  | .scalar h _ _, hs => by
    obtain ⟨hs', hlt⟩ := hb.nextValue hs h
    exact ⟨hs', by omega⟩
  | .array h hrest, hs => by
    obtain ⟨hs₁, hlt⟩ := hb.nextValue hs h
    obtain ⟨hs', hle⟩ := SkipsRest.budget_le hb hrest hs₁
    exact ⟨hs', by omega⟩
  | .object h hrest, hs => by
    obtain ⟨hs₁, hlt⟩ := hb.nextValue hs h
    obtain ⟨hs', hle⟩ := SkipsRest.budget_le hb hrest hs₁
    exact ⟨hs', by omega⟩

/-- The rest of a container yielded in `n` pulls costs at least `n` units of the budget. -/
theorem SkipsRest.budget_le {good : σ → Prop} (hb : KeepsBudget good) {inArray first : Bool}
    {n : Nat} {s s' : σ} : SkipsRest inArray first n s s' → good s →
      good s' ∧ n + Source.budget s' ≤ Source.budget s
  | .done h, hs => by
    obtain ⟨hs', hle⟩ := hb.containerStep hs h
    exact ⟨hs', by omega⟩
  | .more h hskip hrest, hs => by
    obtain ⟨hs₁, hle₁⟩ := hb.containerStep hs h
    obtain ⟨hs₂, hle₂⟩ := Skips.budget_le hb hskip hs₁
    obtain ⟨hs', hle⟩ := SkipsRest.budget_le hb hrest hs₂
    exact ⟨hs', by omega⟩
end

/-- On a source within its budget, skipping succeeds exactly where the source yields one whole
value, and stands after it. -/
theorem skipValue_eq_ok_iff {good : σ → Prop} (hb : KeepsBudget good) {r r' : Reader σ}
    (hr : good r.source) :
    (skipValue : ReadM σ Unit).run r = .ok () r' ↔
      r'.awaiting = false ∧ ∃ n, Skips n r.source r'.source := by
  constructor
  · exact skips_of_skipValue
  · rintro ⟨hw, n, hskip⟩
    rw [skipValue_of_skips hskip (by have := (hskip.budget_le hb hr).2; omega)]
    cases r'
    simp_all

/-! ### Cursors with nothing left unread -/

/-- Stepping an array with no value left unread steps the source's array. -/
theorem advanceArray_run_eq {first : Bool} {r : Reader σ} (hw : (!first && r.awaiting) = false) :
    (advanceArray first).run r =
      match (Source.arrayNext first).run r.source with
      | .ok more s => .ok more ⟨s, more⟩
      | .error e s => .error e ⟨s, r.awaiting⟩ := by
  simp only [advanceArray, EStateM.run_bind, run_get, hw, Bool.false_eq_true, if_false,
    EStateM.run_pure, run_lift]
  cases (Source.arrayNext first).run r.source <;> rfl

/-- Stepping an object with no value left unread steps the source's object. -/
theorem advanceObject_run_eq {first : Bool} {r : Reader σ} (hw : (!first && r.awaiting) = false) :
    (advanceObject first).run r =
      match (Source.objectNext first).run r.source with
      | .ok name s => .ok name ⟨s, name.isSome⟩
      | .error e s => .error e ⟨s, r.awaiting⟩ := by
  simp only [advanceObject, EStateM.run_bind, run_get, hw, Bool.false_eq_true, if_false,
    EStateM.run_pure, run_lift]
  cases (Source.objectNext first).run r.source <;> rfl

/-- A cursor over an array that is not done, with no element left unread, steps the source's
array. -/
theorem arrayCursor_next_run_eq {c : ArrayCursor} {r : Reader σ} (hd : c.done = false)
    (hw : (c.started && r.awaiting) = false) :
    (c.next).run r =
      match (Source.arrayNext !c.started).run r.source with
      | .ok more s => .ok (more, { c with started := true, done := !more }) ⟨s, more⟩
      | .error e s => .error e ⟨s, r.awaiting⟩ := by
  simp only [ArrayCursor.next, hd, Bool.false_eq_true, if_false, EStateM.run_bind,
    advanceArray_run_eq (show (!!c.started && r.awaiting) = false by simpa using hw)]
  cases (Source.arrayNext !c.started).run r.source <;> rfl

/-- A cursor over an object with no required names steps the source's object, and its names
stay free of requirements. -/
theorem objectCursor_next_run_eq {c : ObjectCursor} {r : Reader σ} (hd : c.done = false)
    (hreq : c.required = []) (hw : (c.started && r.awaiting) = false) :
    (c.next).run r =
      match (Source.objectNext !c.started).run r.source with
      | .ok (some name) s => .ok (true, { c with started := true, name }) ⟨s, true⟩
      | .ok none s =>
        .ok (false, { c with started := true, done := true, name := ⟨"", true⟩ }) ⟨s, false⟩
      | .error e s => .error e ⟨s, r.awaiting⟩ := by
  simp only [ObjectCursor.next, hd, Bool.false_eq_true, if_false, EStateM.run_bind,
    advanceObject_run_eq (show (!!c.started && r.awaiting) = false by simpa using hw)]
  rcases (Source.objectNext !c.started).run r.source with (_ | name) | ⟨e, s⟩
  · simp [hreq]
  · simp [hreq, markSeen]
  · rfl

/-! ### Typed reads -/

/-- What typed reads need of a source to consume what skipping consumes: a value pulled by kind
is pulled as skipping pulls it, to the same state and with a container's start as it is, and a
look at the next value changes nothing the next pull sees. -/
structure PullsByKind (σ : Type) [Source σ] : Prop where
  nextValue {s s' : σ} {t : Token} {k : Kind} {allowNull : Bool} :
    (Source.nextValue (some k) allowNull).run s = .ok t s' →
      ∃ t', (Source.nextValue none true).run s = .ok t' s' ∧
        (t' = .arrayStart ↔ t = .arrayStart) ∧ (t' = .objectStart ↔ t = .objectStart)
  peekKind {s s' : σ} {k : Kind} : (Source.peekKind).run s = .ok k s' →
    (Source.nextValue none true).run s' = (Source.nextValue none true).run s

/-- A value yielded after a look ahead is yielded without it. -/
theorem Skips.of_nextValue_eq {n : Nat} {s s₁ s' : σ}
    (h : (Source.nextValue none true).run s₁ = (Source.nextValue none true).run s) :
    Skips n s₁ s' → Skips n s s'
  | .scalar hn ha ho => .scalar (h ▸ hn) ha ho
  | .array hn hrest => .array (h ▸ hn) hrest
  | .object hn hrest => .object (h ▸ hn) hrest

/-- A value taken by kind is the source's next value of that kind, and nothing is left unread after
it. -/
theorem take_run_eq_ok {k : Kind} {allowNull : Bool} {r r' : Reader σ} {t : Token}
    (h : (take k allowNull).run r = .ok t r') :
    (Source.nextValue (some k) allowNull).run r.source = .ok t r'.source ∧ r'.awaiting = false := by
  simp only [take, EStateM.run_bind, run_beginRead, run_lift] at h
  split at h
  · next t' s' hn =>
    simp only [EStateM.Result.ok.injEq] at h
    obtain ⟨rfl, rfl⟩ := h
    exact ⟨hn, rfl⟩
  · simp at h

/-- Reading the elements of an array, each by a read that consumes what skipping consumes,
consumes the rest of the array as skipping does. -/
theorem listLoop_skips {α : Type} {item : ReadM σ α}
    (hitem : ∀ {r r' : Reader σ} {a : α}, item.run r = .ok a r' →
      r'.awaiting = false ∧ ∃ n, Skips n r.source r'.source) (fuel : Nat) :
    ∀ (c : ArrayCursor) (acc : Array α) (r r' : Reader σ) (as : List α), c.done = false →
      (c.started && r.awaiting) = false → (listLoop item fuel c acc).run r = .ok as r' →
      r'.awaiting = false ∧ ∃ n, SkipsRest true (!c.started) n r.source r'.source := by
  induction fuel with
  | zero =>
    intro c acc r r' as _ _ h
    simp [listLoop, exhausted] at h
  | succ fuel ih =>
    intro c acc r r' as hd hw h
    rw [listLoop, EStateM.run_bind, arrayCursor_next_run_eq hd hw] at h
    cases hn : (Source.arrayNext !c.started).run r.source with
    | error e s₁ => simp [hn] at h
    | ok more s₁ =>
      rw [hn] at h
      have hstep : (containerStep true !c.started).run r.source = .ok more s₁ := hn
      cases more with
      | false =>
        -- the array ends
        simp only [Bool.false_eq_true, if_false, EStateM.run_pure, EStateM.Result.ok.injEq] at h
        obtain ⟨-, rfl⟩ := h
        exact ⟨rfl, 0, .done hstep⟩
      | true =>
        -- an element: read it, then the rest of the array
        obtain ⟨a, r₂, hread, hloop⟩ := EStateM.run_bind_eq_ok.1 h
        obtain ⟨hw₂, m, hskip⟩ := hitem hread
        obtain ⟨hw', n, hrest⟩ := ih _ _ r₂ r' as rfl (by simp [hw₂]) hloop
        exact ⟨hw', m + n, .more hstep hskip hrest⟩

/-- Reading the members of an object, each value by a read that consumes what skipping
consumes, consumes the rest of the object as skipping does. -/
theorem mapLoop_skips {α : Type} {item : ReadM σ α}
    (hitem : ∀ {r r' : Reader σ} {a : α}, item.run r = .ok a r' →
      r'.awaiting = false ∧ ∃ n, Skips n r.source r'.source) (fuel : Nat) :
    ∀ (c : ObjectCursor) (acc : List (String × α)) (r r' : Reader σ) (as : List (String × α)),
      c.done = false → c.required = [] → (c.started && r.awaiting) = false →
      (mapLoop item fuel c acc).run r = .ok as r' →
      r'.awaiting = false ∧ ∃ n, SkipsRest false (!c.started) n r.source r'.source := by
  induction fuel with
  | zero =>
    intro c acc r r' as _ _ _ h
    simp [mapLoop, exhausted] at h
  | succ fuel ih =>
    intro c acc r r' as hd hreq hw h
    rw [mapLoop, EStateM.run_bind, objectCursor_next_run_eq hd hreq hw] at h
    cases hn : (Source.objectNext !c.started).run r.source with
    | error e s₁ => simp [hn] at h
    | ok name s₁ =>
      rw [hn] at h
      have hstep : (containerStep false !c.started).run r.source = .ok name.isSome s₁ := by
        simp [containerStep, EStateM.run_map, hn]
      cases name with
      | none =>
        -- the object ends
        simp only [Bool.false_eq_true, if_false, EStateM.run_pure, EStateM.Result.ok.injEq] at h
        obtain ⟨-, rfl⟩ := h
        exact ⟨rfl, 0, .done hstep⟩
      | some name =>
        -- a member: read its value, then the rest of the object
        obtain ⟨a, r₂, hread, hloop⟩ := EStateM.run_bind_eq_ok.1 h
        obtain ⟨hw₂, m, hskip⟩ := hitem hread
        obtain ⟨hw', n, hrest⟩ := ih { c with started := true, name } _ r₂ r' as hd hreq
          (by simp [hw₂]) hloop
        exact ⟨hw', m + n, .more hstep hskip hrest⟩

section Typed

variable (hp : PullsByKind σ)
include hp

/-- A read by kind that takes a scalar and returns without a further step is one pull. -/
theorem scalar_skips {α : Type} {k : Kind} {allowNull : Bool} {f : Token → ReadM σ α}
    (hf : ∀ t r₁ a r₂, (f t).run r₁ = .ok a r₂ → r₂ = r₁ ∧ t ≠ .arrayStart ∧ t ≠ .objectStart)
    {r r' : Reader σ} {a : α} (h : (take k allowNull >>= f).run r = .ok a r') :
    r'.awaiting = false ∧ Skips 1 r.source r'.source := by
  obtain ⟨t, r₁, ht, hrest⟩ := EStateM.run_bind_eq_ok.1 h
  obtain ⟨rfl, ha, ho⟩ := hf t r₁ a r' hrest
  obtain ⟨hn, hw⟩ := take_run_eq_ok ht
  obtain ⟨t', hn', hta, hto⟩ := hp.nextValue hn
  exact ⟨hw, .scalar hn' (fun h => ha (hta.1 h)) (fun h => ho (hto.1 h))⟩

omit hp in
/-- A mismatch fails where the reader stands and changes nothing. -/
@[simp] theorem mismatch_run {α : Type} (k : Kind) (t : Token) (r : Reader σ) :
    (mismatch k t : ReadM σ α).run r = .error (.mismatch k t.kind (offset r)) r := rfl

/-- Reading a null is one pull. -/
theorem null_skips {r r' : Reader σ} (h : (null : ReadM σ Unit).run r = .ok () r') :
    r'.awaiting = false ∧ Skips 1 r.source r'.source :=
  scalar_skips hp (fun t r₁ a r₂ ht => by
    cases t <;> simp_all) h

/-- Reading a boolean is one pull. -/
theorem bool_skips {r r' : Reader σ} {b : Bool} (h : (bool : ReadM σ Bool).run r = .ok b r') :
    r'.awaiting = false ∧ Skips 1 r.source r'.source :=
  scalar_skips hp (fun t r₁ a r₂ ht => by
    cases t <;> simp_all) h

/-- Reading a number is one pull. -/
theorem double_skips {r r' : Reader σ} {x : Double}
    (h : (double : ReadM σ Double).run r = .ok x r') :
    r'.awaiting = false ∧ Skips 1 r.source r'.source :=
  scalar_skips hp (fun t r₁ a r₂ ht => by
    cases t <;> simp_all) h

/-- Reading a string is one pull. -/
theorem string_skips {r r' : Reader σ} {s : Text} (h : (string : ReadM σ Text).run r = .ok s r') :
    r'.awaiting = false ∧ Skips 1 r.source r'.source :=
  scalar_skips hp (fun t r₁ a r₂ ht => by
    cases t <;> simp_all) h

/-- Opening an array pulls its start as skipping does. -/
theorem array_skips {r r' : Reader σ} {c : ArrayCursor}
    (h : (array : ReadM σ ArrayCursor).run r = .ok c r') :
    c = .ofDefined true ∧ r'.awaiting = false ∧
      (Source.nextValue none true).run r.source = .ok .arrayStart r'.source := by
  obtain ⟨t, r₁, ht, hrest⟩ := EStateM.run_bind_eq_ok.1 h
  obtain ⟨hn, hw⟩ := take_run_eq_ok ht
  cases t <;> simp at hrest
  obtain ⟨rfl, rfl⟩ := hrest
  obtain ⟨t', hn', hta, -⟩ := hp.nextValue hn
  exact ⟨rfl, hw, hta.2 rfl ▸ hn'⟩

/-- Opening an object pulls its start as skipping does. -/
theorem object_skips {r r' : Reader σ} {c : ObjectCursor}
    (h : (object : ReadM σ ObjectCursor).run r = .ok c r') :
    c = .ofDefined true ∧ r'.awaiting = false ∧
      (Source.nextValue none true).run r.source = .ok .objectStart r'.source := by
  obtain ⟨t, r₁, ht, hrest⟩ := EStateM.run_bind_eq_ok.1 h
  obtain ⟨hn, hw⟩ := take_run_eq_ok ht
  cases t <;> simp at hrest
  obtain ⟨rfl, rfl⟩ := hrest
  obtain ⟨t', hn', -, hto⟩ := hp.nextValue hn
  exact ⟨rfl, hw, hto.2 rfl ▸ hn'⟩

end Typed

end JsonCodec.Reader

namespace JsonCodec

open Reader

variable {σ : Type} [Source σ]

/-- Skipping fails where reading a value whole fails, and succeeds where it succeeds, in the same
state. -/
theorem skipValue_run_eq (r : Reader σ) :
    (skipValue : ReadM σ Unit).run r = ((Reader.value : ReadM σ Value).run r).map fun _ => () := by
  rw [← value_map_eq_skipValue, EStateM.run_map]

/-- Every typed read that succeeds consumes one whole value, as skipping does, and leaves nothing
unread. -/
theorem Schema.read_skips (hp : PullsByKind σ) : ∀ (sch : Schema) {r r' : Reader σ}
    {v : sch.Carrier}, (sch.read).run r = .ok v r' →
      r'.awaiting = false ∧ ∃ n, Skips n r.source r'.source
  | .bool, r, r', v, h => have h' := bool_skips hp h; ⟨h'.1, 1, h'.2⟩
  | .int32, r, r', v, h => by
    obtain ⟨x, hx⟩ := EStateM.run_map_pure_eq_ok h
    exact ⟨(double_skips hp hx).1, 1, (double_skips hp hx).2⟩
  | .int64, r, r', v, h => by
    obtain ⟨x, hx⟩ := EStateM.run_map_pure_eq_ok h
    exact ⟨(double_skips hp hx).1, 1, (double_skips hp hx).2⟩
  | .uint32, r, r', v, h => by
    obtain ⟨x, hx⟩ := EStateM.run_map_pure_eq_ok h
    exact ⟨(double_skips hp hx).1, 1, (double_skips hp hx).2⟩
  | .float, r, r', v, h => have h' := double_skips hp h; ⟨h'.1, 1, h'.2⟩
  | .string, r, r', v, h => by
    obtain ⟨x, hx⟩ := EStateM.run_map_pure_eq_ok h
    exact ⟨(string_skips hp hx).1, 1, (string_skips hp hx).2⟩
  | .text, r, r', v, h => have h' := string_skips hp h; ⟨h'.1, 1, h'.2⟩
  | .value, r, r', v, h => by
    change (Reader.value : ReadM σ Value).run r = .ok v r' at h
    have hskip : (skipValue : ReadM σ Unit).run r = .ok () r' := by
      rw [← value_map_eq_skipValue, EStateM.run_map]
      rw [h]
      rfl
    exact skips_of_skipValue hskip
  | .option s, r, r', v, h => by
    obtain ⟨k, r₁, hk, h⟩ := EStateM.run_bind_eq_ok.1 h
    simp only [Reader.peekKind, run_lift] at hk
    split at hk
    · next k' s₁ hpeek =>
      simp only [EStateM.Result.ok.injEq] at hk
      obtain ⟨rfl, rfl⟩ := hk
      -- the look ahead changes nothing the value's first pull sees
      have hsame := hp.peekKind hpeek
      by_cases hnull : k' = .null
      · simp only [hnull] at h
        obtain ⟨u, hread⟩ := EStateM.run_map_pure_eq_ok h
        obtain ⟨hw, hskip⟩ := null_skips hp hread
        exact ⟨hw, 1, hskip.of_nextValue_eq hsame⟩
      · simp only [hnull] at h
        obtain ⟨x, hx⟩ := EStateM.run_map_pure_eq_ok h
        obtain ⟨hw, n, hskip⟩ := Schema.read_skips hp s hx
        exact ⟨hw, n, hskip.of_nextValue_eq hsame⟩
    · simp at hk
  | .list s, r, r', v, h => by
    obtain ⟨c, r₁, hc, h⟩ := EStateM.run_bind_eq_ok.1 h
    obtain ⟨rfl, hw₁, hstart⟩ := array_skips hp hc
    replace h : (listLoop s.read (Source.budget r₁.source + 1) (.ofDefined true) #[] :
      ReadM σ (List s.Carrier)).run r₁ = .ok v r' := h
    obtain ⟨hw, n, hrest⟩ := listLoop_skips (Schema.read_skips hp s) _ _ _ r₁ r' v rfl
      (by simp [ArrayCursor.ofDefined]) h
    exact ⟨hw, n + 1, .array hstart hrest⟩
  | .map s, r, r', v, h => by
    obtain ⟨c, r₁, hc, h⟩ := EStateM.run_bind_eq_ok.1 h
    obtain ⟨rfl, hw₁, hstart⟩ := object_skips hp hc
    replace h : (mapLoop s.read (Source.budget r₁.source + 1) (.ofDefined true) [] :
      ReadM σ (List (String × s.Carrier))).run r₁ = .ok v r' := h
    obtain ⟨hw, n, hrest⟩ := mapLoop_skips (Schema.read_skips hp s) _ _ _ r₁ r' v rfl rfl
      (by simp [ObjectCursor.ofDefined]) h
    exact ⟨hw, n + 1, .object hstart hrest⟩

/-- On a source that pulls by kind as it skips and keeps to its budget, a typed read that
succeeds leaves the reader exactly where skipping leaves it. -/
theorem Schema.read_consumes_as_skipValue (hp : PullsByKind σ) {good : σ → Prop}
    (hb : KeepsBudget good) (sch : Schema) {r r' : Reader σ} {v : sch.Carrier}
    (hg : good r.source) (h : (sch.read).run r = .ok v r') :
    (skipValue : ReadM σ Unit).run r = .ok () r' := by
  obtain ⟨hw, n, hskip⟩ := Schema.read_skips hp sch h
  rw [skipValue_of_skips hskip (by have := (hskip.budget_le hb hg).2; omega)]
  cases r'
  simp_all

end JsonCodec
