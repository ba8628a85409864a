import JsonCodec.Proofs.Reader.Walk

/-! # Client plans and the cursor contract

A client of the reader decides, at each value it stands on, what to do with it: look at its
kind any number of times, then leave it unread (an element only), consume it with a read that
fits its kind, or open it as a container and treat each of its values the same way until the
cursor reports the end. Run on a fixed document such a client makes one such choice per node,
so a `Plan`, a tree of choices, stands for every client: `Plan.run` executes it and records
what each call returned as a list of `Event`s.

`Plan.fits` says that the plan's choices fit the value: reads ask for the value's own kind (or
take a null where a null is allowed), and every container gets one plan per element.
`Plan.expect` is what the run must record, computed from the plan and the value alone.

`Plan.run_fits` is the cursor contract: over any source that follows walks, a fitting plan runs
without failure and records exactly `Plan.expect`. Every cursor step answers true once per
element, in order, object cursors name each member as it comes, every read returns the value
it stands on, and the walk ends after the value, skipped values included.
-/

namespace JsonCodec

/-- What a client call returned. -/
inductive Event where
  /-- `peekKind` saw a value of this kind. -/
  | peeked (k : Kind)
  /-- A cursor step: whether a value follows. -/
  | stepped (more : Bool)
  /-- The name an object cursor holds after a step to a member. -/
  | named (key : String)
  /-- A read that returns nothing: `null` or `skipValue`. -/
  | unit
  | bool (b : Option Bool)
  | int32 (i : Option Int32)
  | int64 (i : Option Int64)
  | number (x : Option Double)
  | text (s : Option String)
  /-- `any` on a scalar, with the provenance of a string forgotten. -/
  | token (t : Token)
  /-- A value read whole. -/
  | value (v : Value)
  /-- A container was opened; `false` when it was read as a null. -/
  | opened (defined : Bool)
deriving Inhabited

/-- The scalar reads of the reader. -/
inductive ScalarRead where
  | null
  | bool
  | boolOrNull
  | int
  | intOrNull
  | long
  | longOrNull
  | double
  | doubleOrNull
  | string
  | stringOrNull
deriving DecidableEq

namespace ScalarRead

/-- The kind a read asks for. -/
def kind : ScalarRead → Kind
  | .null => .null
  | .bool | .boolOrNull => .bool
  | .int | .intOrNull | .long | .longOrNull | .double | .doubleOrNull => .number
  | .string | .stringOrNull => .string

/-- Whether a read also takes a null. -/
def nullable : ScalarRead → Bool
  | .boolOrNull | .intOrNull | .longOrNull | .doubleOrNull | .stringOrNull => true
  | _ => false

/-- Performs the read and records what it returned. -/
def run {σ : Type} [Source σ] : ScalarRead → ReadM σ Event
  | .null => do Reader.null; return .unit
  | .bool => return .bool (some (← Reader.bool))
  | .boolOrNull => return .bool (← Reader.boolOrNull)
  | .int => return .int32 (some (← Reader.int))
  | .intOrNull => return .int32 (← Reader.intOrNull)
  | .long => return .int64 (some (← Reader.long))
  | .longOrNull => return .int64 (← Reader.longOrNull)
  | .double => return .number (some (← Reader.double))
  | .doubleOrNull => return .number (← Reader.doubleOrNull)
  | .string => return .text (some (← Reader.string).str)
  | .stringOrNull => return .text ((← Reader.stringOrNull).map Text.str)

/-- What a read returns on a value of a kind it takes. -/
def expect : ScalarRead → Value → Event
  | .null, _ => .unit
  | .bool, .bool b | .boolOrNull, .bool b => .bool (some b)
  | .int, .number x | .intOrNull, .number x => .int32 (some x.toInt32)
  | .long, .number x | .longOrNull, .number x => .int64 (some x.toInt64)
  | .double, .number x | .doubleOrNull, .number x => .number (some x)
  | .string, .string s | .stringOrNull, .string s => .text (some s)
  | .boolOrNull, _ => .bool none
  | .intOrNull, _ => .int32 none
  | .longOrNull, _ => .int64 none
  | .doubleOrNull, _ => .number none
  | .stringOrNull, _ => .text none
  | _, _ => .unit

end ScalarRead

/-- How a client opens a container: `array`/`object`, their `…OrNull` forms, or `any`. -/
inductive Opener where
  | plain
  | orNull
  | any
deriving DecidableEq

/-- A client's choices at a value and, for a container, at each of its values. -/
inductive Plan where
  /-- Look at the kind, then go on. -/
  | peek (next : Plan)
  /-- Leave an element unread, for the next cursor step to skip. -/
  | leave
  /-- A scalar read. -/
  | read (r : ScalarRead)
  /-- `any` on a scalar. -/
  | anyScalar
  /-- `skipValue`. -/
  | skip
  /-- Read the value whole. -/
  | value
  /-- Open an array and follow one plan per element. -/
  | array (opener : Opener) (items : List Plan)
  /-- Open an object and follow one plan per member. -/
  | object (opener : Opener) (members : List Plan)

namespace Opener

variable {σ : Type} [Source σ]

/-- Opens an array: a cursor over it, or a done cursor for a null. -/
def openArray : Opener → ReadM σ ArrayCursor
  | .plain => Reader.array
  | .orNull => Reader.arrayOrNull
  | .any => do
    match ← Reader.any with
    | .arrayStart => return .ofDefined true
    | _ => return .ofDefined false

/-- Opens an object: a cursor over it, or a done cursor for a null. -/
def openObject : Opener → ReadM σ ObjectCursor
  | .plain => Reader.object
  | .orNull => Reader.objectOrNull
  | .any => do
    match ← Reader.any with
    | .objectStart => return .ofDefined true
    | _ => return .ofDefined false

end Opener

namespace Plan

variable {σ : Type} [Source σ]

mutual
/-- Executes a plan at the value the reader stands on. -/
def run : Plan → ReadM σ (List Event)
  | .peek p => do
    let k ← Reader.peekKind
    return .peeked k :: (← p.run)
  | .leave => return []
  | .read r => return [← r.run]
  | .anyScalar => return [.token (← Reader.any).erase]
  | .skip => do Reader.skipValue; return [.unit]
  | .value => return [.value (← Reader.value)]
  | .array o items => do
    let c ← o.openArray
    return .opened c.defined :: (← runItems c items)
  | .object o members => do
    let c ← o.openObject
    return .opened c.defined :: (← runMembers c members)

/-- Steps an array cursor and follows the next plan at each element; one more step once the
plans are used up. -/
def runItems (c : ArrayCursor) : List Plan → ReadM σ (List Event)
  | [] => do
    let (more, _) ← c.next
    return [.stepped more]
  | p :: ps => do
    let (more, c) ← c.next
    if more then
      let evs ← p.run
      return .stepped true :: evs ++ (← runItems c ps)
    else return [.stepped false]

/-- Steps an object cursor and follows the next plan at each member. -/
def runMembers (c : ObjectCursor) : List Plan → ReadM σ (List Event)
  | [] => do
    let (more, _) ← c.next
    return [.stepped more]
  | p :: ps => do
    let (more, c) ← c.next
    if more then
      let evs ← p.run
      return .stepped true :: .named c.name.str :: evs ++ (← runMembers c ps)
    else return [.stepped false]
end

/-- Whether a plan leaves its value unread. -/
def leaves : Plan → Bool
  | .peek p => p.leaves
  | .leave => true
  | _ => false

mutual
/-- Whether a plan fits a value: reads of the value's own kind, and one plan per element. -/
def fits : Plan → Value → Bool
  | .peek p, v => p.fits v
  | .leave, _ => true
  | .read r, v => v.kind.admits (some r.kind) r.nullable
  | .anyScalar, v => (TreeSource.nodeFrame v).isNone
  | .skip, _ => true
  | .value, _ => true
  | .array _ items, .array vs => fitsItems items vs
  | .array o items, .null => o == .orNull && items.isEmpty
  | .object _ ms, .object members => fitsMembers ms members
  | .object o ms, .null => o == .orNull && ms.isEmpty
  | _, _ => false

/-- One fitting plan per element. -/
def fitsItems : List Plan → List Value → Bool
  | [], [] => true
  | p :: ps, v :: vs => p.fits v && fitsItems ps vs
  | _, _ => false

/-- One fitting plan per member. -/
def fitsMembers : List Plan → List (String × Value) → Bool
  | [], [] => true
  | p :: ps, (_, v) :: ms => p.fits v && fitsMembers ps ms
  | _, _ => false
end

mutual
/-- What running a plan at a value it fits records. -/
def expect : Plan → Value → List Event
  | .peek p, v => .peeked v.kind :: p.expect v
  | .leave, _ => []
  | .read r, v => [r.expect v]
  | .anyScalar, v => [.token (TreeSource.nodeToken v)]
  | .skip, _ => [.unit]
  | .value, v => [.value v.canon]
  | .array _ items, .array vs => .opened true :: expectItems items vs
  | .array _ _, _ => [.opened false, .stepped false]
  | .object _ ms, .object members => .opened true :: expectMembers ms members
  | .object _ _, _ => [.opened false, .stepped false]

/-- Each element is stepped to and handled, then the cursor reports the end. -/
def expectItems : List Plan → List Value → List Event
  | p :: ps, v :: vs => .stepped true :: p.expect v ++ expectItems ps vs
  | _, _ => [.stepped false]

/-- Each member is stepped to, named and handled, then the cursor reports the end. -/
def expectMembers : List Plan → List (String × Value) → List Event
  | p :: ps, (k, v) :: ms => .stepped true :: .named k :: p.expect v ++ expectMembers ps ms
  | _, _ => [.stepped false]
end

end Plan

/-! ### Running a fitting plan -/

section Follows

variable {σ : Type} [Source σ] {R : σ → Walk → Prop} (hR : FollowsWalk R)
include hR

/-- A scalar read of a kind the value admits returns what `ScalarRead.expect` says and
consumes the value. -/
theorem ScalarRead.run_fits (sr : ScalarRead) {r : Reader σ} {w : Walk} {v : Value}
    (hr : R r.source w) (hc : w.current = some v)
    (hk : v.kind.admits (some sr.kind) sr.nullable) :
    ∃ s', (sr.run).run r = .ok (sr.expect v) ⟨s', false⟩ ∧ R s' w.skip := by
  obtain ⟨t, s', hrun, ht, hs⟩ := Reader.take_run hR hr hc hk
  -- only scalars pass the check, so taking the value consumes it
  have hv : TreeSource.nodeFrame v = none := by
    cases sr <;> cases v <;> simp_all [ScalarRead.kind, Kind.admits, Value.kind, TreeSource.nodeFrame]
  refine ⟨s', ?_, Walk.take_eq_skip hc hv ▸ hs⟩
  -- each read against each kind it admits, with the token the source gave for the value
  cases sr <;> simp only [ScalarRead.kind, ScalarRead.nullable] at hrun hk <;>
    cases v <;> simp [Kind.admits, Value.kind] at hk <;>
    cases t <;> simp [Token.erase, TreeSource.nodeToken] at ht <;>
    simp [ScalarRead.run, ScalarRead.expect, Reader.null, Reader.bool, Reader.boolOrNull,
      Reader.int, Reader.intOrNull, Reader.long, Reader.longOrNull, Reader.double,
      Reader.doubleOrNull, Reader.string, Reader.stringOrNull, hrun, ht]

/-- Opening an array enters it, whichever way it is opened. -/
theorem Opener.openArray_run (o : Opener) {r : Reader σ} {w : Walk} {vs : List Value}
    (hr : R r.source w) (hc : w.current = some (.array vs)) :
    ∃ s', (o.openArray).run r = .ok (.ofDefined true) ⟨s', false⟩ ∧ R s' w.take := by
  -- each opener takes the token of the array's start, which a source that follows the walk hands
  -- out as it is
  cases o with
  | any =>
    obtain ⟨t, s', hrun, ht, hs⟩ := Reader.any_run hR hr hc
    rw [Token.eq_of_erase_eq ht (by simp [Value.kind])] at hrun
    exact ⟨s', by simp [Opener.openArray, hrun, TreeSource.nodeToken], hs⟩
  | plain =>
    obtain ⟨t, s', hrun, ht, hs⟩ :=
      Reader.take_run hR hr hc (show Kind.array.admits (some .array) false from rfl)
    rw [Token.eq_of_erase_eq ht (by simp [Value.kind])] at hrun
    exact ⟨s', by simp [Opener.openArray, Reader.array, hrun, TreeSource.nodeToken], hs⟩
  | orNull =>
    obtain ⟨t, s', hrun, ht, hs⟩ :=
      Reader.take_run hR hr hc (show Kind.array.admits (some .array) true from rfl)
    rw [Token.eq_of_erase_eq ht (by simp [Value.kind])] at hrun
    exact ⟨s', by simp [Opener.openArray, Reader.arrayOrNull, hrun, TreeSource.nodeToken], hs⟩

/-- Opening an object enters it, whichever way it is opened. -/
theorem Opener.openObject_run (o : Opener) {r : Reader σ} {w : Walk}
    {members : List (String × Value)} (hr : R r.source w) (hc : w.current = some (.object members)) :
    ∃ s', (o.openObject).run r = .ok (.ofDefined true) ⟨s', false⟩ ∧ R s' w.take := by
  -- as for arrays, with the object's start
  cases o with
  | any =>
    obtain ⟨t, s', hrun, ht, hs⟩ := Reader.any_run hR hr hc
    rw [Token.eq_of_erase_eq ht (by simp [Value.kind])] at hrun
    exact ⟨s', by simp [Opener.openObject, hrun, TreeSource.nodeToken], hs⟩
  | plain =>
    obtain ⟨t, s', hrun, ht, hs⟩ :=
      Reader.take_run hR hr hc (show Kind.object.admits (some .object) false from rfl)
    rw [Token.eq_of_erase_eq ht (by simp [Value.kind])] at hrun
    exact ⟨s', by simp [Opener.openObject, Reader.object, hrun, TreeSource.nodeToken], hs⟩
  | orNull =>
    obtain ⟨t, s', hrun, ht, hs⟩ :=
      Reader.take_run hR hr hc (show Kind.object.admits (some .object) true from rfl)
    rw [Token.eq_of_erase_eq ht (by simp [Value.kind])] at hrun
    exact ⟨s', by simp [Opener.openObject, Reader.objectOrNull, hrun, TreeSource.nodeToken], hs⟩

/-- An array read as possibly null, on a null, is a cursor with nothing in it. -/
theorem Opener.openArray_null {r : Reader σ} {w : Walk} (hr : R r.source w)
    (hc : w.current = some .null) :
    ∃ s', (Opener.orNull.openArray).run r = .ok (.ofDefined false) ⟨s', false⟩ ∧ R s' w.skip := by
  obtain ⟨t, s', hrun, ht, hs⟩ :=
    Reader.take_run hR hr hc (show Kind.null.admits (some .array) true from rfl)
  rw [Token.eq_of_erase_eq ht (by simp [Value.kind])] at hrun
  rw [Walk.take_eq_skip hc rfl] at hs
  exact ⟨s', by simp [Opener.openArray, Reader.arrayOrNull, hrun, TreeSource.nodeToken], hs⟩

/-- An object read as possibly null, on a null, is a cursor with nothing in it. -/
theorem Opener.openObject_null {r : Reader σ} {w : Walk} (hr : R r.source w)
    (hc : w.current = some .null) :
    ∃ s', (Opener.orNull.openObject).run r = .ok (.ofDefined false) ⟨s', false⟩ ∧
      R s' w.skip := by
  obtain ⟨t, s', hrun, ht, hs⟩ :=
    Reader.take_run hR hr hc (show Kind.null.admits (some .object) true from rfl)
  rw [Token.eq_of_erase_eq ht (by simp [Value.kind])] at hrun
  rw [Walk.take_eq_skip hc rfl] at hs
  exact ⟨s', by simp [Opener.openObject, Reader.objectOrNull, hrun, TreeSource.nodeToken], hs⟩

mutual
/-- The cursor contract at one value: a fitting plan runs without failure, records what
`Plan.expect` says, and leaves the walk past the value, or on it when the plan leaves it. -/
theorem Plan.run_fits : (p : Plan) → ∀ (v : Value) (r : Reader σ) (w : Walk),
    p.fits v → R r.source w → w.current = some v →
    ∃ s', (p.run).run r = .ok (p.expect v) ⟨s', p.leaves && r.awaiting⟩ ∧
      R s' (if p.leaves then w else w.skip)
  | .peek p, v, r, w, hfit, hr, hc => by
    obtain ⟨s₁, hrun₁, hs₁⟩ := Reader.peekKind_run hR hr hc
    obtain ⟨s₂, hrun₂, hs₂⟩ := Plan.run_fits p v { r with source := s₁ } w hfit hs₁ hc
    exact ⟨s₂, by simp [Plan.run, hrun₁, hrun₂, Plan.expect, Plan.leaves], hs₂⟩
  | .leave, v, r, w, _, hr, _ =>
    ⟨r.source, by simp [Plan.run, Plan.expect, Plan.leaves], by simpa [Plan.leaves] using hr⟩
  | .read sr, v, r, w, hfit, hr, hc => by
    obtain ⟨s', hrun, hs⟩ := ScalarRead.run_fits hR sr hr hc hfit
    exact ⟨s', by simp [Plan.run, hrun, Plan.expect, Plan.leaves], hs⟩
  | .anyScalar, v, r, w, hfit, hr, hc => by
    obtain ⟨t, s', hrun, ht, hs⟩ := Reader.any_run hR hr hc
    rw [Walk.take_eq_skip hc (by simpa [Plan.fits] using hfit)] at hs
    exact ⟨s', by simp [Plan.run, hrun, ht, Plan.expect, Plan.leaves], hs⟩
  | .skip, v, r, w, _, hr, hc => by
    obtain ⟨s', hrun, hs⟩ := Reader.skipValue_run hR hr hc
    exact ⟨s', by simp [Plan.run, hrun, Plan.expect, Plan.leaves], hs⟩
  | .value, v, r, w, _, hr, hc => by
    obtain ⟨s', hrun, hs⟩ := Reader.value_run hR hr hc
    exact ⟨s', by simp [Plan.run, hrun, Plan.expect, Plan.leaves], hs⟩
  | .array o items, v, r, w, hfit, hr, hc => by
    cases v with
    | array vs =>
      obtain ⟨s₁, hrun₁, hs₁⟩ := o.openArray_run hR hr hc
      have hpos : Reader.StepsFrom ⟨s₁, false⟩ w.take (.array vs) w.frames
          !(ArrayCursor.ofDefined true).started :=
        Or.inl ⟨rfl, by simp [Walk.take, hc, ArrayCursor.ofDefined]⟩
      obtain ⟨s₂, hrun₂, hs₂⟩ :=
        Plan.runItems_fits items vs _ _ _ _ (by simpa [Plan.fits] using hfit) rfl hpos hs₁
      refine ⟨s₂, ?_, hs₂⟩
      simp [Plan.run, hrun₁, hrun₂, Plan.expect, Plan.leaves]
      rfl
    | null =>
      -- only a null read as a possibly null array, with no plans for elements
      simp only [Plan.fits, Bool.and_eq_true, beq_iff_eq, List.isEmpty_iff] at hfit
      obtain ⟨rfl, rfl⟩ := hfit
      obtain ⟨s₁, hrun₁, hs₁⟩ := Opener.openArray_null hR hr hc
      exact ⟨s₁, by simp [Plan.run, hrun₁, Plan.runItems, ArrayCursor.next,
        ArrayCursor.ofDefined, Plan.expect, Plan.leaves], hs₁⟩
    | _ => simp [Plan.fits] at hfit
  | .object o ms, v, r, w, hfit, hr, hc => by
    cases v with
    | object members =>
      obtain ⟨s₁, hrun₁, hs₁⟩ := o.openObject_run hR hr hc
      have hpos : Reader.StepsFrom ⟨s₁, false⟩ w.take (.object members) w.frames
          !(ObjectCursor.ofDefined true).started :=
        Or.inl ⟨rfl, by simp [Walk.take, hc, ObjectCursor.ofDefined]⟩
      obtain ⟨s₂, hrun₂, hs₂⟩ := Plan.runMembers_fits ms members _ _ _ _
        (by simpa [Plan.fits] using hfit) rfl rfl hpos hs₁
      refine ⟨s₂, ?_, hs₂⟩
      simp [Plan.run, hrun₁, hrun₂, Plan.expect, Plan.leaves]
      rfl
    | null =>
      simp only [Plan.fits, Bool.and_eq_true, beq_iff_eq, List.isEmpty_iff] at hfit
      obtain ⟨rfl, rfl⟩ := hfit
      obtain ⟨s₁, hrun₁, hs₁⟩ := Opener.openObject_null hR hr hc
      exact ⟨s₁, by simp [Plan.run, hrun₁, Plan.runMembers, ObjectCursor.next,
        ObjectCursor.ofDefined, Plan.expect, Plan.leaves], hs₁⟩
    | _ => simp [Plan.fits] at hfit

/-- The contract along an array: from where the cursor's next step starts, one fitting plan per
element leaves the walk past the array. -/
theorem Plan.runItems_fits : (ps : List Plan) → ∀ (vs : List Value) (c : ArrayCursor)
    (r : Reader σ) (w : Walk) (fs : List TreeFrame),
    Plan.fitsItems ps vs → c.done = false → Reader.StepsFrom r w (.array vs) fs !c.started →
    R r.source w →
    ∃ s', (Plan.runItems c ps).run r = .ok (Plan.expectItems ps vs) ⟨s', false⟩ ∧
      R s' ⟨none, fs, false⟩
  | [], [], c, r, w, fs, _, hd, hpos, hr => by
    obtain ⟨s', hrun, hs⟩ := Reader.arrayCursor_next_run hR hd hr hpos
    exact ⟨s', by simp [Plan.runItems, hrun, Plan.expectItems], hs⟩
  | p :: ps, v :: vs, c, r, w, fs, hfit, hd, hpos, hr => by
    simp only [Plan.fitsItems, Bool.and_eq_true] at hfit
    obtain ⟨s₁, hrun₁, hs₁⟩ := Reader.arrayCursor_next_run hR hd hr hpos
    simp only [List.isEmpty_cons, Bool.not_false] at hrun₁
    -- the plan runs at the element the cursor stepped to
    obtain ⟨s₂, hrun₂, hs₂⟩ := Plan.run_fits p v ⟨s₁, true⟩ _ hfit.1 hs₁ rfl
    obtain ⟨s₃, hrun₃, hs₃⟩ := Plan.runItems_fits ps vs { c with started := true, done := false }
      ⟨s₂, p.leaves && true⟩ _ fs hfit.2 rfl (Reader.stepsFrom_after p.leaves) hs₂
    rw [Bool.and_true] at hrun₃
    exact ⟨s₃, by simp [Plan.runItems, hrun₁, hrun₂, hrun₃, Plan.expectItems], hs₃⟩
  | [], _ :: _, _, _, _, _, hfit, _, _, _ => by simp [Plan.fitsItems] at hfit
  | _ :: _, [], _, _, _, _, hfit, _, _, _ => by simp [Plan.fitsItems] at hfit

/-- The contract along an object: as for arrays, with each member named as it comes, for a
cursor that requires no names. -/
theorem Plan.runMembers_fits : (ps : List Plan) → ∀ (members : List (String × Value))
    (c : ObjectCursor) (r : Reader σ) (w : Walk) (fs : List TreeFrame),
    Plan.fitsMembers ps members → c.done = false → c.required = [] →
    Reader.StepsFrom r w (.object members) fs !c.started → R r.source w →
    ∃ s', (Plan.runMembers c ps).run r = .ok (Plan.expectMembers ps members) ⟨s', false⟩ ∧
      R s' ⟨none, fs, false⟩
  | [], [], c, r, w, fs, _, hd, hreq, hpos, hr => by
    -- the closing step; with no name required it reports none missing
    obtain ⟨s', hs, hrun⟩ := Reader.objectCursor_next_end hR hd hr hpos
    rw [hreq] at hrun
    exact ⟨s', by simp [Plan.runMembers, hrun, Plan.expectMembers], hs⟩
  | p :: ps, (k, v) :: ms, c, r, w, fs, hfit, hd, hreq, hpos, hr => by
    -- a member: the step names it, its plan runs on the value, and the rest follows
    simp only [Plan.fitsMembers, Bool.and_eq_true] at hfit
    obtain ⟨name, s₁, hname, hrun₁, hs₁⟩ := Reader.objectCursor_next_member hR hd hr hpos
    obtain ⟨s₂, hrun₂, hs₂⟩ := Plan.run_fits p v ⟨s₁, true⟩ _ hfit.1 hs₁ rfl
    obtain ⟨s₃, hrun₃, hs₃⟩ := Plan.runMembers_fits ps ms
      { c with started := true, name, required := markSeen k c.required }
      ⟨s₂, p.leaves && true⟩ _ fs hfit.2 hd (by rw [hreq]; rfl) (Reader.stepsFrom_after p.leaves) hs₂
    rw [Bool.and_true] at hrun₃
    exact ⟨s₃, by simp [Plan.runMembers, hrun₁, hrun₂, hrun₃, hname, Plan.expectMembers], hs₃⟩
  | [], _ :: _, _, _, _, _, hfit, _, _, _, _ => by simp [Plan.fitsMembers] at hfit
  | _ :: _, [], _, _, _, _, hfit, _, _, _, _ => by simp [Plan.fitsMembers] at hfit
end

end Follows

end JsonCodec
