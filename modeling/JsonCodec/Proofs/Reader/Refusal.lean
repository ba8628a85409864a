import JsonCodec.Proofs.Reader.Typed
import JsonCodec.Proofs.Reader.Client

/-! # How sources refuse

A source that follows walks (`FollowsWalk`) is pinned down wherever the walk allows what the
reader asks. Where it does not, a source `RefusesWalk` when it fails in the one way the walk
says: a value of a kind it is not asked for with a mismatch of the two kinds, and a value asked
for, or looked at, past the end of the document with an unexpected end. The offsets the errors
carry are the source's own. The scanner does so over well-formed text
(`Scanner.follows_refusesWalk`), and so does a tree read without coercion
(`TreeSource.strict_refusesWalk`).

Over such a source every read of the reader fails as the walk says:

* at a value of the wrong kind, a scalar read or the opening of a container reports the mismatch
  (`ScalarRead.run_refused`, `Reader.Call.openArray_refused`,
  `Reader.Call.openObject_refused`);
* past the end of the document, every read reports the unexpected end (`Reader.take_end`,
  `Reader.skipValue_end`, `Reader.value_end`, `Schema.read_end`, ...);
* a typed read of a tree that does not have the shape reports `Schema.refusal`: the mismatch at
  the first node, in document order, whose kind the shape refuses (`Schema.read_refused`).
-/

namespace JsonCodec

/-- A source refuses what a walk does not allow in the one way the walk says, up to the offsets
of its errors. -/
structure RefusesWalk {σ : Type} [Source σ] (R : σ → Walk → Prop) : Prop where
  mismatch {s : σ} {w : Walk} {v : Value} {k : Kind} {allowNull : Bool} :
    R s w → w.current = some v → v.kind.admits (some k) allowNull = false →
      ∃ o s', (Source.nextValue (some k) allowNull).run s = .error (.mismatch k v.kind o) s'
  nextValue_end {s : σ} {w : Walk} {desired : Option Kind} {allowNull : Bool} :
    R s w → w.atEnd = true →
      ∃ o s', (Source.nextValue desired allowNull).run s = .error (.fault .unexpectedEnd o) s'
  peekKind_end {s : σ} {w : Walk} :
    R s w → w.atEnd = true → ∃ o s', (Source.peekKind).run s = .error (.fault .unexpectedEnd o) s'

/-- A source that refuses as walks say fails to pull a value of a kind it is not asked for. -/
theorem RefusesWalk.refusesMismatch {σ : Type} [Source σ] {R : σ → Walk → Prop}
    (h : RefusesWalk R) : RefusesMismatch R := by
  intro s w v k allowNull hs hc hk
  obtain ⟨o, s', hrun⟩ := h.mismatch hs hc hk
  exact ⟨_, s', hrun⟩

/-! ### The scanner -/

namespace Scanner

open Grammar

/-- A token of a kind the request does not admit is refused with the two kinds, where the token
began. -/
theorem nextValue_mismatch {s s' : Scanner} {t : Token} {d : Kind} {allowNull : Bool}
    (hn : (next).run s = .ok t s') (hk : t.kind.admits (some d) allowNull = false) :
    (Source.nextValue (some d) allowNull).run s = .error (.mismatch d t.kind (some s'.last)) s' := by
  simp [Source.nextValue, hn, Token.check_of_not_admits hk]

/-- With nothing but white space left, there is no next token. -/
theorem next_end {s : Scanner} {u : Bool} {cs : List Char} (h : s.At u cs) (hw : Ws u cs []) :
    ∃ o s', (next).run s = .error (.fault .unexpectedEnd o) s' := by
  have hrest := (h.skip hw fun _ _ he => nomatch he).2.2
  simp only [Utf8.encode, List.flatMap_nil] at hrest
  rw [next_clear h.1]
  simp [scanToken, hrest, fail]

/-- Where the walk has ended, the scanner holds no token and only white space is left. -/
theorem Follows.at_end {u : Bool} {s : Scanner} {w : Walk} (hf : Follows u s w)
    (hend : w.atEnd = true) : ∃ cs, s.At u cs ∧ Ws u cs [] := by
  cases hf with
  | held _ _ _ hc => simp [Walk.atEnd, hc] at hend
  | clear hat hr =>
    cases hr with
    | value => simp [Walk.atEnd] at hend
    | array => simp [Walk.atEnd] at hend
    | object => simp [Walk.atEnd] at hend
    | after hcont =>
      cases hcont with
      | root hw => exact ⟨_, hat, hw⟩
      | array => simp [Walk.atEnd] at hend
      | object => simp [Walk.atEnd] at hend

/-- The scanner refuses as the walks of well-formed text say. -/
theorem follows_refusesWalk (u : Bool) : RefusesWalk (Follows u) where
  mismatch {s w v k allowNull} hf hc hk := by
    cases hf with
    -- the value's token is scanned now, or was put back by a look: either way its kind is the
    -- node's
    | clear hat hr =>
      obtain ⟨tok, s', -, hrun, herase, -, -⟩ := hr.next hat hc
      have hkind := kind_of_erase herase
      exact ⟨_, s', hkind ▸ nextValue_mismatch hrun (hkind ▸ hk)⟩
    | held hp hu hr hc' herase hrem =>
      rw [hc, Option.some.injEq] at hc'
      subst hc'
      have hkind := kind_of_erase herase
      exact ⟨_, _, hkind ▸ nextValue_mismatch (next_held hp) (hkind ▸ hk)⟩
  nextValue_end hf hend := by
    -- past the walk's end only white space is left, and scanning meets the end of the input
    obtain ⟨cs, hat, hw⟩ := hf.at_end hend
    obtain ⟨o, s', hrun⟩ := next_end hat hw
    exact ⟨o, s', by simp [Source.nextValue, hrun]⟩
  peekKind_end hf hend := by
    obtain ⟨cs, hat, hw⟩ := hf.at_end hend
    obtain ⟨o, s', hrun⟩ := next_end hat hw
    exact ⟨o, s', by simp [Source.peekKind, peekKind, hrun]⟩

end Scanner

/-! ### A tree read without coercion -/

namespace TreeSource

/-- The tree source stands where the walk stands, and takes every value as its own kind. -/
def Strict (t : TreeSource) (w : Walk) : Prop := t.Tracks w ∧ t.coerce = false

/-- A tree's walk read without coercion starts at its root. -/
theorem strict_ofValue (v : Value) : (ofValue v false).Strict (.start v) :=
  ⟨tracks_ofValue v false, rfl⟩

/-- Taking a node keeps whether the tree coerces. -/
theorem coerce_of_nextValue {t t' : TreeSource} {desired : Option Kind} {allowNull : Bool}
    {x : Token} (h : (nextValue desired allowNull).run t = .ok x t') : t'.coerce = t.coerce := by
  cases hc : t.current with
  | none => rw [nextValue_run_of_none hc] at h; cases h
  | some node =>
    rw [nextValue_run_of_current hc] at h
    split at h
    · cases h
    · cases h
      rfl

/-- Stepping an array keeps whether the tree coerces. -/
theorem coerce_of_arrayNext {t t' : TreeSource} {more : Bool}
    (h : (arrayNext).run t = .ok more t') : t'.coerce = t.coerce := by
  unfold arrayNext at h
  simp only [EStateM.run_bind, EStateM.run_get] at h
  split at h <;> simp at h <;> rw [← h.2]

/-- Stepping an object keeps whether the tree coerces. -/
theorem coerce_of_objectNext {t t' : TreeSource} {name : Option Text}
    (h : (objectNext).run t = .ok name t') : t'.coerce = t.coerce := by
  unfold objectNext at h
  simp only [EStateM.run_bind, EStateM.run_get] at h
  split at h <;> simp at h <;> rw [← h.2]

/-- A tree read without coercion follows its walks: no step turns coercion on. -/
theorem strict_follows : FollowsWalk Strict where
  nextValue ht hc hk := by
    obtain ⟨t, s', hrun, ht', hs'⟩ := tracks_follows.nextValue ht.1 hc hk
    exact ⟨t, s', hrun, ht', hs', (coerce_of_nextValue hrun).trans ht.2⟩
  peekKind ht hc := by
    obtain ⟨s', hrun, hs'⟩ := tracks_follows.peekKind ht.1 hc
    refine ⟨s', hrun, hs', ?_⟩
    simp only [Source.peekKind, TreeSource.peekKind, EStateM.run_bind, EStateM.run_get] at hrun
    -- a look changes no field of the tree, coercion included
    split at hrun <;> simp at hrun
    rw [← hrun.2]
    exact ht.2
  arrayNext ht hc hf := by
    obtain ⟨s', hrun, hs'⟩ := tracks_follows.arrayNext ht.1 hc hf
    exact ⟨s', hrun, hs', (coerce_of_arrayNext hrun).trans ht.2⟩
  objectNext ht hc hf := by
    obtain ⟨n, s', hrun, hn, hs'⟩ := tracks_follows.objectNext ht.1 hc hf
    exact ⟨n, s', hrun, hn, hs', (coerce_of_objectNext hrun).trans ht.2⟩
  isEof ht := ⟨(tracks_follows.isEof ht.1).1, (tracks_follows.isEof ht.1).2, ht.2⟩
  budget ht := tracks_follows.budget ht.1

/-- A tree read without coercion refuses a value of another kind with no offset, and reports
the end of the tree as an unexpected end. -/
theorem strict_refusesWalk : RefusesWalk Strict where
  mismatch {t w v k allowNull} ht hc hk := by
    -- coercion off, the node's own token fails the check, with no offset
    have hcheck : (tokenFor t.coerce v (some k)).check (some k) allowNull none =
        .error (.mismatch k v.kind none) := by
      simpa [tokenFor, ht.2] using Token.check_of_not_admits (t := nodeToken v) (by simpa using hk) none
    refine ⟨none, { t with current := none, remaining := t.remaining - 1 }, ?_⟩
    show (nextValue (some k) allowNull).run t = _
    rw [nextValue_run_of_current (ht.1.1.trans hc), hcheck]
  nextValue_end {t w desired allowNull} ht hend := by
    have hcur : t.current = none := by
      simp only [Walk.atEnd, Bool.and_eq_true, Option.isNone_iff_eq_none] at hend
      exact ht.1.1.trans hend.1
    exact ⟨none, _, nextValue_run_of_none hcur _ _⟩
  peekKind_end {t w} ht hend := by
    have hcur : t.current = none := by
      simp only [Walk.atEnd, Bool.and_eq_true, Option.isNone_iff_eq_none] at hend
      exact ht.1.1.trans hend.1
    exact ⟨none, t, by simp [Source.peekKind, TreeSource.peekKind, hcur, exhausted]⟩

end TreeSource

/-! ### Reads that fail -/

namespace Reader

section Refuses

variable {σ : Type} [Source σ] {R : σ → Walk → Prop} (hM : RefusesWalk R)
include hM

/-- Taking a value of a kind it is not asked for reports the mismatch. -/
theorem take_refused {r : Reader σ} {w : Walk} {v : Value} {k : Kind} {allowNull : Bool}
    (hr : R r.source w) (hc : w.current = some v)
    (hk : v.kind.admits (some k) allowNull = false) :
    ∃ o r', (take k allowNull).run r = .error (.mismatch k v.kind o) r' := by
  obtain ⟨o, s', hrun⟩ := hM.mismatch hr hc hk
  exact ⟨o, ⟨s', false⟩, by simp [take, hrun]⟩

/-- Past the end of the document, taking a token of any kind reports the unexpected end. -/
theorem take_end (k : Kind) (allowNull : Bool) {r : Reader σ} {w : Walk} (hr : R r.source w)
    (hend : w.atEnd = true) :
    ∃ o r', (take k allowNull).run r = .error (.fault .unexpectedEnd o) r' := by
  obtain ⟨o, s', hrun⟩ : ∃ o s', (Source.nextValue (some k) allowNull).run r.source =
      .error (.fault .unexpectedEnd o) s' := hM.nextValue_end hr hend
  exact ⟨o, ⟨s', false⟩, by simp [take, hrun]⟩

/-- Past the end of the document, reading any token reports the unexpected end. -/
theorem any_end {r : Reader σ} {w : Walk} (hr : R r.source w) (hend : w.atEnd = true) :
    ∃ o r', (any : ReadM σ Token).run r = .error (.fault .unexpectedEnd o) r' := by
  obtain ⟨o, s', hrun⟩ : ∃ o s', (Source.nextValue none true).run r.source =
      .error (.fault .unexpectedEnd o) s' := hM.nextValue_end hr hend
  exact ⟨o, ⟨s', false⟩, by simp [any, hrun]⟩

/-- Past the end of the document, looking at the next kind reports the unexpected end. -/
theorem peekKind_end {r : Reader σ} {w : Walk} (hr : R r.source w) (hend : w.atEnd = true) :
    ∃ o r', (peekKind : ReadM σ Kind).run r = .error (.fault .unexpectedEnd o) r' := by
  obtain ⟨o, s', hrun⟩ := hM.peekKind_end hr hend
  exact ⟨o, { r with source := s' }, by simp [peekKind, hrun]⟩

/-- Past the end, skipping fails at the first value it asks for. -/
theorem skipValue_end {r : Reader σ} {w : Walk} (hr : R r.source w) (hend : w.atEnd = true) :
    ∃ o r', (skipValue : ReadM σ Unit).run r = .error (.fault .unexpectedEnd o) r' := by
  obtain ⟨o, s', hrun⟩ : ∃ o s', (Source.nextValue none true).run r.source =
      .error (.fault .unexpectedEnd o) s' := hM.nextValue_end hr hend
  exact ⟨o, ⟨s', false⟩, by simp [skipValue, skipLoop_succ, EStateM.run_bind, hrun]⟩

/-- Past the end, reading a value whole fails at the first value it asks for. -/
theorem value_end {r : Reader σ} {w : Walk} (hr : R r.source w) (hend : w.atEnd = true) :
    ∃ o r', (value : ReadM σ Value).run r = .error (.fault .unexpectedEnd o) r' := by
  obtain ⟨o, s', hrun⟩ : ∃ o s', (Source.nextValue none true).run r.source =
      .error (.fault .unexpectedEnd o) s' := hM.nextValue_end hr hend
  exact ⟨o, ⟨s', false⟩, by simp [value, valueLoop_succ, EStateM.run_bind, hrun]⟩

end Refuses

end Reader

/-- An error with its offset forgotten. -/
def ReadError.blank : ReadError → ReadError
  | .fault f _ => .fault f none
  | .mismatch e a _ => .mismatch e a none
  | .missingProperty n _ => .missingProperty n none

/-! ### Scalar reads and containers -/

section Refuses

variable {σ : Type} [Source σ] {R : σ → Walk → Prop} (hM : RefusesWalk R)

/-- A scalar read fails as taking its value fails. -/
theorem ScalarRead.run_of_take {sr : ScalarRead} {r r' : Reader σ} {e : ReadError}
    (h : (Reader.take sr.kind sr.nullable).run r = .error e r') : (sr.run).run r = .error e r' := by
  cases sr <;> simp only [ScalarRead.kind, ScalarRead.nullable] at h <;>
    simp [ScalarRead.run, Reader.null, Reader.bool, Reader.boolOrNull, Reader.int, Reader.intOrNull,
      Reader.long, Reader.longOrNull, Reader.double, Reader.doubleOrNull, Reader.string,
      Reader.stringOrNull, EStateM.run_bind, h]

/-- Opening an array fails exactly as taking its start fails. -/
theorem Reader.Call.openArray_of_take {orNull : Bool} {r r' : Reader σ} {e : ReadError}
    (h : (Reader.take .array orNull).run r = .error e r') :
    (Reader.Call.openArray orNull).run r = .error e r' := by
  cases orNull <;> simp [Reader.Call.openArray, Reader.array, Reader.arrayOrNull, EStateM.run_bind, h]

/-- Opening an object fails exactly as taking its start fails. -/
theorem Reader.Call.openObject_of_take {orNull : Bool} {r r' : Reader σ} {e : ReadError}
    (h : (Reader.take .object orNull).run r = .error e r') :
    (Reader.Call.openObject orNull).run r = .error e r' := by
  cases orNull <;> simp [Reader.Call.openObject, Reader.object, Reader.objectOrNull, EStateM.run_bind, h]

include hM

/-- A scalar read at a value of a kind it does not take reports the mismatch. -/
theorem ScalarRead.run_refused (sr : ScalarRead) {r : Reader σ} {w : Walk} {v : Value}
    (hr : R r.source w) (hc : w.current = some v)
    (hk : v.kind.admits (some sr.kind) sr.nullable = false) :
    ∃ o r', (sr.run).run r = .error (.mismatch sr.kind v.kind o) r' := by
  obtain ⟨o, r', h⟩ := Reader.take_refused hM hr hc hk
  exact ⟨o, r', ScalarRead.run_of_take h⟩

/-- Past the end of the document, every scalar read reports the unexpected end. -/
theorem ScalarRead.run_end (sr : ScalarRead) {r : Reader σ} {w : Walk} (hr : R r.source w)
    (hend : w.atEnd = true) : ∃ o r', (sr.run).run r = .error (.fault .unexpectedEnd o) r' := by
  obtain ⟨o, r', h⟩ := Reader.take_end hM sr.kind sr.nullable hr hend
  exact ⟨o, r', ScalarRead.run_of_take h⟩

/-- At a value of another kind, opening an array reports the mismatch. -/
theorem Reader.Call.openArray_refused {orNull : Bool} {r : Reader σ} {w : Walk} {v : Value}
    (hr : R r.source w) (hc : w.current = some v) (hk : v.kind.admits (some .array) orNull = false) :
    ∃ o r', (Reader.Call.openArray orNull).run r = .error (.mismatch .array v.kind o) r' := by
  obtain ⟨o, r', h⟩ := Reader.take_refused hM hr hc hk
  exact ⟨o, r', Reader.Call.openArray_of_take h⟩

/-- Past the end of the document, opening an array reports the unexpected end. -/
theorem Reader.Call.openArray_end (orNull : Bool) {r : Reader σ} {w : Walk} (hr : R r.source w)
    (hend : w.atEnd = true) :
    ∃ o r', (Reader.Call.openArray orNull).run r = .error (.fault .unexpectedEnd o) r' := by
  obtain ⟨o, r', h⟩ := Reader.take_end hM .array orNull hr hend
  exact ⟨o, r', Reader.Call.openArray_of_take h⟩

/-- At a value of another kind, opening an object reports the mismatch. -/
theorem Reader.Call.openObject_refused {orNull : Bool} {r : Reader σ} {w : Walk} {v : Value}
    (hr : R r.source w) (hc : w.current = some v) (hk : v.kind.admits (some .object) orNull = false) :
    ∃ o r', (Reader.Call.openObject orNull).run r = .error (.mismatch .object v.kind o) r' := by
  obtain ⟨o, r', h⟩ := Reader.take_refused hM hr hc hk
  exact ⟨o, r', Reader.Call.openObject_of_take h⟩

/-- Past the end of the document, opening an object reports the unexpected end. -/
theorem Reader.Call.openObject_end (orNull : Bool) {r : Reader σ} {w : Walk} (hr : R r.source w)
    (hend : w.atEnd = true) :
    ∃ o r', (Reader.Call.openObject orNull).run r = .error (.fault .unexpectedEnd o) r' := by
  obtain ⟨o, r', h⟩ := Reader.take_end hM .object orNull hr hend
  exact ⟨o, r', Reader.Call.openObject_of_take h⟩

end Refuses

/-! ### Typed reads -/

namespace Schema

/-- The mismatch a read of kind `k` reports at a value of another kind, none at one of kind `k`. -/
def mismatchOf (k : Kind) (v : Value) : Option ReadError :=
  if v.kind = k then none else some (.mismatch k v.kind none)

/-- The error a typed read reports on a tree that does not have the shape, its offset aside: the
mismatch at the first node, in document order, whose kind the shape refuses. None for a tree
that has the shape. -/
def refusal : (T : Schema) → Value → Option ReadError
  | .bool, v => mismatchOf .bool v
  | .int32, v | .int64, v | .uint32, v | .float, v => mismatchOf .number v
  | .string, v | .text, v => mismatchOf .string v
  | .value, _ => none
  | .option T, v => if v.kind = .null then none else T.refusal v
  | .list T, .array items => items.findSome? T.refusal
  | .list _, v => some (.mismatch .array v.kind none)
  | .map T, .object members => members.findSome? fun m => T.refusal m.2
  | .map _, v => some (.mismatch .object v.kind none)

/-- A tree is refused exactly when it does not have the shape. -/
theorem refusal_eq_none_iff (T : Schema) (v : Value) : T.refusal v = none ↔ T.conforms v = true := by
  induction T generalizing v with
  | option T ih => by_cases hv : v.kind = .null <;> simp [refusal, conforms, hv, ih]
  | list T ih => cases v <;> simp [refusal, conforms, Value.asArray, List.findSome?_eq_none_iff, ih]
  | map T ih => cases v <;> simp [refusal, conforms, Value.asObject, List.findSome?_eq_none_iff, ih]
  | value => simp [refusal, conforms]
  | _ => cases v <;> simp [refusal, mismatchOf, conforms, Value.kind]

example : (Schema.list (.map .int32)).refusal
    (.array [.object [("a", .number (Double.zero false))], .object [("b", .string "1")], .null]) =
      some (.mismatch .number .string none) := rfl

end Schema

namespace Reader

section Loops

variable {σ : Type} [Source σ] {R : σ → Walk → Prop} (hR : FollowsWalk R)
include hR

/-- The elements of an array, read each by a read that succeeds on the values that pass `c` and
fails on the others as `ρ` says, where not every element passes: the loop fails at the first
element that does not pass, as `ρ` says of it. -/
theorem listLoop_refused {α β : Type} {item : ReadM σ α} {f : α → β} {d : Value → Option β}
    {c : Value → Bool} {ρ : Value → Option ReadError} (hd : ∀ v, (d v).isSome = c v)
    (hitem : ∀ (r : Reader σ) (w : Walk) (v : Value), R r.source w → w.current = some v →
      ReadsAs R item r w.skip f (d v))
    (hfail : ∀ (r : Reader σ) (w : Walk) (v : Value), R r.source w → w.current = some v →
      c v = false → ∃ e r', item.run r = .error e r' ∧ ρ v = some e.blank)
    (hρ : ∀ v, c v = true → ρ v = none) :
    ∀ (items : List Value) (fuel : Nat) (cur : ArrayCursor) (acc : Array α) (r : Reader σ)
      (fs : List TreeFrame),
    cur.done = false → items.length < fuel → r.awaiting = false →
    R r.source ⟨none, .array items :: fs, !cur.started⟩ → items.all c = false →
    ∃ e r', (listLoop item fuel cur acc).run r = .error e r' ∧ items.findSome? ρ = some e.blank
  | _, 0, _, _, _, _, _, hfuel, _, _, _ => absurd hfuel (Nat.not_lt_zero _)
  | [], _ + 1, _, _, _, _, _, _, _, _, hall => by simp at hall
  | v :: rest, fuel + 1, cur, acc, r, fs, hdone, hfuel, ha, hr, hall => by
    obtain ⟨s₁, hrun₁, hs₁⟩ := arrayCursor_next_run hR hdone hr (Or.inl ⟨ha, rfl⟩)
    simp only [List.isEmpty_cons, Bool.not_false] at hrun₁
    cases hv : c v with
    | false =>
      -- the first element that does not pass fails the loop
      obtain ⟨e, r₂, hrun₂, he⟩ := hfail ⟨s₁, true⟩ _ v hs₁ rfl hv
      exact ⟨e, r₂, by simp [listLoop, hrun₁, hrun₂], by simp [he]⟩
    | true =>
      -- an element that passes is read, and the loop goes on
      rcases hitem ⟨s₁, true⟩ _ v hs₁ rfl with ⟨x, s₂, hrun₂, hs₂, -⟩ | ⟨hx, -⟩
      · obtain ⟨e, r', hrun, he⟩ := listLoop_refused hd hitem hfail hρ rest fuel
          { cur with started := true, done := false } (acc.push x) ⟨s₂, false⟩ fs rfl
          (by simpa using hfuel) rfl hs₂ (by simpa [hv] using hall)
        exact ⟨e, r', by simp [listLoop, hrun₁, hrun₂, hrun], by simp [hρ v hv, he]⟩
      · have := hd v
        rw [hx, hv] at this
        cases this

/-- The members of an object, read each as `listLoop_refused` reads elements, where not every
member passes: the loop fails at the first member that does not pass. -/
theorem mapLoop_refused {α β : Type} {item : ReadM σ α} {f : α → β} {d : Value → Option β}
    {c : Value → Bool} {ρ : Value → Option ReadError} (hd : ∀ v, (d v).isSome = c v)
    (hitem : ∀ (r : Reader σ) (w : Walk) (v : Value), R r.source w → w.current = some v →
      ReadsAs R item r w.skip f (d v))
    (hfail : ∀ (r : Reader σ) (w : Walk) (v : Value), R r.source w → w.current = some v →
      c v = false → ∃ e r', item.run r = .error e r' ∧ ρ v = some e.blank)
    (hρ : ∀ v, c v = true → ρ v = none) :
    ∀ (members : List (String × Value)) (fuel : Nat) (cur : ObjectCursor)
      (acc : List (String × α)) (r : Reader σ) (fs : List TreeFrame),
    cur.done = false → cur.required = [] → members.length < fuel → r.awaiting = false →
    R r.source ⟨none, .object members :: fs, !cur.started⟩ → (members.all fun m => c m.2) = false →
    ∃ e r', (mapLoop item fuel cur acc).run r = .error e r' ∧
      members.findSome? (fun m => ρ m.2) = some e.blank
  -- by recursion on the members; the fuel outlasts them, and some member is refused
  | _, 0, _, _, _, _, _, _, hfuel, _, _, _ => absurd hfuel (Nat.not_lt_zero _)
  | [], _ + 1, _, _, _, _, _, _, _, _, _, hall => by simp at hall
  | (k, v) :: rest, fuel + 1, cur, acc, r, fs, hdone, hreq, hfuel, ha, hr, hall => by
    obtain ⟨name, s₁, hname, hrun₁, hs₁⟩ := objectCursor_next_member hR hdone hr (Or.inl ⟨ha, rfl⟩)
    rw [hreq] at hrun₁
    -- the first member is refused, and the loop fails with its error; or it is read, and the
    -- refused member is among the rest
    cases hv : c v with
    | false =>
      obtain ⟨e, r₂, hrun₂, he⟩ := hfail ⟨s₁, true⟩ _ v hs₁ rfl hv
      exact ⟨e, r₂, by simp [mapLoop, hrun₁, hrun₂], by simp [he]⟩
    | true =>
      rcases hitem ⟨s₁, true⟩ _ v hs₁ rfl with ⟨x, s₂, hrun₂, hs₂, -⟩ | ⟨hx, -⟩
      · obtain ⟨e, r', hrun, he⟩ := mapLoop_refused hd hitem hfail hρ rest fuel
          { cur with started := true, name, required := markSeen k [] } (insertEntry k x acc)
          ⟨s₂, false⟩ fs hdone rfl (by simpa using hfuel) rfl hs₂ (by simpa [hv] using hall)
        exact ⟨e, r', by simp [mapLoop, hrun₁, hrun₂, hname, hrun], by simp [hρ v hv, he]⟩
      · -- a member the shape admits is never refused
        have := hd v
        rw [hx, hv] at this
        cases this

end Loops

end Reader

namespace Schema

section Refuses

open Reader

variable {σ : Type} [Source σ] {R : σ → Walk → Prop} (hR : FollowsWalk R) (hM : RefusesWalk R)

include hM in
/-- A read that fails as taking a value of kind `k` fails reports the mismatch at a value of
another kind. -/
theorem refused_of_take {α : Type} {m : ReadM σ α} {k : Kind}
    (hm : ∀ {r r' : Reader σ} {e : ReadError}, (take k false).run r = .error e r' →
      m.run r = .error e r')
    {r : Reader σ} {w : Walk} {v : Value} (hr : R r.source w) (hc : w.current = some v)
    (hk : v.kind ≠ k) : ∃ e r', m.run r = .error e r' ∧ mismatchOf k v = some e.blank := by
  obtain ⟨o, r', h⟩ := take_refused hM hr hc
    (show v.kind.admits (some k) false = false by simp [Kind.admits, hk])
  exact ⟨_, r', hm h, by simp [mismatchOf, hk, ReadError.blank]⟩

include hM in
/-- A read that fails as taking a value fails reports the end of the document past it. -/
theorem ended_of_take {α : Type} {m : ReadM σ α} {k : Kind}
    (hm : ∀ {r r' : Reader σ} {e : ReadError}, (take k false).run r = .error e r' →
      m.run r = .error e r')
    {r : Reader σ} {w : Walk} (hr : R r.source w) (hend : w.atEnd = true) :
    ∃ o r', m.run r = .error (.fault .unexpectedEnd o) r' := by
  obtain ⟨o, r', h⟩ := take_end hM k false hr hend
  exact ⟨o, r', hm h⟩

include hM in
/-- Past the end of the document, every typed read reports the unexpected end. -/
theorem read_end (T : Schema) {r : Reader σ} {w : Walk} (hr : R r.source w)
    (hend : w.atEnd = true) : ∃ o r', T.read.run r = .error (.fault .unexpectedEnd o) r' := by
  cases T with
  -- a scalar shape takes one value, and taking fails at the end
  | bool =>
    exact ended_of_take hM (m := Reader.bool) (k := .bool)
      (fun h => by simp [Reader.bool, EStateM.run_bind, h]) hr hend
  | int32 =>
    exact ended_of_take hM (m := Reader.int) (k := .number)
      (fun h => by simp [Reader.int, Reader.double, EStateM.run_bind, h]) hr hend
  | int64 =>
    exact ended_of_take hM (m := Reader.long) (k := .number)
      (fun h => by simp [Reader.long, Reader.double, EStateM.run_bind, h]) hr hend
  | uint32 =>
    exact ended_of_take hM (m := Reader.double >>= fun x => pure x.toUInt32) (k := .number)
      (fun h => by simp [Reader.double, EStateM.run_bind, h]) hr hend
  | float =>
    exact ended_of_take hM (m := Reader.double) (k := .number)
      (fun h => by simp [Reader.double, EStateM.run_bind, h]) hr hend
  | string =>
    exact ended_of_take hM (m := Reader.string >>= fun t => pure t.str) (k := .string)
      (fun h => by simp [Reader.string, EStateM.run_bind, h]) hr hend
  | text =>
    exact ended_of_take hM (m := Reader.string) (k := .string)
      (fun h => by simp [Reader.string, EStateM.run_bind, h]) hr hend
  | value => exact value_end hM hr hend
  -- an optional looks at the next value first, and the look fails at the end
  | option T =>
    obtain ⟨o, r', h⟩ := peekKind_end hM hr hend
    refine ⟨o, r', ?_⟩
    show @EStateM.run ReadError (Reader σ) (Option T.Carrier) (Schema.read (.option T)) r = _
    rw [read_option]
    simp only [EStateM.run_bind, h]
    rfl
  -- a list or a map fails opening its container
  | list T =>
    obtain ⟨o, r', h⟩ := take_end hM .array false hr hend
    refine ⟨o, r', ?_⟩
    show @EStateM.run ReadError (Reader σ) (List T.Carrier) (Schema.read (.list T)) r = _
    rw [read_list]
    simp only [EStateM.run_bind, Reader.array, h]
    rfl
  | map T =>
    obtain ⟨o, r', h⟩ := take_end hM .object false hr hend
    refine ⟨o, r', ?_⟩
    show @EStateM.run ReadError (Reader σ) (List (String × T.Carrier)) (Schema.read (.map T)) r = _
    rw [read_map]
    simp only [EStateM.run_bind, Reader.object, h]
    rfl

include hR hM in
/-- A typed read of a tree that does not have the shape fails, and reports `Schema.refusal`: the
mismatch at the first node, in document order, whose kind the shape refuses. -/
theorem read_refused : ∀ (T : Schema) (r : Reader σ) (w : Walk) (v : Value),
    R r.source w → w.current = some v → T.conforms v = false →
      ∃ e r', T.read.run r = .error e r' ∧ T.refusal v = some e.blank
  | .bool, r, w, v, hr, hc, hv =>
    refused_of_take hM (m := Reader.bool) (fun h => by simp [Reader.bool, EStateM.run_bind, h])
      hr hc (by simpa [conforms] using hv)
  | .int32, r, w, v, hr, hc, hv =>
    refused_of_take hM (m := Reader.int)
      (fun h => by simp [Reader.int, Reader.double, EStateM.run_bind, h]) hr hc
      (by simpa [conforms] using hv)
  | .int64, r, w, v, hr, hc, hv =>
    refused_of_take hM (m := Reader.long)
      (fun h => by simp [Reader.long, Reader.double, EStateM.run_bind, h]) hr hc
      (by simpa [conforms] using hv)
  | .uint32, r, w, v, hr, hc, hv =>
    refused_of_take hM (m := Reader.double >>= fun x => pure x.toUInt32)
      (fun h => by simp [Reader.double, EStateM.run_bind, h]) hr hc (by simpa [conforms] using hv)
  | .float, r, w, v, hr, hc, hv =>
    refused_of_take hM (m := Reader.double) (fun h => by simp [Reader.double, EStateM.run_bind, h])
      hr hc (by simpa [conforms] using hv)
  | .string, r, w, v, hr, hc, hv =>
    refused_of_take hM (m := Reader.string >>= fun t => pure t.str)
      (fun h => by simp [Reader.string, EStateM.run_bind, h]) hr hc (by simpa [conforms] using hv)
  | .text, r, w, v, hr, hc, hv =>
    refused_of_take hM (m := Reader.string) (fun h => by simp [Reader.string, EStateM.run_bind, h])
      hr hc (by simpa [conforms] using hv)
  | .value, _, _, _, _, _, hv => by simp [conforms] at hv
  | .option T, r, w, v, hr, hc, hv => by
    show ∃ e r', @EStateM.run ReadError (Reader σ) (Option T.Carrier) (Schema.read (.option T)) r =
      .error e r' ∧ (Schema.option T).refusal v = some e.blank
    rw [read_option]
    -- not a null: the item's shape is read, and refuses the value
    have hnull : v.kind ≠ .null := fun h => by simp [conforms, h] at hv
    obtain ⟨s₁, hrun₁, hs₁⟩ := peekKind_run hR hr hc
    obtain ⟨e, r', hrun, he⟩ := read_refused T { r with source := s₁ } w v hs₁ hc
      (by simpa [conforms, hnull] using hv)
    exact ⟨e, r', by simp [EStateM.run_bind, hrun₁, hnull, hrun], by simp [refusal, hnull, he]⟩
  | .list T, r, w, v, hr, hc, hv => by
    show ∃ e r', @EStateM.run ReadError (Reader σ) (List T.Carrier) (Schema.read (.list T)) r =
      .error e r' ∧ (Schema.list T).refusal v = some e.blank
    rw [read_list]
    by_cases hk : v.kind = .array
    · obtain ⟨items, rfl⟩ : ∃ items, v = .array items := by cases v <;> simp_all [Value.kind]
      obtain ⟨s₁, hrun, hs₁, hfuel⟩ := array_enters hR hr hc
      -- the elements are read in turn up to the first that does not have the item's shape
      obtain ⟨e, r', hloop, he⟩ := listLoop_refused hR (decode_isSome T)
        (read_readsAs hR hM.refusesMismatch T) (read_refused T)
        (fun x hx => (refusal_eq_none_iff T x).2 hx) items _ (.ofDefined true) #[] ⟨s₁, false⟩
        w.frames rfl hfuel rfl hs₁ (by simpa [conforms, Value.asArray] using hv)
      exact ⟨e, r', by simp [EStateM.run_bind, hrun, hloop],
        by simpa [refusal] using he⟩
    · obtain ⟨o, r', h⟩ := take_refused hM hr hc
        (show v.kind.admits (some .array) false = false by simp [Kind.admits, hk])
      exact ⟨.mismatch .array v.kind o, r', by simp [EStateM.run_bind, Reader.array, h],
        by cases v <;> simp_all [refusal, ReadError.blank, Value.kind]⟩
  | .map T, r, w, v, hr, hc, hv => by
    show ∃ e r', @EStateM.run ReadError (Reader σ) (List (String × T.Carrier))
      (Schema.read (.map T)) r = .error e r' ∧ (Schema.map T).refusal v = some e.blank
    rw [read_map]
    by_cases hk : v.kind = .object
    · obtain ⟨members, rfl⟩ : ∃ members, v = .object members := by cases v <;> simp_all [Value.kind]
      obtain ⟨s₁, hrun, hs₁, hfuel⟩ := object_enters hR hr hc
      obtain ⟨e, r', hloop, he⟩ := mapLoop_refused hR (decode_isSome T)
        (read_readsAs hR hM.refusesMismatch T) (read_refused T)
        (fun x hx => (refusal_eq_none_iff T x).2 hx) members _ (.ofDefined true) [] ⟨s₁, false⟩
        w.frames rfl rfl hfuel rfl hs₁ (by simpa [conforms, Value.asObject] using hv)
      exact ⟨e, r', by simp [EStateM.run_bind, hrun, hloop],
        by simpa [refusal] using he⟩
    · obtain ⟨o, r', h⟩ := take_refused hM hr hc
        (show v.kind.admits (some .object) false = false by simp [Kind.admits, hk])
      exact ⟨.mismatch .object v.kind o, r', by simp [EStateM.run_bind, Reader.object, h],
        by cases v <;> simp_all [refusal, ReadError.blank, Value.kind]⟩

end Refuses

end Schema

end JsonCodec
