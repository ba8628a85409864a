import JsonCodec.Proofs.Reader.Twinned

/-! # Coercion extends strict reading

Every call a client makes on a tree reads alike with coercion on and off wherever the strict
reader is not refused a kind (`Reader.Call.run_coercesAlike`). Over a run, the coercing client
therefore answers as the strict one until the strict one is first refused, and exactly as it when
that never happens (`Reader.Client.run_coercing`, `Reader.Client.run_coercing_append`).

At the call where the two part, a read of one value (`Reader.ReadsOne`: a scalar read, the
opening of a container, a typed read of a scalar shape or of an optional one) is refused alike,
or the node was converted and the read returns what it makes of the converted node
(`Reader.Client.step_coercing_refused`). Opening a container is always refused alike, as no
conversion makes one. A typed read of a list or a map reads its elements one by one, each
converted where it can be, so it may go on past the value the strict read was refused and end
elsewhere (`coercion_changes_composite_refusal`). `coercion_extends_strict` puts it together.
-/

namespace JsonCodec

/-! ### Runs of clients -/

namespace Reader.Client

/-- The same client, its tree walked with coercion on. -/
def coercing (c : Client TreeSource) : Client TreeSource := ⟨c.reader.coercing, c.cursors⟩

/-- Walking a tree with coercion on is the client over the coercing source. -/
theorem ofSource_coercing (v : Value) :
    (ofSource (TreeSource.ofValue v false)).coercing = ofSource (TreeSource.ofValue v true) := rfl

section After

variable {σ : Type} [Source σ]

/-- The client after the calls, if none of them failed. -/
def after (c : Client σ) : List Call → Option (Client σ)
  | [] => some c
  | call :: calls => (c.step call).2.bind fun c' => c'.after calls

/-- A call whose run succeeds answers with its result and leaves the client its reader and
cursors. -/
theorem step_of_run_ok {c : Client σ} {call : Call} {a : Answer} {cs : List Cursor} {r : Reader σ}
    (h : (call.run c.cursors).run c.reader = .ok (a, cs) r) : c.step call = (a, some ⟨r, cs⟩) := by
  simp [step, h]

/-- A call whose run fails answers with the error and ends the run. -/
theorem step_of_run_error {c : Client σ} {call : Call} {e : ReadError} {r : Reader σ}
    (h : (call.run c.cursors).run c.reader = .error e r) : c.step call = (.failed e, none) := by
  simp [step, h]

/-- A call that ends the run failed, with the error of its step. -/
theorem step_eq_none {c : Client σ} {call : Call} {a : Answer} (h : c.step call = (a, none)) :
    ∃ e r, a = .failed e ∧ (call.run c.cursors).run c.reader = .error e r := by
  unfold step at h
  split at h
  · simp at h
  · next e r hrun =>
    simp only [Prod.mk.injEq] at h
    exact ⟨e, r, h.1.symm, hrun⟩

/-- A step that went through, as `run_cons_of_step` takes it. -/
theorem step_of_bind_eq_some {c c₁ : Client σ} {call : Call} (hs : (c.step call).2 = some c₁) :
    c.step call = ((c.step call).1, some c₁) := by
  rw [← hs]

/-- A run of calls that all went through, and then more calls from where they left it. -/
theorem run_append {c c' : Client σ} :
    ∀ {pre : List Call}, c.after pre = some c' → ∀ post, c.run (pre ++ post) = c.run pre ++ c'.run post
  | [], h, post => by
    cases h
    rfl
  | call :: pre, h, post => by
    simp only [after] at h
    obtain ⟨c₁, hs, h₁⟩ := Option.bind_eq_some_iff.1 h
    have hstep := step_of_bind_eq_some hs
    rw [List.cons_append, run_cons_of_step _ hstep, run_cons_of_step _ hstep, run_append h₁ post,
      List.cons_append]

end After

/-- A call the strict client makes goes through for the coercing client alike. -/
theorem step_coercing_ok {c c' : Client TreeSource} {call : Call} {a : Answer}
    (hs : c.reader.source.coerce = false) (h : c.step call = (a, some c')) :
    c'.reader.source.coerce = false ∧ c.coercing.step call = (a, some c'.coercing) := by
  obtain ⟨hs', hrun⟩ := (Call.run_coercesAlike c.cursors call).ok hs (step_eq_some h)
  exact ⟨hs', step_of_run_ok (c := c.coercing) hrun⟩

/-- A call the strict client fails with an error other than a mismatch fails alike for the
coercing client. -/
theorem step_coercing_error {c : Client TreeSource} {call : Call} {e : ReadError}
    (hs : c.reader.source.coerce = false) (h : c.step call = (.failed e, none))
    (he : e.isMismatch = false) : c.coercing.step call = (.failed e, none) := by
  obtain ⟨e', r, he', hrun⟩ := step_eq_none h
  cases he'
  obtain ⟨r', hrun'⟩ := (Call.run_coercesAlike c.cursors call).error hs hrun he
  exact step_of_run_error (c := c.coercing) hrun'

/-- Calls that went through for the strict client go through for the coercing one, with the
same answers, and leave it the twin of where the strict one stands. -/
theorem after_coercing {c : Client TreeSource} (hs : c.reader.source.coerce = false) :
    ∀ {pre : List Call} {c' : Client TreeSource}, c.after pre = some c' →
      c'.reader.source.coerce = false ∧ c.coercing.after pre = some c'.coercing ∧
        c.coercing.run pre = c.run pre
  | [], c', h => by
    cases h
    exact ⟨hs, rfl, rfl⟩
  | call :: pre, c', h => by
    -- the first call went through strictly, so it goes through coercing with the same answer; the
    -- rest by induction
    simp only [after] at h
    obtain ⟨c₁, hc₁, h₁⟩ := Option.bind_eq_some_iff.1 h
    have hstep := step_of_bind_eq_some hc₁
    obtain ⟨hs₁, hco⟩ := step_coercing_ok hs hstep
    obtain ⟨hs', hafter, hrun⟩ := after_coercing hs₁ h₁
    refine ⟨hs', ?_, ?_⟩
    · simp only [after, hco, Option.bind_some]
      exact hafter
    · rw [run_cons_of_step _ hco, run_cons_of_step _ hstep, hrun]

/-- Over a run in which the strict client is never refused a kind, the coercing client gives the
same answers. -/
theorem run_coercing {c : Client TreeSource} (hs : c.reader.source.coerce = false) :
    ∀ calls : List Call, (∀ e, Answer.failed e ∈ c.run calls → e.isMismatch = false) →
      c.coercing.run calls = c.run calls
  | [], _ => rfl
  | call :: calls, h => by
    rcases hstep : c.step call with ⟨a, _ | c'⟩
    · -- the strict client failed, with an error that is not a mismatch
      obtain ⟨e, r, rfl, -⟩ := step_eq_none hstep
      rw [run_cons_of_step_none calls hstep] at h ⊢
      have he := h e (List.mem_singleton_self _)
      rw [run_cons_of_step_none calls (step_coercing_error hs hstep he)]
    · obtain ⟨hs', hco⟩ := step_coercing_ok hs hstep
      rw [run_cons_of_step calls hstep] at h ⊢
      rw [run_cons_of_step calls hco,
        run_coercing hs' calls fun e he => h e (List.mem_cons_of_mem _ he)]

/-- Up to a call at which the strict client fails, the coercing client answers as it, and goes
on from there as the twin of the client the strict one was. -/
theorem run_coercing_append {c c' : Client TreeSource} (hs : c.reader.source.coerce = false)
    {pre : List Call} (ha : c.after pre = some c') (post : List Call) :
    c.coercing.run (pre ++ post) = c.run pre ++ c'.coercing.run post := by
  obtain ⟨-, hafter, hrun⟩ := after_coercing hs ha
  rw [run_append hafter, hrun]

end Reader.Client

/-! ### The call at which the strict reader is refused -/

/-- The value a token stands for: a scalar as itself, the start of a container as an empty one. -/
def Token.value : Token → Value
  | .null => .null
  | .bool b => .bool b
  | .number x => .number x
  | .string s => .string s.str
  | .arrayStart => .array []
  | .objectStart => .object []

/-- The value a node is read as, with coercion on, where a value of kind `k` is asked for: the
node converted by one of the four conversions of `Token.coerce`, or the node as it is. -/
def Value.coerceTo (v : Value) (k : Kind) : Value := ((TreeSource.nodeToken v).coerce k).value

/-- Coercion leaves a token as it is, or makes it of the kind asked for. -/
theorem Token.coerce_eq_or_kind (t : Token) (k : Kind) :
    t.coerce k = t ∨ (t.coerce k).kind = k := by
  unfold Token.coerce
  split
  · exact .inr rfl
  · exact .inr rfl
  · split_ifs <;> simp [Token.kind]
  · split
    · split_ifs <;> simp [Token.kind]
    · exact .inl rfl
  · exact .inl rfl

namespace Reader

/-- Taking the next node of a tree, coercion on or off: the token it is taken as, checked. -/
theorem take_run_of_current {r : Reader TreeSource} {v : Value} (hc : r.source.current = some v)
    (k : Kind) (allowNull : Bool) :
    let t := TreeSource.tokenFor r.source.coerce v (some k)
    (t.kind.admits (some k) allowNull = true → ∃ r', (take k allowNull).run r = .ok t r') ∧
      (t.kind.admits (some k) allowNull = false →
        ∃ r', (take k allowNull).run r = .error (.mismatch k t.kind none) r') := by
  intro t
  simp only [take, EStateM.run_bind, run_beginRead, run_lift]
  rw [show (Source.nextValue (some k) allowNull).run r.source = _ from
    TreeSource.nextValue_run_of_current hc _ _]
  constructor
  · intro hk
    rw [Token.check_of_admits hk]
    exact ⟨_, rfl⟩
  · intro hk
    rw [Token.check_of_not_admits hk]
    exact ⟨_, rfl⟩

/-- Past the end of the tree nothing can be taken. -/
theorem take_run_of_none {r : Reader TreeSource} (hc : r.source.current = none) (k : Kind)
    (allowNull : Bool) : ∃ r', (take k allowNull).run r = .error TreeSource.exhausted r' := by
  simp only [take, EStateM.run_bind, run_beginRead, run_lift]
  rw [show (Source.nextValue (some k) allowNull).run r.source = _ from
    TreeSource.nextValue_run_of_none hc _ _]
  exact ⟨_, rfl⟩

/-- A read of one value of kind `k` (or a null, with `allowNull`) from a tree, coercion on or off.
With `t` the token the next node is taken as: where `t` passes, the read returns a result whose
image under `f` is what `d` makes of `t`'s value; where it does not, the read reports the
mismatch; past the end, that the tree has ended. -/
structure ReadsOne {α β : Type} (k : Kind) (allowNull : Bool) (d : Value → Option β) (f : α → β)
    (m : ReadM TreeSource α) : Prop where
  pass {r : Reader TreeSource} {v : Value} : r.source.current = some v →
    (TreeSource.tokenFor r.source.coerce v (some k)).kind.admits (some k) allowNull = true →
    ∃ x r', m.run r = .ok x r' ∧ d (TreeSource.tokenFor r.source.coerce v (some k)).value = some (f x)
  refuse {r : Reader TreeSource} {v : Value} : r.source.current = some v →
    (TreeSource.tokenFor r.source.coerce v (some k)).kind.admits (some k) allowNull = false →
    ∃ r', m.run r = .error (.mismatch k (TreeSource.tokenFor r.source.coerce v (some k)).kind none) r'
  ended {r : Reader TreeSource} : r.source.current = none →
    ∃ r', m.run r = .error TreeSource.exhausted r'

/-- Where the strict reader is refused a read of one value, the coercing reader is refused it
alike, or the node is converted and the read returns what it makes of the converted node. -/
theorem ReadsOne.coercing_refused {α β : Type} {k : Kind} {allowNull : Bool} {d : Value → Option β}
    {f : α → β} {m : ReadM TreeSource α} (hm : ReadsOne k allowNull d f m) {r r₁ : Reader TreeSource}
    {e : ReadError} (hs : r.source.coerce = false) (h : m.run r = .error e r₁)
    (he : e.isMismatch = true) :
    ∃ v, r.source.current = some v ∧ e = .mismatch k v.kind none ∧
      ((∃ r₂, m.run r.coercing = .error e r₂) ∨
        ∃ x r₂, (TreeSource.nodeToken v).coerce k ≠ TreeSource.nodeToken v ∧
          m.run r.coercing = .ok x r₂ ∧ d (v.coerceTo k) = some (f x)) := by
  cases hc : r.source.current with
  | none =>
    -- past the end the error is not a mismatch
    obtain ⟨r', h'⟩ := hm.ended hc
    rw [h] at h'
    cases h'
    cases he
  | some v =>
    have htok : TreeSource.tokenFor r.source.coerce v (some k) = TreeSource.nodeToken v := by
      simp [TreeSource.tokenFor, hs]
    -- the strict reader was refused: the node's own token does not pass, and that is the error
    have hna : (TreeSource.nodeToken v).kind.admits (some k) allowNull = false := by
      cases ha : (TreeSource.nodeToken v).kind.admits (some k) allowNull
      · rfl
      · obtain ⟨x, r', h', -⟩ := hm.pass hc (by rw [htok]; exact ha)
        rw [h] at h'
        cases h'
    obtain ⟨r', hr'⟩ := hm.refuse hc (by rw [htok]; exact hna)
    rw [h, htok] at hr'
    cases hr'
    refine ⟨v, rfl, by rw [nodeToken_kind], ?_⟩
    -- with coercion on the node is taken converted: unchanged, or of the kind asked for
    have hc' : r.coercing.source.current = some v := hc
    have htok' : TreeSource.tokenFor r.coercing.source.coerce v (some k) =
        (TreeSource.nodeToken v).coerce k := rfl
    rcases Token.coerce_eq_or_kind (TreeSource.nodeToken v) k with hsame | hkind
    · left
      obtain ⟨r₂, h₂⟩ := hm.refuse hc' (by rw [htok', hsame]; exact hna)
      rw [htok', hsame] at h₂
      exact ⟨r₂, h₂⟩
    · right
      have hpass : ((TreeSource.nodeToken v).coerce k).kind.admits (some k) allowNull = true := by
        simp [Kind.admits, hkind]
      obtain ⟨x, r₂, h₂, hd⟩ := hm.pass hc' (by rw [htok']; exact hpass)
      refine ⟨x, r₂, fun hsame => ?_, h₂, hd⟩
      rw [hsame] at hpass
      rw [hpass] at hna
      cases hna

/-- A read of a kind that no conversion makes is refused alike with coercion on. -/
theorem ReadsOne.coercing_refused_alike {α β : Type} {k : Kind} {allowNull : Bool}
    {d : Value → Option β} {f : α → β} {m : ReadM TreeSource α} (hm : ReadsOne k allowNull d f m)
    (hk : ∀ t : Token, t.coerce k = t) {r r₁ : Reader TreeSource} {e : ReadError}
    (hs : r.source.coerce = false) (h : m.run r = .error e r₁) (he : e.isMismatch = true) :
    ∃ v, r.source.current = some v ∧ e = .mismatch k v.kind none ∧
      ∃ r₂, m.run r.coercing = .error e r₂ := by
  obtain ⟨v, hc, hev, hco⟩ := hm.coercing_refused hs h he
  refine ⟨v, hc, hev, ?_⟩
  rcases hco with hsame | ⟨x, r₂, hne, -⟩
  · exact hsame
  · exact absurd (hk _) hne

/-- A read that fails as taking its value fails, and wherever the token passes returns what `d`
reads off the token's value. -/
theorem ReadsOne.of_take {α β : Type} {k : Kind} {allowNull : Bool} {d : Value → Option β}
    {f : α → β} {m : ReadM TreeSource α}
    (herr : ∀ {r r' : Reader TreeSource} {e : ReadError},
      (take k allowNull).run r = .error e r' → m.run r = .error e r')
    (hok : ∀ {r r' : Reader TreeSource} {t : Token}, (take k allowNull).run r = .ok t r' →
      t.kind.admits (some k) allowNull = true → ∃ x, m.run r = .ok x r' ∧ d t.value = some (f x)) :
    ReadsOne k allowNull d f m where
  pass hc hk := by
    obtain ⟨r', h⟩ := (take_run_of_current hc _ _).1 hk
    obtain ⟨x, hx, hd⟩ := hok h hk
    exact ⟨x, r', hx, hd⟩
  refuse hc hk := by
    obtain ⟨r', h⟩ := (take_run_of_current hc _ _).2 hk
    exact ⟨r', herr h⟩
  ended hc := by
    obtain ⟨r', h⟩ := take_run_of_none hc _ _
    exact ⟨r', herr h⟩

/-- A read of one value followed by a function of its result that cannot fail. -/
theorem ReadsOne.bind_pure {α β γ δ : Type} {k : Kind} {allowNull : Bool} {d : Value → Option β}
    {f : α → β} {m : ReadM TreeSource α} (hm : ReadsOne k allowNull d f m) (g : α → γ)
    {d' : Value → Option δ} {f' : γ → δ} (h : β → δ) (hd : ∀ v, d' v = (d v).map h)
    (hg : ∀ x, f' (g x) = h (f x)) :
    ReadsOne k allowNull d' f' (m >>= fun x => pure (g x)) where
  pass hc hk := by
    obtain ⟨x, r', hrun, hdx⟩ := hm.pass hc hk
    exact ⟨g x, r', by simp [hrun], by rw [hd, hdx, hg, Option.map_some]⟩
  refuse hc hk := by
    obtain ⟨r', hrun⟩ := hm.refuse hc hk
    exact ⟨r', by simp [hrun]⟩
  ended hc := by
    obtain ⟨r', hrun⟩ := hm.ended hc
    exact ⟨r', by simp [hrun]⟩

/-- The same read, what it returns seen through a function. -/
theorem ReadsOne.map_value {α β γ : Type} {k : Kind} {allowNull : Bool} {d : Value → Option β}
    {f : α → β} {m : ReadM TreeSource α} (hm : ReadsOne k allowNull d f m) (h : β → γ) :
    ReadsOne k allowNull (fun v => (d v).map h) (fun x => h (f x)) m where
  pass hc hk := by
    obtain ⟨x, r', hrun, hdx⟩ := hm.pass hc hk
    exact ⟨x, r', hrun, by rw [hdx, Option.map_some]⟩
  refuse hc hk := hm.refuse hc hk
  ended hc := hm.ended hc

/-- A boolean read takes a boolean node and returns it. -/
theorem bool_readsOne : ReadsOne .bool false Value.asBool id (bool : ReadM TreeSource Bool) :=
  .of_take (fun h => by simp [bool, EStateM.run_bind, h]) fun {r r' t} h ht => by
    cases t <;> simp [Kind.admits, Token.kind] at ht
    exact ⟨_, by simp [bool, EStateM.run_bind, h], rfl⟩

/-- A number read takes a number node and returns its value. -/
theorem double_readsOne : ReadsOne .number false Value.asNumber id (double : ReadM TreeSource Double) :=
  .of_take (fun h => by simp [double, EStateM.run_bind, h]) fun {r r' t} h ht => by
    cases t <;> simp [Kind.admits, Token.kind] at ht
    exact ⟨_, by simp [double, EStateM.run_bind, h], rfl⟩

/-- A string read takes a string node and returns its text. -/
theorem string_readsOne :
    ReadsOne .string false Value.asString Text.str (string : ReadM TreeSource Text) :=
  .of_take (fun h => by simp [string, EStateM.run_bind, h]) fun {r r' t} h ht => by
    cases t <;> simp [Kind.admits, Token.kind] at ht
    exact ⟨_, by simp [string, EStateM.run_bind, h], rfl⟩

end Reader

/-- A scalar read returns, on each token of a kind it takes, what it returns on the token's
value. -/
theorem ScalarRead.run_of_take_ok {σ : Type} [Source σ] {sr : ScalarRead} {r r' : Reader σ}
    {t : Token} (h : (Reader.take sr.kind sr.nullable).run r = .ok t r')
    (hk : t.kind.admits (some sr.kind) sr.nullable = true) :
    (sr.run).run r = .ok (sr.expect t.value) r' := by
  cases sr <;> simp only [ScalarRead.kind, ScalarRead.nullable] at h hk <;>
    cases t <;> simp [Kind.admits, Token.kind] at hk <;>
    simp [ScalarRead.run, ScalarRead.expect, Token.value, Reader.null, Reader.bool,
      Reader.boolOrNull, Reader.int, Reader.intOrNull, Reader.long, Reader.longOrNull, Reader.double,
      Reader.doubleOrNull, Reader.string, Reader.stringOrNull, EStateM.run_bind, h]

/-- Every scalar read reads one value: what it returns is what its shape expects of the node. -/
theorem ScalarRead.readsOne (sr : ScalarRead) :
    Reader.ReadsOne sr.kind sr.nullable (fun v => some (sr.expect v)) id
      (sr.run : ReadM TreeSource Event) :=
  .of_take ScalarRead.run_of_take fun h hk => ⟨_, ScalarRead.run_of_take_ok h hk, rfl⟩

namespace Reader

/-- Opening an array reads one value: the cursor it returns is live exactly when the node is an
array, and a null is taken where the call allows one. -/
theorem Call.openArray_readsOne (orNull : Bool) :
    ReadsOne .array orNull (fun v => some (ArrayCursor.ofDefined (v.kind == .array))) id
      (Call.openArray orNull : ReadM TreeSource ArrayCursor) :=
  .of_take Call.openArray_of_take fun {r r' t} h ht => by
    cases orNull <;> cases t <;> simp [Kind.admits, Token.kind] at ht <;>
      exact ⟨_, by simp [Call.openArray, Reader.array, Reader.arrayOrNull, EStateM.run_bind, h,
        Token.value, Value.kind, ArrayCursor.ofDefined], rfl⟩

/-- Opening an object reads one value: the cursor it returns is live exactly when the node is an
object, and a null is taken where the call allows one. -/
theorem Call.openObject_readsOne (orNull : Bool) :
    ReadsOne .object orNull (fun v => some (ObjectCursor.ofDefined (v.kind == .object))) id
      (Call.openObject orNull : ReadM TreeSource ObjectCursor) :=
  .of_take Call.openObject_of_take fun {r r' t} h ht => by
    cases orNull <;> cases t <;> simp [Kind.admits, Token.kind] at ht <;>
      exact ⟨_, by simp [Call.openObject, Reader.object, Reader.objectOrNull, EStateM.run_bind, h,
        Token.value, Value.kind, ObjectCursor.ofDefined], rfl⟩

/-- Looking at the next node of a tree gives its stored kind and changes nothing, coercion on
or off. -/
theorem peekKind_run_of_current {r : Reader TreeSource} {v : Value}
    (hc : r.source.current = some v) : (peekKind : ReadM TreeSource Kind).run r = .ok v.kind r := by
  have h : (Source.peekKind : EStateM ReadError TreeSource Kind).run r.source =
      .ok v.kind r.source := by
    simp [Source.peekKind, TreeSource.peekKind, EStateM.run_bind, hc]
  simp only [peekKind, run_lift, h]

/-- Looking at the next node of a tree that has none fails as the tree's end and changes nothing. -/
theorem peekKind_run_of_none {r : Reader TreeSource} (hc : r.source.current = none) :
    (peekKind : ReadM TreeSource Kind).run r = .error TreeSource.exhausted r := by
  have h : (Source.peekKind : EStateM ReadError TreeSource Kind).run r.source =
      .error TreeSource.exhausted r.source := by
    simp [Source.peekKind, TreeSource.peekKind, EStateM.run_bind, hc]
  simp only [peekKind, run_lift, h]

end Reader

/-- A token's value has the token's kind. -/
@[simp] theorem Token.value_kind (t : Token) : t.value.kind = t.kind := by
  cases t <;> rfl

/-- No conversion makes a null, nor converts one. -/
theorem TreeSource.tokenFor_kind_eq_null {c : Bool} {v : Value} {k : Kind} :
    (tokenFor c v (some k)).kind = .null ↔ v.kind = .null := by
  cases c
  · simp [tokenFor]
  · show ((nodeToken v).coerce k).kind = .null ↔ _
    -- coercion leaves the token, or gives one of the kind asked for; the latter is a null only
    -- when a null was asked for, which converts nothing
    rcases Token.coerce_eq_or_kind (nodeToken v) k with h | h
    · rw [h, nodeToken_kind]
    · rw [h]
      constructor
      · rintro rfl
        have hid : (nodeToken v).coerce .null = nodeToken v := by
          cases v <;> rfl
        rwa [hid, nodeToken_kind] at h
      · intro hv
        have hn : nodeToken v = .null := by
          cases v <;> simp_all [Value.kind, nodeToken]
        have hnull : Token.coerce .null k = .null := by
          cases k <;> rfl
        rw [hn, hnull] at h
        exact h.symm

/-- A null stays a null whatever kind is asked for, coercion on or off. -/
@[simp] theorem TreeSource.tokenFor_null (c : Bool) (k : Kind) :
    tokenFor c .null (some k) = .null := by
  cases c <;> cases k <;> rfl

/-- The kind a typed read of one value asks for: that of a scalar shape, or of the shape an
optional holds. None for a shape read whole or from several values. -/
def Schema.scalarKind : Schema → Option Kind
  | .bool => some .bool
  | .int32 | .int64 | .uint32 | .float => some .number
  | .string | .text => some .string
  | .option T => T.scalarKind
  | .value | .list _ | .map _ => none

/-- Whether a typed read also takes a null: an optional does. -/
def Schema.takesNull : Schema → Bool
  | .option _ => true
  | _ => false

/-- A typed read of one value reads it as the shape decodes the token it takes. -/
theorem Schema.readsOne : ∀ (T : Schema) {k : Kind}, T.scalarKind = some k →
    Reader.ReadsOne k T.takesNull T.decode T.plain (T.read : ReadM TreeSource T.Carrier)
  | .bool, _, hk => by
    cases hk
    exact Reader.bool_readsOne
  | .int32, _, hk => by
    cases hk
    exact Reader.double_readsOne.bind_pure Double.toInt32 Double.toInt32 (fun _ => rfl) fun _ => rfl
  | .int64, _, hk => by
    cases hk
    exact Reader.double_readsOne.bind_pure Double.toInt64 Double.toInt64 (fun _ => rfl) fun _ => rfl
  | .uint32, _, hk => by
    cases hk
    exact Reader.double_readsOne.bind_pure Double.toUInt32 Double.toUInt32 (fun _ => rfl)
      fun _ => rfl
  | .float, _, hk => by
    cases hk
    exact Reader.double_readsOne
  | .string, _, hk => by
    cases hk
    exact Reader.string_readsOne.bind_pure Text.str id (fun v => by cases v <;> rfl)
      fun _ => rfl
  | .text, _, hk => by
    cases hk
    exact Reader.string_readsOne.map_value fun s => (⟨s, true⟩ : Text)
  | .value, _, hk | .list _, _, hk | .map _, _, hk => by cases hk
  | .option T, k, hk => by
    have ih := Schema.readsOne T hk
    -- an optional looks first: a null is no value, anything else is read with the shape held
    refine ⟨fun {r v} hc ht => ?_, fun {r v} hc ht => ?_, fun {r} hc => ?_⟩
    · show ∃ (x : Option T.Carrier) (r' : Reader TreeSource),
        @EStateM.run ReadError (Reader TreeSource) (Option T.Carrier) (Schema.read (.option T)) r = .ok x r' ∧
          Schema.decodeOption T.decode (TreeSource.tokenFor r.source.coerce v (some k)).value =
            some (x.map T.plain)
      rw [Schema.read_option, EStateM.run_bind, Reader.peekKind_run_of_current hc]
      by_cases hv : v.kind = .null
      · -- a null is no value: the null read takes it as it is
        obtain rfl : v = .null := by cases v <;> simp_all [Value.kind]
        obtain ⟨r', htake⟩ := (Reader.take_run_of_current hc .null false).1
          (by rw [TreeSource.tokenFor_null]; rfl)
        rw [TreeSource.tokenFor_null] at htake
        refine ⟨none, r', ?_, ?_⟩
        · simp [Value.kind, Reader.null, EStateM.run_bind, htake]
        · rw [TreeSource.tokenFor_null]
          rfl
      · -- anything else passes as a value of the kind the shape held asks for
        have hne : (TreeSource.tokenFor r.source.coerce v (some k)).kind ≠ .null :=
          fun h => hv (TreeSource.tokenFor_kind_eq_null.1 h)
        have htk : (TreeSource.tokenFor r.source.coerce v (some k)).kind = k := by
          simp only [Kind.admits, Schema.takesNull, Bool.true_and, Bool.or_eq_true, beq_iff_eq] at ht
          exact ht.resolve_right hne
        obtain ⟨x, r', hx, hd⟩ := ih.pass hc (by simp [Kind.admits, htk])
        refine ⟨some x, r', by simp [hv, hx], ?_⟩
        simp [Schema.decodeOption, hne, hd]
    · have hne : (TreeSource.tokenFor r.source.coerce v (some k)).kind ≠ .null := by
        intro h
        simp [Kind.admits, Schema.takesNull, h] at ht
      have hv : v.kind ≠ .null := fun h => hne (TreeSource.tokenFor_kind_eq_null.2 h)
      obtain ⟨r', h⟩ := ih.refuse hc (by
        simp only [Kind.admits, Schema.takesNull, Bool.true_and, Bool.or_eq_false_iff,
          beq_eq_false_iff_ne] at ht
        cases T.takesNull <;> simp [Kind.admits, ht.1, hne])
      refine ⟨r', ?_⟩
      show @EStateM.run ReadError (Reader TreeSource) (Option T.Carrier) (Schema.read (.option T)) r = _
      rw [Schema.read_option, EStateM.run_bind, Reader.peekKind_run_of_current hc]
      simp [hv, h]
      rfl
    · show ∃ r', @EStateM.run ReadError (Reader TreeSource) (Option T.Carrier) (Schema.read (.option T)) r = _
      rw [Schema.read_option, EStateM.run_bind, Reader.peekKind_run_of_none hc]
      exact ⟨r, rfl⟩

namespace Reader.Client

/-- What the coercing client may answer at a call of one value at which the strict client `c`
was refused with `e`: the same refusal, or, where a conversion changed the node, what the call
gives on the converted node. A container is never converted, so opening one is refused alike.
Calls that read several values, or read no kind, are left open. -/
def AnswersConverted (c : Client TreeSource) (e : ReadError) : Call → Answer → Prop
  | .scalar sr, a => ∃ v, c.reader.source.current = some v ∧ e = .mismatch sr.kind v.kind none ∧
      (a = .failed e ∨ (TreeSource.nodeToken v).coerce sr.kind ≠ TreeSource.nodeToken v ∧
        a = .scalar (sr.expect (v.coerceTo sr.kind)))
  | .array _, a => ∃ v, c.reader.source.current = some v ∧ e = .mismatch .array v.kind none ∧
      a = .failed e
  | .object _ _, a => ∃ v, c.reader.source.current = some v ∧ e = .mismatch .object v.kind none ∧
      a = .failed e
  | .typed T, a => ∀ k, T.scalarKind = some k →
      ∃ v, c.reader.source.current = some v ∧ e = .mismatch k v.kind none ∧
        (a = .failed e ∨ ∃ x, (TreeSource.nodeToken v).coerce k ≠ TreeSource.nodeToken v ∧
          T.decode (v.coerceTo k) = some x ∧ a.erase = .typed ⟨T, x⟩)
  | _, _ => True

/-- At a call of one value at which the strict client is refused a kind, the coercing client is
refused alike or answers with the converted node. -/
theorem step_coercing_refused {c : Client TreeSource} {call : Call} {e : ReadError}
    (hs : c.reader.source.coerce = false) (h : c.step call = (.failed e, none))
    (he : e.isMismatch = true) : c.AnswersConverted e call (c.coercing.step call).1 := by
  obtain ⟨e', r, he', hrun⟩ := step_eq_none h
  cases he'
  -- each call of one value is a read of one node (`ReadsOne`): what the strict read is refused,
  -- the coercing read is refused alike or reads the node converted
  cases call with
  | scalar sr =>
    obtain ⟨v, hc, hev, hco⟩ := (ScalarRead.readsOne sr).coercing_refused hs
      (EStateM.run_bind_pure_eq_error.1 hrun) he
    refine ⟨v, hc, hev, ?_⟩
    -- refused alike, or the converted node read
    rcases hco with ⟨r₂, h₂⟩ | ⟨x, r₂, hne, h₂, hd⟩
    · have h₂' : (Call.run c.cursors (.scalar sr)).run c.reader.coercing = .error e r₂ :=
        EStateM.run_bind_pure_eq_error.2 h₂
      left
      rw [step_of_run_error (c := c.coercing) h₂']
    · have hx : x = sr.expect (v.coerceTo sr.kind) := (Option.some.inj hd).symm
      subst hx
      have h₂' : (Call.run c.cursors (.scalar sr)).run c.reader.coercing =
          .ok (.scalar (sr.expect (v.coerceTo sr.kind)), c.cursors) r₂ := by
        simp [Call.run, h₂]
      right
      refine ⟨hne, ?_⟩
      rw [step_of_run_ok (c := c.coercing) h₂']
  | array orNull =>
    -- no conversion makes an array, so the coercing client is refused alike
    obtain ⟨v, hc, hev, r₂, h₂⟩ := (Call.openArray_readsOne orNull).coercing_refused_alike
      (Token.coerce_container (.inl rfl)) hs (EStateM.run_bind_pure_eq_error.1 hrun) he
    have h₂' : (Call.run c.cursors (.array orNull)).run c.reader.coercing = .error e r₂ :=
      EStateM.run_bind_pure_eq_error.2 h₂
    refine ⟨v, hc, hev, ?_⟩
    rw [step_of_run_error (c := c.coercing) h₂']
  | object orNull names =>
    -- nor an object
    obtain ⟨v, hc, hev, r₂, h₂⟩ := (Call.openObject_readsOne orNull).coercing_refused_alike
      (Token.coerce_container (.inr rfl)) hs (EStateM.run_bind_pure_eq_error.1 hrun) he
    have h₂' : (Call.run c.cursors (.object orNull names)).run c.reader.coercing =
        .error e r₂ :=
      EStateM.run_bind_pure_eq_error.2 h₂
    refine ⟨v, hc, hev, ?_⟩
    rw [step_of_run_error (c := c.coercing) h₂']
  | typed T =>
    -- a shape read from one scalar converts as that scalar's read does, and its answer holds the
    -- decoded value
    intro k hk
    obtain ⟨v, hc, hev, hco⟩ := (Schema.readsOne T hk).coercing_refused hs
      (EStateM.run_bind_pure_eq_error.1 hrun) he
    refine ⟨v, hc, hev, ?_⟩
    rcases hco with ⟨r₂, h₂⟩ | ⟨x, r₂, hne, h₂, hd⟩
    · have h₂' : (Call.run c.cursors (.typed T)).run c.reader.coercing = .error e r₂ :=
        EStateM.run_bind_pure_eq_error.2 h₂
      left
      rw [step_of_run_error (c := c.coercing) h₂']
    · have h₂' : (Call.run c.cursors (.typed T)).run c.reader.coercing =
          .ok (.typed ⟨T, x⟩, c.cursors) r₂ := by
        simp [Call.run, h₂]
      right
      refine ⟨T.plain x, hne, hd, ?_⟩
      rw [step_of_run_ok (c := c.coercing) h₂']
      rfl
  -- the other calls ask for no kind
  | _ => trivial

/-- Looking at the next value reports the kind stored in the tree and changes nothing, coercion
on or off. -/
theorem step_peek {c : Client TreeSource} {v : Value} (hc : c.reader.source.current = some v) :
    c.step .peek = (.kind v.kind, some c) :=
  step_of_run_ok (by simp [Call.run, Reader.peekKind_run_of_current hc])

end Reader.Client

/-- Coercion extends strict reading of a tree, call by call. Over a run in which the strict
client is never refused a kind, the coercing client gives the same answers. Otherwise it gives
the same answers up to the first call at which the strict client is refused, and goes on from
there as the twin of the strict client at that call; at that call a read of one value, a scalar
or a typed read of a scalar shape, is refused alike or answers with the node converted by one of
the four conversions, and opening a container is refused alike. Looking at the next value reports
the kind stored in the tree, coercion on or off. -/
theorem coercion_extends_strict (v : Value) :
    (∀ calls : List Reader.Call,
      (∀ e, Reader.Answer.failed e ∈
          (Reader.Client.ofSource (TreeSource.ofValue v false)).run calls → e.isMismatch = false) →
        (Reader.Client.ofSource (TreeSource.ofValue v true)).run calls =
          (Reader.Client.ofSource (TreeSource.ofValue v false)).run calls) ∧
    (∀ (pre : List Reader.Call) (call : Reader.Call) (post : List Reader.Call)
        (c : Reader.Client TreeSource) (e : ReadError),
      (Reader.Client.ofSource (TreeSource.ofValue v false)).after pre = some c →
        c.step call = (.failed e, none) → e.isMismatch = true →
        (Reader.Client.ofSource (TreeSource.ofValue v true)).run (pre ++ call :: post) =
            (Reader.Client.ofSource (TreeSource.ofValue v false)).run pre ++
              c.coercing.run (call :: post) ∧
          c.AnswersConverted e call (c.coercing.step call).1) ∧
    (∀ (c : Reader.Client TreeSource) (node : Value), c.reader.source.current = some node →
      c.step .peek = (.kind node.kind, some c)) := by
  have hs : (Reader.Client.ofSource (TreeSource.ofValue v false)).reader.source.coerce = false := rfl
  rw [← Reader.Client.ofSource_coercing]
  refine ⟨fun calls h => Reader.Client.run_coercing hs calls h, ?_,
    fun c node hc => Reader.Client.step_peek hc⟩
  intro pre call post c e ha hstep he
  -- the strict client stands at `c` after `pre`, and it is strict still
  obtain ⟨hsc, -⟩ := Reader.Client.after_coercing hs ha
  exact ⟨Reader.Client.run_coercing_append hs ha _,
    Reader.Client.step_coercing_refused hsc hstep he⟩

/-- The string `on` read as a boolean: refused strictly, read as `true` with coercion. -/
theorem coercion_extends_strict_word :
    (Reader.Client.ofSource (TreeSource.ofValue (.string "on") false)).step (.scalar .bool) =
        (.failed (.mismatch .bool .string none), none) ∧
      (Reader.Client.ofSource (TreeSource.ofValue (.string "on") false)).AnswersConverted
        (.mismatch .bool .string none) (.scalar .bool)
        ((Reader.Client.ofSource (TreeSource.ofValue (.string "on") false)).coercing.step
          (.scalar .bool)).1 :=
  ⟨rfl, ((coercion_extends_strict (.string "on")).2.1 [] (.scalar .bool) [] _ _ rfl rfl rfl).2⟩

/-- A typed read of a list goes on past a converted element. Strictly, `["on", 0]` read as a list
of booleans is refused at the string; with coercion the string becomes `true` and the read is
refused at the number instead, with another mismatch. -/
theorem coercion_changes_composite_refusal :
    (Reader.Client.ofSource (TreeSource.ofValue
        (.array [.string "on", .number (Double.zero false)]) false)).run [.typed (.list .bool)] =
      [.failed (.mismatch .bool .string none)] ∧
    (Reader.Client.ofSource (TreeSource.ofValue
        (.array [.string "on", .number (Double.zero false)]) true)).run [.typed (.list .bool)] =
      [.failed (.mismatch .bool .number none)] :=
  ⟨rfl, rfl⟩

end JsonCodec
