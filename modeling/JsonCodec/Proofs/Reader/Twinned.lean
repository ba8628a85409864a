import JsonCodec.Proofs.Reader.Alike

/-! # Reading a tree with coercion on and off

A tree read with coercion on (`TreeSource.coercing`) differs from the strict one in one place:
when a kind is asked for and the next node is a scalar that one of the four conversions of
`Token.coerce` turns into that kind, it hands out the converted token where the strict source
refuses the node. Every other step ignores the flag; in particular `peekKind` reports the kind
stored in the tree.

`EStateM.Twinned` says of a step that it runs alike from a state and from its twin: whatever the
first run returns the second returns, the two ending twins, and an error of the first that is
kept the second reports too. It holds of `pure` and `throw` and is closed under `bind`. Here the
twin of a strict reader is the same reader with coercion on, and every error but a mismatch is
kept (`Reader.CoercesAlike`). The steps of a tree source have it (`TreeSource.nextValue_coercesAlike`:
a token that passes the strict check is not converted), and every operation of the reader
inherits it, down to every call a client makes (`Reader.Call.run_coercesAlike`). Skipping and
reading a whole value ask for no kind, and so never meet a conversion at all.
-/

/-! ### Steps that run alike from twin states -/

namespace EStateM

/-- A step that runs alike from a state with `p` and from its twin `f s`: whatever the first run
returns the second returns, both ending in twins, the first again with `p`; an error of the first
that `keep` holds of, the second reports too. -/
structure Twinned {ε σ α : Type} (p : σ → Prop) (f : σ → σ) (keep : ε → Prop)
    (m : EStateM ε σ α) : Prop where
  ok {s s' : σ} {a : α} : p s → m.run s = .ok a s' → p s' ∧ m.run (f s) = .ok a (f s')
  error {s s' : σ} {e : ε} : p s → m.run s = .error e s' → keep e →
    ∃ s'', m.run (f s) = .error e s''

namespace Twinned

variable {ε σ α β : Type} {p : σ → Prop} {f : σ → σ} {keep : ε → Prop}

/-- A step that only returns runs alike from twin states. -/
theorem pure (a : α) : Twinned p f keep (Pure.pure a : EStateM ε σ α) where
  ok hs h := by
    simp only [run_pure, Result.ok.injEq] at h
    obtain ⟨rfl, rfl⟩ := h
    exact ⟨hs, rfl⟩
  error _ h := by simp at h

/-- A step that only fails runs alike from twin states: the twin fails with the same error. -/
theorem throw (e : ε) : Twinned p f keep (MonadExcept.throw e : EStateM ε σ α) where
  ok _ h := by cases h
  error {s s' e'} _ h _ := by
    cases h
    exact ⟨f s, rfl⟩

/-- Running alike is closed under sequencing: a step, then a step chosen by its result. -/
theorem bind {m : EStateM ε σ α} {g : α → EStateM ε σ β} (hm : Twinned p f keep m)
    (hg : ∀ a, Twinned p f keep (g a)) : Twinned p f keep (m >>= g) where
  ok hs h := by
    obtain ⟨a, s₁, h₁, h₂⟩ := run_bind_eq_ok.1 h
    obtain ⟨hs₁, h₁'⟩ := hm.ok hs h₁
    obtain ⟨hs', h₂'⟩ := (hg a).ok hs₁ h₂
    exact ⟨hs', by rw [run_bind, h₁']; exact h₂'⟩
  error {s s' e} hs h he := by
    rw [run_bind] at h
    -- the error comes from the first step, or from the second after the first succeeded
    cases h₁ : m.run s with
    | ok a s₁ =>
      rw [h₁] at h
      obtain ⟨hs₁, h₁'⟩ := hm.ok hs h₁
      obtain ⟨s'', h₂'⟩ := (hg a).error hs₁ h he
      exact ⟨s'', by rw [run_bind, h₁']; exact h₂'⟩
    | error e' s₁ =>
      rw [h₁] at h
      cases h
      obtain ⟨s'', h₁'⟩ := hm.error hs h₁ he
      exact ⟨s'', by rw [run_bind, h₁']⟩

/-- A step that goes on as the state says, where twins say the same. -/
theorem get_bind {g : σ → EStateM ε σ β} (hg : ∀ s, Twinned p f keep (g s))
    (hf : ∀ s, g (f s) = g s) : Twinned p f keep (MonadState.get >>= g) where
  ok {s s' a} hs h := by
    change (g s).run s = _ at h
    change p s' ∧ (g (f s)).run (f s) = _
    rw [hf]
    exact (hg s).ok hs h
  error {s s' e} hs h he := by
    change (g s).run s = _ at h
    change ∃ s'', (g (f s)).run (f s) = _
    rw [hf]
    exact (hg s).error hs h he

/-- A change of the state that keeps `p` and commutes with taking the twin. -/
theorem modify {g : σ → σ} (hp : ∀ s, p s → p (g s)) (hg : ∀ s, g (f s) = f (g s)) :
    Twinned p f keep (modify g : EStateM ε σ PUnit) where
  ok {s s' u} hs h := by
    rw [run_modify] at h ⊢
    cases h
    exact ⟨hp s hs, by rw [hg]⟩
  error _ h := by simp at h

/-- Mapping the result of a step keeps it running alike. -/
theorem map {m : EStateM ε σ α} (hm : Twinned p f keep m) (g : α → β) :
    Twinned p f keep (g <$> m) := by
  rw [map_eq_pure_bind]
  exact hm.bind fun a => .pure (g a)

end Twinned

/-- A step followed by a pure function of its result fails exactly where the step fails. -/
theorem run_bind_pure_eq_error {ε σ α β : Type} {x : EStateM ε σ α} {g : α → β} {s s' : σ}
    {e : ε} : (x >>= fun a => pure (g a)).run s = .error e s' ↔ x.run s = .error e s' := by
  rw [run_bind]
  cases x.run s <;> simp

end EStateM

namespace JsonCodec

/-- Whether an error is a mismatch of kinds: a value of another kind than the one asked for. -/
def ReadError.isMismatch : ReadError → Bool
  | .mismatch .. => true
  | _ => false

/-! ### The twin with coercion on -/

/-- The same walk over the tree, with coercion on. -/
def TreeSource.coercing (t : TreeSource) : TreeSource := { t with coerce := true }

/-- The same reader, its tree walked with coercion on. -/
def Reader.coercing (r : Reader TreeSource) : Reader TreeSource :=
  { r with source := r.source.coercing }

/-- A step of a tree source that coercion changes only where the strict source refuses a kind. -/
abbrev TreeSource.CoercesAlike {α : Type} (m : EStateM ReadError TreeSource α) : Prop :=
  EStateM.Twinned (fun t : TreeSource => t.coerce = false) TreeSource.coercing
    (fun e => e.isMismatch = false) m

/-- A step of a reader over a tree that coercion changes only where the strict reader is refused
a kind. -/
abbrev Reader.CoercesAlike {α : Type} (m : ReadM TreeSource α) : Prop :=
  EStateM.Twinned (fun r : Reader TreeSource => r.source.coerce = false) Reader.coercing
    (fun e => e.isMismatch = false) m

namespace TreeSource

/-- A node whose token passes the strict check is not converted: taken with coercion on, it is
the same token. -/
theorem tokenFor_coercing {node : Value} {desired : Option Kind} {allowNull : Bool} {tok : Token}
    (h : (tokenFor false node desired).check desired allowNull none = .ok tok) :
    tokenFor true node desired = tokenFor false node desired := by
  cases desired with
  | none => rfl
  | some k =>
    -- the strict token passes the check only when the node's kind is admitted, and then coercion
    -- leaves it
    have hk : node.kind.admits (some k) allowNull := by
      have h' := h
      simp only [tokenFor, Bool.false_eq_true, if_false] at h'
      cases hck : node.kind.admits (some k) allowNull
      · have hna : (nodeToken node).kind.admits (some k) allowNull = false := by
          rw [nodeToken_kind]
          exact hck
        rw [Token.check_of_not_admits hna] at h'
        cases h'
      · rfl
    simp only [tokenFor, if_true, Bool.false_eq_true, if_false]
    exact coerce_of_admits hk

/-- Taking the next node: coercion changes the result only where the strict check refuses it. -/
theorem nextValue_coercesAlike (desired : Option Kind) (allowNull : Bool) :
    CoercesAlike (nextValue desired allowNull) where
  ok {t t' tok} hs h := by
    cases hc : t.current with
    | none => rw [nextValue_run_of_none hc] at h; cases h
    | some node =>
      have hc' : t.coercing.current = some node := hc
      rw [nextValue_run_of_current hc] at h
      rw [nextValue_run_of_current hc']
      split at h
      · cases h
      · next _ hcheck =>
        cases h
        refine ⟨hs, ?_⟩
        rw [hs] at hcheck
        have hcheck' : (tokenFor t.coercing.coerce node desired).check desired allowNull none =
            .ok tok := by
          rw [show t.coercing.coerce = true from rfl, tokenFor_coercing hcheck, hcheck]
        rw [hcheck']
        rfl
  error {t t' e} hs h he := by
    cases hc : t.current with
    | none =>
      rw [nextValue_run_of_none hc] at h
      cases h
      exact ⟨t.coercing, nextValue_run_of_none (show t.coercing.current = none from hc) _ _⟩
    | some node =>
      -- the strict check is the only step that fails, and it fails with a mismatch
      rw [nextValue_run_of_current hc] at h
      split at h
      · next e' hcheck =>
        cases h
        have hm : e.isMismatch = true := by
          cases desired with
          | none => cases hcheck
          | some k =>
            simp only [Token.check] at hcheck
            split at hcheck
            · cases hcheck
            · cases hcheck
              rfl
        rw [hm] at he
        cases he
      · cases h

/-- Looking at the kind of the next node reads the tree's own kind, so coercion changes nothing. -/
theorem peekKind_coercesAlike : CoercesAlike peekKind where
  ok {t t' k} hs h := by
    have hc : t.coercing.current = t.current := rfl
    simp only [peekKind, EStateM.run_bind, EStateM.run_get] at h ⊢
    rw [hc]
    -- the look reads only the current node, which the twin shares, and changes nothing
    split at h
    · cases h
    · simp only [EStateM.run_pure, EStateM.Result.ok.injEq] at h ⊢
      obtain ⟨rfl, rfl⟩ := h
      exact ⟨hs, rfl, rfl⟩
  error {t t' e} _ h _ := by
    have hc : t.coercing.current = t.current := rfl
    simp only [peekKind, EStateM.run_bind, EStateM.run_get] at h ⊢
    rw [hc]
    split at h
    · cases h
      exact ⟨t.coercing, rfl⟩
    · simp at h

/-- Stepping an array's walk ignores coercion: the frames are the same in the twin. -/
theorem arrayNext_coercesAlike : CoercesAlike arrayNext where
  ok {t t' more} hs h := by
    have hf : t.coercing.frames = t.frames := rfl
    simp only [arrayNext, EStateM.run_bind, EStateM.run_get] at h ⊢
    rw [hf]
    -- each branch reads the frames, which the twin shares, and sets the walk's fields but not the
    -- flag
    split at h
    · simp only [EStateM.run_bind, EStateM.run_set, EStateM.run_pure,
        EStateM.Result.ok.injEq] at h ⊢
      obtain ⟨rfl, rfl⟩ := h
      exact ⟨hs, rfl, rfl⟩
    · simp only [EStateM.run_bind, EStateM.run_set, EStateM.run_pure,
        EStateM.Result.ok.injEq] at h ⊢
      obtain ⟨rfl, rfl⟩ := h
      exact ⟨hs, rfl, rfl⟩
    · cases h
  error {t t' e} _ h _ := by
    have hf : t.coercing.frames = t.frames := rfl
    simp only [arrayNext, EStateM.run_bind, EStateM.run_get] at h ⊢
    rw [hf]
    -- only stepping outside an array fails, and the twin is outside one too
    split at h
    · simp at h
    · simp at h
    · cases h
      exact ⟨t.coercing, rfl⟩

/-- Stepping an object's walk ignores coercion: the frames, and so the member names, are the same in
the twin. -/
theorem objectNext_coercesAlike : CoercesAlike objectNext where
  ok {t t' name} hs h := by
    have hf : t.coercing.frames = t.frames := rfl
    simp only [objectNext, EStateM.run_bind, EStateM.run_get] at h ⊢
    rw [hf]
    -- each branch reads the frames, which the twin shares, and sets the walk's fields but not the
    -- flag
    split at h
    · simp only [EStateM.run_bind, EStateM.run_set, EStateM.run_pure,
        EStateM.Result.ok.injEq] at h ⊢
      obtain ⟨rfl, rfl⟩ := h
      exact ⟨hs, rfl, rfl⟩
    · simp only [EStateM.run_bind, EStateM.run_set, EStateM.run_pure,
        EStateM.Result.ok.injEq] at h ⊢
      obtain ⟨rfl, rfl⟩ := h
      exact ⟨hs, rfl, rfl⟩
    · cases h
  error {t t' e} _ h _ := by
    have hf : t.coercing.frames = t.frames := rfl
    simp only [objectNext, EStateM.run_bind, EStateM.run_get] at h ⊢
    rw [hf]
    -- only stepping outside an object fails, and the twin is outside one too
    split at h
    · simp at h
    · simp at h
    · cases h
      exact ⟨t.coercing, rfl⟩

end TreeSource

/-! ### The reader's operations -/

namespace Reader

/-- A step of the tree run by the reader keeps to coercion as the step does. -/
theorem lift_coercesAlike {α : Type} {m : EStateM ReadError TreeSource α}
    (h : TreeSource.CoercesAlike m) : CoercesAlike (lift m) where
  ok {r r' a} hs hr := by
    -- the reader's other fields ride along unchanged
    rw [run_lift] at hr
    split at hr
    · next a' t' hm =>
      simp only [EStateM.Result.ok.injEq] at hr
      obtain ⟨rfl, rfl⟩ := hr
      obtain ⟨ht', hm'⟩ := h.ok hs hm
      refine ⟨ht', ?_⟩
      rw [run_lift, show r.coercing.source = r.source.coercing from rfl, hm']
      rfl
    · cases hr
  error {r r' e} hs hr he := by
    rw [run_lift] at hr
    split at hr
    · cases hr
    · next e' t' hm =>
      simp only [EStateM.Result.error.injEq] at hr
      obtain ⟨rfl, rfl⟩ := hr
      obtain ⟨t'', hm'⟩ := h.error hs hm he
      refine ⟨{ r.coercing with source := t'' }, ?_⟩
      rw [run_lift, show r.coercing.source = r.source.coercing from rfl, hm']

/-- Pulling the next token through the reader keeps to coercion as the tree's step does. -/
theorem pull_coercesAlike (desired : Option Kind) (allowNull : Bool) :
    CoercesAlike (lift (Source.nextValue desired allowNull) : ReadM TreeSource Token) :=
  lift_coercesAlike (TreeSource.nextValue_coercesAlike desired allowNull)

/-- Recording whether a value awaits touches the reader alone. -/
theorem setAwaiting_coercesAlike (b : Bool) :
    CoercesAlike (modify fun r : Reader TreeSource => { r with awaiting := b }) :=
  EStateM.Twinned.modify (fun _ h => h) fun _ => rfl

/-- Starting a read touches the awaiting flag alone. -/
theorem beginRead_coercesAlike : CoercesAlike (beginRead : ReadM TreeSource Unit) :=
  setAwaiting_coercesAlike false

/-- A step that goes on as the reader's offset, awaiting flag or budget say: these are the same
in a reader and its twin. -/
theorem get_bind_coercesAlike {β : Type} {g : Reader TreeSource → ReadM TreeSource β}
    (hg : ∀ r, CoercesAlike (g r)) (hf : ∀ r, g r.coercing = g r) :
    CoercesAlike (MonadState.get >>= g) :=
  EStateM.Twinned.get_bind hg hf

/-- Taking a token of a kind: coercion changes the token only where the strict check refuses it. -/
theorem take_coercesAlike (k : Kind) (allowNull : Bool) :
    CoercesAlike (take k allowNull : ReadM TreeSource Token) :=
  beginRead_coercesAlike.bind fun _ => pull_coercesAlike _ _

/-- Reporting a mismatch reads the reader's offset, which the twin shares. -/
theorem mismatch_coercesAlike {α : Type} (expected : Kind) (t : Token) :
    CoercesAlike (mismatch expected t : ReadM TreeSource α) :=
  get_bind_coercesAlike (fun _ => .throw _) fun _ => rfl

/-- A read that takes a token of a kind and goes on by the token alone. -/
theorem take_bind {β : Type} {k : Kind} {allowNull : Bool} {g : Token → ReadM TreeSource β}
    (hg : ∀ t, CoercesAlike (g t)) : CoercesAlike (take k allowNull >>= g) :=
  (take_coercesAlike k allowNull).bind hg

/-- Reading `null` keeps to coercion. -/
theorem null_coercesAlike : CoercesAlike (null : ReadM TreeSource Unit) :=
  take_bind fun t => by cases t <;> first | exact .pure _ | exact mismatch_coercesAlike _ _

/-- Reading a boolean: the coercing reader answers as the strict one wherever the strict one is not
refused. -/
theorem bool_coercesAlike : CoercesAlike (bool : ReadM TreeSource Bool) :=
  take_bind fun t => by cases t <;> first | exact .pure _ | exact mismatch_coercesAlike _ _

/-- Reading a boolean or null keeps to coercion. -/
theorem boolOrNull_coercesAlike : CoercesAlike (boolOrNull : ReadM TreeSource (Option Bool)) :=
  take_bind fun t => by cases t <;> first | exact .pure _ | exact mismatch_coercesAlike _ _

/-- Reading a number: the coercing reader answers as the strict one wherever the strict one is not
refused. -/
theorem double_coercesAlike : CoercesAlike (double : ReadM TreeSource Double) :=
  take_bind fun t => by cases t <;> first | exact .pure _ | exact mismatch_coercesAlike _ _

/-- Reading a number or null keeps to coercion. -/
theorem doubleOrNull_coercesAlike :
    CoercesAlike (doubleOrNull : ReadM TreeSource (Option Double)) :=
  take_bind fun t => by cases t <;> first | exact .pure _ | exact mismatch_coercesAlike _ _

/-- Reading a string: the coercing reader answers as the strict one wherever the strict one is not
refused. -/
theorem string_coercesAlike : CoercesAlike (string : ReadM TreeSource Text) :=
  take_bind fun t => by cases t <;> first | exact .pure _ | exact mismatch_coercesAlike _ _

/-- Reading a string or null keeps to coercion. -/
theorem stringOrNull_coercesAlike : CoercesAlike (stringOrNull : ReadM TreeSource (Option Text)) :=
  take_bind fun t => by cases t <;> first | exact .pure _ | exact mismatch_coercesAlike _ _

/-- Opening an array keeps to coercion: a container is never converted. -/
theorem array_coercesAlike : CoercesAlike (array : ReadM TreeSource ArrayCursor) :=
  take_bind fun t => by cases t <;> first | exact .pure _ | exact mismatch_coercesAlike _ _

/-- Opening an array or null keeps to coercion. -/
theorem arrayOrNull_coercesAlike : CoercesAlike (arrayOrNull : ReadM TreeSource ArrayCursor) :=
  take_bind fun t => by cases t <;> first | exact .pure _ | exact mismatch_coercesAlike _ _

/-- Opening an object keeps to coercion: a container is never converted. -/
theorem object_coercesAlike : CoercesAlike (object : ReadM TreeSource ObjectCursor) :=
  take_bind fun t => by cases t <;> first | exact .pure _ | exact mismatch_coercesAlike _ _

/-- Opening an object or null keeps to coercion. -/
theorem objectOrNull_coercesAlike : CoercesAlike (objectOrNull : ReadM TreeSource ObjectCursor) :=
  take_bind fun t => by cases t <;> first | exact .pure _ | exact mismatch_coercesAlike _ _

/-- Reading any token asks for no kind, so coercion never converts it. -/
theorem any_coercesAlike : CoercesAlike (any : ReadM TreeSource Token) :=
  beginRead_coercesAlike.bind fun _ => pull_coercesAlike _ _

/-- Looking at the next kind through the reader keeps to coercion. -/
theorem peekKind_coercesAlike : CoercesAlike (peekKind : ReadM TreeSource Kind) :=
  lift_coercesAlike TreeSource.peekKind_coercesAlike

/-- The check for the end reads the reader's own flags, which the twin shares. -/
theorem isEof_coercesAlike : CoercesAlike (isEof : ReadM TreeSource Bool) where
  ok {r r' b} hs h := by
    cases h
    exact ⟨hs, rfl⟩
  error _ h := by cases h

/-- Finishing a document looks at what is left, and fails alike when something is. -/
theorem finish_coercesAlike : CoercesAlike (finish : ReadM TreeSource Unit) :=
  isEof_coercesAlike.bind fun b => by
    cases b
    · exact peekKind_coercesAlike.bind fun _ => get_bind_coercesAlike (fun _ => .throw _) fun _ => rfl
    · exact .pure _

/-- Running out of budget fails alike in the twin. -/
theorem exhausted_coercesAlike {α : Type} : CoercesAlike (exhausted : ReadM TreeSource α) :=
  get_bind_coercesAlike (fun _ => .throw _) fun _ => rfl

/-! #### Skipping and reading whole values, which ask for no kind -/

/-- One step of the innermost open container, array or object, keeps to coercion. -/
theorem containerNext_coercesAlike (inArray first : Bool) :
    CoercesAlike (containerNext inArray first : ReadM TreeSource Bool) := by
  cases inArray
  · exact (lift_coercesAlike TreeSource.objectNext_coercesAlike).bind fun _ => .pure _
  · exact lift_coercesAlike TreeSource.arrayNext_coercesAlike

/-- Stepping out of the open containers keeps to coercion. -/
theorem stepOut_coercesAlike :
    ∀ (first : Bool) (stack : List Bool), CoercesAlike (stepOut first stack : ReadM TreeSource _)
  | _, [] => .pure _
  | first, inArray :: rest => by
    rw [stepOut_cons]
    exact (containerNext_coercesAlike inArray first).bind fun more => by
      cases more
      · exact stepOut_coercesAlike false rest
      · exact .pure _

/-- The skip loop keeps to coercion at any fuel: it asks for no kind. -/
theorem skipLoop_coercesAlike :
    ∀ (fuel : Nat) (stack : List Bool), CoercesAlike (skipLoop fuel stack : ReadM TreeSource Unit)
  | 0, _ => exhausted_coercesAlike
  | fuel + 1, stack => by
    -- after each token the open containers step on, and the loop goes on with less fuel
    have hrest : ∀ first S, CoercesAlike (skipRest first fuel S : ReadM TreeSource Unit) :=
      fun first S => by
        rw [skipRest_eq]
        exact (stepOut_coercesAlike first S).bind fun S' => by
          split
          · exact .pure _
          · exact skipLoop_coercesAlike fuel S'
    rw [skipLoop_succ]
    exact (pull_coercesAlike none true).bind fun t => by cases t <;> exact hrest _ _

/-- Skipping a value keeps to coercion. -/
theorem skipValue_coercesAlike : CoercesAlike (skipValue : ReadM TreeSource Unit) :=
  beginRead_coercesAlike.bind fun _ =>
    get_bind_coercesAlike (fun _ => skipLoop_coercesAlike _ _) fun _ => rfl

/-- Settling a finished value into the containers open around it keeps to coercion. -/
theorem settle_coercesAlike :
    ∀ (stack : List Open) (v : Value), CoercesAlike (settle v stack : ReadM TreeSource _)
  | [], _ => .pure _
  | .array items :: rest, v => by
    rw [settle_array]
    exact (lift_coercesAlike TreeSource.arrayNext_coercesAlike).bind fun more => by
      cases more
      · exact settle_coercesAlike rest _
      · exact .pure _
  | .object members name :: rest, v => by
    rw [settle_object]
    exact (lift_coercesAlike TreeSource.objectNext_coercesAlike).bind fun n => by
      cases n
      · exact settle_coercesAlike rest _
      · exact .pure _

/-- The loop that reads a whole value keeps to coercion at any fuel: it asks for no kind. -/
theorem valueLoop_coercesAlike :
    ∀ (fuel : Nat) (stack : List Open), CoercesAlike (valueLoop fuel stack : ReadM TreeSource Value)
  | 0, _ => exhausted_coercesAlike
  | fuel + 1, stack => by
    -- the token taken opens a container or settles a scalar; what is left is read on
    have hstep : ∀ t, CoercesAlike (valueStep t stack : ReadM TreeSource _) := fun t => by
      cases t with
      | arrayStart =>
        exact (lift_coercesAlike TreeSource.arrayNext_coercesAlike).bind fun more => by
          cases more
          · exact settle_coercesAlike stack _
          · exact .pure _
      | objectStart =>
        exact (lift_coercesAlike TreeSource.objectNext_coercesAlike).bind fun n => by
          cases n
          · exact settle_coercesAlike stack _
          · exact .pure _
      | _ => exact settle_coercesAlike stack _
    have hrest : ∀ x, CoercesAlike (valueRest fuel x : ReadM TreeSource Value) := fun x => by
      cases x with
      | inl v => exact .pure v
      | inr S => exact valueLoop_coercesAlike fuel S
    rw [valueLoop_succ]
    exact (pull_coercesAlike none true).bind fun t => (hstep t).bind hrest

/-- Reading a whole value keeps to coercion. -/
theorem value_coercesAlike : CoercesAlike (value : ReadM TreeSource Value) :=
  beginRead_coercesAlike.bind fun _ =>
    get_bind_coercesAlike (fun _ => valueLoop_coercesAlike _ _) fun _ => rfl

/-! #### Cursors -/

/-- Moving an array's cursor to its next element, skipping what was left unread, keeps to
coercion. -/
theorem advanceArray_coercesAlike (first : Bool) :
    CoercesAlike (advanceArray first : ReadM TreeSource Bool) := by
  have hjp : CoercesAlike (lift (Source.arrayNext first) >>= fun more =>
      modify (fun r : Reader TreeSource => { r with awaiting := more }) >>= fun _ => pure more) :=
    (lift_coercesAlike TreeSource.arrayNext_coercesAlike).bind fun more =>
      (setAwaiting_coercesAlike more).bind fun _ => .pure _
  refine get_bind_coercesAlike (fun r => ?_) fun _ => rfl
  dsimp only
  split
  · exact skipValue_coercesAlike.bind fun _ => hjp
  · exact hjp

/-- Moving an object's cursor to its next member, skipping what was left unread, keeps to
coercion. -/
theorem advanceObject_coercesAlike (first : Bool) :
    CoercesAlike (advanceObject first : ReadM TreeSource (Option Text)) := by
  have hjp : CoercesAlike (lift (Source.objectNext first) >>= fun name =>
      modify (fun r : Reader TreeSource => { r with awaiting := name.isSome }) >>= fun _ =>
        pure name) :=
    (lift_coercesAlike TreeSource.objectNext_coercesAlike).bind fun name =>
      (setAwaiting_coercesAlike name.isSome).bind fun _ => .pure _
  refine get_bind_coercesAlike (fun r => ?_) fun _ => rfl
  dsimp only
  split
  · exact skipValue_coercesAlike.bind fun _ => hjp
  · exact hjp

end Reader

/-- Stepping an array cursor keeps to coercion. -/
theorem ArrayCursor.next_coercesAlike (c : ArrayCursor) :
    Reader.CoercesAlike (c.next : ReadM TreeSource _) := by
  unfold ArrayCursor.next
  split
  · exact .pure _
  · exact (Reader.advanceArray_coercesAlike _).bind fun _ => .pure _

/-- Stepping an object cursor, with its check of required names at the end, keeps to coercion. -/
theorem ObjectCursor.next_coercesAlike (c : ObjectCursor) :
    Reader.CoercesAlike (c.next : ReadM TreeSource _) := by
  unfold ObjectCursor.next
  split
  · exact .pure _
  · refine (Reader.advanceObject_coercesAlike _).bind fun name => ?_
    cases name with
    | some n => exact .pure _
    | none =>
      dsimp only
      split
      · exact Reader.get_bind_coercesAlike (fun _ => .throw _) fun _ => rfl
      · exact .pure _

/-! #### Typed reads -/

namespace Reader

/-- Reading the elements of a list keeps to coercion when reading each element does. -/
theorem listLoop_coercesAlike {α : Type} {item : ReadM TreeSource α} (hi : CoercesAlike item) :
    ∀ (fuel : Nat) (c : ArrayCursor) (acc : Array α), CoercesAlike (listLoop item fuel c acc)
  | 0, _, _ => exhausted_coercesAlike
  | fuel + 1, c, acc => by
    rw [listLoop]
    refine c.next_coercesAlike.bind fun p => ?_
    obtain ⟨more, c'⟩ := p
    cases more
    · exact .pure _
    · exact hi.bind fun x => listLoop_coercesAlike hi fuel c' (acc.push x)

/-- Reading the members of a map keeps to coercion when reading each value does. -/
theorem mapLoop_coercesAlike {α : Type} {item : ReadM TreeSource α} (hi : CoercesAlike item) :
    ∀ (fuel : Nat) (c : ObjectCursor) (acc : List (String × α)),
      CoercesAlike (mapLoop item fuel c acc)
  | 0, _, _ => exhausted_coercesAlike
  | fuel + 1, c, acc => by
    rw [mapLoop]
    refine c.next_coercesAlike.bind fun p => ?_
    obtain ⟨more, c'⟩ := p
    cases more
    · exact .pure _
    · exact hi.bind fun x => mapLoop_coercesAlike hi fuel c' _

end Reader

/-- Every typed read keeps to coercion. -/
theorem Schema.read_coercesAlike :
    ∀ T : Schema, Reader.CoercesAlike (T.read : ReadM TreeSource T.Carrier)
  | .bool => Reader.bool_coercesAlike
  | .int32 => Reader.double_coercesAlike.bind fun _ => .pure _
  | .int64 => Reader.double_coercesAlike.bind fun _ => .pure _
  | .uint32 => Reader.double_coercesAlike.bind fun _ => .pure _
  | .float => Reader.double_coercesAlike
  | .string => Reader.string_coercesAlike.bind fun _ => .pure _
  | .text => Reader.string_coercesAlike
  | .value => Reader.value_coercesAlike
  | .option T => by
    -- the peek reports the stored kind, so both readers take the same branch
    rw [Schema.read_option]
    refine Reader.peekKind_coercesAlike.bind fun k => ?_
    split
    · exact Reader.null_coercesAlike.bind fun _ => .pure _
    · exact (read_coercesAlike T).bind fun _ => .pure _
  | .list T => by
    rw [Schema.read_list]
    exact Reader.array_coercesAlike.bind fun _ => Reader.get_bind_coercesAlike
      (fun _ => Reader.listLoop_coercesAlike (read_coercesAlike T) _ _ _) fun _ => rfl
  | .map T => by
    rw [Schema.read_map]
    exact Reader.object_coercesAlike.bind fun _ => Reader.get_bind_coercesAlike
      (fun _ => Reader.mapLoop_coercesAlike (read_coercesAlike T) _ _ _) fun _ => rfl

/-! ### The calls of a client -/

/-- Every scalar read a client can make keeps to coercion. -/
theorem ScalarRead.run_coercesAlike :
    ∀ sr : ScalarRead, Reader.CoercesAlike (sr.run : ReadM TreeSource Event)
  | .null => Reader.null_coercesAlike.bind fun _ => .pure _
  | .bool => Reader.bool_coercesAlike.bind fun _ => .pure _
  | .boolOrNull => Reader.boolOrNull_coercesAlike.bind fun _ => .pure _
  | .int => (Reader.double_coercesAlike.bind fun _ => .pure _).bind fun _ => .pure _
  | .intOrNull => (Reader.doubleOrNull_coercesAlike.bind fun _ => .pure _).bind fun _ => .pure _
  | .long => (Reader.double_coercesAlike.bind fun _ => .pure _).bind fun _ => .pure _
  | .longOrNull => (Reader.doubleOrNull_coercesAlike.bind fun _ => .pure _).bind fun _ => .pure _
  | .double => Reader.double_coercesAlike.bind fun _ => .pure _
  | .doubleOrNull => Reader.doubleOrNull_coercesAlike.bind fun _ => .pure _
  | .string => Reader.string_coercesAlike.bind fun _ => .pure _
  | .stringOrNull => Reader.stringOrNull_coercesAlike.bind fun _ => .pure _

namespace Reader.Call

/-- Opening an array for a client, null allowed or not, keeps to coercion. -/
theorem openArray_coercesAlike (orNull : Bool) :
    CoercesAlike (openArray orNull : ReadM TreeSource ArrayCursor) := by
  cases orNull
  · exact array_coercesAlike
  · exact arrayOrNull_coercesAlike

/-- Opening an object for a client, null allowed or not, keeps to coercion. -/
theorem openObject_coercesAlike (orNull : Bool) :
    CoercesAlike (openObject orNull : ReadM TreeSource ObjectCursor) := by
  cases orNull
  · exact object_coercesAlike
  · exact objectOrNull_coercesAlike

/-- Every call a client makes keeps to coercion: the coercing reader answers as the strict one
wherever the strict one is not refused a kind. -/
theorem run_coercesAlike (cs : List Cursor) :
    ∀ call : Call, CoercesAlike (call.run cs : ReadM TreeSource (Answer × List Cursor))
  | .scalar sr => (ScalarRead.run_coercesAlike sr).bind fun _ => .pure _
  | .array orNull => (openArray_coercesAlike orNull).bind fun _ => .pure _
  | .object orNull _ => (openObject_coercesAlike orNull).bind fun _ => .pure _
  | .any _ => any_coercesAlike.bind fun t => by split <;> exact .pure _
  | .skip => skipValue_coercesAlike.bind fun _ => .pure _
  | .value => value_coercesAlike.bind fun _ => .pure _
  | .typed T => (Schema.read_coercesAlike T).bind fun _ => .pure _
  | .peek => peekKind_coercesAlike.bind fun _ => .pure _
  | .isEof => isEof_coercesAlike.bind fun _ => .pure _
  | .finish => finish_coercesAlike.bind fun _ => .pure _
  | .offset => get_bind_coercesAlike (fun _ => .pure _) fun _ => rfl
  | .next i => by
    -- the cursor at `i` is an array's, an object's, or missing, which reads nothing
    rw [Call.run]
    split
    · exact (ArrayCursor.next_coercesAlike _).bind fun _ => .pure _
    · exact (ObjectCursor.next_coercesAlike _).bind fun _ => .pure _
    · exact .pure _
  | .name i => by
    rw [Call.run]
    split <;> exact .pure _
  | .defined i => by
    rw [Call.run]
    split <;> exact .pure _
  | .require i _ => by
    rw [Call.run]
    split <;> exact .pure _

end Reader.Call

end JsonCodec
