import JsonCodec.Proofs.Reader.Coerce

/-! # A tree source keeps its frames

A tree source holds the node that comes next (`current`) and the containers it is inside
(`frames`), innermost first, each with the elements or members it has not handed out yet. Over
any run of a client that steps a cursor only once every cursor made after it is done
(`Reader.Client.Disciplined`) and stops at its first error, with coercion on or off, the source
stays at a walk of its tree (`Walk.Reaches`: reached from the root by taking, skipping and
stepping) and the client's cursors fit that walk (`Reader.Fits`): the open cursors are the
frames, outermost first and each of its container's kind, and a node waits in `current` exactly
when the client stands on a value in a container, or at the root before it is read
(`Reader.Client.Adapts`). A cursor's step then always finds its container innermost, so no call
fails by stepping outside a container, and the source reports its end exactly once the root has
been consumed (`TreeSource.frames_follow_cursors`).

Coercion matters only where a kind is asked for. A scalar or typed read that succeeds consumes
one node whole, whatever it converts (`TreeSource.ReadsPast`); one that fails reports a mismatch
or the end of the tree; and a typed read steps only the containers it opened itself.
-/

namespace EStateM

/-- A bind that fails failed in its first step, or in its second from where the first left the
state. -/
theorem run_bind_eq_error {ε σ α β : Type} {x : EStateM ε σ α} {f : α → EStateM ε σ β} {s s' : σ}
    {e : ε} (h : (x >>= f).run s = .error e s') :
    (∃ s₁, x.run s = .error e s₁) ∨ ∃ a s₁, x.run s = .ok a s₁ ∧ (f a).run s₁ = .error e s' := by
  rw [run_bind] at h
  cases hx : x.run s with
  | ok a s₁ =>
    rw [hx] at h
    exact .inr ⟨a, s₁, rfl, h⟩
  | error e' s₁ =>
    rw [hx] at h
    cases h
    exact .inl ⟨_, rfl⟩

end EStateM

namespace JsonCodec

/-! ### Walks of one tree -/

/-- The walks of the tree `v`: from its root, by taking, skipping or stepping. Each frame of such a
walk holds what its container has not handed out yet. -/
inductive Walk.Reaches (v : Value) : Walk → Prop
  | start : Walk.Reaches v (.start v)
  | take {w : Walk} : Walk.Reaches v w → Walk.Reaches v w.take
  | skip {w : Walk} : Walk.Reaches v w → Walk.Reaches v w.skip
  | step {w : Walk} : Walk.Reaches v w → Walk.Reaches v w.step

namespace Walk.Reaches

variable {v : Value} {w : Walk}

/-- A walk that has just entered a container is inside one. -/
theorem frames_ne_nil_of_fresh (h : w.Reaches v) (hf : w.fresh = true) : w.frames ≠ [] := by
  induction h with
  | start => simp [Walk.start] at hf
  | take _ _ =>
    unfold Walk.take at hf ⊢
    split <;> simp_all
  | skip _ _ => simp [Walk.skip] at hf
  | step _ ih =>
    unfold Walk.step at hf ⊢
    split <;> simp_all

/-- Outside every container, a walk of the tree stands on a node only at the root. -/
theorem eq_start (h : w.Reaches v) (hf : w.frames = []) (hc : w.current.isSome = true) :
    w = .start v := by
  induction h with
  | start => rfl
  | take _ _ =>
    unfold Walk.take at hc
    split at hc <;> simp at hc
  | skip _ _ => simp [Walk.skip] at hc
  | step _ ih =>
    unfold Walk.step at hf hc ⊢
    split <;> simp_all

/-- Outside every container and on no node, a walk of the tree is where reading the root whole
leaves it. -/
theorem eq_start_skip (h : w.Reaches v) (hf : w.frames = []) (hc : w.current = none) :
    w = (Walk.start v).skip := by
  obtain ⟨current, frames, fresh⟩ := w
  simp only at hf hc
  subst hf hc
  cases fresh
  · rfl
  · exact absurd rfl (h.frames_ne_nil_of_fresh rfl)

/-- Whatever a call does to a walk keeps it a walk of the tree. -/
theorem onWalk (h : w.Reaches v) (call : Reader.Call) (V : Bool × List Reader.Cursor) :
    (call.onWalk V w).2.Reaches v := by
  cases call <;> simp only [Reader.Call.onWalk, Reader.onValue] <;> repeat' split
  all_goals first | exact h | exact h.skip | exact h.take | exact h.step

end Walk.Reaches

/-- A token passes the check for a kind only if its kind is admitted. -/
theorem Token.admits_of_check_eq_ok {t t' : Token} {k : Kind} {allowNull : Bool} {o : Option Nat}
    (h : t.check (some k) allowNull o = .ok t') : t.kind.admits (some k) allowNull = true := by
  cases ha : t.kind.admits (some k) allowNull
  · rw [Token.check_of_not_admits ha] at h
    cases h
  · rfl

namespace TreeSource

/-! ### Reads of one node -/

/-- The count of a source that stands at a walk covers what the walk has still to come. -/
theorem Tracks.within {t : TreeSource} {w : Walk} (h : t.Tracks w) : t.Within := by
  obtain ⟨hc, hf, hs⟩ := h
  simpa [Within, Walk.size, hc, hf] using hs

/-- A tree source with no next node, seen at the end of a walk: every read fails there as past
the end. -/
def NoNode (t : TreeSource) (w : Walk) : Prop := t.current = none ∧ w.atEnd = true

/-- A tree with no node left refuses every read as a walk at its end says. -/
theorem noNode_refusesWalk : RefusesWalk NoNode where
  mismatch {t w v k allowNull} h hc _ := by
    have hend := h.2
    simp [Walk.atEnd, hc] at hend
  nextValue_end {t w desired allowNull} h _ := ⟨none, _, nextValue_run_of_none h.1 _ _⟩
  peekKind_end {t w} h _ :=
    ⟨none, t, by simp [Source.peekKind, TreeSource.peekKind, h.1, exhausted]⟩

/-- Taking the next node of a tree, coercion on or off: the node is consumed, and entered when it
is a container; the token is the node as taken for the kind asked for, and that kind admits it. -/
theorem take_tracks {k : Kind} {allowNull : Bool} {r r' : Reader TreeSource} {t : Token}
    {w : Walk} (hr : r.source.Tracks w) (h : (Reader.take k allowNull).run r = .ok t r') :
    ∃ v, w.current = some v ∧ t = tokenFor r.source.coerce v (some k) ∧
      t.kind.admits (some k) allowNull = true ∧ r'.awaiting = false ∧ r'.source.Tracks w.take := by
  obtain ⟨hn, hw⟩ := Reader.take_run_eq_ok h
  change (nextValue (some k) allowNull).run r.source = .ok t r'.source at hn
  -- a tree with no node left fails the pull; a node that passes the check is consumed as the walk
  -- takes it
  cases hc : r.source.current with
  | none =>
    rw [nextValue_run_of_none hc] at hn
    cases hn
  | some v =>
    rw [nextValue_run_of_current hc] at hn
    split at hn
    · cases hn
    · next tok hcheck =>
      simp only [EStateM.Result.ok.injEq] at hn
      obtain ⟨rfl, hs⟩ := hn
      have hv : w.current = some v := hr.1.symm.trans hc
      have htok := Token.check_eq_ok hcheck
      refine ⟨v, hv, htok, htok ▸ Token.admits_of_check_eq_ok hcheck, hw, ?_⟩
      rw [← hs]
      exact tracks_take hr hv

/-- A node taken as a scalar is no container, so taking it leaves the walk past it: coercion makes
no container's start. -/
theorem take_eq_skip_of_admits {w : Walk} {v : Value} {c allowNull : Bool} {k : Kind}
    (hc : w.current = some v) (ha : k ≠ .array) (ho : k ≠ .object)
    (h : (tokenFor c v (some k)).kind.admits (some k) allowNull = true) : w.take = w.skip := by
  apply Walk.take_eq_skip hc
  cases v with
  | array items =>
    rw [(tokenFor_eq_start_iff .arrayStart (.inl rfl)).2 rfl] at h
    cases k <;> simp_all [Kind.admits, Token.kind]
  | object members =>
    rw [(tokenFor_eq_start_iff .objectStart (.inr rfl)).2 rfl] at h
    cases k <;> simp_all [Kind.admits, Token.kind]
  | _ => rfl

/-- How a read standing on a node of a tree ends, coercion on or off: past the node, with no value
awaiting, or with an error other than stepping outside a container. -/
structure ReadsPast {α : Type} (m : ReadM TreeSource α) : Prop where
  ok {r r' : Reader TreeSource} {w : Walk} {v : Value} {x : α} : r.source.Tracks w →
    w.current = some v → m.run r = .ok x r' → r'.awaiting = false ∧ r'.source.Tracks w.skip
  error {r r' : Reader TreeSource} {w : Walk} {v : Value} {e : ReadError} : r.source.Tracks w →
    w.current = some v → m.run r = .error e r' → e ≠ notInContainer

end TreeSource

/-- A read of one node fails only as the node is refused or missing. -/
theorem Reader.ReadsOne.error_ne {α β : Type} {k : Kind} {allowNull : Bool} {d : Value → Option β}
    {f : α → β} {m : ReadM TreeSource α} (hm : ReadsOne k allowNull d f m) {r r' : Reader TreeSource}
    {e : ReadError} (h : m.run r = .error e r') : e ≠ TreeSource.notInContainer := by
  -- a missing node fails as exhausted, a refused one with a mismatch, and an admitted one does not
  -- fail
  cases hc : r.source.current with
  | none =>
    obtain ⟨r₁, h₁⟩ := hm.ended hc
    rw [h] at h₁
    cases h₁
    simp [TreeSource.exhausted, TreeSource.notInContainer]
  | some v =>
    cases ha : (TreeSource.tokenFor r.source.coerce v (some k)).kind.admits (some k) allowNull
    · obtain ⟨r₁, h₁⟩ := hm.refuse hc ha
      rw [h] at h₁
      cases h₁
      simp [TreeSource.notInContainer]
    · obtain ⟨x, r₁, h₁, -⟩ := hm.pass hc ha
      rw [h] at h₁
      cases h₁

/-- A scalar read, coercion on or off, consumes one node whole or fails as it is refused. -/
theorem ScalarRead.readsPast (sr : ScalarRead) : TreeSource.ReadsPast (sr.run : ReadM TreeSource Event) where
  ok {r r' w v x} hr _ h := by
    cases ht : (Reader.take sr.kind sr.nullable).run r with
    | error e r₁ =>
      rw [ScalarRead.run_of_take ht] at h
      cases h
    | ok t r₁ =>
      obtain ⟨u, hu, rfl, hadm, hw, htr⟩ := TreeSource.take_tracks hr ht
      rw [ScalarRead.run_of_take_ok ht hadm] at h
      cases h
      refine ⟨hw, ?_⟩
      rwa [← TreeSource.take_eq_skip_of_admits hu (by cases sr <;> decide) (by cases sr <;> decide) hadm]
  error _ _ h := sr.readsOne.error_ne h

/-! ### Typed reads -/

/-- A typed read that succeeds on a tree, coercion on or off, consumes one node whole. -/
theorem Schema.read_tracks (T : Schema) {r r' : Reader TreeSource} {w : Walk} {v : Value}
    {x : T.Carrier} (hr : r.source.Tracks w) (hc : w.current = some v)
    (h : T.read.run r = .ok x r') : r'.awaiting = false ∧ r'.source.Tracks w.skip := by
  have hskip := Schema.read_consumes_as_skipValue TreeSource.pullsByKind TreeSource.keepsBudget T
    hr.within h
  obtain ⟨s', hrun, hs⟩ := Reader.skipValue_run TreeSource.tracks_follows hr hc
  rw [hrun] at hskip
  cases hskip
  exact ⟨rfl, hs⟩

namespace TreeSource

/-- Asking a tree for an array or an object gives the node's own token, coercion on or off. -/
@[simp] theorem tokenFor_container (c : Bool) (v : Value) {k : Kind}
    (hk : k = .array ∨ k = .object) : tokenFor c v (some k) = nodeToken v := by
  cases c <;> simp [tokenFor, Token.coerce_container hk]

/-- Opening an array on a tree, coercion on or off, enters the array the walk stands on. -/
theorem array_tracks {r r' : Reader TreeSource} {w : Walk} {c : ArrayCursor}
    (hr : r.source.Tracks w) (h : (Reader.array : ReadM TreeSource ArrayCursor).run r = .ok c r') :
    ∃ items, w.current = some (.array items) ∧ c = .ofDefined true ∧ r'.awaiting = false ∧
      r'.source.Tracks ⟨none, .array items :: w.frames, true⟩ := by
  obtain ⟨t, r₁, ht, hrest⟩ := EStateM.run_bind_eq_ok.1 h
  obtain ⟨u, hu, rfl, -, hw, htr⟩ := take_tracks hr ht
  rw [tokenFor_container _ _ (.inl rfl)] at hrest
  cases u with
  | array items =>
    simp only [nodeToken, EStateM.run_pure, EStateM.Result.ok.injEq] at hrest
    obtain ⟨rfl, rfl⟩ := hrest
    exact ⟨items, hu, rfl, hw, by simpa [Walk.take, hu] using htr⟩
  | _ => simp [nodeToken] at hrest

/-- Opening an object on a tree, coercion on or off, enters the object the walk stands on. -/
theorem object_tracks {r r' : Reader TreeSource} {w : Walk} {c : ObjectCursor}
    (hr : r.source.Tracks w) (h : (Reader.object : ReadM TreeSource ObjectCursor).run r = .ok c r') :
    ∃ members, w.current = some (.object members) ∧ c = .ofDefined true ∧ r'.awaiting = false ∧
      r'.source.Tracks ⟨none, .object members :: w.frames, true⟩ := by
  obtain ⟨t, r₁, ht, hrest⟩ := EStateM.run_bind_eq_ok.1 h
  obtain ⟨u, hu, rfl, -, hw, htr⟩ := take_tracks hr ht
  rw [tokenFor_container _ _ (.inr rfl)] at hrest
  cases u with
  | object members =>
    simp only [nodeToken, EStateM.run_pure, EStateM.Result.ok.injEq] at hrest
    obtain ⟨rfl, rfl⟩ := hrest
    exact ⟨members, hu, rfl, hw, by simpa [Walk.take, hu] using htr⟩
  | _ => simp [nodeToken] at hrest

section Loops

variable {α : Type} {item : ReadM TreeSource α} (hitem : ReadsPast item)
include hitem

/-- The elements of an array, each read by a read that consumes it whole, one per cursor step:
the loop steps only the array, and fails only where an element's read fails or its fuel ends. -/
theorem listLoop_error_ne : ∀ (items : List Value) (fuel : Nat) (c : ArrayCursor) (acc : Array α)
    (r r' : Reader TreeSource) (fs : List TreeFrame) (e : ReadError), c.done = false →
    r.awaiting = false → r.source.Tracks ⟨none, .array items :: fs, !c.started⟩ →
    (Reader.listLoop item fuel c acc).run r = .error e r' → e ≠ notInContainer
  | _, 0, _, _, _, _, _, _, _, _, _, h => by
    simp only [Reader.listLoop, Reader.exhausted, EStateM.run_bind, Reader.run_get,
      EStateM.run_throw_any, EStateM.Result.error.injEq] at h
    rw [← h.1]
    simp [notInContainer]
  | [], fuel + 1, c, acc, r, r', fs, e, hd, ha, hr, h => by
    obtain ⟨s', hrun, -⟩ := Reader.arrayCursor_next_run tracks_follows hd hr (Or.inl ⟨ha, rfl⟩)
    simp [Reader.listLoop, hrun] at h
  | x :: rest, fuel + 1, c, acc, r, r', fs, e, hd, ha, hr, h => by
    obtain ⟨s₁, hrun, hs₁⟩ := Reader.arrayCursor_next_run tracks_follows hd hr (Or.inl ⟨ha, rfl⟩)
    simp only [Reader.listLoop, EStateM.run_bind, hrun, List.isEmpty_cons, Bool.not_false,
      if_true] at h
    -- the element's read fails, or the loop goes on past it
    rcases EStateM.run_bind_eq_error h with ⟨r₂, hi⟩ | ⟨y, r₂, hi, h'⟩
    · exact hitem.error hs₁ rfl hi
    · obtain ⟨hw₂, hs₂⟩ := hitem.ok hs₁ rfl hi
      exact listLoop_error_ne rest fuel _ _ r₂ r' fs e rfl hw₂ hs₂ h'

/-- The members of an object, each value read by a read that consumes it whole, one per cursor
step: the loop steps only the object, and fails only where a value's read fails or its fuel
ends. -/
theorem mapLoop_error_ne : ∀ (members : List (String × Value)) (fuel : Nat) (c : ObjectCursor)
    (acc : List (String × α)) (r r' : Reader TreeSource) (fs : List TreeFrame) (e : ReadError),
    c.done = false → c.required = [] → r.awaiting = false →
    r.source.Tracks ⟨none, .object members :: fs, !c.started⟩ →
    (Reader.mapLoop item fuel c acc).run r = .error e r' → e ≠ notInContainer
  | _, 0, _, _, _, _, _, _, _, _, _, _, h => by
    -- fuel gone: the loop's own fault
    simp only [Reader.mapLoop, Reader.exhausted, EStateM.run_bind, Reader.run_get,
      EStateM.run_throw_any, EStateM.Result.error.injEq] at h
    rw [← h.1]
    simp [notInContainer]
  | [], fuel + 1, c, acc, r, r', fs, e, hd, hreq, ha, hr, h => by
    -- the closing step succeeds on a tree
    obtain ⟨s', -, hrun⟩ := Reader.objectCursor_next_end tracks_follows hd hr (Or.inl ⟨ha, rfl⟩)
    rw [hreq] at hrun
    simp [Reader.mapLoop, hrun] at h
  | (k, x) :: rest, fuel + 1, c, acc, r, r', fs, e, hd, hreq, ha, hr, h => by
    obtain ⟨name, s₁, -, hrun, hs₁⟩ :=
      Reader.objectCursor_next_member tracks_follows hd hr (Or.inl ⟨ha, rfl⟩)
    rw [hreq] at hrun
    simp only [Reader.mapLoop, EStateM.run_bind, hrun, if_true] at h
    -- the member's read failed, or it read the value whole and the rest of the object failed
    rcases EStateM.run_bind_eq_error h with ⟨r₂, hi⟩ | ⟨y, r₂, hi, h'⟩
    · exact hitem.error hs₁ rfl hi
    · obtain ⟨hw₂, hs₂⟩ := hitem.ok hs₁ rfl hi
      exact mapLoop_error_ne rest fuel { c with started := true, name, required := markSeen k [] } _
        r₂ r' fs e hd rfl hw₂ hs₂ h'

end Loops

end TreeSource

/-- A typed read on a tree, coercion on or off, fails only where a node is refused or missing, or a
loop's fuel ends: it steps no container it did not open itself. -/
theorem Schema.read_error_ne (T : Schema) : ∀ {r r' : Reader TreeSource} {w : Walk} {v : Value}
    {e : ReadError}, r.source.Tracks w → w.current = some v → T.read.run r = .error e r' →
    e ≠ TreeSource.notInContainer := by
  induction T with
  | value =>
    intro r r' w v e hr hc h
    obtain ⟨s', hrun, -⟩ := Reader.value_run TreeSource.tracks_follows hr hc
    change (Reader.value : ReadM TreeSource Value).run r = _ at h
    rw [hrun] at h
    cases h
  | option T ih =>
    intro r r' w v e hr hc h
    change @EStateM.run ReadError (Reader TreeSource) (Option T.Carrier) (Schema.read (.option T))
      r = _ at h
    rw [Schema.read_option, EStateM.run_bind, Reader.peekKind_run_of_current (hr.1.trans hc)] at h
    by_cases hv : v.kind = .null
    · -- a null is read as no value, which cannot fail
      obtain rfl : v = .null := by cases v <;> simp_all [Value.kind]
      obtain ⟨r₁, htake⟩ := (Reader.take_run_of_current (hr.1.trans hc) .null false).1
        (by rw [TreeSource.tokenFor_null]; rfl)
      rw [TreeSource.tokenFor_null] at htake
      simp [Value.kind, Reader.null, EStateM.run_bind, htake] at h
    · simp only [hv, if_false] at h
      exact ih hr hc (EStateM.run_bind_pure_eq_error.1 h)
  | list T ih =>
    intro r r' w v e hr hc h
    change @EStateM.run ReadError (Reader TreeSource) (List T.Carrier) (Schema.read (.list T))
      r = _ at h
    rw [Schema.read_list] at h
    -- the array is refused, or entered and looped over
    rcases EStateM.run_bind_eq_error h with ⟨r₁, ha⟩ | ⟨c, r₁, ha, h'⟩
    · exact (Reader.Call.openArray_readsOne false).error_ne ha
    · obtain ⟨items, -, rfl, hw, hs⟩ := TreeSource.array_tracks hr ha
      simp only [EStateM.run_bind, Reader.run_get] at h'
      exact TreeSource.listLoop_error_ne ⟨fun hr hc h => T.read_tracks hr hc h, fun hr hc h => ih hr hc h⟩
        items _ _ _ r₁ r' w.frames e rfl hw hs h'
  | map T ih =>
    intro r r' w v e hr hc h
    change @EStateM.run ReadError (Reader TreeSource) (List (String × T.Carrier))
      (Schema.read (.map T)) r = _ at h
    rw [Schema.read_map] at h
    rcases EStateM.run_bind_eq_error h with ⟨r₁, ha⟩ | ⟨c, r₁, ha, h'⟩
    · exact (Reader.Call.openObject_readsOne false).error_ne ha
    · obtain ⟨members, -, rfl, hw, hs⟩ := TreeSource.object_tracks hr ha
      simp only [EStateM.run_bind, Reader.run_get] at h'
      exact TreeSource.mapLoop_error_ne ⟨fun hr hc h => T.read_tracks hr hc h, fun hr hc h => ih hr hc h⟩
        members _ _ _ r₁ r' w.frames e rfl rfl hw hs h'
  | _ =>
    intro r r' w v e _ _ h
    exact (Schema.readsOne _ rfl).error_ne h

/-- A typed read on a tree, coercion on or off, consumes one node whole, or fails other than by
stepping outside a container. -/
theorem Schema.readsPast (T : Schema) : TreeSource.ReadsPast (T.read : ReadM TreeSource T.Carrier) :=
  ⟨fun hr hc h => T.read_tracks hr hc h, fun hr hc h => T.read_error_ne hr hc h⟩

/-- A typed read refuses a tree only with a mismatch of kinds. -/
theorem Schema.refusal_isMismatch (T : Schema) :
    ∀ {v : Value} {e : ReadError}, T.refusal v = some e → e.isMismatch = true := by
  induction T with
  | option T ih =>
    intro v e h
    simp only [refusal] at h
    -- an optional refuses a non-null value as the shape it holds
    split_ifs at h
    exact ih h
  | list T ih =>
    intro v e h
    cases v <;> simp only [refusal, Option.some.injEq] at h
    -- a list refuses a non-array by its kind, and an array at the first element refused
    case array items =>
      obtain ⟨x, -, hx⟩ := List.exists_of_findSome?_eq_some h
      exact ih hx
    all_goals (subst h; rfl)
  | map T ih =>
    intro v e h
    cases v <;> simp only [refusal, Option.some.injEq] at h
    -- a map likewise, at the first member's value refused
    case object members =>
      obtain ⟨m, -, hm⟩ := List.exists_of_findSome?_eq_some h
      exact ih hm
    all_goals (subst h; rfl)
  | value => simp [refusal]
  | _ =>
    -- a scalar shape refuses only by kind
    intro v e h
    simp only [refusal, mismatchOf] at h
    split_ifs at h
    cases h
    rfl

namespace Reader

/-- The walk fails a call only with a refusal, the end of the document, trailing data or a
missing name: never by stepping outside a container. -/
theorem Call.onWalk_error_ne {call : Call} {V : Bool × List Cursor} {w : Walk} {E : ReadError}
    (h : (call.onWalk V w).1 = .error E) : E ≠ TreeSource.notInContainer := by
  rintro rfl
  cases call with
  | typed T =>
    simp only [Call.onWalk, onValue] at h
    split at h
    · next v _ =>
      split at h
      · cases h
      · -- a shape refuses a tree with a mismatch, and nothing else fails
        simp only [Except.error.injEq] at h
        cases hr : T.refusal v with
        | none =>
          rw [hr] at h
          cases h
        | some e =>
          rw [hr, Option.getD_some] at h
          have hm := T.refusal_isMismatch hr
          rw [h] at hm
          cases hm
    · simp [TreeSource.notInContainer] at h
  | _ =>
    simp only [Call.onWalk, onValue] at h
    repeat' split at h
    all_goals simp_all [TreeSource.notInContainer]

/-- With no container around it, a client that fits the walk has every cursor done. -/
theorem Fits.done_of_frames_nil {cs : List Cursor} {a : Bool} {w : Walk} (h : Fits cs a w)
    (hf : w.frames = []) : ∀ c ∈ cs, c.done = true := by
  have hk := h.kinds
  rw [hf] at hk
  simpa [Cursor.openShapes, List.filter_eq_nil_iff] using hk

/-- Standing on a node, a client that fits the walk stands on a value or at the top. -/
theorem Fits.onValue_of_current {cs : List Cursor} {a : Bool} {w : Walk} (h : Fits cs a w)
    (hc : w.current.isSome = true) : OnValue a cs := by
  cases hf : w.frames with
  | nil => exact .inr (h.done_of_frames_nil hf)
  | cons f fs =>
    have ha := h.awaiting
    exact .inl (by simpa [hc, hf] using ha)

namespace Client

/-- The client is in step with the tree `v`: its source stands at a walk of the tree, and its
cursors, and whether a value awaits it, fit that walk. -/
def Adapts (v : Value) (c : Client TreeSource) : Prop :=
  ∃ w, w.Reaches v ∧ c.reader.source.Tracks w ∧ Fits c.view.2 c.view.1 w

/-- A call keeps the client in step with the tree `v`: if it goes through, the client after it is
in step again, and if it fails, it does not fail by stepping outside a container. -/
structure KeepsFrames (v : Value) (c : Client TreeSource) (call : Call) : Prop where
  ok {a : Answer} {c' : Client TreeSource} : c.step call = (a, some c') → c'.Adapts v
  error {e : ReadError} : c.step call = (.failed e, none) → e ≠ TreeSource.notInContainer

namespace KeepsFrames

variable {v : Value} {c : Client TreeSource} {call : Call} {w : Walk}

/-- A call that goes through to a client in step keeps the client in step. -/
theorem of_step_ok {a : Answer} {c' : Client TreeSource} (hs : c.step call = (a, some c'))
    (h : c'.Adapts v) : c.KeepsFrames v call where
  ok hs' := by
    rw [hs] at hs'
    cases hs'
    exact h
  error hs' := by
    rw [hs] at hs'
    cases hs'

/-- A call that fails, but not by stepping outside a container, keeps the client in step. -/
theorem of_step_failed {e : ReadError} (hs : c.step call = (.failed e, none))
    (he : e ≠ TreeSource.notInContainer) : c.KeepsFrames v call where
  ok hs' := by
    rw [hs] at hs'
    cases hs'
  error hs' := by
    rw [hs] at hs'
    cases hs'
    exact he

/-- A call answered as the walk says, where the protocol permits it, keeps the client in step. -/
theorem of_answersAs (hw : w.Reaches v) (hfit : Fits c.view.2 c.view.1 w)
    (hp : call.Permitted c.view.1 c.view.2) (h : c.AnswersAs TreeSource.Tracks w call) :
    c.KeepsFrames v call := by
  unfold AnswersAs at h
  rcases ho : (call.onWalk c.view w).1 with E | ⟨A, V⟩ <;> rw [ho] at h
  · -- the error is the walk's, up to where it was found
    obtain ⟨e, hs, hb⟩ := h
    exact .of_step_failed hs fun he => Call.onWalk_error_ne ho (by rw [← hb, he]; rfl)
  · obtain ⟨a, c', hs, -, hv, hr⟩ := h
    exact .of_step_ok hs ⟨_, hw.onWalk call c.view, hr, hv ▸ hfit.onWalk hp ho⟩

/-- A read with no node before it fails, as past the end. -/
theorem of_noNode (hc : c.reader.source.current = none) (hcall : call.readsValue = true) :
    c.KeepsFrames v call := by
  -- the source is at the end of a walk as far as a read can tell
  have h : c.AnswersAs TreeSource.NoNode ⟨none, [], false⟩ call :=
    answersAs_end TreeSource.noNode_refusesWalk ⟨hc, rfl⟩ rfl hcall
  simp only [AnswersAs, Call.onWalk_end c.view (show Walk.current ⟨none, [], false⟩ = none from rfl)
    hcall] at h
  obtain ⟨e, hs, hb⟩ := h
  refine .of_step_failed hs ?_
  rintro rfl
  cases hb

/-- A read that consumes the node it stands on whole, or fails other than by stepping outside a
container, keeps the client in step. -/
theorem of_readsPast {α : Type} {m : ReadM TreeSource α} (hm : TreeSource.ReadsPast m)
    {g : α → Answer} (hrun : call.run c.cursors = m >>= fun x => pure (g x, c.cursors))
    (hw : w.Reaches v) (hr : c.reader.source.Tracks w) (hfit : Fits c.view.2 c.view.1 w)
    {u : Value} (hc : w.current = some u) : c.KeepsFrames v call := by
  cases hx : m.run c.reader with
  | ok x r₁ =>
    have hstep : (call.run c.cursors).run c.reader = .ok (g x, c.cursors) r₁ := by
      rw [hrun, EStateM.run_bind, hx]
      rfl
    obtain ⟨hwait, htr⟩ := hm.ok hr hc hx
    -- the cursors are as they were, past the node
    have hview : (⟨r₁, c.cursors⟩ : Client TreeSource).view = (false, c.view.2) := by
      simp [view, hwait]
    refine .of_step_ok (step_of_run_ok hstep) ⟨w.skip, hw.skip, htr, ?_⟩
    rw [hview]
    exact hfit.skip (hfit.onValue_of_current (by simp [hc])) (by simp [hc])
  | error e r₁ =>
    have hstep : (call.run c.cursors).run c.reader = .error e r₁ := by
      rw [hrun, EStateM.run_bind, hx]
    exact .of_step_failed (step_of_run_error hstep) (hm.error hr hc hx)

/-- Inside a container and on no node, the check for the end fails as past the end. -/
theorem finish_inside (hr : c.reader.source.Tracks w) (hfit : Fits c.view.2 c.view.1 w)
    (hp : ¬ OnValue c.view.1 c.view.2) : c.KeepsFrames v .finish := by
  have hc : w.current = none := by
    cases hcur : w.current with
    | none => rfl
    | some u => exact absurd (hfit.onValue_of_current (by simp [hcur])) hp
  have hf : w.frames ≠ [] := fun hf => hp (.inr (hfit.done_of_frames_nil hf))
  -- the source is not at its end, and looking at the next node finds none
  obtain ⟨s', heof, hs'⟩ := Reader.isEof_run TreeSource.tracks_follows hr
  have hend : w.atEnd = false := by simp [Walk.atEnd, hf]
  have hpeek := Reader.peekKind_run_of_none
    (show ({ c.reader with source := s' } : Reader TreeSource).source.current = none from hs'.1.trans hc)
  have hrun : (Call.finish.run c.cursors).run c.reader =
      .error TreeSource.exhausted { c.reader with source := s' } := by
    simp [Call.run, Reader.finish, EStateM.run_bind, heof, hend, hpeek]
  exact .of_step_failed (step_of_run_error hrun) (by simp [TreeSource.exhausted, TreeSource.notInContainer])

end KeepsFrames

/-- Opening an array on a tree answers as the walk says, coercion on or off: coercion makes no
container, nor converts a node to one. -/
theorem answersAs_array_tree {c : Client TreeSource} {w : Walk} {u : Value} (orNull : Bool)
    (hr : c.reader.source.Tracks w) (hc : w.current = some u) :
    c.AnswersAs TreeSource.Tracks w (.array orNull) := by
  simp only [AnswersAs, Call.onWalk, onValue, hc]
  -- the node is an array, or a null where one is allowed, and is opened; or it is refused, since
  -- no conversion makes an array
  split
  · next hk =>
    obtain ⟨s', h, hs⟩ := Call.openArray_admits TreeSource.tracks_follows hr hc hk
    have hrun : ((Call.array orNull).run c.cursors).run c.reader = .ok (.opened (u.kind == .array),
        c.cursors ++ [.array (.ofDefined (u.kind == .array))]) ⟨s', false⟩ := by
      simp [Call.run, h, ArrayCursor.ofDefined]
    exact stepEnds_of_ok hrun hs rfl (by simp [view, Cursor.erase])
  · next hk =>
    obtain ⟨r', h⟩ := (Call.openArray_readsOne orNull).refuse (hr.1.trans hc) (by simpa using hk)
    simp only [TreeSource.tokenFor_container _ _ (.inl rfl), nodeToken_kind] at h
    have hrun : ((Call.array orNull).run c.cursors).run c.reader =
        .error (.mismatch .array u.kind none) r' := by
      simp [Call.run, h]
    exact stepEnds_of_error hrun rfl _

/-- Opening an object on a tree answers as the walk says, coercion on or off. -/
theorem answersAs_object_tree {c : Client TreeSource} {w : Walk} {u : Value} (orNull : Bool)
    (names : List String) (hr : c.reader.source.Tracks w) (hc : w.current = some u) :
    c.AnswersAs TreeSource.Tracks w (.object orNull names) := by
  simp only [AnswersAs, Call.onWalk, onValue, hc]
  -- the node is an object, or a null where one is allowed, and is opened; or it is refused, since
  -- no conversion makes an object
  split
  · next hk =>
    obtain ⟨s', h, hs⟩ := Call.openObject_admits TreeSource.tracks_follows hr hc hk
    have hrun : ((Call.object orNull names).run c.cursors).run c.reader =
        .ok (.opened (u.kind == .object), c.cursors ++
          [.object ((ObjectCursor.ofDefined (u.kind == .object)).requireAll names)]) ⟨s', false⟩ := by
      simp [Call.run, h, ObjectCursor.ofDefined, ObjectCursor.requireAll]
    exact stepEnds_of_ok hrun hs rfl (by simp [view, Cursor.erase, ObjectCursor.ofDefined,
      ObjectCursor.requireAll])
  · next hk =>
    obtain ⟨r', h⟩ := (Call.openObject_readsOne orNull).refuse (hr.1.trans hc) (by simpa using hk)
    simp only [TreeSource.tokenFor_container _ _ (.inr rfl), nodeToken_kind] at h
    have hrun : ((Call.object orNull names).run c.cursors).run c.reader =
        .error (.mismatch .object u.kind none) r' := by
      simp [Call.run, h]
    exact stepEnds_of_error hrun rfl _

end Client

/-- Erasing names changes no cursor's being done. -/
theorem InnerDone.map_erase {cs : List Cursor} {i : Nat} (h : InnerDone cs i) :
    InnerDone (cs.map Cursor.erase) i := by
  intro j hj cur hcur
  rw [List.getElem?_map] at hcur
  obtain ⟨c, hc, rfl⟩ := Option.mem_map.1 hcur
  have hd := h j hj c hc
  cases c <;> exact hd

/-- A call that goes through answers something other than a failure. -/
theorem Call.run_answer_ne_failed {σ : Type} [Source σ] {call : Call} {cs cs' : List Cursor}
    {r r' : Reader σ} {a : Answer} (h : (call.run cs).run r = .ok (a, cs') r') (e : ReadError) :
    a ≠ .failed e := by
  rintro rfl
  cases call <;> simp only [Call.run, EStateM.run_bind] at h <;> repeat' split at h
  all_goals simp_all

namespace Client

variable {v : Value}

/-- Every call that keeps to the nesting of cursors keeps a client in step with the tree, coercion
on or off. -/
theorem Adapts.keepsFrames {c : Client TreeSource} {call : Call} (h : c.Adapts v)
    (hn : call.Nested c.cursors) : c.KeepsFrames v call := by
  obtain ⟨w, hw, hr, hfit⟩ := h
  -- a read stands on a node, or fails as past the end
  have reads : call.readsValue = true → (∀ u, w.current = some u → c.KeepsFrames v call) →
      c.KeepsFrames v call := by
    intro hcall hat
    cases hc : w.current with
    | none => exact .of_noNode (hr.1.trans hc) hcall
    | some u => exact hat u hc
  have onValue : ∀ {u}, w.current = some u → OnValue c.view.1 c.view.2 := fun hc =>
    hfit.onValue_of_current (by simp [hc])
  have walks : call.Permitted c.view.1 c.view.2 → c.AnswersAs TreeSource.Tracks w call →
      c.KeepsFrames v call := .of_answersAs hw hfit
  -- the other reads are permitted on a value and answer as the walk says
  have readsWalks : call.readsValue = true →
      call.Permitted c.view.1 c.view.2 = OnValue c.view.1 c.view.2 →
      (∀ u, w.current = some u → c.AnswersAs TreeSource.Tracks w call) → c.KeepsFrames v call :=
    fun hcall hperm hat => reads hcall fun u hc => walks (hperm ▸ onValue hc) (hat u hc)
  have follows := TreeSource.tracks_follows
  -- scalar and typed reads are where coercion can change the answer
  cases call with
  | scalar sr => exact reads rfl fun u hc => .of_readsPast sr.readsPast rfl hw hr hfit hc
  | typed T => exact reads rfl fun u hc => .of_readsPast T.readsPast rfl hw hr hfit hc
  | array orNull => exact readsWalks rfl rfl fun u hc => answersAs_array_tree orNull hr hc
  | object orNull names =>
    exact readsWalks rfl rfl fun u hc => answersAs_object_tree orNull names hr hc
  | any names => exact readsWalks rfl rfl fun u hc => answersAs_any follows names hr hc
  | skip => exact readsWalks rfl rfl fun u hc => answersAs_skip follows hr hc
  | value => exact readsWalks rfl rfl fun u hc => answersAs_value follows hr hc
  | peek => exact readsWalks rfl rfl fun u hc => answersAs_peek follows hr hc
  | isEof => exact walks trivial (answersAs_isEof follows hr)
  | finish =>
    by_cases hp : OnValue c.view.1 c.view.2
    · exact walks hp (answersAs_finish follows hr (hfit.current_or_end hp))
    · exact .finish_inside hr hfit hp
  | offset => exact walks trivial (answersAs_offset hr)
  | next i =>
    have hn' : InnerDone c.view.2 i := InnerDone.map_erase hn
    exact walks hn' (answersAs_next follows hr hfit hn')
  | name i => exact walks trivial (answersAs_name hr i)
  | defined i => exact walks trivial (answersAs_defined hr i)
  | require i names => exact walks trivial (answersAs_require hr i names)

/-- Over a run that keeps to the nesting of cursors and stops at its first error, a client in step
with the tree stays in step after every call that goes through, and no call fails by stepping
outside a container. -/
theorem Adapts.run : ∀ (calls : List Call) {c : Client TreeSource}, c.Adapts v →
    c.Disciplined calls → (∀ n c', c.after (calls.take n) = some c' → c'.Adapts v) ∧
      Answer.failed TreeSource.notInContainer ∉ c.run calls
  | [], c, h, _ => by
    refine ⟨fun n c' hc => ?_, by simp [Client.run]⟩
    simp only [List.take_nil, after, Option.some.injEq] at hc
    exact hc ▸ h
  | call :: calls, c, h, ⟨hn, hd⟩ => by
    have hk := h.keepsFrames hn
    -- before any call the client is as it was
    have hzero : ∀ c', c.after ((call :: calls).take 0) = some c' → c'.Adapts v :=
      fun c' hc => Option.some.inj hc ▸ h
    rcases hstep : c.step call with ⟨a, _ | c₁⟩
    · -- the call failed, and ends the run
      obtain ⟨e, r, rfl, -⟩ := step_eq_none hstep
      refine ⟨fun n c' hc => ?_, ?_⟩
      · cases n with
        | zero => exact hzero c' hc
        | succ n => simp [after, hstep] at hc
      · rw [run_cons_of_step_none calls hstep, List.mem_singleton]
        intro he
        cases he
        exact hk.error hstep rfl
    · -- the call went through: the rest of the run starts in step
      obtain ⟨hafter, hrun⟩ := Adapts.run calls (hk.ok hstep) (hd a c₁ hstep)
      refine ⟨fun n c' hc => ?_, ?_⟩
      · cases n with
        | zero => exact hzero c' hc
        | succ n =>
          simp only [List.take_succ_cons, after, hstep, Option.bind_some] at hc
          exact hafter n c' hc
      · rw [run_cons_of_step calls hstep, List.mem_cons]
        rintro (he | he)
        · exact Call.run_answer_ne_failed (step_eq_some hstep) _ he.symm
        · exact hrun he

/-- In step with the tree, a node waits in the source exactly where the client stands on a value
in a container, or at the root before reading it. -/
theorem current_isSome_iff {c : Client TreeSource} {w : Walk} (hw : w.Reaches v)
    (hr : c.reader.source.Tracks w) (hfit : Fits c.view.2 c.view.1 w) :
    c.reader.source.current.isSome = true ↔ c.reader.awaiting = true ∨ w = .start v := by
  -- a node waits exactly when the walk has a value in hand: the awaited one inside a container, or
  -- the root at the top
  have ha : c.reader.awaiting = (w.current.isSome && !w.frames.isEmpty) := hfit.awaiting
  rw [hr.1]
  constructor
  · intro hc
    cases hf : w.frames with
    | nil => exact .inr (hw.eq_start hf hc)
    | cons f fs => exact .inl (by simp [ha, hc, hf])
  · rintro (hw' | rfl)
    · simp only [ha, Bool.and_eq_true] at hw'
      exact hw'.1
    · rfl

end Client

end Reader

namespace TreeSource

/-- A tree source at a walk of its tree reports its end exactly where reading the root whole
leaves the walk. -/
theorem isEof_iff_consumed {t : TreeSource} {v : Value} {w : Walk} (hw : w.Reaches v)
    (ht : t.Tracks w) : (Source.isEof t).1 = true ↔ w = (Walk.start v).skip := by
  have heof : (Source.isEof t).1 = (t.current.isNone && t.frames.isEmpty) := rfl
  rw [heof, ht.1, ht.2.1]
  constructor
  · intro h
    simp only [Bool.and_eq_true, Option.isNone_iff_eq_none, List.isEmpty_iff] at h
    exact hw.eq_start_skip h.2 h.1
  · rintro rfl
    rfl

/-- Over any run of calls on a tree, coercion on or off, that steps a cursor only once every cursor
made after it is done and stops at its first error: after every call that went through, the source
stands at a walk of the tree whose containers are the client's open cursors, each of its
container's kind; a node waits in it exactly where the client stands on a value in a container, or
on the root before reading it; and it reports its end exactly once the root has been consumed. No
call fails by stepping outside a container. -/
theorem frames_follow_cursors (v : Value) (coerce : Bool) (calls : List Reader.Call)
    (hd : (Reader.Client.ofSource (ofValue v coerce)).Disciplined calls) :
    (∀ n c, (Reader.Client.ofSource (ofValue v coerce)).after (calls.take n) = some c →
      ∃ w, w.Reaches v ∧ c.reader.source.Tracks w ∧ Reader.Fits c.view.2 c.view.1 w ∧
        ((Source.isEof c.reader.source).1 = true ↔ w = (Walk.start v).skip) ∧
        (c.reader.source.current.isSome = true ↔ c.reader.awaiting = true ∨ w = .start v)) ∧
      Reader.Answer.failed notInContainer ∉ (Reader.Client.ofSource (ofValue v coerce)).run calls := by
  have hstart : (Reader.Client.ofSource (ofValue v coerce)).Adapts v :=
    ⟨.start v, .start, tracks_ofValue v coerce, Reader.Fits.start v⟩
  obtain ⟨hafter, hrun⟩ := Reader.Client.Adapts.run calls hstart hd
  refine ⟨fun n c hc => ?_, hrun⟩
  obtain ⟨w, hw, hr, hfit⟩ := hafter n c hc
  exact ⟨w, hw, hr, hfit, isEof_iff_consumed hw hr, Reader.Client.current_isSome_iff hw hr hfit⟩

/-- The array `["on"]`, read with coercion on: opened, stepped to its element, which is read as a
boolean, stepped past its end, and checked for the end. -/
theorem frames_follow_cursors_on_coerced_array :
    (Reader.Client.ofSource (ofValue (.array [.string "on"]) true)).Disciplined
        [.array false, .next 0, .scalar .bool, .next 0, .finish] ∧
      (∀ n c, (Reader.Client.ofSource (ofValue (.array [.string "on"]) true)).after
          ([.array false, .next 0, .scalar .bool, .next 0, .finish].take n) = some c →
        ∃ w, w.Reaches (.array [.string "on"]) ∧ c.reader.source.Tracks w ∧
          Reader.Fits c.view.2 c.view.1 w ∧
          ((Source.isEof c.reader.source).1 = true ↔ w = (Walk.start (.array [.string "on"])).skip) ∧
          (c.reader.source.current.isSome = true ↔ c.reader.awaiting = true ∨
            w = .start (.array [.string "on"]))) ∧
      Reader.Answer.failed notInContainer ∉
        (Reader.Client.ofSource (ofValue (.array [.string "on"]) true)).run
          [.array false, .next 0, .scalar .bool, .next 0, .finish] := by
  -- each step of the run computes; the one cursor has none made after it
  have hd : (Reader.Client.ofSource (ofValue (.array [.string "on"]) true)).Disciplined
      [.array false, .next 0, .scalar .bool, .next 0, .finish] := by
    refine ⟨trivial, fun a c h => ?_⟩
    cases h
    refine ⟨Reader.innerDone_of_length_le (by simp [Reader.Client.ofSource]), fun a c h => ?_⟩
    cases h
    refine ⟨trivial, fun a c h => ?_⟩
    cases h
    refine ⟨Reader.innerDone_of_length_le (by simp [Reader.Client.ofSource]), fun a c h => ?_⟩
    cases h
    exact ⟨trivial, fun _ _ _ => trivial⟩
  exact ⟨hd, frames_follow_cursors _ _ _ hd⟩

end TreeSource

end JsonCodec
