import JsonCodec.Proofs.Walk
import JsonCodec.Proofs.Run

/-! # A tree in memory follows its walk

A `TreeSource` holds exactly what a walk holds: the next node and the containers around it. It
stands where a walk stands when the two agree on both and its count of nodes still to come is at
least the walk's (`TreeSource.Tracks`). Every step of the source then does what the walk does,
with or without coercion, as long as a value is asked for by its own kind (`tracks_follows`).
-/

namespace JsonCodec

namespace TreeSource

/-- The tree source stands where the walk stands. -/
def Tracks (t : TreeSource) (w : Walk) : Prop :=
  t.current = w.current ∧ t.frames = w.frames ∧ w.size ≤ t.remaining

/-- A tree at its root stands where the walk of the whole document stands. -/
theorem tracks_ofValue (v : Value) (coerce : Bool) : (ofValue v coerce).Tracks (.start v) :=
  ⟨rfl, rfl, by simp [Walk.size, Walk.start, ofValue]⟩

/-- Coercion changes no token that already has the kind asked for, nor a null. -/
theorem coerce_of_admits {v : Value} {k : Kind} {allowNull : Bool}
    (h : v.kind.admits (some k) allowNull) : (nodeToken v).coerce k = nodeToken v := by
  simp only [Kind.admits, Bool.or_eq_true, beq_iff_eq, Bool.and_eq_true] at h
  cases v <;> cases k <;> simp_all [Value.kind, nodeToken, Token.coerce]

/-- Pulling a node of an admitted kind gives its token, takes one from the count and pushes the
container it opens. -/
theorem nextValue_run {t : TreeSource} {v : Value} {desired : Option Kind} {allowNull : Bool}
    (hc : t.current = some v) (h : v.kind.admits desired allowNull) :
    (nextValue desired allowNull).run t =
      .ok (nodeToken v)
        { t with current := none, remaining := t.remaining - 1,
                 frames := ((nodeFrame v).map fun f => [f]).getD [] ++ t.frames } := by
  have hcheck : (nodeToken v).check desired allowNull none = .ok (nodeToken v) :=
    Token.check_of_admits (by simpa using h) none
  cases desired with
  | none =>
    simp only [EStateM.run, nextValue, bind, EStateM.bind, get, getThe, MonadStateOf.get,
      EStateM.get, hc, set, MonadStateOf.set, EStateM.set, hcheck]
    cases v <;> rfl
  | some k =>
    simp only [EStateM.run, nextValue, bind, EStateM.bind, get, getThe, MonadStateOf.get,
      EStateM.get, hc, set, MonadStateOf.set, EStateM.set, coerce_of_admits h, ite_self, hcheck]
    cases v <;> rfl

/-- Pulling the next node keeps the tree where the walk stands once the walk takes it. -/
theorem tracks_take {t : TreeSource} {w : Walk} {v : Value} (ht : t.Tracks w)
    (hc : w.current = some v) :
    Tracks { t with current := none, remaining := t.remaining - 1,
                    frames := ((nodeFrame v).map fun f => [f]).getD [] ++ t.frames } w.take := by
  obtain ⟨h1, h2, h3⟩ := ht
  have hs := Walk.size_take hc
  refine ⟨?_, ?_, by simp only; omega⟩ <;> cases v <;> simp [Walk.take, hc, nodeFrame, h2]

/-- A container step of the tree keeps it where the walk stands, when the step keeps the nodes to
come. -/
theorem tracks_step {t : TreeSource} {w : Walk} (ht : t.Tracks w) (hs : w.step.size = w.size) :
    Tracks { t with current := w.step.current, frames := w.step.frames } w.step :=
  ⟨rfl, rfl, by rw [hs]; exact ht.2.2⟩

/-- Trees follow their walks. -/
theorem tracks_follows : FollowsWalk Tracks where
  nextValue {t w v desired allowNull} ht hc h :=
    ⟨_, _, nextValue_run (ht.1.trans hc) h, by cases v <;> rfl, tracks_take ht hc⟩
  peekKind {t w v} ht hc := by
    refine ⟨t, ?_, ht⟩
    simp [Source.peekKind, TreeSource.peekKind, ht.1.trans hc]
  arrayNext {t w items fs} ht hc hf := by
    refine ⟨_, ?_, tracks_step ht (Walk.size_step hc hf)⟩
    -- the tree's step is the walk's: the next element becomes the current node, or the array
    -- closes
    cases items <;>
      simp [Source.arrayNext, TreeSource.arrayNext, ht.2.1.trans hf, Walk.step, hf]
  objectNext {t w members fs} ht hc hf := by
    refine ⟨members.head?.map fun m => ⟨m.1, true⟩, _, ?_, ?_,
      tracks_step ht (Walk.size_step hc hf)⟩
    · -- the next member's value becomes the current node and its name is handed out, or the object
      -- closes
      rcases members with _ | ⟨⟨k, v⟩, rest⟩ <;>
        simp [Source.objectNext, TreeSource.objectNext, ht.2.1.trans hf, Walk.step, hf]
    · rcases members with _ | ⟨⟨k, v⟩, rest⟩ <;> rfl
  isEof {t w} ht := by
    refine ⟨?_, ht⟩
    simp [Source.isEof, Walk.atEnd, ht.1, ht.2.1]
  budget {t w} ht := ht.2.2

end TreeSource

end JsonCodec
