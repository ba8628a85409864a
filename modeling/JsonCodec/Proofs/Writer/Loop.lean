import JsonCodec.Proofs.Writer.Value

/-! # The loop that writes a value writes what the recursion writes

`Writer.valueLoop` writes a whole value without recursion: it keeps the containers it is inside
as frames, each with the elements or members still to come, writes the value in hand, and then
takes the next one from the innermost frame, writing a member's name as soon as it takes the
member, or closes that frame with its bracket when nothing is left in it.

`Writer.closeFrames` says by recursion what the frames still owe once the value in hand has been
written: the rest of each container and its bracket, innermost first. The loop with a value in
hand writes that value and then what its frames owe, and with none it writes what its frames owe,
provided the fuel covers its turns; both halves are proved together by induction on the fuel
(`Writer.valueLoop_eq`). Twice the value's nodes is enough fuel for the whole value, so
`Writer.writeValue` writes exactly what `Writer.value` writes (`Writer.writeValue_eq_value`), and
every result about `Writer.value` holds of the loop.
-/

namespace JsonCodec

namespace Writer

/-- What the open frames still owe once the value in hand is written: the rest of each
container's elements or members, then its closing bracket, innermost first. -/
def closeFrames : Writer → List TreeFrame → Writer
  | w, [] => w
  | w, .array rest :: outer => closeFrames ((w.valueItems rest).endScope true) outer
  | w, .object rest :: outer => closeFrames ((w.valueMembers rest).endScope false) outer

/-- The turns the loop takes to finish its frames once the value in hand is written: two for
each node still to come, and one more for each frame, to close it. -/
def framesTurns : List TreeFrame → Nat
  | [] => 0
  | .array rest :: outer => 2 * Value.itemsSize rest + 1 + framesTurns outer
  | .object rest :: outer => 2 * Value.membersSize rest + 1 + framesTurns outer

/-- Every value has at least one node. -/
theorem one_le_size (v : Value) : 1 ≤ v.size := by
  cases v <;> simp [Value.size]

/-- A turn of the loop first writes the value in hand, so it is the turn that starts with the
writer and frames after `startValue` and nothing in hand. -/
theorem valueLoop_start (fuel : Nat) (w : Writer) (frames : List TreeFrame) (next : Option Value) :
    w.valueLoop (fuel + 1) frames next =
      (w.startValue frames next).1.valueLoop (fuel + 1) (w.startValue frames next).2 none := by
  cases next <;> rfl

/-- The loop, with enough fuel, writes the value in hand and then what its frames owe; with no
value in hand it writes what its frames owe. -/
theorem valueLoop_eq : ∀ fuel : Nat,
    (∀ (w : Writer) (frames : List TreeFrame), framesTurns frames + 1 ≤ fuel →
      w.valueLoop fuel frames none = w.closeFrames frames) ∧
    (∀ (w : Writer) (frames : List TreeFrame) (v : Value), 2 * v.size + framesTurns frames ≤ fuel →
      w.valueLoop fuel frames (some v) = (w.value v).closeFrames frames)
  | 0 => ⟨fun _ _ h => absurd h (by omega), fun _ _ v h => absurd h (by have := one_le_size v; omega)⟩
  | fuel + 1 => by
    obtain ⟨ihNone, ihSome⟩ := valueLoop_eq fuel
    -- with nothing in hand, the turn takes from the innermost frame or closes it
    have hNone : ∀ (w : Writer) (frames : List TreeFrame), framesTurns frames + 1 ≤ fuel + 1 →
        w.valueLoop (fuel + 1) frames none = w.closeFrames frames := by
      intro w frames hf
      cases frames with
      | nil => rfl
      | cons f outer =>
        cases f with
        | array rest =>
          cases rest with
          | nil => exact ihNone _ outer (by simp only [framesTurns] at hf; omega)
          | cons v rest =>
            refine ihSome w (.array rest :: outer) v ?_
            simp only [framesTurns, Value.itemsSize] at hf ⊢
            omega
        | object rest =>
          cases rest with
          | nil => exact ihNone _ outer (by simp only [framesTurns] at hf; omega)
          | cons m rest =>
            obtain ⟨k, v⟩ := m
            refine ihSome (w.writeName k) (.object rest :: outer) v ?_
            simp only [framesTurns, Value.membersSize] at hf ⊢
            omega
    refine ⟨hNone, fun w frames v hf => ?_⟩
    -- with a value in hand, the turn writes a scalar whole or opens a container as a new frame
    rw [valueLoop_start]
    cases v with
    | array items =>
      refine hNone _ (.array items :: frames) ?_
      simp only [framesTurns, Value.size] at hf ⊢
      omega
    | object members =>
      refine hNone _ (.object members :: frames) ?_
      simp only [framesTurns, Value.size] at hf ⊢
      omega
    | null | bool _ | number _ | string _ =>
      exact hNone _ frames (by simp only [Value.size] at hf; omega)

/-- The loop writes a whole value exactly as the recursion does. -/
theorem writeValue_eq_value (w : Writer) (v : Value) : w.writeValue v = w.value v :=
  (valueLoop_eq (2 * v.size)).2 w [] v (by simp [framesTurns])

end Writer

end JsonCodec
