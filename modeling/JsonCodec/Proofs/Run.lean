import Mathlib

/-! # Running steps with state and errors

Every step of a source or a reader is an `EStateM` computation, and the proofs speak of its
`run` on a state. Core and Batteries give the `run` of `bind`, `pure`, `get`, `set`, `modify`
and `map`, but core's `run` of `throw` is only for steps that return nothing; the lemma here
completes the set, so that `simp` runs a `do` block of steps whose own runs are known.

The lexeme readers return `Except` values. A reader that succeeded ran every step of its `do`
block successfully, and `Except.bind_eq_ok` takes such a block apart one step at a time.
-/

namespace EStateM

/-- A throw fails with its error and leaves the state as it is, whatever the result type. -/
@[simp] theorem run_throw_any {ε σ α : Type} (e : ε) (s : σ) :
    EStateM.run (throw e : EStateM ε σ α) s = .error e s := rfl

/-- A bind that succeeds ran both of its steps successfully, the second from where the first
left the state. -/
theorem run_bind_eq_ok {ε σ α β : Type} {x : EStateM ε σ α} {f : α → EStateM ε σ β} {s s' : σ}
    {b : β} : (x >>= f).run s = .ok b s' ↔ ∃ a s₁, x.run s = .ok a s₁ ∧ (f a).run s₁ = .ok b s' := by
  rw [run_bind]
  cases x.run s <;> simp

/-- A step followed by a pure function of its result succeeded where the step did. -/
theorem run_map_pure_eq_ok {ε σ α β : Type} {x : EStateM ε σ α} {f : α → β} {s s' : σ} {b : β}
    (h : (x >>= fun a => pure (f a)).run s = .ok b s') : ∃ a, x.run s = .ok a s' := by
  obtain ⟨a, s₁, hx, hp⟩ := run_bind_eq_ok.1 h
  simp only [run_pure, Result.ok.injEq] at hp
  exact ⟨a, hp.2 ▸ hx⟩

/-- Two continuations that agree wherever the first step can lead make binds that agree. -/
theorem run_bind_congr {ε σ α β : Type} {x : EStateM ε σ α} {f g : α → EStateM ε σ β} {s : σ}
    (h : ∀ a s', x.run s = .ok a s' → (f a).run s' = (g a).run s') :
    (x >>= f).run s = (x >>= g).run s := by
  rw [run_bind, run_bind]
  cases hx : x.run s with
  | ok a s' => exact h a s' hx
  | error e s' => rfl

/-- A bind whose first step runs alike from two states runs alike from them. -/
theorem run_bind_eq_of_run_eq {ε σ α β : Type} {x : EStateM ε σ α} {s t : σ}
    (h : x.run s = x.run t) (f : α → EStateM ε σ β) : (x >>= f).run s = (x >>= f).run t := by
  rw [run_bind, run_bind, h]

namespace Result

/-- Two results alike but for the state a failure leaves: the same value and state, or the same
error. -/
def Alike {ε σ α : Type} : Result ε σ α → Result ε σ α → Prop
  | .ok a s, .ok b t => a = b ∧ s = t
  | .error e _, .error f _ => e = f
  | _, _ => False

/-- Equal results are alike. -/
theorem alike_of_eq {ε σ α : Type} {x y : Result ε σ α} (h : x = y) : x.Alike y := by
  subst h
  cases x <;> simp [Alike]

/-- Results alike are the same, or failures with one error. -/
theorem Alike.eq_or_error {ε σ α : Type} {x y : Result ε σ α} (h : x.Alike y) :
    x = y ∨ ∃ e s t, x = .error e s ∧ y = .error e t := by
  cases x with
  | ok a s =>
    cases y with
    | ok b t =>
      obtain ⟨rfl, rfl⟩ := h
      exact .inl rfl
    | error f t => cases h
  | error e s =>
    cases y with
    | ok b t => cases h
    | error f t =>
      cases h
      exact .inr ⟨e, s, t, rfl, rfl⟩

end Result

/-- A bind whose first step runs alike from two states, but for the state a failure leaves,
runs so from them. -/
theorem run_bind_alike {ε σ α β : Type} {x : EStateM ε σ α} {s t : σ}
    (h : (x.run s).Alike (x.run t)) (f : α → EStateM ε σ β) :
    ((x >>= f).run s).Alike ((x >>= f).run t) := by
  rcases h.eq_or_error with h | ⟨e, s', t', hs, ht⟩
  · exact Result.alike_of_eq (run_bind_eq_of_run_eq h f)
  · rw [run_bind, run_bind, hs, ht]
    exact rfl

end EStateM

namespace Except

/-- A bind that succeeds ran both of its steps successfully. -/
theorem bind_eq_ok {ε α β : Type} {x : Except ε α} {f : α → Except ε β} {b : β} :
    x >>= f = .ok b ↔ ∃ a, x = .ok a ∧ f a = .ok b := by
  cases x <;> simp [bind, Except.bind]

/-- A mapped result succeeded where the result did, its value mapped. -/
theorem map_eq_ok {ε α β : Type} {x : Except ε α} {f : α → β} {b : β} :
    x.map f = .ok b ↔ ∃ a, x = .ok a ∧ f a = b := by
  cases x <;> simp [Except.map]

/-- A throw is a failure with its error. -/
@[simp] theorem throw_eq_error {ε α : Type} (e : ε) : (throw e : Except ε α) = .error e := rfl

/-- Mapping a failure keeps it. -/
@[simp] theorem fmap_error {ε α β : Type} (f : α → β) (e : ε) :
    (f <$> (Except.error e : Except ε α)) = .error e := rfl

end Except
