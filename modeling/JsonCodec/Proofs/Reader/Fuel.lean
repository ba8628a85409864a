import JsonCodec.Proofs.Reader.Skip

/-! # Fuel above the budget

The loops that skip a value and read it whole run on fuel, one unit per value pulled, and
`skipValue` and `value` start them with one unit more than the source's budget. On a source that
keeps to its budget (`KeepsBudget`) the amount makes no difference once it is above the budget:

* `skipLoop_fuel_eq`, `valueLoop_fuel_eq`: two runs of a loop from the same state, with any two
  amounts of fuel above the budget, give the same result, failures and the state they leave
  included.

So what a whole read does depends on the state of the source alone, not on the budget it was
started from: two states that differ only in their budgets read alike.
-/

namespace JsonCodec.Reader

variable {σ : Type} [Source σ] {good : σ → Prop}

omit [Source σ] in
/-- A step of the source, run by the reader, succeeded on the source. -/
theorem run_lift_ok_source {α : Type} {m : EStateM ReadError σ α} {r r' : Reader σ} {a : α}
    (h : (lift m).run r = .ok a r') : m.run r.source = .ok a r'.source ∧ r'.awaiting = r.awaiting := by
  rw [run_lift] at h
  cases hm : m.run r.source with
  | ok b s =>
    rw [hm] at h
    cases h
    exact ⟨rfl, rfl⟩
  | error e s =>
    rw [hm] at h
    cases h

/-- Stepping a container of the source, run by the reader, keeps to the budget. -/
theorem containerStep_budget (hb : KeepsBudget good) {inArray first more : Bool} {r r' : Reader σ}
    (hr : good r.source) (h : (lift (containerStep inArray first)).run r = .ok more r') :
    good r'.source ∧ Source.budget r'.source ≤ Source.budget r.source :=
  hb.containerStep hr (run_lift_ok_source h).1

/-- An object's step, seen as the container step it is. -/
theorem containerStep_objectNext {first : Bool} {name : Option Text} {s s' : σ}
    (h : (Source.objectNext first).run s = .ok name s') :
    (containerStep false first).run s = .ok name.isSome s' := by
  simp [containerStep, h]

/-- Stepping out of containers costs nothing of the budget. -/
theorem stepOut_budget (hb : KeepsBudget good) (stack : List Bool) :
    ∀ (first : Bool) {r r' : Reader σ} {S : List Bool}, good r.source →
      (stepOut first stack).run r = .ok S r' →
        good r'.source ∧ Source.budget r'.source ≤ Source.budget r.source := by
  induction stack with
  | nil =>
    intro first r r' S hr h
    simp only [stepOut, EStateM.run_pure, EStateM.Result.ok.injEq] at h
    rw [← h.2]
    exact ⟨hr, le_rfl⟩
  | cons inArray stack ih =>
    intro first r r' S hr h
    rw [stepOut_cons, containerNext_eq_lift] at h
    obtain ⟨more, r₁, hstep, h⟩ := EStateM.run_bind_eq_ok.1 h
    obtain ⟨hr₁, hle₁⟩ := containerStep_budget hb hr hstep
    -- the container holds another value and the stack stays, or it closes and the step goes on
    -- outward
    cases more with
    | true =>
      simp only [if_true, EStateM.run_pure, EStateM.Result.ok.injEq] at h
      rw [← h.2]
      exact ⟨hr₁, hle₁⟩
    | false =>
      obtain ⟨hr', hle⟩ := ih false hr₁ h
      exact ⟨hr', le_trans hle hle₁⟩

/-! ### Skipping -/

/-- What the skipping loop does after a token does not depend on fuel above the budget, given
that the loop itself does not. -/
theorem skipRest_fuel_eq (hb : KeepsBudget good) {fuel fuel' : Nat}
    (hloop : ∀ (stack : List Bool) (r : Reader σ), good r.source →
      Source.budget r.source < fuel → Source.budget r.source < fuel' →
        (skipLoop fuel stack).run r = (skipLoop fuel' stack).run r)
    (first : Bool) (stack : List Bool) (r : Reader σ) (hr : good r.source)
    (hf : Source.budget r.source < fuel) (hf' : Source.budget r.source < fuel') :
    (skipRest first fuel stack).run r = (skipRest first fuel' stack).run r := by
  rw [skipRest_eq, skipRest_eq]
  apply EStateM.run_bind_congr
  intro S r₁ hS
  obtain ⟨hr₁, hle⟩ := stepOut_budget hb stack first hr hS
  split
  · rfl
  · exact hloop S r₁ hr₁ (by omega) (by omega)

/-- With fuel above the budget, the skipping loop does not depend on how much. -/
theorem skipLoop_fuel_eq (hb : KeepsBudget good) (fuel : Nat) :
    ∀ (fuel' : Nat) (stack : List Bool) (r : Reader σ), good r.source →
      Source.budget r.source < fuel → Source.budget r.source < fuel' →
        (skipLoop fuel stack).run r = (skipLoop fuel' stack).run r := by
  induction fuel with
  | zero => intro _ _ _ _ hf; omega
  | succ fuel ih =>
    intro fuel' stack r hr hf hf'
    obtain ⟨fuel', rfl⟩ : ∃ f, fuel' = f + 1 := ⟨fuel' - 1, by omega⟩
    rw [skipLoop_succ, skipLoop_succ]
    apply EStateM.run_bind_congr
    intro t r₁ hpull
    -- the token costs a unit, so what is left is still above the budget
    obtain ⟨hr₁, hlt⟩ := hb.nextValue hr (run_lift_ok_source hpull).1
    have hrest := skipRest_fuel_eq hb (fun stack r hr hf hf' => ih fuel' stack r hr hf hf')
    cases t <;> exact hrest _ _ r₁ hr₁ (by omega) (by omega)

/-! ### Reading whole -/

/-- Stepping an array being read keeps to the budget, given that settling into the containers
around it does. -/
theorem arrayRest_budget (hb : KeepsBudget good) {first : Bool} {acc : Array Value}
    {stack : List Open}
    (hsettle : ∀ (v : Value) {r r' : Reader σ} {x : Value ⊕ List Open}, good r.source →
      (settle v stack).run r = .ok x r' →
        good r'.source ∧ Source.budget r'.source ≤ Source.budget r.source)
    {r r' : Reader σ} {x : Value ⊕ List Open} (hr : good r.source)
    (h : (arrayRest first acc stack).run r = .ok x r') :
    good r'.source ∧ Source.budget r'.source ≤ Source.budget r.source := by
  obtain ⟨more, r₁, hstep, h⟩ := EStateM.run_bind_eq_ok.1 h
  -- an array's step is the container step of an array
  obtain ⟨hr₁, hle₁⟩ := hb.containerStep hr
    (show (containerStep true first).run r.source = .ok more r₁.source from (run_lift_ok_source hstep).1)
  -- an element follows: the array stays open; none: it closes and is settled
  cases more with
  | true =>
    simp only [if_true, EStateM.run_pure, EStateM.Result.ok.injEq] at h
    rw [← h.2]
    exact ⟨hr₁, hle₁⟩
  | false =>
    obtain ⟨hr', hle⟩ := hsettle _ hr₁ h
    exact ⟨hr', le_trans hle hle₁⟩

/-- Stepping an object being read keeps to the budget, given that settling into the containers
around it does. -/
theorem objectRest_budget (hb : KeepsBudget good) {first : Bool} {acc : List (String × Value)}
    {stack : List Open}
    (hsettle : ∀ (v : Value) {r r' : Reader σ} {x : Value ⊕ List Open}, good r.source →
      (settle v stack).run r = .ok x r' →
        good r'.source ∧ Source.budget r'.source ≤ Source.budget r.source)
    {r r' : Reader σ} {x : Value ⊕ List Open} (hr : good r.source)
    (h : (objectRest first acc stack).run r = .ok x r') :
    good r'.source ∧ Source.budget r'.source ≤ Source.budget r.source := by
  obtain ⟨name, r₁, hstep, h⟩ := EStateM.run_bind_eq_ok.1 h
  obtain ⟨hstep, hw⟩ := run_lift_ok_source hstep
  obtain ⟨hr₁, hle₁⟩ := hb.containerStep hr (containerStep_objectNext hstep)
  -- a member found: the object stays open; none: it closes and is settled
  cases name with
  | some n =>
    simp only [EStateM.run_pure, EStateM.Result.ok.injEq] at h
    rw [← h.2]
    exact ⟨hr₁, hle₁⟩
  | none =>
    obtain ⟨hr', hle⟩ := hsettle _ hr₁ h
    exact ⟨hr', le_trans hle hle₁⟩

/-- Settling a value into the open containers costs nothing of the budget. -/
theorem settle_budget (hb : KeepsBudget good) (stack : List Open) :
    ∀ (v : Value) {r r' : Reader σ} {x : Value ⊕ List Open}, good r.source →
      (settle v stack).run r = .ok x r' →
        good r'.source ∧ Source.budget r'.source ≤ Source.budget r.source := by
  induction stack with
  | nil =>
    intro v r r' x hr h
    simp only [settle, EStateM.run_pure, EStateM.Result.ok.injEq] at h
    rw [← h.2]
    exact ⟨hr, le_rfl⟩
  | cons o stack ih =>
    intro v r r' x hr h
    cases o with
    | array items => exact arrayRest_budget hb ih hr (by rwa [settle_array] at h)
    | object members name => exact objectRest_budget hb ih hr (by rwa [settle_object] at h)

/-- Whatever the reading loop does with a token costs nothing of the budget. -/
theorem valueStep_budget (hb : KeepsBudget good) (t : Token) (stack : List Open) {r r' : Reader σ}
    {x : Value ⊕ List Open} (hr : good r.source) (h : (valueStep t stack).run r = .ok x r') :
    good r'.source ∧ Source.budget r'.source ≤ Source.budget r.source := by
  cases t with
  | arrayStart => exact arrayRest_budget hb (settle_budget hb stack) hr h
  | objectStart => exact objectRest_budget hb (settle_budget hb stack) hr h
  | _ => exact settle_budget hb stack _ hr h

/-- With fuel above the budget, the reading loop does not depend on how much. -/
theorem valueLoop_fuel_eq (hb : KeepsBudget good) (fuel : Nat) :
    ∀ (fuel' : Nat) (stack : List Open) (r : Reader σ), good r.source →
      Source.budget r.source < fuel → Source.budget r.source < fuel' →
        (valueLoop fuel stack).run r = (valueLoop fuel' stack).run r := by
  induction fuel with
  | zero => intro _ _ _ _ hf; omega
  | succ fuel ih =>
    intro fuel' stack r hr hf hf'
    obtain ⟨fuel', rfl⟩ : ∃ f, fuel' = f + 1 := ⟨fuel' - 1, by omega⟩
    rw [valueLoop_succ, valueLoop_succ]
    apply EStateM.run_bind_congr
    intro t r₁ hpull
    obtain ⟨hr₁, hlt⟩ := hb.nextValue hr (run_lift_ok_source hpull).1
    apply EStateM.run_bind_congr
    intro x r₂ hx
    obtain ⟨hr₂, hle⟩ := valueStep_budget hb t stack hr₁ hx
    -- a finished value is returned alike; open containers are read on with the fuel left
    cases x with
    | inl v => rfl
    | inr stack => exact ih fuel' stack r₂ hr₂ (by omega) (by omega)

end JsonCodec.Reader
