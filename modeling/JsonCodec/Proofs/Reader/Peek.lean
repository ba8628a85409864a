import JsonCodec.Proofs.Reader.Client
import JsonCodec.Proofs.Reader.Fuel
import JsonCodec.Proofs.Scanner.Lookahead

/-! # Looking at a value changes no later answer

`peekKind` on the scanner reads the next token and puts it back: the scanner moves past the
token and its offset moves to the token's start. No later answer of the reader shows that it
looked, but for `offset` asked before the value is consumed.

Two clients are compared, one that looked (`cp`) and one that did not (`cu`), kept in step by
`Window`: the same cursors, readers awaiting alike, and `cp`'s scanner holding the token that
`cu`'s has yet to take (`Reader.Peeked`). Each call either

* consumes the value (`Call.consumes`): a read, `any`, skipping, `finish`, or a step of the
  cursor standing at the value. Both clients give the same answer, and after it they are the
  same client, or, after the first step into an array, still in step with equal offsets
  (`Window.step_consumes`);
* or only looks: both answer alike but for `offset`, and stay in step (`Window.step_looks`).

Whole reads start their fuel from the budget, which the look lowers by the token taken; fuel
above the budget makes no difference (`skipLoop_fuel_eq`). The nesting rule keeps a client from
stepping another open cursor while the value waits.

`peekKind_keeps_later_answers` puts it together: a client stands on a value at the start, right
after a cursor's step to a value, and right after a container is opened; looking there changes
no later answer of a run that keeps to the nesting rule, except that `offset` reports the
value's start until the value is consumed (`afterPeek`), which is where reading the value puts
the offset.
-/

namespace JsonCodec

namespace Reader

/-! ### Readers a token apart -/

/-- Two readers over the scanner, awaiting alike, the first holding the token the second has
yet to take, or the second the same as the first. -/
def Peeked (p u : Reader Scanner) : Prop :=
  p.awaiting = u.awaiting ∧ Scanner.Peeked p.source u.source

section Peeked

variable {p u : Reader Scanner}

/-- A step of the scanner that runs alike on the two runs alike on the readers. -/
theorem Peeked.lift_run {α : Type} (h : Peeked p u) {m : ScanM α}
    (hm : m.run p.source = m.run u.source) : (lift m).run p = (lift m).run u := by
  obtain ⟨ps, pa⟩ := p
  obtain ⟨us, ua⟩ := u
  obtain ⟨rfl, -⟩ := h
  simp only [run_lift] at hm ⊢
  rw [hm]

/-- Beginning a read keeps two readers a token apart. -/
theorem Peeked.beginRead (h : Peeked p u) :
    Peeked { p with awaiting := false } { u with awaiting := false } := ⟨rfl, h.2⟩

/-- A value pulled is the token held, pulled alike from both. -/
theorem Peeked.pull_run (h : Peeked p u) (desired : Option Kind) (allowNull : Bool) :
    (lift (Source.nextValue desired allowNull)).run p =
      (lift (Source.nextValue desired allowNull)).run u :=
  h.lift_run (h.2.nextValue_run desired allowNull)

/-- A value taken by kind is the token held, taken alike from both. -/
theorem Peeked.take_run (h : Peeked p u) (k : Kind) (allowNull : Bool) :
    (take k allowNull).run p = (take k allowNull).run u := by
  simp only [take, EStateM.run_bind, run_beginRead]
  exact h.beginRead.pull_run _ _

/-- A value of any kind is the token held, taken alike from both. -/
theorem Peeked.any_run (h : Peeked p u) : (any : ReadM Scanner Token).run p = any.run u := by
  simp only [any, EStateM.run_bind, run_beginRead]
  exact h.beginRead.pull_run _ _

/-- A number read takes the token held, alike from both. -/
theorem Peeked.double_run (h : Peeked p u) : (double : ReadM Scanner Double).run p = double.run u :=
  EStateM.run_bind_eq_of_run_eq (h.take_run _ _) _

/-- A read of a number or a null takes the token held, alike from both. -/
theorem Peeked.doubleOrNull_run (h : Peeked p u) :
    (doubleOrNull : ReadM Scanner (Option Double)).run p = doubleOrNull.run u :=
  EStateM.run_bind_eq_of_run_eq (h.take_run _ _) _

/-- A string read takes the token held, alike from both. -/
theorem Peeked.string_run (h : Peeked p u) : (string : ReadM Scanner Text).run p = string.run u :=
  EStateM.run_bind_eq_of_run_eq (h.take_run _ _) _

/-- Every scalar read takes the token held, alike from both. -/
theorem Peeked.scalar_run (h : Peeked p u) (sr : ScalarRead) :
    (sr.run : ReadM Scanner Event).run p = sr.run.run u := by
  -- each scalar read starts by taking the token held, directly or through a number read, and goes
  -- on from its result alone
  cases sr with
  | null => exact EStateM.run_bind_eq_of_run_eq (EStateM.run_bind_eq_of_run_eq (h.take_run _ _) _) _
  | bool => exact EStateM.run_bind_eq_of_run_eq (EStateM.run_bind_eq_of_run_eq (h.take_run _ _) _) _
  | boolOrNull =>
    exact EStateM.run_bind_eq_of_run_eq (EStateM.run_bind_eq_of_run_eq (h.take_run _ _) _) _
  | int => exact EStateM.run_bind_eq_of_run_eq (EStateM.run_bind_eq_of_run_eq h.double_run _) _
  | intOrNull =>
    exact EStateM.run_bind_eq_of_run_eq (EStateM.run_bind_eq_of_run_eq h.doubleOrNull_run _) _
  | long => exact EStateM.run_bind_eq_of_run_eq (EStateM.run_bind_eq_of_run_eq h.double_run _) _
  | longOrNull =>
    exact EStateM.run_bind_eq_of_run_eq (EStateM.run_bind_eq_of_run_eq h.doubleOrNull_run _) _
  | double => exact EStateM.run_bind_eq_of_run_eq h.double_run _
  | doubleOrNull => exact EStateM.run_bind_eq_of_run_eq h.doubleOrNull_run _
  | string => exact EStateM.run_bind_eq_of_run_eq h.string_run _
  | stringOrNull =>
    exact EStateM.run_bind_eq_of_run_eq (EStateM.run_bind_eq_of_run_eq (h.take_run _ _) _) _

/-- Looking again sees the token held, and leaves both where the first stands. -/
theorem Peeked.peekKind_run (h : Peeked p u) :
    ∃ k, (peekKind : ReadM Scanner Kind).run p = .ok k p ∧ peekKind.run u = .ok k p := by
  obtain ⟨k, hp, hu⟩ := h.2.peekKind_run
  have hp' : (Source.peekKind : ScanM Kind).run p.source = .ok k p.source := hp
  have hu' : (Source.peekKind : ScanM Kind).run u.source = .ok k p.source := hu
  refine ⟨k, ?_, ?_⟩
  · simp only [peekKind, run_lift, hp']
  · simp only [peekKind, run_lift, hu']
    obtain ⟨ps, pa⟩ := p
    obtain ⟨us, ua⟩ := u
    obtain ⟨rfl, -⟩ := h
    rfl

/-- Neither is at the end; the second keeps its offset and stays in step. -/
theorem Peeked.isEof_run (h : Peeked p u) :
    (isEof : ReadM Scanner Bool).run p = .ok false p ∧
      ∃ u', (isEof : ReadM Scanner Bool).run u = .ok false u' ∧ Peeked p u' ∧
        u'.offset = u.offset := by
  obtain ⟨hp, hu, hpu, hlast⟩ := h.2.isEof
  refine ⟨?_, { u with source := u.source.isEof.2 }, ?_, ⟨h.1, hpu⟩, ?_⟩
  · show EStateM.Result.ok (Scanner.isEof p.source).1 { p with source := (Scanner.isEof p.source).2 } = _
    rw [hp]
  · show EStateM.Result.ok (Scanner.isEof u.source).1 { u with source := (Scanner.isEof u.source).2 } = _
    rw [hu]
  · show some _ = some _
    rw [hlast]

/-- Skipping takes the token held and what follows it alike from both: each loop starts above
its budget, so both may run on the larger amount. -/
theorem Peeked.skipValue_run (h : Peeked p u) :
    (skipValue : ReadM Scanner Unit).run p = skipValue.run u := by
  have hle : Scanner.budget p.source ≤ Scanner.budget u.source := h.2.budget_le
  simp only [skipValue, EStateM.run_bind, run_beginRead, run_get]
  rw [skipLoop_fuel_eq Scanner.keepsBudget (Source.budget p.source + 1)
    (Source.budget u.source + 1) [] { p with awaiting := false } trivial (Nat.lt_succ_self _)
    (Nat.lt_succ_of_le hle), skipLoop_succ]
  exact EStateM.run_bind_eq_of_run_eq (h.beginRead.pull_run _ _) _

/-- Reading a value whole takes it alike from both, as skipping does. -/
theorem Peeked.value_run (h : Peeked p u) : (value : ReadM Scanner Value).run p = value.run u := by
  have hle : Scanner.budget p.source ≤ Scanner.budget u.source := h.2.budget_le
  simp only [value, EStateM.run_bind, run_beginRead, run_get]
  rw [valueLoop_fuel_eq Scanner.keepsBudget (Source.budget p.source + 1)
    (Source.budget u.source + 1) [] { p with awaiting := false } trivial (Nat.lt_succ_self _)
    (Nat.lt_succ_of_le hle), valueLoop_succ]
  exact EStateM.run_bind_eq_of_run_eq (h.beginRead.pull_run _ _) _

/-- A typed read starts by taking the token held, or by looking at it: alike from both. -/
theorem Peeked.read_run (h : Peeked p u) (sch : Schema) :
    (sch.read : ReadM Scanner sch.Carrier).run p = sch.read.run u := by
  cases sch with
  | bool => exact EStateM.run_bind_eq_of_run_eq (h.take_run _ _) _
  | int32 => exact EStateM.run_bind_eq_of_run_eq h.double_run _
  | int64 => exact EStateM.run_bind_eq_of_run_eq h.double_run _
  | uint32 => exact EStateM.run_bind_eq_of_run_eq h.double_run _
  | float => exact h.double_run
  | string => exact EStateM.run_bind_eq_of_run_eq h.string_run _
  | text => exact h.string_run
  | value => exact h.value_run
  | option s =>
    obtain ⟨k, hp, hu⟩ := h.peekKind_run
    exact EStateM.run_bind_eq_of_run_eq (hp.trans hu.symm) _
  | list s => exact EStateM.run_bind_eq_of_run_eq (EStateM.run_bind_eq_of_run_eq (h.take_run _ _) _) _
  | map s => exact EStateM.run_bind_eq_of_run_eq (EStateM.run_bind_eq_of_run_eq (h.take_run _ _) _) _

/-- Checking for the end fails alike on both: the token held is trailing data, reported where
it begins. -/
theorem Peeked.finish_run (h : Peeked p u) : (finish : ReadM Scanner Unit).run p = finish.run u := by
  obtain ⟨hp, u', hu, hpu, -⟩ := h.isEof_run
  obtain ⟨k, hpk, -⟩ := h.peekKind_run
  obtain ⟨k', -, hupk⟩ := hpu.peekKind_run
  simp only [finish, EStateM.run_bind, hp, hu]
  simp [hpk, hupk]

/-- Both have looked once more: the one that looked first is a token ahead of itself. -/
theorem Peeked.refl (h : Peeked p u) : Peeked p p := ⟨rfl, h.2.refl⟩

/-- Reading the value takes the token held, and leaves the offset where looking put it. -/
theorem Peeked.any_offset (h : Peeked p u) :
    ∃ t r, (any : ReadM Scanner Token).run u = .ok t r ∧ r.offset = p.offset := by
  obtain ⟨t, ht⟩ := Option.isSome_iff_exists.1 h.2.held
  refine ⟨t, ⟨{ p.source with pending := none }, false⟩, ?_, rfl⟩
  rw [← h.any_run]
  simp [any, Scanner.nextValue_run (Scanner.next_held ht) (show t.kind.admits none true from rfl)]

/-! ### Stepping the cursor at the value -/

/-- With the value awaited, stepping an array skips it first: alike from both. -/
theorem Peeked.advanceArray_skip (h : Peeked p u) (hw : u.awaiting = true) :
    (advanceArray false).run p = (advanceArray false).run u := by
  have hwp : p.awaiting = true := h.1.trans hw
  simp only [advanceArray, EStateM.run_bind, run_get, hw, hwp, Bool.not_false, Bool.true_and,
    if_true]
  rw [h.skipValue_run]

/-- With the value awaited, stepping an object skips it first: alike from both. -/
theorem Peeked.advanceObject_skip (h : Peeked p u) (hw : u.awaiting = true) :
    (advanceObject false).run p = (advanceObject false).run u := by
  have hwp : p.awaiting = true := h.1.trans hw
  simp only [advanceObject, EStateM.run_bind, run_get, hw, hwp, Bool.not_false, Bool.true_and,
    if_true]
  rw [h.skipValue_run]

/-- The first step into an object reads the name that the token held begins: alike from both,
but for where a failure leaves them. -/
theorem Peeked.advanceObject_first (h : Peeked p u) :
    ((advanceObject true).run p).Alike ((advanceObject true).run u) := by
  rw [advanceObject_run_eq (by simp), advanceObject_run_eq (by simp)]
  rcases h.2.objectNext_first with heq | ⟨e, sp, su, hp, hu⟩
  · have heq' : (Source.objectNext true : ScanM (Option Text)).run p.source =
        (Source.objectNext true).run u.source := heq
    rw [heq', h.1]
    exact EStateM.Result.alike_of_eq rfl
  · have hp' : (Source.objectNext true : ScanM (Option Text)).run p.source = .error e sp := hp
    have hu' : (Source.objectNext true : ScanM (Option Text)).run u.source = .error e su := hu
    rw [hp', hu']
    exact rfl

/-- An array cursor's step at the value: the same from both, or, for the first step, true from
both with the cursor moved alike, the readers still a token apart and at one offset. -/
theorem Peeked.arrayCursor_next (h : Peeked p u) {c : ArrayCursor} (hd : c.done = false)
    (hw : c.started = false ∨ u.awaiting = true) :
    (c.next).run p = (c.next).run u ∨
      ∃ p' u', (c.next).run p = .ok (true, { c with started := true, done := false }) p' ∧
        (c.next).run u = .ok (true, { c with started := true, done := false }) u' ∧
        Peeked p' u' ∧ p'.offset = u'.offset := by
  cases hs : c.started with
  | false =>
    -- the first step looks for the closing bracket and finds the token held instead
    obtain ⟨hp, u', hu, hpu, hlast⟩ := h.2.arrayNext_first
    have hp' : (Source.arrayNext true : ScanM Bool).run p.source = .ok true p.source := hp
    have hu' : (Source.arrayNext true : ScanM Bool).run u.source = .ok true u' := hu
    refine .inr ⟨⟨p.source, true⟩, ⟨u', true⟩, ?_, ?_, ⟨rfl, hpu⟩, ?_⟩
    · simp [arrayCursor_next_run_eq hd (by simp [hs] : (c.started && p.awaiting) = false), hs, hp']
    · simp [arrayCursor_next_run_eq hd (by simp [hs] : (c.started && u.awaiting) = false), hs, hu']
    · show some _ = some _
      rw [hlast]
  | true =>
    have hw' : u.awaiting = true := by simpa [hs] using hw
    left
    simp only [ArrayCursor.next, hd, Bool.false_eq_true, if_false, hs, Bool.not_true]
    exact EStateM.run_bind_eq_of_run_eq (h.advanceArray_skip hw') _

/-- An object cursor's step at the value: alike from both, but for where a failure leaves
them. -/
theorem Peeked.objectCursor_next (h : Peeked p u) {c : ObjectCursor} (hd : c.done = false)
    (hw : c.started = false ∨ u.awaiting = true) :
    ((c.next).run p).Alike ((c.next).run u) := by
  cases hs : c.started with
  | false =>
    simp only [ObjectCursor.next, hd, Bool.false_eq_true, if_false, hs, Bool.not_false]
    exact EStateM.run_bind_alike h.advanceObject_first _
  | true =>
    have hw' : u.awaiting = true := by simpa [hs] using hw
    apply EStateM.Result.alike_of_eq
    simp only [ObjectCursor.next, hd, Bool.false_eq_true, if_false, hs, Bool.not_true]
    exact EStateM.run_bind_eq_of_run_eq (h.advanceObject_skip hw') _

end Peeked

/-! ### Calls that read nothing -/

/-- How far a cursor has gone: whether it is done, and whether it was stepped. -/
def Cursor.progress (cur : Cursor) : Bool × Bool := (cur.done, cur.started)

/-- Putting a cursor as far along in another's place changes how far the cursors have gone in
nothing. -/
theorem progress_set {cs : List Cursor} {i : Nat} {cur cur' : Cursor} (hi : cs[i]? = some cur)
    (hp : cur'.progress = cur.progress) :
    (cs.set i cur').map Cursor.progress = cs.map Cursor.progress := by
  have hlt : i < cs.length := (List.getElem?_eq_some_iff.1 hi).1
  apply List.ext_getElem?
  intro j
  rw [List.getElem?_map, List.getElem?_map]
  by_cases hj : i = j
  · subst hj
    rw [List.getElem?_set_self hlt, hi]
    exact congrArg some hp
  · rw [List.getElem?_set_ne hj]

/-- `name`, `defined` and `require` answer from the cursors alone: they leave the reader as it
is and move no cursor on. -/
theorem Call.run_onCursor {σ : Type} [Source σ] (call : Call) (cs : List Cursor)
    (hc : (∃ i, call = .name i) ∨ (∃ i, call = .defined i) ∨ ∃ i names, call = .require i names) :
    ∃ a cs', (∀ r : Reader σ, (call.run cs).run r = .ok (a, cs') r) ∧
      cs'.map Cursor.progress = cs.map Cursor.progress := by
  rcases hc with ⟨i, rfl⟩ | ⟨i, rfl⟩ | ⟨i, names, rfl⟩
  · cases hi : cs[i]? with
    | none => exact ⟨.noCursor, cs, fun r => by simp [Call.run, hi], rfl⟩
    | some cur =>
      cases cur with
      | array c => exact ⟨.noCursor, cs, fun r => by simp [Call.run, hi], rfl⟩
      | object c => exact ⟨.name c.name, cs, fun r => by simp [Call.run, hi], rfl⟩
  · cases hi : cs[i]? with
    | none => exact ⟨.noCursor, cs, fun r => by simp [Call.run, hi], rfl⟩
    | some cur => exact ⟨.defined cur.defined, cs, fun r => by simp [Call.run, hi], rfl⟩
  · cases hi : cs[i]? with
    | none => exact ⟨.noCursor, cs, fun r => by simp [Call.run, hi], rfl⟩
    | some cur =>
      cases cur with
      | array c => exact ⟨.noCursor, cs, fun r => by simp [Call.run, hi], rfl⟩
      | object c =>
        -- requiring names changes what the cursor checks at the end, not how far it has gone
        exact ⟨.required, cs.set i (.object (c.requireAll names)),
          fun r => by simp [Call.run, hi], progress_set hi rfl⟩

/-- Stepping a cursor that is done, or that does not exist, reads nothing and changes nothing. -/
theorem Call.run_next_done {σ : Type} [Source σ] {cs : List Cursor} {i : Nat}
    (hd : ∀ cur ∈ cs[i]?, cur.done = true) :
    ∃ a, ∀ r : Reader σ, ((Call.next i).run cs).run r = .ok (a, cs) r := by
  cases hi : cs[i]? with
  | none => exact ⟨.noCursor, fun r => by simp [Call.run, hi]⟩
  | some cur =>
    have hcd : cur.done = true := hd cur (Option.mem_def.2 hi)
    obtain ⟨hlt, hget⟩ := List.getElem?_eq_some_iff.1 hi
    have hset : cs.set i cur = cs := by
      rw [← hget]
      exact List.set_getElem_self hlt
    -- a cursor that is done answers from what it holds and steps no container
    cases cur with
    | array c =>
      have hcd' : c.done = true := hcd
      exact ⟨.stepped false none, fun r => by simp [Call.run, hi, ArrayCursor.next, hcd', hset]⟩
    | object c =>
      have hcd' : c.done = true := hcd
      exact ⟨.stepped false (some c.name), fun r => by
        simp [Call.run, hi, ObjectCursor.next, hcd', hset]⟩

/-! ### Where the client stands -/

namespace Client

variable {σ : Type}

/-- Where a client stands depends on how far its cursors have gone and on whether a value is
awaited, not on what else they hold. -/
theorem AtValue.of_progress {c d : Client σ} {owner : Option Nat} (ha : c.AtValue owner)
    (hcs : d.cursors.map Cursor.progress = c.cursors.map Cursor.progress)
    (hw : d.reader.awaiting = c.reader.awaiting) : d.AtValue owner := by
  -- each cursor of `d` has its like at the same place of `c`, and the other way round
  have hat : ∀ j : Nat, d.cursors[j]?.map Cursor.progress = c.cursors[j]?.map Cursor.progress := by
    intro j
    have hj := congrArg (fun l : List (Bool × Bool) => l[j]?) hcs
    simpa only [List.getElem?_map] using hj
  have hlike : ∀ j : Nat, ∀ x ∈ d.cursors[j]?, ∃ y ∈ c.cursors[j]?, x.progress = y.progress := by
    intro j x hx
    have hj := hat j
    rw [Option.mem_def.1 hx, Option.map_some] at hj
    obtain ⟨y, hy, hxy⟩ := Option.map_eq_some_iff.1 hj.symm
    exact ⟨y, hy, hxy.symm⟩
  cases owner with
  | none =>
    intro x hx
    obtain ⟨j, hj⟩ := List.mem_iff_getElem?.1 hx
    obtain ⟨y, hy, hxy⟩ := hlike j x hj
    have hdone : x.done = y.done := congrArg Prod.fst hxy
    rw [hdone]
    exact ha y (List.mem_of_getElem? hy)
  | some i =>
    obtain ⟨hin, y, hy, hyd, hys⟩ := ha
    refine ⟨fun j hj x hx => ?_, ?_⟩
    · obtain ⟨z, hz, hxz⟩ := hlike j x hx
      have hdone : x.done = z.done := congrArg Prod.fst hxz
      rw [hdone]
      exact hin j hj z hz
    · have hi := hat i
      rw [Option.mem_def.1 hy, Option.map_some] at hi
      obtain ⟨x, hx, hxy⟩ := Option.map_eq_some_iff.1 hi
      have hdone : x.done = y.done := congrArg Prod.fst hxy
      have hstarted : x.started = y.started := congrArg Prod.snd hxy
      refine ⟨x, hx, hdone ▸ hyd, ?_⟩
      rw [hstarted, hw]
      exact hys

/-- A client standing on a value steps none but the cursor at the value (the nesting rule keeps
it from stepping one around it): any other it steps is done, or does not exist. -/
theorem AtValue.done_of_nested {c : Client σ} {owner : Option Nat} {i : Nat}
    (ha : c.AtValue owner) (hn : InnerDone c.cursors i) (hi : owner ≠ some i) :
    ∀ cur ∈ c.cursors[i]?, cur.done = true := by
  intro cur hcur
  cases owner with
  | none => exact ha cur (List.mem_of_getElem? hcur)
  | some j =>
    obtain ⟨hin, cur', hcur', hnd, -⟩ := ha
    have hij : i ≠ j := fun h => hi (congrArg some h.symm)
    rcases Nat.lt_or_gt_of_ne hij with hlt | hgt
    · -- a cursor made after `i` is open, which the nesting rule forbids
      have := hn j hlt cur' hcur'
      rw [hnd] at this
      cases this
    · exact hin i hgt cur hcur

end Client

/-! ### Two clients a look apart -/

/-- The client that looked (`cp`) and the one that did not (`cu`), with the value still unread
at cursor `owner` (or at the top): the same cursors, the readers a token apart, and the client
standing on the value. -/
structure Window (owner : Option Nat) (cp cu : Client Scanner) : Prop where
  cursors : cp.cursors = cu.cursors
  peeked : cp.reader.Peeked cu.reader
  atValue : cu.AtValue owner

/-- Whether a call consumes the value at cursor `owner`: a read of any kind, skipping, `finish`,
or a step of that cursor. Looking, `isEof`, `offset` and the calls that read nothing do not. -/
def Call.consumes (owner : Option Nat) : Call → Bool
  | .peek | .isEof | .offset | .name _ | .defined _ | .require _ _ => false
  | .next i => owner == some i
  | _ => true

/-- The answer of a call with `o` for the offset it reports: only `offset` reports one. -/
def Call.patch : Call → Option Nat → Answer → Answer
  | .offset, o, _ => .offset o
  | _, _, a => a

/-- Only the last offset patched in stays. -/
theorem Call.patch_patch (call : Call) (o o' : Option Nat) (a : Answer) :
    call.patch o (call.patch o' a) = call.patch o a := by
  cases call <;> rfl

/-- The answers of a run, with every `offset` asked before the value at cursor `owner` is
consumed reporting `start`. -/
def afterPeek (owner start : Option Nat) : List Call → List Answer → List Answer
  | call :: calls, a :: as =>
    if call.consumes owner then a :: as else call.patch start a :: afterPeek owner start calls as
  | _, as => as

/-- A run that consumes the value with its first call keeps all its answers as they are. -/
theorem afterPeek_of_consumes {σ : Type} [Source σ] {owner start : Option Nat} {call : Call}
    (hc : call.consumes owner = true) (c : Client σ) (calls : List Call) :
    afterPeek owner start (call :: calls) (c.run (call :: calls)) = c.run (call :: calls) := by
  simp only [Client.run]
  split <;> simp [afterPeek, hc]

namespace Window

variable {owner : Option Nat} {cp cu : Client Scanner}

/-- Two clients with the same cursors whose call runs alike, but for where a failure leaves
them, step alike: a failure ends the run with its error alone. -/
theorem step_eq_of_alike (hw : Window owner cp cu) {call : Call}
    (h : ((call.run cp.cursors).run cp.reader).Alike ((call.run cp.cursors).run cu.reader)) :
    cp.step call = cu.step call := by
  unfold Client.step
  rw [← hw.cursors]
  rcases h.eq_or_error with h | ⟨e, s, t, hs, ht⟩
  · rw [h]
  · rw [hs, ht]

/-- Both have looked: the one that looked first is in step with itself. -/
theorem refl (hw : Window owner cp cu) : Window owner cp cp :=
  ⟨rfl, hw.peeked.refl, hw.atValue.of_progress (by rw [hw.cursors]) hw.peeked.1⟩

/-- A call that reads nothing and reports no offset answers alike from both, keeps them in
step, and moves neither. -/
theorem step_onCursor (hw : Window owner cp cu) {call : Call}
    (hrun : ∃ a cs, (∀ r : Reader Scanner, (call.run cu.cursors).run r = .ok (a, cs) r) ∧
      cs.map Cursor.progress = cu.cursors.map Cursor.progress)
    (hpatch : ∀ o a, call.patch o a = a) :
    ∃ a cp' cu', cp.step call = (call.patch cp.offset a, some cp') ∧
      cu.step call = (call.patch cu.offset a, some cu') ∧ Window owner cp' cu' ∧
      cp'.offset = cp.offset ∧ (cu'.offset = cu.offset ∨ cu'.offset = cp.offset) := by
  obtain ⟨a, cs, hrun, hcs⟩ := hrun
  refine ⟨a, ⟨cp.reader, cs⟩, ⟨cu.reader, cs⟩, ?_, ?_,
    ⟨rfl, hw.peeked, hw.atValue.of_progress hcs rfl⟩, rfl, .inl rfl⟩
  · simp [Client.step, hw.cursors, hrun, hpatch]
  · simp [Client.step, hrun, hpatch]

/-- A call that does not consume the value answers alike from both but for the offset each
reports, keeps them in step, and leaves the offsets as they were, or the second at the first's. -/
theorem step_looks (hw : Window owner cp cu) {call : Call} (hn : call.Nested cu.cursors)
    (hc : call.consumes owner = false) :
    ∃ a cp' cu', cp.step call = (call.patch cp.offset a, some cp') ∧
      cu.step call = (call.patch cu.offset a, some cu') ∧ Window owner cp' cu' ∧
      cp'.offset = cp.offset ∧ (cu'.offset = cu.offset ∨ cu'.offset = cp.offset) := by
  cases call with
  | peek =>
    -- looking again from either leaves both where the first look left the first
    obtain ⟨k, hp, hu⟩ := hw.peeked.peekKind_run
    refine ⟨.kind k, cp, cp, ?_, ?_, hw.refl, rfl, .inr rfl⟩
    · simp [Client.step, Call.run, Call.patch, hp]
    · simp [Client.step, Call.run, Call.patch, hu, ← hw.cursors]
  | isEof =>
    obtain ⟨hp, u', hu, hpu, hoff⟩ := hw.peeked.isEof_run
    refine ⟨.eof false, cp, ⟨u', cu.cursors⟩, ?_, ?_, ⟨hw.cursors, hpu, ?_⟩, rfl, .inl hoff⟩
    · simp [Client.step, Call.run, Call.patch, hp]
    · simp [Client.step, Call.run, Call.patch, hu]
    · exact hw.atValue.of_progress rfl (hpu.1.symm.trans hw.peeked.1)
  | offset =>
    refine ⟨.offset none, cp, cu, ?_, ?_, hw, rfl, .inl rfl⟩ <;> rfl
  | name i | defined i | require i names =>
    exact hw.step_onCursor (Call.run_onCursor _ cu.cursors (by simp)) fun _ _ => rfl
  | next i =>
    -- a cursor stepped while the value waits is not the one at the value, so it is done
    have hi : owner ≠ some i := by simpa [Call.consumes] using hc
    obtain ⟨a, hrun⟩ := Call.run_next_done (σ := Scanner) (hw.atValue.done_of_nested hn hi)
    exact hw.step_onCursor ⟨a, cu.cursors, hrun, rfl⟩ fun _ _ => rfl
  | _ => simp [Call.consumes] at hc

/-- Two clients in step whose call runs alike step alike. -/
theorem step_eq (hw : Window owner cp cu) {call : Call}
    (h : (call.run cp.cursors).run cp.reader = (call.run cp.cursors).run cu.reader) :
    cp.step call = cu.step call :=
  hw.step_eq_of_alike (EStateM.Result.alike_of_eq h)

/-- Stepping the cursor at the value: alike from both, or, for the first step into an array,
true from both with the cursor moved alike and the clients still in step at one offset. -/
theorem step_next_owner {i : Nat} (hw : Window (some i) cp cu) :
    cp.step (.next i) = cu.step (.next i) ∨
      ∃ a cp' cu', cp.step (.next i) = (a, some cp') ∧ cu.step (.next i) = (a, some cu') ∧
        Window (some i) cp' cu' ∧ cp'.offset = cu'.offset := by
  obtain ⟨hin, cur, hcur, hd, hsa⟩ := hw.atValue
  have hcur' : cp.cursors[i]? = some cur := by rw [hw.cursors]; exact hcur
  -- an array's step runs alike, or finds the value from both with the readers still a token apart;
  -- an object's step runs alike but for where a failure leaves them
  cases cur with
  | array c =>
    rcases hw.peeked.arrayCursor_next hd hsa with heq | ⟨p', u', hp, hu, hpu, hoff⟩
    · refine .inl (hw.step_eq ?_)
      simp only [Call.run, hcur']
      exact EStateM.run_bind_eq_of_run_eq heq _
    · have hcu : cu.cursors[i]? = some (.array c) := hcur
      have hi : i < cu.cursors.length := (List.getElem?_eq_some_iff.1 hcu).1
      have hwu : u'.awaiting = true := (ArrayCursor.next_eq_true hu).2
      refine .inr ⟨.stepped true none,
        ⟨p', cu.cursors.set i (.array { c with started := true, done := false })⟩,
        ⟨u', cu.cursors.set i (.array { c with started := true, done := false })⟩, ?_, ?_,
        ⟨rfl, hpu, ?_⟩, hoff⟩
      · simp [Client.step, Call.run, hw.cursors, hcu, EStateM.run_map, hp]
      · simp [Client.step, Call.run, hcu, EStateM.run_map, hu]
      · refine ⟨hin.set _, .array { c with started := true, done := false }, ?_, rfl, .inr hwu⟩
        rw [List.getElem?_set_self hi]
        rfl
  | object c =>
    refine .inl (hw.step_eq_of_alike ?_)
    simp only [Call.run, hcur']
    exact EStateM.run_bind_alike (hw.peeked.objectCursor_next hd hsa) _

/-- A call that consumes the value answers alike from both. After it the two are the same, or,
after the first step into an array, still in step at one offset. -/
theorem step_consumes (hw : Window owner cp cu) {call : Call} (hc : call.consumes owner = true) :
    cp.step call = cu.step call ∨
      ∃ a cp' cu', cp.step call = (a, some cp') ∧ cu.step call = (a, some cu') ∧
        Window owner cp' cu' ∧ cp'.offset = cu'.offset := by
  -- every call that consumes the value first pulls the token the look put back, so it runs alike
  -- from both readers
  cases call with
  | next i =>
    have ho : owner = some i := by simpa [Call.consumes] using hc
    subst ho
    exact hw.step_next_owner
  | scalar sr => exact .inl (hw.step_eq (EStateM.run_bind_eq_of_run_eq (hw.peeked.scalar_run sr) _))
  | array orNull =>
    refine .inl (hw.step_eq (EStateM.run_bind_eq_of_run_eq ?_ _))
    cases orNull
    · exact EStateM.run_bind_eq_of_run_eq (hw.peeked.take_run _ _) _
    · exact EStateM.run_bind_eq_of_run_eq (hw.peeked.take_run _ _) _
  | object orNull names =>
    refine .inl (hw.step_eq (EStateM.run_bind_eq_of_run_eq ?_ _))
    cases orNull
    · exact EStateM.run_bind_eq_of_run_eq (hw.peeked.take_run _ _) _
    · exact EStateM.run_bind_eq_of_run_eq (hw.peeked.take_run _ _) _
  | any names => exact .inl (hw.step_eq (EStateM.run_bind_eq_of_run_eq hw.peeked.any_run _))
  | skip => exact .inl (hw.step_eq (EStateM.run_bind_eq_of_run_eq hw.peeked.skipValue_run _))
  | value => exact .inl (hw.step_eq (EStateM.run_bind_eq_of_run_eq hw.peeked.value_run _))
  | typed s => exact .inl (hw.step_eq (EStateM.run_bind_eq_of_run_eq (hw.peeked.read_run s) _))
  | finish => exact .inl (hw.step_eq (EStateM.run_bind_eq_of_run_eq hw.peeked.finish_run _))
  | _ => simp [Call.consumes] at hc

/-! ### Whole runs -/

/-- Once the two report one offset, they answer every later call of a run that keeps to the
nesting rule alike. -/
theorem run_eq (calls : List Call) :
    ∀ {cp cu : Client Scanner}, Window owner cp cu → cp.offset = cu.offset →
      cu.Disciplined calls → cp.run calls = cu.run calls := by
  induction calls with
  | nil => intros; rfl
  | cons call calls ih =>
    intro cp cu hw ho hd
    cases hc : call.consumes owner with
    | true =>
      rcases hw.step_consumes hc with heq | ⟨a, cp', cu', hp, hu, hw', ho'⟩
      · simp only [Client.run, heq]
      · rw [Client.run_cons_of_step calls hp, Client.run_cons_of_step calls hu,
          ih hw' ho' (hd.2 a cu' hu)]
    | false =>
      obtain ⟨a, cp', cu', hp, hu, hw', hop, hou⟩ := hw.step_looks hd.1 hc
      -- the second's offset stays its own or moves to the first's, which is the same
      have ho' : cp'.offset = cu'.offset := by
        rcases hou with h | h <;> rw [hop, h, ho]
      rw [Client.run_cons_of_step calls hp, Client.run_cons_of_step calls hu,
        ih hw' ho' (hd.2 _ cu' hu), ho]

/-- The first answers every call of a run that keeps to the nesting rule as the second does, but
for `offset` asked before the value is consumed, which reports the offset the first had. -/
theorem run_afterPeek (calls : List Call) :
    ∀ {cp cu : Client Scanner}, Window owner cp cu → cu.Disciplined calls →
      cp.run calls = afterPeek owner cp.offset calls (cu.run calls) := by
  induction calls with
  | nil => intros; rfl
  | cons call calls ih =>
    intro cp cu hw hd
    cases hc : call.consumes owner with
    | true =>
      -- the call consumes the value: from then on both answer alike, `offset` included
      rw [afterPeek_of_consumes hc]
      rcases hw.step_consumes hc with heq | ⟨a, cp', cu', hp, hu, hw', ho'⟩
      · simp only [Client.run, heq]
      · rw [Client.run_cons_of_step calls hp, Client.run_cons_of_step calls hu,
          hw'.run_eq calls ho' (hd.2 a cu' hu)]
    | false =>
      -- a call before the value is consumed answers alike but for the offset, which the first
      -- reports as it stood
      obtain ⟨a, cp', cu', hp, hu, hw', hop, -⟩ := hw.step_looks hd.1 hc
      rw [Client.run_cons_of_step calls hp, Client.run_cons_of_step calls hu,
        ih hw' (hd.2 _ cu' hu), hop]
      simp [afterPeek, hc, Call.patch_patch]

/-- Reading the value from the client that did not look leaves the offset where the look put
the other's. -/
theorem any_offset (hw : Window owner cp cu) :
    ∃ t cu', cu.step (.any []) = (.token t, some cu') ∧ cu'.offset = cp.offset := by
  obtain ⟨t, r, hr, hoff⟩ := hw.peeked.any_offset
  have hstep : ∃ cs, cu.step (.any []) = (.token t, some ⟨r, cs⟩) := by
    simp only [Client.step, Call.run, EStateM.run_bind, hr]
    cases t <;> exact ⟨_, rfl⟩
  obtain ⟨cs, hs⟩ := hstep
  exact ⟨t, ⟨r, cs⟩, hs, hoff⟩

end Window

/-- A look from a client standing on a value puts it in step with the client as it was. -/
theorem window_of_peek {owner : Option Nat} {c c' : Client Scanner} {k : Kind}
    (ha : c.AtValue owner) (h : c.step .peek = (.kind k, some c')) : Window owner c' c := by
  have hrun := Client.step_eq_some h
  obtain ⟨k', r, hpeek, hp⟩ := EStateM.run_bind_eq_ok.1 hrun
  simp only [EStateM.run_pure, EStateM.Result.ok.injEq, Prod.mk.injEq] at hp
  obtain ⟨⟨-, hcs⟩, rfl⟩ := hp
  obtain ⟨hsource, hw⟩ := run_lift_ok_source hpeek
  exact ⟨hcs.symm, ⟨hw, Scanner.peeked_of_peekKind hsource⟩, ha⟩

/-- A look that leaves a client answered the kind it saw. -/
theorem Client.step_peek_of_some {c c' : Client Scanner} (h : (c.step .peek).2 = some c') :
    ∃ k, c.step .peek = (.kind k, some c') := by
  unfold Client.step at h ⊢
  -- a look that fails ends the run, so a client after it means the look answered a kind
  cases hrun : (Call.peek.run c.cursors).run c.reader with
  | ok x r =>
    obtain ⟨k, r₁, -, hp⟩ := EStateM.run_bind_eq_ok.1 hrun
    simp only [EStateM.run_pure, EStateM.Result.ok.injEq] at hp
    obtain ⟨rfl, rfl⟩ := hp
    rw [hrun, Option.some.injEq] at h
    subst h
    exact ⟨k, rfl⟩
  | error e r =>
    rw [hrun] at h
    cases h

/-- Looking at a value changes no later answer. A client stands on a value at the start, right
after a cursor's step found one, and right after it opened a container. A look from there that
succeeds changes no answer of a later run that keeps to the nesting rule, failures and their
offsets included, but for `offset` asked before the value is consumed: that reports the start of
the value, which is where reading the value puts the offset. -/
theorem peekKind_keeps_later_answers :
    (∀ s : Scanner, (Client.ofSource s).AtValue none) ∧
    (∀ (c c' : Client Scanner) (i : Nat) (name : Option Text), InnerDone c.cursors i →
      c.step (.next i) = (.stepped true name, some c') → c'.AtValue (some i)) ∧
    (∀ (c c' : Client Scanner) (call : Call) (a : Answer), call.opens = true →
      c.step call = (a, some c') → a.opensContainer = true →
        c'.AtValue (some c.cursors.length)) ∧
    (∀ (c c' : Client Scanner) (owner : Option Nat) (k : Kind) (calls : List Call),
      c.AtValue owner → c.step .peek = (.kind k, some c') → c.Disciplined calls →
        c'.run calls = afterPeek owner c'.offset calls (c.run calls) ∧
        ∃ t c'', c.step (.any []) = (.token t, some c'') ∧ c''.offset = c'.offset) := by
  refine ⟨atValue_ofSource, fun c c' i name hn h => atValue_of_next hn h,
    fun c c' call a hc h ha => atValue_of_open hc h ha, ?_⟩
  intro c c' owner k calls ha h hd
  -- the client that looked and the one that did not, in step
  have hw : Window owner c' c := window_of_peek ha h
  exact ⟨hw.run_afterPeek calls hd, hw.any_offset⟩

/-- Looking at the document's value past leading white space, then asking the offset, skipping
the value and asking again: the run answers as it would without the look, but for the first
offset, which reports where the value starts. -/
theorem peekKind_keeps_later_answers_spaced :
    ∃ k c', (Client.ofSource (Scanner.ofBytes (Utf8.encode [' ', '[', '1', ']']) false)).step .peek =
        (.kind k, some c') ∧
      c'.run [.offset, .skip, .offset] = afterPeek none c'.offset [.offset, .skip, .offset]
        ((Client.ofSource (Scanner.ofBytes (Utf8.encode [' ', '[', '1', ']']) false)).run
          [.offset, .skip, .offset]) := by
  obtain ⟨c', hc'⟩ := Option.isSome_iff_exists.1 (show ((Client.ofSource
      (Scanner.ofBytes (Utf8.encode [' ', '[', '1', ']']) false)).step .peek).2.isSome = true by
    decide +kernel)
  obtain ⟨k, hstep⟩ := Client.step_peek_of_some hc'
  exact ⟨k, c', hstep, (peekKind_keeps_later_answers.2.2.2 _ c' none k _
    (atValue_ofSource _) hstep (by simp [Client.Disciplined, Call.Nested])).1⟩

end Reader

end JsonCodec
