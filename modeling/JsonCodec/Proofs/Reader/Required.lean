import JsonCodec.Proofs.Reader.Plan
import JsonCodec.Proofs.Reader.Fuel
import JsonCodec.Proofs.Scanner.Lookahead

/-! # Required properties

An object cursor may be given a list of required names (`ObjectCursor.requireAll`) at any point
before its object ends. Each step to a member marks the first required entry of the member's
name, marked or not (`markSeen`), and the step to the closing brace reports the first entry left
unmarked.

Which entry that is depends on the required list and on the names seen since it was given, and
on nothing else: the entry at place `i` stays unmarked exactly when no name seen is its name, or
an earlier entry has the same name and takes every mark of it (`ObjectCursor.Missing`). Marking
by a list of names settles the first entry at once and hands the names it does not take to the
rest of the list (`markAllSeen_cons_entry`), so the first unmarked entry is found along the list
(`find?_markAllSeen_cons`) and sits at the least place that is missing
(`find?_markAllSeen_eq_none`, `find?_markAllSeen_eq_some`).

`Plan.runRequiring` is a client that opens an object, follows one plan per member and gives the
cursor its required names after `d` members. Over any source that follows walks, whatever the
plans do with the values, every step to a member answers true, and the step to the closing
brace fails with the first missing name, carrying the offset the source has right after that
step, or answers false when no name is missing (`ObjectCursor.required_reported_at_close`). That
offset is the closing brace's place for the scanner (`Scanner.objectNext_eq_none`), and none for
a tree.
-/

namespace JsonCodec

/-- The required entries once the names `keys` have been seen, in turn. -/
def markAllSeen (keys : List String) (required : List (String × Bool)) : List (String × Bool) :=
  keys.foldl (fun q k => markSeen k q) required

/-- Seeing no names marks nothing. -/
@[simp] theorem markAllSeen_nil (required : List (String × Bool)) :
    markAllSeen [] required = required := rfl

/-- Names are seen one after the other. -/
@[simp] theorem markAllSeen_cons (k : String) (keys : List String)
    (required : List (String × Bool)) :
    markAllSeen (k :: keys) required = markAllSeen keys (markSeen k required) := rfl

/-- With no required names there is nothing to mark. -/
@[simp] theorem markAllSeen_empty : ∀ keys : List String, markAllSeen keys [] = []
  | [] => rfl
  | _ :: keys => markAllSeen_empty keys

namespace ObjectCursor

/-- The required name at place `i` of `names` is missing once the names `keys` have been seen:
no key is that name, or an earlier required name is the same and its entry takes every key of
it. -/
def Missing (names keys : List String) (i : Nat) : Prop :=
  ∃ n, names[i]? = some n ∧ (n ∉ keys ∨ n ∈ names.take i)

/-- The first required name is missing exactly when no key is that name. -/
theorem missing_cons_zero {n : String} {names keys : List String} :
    Missing (n :: names) keys 0 ↔ n ∉ keys := by
  simp [Missing]

/-- Past the first required name, a name is missing as it would be from the rest of the list,
once the keys of the first name are given to the first entry. -/
theorem missing_cons_succ {n : String} {names keys : List String} {i : Nat} :
    Missing (n :: names) keys (i + 1) ↔ Missing names (keys.filter (· ≠ n)) i := by
  simp only [Missing, List.getElem?_cons_succ, List.take_succ_cons, List.mem_cons,
    List.mem_filter, decide_eq_true_eq, not_and, not_not]
  constructor
  · rintro ⟨m, hm, h⟩
    refine ⟨m, hm, ?_⟩
    -- a name missing from the whole list is missing from the keys left to it, or is the first name
    -- itself, or repeats an earlier one
    rcases h with h | rfl | h
    · exact .inl fun hk => absurd hk h
    · exact .inl fun _ => rfl
    · exact .inr h
  · rintro ⟨m, hm, h⟩
    refine ⟨m, hm, ?_⟩
    rcases h with h | h
    · -- a key the first name took is a key of `m` only when `m` is the first name
      by_cases hk : m ∈ keys
      · exact .inr (.inl (h hk))
      · exact .inl hk
    · exact .inr (.inr h)

end ObjectCursor

/-- Marking by a list of names settles the first entry, marked when one of the names is its own,
and marks the rest of the entries by the names that are not. -/
theorem markAllSeen_cons_entry (n : String) :
    ∀ (keys : List String) (b : Bool) (rest : List (String × Bool)),
      markAllSeen keys ((n, b) :: rest) =
        (n, b || decide (n ∈ keys)) :: markAllSeen (keys.filter (· ≠ n)) rest
  | [], b, rest => by simp
  | k :: keys, b, rest => by
    by_cases hk : n = k
    · -- the name marks the first entry again, and is not handed on
      subst hk
      simp [markSeen, markAllSeen_cons_entry n keys true rest]
    · simp [markSeen, hk, markAllSeen_cons_entry n keys b (markSeen k rest), Ne.symm hk]

/-- The first entry left unmarked, with none marked at the start: the first required name if no
name seen is its own, else the first one left among the rest. -/
theorem find?_markAllSeen_cons (n : String) (names keys : List String) :
    (markAllSeen keys ((n :: names).map fun m => (m, false))).find? (fun e => !e.2) =
      if n ∈ keys then
        (markAllSeen (keys.filter (· ≠ n)) (names.map fun m => (m, false))).find? (fun e => !e.2)
      else some (n, false) := by
  rw [List.map_cons, markAllSeen_cons_entry]
  by_cases hn : n ∈ keys <;> simp [hn]

open ObjectCursor in
/-- No entry is left unmarked exactly when no required name is missing. -/
theorem find?_markAllSeen_eq_none :
    ∀ (names keys : List String),
      (markAllSeen keys (names.map fun m => (m, false))).find? (fun e => !e.2) = none ↔
        ∀ i, ¬ Missing names keys i
  | [], keys => by simp [Missing]
  | n :: names, keys => by
    rw [find?_markAllSeen_cons]
    by_cases hn : n ∈ keys
    · -- the first name is seen: the rest decide, with the keys it takes given to it
      rw [if_pos hn, find?_markAllSeen_eq_none names]
      constructor
      · intro h i
        cases i with
        | zero => exact fun hm => missing_cons_zero.1 hm hn
        | succ i => exact fun hm => h i (missing_cons_succ.1 hm)
      · exact fun h i hm => h (i + 1) (missing_cons_succ.2 hm)
    · simp only [if_neg hn, reduceCtorEq, false_iff, not_forall, not_not]
      exact ⟨0, missing_cons_zero.2 hn⟩

open ObjectCursor in
/-- The first entry left unmarked is the required name at the least place that is missing. -/
theorem find?_markAllSeen_eq_some :
    ∀ (names keys : List String) {e : String × Bool},
      (markAllSeen keys (names.map fun m => (m, false))).find? (fun e => !e.2) = some e →
        ∃ i, names[i]? = some e.1 ∧ Missing names keys i ∧ ∀ j < i, ¬ Missing names keys j
  | [], keys, e, h => by simp at h
  | n :: names, keys, e, h => by
    rw [find?_markAllSeen_cons] at h
    -- the first name is marked and the search goes on among the rest, or it is the first unmarked
    by_cases hn : n ∈ keys
    · rw [if_pos hn] at h
      obtain ⟨i, hi, hm, hleast⟩ := find?_markAllSeen_eq_some names _ h
      refine ⟨i + 1, hi, missing_cons_succ.2 hm, ?_⟩
      intro j hj
      cases j with
      | zero => exact fun h0 => missing_cons_zero.1 h0 hn
      | succ j => exact fun hs => hleast j (by omega) (missing_cons_succ.1 hs)
    · rw [if_neg hn, Option.some.injEq] at h
      subst h
      exact ⟨0, rfl, missing_cons_zero.2 hn, fun j hj => absurd hj (Nat.not_lt_zero j)⟩

/-! ### Clients that give required names -/

namespace Plan

variable {σ : Type} [Source σ]

/-- Steps an object cursor with one plan per member, as `runMembers` does, and gives the cursor
the required names `names` once `d` members have been stepped to. -/
def runMembersDeclaring (names : List String) :
    Nat → ObjectCursor → List Plan → ReadM σ (List Event)
  | 0, c, ps => runMembers (c.requireAll names) ps
  | _ + 1, c, [] => runMembers c []
  | d + 1, c, p :: ps => do
    let (more, c) ← c.next
    if more then
      let evs ← p.run
      return .stepped true :: .named c.name.str :: evs ++ (← runMembersDeclaring names d c ps)
    else return [.stepped false]

/-- Opens an object, follows one plan per member, and gives the required names `names` after
`d` members. -/
def runRequiring (o : Opener) (names : List String) (d : Nat) (ps : List Plan) :
    ReadM σ (List Event) := do
  let c ← o.openObject
  return .opened c.defined :: (← runMembersDeclaring names d c ps)

end Plan

/-! ### Stepping to the closing brace -/

section Steps

variable {σ : Type} [Source σ]

omit [Source σ] in
/-- The end of a step that records what it found, seen from the source. -/
theorem Reader.objectNext_of_record {first : Bool} {r r' : Reader σ} {name : Option Text}
    [Source σ]
    (h : (Reader.lift (Source.objectNext first) >>= fun name =>
      modify (fun r : Reader σ => { r with awaiting := name.isSome }) >>= fun _ => pure name).run r =
        .ok name r') :
    (Source.objectNext first).run r.source = .ok name r'.source := by
  obtain ⟨name', r₁, hlift, h⟩ := EStateM.run_bind_eq_ok.1 h
  simp only [EStateM.run_bind, EStateM.run_modify, EStateM.run_pure,
    EStateM.Result.ok.injEq] at h
  obtain ⟨rfl, rfl⟩ := h
  exact (Reader.run_lift_ok_source hlift).1

/-- A step of an object that finds its end is a closing step of the source, taken after any
value left unread was skipped. -/
theorem Reader.advanceObject_eq_none {first : Bool} {r r' : Reader σ}
    (h : (Reader.advanceObject first).run r = .ok none r') :
    ∃ s, (Source.objectNext first).run s = .ok none r'.source := by
  obtain ⟨u, r₁, -, h⟩ := EStateM.run_bind_eq_ok.1 h
  simp only at h
  split at h
  · obtain ⟨_, r₂, -, h⟩ := EStateM.run_bind_eq_ok.1 h
    exact ⟨_, Reader.objectNext_of_record h⟩
  · exact ⟨_, Reader.objectNext_of_record h⟩

variable {R : σ → Walk → Prop} (hR : FollowsWalk R)
include hR

/-- At the end of its object a cursor reports the first required entry it has not marked, from
the state a closing step of the source left. -/
theorem Reader.objectCursor_next_close {c : ObjectCursor} {r : Reader σ} {w : Walk}
    {fs : List TreeFrame} (hd : c.done = false) (hr : R r.source w)
    (hpos : Reader.StepsFrom r w (.object []) fs !c.started) :
    ∃ s₀ first s', (Source.objectNext first).run s₀ = .ok none s' ∧ R s' ⟨none, fs, false⟩ ∧
      (c.next).run r =
        match c.required.find? fun e => !e.2 with
        | some (n, _) => .error (.missingProperty n (Source.offset s')) ⟨s', false⟩
        | none =>
          .ok (false, { c with started := true, done := true, name := ⟨"", true⟩ }) ⟨s', false⟩ := by
  obtain ⟨n, s', hrun, hn, hs'⟩ := Reader.advanceObject_run hR hr hpos
  -- the object holds no more members, so its step finds none
  cases n with
  | some _ => simp at hn
  | none =>
    obtain ⟨s₀, hclose⟩ := Reader.advanceObject_eq_none hrun
    refine ⟨s₀, _, s', hclose, hs', ?_⟩
    simp only [ObjectCursor.next, hd]
    cases c.required.find? fun e => !e.2 <;> simp [hrun, Reader.offset]

/-- Stepping an object cursor through the members still to come, with a fitting plan at each
value, marks its required entries by the members' names; at the end of the object it reports the
first entry left unmarked, from the state the closing step left. -/
theorem Plan.runMembers_marks : (ps : List Plan) → ∀ (members : List (String × Value))
    (c : ObjectCursor) (r : Reader σ) (w : Walk) (fs : List TreeFrame),
    Plan.fitsMembers ps members → c.done = false →
    Reader.StepsFrom r w (.object members) fs !c.started → R r.source w →
    ∃ s₀ first s', (Source.objectNext first).run s₀ = .ok none s' ∧ R s' ⟨none, fs, false⟩ ∧
      (Plan.runMembers c ps).run r =
        match (markAllSeen (members.map Prod.fst) c.required).find? fun e => !e.2 with
        | some (n, _) => .error (.missingProperty n (Source.offset s')) ⟨s', false⟩
        | none => .ok (Plan.expectMembers ps members) ⟨s', false⟩
  | [], [], c, r, w, fs, _, hd, hpos, hr => by
    -- no member left: the closing step reports the first entry still unmarked
    obtain ⟨s₀, first, s', hclose, hs', hrun⟩ := Reader.objectCursor_next_close hR hd hr hpos
    refine ⟨s₀, first, s', hclose, hs', ?_⟩
    simp only [Plan.runMembers, EStateM.run_bind, hrun, List.map_nil, markAllSeen_nil]
    cases c.required.find? fun e => !e.2 <;> simp [Plan.expectMembers]
  | p :: ps, (k, v) :: ms, c, r, w, fs, hfit, hd, hpos, hr => by
    -- a member: the step marks its name, the plan reads or leaves its value, and the rest of the
    -- object follows
    simp only [Plan.fitsMembers, Bool.and_eq_true] at hfit
    obtain ⟨name, s₁, hname, hrun₁, hs₁⟩ := Reader.objectCursor_next_member hR hd hr hpos
    obtain ⟨s₂, hrun₂, hs₂⟩ := Plan.run_fits hR p v ⟨s₁, true⟩ _ hfit.1 hs₁ rfl
    obtain ⟨s₀, first, s', hclose, hs', hrun₃⟩ := Plan.runMembers_marks ps ms
      { c with started := true, name, required := markSeen k c.required }
      ⟨s₂, p.leaves && true⟩ _ fs hfit.2 hd (Reader.stepsFrom_after p.leaves) hs₂
    refine ⟨s₀, first, s', hclose, hs', ?_⟩
    simp only [Plan.runMembers, EStateM.run_bind, hrun₁, if_true, hrun₂, hname, hrun₃,
      List.map_cons, markAllSeen_cons]
    cases (markAllSeen (ms.map Prod.fst) (markSeen k c.required)).find? fun e => !e.2 <;>
      simp [Plan.expectMembers]

/-- A client that gives required names after `d` members: the entries are marked by the names
of the members after the `d`-th, whatever the cursor required before. -/
theorem Plan.runMembersDeclaring_marks (names : List String) : (d : Nat) → ∀ (ps : List Plan)
    (members : List (String × Value)) (c : ObjectCursor) (r : Reader σ) (w : Walk)
    (fs : List TreeFrame),
    Plan.fitsMembers ps members → d ≤ members.length → c.done = false →
    Reader.StepsFrom r w (.object members) fs !c.started → R r.source w →
    ∃ s₀ first s', (Source.objectNext first).run s₀ = .ok none s' ∧ R s' ⟨none, fs, false⟩ ∧
      (Plan.runMembersDeclaring names d c ps).run r =
        match (markAllSeen ((members.drop d).map Prod.fst)
            (names.map fun n => (n, false))).find? fun e => !e.2 with
        | some (n, _) => .error (.missingProperty n (Source.offset s')) ⟨s', false⟩
        | none => .ok (Plan.expectMembers ps members) ⟨s', false⟩
  -- the names are given now, replacing what the cursor required; the rest is `runMembers_marks`
  | 0, ps, members, c, r, w, fs, hfit, _, hd, hpos, hr =>
    Plan.runMembers_marks hR ps members (c.requireAll names) r w fs hfit hd hpos hr
  | d + 1, p :: ps, (k, v) :: ms, c, r, w, fs, hfit, hdecl, hd, hpos, hr => by
    -- a member before the names are given: its mark is lost when they replace the entries
    simp only [Plan.fitsMembers, Bool.and_eq_true] at hfit
    obtain ⟨name, s₁, hname, hrun₁, hs₁⟩ := Reader.objectCursor_next_member hR hd hr hpos
    obtain ⟨s₂, hrun₂, hs₂⟩ := Plan.run_fits hR p v ⟨s₁, true⟩ _ hfit.1 hs₁ rfl
    obtain ⟨s₀, first, s', hclose, hs', hrun₃⟩ := Plan.runMembersDeclaring_marks names d ps ms
      { c with started := true, name, required := markSeen k c.required }
      ⟨s₂, p.leaves && true⟩ _ fs hfit.2 (by simpa using hdecl) hd
      (Reader.stepsFrom_after p.leaves) hs₂
    refine ⟨s₀, first, s', hclose, hs', ?_⟩
    simp only [Plan.runMembersDeclaring, EStateM.run_bind, hrun₁, if_true, hrun₂, hname, hrun₃,
      List.drop_succ_cons]
    cases (markAllSeen ((ms.drop d).map Prod.fst) (names.map fun n => (n, false))).find?
      fun e => !e.2 <;> simp [Plan.expectMembers]
  | _ + 1, _, [], _, _, _, _, _, hdecl, _, _, _ => by simp at hdecl
  | _ + 1, [], _ :: _, _, _, _, _, hfit, _, _, _, _ => by simp [Plan.fitsMembers] at hfit

omit hR in
/-- A cursor over a null is done at once, whatever names it is given. -/
theorem Plan.runMembersDeclaring_done (names : List String) (r : Reader σ) :
    ∀ (d : Nat) (ps : List Plan) (c : ObjectCursor), c.done = true →
      (Plan.runMembersDeclaring names d c ps).run r = .ok [.stepped false] r
  | 0, ps, c, hd => by
    cases ps <;> simp [Plan.runMembersDeclaring, Plan.runMembers, ObjectCursor.requireAll,
      ObjectCursor.next, hd]
  | _ + 1, [], c, hd => by simp [Plan.runMembersDeclaring, Plan.runMembers, ObjectCursor.next, hd]
  | _ + 1, _ :: _, c, hd => by simp [Plan.runMembersDeclaring, ObjectCursor.next, hd]

end Steps

/-! ### Where the scanner finds the end of an object -/

namespace Scanner

/-- Advancing moves the position by the bytes skipped, no further than the input's end. -/
theorem advance_pos (s : Scanner) (k : Nat) : (s.advance k).pos = s.pos + min k s.rest.length := by
  unfold advance
  split
  next n r h =>
    rw [dropCount_eq] at h
    simp only [Nat.zero_add, Prod.mk.injEq] at h
    show s.pos + n = s.pos + min k s.rest.length
    rw [h.1]

/-- The colon after a name gives the name, or fails. -/
theorem expectColon_eq_ok {name : Text} {s s' : Scanner} {n : Option Text}
    (h : (expectColon name).run s = .ok n s') : n = some name := by
  simp only [expectColon, EStateM.run_bind, skipSpace_run, EStateM.run_get] at h
  split at h
  · simp [fail] at h
  · split_ifs at h
    · obtain ⟨_, s₁, -, h⟩ := EStateM.run_bind_eq_ok.1 h
      simp only [EStateM.run_pure, EStateM.Result.ok.injEq] at h
      exact h.1.symm
    · simp [fail] at h

/-- A property name and its colon give the name, or fail. -/
theorem propertyName_isSome {s s' : Scanner} {n : Option Text}
    (h : (propertyName).run s = .ok n s') : n.isSome := by
  simp only [propertyName, EStateM.run_bind, EStateM.run_get] at h
  split at h
  · simp [fail] at h
  · split_ifs at h
    · obtain ⟨name, s₁, -, h⟩ := EStateM.run_bind_eq_ok.1 h
      rw [expectColon_eq_ok h]
      rfl
    · simp [fail] at h

/-- The scanner finds the end of an object only at a closing brace, which it has just passed:
its offset is the brace's place in the input. -/
theorem objectNext_eq_none {first : Bool} {s s' : Scanner}
    (h : (objectNext first).run s = .ok none s') :
    s'.input[s'.last]? = some 0x7D ∧ s'.pos = s'.last + 1 := by
  simp only [objectNext, EStateM.run_bind, EStateM.run_get] at h
  split at h
  · -- a token put back is taken as a name, or refused
    obtain ⟨_, s₁, -, h⟩ := EStateM.run_bind_eq_ok.1 h
    split at h
    · split_ifs at h
      · exact absurd (expectColon_eq_ok h) (by simp)
      · simp [fail] at h
    · simp [fail] at h
  · simp only [EStateM.run_bind, skipSpace_run, mark_run, EStateM.run_get] at h
    split at h
    · simp [fail] at h
    · next b tail hr =>
      split_ifs at h with h₁ h₂ h₃
      · obtain ⟨_, s₁, hset, h⟩ := EStateM.run_bind_eq_ok.1 h
        simp only [EStateM.run_pure, EStateM.Result.ok.injEq] at h
        obtain ⟨-, rfl⟩ := h
        have hs₁ : s₁ = (s.advance (Lexeme.spaceLength s.unicodeSpace s.rest)).withMark.advance 1 := by
          cases hset
          rfl
        subst hs₁ h₁
        -- the brace stands at the cursor, where the mark was just made
        set t := s.advance (Lexeme.spaceLength s.unicodeSpace s.rest)
        have hr' : t.rest = 125 :: tail := hr
        have hrest : t.input.drop t.pos = 125 :: tail := by
          rw [← t.rest_eq]
          exact hr'
        refine ⟨?_, ?_⟩
        · rw [advance_input, advance_last, ← List.head?_drop]
          simp [withMark, hrest]
        · rw [advance_pos, advance_last, withMark_rest, hr']
          simp [withMark]
      · obtain ⟨_, s₁, -, h⟩ := EStateM.run_bind_eq_ok.1 h
        obtain ⟨_, s₂, -, h⟩ := EStateM.run_bind_eq_ok.1 h
        exact absurd (propertyName_isSome h) (by simp)
      · exact absurd (propertyName_isSome h) (by simp)
      · simp [fail] at h

end Scanner

/-! ### Required names are reported at the closing brace -/

open ObjectCursor in
/-- Required properties are checked once, at the closing brace. Over any source that follows
walks (a tree in memory, with or without coercion, and the text of a document both do), a client
that opens an object, gives its cursor required names after `d` of its members, and treats each
value by a fitting plan, whether it reads, skips, peeks at or leaves it, steps to every member.
At the closing brace the cursor fails with the required name at the least place that is missing
from the names seen since they were given, carrying the offset the source has right after its
closing step, or answers false when no name is missing. A null read as a possibly null object
reports nothing. The scanner's offset after a closing step is the brace's place in the input;
a tree has no offsets. -/
theorem ObjectCursor.required_reported_at_close :
    (∀ {σ : Type} [Source σ] {R : σ → Walk → Prop}, FollowsWalk R →
      ∀ (o : Opener) (names : List String) (d : Nat) (ps : List Plan)
        (members : List (String × Value)) (r : Reader σ) (w : Walk),
      R r.source w → w.current = some (.object members) → Plan.fitsMembers ps members →
      d ≤ members.length →
      ∃ s₀ first s', (Source.objectNext first).run s₀ = .ok none s' ∧ R s' w.skip ∧
        (((∀ i, ¬ Missing names ((members.drop d).map Prod.fst) i) ∧
            (Plan.runRequiring o names d ps).run r =
              .ok (.opened true :: Plan.expectMembers ps members) ⟨s', false⟩) ∨
          ∃ i n, names[i]? = some n ∧ Missing names ((members.drop d).map Prod.fst) i ∧
            (∀ j < i, ¬ Missing names ((members.drop d).map Prod.fst) j) ∧
            (Plan.runRequiring o names d ps).run r =
              .error (.missingProperty n (Source.offset s')) ⟨s', false⟩)) ∧
    (∀ {σ : Type} [Source σ] {R : σ → Walk → Prop}, FollowsWalk R →
      ∀ (names : List String) (d : Nat) (ps : List Plan) (r : Reader σ) (w : Walk),
      R r.source w → w.current = some .null →
      ∃ s', (Plan.runRequiring .orNull names d ps).run r =
        .ok [.opened false, .stepped false] ⟨s', false⟩) ∧
    (∀ (first : Bool) (s₀ s' : Scanner), (Source.objectNext first).run s₀ = .ok none s' →
      ∃ n, Source.offset s' = some n ∧ s'.input[n]? = some 0x7D ∧ s'.pos = n + 1) ∧
    (∀ t : TreeSource, Source.offset t = none) := by
  refine ⟨?_, ?_, ?_, fun t => rfl⟩
  · intro σ _ R hR o names d ps members r w hr hc hfit hdecl
    obtain ⟨s₁, hopen, hs₁⟩ := o.openObject_run hR hr hc
    have hpos : Reader.StepsFrom ⟨s₁, false⟩ w.take (.object members) w.frames
        !(ObjectCursor.ofDefined true).started :=
      Or.inl ⟨rfl, by simp [Walk.take, hc, ObjectCursor.ofDefined]⟩
    obtain ⟨s₀, first, s', hclose, hs', hrun⟩ := Plan.runMembersDeclaring_marks hR names d ps
      members _ _ _ _ hfit hdecl rfl hpos hs₁
    refine ⟨s₀, first, s', hclose, hs', ?_⟩
    -- the run is the opening, then the members; which way it ends is the first unmarked entry
    have hopened : (Plan.runRequiring o names d ps).run r =
        ((Plan.runMembersDeclaring names d (ObjectCursor.ofDefined true) ps).run ⟨s₁, false⟩).map
          (fun evs => .opened true :: evs) := by
      simp only [Plan.runRequiring, EStateM.run_bind, hopen]
      cases (Plan.runMembersDeclaring names d (ObjectCursor.ofDefined true) ps).run ⟨s₁, false⟩ <;>
        rfl
    rw [hopened, hrun]
    cases hf : (markAllSeen ((members.drop d).map Prod.fst)
        (names.map fun n => (n, false))).find? fun e => !e.2 with
    | none => exact .inl ⟨(find?_markAllSeen_eq_none _ _).1 hf, rfl⟩
    | some e =>
      obtain ⟨i, hi, hm, hleast⟩ := find?_markAllSeen_eq_some _ _ hf
      exact .inr ⟨i, e.1, hi, hm, hleast, rfl⟩
  · intro σ _ R hR names d ps r w hr hc
    obtain ⟨s₁, hopen, -⟩ := Opener.openObject_null hR hr hc
    refine ⟨s₁, ?_⟩
    simp only [Plan.runRequiring, EStateM.run_bind, hopen,
      Plan.runMembersDeclaring_done names _ d ps (ObjectCursor.ofDefined false) rfl]
    rfl
  · intro first s₀ s' h
    exact ⟨s'.last, rfl, Scanner.objectNext_eq_none h⟩

open ObjectCursor in
/-- A name required twice is missing at the second place even when the object has it, and a
null read as a possibly null object reports nothing. -/
theorem required_reported_at_close_twice :
    (∃ s', (Plan.runRequiring .plain ["a", "a"] 0 [.leave, .skip]).run
        (Reader.ofSource (TreeSource.ofValue (.object [("a", .null), ("b", .null)]) false)) =
      .error (.missingProperty "a" none) ⟨s', false⟩) ∧
    (∃ s', (Plan.runRequiring .orNull ["a"] 0 []).run
        (Reader.ofSource (TreeSource.ofValue .null false)) =
      .ok [.opened false, .stepped false] ⟨s', false⟩) := by
  refine ⟨?_, ObjectCursor.required_reported_at_close.2.1 TreeSource.tracks_follows ["a"] 0 []
    (Reader.ofSource (TreeSource.ofValue .null false)) (Walk.start .null)
    (TreeSource.tracks_ofValue _ false) rfl⟩
  obtain ⟨s₀, first, s', -, -, h⟩ := ObjectCursor.required_reported_at_close.1
    TreeSource.tracks_follows .plain ["a", "a"] 0 [.leave, .skip] [("a", .null), ("b", .null)]
    (Reader.ofSource (TreeSource.ofValue (.object [("a", .null), ("b", .null)]) false))
    (Walk.start (.object [("a", .null), ("b", .null)])) (TreeSource.tracks_ofValue _ false) rfl
    (by decide) (by decide)
  rcases h with ⟨hnone, -⟩ | ⟨i, n, hi, -, -, hrun⟩
  · -- the second entry can never be marked
    exact absurd ⟨"a", rfl, .inr (by decide)⟩ (hnone 1)
  · have hn : n = "a" := by
      match i, hi with
      | 0, hi => simpa using hi.symm
      | 1, hi => simpa using hi.symm
    exact ⟨s', by rw [hrun, hn]; rfl⟩

end JsonCodec
