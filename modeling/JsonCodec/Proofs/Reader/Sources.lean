import JsonCodec.Proofs.Reader.Skip
import JsonCodec.Proofs.Scanner.Reads
import JsonCodec.Proofs.Scanner.Walk
import JsonCodec.Proofs.Tree.Walk

/-! # The scanner and trees keep to what skipping needs

Skipping and typed reads are compared in `JsonCodec.Proofs.Reader.Skip` on any source that pulls
a value by kind as it pulls it for skipping (`PullsByKind`) and keeps to its budget
(`KeepsBudget`). Both sources of the library do:

* the scanner, from every state: a token costs at least one byte or the token put back, a step
  inside a container moves the cursor forward only, and a token looked at is put back as it was
  read (`Scanner.pullsByKind`, `Scanner.keepsBudget`);
* a tree, from every state that stands where a walk of its tree stands (`TreeSource.Within`,
  which holds at the root and is kept by every step): a node costs one unit of its count, and a
  coerced scalar stays a scalar (`TreeSource.pullsByKind`, `TreeSource.keepsBudget`).

`skipValue_consumes_as_reads` puts the comparison together: reading a value whole and skipping it
fail alike or succeed alike from any state of any source, and every typed read that succeeds on
the scanner or on a tree leaves the reader where skipping leaves it.
-/

namespace JsonCodec

/-- A token that passes the check is the token checked. -/
theorem Token.check_eq_ok {t t' : Token} {desired : Option Kind} {allowNull : Bool}
    {offset : Option Nat} (h : t.check desired allowNull offset = .ok t') : t' = t := by
  unfold Token.check at h
  split at h
  · exact (Except.ok.inj h).symm
  · split at h
    · exact (Except.ok.inj h).symm
    · cases h

/-- A value has at least one node. -/
theorem Value.size_pos (v : Value) : 0 < v.size := by
  cases v <;> simp [Value.size]

namespace Scanner
open Grammar Utf8

/-! ### The scanner -/

/-- A reading costs the budget at least one unit per character read. -/
theorem Read.budget_add_le {u : Bool} {s s' : Scanner} {cs : List Char} (h : Read u s cs s') :
    budget s' + cs.length ≤ budget s := by
  have hrest := congrArg List.length h.1
  have henc := length_le_encode cs
  have hs := rest_length s
  have hs' := rest_length s'
  simp only [List.length_append] at hrest
  simp only [budget, h.2.1, Option.isSome_none, Bool.false_eq_true, if_false]
  split <;> omega

/-- The text of a token is never empty. -/
theorem TokenText.length_pos {u : Bool} {t : Token} {pre : List Char} (h : TokenText u t pre) :
    0 < pre.length := by
  cases h with
  | arrayStart => simp
  | objectStart => simp
  | @scalar _ v _ _ _ hel =>
    have hsize := Elem.size_le (hel [])
    have hpos := Value.size_pos v
    simp only [List.append_nil, List.length_nil, Nat.add_zero] at hsize
    omega

/-- The next token leaves nothing put back. -/
theorem next_pending {s s' : Scanner} {t : Token} (h : (next).run s = .ok t s') :
    s'.pending = none := by
  cases hp : s.pending with
  | some t₀ =>
    rw [next_held hp] at h
    cases h
    rfl
  | none =>
    obtain ⟨_, _, _, _, hread⟩ := next_sound ⟨hp, rfl⟩ h
    exact hread.2.1

/-- A value pulled by kind is the next token, which passed the check. -/
theorem next_of_nextValue {desired : Option Kind} {allowNull : Bool} {s s' : Scanner} {t : Token}
    (h : (Source.nextValue desired allowNull : ScanM Token).run s = .ok t s') :
    (next).run s = .ok t s' := by
  obtain ⟨t₀, s₁, hn, h⟩ := EStateM.run_bind_eq_ok.1 h
  simp only [EStateM.run_bind, EStateM.run_get] at h
  split at h
  · next t' hcheck =>
    simp only [EStateM.run_pure, EStateM.Result.ok.injEq] at h
    obtain ⟨rfl, rfl⟩ := h
    rwa [Token.check_eq_ok hcheck]
  · simp at h

/-- The scanner pulls a value by kind as it pulls it for skipping, and a token looked at is
read again as it was. -/
theorem pullsByKind : Reader.PullsByKind Scanner where
  nextValue h := ⟨_, nextValue_run (next_of_nextValue h) rfl, Iff.rfl, Iff.rfl⟩
  peekKind {s s' k} h := by
    obtain ⟨t, s₁, hn, h⟩ := EStateM.run_bind_eq_ok.1 h
    simp only [EStateM.run_bind, EStateM.run_modify, EStateM.run_pure,
      EStateM.Result.ok.injEq] at h
    obtain ⟨-, rfl⟩ := h
    have hp₁ := next_pending hn
    have hheld : (next).run { s₁ with pending := some t } = .ok t s₁ := by
      rw [next_held rfl]
      cases s₁
      simp only at hp₁
      subst hp₁
      rfl
    rw [nextValue_run hheld rfl, nextValue_run hn rfl]

/-- Every token pulled costs the scanner's budget at least one unit. -/
theorem budget_lt_of_nextValue {s s' : Scanner} {t : Token}
    (h : (Source.nextValue none true : ScanM Token).run s = .ok t s') : budget s' < budget s := by
  have hn := next_of_nextValue h
  cases hp : s.pending with
  | some t₀ =>
    -- the token put back is taken
    rw [next_held hp] at hn
    cases hn
    simp [budget, hp]
  | none =>
    obtain ⟨w, pre, -, htext, hread⟩ := next_sound ⟨hp, rfl⟩ hn
    have := hread.budget_add_le
    have := htext.length_pos
    simp only [List.length_append] at *
    omega

/-- An array step never raises the scanner's budget. -/
theorem budget_le_of_arrayNext {first more : Bool} {s s' : Scanner}
    (h : (arrayNext first).run s = .ok more s') : budget s' ≤ budget s := by
  cases hp : s.pending with
  | some t₀ =>
    -- a token put back right after the bracket stays put back
    simp only [arrayNext, EStateM.run_bind, EStateM.run_get, hp, Option.isSome_some,
      if_true] at h
    split at h
    · simp only [EStateM.run_pure, EStateM.Result.ok.injEq] at h
      rw [← h.2]
    · simp [fail] at h
  | none =>
    obtain ⟨w, -, hread⟩ := arrayNext_sound ⟨hp, rfl⟩ h
    rcases hread with ⟨-, hread⟩ | ⟨-, -, hread⟩ | ⟨-, -, hread⟩ <;>
      exact Nat.le_of_add_right_le hread.budget_add_le

/-- An object step never raises the scanner's budget. -/
theorem budget_le_of_objectNext {first : Bool} {name : Option Text} {s s' : Scanner}
    (h : (objectNext first).run s = .ok name s') : budget s' ≤ budget s := by
  cases hp : s.pending with
  | some t₀ =>
    -- a name put back right after the brace is taken, and its colon read
    simp only [objectNext, EStateM.run_bind, EStateM.run_get, hp, EStateM.run_set] at h
    split at h
    · split at h
      · obtain ⟨-, w, -, hread⟩ := expectColon_sound ⟨rfl, rfl⟩ h
        have := hread.budget_add_le
        simp only [budget, hp, Option.isSome_some, if_true, Option.isSome_none,
          Bool.false_eq_true, if_false] at *
        omega
      · simp [fail] at h
    · simp [fail] at h
  | none =>
    obtain ⟨w, -, hread⟩ := objectNext_sound ⟨hp, rfl⟩ h
    rcases hread with ⟨-, hread⟩ | ⟨text, pre, -, -, ⟨-, hread⟩ | ⟨-, w₁, -, hread⟩⟩ <;>
      exact Nat.le_of_add_right_le hread.budget_add_le

/-- The scanner keeps to its budget from every state. -/
theorem keepsBudget : Reader.KeepsBudget fun _ : Scanner => True where
  nextValue _ h := ⟨trivial, budget_lt_of_nextValue h⟩
  containerStep {s s' inArray first more} _ h := by
    refine ⟨trivial, ?_⟩
    cases inArray with
    | true => exact budget_le_of_arrayNext h
    -- an object step answers only whether a member follows; the budget is the object step's
    | false =>
      simp only [Reader.containerStep, Bool.false_eq_true, if_false, EStateM.run_map] at h
      cases ho : (Source.objectNext first : ScanM (Option Text)).run s with
      | ok name s₁ =>
        rw [ho] at h
        cases h
        exact budget_le_of_objectNext ho
      | error e s₁ =>
        rw [ho] at h
        cases h

end Scanner

/-- Coercion makes no container's start, and leaves one as it is. -/
theorem Token.coerce_eq_start_iff {t : Token} {k : Kind} (u : Token)
    (hu : u.kind = .array ∨ u.kind = .object) : t.coerce k = u ↔ t = u := by
  -- the only tokens of a container's kind are its starts
  have hstart : u = .arrayStart ∨ u = .objectStart := by
    cases u <;> simp_all [Token.kind]
  unfold Token.coerce
  -- every conversion gives a scalar, and every other case the token as it was
  split
  · rcases hstart with rfl | rfl <;> simp
  · rcases hstart with rfl | rfl <;> simp
  · split_ifs <;> rcases hstart with rfl | rfl <;> simp
  · split
    · split_ifs <;> rcases hstart with rfl | rfl <;> simp
    · rcases hstart with rfl | rfl <;> simp
  · rfl

/-- Coercion to a container's kind changes no token. -/
theorem Token.coerce_container {k : Kind} (hk : k = .array ∨ k = .object) (t : Token) :
    t.coerce k = t := by
  rcases hk with rfl | rfl <;> cases t <;> rfl

namespace TreeSource

/-! ### Trees -/

/-- The token a node is taken as when a value of kind `desired` is asked for. -/
def tokenFor (coerce : Bool) (node : Value) : Option Kind → Token
  | some k => if coerce then (nodeToken node).coerce k else nodeToken node
  | none => nodeToken node

/-- A node is taken as a container's start exactly when it is that container. -/
theorem tokenFor_eq_start_iff {coerce : Bool} {node : Value} {desired : Option Kind} (u : Token)
    (hu : u.kind = .array ∨ u.kind = .object) :
    tokenFor coerce node desired = u ↔ nodeToken node = u := by
  cases desired with
  | none => rfl
  | some k =>
    cases coerce
    · rfl
    · rw [tokenFor, if_pos rfl]
      exact Token.coerce_eq_start_iff u hu

/-- Taking the next node: it is checked as the token it is taken as, and a container is entered
once its token passes. -/
theorem nextValue_run_of_current {t : TreeSource} {node : Value} (hc : t.current = some node)
    (desired : Option Kind) (allowNull : Bool) :
    (nextValue desired allowNull).run t =
      match (tokenFor t.coerce node desired).check desired allowNull none with
      | .error e => .error e { t with current := none, remaining := t.remaining - 1 }
      | .ok tok =>
        .ok tok { t with
          current := none
          remaining := t.remaining - 1
          frames := ((nodeFrame node).map fun f => [f]).getD [] ++ t.frames } := by
  cases desired <;>
  simp only [EStateM.run, nextValue, bind, EStateM.bind, get, getThe, MonadStateOf.get,
      EStateM.get, hc, set, MonadStateOf.set, EStateM.set, tokenFor] <;>
  -- the split on the check's result may or may not reach the right-hand side's match
  split <;> next hcheck =>
    try rw [hcheck]
    first | rfl | cases node <;> rfl

/-- A tree with no node left fails any pull as exhausted and changes nothing. -/
theorem nextValue_run_of_none {t : TreeSource} (hc : t.current = none) (desired : Option Kind)
    (allowNull : Bool) : (nextValue desired allowNull).run t = .error exhausted t := by
  simp [EStateM.run, nextValue, bind, EStateM.bind, get, getThe, MonadStateOf.get,
      EStateM.get, hc]
  rfl

/-- A tree pulls a value by kind as it pulls it for skipping: coercion changes a scalar's token
only, and a look at the next node changes nothing. -/
theorem pullsByKind : Reader.PullsByKind TreeSource where
  nextValue {s s' t k allowNull} h := by
    change (nextValue (some k) allowNull).run s = .ok t s' at h
    cases hc : s.current with
    | none => rw [nextValue_run_of_none hc] at h; cases h
    | some node =>
      rw [nextValue_run_of_current hc] at h
      split at h
      · cases h
      · next tok hcheck =>
        cases h
        -- the token handed out is the node's, coerced or not; a coerced token is never a
        -- container's start
        have htok := Token.check_eq_ok hcheck
        refine ⟨nodeToken node, ?_, ?_, ?_⟩
        · exact nextValue_run hc rfl
        · rw [htok, tokenFor_eq_start_iff .arrayStart (.inl rfl)]
        · rw [htok, tokenFor_eq_start_iff .objectStart (.inr rfl)]
  peekKind {s s' k} h := by
    change (TreeSource.peekKind).run s = .ok k s' at h
    cases hc : s.current with
    | none => simp [TreeSource.peekKind, hc, EStateM.run_bind, EStateM.run_get] at h
    | some node =>
      simp only [TreeSource.peekKind, EStateM.run_bind, EStateM.run_get, hc, EStateM.run_pure,
        EStateM.Result.ok.injEq] at h
      rw [h.2]

/-- The tree source's count covers the nodes still to come: the next node's and those its
containers still hold. This holds at the root (`within_ofValue`), and every step keeps it. -/
def Within (t : TreeSource) : Prop :=
  (t.current.map Value.size).getD 0 + Walk.framesSize t.frames ≤ t.remaining

/-- A tree starts within its count. -/
theorem within_ofValue (v : Value) (coerce : Bool) : (ofValue v coerce).Within := by
  simp [Within, ofValue]

/-- Entering a node adds the containers it opens, which hold its nodes but itself. -/
theorem framesSize_nodeFrame (node : Value) :
    Walk.framesSize (((nodeFrame node).map fun f => [f]).getD []) + 1 = node.size := by
  cases node <;> simp [nodeFrame, Value.size, TreeFrame.size]

/-- An array step of a tree keeps its count and moves no node into the containers. -/
theorem arrayNext_eq_ok {first more : Bool} {t t' : TreeSource}
    (h : (Source.arrayNext first : EStateM ReadError TreeSource Bool).run t = .ok more t') :
    t'.remaining = t.remaining ∧ Walk.framesSize t'.frames + (t'.current.map Value.size).getD 0 ≤
      Walk.framesSize t.frames := by
  change (TreeSource.arrayNext).run t = .ok more t' at h
  simp only [TreeSource.arrayNext, EStateM.run_bind, EStateM.run_get] at h
  split at h
  · next v rest fs hf =>
    -- the next element moves from the frame to the current node
    simp only [EStateM.run_bind, EStateM.run_set, EStateM.run_pure, EStateM.Result.ok.injEq] at h
    obtain ⟨-, rfl⟩ := h
    refine ⟨rfl, ?_⟩
    simp only [hf, Walk.framesSize_cons, TreeFrame.size, Value.itemsSize, Option.map_some,
      Option.getD_some]
    omega
  · next fs hf =>
    -- the array closes and its frame is dropped
    simp only [EStateM.run_bind, EStateM.run_set, EStateM.run_pure, EStateM.Result.ok.injEq] at h
    obtain ⟨-, rfl⟩ := h
    simp [hf, TreeFrame.size, Value.itemsSize]
  · simp at h

/-- An object step of a tree keeps its count and moves no node into the containers. -/
theorem objectNext_eq_ok {first : Bool} {name : Option Text} {t t' : TreeSource}
    (h : (Source.objectNext first : EStateM ReadError TreeSource (Option Text)).run t =
      .ok name t') :
    t'.remaining = t.remaining ∧ Walk.framesSize t'.frames + (t'.current.map Value.size).getD 0 ≤
      Walk.framesSize t.frames := by
  change (TreeSource.objectNext).run t = .ok name t' at h
  simp only [TreeSource.objectNext, EStateM.run_bind, EStateM.run_get] at h
  split at h
  · next k v rest fs hf =>
    -- the next member's value moves from the frame to the current node
    simp only [EStateM.run_bind, EStateM.run_set, EStateM.run_pure, EStateM.Result.ok.injEq] at h
    obtain ⟨-, rfl⟩ := h
    refine ⟨rfl, ?_⟩
    simp only [hf, Walk.framesSize_cons, TreeFrame.size, Value.membersSize, Option.map_some,
      Option.getD_some]
    omega
  · next fs hf =>
    -- the object closes and its frame is dropped
    simp only [EStateM.run_bind, EStateM.run_set, EStateM.run_pure, EStateM.Result.ok.injEq] at h
    obtain ⟨-, rfl⟩ := h
    simp [hf, TreeFrame.size, Value.membersSize]
  · simp at h

/-- A tree keeps to its count from every state within it. -/
theorem keepsBudget : Reader.KeepsBudget Within where
  nextValue {s s' t} hs h := by
    change (nextValue none true).run s = .ok t s' at h
    cases hc : s.current with
    | none => rw [nextValue_run_of_none hc] at h; cases h
    | some node =>
      rw [nextValue_run hc rfl] at h
      cases h
      -- the pull takes one from the count, and the node's contents move into the containers
      have hf := framesSize_nodeFrame node
      simp only [Within, hc, Option.map_some, Option.getD_some] at hs
      refine ⟨?_, ?_⟩
      · simp only [Within, Option.map_none, Option.getD_none, Walk.framesSize_append]
        omega
      · change s.remaining - 1 < s.remaining
        omega
  containerStep {s s' inArray first more} hs h := by
    -- a container step keeps the count and moves no node into the containers
    have hstep : s'.remaining = s.remaining ∧
        Walk.framesSize s'.frames + (s'.current.map Value.size).getD 0 ≤
          Walk.framesSize s.frames := by
      cases inArray with
      | true => exact arrayNext_eq_ok h
      | false =>
        simp only [Reader.containerStep, Bool.false_eq_true, if_false, EStateM.run_map] at h
        cases ho : (Source.objectNext first : EStateM ReadError TreeSource _).run s with
        | ok name s₁ =>
          rw [ho] at h
          cases h
          exact objectNext_eq_ok ho
        | error e s₁ =>
          rw [ho] at h
          cases h
    simp only [Within] at hs ⊢
    refine ⟨by omega, ?_⟩
    change s'.remaining ≤ s.remaining
    omega

end TreeSource

open Reader

/-- Skipping a value consumes exactly what reading it consumes. From any state of any source,
reading a value whole and skipping it fail with the same error in the same state, or both succeed
in the same state. Every typed read that succeeds, on the scanner from any state or on a tree
from any state within it, leaves the reader where skipping leaves it. -/
theorem skipValue_consumes_as_reads :
    (∀ (σ : Type) [Source σ] (r : Reader σ),
      (∀ e r', (Reader.value : ReadM σ Value).run r = .error e r' ↔
        (skipValue : ReadM σ Unit).run r = .error e r') ∧
      (∀ r', (∃ v, (Reader.value : ReadM σ Value).run r = .ok v r') ↔
        (skipValue : ReadM σ Unit).run r = .ok () r')) ∧
    (∀ (sch : Schema) (r r' : Reader Scanner) (v : sch.Carrier),
      (sch.read).run r = .ok v r' → (skipValue : ReadM Scanner Unit).run r = .ok () r') ∧
    (∀ (sch : Schema) (r r' : Reader TreeSource) (v : sch.Carrier), r.source.Within →
      (sch.read).run r = .ok v r' → (skipValue : ReadM TreeSource Unit).run r = .ok () r') := by
  -- reading whole and skipping are one loop seen two ways (`skipValue_run_eq`); a typed read
  -- consumes what skipping does on a source that pulls by kind as it pulls for skipping and keeps
  -- to its budget
  refine ⟨fun σ _ r => ⟨fun e r' => ?_, fun r' => ?_⟩,
    fun sch r r' v h => Schema.read_consumes_as_skipValue Scanner.pullsByKind Scanner.keepsBudget
      sch trivial h,
    fun sch r r' v hw h => Schema.read_consumes_as_skipValue TreeSource.pullsByKind
      TreeSource.keepsBudget sch hw h⟩ <;>
  · rw [skipValue_run_eq]
    cases (Reader.value : ReadM σ Value).run r <;> simp

/-- A list of optional booleans read from text, and a map of lists of booleans read from a tree,
leave the reader where skipping them leaves it. -/
theorem skipValue_consumes_as_reads_lists :
    (∃ r', (Schema.list (.option .bool)).read.run
        (Reader.ofSource (Scanner.ofBytes
          (Utf8.encode ['[', 't', 'r', 'u', 'e', ',', 'n', 'u', 'l', 'l', ']']) false)) = .ok [some true, none] r' ∧
      (skipValue : ReadM Scanner Unit).run
        (Reader.ofSource (Scanner.ofBytes
          (Utf8.encode ['[', 't', 'r', 'u', 'e', ',', 'n', 'u', 'l', 'l', ']']) false)) = .ok () r') ∧
    (∃ r', (Schema.map (.list .bool)).read.run
        (Reader.ofSource (TreeSource.ofValue (.object [("a", .array [.bool true])]) false)) =
          .ok [("a", [true])] r' ∧
      (skipValue : ReadM TreeSource Unit).run
        (Reader.ofSource (TreeSource.ofValue (.object [("a", .array [.bool true])]) false)) =
          .ok () r') := by
  constructor
  · -- the scanner's answer is computed, then taken apart
    have hok : (match (Schema.list (.option .bool)).read.run (Reader.ofSource (Scanner.ofBytes
          (Utf8.encode ['[', 't', 'r', 'u', 'e', ',', 'n', 'u', 'l', 'l', ']']) false)) with
        | .ok v _ => (fun w : List (Option Bool) => decide (w = [some true, none])) v
        | .error _ _ => false) = true := by
      decide +kernel
    cases hread : (Schema.list (.option .bool)).read.run (Reader.ofSource (Scanner.ofBytes
        (Utf8.encode ['[', 't', 'r', 'u', 'e', ',', 'n', 'u', 'l', 'l', ']']) false)) with
    | ok v r' =>
      rw [hread] at hok
      have hv : @Eq (List (Option Bool)) v [some true, none] := by simpa using hok
      exact ⟨r', by rw [hv]; rfl, skipValue_consumes_as_reads.2.1 _ _ _ _ hread⟩
    | error e r' =>
      rw [hread] at hok
      cases hok
  · obtain ⟨r', hread⟩ : ∃ r', (Schema.map (.list .bool)).read.run
        (Reader.ofSource (TreeSource.ofValue (.object [("a", .array [.bool true])]) false)) =
          .ok [("a", [true])] r' := ⟨_, rfl⟩
    exact ⟨r', hread, skipValue_consumes_as_reads.2.2 _ _ _ _
      (TreeSource.within_ofValue _ _) hread⟩

end JsonCodec
