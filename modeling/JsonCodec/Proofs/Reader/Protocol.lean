import JsonCodec.Proofs.Reader.Refusal

/-! # The reader's protocol over a walk

A client keeps to the protocol of the reader when it reads, skips, looks at a kind or checks for
the end only where the reader stands on a value it was handed, or at the top of the document
(`OnValue`), and steps a cursor only once every cursor made after it is done
(`Call.Permitted`). Such a client stays in step with the walk of the document (`Fits`): its
open cursors are the walk's containers, outermost first and each of the container's kind; all but
the innermost have been stepped, the innermost exactly when the walk has moved into it; and a
value awaits exactly when the walk stands on one inside a container.

What each call does can then be read off the walk alone, with no source (`Call.onWalk`): its
answer, whether a value awaits after it and the cursors then, and the walk it leads to; or its
error, up to where it was found. After every permitted call the cursors fit the walk again
(`Fits.onWalk`), so the protocol keeps a client in step over a whole run.
-/

namespace JsonCodec

/-- A container that is an array holds elements. -/
theorem TreeFrame.exists_array {f : TreeFrame} (h : f.isArray = true) : ∃ items, f = .array items := by
  cases f with
  | array items => exact ⟨items, rfl⟩
  | object _ => cases h

/-- A container that is not an array holds members. -/
theorem TreeFrame.exists_object {f : TreeFrame} (h : f.isArray = false) :
    ∃ members, f = .object members := by
  cases f with
  | object members => exact ⟨members, rfl⟩
  | array _ => cases h

/-- A step of the walk depends on its containers only. -/
theorem Walk.step_of_frames {w : Walk} {f : TreeFrame} {fs : List TreeFrame} (hf : w.frames = f :: fs)
    (b : Bool) : w.step = Walk.step ⟨none, f :: fs, b⟩ := by
  obtain ⟨current, frames, fresh⟩ := w
  simp only at hf
  subst hf
  cases f with
  | array items => cases items <;> rfl
  | object members => rcases members with _ | ⟨⟨k, v⟩, rest⟩ <;> rfl

/-- Taking a container enters it. -/
theorem Walk.take_of_nodeFrame {w : Walk} {v : Value} {f : TreeFrame} (hc : w.current = some v)
    (hf : TreeSource.nodeFrame v = some f) : w.take = ⟨none, f :: w.frames, true⟩ := by
  cases v <;> simp_all [Walk.take, TreeSource.nodeFrame]

namespace Reader

/-! ### Open cursors -/

namespace Cursor

/-- Whether the cursor is over an array. -/
def isArray : Cursor → Bool
  | .array _ => true
  | .object _ => false

/-- The open cursors of a list, outermost first, each as whether it is over an array and whether
it has been stepped. -/
def openShapes (cs : List Cursor) : List (Bool × Bool) :=
  (cs.filter fun c => !c.done).map fun c => (c.isArray, c.started)

/-- No cursors, none open. -/
@[simp] theorem openShapes_nil : openShapes [] = [] := rfl

/-- The open cursors of two lists, in order. -/
@[simp] theorem openShapes_append (cs cs' : List Cursor) :
    openShapes (cs ++ cs') = openShapes cs ++ openShapes cs' := by
  simp [openShapes, List.filter_append]

/-- A single cursor is open exactly when it is not done. -/
@[simp] theorem openShapes_singleton (c : Cursor) :
    openShapes [c] = if c.done then [] else [(c.isArray, c.started)] := by
  cases h : c.done <;> simp [openShapes, h]

/-- With every cursor done, none is open. -/
theorem openShapes_eq_nil {cs : List Cursor} (h : ∀ c ∈ cs, c.done = true) : openShapes cs = [] := by
  simpa [openShapes, List.filter_eq_nil_iff] using h

/-- Replacing a cursor keeps the open cursors but for that one. -/
theorem openShapes_set {cs : List Cursor} {i : Nat} (hi : i < cs.length) (c : Cursor) :
    openShapes (cs.set i c) = openShapes (cs.take i) ++ openShapes [c] ++ openShapes (cs.drop (i + 1)) := by
  rw [List.set_eq_take_append_cons_drop, if_pos hi, ← List.singleton_append, openShapes_append,
    openShapes_append, List.append_assoc]

end Cursor

/-- No cursor made after cursor `i` is open. -/
theorem InnerDone.openShapes_drop {cs : List Cursor} {i : Nat} (h : InnerDone cs i) :
    Cursor.openShapes (cs.drop (i + 1)) = [] := by
  apply Cursor.openShapes_eq_nil
  intro c hc
  obtain ⟨j, hj⟩ := List.mem_iff_getElem?.1 hc
  rw [List.getElem?_drop] at hj
  exact h (i + 1 + j) (by omega) c hj

/-- The reader stands on a value it handed the client, or at the top of the document: a value
awaits, or every cursor is done. -/
def OnValue (awaiting : Bool) (cs : List Cursor) : Prop :=
  awaiting = true ∨ ∀ c ∈ cs, c.done = true

/-- A call keeps to the protocol of the reader, made by a client that holds `cs` with `awaiting`:
a read, a skip, a look at the kind or the check for the end only on a value or at the top, and a
cursor step only once every cursor made after it is done. -/
def Call.Permitted (awaiting : Bool) (cs : List Cursor) : Call → Prop
  | .next i => InnerDone cs i
  | .isEof | .offset | .name _ | .defined _ | .require _ _ => True
  | _ => OnValue awaiting cs

/-- The cursors a client holds and whether a value awaits it fit a walk. -/
structure Fits (cs : List Cursor) (awaiting : Bool) (w : Walk) : Prop where
  /-- The open cursors are the walk's containers, outermost first. -/
  kinds : (Cursor.openShapes cs).map Prod.fst = (w.frames.map TreeFrame.isArray).reverse
  /-- Each open cursor around the innermost has been stepped. -/
  outer : ∀ p ∈ (Cursor.openShapes cs).dropLast, p.2 = true
  /-- The innermost has been stepped exactly when the walk has moved into its container. -/
  inner : ∀ p ∈ (Cursor.openShapes cs).getLast?, p.2 = !w.fresh
  /-- A value awaits exactly when the walk stands on one inside a container. -/
  awaiting : awaiting = (w.current.isSome && !w.frames.isEmpty)
  /-- A walk that stands on a value has moved into its container. -/
  settled : w.current.isSome = true → w.fresh = false

namespace Fits

variable {cs : List Cursor} {a : Bool} {w : Walk}

/-- Fitting depends on the open cursors' kinds and steps only. -/
theorem of_openShapes {cs' : List Cursor} (h : Fits cs a w)
    (hs : Cursor.openShapes cs' = Cursor.openShapes cs) : Fits cs' a w :=
  ⟨hs ▸ h.kinds, hs ▸ h.outer, hs ▸ h.inner, h.awaiting, h.settled⟩

/-- A client with no cursors and nothing awaiting fits the walk of a whole document. -/
theorem start (v : Value) : Fits [] false (Walk.start v) :=
  ⟨rfl, by simp, by simp, rfl, fun _ => rfl⟩

/-- With every cursor done, the walk is at the top of the document. -/
theorem frames_nil (h : Fits cs a w) (hd : ∀ c ∈ cs, c.done = true) : w.frames = [] := by
  have hk := h.kinds
  rw [Cursor.openShapes_eq_nil hd] at hk
  simpa using hk.symm

/-- On a value or at the top, the walk stands on a value or has ended. -/
theorem current_or_end (h : Fits cs a w) (hv : OnValue a cs) :
    (∃ v, w.current = some v) ∨ w.atEnd = true := by
  rcases hv with ha | hd
  · have := h.awaiting
    rw [ha] at this
    obtain ⟨v, hv⟩ := Option.isSome_iff_exists.1 (Bool.and_eq_true_iff.1 this.symm).1
    exact .inl ⟨v, hv⟩
  · cases hc : w.current with
    | some v => exact .inl ⟨v, rfl⟩
    | none => exact .inr (by simp [Walk.atEnd, hc, h.frames_nil hd])

/-- Standing on a value, every open cursor has been stepped. -/
theorem all_started (h : Fits cs a w) (hv : OnValue a cs) (hc : w.current.isSome = true) :
    ∀ p ∈ Cursor.openShapes cs, p.2 = true := by
  rcases hv with ha | hd
  · intro p hp
    cases hl : (Cursor.openShapes cs).getLast? with
    | none => simp_all
    | some q =>
      rw [← List.dropLast_append_getLast? q hl] at hp
      rcases List.mem_append.1 hp with hp | hp
      · exact h.outer p hp
      · rw [List.mem_singleton.1 hp, h.inner q hl, h.settled hc]
        rfl
  · simp [Cursor.openShapes_eq_nil hd]

/-- A value read whole, or taken as a scalar, leaves the cursors as they are, past it. -/
theorem skip (h : Fits cs a w) (hv : OnValue a cs) (hc : w.current.isSome = true) :
    Fits cs false w.skip where
  kinds := h.kinds
  outer := h.outer
  inner p hp := by
    rw [h.all_started hv hc p (List.mem_of_getLast? hp)]
    rfl
  awaiting := by simp [Walk.skip]
  settled := by simp [Walk.skip]

/-- A container taken from a value gets the new cursor, which has not been stepped. -/
theorem enter (h : Fits cs a w) (hv : OnValue a cs) (hc : w.current.isSome = true) {c : Cursor}
    {f : TreeFrame} (hd : c.done = false) (hs : c.started = false) (hk : c.isArray = f.isArray) :
    Fits (cs ++ [c]) false ⟨none, f :: w.frames, true⟩ where
  kinds := by simp [hd, hk, h.kinds]
  outer p hp := by
    simp only [Cursor.openShapes_append, Cursor.openShapes_singleton, hd, Bool.false_eq_true,
      if_false, List.dropLast_concat] at hp
    exact h.all_started hv hc p hp
  inner p hp := by
    simp [hd, hk, hs] at hp
    subst hp
    rfl
  awaiting := rfl
  settled := by simp

/-- A cursor that is done changes nothing. -/
theorem append_done (h : Fits cs a w) {c : Cursor} (hd : c.done = true) : Fits (cs ++ [c]) a w :=
  h.of_openShapes (by simp [hd])

/-- A cursor replaced by one of the same kind, as far stepped and as done, changes nothing. -/
theorem set_same (h : Fits cs a w) {i : Nat} {c c' : Cursor} (hi : cs[i]? = some c)
    (hd : c'.done = c.done) (hk : c'.isArray = c.isArray) (hs : c'.started = c.started) :
    Fits (cs.set i c') a w := by
  obtain ⟨hlt, rfl⟩ := List.getElem?_eq_some_iff.1 hi
  refine h.of_openShapes ?_
  conv => rhs; rw [← List.set_getElem_self hlt]
  rw [Cursor.openShapes_set hlt, Cursor.openShapes_set hlt]
  simp [hd, hk, hs]

section Step

variable {i : Nat} {c : Cursor} (hi : cs[i]? = some c) (hn : InnerDone cs i)
include hi hn

/-- With every cursor after cursor `i` done, the open cursors are those before it, then it. -/
theorem openShapes_set_of_innerDone (c' : Cursor) :
    Cursor.openShapes (cs.set i c') = Cursor.openShapes (cs.take i) ++ Cursor.openShapes [c'] := by
  rw [Cursor.openShapes_set (List.getElem?_eq_some_iff.1 hi).1, hn.openShapes_drop, List.append_nil]

/-- An open cursor with every later one done is the innermost open cursor. -/
theorem openShapes_of_innerDone (hd : c.done = false) :
    Cursor.openShapes cs = Cursor.openShapes (cs.take i) ++ [(c.isArray, c.started)] := by
  obtain ⟨hlt, rfl⟩ := List.getElem?_eq_some_iff.1 hi
  conv => lhs; rw [← List.set_getElem_self hlt]
  rw [openShapes_set_of_innerDone hi hn]
  simp [hd]

/-- An open cursor with every later one done is over the walk's innermost container, and the walk
stands where the cursor's next step starts: between values with nothing awaiting, or on the value
its latest step went to. -/
theorem innermost (h : Fits cs a w) (hd : c.done = false) :
    ∃ f fs, w.frames = f :: fs ∧ f.isArray = c.isArray ∧
      ((a = false ∧ w = ⟨none, f :: fs, !c.started⟩) ∨
        (a = true ∧ c.started = true ∧ ∃ v, w = ⟨some v, f :: fs, false⟩)) := by
  -- the cursor is the last open one, so its shape is the last of the open shapes and matches the
  -- innermost frame
  have hS := openShapes_of_innerDone hi hn hd
  have hk := h.kinds
  have hin := h.inner (c.isArray, c.started) (by simp [hS])
  obtain ⟨current, frames, fresh⟩ := w
  cases frames with
  -- an open cursor means some container is open
  | nil => simp [hS] at hk
  | cons f fs =>
    refine ⟨f, fs, rfl, ?_, ?_⟩
    · simp only [hS, List.map_append, List.map_cons, List.map_nil, List.reverse_cons] at hk
      exact (List.append_singleton_inj.1 hk).2.symm
    · have ha := h.awaiting
      -- with no value in hand nothing awaits and the cursor's step starts the container exactly
      -- when it is fresh; on a value, the cursor has stepped to it
      cases current with
      | none =>
        refine .inl ⟨by simpa using ha, ?_⟩
        simp only at hin
        simp [hin]
      | some v =>
        have hfresh : fresh = false := h.settled rfl
        subst hfresh
        exact .inr ⟨by simpa using ha, by simpa using hin, v, rfl⟩

/-- A step of the innermost open cursor to a value leaves it open and stepped, the walk on the
value inside the same container. -/
theorem step_more (h : Fits cs a w) (hd : c.done = false) {c' : Cursor} (hd' : c'.done = false)
    (hk' : c'.isArray = c.isArray) (hs' : c'.started = true) {f f' : TreeFrame}
    {fs : List TreeFrame} (hf : w.frames = f :: fs) (hf' : f'.isArray = f.isArray) (v : Value) :
    Fits (cs.set i c') true ⟨some v, f' :: fs, false⟩ where
  kinds := by
    -- the stepped cursor stays the last open one, of the same kind as the frame
    have hk := h.kinds
    rw [openShapes_of_innerDone hi hn hd, hf] at hk
    rw [openShapes_set_of_innerDone hi hn]
    simpa [hd', hk', hf'] using hk
  outer p hp := by
    -- the cursors around it are as they were
    rw [openShapes_set_of_innerDone hi hn] at hp
    simp only [Cursor.openShapes_singleton, hd', Bool.false_eq_true, if_false,
      List.dropLast_concat] at hp
    exact h.outer p (by rw [openShapes_of_innerDone hi hn hd, List.dropLast_concat]; exact hp)
  inner p hp := by
    -- it has now been stepped, and the walk is no longer fresh
    rw [openShapes_set_of_innerDone hi hn] at hp
    simp [hd', hs'] at hp
    subst hp
    rfl
  awaiting := rfl
  settled _ := rfl

/-- A step of the innermost open cursor past the end of its container leaves it done, the walk
past the container. -/
theorem step_end (h : Fits cs a w) (hd : c.done = false) {c' : Cursor} (hd' : c'.done = true)
    {f : TreeFrame} {fs : List TreeFrame} (hf : w.frames = f :: fs) :
    Fits (cs.set i c') false ⟨none, fs, false⟩ := by
  have hS := openShapes_of_innerDone hi hn hd
  have hS' : Cursor.openShapes (cs.set i c') = Cursor.openShapes (cs.take i) := by
    simp [openShapes_set_of_innerDone hi hn, hd']
  -- the cursors before it, all stepped
  have hout : ∀ p ∈ Cursor.openShapes (cs.take i), p.2 = true := fun p hp =>
    h.outer p (by rw [hS, List.dropLast_concat]; exact hp)
  refine ⟨?_, fun p hp => hout p (List.mem_of_mem_dropLast (hS' ▸ hp)),
    fun p hp => (hout p (List.mem_of_getLast? (hS' ▸ hp))).trans rfl, rfl, fun h => by simp at h⟩
  have hk := h.kinds
  rw [hS, hf] at hk
  simp only [List.map_append, List.map_cons, List.map_nil, List.reverse_cons] at hk
  rw [hS']
  exact (List.append_singleton_inj.1 hk).1

end Step

end Fits

/-! ### What a call does on a walk -/

/-- How a call ends, up to what only the source decides: its answer and, after it, whether a value
awaits and the cursors; or its error. -/
abbrev Outcome := Except ReadError (Answer × Bool × List Cursor)

/-- Which calls read the value the reader stands on, or look at it. -/
def Call.readsValue : Call → Bool
  | .scalar _ | .array _ | .object _ _ | .any _ | .skip | .value | .typed _ | .peek => true
  | _ => false

/-- The cursor `any` makes for a value it takes: one over an array or an object, none for a
scalar. -/
def Call.anyCursor (names : List String) : Value → List Cursor
  | .array _ => [.array (.ofDefined true)]
  | .object _ => [.object ((ObjectCursor.ofDefined true).requireAll names)]
  | _ => []

/-- A read at the value the walk stands on; past the end of the document, the unexpected end. -/
def onValue (w : Walk) (f : Value → Outcome × Walk) : Outcome × Walk :=
  match w.current with
  | some v => f v
  | none => (.error (.fault .unexpectedEnd none), w)

/-- What a call does at the walk `w` for a client that holds the view `V`: how it ends, and the
walk after it. This is the reader's protocol over the document alone, with no source. -/
def Call.onWalk (V : Bool × List Cursor) (w : Walk) : Call → Outcome × Walk
  | .scalar sr => onValue w fun v =>
    if v.kind.admits (some sr.kind) sr.nullable then (.ok (.scalar (sr.expect v), false, V.2), w.skip)
    else (.error (.mismatch sr.kind v.kind none), w)
  | .array orNull => onValue w fun v =>
    if v.kind.admits (some .array) orNull then
      (.ok (.opened (v.kind == .array), false, V.2 ++ [.array (.ofDefined (v.kind == .array))]), w.take)
    else (.error (.mismatch .array v.kind none), w)
  | .object orNull names => onValue w fun v =>
    if v.kind.admits (some .object) orNull then
      (.ok (.opened (v.kind == .object), false,
        V.2 ++ [.object ((ObjectCursor.ofDefined (v.kind == .object)).requireAll names)]), w.take)
    else (.error (.mismatch .object v.kind none), w)
  | .any names => onValue w fun v =>
    (.ok (.token (TreeSource.nodeToken v), false, V.2 ++ Call.anyCursor names v), w.take)
  | .skip => onValue w fun _ => (.ok (.skipped, false, V.2), w.skip)
  | .value => onValue w fun v => (.ok (.value v.canon, false, V.2), w.skip)
  | .typed T => onValue w fun v =>
    match T.decode v with
    | some d => (.ok (.typed ⟨T, d⟩, false, V.2), w.skip)
    | none => (.error ((T.refusal v).getD (.fault .unexpectedEnd none)), w)
  | .peek => onValue w fun v => (.ok (.kind v.kind, V), w)
  | .isEof => (.ok (.eof w.atEnd, V), w)
  | .finish => (if w.atEnd then .ok (.finished, V) else .error (.fault .trailingData none), w)
  | .offset => (.ok (.offset none, V), w)
  | .next i =>
    match V.2[i]? with
    | some (.array c) =>
      if c.done then (.ok (.stepped false none, V), w)
      else
        -- the array's next element, or its end
        let more := w.step.current.isSome
        (.ok (.stepped more none, more, V.2.set i (.array { c with started := true, done := !more })),
          w.step)
    | some (.object c) =>
      if c.done then (.ok (.stepped false (some c.name), V), w)
      else
        match w.frames with
        | .object ((k, _) :: _) :: _ =>
          (.ok (.stepped true (some ⟨k, true⟩), true, V.2.set i (.object
            { c with started := true, name := ⟨k, true⟩, required := markSeen k c.required })), w.step)
        | _ =>
          -- the object's end, where a required name not seen is reported
          match c.required.find? fun e => !e.2 with
          | some (n, _) => (.error (.missingProperty n none), w.step)
          | none => (.ok (.stepped false (some ⟨"", true⟩), false, V.2.set i (.object
              { c with started := true, done := true, name := ⟨"", true⟩ })), w.step)
    | none => (.ok (.noCursor, V), w)
  | .name i =>
    match V.2[i]? with
    | some (.object c) => (.ok (.name c.name, V), w)
    | _ => (.ok (.noCursor, V), w)
  | .defined i =>
    match V.2[i]? with
    | some c => (.ok (.defined c.defined, V), w)
    | none => (.ok (.noCursor, V), w)
  | .require i names =>
    match V.2[i]? with
    | some (.object c) => (.ok (.required, V.1, V.2.set i (.object (c.requireAll names))), w)
    | _ => (.ok (.noCursor, V), w)

/-- A call that reads a value, where the walk stands on none, meets the end of the input. -/
theorem Call.onWalk_end {call : Call} (V : Bool × List Cursor) {w : Walk} (hc : w.current = none)
    (hr : call.readsValue = true) : call.onWalk V w = (.error (.fault .unexpectedEnd none), w) := by
  cases call <;> simp_all [Call.readsValue, Call.onWalk, onValue]

/-- A permitted call that reads a value is made on a value or at the top of the document. -/
theorem Call.onValue_of_permitted {call : Call} {a : Bool} {cs : List Cursor}
    (hcall : call.readsValue = true) (hp : call.Permitted a cs) : OnValue a cs := by
  cases call <;> simp_all [Call.readsValue, Call.Permitted]

/-! ### The protocol keeps a client in step with the walk -/

namespace Fits

variable {V : Bool × List Cursor} {w : Walk}

/-- After a read at a value, the view fits the walk the read leads to: past the value, or into
the container it opened. -/
theorem onWalk_read (h : Fits V.2 V.1 w) (hv : OnValue V.1 V.2) {v : Value} (hc : w.current = some v)
    {call : Call} (hcall : call.readsValue = true) {a : Answer} {V' : Bool × List Cursor}
    (ho : (call.onWalk V w).1 = .ok (a, V')) : Fits V'.2 V'.1 (call.onWalk V w).2 := by
  have hs : w.current.isSome = true := by simp [hc]
  -- a value consumed whole leaves the cursors as they were
  have hskip := h.skip hv hs
  cases call <;> simp [Call.readsValue] at hcall <;> simp only [Call.onWalk, onValue, hc] at ho ⊢
  case scalar sr =>
    split_ifs at ho ⊢
    cases ho
    exact hskip
  case array orNull =>
    split_ifs at ho ⊢ with hk
    cases ho
    cases v with
    | array items =>
      rw [Walk.take_of_nodeFrame hc rfl]
      exact h.enter hv hs rfl rfl rfl
    | null =>
      rw [Walk.take_eq_skip hc rfl]
      exact hskip.append_done rfl
    | _ => simp [Kind.admits, Value.kind] at hk
  case object orNull names =>
    split_ifs at ho ⊢ with hk
    cases ho
    cases v with
    | object members =>
      rw [Walk.take_of_nodeFrame hc rfl]
      exact h.enter hv hs rfl rfl rfl
    | null =>
      rw [Walk.take_eq_skip hc rfl]
      exact hskip.append_done rfl
    | _ => simp [Kind.admits, Value.kind] at hk
  case any names =>
    cases ho
    cases v with
    | array items =>
      rw [Walk.take_of_nodeFrame hc rfl]
      exact h.enter hv hs rfl rfl rfl
    | object members =>
      rw [Walk.take_of_nodeFrame hc rfl]
      exact h.enter hv hs rfl rfl rfl
    | _ =>
      rw [Walk.take_eq_skip hc rfl]
      simpa [Call.anyCursor] using hskip
  case skip => cases ho; exact hskip
  case value => cases ho; exact hskip
  case typed T =>
    cases hd : T.decode v <;> simp only [hd] at ho ⊢ <;> cases ho
    exact hskip
  case peek => cases ho; exact h

/-- After a cursor step made once every cursor made after it is done, the view fits the walk the
step leads to. -/
theorem onWalk_next (h : Fits V.2 V.1 w) {i : Nat} (hn : InnerDone V.2 i) {a : Answer}
    {V' : Bool × List Cursor} (ho : ((Call.next i).onWalk V w).1 = .ok (a, V')) :
    Fits V'.2 V'.1 ((Call.next i).onWalk V w).2 := by
  simp only [Call.onWalk] at ho ⊢
  cases hi : V.2[i]? with
  | none =>
    simp only [hi] at ho ⊢
    cases ho
    exact h
  | some cur =>
    cases cur with
    | array c =>
      simp only [hi] at ho ⊢
      cases hd : c.done
      · obtain ⟨f, fs, hf, hk, -⟩ := h.innermost hi hn hd
        obtain ⟨items, rfl⟩ := TreeFrame.exists_array hk
        simp only [hd, Bool.false_eq_true, if_false, Walk.step_of_frames hf false] at ho ⊢
        cases items with
        | nil =>
          cases ho
          exact h.step_end hi hn hd rfl hf
        | cons x rest =>
          cases ho
          refine h.step_more hi hn hd ?_ ?_ ?_ hf ?_ x <;> rfl
      · simp only [hd, if_true] at ho ⊢
        cases ho
        exact h
    | object c =>
      simp only [hi] at ho ⊢
      cases hd : c.done
      · obtain ⟨f, fs, hf, hk, -⟩ := h.innermost hi hn hd
        obtain ⟨members, rfl⟩ := TreeFrame.exists_object hk
        simp only [hd, Bool.false_eq_true, if_false, hf, Walk.step_of_frames hf false] at ho ⊢
        rcases members with _ | ⟨⟨k, x⟩, rest⟩
        · -- past the end, unless a required name was not seen
          cases hq : c.required.find? fun e => !e.2 <;> simp only [hq] at ho ⊢ <;> cases ho
          exact h.step_end hi hn hd rfl hf
        · cases ho
          refine h.step_more hi hn hd ?_ ?_ ?_ hf ?_ x <;> rfl
      · simp only [hd, if_true] at ho ⊢
        cases ho
        exact h

/-- The protocol keeps a client in step with the walk: after every call it is permitted to make,
its view fits the walk the call leads to. -/
theorem onWalk (h : Fits V.2 V.1 w) {call : Call} (hp : call.Permitted V.1 V.2) {a : Answer}
    {V' : Bool × List Cursor} (ho : (call.onWalk V w).1 = .ok (a, V')) :
    Fits V'.2 V'.1 (call.onWalk V w).2 := by
  cases hread : call.readsValue
  · -- the calls that read no value
    cases call <;> simp [Call.readsValue] at hread
    case next i => exact h.onWalk_next hp ho
    case finish =>
      simp only [Call.onWalk] at ho ⊢
      split_ifs at ho
      cases ho
      exact h
    case require i names =>
      simp only [Call.onWalk] at ho ⊢
      rcases hi : V.2[i]? with _ | (c | c) <;> simp only [hi] at ho ⊢ <;> cases ho
      · exact h
      · exact h
      · exact h.set_same hi rfl rfl rfl
    -- the others leave the view and the walk as they are
    case name i =>
      simp only [Call.onWalk] at ho ⊢
      rcases hi : V.2[i]? with _ | (c | c) <;> simp only [hi] at ho ⊢ <;> cases ho <;> exact h
    case defined i =>
      simp only [Call.onWalk] at ho ⊢
      rcases hi : V.2[i]? with _ | c <;> simp only [hi] at ho ⊢ <;> cases ho <;> exact h
    all_goals
      simp only [Call.onWalk] at ho ⊢
      cases ho
      exact h
  · have hv := Call.onValue_of_permitted hread hp
    cases hc : w.current with
    | some v => exact h.onWalk_read hv hc hread ho
    | none => simp [Call.onWalk_end V hc hread] at ho

end Fits

end Reader

end JsonCodec
