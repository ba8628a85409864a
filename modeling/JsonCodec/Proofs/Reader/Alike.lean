import JsonCodec.Proofs.Reader.Protocol
import JsonCodec.Proofs.Writer.ReadBack

/-! # A tree and its text read alike

A client reads a document through calls on the reader and on the cursors it opens. What it sees
depends on the source only through offsets, which a tree does not know, and through whether a
string is the input's own bytes. `Answer.erase` forgets both, and `Client.view` is what a client
holds up to the same: whether a value awaits it, and its cursors with their names' provenance
forgotten.

Every source that follows walks and refuses as they say answers each call permitted by the
protocol as the walk says (`Client.answersAs_of_fits`, against `Call.onWalk`); so two clients on
two such sources of one walk give the same answers over a whole run (`Client.run_alike`). A tree
read without coercion and the text written for it are two such sources of one walk, so a client
reads the same from both (`tree_and_text_read_alike`).
-/

namespace JsonCodec

namespace Reader

/-! ### What a client sees -/

namespace Cursor

/-- A cursor with the provenance of its name forgotten. -/
def erase : Cursor → Cursor
  | .array c => .array c
  | .object c => .object { c with name := ⟨c.name.str, true⟩ }

end Cursor

/-- What a call answered, with what only the source decides forgotten: offsets, and whether a
string is the input's own bytes. -/
def Answer.erase : Answer → Answer
  | .token t => .token t.erase
  | .typed ⟨T, x⟩ => .typed ⟨T, T.plain x⟩
  | .offset _ => .offset none
  | .stepped more n => .stepped more (n.map fun t => ⟨t.str, true⟩)
  | .name t => .name ⟨t.str, true⟩
  | .failed e => .failed e.blank
  | a => a

/-- The cursors made for a value hold no names, so erasing leaves them as they are. -/
@[simp] theorem Call.anyCursor_map_erase (names : List String) (v : Value) :
    (Call.anyCursor names v).map Cursor.erase = Call.anyCursor names v := by
  cases v <;> rfl

/-! ### Reads on a source that follows walks -/

section Opening

variable {σ : Type} [Source σ] {R : σ → Walk → Prop} (hR : FollowsWalk R)
include hR

/-- Opening an array at a value it takes: a cursor over the array, entered, or over nothing for a
null. -/
theorem Call.openArray_admits {orNull : Bool} {r : Reader σ} {w : Walk} {v : Value}
    (hr : R r.source w) (hc : w.current = some v) (hk : v.kind.admits (some .array) orNull = true) :
    ∃ s', (Call.openArray orNull).run r = .ok (.ofDefined (v.kind == .array)) ⟨s', false⟩ ∧
      R s' w.take := by
  cases v with
  | array items =>
    cases orNull
    · exact Opener.openArray_run hR .plain hr hc
    · exact Opener.openArray_run hR .orNull hr hc
  | null =>
    cases orNull
    · simp [Kind.admits, Value.kind] at hk
    · obtain ⟨s', h, hs⟩ := Opener.openArray_null hR hr hc
      exact ⟨s', h, Walk.take_eq_skip hc rfl ▸ hs⟩
  | _ => simp [Kind.admits, Value.kind] at hk

/-- Opening an object at a value it takes: a cursor over the object, entered, or over nothing for
a null. -/
theorem Call.openObject_admits {orNull : Bool} {r : Reader σ} {w : Walk} {v : Value}
    (hr : R r.source w) (hc : w.current = some v) (hk : v.kind.admits (some .object) orNull = true) :
    ∃ s', (Call.openObject orNull).run r = .ok (.ofDefined (v.kind == .object)) ⟨s', false⟩ ∧
      R s' w.take := by
  cases v with
  | object members =>
    cases orNull
    · exact Opener.openObject_run hR .plain hr hc
    · exact Opener.openObject_run hR .orNull hr hc
  | null =>
    cases orNull
    · simp [Kind.admits, Value.kind] at hk
    · obtain ⟨s', h, hs⟩ := Opener.openObject_null hR hr hc
      exact ⟨s', h, Walk.take_eq_skip hc rfl ▸ hs⟩
  | _ => simp [Kind.admits, Value.kind] at hk

/-- Standing on a value, the check for the end of the document reports it as trailing data. -/
theorem finish_trailing {r : Reader σ} {w : Walk} {v : Value} (hr : R r.source w)
    (hc : w.current = some v) :
    ∃ o r', (finish : ReadM σ Unit).run r = .error (.fault .trailingData o) r' := by
  obtain ⟨s₁, h₁, hs₁⟩ := isEof_run hR hr
  obtain ⟨s₂, h₂, -⟩ := peekKind_run hR (r := { r with source := s₁ }) hs₁ hc
  have hend : w.atEnd = false := by simp [Walk.atEnd, hc]
  refine ⟨Source.offset s₂, { r with source := s₂ }, ?_⟩
  simp [finish, EStateM.run_bind, h₁, hend, h₂, offset]

end Opening

namespace Client

variable {σ : Type} [Source σ]

/-- What a client holds, up to the provenance of names: whether a value awaits it, and its
cursors. -/
def view (c : Client σ) : Bool × List Cursor := (c.reader.awaiting, c.cursors.map Cursor.erase)

/-- How a step of a client ends, up to what its source alone decides: with the answer and the
view after it, the client standing at `w` in `R`; or with the error. -/
def StepEnds (R : σ → Walk → Prop) (c : Client σ) (call : Call) (w : Walk) : Outcome → Prop
  | .ok (a, V) => ∃ ans c', c.step call = (ans, some c') ∧ ans.erase = a ∧ c'.view = V ∧
      R c'.reader.source w
  | .error e => ∃ e', c.step call = (.failed e', none) ∧ e'.blank = e

/-- A client answers a call as the walk `w` says (`Call.onWalk`). -/
def AnswersAs (R : σ → Walk → Prop) (w : Walk) (c : Client σ) (call : Call) : Prop :=
  c.StepEnds R call (call.onWalk c.view w).2 (call.onWalk c.view w).1

/-- A client keeps to the protocol of the reader over a run: each call is permitted where it is
made. -/
def KeepsProtocol (c : Client σ) : List Call → Prop
  | [] => True
  | call :: calls => call.Permitted c.view.1 c.view.2 ∧
      ∀ a c', c.step call = (a, some c') → c'.KeepsProtocol calls

variable {R : σ → Walk → Prop} {c : Client σ} {call : Call}

/-- A call whose run succeeds ends as its answer and cursors say, up to provenance, with the client
standing where the source stands. -/
theorem stepEnds_of_ok {ans A : Answer} {cs V : List Cursor} {s : σ} {a : Bool} {w : Walk}
    (h : (call.run c.cursors).run c.reader = .ok (ans, cs) ⟨s, a⟩) (hs : R s w)
    (hA : ans.erase = A) (hV : cs.map Cursor.erase = V) :
    c.StepEnds R call w (.ok (A, a, V)) :=
  ⟨ans, ⟨⟨s, a⟩, cs⟩, by simp [step, h], hA, by rw [view, hV], hs⟩

/-- A call whose run fails ends with its error, up to the offset. -/
theorem stepEnds_of_error {e E : ReadError} {r : Reader σ}
    (h : (call.run c.cursors).run c.reader = .error e r) (he : e.blank = E) (w : Walk) :
    c.StepEnds R call w (.error E) :=
  ⟨e, by simp [step, h], he⟩

omit [Source σ] in
/-- The view holds each cursor of the client, erased. -/
@[simp] theorem getElem?_view (i : Nat) : c.view.2[i]? = (c.cursors[i]?).map Cursor.erase := by
  simp [view]

/-! ### How each call ends -/

section Ends

variable {R : σ → Walk → Prop} (hR : FollowsWalk R) (hM : RefusesWalk R) {c : Client σ}
  {w : Walk}

include hM in
/-- Past the end of the document, every call that reads a value fails with the unexpected end. -/
theorem answersAs_end (hr : R c.reader.source w) (hend : w.atEnd = true) {call : Call}
    (hcall : call.readsValue = true) : c.AnswersAs R w call := by
  have hc : w.current = none := by simpa [Walk.atEnd] using (Bool.and_eq_true_iff.1 hend).1
  rw [AnswersAs, Call.onWalk_end _ hc hcall]
  -- each read fails as the source fails at the end
  obtain ⟨o, r', h⟩ : ∃ o r', (call.run c.cursors).run c.reader = .error (.fault .unexpectedEnd o) r' := by
    cases call with
    | scalar sr =>
      obtain ⟨o, r', h⟩ := sr.run_end hM hr hend
      exact ⟨o, r', by simp [Call.run, h]⟩
    | array orNull =>
      obtain ⟨o, r', h⟩ := Call.openArray_end hM orNull hr hend
      exact ⟨o, r', by simp [Call.run, h]⟩
    | object orNull names =>
      obtain ⟨o, r', h⟩ := Call.openObject_end hM orNull hr hend
      exact ⟨o, r', by simp [Call.run, h]⟩
    | any names =>
      obtain ⟨o, r', h⟩ := any_end hM hr hend
      exact ⟨o, r', by simp [Call.run, h]⟩
    | skip =>
      obtain ⟨o, r', h⟩ := skipValue_end hM hr hend
      exact ⟨o, r', by simp [Call.run, h]⟩
    | value =>
      obtain ⟨o, r', h⟩ := value_end hM hr hend
      exact ⟨o, r', by simp [Call.run, h]⟩
    | typed T =>
      obtain ⟨o, r', h⟩ := Schema.read_end hM T hr hend
      exact ⟨o, r', by simp [Call.run, h]⟩
    | peek =>
      obtain ⟨o, r', h⟩ := peekKind_end hM hr hend
      exact ⟨o, r', by simp [Call.run, h]⟩
    | _ => simp [Call.readsValue] at hcall
  exact stepEnds_of_error h rfl w

include hR hM in
/-- A scalar read at a value: what `ScalarRead.expect` says, past the value, or the mismatch. -/
theorem answersAs_scalar (sr : ScalarRead) {v : Value} (hr : R c.reader.source w)
    (hc : w.current = some v) : c.AnswersAs R w (.scalar sr) := by
  simp only [AnswersAs, Call.onWalk, onValue, hc]
  split
  · next hk =>
    obtain ⟨s', h, hs⟩ := ScalarRead.run_fits hR sr hr hc hk
    have hrun : ((Call.scalar sr).run c.cursors).run c.reader =
        .ok (.scalar (sr.expect v), c.cursors) ⟨s', false⟩ := by simp [Call.run, h]
    exact stepEnds_of_ok hrun hs rfl rfl
  · next hk =>
    obtain ⟨o, r', h⟩ := ScalarRead.run_refused hM sr hr hc (by simpa using hk)
    have hrun : ((Call.scalar sr).run c.cursors).run c.reader = .error (.mismatch sr.kind v.kind o) r' := by
      simp [Call.run, h]
    exact stepEnds_of_error hrun rfl _

include hR hM in
/-- Opening an array at a value: a cursor over the array, one over nothing for a null it takes, or
the mismatch. -/
theorem answersAs_array (orNull : Bool) {v : Value} (hr : R c.reader.source w)
    (hc : w.current = some v) : c.AnswersAs R w (.array orNull) := by
  simp only [AnswersAs, Call.onWalk, onValue, hc]
  -- the node's kind admits the call, which opens it, or the source refuses it as the walk says
  split
  · next hk =>
    obtain ⟨s', h, hs⟩ := Call.openArray_admits hR hr hc hk
    have hrun : ((Call.array orNull).run c.cursors).run c.reader = .ok (.opened (v.kind == .array),
        c.cursors ++ [.array (.ofDefined (v.kind == .array))]) ⟨s', false⟩ := by
      simp [Call.run, h, ArrayCursor.ofDefined]
    exact stepEnds_of_ok hrun hs rfl (by simp [view, Cursor.erase])
  · next hk =>
    obtain ⟨o, r', h⟩ := Call.openArray_refused hM hr hc (by simpa using hk)
    have hrun : ((Call.array orNull).run c.cursors).run c.reader =
        .error (.mismatch .array v.kind o) r' := by
      simp [Call.run, h]
    exact stepEnds_of_error hrun rfl _

include hR hM in
/-- Opening an object at a value: a cursor over the object with the names it requires, one over
nothing for a null it takes, or the mismatch. -/
theorem answersAs_object (orNull : Bool) (names : List String) {v : Value}
    (hr : R c.reader.source w) (hc : w.current = some v) :
    c.AnswersAs R w (.object orNull names) := by
  simp only [AnswersAs, Call.onWalk, onValue, hc]
  -- the node's kind admits the call, which opens it, or the source refuses it as the walk says
  split
  · next hk =>
    obtain ⟨s', h, hs⟩ := Call.openObject_admits hR hr hc hk
    have hrun : ((Call.object orNull names).run c.cursors).run c.reader =
        .ok (.opened (v.kind == .object), c.cursors ++
          [.object ((ObjectCursor.ofDefined (v.kind == .object)).requireAll names)]) ⟨s', false⟩ := by
      simp [Call.run, h, ObjectCursor.ofDefined, ObjectCursor.requireAll]
    exact stepEnds_of_ok hrun hs rfl (by simp [view, Cursor.erase, ObjectCursor.ofDefined,
      ObjectCursor.requireAll])
  · next hk =>
    obtain ⟨o, r', h⟩ := Call.openObject_refused hM hr hc (by simpa using hk)
    have hrun : ((Call.object orNull names).run c.cursors).run c.reader =
        .error (.mismatch .object v.kind o) r' := by
      simp [Call.run, h]
    exact stepEnds_of_error hrun rfl _

include hR in
/-- `any` at a value: the value's token, and a cursor when it starts a container. -/
theorem answersAs_any (names : List String) {v : Value} (hr : R c.reader.source w)
    (hc : w.current = some v) : c.AnswersAs R w (.any names) := by
  simp only [AnswersAs, Call.onWalk, onValue, hc]
  obtain ⟨t, s', h, ht, hs⟩ := any_run hR hr hc
  -- a container's start is the source's token itself; any other token opens nothing
  have hrun : ((Call.any names).run c.cursors).run c.reader =
      .ok (.token t, c.cursors ++ Call.anyCursor names v) ⟨s', false⟩ := by
    cases v with
    | array items =>
      obtain rfl := Token.eq_of_erase_eq ht (by simp [Value.kind])
      simp [Call.run, h, TreeSource.nodeToken, Call.anyCursor]
    | object members =>
      obtain rfl := Token.eq_of_erase_eq ht (by simp [Value.kind])
      simp [Call.run, h, TreeSource.nodeToken, Call.anyCursor]
    | _ =>
      cases t <;> simp [Token.erase, TreeSource.nodeToken] at ht
      simp [Call.run, h, Call.anyCursor]
  exact stepEnds_of_ok hrun hs (by simp [Answer.erase, ht]) (by simp [view])

include hR in
/-- Skipping at a value consumes it. -/
theorem answersAs_skip {v : Value} (hr : R c.reader.source w) (hc : w.current = some v) :
    c.AnswersAs R w .skip := by
  simp only [AnswersAs, Call.onWalk, onValue, hc]
  obtain ⟨s', h, hs⟩ := skipValue_run hR hr hc
  have hrun : (Call.skip.run c.cursors).run c.reader = .ok (.skipped, c.cursors) ⟨s', false⟩ := by
    simp [Call.run, h]
  exact stepEnds_of_ok hrun hs rfl rfl

include hR in
/-- Reading a value whole gives it as a reader builds it, and consumes it. -/
theorem answersAs_value {v : Value} (hr : R c.reader.source w) (hc : w.current = some v) :
    c.AnswersAs R w .value := by
  simp only [AnswersAs, Call.onWalk, onValue, hc]
  obtain ⟨s', h, hs⟩ := value_run hR hr hc
  have hrun : (Call.value.run c.cursors).run c.reader = .ok (.value v.canon, c.cursors) ⟨s', false⟩ := by
    simp [Call.run, h]
  exact stepEnds_of_ok hrun hs rfl rfl

include hR in
/-- Looking at a value's kind leaves it unread. -/
theorem answersAs_peek {v : Value} (hr : R c.reader.source w) (hc : w.current = some v) :
    c.AnswersAs R w .peek := by
  simp only [AnswersAs, Call.onWalk, onValue, hc]
  obtain ⟨s', h, hs⟩ := peekKind_run hR hr hc
  have hrun : (Call.peek.run c.cursors).run c.reader =
      .ok (.kind v.kind, c.cursors) ⟨s', c.reader.awaiting⟩ := by
    simp [Call.run, h]
  exact stepEnds_of_ok hrun hs rfl rfl

include hR hM in
/-- A typed read at a value: its decoding, the value consumed, or the first place it does not
have the schema's shape. -/
theorem answersAs_typed (T : Schema) {v : Value} (hr : R c.reader.source w)
    (hc : w.current = some v) : c.AnswersAs R w (.typed T) := by
  simp only [AnswersAs, Call.onWalk, onValue, hc]
  rcases Schema.read_readsAs hR hM.refusesMismatch T c.reader w v hr hc with
    ⟨x, s', h, hs, hd⟩ | ⟨hd, -⟩
  · -- the tree decodes: the read returns its decoding and consumes the value
    rw [hd]
    have hrun : ((Call.typed T).run c.cursors).run c.reader = .ok (.typed ⟨T, x⟩, c.cursors) ⟨s', false⟩ := by
      simp [Call.run, h]
    exact stepEnds_of_ok hrun hs rfl rfl
  · -- it does not: the read fails at the first place the shape refuses
    rw [hd]
    have hconf : T.conforms v = false := by
      rw [← Schema.decode_isSome, hd]
      rfl
    obtain ⟨e, r', h, he⟩ := Schema.read_refused hR hM T c.reader w v hr hc hconf
    have hrun : ((Call.typed T).run c.cursors).run c.reader = .error e r' := by
      simp [Call.run, h]
    exact stepEnds_of_error hrun (by simp [he]) _

include hR in
/-- Asking for the end of the document answers whether the walk is at its end. -/
theorem answersAs_isEof (hr : R c.reader.source w) : c.AnswersAs R w .isEof := by
  obtain ⟨s', h, hs⟩ := isEof_run hR hr
  have hrun : (Call.isEof.run c.cursors).run c.reader =
      .ok (.eof w.atEnd, c.cursors) ⟨s', c.reader.awaiting⟩ := by
    simp [Call.run, h]
  exact stepEnds_of_ok hrun hs rfl rfl

/-- Asking for the offset answers it and changes nothing. -/
theorem answersAs_offset (hr : R c.reader.source w) : c.AnswersAs R w .offset := by
  have hrun : (Call.offset.run c.cursors).run c.reader =
      .ok (.offset c.reader.offset, c.cursors) ⟨c.reader.source, c.reader.awaiting⟩ := by
    simp [Call.run]
  exact stepEnds_of_ok hrun hr rfl rfl

include hR in
/-- The check for the end of the document passes at its end and reports the value the walk stands
on as trailing data. -/
theorem answersAs_finish (hr : R c.reader.source w) (hv : (∃ v, w.current = some v) ∨ w.atEnd = true) :
    c.AnswersAs R w .finish := by
  simp only [AnswersAs, Call.onWalk]
  rcases hv with ⟨v, hc⟩ | hend
  · have hend : w.atEnd = false := by simp [Walk.atEnd, hc]
    obtain ⟨o, r', h⟩ := finish_trailing hR hr hc
    have hrun : (Call.finish.run c.cursors).run c.reader = .error (.fault .trailingData o) r' := by
      simp [Call.run, h]
    rw [hend, if_neg Bool.false_ne_true]
    exact stepEnds_of_error hrun rfl w
  · obtain ⟨s', h, hs⟩ := finish_run hR hr hend
    have hrun : (Call.finish.run c.cursors).run c.reader =
        .ok (.finished, c.cursors) ⟨s', c.reader.awaiting⟩ := by
      simp [Call.run, h]
    rw [hend, if_pos rfl]
    exact stepEnds_of_ok hrun hs rfl rfl

omit [Source σ] in
/-- The innermost open cursor of a client that fits the walk steps from where `StepsFrom` says. -/
theorem stepsFrom_of_fits (h : Fits c.view.2 c.view.1 w) {i : Nat} {cur : Cursor}
    (hi : c.view.2[i]? = some cur) (hn : InnerDone c.view.2 i) (hd : cur.done = false) :
    ∃ f fs, w.frames = f :: fs ∧ f.isArray = cur.isArray ∧ StepsFrom c.reader w f fs !cur.started := by
  obtain ⟨f, fs, hf, hk, hpos⟩ := h.innermost hi hn hd
  refine ⟨f, fs, hf, hk, ?_⟩
  rcases hpos with ⟨ha, hw⟩ | ⟨ha, hs, v, hw⟩
  · exact .inl ⟨ha, hw⟩
  · exact .inr ⟨ha, by simp [hs], v, hw⟩

include hR in
/-- A step of the innermost open cursor over an array: to the array's next element, or past its
end. -/
theorem answersAs_next_array (hr : R c.reader.source w) (hfit : Fits c.view.2 c.view.1 w) {i : Nat}
    (hn : InnerDone c.view.2 i) {a : ArrayCursor} (hi : c.cursors[i]? = some (.array a))
    (hd : a.done = false) : c.AnswersAs R w (.next i) := by
  have hi' : c.view.2[i]? = some (.array a) := by simp [hi, Cursor.erase]
  -- the walk is in the cursor's container, an array, where the step starts
  obtain ⟨f, fs, hf, hk, hpos⟩ := stepsFrom_of_fits hfit hi' hn hd
  obtain ⟨items, rfl⟩ := TreeFrame.exists_array hk
  obtain ⟨s', h, hs⟩ := arrayCursor_next_run hR hd hr hpos
  have hrun : ((Call.next i).run c.cursors).run c.reader =
      .ok (.stepped (!items.isEmpty) none, c.cursors.set i
        (.array { a with started := true, done := items.isEmpty })) ⟨s', !items.isEmpty⟩ := by
    simp [Call.run, hi, h]
  simp only [AnswersAs, Call.onWalk, hi', hd, Walk.step_of_frames hf (!a.started)]
  cases items <;> exact stepEnds_of_ok hrun hs rfl (by simp [view, List.map_set, Cursor.erase, Walk.step])

include hR in
/-- A step of the innermost open cursor over an object: to its next member, whose name it takes
and marks as seen, or past its end, where the first required name not seen is reported. -/
theorem answersAs_next_object (hr : R c.reader.source w) (hfit : Fits c.view.2 c.view.1 w) {i : Nat}
    (hn : InnerDone c.view.2 i) {o : ObjectCursor} (hi : c.cursors[i]? = some (.object o))
    (hd : o.done = false) : c.AnswersAs R w (.next i) := by
  have hi' : c.view.2[i]? = some (Cursor.object o).erase := by simp [hi]
  obtain ⟨f, fs, hf, hk, hpos⟩ := stepsFrom_of_fits hfit hi' hn hd
  obtain ⟨members, rfl⟩ := TreeFrame.exists_object hk
  simp only [AnswersAs, Call.onWalk, hi', Cursor.erase, hd, hf, Walk.step_of_frames hf (!o.started)]
  rcases members with _ | ⟨⟨k, v⟩, rest⟩
  · obtain ⟨s', hs, h⟩ := objectCursor_next_end hR hd hr hpos
    cases hq : o.required.find? fun e => !e.2 with
    | some e =>
      have hrun : ((Call.next i).run c.cursors).run c.reader =
          .error (.missingProperty e.1 (Source.offset s')) ⟨s', false⟩ := by
        simp [Call.run, hi, h, hq]
      exact stepEnds_of_error hrun rfl _
    | none =>
      have hrun : ((Call.next i).run c.cursors).run c.reader =
          .ok (.stepped false (some ⟨"", true⟩), c.cursors.set i (.object
            { o with started := true, done := true, name := ⟨"", true⟩ })) ⟨s', false⟩ := by
        simp [Call.run, hi, h, hq]
      exact stepEnds_of_ok hrun hs rfl (by simp [view, List.map_set, Cursor.erase])
  · obtain ⟨name, s', hk, h, hs⟩ := objectCursor_next_member hR hd hr hpos
    have hrun : ((Call.next i).run c.cursors).run c.reader =
        .ok (.stepped true (some name), c.cursors.set i (.object
          { o with started := true, name, required := markSeen k o.required })) ⟨s', true⟩ := by
      simp [Call.run, hi, h]
    -- the view holds the name as text, whatever its provenance
    exact stepEnds_of_ok hrun hs (by simp [Answer.erase, hk])
      (by simp [view, List.map_set, Cursor.erase, hk, hd])

/-- A done cursor stays done and answers that nothing follows, without reading. -/
theorem answersAs_next_done (hr : R c.reader.source w) {i : Nat} {cur : Cursor}
    (hi : c.cursors[i]? = some cur) (hd : cur.done = true) : c.AnswersAs R w (.next i) := by
  have hset : c.cursors.set i cur = c.cursors := by
    obtain ⟨hlt, rfl⟩ := List.getElem?_eq_some_iff.1 hi
    exact List.set_getElem_self hlt
  -- a done cursor reads nothing and is set back as it was
  cases cur with
  | array a =>
    have h : ((Call.next i).run c.cursors).run c.reader =
        .ok (.stepped false none, c.cursors) c.reader := by
      simp_all [Call.run, ArrayCursor.next, Cursor.done]
    simp_all only [AnswersAs, Call.onWalk, getElem?_view, Option.map_some, Cursor.erase, Cursor.done,
      if_true]
    exact stepEnds_of_ok h hr rfl rfl
  | object o =>
    have h : ((Call.next i).run c.cursors).run c.reader =
        .ok (.stepped false (some o.name), c.cursors) c.reader := by
      simp_all [Call.run, ObjectCursor.next, Cursor.done]
    simp_all only [AnswersAs, Call.onWalk, getElem?_view, Option.map_some, Cursor.erase, Cursor.done,
      if_true]
    exact stepEnds_of_ok h hr rfl rfl

include hR in
/-- A cursor step made once every cursor made after it is done: over an array, to its next element
or past its end; over an object, to its next member or past its end, where a required name not
seen is reported. A done cursor stays done, and a number that names no cursor does nothing. -/
theorem answersAs_next (hr : R c.reader.source w) (hfit : Fits c.view.2 c.view.1 w) {i : Nat}
    (hn : InnerDone c.view.2 i) : c.AnswersAs R w (.next i) := by
  cases hi : c.cursors[i]? with
  | none =>
    have h : ((Call.next i).run c.cursors).run c.reader = .ok (.noCursor, c.cursors) c.reader := by
      simp [Call.run, hi]
    simp only [AnswersAs, Call.onWalk, getElem?_view, hi, Option.map_none]
    exact stepEnds_of_ok h hr rfl rfl
  | some cur =>
    -- a cursor still open steps its container; a done one answers without reading
    cases hd : cur.done
    · cases cur with
      | array a => exact answersAs_next_array hR hr hfit hn hi hd
      | object o => exact answersAs_next_object hR hr hfit hn hi hd
    · exact answersAs_next_done hr hi hd

/-- An object cursor's name, as the view holds it; any other cursor has none. -/
theorem answersAs_name (hr : R c.reader.source w) (i : Nat) : c.AnswersAs R w (.name i) := by
  -- nothing is read: the answer comes from the cursor alone, and the reader stays
  cases hi : c.cursors[i]? with
  | some cur =>
    cases cur with
    | object o =>
      have h : ((Call.name i).run c.cursors).run c.reader = .ok (.name o.name, c.cursors) c.reader := by
        simp [Call.run, hi]
      simp only [AnswersAs, Call.onWalk, getElem?_view, hi, Option.map_some, Cursor.erase]
      exact stepEnds_of_ok h hr rfl rfl
    | array a =>
      have h : ((Call.name i).run c.cursors).run c.reader = .ok (.noCursor, c.cursors) c.reader := by
        simp [Call.run, hi]
      simp only [AnswersAs, Call.onWalk, getElem?_view, hi, Option.map_some, Cursor.erase]
      exact stepEnds_of_ok h hr rfl rfl
  | none =>
    have h : ((Call.name i).run c.cursors).run c.reader = .ok (.noCursor, c.cursors) c.reader := by
      simp [Call.run, hi]
    simp only [AnswersAs, Call.onWalk, getElem?_view, hi, Option.map_none]
    exact stepEnds_of_ok h hr rfl rfl

/-- Asking whether a cursor's container was present answers as its cursor says, or that there is no
such cursor. -/
theorem answersAs_defined (hr : R c.reader.source w) (i : Nat) :
    c.AnswersAs R w (.defined i) := by
  cases hi : c.cursors[i]? with
  | some cur =>
    have h : ((Call.defined i).run c.cursors).run c.reader = .ok (.defined cur.defined, c.cursors) c.reader := by
      simp [Call.run, hi]
    simp only [AnswersAs, Call.onWalk, getElem?_view, hi, Option.map_some]
    exact stepEnds_of_ok h hr (by cases cur <;> rfl) rfl
  | none =>
    have h : ((Call.defined i).run c.cursors).run c.reader = .ok (.noCursor, c.cursors) c.reader := by
      simp [Call.run, hi]
    simp only [AnswersAs, Call.onWalk, getElem?_view, hi, Option.map_none]
    exact stepEnds_of_ok h hr rfl rfl

/-- Requiring names of an object cursor replaces its required names; any other cursor is left. -/
theorem answersAs_require (hr : R c.reader.source w) (i : Nat) (names : List String) :
    c.AnswersAs R w (.require i names) := by
  -- nothing is read: only an object cursor's required names change
  cases hi : c.cursors[i]? with
  | some cur =>
    cases cur with
    | object o =>
      have h : ((Call.require i names).run c.cursors).run c.reader =
          .ok (.required, c.cursors.set i (.object (o.requireAll names))) c.reader := by
        simp [Call.run, hi]
      simp only [AnswersAs, Call.onWalk, getElem?_view, hi, Option.map_some, Cursor.erase]
      exact stepEnds_of_ok h hr rfl (by simp [view, List.map_set, Cursor.erase, ObjectCursor.requireAll])
    | array a =>
      have h : ((Call.require i names).run c.cursors).run c.reader = .ok (.noCursor, c.cursors) c.reader := by
        simp [Call.run, hi]
      simp only [AnswersAs, Call.onWalk, getElem?_view, hi, Option.map_some, Cursor.erase]
      exact stepEnds_of_ok h hr rfl rfl
  | none =>
    have h : ((Call.require i names).run c.cursors).run c.reader = .ok (.noCursor, c.cursors) c.reader := by
      simp [Call.run, hi]
    simp only [AnswersAs, Call.onWalk, getElem?_view, hi, Option.map_none]
    exact stepEnds_of_ok h hr rfl rfl

include hR hM in
/-- A client in step with the walk answers every call it is permitted to make as the walk says,
on every source that follows walks and refuses as they say. -/
theorem answersAs_of_fits (hr : R c.reader.source w) (hfit : Fits c.view.2 c.view.1 w) {call : Call}
    (hp : call.Permitted c.view.1 c.view.2) : c.AnswersAs R w call := by
  -- a read on a value or at the top stands on a value or at the end of the document
  have reads : ∀ {call : Call}, call.readsValue = true → OnValue c.view.1 c.view.2 →
      (∀ v, w.current = some v → c.AnswersAs R w call) → c.AnswersAs R w call := by
    intro call hcall hv hat
    rcases hfit.current_or_end hv with ⟨v, hc⟩ | hend
    · exact hat v hc
    · exact answersAs_end hM hr hend hcall
  cases call with
  | scalar sr => exact reads rfl hp fun _ hc => answersAs_scalar hR hM sr hr hc
  | array orNull => exact reads rfl hp fun _ hc => answersAs_array hR hM orNull hr hc
  | object orNull names => exact reads rfl hp fun _ hc => answersAs_object hR hM orNull names hr hc
  | any names => exact reads rfl hp fun _ hc => answersAs_any hR names hr hc
  | skip => exact reads rfl hp fun _ hc => answersAs_skip hR hr hc
  | value => exact reads rfl hp fun _ hc => answersAs_value hR hr hc
  | typed T => exact reads rfl hp fun _ hc => answersAs_typed hR hM T hr hc
  | peek => exact reads rfl hp fun _ hc => answersAs_peek hR hr hc
  | isEof => exact answersAs_isEof hR hr
  | finish => exact answersAs_finish hR hr (hfit.current_or_end hp)
  | offset => exact answersAs_offset hr
  | next i => exact answersAs_next hR hr hfit hp
  | name i => exact answersAs_name hr i
  | defined i => exact answersAs_defined hr i
  | require i names => exact answersAs_require hr i names

end Ends

/-! ### Runs -/

section Alike

variable {σ₁ σ₂ : Type} [Source σ₁] [Source σ₂] {R₁ : σ₁ → Walk → Prop} {R₂ : σ₂ → Walk → Prop}
  (hR₁ : FollowsWalk R₁) (hM₁ : RefusesWalk R₁) (hR₂ : FollowsWalk R₂) (hM₂ : RefusesWalk R₂)
include hR₁ hM₁ hR₂ hM₂

/-- Two clients in step with one walk and holding the same view read the same over any run within
the protocol, up to what only their sources decide. -/
theorem run_alike : ∀ (calls : List Call) (c₁ : Client σ₁) (c₂ : Client σ₂) (w : Walk),
    R₁ c₁.reader.source w → R₂ c₂.reader.source w → c₁.view = c₂.view →
    Fits c₁.view.2 c₁.view.1 w → c₁.KeepsProtocol calls →
    (c₁.run calls).map Answer.erase = (c₂.run calls).map Answer.erase
  | [], _, _, _, _, _, _, _, _ => rfl
  | call :: calls, c₁, c₂, w, hr₁, hr₂, hV, hfit, ⟨hp, hk⟩ => by
    have h₁ := answersAs_of_fits hR₁ hM₁ hr₁ hfit hp
    have h₂ := answersAs_of_fits hR₂ hM₂ hr₂ (hV ▸ hfit) (hV ▸ hp)
    unfold AnswersAs at h₁ h₂
    rw [← hV] at h₂
    -- both clients end the call as the walk says
    generalize ho : call.onWalk c₁.view w = o at h₁ h₂
    obtain ⟨out, w'⟩ := o
    cases out with
    | error e =>
      obtain ⟨e₁, hs₁, he₁⟩ := h₁
      obtain ⟨e₂, hs₂, he₂⟩ := h₂
      rw [run_cons_of_step_none calls hs₁, run_cons_of_step_none calls hs₂]
      simp [Answer.erase, he₁, he₂]
    | ok p =>
      obtain ⟨A, V'⟩ := p
      obtain ⟨a₁, c₁', hs₁, ha₁, hv₁, hr₁'⟩ := h₁
      obtain ⟨a₂, c₂', hs₂, ha₂, hv₂, hr₂'⟩ := h₂
      have hfit' : Fits c₁'.view.2 c₁'.view.1 w' := by
        have h := Fits.onWalk hfit hp (show (call.onWalk c₁.view w).1 = .ok (A, V') by rw [ho])
        rw [ho] at h
        rwa [hv₁]
      rw [run_cons_of_step calls hs₁, run_cons_of_step calls hs₂, List.map_cons, List.map_cons, ha₁,
        ha₂, run_alike calls c₁' c₂' w' hr₁' hr₂' (hv₁.trans hv₂.symm) hfit' (hk a₁ c₁' hs₁)]

end Alike

end Client

end Reader

/-! ### A tree and its text -/

/-- A zero is one of the two zeros. -/
theorem Double.eq_zero_of_isZero {x : Double} (h : x.isZero = true) :
    x = .zero false ∨ x = .zero true := by
  obtain ⟨bits⟩ := x
  simp only [Double.isZero, Double.biasedExponent, Double.fraction, Bool.and_eq_true, beq_iff_eq] at h
  have hb := bits.toNat_lt_size
  -- no exponent and no fraction: at most the sign bit is set
  have hz : bits.toNat = 0 ∨ bits.toNat = 9223372036854775808 := by
    simp only [Nat.pow_eq] at h
    norm_num at h hb
    omega
  rcases hz with hz | hz
  · left
    simp only [Double.zero, Double.ofFields, Double.mk.injEq]
    apply UInt64.toNat_inj.1
    simp [hz]
  · right
    simp only [Double.zero, Double.ofFields, Double.mk.injEq]
    apply UInt64.toNat_inj.1
    simp [hz, Nat.pow_eq]

namespace Value

/-- The numbers of a value are finite and none is the negative zero: its text reads back as it. -/
def PlainNumbers (xs : List Double) : Prop := ∀ x ∈ xs, x.isFinite = true ∧ x ≠ .zero true

mutual
/-- A value with plain numbers is its own text read back. -/
theorem norm_eq_self : ∀ v : Value, PlainNumbers v.numbers → v.norm = v
  | .null, _ | .bool _, _ | .string _, _ => rfl
  | .number x, h => by
    obtain ⟨hf, hz⟩ := h x (by simp [numbers])
    simp only [norm, normNumber, hf, if_true]
    split
    · next hzero =>
      rcases Double.eq_zero_of_isZero hzero with h0 | h0
      · rw [h0]
      · exact absurd h0 hz
    · rfl
  | .array items, h => by rw [norm, normItems_eq_self items h]
  | .object members, h => by rw [norm, normMembers_eq_self members h]

/-- Elements with plain numbers are their own text read back. -/
theorem normItems_eq_self : ∀ items : List Value, PlainNumbers (numbersItems items) →
    normItems items = items
  | [], _ => rfl
  | v :: rest, h => by
    obtain ⟨hv, hrest⟩ := List.forall_mem_append.1 h
    rw [normItems, norm_eq_self v hv, normItems_eq_self rest hrest]

/-- Members with plain numbers are their own text read back. -/
theorem normMembers_eq_self : ∀ members : List (String × Value), PlainNumbers (numbersMembers members) →
    normMembers members = members
  | [], _ => rfl
  | (k, v) :: rest, h => by
    obtain ⟨hv, hrest⟩ := List.forall_mem_append.1 h
    rw [normMembers, norm_eq_self v hv, normMembers_eq_self rest hrest]
end

end Value

/-- The text of a value as a document is the value's canonical text. -/
theorem Schema.render_value (v : Value) (e : Bool) : Schema.render .value v e = v.render e := by
  simp [Schema.render, Schema.write, Writer.writeValue_eq_value, Writer.value_out,
    Writer.separator_of_scopes_eq_nil, Writer.new]

/-- A client reads a tree, without coercion, and the text written for it alike: at every step the
same answers, up to offsets and the provenance of strings, provided it keeps to the protocol of
the reader and the tree's numbers are finite, none the negative zero, and written as digits that
read back. -/
theorem tree_and_text_read_alike (v : Value) (e u : Bool)
    (hv : ∀ x ∈ v.numbers, x.isFinite = true ∧ x ≠ .zero true ∧ x.ShortestReadsBack)
    (calls : List Reader.Call)
    (hk : (Reader.Client.ofSource (TreeSource.ofValue v false)).KeepsProtocol calls) :
    ((Reader.Client.ofSource (TreeSource.ofValue v false)).run calls).map Reader.Answer.erase =
      ((Reader.Client.ofSource (Scanner.ofString (Schema.render .value v e) u)).run calls).map
        Reader.Answer.erase := by
  have hnorm : v.norm = v := Value.norm_eq_self v fun x hx => ⟨(hv x hx).1, (hv x hx).2.1⟩
  -- the text is a document of the tree itself
  have hdoc : Grammar.Doc u (Schema.render .value v e).toList v := by
    have h := Value.doc_render e u v fun x hx => (hv x hx).2.2
    rwa [hnorm, ← Schema.render_value] at h
  exact Reader.Client.run_alike TreeSource.strict_follows TreeSource.strict_refusesWalk
    (Scanner.follows_walk u) (Scanner.follows_refusesWalk u) calls _ _ (.start v)
    (TreeSource.strict_ofValue v) (Scanner.follows_ofString hdoc) rfl (Reader.Fits.start v) hk

/-- The array `[2.5, true]`, read from the tree and from its text with cursor steps: opened,
stepped to the number, read as a double, stepped to the boolean, read, and stepped past the end. -/
theorem tree_and_text_read_alike_nested :
    (∀ x ∈ (Value.array [.number ⟨0x4004000000000000⟩, .bool true]).numbers,
      x.isFinite = true ∧ x ≠ .zero true ∧ x.ShortestReadsBack) ∧
    (Reader.Client.ofSource (TreeSource.ofValue
        (.array [.number ⟨0x4004000000000000⟩, .bool true]) false)).KeepsProtocol
        [.array false, .next 0, .scalar .double, .next 0, .scalar .bool, .next 0] ∧
    ((Reader.Client.ofSource (TreeSource.ofValue
        (.array [.number ⟨0x4004000000000000⟩, .bool true]) false)).run
        [.array false, .next 0, .scalar .double, .next 0, .scalar .bool, .next 0]).map
        Reader.Answer.erase =
      ((Reader.Client.ofSource (Scanner.ofString (Schema.render .value
        (.array [.number ⟨0x4004000000000000⟩, .bool true]) true) false)).run
        [.array false, .next 0, .scalar .double, .next 0, .scalar .bool, .next 0]).map
        Reader.Answer.erase := by
  -- the one number, 2.5, is finite, not the negative zero, and its shortest digits read back
  have hv : ∀ x ∈ (Value.array [.number ⟨0x4004000000000000⟩, .bool true]).numbers,
      x.isFinite = true ∧ x ≠ .zero true ∧ x.ShortestReadsBack := by
    intro x hx
    simp only [Value.numbers, Value.numbersItems, List.append_nil, List.mem_singleton] at hx
    subst hx
    refine ⟨by decide, by decide, ?_⟩
    unfold Double.ShortestReadsBack
    decide +kernel
  -- each call of the run computes; the array's cursor is the only one, so every step keeps nesting
  have hk : (Reader.Client.ofSource (TreeSource.ofValue
      (.array [.number ⟨0x4004000000000000⟩, .bool true]) false)).KeepsProtocol
      [.array false, .next 0, .scalar .double, .next 0, .scalar .bool, .next 0] := by
    refine ⟨.inr (by simp [Reader.Client.view, Reader.Client.ofSource]), fun a c h => ?_⟩
    cases h
    refine ⟨Reader.innerDone_of_length_le (by simp [Reader.Client.view, Reader.Client.ofSource]),
      fun a c h => ?_⟩
    cases h
    refine ⟨.inl rfl, fun a c h => ?_⟩
    cases h
    refine ⟨Reader.innerDone_of_length_le (by simp [Reader.Client.view, Reader.Client.ofSource]),
      fun a c h => ?_⟩
    cases h
    refine ⟨.inl rfl, fun a c h => ?_⟩
    cases h
    exact ⟨Reader.innerDone_of_length_le (by simp [Reader.Client.view, Reader.Client.ofSource]),
      fun _ _ _ => trivial⟩
  exact ⟨hv, hk, tree_and_text_read_alike _ true false hv _ hk⟩

end JsonCodec
