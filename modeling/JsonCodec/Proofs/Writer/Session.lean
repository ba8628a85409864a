import JsonCodec.Proofs.Writer.Script

/-! # The writer's scopes under any sequence of calls

A client holds a writer and the handles it opened on it. It writes scalars and values, writes
names, opens arrays and objects (through a live handle or a discarding one), and closes handles,
by `end()` or by dropping them, in any order, also in orders the borrow rules of handles forbid;
a handle it forgets is simply never closed. A `Session` is the writer with every handle opened so
far, in opening order, and for each whether its scope is still open: a live handle's scope is
open from its start until a close of it succeeds.

`Session.Inv` is the invariant: the open handles, in opening order, stand for the writer's scopes
from the outermost, each with its kind and at the depth of its place, and a handle never closed
has a scope exactly when it is live. `Session.inv_run` carries it through every run from a new
writer, call by call (`Session.inv_step`).

From it, `Session.close_iff` says when closing succeeds: a live handle closed for the first time
closes its scope, with one bracket, exactly when every handle opened after it has its scope closed;
otherwise the answer is a scope mismatch naming the handle's depth and the writer's, and the writer
is left as it was. A second close of a handle does nothing, and neither do discarding handles.
-/

namespace JsonCodec

/-- Counting a value in a scope keeps its kind. -/
@[simp] theorem Scope.afterValue_inArray (s : Scope) : s.afterValue.inArray = s.inArray := by
  unfold Scope.afterValue; split <;> rfl

namespace Writer

variable (w : Writer)

/-- Changing the innermost scope in a way that keeps kinds keeps the kinds of all scopes. -/
theorem map_inArray_modifyHead {f : Scope → Scope} (hf : ∀ s, (f s).inArray = s.inArray)
    (l : List Scope) : (l.modifyHead f).map Scope.inArray = l.map Scope.inArray := by
  cases l <;> simp [hf]

/-- Writing a name marks the innermost object as holding a member, and changes no other scope. -/
theorem writeName_scopes (k : String) :
    (w.writeName k).scopes =
      w.scopes.modifyHead fun s => if s.inArray then s else { s with hasItems := true } := by
  obtain ⟨out, scopes, depth, esc, h⟩ := w
  cases scopes with
  | nil => simp [writeName, emit]
  | cons s rest =>
    obtain ⟨inArray, hasItems⟩ := s
    cases inArray <;> cases hasItems <;> simp [writeName, emit, modifyTop]

/-- The kinds of the open scopes, innermost first. -/
def kinds : List Bool := w.scopes.map Scope.inArray

/-- Writing the separator keeps the kinds of the scopes. -/
@[simp] theorem kinds_beforeValue : w.beforeValue.kinds = w.kinds := by
  simp [kinds, beforeValue_eq, map_inArray_modifyHead]

/-- Emitting text keeps the kinds of the scopes. -/
@[simp] theorem kinds_emit (t : String) : (w.emit t).kinds = w.kinds := rfl

/-- Writing a whole value keeps the kinds of the scopes: every container it opens it closes. -/
@[simp] theorem kinds_value (v : Value) : (w.value v).kinds = w.kinds := by
  simp [kinds, value_scopes, map_inArray_modifyHead]

/-- Writing a name keeps the kinds of the scopes. -/
@[simp] theorem kinds_writeName (k : String) : (w.writeName k).kinds = w.kinds := by
  rw [kinds, writeName_scopes, map_inArray_modifyHead (fun s => by split <;> rfl)]; rfl

/-- Opening a scope puts its kind innermost. -/
@[simp] theorem kinds_pushScope (s : Scope) : (w.pushScope s).kinds = s.inArray :: w.kinds := rfl

/-- Writing a whole value keeps the depth. -/
@[simp] theorem depth_value (v : Value) : (w.value v).depth = w.depth := by
  rw [value_eq]; simp

/-- Writing a name keeps the depth. -/
@[simp] theorem depth_writeName (k : String) : (w.writeName k).depth = w.depth := by
  rw [w.depth_eq, (w.writeName k).depth_eq, writeName_scopes, List.length_modifyHead]

/-- Closing checks the depth and the kind of the innermost scope, and pops it with its bracket. -/
theorem closeScope_eq (d : Nat) (inArray : Bool) :
    w.closeScope d inArray =
      if w.depth = d ∧ w.kinds.head? = some inArray then .ok (w.endScope inArray)
      else .error (.scopeMismatch d w.depth) := by
  unfold closeScope kinds
  cases w.scopes <;> simp

/-- Closing the innermost scope writes its bracket. -/
@[simp] theorem endScope_out (inArray : Bool) :
    (w.endScope inArray).out = w.out ++ if inArray then "]" else "\x7d" := by
  simp [endScope]

/-- Closing the innermost scope drops it. -/
@[simp] theorem endScope_scopes (inArray : Bool) : (w.endScope inArray).scopes = w.scopes.tail := by
  simp [endScope]

/-- Closing the innermost scope drops its kind. -/
theorem kinds_endScope (inArray : Bool) : (w.endScope inArray).kinds = w.kinds.tail := by
  simp [kinds, List.map_tail]

/-- Closing the innermost scope takes one from the depth. -/
theorem depth_endScope (inArray : Bool) : (w.endScope inArray).depth = w.depth - 1 := by
  simp [endScope, popScope]

end Writer

namespace Scalar

/-- Writing a scalar keeps the kinds of the scopes. -/
@[simp] theorem kinds_write (s : Scalar) (w : Writer) : (s.write w).kinds = w.kinds := by
  rw [write_eq]; simp

/-- Writing a scalar keeps the depth. -/
@[simp] theorem depth_write (s : Scalar) (w : Writer) : (s.write w).depth = w.depth := by
  rw [write_eq]; simp

end Scalar

namespace Handle

/-- A live handle closed for the first time closes the innermost scope when it is its own, and
otherwise answers with a mismatch and leaves the writer alone; either way it is closed after. -/
theorem close_live {h : Handle} (hlive : h.live = true) (hc : h.closed = false) (w : Writer) :
    h.close w =
      if w.depth = h.depth ∧ w.kinds.head? = some h.inArray then
        (.ok (), { h with closed := true }, w.endScope h.inArray)
      else (.error (.scopeMismatch h.depth w.depth), { h with closed := true }, w) := by
  simp only [close, hc, hlive, Bool.false_eq_true, if_false, if_true, Writer.closeScope_eq]
  by_cases hm : w.depth = h.depth ∧ w.kinds.head? = some h.inArray
  · rw [if_pos hm, if_pos hm]
  · rw [if_neg hm, if_neg hm]

/-- After a close, whatever its answer, the handle is closed. -/
theorem closed_close (h : Handle) (w : Writer) : (h.close w).2.1.closed = true := by
  unfold close
  by_cases hc : h.closed = true
  · simp [hc]
  · by_cases hl : h.live = true
    · simp only [hc, hl, if_true]
      cases w.closeScope h.depth h.inArray <;> rfl
    · simp [hc, hl]

/-- A discarding handle, or one already closed, closes nothing. -/
theorem close_of_not_live {h : Handle} (hlive : h.live = false) (w : Writer) :
    (h.close w).2.2 = w ∧ (h.close w).1 = .ok () := by
  unfold close
  split <;> simp [hlive]

end Handle

/-- A call a client makes on the writer or on a handle it holds. A call made through a discarding
handle does nothing to the writer; `live` says which kind of handle it goes through. -/
inductive Call where
  /-- A scalar written through the writer or a handle. -/
  | scalar (live : Bool) (s : Scalar)
  /-- A whole value written with `write`. -/
  | value (live : Bool) (v : Value)
  /-- A member's name written through an object handle. -/
  | name (live : Bool) (k : String)
  /-- An array (`inArray`) or an object opened through the writer or a handle. -/
  | start (live inArray : Bool)
  /-- The handle opened by the `i`-th `start` is ended or dropped. -/
  | close (i : Nat)

/-- A handle a client opened, with whether its scope is open in the writer. -/
structure Opened where
  handle : Handle
  scopeOpen : Bool

/-- The kind and depth of a handle's scope, while it is open. -/
def Opened.openScope (o : Opened) : Option (Bool × Nat) :=
  if o.scopeOpen then some (o.handle.inArray, o.handle.depth) else none

/-- A writer and every handle opened on it so far, in opening order. -/
structure Session where
  writer : Writer
  opened : List Opened

section Lists

variable {α β : Type} (f : α → Option β)

/-- The open handles before, at and after a place in the list of handles. -/
theorem filterMap_split {l : List α} {i : Nat} {a : α} (h : l[i]? = some a) :
    l.filterMap f = (l.take i).filterMap f ++ (f a).toList ++ (l.drop (i + 1)).filterMap f := by
  obtain ⟨hi, rfl⟩ := List.getElem?_eq_some_iff.1 h
  have hl : l = l.take i ++ l[i] :: l.drop (i + 1) := by
    rw [← List.drop_eq_getElem_cons hi, List.take_append_drop]
  rw [show l.filterMap f = (l.take i ++ l[i] :: l.drop (i + 1)).filterMap f from congrArg _ hl,
    List.filterMap_append, List.filterMap_cons]
  cases f l[i] <;> simp

/-- The open handles after one is replaced: those before it, the new one if open, and those after
it. -/
theorem filterMap_set {l : List α} {i : Nat} {a : α} (h : l[i]? = some a) (a' : α) :
    (l.set i a').filterMap f =
      (l.take i).filterMap f ++ (f a').toList ++ (l.drop (i + 1)).filterMap f := by
  obtain ⟨hi, -⟩ := List.getElem?_eq_some_iff.1 h
  rw [List.set_eq_take_append_cons_drop, if_pos hi]
  cases hf : f a' <;> simp [hf]

/-- Depths one, two, and so on: the one at a place is one more than the number before it. -/
theorem eq_of_append_cons_eq_range' {A B : List Nat} {d n : Nat}
    (h : A ++ d :: B = List.range' 1 n) : d = A.length + 1 ∧ n = A.length + 1 + B.length := by
  have hn : n = A.length + 1 + B.length := by
    have := congrArg List.length h
    simp only [List.length_append, List.length_cons, List.length_range'] at this
    omega
  refine ⟨?_, hn⟩
  have hA : A.length < n := by omega
  have := congrArg (·[A.length]?) h
  simp only [List.getElem?_append_right (Nat.le_refl _), Nat.sub_self, List.getElem?_cons_zero,
    List.getElem?_range' hA] at this
  simp at this
  omega

end Lists

namespace Session

/-- A new writer, with no handle yet. -/
def new (e : Bool) : Session := ⟨Writer.new e, []⟩

/-- Performs a call, with the answer a close gives. A close whose answer is `ok` from a live
handle that was not closed yet has closed its scope. -/
def step (s : Session) : Call → Session × Except WriteError Unit
  | .scalar live x => (⟨if live then x.write s.writer else s.writer, s.opened⟩, .ok ())
  | .value live v => (⟨if live then s.writer.value v else s.writer, s.opened⟩, .ok ())
  | .name live k => (⟨if live then s.writer.writeName k else s.writer, s.opened⟩, .ok ())
  | .start live inArray =>
    let (w, h) := Handle.start s.writer live inArray
    (⟨w, s.opened ++ [⟨h, h.live⟩]⟩, .ok ())
  | .close i =>
    match s.opened[i]? with
    | none => (s, .ok ())
    | some o =>
      let (r, h, w) := o.handle.close s.writer
      let shut := match r with
        | .ok () => o.handle.live && !o.handle.closed
        | .error _ => false
      (⟨w, s.opened.set i ⟨h, o.scopeOpen && !shut⟩⟩, r)

/-- Performs calls one after another. -/
def run (s : Session) : List Call → Session
  | [] => s
  | c :: cs => (s.step c).1.run cs

/-- The kinds and depths of the open scopes of handles, in opening order. -/
def openScopes (s : Session) : List (Bool × Nat) := s.opened.filterMap Opened.openScope

/-- The open handles stand for the writer's scopes, from the outermost: the same kinds, at depths
one, two, and so on; a handle never closed has a scope exactly when it is live, and only live
handles have scopes. -/
structure Inv (s : Session) : Prop where
  kinds : s.openScopes.map Prod.fst = s.writer.kinds.reverse
  depths : s.openScopes.map Prod.snd = List.range' 1 s.writer.depth
  fresh : ∀ o ∈ s.opened, o.handle.closed = false → o.scopeOpen = o.handle.live
  live : ∀ o ∈ s.opened, o.scopeOpen = true → o.handle.live = true

/-- A handle stands for no scope exactly when its scope is not open. -/
@[simp] theorem openScope_eq_none {o : Opened} : o.openScope = none ↔ o.scopeOpen = false := by
  unfold Opened.openScope; split <;> simp_all

/-- A new writer with no handles keeps the invariant. -/
theorem inv_new (e : Bool) : (new e).Inv := ⟨rfl, rfl, by simp [new], by simp [new]⟩

/-- A call that writes changes neither the kinds nor the depth of the scopes. -/
theorem Inv.of_writer {s : Session} (hs : s.Inv) {w : Writer} (hk : w.kinds = s.writer.kinds)
    (hd : w.depth = s.writer.depth) : (⟨w, s.opened⟩ : Session).Inv :=
  ⟨by rw [hk]; exact hs.kinds, by rw [hd]; exact hs.depths, hs.fresh, hs.live⟩

/-- The writer's depth is the number of open handles. -/
theorem Inv.depth_eq {s : Session} (hs : s.Inv) : s.writer.depth = s.openScopes.length := by
  simpa using (congrArg List.length hs.depths).symm

section Close

variable {s : Session} (hs : s.Inv) {i : Nat} {o : Opened} (ho : s.opened[i]? = some o)
include hs ho

/-- A handle with an open scope is the innermost exactly when every handle opened after it has its
scope closed: its depth is then the writer's, and its kind the innermost scope's. -/
theorem Inv.innermost_iff (hopen : o.scopeOpen = true) :
    (s.writer.depth = o.handle.depth ∧ s.writer.kinds.head? = some o.handle.inArray) ↔
      ∀ o' ∈ s.opened.drop (i + 1), o'.scopeOpen = false := by
  -- split the open scopes at the handle: those opened before it, its own, and those after
  have hsplit := filterMap_split Opened.openScope ho
  have hdepths := hs.depths
  have hkinds := hs.kinds
  simp only [openScopes, hsplit, Opened.openScope, hopen, if_true, Option.toList_some,
    List.map_append, List.map_cons, List.append_assoc, List.singleton_append]
    at hdepths hkinds
  -- depths run 1, 2, …: the handle's depth counts the scopes up to it, the writer's all of them
  obtain ⟨hd, hn⟩ := eq_of_append_cons_eq_range' hdepths
  simp only [List.length_map] at hd hn
  have hB : (s.opened.drop (i + 1)).filterMap Opened.openScope = [] ↔
      ∀ o' ∈ s.opened.drop (i + 1), o'.scopeOpen = false := by
    simp [List.filterMap_eq_nil_iff]
  rw [← hB]
  constructor
  · -- equal depths leave no open scope after the handle
    rintro ⟨hdepth, -⟩
    rw [← List.length_eq_zero_iff]
    omega
  · -- with none after it, the handle's scope is the last, so the writer's innermost
    intro hB
    rw [hB] at hkinds
    refine ⟨by rw [hn, hd, hB]; rfl, ?_⟩
    rw [← List.reverse_reverse s.writer.kinds, ← hkinds]
    simp

/-- A first close of a live handle that is innermost closes its scope with one bracket. -/
theorem step_close_innermost (hlive : o.handle.live = true) (hc : o.handle.closed = false)
    (hlater : ∀ o' ∈ s.opened.drop (i + 1), o'.scopeOpen = false) :
    (s.step (.close i)).2 = .ok () ∧
      (s.step (.close i)).1 =
        ⟨s.writer.endScope o.handle.inArray,
          s.opened.set i ⟨{ o.handle with closed := true }, false⟩⟩ := by
  have hopen : o.scopeOpen = true := (hs.fresh o (List.mem_of_getElem? ho) hc).trans hlive
  have hin := (hs.innermost_iff ho hopen).2 hlater
  simp [step, ho, Handle.close_live hlive hc, hin, hopen, hlive, hc]

/-- A first close of a live handle while a handle opened after it has its scope open answers with
a mismatch and leaves the writer as it was. -/
theorem step_close_mismatch (hlive : o.handle.live = true) (hc : o.handle.closed = false)
    (hlater : ∃ o' ∈ s.opened.drop (i + 1), o'.scopeOpen = true) :
    (s.step (.close i)).2 = .error (.scopeMismatch o.handle.depth s.writer.depth) ∧
      (s.step (.close i)).1 =
        ⟨s.writer, s.opened.set i ⟨{ o.handle with closed := true }, true⟩⟩ := by
  have hopen : o.scopeOpen = true := (hs.fresh o (List.mem_of_getElem? ho) hc).trans hlive
  have hin : ¬(s.writer.depth = o.handle.depth ∧ s.writer.kinds.head? = some o.handle.inArray) := by
    rw [hs.innermost_iff ho hopen]
    obtain ⟨o', hmem, h'⟩ := hlater
    intro hall
    simp [hall o' hmem] at h'
  simp [step, ho, Handle.close_live hlive hc, hin, hopen]

/-- Replacing a handle by one with the same open scope, if any, keeps the invariant. -/
theorem Inv.set_same (o' : Opened) (hsame : o'.openScope = o.openScope)
    (hfresh : o'.handle.closed = false → o'.scopeOpen = o'.handle.live)
    (hlive : o'.scopeOpen = true → o'.handle.live = true) :
    (⟨s.writer, s.opened.set i o'⟩ : Session).Inv := by
  have hscopes : (s.opened.set i o').filterMap Opened.openScope = s.openScopes := by
    rw [filterMap_set _ ho, openScopes, filterMap_split _ ho, hsame]
  refine ⟨?_, ?_, ?_, ?_⟩
  · rw [openScopes, hscopes]; exact hs.kinds
  · rw [openScopes, hscopes]; exact hs.depths
  · intro x hx hc
    rcases List.mem_or_eq_of_mem_set hx with hx | rfl
    · exact hs.fresh x hx hc
    · exact hfresh hc
  · intro x hx hopen
    rcases List.mem_or_eq_of_mem_set hx with hx | rfl
    · exact hs.live x hx hopen
    · exact hlive hopen

/-- Closing the innermost open scope takes it off the end of the open handles. -/
theorem Inv.set_shut (hopen : o.scopeOpen = true)
    (hlater : ∀ o' ∈ s.opened.drop (i + 1), o'.scopeOpen = false) {h' : Handle}
    (hclosed : h'.closed = true) :
    (⟨s.writer.endScope o.handle.inArray, s.opened.set i ⟨h', false⟩⟩ : Session).Inv := by
  have hB : (s.opened.drop (i + 1)).filterMap Opened.openScope = [] := by
    simpa [List.filterMap_eq_nil_iff] using hlater
  have hscopes : (s.opened.set i ⟨h', false⟩).filterMap Opened.openScope =
      (s.opened.take i).filterMap Opened.openScope := by
    simp [filterMap_set _ ho, hB, Opened.openScope]
  have hdepths := hs.depths
  have hkinds := hs.kinds
  simp only [openScopes, filterMap_split _ ho, hB, Opened.openScope, hopen, if_true,
    Option.toList_some, List.append_nil, List.map_append, List.map_cons, List.map_nil]
    at hdepths hkinds
  -- the handle's scope is the last open one: its depth is the writer's
  obtain ⟨-, hn⟩ := eq_of_append_cons_eq_range' hdepths
  simp only [List.length_map, List.length_nil, Nat.add_zero] at hn
  refine ⟨?_, ?_, ?_, ?_⟩
  · -- the writer drops its innermost kind as the open scopes drop their last
    rw [openScopes, hscopes, Writer.kinds_endScope, ← List.dropLast_reverse, ← hkinds]
    simp
  · -- and one depth
    rw [openScopes, hscopes, Writer.depth_endScope, hn, Nat.add_sub_cancel]
    rw [hn, List.range'_concat] at hdepths
    exact (List.append_inj hdepths (by simp)).1
  · intro x hx hc
    rcases List.mem_or_eq_of_mem_set hx with hx | rfl
    · exact hs.fresh x hx hc
    · simp [hclosed] at hc
  · intro x hx hopen
    rcases List.mem_or_eq_of_mem_set hx with hx | rfl
    · exact hs.live x hx hopen
    · simp at hopen

end Close

/-- A close of a handle that was closed before does nothing. -/
theorem step_close_closed {s : Session} {i : Nat} {o : Opened} (ho : s.opened[i]? = some o)
    (hc : o.handle.closed = true) : s.step (.close i) = (s, .ok ()) := by
  have hset : s.opened.set i o = s.opened := by
    obtain ⟨hi, rfl⟩ := List.getElem?_eq_some_iff.1 ho
    exact List.set_getElem_self hi
  simp [step, ho, Handle.close_of_closed hc, hc, hset]

/-- A first close of a discarding handle marks it closed and does nothing else. -/
theorem step_close_discarding {s : Session} {i : Nat} {o : Opened} (ho : s.opened[i]? = some o)
    (hlive : o.handle.live = false) (hc : o.handle.closed = false) :
    s.step (.close i) =
      (⟨s.writer, s.opened.set i ⟨{ o.handle with closed := true }, o.scopeOpen⟩⟩, .ok ()) := by
  simp [step, ho, Handle.close, hc, hlive]

/-- Closing a handle keeps the invariant, whether the close succeeds, mismatches, or does
nothing. -/
theorem inv_close {s : Session} (hs : s.Inv) (i : Nat) : (s.step (.close i)).1.Inv := by
  cases ho : s.opened[i]? with
  -- a close of no handle, of one closed before, or of a discarding one changes no scope
  | none => simpa [step, ho] using hs
  | some o =>
    cases hc : o.handle.closed with
    | true => rw [step_close_closed ho hc]; exact hs
    | false =>
      have hfresh := hs.fresh o (List.mem_of_getElem? ho) hc
      cases hlive : o.handle.live with
      | false =>
        rw [step_close_discarding ho hlive hc]
        exact hs.set_same ho _ rfl (by simp) (by simp [hfresh, hlive])
      | true =>
        rw [hlive] at hfresh
        -- a live handle's close shuts its scope when it is innermost, and otherwise only marks it
        -- closed
        by_cases hlater : ∀ o' ∈ s.opened.drop (i + 1), o'.scopeOpen = false
        · rw [(step_close_innermost hs ho hlive hc hlater).2]
          exact hs.set_shut ho hfresh hlater rfl
        · push Not at hlater
          obtain ⟨o', hmem, hopen'⟩ := hlater
          rw [(step_close_mismatch hs ho hlive hc ⟨o', hmem, by simpa using hopen'⟩).2]
          exact hs.set_same ho _ (by simp [Opened.openScope, hfresh]) (by simp) (by simp [hlive])

/-- Opening a handle keeps the invariant: a live one opens a scope at the next depth, a discarding
one none. -/
theorem inv_start {s : Session} (hs : s.Inv) (live inArray : Bool) :
    (s.step (.start live inArray)).1.Inv := by
  cases live with
  -- a discarding handle opens no scope: the writer stays, and the new handle holds none open
  | false =>
    refine ⟨?_, ?_, ?_, ?_⟩
    · simpa [step, Handle.start, openScopes, Opened.openScope, Handle.discarding] using hs.kinds
    · simpa [step, Handle.start, openScopes, Opened.openScope, Handle.discarding] using hs.depths
    · intro o ho hc
      simp only [step, Handle.start, Bool.false_eq_true, if_false, List.mem_append,
        List.mem_singleton] at ho
      rcases ho with ho | rfl
      · exact hs.fresh o ho hc
      · simp [Handle.discarding] at hc
    · intro o ho hopen
      simp only [step, Handle.start, Bool.false_eq_true, if_false, List.mem_append,
        List.mem_singleton] at ho
      rcases ho with ho | rfl
      · exact hs.live o ho hopen
      · simp [Handle.discarding] at hopen
  -- a live handle opens one scope, at the next depth, and is the newest handle holding one
  | true =>
    have hw : (s.step (.start true inArray)).1.writer = (s.writer.openScope inArray).1 := rfl
    have hopened : (s.step (.start true inArray)).1.openScopes =
        s.openScopes ++ [(inArray, s.writer.depth + 1)] := by
      simp [step, Handle.start, openScopes, Opened.openScope, Writer.openScope_snd]
    have hk : (s.writer.openScope inArray).1.kinds = inArray :: s.writer.kinds := by
      simp [Writer.openScope_fst]
    have hd : (s.writer.openScope inArray).1.depth = s.writer.depth + 1 := by
      simp [Writer.openScope_fst]
    refine ⟨?_, ?_, ?_, ?_⟩
    · rw [hopened, hw, hk, List.map_append, hs.kinds]
      simp
    · rw [hopened, hw, hd, List.map_append, hs.depths, List.range'_concat]
      simp [Nat.add_comm]
    · intro o ho hc
      simp only [step, Handle.start, if_true, List.mem_append, List.mem_singleton] at ho
      rcases ho with ho | rfl
      · exact hs.fresh o ho hc
      · rfl
    · intro o ho hopen
      simp only [step, Handle.start, if_true, List.mem_append, List.mem_singleton] at ho
      rcases ho with ho | rfl
      · exact hs.live o ho hopen
      · rfl

/-- Every call keeps the invariant. -/
theorem inv_step {s : Session} (hs : s.Inv) : (c : Call) → (s.step c).1.Inv
  | .scalar live x => by
    cases live
    · exact hs.of_writer rfl rfl
    · exact hs.of_writer (Scalar.kinds_write x _) (Scalar.depth_write x _)
  | .value live v => by
    cases live
    · exact hs.of_writer rfl rfl
    · exact hs.of_writer (Writer.kinds_value _ v) (Writer.depth_value _ v)
  | .name live k => by
    cases live
    · exact hs.of_writer rfl rfl
    · exact hs.of_writer (Writer.kinds_writeName _ k) (Writer.depth_writeName _ k)
  | .start live inArray => inv_start hs live inArray
  | .close i => inv_close hs i

/-- Every run keeps the invariant. -/
theorem inv_run {s : Session} (hs : s.Inv) (calls : List Call) : (s.run calls).Inv := by
  induction calls generalizing s with
  | nil => exact hs
  | cons c cs ih => exact ih (inv_step hs c)

/-- The text can be taken exactly when no handle has its scope open; otherwise the answer counts
the open scopes. -/
theorem Inv.finish_eq {s : Session} (hs : s.Inv) :
    s.writer.finish =
      if s.openScopes = [] then .ok s.writer.out
      else .error (.unclosedScopes s.openScopes.length) := by
  simp only [Writer.finish, hs.depth_eq, List.length_eq_zero_iff]

/-- No call but a handle's own close changes it. -/
theorem opened_step_of_ne {s : Session} (c : Call) {i : Nat} {o : Opened}
    (hc : ∀ j, c = .close j → j ≠ i) (ho : s.opened[i]? = some o) :
    (s.step c).1.opened[i]? = some o := by
  have hi : i < s.opened.length := (List.getElem?_eq_some_iff.1 ho).1
  cases c with
  | scalar | value | name => exact ho
  | start live inArray =>
    simp [step, Handle.start, List.getElem?_append_left hi, ho]
  | close j =>
    have hj := hc j rfl
    cases hoj : s.opened[j]? with
    | none => simpa [step, hoj] using ho
    | some oj => simpa [step, hoj, List.getElem?_set_ne hj] using ho

/-- Closing a handle twice closes it once: the second close does nothing. -/
theorem step_close_twice (s : Session) (i : Nat) :
    (s.step (.close i)).1.step (.close i) = ((s.step (.close i)).1, .ok ()) := by
  cases ho : s.opened[i]? with
  | none => simp [step, ho]
  | some o =>
    obtain ⟨hi, rfl⟩ := List.getElem?_eq_some_iff.1 ho
    -- whatever the first close did, it left the handle marked closed
    have hclosed := Handle.closed_close s.opened[i].handle s.writer
    rcases hclose : s.opened[i].handle.close s.writer with ⟨r, h', w'⟩
    rw [hclose] at hclosed
    obtain ⟨b, hb⟩ : ∃ b, (s.step (.close i)).1.opened[i]? = some ⟨h', b⟩ := by
      simp [step, hclose, hi]
    exact step_close_closed hb hclosed

end Session

open Session in
/-- The writer's scope discipline. After any calls, in any order, from a new writer, the open
handles stand for the writer's scopes, from the outermost: the same kinds, at depths one, two, and
so on, so the writer's depth is their number; only live handles have scopes. A live handle closed
for the first time closes its scope with exactly one bracket when every handle opened after it has
its scope closed, and otherwise answers with a mismatch between its depth and the writer's and
leaves the writer as it was. A second close of a handle does nothing, and no call but a handle's
own close changes it, so a forgotten handle, or one whose close failed, keeps its scope open for
good. Discarding handles never change the writer. The text can be taken exactly when no scope is
open, and otherwise the answer counts the open scopes. -/
theorem writer_scope_discipline (e : Bool) (calls : List Call) :
    let s := (Session.new e).run calls
    (s.openScopes.map Prod.fst = s.writer.kinds.reverse ∧
      s.openScopes.map Prod.snd = List.range' 1 s.writer.depth ∧
      s.writer.depth = s.openScopes.length ∧
      ∀ o ∈ s.opened, o.scopeOpen = true → o.handle.live = true) ∧
    (∀ i o, s.opened[i]? = some o → o.handle.live = true → o.handle.closed = false →
      ((∀ o' ∈ s.opened.drop (i + 1), o'.scopeOpen = false) →
        (s.step (.close i)).2 = .ok () ∧
          (s.step (.close i)).1.writer.out =
            s.writer.out ++ (if o.handle.inArray then "]" else "\x7d") ∧
          (s.step (.close i)).1.writer.scopes = s.writer.scopes.tail) ∧
      ((∃ o' ∈ s.opened.drop (i + 1), o'.scopeOpen = true) →
        (s.step (.close i)).2 = .error (.scopeMismatch o.handle.depth s.writer.depth) ∧
          (s.step (.close i)).1.writer = s.writer)) ∧
    (∀ i, (s.step (.close i)).1.step (.close i) = ((s.step (.close i)).1, .ok ())) ∧
    (∀ c i o, (∀ j, c = .close j → j ≠ i) → s.opened[i]? = some o →
      (s.step c).1.opened[i]? = some o) ∧
    (∀ inArray, (s.step (.start false inArray)).1.writer = s.writer) ∧
    (∀ i o, s.opened[i]? = some o → o.handle.live = false →
      (s.step (.close i)).2 = .ok () ∧ (s.step (.close i)).1.writer = s.writer) ∧
    s.writer.finish =
      (if s.openScopes = [] then .ok s.writer.out
        else .error (.unclosedScopes s.openScopes.length)) := by
  intro s
  -- every session a run reaches keeps the invariant, and each part is read off it
  have hs : s.Inv := inv_run (inv_new e) calls
  refine ⟨⟨hs.kinds, hs.depths, hs.depth_eq, hs.live⟩, ?_, step_close_twice s,
    fun c i o hc ho => opened_step_of_ne c hc ho, fun _ => rfl, ?_, hs.finish_eq⟩
  · -- a live handle not yet closed closes its scope when it is the innermost, and is refused
    -- otherwise
    intro i o ho hlive hc
    refine ⟨fun hlater => ?_, fun hlater => ?_⟩
    · obtain ⟨hok, hstep⟩ := step_close_innermost hs ho hlive hc hlater
      rw [hstep]
      exact ⟨hok, by simp, by simp⟩
    · obtain ⟨herr, hstep⟩ := step_close_mismatch hs ho hlive hc hlater
      rw [hstep]
      exact ⟨herr, rfl⟩
  · -- a discarding handle, closed before or not, leaves the writer alone
    intro i o ho hlive
    cases hc : o.handle.closed with
    | true => simp [step_close_closed ho hc]
    | false => simp [step_close_discarding ho hlive hc]

/-- An array with an object forgotten inside it: closing the array answers with a mismatch
between its depth, one, and the writer's, two, and the writer stays as it was. -/
theorem writer_scope_discipline_forgotten_inner :
    let s := (Session.new false).run [.start true true, .start true false]
    s.opened[0]? = some ⟨⟨true, true, 1, false⟩, true⟩ ∧
      (∃ o' ∈ s.opened.drop 1, o'.scopeOpen = true) ∧
      (s.step (.close 0)).2 = .error (.scopeMismatch 1 2) ∧
      (s.step (.close 0)).1.writer = s.writer := by
  intro s
  have ho : s.opened[0]? = some ⟨⟨true, true, 1, false⟩, true⟩ := rfl
  have hlater : ∃ o' ∈ s.opened.drop 1, o'.scopeOpen = true :=
    ⟨⟨⟨true, false, 2, false⟩, true⟩, List.mem_singleton_self _, rfl⟩
  exact ⟨ho, hlater, ((writer_scope_discipline false _).2.1 0 _ ho rfl rfl).2 hlater⟩

end JsonCodec
