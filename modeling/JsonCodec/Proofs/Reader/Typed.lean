import JsonCodec.Proofs.Parse
import JsonCodec.Proofs.Reader.Sources

/-! # Typed reads decode the syntax tree

A shape (`Schema`) says what a typed read expects. `Schema.conforms` says which syntax trees have
the shape, and `Schema.decode` what typed value such a tree stands for; a tree decodes exactly when
it conforms (`Schema.decode_isSome`).

Over any source that follows the walk of a tree and refuses a value of a kind it is not asked for,
a typed read standing on a value either succeeds with the value's decoding, consuming the value
whole, or fails where the value does not decode (`Schema.read_readsAs`). An optional looks ahead
before it delegates; lists and maps drive a cursor one element at a time
(`Reader.listLoop_readsAs`, `Reader.mapLoop_readsAs`), a map inserting its members in document
order, so that a later member replaces an earlier one of the same name.

The scanner is such a source (`Scanner.follows_refuses`), so reading a JSON text with a shape
decodes the text's tree (`Schema.parseBytes_decodes_tree`). A typed read that succeeds consumes
what reading the value whole consumes, so it succeeds only on a text that is read as a value.
-/

namespace JsonCodec

namespace Value

/-- The boolean a value is, if it is one. -/
def asBool : Value → Option Bool
  | .bool b => some b
  | _ => none

/-- The number a value is, if it is one. -/
def asNumber : Value → Option Double
  | .number x => some x
  | _ => none

/-- The string a value is, if it is one. -/
def asString : Value → Option String
  | .string s => some s
  | _ => none

/-- The elements of a value, if it is an array. -/
def asArray : Value → Option (List Value)
  | .array items => some items
  | _ => none

/-- The members of a value, in document order, if it is an object. -/
def asObject : Value → Option (List (String × Value))
  | .object members => some members
  | _ => none


/-- A list has no more elements than nodes. -/
theorem length_le_itemsSize (items : List Value) : items.length ≤ itemsSize items := by
  induction items with
  | nil => exact Nat.le_refl 0
  | cons v rest ih =>
    have := size_pos v
    simp only [List.length_cons, itemsSize]
    omega

/-- An object has no more members than nodes. -/
theorem length_le_membersSize (members : List (String × Value)) :
    members.length ≤ membersSize members := by
  induction members with
  | nil => exact Nat.le_refl 0
  | cons m rest ih =>
    have := size_pos m.2
    simp only [List.length_cons, membersSize]
    omega

end Value

namespace Schema

/-- A typed value with the provenance of every text forgotten: whether a string is the input's
own bytes depends on how the document spells it, not on its tree. -/
def plain : (T : Schema) → T.Carrier → T.Carrier
  | .bool, b => b
  | .int32, n => n
  | .int64, n => n
  | .uint32, n => n
  | .float, x => x
  | .string, s => s
  | .text, t => ⟨t.str, true⟩
  | .value, v => v
  | .option T, x => x.map T.plain
  | .list T, xs => xs.map T.plain
  | .map T, ms => ms.map fun m => (m.1, T.plain m.2)

/-- Whether a syntax tree has a shape: an optional takes a null or what its item takes, a list an
array of elements of the item's shape, a map an object whose members all have it; the numeric
shapes take any number, the two string shapes any string, and `value` anything. -/
def conforms : Schema → Value → Bool
  | .bool, v => v.kind == .bool
  | .int32, v | .int64, v | .uint32, v | .float, v => v.kind == .number
  | .string, v | .text, v => v.kind == .string
  | .value, _ => true
  | .option T, v => v.kind == .null || T.conforms v
  | .list T, v => (v.asArray.map fun items => items.all T.conforms).getD false
  | .map T, v => (v.asObject.map fun members => members.all fun m => T.conforms m.2).getD false

/-- One member of an object inserted into the map decoded so far, if its value decodes. -/
def decodeMember {α : Type} (d : Value → Option α) (acc : List (String × α)) (m : String × Value) :
    Option (List (String × α)) :=
  (d m.2).map fun x => insertEntry m.1 x acc

/-- An optional: no value for a null, else the item's decoding. -/
def decodeOption {α : Type} (d : Value → Option α) (v : Value) : Option (Option α) :=
  if v.kind = .null then some none else (d v).map some

/-- A list: the elements of an array, each decoded, in order. -/
def decodeList {α : Type} (d : Value → Option α) (v : Value) : Option (List α) :=
  v.asArray.bind fun items => items.mapM d

/-- A map: the members of an object inserted in document order into an empty map. -/
def decodeMap {α : Type} (d : Value → Option α) (v : Value) : Option (List (String × α)) :=
  v.asObject.bind fun members => members.foldlM (decodeMember d) []

/-- The typed value a syntax tree stands for, if it has the shape: a number converted as the
integer shapes convert it, a null under an optional as no value, the elements of a list in order,
and a map built by inserting the members in document order, a later one replacing an earlier one
of the same name. `value` takes the tree as a reader builds it, its objects made maps alike. -/
def decode : (T : Schema) → Value → Option T.Carrier
  | .bool, v => v.asBool
  | .int32, v => v.asNumber.map Double.toInt32
  | .int64, v => v.asNumber.map Double.toInt64
  | .uint32, v => v.asNumber.map Double.toUInt32
  | .float, v => v.asNumber
  | .string, v => v.asString
  | .text, v => v.asString.map fun s => ⟨s, true⟩
  | .value, v => some v.canon
  | .option T, v => decodeOption T.decode v
  | .list T, v => decodeList T.decode v
  | .map T, v => decodeMap T.decode v

/-- A list decodes exactly when each of its elements does. -/
theorem mapM_isSome {α : Type} (d : Value → Option α) (items : List Value) :
    (items.mapM d).isSome = items.all fun v => (d v).isSome := by
  induction items with
  | nil => rfl
  | cons v rest ih =>
    rw [List.mapM_cons, List.all_cons, ← ih]
    cases d v <;> cases rest.mapM d <;> rfl

/-- An object's members insert into a map exactly when each of their values decodes. -/
theorem foldlM_decodeMember_isSome {α : Type} (d : Value → Option α) :
    ∀ (members : List (String × Value)) (acc : List (String × α)),
      (members.foldlM (decodeMember d) acc).isSome = members.all fun m => (d m.2).isSome
  | [] , _ => rfl
  | m :: rest, acc => by
    cases hm : d m.2 <;> simp [decodeMember, hm, foldlM_decodeMember_isSome d rest]

/-- A tree decodes exactly when it has the shape. -/
theorem decode_isSome (T : Schema) (v : Value) : (T.decode v).isSome = T.conforms v := by
  -- by induction on the shape; a container decodes exactly when every element or member does
  induction T generalizing v with
  | option T ih =>
    show (decodeOption T.decode v).isSome = (v.kind == .null || T.conforms v)
    by_cases hv : v.kind = .null <;> simp [decodeOption, hv, ih]
  | list T ih =>
    show (decodeList T.decode v).isSome = _
    cases v <;> simp [decodeList, conforms, Value.asArray, mapM_isSome, ih]
  | map T ih =>
    show (decodeMap T.decode v).isSome = _
    cases v <;> simp [decodeMap, conforms, Value.asObject, foldlM_decodeMember_isSome, ih]
  | value => rfl
  | _ => cases v <;> rfl

/-- Members are inserted in document order: of two of the same name, the later one stays. -/
example : (Schema.map .bool).decode (.object [("a", .bool true), ("b", .null), ("a", .bool false)]) =
    none ∧
    (Schema.map .bool).decode (.object [("b", .bool true), ("a", .bool true), ("b", .bool false)]) =
      some [("a", true), ("b", false)] := ⟨rfl, rfl⟩

section Unfold

variable {σ : Type} [Source σ] (T : Schema)

/-! The reads of containers, at the plain types of their results, so that `simp` can run them. -/

/-- An optional looks at the next value: a null is read as none, anything else by the shape it
holds. -/
theorem read_option : @Schema.read σ _ (.option T) = ((do
    if (← Reader.peekKind) = .null then
      Reader.null
      return none
    else return some (← T.read)) : ReadM σ (Option T.Carrier)) := rfl

/-- A list opens an array and reads its elements in a loop, its fuel the source's budget. -/
theorem read_list : @Schema.read σ _ (.list T) = ((do
    let c ← Reader.array
    Reader.listLoop T.read (Source.budget (← get).source + 1) c #[]) : ReadM σ (List T.Carrier)) := rfl

/-- A map opens an object and reads its members in a loop, its fuel the source's budget. -/
theorem read_map : @Schema.read σ _ (.map T) = ((do
    let c ← Reader.object
    Reader.mapLoop T.read (Source.budget (← get).source + 1) c []) :
      ReadM σ (List (String × T.Carrier))) := rfl

end Unfold

end Schema

/-! ### Reads over a source that follows a walk -/

/-- A source refuses a value of a kind it is not asked for: where the walk stands on such a
value, pulling it fails. -/
def RefusesMismatch {σ : Type} [Source σ] (R : σ → Walk → Prop) : Prop :=
  ∀ {s : σ} {w : Walk} {v : Value} {k : Kind} {allowNull : Bool}, R s w → w.current = some v →
    v.kind.admits (some k) allowNull = false →
      ∃ e s', (Source.nextValue (some k) allowNull).run s = .error e s'

/-- How a read standing on a value ends, where `d` is what the value decodes to: it succeeds,
its result seen through `f` being the decoding, and leaves the source related to the walk `w'`
with nothing awaiting; or the value does not decode and the read fails. -/
def ReadsAs {σ : Type} [Source σ] (R : σ → Walk → Prop) {α β : Type} (m : ReadM σ α)
    (r : Reader σ) (w' : Walk) (f : α → β) (d : Option β) : Prop :=
  (∃ x s', m.run r = .ok x ⟨s', false⟩ ∧ R s' w' ∧ d = some (f x)) ∨
    (d = none ∧ ∃ e r', m.run r = .error e r')

namespace ReadsAs

variable {σ : Type} [Source σ] {R : σ → Walk → Prop} {α β γ : Type} {m : ReadM σ α}
  {r : Reader σ} {w' : Walk} {f : α → β} {d : Option β}

/-- A read followed by a pure function of its result. -/
theorem bind_pure (h : ReadsAs R m r w' f d) {g : α → γ} {f' : γ → β} (hg : ∀ x, f' (g x) = f x) :
    ReadsAs R (m >>= fun x => pure (g x)) r w' f' d := by
  rcases h with ⟨x, s', hrun, hs, hd⟩ | ⟨hd, e, r', hrun⟩
  · exact .inl ⟨g x, s', by simp [hrun], hs, by rw [hd, hg]⟩
  · exact .inr ⟨hd, e, r', by simp [hrun]⟩

/-- The same read seen through a function of what it is seen as. -/
theorem map (h : ReadsAs R m r w' f d) {δ : Type} (g : β → δ) : ReadsAs R m r w' (g ∘ f) (d.map g) := by
  rcases h with ⟨x, s', hrun, hs, hd⟩ | ⟨hd, e, r', hrun⟩
  · exact .inl ⟨x, s', hrun, hs, by simp [hd]⟩
  · exact .inr ⟨by simp [hd], e, r', hrun⟩

/-- Reads that run alike end alike. -/
theorem of_run_eq {m' : ReadM σ α} {r' : Reader σ} (heq : m.run r = m'.run r')
    (h : ReadsAs R m' r' w' f d) : ReadsAs R m r w' f d := by
  unfold ReadsAs
  rwa [heq]

end ReadsAs

/-- Inserting into a map commutes with changing its values. -/
theorem insertEntry_map {α β : Type} (g : α → β) (k : String) (x : α) :
    ∀ acc : List (String × α), (insertEntry k x acc).map (fun m => (m.1, g m.2)) =
      insertEntry k (g x) (acc.map fun m => (m.1, g m.2))
  | [] => rfl
  | (k', y) :: rest => by
    simp only [insertEntry, List.map_cons]
    split_ifs <;> simp [insertEntry_map g k x rest]

namespace Reader

section Follows

variable {σ : Type} [Source σ] {R : σ → Walk → Prop} (hR : FollowsWalk R) (hM : RefusesMismatch R)
include hR hM

/-- Taking a value of a kind: its token when the value is of that kind, a failure otherwise. -/
theorem take_cases {r : Reader σ} {w : Walk} {v : Value} (hr : R r.source w)
    (hc : w.current = some v) (k : Kind) :
    (v.kind = k ∧ ∃ t s', (take k false).run r = .ok t ⟨s', false⟩ ∧
      t.erase = TreeSource.nodeToken v ∧ R s' w.take) ∨
    (v.kind ≠ k ∧ ∃ e r', (take k false).run r = .error e r') := by
  by_cases hk : v.kind = k
  · exact .inl ⟨hk, take_run hR hr hc (by simp [Kind.admits, hk])⟩
  · obtain ⟨e, s', hrun⟩ := hM hr hc
      (show v.kind.admits (some k) false = false by simp [Kind.admits, hk])
    exact .inr ⟨hk, e, ⟨s', false⟩, by simp [take, hrun]⟩

/-- A boolean read on a walk returns the boolean it stands on, or fails on any other value. -/
theorem bool_readsAs {r : Reader σ} {w : Walk} {v : Value} (hr : R r.source w)
    (hc : w.current = some v) : ReadsAs R bool r w.skip id v.asBool := by
  rcases take_cases hR hM hr hc .bool with ⟨hk, t, s', hrun, ht, hs⟩ | ⟨hk, e, r', hrun⟩
  · obtain ⟨b, rfl⟩ : ∃ b, v = .bool b := by cases v <;> simp_all [Value.kind]
    rw [Token.eq_of_erase_eq ht (by simp [Value.kind])] at hrun
    refine .inl ⟨b, s', by simp [bool, hrun, TreeSource.nodeToken], ?_, rfl⟩
    rwa [← Walk.take_eq_skip hc rfl]
  · refine .inr ⟨by cases v <;> simp_all [Value.kind, Value.asBool], e, r', ?_⟩
    simp [bool, hrun]

/-- A number read on a walk returns the number it stands on, or fails on any other value. -/
theorem double_readsAs {r : Reader σ} {w : Walk} {v : Value} (hr : R r.source w)
    (hc : w.current = some v) : ReadsAs R double r w.skip id v.asNumber := by
  rcases take_cases hR hM hr hc .number with ⟨hk, t, s', hrun, ht, hs⟩ | ⟨hk, e, r', hrun⟩
  · obtain ⟨x, rfl⟩ : ∃ x, v = .number x := by cases v <;> simp_all [Value.kind]
    rw [Token.eq_of_erase_eq ht (by simp [Value.kind])] at hrun
    refine .inl ⟨x, s', by simp [double, hrun, TreeSource.nodeToken], ?_, rfl⟩
    rwa [← Walk.take_eq_skip hc rfl]
  · refine .inr ⟨by cases v <;> simp_all [Value.kind, Value.asNumber], e, r', ?_⟩
    simp [double, hrun]

/-- A string read on a walk returns the text it stands on, or fails on any other value. -/
theorem string_readsAs {r : Reader σ} {w : Walk} {v : Value} (hr : R r.source w)
    (hc : w.current = some v) : ReadsAs R string r w.skip Text.str v.asString := by
  rcases take_cases hR hM hr hc .string with ⟨hk, t, s', hrun, ht, hs⟩ | ⟨hk, e, r', hrun⟩
  · obtain ⟨str, rfl⟩ : ∃ str, v = .string str := by cases v <;> simp_all [Value.kind]
    -- a string token differs from the tree's only in its provenance
    obtain ⟨text, rfl, htext⟩ : ∃ text, t = .string text ∧ text.str = str := by
      cases t <;> simp_all [Token.erase, TreeSource.nodeToken]
    refine .inl ⟨text, s', by simp [string, hrun], ?_, by simp [Value.asString, htext]⟩
    rwa [← Walk.take_eq_skip hc rfl]
  · refine .inr ⟨by cases v <;> simp_all [Value.kind, Value.asString], e, r', ?_⟩
    simp [string, hrun]

omit hM in
/-- Reading the start of the array the walk stands on enters it, with fuel for every element. -/
theorem array_enters {r : Reader σ} {w : Walk} {items : List Value} (hr : R r.source w)
    (hc : w.current = some (.array items)) :
    ∃ s₁, (array : ReadM σ ArrayCursor).run r = .ok (.ofDefined true) ⟨s₁, false⟩ ∧
      R s₁ ⟨none, .array items :: w.frames, true⟩ ∧ items.length < Source.budget s₁ + 1 := by
  obtain ⟨t, s₁, hrun, ht, hs₁⟩ :=
    take_run hR hr hc (show Kind.array.admits (some .array) false from rfl)
  rw [Token.eq_of_erase_eq ht (by simp [Value.kind])] at hrun
  rw [Walk.take_array hc] at hs₁
  refine ⟨s₁, by simp [array, hrun, TreeSource.nodeToken], hs₁, ?_⟩
  -- the budget counts every element still to come
  have hsize := hR.budget hs₁
  have hlen := Value.length_le_itemsSize items
  simp only [Walk.size, Option.map_none, Option.getD_none, Walk.framesSize_cons,
    TreeFrame.size] at hsize
  omega

omit hM in
/-- Reading the start of the object the walk stands on enters it, with fuel for every member. -/
theorem object_enters {r : Reader σ} {w : Walk} {members : List (String × Value)}
    (hr : R r.source w) (hc : w.current = some (.object members)) :
    ∃ s₁, (object : ReadM σ ObjectCursor).run r = .ok (.ofDefined true) ⟨s₁, false⟩ ∧
      R s₁ ⟨none, .object members :: w.frames, true⟩ ∧ members.length < Source.budget s₁ + 1 := by
  obtain ⟨t, s₁, hrun, ht, hs₁⟩ :=
    take_run hR hr hc (show Kind.object.admits (some .object) false from rfl)
  rw [Token.eq_of_erase_eq ht (by simp [Value.kind])] at hrun
  rw [Walk.take_object hc] at hs₁
  refine ⟨s₁, by simp [object, hrun, TreeSource.nodeToken], hs₁, ?_⟩
  -- the budget counts every member still to come
  have hsize := hR.budget hs₁
  have hlen := Value.length_le_membersSize members
  simp only [Walk.size, Option.map_none, Option.getD_none, Walk.framesSize_cons,
    TreeFrame.size] at hsize
  omega

omit hM in
/-- The elements of an array, each read by a read that decodes it as `d` does, one per cursor
step: the decodings of them all after those of `acc`, or a failure at the first that does not
decode. The loop's fuel must outlast the elements. -/
theorem listLoop_readsAs {α β : Type} {item : ReadM σ α} {f : α → β} {d : Value → Option β}
    (hitem : ∀ (r : Reader σ) (w : Walk) (v : Value), R r.source w → w.current = some v →
      ReadsAs R item r w.skip f (d v)) :
    ∀ (items : List Value) (fuel : Nat) (c : ArrayCursor) (acc : Array α) (r : Reader σ)
      (fs : List TreeFrame),
    c.done = false → items.length < fuel → r.awaiting = false →
    R r.source ⟨none, .array items :: fs, !c.started⟩ →
    ReadsAs R (listLoop item fuel c acc) r ⟨none, fs, false⟩ (List.map f)
      ((items.mapM d).map fun ys => acc.toList.map f ++ ys)
  | _, 0, _, _, _, _, _, hfuel, _, _ => absurd hfuel (Nat.not_lt_zero _)
  | [], fuel + 1, c, acc, r, fs, hd, _, ha, hr => by
    obtain ⟨s', hrun, hs⟩ := arrayCursor_next_run hR hd hr (Or.inl ⟨ha, rfl⟩)
    exact .inl ⟨acc.toList, s', by simp [listLoop, hrun], hs, by simp⟩
  | v :: rest, fuel + 1, c, acc, r, fs, hd, hfuel, ha, hr => by
    obtain ⟨s₁, hrun₁, hs₁⟩ := arrayCursor_next_run hR hd hr (Or.inl ⟨ha, rfl⟩)
    simp only [List.isEmpty_cons, Bool.not_false] at hrun₁
    rcases hitem ⟨s₁, true⟩ _ v hs₁ rfl with ⟨x, s₂, hrun₂, hs₂, hx⟩ | ⟨hx, e, r₂, hrun₂⟩
    · -- the element decodes: the loop goes on from it with the element read
      have hrest := listLoop_readsAs hitem rest fuel { c with started := true, done := false }
        (acc.push x) ⟨s₂, false⟩ fs rfl (by simpa using hfuel) rfl hs₂
      have hdec : ((v :: rest).mapM d).map (fun ys => acc.toList.map f ++ ys) =
          (rest.mapM d).map fun ys => (acc.push x).toList.map f ++ ys := by
        cases h : rest.mapM d <;> simp [List.mapM_cons, hx, h]
      rw [hdec]
      exact hrest.of_run_eq (by simp [listLoop, hrun₁, hrun₂])
    · -- the element does not decode, nor does the list, and the read fails
      exact .inr ⟨by simp [List.mapM_cons, hx], e, r₂, by simp [listLoop, hrun₁, hrun₂]⟩

omit hM in
/-- The members of an object, each value read by a read that decodes it as `d` does, inserted
one per cursor step into the map `acc`: the map of their decodings, or a failure at the first
that does not decode. -/
theorem mapLoop_readsAs {α β : Type} {item : ReadM σ α} {f : α → β} {d : Value → Option β}
    (hitem : ∀ (r : Reader σ) (w : Walk) (v : Value), R r.source w → w.current = some v →
      ReadsAs R item r w.skip f (d v)) :
    ∀ (members : List (String × Value)) (fuel : Nat) (c : ObjectCursor)
      (acc : List (String × α)) (r : Reader σ) (fs : List TreeFrame),
    c.done = false → c.required = [] → members.length < fuel → r.awaiting = false →
    R r.source ⟨none, .object members :: fs, !c.started⟩ →
    ReadsAs R (mapLoop item fuel c acc) r ⟨none, fs, false⟩ (List.map fun m => (m.1, f m.2))
      (members.foldlM (Schema.decodeMember d) (acc.map fun m => (m.1, f m.2)))
  | _, 0, _, _, _, _, _, _, hfuel, _, _ => absurd hfuel (Nat.not_lt_zero _)
  | [], fuel + 1, c, acc, r, fs, hd, hreq, _, ha, hr => by
    obtain ⟨s', hs, hrun⟩ := objectCursor_next_end hR hd hr (Or.inl ⟨ha, rfl⟩)
    rw [hreq] at hrun
    exact .inl ⟨acc, s', by simp [mapLoop, hrun], hs, rfl⟩
  | (k, v) :: rest, fuel + 1, c, acc, r, fs, hd, hreq, hfuel, ha, hr => by
    obtain ⟨name, s₁, hname, hrun₁, hs₁⟩ := objectCursor_next_member hR hd hr (Or.inl ⟨ha, rfl⟩)
    rw [hreq] at hrun₁
    rcases hitem ⟨s₁, true⟩ _ v hs₁ rfl with ⟨x, s₂, hrun₂, hs₂, hx⟩ | ⟨hx, e, r₂, hrun₂⟩
    · -- the value decodes: the loop goes on with the member inserted under its name
      have hrest := mapLoop_readsAs hitem rest fuel
        { c with started := true, name, required := markSeen k [] } (insertEntry k x acc)
        ⟨s₂, false⟩ fs hd rfl (by simpa using hfuel) rfl hs₂
      rw [insertEntry_map] at hrest
      have hdec : ((k, v) :: rest).foldlM (Schema.decodeMember d) (acc.map fun m => (m.1, f m.2)) =
          rest.foldlM (Schema.decodeMember d) (insertEntry k (f x) (acc.map fun m => (m.1, f m.2))) := by
        simp [Schema.decodeMember, hx]
      rw [hdec]
      exact hrest.of_run_eq (by simp [mapLoop, hrun₁, hrun₂, hname])
    · exact .inr ⟨by simp [Schema.decodeMember, hx], e, r₂, by simp [mapLoop, hrun₁, hrun₂]⟩

end Follows

end Reader

namespace Schema

section Follows

open Reader

variable {σ : Type} [Source σ] {R : σ → Walk → Prop} (hR : FollowsWalk R) (hM : RefusesMismatch R)
include hR hM

/-- A typed read standing on a value: it succeeds with the value's decoding (its strings'
provenance apart), consuming the value whole, exactly when the value has the shape, and fails
otherwise. -/
theorem read_readsAs : ∀ (T : Schema) (r : Reader σ) (w : Walk) (v : Value),
    R r.source w → w.current = some v → ReadsAs R T.read r w.skip T.plain (T.decode v)
  | .bool, r, w, v, hr, hc => bool_readsAs hR hM hr hc
  | .int32, r, w, v, hr, hc => ((double_readsAs hR hM hr hc).map Double.toInt32).bind_pure fun _ => rfl
  | .int64, r, w, v, hr, hc => ((double_readsAs hR hM hr hc).map Double.toInt64).bind_pure fun _ => rfl
  | .uint32, r, w, v, hr, hc =>
    ((double_readsAs hR hM hr hc).map Double.toUInt32).bind_pure fun _ => rfl
  | .float, r, w, v, hr, hc => double_readsAs hR hM hr hc
  | .string, r, w, v, hr, hc => (string_readsAs hR hM hr hc).bind_pure fun _ => rfl
  | .text, r, w, v, hr, hc => (string_readsAs hR hM hr hc).map fun s => (⟨s, true⟩ : Text)
  | .value, r, w, v, hr, hc => by
    obtain ⟨s', hrun, hs⟩ := value_run hR hr hc
    exact .inl ⟨v.canon, s', hrun, hs, rfl⟩
  | .option T, r, w, v, hr, hc => by
    show @ReadsAs σ _ R (Option T.Carrier) _ (Schema.read (.option T)) r w.skip (Option.map T.plain)
      (Schema.decodeOption T.decode v)
    rw [Schema.read_option]
    obtain ⟨s₁, hrun₁, hs₁⟩ := peekKind_run hR hr hc
    by_cases hv : v.kind = .null
    · -- a null is read as no value
      obtain ⟨rfl⟩ : v = .null := by cases v <;> simp_all [Value.kind]
      rcases take_cases hR hM (r := { r with source := s₁ }) hs₁ hc .null with
        ⟨-, t, s₂, hrun₂, ht, hs₂⟩ | ⟨hk, -⟩
      · rw [Token.eq_of_erase_eq ht (by simp [Value.kind])] at hrun₂
        refine .inl ⟨none, s₂, ?_, by rwa [← Walk.take_eq_skip hc rfl], rfl⟩
        simp only [EStateM.run_bind, hrun₁, Value.kind, if_true, null, hrun₂, TreeSource.nodeToken]
        rfl
      · exact absurd rfl hk
    · -- anything else is read with the item's shape
      have hitem : ReadsAs R (T.read >>= fun x => pure (some x)) { r with source := s₁ } w.skip
          (Option.map T.plain) ((T.decode v).map some) :=
        ((read_readsAs T { r with source := s₁ } w v hs₁ hc).map some).bind_pure fun _ => rfl
      have hdec : Schema.decodeOption T.decode v = (T.decode v).map some := by
        simp [Schema.decodeOption, hv]
      rw [hdec]
      exact hitem.of_run_eq (by simp [EStateM.run_bind, hrun₁, hv])
  | .list T, r, w, v, hr, hc => by
    show @ReadsAs σ _ R (List T.Carrier) _ (Schema.read (.list T)) r w.skip (List.map T.plain)
      (Schema.decodeList T.decode v)
    rw [Schema.read_list]
    rcases take_cases hR hM hr hc .array with ⟨hk, -⟩ | ⟨hk, e, r', hrun⟩
    · obtain ⟨items, rfl⟩ : ∃ items, v = .array items := by cases v <;> simp_all [Value.kind]
      obtain ⟨s₁, hrun, hs₁, hfuel⟩ := array_enters hR hr hc
      have hloop := listLoop_readsAs hR (read_readsAs T) items _ (.ofDefined true) #[]
        ⟨s₁, false⟩ w.frames rfl hfuel rfl hs₁
      have hdec : Schema.decodeList T.decode (.array items) =
          (items.mapM T.decode).map fun ys => (#[] : Array T.Carrier).toList.map T.plain ++ ys := by
        simp [Schema.decodeList, Value.asArray]
      rw [hdec]
      exact hloop.of_run_eq (by simp only [EStateM.run_bind, hrun]; rfl)
    · refine .inr ⟨by cases v <;> simp_all [Value.kind, Schema.decodeList, Value.asArray], e, r', ?_⟩
      simp only [EStateM.run_bind, array, hrun]
  | .map T, r, w, v, hr, hc => by
    show @ReadsAs σ _ R (List (String × T.Carrier)) _ (Schema.read (.map T)) r w.skip (List.map fun m => (m.1, T.plain m.2))
      (Schema.decodeMap T.decode v)
    rw [Schema.read_map]
    rcases take_cases hR hM hr hc .object with ⟨hk, -⟩ | ⟨hk, e, r', hrun⟩
    · obtain ⟨members, rfl⟩ : ∃ members, v = .object members := by
        cases v <;> simp_all [Value.kind]
      obtain ⟨s₁, hrun, hs₁, hfuel⟩ := object_enters hR hr hc
      have hloop := mapLoop_readsAs hR (read_readsAs T) members _ (.ofDefined true) []
        ⟨s₁, false⟩ w.frames rfl rfl hfuel rfl hs₁
      exact hloop.of_run_eq (by simp only [EStateM.run_bind, hrun]; rfl)
    · refine .inr ⟨by cases v <;> simp_all [Value.kind, Schema.decodeMap, Value.asObject], e, r', ?_⟩
      simp only [EStateM.run_bind, object, hrun]

end Follows

end Schema

namespace Scanner

/-- Pulling a value of a kind the request does not admit fails, where the token is scanned. -/
theorem nextValue_refused {s s' : Scanner} {t : Token} {d : Kind} {allowNull : Bool}
    (hn : (next).run s = .ok t s') (hk : t.kind.admits (some d) allowNull = false) :
    ∃ e, (Source.nextValue (some d) allowNull).run s = .error e s' :=
  ⟨.mismatch d t.kind (some s'.last), by simp [Source.nextValue, hn, Token.check_of_not_admits hk]⟩

/-- The scanner refuses a value of a kind it is not asked for, whether its token is still to be
scanned or already held. -/
theorem follows_refuses (u : Bool) : RefusesMismatch (Follows u) := by
  intro s w v k allowNull hf hc hk
  cases hf with
  | clear hat hr =>
    obtain ⟨tok, s', -, hrun, herase, -, -⟩ := hr.next hat hc
    obtain ⟨e, he⟩ := nextValue_refused hrun (by rwa [kind_of_erase herase])
    exact ⟨e, s', he⟩
  | held hp hu hr hc' herase hrem =>
    rw [hc, Option.some.injEq] at hc'
    subst hc'
    obtain ⟨e, he⟩ := nextValue_refused (next_held hp) (by rwa [kind_of_erase herase])
    exact ⟨e, _, he⟩

end Scanner

namespace Schema

open Grammar Utf8 Reader

/-- A JSON text read with a shape: its result, strings' provenance apart, is the decoding of the
text's tree, and it fails exactly where the tree does not decode. -/
theorem parseBytes_eq_decode {u : Bool} {cs : List Char} {v : Value} (hd : Doc u cs v)
    (T : Schema) : (T.parseBytes (encode cs) u).toOption.map T.plain = T.decode v := by
  have hR := Scanner.follows_walk u
  rcases read_readsAs hR (Scanner.follows_refuses u) T (Reader.ofSource (Scanner.ofBytes (encode cs) u))
      (Walk.start v) v (Scanner.follows_ofBytes hd) rfl with
    ⟨x, s', hrun, hs', hdec⟩ | ⟨hdec, e, r', hrun⟩
  · -- the value is read whole, and nothing but white space follows it
    obtain ⟨s'', hfin, -⟩ := finish_run hR (r := ⟨s', false⟩) hs' rfl
    simp [parseBytes, EStateM.run_bind, hrun, hfin, hdec, Except.toOption]
  · simp [parseBytes, EStateM.run_bind, hrun, hdec, Except.toOption]

/-- What a shape reads is also read as a value: the typed read consumes what reading the value
whole consumes, and the same check for the end follows. -/
theorem parseBytes_value_of_ok {T : Schema} {bs : List UInt8} {u : Bool} {x : T.Carrier}
    (h : T.parseBytes bs u = .ok x) : ∃ v', Schema.value.parseBytes bs u = .ok v' := by
  simp only [parseBytes] at h
  split at h
  · next x₀ r' hm =>
    obtain ⟨x₁, r₁, hread, hm⟩ := EStateM.run_bind_eq_ok.1 hm
    obtain ⟨⟨⟩, r₂, hfin, -⟩ := EStateM.run_bind_eq_ok.1 hm
    -- the typed read consumed what skipping consumes, and so does reading the value whole: the
    -- same check for the end follows both
    have hskip := read_consumes_as_skipValue Scanner.pullsByKind Scanner.keepsBudget T trivial hread
    rw [skipValue_run_eq, EStateM.Result.map_eq_ok] at hskip
    obtain ⟨v', hv, -⟩ := hskip
    have hv' : (Schema.value.read : ReadM Scanner Schema.value.Carrier).run _ = .ok v' r₁ := hv
    refine ⟨v', ?_⟩
    simp only [parseBytes, EStateM.run_bind, hv', hfin]
    rfl
  · simp at h

/-- Reading a document with a shape decodes its syntax tree. The read succeeds exactly when the
text is read as a value and its tree, members in document order and duplicates kept, has the
shape; and for every tree of the text, what it returns is the tree's decoding, its strings'
provenance apart. -/
theorem parseBytes_decodes_tree (T : Schema) (u : Bool) (text : String) :
    ((∃ x, T.parseBytes text.toUTF8.toList u = .ok x) ↔
        (∃ v', Schema.value.parseBytes text.toUTF8.toList u = .ok v') ∧
          ∃ v, Doc u text.toList v ∧ T.conforms v) ∧
      ∀ v, Doc u text.toList v →
        (T.parseBytes text.toUTF8.toList u).toOption.map T.plain = T.decode v := by
  -- the decoding part holds of every tree of the text; the rest follows from it
  have hdec : ∀ v, Doc u text.toList v →
      (T.parseBytes text.toUTF8.toList u).toOption.map T.plain = T.decode v := by
    intro v hd
    rw [toUTF8_eq_encode]
    exact parseBytes_eq_decode hd T
  refine ⟨⟨?_, ?_⟩, hdec⟩
  · -- a read that succeeds read a value, whose tree decodes, so it has the shape
    rintro ⟨x, hx⟩
    obtain ⟨v', hv'⟩ := parseBytes_value_of_ok hx
    obtain ⟨v, hd, -⟩ := parseBytes_text_iff.1 hv'
    refine ⟨⟨v', hv'⟩, v, hd, ?_⟩
    rw [← decode_isSome, ← hdec v hd, hx]
    rfl
  · -- a tree of the text with the shape decodes, so the read cannot have failed
    rintro ⟨-, v, hd, hv⟩
    rw [← decode_isSome, ← hdec v hd] at hv
    cases h : T.parseBytes text.toUTF8.toList u with
    | ok x => exact ⟨x, rfl⟩
    | error e =>
      rw [h] at hv
      simp [Except.toOption] at hv

end Schema

end JsonCodec
