import JsonCodec.Proofs.Number.Literal
import JsonCodec.Proofs.Writer.Quote
import JsonCodec.Proofs.Writer.Session
import JsonCodec.Proofs.Parse
import JsonCodec.Proofs.Tree.Read

/-! # Written values read back

Writing a value and reading its text gives the value back, up to what the text cannot hold. A
number is written as `null` when it is NaN or infinite, and both zeros as `0`; every other number
is written in digits that read back as it, given that its shortest digits do
(`Double.ShortestReadsBack`, the one assumption on number formatting). So the text is a JSON text
whose tree is the value with its numbers normalized (`Value.norm`), and reading it gives that tree
as a reader builds it, its objects made maps (`Value.render_reads_back`). A value whose objects
already are maps is read back as its normal form itself.
-/

namespace JsonCodec

open Grammar Utf8 Escape

/-- The shortest digits of a finite number read back as the number: the assumption made of number
formatting. -/
def Double.ShortestReadsBack (x : Double) : Prop := x.isFinite = true → x.shortest.toDouble = x

namespace Value

/-- A number as its text reads back: NaN and the infinities as null, both zeros as the zero with
no sign, and any other number as itself. -/
def normNumber (x : Double) : Value :=
  if x.isFinite then (if x.isZero then .number (Double.zero false) else .number x) else .null

mutual
/-- A value with every number as its text reads back. -/
def norm : Value → Value
  | .null => .null
  | .bool b => .bool b
  | .number x => normNumber x
  | .string s => .string s
  | .array items => .array (normItems items)
  | .object members => .object (normMembers members)

/-- `Value.norm` of every element of a list. -/
def normItems : List Value → List Value
  | [] => []
  | v :: rest => v.norm :: normItems rest

/-- `Value.norm` of the value of every member of a list. -/
def normMembers : List (String × Value) → List (String × Value)
  | [] => []
  | (k, v) :: rest => (k, v.norm) :: normMembers rest
end

mutual
/-- The numbers a value holds, in document order. -/
def numbers : Value → List Double
  | .number x => [x]
  | .array items => numbersItems items
  | .object members => numbersMembers members
  | _ => []

/-- The numbers the elements of a list hold. -/
def numbersItems : List Value → List Double
  | [] => []
  | v :: rest => v.numbers ++ numbersItems rest

/-- The numbers the values of the members of a list hold. -/
def numbersMembers : List (String × Value) → List Double
  | [] => []
  | (_, v) :: rest => v.numbers ++ numbersMembers rest
end

end Value

/-! ### The text of a value is a JSON text -/

/-- A quoted string is a string literal of the grammar, whatever follows it. -/
theorem strLit_quote_append (e : Bool) (s : String) (t : List Char) :
    StrLit ((quote e s).toList ++ t) s.toList t := by
  rw [quote_toList]
  simpa using StrLit.mk (strChars_flatMap e t s.toList)

namespace Value

/-- The text of a number is a value of the grammar denoting the number as it reads back. -/
theorem elem_jsonText {x : Double} (hx : x.ShortestReadsBack) (u : Bool) (t : List Char) :
    Elem u (x.jsonText.toList ++ t) (normNumber x) t := by
  unfold normNumber
  by_cases hfin : x.isFinite = true
  · by_cases hz : x.isZero = true
    · -- both zeros are written `0`
      have htext : x.jsonText = integerText 0 := by simp [Double.jsonText, hfin, hz]; rfl
      rw [htext, if_pos hfin, if_pos hz]
      exact .number (Decimal.spells_integerText 0 t)
    · obtain ⟨d, hd, hread⟩ := Double.jsonText_spells hfin (by simpa using hz) (hx hfin)
      have hnum := Elem.number (u := u) (hd t)
      rw [hread] at hnum
      rwa [if_pos hfin, if_neg hz]
  · have htext : x.jsonText = "null" := by simp [Double.jsonText, hfin]
    rw [htext, if_neg hfin]
    exact .null t

variable (e u : Bool)

mutual
/-- The text of a value, whatever follows it, is a value of the grammar denoting the value with
its numbers as they read back. -/
theorem elem_render : ∀ v : Value, (∀ x ∈ v.numbers, x.ShortestReadsBack) → ∀ t : List Char,
    Elem u ((v.render e).toList ++ t) v.norm t
  | .null, _, t => by simpa [render, norm] using Elem.null (u := u) t
  | .bool true, _, t => by simpa [render, norm] using Elem.true (u := u) t
  | .bool false, _, t => by simpa [render, norm] using Elem.false (u := u) t
  | .number x, h, t => elem_jsonText (h x (by simp [numbers])) u t
  | .string s, _, t => by
    have hs := Elem.string (u := u) (strLit_quote_append e s t)
    rwa [String.ofList_toList] at hs
  | .array [], _, t => by
    simpa [render, renderItems, norm, normItems] using Elem.array (u := u) (.empty (.nil (']' :: t)))
  | .array (v :: rest), h, t => by
    -- the first element is a value of the grammar by induction, and the rest a tail after it
    have hv : ∀ x ∈ v.numbers, x.ShortestReadsBack := fun x hx =>
      h x (List.mem_append_left _ hx)
    have hrest : ∀ x ∈ numbersItems rest, x.ShortestReadsBack := fun x hx =>
      h x (List.mem_append_right _ hx)
    have hbody := ArrBody.items (.nil _) (elem_render v hv _) (arrTail_renderItems rest hrest t)
    simpa [render, renderItems, norm, normItems] using Elem.array (u := u) hbody
  | .object [], _, t => by
    simpa [render, renderMembers, norm, normMembers] using
      Elem.object (u := u) (.empty (.nil ('}' :: t)))
  | .object ((k, v) :: rest), h, t => by
    -- the first member is its quoted name, a colon and its value; the rest a tail after it
    have hv : ∀ x ∈ v.numbers, x.ShortestReadsBack := fun x hx =>
      h x (List.mem_append_left _ hx)
    have hrest : ∀ x ∈ numbersMembers rest, x.ShortestReadsBack := fun x hx =>
      h x (List.mem_append_right _ hx)
    have hmember := Member.mk (strLit_quote_append e k _) (.nil _) (.nil _)
      (elem_render v hv ((renderMembers e true rest).toList ++ '}' :: t))
    rw [String.ofList_toList] at hmember
    have hbody := ObjBody.members (.nil _) hmember (objTail_renderMembers rest hrest t)
    simpa [render, renderMembers, norm, normMembers] using Elem.object (u := u) hbody

/-- The elements after the first, each after a comma, then the closing bracket. -/
theorem arrTail_renderItems : ∀ items : List Value,
    (∀ x ∈ numbersItems items, x.ShortestReadsBack) → ∀ t : List Char,
    ArrTail u ((renderItems e true items).toList ++ ']' :: t) (normItems items) t
  | [], _, t => .close (.nil _)
  | v :: rest, h, t => by
    have hv : ∀ x ∈ v.numbers, x.ShortestReadsBack := fun x hx =>
      h x (List.mem_append_left _ hx)
    have hrest : ∀ x ∈ numbersItems rest, x.ShortestReadsBack := fun x hx =>
      h x (List.mem_append_right _ hx)
    have htail := ArrTail.next (.nil _) (.nil _) (elem_render v hv _)
      (arrTail_renderItems rest hrest t)
    simpa [renderItems, normItems] using htail

/-- The members after the first, each after a comma, then the closing brace. -/
theorem objTail_renderMembers : ∀ members : List (String × Value),
    (∀ x ∈ numbersMembers members, x.ShortestReadsBack) → ∀ t : List Char,
    ObjTail u ((renderMembers e true members).toList ++ '}' :: t) (normMembers members) t
  | [], _, t => .close (.nil _)
  | (k, v) :: rest, h, t => by
    have hv : ∀ x ∈ v.numbers, x.ShortestReadsBack := fun x hx =>
      h x (List.mem_append_left _ hx)
    have hrest : ∀ x ∈ numbersMembers rest, x.ShortestReadsBack := fun x hx =>
      h x (List.mem_append_right _ hx)
    have hmember := Member.mk (strLit_quote_append e k _) (.nil _) (.nil _)
      (elem_render v hv ((renderMembers e true rest).toList ++ '}' :: t))
    rw [String.ofList_toList] at hmember
    have htail := ObjTail.next (.nil _) (.nil _) hmember (objTail_renderMembers rest hrest t)
    simpa [renderMembers, normMembers] using htail
end

/-! ### Objects stay maps -/

/-- Normalizing numbers keeps every member's name. -/
theorem names_normMembers (members : List (String × Value)) :
    (normMembers members).map Prod.fst = members.map Prod.fst := by
  induction members with
  | nil => rfl
  | cons m rest ih =>
    obtain ⟨k, v⟩ := m
    simp [normMembers, ih]

mutual
/-- Normalizing numbers keeps every object a map. -/
theorem isCanonical_norm : ∀ v : Value, v.isCanonical = true → v.norm.isCanonical = true
  | .null, _ => rfl
  | .bool _, _ => rfl
  | .number x, _ => by
    unfold norm normNumber
    split_ifs <;> rfl
  | .string _, _ => rfl
  | .array items, h => itemsCanonical_normItems items h
  | .object members, h => by
    simp only [isCanonical, Bool.and_eq_true, decide_eq_true_eq] at h
    simp only [norm, isCanonical, Bool.and_eq_true, decide_eq_true_eq, names_normMembers]
    exact ⟨h.1, membersCanonical_normMembers members h.2⟩

/-- Normalizing numbers keeps every object among the elements a map. -/
theorem itemsCanonical_normItems : ∀ items : List Value,
    Value.itemsCanonical items = true → Value.itemsCanonical (normItems items) = true
  | [], _ => rfl
  | v :: rest, h => by
    simp only [Value.itemsCanonical, Bool.and_eq_true] at h
    simp only [normItems, Value.itemsCanonical, Bool.and_eq_true]
    exact ⟨isCanonical_norm v h.1, itemsCanonical_normItems rest h.2⟩

/-- Normalizing numbers keeps every object among the members' values a map. -/
theorem membersCanonical_normMembers : ∀ members : List (String × Value),
    Value.membersCanonical members = true → Value.membersCanonical (normMembers members) = true
  | [], _ => rfl
  | (_, v) :: rest, h => by
    simp only [Value.membersCanonical, Bool.and_eq_true] at h
    simp only [normMembers, Value.membersCanonical, Bool.and_eq_true]
    exact ⟨isCanonical_norm v h.1, membersCanonical_normMembers rest h.2⟩
end

/-! ### Reading the text back -/

/-- The text of a value is a JSON text denoting the value with its numbers as they read back. -/
theorem doc_render (v : Value) (hv : ∀ x ∈ v.numbers, x.ShortestReadsBack) :
    Doc u (v.render e).toList v.norm :=
  ⟨_, [], .nil _, by simpa using elem_render e u v hv [], .nil []⟩

/-- A new writer that writes a value finishes with the value's text. -/
theorem finish_value_new (v : Value) : ((Writer.new e).value v).finish = .ok (v.render e) := by
  simp [Writer.finish, Writer.value_out, Writer.separator_of_scopes_eq_nil, Writer.new]

/-- Writing a value and reading the text back, as a string or as its bytes, gives the value with
its numbers as they read back, NaN and the infinities as null and both zeros as zero, as a reader
builds it: its objects made maps, which they already are in a value whose objects are maps. This
holds with or without escaping past ASCII, and given that shortest digits read back. -/
theorem render_reads_back (v : Value) (hv : ∀ x ∈ v.numbers, x.ShortestReadsBack) :
    ((Writer.new e).value v).finish = .ok (v.render e) ∧
      Value.parse (v.render e) = .ok v.norm.canon ∧
      (∀ u, Schema.value.parseBytes (v.render e).toUTF8.toList u = .ok v.norm.canon) ∧
      (v.isCanonical = true → v.norm.canon = v.norm) := by
  have hread : ∀ u, Schema.value.parseBytes (v.render e).toUTF8.toList u = .ok v.norm.canon :=
    fun u => parseBytes_text_iff.2 ⟨v.norm, doc_render e u v hv, rfl⟩
  exact ⟨finish_value_new e v, hread false, hread,
    fun h => canon_of_isCanonical _ (isCanonical_norm v h)⟩

/-- NaN reads back as null, the negative zero as zero, and an object as a map sorted by name. -/
theorem render_reads_back_specials :
    (∀ x ∈ (Value.array [.number .nan, .number (.zero true), .string "é\"",
        .object [("b", .number (.infinity false)), ("a", .bool true)]]).numbers,
        x.ShortestReadsBack) ∧
    Value.parse ((Value.array [.number .nan, .number (.zero true), .string "é\"",
        .object [("b", .number (.infinity false)), ("a", .bool true)]]).render true) =
      .ok (.array [.null, .number (.zero false), .string "é\"",
        .object [("a", .bool true), ("b", .null)]]) := by
  have hv : ∀ x ∈ (Value.array [.number .nan, .number (.zero true), .string "é\"",
      .object [("b", .number (.infinity false)), ("a", .bool true)]]).numbers,
      x.ShortestReadsBack := by
    unfold Double.ShortestReadsBack
    decide
  refine ⟨hv, ?_⟩
  rw [(render_reads_back true _ hv).2.1]
  rfl

end Value

end JsonCodec
