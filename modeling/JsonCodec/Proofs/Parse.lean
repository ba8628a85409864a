import JsonCodec.Proofs.Scanner.Reads
import JsonCodec.Proofs.Reader.Walk
import JsonCodec.Proofs.Scanner.Walk
import JsonCodec.Document
import JsonCodec.Proofs.Number.Round

/-! # Reading a document is parsing its grammar

`Schema.value.parseBytes bs u` reads one value and then the end of the input. This module proves
that it accepts exactly the UTF-8 encodings of the JSON texts of `Grammar.Doc u`, and that the
value it gives is `Value.canon` of the value the text denotes.

* Soundness (`parseBytes_sound`) runs the reader's loop backwards over what each scanner step
  read. The loop keeps an explicit stack of open containers; `Closes` says what the text after a
  value must hold for each of them to close in turn, and `LoopReads` packages one whole run of the
  loop, so that the loop's own induction on fuel carries the grammar along.
* Completeness (`parseBytes_complete`) comes from the walk the scanner follows on a derivation:
  `Scanner.follows_ofBytes` and the reader's `value_run` and `finish_run`.
* `parseBytes_iff` puts the two together on bytes, and `lookup_canonMembers` says what
  `Value.canon` makes of an object: a name stands for the last member of that name.
-/

namespace JsonCodec.Reader
open Grammar Utf8 Scanner

/-- What the containers still open demand of the text `cs` after a value `v` read into the
innermost one: `cs` goes on to close each of them in turn, from the innermost out, the
outermost closing as `fin`, and `T` is left. -/
def Closes (u : Bool) : List Open → Value → List Char → Value → List Char → Prop
  | [], v, cs, fin, T => fin = v ∧ cs = T
  | .array items :: S, v, cs, fin, T =>
    ∃ vs t, ArrTail u cs vs t ∧
      Closes u S (.array (items.toList ++ v :: Value.canonItems vs)) t fin T
  | .object members name :: S, v, cs, fin, T =>
    ∃ ms t, ObjTail u cs ms t ∧
      Closes u S (.object (Value.canonMembers (insertEntry name v members) ms)) t fin T

/-- From `r` the reading loop, with the containers `S` open, read the text `Y` and finished the
outermost as `fin`: whatever follows, `Y` is white space and a value, and then the text that
closes every container. -/
def LoopReads (u : Bool) (S : List Open) (r : Reader Scanner) (fin : Value)
    (r' : Reader Scanner) : Prop :=
  ∃ Y, Read u r.source Y r'.source ∧
    ∀ T, ∃ cs₁ v cs₂, Ws u (Y ++ T) cs₁ ∧ Elem u cs₁ v cs₂ ∧ Closes u S v.canon cs₂ fin T

/-- A source step lifted into the reader succeeded on the reader's source, and the reader holds the
source it left. -/
theorem run_lift_eq_ok {α : Type} {m : EStateM ReadError Scanner α} {r r' : Reader Scanner}
    {a : α} (h : (lift m).run r = .ok a r') :
    ∃ s', m.run r.source = .ok a s' ∧ r' = { r with source := s' } := by
  rw [run_lift] at h
  split at h
  · next a' s' hm =>
    simp only [EStateM.Result.ok.injEq] at h
    obtain ⟨rfl, rfl⟩ := h
    exact ⟨s', hm, rfl⟩
  · simp at h

/-- Reading rebuilds a scalar as it is. -/
theorem canon_of_scalar {v : Value} (hv : TreeSource.nodeFrame v = none) : v.canon = v := by
  cases v <;> simp_all [TreeSource.nodeFrame, Value.canon]

/-- A scalar token is settled as the value it stands for. -/
theorem valueStep_scalar {t : Token} {v : Value} (hv : TreeSource.nodeFrame v = none)
    (he : t.erase = TreeSource.nodeToken v) (S : List Open) :
    (valueStep t S : ReadM Scanner (Value ⊕ List Open)) = settle v S := by
  cases v <;> cases t <;> simp_all [TreeSource.nodeFrame, TreeSource.nodeToken, Token.erase,
    valueStep]

/-- Settling `v` into the containers `S` and reading on: what was read closes the containers
around `v`. The reading loop it goes back to is taken to do what `LoopReads` says. -/
theorem settle_sound {u : Bool} {fuel : Nat}
    (hloop : ∀ S r fin r', r.source.Clean u →
      (valueLoop fuel S : ReadM Scanner Value).run r = .ok fin r' → LoopReads u S r fin r') :
    ∀ (S : List Open) (v : Value) (r : Reader Scanner) (fin : Value) (r' : Reader Scanner),
      r.source.Clean u → (settle v S >>= valueRest fuel).run r = .ok fin r' →
        ∃ Y, Read u r.source Y r'.source ∧ ∀ T, Closes u S v (Y ++ T) fin T
  | [], v, r, fin, r', hc, h => by
    simp [settle, valueRest] at h
    obtain ⟨rfl, rfl⟩ := h
    exact ⟨[], hc.read_nil, fun T => ⟨rfl, rfl⟩⟩
  | .array items :: S, v, r, fin, r', hc, h => by
    rw [settle_array, arrayRest, bind_assoc] at h
    obtain ⟨more, r₁, hn, h⟩ := EStateM.run_bind_eq_ok.1 h
    obtain ⟨s₁, hs₁, rfl⟩ := run_lift_eq_ok hn
    obtain ⟨w, hw, hmore⟩ := arrayNext_sound hc hs₁
    rcases hmore with ⟨rfl, hread⟩ | ⟨rfl, -, hread⟩ | ⟨-, h₁, -⟩
    · -- the closing bracket: the array is settled into the containers around it
      simp only [Bool.false_eq_true, if_false] at h
      obtain ⟨Y, hY, hcl⟩ := settle_sound hloop S _ _ fin r' hread.2 h
      refine ⟨w ++ [']'] ++ Y, hread.trans hY, fun T => ⟨[], Y ++ T, .close ?_, ?_⟩⟩
      · simpa using Ws.blank hw (']' :: (Y ++ T))
      · simpa [Value.canonItems] using hcl T
    · -- a comma: the next element is read into the array
      simp only [if_true] at h
      obtain ⟨Y, hY, hT⟩ := hloop _ _ fin r' hread.2 h
      refine ⟨w ++ [','] ++ Y, hread.trans hY, fun T => ?_⟩
      obtain ⟨cs₁, v₂, cs₂, hws, hel, vs, t, htail, hcl⟩ := hT T
      refine ⟨v₂ :: vs, t, .next (by simpa using Ws.blank hw (',' :: (Y ++ T))) hws hel htail, ?_⟩
      simpa [Value.canonItems] using hcl
    · simp at h₁
  | .object members name :: S, v, r, fin, r', hc, h => by
    rw [settle_object, objectRest, bind_assoc] at h
    obtain ⟨next, r₁, hn, h⟩ := EStateM.run_bind_eq_ok.1 h
    obtain ⟨s₁, hs₁, rfl⟩ := run_lift_eq_ok hn
    obtain ⟨w, hw, hnext⟩ := objectNext_sound hc hs₁
    rcases hnext with ⟨rfl, hread⟩ | ⟨text, pre, rfl, hname, ⟨h₁, -⟩ | ⟨-, w₁, hw₁, hread⟩⟩
    · -- the closing brace: the object is settled into the containers around it
      obtain ⟨Y, hY, hcl⟩ := settle_sound hloop S _ _ fin r' hread.2 h
      refine ⟨w ++ ['}'] ++ Y, hread.trans hY, fun T => ⟨[], Y ++ T, .close ?_, ?_⟩⟩
      · simpa using Ws.blank hw ('}' :: (Y ++ T))
      · simpa [Value.canonMembers] using hcl T
    · simp at h₁
    · -- a comma and the next member's name: its value is read into the object
      obtain ⟨Y, hY, hT⟩ := hloop _ _ fin r' hread.2 h
      refine ⟨w ++ ',' :: w₁ ++ pre ++ Y, hread.trans hY, fun T => ?_⟩
      obtain ⟨cs₁, v₂, cs₂, hws, hel, ms, t, htail, hcl⟩ := hT T
      have htext : (w ++ ',' :: w₁ ++ pre ++ Y) ++ T = w ++ ',' :: (w₁ ++ (pre ++ (Y ++ T))) := by
        simp
      refine ⟨(text.str, v₂) :: ms, t, ?_, ?_⟩
      · rw [htext]
        exact .next (Ws.blank hw _) (Ws.blank hw₁ _) (hname.member hws hel) htail
      · simpa [Value.canonMembers] using hcl

/-- What the reading loop reads, whatever containers are open: white space and a value, and then
text that closes each container in turn. -/
theorem valueLoop_sound (u : Bool) : ∀ (fuel : Nat) (S : List Open) (r : Reader Scanner)
    (fin : Value) (r' : Reader Scanner), r.source.Clean u →
      (valueLoop fuel S : ReadM Scanner Value).run r = .ok fin r' → LoopReads u S r fin r'
  | 0, S, r, fin, r', hc, h => by simp [valueLoop, exhausted] at h
  | fuel + 1, S, r, fin, r', hc, h => by
    have ih := valueLoop_sound u fuel
    rw [valueLoop_succ] at h
    obtain ⟨tok, r₁, hn, h⟩ := EStateM.run_bind_eq_ok.1 h
    obtain ⟨s₁, hs₁, rfl⟩ := run_lift_eq_ok hn
    obtain ⟨w, pre, hw, htok, hread⟩ := nextValue_sound hc hs₁
    cases htok with
    | arrayStart =>
      rw [valueStep, arrayRest, bind_assoc] at h
      obtain ⟨more, r₂, hm, h⟩ := EStateM.run_bind_eq_ok.1 h
      obtain ⟨s₂, hs₂, rfl⟩ := run_lift_eq_ok hm
      obtain ⟨w', hw', hmore⟩ := arrayNext_sound hread.2 hs₂
      rcases hmore with ⟨rfl, hread'⟩ | ⟨-, h₁, -⟩ | ⟨rfl, -, hread'⟩
      · -- an empty array, settled into the containers around it
        simp only [Bool.false_eq_true, if_false] at h
        obtain ⟨Y, hY, hcl⟩ := settle_sound ih S _ _ fin r' hread'.2 h
        refine ⟨w ++ ['['] ++ (w' ++ [']']) ++ Y, (hread.trans hread').trans hY, fun T =>
          ⟨'[' :: (w' ++ ']' :: (Y ++ T)), .array [], Y ++ T, ?_, .array (.empty ?_), ?_⟩⟩
        · simpa using Ws.blank hw ('[' :: (w' ++ ']' :: (Y ++ T)))
        · exact Ws.blank hw' _
        · simpa [Value.canon, Value.canonItems] using hcl T
      · simp at h₁
      · -- the first element is read into the array
        simp only [if_true] at h
        obtain ⟨Y, hY, hT⟩ := ih _ _ fin r' hread'.2 h
        refine ⟨w ++ ['['] ++ w' ++ Y, (hread.trans hread').trans hY, fun T => ?_⟩
        obtain ⟨cs₁, v₂, cs₂, hws, hel, vs, t, htail, hcl⟩ := hT T
        refine ⟨'[' :: (w' ++ (Y ++ T)), .array (v₂ :: vs), t, ?_,
          .array (.items ((Ws.blank hw' _).trans hws) hel htail), ?_⟩
        · simpa using Ws.blank hw ('[' :: (w' ++ (Y ++ T)))
        · simpa [Value.canon, Value.canonItems] using hcl
    | objectStart =>
      rw [valueStep, objectRest, bind_assoc] at h
      obtain ⟨next, r₂, hm, h⟩ := EStateM.run_bind_eq_ok.1 h
      obtain ⟨s₂, hs₂, rfl⟩ := run_lift_eq_ok hm
      obtain ⟨w', hw', hnext⟩ := objectNext_sound hread.2 hs₂
      rcases hnext with ⟨rfl, hread'⟩ | ⟨text, pre', rfl, hname, ⟨-, hread'⟩ | ⟨h₁, -⟩⟩
      · -- an empty object, settled into the containers around it
        obtain ⟨Y, hY, hcl⟩ := settle_sound ih S _ _ fin r' hread'.2 h
        refine ⟨w ++ ['{'] ++ (w' ++ ['}']) ++ Y, (hread.trans hread').trans hY, fun T =>
          ⟨'{' :: (w' ++ '}' :: (Y ++ T)), .object [], Y ++ T, ?_, .object (.empty ?_), ?_⟩⟩
        · simpa using Ws.blank hw ('{' :: (w' ++ '}' :: (Y ++ T)))
        · exact Ws.blank hw' _
        · simpa [Value.canon, Value.canonMembers] using hcl T
      · -- the first member's name: its value is read into the object
        obtain ⟨Y, hY, hT⟩ := ih _ _ fin r' hread'.2 h
        refine ⟨w ++ ['{'] ++ (w' ++ pre') ++ Y, (hread.trans hread').trans hY, fun T => ?_⟩
        obtain ⟨cs₁, v₂, cs₂, hws, hel, ms, t, htail, hcl⟩ := hT T
        refine ⟨'{' :: (w' ++ (pre' ++ (Y ++ T))), .object ((text.str, v₂) :: ms), t, ?_,
          .object (.members (Ws.blank hw' _) (hname.member hws hel) htail), ?_⟩
        · simpa using Ws.blank hw ('{' :: (w' ++ (pre' ++ (Y ++ T))))
        · simpa [Value.canon, Value.canonMembers] using hcl
      · simp at h₁
    | scalar hv herase hel =>
      rw [valueStep_scalar hv herase] at h
      obtain ⟨Y, hY, hcl⟩ := settle_sound ih S _ _ fin r' hread.2 h
      refine ⟨w ++ pre ++ Y, hread.trans hY, fun T =>
        ⟨pre ++ (Y ++ T), _, Y ++ T, by simpa using Ws.blank hw (pre ++ (Y ++ T)), hel _, ?_⟩⟩
      rw [canon_of_scalar hv]
      exact hcl T

/-- Reading a value whole: white space and a value, whose canonical form is what was read,
followed by whatever text follows. -/
theorem value_sound {u : Bool} {r r' : Reader Scanner} {fin : Value} (hc : r.source.Clean u)
    (h : (value : ReadM Scanner Value).run r = .ok fin r') :
    ∃ Y, Read u r.source Y r'.source ∧
      ∀ T, ∃ cs₁ v, Ws u (Y ++ T) cs₁ ∧ Elem u cs₁ v T ∧ fin = v.canon := by
  simp only [value, EStateM.run_bind, run_beginRead, run_get] at h
  obtain ⟨Y, hY, hT⟩ := valueLoop_sound u _ [] { r with awaiting := false } fin r' hc h
  refine ⟨Y, hY, fun T => ?_⟩
  obtain ⟨cs₁, v, cs₂, hws, hel, hfin, rfl⟩ := hT T
  exact ⟨cs₁, v, hws, hel, hfin⟩

/-- The check for the end of the document passes only on white space. -/
theorem finish_sound {u : Bool} {r r' : Reader Scanner} (hc : r.source.Clean u)
    (h : (finish : ReadM Scanner Unit).run r = .ok () r') :
    ∃ w, (∀ c ∈ w, isWs u c) ∧ r.source.rest = encode w := by
  obtain ⟨b, r₁, he, h⟩ := EStateM.run_bind_eq_ok.1 h
  obtain ⟨w, hw, hread, hend⟩ := isEof_sound hc
  simp only [isEof, EStateM.run, EStateM.Result.ok.injEq] at he
  obtain ⟨rfl, rfl⟩ := he
  cases hb : r.source.isEof.1
  · -- something other than white space is left, and the check fails
    change (if r.source.isEof.1 = true then _ else _ : ReadM Scanner Unit).run _ = _ at h
    simp only [hb, Bool.false_eq_true, if_false] at h
    obtain ⟨k, r₂, -, h⟩ := EStateM.run_bind_eq_ok.1 h
    simp at h
  · have hempty : r.source.isEof.2.rest = [] := List.isEmpty_iff.1 (hend ▸ hb)
    exact ⟨w, hw, by rw [hread.1, hempty, List.append_nil]⟩

end JsonCodec.Reader

namespace JsonCodec
open Grammar Utf8 Scanner Reader

/-- What the document reader accepts is a JSON text, and the value it gives is the canonical
form of the value the text denotes. -/
theorem parseBytes_sound {u : Bool} {bs : List UInt8} {v' : Value}
    (h : Schema.value.parseBytes bs u = .ok v') :
    ∃ cs v, bs = encode cs ∧ Doc u cs v ∧ v' = v.canon := by
  simp only [Schema.parseBytes] at h
  split at h
  · next v₀ r' hm =>
    injection h with h
    subst h
    obtain ⟨v₁, r₁, hv, hm⟩ := EStateM.run_bind_eq_ok.1 hm
    obtain ⟨⟨⟩, r₂, hf, hm⟩ := EStateM.run_bind_eq_ok.1 hm
    cases hm
    -- the value read is a value of the grammar, and `finish` read only white space after it
    have hc : (Reader.ofSource (Scanner.ofBytes bs u)).source.Clean u := ⟨rfl, rfl⟩
    obtain ⟨Y, hY, hT⟩ := value_sound hc hv
    obtain ⟨w, hw, hrest⟩ := finish_sound hY.2 hf
    obtain ⟨cs₁, v, hws, hel, rfl⟩ := hT w
    refine ⟨Y ++ w, v, ?_, ⟨cs₁, w, hws, hel, by simpa using Ws.blank hw []⟩, rfl⟩
    rw [encode_append, ← hrest]
    exact hY.1
  · simp at h

/-- Every JSON text is read as the canonical form of the value it denotes. -/
theorem parseBytes_complete {u : Bool} {cs : List Char} {v : Value} (hd : Doc u cs v) :
    Schema.value.parseBytes (encode cs) u = .ok v.canon := by
  obtain ⟨s₁, hrun, hs₁⟩ := value_run (Scanner.follows_walk u)
    (r := Reader.ofSource (Scanner.ofBytes (encode cs) u)) (Scanner.follows_ofBytes hd) rfl
  obtain ⟨s₂, hfin, -⟩ := finish_run (Scanner.follows_walk u) (r := ⟨s₁, false⟩) hs₁ rfl
  have hread : (Schema.value.read : ReadM Scanner Schema.value.Carrier).run
      (Reader.ofSource (Scanner.ofBytes (encode cs) u)) = .ok v.canon ⟨s₁, false⟩ := hrun
  simp only [Schema.parseBytes, EStateM.run_bind, hread]
  simp only [hfin]
  rfl

/-- A text is read exactly when it is a JSON text, as the canonical form of its value. -/
theorem parseBytes_text_iff {u : Bool} {text : String} {v' : Value} :
    Schema.value.parseBytes text.toUTF8.toList u = .ok v' ↔
      ∃ v, Doc u text.toList v ∧ v' = v.canon := by
  rw [toUTF8_eq_encode]
  constructor
  · intro h
    obtain ⟨cs, v, hcs, hd, rfl⟩ := parseBytes_sound h
    rw [encode_injective hcs]
    exact ⟨v, hd, rfl⟩
  · rintro ⟨v, hd, rfl⟩
    exact parseBytes_complete hd

/-- Bytes are read exactly when they are the UTF-8 encoding of a JSON text, and then as the text
is read. -/
theorem parseBytes_iff {u : Bool} {bs : List UInt8} {v' : Value} :
    Schema.value.parseBytes bs u = .ok v' ↔
      ∃ text : String, bs = text.toUTF8.toList ∧ ∃ v, Doc u text.toList v ∧ v' = v.canon := by
  constructor
  · intro h
    obtain ⟨cs, v, rfl, hd, rfl⟩ := parseBytes_sound h
    refine ⟨String.ofList cs, (toUTF8_ofList cs).symm, v, ?_, rfl⟩
    rwa [String.toList_ofList]
  · rintro ⟨text, rfl, hv⟩
    exact parseBytes_text_iff.2 hv

/-! ### What a number denotes -/

/-- The value a number literal spells: the integer digits and the fraction digits after them,
times ten to the exponent, with the sign. -/
def Grammar.literalValue (neg : Bool) (ints fracs : List Char) (e : Int) : ℚ :=
  Double.signed neg ((digitsValue ints + digitsValue fracs / 10 ^ fracs.length) * 10 ^ e)

/-- The decimal a literal denotes has the value the literal spells. -/
theorem value_numLit (neg : Bool) (ints fracs : List Char) (e : Int) :
    (⟨neg, digitsValue (ints ++ fracs), e - fracs.length⟩ : Decimal).value =
      literalValue neg ints fracs e := by
  rw [Decimal.value, literalValue, digitsValue_append]
  congr 1
  push_cast
  rw [zpow_sub₀ (by norm_num), zpow_natCast]
  field_simp

/-- A number in a JSON text denotes the double nearest to the value its literal spells, the
literal's sign kept on zero. -/
theorem Grammar.Elem.number_roundsTo {u : Bool} {cs t : List Char} {x : Double}
    (h : Elem u cs (.number x) t) :
    ∃ neg ints fp fracs ep e, cs = (if neg then ['-'] else []) ++ ints ++ fp ++ ep ++ t ∧
      IntDigits ints ∧ FracPart fp fracs ∧ ExpPart ep e ∧
      Double.RoundsTo neg (literalValue neg ints fracs e) x := by
  cases h with
  | number hn =>
    cases hn with
    | mk hi hf he =>
      refine ⟨_, _, _, _, _, _, rfl, hi, hf, he, ?_⟩
      rw [← value_numLit]
      exact Decimal.toDouble_roundsTo ⟨_, _, _⟩

/-! ### What an object's value holds -/

/-- After inserting a member, a name is looked up as that member's when it is the member's name, and
as before otherwise. -/
theorem lookup_insertEntry {α : Type} (name k : String) (v : α) (acc : List (String × α)) :
    (insertEntry name v acc).lookup k = if k = name then some v else acc.lookup k := by
  induction acc with
  | nil => grind [insertEntry]
  | cons e rest ih =>
    obtain ⟨k', w⟩ := e
    simp only [insertEntry]
    split_ifs with hlt heq <;> grind

/-- A name in a canonical map holds the last member's value of that name, made canonical, or else
what the map started with. -/
theorem lookup_canonMembers (acc ms : List (String × Value)) (k : String) :
    (Value.canonMembers acc ms).lookup k =
      ((ms.reverse.lookup k).map Value.canon).or (acc.lookup k) := by
  induction ms generalizing acc with
  | nil => simp [Value.canonMembers]
  | cons e rest ih =>
    obtain ⟨k', v⟩ := e
    rw [Value.canonMembers, ih, lookup_insertEntry, List.reverse_cons, List.lookup_append]
    cases hr : rest.reverse.lookup k <;> grind

/-! ### The document reader -/

/-- The document reader accepts a text exactly when it is a JSON text, and gives the tree the
text denotes, with its objects made maps in which a later member replaces an earlier one of the
same name; each number is the double nearest to the value its literal spells. Bytes are read
exactly when they are the UTF-8 encoding of a text that is read, and give what the text gives. -/
theorem parseBytes_reads_json_text :
    (∀ (u : Bool) (text : String) (v' : Value),
      Schema.value.parseBytes text.toUTF8.toList u = .ok v' ↔
        ∃ v, Doc u text.toList v ∧ v' = v.canon) ∧
    (∀ (u : Bool) (bs : List UInt8) (v' : Value),
      Schema.value.parseBytes bs u = .ok v' ↔
        ∃ text : String, bs = text.toUTF8.toList ∧
          Schema.value.parseBytes text.toUTF8.toList u = .ok v') ∧
    (∀ (u : Bool) (cs t : List Char) (x : Double), Elem u cs (.number x) t →
      ∃ neg ints fp fracs ep e, cs = (if neg then ['-'] else []) ++ ints ++ fp ++ ep ++ t ∧
        IntDigits ints ∧ FracPart fp fracs ∧ ExpPart ep e ∧
        Double.RoundsTo neg (literalValue neg ints fracs e) x) ∧
    (∀ (ms : List (String × Value)) (k : String), ∃ ms',
      (Value.object ms).canon = .object ms' ∧
        ms'.lookup k = (ms.reverse.lookup k).map Value.canon) := by
  refine ⟨fun u text v' => parseBytes_text_iff, fun u bs v' => ?_,
    fun u cs t x h => h.number_roundsTo, fun ms k => ⟨_, rfl, ?_⟩⟩
  · -- bytes are read only when they decode to a text, which is then read
    rw [parseBytes_iff]
    constructor
    · rintro ⟨text, rfl, hv⟩
      exact ⟨text, rfl, parseBytes_text_iff.2 hv⟩
    · rintro ⟨text, rfl, hv⟩
      exact ⟨text, rfl, parseBytes_text_iff.1 hv⟩
  · -- a name in the rebuilt map holds the value of its last member
    rw [lookup_canonMembers]
    simp

/-- The literal `1`, a number of the grammar, denotes the double nearest to one. -/
theorem parseBytes_reads_json_text_one :
    ∃ x : Double, Elem false ['1'] (.number x) [] ∧
      ∃ neg ints fp fracs ep e, ['1'] = (if neg then ['-'] else []) ++ ints ++ fp ++ ep ++ [] ∧
        IntDigits ints ∧ FracPart fp fracs ∧ ExpPart ep e ∧
        Double.RoundsTo neg (literalValue neg ints fracs e) x := by
  have hnum : Elem false ['1'] (.number (Decimal.toDouble ⟨false, digitsValue (['1'] ++ []),
      0 - ([] : List Char).length⟩)) [] :=
    .number (@NumLit.mk false ['1'] [] [] [] [] 0 (.inr ⟨'1', [], rfl, by decide, by decide, by simp⟩)
      .none .none)
  exact ⟨_, hnum, parseBytes_reads_json_text.2.2.1 false _ _ _ hnum⟩

end JsonCodec
