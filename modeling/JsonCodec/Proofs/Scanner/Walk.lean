import JsonCodec.Proofs.Scanner.Step

/-! # The scanner follows the walks of the text it reads

Over the UTF-8 bytes of a text that the grammar derives (`Grammar.Doc`), the scanner does what a
walk of the document's tree does (`follows_walk`), so every theorem proved of readers over sources
that follow walks holds of it.

What ties a scanner to a walk is the text it has left. `Cont u fs cs` says what the containers
`fs` around a value demand of the text after it: the rest of each container's body, innermost
first, and then white space to the end. `Remains u w cs` says what text is left where the walk
`w` stands: white space and the value it stands on, then what the containers demand; or the
body of a container just entered; or only what the containers demand. A scanner `Follows` a walk
when it holds no token and its bytes encode such a text, or when it holds the token of the walk's
next value and its bytes encode what is left once that value is taken.
-/

namespace JsonCodec.Scanner
open Grammar Utf8

/-- What the containers around a value demand of the text after it. -/
inductive Cont (u : Bool) : List TreeFrame → List Char → Prop where
  | root {cs : List Char} : Ws u cs [] → Cont u [] cs
  | array {cs cs₁ : List Char} {vs : List Value} {fs : List TreeFrame} :
      ArrTail u cs vs cs₁ → Cont u fs cs₁ → Cont u (.array vs :: fs) cs
  | object {cs cs₁ : List Char} {ms : List (String × Value)} {fs : List TreeFrame} :
      ObjTail u cs ms cs₁ → Cont u fs cs₁ → Cont u (.object ms :: fs) cs

/-- The text left where a reader stands on a walk. -/
inductive Remains (u : Bool) : Walk → List Char → Prop where
  | value {cs cs₁ cs₂ : List Char} {v : Value} {fs : List TreeFrame} :
      Ws u cs cs₁ → Elem u cs₁ v cs₂ → Cont u fs cs₂ → Remains u ⟨some v, fs, false⟩ cs
  | array {cs cs₁ : List Char} {vs : List Value} {fs : List TreeFrame} :
      ArrBody u cs vs cs₁ → Cont u fs cs₁ → Remains u ⟨none, .array vs :: fs, true⟩ cs
  | object {cs cs₁ : List Char} {ms : List (String × Value)} {fs : List TreeFrame} :
      ObjBody u cs ms cs₁ → Cont u fs cs₁ → Remains u ⟨none, .object ms :: fs, true⟩ cs
  | after {cs : List Char} {fs : List TreeFrame} : Cont u fs cs → Remains u ⟨none, fs, false⟩ cs

/-- The text the containers demand is at least as long as the nodes still to come in them. -/
theorem Cont.size_le {u : Bool} {fs : List TreeFrame} {cs : List Char} (h : Cont u fs cs) :
    Walk.framesSize fs ≤ cs.length := by
  induction h with
  | root => simp
  | array ht _ ih =>
    have := ht.size_le
    simp only [Walk.framesSize_cons, TreeFrame.size]
    omega
  | object ht _ ih =>
    have := ht.size_le
    simp only [Walk.framesSize_cons, TreeFrame.size]
    omega

/-- What follows a value inside its containers never continues a word or a number. -/
theorem Cont.wordEnd {u : Bool} {fs : List TreeFrame} {cs : List Char} (h : Cont u fs cs) :
    WordEnd cs := by
  cases h with
  | root hw => exact hw.wordEnd (by intro c t he; cases he)
  | array ht _ => exact ht.wordEnd
  | object ht _ => exact ht.wordEnd

/-- The white space after a value can be stepped over: what follows ends the input exactly when
no container is open. -/
theorem Cont.strip {u : Bool} {fs : List TreeFrame} {cs : List Char} (h : Cont u fs cs) :
    ∃ cs', Ws u cs cs' ∧ NoWs u cs' ∧ cs'.isEmpty = fs.isEmpty ∧ Cont u fs cs' := by
  cases h with
  | root hw =>
    refine ⟨[], hw, ?_, rfl, .root (.nil _)⟩
    intro c t he
    cases he
  | array ht hc =>
    obtain ⟨cs', hw, hn, hne, ht'⟩ := ht.strip
    exact ⟨cs', hw, hn, by simpa using hne, .array ht' hc⟩
  | object ht hc =>
    obtain ⟨cs', hw, hn, hne, ht'⟩ := ht.strip
    exact ⟨cs', hw, hn, by simpa using hne, .object ht' hc⟩

/-- The text left where a walk stands is at least as long as the nodes still to come on it. -/
theorem Remains.size_le {u : Bool} {w : Walk} {cs : List Char} (h : Remains u w cs) :
    w.size ≤ cs.length := by
  -- each node of the value and of what the containers hold takes at least one character
  cases h with
  | value hw he hc =>
    have h₁ := hw.length_le
    have h₂ := he.size_le
    have h₃ := hc.size_le
    simp only [Walk.size, Option.map_some, Option.getD_some]
    omega
  | array hb hc =>
    have h₁ := hb.size_le
    have h₂ := hc.size_le
    simp only [Walk.size, Option.map_none, Option.getD_none, Walk.framesSize_cons, TreeFrame.size]
    omega
  | object hb hc =>
    have h₁ := hb.size_le
    have h₂ := hc.size_le
    simp only [Walk.size, Option.map_none, Option.getD_none, Walk.framesSize_cons, TreeFrame.size]
    omega
  | after hc =>
    have := hc.size_le
    simp only [Walk.size, Option.map_none, Option.getD_none]
    omega

/-- The scanner stands where the walk stands: with no token held and the text left that the walk
demands, or holding the token of the walk's next value with the text left after it. -/
inductive Follows (u : Bool) : Scanner → Walk → Prop where
  | clear {s : Scanner} {w : Walk} {cs : List Char} : s.At u cs → Remains u w cs → Follows u s w
  | held {s : Scanner} {w : Walk} {t : Token} {v : Value} {cs : List Char} :
      s.pending = some t → s.unicodeSpace = u → s.rest = encode cs → w.current = some v →
      t.erase = TreeSource.nodeToken v → Remains u w.take cs → Follows u s w

/-- Where the walk stands on a value, the next token is that value's, and what is left is what
the walk demands once the value is taken. -/
theorem Remains.next {s : Scanner} {u : Bool} {w : Walk} {cs : List Char} {v : Value}
    (h : s.At u cs) (hr : Remains u w cs) (hc : w.current = some v) :
    ∃ tok s' cs', (next).run s = .ok tok s' ∧ tok.erase = TreeSource.nodeToken v ∧
      s'.At u cs' ∧ Remains u w.take cs' := by
  cases hr with
  | value hw he hcont =>
    cases hc
    -- a scalar is read whole and the walk steps past it; a container's bracket or brace is read
    -- and the walk enters it
    by_cases hv : TreeSource.nodeFrame v = none
    · obtain ⟨tok, s', hrun, herase, hat⟩ := next_scalar h hw he hcont.wordEnd hv
      refine ⟨tok, s', _, hrun, herase, hat, ?_⟩
      rw [Walk.take_eq_skip rfl hv]
      exact .after hcont
    · cases he with
      | array hb =>
        obtain ⟨s', hrun, hat⟩ := next_array h hw
        exact ⟨_, s', _, hrun, rfl, hat, .array hb hcont⟩
      | object hb =>
        obtain ⟨s', hrun, hat⟩ := next_object h hw
        exact ⟨_, s', _, hrun, rfl, hat, .object hb hcont⟩
      | _ => exact absurd rfl hv
  -- standing in a container or after a value, the walk has no value in hand
  | array => cases hc
  | object => cases hc
  | after => cases hc

/-- A token the scanner yields passes as the next value wherever its kind is admitted. -/
theorem nextValue_run {s s' : Scanner} {t : Token} {desired : Option Kind} {allowNull : Bool}
    (hn : (next).run s = .ok t s') (hk : t.kind.admits desired allowNull) :
    (Source.nextValue desired allowNull).run s = .ok t s' := by
  simp [Source.nextValue, hn, Token.check_of_admits hk]

/-- A token that stands for a node has the node's kind. -/
theorem kind_of_erase {t : Token} {v : Value} (h : t.erase = TreeSource.nodeToken v) :
    t.kind = v.kind := by
  rw [← Token.erase_kind, h, nodeToken_kind]


/-- Where the walk stands on a value of a kind the caller admits, the scanner yields that value's
token and the walk takes it. -/
theorem follows_nextValue {u : Bool} {s : Scanner} {w : Walk} {v : Value} {desired : Option Kind}
    {allowNull : Bool} (hf : Follows u s w) (hc : w.current = some v)
    (hk : v.kind.admits desired allowNull) :
    ∃ t s', (Source.nextValue desired allowNull).run s = .ok t s' ∧
      t.erase = TreeSource.nodeToken v ∧ Follows u s' w.take := by
  cases hf with
  | clear hat hr =>
    -- the scanner reads the value's token now
    obtain ⟨tok, s', cs', hrun, herase, hat', hr'⟩ := hr.next hat hc
    refine ⟨tok, s', nextValue_run hrun ?_, herase, .clear hat' hr'⟩
    rw [kind_of_erase herase]
    exact hk
  | held hp hu hr hc' herase hrem =>
    -- a look put the value's token back, and the scanner hands it out
    rw [hc, Option.some.injEq] at hc'
    subst hc'
    refine ⟨_, _, nextValue_run (next_held hp) ?_, herase, .clear ⟨rfl, hu, hr⟩ hrem⟩
    rw [kind_of_erase herase]
    exact hk

/-- Looking at the next value's kind gives the kind of the node the walk stands on, and the walk
stays. -/
theorem follows_peekKind {u : Bool} {s : Scanner} {w : Walk} {v : Value} (hf : Follows u s w)
    (hc : w.current = some v) : ∃ s', (Source.peekKind).run s = .ok v.kind s' ∧ Follows u s' w := by
  cases hf with
  | clear hat hr =>
    obtain ⟨tok, s', cs', hrun, herase, hat', hr'⟩ := hr.next hat hc
    refine ⟨{ s' with pending := some tok }, ?_, .held rfl hat'.2.1 hat'.2.2 hc herase hr'⟩
    show (peekKind).run s = _
    rw [peekKind_run hrun, kind_of_erase herase]
  | held hp hu hr hc' herase hrem =>
    rw [hc, Option.some.injEq] at hc'
    subst hc'
    refine ⟨{ s with pending := some _ }, ?_, .held rfl hu hr hc herase hrem⟩
    show (peekKind).run s = _
    rw [peekKind_run (next_held hp), kind_of_erase herase]

/-- Stepping an array the walk stands in answers whether an element follows, and moves the walk one
container step. -/
theorem follows_arrayNext {u : Bool} {s : Scanner} {w : Walk} {items : List Value}
    {fs : List TreeFrame} (hf : Follows u s w) (hc : w.current = none)
    (hfr : w.frames = .array items :: fs) :
    ∃ s', (Source.arrayNext w.fresh).run s = .ok (!items.isEmpty) s' ∧ Follows u s' w.step := by
  cases hf with
  | held _ _ _ hc' => rw [hc] at hc'; cases hc'
  | clear hat hr =>
    cases hr with
    | value => cases hc
    | object => cases hfr
    | array hb hcont =>
      -- just inside the bracket: the body is empty or starts with a value
      simp only [List.cons.injEq, TreeFrame.array.injEq] at hfr
      obtain ⟨rfl, rfl⟩ := hfr
      cases hb with
      | empty hw =>
        obtain ⟨s', hrun, hat'⟩ := arrayNext_close hat hw true
        exact ⟨s', hrun, .clear hat' (.after hcont)⟩
      | items hw he ht =>
        obtain ⟨s', hrun, hat'⟩ := arrayNext_first hat hw he
        exact ⟨s', hrun, .clear hat' (.value (.nil _) he (.array ht hcont))⟩
    | after hcont =>
      -- after an element: the bracket closes, or a comma leads to the next one
      cases hcont with
      | root => cases hfr
      | object => cases hfr
      | array ht hcont =>
        simp only [List.cons.injEq, TreeFrame.array.injEq] at hfr
        obtain ⟨rfl, rfl⟩ := hfr
        cases ht with
        | close hw =>
          obtain ⟨s', hrun, hat'⟩ := arrayNext_close hat hw false
          exact ⟨s', hrun, .clear hat' (.after hcont)⟩
        | next hw hw₁ he ht =>
          obtain ⟨s', hrun, hat'⟩ := arrayNext_comma hat hw
          exact ⟨s', hrun, .clear hat' (.value hw₁ he (.array ht hcont))⟩


/-- Stepping an object the walk stands in gives the next member's name if there is one, and moves
the walk one container step. -/
theorem follows_objectNext {u : Bool} {s : Scanner} {w : Walk} {members : List (String × Value)}
    {fs : List TreeFrame} (hf : Follows u s w) (hc : w.current = none)
    (hfr : w.frames = .object members :: fs) :
    ∃ n s', (Source.objectNext w.fresh).run s = .ok n s' ∧
      n.map Text.str = members.head?.map Prod.fst ∧ Follows u s' w.step := by
  cases hf with
  -- the walk stands on no value, so the scanner holds no token
  | held _ _ _ hc' => rw [hc] at hc'; cases hc'
  | clear hat hr =>
    cases hr with
    | value => cases hc
    | array => cases hfr
    | object hb hcont =>
      -- just inside the brace: the body is empty or starts with a member
      simp only [List.cons.injEq, TreeFrame.object.injEq] at hfr
      obtain ⟨rfl, rfl⟩ := hfr
      cases hb with
      | empty hw =>
        obtain ⟨s', hrun, hat'⟩ := objectNext_close hat hw true
        exact ⟨none, s', hrun, rfl, .clear hat' (.after hcont)⟩
      | members hw hm ht =>
        obtain ⟨name, s', cs₂, cs₃, hrun, hname, hat', hw', he'⟩ := objectNext_first hat hw hm
        refine ⟨some name, s', hrun, by simp [hname], ?_⟩
        exact .clear hat' (.value hw' he' (.object ht hcont))
    | after hcont =>
      -- after a member: the brace closes, or a comma leads to the next one
      cases hcont with
      | root => cases hfr
      | array => cases hfr
      | object ht hcont =>
        simp only [List.cons.injEq, TreeFrame.object.injEq] at hfr
        obtain ⟨rfl, rfl⟩ := hfr
        cases ht with
        | close hw =>
          obtain ⟨s', hrun, hat'⟩ := objectNext_close hat hw false
          exact ⟨none, s', hrun, rfl, .clear hat' (.after hcont)⟩
        | next hw hw₁ hm ht =>
          obtain ⟨name, s', cs₂, cs₃, hrun, hname, hat', hw', he'⟩ :=
            objectNext_comma hat hw hw₁ hm
          refine ⟨some name, s', hrun, by simp [hname], ?_⟩
          exact .clear hat' (.value hw' he' (.object ht hcont))

/-- The scanner is at the end of its input exactly when the walk is, and looking leaves the walk
where it is. -/
theorem follows_isEof {u : Bool} {s : Scanner} {w : Walk} (hf : Follows u s w) :
    (Source.isEof s).1 = w.atEnd ∧ Follows u (Source.isEof s).2 w := by
  show s.isEof.1 = w.atEnd ∧ Follows u s.isEof.2 w
  cases hf with
  | held hp hu hr hc herase hrem =>
    -- a token put back is not the end, and the walk stands on its value
    rw [isEof_held hp]
    exact ⟨by simp [Walk.atEnd, hc], .held hp hu hr hc herase hrem⟩
  | clear hat hr =>
    -- past the white space, the text left is empty exactly when no value and no container remain
    cases hr with
    | value hw he hcont =>
      obtain ⟨c, rest, rfl, -⟩ := he.head
      obtain ⟨hend, hat'⟩ := isEof_at hat hw he.noWs
      exact ⟨by simp [hend, Walk.atEnd], .clear hat' (.value (.nil _) he hcont)⟩
    | array hb hcont =>
      obtain ⟨cs', hw, hn, hne, hb'⟩ := hb.strip
      obtain ⟨hend, hat'⟩ := isEof_at hat hw hn
      exact ⟨by simp [hend, hne, Walk.atEnd], .clear hat' (.array hb' hcont)⟩
    | object hb hcont =>
      obtain ⟨cs', hw, hn, hne, hb'⟩ := hb.strip
      obtain ⟨hend, hat'⟩ := isEof_at hat hw hn
      exact ⟨by simp [hend, hne, Walk.atEnd], .clear hat' (.object hb' hcont)⟩
    | after hcont =>
      obtain ⟨cs', hw, hn, hemp, hcont'⟩ := hcont.strip
      obtain ⟨hend, hat'⟩ := isEof_at hat hw hn
      exact ⟨by simp [hend, hemp, Walk.atEnd], .clear hat' (.after hcont')⟩

/-- The scanner's budget covers the nodes the walk still has to visit. -/
theorem follows_budget {u : Bool} {s : Scanner} {w : Walk} (hf : Follows u s w) :
    w.size ≤ Source.budget s := by
  show w.size ≤ s.budget
  have hlen : ∀ cs, s.rest = encode cs → cs.length ≤ s.size - s.pos := fun cs hr => by
    rw [← rest_length, hr]
    exact length_le_encode cs
  -- each node to come takes at least one byte, and a token put back counts one more
  cases hf with
  | clear hat hr =>
    have := hr.size_le
    have := hlen _ hat.2.2
    simp only [budget, hat.1, Option.isSome_none, Bool.false_eq_true, if_false]
    omega
  | held hp _ hr hc _ hrem =>
    have := hrem.size_le
    have := hlen _ hr
    have := Walk.size_take hc
    simp only [budget, hp, Option.isSome_some, if_true]
    omega

/-- Scanners follow the walks of well-formed text. -/
theorem follows_walk (u : Bool) : FollowsWalk (Follows u) where
  nextValue := follows_nextValue
  peekKind := follows_peekKind
  arrayNext := follows_arrayNext
  objectNext := follows_objectNext
  isEof := follows_isEof
  budget := follows_budget

/-- A scanner at the start of a document's bytes stands on the document's root. -/
theorem follows_ofBytes {u : Bool} {cs : List Char} {v : Value} (hd : Doc u cs v) :
    Follows u (ofBytes (encode cs) u) (Walk.start v) := by
  obtain ⟨cs₁, cs₂, hw, he, hw₂⟩ := hd
  exact .clear ⟨rfl, rfl, rfl⟩ (.value hw he (.root hw₂))

/-- A scanner at the start of a document's text stands on the document's root. -/
theorem follows_ofString {u : Bool} {s : String} {v : Value} (hd : Doc u s.toList v) :
    Follows u (ofString s u) (Walk.start v) := by
  have h := follows_ofBytes hd
  rwa [← toUTF8_ofList, String.ofList_toList] at h

end JsonCodec.Scanner
