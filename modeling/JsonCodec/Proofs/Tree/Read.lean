import JsonCodec.Proofs.Reader.Walk
import JsonCodec.Proofs.Tree.Walk

/-! # Reading a tree back

A reader builds every object it reads as a map: members sorted by name, each name once
(`Value.canon`). A tree whose objects already are such maps (`Value.isCanonical`) is its own
canonical form (`Value.canon_of_isCanonical`), since inserting a member whose name comes after
every name before it appends it (`insertEntry_of_lt`).

So reading a value whole from a tree held in memory gives the tree back, node for node and number
for number, with or without coercion of scalars, and leaves the source at its end, inside no
container (`TreeSource.value_reads_tree`).
-/

namespace JsonCodec

mutual
/-- Whether every object of a value is a map: its members strictly sorted by name. -/
def Value.isCanonical : Value → Bool
  | .array items => Value.itemsCanonical items
  | .object members =>
    decide ((members.map Prod.fst).Pairwise (· < ·)) && Value.membersCanonical members
  | _ => true

/-- `Value.isCanonical` of every element of a list. -/
def Value.itemsCanonical : List Value → Bool
  | [] => true
  | v :: rest => v.isCanonical && Value.itemsCanonical rest

/-- `Value.isCanonical` of the value of every member of a list. -/
def Value.membersCanonical : List (String × Value) → Bool
  | [] => true
  | (_, v) :: rest => v.isCanonical && Value.membersCanonical rest
end

/-- A member whose name comes after every name of a map goes at its end. -/
theorem insertEntry_of_lt {α : Type} {k : String} (v : α) :
    ∀ acc : List (String × α), (∀ e ∈ acc, e.1 < k) → insertEntry k v acc = acc ++ [(k, v)]
  | [], _ => rfl
  | (k', w) :: rest, h => by
    have hlt : k' < k := h _ List.mem_cons_self
    have hrest := insertEntry_of_lt v rest fun e he => h e (List.mem_cons_of_mem _ he)
    simp [insertEntry, not_lt_of_gt hlt, hlt.ne', hrest]

mutual
/-- A value whose objects are maps is its own canonical form. -/
theorem Value.canon_of_isCanonical : (v : Value) → v.isCanonical → v.canon = v
  | .array items, h => by
    rw [Value.canon, Value.canonItems_of_itemsCanonical items h]
  | .object members, h => by
    simp only [Value.isCanonical, Bool.and_eq_true, decide_eq_true_eq] at h
    rw [Value.canon, Value.canonMembers_of_membersCanonical [] members (by simp) h.1 h.2,
      List.nil_append]
  | .null, _ => rfl
  | .bool _, _ => rfl
  | .number _, _ => rfl
  | .string _, _ => rfl

/-- Elements whose objects are all maps are their own canonical form. -/
theorem Value.canonItems_of_itemsCanonical :
    (items : List Value) → Value.itemsCanonical items → Value.canonItems items = items
  | [], _ => rfl
  | v :: rest, h => by
    simp only [Value.itemsCanonical, Bool.and_eq_true] at h
    rw [Value.canonItems, Value.canon_of_isCanonical v h.1,
      Value.canonItems_of_itemsCanonical rest h.2]

/-- Inserting members in increasing order of name into a map whose names all come before
theirs appends them. -/
theorem Value.canonMembers_of_membersCanonical : (acc members : List (String × Value)) →
    (∀ e ∈ acc, ∀ m ∈ members, e.1 < m.1) → (members.map Prod.fst).Pairwise (· < ·) →
    Value.membersCanonical members → Value.canonMembers acc members = acc ++ members
  | acc, [], _, _, _ => by simp [Value.canonMembers]
  | acc, (k, v) :: rest, hacc, hsort, h => by
    simp only [Value.membersCanonical, Bool.and_eq_true] at h
    simp only [List.map_cons, List.pairwise_cons, List.mem_map] at hsort
    -- the first member goes after `acc`, and every later one after it
    have hlast : ∀ e ∈ acc ++ [(k, v)], ∀ m ∈ rest, e.1 < m.1 := by
      intro e he m hm
      rcases List.mem_append.1 he with he | he
      · exact hacc e he m (List.mem_cons_of_mem _ hm)
      · rw [List.mem_singleton.1 he]
        exact hsort.1 m.1 ⟨m, hm, rfl⟩
    rw [Value.canonMembers, Value.canon_of_isCanonical v h.1,
      insertEntry_of_lt v acc (fun e he => hacc e he _ List.mem_cons_self),
      Value.canonMembers_of_membersCanonical _ rest hlast hsort.2 h.2]
    simp
end

namespace TreeSource

/-- Reading a value whole from a tree whose objects are maps gives the tree back, with or without
coercion: the same nodes, and every number with the same bits. The source is then at its end,
inside no container. -/
theorem value_reads_tree (v : Value) (hv : v.isCanonical) (coerce : Bool) :
    ∃ t, (Reader.value : ReadM TreeSource Value).run (Reader.ofSource (ofValue v coerce)) =
        .ok v ⟨t, false⟩ ∧
      (Reader.isEof : ReadM TreeSource Bool).run ⟨t, false⟩ = .ok true ⟨t, false⟩ ∧
      t.frames.length = 0 := by
  obtain ⟨t, hrun, ht⟩ := Reader.value_run (r := Reader.ofSource (ofValue v coerce)) tracks_follows
    (tracks_ofValue v coerce) (show (Walk.start v).current = some v from rfl)
  -- the root is consumed: no node is left and no container is open
  have hc : t.current = none := ht.1
  have hf : t.frames = [] := ht.2.1
  refine ⟨t, by rw [hrun, Value.canon_of_isCanonical v hv], ?_, by simp [hf]⟩
  simp [Reader.isEof, EStateM.run, Source.isEof, hc, hf]

/-- The map `{"a": [null, 2.5], "b": true}` is read back from memory as it is. -/
theorem value_reads_tree_map :
    (Value.object [("a", .array [.null, .number ⟨0x4004000000000000⟩]),
      ("b", .bool true)]).isCanonical ∧
    ∃ t, (Reader.value : ReadM TreeSource Value).run (Reader.ofSource (ofValue
        (.object [("a", .array [.null, .number ⟨0x4004000000000000⟩]), ("b", .bool true)]) true)) =
        .ok (.object [("a", .array [.null, .number ⟨0x4004000000000000⟩]), ("b", .bool true)])
          ⟨t, false⟩ ∧
      (Reader.isEof : ReadM TreeSource Bool).run ⟨t, false⟩ = .ok true ⟨t, false⟩ ∧
      t.frames.length = 0 :=
  ⟨by decide, value_reads_tree _ (by decide) true⟩

end TreeSource

end JsonCodec
