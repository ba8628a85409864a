import JsonCodec.Proofs.Reader.Plan
import JsonCodec.Proofs.Tree.Walk
import JsonCodec.Proofs.Scanner.Walk

/-! # The cursor contract on whole documents

A client reading a whole document runs its plan on the root and then checks that nothing is
left (`Plan.runDocument`). The root has to be read: a plan that leaves it is a client that does
nothing.

Three kinds of source are covered: a tree in memory, with or without coercion of scalars, and
the text or the UTF-8 bytes of a well-formed JSON text, with either white-space option. Each
follows the walks of its document (`TreeSource.tracks_follows`, `Scanner.follows_walk`), so the
contract for plans over any such source (`Plan.run_fits`) applies to all three, and after the
root the walk is at its end, so the final check passes (`Plan.runDocument_fits`).
-/

namespace JsonCodec

namespace Plan

variable {σ : Type} [Source σ]

/-- A client reading a whole document: the plan on the root, then the check for its end. -/
def runDocument (p : Plan) : ReadM σ (List Event) := do
  let evs ← p.run
  Reader.finish
  return evs

/-- Over any source that stands on the root of its walk, a plan that fits the root and reads it
runs to the end of the document and records what `Plan.expect` says. -/
theorem runDocument_fits {R : σ → Walk → Prop} (hR : FollowsWalk R) {s : σ} {v : Value}
    {p : Plan} (hs : R s (Walk.start v)) (hp : p.fits v) (hl : p.leaves = false) :
    ∃ r', (p.runDocument).run (Reader.ofSource s) = .ok (p.expect v) r' := by
  obtain ⟨s₁, hrun, hs₁⟩ := Plan.run_fits hR p v (Reader.ofSource s) (Walk.start v) hp hs rfl
  simp only [hl, Bool.false_and, Bool.false_eq_true, if_false] at hrun hs₁
  -- the root is consumed, so the walk has nothing left
  have hend : (Walk.start v).skip.atEnd = true := rfl
  obtain ⟨s₂, hfin, -⟩ := Reader.finish_run (r := ⟨s₁, false⟩) hR hs₁ hend
  refine ⟨⟨s₂, false⟩, ?_⟩
  simp [runDocument, hrun, hfin]

end Plan

open Grammar in
/-- The streaming cursor contract. A plan that fits a document's root and reads it runs without
failure to the end of the document and records exactly `Plan.expect`, whether the document is
a tree (with or without coercion) or a well-formed text, given as a string or as its UTF-8
bytes, with either white-space option. -/
theorem cursor_contract :
    (∀ (v : Value) (coerce : Bool) (p : Plan), p.fits v → p.leaves = false →
      ∃ r', (p.runDocument).run (Reader.ofSource (TreeSource.ofValue v coerce)) =
        .ok (p.expect v) r') ∧
    (∀ (u : Bool) (text : String) (v : Value) (p : Plan), Doc u text.toList v → p.fits v →
      p.leaves = false →
      ∃ r', (p.runDocument).run (Reader.ofSource (Scanner.ofString text u)) =
        .ok (p.expect v) r') ∧
    (∀ (u : Bool) (cs : List Char) (v : Value) (p : Plan), Doc u cs v → p.fits v →
      p.leaves = false →
      ∃ r', (p.runDocument).run (Reader.ofSource (Scanner.ofBytes (Utf8.encode cs) u)) =
        .ok (p.expect v) r') := by
  -- one contract for every source that follows walks; a tree follows its own, and a scanner those
  -- of the text it reads
  refine ⟨?_, ?_, ?_⟩
  · intro v coerce p hp hl
    exact Plan.runDocument_fits TreeSource.tracks_follows (TreeSource.tracks_ofValue v coerce) hp hl
  · intro u text v p hd hp hl
    exact Plan.runDocument_fits (Scanner.follows_walk u) (Scanner.follows_ofString hd) hp hl
  · intro u cs v p hd hp hl
    exact Plan.runDocument_fits (Scanner.follows_walk u) (Scanner.follows_ofBytes hd) hp hl

open Grammar in
/-- Reading the first element of "[null,true]" and leaving the second, as a tree and as bytes. -/
theorem cursor_contract_first_of_two :
    (∃ r', ((Plan.array .plain [.read .null, .leave]).runDocument).run
        (Reader.ofSource (TreeSource.ofValue (.array [.null, .bool true]) false)) =
      .ok [.opened true, .stepped true, .unit, .stepped true, .stepped false] r') ∧
    (∃ r', ((Plan.array .plain [.read .null, .leave]).runDocument).run
        (Reader.ofSource (Scanner.ofBytes
          (Utf8.encode ['[', 'n', 'u', 'l', 'l', ',', 't', 'r', 'u', 'e', ']']) false)) =
      .ok [.opened true, .stepped true, .unit, .stepped true, .stepped false] r') :=
  ⟨cursor_contract.1 _ false _ (by decide) rfl,
    cursor_contract.2.2 false _ _ _
      ⟨_, _, .nil _, .array (.items (.nil _) (.null _) (.next (.nil _) (.nil _) (.true _)
        (.close (.nil _)))), .nil _⟩ (by decide) rfl⟩

end JsonCodec
