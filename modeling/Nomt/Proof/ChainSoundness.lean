import Nomt.Proof.Chain
import Nomt.Proof.BatchSoundness

/-!
# Soundness of successive batches

A verifier that knows only the first root checks batch after batch, each against the root the
batch before it produced (`verifyUpdates`).  The path proofs it is handed are not to be
trusted: each need only verify against the root the verifier holds when it reaches the batch
(`VerifiedRun`).  Under the oracle contract, whenever the verifier accepts the whole run, the
root it ends at is the root of the well-formed trie the batches' operations leave, one batch
after another, and that trie's map is the first one overwritten batch by batch
(`verifyUpdates_sound`).  Each batch is checked by `verify_update`, whose operations are then on
distinct keys, so the trie stays well formed from batch to batch.
-/

namespace Nomt

variable {Node : Type} [Zero Node] [DecidableEq Node]

/-- A run of batches whose paths are verified proofs: each path of a batch verifies against the
root the verifier holds when it reaches the batch, which is the root `verify_update` returned
for the batch before it. -/
def VerifiedRun (H : NodeHasher Node) : Node → List (List (PathUpdate Node)) → Prop
  | _, [] => True
  | root, paths :: batches =>
    (∀ u ∈ paths, ∃ (proof : PathProof Node) (keyPath : List Bool),
      proof.verify H keyPath root = .ok u.inner) ∧
    ∀ root', verifyUpdate H root paths = .ok root' → VerifiedRun H root' batches

/-- Soundness of successive batches: under the oracle contract, a verifier that accepts a run of
batches, each path of which verifies against the root it then holds, ends at the root of the
well-formed trie the batches' operations leave, whose map is the first one overwritten batch by
batch. -/
theorem verifyUpdates_sound (H : NodeHasher Node) (hH : H.Contract) {T : Trie Node}
    (hT : T.WellFormed) {batches : List (List (PathUpdate Node))}
    (hrun : VerifiedRun H (T.hash H) batches) {root : Node}
    (hroot : verifyUpdates H (T.hash H) batches = .ok root) :
  root = ((batches.map (·.flatMap (·.ops))).foldl Trie.applyOps T).hash H ∧
    ((batches.map (·.flatMap (·.ops))).foldl Trie.applyOps T).WellFormed ∧
    ((batches.map (·.flatMap (·.ops))).foldl Trie.applyOps T).get =
      (batches.map (·.flatMap (·.ops))).foldl overwrite T.get
  := by
  induction batches generalizing T with
  | nil => exact ⟨(Except.ok.inj hroot).symm, hT, rfl⟩
  | cons paths batches ih =>
    rw [verifyUpdates] at hroot
    cases hr : verifyUpdate H (T.hash H) paths with
    | error e =>
      rw [hr] at hroot
      cases hroot
    | ok r =>
      rw [hr] at hroot
      -- the first batch leads to the root of the trie after its operations
      obtain ⟨hnodup, rfl⟩ :=
        nodup_and_eq_hash_applyOps_of_verifyUpdate H hH T hT paths hrun.1 r hr
      obtain ⟨hroot', hwf, hget⟩ := ih (wellFormed_applyOps hT hnodup) (hrun.2 _ hr) hroot
      refine ⟨hroot', hwf, ?_⟩
      rw [List.map_cons, List.foldl_cons, List.foldl_cons, hget, funext (get_applyOps hT hnodup)]

/-- One insertion into the empty trie, on its one path, is a verified run the verifier
accepts. -/
theorem verifyUpdates_sound_insert :
  freeHasher.Contract ∧ (Trie.empty : Trie FreeNode).WellFormed ∧
    VerifiedRun freeHasher ((Trie.empty : Trie FreeNode).hash freeHasher)
      [[⟨⟨[], none, [], 0, rfl, by decide⟩,
        [(⟨List.replicate 256 false, List.length_replicate 256 false⟩, some .terminator)]⟩]] ∧
    verifyUpdates freeHasher ((Trie.empty : Trie FreeNode).hash freeHasher)
        [[⟨⟨[], none, [], 0, rfl, by decide⟩,
          [(⟨List.replicate 256 false, List.length_replicate 256 false⟩, some .terminator)]⟩]] =
      .ok (freeHasher.hashLeaf ⟨⟨List.replicate 256 false, List.length_replicate 256 false⟩,
        .terminator⟩) ∧
    (freeHasher.hashLeaf ⟨⟨List.replicate 256 false, List.length_replicate 256 false⟩,
        .terminator⟩ =
      (([[(⟨⟨[], none, [], 0, rfl, by decide⟩,
          [(⟨List.replicate 256 false, List.length_replicate 256 false⟩, some .terminator)]⟩ :
            PathUpdate FreeNode)]].map (·.flatMap (·.ops))).foldl Trie.applyOps
        Trie.empty).hash freeHasher ∧
      (([[(⟨⟨[], none, [], 0, rfl, by decide⟩,
          [(⟨List.replicate 256 false, List.length_replicate 256 false⟩, some .terminator)]⟩ :
            PathUpdate FreeNode)]].map (·.flatMap (·.ops))).foldl Trie.applyOps
        (Trie.empty : Trie FreeNode)).WellFormed ∧
      (([[(⟨⟨[], none, [], 0, rfl, by decide⟩,
          [(⟨List.replicate 256 false, List.length_replicate 256 false⟩, some .terminator)]⟩ :
            PathUpdate FreeNode)]].map (·.flatMap (·.ops))).foldl Trie.applyOps
        (Trie.empty : Trie FreeNode)).get =
        ([[(⟨⟨[], none, [], 0, rfl, by decide⟩,
          [(⟨List.replicate 256 false, List.length_replicate 256 false⟩, some .terminator)]⟩ :
            PathUpdate FreeNode)]].map (·.flatMap (·.ops))).foldl overwrite
          (Trie.empty : Trie FreeNode).get)
  := by
  have hrun : VerifiedRun freeHasher ((Trie.empty : Trie FreeNode).hash freeHasher)
      [[⟨⟨[], none, [], 0, rfl, by decide⟩,
        [(⟨List.replicate 256 false, List.length_replicate 256 false⟩, some .terminator)]⟩]] := by
    refine ⟨?_, fun _ _ => trivial⟩
    simp only [List.mem_singleton]
    rintro u rfl
    exact ⟨⟨.terminator ⟨[]⟩, []⟩, [], rfl⟩
  have hroot : verifyUpdates freeHasher ((Trie.empty : Trie FreeNode).hash freeHasher)
      [[⟨⟨[], none, [], 0, rfl, by decide⟩,
        [(⟨List.replicate 256 false, List.length_replicate 256 false⟩, some .terminator)]⟩]] =
      .ok (freeHasher.hashLeaf ⟨⟨List.replicate 256 false, List.length_replicate 256 false⟩,
        .terminator⟩) := rfl
  exact ⟨freeHasher_contract, trivial, hrun, hroot,
    verifyUpdates_sound freeHasher freeHasher_contract (T := .empty) trivial hrun hroot⟩

end Nomt
