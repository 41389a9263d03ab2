import Nomt.Proof.Batch
import Nomt.Trie.Map

/-!
# Successive batches

A verifier who knows only the root follows the trie from batch to batch: it checks each
batch with `verify_update` against the root the previous one produced (`verifyUpdates`).  The
honest batches of a sequence of blocks of operations are each built against the trie the
blocks before it left (`Trie.batches`).  Each block leaves a well-formed trie whose map is the
previous one overwritten (`wellFormed_applyOps`, `get_applyOps`), so the next batch is honest
again, and along the whole run the verifier holds the root of the trie the blocks leave
(`verifyUpdates_batches`).
-/

namespace Nomt

variable {Node : Type} [Zero Node] [DecidableEq Node]

/-- The root after checking one batch after another, each against the root the previous one
produced, or the first error. -/
def verifyUpdates (H : NodeHasher Node) (root : Node) :
    List (List (PathUpdate Node)) → Except VerifyUpdateError Node
  | [] => .ok root
  | paths :: batches => do verifyUpdates H (← verifyUpdate H root paths) batches

/-- The honest batches of a sequence of blocks of operations, each built against the trie the
blocks before it left. -/
def Trie.batches (H : NodeHasher Node) (T : Trie Node) :
    List (List (KeyPath × Option Node)) →
      Except PathProofVerificationError (List (List (PathUpdate Node)))
  | [] => .ok []
  | ops :: blocks => do
    let paths ← T.batch H ops
    let rest ← (T.applyOps ops).batches H blocks
    pure (paths :: rest)

section Run

variable {T : Trie Node} {blocks : List (List (KeyPath × Option Node))}

omit [Zero Node] [DecidableEq Node] in
/-- Blocks of operations on distinct keys leave a well-formed trie well formed, and overwrite
its map block by block. -/
theorem get_foldl_applyOps (hT : T.WellFormed)
    (hblocks : ∀ ops ∈ blocks, (ops.map (·.1)).Nodup) :
  (blocks.foldl Trie.applyOps T).WellFormed ∧
    (blocks.foldl Trie.applyOps T).get = blocks.foldl overwrite T.get
  := by
  induction blocks generalizing T with
  | nil => exact ⟨hT, rfl⟩
  | cons ops blocks ih =>
    have hops := hblocks ops (List.mem_cons_self _ _)
    obtain ⟨hwf, hget⟩ := ih (wellFormed_applyOps hT hops) fun ops' h =>
      hblocks ops' (List.mem_cons_of_mem _ h)
    refine ⟨hwf, ?_⟩
    rw [List.foldl_cons, List.foldl_cons, hget, funext (get_applyOps hT hops)]

/-- Along a run of blocks of operations on distinct keys from a well-formed trie, the honest
batches are built, and checking them one after another from the first root ends at the root
of the trie the blocks leave. -/
theorem exists_batches_verifyUpdates (H : NodeHasher Node) (hH : H.Classifies)
    (hT : T.WellFormed) (hblocks : ∀ ops ∈ blocks, (ops.map (·.1)).Nodup) :
  ∃ batches, T.batches H blocks = .ok batches ∧
    verifyUpdates H (T.hash H) batches = .ok ((blocks.foldl Trie.applyOps T).hash H)
  := by
  induction blocks generalizing T with
  | nil => exact ⟨[], rfl, rfl⟩
  | cons ops blocks ih =>
    have hops := hblocks ops (List.mem_cons_self _ _)
    obtain ⟨paths, hbatch, hkeys, hpaths⟩ := exists_batch_eq_ok H hT ops
    obtain ⟨rest, hrest, hrun⟩ := ih (wellFormed_applyOps hT hops) fun ops' h =>
      hblocks ops' (List.mem_cons_of_mem _ h)
    refine ⟨paths :: rest, ?_, ?_⟩
    · rw [Trie.batches, hbatch]
      exact congrArg (· >>= fun rest => pure (paths :: rest)) hrest
    · rw [verifyUpdates, verifyUpdate_honest hH hT hops hkeys hpaths]
      exact hrun

/-- Along a run of blocks of operations on distinct keys from a well-formed trie, the honest
batches are built, and a verifier who checks them one after another, knowing only the first
root, ends at the root of the well-formed trie the blocks leave, whose map is the first
overwritten block by block. -/
theorem verifyUpdates_batches (H : NodeHasher Node) (hH : H.Classifies) (hT : T.WellFormed)
    (hblocks : ∀ ops ∈ blocks, (ops.map (·.1)).Nodup) :
  ∃ batches, T.batches H blocks = .ok batches ∧
    verifyUpdates H (T.hash H) batches = .ok ((blocks.foldl Trie.applyOps T).hash H) ∧
    (blocks.foldl Trie.applyOps T).WellFormed ∧
    (blocks.foldl Trie.applyOps T).get = blocks.foldl overwrite T.get
  := by
  obtain ⟨batches, hbatches, hrun⟩ := exists_batches_verifyUpdates H hH hT hblocks
  exact ⟨batches, hbatches, hrun, get_foldl_applyOps hT hblocks⟩

/-- An insertion into the empty trie and then the deletion of the same key run through
successive batches. -/
theorem verifyUpdates_batches_insert_delete :
  freeHasher.Classifies ∧ (Trie.empty : Trie FreeNode).WellFormed ∧
    (∀ ops ∈ ([[(⟨List.replicate 256 false, List.length_replicate 256 false⟩,
        some FreeNode.terminator)], [(⟨List.replicate 256 false, List.length_replicate 256 false⟩,
        none)]] : List (List (KeyPath × Option FreeNode))), (ops.map (·.1)).Nodup) ∧
    ∃ batches, (Trie.empty : Trie FreeNode).batches freeHasher
        [[(⟨List.replicate 256 false, List.length_replicate 256 false⟩, some .terminator)],
          [(⟨List.replicate 256 false, List.length_replicate 256 false⟩, none)]] = .ok batches ∧
      verifyUpdates freeHasher ((Trie.empty : Trie FreeNode).hash freeHasher) batches =
        .ok (([[(⟨List.replicate 256 false, List.length_replicate 256 false⟩, some .terminator)],
          [(⟨List.replicate 256 false, List.length_replicate 256 false⟩, none)]].foldl
            Trie.applyOps Trie.empty).hash freeHasher) ∧
      ([[(⟨List.replicate 256 false, List.length_replicate 256 false⟩, some .terminator)],
          [(⟨List.replicate 256 false, List.length_replicate 256 false⟩, none)]].foldl
            Trie.applyOps (Trie.empty : Trie FreeNode)).WellFormed ∧
      ([[(⟨List.replicate 256 false, List.length_replicate 256 false⟩, some .terminator)],
          [(⟨List.replicate 256 false, List.length_replicate 256 false⟩, none)]].foldl
            Trie.applyOps (Trie.empty : Trie FreeNode)).get =
        [[(⟨List.replicate 256 false, List.length_replicate 256 false⟩, some .terminator)],
          [(⟨List.replicate 256 false, List.length_replicate 256 false⟩, none)]].foldl
            overwrite (Trie.empty : Trie FreeNode).get
  := by
  have hblocks : ∀ ops ∈ ([[(⟨List.replicate 256 false, List.length_replicate 256 false⟩,
      some FreeNode.terminator)], [(⟨List.replicate 256 false, List.length_replicate 256 false⟩,
      none)]] : List (List (KeyPath × Option FreeNode))), (ops.map (·.1)).Nodup := by
    intro ops hops
    simp only [List.mem_cons, List.mem_singleton, List.not_mem_nil, or_false] at hops
    rcases hops with rfl | rfl <;> exact List.nodup_singleton _
  exact ⟨freeHasher_contract.toClassifies, trivial, hblocks,
    verifyUpdates_batches freeHasher freeHasher_contract.toClassifies trivial hblocks⟩

end Run

end Nomt
