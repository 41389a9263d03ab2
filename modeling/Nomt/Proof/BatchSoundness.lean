import Nomt.Proof.Batch
import Nomt.Proof.Soundness

/-!
# Soundness of batch verification

A verifier knows only the root, and the path proofs of a batch are not to be trusted.  Under
the oracle contract, though, a path that verifies against the root of a well-formed trie
carries the sub-roots of the trie's leaves at its sibling positions, and its terminal holds
exactly the leaves below it (`subRoot_of_hashPath`, `filter_leaves_eq_of_node_eq_subRoot`).
Two such paths are never nested (`internalCollision_of_verify_nested`), so a batch that passes
the checks is ascending, and its operations lie below exactly one path each.  The frontier
then computes the root of the trie after all the batch's operations (`verifyUpdate_sound`),
just as for the honest batch.
-/

namespace Nomt

variable {Node : Type} [Zero Node] {H : NodeHasher Node}

/-! ### A verified path pins the trie down -/

/-- Under the contract, a node hashed up along `path` to the root of a trie well formed at
`pos` is the sub-root of its leaves at the end of the path, and the siblings are the
sub-roots at the sibling positions along it. -/
theorem subRoot_of_hashPath (hH : H.Contract) {pos : List Bool} {T : Trie Node}
    (hT : T.WellFormedAt pos) {node : Node} {path : List Bool} {siblings : List Node}
    (hlen : path.length = siblings.length) (h : hashPath H node path siblings.reverse = T.hash H) :
  node = subRoot H T.leaves (pos ++ path) ∧
    ∀ d < path.length, siblings[d]? = some (subRoot H T.leaves (pos ++ siblingPath path (d + 1)))
  := by
  induction path generalizing pos siblings T with
  | nil =>
    refine ⟨?_, fun d hd => absurd hd (Nat.not_lt_zero d)⟩
    rw [List.append_nil, ← hT.hash_eq_subRoot, ← h, hashPath_nil]
  | cons bit path ih =>
    obtain _ | ⟨sibling, siblings⟩ := siblings
    · simp at hlen
    have hlen' : path.length = siblings.length := by simpa using hlen
    rw [hashPath_cons_reverse H node bit path sibling siblings hlen'] at h
    cases T with
    | empty => exact absurd h (hH.hashInternal_ne_terminator _)
    | leaf l => exact absurd h (hH.hashInternal_ne_hashLeaf _ l)
    | internal a b =>
      obtain ⟨ha, hb, -⟩ := hT
      have hd := hH.hashInternal_injective h
      rw [Trie.leaves_internal]
      cases bit
      · -- the path goes left, past the right child
        obtain ⟨hnode, hsib⟩ := ih ha hlen' (congrArg InternalData.left hd)
        have hright : sibling = b.hash H := congrArg InternalData.right hd
        refine ⟨by rw [hnode, hb.subRoot_append_leaves]; simp, fun d hd' => ?_⟩
        cases d with
        | zero =>
          rw [hright, hb.hash_eq_subRoot, show siblingPath (false :: path) (0 + 1) = [true] from rfl,
            ha.subRoot_leaves_append, List.getElem?_cons_zero]
        | succ d =>
          rw [List.getElem?_cons_succ, hsib d (by simpa using hd'), siblingPath_cons_succ,
            hb.subRoot_append_leaves]
          simp
      · -- the path goes right, past the left child
        obtain ⟨hnode, hsib⟩ := ih hb hlen' (congrArg InternalData.right hd)
        have hleft : sibling = a.hash H := congrArg InternalData.left hd
        refine ⟨by rw [hnode, ha.subRoot_leaves_append]; simp, fun d hd' => ?_⟩
        cases d with
        | zero =>
          rw [hleft, ha.hash_eq_subRoot, show siblingPath (true :: path) (0 + 1) = [false] from rfl,
            hb.subRoot_append_leaves, List.getElem?_cons_zero]
        | succ d =>
          rw [List.getElem?_cons_succ, hsib d (by simpa using hd'), siblingPath_cons_succ,
            ha.subRoot_leaves_append]
          simp

/-- Under the contract, a terminal whose node is the sub-root of leaves with distinct keys at
a position holds exactly the leaves below that position. -/
theorem filter_leaves_eq_of_node_eq_subRoot (hH : H.Contract) {ls : List (LeafData Node)}
    (hls : (ls.map (·.keyPath)).Nodup) {p : List Bool} (hp : p.length ≤ 256)
    {t : PathProofTerminal Node} (h : t.node H = subRoot H ls p) :
  ls.filter (fun l => p <+: l.keyPath.bits) = t.asLeafOption.toList
  := by
  rcases hf : ls.filter (fun l => p <+: l.keyPath.bits) with _ | ⟨l, _ | ⟨l', rest⟩⟩
  · -- no leaf below: the terminal is the terminator
    rw [subRoot_of_filter_eq_nil hf] at h
    cases t with
    | terminator _ => rw [hf]; rfl
    | leaf l₀ => exact absurd h (hH.hashLeaf_ne_terminator l₀)
  · -- one leaf below: the terminal is that leaf
    rw [subRoot_of_filter_eq_singleton hf] at h
    cases t with
    | terminator _ => exact absurd h.symm (hH.hashLeaf_ne_terminator l)
    | leaf l₀ => rw [hf, hH.hashLeaf_injective h]; rfl
  · -- two leaves or more below: the sub-root is internal, which no terminal is
    have hkind := nodeKind_subRoot_of_two_le hH.toClassifies hls hp (by simp [hf])
    rw [← h] at hkind
    cases t with
    | terminator _ => exact absurd hkind (by rw [PathProofTerminal.node, hH.nodeKind_terminator]; simp)
    | leaf l₀ => exact absurd hkind (by rw [PathProofTerminal.node, hH.nodeKind_hashLeaf]; simp)

variable [DecidableEq Node]

/-- Under the contract, a path verified against the root of a well-formed trie carries the
leaves below it as its terminal, and the sub-roots of the trie's leaves as its siblings. -/
theorem filter_leaves_eq_of_verify (hH : H.Contract) {T : Trie Node} (hT : T.WellFormed)
    {proof : PathProof Node} {keyPath : List Bool} {v : VerifiedPathProof Node}
    (hv : proof.verify H keyPath (T.hash H) = .ok v) :
  T.leaves.filter (fun l => v.keyPath <+: l.keyPath.bits) = v.terminal.toList ∧
    ∀ L, 0 < L → L ≤ v.keyPath.length →
      v.siblings[L - 1]? = some (subRoot H T.leaves (siblingPath v.keyPath L))
  := by
  obtain ⟨-, hterm, -, -, -, hroot⟩ := PathProof.verify_eq_ok hv
  obtain ⟨hnode, hsib⟩ := subRoot_of_hashPath hH hT v.length_keyPath hroot
  refine ⟨?_, fun L hL hLp => ?_⟩
  · rw [hterm]
    exact filter_leaves_eq_of_node_eq_subRoot hH hT.nodup_keys
      (v.length_keyPath ▸ v.length_siblings_le) hnode
  · rw [hsib (L - 1) (by omega), Nat.sub_add_cancel hL, List.nil_append]

/-! ### A verified batch -/

section Batch

variable {root : Node} {paths : List (PathUpdate Node)}
  (hverified : ∀ u ∈ paths, ∃ (proof : PathProof Node) (keyPath : List Bool),
    proof.verify H keyPath root = .ok u.inner)

include hverified in
/-- Under the contract, verified paths that ascend strictly are ascending: none is nested in
another. -/
theorem ascending_of_verify (hH : H.Contract)
    (hchain : (paths.map (·.inner.keyPath)).Chain' fun a b => compareBits a b = .lt) :
  Ascending paths
  := by
  have hchain' := List.chain'_map _ |>.mp hchain
  haveI : IsTrans (PathUpdate Node) fun u v => compareBits u.inner.keyPath v.inner.keyPath = .lt :=
    ⟨fun _ _ _ => compareBits_trans⟩
  refine ⟨hchain', (List.chain'_iff_pairwise.mp hchain').imp_of_mem fun {u v} hu hv hlt => ?_⟩
  -- nested verified paths would exhibit a collision of `hash_internal`
  have hne := ne_of_compareBits_lt hlt
  obtain ⟨proof₁, x₁, h₁⟩ := hverified u hu
  obtain ⟨proof₂, x₂, h₂⟩ := hverified v hv
  exact ⟨fun hpre => hH.not_internalCollision (internalCollision_of_verify_nested h₁ h₂ hpre hne),
    fun hpre => hH.not_internalCollision (internalCollision_of_verify_nested h₂ h₁ hpre hne.symm)⟩

omit [Zero Node] [DecidableEq Node] in
/-- In an ascending batch, a path lies above another only when it is that one. -/
theorem Ascending.eq_of_prefix (hasc : Ascending paths) {u u' : PathUpdate Node} (hu : u ∈ paths)
    (hu' : u' ∈ paths) (hpre : u'.inner.keyPath <+: u.inner.keyPath) :
  u' = u
  := by
  by_contra hne
  obtain ⟨i, hi, rfl⟩ := List.getElem_of_mem hu
  obtain ⟨j, hj, rfl⟩ := List.getElem_of_mem hu'
  have hij : i ≠ j := fun h => hne (by subst h; rfl)
  rcases Nat.lt_or_gt_of_ne hij with hlt | hlt
  · exact ((List.pairwise_iff_getElem.mp hasc.incomparable) i j hi hj hlt).2 hpre
  · exact ((List.pairwise_iff_getElem.mp hasc.incomparable) j i hj hi hlt).1 hpre

omit [Zero Node] [DecidableEq Node] in
/-- Keys that ascend strictly are distinct. -/
theorem nodup_of_chain_lt {ks : List KeyPath}
    (h : ks.Chain' fun a b => compareBits a.bits b.bits = .lt) :
  ks.Nodup
  := by
  haveI : IsTrans KeyPath fun a b => compareBits a.bits b.bits = .lt :=
    ⟨fun _ _ _ => compareBits_trans⟩
  exact (List.chain'_iff_pairwise.mp h).imp fun hlt heq =>
    ne_of_compareBits_lt hlt (congrArg KeyPath.bits heq)

section Ops

variable (hasc : Ascending paths)
  (hscope : ∀ u ∈ paths, ∀ op ∈ u.ops, u.inner.keyPath <+: op.1.bits)
  (hchainOps : ∀ u ∈ paths, (u.ops.map (·.1)).Chain' fun a b => compareBits a.bits b.bits = .lt)
include hasc hscope hchainOps

omit [Zero Node] [DecidableEq Node] in
/-- In an ascending batch whose operations ascend strictly along each path and lie below it,
the operations are on distinct keys. -/
theorem nodup_keys_flatMap_ops :
  ((paths.flatMap (·.ops)).map (·.1)).Nodup
  := by
  rw [List.map_flatMap, List.nodup_flatMap]
  refine ⟨fun u hu => nodup_of_chain_lt (hchainOps u hu),
    hasc.incomparable.imp_of_mem fun {u v} hu hv hinc => ?_⟩
  -- a key of both would lie below two incomparable paths
  intro k hku hkv
  obtain ⟨op, hop, rfl⟩ := List.mem_map.mp hku
  obtain ⟨op', hop', hk⟩ := List.mem_map.mp hkv
  have hv' := hscope v hv op' hop'
  rw [hk] at hv'
  rcases List.prefix_or_prefix_of_prefix (hscope u hu op hop) hv' with h | h
  · exact hinc.1 h
  · exact hinc.2 h

omit [Zero Node] [DecidableEq Node] in
/-- In an ascending batch whose operations ascend strictly along each path and lie below it,
the operations below a path are its own. -/
theorem filter_flatMap_ops_perm {u : PathUpdate Node} (hu : u ∈ paths) :
  ((paths.flatMap (·.ops)).filter fun op => u.inner.keyPath <+: op.1.bits).Perm u.ops
  := by
  have hall := (nodup_keys_flatMap_ops hasc hscope hchainOps).of_map _
  refine (List.perm_ext_iff_of_nodup (hall.filter _)
    ((nodup_of_chain_lt (hchainOps u hu)).of_map _)).mpr fun op => ?_
  rw [List.mem_filter, List.mem_flatMap, decide_eq_true_eq]
  constructor
  · rintro ⟨⟨u', hu', hop⟩, hpre⟩
    -- the path of the operation and `u` are comparable, so they are one path
    rcases List.prefix_or_prefix_of_prefix hpre (hscope u' hu' op hop) with h | h
    · rwa [hasc.eq_of_prefix hu' hu h]
    · rwa [← hasc.eq_of_prefix hu hu' h]
  · exact fun hop => ⟨⟨u, hu, hop⟩, hscope u hu op hop⟩

end Ops

end Batch

/-- Under the oracle contract, whatever path proofs a batch carries, once each verifies against
the root of a well-formed trie and `verify_update` returns a root, the batch's operations are on
distinct keys and the root is the root of the trie after all of them. -/
theorem nodup_and_eq_hash_applyOps_of_verifyUpdate (H : NodeHasher Node) (hH : H.Contract)
    (T : Trie Node) (hT : T.WellFormed) (paths : List (PathUpdate Node))
    (hverified : ∀ u ∈ paths, ∃ (proof : PathProof Node) (keyPath : List Bool),
      proof.verify H keyPath (T.hash H) = .ok u.inner)
    (root : Node) (hroot : verifyUpdate H (T.hash H) paths = .ok root) :
  ((paths.flatMap (·.ops)).map (·.1)).Nodup ∧ root = (T.applyOps (paths.flatMap (·.ops))).hash H
  := by
  by_cases hne : paths = []
  · -- an empty batch keeps the root
    subst hne
    have hkeep := congrArg (Trie.hash H) hT.eq_ofLeaves
    simp only [List.length_nil, Nat.sub_zero] at hkeep
    rw [verifyUpdate, if_pos List.isEmpty_nil] at hroot
    cases hroot
    exact ⟨List.nodup_nil, by simp [Trie.applyOps, ← hkeep]⟩
  · have hchecks := (exists_verifyUpdate_eq_ok_iff_checkPaths hne).mp ⟨root, hroot⟩
    obtain ⟨hpaths, hchain⟩ := checkPaths_eq_ok.mp hchecks
    rw [Option.toList_none, List.nil_append] at hchain
    have hasc := ascending_of_verify hverified hH hchain
    have hops : ∀ u ∈ paths, (∀ op ∈ u.ops, u.inner.keyPath <+: op.1.bits) ∧
        (u.ops.map (·.1)).Chain' fun a b => compareBits a.bits b.bits = .lt := fun u hu => by
      simpa using checkOps_eq_ok.mp (hpaths u hu).2.2
    have hscope := fun u hu => (hops u hu).1
    have hchainOps := fun u hu => (hops u hu).2
    have hnodup := nodup_keys_flatMap_ops hasc hscope hchainOps
    have hfrontier := frontier_eq_subRoot hH.toClassifies
      (nodup_keyPath_applyOpsLeaves hT.nodup_keys hnodup) hasc
      (fun u hu => by
        -- each path rebuilds the new sub-trie below it
        obtain ⟨proof, x, hv⟩ := hverified u hu
        rw [buildTrie_leafOpsSpliced, subRoot, filter_applyOpsLeaves,
          (filter_leaves_eq_of_verify hH hT hv).1, Trie.ofLeaves_perm
            (applyOpsLeaves_perm _ (filter_flatMap_ops_perm hasc hscope hchainOps hu))])
      (fun u hu L hL hLp hnone => by
        -- below a sibling no path reaches, no operation reaches, so the proof's sibling stands
        obtain ⟨proof, x, hv⟩ := hverified u hu
        rw [(filter_leaves_eq_of_verify hH hT hv).2 L hL hLp,
          subRoot_applyOpsLeaves_of_forall_not_prefix fun op hop hs => ?_]
        obtain ⟨u', hu', hop'⟩ := List.mem_flatMap.mp hop
        exact hnone u' hu' (siblingPath_prefix_of_shared_key hL hLp hs (hscope u' hu' op hop')
          fun hpre => congrArg (·.inner.keyPath) (hasc.eq_of_prefix hu hu' hpre))) hne
    rw [verifyUpdate, if_neg (by simpa using hne), hchecks, hfrontier, subRoot_nil] at hroot
    exact ⟨hnodup, (Except.ok.inj hroot).symm⟩

end Nomt
