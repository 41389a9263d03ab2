import Mathlib.Data.List.GetD
import Nomt.Proof.Frontier
import Nomt.Trie.SubRoot

/-!
# The frontier computes the new root

Fix the leaf set `ls` the batch should produce.  One step of a walk compacts the new roots of
the two children of a position into the new root of the position (`compactStep_subRoot`).
So when each path rebuilds the new root of its own sub-trie, and each proof sibling is the
new root of its sub-trie wherever no path of the batch lies below it, every walk reaches the
new root at the layer where it stops: the stack hands it the new root of each sibling
sub-trie an earlier path rebuilt (`frontierInv_pendingBefore`), and the proof hands it the
others.  After the last path the stack holds the new root of the whole trie
(`frontier_eq_subRoot`).
-/

namespace Nomt

variable {Node : Type} [Zero Node] {H : NodeHasher Node}

/-! ### Compaction -/

/-- A compaction step whose two nodes are not a pair of terminators or a terminator and a
leaf hashes them. -/
theorem compactStep_of_two_le {bit : Bool} {cur sibling : Node}
    (h : H.nodeKind cur = .internal ∨ H.nodeKind sibling = .internal ∨
      H.nodeKind cur = .leaf ∧ H.nodeKind sibling = .leaf) :
  compactStep H bit cur sibling = H.hashInternal (InternalData.ofBit bit cur sibling)
  := by
  rcases h with h | h | ⟨h, h'⟩
  · simp only [compactStep, h]
  · cases hc : H.nodeKind cur <;> simp only [compactStep, h, hc]
  · simp only [compactStep, h, h']

/-- Under the classification contract, compacting the new roots of the two children of a
position above depth 256 gives the new root of the position. -/
theorem compactStep_subRoot (hH : H.Classifies) {ls : List (LeafData Node)}
    (hls : (ls.map (·.keyPath)).Nodup) {q : List Bool} (hq : q.length < 256) (bit : Bool) :
  compactStep H bit (subRoot H ls (q ++ [bit])) (subRoot H ls (q ++ [!bit])) = subRoot H ls q
  := by
  have hlen : (ls.filter fun l => q <+: l.keyPath.bits).length =
      (ls.filter fun l => q ++ [bit] <+: l.keyPath.bits).length +
        (ls.filter fun l => q ++ [!bit] <+: l.keyPath.bits).length := by
    rw [length_filter_prefix_eq_add ls hq]
    cases bit
    · rfl
    · exact Nat.add_comm _ _
  have hchild : ∀ b : Bool, (q ++ [b]).length ≤ 256 := fun b => by simp; omega
  -- a leaf below a child of `q` is below `q`
  have hmem : ∀ b l, ls.filter (fun l => q ++ [b] <+: l.keyPath.bits) = [l] →
      l ∈ ls.filter fun l => q <+: l.keyPath.bits := fun b l h => by
    have hl := List.mem_filter.mp (h ▸ List.mem_singleton_self l)
    exact List.mem_filter.mpr ⟨hl.1, by simpa using (List.prefix_append q [b]).trans (by simpa using hl.2)⟩
  have hsingle : ∀ b l, ls.filter (fun l => q ++ [b] <+: l.keyPath.bits) = [l] →
      (ls.filter fun l => q <+: l.keyPath.bits).length = 1 →
      ls.filter (fun l => q <+: l.keyPath.bits) = [l] := fun b l h h1 => by
    obtain ⟨x, hx⟩ := List.length_eq_one.mp h1
    have := hmem b l h
    rw [hx, List.mem_singleton] at this
    rw [hx, this]
  have hinternal : 2 ≤ (ls.filter fun l => q <+: l.keyPath.bits).length →
      subRoot H ls q = H.hashInternal
        (InternalData.ofBit bit (subRoot H ls (q ++ [bit])) (subRoot H ls (q ++ [!bit]))) :=
    fun h2 => by
    rw [subRoot_of_two_le hq h2]
    cases bit <;> rfl
  have hkind2 : ∀ b, 2 ≤ (ls.filter fun l => q ++ [b] <+: l.keyPath.bits).length →
      H.nodeKind (subRoot H ls (q ++ [b])) = .internal := fun b h2 =>
    nodeKind_subRoot_of_two_le hH hls (hchild b) h2
  rcases hc : ls.filter (fun l => q ++ [bit] <+: l.keyPath.bits) with _ | ⟨l, _ | ⟨l', rest⟩⟩ <;>
    rcases hs : ls.filter (fun l => q ++ [!bit] <+: l.keyPath.bits) with _ | ⟨m, _ | ⟨m', rest'⟩⟩ <;>
    simp only [hc, hs, List.length_cons, List.length_nil] at hlen
  · -- no leaf below `q`
    simp only [compactStep, nodeKind_subRoot_of_filter_eq_nil hH hc,
      nodeKind_subRoot_of_filter_eq_nil hH hs]
    rw [subRoot_of_filter_eq_nil hc, subRoot_of_filter_eq_nil (List.eq_nil_of_length_eq_zero hlen)]
  · -- one leaf, beside the walk: it floats up
    simp only [compactStep, nodeKind_subRoot_of_filter_eq_nil hH hc,
      nodeKind_subRoot_of_filter_eq_singleton hH hs]
    rw [subRoot_of_filter_eq_singleton hs, subRoot_of_filter_eq_singleton (hsingle _ m hs hlen)]
  · rw [hinternal (by omega), compactStep_of_two_le (.inr (.inl (hkind2 _ (by simp [hs]))))]
  · -- one leaf, on the walk: it floats up
    simp only [compactStep, nodeKind_subRoot_of_filter_eq_singleton hH hc,
      nodeKind_subRoot_of_filter_eq_nil hH hs]
    rw [subRoot_of_filter_eq_singleton hc, subRoot_of_filter_eq_singleton (hsingle _ l hc hlen)]
  · rw [hinternal (by omega), compactStep_of_two_le (.inr (.inr
      ⟨nodeKind_subRoot_of_filter_eq_singleton hH hc, nodeKind_subRoot_of_filter_eq_singleton hH hs⟩))]
  · rw [hinternal (by omega), compactStep_of_two_le (.inr (.inl (hkind2 _ (by simp [hs]))))]
  all_goals rw [hinternal (by omega), compactStep_of_two_le (.inl (hkind2 _ (by simp [hc])))]

/-! ### The loop over one path's siblings -/

section Walk

variable (paths : List (PathUpdate Node))

/-- `end_layer` of path `i`: the layer where its walk stops and its node is pushed. -/
def endLayer (i : Nat) (hi : i < paths.length) : Nat :=
  paths[i].inner.keyPath.length -
    upLayers paths[i].inner.keyPath (paths[i + 1]?.map (·.inner.keyPath))

variable (H)

/-- Iteration `k` of the loop of path `i` reads the bit and the proof sibling at layer
`|p_i| - k`. -/
theorem walkStateAt_succ {i : Nat} (hi : i < paths.length) {k : Nat}
    (hk : k < upLayers paths[i].inner.keyPath (paths[i + 1]?.map (·.inner.keyPath))) :
  walkStateAt H paths i hi (k + 1) = walkStep H (walkStateAt H paths i hi k)
    (paths[i].inner.keyPath.getD (paths[i].inner.keyPath.length - k - 1) false,
      paths[i].inner.siblings.getD (paths[i].inner.keyPath.length - k - 1) 0)
  := by
  have hup := upLayers_le paths[i].inner.keyPath (paths[i + 1]?.map (·.inner.keyPath))
  have hσ := paths[i].inner.length_keyPath
  have hlen : k < ((paths[i].inner.keyPath.reverse.take
      (upLayers paths[i].inner.keyPath (paths[i + 1]?.map (·.inner.keyPath)))).zip
      paths[i].inner.siblings.reverse).length := by
    simp only [List.length_zip, List.length_take, List.length_reverse]
    omega
  rw [walkStateAt, walkStateAt, List.take_succ, List.foldl_append, List.getElem?_eq_getElem hlen]
  simp only [Option.toList_some, List.foldl_cons, List.foldl_nil, List.getElem_zip,
    List.getElem_take, List.getElem_reverse]
  rw [List.getD_eq_getElem _ _ (by omega), List.getD_eq_getElem _ _ (by omega)]
  congr 3 <;> omega

/-- Path `i` pushes the node its loop reaches, at its end layer. -/
theorem pendingBefore_succ_eq_walkStateAt {i : Nat} (hi : i < paths.length) :
  pendingBefore H paths (i + 1) =
    ((walkStateAt H paths i hi
        (upLayers paths[i].inner.keyPath (paths[i + 1]?.map (·.inner.keyPath)))).curNode,
      endLayer paths i hi) ::
      (walkStateAt H paths i hi
        (upLayers paths[i].inner.keyPath (paths[i + 1]?.map (·.inner.keyPath)))).pending
  := by
  have hup := upLayers_le paths[i].inner.keyPath (paths[i + 1]?.map (·.inner.keyPath))
  have hσ := paths[i].inner.length_keyPath
  rw [pendingBefore_succ H paths hi, walkStateAt, List.take_of_length_le (by
    simp only [List.length_zip, List.length_take, List.length_reverse]
    omega)]
  rfl

end Walk

/-! ### The run -/

section Run

variable (hH : H.Classifies) {ls : List (LeafData Node)} (hls : (ls.map (·.keyPath)).Nodup)
  {paths : List (PathUpdate Node)} (hasc : Ascending paths)
  (hsub : ∀ u ∈ paths, buildTrie H u.inner.keyPath.length (leafOpsSpliced u.inner.terminal u.ops) =
    subRoot H ls u.inner.keyPath)
  (hsib : ∀ u ∈ paths, ∀ L, 0 < L → L ≤ u.inner.keyPath.length →
    (∀ u' ∈ paths, ¬ siblingPath u.inner.keyPath L <+: u'.inner.keyPath) →
    u.inner.siblings[L - 1]? = some (subRoot H ls (siblingPath u.inner.keyPath L)))
include hH hls hasc hsub hsib

omit hH hls hsub in
/-- While the entries the earlier paths pushed are the new roots at their layers, step `k` of
path `i` compacts with the new root of the sibling sub-trie: the stack hands it over where an
earlier path rebuilt that sub-trie, and the proof where no path lies below it. -/
theorem takeSibling_walkStateAt_eq_subRoot {i : Nat} (hi : i < paths.length)
    (hpushed : ∀ j (hj : j < i), (pendingBefore H paths (j + 1)).head? =
      some (subRoot H ls (paths[j].inner.keyPath.take (endLayer paths j (by omega))),
        endLayer paths j (by omega)))
    {k : Nat} (hk : k < upLayers paths[i].inner.keyPath (paths[i + 1]?.map (·.inner.keyPath))) :
  (takeSibling (walkStateAt H paths i hi k).pending (paths[i].inner.keyPath.length - k)
      (paths[i].inner.siblings.getD (paths[i].inner.keyPath.length - k - 1) 0)).1 =
    subRoot H ls (siblingPath paths[i].inner.keyPath (paths[i].inner.keyPath.length - k))
  := by
  have hup := upLayers_le paths[i].inner.keyPath (paths[i + 1]?.map (·.inner.keyPath))
  by_cases hearlier : ∃ (j : Nat) (hj : j < i),
      siblingPath paths[i].inner.keyPath (paths[i].inner.keyPath.length - k) <+:
        paths[j].inner.keyPath
  · -- an earlier path rebuilt the sibling sub-trie: the stack hands over its new root
    obtain ⟨e, he, hL⟩ := List.mem_map.mp
      ((mem_pendingBefore_iff H paths hasc hi (by omega) (by omega)).mpr hearlier)
    obtain ⟨j, hlast, hhead⟩ := (frontierInv_pendingBefore H paths hasc i hi).pushedByLast e he
    rw [hL] at hlast
    obtain ⟨e', he', -, htake⟩ := takeSibling_walkStateAt_of_lastBelow H paths hasc hi hk hlast _
    have hji := hlast.1
    rw [htake]
    rw [hpushed j hji] at hhead he'
    obtain rfl := Option.some.inj he'
    have hend : endLayer paths j (by omega) = paths[i].inner.keyPath.length - k := by
      rw [← hL, ← Option.some.inj hhead]
    have hpre := hlast.2.1
    rw [List.prefix_iff_eq_take, length_siblingPath (by omega) (by omega)] at hpre
    dsimp only
    rw [hend, ← hpre]
  · -- no path lies below the sibling, so the proof's sibling is its new root
    rw [takeSibling_walkStateAt_of_not H paths hasc hi hk hearlier]
    have hnone : ∀ u' ∈ paths, ¬ siblingPath paths[i].inner.keyPath
        (paths[i].inner.keyPath.length - k) <+: u'.inner.keyPath := by
      intro u' hu'
      obtain ⟨j, hj, rfl⟩ := List.getElem_of_mem hu'
      rcases Nat.lt_trichotomy j i with hlt | rfl | hgt
      · exact fun h => hearlier ⟨j, hlt, h⟩
      · exact not_siblingPath_prefix_self (by omega) (by omega)
      · have hi1 : i + 1 < paths.length := by omega
        simp only [upLayers, List.getElem?_eq_getElem hi1, Option.map_some'] at hk
        exact hasc.not_siblingPath_prefix_of_lt hi1 (by omega) (by omega) hgt hj
    rw [List.getD_eq_getElem?_getD, hsib _ (List.getElem_mem _) _ (by omega) (by omega) hnone]
    rfl

/-- While the entries the earlier paths pushed are the new roots at their layers, the loop of
path `i` passes through the new roots along the path. -/
theorem curNode_walkStateAt {i : Nat} (hi : i < paths.length)
    (hpushed : ∀ j (hj : j < i), (pendingBefore H paths (j + 1)).head? =
      some (subRoot H ls (paths[j].inner.keyPath.take (endLayer paths j (by omega))),
        endLayer paths j (by omega)))
    {k : Nat} (hk : k ≤ upLayers paths[i].inner.keyPath (paths[i + 1]?.map (·.inner.keyPath))) :
  (walkStateAt H paths i hi k).curNode =
    subRoot H ls (paths[i].inner.keyPath.take (paths[i].inner.keyPath.length - k))
  := by
  have hup := upLayers_le paths[i].inner.keyPath (paths[i + 1]?.map (·.inner.keyPath))
  induction k with
  | zero =>
    rw [Nat.sub_zero, List.take_length]
    exact hsub _ (List.getElem_mem _)
  | succ k ih =>
    have hk' : k < upLayers paths[i].inner.keyPath (paths[i + 1]?.map (·.inner.keyPath)) := by
      omega
    obtain ⟨hlayer, -⟩ := walkStateAt_eq H paths hasc hi hk'.le
    rw [walkStateAt_succ H paths hi hk', walkStep]
    dsimp only
    rw [ih hk'.le, hlayer, takeSibling_walkStateAt_eq_subRoot hasc hsib hi hpushed hk']
    -- the step compacts the new roots of the two children of the parent position
    have hcur : paths[i].inner.keyPath.take (paths[i].inner.keyPath.length - k) =
        paths[i].inner.keyPath.take (paths[i].inner.keyPath.length - (k + 1)) ++
          [paths[i].inner.keyPath.getD (paths[i].inner.keyPath.length - k - 1) false] := by
      rw [Nat.sub_sub, ← take_succ_eq_getD (by omega)]
      congr 1
      omega
    have hsib' : siblingPath paths[i].inner.keyPath (paths[i].inner.keyPath.length - k) =
        paths[i].inner.keyPath.take (paths[i].inner.keyPath.length - (k + 1)) ++
          [!paths[i].inner.keyPath.getD (paths[i].inner.keyPath.length - k - 1) false] := by
      rw [siblingPath, Nat.sub_sub]
    have h256 : paths[i].inner.keyPath.length ≤ 256 :=
      paths[i].inner.length_keyPath ▸ paths[i].inner.length_siblings_le
    rw [hcur, hsib']
    exact compactStep_subRoot hH hls (by simp; omega) _

/-- Every path pushes the new root of the sub-trie at its end layer. -/
theorem head?_pendingBefore_succ (i : Nat) (hi : i < paths.length) :
  (pendingBefore H paths (i + 1)).head? =
    some (subRoot H ls (paths[i].inner.keyPath.take (endLayer paths i hi)), endLayer paths i hi)
  := by
  induction i using Nat.strong_induction_on with
  | _ i ih =>
    rw [pendingBefore_succ_eq_walkStateAt H paths hi, List.head?_cons,
      curNode_walkStateAt hH hls hasc hsub hsib hi (fun j hj => ih j hj (by omega)) le_rfl]
    rfl

/-- The frontier loop ends with the new root of the whole trie, at layer 0. -/
theorem frontier_eq_subRoot (hne : paths ≠ []) :
  frontier H paths = [(subRoot H ls [], 0)]
  := by
  obtain ⟨root, hroot⟩ := frontier_eq_singleton H paths hasc hne
  obtain ⟨m, hm⟩ : ∃ m, paths.length = m + 1 :=
    Nat.exists_eq_succ_of_ne_zero (by simpa using hne)
  have hlast := head?_pendingBefore_succ hH hls hasc hsub hsib m (by omega)
  have hfinal : pendingBefore H paths (m + 1) = [(root, 0)] := by
    rw [← hm, ← frontier_eq_pendingBefore, hroot]
  rw [hfinal, List.head?_cons, Option.some.injEq, Prod.mk.injEq] at hlast
  obtain ⟨rfl, hend⟩ := hlast
  rw [hroot, ← hend, List.take_zero]

end Run

end Nomt
