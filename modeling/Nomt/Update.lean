import Nomt.Trie.Compact

/-!
# Sub-trie updates

The two helpers `verify_update` takes from `crate::update`, whose code is not among the
sources: `leaf_ops_spliced` merges a path's terminal leaf into its operations, and
`build_trie` builds the root of the sub-trie under the path from the resulting leaves.
Both are modelled from the spec (§4.5, steps 1 and 2, and §6).

Against them stands the direct reading of a batch of operations (`applyOpsLeaves`,
`Trie.applyOps`): a deletion removes the leaf of its key, an update or insertion leaves one
leaf for its key.  The splice yields, up to order, the leaves after the operations of the
terminal's leaf (`leafOpsSpliced_perm`), so the sub-trie it builds is theirs
(`buildTrie_leafOpsSpliced`).
-/

namespace Nomt

variable {Node : Type}

/-- Modelled from the spec: `crate::update::leaf_ops_spliced`, which is not among the
sources.  The terminal leaf, if any, is spliced into the ascending operations at its place
unless an operation touches its key; deletions are then dropped, leaving the ascending
leaves of the sub-trie after the update. -/
def leafOpsSpliced (leaf : Option (LeafData Node)) (ops : List (KeyPath × Option Node)) :
    List (KeyPath × Node) :=
  let spliced :=
    match leaf with
    | none => ops
    | some l =>
      if ops.any (·.1 = l.keyPath) then ops
      else
        let before (op : KeyPath × Option Node) : Bool :=
          compareBits op.1.bits l.keyPath.bits = Ordering.lt
        ops.takeWhile before ++ (l.keyPath, some l.valueHash) :: ops.dropWhile before
  spliced.filterMap fun op => op.2.map (op.1, ·)

/-- Modelled from the spec: `crate::update::build_trie`, which is not among the sources.  The
root of the compacted sub-trie at depth `skip` holding the given leaves. -/
def buildTrie [Zero Node] (H : NodeHasher Node) (skip : Nat) (ops : List (KeyPath × Node)) :
    Node :=
  (Trie.ofLeaves (256 - skip) skip (ops.map fun op => ⟨op.1, op.2⟩)).hash H

/-! ### Operations applied directly -/

/-- The leaves after the operations `ops`: those whose key no operation names, and a leaf for
each operation that writes a value. -/
def applyOpsLeaves (ls : List (LeafData Node)) (ops : List (KeyPath × Option Node)) :
    List (LeafData Node) :=
  ls.filter (fun l => ops.all fun op => op.1 ≠ l.keyPath) ++
    ops.filterMap fun op => op.2.map (LeafData.mk op.1)

/-- The trie `T` after the operations `ops`, applied directly: the compacted trie of its
leaves after them. -/
def Trie.applyOps (T : Trie Node) (ops : List (KeyPath × Option Node)) : Trie Node :=
  Trie.ofLeaves 256 0 (applyOpsLeaves T.leaves ops)

theorem map_filterMap_write (ops : List (KeyPath × Option Node)) :
  ((ops.filterMap fun op => op.2.map (op.1, ·)).map fun op => (⟨op.1, op.2⟩ : LeafData Node)) =
    ops.filterMap fun op => op.2.map (LeafData.mk op.1)
  := by
  rw [List.map_filterMap]
  congr 1
  funext op
  cases op.2 <;> rfl

/-- The splice yields, up to order, the leaves after the operations of the terminal's leaf. -/
theorem leafOpsSpliced_perm (leaf : Option (LeafData Node)) (ops : List (KeyPath × Option Node)) :
  ((leafOpsSpliced leaf ops).map fun op => (⟨op.1, op.2⟩ : LeafData Node)).Perm
    (applyOpsLeaves leaf.toList ops)
  := by
  cases leaf with
  | none => simp [leafOpsSpliced, applyOpsLeaves, map_filterMap_write]
  | some l =>
    by_cases hany : ops.any (·.1 = l.keyPath)
    · -- an operation names the leaf's key, and decides it
      simp only [leafOpsSpliced, hany, if_true, applyOpsLeaves, Option.toList_some]
      rw [List.filter_cons_of_neg (by simpa using hany), List.filter_nil, List.nil_append,
        map_filterMap_write]
    · -- the leaf joins the operations at its place
      have hall : (ops.all fun op => op.1 ≠ l.keyPath) = true :=
        List.all_eq_true.mpr fun op hop => decide_eq_true fun heq =>
          hany (List.any_eq_true.mpr ⟨op, hop, decide_eq_true heq⟩)
      simp only [leafOpsSpliced, hany, Bool.false_eq_true, if_false, applyOpsLeaves,
        Option.toList_some]
      simp only [List.filter_cons, hall, if_true, List.filter_nil, List.filterMap_append,
        List.filterMap_cons, Option.map_some', List.map_append, List.map_cons,
        map_filterMap_write]
      refine List.perm_middle.trans ?_
      rw [← List.filterMap_append, List.takeWhile_append_dropWhile]
      rfl

/-- The sub-trie the splice builds is the compacted trie of the leaves after the operations. -/
theorem buildTrie_leafOpsSpliced [Zero Node] (H : NodeHasher Node) (skip : Nat)
    (leaf : Option (LeafData Node)) (ops : List (KeyPath × Option Node)) :
  buildTrie H skip (leafOpsSpliced leaf ops) =
    (Trie.ofLeaves (256 - skip) skip (applyOpsLeaves leaf.toList ops)).hash H
  := by
  rw [buildTrie, Trie.ofLeaves_perm (leafOpsSpliced_perm leaf ops)]

@[simp]
theorem applyOpsLeaves_nil (ls : List (LeafData Node)) :
  applyOpsLeaves ls ([] : List (KeyPath × Option Node)) = ls
  := by
  simp [applyOpsLeaves]

/-- The leaves after the operations, below a position, are the leaves below it after the
operations on keys below it. -/
theorem filter_applyOpsLeaves (ls : List (LeafData Node)) (ops : List (KeyPath × Option Node))
    (q : List Bool) :
  (applyOpsLeaves ls ops).filter (fun l => q <+: l.keyPath.bits) =
    applyOpsLeaves (ls.filter fun l => q <+: l.keyPath.bits)
      (ops.filter fun op => q <+: op.1.bits)
  := by
  rw [applyOpsLeaves, applyOpsLeaves, List.filter_append, List.filter_filter, List.filter_filter,
    List.filter_filterMap, List.filterMap_filter]
  congr 1
  · refine List.filter_congr fun l _ => ?_
    by_cases hq : q <+: l.keyPath.bits
    · -- an operation on the key of a leaf below `q` is itself below `q`
      have hall : (ops.all fun op => op.1 ≠ l.keyPath) =
          (ops.filter fun op => q <+: op.1.bits).all fun op => op.1 ≠ l.keyPath := by
        rw [Bool.eq_iff_iff, List.all_eq_true, List.all_eq_true]
        refine ⟨fun h op hop => h op (List.mem_filter.mp hop).1, fun h op hop => ?_⟩
        by_cases hk : op.1 = l.keyPath
        · exact h op (List.mem_filter.mpr ⟨hop, by simpa [hk] using hq⟩)
        · simpa using hk
      rw [hall, Bool.and_comm]
    · simp [hq]
  · congr 1
    funext op
    cases op.2 <;> simp [Option.filter]

theorem applyOpsLeaves_perm (ls : List (LeafData Node)) {ops ops' : List (KeyPath × Option Node)}
    (h : ops.Perm ops') :
  (applyOpsLeaves ls ops).Perm (applyOpsLeaves ls ops')
  := by
  have hall : ∀ l : LeafData Node, (ops.all fun op => op.1 ≠ l.keyPath) =
      ops'.all fun op => op.1 ≠ l.keyPath := fun l => by
    rw [Bool.eq_iff_iff, List.all_eq_true, List.all_eq_true]
    exact ⟨fun h' op hop => h' op (h.mem_iff.mpr hop), fun h' op hop => h' op (h.mem_iff.mp hop)⟩
  rw [applyOpsLeaves, applyOpsLeaves, List.filter_congr fun l _ => hall l]
  exact (List.Perm.refl _).append (h.filterMap _)

theorem map_keyPath_filterMap_sublist (ops : List (KeyPath × Option Node)) :
  ((ops.filterMap fun op => op.2.map (LeafData.mk op.1)).map (·.keyPath)).Sublist
    (ops.map (·.1))
  := by
  induction ops with
  | nil => exact List.Sublist.slnil
  | cons op ops ih =>
    obtain ⟨k, _ | v⟩ := op
    · simpa using ih.cons k
    · simpa using ih.cons₂ k

/-- Operations on distinct keys leave leaves with distinct keys. -/
theorem nodup_keyPath_applyOpsLeaves {ls : List (LeafData Node)}
    {ops : List (KeyPath × Option Node)} (hls : (ls.map (·.keyPath)).Nodup)
    (hops : (ops.map (·.1)).Nodup) :
  ((applyOpsLeaves ls ops).map (·.keyPath)).Nodup
  := by
  rw [applyOpsLeaves, List.map_append, List.nodup_append]
  refine ⟨hls.sublist ((List.filter_sublist _).map _),
    hops.sublist (map_keyPath_filterMap_sublist ops), ?_⟩
  intro k hk hk'
  obtain ⟨l, hl, rfl⟩ := List.mem_map.mp hk
  have hnone := List.all_eq_true.mp (List.mem_filter.mp hl).2
  obtain ⟨op, hop, hkey⟩ := List.mem_map.mp ((map_keyPath_filterMap_sublist ops).subset hk')
  exact absurd hkey (by simpa using hnone op hop)

end Nomt
