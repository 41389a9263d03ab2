import Nomt.Trie.Compact

/-!
# Sub-trie roots

`subRoot H ls q` is the root of the compacted sub-trie at position `q` of a leaf set `ls`:
the compacted trie, built from depth `q.length`, of those leaves whose keys lie below `q`.
It depends on the leaves as a set only (`subRoot_perm`, from `Trie.ofLeaves_perm`).  Below depth 256 it is the
terminator, a bare leaf, or the internal node over the sub-roots of the two children
(`subRoot_of_two_le`), and its kind tells which (`nodeKind_subRoot_of_two_le`).  In a
well-formed trie every node is the sub-root of the trie's leaves at its position
(`WellFormedAt.hash_eq_subRoot`).
-/

namespace Nomt

variable {Node : Type}

/-- Below a position `q` above depth 256, a key continues with bit `b` exactly when it lies
below `q ++ [b]`. -/
theorem KeyPath.prefix_append_iff {k : KeyPath} {q : List Bool} {b : Bool} (hq : q.length < 256) :
  q ++ [b] <+: k.bits ↔ q <+: k.bits ∧ k.bit q.length = b
  := ⟨fun h => ⟨(List.prefix_append q [b]).trans h, KeyPath.bit_of_prefix h⟩,
    fun ⟨h, hb⟩ => hb ▸ KeyPath.prefix_append_bit h hq⟩

theorem KeyPath.ext_bits {k k' : KeyPath} (h : k.bits = k'.bits) :
  k = k'
  := by
  cases k
  cases k'
  cases h
  rfl


/-- The leaves below `q` whose bit at depth `q.length` is clear are those below `q ++ [false]`. -/
theorem filter_not_bit (ls : List (LeafData Node)) {q : List Bool} (hq : q.length < 256) :
  (ls.filter fun l => q <+: l.keyPath.bits).filter (fun l => !l.keyPath.bit q.length) =
    ls.filter fun l => q ++ [false] <+: l.keyPath.bits
  := by
  rw [List.filter_filter]
  refine List.filter_congr fun l _ => ?_
  by_cases hp : q <+: l.keyPath.bits <;> simp [KeyPath.prefix_append_iff hq, hp]

/-- The leaves below `q` whose bit at depth `q.length` is set are those below `q ++ [true]`. -/
theorem filter_bit (ls : List (LeafData Node)) {q : List Bool} (hq : q.length < 256) :
  (ls.filter fun l => q <+: l.keyPath.bits).filter (fun l => l.keyPath.bit q.length) =
    ls.filter fun l => q ++ [true] <+: l.keyPath.bits
  := by
  rw [List.filter_filter]
  refine List.filter_congr fun l _ => ?_
  by_cases hp : q <+: l.keyPath.bits <;> simp [KeyPath.prefix_append_iff hq, hp, Bool.and_comm]

/-- Two leaves with distinct keys never lie below one same position at depth 256. -/
theorem length_filter_prefix_le_one {ls : List (LeafData Node)}
    (hls : (ls.map (·.keyPath)).Nodup) {q : List Bool} (hq : 256 ≤ q.length) :
  (ls.filter fun l => q <+: l.keyPath.bits).length ≤ 1
  := by
  have hkeys : ((ls.filter fun l => q <+: l.keyPath.bits).map (·.keyPath)).Nodup :=
    hls.sublist ((List.filter_sublist _).map _)
  have hbits : ∀ l ∈ ls.filter (fun l => q <+: l.keyPath.bits), l.keyPath.bits = q := by
    intro l hl
    have hpre : q <+: l.keyPath.bits := by simpa using (List.mem_filter.mp hl).2
    have hlen := hpre.length_le
    rw [l.keyPath.length_bits] at hlen
    exact (hpre.eq_of_length (by rw [l.keyPath.length_bits]; omega)).symm
  rcases hf : ls.filter (fun l => q <+: l.keyPath.bits) with _ | ⟨a, _ | ⟨b, rest⟩⟩
  · simp [hf]
  · simp [hf]
  · rw [hf] at hkeys hbits
    have hab : a.keyPath = b.keyPath := KeyPath.ext_bits
      ((hbits a (List.mem_cons_self _ _)).trans
        (hbits b (List.mem_cons_of_mem _ (List.mem_cons_self _ _))).symm)
    simp [hab] at hkeys

/-- The leaves below `q` split between its two children. -/
theorem length_filter_prefix_eq_add (ls : List (LeafData Node)) {q : List Bool}
    (hq : q.length < 256) :
  (ls.filter fun l => q <+: l.keyPath.bits).length =
    (ls.filter fun l => q ++ [false] <+: l.keyPath.bits).length +
      (ls.filter fun l => q ++ [true] <+: l.keyPath.bits).length
  := by
  rw [List.length_eq_length_filter_add (fun l : LeafData Node => l.keyPath.bit q.length),
    filter_bit ls hq, filter_not_bit ls hq, Nat.add_comm]

variable [Zero Node]

/-- The root of the compacted sub-trie at position `q` holding those of the leaves `ls` whose
keys lie below `q`. -/
def subRoot (H : NodeHasher Node) (ls : List (LeafData Node)) (q : List Bool) : Node :=
  (Trie.ofLeaves (256 - q.length) q.length (ls.filter fun l => q <+: l.keyPath.bits)).hash H

variable {H : NodeHasher Node}

theorem subRoot_perm {ls ls' : List (LeafData Node)} (h : ls.Perm ls') (q : List Bool) :
  subRoot H ls q = subRoot H ls' q
  := by
  rw [subRoot, subRoot, Trie.ofLeaves_perm (h.filter _)]

@[simp]
theorem subRoot_nil (ls : List (LeafData Node)) :
  subRoot H ls [] = (Trie.ofLeaves 256 0 ls).hash H
  := by
  rw [subRoot, List.filter_eq_self.mpr fun l _ => by simp]
  rfl

theorem subRoot_of_filter_eq_nil {ls : List (LeafData Node)} {q : List Bool}
    (h : ls.filter (fun l => q <+: l.keyPath.bits) = []) :
  subRoot H ls q = terminator
  := by
  rw [subRoot, h, Trie.ofLeaves_nil, Trie.hash_empty]

theorem subRoot_of_filter_eq_singleton {ls : List (LeafData Node)} {q : List Bool}
    {l : LeafData Node} (h : ls.filter (fun l => q <+: l.keyPath.bits) = [l]) :
  subRoot H ls q = H.hashLeaf l
  := by
  rw [subRoot, h, Trie.ofLeaves_singleton, Trie.hash_leaf]

/-- Above depth 256, a sub-trie holding two leaves or more is the internal node over the
sub-roots of the two children. -/
theorem subRoot_of_two_le {ls : List (LeafData Node)} {q : List Bool} (hq : q.length < 256)
    (h : 2 ≤ (ls.filter fun l => q <+: l.keyPath.bits).length) :
  subRoot H ls q = H.hashInternal ⟨subRoot H ls (q ++ [false]), subRoot H ls (q ++ [true])⟩
  := by
  obtain ⟨fuel, hfuel⟩ : ∃ fuel, 256 - q.length = fuel + 1 := ⟨255 - q.length, by omega⟩
  have hchild : 256 - (q.length + 1) = fuel := by omega
  simp only [subRoot, hfuel, Trie.ofLeaves_of_two_le _ _ h, Trie.hash_internal,
    filter_not_bit ls hq, filter_bit ls hq, hchild, List.length_append, List.length_singleton]

/-! ### Kinds of sub-roots -/

section Kind

variable (hH : H.Classifies)
include hH

theorem nodeKind_subRoot_of_filter_eq_nil {ls : List (LeafData Node)} {q : List Bool}
    (h : ls.filter (fun l => q <+: l.keyPath.bits) = []) :
  H.nodeKind (subRoot H ls q) = .terminator
  := by
  rw [subRoot_of_filter_eq_nil h, hH.nodeKind_terminator]

theorem nodeKind_subRoot_of_filter_eq_singleton {ls : List (LeafData Node)} {q : List Bool}
    {l : LeafData Node} (h : ls.filter (fun l => q <+: l.keyPath.bits) = [l]) :
  H.nodeKind (subRoot H ls q) = .leaf
  := by
  rw [subRoot_of_filter_eq_singleton h, hH.nodeKind_hashLeaf]

/-- A sub-trie at depth 256 at most, of leaves with distinct keys, holding two leaves or more,
has an internal root. -/
theorem nodeKind_subRoot_of_two_le {ls : List (LeafData Node)}
    (hls : (ls.map (·.keyPath)).Nodup) {q : List Bool} (hq : q.length ≤ 256)
    (h : 2 ≤ (ls.filter fun l => q <+: l.keyPath.bits).length) :
  H.nodeKind (subRoot H ls q) = .internal
  := by
  have hlt : q.length < 256 := by
    by_contra hge
    have := length_filter_prefix_le_one hls (q := q) (by omega)
    omega
  rw [subRoot_of_two_le hlt h, hH.nodeKind_hashInternal]

end Kind

/-! ### Sub-roots of well-formed tries -/

/-- A sub-root is blind to leaves that do not lie below its position. -/
theorem subRoot_append_of_not_prefix_right {ls ls' : List (LeafData Node)} {q : List Bool}
    (h : ∀ l ∈ ls', ¬ q <+: l.keyPath.bits) :
  subRoot H (ls ++ ls') q = subRoot H ls q
  := by
  have h' : ls'.filter (fun l => q <+: l.keyPath.bits) = [] :=
    List.filter_eq_nil_iff.mpr (by simpa using h)
  rw [subRoot, subRoot, List.filter_append, h', List.append_nil]

theorem subRoot_append_of_not_prefix_left {ls ls' : List (LeafData Node)} {q : List Bool}
    (h : ∀ l ∈ ls, ¬ q <+: l.keyPath.bits) :
  subRoot H (ls ++ ls') q = subRoot H ls' q
  := by
  have h' : ls.filter (fun l => q <+: l.keyPath.bits) = [] :=
    List.filter_eq_nil_iff.mpr (by simpa using h)
  rw [subRoot, subRoot, List.filter_append, h', List.nil_append]

/-- Every node of a well-formed trie is the sub-root of its leaves at its position. -/
theorem Trie.WellFormedAt.hash_eq_subRoot {pos : List Bool} {T : Trie Node}
    (hT : T.WellFormedAt pos) :
  T.hash H = subRoot H T.leaves pos
  := by
  rw [subRoot, List.filter_eq_self.mpr fun l hl => by simpa using hT.prefix_of_mem_leaves hl,
    ← hT.eq_ofLeaves]

end Nomt
