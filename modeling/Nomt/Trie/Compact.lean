import Mathlib.Data.List.Nodup
import Mathlib.Data.List.Perm.Basic
import Nomt.Trie.Node

/-!
# Compacted tries

The state a root commits to: a binary trie over 256-bit keys, descended along the bits of a
key, most significant first, a set bit to the right.  In a compacted trie an empty
sub-trie is the terminator and a sub-trie holding a single leaf is that bare leaf, at
whatever depth: `Trie.WellFormed` says so, and `Trie.ofLeaves` builds the compacted trie
of a set of leaves.  The root is `Trie.hash`, and a trie maps a key to a value hash by
`Trie.get`.

A well-formed trie is the compacted trie of its own leaves (`WellFormedAt.eq_ofLeaves`),
so its root depends on its leaf set only.
-/

namespace Nomt

/-- A binary trie whose leaves carry `LeafData`. -/
inductive Trie (Node : Type)
  | empty
  | leaf (l : LeafData Node)
  | internal (left right : Trie Node)

/-- The bit of a key at depth `d`. -/
def KeyPath.bit (k : KeyPath) (d : Nat) : Bool := k.bits.getD d false

/-- A key below position `q ++ [b]` has bit `b` at depth `q.length`. -/
theorem KeyPath.bit_of_prefix {k : KeyPath} {q : List Bool} {b : Bool}
    (h : q ++ [b] <+: k.bits) :
  k.bit q.length = b
  := by
  obtain ⟨t, ht⟩ := h
  simp [KeyPath.bit, ← ht, List.getD_eq_getElem?_getD, List.getElem_append_right]

/-- Below position `q`, the key's bit at depth `q.length` extends the position. -/
theorem KeyPath.prefix_append_bit {k : KeyPath} {q : List Bool} (h : q <+: k.bits)
    (hq : q.length < 256) :
  q ++ [k.bit q.length] <+: k.bits
  := by
  obtain ⟨t, ht⟩ := h
  have hk := k.length_bits
  rw [← ht] at hk
  cases t with
  | nil =>
    simp at hk
    omega
  | cons x t =>
    refine ⟨t, ?_⟩
    simp [KeyPath.bit, ← ht, List.getD_eq_getElem?_getD, List.getElem_append_right]

namespace Trie

variable {Node : Type}

/-- The root node: the terminator, the leaf's hash, or the hash of the children's roots. -/
def hash [Zero Node] (H : NodeHasher Node) : Trie Node → Node
  | empty => terminator
  | leaf l => H.hashLeaf l
  | internal a b => H.hashInternal ⟨a.hash H, b.hash H⟩

/-- The leaves, left to right. -/
def leaves : Trie Node → List (LeafData Node)
  | empty => []
  | leaf l => [l]
  | internal a b => a.leaves ++ b.leaves

/-- The value hash stored for the key `k`, descending along the remaining bits `bits`. -/
def find (k : KeyPath) : Trie Node → List Bool → Option Node
  | empty, _ => none
  | leaf l, _ => if l.keyPath = k then some l.valueHash else none
  | internal a b, bit :: bits => if bit then b.find k bits else a.find k bits
  | internal _ _, [] => none

/-- The value hash the trie maps `k` to, if any. -/
def get (T : Trie Node) (k : KeyPath) : Option Node := T.find k k.bits

/-- A trie is well formed at position `pos` when each leaf sits at a prefix of its own key
and each internal node has at least two leaves below it. -/
def WellFormedAt : List Bool → Trie Node → Prop
  | _, empty => True
  | pos, leaf l => pos <+: l.keyPath.bits
  | pos, internal a b =>
    a.WellFormedAt (pos ++ [false]) ∧ b.WellFormedAt (pos ++ [true]) ∧
      2 ≤ a.leaves.length + b.leaves.length

/-- A well-formed trie, with its root at the empty position. -/
def WellFormed (T : Trie Node) : Prop := T.WellFormedAt []

instance decidableWellFormedAt : (pos : List Bool) → (T : Trie Node) → Decidable (T.WellFormedAt pos)
  | _, empty => isTrue trivial
  | pos, leaf l => inferInstanceAs (Decidable (pos <+: l.keyPath.bits))
  | pos, internal a b =>
    have := decidableWellFormedAt (pos ++ [false]) a
    have := decidableWellFormedAt (pos ++ [true]) b
    inferInstanceAs (Decidable (_ ∧ _ ∧ _))

instance (T : Trie Node) : Decidable T.WellFormed := decidableWellFormedAt [] T

/-- The compacted trie of the leaves `ls` at depth `d`: empty, a bare leaf, or an internal
node over the leaves whose bit `d` is clear and those whose bit `d` is set.  `fuel` is the
number of bits left below depth `d`. -/
def ofLeaves : Nat → Nat → List (LeafData Node) → Trie Node
  | _, _, [] => empty
  | _, _, [l] => leaf l
  | 0, _, _ => empty
  | fuel + 1, d, ls =>
    internal (ofLeaves fuel (d + 1) (ls.filter fun l => !l.keyPath.bit d))
      (ofLeaves fuel (d + 1) (ls.filter fun l => l.keyPath.bit d))

/-! ### Equations -/

section Hash

variable [Zero Node]

@[simp]
theorem hash_empty (H : NodeHasher Node) :
  (empty : Trie Node).hash H = terminator
  := rfl

@[simp]
theorem hash_leaf (H : NodeHasher Node) (l : LeafData Node) :
  (leaf l).hash H = H.hashLeaf l
  := rfl

@[simp]
theorem hash_internal (H : NodeHasher Node) (a b : Trie Node) :
  (internal a b).hash H = H.hashInternal ⟨a.hash H, b.hash H⟩
  := rfl

end Hash

@[simp]
theorem leaves_empty :
  (empty : Trie Node).leaves = []
  := rfl

@[simp]
theorem leaves_leaf (l : LeafData Node) :
  (leaf l).leaves = [l]
  := rfl

@[simp]
theorem leaves_internal (a b : Trie Node) :
  (internal a b).leaves = a.leaves ++ b.leaves
  := rfl

@[simp]
theorem ofLeaves_nil (fuel d : Nat) :
  ofLeaves fuel d ([] : List (LeafData Node)) = empty
  := by
  cases fuel <;> rfl

@[simp]
theorem ofLeaves_singleton (fuel d : Nat) (l : LeafData Node) :
  ofLeaves fuel d [l] = leaf l
  := by
  cases fuel <;> rfl

theorem ofLeaves_of_two_le (fuel d : Nat) {ls : List (LeafData Node)}
    (h : 2 ≤ ls.length) :
  ofLeaves (fuel + 1) d ls =
    internal (ofLeaves fuel (d + 1) (ls.filter fun l => !l.keyPath.bit d))
      (ofLeaves fuel (d + 1) (ls.filter fun l => l.keyPath.bit d))
  := by
  match ls, h with
  | _ :: _ :: _, _ => rfl

/-- The compacted trie of a leaf list depends on the leaves, not on their order. -/
theorem ofLeaves_perm {ls ls' : List (LeafData Node)} (h : ls.Perm ls') (fuel d : Nat) :
  ofLeaves fuel d ls = ofLeaves fuel d ls'
  := by
  induction fuel generalizing d ls ls' with
  | zero =>
    rcases ls with _ | ⟨a, _ | ⟨b, rest⟩⟩
    · rw [h.nil_eq]
    · rw [List.perm_singleton.mp h.symm]
    · obtain ⟨a', b', rest', rfl⟩ : ∃ a' b' rest', ls' = a' :: b' :: rest' := by
        match ls', h.length_eq with
        | a' :: b' :: rest', _ => exact ⟨a', b', rest', rfl⟩
      rfl
  | succ fuel ih =>
    rcases ls with _ | ⟨a, _ | ⟨b, rest⟩⟩
    · rw [h.nil_eq]
    · rw [List.perm_singleton.mp h.symm]
    · have h2 : 2 ≤ ls'.length := by simp [← h.length_eq]
      rw [ofLeaves_of_two_le _ _ (by simp), ofLeaves_of_two_le _ _ h2, ih (h.filter _),
        ih (h.filter _)]

/-! ### Well-formed tries -/

/-- Every leaf of a trie well formed at `pos` has a key below `pos`. -/
theorem WellFormedAt.prefix_of_mem_leaves {pos : List Bool} {T : Trie Node}
    (hT : T.WellFormedAt pos) {l : LeafData Node} (hl : l ∈ T.leaves) :
  pos <+: l.keyPath.bits
  := by
  induction T generalizing pos with
  | empty => simp at hl
  | leaf l' =>
    simp only [leaves_leaf, List.mem_singleton] at hl
    exact hl ▸ hT
  | internal a b iha ihb =>
    obtain ⟨ha, hb, -⟩ := hT
    rcases List.mem_append.mp hl with hl | hl
    · exact (List.prefix_append _ _).trans (iha ha hl)
    · exact (List.prefix_append _ _).trans (ihb hb hl)

/-- Leaves on the side of bit `b` below `pos` have bit `b` at depth `pos.length`. -/
theorem WellFormedAt.bit_of_mem_leaves {pos : List Bool} {b : Bool} {T : Trie Node}
    (hT : T.WellFormedAt (pos ++ [b])) {l : LeafData Node} (hl : l ∈ T.leaves) :
  l.keyPath.bit pos.length = b
  := KeyPath.bit_of_prefix (hT.prefix_of_mem_leaves hl)

/-- An internal node of a well-formed trie sits above depth 256. -/
theorem WellFormedAt.length_lt {pos : List Bool} {a b : Trie Node}
    (hT : (internal a b).WellFormedAt pos) :
  pos.length < 256
  := by
  obtain ⟨ha, hb, h2⟩ := hT
  have key_le {q : List Bool} {T : Trie Node} (hq : T.WellFormedAt q) {l : LeafData Node}
      (hl : l ∈ T.leaves) : q.length ≤ 256 :=
    l.keyPath.length_bits ▸ (hq.prefix_of_mem_leaves hl).length_le
  obtain ⟨l, hl⟩ :=
    List.exists_mem_of_length_pos (show 0 < (a.leaves ++ b.leaves).length by simp; omega)
  rcases List.mem_append.mp hl with hl | hl
  · simpa [Nat.lt_iff_add_one_le] using key_le ha hl
  · simpa [Nat.lt_iff_add_one_le] using key_le hb hl

/-- The keys of a well-formed trie are pairwise distinct. -/
theorem WellFormedAt.nodup_keys {pos : List Bool} {T : Trie Node} (hT : T.WellFormedAt pos) :
  (T.leaves.map (·.keyPath)).Nodup
  := by
  induction T generalizing pos with
  | empty => simp
  | leaf l => simp
  | internal a b iha ihb =>
    obtain ⟨ha, hb, -⟩ := hT
    rw [leaves_internal, List.map_append, List.nodup_append]
    refine ⟨iha ha, ihb hb, ?_⟩
    simp only [List.disjoint_left, List.mem_map]
    rintro _ ⟨la, hla, rfl⟩ ⟨lb, hlb, hk⟩
    have h₁ := ha.bit_of_mem_leaves hla
    have h₂ := hb.bit_of_mem_leaves hlb
    rw [hk] at h₂
    simp [h₁] at h₂

/-- A well-formed trie is the compacted trie of its leaves. -/
theorem WellFormedAt.eq_ofLeaves {pos : List Bool} {T : Trie Node} (hT : T.WellFormedAt pos) :
  T = ofLeaves (256 - pos.length) pos.length T.leaves
  := by
  induction T generalizing pos with
  | empty => simp
  | leaf l => simp
  | internal a b iha ihb =>
    have hlt := hT.length_lt
    obtain ⟨ha, hb, h2⟩ := hT
    obtain ⟨fuel, hfuel⟩ : ∃ fuel, 256 - pos.length = fuel + 1 := ⟨255 - pos.length, by omega⟩
    have hfuel' : 256 - (pos.length + 1) = fuel := by omega
    rw [hfuel, leaves_internal, ofLeaves_of_two_le _ _ (by simpa using h2), List.filter_append,
      List.filter_append, List.filter_eq_self.mpr, List.filter_eq_nil_iff.mpr, List.append_nil,
      List.filter_eq_nil_iff.mpr, List.filter_eq_self.mpr, List.nil_append]
    · have ea := iha ha
      have eb := ihb hb
      simp only [List.length_append, List.length_singleton, hfuel'] at ea eb
      rw [← ea, ← eb]
    all_goals intro l hl
    · simp [hb.bit_of_mem_leaves hl]
    · simp [ha.bit_of_mem_leaves hl]
    · simp [hb.bit_of_mem_leaves hl]
    · simp [ha.bit_of_mem_leaves hl]

end Trie

end Nomt
