import Nomt.Trie.Bits

/-!
# Nodes and hashers

A node is the digest the trie is built from, `[u8; 32]` in the code.  The model keeps it
abstract: any type with decidable equality whose zero is `TERMINATOR`, the node of an
empty sub-trie.  A `NodeHasher` is the pluggable oracle of the trie: `hash_leaf`,
`hash_internal`, and `node_kind`, which tells the three kinds of node apart.

The oracle contract asks that `node_kind` classify the terminator, leaf hashes and
internal hashes correctly (`NodeHasher.Classifies`), and that both hashes be injective
(`NodeHasher.Contract`).  `freeHasher`, over the free node type, meets it.
-/

namespace Nomt

/-- `KeyPath`: a key of 256 bits, most significant first.  The lexicographic order of the
byte array is the order `compareBits` gives these bits. -/
structure KeyPath where
  bits : List Bool
  length_bits : bits.length = 256
deriving DecidableEq

/-- `LeafData`: a key and the hash of its value. -/
structure LeafData (Node : Type) where
  keyPath : KeyPath
  valueHash : Node
deriving DecidableEq

/-- `InternalData`: the two children of an internal node. -/
structure InternalData (Node : Type) where
  left : Node
  right : Node
deriving DecidableEq

variable {Node : Type}

/-- The children of the node above `node`, whose sibling is `sibling`, along a path whose
bit at that depth is `bit`: a set bit makes `node` the right child. -/
def InternalData.ofBit (bit : Bool) (node sibling : Node) : InternalData Node :=
  if bit then ⟨sibling, node⟩ else ⟨node, sibling⟩

@[simp]
theorem InternalData.ofBit_false (node sibling : Node) :
  InternalData.ofBit false node sibling = ⟨node, sibling⟩
  := rfl

@[simp]
theorem InternalData.ofBit_true (node sibling : Node) :
  InternalData.ofBit true node sibling = ⟨sibling, node⟩
  := rfl

theorem InternalData.ofBit_inj {bit : Bool} {n₁ n₂ s₁ s₂ : Node}
    (h : InternalData.ofBit bit n₁ s₁ = InternalData.ofBit bit n₂ s₂) :
  n₁ = n₂ ∧ s₁ = s₂
  := by
  cases bit <;> simp_all

/-- `NodeKind`: the three kinds of node. -/
inductive NodeKind
  | terminator
  | leaf
  | internal
deriving DecidableEq

/-- `NodeHasher`: hashing of leaves and internal nodes, and the classifier of nodes. -/
structure NodeHasher (Node : Type) where
  hashLeaf : LeafData Node → Node
  hashInternal : InternalData Node → Node
  nodeKind : Node → NodeKind

variable [Zero Node]

/-- `TERMINATOR`, the all-zero node of an empty sub-trie. -/
def terminator : Node := 0

namespace NodeHasher

variable (H : NodeHasher Node)

/-- The classification part of the oracle contract: `node_kind` recognises the
terminator, every leaf hash and every internal hash. -/
structure Classifies : Prop where
  nodeKind_terminator : H.nodeKind terminator = .terminator
  nodeKind_hashLeaf : ∀ l, H.nodeKind (H.hashLeaf l) = .leaf
  nodeKind_hashInternal : ∀ d, H.nodeKind (H.hashInternal d) = .internal

/-- The oracle contract of spec §4.1: correct classification, so the images of the two
hashes are disjoint and avoid the terminator, and both hashes injective. -/
structure Contract extends H.Classifies : Prop where
  hashLeaf_injective : Function.Injective H.hashLeaf
  hashInternal_injective : Function.Injective H.hashInternal

/-- The collisions of `hash_internal` that two verified paths can exhibit: two different
children pairs with one hash, or an internal hash equal to a leaf hash or to the
terminator. -/
def InternalCollision : Prop :=
  (∃ d₁ d₂, d₁ ≠ d₂ ∧ H.hashInternal d₁ = H.hashInternal d₂) ∨
    (∃ d l, H.hashInternal d = H.hashLeaf l) ∨ ∃ d, H.hashInternal d = terminator

variable {H}

theorem Classifies.hashLeaf_ne_terminator (hH : H.Classifies) (l : LeafData Node) :
  H.hashLeaf l ≠ terminator
  := fun h => by simpa [h, hH.nodeKind_terminator] using hH.nodeKind_hashLeaf l

theorem Classifies.hashInternal_ne_terminator (hH : H.Classifies) (d : InternalData Node) :
  H.hashInternal d ≠ terminator
  := fun h => by simpa [h, hH.nodeKind_terminator] using hH.nodeKind_hashInternal d

theorem Classifies.hashInternal_ne_hashLeaf (hH : H.Classifies) (d : InternalData Node)
    (l : LeafData Node) :
  H.hashInternal d ≠ H.hashLeaf l
  := fun h => by simpa [h, hH.nodeKind_hashLeaf] using hH.nodeKind_hashInternal d

/-- Under the contract, `hash_internal` has no collision. -/
theorem Contract.not_internalCollision (hH : H.Contract) :
  ¬ H.InternalCollision
  := by
  rintro (⟨d₁, d₂, hne, h⟩ | ⟨d, l, h⟩ | ⟨d, h⟩)
  · exact hne (hH.hashInternal_injective h)
  · exact hH.hashInternal_ne_hashLeaf d l h
  · exact hH.hashInternal_ne_terminator d h

end NodeHasher

/-! ### The free hasher -/

/-- The free node type: a node is the expression that built it. -/
inductive FreeNode
  | terminator
  | leaf (keyPath : KeyPath) (valueHash : FreeNode)
  | internal (left right : FreeNode)
deriving DecidableEq

instance : Zero FreeNode := ⟨.terminator⟩

/-- The hasher whose hashes are the free nodes themselves. -/
def freeHasher : NodeHasher FreeNode where
  hashLeaf l := .leaf l.keyPath l.valueHash
  hashInternal d := .internal d.left d.right
  nodeKind
    | .terminator => .terminator
    | .leaf .. => .leaf
    | .internal .. => .internal

/-- The free hasher meets the oracle contract, which is therefore consistent. -/
theorem freeHasher_contract :
  freeHasher.Contract
  where
  nodeKind_terminator := rfl
  nodeKind_hashLeaf _ := rfl
  nodeKind_hashInternal _ := rfl
  hashLeaf_injective := by
    rintro ⟨k, v⟩ ⟨k', v'⟩ h
    cases h
    rfl
  hashInternal_injective := by
    rintro ⟨a, b⟩ ⟨a', b'⟩ h
    cases h
    rfl

end Nomt
