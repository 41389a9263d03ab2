import Nomt.Trie.Node

/-!
# Path proofs

`PathProof` and its verification (`path_proof.rs`).  A proof of a path is the terminal
node met when looking a key up, a leaf or a terminator, and the siblings met on the way
down, shallowest first.  `PathProof.verify` hashes the terminal up along the first
`siblings.len()` bits of the given key path (`hashPath`) and compares the result with the
expected root.  It yields a `VerifiedPathProof`, which answers `confirmValue` and
`confirmNonexistence` for the keys below the proven path.
-/

namespace Nomt

variable {Node : Type}

/-- `TriePosition`: a position in the trie, as the bits leading to it. -/
structure TriePosition where
  path : List Bool
deriving DecidableEq

/-- `PathProofTerminal`: the leaf or the terminator that ends a path. -/
inductive PathProofTerminal (Node : Type)
  | leaf (leafData : LeafData Node)
  | terminator (position : TriePosition)
deriving DecidableEq

namespace PathProofTerminal

/-- `PathProofTerminal::path`: the leaf's key, or the terminator's position. -/
def path : PathProofTerminal Node → List Bool
  | leaf leafData => leafData.keyPath.bits
  | terminator position => position.path

/-- `PathProofTerminal::node`: the leaf's hash, or the terminator. -/
def node [Zero Node] (H : NodeHasher Node) : PathProofTerminal Node → Node
  | leaf leafData => H.hashLeaf leafData
  | terminator _ => Nomt.terminator

/-- `PathProofTerminal::as_leaf_option`. -/
def asLeafOption : PathProofTerminal Node → Option (LeafData Node)
  | leaf leafData => some leafData
  | terminator _ => none

end PathProofTerminal

/-- `PathProof`: the terminal of a lookup and the siblings met on the way, shallowest
first. -/
structure PathProof (Node : Type) where
  terminal : PathProofTerminal Node
  siblings : List Node

/-- `hash_path`: hash `node` up to the root along the last `siblings.len()` bits of `path`,
with the siblings given deepest first. -/
def hashPath [Zero Node] (H : NodeHasher Node) (node : Node) (path : List Bool)
    (siblings : List Node) : Node :=
  (path.reverse.zip siblings).foldl
    (fun node (bit, sibling) => H.hashInternal (InternalData.ofBit bit node sibling)) node

@[simp]
theorem hashPath_nil [Zero Node] (H : NodeHasher Node) (node : Node) (siblings : List Node) :
  hashPath H node [] siblings = node
  := rfl

/-- `hash_path` seen from the root: the last step combines the shallowest sibling with the
node reached along the rest of the path. -/
theorem hashPath_cons_reverse [Zero Node] (H : NodeHasher Node) (node : Node) (bit : Bool)
    (path : List Bool) (sibling : Node) (siblings : List Node)
    (h : path.length = siblings.length) :
  hashPath H node (bit :: path) (sibling :: siblings).reverse
    = H.hashInternal (InternalData.ofBit bit (hashPath H node path siblings.reverse) sibling)
  := by
  simp only [hashPath, List.reverse_cons]
  rw [List.zip_append (by simp [h]), List.foldl_append]
  rfl

/-- `KeyOutOfScope`. -/
structure KeyOutOfScope where
deriving DecidableEq

/-- `PathProofVerificationError`. -/
inductive PathProofVerificationError
  | tooManySiblings
  | rootMismatch
deriving DecidableEq

/-- `VerifiedPathProof`: a path proof checked against `root`.  Only `verify` builds one, so
the proven path has one bit per sibling, and at most 256 of them. -/
structure VerifiedPathProof (Node : Type) where
  keyPath : List Bool
  terminal : Option (LeafData Node)
  siblings : List Node
  root : Node
  length_keyPath : keyPath.length = siblings.length
  length_siblings_le : siblings.length ≤ 256

/-- `PathProof::verify`: check the proof against `root` along `keyPath`. -/
def PathProof.verify [DecidableEq Node] [Zero Node] (H : NodeHasher Node) (proof : PathProof Node)
    (keyPath : List Bool) (root : Node) :
    Except PathProofVerificationError (VerifiedPathProof Node) :=
  if h : proof.siblings.length > min keyPath.length 256 then
    .error .tooManySiblings
  else
    let relevantPath := keyPath.take proof.siblings.length
    let curNode := proof.terminal.node H
    let newRoot := hashPath H curNode relevantPath proof.siblings.reverse
    if newRoot = root then
      .ok {
        keyPath := relevantPath
        terminal := proof.terminal.asLeafOption
        siblings := proof.siblings
        root := root
        length_keyPath := by simp only [relevantPath, List.length_take]; omega
        length_siblings_le := by omega }
    else
      .error .rootMismatch

/-- What a successful `verify` establishes. -/
theorem PathProof.verify_eq_ok [DecidableEq Node] [Zero Node] {H : NodeHasher Node}
    {proof : PathProof Node} {keyPath : List Bool} {root : Node} {v : VerifiedPathProof Node}
    (h : proof.verify H keyPath root = .ok v) :
  v.keyPath = keyPath.take proof.siblings.length ∧ v.terminal = proof.terminal.asLeafOption ∧
    v.siblings = proof.siblings ∧ v.root = root ∧ proof.siblings.length ≤ keyPath.length ∧
    hashPath H (proof.terminal.node H) v.keyPath v.siblings.reverse = root
  := by
  simp only [PathProof.verify] at h
  split at h
  · cases h
  · split at h
    · cases h
      exact ⟨rfl, rfl, rfl, rfl, by omega, by assumption⟩
    · cases h

namespace VerifiedPathProof

/-- `in_scope`: the key's first bits are the proven path. -/
def inScope (proof : VerifiedPathProof Node) (keyPath : KeyPath) : Except KeyOutOfScope Unit :=
  if proof.keyPath = keyPath.bits.take proof.keyPath.length then .ok () else .error ⟨⟩

theorem inScope_eq_ok {v : VerifiedPathProof Node} {k : KeyPath} :
  v.inScope k = .ok () ↔ k.bits.take v.keyPath.length = v.keyPath
  := by
  unfold inScope
  split_ifs with h
  · exact iff_of_true rfl h.symm
  · exact iff_of_false (by simp) fun h' => h h'.symm

/-- `confirm_nonexistence`: whether the path ends at a terminator or at another key's
leaf. -/
def confirmNonexistence (proof : VerifiedPathProof Node) (keyPath : KeyPath) :
    Except KeyOutOfScope Bool :=
  (proof.inScope keyPath).map fun _ => proof.terminal.elim true fun d => d.keyPath ≠ keyPath

theorem confirmNonexistence_eq {v : VerifiedPathProof Node} {k : KeyPath}
    (hk : k.bits.take v.keyPath.length = v.keyPath) :
  v.confirmNonexistence k = .ok (v.terminal.elim true fun d => d.keyPath ≠ k)
  := by
  simp [confirmNonexistence, inScope_eq_ok.mpr hk, Except.map]

variable [DecidableEq Node]

/-- `confirm_value`: whether the path ends at exactly this leaf. -/
def confirmValue (proof : VerifiedPathProof Node) (expectedLeaf : LeafData Node) :
    Except KeyOutOfScope Bool :=
  (proof.inScope expectedLeaf.keyPath).map fun _ => proof.terminal = some expectedLeaf

variable {v : VerifiedPathProof Node}

theorem confirmValue_eq {l : LeafData Node}
    (hk : l.keyPath.bits.take v.keyPath.length = v.keyPath) :
  v.confirmValue l = .ok (decide (v.terminal = some l))
  := by
  simp [confirmValue, inScope_eq_ok.mpr hk, Except.map]

end VerifiedPathProof

end Nomt
