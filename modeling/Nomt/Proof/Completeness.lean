import Nomt.Proof.Soundness

/-!
# Completeness of path verification

The proof an honest prover builds for a key (`Trie.prove`) descends the trie along the key's
bits, most significant first and a set bit to the right, collecting the siblings it passes,
down to the leaf or the empty sub-trie it reaches.  For every hasher, such a proof verifies
against the root, proves the first `siblings.len()` bits of the key, and answers
`confirm_value` and `confirm_nonexistence` as the trie does for every key below them
(`verify_prove`).
-/

namespace Nomt

variable {Node : Type} [Zero Node]

namespace Trie

/-- The honest proof for `bits` in a trie at position `pos`: the terminal reached along
`bits`, and the siblings passed on the way, shallowest first. -/
def proveAt (H : NodeHasher Node) (pos : List Bool) : Trie Node → List Bool → PathProof Node
  | internal a b, false :: bits =>
    let below := a.proveAt H (pos ++ [false]) bits
    ⟨below.terminal, b.hash H :: below.siblings⟩
  | internal a b, true :: bits =>
    let below := b.proveAt H (pos ++ [true]) bits
    ⟨below.terminal, a.hash H :: below.siblings⟩
  | leaf l, _ => ⟨.leaf l, []⟩
  | _, _ => ⟨.terminator ⟨pos⟩, []⟩

/-- The honest proof for `bits`. -/
def prove (H : NodeHasher Node) (T : Trie Node) (bits : List Bool) : PathProof Node :=
  T.proveAt H [] bits

variable {H : NodeHasher Node}

/-- Hashing the honest proof's terminal up along the bits it consumed gives the root, when
the bits reach depth 256 and so never run out above a leaf or an empty sub-trie. -/
theorem hashPath_proveAt {pos : List Bool} {T : Trie Node} (hT : T.WellFormedAt pos)
    (bits : List Bool) (hbits : 256 ≤ pos.length + bits.length) :
  (T.proveAt H pos bits).siblings.length ≤ bits.length ∧
    hashPath H ((T.proveAt H pos bits).terminal.node H)
      (bits.take (T.proveAt H pos bits).siblings.length)
      (T.proveAt H pos bits).siblings.reverse = T.hash H
  := by
  induction T generalizing pos bits with
  | empty => simp [proveAt, PathProofTerminal.node]
  | leaf l => simp [proveAt, PathProofTerminal.node]
  | internal a b iha ihb =>
    have hlt := hT.length_lt
    obtain ⟨ha, hb, -⟩ := hT
    obtain _ | ⟨_ | _, bits⟩ := bits
    · simp at hbits
      omega
    · obtain ⟨hlen, hpath⟩ := iha ha bits (by simp at hbits ⊢; omega)
      simp only [proveAt, List.length_cons, List.take_succ_cons]
      refine ⟨by omega, ?_⟩
      rw [hashPath_cons_reverse _ _ _ _ _ _ (by simpa using hlen), hpath]
      rfl
    · obtain ⟨hlen, hpath⟩ := ihb hb bits (by simp at hbits ⊢; omega)
      simp only [proveAt, List.length_cons, List.take_succ_cons]
      refine ⟨by omega, ?_⟩
      rw [hashPath_cons_reverse _ _ _ _ _ _ (by simpa using hlen), hpath]
      rfl

/-- In a trie well formed at `pos`, the honest proof has at most `256 - pos.length`
siblings. -/
theorem length_siblings_proveAt_le {pos : List Bool} {T : Trie Node} (hT : T.WellFormedAt pos)
    (bits : List Bool) :
  (T.proveAt H pos bits).siblings.length ≤ 256 - pos.length
  := by
  induction T generalizing pos bits with
  | empty => simp [proveAt]
  | leaf l => simp [proveAt]
  | internal a b iha ihb =>
    have hlt := hT.length_lt
    obtain ⟨ha, hb, -⟩ := hT
    obtain _ | ⟨_ | _, bits⟩ := bits
    · simp [proveAt]
    · have := iha ha bits
      simp only [proveAt, List.length_cons, List.length_append, List.length_singleton] at this ⊢
      omega
    · have := ihb hb bits
      simp only [proveAt, List.length_cons, List.length_append, List.length_singleton] at this ⊢
      omega

/-- Below the bits the honest proof consumed, the trie holds what its terminal holds. -/
theorem find_proveAt {pos : List Bool} {T : Trie Node} (hT : T.WellFormedAt pos)
    (bits : List Bool) (hbits : 256 ≤ pos.length + bits.length) (k : KeyPath) (rest : List Bool) :
  T.find k (bits.take (T.proveAt H pos bits).siblings.length ++ rest) =
    (T.proveAt H pos bits).terminal.asLeafOption.bind
      fun l => if l.keyPath = k then some l.valueHash else none
  := by
  induction T generalizing pos bits with
  | empty => simp [proveAt, find, PathProofTerminal.asLeafOption]
  | leaf l => simp [proveAt, find, PathProofTerminal.asLeafOption]
  | internal a b iha ihb =>
    have hlt := hT.length_lt
    obtain ⟨ha, hb, -⟩ := hT
    obtain _ | ⟨_ | _, bits⟩ := bits
    · simp at hbits
      omega
    · have := iha ha bits (by simp at hbits ⊢; omega)
      simpa [proveAt, find] using this
    · have := ihb hb bits (by simp at hbits ⊢; omega)
      simpa [proveAt, find] using this

end Trie

variable [DecidableEq Node]

/-- Completeness of a single path: for every hasher, the honest proof for a key of a
well-formed trie verifies against the root, proves the first `siblings.len()` bits of the
key, and answers for every key below them as the trie does. -/
theorem verify_prove (H : NodeHasher Node) (T : Trie Node) (hT : T.WellFormed) (k : KeyPath) :
  ∃ v : VerifiedPathProof Node, (T.prove H k.bits).verify H k.bits (T.hash H) = .ok v ∧
    v.keyPath = k.bits.take (T.prove H k.bits).siblings.length ∧
    ∀ k' : KeyPath, k'.bits.take v.keyPath.length = v.keyPath →
      v.confirmNonexistence k' = .ok (decide (T.get k' = none)) ∧
        ∀ l : LeafData Node, l.keyPath = k' →
          v.confirmValue l = .ok (decide (T.get k' = some l.valueHash))
  := by
  have hk := k.length_bits
  simp only [Trie.prove]
  obtain ⟨-, hpath⟩ := Trie.hashPath_proveAt (H := H) hT k.bits (by simp [hk])
  have hle := Trie.length_siblings_proveAt_le (H := H) hT k.bits
  simp only [List.length_nil, Nat.sub_zero] at hle
  have hlen : (k.bits.take (T.proveAt H [] k.bits).siblings.length).length =
      (T.proveAt H [] k.bits).siblings.length := by
    simp only [List.length_take]
    omega
  have hverify : (T.proveAt H [] k.bits).verify H k.bits (T.hash H) = .ok
      { keyPath := k.bits.take (T.proveAt H [] k.bits).siblings.length
        terminal := (T.proveAt H [] k.bits).terminal.asLeafOption
        siblings := (T.proveAt H [] k.bits).siblings
        root := T.hash H
        length_keyPath := hlen
        length_siblings_le := hle } := by
    simp only [PathProof.verify]
    rw [dif_neg (by omega), if_pos hpath]
  refine ⟨_, hverify, rfl, fun k' hk' => VerifiedPathProof.confirm_of_get_eq hk' ?_⟩
  simp only [hlen] at hk' ⊢
  rw [Trie.get, ← List.take_append_drop (T.proveAt H [] k.bits).siblings.length k'.bits, hk']
  exact Trie.find_proveAt hT k.bits (by simp [hk]) k' _

/-- The empty trie is well formed, so `verify_prove` applies to it. -/
theorem verify_prove_empty :
  (Trie.empty : Trie FreeNode).WellFormed ∧
    ∃ v : VerifiedPathProof FreeNode,
      ((Trie.empty : Trie FreeNode).prove freeHasher (List.replicate 256 false)).verify freeHasher
          (List.replicate 256 false) ((Trie.empty : Trie FreeNode).hash freeHasher) = .ok v ∧
        v.keyPath = (List.replicate 256 false).take
          ((Trie.empty : Trie FreeNode).prove freeHasher (List.replicate 256 false)).siblings.length ∧
        ∀ k' : KeyPath, k'.bits.take v.keyPath.length = v.keyPath →
          v.confirmNonexistence k' = .ok (decide ((Trie.empty : Trie FreeNode).get k' = none)) ∧
            ∀ l : LeafData FreeNode, l.keyPath = k' →
              v.confirmValue l =
                .ok (decide ((Trie.empty : Trie FreeNode).get k' = some l.valueHash))
  := ⟨trivial, verify_prove freeHasher .empty trivial
    ⟨List.replicate 256 false, List.length_replicate 256 false⟩⟩

end Nomt
