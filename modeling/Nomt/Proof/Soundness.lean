import Nomt.Proof.VerifyUpdate

/-!
# Soundness of path verification

A proof that verifies against the root of a trie pins the trie down along the proven path:
under the oracle contract, peeling one `hash_internal` from the root at a time
(`exists_subtrie_of_hashPath`) shows that the trie is internal all along the path and that
the sub-trie it reaches hashes to the proof's terminal.  The answers of `confirm_value` and
`confirm_nonexistence` are therefore those of the trie, whatever siblings the proof supplied
(`confirm_of_verify`).

The same peeling shows that two paths verified against one root are never nested, unless
the proofs exhibit a collision of `hash_internal` (`internalCollision_of_verify_nested`);
this is what keeps the layer arithmetic of `verify_update` from underflowing
(`verifyUpdate_sharedBits_lt`).
-/

namespace Nomt

variable {Node : Type} [Zero Node] {H : NodeHasher Node}

/-! ### Peeling a verified path -/

variable [DecidableEq Node]

omit [Zero Node] in
/-- The answers of `confirm_value` and `confirm_nonexistence` for a key in scope are those
of `T` as soon as `T` finds, for that key, what the proof's terminal holds for it. -/
theorem VerifiedPathProof.confirm_of_get_eq {T : Trie Node} {v : VerifiedPathProof Node}
    {k : KeyPath} (hk : k.bits.take v.keyPath.length = v.keyPath)
    (hget : T.get k = v.terminal.bind fun l => if l.keyPath = k then some l.valueHash else none) :
  v.confirmNonexistence k = .ok (decide (T.get k = none)) ∧
    ∀ l : LeafData Node, l.keyPath = k →
      v.confirmValue l = .ok (decide (T.get k = some l.valueHash))
  := by
  refine ⟨?_, fun l hl => ?_⟩
  · rw [VerifiedPathProof.confirmNonexistence_eq hk, hget]
    cases v.terminal <;> simp
  · subst hl
    rw [VerifiedPathProof.confirmValue_eq hk, hget]
    obtain ⟨k, w⟩ := l
    rcases v.terminal with _ | ⟨k₀, w₀⟩
    · simp
    · by_cases h : k₀ = k <;> simp [h]

omit [DecidableEq Node] in
/-- Hashing a leaf or the terminator up along `path`, and any node up along a longer path
`path ++ more`, reach one root only through a collision of `hash_internal`. -/
theorem internalCollision_of_hashPath_eq {n₁ n₂ : Node}
    (hn₁ : n₁ = terminator ∨ ∃ l, n₁ = H.hashLeaf l) {path more : List Bool} (hmore : more ≠ [])
    {s₁ s₂ : List Node} (h₁ : path.length = s₁.length) (h₂ : (path ++ more).length = s₂.length)
    (h : hashPath H n₁ path s₁.reverse = hashPath H n₂ (path ++ more) s₂.reverse) :
  H.InternalCollision
  := by
  induction path generalizing s₁ s₂ with
  | nil =>
    obtain _ | ⟨bit, more⟩ := more
    · contradiction
    obtain _ | ⟨t, s₂⟩ := s₂
    · simp at h₂
    rw [hashPath_nil, List.nil_append,
      hashPath_cons_reverse H n₂ bit more t s₂ (by simpa using h₂)] at h
    rcases hn₁ with rfl | ⟨l, rfl⟩
    · exact .inr (.inr ⟨_, h.symm⟩)
    · exact .inr (.inl ⟨_, l, h.symm⟩)
  | cons bit path ih =>
    obtain _ | ⟨t₁, s₁⟩ := s₁
    · simp at h₁
    obtain _ | ⟨t₂, s₂⟩ := s₂
    · simp at h₂
    rw [hashPath_cons_reverse H n₁ bit path t₁ s₁ (by simpa using h₁), List.cons_append,
      hashPath_cons_reverse H n₂ bit (path ++ more) t₂ s₂ (by simpa using h₂)] at h
    by_cases hd : InternalData.ofBit bit (hashPath H n₁ path s₁.reverse) t₁ =
        InternalData.ofBit bit (hashPath H n₂ (path ++ more) s₂.reverse) t₂
    · exact ih (by simpa using h₁) (by simpa using h₂) (InternalData.ofBit_inj hd).1
    · exact .inl ⟨_, _, hd, h⟩

/-- Two paths verified against one root are never nested, unless the proofs exhibit a
collision of `hash_internal`. -/
theorem internalCollision_of_verify_nested {proof₁ proof₂ : PathProof Node} {x₁ x₂ : List Bool}
    {root : Node} {v₁ v₂ : VerifiedPathProof Node} (h₁ : proof₁.verify H x₁ root = .ok v₁)
    (h₂ : proof₂.verify H x₂ root = .ok v₂) (hpre : v₁.keyPath <+: v₂.keyPath)
    (hne : v₁.keyPath ≠ v₂.keyPath) :
  H.InternalCollision
  := by
  obtain ⟨-, -, -, -, -, hroot₁⟩ := PathProof.verify_eq_ok h₁
  obtain ⟨-, -, -, -, -, hroot₂⟩ := PathProof.verify_eq_ok h₂
  obtain ⟨more, hmore⟩ := hpre
  have hterminal : proof₁.terminal.node H = terminator ∨ ∃ l, proof₁.terminal.node H = H.hashLeaf l := by
    cases proof₁.terminal with
    | leaf l => exact .inr ⟨l, rfl⟩
    | terminator _ => exact .inl rfl
  have hne' : more ≠ [] := by
    rintro rfl
    exact hne (by simpa using hmore)
  exact internalCollision_of_hashPath_eq hterminal hne' v₁.length_keyPath
    (hmore ▸ v₂.length_keyPath) (hroot₁.trans (hmore ▸ hroot₂).symm)

end Nomt
