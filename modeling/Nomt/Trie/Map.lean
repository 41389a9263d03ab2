import Mathlib.Data.List.GetD
import Nomt.Trie.SubRoot
import Nomt.Update

/-!
# The trie as a map

A trie denotes the map from keys to value hashes that `get` reads; in a well-formed trie
`get` finds exactly the leaves (`WellFormed.get_eq_some_iff`).  The compacted trie of leaves
with distinct keys below a position holds exactly those leaves and is well formed there
(`perm_leaves_ofLeaves`, `wellFormedAt_ofLeaves`).  So a batch of operations on distinct
keys, applied directly to a well-formed trie, leaves a well-formed trie
(`wellFormed_applyOps`) whose map is the previous one overwritten by the operations
(`get_applyOps`): a key an operation names takes that operation's value, or none for a
deletion, and every other key keeps its value.
-/

namespace Nomt

variable {Node : Type}

/-- The map after a batch of operations: a key an operation names is mapped to that
operation's value, unmapped by a deletion, and any other key as before. -/
def overwrite (get : KeyPath → Option Node) (ops : List (KeyPath × Option Node)) (k : KeyPath) :
    Option Node :=
  match ops.find? fun op => op.1 = k with
  | some op => op.2
  | none => get k

namespace Trie

/-! ### Reading a well-formed trie -/

/-- In a trie well formed at `pos`, the search for a key along its bits below `pos` finds
exactly the leaves. -/
theorem WellFormedAt.find_eq_some_iff {pos : List Bool} {T : Trie Node}
    (hT : T.WellFormedAt pos) {k : KeyPath} {v : Node} :
  T.find k (k.bits.drop pos.length) = some v ↔ ⟨k, v⟩ ∈ T.leaves
  := by
  induction T generalizing pos with
  | empty => simp [find]
  | leaf l =>
    obtain ⟨k', v'⟩ := l
    by_cases hk : k' = k
    · subst hk
      simp [find, eq_comm]
    · simp [find, hk, Ne.symm hk]
  | internal a b iha ihb =>
    have hlt := hT.length_lt
    obtain ⟨ha, hb, -⟩ := hT
    have hdrop : k.bits.drop pos.length = k.bit pos.length :: k.bits.drop (pos.length + 1) := by
      rw [List.drop_eq_getElem_cons (by rw [k.length_bits]; exact hlt), KeyPath.bit,
        List.getD_eq_getElem]
    -- a leaf on the other side has the other bit at depth `pos.length`
    have hother : ∀ {c : Trie Node} {b : Bool}, c.WellFormedAt (pos ++ [b]) →
        k.bit pos.length ≠ b → ⟨k, v⟩ ∉ c.leaves :=
      fun hc hne hmem => hne (hc.bit_of_mem_leaves hmem)
    have iha' := iha ha
    have ihb' := ihb hb
    simp only [List.length_append, List.length_singleton] at iha' ihb'
    rw [hdrop, leaves_internal, List.mem_append]
    cases hbit : k.bit pos.length
    · rw [find, if_neg Bool.false_ne_true, iha', or_iff_left (hother hb (by simp [hbit]))]
    · rw [find, if_pos rfl, ihb', or_iff_right (hother ha (by simp [hbit]))]

/-- In a well-formed trie, `get` finds exactly the leaves. -/
theorem WellFormed.get_eq_some_iff {T : Trie Node} (hT : T.WellFormed) {k : KeyPath}
    {v : Node} :
  T.get k = some v ↔ ⟨k, v⟩ ∈ T.leaves
  := WellFormedAt.find_eq_some_iff hT

/-! ### Compacted tries -/

section OfLeaves

variable {ls : List (LeafData Node)}

/-- The leaves on the side of bit `b` below `pos` lie below `pos ++ [b]`. -/
theorem prefix_of_mem_filter_bit {pos : List Bool} (hlt : pos.length < 256)
    (hpos : ∀ l ∈ ls, pos <+: l.keyPath.bits) {p : LeafData Node → Bool} {b : Bool}
    (hp : ∀ l, p l = true → l.keyPath.bit pos.length = b) :
  ∀ l ∈ ls.filter p, pos ++ [b] <+: l.keyPath.bits
  := fun l hl =>
    have hl := List.mem_filter.mp hl
    (KeyPath.prefix_append_iff hlt).mpr ⟨hpos l hl.1, hp l hl.2⟩

/-- Leaves with distinct keys below a position at depth 256 are at most one. -/
theorem length_le_one_of_prefix {pos : List Bool} (hlen : pos.length = 256)
    (hls : (ls.map (·.keyPath)).Nodup) (hpos : ∀ l ∈ ls, pos <+: l.keyPath.bits) :
  ls.length ≤ 1
  := by
  have h := length_filter_prefix_le_one hls (q := pos) (by omega)
  rwa [List.filter_eq_self.mpr fun l hl => by simpa using hpos l hl] at h

/-- The compacted trie at `pos`, with the bits left below `pos` as fuel, of leaves with
distinct keys below `pos`, holds exactly those leaves. -/
theorem perm_leaves_ofLeaves {n d : Nat} {pos : List Bool} (hd : pos.length = d)
    (hn : d + n = 256) (hls : (ls.map (·.keyPath)).Nodup)
    (hpos : ∀ l ∈ ls, pos <+: l.keyPath.bits) :
  (ofLeaves n d ls).leaves.Perm ls
  := by
  induction n generalizing pos d ls with
  | zero =>
    have hle := length_le_one_of_prefix (by omega) hls hpos
    rcases ls with _ | ⟨l, _ | ⟨l', rest⟩⟩
    · simp
    · simp
    · simp at hle
  | succ n ih =>
    rcases ls with _ | ⟨l, _ | ⟨l', rest⟩⟩
    · simp
    · simp
    · subst hd
      have hlt : pos.length < 256 := by omega
      rw [ofLeaves_of_two_le _ _ (by simp), leaves_internal]
      have hdA : (pos ++ [false]).length = pos.length + 1 := by simp
      have hdB : (pos ++ [true]).length = pos.length + 1 := by simp
      have hA := ih hdA (by omega) (hls.sublist ((List.filter_sublist _).map _))
        (prefix_of_mem_filter_bit hlt hpos
          (p := fun l : LeafData Node => !l.keyPath.bit pos.length) fun l h => by simpa using h)
      have hB := ih hdB (by omega) (hls.sublist ((List.filter_sublist _).map _))
        (prefix_of_mem_filter_bit hlt hpos
          (p := fun l : LeafData Node => l.keyPath.bit pos.length) fun l h => h)
      exact (hA.append hB).trans (List.perm_append_comm.trans
        (List.filter_append_perm (fun l : LeafData Node => l.keyPath.bit pos.length) _))

/-- The compacted trie at `pos`, with the bits left below `pos` as fuel, of leaves with
distinct keys below `pos`, is well formed at `pos`. -/
theorem wellFormedAt_ofLeaves {n d : Nat} {pos : List Bool} (hd : pos.length = d)
    (hn : d + n = 256) (hls : (ls.map (·.keyPath)).Nodup)
    (hpos : ∀ l ∈ ls, pos <+: l.keyPath.bits) :
  (ofLeaves n d ls).WellFormedAt pos
  := by
  induction n generalizing pos d ls with
  | zero =>
    have hle := length_le_one_of_prefix (by omega) hls hpos
    rcases ls with _ | ⟨l, _ | ⟨l', rest⟩⟩
    · exact trivial
    · exact hpos l (List.mem_singleton_self l)
    · simp at hle
  | succ n ih =>
    rcases ls with _ | ⟨l, _ | ⟨l', rest⟩⟩
    · exact trivial
    · exact hpos l (List.mem_singleton_self l)
    · subst hd
      have hlt : pos.length < 256 := by omega
      rw [ofLeaves_of_two_le _ _ (by simp)]
      have hposA := prefix_of_mem_filter_bit hlt hpos
        (p := fun l => !l.keyPath.bit pos.length) fun l h => by simpa using h
      have hposB := prefix_of_mem_filter_bit hlt hpos
        (p := fun l => l.keyPath.bit pos.length) fun l h => h
      have hnodA :=
        hls.sublist ((List.filter_sublist (p := fun l => !l.keyPath.bit pos.length) _).map _)
      have hnodB :=
        hls.sublist ((List.filter_sublist (p := fun l => l.keyPath.bit pos.length) _).map _)
      have hdA : (pos ++ [false]).length = pos.length + 1 := by simp
      have hdB : (pos ++ [true]).length = pos.length + 1 := by simp
      refine ⟨ih hdA (by omega) hnodA hposA, ih hdB (by omega) hnodB hposB, ?_⟩
      rw [(perm_leaves_ofLeaves hdA (by omega) hnodA hposA).length_eq,
        (perm_leaves_ofLeaves hdB (by omega) hnodB hposB).length_eq, Nat.add_comm,
        ← List.length_eq_length_filter_add fun l : LeafData Node => l.keyPath.bit pos.length]
      simp

end OfLeaves

end Trie

/-! ### Operations applied directly -/

/-- A leaf survives the operations when no operation names its key, and an operation that
writes a value leaves a leaf for it. -/
theorem mem_applyOpsLeaves {ls : List (LeafData Node)} {ops : List (KeyPath × Option Node)}
    {l : LeafData Node} :
  l ∈ applyOpsLeaves ls ops ↔
    (l ∈ ls ∧ ∀ op ∈ ops, op.1 ≠ l.keyPath) ∨ (l.keyPath, some l.valueHash) ∈ ops
  := by
  obtain ⟨k, v⟩ := l
  simp only [applyOpsLeaves, List.mem_append, List.mem_filter, List.all_eq_true,
    decide_eq_true_eq, List.mem_filterMap, Option.map_eq_some']
  constructor
  · rintro (h | ⟨⟨k', w⟩, hop, v', hw, hkv⟩)
    · exact .inl h
    · cases hkv
      exact .inr (hw ▸ hop)
  · rintro (h | h)
    · exact .inl h
    · exact .inr ⟨_, h, v, rfl, rfl⟩

variable {T : Trie Node} {ops : List (KeyPath × Option Node)}

/-- The trie after the operations holds exactly the leaves after them. -/
theorem perm_leaves_applyOps (hT : T.WellFormed) (hops : (ops.map (·.1)).Nodup) :
  (T.applyOps ops).leaves.Perm (applyOpsLeaves T.leaves ops)
  := Trie.perm_leaves_ofLeaves List.length_nil rfl
    (nodup_keyPath_applyOpsLeaves hT.nodup_keys hops) fun _ _ => List.nil_prefix

/-- A batch of operations on distinct keys, applied directly to a well-formed trie, leaves a
well-formed trie. -/
theorem wellFormed_applyOps (hT : T.WellFormed) (hops : (ops.map (·.1)).Nodup) :
  (T.applyOps ops).WellFormed
  := Trie.wellFormedAt_ofLeaves List.length_nil rfl
    (nodup_keyPath_applyOpsLeaves hT.nodup_keys hops) fun _ _ => List.nil_prefix

/-- Applied directly to a well-formed trie, a batch of operations on distinct keys overwrites
its map. -/
theorem get_applyOps (hT : T.WellFormed) (hops : (ops.map (·.1)).Nodup) (k : KeyPath) :
  (T.applyOps ops).get k = overwrite T.get ops k
  := by
  refine Option.ext fun v => ?_
  show _ = some v ↔ _ = some v
  rw [(wellFormed_applyOps hT hops).get_eq_some_iff, (perm_leaves_applyOps hT hops).mem_iff,
    mem_applyOpsLeaves, overwrite]
  dsimp only
  split
  · -- the one operation naming `k` decides its value
    rename_i op hfind
    have hop := List.mem_of_find?_eq_some hfind
    have hk : op.1 = k := by simpa using List.find?_some hfind
    have hunique : ∀ w, (k, w) ∈ ops → (k, w) = op := fun w h =>
      List.inj_on_of_nodup_map hops h hop hk.symm
    constructor
    · rintro (⟨-, h⟩ | h)
      · exact absurd hk (h op hop)
      · rw [← hunique _ h]
    · intro h
      exact .inr (by rw [← h, ← hk]; exact hop)
  · -- no operation names `k`: its value stays
    rename_i hfind
    have hnone : ∀ op ∈ ops, op.1 ≠ k := by simpa using List.find?_eq_none.mp hfind
    rw [hT.get_eq_some_iff, or_iff_left fun h => hnone _ h rfl]
    exact and_iff_left hnone

end Nomt
