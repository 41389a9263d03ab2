import Mathlib.Data.List.Sort
import Mathlib.Data.List.Pairwise
import Nomt.Proof.Completeness
import Nomt.Proof.Stitch

/-!
# The batch round trip

The honest batch for a set of operations on a well-formed trie (`Trie.batch`): the operations
sorted by key and grouped by the terminal of the trie their keys reach, each group paired
with the verified honest proof of its terminal, terminals from left to right.  Under the
classification contract, `verify_update` turns the batch into the root of the trie with the
operations applied directly (`verifyUpdate_batch`).

The terminals of a trie (`Trie.terminals`) are the positions of its leaves and empty
sub-tries.  They ascend and are pairwise incomparable, and every key lies below exactly one
of them.  The honest proof of a terminal consumes its position, names the leaf below it, and
carries the sub-roots of the trie's leaves at the sibling positions along it; where no path of
the batch lies below a sibling, no operation does, so that sub-root is unchanged and the
frontier may use it (`frontier_eq_subRoot`).
-/

namespace Nomt

variable {Node : Type}

namespace Trie

/-- The positions of the terminals of a trie, its leaves and empty sub-tries, left to right
and relative to its root. -/
def terminals : Trie Node → List (List Bool)
  | internal a b => a.terminals.map (false :: ·) ++ b.terminals.map (true :: ·)
  | _ => [[]]

theorem mem_terminals_internal {a b : Trie Node} {q : List Bool} :
  q ∈ (internal a b).terminals ↔
    (∃ q' ∈ a.terminals, q = false :: q') ∨ ∃ q' ∈ b.terminals, q = true :: q'
  := by
  simp only [terminals, List.mem_append, List.mem_map]
  constructor <;> rintro (⟨q', hq', rfl⟩ | ⟨q', hq', rfl⟩)
  exacts [.inl ⟨q', hq', rfl⟩, .inr ⟨q', hq', rfl⟩, .inl ⟨q', hq', rfl⟩, .inr ⟨q', hq', rfl⟩]

/-- The terminals of a trie ascend and are pairwise incomparable. -/
theorem pairwise_terminals (T : Trie Node) :
  T.terminals.Pairwise fun p q => compareBits p q = .lt ∧ ¬ p <+: q ∧ ¬ q <+: p
  := by
  induction T with
  | empty => exact List.pairwise_singleton _ _
  | leaf l => exact List.pairwise_singleton _ _
  | internal a b iha ihb =>
    rw [terminals, List.pairwise_append, List.pairwise_map, List.pairwise_map]
    refine ⟨iha.imp fun h => ?_, ihb.imp fun h => ?_, ?_⟩
    · simpa [compareBits_cons_self] using h
    · simpa [compareBits_cons_self] using h
    · intro p hp q hq
      obtain ⟨p', -, rfl⟩ := List.mem_map.mp hp
      obtain ⟨q', -, rfl⟩ := List.mem_map.mp hq
      simp [compareBits_false_true]

/-- Two comparable terminals are one. -/
theorem eq_of_mem_terminals_of_prefix {T : Trie Node} {p q : List Bool} (hp : p ∈ T.terminals)
    (hq : q ∈ T.terminals) (h : p <+: q) :
  p = q
  := by
  by_contra hne
  have hinc := T.pairwise_terminals.imp (S := fun p q => ¬ p <+: q ∧ ¬ q <+: p) fun h => h.2
  exact (hinc.forall (fun _ _ h => ⟨h.2, h.1⟩) hp hq hne).1 h

/-- Every key long enough to leave a well-formed trie lies below one of its terminals. -/
theorem WellFormedAt.exists_terminal_prefix {pos : List Bool} {T : Trie Node}
    (hT : T.WellFormedAt pos) (bits : List Bool) (hbits : 256 ≤ pos.length + bits.length) :
  ∃ q ∈ T.terminals, q <+: bits
  := by
  induction T generalizing pos bits with
  | empty => exact ⟨[], List.mem_singleton_self _, List.nil_prefix⟩
  | leaf l => exact ⟨[], List.mem_singleton_self _, List.nil_prefix⟩
  | internal a b iha ihb =>
    have hlt := hT.length_lt
    obtain ⟨ha, hb, -⟩ := hT
    obtain _ | ⟨_ | _, bits⟩ := bits
    · simp at hbits
      omega
    · obtain ⟨q, hq, hpre⟩ := iha ha bits (by simp at hbits ⊢; omega)
      exact ⟨false :: q, mem_terminals_internal.mpr (.inl ⟨q, hq, rfl⟩), by simpa using hpre⟩
    · obtain ⟨q, hq, hpre⟩ := ihb hb bits (by simp at hbits ⊢; omega)
      exact ⟨true :: q, mem_terminals_internal.mpr (.inr ⟨q, hq, rfl⟩), by simpa using hpre⟩

/-- The terminals of a well-formed trie lie at depth 256 at most. -/
theorem WellFormedAt.length_le_of_mem_terminals {pos : List Bool} {T : Trie Node}
    (hT : T.WellFormedAt pos) (hpos : pos.length ≤ 256) {q : List Bool} (hq : q ∈ T.terminals) :
  pos.length + q.length ≤ 256
  := by
  induction T generalizing pos q with
  | empty => simpa [List.mem_singleton.mp hq] using hpos
  | leaf l => simpa [List.mem_singleton.mp hq] using hpos
  | internal a b iha ihb =>
    have hlt := hT.length_lt
    obtain ⟨ha, hb, -⟩ := hT
    rcases mem_terminals_internal.mp hq with ⟨q', hq', rfl⟩ | ⟨q', hq', rfl⟩
    · have := iha ha (by simp; omega) hq'
      simp at this ⊢
      omega
    · have := ihb hb (by simp; omega) hq'
      simp at this ⊢
      omega

/-- A key below one child of a position is below no position under the other child. -/
theorem not_prefix_of_prefix_append {pos k : List Bool} {b : Bool} (h : pos ++ [b] <+: k)
    (r : List Bool) :
  ¬ pos ++ (!b) :: r <+: k
  := by
  intro h'
  have h1 : pos ++ [!b] <+: k := List.IsPrefix.trans ⟨r, by simp⟩ h'
  simpa using List.prefix_of_prefix_length_le h h1 (by simp)

/-! ### Honest proofs of terminals -/

section Honest

variable [Zero Node] {H : NodeHasher Node}

/-- The honest proof of a terminal consumes exactly its position and hashes back up to the
root. -/
theorem hashPath_proveAt_terminal {pos : List Bool} {T : Trie Node} {q : List Bool}
    (hq : q ∈ T.terminals) :
  (T.proveAt H pos q).siblings.length = q.length ∧
    hashPath H ((T.proveAt H pos q).terminal.node H) q (T.proveAt H pos q).siblings.reverse =
      T.hash H
  := by
  induction T generalizing pos q with
  | empty =>
    obtain rfl := List.mem_singleton.mp hq
    exact ⟨rfl, rfl⟩
  | leaf l =>
    obtain rfl := List.mem_singleton.mp hq
    exact ⟨rfl, rfl⟩
  | internal a b iha ihb =>
    rcases mem_terminals_internal.mp hq with ⟨q', hq', rfl⟩ | ⟨q', hq', rfl⟩
    · obtain ⟨hlen, hpath⟩ := @iha (pos ++ [false]) _ hq'
      simp only [proveAt, List.length_cons, hlen, true_and]
      rw [hashPath_cons_reverse _ _ _ _ _ _ hlen.symm, hpath]
      rfl
    · obtain ⟨hlen, hpath⟩ := @ihb (pos ++ [true]) _ hq'
      simp only [proveAt, List.length_cons, hlen, true_and]
      rw [hashPath_cons_reverse _ _ _ _ _ _ hlen.symm, hpath]
      rfl

/-- The honest proof of a terminal names the leaf below it, if any. -/
theorem toList_terminal_proveAt {pos : List Bool} {T : Trie Node} (hT : T.WellFormedAt pos)
    {q : List Bool} (hq : q ∈ T.terminals) :
  (T.proveAt H pos q).terminal.asLeafOption.toList =
    T.leaves.filter fun l => pos ++ q <+: l.keyPath.bits
  := by
  induction T generalizing pos q with
  | empty =>
    obtain rfl := List.mem_singleton.mp hq
    rfl
  | leaf l =>
    obtain rfl := List.mem_singleton.mp hq
    simp [proveAt, PathProofTerminal.asLeafOption, show pos <+: l.keyPath.bits from hT]
  | internal a b iha ihb =>
    obtain ⟨ha, hb, -⟩ := hT
    rcases mem_terminals_internal.mp hq with ⟨q', hq', rfl⟩ | ⟨q', hq', rfl⟩
    · have hnil : b.leaves.filter (fun l => pos ++ false :: q' <+: l.keyPath.bits) = [] :=
        List.filter_eq_nil_iff.mpr fun l hl => by
          simpa using not_prefix_of_prefix_append (hb.prefix_of_mem_leaves hl) q'
      simp only [proveAt, leaves_internal, List.filter_append, hnil, List.append_nil, iha ha hq']
      simp
    · have hnil : a.leaves.filter (fun l => pos ++ true :: q' <+: l.keyPath.bits) = [] :=
        List.filter_eq_nil_iff.mpr fun l hl => by
          simpa using not_prefix_of_prefix_append (ha.prefix_of_mem_leaves hl) q'
      simp only [proveAt, leaves_internal, List.filter_append, hnil, List.nil_append, ihb hb hq']
      simp

/-- The leaves of the right child of a node at `pos` do not change a sub-root on its left. -/
theorem WellFormedAt.subRoot_append_leaves {pos : List Bool} {b : Trie Node}
    (hb : b.WellFormedAt (pos ++ [true])) (ls : List (LeafData Node)) (r : List Bool) :
  subRoot H (ls ++ b.leaves) (pos ++ false :: r) = subRoot H ls (pos ++ false :: r)
  := subRoot_append_of_not_prefix_right fun l hl => by
    simpa using not_prefix_of_prefix_append (hb.prefix_of_mem_leaves hl) r

/-- The leaves of the left child of a node at `pos` do not change a sub-root on its right. -/
theorem WellFormedAt.subRoot_leaves_append {pos : List Bool} {a : Trie Node}
    (ha : a.WellFormedAt (pos ++ [false])) (ls : List (LeafData Node)) (r : List Bool) :
  subRoot H (a.leaves ++ ls) (pos ++ true :: r) = subRoot H ls (pos ++ true :: r)
  := subRoot_append_of_not_prefix_left fun l hl => by
    simpa using not_prefix_of_prefix_append (ha.prefix_of_mem_leaves hl) r

/-- The honest proof of a terminal carries, at each depth, the sub-root of the trie's leaves
at the sibling position there. -/
theorem getElem?_siblings_proveAt {pos : List Bool} {T : Trie Node} (hT : T.WellFormedAt pos)
    {q : List Bool} (hq : q ∈ T.terminals) {d : Nat} (hd : d < q.length) :
  (T.proveAt H pos q).siblings[d]? = some (subRoot H T.leaves (pos ++ siblingPath q (d + 1)))
  := by
  induction T generalizing pos q d with
  | empty =>
    obtain rfl := List.mem_singleton.mp hq
    simp at hd
  | leaf l =>
    obtain rfl := List.mem_singleton.mp hq
    simp at hd
  | internal a b iha ihb =>
    obtain ⟨ha, hb, -⟩ := hT
    rcases mem_terminals_internal.mp hq with ⟨q', hq', rfl⟩ | ⟨q', hq', rfl⟩
    · cases d with
      | zero =>
        -- the first sibling is the right child
        have hsib : siblingPath (false :: q') (0 + 1) = [true] := rfl
        simp only [proveAt, List.getElem?_cons_zero, leaves_internal, hsib]
        rw [ha.subRoot_leaves_append, ← hb.hash_eq_subRoot]
      | succ d =>
        simp only [proveAt, List.getElem?_cons_succ, leaves_internal, siblingPath_cons_succ]
        rw [iha ha hq' (by simpa using hd), hb.subRoot_append_leaves]
        simp
    · cases d with
      | zero =>
        -- the first sibling is the left child
        have hsib : siblingPath (true :: q') (0 + 1) = [false] := rfl
        simp only [proveAt, List.getElem?_cons_zero, leaves_internal, hsib]
        rw [hb.subRoot_append_leaves, ← ha.hash_eq_subRoot]
      | succ d =>
        simp only [proveAt, List.getElem?_cons_succ, leaves_internal, siblingPath_cons_succ]
        rw [ihb hb hq' (by simpa using hd), ha.subRoot_leaves_append]
        simp

end Honest

end Trie

variable [Zero Node] [DecidableEq Node]

/-- The honest proof of a terminal of a well-formed trie verifies against the root and proves
the terminal's position. -/
theorem verify_prove_terminal (H : NodeHasher Node) {T : Trie Node} (hT : T.WellFormed)
    {q : List Bool} (hq : q ∈ T.terminals) :
  ∃ v : VerifiedPathProof Node, (T.prove H q).verify H q (T.hash H) = .ok v ∧ v.keyPath = q ∧
    v.terminal = (T.prove H q).terminal.asLeafOption ∧ v.siblings = (T.prove H q).siblings ∧
    v.root = T.hash H
  := by
  obtain ⟨hlen, hpath⟩ := @Trie.hashPath_proveAt_terminal _ _ H [] _ _ hq
  have h256 := hT.length_le_of_mem_terminals (by simp) hq
  simp only [List.length_nil, Nat.zero_add] at h256
  simp only [PathProof.verify, Trie.prove]
  rw [dif_neg (by omega)]
  simp only [hlen, List.take_length]
  rw [if_pos hpath]
  exact ⟨_, rfl, rfl, rfl, rfl, rfl⟩

/-! ### The honest batch -/

omit [Zero Node] [DecidableEq Node] in
/-- The operations sorted by key. -/
def sortOps (ops : List (KeyPath × Option Node)) : List (KeyPath × Option Node) :=
  ops.insertionSort fun a b => compareBits a.1.bits b.1.bits ≠ .gt

omit [Zero Node] [DecidableEq Node] in
/-- The operations on keys below the position `q`. -/
def opsBelow (q : List Bool) (ops : List (KeyPath × Option Node)) :
    List (KeyPath × Option Node) :=
  ops.filter fun op => q <+: op.1.bits

/-- The honest batch of the operations `ops` on `T`: the operations sorted by key, grouped by
the terminal of `T` their keys reach, and each group paired with the verified honest proof of
its terminal, terminals from left to right. -/
def Trie.batch (H : NodeHasher Node) (T : Trie Node) (ops : List (KeyPath × Option Node)) :
    Except PathProofVerificationError (List (PathUpdate Node)) :=
  (T.terminals.filter fun q => opsBelow q (sortOps ops) ≠ []).mapM fun q => do
    let v ← (T.prove H q).verify H q (T.hash H)
    pure ⟨v, opsBelow q (sortOps ops)⟩

omit [Zero Node] [DecidableEq Node] in
/-- A `mapM` in `Except` whose every step succeeds succeeds, with results from which `key`
reads back the inputs. -/
theorem mapM_eq_ok {α β ε : Type} {f : α → Except ε β} (key : β → α) {xs : List α}
    (h : ∀ x ∈ xs, ∃ y, f x = .ok y ∧ key y = x) :
  ∃ ys, xs.mapM f = .ok ys ∧ ys.map key = xs ∧ ∀ y ∈ ys, f (key y) = .ok y
  := by
  induction xs with
  | nil => exact ⟨[], rfl, rfl, fun _ h => absurd h (List.not_mem_nil _)⟩
  | cons x xs ih =>
    obtain ⟨y, hy, hkey⟩ := h x (List.mem_cons_self x xs)
    obtain ⟨ys, hys, hmap, hall⟩ := ih fun x' hx' => h x' (List.mem_cons_of_mem x hx')
    refine ⟨y :: ys, ?_, by simp [hkey, hmap], ?_⟩
    · rw [List.mapM_cons, hy, hys]
      rfl
    · intro y' hy'
      rcases List.mem_cons.mp hy' with rfl | hy'
      · rw [hkey, hy]
      · exact hall y' hy'

/-! ### The paths of the honest batch -/

omit [Zero Node] [DecidableEq Node] in
/-- Sorted operations on distinct keys ascend strictly. -/
theorem pairwise_sortOps {ops : List (KeyPath × Option Node)} (hops : (ops.map (·.1)).Nodup) :
  (sortOps ops).Pairwise fun a b => compareBits a.1.bits b.1.bits = .lt
  := by
  haveI : IsTotal (KeyPath × Option Node) fun a b => compareBits a.1.bits b.1.bits ≠ .gt :=
    ⟨fun a b => compareBits_ne_gt_total _ _⟩
  haveI : IsTrans (KeyPath × Option Node) fun a b => compareBits a.1.bits b.1.bits ≠ .gt :=
    ⟨fun _ _ _ => compareBits_ne_gt_trans⟩
  have hsorted := List.sorted_insertionSort
    (fun a b : KeyPath × Option Node => compareBits a.1.bits b.1.bits ≠ .gt) ops
  have hnodup : ((sortOps ops).map (·.1)).Nodup :=
    ((List.perm_insertionSort _ ops).map _).nodup_iff.mpr hops
  refine (hsorted.and (List.pairwise_map.mp hnodup)).imp fun {a b} ⟨hne, hkey⟩ => ?_
  cases hc : compareBits a.1.bits b.1.bits
  · rfl
  · exact absurd (KeyPath.ext_bits (compareBits_eq_eq_iff.mp hc)) hkey
  · exact absurd hc hne

/-- `u` is the honest update of a terminal of `T` for the operations `ops`: the verified
honest proof of the terminal, with the sorted operations below it. -/
structure IsHonestUpdate (H : NodeHasher Node) (T : Trie Node)
    (ops : List (KeyPath × Option Node)) (u : PathUpdate Node) : Prop where
  mem_terminals : u.inner.keyPath ∈ T.terminals
  terminal : u.inner.terminal = (T.prove H u.inner.keyPath).terminal.asLeafOption
  siblings : u.inner.siblings = (T.prove H u.inner.keyPath).siblings
  root : u.inner.root = T.hash H
  ops_eq : u.ops = opsBelow u.inner.keyPath (sortOps ops)
  ops_ne_nil : u.ops ≠ []

/-- The honest batch of a well-formed trie is built, one honest update for each terminal with
operations below it. -/
theorem exists_batch_eq_ok (H : NodeHasher Node) {T : Trie Node} (hT : T.WellFormed)
    (ops : List (KeyPath × Option Node)) :
  ∃ paths, T.batch H ops = .ok paths ∧
    paths.map (·.inner.keyPath) = T.terminals.filter (fun q => opsBelow q (sortOps ops) ≠ []) ∧
    ∀ u ∈ paths, IsHonestUpdate H T ops u
  := by
  obtain ⟨paths, hmapM, hmap, hall⟩ := @mapM_eq_ok _ _ _
    (fun q => do
      let v ← (T.prove H q).verify H q (T.hash H)
      pure (⟨v, opsBelow q (sortOps ops)⟩ : PathUpdate Node))
    (fun u : PathUpdate Node => u.inner.keyPath)
    (T.terminals.filter fun q => opsBelow q (sortOps ops) ≠ []) fun q hq => by
      obtain ⟨v, hv, hkey, -⟩ := verify_prove_terminal H hT (List.mem_filter.mp hq).1
      exact ⟨⟨v, opsBelow q (sortOps ops)⟩, by beta_reduce; rw [hv]; rfl, hkey⟩
  refine ⟨paths, hmapM, hmap, fun u hu => ?_⟩
  have hq : u.inner.keyPath ∈ T.terminals.filter fun q => opsBelow q (sortOps ops) ≠ [] :=
    hmap ▸ List.mem_map_of_mem _ hu
  obtain ⟨hterm, hne⟩ := List.mem_filter.mp hq
  obtain ⟨v, hv, hkey, hvterm, hvsib, hvroot⟩ := verify_prove_terminal H hT hterm
  have hu' := hall u hu
  rw [hv] at hu'
  have hinner : v = u.inner := congrArg PathUpdate.inner (Except.ok.inj hu')
  have hops : opsBelow u.inner.keyPath (sortOps ops) = u.ops :=
    congrArg PathUpdate.ops (Except.ok.inj hu')
  subst hinner
  exact ⟨hterm, hvterm, hvsib, hvroot, hops.symm, hops ▸ by simpa using hne⟩

section Facts

variable {H : NodeHasher Node} {T : Trie Node} {ops : List (KeyPath × Option Node)}
  {u : PathUpdate Node}

omit [DecidableEq Node] in
/-- The sub-trie an honest update rebuilds is the sub-trie of the leaves after the
operations. -/
theorem IsHonestUpdate.buildTrie_eq (hT : T.WellFormed) (h : IsHonestUpdate H T ops u) :
  buildTrie H u.inner.keyPath.length (leafOpsSpliced u.inner.terminal u.ops) =
    subRoot H (applyOpsLeaves T.leaves ops) u.inner.keyPath
  := by
  rw [buildTrie_leafOpsSpliced, subRoot, filter_applyOpsLeaves, h.ops_eq, h.terminal, Trie.prove,
    Trie.toList_terminal_proveAt hT h.mem_terminals, List.nil_append, opsBelow, sortOps,
    Trie.ofLeaves_perm (applyOpsLeaves_perm _ ((List.perm_insertionSort _ ops).filter _))]

omit [DecidableEq Node] in
/-- The siblings of an honest update are the sub-roots of the trie's leaves along its
path. -/
theorem IsHonestUpdate.getElem?_siblings (hT : T.WellFormed) (h : IsHonestUpdate H T ops u)
    {L : Nat} (hL : 0 < L) (hLp : L ≤ u.inner.keyPath.length) :
  u.inner.siblings[L - 1]? = some (subRoot H T.leaves (siblingPath u.inner.keyPath L))
  := by
  rw [h.siblings, Trie.prove, Trie.getElem?_siblings_proveAt hT h.mem_terminals (by omega),
    Nat.sub_add_cancel hL, List.nil_append]

omit [DecidableEq Node] in
/-- Operations on no key below a position leave its sub-root as it was. -/
theorem subRoot_applyOpsLeaves_of_forall_not_prefix {ls : List (LeafData Node)} {s : List Bool}
    (h : ∀ op ∈ ops, ¬ s <+: op.1.bits) :
  subRoot H (applyOpsLeaves ls ops) s = subRoot H ls s
  := by
  have hnil : ops.filter (fun op => s <+: op.1.bits) = [] :=
    List.filter_eq_nil_iff.mpr fun op hop => by simpa using h op hop
  rw [subRoot, subRoot, filter_applyOpsLeaves, hnil, applyOpsLeaves_nil]

omit [Zero Node] in
/-- The terminal a key of the operations reaches has operations below it. -/
theorem mem_filter_terminals_of_op (hT : T.WellFormed) {op : KeyPath × Option Node}
    (hop : op ∈ ops) :
  ∃ q ∈ T.terminals.filter (fun q => opsBelow q (sortOps ops) ≠ []), q <+: op.1.bits
  := by
  obtain ⟨q, hq, hpre⟩ := hT.exists_terminal_prefix op.1.bits (by simp [op.1.length_bits])
  refine ⟨q, List.mem_filter.mpr ⟨hq, ?_⟩, hpre⟩
  have hmem : op ∈ opsBelow q (sortOps ops) :=
    List.mem_filter.mpr ⟨(List.perm_insertionSort _ ops).mem_iff.mpr hop, by simpa using hpre⟩
  simpa using List.ne_nil_of_mem hmem

/-- An operation below a sibling of a path of the honest batch lies below a path of the batch
there: its terminal is not above the sibling, since it would then be above the path. -/
theorem exists_path_below_of_op (hT : T.WellFormed) {paths : List (PathUpdate Node)}
    (hkeys : paths.map (·.inner.keyPath) =
      T.terminals.filter fun q => opsBelow q (sortOps ops) ≠ [])
    (h : IsHonestUpdate H T ops u) {L : Nat} (hL : 0 < L) (hLp : L ≤ u.inner.keyPath.length)
    {op : KeyPath × Option Node} (hop : op ∈ ops)
    (hs : siblingPath u.inner.keyPath L <+: op.1.bits) :
  ∃ u' ∈ paths, siblingPath u.inner.keyPath L <+: u'.inner.keyPath
  := by
  obtain ⟨q, hq, hpre⟩ := mem_filter_terminals_of_op hT hop
  obtain ⟨u', hu', rfl⟩ := List.mem_map.mp (by rw [hkeys]; exact hq)
  exact ⟨u', hu', siblingPath_prefix_of_shared_key hL hLp hs hpre fun habove =>
    Trie.eq_of_mem_terminals_of_prefix (List.mem_filter.mp hq).1 h.mem_terminals habove⟩

omit [Zero Node] [DecidableEq Node] in
/-- Paths at terminals of one trie, left to right, form an ascending batch. -/
theorem ascending_of_map_keyPath {P : List Bool → Bool} {paths : List (PathUpdate Node)}
    (hkeys : paths.map (·.inner.keyPath) = T.terminals.filter P) :
  Ascending paths
  := by
  have hpair := T.pairwise_terminals.sublist (List.filter_sublist (p := P) _)
  rw [← hkeys, List.pairwise_map] at hpair
  exact ⟨(hpair.imp fun h => h.1).chain', hpair.imp fun h => h.2⟩

/-- The honest batch passes the checks of `verify_update`. -/
theorem checkPaths_batch (hops : (ops.map (·.1)).Nodup) {paths : List (PathUpdate Node)}
    (hkeys : paths.map (·.inner.keyPath) =
      T.terminals.filter fun q => opsBelow q (sortOps ops) ≠ [])
    (hpaths : ∀ u ∈ paths, IsHonestUpdate H T ops u) :
  checkPaths (T.hash H) none paths = .ok ()
  := by
  rw [checkPaths_eq_ok]
  refine ⟨fun u hu => ⟨(hpaths u hu).root, (hpaths u hu).ops_ne_nil, ?_⟩, ?_⟩
  · rw [checkOps_eq_ok, (hpaths u hu).ops_eq]
    refine ⟨fun op hop => by simpa using (List.mem_filter.mp hop).2, ?_⟩
    rw [Option.toList_none, List.nil_append, List.chain'_map]
    exact ((pairwise_sortOps hops).sublist (List.filter_sublist _)).chain'
  · rw [Option.toList_none, List.nil_append, List.chain'_map]
    exact (ascending_of_map_keyPath hkeys).chain

/-- `verify_update` turns honest updates at the terminals with operations below them into the
root of the trie with the operations applied directly. -/
theorem verifyUpdate_honest (hH : H.Classifies) (hT : T.WellFormed)
    (hops : (ops.map (·.1)).Nodup) {paths : List (PathUpdate Node)}
    (hkeys : paths.map (·.inner.keyPath) =
      T.terminals.filter fun q => opsBelow q (sortOps ops) ≠ [])
    (hpaths : ∀ u ∈ paths, IsHonestUpdate H T ops u) :
  verifyUpdate H (T.hash H) paths = .ok ((T.applyOps ops).hash H)
  := by
  by_cases hnil : ops = []
  · -- no operation: the batch is empty and the root stays
    subst hnil
    have hempty : paths = [] := by
      rw [← List.map_eq_nil_iff (f := (·.inner.keyPath)), hkeys]
      simp [opsBelow, sortOps]
    subst hempty
    have hroot := congrArg (Trie.hash H) hT.eq_ofLeaves
    simp only [List.length_nil, Nat.sub_zero] at hroot
    simp [verifyUpdate, Trie.applyOps, ← hroot]
  · obtain ⟨op, hop⟩ := List.exists_mem_of_ne_nil ops hnil
    have hne : paths ≠ [] := by
      obtain ⟨q, hq, -⟩ := mem_filter_terminals_of_op hT hop
      rw [← List.length_pos, ← List.length_map paths (·.inner.keyPath), hkeys]
      exact List.length_pos_of_mem hq
    have hfrontier := frontier_eq_subRoot hH (nodup_keyPath_applyOpsLeaves hT.nodup_keys hops)
      (ascending_of_map_keyPath hkeys) (fun u hu => (hpaths u hu).buildTrie_eq hT)
      (fun u hu L hL hLp hnone => by
        rw [(hpaths u hu).getElem?_siblings hT hL hLp,
          subRoot_applyOpsLeaves_of_forall_not_prefix fun op hop hs => ?_]
        obtain ⟨u', hu', hpre⟩ := exists_path_below_of_op hT hkeys (hpaths u hu) hL hLp hop hs
        exact hnone u' hu' hpre) hne
    rw [verifyUpdate, if_neg (by simpa using hne), checkPaths_batch hops hkeys hpaths, hfrontier,
      subRoot_nil]
    rfl

end Facts

/-- Batch round trip: under the classification contract, for every well-formed trie and
every list of operations on distinct keys, the honest batch is built and `verify_update`
turns it into the root of the trie with the operations applied directly. -/
theorem verifyUpdate_batch (H : NodeHasher Node) (hH : H.Classifies) (T : Trie Node)
    (hT : T.WellFormed) (ops : List (KeyPath × Option Node)) (hops : (ops.map (·.1)).Nodup) :
  ∃ paths, T.batch H ops = .ok paths ∧
    verifyUpdate H (T.hash H) paths = .ok ((T.applyOps ops).hash H)
  := by
  obtain ⟨paths, hbatch, hkeys, hpaths⟩ := exists_batch_eq_ok H hT ops
  exact ⟨paths, hbatch, verifyUpdate_honest hH hT hops hkeys hpaths⟩

/-- One insertion into the empty trie goes through the batch round trip. -/
theorem verifyUpdate_batch_insert :
  freeHasher.Classifies ∧ (Trie.empty : Trie FreeNode).WellFormed ∧
    (([(⟨List.replicate 256 false, List.length_replicate 256 false⟩, some FreeNode.terminator)] :
      List (KeyPath × Option FreeNode)).map (·.1)).Nodup ∧
    ∃ paths, (Trie.empty : Trie FreeNode).batch freeHasher
        [(⟨List.replicate 256 false, List.length_replicate 256 false⟩, some .terminator)] =
          .ok paths ∧
      verifyUpdate freeHasher ((Trie.empty : Trie FreeNode).hash freeHasher) paths =
        .ok (((Trie.empty : Trie FreeNode).applyOps
          [(⟨List.replicate 256 false, List.length_replicate 256 false⟩, some .terminator)]).hash
            freeHasher)
  := ⟨freeHasher_contract.toClassifies, trivial, List.nodup_singleton _,
    verifyUpdate_batch freeHasher freeHasher_contract.toClassifies .empty trivial _
      (List.nodup_singleton _)⟩

/- Two inserts on the one path of the empty trie build the internal node over the two
leaves. -/
example : verifyUpdate freeHasher (0 : FreeNode)
    [⟨⟨[], none, [], 0, rfl, by decide⟩,
      [(⟨List.replicate 256 false, List.length_replicate 256 false⟩, some .terminator),
        (⟨true :: List.replicate 255 false, by rw [List.length_cons, List.length_replicate]⟩, some .terminator)]⟩] =
  .ok (freeHasher.hashInternal ⟨freeHasher.hashLeaf ⟨⟨List.replicate 256 false, List.length_replicate 256 false⟩, .terminator⟩,
    freeHasher.hashLeaf ⟨⟨true :: List.replicate 255 false, by rw [List.length_cons, List.length_replicate]⟩, .terminator⟩⟩)
  := rfl

/- Deleting both leaves of that trie, one path each, collapses it to the terminator. -/
set_option maxRecDepth 2000 in
example : verifyUpdate freeHasher
    (freeHasher.hashInternal ⟨freeHasher.hashLeaf ⟨⟨List.replicate 256 false, List.length_replicate 256 false⟩, .terminator⟩,
      freeHasher.hashLeaf ⟨⟨true :: List.replicate 255 false, by rw [List.length_cons, List.length_replicate]⟩, .terminator⟩⟩)
    [⟨⟨[false], some ⟨⟨List.replicate 256 false, List.length_replicate 256 false⟩, .terminator⟩,
        [freeHasher.hashLeaf ⟨⟨true :: List.replicate 255 false, by rw [List.length_cons, List.length_replicate]⟩, .terminator⟩],
        freeHasher.hashInternal ⟨freeHasher.hashLeaf ⟨⟨List.replicate 256 false, List.length_replicate 256 false⟩, .terminator⟩,
          freeHasher.hashLeaf ⟨⟨true :: List.replicate 255 false, by rw [List.length_cons, List.length_replicate]⟩, .terminator⟩⟩, rfl, by decide⟩,
      [(⟨List.replicate 256 false, List.length_replicate 256 false⟩, none)]⟩,
     ⟨⟨[true], some ⟨⟨true :: List.replicate 255 false, by rw [List.length_cons, List.length_replicate]⟩, .terminator⟩,
        [freeHasher.hashLeaf ⟨⟨List.replicate 256 false, List.length_replicate 256 false⟩, .terminator⟩],
        freeHasher.hashInternal ⟨freeHasher.hashLeaf ⟨⟨List.replicate 256 false, List.length_replicate 256 false⟩, .terminator⟩,
          freeHasher.hashLeaf ⟨⟨true :: List.replicate 255 false, by rw [List.length_cons, List.length_replicate]⟩, .terminator⟩⟩, rfl, by decide⟩,
      [(⟨true :: List.replicate 255 false, by rw [List.length_cons, List.length_replicate]⟩, none)]⟩] =
  .ok 0
  := rfl

end Nomt
