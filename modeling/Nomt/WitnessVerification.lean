import Nomt.Proof.VerifyUpdate

/-!
# Checking the reads of a witness

The example `witness_verification` checks the witness of a committed batch.  It checks each
read against the verified multi proof of the witnessed paths.  A read of no value must pass
`confirm_nonexistence` and a read of a value `confirm_value`.  It then asserts that
`verify_update` leads from the previous root to the new one.  For the path `i` it visits the
reads that `skip_while` and then `take_while` select on the path index, so it reaches all the
reads of that path only when they stand together.

The verified multi proof is absent from the sources and kept abstract: the two queries the
example asks of it (`ReadConfirmer`), with the contract that they answer as the trie of the
previous root does for the keys in its scope, and fail for the others
(`ReadConfirmer.Sound`).

* `selectReads_of_sorted`: on reads ordered by path index, the selection for the path `i` is
  exactly the reads of that path, in order.
* `checkReads_eq_ok_iff`: on reads ordered by path index, the loop runs to its end exactly
  when every read of a witnessed path passes its check; reads whose path index is past the
  last path are never checked.
* `witnessVerification_eq_ok_iff`: on reads ordered by path index, the example runs to its end
  exactly when every read of a witnessed path is in scope and reads the value the previous
  trie holds for its key, and the new root is the previous root.  The example hands no paths
  to `verify_update`, which then returns the previous root.
-/

namespace Nomt

variable {Node : Type}

/-- `WitnessedRead`: a key the batch read, the value it read, and the index of the witnessed
path the key lies below. -/
structure WitnessedRead (Node : Type) where
  key : KeyPath
  value : Option Node
  pathIndex : Nat

/-- The queries the example asks of the verified multi proof, `confirm_nonexistence` and
`confirm_value`. -/
structure ReadConfirmer (Node : Type) where
  confirmNonexistence : KeyPath → Except KeyOutOfScope Bool
  confirmValue : LeafData Node → Except KeyOutOfScope Bool

/-- Where the example panics. -/
inductive WitnessPanic
  /-- `unwrap` of a query on a key out of scope. -/
  | keyOutOfScope
  /-- `assert!` of `confirm_nonexistence`. -/
  | assertNonexistence
  /-- `assert!` of `confirm_value`. -/
  | assertValue
  /-- `unwrap` of `verify_update`. -/
  | verifyUpdate (e : VerifyUpdateError)
  /-- `assert_eq!` of the root `verify_update` returns and the new root. -/
  | rootMismatch
deriving DecidableEq

/-- `Result::unwrap` of a query. -/
def unwrapConfirm (r : Except KeyOutOfScope Bool) : Except WitnessPanic Bool :=
  r.mapError fun _ => .keyOutOfScope

/-- The check of one read, the body of the inner loop. -/
def checkRead (v : ReadConfirmer Node) (read : WitnessedRead Node) : Except WitnessPanic Unit :=
  match read.value with
  | none => do
    let b ← unwrapConfirm (v.confirmNonexistence read.key)
    if b then pure () else throw .assertNonexistence
  | some valueHash => do
    let leaf : LeafData Node := { keyPath := read.key, valueHash }
    let b ← unwrapConfirm (v.confirmValue leaf)
    if b then pure () else throw .assertValue

/-- The reads the inner loop visits for the path `i`:
`reads.iter().skip_while(|r| r.path_index != i).take_while(|r| r.path_index == i)`. -/
def selectReads (reads : List (WitnessedRead Node)) (i : Nat) : List (WitnessedRead Node) :=
  (reads.dropWhile fun r => r.pathIndex != i).takeWhile fun r => r.pathIndex == i

/-- The loop over the `numPaths` witnessed paths, checking the reads it selects for each. -/
def checkReads (v : ReadConfirmer Node) (numPaths : Nat) (reads : List (WitnessedRead Node)) :
    Except WitnessPanic Unit :=
  (List.range numPaths).forM fun i => (selectReads reads i).forM (checkRead v)

/-- `main` from the verified multi proof on: the reads, then `verify_update` on no paths, whose
root must be the new root. -/
def witnessVerification [DecidableEq Node] [Zero Node] (H : NodeHasher Node)
    (prevRoot newRoot : Node) (numPaths : Nat) (reads : List (WitnessedRead Node))
    (v : ReadConfirmer Node) : Except WitnessPanic Unit := do
  checkReads v numPaths reads
  match verifyUpdate H prevRoot [] with
  | .error e => throw (.verifyUpdate e)
  | .ok root => if root = newRoot then pure () else throw .rootMismatch

/-! ### Loops of checks -/

/-- A loop of checks runs to its end exactly when every check passes. -/
theorem forM_eq_ok_iff {α ε : Type} (l : List α) (f : α → Except ε Unit) :
  l.forM f = .ok () ↔ ∀ x ∈ l, f x = .ok ()
  := by
  induction l with
  | nil => exact iff_of_true rfl fun _ h => absurd h (List.not_mem_nil _)
  | cons x xs ih =>
    show (f x >>= fun _ => xs.forM f) = _ ↔ _
    rw [List.forall_mem_cons, ← ih]
    cases f x <;> simp [bind, Except.bind]

/-! ### The reads of a path -/

section Select

variable {reads : List (WitnessedRead Node)}

/-- On reads ordered by path index, all at least `i`, the reads of the path `i` come first. -/
theorem takeWhile_pathIndex_eq_filter {i : Nat}
    (hsorted : reads.Pairwise fun a b => a.pathIndex ≤ b.pathIndex)
    (hge : ∀ r ∈ reads, i ≤ r.pathIndex) :
  reads.takeWhile (fun r => r.pathIndex == i) = reads.filter fun r => r.pathIndex == i
  := by
  induction reads with
  | nil => rfl
  | cons r rs ih =>
    rw [List.pairwise_cons] at hsorted
    by_cases hr : r.pathIndex = i
    · rw [List.takeWhile_cons_of_pos (by simpa using hr),
        List.filter_cons_of_pos (by simpa using hr), ih hsorted.2 fun r' h' => hr ▸ hsorted.1 r' h']
    · -- every later read lies past the path `i` too
      have hlt : i < r.pathIndex := lt_of_le_of_ne (hge r (List.mem_cons_self _ _)) (Ne.symm hr)
      rw [List.takeWhile_cons_of_neg (by simpa using hr),
        List.filter_cons_of_neg (by simpa using hr), eq_comm, List.filter_eq_nil_iff]
      exact fun r' h' => by simpa using (hlt.trans_le (hsorted.1 r' h')).ne'

/-- On reads ordered by path index, the inner loop for the path `i` visits exactly the reads of
that path, in order. -/
theorem selectReads_of_sorted (hsorted : reads.Pairwise fun a b => a.pathIndex ≤ b.pathIndex)
    (i : Nat) :
  selectReads reads i = reads.filter fun r => r.pathIndex == i
  := by
  induction reads with
  | nil => rfl
  | cons r rs ih =>
    by_cases hr : r.pathIndex = i
    · -- the selection starts at `r`
      rw [selectReads, List.dropWhile_cons_of_neg (by simpa using hr)]
      exact takeWhile_pathIndex_eq_filter hsorted fun r' h' => hr ▸ (List.mem_cons.mp h').elim
        (fun h => h ▸ le_rfl) fun h => (List.pairwise_cons.mp hsorted).1 r' h
    · rw [selectReads, List.dropWhile_cons_of_pos (by simpa using hr),
        List.filter_cons_of_neg (by simpa using hr)]
      exact ih (List.pairwise_cons.mp hsorted).2

/-- On reads ordered by path index, the loop over the paths runs to its end exactly when every
read of one of the paths passes its check: a read whose path index is past the last path is
never checked. -/
theorem checkReads_eq_ok_iff (v : ReadConfirmer Node) (numPaths : Nat)
    (hsorted : reads.Pairwise fun a b => a.pathIndex ≤ b.pathIndex) :
  checkReads v numPaths reads = .ok () ↔
    ∀ r ∈ reads, r.pathIndex < numPaths → checkRead v r = .ok ()
  := by
  simp only [checkReads, forM_eq_ok_iff, selectReads_of_sorted hsorted, List.mem_range,
    List.mem_filter, beq_iff_eq]
  exact ⟨fun h r hr hlt => h _ hlt r ⟨hr, rfl⟩, fun h i hi r ⟨hr, hri⟩ => h r hr (hri ▸ hi)⟩

end Select

/-! ### The contract of the verified multi proof -/

/-- The contract of the verified multi proof against the trie of the previous root, whose
values `get` gives: a key in its scope is answered as the trie holds it, and a key out of
its scope is refused. -/
structure ReadConfirmer.Sound [DecidableEq Node] (v : ReadConfirmer Node)
    (get : KeyPath → Option Node) (inScope : KeyPath → Bool) : Prop where
  confirmNonexistence_eq : ∀ k, v.confirmNonexistence k =
    if inScope k then .ok (decide (get k = none)) else .error ⟨⟩
  confirmValue_eq : ∀ l : LeafData Node, v.confirmValue l =
    if inScope l.keyPath then .ok (decide (get l.keyPath = some l.valueHash)) else .error ⟨⟩

section Sound

variable [DecidableEq Node] {v : ReadConfirmer Node} {get : KeyPath → Option Node}
  {inScope : KeyPath → Bool}

omit [DecidableEq Node] in
/-- An asserted query of a contract-abiding proof passes exactly when the key is in scope and the
fact asked holds. -/
theorem assert_unwrapConfirm_eq_ok_iff {scope : Bool} {P : Prop} [Decidable P] (e : WitnessPanic) :
  (do
      let b ← unwrapConfirm (if scope then .ok (decide P) else .error ⟨⟩)
      if b then pure () else throw e : Except WitnessPanic Unit) = .ok () ↔ scope = true ∧ P
  := by
  cases scope <;> by_cases hP : P <;>
    simp [hP, unwrapConfirm, Except.mapError, bind, Except.bind, pure, Except.pure, throw,
      throwThe, MonadExceptOf.throw]

/-- Under the contract, a read passes its check exactly when its key is in scope and the trie
holds the value read for it. -/
theorem checkRead_eq_ok_iff (hv : v.Sound get inScope) (read : WitnessedRead Node) :
  checkRead v read = .ok () ↔ inScope read.key = true ∧ get read.key = read.value
  := by
  rcases read with ⟨key, _ | valueHash, pathIndex⟩
  case none =>
    simp only [checkRead, hv.confirmNonexistence_eq]
    exact assert_unwrapConfirm_eq_ok_iff _
  case some =>
    simp only [checkRead, hv.confirmValue_eq]
    exact assert_unwrapConfirm_eq_ok_iff _

/-- Under the contract, on reads ordered by path index, the example runs to its end exactly when
every read of a witnessed path has its key in scope and reads the value the trie of the previous
root holds for it, and the new root is the previous root. -/
theorem witnessVerification_eq_ok_iff [Zero Node] (H : NodeHasher Node) (prevRoot newRoot : Node)
    (numPaths : Nat) {reads : List (WitnessedRead Node)} (hv : v.Sound get inScope)
    (hsorted : reads.Pairwise fun a b => a.pathIndex ≤ b.pathIndex) :
  witnessVerification H prevRoot newRoot numPaths reads v = .ok () ↔
    (∀ r ∈ reads, r.pathIndex < numPaths → inScope r.key = true ∧ get r.key = r.value) ∧
      newRoot = prevRoot
  := by
  have hroot : verifyUpdate H prevRoot [] = .ok prevRoot := rfl
  have hreads := (checkReads_eq_ok_iff v numPaths hsorted).trans
    (forall₂_congr fun r _ => imp_congr_right fun _ => checkRead_eq_ok_iff hv r)
  rw [witnessVerification, hroot, ← hreads]
  cases checkReads v numPaths reads with
  | error e => simp [bind, Except.bind]
  | ok u =>
    by_cases h : prevRoot = newRoot
    · subst h
      simp [bind, Except.bind, pure, Except.pure]
    · simp [h, Ne.symm h, bind, Except.bind, throw, throwThe, MonadExceptOf.throw]

/-- A witness of one read of no value, checked against the proof of the empty trie, in which
every key is in scope and holds no value. -/
theorem witnessVerification_eq_ok_iff_empty :
  ReadConfirmer.Sound (⟨fun _ => .ok true, fun _ => .ok false⟩ : ReadConfirmer FreeNode)
      (fun _ => none) (fun _ => true) ∧
    ([⟨⟨List.replicate 256 false, List.length_replicate 256 false⟩, none, 0⟩] :
      List (WitnessedRead FreeNode)).Pairwise (fun a b => a.pathIndex ≤ b.pathIndex) ∧
    (witnessVerification freeHasher .terminator .terminator 1
        [⟨⟨List.replicate 256 false, List.length_replicate 256 false⟩, none, 0⟩]
        ⟨fun _ => .ok true, fun _ => .ok false⟩ = .ok () ↔
      (∀ r ∈ ([⟨⟨List.replicate 256 false, List.length_replicate 256 false⟩, none, 0⟩] :
          List (WitnessedRead FreeNode)),
        r.pathIndex < 1 → (fun _ => true : KeyPath → Bool) r.key = true ∧
          (fun _ => none : KeyPath → Option FreeNode) r.key = r.value) ∧
        FreeNode.terminator = .terminator)
  := by
  have hv : ReadConfirmer.Sound (⟨fun _ => .ok true, fun _ => .ok false⟩ : ReadConfirmer FreeNode)
      (fun _ => none) (fun _ => true) := ⟨fun _ => rfl, fun _ => rfl⟩
  exact ⟨hv, List.pairwise_singleton _ _,
    witnessVerification_eq_ok_iff freeHasher _ _ 1 hv (List.pairwise_singleton _ _)⟩

end Sound

end Nomt
