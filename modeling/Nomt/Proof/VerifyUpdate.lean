import Mathlib.Data.List.Chain
import Nomt.Proof.PathProof
import Nomt.Update

/-!
# Verifying a batch of updates

`verify_update` (`path_proof.rs`).  Given the previous root and ascending `PathUpdate`s,
each a verified path with the operations on the keys below it, it first checks the batch
(`checkPaths`) and then computes the new root along the left frontier (`frontier`).  Each
path rebuilds its sub-trie, then walks up `upLayers` layers, compacting with the proof's
siblings or, where an earlier path already rebuilt the sibling sub-trie, with the entry that
path left on the `pending_siblings` stack; it pushes what it reached.  The stack is a list
whose head is its top.
-/

namespace Nomt

variable {Node : Type}

/-- `VerifyUpdateError`. -/
inductive VerifyUpdateError
  | pathsOutOfOrder
  | opsOutOfOrder
  | opOutOfScope
  | pathWithoutOps
  | rootMismatch
deriving DecidableEq

/-- `PathUpdate`: a verified path and the operations on the keys below it; `none` deletes. -/
structure PathUpdate (Node : Type) where
  inner : VerifiedPathProof Node
  ops : List (KeyPath × Option Node)

/-! ### The checks -/

/-- The checks on one path's operations, `prev` being the previous operation's key:
ascending keys, each below `path`. -/
def checkOps (path : List Bool) : Option KeyPath → List (KeyPath × Option Node) →
    Except VerifyUpdateError Unit
  | _, [] => .ok ()
  | prev, (key, _) :: ops =>
    if prev.any fun p => compareBits p.bits key.bits ≠ .lt then .error .opsOutOfOrder
    else if ¬ path <+: key.bits then .error .opOutOfScope
    else checkOps path (some key) ops

/-- The checks on the paths, `prev` being the previous path: each verified against
`prevRoot`, ascending, with operations, and those operations checked. -/
def checkPaths [DecidableEq Node] (prevRoot : Node) : Option (List Bool) →
    List (PathUpdate Node) → Except VerifyUpdateError Unit
  | _, [] => .ok ()
  | prev, path :: paths =>
    if path.inner.root ≠ prevRoot then .error .rootMismatch
    else if prev.any fun p => compareBits p path.inner.keyPath ≠ .lt then .error .pathsOutOfOrder
    else if path.ops.isEmpty then .error .pathWithoutOps
    else do
      checkOps path.inner.keyPath none path.ops
      checkPaths prevRoot (some path.inner.keyPath) paths

theorem checkOps_eq_ok {path : List Bool} {prev : Option KeyPath}
    {ops : List (KeyPath × Option Node)} :
  checkOps path prev ops = .ok () ↔
    (∀ op ∈ ops, path <+: op.1.bits) ∧
      (prev.toList ++ ops.map (·.1)).Chain' fun a b => compareBits a.bits b.bits = .lt
  := by
  induction ops generalizing prev with
  | nil => cases prev <;> simp [checkOps]
  | cons op ops ih =>
    obtain ⟨key, value⟩ := op
    cases prev with
    | none => by_cases hscope : path <+: key.bits <;> simp [checkOps, ih, hscope]
    | some p =>
      by_cases hlt : compareBits p.bits key.bits = .lt <;>
        by_cases hscope : path <+: key.bits <;>
        simp [checkOps, ih, hscope, hlt, List.chain'_cons', and_assoc]

theorem checkPaths_eq_ok [DecidableEq Node] {prevRoot : Node} {prev : Option (List Bool)}
    {paths : List (PathUpdate Node)} :
  checkPaths prevRoot prev paths = .ok () ↔
    (∀ u ∈ paths, u.inner.root = prevRoot ∧ u.ops ≠ [] ∧
      checkOps u.inner.keyPath none u.ops = .ok ()) ∧
      (prev.toList ++ paths.map (·.inner.keyPath)).Chain' fun a b => compareBits a b = .lt
  := by
  induction paths generalizing prev with
  | nil => cases prev <;> simp [checkPaths]
  | cons u paths ih =>
    have hbind : ∀ x : Except VerifyUpdateError Unit, ∀ y, (x >>= fun _ => y) = .ok () ↔
        x = .ok () ∧ y = .ok () := by
      intro x y
      cases x <;> simp [bind, Except.bind]
    by_cases hroot : u.inner.root = prevRoot
    · cases prev with
      | none =>
        by_cases hops : u.ops = [] <;> simp [checkPaths, ih, hroot, hops, hbind, and_assoc]
      | some p =>
        by_cases hlt : compareBits p u.inner.keyPath = .lt <;>
          by_cases hops : u.ops = [] <;>
          simp [checkPaths, ih, hroot, hops, hbind, hlt, List.chain'_cons', and_assoc]
    · simp [checkPaths, hroot]

/-! ### The frontier -/

/-- The state of the loop over one path's siblings: `cur_node`, `cur_layer`, and the
`pending_siblings` stack, top first. -/
structure WalkState (Node : Type) where
  curNode : Node
  curLayer : Nat
  pending : List (Node × Nat)

/-- The sibling at `curLayer`: the top pending entry, popped, when it sits at that layer,
and the proof's `sibling` otherwise. -/
def takeSibling (pending : List (Node × Nat)) (curLayer : Nat) (sibling : Node) :
    Node × List (Node × Nat) :=
  match pending with
  | (node, layer) :: rest => if layer = curLayer then (node, rest) else (sibling, pending)
  | [] => (sibling, [])

/-- The node above `curNode` and `sibling`, compacting where possible: two terminators
give a terminator, and a leaf beside a terminator floats up. -/
def compactStep [Zero Node] (H : NodeHasher Node) (bit : Bool) (curNode sibling : Node) : Node :=
  match H.nodeKind curNode, H.nodeKind sibling with
  | .terminator, .terminator => curNode
  | .leaf, .terminator => curNode
  | .terminator, .leaf => sibling
  | _, _ => H.hashInternal (InternalData.ofBit bit curNode sibling)

/-- One iteration of the loop over a path's siblings, with its bit and proof sibling. -/
def walkStep [Zero Node] (H : NodeHasher Node) (state : WalkState Node) (step : Bool × Node) :
    WalkState Node :=
  let taken := takeSibling state.pending state.curLayer step.2
  { curNode := compactStep H step.1 state.curNode taken.1
    curLayer := state.curLayer - 1
    pending := taken.2 }

/-- `up_layers`: the last path walks up to the root, any other to just below the layer
where it parts from the next path. -/
def upLayers (path : List Bool) : Option (List Bool) → Nat
  | none => path.length
  | some next => path.length - (sharedBits next path + 1)

/-- The walk of one path from its rebuilt sub-trie `subRoot`, `upLayers` layers up. -/
def walk [Zero Node] (H : NodeHasher Node) (path : List Bool) (siblings : List Node)
    (upLayers : Nat) (start : WalkState Node) : WalkState Node :=
  ((path.reverse.take upLayers).zip siblings.reverse).foldl (walkStep H) start

/-- The frontier work of one path: rebuild its sub-trie, walk up, and push the node reached
at `end_layer`. -/
def walkPath [Zero Node] (H : NodeHasher Node) (pending : List (Node × Nat))
    (path : PathUpdate Node) (next : Option (PathUpdate Node)) : List (Node × Nat) :=
  let skip := path.inner.keyPath.length
  let up := upLayers path.inner.keyPath (next.map (·.inner.keyPath))
  let subRoot := buildTrie H skip (leafOpsSpliced path.inner.terminal path.ops)
  let endLayer := skip - up
  let state := walk H path.inner.keyPath path.inner.siblings up ⟨subRoot, skip, pending⟩
  (state.curNode, endLayer) :: state.pending

/-- Each element paired with the one after it, as `paths.get(i + 1)`. -/
def withNext {α : Type} : List α → List (α × Option α)
  | [] => []
  | a :: as => (a, as.head?) :: withNext as

/-- The `pending_siblings` stack after the frontier loop over `paths`. -/
def frontier [Zero Node] (H : NodeHasher Node) (paths : List (PathUpdate Node)) :
    List (Node × Nat) :=
  (withNext paths).foldl (fun pending step => walkPath H pending step.1 step.2) []

/-- `verify_update`: the root after the updates, or the first check that fails.  The stack
is never empty after a non-empty batch, so the `unwrap` of the source never fails and the
last branch is never taken. -/
def verifyUpdate [DecidableEq Node] [Zero Node] (H : NodeHasher Node) (prevRoot : Node)
    (paths : List (PathUpdate Node)) : Except VerifyUpdateError Node :=
  if paths.isEmpty then .ok prevRoot
  else do
    checkPaths prevRoot none paths
    match frontier H paths with
    | (node, _) :: _ => pure node
    | [] => pure prevRoot

/-- The frontier always yields a root, so `verify_update` accepts a non-empty batch exactly
when the batch passes the checks. -/
theorem exists_verifyUpdate_eq_ok_iff_checkPaths [DecidableEq Node] [Zero Node]
    {H : NodeHasher Node} {prevRoot : Node} {paths : List (PathUpdate Node)} (hne : paths ≠ []) :
  (∃ root, verifyUpdate H prevRoot paths = .ok root) ↔ checkPaths prevRoot none paths = .ok ()
  := by
  rw [verifyUpdate, if_neg (by simpa using hne)]
  cases checkPaths prevRoot none paths with
  | error e => simp [bind, Except.bind]
  | ok u =>
    rcases frontier H paths with _ | ⟨⟨node, _⟩, _⟩
    · exact iff_of_true ⟨prevRoot, rfl⟩ rfl
    · exact iff_of_true ⟨node, rfl⟩ rfl

end Nomt
