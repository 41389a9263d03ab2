import Mathlib.Data.List.Sort
import Nomt.Proof.VerifyUpdate

/-!
# The frontier of `verify_update`

The `pending_siblings` stack of `verify_update`, top first.  When its layers decrease from
the top and lie at or above the current layer, the walk of one path pops exactly the entries
it meets at its own layer: it is the walk that reads each sibling from the stack by layer
(`walkByLayer`), and it leaves the entries at or below the layer where it stops
(`foldl_walkStep`).

Over a batch of ascending, pairwise incomparable paths, the stack before path `i` holds one
entry for each layer `L` whose sibling sub-trie `p_i[..L-1]·¬p_i[L-1]` contains an earlier
path, namely the entry pushed by the last such path (`FrontierInv`).  Hence each walk uses
the proof's sibling exactly where no earlier path rewrote the sibling sub-trie, and after
the last path the stack is a single entry at layer 0 (`frontier_stack_discipline`).
-/

namespace Nomt

variable {Node : Type} [Zero Node]

/-- The node the stack holds at layer `L`, if any. -/
def lookupLayer (pending : List (Node × Nat)) (L : Nat) : Option Node :=
  (pending.find? fun e => e.2 = L).map Prod.fst

/-- The walk of `node` from `layer`, each step compacting with the stack's node at the
current layer when there is one, and with the proof's sibling otherwise. -/
def walkByLayer (H : NodeHasher Node) (pending : List (Node × Nat)) :
    Node → Nat → List (Bool × Node) → Node
  | node, _, [] => node
  | node, layer, (bit, sibling) :: steps =>
    walkByLayer H pending
      (compactStep H bit node ((lookupLayer pending layer).getD sibling)) (layer - 1) steps

/-! ### The walk of one path -/

omit [Zero Node] in
theorem lookupLayer_filter {pending : List (Node × Nat)} {L : Nat} {p : Node × Nat → Bool}
    (hp : ∀ e ∈ pending, e.2 = L → p e = true) :
  lookupLayer (pending.filter p) L = lookupLayer pending L
  := by
  induction pending with
  | nil => rfl
  | cons e pending ih =>
    have ih := ih fun e' he' => hp e' (List.mem_cons_of_mem e he')
    by_cases he : e.2 = L
    · simp [lookupLayer, List.filter_cons, hp e (List.mem_cons_self e pending) he, he]
    · by_cases hpe : p e <;> simp_all [lookupLayer, List.filter_cons]

theorem walkByLayer_congr (H : NodeHasher Node) {p₁ p₂ : List (Node × Nat)} {layer : Nat}
    (h : ∀ L ≤ layer, lookupLayer p₁ L = lookupLayer p₂ L) (node : Node)
    (steps : List (Bool × Node)) :
  walkByLayer H p₁ node layer steps = walkByLayer H p₂ node layer steps
  := by
  induction steps generalizing node layer with
  | nil => rfl
  | cons step steps ih =>
    simp only [walkByLayer, h layer le_rfl]
    exact ih (fun L hL => h L (by omega)) _

omit [Zero Node] in
/-- With layers decreasing from the top, all at or above `layer`, the sibling at `layer` is
the stack's entry there, popped, or else the proof's sibling. -/
theorem takeSibling_of_sorted {pending : List (Node × Nat)} {layer : Nat} (sibling : Node)
    (hsorted : (pending.map Prod.snd).Sorted (· > ·)) (hle : ∀ e ∈ pending, e.2 ≤ layer) :
  takeSibling pending layer sibling =
    ((lookupLayer pending layer).getD sibling, pending.filter fun e => e.2 < layer)
  := by
  cases pending with
  | nil => rfl
  | cons e rest =>
    obtain ⟨node, l⟩ := e
    have hrest : ∀ e ∈ rest, e.2 < l := by
      intro e he
      exact (List.sorted_cons.mp hsorted).1 e.2 (List.mem_map_of_mem _ he)
    have hl : l ≤ layer := hle _ (List.mem_cons_self _ _)
    by_cases hlayer : l = layer
    · subst hlayer
      have hfilter : rest.filter (fun e => e.2 < l) = rest :=
        List.filter_eq_self.mpr fun e he => by simpa using hrest e he
      simp [takeSibling, lookupLayer, List.filter_cons, hfilter]
    · have hnone : lookupLayer ((node, l) :: rest) layer = none := by
        simp only [lookupLayer, Option.map_eq_none', List.find?_eq_none]
        intro e he
        rcases List.mem_cons.mp he with rfl | he
        · simpa using hlayer
        · have := hrest e he
          simp
          omega
      have hfilter : ((node, l) :: rest).filter (fun e => e.2 < layer) = (node, l) :: rest :=
        List.filter_eq_self.mpr fun e he => by
          rcases List.mem_cons.mp he with rfl | he
          · simp
            omega
          · have := hrest e he
            simp
            omega
      simp [takeSibling, hlayer, hnone, hfilter]

omit [Zero Node] in
theorem takeSibling_of_head? {pending : List (Node × Nat)} {e : Node × Nat}
    (h : pending.head? = some e) (sibling : Node) :
  takeSibling pending e.2 sibling = (e.1, pending.tail)
  := by
  obtain ⟨node, l⟩ := e
  cases pending with
  | nil => cases h
  | cons e' rest =>
    obtain rfl : e' = (node, l) := Option.some.inj h
    simp [takeSibling]

omit [Zero Node] in
theorem takeSibling_of_head?_ne {pending : List (Node × Nat)} {layer : Nat}
    (h : ∀ e ∈ pending.head?, e.2 ≠ layer) (sibling : Node) :
  takeSibling pending layer sibling = (sibling, pending)
  := by
  match pending, h with
  | [], _ => rfl
  | (node, l) :: rest, h => simp [takeSibling, h (node, l) rfl]

omit [Zero Node] in
/-- Over a stack whose layers decrease from the top, the entries at or below the layer of one
of its entries start with that entry. -/
theorem head?_filter_of_mem {pending : List (Node × Nat)}
    (hsorted : (pending.map Prod.snd).Sorted (· > ·)) {e : Node × Nat} (he : e ∈ pending) :
  (pending.filter fun e' => e'.2 ≤ e.2).head? = some e
  := by
  induction pending with
  | nil => exact absurd he (List.not_mem_nil _)
  | cons e' rest ih =>
    obtain ⟨hgt, hrest⟩ := List.sorted_cons.mp hsorted
    rcases List.mem_cons.mp he with rfl | he
    · simp
    · have : e.2 < e'.2 := hgt e.2 (List.mem_map_of_mem _ he)
      rw [List.filter_cons_of_neg (by simpa using this)]
      exact ih hrest he

/-- The walk of one path over a stack whose layers decrease from the top and lie at or above
its starting layer: it reads its siblings by layer, and leaves the entries at or below the
layer where it stops. -/
theorem foldl_walkStep (H : NodeHasher Node) (steps : List (Bool × Node)) {node : Node}
    {layer : Nat} {pending : List (Node × Nat)}
    (hsorted : (pending.map Prod.snd).Sorted (· > ·)) (hle : ∀ e ∈ pending, e.2 ≤ layer)
    (hsteps : steps.length ≤ layer) :
  steps.foldl (walkStep H) ⟨node, layer, pending⟩ =
    ⟨walkByLayer H pending node layer steps, layer - steps.length,
      pending.filter fun e => e.2 ≤ layer - steps.length⟩
  := by
  induction steps generalizing node layer pending with
  | nil =>
    have hall : pending.filter (fun e => e.2 ≤ layer) = pending :=
      List.filter_eq_self.mpr fun e he => by simpa using hle e he
    simp [walkByLayer, hall]
  | cons step steps ih =>
    obtain ⟨bit, sibling⟩ := step
    have hsorted' : ((pending.filter fun e => e.2 < layer).map Prod.snd).Sorted (· > ·) :=
      hsorted.sublist ((List.filter_sublist _).map _)
    have hle' : ∀ e ∈ pending.filter (fun e => e.2 < layer), e.2 ≤ layer - 1 := by
      intro e he
      have := (List.mem_filter.mp he).2
      simp at this
      omega
    simp only [List.foldl_cons, walkStep, takeSibling_of_sorted sibling hsorted hle]
    simp only [List.length_cons] at hsteps ⊢
    have hwalk : ∀ n, walkByLayer H (pending.filter fun e => e.2 < layer) n (layer - 1) steps =
        walkByLayer H pending n (layer - 1) steps := fun n =>
      walkByLayer_congr H (fun L hL => lookupLayer_filter fun e _ he => by simp; omega) n steps
    have hsub : layer - 1 - steps.length = layer - (steps.length + 1) := by omega
    rw [ih hsorted' hle' (by omega), List.filter_filter, walkByLayer, hwalk, hsub]
    congr 1
    apply List.filter_congr
    intro e _
    by_cases h : e.2 < layer
    · simp [h]
    · simp [h]
      omega

/-! ### Ascending batches -/

/-- The paths of a batch: strictly ascending, and pairwise incomparable. -/
structure Ascending (paths : List (PathUpdate Node)) : Prop where
  chain : paths.Chain' fun u v => compareBits u.inner.keyPath v.inner.keyPath = .lt
  incomparable : paths.Pairwise fun u v =>
    ¬ u.inner.keyPath <+: v.inner.keyPath ∧ ¬ v.inner.keyPath <+: u.inner.keyPath

namespace Ascending

variable {paths : List (PathUpdate Node)} (h : Ascending paths)
include h
omit [Zero Node]

theorem lt {i j : Nat} (hj : j < i) (hi : i < paths.length) :
  compareBits paths[j].inner.keyPath paths[i].inner.keyPath = .lt
  := by
  haveI : IsTrans (PathUpdate Node) fun u v => compareBits u.inner.keyPath v.inner.keyPath = .lt :=
    ⟨fun _ _ _ => compareBits_trans⟩
  exact List.pairwise_iff_getElem.mp (List.chain'_iff_pairwise.mp h.chain) j i _ _ hj

theorem le {i j : Nat} (hj : j ≤ i) (hi : i < paths.length) :
  compareBits paths[j].inner.keyPath paths[i].inner.keyPath ≠ .gt
  := by
  rcases Nat.lt_or_eq_of_le hj with hj | rfl
  · simp [h.lt hj hi]
  · simp

/-- Consecutive paths part below both, the first turning left and the second right. -/
theorem sharedBits_succ {i : Nat} (hi : i + 1 < paths.length) :
  sharedBits paths[i + 1].inner.keyPath paths[i].inner.keyPath < paths[i].inner.keyPath.length ∧ sharedBits paths[i + 1].inner.keyPath paths[i].inner.keyPath < paths[i + 1].inner.keyPath.length ∧
    paths[i].inner.keyPath.getD (sharedBits paths[i + 1].inner.keyPath paths[i].inner.keyPath) false = false ∧
      paths[i + 1].inner.keyPath.getD (sharedBits paths[i + 1].inner.keyPath paths[i].inner.keyPath) false = true
  := by
  have hinc := (List.pairwise_iff_getElem.mp h.incomparable) i (i + 1) (by omega) hi
    (Nat.lt_succ_self i)
  rw [sharedBits_comm]
  exact getD_sharedBits_of_compareBits_lt (h.lt (Nat.lt_succ_self i) hi) hinc.1

/-- Above the layer where path `i` parts from path `i + 1`, the two have the same siblings. -/
theorem siblingPath_succ_iff {i : Nat} (hi : i + 1 < paths.length) {L : Nat} (hL : 0 < L)
    (hLn : L ≤ sharedBits paths[i + 1].inner.keyPath paths[i].inner.keyPath) (q : List Bool) :
  siblingPath paths[i + 1].inner.keyPath L <+: q ↔ siblingPath paths[i].inner.keyPath L <+: q
  := by
  obtain ⟨h₁, h₂, -, -⟩ := h.sharedBits_succ hi
  rw [siblingPath_prefix_iff hL (by omega), siblingPath_prefix_iff hL (by omega),
    sharedBits_eq_iff_of_lt (by omega : L - 1 < sharedBits paths[i + 1].inner.keyPath paths[i].inner.keyPath)]

/-- Path `i` lies below the sibling of path `i + 1` at the layer just under where they part. -/
theorem siblingPath_succ_prefix {i : Nat} (hi : i + 1 < paths.length) :
  siblingPath paths[i + 1].inner.keyPath (sharedBits paths[i + 1].inner.keyPath paths[i].inner.keyPath + 1) <+: paths[i].inner.keyPath
  := by
  obtain ⟨h₁, h₂, -, -⟩ := h.sharedBits_succ hi
  exact (siblingPath_prefix_iff (by omega) (by omega)).mpr ⟨by omega, by simp⟩

/-- Below the layer where path `i` parts from path `i + 1`, no path up to `i` lies below a
sibling of path `i + 1`. -/
theorem not_siblingPath_succ_prefix {i : Nat} (hi : i + 1 < paths.length) {L : Nat}
    (hL : sharedBits paths[i + 1].inner.keyPath paths[i].inner.keyPath + 1 < L) (hLp : L ≤ paths[i + 1].inner.keyPath.length) {j : Nat}
    (hj : j ≤ i) :
  ¬ siblingPath paths[i + 1].inner.keyPath L <+: paths[j].inner.keyPath
  := by
  intro hsib
  obtain ⟨h₁, h₂, -, -⟩ := h.sharedBits_succ hi
  obtain ⟨-, hshared⟩ := (siblingPath_prefix_iff (by omega) hLp).mp hsib
  have hcmp := compareBits_eq_of_lt_sharedBits (q := paths[j].inner.keyPath) h₂ h₁ (by omega)
  have hgt : compareBits paths[i + 1].inner.keyPath paths[i].inner.keyPath = .gt := by
    rw [compareBits_swap, h.lt (Nat.lt_succ_self i) hi]
    rfl
  exact h.le hj (by omega) (hcmp.trans hgt)

/-- Below the layer where path `i` parts from path `i + 1`, no later path lies below a sibling
of path `i`. -/
theorem not_siblingPath_prefix_of_lt {i : Nat} (hi : i + 1 < paths.length) {L : Nat}
    (hL : sharedBits paths[i + 1].inner.keyPath paths[i].inner.keyPath + 1 < L) (hLp : L ≤ paths[i].inner.keyPath.length) {j : Nat} (hj : i < j)
    (hjl : j < paths.length) :
  ¬ siblingPath paths[i].inner.keyPath L <+: paths[j].inner.keyPath
  := by
  intro hsib
  obtain ⟨h₁, h₂, -, -⟩ := h.sharedBits_succ hi
  obtain ⟨-, hshared⟩ := (siblingPath_prefix_iff (by omega) hLp).mp hsib
  rw [sharedBits_comm] at h₁ h₂ hL
  have hcmp := compareBits_eq_of_lt_sharedBits (q := paths[j].inner.keyPath) h₁ h₂ (by omega)
  rw [h.lt (Nat.lt_succ_self i) hi] at hcmp
  have hgt : compareBits paths[i + 1].inner.keyPath paths[j].inner.keyPath = .gt := by
    rw [compareBits_swap, hcmp]
    rfl
  exact h.le (show i + 1 ≤ j by omega) hjl hgt

/-- No earlier path lies below the sibling of path `i` where it parts from path `i + 1`. -/
theorem not_siblingPath_divergence {i : Nat} (hi : i + 1 < paths.length) {j : Nat} (hj : j < i)
    {L : Nat} (hL : L = sharedBits paths[i + 1].inner.keyPath paths[i].inner.keyPath + 1) :
  ¬ siblingPath paths[i].inner.keyPath L <+: paths[j].inner.keyPath
  := by
  obtain ⟨h₁, -, hbit, -⟩ := h.sharedBits_succ hi
  intro hsib
  have := getD_of_siblingPath_prefix (by omega) (by omega) (h.lt hj (by omega)) hsib
  rw [hL, Nat.add_sub_cancel, hbit] at this
  cases this

/-- A path shares no more with a later path than with any path between them. -/
theorem sharedBits_le_of_lt {i j k : Nat} (hij : i < j) (hjk : j ≤ k) (hk : k < paths.length) :
  sharedBits paths[k].inner.keyPath paths[i].inner.keyPath ≤
    sharedBits paths[j].inner.keyPath paths[i].inner.keyPath
  := by
  by_contra hlt
  have hinc := (List.pairwise_iff_getElem.mp h.incomparable) i j (by omega) (by omega) hij
  obtain ⟨hx, hy, -, -⟩ := getD_sharedBits_of_compareBits_lt (h.lt hij (by omega)) hinc.1
  have hcmp := compareBits_eq_of_lt_sharedBits hx hy
    ((sharedBits_comm _ _).trans_lt ((Nat.lt_of_not_le hlt).trans_eq (sharedBits_comm _ _)))
  rw [h.lt hij (by omega)] at hcmp
  exact h.le hjk hk (by rw [compareBits_swap, hcmp]; rfl)

end Ascending

/-! ### The run of the frontier loop -/

theorem length_withNext {α : Type} (l : List α) :
  (withNext l).length = l.length
  := by
  induction l with
  | nil => rfl
  | cons a l ih => simp [withNext, ih]

theorem getElem?_withNext {α : Type} (l : List α) (i : Nat) (hi : i < l.length) :
  (withNext l)[i]? = some (l[i], l[i + 1]?)
  := by
  induction l generalizing i with
  | nil => simp at hi
  | cons a l ih =>
    cases i with
    | zero => cases l <;> simp [withNext]
    | succ i => simpa [withNext] using ih i (by simpa using hi)

/-- The `pending_siblings` stack when path `i` of the batch starts. -/
def pendingBefore (H : NodeHasher Node) (paths : List (PathUpdate Node)) (i : Nat) :
    List (Node × Nat) :=
  ((withNext paths).take i).foldl (fun pending step => walkPath H pending step.1 step.2) []

/-- The state of the loop over the siblings of path `i` after its first `k` iterations. -/
def walkStateAt (H : NodeHasher Node) (paths : List (PathUpdate Node)) (i : Nat)
    (hi : i < paths.length) (k : Nat) : WalkState Node :=
  (((paths[i].inner.keyPath.reverse.take
      (upLayers paths[i].inner.keyPath (paths[i + 1]?.map (·.inner.keyPath)))).zip
      paths[i].inner.siblings.reverse).take k).foldl (walkStep H)
    ⟨buildTrie H paths[i].inner.keyPath.length (leafOpsSpliced paths[i].inner.terminal paths[i].ops),
      paths[i].inner.keyPath.length, pendingBefore H paths i⟩

theorem frontier_eq_pendingBefore (H : NodeHasher Node) (paths : List (PathUpdate Node)) :
  frontier H paths = pendingBefore H paths paths.length
  := by
  rw [pendingBefore, ← length_withNext, List.take_length]
  rfl

theorem pendingBefore_succ (H : NodeHasher Node) (paths : List (PathUpdate Node)) {i : Nat}
    (hi : i < paths.length) :
  pendingBefore H paths (i + 1) = walkPath H (pendingBefore H paths i) paths[i] paths[i + 1]?
  := by
  rw [pendingBefore, List.take_succ, getElem?_withNext paths i hi, List.foldl_append]
  rfl

theorem upLayers_le (path : List Bool) (next : Option (List Bool)) :
  upLayers path next ≤ path.length
  := by
  cases next <;> simp [upLayers]

/-- One path's frontier work: it pushes the node its walk reaches at its end layer, over the
entries at or below that layer. -/
theorem walkPath_eq (H : NodeHasher Node) {pending : List (Node × Nat)} (u : PathUpdate Node)
    (next : Option (PathUpdate Node)) (hsorted : (pending.map Prod.snd).Sorted (· > ·))
    (hle : ∀ e ∈ pending, e.2 ≤ u.inner.keyPath.length) :
  walkPath H pending u next =
    (walkByLayer H pending
        (buildTrie H u.inner.keyPath.length (leafOpsSpliced u.inner.terminal u.ops))
        u.inner.keyPath.length
        ((u.inner.keyPath.reverse.take (upLayers u.inner.keyPath (next.map (·.inner.keyPath)))).zip
          u.inner.siblings.reverse),
      u.inner.keyPath.length - upLayers u.inner.keyPath (next.map (·.inner.keyPath))) ::
    pending.filter fun e =>
      e.2 ≤ u.inner.keyPath.length - upLayers u.inner.keyPath (next.map (·.inner.keyPath))
  := by
  have hup := upLayers_le u.inner.keyPath (next.map (·.inner.keyPath))
  have hlen : ((u.inner.keyPath.reverse.take (upLayers u.inner.keyPath
      (next.map (·.inner.keyPath)))).zip u.inner.siblings.reverse).length =
      upLayers u.inner.keyPath (next.map (·.inner.keyPath)) := by
    simp only [List.length_zip, List.length_take, List.length_reverse, ← u.inner.length_keyPath]
    omega
  simp only [walkPath, walk]
  rw [foldl_walkStep H _ hsorted hle (by omega), hlen]

/-! ### The stack discipline -/

section Discipline

variable (H : NodeHasher Node) (paths : List (PathUpdate Node))

omit [Zero Node] in
/-- Path `j` is the last path before path `i` that lies below the sibling of path `i` at
layer `L`. -/
def LastBelow (i : Nat) (hi : i < paths.length) (L j : Nat) : Prop :=
  ∃ hj : j < i, siblingPath paths[i].inner.keyPath L <+: paths[j].inner.keyPath ∧
    ∀ (j' : Nat) (hj' : j' < i), j < j' →
      ¬ siblingPath paths[i].inner.keyPath L <+: paths[j'].inner.keyPath

omit [Zero Node] in
theorem LastBelow.unique {paths : List (PathUpdate Node)} {i : Nat} {hi : i < paths.length}
    {L j j' : Nat} (h : LastBelow paths i hi L j) (h' : LastBelow paths i hi L j') :
  j = j'
  := by
  obtain ⟨hj, hsib, hlast⟩ := h
  obtain ⟨hj', hsib', hlast'⟩ := h'
  rcases Nat.lt_trichotomy j j' with hlt | heq | hgt
  · exact absurd hsib' (hlast j' hj' hlt)
  · exact heq
  · exact absurd hsib (hlast' j hj hgt)

omit [Zero Node] in
/-- Above the layer where path `i` parts from path `i + 1`, the last path below a sibling of
path `i` is also the last below that sibling of path `i + 1`. -/
theorem LastBelow.succ {paths : List (PathUpdate Node)} (hasc : Ascending paths) {i : Nat}
    (hi : i + 1 < paths.length) {L j : Nat} (h : LastBelow paths i (by omega) L j) (hL : 0 < L)
    (hLn : L ≤ sharedBits paths[i + 1].inner.keyPath paths[i].inner.keyPath) :
  LastBelow paths (i + 1) hi L j
  := by
  obtain ⟨hj, hsib, hlast⟩ := h
  refine ⟨by omega, (hasc.siblingPath_succ_iff hi hL hLn _).mpr hsib, fun j' hj' hjj' hsib' => ?_⟩
  rw [hasc.siblingPath_succ_iff hi hL hLn] at hsib'
  rcases Nat.lt_succ_iff_lt_or_eq.mp hj' with hj' | rfl
  · exact hlast j' hj' hjj' hsib'
  · exact not_siblingPath_prefix_self hL (by have := (hasc.sharedBits_succ hi).1; omega) hsib'

omit [Zero Node] in
/-- The last path below a sibling of path `i` parts from its successor just above that
sibling. -/
theorem LastBelow.eq_sharedBits {paths : List (PathUpdate Node)} (hasc : Ascending paths)
    {i : Nat} {hi : i < paths.length} {L j : Nat} (hji : j < i) (h : LastBelow paths i hi L j)
    (hL : 0 < L) (hLp : L ≤ paths[i].inner.keyPath.length) :
  L = sharedBits paths[j + 1].inner.keyPath paths[j].inner.keyPath + 1
  := by
  obtain ⟨hj, hsib, hlast⟩ := h
  obtain ⟨-, hn', -, -⟩ := hasc.sharedBits_succ (i := j) (by omega)
  obtain ⟨-, hshared⟩ := (siblingPath_prefix_iff hL hLp).mp hsib
  -- path `j` shares no more with path `i` than with path `j + 1`
  have hle := hasc.sharedBits_le_of_lt (by omega : j < j + 1) (by omega) hi
  by_contra hne
  -- otherwise path `j + 1` agrees with path `j` below the sibling, so lies below it too
  have hsib' := siblingPath_prefix_of_le_sharedBits (r := paths[j + 1].inner.keyPath) hL hLp hsib
    (by omega)
  rcases Nat.lt_or_eq_of_le (show j + 1 ≤ i by omega) with hlt | rfl
  · exact hlast (j + 1) hlt (by omega) hsib'
  · exact not_siblingPath_prefix_self hL hLp hsib'

/-- The stack when path `i` starts: its layers decrease from the top and lie on path `i`, and
it has an entry at layer `L` exactly when an earlier path lies below the sibling of path `i`
at `L`, the entry on top of the stack that the last of them left. -/
structure FrontierInv (i : Nat) (hi : i < paths.length) (pending : List (Node × Nat)) :
    Prop where
  /-- Layers decrease from the top. -/
  sorted : (pending.map Prod.snd).Sorted (· > ·)
  /-- Every layer lies on path `i`, below the root. -/
  bounded : ∀ e ∈ pending, 0 < e.2 ∧ e.2 ≤ paths[i].inner.keyPath.length
  /-- Every sibling sub-trie that holds an earlier path has an entry. -/
  complete : ∀ (L j : Nat) (hj : j < i), 0 < L → L ≤ paths[i].inner.keyPath.length →
    siblingPath paths[i].inner.keyPath L <+: paths[j].inner.keyPath → L ∈ pending.map Prod.snd
  /-- Every entry was pushed by the last path below its sibling sub-trie. -/
  pushedByLast : ∀ e ∈ pending, ∃ j, LastBelow paths i hi e.2 j ∧
    (pendingBefore H paths (j + 1)).head? = some e

theorem frontierInv_zero (h0 : 0 < paths.length) :
  FrontierInv H paths 0 h0 (pendingBefore H paths 0)
  where
  sorted := List.sorted_nil
  bounded := fun _ h => absurd h (List.not_mem_nil _)
  complete := fun _ _ hj => absurd hj (Nat.not_lt_zero _)
  pushedByLast := fun _ h => absurd h (List.not_mem_nil _)

/-- Path `i` pushes its node at the layer just under where it parts from path `i + 1`, over
the entries below that layer. -/
theorem pendingBefore_succ_eq (hasc : Ascending paths) {i : Nat} (hi : i + 1 < paths.length)
    (hinv : FrontierInv H paths i (by omega) (pendingBefore H paths i)) :
  ∃ node, pendingBefore H paths (i + 1) =
    (node, sharedBits paths[i + 1].inner.keyPath paths[i].inner.keyPath + 1) ::
      (pendingBefore H paths i).filter fun e =>
        e.2 ≤ sharedBits paths[i + 1].inner.keyPath paths[i].inner.keyPath + 1
  := by
  have hend : paths[i].inner.keyPath.length -
      upLayers paths[i].inner.keyPath (some paths[i + 1].inner.keyPath) =
      sharedBits paths[i + 1].inner.keyPath paths[i].inner.keyPath + 1 := by
    have := (hasc.sharedBits_succ hi).1
    simp only [upLayers]
    omega
  rw [pendingBefore_succ H paths (by omega),
    walkPath_eq H _ _ hinv.sorted fun e he => (hinv.bounded e he).2]
  simp only [List.getElem?_eq_getElem hi, Option.map_some', hend]
  exact ⟨_, rfl⟩

/-- The step of the stack discipline: what holds when path `i` starts holds when path `i + 1`
starts. -/
theorem frontierInv_succ (hasc : Ascending paths) {i : Nat} (hi : i + 1 < paths.length)
    (hinv : FrontierInv H paths i (by omega) (pendingBefore H paths i)) :
  FrontierInv H paths (i + 1) hi (pendingBefore H paths (i + 1))
  := by
  obtain ⟨node, hpush⟩ := pendingBefore_succ_eq H paths hasc hi hinv
  obtain ⟨hn, hn', -, -⟩ := hasc.sharedBits_succ hi
  have hi' : i < paths.length := by omega
  -- no entry sits at the layer where path `i` parts from path `i + 1`
  have hfresh : ∀ e ∈ pendingBefore H paths i,
      e.2 ≠ sharedBits paths[i + 1].inner.keyPath paths[i].inner.keyPath + 1 := by
    intro e he heq
    obtain ⟨j, ⟨hj, hsib, -⟩, -⟩ := hinv.pushedByLast e he
    exact hasc.not_siblingPath_divergence hi hj heq hsib
  -- the entries kept are those below that layer, where paths `i` and `i + 1` agree
  have hkept : ∀ e ∈ (pendingBefore H paths i).filter fun e =>
      e.2 ≤ sharedBits paths[i + 1].inner.keyPath paths[i].inner.keyPath + 1,
      e ∈ pendingBefore H paths i ∧ 0 < e.2 ∧
        e.2 ≤ sharedBits paths[i + 1].inner.keyPath paths[i].inner.keyPath := by
    intro e he
    obtain ⟨he, hle⟩ := List.mem_filter.mp he
    have := hfresh e he
    have := (hinv.bounded e he).1
    simp only [decide_eq_true_eq] at hle
    exact ⟨he, by omega, by omega⟩
  have hself : ∀ L, 0 < L → L ≤ sharedBits paths[i + 1].inner.keyPath paths[i].inner.keyPath →
      ¬ siblingPath paths[i + 1].inner.keyPath L <+: paths[i].inner.keyPath := fun L hL hLn => by
    rw [hasc.siblingPath_succ_iff hi hL hLn]
    exact not_siblingPath_prefix_self hL (by omega)
  rw [hpush]
  constructor
  case sorted =>
    refine List.sorted_cons.mpr ⟨?_, hinv.sorted.sublist ((List.filter_sublist _).map _)⟩
    intro L hL
    obtain ⟨e, he, rfl⟩ := List.mem_map.mp hL
    have := (hkept e he).2.2
    omega
  case bounded =>
    intro e he
    rcases List.mem_cons.mp he with rfl | he
    · exact ⟨by omega, by omega⟩
    · have := (hkept e he).2
      omega
  case complete =>
    intro L j hj hL hLp hsib
    rcases Nat.lt_trichotomy L
      (sharedBits paths[i + 1].inner.keyPath paths[i].inner.keyPath + 1) with hlt | heq | hgt
    · have hj' : j < i := by
        rcases Nat.lt_succ_iff_lt_or_eq.mp hj with hj | rfl
        · exact hj
        · exact absurd hsib (hself L hL (by omega))
      obtain ⟨e, he, rfl⟩ := List.mem_map.mp (hinv.complete L j hj' hL (by omega)
        ((hasc.siblingPath_succ_iff hi hL (by omega) _).mp hsib))
      refine List.mem_cons_of_mem _ (List.mem_map_of_mem _ (List.mem_filter.mpr ⟨he, ?_⟩))
      simp only [decide_eq_true_eq]
      omega
    · exact heq ▸ List.mem_cons_self _ _
    · exact absurd hsib (hasc.not_siblingPath_succ_prefix hi hgt hLp (by omega))
  case pushedByLast =>
    intro e he
    rcases List.mem_cons.mp he with rfl | he
    · refine ⟨i, ⟨Nat.lt_succ_self i, hasc.siblingPath_succ_prefix hi,
        fun j' hj' hlt _ => by omega⟩, ?_⟩
      rw [hpush]
      rfl
    · obtain ⟨he, hpos, hle⟩ := hkept e he
      obtain ⟨j, hlast, hhead⟩ := hinv.pushedByLast e he
      exact ⟨j, hlast.succ hasc hi hpos hle, hhead⟩

/-- The stack discipline holds whenever a path starts. -/
theorem frontierInv_pendingBefore (hasc : Ascending paths) :
  ∀ i (hi : i < paths.length), FrontierInv H paths i hi (pendingBefore H paths i)
  | 0, hi => frontierInv_zero H paths hi
  | i + 1, hi => frontierInv_succ H paths hasc hi (frontierInv_pendingBefore hasc i (by omega))

/-- The stack when path `i` starts has an entry at layer `L` exactly when an earlier path lies
below the sibling of path `i` at `L`. -/
theorem mem_pendingBefore_iff (hasc : Ascending paths) {i : Nat} (hi : i < paths.length)
    {L : Nat} (hL : 0 < L) (hLp : L ≤ paths[i].inner.keyPath.length) :
  L ∈ (pendingBefore H paths i).map Prod.snd ↔
    ∃ (j : Nat) (hj : j < i), siblingPath paths[i].inner.keyPath L <+: paths[j].inner.keyPath
  := by
  have hinv := frontierInv_pendingBefore H paths hasc i hi
  constructor
  · intro hmem
    obtain ⟨e, he, rfl⟩ := List.mem_map.mp hmem
    obtain ⟨j, ⟨hj, hsib, -⟩, -⟩ := hinv.pushedByLast e he
    exact ⟨j, hj, hsib⟩
  · rintro ⟨j, hj, hsib⟩
    exact hinv.complete L j hj hL hLp hsib

/-- After `k` steps of its walk, path `i` is at layer `|p_i| - k`, over the entries of the
stack it started with at or below that layer. -/
theorem walkStateAt_eq (hasc : Ascending paths) {i : Nat} (hi : i < paths.length) {k : Nat}
    (hk : k ≤ upLayers paths[i].inner.keyPath (paths[i + 1]?.map (·.inner.keyPath))) :
  (walkStateAt H paths i hi k).curLayer = paths[i].inner.keyPath.length - k ∧
    (walkStateAt H paths i hi k).pending =
      (pendingBefore H paths i).filter fun e => e.2 ≤ paths[i].inner.keyPath.length - k
  := by
  have hinv := frontierInv_pendingBefore H paths hasc i hi
  have hup := upLayers_le paths[i].inner.keyPath (paths[i + 1]?.map (·.inner.keyPath))
  have hlen : (((paths[i].inner.keyPath.reverse.take
      (upLayers paths[i].inner.keyPath (paths[i + 1]?.map (·.inner.keyPath)))).zip
      paths[i].inner.siblings.reverse).take k).length = k := by
    simp only [List.length_take, List.length_zip, List.length_reverse,
      ← paths[i].inner.length_keyPath]
    omega
  rw [walkStateAt, foldl_walkStep H _ hinv.sorted (fun e he => (hinv.bounded e he).2)
    (by omega), hlen]
  exact ⟨rfl, rfl⟩

/-- At step `k` of the walk of path `i`, the top of the stack is at the current layer exactly
when the stack path `i` started with has an entry there, and then it is that entry. -/
theorem head?_walkStateAt (hasc : Ascending paths) {i : Nat} (hi : i < paths.length) {k : Nat}
    (hk : k ≤ upLayers paths[i].inner.keyPath (paths[i + 1]?.map (·.inner.keyPath)))
    {e : Node × Nat} (he : e ∈ pendingBefore H paths i)
    (hL : e.2 = paths[i].inner.keyPath.length - k) :
  (walkStateAt H paths i hi k).pending.head? = some e
  := by
  rw [(walkStateAt_eq H paths hasc hi hk).2, ← hL]
  exact head?_filter_of_mem (frontierInv_pendingBefore H paths hasc i hi).sorted he

/-- After the last path the stack is one entry, at layer 0. -/
theorem frontier_eq_singleton (hasc : Ascending paths) (hne : paths ≠ []) :
  ∃ root, frontier H paths = [(root, 0)]
  := by
  obtain ⟨m, hm⟩ : ∃ m, paths.length = m + 1 :=
    Nat.exists_eq_succ_of_ne_zero (by simpa using hne)
  have hi : m < paths.length := by omega
  have hinv := frontierInv_pendingBefore H paths hasc m hi
  have hempty : (pendingBefore H paths m).filter (fun e => e.2 ≤ 0) = [] :=
    List.filter_eq_nil_iff.mpr fun e he => by simpa using (hinv.bounded e he).1.ne'
  rw [frontier_eq_pendingBefore, hm, pendingBefore_succ H paths hi,
    walkPath_eq H _ _ hinv.sorted fun e he => (hinv.bounded e he).2,
    List.getElem?_eq_none (by omega)]
  simp only [Option.map_none', upLayers, Nat.sub_self, hempty]
  exact ⟨_, rfl⟩

/-- The stack holds its entries by decreasing layer from the top whenever a path starts, and
after the last path. -/
theorem sorted_pendingBefore (hasc : Ascending paths) {i : Nat} (hi : i ≤ paths.length) :
  ((pendingBefore H paths i).map Prod.snd).Sorted (· > ·)
  := by
  rcases Nat.lt_or_eq_of_le hi with hi | rfl
  · exact (frontierInv_pendingBefore H paths hasc i hi).sorted
  · rw [← frontier_eq_pendingBefore]
    cases paths with
    | nil => exact List.sorted_nil
    | cons u us =>
      obtain ⟨root, hroot⟩ := frontier_eq_singleton H (u :: us) hasc (List.cons_ne_nil u us)
      rw [hroot]
      exact List.sorted_singleton _

/-- At step `k` of the walk of path `i`, the top of the stack is at the current layer exactly
when an earlier path lies below the current sibling. -/
theorem head?_walkStateAt_eq_iff (hasc : Ascending paths) {i : Nat} (hi : i < paths.length)
    {k : Nat} (hk : k < upLayers paths[i].inner.keyPath (paths[i + 1]?.map (·.inner.keyPath))) :
  (walkStateAt H paths i hi k).pending.head?.map Prod.snd =
      some (paths[i].inner.keyPath.length - k) ↔
    ∃ (j : Nat) (hj : j < i),
      siblingPath paths[i].inner.keyPath (paths[i].inner.keyPath.length - k) <+:
        paths[j].inner.keyPath
  := by
  have hup := upLayers_le paths[i].inner.keyPath (paths[i + 1]?.map (·.inner.keyPath))
  rw [← mem_pendingBefore_iff H paths hasc hi (by omega) (by omega)]
  constructor
  · intro htop
    obtain ⟨e, he, hL⟩ := Option.map_eq_some'.mp htop
    rw [(walkStateAt_eq H paths hasc hi hk.le).2] at he
    exact hL ▸ List.mem_map_of_mem _ (List.mem_filter.mp (List.mem_of_mem_head? he)).1
  · intro hmem
    obtain ⟨e, he, hL⟩ := List.mem_map.mp hmem
    rw [head?_walkStateAt H paths hasc hi hk.le he hL, Option.map_some', hL]

/-- At step `k` of the walk of path `i`, when path `j` is the last below the current sibling,
the top of the stack is the entry path `j` left on top, and the step pops it and uses it. -/
theorem takeSibling_walkStateAt_of_lastBelow (hasc : Ascending paths) {i : Nat}
    (hi : i < paths.length) {k : Nat}
    (hk : k < upLayers paths[i].inner.keyPath (paths[i + 1]?.map (·.inner.keyPath))) {j : Nat}
    (h : LastBelow paths i hi (paths[i].inner.keyPath.length - k) j) (sibling : Node) :
  ∃ e, (pendingBefore H paths (j + 1)).head? = some e ∧
    (walkStateAt H paths i hi k).pending.head? = some e ∧
    takeSibling (walkStateAt H paths i hi k).pending (paths[i].inner.keyPath.length - k) sibling =
      (e.1, (walkStateAt H paths i hi k).pending.tail)
  := by
  have hup := upLayers_le paths[i].inner.keyPath (paths[i + 1]?.map (·.inner.keyPath))
  have hinv := frontierInv_pendingBefore H paths hasc i hi
  obtain ⟨e, he, hL⟩ := List.mem_map.mp (hinv.complete _ j h.1 (by omega) (by omega) h.2.1)
  obtain ⟨j', hj', hhead⟩ := hinv.pushedByLast e he
  rw [hL] at hj'
  obtain rfl := hj'.unique h
  have htop := head?_walkStateAt H paths hasc hi hk.le he hL
  refine ⟨e, hhead, htop, ?_⟩
  rw [← hL]
  exact takeSibling_of_head? htop sibling

/-- At step `k` of the walk of path `i`, when no earlier path lies below the current sibling,
the step uses the proof's sibling and leaves the stack as it is. -/
theorem takeSibling_walkStateAt_of_not (hasc : Ascending paths) {i : Nat}
    (hi : i < paths.length) {k : Nat}
    (hk : k < upLayers paths[i].inner.keyPath (paths[i + 1]?.map (·.inner.keyPath)))
    (hnone : ¬ ∃ (j : Nat) (hj : j < i),
      siblingPath paths[i].inner.keyPath (paths[i].inner.keyPath.length - k) <+:
        paths[j].inner.keyPath) (sibling : Node) :
  takeSibling (walkStateAt H paths i hi k).pending (paths[i].inner.keyPath.length - k) sibling =
    (sibling, (walkStateAt H paths i hi k).pending)
  := by
  refine takeSibling_of_head?_ne (fun e he hL => hnone ?_) sibling
  rw [← head?_walkStateAt_eq_iff H paths hasc hi hk, Option.mem_def.mp he, Option.map_some', hL]

/-! ### Each entry is taken once -/

omit [Zero Node] in
/-- Two steps cannot both take the entry of path `j`: the earlier of the two paths would part
from its successor below the layer of that entry. -/
theorem not_lastBelow_walk_of_lt {paths : List (PathUpdate Node)} (hasc : Ascending paths)
    {i i' k k' j : Nat} {hi : i < paths.length} {hi' : i' < paths.length} (hii' : i < i')
    (hk : k < upLayers paths[i].inner.keyPath (paths[i + 1]?.map (·.inner.keyPath)))
    (hk' : k' < upLayers paths[i'].inner.keyPath (paths[i' + 1]?.map (·.inner.keyPath)))
    (h : LastBelow paths i hi (paths[i].inner.keyPath.length - k) j)
    (h' : LastBelow paths i' hi' (paths[i'].inner.keyPath.length - k') j) :
  False
  := by
  have hup := upLayers_le paths[i'].inner.keyPath (paths[i' + 1]?.map (·.inner.keyPath))
  have hi1 : i + 1 < paths.length := by omega
  have hki : k < paths[i].inner.keyPath.length -
      (sharedBits paths[i + 1].inner.keyPath paths[i].inner.keyPath + 1) := by
    simpa only [upLayers, List.getElem?_eq_getElem hi1, Option.map_some'] using hk
  have hL := h.eq_sharedBits hasc h.1 (by omega) (by omega)
  have hL' := h'.eq_sharedBits hasc h'.1 (by omega) (by omega)
  -- both paths agree down to the layer of the entry
  have hshared : paths[i].inner.keyPath.length - k ≤
      sharedBits paths[i'].inner.keyPath paths[i].inner.keyPath := by
    refine le_sharedBits_of_siblingPath_prefix (by omega) (by omega) (by omega) ?_ h.2.1
    rw [hL, ← hL']
    exact h'.2.1
  -- and path `i` shares no more with path `i'` than with its successor
  have hinterval := hasc.sharedBits_le_of_lt (by omega : i < i + 1) (show i + 1 ≤ i' by omega) hi'
  omega

omit [Zero Node] in
/-- The entry path `j` pushes is taken by the first later path that walks above its layer. -/
theorem exists_lastBelow_walk {paths : List (PathUpdate Node)} (hasc : Ascending paths)
    {j : Nat} (i : Nat) (hi : i < paths.length) (hji : j < i)
    (hle : sharedBits paths[j + 1].inner.keyPath paths[j].inner.keyPath + 1 ≤
      paths[i].inner.keyPath.length)
    (h : LastBelow paths i hi (sharedBits paths[j + 1].inner.keyPath paths[j].inner.keyPath + 1)
      j) :
  ∃ (i' k : Nat) (hi' : i' < paths.length),
    k < upLayers paths[i'].inner.keyPath (paths[i' + 1]?.map (·.inner.keyPath)) ∧
    LastBelow paths i' hi' (paths[i'].inner.keyPath.length - k) j
  := by
  obtain ⟨d, hd⟩ : ∃ d, paths.length - i = d := ⟨_, rfl⟩
  induction d generalizing i with
  | zero => omega
  | succ d ih =>
    have hup := upLayers_le paths[i].inner.keyPath (paths[i + 1]?.map (·.inner.keyPath))
    by_cases hstop : paths[i].inner.keyPath.length -
        upLayers paths[i].inner.keyPath (paths[i + 1]?.map (·.inner.keyPath)) <
          sharedBits paths[j + 1].inner.keyPath paths[j].inner.keyPath + 1
    · refine ⟨i, paths[i].inner.keyPath.length -
        (sharedBits paths[j + 1].inner.keyPath paths[j].inner.keyPath + 1), hi, by omega, ?_⟩
      rwa [Nat.sub_sub_self hle]
    · -- path `i` stops at or below the entry's layer, so it has a successor and parts from it
      -- above that layer
      have hi1 : i + 1 < paths.length := by
        by_contra hlast
        have hnone : paths[i + 1]? = none := List.getElem?_eq_none (by omega)
        simp only [hnone, Option.map_none', upLayers, Nat.sub_self] at hstop
        omega
      obtain ⟨hn, hn', -, -⟩ := hasc.sharedBits_succ hi1
      simp only [upLayers, List.getElem?_eq_getElem hi1, Option.map_some'] at hstop
      have hne : sharedBits paths[j + 1].inner.keyPath paths[j].inner.keyPath + 1 ≠
          sharedBits paths[i + 1].inner.keyPath paths[i].inner.keyPath + 1 := fun heq =>
        hasc.not_siblingPath_divergence hi1 h.1 heq h.2.1
      exact ih (i + 1) hi1 (by omega) (by omega) (h.succ hasc hi1 (by omega) (by omega))
        (by omega)

omit [Zero Node] in
/-- Every entry but the last is taken by exactly one step of a later walk. -/
theorem existsUnique_lastBelow_walk {paths : List (PathUpdate Node)} (hasc : Ascending paths)
    {j : Nat} (hj : j + 1 < paths.length) :
  ∃! ik : Nat × Nat, ∃ hi : ik.1 < paths.length,
    ik.2 < upLayers paths[ik.1].inner.keyPath (paths[ik.1 + 1]?.map (·.inner.keyPath)) ∧
    LastBelow paths ik.1 hi (paths[ik.1].inner.keyPath.length - ik.2) j
  := by
  obtain ⟨-, hn', -, -⟩ := hasc.sharedBits_succ hj
  obtain ⟨i, k, hi, hk, h⟩ := exists_lastBelow_walk hasc (j + 1) hj (by omega) (by omega)
    ⟨by omega, hasc.siblingPath_succ_prefix hj, fun j' _ hlt _ => by omega⟩
  refine ⟨(i, k), ⟨hi, hk, h⟩, ?_⟩
  rintro ⟨i', k'⟩ ⟨hi', hk', h'⟩
  dsimp only at hi' hk' h'
  rcases Nat.lt_trichotomy i' i with hlt | rfl | hgt
  · exact (not_lastBelow_walk_of_lt hasc hlt hk' hk h' h).elim
  · -- on one path the entry's layer fixes the step
    have hup := upLayers_le paths[i'].inner.keyPath (paths[i' + 1]?.map (·.inner.keyPath))
    have hL := h.eq_sharedBits hasc h.1 (by omega) (by omega)
    have hL' := h'.eq_sharedBits hasc h'.1 (by omega) (by omega)
    exact Prod.ext rfl (by dsimp only; omega)
  · exact (not_lastBelow_walk_of_lt hasc hgt hk hk' h h').elim

/-- The stack discipline of the frontier loop of `verify_update`. -/
structure StackDiscipline (H : NodeHasher Node) (paths : List (PathUpdate Node)) : Prop where
  /-- Whenever a path starts, and after the last one, the layers on the stack increase from
  the bottom to the top. -/
  sorted : ∀ i ≤ paths.length, ((pendingBefore H paths i).map Prod.snd).Sorted (· > ·)
  /-- Step `k` of the walk of path `i` is at layer `|p_i| - k`. -/
  curLayer : ∀ i (hi : i < paths.length) k,
    k < upLayers paths[i].inner.keyPath (paths[i + 1]?.map (·.inner.keyPath)) →
    (walkStateAt H paths i hi k).curLayer = paths[i].inner.keyPath.length - k
  /-- There, the top of the stack is at that layer exactly when an earlier path lies below
  the sibling of path `i` at that layer. -/
  top_iff : ∀ i (hi : i < paths.length) k,
    k < upLayers paths[i].inner.keyPath (paths[i + 1]?.map (·.inner.keyPath)) →
    ((walkStateAt H paths i hi k).pending.head?.map Prod.snd =
        some (paths[i].inner.keyPath.length - k) ↔
      ∃ (j : Nat) (hj : j < i),
        siblingPath paths[i].inner.keyPath (paths[i].inner.keyPath.length - k) <+:
          paths[j].inner.keyPath)
  /-- Then the top is the entry that the last such path left on top, and the step pops it and
  uses it in place of the proof's sibling. -/
  takesLast : ∀ i (hi : i < paths.length) k (sibling : Node),
    k < upLayers paths[i].inner.keyPath (paths[i + 1]?.map (·.inner.keyPath)) →
    ∀ j, LastBelow paths i hi (paths[i].inner.keyPath.length - k) j →
      ∃ e, (pendingBefore H paths (j + 1)).head? = some e ∧
        (walkStateAt H paths i hi k).pending.head? = some e ∧
        takeSibling (walkStateAt H paths i hi k).pending (paths[i].inner.keyPath.length - k)
          sibling = (e.1, (walkStateAt H paths i hi k).pending.tail)
  /-- Otherwise the step uses the proof's sibling and leaves the stack as it is. -/
  keepsSibling : ∀ i (hi : i < paths.length) k (sibling : Node),
    k < upLayers paths[i].inner.keyPath (paths[i + 1]?.map (·.inner.keyPath)) →
    (¬ ∃ (j : Nat) (hj : j < i),
      siblingPath paths[i].inner.keyPath (paths[i].inner.keyPath.length - k) <+:
        paths[j].inner.keyPath) →
    takeSibling (walkStateAt H paths i hi k).pending (paths[i].inner.keyPath.length - k)
      sibling = (sibling, (walkStateAt H paths i hi k).pending)
  /-- The entry each path but the last pushes is taken by exactly one step of a later walk. -/
  takenOnce : ∀ j, j + 1 < paths.length → ∃! ik : Nat × Nat, ∃ hi : ik.1 < paths.length,
    ik.2 < upLayers paths[ik.1].inner.keyPath (paths[ik.1 + 1]?.map (·.inner.keyPath)) ∧
    LastBelow paths ik.1 hi (paths[ik.1].inner.keyPath.length - ik.2) j
  /-- After the last path the stack is one entry, at layer 0. -/
  single : ∃ root, frontier H paths = [(root, 0)]

/-- The frontier loop of `verify_update` keeps its stack discipline over every non-empty
ascending batch of pairwise incomparable paths. -/
theorem frontier_stack_discipline (hne : paths ≠ []) (hasc : Ascending paths) :
  StackDiscipline H paths
  where
  sorted _ hi := sorted_pendingBefore H paths hasc hi
  curLayer _ hi _ hk := (walkStateAt_eq H paths hasc hi hk.le).1
  top_iff _ hi _ hk := head?_walkStateAt_eq_iff H paths hasc hi hk
  takesLast _ hi _ sibling hk _ h := takeSibling_walkStateAt_of_lastBelow H paths hasc hi hk h sibling
  keepsSibling _ hi _ sibling hk hnone := takeSibling_walkStateAt_of_not H paths hasc hi hk hnone sibling
  takenOnce _ hj := existsUnique_lastBelow_walk hasc hj
  single := frontier_eq_singleton H paths hasc hne

end Discipline

theorem frontier_stack_discipline_pair :
  [(⟨⟨[false], none, [.terminator], .terminator, rfl, by decide⟩, []⟩ : PathUpdate FreeNode),
      ⟨⟨[true], none, [.terminator], .terminator, rfl, by decide⟩, []⟩] ≠ [] ∧
    Ascending [(⟨⟨[false], none, [.terminator], .terminator, rfl, by decide⟩, []⟩ :
      PathUpdate FreeNode), ⟨⟨[true], none, [.terminator], .terminator, rfl, by decide⟩, []⟩] ∧
    StackDiscipline freeHasher
      [(⟨⟨[false], none, [.terminator], .terminator, rfl, by decide⟩, []⟩ : PathUpdate FreeNode),
        ⟨⟨[true], none, [.terminator], .terminator, rfl, by decide⟩, []⟩]
  := by
  have hasc : Ascending [(⟨⟨[false], none, [.terminator], .terminator, rfl, by decide⟩, []⟩ :
      PathUpdate FreeNode), ⟨⟨[true], none, [.terminator], .terminator, rfl, by decide⟩, []⟩] :=
    ⟨List.chain'_pair.mpr rfl, List.pairwise_pair.mpr (by decide)⟩
  exact ⟨List.cons_ne_nil _ _, hasc, frontier_stack_discipline freeHasher _ (List.cons_ne_nil _ _) hasc⟩

end Nomt
