import Mathlib.Data.List.Basic

/-!
# Bit paths

Key paths and trie positions are read as bit sequences, most significant bit first
(`BitSlice<u8, Msb0>`).  `compareBits` is the order `bitvec` gives bit slices, used by
`verify_update` to check that paths and operations ascend, and `sharedBits` is
`shared_bits`, the length of the common prefix of two paths.  The position of the
sibling of the node at depth `L` along `p` is `siblingPath p L`, that is
`p[..L-1]·¬p[L-1]`.
-/

namespace Nomt

/-- `BitSlice::partial_cmp`: the first differing bit decides, and when one slice runs out
first the shorter one is smaller. -/
def compareBits : List Bool → List Bool → Ordering
  | a :: as, b :: bs => if a = b then compareBits as bs else if a then .gt else .lt
  | as, bs => compare as.length bs.length

/-- `shared_bits`: the number of leading bits on which `a` and `b` agree. -/
def sharedBits : List Bool → List Bool → Nat
  | a :: as, b :: bs => if a = b then sharedBits as bs + 1 else 0
  | _, _ => 0

/-- The position `p[..L-1]·¬p[L-1]` of the sibling of the node at depth `L` along `p`. -/
def siblingPath (p : List Bool) (L : Nat) : List Bool :=
  p.take (L - 1) ++ [!p.getD (L - 1) false]

/-! ### Comparing bit slices -/

@[simp]
theorem compareBits_nil_nil :
  compareBits [] [] = .eq
  := rfl

@[simp]
theorem compareBits_nil_cons (b : Bool) (bs : List Bool) :
  compareBits [] (b :: bs) = .lt
  := by
  simp [compareBits, compare, compareOfLessAndEq]

@[simp]
theorem compareBits_cons_nil (a : Bool) (as : List Bool) :
  compareBits (a :: as) [] = .gt
  := by
  simp [compareBits, compare, compareOfLessAndEq]

@[simp]
theorem compareBits_cons_self (a : Bool) (as bs : List Bool) :
  compareBits (a :: as) (a :: bs) = compareBits as bs
  := by
  simp [compareBits]

@[simp]
theorem compareBits_false_true (as bs : List Bool) :
  compareBits (false :: as) (true :: bs) = .lt
  := rfl

@[simp]
theorem compareBits_true_false (as bs : List Bool) :
  compareBits (true :: as) (false :: bs) = .gt
  := rfl

/-- Swapping the arguments swaps the answer. -/
theorem compareBits_swap (a b : List Bool) :
  compareBits b a = (compareBits a b).swap
  := by
  induction a generalizing b with
  | nil => cases b <;> simp [Ordering.swap]
  | cons x as ih =>
    cases b with
    | nil => simp [Ordering.swap]
    | cons y bs => cases x <;> cases y <;> simp [ih, Ordering.swap]

theorem compareBits_eq_eq_iff {a b : List Bool} :
  compareBits a b = .eq ↔ a = b
  := by
  induction a generalizing b with
  | nil => cases b <;> simp
  | cons x as ih =>
    cases b with
    | nil => simp
    | cons y bs => cases x <;> cases y <;> simp [ih]

@[simp]
theorem compareBits_self (a : List Bool) :
  compareBits a a = .eq
  := compareBits_eq_eq_iff.mpr rfl

theorem ne_of_compareBits_lt {a b : List Bool} (h : compareBits a b = .lt) :
  a ≠ b
  := fun heq => by rw [heq, compareBits_self] at h; cases h

theorem compareBits_trans {a b c : List Bool}
    (hab : compareBits a b = .lt) (hbc : compareBits b c = .lt) :
  compareBits a c = .lt
  := by
  induction a generalizing b c with
  | nil => cases b <;> cases c <;> simp_all
  | cons x as ih =>
    cases b with
    | nil => simp at hab
    | cons y bs =>
      cases c with
      | nil => simp at hbc
      | cons z cs =>
        cases x <;> cases y <;> cases z <;> simp at hab hbc ⊢ <;> exact ih hab hbc

theorem compareBits_ne_gt_trans {a b c : List Bool}
    (hab : compareBits a b ≠ .gt) (hbc : compareBits b c ≠ .gt) :
  compareBits a c ≠ .gt
  := by
  cases h₁ : compareBits a b with
  | gt => exact absurd h₁ hab
  | eq => rwa [compareBits_eq_eq_iff.mp h₁]
  | lt =>
    cases h₂ : compareBits b c with
    | gt => exact absurd h₂ hbc
    | eq => rwa [← compareBits_eq_eq_iff.mp h₂]
    | lt => simp [compareBits_trans h₁ h₂]

theorem compareBits_ne_gt_total (a b : List Bool) :
  compareBits a b ≠ .gt ∨ compareBits b a ≠ .gt
  := by
  rw [compareBits_swap a b]
  cases compareBits a b <;> simp [Ordering.swap]

/-- A proper prefix is smaller. -/
theorem compareBits_append_cons (a : List Bool) (x : Bool) (bs : List Bool) :
  compareBits a (a ++ x :: bs) = .lt
  := by
  induction a with
  | nil => simp
  | cons y as ih => simp [ih]

theorem compareBits_append_left (c a b : List Bool) :
  compareBits (c ++ a) (c ++ b) = compareBits a b
  := by
  induction c with
  | nil => rfl
  | cons y cs ih => simp [ih]

/-! ### Shared prefixes -/

theorem sharedBits_comm (a b : List Bool) :
  sharedBits a b = sharedBits b a
  := by
  induction a generalizing b with
  | nil => cases b <;> rfl
  | cons x as ih =>
    cases b with
    | nil => rfl
    | cons y bs => by_cases h : x = y <;> simp [sharedBits, h, ih, eq_comm]

/-- `n` bits are shared exactly when both paths have `n` bits and their first `n` agree. -/
theorem le_sharedBits_iff {a b : List Bool} {n : Nat} :
  n ≤ sharedBits a b ↔ n ≤ a.length ∧ n ≤ b.length ∧ a.take n = b.take n
  := by
  induction a generalizing b n with
  | nil =>
    cases b
    · simp [sharedBits]
    · simp [sharedBits]
      omega
  | cons x as ih =>
    cases b with
    | nil =>
      simp [sharedBits]
      omega
    | cons y bs =>
      cases n with
      | zero => simp
      | succ n =>
        by_cases h : x = y
        · simp [sharedBits, h, ih]
        · simp [sharedBits, h]

theorem sharedBits_le_left (a b : List Bool) :
  sharedBits a b ≤ a.length
  := (le_sharedBits_iff.mp le_rfl).1

theorem sharedBits_le_right (a b : List Bool) :
  sharedBits a b ≤ b.length
  := (le_sharedBits_iff.mp le_rfl).2.1

theorem take_sharedBits (a b : List Bool) :
  a.take (sharedBits a b) = b.take (sharedBits a b)
  := (le_sharedBits_iff.mp le_rfl).2.2

/-- All of `a` is shared with `b` exactly when `a` is a prefix of `b`. -/
theorem sharedBits_eq_length_iff {a b : List Bool} :
  sharedBits a b = a.length ↔ a <+: b
  := by
  constructor
  · intro h
    have hs := take_sharedBits a b
    rw [h, List.take_length] at hs
    exact List.prefix_iff_eq_take.mpr hs
  · intro h
    refine le_antisymm (sharedBits_le_left a b) (le_sharedBits_iff.mpr ⟨le_rfl, h.length_le, ?_⟩)
    rw [List.take_length]
    exact List.prefix_iff_eq_take.mp h

/-- Below the shared prefix, the first bits of two long enough paths differ. -/
theorem getD_sharedBits_ne {a b : List Bool}
    (ha : sharedBits a b < a.length) (hb : sharedBits a b < b.length) :
  a.getD (sharedBits a b) false ≠ b.getD (sharedBits a b) false
  := by
  induction a generalizing b with
  | nil => simp at ha
  | cons x as ih =>
    cases b with
    | nil => simp at hb
    | cons y bs =>
      by_cases h : x = y
      · simp only [sharedBits, h, if_true, List.length_cons, List.getD_cons_succ] at ha hb ⊢
        exact ih (by omega) (by omega)
      · simp [sharedBits, h]

/-- Below the shared prefix, the bits of two paths agree. -/
theorem getD_of_lt_sharedBits {a b : List Bool} {i : Nat} (h : i < sharedBits a b) (d : Bool) :
  a.getD i d = b.getD i d
  := by
  obtain ⟨ha, hb, htake⟩ := le_sharedBits_iff.mp h
  rw [List.getD_eq_getElem?_getD, List.getD_eq_getElem?_getD, ← List.getElem?_take_of_lt
    (Nat.lt_succ_self i), htake, List.getElem?_take_of_lt (Nat.lt_succ_self i)]

/-- Sharing is ultrametric: `a` shares with `c` at least what both share with `b`. -/
theorem min_sharedBits_le (a b c : List Bool) :
  min (sharedBits a b) (sharedBits b c) ≤ sharedBits a c
  := by
  obtain ⟨ha, -, hab⟩ := le_sharedBits_iff.mp (min_le_left (sharedBits a b) (sharedBits b c))
  obtain ⟨-, hc, hbc⟩ := le_sharedBits_iff.mp (min_le_right (sharedBits a b) (sharedBits b c))
  exact le_sharedBits_iff.mpr ⟨ha, hc, hab.trans hbc⟩

/-- Paths sharing more than `m` bits share exactly `m` bits with the same paths. -/
theorem sharedBits_eq_iff_of_lt {a b c : List Bool} {m : Nat} (h : m < sharedBits a b) :
  sharedBits a c = m ↔ sharedBits b c = m
  := by
  have h₁ := min_sharedBits_le a b c
  have h₂ := min_sharedBits_le b a c
  rw [sharedBits_comm b a] at h₂
  constructor <;> intro heq <;> omega

/-- Where two paths first differ, the bit decides their order. -/
theorem compareBits_of_sharedBits_lt {a b : List Bool} (ha : sharedBits a b < a.length)
    (hb : sharedBits a b < b.length) :
  compareBits a b = if a.getD (sharedBits a b) false then .gt else .lt
  := by
  induction a generalizing b with
  | nil => simp at ha
  | cons x as ih =>
    cases b with
    | nil => simp at hb
    | cons y bs =>
      by_cases h : x = y
      · subst h
        simp only [sharedBits, if_true, List.length_cons, List.getD_cons_succ] at ha hb ⊢
        rw [compareBits_cons_self]
        exact ih (by omega) (by omega)
      · have hs : sharedBits (x :: as) (y :: bs) = 0 := by simp [sharedBits, h]
        rw [hs]
        cases x <;> cases y <;> first | exact absurd rfl h | rfl

/-- The order of two paths, one of them not a prefix of the other, is decided where they part. -/
theorem compareBits_eq_lt_iff_getD {a b : List Bool} (ha : sharedBits a b < a.length)
    (hb : sharedBits a b < b.length) :
  compareBits a b = .lt ↔ a.getD (sharedBits a b) false = false
  := by
  rw [compareBits_of_sharedBits_lt ha hb]
  cases a.getD (sharedBits a b) false <;> simp

/-- When `a` precedes `b` and is no prefix of it, they part with a clear bit in `a` and a set
bit in `b`. -/
theorem getD_sharedBits_of_compareBits_lt {a b : List Bool} (hlt : compareBits a b = .lt)
    (hpre : ¬ a <+: b) :
  sharedBits a b < a.length ∧ sharedBits a b < b.length ∧
    a.getD (sharedBits a b) false = false ∧ b.getD (sharedBits a b) false = true
  := by
  have ha : sharedBits a b < a.length :=
    lt_of_le_of_ne (sharedBits_le_left a b) (mt sharedBits_eq_length_iff.mp hpre)
  have hb : sharedBits a b < b.length := by
    refine lt_of_le_of_ne (sharedBits_le_right a b) fun heq => ?_
    rw [sharedBits_comm, sharedBits_eq_length_iff] at heq
    have hgt := compareBits_swap a b
    rw [hlt] at hgt
    obtain ⟨t, rfl⟩ := heq
    cases t with
    | nil => simp [Ordering.swap] at hgt
    | cons x t => simp [compareBits_append_cons, Ordering.swap] at hgt
  have hbit := (compareBits_eq_lt_iff_getD ha hb).mp hlt
  have hne := getD_sharedBits_ne ha hb
  rw [hbit] at hne
  refine ⟨ha, hb, hbit, ?_⟩
  revert hne
  cases b.getD (sharedBits a b) false <;> simp

/-- A path agreeing with `x` beyond the depth where `x` and `y` part compares with `y` as `x`
does. -/
theorem compareBits_eq_of_lt_sharedBits {x y q : List Bool} (hx : sharedBits x y < x.length)
    (hy : sharedBits x y < y.length) (hq : sharedBits x y < sharedBits x q) :
  compareBits q y = compareBits x y
  := by
  have hqy : sharedBits q y = sharedBits x y := (sharedBits_eq_iff_of_lt hq).mp rfl
  have hbit := getD_of_lt_sharedBits hq false
  have hql : sharedBits x y < q.length := lt_of_lt_of_le hq (sharedBits_le_right x q)
  rw [compareBits_of_sharedBits_lt hx hy, compareBits_of_sharedBits_lt (by omega) (by omega), hqy,
    hbit]

/-! ### Sibling positions -/

theorem length_siblingPath {p : List Bool} {L : Nat} (hL : 0 < L) (hLp : L ≤ p.length) :
  (siblingPath p L).length = L
  := by
  simp [siblingPath]
  omega

theorem take_succ_eq_getD {q : List Bool} {m : Nat} (h : m < q.length) :
  q.take (m + 1) = q.take m ++ [q.getD m false]
  := by
  rw [List.take_succ, List.getElem?_eq_getElem h]
  simp [List.getD_eq_getElem?_getD, List.getElem?_eq_getElem h]

/-- A path lies below the sibling of the node at depth `L` along `p` exactly when it is long
enough and parts from `p` at depth `L - 1`. -/
theorem siblingPath_prefix_iff {p q : List Bool} {L : Nat} (hL : 0 < L) (hLp : L ≤ p.length) :
  siblingPath p L <+: q ↔ L ≤ q.length ∧ sharedBits p q = L - 1
  := by
  rw [List.prefix_iff_eq_take, length_siblingPath hL hLp]
  obtain ⟨m, rfl⟩ : ∃ m, L = m + 1 := ⟨L - 1, by omega⟩
  simp only [siblingPath, Nat.add_sub_cancel]
  constructor
  · intro h
    have hq : m < q.length := by
      have hlen := congrArg List.length h
      simp only [List.length_append, List.length_take, List.length_singleton] at hlen
      omega
    rw [take_succ_eq_getD hq] at h
    obtain ⟨htake, hbit⟩ := List.append_inj h (by simp; omega)
    refine ⟨hq, le_antisymm ?_ (le_sharedBits_iff.mpr ⟨by omega, by omega, htake⟩)⟩
    by_contra hgt
    have hsame := getD_of_lt_sharedBits (Nat.lt_of_not_le hgt) false
    simp only [List.cons.injEq, and_true] at hbit
    rw [hsame] at hbit
    cases q.getD m false <;> simp at hbit
  · rintro ⟨hq, hshared⟩
    have htake := take_sharedBits p q
    have hne := getD_sharedBits_ne (a := p) (b := q) (by omega) (by omega)
    rw [hshared] at htake hne
    rw [take_succ_eq_getD hq, htake]
    revert hne
    cases p.getD m false <;> cases q.getD m false <;> simp

/-- A path never lies below one of its own siblings. -/
theorem not_siblingPath_prefix_self {p : List Bool} {L : Nat} (hL : 0 < L) (hLp : L ≤ p.length) :
  ¬ siblingPath p L <+: p
  := by
  rw [siblingPath_prefix_iff hL hLp, sharedBits_eq_length_iff.mpr (List.prefix_refl p)]
  omega

/-- What lies below a sibling at depth `L` on one path lies below it on every path that agrees
with that one down to depth `L`. -/
theorem siblingPath_prefix_of_le_sharedBits {p q r : List Bool} {L : Nat} (hL : 0 < L)
    (hLp : L ≤ p.length) (h : siblingPath p L <+: q) (hrq : L ≤ sharedBits r q) :
  siblingPath p L <+: r
  := by
  obtain ⟨hr, -, htake⟩ := le_sharedBits_iff.mp hrq
  rw [List.prefix_iff_eq_take, length_siblingPath hL hLp] at h ⊢
  rw [h, htake]

/-- Two paths whose siblings at depth `L` lie above one same path agree down to depth `L`. -/
theorem le_sharedBits_of_siblingPath_prefix {p q r : List Bool} {L : Nat} (hL : 0 < L)
    (hp : L ≤ p.length) (hq : L ≤ q.length) (hpr : siblingPath p L <+: r)
    (hqr : siblingPath q L <+: r) :
  L ≤ sharedBits p q
  := by
  obtain ⟨hr, hpr⟩ := (siblingPath_prefix_iff hL hp).mp hpr
  obtain ⟨-, hqr⟩ := (siblingPath_prefix_iff hL hq).mp hqr
  have hpne := getD_sharedBits_ne (a := p) (b := r) (by omega) (by omega)
  have hqne := getD_sharedBits_ne (a := q) (b := r) (by omega) (by omega)
  have hptake := take_sharedBits p r
  have hqtake := take_sharedBits q r
  rw [hpr] at hpne hptake
  rw [hqr] at hqne hqtake
  have hbit : p.getD (L - 1) false = q.getD (L - 1) false := by
    revert hpne hqne
    cases p.getD (L - 1) false <;> cases q.getD (L - 1) false <;> cases r.getD (L - 1) false <;>
      simp
  obtain ⟨m, rfl⟩ : ∃ m, L = m + 1 := ⟨L - 1, by omega⟩
  simp only [Nat.add_sub_cancel] at hbit hptake hqtake
  refine le_sharedBits_iff.mpr ⟨hp, hq, ?_⟩
  rw [take_succ_eq_getD (by omega), take_succ_eq_getD (by omega), hptake, hqtake, hbit]

/-- A path `q` before `p` lies below the sibling at depth `L` only where `p` turns right. -/
theorem getD_of_siblingPath_prefix {p q : List Bool} {L : Nat} (hL : 0 < L) (hLp : L ≤ p.length)
    (hlt : compareBits q p = .lt) (h : siblingPath p L <+: q) :
  p.getD (L - 1) false = true
  := by
  obtain ⟨hq, hshared⟩ := (siblingPath_prefix_iff hL hLp).mp h
  rw [sharedBits_comm] at hshared
  have hbit := (compareBits_eq_lt_iff_getD (by omega) (by omega)).mp hlt
  have hne := getD_sharedBits_ne (a := q) (b := p) (by omega) (by omega)
  rw [hshared] at hbit hne
  rw [hbit] at hne
  revert hne
  cases p.getD (L - 1) false <;> simp

@[simp]
theorem siblingPath_cons_succ (b : Bool) (p : List Bool) (d : Nat) :
  siblingPath (b :: p) (d + 1 + 1) = b :: siblingPath p (d + 1)
  := by
  simp [siblingPath]

/-- A key below the sibling of `p` at depth `L` and below a position `q` that lies above `p`
only when it is `p` lies below `q` from that sibling down. -/
theorem siblingPath_prefix_of_shared_key {p q k : List Bool} {L : Nat} (hL : 0 < L)
    (hLp : L ≤ p.length) (hs : siblingPath p L <+: k) (hq : q <+: k)
    (hfree : q <+: p → q = p) :
  siblingPath p L <+: q
  := by
  have hlen := length_siblingPath hL hLp
  by_cases hle : L ≤ q.length
  · exact List.prefix_of_prefix_length_le hs hq (by omega)
  · -- otherwise `q` lies above the sibling, so above `p`
    have habove : q <+: p.take (L - 1) := List.prefix_of_prefix_length_le
      (List.prefix_of_prefix_length_le hq hs (by omega)) ⟨_, rfl⟩ (by simp; omega)
    have := congrArg List.length (hfree (habove.trans (List.take_prefix _ _)))
    omega

end Nomt
