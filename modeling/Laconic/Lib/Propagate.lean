import Mathlib.Algebra.BigOperators.Group.Finset.Sigma
import Mathlib.Algebra.BigOperators.Ring.Finset
import Mathlib.Tactic.Ring

/-!
# Propagation along a graph with levels

The nodes of a weighted graph pass values on.  A base node passes its input, any other node what it
has collected from the nodes below it.  Level by level, every node passes on once, and it has
collected everything by then.  What arrives at a base node is the sum over the base nodes of the
input times the transfer from the one to the other, which does not mention the nodes between them.
-/

namespace Propagate

variable {α R : Type} [CommSemiring R]

section Sweeps

variable (nodes : Finset α) (base : α → Prop) [DecidablePred base] (w : α → α → R) (lv : α → Nat)
  (input : α → R)

/-- What a node passes on when `acc` has been collected. -/
def value (acc : α → R) (x : α) : R := if base x then input x else acc x

/-- The nodes of level `n` pass on. -/
def sweep (n : Nat) (acc : α → R) (y : α) : R :=
  acc y + ∑ x ∈ nodes with lv x = n, value base input acc x * w x y

/-- What has been collected when the levels below `n` have passed on. -/
def sweeps : Nat → α → R
  | 0 => fun _ => 0
  | n + 1 => sweep nodes base w lv input n (sweeps n)

end Sweeps

/-- The base nodes are at level 0, and the edges to other nodes go up. -/
structure Levelled (nodes : Finset α) (base : α → Prop) (w : α → α → R) (lv : α → Nat) : Prop where
  zero_iff : ∀ x ∈ nodes, lv x = 0 ↔ base x
  up : ∀ x ∈ nodes, ∀ z ∈ nodes, ¬ base z → lv z ≤ lv x → w x z = 0

/-- `T x y` is what arrives at the base node `y` of one unit at `x`. -/
structure Transfer [DecidableEq α] (nodes : Finset α) (base : α → Prop) (w : α → α → R)
    (T : α → α → R) : Prop where
  self : ∀ x y, base x → T x y = if x = y then 1 else 0
  other : ∀ x ∈ nodes, ¬ base x → ∀ y, T x y = ∑ z ∈ nodes, w x z * T z y

section Result

variable [DecidableEq α] {nodes : Finset α} {base : α → Prop} [DecidablePred base] {w : α → α → R}
  {lv : α → Nat} {input : α → R} {T : α → α → R} {x y : α}

/-- What leaves `x` goes to `y` or to the levels above `x`. -/
theorem Levelled.leaves (h : Levelled nodes base w lv) (hT : Transfer nodes base w T)
    (hx : x ∈ nodes) (hy : y ∈ nodes) (hyb : base y) :
    w x y + ∑ r ∈ nodes with lv x + 1 ≤ lv r, w x r * T r y = ∑ z ∈ nodes, w x z * T z y := by
  have hterm : ∀ z ∈ nodes, w x z * T z y =
      (if lv x + 1 ≤ lv z then w x z * T z y else 0) + if y = z then w x z else 0 := by
    intro z hz
    by_cases hzb : base z
    · -- a base node keeps what it gets
      have hlow : lv z = 0 := (h.zero_iff z hz).mpr hzb
      rw [if_neg (by omega), zero_add, hT.self z y hzb]
      by_cases hzy : z = y
      · rw [if_pos hzy, if_pos hzy.symm, mul_one]
      · rw [if_neg hzy, if_neg (Ne.symm hzy), mul_zero]
    · have hzy : y ≠ z := by
        rintro rfl
        exact hzb hyb
      rw [if_neg hzy, add_zero]
      by_cases hup : lv x + 1 ≤ lv z
      · rw [if_pos hup]
      · rw [if_neg hup, h.up x hx z hz hzb (by omega), zero_mul]
  rw [Finset.sum_congr rfl hterm, Finset.sum_add_distrib, Finset.sum_ite_eq, if_pos hy,
    Finset.sum_filter, add_comm]

/-- What `y` has, together with what is still on its way to `y`. -/
def pending (nodes : Finset α) (lv : α → Nat) (T : α → α → R) (y : α) (n : Nat) (acc : α → R) : R :=
  acc y + ∑ r ∈ nodes with n ≤ lv r, acc r * T r y

/-- One sweep turns the values of a level into what they transfer. -/
theorem Levelled.pending_sweep (h : Levelled nodes base w lv) (hT : Transfer nodes base w T)
    (hy : y ∈ nodes) (hyb : base y) (n : Nat) (acc : α → R) :
    pending nodes lv T y (n + 1) (sweep nodes base w lv input n acc) =
      acc y + ∑ r ∈ nodes with n + 1 ≤ lv r, acc r * T r y +
        ∑ x ∈ nodes with lv x = n, value base input acc x * ∑ z ∈ nodes, w x z * T z y := by
  have hrules : ∑ r ∈ nodes with n + 1 ≤ lv r, sweep nodes base w lv input n acc r * T r y =
      ∑ r ∈ nodes with n + 1 ≤ lv r, acc r * T r y + ∑ x ∈ nodes with lv x = n,
        value base input acc x * ∑ r ∈ nodes with n + 1 ≤ lv r, w x r * T r y := by
    simp only [sweep, add_mul, Finset.sum_add_distrib, Finset.sum_mul, Finset.mul_sum]
    rw [Finset.sum_comm]
    simp only [mul_assoc]
  have hleaves : ∑ x ∈ nodes with lv x = n, value base input acc x * ∑ z ∈ nodes, w x z * T z y =
      ∑ x ∈ nodes with lv x = n, value base input acc x * w x y + ∑ x ∈ nodes with lv x = n,
        value base input acc x * ∑ r ∈ nodes with n + 1 ≤ lv r, w x r * T r y := by
    rw [← Finset.sum_add_distrib]
    refine Finset.sum_congr rfl fun x hx => ?_
    rw [Finset.mem_filter] at hx
    rw [← mul_add, ← h.leaves hT hx.1 hy hyb, hx.2]
  rw [pending, hrules, hleaves, sweep]
  ring

/-- Above level 0 a sweep changes nothing of what arrives in the end. -/
theorem Levelled.pending_succ (h : Levelled nodes base w lv) (hT : Transfer nodes base w T)
    (hy : y ∈ nodes) (hyb : base y) {n : Nat} (hn : 0 < n) (acc : α → R) :
    pending nodes lv T y (n + 1) (sweep nodes base w lv input n acc) =
      pending nodes lv T y n acc := by
  have hlevel : ∑ x ∈ nodes with lv x = n, value base input acc x * ∑ z ∈ nodes, w x z * T z y =
      ∑ x ∈ nodes with lv x = n, acc x * T x y := by
    refine Finset.sum_congr rfl fun x hx => ?_
    rw [Finset.mem_filter] at hx
    have hxb : ¬ base x := by
      rw [← h.zero_iff x hx.1]
      omega
    rw [value, if_neg hxb, hT.other x hx.1 hxb y]
  -- the nodes from level `n` on are those at level `n` and those above
  have hsplit : ∑ r ∈ nodes with n ≤ lv r, acc r * T r y =
      ∑ r ∈ nodes with n + 1 ≤ lv r, acc r * T r y + ∑ r ∈ nodes with lv r = n, acc r * T r y := by
    simp only [Finset.sum_filter, ← Finset.sum_add_distrib]
    refine Finset.sum_congr rfl fun r _ => ?_
    rcases Nat.lt_trichotomy (lv r) n with hlt | heq | hgt
    · rw [if_neg (by omega), if_neg (by omega), if_neg (by omega), zero_add]
    · rw [if_pos (by omega), if_neg (by omega), if_pos heq, zero_add]
    · rw [if_pos (by omega), if_pos (by omega), if_neg (by omega), add_zero]
  rw [h.pending_sweep hT hy hyb, hlevel, pending, hsplit, add_assoc]

theorem Levelled.pending_sweeps (h : Levelled nodes base w lv) (hT : Transfer nodes base w T)
    (hy : y ∈ nodes) (hyb : base y) (input : α → R) (n : Nat) :
    pending nodes lv T y (n + 1) (sweeps nodes base w lv input (n + 1)) =
      ∑ u ∈ nodes with base u, input u * ∑ z ∈ nodes, w u z * T z y := by
  induction n with
  | zero =>
    -- the base nodes pass on in the first sweep, and nothing has been collected before
    show pending nodes lv T y (0 + 1) (sweep nodes base w lv input 0 fun _ => 0) = _
    rw [h.pending_sweep hT hy hyb]
    simp only [zero_mul, Finset.sum_const_zero, zero_add]
    have hbase : (nodes.filter fun x => lv x = 0) = nodes.filter base :=
      Finset.filter_congr fun x hx => h.zero_iff x hx
    rw [hbase]
    refine Finset.sum_congr rfl fun u hu => ?_
    rw [value, if_pos (Finset.mem_filter.mp hu).2]
  | succ n ih =>
    show pending nodes lv T y (n + 1 + 1)
      (sweep nodes base w lv input (n + 1) (sweeps nodes base w lv input (n + 1))) = _
    rw [h.pending_succ hT hy hyb (Nat.succ_pos n), ih]

/-- After all levels every base node has what the base nodes transfer to it. -/
theorem Levelled.sweeps_eq (h : Levelled nodes base w lv) (hT : Transfer nodes base w T)
    (hy : y ∈ nodes) (hyb : base y) {N : Nat} (hN : ∀ x ∈ nodes, lv x < N) :
    sweeps nodes base w lv input N y =
      ∑ u ∈ nodes with base u, input u * ∑ z ∈ nodes, w u z * T z y := by
  obtain ⟨n, rfl⟩ := Nat.exists_eq_succ_of_ne_zero (Nat.ne_of_gt (Nat.zero_lt_of_lt (hN y hy)))
  have hnone : (nodes.filter fun r => n + 1 ≤ lv r) = ∅ := by
    apply Finset.filter_eq_empty_iff.mpr
    intro r hr
    have := hN r hr
    omega
  have hall := h.pending_sweeps hT hy hyb input n
  rwa [pending, hnone, Finset.sum_empty, add_zero] at hall

end Result

end Propagate
