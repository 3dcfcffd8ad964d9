import Mathlib.Data.Nat.Log
import Mathlib.Tactic.Common
import Mathlib.Tactic.Ring

/-!
# Division of naturals in binary64

The true quotient of two naturals, rounded to 53 significant bits with ties to even and then
truncated to an integer.  The quotient is scaled by a power of two until it lies between `2 ^ 52`
and `2 ^ 53`; rounding is then rounding to an integer.  The exponent has no lower bound here: a
quotient so small that binary64 would lose bits of it is far below 1, and truncates to 0 either way.
-/

namespace TrueDiv

/-- `n / d` rounded to an integer, ties to even. -/
def roundHalfEven (n d : Nat) : Nat :=
  let q := n / d
  let r := n % d
  if 2 * r < d then q else if d < 2 * r then q + 1 else q + q % 2

/-- The binary digits by which the quotient is scaled up. -/
def scaleUp (n d : Nat) : Nat :=
  if n < d then
    let l := Nat.log2 (d / n)
    52 + if d = n * 2 ^ l then l else l + 1
  else 52 - Nat.log2 (n / d)

/-- The binary digits by which the quotient is scaled down. -/
def scaleDown (n d : Nat) : Nat := Nat.log2 (n / d) - 52

/-- The rounded quotient, truncated. -/
def truncDiv (n d : Nat) : Nat :=
  roundHalfEven (n * 2 ^ scaleUp n d) (d * 2 ^ scaleDown n d) * 2 ^ scaleDown n d /
    2 ^ scaleUp n d

section Round

variable {n d : Nat}

theorem div_le_roundHalfEven : n / d ≤ roundHalfEven n d := by
  unfold roundHalfEven
  dsimp only
  split
  · exact Nat.le_refl _
  · split
    · exact Nat.le_succ _
    · exact Nat.le_add_right _ _

/-- Rounding moves the quotient up by a half at most. -/
theorem roundHalfEven_le : 2 * (d * roundHalfEven n d) ≤ 2 * n + d := by
  have hn := Nat.div_add_mod n d
  have hodd : n / d % 2 < 2 := Nat.mod_lt _ (by decide)
  unfold roundHalfEven
  dsimp only
  split
  · omega
  · split
    · rw [Nat.mul_add]
      omega
    · have hle : d * (n / d % 2) ≤ d * 1 := Nat.mul_le_mul_left d (by omega)
      rw [Nat.mul_add]
      omega

end Round

section Small

variable {n d : Nat}

/-- A quotient below 1 is scaled by the least power that brings it up to 1. -/
theorem scaleUp_of_lt (h0 : 0 < n) (h : n < d) : d * 2 ^ 52 ≤ n * 2 ^ scaleUp n d := by
  have hlog := Nat.lt_log2_self (n := d / n)
  have hle : d ≤ n * 2 ^ (Nat.log2 (d / n) + 1) := by
    rw [Nat.mul_comm]
    exact Nat.le_of_lt ((Nat.div_lt_iff_lt_mul h0).mp hlog)
  unfold scaleUp
  rw [if_pos h]
  dsimp only
  rw [Nat.pow_add, Nat.mul_comm (2 ^ 52), ← Nat.mul_assoc]
  apply Nat.mul_le_mul_right
  split
  · rename_i heq
    exact Nat.le_of_eq heq
  · exact hle

/-- A quotient of at most 53 digits is scaled up to 53 digits. -/
theorem scaleUp_of_le (hd : 0 < d) (h : d ≤ n) (hn : n < 2 ^ 53) :
    d * 2 ^ 52 ≤ n * 2 ^ scaleUp n d := by
  have hq : n / d ≠ 0 := Nat.ne_of_gt (Nat.div_pos h hd)
  have hlog : Nat.log2 (n / d) < 53 :=
    (Nat.log2_lt hq).mpr (Nat.lt_of_le_of_lt (Nat.div_le_self n d) hn)
  have hpow : 2 ^ 52 = 2 ^ Nat.log2 (n / d) * 2 ^ (52 - Nat.log2 (n / d)) := by
    rw [← Nat.pow_add]
    congr 1
    omega
  unfold scaleUp
  rw [if_neg (by omega), hpow, ← Nat.mul_assoc]
  apply Nat.mul_le_mul_right
  calc d * 2 ^ Nat.log2 (n / d)
      ≤ d * (n / d) := Nat.mul_le_mul_left d (Nat.log2_self_le hq)
    _ ≤ n := Nat.mul_div_le n d

theorem scaleDown_eq_zero (hn : n < 2 ^ 53) : scaleDown n d = 0 := by
  unfold scaleDown
  by_cases hq : n / d = 0
  · rw [hq]
    rfl
  · have := (Nat.log2_lt hq).mpr (Nat.lt_of_le_of_lt (Nat.div_le_self n d) hn)
    omega

/-- A numerator of at most 53 digits: the rounding never reaches the next integer. -/
theorem truncDiv_eq_div (hd : 0 < d) (hn : n < 2 ^ 53) : truncDiv n d = n / d := by
  rcases Nat.eq_zero_or_pos n with rfl | h0
  · simp [truncDiv, roundHalfEven, hd]
  have hscale : d * 2 ^ 52 ≤ n * 2 ^ scaleUp n d := by
    rcases Nat.lt_or_ge n d with h | h
    · exact scaleUp_of_lt h0 h
    · exact scaleUp_of_le hd h hn
  unfold truncDiv
  rw [scaleDown_eq_zero hn, Nat.pow_zero, Nat.mul_one, Nat.mul_one]
  generalize scaleUp n d = s at hscale ⊢
  have hs : 0 < 2 ^ s := Nat.pow_pos (by decide)
  -- one step of the scaled quotient is less than what is missing to the next integer
  have hstep : d < 2 * 2 ^ s := by
    have hlt : n * 2 ^ s < 2 ^ 53 * 2 ^ s := Nat.mul_lt_mul_of_pos_right hn hs
    omega
  have hup := roundHalfEven_le (n := n * 2 ^ s) (d := d)
  have hlow := div_le_roundHalfEven (n := n * 2 ^ s) (d := d)
  apply Nat.le_antisymm
  · apply Nat.le_of_lt_succ
    rw [Nat.div_lt_iff_lt_mul hs]
    by_contra hge
    have hnext : n + 1 ≤ d * (n / d + 1) := Nat.lt_mul_div_succ n hd
    have h₁ : d * ((n / d + 1) * 2 ^ s) ≤ d * roundHalfEven (n * 2 ^ s) d :=
      Nat.mul_le_mul_left d (Nat.le_of_not_lt hge)
    have h₂ : (n + 1) * 2 ^ s ≤ d * ((n / d + 1) * 2 ^ s) := by
      rw [← Nat.mul_assoc]
      exact Nat.mul_le_mul_right _ hnext
    rw [Nat.add_mul, Nat.one_mul] at h₂
    omega
  · rw [Nat.le_div_iff_mul_le hs]
    refine Nat.le_trans ?_ hlow
    rw [Nat.le_div_iff_mul_le hd]
    calc n / d * 2 ^ s * d = n / d * d * 2 ^ s := by ring
      _ ≤ n * 2 ^ s := Nat.mul_le_mul_right _ (Nat.div_mul_le_self n d)

end Small

end TrueDiv
