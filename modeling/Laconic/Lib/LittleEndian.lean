import Mathlib.Algebra.Order.Ring.Int
import Mathlib.Tactic.Common
import Mathlib.Tactic.Ring

/-!
# Little-endian integers

Integers of a fixed number of bytes, the lowest byte first, negative ones in two's complement, and lists
of them one after the other.
-/

namespace LittleEndian

/-- The lowest `w` bytes of `n`. -/
def toBytes : Nat → Nat → List UInt8
  | 0, _ => []
  | w + 1, n => UInt8.ofNat (n % 256) :: toBytes w (n / 256)

def ofBytes : List UInt8 → Nat
  | [] => 0
  | b :: bs => b.toNat + 256 * ofBytes bs

/-- An integer of `w` bytes. -/
def encode (w : Nat) (x : Int) : List UInt8 := toBytes w (x % (256 ^ w : Nat)).toNat

def decode (w : Nat) (bs : List UInt8) : Int :=
  if 2 * ofBytes bs < 256 ^ w then ofBytes bs else (ofBytes bs : Int) - (256 ^ w : Nat)

/-- `x` has `w` bytes. -/
def InRange (w : Nat) (x : Int) : Prop := -(256 ^ w : Nat) ≤ 2 * x ∧ 2 * x < (256 ^ w : Nat)

instance (w : Nat) (x : Int) : Decidable (InRange w x) :=
  inferInstanceAs (Decidable (-(256 ^ w : Nat) ≤ 2 * x ∧ 2 * x < (256 ^ w : Nat)))

/-- The first `n` integers, or those that are there; bytes of an incomplete one are left. -/
def values (w : Nat) : Nat → List UInt8 → List Int
  | 0, _ => []
  | n + 1, bs => if bs.length < w then [] else decode w (bs.take w) :: values w n (bs.drop w)

theorem length_toBytes (w n : Nat) : (toBytes w n).length = w := by
  induction w generalizing n with
  | zero => rfl
  | succ w ih => rw [toBytes, List.length_cons, ih]

theorem ofBytes_toBytes {w n : Nat} (h : n < 256 ^ w) : ofBytes (toBytes w n) = n := by
  induction w generalizing n with
  | zero =>
    have hn : n = 0 := by simpa using h
    rw [hn]
    rfl
  | succ w ih =>
    have hdiv : n / 256 < 256 ^ w := by
      apply Nat.div_lt_of_lt_mul
      rwa [Nat.mul_comm, ← Nat.pow_succ]
    have hbyte : (UInt8.ofNat (n % 256)).toNat = n % 256 := by
      rw [UInt8.toNat_ofNat']
      exact Nat.mod_eq_of_lt (Nat.mod_lt n (by decide))
    rw [toBytes, ofBytes, ih hdiv, hbyte]
    exact Nat.mod_add_div n 256

theorem length_encode (w : Nat) (x : Int) : (encode w x).length = w := length_toBytes w _

/-- Two's complement. -/
theorem decode_encode {w : Nat} {x : Int} (h : InRange w x) : decode w (encode w x) = x := by
  obtain ⟨hlo, hhi⟩ := h
  have hpos : 0 < 256 ^ w := Nat.pow_pos (by decide)
  have hmod : 0 ≤ x % (256 ^ w : Nat) ∧ x % (256 ^ w : Nat) < (256 ^ w : Nat) :=
    ⟨Int.emod_nonneg x (by omega), Int.emod_lt_of_pos x (by omega)⟩
  have hvalue : ofBytes (encode w x) = (x % (256 ^ w : Nat)).toNat := ofBytes_toBytes (by omega)
  unfold decode
  rw [hvalue]
  by_cases hx : 0 ≤ x
  · rw [Int.emod_eq_of_lt hx (by omega)] at hmod ⊢
    rw [if_pos (by omega), Int.toNat_of_nonneg hx]
  · have hneg : x % (256 ^ w : Nat) = x + (256 ^ w : Nat) := by
      rw [← Int.add_emod_right, Int.emod_eq_of_lt (by omega) (by omega)]
    rw [hneg, if_neg (by omega), Int.toNat_of_nonneg (by omega)]
    omega

variable {w : Nat} {xs : List Int}

theorem length_flatMap_encode (xs : List Int) : (xs.flatMap (encode w)).length = w * xs.length := by
  induction xs with
  | nil => rfl
  | cons x xs ih =>
    rw [List.flatMap_cons, List.length_append, length_encode, ih, List.length_cons]
    ring

/-- Integers can be skipped. -/
theorem drop_flatMap_encode (xs : List Int) (k : Nat) :
    (xs.flatMap (encode w)).drop (w * k) = (xs.drop k).flatMap (encode w) := by
  induction k generalizing xs with
  | zero => rfl
  | succ k ih =>
    cases xs with
    | nil => simp
    | cons x xs =>
      rw [List.flatMap_cons, Nat.mul_succ, Nat.add_comm, ← List.drop_drop,
        List.drop_append_of_le_length (length_encode w x).ge,
        List.drop_eq_nil_of_le (length_encode w x).le, List.nil_append, ih, List.drop_succ_cons]

/-- What was written is read back. -/
theorem values_flatMap_encode (hw : 0 < w) (hxs : ∀ x ∈ xs, InRange w x) (n : Nat) :
    values w n (xs.flatMap (encode w)) = xs.take n := by
  induction n generalizing xs with
  | zero => rfl
  | succ n ih =>
    cases xs with
    | nil => exact if_pos hw
    | cons x xs =>
      have hlen := length_encode w x
      rw [List.flatMap_cons, values, if_neg (by rw [List.length_append]; omega),
        List.take_append_of_le_length hlen.ge, List.take_of_length_le hlen.le,
        List.drop_append_of_le_length hlen.ge, List.drop_eq_nil_of_le hlen.le, List.nil_append,
        decode_encode (hxs x List.mem_cons_self), ih fun y hy => hxs y (List.mem_cons_of_mem x hy),
        List.take_succ_cons]

end LittleEndian
