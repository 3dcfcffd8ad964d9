import Mathlib.Data.Int.Interval
import Laconic.Lib.Block

/-!
# Re-Pair: basic types

Pairs, records and list cells of the Re-Pair sources (`basics.h`, `records.h`), and the two places
where the code leaves exact integer arithmetic: `factor` is a `float`, and pairs are hashed in
`unsigned long long`.  A C `int` is an `Int`; the sizes below `2^31` under which the code runs keep
every `int` in range except where a fault is modelled explicitly.
-/

namespace Laconic.RePair

/-- One more than the largest `int`. -/
def intBound : Int := 2 ^ 31

/-- `NullFreq = 1 << (8*sizeof(int)-1)`, the smallest `int`. -/
def nullFreq : Int := -intBound

/-- A value that is stored in an `int`. -/
def toInt (x : Int) : Run Int := if x < intBound then pure x else throw .overflow

structure Tpair where
  left : Int
  right : Int
  deriving DecidableEq, Repr

/-- One cell of `L`: the neighbours of a text position in the list of its pair. -/
structure Tlist where
  prev : Int
  next : Int
  deriving DecidableEq, Repr

structure Trecord where
  pair : Tpair
  /-- frequency -/
  freq : Int
  /-- first position in the text -/
  cpos : Int
  /-- position in the heap -/
  hpos : Int
  /-- position in the hash table -/
  kpos : Int
  deriving DecidableEq, Repr

/-- Conversion of a nonnegative `int` to `float`: round to 24 significant bits, ties to even. -/
def toFloat (x : Int) : Int :=
  let m := x.toNat
  if m < 2 ^ 24 then x
  else
    let s := Nat.log2 m - 23
    let q := m / 2 ^ s
    let r := m % 2 ^ s
    let up := decide (2 ^ s < 2 * r) || (decide (2 ^ s = 2 * r) && decide (q % 2 = 1))
    ((if up then q + 1 else q) * 2 ^ s : Nat)

/-- `a < factor * b` with `factor = 0.50f`; halving a `float` is exact. -/
def ltFactor (a b : Int) : Bool := decide (2 * toFloat a < toFloat b)

/-- `a > b * factor` with `factor = 0.50f`. -/
def gtFactor (a b : Int) : Bool := decide (toFloat b < 2 * toFloat a)

/-- The bits of `a & b` for nonnegative `int`s. -/
def land (a b : Int) : Int := ((a.toNat &&& b.toNat : Nat) : Int)

theorem land_nonneg (a b : Int) : 0 ≤ land a b := Int.natCast_nonneg _

theorem land_le_right (a b : Int) (hb : 0 ≤ b) : land a b ≤ b := by
  have h : a.toNat &&& b.toNat ≤ b.toNat := Nat.and_le_right
  unfold land
  omega

/-- `(relong)x`: conversion of an `int` to `unsigned long long`. -/
def toRelong (x : Int) : Nat := (x % 2 ^ 64).toNat

/-- `LPRIME` of `hash.cc`. -/
def lprime : Nat := 767865341467865341

/-- `((LPRIME * u) >> 32) & maxpos` for the packed pair `u`. -/
def hashPair (maxpos : Int) (p : Tpair) : Int :=
  let u := (toRelong p.left <<< 32) % 2 ^ 64 ||| toRelong p.right
  land ((((lprime * u) % 2 ^ 64) >>> 32 : Nat) : Int) maxpos

theorem hashPair_nonneg (maxpos : Int) (p : Tpair) : 0 ≤ hashPair maxpos p := land_nonneg _ _

theorem hashPair_le (maxpos : Int) (p : Tpair) (h : 0 ≤ maxpos) : hashPair maxpos p ≤ maxpos :=
  land_le_right _ _ h

end Laconic.RePair
