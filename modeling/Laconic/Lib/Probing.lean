import Mathlib.Data.Finset.Card
import Mathlib.Data.Int.Basic
import Mathlib.Tactic.Common

/-!
# Probing — open addressing with an arbitrary probe step

`Walk next P d k k'` is a probe that reaches the cell `k'` from `k` in `d` steps and finds `P` at
every cell before `k'`.  Open addressing is correct because the walk to an occupied cell never
crosses an empty one, and a write to a cell keeps the walks of all other cells as long as it does
not make a cell empty.
-/

namespace Probing

variable {next : Int → Int} {P P' : Int → Prop}

def Walk (next : Int → Int) (P : Int → Prop) : Nat → Int → Int → Prop
  | 0, k, k' => k = k'
  | d + 1, k, k' => P k ∧ Walk next P d (next k) k'

@[simp] theorem walk_zero {k k' : Int} : Walk next P 0 k k' ↔ k = k' := Iff.rfl

@[simp] theorem walk_succ {d : Nat} {k k' : Int} :
    Walk next P (d + 1) k k' ↔ P k ∧ Walk next P d (next k) k' := Iff.rfl

theorem Walk.mono {d : Nat} {k k' : Int} (h : Walk next P d k k') (hP : ∀ j, P j → P' j) :
    Walk next P' d k k' := by
  induction d generalizing k with
  | zero => exact h
  | succ d ih => exact ⟨hP _ h.1, ih h.2⟩

/-- A walk is a number of steps without a miss. -/
theorem walk_iff {d : Nat} {k k' : Int} :
    Walk next P d k k' ↔ next^[d] k = k' ∧ ∀ j < d, P (next^[j] k) := by
  induction d generalizing k with
  | zero => simp
  | succ d ih =>
    rw [walk_succ, ih, Function.iterate_succ_apply]
    constructor
    · rintro ⟨hk, he, hP⟩
      refine ⟨he, fun j hj => ?_⟩
      cases j with
      | zero => exact hk
      | succ j => exact hP j (by omega)
    · rintro ⟨he, hP⟩
      exact ⟨hP 0 (by omega), he, fun j hj => hP (j + 1) (by omega)⟩

/-- A walk inside finitely many cells can be taken without visiting a cell twice. -/
theorem Walk.exists_short {cells : Finset Int} {d : Nat} {k k' : Int} (h : Walk next P d k k')
    (hk : k ∈ cells) (hnext : ∀ j ∈ cells, next j ∈ cells) :
    ∃ d' < cells.card, Walk next P d' k k' := by
  induction d using Nat.strong_induction_on with
  | _ d ih =>
    by_cases hd : d < cells.card
    · exact ⟨d, hd, h⟩
    · -- some cell comes up twice, and the steps between can be left out
      have hmaps : ∀ j, next^[j] k ∈ cells := fun j => by
        induction j with
        | zero => exact hk
        | succ j ihj =>
          rw [Function.iterate_succ_apply']
          exact hnext _ ihj
      obtain ⟨a, ha, b, hb, hne, hab⟩ := Finset.exists_ne_map_eq_of_card_lt_of_maps_to
        (s := Finset.range (d + 1)) (t := cells) (by rw [Finset.card_range]; omega)
        (f := fun j => next^[j] k) fun j _ => hmaps j
      rw [Finset.mem_range] at ha hb
      wlog hlt : a < b generalizing a b
      · exact this b hb a ha hne.symm hab.symm (by omega)
      obtain ⟨hend, hP⟩ := walk_iff.mp h
      -- from cell `a = b` on
      have hshift : ∀ m, next^[a + m] k = next^[b + m] k := fun m => by
        rw [Nat.add_comm, Function.iterate_add_apply, Nat.add_comm, Function.iterate_add_apply]
        exact congrArg _ hab
      refine ih (a + (d - b)) (by omega) (walk_iff.mpr ⟨?_, fun j hj => ?_⟩)
      · rw [hshift, show b + (d - b) = d by omega, hend]
      · by_cases hja : j < a
        · exact hP j (by omega)
        · rw [show j = a + (j - a) by omega, hshift]
          exact hP _ (by omega)

/-! ## Linear probing -/

/-- The first `d` cells of a linear probe that starts at `k`, in a table of `n` cells. -/
def probes (n : Nat) : Nat → Nat → List Nat
  | 0, _ => []
  | d + 1, k => k :: probes n d ((k + 1) % n)

theorem probes_eq_map {n k : Nat} (hk : k < n) (d : Nat) :
    probes n d k = (List.range d).map fun i => (k + i) % n := by
  induction d generalizing k with
  | zero => rfl
  | succ d ih =>
    have hn : 0 < n := by omega
    rw [probes, ih (Nat.mod_lt _ hn), List.range_succ_eq_map, List.map_cons, List.map_map,
      Nat.mod_eq_of_lt (show k + 0 < n from hk)]
    congr 1
    apply List.map_congr_left
    intro i _
    show ((k + 1) % n + i) % n = (k + (i + 1)) % n
    rw [Nat.mod_add_mod, Nat.add_assoc, Nat.add_comm 1 i]

/-- A probe of `n` cells visits all of them. -/
theorem mem_probes {n j k : Nat} (hk : k < n) (hj : j < n) : j ∈ probes n n k := by
  rw [probes_eq_map hk, List.mem_map]
  by_cases hle : k ≤ j
  · refine ⟨j - k, List.mem_range.mpr (by omega), ?_⟩
    rw [Nat.add_sub_cancel' hle, Nat.mod_eq_of_lt hj]
  · refine ⟨j + n - k, List.mem_range.mpr (by omega), ?_⟩
    rw [Nat.add_sub_cancel' (by omega), Nat.add_mod_right, Nat.mod_eq_of_lt hj]

end Probing
