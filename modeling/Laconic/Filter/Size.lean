import Mathlib.Algebra.BigOperators.Ring.Finset
import Laconic.Filter.Preserve

/-!
# The rule filter: what inlining costs

A rule of length `len` with `freq` references is inlined by writing its row in the place of every
reference, and by taking its own row and offset away: the graph gets longer by
`(freq - 1) * (len - 1) - 2`.  The columns count the references, so the frequencies of the serial
filter are exact at each turn, and the verdict of `judgeRule` bounds the cost of every inlining.
-/

namespace Laconic.Filter

open Splice

/-- The frequency is the number of references, and there is one. -/
def ExactFreq (f : Int) (n : Nat) : Prop := f = n ∧ 1 ≤ n

section Live

open Classical in
/-- The nodes `A` in order. -/
noncomputable def live (V k : Nat) (A : Int → Prop) : Finset Nat :=
  (Finset.range (V + k)).filter fun v => A v

/-- The number of entries and offsets in the rows of the nodes `A`. -/
noncomputable def size (V k : Nat) (A : Int → Prop) (s : State) : Nat :=
  ∑ v ∈ live V k A, ((s.graph.cells v).length + 1)

variable {vlist elist : List Int} {V k : Nat} {A : Int → Prop} {s s₀ : State} {ID : Int}

open Classical in
theorem mem_live {v : Nat} : v ∈ live V k A ↔ v < V + k ∧ A v := by
  rw [live, Finset.mem_filter, Finset.mem_range]

theorem GraphInv.toNat_mem (h : GraphInv vlist elist V k A s) {v : Int} (hv : A v) :
    v.toNat ∈ live V k A := by
  have hr := h.range v hv
  exact mem_live.mpr ⟨by omega, by rwa [Int.toNat_of_nonneg hr.1]⟩

/-- A column is as long as its node has references. -/
theorem GraphInv.length_col (h : GraphInv vlist elist V k A s) {x : Int} (hx : A x) :
    (s.graphT.cells x).length = ∑ v ∈ live V k A, (s.graph.cells v).count x := by
  have hsum := Multiset.sum_count_eq_card (s := (live V k A).map Nat.castEmbedding)
    (m := (s.graphT.cells x : Multiset Int)) fun v hv => by
      have hA := h.colClosed x hx v (Multiset.mem_coe.mp hv)
      exact Finset.mem_map.mpr ⟨v.toNat, h.toNat_mem hA, Int.toNat_of_nonneg (h.range v hA).1⟩
  rw [Multiset.coe_card, Finset.sum_map] at hsum
  rw [← hsum]
  refine Finset.sum_congr rfl fun v hv => ?_
  rw [Multiset.coe_count]
  exact h.link x v hx (mem_live.mp hv).2

theorem live_without (h : GraphInv vlist elist V k A s) (hA : A ID) :
    live V k (Without A ID) = (live V k A).erase ID.toNat := by
  have h0 := (h.range ID hA).1
  ext v
  rw [Finset.mem_erase, mem_live, mem_live, Without]
  constructor
  · rintro ⟨hv, hAv, hne⟩
    exact ⟨by omega, hv, hAv⟩
  · rintro ⟨hne, hv, hAv⟩
    exact ⟨hv, hAv, by omega⟩

theorem card_live_without (h : GraphInv vlist elist V k A s) (hA : A ID) :
    (live V k (Without A ID)).card + 1 = (live V k A).card := by
  rw [live_without h hA]
  exact Finset.card_erase_add_one (h.toNat_mem hA)

/-- Inlining `ID` takes its row away and puts it in the place of each reference. -/
theorem GraphInv.size_merged (h : GraphInv vlist elist V k A s₀) (hA : A ID)
    (hfree : ID ∉ s₀.graph.cells ID) (hm : Merged V A ID s₀ s) :
    size V k (Without A ID) s + ((s₀.graph.cells ID).length + 1) + (s₀.graphT.cells ID).length =
      size V k A s₀ + (s₀.graphT.cells ID).length * (s₀.graph.cells ID).length := by
  have hmem := h.toNat_mem hA
  have hID : ((ID.toNat : Nat) : Int) = ID := Int.toNat_of_nonneg (h.range ID hA).1
  have hold := Finset.sum_erase_add (live V k A) (fun v : Nat => (s₀.graph.cells v).length + 1) hmem
  have hrefs := Finset.sum_erase_add (live V k A) (fun v : Nat => (s₀.graph.cells v).count ID) hmem
  rw [← h.length_col hA, hID, List.count_eq_zero.mpr hfree, Nat.add_zero] at hrefs
  rw [hID] at hold
  -- row by row
  have hrows : ∑ v ∈ (live V k A).erase ID.toNat, ((s.graph.cells v).length + 1) +
      ∑ v ∈ (live V k A).erase ID.toNat, (s₀.graph.cells v).count ID =
      ∑ v ∈ (live V k A).erase ID.toNat, ((s₀.graph.cells v).length + 1) +
      (∑ v ∈ (live V k A).erase ID.toNat, (s₀.graph.cells v).count ID) *
        (s₀.graph.cells ID).length := by
    rw [Finset.sum_mul, ← Finset.sum_add_distrib, ← Finset.sum_add_distrib]
    refine Finset.sum_congr rfl fun v hv => ?_
    rw [← live_without h hA] at hv
    have hlen : (inline ID (s₀.graph.cells ID) (s₀.graph.cells v)).length +
        (s₀.graph.cells v).count ID = (s₀.graph.cells v).length +
        (s₀.graph.cells v).count ID * (s₀.graph.cells ID).length := length_inline
    rw [hm.rows v (mem_live.mp hv).2]
    omega
  rw [hrefs] at hrows
  rw [size, size, live_without h hA]
  omega

/-- The verdict of `judgeRule` bounds what the inlining costs. -/
theorem GraphInv.size_judged (h : GraphInv vlist elist V k A s₀) (hA : A ID)
    (hfree : ID ∉ s₀.graph.cells ID) (hm : Merged V A ID s₀ s) {threshold : Int}
    (hj : judges threshold (s₀.graph.cells ID).length (s₀.graphT.cells ID).length = true) :
    (size V k (Without A ID) s : Int) ≤ size V k A s₀ + (threshold - 1) := by
  have hle := of_decide_eq_true hj
  have hsize := congrArg (fun n : Nat => (n : Int)) (h.size_merged hA hfree hm)
  push_cast at hsize
  generalize ((s₀.graph.cells ID).length : Int) = l at *
  generalize ((s₀.graphT.cells ID).length : Int) = f at *
  have hprod : (f - 1) * (l - 1) = f * l - f - l + 1 := by ring
  omega

end Live

/-! ## The rows that are written -/

section Rows

variable {V k : Nat} {s : State}

theorem length_newRows_add (n : Nat) : (newRows V s n).flatten.length + (newRows V s n).length =
    ∑ v ∈ Finset.range n, if kept V s v = true then (s.graph.cells v).length + 1 else 0 := by
  induction n with
  | zero => rfl
  | succ n ih =>
    rw [Finset.sum_range_succ, ← ih, newRows_succ]
    split
    · rw [List.flatten_concat, List.length_append, List.length_append, List.length_map,
        List.length_singleton]
      omega
    · rw [List.append_nil, Nat.add_zero]

open Classical in
theorem live_eq {A : Int → Prop}
    (hkept : ∀ v : Int, 0 ≤ v ∧ v < (V : Int) + k → (kept V s v.toNat = true ↔ A v)) :
    live V k A = (Finset.range (V + k)).filter fun v => kept V s v = true := by
  refine Finset.filter_congr fun v hv => ?_
  rw [Finset.mem_range] at hv
  have hleft := hkept v ⟨by omega, by omega⟩
  rw [Int.toNat_natCast] at hleft
  exact hleft.symm

/-- The new graph has the size of the rows that are left. -/
theorem size_eq {A : Int → Prop}
    (hkept : ∀ v : Int, 0 ≤ v ∧ v < (V : Int) + k → (kept V s v.toNat = true ↔ A v)) :
    size V k A s = (newRows V s (V + k)).flatten.length + (newRows V s (V + k)).length ∧
      (live V k A).card = (newRows V s (V + k)).length := by
  rw [size, live_eq hkept, Finset.sum_filter, length_newRows_add, length_newRows, number,
    Nat.count_eq_card_filter_range]
  exact ⟨rfl, rfl⟩

end Rows

end Laconic.Filter
