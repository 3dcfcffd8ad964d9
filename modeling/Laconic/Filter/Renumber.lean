import Mathlib.Data.Nat.Count
import Laconic.Filter.MergeRules

/-!
# The rule filter: the new graph

`genNewIdForRule` numbers the rules that are left from `vertex_cnt` on, and `genNewGraphCSR` writes
the rows that are left in their order.  A node that is left gets the number of nodes that are left
before it, so that row and number agree.
-/

namespace Laconic.Filter

open Slp Relation
open RePair (Compressed)

/-! ## Numbering the elements that are left -/

theorem length_filter_range (p : Nat → Bool) (n : Nat) :
    ((List.range n).filter p).length = Nat.count (fun v => p v = true) n := by
  induction n with
  | zero => rfl
  | succ n ih =>
    rw [List.range_succ, List.filter_append, List.length_append, ih, Nat.count_succ]
    cases hp : p n <;> simp [hp]

/-- The element `m` stands at the place of its number. -/
theorem filter_range_getElem? {p : Nat → Bool} {m n : Nat} (hm : p m = true) (hmn : m < n) :
    ((List.range n).filter p)[Nat.count (fun v => p v = true) m]? = some m := by
  induction n with
  | zero => exact absurd hmn (Nat.not_lt_zero m)
  | succ n ih =>
    rw [List.range_succ, List.filter_append]
    -- `m` is the last element, or stands before it
    rcases Nat.lt_or_eq_of_le (Nat.lt_succ_iff.mp hmn) with hlt | rfl
    · have hget := ih hlt
      rw [List.getElem?_append_left (List.getElem?_eq_some_iff.mp hget).1, hget]
    · rw [← length_filter_range, List.getElem?_append_right (Nat.le_refl _), Nat.sub_self,
        List.filter_cons_of_pos hm]
      rfl

/-- Every number below the count belongs to an element that is left. -/
theorem exists_count_eq {p : Nat → Bool} {w n : Nat} (hw : w < Nat.count (fun v => p v = true) n) :
    ∃ v, v < n ∧ p v = true ∧ Nat.count (fun v => p v = true) v = w := by
  induction n with
  | zero => exact absurd hw (Nat.not_lt_zero w)
  | succ n ih =>
    rw [Nat.count_succ] at hw
    by_cases hlt : w < Nat.count (fun v => p v = true) n
    · obtain ⟨v, hv, hp, heq⟩ := ih hlt
      exact ⟨v, by omega, hp, heq⟩
    · split at hw
      · next hp => exact ⟨n, by omega, hp, by omega⟩
      · omega

/-- A vertex, or a rule whose flag is off. -/
def kept (V : Nat) (s : State) (v : Nat) : Bool :=
  decide (v < V) || !s.mergeFlag.cells ((v : Int) - V)

/-- The new number of a node. -/
def number (V : Nat) (s : State) (v : Nat) : Nat := Nat.count (fun w => kept V s w = true) v

section Number

variable {V : Nat} {s : State}

theorem kept_vertex {v : Nat} (hv : v < V) : kept V s v = true := by
  rw [kept, decide_eq_true hv, Bool.true_or]

theorem kept_rule (i : Nat) : kept V s (V + i) = !s.mergeFlag.cells i := by
  rw [kept, decide_eq_false (by omega), Bool.false_or,
    show ((V + i : Nat) : Int) - V = i by omega]

theorem number_vertex {v : Nat} (hv : v ≤ V) : number V s v = v :=
  Nat.count_of_forall fun w hw => kept_vertex (by omega)

theorem number_succ (v : Nat) :
    number V s (v + 1) = number V s v + if kept V s v = true then 1 else 0 := Nat.count_succ _ v

theorem number_mono {v w : Nat} (h : v ≤ w) : number V s v ≤ number V s w := Nat.count_monotone _ h

end Number

/-- `genNewIdForRule` computes the numbers. -/
theorem genNewIdForRule_eq {V k : Nat} {s : State} (hsize : s.mergeFlag.size = k) :
    ∃ ids, genNewIdForRule s.mergeFlag V k = .ok (ids, (number V s (V + k) : Int) - V) ∧
      ids.size = k ∧ ∀ i : Nat, i < k → ids.cells i = number V s (V + i) := by
  -- a dropped rule gets a number too, that of the next rule that is left
  have hstep : ∀ (i : Int) (r : Block Int × Int), i < k →
      (0 ≤ i ∧ r.1.size = k ∧ r.2 = number V s (V + i.toNat) ∧
        ∀ j : Nat, (j : Int) < i → r.1.cells j = number V s (V + j)) →
      Run.Meets (fun _ => False) (do
        let newRuleId ← r.1.write i r.2
        let flag ← s.mergeFlag.read i
        pure (newRuleId, if flag then r.2 else r.2 + 1)) (fun r =>
        0 ≤ i + 1 ∧ r.1.size = k ∧ r.2 = number V s (V + (i + 1).toNat) ∧
        ∀ j : Nat, (j : Int) < i + 1 → r.1.cells j = number V s (V + j)) := by
    rintro i r hi ⟨h0, hsz, hcur, hdone⟩
    obtain ⟨i, rfl⟩ := Int.eq_ofNat_of_zero_le h0
    rw [Block.write_eq ⟨h0, by rw [hsz]; exact hi⟩, Run.ok_bind,
      Block.read_eq ⟨h0, by rw [hsize]; exact hi⟩, Run.ok_bind, Run.meets_pure]
    rw [Int.toNat_natCast] at hcur
    refine ⟨by omega, hsz, ?_, fun j hj => ?_⟩
    · dsimp only
      rw [show ((i : Int) + 1).toNat = i + 1 by omega, ← Nat.add_assoc, number_succ, kept_rule, hcur]
      cases s.mergeFlag.cells i <;> simp
    · dsimp only
      by_cases hji : j = i
      · subst hji
        rw [Block.cells_upd_self, hcur]
      · rw [Block.cells_upd_ne _ _ (by omega), hdone j (by omega)]
  obtain ⟨r, hrun, -, hsz, hcur, hdone⟩ := (Run.meets_forLoop _ (k : Int) hstep k 0
    (Block.alloc k fun _ => 0, (V : Int)) (by omega)
    ⟨by omega, rfl, by rw [Int.toNat_zero, Nat.add_zero, number_vertex (Nat.le_refl V)],
      fun j hj => by omega⟩).exists_ok fun e he => he.elim
  refine ⟨r.1, ?_, hsz, fun i hi => hdone i (by omega)⟩
  rw [genNewIdForRule, hrun, Run.ok_bind, hcur, Int.toNat_natCast]
  rfl

/-! ## The rows that are left -/

/-- The renumbered rows of the first `n` nodes that are left. -/
def newRows (V : Nat) (s : State) (n : Nat) : List (List Int) :=
  ((List.range n).filter (kept V s)).map fun v : Nat =>
    (s.graph.cells v).map fun x => (number V s x.toNat : Int)

section NewRows

variable {V k : Nat} {variant : Variant} {s : State} {ids : Block Int}

theorem newRows_succ (v : Nat) : newRows V s (v + 1) = newRows V s v ++
    if kept V s v = true then [(s.graph.cells v).map fun x => (number V s x.toNat : Int)] else [] := by
  rw [newRows, List.range_succ, List.filter_append, List.map_append]
  cases h : kept V s v <;> simp [h, newRows]

theorem newRows_getElem? {v : Nat} (hv : v < V + k) (hkept : kept V s v = true) :
    (newRows V s (V + k))[number V s v]? =
      some ((s.graph.cells v).map fun x => (number V s x.toNat : Int)) := by
  rw [newRows, List.getElem?_map, number, filter_range_getElem? hkept hv]
  rfl

theorem length_newRows (n : Nat) : (newRows V s n).length = number V s n := by
  rw [newRows, List.length_map, length_filter_range]
  rfl

theorem length_flatten_newRows_mono {n m : Nat} (h : n ≤ m) :
    (newRows V s n).flatten.length ≤ (newRows V s m).flatten.length := by
  induction m, h using Nat.le_induction with
  | base => exact Nat.le_refl _
  | succ m _ ih =>
    rw [newRows_succ, List.flatten_append, List.length_append]
    omega

/-- The entries that are left are too many for the offsets. -/
def OffsetFault (variant : Variant) (V k : Nat) (s : State) (e : Fault) : Prop :=
  e = .overflow ∧ variant.offsetBound ≤ (newRows V s (V + k)).flatten.length

theorem newId_eq (hsize : ids.size = k)
    (hids : ∀ i : Nat, i < k → ids.cells i = number V s (V + i)) {x : Int}
    (hx : 0 ≤ x ∧ x < (V : Int) + k) : newId ids V x = .ok (number V s x.toNat : Int) := by
  unfold newId
  by_cases hV : (V : Int) ≤ x
  · have hcell := hids (x.toNat - V) (by omega)
    rw [show ((x.toNat - V : Nat) : Int) = x - V by omega, show V + (x.toNat - V) = x.toNat by omega]
      at hcell
    rw [if_pos hV, Block.read_eq ⟨by omega, by rw [hsize]; omega⟩, hcell]
  · rw [if_neg hV, number_vertex (by omega), Int.toNat_of_nonneg hx.1]
    rfl

/-- The inner loop appends the renumbered row. -/
theorem foldlM_newId (hsize : ids.size = k)
    (hids : ∀ i : Nat, i < k → ids.cells i = number V s (V + i)) {row : List Int}
    (hrow : ∀ x ∈ row, 0 ≤ x ∧ x < (V : Int) + k) (elist : List Int) :
    row.foldlM (fun elist dstID => do
      let x ← newId ids V dstID
      pure (elist ++ [x])) elist =
      (.ok (elist ++ row.map fun x => (number V s x.toNat : Int)) : Run (List Int)) := by
  induction row generalizing elist with
  | nil => rw [List.map_nil, List.append_nil]; rfl
  | cons y row ih =>
    rw [List.foldlM_cons, newId_eq hsize hids (hrow y List.mem_cons_self), Run.ok_bind,
      Run.pure_bind, ih fun x hx => hrow x (List.mem_cons_of_mem _ hx), List.map_cons,
      List.append_assoc]
    rfl

/-- `genNewGraphCSR` writes the rows that are left, as long as their offsets fit. -/
theorem genNewGraphCSR_meets (hsize : ids.size = k)
    (hids : ∀ i : Nat, i < k → ids.cells i = number V s (V + i))
    (hrow : s.graph.size = (V : Int) + k) (hflag : s.mergeFlag.size = k)
    (hin : ∀ v : Nat, v < V + k → kept V s v = true →
      ∀ x ∈ s.graph.cells v, 0 ≤ x ∧ x < (V : Int) + k) :
    Run.Meets (OffsetFault variant V k s) (genNewGraphCSR variant s ids V k) (fun out =>
      out.1 = Csr.offsets (newRows V s (V + k)) ∧ out.2 = (newRows V s (V + k)).flatten ∧
      (0 < variant.offsetBound → (out.2.length : Int) < variant.offsetBound)) := by
  have hstep : ∀ (v : Int) (out : List Int × List Int), v < (V + k : Nat) →
      (0 ≤ v ∧ out.1 = Csr.offsets (newRows V s v.toNat) ∧
        out.2 = (newRows V s v.toNat).flatten ∧
        (0 < variant.offsetBound → (out.2.length : Int) < variant.offsetBound)) →
      Run.Meets (OffsetFault variant V k s) (pushNode variant s ids V v out) (fun out => 0 ≤ v + 1 ∧
        out.1 = Csr.offsets (newRows V s (v + 1).toNat) ∧
        out.2 = (newRows V s (v + 1).toNat).flatten ∧
        (0 < variant.offsetBound → (out.2.length : Int) < variant.offsetBound)) := by
    rintro v out hv ⟨h0, hvl, hel, hbound⟩
    obtain ⟨v, rfl⟩ := Int.eq_ofNat_of_zero_le h0
    rw [Int.toNat_natCast] at hvl hel
    rw [show ((v : Int) + 1).toNat = v + 1 by omega, newRows_succ]
    -- the flag is read for rules only
    have hdropped : isDropped s.mergeFlag V v = .ok (!kept V s v) := by
      unfold isDropped
      by_cases hV : (V : Int) ≤ v
      · rw [if_pos hV, Block.read_eq ⟨by omega, by rw [hflag]; push_cast at hv; omega⟩, kept,
          decide_eq_false (by omega), Bool.false_or, Bool.not_not]
      · rw [if_neg hV, kept_vertex (by omega)]
        rfl
    unfold pushNode
    rw [Block.read_eq ⟨h0, by rw [hrow]; push_cast at hv; exact hv⟩, Run.ok_bind, hdropped, Run.ok_bind]
    cases hkept : kept V s v with
    | false =>
      rw [Bool.not_false, if_pos rfl, if_neg Bool.false_ne_true, List.append_nil, Run.meets_pure]
      exact ⟨by omega, hvl, hel, hbound⟩
    | true =>
      rw [Bool.not_true, if_neg Bool.false_ne_true, if_pos rfl,
        foldlM_newId hsize hids (hin v (by omega) hkept), Run.ok_bind, Run.meets_ite]
      refine ⟨fun hlt => ?_, fun hge => ⟨rfl, ?_⟩⟩
      · rw [Run.meets_pure, Csr.offsets_concat, List.flatten_concat, ← hvl, ← hel]
        exact ⟨by omega, by rw [List.length_append]; push_cast; rfl, rfl, fun _ => hlt⟩
      · -- an offset that does not fit here is below the last one
        have hmono := length_flatten_newRows_mono (V := V) (s := s) (show v + 1 ≤ V + k by omega)
        rw [newRows_succ, if_pos hkept, List.flatten_concat, ← hel] at hmono
        omega
  refine (Run.meets_forLoop _ ((V + k : Nat) : Int) hstep (V + k) 0 ([0], []) (by omega)
    ⟨by omega, rfl, rfl, fun hpos => hpos⟩).mono fun out hout => ?_
  rw [Int.toNat_natCast] at hout
  exact hout.2

end NewRows

end Laconic.Filter
