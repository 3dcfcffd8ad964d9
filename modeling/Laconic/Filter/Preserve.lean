import Mathlib.Data.Int.Interval
import Laconic.Filter.Renumber

/-!
# The rule filter: the meaning of the graph is preserved

Both filters return a graph in which every vertex has the expansion it had in the input.  In the
serial filter frequencies are exact, and grow because every rule is used; in the parallel one they
are over-counted, and grow by what the update adds.
-/

namespace Laconic.Filter

open Slp Relation
open RePair (Compressed)

/-- No row that is left refers to a dropped rule. -/
def NoDropped (V k : Nat) (s : State) : Prop :=
  ∀ v : Nat, v < V + k → kept V s v = true → ∀ x ∈ s.graph.cells v,
    0 ≤ x ∧ x < (V : Int) + k ∧ kept V s x.toNat = true

/-- The result is a graph with the same expansions. -/
structure Preserved (vlist elist : List Int) (V : Nat) (out : Compressed) : Prop where
  valid : Csr.Valid out.vlist out.elist
  length : (out.vlist.length : Int) = V + out.ruleCnt + 1
  last : out.vlist.getLast? = some (out.elist.length : Int)
  refs : ∀ v, v + 1 < out.vlist.length → ∀ x ∈ Csr.row out.vlist out.elist v,
    0 ≤ x ∧ x < V + out.ruleCnt
  expands : ∀ v, v < V → ∃ ys,
    Expands (csrRhs V V vlist elist) (Csr.row vlist elist v) ys ∧
    Expands (csrRhs V V out.vlist out.elist) (Csr.row out.vlist out.elist v) ys

section Preserve

variable {vlist elist : List Int} {threshold : Int} {V k : Nat} {P : Int → Nat → Prop}
  {A : Int → Prop} {variant : Variant} {s : State}

/-- At the end the flags tell which rules are left. -/
theorem kept_iff (hinfo : InfoInv threshold V k P A k s)
    (hvert : ∀ v : Int, 0 ≤ v → v < V → A v) {v : Int} (hv : 0 ≤ v ∧ v < (V : Int) + k) :
    kept V s v.toNat = true ↔ A v := by
  by_cases hV : v < V
  · rw [kept_vertex (by omega)]
    exact ⟨fun _ => hvert v hv.1 hV, fun _ => rfl⟩
  · rw [show v.toNat = V + (v.toNat - V) by omega, kept_rule,
      show ((v.toNat - V : Nat) : Int) = v - V by omega, Bool.not_eq_true']
    have hvV : (V : Int) + (v - V) = v := by omega
    constructor
    · intro hoff
      by_contra hA
      rw [hinfo.dropped (v - V) (by omega) (by omega) (by rwa [hvV])] at hoff
      cases hoff
    · intro hA
      exact hinfo.passed (v - V) (by omega) (by omega) (by rwa [hvV])

/-- The grammar of the rows that the filter works on. -/
def stateRhs (V : Nat) (s : State) (x : Int) : Option (List Int) :=
  if x < V then none else some (s.graph.cells x)

theorem stateRhs_eq_some {x : Int} {zs : List Int} (h : stateRhs V s x = some zs) :
    (V : Int) ≤ x ∧ zs = s.graph.cells x := by
  unfold stateRhs at h
  split at h
  · cases h
  · exact ⟨by omega, (Option.some_inj.mp h).symm⟩

/-- Every row that is left has an expansion, the same as in the input. -/
theorem GraphInv.exists_expands (h : RuleGraph vlist elist V k)
    (hg : GraphInv vlist elist V k A s) {v : Int} (hv : A v) :
    ∃ ys, Expands (csrRhs V V vlist elist) (Csr.row vlist elist v.toNat) ys ∧
      Expands (stateRhs V s) (s.graph.cells v) ys := by
  -- the rows of `s` refer along paths of the input, so unfolding them ends because unfolding the
  -- input does
  have hwf := h.acyclic.wellFounded (Set.finite_Ico (V : Int) (V + k)) fun x z hx => by
    obtain ⟨hV, hlt, -⟩ := csrRhs_source hx
    rw [h.length] at hlt
    exact Set.mem_Ico.mpr ⟨hV, by omega⟩
  have hex : ∃ ys, Expands (stateRhs V s) (s.graph.cells v) ys := by
    refine Expands.exists_of_wellFounded hwf (C := A) (fun x zs hx hrhs z hz => ?_) (hg.closed v hv)
    obtain ⟨hV, rfl⟩ := stateRhs_eq_some hrhs
    exact ⟨hg.closed x hx z hz, hg.refs x hx hV z hz⟩
  obtain ⟨ys, hys⟩ := hex
  refine ⟨ys, (hg.expands v hv ys).mp ?_, hys⟩
  refine hys.refine_rhs (C := A) (fun x zs hx hrhs z hz => ?_) (fun x hx hrhs => ?_)
    (fun x zs hx hrhs => ?_) (hg.closed v hv)
  · obtain ⟨-, rfl⟩ := stateRhs_eq_some hrhs
    exact hg.closed x hx z hz
  · unfold stateRhs at hrhs
    split at hrhs
    · exact csrRhs_vertex ‹_›
    · cases hrhs
  · obtain ⟨hV, rfl⟩ := stateRhs_eq_some hrhs
    exact ⟨_, csrRhs_row hV, fun zs => (hg.expands x hx zs).mp⟩

/-- `out` has the rows that `s` has for the nodes `A`, under their new numbers. -/
structure Rebuilt (vlist elist : List Int) (V k : Nat) (A : Int → Prop) (s : State)
    (out : Compressed) : Prop where
  graph : GraphInv vlist elist V k A s
  vertices : ∀ v : Int, 0 ≤ v → v < V → A v
  left : ∀ v : Int, 0 ≤ v ∧ v < (V : Int) + k → (kept V s v.toNat = true ↔ A v)
  vlist_eq : out.vlist = Csr.offsets (newRows V s (V + k))
  elist_eq : out.elist = (newRows V s (V + k)).flatten
  vertexCnt_eq : out.vertexCnt = V
  ruleCnt_eq : out.ruleCnt = (number V s (V + k) : Int) - V

namespace Rebuilt

variable {out : Compressed}

theorem length_vlist (h : Rebuilt vlist elist V k A s out) :
    out.vlist.length = number V s (V + k) + 1 := by
  rw [h.vlist_eq, Csr.length_offsets, length_newRows]

theorem newRows_number (h : Rebuilt vlist elist V k A s out) {v : Int} (hv : A v) :
    (newRows V s (V + k))[number V s v.toNat]? =
      some ((s.graph.cells v).map fun x => (number V s x.toNat : Int)) := by
  have hr := h.graph.range v hv
  have hget := newRows_getElem? (k := k) (by omega) ((h.left v hr).mpr hv)
  rwa [Int.toNat_of_nonneg hr.1] at hget

theorem number_lt (h : Rebuilt vlist elist V k A s out) {v : Int} (hv : A v) :
    number V s v.toNat < number V s (V + k) := by
  have hlt := (List.getElem?_eq_some_iff.mp (h.newRows_number hv)).1
  rwa [length_newRows] at hlt

/-- The row of a node that is left stands at its number. -/
theorem row_number (h : Rebuilt vlist elist V k A s out) {v : Int} (hv : A v) :
    Csr.row out.vlist out.elist (number V s v.toNat) =
      (s.graph.cells v).map fun x => (number V s x.toNat : Int) := by
  obtain ⟨hlt, hval⟩ := List.getElem?_eq_some_iff.mp (h.newRows_number hv)
  rw [h.vlist_eq, h.elist_eq, Csr.row_offsets hlt, hval]

/-- Every new row belongs to a node that is left. -/
theorem exists_number (h : Rebuilt vlist elist V k A s out) {w : Nat}
    (hw : w < number V s (V + k)) : ∃ v : Int, A v ∧ number V s v.toNat = w := by
  obtain ⟨v, hv, hk, rfl⟩ := exists_count_eq hw
  exact ⟨v, (h.left v ⟨by omega, by omega⟩).mp hk, rfl⟩

theorem noDropped (h : Rebuilt vlist elist V k A s out) : NoDropped V k s := by
  intro v hv hk x hx
  have hA := (h.left v ⟨by omega, by omega⟩).mp (by rw [Int.toNat_natCast]; exact hk)
  have hxA := h.graph.closed v hA x hx
  have hr := h.graph.range x hxA
  exact ⟨hr.1, hr.2, (h.left x hr).mpr hxA⟩

/-- The new graph has the expansions of the input. -/
theorem preserved (h : RuleGraph vlist elist V k) (hout : Rebuilt vlist elist V k A s out) :
    Preserved vlist elist V out := by
  have hVk := number_mono (V := V) (s := s) (Nat.le_add_right V k)
  rw [number_vertex (Nat.le_refl V)] at hVk
  refine ⟨by rw [hout.vlist_eq, hout.elist_eq]; exact Csr.valid_offsets,
    by rw [hout.length_vlist, hout.ruleCnt_eq]; push_cast; omega,
    by rw [hout.vlist_eq, hout.elist_eq]; exact Csr.offsets_getLast?, fun w hw x hx => ?_,
    fun v hv => ?_⟩
  · rw [hout.length_vlist] at hw
    obtain ⟨v, hA, rfl⟩ := hout.exists_number (show w < number V s (V + k) by omega)
    rw [hout.row_number hA] at hx
    obtain ⟨y, hy, rfl⟩ := List.mem_map.mp hx
    have := hout.number_lt (hout.graph.closed v hA y hy)
    rw [hout.ruleCnt_eq]
    omega
  · have hg := hout.graph
    have hA := hout.vertices v (by omega) (by omega)
    obtain ⟨ys, hold, hnew⟩ := hg.exists_expands h hA
    rw [Int.toNat_natCast] at hold
    refine ⟨ys, hold, ?_⟩
    -- terminals are vertices, and vertices keep their numbers
    have hys : (ys.map fun x => (number V s x.toNat : Int)) = ys := by
      refine (List.map_congr_left fun y hy => ?_).trans (List.map_id _)
      have hy0 : 0 ≤ y := (hg.range y (hnew.closed (C := A) (fun x zs hx hz z hzz => by
        obtain ⟨-, rfl⟩ := stateRhs_eq_some hz
        exact hg.closed x hx z hzz) (hg.closed v hA) y hy)).1
      have hyV : y < V := by
        have hnone := hnew.eq_none_of_mem y hy
        unfold stateRhs at hnone
        split at hnone
        · assumption
        · cases hnone
      rw [number_vertex (by omega), Int.toNat_of_nonneg hy0]
      rfl
    -- renumbering commutes with unfolding
    have hmap : Expands (csrRhs V V out.vlist out.elist)
        ((s.graph.cells v).map fun x => (number V s x.toNat : Int))
        (ys.map fun x => (number V s x.toNat : Int)) := by
      refine hnew.map (C := A) _ (fun x zs hx hz z hzz => ?_) (fun x hx hz => ?_)
        (fun x zs hx hz => ?_) (hg.closed v hA)
      · obtain ⟨-, rfl⟩ := stateRhs_eq_some hz
        exact hg.closed x hx z hzz
      · unfold stateRhs at hz
        split at hz
        · have hx0 := (hg.range x hx).1
          rw [number_vertex (by omega)]
          exact csrRhs_vertex (by omega)
        · cases hz
      · obtain ⟨hV, rfl⟩ := stateRhs_eq_some hz
        have hVx := number_mono (V := V) (s := s) (show V ≤ x.toNat by omega)
        rw [number_vertex (Nat.le_refl V)] at hVx
        rw [csrRhs_row (by omega), Int.toNat_natCast, hout.row_number hx]
    have hv' := hout.row_number hA
    rw [Int.toNat_natCast, number_vertex (by omega)] at hv'
    rwa [hv', ← hys]

end Rebuilt

/-- The last part of the filters: the numbers and the rows that are left. -/
theorem rebuild_meets (hg : GraphInv vlist elist V k A s) (hflag : s.mergeFlag.size = k)
    (hvert : ∀ v : Int, 0 ≤ v → v < V → A v)
    (hkept : ∀ v : Int, 0 ≤ v ∧ v < (V : Int) + k → (kept V s v.toNat = true ↔ A v)) :
    Run.Meets (OffsetFault variant V k s) (do
        let ids ← genNewIdForRule s.mergeFlag V k
        let out ← genNewGraphCSR variant s ids.1 V k
        pure (⟨out.1, out.2, V, ids.2⟩ : Compressed)) (fun out =>
      Rebuilt vlist elist V k A s out ∧
      (0 < variant.offsetBound → (out.elist.length : Int) < variant.offsetBound)) := by
  obtain ⟨ids, hids, hsize, hcells⟩ := genNewIdForRule_eq (V := V) hflag
  rw [hids, Run.ok_bind, Run.meets_bind]
  refine (genNewGraphCSR_meets hsize hcells hg.rowSize hflag fun v hv hk x hx => ?_).mono
    fun out hout => ?_
  · have hA := (hkept v ⟨by omega, by omega⟩).mp (by rw [Int.toNat_natCast]; exact hk)
    exact hg.range x (hg.closed v hA x hx)
  · exact ⟨⟨hg, hvert, hkept, hout.1, hout.2.1, rfl, rfl⟩, hout.2.2⟩

/-- What both filters return, together with the state that it is written from. -/
structure Filtered (variant : Variant) (vlist elist : List Int) (threshold : Int) (V k : Nat)
    (P : Int → Nat → Prop) (Q : (Int → Prop) → State → Prop) (A : Int → Prop) (s : State)
    (out : Compressed) : Prop where
  merged : mergeRules variant threshold vlist elist V k = .ok s
  info : InfoInv threshold V k P A k s
  client : Q A s
  rebuilt : Rebuilt vlist elist V k A s out
  bound : 0 < variant.offsetBound → (out.elist.length : Int) < variant.offsetBound

/-- Both filters: the loop over the rules and the new graph. -/
theorem filterCsrOf_meets {Q : (Int → Prop) → State → Prop} (h : GrammarInput vlist elist V k)
    (hsafe : ∀ c, Safe variant threshold P c)
    (hP : ∀ i : Nat, i < k → P (occurrences vlist elist (V + i)) (occurrences vlist elist (V + i)))
    (hinit : ∀ s, (∀ v : Nat, v < V + k → s.graph.cells v = Csr.row vlist elist v) →
      Q (Node V k) s) (hQ : MergeKeeps vlist elist threshold V k P Q) :
    Run.Meets OverflowOnly (filterCsrOf variant vlist elist V k threshold)
      (fun out => ∃ s A, Filtered variant vlist elist threshold V k P Q A s out) := by
  unfold filterCsrOf
  rw [Run.meets_bind]
  refine ((mergeRules_meets h hsafe hP hinit hQ).with_run).mono fun s hs => ?_
  obtain ⟨hrun, -, A, hg, hinfo, hvert, -, hq⟩ := hs
  refine ((rebuild_meets hg hinfo.flagSize hvert fun v hv => kept_iff hinfo hvert hv).weaken
    fun e he => he.1).mono fun out hout => ?_
  exact ⟨s, A, hrun, hinfo, hq, hout.1, hout.2⟩

end Preserve

/-! ## The two variants -/

/-- Exact frequencies: the products of `judgeRule` only grow. -/
theorem safe_serial (threshold c : Int) :
    Safe serial threshold (fun f n => f = n ∧ 1 ≤ n) c where
  step := by
    rintro f g n m ⟨-, -⟩ ⟨-, hm⟩
    exact ⟨rfl, by omega⟩
  grow := by
    rintro - f g n m ⟨rfl, -⟩ ⟨-, hm⟩
    show ((n + 1 : Nat) : Int) ≤ (n + m : Nat)
    omega
  keep := by
    rintro - f f' n len len' ⟨rfl, hn⟩ hlen hoff hle hf
    have hoff' := of_decide_eq_false hoff
    refine decide_eq_false fun hon => hoff' ?_
    have hmul := Int.mul_le_mul (show (n : Int) - 1 ≤ f' - 1 by omega)
      (show len - 1 ≤ len' - 1 by omega) (by omega) (by omega)
    omega

/-- Over-counted frequencies: a rule whose flag is off has a frequency of at least 2. -/
theorem safe_parallel {threshold : Int} (hthreshold : 0 ≤ threshold) (c : Int) :
    Safe parallel threshold (fun _ _ => True) c where
  step _ _ := trivial
  grow := by
    intro _ f g n m _ _
    show f ≤ f + ((n + m : Nat) : Int)
    omega
  keep := by
    intro _ f f' n len len' _ hlen hoff hle hf
    have hoff' := of_decide_eq_false hoff
    -- otherwise the product would not be positive and the flag on
    have hf1 : 1 ≤ f := by
      by_contra hneg
      have := Int.mul_le_mul_of_nonneg_right (show f - 1 ≤ 0 by omega) (show 0 ≤ len - 1 by omega)
      omega
    refine decide_eq_false fun hon => hoff' ?_
    have hmul := Int.mul_le_mul (show f - 1 ≤ f' - 1 by omega)
      (show len - 1 ≤ len' - 1 by omega) (by omega) (by omega)
    omega

section Filters

variable {vlist elist : List Int} {threshold : Int} {V k : Nat}

theorem exists_filtered {variant : Variant} {P : Int → Nat → Prop}
    {Q : (Int → Prop) → State → Prop} (h : GrammarInput vlist elist V k)
    (hsafe : ∀ c, Safe variant threshold P c)
    (hP : ∀ i : Nat, i < k → P (occurrences vlist elist (V + i)) (occurrences vlist elist (V + i)))
    (hinit : ∀ s, (∀ v : Nat, v < V + k → s.graph.cells v = Csr.row vlist elist v) →
      Q (Node V k) s) (hQ : MergeKeeps vlist elist threshold V k P Q)
    (hover : filterCsrOf variant vlist elist V k threshold ≠ .error .overflow) :
    ∃ out, filterCsrOf variant vlist elist V k threshold = .ok out ∧
      ∃ s A, Filtered variant vlist elist threshold V k P Q A s out :=
  (filterCsrOf_meets h hsafe hP hinit hQ).exists_ok fun e he => by
    rw [show e = .overflow from he]
    exact hover

theorem exists_result {variant : Variant} {P : Int → Nat → Prop} (h : GrammarInput vlist elist V k)
    (hsafe : ∀ c, Safe variant threshold P c)
    (hP : ∀ i : Nat, i < k → P (occurrences vlist elist (V + i)) (occurrences vlist elist (V + i)))
    (hover : filterCsrOf variant vlist elist V k threshold ≠ .error .overflow) :
    ∃ s out, mergeRules variant threshold vlist elist V k = .ok s ∧ NoDropped V k s ∧
      filterCsrOf variant vlist elist V k threshold = .ok out ∧ Preserved vlist elist V out := by
  obtain ⟨out, hout, s, A, hf⟩ := exists_filtered (Q := fun _ _ => True) h hsafe hP
    (fun _ _ => trivial) (fun _ _ _ _ _ _ _ _ _ _ _ => trivial) hover
  exact ⟨s, out, hf.merged, hf.rebuilt.noDropped, hout, hf.rebuilt.preserved h.ruleGraph⟩

/-- What stands in a row occurs. -/
theorem occurrences_pos (h : GrammarInput vlist elist V k) {v : Nat} {x : Int} (hv : v < V + k)
    (hx : x ∈ Csr.row vlist elist v) : 1 ≤ occurrences vlist elist x := by
  have hrow : Csr.row vlist elist v ∈ Csr.rows vlist elist :=
    List.mem_of_getElem? (Csr.rows_getElem? (by rw [h.length]; omega))
  exact List.count_pos_iff.mpr (List.mem_flatten.mpr ⟨_, hrow, hx⟩)

end Filters

end Laconic.Filter
