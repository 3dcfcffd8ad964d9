import Mathlib.Order.Lattice.Nat
import Laconic.DepthFilter.Run
import Laconic.Graph.VertexOrder

/-!
# The depth filter: the meaning of the graph is preserved

The levels are those of the longest paths of references.  Whatever levels are inlined, the vectors
hold rows with the expansions of the input; the result has them too, unless an offset or the number
of a node is too large for the arrays of `int` that are returned.
-/

namespace Laconic.DepthFilter

open Laconic.Filter (Exact GraphInv Rebuilt Preserved NoDropped kept number newRows)
open Laconic.Graph (RefPath Points Ranked genVertexOrderCsr)
open RePair (Compressed intBound toInt)

/-! ## The result in exact arithmetic -/

/-- The new number of a node. -/
def exactNumber (g : Exact) (x : Nat) : Nat := Nat.count (fun w : Nat => g.live w = true) x

/-- The renumbered rows that are left. -/
def exactRows (V k : Nat) (g : Exact) : List (List Int) :=
  ((List.range (V + k)).filter fun v : Nat => g.live v).map fun v : Nat =>
    (g.row v).map fun x => (exactNumber g x.toNat : Int)

/-- The number of entries and the entries are `int`s. -/
def Fits (V k : Nat) (g : Exact) : Prop :=
  ((exactRows V k g).flatten.length : Int) < intBound ∧
    ∀ x ∈ (exactRows V k g).flatten, x < intBound

section Rows

variable {vlist elist : List Int} {V k : Nat} {g : Exact} {s : State}

namespace Shows

theorem kept_eq (h : Shows vlist elist V k g s) {v : Nat} (hv : v < V + k) :
    kept V s.rows v = g.live v := by
  by_cases hV : v < V
  · rw [Filter.kept_vertex hV, h.vertices v (by omega) (by omega)]
  · obtain ⟨i, rfl⟩ := Nat.exists_eq_add_of_le (show V ≤ v by omega)
    have hflag : s.rows.mergeFlag.cells i = _ := h.flag i (by omega)
    rw [Filter.kept_rule, hflag, Bool.not_not]
    push_cast
    rfl

theorem number_eq (h : Shows vlist elist V k g s) {v : Nat} (hv : v ≤ V + k) :
    number V s.rows v = exactNumber g v := by
  induction v with
  | zero => rfl
  | succ v ih => rw [Filter.number_succ, exactNumber, Nat.count_succ, ih (by omega), h.kept_eq hv,
      exactNumber]

theorem newRows_eq (h : Shows vlist elist V k g s) :
    newRows V s.rows (V + k) = exactRows V k g := by
  have hfilter : (List.range (V + k)).filter (kept V s.rows) =
      (List.range (V + k)).filter fun v : Nat => g.live v :=
    List.filter_congr fun v hv => h.kept_eq (List.mem_range.mp hv)
  rw [newRows, exactRows, hfilter]
  refine List.map_congr_left fun v hv => ?_
  have hlive : g.live v = true := (List.mem_filter.mp hv).2
  have hrow : s.rows.graph.cells v = g.row v := h.rows v hlive
  rw [hrow]
  refine List.map_congr_left fun x hx => ?_
  have hx' := h.graph.range x (h.graph.closed v hlive x (by rwa [hrow]))
  rw [h.number_eq (by omega)]

theorem rebuilt (h : Shows vlist elist V k g s) :
    Rebuilt vlist elist V k (fun v => g.live v = true) s.rows
      ⟨Csr.offsets (newRows V s.rows (V + k)), (newRows V s.rows (V + k)).flatten, V,
        (number V s.rows (V + k) : Int) - V⟩ := by
  refine ⟨h.graph, h.vertices, fun v hv => ?_, rfl, rfl, rfl, rfl⟩
  rw [h.kept_eq (by omega), Int.toNat_of_nonneg hv.1]

end Shows

theorem toIntArray_eq {l : List Int} (h : ∀ x ∈ l, x < intBound) : toIntArray l = .ok l := by
  induction l with
  | nil => rfl
  | cons x l ih =>
    have ih' : l.mapM toInt = .ok l := ih fun y hy => h y (List.mem_cons_of_mem _ hy)
    rw [toIntArray, List.mapM_cons, toInt, if_pos (h x List.mem_cons_self), Run.pure_bind, ih',
      Run.ok_bind]
    rfl

theorem toIntArray_overflow {l : List Int} {x : Int} (hx : x ∈ l) (hbig : intBound ≤ x) :
    toIntArray l = .error .overflow := by
  induction l with
  | nil => cases hx
  | cons y l ih =>
    rw [toIntArray, List.mapM_cons, toInt]
    by_cases hy : y < intBound
    · have ih' : l.mapM toInt = .error .overflow :=
        ih ((List.mem_cons.mp hx).resolve_left (by rintro rfl; omega))
      rw [if_pos hy, Run.pure_bind, ih']
      rfl
    · rw [if_neg hy]
      rfl

/-- The rows that are left are written, unless an offset or an entry is no `int`. -/
theorem Shows.newGraph_meets (h : Shows vlist elist V k g s) :
    Run.Meets (fun e => e = .overflow ∧ ¬ Fits V k g) (newGraph V k s) (fun out =>
      Fits V k g ∧ Rebuilt vlist elist V k (fun v => g.live v = true) s.rows out) := by
  have hflag : s.rows.mergeFlag.size = k := h.flagSize
  obtain ⟨ids, hids, hsize, hcells⟩ := Filter.genNewIdForRule_eq (V := V) hflag
  have hids' : Filter.genNewIdForRule s.flag V k = _ := hids
  have hbound : intBound ≤ wide.offsetBound := by decide
  unfold newGraph
  rw [hids', Run.ok_bind, Run.meets_bind]
  refine ((Filter.genNewGraphCSR_meets hsize hcells h.graph.rowSize hflag
    fun v hv hk x hx => ?_).weaken fun e he => ?_).mono fun out hout => ?_
  · rw [h.kept_eq hv] at hk
    exact h.graph.range x (h.graph.closed v hk x hx)
  · rw [Filter.OffsetFault, h.newRows_eq] at he
    refine ⟨he.1, fun hfits => ?_⟩
    have := hfits.1
    have := he.2
    omega
  obtain ⟨hvl, hel, -⟩ := hout
  have hrebuilt := h.rebuilt
  rw [← hvl, ← hel] at hrebuilt
  rw [h.newRows_eq] at hvl hel
  by_cases hfits : Fits V k g
  · have hoffsets : ∀ x ∈ out.1, x < intBound := fun x hx => by
      rw [hvl] at hx
      exact Int.lt_of_le_of_lt (Csr.valid_offsets.within x hx) hfits.1
    rw [toIntArray_eq hoffsets, Run.ok_bind, toIntArray_eq (by rw [hel]; exact hfits.2), Run.ok_bind,
      Run.meets_pure]
    exact ⟨hfits, hrebuilt⟩
  · have hover : Run.Meets (fun e => e = .overflow ∧ ¬ Fits V k g) (do
        let vlist ← toIntArray out.1
        let elist ← toIntArray out.2
        pure (⟨vlist, elist, V, (number V s.rows (V + k) : Int) - V⟩ : Compressed))
        fun _ => False := by
      by_cases hlen : ((exactRows V k g).flatten.length : Int) < intBound
      · -- an entry is too large
        have hentry : ∃ x ∈ (exactRows V k g).flatten, intBound ≤ x := by
          by_contra hnone
          exact hfits ⟨hlen, fun x hx => Int.not_le.mp fun hle => hnone ⟨x, hx, hle⟩⟩
        obtain ⟨x, hx, hbig⟩ := hentry
        have hoffsets : ∀ x ∈ out.1, x < intBound := fun x hx => by
          rw [hvl] at hx
          exact Int.lt_of_le_of_lt (Csr.valid_offsets.within x hx) hlen
        rw [toIntArray_eq hoffsets, Run.ok_bind, toIntArray_overflow (by rwa [hel]) hbig]
        exact ⟨rfl, hfits⟩
      · -- the last offset is too large
        have hlast : ((exactRows V k g).flatten.length : Int) ∈ out.1 := by
          rw [hvl]
          exact List.mem_of_getLast? Csr.offsets_getLast?
        rw [toIntArray_overflow hlast (Int.not_lt.mp hlen)]
        exact ⟨rfl, hfits⟩
    exact hover.mono fun _ hf => hf.elim

end Rows

/-! ## The depth of the rules -/

section Depth

variable {vlist elist : List Int} {V k : Nat}

/-- The length of the longest path of references from a vertex to rule `i`. -/
noncomputable def refDepth (vlist elist : List Int) (V i : Nat) : Nat :=
  sSup {n | ∃ u l, RefPath vlist elist V u l (V + i) ∧ l.length = n}

theorem refDepth_eq {src : Nat → Int} {lv : Int → Nat}
    (h : Ranked vlist elist V k src (fun _ => true) lv)
    (href : ∀ x : Int, (V : Int) ≤ x → x < (V : Int) + k → ∃ e < elist.length, elist.getD e 0 = x)
    {i : Nat} (hi : i < k) : refDepth vlist elist V i = lv (V + i : Nat) := by
  obtain ⟨⟨u, l, hp, hl⟩, hub⟩ := h.isGreatest href (Nat.le_add_right V i) (by omega)
  refine IsGreatest.csSup_eq ⟨⟨u, l, hp, by omega⟩, ?_⟩
  rintro n ⟨u', l', hp', rfl⟩
  exact Int.ofNat_le.mp (hub ⟨u', l', hp', rfl⟩)

/-- `gen_vertex_order_csr` tells the filter the depth of the rules. -/
theorem exists_depthOf (h : RuleGraph vlist elist V k)
    (hlast : vlist.getD (V + k) 0 = elist.length)
    (hreached : ∀ r, V ≤ r → r < V + k →
      ∃ u, u < V ∧ Relation.ReflTransGen (Points vlist elist) u r) :
    ∃ enough, ∀ fuel, enough ≤ fuel → ∃ (order : Block Int) (count : Nat),
      genVertexOrderCsr fuel vlist elist V k = .ok (order, (count : Int)) ∧
      DepthOf order (refDepth vlist elist V) V k count ∧ count ≤ k + 1 ∧
      ∀ i, i < k → refDepth vlist elist V i ≤ k := by
  rcases Nat.eq_zero_or_pos V with rfl | hV
  · -- without vertices there are no rules, and no edges
    obtain rfl : k = 0 := by
      by_contra hk
      obtain ⟨u, hu, -⟩ := hreached 0 (Nat.le_refl 0) (by omega)
      omega
    have hfirst := h.valid.first
    obtain rfl : elist = [] := by
      rw [List.head?_eq_getElem?] at hfirst
      rw [List.getD_eq_getElem?_getD, hfirst] at hlast
      exact List.eq_nil_of_length_eq_zero (by simpa using hlast.symm)
    refine ⟨1, fun fuel hfuel => ?_⟩
    obtain ⟨fuel, rfl⟩ := Nat.exists_eq_add_of_le' hfuel
    exact ⟨_, 0, rfl, ⟨fun i hi => by omega, fun i hi => by omega⟩, by omega, fun i hi => by omega⟩
  · obtain ⟨src, lv, hlv⟩ := Graph.exists_levels (fun _ => true) h hlast fun _ _ => rfl
    have href := Graph.exists_edge_to h hreached
    obtain ⟨enough, hrun⟩ := Graph.genVertexOrderCsr_eq hlv hV href
    refine ⟨enough, fun fuel hfuel => ?_⟩
    obtain ⟨order, step, hok, hsize, hcells, hbelow, x, h0, hx, htop⟩ := hrun fuel hfuel
    have hle : ∀ i, i < k → refDepth vlist elist V i ≤ k := fun i hi => by
      rw [refDepth_eq hlv href hi]
      exact hlv.level_le (by omega)
    have hxk := hlv.level_le (show x.toNat < V + k by omega)
    rw [Int.toNat_of_nonneg h0] at hxk
    obtain ⟨count, rfl⟩ := Int.eq_ofNat_of_zero_le (show 0 ≤ step by omega)
    refine ⟨order, count, hok, ⟨fun i hi => ?_, fun i hi => ?_⟩, by omega, hle⟩
    · rw [Block.read_eq ⟨by omega, by omega⟩, hcells _ (by omega) (by omega), refDepth_eq hlv href hi]
      push_cast
      rw [Int.add_comm]
    · have := hbelow (V + i : Nat) (by omega) (by push_cast; omega)
      rw [refDepth_eq hlv href hi]
      omega

/-- The filter in exact arithmetic. -/
noncomputable def exactResult (vlist elist : List Int) (V k : Nat) (maxDepth minEdge : Int) : Exact :=
  descend (level (refDepth vlist elist V) V k minEdge) maxDepth.toNat (k + 1 - maxDepth.toNat)
    (Exact.start vlist elist V k)

/-- `depth_filter` inlines the levels. -/
theorem depthFiltered_shows (h : RuleGraph vlist elist V k)
    (hlast : vlist.getD (V + k) 0 = elist.length)
    (hreached : ∀ r, V ≤ r → r < V + k →
      ∃ u, u < V ∧ Relation.ReflTransGen (Points vlist elist) u r) {maxDepth : Int}
    (h0 : 0 ≤ maxDepth) (minEdge : Int) :
    ∃ enough, ∀ fuel, enough ≤ fuel → ∃ s,
      depthFiltered fuel vlist elist V k maxDepth minEdge = .ok s ∧
      Shows vlist elist V k (exactResult vlist elist V k maxDepth minEdge) s := by
  obtain ⟨lo, rfl⟩ := Int.eq_ofNat_of_zero_le h0
  obtain ⟨enough, hdepth⟩ := exists_depthOf h hlast hreached
  refine ⟨max enough (k + 3), fun fuel hfuel => ?_⟩
  obtain ⟨order, count, hok, hof, hcount, hle⟩ := hdepth fuel (by omega)
  obtain ⟨graph, hg, hgs, hrows⟩ := Filter.csrConvert_eq h.valid h.length
  obtain ⟨graphT, ht, hts, -, hcol⟩ := Filter.csrConvertIdx_eq h.valid h.length
    fun v hv x hx => by
      have := h.entries v hv x hx
      push_cast
      exact this
  have hlive : ∀ v : Int, (Exact.start vlist elist V k).live v = true ↔ Filter.Node V k v :=
    fun v => by rw [Exact.start, decide_eq_true_eq, Filter.Node]
  have hshows : Shows vlist elist V k (Exact.start vlist elist V k) ⟨graph, graphT,
      Block.alloc k fun _ => false, Block.alloc ((count : Int) + 1) fun _ => 0,
      Block.alloc k fun _ => 0⟩ := by
    have hset : (fun v => (Exact.start vlist elist V k).live v = true) = Filter.Node V k :=
      funext fun v => propext (hlive v)
    refine ⟨by rw [hset]; exact GraphInv.init h hgs hts hrows hcol, fun v hv => ?_,
      fun v hv0 hv => (hlive v).mpr ⟨hv0, by omega⟩, rfl, fun i hi => ?_, rfl⟩
    · have hv' := (hlive v).mp hv
      have hrow := hrows v.toNat (by have := hv'.1; have := hv'.2; omega)
      rwa [Int.toNat_of_nonneg hv'.1] at hrow
    · rw [(hlive (V + i)).mpr ⟨by omega, by omega⟩]
      rfl
  have hfilter : Run.Meets (fun _ => False)
      (depthFilter fuel graph graphT _ order count lo minEdge V k) _ :=
    depthFilter_meets h.acyclic hof hshows (fun i hi => (hlive (V + i)).mpr ⟨by omega, by omega⟩)
      (by omega)
  obtain ⟨s, hs, hfinal⟩ := hfilter.exists_ok fun e he => he.elim
  refine ⟨s, by rw [depthFiltered, hg, Run.ok_bind, ht, Run.ok_bind, hok, Run.ok_bind]; exact hs, ?_⟩
  -- there are no rules above the levels that are counted
  have hsame : descend (level (refDepth vlist elist V) V k minEdge) lo (k + 1 - lo)
      (Exact.start vlist elist V k) = descend (level (refDepth vlist elist V) V k minEdge) lo
      (count + 1 - lo) (Exact.start vlist elist V k) := by
    rcases Nat.le_total k count with hkc | hck
    · exact (descend_eq (fun i hi => by have := hle i hi; omega) (by omega)).symm
    · exact descend_eq (fun i hi => by have := hof.le i hi; omega) (by omega)
  rw [exactResult, Int.toNat_natCast, hsame]
  exact hfinal

end Depth

theorem depthFilterCsr_overflow {vlist elist : List Int} {V k : Nat}
    (h : RuleGraph vlist elist V k) (hlast : vlist.getD (V + k) 0 = elist.length)
    (hreached : ∀ r, V ≤ r → r < V + k →
      ∃ u, u < V ∧ Relation.ReflTransGen (Points vlist elist) u r) {maxDepth : Int}
    (h0 : 0 ≤ maxDepth) {minEdge : Int}
    (hbig : ¬ Fits V k (exactResult vlist elist V k maxDepth minEdge)) :
    ∃ enough, ∀ fuel, enough ≤ fuel →
      depthFilterCsr fuel vlist elist V k maxDepth minEdge = .error .overflow := by
  obtain ⟨enough, hrun⟩ := depthFiltered_shows h hlast hreached h0 minEdge
  refine ⟨enough, fun fuel hfuel => ?_⟩
  obtain ⟨s, hs, hshows⟩ := hrun fuel hfuel
  have hgraph := hshows.newGraph_meets
  rw [depthFilterCsr, hs, Run.ok_bind]
  cases hout : newGraph V k s with
  | error e =>
    rw [hout] at hgraph
    exact congrArg Except.error hgraph.1
  | ok out => exact absurd (hgraph.of_ok hout).1 hbig

theorem wrapInt_eq {x : Int} (h0 : 0 ≤ x) (h : x < intBound) : wrapInt x = x := by
  rw [wrapInt]
  have hbound : intBound = 2 ^ 31 := rfl
  exact Int.bmod_eq_of_le_mul_two (by push_cast; omega) (by push_cast; omega)

section Wide

open Laconic.Filter (wideRows wideRows_ruleGraph)

variable {n : Nat}

theorem wideRows_row {v : Nat} (hv : v < 2) :
    Csr.row (Csr.offsets (wideRows n)) (wideRows n).flatten v =
      List.replicate n (1 - (v : Int)) := by
  rw [Csr.row_offsets (show v < (wideRows n).length from hv)]
  obtain rfl | rfl : v = 0 ∨ v = 1 := by omega
  · rfl
  · rfl

theorem wideRows_getLast :
    (Csr.offsets (wideRows n)).getD (1 + 1) 0 = (wideRows n).flatten.length :=
  Csr.offsets_getD (Nat.le_refl 2)

theorem wideRows_reached (hn : 0 < n) (r : Nat) (hr : 1 ≤ r) (hr' : r < 1 + 1) : ∃ u, u < 1 ∧
    Relation.ReflTransGen (Points (Csr.offsets (wideRows n)) (wideRows n).flatten) u r := by
  obtain rfl : r = 1 := by omega
  refine ⟨0, Nat.zero_lt_one, Relation.ReflTransGen.single ?_⟩
  rw [Points, wideRows_row (by decide)]
  exact List.mem_replicate.mpr ⟨by omega, rfl⟩

theorem wideRows_depth (hn : 0 < n) :
    refDepth (Csr.offsets (wideRows n)) (wideRows n).flatten 1 0 = 1 := by
  obtain ⟨src, lv, hlv⟩ := Graph.exists_levels (fun _ => true) (wideRows_ruleGraph n)
    wideRows_getLast fun _ _ => rfl
  have href := Graph.exists_edge_to (wideRows_ruleGraph n) (wideRows_reached hn)
  rw [refDepth_eq hlv href Nat.zero_lt_one]
  have hle := hlv.level_le (show 1 + 0 < 1 + 1 by decide)
  have hpos := hlv.level.pos ((1 + 0 : Nat) : Int) (by decide)
  omega

/-- The rule is inlined. -/
theorem exactResult_wideRows (hn : 0 < n) (hint : (n : Int) < intBound) :
    exactResult (Csr.offsets (wideRows n)) (wideRows n).flatten 1 1 0 (n + 1) =
      (Exact.start (Csr.offsets (wideRows n)) (wideRows n).flatten 1 1).drop 1 := by
  have hdepth := wideRows_depth hn
  have hsize : levelSize (refDepth (Csr.offsets (wideRows n)) (wideRows n).flatten 1) 1
      (Exact.start (Csr.offsets (wideRows n)) (wideRows n).flatten 1 1) 1 1 = n := by
    rw [levelSize, Finset.sum_range_one, if_pos ⟨rfl, hdepth⟩]
    show (Csr.row _ _ 1).length = n
    rw [wideRows_row (by decide), List.length_replicate]
  rw [exactResult]
  show level _ 1 1 (n + 1) (level _ 1 1 (n + 1) _ 1) 0 = _
  rw [level_of_none fun i hi => by
    obtain rfl : i = 0 := by omega
    rw [hdepth]
    decide]
  rw [level, hsize, wrapInt_eq (Int.natCast_nonneg n) hint, if_neg (by omega)]
  show (if refDepth _ _ 1 0 = 1 then _ else _) = _
  rw [if_pos hdepth]
  rfl

theorem length_exactRows_wideRows :
    (exactRows 1 1 ((Exact.start (Csr.offsets (wideRows n)) (wideRows n).flatten 1 1).drop
      1)).flatten.length = n * n := by
  have hlen : (Splice.inline 1 (List.replicate n 0) (List.replicate n (1 : Int))).length = n * n := by
    have hsum : (Splice.inline 1 (List.replicate n 0) (List.replicate n (1 : Int))).length + _ = _ :=
      Splice.length_inline
    rw [List.count_replicate_self, List.length_replicate, List.length_replicate] at hsum
    omega
  show ([_] : List (List Int)).flatten.length = _
  rw [List.flatten_singleton, List.length_map]
  show (Splice.inline 1 (Csr.row _ _ 1) (Csr.row _ _ 0)).length = _
  rw [wideRows_row (by decide), wideRows_row (by decide)]
  exact hlen

end Wide

end Laconic.DepthFilter
