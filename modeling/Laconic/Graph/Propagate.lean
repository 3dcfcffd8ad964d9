import Mathlib.Algebra.BigOperators.Intervals
import Laconic.Graph.Check
import Laconic.Graph.Masks
import Laconic.Graph.Norm
import Laconic.Lib.Propagate
import Laconic.Lib.SlpSum

/-!
# One propagation over a compressed graph

What the masks, the weights and the splicing are for.  The module exports them to programs that are not
part of the sources, so the passes below state their purpose: one propagation adds, for every edge, the
weight of the edge times the value of its source to what its destination collects.  On a compressed
graph the vertices pass their values on first, then level after level of the rules passes on what it
has collected, over the edges that the level's row of the mask selects.  The vertices end up with what
one propagation over the original graph gives them.
-/

namespace Laconic.Graph

open Slp Propagate
open RePair (intBound)
open Check (SameSuccessors)

/-! ## The passes -/

section Model

variable {R : Type} [CommSemiring R]

/-- The weights of the entries `y` of a row. -/
def entryWeight (es : List Int) (ws : List R) (y : Int) : R :=
  ((es.zip ws).map fun p => if p.1 = y then p.2 else 0).sum

/-- What arrives at `y` when row `v` passes on `x v`. -/
def passRows (vlist elist : List Int) (weight : List R) (x : Nat → R) (y : Nat) : R :=
  ∑ v ∈ Finset.range (vlist.length - 1),
    x v * entryWeight (Csr.row vlist elist v) (Csr.row vlist weight v) y

/-- One propagation over a graph without rules. -/
def plainPass (fresh : Int → R) (vlist elist : List Int) (inDegree : Block R) (vertexCnt : Nat)
    (x : Nat → R) : Run (Nat → R) := do
  let w ← gcnNormCsr fresh vlist elist inDegree vertexCnt
  pure (passRows vlist elist w.toList x)

variable [Inhabited R]

/-- The nodes of row `d` of the mask pass on what they have. -/
def levelPass (vlist elist : List Int) (weight : List R) (mask : Block Bool) (vertexCnt ruleCnt : Nat)
    (x : Nat → R) (d : Int) (acc : Nat → R) : Run (Nat → R) := do
  let g ← spliceCsr vlist elist weight (maskRow mask (vertexCnt + ruleCnt) d)
  pure fun y => acc y + passRows g.1 g.2.1 g.2.2 (value (fun v => v < vertexCnt) x acc) y

/-- One propagation over a compressed graph, level after level. -/
def compressedPass (fresh : Int → R) (fuel : Nat) (vlist elist : List Int) (inDegree : Block R)
    (vertexCnt ruleCnt : Nat) (x : Nat → R) : Run (Nat → R) := do
  let w ← gcnNormCsrCompress fresh vlist elist inDegree vertexCnt ruleCnt
  let m ← genMaskVertex fuel vlist elist vertexCnt ruleCnt .csr
  Run.forLoop (levelPass vlist elist w.toList m.1 vertexCnt ruleCnt x) m.2.toNat 0 fun _ => 0

/-- `gcn_norm_coo`, whose loop counter is an `int`. -/
def gcnNormCoo (fresh : Int → R) (src dst : Block Int) (inDegree : Block R) : Run (Block R) :=
  Run.forLoop (fun i edgeWeight => do
    let a ← src.read i
    let x ← inDegree.read a
    let b ← dst.read i
    let y ← inDegree.read b
    let edgeWeight ← edgeWeight.write i (x * y)
    let _ ← RePair.toInt (i + 1)
    pure edgeWeight) src.size.toNat 0 (Block.alloc src.size fresh)

/-- What arrives at `y` along the edges that `index` selects. -/
def passEdges (src dst : Block Int) (weight : Block R) (index : List Bool) (x : Nat → R) (y : Nat) : R :=
  ∑ e ∈ Finset.range src.size.toNat,
    if index.getD e false ∧ dst.cells e = y then x (src.cells e).toNat * weight.cells e else 0

/-- One propagation over the edge list of a graph without rules. -/
def plainEdgePass (fresh : Int → R) (src dst : Block Int) (inDegree : Block R) (x : Nat → R) :
    Run (Nat → R) := do
  let w ← gcnNormCoo fresh src dst inDegree
  pure (passEdges src dst w (List.replicate src.size.toNat true) x)

/-- The edges of row `d` of the mask pass on what their sources have. -/
def edgeLevelPass (src dst : Block Int) (weight : Block R) (mask : Block Bool) (vertexCnt : Nat)
    (x : Nat → R) (d : Int) (acc : Nat → R) (y : Nat) : R :=
  acc y + passEdges src dst weight (maskRow mask src.size.toNat d)
    (value (fun v => v < vertexCnt) x acc) y

/-- One propagation over the edge list of a compressed graph, level after level. -/
def compressedEdgePass (fresh : Int → R) (fuel : Nat) (src dst : Block Int) (inDegree : Block R)
    (vertexCnt ruleCnt : Nat) (x : Nat → R) : Run (Nat → R) := do
  let w ← gcnNormCooCompress fresh src dst inDegree vertexCnt
  let m ← genMaskEdge fuel src dst vertexCnt ruleCnt
  Run.forLoop (fun d acc => pure (edgeLevelPass src dst w m.1 vertexCnt x d acc)) m.2.toNat 0
    fun _ => 0

end Model

/-! ## The weights as rows -/

section Weights

variable {M : Type} {vlist elist : List Int} {w : Block M} {V k : Nat}

/-- The weights of a row, entry by entry. -/
theorem Weighted.row_eq {weight : Int → Int → M} (h : Weighted vlist elist weight w)
    (hvalid : Csr.Valid vlist elist) (hsize : w.size = elist.length) {v : Nat}
    (hv : v + 1 < vlist.length) :
    Csr.row vlist w.toList v = (Csr.row vlist elist v).map (weight v) := by
  have h0 := hvalid.getD_nonneg (show v < vlist.length by omega)
  have hle := hvalid.getD_le hv
  apply List.ext_getElem?
  intro i
  rw [List.getElem?_map, Csr.row, Csr.row, List.getElem?_drop, List.getElem?_drop]
  by_cases hi : (vlist.getD v 0).toNat + i < (vlist.getD (v + 1) 0).toNat
  · rw [List.getElem?_take_of_lt hi, List.getElem?_take_of_lt hi,
      List.getElem?_eq_getElem (show (vlist.getD v 0).toNat + i < elist.length by omega),
      Option.map_some, Block.toList_getElem?]
    refine ⟨by omega, ?_⟩
    have hsrc : IsSource vlist v (((vlist.getD v 0).toNat + i : Nat) : Int) :=
      ⟨hv, by omega, by omega⟩
    rw [h v _ hsrc, Int.toNat_natCast, List.getD_eq_getElem?_getD, List.getElem?_eq_getElem (by omega)]
    rfl
  · rw [List.getElem?_take_eq_none (by omega), List.getElem?_take_eq_none (by omega)]
    rfl

theorem write_size {e n : Int} {x : M} (hw : w.size = n) :
    Run.Meets Run.AnyFault (w.write e x) (fun w' => w'.size = n) := by
  rw [Block.write, Block.meets_modify]
  by_cases h : w.InB e
  · exact Or.inl ⟨h, hw⟩
  · exact Or.inr ⟨h, trivial⟩

/-- A loop over the edges of all rows keeps the size if every edge does. -/
theorem forRows_size {f : Int → Int → Block M → Run (Block M)} {n : Int}
    (hf : ∀ v e w, w.size = n → Run.Meets Run.AnyFault (f v e w) (fun w' => w'.size = n)) (m : Nat)
    (hw : w.size = n) : Run.Meets Run.AnyFault
      (Run.forLoop (fun v => forEdges (f v) vlist v) m 0 w) (fun w' => w'.size = n) := by
  apply Run.meets_forLoop (fun _ (w : Block M) => w.size = n) (0 + m) _ _ _ _ rfl hw
  intro v w _ hw
  unfold forEdges
  refine Run.any_bind fun a => Run.any_bind fun b => ?_
  exact Run.meets_forLoop (fun _ (w : Block M) => w.size = n) _ (fun e w _ hw => hf v e w hw) _ _ _ rfl
    hw

theorem size_ite {c : Prop} [Decidable c] {n : Int} {f : Run (Block M)} (hw : w.size = n)
    (hf : Run.Meets Run.AnyFault f (fun w' => w'.size = n)) :
    Run.Meets Run.AnyFault (if c then f else pure w) (fun w' => w'.size = n) := by
  rw [Run.meets_ite]
  exact ⟨fun _ => hf, fun _ => hw⟩

variable [CommMonoid M] {d : Block M}

theorem setWeight_size {n e x y : Int} (hw : w.size = n) :
    Run.Meets Run.AnyFault (setWeight d V e x y w) (fun w' => w'.size = n) := by
  unfold setWeight
  apply (size_ite hw (Run.any_bind fun _ => Run.any_bind fun _ => write_size hw)).bind
  intro w hw
  apply (size_ite hw (Run.any_bind fun _ => write_size hw)).bind
  intro w hw
  apply (size_ite hw (Run.any_bind fun _ => write_size hw)).bind
  intro w hw
  exact size_ite hw (write_size hw)

theorem gcnNormCsr_size {fresh : Int → M} (hrun : gcnNormCsr fresh vlist elist d V = .ok w) :
    w.size = elist.length := by
  refine (forRows_size (fun v e w hw => ?_) V rfl).of_ok hrun
  unfold normEdge
  exact Run.any_bind fun _ => Run.any_bind fun _ => Run.any_bind fun _ => write_size hw

theorem gcnNormCsrCompress_size {fresh : Int → M}
    (hrun : gcnNormCsrCompress fresh vlist elist d V k = .ok w) : w.size = elist.length := by
  refine (forRows_size (fun v e w hw => ?_) (V + k) rfl).of_ok hrun
  unfold normEdgeCompress
  exact Run.any_bind fun _ => setWeight_size hw

theorem gcnNormCsr_rows (h : Csr.Valid vlist elist) (hlen : vlist.length = V + 1)
    (hent : ∀ v, v < V → ∀ x ∈ Csr.row vlist elist v, 0 ≤ x ∧ x < (V : Int)) (hd : d.size = V)
    (fresh : Int → M) : ∃ w, gcnNormCsr fresh vlist elist d V = .ok w ∧ ∀ v, v < V →
      Csr.row vlist w.toList v =
        (Csr.row vlist elist v).map fun x => factor d V v * factor d V x := by
  obtain ⟨w, hrun, hw⟩ := gcnNormCsr_eq h hlen hent hd fresh
  refine ⟨w, hrun, fun v hv => ?_⟩
  rw [hw.row_eq h (gcnNormCsr_size hrun) (by omega)]
  apply List.map_congr_left
  intro x hx
  rw [factor_vertex (by omega), factor_vertex (hent v hv x hx).2]

theorem gcnNormCsrCompress_rows (hg : RuleGraph vlist elist V k) (hd : d.size = V)
    (fresh : Int → M) : ∃ w, gcnNormCsrCompress fresh vlist elist d V k = .ok w ∧
      w.size = elist.length ∧ ∀ v, v < V + k → Csr.row vlist w.toList v =
        (Csr.row vlist elist v).map fun x => factor d V v * factor d V x := by
  obtain ⟨w, hrun, hw⟩ := gcnNormCsrCompress_eq hg hd fresh
  have hlen := hg.length
  exact ⟨w, hrun, gcnNormCsrCompress_size hrun, fun v hv =>
    hw.row_eq hg.valid (gcnNormCsrCompress_size hrun) (by omega)⟩

end Weights

/-! ## A pass as a sum over the nodes -/

section Passes

variable {R : Type} [CommSemiring R] {vlist elist : List Int} {d : Block R} {V k n : Nat}
  {x acc : Nat → R}

/-- The weight of the entries `y` of row `v`, all together. -/
def nodeWeight (vlist elist : List Int) (d : Block R) (V v y : Nat) : R :=
  (Csr.row vlist elist v).count (y : Int) • (factor d V v * factor d V y)

theorem entryWeight_map (es : List Int) (f : Int → R) (y : Int) :
    entryWeight es (es.map f) y = es.count y • f y := by
  induction es with
  | nil => simp [entryWeight]
  | cons e es ih =>
    rw [entryWeight] at ih ⊢
    rw [List.map_cons, List.zip_cons_cons, List.map_cons, List.sum_cons, ih, List.count_cons, add_nsmul,
      add_comm]
    congr 1
    by_cases he : e = y
    · subst he
      simp
    · simp [he]

/-- The sum over a list of nodes, node by node. -/
theorem sum_map_eq_sum_count (f : Int → R) {l : List Int} (h : ∀ x ∈ l, 0 ≤ x ∧ x < (n : Int)) :
    (l.map f).sum = ∑ z ∈ Finset.range n, l.count (z : Int) • f z := by
  induction l with
  | nil => simp
  | cons a l ih =>
    obtain ⟨h0, ha⟩ := h a List.mem_cons_self
    obtain ⟨m, rfl⟩ := Int.eq_ofNat_of_zero_le h0
    have hterm : ∀ z ∈ Finset.range n, ((m : Int) :: l).count (z : Int) • f z =
        l.count (z : Int) • f z + if m = z then f z else 0 := by
      intro z _
      rw [List.count_cons, add_nsmul]
      by_cases hz : m = z
      · simp [hz]
      · simp [hz]
    rw [List.map_cons, List.sum_cons, ih fun x hx => h x (List.mem_cons_of_mem _ hx),
      Finset.sum_congr rfl hterm, Finset.sum_add_distrib, Finset.sum_ite_eq,
      if_pos (Finset.mem_range.mpr (by omega)), add_comm]

/-- A pass over rows whose weights are products. -/
theorem passRows_eq {w : List R} (hlen : vlist.length = n + 1)
    (hw : ∀ v, v < n → Csr.row vlist w v =
      (Csr.row vlist elist v).map fun z => factor d V v * factor d V z) (y : Nat) :
    passRows vlist elist w x y =
      ∑ v ∈ Finset.range n, x v * nodeWeight vlist elist d V v y := by
  rw [passRows, hlen, Nat.add_sub_cancel]
  apply Finset.sum_congr rfl
  intro v hv
  rw [hw v (Finset.mem_range.mp hv), entryWeight_map, nodeWeight]

/-- Level after level, the passes are the sweeps. -/
theorem forLoop_sweeps {nodes : Finset Nat} {base : Nat → Prop} [DecidablePred base]
    {w : Nat → Nat → R} {lv : Nat → Nat} {m : Nat} (body : Int → (Nat → R) → Run (Nat → R))
    (hbody : ∀ (i : Nat) acc, i < m → body i acc = .ok (sweep nodes base w lv x i acc)) :
    Run.forLoop body m 0 (fun _ => 0) = .ok (sweeps nodes base w lv x m) := by
  have hmeets : Run.Meets (fun _ => False) (Run.forLoop body m 0 (fun _ => 0))
      (fun acc => 0 ≤ (m : Int) ∧ acc = sweeps nodes base w lv x (m : Int).toNat) := by
    refine Run.meets_forLoop (fun i acc => 0 ≤ i ∧ acc = sweeps nodes base w lv x i.toNat) (m : Int) ?_
      _ 0 _ (by omega) ⟨Int.le_refl 0, rfl⟩
    rintro i acc hi ⟨h0, rfl⟩
    obtain ⟨i, rfl⟩ := Int.eq_ofNat_of_zero_le h0
    rw [hbody i _ (by omega), Run.meets_ok]
    exact ⟨by omega, rfl⟩
  obtain ⟨acc, hrun, -, rfl⟩ := hmeets.exists_ok fun e he => he.elim
  exact hrun

variable [Inhabited R]

omit [CommSemiring R] in
/-- The graph that `splice_csr` returns, row by row. -/
theorem spliceCsr_rows {w : List R} {index : List Bool} (hvalid : Csr.Valid vlist elist)
    (hlen : vlist.length = n + 1) (hsize : w.length = elist.length) (hindex : index.length = n) :
    ∃ vl el wl, spliceCsr vlist elist w index = .ok (vl, el, wl) ∧ vl.length = n + 1 ∧
      ∀ v, v < n → Csr.row vl el v = maskedRow vlist elist index v ∧
        Csr.row vl wl v = maskedRow vlist w index v := by
  have hn : vlist.length - 1 = n := by omega
  obtain ⟨s, hrun, hs⟩ := spliceLoop_eq false false hvalid hsize (hindex.trans hn.symm)
  rw [hn] at hs
  refine ⟨s.backVlist, s.backElist, s.backWeight, ?_, ?_, fun v hv => ⟨?_, ?_⟩⟩
  · rw [spliceCsr, hrun]
    rfl
  · rw [hs.offsets, Csr.length_offsets, length_splicedRows]
  · rw [hs.offsets, hs.edges.entries]
    exact row_spliced hv
  · rw [hs.offsets, hs.edges.weights, offsets_splicedRows hsize]
    exact row_spliced hv

/-- Splicing leaves the rows of the level. -/
theorem levelPass_eq {w : List R} {mask : Block Bool} {m : Nat} {lv : Nat → Nat}
    (hg : RuleGraph vlist elist V k) (hsize : w.length = elist.length)
    (hw : ∀ v, v < V + k → Csr.row vlist w v =
      (Csr.row vlist elist v).map fun z => factor d V v * factor d V z)
    (hmask : LevelMask (V + k) m lv mask) {i : Nat} (hi : i < m) :
    levelPass vlist elist w mask V k x i acc = .ok (sweep (Finset.range (V + k)) (fun v => v < V)
      (nodeWeight vlist elist d V) lv x i acc) := by
  obtain ⟨vl, el, wl, hrun, hlen, hrows⟩ := spliceCsr_rows hg.valid hg.length hsize
    (show (maskRow mask (V + k) i).length = V + k from length_maskRow)
  rw [levelPass, hrun, Run.ok_bind]
  refine congrArg Except.ok (funext fun y => ?_)
  dsimp only
  rw [sweep, Finset.sum_filter, passRows, hlen, Nat.add_sub_cancel]
  congr 1
  apply Finset.sum_congr rfl
  intro v hv
  have hv := Finset.mem_range.mp hv
  rw [(hrows v hv).1, (hrows v hv).2, maskedRow, maskedRow, hmask.row v i hv (by omega) (by omega)]
  by_cases hl : lv v = i
  · rw [if_pos hl, if_pos (decide_eq_true (by omega)), if_pos (decide_eq_true (by omega)), hw v hv,
      entryWeight_map, nodeWeight]
  · rw [if_neg hl, if_neg (by rw [decide_eq_true_iff]; omega)]
    exact mul_zero _

end Passes

/-! ## A pass along edges -/

section Edges

variable {R : Type} [CommSemiring R] {vlist elist : List Int} {V k n : Nat}

/-- The edges, row by row. -/
theorem sum_edges_eq (h : Csr.Valid vlist elist) (hn : n < vlist.length) (f : Nat → R) :
    ∑ e ∈ Finset.range (vlist.getD n 0).toNat, f e = ∑ v ∈ Finset.range n,
      ∑ e ∈ Finset.Ico (vlist.getD v 0).toNat (vlist.getD (v + 1) 0).toNat, f e := by
  induction n with
  | zero =>
    rw [h.getD_zero]
    rfl
  | succ n ih =>
    have hmono := h.getD_mono (show n ≤ n + 1 by omega) hn
    rw [Finset.sum_range_succ, ← ih (by omega), Finset.range_eq_Ico, Finset.range_eq_Ico,
      Finset.sum_Ico_consecutive _ (Nat.zero_le _) (by omega)]

/-- The entries `y` of a part of a list. -/
theorem sum_Ico_eq_count (l : List Int) (y : Int) (c : R) {a b : Nat} (hab : a ≤ b)
    (hb : b ≤ l.length) : ∑ e ∈ Finset.Ico a b, (if l.getD e 0 = y then c else 0) =
      ((l.take b).drop a).count y • c := by
  induction b, hab using Nat.le_induction with
  | base =>
    rw [Finset.Ico_self, Finset.sum_empty, List.drop_eq_nil_of_le (by rw [List.length_take]; omega),
      List.count_nil, zero_nsmul]
  | succ b hab ih =>
    rw [Finset.sum_Ico_succ_top hab, ih (by omega), List.take_succ_eq_append_getElem (by omega),
      List.drop_append_of_le_length (by rw [List.length_take]; omega), List.count_append, add_nsmul,
      List.count_singleton, List.getD_eq_getElem?_getD, List.getElem?_eq_getElem (by omega),
      Option.getD_some]
    congr 1
    by_cases hy : l[b] = y
    · simp [hy]
    · simp [hy]

variable {src dst : Block Int} {w d : Block R} {index : List Bool} {x acc : Nat → R} {lv : Int → Nat}
  {mask : Block Bool}

/-- `gcn_norm_coo` gives the edges of a graph without rules the weights that `gcn_norm_csr` gives. -/
theorem gcnNormCoo_eq (h : Csr.Valid vlist elist) (hlen : vlist.length = V + 1)
    (hlast : vlist.getD V 0 = elist.length) (hint : (elist.length : Int) < intBound)
    (hent : ∀ v, v < V → ∀ x ∈ Csr.row vlist elist v, 0 ≤ x ∧ x < (V : Int)) (hd : d.size = V)
    (fresh : Int → R) (hsrc : src.size = elist.length) (hdst : dst.size = elist.length)
    (hcells : ∀ v e, IsSource vlist v e → src.cells e = v ∧ dst.cells e = elist.getD e.toNat 0) :
    ∃ w, gcnNormCoo fresh src dst d = .ok w ∧
      Weighted vlist elist (fun u z => factor d V u * factor d V z) w := by
  have hmeets : Run.Meets (fun _ => False) (gcnNormCoo fresh src dst d)
      (fun w => 0 ≤ (src.size.toNat : Int) ∧ w.size = elist.length ∧
        ∀ v e, e < (src.size.toNat : Int) → IsSource vlist v e →
          w.cells e = factor d V v * factor d V (elist.getD e.toNat 0)) := by
    refine Run.meets_forLoop (fun m (w : Block R) => 0 ≤ m ∧ w.size = elist.length ∧
      ∀ v e, e < m → IsSource vlist v e →
        w.cells e = factor d V v * factor d V (elist.getD e.toNat 0)) (src.size.toNat : Int) ?_ _ 0 _
      (by omega) ⟨Int.le_refl 0, hsrc, fun v e he hs => by have := hs.range h; omega⟩
    rintro e w he ⟨h0, hsize, hw⟩
    obtain ⟨v, -, hs⟩ := exists_source h (by omega : V < vlist.length) h0 (by omega)
    have hr := hs.range h
    have hv := hs.1
    have hx := hent v (by omega) _ ((mem_row_iff h).mpr ⟨e, hs, rfl⟩)
    obtain ⟨hse, hde⟩ := hcells v e hs
    rw [Block.read_eq (show src.InB e from ⟨h0, by omega⟩), Run.ok_bind, hse,
      Block.read_eq (show d.InB v from ⟨by omega, by omega⟩), Run.ok_bind,
      Block.read_eq (show dst.InB e from ⟨h0, by omega⟩), Run.ok_bind, hde,
      Block.read_eq (show d.InB (elist.getD e.toNat 0) from ⟨hx.1, by omega⟩), Run.ok_bind,
      Block.write_eq (show w.InB e from ⟨h0, by omega⟩), Run.ok_bind, RePair.toInt,
      if_pos (by omega), Run.pure_bind, Run.meets_pure]
    refine ⟨by omega, hsize, fun u c hc hu => ?_⟩
    by_cases hce : c = e
    · subst hce
      obtain rfl := hs.unique h hu
      rw [Block.cells_upd_self, factor_vertex (by omega), factor_vertex hx.2]
    · rw [Block.cells_upd_ne _ _ hce]
      exact hw u c (by omega) hu
  obtain ⟨w, hrun, -, -, hw⟩ := hmeets.exists_ok fun e he => he.elim
  refine ⟨w, hrun, fun v e hs => hw v e ?_ hs⟩
  have := hs.range h
  omega

/-- A pass along the edges whose sources are selected. -/
theorem passEdges_eq (h : Csr.Valid vlist elist) (hlen : vlist.length = n + 1)
    (hlast : vlist.getD n 0 = elist.length) (hsize : src.size = elist.length)
    (hcells : ∀ v e, IsSource vlist v e → src.cells e = v ∧ dst.cells e = elist.getD e.toNat 0)
    (hw : Weighted vlist elist (fun u z => factor d V u * factor d V z) w) {p : Nat → Prop}
    [DecidablePred p] (hp : ∀ v e : Nat, IsSource vlist v e → (index.getD e false = true ↔ p v))
    (y : Nat) : passEdges src dst w index x y =
      ∑ v ∈ Finset.range n with p v, x v * nodeWeight vlist elist d V v y := by
  rw [passEdges, hsize, Int.toNat_natCast, Finset.sum_filter, ← Int.toNat_natCast elist.length, ← hlast,
    sum_edges_eq h (by omega)]
  apply Finset.sum_congr rfl
  intro v hv
  have hv := Finset.mem_range.mp hv
  have hrow := h.getD_le (show v + 1 < vlist.length by omega)
  have h0 := h.getD_nonneg (show v < vlist.length by omega)
  have hmono := h.getD_mono (show v ≤ v + 1 by omega) (by omega)
  -- all edges of the row have the same source and, if they lead to `y`, the same weight
  have hterm : ∀ e ∈ Finset.Ico (vlist.getD v 0).toNat (vlist.getD (v + 1) 0).toNat,
      (if index.getD e false ∧ dst.cells e = y then x (src.cells e).toNat * w.cells e else 0) =
        if elist.getD e 0 = y then
          (if p v then x v * (factor d V v * factor d V y) else 0) else 0 := by
    intro e he
    have he := Finset.mem_Ico.mp he
    have hs : IsSource vlist v e := ⟨by omega, by omega, by omega⟩
    have hsel := hp v e hs
    obtain ⟨hsrc, hdst⟩ := hcells v e hs
    rw [hsrc, hdst, hw v e hs, Int.toNat_natCast, Int.toNat_natCast]
    by_cases hy : elist.getD e 0 = y
    · by_cases hpv : p v
      · rw [if_pos ⟨hsel.mpr hpv, hy⟩, if_pos hy, if_pos hpv, hy]
      · rw [if_neg fun hc => hpv (hsel.mp hc.1), if_pos hy, if_neg hpv]
    · rw [if_neg fun hc => hy hc.2, if_neg hy]
  rw [Finset.sum_congr rfl hterm, sum_Ico_eq_count _ _ _ (by omega) (by omega)]
  by_cases hpv : p v
  · rw [if_pos hpv, if_pos hpv, nodeWeight, Csr.row, nsmul_eq_mul, nsmul_eq_mul,
      mul_left_comm]
  · rw [if_neg hpv, if_neg hpv, nsmul_zero]

/-- The edges of a level are those from the nodes of the level. -/
theorem edgeLevelPass_eq {m : Nat} (h : Coo vlist elist V k src dst lv)
    (hw : Weighted vlist elist (fun u z => factor d V u * factor d V z) w)
    (hmask : LevelMask elist.length m (fun e => lv (src.cells e)) mask) {i : Nat} (hi : i < m) :
    edgeLevelPass src dst w mask V x i acc = sweep (Finset.range (V + k)) (fun v => v < V)
      (nodeWeight vlist elist d V) (fun v => lv v) x i acc := by
  have hselect : ∀ v e : Nat, IsSource vlist v e →
      ((maskRow mask src.size.toNat i).getD e false = true ↔ lv v = i) := by
    intro v e hs
    have hr := hs.range h.leveled.graph.valid
    rw [h.srcSize, Int.toNat_natCast, hmask.row e i (by omega) (by omega) (by omega),
      decide_eq_true_iff, (h.cells hs).1]
    omega
  funext y
  rw [edgeLevelPass, sweep, passEdges_eq h.leveled.graph.valid h.leveled.graph.length
    h.leveled.last h.srcSize (fun _ _ hs => h.cells hs) hw hselect]

end Edges

/-! ## The nodes as a graph with levels -/

section Transfer

variable {R : Type} [CommSemiring R] {vlist elist : List Int} {d : Block R} {V k : Nat}

theorem nodeWeight_levelled {src : Nat → Int} {lv : Int → Nat}
    (h : Ranked vlist elist V k src (fun _ => true) lv) :
    Levelled (Finset.range (V + k)) (fun v => v < V) (nodeWeight vlist elist d V)
      (fun v => lv v) := by
  refine ⟨fun x _ => ?_, fun x _ z _ hz hle => ?_⟩
  · rw [h.vertex_iff]
    omega
  · rw [nodeWeight, List.count_eq_zero_of_not_mem, zero_nsmul]
    intro hmem
    have hlt := h.lt_of_points rfl hmem (show V ≤ z by omega)
    omega

theorem sum_map_indicator (ys : List Int) (y : Int) :
    (ys.map fun x => if x = y then (1 : R) else 0).sum = ys.count y := by
  induction ys with
  | nil => simp
  | cons a ys ih =>
    rw [List.map_cons, List.sum_cons, ih, List.count_cons]
    by_cases ha : a = y
    · simp [ha, add_comm]
    · simp [ha]

/-- What arrives at `y` of one unit at a node: a vertex keeps it, and a rule passes it on to every `y`
of its expansion. -/
theorem exists_transfer (hg : RuleGraph vlist elist V k) (d : Block R) :
    ∃ T : Nat → Nat → R, Transfer (Finset.range (V + k)) (fun v => v < V)
        (nodeWeight vlist elist d V) T ∧
      ∀ u y ys, u < V + k → Expands (csrRhs V V vlist elist) (Csr.row vlist elist u) ys →
        ∑ z ∈ Finset.range (V + k), nodeWeight vlist elist d V u z * T z y =
          ys.count (y : Int) • (factor d V u * factor d V y) := by
  have hexp : ∀ x, ∃ ys, Expands (csrRhs V V vlist elist) [x] ys := fun x => hg.exists_expansion [x]
  choose val hval using fun y : Nat => exists_valued hexp fun x => if x = (y : Int) then (1 : R) else 0
  let T : Nat → Nat → R := fun z y =>
    if z < V then (if z = y then 1 else 0) else factor d V y * val y z
  -- with the factor of the node, both cases are one
  have hterm : ∀ z y : Nat, factor d V z * T z y = factor d V y * val y z := by
    intro z y
    by_cases hz : z < V
    · rw [show T z y = if z = y then 1 else 0 from if_pos hz,
        (hval y).terminal z (csrRhs_vertex (by omega))]
      by_cases hzy : z = y
      · subst hzy
        rw [if_pos rfl, if_pos rfl]
      · rw [if_neg hzy, if_neg (by omega), mul_zero, mul_zero]
    · rw [show T z y = factor d V y * val y z from if_neg hz, factor_rule (by omega), one_mul]
  have hsum : ∀ u y : Nat, u < V + k →
      ∑ z ∈ Finset.range (V + k), nodeWeight vlist elist d V u z * T z y =
        factor d V u * factor d V y * ((Csr.row vlist elist u).map fun z => val y z).sum := by
    intro u y hu
    rw [← List.sum_map_mul_left, sum_map_eq_sum_count (n := V + k) _ fun z hz => by
      have := hg.entries u hu z hz
      omega]
    apply Finset.sum_congr rfl
    intro z _
    rw [nodeWeight, nsmul_eq_mul, nsmul_eq_mul, mul_assoc, mul_assoc, hterm, mul_assoc]
  refine ⟨T, ⟨fun z y hz => if_pos hz, fun u hu hrule y => ?_⟩, fun u y ys hu hys => ?_⟩
  · rw [hsum u y (Finset.mem_range.mp hu), factor_rule (by omega), one_mul,
      show T u y = factor d V y * val y u from if_neg hrule,
      (hval y).rule u _ (csrRhs_row (by omega)), Int.toNat_natCast]
  · rw [hsum u y hu, (hval y).sum_eq hys, sum_map_indicator, nsmul_eq_mul, mul_comm]

end Transfer

/-! ## The compressed pass is the plain pass -/

section Result

variable {R : Type} [CommSemiring R] {vlist elist cvlist celist : List Int} {d : Block R}
  {V k : Nat} {lv : Int → Nat} {src : Nat → Int}

/-- What the sweeps over the compressed graph collect is the sum over the original one. -/
theorem sweeps_original (h : Ranked cvlist celist V k src (fun _ => true) lv) {m : Nat}
    (hm : ∀ x, x < V + k → lv x < m) (hsame : ∀ v, v < V → SameSuccessors vlist elist cvlist celist V v)
    (x : Nat → R) {y : Nat} (hy : y < V) :
    sweeps (Finset.range (V + k)) (fun v => v < V) (nodeWeight cvlist celist d V) (fun v => lv v) x m y =
      ∑ v ∈ Finset.range V, x v * nodeWeight vlist elist d V v y := by
  obtain ⟨T, hT, hrow⟩ := exists_transfer h.graph d
  rw [(nodeWeight_levelled h).sweeps_eq hT (Finset.mem_range.mpr (by omega)) hy
    fun v hv => hm v (by have := Finset.mem_range.mp hv; omega)]
  have hbase : (Finset.range (V + k)).filter (fun v => v < V) = Finset.range V := by
    ext v
    simp only [Finset.mem_filter, Finset.mem_range]
    omega
  rw [hbase]
  apply Finset.sum_congr rfl
  intro v hv
  have hv := Finset.mem_range.mp hv
  obtain ⟨ys, hys, hperm⟩ := hsame v hv
  rw [hrow v y ys (by omega) hys, nodeWeight, hperm.count_eq]

/-- One propagation over a graph without rules. -/
theorem plainPass_eq (horig : Csr.Valid vlist elist) (hlen : vlist.length = V + 1)
    (hent : ∀ v, v < V → ∀ x ∈ Csr.row vlist elist v, 0 ≤ x ∧ x < (V : Int)) (hd : d.size = V)
    (fresh : Int → R) (x : Nat → R) :
    ∃ out, plainPass fresh vlist elist d V x = .ok out ∧
      ∀ y, out y = ∑ v ∈ Finset.range V, x v * nodeWeight vlist elist d V v y := by
  obtain ⟨w, hrun, hrows⟩ := gcnNormCsr_rows horig hlen hent hd fresh
  refine ⟨passRows vlist elist w.toList x, ?_, passRows_eq hlen hrows⟩
  rw [plainPass, hrun]
  rfl

/-- One propagation over a compressed graph. -/
theorem compressedPass_eq [Inhabited R] (h : OrderInput cvlist celist V k)
    (hfits : RowsFit cvlist celist V k (V + k))
    (hsame : ∀ v, v < V → SameSuccessors vlist elist cvlist celist V v) (hd : d.size = V)
    (fresh : Int → R) :
    ∃ enough, ∀ fuel, enough ≤ fuel → ∀ x, ∃ out,
      compressedPass fresh fuel cvlist celist d V k x = .ok out ∧
      ∀ y, y < V → out y = ∑ v ∈ Finset.range V, x v * nodeWeight vlist elist d V v y := by
  obtain ⟨src, hsrc⟩ := exists_src h.graph.valid
  obtain ⟨lv, hlv⟩ := h.exists_level hsrc
  obtain ⟨enough, hmask⟩ := genMaskVertex_levelMask hlv.toRanked hlv.vertices hlv.referenced hfits
  obtain ⟨w, hw, hsize, hrows⟩ := gcnNormCsrCompress_rows h.graph hd fresh
  have hwlen : w.toList.length = celist.length := by
    rw [Block.length_toList, hsize, Int.toNat_natCast]
  refine ⟨enough, fun fuel hfuel x => ?_⟩
  obtain ⟨mask, m, hrun, hheight, hlevel⟩ := hmask fuel hfuel
  have hlevels := forLoop_sweeps (levelPass cvlist celist w.toList mask V k x) fun i acc hi =>
    levelPass_eq h.graph hwlen hrows hlevel hi
  refine ⟨sweeps (Finset.range (V + k)) (fun v => v < V) (nodeWeight cvlist celist d V)
    (fun v => lv v) x m, ?_, fun y hy => sweeps_original hlv.toRanked (fun v hv => ?_) hsame x hy⟩
  · rw [compressedPass, hw, Run.ok_bind, hrun, Run.ok_bind]
    exact hlevels
  · have := hheight.1 v (by omega) (by omega)
    omega

/-- One propagation over the edge list of a compressed graph. -/
theorem compressedEdgePass_eq (h : OrderInput cvlist celist V k)
    (hfits : RowsFit cvlist celist V k celist.length)
    (hsame : ∀ v, v < V → SameSuccessors vlist elist cvlist celist V v) (hd : d.size = V)
    (freshInt : Int → Int) (fresh : Int → R) :
    ∃ src dst enough, csr2coo freshInt cvlist celist = .ok (src, dst) ∧ ∀ fuel, enough ≤ fuel →
      ∀ x, ∃ out, compressedEdgePass fresh fuel src dst d V k x = .ok out ∧
      ∀ y, y < V → out y = ∑ v ∈ Finset.range V, x v * nodeWeight vlist elist d V v y := by
  obtain ⟨src, dst, lv, hrun, hcoo⟩ := h.exists_coo freshInt
  obtain ⟨enough, hmask⟩ := genMaskEdge_levelMask hcoo hfits
  obtain ⟨w, hw, hweight⟩ := gcnNormCooCompress_eq h.graph h.last hd fresh hcoo.srcSize hcoo.dstSize
    fun v e hs => hcoo.cells hs
  refine ⟨src, dst, enough, hrun, fun fuel hfuel x => ?_⟩
  obtain ⟨mask, m, hmaskrun, hheight, hlevel⟩ := hmask fuel hfuel
  have hlevels := forLoop_sweeps (fun i acc => pure (edgeLevelPass src dst w mask V x i acc))
    fun i acc hi => congrArg Except.ok (edgeLevelPass_eq hcoo hweight hlevel hi)
  refine ⟨sweeps (Finset.range (V + k)) (fun v => v < V) (nodeWeight cvlist celist d V)
    (fun v => lv v) x m, ?_, fun y hy => sweeps_original hcoo.leveled.toRanked (fun v hv => ?_) hsame x
      hy⟩
  · rw [compressedEdgePass, hw, Run.ok_bind, hmaskrun, Run.ok_bind]
    exact hlevels
  · have := hheight.1 v (by omega) (by omega)
    omega

/-- One propagation over the edge list of a graph without rules. -/
theorem plainEdgePass_eq (horig : Csr.Valid vlist elist) (hlen : vlist.length = V + 1)
    (hlast : vlist.getD V 0 = elist.length) (hint : (elist.length : Int) < intBound)
    (hent : ∀ v, v < V → ∀ x ∈ Csr.row vlist elist v, 0 ≤ x ∧ x < (V : Int)) (hd : d.size = V)
    (freshInt : Int → Int) (fresh : Int → R) :
    ∃ src dst, csr2coo freshInt vlist elist = .ok (src, dst) ∧ ∀ x, ∃ out,
      plainEdgePass fresh src dst d x = .ok out ∧
      ∀ y, out y = ∑ v ∈ Finset.range V, x v * nodeWeight vlist elist d V v y := by
  obtain ⟨src, dst, hcoo, hsrc, hdst, hcells⟩ := csr2coo_eq horig freshInt
  obtain ⟨w, hrun, hw⟩ := gcnNormCoo_eq horig hlen hlast hint hent hd fresh hsrc hdst hcells
  refine ⟨src, dst, hcoo, fun x =>
    ⟨passEdges src dst w (List.replicate src.size.toNat true) x, ?_, fun y => ?_⟩⟩
  · rw [plainEdgePass, hrun]
    rfl
  · -- no edge is left out
    have hall : ∀ v e : Nat, IsSource vlist v e →
        ((List.replicate src.size.toNat true).getD e false = true ↔ True) := by
      intro v e hs
      have hr := hs.range horig
      rw [List.getD_eq_getElem?_getD, List.getElem?_replicate, if_pos (by omega)]
      exact iff_true_intro rfl
    rw [passEdges_eq horig hlen hlast hsrc hcells hw hall, Finset.filter_true]

end Result

/-- Rule 2 of the nested graph stands for `0 1 0`, rule 3 for `0 1`. -/
theorem nested_sameSuccessors : ∀ v, v < 2 →
    SameSuccessors [0, 3, 5] [0, 1, 0, 0, 1] [0, 1, 2, 4, 6] [2, 3, 3, 0, 0, 1] 2 v := by
  have hpair : Expands (csrRhs 2 2 [0, 1, 2, 4, 6] [2, 3, 3, 0, 0, 1]) [0, 1] [0, 1] :=
    .terminal rfl (.terminal rfl .nil)
  have hrule : Expands (csrRhs 2 2 [0, 1, 2, 4, 6] [2, 3, 3, 0, 0, 1]) [3, 0] [0, 1, 0] :=
    .rule rfl hpair (.terminal rfl .nil)
  intro v hv
  obtain rfl | rfl : v = 0 ∨ v = 1 := by omega
  · exact ⟨[0, 1, 0], .rule rfl hrule .nil, .refl _⟩
  · exact ⟨[0, 1], .rule rfl hpair .nil, .refl _⟩

end Laconic.Graph
