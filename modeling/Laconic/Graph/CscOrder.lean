import Laconic.Graph.VertexOrder
import Laconic.RePair.Basics

/-!
# The order of a graph in CSC format, and its mask

`gen_vertex_order_csc` orders the rules by the edges between rules alone, and puts the vertices
behind all rules.  `gen_mask_vertex` turns an order into a matrix with one row for each level.
-/

namespace Laconic.Graph

open Levels
open RePair (intBound toInt)

/-! ## gen_vertex_order_csc -/

/-- The edges of the rules are counted. -/
def countRules (vlist elist : List Int) (vertexCnt ruleCnt : Nat) : Run (Block Int) :=
  Run.forLoop (fun src => forEdges (countEdge (Block.ofList elist) vertexCnt) vlist (src + vertexCnt))
    ruleCnt 0 (Block.alloc ruleCnt fun _ => 0)

/-- One round of the loop that puts the rules without in-edges on the worklist. -/
def startRule (vertexCnt src : Int) (s : VertexState) : Run VertexState := do
  let d ← s.inDegree.read src
  if d = 0 then do
    let order ← s.order.write (src + vertexCnt) 0
    pure { s with order := order, worklist := s.worklist ++ [src + vertexCnt] }
  else pure s

def genVertexOrderCsc (fuel : Nat) (vlist elist : List Int) (vertexCnt ruleCnt : Nat) :
    Run (Block Int × Int) := do
  let inDegree ← countRules vlist elist vertexCnt ruleCnt
  let s ← Run.forLoop (startRule vertexCnt) ruleCnt 0
    ⟨Block.alloc (vertexCnt + ruleCnt) fun _ => INIT, inDegree, []⟩
  let t ← Run.whileLoop (fun t : Int × VertexState => pure (!t.2.worklist.isEmpty))
    (vertexStep vlist elist vertexCnt) fuel (1, s)
  -- the vertices come behind all rules
  let order ← Run.forLoop (fun src (order : Block Int) => order.write src (t.1 - 1)) vertexCnt 0
    t.2.order
  pure (order, t.1)

/-! ## gen_mask_vertex -/

inductive GraphType where
  | csc
  | csr
  deriving DecidableEq, Repr

/-- The rows of the mask; its size is an `int`. -/
def genMask (depth : Block Int) (size : Nat) (mDepth : Int) : Run (Block Bool) := do
  -- `size` and `m_depth` are `int`s, so their product can overflow
  let cnt ← toInt (size * mDepth)
  Run.forLoop (fun d => Run.forLoop (fun s (mask : Block Bool) => do
    let x ← depth.read s
    mask.write (d * size + s) (decide (x = d))) size 0) mDepth.toNat 0 (Block.alloc cnt fun _ => false)

/-- The assertion at the start of `gen_mask_vertex` is not compiled. -/
def genMaskVertex (fuel : Nat) (vlist elist : List Int) (vertexCnt ruleCnt : Nat) :
    GraphType → Run (Block Bool × Int)
  | .csc => do
    let r ← genVertexOrderCsc fuel vlist elist vertexCnt ruleCnt
    let mask ← genMask r.1 (vertexCnt + ruleCnt) r.2
    pure (mask, r.2)
  | .csr => do
    let r ← genVertexOrderCsr fuel vlist elist vertexCnt ruleCnt
    let mask ← genMask r.1 (vertexCnt + ruleCnt) r.2
    pure (mask, r.2)

/-! ## The levels of the rules -/

section Csc

variable {vlist elist : List Int} {V k : Nat} {src : Nat → Int} {lv : Int → Nat}

/-- The edges from rules. -/
def fromRule (V : Nat) (x : Int) : Bool := decide ((V : Int) ≤ x)

theorem exists_fromRule (h : RuleGraph vlist elist V k)
    (hlast : vlist.getD (V + k) 0 = elist.length) :
    ∃ src lv, Ranked vlist elist V k src (fromRule V) lv :=
  exists_levels (fromRule V) h hlast fun _ hx => decide_eq_true hx

/-- The edges from rules before `m`: they come after those from vertices. -/
def countedTo (vlist : List Int) (V : Nat) (m : Int) (e : Nat) : Bool :=
  decide (vlist.getD V 0 ≤ (e : Int) ∧ (e : Int) < m)

/-- The in-degrees of the rules, with the edges that `seen` selects. -/
structure RuleDegrees (elist : List Int) (V k : Nat) (seen : Nat → Bool) (deg : Block Int) :
    Prop where
  size : deg.size = k
  cells : ∀ r : Int, 0 ≤ r → r < k → deg.cells r =
    (List.range elist.length).countP fun e => decide (elist.getD e 0 = V + r) && seen e

theorem RuleDegrees.congr {seen seen' : Nat → Bool} {deg : Block Int}
    (h : RuleDegrees elist V k seen deg) (hseen : ∀ e, e < elist.length → seen' e = seen e) :
    RuleDegrees elist V k seen' deg := by
  refine ⟨h.size, fun r hr0 hr => ?_⟩
  rw [h.cells r hr0 hr]
  congr 1
  apply List.countP_congr
  intro e he
  rw [hseen e (List.mem_range.mp he)]

/-- Counting one edge more is the visit of the edge read backwards. -/
theorem countEdge_meets {seen seen' : Nat → Bool} {deg : Block Int} {e : Nat}
    (h : RuleDegrees elist V k seen deg) (hlt : elist.getD e 0 < (V : Int) + k)
    (hv : Visit elist e seen' seen) :
    Run.Meets (fun _ => False) (countEdge (Block.ofList elist) V e deg)
      (RuleDegrees elist V k seen') := by
  rw [countEdge, Block.read_getD hv.lt 0, Run.ok_bind]
  by_cases hV : (V : Int) ≤ elist.getD e 0
  · rw [if_pos hV, Block.modify_eq ⟨by omega, by rw [h.size]; omega⟩, Run.meets_ok]
    refine ⟨h.size, fun r hr0 hr => ?_⟩
    have hc := hv.countP_eq (V + r)
    rw [Block.cells_upd]
    by_cases hrd : r = elist.getD e 0 - V
    · rw [if_pos hrd, ← hrd, h.cells r hr0 hr, ← hc, if_pos (by omega)]
      push_cast
      rfl
    · rw [if_neg hrd, h.cells r hr0 hr, ← hc, if_neg (by omega), Nat.add_zero]
  · rw [if_neg hV, Run.meets_pure]
    refine ⟨h.size, fun r hr0 hr => ?_⟩
    have hc := hv.countP_eq (V + r)
    rw [h.cells r hr0 hr, ← hc, if_neg (by omega), Nat.add_zero]

/-- Before the first rule no edge has been counted. -/
theorem degrees_alloc : RuleDegrees elist V k (countedTo vlist V (vlist.getD V 0))
    (Block.alloc k fun _ => 0) := by
  refine ⟨rfl, fun r _ _ => ?_⟩
  have hzero : (List.range elist.length).countP (fun e => decide (elist.getD e 0 = V + r) &&
      countedTo vlist V (vlist.getD V 0) e) = 0 := by
    rw [List.countP_eq_zero]
    intro e _
    rw [Bool.and_eq_true, countedTo]
    rintro ⟨-, hc⟩
    have := of_decide_eq_true hc
    omega
  rw [hzero]
  rfl

/-- Behind the last rule the edges from rules have been counted. -/
theorem countedTo_last (h : Ranked vlist elist V k src (fromRule V) lv) {e : Nat}
    (he : e < elist.length) :
    countedTo vlist V (vlist.getD (V + k) 0) e = fromRule V (src e) := by
  have hlen := h.graph.length
  obtain ⟨v, hv, hs, hsrc⟩ := h.exists_source_row he
  refine decide_eq_decide.mpr ?_
  rw [h.last, hsrc]
  by_cases hvV : V ≤ v
  · have := h.graph.valid.getD_mono hvV (by omega)
    have := hs.2.1
    omega
  · have := h.graph.valid.getD_mono (show v + 1 ≤ V by omega) (by omega)
    have := hs.2.2
    omega

/-- The in-degrees count the edges from rules. -/
theorem countRules_eq (h : Ranked vlist elist V k src (fromRule V) lv) :
    ∃ inDegree, countRules vlist elist V k = .ok inDegree ∧
      RuleDegrees elist V k (fun e => fromRule V (src e)) inDegree := by
  have hlen := h.graph.length
  have hlast := h.last
  have hmeets : Run.Meets (fun _ => False) (countRules vlist elist V k) (fun deg =>
      0 ≤ (k : Int) ∧
        RuleDegrees elist V k (countedTo vlist V (vlist.getD (V + (k : Int).toNat) 0)) deg) := by
    refine Run.meets_forLoop (fun i (deg : Block Int) => 0 ≤ i ∧
      RuleDegrees elist V k (countedTo vlist V (vlist.getD (V + i.toNat) 0)) deg) (k : Int)
      ?_ k 0 _ (by omega) ⟨Int.le_refl 0, degrees_alloc⟩
    rintro i deg hi ⟨h0, hdeg⟩
    obtain ⟨i, rfl⟩ := Int.eq_ofNat_of_zero_le h0
    rw [Int.toNat_natCast] at hdeg
    rw [show ((i : Int) + 1).toNat = i + 1 by omega, show (i : Int) + V = ((V + i : Nat) : Int) by
      push_cast; omega]
    refine (meets_forEdges h.graph.valid (by omega) (fun j (deg : Block Int) =>
      RuleDegrees elist V k (countedTo vlist V j) deg) (fun j deg' hs hdeg' => ?_) hdeg).mono
      fun deg' hdeg' => ⟨by omega, hdeg'⟩
    have hr := hs.range h.graph.valid
    obtain ⟨e, rfl⟩ := Int.eq_ofNat_of_zero_le hr.1
    have he : e < elist.length := by omega
    have hlow := h.graph.valid.getD_mono (Nat.le_add_right V i) (by omega)
    have hs₁ := hs.2.1
    exact countEdge_meets hdeg' (h.ends he).2.2 ⟨he, decide_eq_true (by omega),
      decide_eq_false (by omega), fun e' hne => (decide_eq_decide.mpr (by omega)).symm⟩
  obtain ⟨deg, hrun, -, hdeg⟩ := hmeets.exists_ok fun e he => he.elim
  exact ⟨deg, hrun, hdeg.congr fun e he => (countedTo_last h he).symm⟩

/-- A rule without edges from rules is at level 1. -/
theorem Ranked.level_one_iff (h : Ranked vlist elist V k src (fromRule V) lv) {x : Int}
    (hV : (V : Int) ≤ x) : lv x = 1 ↔
      ∀ e, e < elist.length → elist.getD e 0 = x → fromRule V (src e) = false := by
  have hbase : ¬ x < (V : Int) := by omega
  have hpos := h.level.pos x hbase
  have hle := h.level.le_iff x hbase 0
  constructor
  · intro hx e he hd
    by_contra hc
    rw [Bool.not_eq_false] at hc
    have hzero := hle.mp (by omega) e (Ranked.mem_filter he hc) hd
    have := h.vertex_iff.mp (show lv (src e) = 0 by omega)
    have := of_decide_eq_true hc
    omega
  · intro hno
    have := hle.mpr fun e he hd => by
      obtain ⟨he, hc⟩ := List.mem_filter.mp he
      rw [hno e (List.mem_range.mp he) hd] at hc
      cases hc
    omega

/-- The in-degree is 0 at level 1. -/
theorem RuleDegrees.eq_zero_iff (h : Ranked vlist elist V k src (fromRule V) lv) {deg : Block Int}
    (hdeg : RuleDegrees elist V k (fun e => fromRule V (src e)) deg) {r : Int} (hr0 : 0 ≤ r)
    (hr : r < k) : deg.cells r = 0 ↔ lv (V + r) = 1 := by
  rw [h.level_one_iff (by omega), hdeg.cells r hr0 hr, Int.natCast_eq_zero, countP_eq_zero_iff]
  rfl

/-- The first `i` rules have been looked at: those at level 1 have order 0. -/
structure FirstInv (V k : Nat) (lv : Int → Nat) (inDegree : Block Int) (i : Int)
    (s : VertexState) : Prop where
  nonneg : 0 ≤ i
  degree : s.inDegree = inDegree
  size : s.order.size = (V : Int) + k
  order : ∀ x : Int, s.order.cells x =
    if (V : Int) ≤ x ∧ x < (V : Int) + i ∧ lv x = 1 then 0 else INIT
  work : ∀ x, x ∈ s.worklist ↔ (V : Int) ≤ x ∧ x < (V : Int) + i ∧ lv x = 1
  nodup : s.worklist.Nodup

theorem startRule_meets (h : Ranked vlist elist V k src (fromRule V) lv) {inDegree : Block Int}
    (hdeg : RuleDegrees elist V k (fun e => fromRule V (src e)) inDegree) {i : Int} {s : VertexState}
    (hi : i < k) (hs : FirstInv V k lv inDegree i s) :
    Run.Meets (fun _ => False) (startRule V i s) (FirstInv V k lv inDegree (i + 1)) := by
  obtain ⟨h0, hd, hosize, horder, hwork, hnd⟩ := hs
  have hzero := hdeg.eq_zero_iff h h0 hi
  rw [startRule, hd, Block.read_eq ⟨h0, by rw [hdeg.size]; exact hi⟩, Run.ok_bind]
  by_cases hone : lv (V + i) = 1
  · rw [if_pos (hzero.mpr hone), Block.write_eq ⟨by omega, by omega⟩, Run.ok_bind,
      Run.meets_pure]
    refine ⟨by omega, rfl, hosize, fun x => ?_, fun x => ?_, ?_⟩
    · dsimp only
      by_cases hxi : x = i + V
      · subst hxi
        rw [Block.cells_upd_self, if_pos ⟨by omega, by omega, by rwa [Int.add_comm]⟩]
      · rw [Block.cells_upd_ne _ _ hxi, horder x]
        exact if_congr (by omega) rfl rfl
    · dsimp only
      rw [List.mem_append, List.mem_singleton, hwork]
      by_cases hxi : x = i + V
      · subst hxi
        exact iff_of_true (Or.inr rfl) ⟨by omega, by omega, by rwa [Int.add_comm]⟩
      · omega
    · dsimp only
      rw [← List.concat_eq_append]
      exact hnd.concat fun hmem => by have := (hwork _).mp hmem; omega
  · rw [if_neg (hzero.not.mpr hone), Run.meets_pure]
    have hne : ∀ x, ((V : Int) ≤ x ∧ x < (V : Int) + (i + 1) ∧ lv x = 1) ↔
        ((V : Int) ≤ x ∧ x < (V : Int) + i ∧ lv x = 1) := by
      intro x
      by_cases hxi : x = V + i
      · subst hxi
        exact iff_of_false (fun hc => hone hc.2.2) fun hc => hone hc.2.2
      · omega
    refine ⟨by omega, hd, hosize, fun x => ?_, fun x => ?_, hnd⟩
    · rw [horder x]
      exact if_congr (hne x).symm rfl rfl
    · rw [hwork, hne]

/-- All rules have been looked at: the first round can begin. -/
theorem FirstInv.round (h : Ranked vlist elist V k src (fromRule V) lv) {inDegree : Block Int}
    (hdeg : RuleDegrees elist V k (fun e => fromRule V (src e)) inDegree) {s : VertexState}
    (hs : FirstInv V k lv inDegree k s) : RoundInv elist V k src (fromRule V) lv 1 INIT 1 s := by
  obtain ⟨-, hd, hosize, horder, hwork, hnd⟩ := hs
  -- every edge from a rule is still to be visited
  have htodo : ∀ e, e < elist.length →
      todoOf src (fromRule V) lv 1 s.worklist e = fromRule V (src e) := by
    intro e he
    have hends := (h.ends he).1
    rw [todoOf]
    cases hc : fromRule V (src e) with
    | false => rfl
    | true =>
      have hV : (V : Int) ≤ src e := of_decide_eq_true hc
      have hpos := h.level.pos _ (show ¬ src e < (V : Int) by omega)
      rw [Bool.true_and, decide_eq_true_eq, hwork]
      omega
  have hfree : ∀ x, (V : Int) ≤ x →
      (Free elist (todoOf src (fromRule V) lv 1 s.worklist) x ↔ lv x = 1) := by
    intro x hV
    rw [h.level_one_iff hV]
    exact forall₂_congr fun e he => by rw [htodo e he]
  have hdeg' := hdeg.congr htodo
  refine ⟨⟨hosize, by rw [hd]; exact hdeg.size, fun r hr0 hr => ?_, fun x h0 hx => ?_,
    fun x hV hx hc => ?_, fun x hV hx hc => ?_, fun x => ?_, List.nodup_nil⟩, fun x => ?_,
    fun x hx => ?_, hnd⟩
  · rw [hd]
    exact hdeg'.cells r hr0 hr
  · rw [horder x, if_neg (by omega)]
  · have hone := (hfree x hV).mp hc
    rw [horder x, if_pos ⟨hV, hx, hone⟩, hone]
    rfl
  · rw [horder x, if_neg fun hone => hc ((hfree x hV).mpr hone.2.2)]
  · refine iff_of_false List.not_mem_nil ?_
    rintro ⟨hV, hx, hlv, hf⟩
    have := (hfree x hV).mp hf
    omega
  · rw [hwork]
    constructor
    · rintro ⟨hV, hx, hlv⟩
      exact ⟨by omega, hx, hlv⟩
    · rintro ⟨h0, hx, hlv⟩
      refine ⟨?_, hx, hlv⟩
      by_contra hlt
      rw [h.vertex_iff.mpr (by omega)] at hlv
      omega
  · exact decide_eq_true ((hwork x).mp hx).1

/-- Before the first round the rules without edges from rules have order 0. -/
theorem startRule_loop (h : Ranked vlist elist V k src (fromRule V) lv) {inDegree : Block Int}
    (hdeg : RuleDegrees elist V k (fun e => fromRule V (src e)) inDegree) :
    ∃ s, Run.forLoop (startRule V) k 0
        ⟨Block.alloc ((V : Int) + k) fun _ => INIT, inDegree, []⟩ = .ok s ∧
      RoundInv elist V k src (fromRule V) lv 1 INIT 1 s := by
  have hmeets := Run.meets_forLoop (E := fun _ => False) (FirstInv V k lv inDegree) (k : Int)
    (fun i s hi hs => startRule_meets h hdeg hi hs) k 0
    ⟨Block.alloc ((V : Int) + k) fun _ => INIT, inDegree, []⟩ (by omega)
    ⟨Int.le_refl 0, rfl, rfl, fun x => by rw [if_neg (by omega)]; rfl,
      fun x => iff_of_false List.not_mem_nil (by omega), List.nodup_nil⟩
  obtain ⟨s, hrun, hs⟩ := hmeets.exists_ok fun e he => he.elim
  exact ⟨s, hrun, hs.round h hdeg⟩

/-- `gen_vertex_order_csc` ends with the vertices behind the rules. -/
theorem genVertexOrderCsc_eq (h : Ranked vlist elist V k src (fromRule V) lv) :
    ∃ enough, ∀ fuel, enough ≤ fuel → ∃ (order : Block Int) (m : Nat),
      genVertexOrderCsc fuel vlist elist V k = .ok (order, (m : Int)) ∧
      order.size = (V : Int) + k ∧
      (∀ x : Int, 0 ≤ x → x < V → order.cells x = (m : Int) - 1) ∧
      (∀ x : Int, (V : Int) ≤ x → x < (V : Int) + k → order.cells x = (lv x : Int) - 1) ∧
      1 ≤ m ∧ (∀ x : Int, 0 ≤ x → x < (V : Int) + k → lv x < m) ∧
      (m = 1 ∨ ∃ x : Int, 0 ≤ x ∧ x < (V : Int) + k ∧ lv x + 1 = m) := by
  obtain ⟨inDegree, hrun, hdeg⟩ := countRules_eq h
  obtain ⟨s₀, hrun₀, hs₀⟩ := startRule_loop h hdeg
  obtain ⟨enough, hloop⟩ := vertexLoop_eq h hs₀
  refine ⟨enough, fun fuel hfuel => ?_⟩
  obtain ⟨m, s, hrun₁, hinv, hempty, hocc⟩ := hloop fuel hfuel
  have hpos : 0 < m := by omega
  have hstep : ((m : Int) + 1 - 1) = m := by omega
  rw [hstep, show (((1 : Nat) : Int) + 1 - 1) = 1 by rfl] at hrun₁
  -- the last loop writes the order of the vertices
  have hmeets : Run.Meets (fun _ => False) (Run.forLoop (fun src (order : Block Int) =>
      order.write src ((m : Int) - 1)) V 0 s.order) (fun order => 0 ≤ (V : Int) ∧
        order.size = (V : Int) + k ∧ ∀ x : Int, order.cells x =
          if 0 ≤ x ∧ x < (V : Int) then (m : Int) - 1 else s.order.cells x) := by
    refine Run.meets_forLoop (fun i (order : Block Int) => 0 ≤ i ∧ order.size = (V : Int) + k ∧
      ∀ x : Int, order.cells x = if 0 ≤ x ∧ x < i then (m : Int) - 1 else s.order.cells x) (V : Int)
      ?_ V 0 _ (by omega) ⟨Int.le_refl 0, hinv.inv.orderSize, fun x => by rw [if_neg (by omega)]⟩
    rintro i order hi ⟨h0, hosize, hcells⟩
    rw [Block.write_eq ⟨h0, by omega⟩, Run.meets_ok]
    refine ⟨by omega, hosize, fun x => ?_⟩
    by_cases hxi : x = i
    · subst hxi
      rw [Block.cells_upd_self, if_pos (by omega)]
    · rw [Block.cells_upd_ne _ _ hxi, hcells x]
      exact if_congr (by omega) rfl rfl
  obtain ⟨order, hrun₂, -, hosize, hcells⟩ := hmeets.exists_ok fun e he => he.elim
  refine ⟨order, m, ?_, hosize, fun x h0 hx => by rw [hcells x, if_pos ⟨h0, hx⟩],
    fun x hV hx => ?_, hpos, fun x h0 hx => hinv.below h hempty hpos h0 hx, ?_⟩
  · rw [genVertexOrderCsc, hrun, Run.ok_bind, hrun₀, Run.ok_bind, hrun₁, Run.ok_bind, hrun₂]
    rfl
  · rw [hcells x, if_neg (by omega), hinv.order_rule h hempty hpos hV hx]
  · exact hocc.imp_right fun hc => hc.2

end Csc

/-! ## The mask -/

section Mask

variable {depth : Block Int} {size m : Nat}

/-- Entries of different rows are apart. -/
theorem row_add_lt {d d' s s' : Int} (hs : s < size) (hs' : 0 ≤ s') (hd : d < d') :
    d * size + s < d' * size + s' := by
  have hmul := Int.mul_le_mul_of_nonneg_right (show d + 1 ≤ d' by omega) (Int.natCast_nonneg size)
  rw [Int.add_mul, Int.one_mul] at hmul
  omega

/-- One entry of the mask. -/
def MaskAt (depth : Block Int) (size : Nat) (mask : Block Bool) (d s : Int) : Prop :=
  mask.cells (d * size + s) = decide (depth.cells s = d)

theorem genMask_eq (hdepth : depth.size = size) (hfits : (size : Int) * m < intBound) :
    ∃ mask, genMask depth size m = .ok mask ∧ mask.size = (size : Int) * m ∧
      ∀ d s : Int, 0 ≤ d → d < m → 0 ≤ s → s < size → MaskAt depth size mask d s := by
  have hrow : ∀ (d : Int) (mask : Block Bool), d < m →
      (0 ≤ d ∧ mask.size = (size : Int) * m ∧ ∀ d' s : Int, 0 ≤ d' → d' < d → 0 ≤ s → s < size →
        MaskAt depth size mask d' s) →
      Run.Meets (fun _ => False) (Run.forLoop (fun s (mask : Block Bool) => do
        let x ← depth.read s
        mask.write (d * size + s) (decide (x = d))) size 0 mask)
      (fun mask => 0 ≤ d + 1 ∧ mask.size = (size : Int) * m ∧ ∀ d' s : Int, 0 ≤ d' → d' < d + 1 →
        0 ≤ s → s < size → MaskAt depth size mask d' s) := by
    rintro d mask hd ⟨hd0, hmsize, hdone⟩
    refine (Run.meets_forLoop (fun j (mask : Block Bool) => 0 ≤ j ∧ mask.size = (size : Int) * m ∧
      (∀ d' s : Int, 0 ≤ d' → d' < d → 0 ≤ s → s < size → MaskAt depth size mask d' s) ∧
      ∀ s : Int, 0 ≤ s → s < j → MaskAt depth size mask d s) (size : Int) ?_ size 0 mask (by omega)
      ⟨Int.le_refl 0, hmsize, hdone, fun s _ hs => by omega⟩).mono fun mask' hmask' => ?_
    · rintro j mask' hj ⟨hj0, hmsize', hdone', hcur⟩
      have hlt := row_add_lt hj (Int.le_refl 0) hd
      have hin : mask'.InB (d * size + j) := by
        have := Int.mul_nonneg hd0 (Int.natCast_nonneg size)
        rw [Int.mul_comm] at hmsize'
        exact ⟨by omega, by omega⟩
      rw [Block.read_eq ⟨hj0, by rw [hdepth]; exact hj⟩, Run.ok_bind, Block.write_eq hin,
        Run.meets_ok]
      refine ⟨by omega, hmsize', fun d' s h0 hd' hs0 hs => ?_, fun s hs0 hs => ?_⟩
      · have := row_add_lt hs hj0 hd'
        rw [MaskAt, Block.cells_upd_ne _ _ (by omega)]
        exact hdone' d' s h0 hd' hs0 hs
      · by_cases hsj : s = j
        · rw [MaskAt, hsj, Block.cells_upd_self]
        · rw [MaskAt, Block.cells_upd_ne _ _ (by omega)]
          exact hcur s hs0 (by omega)
    · obtain ⟨-, hmsize', hdone', hcur⟩ := hmask'
      refine ⟨by omega, hmsize', fun d' s h0 hd' hs0 hs => ?_⟩
      by_cases hdd : d' = d
      · rw [hdd]
        exact hcur s hs0 hs
      · exact hdone' d' s h0 (by omega) hs0 hs
  obtain ⟨mask, hrun, -, hmsize, hcells⟩ := (Run.meets_forLoop _ (m : Int) hrow m 0
    (Block.alloc ((size : Int) * m) fun _ => false) (by omega)
    ⟨Int.le_refl 0, rfl, fun d s _ hd => by omega⟩).exists_ok fun e he => he.elim
  refine ⟨mask, ?_, hmsize, hcells⟩
  rw [genMask, toInt, if_pos hfits, Run.pure_bind, Int.toNat_natCast]
  exact hrun

/-- Node `x` is set in row `d` of the mask. -/
def InRow (mask : Block Bool) (size : Nat) (levels : Int) (x : Nat) (d : Int) : Prop :=
  0 ≤ d ∧ d < levels ∧ mask.read (d * size + x) = .ok true

theorem genMask_rows (hdepth : depth.size = size) (hfits : (size : Int) * m < intBound) :
    ∃ mask, genMask depth size m = .ok mask ∧ ∀ x d, x < size →
      (InRow mask size m x d ↔ 0 ≤ d ∧ d < m ∧ depth.cells x = d) := by
  obtain ⟨mask, hmask, hmsize, hcells⟩ := genMask_eq hdepth hfits
  refine ⟨mask, hmask, fun x d hx => and_congr_right fun h0 => and_congr_right fun hd => ?_⟩
  have hxs : (x : Int) < size := by omega
  have hlt := row_add_lt hxs (Int.le_refl 0) hd
  have hnn := Int.mul_nonneg h0 (Int.natCast_nonneg size)
  rw [Int.mul_comm] at hmsize
  rw [Block.read_eq ⟨by omega, by omega⟩, hcells d x h0 hd (by omega) hxs]
  exact ⟨fun hc => of_decide_eq_true (Except.ok.inj hc), fun hc => by rw [decide_eq_true hc]⟩

theorem genMask_overflow (hbig : intBound ≤ (size : Int) * m) :
    genMask depth size m = .error .overflow := by
  rw [genMask, toInt, if_neg (by omega)]
  rfl

end Mask

/-! ## Orders and masks of rule graphs -/

section Longest

variable {vlist elist : List Int} {V k : Nat} {src : Nat → Int} {lv : Int → Nat}

/-- A path of rules is no longer than the level at its end. -/
theorem RuleChain.length_le (h : Ranked vlist elist V k src (fromRule V) lv) {l : List Nat} {r : Nat}
    (hp : RuleChain vlist elist V k l) (hr : l.getLast? = some r) : l.length ≤ lv r := by
  cases l with
  | nil => exact Nat.zero_le _
  | cons a l =>
    have hup : ∀ y z, Points vlist elist y z ∧ V ≤ y → z ∈ l → lv y < lv z := fun y z hyz hz =>
      h.lt_of_points (decide_eq_true (by omega)) hyz.1 (hp.rules z (List.mem_cons_of_mem _ hz)).1
    have hchain : (a :: l).IsChain fun y z => Points vlist elist y z ∧ V ≤ y :=
      hp.chain.imp_of_mem_imp fun y z hy _ hyz => ⟨hyz, (hp.rules y hy).1⟩
    have hle : lv a + l.length ≤ lv r := add_length_le hchain hup hr
    have hpos := h.level.pos (a : Int) (show ¬ (a : Int) < V by
      have := (hp.rules a List.mem_cons_self).1
      omega)
    rw [List.length_cons]
    omega

theorem Ranked.isGreatest_rules (h : Ranked vlist elist V k src (fromRule V) lv) {r : Nat}
    (hV : V ≤ r) (hr : r < V + k) :
    IsGreatest {n : Int | ∃ l, RuleChain vlist elist V k l ∧ l.getLast? = some r ∧
      (l.length : Int) = n + 1} ((lv r : Int) - 1) := by
  constructor
  · obtain ⟨n, hn⟩ := Nat.exists_eq_succ_of_ne_zero
      (Nat.ne_of_gt (h.level.pos (r : Int) (show ¬ (r : Int) < V by omega)))
    obtain ⟨a, l, hp, hlast, hlen, -⟩ := h.exists_rules hr hn
    refine ⟨a :: l, hp, hlast, ?_⟩
    rw [List.length_cons, hlen, hn]
    omega
  · rintro n ⟨l, hp, hlast, hn⟩
    have := hp.length_le h hlast
    omega

end Longest

/-- The chains of rules are so short that the size of the mask is an `int`. -/
def MaskFits (vlist elist : List Int) (V k : Nat) : Prop :=
  ∀ l, RuleChain vlist elist V k l → ((V + k : Nat) : Int) * ((l.length + 1 : Nat) : Int) < intBound

/-- The mask has as many rows as the longest chain has rules, and one for the vertices. -/
theorem maskFits_iff {vlist elist : List Int} {V k m : Nat} {src : Nat → Int} {lv : Int → Nat}
    (h : Ranked vlist elist V k src (fromRule V) lv) (hpos : 1 ≤ m)
    (hbelow : ∀ x : Int, 0 ≤ x → x < (V : Int) + k → lv x < m)
    (hocc : m = 1 ∨ ∃ x : Int, 0 ≤ x ∧ x < (V : Int) + k ∧ lv x + 1 = m) :
    MaskFits vlist elist V k ↔ ((V + k : Nat) : Int) * m < intBound := by
  constructor
  · intro hfits
    have hempty := hfits [] ⟨fun x hx => (List.not_mem_nil hx).elim, .nil⟩
    rcases hocc with rfl | ⟨x, h0, hx, hlx⟩
    · exact hempty
    · cases hn : lv x with
      | zero =>
        obtain rfl : m = 1 := by omega
        exact hempty
      | succ n =>
        obtain ⟨a, l, hp, -, hlen, -⟩ := h.exists_rules (show x.toNat < V + k by omega)
          (by rwa [Int.toNat_of_nonneg h0])
        have := hfits _ hp
        rwa [List.length_cons, hlen, show n + 1 + 1 = m by omega] at this
  · intro hm l hp
    have hle : l.length + 1 ≤ m := by
      cases hl : l.getLast? with
      | none =>
        rw [List.getLast?_eq_none_iff.mp hl]
        exact hpos
      | some r =>
        have hr := hp.rules r (List.mem_of_getLast? hl)
        have := hp.length_le h hl
        have := hbelow r (by omega) (by omega)
        omega
    exact Int.lt_of_le_of_lt
      (Int.mul_le_mul_of_nonneg_left (Int.ofNat_le.mpr hle) (Int.natCast_nonneg _)) hm

/-- Every node is in the row of its order, and in no other. -/
theorem existsUnique_inRow {depth : Block Int} {size m x : Nat} {mask : Block Bool}
    (hmask : ∀ x d, x < size → (InRow mask size m x d ↔ 0 ≤ d ∧ d < m ∧ depth.cells x = d))
    (hx : x < size) (h0 : 0 ≤ depth.cells x) (hlt : depth.cells x < m) :
    ∃! d, InRow mask size m x d := by
  refine ⟨depth.cells x, (hmask x _ hx).mpr ⟨h0, hlt, rfl⟩, fun d hd => ?_⟩
  exact ((hmask x d hx).mp hd).2.2.symm

theorem genMaskVertex_overflow {vlist elist : List Int} {V k : Nat}
    (h : RuleGraph vlist elist V k) (hlast : vlist.getD (V + k) 0 = elist.length)
    (hbig : ¬ MaskFits vlist elist V k) :
    ∃ enough, ∀ fuel, enough ≤ fuel →
      genMaskVertex fuel vlist elist V k .csc = .error .overflow := by
  obtain ⟨src, lv, hlv⟩ := exists_fromRule h hlast
  obtain ⟨enough, hrun⟩ := genVertexOrderCsc_eq hlv
  refine ⟨enough, fun fuel hfuel => ?_⟩
  obtain ⟨order, m, hok, -, -, -, hpos, hbelow, hocc⟩ := hrun fuel hfuel
  rw [maskFits_iff hlv hpos hbelow hocc, Int.not_lt] at hbig
  rw [genMaskVertex, hok, Run.ok_bind]
  dsimp only
  rw [genMask_overflow hbig]
  rfl

/-- A vertex and `n` rules, each with a reference to the next; the last one refers to the vertex. -/
def chainRows (n : Nat) : List (List Int) :=
  (List.range (n + 1)).map fun u => [(((u + 1) % (n + 1) : Nat) : Int)]

section Chain

variable {n : Nat}

theorem length_chainRows : (chainRows n).length = n + 1 := by
  rw [chainRows, List.length_map, List.length_range]

theorem row_chainRows {u : Nat} (hu : u < n + 1) :
    Csr.row (Csr.offsets (chainRows n)) (chainRows n).flatten u =
      [(((u + 1) % (n + 1) : Nat) : Int)] := by
  rw [Csr.row_offsets (by rw [length_chainRows]; exact hu)]
  simp only [chainRows, List.getElem_map, List.getElem_range]

theorem length_flatten_chainRows : (chainRows n).flatten.length = n + 1 := by
  have hone : ∀ r ∈ chainRows n, r.length = 1 := by
    intro r hr
    obtain ⟨u, -, rfl⟩ := List.mem_map.mp hr
    rfl
  rw [List.length_flatten, List.map_eq_replicate_iff.mpr hone, List.sum_replicate_nat,
    length_chainRows, Nat.mul_one]

theorem chainRows_ruleGraph :
    RuleGraph (Csr.offsets (chainRows n)) (chainRows n).flatten 1 n := by
  have hlen : (Csr.offsets (chainRows n)).length = n + 1 + 1 := by
    rw [Csr.length_offsets, length_chainRows]
  have hmod : ∀ u, (u + 1) % (n + 1) < n + 1 := fun u => Nat.mod_lt _ (Nat.succ_pos n)
  refine ⟨Csr.valid_offsets, by rw [hlen]; omega, fun v hv x hx => ?_,
    acyclic_csrRhs (fun v => n - v) fun v hv hV x hx hx1 => ?_⟩
  · rw [row_chainRows (by omega), List.mem_singleton] at hx
    have := hmod v
    omega
  · rw [hlen] at hv
    rw [row_chainRows (by omega), List.mem_singleton] at hx
    -- only the last rule goes back to the vertex
    obtain hvn | rfl : v < n ∨ v = n := by omega
    · rw [Nat.mod_eq_of_lt (by omega)] at hx
      omega
    · rw [Nat.mod_self] at hx
      omega

theorem chainRows_getLast :
    (Csr.offsets (chainRows n)).getD (1 + n) 0 = (chainRows n).flatten.length := by
  rw [Csr.offsets_getD (by rw [length_chainRows]; omega), List.take_of_length_le]
  rw [length_chainRows]
  omega

/-- All rules are on one path. -/
theorem chainRows_ruleChain :
    RuleChain (Csr.offsets (chainRows n)) (chainRows n).flatten 1 n (List.range' 1 n) := by
  refine ⟨fun x hx => by rwa [List.mem_range'_1] at hx, List.isChain_iff_getElem.mpr fun i hi => ?_⟩
  rw [List.length_range'] at hi
  rw [List.getElem_range', List.getElem_range', Points, row_chainRows (by omega),
    Nat.mod_eq_of_lt (by omega), List.mem_singleton]
  omega

end Chain

end Laconic.Graph
