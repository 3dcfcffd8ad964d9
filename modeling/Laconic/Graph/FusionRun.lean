import Laconic.Graph.Fusion

/-!
# Runs of the fused schedule

For a rule the count of arrivals is enough: no in-neighbour gets more than one pass ahead of a rule,
so each of them has sent once when the count is reached.  A vertex has a pass of its own before
anything arrives, and its in-neighbours may get two passes ahead of what it waits for: then one of
them counts twice, in the place of one that has not sent at all.
-/

namespace Laconic.Graph

open Slp

/-- The states at the head of the outer loop. -/
inductive FusionReach (inDegree : Block Int) (vlist elist : List Int) (V k numP : Nat) :
    FusionState → Prop
  | start : FusionReach inDegree vlist elist V k numP (fusionStart V k numP)
  | step {s s' : FusionState} : FusionReach inDegree vlist elist V k numP s →
      s.activeCount < numP * (V + k) → fusionStep inDegree vlist elist V k numP s = .ok s' →
      FusionReach inDegree vlist elist V k numP s'

section Invariant

variable {vlist elist : List Int} {V k numP : Nat} {src : Nat → Nat} {s s' : FusionState}

theorem inSum_le {f g : Nat → Int} {w : Int}
    (h : ∀ e, e < elist.length → elist.getD e 0 = w → f e ≤ g e) :
    inSum elist f w ≤ inSum elist g w := by
  apply Finset.sum_le_sum
  intro e he
  split
  · next hd => exact h e (Finset.mem_range.mp he) hd
  · exact Int.le_refl 0

/-- What holds between two steps, whatever the graph. -/
structure FusionInv (elist : List Int) (V k numP : Nat) (src : Nat → Nat) (s : FusionState) :
    Prop where
  ok : FusionOk V k numP s
  nonneg : 0 ≤ s.step
  started : 0 < s.step → ∀ v : Int, 0 ≤ v → v < V → 1 ≤ s.PC.cells v
  ac : s.step = 0 → ∀ w : Int, s.AC.cells w = 0
  count : s.activeCount = ∑ v ∈ Finset.range (V + k), s.PC.cells (v : Int)
  past : ∀ v p : Int, 0 ≤ v → v < (V : Int) + k → 0 ≤ p → p < s.PC.cells v →
    s.order.cells (p * (V + k) + v) < s.step
  /-- An in-neighbour of a rule is level with it or one pass ahead. -/
  rule : ∀ e, e < elist.length → (V : Int) ≤ elist.getD e 0 →
    s.PC.cells (elist.getD e 0) ≤ s.PC.cells (src e) ∧
      s.PC.cells (src e) ≤ s.PC.cells (elist.getD e 0) + 1
  ruleAC : ∀ w : Int, (V : Int) ≤ w → w < (V : Int) + k → s.AC.cells w =
    inSum elist (fun e => s.PC.cells (src e) - s.PC.cells w) w
  ruleOrder : ∀ e p, e < elist.length → (V : Int) ≤ elist.getD e 0 → 0 ≤ p →
    p < s.PC.cells (elist.getD e 0) →
    s.order.cells (p * (V + k) + src e) < s.order.cells (p * (V + k) + elist.getD e 0)

namespace FusionInv

/-- All in-neighbours of a rule that propagates have propagated once more than it. -/
theorem rule_ready (h : FusionInv elist V k numP src s) {w : Int} (hV : (V : Int) ≤ w)
    (hw : w < (V : Int) + k) (ha : Active elist V numP src s w) :
    ∀ e, e < elist.length → elist.getD e 0 = w → s.PC.cells (src e) = s.PC.cells w + 1 := by
  have hready := ha.resolve_left fun hc => by omega
  have hle : ∀ e, e < elist.length → elist.getD e 0 = w →
      s.PC.cells (src e) - s.PC.cells w ≤ 1 := by
    intro e he hd
    have := (h.rule e he (by omega)).2
    rw [hd] at this
    omega
  have hall := eq_one_of_inSum hle (h.ruleAC w hV hw ▸ hready.1)
  intro e he hd
  have := hall e he hd
  omega

/-- An in-neighbour of a rule that propagates is level with it. -/
theorem rule_source (h : FusionInv elist V k numP src s) (hsrc : Sourced vlist elist V k src) {e : Nat}
    (he : e < elist.length) (hV : (V : Int) ≤ elist.getD e 0)
    (ha : Active elist V numP src s (src e)) : s.PC.cells (src e) = s.PC.cells (elist.getD e 0) := by
  have hends := hsrc.ends he
  have hle := (h.rule e he hV).1
  have hnonneg := (h.ok.pc (elist.getD e 0) hends.2.1 hends.2.2).1
  rcases ha with hstart | ⟨-, hzero | hall, -⟩
  · have := h.ok.start hstart.1 (src e) (by omega) (by omega)
    omega
  · omega
  · have := hall e he rfl
    omega

/-- An entry of a pass that is over does not change. -/
theorem order_old (hst : Stepped elist V k numP src s s') {v p : Int} (h0 : 0 ≤ v)
    (hv : v < (V : Int) + k) (hp : p ≠ s.PC.cells v) :
    s'.order.cells (p * (V + k) + v) = s.order.cells (p * (V + k) + v) := by
  rw [hst.order v p h0 hv, if_neg fun hc => hp hc.2]

theorem order_new (hst : Stepped elist V k numP src s s') {v : Int} (h0 : 0 ≤ v)
    (hv : v < (V : Int) + k) (ha : Active elist V numP src s v) :
    s'.order.cells (s.PC.cells v * (V + k) + v) = s.step := by
  rw [hst.order v _ h0 hv, if_pos ⟨ha, rfl⟩]

/-- A pass that is new after a step is the one of this step. -/
theorem new_pass (hst : Stepped elist V k numP src s s') {v p : Int} (h0 : 0 ≤ v)
    (hv : v < (V : Int) + k) (hp : p < s'.PC.cells v) (hold : ¬ p < s.PC.cells v) :
    Active elist V numP src s v ∧ p = s.PC.cells v := by
  rw [hst.pc v h0 hv] at hp
  by_cases ha : Active elist V numP src s v
  · rw [if_pos ha] at hp
    exact ⟨ha, by omega⟩
  · rw [if_neg ha] at hp
    omega

/-- The two ends of an edge to a rule never propagate together. -/
theorem rule_step (h : FusionInv elist V k numP src s) (hsrc : Sourced vlist elist V k src)
    (hst : Stepped elist V k numP src s s') {e : Nat} (he : e < elist.length)
    (hV : (V : Int) ≤ elist.getD e 0) :
    s'.PC.cells (elist.getD e 0) ≤ s'.PC.cells (src e) ∧
      s'.PC.cells (src e) ≤ s'.PC.cells (elist.getD e 0) + 1 := by
  have hends := hsrc.ends he
  have hold := h.rule e he hV
  rw [hst.pc _ hends.2.1 hends.2.2, hst.pc _ (by omega) (by omega)]
  by_cases ha : Active elist V numP src s (src e)
  · have hsame := h.rule_source hsrc he hV ha
    by_cases hb : Active elist V numP src s (elist.getD e 0)
    · have := h.rule_ready hV hends.2.2 hb e he rfl
      omega
    · rw [if_pos ha, if_neg hb]
      omega
  · rw [if_neg ha]
    split
    · next hb =>
      have := h.rule_ready hV hends.2.2 hb e he rfl
      omega
    · omega

/-- The activations of a rule are what its in-neighbours are ahead of it. -/
theorem ruleAC_step (h : FusionInv elist V k numP src s) (hsrc : Sourced vlist elist V k src)
    (hst : Stepped elist V k numP src s s') {w : Int} (hV : (V : Int) ≤ w)
    (hw : w < (V : Int) + k) :
    s'.AC.cells w = inSum elist (fun e => s'.PC.cells (src e) - s'.PC.cells w) w := by
  rw [hst.ac w (by omega) hw, hst.pc w (by omega) hw]
  by_cases ha : Active elist V numP src s w
  · rw [if_pos ha, if_pos ha, Int.zero_add]
    apply inSum_congr
    intro e he hd
    have hends := hsrc.ends he
    have := h.rule_ready hV hw ha e he hd
    rw [hst.pc _ (by omega) (by omega)]
    omega
  · rw [if_neg ha, if_neg ha, h.ruleAC w hV hw, ← inSum_add]
    apply inSum_congr
    intro e he _
    have hends := hsrc.ends he
    rw [hst.pc _ (by omega) (by omega)]
    omega

/-- A rule propagates after its in-neighbours. -/
theorem ruleOrder_step (h : FusionInv elist V k numP src s) (hsrc : Sourced vlist elist V k src)
    (hst : Stepped elist V k numP src s s') {e : Nat} {p : Int} (he : e < elist.length)
    (hV : (V : Int) ≤ elist.getD e 0) (hp0 : 0 ≤ p) (hp : p < s'.PC.cells (elist.getD e 0)) :
    s'.order.cells (p * (V + k) + src e) < s'.order.cells (p * (V + k) + elist.getD e 0) := by
  have hends := hsrc.ends he
  have hrule := h.rule e he hV
  by_cases hold : p < s.PC.cells (elist.getD e 0)
  · rw [order_old hst (by omega) (by omega) (by omega : p ≠ s.PC.cells (src e)),
      order_old hst hends.2.1 hends.2.2 (by omega)]
    exact h.ruleOrder e p he hV hp0 hold
  · obtain ⟨ha, rfl⟩ := new_pass hst hends.2.1 hends.2.2 hp hold
    have hready := h.rule_ready hV hends.2.2 ha e he rfl
    rw [order_new hst hends.2.1 hends.2.2 ha,
      order_old hst (by omega) (by omega) (by omega : _ ≠ s.PC.cells (src e))]
    exact h.past _ _ (by omega) (by omega) hp0 (by omega)

theorem step (h : FusionInv elist V k numP src s) (hsrc : Sourced vlist elist V k src)
    (hst : Stepped elist V k numP src s s') : FusionInv elist V k numP src s' := by
  have hstep := hst.step
  have hnonneg := h.nonneg
  refine ⟨⟨hst.pcSize, hst.acSize, hst.orderSize, fun v h0 hv => ?_, h.ok.passes, by omega⟩,
    by omega, fun _ v h0 hv => ?_, by omega, ?_, fun v p h0 hv hp0 hp => ?_,
    fun e he hV => h.rule_step hsrc hst he hV, fun w hV hw => h.ruleAC_step hsrc hst hV hw,
    fun e p he hV hp0 hp => h.ruleOrder_step hsrc hst he hV hp0 hp⟩
  · have hpc := h.ok.pc v h0 hv
    rw [hst.pc v h0 hv]
    split
    · next ha =>
      have := h.ok.lt_of_active h0 hv ha
      omega
    · omega
  · rw [hst.pc v h0 (by omega)]
    rcases Int.lt_or_eq_of_le h.nonneg with hpos | hzero
    · have := h.started hpos v h0 hv
      split <;> omega
    · have := h.ok.start hzero.symm v h0 (by omega)
      have ha : Active elist V numP src s v := Or.inl ⟨hzero.symm, hv⟩
      rw [if_pos ha]
      omega
  · rw [hst.count, h.count, ← Finset.sum_add_distrib]
    apply Finset.sum_congr rfl
    intro v hv
    rw [hst.pc v (by omega) (by have := Finset.mem_range.mp hv; omega)]
  · by_cases hold : p < s.PC.cells v
    · rw [order_old hst h0 hv (by omega)]
      have := h.past v p h0 hv hp0 hold
      omega
    · obtain ⟨ha, rfl⟩ := new_pass hst h0 hv hp hold
      rw [order_new hst h0 hv ha]
      omega

theorem initial (hnum : 1 ≤ numP) : FusionInv elist V k numP src (fusionStart V k numP) := by
  refine ⟨⟨rfl, rfl, rfl, fun v _ _ => ⟨Int.le_refl 0, by show (0 : Int) ≤ numP; omega⟩, hnum,
    fun _ v _ _ => rfl⟩, Int.le_refl 0, fun hc => absurd hc (Int.lt_irrefl 0), fun _ w => rfl, ?_,
    fun v p _ _ hp0 hp => ?_, fun e _ _ => ⟨Int.le_refl 0, show (0 : Int) ≤ 0 + 1 by decide⟩,
    fun w _ _ => ?_, fun e p _ _ hp0 hp => ?_⟩
  · show (0 : Int) = ∑ v ∈ Finset.range (V + k), 0
    rw [Finset.sum_const_zero]
  · have : p < 0 := hp
    omega
  · exact inSum_zero.symm
  · have : p < 0 := hp
    omega

end FusionInv

/-! ## Vertices -/

/-- No vertex propagates again while one of its in-neighbours has propagated more often than it and
another one less often. -/
def NoStandIn (inDegree : Block Int) (vlist elist : List Int) (V numP : Nat) (s : FusionState) :
    Prop :=
  ∀ w p q : Nat, w < V → (w : Int) ∈ Csr.row vlist elist p → (w : Int) ∈ Csr.row vlist elist q →
    isActive inDegree vlist elist V numP s w = .ok true → 1 ≤ s.PC.cells w →
    ¬ (s.PC.cells w < s.PC.cells p ∧ s.PC.cells q < s.PC.cells w)

/-- What holds between two steps while no in-neighbour of a vertex stands in for another one. -/
structure VertexFusionInv (elist : List Int) (V k : Nat) (src : Nat → Nat) (s : FusionState) :
    Prop where
  behind : ∀ e, e < elist.length → elist.getD e 0 < V →
    s.PC.cells (elist.getD e 0) - 1 ≤ s.PC.cells (src e)
  ac : ∀ w : Int, 0 ≤ w → w < V → s.AC.cells w ≤
    inSum elist (fun e => s.PC.cells (src e) - max (s.PC.cells w - 1) 0) w
  order : ∀ e p, e < elist.length → elist.getD e 0 < V → 0 ≤ p →
    p + 1 < s.PC.cells (elist.getD e 0) → s.order.cells (p * (V + k) + src e) <
      s.order.cells ((p + 1) * (V + k) + elist.getD e 0)

namespace VertexFusionInv

/-- No in-neighbour of a vertex that propagates again is behind it. -/
theorem ready (hv : VertexFusionInv elist V k src s) (hsrc : Sourced vlist elist V k src)
    (h : FusionInv elist V k numP src s) {inDegree : Block Int} (hd : Degrees elist V k inDegree)
    (hno : NoStandIn inDegree vlist elist V numP s) {w : Int} (h0 : 0 ≤ w) (hw : w < V)
    (ha : Active elist V numP src s w) (hpos : 1 ≤ s.PC.cells w) :
    ∀ e, e < elist.length → elist.getD e 0 = w → s.PC.cells w ≤ s.PC.cells (src e) := by
  intro e he hdst
  by_contra hbehind
  have hready := ha.resolve_left fun hc => by
    have := h.ok.start hc.1 w h0 (by omega)
    omega
  obtain ⟨w, rfl⟩ := Int.eq_ofNat_of_zero_le h0
  obtain ⟨b, hb, hiff⟩ := isActive_eq hsrc hd h.ok (by omega : w < V + k)
  rw [hiff.mpr ha] at hb
  have hrow : ∀ e', e' < elist.length → elist.getD e' 0 = w →
      (w : Int) ∈ Csr.row vlist elist (src e') := fun e' he' hd' =>
    (mem_row_iff hsrc.graph.valid).mpr ⟨e', hsrc.source e' he', by rw [Int.toNat_natCast, hd']⟩
  -- nobody is ahead, so that all terms of the count are at most 1
  have hall := eq_one_of_inSum
    (f := fun e => s.PC.cells (src e) - max (s.PC.cells w - 1) 0) (fun e' he' hd' => by
      have := hno w (src e') (src e) (by omega) (hrow e' he' hd') (hrow e he hdst) hb hpos
      omega) (Int.le_trans hready.1 (hv.ac w h0 hw))
  have := hall e he hdst
  omega

theorem step (hv : VertexFusionInv elist V k src s) (hsrc : Sourced vlist elist V k src)
    (h : FusionInv elist V k numP src s) {inDegree : Block Int} (hd : Degrees elist V k inDegree)
    (hno : NoStandIn inDegree vlist elist V numP s) (hst : Stepped elist V k numP src s s') :
    VertexFusionInv elist V k src s' := by
  have hready : ∀ {w : Int}, 0 ≤ w → w < V → Active elist V numP src s w → 1 ≤ s.PC.cells w →
      ∀ e, e < elist.length → elist.getD e 0 = w → s.PC.cells w ≤ s.PC.cells (src e) :=
    fun h0 hw => hv.ready hsrc h hd hno h0 hw
  have hmono : ∀ e, e < elist.length → s.PC.cells (src e) ≤ s'.PC.cells (src e) := by
    intro e he
    have hends := hsrc.ends he
    rw [hst.pc _ (by omega) (by omega)]
    split <;> omega
  have hnonneg : ∀ e, e < elist.length → 0 ≤ s.PC.cells (src e) := fun e he => by
    have hends := hsrc.ends he
    exact (h.ok.pc _ (by omega) (by omega)).1
  refine ⟨fun e he hV => ?_, fun w h0 hw => ?_, fun e p he hV hp0 hp => ?_⟩
  · have hends := hsrc.ends he
    have hm := hmono e he
    have hn := hnonneg e he
    have hb := hv.behind e he hV
    rw [hst.pc _ hends.2.1 hends.2.2]
    split
    · next ha =>
      by_cases hpos : 1 ≤ s.PC.cells (elist.getD e 0)
      · have := hready hends.2.1 hV ha hpos e he rfl
        omega
      · omega
    · omega
  · have hterm : ∀ e, e < elist.length → s'.PC.cells (src e) = s.PC.cells (src e) +
        if Active elist V numP src s (src e) then 1 else 0 := by
      intro e he
      have hends := hsrc.ends he
      exact hst.pc _ (by omega) (by omega)
    rw [hst.ac w h0 (by omega), hst.pc w h0 (by omega)]
    by_cases ha : Active elist V numP src s w
    · rw [if_pos ha, if_pos ha, Int.zero_add]
      apply inSum_le
      intro e he hdst
      have hn := hnonneg e he
      rw [hterm e he]
      by_cases hpos : 1 ≤ s.PC.cells w
      · have := hready h0 hw ha hpos e he hdst
        omega
      · omega
    · rw [if_neg ha, if_neg ha, Int.add_zero]
      refine Int.le_trans (Int.add_le_add_right (hv.ac w h0 hw) _) ?_
      rw [← inSum_add]
      apply inSum_le
      intro e he _
      rw [hterm e he]
      omega
  · have hends := hsrc.ends he
    have hb := hv.behind e he hV
    by_cases hold : p + 1 < s.PC.cells (elist.getD e 0)
    · rw [FusionInv.order_old hst (by omega) (by omega) (by omega : p ≠ s.PC.cells (src e)),
        FusionInv.order_old hst hends.2.1 hends.2.2 (by omega)]
      exact hv.order e p he hV hp0 hold
    · obtain ⟨ha, hpc⟩ := FusionInv.new_pass hst hends.2.1 hends.2.2 hp hold
      have := hready hends.2.1 hV ha (by omega) e he rfl
      rw [hpc, FusionInv.order_new hst hends.2.1 hends.2.2 ha,
        FusionInv.order_old hst (by omega) (by omega) (by omega : p ≠ s.PC.cells (src e))]
      exact h.past _ _ (by omega) (by omega) hp0 (by omega)

theorem initial : VertexFusionInv elist V k src (fusionStart V k numP) := by
  refine ⟨fun e _ _ => show (0 : Int) - 1 ≤ 0 by decide, fun w _ _ => ?_, fun e p _ _ hp0 hp => ?_⟩
  · refine Int.le_of_eq (inSum_zero.symm.trans (inSum_congr fun e _ _ => ?_))
    show (0 : Int) = 0 - max (0 - 1) 0
    decide
  · have : p + 1 < 0 := hp
    omega

end VertexFusionInv

end Invariant

/-! ## Whole runs -/

/-- `t` comes after `s`: old entries of `order` stay, new ones are not before the step of `s`. -/
structure Later (V k : Nat) (s t : FusionState) : Prop where
  step : s.step ≤ t.step
  pc : ∀ v : Int, 0 ≤ v → v < (V : Int) + k → s.PC.cells v ≤ t.PC.cells v
  old : ∀ v p : Int, 0 ≤ v → v < (V : Int) + k → p < s.PC.cells v →
    t.order.cells (p * (V + k) + v) = s.order.cells (p * (V + k) + v)
  new : ∀ v p : Int, 0 ≤ v → v < (V : Int) + k → s.PC.cells v ≤ p → p < t.PC.cells v →
    s.step ≤ t.order.cells (p * (V + k) + v)

section Runs

variable {vlist elist : List Int} {V k numP : Nat} {src : Nat → Nat} {inDegree : Block Int}
  {s s' t : FusionState}

theorem Later.refl (s : FusionState) : Later V k s s :=
  ⟨Int.le_refl _, fun _ _ _ => Int.le_refl _, fun _ _ _ _ _ => rfl, fun _ _ _ _ h h' => by omega⟩

theorem Later.tail (h : Later V k s t) {t' : FusionState} (hst : Stepped elist V k numP src t t') :
    Later V k s t' := by
  refine ⟨?_, fun v h0 hv => ?_, fun v p h0 hv hp => ?_, fun v p h0 hv hp hp' => ?_⟩
  · have := h.step
    rw [hst.step]
    omega
  · have := h.pc v h0 hv
    rw [hst.pc v h0 hv]
    split <;> omega
  · have := h.pc v h0 hv
    rw [FusionInv.order_old hst h0 hv (by omega), h.old v p h0 hv hp]
  · by_cases hold : p < t.PC.cells v
    · rw [FusionInv.order_old hst h0 hv (by omega)]
      exact h.new v p h0 hv hp hold
    · obtain ⟨ha, rfl⟩ := FusionInv.new_pass hst h0 hv hp' hold
      rw [FusionInv.order_new hst h0 hv ha]
      exact h.step

/-- The outer loop. -/
def fusionLoop (inDegree : Block Int) (vlist elist : List Int) (V k numP fuel : Nat)
    (s : FusionState) : Run FusionState :=
  Run.whileLoop (fun s : FusionState => pure (decide (s.activeCount < numP * (V + k))))
    (fusionStep inDegree vlist elist V k numP) fuel s

theorem fusionStep_stepped (hsrc : Sourced vlist elist V k src) (hd : Degrees elist V k inDegree)
    (hs : FusionOk V k numP s) (hrun : fusionStep inDegree vlist elist V k numP s = .ok s') :
    Stepped elist V k numP src s s' := by
  obtain ⟨u, hu, hst⟩ := fusionStep_eq hsrc hd hs
  rw [hrun] at hu
  cases hu
  exact hst

theorem FusionReach.inv (h : FusionReach inDegree vlist elist V k numP s)
    (hsrc : Sourced vlist elist V k src) (hd : Degrees elist V k inDegree) (hnum : 1 ≤ numP) :
    FusionInv elist V k numP src s := by
  induction h with
  | start => exact FusionInv.initial hnum
  | step _ _ hrun ih => exact ih.step hsrc (fusionStep_stepped hsrc hd ih.ok hrun)

theorem FusionReach.vertexInv (h : FusionReach inDegree vlist elist V k numP s)
    (hsrc : Sourced vlist elist V k src) (hd : Degrees elist V k inDegree) (hnum : 1 ≤ numP)
    (hno : ∀ s, FusionReach inDegree vlist elist V k numP s →
      NoStandIn inDegree vlist elist V numP s) : VertexFusionInv elist V k src s := by
  induction h with
  | start => exact VertexFusionInv.initial
  | step hs _ hrun ih =>
    have hinv := hs.inv hsrc hd hnum
    exact ih.step hsrc hinv hd (hno _ hs) (fusionStep_stepped hsrc hd hinv.ok hrun)

/-- A loop that goes on. -/
theorem fusionLoop_cons {fuel : Nat} (hrun : fusionLoop inDegree vlist elist V k numP fuel s = .ok t)
    (hlt : s.activeCount < numP * (V + k)) : ∃ n s',
      fusionStep inDegree vlist elist V k numP s = .ok s' ∧
      fusionLoop inDegree vlist elist V k numP n s' = .ok t := by
  cases fuel with
  | zero => cases hrun
  | succ n =>
    rw [fusionLoop, Run.whileLoop, Run.pure_bind, decide_eq_true hlt, if_pos rfl] at hrun
    cases hs : fusionStep inDegree vlist elist V k numP s with
    | error e =>
      rw [hs] at hrun
      cases hrun
    | ok s' =>
      rw [hs, Run.ok_bind] at hrun
      exact ⟨n, s', rfl, hrun⟩

/-- A run that returns passes every state that is reached. -/
theorem FusionReach.exists_run {fuel : Nat}
    (hrun : fusionLoop inDegree vlist elist V k numP fuel (fusionStart V k numP) = .ok t)
    (h : FusionReach inDegree vlist elist V k numP s) :
    ∃ n, fusionLoop inDegree vlist elist V k numP n s = .ok t := by
  induction h with
  | start => exact ⟨fuel, hrun⟩
  | step _ hlt hs ih =>
    obtain ⟨n, hn⟩ := ih
    obtain ⟨m, u, hu, hm⟩ := fusionLoop_cons hn hlt
    rw [hs] at hu
    cases hu
    exact ⟨m, hm⟩

/-- `gen_fusion_vertex_order` returns what the loop leaves. -/
theorem genFusionVertexOrder_ok_iff {fuel : Nat} {order : Block Int} {steps : Int}
    (hdeg : inDegrees elist (V + k) = .ok inDegree) :
    genFusionVertexOrder fuel vlist elist V k numP = .ok (order, steps) ↔
      ∃ t, fusionLoop inDegree vlist elist V k numP fuel (fusionStart V k numP) = .ok t ∧
        t.order = order ∧ t.step = steps := by
  rw [genFusionVertexOrder, hdeg, Run.ok_bind, Run.bind_eq_ok]
  refine exists_congr fun t => and_congr_right fun _ => ?_
  rw [← Prod.mk.injEq]
  exact ⟨Except.ok.inj, congrArg Except.ok⟩

/-- Without passes there is no step. -/
theorem FusionReach.eq_start (h : FusionReach inDegree vlist elist V k 0 s) :
    s = fusionStart V k 0 := by
  induction h with
  | start => rfl
  | step _ hlt _ ih =>
    rw [ih, Int.natCast_zero, Int.zero_mul] at hlt
    exact absurd hlt (Int.lt_irrefl 0)

theorem isActive_iff (hsrc : Sourced vlist elist V k src) (hd : Degrees elist V k inDegree)
    (hs : FusionOk V k numP s) {v : Nat} (hv : v < V + k) :
    isActive inDegree vlist elist V numP s v = .ok true ↔ Active elist V numP src s v := by
  obtain ⟨b, hb, hiff⟩ := isActive_eq hsrc hd hs hv
  rw [hb, ← hiff]
  exact ⟨Except.ok.inj, congrArg Except.ok⟩

/-- The result of a run comes after the states it passes, and is reached. -/
theorem fusionLoop_result {fuel : Nat} (hsrc : Sourced vlist elist V k src)
    (hd : Degrees elist V k inDegree) (hnum : 1 ≤ numP)
    (h : FusionReach inDegree vlist elist V k numP s)
    (hrun : fusionLoop inDegree vlist elist V k numP fuel s = .ok t) :
    Later V k s t ∧ FusionReach inDegree vlist elist V k numP t ∧
      (numP : Int) * (V + k) ≤ t.activeCount := by
  have hloop := Run.whileLoop_ok
    (fun u => Later V k s u ∧ FusionReach inDegree vlist elist V k numP u)
    (fun u u' hu hc hb => ?_) fuel s t ⟨Later.refl s, h⟩ hrun
  · refine ⟨hloop.1.1, hloop.1.2, ?_⟩
    have hc := hloop.2
    injection hc with hc
    rw [decide_eq_false_iff_not] at hc
    omega
  · injection hc with hc
    exact ⟨hu.1.tail (fusionStep_stepped hsrc hd (hu.2.inv hsrc hd hnum).ok hb),
      FusionReach.step hu.2 (decide_eq_true_eq.mp hc) hb⟩

/-- At the end all nodes have had all passes. -/
theorem FusionInv.passes_done (h : FusionInv elist V k numP src t)
    (hcount : (numP : Int) * (V + k) ≤ t.activeCount) {v : Int} (h0 : 0 ≤ v)
    (hv : v < (V : Int) + k) : t.PC.cells v = numP := by
  have hle : ∀ w ∈ Finset.range (V + k), 0 ≤ (numP : Int) - t.PC.cells (w : Int) := by
    intro w hw
    have := (h.ok.pc w (by omega) (by have := Finset.mem_range.mp hw; omega)).2
    omega
  have hsum : ∑ w ∈ Finset.range (V + k), ((numP : Int) - t.PC.cells (w : Int)) = 0 := by
    have hpos := Finset.sum_nonneg hle
    rw [Finset.sum_sub_distrib, ← h.count, Finset.sum_const, Finset.card_range, nsmul_eq_mul] at hpos ⊢
    push_cast at hpos ⊢
    rw [Int.mul_comm] at hcount
    omega
  have hz := (Finset.sum_eq_zero_iff_of_nonneg hle).mp hsum v.toNat
    (Finset.mem_range.mpr (by omega))
  rw [Int.toNat_of_nonneg h0] at hz
  omega

/-- The entry of a pass is the step in which the node makes it. -/
theorem FusionReach.order_eq {fuel : Nat} (h : FusionReach inDegree vlist elist V k numP s)
    (hsrc : Sourced vlist elist V k src) (hd : Degrees elist V k inDegree) (hnum : 1 ≤ numP)
    (ht : fusionLoop inDegree vlist elist V k numP fuel (fusionStart V k numP) = .ok t)
    (hgo : s.activeCount < numP * (V + k)) {v : Int} (h0 : 0 ≤ v) (hv : v < (V : Int) + k)
    (ha : Active elist V numP src s v) :
    t.order.cells (s.PC.cells v * (V + k) + v) = s.step := by
  obtain ⟨n, hn⟩ := h.exists_run ht
  obtain ⟨m, s', hs', hm⟩ := fusionLoop_cons hn hgo
  have hst := fusionStep_stepped hsrc hd (h.inv hsrc hd hnum).ok hs'
  have hlater := (fusionLoop_result hsrc hd hnum (h.step hgo hs') hm).1
  have hnow := FusionInv.order_new hst h0 hv ha
  rwa [← hlater.old v _ h0 hv (by rw [hst.pc v h0 hv, if_pos ha]; omega)] at hnow

end Runs

/-- `order[pass][v]`. -/
def orderAt (order : Block Int) (V k pass v : Nat) : Int := order.cells (pass * (V + k) + v)

end Laconic.Graph
