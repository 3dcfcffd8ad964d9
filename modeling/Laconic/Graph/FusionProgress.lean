import Mathlib.Data.Finset.Max
import Laconic.Graph.FusionRun

/-!
# The fused schedule completes

Some node can propagate in every state that the loop passes.  While a node has had no pass, follow the
rules without a pass back to one whose in-neighbours have all sent.  Otherwise take, among the nodes
with the fewest passes, one whose last pass is the oldest: nobody is slower than it, and every
in-neighbour has sent since.  Arrivals that were dropped before its last pass do not count.
-/

namespace Laconic.Graph

open Slp

/-- The step of the last pass of `v`. -/
def lastStep (V k : Nat) (s : FusionState) (v : Int) : Int :=
  s.order.cells ((s.PC.cells v - 1) * (V + k) + v)

/-- Something was sent along the edge since the last pass of its end, or in the same step. -/
def SentSince (elist : List Int) (V k : Nat) (src : Nat → Nat) (s : FusionState) (e : Nat) : Prop :=
  1 ≤ s.PC.cells (src e) ∧ lastStep V k s (elist.getD e 0) ≤ lastStep V k s (src e)

instance (elist : List Int) (V k : Nat) (src : Nat → Nat) (s : FusionState) :
    DecidablePred (SentSince elist V k src s) := fun _ => inferInstanceAs (Decidable (_ ∧ _))

/-- What holds between two steps about the order of the passes. -/
structure ProgressInv (elist : List Int) (V k : Nat) (src : Nat → Nat) (s : FusionState) : Prop where
  sent : ∀ w : Int, 0 ≤ w → w < (V : Int) + k → 1 ≤ s.PC.cells w →
    inSum elist (fun e => if SentSince elist V k src s e then 1 else 0) w ≤ s.AC.cells w
  /-- A node has a further pass only after the one before of its successors. -/
  ahead : ∀ e, e < elist.length → ∀ q : Int, 1 ≤ q → q < s.PC.cells (src e) →
    q ≤ s.PC.cells (elist.getD e 0) ∧
      s.order.cells ((q - 1) * (V + k) + elist.getD e 0) < s.order.cells (q * (V + k) + src e)
  grows : ∀ v q : Int, 0 ≤ v → v < (V : Int) + k → 0 ≤ q → q + 1 < s.PC.cells v →
    s.order.cells (q * (V + k) + v) < s.order.cells ((q + 1) * (V + k) + v)

section Step

variable {vlist elist : List Int} {V k numP : Nat} {src : Nat → Nat} {s s' : FusionState}

theorem FusionInv.lastStep_lt (h : FusionInv elist V k numP src s) {v : Int} (h0 : 0 ≤ v)
    (hv : v < (V : Int) + k) (hpc : 1 ≤ s.PC.cells v) : lastStep V k s v < s.step :=
  h.past v (s.PC.cells v - 1) h0 hv (by omega) (by omega)

theorem Stepped.lastStep_active (hst : Stepped elist V k numP src s s') {v : Int} (h0 : 0 ≤ v)
    (hv : v < (V : Int) + k) (ha : Active elist V numP src s v) : lastStep V k s' v = s.step := by
  rw [lastStep, hst.pc v h0 hv, if_pos ha, Int.add_sub_cancel, FusionInv.order_new hst h0 hv ha]

theorem Stepped.lastStep_inactive (hst : Stepped elist V k numP src s s') {v : Int} (h0 : 0 ≤ v)
    (hv : v < (V : Int) + k) (ha : ¬ Active elist V numP src s v) :
    lastStep V k s' v = lastStep V k s v := by
  rw [lastStep, hst.pc v h0 hv, if_neg ha, Int.add_zero, FusionInv.order_old hst h0 hv (by omega),
    lastStep]

namespace ProgressInv

theorem sent_step (hp : ProgressInv elist V k src s) (h : FusionInv elist V k numP src s)
    (hsrc : Sourced vlist elist V k src) (hst : Stepped elist V k numP src s s') {w : Int}
    (h0 : 0 ≤ w) (hw : w < (V : Int) + k) (hpc : 1 ≤ s'.PC.cells w) :
    inSum elist (fun e => if SentSince elist V k src s' e then 1 else 0) w ≤ s'.AC.cells w := by
  rw [hst.ac w h0 hw]
  by_cases ha : Active elist V numP src s w
  · -- what counts now has been sent in this step
    rw [if_pos ha, Int.zero_add]
    refine inSum_le fun e he hd => ?_
    have hends := hsrc.ends he
    by_cases hsend : Active elist V numP src s (src e)
    · rw [if_pos hsend]
      split <;> omega
    · rw [if_neg hsend, if_neg]
      rintro ⟨hone, hle⟩
      rw [hst.pc _ (by omega) (by omega), if_neg hsend, Int.add_zero] at hone
      rw [hd, hst.lastStep_active h0 hw ha, hst.lastStep_inactive (by omega) (by omega) hsend] at hle
      have := h.lastStep_lt (by omega) (by omega) hone
      omega
  · rw [hst.pc w h0 hw, if_neg ha, Int.add_zero] at hpc
    rw [if_neg ha]
    refine Int.le_trans ?_ (Int.add_le_add_right (hp.sent w h0 hw hpc) _)
    rw [← inSum_add]
    refine inSum_le fun e he hd => ?_
    have hends := hsrc.ends he
    by_cases hsend : Active elist V numP src s (src e)
    · rw [if_pos hsend]
      split <;> split <;> omega
    · have hsame : SentSince elist V k src s' e ↔ SentSince elist V k src s e := by
        unfold SentSince
        rw [hst.pc _ (by omega) (by omega), if_neg hsend, Int.add_zero, hd,
          hst.lastStep_inactive h0 hw ha, hst.lastStep_inactive (by omega) (by omega) hsend]
      rw [if_neg hsend, Int.add_zero]
      exact Int.le_of_eq (if_congr hsame rfl rfl)

theorem ahead_step (hp : ProgressInv elist V k src s) (h : FusionInv elist V k numP src s)
    (hsrc : Sourced vlist elist V k src) (hst : Stepped elist V k numP src s s') {e : Nat}
    (he : e < elist.length) {q : Int} (hq : 1 ≤ q) (hlt : q < s'.PC.cells (src e)) :
    q ≤ s'.PC.cells (elist.getD e 0) ∧ s'.order.cells ((q - 1) * (V + k) + elist.getD e 0) <
      s'.order.cells (q * (V + k) + src e) := by
  have hends := hsrc.ends he
  have hmono : s.PC.cells (elist.getD e 0) ≤ s'.PC.cells (elist.getD e 0) := by
    rw [hst.pc _ hends.2.1 hends.2.2]
    split <;> omega
  by_cases hold : q < s.PC.cells (src e)
  · obtain ⟨hle, horder⟩ := hp.ahead e he q hq hold
    refine ⟨by omega, ?_⟩
    rw [FusionInv.order_old hst hends.2.1 hends.2.2 (by omega),
      FusionInv.order_old hst (by omega) (by omega) (by omega : q ≠ s.PC.cells (src e))]
    exact horder
  · -- the new pass: no successor was slower
    obtain ⟨ha, rfl⟩ := FusionInv.new_pass hst (by omega) (by omega) hlt hold
    have hle : s.PC.cells (src e) ≤ s.PC.cells (elist.getD e 0) := by
      rcases ha with hstart | ⟨-, hzero | hall, -⟩
      · have := h.ok.start hstart.1 (src e) (by omega) (by omega)
        omega
      · omega
      · exact hall e he rfl
    refine ⟨by omega, ?_⟩
    rw [FusionInv.order_old hst hends.2.1 hends.2.2 (by omega),
      FusionInv.order_new hst (by omega) (by omega) ha]
    exact h.past _ _ hends.2.1 hends.2.2 (by omega) (by omega)

theorem grows_step (hp : ProgressInv elist V k src s) (h : FusionInv elist V k numP src s)
    (hst : Stepped elist V k numP src s s') {v q : Int} (h0 : 0 ≤ v) (hv : v < (V : Int) + k)
    (hq : 0 ≤ q) (hlt : q + 1 < s'.PC.cells v) :
    s'.order.cells (q * (V + k) + v) < s'.order.cells ((q + 1) * (V + k) + v) := by
  by_cases hold : q + 1 < s.PC.cells v
  · rw [FusionInv.order_old hst h0 hv (by omega), FusionInv.order_old hst h0 hv (by omega)]
    exact hp.grows v q h0 hv hq hold
  · obtain ⟨ha, hpc⟩ := FusionInv.new_pass hst h0 hv hlt hold
    rw [FusionInv.order_old hst h0 hv (by omega), hpc, FusionInv.order_new hst h0 hv ha]
    exact h.past v q h0 hv hq (by omega)

theorem step (hp : ProgressInv elist V k src s) (h : FusionInv elist V k numP src s)
    (hsrc : Sourced vlist elist V k src) (hst : Stepped elist V k numP src s s') :
    ProgressInv elist V k src s' :=
  ⟨fun _ h0 hw hpc => hp.sent_step h hsrc hst h0 hw hpc,
    fun _ he _ hq hlt => hp.ahead_step h hsrc hst he hq hlt,
    fun _ _ h0 hv hq hlt => hp.grows_step h hst h0 hv hq hlt⟩

theorem initial : ProgressInv elist V k src (fusionStart V k numP) := by
  refine ⟨fun w _ _ hpc => ?_, fun e _ q hq hlt => ?_, fun v q _ _ hq hlt => ?_⟩
  · exact absurd hpc (by show ¬ (1 : Int) ≤ 0; decide)
  · have : q < 0 := hlt
    omega
  · have : q + 1 < 0 := hlt
    omega

end ProgressInv

/-! ## No state is stuck -/

/-- A node without a pass: some node can propagate. -/
theorem FusionInv.exists_active_of_zero (h : FusionInv elist V k numP src s)
    (hsrc : Sourced vlist elist V k src) {w : Int}
    (hw : 0 ≤ w ∧ w < (V : Int) + k ∧ s.PC.cells w = 0) :
    ∃ v : Int, 0 ≤ v ∧ v < (V : Int) + k ∧ Active elist V numP src s v := by
  have hvertex : ∀ v : Int, 0 ≤ v → v < V → s.PC.cells v = 0 → Active elist V numP src s v := by
    intro v h0 hv hz
    have hstep : s.step = 0 := by
      by_contra hne
      have := h.started (by have := h.nonneg; omega) v h0 hv
      omega
    exact Or.inl ⟨hstep, hv⟩
  -- from rule to rule, back to the first one without a pass
  induction w using hsrc.graph.wellFounded_up.induction with
  | h w ih =>
    obtain ⟨h0, hlt, hz⟩ := hw
    by_cases hV : w < V
    · exact ⟨w, h0, hlt, hvertex w h0 hV hz⟩
    · by_cases hsent : ∀ e, e < elist.length → elist.getD e 0 = w → 1 ≤ s.PC.cells (src e)
      · refine ⟨w, h0, hlt, Or.inr ⟨?_, Or.inl hz, ?_⟩⟩
        · rw [h.ruleAC w (by omega) hlt]
          refine inSum_le fun e he hd => ?_
          have := hsent e he hd
          omega
        · have := h.ok.passes
          omega
      · obtain ⟨e, he, hd, hsz⟩ : ∃ e, e < elist.length ∧ elist.getD e 0 = w ∧
            ¬ 1 ≤ s.PC.cells (src e) := by
          by_contra hnone
          exact hsent fun e he hd => by
            by_contra hc
            exact hnone ⟨e, he, hd, hc⟩
        have hends := hsrc.ends he
        have hnn := (h.ok.pc (src e) (by omega) (by omega)).1
        by_cases hsV : ((src e : Nat) : Int) < V
        · exact ⟨src e, by omega, by omega, hvertex _ (by omega) hsV (by omega)⟩
        · refine ih (src e) (Relation.TransGen.single ?_) ⟨by omega, by omega, by omega⟩
          refine ⟨_, csrRhs_row (by omega), ?_⟩
          rw [Int.toNat_natCast, ← hd]
          exact (mem_row_iff hsrc.graph.valid).mpr ⟨e, hsrc.source e he, by rw [Int.toNat_natCast]⟩

/-- Every node has had a pass: the one with the fewest, and the oldest last one, can propagate. -/
theorem ProgressInv.exists_active_of_pos (hp : ProgressInv elist V k src s)
    (hsrc : Sourced vlist elist V k src)
    (hpos : ∀ v : Int, 0 ≤ v → v < (V : Int) + k → 1 ≤ s.PC.cells v) {u : Nat} (hu : u < V + k)
    (hlt : s.PC.cells u < numP) :
    ∃ v : Int, 0 ≤ v ∧ v < (V : Int) + k ∧ Active elist V numP src s v := by
  obtain ⟨m, hm, hfew⟩ := Finset.exists_min_image (Finset.range (V + k))
    (fun v : Nat => s.PC.cells v) ⟨u, Finset.mem_range.mpr hu⟩
  obtain ⟨w, hw, hold⟩ := Finset.exists_min_image
    ((Finset.range (V + k)).filter fun v : Nat => s.PC.cells v = s.PC.cells m)
    (fun v : Nat => lastStep V k s v) ⟨m, Finset.mem_filter.mpr ⟨hm, rfl⟩⟩
  rw [Finset.mem_filter, Finset.mem_range] at hw
  have hfew' : ∀ v : Int, 0 ≤ v → v < (V : Int) + k → s.PC.cells w ≤ s.PC.cells v := by
    intro v h0 hv
    obtain ⟨v, rfl⟩ := Int.eq_ofNat_of_zero_le h0
    rw [hw.2]
    exact hfew v (Finset.mem_range.mpr (by omega))
  have hw1 := hpos w (by omega) (by omega)
  refine ⟨w, by omega, by omega, Or.inr ⟨?_, Or.inr fun e he _ => ?_, ?_⟩⟩
  · refine Int.le_trans (inSum_le fun e he hd => ?_) (hp.sent w (by omega) (by omega) hw1)
    have hends := hsrc.ends he
    have hsent : SentSince elist V k src s e := by
      refine ⟨hpos _ (by omega) (by omega), ?_⟩
      rw [hd]
      by_cases hsame : s.PC.cells (src e) = s.PC.cells w
      · exact hold (src e) (Finset.mem_filter.mpr ⟨Finset.mem_range.mpr hends.1, by rw [hsame, hw.2]⟩)
      · -- one pass ahead, and so after the last one of `w`
        have hge := hfew' (src e) (by omega) (by omega)
        obtain ⟨hle, horder⟩ := hp.ahead e he (s.PC.cells (src e) - 1) (by omega) (by omega)
        rw [hd] at hle horder
        rw [show s.PC.cells (src e) - 1 - 1 = s.PC.cells w - 1 by omega] at horder
        exact Int.le_of_lt horder
    rw [if_pos hsent]
  · have hends := hsrc.ends he
    exact hfew' _ hends.2.1 hends.2.2
  · have := hfew' u (by omega) (by omega)
    omega

theorem FusionInv.exists_active (h : FusionInv elist V k numP src s)
    (hp : ProgressInv elist V k src s) (hsrc : Sourced vlist elist V k src)
    (hgo : s.activeCount < numP * (V + k)) :
    ∃ v : Int, 0 ≤ v ∧ v < (V : Int) + k ∧ Active elist V numP src s v := by
  by_cases hzero : ∃ w : Int, 0 ≤ w ∧ w < (V : Int) + k ∧ s.PC.cells w = 0
  · obtain ⟨w, hw⟩ := hzero
    exact h.exists_active_of_zero hsrc hw
  · have hpos : ∀ v : Int, 0 ≤ v → v < (V : Int) + k → 1 ≤ s.PC.cells v := by
      intro v h0 hv
      have hnn := (h.ok.pc v h0 hv).1
      by_contra hc
      exact hzero ⟨v, h0, hv, by omega⟩
    -- not all passes are done
    obtain ⟨u, hu, hlt⟩ : ∃ u : Nat, u < V + k ∧ s.PC.cells u < numP := by
      by_contra hnone
      have hsum : ∑ v ∈ Finset.range (V + k), (numP : Int) ≤
          ∑ v ∈ Finset.range (V + k), s.PC.cells (v : Int) := by
        refine Finset.sum_le_sum fun v hv => ?_
        by_contra hc
        exact hnone ⟨v, Finset.mem_range.mp hv, by omega⟩
      rw [Finset.sum_const, Finset.card_range, nsmul_eq_mul, ← h.count, Int.mul_comm] at hsum
      push_cast at hsum
      omega
    exact hp.exists_active_of_pos hsrc hpos hu hlt

end Step

/-! ## Whole runs -/

section Runs

variable {vlist elist : List Int} {V k numP : Nat} {src : Nat → Nat} {inDegree : Block Int}
  {s s' t : FusionState}

namespace FusionReach

theorem progressInv (h : FusionReach inDegree vlist elist V k numP s)
    (hsrc : Sourced vlist elist V k src) (hd : Degrees elist V k inDegree) (hnum : 1 ≤ numP) :
    ProgressInv elist V k src s := by
  induction h with
  | start => exact ProgressInv.initial
  | step hs _ hrun ih =>
    have hinv := hs.inv hsrc hd hnum
    exact ih.step hinv hsrc (fusionStep_stepped hsrc hd hinv.ok hrun)

theorem exists_active (h : FusionReach inDegree vlist elist V k numP s)
    (hsrc : Sourced vlist elist V k src) (hd : Degrees elist V k inDegree) (hnum : 1 ≤ numP)
    (hgo : s.activeCount < numP * (V + k)) : ∃ v : Nat, v < V + k ∧ Active elist V numP src s v := by
  obtain ⟨v, h0, hv, ha⟩ :=
    (h.inv hsrc hd hnum).exists_active (h.progressInv hsrc hd hnum) hsrc hgo
  obtain ⟨v, rfl⟩ := Int.eq_ofNat_of_zero_le h0
  exact ⟨v, by omega, ha⟩

/-- Every step counts at least one node. -/
theorem activeCount_lt (h : FusionReach inDegree vlist elist V k numP s)
    (hsrc : Sourced vlist elist V k src) (hd : Degrees elist V k inDegree) (hnum : 1 ≤ numP)
    (hgo : s.activeCount < numP * (V + k)) (hst : Stepped elist V k numP src s s') :
    s.activeCount < s'.activeCount := by
  obtain ⟨v, hv, ha⟩ := h.exists_active hsrc hd hnum hgo
  have hone := Finset.single_le_sum
    (f := fun v : Nat => if Active elist V numP src s (v : Int) then (1 : Int) else 0)
    (fun v _ => by split <;> decide) (Finset.mem_range.mpr hv)
  rw [if_pos ha] at hone
  rw [hst.count]
  omega

theorem step_le (h : FusionReach inDegree vlist elist V k numP s)
    (hsrc : Sourced vlist elist V k src) (hd : Degrees elist V k inDegree) (hnum : 1 ≤ numP) :
    s.step ≤ s.activeCount := by
  induction h with
  | start => exact Int.le_refl 0
  | step hs hgo hrun ih =>
    have hst := fusionStep_stepped hsrc hd (hs.inv hsrc hd hnum).ok hrun
    have := hs.activeCount_lt hsrc hd hnum hgo hst
    rw [hst.step]
    omega

/-- The run is determined by its start. -/
theorem eq_of_step (h : FusionReach inDegree vlist elist V k numP s)
    (hsrc : Sourced vlist elist V k src) (hd : Degrees elist V k inDegree) (hnum : 1 ≤ numP)
    (h' : FusionReach inDegree vlist elist V k numP s') (heq : s.step = s'.step) : s = s' := by
  have hpos : ∀ {u u' : FusionState}, FusionReach inDegree vlist elist V k numP u →
      fusionStep inDegree vlist elist V k numP u = .ok u' → u'.step = u.step + 1 ∧ 0 ≤ u.step :=
    fun hu hrun => ⟨(fusionStep_stepped hsrc hd (hu.inv hsrc hd hnum).ok hrun).step,
      (hu.inv hsrc hd hnum).nonneg⟩
  have hstart : (fusionStart V k numP).step = 0 := rfl
  induction h generalizing s' with
  | start =>
    cases h' with
    | start => rfl
    | step hu _ hrun =>
      have := hpos hu hrun
      omega
  | step hs _ hrun ih =>
    have h₁ := hpos hs hrun
    cases h' with
    | start => omega
    | step hu _ hrun' =>
      have h₂ := hpos hu hrun'
      rw [ih hu (by omega), hrun'] at hrun
      exact (Except.ok.inj hrun).symm

/-- A pass that a node has had was assigned in some step. -/
theorem exists_pass (h : FusionReach inDegree vlist elist V k numP t)
    (hsrc : Sourced vlist elist V k src) (hd : Degrees elist V k inDegree) (hnum : 1 ≤ numP) {v p : Int}
    (h0 : 0 ≤ v) (hv : v < (V : Int) + k) (hp0 : 0 ≤ p) (hp : p < t.PC.cells v) :
    ∃ s, FusionReach inDegree vlist elist V k numP s ∧ s.activeCount < numP * (V + k) ∧
      Active elist V numP src s v ∧ s.PC.cells v = p := by
  induction h with
  | start => exact absurd hp (by show ¬ p < 0; omega)
  | @step s s' hs hgo hrun ih =>
    by_cases hold : p < s.PC.cells v
    · exact ih hold
    · obtain ⟨ha, rfl⟩ := FusionInv.new_pass
        (fusionStep_stepped hsrc hd (hs.inv hsrc hd hnum).ok hrun) h0 hv hp hold
      exact ⟨s, hs, hgo, ha, rfl⟩

end FusionReach

/-- The loop ends: every step lowers the number of passes that are left. -/
theorem fusionLoop_completes (hsrc : Sourced vlist elist V k src) (hd : Degrees elist V k inDegree)
    (hnum : 1 ≤ numP) {fuel : Nat} (hfuel : numP * (V + k) < fuel) :
    ∃ t, fusionLoop inDegree vlist elist V k numP fuel (fusionStart V k numP) = .ok t := by
  have hmeets : Run.Meets (fun _ => False)
      (fusionLoop inDegree vlist elist V k numP fuel (fusionStart V k numP)) (fun _ => True) := by
    refine Run.meets_whileLoop _ _ (FusionReach inDegree vlist elist V k numP) _
      (fun s => ((numP : Int) * (V + k) - s.activeCount).toNat) (fun s hs => ?_) fuel _ ?_
      FusionReach.start
    · rw [Run.meets_pure]
      refine ⟨fun hon => ?_, fun _ => trivial⟩
      have hgo := of_decide_eq_true hon
      obtain ⟨s', hrun, hst⟩ := fusionStep_eq hsrc hd (hs.inv hsrc hd hnum).ok
      rw [hrun, Run.meets_ok]
      have := hs.activeCount_lt hsrc hd hnum hgo hst
      exact ⟨FusionReach.step hs hgo hrun, by omega⟩
    · show ((numP : Int) * (V + k) - 0).toNat < fuel
      have : ((numP * (V + k) : Nat) : Int) = (numP : Int) * (V + k) := by push_cast; rfl
      omega
  obtain ⟨t, ht, -⟩ := hmeets.exists_ok fun e he => he.elim
  exact ⟨t, ht⟩

end Runs

/-- The round from `s` assigns `order[pass][v]`. -/
def Assigns (inDegree : Block Int) (vlist elist : List Int) (V k numP v pass : Nat)
    (s : FusionState) : Prop :=
  FusionReach inDegree vlist elist V k numP s ∧ s.activeCount < numP * (V + k) ∧
    isActive inDegree vlist elist V numP s v = .ok true ∧ s.PC.cells v = pass

end Laconic.Graph
