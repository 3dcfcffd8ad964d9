import Mathlib.Algebra.BigOperators.Group.Finset.Basic
import Mathlib.Algebra.Order.BigOperators.Group.Finset
import Laconic.Graph.Order

/-!
# The fused propagation schedule

`gen_fusion_vertex_order` of `fusion.h` schedules `num_p` passes of propagation at once.  `PC` counts
the passes of a node, `AC` what has arrived at it since its last one.  A node may propagate when as
much has arrived as it has in-edges and no successor has fewer passes; the vertices start the first
pass in step 0.
-/

namespace Laconic.Graph

open Slp

/-- `for (eid = start; eid < end; eid++) if (PC[vid] > PC[elist[eid]]) return false`. -/
def noSlower (PC : Block Int) (elist : List Int) (passes eid : Int) (ok : Bool) : Run Bool :=
  if ok then do
    let dst ← (Block.ofList elist).read eid
    let p ← PC.read dst
    pure (decide (passes ≤ p))
  else pure false

def condPropagate (PC AC inDegree : Block Int) (vlist elist : List Int) (vid : Int) : Run Bool := do
  let a ← AC.read vid
  let d ← inDegree.read vid
  if a < d then pure false
  else do
    let p ← PC.read vid
    -- in its first pass a node waits for nobody behind it
    if p = 0 then pure true else forEdges (noSlower PC elist p) vlist vid true

/-- The state between two steps, where `tmp_PC` and `tmp_AC` are copies of `PC` and `AC`. -/
structure FusionState where
  PC : Block Int
  AC : Block Int
  /-- `order[pass][vid]` at index `pass * (vertex_cnt + rule_cnt) + vid` -/
  order : Block Int
  activeCount : Int
  step : Int

/-- The test of the loop over the nodes. -/
def isActive (inDegree : Block Int) (vlist elist : List Int) (vertexCnt numP : Nat)
    (s : FusionState) (vid : Int) : Run Bool :=
  -- nothing has arrived at the vertices in step 0
  if s.step = 0 ∧ vid < vertexCnt then pure true
  else do
    let c ← condPropagate s.PC s.AC inDegree vlist elist vid
    let p ← s.PC.read vid
    pure (c && decide (p < numP))

/-- What the loop over the nodes changes. -/
structure Activation where
  activeList : List Int
  tmpPC : Block Int
  order : Block Int
  activeCount : Int

/-- One round of the loop over the nodes. -/
def activate (inDegree : Block Int) (vlist elist : List Int) (vertexCnt ruleCnt numP : Nat)
    (s : FusionState) (vid : Int) (t : Activation) : Run Activation := do
  let active ← isActive inDegree vlist elist vertexCnt numP s vid
  if active then do
    -- the old counters decide, so the order of the nodes in a step does not matter
    let p ← s.PC.read vid
    let order ← t.order.write (p * (vertexCnt + ruleCnt) + vid) s.step
    let tmpPC ← t.tmpPC.modify vid fun p => p + 1
    pure ⟨t.activeList ++ [vid], tmpPC, order, t.activeCount + 1⟩
  else pure t

/-- `tmp_AC[elist[eid]]++`. -/
def arrive (elist : List Int) (eid : Int) (tmpAC : Block Int) : Run (Block Int) := do
  let dst ← (Block.ofList elist).read eid
  tmpAC.modify dst fun a => a + 1

/-- One round of the outer loop. -/
def fusionStep (inDegree : Block Int) (vlist elist : List Int) (vertexCnt ruleCnt numP : Nat)
    (s : FusionState) : Run FusionState := do
  let t ← Run.forLoop (activate inDegree vlist elist vertexCnt ruleCnt numP s) (vertexCnt + ruleCnt)
    0 ⟨[], s.PC, s.order, s.activeCount⟩
  -- first what has arrived is used up at all active nodes, then their values arrive: an active
  -- node may be the successor of another one
  let tmpAC ← t.activeList.foldlM (fun (tmpAC : Block Int) vid => tmpAC.write vid 0) s.AC
  let tmpAC ← t.activeList.foldlM (fun tmpAC vid => forEdges (arrive elist) vlist vid tmpAC) tmpAC
  pure ⟨t.tmpPC, tmpAC, t.order, t.activeCount, s.step + 1⟩

/-- `for (i = 0; i < edge_cnt; ++i) in_degree[elist[i]]++`. -/
def inDegrees (elist : List Int) (nodes : Nat) : Run (Block Int) :=
  Run.forLoop (arrive elist) elist.length 0 (Block.alloc nodes fun _ => 0)

def fusionStart (vertexCnt ruleCnt numP : Nat) : FusionState :=
  ⟨Block.alloc (vertexCnt + ruleCnt) fun _ => 0, Block.alloc (vertexCnt + ruleCnt) fun _ => 0,
    Block.alloc (numP * (vertexCnt + ruleCnt)) fun _ => INIT, 0, 0⟩

def genFusionVertexOrder (fuel : Nat) (vlist elist : List Int) (vertexCnt ruleCnt numP : Nat) :
    Run (Block Int × Int) := do
  let inDegree ← inDegrees elist (vertexCnt + ruleCnt)
  let s ← Run.whileLoop
    (fun s : FusionState => pure (decide (s.activeCount < numP * (vertexCnt + ruleCnt))))
    (fusionStep inDegree vlist elist vertexCnt ruleCnt numP) fuel
    (fusionStart vertexCnt ruleCnt numP)
  pure (s.order, s.step)

/-! ## Sums over the edges to a node -/

/-- The sum of `f` over the edges to `w`. -/
def inSum (elist : List Int) (f : Nat → Int) (w : Int) : Int :=
  ∑ e ∈ Finset.range elist.length, if elist.getD e 0 = w then f e else 0

section InSum

variable {elist : List Int} {f g : Nat → Int} {w : Int}

theorem inSum_congr (h : ∀ e, e < elist.length → elist.getD e 0 = w → f e = g e) :
    inSum elist f w = inSum elist g w := by
  apply Finset.sum_congr rfl
  intro e he
  by_cases hd : elist.getD e 0 = w
  · rw [if_pos hd, if_pos hd, h e (Finset.mem_range.mp he) hd]
  · rw [if_neg hd, if_neg hd]

theorem inSum_add : inSum elist (fun e => f e + g e) w = inSum elist f w + inSum elist g w := by
  unfold inSum
  rw [← Finset.sum_add_distrib]
  apply Finset.sum_congr rfl
  intro e _
  split
  · rfl
  · rfl

theorem inSum_zero : inSum elist (fun _ => 0) w = 0 := by
  unfold inSum
  simp

/-- One more edge. -/
theorem inSum_insert {P P' : Nat → Prop} [DecidablePred P] [DecidablePred P'] (e₀ : Nat)
    (he₀ : e₀ < elist.length) (hold : ¬ P e₀) (hnew : P' e₀) (hother : ∀ e, e ≠ e₀ → (P' e ↔ P e)) :
    inSum elist (fun e => if P' e then 1 else 0) w =
      inSum elist (fun e => if P e then 1 else 0) w + if elist.getD e₀ 0 = w then 1 else 0 := by
  have hone : inSum elist (fun e => if e = e₀ then 1 else 0) w =
      if elist.getD e₀ 0 = w then 1 else 0 := by
    unfold inSum
    rw [Finset.sum_eq_single e₀]
    · dsimp only
      rw [if_pos rfl]
    · intro e _ hne
      dsimp only
      rw [if_neg hne, ite_self]
    · intro hn
      exact absurd (Finset.mem_range.mpr he₀) hn
  rw [← hone, ← inSum_add]
  apply inSum_congr
  intro e _ _
  by_cases hee : e = e₀
  · subst hee
    rw [if_pos hnew, if_neg hold, if_pos rfl, Int.zero_add]
  · rw [if_neg hee, Int.add_zero]
    exact if_congr (hother e hee) rfl rfl

/-- When no term exceeds 1 and the sum reaches the number of edges, all terms are 1. -/
theorem eq_one_of_inSum (hle : ∀ e, e < elist.length → elist.getD e 0 = w → f e ≤ 1)
    (hsum : inSum elist (fun _ => 1) w ≤ inSum elist f w) :
    ∀ e, e < elist.length → elist.getD e 0 = w → f e = 1 := by
  -- the missing amounts are nonnegative and add up to at most 0
  have hnonneg : ∀ e ∈ Finset.range elist.length,
      0 ≤ if elist.getD e 0 = w then 1 - f e else 0 := by
    intro e he
    split
    · next hd =>
      have := hle e (Finset.mem_range.mp he) hd
      omega
    · exact Int.le_refl 0
  have hzero : ∑ e ∈ Finset.range elist.length, (if elist.getD e 0 = w then 1 - f e else 0) = 0 := by
    have hadd : inSum elist (fun e => f e + (1 - f e)) w = inSum elist f w +
        ∑ e ∈ Finset.range elist.length, (if elist.getD e 0 = w then 1 - f e else 0) := inSum_add
    have hone : inSum elist (fun e => f e + (1 - f e)) w = inSum elist (fun _ => 1) w :=
      inSum_congr fun e _ _ => by omega
    have hpos := Finset.sum_nonneg hnonneg
    omega
  intro e he hd
  have := (Finset.sum_eq_zero_iff_of_nonneg hnonneg).mp hzero e (Finset.mem_range.mpr he)
  rw [if_pos hd] at this
  omega

end InSum

/-! ## One step -/

/-- A compressed graph with the source of every edge. -/
structure Sourced (vlist elist : List Int) (V k : Nat) (src : Nat → Nat) : Prop where
  graph : RuleGraph vlist elist V k
  last : vlist.getD (V + k) 0 = elist.length
  source : ∀ e : Nat, e < elist.length → IsSource vlist (src e) e

theorem exists_sourced {vlist elist : List Int} {V k : Nat} (hg : RuleGraph vlist elist V k)
    (hlast : vlist.getD (V + k) 0 = elist.length) : ∃ src, Sourced vlist elist V k src := by
  have hex : ∀ e : Nat, ∃ v, e < elist.length → IsSource vlist v e := by
    intro e
    by_cases he : e < elist.length
    · obtain ⟨v, -, hs⟩ := exists_row hg hlast he
      exact ⟨v, fun _ => hs⟩
    · exact ⟨0, fun h => absurd h he⟩
  choose src hsrc using hex
  exact ⟨src, hg, hlast, hsrc⟩

section Step

variable {vlist elist : List Int} {V k numP : Nat} {src : Nat → Nat}

namespace Sourced

theorem ends (h : Sourced vlist elist V k src) {e : Nat} (he : e < elist.length) :
    src e < V + k ∧ 0 ≤ elist.getD e 0 ∧ elist.getD e 0 < (V : Int) + k := by
  have hs := h.source e he
  have hlen := h.graph.length
  have hv : src e < V + k := by
    have := hs.1
    omega
  exact ⟨hv, h.graph.entries _ hv _
    ((mem_row_iff h.graph.valid).mpr ⟨e, hs, by rw [Int.toNat_natCast]⟩)⟩

/-- The edges of a row are those with it as source. -/
theorem source_iff (h : Sourced vlist elist V k src) {v e : Nat} (he : e < elist.length) :
    IsSource vlist v e ↔ src e = v := by
  constructor
  · intro hs
    exact (h.source e he).unique h.graph.valid hs
  · rintro rfl
    exact h.source e he

/-- An entry of a row is the end of an edge from it. -/
theorem exists_edge (h : Sourced vlist elist V k src) {p w : Nat}
    (hw : (w : Int) ∈ Csr.row vlist elist p) :
    ∃ e, e < elist.length ∧ src e = p ∧ elist.getD e 0 = w := by
  obtain ⟨e, hs, he⟩ := (mem_row_iff h.graph.valid).mp hw
  have hr := hs.range h.graph.valid
  obtain ⟨e, rfl⟩ := Int.eq_ofNat_of_zero_le hr.1
  exact ⟨e, by omega, (h.source_iff (by omega)).mp hs, by rw [← he, Int.toNat_natCast]⟩

end Sourced

/-- Node `v` propagates in the next step. -/
def Active (elist : List Int) (V numP : Nat) (src : Nat → Nat) (s : FusionState) (v : Int) : Prop :=
  (s.step = 0 ∧ v < V) ∨ (inSum elist (fun _ => 1) v ≤ s.AC.cells v ∧
    (s.PC.cells v = 0 ∨ ∀ e, e < elist.length → (src e : Int) = v →
      s.PC.cells v ≤ s.PC.cells (elist.getD e 0)) ∧ s.PC.cells v < numP)

/-- `in_degree` is the number of edges to a node. -/
structure Degrees (elist : List Int) (V k : Nat) (inDegree : Block Int) : Prop where
  size : inDegree.size = (V : Int) + k
  cells : ∀ w : Int, 0 ≤ w → w < (V : Int) + k → inDegree.cells w = inSum elist (fun _ => 1) w

theorem arrive_eq (h : Sourced vlist elist V k src) {e : Nat} (he : e < elist.length)
    {b : Block Int} (hb : b.size = (V : Int) + k) :
    arrive elist e b = .ok (b.upd (elist.getD e 0) fun a => a + 1) := by
  have hends := h.ends he
  rw [arrive, Block.read_getD he 0, Run.ok_bind,
    Block.modify_eq (⟨hends.2.1, by rw [hb]; exact hends.2.2⟩ : b.InB _)]

theorem inDegrees_eq (h : Sourced vlist elist V k src) :
    ∃ inDegree, inDegrees elist (V + k) = .ok inDegree ∧ Degrees elist V k inDegree := by
  have hmeets : Run.Meets (fun _ => False) (inDegrees elist (V + k)) (fun d =>
      0 ≤ (elist.length : Int) ∧ d.size = (V : Int) + k ∧
      ∀ w, d.cells w = inSum elist (fun e => if (e : Int) < (elist.length : Int) then 1 else 0) w) := by
    refine Run.meets_forLoop (fun i (d : Block Int) => 0 ≤ i ∧ d.size = (V : Int) + k ∧
      ∀ w, d.cells w = inSum elist (fun e => if (e : Int) < i then 1 else 0) w) (elist.length : Int)
      ?_ elist.length 0 _ (by omega) ⟨Int.le_refl 0, by push_cast; rfl, fun w => ?_⟩
    · rintro i d hi ⟨h0, hsize, hcells⟩
      obtain ⟨i, rfl⟩ := Int.eq_ofNat_of_zero_le h0
      rw [arrive_eq h (by omega) hsize, Run.meets_ok]
      refine ⟨by omega, hsize, fun w => ?_⟩
      rw [inSum_insert (P := fun e : Nat => (e : Int) < (i : Int)) i (by omega) (by omega)
        (by omega) (fun e hne => by omega), Block.cells_upd]
      by_cases hw : w = elist.getD i 0
      · rw [if_pos hw, if_pos hw.symm, ← hw, hcells]
      · rw [if_neg hw, if_neg (Ne.symm hw), hcells, Int.add_zero]
    · exact inSum_zero.symm.trans (inSum_congr fun e _ _ => by rw [if_neg (by omega)])
  obtain ⟨d, hrun, -, hsize, hcells⟩ := hmeets.exists_ok fun e he => he.elim
  refine ⟨d, hrun, hsize, fun w _ _ => ?_⟩
  rw [hcells]
  exact inSum_congr fun e he _ => if_pos (by omega)

/-- The bounds that a step needs. -/
structure FusionOk (V k numP : Nat) (s : FusionState) : Prop where
  pcSize : s.PC.size = (V : Int) + k
  acSize : s.AC.size = (V : Int) + k
  orderSize : s.order.size = (numP : Int) * (V + k)
  pc : ∀ v : Int, 0 ≤ v → v < (V : Int) + k → 0 ≤ s.PC.cells v ∧ s.PC.cells v ≤ numP
  passes : 1 ≤ numP
  start : s.step = 0 → ∀ v : Int, 0 ≤ v → v < (V : Int) + k → s.PC.cells v = 0

/-- The loop over the successors finds out whether one of them has had fewer passes. -/
theorem noSlower_loop (h : Sourced vlist elist V k src) {PC : Block Int}
    (hsize : PC.size = (V : Int) + k) {v : Nat} (hv : v < V + k) :
    ∃ ok, forEdges (noSlower PC elist (PC.cells v)) vlist v true = .ok ok ∧
      (ok = true ↔ ∀ e, e < elist.length → src e = v →
        PC.cells v ≤ PC.cells (elist.getD e 0)) := by
  have hlen := h.graph.length
  have hloop := meets_forEdges (E := fun _ => False) h.graph.valid
    (f := noSlower PC elist (PC.cells v)) (v := v) (by omega)
    (fun i ok => ok = true ↔ ∀ e : Nat, (e : Int) < i → e < elist.length → src e = v →
      PC.cells v ≤ PC.cells (elist.getD e 0)) (s := true) ?_ ?_
  · obtain ⟨ok, hok, hiff⟩ := hloop.exists_ok fun e he => he.elim
    refine ⟨ok, hok, hiff.trans ⟨fun hall e he hev => ?_, fun hall e _ => hall e⟩⟩
    exact hall e ((h.source_iff he).mpr hev).2.2 he hev
  · rintro i ok hsrc hiff
    have hr := hsrc.range h.graph.valid
    obtain ⟨i, rfl⟩ := Int.eq_ofNat_of_zero_le hr.1
    have hi : i < elist.length := by omega
    have hsv := (h.source_iff hi).mp hsrc
    have hends := h.ends hi
    have hin : PC.InB (elist.getD i 0) := ⟨hends.2.1, by rw [hsize]; exact hends.2.2⟩
    unfold noSlower
    cases ok with
    | false =>
      rw [if_neg (by simp), Run.meets_pure]
      refine iff_of_false (by simp) fun hall => ?_
      exact absurd (hiff.mpr fun e hei => hall e (by omega)) (by simp)
    | true =>
      rw [if_pos rfl, Block.read_getD hi 0, Run.ok_bind, Block.read_eq hin, Run.ok_bind,
        Run.meets_pure, decide_eq_true_eq]
      constructor
      · intro hle e hei he hev
        by_cases heq : e = i
        · rw [heq]
          exact hle
        · exact hiff.mp rfl e (by omega) he hev
      · intro hall
        exact hall i (by omega) hi hsv
  · refine iff_of_true rfl fun e hei he hev => ?_
    have := ((h.source_iff he).mpr hev).2.1
    omega

theorem isActive_eq (h : Sourced vlist elist V k src) {inDegree : Block Int}
    (hd : Degrees elist V k inDegree) {s : FusionState} (hs : FusionOk V k numP s) {v : Nat}
    (hv : v < V + k) : ∃ b, isActive inDegree vlist elist V numP s v = .ok b ∧
      (b = true ↔ Active elist V numP src s v) := by
  have hac : s.AC.InB v := ⟨by omega, by rw [hs.acSize]; omega⟩
  have hpc : s.PC.InB v := ⟨by omega, by rw [hs.pcSize]; omega⟩
  have hdeg : inDegree.InB v := ⟨by omega, by rw [hd.size]; omega⟩
  have hcell := hd.cells v (by omega) (by omega)
  have hlen := h.graph.length
  unfold isActive Active
  by_cases hstep : s.step = 0 ∧ (v : Int) < V
  · rw [if_pos hstep]
    exact ⟨true, rfl, iff_of_true rfl (Or.inl hstep)⟩
  · rw [if_neg hstep, condPropagate, Block.read_eq hac, Run.ok_bind, Block.read_eq hdeg, Run.ok_bind,
      hcell]
    by_cases hlt : s.AC.cells v < inSum elist (fun _ => 1) v
    · rw [if_pos hlt, Run.pure_bind, Block.read_eq hpc, Run.ok_bind]
      exact ⟨false, rfl, iff_of_false (by simp) fun hc => hc.elim hstep fun hc => by omega⟩
    · rw [if_neg hlt, Block.read_eq hpc, Run.ok_bind]
      by_cases hzero : s.PC.cells v = 0
      · rw [if_pos hzero, Run.pure_bind, Run.ok_bind]
        refine ⟨_, rfl, ?_⟩
        rw [Bool.true_and, decide_eq_true_eq]
        exact ⟨fun hp => Or.inr ⟨by omega, Or.inl hzero, hp⟩,
          fun hc => (hc.resolve_left hstep).2.2⟩
      · rw [if_neg hzero]
        obtain ⟨ok, hok, hall⟩ := noSlower_loop h hs.pcSize hv
        rw [hok, Run.ok_bind, Run.ok_bind]
        refine ⟨_, rfl, ?_⟩
        rw [Bool.and_eq_true, decide_eq_true_eq, hall]
        constructor
        · rintro ⟨hall, hp⟩
          exact Or.inr ⟨by omega, Or.inr fun e he hev => hall e he (by omega), hp⟩
        · intro hc
          obtain ⟨-, hor, hp⟩ := hc.resolve_left hstep
          exact ⟨fun e he hev => hor.resolve_left hzero e he (by omega), hp⟩

instance (elist : List Int) (V numP : Nat) (src : Nat → Nat) (s : FusionState) (v : Int) :
    Decidable (Active elist V numP src s v) := by
  unfold Active
  infer_instance

/-- Different nodes and passes have different places in `order`. -/
theorem index_inj {n p q v w : Int} (hv0 : 0 ≤ v) (hv : v < n) (hw0 : 0 ≤ w) (hw : w < n)
    (h : p * n + v = q * n + w) : p = q ∧ v = w := by
  have hpq : p = q := by
    have h₁ : (p * n + v) / n = p := by
      rw [Int.add_comm, Int.add_mul_ediv_right _ _ (by omega), Int.ediv_eq_zero_of_lt hv0 hv,
        Int.zero_add]
    have h₂ : (q * n + w) / n = q := by
      rw [Int.add_comm, Int.add_mul_ediv_right _ _ (by omega), Int.ediv_eq_zero_of_lt hw0 hw,
        Int.zero_add]
    rw [← h₁, ← h₂, h]
  subst hpq
  exact ⟨rfl, by omega⟩

/-- The loop over the nodes has passed `i` of them. -/
structure ActivationInv (elist : List Int) (V k numP : Nat) (src : Nat → Nat) (s : FusionState)
    (i : Nat) (t : Activation) : Prop where
  list : ∀ v, v ∈ t.activeList ↔ 0 ≤ v ∧ v < (i : Int) ∧ Active elist V numP src s v
  nodup : t.activeList.Nodup
  pcSize : t.tmpPC.size = (V : Int) + k
  orderSize : t.order.size = (numP : Int) * (V + k)
  pc : ∀ v : Int, 0 ≤ v → t.tmpPC.cells v =
    s.PC.cells v + if v < i ∧ Active elist V numP src s v then 1 else 0
  order : ∀ v p : Int, 0 ≤ v → v < (V : Int) + k → t.order.cells (p * (V + k) + v) =
    if v < i ∧ Active elist V numP src s v ∧ p = s.PC.cells v then s.step
    else s.order.cells (p * (V + k) + v)
  count : t.activeCount = s.activeCount +
    ∑ v ∈ Finset.range i, if Active elist V numP src s (v : Int) then (1 : Int) else 0

namespace ActivationInv

variable {s : FusionState} {i : Nat} {t : Activation}

/-- A node that is not active is passed over. -/
theorem skip (ht : ActivationInv elist V k numP src s i t)
    (hno : ¬ Active elist V numP src s i) : ActivationInv elist V k numP src s (i + 1) t := by
  refine ⟨fun v => ?_, ht.nodup, ht.pcSize, ht.orderSize, fun v h0 => ?_, fun v p h0 hv => ?_, ?_⟩
  · rw [ht.list]
    by_cases hvi : v = i
    · subst hvi
      exact iff_of_false (by omega) fun hc => hno hc.2.2
    · push_cast
      refine and_congr_right fun _ => and_congr_left fun _ => ?_
      omega
  · rw [ht.pc v h0]
    congr 1
    by_cases hvi : v = i
    · subst hvi
      rw [if_neg (by omega), if_neg fun hc => hno hc.2]
    · exact if_congr (and_congr_left fun _ => by omega) rfl rfl
  · rw [ht.order v p h0 hv]
    by_cases hvi : v = i
    · subst hvi
      rw [if_neg (by omega), if_neg fun hc => hno hc.2.1]
    · exact if_congr (and_congr_left fun _ => by omega) rfl rfl
  · rw [Finset.sum_range_succ, if_neg hno, Int.add_zero]
    exact ht.count

/-- An active node begins a pass. -/
theorem take (ht : ActivationInv elist V k numP src s i t) (hi : i < V + k)
    (hyes : Active elist V numP src s i) : ActivationInv elist V k numP src s (i + 1)
      { activeList := t.activeList ++ [(i : Int)]
        tmpPC := t.tmpPC.upd i fun a => a + 1
        order := t.order.upd (s.PC.cells i * ((V : Int) + k) + i) fun _ => s.step
        activeCount := t.activeCount + 1 } := by
  refine ⟨fun v => ?_, ?_, ht.pcSize, ht.orderSize, fun v h0 => ?_, fun v p h0 hv => ?_, ?_⟩
  · dsimp only
    rw [List.mem_append, List.mem_singleton, ht.list]
    by_cases hvi : v = i
    · subst hvi
      exact iff_of_true (Or.inr rfl) ⟨by omega, by omega, hyes⟩
    · rw [or_iff_left hvi]
      push_cast
      refine and_congr_right fun _ => and_congr_left fun _ => ?_
      omega
  · dsimp only
    rw [← List.concat_eq_append]
    exact ht.nodup.concat fun hmem => by have := (ht.list i).mp hmem; omega
  · dsimp only
    by_cases hvi : v = i
    · subst hvi
      rw [Block.cells_upd_self, ht.pc _ h0, if_neg (by omega), if_pos ⟨by omega, hyes⟩]
      omega
    · rw [Block.cells_upd_ne _ _ hvi, ht.pc v h0]
      congr 1
      exact if_congr (and_congr_left fun _ => by omega) rfl rfl
  · dsimp only
    by_cases hidx : p * ((V : Int) + k) + v = s.PC.cells i * (V + k) + i
    · obtain ⟨rfl, rfl⟩ := index_inj h0 hv (by omega) (by omega) hidx
      rw [Block.cells_upd_self, if_pos ⟨by omega, hyes, rfl⟩]
    · rw [Block.cells_upd_ne _ _ hidx, ht.order v p h0 hv]
      refine if_congr ?_ rfl rfl
      by_cases hvi : v = i
      · subst hvi
        refine iff_of_false (by omega) fun hc => hidx ?_
        rw [hc.2.2]
      · exact and_congr_left fun _ => by omega
  · dsimp only
    rw [Finset.sum_range_succ, if_pos hyes, ht.count]
    omega

end ActivationInv

/-- An active node has a pass left. -/
theorem FusionOk.lt_of_active {s : FusionState} (hs : FusionOk V k numP s) {v : Int} (h0 : 0 ≤ v)
    (hv : v < (V : Int) + k) (ha : Active elist V numP src s v) : s.PC.cells v < numP := by
  rcases ha with hstart | hready
  · have := hs.start hstart.1 v h0 hv
    have := hs.passes
    omega
  · exact hready.2.2

/-- There is a place in `order` for this pass. -/
theorem FusionOk.place_inB {s : FusionState} (hs : FusionOk V k numP s) {i : Nat} (hi : i < V + k)
    (ha : Active elist V numP src s i) {order : Block Int}
    (hsize : order.size = (numP : Int) * (V + k)) :
    order.InB (s.PC.cells i * ((V : Int) + k) + i) := by
  have hlt := hs.lt_of_active (by omega) (by omega) ha
  have hnonneg := (hs.pc i (by omega) (by omega)).1
  refine ⟨Int.add_nonneg (Int.mul_nonneg hnonneg (by omega)) (by omega), ?_⟩
  rw [hsize]
  have hle : (s.PC.cells i + 1) * ((V : Int) + k) ≤ (numP : Int) * (V + k) :=
    Int.mul_le_mul_of_nonneg_right (by omega) (by omega)
  rw [Int.add_mul, Int.one_mul] at hle
  omega

theorem activate_meets (h : Sourced vlist elist V k src) {inDegree : Block Int}
    (hd : Degrees elist V k inDegree) {s : FusionState} (hs : FusionOk V k numP s) {i : Nat}
    (hi : i < V + k) {t : Activation} (ht : ActivationInv elist V k numP src s i t) :
    Run.Meets (fun _ => False) (activate inDegree vlist elist V k numP s i t)
      (ActivationInv elist V k numP src s (i + 1)) := by
  obtain ⟨b, hb, hiff⟩ := isActive_eq h hd hs hi
  have hpc : s.PC.InB i := ⟨by omega, by rw [hs.pcSize]; omega⟩
  have htmp : t.tmpPC.InB i := ⟨by omega, by rw [ht.pcSize]; omega⟩
  rw [activate, hb, Run.ok_bind]
  cases b with
  | false =>
    rw [if_neg (by simp), Run.meets_pure]
    exact ht.skip (hiff.not.mp (by simp))
  | true =>
    have hyes : Active elist V numP src s i := hiff.mp rfl
    rw [if_pos rfl, Block.read_eq hpc, Run.ok_bind,
      Block.write_eq (hs.place_inB hi hyes ht.orderSize), Run.ok_bind, Block.modify_eq htmp,
      Run.ok_bind, Run.meets_pure]
    exact ht.take hi hyes

/-- What had arrived at the active nodes is used up. -/
theorem clear_eq {l : List Int} (hl : ∀ v ∈ l, 0 ≤ v ∧ v < (V : Int) + k) (hnd : l.Nodup)
    {AC : Block Int} (hsize : AC.size = (V : Int) + k) :
    ∃ cleared, l.foldlM (fun (b : Block Int) vid => b.write vid 0) AC = (.ok cleared : Run _) ∧
      cleared.size = (V : Int) + k ∧ ∀ w, cleared.cells w = if w ∈ l then 0 else AC.cells w := by
  induction l generalizing AC with
  | nil => exact ⟨AC, rfl, hsize, fun w => by rw [if_neg List.not_mem_nil]⟩
  | cons a l ih =>
    rw [List.nodup_cons] at hnd
    have ha := hl a List.mem_cons_self
    obtain ⟨cleared, hrun, hcsize, hcells⟩ :=
      ih (fun v hv => hl v (List.mem_cons_of_mem _ hv)) hnd.2
        (show (AC.upd a fun _ => 0).size = (V : Int) + k from hsize)
    refine ⟨cleared, ?_, hcsize, fun w => ?_⟩
    · rw [List.foldlM_cons, Block.write_eq (⟨ha.1, by rw [hsize]; exact ha.2⟩ : AC.InB a),
        Run.ok_bind]
      exact hrun
    · rw [hcells, Block.cells_upd]
      by_cases hwa : w = a
      · subst hwa
        rw [if_neg hnd.1, if_pos rfl, if_pos List.mem_cons_self]
      · rw [if_neg hwa]
        exact if_congr (by rw [List.mem_cons, or_iff_right hwa]) rfl rfl

/-- The active nodes send along their edges. -/
theorem send_eq (h : Sourced vlist elist V k src) {l : List Int}
    (hl : ∀ v ∈ l, 0 ≤ v ∧ v < (V : Int) + k) (hnd : l.Nodup) {b : Block Int}
    (hsize : b.size = (V : Int) + k) :
    ∃ b', l.foldlM (fun b vid => forEdges (arrive elist) vlist vid b) b = .ok b' ∧
      b'.size = (V : Int) + k ∧ ∀ w, b'.cells w =
        b.cells w + inSum elist (fun e => if (src e : Int) ∈ l then 1 else 0) w := by
  have hlen := h.graph.length
  induction l generalizing b with
  | nil =>
    refine ⟨b, rfl, hsize, fun w => ?_⟩
    have hzero : inSum elist (fun e => if (src e : Int) ∈ ([] : List Int) then 1 else 0) w = 0 :=
      (inSum_congr fun e _ _ => if_neg List.not_mem_nil).trans inSum_zero
    rw [hzero, Int.add_zero]
  | cons a l ih =>
    rw [List.nodup_cons] at hnd
    have ha := hl a List.mem_cons_self
    obtain ⟨a, rfl⟩ := Int.eq_ofNat_of_zero_le ha.1
    -- the edges of row `a`, one after the other
    have hrow := meets_forEdges (E := fun _ => False) h.graph.valid (f := arrive elist) (v := a)
      (by omega) (fun i (c : Block Int) => c.size = (V : Int) + k ∧ ∀ w, c.cells w =
        b.cells w + inSum elist (fun e => if src e = a ∧ (e : Int) < i then 1 else 0) w)
      (s := b) ?_ ⟨hsize, fun w => ?_⟩
    · obtain ⟨c, hc, hcsize, hcells⟩ := hrow.exists_ok fun e he => he.elim
      obtain ⟨b', hrun, hbsize, hbcells⟩ :=
        ih (fun v hv => hl v (List.mem_cons_of_mem _ hv)) hnd.2 hcsize
      refine ⟨b', ?_, hbsize, fun w => ?_⟩
      · rw [List.foldlM_cons, hc, Run.ok_bind]
        exact hrun
      · rw [hbcells, hcells, Int.add_assoc, ← inSum_add]
        congr 1
        apply inSum_congr
        intro e he _
        by_cases hea : src e = a
        · have hlt := ((h.source_iff he).mpr hea).2.2
          rw [if_pos ⟨hea, hlt⟩, if_neg (by rw [hea]; exact hnd.1),
            if_pos (by rw [hea]; exact List.mem_cons_self)]
          rfl
        · rw [if_neg fun hc => hea hc.1, Int.zero_add]
          refine if_congr ?_ rfl rfl
          rw [List.mem_cons, or_iff_right (by omega)]
    · rintro i c hsrc ⟨hcsize, hcells⟩
      have hr := hsrc.range h.graph.valid
      obtain ⟨i, rfl⟩ := Int.eq_ofNat_of_zero_le hr.1
      have hi : i < elist.length := by omega
      have hsa := (h.source_iff hi).mp hsrc
      rw [arrive_eq h hi hcsize, Run.meets_ok]
      refine ⟨hcsize, fun w => ?_⟩
      rw [inSum_insert (P := fun e : Nat => src e = a ∧ (e : Int) < (i : Int)) i hi
        (by omega) (by omega) (fun e hne => by omega), Block.cells_upd]
      by_cases hw : w = elist.getD i 0
      · rw [if_pos hw, if_pos hw.symm, ← hw, hcells]
        omega
      · rw [if_neg hw, if_neg (Ne.symm hw), hcells, Int.add_zero]
    · have hzero : inSum elist
          (fun e => if src e = a ∧ (e : Int) < vlist.getD a 0 then 1 else 0) w = 0 := by
        refine (inSum_congr fun e he _ => if_neg fun hc => ?_).trans inSum_zero
        have := ((h.source_iff he).mpr hc.1).2.1
        omega
      rw [hzero, Int.add_zero]

/-- What a step does. -/
structure Stepped (elist : List Int) (V k numP : Nat) (src : Nat → Nat) (s s' : FusionState) :
    Prop where
  step : s'.step = s.step + 1
  pcSize : s'.PC.size = (V : Int) + k
  acSize : s'.AC.size = (V : Int) + k
  orderSize : s'.order.size = (numP : Int) * (V + k)
  pc : ∀ v : Int, 0 ≤ v → v < (V : Int) + k → s'.PC.cells v =
    s.PC.cells v + if Active elist V numP src s v then 1 else 0
  ac : ∀ w : Int, 0 ≤ w → w < (V : Int) + k → s'.AC.cells w =
    (if Active elist V numP src s w then 0 else s.AC.cells w) +
      inSum elist (fun e => if Active elist V numP src s (src e) then 1 else 0) w
  order : ∀ v p : Int, 0 ≤ v → v < (V : Int) + k → s'.order.cells (p * (V + k) + v) =
    if Active elist V numP src s v ∧ p = s.PC.cells v then s.step
    else s.order.cells (p * (V + k) + v)
  count : s'.activeCount = s.activeCount +
    ∑ v ∈ Finset.range (V + k), if Active elist V numP src s (v : Int) then (1 : Int) else 0

theorem fusionStep_eq (h : Sourced vlist elist V k src) {inDegree : Block Int}
    (hd : Degrees elist V k inDegree) {s : FusionState} (hs : FusionOk V k numP s) :
    ∃ s', fusionStep inDegree vlist elist V k numP s = .ok s' ∧
      Stepped elist V k numP src s s' := by
  have hloop : Run.Meets (fun _ => False)
      (Run.forLoop (activate inDegree vlist elist V k numP s) (V + k) 0
        ⟨[], s.PC, s.order, s.activeCount⟩)
      (fun t => 0 ≤ ((V + k : Nat) : Int) ∧
        ActivationInv elist V k numP src s ((V + k : Nat) : Int).toNat t) := by
    refine Run.meets_forLoop (fun i t => 0 ≤ i ∧ ActivationInv elist V k numP src s i.toNat t)
      ((V + k : Nat) : Int) (fun i t hi ht => ?_) (V + k) 0 _ (by omega)
      ⟨Int.le_refl 0, fun v => ?_, List.nodup_nil, hs.pcSize, hs.orderSize, fun v h0 => ?_,
        fun v p h0 hv => ?_, ?_⟩
    · obtain ⟨i, rfl⟩ := Int.eq_ofNat_of_zero_le ht.1
      have hmeets := activate_meets h hd hs (by omega : i < V + k) ht.2
      rw [show ((i : Int) + 1).toNat = i + 1 by omega]
      exact hmeets.mono fun t' ht' => ⟨by omega, ht'⟩
    · exact iff_of_false List.not_mem_nil (by omega)
    · rw [if_neg (by omega), Int.add_zero]
    · rw [if_neg (by omega)]
    · simp
  obtain ⟨t, hrun, -, ht⟩ := hloop.exists_ok fun e he => he.elim
  rw [Int.toNat_natCast] at ht
  have hmem : ∀ v ∈ t.activeList, 0 ≤ v ∧ v < (V : Int) + k := fun v hv => by
    have := (ht.list v).mp hv
    omega
  obtain ⟨cleared, hclear, hcsize, hccells⟩ := clear_eq hmem ht.nodup hs.acSize
  obtain ⟨AC', hsend, hasize, hacells⟩ := send_eq h hmem ht.nodup hcsize
  refine ⟨⟨t.tmpPC, AC', t.order, t.activeCount, s.step + 1⟩, ?_, rfl, ht.pcSize, hasize,
    ht.orderSize, fun v h0 hv => ?_, fun w h0 hw => ?_, fun v p h0 hv => ?_, ht.count⟩
  · rw [fusionStep, hrun, Run.ok_bind, hclear, Run.ok_bind, hsend, Run.ok_bind]
    rfl
  · rw [ht.pc v h0]
    congr 1
    exact if_congr (and_iff_right (by omega)) rfl rfl
  · have hlist : ∀ v : Int, 0 ≤ v → v < (V : Int) + k →
        (v ∈ t.activeList ↔ Active elist V numP src s v) := by
      intro v h0 hv
      rw [ht.list]
      exact ⟨fun hc => hc.2.2, fun hc => ⟨h0, by omega, hc⟩⟩
    dsimp only
    rw [hacells, hccells]
    congr 1
    · exact if_congr (hlist w h0 hw) rfl rfl
    · apply inSum_congr
      intro e he _
      have := (h.ends he).1
      exact if_congr (hlist _ (by omega) (by omega)) rfl rfl
  · rw [ht.order v p h0 hv]
    exact if_congr (and_iff_right (by omega)) rfl rfl

end Step

end Laconic.Graph
