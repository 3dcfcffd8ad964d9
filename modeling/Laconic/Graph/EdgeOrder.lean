import Laconic.Graph.Order

/-!
# The sweeps of gen_edge_order

After the sweep number `s` every edge whose source is at level `s` or below has the level of its
source, and the in-degree of a rule is the number of the other edges to it.
-/

namespace Laconic.Graph

open Levels

section Sweep

variable {vlist elist : List Int} {V k : Nat} {src dst : Block Int} {lv : Int → Nat}

/-- The arrays that `csr2coo` returns, with the levels of the nodes. -/
structure Coo (vlist elist : List Int) (V k : Nat) (src dst : Block Int) (lv : Int → Nat) :
    Prop where
  leveled : Leveled vlist elist V k (fun e : Nat => src.cells e) lv
  srcSize : src.size = elist.length
  dstSize : dst.size = elist.length
  dst : ∀ e : Nat, e < elist.length → dst.cells e = elist.getD e 0

/-- Counting over one more edge. -/
theorem countP_range_succ (p : Nat → Bool) (i : Nat) :
    (List.range (i + 1)).countP p = (List.range i).countP p + if p i then 1 else 0 := by
  rw [List.range_succ, List.countP_append, List.countP_singleton]

/-- The loop over the edges that counts those to a rule. -/
theorem countEdge_loop {d : Block Int} {m : Nat} (hsize : d.size = m)
    (hd : ∀ e : Nat, e < m → d.cells e < (V : Int) + k) :
    ∃ inDegree, Run.forLoop (countEdge d V) m 0 (Block.alloc k fun _ => 0) = .ok inDegree ∧
      inDegree.size = k ∧ ∀ r : Int, 0 ≤ r → r < k → inDegree.cells r =
        (List.range m).countP fun e : Nat => decide (d.cells e = V + r) := by
  have hmeets : Run.Meets (fun _ => False)
      (Run.forLoop (countEdge d V) m 0 (Block.alloc k fun _ => 0))
      (fun deg => 0 ≤ (m : Int) ∧ deg.size = k ∧ ∀ r : Int, 0 ≤ r → r < k → deg.cells r =
        (List.range (m : Int).toNat).countP fun e : Nat => decide (d.cells e = V + r)) := by
    refine Run.meets_forLoop (fun i (deg : Block Int) => 0 ≤ i ∧ deg.size = k ∧
      ∀ r : Int, 0 ≤ r → r < k → deg.cells r =
        (List.range i.toNat).countP fun e : Nat => decide (d.cells e = V + r)) (m : Int) ?_ m 0 _
      (by omega) ⟨Int.le_refl 0, rfl, fun r _ _ => rfl⟩
    rintro i deg hi ⟨h0, hdeg, hcount⟩
    obtain ⟨i, rfl⟩ := Int.eq_ofNat_of_zero_le h0
    have hb := hd i (by omega)
    have hin : d.InB i := ⟨h0, by omega⟩
    rw [show ((i : Int) + 1).toNat = i + 1 by omega, countEdge, Block.read_eq hin, Run.ok_bind]
    split
    · next hV =>
      rw [Block.modify_eq (⟨by omega, by omega⟩ : deg.InB _), Run.meets_ok]
      refine ⟨by omega, hdeg, fun r hr0 hr => ?_⟩
      rw [countP_range_succ, Block.cells_upd]
      have hr' := hcount r hr0 hr
      rw [Int.toNat_natCast] at hr'
      by_cases hrd : r = d.cells i - V
      · rw [if_pos hrd, ← hrd, hr', if_pos (by rw [decide_eq_true_eq]; omega)]
        push_cast
        rfl
      · rw [if_neg hrd, hr', if_neg (by rw [decide_eq_true_eq]; omega)]
        rfl
    · next hV =>
      rw [Run.meets_pure]
      refine ⟨by omega, hdeg, fun r hr0 hr => ?_⟩
      have hr' := hcount r hr0 hr
      rw [Int.toNat_natCast] at hr'
      rw [countP_range_succ, hr', if_neg (by rw [decide_eq_true_eq]; omega)]
      rfl
  obtain ⟨deg, hrun, -, hdeg, hcount⟩ := hmeets.exists_ok fun e he => he.elim
  exact ⟨deg, hrun, hdeg, hcount⟩

/-- The state after the sweep number `s`. -/
structure EdgeInv (vlist elist : List Int) (V k : Nat) (src : Block Int) (lv : Int → Nat) (s : Nat)
    (t : EdgeState) : Prop where
  orderSize : t.order.size = elist.length
  degreeSize : t.degree.size = k
  order : ∀ e : Nat, e < elist.length →
    t.order.cells e = if lv (src.cells e) ≤ s then (lv (src.cells e) : Int) else INIT
  count : t.processCnt = (List.range elist.length).countP fun e : Nat => decide (lv (src.cells e) ≤ s)
  degree : ∀ r : Int, 0 ≤ r → r < k → t.degree.cells r =
    pending (List.range elist.length) (fun e : Nat => src.cells e) (fun e => elist.getD e 0) lv s (V + r)

/-- The state when the loop before the sweeps has passed `i` edges. -/
structure StartInv (elist : List Int) (V k : Nat) (src : Block Int) (i : Nat) (t : EdgeState) :
    Prop where
  orderSize : t.order.size = elist.length
  degreeSize : t.degree.size = k
  order : ∀ e : Nat, e < elist.length →
    t.order.cells e = if e < i ∧ src.cells e < V then 0 else INIT
  count : t.processCnt = (List.range i).countP fun e : Nat => decide (src.cells e < V)
  degree : ∀ r : Int, 0 ≤ r → r < k → t.degree.cells r =
    (List.range elist.length).countP (fun e : Nat => decide (elist.getD e 0 = V + r)) -
      ((List.range i).countP (fun e : Nat => decide (elist.getD e 0 = V + r ∧ src.cells e < V)) : Int)

theorem startEdge_meets (h : Coo vlist elist V k src dst lv) {i : Nat} (hi : i < elist.length)
    {t : EdgeState} (ht : StartInv elist V k src i t) :
    Run.Meets (fun _ => False) (startEdge src dst V i t) (StartInv elist V k src (i + 1)) := by
  have hends := h.leveled.ends hi
  have hsrc : src.InB i := ⟨by omega, by rw [h.srcSize]; omega⟩
  have hdst : dst.InB i := ⟨by omega, by rw [h.dstSize]; omega⟩
  rw [startEdge, Block.read_eq hsrc, Run.ok_bind, Block.read_eq hdst, Run.ok_bind, h.dst i hi]
  by_cases hV : src.cells i < V
  · have horder : t.order.InB i := ⟨by omega, by rw [ht.orderSize]; omega⟩
    rw [if_pos hV, Block.write_eq horder, Run.ok_bind, Run.meets_bind]
    -- the order of the edge
    have hnew : ∀ e : Nat, e < elist.length → (t.order.upd i fun _ => 0).cells e =
        if e < i + 1 ∧ src.cells e < V then 0 else INIT := by
      intro e he
      by_cases hei : e = i
      · subst hei
        rw [Block.cells_upd_self, if_pos ⟨by omega, hV⟩]
      · rw [Block.cells_upd_ne _ _ (by omega), ht.order e he]
        exact if_congr (by omega) rfl rfl
    have hcnt : t.processCnt + 1 =
        (List.range (i + 1)).countP fun e : Nat => decide (src.cells e < V) := by
      rw [countP_range_succ, if_pos (decide_eq_true hV), ht.count]
      push_cast
      rfl
    split
    · next hd =>
      have hin : t.degree.InB (elist.getD i 0 - V) := ⟨by omega, by rw [ht.degreeSize]; omega⟩
      rw [Block.modify_eq hin, Run.meets_ok, Run.meets_pure]
      refine ⟨ht.orderSize, ht.degreeSize, hnew, hcnt, fun r hr0 hr => ?_⟩
      have hdeg := ht.degree r hr0 hr
      rw [countP_range_succ]
      dsimp only
      rw [Block.cells_upd]
      by_cases hrd : r = elist.getD i 0 - V
      · rw [if_pos hrd, ← hrd, hdeg, if_pos (by rw [decide_eq_true_eq]; omega)]
        push_cast
        omega
      · rw [if_neg hrd, hdeg, if_neg (by rw [decide_eq_true_eq]; omega)]
        rfl
    · next hd =>
      rw [Run.meets_pure, Run.meets_pure]
      refine ⟨ht.orderSize, ht.degreeSize, hnew, hcnt, fun r hr0 hr => ?_⟩
      rw [countP_range_succ, if_neg (by rw [decide_eq_true_eq]; omega)]
      exact ht.degree r hr0 hr
  · rw [if_neg hV, Run.meets_pure]
    refine ⟨ht.orderSize, ht.degreeSize, fun e he => ?_, ?_, fun r hr0 hr => ?_⟩
    · rw [ht.order e he]
      refine if_congr ?_ rfl rfl
      by_cases hei : e = i
      · subst hei
        omega
      · omega
    · rw [countP_range_succ, if_neg (by rw [decide_eq_true_eq]; exact hV)]
      exact ht.count
    · rw [countP_range_succ, if_neg (by rw [decide_eq_true_eq]; omega)]
      exact ht.degree r hr0 hr

/-- Before the first sweep the edges of the vertices are done. -/
theorem StartInv.edgeInv (h : Coo vlist elist V k src dst lv) {t : EdgeState}
    (ht : StartInv elist V k src elist.length t) : EdgeInv vlist elist V k src lv 0 t := by
  have hzero : ∀ e : Nat, lv (src.cells e) ≤ 0 ↔ src.cells e < (V : Int) := fun e => by
    rw [Nat.le_zero]
    exact h.leveled.vertex_iff
  refine ⟨ht.orderSize, ht.degreeSize, fun e he => ?_, ?_, fun r hr0 hr => ?_⟩
  · rw [ht.order e he]
    by_cases hV : src.cells e < V
    · rw [if_pos ⟨he, hV⟩, if_pos ((hzero e).mpr hV), Nat.le_zero.mp ((hzero e).mpr hV)]
      rfl
    · rw [if_neg (by omega), if_neg ((hzero e).not.mpr hV)]
  · rw [ht.count]
    congr 2
    funext e
    exact decide_eq_decide.mpr (hzero e).symm
  · -- the edges to a rule are those of vertices and the others
    have hsplit := countP_split (P := fun e : Nat => elist.getD e 0 = V + r)
      (Q := fun e : Nat => elist.getD e 0 = V + r ∧ src.cells e < V)
      (R := fun e : Nat => elist.getD e 0 = V + r ∧ 0 < lv (src.cells e)) (List.range elist.length)
      (fun e => by have := hzero e; omega) fun e hq => by have := hzero e; omega
    rw [ht.degree r hr0 hr, hsplit, pending]
    push_cast
    omega

/-- The state when the sweep number `s + 1` has passed `i` edges. -/
structure SweepInv (elist : List Int) (V k : Nat) (src : Block Int) (lv : Int → Nat) (s i : Nat)
    (t : EdgeState) : Prop where
  orderSize : t.order.size = elist.length
  degreeSize : t.degree.size = k
  order : ∀ e : Nat, e < elist.length → t.order.cells e =
    if lv (src.cells e) ≤ s ∨ (e < i ∧ lv (src.cells e) = s + 1) then (lv (src.cells e) : Int)
    else INIT
  count : t.processCnt = (List.range elist.length).countP (fun e : Nat => decide (lv (src.cells e) ≤ s)) +
    ((List.range i).countP (fun e : Nat => decide (lv (src.cells e) = s + 1)) : Int)
  degree : ∀ r : Int, 0 ≤ r → r < k → t.degree.cells r = (List.range i).countP fun e =>
    decide (elist.getD e 0 = V + r ∧ lv (src.cells e) = s + 1)

/-- The edge to a rule that has just got its order is still pending. -/
theorem noteDst_eq (h : Coo vlist elist V k src dst lv) {s i : Nat} {u : EdgeState}
    (hu : EdgeInv vlist elist V k src lv s u) (hi : i < elist.length)
    (hlv : lv (src.cells i) = s + 1) {tmp : Block Int} (htmp : tmp.size = k) :
    ∃ tmp', noteDst u.degree V (elist.getD i 0) tmp = .ok tmp' ∧ tmp'.size = k ∧
      ∀ r : Int, 0 ≤ r → r < k →
        tmp'.cells r = tmp.cells r + if elist.getD i 0 = V + r then 1 else 0 := by
  have hends := h.leveled.ends hi
  unfold noteDst
  by_cases hd : (V : Int) ≤ elist.getD i 0
  · have hin : u.degree.InB (elist.getD i 0 - V) := ⟨by omega, by rw [hu.degreeSize]; omega⟩
    have hpos : 0 < u.degree.cells (elist.getD i 0 - V) := by
      rw [hu.degree _ hin.1 (by omega), show (V : Int) + (elist.getD i 0 - V) = elist.getD i 0 by omega]
      have : 0 < pending (List.range elist.length) (fun e : Nat => src.cells e)
          (fun e => elist.getD e 0) lv s (elist.getD i 0) := by
        rw [pending, List.countP_pos_iff]
        exact ⟨i, List.mem_range.mpr hi, by rw [decide_eq_true_eq]; exact ⟨rfl, by omega⟩⟩
      omega
    rw [if_pos hd, Block.read_eq hin, Run.ok_bind, if_pos hpos,
      Block.modify_eq (⟨by omega, by omega⟩ : tmp.InB _)]
    refine ⟨_, rfl, htmp, fun r hr0 hr => ?_⟩
    rw [Block.cells_upd]
    by_cases hrd : r = elist.getD i 0 - V
    · rw [if_pos hrd, if_pos (by omega), hrd]
    · rw [if_neg hrd, if_neg (by omega), Int.add_zero]
  · rw [if_neg hd]
    refine ⟨tmp, rfl, htmp, fun r hr0 _ => ?_⟩
    rw [if_neg (by omega), Int.add_zero]

/-- An edge of another level stays as it is. -/
theorem SweepInv.skip {s i : Nat} {t : EdgeState} (ht : SweepInv elist V k src lv s i t)
    (hne : lv (src.cells i) ≠ s + 1) : SweepInv elist V k src lv s (i + 1) t := by
  refine ⟨ht.orderSize, ht.degreeSize, fun e he => ?_, ?_, fun r hr0 hr => ?_⟩
  · rw [ht.order e he]
    refine if_congr ?_ rfl rfl
    by_cases hei : e = i
    · subst hei
      omega
    · omega
  · rw [countP_range_succ, if_neg (by rw [decide_eq_true_eq]; exact hne)]
    exact ht.count
  · rw [countP_range_succ, if_neg (by rw [decide_eq_true_eq]; exact fun hc => hne hc.2)]
    exact ht.degree r hr0 hr

/-- An edge of this level gets its order, and its target is noted. -/
theorem SweepInv.take {s i : Nat} {t : EdgeState} (ht : SweepInv elist V k src lv s i t)
    (hlv : lv (src.cells i) = s + 1) {tmp : Block Int} (hsize : tmp.size = k)
    (hcells : ∀ r : Int, 0 ≤ r → r < k →
      tmp.cells r = t.degree.cells r + if elist.getD i 0 = V + r then 1 else 0) :
    SweepInv elist V k src lv s (i + 1)
      ⟨t.order.upd i fun _ => (s : Int) + 1, t.processCnt + 1, tmp⟩ := by
  refine ⟨ht.orderSize, hsize, fun e he => ?_, ?_, fun r hr0 hr => ?_⟩
  · dsimp only
    by_cases hei : e = i
    · subst hei
      rw [Block.cells_upd_self, if_pos (Or.inr ⟨by omega, hlv⟩), hlv]
      push_cast
      rfl
    · rw [Block.cells_upd_ne _ _ (by omega), ht.order e he]
      exact if_congr (by omega) rfl rfl
  · dsimp only
    rw [countP_range_succ, if_pos (decide_eq_true hlv), ht.count]
    push_cast
    omega
  · dsimp only
    rw [hcells r hr0 hr, countP_range_succ, ht.degree r hr0 hr]
    by_cases hrd : elist.getD i 0 = V + r
    · rw [if_pos hrd, if_pos (decide_eq_true ⟨hrd, hlv⟩)]
      push_cast
      rfl
    · rw [if_neg hrd, if_neg (by rw [decide_eq_true_eq]; exact fun hc => hrd hc.1)]
      rfl

/-- The test of the sweep: the edges of rules at level `s + 1` are those with in-degree 0 that have
no order yet. -/
theorem SweepInv.test_iff (h : Coo vlist elist V k src dst lv) {s i : Nat} {u t : EdgeState}
    (hu : EdgeInv vlist elist V k src lv s u) (hi : i < elist.length)
    (ht : SweepInv elist V k src lv s i t) (hV : (V : Int) ≤ src.cells i) :
    u.degree.cells (src.cells i - V) = 0 ∧ t.order.cells i = INIT ↔ lv (src.cells i) = s + 1 := by
  have hends := h.leveled.ends hi
  have hbound := h.leveled.bound (src.cells i) hends.1.1 hends.1.2
  have hzero : u.degree.cells (src.cells i - V) = 0 ↔ lv (src.cells i) ≤ s + 1 := by
    rw [hu.degree _ (by omega) (by omega), show (V : Int) + (src.cells i - V) = src.cells i by omega,
      ← h.leveled.levels.pending_eq_zero_iff (show ¬ src.cells i < (V : Int) by omega)]
    exact Int.natCast_eq_zero
  have hinit : t.order.cells i = INIT ↔ ¬ lv (src.cells i) ≤ s := by
    rw [ht.order i hi]
    constructor
    · intro heq hle
      rw [if_pos (Or.inl hle)] at heq
      omega
    · intro hgt
      rw [if_neg (by omega)]
  rw [hzero, hinit]
  omega

theorem sweepEdge_meets (h : Coo vlist elist V k src dst lv) {s i : Nat} {u : EdgeState}
    (hu : EdgeInv vlist elist V k src lv s u) (hi : i < elist.length) {t : EdgeState}
    (ht : SweepInv elist V k src lv s i t) :
    Run.Meets (fun _ => False) (sweepEdge src dst u.degree V ((s : Int) + 1) i t)
      (SweepInv elist V k src lv s (i + 1)) := by
  have hends := h.leveled.ends hi
  have hsrc : src.InB i := ⟨by omega, by rw [h.srcSize]; omega⟩
  have hdst : dst.InB i := ⟨by omega, by rw [h.dstSize]; omega⟩
  have horder : t.order.InB i := ⟨by omega, by rw [ht.orderSize]; omega⟩
  rw [sweepEdge, Block.read_eq hsrc, Run.ok_bind, Block.read_eq hdst, Run.ok_bind, h.dst i hi]
  by_cases hV : (V : Int) ≤ src.cells i
  · have hdeg : u.degree.InB (src.cells i - V) := ⟨by omega, by rw [hu.degreeSize]; omega⟩
    rw [if_pos hV, Block.read_eq hdeg, Run.ok_bind, Block.read_eq horder, Run.ok_bind]
    by_cases hlv : lv (src.cells i) = s + 1
    · obtain ⟨tmp, hrun, hsize, hcells⟩ := noteDst_eq h hu hi hlv ht.degreeSize
      rw [if_pos ((ht.test_iff h hu hi hV).mpr hlv), Block.write_eq horder, Run.ok_bind, hrun,
        Run.ok_bind, Run.meets_pure]
      exact ht.take hlv hsize hcells
    · rw [if_neg fun hc => hlv ((ht.test_iff h hu hi hV).mp hc), Run.meets_pure]
      exact ht.skip hlv
  · rw [if_neg hV, Run.meets_pure]
    apply ht.skip
    rw [h.leveled.vertex_iff.mpr (by omega)]
    omega

/-- The loop after a sweep: the in-degrees go down by what the sweep has noted. -/
theorem subtract_loop {degree tmp : Block Int} (hdeg : degree.size = k) (htmp : tmp.size = k) :
    Run.Meets (fun _ => False)
      (Run.forLoop (fun i (d : Block Int) => do
        let x ← tmp.read i
        d.modify i fun y => y - x) k 0 degree)
      (fun d => d.size = k ∧ ∀ r : Int, 0 ≤ r → r < k →
        d.cells r = degree.cells r - tmp.cells r) := by
  refine (Run.meets_forLoop (fun i (d : Block Int) => 0 ≤ i ∧ d.size = k ∧ ∀ r : Int, 0 ≤ r →
      r < k → d.cells r = degree.cells r - if r < i then tmp.cells r else 0)
    (k : Int) (fun i d hi hd => ?_) k 0 _ (by omega)
    ⟨Int.le_refl 0, hdeg, fun r hr0 _ => by rw [if_neg (by omega), Int.sub_zero]⟩).mono
    fun d hd => ?_
  · obtain ⟨h0, hsize, hcells⟩ := hd
    have hin : tmp.InB i := ⟨h0, by rw [htmp]; exact hi⟩
    have hin' : d.InB i := ⟨h0, by rw [hsize]; exact hi⟩
    rw [Block.read_eq hin, Run.ok_bind, Block.modify_eq hin', Run.meets_ok]
    refine ⟨by omega, hsize, fun r hr0 hr => ?_⟩
    by_cases hri : r = i
    · subst hri
      rw [Block.cells_upd_self, hcells r hr0 hr, if_neg (by omega), if_pos (by omega),
        Int.sub_zero]
    · rw [Block.cells_upd_ne _ _ hri, hcells r hr0 hr]
      congr 1
      exact if_congr (by omega) rfl rfl
  · obtain ⟨-, hsize, hcells⟩ := hd
    exact ⟨hsize, fun r hr0 hr => by rw [hcells r hr0 hr, if_pos hr]⟩

/-- The end of a sweep, with the in-degrees after it, is the state for the next one. -/
theorem SweepInv.next {s : Nat} {u t : EdgeState} (hu : EdgeInv vlist elist V k src lv s u)
    (ht : SweepInv elist V k src lv s elist.length t) {d : Block Int} (hsize : d.size = k)
    (hcells : ∀ r : Int, 0 ≤ r → r < k → d.cells r = u.degree.cells r - t.degree.cells r) :
    EdgeInv vlist elist V k src lv (s + 1) ⟨t.order, t.processCnt, d⟩ := by
  refine ⟨ht.orderSize, hsize, fun e he => ?_, ?_, fun r hr0 hr => ?_⟩
  · dsimp only
    rw [ht.order e he]
    exact if_congr (by omega) rfl rfl
  · have hsplit := countP_split (P := fun e : Nat => lv (src.cells e) ≤ s + 1)
      (Q := fun e : Nat => lv (src.cells e) ≤ s) (R := fun e : Nat => lv (src.cells e) = s + 1)
      (List.range elist.length) (fun e => by omega) fun e hq => by omega
    dsimp only
    rw [ht.count, hsplit]
    push_cast
    rfl
  · dsimp only
    rw [hcells r hr0 hr, hu.degree r hr0 hr, ht.degree r hr0 hr, ← IsLevel.pending_succ lv]
    push_cast
    omega

/-- A whole round: a sweep, and the in-degrees after it. -/
theorem edgeStep_meets (h : Coo vlist elist V k src dst lv) {s : Nat} {u : EdgeState}
    (hu : EdgeInv vlist elist V k src lv s u) :
    Run.Meets (fun _ => False) (edgeStep src dst V k ((s : Int) + 1, u))
      (fun t => t.1 = (s : Int) + 1 + 1 ∧ EdgeInv vlist elist V k src lv (s + 1) t.2) := by
  rw [edgeStep, Run.meets_bind]
  refine (Run.meets_forLoop (fun i t => 0 ≤ i ∧ SweepInv elist V k src lv s i.toNat t)
    (src.size.toNat : Int) (fun i t hi hs => ?_) src.size.toNat 0
    ⟨u.order, u.processCnt, Block.alloc k fun _ => 0⟩ (by omega)
    ⟨Int.le_refl 0, hu.orderSize, rfl, fun e he => ?_, ?_, fun r _ _ => rfl⟩).mono
    fun t ht => ?_
  · obtain ⟨i, rfl⟩ := Int.eq_ofNat_of_zero_le hs.1
    have hmeets := sweepEdge_meets h hu (by have := h.srcSize; omega) hs.2
    rw [Int.toNat_natCast] at hmeets
    apply hmeets.mono
    intro t' ht'
    exact ⟨by omega, by rw [show ((i : Int) + 1).toNat = i + 1 by omega]; exact ht'⟩
  · rw [Int.toNat_zero]
    dsimp only
    rw [hu.order e he]
    exact if_congr (by omega) rfl rfl
  · rw [Int.toNat_zero]
    dsimp only
    rw [hu.count]
    rfl
  · obtain ⟨-, ht⟩ := ht
    rw [show ((src.size.toNat : Nat) : Int).toNat = elist.length by have := h.srcSize; omega] at ht
    rw [Run.meets_bind]
    refine (subtract_loop hu.degreeSize ht.degreeSize).mono fun d hd => ?_
    rw [Run.meets_pure]
    exact ⟨rfl, ht.next hu hd.1 hd.2⟩

/-- `step` levels are occupied: all nodes are below, and some node is at the highest one. -/
def Height (V k : Nat) (lv : Int → Nat) (step : Int) : Prop :=
  (∀ x : Int, 0 ≤ x → x < (V : Int) + k → (lv x : Int) < step) ∧
    ∃ x : Int, 0 ≤ x ∧ x < (V : Int) + k ∧ (lv x : Int) + 1 = step

theorem Height.unique {step step' : Int} (h : Height V k lv step) (h' : Height V k lv step') :
    step = step' := by
  obtain ⟨x, h0, hx, heq⟩ := h.2
  obtain ⟨y, h0', hy, heq'⟩ := h'.2
  have h₁ := h'.1 x h0 hx
  have h₂ := h.1 y h0' hy
  omega

/-- All edges are done when no source is above the last sweep. -/
theorem EdgeInv.done_iff {s : Nat} {u : EdgeState} (hu : EdgeInv vlist elist V k src lv s u) :
    u.processCnt = elist.length ↔ ∀ e : Nat, e < elist.length → lv (src.cells e) ≤ s := by
  rw [hu.count, Int.natCast_inj]
  have hlen := List.countP_eq_length (p := fun e : Nat => decide (lv (src.cells e) ≤ s))
    (l := List.range elist.length)
  rw [List.length_range] at hlen
  rw [hlen]
  simp only [List.mem_range, decide_eq_true_eq]

/-- The first loop gives the edges from vertices order 0. -/
theorem startEdge_loop (h : Coo vlist elist V k src dst lv) {inDegree : Block Int}
    (hdsize : inDegree.size = k) (hdeg : ∀ r : Int, 0 ≤ r → r < k → inDegree.cells r =
      (List.range elist.length).countP fun e : Nat => decide (dst.cells e = V + r)) :
    ∃ t, Run.forLoop (startEdge src dst V) elist.length 0
        ⟨Block.alloc src.size fun _ => INIT, 0, inDegree⟩ = .ok t ∧
      EdgeInv vlist elist V k src lv 0 t := by
  have hstart : Run.Meets (fun _ => False) (Run.forLoop (startEdge src dst V) elist.length 0
      ⟨Block.alloc src.size fun _ => INIT, 0, inDegree⟩)
      (fun t => 0 ≤ (elist.length : Int) ∧
        StartInv elist V k src (elist.length : Int).toNat t) := by
    refine Run.meets_forLoop (fun i t => 0 ≤ i ∧ StartInv elist V k src i.toNat t)
      (elist.length : Int) (fun i t hi hs => ?_) elist.length 0 _ (by omega)
      ⟨Int.le_refl 0, h.srcSize, hdsize, fun e _ => ?_, rfl, fun r hr0 hr => ?_⟩
    · obtain ⟨i, rfl⟩ := Int.eq_ofNat_of_zero_le hs.1
      have hmeets := startEdge_meets h (by omega : i < elist.length) hs.2
      rw [show ((i : Int) + 1).toNat = i + 1 by omega]
      exact hmeets.mono fun t' ht' => ⟨by omega, ht'⟩
    · rw [if_neg (by omega)]
      rfl
    · rw [hdeg r hr0 hr, Int.toNat_zero, List.range_zero, List.countP_nil, Int.natCast_zero,
        Int.sub_zero]
      congr 1
      apply List.countP_congr
      intro e he
      rw [h.dst e (List.mem_range.mp he)]
  obtain ⟨t, hrun, -, ht⟩ := hstart.exists_ok fun e he => he.elim
  rw [Int.toNat_natCast] at ht
  exact ⟨t, hrun, ht.edgeInv h⟩

/-- The rounds of `gen_edge_order` pass the levels one by one. -/
def AtLevel (vlist elist : List Int) (V k : Nat) (src : Block Int) (lv : Int → Nat)
    (t : Int × EdgeState) (s : Nat) : Prop :=
  t.1 = (s : Int) + 1 ∧ EdgeInv vlist elist V k src lv s t.2 ∧
    ∃ x : Int, 0 ≤ x ∧ x < (V : Int) + k ∧ lv x = s

/-- A round with an edge left goes on to the next level. -/
theorem edgeStep_next (h : Coo vlist elist V k src dst lv) {t : Int × EdgeState} {s : Nat}
    (ht : AtLevel vlist elist V k src lv t s) (hlt : t.2.processCnt < src.size) :
    Run.Meets (fun _ => False) (edgeStep src dst V k t) (fun t' =>
      AtLevel vlist elist V k src lv t' (s + 1) ∧ (INIT - t'.1).toNat < (INIT - t.1).toNat) := by
  obtain ⟨step, u⟩ := t
  obtain ⟨hs, hinv, -⟩ := ht
  dsimp only at hs hinv hlt
  subst hs
  rw [h.srcSize] at hlt
  -- some source is above level `s`
  have hnot := hinv.done_iff.not.mp (by omega)
  push Not at hnot
  obtain ⟨e, he, hgt⟩ := hnot
  have hends := (h.leveled.ends he).1
  have hbound := h.leveled.bound _ hends.1 hends.2
  apply (edgeStep_meets h hinv).mono
  rintro ⟨step', u'⟩ ⟨hstep, hinv'⟩
  dsimp only at hstep hinv' ⊢
  refine ⟨⟨by dsimp only; omega, hinv', h.leveled.exists_at hends.1 hends.2 (by omega)⟩, ?_⟩
  generalize INIT = bound at hbound ⊢
  omega

/-- `gen_edge_order` ends, gives every edge the level of its source and counts the levels. -/
theorem genEdgeOrder_eq (h : Coo vlist elist V k src dst lv) :
    ∃ enough, ∀ fuel, enough ≤ fuel → ∃ order step, genEdgeOrder fuel src dst V k =
      .ok (order, step) ∧ order.size = elist.length ∧
      (∀ e : Nat, e < elist.length → order.cells e = lv (src.cells e)) ∧ Height V k lv step := by
  have hm : src.size.toNat = elist.length := by have := h.srcSize; omega
  obtain ⟨inDegree, hrun, hdsize, hdeg⟩ := countEdge_loop (V := V) (k := k) h.dstSize fun e he => by
    rw [h.dst e he]
    exact (h.leveled.ends he).2.2
  obtain ⟨t₀, hrun₀, ht₀⟩ := startEdge_loop h hdsize hdeg
  have hvertices := h.leveled.vertices
  -- the levels are below `INIT`, so that many rounds are enough
  refine ⟨INIT.toNat + 1, fun fuel hfuel => ?_⟩
  have hloop := Run.meets_whileLoop (E := fun _ => False)
    (fun t : Int × EdgeState => pure (decide (t.2.processCnt < src.size)))
    (edgeStep src dst V k) (fun t => ∃ s, AtLevel vlist elist V k src lv t s)
    (fun t => ∃ s, AtLevel vlist elist V k src lv t s ∧
      ∀ e : Nat, e < elist.length → lv (src.cells e) ≤ s)
    (fun t => (INIT - t.1).toNat) ?_ fuel (1, t₀)
    (by dsimp only; have : INIT = 100000 := rfl; omega)
    ⟨0, rfl, ht₀, 0, Int.le_refl 0, by omega, h.leveled.vertex_iff.mpr (by omega)⟩
  · obtain ⟨t, hrun₁, s, ⟨hs, hinv, x, h0, hx, hlx⟩, hall⟩ := hloop.exists_ok fun e he => he.elim
    refine ⟨t.2.order, t.1, ?_, hinv.orderSize, fun e he => ?_, ?_, x, h0, hx, by omega⟩
    · rw [genEdgeOrder, hm, hrun, Run.ok_bind, hrun₀, Run.ok_bind, hrun₁, Run.ok_bind]
      rfl
    · rw [hinv.order e he, if_pos (hall e he)]
    · -- every rule is the source of an edge
      intro y hy0 hy
      by_cases hV : y < V
      · rw [h.leveled.vertex_iff.mpr hV]
        omega
      · obtain ⟨e, he, hsrc⟩ := h.leveled.refers y (by omega) hy
        have := hall e he
        rw [hsrc] at this
        omega
  · rintro t ⟨s, ht⟩
    have hinv := ht.2.1
    have hcnt : t.2.processCnt ≤ elist.length := by
      rw [hinv.count]
      have := List.countP_le_length (p := fun e : Nat => decide (lv (src.cells e) ≤ s))
        (l := List.range elist.length)
      rw [List.length_range] at this
      omega
    rw [Run.meets_pure]
    constructor
    · intro hlt
      apply (edgeStep_next h ht (of_decide_eq_true hlt)).mono
      exact fun t' ht' => ⟨⟨s + 1, ht'.1⟩, ht'.2⟩
    · intro hge
      rw [decide_eq_false_iff_not, h.srcSize] at hge
      exact ⟨s, ht, hinv.done_iff.mp (by omega)⟩

end Sweep

end Laconic.Graph
