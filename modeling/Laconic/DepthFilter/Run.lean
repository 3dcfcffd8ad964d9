import Laconic.DepthFilter.Model
import Laconic.Filter.Exact

/-!
# The depth filter, level by level

The filter on rows alone, in exact arithmetic: each level is inlined or left as it is.  The vectors of
`depth_filter` show the same rows after every level, and the counts of the levels that are still to
come are the numbers of their entries, wrapped to an `int`.
-/

namespace Laconic.DepthFilter

open Laconic.Filter (Exact GraphInv Merged Without Splicing)
open Slp Splice

/-! ## Levels of rows -/

/-- The entries of the first `n` rules, as far as they are left and of level `d`. -/
def levelSize (lv : Nat → Nat) (V : Nat) (g : Exact) (d n : Nat) : Nat :=
  ∑ i ∈ Finset.range n, if g.live (V + i) = true ∧ lv i = d then (g.row (V + i)).length else 0

/-- The rules of level `d` among the first `n` are inlined. -/
def dropLevel (lv : Nat → Nat) (V : Nat) (g : Exact) (d : Nat) : Nat → Exact
  | 0 => g
  | n + 1 => if lv n = d then (dropLevel lv V g d n).drop (V + n) else dropLevel lv V g d n

/-- The turn of level `d`: it is inlined if it is small. -/
def level (lv : Nat → Nat) (V k : Nat) (minEdge : Int) (g : Exact) (d : Nat) : Exact :=
  if minEdge ≤ wrapInt (levelSize lv V g d k) then g else dropLevel lv V g d k

/-- `n` turns downwards, the last one of them at `lo`. -/
def descend {σ : Type} (turn : σ → Nat → σ) (lo : Nat) : Nat → σ → σ
  | 0, g => g
  | n + 1, g => descend turn lo n (turn g (lo + n))

section Levels

variable {lv : Nat → Nat} {V k : Nat} {minEdge : Int} {g : Exact} {d : Nat}

/-- Only rules of the level are dropped. -/
theorem live_dropLevel {x : Int} {n : Nat} (hlive : g.live x = true)
    (hx : ∀ i : Nat, i < n → lv i = d → x ≠ V + i) : (dropLevel lv V g d n).live x = true := by
  induction n with
  | zero => exact hlive
  | succ n ih =>
    have ih := ih fun i hi => hx i (by omega)
    rw [dropLevel]
    split
    · rename_i hn
      exact Exact.live_drop.mpr ⟨ih, hx n (Nat.lt_succ_self n) hn⟩
    · exact ih

theorem dropLevel_of_none {n : Nat} (hnone : ∀ i, i < n → lv i ≠ d) : dropLevel lv V g d n = g := by
  induction n with
  | zero => rfl
  | succ n ih => rw [dropLevel, if_neg (hnone n (Nat.lt_succ_self n)), ih fun i hi => hnone i (by omega)]

/-- A level without rules changes nothing. -/
theorem level_of_none (hnone : ∀ i, i < k → lv i ≠ d) : level lv V k minEdge g d = g := by
  rw [level, dropLevel_of_none hnone, ite_self]

/-- It does not matter how many levels there are above the rules. -/
theorem descend_eq {lo m n : Nat} (hnone : ∀ i, i < k → lv i < lo + m) (hmn : m ≤ n) :
    descend (level lv V k minEdge) lo n g = descend (level lv V k minEdge) lo m g := by
  induction n with
  | zero => rw [Nat.le_zero.mp hmn]
  | succ n ih =>
    obtain rfl | hlt : m = n + 1 ∨ m ≤ n := by omega
    · rfl
    · rw [descend, level_of_none fun i hi => by have := hnone i hi; omega, ih hlt]

end Levels

/-! ## mergeRule inlines -/

section Merge

variable {vlist elist : List Int} {V k : Nat} {A : Int → Prop} {ID r : Int} {s : State}

/-- Every occurrence that is left is replaced. -/
theorem spliceAll_meets {g₀ : Block (List Int)} {rest : List Int} {g : Block (List Int)}
    (hfree : ID ∉ g₀.cells ID) (hID : g₀.InB ID) (hin : ∀ v, A v → g₀.InB v)
    (h : Splicing A ID g₀ rest g) :
    Run.Meets (fun _ => False) (rest.foldlM (spliceInto ID) g) (Splicing A ID g₀ []) := by
  refine Run.meets_foldlM (Splicing A ID g₀) (fun node rest g hs => ?_) _ _ h
  obtain ⟨hA, hne⟩ := hs.nodes node List.mem_cons_self
  obtain ⟨row, hrow, -, hstep⟩ := hs.step hfree
  unfold spliceInto
  rw [if_neg hne]
  dsimp only
  rw [Block.read_eq (hs.inB (hin node hA)), Run.ok_bind, Block.read_eq (hs.inB hID), Run.ok_bind,
    hs.body, hrow, Run.ok_bind, Block.write_eq (hs.inB (hin node hA)), Run.meets_ok]
  exact hstep

theorem mergeRule_meets (hac : Acyclic (csrRhs V V vlist elist))
    (hg : GraphInv vlist elist V k A s.rows) (h0 : 0 ≤ r) (hA : A (r + V)) :
    Run.Meets (fun _ => False) (mergeRule V r s) (fun s' => Merged V A (r + V) s.rows s'.rows ∧
      s'.flag = s.flag ∧ s'.depthCount = s.depthCount ∧ s'.degree = s.degree) := by
  have hV : (V : Int) ≤ r + V := by omega
  have hfree := hg.not_self hac hA hV
  have hfreeT := hg.not_self_col hac hA hV
  have hother : ∀ {l : List Int}, r + V ∉ l → ∀ v ∈ l, v ≠ r + V := by
    rintro l hl v hv rfl
    exact hl hv
  -- the rows of the users first, then the columns of what the rule refers to
  have hrows := spliceAll_meets (A := Without A (r + V)) hfree (hg.inB_row hA)
    (fun v hv => hg.inB_row hv.1) (Splicing.init (fun v hv => (hg.link _ v hA hv.1).symm)
      fun v hv => ⟨⟨hg.colClosed _ hA v hv, hother hfreeT v hv⟩, hother hfreeT v hv⟩)
  have hcols := spliceAll_meets (A := Without A (r + V)) hfreeT (hg.inB_col hA)
    (fun v hv => hg.inB_col hv.1) (Splicing.init (fun x hx => hg.link x _ hx.1 hA)
      fun x hx => ⟨⟨hg.closed _ hA x hx, hother hfree x hx⟩, hother hfree x hx⟩)
  show Run.Meets _ (s.rows.graphT.read (r + V) >>= _) _
  rw [Block.read_eq (hg.inB_col hA), Run.ok_bind]
  refine hrows.bind fun graph hgraph => ?_
  rw [Block.read_eq (hgraph.inB (hg.inB_row hA)), Run.ok_bind, hgraph.body]
  refine hcols.bind fun graphT hgraphT => ?_
  rw [Run.meets_pure]
  exact ⟨⟨hgraph.size, hgraphT.size, fun v hv => hgraph.done hv, fun x hx => hgraphT.done hx,
    fun _ _ => rfl⟩, rfl, rfl, rfl⟩

end Merge

/-! ## The vectors show the rows -/

/-- The vectors hold the rows of `g`, and the flags say which rules are left. -/
structure Shows (vlist elist : List Int) (V k : Nat) (g : Exact) (s : State) : Prop where
  graph : GraphInv vlist elist V k (fun v => g.live v = true) s.rows
  rows : ∀ v, g.live v = true → s.graph.cells v = g.row v
  vertices : ∀ v : Int, 0 ≤ v → v < V → g.live v = true
  flagSize : s.flag.size = k
  flag : ∀ i : Nat, i < k → s.flag.cells i = !g.live (V + i)
  degreeSize : s.degree.size = k

section Shows

variable {vlist elist : List Int} {V k : Nat} {g : Exact} {s : State}

/-- A rule is inlined and flagged. -/
theorem Shows.drop (h : Shows vlist elist V k g s) (hac : Acyclic (csrRhs V V vlist elist)) {i : Nat}
    (hi : i < k) (hlive : g.live (V + i) = true) :
    Run.Meets (fun _ => False) (do
      let s ← mergeRule V i s
      let flag ← s.flag.write i true
      pure { s with flag := flag }) (fun s' => Shows vlist elist V k (g.drop (V + i)) s' ∧
        s'.depthCount = s.depthCount) := by
  have hcomm : (i : Int) + V = V + i := Int.add_comm _ _
  refine (mergeRule_meets hac h.graph (Int.natCast_nonneg i) (by rwa [hcomm])).bind fun s' hs' => ?_
  obtain ⟨hm, hflag, hcount, hdegree⟩ := hs'
  rw [hcomm] at hm
  -- the nodes left are the same on both levels
  have hset : Without (fun v => g.live v = true) (V + i) =
      fun v => (g.drop (V + i)).live v = true := funext fun v => propext Exact.live_drop.symm
  have hg := h.graph.merged hac hlive (show (V : Int) ≤ V + i by omega) hm
  rw [hset] at hg
  rw [Block.write_eq ⟨Int.natCast_nonneg i, by rw [hflag, h.flagSize]; omega⟩, Run.ok_bind,
    Run.meets_pure]
  refine ⟨⟨⟨hg.rowSize, hg.colSize, hg.range, hg.closed, hg.colClosed, hg.link, hg.refs, hg.expands,
    hg.nonempty⟩, fun v hv => ?_, fun v h0 hv => ?_, ?_, fun j hj => ?_, ?_⟩, hcount⟩
  · have hv' := Exact.live_drop.mp hv
    have hrow : s'.graph.cells v = _ := hm.rows v hv'
    rw [hrow]
    show inline _ (s.graph.cells _) (s.graph.cells v) = _
    rw [h.rows _ hlive, h.rows v hv'.1, Exact.drop]
  · exact Exact.live_drop.mpr ⟨h.vertices v h0 hv, by omega⟩
  · show s'.flag.size = k
    rw [hflag, h.flagSize]
  · by_cases hij : j = i
    · subst hij
      rw [Block.cells_upd_self]
      simp only [Exact.drop, ne_eq, not_true_eq_false, decide_false, Bool.and_false, Bool.not_false]
    · rw [Block.cells_upd_ne _ _ (by omega), hflag, h.flag j hj]
      show _ = !(g.live (V + j) && decide ((V : Int) + j ≠ V + i))
      rw [decide_eq_true (show (V : Int) + j ≠ V + i by omega), Bool.and_true]
  · show s'.degree.size = k
    rw [hdegree, h.degreeSize]

/-- What the filter is told about the depth of the rules. -/
structure DepthOf (depth : Block Int) (lv : Nat → Nat) (V k count : Nat) : Prop where
  read : ∀ i : Nat, i < k → depth.read (i + V) = .ok (lv i : Int)
  le : ∀ i, i < k → lv i ≤ count

variable {depth : Block Int} {lv : Nat → Nat} {count d : Nat}

/-- All rules of one level are inlined. -/
theorem Shows.dropLevel (h : Shows vlist elist V k g s) (hac : Acyclic (csrRhs V V vlist elist))
    (hdepth : DepthOf depth lv V k count) (hlive : ∀ i, i < k → lv i = d → g.live (V + i) = true) :
    Run.Meets (fun _ => False) (Run.forLoop (mergeAt depth V d) k 0 s) (fun s' =>
      Shows vlist elist V k (dropLevel lv V g d k) s' ∧ s'.depthCount = s.depthCount) := by
  refine (Run.meets_forLoop (fun i s' => 0 ≤ i ∧
    Shows vlist elist V k (DepthFilter.dropLevel lv V g d i.toNat) s' ∧
      s'.depthCount = s.depthCount) (k : Int) ?_ k 0 s (by omega)
    ⟨Int.le_refl 0, h, rfl⟩).mono fun s' hs' => by
      have := hs'.2
      rwa [Int.toNat_natCast] at this
  rintro i s' hi ⟨h0, hs', hcount⟩
  obtain ⟨i, rfl⟩ := Int.eq_ofNat_of_zero_le h0
  rw [Int.toNat_natCast] at hs'
  rw [mergeAt, hdepth.read i (by omega), Run.ok_bind, show ((i : Int) + 1).toNat = i + 1 by omega,
    DepthFilter.dropLevel]
  by_cases hid : lv i = d
  · rw [if_pos (by rw [hid]), if_pos hid]
    refine (hs'.drop hac (by omega) (live_dropLevel (hlive i (by omega) hid) fun j hj _ => by
      omega)).mono fun s'' hs'' => ⟨by omega, hs''.1, by rw [hs''.2, hcount]⟩
  · rw [if_neg (by omega), if_neg hid, Run.meets_pure]
    exact ⟨by omega, hs', hcount⟩

/-! ## The counts of the levels -/

/-- The degrees of the rules that are left are the lengths of their rows. -/
def Degrees (V k : Nat) (g : Exact) (s : State) : Prop :=
  ∀ i : Nat, i < k → g.live (V + i) = true → s.degree.cells i = wrapInt (g.row (V + i)).length

theorem takeDegrees_meets (h : Shows vlist elist V k g s) :
    Run.Meets (fun _ => False) (takeDegrees V k s) (fun s' => Shows vlist elist V k g s' ∧
      Degrees V k g s' ∧ s'.depthCount = s.depthCount ∧ s'.flag = s.flag) := by
  unfold takeDegrees
  rw [Run.meets_bind]
  -- the loop runs over the rows of the rules, the degrees are stored from 0 on
  refine (Run.meets_forLoop (fun i (degree : Block Int) => (V : Int) ≤ i ∧ degree.size = k ∧
    ∀ j : Nat, (j : Int) + V < i → g.live (V + j) = true →
      degree.cells j = wrapInt (g.row (V + j)).length) ((V : Int) + k) ?_ k V s.degree (by omega)
    ⟨Int.le_refl _, h.degreeSize, fun j hj => by omega⟩).mono fun degree hdegree => ?_
  · rintro i degree hi ⟨hV, hsize, hcells⟩
    rw [Block.read_eq ⟨by omega, by
      have : s.graph.size = _ := h.graph.rowSize
      rw [this]
      exact hi⟩, Run.ok_bind, Block.write_eq ⟨by omega, by rw [hsize]; omega⟩, Run.meets_ok]
    refine ⟨by omega, hsize, fun j hj hlive => ?_⟩
    by_cases hji : (j : Int) = i - V
    · have hrow : s.graph.cells i = g.row (V + j) := by
        rw [show i = V + j by omega, h.rows _ hlive]
      rw [← hrow, hji, Block.cells_upd_self]
    · rw [Block.cells_upd_ne _ _ hji]
      exact hcells j (by omega) hlive
  · obtain ⟨-, hsize, hcells⟩ := hdegree
    rw [Run.meets_pure]
    exact ⟨⟨h.graph, h.rows, h.vertices, h.flagSize, h.flag, hsize⟩,
      fun i hi hlive => hcells i (by omega) hlive, rfl, rfl⟩

theorem wrapInt_add (a b : Int) : wrapInt (wrapInt a + wrapInt b) = wrapInt (a + b) := by
  rw [wrapInt, wrapInt, wrapInt, wrapInt, Int.bmod_add_bmod, Int.add_bmod_bmod]

theorem wrapInt_wrapInt (a : Int) : wrapInt (wrapInt a) = wrapInt a := by
  rw [wrapInt, wrapInt, Int.bmod_bmod]

theorem wrapInt_zero : wrapInt 0 = 0 := by
  rw [wrapInt, Int.zero_bmod]

/-- The counts from 0 up to the level `m` are the wrapped numbers of entries. -/
def Counts (lv : Nat → Nat) (V k : Nat) (g : Exact) (m : Int) (depthCount : Block Int) : Prop :=
  ∀ d : Nat, (d : Int) < m → depthCount.cells d = wrapInt (levelSize lv V g d k)

theorem addDegrees_meets (hdepth : DepthOf depth lv V k count) {m : Int} {use : Int → Run Int}
    {depthCount : Block Int} (huse : ∀ i : Nat, i < k → use i =
      .ok (if g.live (V + i) = true then wrapInt (g.row (V + i)).length else 0))
    (hsize : depthCount.size = (count : Int) + 1)
    (hzero : ∀ d : Nat, (d : Int) < m → depthCount.cells d = 0) :
    Run.Meets (fun _ => False) (addDegrees use depth V k depthCount) (fun depthCount =>
      depthCount.size = (count : Int) + 1 ∧ Counts lv V k g m depthCount) := by
  unfold addDegrees
  -- the counts of the first `i` rules; sums in `int` wrap, so wrapping once at the end is the same
  refine (Run.meets_forLoop (fun i (depthCount : Block Int) => 0 ≤ i ∧
    depthCount.size = (count : Int) + 1 ∧ Counts lv V i.toNat g m depthCount) (k : Int) ?_ k 0 _
    (by omega) ⟨Int.le_refl 0, hsize, fun d hd => by
      rw [hzero d hd]
      exact wrapInt_zero.symm⟩).mono fun dc hdc => by
      have := hdc.2
      rwa [Int.toNat_natCast] at this
  rintro i dc hi ⟨h0, hdsize, hcounts⟩
  obtain ⟨i, rfl⟩ := Int.eq_ofNat_of_zero_le h0
  rw [Int.toNat_natCast] at hcounts
  have hle := hdepth.le i (by omega)
  rw [hdepth.read i (by omega), Run.ok_bind, huse i (by omega), Run.ok_bind,
    Block.modify_eq ⟨by omega, by rw [hdsize]; omega⟩, Run.meets_ok,
    show ((i : Int) + 1).toNat = i + 1 by omega]
  refine ⟨by omega, hdsize, fun d hd => ?_⟩
  have hold := hcounts d hd
  unfold levelSize at hold ⊢
  rw [Finset.sum_range_succ, Nat.cast_add]
  by_cases hid : lv i = d
  · rw [hid, Block.cells_upd_self, hold]
    by_cases hlive : g.live (V + i) = true
    · rw [if_pos hlive, if_pos ⟨hlive, rfl⟩, wrapInt_add]
    · rw [if_neg hlive, if_neg fun hc => hlive hc.1, Int.add_zero, Nat.cast_zero, Int.add_zero]
      exact wrapInt_wrapInt _
  · rw [Block.cells_upd_ne _ _ (by omega), hold, if_neg fun hc => hid hc.2, Nat.cast_zero,
      Int.add_zero]

end Shows

/-! ## The loop over the levels -/

section Loop

variable {vlist elist : List Int} {V k count lo : Nat} {lv : Nat → Nat} {minEdge : Int}
  {depth : Block Int} {g G : Exact} {s : State}

/-- Before the turn of level `t.1`; the levels from there to `lo` are left to be done for `G`. -/
structure LevelInv (vlist elist : List Int) (V k count lo : Nat) (lv : Nat → Nat) (minEdge : Int)
    (G g : Exact) (t : Int × State) : Prop where
  shows : Shows vlist elist V k g t.2
  low : -1 ≤ t.1
  high : t.1 ≤ count
  size : t.2.depthCount.size = (count : Int) + 1
  counts : Counts lv V k g (t.1 + 1) t.2.depthCount
  live : ∀ i, i < k → (lv i : Int) ≤ t.1 → g.live (V + i) = true
  todo : descend (level lv V k minEdge) lo (t.1 + 1 - lo).toNat g = G

theorem leftDegree_eq (h : Shows vlist elist V k g s) (hd : Degrees V k g s) {i : Nat} (hi : i < k) :
    leftDegree s i =
      .ok (if g.live (V + i) = true then wrapInt (g.row (V + i)).length else 0) := by
  rw [leftDegree, Block.read_eq ⟨Int.natCast_nonneg i, by rw [h.flagSize]; omega⟩, Run.ok_bind,
    h.flag i hi]
  by_cases hlive : g.live (V + i) = true
  · rw [hlive, if_pos rfl, if_neg (by decide), Block.read_eq ⟨Int.natCast_nonneg i, by
      rw [h.degreeSize]; omega⟩, hd i hi hlive]
  · rw [Bool.not_eq_true] at hlive
    rw [hlive, if_neg Bool.false_ne_true]
    rfl

theorem depthStep_meets (hac : Acyclic (csrRhs V V vlist elist))
    (hdepth : DepthOf depth lv V k count) {t : Int × State}
    (h : LevelInv vlist elist V k count lo lv minEdge G g t) (hlo : (lo : Int) ≤ t.1) :
    Run.Meets (fun _ => False) (depthStep depth minEdge V k t) (fun t' =>
      (∃ g, LevelInv vlist elist V k count lo lv minEdge G g t') ∧ t'.1 = t.1 - 1) := by
  obtain ⟨m, s⟩ := t
  obtain ⟨hshows, hlow, hhigh, hsize, hcounts, hlive, htodo⟩ := h
  dsimp only at *
  obtain ⟨m, rfl⟩ := Int.eq_ofNat_of_zero_le (show 0 ≤ m by omega)
  -- on the abstract side the turn of level `m` is the first one
  have hstep : descend (level lv V k minEdge) lo ((m : Int) - 1 + 1 - lo).toNat
      (level lv V k minEdge g m) = G := by
    rw [show ((m : Int) + 1 - lo).toNat = (m - lo) + 1 by omega, descend,
      show lo + (m - lo) = m by omega] at htodo
    rwa [show ((m : Int) - 1 + 1 - lo).toNat = m - lo by omega]
  unfold depthStep
  dsimp only
  rw [Block.read_eq ⟨by omega, by omega⟩, Run.ok_bind, hcounts m (by omega)]
  by_cases hbig : minEdge ≤ wrapInt (levelSize lv V g m k)
  · rw [if_pos hbig, Run.meets_pure]
    rw [level, if_pos hbig] at hstep
    exact ⟨⟨g, hshows, by dsimp only; omega, by dsimp only; omega, hsize,
      fun d hd => hcounts d (by dsimp only at hd; omega),
      fun i hi hle => hlive i hi (by dsimp only at hle; omega), hstep⟩, rfl⟩
  · rw [if_neg hbig]
    rw [level, if_neg hbig] at hstep
    refine (hshows.dropLevel hac hdepth fun i hi hid => hlive i hi (by omega)).bind fun s₁ hs₁ => ?_
    refine (takeDegrees_meets hs₁.1).bind fun s₂ hs₂ => ?_
    obtain ⟨hs₂, hdeg, hc₂, -⟩ := hs₂
    -- the counts of the levels below are reset
    have hreset : Run.Meets (fun _ => False) (Run.forLoop (fun i (dc : Block Int) => dc.write i 0)
        (m : Int).toNat 0 s₂.depthCount) (fun dc => 0 ≤ (m : Int) ∧ dc.size = (count : Int) + 1 ∧
          ∀ d : Nat, (d : Int) < m → dc.cells d = 0) := by
      refine Run.meets_forLoop (fun i (dc : Block Int) => 0 ≤ i ∧ dc.size = (count : Int) + 1 ∧
        ∀ d : Nat, (d : Int) < i → dc.cells d = 0) (m : Int) ?_ _ 0 _ (by omega)
        ⟨Int.le_refl 0, by rw [hc₂, hs₁.2, hsize], fun d hd => by omega⟩
      rintro i dc hi ⟨h0, hdc, hz⟩
      rw [Block.write_eq ⟨h0, by rw [hdc]; omega⟩, Run.meets_ok]
      refine ⟨by omega, hdc, fun d hd => ?_⟩
      by_cases hdi : (d : Int) = i
      · rw [hdi, Block.cells_upd_self]
      · rw [Block.cells_upd_ne _ _ hdi]
        exact hz d (by omega)
    refine hreset.bind fun dc hdc => ?_
    refine (addDegrees_meets (m := m) hdepth (fun i hi => leftDegree_eq hs₂ hdeg hi) hdc.2.1
      hdc.2.2).bind fun dc' hdc' => ?_
    rw [Run.meets_pure]
    refine ⟨⟨dropLevel lv V g m k, ⟨hs₂.graph, hs₂.rows, hs₂.vertices, hs₂.flagSize, hs₂.flag,
      hs₂.degreeSize⟩, by dsimp only; omega, by dsimp only; omega, hdc'.1,
      fun d hd => hdc'.2 d (by dsimp only at hd; omega), fun i hi hle => ?_, hstep⟩, rfl⟩
    dsimp only at hle
    exact live_dropLevel (hlive i hi (by omega)) fun j _ hj hij => by
      obtain rfl : i = j := by omega
      omega

theorem depthFilter_meets {graph graphT : Block (List Int)} {flag : Block Bool} {fuel : Nat}
    (hac : Acyclic (csrRhs V V vlist elist)) (hdepth : DepthOf depth lv V k count)
    (hshows : Shows vlist elist V k g ⟨graph, graphT, flag, Block.alloc ((count : Int) + 1) fun _ => 0,
      Block.alloc k fun _ => 0⟩) (hlive : ∀ i, i < k → g.live (V + i) = true)
    (hfuel : count + 2 ≤ fuel) :
    Run.Meets (fun _ => False) (depthFilter fuel graph graphT flag depth count lo minEdge V k)
      (Shows vlist elist V k (descend (level lv V k minEdge) lo (count + 1 - lo) g)) := by
  unfold depthFilter
  refine (takeDegrees_meets hshows).bind fun s hs => ?_
  obtain ⟨hs, hdeg, hc, -⟩ := hs
  -- no rule is flagged yet, so the first counts need no test
  have huse : ∀ i : Nat, i < k → s.degree.read i =
      .ok (if g.live (V + i) = true then wrapInt (g.row (V + i)).length else 0) := by
    intro i hi
    rw [if_pos (hlive i hi), Block.read_eq ⟨Int.natCast_nonneg i, by rw [hs.degreeSize]; omega⟩,
      hdeg i hi (hlive i hi)]
  refine (addDegrees_meets (m := (count : Int) + 1) hdepth huse (by rw [hc]; rfl)
    fun d _ => by rw [hc]; rfl).bind fun dc hdc => ?_
  refine Run.Meets.bind (Run.meets_whileLoop _ _ (fun t => ∃ g', LevelInv vlist elist V k count lo lv
    minEdge (descend (level lv V k minEdge) lo (count + 1 - lo) g) g' t)
    (fun t => Shows vlist elist V k (descend (level lv V k minEdge) lo (count + 1 - lo) g) t.2)
    (fun t => (t.1 + 1).toNat) (fun t ht => ?_) fuel _ ?_ ?_) fun t ht => by
      rw [Run.meets_pure]
      exact ht
  · obtain ⟨g', ht⟩ := ht
    rw [Run.meets_pure]
    refine ⟨fun hon => ?_, fun hoff => ?_⟩
    · have hle := of_decide_eq_true hon
      refine (depthStep_meets hac hdepth ht hle).mono fun t' ht' => ⟨ht'.1, ?_⟩
      have := ht'.2
      omega
    · have hlt := of_decide_eq_false hoff
      have htodo := ht.todo
      rw [show (t.1 + 1 - lo).toNat = 0 by omega, descend] at htodo
      rw [← htodo]
      exact ht.shows
  · dsimp only
    omega
  · refine ⟨g, ⟨hs.graph, hs.rows, hs.vertices, hs.flagSize, hs.flag, hs.degreeSize⟩, by
      dsimp only; omega, Int.le_refl _, hdc.1, hdc.2, fun i hi _ => hlive i hi, ?_⟩
    dsimp only
    rw [show ((count : Int) + 1 - lo).toNat = count + 1 - lo by omega]

end Loop

end Laconic.DepthFilter
