import Laconic.Graph.CscOrder
import Laconic.Graph.Fusion
import Laconic.Graph.Splice

/-!
# Masks of nodes and masks of edges

`gen_mask_vertex` and `gen_mask_edge` turn an order into a matrix with one row for each level, over the
nodes and over the edges.  An edge is set where its source is, so that the edges that a row of the one
mask selects are those that `splice_csr` keeps for the same row of the other one.
-/

namespace Laconic.Graph

open Levels
open RePair (intBound toInt)

/-! ## The functions -/

/-- The number of edges is an `int` there. -/
def genMaskEdge (fuel : Nat) (src dst : Block Int) (vertexCnt ruleCnt : Nat) :
    Run (Block Bool × Int) := do
  let r ← genEdgeOrder fuel src dst vertexCnt ruleCnt
  let mask ← genMask r.1 src.size.toNat r.2
  pure (mask, r.2)

/-- Row `d` of a mask. -/
def maskRow (mask : Block Bool) (size : Nat) (d : Int) : List Bool :=
  (List.range size).map fun s : Nat => mask.cells (d * size + s)

/-! ## The edges of a row of a mask -/

section Selected

variable {α : Type} {ent : List α}

/-- The entries at the positions that `p` selects. -/
def selected (p : List Bool) (ent : List α) : List α :=
  ((List.range ent.length).filter fun e => p.getD e false).filterMap fun e => ent[e]?

/-- A stretch of positions is a stretch of entries. -/
theorem filterMap_range' (a n : Nat) (h : a + n ≤ ent.length) :
    ((List.range' a n).filterMap fun e => ent[e]?) = (ent.drop a).take n := by
  induction n with
  | zero => simp
  | succ n ih =>
    rw [List.range'_concat, List.filterMap_append, ih (by omega), List.take_add_one,
      List.getElem?_drop]
    congr 1
    rw [Nat.one_mul, List.filterMap_cons]
    cases ent[a + n]? <;> rfl

variable {vlist elist : List Int} {V k : Nat} {src : Nat → Nat} {index p : List Bool}

/-- The entries before row `n` that `splice_csr` keeps. -/
theorem splicedEntries_eq_filter (h : Sourced vlist elist V k src)
    (hent : ent.length = elist.length)
    (hp : ∀ e, e < elist.length → p.getD e false = index.getD (src e) false) {n : Nat}
    (hn : n ≤ V + k) : splicedEntries vlist ent index n =
      ((List.range (vlist.getD n 0).toNat).filter fun e => p.getD e false).filterMap
        fun e => ent[e]? := by
  have hvalid := h.graph.valid
  have hlen := h.graph.length
  induction n with
  | zero =>
    rw [hvalid.getD_zero]
    rfl
  | succ n ih =>
    have h0 := hvalid.getD_nonneg (show n < vlist.length by omega)
    have hmono := hvalid.getD_mono (Nat.le_add_right n 1) (by omega)
    have hle := hvalid.getD_le (show n + 1 < vlist.length by omega)
    -- the edges of row `n` follow those before it
    have hrange : List.range (vlist.getD (n + 1) 0).toNat = List.range (vlist.getD n 0).toNat ++
        List.range' (vlist.getD n 0).toNat
          ((vlist.getD (n + 1) 0).toNat - (vlist.getD n 0).toNat) := by
      have happ := List.range'_append_1 (s := 0) (m := (vlist.getD n 0).toNat)
        (n := (vlist.getD (n + 1) 0).toNat - (vlist.getD n 0).toNat)
      rw [Nat.zero_add, Nat.add_sub_cancel' (by omega)] at happ
      rw [List.range_eq_range', List.range_eq_range', happ]
    have hrow : ∀ e ∈ List.range' (vlist.getD n 0).toNat
        ((vlist.getD (n + 1) 0).toNat - (vlist.getD n 0).toNat),
        p.getD e false = index.getD n false := by
      intro e he
      rw [List.mem_range'_1] at he
      have hsrc : IsSource vlist n (e : Int) := ⟨by omega, by omega, by omega⟩
      rw [hp e (by omega), (h.source e (by omega)).unique hvalid hsrc]
    rw [hrange, List.filter_append, List.filterMap_append, ← ih (by omega)]
    cases hn' : index.getD n false with
    | true =>
      rw [splicedEntries_succ hn', List.filter_eq_self.mpr fun e he => by rw [hrow e he, hn'],
        filterMap_range' _ _ (by omega), Csr.row, List.drop_take]
    | false =>
      rw [splicedEntries_succ_of_inactive hn', List.filter_eq_nil_iff.mpr fun e he => by
        rw [hrow e he, hn']
        exact Bool.false_ne_true]
      exact (List.append_nil _).symm

/-- `splice_csr` for a row of a mask of nodes keeps the edges of the row of a mask of edges in which
an edge is set when its source is. -/
theorem spliceCsr_selected {W : Type} [Inhabited W] {weight : List W}
    (h : Sourced vlist elist V k src) (hw : weight.length = elist.length)
    (hi : index.length = V + k)
    (hp : ∀ e, e < elist.length → p.getD e false = index.getD (src e) false) :
    ∃ vl, spliceCsr vlist elist weight index =
        .ok (vl, selected p elist, selected p weight) ∧
      vl = Csr.offsets (splicedRows vlist elist index false (V + k)) := by
  have hlen := h.graph.length
  have hn : vlist.length - 1 = V + k := by omega
  obtain ⟨s, hs, hinv⟩ := spliceLoop_eq false false h.graph.valid hw (by omega : index.length = _)
  rw [hn] at hinv
  have hall : ∀ {α : Type} {ent : List α}, ent.length = elist.length →
      splicedEntries vlist ent index (V + k) = selected p ent := by
    intro α ent hent
    rw [splicedEntries_eq_filter h hent hp (Nat.le_refl _), h.last, Int.toNat_natCast, ← hent]
    rfl
  refine ⟨s.backVlist, ?_, hinv.offsets⟩
  rw [spliceCsr, hs, Run.ok_bind, hinv.edges.entries, hinv.edges.weights, hall rfl, hall hw]
  rfl

end Selected

/-! ## Levels -/

section Rows

variable {mask : Block Bool} {size n : Nat} {levels d : Int}

theorem length_maskRow : (maskRow mask size d).length = size := by
  rw [maskRow, List.length_map, List.length_range]

theorem maskRow_getD {x : Nat} (hx : x < size) :
    (maskRow mask size d).getD x false = mask.cells (d * size + x) := by
  rw [maskRow, List.getD_eq_getElem?_getD, List.getElem?_map, List.getElem?_range hx]
  rfl

/-- What is set in a row is set in the list that the row is. -/
theorem inRow_iff {m : Nat} (hsize : mask.size = (size : Int) * m) {x : Nat} (hx : x < size)
    (h0 : 0 ≤ d) (hd : d < m) :
    InRow mask size m x d ↔ (maskRow mask size d).getD x false = true := by
  have hlt := row_add_lt (show (x : Int) < size by omega) (Int.le_refl 0) hd
  have hnn := Int.mul_nonneg h0 (Int.natCast_nonneg size)
  have hin : mask.InB (d * size + x) := by
    rw [Int.mul_comm (size : Int)] at hsize
    exact ⟨by omega, by omega⟩
  rw [maskRow_getD hx, InRow, Block.read_eq hin]
  constructor
  · rintro ⟨-, -, hc⟩
    exact Except.ok.inj hc
  · intro hc
    exact ⟨h0, hd, by rw [hc]⟩

end Rows

/-- The chains of rules are so short that a mask over `n` nodes or edges has an `int` as its size. -/
def RowsFit (vlist elist : List Int) (V k n : Nat) : Prop :=
  ∀ l, RuleChain vlist elist V k l → (n : Int) * ((l.length + 1 : Nat) : Int) < intBound

/-- Every entry is set in the row of its level alone. -/
structure LevelMask (size m : Nat) (level : Nat → Nat) (mask : Block Bool) : Prop where
  msize : mask.size = (size : Int) * m
  row : ∀ (x : Nat) (d : Int), x < size → 0 ≤ d → d < m →
    (maskRow mask size d).getD x false = decide ((level x : Int) = d)

section Levels

variable {vlist elist : List Int} {V k n m : Nat} {src : Nat → Int} {counts : Int → Bool}
  {lv : Int → Nat}

theorem RowsFit.lt (hfits : RowsFit vlist elist V k n) (h : Ranked vlist elist V k src counts lv)
    (hheight : Height V k lv m) : (n : Int) * m < intBound := by
  obtain ⟨x, h0, hx, hm⟩ := hheight.2
  cases hn : lv x with
  | zero =>
    have hempty := hfits [] ⟨fun y hy => (List.not_mem_nil hy).elim, .nil⟩
    rwa [List.length_nil, show 0 + 1 = m by omega] at hempty
  | succ j =>
    obtain ⟨a, l, hp, -, hlen, -⟩ := h.exists_rules (show x.toNat < V + k by omega)
      (by rwa [Int.toNat_of_nonneg h0])
    have hchain := hfits _ hp
    rwa [List.length_cons, hlen, show j + 1 + 1 = m by omega] at hchain

/-- A chain has no rule twice. -/
theorem RuleChain.length_le_rules (hg : RuleGraph vlist elist V k)
    (hlast : vlist.getD (V + k) 0 = elist.length) {l : List Nat}
    (hp : RuleChain vlist elist V k l) : l.length ≤ k := by
  obtain ⟨src, lv, hlv⟩ := exists_fromRule hg hlast
  cases hl : l.getLast? with
  | none =>
    rw [List.getLast?_eq_none_iff.mp hl]
    exact Nat.zero_le k
  | some r =>
    have hr := hp.rules r (List.mem_of_getLast? hl)
    exact Nat.le_trans (hp.length_le hlv hl) (hlv.level_le hr.2)

theorem rowsFit_of_lt (hg : RuleGraph vlist elist V k)
    (hlast : vlist.getD (V + k) 0 = elist.length) (hlt : (n : Int) * ((k + 1 : Nat) : Int) < intBound) :
    RowsFit vlist elist V k n := by
  intro l hp
  have hle := hp.length_le_rules hg hlast
  have hmul := Int.mul_le_mul_of_nonneg_left
    (show ((l.length + 1 : Nat) : Int) ≤ ((k + 1 : Nat) : Int) by omega) (Int.natCast_nonneg n)
  omega

/-- From a rule that is referred to one gets to a vertex, up the references. -/
theorem reached_of_used (hg : RuleGraph vlist elist V k)
    (hused : ∀ r, V ≤ r → r < V + k → ∃ v, v < V + k ∧ Points vlist elist v r) {r : Nat} (hV : V ≤ r)
    (hr : r < V + k) : ∃ u, u < V ∧ Relation.ReflTransGen (Points vlist elist) u r := by
  obtain ⟨x, hx⟩ : ∃ x : Int, x = r := ⟨r, rfl⟩
  induction x using hg.wellFounded_up.induction generalizing r with
  | h x ih =>
    obtain ⟨v, hv, hmem⟩ := hused r hV hr
    by_cases hvV : v < V
    · exact ⟨v, hvV, .single hmem⟩
    · have hrefers : Slp.Refers (csrRhs V V vlist elist) (v : Int) x := by
        refine ⟨_, csrRhs_row (by omega), ?_⟩
        rw [hx, Int.toNat_natCast]
        exact hmem
      obtain ⟨u, hu, hpath⟩ := ih v (.single hrefers) (by omega) hv rfl
      exact ⟨u, hu, hpath.tail hmem⟩

/-- With fewer rules than `INIT` no chain of rules is too long for the orders. -/
theorem orderInput_of_few (hg : RuleGraph vlist elist V k)
    (hlast : vlist.getD (V + k) 0 = elist.length) (hV : 1 ≤ V)
    (hne : ∀ i, i < k → Csr.row vlist elist (V + i) ≠ [])
    (hreached : ∀ r, V ≤ r → r < V + k →
      ∃ u, u < V ∧ Relation.ReflTransGen (Points vlist elist) u r)
    (hk : (k : Int) < INIT) : OrderInput vlist elist V k := by
  refine ⟨hg, hlast, hV, hne, hreached, fun l hl hrules => ?_⟩
  have hinit : INIT = 100000 := rfl
  by_cases hshort : l.length < 2
  · omega
  have hstep := List.isChain_iff_getElem.mp hl
  -- every element of a longer chain refers to the next one, or is referred to
  have hrange : ∀ x ∈ l, x < (V : Int) + k := by
    intro x hx
    obtain ⟨i, hi, rfl⟩ := List.mem_iff_getElem.mp hx
    by_cases hnext : i + 1 < l.length
    · exact (hg.mem_of_refers (hstep i hnext)).2
    · obtain ⟨j, rfl⟩ : ∃ j, i = j + 1 := ⟨i - 1, by omega⟩
      obtain ⟨zs, hzs, hz⟩ := hstep j hi
      exact (hg.mem_rhs hzs _ hz).2
  have hchain : RuleChain vlist elist V k (l.map Int.toNat) := by
    refine ⟨fun y hy => ?_, ?_⟩
    · obtain ⟨x, hx, rfl⟩ := List.mem_map.mp hy
      have := hrules x hx
      have := hrange x hx
      omega
    · rw [List.isChain_map]
      refine hl.imp_of_mem_imp fun x z _ hz hxz => ?_
      have hz0 := hrules z hz
      rw [Points, Int.toNat_of_nonneg (by omega)]
      exact (csrRhs_source hxz).2.2
  have hle := hchain.length_le_rules hg hlast
  rw [List.length_map] at hle
  omega

section Edges

variable {src dst : Block Int}

theorem Coo.cells (h : Coo vlist elist V k src dst lv) {v : Nat} {e : Int}
    (hs : IsSource vlist v e) : src.cells e = v ∧ dst.cells e = elist.getD e.toNat 0 := by
  have hr := hs.range h.leveled.graph.valid
  obtain ⟨e, rfl⟩ := Int.eq_ofNat_of_zero_le hr.1
  exact ⟨h.leveled.source v e hs, h.dst e (by omega)⟩

theorem OrderInput.exists_coo (h : OrderInput vlist elist V k) (fresh : Int → Int) :
    ∃ src dst lv, csr2coo fresh vlist elist = .ok (src, dst) ∧ Coo vlist elist V k src dst lv := by
  obtain ⟨src, dst, hcoo, hsrc, hdst, hcells⟩ := csr2coo_eq h.graph.valid fresh
  have hlevels : ∃ lv, Leveled vlist elist V k (fun e => src.cells e) lv :=
    h.exists_level fun v e hs => (hcells v e hs).1
  obtain ⟨lv, hlv⟩ := hlevels
  refine ⟨src, dst, lv, hcoo, hlv, hsrc, hdst, fun e he => ?_⟩
  obtain ⟨v, -, hs, -⟩ := hlv.exists_source_row he
  rw [(hcells v e hs).2, Int.toNat_natCast]

end Edges

theorem LevelMask.inRow_iff {size m x : Nat} {level : Nat → Nat} {mask : Block Bool}
    (h : LevelMask size m level mask) (hx : x < size) {d : Int} :
    InRow mask size m x d ↔ (level x : Int) = d ∧ level x < m := by
  constructor
  · intro hd
    have hrow := (Graph.inRow_iff h.msize hx hd.1 hd.2.1).mp hd
    have hlt := hd.2.1
    rw [h.row x d hx hd.1 hd.2.1, decide_eq_true_iff] at hrow
    exact ⟨hrow, by omega⟩
  · rintro ⟨rfl, hlt⟩
    rw [Graph.inRow_iff h.msize hx (by omega) (by omega), h.row x _ hx (by omega) (by omega),
      decide_eq_true_iff]

/-- `gen_mask` on an order that is a level. -/
theorem genMask_levelMask {depth : Block Int} {size : Nat} (level : Nat → Nat)
    (hdepth : depth.size = size) (hcells : ∀ x : Nat, x < size → depth.cells x = level x)
    (hfits : (size : Int) * m < intBound) :
    ∃ mask, genMask depth size m = .ok mask ∧ LevelMask size m level mask := by
  obtain ⟨mask, hrun, hsize, hat⟩ := genMask_eq hdepth hfits
  refine ⟨mask, hrun, hsize, fun x d hx h0 hd => ?_⟩
  rw [maskRow_getD hx, hat d x h0 hd (by omega) (by omega), hcells x hx]

theorem genMaskVertex_levelMask (h : Ranked vlist elist V k src (fun _ => true) lv) (hV : 1 ≤ V)
    (href : ∀ x : Int, (V : Int) ≤ x → x < (V : Int) + k → ∃ e < elist.length, elist.getD e 0 = x)
    (hfits : RowsFit vlist elist V k (V + k)) :
    ∃ enough, ∀ fuel, enough ≤ fuel → ∃ (mask : Block Bool) (m : Nat),
      genMaskVertex fuel vlist elist V k .csr = .ok (mask, (m : Int)) ∧ Height V k lv m ∧
      LevelMask (V + k) m (fun x => lv x) mask := by
  obtain ⟨enough, hrun⟩ := genVertexOrderCsr_eq h hV href
  refine ⟨enough, fun fuel hfuel => ?_⟩
  obtain ⟨order, step, hok, hsize, hcells, hheight⟩ := hrun fuel hfuel
  have hpos := hheight.1 0 (Int.le_refl 0) (by omega)
  obtain ⟨m, rfl⟩ := Int.eq_ofNat_of_zero_le (show 0 ≤ step by omega)
  obtain ⟨mask, hmask, hlevel⟩ := genMask_levelMask (fun x => lv x)
    (show order.size = ((V + k : Nat) : Int) by rw [hsize]; push_cast; rfl)
    (fun x hx => hcells x (by omega) (by omega)) (hfits.lt h hheight)
  refine ⟨mask, m, ?_, hheight, hlevel⟩
  rw [genMaskVertex, hok, Run.ok_bind]
  dsimp only
  rw [hmask]
  rfl

theorem genMaskEdge_levelMask {src dst : Block Int} (h : Coo vlist elist V k src dst lv)
    (hfits : RowsFit vlist elist V k elist.length) :
    ∃ enough, ∀ fuel, enough ≤ fuel → ∃ (mask : Block Bool) (m : Nat),
      genMaskEdge fuel src dst V k = .ok (mask, (m : Int)) ∧ Height V k lv m ∧
      LevelMask elist.length m (fun e => lv (src.cells e)) mask := by
  obtain ⟨enough, hrun⟩ := genEdgeOrder_eq h
  refine ⟨enough, fun fuel hfuel => ?_⟩
  obtain ⟨order, step, hok, hsize, hcells, hheight⟩ := hrun fuel hfuel
  have hvert := h.leveled.vertices
  have hpos := hheight.1 0 (Int.le_refl 0) (by omega)
  obtain ⟨m, rfl⟩ := Int.eq_ofNat_of_zero_le (show 0 ≤ step by omega)
  obtain ⟨mask, hmask, hlevel⟩ := genMask_levelMask (fun e => lv (src.cells e)) hsize
    hcells (hfits.lt h.leveled.toRanked hheight)
  refine ⟨mask, m, ?_, hheight, hlevel⟩
  rw [genMaskEdge, hok, Run.ok_bind]
  dsimp only
  rw [h.srcSize, Int.toNat_natCast, hmask]
  rfl

end Levels

/-- Rules 2 and 3 of a graph with two vertices; rule 2 refers to rule 3. -/
theorem nested_orderInput : OrderInput [0, 1, 2, 4, 6] [2, 3, 3, 0, 0, 1] 2 2 :=
  orderInput_of_few ⟨⟨rfl, by decide, by decide⟩, rfl, by decide,
    acyclic_csrRhs (fun v => 4 - v) (by decide)⟩ rfl (by decide) (by decide)
    (fun _ hr hr' => reached_nested hr hr') (by decide)

end Laconic.Graph
