import Laconic.Graph.Coo
import Laconic.Lib.Levels

/-!
# Levels of edges and vertices

`gen_mask.h` orders a compressed graph for propagation: a vertex is at level 0, a rule one level
above the highest node that refers to it.  `gen_edge_order` sweeps over all edges until each one has
the level of its source, and takes the edges of a sweep off the in-degrees after the sweep;
`gen_vertex_order_csr` keeps a worklist of nodes and takes off edge after edge.
-/

namespace Laconic.Graph

open Slp Levels

/-- The entry of a node or an edge without an order. -/
def INIT : Int := 100000

/-- `if (dst[i] >= vertex_cnt) in_degree[dst[i] - vertex_cnt]++`. -/
def countEdge (dst : Block Int) (vertexCnt i : Int) (inDegree : Block Int) : Run (Block Int) := do
  let dstID ← dst.read i
  if vertexCnt ≤ dstID then inDegree.modify (dstID - vertexCnt) fun d => d + 1 else pure inDegree

/-! ## gen_edge_order -/

/-- What the loops over the edges change. -/
structure EdgeState where
  order : Block Int
  processCnt : Int
  /-- `in_degree` before the first sweep, `tmp_degree` during a sweep -/
  degree : Block Int

/-- An edge whose source is a vertex. -/
def startEdge (src dst : Block Int) (vertexCnt i : Int) (s : EdgeState) : Run EdgeState := do
  let srcID ← src.read i
  let dstID ← dst.read i
  if srcID < vertexCnt then do
    let order ← s.order.write i 0
    let degree ← (if vertexCnt ≤ dstID then s.degree.modify (dstID - vertexCnt) fun d => d - 1
      else pure s.degree)
    pure ⟨order, s.processCnt + 1, degree⟩
  else pure s

/-- `if (dst >= vertex_cnt && in_degree[dst - vertex_cnt] > 0) tmp_degree[dst - vertex_cnt]++`. -/
def noteDst (inDegree : Block Int) (vertexCnt dstID : Int) (tmpDegree : Block Int) :
    Run (Block Int) :=
  if vertexCnt ≤ dstID then do
    let d ← inDegree.read (dstID - vertexCnt)
    if 0 < d then tmpDegree.modify (dstID - vertexCnt) fun d => d + 1 else pure tmpDegree
  else pure tmpDegree

/-- An edge in the sweep number `step`. -/
def sweepEdge (src dst inDegree : Block Int) (vertexCnt step i : Int) (s : EdgeState) :
    Run EdgeState := do
  let srcID ← src.read i
  let dstID ← dst.read i
  if vertexCnt ≤ srcID then do
    let d ← inDegree.read (srcID - vertexCnt)
    let o ← s.order.read i
    -- `in_degree` is the one from before the sweep, so the edges of a rule that becomes free in
    -- it wait for the next sweep
    if d = 0 ∧ o = INIT then do
      let order ← s.order.write i step
      let tmpDegree ← noteDst inDegree vertexCnt dstID s.degree
      pure ⟨order, s.processCnt + 1, tmpDegree⟩
    else pure s
  else pure s

/-- One round of `while (process_cnt < edge_cnt)`; the first component is `step`. -/
def edgeStep (src dst : Block Int) (vertexCnt ruleCnt : Nat) (t : Int × EdgeState) :
    Run (Int × EdgeState) := do
  let s ← Run.forLoop (sweepEdge src dst t.2.degree vertexCnt t.1) src.size.toNat 0
    ⟨t.2.order, t.2.processCnt, Block.alloc ruleCnt fun _ => 0⟩
  -- what `tmp_degree` has collected is subtracted after the sweep
  let inDegree ← Run.forLoop (fun i inDegree => do
    let x ← s.degree.read i
    inDegree.modify i fun d => d - x) ruleCnt 0 t.2.degree
  pure (t.1 + 1, ⟨s.order, s.processCnt, inDegree⟩)

def genEdgeOrder (fuel : Nat) (src dst : Block Int) (vertexCnt ruleCnt : Nat) :
    Run (Block Int × Int) := do
  let inDegree ← Run.forLoop (countEdge dst vertexCnt) src.size.toNat 0
    (Block.alloc ruleCnt fun _ => 0)
  let s ← Run.forLoop (startEdge src dst vertexCnt) src.size.toNat 0
    ⟨Block.alloc src.size fun _ => INIT, 0, inDegree⟩
  let t ← Run.whileLoop (fun t : Int × EdgeState => pure (decide (t.2.processCnt < src.size)))
    (edgeStep src dst vertexCnt ruleCnt) fuel (1, s)
  pure (t.2.order, t.1)

/-! ## gen_vertex_order_csr -/

structure VertexState where
  order : Block Int
  inDegree : Block Int
  /-- `in_worklist` between two rounds, `out_worklist` during a round -/
  worklist : List Int

/-- One round of the loop over the edges of a node. -/
def relaxEdge (elist : List Int) (vertexCnt step eid : Int) (s : VertexState) :
    Run VertexState := do
  let dst ← (Block.ofList elist).read eid
  let o ← s.order.read dst
  -- a vertex has no in-degree, also when its order is still `INIT`
  if o = INIT ∧ vertexCnt ≤ dst then do
    let inDegree ← s.inDegree.modify (dst - vertexCnt) fun d => d - 1
    let d ← inDegree.read (dst - vertexCnt)
    if d = 0 then do
      let order ← s.order.write dst step
      pure ⟨order, inDegree, s.worklist ++ [dst]⟩
    else pure { s with inDegree := inDegree }
  else pure s

/-- One round of the loop over the worklist. -/
def vertexStep (vlist elist : List Int) (vertexCnt : Nat) (t : Int × VertexState) :
    Run (Int × VertexState) := do
  let s ← t.2.worklist.foldlM (fun s src => forEdges (relaxEdge elist vertexCnt t.1) vlist src s)
    { t.2 with worklist := [] }
  pure (t.1 + 1, s)

/-- One round of the loop that puts the vertices on the worklist. -/
def startVertex (src : Int) (s : VertexState) : Run VertexState := do
  let order ← s.order.write src 0
  pure { s with order := order, worklist := s.worklist ++ [src] }

def genVertexOrderCsr (fuel : Nat) (vlist elist : List Int) (vertexCnt ruleCnt : Nat) :
    Run (Block Int × Int) := do
  let inDegree ← Run.forLoop (countEdge (Block.ofList elist) vertexCnt) elist.length 0
    (Block.alloc ruleCnt fun _ => 0)
  let s ← Run.forLoop startVertex vertexCnt 0
    ⟨Block.alloc (vertexCnt + ruleCnt) fun _ => INIT, inDegree, []⟩
  let t ← Run.whileLoop (fun t : Int × VertexState => pure (!t.2.worklist.isEmpty))
    (vertexStep vlist elist vertexCnt) fuel (1, s)
  -- the last round has raised `step` and ordered nothing
  pure (t.2.order, t.1 - 1)

/-! ## The levels of a compressed graph -/

/-- Row `x` has the entry `y`. -/
def Points (vlist elist : List Int) (x y : Nat) : Prop := (y : Int) ∈ Csr.row vlist elist x

/-- A graph that both functions order: every rule has entries and is reached from a vertex, and no
chain of rules is as long as `INIT`. -/
structure OrderInput (vlist elist : List Int) (V k : Nat) : Prop where
  graph : RuleGraph vlist elist V k
  last : vlist.getD (V + k) 0 = elist.length
  vertices : 1 ≤ V
  nonempty : ∀ i, i < k → Csr.row vlist elist (V + i) ≠ []
  reached : ∀ r, V ≤ r → r < V + k → ∃ u, u < V ∧ Relation.ReflTransGen (Points vlist elist) u r
  chain : ∀ l : List Int, l.IsChain (Refers (csrRhs V V vlist elist)) → (∀ x ∈ l, (V : Int) ≤ x) →
    (l.length : Int) < INIT

/-- The edges `e < elist.length` with their sources `src e`, and the levels that the edges from the
nodes `counts` give. -/
structure Ranked (vlist elist : List Int) (V k : Nat) (src : Nat → Int) (counts : Int → Bool)
    (lv : Int → Nat) : Prop where
  graph : RuleGraph vlist elist V k
  last : vlist.getD (V + k) 0 = elist.length
  source : ∀ v (e : Nat), IsSource vlist v e → src e = v
  rules : ∀ x : Int, (V : Int) ≤ x → counts x = true
  level : IsLevel ((List.range elist.length).filter fun e => counts (src e)) src
    (fun e => elist.getD e 0) (fun x => x < (V : Int)) lv

/-- The levels of a graph that `gen_edge_order` orders. -/
structure Leveled (vlist elist : List Int) (V k : Nat) (src : Nat → Int) (lv : Int → Nat) : Prop
    extends Ranked vlist elist V k src (fun _ => true) lv where
  vertices : 1 ≤ V
  bound : ∀ x : Int, 0 ≤ x → x < (V : Int) + k → (lv x : Int) < INIT
  referenced : ∀ x : Int, (V : Int) ≤ x → x < (V : Int) + k → ∃ e < elist.length, elist.getD e 0 = x
  refers : ∀ x : Int, (V : Int) ≤ x → x < (V : Int) + k → ∃ e < elist.length, src e = x

section Levels

variable {vlist elist : List Int} {V k : Nat} {src : Nat → Int} {counts : Int → Bool}
  {lv : Int → Nat}

/-- The source of every edge. -/
theorem exists_src (hvalid : Csr.Valid vlist elist) :
    ∃ src : Nat → Int, ∀ v (e : Nat), IsSource vlist v e → src e = v := by
  have hex : ∀ e : Nat, ∃ x : Int, ∀ v, IsSource vlist v e → x = v := fun e => by
    by_cases he : ∃ v, IsSource vlist v e
    · obtain ⟨v, hs⟩ := he
      exact ⟨v, fun w hw => by rw [hs.unique hvalid hw]⟩
    · exact ⟨0, fun v hs => absurd ⟨v, hs⟩ he⟩
  choose src hsrc using hex
  exact ⟨src, fun v e => hsrc e v⟩

/-- Every edge has a row. -/
theorem exists_row (hg : RuleGraph vlist elist V k) (hlast : vlist.getD (V + k) 0 = elist.length)
    {e : Nat} (he : e < elist.length) : ∃ v, v < V + k ∧ IsSource vlist v e := by
  have hlen := hg.length
  exact exists_source hg.valid (by omega : V + k < vlist.length) (show (0 : Int) ≤ (e : Int) by omega)
    (by omega)

/-- An edge from a rule is a reference. -/
theorem refers_of_edge (hg : RuleGraph vlist elist V k)
    (hlast : vlist.getD (V + k) 0 = elist.length)
    (hsource : ∀ v (e : Nat), IsSource vlist v e → src e = v) {e : Nat} (he : e < elist.length)
    (hV : (V : Int) ≤ src e) : Refers (csrRhs V V vlist elist) (src e) (elist.getD e 0) := by
  obtain ⟨v, -, hs⟩ := exists_row hg hlast he
  refine ⟨_, csrRhs_row hV, ?_⟩
  rw [hsource v e hs, Int.toNat_natCast]
  exact (mem_row_iff hg.valid).mpr ⟨e, hs, by rw [Int.toNat_natCast]⟩

/-- The edges without cycles of rules give levels. -/
theorem exists_ranked (hg : RuleGraph vlist elist V k) (hlast : vlist.getD (V + k) 0 = elist.length)
    (hsource : ∀ v (e : Nat), IsSource vlist v e → src e = v)
    (hrules : ∀ x : Int, (V : Int) ≤ x → counts x = true) :
    ∃ lv, Ranked vlist elist V k src counts lv := by
  have hexists : ∃ lv, IsLevel ((List.range elist.length).filter fun e => counts (src e)) src
      (fun e => elist.getD e 0) (fun x => x < (V : Int)) lv :=
    exists_isLevel hg.wellFounded_up fun e he hs _ => Relation.TransGen.single
      (refers_of_edge hg hlast hsource (List.mem_range.mp (List.mem_filter.mp he).1) (by omega))
  obtain ⟨lv, hlevel⟩ := hexists
  exact ⟨lv, hg, hlast, hsource, hrules, hlevel⟩

theorem exists_levels (counts : Int → Bool) (hg : RuleGraph vlist elist V k)
    (hlast : vlist.getD (V + k) 0 = elist.length)
    (hrules : ∀ x : Int, (V : Int) ≤ x → counts x = true) :
    ∃ src lv, Ranked vlist elist V k src counts lv := by
  obtain ⟨src, hsrc⟩ := exists_src hg.valid
  exact ⟨src, exists_ranked hg hlast hsrc hrules⟩

/-- Every rule has an edge to it when the rules are reached from the vertices. -/
theorem exists_edge_to (hg : RuleGraph vlist elist V k)
    (hreached : ∀ r, V ≤ r → r < V + k →
      ∃ u, u < V ∧ Relation.ReflTransGen (Points vlist elist) u r) (x : Int) (hV : (V : Int) ≤ x)
    (hx : x < (V : Int) + k) : ∃ e < elist.length, elist.getD e 0 = x := by
  obtain ⟨u, hu, hpath⟩ := hreached x.toNat (by omega) (by omega)
  -- the last edge on the way from a vertex
  rcases Relation.ReflTransGen.cases_tail hpath with heq | ⟨p, -, hp⟩
  · omega
  · obtain ⟨e, hs, he⟩ := (mem_row_iff hg.valid).mp hp
    have hr := hs.range hg.valid
    exact ⟨e.toNat, by omega, by omega⟩

namespace Ranked

theorem mem_filter {e : Nat} (he : e < elist.length) (hc : counts (src e) = true) :
    e ∈ (List.range elist.length).filter fun e => counts (src e) :=
  List.mem_filter.mpr ⟨List.mem_range.mpr he, hc⟩

theorem exists_source_row (h : Ranked vlist elist V k src counts lv) {e : Nat}
    (he : e < elist.length) : ∃ v, v < V + k ∧ IsSource vlist v e ∧ src e = v := by
  obtain ⟨v, hv, hs⟩ := exists_row h.graph h.last he
  exact ⟨v, hv, hs, h.source v e hs⟩

/-- The ends of an edge are nodes. -/
theorem ends (h : Ranked vlist elist V k src counts lv) {e : Nat} (he : e < elist.length) :
    (0 ≤ src e ∧ src e < (V : Int) + k) ∧ 0 ≤ elist.getD e 0 ∧ elist.getD e 0 < (V : Int) + k := by
  obtain ⟨v, hv, hs, hsrc⟩ := h.exists_source_row he
  refine ⟨by omega, h.graph.entries v hv _ ?_⟩
  exact (mem_row_iff h.graph.valid).mpr ⟨e, hs, by rw [Int.toNat_natCast]⟩

theorem vertex_iff (h : Ranked vlist elist V k src counts lv) {x : Int} :
    lv x = 0 ↔ x < (V : Int) :=
  h.level.zero_iff

/-- Below an occupied level there is an occupied level. -/
theorem exists_below (h : Ranked vlist elist V k src counts lv) {n : Nat} {x : Int} (h0 : 0 ≤ x)
    (hx : x < (V : Int) + k) (hpos : 0 < n) (hn : n ≤ lv x) :
    ∃ y : Int, 0 ≤ y ∧ y < (V : Int) + k ∧ lv y = n := by
  obtain ⟨m, hm⟩ := Nat.exists_eq_add_of_le hn
  induction m generalizing x with
  | zero => exact ⟨x, h0, hx, by omega⟩
  | succ m ih =>
    obtain ⟨e, he, -, hs⟩ := h.level.exists_pred (n := n + m - 1) (by omega : lv x = _)
    have hends := (h.ends (List.mem_range.mp (List.mem_filter.mp he).1)).1
    exact ih hends.1 hends.2 (by omega) (by omega)

/-- A level above all. -/
theorem exists_top (lv : Int → Nat) (n : Nat) :
    ∃ M, ∀ x : Int, 0 ≤ x → x < n → lv x < M := by
  induction n with
  | zero => exact ⟨0, fun x h0 hx => by omega⟩
  | succ n ih =>
    obtain ⟨M, hM⟩ := ih
    refine ⟨max M (lv n + 1), fun x h0 hx => ?_⟩
    by_cases hxn : x = n
    · rw [hxn]
      exact Nat.lt_of_lt_of_le (Nat.lt_succ_self _) (Nat.le_max_right _ _)
    · exact Nat.lt_of_lt_of_le (hM x h0 (by omega)) (Nat.le_max_left _ _)

end Ranked

/-- An input of both functions has levels. -/
theorem OrderInput.exists_level (h : OrderInput vlist elist V k)
    (hsource : ∀ v (e : Nat), IsSource vlist v e → src e = v) :
    ∃ lv, Leveled vlist elist V k src lv := by
  have hexists : ∃ lv, Ranked vlist elist V k src (fun _ => true) lv :=
    exists_ranked h.graph h.last hsource fun _ _ => rfl
  obtain ⟨lv, hlv⟩ := hexists
  refine ⟨lv, hlv, h.vertices, fun x h0 hx => ?_, exists_edge_to h.graph h.reached,
    fun x hV hx => ?_⟩
  · -- a level is the length of a chain
    cases hn : lv x with
    | zero => decide
    | succ n =>
      obtain ⟨a, l, hchain, hrules, -, hl, -⟩ := hlv.level.exists_chain
        (fun e he hb => refers_of_edge h.graph h.last hsource
          (List.mem_range.mp (List.mem_filter.mp he).1) (Int.not_lt.mp hb)) hn
      have := h.chain _ hchain fun y hy => Int.not_lt.mp (hrules y hy).1
      rw [List.length_cons] at this
      omega
  · have hne := h.nonempty (x.toNat - V) (by omega)
    rw [show V + (x.toNat - V) = x.toNat by omega] at hne
    obtain ⟨y, hy⟩ := List.exists_mem_of_ne_nil _ hne
    obtain ⟨e, hs, -⟩ := (mem_row_iff h.graph.valid).mp hy
    have hr := hs.range h.graph.valid
    refine ⟨e.toNat, by omega, ?_⟩
    rw [hsource x.toNat e.toNat (by rw [Int.toNat_of_nonneg hr.1]; exact hs)]
    omega

/-- All edges count. -/
theorem Leveled.levels (h : Leveled vlist elist V k src lv) :
    IsLevel (List.range elist.length) src (fun e => elist.getD e 0) (fun x => x < (V : Int)) lv := by
  have := h.level
  rwa [List.filter_true] at this

/-- Below an occupied level there is an occupied level, down to the vertices. -/
theorem Leveled.exists_at (h : Leveled vlist elist V k src lv) {n : Nat} {x : Int} (h0 : 0 ≤ x)
    (hx : x < (V : Int) + k) (hn : n ≤ lv x) : ∃ y : Int, 0 ≤ y ∧ y < (V : Int) + k ∧ lv y = n := by
  rcases Nat.eq_zero_or_pos n with rfl | hpos
  · have := h.vertices
    exact ⟨0, by omega, by omega, h.vertex_iff.mpr (by omega)⟩
  · exact h.exists_below h0 hx hpos hn

end Levels

end Laconic.Graph
