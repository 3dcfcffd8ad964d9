import Laconic.Graph.EdgeOrder
import Laconic.Graph.Worklist

/-!
# The levels that gen_vertex_order_csr computes

The worklist starts with the vertices, and every edge counts.  An order is the length of the longest
path of references from a vertex; `gen_edge_order` gives every edge the order of its source.
-/

namespace Laconic.Graph

open Levels

section Csr

variable {vlist elist : List Int} {V k : Nat} {src : Nat → Int} {lv : Int → Nat}

/-- Before the first round all edges are to be visited, and no rule has an order. -/
theorem startVertex_loop (h : Ranked vlist elist V k src (fun _ => true) lv)
    (href : ∀ x : Int, (V : Int) ≤ x → x < (V : Int) + k → ∃ e < elist.length, elist.getD e 0 = x)
    {inDegree : Block Int} (hsize : inDegree.size = k)
    (hdeg : ∀ r : Int, 0 ≤ r → r < k → inDegree.cells r =
      (List.range elist.length).countP fun e => decide (elist.getD e 0 = V + r)) :
    ∃ s, Run.forLoop startVertex V 0
        ⟨Block.alloc ((V : Int) + k) fun _ => INIT, inDegree, []⟩ = .ok s ∧
      RoundInv elist V k src (fun _ => true) lv 0 0 0 s := by
  have hmeets : Run.Meets (fun _ => False) (Run.forLoop startVertex V 0
      ⟨Block.alloc ((V : Int) + k) fun _ => INIT, inDegree, []⟩)
      (fun s => 0 ≤ (V : Int) ∧ s.inDegree = inDegree ∧ s.order.size = (V : Int) + k ∧
        (∀ x : Int, 0 ≤ x → s.order.cells x = if x < (V : Int) then 0 else INIT) ∧
        (∀ x, x ∈ s.worklist ↔ 0 ≤ x ∧ x < (V : Int)) ∧ s.worklist.Nodup) := by
    refine Run.meets_forLoop (fun i (s : VertexState) => 0 ≤ i ∧ s.inDegree = inDegree ∧
        s.order.size = (V : Int) + k ∧
        (∀ x : Int, 0 ≤ x → s.order.cells x = if x < i then 0 else INIT) ∧
        (∀ x, x ∈ s.worklist ↔ 0 ≤ x ∧ x < i) ∧ s.worklist.Nodup) (V : Int) ?_ V 0 _ (by omega)
      ⟨Int.le_refl 0, rfl, rfl, fun x hx => by rw [if_neg (by omega)]; rfl,
        fun x => iff_of_false List.not_mem_nil (by omega), List.nodup_nil⟩
    rintro i s hi ⟨h0, hd, hosize, horder, hwork, hnd⟩
    have hin : s.order.InB i := ⟨h0, by omega⟩
    rw [startVertex, Block.write_eq hin, Run.ok_bind, Run.meets_pure]
    refine ⟨by omega, hd, hosize, fun x hx => ?_, fun x => ?_, ?_⟩
    · dsimp only
      by_cases hxi : x = i
      · subst hxi
        rw [Block.cells_upd_self, if_pos (by omega)]
      · rw [Block.cells_upd_ne _ _ hxi, horder x hx]
        exact if_congr (by omega) rfl rfl
    · rw [List.mem_append, List.mem_singleton, hwork]
      omega
    · dsimp only
      rw [← List.concat_eq_append]
      exact hnd.concat fun hmem => by have := (hwork i).mp hmem; omega
  obtain ⟨s, hrun, -, hd, hosize, horder, hwork, hnd⟩ := hmeets.exists_ok fun e he => he.elim
  have htodo : ∀ e, e < elist.length → todoOf src (fun _ => true) lv 0 s.worklist e = true := by
    intro e he
    have hends := (h.ends he).1
    rw [todoOf, Bool.true_and, decide_eq_true_eq, hwork]
    by_cases hV : src e < V
    · exact Or.inr ⟨hends.1, hV⟩
    · exact Or.inl (h.level.pos _ hV)
  have hbusy : ∀ x, (V : Int) ≤ x → x < (V : Int) + k →
      ¬ Free elist (todoOf src (fun _ => true) lv 0 s.worklist) x := by
    intro x hV hx hf
    obtain ⟨e, he, hdx⟩ := href x hV hx
    have := hf e he hdx
    rw [htodo e he] at this
    cases this
  refine ⟨s, hrun, ⟨hosize, by rw [hd]; exact hsize, fun r hr0 hr => ?_, fun x h0 hx => ?_,
    fun x hV hx hc => absurd hc (hbusy x hV hx), fun x hV hx hc => ?_, fun x => ?_, List.nodup_nil⟩,
    fun x => ?_, fun _ _ => rfl, hnd⟩
  · rw [hd, hdeg r hr0 hr]
    congr 1
    apply List.countP_congr
    intro e he
    rw [htodo e (List.mem_range.mp he), Bool.and_true]
  · rw [horder x h0, if_pos hx]
  · rw [horder x (by omega), if_neg (by omega)]
  · refine iff_of_false List.not_mem_nil ?_
    rintro ⟨hV, hx, -, hf⟩
    exact hbusy x hV hx hf
  · rw [hwork, h.vertex_iff]
    omega

/-- `gen_vertex_order_csr` ends, gives every node its level and counts the levels. -/
theorem genVertexOrderCsr_eq (h : Ranked vlist elist V k src (fun _ => true) lv) (hV : 1 ≤ V)
    (href : ∀ x : Int, (V : Int) ≤ x → x < (V : Int) + k → ∃ e < elist.length, elist.getD e 0 = x) :
    ∃ enough, ∀ fuel, enough ≤ fuel → ∃ order step, genVertexOrderCsr fuel vlist elist V k =
      .ok (order, step) ∧ order.size = (V : Int) + k ∧
      (∀ x : Int, 0 ≤ x → x < (V : Int) + k → order.cells x = lv x) ∧ Height V k lv step := by
  have hsize : (Block.ofList elist).size = elist.length := rfl
  have hcell : ∀ e : Nat, (Block.ofList elist).cells e = elist.getD e 0 := fun e => by
    show elist.getD (e : Int).toNat default = _
    rw [Int.toNat_natCast]
    rfl
  obtain ⟨inDegree, hrun, hdsize, hdeg⟩ := countEdge_loop (V := V) (k := k) hsize fun e he => by
    rw [hcell]
    exact (h.ends he).2.2
  simp only [hcell] at hdeg
  obtain ⟨s₀, hrun₀, hs₀⟩ := startVertex_loop h href hdsize hdeg
  obtain ⟨enough, hloop⟩ := vertexLoop_eq h hs₀
  refine ⟨enough, fun fuel hfuel => ?_⟩
  obtain ⟨m, s, hrun₁, hinv, hempty, hocc⟩ := hloop fuel hfuel
  -- there is a vertex
  have hpos : 0 < m := by
    by_contra hz
    have hmem := (hinv.work 0).mpr ⟨Int.le_refl 0, by omega, by
      rw [h.vertex_iff.mpr (by omega)]
      omega⟩
    rw [hempty] at hmem
    cases hmem
  obtain ⟨x, h0, hx, hlx⟩ := (hocc.resolve_left (by omega)).2
  refine ⟨s.order, (m : Int) + 1 - 0 - 1, ?_, hinv.inv.orderSize, fun y hy0 hy => ?_,
    fun y hy0 hy => ?_, x, h0, hx, by omega⟩
  · rw [genVertexOrderCsr, hrun, Run.ok_bind, hrun₀, Run.ok_bind]
    exact congrArg (· >>= fun t : Int × VertexState => pure (t.2.order, t.1 - 1)) hrun₁
  · by_cases hyV : y < V
    · rw [h.vertex_iff.mpr hyV]
      exact hinv.inv.vertex y hy0 hyV
    · have := hinv.order_rule h hempty hpos (by omega) hy
      rwa [Int.sub_zero] at this
  · have := hinv.below h hempty hpos hy0 hy
    omega

end Csr

/-! ## Longest paths -/

/-- A path of references from the vertex `u` through the rules `l` to `r`, the last of them. -/
structure RefPath (vlist elist : List Int) (V : Nat) (u : Nat) (l : List Nat) (r : Nat) : Prop where
  vertex : u < V
  rules : ∀ x ∈ l, V ≤ x
  chain : (u :: l).IsChain (Points vlist elist)
  last : l.getLast? = some r

section Longest

variable {vlist elist : List Int} {V k : Nat} {src : Nat → Int} {counts : Int → Bool}
  {lv : Int → Nat}

/-- An edge that counts goes up. -/
theorem Ranked.lt_of_points (h : Ranked vlist elist V k src counts lv) {x y : Nat}
    (hc : counts x = true) (hxy : Points vlist elist x y) (hy : V ≤ y) : lv x < lv y := by
  obtain ⟨e, hs, he⟩ := (mem_row_iff h.graph.valid).mp hxy
  have hr := hs.range h.graph.valid
  obtain ⟨e, rfl⟩ := Int.eq_ofNat_of_zero_le hr.1
  rw [Int.toNat_natCast] at he
  have hsrc := h.source x e hs
  have hlt := h.level.lt (Ranked.mem_filter (by omega) (by rwa [hsrc]))
    (show ¬ elist.getD e 0 < (V : Int) by omega)
  rwa [hsrc, he] at hlt

/-- Rules of which each one refers to the next. -/
structure RuleChain (vlist elist : List Int) (V k : Nat) (l : List Nat) : Prop where
  rules : ∀ x ∈ l, V ≤ x ∧ x < V + k
  chain : l.IsChain (Points vlist elist)

/-- A rule at level `n + 1` ends a path of `n + 1` rules. -/
theorem Ranked.exists_rules (h : Ranked vlist elist V k src counts lv) {n r : Nat}
    (hr : r < V + k) (hn : lv r = n + 1) : ∃ (a : Nat) (l : List Nat),
      RuleChain vlist elist V k (a :: l) ∧ (a :: l).getLast? = some r ∧ l.length = n ∧ lv a = 1 := by
  obtain ⟨a, l, hchain, hrules, hlast, hlen, ha⟩ := h.level.exists_chain
    (R := fun x y : Int => Points vlist elist x.toNat y.toNat) (fun e he _ => by
      have he := List.mem_range.mp (List.mem_filter.mp he).1
      have hends := h.ends he
      obtain ⟨v, hv, hs, hsrc⟩ := h.exists_source_row he
      rw [hsrc, Int.toNat_natCast, Points, Int.toNat_of_nonneg hends.2.1]
      exact (mem_row_iff h.graph.valid).mpr ⟨e, hs, by rw [Int.toNat_natCast]⟩) hn
  have hrange : ∀ y ∈ a :: l, (V : Int) ≤ y ∧ y < (V : Int) + k := by
    intro y hy
    obtain ⟨hb, rfl | ⟨e, he, rfl⟩⟩ := hrules y hy
    · omega
    · have hends := h.ends (List.mem_range.mp (List.mem_filter.mp he).1)
      exact ⟨Int.not_lt.mp hb, hends.1.2⟩
  refine ⟨a.toNat, l.map Int.toNat, ⟨fun y hy => ?_, ?_⟩, ?_, by rw [List.length_map, hlen], ?_⟩
  · rw [← List.map_cons] at hy
    obtain ⟨z, hz, rfl⟩ := List.mem_map.mp hy
    have := hrange z hz
    omega
  · rw [← List.map_cons, List.isChain_map]
    exact hchain
  · rw [← List.map_cons, List.getLast?_map, hlast]
    rfl
  · have := hrange a List.mem_cons_self
    rwa [Int.toNat_of_nonneg (by omega)]

/-- There are at least as many rules as levels above the vertices. -/
theorem Ranked.level_le (h : Ranked vlist elist V k src counts lv) {r : Nat} (hr : r < V + k) :
    lv r ≤ k := by
  cases hn : lv r with
  | zero => exact Nat.zero_le k
  | succ n =>
    obtain ⟨a, l, hp, -, hlen, -⟩ := h.exists_rules hr hn
    -- levels grow along the path, so that no rule comes twice
    have hgrow : (a :: l).IsChain fun y z : Nat => lv y < lv z :=
      hp.chain.imp_of_mem_imp fun y z hy hz hyz =>
        h.lt_of_points (h.rules y (by have := (hp.rules y hy).1; omega)) hyz (hp.rules z hz).1
    have : IsTrans Nat fun y z => lv y < lv z := ⟨fun _ _ _ => Nat.lt_trans⟩
    have hnodup : (a :: l).Nodup :=
      (List.isChain_iff_pairwise.mp hgrow).imp fun hlt heq => by
        rw [heq] at hlt
        exact Nat.lt_irrefl _ hlt
    have hle := (hnodup.subperm fun x hx => List.mem_range'_1.mpr (hp.rules x hx)).length_le
    rwa [List.length_range', List.length_cons, hlen] at hle

/-- A rule ends a path of as many references as its level says, and no longer one. -/
theorem Ranked.isGreatest (h : Ranked vlist elist V k src (fun _ => true) lv)
    (href : ∀ x : Int, (V : Int) ≤ x → x < (V : Int) + k → ∃ e < elist.length, elist.getD e 0 = x)
    {r : Nat} (hV : V ≤ r) (hr : r < V + k) :
    IsGreatest {n : Int | ∃ u l, RefPath vlist elist V u l r ∧ (l.length : Int) = n} (lv r) := by
  constructor
  · obtain ⟨n, hn⟩ := Nat.exists_eq_succ_of_ne_zero
      (Nat.ne_of_gt (h.level.pos (r : Int) (show ¬ (r : Int) < V by omega)))
    obtain ⟨a, l, ⟨hrules, hchain⟩, hlast, hlen, hla⟩ := h.exists_rules hr hn
    have ha := hrules a List.mem_cons_self
    -- an edge to the first rule comes from a vertex
    obtain ⟨e, he, hd⟩ := href a (by omega) (by omega)
    obtain ⟨u, hu, hs, hsrc⟩ := h.exists_source_row he
    have hpoint : Points vlist elist u a :=
      (mem_row_iff h.graph.valid).mpr ⟨e, hs, by rw [Int.toNat_natCast]; exact hd⟩
    have hlt := h.lt_of_points rfl hpoint ha.1
    have huV := h.vertex_iff.mp (show lv u = 0 by omega)
    refine ⟨u, a :: l, ⟨by omega, fun x hx => (hrules x hx).1,
      List.isChain_cons_cons.mpr ⟨hpoint, hchain⟩, hlast⟩, ?_⟩
    rw [List.length_cons, hlen, hn]
  · rintro n ⟨u, l, hp, rfl⟩
    have hlast : (u :: l).getLast? = some r := by
      cases l with
      | nil => cases hp.last
      | cons a l => rw [List.getLast?_cons_cons, hp.last]
    have hle : lv u + l.length ≤ lv r := add_length_le hp.chain
      (fun y z hyz hz => h.lt_of_points rfl hyz (hp.rules z hz)) hlast
    omega

end Longest

/-- Rules 2 and 3 of a graph with two vertices are both referred to by a vertex. -/
theorem reached_nested {r : Nat} (hr : 2 ≤ r) (hr' : r < 2 + 2) : ∃ v : Nat, v < 2 ∧
    Relation.ReflTransGen (Points [0, 1, 2, 4, 6] [2, 3, 3, 0, 0, 1]) v r := by
  have hpoints : Points [0, 1, 2, 4, 6] [2, 3, 3, 0, 0, 1] 0 2 ∧
      Points [0, 1, 2, 4, 6] [2, 3, 3, 0, 0, 1] 1 3 := by
    unfold Points
    decide
  obtain rfl | rfl : r = 2 ∨ r = 3 := by omega
  · exact ⟨0, by decide, Relation.ReflTransGen.single hpoints.1⟩
  · exact ⟨1, by decide, Relation.ReflTransGen.single hpoints.2⟩

end Laconic.Graph
