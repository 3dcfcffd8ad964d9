import Laconic.DepthFilter.Run

/-!
# Rows and columns while rules are inlined

Rules may be inlined in any order: the rows and the columns of the nodes that are left stay
transposes of each other and name no rule that is gone, so that every `find` succeeds.  The two
versions of `mergeRule` do the same to the lists; the one of the rule filter computes lengths and
frequencies beside it, which may overflow.
-/

namespace Laconic.DepthFilter

open Laconic.Filter (GraphInv Node OverflowOnly Variant Without csrConvert csrConvertIdx)
open Slp

/-- Calls of `mergeRule`, one after the other. -/
def mergeEach (vertexCnt : Int) (rules : List Int) (s : State) : Run State :=
  rules.foldlM (fun s r => mergeRule vertexCnt r s) s

/-- Calls of the `mergeRule` of the rule filter. -/
def filterEach (variant : Variant) (threshold vertexCnt : Int) (rules : List Int)
    (s : Filter.State) : Run Filter.State :=
  rules.foldlM (fun s r => Filter.mergeRule variant threshold vertexCnt r s) s

/-- The nodes that are left when the given rules are inlined. -/
def Unmerged (V k : Nat) (rules : List Int) (v : Int) : Prop := Node V k v ∧ ∀ r ∈ rules, v ≠ r + V

/-- Among the nodes that are left, rows and columns are transposes, and none names a rule that is
gone. -/
structure Transposed (V k : Nat) (rules : List Int) (graph graphT : Block (List Int)) : Prop where
  counts : ∀ u w, Unmerged V k rules u → Unmerged V k rules w →
    (graph.cells u).count w = (graphT.cells w).count u
  rows : ∀ u, Unmerged V k rules u → ∀ r ∈ rules, r + V ∉ graph.cells u
  cols : ∀ u, Unmerged V k rules u → ∀ r ∈ rules, r + V ∉ graphT.cells u

section Lists

variable {vlist elist : List Int} {V k : Nat} {A : Int → Prop} {rules : List Int} {s : State}

theorem Transposed.of_graphInv (h : GraphInv vlist elist V k (Unmerged V k rules) s.rows) :
    Transposed V k rules s.graph s.graphT := by
  constructor
  · intro u w hu hw
    exact (h.link w u hw hu).symm
  · intro u hu r hr hmem
    exact (h.closed u hu _ hmem).2 r hr rfl
  · intro u hu r hr hmem
    exact (h.colClosed u hu _ hmem).2 r hr rfl

/-- No call fails, and the nodes that are left form a graph. -/
theorem mergeEach_meets (hac : Acyclic (csrRhs V V vlist elist))
    (hg : GraphInv vlist elist V k A s.rows) (hnodup : rules.Nodup)
    (hrules : ∀ r ∈ rules, 0 ≤ r ∧ A (r + V)) :
    Run.Meets (fun _ => False) (mergeEach V rules s) (fun s' =>
      GraphInv vlist elist V k (fun v => A v ∧ ∀ r ∈ rules, v ≠ r + V) s'.rows) := by
  unfold mergeEach
  induction rules generalizing A s with
  | nil =>
    have hall : (fun v => A v ∧ ∀ r ∈ ([] : List Int), v ≠ r + V) = A := by
      ext v
      simp
    rw [hall]
    exact hg
  | cons r rules ih =>
    rw [List.foldlM_cons, Run.meets_bind]
    obtain ⟨hr, hrest⟩ := List.nodup_cons.mp hnodup
    obtain ⟨h0, hA⟩ := hrules r List.mem_cons_self
    apply (mergeRule_meets hac hg h0 hA).mono
    rintro s₁ ⟨hm, -⟩
    -- what is left of `A` without this rule and without the others
    have hleft : (fun v => A v ∧ ∀ r' ∈ r :: rules, v ≠ r' + V) =
        fun v => Without A (r + V) v ∧ ∀ r' ∈ rules, v ≠ r' + V := by
      ext v
      rw [List.forall_mem_cons, Without, and_assoc]
    rw [hleft]
    apply ih (hg.merged hac hA (by omega) hm) hrest
    intro r' hr'
    obtain ⟨h0', hA'⟩ := hrules r' (List.mem_cons_of_mem _ hr')
    refine ⟨h0', hA', fun heq => hr ?_⟩
    obtain rfl : r' = r := by omega
    exact hr'

end Lists

/-! ## The rule filter -/

/-- The vectors of both filters hold the same lists; there is room for the information about `k`
rules. -/
structure SameLists (V k : Nat) (s : Filter.State) (graph graphT : Block (List Int)) : Prop where
  graph : s.graph = graph
  graphT : s.graphT = graphT
  rowSize : s.graph.size = (V : Int) + k
  colSize : s.graphT.size = (V : Int) + k
  rifSize : s.rif.size = k
  flagSize : s.mergeFlag.size = k

section RuleFilter

variable {V k : Nat} {threshold ID node : Int} {variant : Variant} {s : Filter.State}
  {g graph graphT : Block (List Int)}

/-- What a splice does. -/
theorem spliceInto_eq_ok (h : spliceInto ID g node = .ok graph) :
    node ≠ ID ∧ g.InB node ∧ g.InB ID ∧ graph.size = g.size ∧
      ∃ row, Filter.replaceFirst ID (g.cells ID) (g.cells node) = .ok row ∧
        g.write node row = .ok graph := by
  unfold spliceInto at h
  by_cases hne : node = ID
  · rw [if_pos hne] at h
    cases h
  · rw [if_neg hne] at h
    dsimp only at h
    obtain ⟨l, hl, h⟩ := Run.bind_eq_ok.mp h
    obtain ⟨body, hbody, h⟩ := Run.bind_eq_ok.mp h
    obtain ⟨row, hrow, hwrite⟩ := Run.bind_eq_ok.mp h
    obtain ⟨hnode, rfl⟩ := Block.read_eq_ok.mp hl
    obtain ⟨hID, rfl⟩ := Block.read_eq_ok.mp hbody
    refine ⟨hne, hnode, hID, ?_, row, hrow, hwrite⟩
    obtain ⟨-, rfl⟩ := Block.write_eq_ok.mp hwrite
    rfl

/-- Information about a rule does not touch the lists. -/
theorem updateInfo_lists (h : SameLists V k s graph graphT) {i : Int} (h0 : 0 ≤ i) (hk : i < k)
    (f : Filter.RuleInfo → Filter.RuleInfo) :
    Run.Meets OverflowOnly (Filter.updateInfo threshold i f s)
      (SameLists V k · graph graphT) := by
  refine ((Filter.updateInfo_meets f ?_ ?_).weaken fun e he => he.1).mono ?_
  · exact ⟨h0, by rw [h.rifSize]; exact hk⟩
  · exact ⟨h0, by rw [h.flagSize]; exact hk⟩
  · rintro s' ⟨rfl, -⟩
    exact ⟨h.graph, h.graphT, h.rowSize, h.colSize, h.rifSize, h.flagSize⟩

theorem insertChildren_lists (h : SameLists V k s g graphT)
    (hsplice : spliceInto ID g node = .ok graph) :
    Run.Meets OverflowOnly (Filter.insertChildren threshold V ID s node)
      (SameLists V k · graph graphT) := by
  obtain ⟨hne, hnode, hID, hsize, row, hrow, hwrite⟩ := spliceInto_eq_ok hsplice
  obtain rfl := h.graph
  have hs : SameLists V k { s with graph := graph } graph graphT :=
    ⟨rfl, h.graphT, hsize.trans h.rowSize, h.colSize, h.rifSize, h.flagSize⟩
  have hrange := hnode.2
  rw [h.rowSize] at hrange
  unfold Filter.insertChildren
  rw [if_neg hne]
  dsimp only
  rw [Block.read_eq hnode, Run.ok_bind, Block.read_eq hID, Run.ok_bind, hrow, Run.ok_bind, hwrite,
    Run.ok_bind]
  by_cases hV : (V : Int) ≤ node
  · rw [if_pos hV]
    exact updateInfo_lists hs (by omega) (by omega) _
  · rw [if_neg hV]
    exact hs

theorem updateChild_lists (h : SameLists V k s graph g)
    (hsplice : spliceInto ID g node = .ok graphT) :
    Run.Meets OverflowOnly (Filter.updateChild variant threshold V ID s node)
      (SameLists V k · graph graphT) := by
  obtain ⟨hne, hnode, hID, hsize, row, hrow, hwrite⟩ := spliceInto_eq_ok hsplice
  obtain rfl := h.graphT
  have hs : SameLists V k { s with graphT := graphT } graph graphT :=
    ⟨h.graph, rfl, h.rowSize, hsize.trans h.colSize, h.rifSize, h.flagSize⟩
  have hrange := hnode.2
  rw [h.colSize] at hrange
  unfold Filter.updateChild
  rw [if_neg hne]
  dsimp only
  rw [Block.read_eq hnode, Run.ok_bind, Block.read_eq hID, Run.ok_bind, hrow, Run.ok_bind, hwrite,
    Run.ok_bind]
  by_cases hV : (V : Int) ≤ node
  · rw [if_pos hV]
    exact updateInfo_lists hs (by omega) (by omega) _
  · rw [if_neg hV]
    exact hs

/-- `mergeRule` of the rule filter has the lists of the other one, or overflows. -/
theorem filterRule_lists {t t' : State} {r : Int} (h : SameLists V k s t.graph t.graphT)
    (hrun : mergeRule V r t = .ok t') :
    Run.Meets OverflowOnly (Filter.mergeRule variant threshold V r s)
      (SameLists V k · t'.graph t'.graphT) := by
  unfold mergeRule at hrun
  obtain ⟨parents, hparents, hrun⟩ := Run.bind_eq_ok.mp hrun
  obtain ⟨graph, hgraph, hrun⟩ := Run.bind_eq_ok.mp hrun
  obtain ⟨children, hchildren, hrun⟩ := Run.bind_eq_ok.mp hrun
  obtain ⟨graphT, hgraphT, hrun⟩ := Run.bind_eq_ok.mp hrun
  cases hrun
  unfold Filter.mergeRule
  dsimp only
  rw [h.graphT, hparents, Run.ok_bind, Run.meets_bind]
  have hrows := Run.meets_foldlM_of_ok (f := spliceInto (r + V))
    (g := Filter.insertChildren threshold V (r + V))
    (R := fun (s : Filter.State) graph => SameLists V k s graph t.graphT)
    (fun _ _ _ _ hs hsplice => insertChildren_lists hs hsplice) parents t.graph graph s h hgraph
  apply hrows.mono
  intro s₁ hs₁
  rw [hs₁.graph, hchildren, Run.ok_bind]
  exact Run.meets_foldlM_of_ok (f := spliceInto (r + V))
    (R := fun (s : Filter.State) graphT => SameLists V k s graph graphT)
    (fun _ _ _ _ hs hsplice => updateChild_lists hs hsplice) children t.graphT graphT s₁ hs₁ hgraphT

theorem filterEach_lists {t t' : State} {rules : List Int} (h : SameLists V k s t.graph t.graphT)
    (hrun : mergeEach V rules t = .ok t') :
    Run.Meets OverflowOnly (filterEach variant threshold V rules s)
      (SameLists V k · t'.graph t'.graphT) :=
  Run.meets_foldlM_of_ok (f := fun t r => mergeRule V r t)
    (R := fun (s : Filter.State) (t : State) => SameLists V k s t.graph t.graphT)
    (fun _ _ _ _ hs hrule => filterRule_lists hs hrule) rules t t' s h hrun

end RuleFilter

/-! ## The result -/

section Transposed

variable {vlist elist : List Int} {V k : Nat} {rules : List Int}

/-- Distinct rules are inlined in any order: the `mergeRule` of the depth filter does not fail, the
one of the rule filter does so at most when its information about the rules overflows, and rows and
columns stay transposes. -/
theorem mergeRule_transposed (h : RuleGraph vlist elist V k) (hnodup : rules.Nodup)
    (hrules : ∀ r ∈ rules, 0 ≤ r ∧ r < (k : Int)) :
    (∃ graph graphT, csrConvert vlist elist (V + k) = .ok graph ∧
      csrConvertIdx vlist elist (V + k) = .ok graphT ∧
      ∀ flag depthCount degree, ∃ s,
        mergeEach V rules ⟨graph, graphT, flag, depthCount, degree⟩ = .ok s ∧
        Transposed V k rules s.graph s.graphT) ∧
    ∀ variant threshold, Run.Meets OverflowOnly (do
      let s ← Filter.initState threshold vlist elist V k
      filterEach variant threshold V rules s) fun s => Transposed V k rules s.graph s.graphT := by
  have hnodes : ∀ r ∈ rules, 0 ≤ r ∧ Node V k (r + V) := by
    intro r hr
    obtain ⟨h0, hlt⟩ := hrules r hr
    exact ⟨h0, by omega, by omega⟩
  have hdepth : ∀ s : State, GraphInv vlist elist V k (Node V k) s.rows → ∃ s',
      mergeEach V rules s = .ok s' ∧ Transposed V k rules s'.graph s'.graphT := by
    intro s hs
    obtain ⟨s', hrun, hg⟩ :=
      (mergeEach_meets h.acyclic hs hnodup hnodes).exists_ok fun e he => he.elim
    exact ⟨s', hrun, Transposed.of_graphInv hg⟩
  constructor
  · obtain ⟨graph, hg, hgs, hrows⟩ := Filter.csrConvert_eq h.valid h.length
    obtain ⟨graphT, ht, hts, -, hcol⟩ := Filter.csrConvertIdx_eq h.valid h.length fun v hv x hx => by
      have := h.entries v hv x hx
      push_cast
      exact this
    refine ⟨graph, graphT, hg, ht, fun flag depthCount degree => hdepth _ ?_⟩
    exact GraphInv.init h hgs hts hrows hcol
  · intro variant threshold
    rw [Run.meets_bind]
    apply (Filter.initState_meets (P := fun _ _ => True) h fun _ _ => trivial).mono
    rintro s ⟨hg, hinfo, -⟩
    -- the depth filter with the same lists
    obtain ⟨t, hrun, ht⟩ := hdepth ⟨s.graph, s.graphT, Block.alloc 0 fun _ => false,
      Block.alloc 0 fun _ => 0, Block.alloc 0 fun _ => 0⟩
      ⟨hg.rowSize, hg.colSize, hg.range, hg.closed, hg.colClosed, hg.link, hg.refs, hg.expands,
        hg.nonempty⟩
    apply (filterEach_lists ⟨rfl, rfl, hg.rowSize, hg.colSize, hinfo.rifSize, hinfo.flagSize⟩
      hrun).mono
    intro s' hs'
    rw [hs'.graph, hs'.graphT]
    exact ht

/-- Two rules, the inner one first. -/
theorem mergeRule_transposed_upward :
    (∃ graph graphT, csrConvert [0, 2, 4, 6, 9] [2, 3, 3, 0, 3, 1, 0, 1, 1] (2 + 2) = .ok graph ∧
      csrConvertIdx [0, 2, 4, 6, 9] [2, 3, 3, 0, 3, 1, 0, 1, 1] (2 + 2) = .ok graphT ∧
      ∀ flag depthCount degree, ∃ s,
        mergeEach 2 [1, 0] ⟨graph, graphT, flag, depthCount, degree⟩ = .ok s ∧
        Transposed 2 2 [1, 0] s.graph s.graphT) ∧
    ∀ variant threshold, Run.Meets OverflowOnly (do
      let s ← Filter.initState threshold [0, 2, 4, 6, 9] [2, 3, 3, 0, 3, 1, 0, 1, 1] 2 2
      filterEach variant threshold 2 [1, 0] s) fun s => Transposed 2 2 [1, 0] s.graph s.graphT :=
  mergeRule_transposed
    ⟨⟨rfl, by decide, by decide⟩, rfl, by decide, acyclic_csrRhs (fun v => 4 - v) (by decide)⟩
    (by decide) (by decide)

end Transposed

end Laconic.DepthFilter
