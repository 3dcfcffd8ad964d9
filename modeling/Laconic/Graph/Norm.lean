import Mathlib.Algebra.BigOperators.Group.List.Basic
import Laconic.Graph.Coo

/-!
# GCN normalization

`norm.h` gives an edge between vertices the product of their weights, an edge between a vertex and
a rule the weight of the vertex, and an edge between rules the weight 1.  The weights along a path
through rules multiply to the weight of the edge that the path stands for.  The code multiplies
`float`s; here weights are elements of any commutative monoid.
-/

namespace Laconic.Graph

section Model

variable {M : Type} [CommMonoid M]

/-- One round of the inner loop of `gcn_norm_csr`. -/
def normEdge (elist : List Int) (inDegree : Block M) (vid eid : Int) (edgeWeight : Block M) :
    Run (Block M) := do
  let dst ← (Block.ofList elist).read eid
  let a ← inDegree.read vid
  let b ← inDegree.read dst
  edgeWeight.write eid (a * b)

def gcnNormCsr (fresh : Int → M) (vlist elist : List Int) (inDegree : Block M) (vertexCnt : Nat) :
    Run (Block M) :=
  Run.forLoop (fun vid => forEdges (normEdge elist inDegree vid) vlist vid) vertexCnt 0
    (Block.alloc elist.length fresh)

/-- The four conditional assignments of `gcn_norm_csr_compress` and `gcn_norm_coo_compress`. -/
def setWeight (inDegree : Block M) (vertexCnt eid src dst : Int) (edgeWeight : Block M) :
    Run (Block M) := do
  -- the four cases exclude each other, and the degree of a rule is never read
  let edgeWeight ← (if src < vertexCnt ∧ dst < vertexCnt then do
      let a ← inDegree.read src
      let b ← inDegree.read dst
      edgeWeight.write eid (a * b)
    else pure edgeWeight)
  let edgeWeight ← (if src < vertexCnt ∧ vertexCnt ≤ dst then do
      let a ← inDegree.read src
      edgeWeight.write eid a
    else pure edgeWeight)
  let edgeWeight ← (if vertexCnt ≤ src ∧ dst < vertexCnt then do
      let b ← inDegree.read dst
      edgeWeight.write eid b
    else pure edgeWeight)
  if vertexCnt ≤ src ∧ vertexCnt ≤ dst then edgeWeight.write eid 1 else pure edgeWeight

/-- One round of the inner loop of `gcn_norm_csr_compress`. -/
def normEdgeCompress (elist : List Int) (inDegree : Block M) (vertexCnt vid eid : Int)
    (edgeWeight : Block M) : Run (Block M) := do
  let dst ← (Block.ofList elist).read eid
  setWeight inDegree vertexCnt eid vid dst edgeWeight

def gcnNormCsrCompress (fresh : Int → M) (vlist elist : List Int) (inDegree : Block M)
    (vertexCnt ruleCnt : Nat) : Run (Block M) :=
  Run.forLoop (fun vid => forEdges (normEdgeCompress elist inDegree vertexCnt vid) vlist vid)
    (vertexCnt + ruleCnt) 0 (Block.alloc elist.length fresh)

def gcnNormCooCompress (fresh : Int → M) (src dst : Block Int) (inDegree : Block M)
    (vertexCnt : Nat) : Run (Block M) :=
  Run.forLoop (fun eid edgeWeight => do
    let srcNode ← src.read eid
    let dstNode ← dst.read eid
    setWeight inDegree vertexCnt eid srcNode dstNode edgeWeight) src.size.toNat 0
    (Block.alloc src.size fresh)

end Model

/-! ## The weight of an edge -/

section Weight

variable {M : Type} [CommMonoid M] {d : Block M} {vlist elist : List Int} {V k : Nat}

/-- What an end of an edge contributes to its weight. -/
def factor (d : Block M) (V : Nat) (x : Int) : M := if x < V then d.cells x else 1

theorem factor_vertex {x : Int} (hx : x < V) : factor d V x = d.cells x := if_pos hx

theorem factor_rule {x : Int} (hx : (V : Int) ≤ x) : factor d V x = 1 := if_neg (by omega)

/-- The four cases are one product. -/
theorem setWeight_eq (hd : d.size = V) {w : Block M} {e x y : Int} (he : w.InB e) (hx : 0 ≤ x)
    (hy : 0 ≤ y) : setWeight d V e x y w = .ok (w.upd e fun _ => factor d V x * factor d V y) := by
  have hin : ∀ {z : Int}, 0 ≤ z → z < V → d.InB z := fun h0 hz => ⟨h0, by rw [hd]; exact hz⟩
  unfold setWeight
  by_cases hxV : x < V <;> by_cases hyV : y < V
  · rw [if_pos ⟨hxV, hyV⟩, Block.read_eq (hin hx hxV), Run.ok_bind, Block.read_eq (hin hy hyV),
      Run.ok_bind, Block.write_eq he, Run.ok_bind, if_neg (by omega), Run.pure_bind,
      if_neg (by omega), Run.pure_bind, if_neg (by omega), factor_vertex hxV, factor_vertex hyV]
    rfl
  · rw [if_neg (by omega), Run.pure_bind, if_pos ⟨hxV, by omega⟩, Block.read_eq (hin hx hxV),
      Run.ok_bind, Block.write_eq he, Run.ok_bind, if_neg (by omega), Run.pure_bind,
      if_neg (by omega), factor_vertex hxV, factor_rule (by omega), mul_one]
    rfl
  · rw [if_neg (by omega), Run.pure_bind, if_neg (by omega), Run.pure_bind,
      if_pos ⟨by omega, hyV⟩, Block.read_eq (hin hy hyV), Run.ok_bind, Block.write_eq he,
      Run.ok_bind, if_neg (by omega), factor_rule (by omega), factor_vertex hyV, one_mul]
    rfl
  · rw [if_neg (by omega), Run.pure_bind, if_neg (by omega), Run.pure_bind, if_neg (by omega),
      Run.pure_bind, if_pos ⟨by omega, by omega⟩, Block.write_eq he, factor_rule (by omega),
      factor_rule (by omega), mul_one]

/-- The edges of the rows have their weights. -/
def Weighted (vlist elist : List Int) (weight : Int → Int → M) (w : Block M) : Prop :=
  ∀ v e, IsSource vlist v e → w.cells e = weight v (elist.getD e.toNat 0)

omit [CommMonoid M] in
/-- Nested loops that write one weight for each edge. -/
theorem forCsr_weighted (h : Csr.Valid vlist elist) {n : Nat} (hn : vlist.length = n + 1)
    {f : Int → Int → Block M → Run (Block M)} (weight : Int → Int → M)
    (hf : ∀ v e w, IsSource vlist v e → w.InB e →
      f v e w = .ok (w.upd e fun _ => weight v (elist.getD e.toNat 0))) (fresh : Int → M) :
    ∃ w, Run.forLoop (fun v => forEdges (f v) vlist v) n 0 (Block.alloc elist.length fresh) = .ok w ∧
      w.size = elist.length ∧ Weighted vlist elist weight w := by
  have hmeets := meets_forCsr (E := fun _ => False) h hn (f := f)
    (fun m (w : Block M) => w.size = elist.length ∧
      ∀ v e, e < m → IsSource vlist v e → w.cells e = weight v (elist.getD e.toNat 0))
    ?_ (s := Block.alloc elist.length fresh)
    ⟨rfl, fun v e he hsrc => by have := hsrc.range h; omega⟩
  · obtain ⟨w, hrun, hsize, hcells⟩ := hmeets.exists_ok fun e he => he.elim
    refine ⟨w, hrun, hsize, fun v e hsrc => hcells v e ?_ hsrc⟩
    have := h.getD_mono (show v + 1 ≤ n by have := hsrc.1; omega) (by omega)
    have := hsrc.2.2
    omega
  · rintro v e w hsrc ⟨hsize, hcells⟩
    have hr := hsrc.range h
    rw [hf v e w hsrc ⟨hr.1, by rw [hsize]; exact hr.2⟩, Run.meets_ok]
    refine ⟨hsize, fun u c hc hu => ?_⟩
    by_cases hce : c = e
    · subst hce
      rw [Block.cells_upd_self, hsrc.unique h hu]
    · rw [Block.cells_upd_ne _ _ hce]
      exact hcells u c (by omega) hu

theorem read_dst (h : Csr.Valid vlist elist) {v : Nat} {e : Int} (hsrc : IsSource vlist v e) :
    (Block.ofList elist).read e = .ok (elist.getD e.toNat 0) := by
  have hr := hsrc.range h
  exact Block.read_getD_toNat hr.1 hr.2 0

/-- `gcn_norm_csr` on a graph without rules. -/
theorem gcnNormCsr_eq (h : Csr.Valid vlist elist) (hlen : vlist.length = V + 1)
    (hent : ∀ v, v < V → ∀ x ∈ Csr.row vlist elist v, 0 ≤ x ∧ x < (V : Int)) (hd : d.size = V)
    (fresh : Int → M) : ∃ w, gcnNormCsr fresh vlist elist d V = .ok w ∧
      Weighted vlist elist (fun u x => d.cells u * d.cells x) w := by
  obtain ⟨w, hrun, -, hw⟩ := forCsr_weighted h hlen (f := normEdge elist d)
    (fun u x => d.cells u * d.cells x) (fun v e w hsrc he => by
      have hv := hsrc.1
      have hx := hent v (by omega) _ ((mem_row_iff h).mpr ⟨e, hsrc, rfl⟩)
      have hin : d.InB v := ⟨by omega, by rw [hd]; omega⟩
      have hin' : d.InB (elist.getD e.toNat 0) := ⟨hx.1, by rw [hd]; exact hx.2⟩
      rw [normEdge, read_dst h hsrc, Run.ok_bind, Block.read_eq hin, Run.ok_bind,
        Block.read_eq hin', Run.ok_bind, Block.write_eq he]) fresh
  exact ⟨w, hrun, hw⟩

theorem dst_nonneg (hg : RuleGraph vlist elist V k) {v : Nat} {e : Int}
    (hsrc : IsSource vlist v e) : 0 ≤ elist.getD e.toNat 0 := by
  have hv := hsrc.1
  have hlen := hg.length
  exact (hg.entries v (by omega) _ ((mem_row_iff hg.valid).mpr ⟨e, hsrc, rfl⟩)).1

theorem gcnNormCsrCompress_eq (hg : RuleGraph vlist elist V k) (hd : d.size = V)
    (fresh : Int → M) : ∃ w, gcnNormCsrCompress fresh vlist elist d V k = .ok w ∧
      Weighted vlist elist (fun u x => factor d V u * factor d V x) w := by
  obtain ⟨w, hrun, -, hw⟩ := forCsr_weighted hg.valid hg.length (f := normEdgeCompress elist d V)
    (fun u x => factor d V u * factor d V x) (fun v e w hsrc he => by
      rw [normEdgeCompress, read_dst hg.valid hsrc, Run.ok_bind,
        setWeight_eq hd he (by omega) (dst_nonneg hg hsrc)]) fresh
  exact ⟨w, hrun, hw⟩

/-- On the edge list the weights are the same. -/
theorem gcnNormCooCompress_eq (hg : RuleGraph vlist elist V k)
    (hlast : vlist.getD (V + k) 0 = elist.length) (hd : d.size = V) (fresh : Int → M)
    {src dst : Block Int} (hsrc : src.size = elist.length) (hdst : dst.size = elist.length)
    (hcells : ∀ v e, IsSource vlist v e → src.cells e = v ∧ dst.cells e = elist.getD e.toNat 0) :
    ∃ w, gcnNormCooCompress fresh src dst d V = .ok w ∧
      Weighted vlist elist (fun u x => factor d V u * factor d V x) w := by
  have hlen := hg.length
  have hmeets : Run.Meets (fun _ => False) (gcnNormCooCompress fresh src dst d V)
      (fun w => 0 ≤ (src.size.toNat : Int) ∧ w.size = elist.length ∧
        ∀ v e, e < (src.size.toNat : Int) → IsSource vlist v e →
          w.cells e = factor d V v * factor d V (elist.getD e.toNat 0)) := by
    refine Run.meets_forLoop (fun m (w : Block M) => 0 ≤ m ∧ w.size = elist.length ∧
      ∀ v e, e < m → IsSource vlist v e →
        w.cells e = factor d V v * factor d V (elist.getD e.toNat 0)) (src.size.toNat : Int) ?_ _ 0 _
      (by omega) ⟨Int.le_refl 0, hsrc, fun v e he hs => by have := hs.range hg.valid; omega⟩
    rintro e w he ⟨h0, hsize, hw⟩
    obtain ⟨v, -, hs⟩ := exists_source hg.valid (by omega : V + k < vlist.length) h0 (by omega)
    have hr := hs.range hg.valid
    have hin : src.InB e := ⟨h0, by omega⟩
    have hin' : dst.InB e := ⟨h0, by omega⟩
    obtain ⟨hv, hx⟩ := hcells v e hs
    rw [Block.read_eq hin, Run.ok_bind, Block.read_eq hin', Run.ok_bind, hv, hx,
      setWeight_eq hd ⟨h0, by rw [hsize]; exact hr.2⟩ (by omega) (dst_nonneg hg hs), Run.meets_ok]
    refine ⟨by omega, hsize, fun u c hc hu => ?_⟩
    by_cases hce : c = e
    · subst hce
      rw [Block.cells_upd_self, hs.unique hg.valid hu]
    · rw [Block.cells_upd_ne _ _ hce]
      exact hw u c (by omega) hu
  obtain ⟨w, hrun, -, -, hw⟩ := hmeets.exists_ok fun e he => he.elim
  refine ⟨w, hrun, fun v e hs => hw v e ?_ hs⟩
  have := hs.range hg.valid
  omega

end Weight

/-! ## Paths -/

/-- The edges `es`, the first one in row `v`, lead through rules to the vertex `x`. -/
inductive RulePath (vlist elist : List Int) (V : Nat) : Nat → List Int → Int → Prop
  | edge {v : Nat} {e x : Int} : IsSource vlist v e → elist.getD e.toNat 0 = x → x < V →
      RulePath vlist elist V v [e] x
  | rule {v : Nat} {e r x : Int} {es : List Int} : IsSource vlist v e →
      elist.getD e.toNat 0 = r → (V : Int) ≤ r → RulePath vlist elist V r.toNat es x →
      RulePath vlist elist V v (e :: es) x

section Path

variable {M : Type} [CommMonoid M] {d w : Block M} {vlist elist : List Int} {V k : Nat}

/-- The factors of the rules on the way are 1. -/
theorem RulePath.prod_eq {v : Nat} {es : List Int} {x : Int} (h : RulePath vlist elist V v es x)
    (hw : Weighted vlist elist (fun u x => factor d V u * factor d V x) w) :
    (es.map w.cells).prod = factor d V v * d.cells x := by
  induction h with
  | edge hsrc hx hV =>
    rw [List.map_singleton, List.prod_singleton, hw _ _ hsrc, hx]
    dsimp only
    rw [factor_vertex hV]
  | @rule v e r x es hsrc hr hV _ ih =>
    have hone : factor d V (r.toNat : Int) = 1 := factor_rule (by omega)
    rw [List.map_cons, List.prod_cons, ih, hw _ _ hsrc, hr]
    dsimp only
    rw [factor_rule hV, hone, mul_one, one_mul]

/-- The weights `w` of the compressed graph factor those of the original graph. -/
structure NormFactors (vlist elist : List Int) (d : Block M) (V : Nat) (w : Block M) : Prop where
  path : ∀ u es x, u < V → RulePath vlist elist V u es x →
    (es.map w.cells).prod = d.cells u * d.cells x
  /-- The product is the weight of an edge `u -> x` of a graph without rules. -/
  original : ∀ ovlist oelist : List Int, Csr.Valid ovlist oelist → ovlist.length = V + 1 →
    (∀ v, v < V → ∀ y ∈ Csr.row ovlist oelist v, 0 ≤ y ∧ y < (V : Int)) → ∀ fresh : Int → M,
    ∃ ow, gcnNormCsr fresh ovlist oelist d V = .ok ow ∧
      ∀ u es e, IsSource ovlist u e → RulePath vlist elist V u es (oelist.getD e.toNat 0) →
        (es.map w.cells).prod = ow.cells e
  /-- The edge list of the same graph has the same weights. -/
  coo : ∀ (freshInt : Int → Int) (fresh : Int → M), ∃ src dst cw,
    csr2coo freshInt vlist elist = .ok (src, dst) ∧
    gcnNormCooCompress fresh src dst d V = .ok cw ∧
    ∀ e : Int, 0 ≤ e → e < elist.length → cw.cells e = w.cells e

theorem gcnNorm_factors (hg : RuleGraph vlist elist V k)
    (hlast : vlist.getD (V + k) 0 = elist.length) (hd : d.size = V) (fresh : Int → M) :
    ∃ w, gcnNormCsrCompress fresh vlist elist d V k = .ok w ∧ NormFactors vlist elist d V w := by
  have hlen := hg.length
  obtain ⟨w, hrun, hw⟩ := gcnNormCsrCompress_eq hg hd fresh
  have hpath : ∀ u es x, u < V → RulePath vlist elist V u es x →
      (es.map w.cells).prod = d.cells u * d.cells x := by
    intro u es x hu hes
    rw [hes.prod_eq hw, factor_vertex (by omega)]
  refine ⟨w, hrun, hpath, fun ovlist oelist hvalid holen hent fresh' => ?_,
    fun freshInt fresh' => ?_⟩
  · obtain ⟨ow, hrun', how⟩ := gcnNormCsr_eq hvalid holen hent hd fresh'
    refine ⟨ow, hrun', fun u es e hsrc hes => ?_⟩
    have hu := hsrc.1
    rw [hpath u es _ (by omega) hes, how u e hsrc]
  · obtain ⟨src, dst, hcoo, hsrc, hdst, hcells⟩ := csr2coo_eq hg.valid freshInt
    obtain ⟨cw, hrun', hcw⟩ := gcnNormCooCompress_eq hg hlast hd fresh' hsrc hdst hcells
    refine ⟨src, dst, cw, hcoo, hrun', fun e h0 he => ?_⟩
    obtain ⟨v, -, hs⟩ := exists_source hg.valid (by omega : V + k < vlist.length) h0 (by omega)
    rw [hcw v e hs, hw v e hs]

/-- Two vertices of weights 2 and 3 and the rule `01`. -/
theorem gcnNorm_factors_two : ∃ w : Block Nat,
    gcnNormCsrCompress (fun _ => 0) [0, 2, 4, 6] [2, 0, 2, 2, 0, 1] (Block.ofList [2, 3]) 2 1 =
      .ok w ∧ NormFactors [0, 2, 4, 6] [2, 0, 2, 2, 0, 1] (Block.ofList [2, 3]) 2 w :=
  gcnNorm_factors
    ⟨⟨rfl, by decide, by decide⟩, rfl, by decide, acyclic_csrRhs (fun v => 3 - v) (by decide)⟩
    rfl rfl fun _ => 0

end Path

end Laconic.Graph
