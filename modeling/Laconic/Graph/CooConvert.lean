import Mathlib.Data.List.Nodup
import Mathlib.Data.List.Perm.Basic
import Laconic.Grammar
import Laconic.Lib.Block

/-!
# Loading an edge list in blocks

`coo_convert` of `util.h` cuts an edge list into one block for each thread.  A thread sorts the
edges of its block by their sources and appends them to the graph while it holds a mutex, so a run
is given by the order in which the blocks come to that.  Edges are counted in 64 bits, but the
bounds of the blocks are computed in 32 bits.
-/

namespace Laconic.Check

/-- One more than the largest `uint`. -/
def uintBound : Nat := 2 ^ 32

/-- `uint block_size = (edge_cnt + num_thread - 1) / num_thread`, where the sum is an `int64_t`. -/
def blockSize (edgeCnt numThread : Nat) : Run Nat :=
  if edgeCnt + numThread - 1 < 2 ^ 63 then
    pure ((edgeCnt + numThread - 1) / numThread % uintBound)
  else throw .overflow

/-- `t * block_size`, a `uint`. -/
def blockStart (size t : Nat) : Nat := t * size % uintBound

/-- `local_graph[src[e]].push_back(dst[e])`. -/
def pushEdge (src dst : List Int) (e : Int) (graph : Block (List Int)) :
    Run (Block (List Int)) := do
  let v ← (Block.ofList src).read e
  let x ← (Block.ofList dst).read e
  graph.modify v (· ++ [x])

/-- The edges of block `t`. -/
def localGraph (src dst : List Int) (vertexCnt size t : Nat) : Run (Block (List Int)) :=
  -- `e < (t + 1) * block_size && e < edge_cnt`, with the product taken modulo `2 ^ 32`
  Run.forLoop (pushEdge src dst) (min (blockStart size (t + 1)) src.length - blockStart size t)
    (blockStart size t) (Block.alloc vertexCnt fun _ => [])

/-- `graph[i].insert(graph[i].end(), local_graph[i].begin(), local_graph[i].end())`. -/
def insertRow (part : Block (List Int)) (i : Int) (graph : Block (List Int)) :
    Run (Block (List Int)) := do
  let l ← part.read i
  graph.modify i (· ++ l)

/-- What a thread does with block `t`. -/
def loadBlock (src dst : List Int) (vertexCnt size : Nat) (graph : Block (List Int)) (t : Nat) :
    Run (Block (List Int)) := do
  let part ← localGraph src dst vertexCnt size t
  Run.forLoop (insertRow part) vertexCnt 0 graph

/-- The blocks obtain the mutex in the given order. -/
def cooConvert (order : List Nat) (graph : Block (List Int)) (src dst : List Int)
    (vertexCnt numThread : Nat) : Run (Block (List Int)) := do
  let size ← blockSize src.length numThread
  order.foldlM (loadBlock src dst vertexCnt size) graph

/-! ## The edges of the blocks -/

/-- The edges of block `t` of `n`. -/
def blockEdges (n size t : Nat) : List Nat :=
  List.range' (blockStart size t) (min (blockStart size (t + 1)) n - blockStart size t)

/-- The destinations of those of the given edges that start at `v`. -/
def edgesFrom (src dst : List Int) (edges : List Nat) (v : Int) : List Int :=
  (edges.filter fun e => decide (src.getD e 0 = v)).map fun e => dst.getD e 0

/-- The destinations of all edges that start at `v`. -/
def destinations (src dst : List Int) (v : Int) : List Int :=
  ((src.zip dst).filter fun e => decide (e.1 = v)).map Prod.snd

section Edges

variable {src dst : List Int} {V n size t : Nat}

theorem mem_blockEdges {e : Nat} : e ∈ blockEdges n size t ↔
    blockStart size t ≤ e ∧ e < blockStart size (t + 1) ∧ e < n := by
  rw [blockEdges, List.mem_range'_1]
  omega

theorem edgesFrom_append (edges edges' : List Nat) (v : Int) :
    edgesFrom src dst (edges ++ edges') v =
      edgesFrom src dst edges v ++ edgesFrom src dst edges' v := by
  rw [edgesFrom, List.filter_append, List.map_append, edgesFrom, edgesFrom]

theorem edgesFrom_range (hlen : dst.length = src.length) (v : Int) :
    edgesFrom src dst (List.range src.length) v = destinations src dst v := by
  have hzip : src.zip dst =
      (List.range src.length).map fun e => (src.getD e 0, dst.getD e 0) := by
    apply List.ext_getElem
    · rw [List.length_zip, List.length_map, List.length_range]
      omega
    · intro i hi hi'
      rw [List.length_zip] at hi
      have hs : i < src.length := by omega
      have hd : i < dst.length := by omega
      simp [hs, hd]
  rw [destinations, hzip, List.filter_map, List.map_map]
  rfl

/-- The sources of the edges are vertices. -/
def SourcesIn (src : List Int) (V : Nat) : Prop := ∀ v ∈ src, 0 ≤ v ∧ v < (V : Int)

instance (src : List Int) (V : Nat) : Decidable (SourcesIn src V) := by
  unfold SourcesIn
  infer_instance

theorem pushEdge_eq (hsrc : SourcesIn src V) (hlen : dst.length = src.length) {e : Nat}
    (he : e < src.length) {graph : Block (List Int)} (hsize : graph.size = V) :
    pushEdge src dst e graph = .ok (graph.upd (src.getD e 0) (· ++ [dst.getD e 0])) := by
  have hv := hsrc src[e] (List.getElem_mem he)
  have hget : src.getD e 0 = src[e] := by
    rw [List.getD_eq_getElem?_getD, List.getElem?_eq_getElem he, Option.getD_some]
  unfold pushEdge
  rw [Block.read_getD he 0, Run.ok_bind, Block.read_getD (by omega) 0, Run.ok_bind,
    Block.modify_eq ⟨by rw [hget]; exact hv.1, by rw [hget, hsize]; exact hv.2⟩]

theorem localGraph_meets (hsrc : SourcesIn src V) (hlen : dst.length = src.length) (size t : Nat) :
    Run.Meets (fun _ => False) (localGraph src dst V size t) fun part => part.size = V ∧
      ∀ v, part.cells v = edgesFrom src dst (blockEdges src.length size t) v := by
  unfold localGraph
  -- after `k` rounds the first `k` edges of the block are there
  refine (Run.meets_forLoop (fun e (part : Block (List Int)) =>
    (blockStart size t : Int) ≤ e ∧ part.size = V ∧
    ∀ v, part.cells v = edgesFrom src dst
      (List.range' (blockStart size t) (e.toNat - blockStart size t)) v)
    (max (blockStart size t) (min (blockStart size (t + 1)) src.length) : Nat) ?_ _ _ _ (by omega)
    ⟨Int.le_refl _, rfl, fun v => ?_⟩).mono ?_
  · rintro e part he ⟨hlo, hsize, hcells⟩
    obtain ⟨e, rfl⟩ := Int.eq_ofNat_of_zero_le (by omega : 0 ≤ e)
    rw [pushEdge_eq hsrc hlen (by omega) hsize, Run.meets_ok]
    refine ⟨by omega, hsize, fun v => ?_⟩
    rw [Int.toNat_natCast] at hcells
    rw [show ((e : Int) + 1).toNat - blockStart size t = (e - blockStart size t) + 1 by omega,
      List.range'_concat, edgesFrom_append, ← hcells v,
      show blockStart size t + 1 * (e - blockStart size t) = e by omega]
    by_cases hv : v = src.getD e 0
    · subst hv
      rw [Block.cells_upd_self]
      simp [edgesFrom]
    · rw [Block.cells_upd_ne _ _ hv, edgesFrom, List.filter_singleton,
        decide_eq_false (Ne.symm hv)]
      exact (List.append_nil _).symm
  · rw [Int.toNat_natCast, Nat.sub_self]
    rfl
  · rintro part ⟨-, hsize, hcells⟩
    refine ⟨hsize, fun v => ?_⟩
    rw [hcells v, Int.toNat_natCast, blockEdges]
    congr 2
    omega

theorem insertRows_meets {part graph : Block (List Int)} (hpart : part.size = V)
    (hgraph : graph.size = V) :
    Run.Meets (fun _ => False) (Run.forLoop (insertRow part) V 0 graph) fun graph' =>
      graph'.size = V ∧ ∀ v, 0 ≤ v → v < (V : Int) →
        graph'.cells v = graph.cells v ++ part.cells v := by
  refine (Run.meets_forLoop (fun i (g : Block (List Int)) => 0 ≤ i ∧ g.size = V ∧
    (∀ v, 0 ≤ v → v < i → g.cells v = graph.cells v ++ part.cells v) ∧
    ∀ v, i ≤ v → g.cells v = graph.cells v) (V : Int) ?_ V 0 graph (by omega)
    ⟨Int.le_refl 0, hgraph, fun v h0 hv => by omega, fun v _ => rfl⟩).mono ?_
  · rintro i g hi ⟨h0, hsize, hdone, hrest⟩
    unfold insertRow
    rw [Block.read_eq ⟨h0, by rw [hpart]; exact hi⟩, Run.ok_bind,
      Block.modify_eq ⟨h0, by rw [hsize]; exact hi⟩, Run.meets_ok]
    refine ⟨by omega, hsize, fun v hv0 hv => ?_, fun v hv => ?_⟩
    · by_cases hvi : v = i
      · subst hvi
        rw [Block.cells_upd_self, hrest v (Int.le_refl v)]
      · rw [Block.cells_upd_ne _ _ hvi]
        exact hdone v hv0 (by omega)
    · rw [Block.cells_upd_ne _ _ (by omega)]
      exact hrest v (by omega)
  · rintro g ⟨-, hsize, hdone, -⟩
    exact ⟨hsize, hdone⟩

/-- The blocks append their edges in the order in which they obtain the mutex. -/
theorem loadBlocks_meets (hsrc : SourcesIn src V) (hlen : dst.length = src.length) (size : Nat)
    (order : List Nat) {graph : Block (List Int)} (hgraph : graph.size = V) :
    Run.Meets (fun _ => False) (order.foldlM (loadBlock src dst V size) graph) fun graph' =>
      graph'.size = V ∧ ∀ v, 0 ≤ v → v < (V : Int) → graph'.cells v =
        graph.cells v ++ edgesFrom src dst (order.flatMap (blockEdges src.length size)) v := by
  induction order generalizing graph with
  | nil =>
    refine ⟨hgraph, fun v _ _ => ?_⟩
    exact (List.append_nil _).symm
  | cons t order ih =>
    rw [List.foldlM_cons, Run.meets_bind]
    unfold loadBlock
    rw [Run.meets_bind]
    apply (localGraph_meets hsrc hlen size t).mono
    rintro part ⟨hpart, hpcells⟩
    apply (insertRows_meets hpart hgraph).mono
    rintro graph₁ ⟨hsize₁, hcells₁⟩
    apply (ih hsize₁).mono
    rintro graph₂ ⟨hsize₂, hcells₂⟩
    refine ⟨hsize₂, fun v h0 hv => ?_⟩
    rw [hcells₂ v h0 hv, hcells₁ v h0 hv, hpcells v, List.flatMap_cons, edgesFrom_append,
      List.append_assoc]

end Edges

/-! ## The bounds of the blocks -/

/-- The edges in a block that is not the last one. -/
def edgesPerBlock (n numThread : Nat) : Nat := (n + numThread - 1) / numThread

/-- The last block starts in the range of a `uint`; it also ends there, or it is empty. -/
def BlocksFit (n numThread : Nat) : Prop :=
  (numThread - 1) * edgesPerBlock n numThread < uintBound ∧
    (n ≤ (numThread - 1) * edgesPerBlock n numThread ∨
      numThread * edgesPerBlock n numThread < uintBound)

instance (n numThread : Nat) : Decidable (BlocksFit n numThread) := by
  unfold BlocksFit
  infer_instance

section Bounds

variable {n T b : Nat}

theorem le_mul_edgesPerBlock (hT : 0 < T) : n ≤ T * edgesPerBlock n T := by
  have hdiv := Nat.div_add_mod (n + T - 1) T
  have hmod := Nat.mod_lt (n + T - 1) hT
  unfold edgesPerBlock
  omega

theorem mul_edgesPerBlock_lt (hT : 0 < T) : T * edgesPerBlock n T < n + T := by
  have hle := Nat.mul_div_le (n + T - 1) T
  unfold edgesPerBlock
  omega

theorem edgesPerBlock_le (hT : 0 < T) : edgesPerBlock n T ≤ n := by
  unfold edgesPerBlock
  rcases Nat.eq_zero_or_pos n with rfl | hn
  · rw [Nat.div_eq_of_lt (by omega)]
  · apply Nat.div_le_of_le_mul
    have := Nat.mul_le_mul (Nat.succ_le_of_lt hT) (Nat.succ_le_of_lt hn)
    obtain ⟨T, rfl⟩ := Nat.exists_eq_add_one.mpr hT
    obtain ⟨n, rfl⟩ := Nat.exists_eq_add_one.mpr hn
    rw [Nat.add_mul, Nat.mul_add]
    omega

theorem blockStart_of_lt {t : Nat} (h : t * b < uintBound) : blockStart b t = t * b :=
  Nat.mod_eq_of_lt h

/-- After a wrap the bounds start again from the bottom. -/
theorem blockStart_of_le {t : Nat} (h : uintBound ≤ t * b) (h' : t * b < 2 * uintBound) :
    blockStart b t = t * b - uintBound := by
  rw [blockStart, Nat.mod_eq_sub_mod h, Nat.mod_eq_of_lt (by omega)]

theorem range_append_range' (a k : Nat) : List.range a ++ List.range' a k = List.range (a + k) := by
  rw [List.range_eq_range', List.range_eq_range', ← List.range'_append_1, Nat.zero_add]

/-- Blocks in the range of a `uint` follow each other. -/
theorem flatMap_blockEdges {t : Nat} (h : t * b < uintBound) :
    (List.range t).flatMap (blockEdges n b) = List.range (min (t * b) n) := by
  induction t with
  | zero => rw [Nat.zero_mul, Nat.zero_min]; rfl
  | succ t ih =>
    have hmul : (t + 1) * b = t * b + b := Nat.succ_mul t b
    rw [List.range_succ, List.flatMap_append, ih (by omega), List.flatMap_singleton, blockEdges,
      blockStart_of_lt h, blockStart_of_lt (by omega)]
    rcases Nat.le_total (t * b) n with hle | hle
    · rw [Nat.min_eq_left hle, range_append_range']
      congr 1
      omega
    · rw [show min ((t + 1) * b) n - t * b = 0 by omega, List.range'_zero, List.append_nil]
      congr 1
      omega

/-- When the bounds are `uint`s, the blocks are the edge list. -/
theorem blocks_eq_range (hT : 0 < T) (h : BlocksFit n T) :
    edgesPerBlock n T < uintBound ∧
      (List.range T).flatMap (blockEdges n (edgesPerBlock n T)) = List.range n := by
  obtain ⟨hstart, hend⟩ := h
  have hn := le_mul_edgesPerBlock (n := n) hT
  have hb := edgesPerBlock_le (n := n) hT
  obtain ⟨t, rfl⟩ := Nat.exists_eq_add_one.mpr hT
  rw [Nat.add_sub_cancel] at hstart hend
  have hmul : (t + 1) * edgesPerBlock n (t + 1) =
    t * edgesPerBlock n (t + 1) + edgesPerBlock n (t + 1) := Nat.succ_mul t _
  refine ⟨by omega, ?_⟩
  by_cases hlast : (t + 1) * edgesPerBlock n (t + 1) < uintBound
  · rw [flatMap_blockEdges hlast, Nat.min_eq_right hn]
  · -- the last block is behind the end of the list
    have hle := hend.resolve_right hlast
    rw [List.range_succ, List.flatMap_append, flatMap_blockEdges hstart, Nat.min_eq_right hle,
      List.flatMap_singleton, blockEdges, blockStart_of_lt hstart, Nat.sub_eq_zero_of_le (by omega),
      List.range'_zero, List.append_nil]

/-- An edge that no bound of a block reaches. -/
theorem lt_uintBound_of_perm {size : Nat}
    (h : ((List.range T).flatMap (blockEdges n size)).Perm (List.range n)) : n < uintBound := by
  by_contra hge
  have hpos : 0 < uintBound := by decide
  have hmem : uintBound - 1 ∈ (List.range T).flatMap (blockEdges n size) :=
    h.mem_iff.mpr (List.mem_range.mpr (by omega))
  obtain ⟨t, -, ht⟩ := List.mem_flatMap.mp hmem
  have hlt : blockStart size (t + 1) < uintBound := Nat.mod_lt _ hpos
  have := (mem_blockEdges.mp ht).2.1
  omega

/-- When a block before the last one leaves the range of a `uint`, the next one starts again inside
the first block. -/
theorem start_lt_of_perm (hT : T < uintBound) (hn : n < uintBound) (h0 : 0 < T)
    (h : ((List.range T).flatMap (blockEdges n (edgesPerBlock n T))).Perm (List.range n)) :
    (T - 1) * edgesPerBlock n T < uintBound := by
  by_contra hge
  have hb := edgesPerBlock_le (n := n) h0
  have htop := mul_edgesPerBlock_lt (n := n) h0
  generalize edgesPerBlock n T = b at *
  have hbpos : 0 < b := by
    rcases Nat.eq_zero_or_pos b with rfl | hpos
    · rw [Nat.mul_zero] at hge
      exact absurd (by decide : 0 < uintBound) hge
    · exact hpos
  -- the last block that starts in range
  obtain ⟨t, hlo, hhi⟩ : ∃ t, t * b < uintBound ∧ uintBound ≤ (t + 1) * b := by
    refine ⟨(uintBound - 1) / b, ?_, ?_⟩
    · have := Nat.div_mul_le_self (uintBound - 1) b
      have : 0 < uintBound := by decide
      omega
    · have := Nat.lt_div_mul_add (a := uintBound - 1) hbpos
      rw [Nat.succ_mul]
      omega
  have hlt : t + 1 < T := by
    by_contra hle
    have := Nat.mul_le_mul_right b (show T - 1 ≤ t by omega)
    omega
  have hmul₁ : (t + 1) * b = t * b + b := Nat.succ_mul t b
  have hmul₂ : (t + 1 + 1) * b = (t + 1) * b + b := Nat.succ_mul (t + 1) b
  have hle₂ := Nat.mul_le_mul_right b (show t + 1 + 1 ≤ T by omega)
  have hstart : blockStart b (t + 1) = (t + 1) * b - uintBound := blockStart_of_le hhi (by omega)
  have hstop : blockStart b (t + 1 + 1) = (t + 1 + 1) * b - uintBound :=
    blockStart_of_le (by omega) (by omega)
  have hfirst : (t + 1) * b - uintBound ∈ blockEdges n b 0 := by
    rw [mem_blockEdges, blockStart_of_lt (by omega), blockStart_of_lt (by omega)]
    omega
  have hagain : (t + 1) * b - uintBound ∈ blockEdges n b (t + 1) := by
    rw [mem_blockEdges, hstart, hstop]
    omega
  have hpair := (List.nodup_flatMap.mp (h.nodup_iff.mpr List.nodup_range)).2
  have hdisj := List.pairwise_iff_getElem.mp hpair 0 (t + 1) (by rw [List.length_range]; omega)
    (by rw [List.length_range]; exact hlt) (Nat.succ_pos t)
  rw [List.getElem_range, List.getElem_range] at hdisj
  exact hdisj hfirst hagain

theorem blocksFit_of_perm (hT : T < uintBound) (h0 : 0 < T)
    (h : ((List.range T).flatMap
      (blockEdges n (edgesPerBlock n T % uintBound))).Perm (List.range n)) : BlocksFit n T := by
  have hn := lt_uintBound_of_perm h
  have hb := edgesPerBlock_le (n := n) h0
  rw [Nat.mod_eq_of_lt (by omega)] at h
  have hstart := start_lt_of_perm hT hn h0 h
  refine ⟨hstart, ?_⟩
  by_contra hend
  rw [not_or] at hend
  have htop := mul_edgesPerBlock_lt (n := n) h0
  generalize edgesPerBlock n T = b at *
  obtain ⟨t, rfl⟩ := Nat.exists_eq_add_one.mpr h0
  rw [Nat.add_sub_cancel] at hstart hend
  have hmul : (t + 1) * b = t * b + b := Nat.succ_mul t b
  -- the first edge of the last block
  have hmem : t * b ∈ (List.range (t + 1)).flatMap (blockEdges n b) :=
    h.mem_iff.mpr (List.mem_range.mpr (by omega))
  obtain ⟨i, hi, hblock⟩ := List.mem_flatMap.mp hmem
  obtain ⟨-, hlt, -⟩ := mem_blockEdges.mp hblock
  rcases Nat.lt_or_eq_of_le (Nat.le_of_lt_succ (List.mem_range.mp hi)) with hit | rfl
  · have hle := Nat.mul_le_mul_right b (show i + 1 ≤ t by omega)
    rw [blockStart_of_lt (by omega)] at hlt
    omega
  · rw [blockStart_of_le (by omega) (by omega)] at hlt
    omega

end Bounds

/-! ## Loading -/

/-- `coo_convert` loads every edge once. -/
def Loads (order : List Nat) (numThread : Nat) (src dst : List Int) (V : Nat) : Prop :=
  ∃ graph, cooConvert order (Block.alloc V fun _ => []) src dst V numThread = .ok graph ∧
    graph.size = V ∧ ∀ v, 0 ≤ v → v < (V : Int) → (graph.cells v).Perm (destinations src dst v)

section Loads

variable {src dst : List Int} {V T : Nat} {order : List Nat}

theorem edgesFrom_perm {edges edges' : List Nat} (h : edges.Perm edges') (v : Int) :
    (edgesFrom src dst edges v).Perm (edgesFrom src dst edges' v) :=
  (h.filter _).map _

/-- What the graph holds when the size of the blocks can be computed. -/
theorem cooConvert_eq (hsrc : SourcesIn src V) (hlen : dst.length = src.length) {size : Nat}
    (hsize : blockSize src.length T = .ok size) (order : List Nat) :
    ∃ graph, cooConvert order (Block.alloc V fun _ => []) src dst V T = .ok graph ∧
      graph.size = V ∧ ∀ v, 0 ≤ v → v < (V : Int) → graph.cells v =
        edgesFrom src dst (order.flatMap (blockEdges src.length size)) v := by
  have hload := loadBlocks_meets hsrc hlen size order
    (show (Block.alloc V fun _ => ([] : List Int)).size = V from rfl)
  obtain ⟨graph, hrun, hgsize, hcells⟩ := hload.exists_ok fun e he => he.elim
  refine ⟨graph, ?_, hgsize, hcells⟩
  unfold cooConvert
  rw [hsize, Run.ok_bind, hrun]

/-- When all blocks are in range, every order loads all edges. -/
theorem BlocksFit.loads (h : BlocksFit src.length T) (hT : 0 < T) (hT' : T < uintBound)
    (hsrc : SourcesIn src V) (hlen : dst.length = src.length) (horder : order.Perm (List.range T)) :
    Loads order T src dst V := by
  obtain ⟨hb, hblocks⟩ := blocks_eq_range hT h
  have hbound : src.length < uintBound := by
    obtain ⟨hstart, hend⟩ := h
    have := le_mul_edgesPerBlock (n := src.length) hT
    omega
  have hsize : blockSize src.length T = .ok (edgesPerBlock src.length T) := by
    unfold uintBound at hbound hT'
    unfold blockSize
    rw [if_pos (by omega)]
    exact congrArg Except.ok (Nat.mod_eq_of_lt hb)
  obtain ⟨graph, hrun, hgsize, hcells⟩ := cooConvert_eq hsrc hlen hsize order
  refine ⟨graph, hrun, hgsize, fun v h0 hv => ?_⟩
  rw [hcells v h0 hv, ← edgesFrom_range hlen]
  apply edgesFrom_perm
  rw [← hblocks]
  exact horder.flatMap_right _

/-- A list of `n` destinations that are all different. -/
def positions (n : Nat) : List Int := (List.range n).map fun i : Nat => (i : Int)

theorem length_positions (n : Nat) : (positions n).length = n := by
  rw [positions, List.length_map, List.length_range]

/-- With the positions as destinations, the rows show which edges were loaded. -/
theorem edges_perm_of_loads (hsrc : SourcesIn src V) {edges : List Nat}
    (hedges : ∀ e ∈ edges, e < src.length)
    (h : ∀ v, 0 ≤ v → v < (V : Int) → (edgesFrom src (positions src.length) edges v).Perm
      (edgesFrom src (positions src.length) (List.range src.length) v)) :
    edges.Perm (List.range src.length) := by
  have hmap : ∀ l : List Nat, (∀ e ∈ l, e < src.length) → ∀ v,
      edgesFrom src (positions src.length) l v =
        (l.filter fun e => decide (src.getD e 0 = v)).map fun e : Nat => (e : Int) := by
    intro l hl v
    apply List.map_congr_left
    intro e he
    have hlt := hl e (List.mem_filter.mp he).1
    rw [positions, List.getD_eq_getElem?_getD, List.getElem?_map, List.getElem?_range hlt]
    rfl
  apply List.perm_iff_count.mpr
  intro e
  by_cases he : e < src.length
  · have hv := hsrc src[e] (List.getElem_mem he)
    have hget : src.getD e 0 = src[e] := by
      rw [List.getD_eq_getElem?_getD, List.getElem?_eq_getElem he, Option.getD_some]
    have hperm := h (src.getD e 0) (by rw [hget]; exact hv.1) (by rw [hget]; exact hv.2)
    rw [hmap edges hedges, hmap _ fun i hi => List.mem_range.mp hi,
      List.map_perm_map_iff fun a b hab => Int.ofNat_inj.mp hab] at hperm
    have hfilter : ∀ l : List Nat,
        (l.filter fun i => decide (src.getD i 0 = src.getD e 0)).count e = l.count e := fun l =>
      List.count_filter (p := fun i => decide (src.getD i 0 = src.getD e 0)) (decide_eq_true rfl)
    have hcount := hperm.count_eq e
    rwa [hfilter, hfilter] at hcount
  · rw [List.count_eq_zero_of_not_mem fun hmem => he (hedges e hmem),
      List.count_eq_zero_of_not_mem fun hmem => he (List.mem_range.mp hmem)]

/-- All destinations are loaded exactly when the bounds of the blocks are `uint`s. -/
theorem loads_iff (hT : 0 < T) (hT' : T < uintBound) (hsrc : SourcesIn src V)
    (horder : order.Perm (List.range T)) :
    (∀ dst : List Int, dst.length = src.length → Loads order T src dst V) ↔
      BlocksFit src.length T := by
  constructor
  · intro h
    have hlen := length_positions src.length
    obtain ⟨graph, hrun, -, hcells⟩ := h (positions src.length) hlen
    have hrun' := hrun
    unfold cooConvert at hrun'
    obtain ⟨size, hsize, -⟩ := Run.bind_eq_ok.mp hrun'
    obtain ⟨graph', hload, -, hcells'⟩ := cooConvert_eq hsrc hlen hsize order
    obtain rfl := Except.ok.inj (hrun.symm.trans hload)
    have hperm : (order.flatMap (blockEdges src.length size)).Perm (List.range src.length) := by
      apply edges_perm_of_loads hsrc
      · intro e he
        obtain ⟨t, -, ht⟩ := List.mem_flatMap.mp he
        exact (mem_blockEdges.mp ht).2.2
      · intro v h0 hv
        have hv' := hcells v h0 hv
        rwa [hcells' v h0 hv, ← edgesFrom_range hlen] at hv'
    have heq : size = edgesPerBlock src.length T % uintBound := by
      unfold blockSize at hsize
      split at hsize
      · exact (Except.ok.inj hsize).symm
      · cases hsize
    rw [heq] at hperm
    exact blocksFit_of_perm hT' hT ((horder.flatMap_right _).symm.trans hperm)
  · intro h dst hlen
    exact h.loads hT hT' hsrc hlen horder

end Loads

end Laconic.Check
