import Laconic.Filter.Model
import Laconic.Graph.Order

/-!
# The depth filter

`depth_filter_csr` inlines whole levels of rules, from the deepest one up to `max_depth`: a level is
inlined when its rules have fewer than `min_edge` entries together.  The level of a rule is its order
in the graph that is put in; the entries of the levels are counted anew after each level that is
inlined.
-/

namespace Laconic.DepthFilter

open Laconic.Filter (csrConvert csrConvertIdx replaceFirst genNewIdForRule genNewGraphCSR)
open Laconic.Graph (genVertexOrderCsr)
open RePair (Compressed toInt)

/-- A size or a sum of sizes in an `int`.  It decides which levels are inlined, and nothing else. -/
@[irreducible]
def wrapInt (x : Int) : Int := Int.bmod x (2 ^ 32)

/-- The vectors that `depth_filter` works on. -/
structure State where
  graph : Block (List Int)
  graphT : Block (List Int)
  flag : Block Bool
  depthCount : Block Int
  degree : Block Int

/-! ## mergeRule -/

/-- `find`, `erase` and `insert`: the first `ID` in the list of `node` is replaced by the list of
`ID`. -/
def spliceInto (ID : Int) (g : Block (List Int)) (node : Int) : Run (Block (List Int)) := do
  -- a vector must not be inserted into itself
  if node = ID then throw .bounds
  let row ← g.read node
  let body ← g.read ID
  let row ← replaceFirst ID body row
  g.write node row

/-- The `mergeRule` of the depth filter keeps no information about the rules. -/
def mergeRule (vertexCnt ruleId : Int) (s : State) : Run State := do
  let ID := ruleId + vertexCnt
  let parents ← s.graphT.read ID
  let graph ← parents.foldlM (spliceInto ID) s.graph
  -- no row is spliced into itself, so the row of `ID` is the one from before
  let children ← graph.read ID
  let graphT ← children.foldlM (spliceInto ID) s.graphT
  pure { s with graph := graph, graphT := graphT }

/-! ## depth_filter -/

/-- `degree[i - vertex_cnt] = graph[i].size()`. -/
def takeDegrees (vertexCnt ruleCnt : Nat) (s : State) : Run State := do
  let degree ← Run.forLoop (fun i (degree : Block Int) => do
    let row ← s.graph.read i
    degree.write (i - vertexCnt) (wrapInt row.length)) ruleCnt vertexCnt s.degree
  pure { s with degree := degree }

/-- `depth_count[depth_ptr[i + vertex_cnt]] += use(i)`. -/
def addDegrees (use : Int → Run Int) (depth : Block Int) (vertexCnt ruleCnt : Nat)
    (depthCount : Block Int) : Run (Block Int) :=
  Run.forLoop (fun i (depthCount : Block Int) => do
    let d ← depth.read (i + vertexCnt)
    let x ← use i
    depthCount.modify d fun c => wrapInt (c + x)) ruleCnt 0 depthCount

/-- `flag[i] == true ? 0 : degree[i]`. -/
def leftDegree (s : State) (i : Int) : Run Int := do
  let dropped ← s.flag.read i
  if dropped then pure 0 else s.degree.read i

/-- One round of the loop over the rules of depth `m`. -/
def mergeAt (depth : Block Int) (vertexCnt m r : Int) (s : State) : Run State := do
  let d ← depth.read (r + vertexCnt)
  if d = m then do
    let s ← mergeRule vertexCnt r s
    let flag ← s.flag.write r true
    pure { s with flag := flag }
  else pure s

/-- One round of the loop over the levels.  Only the counts up to the next level are reset. -/
def depthStep (depth : Block Int) (minEdge : Int) (vertexCnt ruleCnt : Nat) (t : Int × State) :
    Run (Int × State) := do
  let c ← t.2.depthCount.read t.1
  -- a level with enough entries stays, and so do all counts
  if minEdge ≤ c then pure (t.1 - 1, t.2)
  else do
    let s ← Run.forLoop (mergeAt depth vertexCnt t.1) ruleCnt 0 t.2
    -- the rules that refer to the level have become longer
    let s ← takeDegrees vertexCnt ruleCnt s
    let depthCount ← Run.forLoop (fun i (depthCount : Block Int) => depthCount.write i 0)
      t.1.toNat 0 s.depthCount
    let depthCount ← addDegrees (leftDegree s) depth vertexCnt ruleCnt depthCount
    pure (t.1 - 1, { s with depthCount := depthCount })

def depthFilter (fuel : Nat) (graph graphT : Block (List Int)) (flag : Block Bool)
    (depth : Block Int) (mDepth maxDepth minEdge : Int) (vertexCnt ruleCnt : Nat) : Run State := do
  let s ← takeDegrees vertexCnt ruleCnt ⟨graph, graphT, flag,
    Block.alloc (mDepth + 1) fun _ => 0, Block.alloc ruleCnt fun _ => 0⟩
  let depthCount ← addDegrees s.degree.read depth vertexCnt ruleCnt s.depthCount
  let t ← Run.whileLoop (fun t : Int × State => pure (decide (maxDepth ≤ t.1)))
    (depthStep depth minEdge vertexCnt ruleCnt) fuel (mDepth, { s with depthCount := depthCount })
  pure t.2

/-! ## depth_filter_csr -/

/-- What `genNewGraphCSR` reads. -/
def State.rows (s : State) : Filter.State :=
  ⟨s.graph, s.graphT, Block.alloc 0 fun _ => ⟨0, 0⟩, s.flag⟩

/-- The offsets of the new graph are `int64_t`. -/
def wide : Filter.Variant := ⟨fun _ size => size, 2 ^ 63⟩

/-- The conversion of a vector of `int64_t` to an array of `int`. -/
def toIntArray (l : List Int) : Run (List Int) := l.mapM toInt

/-- The state after `depth_filter`. -/
def depthFiltered (fuel : Nat) (vlist elist : List Int) (vertexCnt ruleCnt : Nat)
    (maxDepth minEdge : Int) : Run State := do
  let graph ← csrConvert vlist elist (vertexCnt + ruleCnt)
  let graphT ← csrConvertIdx vlist elist (vertexCnt + ruleCnt)
  -- the depths of the graph as it was put in; inlining does not change them
  let depth ← genVertexOrderCsr fuel vlist elist vertexCnt ruleCnt
  depthFilter fuel graph graphT (Block.alloc ruleCnt fun _ => false) depth.1 depth.2 maxDepth
    minEdge vertexCnt ruleCnt

/-- The graph of the rules that are left, in the arrays that are returned. -/
def newGraph (vertexCnt ruleCnt : Nat) (s : State) : Run Compressed := do
  let ids ← genNewIdForRule s.flag vertexCnt ruleCnt
  let out ← genNewGraphCSR wide s.rows ids.1 vertexCnt ruleCnt
  let vlist ← toIntArray out.1
  let elist ← toIntArray out.2
  pure ⟨vlist, elist, vertexCnt, ids.2⟩

def depthFilterCsr (fuel : Nat) (vlist elist : List Int) (vertexCnt ruleCnt : Nat)
    (maxDepth minEdge : Int) : Run Compressed := do
  let s ← depthFiltered fuel vlist elist vertexCnt ruleCnt maxDepth minEdge
  newGraph vertexCnt ruleCnt s

end Laconic.DepthFilter
