import Laconic.Grammar
import Laconic.Lib.PairScan
import Laconic.RePair.Basics

/-!
# The parallel compressor

The constructor of `Repair` makes three turns over a graph.  A turn collects the pairs of adjacent
entries in 40 buckets, counts them in 40 hash tables, drops the pairs below the threshold, gives new
ids to the others, rewrites the rows in 40 blocks, and appends one row for each new id.

The threads of a stage work on data of their own and are joined before the next stage, so each stage
is a loop here.  A hash table is a list of its entries; the order in which it is iterated is an
argument of the model.

Edges and offsets are `uint32_t`, the blocks are copied to `int`: conversions wrap, and an operation
on `int`s whose result does not fit is a fault.
-/

namespace Laconic.Parallel

open RePair (intBound toRelong)

def threadNum : Nat := 40

def threshold : Nat := 4

/-- `compress_rate`, the number of turns. -/
def compressRate : Nat := 3

/-- Conversion to `uint32_t`. -/
def toDtype (x : Int) : Int := x % 2 ^ 32

/-- Conversion to `size_t`. -/
def toSize (x : Int) : Int := x % 2 ^ 64

/-- Conversion to `int`. -/
def wrapInt (x : Int) : Int := if x % 2 ^ 32 < intBound then x % 2 ^ 32 else x % 2 ^ 32 - 2 ^ 32

/-- The result of an operation on `int`s. -/
def checkInt (x : Int) : Run Int :=
  if -intBound ≤ x ∧ x < intBound then pure x else throw .overflow

/-- `(size_t)x.first << 32 | x.second`. -/
def pairHash (first second : Int) : Nat :=
  (toRelong first <<< 32) % 2 ^ 64 ||| toRelong second

/-! ## Collecting the pairs -/

/-- `pair_buckets`. -/
abbrev Buckets := Nat → List Nat

/-- The bucket or table of the pairs that start with `x`. -/
def threadId (x : Int) : Nat := (toSize x % threadNum).toNat

def pushPair (edge : Block Int) (idx : Int) (buckets : Buckets) : Run Buckets := do
  let x ← edge.read idx
  let y ← edge.read (idx + 1)
  pure fun b => if b = threadId x then buckets b ++ [pairHash x y] else buckets b

/-- One row.  The bound `input_vertex[idy + 1] - 1` is computed in `uint32_t` and then compared with
a `size_t`. -/
def collectRow (vertex edge : Block Int) (idy : Int) (buckets : Buckets) : Run Buckets := do
  let start ← vertex.read idy
  let next ← vertex.read (idy + 1)
  Run.forLoop (pushPair edge) (toDtype (next - 1) - start).toNat start buckets

def collectPairs (vertex edge : List Int) (buckets : Buckets) : Run Buckets :=
  if vertex.length = 0 then throw .bounds
  else
    Run.forLoop (collectRow (Block.ofList vertex) (Block.ofList edge)) (vertex.length - 1) 0 buckets

/-! ## Counting, and new ids -/

/-- The entries of a hash table. -/
abbrev HashMap := List (Nat × Nat)

/-- `find`, then `++` or `insert`. -/
def countPair (table : HashMap) (pair : Nat) : HashMap :=
  match table.lookup pair with
  | some n => table.map fun kv => if kv.1 = pair then (pair, n + 1) else kv
  | none => table ++ [(pair, 1)]

def processpairs (pairs : List Nat) (table : HashMap) : HashMap :=
  (pairs.foldl countPair table).filter fun kv => decide (threshold ≤ kv.2)

/-- What `prepare_new_id` fills. -/
structure NewIds where
  startId : Nat
  convert : HashMap
  roleEdge : List Int
  roleVertex : List Int
  curVOffset : Nat

/-- One entry of the table. -/
def prepareEntry (s : NewIds) (kv : Nat × Nat) : NewIds where
  startId := s.startId + 1
  convert := s.convert ++ [(kv.1, s.startId)]
  -- the two halves of the key, through `int` to `uint32_t`
  roleEdge := s.roleEdge ++ [toDtype (kv.1 >>> 32 : Nat), toDtype kv.1]
  roleVertex := s.roleVertex ++ [toDtype s.curVOffset]
  curVOffset := s.curVOffset + 2

/-- `prepare_new_id` for a table in the order of its iteration. -/
def prepareNewId (table : HashMap) (startId : Nat) : NewIds :=
  table.foldl prepareEntry ⟨startId, [], [], [], 0⟩

/-- The tables of a turn, `hash_table` with what was made of it. -/
abbrev Tables := List (HashMap × NewIds)

/-- The new ids of all tables: each starts behind the table before. -/
def prepareAll : Nat → List HashMap → Tables
  | _, [] => []
  | startId, table :: tables =>
    (table, prepareNewId table startId) :: prepareAll (startId + table.length) tables

/-- The new id of a pair that stands in a table. -/
def findId (tables : Tables) (x y : Int) : Option Int :=
  match tables[threadId x]? with
  | none => none
  | some (table, ids) =>
    if (table.lookup (pairHash x y)).isSome then
      -- `operator[]` gives 0 for a key that is not there
      some (wrapInt ((ids.convert.lookup (pairHash x y)).getD 0 : Nat))
    else none

/-! ## Rewriting a block -/

/-- The variables of `replace`. -/
structure Replace where
  idx : Int
  vsize : Int
  edges : List Int
  vertices : List Int

/-- One round of the scan of a row. -/
def scanStep (tables : Tables) (edge : Block Int) (s : Replace) : Run Replace := do
  let x ← edge.read s.idx
  let y ← edge.read (s.idx + 1)
  match findId tables x y with
  | some id => do
    -- `idx++` in the branch, and again at the end of the round
    let idx ← checkInt (s.idx + 1)
    let vsize ← checkInt (s.vsize + 1)
    let idx ← checkInt (idx + 1)
    pure { s with idx := idx, vsize := vsize, edges := s.edges ++ [id] }
  | none => do
    let vsize ← checkInt (s.vsize + 1)
    let idx ← checkInt (s.idx + 1)
    pure { s with idx := idx, vsize := vsize, edges := s.edges ++ [x] }

/-- One row, from `start` on: the scan goes on while `more`; `last` is the place of the last entry,
which is copied when the scan has `left` it. -/
def replaceRow (tables : Tables) (edge : Block Int) (more left : Int → Bool) (start last : Int)
    (s : Replace) : Run Replace := do
  let s ← Run.whileLoop (fun s : Replace => pure (more s.idx)) (scanStep tables edge)
    (edge.size.toNat + 2) { s with idx := start, vertices := s.vertices ++ [s.vsize] }
  if left s.idx then do
    let x ← edge.read last
    let vsize ← checkInt (s.vsize + 1)
    pure { s with vsize := vsize, edges := s.edges ++ [x] }
  else pure s

/-- All rows but the last one end where the next one starts.  The last row ends with the block, whose
`size() - 1` is a `size_t`. -/
def replace (tables : Tables) (vertices edges : List Int) : Run Replace := do
  let offset ← (Block.ofList vertices).read 0
  -- the offsets of the block are counted from its own start
  let vertices ← vertices.mapM fun x => checkInt (x - offset)
  let vertex := Block.ofList vertices
  let edge := Block.ofList edges
  let s ← Run.forLoop (fun vidx s => do
    let start ← vertex.read vidx
    let stop ← vertex.read (vidx + 1)
    replaceRow tables edge (fun idx => decide (idx < stop - 1)) (fun idx => decide (idx < stop))
      start (stop - 1) s) (vertices.length - 1) 0 ⟨0, 0, [], []⟩
  -- `vidx` has come to the last row
  let start ← vertex.read (vertices.length - 1)
  replaceRow tables edge (fun idx => decide (toSize idx < toSize (edges.length - 1)))
    (fun idx => decide (toSize idx < edges.length)) start (edges.length - 1) s

/-! ## One turn -/

/-- The elements of a vector between two iterators, converted to `int`. -/
def slice (l : List Int) (start stop : Int) : Run (List Int) :=
  if 0 ≤ start ∧ start ≤ stop ∧ stop ≤ l.length then
    pure (((l.drop start.toNat).take (stop - start).toNat).map wrapInt)
  else throw .bounds

/-- `vertex_buckets[idx]` and `buckets[idx]`. -/
def splitBlock (threadSize : Nat) (vertex edge : List Int) (idx : Nat) :
    Run (List Int × List Int) :=
  if idx + 1 < threadNum then do
    let vertices ← slice vertex (idx * threadSize : Nat) ((idx + 1) * threadSize : Nat)
    let start ← (Block.ofList vertex).read (idx * threadSize : Nat)
    let stop ← (Block.ofList vertex).read ((idx + 1) * threadSize : Nat)
    let edges ← slice edge start stop
    pure (vertices, edges)
  else do
    -- the last block takes what is left, without the offset behind the last row
    let start ← (Block.ofList vertex).read (idx * threadSize : Nat)
    let edges ← slice edge start edge.length
    let vertices ← slice vertex (idx * threadSize : Nat) (vertex.length - 1)
    pure (vertices, edges)

/-- The blocks; `lenVertex` is the length that `input_vertex` had before the first turn. -/
def splitBlocks (lenVertex : Nat) (vertex edge : List Int) : Run (List (List Int × List Int)) :=
  (List.range threadNum).mapM (splitBlock (lenVertex / threadNum) vertex edge)

/-- Rows are appended to `input_vertex` and `input_edge`: their offsets move by the number of
edges. -/
def appendRows (csr rows : List Int × List Int) : List Int × List Int :=
  (csr.1 ++ rows.1.map (fun x => toDtype (x + csr.2.length)), csr.2 ++ rows.2.map toDtype)

/-- What the turns change. -/
structure State where
  inputVertex : List Int
  inputEdge : List Int
  maxId : Int
  pairBuckets : Buckets

/-- An iteration order for every turn and every table. -/
abbrev Order := Nat → Nat → HashMap → HashMap

/-- The tables of a turn after `prepare_new_id`, and the buckets, which are never cleared. -/
def turnTables (order : Order) (turn : Nat) (s : State) : Run (Buckets × Tables) := do
  let buckets ← collectPairs s.inputVertex s.inputEdge s.pairBuckets
  -- the tables are new in every turn, the buckets still hold the pairs of the turns before
  let tables := (List.range threadNum).map fun b => order turn b (processpairs (buckets b) [])
  pure (buckets, prepareAll (toDtype (s.maxId + 1)).toNat tables)

/-- One turn. -/
def repairTurn (order : Order) (lenVertex turn : Nat) (s : State) : Run State := do
  let r ← turnTables order turn s
  let blocks ← splitBlocks lenVertex s.inputVertex s.inputEdge
  let outs ← blocks.mapM fun block => replace r.2 block.1 block.2
  -- the blocks one after the other, then a row for each new id
  let csr := (outs.map fun out => (out.vertices, out.edges)).foldl appendRows ([], [])
  let csr := (r.2.map fun t => (t.2.roleVertex, t.2.roleEdge)).foldl appendRows csr
  let inputVertex := csr.1 ++ [toDtype csr.2.length]
  pure ⟨inputVertex, csr.2, toDtype (inputVertex.length - 2), r.1⟩

/-- The first `n` turns. -/
def repairTurns (order : Order) (lenVertex : Nat) : Nat → State → Run State
  | 0, s => pure s
  | n + 1, s => repairTurns order lenVertex n s >>= repairTurn order lenVertex (n + 1)

/-- The state before the first turn.  The check `input_vertex.size() != max_symbol + 2` only prints,
so nothing depends on it. -/
def initialState (vertex edge : List Int) (maxSymbol : Int) : State :=
  ⟨vertex, edge, maxSymbol, fun _ => []⟩

/-- The constructor of `Repair`. -/
def repair (order : Order) (vertex edge : List Int) (maxSymbol : Int) : Run State :=
  repairTurns order vertex.length compressRate (initialState vertex edge maxSymbol)

/-- The result of `load_edge_file`. -/
def maxSymbol (edge : List Int) : Int := edge.foldl max 0

end Laconic.Parallel
