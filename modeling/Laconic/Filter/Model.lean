import Laconic.Lib.Splice
import Laconic.RePair.CompressCsr

/-!
# The rule filter

`filter_csr` inlines the rules that save too little: a rule of length `len` that is used `freq`
times is dropped when `(freq - 1) * (len - 1) - 1 <= threshold`.  The serial module and the parallel
core have the same code but for one statement, the update of `freq` in `mergeRule`, and for the type
of the offsets they return.  Both filters are instances of one definition with these two parameters.
-/

namespace Laconic.Filter

open RePair (Compressed intBound toInt)

/-- `rule_info`. -/
structure RuleInfo where
  len : Int
  freq : Int
  deriving DecidableEq, Repr

/-- The vectors that the filter works on. -/
structure State where
  graph : Block (List Int)
  /-- where each node occurs, once for every occurrence -/
  graphT : Block (List Int)
  rif : Block RuleInfo
  mergeFlag : Block Bool

/-- What the two filters do differently. -/
structure Variant where
  /-- `freq` after an update, from the old `freq` and `graphT[child_id].size()` -/
  bump : Int → Int → Int
  /-- one more than the largest offset of the result -/
  offsetBound : Int

/-- `len` and `freq` are sizes, so that only the product can leave the range of `int`. -/
def judgeRule (threshold len freq : Int) : Run Bool := do
  let product ← toInt ((freq - 1) * (len - 1))
  pure (decide (product - 1 ≤ threshold))

/-! ## Rows and columns -/

/-- `for (e = start; e < end; e++) f(elist[e])`. -/
def forRow {σ : Type} (f : Int → σ → Run σ) (vlist elist : List Int) (v : Int) (s : σ) : Run σ := do
  let start ← (Block.ofList vlist).read v
  let stop ← (Block.ofList vlist).read (v + 1)
  Run.forLoop (fun e s => do
    let x ← (Block.ofList elist).read e
    f x s) (stop - start).toNat start s

/-- `csr_convert`, and `csr_convert_filter` in the parallel core. -/
def csrConvert (vlist elist : List Int) (n : Nat) : Run (Block (List Int)) :=
  Run.forLoop (fun v => forRow (fun x graph => graph.modify v fun r => r ++ [x]) vlist elist v) n 0
    (Block.alloc n fun _ => [])

/-- `csr_convert_idx`, and `csr_convert_filter_idx` in the parallel core. -/
def csrConvertIdx (vlist elist : List Int) (n : Nat) : Run (Block (List Int)) :=
  Run.forLoop (fun v => forRow (fun x graph => graph.modify x fun r => r ++ [v]) vlist elist v) n 0
    (Block.alloc n fun _ => [])

/-! ## mergeRule -/

/-- `find`, `erase` and `insert`: the first `ID` of `row` is replaced by `body`.  Without an `ID`
in the row `erase` gets the end iterator. -/
def replaceFirst (ID : Int) (body row : List Int) : Run (List Int) :=
  match Splice.splice ID body row with
  | some row => pure row
  | none => throw .bounds

/-- Stores the new information of rule `i` and judges it again. -/
def updateInfo (threshold i : Int) (f : RuleInfo → RuleInfo) (s : State) : Run State := do
  let info ← s.rif.read i
  let len ← toInt (f info).len
  let freq ← toInt (f info).freq
  let rif ← s.rif.write i ⟨len, freq⟩
  let flag ← judgeRule threshold len freq
  let mergeFlag ← s.mergeFlag.write i flag
  pure { s with rif := rif, mergeFlag := mergeFlag }

/-- One round of the first loop of `mergeRule`. -/
def insertChildren (threshold vertexCnt ID : Int) (s : State) (node : Int) : Run State := do
  -- a vector must not be inserted into itself
  if node = ID then throw .bounds
  let row ← s.graph.read node
  let body ← s.graph.read ID
  let row ← replaceFirst ID body row
  let graph ← s.graph.write node row
  let s := { s with graph := graph }
  -- there is no information about vertices
  if vertexCnt ≤ node then
    updateInfo threshold (node - vertexCnt)
      (fun info => { info with len := info.len + (body.length - 1) }) s
  else pure s

/-- One round of the second loop of `mergeRule`. -/
def updateChild (variant : Variant) (threshold vertexCnt ID : Int) (s : State) (child : Int) :
    Run State := do
  if child = ID then throw .bounds
  let col ← s.graphT.read child
  let parents ← s.graphT.read ID
  let col ← replaceFirst ID parents col
  let graphT ← s.graphT.write child col
  let s := { s with graphT := graphT }
  if vertexCnt ≤ child then
    updateInfo threshold (child - vertexCnt)
      (fun info => { info with freq := variant.bump info.freq col.length }) s
  else pure s

/-- The first loop changes no column and the second one no row, so each runs over a fixed list. -/
def mergeRule (variant : Variant) (threshold vertexCnt ruleId : Int) (s : State) : Run State := do
  let ID := ruleId + vertexCnt
  let parents ← s.graphT.read ID
  -- a parent is in the list once for every occurrence, and each round replaces one of them
  let s ← parents.foldlM (insertChildren threshold vertexCnt ID) s
  let children ← s.graph.read ID
  -- the row of the rule stays; nothing refers to it any more
  children.foldlM (updateChild variant threshold vertexCnt ID) s

/-! ## filter_csr -/

def initInfoForRule (threshold : Int) (vertexCnt ruleCnt : Nat) (s : State) : Run State :=
  Run.forLoop (fun i s => do
    let col ← s.graphT.read (i + vertexCnt)
    let row ← s.graph.read (i + vertexCnt)
    updateInfo threshold i (fun _ => ⟨row.length, col.length⟩) s) ruleCnt 0 s

/-- The rows, the columns and the information about the rules at the start. -/
def initState (threshold : Int) (vlist elist : List Int) (vertexCnt ruleCnt : Nat) : Run State := do
  let graph ← csrConvert vlist elist (vertexCnt + ruleCnt)
  let graphT ← csrConvertIdx vlist elist (vertexCnt + ruleCnt)
  initInfoForRule threshold vertexCnt ruleCnt
    ⟨graph, graphT, Block.alloc ruleCnt fun _ => ⟨0, 0⟩, Block.alloc ruleCnt fun _ => false⟩

/-- One round of the loop over the rules. -/
def mergeRound (variant : Variant) (threshold vertexCnt i : Int) (s : State) : Run State := do
  let flag ← s.mergeFlag.read i
  -- the flag of a later rule may have been changed by the rounds before
  if flag then mergeRule variant threshold vertexCnt i s else pure s

/-- The state after the loop over the rules. -/
def mergeRules (variant : Variant) (threshold : Int) (vlist elist : List Int)
    (vertexCnt ruleCnt : Nat) : Run State := do
  let s ← initState threshold vlist elist vertexCnt ruleCnt
  Run.forLoop (mergeRound variant threshold vertexCnt) ruleCnt 0 s

def genNewIdForRule (mergeFlag : Block Bool) (vertexCnt ruleCnt : Nat) : Run (Block Int × Int) := do
  let r ← Run.forLoop (fun i (r : Block Int × Int) => do
    -- a dropped rule gets the number of the next rule that stays
    let newRuleId ← r.1.write i r.2
    let flag ← mergeFlag.read i
    pure (newRuleId, if flag then r.2 else r.2 + 1)) ruleCnt 0
    (Block.alloc ruleCnt fun _ => 0, (vertexCnt : Int))
  pure (r.1, r.2 - vertexCnt)

/-- The new number of an entry. -/
def newId (newRuleId : Block Int) (vertexCnt dstID : Int) : Run Int :=
  if vertexCnt ≤ dstID then newRuleId.read (dstID - vertexCnt) else pure dstID

/-- `srcID >= vertex_cnt && merge_flag[srcID - vertex_cnt] == true`. -/
def isDropped (mergeFlag : Block Bool) (vertexCnt srcID : Int) : Run Bool :=
  if vertexCnt ≤ srcID then mergeFlag.read (srcID - vertexCnt) else pure false

/-- One round of the loop over the rows: a dropped rule is left out. -/
def pushNode (variant : Variant) (s : State) (newRuleId : Block Int) (vertexCnt v : Int)
    (out : List Int × List Int) : Run (List Int × List Int) := do
  let row ← s.graph.read v
  let dropped ← isDropped s.mergeFlag vertexCnt v
  if dropped then pure out
  else do
    let elist ← row.foldlM (fun elist dstID => do
      let x ← newId newRuleId vertexCnt dstID
      pure (elist ++ [x])) out.2
    -- the offset behind the row
    if (elist.length : Int) < variant.offsetBound then pure (out.1 ++ [(elist.length : Int)], elist)
    else throw .overflow

def genNewGraphCSR (variant : Variant) (s : State) (newRuleId : Block Int)
    (vertexCnt ruleCnt : Nat) : Run (List Int × List Int) :=
  Run.forLoop (pushNode variant s newRuleId vertexCnt) (vertexCnt + ruleCnt) 0 ([0], [])

def filterCsrOf (variant : Variant) (vlist elist : List Int) (vertexCnt ruleCnt : Nat)
    (threshold : Int) : Run Compressed := do
  let s ← mergeRules variant threshold vlist elist vertexCnt ruleCnt
  let ids ← genNewIdForRule s.mergeFlag vertexCnt ruleCnt
  let out ← genNewGraphCSR variant s ids.1 vertexCnt ruleCnt
  pure ⟨out.1, out.2, vertexCnt, ids.2⟩

/-! ## The two filters -/

/-- `freq = graphT[child_id].size()`; the result is converted to arrays of `int`. -/
def serial : Variant := ⟨fun _ size => size, intBound⟩

/-- `freq += graphT[child_id].size()`; offsets are `uint32_t`. -/
def parallel : Variant := ⟨fun freq size => freq + size, 2 ^ 32⟩

/-- `filter_csr` of the serial module. -/
def filterCsr : List Int → List Int → Nat → Nat → Int → Run Compressed := filterCsrOf serial

/-- `filter_csr` of the parallel core. -/
def filterCsrParallel : List Int → List Int → Nat → Nat → Int → Run Compressed :=
  filterCsrOf parallel

end Laconic.Filter
