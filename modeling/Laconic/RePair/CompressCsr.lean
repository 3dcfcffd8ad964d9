import Laconic.RePair.Compress

/-!
# Re-Pair: compress_csr

The entry point of the serial compressor: rows are joined into one text with a separator symbol of
its own after each row (`insert_spliter`), Re-Pair rewrites the text, and the live symbols are read
back into rows, followed by one row for each rule.
-/

namespace Laconic.RePair

/-- Appends `elist[start..stop)` to `re`. -/
def pushRow (elist : Block Int) (start stop : Int) (re : List Int) : Run (List Int) :=
  Run.forLoop (fun e re => do
    let x ← elist.read e
    pure (re ++ [x])) (stop - start).toNat start re

/-- The rows of the graph, row `v` followed by the separator `max_symbol + v`. -/
def insertSpliter (vlist elist : List Int) (maxSymbol : Int) : Run (List Int) :=
  if vlist.length = 0 then pure []
  else
    Run.forLoop (fun v re => do
      let start ← (Block.ofList vlist).read v
      let stop ← (Block.ofList vlist).read (v + 1)
      let re ← pushRow (Block.ofList elist) start stop re
      pure (re ++ [maxSymbol + v])) (vlist.length - 1) 0 []

/-- The variables of the read-back loop of `compress_csr`. -/
structure ReadBack where
  i : Int
  vlist : List Int
  elist : List Int
  eSize : Int

/-- One round of the read-back loop. -/
def readBackStep (maxSymbol alph u : Int) (inter : Block Int) (s : ReadBack) : Run ReadBack := do
  let x ← inter.read s.i
  let s :=
    -- a vertex, a separator that ends a row, or a rule
    if x < maxSymbol then { s with elist := s.elist ++ [x], eSize := s.eSize + 1 }
    else if x < alph then { s with vlist := s.vlist ++ [s.eSize] }
    else { s with elist := s.elist ++ [x - maxSymbol], eSize := s.eSize + 1 }
  let i := s.i + 1
  if i < u then do
    -- the first cell of a gap points to the next live symbol
    let y ← inter.read i
    pure { s with i := if y < 0 then holePtr y else i }
  else pure { s with i := i }

def readBack (maxSymbol alph u : Int) (inter : Block Int) : Run ReadBack :=
  Run.whileLoop (fun s : ReadBack => pure (decide (s.i < u)))
    (readBackStep maxSymbol alph u inter) (u.toNat + 1) ⟨0, [0], [], 0⟩

def convert (ID vertexCnt : Int) : Int := if vertexCnt < ID then ID - vertexCnt else ID

/-- The row of one rule. -/
def pushRule (maxSymbol : Int) (s : ReadBack) (p : Tpair) : ReadBack :=
  { s with
    vlist := s.vlist ++ [s.eSize + 2]
    elist := s.elist ++ [convert p.left maxSymbol, convert p.right maxSymbol]
    eSize := s.eSize + 2 }

/-- The tuple that `compress_csr` returns. -/
structure Compressed where
  vlist : List Int
  elist : List Int
  vertexCnt : Int
  ruleCnt : Int
  deriving DecidableEq, Repr

def compressCsr (vlist elist : List Int) (maxSymbol : Int) : Run Compressed := do
  let vertexCnt : Int := vlist.length - 1
  let text ← insertSpliter vlist elist maxSymbol
  let alph ← toInt (maxSymbol * 2)
  -- `int len = inter.size()` in `prepare`
  let _ ← toInt text.length
  let R ← prepare alph (Block.ofList text)
  let R ← repair R
  let back ← readBack maxSymbol alph R.u R.inter
  -- the separators close one row for each vertex, then the rules follow
  let back := R.rule.foldl (pushRule maxSymbol) back
  pure ⟨back.vlist, back.elist, vertexCnt, back.vlist.length - vlist.length⟩

end Laconic.RePair
