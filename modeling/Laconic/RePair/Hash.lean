import Laconic.RePair.Basics

/-!
# Re-Pair: the hash table of pairs

`hash.cc`: linear probing over a table of record ids, with `-1` for an empty cell and `-2` for a
deletion mark.  A probe loop that has looked at every cell without stopping would go on forever;
the model stops it with `Fault.probe`.
-/

namespace Laconic.RePair

structure Thash where
  table : Block Int
  /-- of the form `(1<<smth)-1` -/
  maxpos : Int
  used : Int

/-- The next cell of a probe, `k = (k + 1) & maxpos`. -/
def Thash.step (H : Thash) (k : Int) : Int := land (k + 1) H.maxpos

/-- The probe loop of `searchHash`, with the number of cells still to be looked at. -/
def searchFrom (H : Thash) (recs : Block Trecord) (p : Tpair) : Nat → Int → Run Int
  | 0, _ => throw .probe
  | n + 1, k => do
    let t ← H.table.read k
    -- an empty cell ends the probe, a deletion mark does not
    if t = -1 then pure t
    else do
      let hit ← (if 0 ≤ t then (do let r ← recs.read t; pure (decide (r.pair = p)))
        else pure false)
      if hit then pure t else searchFrom H recs p n (H.step k)

/-- Returns the id of the pair, `-1` if it is not in the table. -/
def searchHash (H : Thash) (recs : Block Trecord) (p : Tpair) : Run Int :=
  searchFrom H recs p (H.maxpos + 1).toNat (hashPair H.maxpos p)

/-- Marks the cell of record `id` as deleted. -/
def deleteHash (H : Thash) (recs : Block Trecord) (id : Int) : Run Thash := do
  let r ← recs.read id
  -- a mark and not `-1`: other probes may pass through this cell
  let table ← H.table.write r.kpos (-2)
  pure { H with table := table, used := H.used - 1 }

/-- `while (maxpos & (maxpos - 1)) maxpos &= maxpos - 1;` keeps the highest bit. -/
def clearLow (maxpos : Int) : Run Int :=
  Run.whileLoop (fun m => pure (decide (land m (m - 1) ≠ 0))) (fun m => pure (land m (m - 1)))
    (maxpos.toNat + 1) maxpos

/-- Creates an empty table of `2^k` cells.  The cells are filled by a loop that stops when `i`
passes `maxpos`; for `maxpos = INT_MAX` the size `1 + maxpos` is not an `int` and the loop has no
end, so that no table with an empty cell comes into being. -/
def createHash (maxpos : Int) : Run Thash := do
  let m ← clearLow maxpos
  -- `m` is a power of two, so the table has `2 * m` cells
  let maxpos := 2 * (m - 1) + 1
  if intBound ≤ 1 + maxpos then throw .probe
  else pure { table := Block.alloc (1 + maxpos) fun _ => -1, maxpos := maxpos, used := 0 }

/-- The probe loop of `finsertHash`; it also stops at deletion marks. -/
def finsertFrom (H : Thash) : Nat → Int → Run Int
  | 0, _ => throw .probe
  | n + 1, k => do
    let t ← H.table.read k
    if 0 ≤ t then finsertFrom H n (H.step k) else pure k

/-- Finds a cell for `p` without resizing. -/
def finsertHash (H : Thash) (p : Tpair) : Run Int :=
  finsertFrom H (H.maxpos + 1).toNat (hashPair H.maxpos p)

/-- One cell of the old table is moved to the new one; deletion marks are left behind. -/
def rehashCell (tab : Block Int) (i : Int) (s : Thash × Block Trecord) :
    Run (Thash × Block Trecord) := do
  let t ← tab.read i
  -- `finsertHash` and not `insertHash`: the new table never grows while it is filled
  if 0 ≤ t then do
    let r ← s.2.read t
    let k ← finsertHash s.1 r.pair
    let table ← s.1.table.write k t
    let recs ← s.2.modify t fun r => { r with kpos := k }
    pure ({ s.1 with table := table }, recs)
  else pure s

/-- The resize step of `insertHash`. -/
def growHash (H : Thash) (recs : Block Trecord) : Run (Thash × Block Trecord) := do
  let newH ← createHash (2 * H.maxpos + 1)
  let s ← Run.forLoop (rehashCell H.table) (H.maxpos + 1).toNat 0 (newH, recs)
  -- the loop does not count its insertions
  pure ({ s.1 with used := H.used }, s.2)

/-- Inserts the pair of record `id`, which is assumed not to be present. -/
def insertHash (H : Thash) (recs : Block Trecord) (id : Int) : Run (Thash × Block Trecord) := do
  let s ← (if gtFactor H.used H.maxpos then growHash H recs else pure (H, recs))
  let r ← s.2.read id
  let k ← finsertHash s.1 r.pair
  let table ← s.1.table.write k id
  let recs ← s.2.modify id fun r => { r with kpos := k }
  pure ({ s.1 with table := table, used := s.1.used + 1 }, recs)

/-- Points the cell of a relocated record to its new id. -/
def hashRepos (H : Thash) (recs : Block Trecord) (id : Int) : Run Thash := do
  let r ← recs.read id
  let table ← H.table.write r.kpos id
  pure { H with table := table }

end Laconic.RePair
