import Laconic.RePair.Records

/-!
# Re-Pair: prepare, repair and compress_csr

`compress.h`: the text `inter` is rewritten in place.  A replaced symbol leaves a hole; the first
cell of a run of holes points forward to the next live position and the last cell points back, both
stored as `-position-1`.  A run of one hole has only the forward pointer.
-/

namespace Laconic.RePair

/-- The globals of `compress.h`. -/
structure Repair where
  /-- |text| with gaps -/
  u : Int
  /-- real |text| -/
  c : Int
  /-- the next symbol -/
  n : Int
  inter : Block Int
  S : PairStore
  rule : List Tpair

/-- The position a cell of `inter` encodes when it is a hole. -/
def holePtr (x : Int) : Int := -x - 1

/-- `L[i].next = -1` for a new record, else `i` becomes the head of the list of record `id`. -/
def linkHead (S : PairStore) (id i : Int) (fresh : Bool) : Run PairStore := do
  let r ← S.Rec.read id
  let L ← (if fresh then S.L.modify i fun l => { l with next := -1 }
    else do
      let L ← S.L.modify i fun l => { l with next := r.cpos }
      -- the old head now has a position before it
      L.modify r.cpos fun l => { l with prev := i })
  let L ← L.modify i fun l => { l with prev := -id - 1 }
  let recs ← S.Rec.modify id fun r => { r with cpos := i }
  pure { S with L := L, Rec := recs }

/-- "create occ": position `i` gets the pair `p`. -/
def createOcc (S : PairStore) (p : Tpair) (i : Int) : Run PairStore := do
  let id ← searchHash S.Hash S.Rec p
  if id = -1 then do
    let s ← insertRecord S p
    linkHead s.2 s.1 i true
  else do
    let S ← incFreqS S id
    linkHead S id i false

/-- "remove occ": position `i` loses its pair `p`; the frequency of the pair being replaced,
record `oid`, is left alone. -/
def removeOcc (S : PairStore) (oid : Int) (p : Tpair) (i : Int) : Run PairStore := do
  let id ← searchHash S.Hash S.Rec p
  if id ≠ -1 then do
    let S ← (if id ≠ oid then decFreq S id else pure S)
    -- `decFreq` may have removed the record, and then `i` is marked
    let l ← S.L.read i
    if l.prev ≠ nullFreq then do
      -- the head of the list is found from the record, any other position from the one before
      let s ← (if l.prev < 0 then do
          let recs ← S.Rec.modify id fun r => { r with cpos := l.next }
          pure (recs, S.L)
        else do
          let L ← S.L.modify l.prev fun q => { q with next := l.next }
          pure (S.Rec, L))
      let L ← (if l.next ≠ -1 then s.2.modify l.next fun q => { q with prev := l.prev }
        else pure s.2)
      pure { S with Rec := s.1, L := L }
    else pure S
  else pure S

/-- One step of the loop of `prepare`. -/
def prepareStep (inter : Block Int) (i : Int) (S : PairStore) : Run PairStore := do
  let left ← inter.read i
  let right ← inter.read (i + 1)
  createOcc S ⟨left, right⟩ i

/-- Builds the records of all pairs of `inter`; the contents of a fresh `L` are arbitrary. -/
def prepare (alph : Int) (inter : Block Int) : Run Repair := do
  let u := inter.size
  let heap ← createHeap u
  let hash ← createHash (256 * 256)
  let S : PairStore :=
    { Rec := Block.alloc 0 fun _ => ⟨⟨0, 0⟩, 0, 0, 0, 0⟩
      Hash := hash
      Heap := heap
      L := Block.alloc u fun _ => ⟨0, 0⟩ }
  let S ← Run.forLoop (prepareStep inter) (u - 1).toNat 0 S
  let S ← purgeHeap S
  pure { u := u, c := u, n := alph, inter := inter, S := S, rule := [] }

/-- The live position after `i`, as the loops of `repair` find it. -/
def nextPos (inter : Block Int) (i : Int) : Run Int := do
  let x ← inter.read (i + 1)
  pure (if x < 0 then holePtr x else i + 1)

/-- The live position before `i`. -/
def antPos (inter : Block Int) (i : Int) : Run Int := do
  let x ← inter.read (i - 1)
  -- a run of one hole points forward to `i`, a longer run ends with a pointer back
  pure (if x < 0 then (if holePtr x = i then i - 2 else holePtr x) else i - 1)

/-- "remove bc from L": the occurrence `cpos` is the head of the list of `oid`. -/
def unlinkHead (S : PairStore) (oid cpos : Int) : Run PairStore := do
  let l ← S.L.read cpos
  let L ← (if l.next ≠ -1 then S.L.modify l.next fun q => { q with prev := -oid - 1 }
    else pure S.L)
  let recs ← S.Rec.modify oid fun r => { r with cpos := l.next }
  pure { S with L := L, Rec := recs }

/-- One round of the inner loop of `repair`: bc is replaced by e in abcd, with b at `cpos`, c at
`sgte` and d at `ssgte`. -/
def replaceStep (oid cpos : Int) (R : Repair) : Run Repair := do
  let sgte ← nextPos R.inter cpos
  -- without a d, `ssgte` is `u`
  let ssgte ← (if sgte + 1 < R.u then nextPos R.inter sgte else pure (sgte + 1))
  let S ← unlinkHead R.S oid cpos
  -- cd becomes ed
  let S ← (if ssgte ≠ R.u then do
      let c ← R.inter.read sgte
      let d ← R.inter.read ssgte
      let S ← removeOcc S oid ⟨c, d⟩ sgte
      createOcc S ⟨R.n, d⟩ cpos
    else pure S)
  -- ab becomes ae
  let S ← (if cpos ≠ 0 then do
      let ant ← antPos R.inter cpos
      let a ← R.inter.read ant
      let b ← R.inter.read cpos
      let S ← removeOcc S oid ⟨a, b⟩ ant
      createOcc S ⟨a, R.n⟩ ant
    else pure S)
  -- the gap reaches from `cpos + 1` to `ssgte - 1`; when this is one cell, the pointer forward
  -- is written last and stays
  let inter ← R.inter.write cpos R.n
  let inter ← (if ssgte ≠ R.u then inter.write (ssgte - 1) (-cpos - 1) else pure inter)
  let inter ← inter.write (cpos + 1) (-ssgte - 1)
  pure { R with c := R.c - 1, inter := inter, S := S }

/-- `while (cpos != -1)`: all occurrences of the pair of `oid` are replaced. -/
def replaceAll (oid : Int) (R : Repair) : Run Repair := do
  let r ← R.S.Rec.read oid
  let s ← Run.whileLoop (fun s : Int × Repair => pure (decide (s.1 ≠ -1)))
    (fun s => do
      let R ← replaceStep oid s.1 s.2
      -- "remove occ" takes overlapping occurrences out of the same list, so the head is read again
      let r ← R.S.Rec.read oid
      pure (r.cpos, R))
    (R.c.toNat + 1) (r.cpos, R)
  pure s.2

/-- One round of the compaction loop: the live position `i` moves to `ni`. -/
def compactStep (ni : Int) (s : Int × Repair) : Run (Int × Repair) := do
  let i := s.1
  let R := s.2
  let x ← R.inter.read i
  let inter ← R.inter.write ni x
  let l ← R.S.L.read i
  let L ← R.S.L.write ni l
  -- what points to `i`: a record, nothing when `i` is marked, or the position before it
  let t ← (if l.prev < 0 then
      (if l.prev ≠ nullFreq then do
        let recs ← R.S.Rec.modify (-l.prev - 1) fun r => { r with cpos := ni }
        pure (recs, L)
      else pure (R.S.Rec, L))
    else do
      let L ← L.modify l.prev fun q => { q with next := ni }
      pure (R.S.Rec, L))
  let L ← (if l.next ≠ -1 then t.2.modify l.next fun q => { q with prev := ni } else pure t.2)
  -- `ni ≤ i`, so the hole behind `i` is still there
  let i ← nextPos inter i
  pure (i, { R with inter := inter, S := { R.S with Rec := t.1, L := L } })

/-- "compact C": live positions move to the front and the gaps disappear. -/
def compact (R : Repair) : Run Repair := do
  let s ← Run.forLoop compactStep (R.c - 1).toNat 0 (0, R)
  let R := s.2
  -- the last symbol starts no pair, so no pointer follows it
  let x ← R.inter.read s.1
  let inter ← R.inter.write (if 0 ≤ R.c - 1 then R.c - 1 else 0) x
  pure { R with
    u := R.c
    inter := inter.truncate R.c
    S := { R.S with L := R.S.L.truncate R.c } }

/-- The body of the outer loop of `repair` after a successful `extractMax`. -/
def repairTurn (oid : Int) (R : Repair) : Run Repair := do
  let r ← R.S.Rec.read oid
  let R ← replaceAll oid { R with rule := R.rule ++ [r.pair] }
  -- the record of the replaced pair is out of the heap since `extractMax`
  let S ← removeRecord R.S oid
  let S ← purgeHeap S
  let R := { R with S := S, n := R.n + 1 }
  if ltFactor R.c R.u then compact R else pure R

/-- `n + 1 > 0` in `int` arithmetic that wraps around. -/
def symbolsLeft (n : Int) : Bool := decide (n + 1 < intBound)

/-- One round of the outer loop of `repair`: the next state, or the final one. -/
def repairRound (R : Repair) : Run (Bool × Repair) := do
  if symbolsLeft R.n then do
    let e ← extractMax R.S.Heap
    let R := { R with S := { R.S with Heap := e.2 } }
    if e.1 = -1 then pure (false, R)
    else do
      let R ← repairTurn e.1 R
      pure (true, R)
  else pure (false, R)

/-- The outer loop of `repair`; every turn shortens the text. -/
def repairLoop : Nat → Repair → Run Repair
  | 0, _ => throw .fuel
  | k + 1, R => do
    let s ← repairRound R
    if s.1 then repairLoop k s.2 else pure s.2

def repair (R : Repair) : Run Repair := repairLoop (R.c.toNat + 1) R

end Laconic.RePair
