import Laconic.RePair.Hash
import Laconic.RePair.Heap

/-!
# Re-Pair: records

`records.cc`.  The record array, the hash table, the heap and the occurrence lists `L` point into
each other (`assocRecords`), so they are one state here.  `removeRecord` fills the hole it leaves
with the last record and repairs the three pointers to it.
-/

namespace Laconic.RePair

/-- The associated structures of `Trarray`: records, hash table, heap and occurrence lists. -/
structure PairStore where
  Rec : Block Trecord
  Hash : Thash
  Heap : Theap
  L : Block Tlist

/-- Inserts `pair` with frequency 1, links it to hash and heap and returns its id.  The fields
`freq`, `cpos`, `hpos`, `kpos` of a fresh record hold whatever was in memory. -/
def insertRecord (S : PairStore) (pair : Tpair) : Run (Int × PairStore) := do
  let id := S.Rec.size
  -- `insertHash` sets `kpos`, `insertHeap` sets `freq` and `hpos`, the caller sets `cpos`
  let rec0 := S.Rec.push { pair := pair, freq := 0, cpos := 0, hpos := 0, kpos := 0 }
  let h ← insertHash S.Hash rec0 id
  let s ← insertHeap S.Heap h.2 id
  pure (id, { S with Rec := s.2, Hash := h.1, Heap := s.1 })

/-- Removes record `id`, which is already out of the heap. -/
def removeRecord (S : PairStore) (id : Int) : Run PairStore := do
  let hash ← deleteHash S.Hash S.Rec id
  let r ← S.Rec.read id
  -- the head of its list is marked, if it points back to this record
  let L ← (if r.cpos ≠ -1 then do
      let l ← S.L.read r.cpos
      if l.prev = -id - 1 then S.L.modify r.cpos fun l => { l with prev := nullFreq }
      else pure S.L
    else pure S.L)
  let S := { S with Hash := hash, L := L }
  -- the last record fills the hole, and its cell, its place in the heap and its list follow
  let S ← (if id ≠ S.Rec.size - 1 then do
      let last ← S.Rec.read (S.Rec.size - 1)
      let recs ← S.Rec.write id last
      let hash ← hashRepos S.Hash recs id
      let heap ← heapRepos S.Heap recs id
      let L ← (if last.cpos ≠ -1 then S.L.modify last.cpos fun l => { l with prev := -id - 1 }
        else pure S.L)
      pure { Rec := recs, Hash := hash, Heap := heap, L := L }
    else pure S)
  let recs ← S.Rec.pop
  pure { S with Rec := recs }

/-- Increments the frequency of record `id`. -/
def incFreqS (S : PairStore) (id : Int) : Run PairStore := do
  let s ← incFreq S.Heap S.Rec id
  pure { S with Rec := s.2, Heap := s.1 }

/-- Decrements the frequency of record `id`; frequency 0 disappears from the pairs. -/
def decFreq (S : PairStore) (id : Int) : Run PairStore := do
  let r ← S.Rec.read id
  let s ← decHeap S.Heap S.Rec id
  let S := { S with Rec := s.2, Heap := s.1 }
  -- `r` is the record before the call
  if r.freq - 1 = 0 then removeRecord S id else pure S

/-- Removes the records of frequency 1 from hash and records, then empties their bucket. -/
def purgeHeap (S : PairStore) : Run PairStore := do
  let A ← S.Heap.infreq.read 1
  let s ← Run.whileLoop
    (fun s : Int × PairStore => do
      let A ← s.2.Heap.infreq.read 1
      pure (decide (s.1 < A.size)))
    (fun s => do
      -- the bucket is read again in every round: `removeRecord` may renumber a record in it,
      -- and its size never changes in the loop
      let A ← s.2.Heap.infreq.read 1
      let id ← A.read s.1
      let S ← removeRecord s.2 id
      pure (s.1 + 1, S))
    (A.size.toNat + 1) (0, S)
  let infreq ← s.2.Heap.infreq.write 1 (Block.alloc 0 fun _ => 0)
  pure { s.2 with Heap := { s.2.Heap with infreq := infreq } }

end Laconic.RePair
