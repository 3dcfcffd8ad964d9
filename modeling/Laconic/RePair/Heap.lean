import Laconic.RePair.Basics

/-!
# Re-Pair: the heap of pairs

`heap.cc`: pairs that occur fewer than `sqrtu` times sit in the array `infreq[freq]`; the others
sit in doubly linked lists of `freq` nodes, one list for each frequency, and the frequencies
themselves in a doubly linked list of `ff` nodes from `smallest` to `largest`.  Unused nodes of
both pools are chained through `next` and `larger`.
-/

namespace Laconic.RePair

structure Thfreq where
  freq : Int
  /-- a pointer within the `freq` array -/
  elems : Int
  larger : Int
  smaller : Int

structure Thnode where
  id : Int
  prev : Int
  next : Int
  /-- pointer to its frequency node -/
  fnode : Int

structure Theap where
  freq : Block Thnode
  freef : Int
  ff : Block Thfreq
  freeff : Int
  smallest : Int
  largest : Int
  /-- vectors for infrequent ones -/
  infreq : Block (Block Int)
  sqrtu : Int
  /-- max freq heap used -/
  max : Int

/-- `H.sqrtu = 2; while (H.sqrtu * H.sqrtu < u) H.sqrtu++;` in `int` arithmetic. -/
def findSqrtu (u : Int) : Run Int :=
  Run.whileLoop
    -- the square is computed before it is compared
    (fun s => if s * s < intBound then pure (decide (s * s < u)) else throw .overflow)
    (fun s => pure (s + 1)) (u.toNat + 1) 2

def createHeap (u : Int) : Run Theap := do
  let sqrtu ← findSqrtu u
  pure
    -- both pools are one free list each
    { freq := Block.alloc sqrtu fun i => ⟨0, 0, if i = sqrtu - 1 then -1 else i + 1, 0⟩
      freef := 0
      ff := Block.alloc sqrtu fun i => ⟨0, 0, if i = sqrtu - 1 then -1 else i + 1, 0⟩
      freeff := 0
      smallest := -1
      largest := -1
      infreq := Block.alloc sqrtu fun _ => Block.alloc 0 fun _ => 0
      sqrtu := sqrtu
      -- the search for the greatest frequency starts at the linked lists
      max := sqrtu }

/-- `move(H->infreq[freq], i, j, rec)`: entry `j` of a bucket is copied to index `i`. -/
def move (H : Theap) (recs : Block Trecord) (freq i j : Int) :
    Run (Theap × Block Trecord) := do
  let A ← H.infreq.read freq
  let id ← A.read j
  let A ← A.write i id
  let infreq ← H.infreq.write freq A
  -- the entry is still at `j` too; `deleteArray` drops it there
  let recs ← recs.modify id fun r => { r with hpos := i }
  pure ({ H with infreq := infreq }, recs)

/-- `deleteArray(&H->infreq[freq])`. -/
def deleteInfreq (H : Theap) (freq : Int) : Run Theap := do
  let A ← H.infreq.read freq
  let A ← A.pop
  let infreq ← H.infreq.write freq A
  pure { H with infreq := infreq }

/-- `rec[id].hpos = insertArray(&H->infreq[freq], id)`. -/
def insertInfreq (H : Theap) (recs : Block Trecord) (freq id : Int) :
    Run (Theap × Block Trecord) := do
  let A ← H.infreq.read freq
  let infreq ← H.infreq.write freq (A.push id)
  let recs ← recs.modify id fun r => { r with hpos := A.size }
  pure ({ H with infreq := infreq }, recs)

/-- `move` of the last entry of a bucket to index `hpos`, then `deleteArray`. -/
def removeInfreq (H : Theap) (recs : Block Trecord) (freq hpos : Int) :
    Run (Theap × Block Trecord) := do
  let A ← H.infreq.read freq
  let s ← move H recs freq hpos (A.size - 1)
  let H ← deleteInfreq s.1 freq
  pure (H, s.2)

/-- `(fp != -1) && (H->ff[fp].freq == freq)`. -/
def hasFreq (ff : Block Thfreq) (fp freq : Int) : Run Bool :=
  if fp = -1 then pure false
  else do
    let f ← ff.read fp
    pure (decide (f.freq = freq))

/-- Removes the node `hpos` from the list of its frequency node `fp`. -/
def unlinkNode (H : Theap) (hpos fp : Int) : Run Theap := do
  let p ← H.freq.read hpos
  -- the first node of a list is what its frequency node points to
  let H ← (if p.prev = -1 then do
      let ff ← H.ff.modify fp fun f => { f with elems := p.next }
      pure { H with ff := ff }
    else do
      let freq ← H.freq.modify p.prev fun q => { q with next := p.next }
      pure { H with freq := freq })
  if p.next ≠ -1 then do
    let freq ← H.freq.modify p.next fun q => { q with prev := p.prev }
    pure { H with freq := freq }
  else pure H

/-- Puts the node `hpos` in front of the nonempty list of `fp`. -/
def pushNode (H : Theap) (hpos fp : Int) : Run Theap := do
  let f ← H.ff.read fp
  let freq ← H.freq.modify hpos fun p => { p with prev := -1, next := f.elems, fnode := fp }
  let freq ← freq.modify f.elems fun q => { q with prev := hpos }
  let ff ← H.ff.modify fp fun f => { f with elems := hpos }
  pure { H with freq := freq, ff := ff }

/-- Takes a frequency node for `freq` off the free list, between the nodes `smaller` and `larger`,
and makes `hpos` its only element. -/
def createFreq (H : Theap) (hpos freq smaller larger : Int) : Run Theap := do
  let lfp := H.freeff
  let lf ← H.ff.read lfp
  -- `larger` chains the free frequency nodes
  let freeff := lf.larger
  let ff ← H.ff.write lfp ⟨freq, hpos, larger, smaller⟩
  -- with no neighbour on a side the new node is an end of the list of frequencies
  let s ← (if larger ≠ -1 then do
      let ff ← ff.modify larger fun f => { f with smaller := lfp }
      pure (ff, H.largest)
    else pure (ff, lfp))
  let t ← (if smaller ≠ -1 then do
      let ff ← s.1.modify smaller fun f => { f with larger := lfp }
      pure (ff, H.smallest)
    else pure (s.1, lfp))
  let nodes ← H.freq.modify hpos fun p => { p with prev := -1, next := -1, fnode := lfp }
  pure { H with
    freq := nodes, ff := t.1, freeff := freeff, largest := s.2, smallest := t.2 }

/-- Takes a frequency node for `freq` off the free list, in front of the whole list, and makes
`hpos` its only element. -/
def createSmallest (H : Theap) (hpos freq : Int) : Run Theap := do
  let fp := H.freeff
  let f ← H.ff.read fp
  let freeff := f.larger
  let ff ← H.ff.write fp ⟨freq, hpos, H.smallest, -1⟩
  let ff ← (if H.smallest ≠ -1 then ff.modify H.smallest fun f => { f with smaller := fp }
    else pure ff)
  -- the linked lists may have been empty
  let largest := if H.largest = -1 then fp else H.largest
  let nodes ← H.freq.modify hpos fun p => { p with prev := -1, next := -1, fnode := fp }
  pure { H with freq := nodes, ff := ff, freeff := freeff, largest := largest, smallest := fp }

/-- "see if f disappears": an emptied frequency node goes back to the free list. -/
def dropFreq (H : Theap) (fp : Int) : Run Theap := do
  let f ← H.ff.read fp
  if f.elems = -1 then do
    -- the node can be anywhere in the list of frequencies, also at both ends of it
    let s ← (if f.smaller = -1 then pure (H.ff, f.larger)
      else do
        let ff ← H.ff.modify f.smaller fun g => { g with larger := f.larger }
        pure (ff, H.smallest))
    let t ← (if f.larger = -1 then pure (s.1, f.smaller)
      else do
        let ff ← s.1.modify f.larger fun g => { g with smaller := f.smaller }
        pure (ff, H.largest))
    let ff ← t.1.modify fp fun g => { g with larger := H.freeff }
    pure { H with ff := ff, freeff := fp, smallest := s.2, largest := t.2 }
  else pure H

/-- The high frequency part of `incFreq`, with `freq` already incremented. -/
def incHigh (H : Theap) (hpos freq : Int) : Run Theap := do
  let p ← H.freq.read hpos
  let fp := p.fnode
  let f ← H.ff.read fp
  let ex ← hasFreq H.ff f.larger freq
  if p.prev = -1 ∧ p.next = -1 ∧ ex = false then do
    -- alone in its list and no list for the new frequency: the list changes its frequency
    let ff ← H.ff.modify fp fun f => { f with freq := freq }
    pure { H with ff := ff }
  else do
    let H ← unlinkNode H hpos fp
    let H ← (if ex then pushNode H hpos f.larger else createFreq H hpos freq fp f.larger)
    dropFreq H fp

/-- The high frequency part of `decFreq`, with `freq` already decremented. -/
def decHigh (H : Theap) (hpos freq : Int) : Run Theap := do
  let p ← H.freq.read hpos
  let fp := p.fnode
  let f ← H.ff.read fp
  let ex ← hasFreq H.ff f.smaller freq
  if p.prev = -1 ∧ p.next = -1 ∧ ex = false then do
    let ff ← H.ff.modify fp fun f => { f with freq := freq }
    pure { H with ff := ff }
  else do
    let H ← unlinkNode H hpos fp
    let H ← (if ex then pushNode H hpos f.smaller else createFreq H hpos freq f.smaller fp)
    dropFreq H fp

/-- "ins in freq part": record `id` enters the linked lists with frequency `freq = sqrtu`. -/
def enterHigh (H : Theap) (recs : Block Trecord) (id freq : Int) :
    Run (Theap × Block Trecord) := do
  let hpos := H.freef
  let p ← H.freq.read hpos
  let recs ← recs.modify id fun r => { r with hpos := hpos }
  let nodes ← H.freq.modify hpos fun p => { p with id := id }
  let H := { H with freef := p.next, freq := nodes }
  -- `sqrtu` is the least frequency in the linked lists, so its list can only be the first
  let ex ← hasFreq H.ff H.smallest freq
  let H ← (if ex then pushNode H hpos H.smallest else createSmallest H hpos freq)
  pure (H, recs)

/-- "del from heap, must be minimal": the node `hpos` leaves the linked lists. -/
def leaveHigh (H : Theap) (hpos : Int) : Run Theap := do
  let p ← H.freq.read hpos
  let H ← unlinkNode H hpos p.fnode
  let nodes ← H.freq.modify hpos fun p => { p with next := H.freef }
  let H := { H with freq := nodes, freef := hpos }
  let f ← H.ff.read p.fnode
  if f.elems = -1 then do
    -- its frequency is `sqrtu`, so there is no smaller node to link
    let s ← (if f.larger = -1 then pure (H.ff, -1)
      else do
        let ff ← H.ff.modify f.larger fun g => { g with smaller := -1 }
        pure (ff, H.largest))
    let ff ← s.1.modify p.fnode fun g => { g with larger := H.freeff }
    pure { H with ff := ff, freeff := p.fnode, smallest := f.larger, largest := s.2 }
  else pure H

/-- Increments the frequency of record `id`. -/
def incFreq (H : Theap) (recs : Block Trecord) (id : Int) : Run (Theap × Block Trecord) := do
  let r ← recs.read id
  let recs ← recs.modify id fun r => { r with freq := r.freq + 1 }
  if H.sqrtu ≤ r.freq then do
    let H ← incHigh H r.hpos (r.freq + 1)
    pure (H, recs)
  else do
    -- to the next bucket, or from the last bucket to the linked lists
    let s ← removeInfreq H recs r.freq r.hpos
    if r.freq + 1 < s.1.sqrtu then insertInfreq s.1 s.2 (r.freq + 1) id
    else enterHigh s.1 s.2 id (r.freq + 1)

/-- `decFreq` up to the removal of a record whose frequency has reached zero. -/
def decHeap (H : Theap) (recs : Block Trecord) (id : Int) : Run (Theap × Block Trecord) := do
  let r ← recs.read id
  let recs ← recs.modify id fun r => { r with freq := r.freq - 1 }
  if H.sqrtu < r.freq then do
    let H ← decHigh H r.hpos (r.freq - 1)
    pure (H, recs)
  else do
    let s ← (if r.freq < H.sqrtu then removeInfreq H recs r.freq r.hpos
      else do
        let H ← leaveHigh H r.hpos
        pure (H, recs))
    -- at frequency 0 the record is in no bucket, and the caller removes it
    if 0 < r.freq - 1 then insertInfreq s.1 s.2 (r.freq - 1) id else pure s

/-- Puts record `id` into the heap with frequency 1. -/
def insertHeap (H : Theap) (recs : Block Trecord) (id : Int) : Run (Theap × Block Trecord) := do
  let s ← insertInfreq H recs 1 id
  let recs ← s.2.modify id fun r => { r with freq := 1 }
  pure (s.1, recs)

/-- `while (H->max && (H->infreq[H->max].size == 0)) H->max--;` -/
def lowerMax (H : Theap) : Run Theap :=
  Run.whileLoop
    (fun H => if H.max = 0 then pure false
      else do
        let A ← H.infreq.read H.max
        pure (decide (A.size = 0)))
    (fun H => pure { H with max := H.max - 1 }) (H.max.toNat + 1) H

/-- Removes an element of the largest frequency list. -/
def extractHigh (H : Theap) : Run (Int × Theap) := do
  let fp := H.largest
  let f ← H.ff.read fp
  let hpos := f.elems
  let p ← H.freq.read hpos
  let ff ← H.ff.modify fp fun f => { f with elems := p.next }
  let H := { H with ff := ff }
  let H ← (if p.next ≠ -1 then do
      let nodes ← H.freq.modify p.next fun q => { q with prev := -1 }
      pure { H with freq := nodes }
    else do
      -- the list is empty now: its frequency node, the largest one, is freed
      let s ← if f.smaller = -1 then pure (H.ff, -1)
        else do
          let ff ← H.ff.modify f.smaller fun g => { g with larger := -1 }
          pure (ff, H.smallest)
      let ff ← s.1.modify fp fun g => { g with larger := H.freeff }
      pure { H with ff := ff, freeff := fp, largest := f.smaller, smallest := s.2 })
  let nodes ← H.freq.modify hpos fun p => { p with next := H.freef }
  pure (p.id, { H with freq := nodes, freef := hpos })

/-- Removes a record of maximal frequency from the heap; `-1` when the heap is empty. -/
def extractMax (H : Theap) : Run (Int × Theap) := do
  -- `max` only goes down: once below `sqrtu` the linked lists are not looked at again
  let H := if H.max = H.sqrtu ∧ H.largest = -1 then { H with max := H.max - 1 } else H
  if H.max < H.sqrtu then do
    let H ← lowerMax H
    if H.max = 0 then pure (-1, H)
    else do
      let A ← H.infreq.read H.max
      let ret ← A.read (A.size - 1)
      let H ← deleteInfreq H H.max
      pure (ret, H)
  else extractHigh H

/-- Tells the heap that the record it holds at `hpos` is now at index `id`. -/
def heapRepos (H : Theap) (recs : Block Trecord) (id : Int) : Run Theap := do
  let r ← recs.read id
  if r.freq < H.sqrtu then do
    let A ← H.infreq.read r.freq
    let A ← A.write r.hpos id
    let infreq ← H.infreq.write r.freq A
    pure { H with infreq := infreq }
  else do
    let nodes ← H.freq.modify r.hpos fun p => { p with id := id }
    pure { H with freq := nodes }

end Laconic.RePair
