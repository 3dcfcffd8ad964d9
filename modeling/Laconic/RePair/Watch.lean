import Laconic.RePair.RepairRun
import Laconic.RePair.Representation

/-!
# Re-Pair: watching the calls of a run

Some properties are about every call that `prepare` and `repair` make.  A `Watch` is asked before
each `incFreq` and `decFreq` and after each `removeRecord` of `decFreq`, and it may stop the run.
The functions of this module are those of `compress.h` with a watch; a silent one changes nothing.
A property holds at every call when the watch that stops at a call without it changes nothing.
-/

namespace Laconic.RePair

structure Watch where
  /-- before `incFreq` -/
  inc : PairStore → Int → Run Unit
  /-- before `decFreq` -/
  dec : PairStore → Int → Run Unit
  /-- with the store before and after the `removeRecord` of `decFreq` -/
  removal : PairStore → Int → PairStore → Run Unit

namespace Watch

def silent : Watch := ⟨fun _ _ => pure (), fun _ _ => pure (), fun _ _ _ => pure ()⟩

section Program

variable (w : Watch)

def decFreq (S : PairStore) (id : Int) : Run PairStore := do
  w.dec S id
  let r ← S.Rec.read id
  let s ← decHeap S.Heap S.Rec id
  let S := { S with Rec := s.2, Heap := s.1 }
  if r.freq - 1 = 0 then do
    let S' ← removeRecord S id
    w.removal S id S'
    pure S'
  else pure S

def createOcc (S : PairStore) (p : Tpair) (i : Int) : Run PairStore := do
  let id ← searchHash S.Hash S.Rec p
  if id = -1 then do
    let s ← insertRecord S p
    linkHead s.2 s.1 i true
  else do
    w.inc S id
    let S ← incFreqS S id
    linkHead S id i false

def removeOcc (S : PairStore) (oid : Int) (p : Tpair) (i : Int) : Run PairStore := do
  let id ← searchHash S.Hash S.Rec p
  if id ≠ -1 then do
    let S ← (if id ≠ oid then w.decFreq S id else pure S)
    let l ← S.L.read i
    if l.prev ≠ nullFreq then do
      let s ← (if l.prev < 0 then do
          let recs ← S.Rec.modify id fun r => { r with cpos := l.next }
          pure (recs, S.L)
        else do
          let L ← S.L.modify l.prev fun q => { q with next := l.next }
          pure (S.Rec, L))
      let L ← (if l.next ≠ -1 then s.2.modify l.next fun q => { q with prev := l.prev }
        else pure s.2)
      pure { S with Rec := s.1, L := L }
    else pure S
  else pure S

def prepareStep (inter : Block Int) (i : Int) (S : PairStore) : Run PairStore := do
  let left ← inter.read i
  let right ← inter.read (i + 1)
  w.createOcc S ⟨left, right⟩ i

def prepare (alph : Int) (inter : Block Int) : Run Repair := do
  let u := inter.size
  let heap ← createHeap u
  let hash ← createHash (256 * 256)
  let S : PairStore :=
    { Rec := Block.alloc 0 fun _ => ⟨⟨0, 0⟩, 0, 0, 0, 0⟩
      Hash := hash
      Heap := heap
      L := Block.alloc u fun _ => ⟨0, 0⟩ }
  let S ← Run.forLoop (w.prepareStep inter) (u - 1).toNat 0 S
  let S ← purgeHeap S
  pure { u := u, c := u, n := alph, inter := inter, S := S, rule := [] }

def replaceStep (oid cpos : Int) (R : Repair) : Run Repair := do
  let sgte ← nextPos R.inter cpos
  let ssgte ← (if sgte + 1 < R.u then nextPos R.inter sgte else pure (sgte + 1))
  let S ← unlinkHead R.S oid cpos
  let S ← (if ssgte ≠ R.u then do
      let c ← R.inter.read sgte
      let d ← R.inter.read ssgte
      let S ← w.removeOcc S oid ⟨c, d⟩ sgte
      w.createOcc S ⟨R.n, d⟩ cpos
    else pure S)
  let S ← (if cpos ≠ 0 then do
      let ant ← antPos R.inter cpos
      let a ← R.inter.read ant
      let b ← R.inter.read cpos
      let S ← w.removeOcc S oid ⟨a, b⟩ ant
      w.createOcc S ⟨a, R.n⟩ ant
    else pure S)
  let inter ← R.inter.write cpos R.n
  let inter ← (if ssgte ≠ R.u then inter.write (ssgte - 1) (-cpos - 1) else pure inter)
  let inter ← inter.write (cpos + 1) (-ssgte - 1)
  pure { R with c := R.c - 1, inter := inter, S := S }

def replaceAll (oid : Int) (R : Repair) : Run Repair := do
  let r ← R.S.Rec.read oid
  let s ← Run.whileLoop (fun s : Int × Repair => pure (decide (s.1 ≠ -1)))
    (fun s => do
      let R ← w.replaceStep oid s.1 s.2
      let r ← R.S.Rec.read oid
      pure (r.cpos, R))
    (R.c.toNat + 1) (r.cpos, R)
  pure s.2

def repairTurn (oid : Int) (R : Repair) : Run Repair := do
  let r ← R.S.Rec.read oid
  let R ← w.replaceAll oid { R with rule := R.rule ++ [r.pair] }
  let S ← removeRecord R.S oid
  let S ← purgeHeap S
  let R := { R with S := S, n := R.n + 1 }
  if ltFactor R.c R.u then compact R else pure R

def repairRound (R : Repair) : Run (Bool × Repair) := do
  if symbolsLeft R.n then do
    let e ← extractMax R.S.Heap
    let R := { R with S := { R.S with Heap := e.2 } }
    if e.1 = -1 then pure (false, R)
    else do
      let R ← w.repairTurn e.1 R
      pure (true, R)
  else pure (false, R)

def repairLoop : Nat → Repair → Run Repair
  | 0, _ => throw .fuel
  | k + 1, R => do
    let s ← w.repairRound R
    if s.1 then repairLoop k s.2 else pure s.2

def repair (R : Repair) : Run Repair := w.repairLoop (R.c.toNat + 1) R

end Program

/-! ## A silent watch -/

theorem silent_decFreq : silent.decFreq = RePair.decFreq := by
  funext S id
  unfold decFreq RePair.decFreq silent
  simp only [Run.pure_bind, bind_pure]

theorem silent_createOcc : silent.createOcc = RePair.createOcc := by
  funext S p i
  unfold createOcc RePair.createOcc silent
  simp only [Run.pure_bind]

theorem silent_removeOcc : silent.removeOcc = RePair.removeOcc := by
  funext S oid p i
  unfold removeOcc RePair.removeOcc
  rw [silent_decFreq]

theorem silent_prepare : silent.prepare = RePair.prepare := by
  funext alph inter
  unfold prepare RePair.prepare prepareStep RePair.prepareStep
  rw [silent_createOcc]

theorem silent_replaceAll : silent.replaceAll = RePair.replaceAll := by
  funext oid R
  unfold replaceAll RePair.replaceAll replaceStep RePair.replaceStep
  rw [silent_createOcc, silent_removeOcc]

theorem silent_repairRound : silent.repairRound = RePair.repairRound := by
  funext R
  unfold repairRound RePair.repairRound repairTurn RePair.repairTurn
  rw [silent_replaceAll]

theorem silent_repair : silent.repair = RePair.repair := by
  have hloop : ∀ k, silent.repairLoop k = RePair.repairLoop k := by
    intro k
    induction k with
    | zero => rfl
    | succ k ih =>
      funext R
      rw [repairLoop, RePair.repairLoop, silent_repairRound, ih]
  funext R
  rw [repair, RePair.repair, hloop]

end Watch

end Laconic.RePair
