import Laconic.RePair.HeapInv
import Laconic.RePair.PlainTable
import Laconic.RePair.Records

/-!
# Re-Pair: deletion marks fill the pair table

The resize test of `insertHash` counts pairs and not deletion marks.  After any sequence of
`insertRecord` and `removeRecord` an empty cell is left exactly when some cell has held no pair since
the table was created or resized, and only then every search ends.
-/

namespace Laconic.RePair

/-- The operations that change the pair table. -/
inductive TableOp where
  | insert (p : Tpair)
  | remove (id : Int)

def TableOp.run (S : PairStore) : TableOp → Run PairStore
  | .insert p => do
    let s ← insertRecord S p
    pure s.2
  | .remove id => removeRecord S id

/-- The operations on a new table, created for `m` pairs next to a text of `u` symbols. -/
def runTable (m u : Int) (ops : List TableOp) : Run PairStore := do
  let heap ← createHeap u
  let hash ← createHash m
  ops.foldlM TableOp.run
    { Rec := Block.alloc 0 fun _ => ⟨⟨0, 0⟩, 0, 0, 0, 0⟩
      Hash := hash
      Heap := heap
      L := Block.alloc u fun _ => ⟨0, 0⟩ }

namespace PlainTable

def op (T : PlainTable) : TableOp → Option PlainTable
  | .insert p => T.insert p
  | .remove id => T.remove id

/-- The operations on a new table, which has twice as many cells as the largest power of two up to
`m`.  There is no result if a record is removed that does not exist, or if the table becomes too
large. -/
def replay (m : Int) (ops : List TableOp) : Option PlainTable :=
  if m < 1 then none
  else do
    let T ← create (2 * 2 ^ m.toNat.log2) []
    ops.foldlM op T

end PlainTable

/-! ## Operations -/

/-- What the operations leave as it is in heap and lists: every record occurs once, and its place in
the bucket exists. -/
structure Steady (S : PairStore) : Prop where
  two_le : 2 ≤ S.Heap.sqrtu
  bucket : S.Heap.infreq.InB 1
  bucketSize : 0 ≤ (S.Heap.infreq.cells 1).size
  list : S.L.InB 0
  recs : ∀ j, S.Rec.InB j → (S.Rec.cells j).freq = 1 ∧ (S.Rec.cells j).cpos = 0 ∧
    (S.Heap.infreq.cells 1).InB (S.Rec.cells j).hpos

/-- The list entry of a record that is removed is cleared. -/
theorem Steady.clearList {S : PairStore} {id : Int} (h : Steady S) (hid : S.Rec.InB id) :
    ∃ L', (if (S.Rec.cells id).cpos ≠ -1 then do
        let l ← S.L.read (S.Rec.cells id).cpos
        if l.prev = -id - 1 then
          S.L.modify (S.Rec.cells id).cpos fun l => { l with prev := nullFreq }
        else pure S.L
      else pure S.L) = .ok L' ∧ L'.InB 0 := by
  obtain ⟨-, hcpos, -⟩ := h.recs id hid
  rw [hcpos, if_pos (by decide), Block.read_eq h.list, Run.ok_bind]
  split
  · exact ⟨_, Block.modify_eq h.list _, h.list⟩
  · exact ⟨_, rfl, h.list⟩

/-- `heapRepos` of a record that occurs once. -/
theorem heapRepos_low {H : Theap} {recs : Block Trecord} {id : Int} (hin : recs.InB id)
    (hfreq : (recs.cells id).freq = 1) (h2 : 2 ≤ H.sqrtu) (hb : H.infreq.InB 1)
    (hpos : (H.infreq.cells 1).InB (recs.cells id).hpos) :
    heapRepos H recs id = .ok { H with
      infreq := H.infreq.upd 1 fun A => A.upd (recs.cells id).hpos fun _ => id } := by
  rw [heapRepos, Block.read_eq hin, Run.ok_bind, hfreq, if_pos (by omega), Block.read_eq hb,
    Run.ok_bind, Block.write_eq hpos, Run.ok_bind, Block.write_eq hb, Run.ok_bind]
  rfl

/-- The store holds the records of the plain table. -/
structure Agrees (S : PairStore) (T : PlainTable) : Prop where
  table : TableRel S.Hash S.Rec T
  used : S.Hash.used = T.pairs.length
  recSize : S.Rec.size = T.pairs.length
  placed : ∀ j, j < T.pairs.length → ∃ k, k < T.size ∧ T.cell k = some j
  steady : Steady S

namespace Agrees

variable {S : PairStore} {T : PlainTable}

theorem insertRecord_refines (h : Agrees S T) (p : Tpair) :
    Run.Refines Agrees (TableOp.run S (.insert p)) (T.op (.insert p)) := by
  have hsize := h.recSize
  rw [TableOp.run, PlainTable.op, insertRecord, ← bind_pure (T.insert p), bind_assoc, hsize]
  generalize hrec : S.Rec.push ⟨p, 0, 0, 0, 0⟩ = recs₀
  have hsize₀ : recs₀.size = T.pairs.length + 1 := by rw [← hrec, Block.size_push, hsize]
  have hold : ∀ j : Int, j < T.pairs.length → recs₀.cells j = S.Rec.cells j := fun j hj => by
    rw [← hrec, Block.cells_push, if_neg (by omega)]
  have hrel₀ : TableRel S.Hash recs₀ T := h.table.congr
    (fun j hj => ⟨by omega, by omega⟩) (fun j hj => by rw [hold j (by omega)])
    fun j hj => by rw [hold j (by omega)]
  have hin₀ : recs₀.InB T.pairs.length := ⟨by omega, by omega⟩
  have hp₀ : recs₀.cells T.pairs.length = ⟨p, 0, 0, 0, 0⟩ := by
    rw [← hrec, ← hsize, Block.cells_push, if_pos rfl]
  refine (hrel₀.insertHash_refines h.used hin₀ (by rw [hp₀])).bind fun s T' hs => ?_
  obtain ⟨hrel, hsame, hused, hpairs, hiff⟩ := hs
  have hin : s.2.InB T.pairs.length := ⟨hin₀.1, by rw [hsame.1]; exact hin₀.2⟩
  have hlen : T'.pairs.length = T.pairs.length + 1 := by rw [hpairs, List.length_append]; rfl
  obtain ⟨recs', hrun, hsize', hcell⟩ := HeapInv.insertHeap_eq h.steady.bucket hin
  rw [hrun, Run.ok_bind, Run.pure_bind]
  have hstay : ∀ j, recs'.InB j → j ≠ T.pairs.length → S.Rec.InB j := fun j hj hne => by
    have h0 := hj.1
    have h1 := hj.2
    rw [hsize', hsame.1, hsize₀] at h1
    exact ⟨h0, by omega⟩
  refine Run.refines_pure ⟨hrel.congr (fun j hj => ⟨by omega, ?_⟩) (fun j _ => by rw [hcell])
    fun j _ => by rw [hcell], ?_, ?_, fun j hj => ?_, h.steady.two_le, h.steady.bucket, ?_,
    h.steady.list, fun j hj => ?_⟩
  · rw [hsize', hsame.1, hsize₀]
    omega
  · dsimp only
    rw [hused, h.used, hlen]
    rfl
  · dsimp only
    rw [hsize', hsame.1, hsize₀, hlen]
    rfl
  · refine (hiff j).mpr ?_
    by_cases hj' : j < T.pairs.length
    · exact Or.inl (h.placed j hj')
    · exact Or.inr (by omega)
  · dsimp only
    rw [Block.cells_upd_self, Block.size_push]
    have := h.steady.bucketSize
    omega
  · dsimp only at hj ⊢
    rw [hcell, hsame.2 j, Block.cells_upd_self]
    dsimp only
    by_cases hnew : j = T.pairs.length
    · have h0 := h.steady.bucketSize
      rw [if_pos hnew, if_pos hnew, hnew, hp₀]
      exact ⟨rfl, rfl, h0, by rw [Block.size_push]; omega⟩
    · obtain ⟨hfreq, hcpos, hhpos⟩ := h.steady.recs j (hstay j hj hnew)
      have hlt := (hstay j hj hnew).2
      rw [if_neg hnew, if_neg hnew, hold j (by omega)]
      refine ⟨hfreq, hcpos, hhpos.1, ?_⟩
      rw [Block.size_push]
      have := hhpos.2
      omega

theorem inB (h : Agrees S T) {j : Nat} (hj : j < T.pairs.length) : S.Rec.InB j :=
  ⟨by omega, by rw [h.recSize]; omega⟩

/-- The cell of a record. -/
theorem kpos (h : Agrees S T) {j : Nat} (hj : j < T.pairs.length) :
    ∃ k : Nat, k < T.size ∧ T.cell k = some j ∧ (S.Rec.cells j).kpos = k := by
  obtain ⟨k, hk, hkj⟩ := h.placed j hj
  exact ⟨k, hk, hkj, (h.table.owner k j hk hkj).2⟩

theorem cell_iff (h : Agrees S T) {j k : Nat} (hj : j < T.pairs.length) (hk : k < T.size) :
    T.cell k = some j ↔ (k : Int) = (S.Rec.cells j).kpos := by
  refine ⟨fun hc => (h.table.owner k j hk hc).2.symm, fun he => ?_⟩
  obtain ⟨k', -, hc, hpos⟩ := h.kpos hj
  rw [hpos, Nat.cast_inj] at he
  rw [he, hc]

/-- The store after record `id` has gone and the last record has moved to `id`. -/
structure Removed (S S' : PairStore) (id last : Nat) : Prop where
  steady : Steady S'
  size : S'.Rec.size = last
  cells : ∀ j : Nat, j < last → S'.Rec.cells j = S.Rec.cells (if j = id then last else j : Nat)
  maxpos : S'.Hash.maxpos = S.Hash.maxpos
  used : S'.Hash.used = S.Hash.used - 1
  tableSize : S'.Hash.table.size = S.Hash.table.size
  table : ∀ k : Nat, S'.Hash.table.cells k =
    if (k : Int) = (S.Rec.cells id).kpos then -2
    else if (k : Int) = (S.Rec.cells last).kpos then (id : Int)
    else S.Hash.table.cells k

/-- `removeRecord` marks the cell of record `id` and moves the last record to `id`. -/
theorem removeRecord_eq (h : Agrees S T) {id : Nat} (hid : id < T.pairs.length) :
    ∃ S', removeRecord S id = .ok S' ∧ Removed S S' id (T.pairs.length - 1) := by
  have hlt : T.pairs.length - 1 < T.pairs.length := by omega
  have hidin := h.inB hid
  have hlastin := h.inB hlt
  have hsteady := h.steady
  obtain ⟨kid, hkid, hcid, hposid⟩ := h.kpos hid
  obtain ⟨klast, hklast, hclast, hposlast⟩ := h.kpos hlt
  obtain ⟨hlfreq, hlcpos, hlhpos⟩ := hsteady.recs _ hlastin
  have hsize := h.recSize
  generalize hlast : T.pairs.length - 1 = last at *
  have hsize' : S.Rec.size - 1 = last := by omega
  obtain ⟨L', hL, hLin⟩ := hsteady.clearList hidin
  rw [removeRecord, deleteHash, Block.read_eq hidin, Run.ok_bind, hposid,
    Block.write_eq (h.table.inB hkid), Run.ok_bind, Run.pure_bind, Run.ok_bind, hL, Run.ok_bind]
  dsimp only
  by_cases hl : id = last
  · -- no record moves
    rw [if_neg (by rw [hsize', hl]; exact not_not.mpr rfl), Run.pure_bind]
    dsimp only
    rw [Block.pop_eq (by omega), Run.ok_bind]
    refine ⟨_, rfl, ⟨hsteady.two_le, hsteady.bucket, hsteady.bucketSize, hLin, fun j hj => ?_⟩,
      hsize', fun j hj => ?_, rfl, rfl, rfl, fun k => ?_⟩
    · exact hsteady.recs j ⟨hj.1, by have := hj.2; dsimp only at this; omega⟩
    · rw [if_neg (by omega)]
    · rw [← hl, hposid, Block.cells_upd]
      by_cases hk : (k : Int) = kid
      · rw [if_pos hk, if_pos hk]
      · rw [if_neg hk, if_neg hk, if_neg hk]
  · -- the last record moves to `id`
    have hne : klast ≠ kid := fun he => by
      rw [he, hcid, Option.some_inj] at hclast
      exact hl hclast
    have hkin : (S.Hash.table.upd kid fun _ => -2).InB klast := h.table.inB hklast
    have hidin' : (S.Rec.upd id fun _ => S.Rec.cells last).InB id := hidin
    have hself : (S.Rec.upd id fun _ => S.Rec.cells last).cells id = S.Rec.cells last :=
      Block.cells_upd_self ..
    have hheap := heapRepos_low hidin' (by rw [hself, hlfreq]) hsteady.two_le hsteady.bucket
      (by rw [hself]; exact hlhpos)
    rw [if_pos (by rw [hsize']; exact fun he => hl (Nat.cast_inj.mp he)), hsize',
      Block.read_eq hlastin, Run.ok_bind, Block.write_eq hidin, Run.ok_bind, hashRepos,
      Block.read_eq hidin', Run.ok_bind, hself, hposlast, Block.write_eq hkin, Run.ok_bind,
      Run.pure_bind, hheap, Run.ok_bind, hlcpos, if_pos (by decide), Block.modify_eq hLin,
      Run.ok_bind, Run.pure_bind]
    dsimp only
    rw [Block.pop_eq (by rw [Block.size_upd]; omega), Run.ok_bind]
    refine ⟨_, rfl, ⟨hsteady.two_le, hsteady.bucket, ?_, hLin, fun j hj => ?_⟩, hsize',
      fun j hj => ?_, rfl, rfl, rfl, fun k => ?_⟩
    · dsimp only
      rw [Block.cells_upd_self]
      exact hsteady.bucketSize
    · have hj' : S.Rec.InB j := ⟨hj.1, by
        have := hj.2
        dsimp only at this
        rw [Block.size_upd] at this
        omega⟩
      dsimp only
      rw [Block.cells_upd_self, Block.cells_upd]
      split
      · exact hsteady.recs _ hlastin
      · exact hsteady.recs j hj'
    · dsimp only
      rw [Block.cells_upd]
      by_cases hji : j = id
      · rw [if_pos (Nat.cast_inj.mpr hji), if_pos hji]
      · rw [if_neg fun he => hji (Nat.cast_inj.mp he), if_neg hji]
    · dsimp only
      rw [hposid, hposlast, Block.cells_upd, Block.cells_upd]
      by_cases hk : (k : Int) = kid
      · rw [if_pos hk, if_pos hk, if_neg fun he => hne (by omega)]
      · rw [if_neg hk, if_neg hk]

section Removed

variable {S' : PairStore} {id : Nat} {last : Tpair}

/-- The records that are left hold the pairs that are left. -/
theorem records_removed (h : Agrees S T) (hid : id < T.pairs.length)
    (hlast : T.pairs[T.pairs.length - 1]? = some last)
    (hr : Removed S S' id (T.pairs.length - 1)) {j : Nat} {p : Tpair}
    (hj : (T.drop id last).pairs[j]? = some p) :
    S'.Rec.InB j ∧ (S'.Rec.cells j).pair = p := by
  have hj' := (List.getElem?_eq_some_iff.mp hj).1
  rw [T.length_drop id last] at hj'
  refine ⟨⟨by omega, by rw [hr.size]; omega⟩, ?_⟩
  rw [hr.cells j hj']
  rw [PlainTable.drop, List.getElem?_dropLast, List.length_set, if_pos hj', List.getElem?_set] at hj
  by_cases hji : j = id
  · rw [if_pos hji.symm, if_pos hid] at hj
    rw [if_pos hji, (h.table.records _ _ hlast).2]
    exact Option.some.inj hj
  · rw [if_neg fun he => hji he.symm] at hj
    rw [if_neg hji]
    exact (h.table.records j p hj).2

/-- The cell of record `id` is marked, and the cell of the last record points to `id`. -/
theorem cells_removed (h : Agrees S T) (hid : id < T.pairs.length)
    (hr : Removed S S' id (T.pairs.length - 1)) {k : Nat} (hk : k < T.size) :
    S'.Hash.table.cells k = (T.drop id last).code k := by
  have hidk := h.cell_iff hid hk
  have hlastk := h.cell_iff (show T.pairs.length - 1 < T.pairs.length by omega) hk
  rw [hr.table k, h.table.cells k hk]
  by_cases hid' : T.cell k = some id
  · rw [if_pos (hidk.mp hid'),
      PlainTable.code_none (show (T.drop id last).cell k = none from if_pos hid')]
    exact (if_pos (h.table.held k id hid')).symm
  · rw [if_neg fun he => hid' (hidk.mpr he)]
    by_cases hl : T.cell k = some (T.pairs.length - 1)
    · rw [if_pos (hlastk.mp hl), PlainTable.code_some (j := id)]
      exact (if_neg hid').trans (if_pos hl)
    · rw [if_neg fun he => hl (hlastk.mpr he)]
      unfold PlainTable.code PlainTable.drop
      simp only [if_neg hid', if_neg hl]

theorem removed (h : Agrees S T) (hid : id < T.pairs.length)
    (hlast : T.pairs[T.pairs.length - 1]? = some last)
    (hr : Removed S S' id (T.pairs.length - 1)) : Agrees S' (T.drop id last) := by
  have hlt : T.pairs.length - 1 < T.pairs.length := by omega
  have hlen := T.length_drop id last
  refine ⟨⟨h.table.pow, h.table.fits, hr.maxpos.trans h.table.maxpos,
    hr.tableSize.trans h.table.tableSize, fun j p hj => h.records_removed hid hlast hr hj,
    fun k hk => h.cells_removed hid hr hk, fun k j hk hj => ?_, fun k j hj => ?_⟩, ?_, ?_,
    fun j hj => ?_, hr.steady⟩
  · rcases PlainTable.drop_cell_iff.mp hj with ⟨hc, hne, rfl⟩ | ⟨hc, hne, hnl⟩
    · rw [hr.cells j (by omega), if_pos rfl, hlen]
      exact ⟨by omega, (h.table.owner k _ hk hc).2⟩
    · obtain ⟨hjlen, hpos⟩ := h.table.owner k j hk hc
      rw [hr.cells j (by omega), if_neg hne, hlen]
      exact ⟨by omega, hpos⟩
  · rcases PlainTable.drop_cell_iff.mp hj with ⟨hc, -⟩ | ⟨hc, -⟩
    · exact h.table.held k _ hc
    · exact h.table.held k _ hc
  · rw [hr.used, h.used, hlen]
    omega
  · rw [hr.size, hlen]
  · rw [hlen] at hj
    by_cases hji : j = id
    · obtain ⟨k, hk, hc⟩ := h.placed _ hlt
      exact ⟨k, hk, PlainTable.drop_cell_iff.mpr (Or.inl ⟨hc, by omega, hji⟩)⟩
    · obtain ⟨k, hk, hc⟩ := h.placed j (by omega)
      exact ⟨k, hk, PlainTable.drop_cell_iff.mpr (Or.inr ⟨hc, hji, by omega⟩)⟩

end Removed

theorem removeRecord_refines (h : Agrees S T) (id : Int) :
    Run.Refines Agrees (TableOp.run S (.remove id)) (T.op (.remove id)) := by
  rw [TableOp.run, PlainTable.op, PlainTable.remove]
  by_cases hin : 0 ≤ id ∧ id < T.pairs.length
  · obtain ⟨id, rfl⟩ := Int.eq_ofNat_of_zero_le hin.1
    have hid : id < T.pairs.length := by omega
    obtain ⟨last, hlast⟩ : ∃ q, T.pairs[T.pairs.length - 1]? = some q :=
      ⟨_, List.getElem?_eq_getElem (by omega)⟩
    obtain ⟨S', hrun, hr⟩ := h.removeRecord_eq hid
    rw [if_pos hin, hlast, hrun, Int.toNat_natCast]
    exact .returns (h.removed hid hlast hr)
  · rw [if_neg hin, removeRecord, deleteHash]
    have hout : S.Rec.read id = .error .bounds := if_neg fun hb => hin ⟨hb.1, h.recSize ▸ hb.2⟩
    rw [hout]
    exact .stops

theorem op_refines (h : Agrees S T) (o : TableOp) : Run.Refines Agrees (o.run S) (T.op o) := by
  cases o with
  | insert p => exact h.insertRecord_refines p
  | remove id => exact h.removeRecord_refines id

end Agrees

/-! ## Runs -/

section Runs

variable {m u : Int} {ops : List TableOp}

theorem runTable_refines (hm : 1 ≤ m) (hu0 : 0 < u) (hu : u ≤ HeapInv.maxSqrtu * HeapInv.maxSqrtu) :
    Run.Refines Agrees (runTable m u ops) (PlainTable.replay m ops) := by
  obtain ⟨H, hrun, hheap, -⟩ := HeapInv.createHeap_eq hu
    (Block.alloc 0 fun _ => ⟨⟨0, 0⟩, 0, 0, 0, 0⟩)
  have h2 := hheap.two_le
  rw [runTable, PlainTable.replay, if_neg (by omega), hrun, Run.ok_bind]
  refine (TableRel.createHash_refines hm (Block.alloc 0 fun _ => ⟨⟨0, 0⟩, 0, 0, 0, 0⟩) []
    nofun).bind fun hash T hT => ?_
  obtain ⟨hrel, hused, hpairs, -, -⟩ := hT
  have hlen : T.pairs.length = 0 := by rw [hpairs]; rfl
  refine Run.refines_foldlM (fun o S T h => h.op_refines o) ops _ T ⟨hrel, ?_, ?_, ?_, h2, ?_, ?_, ?_, ?_⟩
  · rw [hused, hlen]
    rfl
  · rw [hlen]
    rfl
  · intro j hj
    omega
  · exact hheap.infreq_inB (by omega) (by omega)
  · exact hheap.size_nonneg 1 (by omega) (by omega)
  · exact ⟨le_rfl, hu0⟩
  · intro j hj
    have h0 := hj.1
    have h1 := hj.2
    rw [Block.size_alloc] at h1
    omega

/-! ### No cells at all -/

theorem createHash_nonpos (hm : m < 1) :
    createHash m = .ok ⟨Block.alloc (2 * m) fun _ => -1, 2 * m - 1, 0⟩ := by
  have hland : land m (m - 1) = 0 := by
    rw [land, show m.toNat = 0 by omega, Nat.zero_and]
    rfl
  have hclear : clearLow m = .ok m := by
    rw [clearLow, Run.whileLoop, hland, Run.pure_bind]
    rfl
  have hbound : (0 : Int) < intBound := by decide
  rw [createHash, hclear, Run.ok_bind]
  dsimp only
  rw [if_neg (by omega), show 2 * (m - 1) + 1 = 2 * m - 1 by omega,
    show 1 + (2 * m - 1) = 2 * m by omega]
  rfl

/-- Nothing is inserted into a table without cells. -/
theorem insertHash_nonpos {H : Thash} {recs : Block Trecord} {id : Int} (hmax : H.maxpos < 0)
    (s : Thash × Block Trecord) : insertHash H recs id ≠ .ok s := by
  intro hrun
  rw [insertHash] at hrun
  obtain ⟨t, hgrow, hrun⟩ := Run.bind_eq_ok.mp hrun
  obtain ⟨r, -, hrun⟩ := Run.bind_eq_ok.mp hrun
  obtain ⟨k, hk, -⟩ := Run.bind_eq_ok.mp hrun
  have hneg : t.1.maxpos < 0 := by
    split at hgrow
    · rw [growHash, createHash_nonpos (by omega), Run.ok_bind,
        show (H.maxpos + 1).toNat = 0 by omega, Run.forLoop, Run.pure_bind] at hgrow
      cases hgrow
      dsimp only
      omega
    · cases hgrow
      exact hmax
  rw [finsertHash, show (t.1.maxpos + 1).toNat = 0 by omega] at hk
  cases hk

theorem runTable_nonpos (hm : m < 1) {S : PairStore} (hrun : runTable m u ops = .ok S) :
    S.Hash.table.size ≤ 0 := by
  rw [runTable] at hrun
  obtain ⟨heap, -, hrun⟩ := Run.bind_eq_ok.mp hrun
  rw [createHash_nonpos hm, Run.ok_bind] at hrun
  cases ops with
  | nil =>
    cases hrun
    dsimp only
    rw [Block.size_alloc]
    omega
  | cons o ops =>
    rw [List.foldlM_cons] at hrun
    obtain ⟨S₁, hop, -⟩ := Run.bind_eq_ok.mp hrun
    cases o with
    | insert p =>
      obtain ⟨s, hins, -⟩ := Run.bind_eq_ok.mp hop
      obtain ⟨t, hhash, -⟩ := Run.bind_eq_ok.mp hins
      exact absurd hhash (insertHash_nonpos (by dsimp only; omega) t)
    | remove id =>
      obtain ⟨hash, hdel, -⟩ := Run.bind_eq_ok.mp hop
      obtain ⟨r, hr, -⟩ := Run.bind_eq_ok.mp hdel
      have hin := (Block.read_eq_ok.mp hr).1
      have h0 := hin.1
      have h1 := hin.2
      rw [Block.size_alloc] at h1
      omega

end Runs

/-- After any operations on a table of any initial size, some cell is empty and every search ends,
exactly when the operations can be carried out and some cell has held no pair since the table was
created or last resized. -/
theorem searchHash_stops_iff {m u : Int} (hu0 : 0 < u)
    (hu : u ≤ HeapInv.maxSqrtu * HeapInv.maxSqrtu) (ops : List TableOp) :
    (∃ S, runTable m u ops = .ok S ∧ (∃ k, S.Hash.table.read k = .ok (-1)) ∧
        ∀ p, ∃ t, searchHash S.Hash S.Rec p = .ok t) ↔
      ∃ T, PlainTable.replay m ops = some T ∧ T.HasUnused := by
  by_cases hm : 1 ≤ m
  · have href : Run.Refines Agrees (runTable m u ops) (PlainTable.replay m ops) :=
      runTable_refines hm hu0 hu
    constructor
    · rintro ⟨S, hrun, ⟨k, hk⟩, -⟩
      rw [hrun] at href
      obtain ⟨T, hT, hagree⟩ := href.of_ok
      obtain ⟨hin, hcell⟩ := Block.read_eq_ok.mp hk
      obtain ⟨k, rfl⟩ := Int.eq_ofNat_of_zero_le hin.1
      have hlt : k < T.size := by
        have := hin.2
        rw [hagree.table.tableSize] at this
        omega
      exact ⟨T, hT, k, hlt, (hagree.table.empty_iff hlt).mp hcell⟩
    · rintro ⟨T, hT, hunused⟩
      rw [hT] at href
      obtain ⟨S, hrun, hagree⟩ := href.of_some
      refine ⟨S, hrun, ?_, hagree.table.searchHash_stops hunused⟩
      obtain ⟨k, hk, hheld⟩ := hunused
      exact ⟨k, Block.read_eq_ok.mpr ⟨hagree.table.inB hk, (hagree.table.empty_iff hk).mpr hheld⟩⟩
  · constructor
    · rintro ⟨S, hrun, ⟨k, hk⟩, -⟩
      have hsize := runTable_nonpos (by omega) hrun
      obtain ⟨h0, h1⟩ := (Block.read_eq_ok.mp hk).1
      omega
    · rintro ⟨T, hT, -⟩
      rw [PlainTable.replay, if_pos (by omega)] at hT
      cases hT

/-- Five operations after which the table has been resized and has unused cells. -/
theorem searchHash_stops_resized : (0 : Int) < 1 ∧
    ∃ S, runTable 1 1 [.insert ⟨0, 0⟩, .remove 0, .insert ⟨0, 1⟩, .insert ⟨0, 2⟩, .insert ⟨0, 3⟩] =
        .ok S ∧ (∃ k, S.Hash.table.read k = .ok (-1)) ∧
      ∀ p, ∃ t, searchHash S.Hash S.Rec p = .ok t := by
  have hplain : ((PlainTable.replay 1 [.insert ⟨0, 0⟩, .remove 0, .insert ⟨0, 1⟩, .insert ⟨0, 2⟩,
      .insert ⟨0, 3⟩]).map fun T => decide T.HasUnused) = some true := by decide +kernel
  obtain ⟨T, hT, hunused⟩ := Option.map_eq_some_iff.mp hplain
  exact ⟨by decide, (searchHash_stops_iff (by decide) (by decide) _).mpr
    ⟨T, hT, of_decide_eq_true hunused⟩⟩

/-- In a table of two cells, two pairs with different cells are inserted and removed one after the
other.  Both cells hold marks and a search goes on forever. -/
theorem searchHash_marks_only :
    (runTable 1 1 [.insert ⟨0, 0⟩, .remove 0, .insert ⟨0, 1⟩, .remove 0] >>= fun S =>
      pure (S.Hash.table.toList, searchHash S.Hash S.Rec ⟨0, 0⟩)) =
      (.ok ([-2, -2], .error .probe) : Run (List Int × Run Int)) := by decide +kernel

end Laconic.RePair
