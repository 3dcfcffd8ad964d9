import Laconic.RePair.IndexOps

/-!
# Re-Pair: creating and removing occurrences

The "create occ", "remove occ" and "remove bc from L" parts of `repair` change the labelling `lab`
at one position and keep the index consistent.  The only fault that is left open is a probe of the
hash table that finds no empty cell.
-/

namespace Laconic.RePair

open Chain

namespace IndexInv

variable {S S' : PairStore} {lab : Int → Option Tpair} {out : Tpair → Prop}
  {id oid i : Int} {pr P : Tpair}

/-- Records that differ in `cpos` only. -/
def SameButCpos (recs recs' : Block Trecord) : Prop :=
  recs'.size = recs.size ∧ ∀ j, recs'.cells j = { recs.cells j with cpos := (recs'.cells j).cpos }

theorem SameButCpos.upd (recs : Block Trecord) (id c : Int) :
    SameButCpos recs (recs.upd id fun r => { r with cpos := c }) := by
  refine ⟨rfl, fun j => ?_⟩
  rw [Block.cells_upd]
  split
  · next he => rw [he]
  · rfl

theorem cpos_upd (recs : Block Trecord) (id c j : Int) :
    ((recs.upd id fun r => { r with cpos := c }).cells j).cpos =
      if j = id then c else (recs.cells j).cpos := by
  rw [Block.cells_upd]
  split <;> rfl

/-- The hash table and the heap do not read `cpos`. -/
theorem of_sameButCpos {lab' : Int → Option Tpair} {L' : Block Tlist} {recs' : Block Trecord}
    (hhash : HashInv S.Hash S.Rec S.Rec.InB)
    (hheap : HeapInv S.Heap S.Rec (fun id => S.Rec.InB id ∧ ¬ out (S.Rec.cells id).pair) 0)
    (hsize : 0 ≤ S.Rec.size) (hroom : L'.size ≤ S.Heap.sqrtu * S.Heap.sqrtu)
    (hsame : SameButCpos S.Rec recs') (hlists : ListInv recs' L' lab')
    (hfreq : ∀ j, S.Rec.InB j → ¬ out (S.Rec.cells j).pair →
      (S.Rec.cells j).freq = cnt lab' L'.size (S.Rec.cells j).pair) :
    IndexInv { S with Rec := recs', L := L' } lab' out 0 := by
  have hin : ∀ j, recs'.InB j ↔ S.Rec.InB j := Block.inB_congr hsame.1
  have hpair : ∀ j, (recs'.cells j).pair = (S.Rec.cells j).pair := fun j => by rw [hsame.2 j]
  refine ⟨?_, ?_, hlists, fun j hj hno => ?_, ?_, hroom⟩
  · exact (hhash.congr (fun j hj => (hin j).mpr hj) (fun j _ => hpair j)
      fun j _ => by rw [hsame.2 j]).live_congr hin
  · refine (hheap.congr (fun j hj => (hin j).mpr hj.1) (fun j _ => by rw [hsame.2 j])
      fun j _ => by rw [hsame.2 j]).live_congr fun j => ?_
    rw [hin, hpair]
  · dsimp only at hj hno ⊢
    rw [hpair] at hno ⊢
    rw [show (recs'.cells j).freq = (S.Rec.cells j).freq by rw [hsame.2 j]]
    exact hfreq j ((hin j).mp hj) hno
  · dsimp only
    rw [hsame.1]
    exact hsize

/-! ## Removing an occurrence -/

/-- A position in a list is never marked. -/
theorem prev_ne_nullFreq (hhash : HashInv S.Hash S.Rec S.Rec.InB) (hlists : ListInv S.Rec S.L lab)
    (hid : S.Rec.InB id) (hi : lab i = some (S.Rec.cells id).pair) :
    (S.L.cells i).prev ≠ nullFreq := by
  obtain ⟨l, e, hs, -, hm⟩ := hlists.list id hid
  obtain ⟨l₁, l₂, rfl⟩ := List.append_of_mem ((hm i).mpr hi)
  have hlt := hhash.id_lt (fun _ h => h) hid
  have h0 := hid.1
  unfold nullFreq
  rcases hs.pv_mem_or with he | he
  · rw [he]
    omega
  · have := (hlists.range _ _ ((hm _).mp (List.mem_append_left _ he))).1
    have : (0 : Int) < intBound := by decide
    omega

/-- The pointer part of "remove occ": position `i` is taken out of the list of record `id` unless
it is marked. -/
def unlinkOcc (S : PairStore) (id i : Int) : Run PairStore := do
  let l ← S.L.read i
  if l.prev ≠ nullFreq then do
    let s ← (if l.prev < 0 then do
        let recs ← S.Rec.modify id fun r => { r with cpos := l.next }
        pure (recs, S.L)
      else do
        let L ← S.L.modify l.prev fun q => { q with next := l.next }
        pure (S.Rec, L))
    let L ← (if l.next ≠ -1 then s.2.modify l.next fun q => { q with prev := l.prev }
      else pure s.2)
    pure { S with Rec := s.1, L := L }
  else pure S

theorem removeOcc_eq (S : PairStore) (oid : Int) (p : Tpair) (i : Int) :
    removeOcc S oid p i = (do
      let id ← searchHash S.Hash S.Rec p
      if id ≠ -1 then do
        let S ← (if id ≠ oid then decFreq S id else pure S)
        unlinkOcc S id i
      else pure S) := rfl

/-- The records after `unlinkOcc`: the list head moves when the head was taken out. -/
def unlinkedRecs (S : PairStore) (id i : Int) : Block Trecord :=
  if (S.L.cells i).prev < 0 then S.Rec.upd id fun r => { r with cpos := (S.L.cells i).next }
  else S.Rec

/-- The lists after `unlinkOcc`: both neighbours skip position `i`. -/
def unlinkedList (L : Block Tlist) (i : Int) : Block Tlist :=
  (L.updPtr (L.cells i).prev fun q => { q with next := (L.cells i).next }).updPtr
    (L.cells i).next fun q => { q with prev := (L.cells i).prev }

theorem size_unlinkedList (L : Block Tlist) (i : Int) : (unlinkedList L i).size = L.size := by
  rw [unlinkedList, Block.size_updPtr, Block.size_updPtr]

theorem next_unlinkedList (L : Block Tlist) (i : Int) {q : Int} (hq : 0 ≤ q) :
    ((unlinkedList L i).cells q).next =
      if q = (L.cells i).prev then (L.cells i).next else (L.cells q).next := by
  refine Eq.trans (Block.field_updPtr _ _ Tlist.next (fun _ => by rfl) q) ?_
  rw [Block.cells_updPtr _ _ _ hq]
  split <;> rfl

theorem prev_unlinkedList (L : Block Tlist) (i : Int) {q : Int} (hq : 0 ≤ q) :
    ((unlinkedList L i).cells q).prev =
      if q = (L.cells i).next then (L.cells i).prev else (L.cells q).prev := by
  rw [unlinkedList, Block.cells_updPtr _ _ _ hq]
  split
  · rfl
  · exact Block.field_updPtr _ _ Tlist.prev (fun _ => by rfl) q

theorem sameButCpos_unlinkedRecs (S : PairStore) (id i : Int) :
    SameButCpos S.Rec (unlinkedRecs S id i) := by
  unfold unlinkedRecs
  split
  · exact SameButCpos.upd _ _ _
  · exact ⟨rfl, fun _ => rfl⟩

theorem cpos_unlinkedRecs (S : PairStore) (id i j : Int) :
    ((unlinkedRecs S id i).cells j).cpos =
      if j = id ∧ (S.L.cells i).prev < 0 then (S.L.cells i).next else (S.Rec.cells j).cpos := by
  unfold unlinkedRecs
  split
  · next hp =>
    rw [cpos_upd]
    simp only [hp, and_true]
  · next hp => rw [if_neg fun he => hp he.2]

theorem unlinkOcc_run (hid : S.Rec.InB id) (hi : S.L.InB i) (hnull : (S.L.cells i).prev ≠ nullFreq)
    (hprev : ¬ (S.L.cells i).prev < 0 → S.L.InB (S.L.cells i).prev)
    (hnext : (S.L.cells i).next ≠ -1 → S.L.InB (S.L.cells i).next) :
    unlinkOcc S id i = .ok { S with Rec := unlinkedRecs S id i, L := unlinkedList S.L i } := by
  -- the sign of `prev` decides whether the record or the position before `i` is redirected
  have hfirst : (if (S.L.cells i).prev < 0 then do
        let recs ← S.Rec.modify id fun r => { r with cpos := (S.L.cells i).next }
        pure (recs, S.L)
      else do
        let L ← S.L.modify (S.L.cells i).prev fun q => { q with next := (S.L.cells i).next }
        pure (S.Rec, L)) = Except.ok (unlinkedRecs S id i,
      S.L.updPtr (S.L.cells i).prev fun q => { q with next := (S.L.cells i).next }) := by
    unfold unlinkedRecs
    by_cases hp : (S.L.cells i).prev < 0
    · rw [if_pos hp, if_pos hp, Block.modify_eq hid, Run.ok_bind, Block.updPtr_of_neg _ _ hp]
      rfl
    · rw [if_neg hp, if_neg hp, Block.modify_eq (hprev hp), Run.ok_bind,
        Block.updPtr_of_nonneg _ _ hp]
      rfl
  have hnext' : (S.L.cells i).next ≠ -1 → (S.L.updPtr (S.L.cells i).prev
      fun q => { q with next := (S.L.cells i).next }).InB (S.L.cells i).next := fun hne => by
    rw [Block.inB_congr (Block.size_updPtr _ _ _)]
    exact hnext hne
  rw [unlinkOcc, Block.read_eq hi, Run.ok_bind, if_pos hnull, hfirst, Run.ok_bind,
    Block.modify_ptr_eq hnext', Run.ok_bind]
  rfl

/-- `unlinkOcc` takes a position out of the list of its record. -/
theorem unlinkOcc_eq (hhash : HashInv S.Hash S.Rec S.Rec.InB) (hlists : ListInv S.Rec S.L lab)
    (hid : S.Rec.InB id) (hi : lab i = some (S.Rec.cells id).pair) :
    ∃ recs' L', unlinkOcc S id i = .ok { S with Rec := recs', L := L' } ∧
      SameButCpos S.Rec recs' ∧ L'.size = S.L.size ∧
      ListInv recs' L' (Function.update lab i none) := by
  have hnull := prev_ne_nullFreq hhash hlists hid hi
  have hid0 := hid.1
  obtain ⟨l, e, hs, hnd, hm⟩ := hlists.list id hid
  have hin : ∀ q ∈ l, S.L.InB q := fun q hq => hlists.inB_of_lab ((hm q).mp hq)
  obtain ⟨l₁, l₂, rfl⟩ := List.append_of_mem ((hm i).mpr hi)
  have hprevin : ¬ (S.L.cells i).prev < 0 → S.L.InB (S.L.cells i).prev := fun hn =>
    hin _ (List.mem_append_left _ (hs.pv_mem_or.resolve_left (by omega)))
  have hnextin : (S.L.cells i).next ≠ -1 → S.L.InB (S.L.cells i).next := fun hn =>
    hin _ (List.mem_append_right _ (List.mem_cons_of_mem _ (hs.nx_mem_or.resolve_left hn)))
  have hsame := sameButCpos_unlinkedRecs S id i
  refine ⟨_, _, unlinkOcc_run hid (hlists.inB_of_lab hi) hnull hprevin hnextin, hsame,
    size_unlinkedList _ _, ?_⟩
  exact hlists.unlink hid hi hsame.1 (fun j => by rw [hsame.2 j]) (cpos_unlinkedRecs S id i)
    (size_unlinkedList _ _) (fun q hq => next_unlinkedList _ _ hq) fun q hq =>
    prev_unlinkedList _ _ hq

/-- After a change of `lab` at a position whose pair is `pr`, the other pairs count as before. -/
theorem cnt_none_of_ne {n : Int} (hr : 0 ≤ i ∧ i < n) (hi : lab i = some pr) {q : Tpair}
    (hne : q ≠ pr) : cnt (Function.update lab i none) n q = cnt lab n q := by
  have := cnt_update lab q hr.1 hr.2 none
  rw [hi, if_neg fun he => hne (Option.some_inj.mp he).symm, if_neg (by simp)] at this
  omega

theorem cnt_none_self {n : Int} (hr : 0 ≤ i ∧ i < n) (hi : lab i = some pr) :
    cnt (Function.update lab i none) n pr + 1 = cnt lab n pr := by
  have := cnt_update lab pr hr.1 hr.2 none
  rw [if_pos hi, if_neg (by simp)] at this
  omega

/-- "remove bc from L": the head of the list of `oid` is removed. -/
theorem unlinkHead_keeps (h : IndexInv S lab (fun q => q = P) 0) (hoid : S.Rec.InB oid)
    (hP : (S.Rec.cells oid).pair = P) (hc : (S.Rec.cells oid).cpos ≠ -1) :
    ∃ recs' L', unlinkHead S oid (S.Rec.cells oid).cpos = .ok { S with Rec := recs', L := L' } ∧
      SameButCpos S.Rec recs' ∧ L'.size = S.L.size ∧
      IndexInv { S with Rec := recs', L := L' }
        (Function.update lab (S.Rec.cells oid).cpos none) (fun q => q = P) 0 := by
  obtain ⟨hcin, hprev, hlab⟩ := h.head_prev hoid hc
  have hoid0 := hoid.1
  have hpneg : (S.L.cells (S.Rec.cells oid).cpos).prev < 0 := by omega
  -- this is the general removal, with the back pointer written out
  obtain ⟨recs', L', hrun, hsame, hL, hlists⟩ := unlinkOcc_eq h.hash h.lists hoid hlab
  refine ⟨recs', L', ?_, hsame, hL, ?_⟩
  · have hnull := prev_ne_nullFreq h.hash h.lists hoid hlab
    simp only [unlinkOcc, Block.read_eq hcin, Run.ok_bind, ne_eq, hnull, not_false_eq_true,
      ↓reduceIte, hpneg, Block.modify_eq hoid, Run.pure_bind] at hrun
    rw [hprev] at hrun
    rw [← hrun, unlinkHead]
    simp only [Block.read_eq hcin, Run.ok_bind, Block.modify_eq hoid, ne_eq]
  · refine of_sameButCpos h.hash h.heap h.recSize (by rw [hL]; exact h.room) hsame hlists
      fun j hj hno => ?_
    rw [h.freq j hj hno, hL, cnt_none_of_ne (h.range hlab) hlab (by rw [hP]; exact hno)]

/-- The rest of "remove occ" when the pair keeps its record. -/
theorem remove_kept (out : Tpair → Prop) (hhash : HashInv S.Hash S.Rec S.Rec.InB)
    (hheap : HeapInv S.Heap S.Rec (fun id => S.Rec.InB id ∧ ¬ out (S.Rec.cells id).pair) 0)
    (hlists : ListInv S.Rec S.L lab) (hsize : 0 ≤ S.Rec.size)
    (hroom : S.L.size ≤ S.Heap.sqrtu * S.Heap.sqrtu) (hid : S.Rec.InB id)
    (hi : lab i = some (S.Rec.cells id).pair)
    (hfreq : ∀ j, S.Rec.InB j → ¬ out (S.Rec.cells j).pair →
      (S.Rec.cells j).freq = cnt (Function.update lab i none) S.L.size (S.Rec.cells j).pair) :
    ∃ S', unlinkOcc S id i = .ok S' ∧ IndexInv S' (Function.update lab i none) out 0 ∧
      SameButCpos S.Rec S'.Rec ∧ S'.L.size = S.L.size := by
  obtain ⟨recs', L', hrun, hsame, hL, hlists'⟩ := unlinkOcc_eq hhash hlists hid hi
  refine ⟨_, hrun, ?_, hsame, hL⟩
  exact of_sameButCpos hhash hheap hsize (by rw [hL]; exact hroom) hsame hlists' fun j hj hno => by
    rw [hfreq j hj hno, hL]

/-- What "remove occ" does to the index: position `i` has lost its pair `pr`, the record `oid` of
the pair `P` is in place, and at most the record of `pr` is gone, with its last position. -/
structure RemovedOcc (S S' : PairStore) (lab : Int → Option Tpair) (oid i : Int) (pr P : Tpair) :
    Prop where
  inv : IndexInv S' (Function.update lab i none) (fun q => q = P) 0
  oid_inB : S'.Rec.InB oid
  oid_pair : (S'.Rec.cells oid).pair = P
  sub : ∀ q, HasRec S'.Rec q → HasRec S.Rec q
  keep : ∀ q, HasRec S.Rec q → HasRec S'.Rec q ∨
    (q = pr ∧ pr ≠ P ∧ ∀ r, lab r = some pr → r = i)
  size : S'.L.size = S.L.size

/-- A pair that occurs once has one position. -/
theorem eq_of_freq_one (h : IndexInv S lab out 0) (hid : S.Rec.InB id)
    (hno : ¬ out (S.Rec.cells id).pair) (hf : (S.Rec.cells id).freq = 1) {p q : Int}
    (hp : lab p = some (S.Rec.cells id).pair) (hq : lab q = some (S.Rec.cells id).pair) :
    p = q := by
  by_contra hpq
  have h₂ := two_le_cnt (fun r hr => h.range hr) hp hq hpq
  have h₃ := h.freq id hid hno
  omega

/-- The `removeRecord` of a `decFreq` on a pair with one position: `S₁` is the store that it is
called with, where neither `P` nor this pair is in the heap. -/
structure LastRemoval (S S₁ S' : PairStore) (lab : Int → Option Tpair) (id : Int) (P : Tpair) :
    Prop where
  before : IndexInv S₁ lab (fun q => q = P ∨ q = (S.Rec.cells id).pair) 0
  set : FreqSet S.Rec S₁.Rec id 0
  run : removeRecord S₁ id = .ok S'
  after : IndexInv S' lab (fun q => q = P ∨ q = (S.Rec.cells id).pair) 0
  size : S'.Rec.size = S.Rec.size - 1
  cells : ∀ j, S'.Rec.cells j =
    if j = id then S₁.Rec.cells (S.Rec.size - 1) else S₁.Rec.cells j
  length : S'.L.size = S.L.size

/-- `decFreq` on a pair with one position takes it out of the heap and removes its record. -/
theorem decHeap_last (h : IndexInv S lab (fun q => q = P) 0) (hoid : S.Rec.InB oid)
    (hP : (S.Rec.cells oid).pair = P) (hid : S.Rec.InB id) (hne : (S.Rec.cells id).pair ≠ P)
    (hf : (S.Rec.cells id).freq = 1) (hlast : oid ≠ S.Rec.size - 1) :
    ∃ H' recs' S', decHeap S.Heap S.Rec id = .ok (H', recs') ∧
      LastRemoval S { S with Rec := recs', Heap := H' } S' lab id P := by
  obtain ⟨H', recs', hrun, hheap, hset, hs⟩ := h.heap.decHeap_keeps id ⟨hid, hne⟩
  have hin : ∀ j, recs'.InB j ↔ S.Rec.InB j := Block.inB_congr hset.size
  have hinj : ∀ j, S.Rec.InB j → (S.Rec.cells j).pair = (S.Rec.cells id).pair → j = id :=
    fun j hj he => h.lists.inj j id hj hid he
  -- the state between the heap and the removal, with the pair of `id` out of the heap
  have h₁ : IndexInv { S with Rec := recs', Heap := H' } lab
      (fun q => q = P ∨ q = (S.Rec.cells id).pair) 0 := by
    refine ⟨?_, hheap.live_congr fun j => ?_, h.lists.congr hset.size hset.pair hset.cpos,
      fun j hj hno => ?_, by dsimp only; rw [hset.size]; exact h.recSize, by
        dsimp only; rw [hs]; exact h.room⟩
    · exact (h.hash.congr (fun j hj => (hin j).mpr hj) (fun j _ => hset.pair j)
        fun j _ => hset.kpos j).live_congr hin
    · dsimp only
      rw [hin, hset.pair, not_or, hf]
      constructor
      · rintro ⟨hj, hjP, hjid⟩
        exact ⟨⟨hj, hjP⟩, fun he => absurd (by rw [he]) hjid⟩
      · rintro ⟨⟨hj, hjP⟩, hjid⟩
        exact ⟨hj, hjP, fun he => by have := hjid (hinj j hj he); omega⟩
    · dsimp only at hj hno ⊢
      rw [hset.pair, not_or] at hno
      have hji : j ≠ id := fun he => hno.2 (by rw [he])
      rw [hset.freq, if_neg hji, hset.pair]
      exact h.freq j ((hin j).mp hj) hno.1
  have hidin := hid.2
  have hid0 := hid.1
  have hoidin := hoid.2
  have hoid0 := hoid.1
  have hlastin : S.Rec.InB (S.Rec.size - 1) := ⟨by omega, by omega⟩
  obtain ⟨S', hrun', hinv, hsize, hcells, hL, -, -, -⟩ := h₁.removeRecord_keeps id
    ((hin id).mpr hid) (Or.inr (hset.pair id))
    (by dsimp only; rw [hset.pair]; exact fun p q => h.eq_of_freq_one hid hne hf)
    (by
      dsimp only
      rw [hset.size, hset.pair]
      rintro hidl (he | he)
      · exact hlast (h.lists.inj oid _ hoid hlastin (hP.trans he.symm))
      · exact hidl (hinj _ hlastin he).symm)
  dsimp only at hsize hcells hL
  rw [hset.size] at hsize hcells
  rw [hf] at hset
  exact ⟨H', recs', S', hrun, h₁, hset, hrun', hinv, hsize, hcells, hL⟩

/-- `decFreq` on a pair with one position: its record disappears. -/
theorem decFreq_last (h : IndexInv S lab (fun q => q = P) 0) (hoid : S.Rec.InB oid)
    (hP : (S.Rec.cells oid).pair = P) (hid : S.Rec.InB id) (hne : (S.Rec.cells id).pair ≠ P)
    (hf : (S.Rec.cells id).freq = 1) (hlast : oid ≠ S.Rec.size - 1) :
    ∃ S', decFreq S id = .ok S' ∧ IndexInv S' lab (fun q => q = P) 0 ∧ S'.Rec.InB oid ∧
      (S'.Rec.cells oid).pair = P ∧ S'.L.size = S.L.size ∧
      (∀ q, HasRec S'.Rec q ↔ HasRec S.Rec q ∧ q ≠ (S.Rec.cells id).pair) := by
  obtain ⟨H', recs', S', hrun, hrem⟩ := h.decHeap_last hoid hP hid hne hf hlast
  have hset := hrem.set
  have hsize := hrem.size
  have hcells := hrem.cells
  have hinj : ∀ j, S.Rec.InB j → (S.Rec.cells j).pair = (S.Rec.cells id).pair → j = id :=
    fun j hj he => h.lists.inj j id hj hid he
  have hoidne : oid ≠ id := fun he => hne (by rw [← he, hP])
  have hidin := hid.2
  have hid0 := hid.1
  have hoidin := hoid.2
  have hoid0 := hoid.1
  have hlastin : S.Rec.InB (S.Rec.size - 1) := ⟨by omega, by omega⟩
  have hcell : ∀ j, (S'.Rec.cells j).pair = if j = id then (S.Rec.cells (S.Rec.size - 1)).pair
      else (S.Rec.cells j).pair := fun j => by
    rw [hcells]
    split <;> rw [hset.pair]
  have hgone : ∀ j, S'.Rec.InB j → (S'.Rec.cells j).pair ≠ (S.Rec.cells id).pair := by
    intro j hj
    have hj₁ := hj.1
    have hj₂ := hj.2
    rw [hcell]
    by_cases hji : j = id
    · rw [if_pos hji]
      exact fun he => by have := hinj _ hlastin he; omega
    · rw [if_neg hji]
      exact fun he => hji (hinj j ⟨hj₁, by omega⟩ he)
  refine ⟨S', ?_, hrem.after.out_congr _ fun j hj => ?_, ⟨hoid0, by omega⟩, ?_, hrem.length,
    fun q => ?_⟩
  · rw [decFreq, Block.read_eq hid, Run.ok_bind, hrun, Run.ok_bind]
    dsimp only
    rw [if_pos (by omega)]
    exact hrem.run
  · simp only [hgone j hj, or_false]
  · rw [hcell, if_neg hoidne, hP]
  · constructor
    · rintro ⟨j, hj, rfl⟩
      have hj₁ := hj.1
      have hj₂ := hj.2
      refine ⟨?_, hgone j hj⟩
      rw [hcell]
      split
      · exact ⟨_, hlastin, rfl⟩
      · exact ⟨j, ⟨hj₁, by omega⟩, rfl⟩
    · rintro ⟨⟨j, hj, rfl⟩, hq⟩
      have hj₁ := hj.1
      have hj₂ := hj.2
      have hji : j ≠ id := fun he => hq (by rw [he])
      by_cases hjl : j = S.Rec.size - 1
      · exact ⟨id, ⟨hid0, by omega⟩, by rw [hcell, if_pos rfl, hjl]⟩
      · exact ⟨j, ⟨hj₁, by omega⟩, by rw [hcell, if_neg hji]⟩

/-- A removal that keeps all records, and each at its index. -/
theorem RemovedOcc.of_kept (hoid : S.Rec.InB oid) (hP : (S.Rec.cells oid).pair = P)
    (hinv : IndexInv S' (Function.update lab i none) (fun q => q = P) 0)
    (hsize : S'.Rec.size = S.Rec.size)
    (hpair : ∀ j, (S'.Rec.cells j).pair = (S.Rec.cells j).pair) (hL : S'.L.size = S.L.size) :
    RemovedOcc S S' lab oid i pr P where
  inv := hinv
  oid_inB := (Block.inB_congr hsize oid).mpr hoid
  oid_pair := (hpair oid).trans hP
  sub q hq := (hasRec_congr hsize hpair q).mp hq
  keep q hq := Or.inl ((hasRec_congr hsize hpair q).mpr hq)
  size := hL

/-- Position `i` of a pair without a record loses it. -/
theorem forget (h : IndexInv S lab out 0) (hi : lab i = some pr) (hno : ¬ HasRec S.Rec pr) :
    IndexInv S (Function.update lab i none) out 0 := by
  refine ⟨h.hash, h.heap, h.lists.forget hi hno, fun j hj hjno => ?_, h.recSize, h.room⟩
  rw [h.freq j hj hjno, cnt_none_of_ne (h.range hi) hi]
  exact fun he => hno ⟨j, hj, he⟩

/-- "remove occ" of the last position of a pair: the record goes and the position is marked. -/
theorem removeOcc_last (h : IndexInv S lab (fun q => q = P) 0) (hoid : S.Rec.InB oid)
    (hP : (S.Rec.cells oid).pair = P) (hid : S.Rec.InB id) (hne : (S.Rec.cells id).pair ≠ P)
    (hi : lab i = some (S.Rec.cells id).pair) (hf : (S.Rec.cells id).freq = 1)
    (hlast : oid ≠ S.Rec.size - 1) :
    ∃ S', (do let S ← decFreq S id; unlinkOcc S id i) = .ok S' ∧
      RemovedOcc S S' lab oid i (S.Rec.cells id).pair P := by
  obtain ⟨S', hrun, hinv, hoid', hP', hL, hrec⟩ := h.decFreq_last hoid hP hid hne hf hlast
  have hno : ¬ HasRec S'.Rec (S.Rec.cells id).pair := fun hr => ((hrec _).mp hr).2 rfl
  obtain ⟨hnull, -, -⟩ := hinv.lists.untracked i _ hi hno
  refine ⟨S', ?_, hinv.forget hi hno, hoid', hP', fun q hq => ((hrec q).mp hq).1, fun q hq => ?_,
    hL⟩
  · rw [hrun, Run.ok_bind, unlinkOcc, Block.read_eq (hinv.lists.inB_of_lab hi), Run.ok_bind,
      if_neg (not_not.mpr hnull)]
    rfl
  · by_cases hq' : q = (S.Rec.cells id).pair
    · exact Or.inr ⟨hq', hne, fun r hr => h.eq_of_freq_one hid hne hf hr hi⟩
    · exact Or.inl ((hrec q).mpr ⟨hq, hq'⟩)

/-- "remove occ" of one of several positions of a pair. -/
theorem removeOcc_more (h : IndexInv S lab (fun q => q = P) 0) (hoid : S.Rec.InB oid)
    (hP : (S.Rec.cells oid).pair = P) (hid : S.Rec.InB id) (hne : (S.Rec.cells id).pair ≠ P)
    (hi : lab i = some (S.Rec.cells id).pair) (hf : (S.Rec.cells id).freq ≠ 1) :
    ∃ S', (do let S ← decFreq S id; unlinkOcc S id i) = .ok S' ∧
      RemovedOcc S S' lab oid i (S.Rec.cells id).pair P := by
  obtain ⟨H', recs', hrun, hheap, hset, hs⟩ := h.heap.decHeap_keeps id ⟨hid, hne⟩
  have h1 := h.heap.freq_pos id ⟨hid, hne⟩
  have hfreq := h.freq id hid hne
  have hone := cnt_none_self (h.range hi) hi
  have hin : ∀ j, recs'.InB j ↔ S.Rec.InB j := Block.inB_congr hset.size
  have hdec : decFreq S id = .ok { S with Rec := recs', Heap := H' } := by
    rw [decFreq, Block.read_eq hid, Run.ok_bind, hrun, Run.ok_bind]
    dsimp only
    rw [if_neg (by omega)]
    rfl
  obtain ⟨S', hrun', hinv, hsame, hL⟩ := remove_kept
    (S := { S with Rec := recs', Heap := H' }) (fun q => q = P)
    ((h.hash.congr (fun j hj => (hin j).mpr hj) (fun j _ => hset.pair j)
      fun j _ => hset.kpos j).live_congr hin)
    (hheap.live_congr fun j => by
      dsimp only
      rw [hin, hset.pair]
      exact ⟨fun hj => ⟨hj, fun _ => by omega⟩, fun hj => hj.1⟩)
    (h.lists.congr hset.size hset.pair hset.cpos)
    (by dsimp only; rw [hset.size]; exact h.recSize)
    (by dsimp only; rw [hs]; exact h.room) ((hin id).mpr hid)
    (by dsimp only; rw [hset.pair]; exact hi)
    (fun j hj hjno => by
      dsimp only at hj hjno ⊢
      rw [hset.pair] at hjno ⊢
      rw [hset.freq]
      by_cases hji : j = id
      · rw [if_pos hji, hji]
        omega
      · rw [if_neg hji, h.freq j ((hin j).mp hj) hjno, cnt_none_of_ne (h.range hi) hi]
        exact fun he => hji (h.lists.inj j id ((hin j).mp hj) hid he))
  refine ⟨S', by rw [hdec, Run.ok_bind, hrun'], .of_kept hoid hP hinv (hsame.1.trans hset.size)
    (fun j => ?_) hL⟩
  rw [hsame.2 j]
  exact hset.pair j

/-- "remove occ": position `i` loses its pair.  `hlast` is what keeps the record of the pair being
replaced where it is. -/
theorem removeOcc_meets (h : IndexInv S lab (fun q => q = P) 0) (hoid : S.Rec.InB oid)
    (hP : (S.Rec.cells oid).pair = P) (hi : lab i = some pr)
    (hlast : pr ≠ P → HasRec S.Rec pr → (∀ r, lab r = some pr → r = i) → oid ≠ S.Rec.size - 1) :
    Run.Meets ProbeOnly (removeOcc S oid pr i)
      (fun S' => RemovedOcc S S' lab oid i pr P) := by
  rw [removeOcc_eq, Run.meets_bind]
  refine (h.hash.searchHash_meets pr).mono fun id hid => ?_
  rcases hid with ⟨hid, rfl⟩ | ⟨rfl, hno⟩
  · have hid0 := hid.1
    rw [if_pos (by omega)]
    by_cases hio : id = oid
    · -- the pair being replaced itself
      subst hio
      rw [if_neg (by simp), Run.pure_bind]
      obtain ⟨S', hrun, hinv, hsame, hL⟩ := remove_kept (fun q => q = P) h.hash h.heap
        h.lists h.recSize h.room hid hi fun j hj hno => by
          rw [h.freq j hj hno, cnt_none_of_ne (h.range hi) hi (by rw [hP]; exact hno)]
      rw [hrun]
      exact .of_kept hid hP hinv hsame.1 (fun j => by rw [hsame.2 j]) hL
    · have hne : (S.Rec.cells id).pair ≠ P := fun he =>
        hio (h.lists.inj id oid hid hoid (he.trans hP.symm))
      rw [if_pos hio]
      by_cases hf : (S.Rec.cells id).freq = 1
      · obtain ⟨S', hrun, hrem⟩ := h.removeOcc_last hoid hP hid hne hi hf
          (hlast hne ⟨id, hid, rfl⟩ fun r hr => h.eq_of_freq_one hid hne hf hr hi)
        rw [hrun]
        exact hrem
      · obtain ⟨S', hrun, hrem⟩ := h.removeOcc_more hoid hP hid hne hi hf
        rw [hrun]
        exact hrem
  · -- the pair has no record
    rw [if_neg (by simp)]
    exact .of_kept hoid hP (h.forget hi fun ⟨j, hj, he⟩ => hno j hj he) rfl (fun _ => rfl) rfl

/-! ## Creating an occurrence -/

theorem cnt_some_of_ne {n : Int} (hr : 0 ≤ i ∧ i < n) (hi : lab i = none) {q : Tpair}
    (hne : q ≠ pr) : cnt (Function.update lab i (some pr)) n q = cnt lab n q := by
  have := cnt_update lab q hr.1 hr.2 (some pr)
  rw [hi, if_neg (by simp), if_neg fun he => hne (Option.some_inj.mp he).symm] at this
  omega

theorem cnt_some_self {n : Int} (hr : 0 ≤ i ∧ i < n) (hi : lab i = none) :
    cnt (Function.update lab i (some pr)) n pr = cnt lab n pr + 1 := by
  have := cnt_update lab pr hr.1 hr.2 (some pr)
  rw [hi, if_neg (by simp), if_pos rfl] at this
  omega

/-- `linkHead` writes the new head and, unless the list is new, the old one. -/
theorem linkHead_eq (id i : Int) (hid : S.Rec.InB id) (hi : S.L.InB i) (fresh : Bool)
    (hc : fresh = false → S.L.InB (S.Rec.cells id).cpos) :
    ∃ recs' L', linkHead S id i fresh = .ok { S with Rec := recs', L := L' } ∧
      SameButCpos S.Rec recs' ∧
      (∀ j, (recs'.cells j).cpos = if j = id then i else (S.Rec.cells j).cpos) ∧
      L'.size = S.L.size ∧
      (∀ q, (L'.cells q).next = if q = i then (if fresh then -1 else (S.Rec.cells id).cpos)
        else (S.L.cells q).next) ∧
      ∀ q, 0 ≤ q → (L'.cells q).prev = if q = i then -id - 1
        else if q = (if fresh then -1 else (S.Rec.cells id).cpos) then i
        else (S.L.cells q).prev := by
  cases fresh with
  | true =>
    have hi' : (S.L.upd i fun l => { l with next := -1 }).InB i := hi
    simp only [linkHead, Block.read_eq hid, Run.ok_bind, ↓reduceIte, Block.modify_eq hi,
      Block.modify_eq hi', Block.modify_eq hid]
    refine ⟨_, _, rfl, SameButCpos.upd _ _ _, cpos_upd _ _ _, rfl, fun q => ?_, fun q hq => ?_⟩
    · grind [Block.cells_upd]
    · grind [Block.cells_upd]
  | false =>
    have hc₁ : (S.L.upd i fun l => { l with next := (S.Rec.cells id).cpos }).InB
      (S.Rec.cells id).cpos := hc rfl
    have hi' : ((S.L.upd i fun l => { l with next := (S.Rec.cells id).cpos }).upd
      (S.Rec.cells id).cpos fun l => { l with prev := i }).InB i := hi
    simp only [linkHead, Block.read_eq hid, Run.ok_bind, Bool.false_eq_true, ↓reduceIte,
      Block.modify_eq hi, Block.modify_eq hc₁, Block.modify_eq hi', Block.modify_eq hid]
    refine ⟨_, _, rfl, SameButCpos.upd _ _ _, cpos_upd _ _ _, rfl, fun q => ?_, fun q hq => ?_⟩
    · grind [Block.cells_upd]
    · grind [Block.cells_upd]

/-- What "create occ" does to the index. -/
structure CreatedOcc (S S' : PairStore) (lab : Int → Option Tpair) (out : Tpair → Prop) (i : Int)
    (pr : Tpair) : Prop where
  inv : IndexInv S' (Function.update lab i (some pr)) out 0
  stay : ∀ j, S.Rec.InB j → S'.Rec.InB j ∧ (S'.Rec.cells j).pair = (S.Rec.cells j).pair
  recs : ∀ q, HasRec S'.Rec q ↔ HasRec S.Rec q ∨ q = pr
  size : S'.L.size = S.L.size

/-- "create occ" for a pair that has a record. -/
theorem create_known (h : IndexInv S lab out 0) (hi : lab i = none) (hi0 : 0 ≤ i)
    (hi1 : i + 1 < S.L.size) (hid : S.Rec.InB id) (hno : ¬ out (S.Rec.cells id).pair) :
    ∃ S', (do let S ← incFreqS S id; linkHead S id i false) = .ok S' ∧
      CreatedOcc S S' lab out i (S.Rec.cells id).pair := by
  obtain ⟨H', recs', hrun, hheap, hset, hs⟩ := h.heap.incFreq_keeps id ⟨hid, hno⟩
    fun ids hnd hids => h.capacity hnd hids
  have hin : ∀ j, recs'.InB j ↔ S.Rec.InB j := Block.inB_congr hset.size
  obtain ⟨l, e, hseg, hnd, hm⟩ := h.lists.list id hid
  have hcpos : (S.Rec.cells id).cpos ≠ -1 := by
    have h₁ := h.heap.freq_pos id ⟨hid, hno⟩
    rw [h.freq id hid hno, cnt_eq_length hnd hm fun p hp => h.range hp] at h₁
    intro he
    have hl : l = [] := (hseg.head_eq_target_iff fun hmem => by
      have := (h.range ((hm _).mp hmem)).1
      omega).mp he
    rw [hl] at h₁
    simp at h₁
  have hhash : HashInv S.Hash recs' recs'.InB :=
    (h.hash.congr (fun j hj => (hin j).mpr hj) (fun j _ => hset.pair j)
      fun j _ => hset.kpos j).live_congr hin
  have hlists : ListInv recs' S.L lab := h.lists.congr hset.size hset.pair hset.cpos
  obtain ⟨recs₂, L₂, hrun₂, hsame, hc₂, hL₂, hnext, hprev⟩ :=
    linkHead_eq (S := { S with Rec := recs', Heap := H' }) id i
      ((hin id).mpr hid) ⟨hi0, by dsimp only; omega⟩ false fun _ => by
        dsimp only
        rw [hset.cpos]
        exact (h.head_prev hid hcpos).1
  simp only [Bool.false_eq_true, ↓reduceIte] at hnext hprev
  have hpair₂ : ∀ j, (recs₂.cells j).pair = (recs'.cells j).pair := fun j => by rw [hsame.2 j]
  refine ⟨{ S with Rec := recs₂, Heap := H', L := L₂ }, ?_, ?_, fun j hj => ?_, fun q => ?_, hL₂⟩
  · rw [incFreqS, hrun]
    exact hrun₂
  · have hlink := ListInv.link recs' recs₂ S.L L₂ id i (recs'.cells id).cpos hlists.range hlists.inj
      (fun j hj _ => hlists.list j hj) hlists.untracked ((hin id).mpr hid)
      (by rw [hset.cpos]; exact hseg) hnd (by rw [hset.pair]; exact hm) hi hi0 hi1 hsame.1 hpair₂
      hc₂ hL₂ hnext hprev
    rw [hset.pair] at hlink
    refine of_sameButCpos (S := { S with Rec := recs', Heap := H' }) hhash
      (hheap.live_congr fun j => ?_) (by dsimp only; rw [hset.size]; exact h.recSize)
      (by rw [hL₂]; dsimp only; rw [hs]; exact h.room) hsame hlink fun j hj hjno => ?_
    · dsimp only
      rw [hin, hset.pair]
    · dsimp only at hj hjno hL₂ ⊢
      rw [hset.pair] at hjno ⊢
      rw [hset.freq, hL₂]
      have hr : 0 ≤ i ∧ i < S.L.size := ⟨hi0, by omega⟩
      by_cases hji : j = id
      · rw [if_pos hji, hji, cnt_some_self hr hi, h.freq id hid hno]
        omega
      · rw [if_neg hji, cnt_some_of_ne hr hi, h.freq j ((hin j).mp hj) hjno]
        exact fun he => hji (h.lists.inj j id ((hin j).mp hj) hid he)
  · dsimp only
    rw [hpair₂, hset.pair]
    exact ⟨⟨hj.1, by rw [hsame.1]; exact ((hin j).mpr hj).2⟩, rfl⟩
  · dsimp only
    rw [hasRec_congr hsame.1 hpair₂, hasRec_congr hset.size hset.pair]
    exact ⟨Or.inl, fun hq => hq.elim (fun hq => hq) fun hq => ⟨id, hid, hq.symm⟩⟩

/-- The records are followed by a new one for the pair `pr`, of frequency 1. -/
structure Extended (recs recs' : Block Trecord) (pr : Tpair) : Prop where
  inB : ∀ j, recs'.InB j ↔ recs.InB j ∨ j = recs.size
  pair_new : (recs'.cells recs.size).pair = pr
  freq_new : (recs'.cells recs.size).freq = 1
  pair : ∀ j, recs.InB j → (recs'.cells j).pair = (recs.cells j).pair
  freq : ∀ j, recs.InB j → (recs'.cells j).freq = (recs.cells j).freq
  cpos : ∀ j, recs.InB j → (recs'.cells j).cpos = (recs.cells j).cpos

theorem Extended.new_inB {recs recs' : Block Trecord} (h : Extended recs recs' pr) :
    recs'.InB recs.size := (h.inB _).mpr (Or.inr rfl)

theorem Extended.hasRec_iff {recs recs' : Block Trecord} (h : Extended recs recs' pr) (q : Tpair) :
    HasRec recs' q ↔ HasRec recs q ∨ q = pr := by
  constructor
  · rintro ⟨j, hj, rfl⟩
    rcases (h.inB j).mp hj with hj' | rfl
    · exact Or.inl ⟨j, hj', (h.pair j hj').symm⟩
    · exact Or.inr h.pair_new
  · rintro (⟨j, hj, rfl⟩ | rfl)
    · exact ⟨j, (h.inB j).mpr (Or.inl hj), h.pair j hj⟩
    · exact ⟨_, h.new_inB, h.pair_new⟩

/-- `insertRecord` appends a record for a new pair and enters it in the table and in the heap. -/
theorem insertRecord_meets (h : IndexInv S lab out 0) (hout : ¬ out pr)
    (hno : ∀ j, S.Rec.InB j → (S.Rec.cells j).pair ≠ pr) :
    Run.Meets ProbeOnly (insertRecord S pr) (fun s => ∃ recs hash heap,
      s = (S.Rec.size, { S with Rec := recs, Hash := hash, Heap := heap }) ∧
      Extended S.Rec recs pr ∧ HashInv hash recs recs.InB ∧
      HeapInv heap recs (fun j => recs.InB j ∧ ¬ out (recs.cells j).pair) 0 ∧
      heap.sqrtu = S.Heap.sqrtu) := by
  have hsz := h.recSize
  have hnew : ¬ S.Rec.InB S.Rec.size := fun hn => by have := hn.2; omega
  generalize hrec0 : S.Rec.push { pair := pr, freq := 0, cpos := 0, hpos := 0, kpos := 0 } = recs₀
  have hnewpair : (recs₀.cells S.Rec.size).pair = pr := by
    rw [← hrec0, Block.cells_push, if_pos rfl]
  have hold : ∀ j, S.Rec.InB j → recs₀.cells j = S.Rec.cells j := fun j hj => by
    rw [← hrec0, Block.cells_push, if_neg]
    rintro rfl
    exact hnew hj
  have hin₀ : ∀ j, recs₀.InB j ↔ S.Rec.InB j ∨ j = S.Rec.size := fun j => by
    unfold Block.InB
    rw [← hrec0, Block.size_push]
    omega
  have hhash₀ : HashInv S.Hash recs₀ S.Rec.InB :=
    h.hash.congr (fun j hj => (hin₀ j).mpr (Or.inl hj)) (fun j hj => by rw [hold j hj])
      fun j hj => by rw [hold j hj]
  rw [insertRecord]
  simp only [Run.meets_bind, hrec0]
  refine (hhash₀.insertHash_meets ((hin₀ _).mpr (Or.inr rfl)) hnew fun j hj he =>
    hno j hj (by rw [← hold j hj, he, hnewpair])).mono fun s hs => ?_
  obtain ⟨hhash₁, hsame₁⟩ := hs
  have hin₁ : ∀ j, s.2.InB j ↔ S.Rec.InB j ∨ j = S.Rec.size := fun j =>
    (Block.inB_congr hsame₁.1 j).trans (hin₀ j)
  -- the old records differ in `kpos` only
  have hfield : ∀ j, S.Rec.InB j → (s.2.cells j).freq = (S.Rec.cells j).freq ∧
      (s.2.cells j).hpos = (S.Rec.cells j).hpos ∧ (s.2.cells j).cpos = (S.Rec.cells j).cpos ∧
      (s.2.cells j).pair = (S.Rec.cells j).pair := fun j hj => by
    rw [← hold j hj, hsame₁.2 j]
    exact ⟨rfl, rfl, rfl, rfl⟩
  have hheap₁ : HeapInv S.Heap s.2
      (fun j => S.Rec.InB j ∧ ¬ out (S.Rec.cells j).pair) 0 :=
    h.heap.congr (fun j hj => (hin₁ j).mpr (Or.inl hj.1)) (fun j hj => (hfield j hj.1).1)
      fun j hj => (hfield j hj.1).2.1
  obtain ⟨H', recs', hrun, hheap, hset, hsq⟩ := hheap₁.insertHeap_keeps S.Rec.size
    (fun hn => hnew hn.1) ((hin₁ _).mpr (Or.inr rfl))
  rw [hrun]
  simp only [Run.meets_ok, Run.meets_pure]
  have hext : Extended S.Rec recs' pr :=
    { inB := fun j => (Block.inB_congr hset.size j).trans (hin₁ j)
      pair_new := by rw [hset.pair, hsame₁.pair_eq, hnewpair]
      freq_new := by rw [hset.freq, if_pos rfl]
      pair := fun j hj => by rw [hset.pair]; exact (hfield j hj).2.2.2
      freq := fun j hj => by
        rw [hset.freq, if_neg fun he : j = S.Rec.size => hnew (he ▸ hj)]
        exact (hfield j hj).1
      cpos := fun j hj => by rw [hset.cpos]; exact (hfield j hj).2.2.1 }
  refine ⟨recs', s.1, H', rfl, hext, ?_, hheap.live_congr fun j => ?_, hsq⟩
  · exact (hhash₁.congr (fun j hj => (hext.inB j).mpr hj) (fun j _ => hset.pair j)
      fun j _ => hset.kpos j).live_congr hext.inB
  · rw [hext.inB]
    constructor
    · rintro ⟨hj | rfl, hjo⟩
      · rw [hext.pair j hj] at hjo
        exact Or.inl ⟨hj, hjo⟩
      · exact Or.inr rfl
    · rintro (⟨hj, hjo⟩ | rfl)
      · exact ⟨Or.inl hj, by rw [hext.pair j hj]; exact hjo⟩
      · exact ⟨Or.inr rfl, by rw [hext.pair_new]; exact hout⟩

/-- "create occ" for a pair without a record: no position carries it yet. -/
theorem create_new (h : IndexInv S lab out 0) (hi : lab i = none) (hi0 : 0 ≤ i)
    (hi1 : i + 1 < S.L.size) (hout : ¬ out pr) (hno : ∀ j, S.Rec.InB j → (S.Rec.cells j).pair ≠ pr)
    (hfresh : ∀ q, lab q ≠ some pr) :
    Run.Meets ProbeOnly (do let s ← insertRecord S pr; linkHead s.2 s.1 i true)
      (fun S' => CreatedOcc S S' lab out i pr) := by
  rw [Run.meets_bind]
  refine (h.insertRecord_meets hout hno).mono ?_
  rintro _ ⟨recs', hash, heap, rfl, hext, hhash, hheap, hsq⟩
  obtain ⟨recs₂, L₂, hrun₂, hsame, hc₂, hL₂, hnext, hprev⟩ :=
    linkHead_eq (S := { S with Rec := recs', Hash := hash, Heap := heap }) S.Rec.size i
      hext.new_inB ⟨hi0, by dsimp only; omega⟩ true fun hf => by simp at hf
  rw [hrun₂]
  simp only [↓reduceIte] at hnext hprev
  have hpair₂ : ∀ j, (recs₂.cells j).pair = (recs'.cells j).pair := fun j => by rw [hsame.2 j]
  -- the old records keep their lists
  have hlist : ∀ j, recs'.InB j → j ≠ S.Rec.size → OccList recs' S.L lab j := fun j hj hjn => by
    have hj' := ((hext.inB j).mp hj).resolve_right hjn
    exact ListInv.OccList.congr (h.lists.list j hj') (hext.cpos j hj') (hext.pair j hj')
      (fun _ _ => ⟨rfl, rfl⟩) fun _ => Iff.rfl
  have hlink := ListInv.link recs' recs₂ S.L L₂ S.Rec.size i (-1) h.lists.range hhash.inj hlist
    (fun p q hp hq => h.lists.untracked p q hp fun hr => hq ((hext.hasRec_iff q).mpr (Or.inl hr)))
    hext.new_inB (seg_nil.mpr ⟨rfl, rfl⟩) List.nodup_nil
    (fun p => by rw [hext.pair_new]; simp [hfresh p]) hi hi0 hi1 hsame.1 hpair₂ hc₂ hL₂ hnext hprev
  rw [hext.pair_new] at hlink
  have hnew := hext.new_inB
  refine ⟨?_, fun j hj => ?_, fun q => ?_, hL₂⟩
  · refine of_sameButCpos (S := { S with Rec := recs', Hash := hash, Heap := heap }) hhash hheap
      (Int.le_of_lt (Int.lt_of_le_of_lt hnew.1 hnew.2)) ?_ hsame hlink fun j hj hjno => ?_
    · rw [hL₂]
      dsimp only
      rw [hsq]
      exact h.room
    · dsimp only at hj hjno hL₂ ⊢
      rw [hL₂]
      have hr : 0 ≤ i ∧ i < S.L.size := ⟨hi0, by omega⟩
      rcases (hext.inB j).mp hj with hj' | rfl
      · rw [hext.pair j hj'] at hjno ⊢
        rw [hext.freq j hj', h.freq j hj' hjno, cnt_some_of_ne hr hi (hno j hj')]
      · rw [hext.freq_new, hext.pair_new, cnt_some_self hr hi]
        have hz : cnt lab S.L.size pr = 0 := by
          by_contra hnz
          obtain ⟨p, hp⟩ := (cnt_pos_iff fun r hr => h.range hr).mp (Nat.pos_of_ne_zero hnz)
          exact hfresh p hp
        rw [hz]
        rfl
  · dsimp only
    rw [Block.inB_congr hsame.1, hpair₂, hext.pair j hj]
    exact ⟨(hext.inB j).mpr (Or.inl hj), rfl⟩
  · dsimp only
    rw [hasRec_congr hsame.1 hpair₂]
    exact hext.hasRec_iff q

/-- "create occ": position `i` gets the pair `pr`. -/
theorem createOcc_meets (h : IndexInv S lab out 0) (hi : lab i = none) (hi0 : 0 ≤ i)
    (hi1 : i + 1 < S.L.size) (hout : ¬ out pr)
    (htracked : ∀ q, lab q = some pr → HasRec S.Rec pr) :
    Run.Meets ProbeOnly (createOcc S pr i) (fun S' => CreatedOcc S S' lab out i pr) := by
  rw [createOcc, Run.meets_bind]
  refine (h.hash.searchHash_meets pr).mono fun id hid => ?_
  rcases hid with ⟨hid, rfl⟩ | ⟨rfl, hno⟩
  · have hid0 := hid.1
    rw [if_neg (by omega)]
    obtain ⟨S', hrun, hS'⟩ := h.create_known hi hi0 hi1 hid hout
    rw [hrun]
    exact hS'
  · rw [if_pos rfl]
    exact h.create_new hi hi0 hi1 hout hno fun q hq => by
      obtain ⟨j, hj, he⟩ := htracked q hq
      exact hno j hj he

end IndexInv

end Laconic.RePair
