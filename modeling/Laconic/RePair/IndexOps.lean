import Laconic.RePair.IndexInv
import Laconic.RePair.Compress

/-!
# Re-Pair: the operations on the pair index

One specification for each of `removeRecord`, `purgeHeap`, `extractMax` and the "create occ",
"remove occ" and "remove bc from L" parts of `repair`, in terms of the labelling `lab`: an
occurrence is created or removed by changing `lab` at one position.
-/

namespace Laconic.RePair

open Chain

namespace IndexInv

variable {S S' : PairStore} {lab : Int → Option Tpair} {out out' : Tpair → Prop}
  {lo id oid i : Int} {pr : Tpair}

/-- The first position of a record's list points back to the record. -/
theorem head_prev (h : IndexInv S lab out lo) (hid : S.Rec.InB id)
    (hne : (S.Rec.cells id).cpos ≠ -1) :
    S.L.InB (S.Rec.cells id).cpos ∧ (S.L.cells (S.Rec.cells id).cpos).prev = -id - 1 ∧
      lab (S.Rec.cells id).cpos = some (S.Rec.cells id).pair := by
  obtain ⟨l, e, hs, -, hm⟩ := h.lists.list id hid
  have hmem := hs.head_mem_or.resolve_left hne
  have hlab := (hm _).mp hmem
  refine ⟨h.lists.inB_of_lab hlab, ?_, hlab⟩
  cases l with
  | nil => simp at hmem
  | cons p l => rw [hs.1]; exact hs.2.1

/-- Removing record `id` from the hash table and filling the hole with the last record. -/
theorem hash_remove {H : Thash} {recs recs' : Block Trecord} (h : HashInv H recs recs.InB)
    (hid : recs.InB id) (used : Int) (hsize : recs'.size = recs.size - 1)
    (hcells : ∀ j, recs'.cells j = if j = id then recs.cells (recs.size - 1) else recs.cells j) :
    (id = recs.size - 1 → HashInv { H with
        table := H.table.upd (recs.cells id).kpos fun _ => -2, used := used } recs' recs'.InB) ∧
      (id ≠ recs.size - 1 → HashInv { H with
        table := (H.table.upd (recs.cells id).kpos fun _ => -2).upd
          (recs.cells (recs.size - 1)).kpos fun _ => id
        used := used } recs' recs'.InB) := by
  have hdel := h.delete used hid
  have h₁ := hid.1
  have h₂ := hid.2
  constructor
  · intro he
    have hlive : ∀ j, recs'.InB j ↔ recs.InB j ∧ j ≠ id := fun j => by
      unfold Block.InB
      rw [hsize, he]
      omega
    have hsame : ∀ j, recs.InB j ∧ j ≠ id → recs'.cells j = recs.cells j := fun j hj => by
      rw [hcells, if_neg hj.2]
    exact (hdel.congr (fun j hj => (hlive j).mpr hj) (fun j hj => by rw [hsame j hj])
      fun j hj => by rw [hsame j hj]).live_congr hlive
  · intro hne
    have hrel := hdel.relocate id (recs.size - 1) hid (fun hn => hn.2 rfl)
      ⟨⟨by omega, by omega⟩, fun he => hne he.symm⟩
    have hlive : ∀ j, recs'.InB j ↔
        ((recs.InB j ∧ j ≠ id) ∧ j ≠ recs.size - 1) ∨ j = id := fun j => by
      unfold Block.InB
      rw [hsize]
      omega
    have hsame : ∀ j, recs'.cells j = (recs.upd id fun _ => recs.cells (recs.size - 1)).cells j :=
      fun j => by rw [hcells, Block.cells_upd]
    exact (hrel.congr (fun j hj => (hlive j).mpr hj) (fun j _ => by rw [hsame j])
      fun j _ => by rw [hsame j]).live_congr hlive

/-- Redirecting the heap to the last record, which is now at index `id`. -/
theorem heap_remove (h : IndexInv S lab out lo) (hid : S.Rec.InB id)
    (hout : out (S.Rec.cells id).pair) {recs' : Block Trecord}
    (hsize : recs'.size = S.Rec.size - 1)
    (hcells : ∀ j, recs'.cells j = if j = id then S.Rec.cells (S.Rec.size - 1)
      else S.Rec.cells j)
    (hlast : id ≠ S.Rec.size - 1 → ¬ out (S.Rec.cells (S.Rec.size - 1)).pair) :
    (id = S.Rec.size - 1 →
      HeapInv S.Heap recs' (fun j => recs'.InB j ∧ ¬ out (recs'.cells j).pair) lo) ∧
    (id ≠ S.Rec.size - 1 → ∃ H',
      heapRepos S.Heap (S.Rec.upd id fun _ => S.Rec.cells (S.Rec.size - 1)) id = .ok H' ∧
      H'.sqrtu = S.Heap.sqrtu ∧ H'.infreq.size = S.Heap.infreq.size ∧
      (∀ f, (H'.infreq.cells f).size = (S.Heap.infreq.cells f).size) ∧
      HeapInv H' recs' (fun j => recs'.InB j ∧ ¬ out (recs'.cells j).pair) lo) := by
  have h₁ := hid.1
  have h₂ := hid.2
  constructor
  · intro he
    have hlive : ∀ j, recs'.InB j ∧ ¬ out (recs'.cells j).pair ↔
        S.Rec.InB j ∧ ¬ out (S.Rec.cells j).pair := fun j => by
      rw [hcells]
      by_cases hj : j = id
      · rw [if_pos hj, hj, ← he]
        simp [hout]
      · rw [if_neg hj]
        unfold Block.InB
        rw [hsize]
        exact and_congr_left fun _ => by omega
    have hsame : ∀ j, recs'.cells j = S.Rec.cells j := fun j => by
      rw [hcells]
      split
      · next hj => rw [hj, ← he]
      · rfl
    exact (h.heap.congr (fun j hj => ((hlive j).mpr hj).1) (fun j _ => by rw [hsame])
      fun j _ => by rw [hsame]).live_congr hlive
  · intro hne
    obtain ⟨H', hrun, hs, hsz, hbk, hinv⟩ := h.heap.heapRepos_keeps (S.Rec.size - 1) hid
      (fun hn => hn.2 hout) ⟨⟨by omega, by omega⟩, hlast hne⟩
    refine ⟨H', hrun, hs, hsz, hbk, ?_⟩
    have hlive : ∀ j, recs'.InB j ∧ ¬ out (recs'.cells j).pair ↔
        ((S.Rec.InB j ∧ ¬ out (S.Rec.cells j).pair) ∧ j ≠ S.Rec.size - 1) ∨ j = id := fun j => by
      rw [hcells]
      unfold Block.InB
      rw [hsize]
      by_cases hj : j = id
      · rw [if_pos hj]
        simp only [hj, or_true, iff_true]
        exact ⟨by omega, hlast hne⟩
      · rw [if_neg hj]
        simp only [hj, or_false]
        constructor
        · rintro ⟨hin, hno⟩
          exact ⟨⟨by omega, hno⟩, by omega⟩
        · rintro ⟨⟨hin, hno⟩, hjl⟩
          exact ⟨by omega, hno⟩
    have hsame : ∀ j, recs'.cells j =
        (S.Rec.upd id fun _ => S.Rec.cells (S.Rec.size - 1)).cells j := fun j => by
      rw [hcells, Block.cells_upd]
    exact (hinv.congr (fun j hj => ((hlive j).mpr hj).1) (fun j _ => by rw [hsame])
      fun j _ => by rw [hsame]).live_congr hlive

/-- The position left in the list of a record that is being removed is marked. -/
theorem mark_eq (h : IndexInv S lab out lo) (hid : S.Rec.InB id) :
    ∃ L₁, (if (S.Rec.cells id).cpos ≠ -1 then do
        let l ← S.L.read (S.Rec.cells id).cpos
        if l.prev = -id - 1 then
          S.L.modify (S.Rec.cells id).cpos fun l => { l with prev := nullFreq }
        else pure S.L
      else pure S.L) = .ok L₁ ∧ L₁.size = S.L.size ∧
      (∀ q, (L₁.cells q).next = (S.L.cells q).next) ∧
      ∀ q, 0 ≤ q → (L₁.cells q).prev = if q = (S.Rec.cells id).cpos then nullFreq
        else (S.L.cells q).prev := by
  by_cases hc : (S.Rec.cells id).cpos = -1
  · refine ⟨S.L, ?_, rfl, fun _ => rfl, fun q hq => ?_⟩
    · simp only [hc, ne_eq, not_true_eq_false, ↓reduceIte]
      rfl
    · rw [hc, if_neg (by omega)]
  · obtain ⟨hcin, hprev, -⟩ := h.head_prev hid hc
    refine ⟨S.L.upd (S.Rec.cells id).cpos fun l => { l with prev := nullFreq }, ?_, rfl,
      fun q => ?_, fun q _ => ?_⟩
    · simp only [ne_eq, hc, not_false_eq_true, ↓reduceIte, Block.read_eq hcin, Run.ok_bind,
        hprev, Block.modify_eq hcin]
    · rw [Block.cells_upd]
      split
      · next he => rw [he]
      · rfl
    · rw [Block.cells_upd]
      split <;> rfl

/-- The frequencies are right when the last record has taken the place of `id`. -/
theorem freq_remove (h : IndexInv S lab out lo) (hid : S.Rec.InB id) {recs' : Block Trecord}
    (hsize : recs'.size = S.Rec.size - 1)
    (hcells : ∀ j, recs'.cells j = if j = id then S.Rec.cells (S.Rec.size - 1)
      else S.Rec.cells j) {j : Int} (hj : recs'.InB j) (hno : ¬ out (recs'.cells j).pair) :
    (recs'.cells j).freq = cnt lab S.L.size (recs'.cells j).pair := by
  have h₁ := hid.1
  have h₂ := hid.2
  rw [hcells] at hno ⊢
  by_cases hj' : j = id
  · rw [if_pos hj'] at hno ⊢
    exact h.freq _ ⟨by omega, by omega⟩ hno
  · rw [if_neg hj'] at hno ⊢
    exact h.freq j ⟨hj.1, by have := hj.2; omega⟩ hno

/-- `removeRecord`: record `id`, already out of the heap and with at most one position left, is
removed and the last record takes its index. -/
theorem removeRecord_keeps (h : IndexInv S lab out lo) (id : Int) (hid : S.Rec.InB id)
    (hout : out (S.Rec.cells id).pair)
    (hone : ∀ p q, lab p = some (S.Rec.cells id).pair → lab q = some (S.Rec.cells id).pair → p = q)
    (hlast : id ≠ S.Rec.size - 1 → ¬ out (S.Rec.cells (S.Rec.size - 1)).pair) :
    ∃ S', removeRecord S id = .ok S' ∧ IndexInv S' lab out lo ∧
      S'.Rec.size = S.Rec.size - 1 ∧
      (∀ j, S'.Rec.cells j = if j = id then S.Rec.cells (S.Rec.size - 1) else S.Rec.cells j) ∧
      S'.L.size = S.L.size ∧ S'.Heap.sqrtu = S.Heap.sqrtu ∧
      S'.Heap.infreq.size = S.Heap.infreq.size ∧
      ∀ f, (S'.Heap.infreq.cells f).size = (S.Heap.infreq.cells f).size := by
  have h₁ := hid.1
  have h₂ := hid.2
  have hkin := h.hash.kpos_inB id hid
  have hlastin : S.Rec.InB (S.Rec.size - 1) := ⟨by omega, by omega⟩
  obtain ⟨L₁, hL₁, hsz₁, hn₁, hp₁⟩ := h.mark_eq hid
  by_cases hidl : id = S.Rec.size - 1
  · have hcells : ∀ j, (⟨S.Rec.size - 1, S.Rec.cells⟩ : Block Trecord).cells j =
        if j = id then S.Rec.cells (S.Rec.size - 1) else S.Rec.cells j := fun j => by
      split
      · next hj => rw [hj, ← hidl]
      · rfl
    have hhash := (hash_remove h.hash hid (S.Hash.used - 1) rfl hcells).1 hidl
    have hheap := (h.heap_remove hid hout rfl hcells hlast).1 hidl
    have hpop : 0 < S.Rec.size := by omega
    have hstay : ¬ id ≠ S.Rec.size - 1 := not_not.mpr hidl
    simp only [removeRecord, deleteHash, Block.read_eq hid, Block.write_eq hkin, Run.ok_bind,
      Run.pure_bind]
    rw [hL₁, Run.ok_bind]
    simp only [if_neg hstay, Run.pure_bind, Block.pop_eq hpop, Run.ok_bind]
    refine ⟨_, rfl, ⟨hhash, hheap, ?_, fun j hj hno => ?_, ?_, ?_⟩, rfl, hcells, hsz₁, rfl, rfl,
      fun _ => rfl⟩
    · refine h.lists.remove hid hone rfl hcells hhash.inj hsz₁ hn₁ fun q hq => ?_
      rw [if_neg fun he => hstay he.1, hp₁ q hq]
    · dsimp only
      rw [hsz₁]
      exact h.freq_remove hid rfl hcells hj hno
    · dsimp only
      omega
    · dsimp only
      rw [hsz₁]
      exact h.room
  · -- the last record moves to the hole
    have hcells : ∀ j, (⟨S.Rec.size - 1, (S.Rec.upd id fun _ =>
        S.Rec.cells (S.Rec.size - 1)).cells⟩ : Block Trecord).cells j =
        if j = id then S.Rec.cells (S.Rec.size - 1) else S.Rec.cells j := fun j => by
      dsimp only
      rw [Block.cells_upd]
    have hhash := (hash_remove h.hash hid (S.Hash.used - 1) rfl hcells).2 hidl
    obtain ⟨H', hrun, hs', hsz', hbk', hheap⟩ := (h.heap_remove hid hout rfl hcells hlast).2 hidl
    have hid' : (S.Rec.upd id fun _ => S.Rec.cells (S.Rec.size - 1)).InB id := hid
    have hk' : (S.Hash.table.upd (S.Rec.cells id).kpos fun _ => -2).InB
        (S.Rec.cells (S.Rec.size - 1)).kpos := h.hash.kpos_inB _ hlastin
    have hpop : 0 < (S.Rec.upd id fun _ => S.Rec.cells (S.Rec.size - 1)).size := by
      rw [Block.size_upd]
      omega
    -- redirecting the list of the last record
    have hcin : (S.Rec.cells (S.Rec.size - 1)).cpos ≠ -1 →
        L₁.InB (S.Rec.cells (S.Rec.size - 1)).cpos := fun hc =>
      (Block.inB_congr hsz₁ _).mpr (h.head_prev hlastin hc).1
    have hL₂ := Block.modify_ptr_eq hcin fun l => { l with prev := -id - 1 }
    simp only [removeRecord, deleteHash, Block.read_eq hid, Block.write_eq hkin, Run.ok_bind,
      Run.pure_bind]
    rw [hL₁, Run.ok_bind]
    simp only [if_pos hidl, Block.read_eq hlastin, Block.write_eq hid, hashRepos,
      Block.read_eq hid', Block.cells_upd_self, Block.write_eq hk', hrun, Run.ok_bind,
      Run.pure_bind]
    rw [hL₂]
    simp only [Run.ok_bind, Run.pure_bind, Block.pop_eq hpop]
    have hsz₂ := (Block.size_updPtr L₁ (S.Rec.cells (S.Rec.size - 1)).cpos
      fun l => { l with prev := -id - 1 }).trans hsz₁
    refine ⟨_, rfl, ⟨hhash, hheap, ?_, fun j hj hno => ?_, ?_, ?_⟩, rfl, hcells, hsz₂, hs', hsz',
      hbk'⟩
    · refine h.lists.remove hid hone rfl hcells hhash.inj hsz₂ (fun q => ?_) fun q hq => ?_
      · exact Eq.trans (Block.field_updPtr _ _ Tlist.next (fun _ => by rfl) q) (hn₁ q)
      · rw [Block.cells_updPtr _ _ _ hq, ← hp₁ q hq]
        simp only [ne_eq, hidl, not_false_eq_true, true_and]
        split <;> rfl
    · dsimp only
      rw [hsz₂]
      exact h.freq_remove hid rfl hcells hj hno
    · dsimp only [Block.size_upd]
      omega
    · dsimp only
      rw [hsz₂, hs']
      exact h.room

/-! ## Purging and extraction -/

/-- One round of `purgeHeap`: the record at index `k` of the first bucket is removed. -/
theorem purge_round {k : Int} (h : IndexInv S lab (fun _ => False) k) (hk : 0 ≤ k)
    (hlt : k < (S.Heap.infreq.cells 1).size) :
    ∃ S', removeRecord S ((S.Heap.infreq.cells 1).cells k) = .ok S' ∧
      IndexInv S' lab (fun _ => False) (k + 1) ∧ S'.L.size = S.L.size ∧
      S'.Heap.sqrtu = S.Heap.sqrtu ∧ S'.Heap.infreq.size = S.Heap.infreq.size ∧
      (S'.Heap.infreq.cells 1).size = (S.Heap.infreq.cells 1).size := by
  obtain ⟨⟨hid, -⟩, hf1, hheap⟩ := h.heap.purge_next hk hlt
  generalize (S.Heap.infreq.cells 1).cells k = id at hid hf1 hheap ⊢
  have hinj : ∀ j, S.Rec.InB j → (S.Rec.cells j).pair = (S.Rec.cells id).pair → j = id :=
    fun j hj he => h.lists.inj j id hj hid he
  -- the pair of `id` is out of the heap
  have h' : IndexInv S lab (fun pr => pr = (S.Rec.cells id).pair) (k + 1) := by
    refine ⟨h.hash, hheap.live_congr fun j => ?_, h.lists,
      fun j hj _ => h.freq j hj not_false, h.recSize, h.room⟩
    constructor
    · rintro ⟨hj, hne⟩
      exact ⟨⟨hj, not_false⟩, fun he => hne (by rw [he])⟩
    · rintro ⟨⟨hj, -⟩, hne⟩
      exact ⟨hj, fun he => hne (hinj j hj he)⟩
  have hone : ∀ p q, lab p = some (S.Rec.cells id).pair → lab q = some (S.Rec.cells id).pair →
      p = q := fun p q hp hq => by
    by_contra hne
    have h₁ := two_le_cnt (fun r hr => h.range hr) hp hq hne
    have h₂ := h.freq id hid not_false
    omega
  have h₁ := hid.1
  have h₂ := hid.2
  have hlast : id ≠ S.Rec.size - 1 →
      (S.Rec.cells (S.Rec.size - 1)).pair ≠ (S.Rec.cells id).pair := fun hne he =>
    hne (hinj _ ⟨by omega, by omega⟩ he).symm
  obtain ⟨S', hrun, hinv, hsize, hcells, hL, hs, hsz, hbk⟩ := h'.removeRecord_keeps _ hid rfl hone
    hlast
  refine ⟨S', hrun, hinv.out_congr _ fun j hj => ?_, hL, hs, hsz, hbk 1⟩
  -- no record has the pair of `id` any more
  rw [false_iff, hcells]
  have hj₁ := hj.1
  have hj₂ := hj.2
  by_cases hji : j = id
  · rw [if_pos hji]
    exact hlast (by omega)
  · rw [if_neg hji]
    exact fun he => hji (hinj j ⟨hj₁, by omega⟩ he)

/-- `purgeHeap` removes the records of frequency 1; their positions are marked. -/
theorem purgeHeap_keeps (h : IndexInv S lab (fun _ => False) 0) :
    ∃ S', purgeHeap S = .ok S' ∧ IndexInv S' lab (fun _ => False) 0 ∧
      (∀ j, S'.Rec.InB j → 2 ≤ (S'.Rec.cells j).freq) ∧ S'.L.size = S.L.size ∧
      S'.Heap.sqrtu = S.Heap.sqrtu := by
  have h2 := h.heap.two_le
  have hb : ∀ T : PairStore, T.Heap.infreq.size = S.Heap.infreq.size → T.Heap.infreq.InB 1 :=
    fun T hT => ⟨by omega, by rw [hT, h.heap.infreqSize]; omega⟩
  have h0 := h.heap.size_nonneg 1 (by omega) (by omega)
  -- at index `k` the entries below `k` are done
  have hrun := Run.meets_whileLoop (E := fun _ => False)
    (fun s : Int × PairStore => do
      let A ← s.2.Heap.infreq.read 1
      pure (decide (s.1 < A.size)))
    (fun s => do
      let A ← s.2.Heap.infreq.read 1
      let id ← A.read s.1
      let S ← removeRecord s.2 id
      pure (s.1 + 1, S))
    (fun s => 0 ≤ s.1 ∧ IndexInv s.2 lab (fun _ => False) s.1 ∧ s.2.L.size = S.L.size ∧
      s.2.Heap.sqrtu = S.Heap.sqrtu ∧ s.2.Heap.infreq.size = S.Heap.infreq.size ∧
      (s.2.Heap.infreq.cells 1).size = (S.Heap.infreq.cells 1).size)
    (fun s => IndexInv s.2 lab (fun _ => False) s.1 ∧ s.2.L.size = S.L.size ∧
      s.2.Heap.sqrtu = S.Heap.sqrtu ∧ s.2.Heap.infreq.size = S.Heap.infreq.size ∧
      (s.2.Heap.infreq.cells 1).size ≤ s.1)
    (fun s => ((S.Heap.infreq.cells 1).size - s.1).toNat) ?_
    ((S.Heap.infreq.cells 1).size.toNat + 1) (0, S) (by dsimp only; omega)
    ⟨by omega, h, rfl, rfl, rfl, rfl⟩
  · obtain ⟨⟨k, T⟩, hrun, hT, hL, hs, hsz, hk⟩ := hrun.exists_ok fun e he => he.elim
    obtain ⟨hge, hheap⟩ := hT.heap.purge_done hk
    rw [purgeHeap, Block.read_eq (hb S rfl), Run.ok_bind, hrun, Run.ok_bind]
    simp only [Block.write_eq (hb T hsz), Run.ok_bind]
    refine ⟨_, rfl, ⟨hT.hash, hheap, hT.lists, hT.freq, hT.recSize, hT.room⟩, ?_, hL, hs⟩
    exact fun j hj => hge j ⟨hj, not_false⟩
  · rintro ⟨k, T⟩ ⟨hk, hT, hL, hs, hsz, hbk⟩
    dsimp only at hk hT hL hs hsz hbk
    simp only [Block.read_eq (hb T hsz), Run.ok_bind, Run.meets_pure, decide_eq_true_eq,
      decide_eq_false_iff_not]
    refine ⟨fun hlt => ?_, fun hge => ⟨hT, hL, hs, hsz, by omega⟩⟩
    obtain ⟨T', hrun, hT', hL', hs', hsz', hbk'⟩ := hT.purge_round hk hlt
    rw [Block.read_eq ⟨hk, hlt⟩, Run.ok_bind, hrun]
    refine ⟨⟨by dsimp only; omega, hT', hL'.trans hL, hs'.trans hs, hsz'.trans hsz,
      hbk'.trans hbk⟩, ?_⟩
    dsimp only
    omega

/-- `extractMax` takes the pair of one record out of the heap. -/
theorem extractMax_keeps (h : IndexInv S lab (fun _ => False) 0) :
    ∃ id H', extractMax S.Heap = .ok (id, H') ∧
      ((id = -1 ∧ IndexInv { S with Heap := H' } lab (fun _ => False) 0 ∧
          (HeapInv.Cursor S.Heap S.Rec S.Rec.InB → ∀ j, ¬ S.Rec.InB j)) ∨
        (S.Rec.InB id ∧
          IndexInv { S with Heap := H' } lab (fun pr => pr = (S.Rec.cells id).pair) 0 ∧
          (HeapInv.Cursor S.Heap S.Rec S.Rec.InB → HeapInv.Greatest H' S.Rec S.Rec.InB id))) := by
  have hin : (fun id => S.Rec.InB id ∧ ¬ False) = S.Rec.InB :=
    funext fun j => propext ⟨And.left, fun hj => ⟨hj, not_false⟩⟩
  obtain ⟨id, H', hrun, hs, hcase⟩ := h.heap.extractMax_keeps
  have hroom : S.L.size ≤ H'.sqrtu * H'.sqrtu := hs ▸ h.room
  refine ⟨id, H', hrun, ?_⟩
  rcases hcase with ⟨rfl, hheap, hnone⟩ | ⟨⟨hid, -⟩, hheap, hgreat⟩
  · exact Or.inl ⟨rfl, ⟨h.hash, hheap, h.lists, h.freq, h.recSize, hroom⟩, hin ▸ hnone⟩
  · refine Or.inr ⟨hid, ⟨h.hash, hheap.live_congr fun j => ?_, h.lists,
      fun j hj _ => h.freq j hj not_false, h.recSize, hroom⟩, hin ▸ hgreat⟩
    constructor
    · rintro ⟨hj, hne⟩
      exact ⟨⟨hj, not_false⟩, fun he => hne (by rw [he])⟩
    · rintro ⟨⟨hj, -⟩, hne⟩
      exact ⟨hj, fun he => hne (h.lists.inj j id hj hid he)⟩

end IndexInv

end Laconic.RePair
