import Laconic.RePair.Greedy
import Laconic.RePair.Watch

/-!
# Re-Pair: the calls of a run

At every `incFreq` and `decFreq` that takes a cell from one of the two pools of the heap, the pool
is not empty.  At every `removeRecord` of a `decFreq`, the last record, which moves, is in the heap
and is not the one of the pair that is being replaced.
-/

namespace Laconic.RePair

open Neighbour

/-! ## Taking cells from the pools -/

/-- `incFreq` takes a node for a record that becomes frequent. -/
def IncTakesNode (H : Theap) (r : Trecord) : Prop := r.freq < H.sqrtu ∧ H.sqrtu ≤ r.freq + 1

/-- `incFreq` takes a frequency node: there is none for the new frequency, and the node of the
record is not alone in its list or has just been taken. -/
def IncTakesFreq (H : Theap) (r : Trecord) : Prop :=
  if H.sqrtu ≤ r.freq then
    ¬ ((H.freq.cells r.hpos).prev = -1 ∧ (H.freq.cells r.hpos).next = -1) ∧
      hasFreq H.ff (H.ff.cells (H.freq.cells r.hpos).fnode).larger (r.freq + 1) = .ok false
  else H.sqrtu ≤ r.freq + 1 ∧ hasFreq H.ff H.smallest (r.freq + 1) = .ok false

/-- `decFreq` takes a frequency node. -/
def DecTakesFreq (H : Theap) (r : Trecord) : Prop :=
  H.sqrtu < r.freq ∧ ¬ ((H.freq.cells r.hpos).prev = -1 ∧ (H.freq.cells r.hpos).next = -1) ∧
    hasFreq H.ff (H.ff.cells (H.freq.cells r.hpos).fnode).smaller (r.freq - 1) = .ok false

/-- The pools from which `incFreq` takes a cell are not empty. -/
structure IncReady (S : PairStore) (id : Int) : Prop where
  node : IncTakesNode S.Heap (S.Rec.cells id) → S.Heap.freef ≠ -1
  freq : IncTakesFreq S.Heap (S.Rec.cells id) → S.Heap.freeff ≠ -1

/-- The pool from which `decFreq` takes a cell is not empty. -/
def DecReady (S : PairStore) (id : Int) : Prop :=
  DecTakesFreq S.Heap (S.Rec.cells id) → S.Heap.freeff ≠ -1

section Pools

variable {H H' : Theap} {recs : Block Trecord} {hpos freq : Int}

/-- Taking a frequency node reads the pool. -/
theorem createFreq_takes {smaller larger : Int}
    (h : createFreq H hpos freq smaller larger = .ok H') : H.freeff ≠ -1 := by
  unfold createFreq at h
  obtain ⟨f, hf, -⟩ := Run.bind_eq_ok.mp h
  have h0 := (Block.read_eq_ok.mp hf).1.1
  omega

theorem createSmallest_takes (h : createSmallest H hpos freq = .ok H') : H.freeff ≠ -1 := by
  unfold createSmallest at h
  obtain ⟨f, hf, -⟩ := Run.bind_eq_ok.mp h
  have h0 := (Block.read_eq_ok.mp hf).1.1
  omega

/-- Leaving a list does not change the pools. -/
theorem unlinkNode_freeff {fp : Int} (h : unlinkNode H hpos fp = .ok H') : H'.freeff = H.freeff := by
  unfold unlinkNode at h
  obtain ⟨p, -, h⟩ := Run.bind_eq_ok.mp h
  obtain ⟨H₁, h₁, h⟩ := Run.bind_eq_ok.mp h
  have hfirst : H₁.freeff = H.freeff := by
    split at h₁
    · obtain ⟨ff, -, h₁⟩ := Run.bind_eq_ok.mp h₁
      cases h₁
      rfl
    · obtain ⟨nodes, -, h₁⟩ := Run.bind_eq_ok.mp h₁
      cases h₁
      rfl
  rw [← hfirst]
  split at h
  · obtain ⟨nodes, -, h⟩ := Run.bind_eq_ok.mp h
    cases h
    rfl
  · cases h
    rfl

/-- Leaving a bucket changes nothing but the buckets. -/
theorem removeInfreq_low {s : Theap × Block Trecord} (h : removeInfreq H recs freq hpos = .ok s) :
    ∃ infreq, s.1 = { H with infreq := infreq } := by
  unfold removeInfreq at h
  obtain ⟨A, -, h⟩ := Run.bind_eq_ok.mp h
  obtain ⟨t, hmove, h⟩ := Run.bind_eq_ok.mp h
  obtain ⟨H₁, hdel, h⟩ := Run.bind_eq_ok.mp h
  cases h
  unfold move at hmove
  obtain ⟨B, -, hmove⟩ := Run.bind_eq_ok.mp hmove
  obtain ⟨id, -, hmove⟩ := Run.bind_eq_ok.mp hmove
  obtain ⟨B', -, hmove⟩ := Run.bind_eq_ok.mp hmove
  obtain ⟨infreq, -, hmove⟩ := Run.bind_eq_ok.mp hmove
  obtain ⟨recs', -, hmove⟩ := Run.bind_eq_ok.mp hmove
  cases hmove
  unfold deleteInfreq at hdel
  obtain ⟨C, -, hdel⟩ := Run.bind_eq_ok.mp hdel
  obtain ⟨C', -, hdel⟩ := Run.bind_eq_ok.mp hdel
  obtain ⟨infreq', -, hdel⟩ := Run.bind_eq_ok.mp hdel
  cases hdel
  exact ⟨infreq', rfl⟩

/-- Entering the lists takes a node, and a frequency node if there is none for the frequency. -/
theorem enterHigh_takes {id : Int} {s : Theap × Block Trecord}
    (h : enterHigh H recs id freq = .ok s) :
    H.freef ≠ -1 ∧ (hasFreq H.ff H.smallest freq = .ok false → H.freeff ≠ -1) := by
  unfold enterHigh at h
  obtain ⟨p, hp, h⟩ := Run.bind_eq_ok.mp h
  obtain ⟨recs', -, h⟩ := Run.bind_eq_ok.mp h
  obtain ⟨nodes, -, h⟩ := Run.bind_eq_ok.mp h
  obtain ⟨ex, hex, h⟩ := Run.bind_eq_ok.mp h
  obtain ⟨H₁, h₁, -⟩ := Run.bind_eq_ok.mp h
  dsimp only at hex h₁
  have h0 := (Block.read_eq_ok.mp hp).1.1
  refine ⟨by omega, fun hno => ?_⟩
  rw [hno] at hex
  cases hex
  rw [if_neg Bool.false_ne_true] at h₁
  have htakes := createSmallest_takes h₁
  exact htakes

/-- Moving to a missing frequency takes a frequency node. -/
theorem incHigh_takes (h : incHigh H hpos freq = .ok H')
    (hmore : ¬ ((H.freq.cells hpos).prev = -1 ∧ (H.freq.cells hpos).next = -1))
    (hno : hasFreq H.ff (H.ff.cells (H.freq.cells hpos).fnode).larger freq = .ok false) :
    H.freeff ≠ -1 := by
  unfold incHigh at h
  obtain ⟨p, hp, h⟩ := Run.bind_eq_ok.mp h
  obtain ⟨-, rfl⟩ := Block.read_eq_ok.mp hp
  obtain ⟨f, hf, h⟩ := Run.bind_eq_ok.mp h
  obtain ⟨-, rfl⟩ := Block.read_eq_ok.mp hf
  rw [hno, Run.ok_bind, if_neg fun hc => hmore ⟨hc.1, hc.2.1⟩] at h
  obtain ⟨H₁, h₁, h⟩ := Run.bind_eq_ok.mp h
  obtain ⟨H₂, h₂, -⟩ := Run.bind_eq_ok.mp h
  rw [if_neg Bool.false_ne_true] at h₂
  rw [← unlinkNode_freeff h₁]
  exact createFreq_takes h₂

theorem decHigh_takes (h : decHigh H hpos freq = .ok H')
    (hmore : ¬ ((H.freq.cells hpos).prev = -1 ∧ (H.freq.cells hpos).next = -1))
    (hno : hasFreq H.ff (H.ff.cells (H.freq.cells hpos).fnode).smaller freq = .ok false) :
    H.freeff ≠ -1 := by
  unfold decHigh at h
  obtain ⟨p, hp, h⟩ := Run.bind_eq_ok.mp h
  obtain ⟨-, rfl⟩ := Block.read_eq_ok.mp hp
  obtain ⟨f, hf, h⟩ := Run.bind_eq_ok.mp h
  obtain ⟨-, rfl⟩ := Block.read_eq_ok.mp hf
  rw [hno, Run.ok_bind, if_neg fun hc => hmore ⟨hc.1, hc.2.1⟩] at h
  obtain ⟨H₁, h₁, h⟩ := Run.bind_eq_ok.mp h
  obtain ⟨H₂, h₂, -⟩ := Run.bind_eq_ok.mp h
  rw [if_neg Bool.false_ne_true] at h₂
  rw [← unlinkNode_freeff h₁]
  exact createFreq_takes h₂

/-- An `incFreq` that returns has found what it takes. -/
theorem incFreq_takes {S : PairStore} {id : Int} {s : Theap × Block Trecord}
    (h : incFreq S.Heap S.Rec id = .ok s) : IncReady S id := by
  unfold incFreq at h
  obtain ⟨r, hr, h⟩ := Run.bind_eq_ok.mp h
  obtain ⟨-, rfl⟩ := Block.read_eq_ok.mp hr
  obtain ⟨recs, -, h⟩ := Run.bind_eq_ok.mp h
  by_cases hge : S.Heap.sqrtu ≤ (S.Rec.cells id).freq
  · rw [if_pos hge] at h
    obtain ⟨H', hrun, -⟩ := Run.bind_eq_ok.mp h
    refine ⟨fun htakes => absurd htakes.1 (by omega), fun htakes => ?_⟩
    rw [IncTakesFreq, if_pos hge] at htakes
    exact incHigh_takes hrun htakes.1 htakes.2
  · rw [if_neg hge] at h
    obtain ⟨t, ht, h⟩ := Run.bind_eq_ok.mp h
    obtain ⟨infreq, hlow⟩ := removeInfreq_low ht
    rw [hlow] at h
    dsimp only at h
    by_cases hlt : (S.Rec.cells id).freq + 1 < S.Heap.sqrtu
    · refine ⟨fun htakes => absurd htakes.2 (by omega), fun htakes => ?_⟩
      rw [IncTakesFreq, if_neg hge] at htakes
      exact absurd htakes.1 (by omega)
    · rw [if_neg hlt] at h
      obtain ⟨hnode, hfreq⟩ := enterHigh_takes h
      refine ⟨fun _ => hnode, fun htakes => ?_⟩
      rw [IncTakesFreq, if_neg hge] at htakes
      exact hfreq htakes.2

theorem decHeap_takes {S : PairStore} {id : Int} {s : Theap × Block Trecord}
    (h : decHeap S.Heap S.Rec id = .ok s) : DecReady S id := by
  rintro ⟨hgt, hmore, hno⟩
  unfold decHeap at h
  obtain ⟨r, hr, h⟩ := Run.bind_eq_ok.mp h
  obtain ⟨-, rfl⟩ := Block.read_eq_ok.mp hr
  obtain ⟨recs, -, h⟩ := Run.bind_eq_ok.mp h
  rw [if_pos hgt] at h
  obtain ⟨H', hrun, -⟩ := Run.bind_eq_ok.mp h
  exact decHigh_takes hrun hmore hno

end Pools

/-! ## What a watch accepts -/

/-- Record `oid` is there and has the pair `P`. -/
def Holds (oid : Int) (P : Tpair) (S : PairStore) : Prop :=
  S.Rec.InB oid ∧ (S.Rec.cells oid).pair = P

/-- A `removeRecord` of a `decFreq`, while the pair `P` of record `oid` is replaced: the record that
goes and the last one, which moves into its slot, are not `oid`, and the one that moves is in the
heap. -/
structure SafeRemoval (oid : Int) (P : Tpair) (S : PairStore) (id : Int) (S' : PairStore) : Prop where
  other : id ≠ oid
  last : oid ≠ S.Rec.size - 1
  before : Holds oid P S
  after : Holds oid P S'
  moved : id ≠ S.Rec.size - 1 → InHeap S.Heap S.Rec (S.Rec.size - 1)

namespace Watch

/-- The watch that stops a run at the first call without these properties. -/
noncomputable def stopUnless (inc dec : PairStore → Int → Prop)
    (removal : PairStore → Int → PairStore → Prop) : Watch :=
  open Classical in
  { inc := fun S id => if inc S id then pure () else throw .bounds
    dec := fun S id => if dec S id then pure () else throw .bounds
    removal := fun S id S' => if removal S id S' then pure () else throw .bounds }

/-- Stops at a call that takes a cell from an empty pool. -/
noncomputable def pools : Watch := stopUnless IncReady DecReady fun _ _ _ => True

/-- Stops when record `oid` does not have the pair `P`, and at a removal that is not safe. -/
noncomputable def removals (oid : Int) (P : Tpair) : Watch :=
  stopUnless (fun S _ => Holds oid P S) (fun S _ => Holds oid P S) (SafeRemoval oid P)

/-- What both watches accept. -/
structure Accepts (w : Watch) (oid : Int) (P : Tpair) : Prop where
  inc : ∀ S id, IncReady S id → Holds oid P S → w.inc S id = .ok ()
  dec : ∀ S id, DecReady S id → Holds oid P S → w.dec S id = .ok ()
  removal : ∀ S id S', SafeRemoval oid P S id S' → w.removal S id S' = .ok ()

theorem pools_accepts (oid : Int) (P : Tpair) : pools.Accepts oid P where
  inc _ _ hready _ := if_pos hready
  dec _ _ hready _ := if_pos hready
  removal _ _ _ _ := if_pos trivial

theorem removals_accepts (oid : Int) (P : Tpair) : (removals oid P).Accepts oid P where
  inc _ _ _ hholds := if_pos hholds
  dec _ _ _ hholds := if_pos hholds
  removal _ _ _ hsafe := if_pos hsafe

end Watch

/-! ## Occurrences -/

section Occ

variable {w : Watch} {S S' : PairStore} {lab : Int → Option Tpair} {id oid i : Int} {P pr : Tpair}

/-- A `decFreq` that removes a record is a safe removal. -/
theorem IndexInv.LastRemoval.safe {S₁ : PairStore} (h : IndexInv.LastRemoval S S₁ S' lab id P)
    (hoid : S.Rec.InB oid) (hP : (S.Rec.cells oid).pair = P) (hid : S.Rec.InB id)
    (hne : (S.Rec.cells id).pair ≠ P) (hlast : oid ≠ S.Rec.size - 1) :
    SafeRemoval oid P S₁ id S' := by
  have hsize : S₁.Rec.size = S.Rec.size := h.set.size
  have hother : id ≠ oid := fun he => hne (by rw [he, hP])
  have hpair : ∀ j, (S₁.Rec.cells j).pair = (S.Rec.cells j).pair := h.set.pair
  have hin : ∀ j, S.Rec.InB j → S₁.Rec.InB j := fun j hj => ⟨hj.1, by rw [hsize]; exact hj.2⟩
  refine ⟨hother, by rw [hsize]; exact hlast, ⟨hin oid hoid, by rw [hpair, hP]⟩, ⟨?_, ?_⟩,
    fun hmoved => ?_⟩
  · have h0 := hoid.1
    have h1 := hoid.2
    exact ⟨h0, by rw [h.size]; omega⟩
  · rw [h.cells, if_neg fun he => hother he.symm, hpair, hP]
  · -- the last record has another pair than the two that are out of the heap
    have hin' := hin id hid
    have h0 := hin'.1
    have h1 := hin'.2
    have hlastin : S₁.Rec.InB (S₁.Rec.size - 1) := ⟨by omega, by omega⟩
    refine h.before.inHeap hlastin fun hout => ?_
    rcases hout with he | he
    · have := h.before.lists.inj _ oid hlastin (hin oid hoid) (by rw [he, hpair, hP])
      omega
    · have := h.before.lists.inj _ id hlastin hin' (by rw [he, hpair])
      omega

/-- A `decFreq` that the watch accepts. -/
theorem IndexInv.decFreq_watched (h : IndexInv S lab (fun q => q = P) 0) (hw : w.Accepts oid P)
    (hoid : S.Rec.InB oid) (hP : (S.Rec.cells oid).pair = P) (hid : S.Rec.InB id)
    (hne : (S.Rec.cells id).pair ≠ P)
    (hlast : (S.Rec.cells id).freq = 1 → oid ≠ S.Rec.size - 1) :
    w.decFreq S id = decFreq S id := by
  rw [Watch.decFreq, decFreq, Block.read_eq hid, Run.ok_bind, Run.ok_bind]
  by_cases hf : (S.Rec.cells id).freq = 1
  · obtain ⟨H', recs', S', hrun, hrem⟩ := h.decHeap_last hoid hP hid hne hf (hlast hf)
    have hsafe := hrem.safe hoid hP hid hne (hlast hf)
    rw [hw.dec S id (decHeap_takes hrun) ⟨hoid, hP⟩, Run.ok_bind, hrun, Run.ok_bind, Run.ok_bind]
    dsimp only
    rw [if_pos (by omega), if_pos (by omega), hrem.run, Run.ok_bind, hw.removal _ _ _ hsafe]
    rfl
  · obtain ⟨H', recs', hrun, -⟩ := h.heap.decHeap_keeps id ⟨hid, hne⟩
    rw [hw.dec S id (decHeap_takes hrun) ⟨hoid, hP⟩, Run.ok_bind, hrun, Run.ok_bind, Run.ok_bind]
    dsimp only
    rw [if_neg (by omega), if_neg (by omega)]

theorem StoreInv.removeOcc_watched {e N : Int} {lab₀ : Int → Option Tpair} {D₀ : List Tpair}
    (h : StoreInv P e lab₀ D₀ N oid S lab) (hs : TurnStart P e lab₀ D₀ N oid)
    (hw : w.Accepts oid P) (hi : lab i = some pr) (hform : pr.left = P.right ∨ pr.right = P.left) :
    w.removeOcc S oid pr i = removeOcc S oid pr i := by
  rw [Watch.removeOcc, removeOcc]
  apply Run.bind_congr_ok
  intro id hsearch
  rcases (h.index.hash.searchHash_meets pr).of_ok hsearch with ⟨hid, hpair⟩ | ⟨rfl, -⟩
  · by_cases hio : id = oid
    · rw [if_neg (not_not.mpr hio), if_neg (not_not.mpr hio)]
    · have hne : (S.Rec.cells id).pair ≠ P := fun he =>
        hio (h.index.lists.inj id oid hid h.oid_inB (he.trans h.oid_pair.symm))
      rw [if_pos hio, if_pos hio, h.index.decFreq_watched hw h.oid_inB h.oid_pair hid hne]
      intro hf
      have honly : ∀ r, lab r = some pr → r = i := fun r hr =>
        h.index.eq_of_freq_one hid hne hf (hpair ▸ hr) (hpair ▸ hi)
      exact h.turn.oid_ne_last hs ⟨oid, h.oid_inB, h.oid_pair⟩ (hpair ▸ hne) hform honly
        ⟨id, hid, hpair⟩
  · rw [if_neg (by simp), if_neg (by simp)]

theorem IndexInv.createOcc_watched {out : Tpair → Prop} (h : IndexInv S lab out 0)
    (hinc : ∀ id, IncReady S id → w.inc S id = .ok ()) (hout : ¬ out pr) :
    w.createOcc S pr i = createOcc S pr i := by
  rw [Watch.createOcc, createOcc]
  apply Run.bind_congr_ok
  intro id hsearch
  rcases (h.hash.searchHash_meets pr).of_ok hsearch with ⟨hid, rfl⟩ | ⟨rfl, -⟩
  · have h0 := hid.1
    obtain ⟨H', recs', hrun, -⟩ := h.heap.incFreq_keeps id ⟨hid, hout⟩
      fun ids hnd hids => h.capacity hnd hids
    rw [if_neg (by omega), if_neg (by omega), hinc id (incFreq_takes hrun), Run.ok_bind]
  · rw [if_pos rfl, if_pos rfl]

end Occ

/-! ## A turn -/

section Turn

variable {w : Watch} {P : Tpair} {e : Int} {lab₀ lab : Int → Option Tpair} {D₀ : List Tpair}
  {N oid i j : Int} {S : PairStore} {R : Repair} {pr pr' : Tpair} {ps : List Int}

theorem StoreInv.exchangeOcc_watched (h : StoreInv P e lab₀ D₀ N oid S lab)
    (hs : TurnStart P e lab₀ D₀ N oid) (hw : w.Accepts oid P) (hi : lab i = some pr)
    (hex : Exchanged P e pr pr') :
    (do let S ← w.removeOcc S oid pr i; w.createOcc S pr' j) =
      (do let S ← removeOcc S oid pr i; createOcc S pr' j) := by
  have hform : pr.left = P.right ∨ pr.right = P.left := hex.imp And.left And.left
  rw [h.removeOcc_watched hs hw hi hform]
  apply Run.bind_congr_ok
  intro S₁ hrun
  have h₁ := (h.removeOcc_meets hs hi hform).of_ok hrun
  refine h₁.inv.createOcc_watched (fun id hready => hw.inc S₁ id hready ⟨h₁.oid_inB, h₁.oid_pair⟩)
    fun he => ?_
  have hl := hs.left_ne
  have hr := hs.right_ne
  rcases hex with ⟨-, rfl⟩ | ⟨-, rfl⟩
  · exact hl (congrArg Tpair.left he).symm
  · exact hr (congrArg Tpair.right he).symm

section Round

variable {l₁ l : List Int} {p q : Int}
  (h : ReplaceInv P lab₀ D₀ oid R (l₁ ++ p :: q :: l)) (hs : TurnStart P R.n lab₀ D₀ R.u oid)
  (hw : w.Accepts oid P)

include h hs hw

theorem exchangeRight_watched (hc : R.inter.cells q = P.right)
    (hS : StoreInv P R.n lab₀ D₀ R.u oid S
      (Function.update (labels R.inter (l₁ ++ p :: q :: l)) p none)) :
    (if l.headD R.u ≠ R.u then do
        let c ← R.inter.read q
        let d ← R.inter.read (l.headD R.u)
        let S ← w.removeOcc S oid ⟨c, d⟩ q
        w.createOcc S ⟨R.n, d⟩ p
      else pure S) =
    if l.headD R.u ≠ R.u then do
        let c ← R.inter.read q
        let d ← R.inter.read (l.headD R.u)
        let S ← removeOcc S oid ⟨c, d⟩ q
        createOcc S ⟨R.n, d⟩ p
      else pure S := by
  cases l with
  | nil => rw [List.headD_nil, if_neg (not_not.mpr rfl), if_neg (not_not.mpr rfl)]
  | cons r l =>
    have hqr : Adj (l₁ ++ p :: q :: r :: l) q r := adj_iff_exists.mpr ⟨l₁ ++ [p], l, by simp⟩
    have hru := (h.text.adj_range hqr).2.2
    have hpq : p < q := (h.text.adj_range (adj_iff_exists.mpr ⟨l₁, r :: l, rfl⟩)).2.1
    have hlabq : labels R.inter (l₁ ++ p :: q :: r :: l) q = some ⟨P.right, R.inter.cells r⟩ :=
      (labels_eq_some_iff h.text.nodup).mpr ⟨r, hqr, by rw [hc]⟩
    rw [List.headD_cons, if_pos (by omega), if_pos (by omega),
      Block.read_eq (h.text.inB hqr.left_mem), Run.ok_bind, Run.ok_bind,
      Block.read_eq (h.text.inB hqr.right_mem), Run.ok_bind, Run.ok_bind, hc]
    exact hS.exchangeOcc_watched hs hw (by rw [Function.update_of_ne (by omega), hlabq])
      (Or.inl ⟨rfl, rfl⟩)

theorem exchangeLeft_watched (hb : R.inter.cells p = P.left) {o : Option Tpair}
    (hS : StoreInv P R.n lab₀ D₀ R.u oid S (Function.update
        (Function.update (labels R.inter (l₁ ++ p :: q :: l)) q none) p o)) :
    (if p ≠ 0 then do
        let ant ← antPos R.inter p
        let a ← R.inter.read ant
        let b ← R.inter.read p
        let S ← w.removeOcc S oid ⟨a, b⟩ ant
        w.createOcc S ⟨a, R.n⟩ ant
      else pure S) =
    if p ≠ 0 then do
        let ant ← antPos R.inter p
        let a ← R.inter.read ant
        let b ← R.inter.read p
        let S ← removeOcc S oid ⟨a, b⟩ ant
        createOcc S ⟨a, R.n⟩ ant
      else pure S := by
  by_cases hp0 : p = 0
  · rw [if_neg (not_not.mpr hp0), if_neg (not_not.mpr hp0)]
  · have hmem : p ∈ l₁ ++ p :: q :: l := by simp
    obtain ⟨a, hap⟩ := exists_left hmem fun he => by
      rw [h.text.first, Option.some_inj] at he
      exact hp0 he.symm
    have har := (h.text.adj_range hap).2.1
    have hpq : p < q := (h.text.adj_range (adj_iff_exists.mpr ⟨l₁, l, rfl⟩)).2.1
    have hlaba : labels R.inter (l₁ ++ p :: q :: l) a = some ⟨R.inter.cells a, P.left⟩ :=
      (labels_eq_some_iff h.text.nodup).mpr ⟨p, hap, by rw [hb]⟩
    rw [if_pos hp0, if_pos hp0, h.text.antPos_eq hap, Run.ok_bind, Run.ok_bind,
      Block.read_eq (h.text.inB hap.left_mem), Run.ok_bind, Run.ok_bind,
      Block.read_eq (h.text.inB hap.right_mem), Run.ok_bind, Run.ok_bind, hb]
    exact hS.exchangeOcc_watched hs hw
      (by rw [Function.update_of_ne (by omega), Function.update_of_ne (by omega), hlaba])
      (Or.inr ⟨rfl, rfl⟩)

end Round

theorem ReplaceInv.replaceStep_watched (h : ReplaceInv P lab₀ D₀ oid R ps)
    (hs : TurnStart P R.n lab₀ D₀ R.u oid) (hw : w.Accepts oid P)
    (hc : (R.S.Rec.cells oid).cpos ≠ -1) :
    w.replaceStep oid (R.S.Rec.cells oid).cpos R =
      replaceStep oid (R.S.Rec.cells oid).cpos R := by
  obtain ⟨hlab, S₁, hrun₁, h₁⟩ := h.store.unlinkHead_eq hs hc
  generalize (R.S.Rec.cells oid).cpos = p at *
  obtain ⟨l₁, q, l, rfl, hb, hc'⟩ := h.around hlab
  have hpq : Adj (l₁ ++ p :: q :: l) p q := adj_iff_exists.mpr ⟨l₁, l, rfl⟩
  have hq : l₁ ++ p :: q :: l = (l₁ ++ [p]) ++ q :: l := by simp
  rw [Watch.replaceStep, replaceStep, h.text.nextPos_eq hpq, Run.ok_bind, Run.ok_bind,
    h.text.step_eq hq, Run.ok_bind, Run.ok_bind, hrun₁, Run.ok_bind, Run.ok_bind,
    exchangeRight_watched h hs hw hc' h₁]
  apply Run.bind_congr_ok
  intro S₂ hright
  have h₂ := (exchangeRight_meets h hs hc' h₁).of_ok hright
  rw [exchangeLeft_watched h hs hw hb h₂]

theorem ReplaceInv.replaceAll_watched (h : ReplaceInv P lab₀ D₀ oid R ps)
    (hs : TurnStart P R.n lab₀ D₀ R.u oid) (hw : w.Accepts oid P) :
    w.replaceAll oid R = replaceAll oid R := by
  rw [Watch.replaceAll, replaceAll, Block.read_eq h.store.oid_inB, Run.ok_bind, Run.ok_bind]
  refine congrArg (· >>= _) (Run.whileLoop_congr
    (fun s : Int × Repair => s.1 = (s.2.S.Rec.cells oid).cpos ∧
      ∃ ps', ReplaceInv P lab₀ D₀ oid s.2 ps' ∧ s.2.u = R.u ∧ s.2.n = R.n)
    (fun s hinv hgo => ?_) (fun s s' hinv hgo hrun => ?_) _ _ ⟨rfl, ps, h, rfl, rfl⟩)
  · obtain ⟨cpos, R'⟩ := s
    obtain ⟨hcpos, ps', h', hu, hn⟩ := hinv
    have hc : cpos ≠ -1 := of_decide_eq_true (Except.ok.inj hgo)
    dsimp only at hcpos h' hu hn ⊢
    rw [hcpos] at hc ⊢
    rw [h'.replaceStep_watched (by rw [hu, hn]; exact hs) hw hc]
  · obtain ⟨cpos, R'⟩ := s
    obtain ⟨hcpos, ps', h', hu, hn⟩ := hinv
    have hc : cpos ≠ -1 := of_decide_eq_true (Except.ok.inj hgo)
    dsimp only at hcpos h' hu hn hrun
    rw [hcpos] at hc hrun
    obtain ⟨R'', hstep, hrun⟩ := Run.bind_eq_ok.mp hrun
    obtain ⟨ps'', h'', hu', hn', -⟩ := (replaceStep_meets h' (by rw [hu, hn]; exact hs) hc).of_ok hstep
    rw [Block.read_eq h''.store.oid_inB, Run.ok_bind] at hrun
    cases hrun
    exact ⟨rfl, ps'', h'', hu'.trans hu, hn'.trans hn⟩

/-- A turn for an extracted pair. -/
theorem RepairInv.repairTurn_watched {H : Theap} (h : RepairInv R ps) (hoid : R.S.Rec.InB oid)
    (hindex : IndexInv { R.S with Heap := H } (labels R.inter ps)
      (fun pr => pr = (R.S.Rec.cells oid).pair) 0) (hw : w.Accepts oid (R.S.Rec.cells oid).pair) :
    w.repairTurn oid { R with S := { R.S with Heap := H } } =
      repairTurn oid { R with S := { R.S with Heap := H } } := by
  have hrec : ({ R.S with Heap := H } : PairStore).Rec.read oid = .ok (R.S.Rec.cells oid) :=
    Block.read_eq hoid
  rw [Watch.repairTurn, repairTurn]
  dsimp only at hrec ⊢
  rw [hrec, Run.ok_bind, Run.ok_bind,
    (h.replaceInv hoid hindex (R.rule ++ [(R.S.Rec.cells oid).pair])).replaceAll_watched
      (h.turnStart hoid) hw]

end Turn

/-! ## Runs -/

section Runs

variable {alph : Int}

theorem prepare_watched {inter : Block Int}
    (hsize : inter.size ≤ HeapInv.maxSqrtu * HeapInv.maxSqrtu) :
    Watch.pools.prepare alph inter = prepare alph inter := by
  obtain ⟨H, hrunH, hstart⟩ := prepareStart_meets hsize
  rw [Watch.prepare, prepare]
  dsimp only
  rw [hrunH, Run.ok_bind, Run.ok_bind]
  apply Run.bind_congr_ok
  intro hash hhash
  rw [Run.forLoop_congr (Passed inter) ((inter.size - 1).toNat : Int)
    (fun i S hi hS => ?_) (fun i S S' hi hS hrun => ?_) _ 0 _ (by omega) (hstart.of_ok hhash)]
  · rw [Watch.prepareStep, prepareStep]
    apply Run.bind_congr_ok
    intro left _
    apply Run.bind_congr_ok
    intro right _
    exact hS.index.createOcc_watched (fun id hready => if_pos hready) not_false
  · exact (prepareStep_meets hS (by have := hS.nonneg; omega)).of_ok hrun

theorem RepairInv.repairRound_watched {R : Repair} {ps : List Int} (h : RepairInv R ps)
    : Watch.pools.repairRound R = repairRound R := by
  rw [Watch.repairRound, repairRound]
  by_cases hleft : symbolsLeft R.n
  · obtain ⟨oid, H, hmax, hcase⟩ := h.index.extractMax_keeps
    rw [if_pos hleft, if_pos hleft, hmax, Run.ok_bind, Run.ok_bind]
    dsimp only
    rcases hcase with ⟨rfl, -⟩ | ⟨hoid, hindex, -⟩
    · rw [if_pos rfl, if_pos rfl]
    · rw [h.repairTurn_watched hoid hindex (Watch.pools_accepts _ _)]
  · rw [if_neg hleft, if_neg hleft]

theorem RepairInv.repairLoop_watched {R : Repair} {ps : List Int} (k : Nat) (h : RepairInv R ps)
    (halph : R.n = alph + R.rule.length) :
    Watch.pools.repairLoop k R = repairLoop k R := by
  induction k generalizing R ps with
  | zero => rfl
  | succ k ih =>
    rw [Watch.repairLoop, repairLoop, h.repairRound_watched]
    apply Run.bind_congr_ok
    rintro ⟨b, R'⟩ hround
    rcases (repairRound_meets h halph).of_ok hround with ⟨rfl, ps', h', halph', -⟩ | ⟨rfl, -⟩
    · rw [if_pos rfl, if_pos rfl]
      exact ih h' halph'
    · rw [if_neg Bool.false_ne_true, if_neg Bool.false_ne_true]

theorem EmptyText.repair_watched {R : Repair} (h : EmptyText alph R) :
    Watch.pools.repair R = repair R := by
  obtain ⟨-, H, hmax⟩ := h
  rw [Watch.repair, repair, Watch.repairLoop, repairLoop, Watch.repairRound, repairRound]
  by_cases hleft : symbolsLeft R.n
  · rw [if_pos hleft, if_pos hleft, hmax, Run.ok_bind, Run.ok_bind, if_pos rfl, if_pos rfl,
      Run.pure_bind, Run.pure_bind, if_neg Bool.false_ne_true, if_neg Bool.false_ne_true]
  · rw [if_neg hleft, if_neg hleft, Run.pure_bind, Run.pure_bind, if_neg Bool.false_ne_true,
      if_neg Bool.false_ne_true]

end Runs

/-- In a run of `prepare` and `repair` on a text that is not too long for `createHeap`, no `incFreq`
or `decFreq` takes a cell from an empty pool: the run that would stop there with a fault is the run
itself, and that one never stops with this fault. -/
theorem pools_suffice {alph : Int} {text : List Int} (htext : ∀ x ∈ text, 0 ≤ x ∧ x < alph)
    (hfit : (text.length : Int) ≤ HeapInv.maxSqrtu * HeapInv.maxSqrtu) :
    (Watch.pools.prepare alph (Block.ofList text) >>= Watch.pools.repair) =
        (prepare alph (Block.ofList text) >>= repair) ∧
      Run.Meets ProbeOnly (prepare alph (Block.ofList text) >>= repair) (fun _ => True) := by
  rw [prepare_watched hfit]
  by_cases hne : text = []
  · subst hne
    refine ⟨?_, repair_nil.mono fun _ _ => trivial⟩
    apply Run.bind_congr_ok
    intro R hrun
    exact (prepare_nil.of_ok hrun).repair_watched
  · refine ⟨?_, (repair_meets htext hne hfit).mono fun _ _ => trivial⟩
    apply Run.bind_congr_ok
    intro R hrun
    have hpos : (0 : Int) < text.length := Int.natCast_pos.mpr (List.length_pos_iff.mpr hne)
    obtain ⟨hinv, hn, hrule, -⟩ :=
      (prepare_meets hfit (fun p h0 hp => htext _ (mem_of_cells h0 hp)) hpos).of_ok hrun
    exact hinv.repairLoop_watched _ (by rw [hn, hrule]; exact (Int.add_zero alph).symm)

/-- The text `abab` takes a node and a frequency node for its pair `ab`. -/
theorem pools_suffice_abab : (4 : Int) ≤ HeapInv.maxSqrtu * HeapInv.maxSqrtu ∧
    (Watch.pools.prepare 2 (Block.ofList [0, 1, 0, 1]) >>= Watch.pools.repair) =
      (prepare 2 (Block.ofList [0, 1, 0, 1]) >>= repair) :=
  ⟨by decide, (pools_suffice (by decide) (by decide)).1⟩

/-- From `extractMax` to the end of the inner loop of a turn, for every text: no `removeRecord` of a
`decFreq` moves a record into or out of slot `oid`, which holds the extracted pair all the time, and
only records in the heap move. -/
theorem turn_keeps_record {alph : Int} {text : List Int} {R : Repair} {oid : Int} {H : Theap}
    (htext : ∀ x ∈ text, 0 ≤ x ∧ x < alph) (h : Reach alph (Block.ofList text) R)
    (hmax : extractMax R.S.Heap = .ok (oid, H)) (hoid : oid ≠ -1) :
    ∃ r, R.S.Rec.read oid = .ok r ∧
      (Watch.removals oid r.pair).replaceAll oid
          { R with S := { R.S with Heap := H }, rule := R.rule ++ [r.pair] } =
        replaceAll oid { R with S := { R.S with Heap := H }, rule := R.rule ++ [r.pair] } ∧
      Run.Meets ProbeOnly
        (replaceAll oid { R with S := { R.S with Heap := H }, rule := R.rule ++ [r.pair] })
        (fun R' => Holds oid r.pair R'.S ∧
          (oid ≠ R'.S.Rec.size - 1 → InHeap R'.S.Heap R'.S.Rec (R'.S.Rec.size - 1))) := by
  rcases h.cases_text htext with ⟨-, H', hmax'⟩ | ⟨ps, hgreedy⟩
  · rw [hmax] at hmax'
    cases hmax'
    exact absurd rfl hoid
  · have hinv := hgreedy.inv
    obtain ⟨oid', H', hmax', hcase⟩ := hinv.index.extractMax_keeps
    rw [hmax] at hmax'
    cases hmax'
    obtain ⟨hin, hindex, -⟩ := hcase.resolve_left fun hn => hoid hn.1
    have hstart := hinv.turnStart hin
    have hreplace := hinv.replaceInv hin hindex (R.rule ++ [(R.S.Rec.cells oid).pair])
    refine ⟨_, Block.read_eq hin, hreplace.replaceAll_watched hstart (Watch.removals_accepts _ _),
      (replaceAll_meets hreplace hstart).mono fun R' hR' => ?_⟩
    obtain ⟨ps', h', -⟩ := hR'
    refine ⟨⟨h'.store.oid_inB, h'.store.oid_pair⟩, fun hlast => ?_⟩
    have h0 := h'.store.oid_inB.1
    have h1 := h'.store.oid_inB.2
    have hlastin : R'.S.Rec.InB (R'.S.Rec.size - 1) := ⟨by omega, by omega⟩
    refine h'.store.index.inHeap hlastin fun hout => hlast ?_
    exact h'.store.index.lists.inj oid _ h'.store.oid_inB hlastin
      (h'.store.oid_pair.trans hout.symm)

/-- In the text `abcabc` the extracted pair has the last record when the turn begins. -/
theorem turn_keeps_record_abcabc : ∃ R H r, Reach 3 (Block.ofList [0, 1, 2, 0, 1, 2]) R ∧
    extractMax R.S.Heap = .ok (1, H) ∧ R.S.Rec.size = 2 ∧ R.S.Rec.read 1 = .ok r ∧
    (Watch.removals 1 r.pair).replaceAll 1
        { R with S := { R.S with Heap := H }, rule := R.rule ++ [r.pair] } =
      replaceAll 1 { R with S := { R.S with Heap := H }, rule := R.rule ++ [r.pair] } := by
  have hrun : (prepare 3 (Block.ofList [0, 1, 2, 0, 1, 2]) >>= fun R => extractMax R.S.Heap >>=
      fun e => pure (e.1, R.S.Rec.size)) = (.ok (1, 2) : Run (Int × Int)) := by decide +kernel
  obtain ⟨R, hprepare, hrun⟩ := Run.bind_eq_ok.mp hrun
  obtain ⟨⟨oid, H⟩, hmax, hres⟩ := Run.bind_eq_ok.mp hrun
  injection hres with hres
  injection hres with hoid hsize
  dsimp only at hoid hsize
  subst hoid
  have hreach := Reach.prepared hprepare
  obtain ⟨r, hr, hwatched, -⟩ := turn_keeps_record (by decide) hreach hmax (by decide)
  exact ⟨R, H, r, hreach, hmax, hsize, hr, hwatched⟩

end Laconic.RePair
