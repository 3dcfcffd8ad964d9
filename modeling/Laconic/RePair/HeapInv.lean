import Laconic.RePair.HighOps

/-!
# Re-Pair: the heap holds the records

`HeapInv H recs inH lo`: the records `inH` are exactly the ones in the heap, each at its `hpos` in
the bucket or the linked list of its `freq`.  While `purgeHeap` runs over the bucket of frequency 1,
the entries below `lo` are stale; otherwise `lo = 0`.
-/

namespace Laconic.RePair

/-- The nodes in use and the records that occur at least `sqrtu` times point to each other. -/
structure HighRecs (H : Theap) (recs : Block Trecord) (inH : Int → Prop)
    (v : Int → Option Int) : Prop where
  node : ∀ q f, v q = some f → H.sqrtu ≤ f ∧ inH (H.freq.cells q).id ∧
    (recs.cells (H.freq.cells q).id).freq = f ∧ (recs.cells (H.freq.cells q).id).hpos = q
  record : ∀ id, inH id → H.sqrtu ≤ (recs.cells id).freq →
    v (recs.cells id).hpos = some (recs.cells id).freq ∧
      (H.freq.cells (recs.cells id).hpos).id = id

/-- The linked lists hold the records that occur at least `sqrtu` times. -/
def HighPart (H : Theap) (recs : Block Trecord) (inH : Int → Prop) : Prop :=
  ∃ v, High H v ∧ HighRecs H recs inH v

structure HeapInv (H : Theap) (recs : Block Trecord) (inH : Int → Prop) (lo : Int) : Prop where
  two_le : 2 ≤ H.sqrtu
  infreqSize : H.infreq.size = H.sqrtu
  max_nonneg : 0 ≤ H.max
  max_le : H.max ≤ H.sqrtu
  size_nonneg : ∀ f, 1 ≤ f → f < H.sqrtu → 0 ≤ (H.infreq.cells f).size
  inB : ∀ id, inH id → recs.InB id
  freq_pos : ∀ id, inH id → 1 ≤ (recs.cells id).freq
  bucket : ∀ f k, 1 ≤ f → f < H.sqrtu → (H.infreq.cells f).InB k → (f = 1 → lo ≤ k) →
    inH ((H.infreq.cells f).cells k) ∧
      (recs.cells ((H.infreq.cells f).cells k)).freq = f ∧
      (recs.cells ((H.infreq.cells f).cells k)).hpos = k
  low : ∀ id, inH id → (recs.cells id).freq < H.sqrtu →
    (H.infreq.cells (recs.cells id).freq).InB (recs.cells id).hpos ∧
      ((recs.cells id).freq = 1 → lo ≤ (recs.cells id).hpos) ∧
      (H.infreq.cells (recs.cells id).freq).cells (recs.cells id).hpos = id
  high : HighPart H recs inH

/-- The records change in `freq` at `id` and in heap positions only. -/
structure FreqSet (recs recs' : Block Trecord) (id f : Int) : Prop where
  size : recs'.size = recs.size
  pair : ∀ j, (recs'.cells j).pair = (recs.cells j).pair
  cpos : ∀ j, (recs'.cells j).cpos = (recs.cells j).cpos
  kpos : ∀ j, (recs'.cells j).kpos = (recs.cells j).kpos
  freq : ∀ j, (recs'.cells j).freq = if j = id then f else (recs.cells j).freq

theorem FreqSet.set_hpos {recs recs' : Block Trecord} {id f : Int} (h : FreqSet recs recs' id f)
    (i p : Int) : FreqSet recs (recs'.upd i fun r => { r with hpos := p }) id f := by
  have hcell : ∀ j, (recs'.upd i fun r => { r with hpos := p }).cells j =
      { recs'.cells j with hpos := if j = i then p else (recs'.cells j).hpos } := fun j => by
    rw [Block.cells_upd]
    split
    · next he => rw [he]
    · rfl
  exact
    { size := h.size
      pair := fun j => by rw [hcell j]; exact h.pair j
      cpos := fun j => by rw [hcell j]; exact h.cpos j
      kpos := fun j => by rw [hcell j]; exact h.kpos j
      freq := fun j => by rw [hcell j]; exact h.freq j }

/-- `HighInv` does not read the buckets. -/
theorem HighInv.congr_low {H : Theap} {F : List (Int × List Int)} {FN FF FL : List Int}
    (h : HighInv H F FN FF FL) (infreq : Block (Block Int)) (max : Int) :
    HighInv { H with infreq := infreq, max := max } F FN FF FL :=
  ⟨h.freqSize, h.ffSize, h.chain, h.elems, h.fnode, h.sorted, h.nodes, h.ffs, h.freeN, h.freeF⟩

theorem High.congr_low {H : Theap} {v : Int → Option Int} (h : High H v)
    (infreq : Block (Block Int)) (max : Int) :
    High { H with infreq := infreq, max := max } v := by
  obtain ⟨F, FN, FF, hinv, hne, hv⟩ := h
  exact ⟨F, FN, FF, hinv.congr_low infreq max, hne, hv⟩

/-- Changing the record stored in a node leaves the lists alone. -/
theorem High.setId {H : Theap} {v : Int → Option Int} (h : High H v) (p id : Int) :
    High { H with freq := H.freq.upd p fun q => { q with id := id } } v := by
  obtain ⟨F, FN, FF, hinv, hne, hv⟩ := h
  have hcell : ∀ q, ((H.freq.upd p fun q => { q with id := id }).cells q).next =
      (H.freq.cells q).next ∧ ((H.freq.upd p fun q => { q with id := id }).cells q).prev =
      (H.freq.cells q).prev ∧ ((H.freq.upd p fun q => { q with id := id }).cells q).fnode =
      (H.freq.cells q).fnode := fun q => by
    rw [Block.cells_upd]
    split
    · next hq => rw [hq]; exact ⟨rfl, rfl, rfl⟩
    · exact ⟨rfl, rfl, rfl⟩
  refine ⟨F, FN, FF, ?_, hne, fun q f => ?_⟩
  · refine hinv.of_elems rfl rfl rfl (fun _ => ⟨rfl, rfl, rfl⟩) (fun x hx => ?_)
      (fun x hx q hq => ?_) (List.Perm.refl _) fun q _ => (hcell q).1
    · exact HighInv.elems_congr (hinv.elems x hx) (fun q _ => (hcell q).1) fun q _ => (hcell q).2.1
    · rw [(hcell q).2.2]
      exact hinv.fnode x hx q hq
  · rw [hv, nodeFreq, nodeFreq, (hcell q).2.2]

namespace HeapInv

variable {H H' : Theap} {recs recs' : Block Trecord} {inH inH' : Int → Prop} {lo id f : Int}

theorem infreq_inB (h : HeapInv H recs inH lo) (h1 : 1 ≤ f) (hlt : f < H.sqrtu) :
    H.infreq.InB f := ⟨by omega, by rw [h.infreqSize]; exact hlt⟩

/-- The linked lists do not see a change outside the records they hold. -/
theorem highPart_congr (h : HighPart H recs inH)
    (hrec : ∀ j, inH j → H.sqrtu ≤ (recs.cells j).freq → inH' j ∧
      (recs'.cells j).freq = (recs.cells j).freq ∧ (recs'.cells j).hpos = (recs.cells j).hpos)
    (hback : ∀ j, inH' j → H.sqrtu ≤ (recs'.cells j).freq → inH j ∧
      (recs'.cells j).freq = (recs.cells j).freq ∧ (recs'.cells j).hpos = (recs.cells j).hpos)
    (infreq : Block (Block Int)) (max : Int) :
    HighPart { H with infreq := infreq, max := max } recs' inH' := by
  obtain ⟨v, hv, hrecs⟩ := h
  refine ⟨v, hv.congr_low infreq max, fun q g hq => ?_, fun j hj hge => ?_⟩
  · obtain ⟨hge, hin, hf, hp⟩ := hrecs.node q g hq
    obtain ⟨hin', hf', hp'⟩ := hrec _ hin (hf ▸ hge)
    exact ⟨hge, hin', hf'.trans hf, hp'.trans hp⟩
  · obtain ⟨hin, hf, hp⟩ := hback j hj hge
    have := hrecs.record j hin (hf ▸ hge)
    rw [hf, hp]
    exact this

/-- The invariant reads `freq` and `hpos` of the records in the heap only. -/
theorem congr (h : HeapInv H recs inH lo) (hin : ∀ j, inH j → recs'.InB j)
    (hf : ∀ j, inH j → (recs'.cells j).freq = (recs.cells j).freq)
    (hp : ∀ j, inH j → (recs'.cells j).hpos = (recs.cells j).hpos) :
    HeapInv H recs' inH lo where
  two_le := h.two_le
  infreqSize := h.infreqSize
  max_nonneg := h.max_nonneg
  max_le := h.max_le
  size_nonneg := h.size_nonneg
  inB := hin
  freq_pos j hj := by rw [hf j hj]; exact h.freq_pos j hj
  bucket g k h1 hlt hk hlo := by
    obtain ⟨hj, hg, hkk⟩ := h.bucket g k h1 hlt hk hlo
    exact ⟨hj, (hf _ hj).trans hg, (hp _ hj).trans hkk⟩
  low j hj hlt := by
    rw [hf j hj] at hlt
    rw [hf j hj, hp j hj]
    exact h.low j hj hlt
  high := highPart_congr h.high (fun j hj _ => ⟨hj, hf j hj, hp j hj⟩)
    (fun j hj _ => ⟨hj, hf j hj, hp j hj⟩) H.infreq H.max

theorem live_congr (h : HeapInv H recs inH lo) (hl : ∀ j, inH' j ↔ inH j) :
    HeapInv H recs inH' lo := by
  have : inH' = inH := funext fun j => propext (hl j)
  rwa [this]

/-- Lowering `max` is invisible to the records. -/
theorem set_max (h : HeapInv H recs inH lo) {m : Int} (h0 : 0 ≤ m) (hm : m ≤ H.sqrtu) :
    HeapInv { H with max := m } recs inH lo :=
  ⟨h.two_le, h.infreqSize, h0, hm, h.size_nonneg, h.inB, h.freq_pos, h.bucket, h.low,
    highPart_congr h.high (fun _ hj _ => ⟨hj, rfl, rfl⟩) (fun _ hj _ => ⟨hj, rfl, rfl⟩) H.infreq m⟩

/-! ## Buckets -/

/-- The entries of the buckets, with `id` appended to bucket `f`. -/
theorem bucket_pushed (h : HeapInv H recs inH 0) (hf : (recs'.cells id).freq = f)
    (hp : (recs'.cells id).hpos = (H.infreq.cells f).size)
    (hrec : ∀ j, inH j → recs'.InB j ∧ (recs'.cells j).freq = (recs.cells j).freq ∧
      (recs'.cells j).hpos = (recs.cells j).hpos)
    {g k : Int} (hg : 1 ≤ g) (hg' : g < H.sqrtu)
    (hk : ((H.infreq.upd f fun A => A.push id).cells g).InB k) :
    (inH (((H.infreq.upd f fun A => A.push id).cells g).cells k) ∨
        ((H.infreq.upd f fun A => A.push id).cells g).cells k = id) ∧
      (recs'.cells (((H.infreq.upd f fun A => A.push id).cells g).cells k)).freq = g ∧
      (recs'.cells (((H.infreq.upd f fun A => A.push id).cells g).cells k)).hpos = k := by
  have hold : (H.infreq.cells g).InB k → (inH ((H.infreq.cells g).cells k) ∨
      (H.infreq.cells g).cells k = id) ∧
      (recs'.cells ((H.infreq.cells g).cells k)).freq = g ∧
      (recs'.cells ((H.infreq.cells g).cells k)).hpos = k := fun hk => by
    obtain ⟨hj, hjf, hjp⟩ := h.bucket g k hg hg' hk fun _ => hk.1
    exact ⟨Or.inl hj, (hrec _ hj).2.1.trans hjf, (hrec _ hj).2.2.trans hjp⟩
  by_cases hgf : g = f
  · subst hgf
    rw [Block.cells_upd_self] at hk ⊢
    rw [Block.cells_push]
    by_cases hks : k = (H.infreq.cells g).size
    · rw [if_pos hks]
      exact ⟨Or.inr rfl, hf, hp.trans hks.symm⟩
    · rw [if_neg hks]
      refine hold ⟨hk.1, ?_⟩
      have := hk.2
      rw [Block.size_push] at this
      omega
  · rw [Block.cells_upd_ne _ _ hgf] at hk ⊢
    exact hold hk

/-- The earlier records find their entries, in front of the new one. -/
theorem low_pushed (h : HeapInv H recs inH 0) {j : Int} (hj : inH j)
    (hlt : (recs.cells j).freq < H.sqrtu) :
    ((H.infreq.upd f fun A => A.push id).cells (recs.cells j).freq).InB (recs.cells j).hpos ∧
      ((H.infreq.upd f fun A => A.push id).cells (recs.cells j).freq).cells (recs.cells j).hpos =
        j := by
  obtain ⟨hb, -, hc⟩ := h.low j hj hlt
  by_cases hg : (recs.cells j).freq = f
  · rw [hg] at hb hc ⊢
    have hb₂ := hb.2
    rw [Block.cells_upd_self]
    refine ⟨⟨hb.1, ?_⟩, ?_⟩
    · rw [Block.size_push]
      omega
    · rw [Block.cells_push, if_neg (by omega)]
      exact hc
  · rw [Block.cells_upd_ne _ _ hg]
    exact ⟨hb, hc⟩

/-- Record `id` is appended to the bucket of its frequency. -/
theorem insertLow (h : HeapInv H recs inH 0) (hnew : ¬ inH id) (h1 : 1 ≤ f) (hlt : f < H.sqrtu)
    (hin : recs'.InB id) (hf : (recs'.cells id).freq = f)
    (hp : (recs'.cells id).hpos = (H.infreq.cells f).size)
    (hrec : ∀ j, inH j → recs'.InB j ∧ (recs'.cells j).freq = (recs.cells j).freq ∧
      (recs'.cells j).hpos = (recs.cells j).hpos) :
    HeapInv { H with infreq := H.infreq.upd f fun A => A.push id } recs'
      (fun j => inH j ∨ j = id) 0 := by
  have hsize := h.size_nonneg f h1 hlt
  refine
    { two_le := h.two_le
      infreqSize := h.infreqSize
      max_nonneg := h.max_nonneg
      max_le := h.max_le
      size_nonneg := fun g hg hg' => ?_
      inB := ?_
      freq_pos := ?_
      bucket := fun g k hg hg' hk _ => h.bucket_pushed hf hp hrec hg hg' hk
      low := ?_
      high := ?_ }
  · dsimp only
    by_cases hgf : g = f
    · rw [hgf, Block.cells_upd_self, Block.size_push]
      omega
    · rw [Block.cells_upd_ne _ _ hgf]
      exact h.size_nonneg g hg hg'
  · rintro j (hj | rfl)
    · exact (hrec j hj).1
    · exact hin
  · rintro j (hj | rfl)
    · rw [(hrec j hj).2.1]
      exact h.freq_pos j hj
    · omega
  · rintro j (hj | rfl) hlt'
    · obtain ⟨-, hjf, hjp⟩ := hrec j hj
      rw [hjf] at hlt' ⊢
      rw [hjp]
      obtain ⟨hb, hc⟩ := h.low_pushed hj hlt'
      exact ⟨hb, fun _ => hb.1, hc⟩
    · rw [hf, hp]
      dsimp only
      rw [Block.cells_upd_self]
      refine ⟨⟨hsize, ?_⟩, fun _ => hsize, ?_⟩
      · rw [Block.size_push]
        omega
      · rw [Block.cells_push, if_pos rfl]
  · refine highPart_congr h.high (fun j hj _ => ⟨Or.inl hj, (hrec j hj).2⟩) ?_ _ H.max
    rintro j (hj | rfl) hge
    · exact ⟨hj, (hrec j hj).2⟩
    · omega

/-- The last entry of the bucket of frequency `f`. -/
def lastEntry (infreq : Block (Block Int)) (f : Int) : Int :=
  (infreq.cells f).cells ((infreq.cells f).size - 1)

/-- The last entry of bucket `f` takes the place of entry `p`. -/
structure EntryTaken (infreq infreq' : Block (Block Int)) (f p : Int) : Prop where
  size : infreq'.size = infreq.size
  other : ∀ g, g ≠ f → infreq'.cells g = infreq.cells g
  len : (infreq'.cells f).size = (infreq.cells f).size - 1
  cells : ∀ k, (infreq'.cells f).cells k =
    if k = p then lastEntry infreq f else (infreq.cells f).cells k

/-- The last entry of a bucket is a record of this frequency, at the last index. -/
theorem lastEntry_spec (h : HeapInv H recs inH 0) (h1 : 1 ≤ f) (hlt : f < H.sqrtu)
    (hne : (H.infreq.cells f).size ≠ 0) :
    (H.infreq.cells f).InB ((H.infreq.cells f).size - 1) ∧ inH (lastEntry H.infreq f) ∧
      (recs.cells (lastEntry H.infreq f)).freq = f ∧
      (recs.cells (lastEntry H.infreq f)).hpos = (H.infreq.cells f).size - 1 := by
  have h0 := h.size_nonneg f h1 hlt
  have hin : (H.infreq.cells f).InB ((H.infreq.cells f).size - 1) := ⟨by omega, by omega⟩
  exact ⟨hin, h.bucket f _ h1 hlt hin fun _ => hin.1⟩

section Remove

variable {infreq : Block (Block Int)}

/-- The entries that remain in the buckets belong to the remaining records. -/
theorem bucket_taken (h : HeapInv H recs inH 0) (hid : inH id) (hlt : (recs.cells id).freq < H.sqrtu)
    (ht : EntryTaken H.infreq infreq (recs.cells id).freq (recs.cells id).hpos)
    (hrec : ∀ j, inH j → j ≠ id → recs'.InB j ∧ (recs'.cells j).freq = (recs.cells j).freq ∧
      (recs'.cells j).hpos = if j = lastEntry H.infreq (recs.cells id).freq
        then (recs.cells id).hpos else (recs.cells j).hpos)
    {g k : Int} (hg : 1 ≤ g) (hg' : g < H.sqrtu) (hk : (infreq.cells g).InB k) :
    (inH ((infreq.cells g).cells k) ∧ (infreq.cells g).cells k ≠ id) ∧
      (recs'.cells ((infreq.cells g).cells k)).freq = g ∧
      (recs'.cells ((infreq.cells g).cells k)).hpos = k := by
  obtain ⟨hpin, -, -⟩ := h.low id hid hlt
  have hp₁ := hpin.1
  have hp₂ := hpin.2
  obtain ⟨-, hlast, hlastf, hlastp⟩ := h.lastEntry_spec (h.freq_pos id hid) hlt (by omega)
  by_cases hgf : g = (recs.cells id).freq
  · have hk₁ := hk.1
    have hk₂ := hk.2
    rw [hgf, ht.len] at hk₂
    rw [hgf, ht.cells k]
    by_cases hkp : k = (recs.cells id).hpos
    · -- the moved entry
      rw [if_pos hkp]
      have hne : lastEntry H.infreq (recs.cells id).freq ≠ id := fun he => by
        rw [he] at hlastp
        omega
      obtain ⟨-, hff, hpp⟩ := hrec _ hlast hne
      exact ⟨⟨hlast, hne⟩, hff.trans hlastf, by rw [hpp, if_pos rfl, hkp]⟩
    · rw [if_neg hkp]
      obtain ⟨hj, hjf, hjp⟩ := h.bucket _ k (hgf ▸ hg) hlt ⟨hk₁, by omega⟩ fun _ => hk₁
      have hne : (H.infreq.cells (recs.cells id).freq).cells k ≠ id := fun he => by
        rw [he] at hjp
        exact hkp hjp.symm
      obtain ⟨-, hff, hpp⟩ := hrec _ hj hne
      refine ⟨⟨hj, hne⟩, hff.trans hjf, ?_⟩
      rw [hpp, if_neg, hjp]
      intro he
      rw [he] at hjp
      omega
  · rw [ht.other g hgf] at hk ⊢
    obtain ⟨hj, hjf, hjp⟩ := h.bucket g k hg hg' hk fun _ => hk.1
    have hne : (H.infreq.cells g).cells k ≠ id := fun he => hgf (by rw [← hjf, he])
    obtain ⟨-, hff, hpp⟩ := hrec _ hj hne
    refine ⟨⟨hj, hne⟩, hff.trans hjf, ?_⟩
    rw [hpp, if_neg, hjp]
    intro he
    rw [he, hlastf] at hjf
    exact hgf hjf.symm

/-- The remaining records find their entries. -/
theorem low_taken (h : HeapInv H recs inH 0) (hid : inH id) (hlt : (recs.cells id).freq < H.sqrtu)
    (ht : EntryTaken H.infreq infreq (recs.cells id).freq (recs.cells id).hpos) {j : Int}
    (hj : inH j) (hne : j ≠ id) (hjlt : (recs.cells j).freq < H.sqrtu) {k : Int}
    (hk : k = if j = lastEntry H.infreq (recs.cells id).freq
      then (recs.cells id).hpos else (recs.cells j).hpos) :
    (infreq.cells (recs.cells j).freq).InB k ∧ (infreq.cells (recs.cells j).freq).cells k = j := by
  obtain ⟨hpin, -, hpc⟩ := h.low id hid hlt
  have hp₁ := hpin.1
  have hp₂ := hpin.2
  obtain ⟨-, -, hlastf, hlastp⟩ := h.lastEntry_spec (h.freq_pos id hid) hlt (by omega)
  obtain ⟨hb, -, hc⟩ := h.low j hj hjlt
  by_cases hgf : (recs.cells j).freq = (recs.cells id).freq
  · rw [hgf] at hb hc ⊢
    by_cases hjl : j = lastEntry H.infreq (recs.cells id).freq
    · rw [if_pos hjl] at hk
      have hjp : (recs.cells j).hpos = (H.infreq.cells (recs.cells id).freq).size - 1 := by
        rw [hjl]
        exact hlastp
      have hnp : (recs.cells j).hpos ≠ (recs.cells id).hpos := fun he => by
        rw [he, hpc] at hc
        exact hne hc.symm
      refine ⟨⟨by omega, ?_⟩, ?_⟩
      · rw [ht.len]
        omega
      · rw [ht.cells, if_pos hk, ← hjl]
    · rw [if_neg hjl] at hk
      subst hk
      have hb₂ := hb.2
      have hnl : (recs.cells j).hpos ≠ (H.infreq.cells (recs.cells id).freq).size - 1 := fun he => by
        rw [he] at hc
        exact hjl hc.symm
      refine ⟨⟨hb.1, ?_⟩, ?_⟩
      · rw [ht.len]
        omega
      · rw [ht.cells, if_neg, hc]
        intro he
        rw [he, hpc] at hc
        exact hne hc.symm
  · rw [if_neg fun he => hgf (by rw [he, hlastf])] at hk
    rw [ht.other _ hgf, hk]
    exact ⟨hb, hc⟩

/-- Record `id` leaves its bucket; the last entry of the bucket takes its place. -/
theorem removeLow (h : HeapInv H recs inH 0) (hid : inH id) (hlt : (recs.cells id).freq < H.sqrtu)
    (ht : EntryTaken H.infreq infreq (recs.cells id).freq (recs.cells id).hpos)
    (hrec : ∀ j, inH j → j ≠ id → recs'.InB j ∧ (recs'.cells j).freq = (recs.cells j).freq ∧
      (recs'.cells j).hpos = if j = lastEntry H.infreq (recs.cells id).freq
        then (recs.cells id).hpos else (recs.cells j).hpos) :
    HeapInv { H with infreq := infreq } recs' (fun j => inH j ∧ j ≠ id) 0 := by
  obtain ⟨hpin, -, -⟩ := h.low id hid hlt
  have hp₁ := hpin.1
  have hp₂ := hpin.2
  obtain ⟨-, -, hlastf, -⟩ := h.lastEntry_spec (h.freq_pos id hid) hlt (by omega)
  -- a frequent record is not the entry that moves
  have hsep : ∀ j, H.sqrtu ≤ (recs.cells j).freq →
      j ≠ lastEntry H.infreq (recs.cells id).freq := by
    rintro j hge rfl
    omega
  refine
    { two_le := h.two_le
      infreqSize := ht.size.trans h.infreqSize
      max_nonneg := h.max_nonneg
      max_le := h.max_le
      size_nonneg := ?_
      inB := fun j hj => (hrec j hj.1 hj.2).1
      freq_pos := fun j hj => by rw [(hrec j hj.1 hj.2).2.1]; exact h.freq_pos j hj.1
      bucket := fun g k hg hg' hk _ => h.bucket_taken hid hlt ht hrec hg hg' hk
      low := ?_
      high := ?_ }
  · intro g hg hg'
    dsimp only
    by_cases hgf : g = (recs.cells id).freq
    · rw [hgf, ht.len]
      omega
    · rw [ht.other g hgf]
      exact h.size_nonneg g hg hg'
  · rintro j ⟨hj, hne⟩ hjlt
    obtain ⟨-, hff, hpp⟩ := hrec j hj hne
    rw [hff] at hjlt ⊢
    obtain ⟨hb, hc⟩ := h.low_taken hid hlt ht hj hne hjlt hpp
    exact ⟨hb, fun _ => hb.1, hc⟩
  · refine highPart_congr h.high (fun j hj hge => ?_) (fun j hj hge => ?_) infreq H.max
    · have hne : j ≠ id := fun he => by rw [he] at hge; omega
      obtain ⟨-, hff, hpp⟩ := hrec j hj hne
      exact ⟨⟨hj, hne⟩, hff, by rw [hpp, if_neg (hsep j hge)]⟩
    · obtain ⟨-, hff, hpp⟩ := hrec j hj.1 hj.2
      exact ⟨hj.1, hff, by rw [hpp, if_neg (hsep j (hff ▸ hge))]⟩

end Remove

/-! ## The operations of the heap -/

theorem insertInfreq_eq (hf : H.infreq.InB f) (hid : recs.InB id) :
    insertInfreq H recs f id = .ok ({ H with infreq := H.infreq.upd f fun A => A.push id },
      recs.upd id fun r => { r with hpos := (H.infreq.cells f).size }) := by
  simp only [insertInfreq, Block.read_eq hf, Block.write_eq hf, Block.modify_eq hid, Run.ok_bind]
  rfl

theorem removeInfreq_eq {p : Int} (hf : H.infreq.InB f) (hp : (H.infreq.cells f).InB p)
    (hid : recs.InB (lastEntry H.infreq f)) :
    ∃ infreq, removeInfreq H recs f p = .ok ({ H with infreq := infreq },
        recs.upd (lastEntry H.infreq f) fun r => { r with hpos := p }) ∧
      EntryTaken H.infreq infreq f p := by
  rw [lastEntry] at hid
  have hp₁ := hp.1
  have hp₂ := hp.2
  have hlast : (H.infreq.cells f).InB ((H.infreq.cells f).size - 1) := ⟨by omega, by omega⟩
  have hf' : ∀ A, (H.infreq.upd f fun _ => A).read f = .ok A := fun A => by
    rw [Block.read_eq (b := H.infreq.upd f fun _ => A) hf, Block.cells_upd_self]
  have hpop : ∀ g, ((H.infreq.cells f).upd p g).pop =
      .ok ⟨(H.infreq.cells f).size - 1, ((H.infreq.cells f).upd p g).cells⟩ := fun g =>
    Block.pop_eq (b := (H.infreq.cells f).upd p g) (by rw [Block.size_upd]; omega)
  have hwrite : ∀ A B, (H.infreq.upd f fun _ => A).write f B =
      .ok ((H.infreq.upd f fun _ => A).upd f fun _ => B) := fun A B =>
    Block.write_eq (b := H.infreq.upd f fun _ => A) hf B
  simp only [removeInfreq, move, deleteInfreq, Block.read_eq hf, Block.read_eq hlast,
    Block.write_eq hp, Block.write_eq hf, Block.modify_eq hid, Run.ok_bind, Run.pure_bind, hf',
    hpop, hwrite]
  refine ⟨_, rfl, rfl, fun g hg => ?_, ?_, fun k => ?_⟩
  · rw [Block.cells_upd_ne _ _ hg, Block.cells_upd_ne _ _ hg]
  · rw [Block.cells_upd_self]
  · rw [Block.cells_upd_self]
    rfl

/-- Taking a record out of its bucket; its own `freq` may have been changed before. -/
theorem removeInfreq_keeps {recs₁ : Block Trecord} (h : HeapInv H recs inH 0) (hid : inH id)
    (hlt : (recs.cells id).freq < H.sqrtu) (hset : FreqSet recs recs₁ id f)
    (hpos : ∀ j, (recs₁.cells j).hpos = (recs.cells j).hpos) :
    ∃ H' recs', removeInfreq H recs₁ (recs.cells id).freq (recs.cells id).hpos = .ok (H', recs') ∧
      HeapInv H' recs' (fun j => inH j ∧ j ≠ id) 0 ∧ FreqSet recs recs' id f ∧
      H'.sqrtu = H.sqrtu := by
  have h1 := h.freq_pos id hid
  obtain ⟨hpin, -, -⟩ := h.low id hid hlt
  have hp₁ := hpin.1
  have hp₂ := hpin.2
  obtain ⟨-, hlast, -, -⟩ := h.lastEntry_spec h1 hlt (by omega)
  have hinB : ∀ j, inH j → recs₁.InB j := fun j hj =>
    ⟨(h.inB j hj).1, by rw [hset.size]; exact (h.inB j hj).2⟩
  obtain ⟨infreq, hrun, ht⟩ := removeInfreq_eq (h.infreq_inB h1 hlt) hpin (hinB _ hlast)
  refine ⟨_, _, hrun, ?_, ?_, rfl⟩
  · refine h.removeLow hid hlt ht fun j hj hne => ?_
    refine ⟨hinB j hj, ?_, ?_⟩
    · rw [Block.cells_upd]
      split
      · next he => rw [← he, hset.freq, if_neg hne]
      · rw [hset.freq, if_neg hne]
    · rw [Block.cells_upd]
      split
      · rfl
      · exact hpos j
  · exact hset.set_hpos _ _

/-- Appending a record to the bucket of its frequency. -/
theorem insertInfreq_keeps {recs₀ : Block Trecord} (h : HeapInv H recs inH 0) (hnew : ¬ inH id)
    (h1 : 1 ≤ f) (hlt : f < H.sqrtu) (hin : recs.InB id) (hset : FreqSet recs₀ recs id f) :
    ∃ H' recs', insertInfreq H recs f id = .ok (H', recs') ∧
      HeapInv H' recs' (fun j => inH j ∨ j = id) 0 ∧ FreqSet recs₀ recs' id f ∧
      H'.sqrtu = H.sqrtu := by
  have hcell : ∀ j, (recs.upd id fun r => { r with hpos := (H.infreq.cells f).size }).cells j =
      { recs.cells j with hpos := if j = id then (H.infreq.cells f).size
        else (recs.cells j).hpos } := fun j => by
    rw [Block.cells_upd]
    split
    · next he => rw [he]
    · rfl
  refine ⟨_, _, insertInfreq_eq (h.infreq_inB h1 hlt) hin, ?_, ?_, rfl⟩
  · refine h.insertLow hnew h1 hlt hin ?_ ?_ fun j hj => ⟨h.inB j hj, ?_, ?_⟩
    · rw [hcell]
      dsimp only
      rw [hset.freq, if_pos rfl]
    · rw [hcell]
      exact if_pos rfl
    · rw [hcell]
    · rw [hcell]
      exact if_neg fun he : j = id => hnew (he ▸ hj)
  · exact hset.set_hpos _ _

/-- A change of the linked lists with the buckets left alone. -/
theorem of_sameLow (h : HeapInv H recs inH lo) (hlow : SameLow H H')
    (hto : ∀ j, inH j → (recs.cells j).freq < H.sqrtu → inH' j ∧
      (recs'.cells j).freq = (recs.cells j).freq ∧ (recs'.cells j).hpos = (recs.cells j).hpos)
    (hfrom : ∀ j, inH' j → (recs'.cells j).freq < H.sqrtu → inH j ∧
      (recs'.cells j).freq = (recs.cells j).freq ∧ (recs'.cells j).hpos = (recs.cells j).hpos)
    (hin : ∀ j, inH' j → recs'.InB j) (hpos : ∀ j, inH' j → 1 ≤ (recs'.cells j).freq)
    (hhigh : HighPart H' recs' inH') : HeapInv H' recs' inH' lo := by
  obtain ⟨hi, hs, hm⟩ := hlow
  refine
    { two_le := hs ▸ h.two_le
      infreqSize := by rw [hi, hs]; exact h.infreqSize
      max_nonneg := hm ▸ h.max_nonneg
      max_le := by rw [hm, hs]; exact h.max_le
      size_nonneg := by rw [hi, hs]; exact h.size_nonneg
      inB := hin
      freq_pos := hpos
      bucket := ?_
      low := ?_
      high := hhigh }
  · rw [hi, hs]
    intro g k hg hg' hk hlo
    obtain ⟨hj, hjf, hjp⟩ := h.bucket g k hg hg' hk hlo
    obtain ⟨hj', hf', hp'⟩ := hto _ hj (by rw [hjf]; exact hg')
    exact ⟨hj', hf'.trans hjf, hp'.trans hjp⟩
  · rw [hi, hs]
    intro j hj hlt
    obtain ⟨hj', hf', hp'⟩ := hfrom j hj hlt
    rw [hf'] at hlt ⊢
    rw [hp']
    exact h.low j hj' hlt

/-- `incFreq` and `decFreq` between two frequencies of the linked lists. -/
theorem move_high (h : HeapInv H recs inH 0) (hid : inH id) (hge : H.sqrtu ≤ (recs.cells id).freq)
    (hge' : H.sqrtu ≤ f) (hset : FreqSet recs recs' id f)
    (hpos : ∀ j, (recs'.cells j).hpos = (recs.cells j).hpos)
    (hlow : SameLow H H') (hids : ∀ q, (H'.freq.cells q).id = (H.freq.cells q).id)
    {v : Int → Option Int} (hrecs : HighRecs H recs inH v)
    (hv : High H' (Function.update v (recs.cells id).hpos (some f))) :
    HeapInv H' recs' inH 0 := by
  have h2 := h.two_le
  have hother : ∀ j, j ≠ id → (recs'.cells j).freq = (recs.cells j).freq := fun j hj => by
    rw [hset.freq, if_neg hj]
  refine h.of_sameLow hlow ?_ ?_ ?_ ?_ ⟨_, hv, fun q g hq => ?_, fun j hj hjge => ?_⟩
  · intro j hj hlt
    exact ⟨hj, hother j fun he => by rw [he] at hlt; omega, hpos j⟩
  · intro j hj hlt
    refine ⟨hj, hother j fun he => ?_, hpos j⟩
    rw [he, hset.freq, if_pos rfl] at hlt
    omega
  · intro j hj
    exact ⟨(h.inB j hj).1, by rw [hset.size]; exact (h.inB j hj).2⟩
  · intro j hj
    rw [hset.freq]
    split
    · omega
    · exact h.freq_pos j hj
  · rw [hids, hlow.2.1, hpos]
    by_cases hqp : q = (recs.cells id).hpos
    · rw [hqp, Function.update_self, Option.some_inj] at hq
      rw [hqp, (hrecs.record id hid hge).2, hset.freq, if_pos rfl]
      exact ⟨hq ▸ hge', hid, hq, rfl⟩
    · rw [Function.update_of_ne hqp] at hq
      obtain ⟨hg, hin, hf, hp⟩ := hrecs.node q g hq
      refine ⟨hg, hin, ?_, hp⟩
      rw [hother _ fun he => hqp (by rw [← hp, he]), hf]
  · rw [hids, hpos]
    rw [hlow.2.1] at hjge
    by_cases hjid : j = id
    · subst hjid
      rw [Function.update_self, hset.freq, if_pos rfl]
      exact ⟨rfl, (hrecs.record j hid hge).2⟩
    · rw [hother j hjid] at hjge ⊢
      obtain ⟨h₁, h₂⟩ := hrecs.record j hj hjge
      refine ⟨?_, h₂⟩
      rw [Function.update_of_ne, h₁]
      intro he
      rw [he, (hrecs.record id hid hge).2] at h₂
      exact hjid h₂.symm

/-- A record leaves the linked lists. -/
theorem leave_high (h : HeapInv H recs inH 0) (hid : inH id) (hge : H.sqrtu ≤ (recs.cells id).freq)
    (hset : FreqSet recs recs' id f) (hpos : ∀ j, (recs'.cells j).hpos = (recs.cells j).hpos)
    (hlow : SameLow H H') (hids : ∀ q, (H'.freq.cells q).id = (H.freq.cells q).id)
    {v : Int → Option Int} (hrecs : HighRecs H recs inH v)
    (hv : High H' (Function.update v (recs.cells id).hpos none)) :
    HeapInv H' recs' (fun j => inH j ∧ j ≠ id) 0 := by
  have hother : ∀ j, j ≠ id → (recs'.cells j).freq = (recs.cells j).freq := fun j hj => by
    rw [hset.freq, if_neg hj]
  refine h.of_sameLow hlow ?_ ?_ ?_ ?_ ⟨_, hv, fun q g hq => ?_, fun j hj hjge => ?_⟩
  · intro j hj hlt
    have hne : j ≠ id := fun he => by rw [he] at hlt; omega
    exact ⟨⟨hj, hne⟩, hother j hne, hpos j⟩
  · intro j hj _
    exact ⟨hj.1, hother j hj.2, hpos j⟩
  · intro j hj
    exact ⟨(h.inB j hj.1).1, by rw [hset.size]; exact (h.inB j hj.1).2⟩
  · intro j hj
    rw [hother j hj.2]
    exact h.freq_pos j hj.1
  · rw [hids, hlow.2.1, hpos]
    have hqp : q ≠ (recs.cells id).hpos := fun he => by
      rw [he, Function.update_self] at hq
      simp at hq
    rw [Function.update_of_ne hqp] at hq
    obtain ⟨hg, hin, hf, hp⟩ := hrecs.node q g hq
    have hne : (H.freq.cells q).id ≠ id := fun he => hqp (by rw [← hp, he])
    exact ⟨hg, ⟨hin, hne⟩, by rw [hother _ hne, hf], hp⟩
  · rw [hids, hpos, hother j hj.2]
    rw [hlow.2.1, hother j hj.2] at hjge
    obtain ⟨h₁, h₂⟩ := hrecs.record j hj.1 hjge
    refine ⟨?_, h₂⟩
    rw [Function.update_of_ne, h₁]
    intro he
    rw [he, (hrecs.record id hid hge).2] at h₂
    exact hj.2 h₂.symm

/-- A record enters the linked lists. -/
theorem enter_high (h : HeapInv H recs inH 0) (hnew : ¬ inH id) (hin : recs.InB id)
    (hge : H.sqrtu ≤ f) (hf : (recs.cells id).freq = f) (hlow : SameLow H H') {p : Int}
    (hids : ∀ q, (H'.freq.cells q).id = if q = p then id else (H.freq.cells q).id)
    {v : Int → Option Int} (hfree : v p = none) (hrecs : HighRecs H recs inH v)
    (hv : High H' (Function.update v p (some f))) :
    HeapInv H' (recs.upd id fun r => { r with hpos := p }) (fun j => inH j ∨ j = id) 0 := by
  have h2 := h.two_le
  have hother : ∀ j, inH j → (recs.upd id fun r => { r with hpos := p }).cells j = recs.cells j :=
    fun j hj => Block.cells_upd_ne _ _ fun he : j = id => hnew (he ▸ hj)
  refine h.of_sameLow hlow ?_ ?_ ?_ ?_ ⟨_, hv, fun q g hq => ?_, ?_⟩
  · intro j hj _
    rw [hother j hj]
    exact ⟨Or.inl hj, rfl, rfl⟩
  · rintro j (hj | rfl) hlt
    · rw [hother j hj]
      exact ⟨hj, rfl, rfl⟩
    · rw [Block.cells_upd_self] at hlt
      dsimp only at hlt
      omega
  · rintro j (hj | rfl)
    · exact h.inB j hj
    · exact hin
  · rintro j (hj | rfl)
    · rw [hother j hj]
      exact h.freq_pos j hj
    · rw [Block.cells_upd_self]
      dsimp only
      omega
  · rw [hids, hlow.2.1]
    by_cases hqp : q = p
    · rw [hqp, Function.update_self, Option.some_inj] at hq
      rw [if_pos hqp, Block.cells_upd_self]
      exact ⟨hq ▸ hge, Or.inr rfl, hf.trans hq, hqp.symm⟩
    · rw [Function.update_of_ne hqp] at hq
      obtain ⟨hg, hin, hf, hp⟩ := hrecs.node q g hq
      rw [if_neg hqp, hother _ hin]
      exact ⟨hg, Or.inl hin, hf, hp⟩
  · rintro j (hj | rfl) hjge
    · rw [hother j hj] at hjge ⊢
      rw [hlow.2.1] at hjge
      obtain ⟨h₁, h₂⟩ := hrecs.record j hj hjge
      have hne : (recs.cells j).hpos ≠ p := fun he => by
        rw [he, hfree] at h₁
        simp at h₁
      rw [Function.update_of_ne hne, hids, if_neg hne]
      exact ⟨h₁, h₂⟩
    · rw [Block.cells_upd_self]
      dsimp only
      rw [Function.update_self, hids, if_pos rfl, hf]
      exact ⟨rfl, rfl⟩

/-- Two records with nodes in the linked lists have different nodes. -/
theorem exists_free (h : HeapInv H recs inH 0) {v : Int → Option Int} (hv : High H v)
    (hrecs : HighRecs H recs inH v)
    (hcap : ∀ ids : List Int, ids.Nodup →
      (∀ j ∈ ids, inH j ∧ H.sqrtu ≤ (recs.cells j).freq) → (ids.length : Int) < H.sqrtu) :
    ∃ q, H.freq.InB q ∧ v q = none := by
  obtain ⟨F, FN, FF, hinv, hne, hvF⟩ := hv
  have h2 := h.two_le
  cases FN with
  | cons q FN =>
    refine ⟨q, hinv.node_inB (by simp), ?_⟩
    cases hq : v q with
    | none => rfl
    | some f => exact absurd (hinv.mem_elems_iff.mp ((hvF q f).mp hq).1).2 (by simp)
  | nil =>
    -- every node is in use by a record of its own
    have hnd := hinv.nodup_nodes
    have hlen := hinv.nodes.length_eq
    simp only [List.nil_append] at hnd hlen
    have hnode : ∀ q ∈ F.flatMap Prod.snd, inH (H.freq.cells q).id ∧
        H.sqrtu ≤ (recs.cells (H.freq.cells q).id).freq ∧
        (recs.cells (H.freq.cells q).id).hpos = q := fun q hq => by
      obtain ⟨h₁, h₂, h₃, h₄⟩ := hrecs.node q _ ((hvF q _).mpr ⟨hq, rfl⟩)
      exact ⟨h₂, h₃ ▸ h₁, h₄⟩
    have hids : ((F.flatMap Prod.snd).map fun q => (H.freq.cells q).id).Nodup := by
      refine List.Nodup.map_on (fun q hq q' hq' he => ?_) hnd
      rw [← (hnode q hq).2.2, ← (hnode q' hq').2.2, he]
    have := hcap _ hids fun j hj => by
      obtain ⟨q, hq, rfl⟩ := List.mem_map.mp hj
      exact ⟨(hnode q hq).1, (hnode q hq).2.1⟩
    rw [List.length_map, hlen, length_slots] at this
    omega

theorem freqSet_upd (recs : Block Trecord) (id : Int) (g : Int → Int) :
    FreqSet recs (recs.upd id fun r => { r with freq := g r.freq }) id (g (recs.cells id).freq) := by
  have hcell : ∀ j, (recs.upd id fun r => { r with freq := g r.freq }).cells j =
      { recs.cells j with freq := if j = id then g (recs.cells id).freq
        else (recs.cells j).freq } := fun j => by
    rw [Block.cells_upd]
    split
    · next he => rw [he]
    · rfl
  exact
    { size := rfl
      pair := fun j => by rw [hcell j]
      cpos := fun j => by rw [hcell j]
      kpos := fun j => by rw [hcell j]
      freq := fun j => by rw [hcell j] }

theorem hpos_upd (recs : Block Trecord) (id : Int) (g : Int → Int) (j : Int) :
    ((recs.upd id fun r => { r with freq := g r.freq }).cells j).hpos = (recs.cells j).hpos := by
  rw [Block.cells_upd]
  split
  · next he => rw [he]
  · rfl

/-- `incFreq` moves a record to the next frequency.  `hcap` bounds the number of frequent pairs by
the size of the node pool. -/
theorem incFreq_keeps (h : HeapInv H recs inH 0) (id : Int) (hid : inH id)
    (hcap : ∀ ids : List Int, ids.Nodup →
      (∀ j ∈ ids, inH j ∧ H.sqrtu ≤ (recs.cells j).freq) → (ids.length : Int) < H.sqrtu) :
    ∃ H' recs', incFreq H recs id = .ok (H', recs') ∧ HeapInv H' recs' inH 0 ∧
      FreqSet recs recs' id ((recs.cells id).freq + 1) ∧ H'.sqrtu = H.sqrtu := by
  have hin := h.inB id hid
  have h1 := h.freq_pos id hid
  have hset := freqSet_upd recs id (· + 1)
  simp only [incFreq, Block.read_eq hin, Block.modify_eq hin, Run.ok_bind]
  by_cases hge : H.sqrtu ≤ (recs.cells id).freq
  · rw [if_pos hge]
    obtain ⟨v, hv, hrecs⟩ := h.high
    obtain ⟨H', hrun, hv', hids, hlow⟩ := hv.incHigh (hrecs.record id hid hge).1
    rw [hrun]
    refine ⟨H', _, rfl, ?_, hset, hlow.2.1⟩
    exact h.move_high hid hge (by omega) hset (hpos_upd recs id (· + 1)) hlow hids hrecs hv'
  · rw [if_neg hge]
    obtain ⟨H₁, recs₁, hrun, h₁, hset₁, hs₁⟩ :=
      h.removeInfreq_keeps hid (by omega) hset (hpos_upd recs id (· + 1))
    rw [hrun, Run.ok_bind, hs₁]
    have hnew : ¬ (inH id ∧ id ≠ id) := fun hn => hn.2 rfl
    have hin₁ : recs₁.InB id := ⟨hin.1, by rw [hset₁.size]; exact hin.2⟩
    have hback : ∀ j, inH j ↔ (inH j ∧ j ≠ id) ∨ j = id := fun j => by
      by_cases hj : j = id
      · simp [hj, hid]
      · simp [hj]
    by_cases hlt : (recs.cells id).freq + 1 < H.sqrtu
    · rw [if_pos hlt]
      obtain ⟨H', recs', hrun', h', hset', hs'⟩ :=
        h₁.insertInfreq_keeps hnew (by omega) (by rw [hs₁]; exact hlt) hin₁ hset₁
      exact ⟨H', recs', hrun', h'.live_congr hback, hset', hs'.trans hs₁⟩
    · rw [if_neg hlt]
      have hsq : (recs.cells id).freq + 1 = H₁.sqrtu := by omega
      obtain ⟨v, hv, hrecs⟩ := h₁.high
      have hfree := h₁.exists_free hv hrecs fun ids hnd hall => by
        rw [hs₁]
        refine hcap ids hnd fun j hj => ?_
        obtain ⟨⟨hj₁, hj₂⟩, hj₃⟩ := hall j hj
        rw [hset₁.freq, if_neg hj₂, hs₁] at hj₃
        exact ⟨hj₁, hj₃⟩
      obtain ⟨H', p, hrun', hp, hv', hids, hlow⟩ := hv.enterHigh (f := (recs.cells id).freq + 1)
        hfree (fun q g hq => by have := (hrecs.node q g hq).1; omega) hin₁
      refine ⟨H', _, hrun', ?_, ?_, hlow.2.1.trans hs₁⟩
      · refine (h₁.enter_high hnew hin₁ (by omega) ?_ hlow hids hp hrecs hv').live_congr hback
        rw [hset₁.freq, if_pos rfl]
      · exact hset₁.set_hpos _ _

/-- `decFreq` moves a record to the frequency below; at frequency 0 it is out of the heap. -/
theorem decHeap_keeps (h : HeapInv H recs inH 0) (id : Int) (hid : inH id) :
    ∃ H' recs', decHeap H recs id = .ok (H', recs') ∧
      HeapInv H' recs' (fun j => inH j ∧ (j = id → 1 < (recs.cells id).freq)) 0 ∧
      FreqSet recs recs' id ((recs.cells id).freq - 1) ∧ H'.sqrtu = H.sqrtu := by
  have hin := h.inB id hid
  have h1 := h.freq_pos id hid
  have h2 := h.two_le
  have hset := freqSet_upd recs id (· - 1)
  simp only [decHeap, Block.read_eq hin, Block.modify_eq hin, Run.ok_bind]
  by_cases hgt : H.sqrtu < (recs.cells id).freq
  · rw [if_pos hgt]
    obtain ⟨v, hv, hrecs⟩ := h.high
    obtain ⟨H', hrun, hv', hids, hlow⟩ := hv.decHigh (hrecs.record id hid (by omega)).1
    rw [hrun]
    refine ⟨H', _, rfl, ?_, hset, hlow.2.1⟩
    refine (h.move_high hid (by omega) (by omega) hset (hpos_upd recs id (· - 1)) hlow hids hrecs
      hv').live_congr fun j => ?_
    exact ⟨fun hj => hj.1, fun hj => ⟨hj, fun _ => by omega⟩⟩
  · rw [if_neg hgt]
    -- the record is taken out of its bucket or its list
    have hout : ∃ H₁ recs₁, (if (recs.cells id).freq < H.sqrtu
        then removeInfreq H (recs.upd id fun r => { r with freq := r.freq - 1 })
          (recs.cells id).freq (recs.cells id).hpos
        else do
          let H ← leaveHigh H (recs.cells id).hpos
          pure (H, recs.upd id fun r => { r with freq := r.freq - 1 })) = .ok (H₁, recs₁) ∧
        HeapInv H₁ recs₁ (fun j => inH j ∧ j ≠ id) 0 ∧
        FreqSet recs recs₁ id ((recs.cells id).freq - 1) ∧ H₁.sqrtu = H.sqrtu := by
      by_cases hlt : (recs.cells id).freq < H.sqrtu
      · rw [if_pos hlt]
        exact h.removeInfreq_keeps hid hlt hset (hpos_upd recs id (· - 1))
      · rw [if_neg hlt]
        obtain ⟨v, hv, hrecs⟩ := h.high
        obtain ⟨H', hrun, hv', hids, hlow⟩ := hv.leaveHigh (hrecs.record id hid (by omega)).1
          fun q g hq => by have := (hrecs.node q g hq).1; omega
        rw [hrun]
        refine ⟨H', _, rfl, ?_, hset, hlow.2.1⟩
        exact h.leave_high hid (by omega) hset (hpos_upd recs id (· - 1)) hlow hids hrecs hv'
    obtain ⟨H₁, recs₁, hrun, h₁, hset₁, hs₁⟩ := hout
    rw [hrun, Run.ok_bind]
    have hnew : ¬ (inH id ∧ id ≠ id) := fun hn => hn.2 rfl
    have hin₁ : recs₁.InB id := ⟨hin.1, by rw [hset₁.size]; exact hin.2⟩
    by_cases hpos : 0 < (recs.cells id).freq - 1
    · rw [if_pos hpos]
      obtain ⟨H', recs', hrun', h', hset', hs'⟩ :=
        h₁.insertInfreq_keeps hnew (by omega) (by omega) hin₁ hset₁
      refine ⟨H', recs', hrun', h'.live_congr fun j => ?_, hset', hs'.trans hs₁⟩
      by_cases hj : j = id
      · subst hj
        simp only [hid, true_and, forall_const, ne_eq, not_true_eq_false, and_false, or_true,
          iff_true]
        omega
      · simp [hj]
    · rw [if_neg hpos]
      refine ⟨H₁, recs₁, rfl, h₁.live_congr fun j => ?_, hset₁, hs₁⟩
      refine and_congr_right fun _ => ⟨fun hj he => ?_, fun hj he => absurd he hj⟩
      have := hj he
      omega

theorem insertHeap_eq (hb : H.infreq.InB 1) (hin : recs.InB id) :
    ∃ recs', insertHeap H recs id =
        .ok ({ H with infreq := H.infreq.upd 1 fun A => A.push id }, recs') ∧
      recs'.size = recs.size ∧ ∀ j, recs'.cells j = { recs.cells j with
        hpos := if j = id then (H.infreq.cells 1).size else (recs.cells j).hpos
        freq := if j = id then 1 else (recs.cells j).freq } := by
  have hin' : (recs.upd id fun r => { r with hpos := (H.infreq.cells 1).size }).InB id := hin
  simp only [insertHeap, insertInfreq_eq hb hin, Run.ok_bind, Block.modify_eq hin']
  refine ⟨_, rfl, rfl, fun j => ?_⟩
  rw [Block.cells_upd, Block.cells_upd_self, Block.cells_upd]
  split
  · next he => rw [he]
  · rfl

/-- `insertHeap` puts a new record into the bucket of frequency 1. -/
theorem insertHeap_keeps (h : HeapInv H recs inH 0) (id : Int) (hnew : ¬ inH id)
    (hin : recs.InB id) :
    ∃ H' recs', insertHeap H recs id = .ok (H', recs') ∧
      HeapInv H' recs' (fun j => inH j ∨ j = id) 0 ∧ FreqSet recs recs' id 1 ∧
      H'.sqrtu = H.sqrtu := by
  have h2 := h.two_le
  obtain ⟨recs', hrun, hsize, hcell⟩ := insertHeap_eq (h.infreq_inB (by omega) (by omega)) hin
  have hin' : ∀ j, recs.InB j → recs'.InB j := fun j hj => ⟨hj.1, by rw [hsize]; exact hj.2⟩
  refine ⟨_, recs', hrun, ?_, ?_, rfl⟩
  · refine h.insertLow hnew (by omega) (by omega) (hin' id hin) ?_ ?_ fun j hj =>
      ⟨hin' j (h.inB j hj), ?_, ?_⟩
    · rw [hcell]
      exact if_pos rfl
    · rw [hcell]
      exact if_pos rfl
    · rw [hcell]
      exact if_neg fun he : j = id => hnew (he ▸ hj)
    · rw [hcell]
      exact if_neg fun he : j = id => hnew (he ▸ hj)
  · exact
      { size := hsize
        pair := fun j => by rw [hcell j]
        cpos := fun j => by rw [hcell j]
        kpos := fun j => by rw [hcell j]
        freq := fun j => by rw [hcell j] }

/-! ## Extraction -/

/-- The last record of a bucket leaves the heap. -/
theorem dropLast (h : HeapInv H recs inH 0) (h1 : 1 ≤ f) (hlt : f < H.sqrtu)
    (hne : (H.infreq.cells f).size ≠ 0) :
    ∃ H', deleteInfreq H f = .ok H' ∧ H'.sqrtu = H.sqrtu ∧ H'.max = H.max ∧
      HeapInv H' recs (fun j => inH j ∧ j ≠ lastEntry H.infreq f) 0 := by
  have hf := h.infreq_inB h1 hlt
  have h0 := h.size_nonneg f h1 hlt
  obtain ⟨-, hlast, hlastf, hlastp⟩ := h.lastEntry_spec h1 hlt hne
  simp only [deleteInfreq, Block.read_eq hf, Block.pop_eq (show 0 < (H.infreq.cells f).size by omega),
    Block.write_eq hf, Run.ok_bind]
  refine ⟨_, rfl, rfl, rfl, ?_⟩
  refine h.removeLow hlast (by rw [hlastf]; exact hlt) ?_
    fun j hj hne => ⟨h.inB j hj, rfl, by rw [hlastf, if_neg hne]⟩
  rw [hlastf, hlastp]
  refine ⟨rfl, fun g hg => Block.cells_upd_ne _ _ hg, ?_, fun k => ?_⟩
  · rw [Block.cells_upd_self]
  · rw [Block.cells_upd_self]
    split
    · next hk => rw [hk, lastEntry]
    · rfl

/-- `lowerMax` stops at a nonempty bucket or at 0, with empty buckets behind it. -/
theorem lowerMax_keeps (h : HeapInv H recs inH 0) (hlt : H.max < H.sqrtu) :
    ∃ m, lowerMax H = .ok { H with max := m } ∧
      (0 ≤ m ∧ m < H.sqrtu ∧ ∀ f, m < f → f ≤ H.max → (H.infreq.cells f).size = 0) ∧
      (m ≠ 0 → (H.infreq.cells m).size ≠ 0) := by
  have hrun := Run.meets_whileLoop (E := fun _ => False)
    (fun H : Theap => if H.max = 0 then pure false
      else do
        let A ← H.infreq.read H.max
        pure (decide (A.size = 0)))
    (fun H => pure { H with max := H.max - 1 })
    (fun H' => ∃ m, H' = { H with max := m } ∧
      (0 ≤ m ∧ m < H.sqrtu ∧ ∀ f, m < f → f ≤ H.max → (H.infreq.cells f).size = 0))
    (fun H' => ∃ m, H' = { H with max := m } ∧
      (0 ≤ m ∧ m < H.sqrtu ∧ ∀ f, m < f → f ≤ H.max → (H.infreq.cells f).size = 0) ∧
      (m ≠ 0 → (H.infreq.cells m).size ≠ 0))
    (fun H => H.max.toNat) ?_ (H.max.toNat + 1) H (by omega)
    ⟨H.max, rfl, h.max_nonneg, hlt, fun f _ _ => by omega⟩
  · obtain ⟨H', hrun, m, rfl, hm⟩ := hrun.exists_ok fun e he => he.elim
    exact ⟨m, hrun, hm⟩
  · rintro _ ⟨m, rfl, hm0, hm, hempty⟩
    by_cases hz : m = 0
    · simp only [hz, ↓reduceIte, Run.meets_pure, Bool.false_eq_true, false_implies, true_and]
      exact fun _ => ⟨0, rfl, ⟨by omega, by omega, hz ▸ hempty⟩, fun hn => absurd rfl hn⟩
    · simp only [hz, ↓reduceIte, Block.read_eq (h.infreq_inB (show 1 ≤ m by omega) hm),
        Run.ok_bind, Run.meets_pure, decide_eq_true_eq, decide_eq_false_iff_not]
      refine ⟨fun hs => ⟨⟨m - 1, rfl, by omega, by omega, fun f hf hf' => ?_⟩, by omega⟩,
        fun hs => ⟨m, rfl, ⟨hm0, hm, hempty⟩, fun _ => hs⟩⟩
      by_cases hfm : f = m
      · rw [hfm]
        exact hs
      · exact hempty f (by omega) hf'

/-- Once the cursor is among the buckets no record in the heap occurs more often than it says. -/
def Cursor (H : Theap) (recs : Block Trecord) (inH : Int → Prop) : Prop :=
  H.max < H.sqrtu → ∀ j, inH j → (recs.cells j).freq ≤ H.max

/-- The records in the heap occur at most as often as `id`, and the cursor is at `id` once it is
among the buckets. -/
def Greatest (H' : Theap) (recs : Block Trecord) (inH : Int → Prop) (id : Int) : Prop :=
  (∀ j, inH j → (recs.cells j).freq ≤ (recs.cells id).freq) ∧
    (H'.max < H'.sqrtu → H'.max = (recs.cells id).freq)

/-- With the buckets behind the new cursor empty, the cursor bounds all frequencies. -/
theorem freq_le (h : HeapInv H recs inH 0) {m n : Int} (hm : m < H.sqrtu)
    (hbound : ∀ j, inH j → (recs.cells j).freq ≤ m)
    (hempty : ∀ f, n < f → f ≤ m → (H.infreq.cells f).size = 0) (hid : inH id) :
    (recs.cells id).freq ≤ n := by
  by_contra hgt
  have hle := hbound id hid
  have hin := (h.low id hid (by omega)).1
  have := hin.1
  have := hin.2
  rw [hempty _ (by omega) hle] at this
  omega

/-- Where the search for the greatest bucket starts: the linked lists are empty, or have been left
behind before. -/
theorem start_max (h : HeapInv H recs inH 0) (hmax : H.max < H.sqrtu ∨ H.largest = -1) :
    ∃ m, (if H.max = H.sqrtu ∧ H.largest = -1 then { H with max := H.max - 1 } else H) =
        { H with max := m } ∧ 0 ≤ m ∧ m < H.sqrtu ∧
      (Cursor H recs inH → ∀ j, inH j → (recs.cells j).freq ≤ m) := by
  have h2 := h.two_le
  have hm0 := h.max_nonneg
  have hm := h.max_le
  by_cases hs : H.max = H.sqrtu ∧ H.largest = -1
  · refine ⟨H.max - 1, if_pos hs, by omega, by omega, fun _ j hj => ?_⟩
    -- a more frequent record would be in the linked lists
    by_contra hgt
    obtain ⟨v, hv, hrecs⟩ := h.high
    have hnode := (hrecs.record j hj (by omega)).1
    rw [hv.eq_none hs.2] at hnode
    cases hnode
  · have hlt : H.max < H.sqrtu := by
      by_contra hge
      exact hs ⟨by omega, hmax.resolve_left hge⟩
    exact ⟨H.max, if_neg hs, hm0, hlt, fun hc => hc hlt⟩

/-- `extractMax` on the linked lists takes a record of the greatest frequency. -/
theorem extractMax_high (h : HeapInv H recs inH 0) (hmax : ¬ H.max < H.sqrtu)
    (hlarge : H.largest ≠ -1) :
    ∃ id H', extractMax H = .ok (id, H') ∧ H'.sqrtu = H.sqrtu ∧ inH id ∧
      HeapInv H' recs (fun j => inH j ∧ j ≠ id) 0 ∧ Greatest H' recs inH id := by
  have hs : ¬ (H.max = H.sqrtu ∧ H.largest = -1) := fun hs => hlarge hs.2
  rw [extractMax]
  simp only [if_neg hs]
  rw [if_neg hmax]
  obtain ⟨v, hv, hrecs⟩ := h.high
  obtain ⟨H', p, f, hrun, hp, hgreat, hv', hids, hlow⟩ := hv.extractHigh hlarge
  obtain ⟨hge, hin, hf, hpp⟩ := hrecs.node p f hp
  have hset : FreqSet recs recs (H.freq.cells p).id f :=
    { size := rfl
      pair := fun _ => rfl
      cpos := fun _ => rfl
      kpos := fun _ => rfl
      freq := fun j => by
        split
        · next he => rw [he, hf]
        · rfl }
  refine ⟨_, H', hrun, hlow.2.1, hin, ?_, fun j hj => ?_, fun hlt => ?_⟩
  · exact h.leave_high hin (hf ▸ hge) hset (fun _ => rfl) hlow hids hrecs (by rw [hpp]; exact hv')
  · rw [hf]
    by_cases hj' : H.sqrtu ≤ (recs.cells j).freq
    · exact hgreat _ _ (hrecs.record j hj hj').1
    · omega
  · rw [hlow.2.1, hlow.2.2] at hlt
    exact absurd hlt hmax

/-- `extractMax` takes a record out of the heap, or finds that there is none to take. -/
theorem extractMax_keeps (h : HeapInv H recs inH 0) :
    ∃ id H', extractMax H = .ok (id, H') ∧ H'.sqrtu = H.sqrtu ∧
      ((id = -1 ∧ HeapInv H' recs inH 0 ∧ (Cursor H recs inH → ∀ j, ¬ inH j)) ∨
        (inH id ∧ HeapInv H' recs (fun j => inH j ∧ j ≠ id) 0 ∧
          (Cursor H recs inH → Greatest H' recs inH id))) := by
  by_cases hmax : H.max < H.sqrtu ∨ H.largest = -1
  · obtain ⟨m, he, hm0, hm, hbound⟩ := h.start_max hmax
    rw [extractMax]
    simp only [he]
    rw [if_pos hm]
    have h₁ : HeapInv { H with max := m } recs inH 0 := h.set_max hm0 (Int.le_of_lt hm)
    obtain ⟨n, hrun, ⟨hn0, hn, hempty⟩, hne⟩ := h₁.lowerMax_keeps hm
    have hle := fun hc j (hj : inH j) => h.freq_le hm (hbound hc) hempty hj
    rw [hrun, Run.ok_bind]
    dsimp only
    have h₂ : HeapInv { H with max := n } recs inH 0 := h.set_max hn0 (Int.le_of_lt hn)
    by_cases hz : n = 0
    · rw [if_pos hz]
      refine ⟨-1, _, rfl, rfl, Or.inl ⟨rfl, h₂, fun hc j hj => ?_⟩⟩
      have := hle hc j hj
      have := h.freq_pos j hj
      omega
    · rw [if_neg hz]
      have h1 : 1 ≤ n := by omega
      obtain ⟨hlastin, hlast, hfreq, -⟩ := h.lastEntry_spec h1 hn (hne hz)
      obtain ⟨H', hrun', hs', hm', h'⟩ := h₂.dropLast h1 hn (hne hz)
      rw [Block.read_eq (h.infreq_inB h1 hn), Run.ok_bind,
        Block.read_eq hlastin, Run.ok_bind, hrun', Run.ok_bind]
      refine ⟨_, _, rfl, hs', Or.inr ⟨hlast, h', fun hc => ⟨fun j hj => ?_, fun _ => ?_⟩⟩⟩
      · show _ ≤ (recs.cells (lastEntry H.infreq n)).freq
        rw [hfreq]
        exact hle hc j hj
      · show _ = (recs.cells (lastEntry H.infreq n)).freq
        rw [hm', hfreq]
  · rw [not_or] at hmax
    obtain ⟨id, H', hrun, hs, hin, h', hgreat⟩ := h.extractMax_high hmax.1 hmax.2
    exact ⟨id, H', hrun, hs, Or.inr ⟨hin, h', fun _ => hgreat⟩⟩

/-! ## Relocation and purge -/

/-- The record `last` of the heap was copied to the index `id` outside the heap. -/
structure Relocated (recs recs' : Block Trecord) (inH : Int → Prop) (last id : Int) : Prop where
  source : inH last
  inB : recs'.InB id
  inB_of : ∀ j, inH j → recs'.InB j
  self : recs'.cells id = recs.cells last
  other : ∀ j, inH j → recs'.cells j = recs.cells j

theorem relocated_upd (h : HeapInv H recs inH lo) {last : Int} (hid : recs.InB id)
    (hnew : ¬ inH id) (hlast : inH last) :
    Relocated recs (recs.upd id fun _ => recs.cells last) inH last id where
  source := hlast
  inB := hid
  inB_of := h.inB
  self := Block.cells_upd_self ..
  other j hj := Block.cells_upd_ne _ _ fun he : j = id => hnew (he ▸ hj)

section Relocated

variable {last : Int}

theorem Relocated.inB_new (hr : Relocated recs recs' inH last id) {j : Int}
    (hj : (inH j ∧ j ≠ last) ∨ j = id) : recs'.InB j := by
  rcases hj with hj | rfl
  · exact hr.inB_of j hj.1
  · exact hr.inB

theorem Relocated.freq_pos (hr : Relocated recs recs' inH last id) (h : HeapInv H recs inH lo)
    {j : Int} (hj : (inH j ∧ j ≠ last) ∨ j = id) : 1 ≤ (recs'.cells j).freq := by
  rcases hj with hj | rfl
  · rw [hr.other j hj.1]
    exact h.freq_pos j hj.1
  · rw [hr.self]
    exact h.freq_pos last hr.source

/-- The entry of a relocated record is redirected in its bucket. -/
theorem repos_low (h : HeapInv H recs inH lo) (hr : Relocated recs recs' inH last id)
    (hlt : (recs.cells last).freq < H.sqrtu) {infreq : Block (Block Int)}
    (hsz : infreq.size = H.infreq.size)
    (hsize : ∀ g, (infreq.cells g).size = (H.infreq.cells g).size)
    (hcells : ∀ g k, (infreq.cells g).cells k =
      if g = (recs.cells last).freq ∧ k = (recs.cells last).hpos then id
      else (H.infreq.cells g).cells k) :
    HeapInv { H with infreq := infreq } recs' (fun j => (inH j ∧ j ≠ last) ∨ j = id) lo := by
  obtain ⟨hb, hblo, hbc⟩ := h.low last hr.source hlt
  have hinB : ∀ g k, (infreq.cells g).InB k ↔ (H.infreq.cells g).InB k := fun g k =>
    Block.inB_congr (hsize g) k
  refine
    { two_le := h.two_le
      infreqSize := hsz.trans h.infreqSize
      max_nonneg := h.max_nonneg
      max_le := h.max_le
      size_nonneg := fun g hg hg' => by rw [hsize]; exact h.size_nonneg g hg hg'
      inB := fun j hj => hr.inB_new hj
      freq_pos := fun j hj => hr.freq_pos h hj
      bucket := ?_
      low := ?_
      high := ?_ }
  · intro g k hg hg' hk hlo
    dsimp only at hk ⊢
    rw [hinB] at hk
    rw [hcells]
    by_cases hgk : g = (recs.cells last).freq ∧ k = (recs.cells last).hpos
    · rw [if_pos hgk, hr.self]
      exact ⟨Or.inr rfl, hgk.1.symm, hgk.2.symm⟩
    · rw [if_neg hgk]
      obtain ⟨hj, hjf, hjp⟩ := h.bucket g k hg hg' hk hlo
      rw [hr.other _ hj]
      refine ⟨Or.inl ⟨hj, fun he => hgk ?_⟩, hjf, hjp⟩
      rw [he] at hjf hjp
      exact ⟨hjf.symm, hjp.symm⟩
  · rintro j (hj | rfl) hjlt
    · rw [hr.other j hj.1] at hjlt ⊢
      obtain ⟨hjb, hjlo, hjc⟩ := h.low j hj.1 hjlt
      dsimp only
      rw [hinB, hcells, if_neg]
      · exact ⟨hjb, hjlo, hjc⟩
      · rintro ⟨hjf, hjp⟩
        rw [hjf, hjp, hbc] at hjc
        exact hj.2 hjc.symm
    · rw [hr.self]
      dsimp only
      rw [hinB, hcells, if_pos ⟨rfl, rfl⟩]
      exact ⟨hb, hblo, rfl⟩
  · refine highPart_congr h.high (fun j hj hge => ?_) ?_ infreq H.max
    · rw [hr.other j hj]
      exact ⟨Or.inl ⟨hj, fun he => by rw [he] at hge; omega⟩, rfl, rfl⟩
    · rintro j (hj | rfl) hge
      · rw [hr.other j hj.1]
        exact ⟨hj.1, rfl, rfl⟩
      · rw [hr.self] at hge
        omega

/-- The node of a relocated record is redirected in the linked lists. -/
theorem repos_high (h : HeapInv H recs inH lo) (hr : Relocated recs recs' inH last id)
    (hge : H.sqrtu ≤ (recs.cells last).freq) :
    HeapInv { H with
        freq := H.freq.upd (recs.cells last).hpos fun p => { p with id := id } } recs'
      (fun j => (inH j ∧ j ≠ last) ∨ j = id) lo := by
  obtain ⟨v, hv, hrecs⟩ := h.high
  obtain ⟨hvp, hpid⟩ := hrecs.record last hr.source hge
  have hids : ∀ q, ((H.freq.upd (recs.cells last).hpos fun p => { p with id := id }).cells q).id =
      if q = (recs.cells last).hpos then id else (H.freq.cells q).id := fun q => by
    rw [Block.cells_upd]
    split <;> rfl
  refine h.of_sameLow ⟨rfl, rfl, rfl⟩ ?_ ?_ (fun j hj => hr.inB_new hj)
    (fun j hj => hr.freq_pos h hj) ⟨v, hv.setId _ _, fun q g hq => ?_, ?_⟩
  · intro j hj hjlt
    rw [hr.other j hj]
    exact ⟨Or.inl ⟨hj, fun he => by rw [he] at hjlt; omega⟩, rfl, rfl⟩
  · rintro j (hj | rfl) hjlt
    · rw [hr.other j hj.1]
      exact ⟨hj.1, rfl, rfl⟩
    · rw [hr.self] at hjlt
      omega
  · dsimp only
    rw [hids]
    by_cases hqp : q = (recs.cells last).hpos
    · rw [if_pos hqp, hr.self]
      rw [hqp, hvp, Option.some_inj] at hq
      exact ⟨by omega, Or.inr rfl, hq, hqp.symm⟩
    · rw [if_neg hqp]
      obtain ⟨hg, hin, hf, hp⟩ := hrecs.node q g hq
      rw [hr.other _ hin]
      exact ⟨hg, Or.inl ⟨hin, fun he => hqp (by rw [← hp, he])⟩, hf, hp⟩
  · rintro j (hj | rfl) hjge
    · rw [hr.other j hj.1] at hjge ⊢
      obtain ⟨h₁, h₂⟩ := hrecs.record j hj.1 hjge
      dsimp only
      rw [hids, if_neg]
      · exact ⟨h₁, h₂⟩
      · intro he
        rw [he, hpid] at h₂
        exact hj.2 h₂.symm
    · rw [hr.self]
      dsimp only
      rw [hids, if_pos rfl]
      exact ⟨hvp, rfl⟩

end Relocated

/-- `heapRepos` redirects the heap to the new index of a relocated record. -/
theorem heapRepos_keeps (h : HeapInv H recs inH lo) (last : Int) (hid : recs.InB id)
    (hnew : ¬ inH id) (hlast : inH last) :
    ∃ H', heapRepos H (recs.upd id fun _ => recs.cells last) id = .ok H' ∧ H'.sqrtu = H.sqrtu ∧
      H'.infreq.size = H.infreq.size ∧
      (∀ f, (H'.infreq.cells f).size = (H.infreq.cells f).size) ∧
      HeapInv H' (recs.upd id fun _ => recs.cells last) (fun j => (inH j ∧ j ≠ last) ∨ j = id)
        lo := by
  have hr := h.relocated_upd hid hnew hlast
  have h1 := h.freq_pos last hlast
  simp only [heapRepos, Block.read_eq hr.inB, Run.ok_bind, hr.self]
  by_cases hlt : (recs.cells last).freq < H.sqrtu
  · obtain ⟨hb, -, -⟩ := h.low last hlast hlt
    have hf := h.infreq_inB h1 hlt
    simp only [hlt, ↓reduceIte, Block.read_eq hf, Block.write_eq hb, Block.write_eq hf,
      Run.ok_bind]
    have hsize : ∀ g, ((H.infreq.upd (recs.cells last).freq fun _ =>
        (H.infreq.cells (recs.cells last).freq).upd (recs.cells last).hpos fun _ => id).cells
          g).size = (H.infreq.cells g).size := fun g => by
      rw [Block.cells_upd]
      split
      · next he => rw [he, Block.size_upd]
      · rfl
    refine ⟨_, rfl, rfl, rfl, hsize, h.repos_low hr hlt rfl hsize fun g k => ?_⟩
    rw [Block.cells_upd]
    by_cases hg : g = (recs.cells last).freq
    · rw [if_pos hg, Block.cells_upd, hg]
      simp only [true_and]
    · rw [if_neg hg, if_neg fun he => hg he.1]
  · have hge : H.sqrtu ≤ (recs.cells last).freq := by omega
    have hpin : H.freq.InB (recs.cells last).hpos := by
      obtain ⟨v, ⟨F, FN, FF, hinv, -, hvF⟩, hrecs⟩ := h.high
      have hvp := (hrecs.record last hlast hge).1
      exact hinv.node_inB (List.mem_append_right _ ((hvF _ _).mp hvp).1)
    simp only [hlt, ↓reduceIte, Block.modify_eq hpin, Run.ok_bind]
    exact ⟨_, rfl, rfl, rfl, fun _ => rfl, h.repos_high hr hge⟩

/-- `purgeHeap` visits the next entry of the bucket of frequency 1. -/
theorem purge_next (h : HeapInv H recs inH lo) (h0 : 0 ≤ lo) (hlt : lo < (H.infreq.cells 1).size) :
    inH ((H.infreq.cells 1).cells lo) ∧
      (recs.cells ((H.infreq.cells 1).cells lo)).freq = 1 ∧
      HeapInv H recs (fun j => inH j ∧ j ≠ (H.infreq.cells 1).cells lo) (lo + 1) := by
  have h2 := h.two_le
  obtain ⟨hj, hjf, hjp⟩ := h.bucket 1 lo (by omega) (by omega) ⟨h0, hlt⟩ fun _ => by omega
  refine ⟨hj, hjf, ?_⟩
  refine
    { two_le := h.two_le
      infreqSize := h.infreqSize
      max_nonneg := h.max_nonneg
      max_le := h.max_le
      size_nonneg := h.size_nonneg
      inB := fun i hi => h.inB i hi.1
      freq_pos := fun i hi => h.freq_pos i hi.1
      bucket := ?_
      low := ?_
      high := ?_ }
  · intro g k hg hg' hk hlo
    obtain ⟨hi, hif, hip⟩ := h.bucket g k hg hg' hk fun he => by have := hlo he; omega
    refine ⟨⟨hi, fun he => ?_⟩, hif, hip⟩
    rw [he] at hif hip
    have := hlo (by omega)
    omega
  · rintro i ⟨hi, hne⟩ hilt
    obtain ⟨hib, hilo, hic⟩ := h.low i hi hilt
    refine ⟨hib, fun he => ?_, hic⟩
    have := hilo he
    have : (recs.cells i).hpos ≠ lo := fun hp => by
      rw [he, hp] at hic
      exact hne hic.symm
    omega
  · refine highPart_congr h.high (fun i hi hge => ⟨⟨hi, fun he => ?_⟩, rfl, rfl⟩)
      (fun i hi _ => ⟨hi.1, rfl, rfl⟩) H.infreq H.max
    rw [he, hjf] at hge
    omega

/-- After the last entry the bucket of frequency 1 is emptied. -/
theorem purge_done (h : HeapInv H recs inH lo) (hlo : (H.infreq.cells 1).size ≤ lo) :
    (∀ j, inH j → 2 ≤ (recs.cells j).freq) ∧
      HeapInv { H with infreq := H.infreq.upd 1 fun _ => Block.alloc 0 fun _ => 0 } recs inH
        0 := by
  have h2 := h.two_le
  have hge : ∀ j, inH j → 2 ≤ (recs.cells j).freq := fun j hj => by
    have h1 := h.freq_pos j hj
    by_contra hlt
    have h1' : (recs.cells j).freq = 1 := by omega
    obtain ⟨hb, hbl, -⟩ := h.low j hj (by omega)
    rw [h1'] at hb
    have := hb.2
    have := hbl h1'
    omega
  refine ⟨hge, ?_⟩
  refine
    { two_le := h.two_le
      infreqSize := h.infreqSize
      max_nonneg := h.max_nonneg
      max_le := h.max_le
      size_nonneg := ?_
      inB := h.inB
      freq_pos := h.freq_pos
      bucket := ?_
      low := ?_
      high := highPart_congr h.high (fun j hj _ => ⟨hj, rfl, rfl⟩) (fun j hj _ => ⟨hj, rfl, rfl⟩)
        _ H.max }
  · intro g hg hg'
    dsimp only
    rw [Block.cells_upd]
    split
    · simp
    · exact h.size_nonneg g hg hg'
  · intro g k hg hg' hk _
    dsimp only at hk ⊢
    by_cases hg1 : g = 1
    · rw [hg1, Block.cells_upd_self] at hk
      have h₁ := hk.1
      have h₂ := hk.2
      simp only [Block.size_alloc] at h₂
      omega
    · rw [Block.cells_upd_ne _ _ hg1] at hk ⊢
      exact h.bucket g k hg hg' hk fun he => absurd he hg1
  · intro j hj hlt
    have hj2 := hge j hj
    obtain ⟨hb, -, hc⟩ := h.low j hj hlt
    dsimp only
    rw [Block.cells_upd_ne _ _ (by omega)]
    exact ⟨hb, fun _ => hb.1, hc⟩

/-! ## Creation -/

/-- The largest `int` whose square is one. -/
def maxSqrtu : Int := 46340

/-- The search for `sqrtu` ends for every `u` up to the largest square. -/
theorem findSqrtu_eq {u : Int} (hu : u ≤ maxSqrtu * maxSqrtu) :
    ∃ s, findSqrtu u = .ok s ∧ 2 ≤ s ∧ u ≤ s * s := by
  have hmax : maxSqrtu = 46340 := rfl
  rw [hmax] at hu
  have hrun := Run.meets_whileLoop (E := fun _ => False)
    (fun s : Int =>
      if s * s < intBound then pure (decide (s * s < u)) else throw .overflow)
    (fun s => pure (s + 1)) (fun s => 2 ≤ s ∧ s ≤ 46340)
    (fun s => 2 ≤ s ∧ u ≤ s * s) (fun s => (u - s).toNat) ?_
    (u.toNat + 1) 2 (by omega) ⟨by omega, by omega⟩
  · obtain ⟨s, hrun, hs⟩ := hrun.exists_ok fun e he => he.elim
    exact ⟨s, hrun, hs⟩
  · rintro s ⟨h2, hle⟩
    have hsq : s * s ≤ 46340 * 46340 := Int.mul_le_mul hle hle (by omega) (by omega)
    have hlt : s * s < intBound := Int.lt_of_le_of_lt hsq (by decide)
    simp only [hlt, ↓reduceIte, Run.meets_pure, decide_eq_true_eq, decide_eq_false_iff_not]
    refine ⟨fun hs => ?_, fun hs => ⟨h2, by omega⟩⟩
    have hne : s ≠ 46340 := fun he => by rw [he] at hs; omega
    have hss : s * 1 ≤ s * s := Int.mul_le_mul_of_nonneg_left (by omega) (by omega)
    exact ⟨⟨by omega, by omega⟩, by omega⟩

/-- Above the largest square the search multiplies two `int`s whose product is none. -/
theorem findSqrtu_overflow {u : Int} (hu : maxSqrtu * maxSqrtu < u) :
    findSqrtu u = .error .overflow := by
  have hmax : maxSqrtu = 46340 := rfl
  rw [hmax] at hu
  have hrun := Run.meets_whileLoop (E := fun e => e = .overflow)
    (fun s : Int =>
      if s * s < intBound then pure (decide (s * s < u)) else throw .overflow)
    (fun s => pure (s + 1)) (fun s => 2 ≤ s ∧ s ≤ 46341)
    (fun _ => False) (fun s => (u - s).toNat) ?_
    (u.toNat + 1) 2 (by omega) ⟨by omega, by omega⟩
  · unfold findSqrtu
    cases hx : Run.whileLoop _ _ (u.toNat + 1) (2 : Int) with
    | ok s => rw [hx] at hrun; exact hrun.elim
    | error e => rw [hx] at hrun; exact congrArg _ hrun
  · rintro s ⟨h2, hle⟩
    by_cases hs : s = 46341
    · have : ¬ s * s < intBound := by rw [hs]; decide
      simp only [this, ↓reduceIte, Run.meets_throw]
    · have hsq : s * s ≤ 46340 * 46340 :=
        Int.mul_le_mul (by omega) (by omega) (by omega) (by omega)
      have hlt : s * s < intBound := Int.lt_of_le_of_lt hsq (by decide)
      have hsu : s * s < u := by omega
      simp only [hlt, hsu, ↓reduceIte, Run.meets_pure, decide_true, Bool.true_eq_false,
        false_implies, and_true, true_implies]
      have hss : s * 1 ≤ s * s := Int.mul_le_mul_of_nonneg_left (by omega) (by omega)
      exact ⟨⟨by omega, by omega⟩, by omega⟩

/-- The free list `0, 1, ..., n - 1` of a fresh pool. -/
theorem path_slots (nx : Int → Int) (n k : Nat) (hnx : ∀ i : Int, 0 ≤ i → i < k + n →
    nx i = if i = k + n - 1 then -1 else i + 1) (hn : 0 < n) :
    Chain.Path nx k ((List.range' k n).map fun i : Nat => (i : Int)) := by
  induction n generalizing k with
  | zero => omega
  | succ n ih =>
    rw [List.range'_succ, List.map_cons]
    refine ⟨rfl, ?_⟩
    rw [hnx k (by omega) (by omega)]
    by_cases hz : n = 0
    · subst hz
      simp
    · rw [if_neg (by omega)]
      have := ih (k + 1) (fun i h0 hi => by
        rw [hnx i h0 (by omega)]
        exact if_congr (by omega) rfl rfl) (by omega)
      exact_mod_cast this

theorem createHeap_eq {u : Int} (hu : u ≤ maxSqrtu * maxSqrtu) (recs : Block Trecord) :
    ∃ H, createHeap u = .ok H ∧ HeapInv H recs (fun _ => False) 0 ∧
      u ≤ H.sqrtu * H.sqrtu := by
  obtain ⟨s, hrun, h2, hs⟩ := findSqrtu_eq hu
  rw [createHeap, hrun, Run.ok_bind]
  refine ⟨_, rfl, ?_, hs⟩
  have hpath : ∀ nx : Int → Int, (∀ i, nx i = if i = s - 1 then -1 else i + 1) →
      Chain.Path nx 0 (slots s) := fun nx hnx => by
    have := path_slots nx s.toNat 0 (fun i h0 hi => by
      rw [hnx i]
      exact if_congr (by omega) rfl rfl) (by omega)
    rw [slots, List.range_eq_range']
    exact this
  refine
    { two_le := h2
      infreqSize := rfl
      max_nonneg := by dsimp only; omega
      max_le := Int.le_refl _
      size_nonneg := fun f _ _ => by simp
      inB := fun _ h => h.elim
      freq_pos := fun _ h => h.elim
      bucket := ?_
      low := fun _ h => h.elim
      high := ⟨fun _ => none, ⟨[], slots s, slots s, ?_, by simp, by simp⟩, ?_⟩ }
  · intro f k _ _ hk _
    have h₁ := hk.1
    have h₂ := hk.2
    simp only [Block.cells_alloc, Block.size_alloc] at h₂
    omega
  · exact
      { freqSize := rfl
        ffSize := rfl
        chain := ⟨rfl, rfl⟩
        elems := by simp
        fnode := by simp
        sorted := by simp
        nodes := by simp
        ffs := by simp
        freeN := hpath _ fun i => rfl
        freeF := hpath _ fun i => rfl }
  · exact ⟨fun q f hq => by simp at hq, fun _ h => h.elim⟩

end HeapInv

end Laconic.RePair
