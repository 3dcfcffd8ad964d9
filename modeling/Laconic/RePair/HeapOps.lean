import Laconic.Lib.Chain
import Laconic.RePair.Heap

/-!
# Re-Pair: what the pointer operations of the heap write

One lemma for each operation on the linked part of the heap: it does not fault when the pointers it
follows are in range, and the cells of the resulting arrays are given pointwise.  Writes through
null pointers do not happen, so that the pointwise equations are stated for nonnegative indices.
-/

namespace Laconic.RePair

variable {H : Theap}

theorem unlinkNode_run {p fp : Int} (hp : H.freq.InB p) (hfp : H.ff.InB fp)
    (hprev : (H.freq.cells p).prev ≠ -1 → H.freq.InB (H.freq.cells p).prev)
    (hnext : (H.freq.cells p).next ≠ -1 → H.freq.InB (H.freq.cells p).next) :
    unlinkNode H p fp = .ok { H with
      freq := (H.freq.updPtr (H.freq.cells p).prev
          fun q => { q with next := (H.freq.cells p).next }).updPtr (H.freq.cells p).next
        fun q => { q with prev := (H.freq.cells p).prev }
      ff := if (H.freq.cells p).prev = -1 then
          H.ff.upd fp fun f => { f with elems := (H.freq.cells p).next }
        else H.ff } := by
  -- the first test decides whether the head pointer or the node before `p` is redirected
  have hfirst : (if (H.freq.cells p).prev = -1 then do
        let ff ← H.ff.modify fp fun f => { f with elems := (H.freq.cells p).next }
        pure { H with ff := ff }
      else do
        let freq ← H.freq.modify (H.freq.cells p).prev
          fun q => { q with next := (H.freq.cells p).next }
        pure { H with freq := freq }) = Except.ok { H with
      freq := H.freq.updPtr (H.freq.cells p).prev
        fun q => { q with next := (H.freq.cells p).next }
      ff := if (H.freq.cells p).prev = -1 then
          H.ff.upd fp fun f => { f with elems := (H.freq.cells p).next }
        else H.ff } := by
    by_cases h₁ : (H.freq.cells p).prev = -1
    · rw [if_pos h₁, if_pos h₁, Block.modify_eq hfp, Run.ok_bind,
        Block.updPtr_of_neg _ _ (by omega)]
      rfl
    · have := (hprev h₁).1
      rw [if_neg h₁, if_neg h₁, Block.modify_eq (hprev h₁), Run.ok_bind,
        Block.updPtr_of_nonneg _ _ (by omega)]
      rfl
  rw [unlinkNode, Block.read_eq hp, Run.ok_bind, hfirst, Run.ok_bind]
  refine Block.modify_ptr_bind (fun hne => ?_) _ fun freq => pure { H with
    freq := freq
    ff := if (H.freq.cells p).prev = -1 then
        H.ff.upd fp fun f => { f with elems := (H.freq.cells p).next }
      else H.ff }
  rw [Block.inB_congr (Block.size_updPtr _ _ _)]
  exact hnext hne

theorem unlinkNode_eq {p fp : Int} (hp : H.freq.InB p) (hfp : H.ff.InB fp)
    (hprev : (H.freq.cells p).prev ≠ -1 → H.freq.InB (H.freq.cells p).prev)
    (hnext : (H.freq.cells p).next ≠ -1 → H.freq.InB (H.freq.cells p).next) :
    ∃ freq ff, unlinkNode H p fp = .ok { H with freq := freq, ff := ff } ∧
      freq.size = H.freq.size ∧ ff.size = H.ff.size ∧
      (∀ q, 0 ≤ q → (freq.cells q).next =
        if q = (H.freq.cells p).prev then (H.freq.cells p).next else (H.freq.cells q).next) ∧
      (∀ q, 0 ≤ q → (freq.cells q).prev =
        if q = (H.freq.cells p).next then (H.freq.cells p).prev else (H.freq.cells q).prev) ∧
      (∀ q, (freq.cells q).id = (H.freq.cells q).id ∧
        (freq.cells q).fnode = (H.freq.cells q).fnode) ∧
      (∀ i, ff.cells i = { H.ff.cells i with
        elems := if i = fp ∧ (H.freq.cells p).prev = -1 then (H.freq.cells p).next
          else (H.ff.cells i).elems }) := by
  refine ⟨_, _, unlinkNode_run hp hfp hprev hnext, by simp, ?_, fun q hq => ?_, fun q hq => ?_,
    fun q => ⟨?_, ?_⟩, fun i => ?_⟩
  · split <;> rfl
  · refine Eq.trans (Block.field_updPtr _ _ Thnode.next (fun _ => by rfl) q) ?_
    rw [Block.cells_updPtr _ _ _ hq]
    split <;> rfl
  · rw [Block.cells_updPtr _ _ _ hq]
    split
    · rfl
    · exact Block.field_updPtr _ _ Thnode.prev (fun _ => by rfl) q
  · exact Eq.trans (Block.field_updPtr _ _ Thnode.id (fun _ => by rfl) q)
      (Block.field_updPtr _ _ Thnode.id (fun _ => by rfl) q)
  · exact Eq.trans (Block.field_updPtr _ _ Thnode.fnode (fun _ => by rfl) q)
      (Block.field_updPtr _ _ Thnode.fnode (fun _ => by rfl) q)
  · by_cases h₁ : (H.freq.cells p).prev = -1
    · rw [if_pos h₁, Block.cells_upd]
      simp only [h₁, and_true]
      split
      · next hi => rw [hi]
      · rfl
    · rw [if_neg h₁, if_neg fun he => h₁ he.2]

theorem pushNode_eq {p fp : Int} (hp : H.freq.InB p) (hfp : H.ff.InB fp)
    (hel : H.freq.InB (H.ff.cells fp).elems) :
    ∃ freq ff, pushNode H p fp = .ok { H with freq := freq, ff := ff } ∧
      freq.size = H.freq.size ∧ ff.size = H.ff.size ∧
      (∀ q, (freq.cells q).next =
        if q = p then (H.ff.cells fp).elems else (H.freq.cells q).next) ∧
      (∀ q, (freq.cells q).prev = if q = (H.ff.cells fp).elems then p
        else if q = p then -1 else (H.freq.cells q).prev) ∧
      (∀ q, (freq.cells q).id = (H.freq.cells q).id) ∧
      (∀ q, (freq.cells q).fnode = if q = p then fp else (H.freq.cells q).fnode) ∧
      (∀ i, ff.cells i = { H.ff.cells i with
        elems := if i = fp then p else (H.ff.cells i).elems }) := by
  have hin : (H.freq.upd p fun q => { q with
      prev := -1, next := (H.ff.cells fp).elems, fnode := fp }).InB (H.ff.cells fp).elems := hel
  simp only [pushNode, Block.read_eq hfp, Run.ok_bind, Block.modify_eq hp, Block.modify_eq hin,
    Block.modify_eq hfp]
  refine ⟨_, _, rfl, rfl, rfl, ?_, ?_, ?_, ?_, ?_⟩
  · intro q
    simp only [Block.cells_upd]
    split_ifs <;> simp_all
  · intro q
    simp only [Block.cells_upd]
    split_ifs <;> simp_all
  · intro q
    simp only [Block.cells_upd]
    split_ifs <;> simp_all
  · intro q
    simp only [Block.cells_upd]
    split_ifs <;> simp_all
  · intro i
    simp only [Block.cells_upd]
    split_ifs <;> simp_all

theorem createFreq_run {p : Int} (freq smaller larger : Int) (hp : H.freq.InB p)
    (hfree : H.ff.InB H.freeff) (hsm : smaller ≠ -1 → H.ff.InB smaller)
    (hlg : larger ≠ -1 → H.ff.InB larger) :
    createFreq H p freq smaller larger = .ok { H with
      freq := H.freq.upd p fun q => { q with prev := -1, next := -1, fnode := H.freeff }
      ff := ((H.ff.upd H.freeff fun _ => ⟨freq, p, larger, smaller⟩).updPtr larger
          fun f => { f with smaller := H.freeff }).updPtr smaller
        fun f => { f with larger := H.freeff }
      freeff := (H.ff.cells H.freeff).larger
      largest := if larger = -1 then H.freeff else H.largest
      smallest := if smaller = -1 then H.freeff else H.smallest } := by
  have hlg' : larger ≠ -1 →
      (H.ff.upd H.freeff fun _ => ⟨freq, p, larger, smaller⟩).InB larger := hlg
  have hsm' : smaller ≠ -1 → ((H.ff.upd H.freeff fun _ => ⟨freq, p, larger, smaller⟩).updPtr larger
      fun f => { f with smaller := H.freeff }).InB smaller := fun hne => by
    rw [Block.inB_congr (Block.size_updPtr _ _ _)]
    exact hsm hne
  rw [createFreq, Block.read_eq hfree, Run.ok_bind, Block.write_eq hfree, Run.ok_bind,
    Block.modify_ptr_pair hlg', Run.ok_bind, Block.modify_ptr_pair hsm', Run.ok_bind,
    Block.modify_eq hp, Run.ok_bind]
  rfl

/-- The pools after the frequency node `lfp` was filled in with the node `p` and linked between
`sm` and `lg`. -/
structure FreqCreated (H : Theap) (nodes : Block Thnode) (ff : Block Thfreq)
    (p lfp freq sm lg : Int) : Prop where
  nodesSize : nodes.size = H.freq.size
  ffSize : ff.size = H.ff.size
  node : ∀ q, nodes.cells q = if q = p then ⟨(H.freq.cells p).id, -1, -1, lfp⟩ else H.freq.cells q
  freq : ∀ i, (ff.cells i).freq = if i = lfp then freq else (H.ff.cells i).freq
  elems : ∀ i, (ff.cells i).elems = if i = lfp then p else (H.ff.cells i).elems
  larger : ∀ i, 0 ≤ i → (ff.cells i).larger = if i = lfp then lg
    else if i = sm then lfp else (H.ff.cells i).larger
  smaller : ∀ i, 0 ≤ i → (ff.cells i).smaller = if i = lfp then sm
    else if i = lg then lfp else (H.ff.cells i).smaller

theorem createFreq_eq {p : Int} (freq smaller larger : Int) (hp : H.freq.InB p)
    (hfree : H.ff.InB H.freeff) (hsm : smaller ≠ -1 → H.ff.InB smaller)
    (hlg : larger ≠ -1 → H.ff.InB larger) (hne : smaller ≠ H.freeff) (hne' : larger ≠ H.freeff) :
    ∃ nodes ff, createFreq H p freq smaller larger = .ok { H with
        freq := nodes, ff := ff, freeff := (H.ff.cells H.freeff).larger
        largest := if larger = -1 then H.freeff else H.largest
        smallest := if smaller = -1 then H.freeff else H.smallest } ∧
      FreqCreated H nodes ff p H.freeff freq smaller larger := by
  have hfree0 := hfree.1
  refine ⟨_, _, createFreq_run freq smaller larger hp hfree hsm hlg, rfl, by simp, fun q => ?_,
    fun i => ?_, fun i => ?_, fun i hi => ?_, fun i hi => ?_⟩
  · rw [Block.cells_upd]
  · refine Eq.trans (Block.field_updPtr _ _ Thfreq.freq (fun _ => by rfl) i)
      (Eq.trans (Block.field_updPtr _ _ Thfreq.freq (fun _ => by rfl) i) ?_)
    rw [Block.cells_upd]
    split <;> rfl
  · refine Eq.trans (Block.field_updPtr _ _ Thfreq.elems (fun _ => by rfl) i)
      (Eq.trans (Block.field_updPtr _ _ Thfreq.elems (fun _ => by rfl) i) ?_)
    rw [Block.cells_upd]
    split <;> rfl
  · have hfield := Block.field_updPtr (H.ff.upd H.freeff fun _ => ⟨freq, p, larger, smaller⟩)
      larger (f := fun f => { f with smaller := H.freeff }) Thfreq.larger (fun _ => by rfl) i
    rw [Block.cells_upd] at hfield
    rw [Block.cells_updPtr _ _ _ hi]
    split
    · next his => rw [if_neg (his ▸ hne)]
    · rw [hfield]
      split <;> rfl
  · refine Eq.trans (Block.field_updPtr _ _ Thfreq.smaller (fun _ => by rfl) i) ?_
    rw [Block.cells_updPtr _ _ _ hi, Block.cells_upd]
    split
    · next hil => exact (if_neg (hil ▸ hne')).symm
    · split <;> rfl

/-- At the front of the list `createSmallest` is `createFreq`. -/
theorem createSmallest_eq_createFreq {p freq : Int} (hends : H.largest = -1 ↔ H.smallest = -1) :
    createSmallest H p freq = createFreq H p freq (-1) H.smallest := by
  by_cases h : H.smallest = -1
  · simp [createSmallest, createFreq, h, hends.mpr h]
  · have h' : H.largest ≠ -1 := fun hl => h (hends.mp hl)
    simp [createSmallest, createFreq, h, h']

/-- An emptied frequency node is cut out of the list and pushed on the free list. -/
theorem dropFreq_eq_of_empty {fp : Int} (hfp : H.ff.InB fp) (hel : (H.ff.cells fp).elems = -1)
    (hsm : (H.ff.cells fp).smaller ≠ -1 → H.ff.InB (H.ff.cells fp).smaller)
    (hlg : (H.ff.cells fp).larger ≠ -1 → H.ff.InB (H.ff.cells fp).larger) :
    ∃ ff, dropFreq H fp = .ok { H with
        ff := ff, freeff := fp
        smallest := if (H.ff.cells fp).smaller = -1 then (H.ff.cells fp).larger else H.smallest
        largest := if (H.ff.cells fp).larger = -1 then (H.ff.cells fp).smaller
          else H.largest } ∧
      ff.size = H.ff.size ∧
      (∀ i, (ff.cells i).freq = (H.ff.cells i).freq ∧ (ff.cells i).elems = (H.ff.cells i).elems) ∧
      (∀ i, 0 ≤ i → (ff.cells i).larger = if i = fp then H.freeff
        else if i = (H.ff.cells fp).smaller then (H.ff.cells fp).larger
        else (H.ff.cells i).larger) ∧
      (∀ i, 0 ≤ i → (ff.cells i).smaller = if i = (H.ff.cells fp).larger
        then (H.ff.cells fp).smaller else (H.ff.cells i).smaller) := by
  by_cases h₁ : (H.ff.cells fp).smaller = -1 <;> by_cases h₂ : (H.ff.cells fp).larger = -1
  · simp only [dropFreq, Block.read_eq hfp, Run.ok_bind, hel, h₁, h₂, ↓reduceIte, Run.pure_bind,
      Block.modify_eq hfp]
    refine ⟨_, rfl, rfl, ?_, ?_, ?_⟩
    · intro i
      grind [Block.cells_upd]
    · intro i hi
      grind [Block.cells_upd]
    · intro i hi
      grind [Block.cells_upd]
  · have hin : (H.ff.upd (H.ff.cells fp).larger fun g => { g with smaller := -1 }).InB fp := hfp
    simp only [dropFreq, Block.read_eq hfp, Run.ok_bind, hel, h₁, h₂, ↓reduceIte, Run.pure_bind,
      Block.modify_eq (hlg h₂), Block.modify_eq hin]
    refine ⟨_, rfl, rfl, ?_, ?_, ?_⟩
    · intro i
      grind [Block.cells_upd]
    · intro i hi
      grind [Block.cells_upd]
    · intro i hi
      grind [Block.cells_upd]
  · have hin : (H.ff.upd (H.ff.cells fp).smaller fun g => { g with larger := -1 }).InB fp := hfp
    simp only [dropFreq, Block.read_eq hfp, Run.ok_bind, hel, h₁, h₂, ↓reduceIte, Run.pure_bind,
      Block.modify_eq (hsm h₁), Block.modify_eq hin]
    refine ⟨_, rfl, rfl, ?_, ?_, ?_⟩
    · intro i
      grind [Block.cells_upd]
    · intro i hi
      grind [Block.cells_upd]
    · intro i hi
      grind [Block.cells_upd]
  · have hin : (H.ff.upd (H.ff.cells fp).smaller
        fun g => { g with larger := (H.ff.cells fp).larger }).InB (H.ff.cells fp).larger := hlg h₂
    have hin' : ((H.ff.upd (H.ff.cells fp).smaller
        fun g => { g with larger := (H.ff.cells fp).larger }).upd (H.ff.cells fp).larger
          fun g => { g with smaller := (H.ff.cells fp).smaller }).InB fp := hfp
    simp only [dropFreq, Block.read_eq hfp, Run.ok_bind, hel, h₁, h₂, ↓reduceIte,
      Block.modify_eq (hsm h₁), Run.pure_bind, Block.modify_eq hin, Block.modify_eq hin']
    refine ⟨_, rfl, rfl, ?_, ?_, ?_⟩
    · intro i
      grind [Block.cells_upd]
    · intro i hi
      grind [Block.cells_upd]
    · intro i hi
      grind [Block.cells_upd]

/-- A frequency node that still has elements stays. -/
theorem dropFreq_eq_of_nonempty {fp : Int} (hfp : H.ff.InB fp)
    (hel : (H.ff.cells fp).elems ≠ -1) : dropFreq H fp = .ok H := by
  simp only [dropFreq, Block.read_eq hfp, Run.ok_bind, hel, ↓reduceIte]
  rfl

theorem hasFreq_eq {fp freq : Int} (hfp : fp ≠ -1 → H.ff.InB fp) :
    hasFreq H.ff fp freq = .ok (decide (fp ≠ -1 ∧ (H.ff.cells fp).freq = freq)) := by
  by_cases h : fp = -1
  · simp only [hasFreq, h, ↓reduceIte]
    rfl
  · rw [hasFreq, if_neg h, Block.read_eq (hfp h), Run.ok_bind]
    simp [h]
    rfl

end Laconic.RePair
