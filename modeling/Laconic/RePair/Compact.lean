import Laconic.RePair.RepairInv

/-!
# Re-Pair: compaction

When holes take up too much of the text, `repair` moves the live positions to the front.  Every
round moves one position `i` to `ni ≤ i`: its cell of `L`, the pointers of its neighbours and the
head pointer of its record.  That is a renaming of one node in all occurrence lists.
-/

namespace Laconic.RePair

open Neighbour Chain

/-- The renaming of one round. -/
def rename (i ni x : Int) : Int := if x = i then ni else x

theorem rename_self (i ni : Int) : rename i ni i = ni := if_pos rfl

theorem rename_of_ne {i ni x : Int} (h : x ≠ i) : rename i ni x = x := if_neg h

namespace ListInv

variable {recs recs' : Block Trecord} {L L' : Block Tlist} {lab : Int → Option Tpair}
  {id i ni q : Int} {pr pr' : Tpair}

/-- The list that a tracked position is in. -/
theorem exists_list (h : ListInv recs L lab) (hi : lab i = some pr) (hrec : HasRec recs pr) :
    ∃ id l e, recs.InB id ∧ (recs.cells id).pair = pr ∧ i ∈ l ∧ l.Nodup ∧
      (∀ p, p ∈ l ↔ lab p = some pr) ∧ (∀ p ∈ l, 0 ≤ p) ∧
      Seg (fun i => (L.cells i).next) (fun i => (L.cells i).prev) (recs.cells id).cpos (-id - 1) l
        (-1) e := by
  obtain ⟨id, hid, hpair⟩ := hrec
  obtain ⟨l, e, hs, hnd, hm⟩ := h.list id hid
  rw [hpair] at hm
  exact ⟨id, l, e, hid, hpair, (hm i).mpr hi, hnd, hm,
    fun p hp => (h.range p _ ((hm p).mp hp)).1, hs⟩

/-- In all lists together, `prev` is the inverse of `next`. -/
theorem next_eq_iff (h : ListInv recs L lab) (hi : lab i = some pr) (hq : lab q = some pr') :
    (L.cells q).next = i ↔ (L.cells i).prev = q := by
  have hi0 := (h.range i pr hi).1
  have hq0 := (h.range q pr' hq).1
  have hnull : nullFreq < 0 := by decide
  constructor
  · intro hqi
    by_cases hrec : HasRec recs pr'
    · obtain ⟨id, l, e, hid, -, hql, hnd, hm, hpos, hs⟩ := h.exists_list hq hrec
      have hid0 := hid.1
      have hb : -id - 1 ∉ l := fun hn => by have := hpos _ hn; omega
      have ht : (-1 : Int) ∉ l := fun hn => by have := hpos _ hn; omega
      obtain ⟨l₁, l₂, rfl⟩ := List.append_of_mem hql
      have hil : i ∈ l₁ ++ q :: l₂ := by
        rcases hs.nx_mem_or with hn | hn
        · omega
        · rw [hqi] at hn
          simp [hn]
      exact (hs.nx_eq_iff_pv_eq hb ht hql hil).mp hqi
    · have := (h.untracked q pr' hq hrec).2.1
      omega
  · intro hiq
    by_cases hrec : HasRec recs pr
    · obtain ⟨id, l, e, hid, -, hil, hnd, hm, hpos, hs⟩ := h.exists_list hi hrec
      have hid0 := hid.1
      have hb : -id - 1 ∉ l := fun hn => by have := hpos _ hn; omega
      have ht : (-1 : Int) ∉ l := fun hn => by have := hpos _ hn; omega
      obtain ⟨l₁, l₂, rfl⟩ := List.append_of_mem hil
      have hql : q ∈ l₁ ++ i :: l₂ := by
        rcases hs.pv_mem_or with hn | hn
        · omega
        · rw [hiq] at hn
          simp [hn]
      exact (hs.nx_eq_iff_pv_eq hb ht hql hil).mpr hiq
    · have := (h.untracked i pr hi hrec).1
      omega

theorem next_ne_self (h : ListInv recs L lab) (hi : lab i = some pr) : (L.cells i).next ≠ i := by
  have hi0 := (h.range i pr hi).1
  by_cases hrec : HasRec recs pr
  · obtain ⟨id, l, e, hid, -, hil, hnd, hm, hpos, hs⟩ := h.exists_list hi hrec
    exact hs.nx_ne_self hnd (fun hn => by have := hpos _ hn; omega) hil
  · rw [(h.untracked i pr hi hrec).2.1]
    omega

theorem prev_ne_self (h : ListInv recs L lab) (hi : lab i = some pr) : (L.cells i).prev ≠ i :=
  fun he => h.next_ne_self hi ((h.next_eq_iff hi hi).mpr he)

/-- The neighbours of a position carry a pair. -/
theorem next_labelled (h : ListInv recs L lab) (hi : lab i = some pr)
    (hn : (L.cells i).next ≠ -1) : lab (L.cells i).next = some pr := by
  by_cases hrec : HasRec recs pr
  · obtain ⟨id, l, e, hid, -, hil, hnd, hm, hpos, hs⟩ := h.exists_list hi hrec
    obtain ⟨l₁, l₂, rfl⟩ := List.append_of_mem hil
    rcases hs.nx_mem_or with hn' | hn'
    · exact absurd hn' hn
    · exact (hm _).mp (by simp [hn'])
  · exact absurd (h.untracked i pr hi hrec).2.1 hn

theorem prev_labelled (h : ListInv recs L lab) (hi : lab i = some pr)
    (hn : 0 ≤ (L.cells i).prev) : lab (L.cells i).prev = some pr := by
  have hnull : nullFreq < 0 := by decide
  by_cases hrec : HasRec recs pr
  · obtain ⟨id, l, e, hid, -, hil, hnd, hm, hpos, hs⟩ := h.exists_list hi hrec
    have hid0 := hid.1
    obtain ⟨l₁, l₂, rfl⟩ := List.append_of_mem hil
    rcases hs.pv_mem_or with hn' | hn'
    · omega
    · exact (hm _).mp (by simp [hn'])
  · have := (h.untracked i pr hi hrec).1
    omega

/-- The head of the list of `id` is the position that points back to it. -/
theorem cpos_eq_iff (h : ListInv recs L lab) (hbound : ∀ j, recs.InB j → j + 1 < intBound)
    (hi : lab i = some pr) (hid : recs.InB id) :
    (recs.cells id).cpos = i ↔ (L.cells i).prev = -id - 1 := by
  have hi0 := (h.range i pr hi).1
  have hid0 := hid.1
  have hlt := hbound id hid
  constructor
  · rintro rfl
    obtain ⟨l, e, hs, -, -⟩ := h.list id hid
    cases l with
    | nil =>
      have := hs.1
      omega
    | cons p l =>
      rw [hs.1]
      exact hs.2.1
  · intro hp
    by_cases hrec : HasRec recs pr
    · obtain ⟨id', l, e, hid', -, hil, hnd, hm, hpos, hs⟩ := h.exists_list hi hrec
      have hid0' := hid'.1
      obtain ⟨l₁, l₂, rfl⟩ := List.append_of_mem hil
      have hback : (L.cells i).prev = -id' - 1 := by
        rcases hs.pv_mem_or with hn | hn
        · exact hn
        · have := hpos _ (List.mem_append_left _ hn)
          omega
      obtain rfl : id = id' := by omega
      have hl₁ : l₁ = [] := (hs.pv_eq_back_iff fun hn => by
        have := hpos _ (List.mem_append_left _ hn)
        omega).mp hback
      rw [hl₁] at hs
      exact hs.1
    · have := (h.untracked i pr hi hrec).1
      unfold nullFreq at this
      omega

/-- The positions with a pair are the renamed ones. -/
theorem lab_rename_iff (hi : lab i = some pr) (hni : ni = i ∨ lab ni = none) (x : Int) (y : Tpair) :
    Function.update (Function.update lab i none) ni (some pr) x = some y ↔
      ∃ q, lab q = some y ∧ x = rename i ni q := by
  by_cases hx : x = ni
  · subst hx
    rw [Function.update_self, Option.some_inj]
    constructor
    · rintro rfl
      exact ⟨i, hi, (rename_self i x).symm⟩
    · rintro ⟨q, hq, hxq⟩
      by_cases hqi : q = i
      · rw [hqi, hi, Option.some_inj] at hq
        exact hq
      · rw [rename_of_ne hqi] at hxq
        subst hxq
        rw [hni.resolve_left hqi] at hq
        cases hq
  · rw [Function.update_of_ne hx]
    constructor
    · intro hxy
      by_cases hxi : x = i
      · rw [hxi, Function.update_self] at hxy
        cases hxy
      · rw [Function.update_of_ne hxi] at hxy
        exact ⟨x, hxy, (rename_of_ne hxi).symm⟩
    · rintro ⟨q, hq, hxq⟩
      by_cases hqi : q = i
      · rw [hqi, rename_self] at hxq
        exact absurd hxq hx
      · rw [rename_of_ne hqi] at hxq
        subst hxq
        rw [Function.update_of_ne hqi, hq]

/-- Only `i` is renamed to `ni`. -/
theorem eq_of_rename_eq (hni : ni = i ∨ lab ni = none) {q : Int} {y : Tpair} (hq : lab q = some y)
    (he : rename i ni q = ni) : q = i := by
  by_contra hqi
  rw [rename_of_ne hqi] at he
  subst he
  rw [hni.resolve_left hqi] at hq
  cases hq

theorem rename_inj (hni : ni = i ∨ lab ni = none) {q q' : Int} {y y' : Tpair}
    (hq : lab q = some y) (hq' : lab q' = some y') (he : rename i ni q = rename i ni q') :
    q = q' := by
  by_cases hqi : q = i
  · rw [hqi, rename_self] at he
    rw [hqi, eq_of_rename_eq hni hq' he.symm]
  · by_cases hqi' : q' = i
    · rw [hqi', rename_self] at he
      exact absurd (eq_of_rename_eq hni hq he) hqi
    · rwa [rename_of_ne hqi, rename_of_ne hqi'] at he

/-- Lists whose pointers have been renamed. -/
theorem renamed (h : ListInv recs L lab) (hi : lab i = some pr) (hni : ni = i ∨ lab ni = none)
    (hni0 : 0 ≤ ni) (hle : ni ≤ i) (hsize : recs'.size = recs.size)
    (hpair : ∀ j, (recs'.cells j).pair = (recs.cells j).pair)
    (hcpos : ∀ j, recs.InB j → (recs'.cells j).cpos = rename i ni (recs.cells j).cpos)
    (hL : L'.size = L.size)
    (hcells : ∀ q pr', lab q = some pr' →
      (L'.cells (rename i ni q)).next = rename i ni (L.cells q).next ∧
      (L'.cells (rename i ni q)).prev = rename i ni (L.cells q).prev) :
    ListInv recs' L' (Function.update (Function.update lab i none) ni (some pr)) := by
  have hi0 := (h.range i pr hi).1
  have hin : ∀ j, recs'.InB j ↔ recs.InB j := Block.inB_congr hsize
  have hlab := lab_rename_iff hi hni
  refine ⟨fun p y hp => ?_, fun a b ha hb he => ?_, fun j hj => ?_, fun p y hp hno => ?_⟩
  · obtain ⟨q, hq, rfl⟩ := (hlab p y).mp hp
    have hq' := h.range q y hq
    have hi' := h.range i pr hi
    rw [hL]
    unfold rename
    split <;> omega
  · rw [hpair, hpair] at he
    exact h.inj a b ((hin a).mp ha) ((hin b).mp hb) he
  · have hj' := (hin j).mp hj
    have hj0 := hj'.1
    obtain ⟨l, e, hs, hnd, hm⟩ := h.list j hj'
    refine ⟨l.map (rename i ni), rename i ni e, ?_, ?_, fun p => ?_⟩
    · have := hs.map (fun i => (L'.cells i).next) (fun i => (L'.cells i).prev) (rename i ni)
        (fun q hq => (hcells q _ ((hm q).mp hq)).1) (fun q hq => (hcells q _ ((hm q).mp hq)).2)
      rw [rename_of_ne (by omega : -j - 1 ≠ i), rename_of_ne (by omega : (-1 : Int) ≠ i)] at this
      rw [hcpos j hj']
      exact this
    · exact hnd.map_on fun a ha b hb he => rename_inj hni ((hm a).mp ha) ((hm b).mp hb) he
    · rw [hpair, hlab, List.mem_map]
      constructor
      · rintro ⟨q, hq, rfl⟩
        exact ⟨q, (hm q).mp hq, rfl⟩
      · rintro ⟨q, hq, rfl⟩
        exact ⟨q, (hm q).mpr hq, rfl⟩
  · obtain ⟨q, hq, rfl⟩ := (hlab p y).mp hp
    have hno' : ¬ HasRec recs y := fun ⟨j, hj, he⟩ => hno ⟨j, (hin j).mpr hj, by rw [hpair, he]⟩
    obtain ⟨hprev, hnext, hone⟩ := h.untracked q y hq hno'
    have hnull : nullFreq < 0 := by decide
    rw [(hcells q y hq).1, (hcells q y hq).2, hprev, hnext]
    refine ⟨rename_of_ne (by omega), rename_of_ne (by omega), fun x hx => ?_⟩
    obtain ⟨q', hq', rfl⟩ := (hlab x y).mp hx
    rw [hone q' hq']

/-- A position that points back to a record is in the list of a record. -/
theorem prev_inB (h : ListInv recs L lab) (hi : lab i = some pr) (hneg : (L.cells i).prev < 0)
    (hnull : (L.cells i).prev ≠ nullFreq) : recs.InB (-(L.cells i).prev - 1) := by
  by_cases hrec : HasRec recs pr
  · obtain ⟨id, l, e, hid, -, hil, hnd, hm, hpos, hs⟩ := h.exists_list hi hrec
    obtain ⟨l₁, l₂, rfl⟩ := List.append_of_mem hil
    rcases hs.pv_mem_or with hn | hn
    · rw [hn, show -(-id - 1) - 1 = id by omega]
      exact hid
    · have := hpos _ (List.mem_append_left _ hn)
      omega
  · exact absurd (h.untracked i pr hi hrec).1 hnull

end ListInv

/-! ## One round of the loop -/

section Move

variable {S : PairStore} {lab : Int → Option Tpair} {out : Tpair → Prop} {i ni : Int} {pr : Tpair}

/-- The records after the list cell `l` has moved to `ni`. -/
def movedRecs (recs : Block Trecord) (l : Tlist) (ni : Int) : Block Trecord :=
  if l.prev < 0 ∧ l.prev ≠ nullFreq then
    recs.upd (-l.prev - 1) fun r => { r with cpos := ni }
  else recs

/-- `L` after cell `i` has been copied to `ni` and the cell before it points to `ni`. -/
def movedNext (L : Block Tlist) (i ni : Int) : Block Tlist :=
  if (L.cells i).prev < 0 then L.upd ni fun _ => L.cells i
  else (L.upd ni fun _ => L.cells i).upd (L.cells i).prev fun q => { q with next := ni }

/-- `L` after the cell behind it points to `ni` as well. -/
def movedList (L : Block Tlist) (i ni : Int) : Block Tlist :=
  if (L.cells i).next ≠ -1 then
    (movedNext L i ni).upd (L.cells i).next fun q => { q with prev := ni }
  else movedNext L i ni

theorem movedRecs_same (recs : Block Trecord) (l : Tlist) (ni : Int) :
    IndexInv.SameButCpos recs (movedRecs recs l ni) := by
  unfold movedRecs
  split
  · exact IndexInv.SameButCpos.upd ..
  · exact ⟨rfl, fun _ => rfl⟩

section Cells

variable {L : Block Tlist} {i ni : Int}

theorem size_movedNext : (movedNext L i ni).size = L.size := by
  unfold movedNext
  split <;> rfl

theorem size_movedList : (movedList L i ni).size = L.size := by
  unfold movedList
  split
  · exact size_movedNext
  · exact size_movedNext

theorem cells_movedNext (hne : 0 ≤ (L.cells i).prev → (L.cells i).prev ≠ ni) (x : Int) :
    (movedNext L i ni).cells x =
      if 0 ≤ (L.cells i).prev ∧ x = (L.cells i).prev then { L.cells x with next := ni }
      else if x = ni then L.cells i else L.cells x := by
  unfold movedNext
  by_cases hneg : (L.cells i).prev < 0
  · rw [if_pos hneg, if_neg (by omega)]
    exact Block.cells_upd ..
  · rw [if_neg hneg, Block.cells_upd]
    by_cases hx : x = (L.cells i).prev
    · rw [if_pos hx, if_pos ⟨by omega, hx⟩, Block.cells_upd_ne, hx]
      exact hne (by omega)
    · rw [if_neg hx, if_neg fun hn => hx hn.2]
      exact Block.cells_upd ..

theorem cells_movedList (x : Int) :
    (movedList L i ni).cells x =
      if (L.cells i).next ≠ -1 ∧ x = (L.cells i).next then
        { (movedNext L i ni).cells x with prev := ni }
      else (movedNext L i ni).cells x := by
  unfold movedList
  by_cases hn : (L.cells i).next ≠ -1
  · rw [if_pos hn, Block.cells_upd]
    by_cases hx : x = (L.cells i).next
    · rw [if_pos hx, if_pos ⟨hn, hx⟩, hx]
    · rw [if_neg hx, if_neg fun hc => hx hc.2]
  · rw [if_neg hn, if_neg fun hc => hn hc.1]

end Cells

/-- A position with a pair, other than the one that moves, is not the free cell. -/
theorem labelled_ne {q : Int} {pr' : Tpair} (hni : ni = i ∨ lab ni = none) (hq : lab q = some pr')
    (hne : q ≠ i) : q ≠ ni := by
  rintro rfl
  rcases hni with rfl | hnone
  · exact hne rfl
  · rw [hnone] at hq
    cases hq

/-- The writes to `L` and the records in one round. -/
theorem moveOcc_run (h : IndexInv S lab out 0) (hi : lab i = some pr) (hbn : S.L.InB ni)
    {α : Type} (k : Block Trecord → Block Tlist → Run α) :
    (do
      let l ← S.L.read i
      let L ← S.L.write ni l
      let t ← (if l.prev < 0 then
          (if l.prev ≠ nullFreq then do
            let recs ← S.Rec.modify (-l.prev - 1) fun r => { r with cpos := ni }
            pure (recs, L)
          else pure (S.Rec, L))
        else do
          let L ← L.modify l.prev fun q => { q with next := ni }
          pure (S.Rec, L))
      let L ← (if l.next ≠ -1 then t.2.modify l.next fun q => { q with prev := ni } else pure t.2)
      k t.1 L) = k (movedRecs S.Rec (S.L.cells i) ni) (movedList S.L i ni) := by
  rw [Block.read_eq (h.lists.inB_of_lab hi), Run.ok_bind, Block.write_eq hbn, Run.ok_bind]
  have hrun₁ : (if (S.L.cells i).prev < 0 then
        (if (S.L.cells i).prev ≠ nullFreq then do
          let recs ← S.Rec.modify (-(S.L.cells i).prev - 1) fun r => { r with cpos := ni }
          pure (recs, S.L.upd ni fun _ => S.L.cells i)
        else pure (S.Rec, S.L.upd ni fun _ => S.L.cells i))
      else do
        let L ← (S.L.upd ni fun _ => S.L.cells i).modify (S.L.cells i).prev
          fun q => { q with next := ni }
        pure (S.Rec, L)) = .ok (movedRecs S.Rec (S.L.cells i) ni, movedNext S.L i ni) := by
    unfold movedRecs movedNext
    by_cases hneg : (S.L.cells i).prev < 0
    · rw [if_pos hneg, if_pos hneg]
      by_cases hnf : (S.L.cells i).prev ≠ nullFreq
      · rw [if_pos hnf, if_pos ⟨hneg, hnf⟩, Block.modify_eq (h.lists.prev_inB hi hneg hnf)]
        rfl
      · rw [if_neg hnf, if_neg fun hn => hnf hn.2]
        rfl
    · have hb : (S.L.upd ni fun _ => S.L.cells i).InB (S.L.cells i).prev :=
        h.lists.inB_of_lab (h.lists.prev_labelled hi (by omega))
      rw [if_neg hneg, if_neg hneg, if_neg fun hn => hneg hn.1, Block.modify_eq hb]
      rfl
  have hrun₂ : (if (S.L.cells i).next ≠ -1 then
        (movedNext S.L i ni).modify (S.L.cells i).next fun q => { q with prev := ni }
      else pure (movedNext S.L i ni)) = .ok (movedList S.L i ni) := by
    unfold movedList
    by_cases hn : (S.L.cells i).next ≠ -1
    · have hin := h.lists.inB_of_lab (h.lists.next_labelled hi hn)
      have hb : (movedNext S.L i ni).InB (S.L.cells i).next :=
        ⟨hin.1, by rw [size_movedNext]; exact hin.2⟩
      rw [if_pos hn, if_pos hn, Block.modify_eq hb]
    · rw [if_neg hn, if_neg hn]
      rfl
  rw [hrun₁, Run.ok_bind, hrun₂, Run.ok_bind]

/-- The heads of the lists are renamed. -/
theorem cpos_movedRecs (h : IndexInv S lab out 0) (hi : lab i = some pr) {j : Int}
    (hj : S.Rec.InB j) : ((movedRecs S.Rec (S.L.cells i) ni).cells j).cpos =
      rename i ni (S.Rec.cells j).cpos := by
  have hiff := h.lists.cpos_eq_iff (fun j hj => h.hash.id_lt (fun _ h => h) hj) hi hj
  have hj0 := hj.1
  have hjlt := h.hash.id_lt (fun _ h => h) hj
  have hnf : nullFreq = -intBound := rfl
  unfold movedRecs
  by_cases hc : (S.Rec.cells j).cpos = i
  · have hpj := hiff.mp hc
    rw [if_pos ⟨by omega, by omega⟩, hc, rename_self, IndexInv.cpos_upd, if_pos (by omega)]
  · have hpj : (S.L.cells i).prev ≠ -j - 1 := fun hn => hc (hiff.mpr hn)
    rw [rename_of_ne hc]
    split
    · rw [IndexInv.cpos_upd, if_neg (by omega)]
    · rfl

/-- The pointers between positions with a pair are renamed. -/
theorem movedList_renamed (h : IndexInv S lab out 0) (hi : lab i = some pr)
    (hni : ni = i ∨ lab ni = none) {q : Int} {pr' : Tpair} (hq : lab q = some pr') :
    ((movedList S.L i ni).cells (rename i ni q)).next = rename i ni (S.L.cells q).next ∧
      ((movedList S.L i ni).cells (rename i ni q)).prev = rename i ni (S.L.cells q).prev := by
  have hps := h.lists.prev_ne_self hi
  have hns := h.lists.next_ne_self hi
  -- neighbours carry a pair, so they are not the free cell `ni`
  have hnext : (S.L.cells i).next ≠ -1 → (S.L.cells i).next ≠ ni := fun hn =>
    labelled_ne hni (h.lists.next_labelled hi hn) hns
  have hprev : 0 ≤ (S.L.cells i).prev → (S.L.cells i).prev ≠ ni := fun hn =>
    labelled_ne hni (h.lists.prev_labelled hi hn) hps
  have hq0 := (h.range hq).1
  by_cases hqi : q = i
  · -- the cell that moves
    subst hqi
    have hcell : (movedList S.L q ni).cells ni = S.L.cells q := by
      rw [cells_movedList, if_neg fun hn => hnext hn.1 hn.2.symm, cells_movedNext hprev,
        if_neg fun hn => hprev hn.1 hn.2.symm, if_pos rfl]
    rw [rename_self, hcell, rename_of_ne hns, rename_of_ne hps]
    exact ⟨rfl, rfl⟩
  · -- a cell that may be a neighbour
    have hqn := labelled_ne hni hq hqi
    have e₁ := h.lists.next_eq_iff hi hq
    have e₂ := h.lists.next_eq_iff hq hi
    have r₁ : rename i ni (S.L.cells q).next =
        if 0 ≤ (S.L.cells i).prev ∧ q = (S.L.cells i).prev then ni else (S.L.cells q).next :=
      if_congr ⟨fun hn => ⟨by have := e₁.mp hn; omega, (e₁.mp hn).symm⟩,
        fun hn => e₁.mpr hn.2.symm⟩ rfl rfl
    have r₂ : rename i ni (S.L.cells q).prev =
        if (S.L.cells i).next ≠ -1 ∧ q = (S.L.cells i).next then ni else (S.L.cells q).prev :=
      if_congr ⟨fun hn => ⟨by have := e₂.mpr hn; omega, (e₂.mpr hn).symm⟩,
        fun hn => e₂.mp hn.2.symm⟩ rfl rfl
    rw [rename_of_ne hqi, r₁, r₂, cells_movedList, cells_movedNext hprev, if_neg hqn]
    constructor
    · split <;> split <;> rfl
    · split
      · rfl
      · split <;> rfl

/-- Moving a position keeps the pair index. -/
theorem moveOcc_keeps (h : IndexInv S lab out 0) (hi : lab i = some pr)
    (hni : ni = i ∨ lab ni = none) (hni0 : 0 ≤ ni) (hle : ni ≤ i) :
    IndexInv { S with Rec := movedRecs S.Rec (S.L.cells i) ni, L := movedList S.L i ni }
      (Function.update (Function.update lab i none) ni (some pr)) out 0 := by
  have hr := h.range hi
  have hsame := movedRecs_same S.Rec (S.L.cells i) ni
  have hlists := h.lists.renamed hi hni hni0 hle hsame.1 (fun j => by rw [hsame.2 j])
    (fun j hj => cpos_movedRecs h hi hj) size_movedList fun q pr' hq => movedList_renamed h hi hni hq
  refine IndexInv.of_sameButCpos h.hash h.heap h.recSize (by rw [size_movedList]; exact h.room) hsame
    hlists fun j hj hno => ?_
  have hfree : Function.update lab i none ni = none := by
    by_cases hne : ni = i
    · rw [hne, Function.update_self]
    · rw [Function.update_of_ne hne, hni.resolve_left hne]
  rw [h.freq j hj hno, size_movedList]
  have c₁ := cnt_update lab (S.Rec.cells j).pair hr.1 hr.2 none
  have c₂ := cnt_update (Function.update lab i none) (S.Rec.cells j).pair hni0
    (by omega : ni < S.L.size) (some pr)
  rw [hi, if_neg (by simp : ¬ (none : Option Tpair) = some _)] at c₁
  rw [hfree, if_neg (by simp : ¬ (none : Option Tpair) = some _)] at c₂
  omega

end Move

/-! ## The loop -/

theorem slots_getElem? (n : Int) (k : Nat) :
    (slots n)[k]? = if (k : Int) < n then some (k : Int) else none := by
  rw [slots, List.getElem?_map]
  split
  · rw [List.getElem?_range (by omega)]
    rfl
  · rw [List.getElem?_eq_none (by simp; omega)]
    rfl

theorem adj_slots {n x y : Int} : Adj (slots n) x y ↔ 0 ≤ x ∧ y = x + 1 ∧ y < n := by
  rw [adj_iff_getElem?]
  constructor
  · rintro ⟨k, hx, hy⟩
    rw [slots_getElem?] at hx hy
    split at hx <;> split at hy <;> simp at hx hy
    omega
  · rintro ⟨hx, rfl, hy⟩
    refine ⟨x.toNat, ?_, ?_⟩
    · rw [slots_getElem?, if_pos (by omega), Option.some_inj]
      omega
    · rw [slots_getElem?, if_pos (by omega), Option.some_inj]
      omega

/-- A text without holes. -/
theorem TextInv.of_slots {u : Int} {inter : Block Int} (hsize : inter.size = u) (hu : 0 < u)
    (hlive : ∀ p ∈ slots u, 0 ≤ inter.cells p) : TextInv u inter (slots u) where
  size := hsize
  first := by
    rw [List.head?_eq_getElem?, slots_getElem?, if_pos (by omega)]
    rfl
  tail p hp := by
    rw [List.getLast?_eq_getElem?, slots_getElem?, length_slots, if_pos (by omega),
      Option.some_inj] at hp
    omega
  sorted := List.pairwise_map.mpr (List.pairwise_lt_range.imp fun hlt => by omega)
  live := hlive
  holes _ _ hpq := Or.inl (adj_slots.mp hpq).2.1

section Loop

variable {R : Repair} {ps : List Int} {k : Nat} {i : Int}

/-- The pairs after `k` rounds, with the live positions from `i` on still in place. -/
def movedLabels (lab : Int → Option Tpair) (ps : List Int) (k i x : Int) : Option Tpair :=
  if 0 ≤ x ∧ x < k then (ps[x.toNat]?).bind lab else if i ≤ x then lab x else none

/-- The invariant of the compaction loop. -/
structure CompactInv (R : Repair) (ps : List Int) (k : Int) (s : Int × Repair) : Prop where
  nonneg : 0 ≤ k
  cur : ps[k.toNat]? = some s.1
  same : s.2.u = R.u ∧ s.2.c = R.c ∧ s.2.n = R.n ∧ s.2.rule = R.rule
  interSize : s.2.inter.size = R.u
  kept : ∀ x, k ≤ x → s.2.inter.cells x = R.inter.cells x
  moved : ∀ (j : Nat) p, (j : Int) < k → ps[j]? = some p → s.2.inter.cells j = R.inter.cells p
  index : IndexInv s.2.S (movedLabels (labels R.inter ps) ps k s.1) (fun _ => False) 0
  size : s.2.S.L.size = R.u
  freq : ∀ j, s.2.S.Rec.InB j → 2 ≤ (s.2.S.Rec.cells j).freq

/-- The `k`-th live position is at least `k`. -/
theorem RepairInv.le_pos (h : RepairInv R ps) (hk : ps[k]? = some i) : (k : Int) ≤ i := by
  induction k generalizing i with
  | zero =>
    have := h.text.mem_range (List.mem_of_getElem? hk)
    omega
  | succ k ih =>
    have hlt := (List.getElem?_eq_some_iff.mp hk).1
    have hk' : ps[k]? = some ps[k] := List.getElem?_eq_getElem (by omega)
    have hadj := h.text.adj_range (adj_iff_getElem?.mpr ⟨k, hk', hk⟩)
    have := ih hk'
    push_cast
    omega

theorem nextPos_congr (inter : Block Int) {inter' : Block Int} {p : Int} (hsize : inter'.size = inter.size)
    (hcell : inter'.cells (p + 1) = inter.cells (p + 1)) : nextPos inter' p = nextPos inter p := by
  have hread : inter'.read (p + 1) = inter.read (p + 1) := by
    unfold Block.read
    exact if_congr (Block.inB_congr hsize _) (by rw [hcell]) rfl
  rw [nextPos, nextPos, hread]

/-- The pairs after a move: the next live position is `j`, and between `i` and `j` are holes. -/
theorem movedLabels_succ (h : RepairInv R ps) {i j k : Int} (hk0 : 0 ≤ k) (hki : k ≤ i)
    (hcur : ps[k.toNat]? = some i) (hadj : Adj ps i j) :
    Function.update (Function.update (movedLabels (labels R.inter ps) ps k i) i none) k
      (some ⟨R.inter.cells i, R.inter.cells j⟩) = movedLabels (labels R.inter ps) ps (k + 1) j := by
  have hnd := h.text.nodup
  have hr := h.text.adj_range hadj
  funext x
  by_cases hxk : x = k
  · rw [hxk, Function.update_self, movedLabels, if_pos ⟨hk0, by omega⟩, hcur]
    exact ((labels_eq_some_iff hnd).mpr ⟨j, hadj, rfl⟩).symm
  · rw [Function.update_of_ne hxk]
    by_cases hxi : x = i
    · rw [hxi, Function.update_self, movedLabels, if_neg (by omega), if_neg (by omega)]
    · rw [Function.update_of_ne hxi]
      unfold movedLabels
      by_cases hx : 0 ≤ x ∧ x < k
      · rw [if_pos hx, if_pos ⟨hx.1, by omega⟩]
      · rw [if_neg hx, if_neg (by omega : ¬ (0 ≤ x ∧ x < k + 1))]
        by_cases hxj : j ≤ x
        · rw [if_pos (by omega), if_pos hxj]
        · rw [if_neg hxj]
          split
          · -- a hole between two live positions
            refine labels_eq_none hnd fun y hy => ?_
            have := hadj.not_between h.text.sorted hy.left_mem
            omega
          · rfl

/-- One round. -/
theorem compactStep_eq (h : RepairInv R ps) {s : Int × Repair} {k : Int}
    (hs : CompactInv R ps k s) (hk : k < R.c - 1) :
    ∃ s', compactStep k s = .ok s' ∧ CompactInv R ps (k + 1) s' := by
  obtain ⟨i, R'⟩ := s
  have hk0 := hs.nonneg
  have hcur : ps[k.toNat]? = some i := hs.cur
  have hlen := h.len
  -- the next live position
  obtain ⟨j, hj⟩ : ∃ j, ps[k.toNat + 1]? = some j :=
    ⟨_, List.getElem?_eq_getElem (by omega)⟩
  have hadj : Adj ps i j := adj_iff_getElem?.mpr ⟨k.toNat, hcur, hj⟩
  have hr := h.text.adj_range hadj
  have hki : k ≤ i := by
    have := h.le_pos hcur
    omega
  have hcurlab : movedLabels (labels R.inter ps) ps k i i = some ⟨R.inter.cells i, R.inter.cells j⟩ := by
    rw [movedLabels, if_neg (by omega), if_pos (by omega)]
    exact (labels_eq_some_iff h.text.nodup).mpr ⟨j, hadj, rfl⟩
  have hfree : k = i ∨ movedLabels (labels R.inter ps) ps k i k = none := by
    by_cases he : k = i
    · exact Or.inl he
    · exact Or.inr (by rw [movedLabels, if_neg (by omega), if_neg (by omega)])
  have hindex : IndexInv R'.S (movedLabels (labels R.inter ps) ps k i) (fun _ => False) 0 := hs.index
  have hmove := moveOcc_keeps hindex hcurlab hfree hk0 hki
  rw [movedLabels_succ h hk0 hki hcur hadj] at hmove
  have hsame := movedRecs_same R'.S.Rec (R'.S.L.cells i) k
  have hsize : R'.inter.size = R.u := hs.interSize
  have hLsize : R'.S.L.size = R.u := hs.size
  have hbi : R'.inter.InB i := ⟨by omega, by omega⟩
  have hbk : R'.inter.InB k := ⟨by omega, by omega⟩
  have hnext : nextPos (R'.inter.upd k fun _ => R'.inter.cells i) i = .ok j := by
    rw [nextPos_congr R.inter, h.text.nextPos_eq hadj]
    · exact hsize.trans h.text.size.symm
    · rw [Block.cells_upd_ne _ _ (show i + 1 ≠ k by omega)]
      exact hs.kept (i + 1) (by omega)
  refine ⟨(j, { R' with
      inter := R'.inter.upd k fun _ => R'.inter.cells i
      S := { R'.S with
        Rec := movedRecs R'.S.Rec (R'.S.L.cells i) k, L := movedList R'.S.L i k } }), ?_,
      ⟨by omega, ?_, hs.same, hsize, fun x hx => ?_, fun m p hm hp => ?_, hmove,
        size_movedList.trans hLsize, fun m hm => ?_⟩⟩
  · rw [compactStep]
    dsimp only
    rw [Block.read_eq hbi, Run.ok_bind, Block.write_eq hbk, Run.ok_bind]
    refine (moveOcc_run hindex hcurlab ⟨hk0, by omega⟩ fun recs L => do
      let m ← nextPos (R'.inter.upd k fun _ => R'.inter.cells i) i
      pure (m, { R' with
        inter := R'.inter.upd k fun _ => R'.inter.cells i
        S := { R'.S with Rec := recs, L := L } })).trans ?_
    rw [hnext]
    rfl
  · rw [show (k + 1).toNat = k.toNat + 1 by omega]
    exact hj
  · dsimp only
    rw [Block.cells_upd_ne _ _ (show x ≠ k by omega)]
    exact hs.kept x (by omega)
  · dsimp only
    by_cases hmk : (m : Int) = k
    · rw [hmk, Block.cells_upd_self]
      have hmi : some p = some i := by
        rw [← hp, ← hcur, ← hmk]
        rfl
      rw [Option.some_inj.mp hmi]
      exact hs.kept i hki
    · rw [Block.cells_upd_ne _ _ hmk]
      exact hs.moved m p (by omega) hp
  · dsimp only at hm ⊢
    rw [hsame.2 m]
    exact hs.freq m ⟨hm.1, by rw [← hsame.1]; exact hm.2⟩

theorem RepairInv.c_pos (h : RepairInv R ps) : 0 < R.c := by
  have := List.length_pos_iff.mpr h.text.ne_nil
  have := h.len
  omega

theorem RepairInv.c_le (h : RepairInv R ps) : R.c ≤ R.u := by
  have hpos := h.c_pos
  have hlen := h.len
  have hlast := List.getLast?_eq_some_getLast h.text.ne_nil
  have hlt := (h.text.mem_range (List.mem_of_getLast? hlast)).2
  rw [List.getLast?_eq_getElem?] at hlast
  have := h.le_pos hlast
  omega

/-- Before the first round. -/
theorem RepairInv.compactInv (h : RepairInv R ps) : CompactInv R ps 0 (0, R) where
  nonneg := by omega
  cur := by
    have := h.text.first
    rwa [List.head?_eq_getElem?] at this
  same := ⟨rfl, rfl, rfl, rfl⟩
  interSize := h.text.size
  kept _ _ := rfl
  moved j p hj := by omega
  index := by
    convert h.index using 1
    funext x
    rw [movedLabels, if_neg (by omega)]
    split
    · rfl
    · refine (labels_eq_none h.text.nodup fun y hy => ?_).symm
      have := h.text.adj_range hy
      dsimp only at *
      omega
  size := h.size
  freq := h.freq

/-- The pair index does not need the cells of `L` behind the text. -/
theorem IndexInv.truncate {S : PairStore} {lab : Int → Option Tpair} {c : Int}
    (h : IndexInv S lab (fun _ => False) 0) (hc : c ≤ S.L.size)
    (hlab : ∀ p pr, lab p = some pr → p + 1 < c) :
    IndexInv { S with L := S.L.truncate c } lab (fun _ => False) 0 where
  hash := h.hash
  heap := h.heap
  lists := ⟨fun p pr hp => ⟨(h.lists.range p pr hp).1, hlab p pr hp⟩, h.lists.inj, h.lists.list,
    h.lists.untracked⟩
  freq j hj hno := by
    obtain ⟨l, e, -, hnd, hm⟩ := h.lists.list j hj
    rw [h.freq j hj hno, cnt_eq_length hnd hm fun p hp => h.range hp,
      cnt_eq_length hnd hm fun p hp => ⟨(h.range hp).1, by
        have := hlab p _ hp
        rw [Block.size_truncate]
        omega⟩]
  recSize := h.recSize
  room := by
    have := h.room
    dsimp only
    rw [Block.size_truncate]
    omega

/-- The symbols at the positions `ps` are in the first cells of `inter'`. -/
def InFront (inter inter' : Block Int) (ps : List Int) : Prop :=
  ∀ (j : Nat) p, ps[j]? = some p → inter'.cells j = inter.cells p

section InFront

variable {inter inter' : Block Int} {c : Int}

theorem InFront.map_eq (h : InFront inter inter' ps) (hlen : (ps.length : Int) = c) :
    (slots c).map inter'.cells = ps.map inter.cells := by
  refine List.ext_getElem? fun j => ?_
  rw [List.getElem?_map, List.getElem?_map, slots_getElem?]
  by_cases hj : (j : Int) < c
  · rw [if_pos hj, List.getElem?_eq_getElem (by omega : j < ps.length), Option.map_some,
      Option.map_some, h j _ (List.getElem?_eq_getElem (by omega))]
  · rw [if_neg hj, List.getElem?_eq_none (by omega : ps.length ≤ j)]
    rfl

theorem InFront.exists_mem (h : InFront inter inter' ps) (hlen : (ps.length : Int) = c) {p : Int}
    (hp : p ∈ slots c) : ∃ q ∈ ps, inter'.cells p = inter.cells q := by
  have := mem_slots.mp hp
  refine ⟨ps[p.toNat], List.getElem_mem _, ?_⟩
  rw [← h p.toNat _ (List.getElem?_eq_getElem (by omega)),
    show ((p.toNat : Nat) : Int) = p by omega]

/-- With the text in front, the pairs are those that the loop has moved. -/
theorem InFront.labels_eq (h : InFront R.inter inter' ps) (hinv : RepairInv R ps) {i : Int}
    (hlast : ps.getLast? = some i) :
    labels inter' (slots R.c) = movedLabels (labels R.inter ps) ps (R.c - 1) i := by
  have hlen := hinv.len
  funext x
  by_cases hx : 0 ≤ x ∧ x < R.c - 1
  · have hp : ps[x.toNat]? = some ps[x.toNat] := List.getElem?_eq_getElem (by omega)
    have hq : ps[x.toNat + 1]? = some ps[x.toNat + 1] := List.getElem?_eq_getElem (by omega)
    rw [movedLabels, if_pos hx, hp, Option.bind_some, (labels_eq_some_iff hinv.text.nodup).mpr
      ⟨_, adj_iff_getElem?.mpr ⟨x.toNat, hp, hq⟩, rfl⟩]
    refine (labels_eq_some_iff (nodup_slots _)).mpr
      ⟨x + 1, adj_slots.mpr ⟨hx.1, rfl, by omega⟩, ?_⟩
    rw [← h _ _ hp, ← h _ _ hq, show ((x.toNat : Nat) : Int) = x by omega,
      show ((x.toNat + 1 : Nat) : Int) = x + 1 by omega]
  · rw [movedLabels, if_neg hx, labels_eq_none (nodup_slots _) fun y hy => by
      have := adj_slots.mp hy
      omega]
    split
    · refine (labels_eq_none hinv.text.nodup fun y hy => ?_).symm
      have := (hinv.text.adj_range hy).2.1
      have := hinv.text.le_last hlast hy.right_mem
      omega
    · rfl

end InFront

/-- The last symbol is moved after the loop. -/
theorem CompactInv.inFront {i : Int} {R' : Repair} (h : CompactInv R ps (R.c - 1) (i, R'))
    (hlen : (ps.length : Int) = R.c) (hci : R.c - 1 ≤ i) :
    InFront R.inter ((R'.inter.upd (R.c - 1) fun _ => R'.inter.cells i).truncate R.c) ps := by
  intro j p hp
  have hi : ps[(R.c - 1).toNat]? = some i := h.cur
  have hj := (List.getElem?_eq_some_iff.mp hp).1
  rw [Block.cells_truncate]
  by_cases hjc : (j : Int) = R.c - 1
  · rw [hjc, Block.cells_upd_self, show R'.inter.cells i = R.inter.cells i from h.kept i (by omega)]
    rw [show j = (R.c - 1).toNat by omega, hi, Option.some_inj] at hp
    rw [hp]
  · rw [Block.cells_upd_ne _ _ hjc]
    exact h.moved j p (by omega) hp

/-- "compact C" moves the text to the front and changes nothing else. -/
theorem compact_eq (h : RepairInv R ps) :
    ∃ R', compact R = .ok R' ∧ RepairInv R' (slots R.c) ∧ R'.c = R.c ∧ R'.n = R.n ∧
      R'.view (slots R.c) = R.view ps := by
  have hpos := h.c_pos
  have hle := h.c_le
  have hlen := h.len
  have hstep : ∀ k s, k < R.c - 1 → CompactInv R ps k s →
      Run.Meets (fun _ => False) (compactStep k s) (CompactInv R ps (k + 1)) := fun k s hk hs => by
    obtain ⟨s', hrun, hs'⟩ := compactStep_eq h hs hk
    rw [hrun]
    exact hs'
  obtain ⟨⟨i, R'⟩, hrun, hs⟩ := (Run.meets_forLoop _ (R.c - 1) hstep (R.c - 1).toNat 0 (0, R)
    (by omega) h.compactInv).exists_ok fun e he => he.elim
  have hi : ps[(R.c - 1).toNat]? = some i := hs.cur
  have hlast : ps.getLast? = some i := by
    rw [List.getLast?_eq_getElem?, show ps.length - 1 = (R.c - 1).toNat by omega, hi]
  have hi' := h.text.mem_range (List.mem_of_getLast? hlast)
  have hci := h.le_pos hi
  obtain ⟨hu, hc, hn, hrule⟩ := hs.same
  dsimp only at hu hc hn hrule
  have hsize : R'.inter.size = R.u := hs.interSize
  have hbi : R'.inter.InB i := ⟨by omega, by omega⟩
  have hbc : R'.inter.InB (R.c - 1) := ⟨by omega, by omega⟩
  have hfront := hs.inFront hlen (by omega)
  refine ⟨{ R' with
      u := R'.c
      inter := (R'.inter.upd (R.c - 1) fun _ => R'.inter.cells i).truncate R.c
      S := { R'.S with L := R'.S.L.truncate R'.c } }, ?_, ?_, hc, hn, ?_⟩
  · rw [compact, hrun, Run.ok_bind]
    dsimp only
    rw [Block.read_eq hbi, Run.ok_bind, hc, if_pos (by omega), Block.write_eq hbc]
    rfl
  · have hindex := hs.index
    rw [← hfront.labels_eq h hlast] at hindex
    refine ⟨?_, ?_, ?_, rfl, hs.freq, fun p hp => ?_⟩
    · dsimp only
      rw [hc]
      refine TextInv.of_slots rfl hpos fun p hp => ?_
      obtain ⟨q, hq, he⟩ := hfront.exists_mem hlen hp
      rw [he]
      exact h.text.live q hq
    · dsimp only
      rw [length_slots]
      omega
    · refine IndexInv.truncate hindex (by rw [hc, hs.size]; exact hle) fun p pr hp => ?_
      obtain ⟨q, hq, -⟩ := (labels_eq_some_iff (nodup_slots _)).mp hp
      have := adj_slots.mp hq
      omega
    · obtain ⟨q, hq, he⟩ := hfront.exists_mem hlen hp
      dsimp only
      rw [he, hn]
      exact h.symbols q hq
  · rw [Repair.view, Repair.view]
    dsimp only
    rw [hfront.map_eq hlen, hrule]

end Loop

end Laconic.RePair
