import Laconic.RePair.Compress

/-!
# Re-Pair: what moves the cursor of the heap

`max` tells `extractMax` where to look first, and only `extractMax` changes it.  Every other
operation on the pair store leaves `max` and `sqrtu` as they are.
-/

namespace Laconic.RePair

open Run

/-- The cursor and the bound between the two parts of the heap are the same. -/
def SameMax (H H' : Theap) : Prop := H'.max = H.max ∧ H'.sqrtu = H.sqrtu

theorem SameMax.refl (H : Theap) : SameMax H H := ⟨rfl, rfl⟩

theorem SameMax.trans {H H₁ H₂ : Theap} (h : SameMax H H₁) (h' : SameMax H₁ H₂) : SameMax H H₂ :=
  ⟨h'.1.trans h.1, h'.2.trans h.2⟩

section Heap

variable {H : Theap} {recs : Block Trecord} {id hpos fp freq : Int}

/-! ## The buckets -/

theorem deleteInfreq_sameMax : Meets AnyFault (deleteInfreq H freq) (SameMax H) :=
  any_bind fun _ => any_bind fun _ => any_bind fun _ => SameMax.refl H

theorem insertInfreq_sameMax :
    Meets AnyFault (insertInfreq H recs freq id) (fun s => SameMax H s.1) :=
  any_bind fun _ => any_bind fun _ => any_bind fun _ => SameMax.refl H

theorem move_sameMax {i j : Int} :
    Meets AnyFault (move H recs freq i j) (fun s => SameMax H s.1) :=
  any_bind fun _ => any_bind fun _ => any_bind fun _ => any_bind fun _ => any_bind fun _ =>
    SameMax.refl H

theorem removeInfreq_sameMax :
    Meets AnyFault (removeInfreq H recs freq hpos) (fun s => SameMax H s.1) :=
  any_bind fun _ => move_sameMax.bind fun _ hs => deleteInfreq_sameMax.bind fun _ h' => hs.trans h'

/-! ## The linked lists -/

theorem unlinkNode_sameMax : Meets AnyFault (unlinkNode H hpos fp) (SameMax H) := by
  unfold unlinkNode
  refine any_bind fun p => Meets.bind (P := SameMax H) ?_ fun H₁ h₁ => ?_
  · split
    · exact any_bind fun _ => SameMax.refl H
    · exact any_bind fun _ => SameMax.refl H
  · split
    · exact any_bind fun _ => h₁
    · exact h₁

theorem pushNode_sameMax : Meets AnyFault (pushNode H hpos fp) (SameMax H) :=
  any_bind fun _ => any_bind fun _ => any_bind fun _ => any_bind fun _ => SameMax.refl H

theorem createFreq_sameMax {smaller larger : Int} :
    Meets AnyFault (createFreq H hpos freq smaller larger) (SameMax H) :=
  any_bind fun _ => any_bind fun _ => any_bind fun _ => any_bind fun _ => any_bind fun _ =>
    SameMax.refl H

theorem createSmallest_sameMax : Meets AnyFault (createSmallest H hpos freq) (SameMax H) :=
  any_bind fun _ => any_bind fun _ => any_bind fun _ => any_bind fun _ => SameMax.refl H

theorem dropFreq_sameMax : Meets AnyFault (dropFreq H fp) (SameMax H) := by
  unfold dropFreq
  refine any_bind fun f => ?_
  split
  · exact any_bind fun _ => any_bind fun _ => any_bind fun _ => SameMax.refl H
  · exact SameMax.refl H

theorem incHigh_sameMax : Meets AnyFault (incHigh H hpos freq) (SameMax H) := by
  unfold incHigh
  refine any_bind fun p => any_bind fun f => any_bind fun ex => ?_
  split
  · exact any_bind fun _ => SameMax.refl H
  · refine unlinkNode_sameMax.bind fun H₁ h₁ => Meets.bind (P := SameMax H) ?_ fun H₂ h₂ => ?_
    · split
      · exact pushNode_sameMax.mono fun _ h => h₁.trans h
      · exact createFreq_sameMax.mono fun _ h => h₁.trans h
    · exact dropFreq_sameMax.mono fun _ h => h₂.trans h

theorem decHigh_sameMax : Meets AnyFault (decHigh H hpos freq) (SameMax H) := by
  unfold decHigh
  refine any_bind fun p => any_bind fun f => any_bind fun ex => ?_
  split
  · exact any_bind fun _ => SameMax.refl H
  · refine unlinkNode_sameMax.bind fun H₁ h₁ => Meets.bind (P := SameMax H) ?_ fun H₂ h₂ => ?_
    · split
      · exact pushNode_sameMax.mono fun _ h => h₁.trans h
      · exact createFreq_sameMax.mono fun _ h => h₁.trans h
    · exact dropFreq_sameMax.mono fun _ h => h₂.trans h

theorem enterHigh_sameMax :
    Meets AnyFault (enterHigh H recs id freq) (fun s => SameMax H s.1) := by
  unfold enterHigh
  refine any_bind fun p => any_bind fun _ => any_bind fun nodes => any_bind fun ex => ?_
  refine Meets.bind (P := SameMax H) ?_ fun H₁ h₁ => h₁
  split
  · exact pushNode_sameMax
  · exact createSmallest_sameMax

theorem leaveHigh_sameMax : Meets AnyFault (leaveHigh H hpos) (SameMax H) := by
  unfold leaveHigh
  refine any_bind fun p => unlinkNode_sameMax.bind fun H₁ h₁ => any_bind fun _ =>
    any_bind fun f => ?_
  split
  · exact any_bind fun _ => any_bind fun _ => h₁
  · exact h₁

/-! ## The heap -/

theorem incFreq_sameMax : Meets AnyFault (incFreq H recs id) (fun s => SameMax H s.1) := by
  unfold incFreq
  refine any_bind fun r => any_bind fun recs' => ?_
  split
  · exact incHigh_sameMax.bind fun _ h => h
  · refine removeInfreq_sameMax.bind fun s hs => ?_
    split
    · exact insertInfreq_sameMax.mono fun _ h => hs.trans h
    · exact enterHigh_sameMax.mono fun _ h => hs.trans h

theorem decHeap_sameMax : Meets AnyFault (decHeap H recs id) (fun s => SameMax H s.1) := by
  unfold decHeap
  refine any_bind fun r => any_bind fun recs' => ?_
  split
  · exact decHigh_sameMax.bind fun _ h => h
  · refine Meets.bind (P := fun s => SameMax H s.1) ?_ fun s hs => ?_
    · split
      · exact removeInfreq_sameMax
      · exact leaveHigh_sameMax.bind fun _ h => h
    · split
      · exact insertInfreq_sameMax.mono fun _ h => hs.trans h
      · exact hs

theorem insertHeap_sameMax : Meets AnyFault (insertHeap H recs id) (fun s => SameMax H s.1) :=
  insertInfreq_sameMax.bind fun _ h => any_bind fun _ => h

theorem heapRepos_sameMax : Meets AnyFault (heapRepos H recs id) (SameMax H) := by
  unfold heapRepos
  refine any_bind fun r => ?_
  split
  · exact any_bind fun _ => any_bind fun _ => any_bind fun _ => SameMax.refl H
  · exact any_bind fun _ => SameMax.refl H

end Heap

/-! ## The pair store -/

section Store

variable {S : PairStore} {pr : Tpair} {id oid i : Int}

theorem insertRecord_sameMax :
    Meets AnyFault (insertRecord S pr) (fun s => SameMax S.Heap s.2.Heap) :=
  any_bind fun _ => insertHeap_sameMax.bind fun _ h => h

theorem removeRecord_sameMax :
    Meets AnyFault (removeRecord S id) (fun S' => SameMax S.Heap S'.Heap) := by
  unfold removeRecord
  refine any_bind fun hash => any_bind fun r => any_bind fun L => ?_
  refine Meets.bind (P := fun S' => SameMax S.Heap S'.Heap) ?_ fun S' h' => ?_
  · split
    · exact any_bind fun _ => any_bind fun _ => any_bind fun _ =>
        heapRepos_sameMax.bind fun _ h => any_bind fun _ => h
    · exact SameMax.refl _
  · exact any_bind fun _ => h'

theorem decFreq_sameMax : Meets AnyFault (decFreq S id) (fun S' => SameMax S.Heap S'.Heap) := by
  unfold decFreq
  refine any_bind fun r => decHeap_sameMax.bind fun s hs => ?_
  split
  · exact removeRecord_sameMax.mono fun _ h => hs.trans h
  · exact hs

theorem purgeHeap_sameMax : Meets AnyFault (purgeHeap S) (fun S' => SameMax S.Heap S'.Heap) := by
  unfold purgeHeap
  refine any_bind fun A => Meets.bind (P := fun s => SameMax S.Heap s.2.Heap)
    (any_whileLoop _ (fun s hs => ?_) _ _ (SameMax.refl _)) fun s hs => ?_
  · exact any_bind fun _ => any_bind fun _ => removeRecord_sameMax.bind fun _ h => hs.trans h
  · exact any_bind fun _ => hs

theorem linkHead_sameMax {fresh : Bool} :
    Meets AnyFault (linkHead S id i fresh) (fun S' => SameMax S.Heap S'.Heap) :=
  any_bind fun _ => any_bind fun _ => any_bind fun _ => any_bind fun _ => SameMax.refl _

theorem createOcc_sameMax : Meets AnyFault (createOcc S pr i) (fun S' => SameMax S.Heap S'.Heap) := by
  unfold createOcc
  refine any_bind fun id => ?_
  split
  · exact insertRecord_sameMax.bind fun _ h => linkHead_sameMax.mono fun _ h' => h.trans h'
  · exact (incFreq_sameMax.bind fun _ h => h : Meets AnyFault (incFreqS S id)
      (fun S' => SameMax S.Heap S'.Heap)).bind fun _ h => linkHead_sameMax.mono fun _ h' => h.trans h'

theorem removeOcc_sameMax :
    Meets AnyFault (removeOcc S oid pr i) (fun S' => SameMax S.Heap S'.Heap) := by
  unfold removeOcc
  refine any_bind fun id => ?_
  split
  · refine Meets.bind (P := fun S' => SameMax S.Heap S'.Heap) ?_ fun S' h' => any_bind fun l => ?_
    · split
      · exact decFreq_sameMax
      · exact SameMax.refl _
    · split
      · exact any_bind fun _ => any_bind fun _ => h'
      · exact h'
  · exact SameMax.refl _

theorem unlinkHead_sameMax :
    Meets AnyFault (unlinkHead S oid i) (fun S' => SameMax S.Heap S'.Heap) :=
  any_bind fun _ => any_bind fun _ => any_bind fun _ => SameMax.refl _

end Store

/-! ## A turn of `repair` -/

section Turn

variable {R : Repair} {oid cpos : Int}

theorem replaceStep_sameMax :
    Meets AnyFault (replaceStep oid cpos R) (fun R' => SameMax R.S.Heap R'.S.Heap) := by
  unfold replaceStep
  refine any_bind fun sgte => any_bind fun ssgte => unlinkHead_sameMax.bind fun S₁ h₁ => ?_
  refine Meets.bind (P := fun S' => SameMax R.S.Heap S'.Heap) ?_ fun S₂ h₂ =>
    Meets.bind (P := fun S' => SameMax R.S.Heap S'.Heap) ?_ fun S₃ h₃ => ?_
  · split
    · exact any_bind fun _ => any_bind fun _ => removeOcc_sameMax.bind fun _ h =>
        createOcc_sameMax.mono fun _ h' => h₁.trans (h.trans h')
    · exact h₁
  · split
    · exact any_bind fun _ => any_bind fun _ => any_bind fun _ => removeOcc_sameMax.bind fun _ h =>
        createOcc_sameMax.mono fun _ h' => h₂.trans (h.trans h')
    · exact h₂
  · exact any_bind fun _ => any_bind fun _ => any_bind fun _ => h₃

theorem replaceAll_sameMax :
    Meets AnyFault (replaceAll oid R) (fun R' => SameMax R.S.Heap R'.S.Heap) := by
  unfold replaceAll
  refine any_bind fun r => Meets.bind (P := fun s : Int × Repair => SameMax R.S.Heap s.2.S.Heap)
    (any_whileLoop _ (fun s hs => ?_) _ _ (SameMax.refl _)) fun s hs => hs
  exact replaceStep_sameMax.bind fun _ h => any_bind fun _ => hs.trans h

theorem compactStep_sameMax {ni : Int} {s : Int × Repair} :
    Meets AnyFault (compactStep ni s) (fun s' => SameMax s.2.S.Heap s'.2.S.Heap) :=
  any_bind fun _ => any_bind fun _ => any_bind fun _ => any_bind fun _ => any_bind fun _ =>
    any_bind fun _ => any_bind fun _ => SameMax.refl _

theorem compact_sameMax :
    Meets AnyFault (compact R) (fun R' => SameMax R.S.Heap R'.S.Heap) := by
  unfold compact
  refine Meets.bind (meets_forLoop (fun _ s => SameMax R.S.Heap s.2.S.Heap) _
    (fun i s _ hs => compactStep_sameMax.mono fun _ h => hs.trans h) _ _ _ rfl (SameMax.refl _))
    fun s hs => ?_
  exact any_bind fun _ => any_bind fun _ => hs

theorem repairTurn_sameMax :
    Meets AnyFault (repairTurn oid R) (fun R' => SameMax R.S.Heap R'.S.Heap) := by
  unfold repairTurn
  refine any_bind fun r => replaceAll_sameMax.bind fun R₁ h₁ => removeRecord_sameMax.bind fun _ h₂ =>
    purgeHeap_sameMax.bind fun S₃ h₃ => ?_
  have h := h₁.trans (h₂.trans h₃)
  dsimp only
  split
  · exact compact_sameMax.mono fun _ h' => h.trans h'
  · exact h

end Turn

/-- A fresh heap has its cursor above the buckets, and `prepare` leaves it there. -/
theorem prepare_max {alph : Int} {inter : Block Int} :
    Meets AnyFault (prepare alph inter) (fun R => R.S.Heap.max = R.S.Heap.sqrtu) := by
  unfold prepare
  have hheap : Meets AnyFault (createHeap inter.size) (fun H => H.max = H.sqrtu) :=
    any_bind fun _ => rfl
  refine hheap.bind fun H hH => any_bind fun hash => ?_
  refine Meets.bind (meets_forLoop (fun _ S => S.Heap.max = S.Heap.sqrtu) _
    (fun i S _ hS => ?_) _ _ _ rfl hH) fun S hS => ?_
  · exact any_bind fun _ => any_bind fun _ => createOcc_sameMax.mono fun S' h =>
      h.1.trans (hS.trans h.2.symm)
  · exact purgeHeap_sameMax.bind fun S' h => h.1.trans (hS.trans h.2.symm)

end Laconic.RePair
