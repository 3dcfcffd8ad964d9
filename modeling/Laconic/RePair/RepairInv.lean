import Laconic.RePair.Replace

/-!
# Re-Pair: the state at the head of the outer loop

`RepairInv R ps` is the representation invariant of the Re-Pair state: the live positions `ps`, the
pair store of the pairs at these positions, and all frequencies at least 2.  A turn of `repair`,
without the compaction at its end, keeps it and is a turn of the rewriting system.
-/

namespace Laconic.RePair

open Neighbour Relation

/-- The last symbol of the text occurs nowhere else. -/
def EndsUnique (t : List Int) : Prop := ∃ σ, t.getLast? = some σ ∧ t.count σ = 1

theorem EndsUnique.size_pos {n : Int} {f : Int → Int} (h : EndsUnique ((slots n).map f)) :
    0 < n := by
  obtain ⟨σ, hσ, -⟩ := h
  by_contra hn
  rw [slots, show n.toNat = 0 by omega] at hσ
  simp at hσ

structure RepairInv (R : Repair) (ps : List Int) : Prop where
  text : TextInv R.u R.inter ps
  len : (ps.length : Int) = R.c
  index : IndexInv R.S (labels R.inter ps) (fun _ => False) 0
  size : R.S.L.size = R.u
  freq : ∀ j, R.S.Rec.InB j → 2 ≤ (R.S.Rec.cells j).freq
  symbols : ∀ p ∈ ps, R.inter.cells p < R.n

/-- The state as the rewriting system sees it. -/
def Repair.view (R : Repair) (ps : List Int) : Rewriting := ⟨ps.map R.inter.cells, R.rule⟩

/-- Positions with a pair are its occurrences in the text. -/
theorem exists_labels_iff {inter : Block Int} {ps : List Int} (hnd : ps.Nodup) {P : Tpair} :
    (∃ p, labels inter ps p = some P) ↔
      ∃ x y, ps.map inter.cells = x ++ P.left :: P.right :: y := by
  constructor
  · rintro ⟨p, hp⟩
    obtain ⟨q, hadj, rfl⟩ := (labels_eq_some_iff hnd).mp hp
    obtain ⟨l₁, l₂, rfl⟩ := adj_iff_exists.mp hadj
    exact ⟨l₁.map inter.cells, l₂.map inter.cells, by simp⟩
  · rintro ⟨x, y, h⟩
    obtain ⟨l₁, l, rfl, -, hl⟩ := List.map_eq_append_iff.mp h
    obtain ⟨p, l', rfl, hp, hl'⟩ := List.map_eq_cons_iff.mp hl
    obtain ⟨q, l₂, rfl, hq, -⟩ := List.map_eq_cons_iff.mp hl'
    refine ⟨p, (labels_eq_some_iff hnd).mpr ⟨q, adj_iff_exists.mpr ⟨l₁, l₂, rfl⟩, ?_⟩⟩
    rw [hp, hq]

/-- The positions with a pair, counted along the text. -/
theorem countP_labels {inter : Block Int} {ps : List Int} (hnd : ps.Nodup) (Q : Tpair) :
    ps.countP (fun p => decide (labels inter ps p = some Q)) = pairCount (ps.map inter.cells) Q := by
  induction ps with
  | nil => rfl
  | cons p ps ih =>
    cases ps with
    | nil => rfl
    | cons q ps =>
      have hp := (List.nodup_cons.mp hnd).1
      have hrest : (q :: ps).countP (fun x => decide (labels inter (p :: q :: ps) x = some Q)) =
          (q :: ps).countP fun x => decide (labels inter (q :: ps) x = some Q) := by
        refine List.countP_congr fun x hx => ?_
        rw [labels, labels, next?, if_neg fun he : x = p => hp (he ▸ hx)]
      have hfirst : labels inter (p :: q :: ps) p = some ⟨inter.cells p, inter.cells q⟩ := by
        rw [labels, next?, if_pos rfl]
        rfl
      have hpair : (⟨inter.cells p, inter.cells q⟩ : Tpair) = Q ↔
          (inter.cells p, inter.cells q) = (Q.left, Q.right) := by
        rw [Tpair.mk.injEq, Prod.mk.injEq]
      rw [List.countP_cons, hrest, ih (List.nodup_cons.mp hnd).2, hfirst, pairCount, pairCount,
        List.map_cons, List.map_cons, List.map_cons, PairScan.adjacent_cons_cons, List.count_cons]
      simp only [Option.some_inj, hpair, beq_iff_eq, decide_eq_true_eq]

/-- The frequency that the records keep is the number of occurrences. -/
theorem TextInv.cnt_labels {u : Int} {inter : Block Int} {ps : List Int} (h : TextInv u inter ps)
    (Q : Tpair) : cnt (labels inter ps) u Q = pairCount (ps.map inter.cells) Q := by
  have hmem : ∀ p, p ∈ ps.filter (fun p => decide (labels inter ps p = some Q)) ↔
      labels inter ps p = some Q := fun p => by
    rw [List.mem_filter, decide_eq_true_eq]
    refine ⟨And.right, fun hp => ⟨?_, hp⟩⟩
    obtain ⟨q, hadj, -⟩ := (labels_eq_some_iff h.nodup).mp hp
    exact hadj.left_mem
  rw [cnt_eq_length (h.nodup.filter _) hmem fun p hp =>
      h.mem_range (List.mem_filter.mp ((hmem p).mpr hp)).1,
    ← List.countP_eq_length_filter, countP_labels h.nodup]

/-- Two positions with the same symbol. -/
theorem two_le_count_map {f : Int → Int} {l : List Int} {p q b : Int} (hp : p ∈ l) (hq : q ∈ l)
    (hne : p ≠ q) (hfp : f p = b) (hfq : f q = b) : 2 ≤ (l.map f).count b := by
  have hsub : [p, q].Subperm (l.filter fun x => f x == b) := by
    refine List.Nodup.subperm (by simp [hne]) fun x hx => ?_
    simp only [List.mem_cons, List.not_mem_nil, or_false] at hx
    rcases hx with rfl | rfl <;> simp [*]
  rw [List.count, List.countP_map, List.countP_eq_length_filter]
  exact hsub.length_le

namespace RepairInv

variable {R : Repair} {ps : List Int} {id : Int}

/-- The pair of a record occurs twice. -/
theorem pair_twice (h : RepairInv R ps) (hid : R.S.Rec.InB id) :
    2 ≤ (ps.map R.inter.cells).count (R.S.Rec.cells id).pair.left ∧
      2 ≤ (ps.map R.inter.cells).count (R.S.Rec.cells id).pair.right := by
  obtain ⟨l, e, -, hnd, hm⟩ := h.index.lists.list id hid
  have hlen : 2 ≤ l.length := by
    have h₁ := h.freq id hid
    rw [h.index.freq id hid not_false, cnt_eq_length hnd hm fun p hp => h.index.range hp] at h₁
    omega
  obtain ⟨p, l', rfl⟩ := List.exists_cons_of_ne_nil (List.ne_nil_of_length_pos (by omega : 0 < l.length))
  obtain ⟨q, l'', rfl⟩ := List.exists_cons_of_ne_nil
    (List.ne_nil_of_length_pos (by simp only [List.length_cons] at hlen; omega : 0 < l'.length))
  have hne : p ≠ q := fun he => (List.nodup_cons.mp hnd).1 (he ▸ List.mem_cons_self)
  obtain ⟨p', hp, hP⟩ := (labels_eq_some_iff h.text.nodup).mp ((hm p).mp (by simp))
  obtain ⟨q', hq, hQ⟩ := (labels_eq_some_iff h.text.nodup).mp ((hm q).mp (by simp))
  have hne' : p' ≠ q' := fun he => hne (hp.left_unique h.text.nodup (he ▸ hq))
  exact ⟨two_le_count_map hp.left_mem hq.left_mem hne (congrArg Tpair.left hP)
      (congrArg Tpair.left hQ),
    two_le_count_map hp.right_mem hq.right_mem hne' (congrArg Tpair.right hP)
      (congrArg Tpair.right hQ)⟩

theorem pair_lt (h : RepairInv R ps) (hid : R.S.Rec.InB id) :
    (R.S.Rec.cells id).pair.left < R.n ∧ (R.S.Rec.cells id).pair.right < R.n := by
  have h₂ := h.pair_twice hid
  have hlt : ∀ x, 2 ≤ (ps.map R.inter.cells).count x → x < R.n := fun x hx => by
    obtain ⟨p, hp, rfl⟩ := List.mem_map.mp
      (List.count_pos_iff.mp (by omega : 0 < (ps.map R.inter.cells).count x))
    exact h.symbols p hp
  exact ⟨hlt _ h₂.1, hlt _ h₂.2⟩

theorem labels_lt (h : RepairInv R ps) {p : Int} {x : Tpair}
    (hp : labels R.inter ps p = some x) : x.left < R.n ∧ x.right < R.n := by
  obtain ⟨q, hadj, rfl⟩ := (labels_eq_some_iff h.text.nodup).mp hp
  exact ⟨h.symbols p hadj.left_mem, h.symbols q hadj.right_mem⟩

theorem turnStart (h : RepairInv R ps) (hid : R.S.Rec.InB id) :
    TurnStart (R.S.Rec.cells id).pair R.n (labels R.inter ps) (recPairs R.S.Rec) R.u id := by
  have hlt := h.pair_lt hid
  refine ⟨by omega, by omega, nodup_recPairs h.index.lists.inj, fun x hx => ?_, fun x hx => ?_, ?_⟩
  · obtain ⟨j, hj, rfl⟩ := mem_recPairs.mp hx
    have := h.pair_lt hj
    exact ⟨by omega, by omega⟩
  · obtain ⟨j, hj, rfl⟩ := mem_recPairs.mp hx
    have h₁ := h.freq j hj
    rw [h.index.freq j hj not_false, h.size] at h₁
    omega
  · rw [length_recPairs]
    have := hid.1
    have := hid.2
    omega

/-- After `extractMax` the inner loop can start. -/
theorem replaceInv (h : RepairInv R ps) (hid : R.S.Rec.InB id) {H : Theap}
    (hindex : IndexInv { R.S with Heap := H } (labels R.inter ps)
      (fun pr => pr = (R.S.Rec.cells id).pair) 0) (rule : List Tpair) :
    ReplaceInv (R.S.Rec.cells id).pair (labels R.inter ps) (recPairs R.S.Rec) id
      { R with S := { R.S with Heap := H }, rule := rule } ps := by
  have hturn : TurnInv (R.S.Rec.cells id).pair R.n (labels R.inter ps) (recPairs R.S.Rec) R.u
      { R.S with Heap := H } (labels R.inter ps) :=
    TurnInv.start (fun p x hp => by
      have := h.labels_lt hp
      exact ⟨by omega, by omega⟩) fun x hx => mem_recPairs.mp hx
  have hmem : (0 : Int) ∈ ps := List.mem_of_head? h.text.first
  have h₁ := h.symbols _ hmem
  have h₂ := h.text.live _ hmem
  exact ⟨h.text, h.len, ⟨hindex, hid, rfl, h.size, hturn⟩, by dsimp only; omega⟩

end RepairInv

end Laconic.RePair
