import Laconic.Lib.Neighbour
import Laconic.RePair.Compress

/-!
# Re-Pair: the text with holes

`ps` are the live positions of `inter` in order.  `TextInv` ties the hole pointers to them, so that
`nextPos` and `antPos` walk along `ps`; `labels` is the pair at each live position.  Replacing the
pair at `p` and `q` takes `q` out of `ps`.
-/

namespace Laconic.RePair

open Neighbour

/-- The cells between the neighbouring live positions `p` and `q`: no hole, one hole that points
forward, or a run of holes whose first cell points forward and whose last cell points back. -/
def HoleOk (inter : Block Int) (p q : Int) : Prop :=
  q = p + 1 ∨ (q = p + 2 ∧ inter.cells (p + 1) = -q - 1) ∨
    (p + 2 < q ∧ inter.cells (p + 1) = -q - 1 ∧ inter.cells (q - 1) = -p - 1)

structure TextInv (u : Int) (inter : Block Int) (ps : List Int) : Prop where
  size : inter.size = u
  first : ps.head? = some 0
  /-- The holes behind the last live position point behind the text. -/
  tail : ∀ p, ps.getLast? = some p → p + 1 = u ∨ (p + 1 < u ∧ inter.cells (p + 1) = -u - 1)
  sorted : ps.Pairwise (· < ·)
  live : ∀ p ∈ ps, 0 ≤ inter.cells p
  holes : ∀ p q, Adj ps p q → HoleOk inter p q

/-- The pair at a live position that has a successor. -/
def labels (inter : Block Int) (ps : List Int) (x : Int) : Option Tpair :=
  (next? ps x).map fun q => ⟨inter.cells x, inter.cells q⟩

theorem labels_eq_some_iff {inter : Block Int} {ps : List Int} (hnd : ps.Nodup) {x : Int}
    {pr : Tpair} : labels inter ps x = some pr ↔
      ∃ q, Adj ps x q ∧ (⟨inter.cells x, inter.cells q⟩ : Tpair) = pr := by
  simp only [labels, Option.map_eq_some_iff, next?_eq_some_iff hnd]

theorem labels_eq_none {inter : Block Int} {ps : List Int} (hnd : ps.Nodup) {x : Int}
    (hx : ∀ q, ¬ Adj ps x q) : labels inter ps x = none := by
  rw [Option.eq_none_iff_forall_ne_some]
  intro pr hpr
  obtain ⟨q, hq, -⟩ := (labels_eq_some_iff hnd).mp hpr
  exact hx q hq

namespace TextInv

variable {u : Int} {inter inter' : Block Int} {ps l₁ l : List Int} {p q x e : Int}

theorem nodup (h : TextInv u inter ps) : ps.Nodup := h.sorted.imp fun hlt => Int.ne_of_lt hlt

theorem ne_nil (h : TextInv u inter ps) : ps ≠ [] := fun he => by
  have := h.first
  simp [he] at this

theorem le_last (h : TextInv u inter ps) (hq : ps.getLast? = some q) (hp : p ∈ ps) : p ≤ q := by
  obtain ⟨l, rfl⟩ := List.getLast?_eq_some_iff.mp hq
  rcases List.mem_append.mp hp with hp | hp
  · exact Int.le_of_lt ((List.pairwise_append.mp h.sorted).2.2 p hp q (by simp))
  · exact Int.le_of_eq (List.mem_singleton.mp hp)

theorem mem_range (h : TextInv u inter ps) (hp : p ∈ ps) : 0 ≤ p ∧ p < u := by
  constructor
  · obtain ⟨l, rfl⟩ := List.head?_eq_some_iff.mp h.first
    rcases List.mem_cons.mp hp with rfl | hp
    · omega
    · exact Int.le_of_lt ((List.pairwise_cons.mp h.sorted).1 p hp)
  · have hlast := List.getLast?_eq_some_getLast h.ne_nil
    have := h.le_last hlast hp
    have := h.tail _ hlast
    omega

theorem inB (h : TextInv u inter ps) (hp : p ∈ ps) : inter.InB p := by
  have := h.mem_range hp
  exact ⟨this.1, by rw [h.size]; exact this.2⟩

theorem adj_range (h : TextInv u inter ps) (hpq : Adj ps p q) : 0 ≤ p ∧ p < q ∧ q < u :=
  ⟨(h.mem_range hpq.left_mem).1, hpq.rel h.sorted, (h.mem_range hpq.right_mem).2⟩

/-! ## The walks -/

theorem nextPos_eq (h : TextInv u inter ps) (hpq : Adj ps p q) : nextPos inter p = .ok q := by
  have hr := h.adj_range hpq
  have hb : inter.InB (p + 1) := ⟨by omega, by rw [h.size]; omega⟩
  rw [nextPos, Block.read_eq hb, Run.ok_bind]
  have hq := h.live q hpq.right_mem
  rcases h.holes p q hpq with rfl | ⟨-, hc⟩ | ⟨-, hc, -⟩
  · rw [if_neg (by omega)]
    rfl
  · rw [if_pos (by omega), holePtr, hc, show - (-q - 1) - 1 = q by omega]
    rfl
  · rw [if_pos (by omega), holePtr, hc, show - (-q - 1) - 1 = q by omega]
    rfl

theorem antPos_eq (h : TextInv u inter ps) (hpq : Adj ps p q) : antPos inter q = .ok p := by
  have hr := h.adj_range hpq
  have hb : inter.InB (q - 1) := ⟨by omega, by rw [h.size]; omega⟩
  rw [antPos, Block.read_eq hb, Run.ok_bind]
  have hp := h.live p hpq.left_mem
  rcases h.holes p q hpq with rfl | ⟨rfl, hc⟩ | ⟨hlt, -, hc⟩
  · rw [show p + 1 - 1 = p by omega, if_neg (by omega)]
    rfl
  · -- a single hole points forward to `q` itself
    rw [show p + 2 - 1 = p + 1 by omega, hc, if_pos (by omega), holePtr,
      if_pos (by omega), show p + 2 - 2 = p by omega]
    rfl
  · rw [hc, if_pos (by omega), holePtr, if_neg (by omega), show - (-p - 1) - 1 = p by omega]
    rfl

/-- One step from a live position, which may be the last one. -/
theorem step_eq (h : TextInv u inter ps) (hps : ps = l₁ ++ p :: l) :
    (if p + 1 < u then nextPos inter p else pure (p + 1)) = .ok (l.headD u) := by
  subst hps
  cases l with
  | nil =>
    rw [List.headD_nil]
    rcases h.tail p (List.getLast?_concat ..) with hp | ⟨hp, hc⟩
    · rw [if_neg (by omega), hp]
      rfl
    · have hp0 := (h.mem_range (p := p) (by simp)).1
      have hb : inter.InB (p + 1) := ⟨by omega, by rw [h.size]; exact hp⟩
      rw [if_pos hp, nextPos, Block.read_eq hb, Run.ok_bind, hc, if_pos (by omega), holePtr,
        show - (-u - 1) - 1 = u by omega]
      rfl
  | cons q l =>
    have hadj : Adj (l₁ ++ p :: q :: l) p q := adj_iff_exists.mpr ⟨l₁, l, rfl⟩
    have hr := h.adj_range hadj
    rw [if_pos (by omega), h.nextPos_eq hadj, List.headD_cons]

/-! ## Replacing a pair -/

/-- The cells of `inter` after the pair at `p` has become the symbol `e`; `r` is the live position
after the pair, or `u`. -/
def Replaced (u : Int) (inter inter' : Block Int) (p r e : Int) : Prop :=
  inter'.size = inter.size ∧ ∀ x, inter'.cells x =
    if x = p + 1 then -r - 1 else if x = r - 1 ∧ r ≠ u then -p - 1 else if x = p then e
    else inter.cells x

/-- The live positions and their distances around the pair. -/
theorem around (h : TextInv u inter (l₁ ++ p :: q :: l)) :
    0 ≤ p ∧ p < q ∧ q < l.headD u ∧ l.headD u ≤ u := by
  have h₁ := h.adj_range (adj_iff_exists.mpr ⟨l₁, l, rfl⟩)
  cases l with
  | nil =>
    rw [List.headD_nil]
    omega
  | cons r l =>
    have h₂ := h.adj_range (p := q) (q := r) (adj_iff_exists.mpr ⟨l₁ ++ [p], l, by simp⟩)
    rw [List.headD_cons]
    omega

theorem outside (h : TextInv u inter (l₁ ++ p :: q :: l)) (hx : x ∈ l₁ ++ p :: l) :
    x ≤ p ∨ l.headD u ≤ x := by
  have hs := List.pairwise_append.mp h.sorted
  rcases List.mem_append.mp hx with hx | hx
  · exact Or.inl (Int.le_of_lt (hs.2.2 x hx p (by simp)))
  · rcases List.mem_cons.mp hx with rfl | hx
    · exact Or.inl (Int.le_refl x)
    · cases l with
      | nil => cases hx
      | cons r l =>
        have hr := List.pairwise_cons.mp (List.pairwise_cons.mp (List.pairwise_cons.mp hs.2.1).2).2
        rw [List.headD_cons]
        rcases List.mem_cons.mp hx with rfl | hx
        · exact Or.inr (Int.le_refl x)
        · exact Or.inr (Int.le_of_lt (hr.1 x hx))

theorem sublist_skip : (l₁ ++ p :: l).Sublist (l₁ ++ p :: q :: l) :=
  (((List.Sublist.refl _).cons q).cons_cons p).append_left l₁

/-- A live position other than `p` keeps its symbol. -/
theorem cells_eq (h : TextInv u inter (l₁ ++ p :: q :: l))
    (hr : Replaced u inter inter' p (l.headD u) e) (hx : x ∈ l₁ ++ p :: l) :
    inter'.cells x = if x = p then e else inter.cells x := by
  have h₁ := h.outside hx
  have h₂ := h.around
  have h₃ := (h.mem_range (sublist_skip.mem hx)).2
  rw [hr.2, if_neg (by omega), if_neg (by omega)]

theorem replace (h : TextInv u inter (l₁ ++ p :: q :: l)) (he : 0 ≤ e)
    (hr : Replaced u inter inter' p (l.headD u) e) : TextInv u inter' (l₁ ++ p :: l) := by
  have ha := h.around
  refine ⟨by rw [hr.1, h.size], ?_, fun x hx => ?_, h.sorted.sublist sublist_skip,
    fun x hx => ?_, fun x y hxy => ?_⟩
  · rw [← h.first]
    cases l₁ <;> rfl
  · cases hl : l with
    | nil =>
      -- the new last position is `p`
      rw [hl, List.getLast?_concat, Option.some_inj] at hx
      rw [hl, List.headD_nil] at ha
      refine Or.inr ⟨by omega, ?_⟩
      rw [← hx, hr.2, if_pos rfl, hl, List.headD_nil]
    | cons r l₂ =>
      have hlast : (l₁ ++ p :: q :: l).getLast? = some x := by
        rw [← hx, hl]
        simp [List.getLast?_append]
      have hle := h.le_last hlast (p := r) (by simp [hl])
      rw [hl, List.headD_cons] at ha
      refine (h.tail x hlast).imp_right fun ⟨hlt, hc⟩ => ⟨hlt, ?_⟩
      rw [hr.2, hl, List.headD_cons, if_neg (by omega), if_neg (by omega), if_neg (by omega), hc]
  · rw [h.cells_eq hr hx]
    split
    · exact he
    · exact h.live x (sublist_skip.mem hx)
  · rcases (adj_skip h.nodup).mp hxy with ⟨rfl, hy⟩ | ⟨hold, hxp, hxq⟩
    · -- the new run of holes
      have hyu := (h.mem_range (sublist_skip.mem hxy.right_mem)).2
      have hhead : l.headD u = y := by rw [List.headD_eq_head?_getD, hy, Option.getD_some]
      rw [hhead] at ha hr
      by_cases hone : y = x + 2
      · exact Or.inr (Or.inl ⟨hone, by rw [hr.2, if_pos rfl]⟩)
      · refine Or.inr (Or.inr ⟨by omega, by rw [hr.2, if_pos rfl], ?_⟩)
        rw [hr.2, if_neg (by omega), if_pos ⟨rfl, by omega⟩]
    · -- all other runs of holes lie outside
      have hx := h.outside hxy.left_mem
      have hy := h.outside hxy.right_mem
      have hlt := h.adj_range hold
      have hp := hold.not_between h.sorted (p := p) (by simp)
      have hcell : ∀ z, x < z → z < y → inter'.cells z = inter.cells z := fun z hz hz' => by
        rw [hr.2, if_neg (by omega), if_neg (by omega), if_neg (by omega)]
      rcases h.holes x y hold with hn | ⟨hn, hc⟩ | ⟨hn, hc, hc'⟩
      · exact Or.inl hn
      · exact Or.inr (Or.inl ⟨hn, by rw [hcell _ (by omega) (by omega), hc]⟩)
      · exact Or.inr (Or.inr ⟨hn, by rw [hcell _ (by omega) (by omega), hc],
          by rw [hcell _ (by omega) (by omega), hc']⟩)

/-! ## The pairs after a replacement -/

section Labels

variable (h : TextInv u inter (l₁ ++ p :: q :: l)) (he : 0 ≤ e)
  (hr : Replaced u inter inter' p (l.headD u) e)

include h he hr

theorem labels_at : labels inter' (l₁ ++ p :: l) p = l.head?.map fun r => ⟨e, inter.cells r⟩ := by
  have ha := h.around
  have hnd := (h.replace he hr).nodup
  cases l with
  | nil =>
    refine labels_eq_none hnd fun y hy => ?_
    have := (h.replace he hr).le_last (List.getLast?_concat ..) hy.right_mem
    have := ((h.replace he hr).adj_range hy).2.1
    omega
  | cons r l =>
    rw [List.headD_cons] at ha
    refine (labels_eq_some_iff hnd).mpr ⟨r, adj_iff_exists.mpr ⟨l₁, l, rfl⟩, ?_⟩
    rw [h.cells_eq hr (by simp), if_pos rfl, h.cells_eq hr (by simp), if_neg (by omega)]

theorem labels_removed : labels inter' (l₁ ++ p :: l) q = none := by
  have ha := h.around
  refine labels_eq_none (h.replace he hr).nodup fun y hy => ?_
  have := h.outside hy.left_mem
  omega

theorem labels_before {a : Int} (hap : Adj (l₁ ++ p :: q :: l) a p) :
    labels inter' (l₁ ++ p :: l) a = some ⟨inter.cells a, e⟩ := by
  have ha := h.around
  have hlt := (h.adj_range hap).2.1
  have hadj := (adj_skip h.nodup).mpr (Or.inr ⟨hap, by omega, by omega⟩)
  refine (labels_eq_some_iff (h.replace he hr).nodup).mpr ⟨p, hadj, ?_⟩
  rw [h.cells_eq hr hadj.left_mem, if_neg (by omega), h.cells_eq hr hadj.right_mem, if_pos rfl]

theorem labels_other (hxp : x ≠ p) (hxq : x ≠ q) (hx : ¬ Adj (l₁ ++ p :: q :: l) x p) :
    labels inter' (l₁ ++ p :: l) x = labels inter (l₁ ++ p :: q :: l) x := by
  refine Option.ext fun pr => ?_
  rw [labels_eq_some_iff (h.replace he hr).nodup, labels_eq_some_iff h.nodup]
  constructor
  · rintro ⟨y, hy, rfl⟩
    rcases (adj_skip h.nodup).mp hy with ⟨hxe, -⟩ | ⟨hold, -⟩
    · exact absurd hxe hxp
    · refine ⟨y, hold, ?_⟩
      rw [h.cells_eq hr hy.left_mem, if_neg hxp, h.cells_eq hr hy.right_mem,
        if_neg fun hyp : y = p => hx (hyp ▸ hold)]
  · rintro ⟨y, hold, rfl⟩
    have hy := (adj_skip h.nodup).mpr (Or.inr ⟨hold, hxp, hxq⟩)
    refine ⟨y, hy, ?_⟩
    rw [h.cells_eq hr hy.left_mem, if_neg hxp, h.cells_eq hr hy.right_mem,
      if_neg fun hyp : y = p => hx (hyp ▸ hold)]

/-- The text itself: one occurrence of the pair has become `e`. -/
theorem map_cells : (l₁ ++ p :: l).map inter'.cells =
    l₁.map inter.cells ++ e :: l.map inter.cells := by
  have hnd := (h.replace he hr).nodup
  have hcells := fun x => h.cells_eq hr (x := x)
  have hne : ∀ x ∈ l₁ ++ l, x ≠ p := fun x hx hxp => by
    rw [List.nodup_append] at hnd
    rw [hxp, List.mem_append] at hx
    exact hx.elim (fun hx => hnd.2.2 p hx p (by simp) rfl) (List.nodup_cons.mp hnd.2.1).1
  rw [List.map_append, List.map_cons, hcells p (by simp), if_pos rfl]
  congr 1
  · refine List.map_congr_left fun x hx => ?_
    rw [hcells x (by simp [hx]), if_neg (hne x (by simp [hx]))]
  · congr 1
    refine List.map_congr_left fun x hx => ?_
    rw [hcells x (List.mem_append_right _ (List.mem_cons_of_mem _ hx)),
      if_neg (hne x (List.mem_append_right _ hx))]

end Labels

end TextInv

end Laconic.RePair
