import Mathlib.Algebra.Order.BigOperators.Group.List
import Mathlib.Algebra.Order.Ring.Nat
import Laconic.RePair.HashInv
import Laconic.RePair.HeapInv
import Laconic.RePair.ListInv

/-!
# Re-Pair: the pair index

`IndexInv S lab out lo` joins the invariants of hash table, heap and occurrence lists: every record
is in the hash table, every record whose pair is not `out` is in the heap, and its frequency is the
number of positions with its pair.  While a pair is replaced it is `out`; while the bucket of
frequency 1 is purged, `lo` entries of it are done.
-/

namespace Laconic.RePair

open Chain

/-- The number of positions below `n` with the pair `pr`. -/
def cnt (lab : Int → Option Tpair) (n : Int) (pr : Tpair) : Nat :=
  (slots n).countP fun p => decide (lab p = some pr)

section Count

variable {lab : Int → Option Tpair} {n i : Int} {pr : Tpair}

/-- A list of all positions with a pair has as many entries as there are such positions. -/
theorem cnt_eq_length {l : List Int} (hnd : l.Nodup) (hm : ∀ p, p ∈ l ↔ lab p = some pr)
    (hrange : ∀ p, lab p = some pr → 0 ≤ p ∧ p < n) : cnt lab n pr = l.length := by
  rw [cnt, List.countP_eq_length_filter]
  refine List.Perm.length_eq ((List.perm_ext_iff_of_nodup ((nodup_slots n).filter _) hnd).mpr
    fun p => ?_)
  rw [List.mem_filter, mem_slots, decide_eq_true_eq, hm p]
  exact ⟨fun h => h.2, fun h => ⟨hrange p h, h⟩⟩

/-- Changing the pair at one position moves one unit of the count. -/
theorem cnt_update (lab : Int → Option Tpair) (pr : Tpair) (hi0 : 0 ≤ i) (hin : i < n)
    (x : Option Tpair) :
    cnt (Function.update lab i x) n pr + (if lab i = some pr then 1 else 0) =
      cnt lab n pr + if x = some pr then 1 else 0 := by
  have hp : (slots n).Perm (i :: (slots n).erase i) :=
    List.perm_cons_erase (mem_slots.mpr ⟨hi0, hin⟩)
  have hni : ∀ p ∈ (slots n).erase i, p ≠ i := fun p hp he =>
    (List.Nodup.not_mem_erase (nodup_slots n)) (he ▸ hp)
  have hrest : ((slots n).erase i).countP (fun p => decide (Function.update lab i x p = some pr)) =
      ((slots n).erase i).countP fun p => decide (lab p = some pr) :=
    List.countP_congr fun p hp => by rw [Function.update_of_ne (hni p hp)]
  rw [cnt, cnt, hp.countP_eq, hp.countP_eq, List.countP_cons, List.countP_cons, hrest]
  simp only [Function.update_self, decide_eq_true_eq]
  omega

theorem cnt_pos_iff (hrange : ∀ p, lab p = some pr → 0 ≤ p ∧ p < n) :
    0 < cnt lab n pr ↔ ∃ p, lab p = some pr := by
  rw [cnt, List.countP_pos_iff]
  simp only [decide_eq_true_eq, mem_slots]
  exact ⟨fun ⟨p, _, h⟩ => ⟨p, h⟩, fun ⟨p, h⟩ => ⟨p, hrange p h, h⟩⟩

/-- Two positions with the same pair count for two. -/
theorem two_le_cnt {p q : Int} (hrange : ∀ p, lab p = some pr → 0 ≤ p ∧ p < n)
    (hp : lab p = some pr) (hq : lab q = some pr) (hne : p ≠ q) : 2 ≤ cnt lab n pr := by
  have h₁ := cnt_update lab pr (hrange p hp).1 (hrange p hp).2 none
  have h₂ : 0 < cnt (Function.update lab p none) n pr := by
    refine (cnt_pos_iff fun r hr => ?_).mpr ⟨q, by rw [Function.update_of_ne hne.symm]; exact hq⟩
    by_cases hrp : r = p
    · exact hrp ▸ hrange p hp
    · rw [Function.update_of_ne hrp] at hr
      exact hrange r hr
  rw [if_pos hp, if_neg (by simp)] at h₁
  omega

/-- Different pairs share no position, and the last position carries none. -/
theorem sum_cnt_lt {prs : List Tpair} (hnd : prs.Nodup) (hn : 0 < n) (hlast : lab (n - 1) = none) :
    (prs.map (cnt lab n)).sum < n.toNat := by
  have hmem : ∀ p, p ∈ prs.flatMap (fun pr => (slots n).filter fun p => decide (lab p = some pr)) →
      p ∈ slots n ∧ lab p ≠ none := by
    intro p hp
    obtain ⟨pr, -, hp⟩ := List.mem_flatMap.mp hp
    rw [List.mem_filter, decide_eq_true_eq] at hp
    exact ⟨hp.1, by simp [hp.2]⟩
  have hflat : (prs.flatMap fun pr =>
      (slots n).filter fun p => decide (lab p = some pr)).Nodup := by
    rw [List.nodup_flatMap]
    refine ⟨fun pr _ => (nodup_slots n).filter _, hnd.imp fun hne p hp hp' => ?_⟩
    rw [List.mem_filter, decide_eq_true_eq] at hp hp'
    exact hne (Option.some_inj.mp (hp.2.symm.trans hp'.2))
  have hcons : ((n - 1) :: prs.flatMap fun pr =>
      (slots n).filter fun p => decide (lab p = some pr)).Nodup :=
    List.nodup_cons.mpr ⟨fun hp => (hmem _ hp).2 hlast, hflat⟩
  have hle := (hcons.subperm fun p hp => (List.mem_cons.mp hp).elim
    (fun he => mem_slots.mpr (by omega)) fun hp => (hmem p hp).1).length_le
  rw [List.length_cons, List.length_flatMap, length_slots] at hle
  simp only [← List.countP_eq_length_filter] at hle
  exact hle

end Count

structure IndexInv (S : PairStore) (lab : Int → Option Tpair) (out : Tpair → Prop) (lo : Int) :
    Prop where
  hash : HashInv S.Hash S.Rec S.Rec.InB
  heap : HeapInv S.Heap S.Rec (fun id => S.Rec.InB id ∧ ¬ out (S.Rec.cells id).pair) lo
  lists : ListInv S.Rec S.L lab
  freq : ∀ id, S.Rec.InB id → ¬ out (S.Rec.cells id).pair →
    (S.Rec.cells id).freq = cnt lab S.L.size (S.Rec.cells id).pair
  recSize : 0 ≤ S.Rec.size
  room : S.L.size ≤ S.Heap.sqrtu * S.Heap.sqrtu

namespace IndexInv

variable {S : PairStore} {lab : Int → Option Tpair} {out out' : Tpair → Prop} {lo id i : Int}
  {pr : Tpair}

/-- Only the pairs of records matter for `out`. -/
theorem out_congr (h : IndexInv S lab out lo) (out' : Tpair → Prop)
    (ho : ∀ j, S.Rec.InB j → (out' (S.Rec.cells j).pair ↔ out (S.Rec.cells j).pair)) :
    IndexInv S lab out' lo where
  hash := h.hash
  heap := h.heap.live_congr fun j => and_congr_right fun hj => not_congr (ho j hj)
  lists := h.lists
  freq j hj hno := h.freq j hj fun hn => hno ((ho j hj).mpr hn)
  recSize := h.recSize
  room := h.room

theorem range (h : IndexInv S lab out lo) {p : Int} (hp : lab p = some pr) :
    0 ≤ p ∧ p < S.L.size := by
  have := h.lists.range p pr hp
  exact ⟨this.1, by omega⟩

/-- There are fewer frequent pairs than nodes for them: each takes `sqrtu` positions of the text,
and the text is shorter than `sqrtu * sqrtu`. -/
theorem capacity (h : IndexInv S lab out lo) {ids : List Int} (hnd : ids.Nodup)
    (hids : ∀ j ∈ ids, (S.Rec.InB j ∧ ¬ out (S.Rec.cells j).pair) ∧
      S.Heap.sqrtu ≤ (S.Rec.cells j).freq) :
    (ids.length : Int) < S.Heap.sqrtu := by
  have h2 := h.heap.two_le
  have hroom := h.room
  rcases List.eq_nil_or_concat ids with rfl | ⟨_, j, hj⟩
  · rw [List.length_nil]
    omega
  have hj : j ∈ ids := by simp [hj]
  -- there is a text, since a frequent pair has a position in it
  have hpos : 0 < S.L.size := by
    have hge := (hids j hj).2
    rw [h.freq j (hids j hj).1.1 (hids j hj).1.2] at hge
    obtain ⟨p, hp⟩ := (cnt_pos_iff fun p hp => h.range hp).mp
      (show 0 < cnt lab S.L.size (S.Rec.cells j).pair by omega)
    have := h.range hp
    omega
  have hlast : lab (S.L.size - 1) = none := by
    rw [Option.eq_none_iff_forall_ne_some]
    intro pr hp
    have := h.lists.range _ pr hp
    omega
  have hpairs : (ids.map fun j => (S.Rec.cells j).pair).Nodup :=
    hnd.map_on fun a ha b hb => h.lists.inj a b (hids a ha).1.1 (hids b hb).1.1
  have hlt := sum_cnt_lt hpairs hpos hlast
  have hge : (ids.map fun j => (S.Rec.cells j).pair).length • S.Heap.sqrtu.toNat ≤
      ((ids.map fun j => (S.Rec.cells j).pair).map (cnt lab S.L.size)).sum := by
    rw [← List.length_map (cnt lab S.L.size)]
    apply List.card_nsmul_le_sum
    simp only [List.mem_map, forall_exists_index, and_imp, forall_apply_eq_imp_iff₂]
    intro j hj
    have hf := (hids j hj).2
    rw [h.freq j (hids j hj).1.1 (hids j hj).1.2] at hf
    omega
  rw [List.length_map, nsmul_eq_mul, Nat.cast_id] at hge
  by_contra hcon
  have hmul : S.Heap.sqrtu * S.Heap.sqrtu ≤ ids.length * S.Heap.sqrtu :=
    Int.mul_le_mul_of_nonneg_right (by omega) (by omega)
  have hcast : (ids.length : Int) * S.Heap.sqrtu = (ids.length * S.Heap.sqrtu.toNat : Nat) := by
    push_cast
    rw [Int.toNat_of_nonneg (by omega)]
  omega

end IndexInv

end Laconic.RePair
