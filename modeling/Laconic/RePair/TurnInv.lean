import Laconic.RePair.OccOps

/-!
# Re-Pair: no record moves into the slot of the pair being replaced

`repair` keeps the record number `oid` of the pair `P = bc` through a whole turn, while the removal
of other records moves the last record into the freed slot.  `oid` would go stale if it were the
last record when another one is removed.  This never happens: when a pair `cd` or `ab` loses its
last position, the new pairs `ed` and `ae` have records already, so there are more records than at
the start of the turn and the last one is not `oid`.
-/

namespace Laconic.RePair

/-- The pairs of all records. -/
def recPairs (recs : Block Trecord) : List Tpair :=
  (slots recs.size).map fun id => (recs.cells id).pair

theorem mem_recPairs {recs : Block Trecord} {pr : Tpair} : pr ∈ recPairs recs ↔ HasRec recs pr := by
  simp only [recPairs, List.mem_map, mem_slots, HasRec, Block.InB]

theorem length_recPairs {recs : Block Trecord} : (recPairs recs).length = recs.size.toNat := by
  rw [recPairs, List.length_map, length_slots]

theorem nodup_recPairs {recs : Block Trecord} (hinj : ∀ a b, recs.InB a → recs.InB b →
    (recs.cells a).pair = (recs.cells b).pair → a = b) : (recPairs recs).Nodup :=
  (nodup_slots _).map_on fun a ha b hb he => hinj a b (mem_slots.mp ha) (mem_slots.mp hb) he

section Count

variable {lab lab' : Int → Option Tpair} {N : Int} {pr : Tpair}

theorem cnt_mono (h : ∀ p, lab p = some pr → lab' p = some pr) : cnt lab N pr ≤ cnt lab' N pr :=
  List.countP_mono_left fun p _ hp => by
    rw [decide_eq_true_eq] at hp ⊢
    exact h p hp

theorem cnt_le_one {i : Int} (h : ∀ p, lab p = some pr → p = i) : cnt lab N pr ≤ 1 := by
  rw [cnt, List.countP_eq_length_filter]
  have hsub : ((slots N).filter fun p => decide (lab p = some pr)).Subperm [i] :=
    ((nodup_slots N).filter _).subperm fun p hp =>
      List.mem_singleton.mpr (h p (decide_eq_true_eq.mp (List.mem_filter.mp hp).2))
  exact hsub.length_le

theorem cnt_eq_zero (h : ∀ p, lab p ≠ some pr) : cnt lab N pr = 0 :=
  List.countP_eq_zero.mpr fun p _ => by simpa using h p

theorem exists_of_cnt_pos (h : 0 < cnt lab N pr) : ∃ p, lab p = some pr := by
  obtain ⟨p, -, hp⟩ := List.countP_pos_iff.mp h
  exact ⟨p, decide_eq_true_eq.mp hp⟩

end Count

/-- The start of a turn that replaces `P` by `e`: the pairs `D₀` with a record, in record order. -/
structure TurnStart (P : Tpair) (e : Int) (lab₀ : Int → Option Tpair) (D₀ : List Tpair) (N oid : Int) :
    Prop where
  left_ne : P.left ≠ e
  right_ne : P.right ≠ e
  nodup : D₀.Nodup
  old : ∀ x ∈ D₀, x.left ≠ e ∧ x.right ≠ e
  twice : ∀ x ∈ D₀, 2 ≤ cnt lab₀ N x
  oid_lt : oid < D₀.length

/-- What a turn keeps about the pairs: a position loses its pair only to a pair with `e`. -/
structure TurnInv (P : Tpair) (e : Int) (lab₀ : Int → Option Tpair) (D₀ : List Tpair) (N : Int)
    (S : PairStore) (lab : Int → Option Tpair) : Prop where
  tracked : ∀ q pr, lab q = some pr → pr.left = e ∨ pr.right = e → HasRec S.Rec pr
  gone : ∀ x ∈ D₀, ¬ HasRec S.Rec x → ∀ q, lab q ≠ some x
  other : ∀ p x, lab₀ p = some x → x ≠ P → x.left ≠ P.right → x.right ≠ P.left → lab p = some x
  leftMoved : ∀ p d, d ≠ P.left → lab₀ p = some ⟨P.right, d⟩ →
    lab p = some ⟨P.right, d⟩ ∨ ∃ q, lab q = some ⟨e, d⟩
  rightMoved : ∀ p a, a ≠ P.right → lab₀ p = some ⟨a, P.left⟩ →
    lab p = some ⟨a, P.left⟩ ∨ ∃ q, lab q = some ⟨a, e⟩
  /-- A pair `cb` can lose its position to `eb`, `ce` or, in two steps, `ee`. -/
  bothMoved : P.left ≠ P.right → cnt lab₀ N ⟨P.right, P.left⟩ ≤ cnt lab N ⟨P.right, P.left⟩ +
    cnt lab N ⟨e, P.left⟩ + cnt lab N ⟨P.right, e⟩ + cnt lab N ⟨e, e⟩

/-- The pair `y` stands in for `x` when the records are counted. -/
def StandsFor (P : Tpair) (e : Int) (x y : Tpair) : Prop :=
  y = x ∨ (x.left = P.right ∧ x.right ≠ P.left ∧ y = ⟨e, x.right⟩) ∨
    (x.right = P.left ∧ x.left ≠ P.right ∧ y = ⟨x.left, e⟩) ∨
    (x = ⟨P.right, P.left⟩ ∧ (y = ⟨e, P.left⟩ ∨ y = ⟨P.right, e⟩ ∨ y = ⟨e, e⟩))

/-- The pairs that a replacement of `P` by `e` exchanges: `cd` for `ed` and `ab` for `ae`. -/
def Exchanged (P : Tpair) (e : Int) (pr pr' : Tpair) : Prop :=
  (pr.left = P.right ∧ pr' = ⟨e, pr.right⟩) ∨ (pr.right = P.left ∧ pr' = ⟨pr.left, e⟩)

/-- An exchange takes nothing from the pairs a `cb` can turn into. -/
theorem Exchanged.sum_le {P pr pr' : Tpair} {e : Int} (hex : Exchanged P e pr pr')
    (hl : P.left ≠ e) (hr : P.right ≠ e) {n n' : Tpair → Nat}
    (hn : ∀ x, n' x + (if pr = x then 1 else 0) = n x + if pr' = x then 1 else 0) :
    n ⟨P.right, P.left⟩ + n ⟨e, P.left⟩ + n ⟨P.right, e⟩ + n ⟨e, e⟩ ≤
      n' ⟨P.right, P.left⟩ + n' ⟨e, P.left⟩ + n' ⟨P.right, e⟩ + n' ⟨e, e⟩ := by
  have k₁ := hn ⟨P.right, P.left⟩
  have k₂ := hn ⟨e, P.left⟩
  have k₃ := hn ⟨P.right, e⟩
  have k₄ := hn ⟨e, e⟩
  obtain ⟨b, c⟩ := P
  obtain ⟨x, y⟩ := pr
  dsimp only at hl hr k₁ k₂ k₃ k₄ ⊢
  rcases hex with ⟨hc, rfl⟩ | ⟨hb, rfl⟩
  · -- `cy` becomes `ey`: only for `y = b` and `y = e` is it one of the four
    dsimp only at hc k₁ k₂ k₃ k₄
    subst hc
    simp only [Tpair.mk.injEq, true_and, hr, hr.symm, false_and, ↓reduceIte] at k₁ k₂ k₃ k₄
    by_cases hyb : y = b
    · simp only [hyb, hl, ↓reduceIte] at k₁ k₂ k₃ k₄
      omega
    · by_cases hye : y = e
      · simp only [hye, hl.symm, ↓reduceIte] at k₁ k₂ k₃ k₄
        omega
      · simp only [hyb, hye, ↓reduceIte] at k₁ k₂ k₃ k₄
        omega
  · dsimp only at hb k₁ k₂ k₃ k₄
    subst hb
    simp only [Tpair.mk.injEq, and_true, hl, hl.symm, and_false, ↓reduceIte] at k₁ k₂ k₃ k₄
    by_cases hxc : x = c
    · simp only [hxc, hr, ↓reduceIte] at k₁ k₂ k₃ k₄
      omega
    · by_cases hxe : x = e
      · simp only [hxe, hr.symm, ↓reduceIte] at k₁ k₂ k₃ k₄
        omega
      · simp only [hxc, hxe, ↓reduceIte] at k₁ k₂ k₃ k₄
        omega

theorem StandsFor.unique {P : Tpair} {e : Int} {x x' y : Tpair} (hl : P.left ≠ e)
    (hr : P.right ≠ e) (hx : x.left ≠ e ∧ x.right ≠ e) (hx' : x'.left ≠ e ∧ x'.right ≠ e)
    (h : StandsFor P e x y) (h' : StandsFor P e x' y) : x = x' := by
  obtain ⟨xl, xr⟩ := x
  obtain ⟨xl', xr'⟩ := x'
  obtain ⟨b, c⟩ := P
  simp only [StandsFor, Tpair.mk.injEq] at *
  rcases h with rfl | ⟨rfl, h, rfl⟩ | ⟨rfl, h, rfl⟩ | ⟨⟨rfl, rfl⟩, rfl | rfl | rfl⟩ <;>
    simp only [Tpair.mk.injEq] at h' <;> grind

namespace TurnInv

variable {P : Tpair} {e : Int} {lab₀ lab : Int → Option Tpair} {D₀ : List Tpair} {N oid i j : Int}
  {S S₁ S₂ : PairStore} {pr pr' x : Tpair}

/-- A pair with a record at the start of the turn, other than `P`, which has none now or at most
the position `i`: some position has lost it. -/
theorem exists_lost (hs : TurnStart P e lab₀ D₀ N oid) (hx : x ∈ D₀)
    (hle : cnt lab N x ≤ 1) : ∃ p, lab₀ p = some x ∧ lab p ≠ some x := by
  by_contra hno
  have hkeep : ∀ p, lab₀ p = some x → lab p = some x := fun p hp => by
    by_contra hp'
    exact hno ⟨p, hp, hp'⟩
  have := cnt_mono (N := N) hkeep
  have := hs.twice x hx
  omega

/-- The pair `cb`: two of its positions have gone to `eb`, `ce` and `ee`, so one of these is not the
pair `pr` with a single position. -/
theorem exists_moved (h : TurnInv P e lab₀ D₀ N S lab) (hs : TurnStart P e lab₀ D₀ N oid)
    (hne : P.left ≠ P.right) (hone : ∀ r, lab r = some pr → r = i)
    (hx : (⟨P.right, P.left⟩ : Tpair) ∈ D₀)
    (hlost : HasRec S.Rec ⟨P.right, P.left⟩ → (⟨P.right, P.left⟩ : Tpair) = pr) :
    ∃ y : Tpair, (y = ⟨e, P.left⟩ ∨ y = ⟨P.right, e⟩ ∨ y = ⟨e, e⟩) ∧ y ≠ pr ∧ 0 < cnt lab N y := by
  by_contra hno
  have hpr : ∀ y, (y ≠ pr → cnt lab N y = 0) → cnt lab N y ≤ if y == pr then 1 else 0 := by
    intro y hy
    by_cases hyp : y = pr
    · rw [if_pos (beq_iff_eq.mpr hyp), hyp]
      exact cnt_le_one hone
    · rw [hy hyp]
      exact Nat.zero_le _
  have hzero : ∀ y : Tpair, (y = ⟨e, P.left⟩ ∨ y = ⟨P.right, e⟩ ∨ y = ⟨e, e⟩) → y ≠ pr →
      cnt lab N y = 0 := fun y hy hyp => by
    by_contra hpos
    exact hno ⟨y, hy, hyp, by omega⟩
  have n₀ := hpr ⟨P.right, P.left⟩ fun hne =>
    cnt_eq_zero (h.gone _ hx fun hrec => hne (hlost hrec))
  have n₁ := hpr ⟨e, P.left⟩ (hzero _ (by simp))
  have n₂ := hpr ⟨P.right, e⟩ (hzero _ (by simp))
  have n₃ := hpr ⟨e, e⟩ (hzero _ (by simp))
  -- the four pairs are different, so only one of them is `pr`
  have hnd : [(⟨P.right, P.left⟩ : Tpair), ⟨e, P.left⟩, ⟨P.right, e⟩, ⟨e, e⟩].Nodup := by
    simp [hs.left_ne, hs.right_ne, hs.right_ne.symm]
  have hcount := List.nodup_iff_count_le_one.mp hnd pr
  simp only [List.count_cons, List.count_nil] at hcount
  have := h.bothMoved hne
  have := hs.twice _ hx
  omega

/-- Every pair with a record at the start of the turn has a stand-in among the records that is not
the pair `pr` which is about to lose its record. -/
theorem exists_standsFor (h : TurnInv P e lab₀ D₀ N S lab) (hs : TurnStart P e lab₀ D₀ N oid)
    (hP : HasRec S.Rec P) (hpr : pr ≠ P) (hform : pr.left = P.right ∨ pr.right = P.left)
    (hone : ∀ r, lab r = some pr → r = i) (hx : x ∈ D₀) :
    ∃ y, HasRec S.Rec y ∧ y ≠ pr ∧ StandsFor P e x y := by
  by_cases hA : HasRec S.Rec x ∧ x ≠ pr
  · exact ⟨x, hA.1, hA.2, Or.inl rfl⟩
  have hlost : HasRec S.Rec x → x = pr := fun hrec => by
    by_contra hne
    exact hA ⟨hrec, hne⟩
  have hxP : x ≠ P := fun he => hA ⟨he ▸ hP, fun hxp => hpr (hxp.symm.trans he)⟩
  have hle : cnt lab N x ≤ 1 := by
    by_cases hrec : HasRec S.Rec x
    · exact hlost hrec ▸ cnt_le_one hone
    · rw [cnt_eq_zero (h.gone x hx hrec)]
      omega
  obtain ⟨p, hp₀, hp⟩ := exists_lost hs hx hle
  obtain ⟨xl, xr⟩ := x
  by_cases hl : xl = P.right
  · by_cases hr : xr = P.left
    · subst hl hr
      have hne : P.left ≠ P.right := fun he => hxP (by rw [he]; cases P; simp_all)
      obtain ⟨y, hy, hyp, hpos⟩ := h.exists_moved hs hne hone hx hlost
      obtain ⟨q, hq⟩ := exists_of_cnt_pos hpos
      refine ⟨y, h.tracked q y hq ?_, hyp, Or.inr (Or.inr (Or.inr ⟨rfl, hy⟩))⟩
      rcases hy with rfl | rfl | rfl <;> simp
    · -- a pair `cd`
      subst hl
      obtain ⟨q, hq⟩ := (h.leftMoved p xr hr hp₀).resolve_left hp
      refine ⟨⟨e, xr⟩, h.tracked q _ hq (Or.inl rfl), ?_, Or.inr (Or.inl ⟨rfl, hr, rfl⟩)⟩
      rintro rfl
      exact hform.elim (fun he => hs.right_ne he.symm) hr
  · by_cases hr : xr = P.left
    · -- a pair `ab`
      subst hr
      obtain ⟨q, hq⟩ := (h.rightMoved p xl hl hp₀).resolve_left hp
      refine ⟨⟨xl, e⟩, h.tracked q _ hq (Or.inr rfl), ?_, Or.inr (Or.inr (Or.inl ⟨rfl, hl, rfl⟩))⟩
      rintro rfl
      exact hform.elim hl fun he => hs.left_ne he.symm
    · exact absurd (h.other p _ hp₀ hxP hl hr) hp

/-- When a pair other than `P` loses its record, the last record is not the one of `P`. -/
theorem oid_ne_last (h : TurnInv P e lab₀ D₀ N S lab) (hs : TurnStart P e lab₀ D₀ N oid)
    (hP : HasRec S.Rec P) (hpr : pr ≠ P) (hform : pr.left = P.right ∨ pr.right = P.left)
    (hone : ∀ r, lab r = some pr → r = i) (hrec : HasRec S.Rec pr) : oid ≠ S.Rec.size - 1 := by
  have hstand : ∀ x : Tpair, ∃ y, x ∈ D₀ → HasRec S.Rec y ∧ y ≠ pr ∧ StandsFor P e x y :=
    fun x => by
      by_cases hx : x ∈ D₀
      · obtain ⟨y, hy⟩ := h.exists_standsFor hs hP hpr hform hone hx
        exact ⟨y, fun _ => hy⟩
      · exact ⟨x, fun hn => absurd hn hx⟩
  choose g hg using hstand
  have hnd : (D₀.map g).Nodup := hs.nodup.map_on fun x hx x' hx' he =>
    StandsFor.unique hs.left_ne hs.right_ne (hs.old x hx) (hs.old x' hx') (hg x hx).2.2
      (he ▸ (hg x' hx').2.2)
  have hnot : pr ∉ D₀.map g := fun hm => by
    obtain ⟨x, hx, he⟩ := List.mem_map.mp hm
    exact (hg x hx).2.1 he
  have hsub : (pr :: D₀.map g).Subperm (recPairs S.Rec) :=
    (List.nodup_cons.mpr ⟨hnot, hnd⟩).subperm fun y hy => by
      rw [mem_recPairs]
      rcases List.mem_cons.mp hy with rfl | hy
      · exact hrec
      · obtain ⟨x, hx, rfl⟩ := List.mem_map.mp hy
        exact (hg x hx).1
  have hlen := hsub.length_le
  rw [List.length_cons, List.length_map, length_recPairs] at hlen
  have := hs.oid_lt
  omega

/-! ## The steps of a replacement -/

/-- At the start of a turn nothing has moved. -/
theorem start (hnew : ∀ p x, lab₀ p = some x → x.left ≠ e ∧ x.right ≠ e)
    (hrec : ∀ x ∈ D₀, HasRec S.Rec x) : TurnInv P e lab₀ D₀ N S lab₀ where
  tracked q pr hq he := absurd he (not_or.mpr (hnew q pr hq))
  gone x hx hno := absurd (hrec x hx) hno
  other _ _ hp _ _ _ := hp
  leftMoved _ _ _ hp := Or.inl hp
  rightMoved _ _ _ hp := Or.inl hp
  bothMoved _ := by omega

/-- A position of `P` is given up. -/
theorem unlink (h : TurnInv P e lab₀ D₀ N S lab) (hs : TurnStart P e lab₀ D₀ N oid)
    (hi : lab i = some P) (hiN : 0 ≤ i ∧ i < N) (hrec : ∀ x, HasRec S₁.Rec x ↔ HasRec S.Rec x) :
    TurnInv P e lab₀ D₀ N S₁ (Function.update lab i none) := by
  have hsub : ∀ q x, Function.update lab i none q = some x → lab q = some x := fun q x hq => by
    by_cases hqi : q = i
    · rw [hqi, Function.update_self] at hq
      simp at hq
    · rwa [Function.update_of_ne hqi] at hq
  have hkeep : ∀ q x, lab q = some x → x ≠ P → Function.update lab i none q = some x :=
    fun q x hq hx => by
      rw [Function.update_of_ne fun hqi : q = i => ?_]
      · exact hq
      · rw [hqi, hi, Option.some_inj] at hq
        exact hx hq.symm
  have hl := hs.left_ne
  have hr := hs.right_ne
  refine ⟨fun q pr hq he => (hrec pr).mpr (h.tracked q pr (hsub q pr hq) he),
    fun x hx hno q hq => h.gone x hx (fun hn => hno ((hrec x).mpr hn)) q (hsub q x hq),
    fun p x hp hx hxl hxr => hkeep p x (h.other p x hp hx hxl hxr) hx,
    fun p d hd hp => ?_, fun p a ha hp => ?_, fun hne => ?_⟩
  · rcases h.leftMoved p d hd hp with hp | ⟨q, hq⟩
    · exact Or.inl (hkeep p _ hp fun he =>
        hd ((congrArg Tpair.right he).trans (congrArg Tpair.left he)))
    · exact Or.inr ⟨q, hkeep q _ hq fun he => hl (by rw [← he])⟩
  · rcases h.rightMoved p a ha hp with hp | ⟨q, hq⟩
    · exact Or.inl (hkeep p _ hp fun he =>
        ha ((congrArg Tpair.left he).trans (congrArg Tpair.right he)))
    · exact Or.inr ⟨q, hkeep q _ hq fun he => hr (by rw [← he])⟩
  · have hc : ∀ x, x ≠ P → cnt (Function.update lab i none) N x = cnt lab N x := fun x hx =>
      IndexInv.cnt_none_of_ne hiN hi hx
    rw [hc _ fun he => hne (congrArg Tpair.right he), hc _ fun he => hl (by rw [← he]),
      hc _ fun he => hr (by rw [← he]), hc _ fun he => hl (by rw [← he])]
    exact h.bothMoved hne

/-- A position with another pair keeps it when `i` loses its pair and `j` gets one. -/
theorem lab_of_ne (hi : lab i = some pr) (hj : j = i ∨ lab j = none) {q : Int} {x : Tpair}
    (hq : lab q = some x) (hx : x ≠ pr) :
    Function.update (Function.update lab i none) j (some pr') q = some x := by
  have hqi : q ≠ i := fun he => hx (by rw [he, hi, Option.some_inj] at hq; exact hq.symm)
  have hqj : q ≠ j := fun he => by
    rw [he] at hq hqi
    rw [hj.resolve_left hqi] at hq
    simp at hq
  rw [Function.update_of_ne hqj, Function.update_of_ne hqi, hq]

theorem lab_of_exchange {q : Int} {x : Tpair}
    (hq : Function.update (Function.update lab i none) j (some pr') q = some x) :
    x = pr' ∨ (lab q = some x ∧ q ≠ i) := by
  by_cases hqj : q = j
  · rw [hqj, Function.update_self, Option.some_inj] at hq
    exact Or.inl hq.symm
  · rw [Function.update_of_ne hqj] at hq
    by_cases hqi : q = i
    · rw [hqi, Function.update_self] at hq
      simp at hq
    · rw [Function.update_of_ne hqi] at hq
      exact Or.inr ⟨hq, hqi⟩

theorem cnt_exchange (hi : lab i = some pr) (hj : j = i ∨ lab j = none) (hiN : 0 ≤ i ∧ i < N)
    (hjN : 0 ≤ j ∧ j < N) (x : Tpair) :
    cnt (Function.update (Function.update lab i none) j (some pr')) N x +
      (if pr = x then 1 else 0) = cnt lab N x + if pr' = x then 1 else 0 := by
  have hj' : Function.update lab i none j = none := by
    by_cases hji : j = i
    · rw [hji, Function.update_self]
    · rw [Function.update_of_ne hji, hj.resolve_left hji]
  have c₁ := cnt_update lab x hiN.1 hiN.2 none
  have c₂ := cnt_update (Function.update lab i none) x hjN.1 hjN.2 (some pr')
  rw [hj', if_neg (by simp)] at c₂
  rw [hi, if_neg (by simp : ¬ (none : Option Tpair) = some x)] at c₁
  simp only [Option.some_inj] at c₁ c₂
  omega

/-- A position `i` loses its pair and `j` gets the exchanged one. -/
theorem exchange (h : TurnInv P e lab₀ D₀ N S lab) (hs : TurnStart P e lab₀ D₀ N oid)
    (h₁ : IndexInv.RemovedOcc S S₁ lab oid i pr P)
    (h₂ : IndexInv.CreatedOcc S₁ S₂ (Function.update lab i none) (fun q => q = P) j pr')
    (hi : lab i = some pr) (hj : j = i ∨ lab j = none) (hex : Exchanged P e pr pr')
    (hiN : 0 ≤ i ∧ i < N) (hjN : 0 ≤ j ∧ j < N) :
    TurnInv P e lab₀ D₀ N S₂ (Function.update (Function.update lab i none) j (some pr')) := by
  have hl := hs.left_ne
  have hr := hs.right_ne
  have hat : Function.update (Function.update lab i none) j (some pr') j = some pr' :=
    Function.update_self ..
  -- the record of a pair that still has a position stays
  have hrec : ∀ q x, lab q = some x → q ≠ i → HasRec S.Rec x → HasRec S₂.Rec x :=
    fun q x hq hqi hx => (h₂.recs x).mpr (Or.inl ((h₁.keep x hx).resolve_right
      fun ⟨he, _, hone⟩ => hqi (hone q (he ▸ hq))))
  refine ⟨fun q x hq hx => ?_, fun x hx hno q hq => ?_, fun p x hp hxP hxl hxr => ?_,
    fun p d hd hp => ?_, fun p a ha hp => ?_, fun hne => ?_⟩
  · rcases lab_of_exchange hq with rfl | ⟨hq, hqi⟩
    · exact (h₂.recs x).mpr (Or.inr rfl)
    · exact hrec q x hq hqi (h.tracked q x hq hx)
  · rcases lab_of_exchange hq with rfl | ⟨hq, hqi⟩
    · exact hno ((h₂.recs x).mpr (Or.inr rfl))
    · by_cases hx' : HasRec S.Rec x
      · exact hno (hrec q x hq hqi hx')
      · exact h.gone x hx hx' q hq
  · refine lab_of_ne hi hj (h.other p x hp hxP hxl hxr) fun he => ?_
    rcases hex with ⟨hc, -⟩ | ⟨hb, -⟩
    · exact hxl (by rw [he, hc])
    · exact hxr (by rw [he, hb])
  · rcases h.leftMoved p d hd hp with hp' | ⟨q, hq⟩
    · by_cases hpr : (⟨P.right, d⟩ : Tpair) = pr
      · subst hpr
        rcases hex with ⟨-, rfl⟩ | ⟨hb, -⟩
        · exact Or.inr ⟨j, hat⟩
        · exact absurd hb hd
      · exact Or.inl (lab_of_ne hi hj hp' hpr)
    · refine Or.inr ⟨q, lab_of_ne hi hj hq ?_⟩
      rintro rfl
      exact hex.elim (fun hc => hr hc.1.symm) fun hb => hd hb.1
  · rcases h.rightMoved p a ha hp with hp' | ⟨q, hq⟩
    · by_cases hpr : (⟨a, P.left⟩ : Tpair) = pr
      · subst hpr
        rcases hex with ⟨hc, -⟩ | ⟨-, rfl⟩
        · exact absurd hc ha
        · exact Or.inr ⟨j, hat⟩
      · exact Or.inl (lab_of_ne hi hj hp' hpr)
    · refine Or.inr ⟨q, lab_of_ne hi hj hq ?_⟩
      rintro rfl
      exact hex.elim (fun hc => ha hc.1) fun hb => hl hb.1.symm
  · exact (h.bothMoved hne).trans (hex.sum_le hl hr (cnt_exchange hi hj hiN hjN))

end TurnInv

end Laconic.RePair
