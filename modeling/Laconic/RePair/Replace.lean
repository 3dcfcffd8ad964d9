import Laconic.RePair.Rewriting
import Laconic.RePair.TextInv
import Laconic.RePair.TurnInv

/-!
# Re-Pair: one turn replaces all occurrences of a pair

`ReplaceInv` is the invariant of the inner loop of `repair`: text, occurrence lists, hash table and
heap describe the same text, in which the record `oid` of the pair `P` is out of the heap.  One
round of the loop replaces one occurrence of `P` in the text by the new symbol.
-/

namespace Laconic.RePair

open Neighbour

/-- The pair store in the middle of a turn, for a text of `N` cells with the pairs `lab`. -/
structure StoreInv (P : Tpair) (e : Int) (lab₀ : Int → Option Tpair) (D₀ : List Tpair) (N oid : Int)
    (S : PairStore) (lab : Int → Option Tpair) : Prop where
  index : IndexInv S lab (fun q => q = P) 0
  oid_inB : S.Rec.InB oid
  oid_pair : (S.Rec.cells oid).pair = P
  size : S.L.size = N
  turn : TurnInv P e lab₀ D₀ N S lab

/-- The invariant of the inner loop; `ps` are the live positions. -/
structure ReplaceInv (P : Tpair) (lab₀ : Int → Option Tpair) (D₀ : List Tpair) (oid : Int)
    (R : Repair) (ps : List Int) : Prop where
  text : TextInv R.u R.inter ps
  len : (ps.length : Int) = R.c
  store : StoreInv P R.n lab₀ D₀ R.u oid R.S (labels R.inter ps)
  symbol : 0 ≤ R.n

section Step

variable {P : Tpair} {e : Int} {lab₀ lab : Int → Option Tpair} {D₀ : List Tpair} {N oid i j : Int}
  {S : PairStore} {R : Repair} {pr pr' : Tpair} {ps : List Int}

/-- "remove occ" of a pair `cd` or `ab` next to an occurrence of `P`. -/
theorem StoreInv.removeOcc_meets (h : StoreInv P e lab₀ D₀ N oid S lab)
    (hs : TurnStart P e lab₀ D₀ N oid) (hi : lab i = some pr)
    (hform : pr.left = P.right ∨ pr.right = P.left) :
    Run.Meets ProbeOnly (removeOcc S oid pr i)
      (fun S' => IndexInv.RemovedOcc S S' lab oid i pr P) :=
  h.index.removeOcc_meets h.oid_inB h.oid_pair hi fun hpr hrec hone =>
    h.turn.oid_ne_last hs ⟨oid, h.oid_inB, h.oid_pair⟩ hpr hform hone hrec

/-- "remove occ" followed by "create occ" of the exchanged pair. -/
theorem exchangeOcc_meets (h : StoreInv P e lab₀ D₀ N oid S lab) (hs : TurnStart P e lab₀ D₀ N oid)
    (hi : lab i = some pr) (hj : j = i ∨ lab j = none) (hj0 : 0 ≤ j) (hj1 : j + 1 < N)
    (hex : Exchanged P e pr pr') :
    Run.Meets ProbeOnly (do let S ← removeOcc S oid pr i; createOcc S pr' j) (fun S' =>
      StoreInv P e lab₀ D₀ N oid S' (Function.update (Function.update lab i none) j (some pr'))) := by
  have hl := hs.left_ne
  have hr := hs.right_ne
  have hform : pr.left = P.right ∨ pr.right = P.left := hex.imp And.left And.left
  have hnew : pr'.left = e ∨ pr'.right = e := by
    rcases hex with ⟨-, rfl⟩ | ⟨-, rfl⟩ <;> simp
  have hne : pr' ≠ P := fun he => by
    rw [he] at hnew
    exact hnew.elim hl hr
  have hprne : pr' ≠ pr := by
    rintro rfl
    rcases hex with ⟨hc, he⟩ | ⟨hb, he⟩
    · exact hr (by rw [← hc, he])
    · exact hl (by rw [← hb, he])
  have hiN : 0 ≤ i ∧ i < N := h.size ▸ h.index.range hi
  rw [Run.meets_bind]
  refine (h.removeOcc_meets hs hi hform).mono fun S₁ h₁ => ?_
  have hjnone : Function.update lab i none j = none := by
    by_cases hji : j = i
    · rw [hji, Function.update_self]
    · rw [Function.update_of_ne hji, hj.resolve_left hji]
  refine (h₁.inv.createOcc_meets hjnone hj0 (by rw [h₁.size, h.size]; exact hj1) hne
    fun q hq => ?_).mono fun S₂ h₂ => ?_
  · -- a pair with `e` that the text has already is tracked
    have hqi : q ≠ i := fun he => by
      rw [he, Function.update_self] at hq
      simp at hq
    rw [Function.update_of_ne hqi] at hq
    exact (h₁.keep pr' (h.turn.tracked q pr' hq hnew)).resolve_right fun hk => hprne hk.1
  · obtain ⟨hin, hpair⟩ := h₂.stay oid h₁.oid_inB
    exact ⟨h₂.inv, hin, hpair.trans h₁.oid_pair, by rw [h₂.size, h₁.size, h.size],
      h.turn.exchange hs h₁ h₂ hi hj hex hiN ⟨hj0, by omega⟩⟩

/-- The positions of an occurrence. -/
theorem ReplaceInv.around (h : ReplaceInv P lab₀ D₀ oid R ps) {p : Int}
    (hp : labels R.inter ps p = some P) : ∃ l₁ q l, ps = l₁ ++ p :: q :: l ∧
      R.inter.cells p = P.left ∧ R.inter.cells q = P.right := by
  obtain ⟨q, hadj, he⟩ := (labels_eq_some_iff h.text.nodup).mp hp
  obtain ⟨l₁, l, rfl⟩ := adj_iff_exists.mp hadj
  exact ⟨l₁, q, l, rfl, congrArg Tpair.left he, congrArg Tpair.right he⟩

/-- "remove bc from L" gives up the head position of the pair. -/
theorem StoreInv.unlinkHead_eq (h : StoreInv P e lab₀ D₀ N oid S lab)
    (hs : TurnStart P e lab₀ D₀ N oid) (hc : (S.Rec.cells oid).cpos ≠ -1) :
    lab (S.Rec.cells oid).cpos = some P ∧
      ∃ S', unlinkHead S oid (S.Rec.cells oid).cpos = .ok S' ∧
        StoreInv P e lab₀ D₀ N oid S' (Function.update lab (S.Rec.cells oid).cpos none) := by
  obtain ⟨-, -, hlab⟩ := h.index.head_prev h.oid_inB hc
  rw [h.oid_pair] at hlab
  obtain ⟨recs', L', hrun, hsame, hL, hinv⟩ := h.index.unlinkHead_keeps h.oid_inB h.oid_pair hc
  have hpair : ∀ j, (recs'.cells j).pair = (S.Rec.cells j).pair := fun j => by rw [hsame.2 j]
  refine ⟨hlab, _, hrun, hinv, ⟨h.oid_inB.1, by dsimp only; rw [hsame.1]; exact h.oid_inB.2⟩, ?_,
    by dsimp only; rw [hL, h.size], ?_⟩
  · dsimp only
    rw [hpair, h.oid_pair]
  · exact h.turn.unlink hs hlab (h.size ▸ h.index.range hlab)
      (hasRec_congr hsame.1 hpair)

/-- The writes to `inter` at the end of a round. -/
theorem replaceCells_eq {u : Int} {inter : Block Int} {l₁ l : List Int} {p q : Int}
    (h : TextInv u inter (l₁ ++ p :: q :: l)) (e : Int) :
    ∃ inter', TextInv.Replaced u inter inter' p (l.headD u) e ∧
      ∀ {α : Type} (k : Block Int → Run α), (do
        let inter ← inter.write p e
        let inter ← (if l.headD u ≠ u then inter.write (l.headD u - 1) (-p - 1) else pure inter)
        let inter ← inter.write (p + 1) (-l.headD u - 1)
        k inter) = k inter' := by
  have ha := h.around
  generalize l.headD u = r at *
  have hsize := h.size
  have hb : ∀ x, 0 ≤ x → x < u → inter.InB x := fun x h0 h1 => ⟨h0, by rw [hsize]; exact h1⟩
  have hb₁ : (inter.upd p fun _ => e).InB (r - 1) := hb (r - 1) (by omega) (by omega)
  by_cases hr : r = u
  · -- nothing lives behind the pair
    have hb₂ : (inter.upd p fun _ => e).InB (p + 1) := hb (p + 1) (by omega) (by omega)
    refine ⟨(inter.upd p fun _ => e).upd (p + 1) fun _ => -r - 1, ⟨rfl, fun x => ?_⟩, fun k => ?_⟩
    · rw [Block.cells_upd, Block.cells_upd, if_neg (c := x = r - 1 ∧ r ≠ u) fun hx => hx.2 hr]
    · rw [Block.write_eq (hb p (by omega) (by omega)), Run.ok_bind, if_neg (not_not.mpr hr),
        Run.pure_bind, Block.write_eq hb₂, Run.ok_bind]
  · have hb₂ : ((inter.upd p fun _ => e).upd (r - 1) fun _ => -p - 1).InB (p + 1) :=
      hb (p + 1) (by omega) (by omega)
    refine ⟨((inter.upd p fun _ => e).upd (r - 1) fun _ => -p - 1).upd (p + 1) fun _ => -r - 1,
      ⟨rfl, fun x => ?_⟩, fun k => ?_⟩
    · rw [Block.cells_upd, Block.cells_upd, Block.cells_upd]
      simp only [hr, ne_eq, not_false_eq_true, and_true]
    · rw [Block.write_eq (hb p (by omega) (by omega)), Run.ok_bind, if_pos hr,
        Block.write_eq hb₁, Run.ok_bind, Block.write_eq hb₂, Run.ok_bind]

section Round

variable {l₁ l : List Int} {p q : Int} {lab' : Int → Option Tpair}
  (h : ReplaceInv P lab₀ D₀ oid R (l₁ ++ p :: q :: l)) (hs : TurnStart P R.n lab₀ D₀ R.u oid)

include h hs

/-- "replace cd by ed", unless the pair ends the text. -/
theorem exchangeRight_meets (hc : R.inter.cells q = P.right)
    (hS : StoreInv P R.n lab₀ D₀ R.u oid S
      (Function.update (labels R.inter (l₁ ++ p :: q :: l)) p none)) :
    Run.Meets ProbeOnly (if l.headD R.u ≠ R.u then do
        let c ← R.inter.read q
        let d ← R.inter.read (l.headD R.u)
        let S ← removeOcc S oid ⟨c, d⟩ q
        createOcc S ⟨R.n, d⟩ p
      else pure S) (fun S' => StoreInv P R.n lab₀ D₀ R.u oid S' (Function.update
        (Function.update (labels R.inter (l₁ ++ p :: q :: l)) q none) p
        (l.head?.map fun r => ⟨R.n, R.inter.cells r⟩))) := by
  have ha := h.text.around
  have hnd := h.text.nodup
  cases l with
  | nil =>
    have hq : labels R.inter (l₁ ++ [p, q]) q = none := labels_eq_none hnd fun y hy => by
      have := h.text.le_last (q := q) (by simp [List.getLast?_append]) hy.right_mem
      have := (h.text.adj_range hy).2.1
      omega
    rw [List.headD_nil, if_neg (not_not.mpr rfl), Run.meets_pure, ← hq, Function.update_eq_self]
    exact hS
  | cons r l =>
    rw [List.headD_cons] at ha ⊢
    have hqr : Adj (l₁ ++ p :: q :: r :: l) q r := adj_iff_exists.mpr ⟨l₁ ++ [p], l, by simp⟩
    have hru := (h.text.adj_range hqr).2.2
    have hlabq : labels R.inter (l₁ ++ p :: q :: r :: l) q = some ⟨P.right, R.inter.cells r⟩ :=
      (labels_eq_some_iff hnd).mpr ⟨r, hqr, by rw [hc]⟩
    rw [if_pos (by omega), Block.read_eq (h.text.inB hqr.left_mem), Run.ok_bind,
      Block.read_eq (h.text.inB hqr.right_mem), Run.ok_bind, hc]
    refine (exchangeOcc_meets hS hs (by rw [Function.update_of_ne (by omega), hlabq])
      (Or.inr (Function.update_self ..)) (by omega) (by omega)
      (Or.inl ⟨rfl, rfl⟩)).mono fun S' h' => ?_
    rw [Function.update_comm (show p ≠ q by omega), Function.update_idem] at h'
    exact h'

/-- "replace ab by ae", unless the pair begins the text. -/
theorem exchangeLeft_meets (hb : R.inter.cells p = P.left) {inter' : Block Int}
    (hrep : TextInv.Replaced R.u R.inter inter' p (l.headD R.u) R.n)
    (hS : StoreInv P R.n lab₀ D₀ R.u oid S (Function.update
        (Function.update (labels R.inter (l₁ ++ p :: q :: l)) q none) p
        (l.head?.map fun r => ⟨R.n, R.inter.cells r⟩))) :
    Run.Meets ProbeOnly (if p ≠ 0 then do
        let ant ← antPos R.inter p
        let a ← R.inter.read ant
        let b ← R.inter.read p
        let S ← removeOcc S oid ⟨a, b⟩ ant
        createOcc S ⟨a, R.n⟩ ant
      else pure S) (fun S' => StoreInv P R.n lab₀ D₀ R.u oid S'
        (labels inter' (l₁ ++ p :: l))) := by
  have ha := h.text.around
  have hnd := h.text.nodup
  have hother := fun x => h.text.labels_other (x := x) h.symbol hrep
  rw [← h.text.labels_at h.symbol hrep, ← h.text.labels_removed h.symbol hrep] at hS
  by_cases hp0 : p = 0
  · rw [if_neg (not_not.mpr hp0), Run.meets_pure]
    convert hS using 1
    funext x
    by_cases hxp : x = p
    · rw [hxp, Function.update_self]
    · rw [Function.update_of_ne hxp]
      by_cases hxq : x = q
      · rw [hxq, Function.update_self]
      · rw [Function.update_of_ne hxq, hother x hxp hxq]
        intro hadj
        have := h.text.adj_range hadj
        omega
  · have hmem : p ∈ l₁ ++ p :: q :: l := by simp
    obtain ⟨a, hap⟩ := exists_left hmem fun he => by
      rw [h.text.first, Option.some_inj] at he
      exact hp0 he.symm
    have har := h.text.adj_range hap
    have hlaba : labels R.inter (l₁ ++ p :: q :: l) a = some ⟨R.inter.cells a, P.left⟩ :=
      (labels_eq_some_iff hnd).mpr ⟨p, hap, by rw [hb]⟩
    rw [if_pos hp0, h.text.antPos_eq hap, Run.ok_bind, Block.read_eq (h.text.inB hap.left_mem),
      Run.ok_bind, Block.read_eq (h.text.inB hap.right_mem), Run.ok_bind, hb]
    refine (exchangeOcc_meets hS hs ?_ (Or.inl rfl) (by omega) (by omega)
      (Or.inr ⟨rfl, rfl⟩)).mono fun S' h' => ?_
    · rw [Function.update_of_ne (by omega), Function.update_of_ne (by omega), hlaba]
    · convert h' using 1
      funext x
      by_cases hxa : x = a
      · rw [hxa, Function.update_self, h.text.labels_before h.symbol hrep hap]
      · rw [Function.update_of_ne hxa, Function.update_of_ne hxa]
        by_cases hxp : x = p
        · rw [hxp, Function.update_self]
        · rw [Function.update_of_ne hxp]
          by_cases hxq : x = q
          · rw [hxq, Function.update_self]
          · rw [Function.update_of_ne hxq, hother x hxp hxq]
            exact fun hadj => hxa (hadj.left_unique hnd hap)

end Round

/-- One round of the inner loop replaces one occurrence. -/
theorem replaceStep_meets (h : ReplaceInv P lab₀ D₀ oid R ps)
    (hs : TurnStart P R.n lab₀ D₀ R.u oid) (hc : (R.S.Rec.cells oid).cpos ≠ -1) :
    Run.Meets ProbeOnly (replaceStep oid (R.S.Rec.cells oid).cpos R) (fun R' =>
      ∃ ps', ReplaceInv P lab₀ D₀ oid R' ps' ∧ R'.u = R.u ∧ R'.n = R.n ∧ R'.rule = R.rule ∧
        R'.c = R.c - 1 ∧
        Replaces P R.n (ps.map R.inter.cells) (ps'.map R'.inter.cells)) := by
  obtain ⟨hlab, S₁, hrun₁, h₁⟩ := h.store.unlinkHead_eq hs hc
  generalize (R.S.Rec.cells oid).cpos = p at *
  obtain ⟨l₁, q, l, rfl, hb, hc'⟩ := h.around hlab
  have hpq : Adj (l₁ ++ p :: q :: l) p q := adj_iff_exists.mpr ⟨l₁, l, rfl⟩
  have hq : l₁ ++ p :: q :: l = (l₁ ++ [p]) ++ q :: l := by simp
  obtain ⟨inter', hrep, hwrite⟩ := replaceCells_eq h.text R.n
  rw [replaceStep, h.text.nextPos_eq hpq, Run.ok_bind, h.text.step_eq hq, Run.ok_bind, hrun₁,
    Run.ok_bind, Run.meets_bind]
  refine (exchangeRight_meets h hs hc' h₁).mono fun S₂ h₂ => ?_
  rw [Run.meets_bind]
  refine (exchangeLeft_meets h hs hb hrep h₂).mono fun S₃ h₃ => ?_
  -- the holes
  rw [hwrite, Run.meets_pure]
  refine ⟨l₁ ++ p :: l, ⟨h.text.replace h.symbol hrep, ?_, h₃, h.symbol⟩, rfl, rfl, rfl,
    rfl, l₁.map R.inter.cells, l.map R.inter.cells, ?_, ?_⟩
  · have := h.len
    simp only [List.length_append, List.length_cons] at this ⊢
    push_cast at this ⊢
    omega
  · simp [hb, hc']
  · exact h.text.map_cells h.symbol hrep

/-- With no position left in its list the pair is nowhere in the text. -/
theorem StoreInv.no_occ (h : StoreInv P e lab₀ D₀ N oid S lab)
    (hc : (S.Rec.cells oid).cpos = -1) (p : Int) : lab p ≠ some P := by
  obtain ⟨l, k, hseg, -, hm⟩ := h.index.lists.list oid h.oid_inB
  rw [h.oid_pair] at hm
  have hl : l = [] := (hseg.head_eq_target_iff fun hmem => by
    have := (h.index.range ((hm _).mp hmem)).1
    omega).mp hc
  intro hp
  have := (hm p).mpr hp
  rw [hl] at this
  simp at this

/-- The inner loop replaces all occurrences. -/
theorem replaceAll_meets (h : ReplaceInv P lab₀ D₀ oid R ps)
    (hs : TurnStart P R.n lab₀ D₀ R.u oid) :
    Run.Meets ProbeOnly (replaceAll oid R) (fun R' =>
      ∃ ps', ReplaceInv P lab₀ D₀ oid R' ps' ∧ R'.u = R.u ∧ R'.n = R.n ∧ R'.rule = R.rule ∧
        (∀ p, labels R'.inter ps' p ≠ some P) ∧
        Relation.ReflTransGen (Replaces P R.n) (ps.map R.inter.cells)
          (ps'.map R'.inter.cells)) := by
  rw [replaceAll, Block.read_eq h.store.oid_inB, Run.ok_bind, Run.meets_bind]
  -- every round takes one live position out of the text
  refine (Run.meets_whileLoop _ _ (fun s : Int × Repair => s.1 = (s.2.S.Rec.cells oid).cpos ∧
      ∃ ps', ReplaceInv P lab₀ D₀ oid s.2 ps' ∧ s.2.u = R.u ∧ s.2.n = R.n ∧ s.2.rule = R.rule ∧
        Relation.ReflTransGen (Replaces P R.n) (ps.map R.inter.cells) (ps'.map s.2.inter.cells))
    (fun s => ∃ ps', ReplaceInv P lab₀ D₀ oid s.2 ps' ∧ s.2.u = R.u ∧ s.2.n = R.n ∧
      s.2.rule = R.rule ∧ (∀ p, labels s.2.inter ps' p ≠ some P) ∧
        Relation.ReflTransGen (Replaces P R.n) (ps.map R.inter.cells) (ps'.map s.2.inter.cells))
    (fun s => s.2.c.toNat) (fun s hs' => ?_) (R.c.toNat + 1) _ (by dsimp only; omega)
    ⟨rfl, ps, h, rfl, rfl, rfl, Relation.ReflTransGen.refl⟩).mono fun s hs' => ?_
  · obtain ⟨cpos, R'⟩ := s
    obtain ⟨hcpos, ps', h', hu, hn, hrule, hgen⟩ := hs'
    dsimp only at hcpos hu hn hrule hgen h' ⊢
    rw [Run.meets_pure, hcpos]
    refine ⟨fun hc => ?_, fun hc => ?_⟩
    · rw [decide_eq_true_eq] at hc
      have hpos : 0 < R'.c := by
        have := List.length_pos_iff.mpr h'.text.ne_nil
        have := h'.len
        omega
      rw [Run.meets_bind]
      refine (replaceStep_meets h' (by rw [hu, hn]; exact hs) hc).mono fun R'' hR'' => ?_
      obtain ⟨ps'', h'', hu', hn', hrule', hc', hrep⟩ := hR''
      rw [Block.read_eq h''.store.oid_inB, Run.ok_bind, Run.meets_pure]
      exact ⟨⟨rfl, ps'', h'', hu'.trans hu, hn'.trans hn, hrule'.trans hrule,
        hgen.tail (hn ▸ hrep)⟩, by dsimp only; omega⟩
    · rw [decide_eq_false_iff_not, not_not] at hc
      exact ⟨ps', h', hu, hn, hrule, h'.store.no_occ hc, hgen⟩
  · exact hs'

end Step

end Laconic.RePair
