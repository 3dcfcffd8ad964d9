import Laconic.RePair.Compact

/-!
# Re-Pair: whole runs

`prepare` establishes the representation invariant, every turn of `repair` keeps it, and every turn
is a turn of the rewriting system, so a run of the compressor is a run of the rewriting system.
The only fault that can occur is a hash table without an empty cell.
-/

namespace Laconic.RePair

open Neighbour Relation

/-! ## A turn -/

/-- The record of a pair that is nowhere in the text is removed, and pairs that occur once go. -/
theorem ReplaceInv.close {P : Tpair} {lab₀ : Int → Option Tpair} {D₀ : List Tpair} {oid : Int}
    {R : Repair} {ps : List Int} (h : ReplaceInv P lab₀ D₀ oid R ps)
    (hno : ∀ p, labels R.inter ps p ≠ some P) :
    ∃ S₁ S₂, removeRecord R.S oid = .ok S₁ ∧ purgeHeap S₁ = .ok S₂ ∧
      IndexInv S₂ (labels R.inter ps) (fun _ => False) 0 ∧
      (∀ j, S₂.Rec.InB j → 2 ≤ (S₂.Rec.cells j).freq) ∧ S₂.L.size = R.u := by
  have hinj := h.store.index.lists.inj
  have hoid := h.store.oid_inB
  have hoid0 := hoid.1
  have hoid1 := hoid.2
  have hlast : R.S.Rec.InB (R.S.Rec.size - 1) := ⟨by omega, by omega⟩
  obtain ⟨S₁, hrun₁, hinv₁, hsize, hcells, hL, -, -, -⟩ :=
    h.store.index.removeRecord_keeps oid hoid h.store.oid_pair
      (fun p q hp => absurd (h.store.oid_pair ▸ hp) (hno p))
      fun hne hP => hne (hinj oid _ hoid hlast (h.store.oid_pair.trans hP.symm))
  -- no other record has the pair
  have hgone : ∀ j, S₁.Rec.InB j → (S₁.Rec.cells j).pair ≠ P := fun j hj he => by
    have hj1 := hj.2
    rw [hsize] at hj1
    rw [hcells] at he
    split at he
    · have := hinj _ oid hlast hoid (he.trans h.store.oid_pair.symm)
      omega
    · next hne =>
      exact hne (hinj j oid ⟨hj.1, by omega⟩ hoid (he.trans h.store.oid_pair.symm))
  obtain ⟨S₂, hrun₂, hinv₂, hfreq, hL₂, -⟩ :=
    (hinv₁.out_congr (fun _ => False) fun j hj =>
      ⟨fun hf => hf.elim, fun he => hgone j hj he⟩).purgeHeap_keeps
  exact ⟨S₁, S₂, hrun₁, hrun₂, hinv₂, hfreq, by rw [hL₂, hL, h.store.size]⟩

section Turn

variable {R : Repair} {ps : List Int} {id alph : Int}

theorem ltFactor_compact (h : RepairInv R ps) :
    ∃ R' ps', (if ltFactor R.c R.u then compact R else pure R) = .ok R' ∧ RepairInv R' ps' ∧
      R'.c = R.c ∧ R'.n = R.n ∧ R'.view ps' = R.view ps := by
  split
  · obtain ⟨R', hrun, hinv, hc, hn, hview⟩ := compact_eq h
    exact ⟨R', _, hrun, hinv, hc, hn, hview⟩
  · exact ⟨R, ps, rfl, h, rfl, rfl, rfl⟩

/-- A turn of `repair` is a turn of the rewriting system for the pair it has extracted. -/
theorem repairTurn_meets (h : RepairInv R ps) (hid : R.S.Rec.InB id) {H : Theap}
    (hindex : IndexInv { R.S with Heap := H } (labels R.inter ps)
      (fun pr => pr = (R.S.Rec.cells id).pair) 0) (halph : R.n = alph + R.rule.length) :
    Run.Meets ProbeOnly (repairTurn id { R with S := { R.S with Heap := H } }) (fun R' =>
      ∃ ps', RepairInv R' ps' ∧ R'.n = R.n + 1 ∧ R'.c < R.c ∧
        Rewriting.TurnOf alph (R.S.Rec.cells id).pair (R.view ps) (R'.view ps')) := by
  have hstart := h.turnStart hid
  have hinv := h.replaceInv hid hindex (R.rule ++ [(R.S.Rec.cells id).pair])
  have htwice := h.pair_twice hid
  have hlt := h.pair_lt hid
  generalize hP : (R.S.Rec.cells id).pair = P at *
  have hrec : ({ R.S with Heap := H } : PairStore).Rec.read id = .ok (R.S.Rec.cells id) :=
    Block.read_eq hid
  rw [repairTurn]
  dsimp only at hrec ⊢
  rw [hrec, Run.ok_bind, hP, Run.meets_bind]
  refine (replaceAll_meets hinv hstart).mono fun R₁ hR₁ => ?_
  obtain ⟨ps₁, h₁, hu, hn, hrule, hno, hgen⟩ := hR₁
  dsimp only at hu hn hrule hgen
  obtain ⟨S₁, S₂, hrun₁, hrun₂, hindex₂, hfreq, hsize⟩ := h₁.close hno
  rw [hrun₁, Run.ok_bind, hrun₂, Run.ok_bind]
  -- at least one occurrence has been replaced
  have htrans : TransGen (Replaces P R.n) (ps.map R.inter.cells) (ps₁.map R₁.inter.cells) := by
    refine (reflTransGen_iff_eq_or_transGen.mp hgen).resolve_left fun he => ?_
    have hocc : ∃ p, labels R.inter ps p = some P := by
      have h₁ := h.freq id hid
      rw [h.index.freq id hid not_false, hP] at h₁
      exact exists_of_cnt_pos (N := R.S.L.size) (by omega)
    obtain ⟨p, hp⟩ := (exists_labels_iff h₁.text.nodup).mpr (he ▸ (exists_labels_iff h.text.nodup).mp hocc)
    exact hno p hp
  have hclt : R₁.c < R.c := by
    have hlen : (ps₁.map R₁.inter.cells).length < (ps.map R.inter.cells).length := by
      obtain ⟨t, hstep, hrest⟩ := TransGen.head'_iff.mp htrans
      have := replaces_induction (I := fun s => s.length ≤ t.length) hrest
        (fun s s' hs hle => by have := hs.length_eq; omega) (le_refl _)
      have := hstep.length_eq
      omega
    have := h.len
    have := h₁.len
    rw [List.length_map, List.length_map] at hlen
    omega
  have hsym : ∀ x ∈ ps₁.map R₁.inter.cells, x < R.n + 1 := by
    refine replaces_induction (I := fun s => ∀ x ∈ s, x < R.n + 1) hgen (fun s s' hs hle x hx => ?_)
      fun x hx => ?_
    · rcases hs.mem hx with rfl | hx
      · omega
      · exact hle x hx
    · obtain ⟨p, hp, rfl⟩ := List.mem_map.mp hx
      have := h.symbols p hp
      omega
  have h₂ : RepairInv { R₁ with S := S₂, n := R₁.n + 1 } ps₁ :=
    ⟨h₁.text, h₁.len, hindex₂, hsize, hfreq, fun p hp => by
      dsimp only
      rw [hn]
      exact hsym _ (List.mem_map_of_mem hp)⟩
  obtain ⟨R₃, ps₃, hrun₃, h₃, hc₃, hn₃, hview⟩ := ltFactor_compact h₂
  dsimp only at hrun₃ hc₃ hn₃
  rw [hrun₃]
  refine ⟨ps₃, h₃, by rw [hn₃, hn], by omega, ?_, ?_, htwice, ?_⟩
  · rw [hview]
    exact hrule
  · rw [hview, show alph + ((R.view ps).rules.length : Int) = R.n from halph.symm]
    exact htrans
  · rw [hview]
    refine Eq.trans (h₁.text.cnt_labels P).symm (Nat.eq_zero_of_not_pos fun hpos => ?_)
    obtain ⟨p, hp⟩ := exists_of_cnt_pos hpos
    exact hno p hp

end Turn

/-! ## prepare -/

/-- The pairs of a text without holes. -/
theorem labels_slots {inter : Block Int} {u x : Int} :
    labels inter (slots u) x =
      if 0 ≤ x ∧ x + 1 < u then some ⟨inter.cells x, inter.cells (x + 1)⟩ else none := by
  split
  · next hx =>
    exact (labels_eq_some_iff (nodup_slots u)).mpr ⟨x + 1, adj_slots.mpr ⟨hx.1, rfl, hx.2⟩, rfl⟩
  · next hx =>
    refine labels_eq_none (nodup_slots u) fun y hy => hx ?_
    have := adj_slots.mp hy
    omega

/-- The pairs of the positions that `prepare` has passed. -/
def passedLabels (inter : Block Int) (u i x : Int) : Option Tpair :=
  if x < i then labels inter (slots u) x else none

/-- The store of `prepare` when it has passed the positions below `i`. -/
structure Passed (inter : Block Int) (i : Int) (S : PairStore) : Prop where
  nonneg : 0 ≤ i
  index : IndexInv S (passedLabels inter inter.size i) (fun _ => False) 0
  size : S.L.size = inter.size
  tracked : ∀ q pr, passedLabels inter inter.size i q = some pr → HasRec S.Rec pr

/-- One round of `prepare`. -/
theorem prepareStep_meets {inter : Block Int} {i : Int} {S : PairStore}
    (h : Passed inter i S) (hi : i < inter.size - 1) :
    Run.Meets ProbeOnly (prepareStep inter i S) (Passed inter (i + 1)) := by
  have hi0 := h.nonneg
  have hupd : Function.update (passedLabels inter inter.size i) i
      (some ⟨inter.cells i, inter.cells (i + 1)⟩) = passedLabels inter inter.size (i + 1) := by
    funext x
    unfold passedLabels
    by_cases hx : x = i
    · rw [hx, Function.update_self, if_pos (by omega), labels_slots, if_pos ⟨hi0, by omega⟩]
    · rw [Function.update_of_ne hx]
      exact if_congr (by omega) rfl rfl
  have hbi : inter.InB i := ⟨by omega, by omega⟩
  have hbj : inter.InB (i + 1) := ⟨by omega, by omega⟩
  rw [prepareStep, Block.read_eq hbi, Run.ok_bind, Block.read_eq hbj, Run.ok_bind]
  refine (h.index.createOcc_meets (if_neg (by omega)) hi0 (by have := h.size; omega) not_false
    fun q hq => h.tracked q _ hq).mono fun S' h' => ?_
  have hinv := h'.inv
  rw [hupd] at hinv
  refine ⟨by omega, hinv, by rw [h'.size, h.size], fun q pr hq => ?_⟩
  rw [← hupd] at hq
  by_cases hqi : q = i
  · rw [hqi, Function.update_self, Option.some_inj] at hq
    exact (h'.recs pr).mpr (Or.inr hq.symm)
  · rw [Function.update_of_ne hqi] at hq
    exact (h'.recs pr).mpr (Or.inl (h.tracked q pr hq))

/-- The store that `prepare` starts with. -/
theorem prepareStart_meets {inter : Block Int}
    (hsize : inter.size ≤ HeapInv.maxSqrtu * HeapInv.maxSqrtu) :
    ∃ H, createHeap inter.size = .ok H ∧
      Run.Meets ProbeOnly (createHash (256 * 256)) (fun hash => Passed inter 0
        ⟨Block.alloc 0 fun _ => ⟨⟨0, 0⟩, 0, 0, 0, 0⟩, hash, H,
          Block.alloc inter.size fun _ => ⟨0, 0⟩⟩) := by
  obtain ⟨H, hrunH, hheap, hroom⟩ := HeapInv.createHeap_eq hsize
    (Block.alloc 0 fun _ => ⟨⟨0, 0⟩, 0, 0, 0, 0⟩)
  refine ⟨H, hrunH, ?_⟩
  refine (HashInv.createHash_meets (by decide)
    (Block.alloc 0 fun _ => ⟨⟨0, 0⟩, 0, 0, 0, 0⟩)).mono fun hash hhash => ?_
  have hnone : ∀ j, ¬ (Block.alloc 0 fun _ => (⟨⟨0, 0⟩, 0, 0, 0, 0⟩ : Trecord)).InB j := fun j hj => by
    have := hj.1
    have := hj.2
    rw [Block.size_alloc] at this
    omega
  -- no record yet, and no position passed
  have hnolab : ∀ p pr, passedLabels inter inter.size 0 p ≠ some pr := fun p pr hp => by
    unfold passedLabels at hp
    split at hp
    · rw [labels_slots, if_neg (by omega)] at hp
      cases hp
    · cases hp
  refine ⟨le_rfl, ⟨hhash.live_congr fun j => ⟨fun hj => hnone j hj, False.elim⟩,
      hheap.live_congr fun j => ⟨fun hj => hnone j hj.1, False.elim⟩,
      ⟨fun p pr hp => absurd hp (hnolab p pr), fun a _ ha => absurd ha (hnone a),
        fun j hj => absurd hj (hnone j), fun p pr hp => absurd hp (hnolab p pr)⟩,
      fun j hj => absurd hj (hnone j), by rw [Block.size_alloc], hroom⟩, rfl,
    fun q pr hq => absurd hq (hnolab q pr)⟩

/-- `prepare` indexes the pairs of the text and drops the ones that occur once. -/
theorem prepare_index {alph : Int} {inter : Block Int} (h0 : 0 ≤ inter.size)
    (hsize : inter.size ≤ HeapInv.maxSqrtu * HeapInv.maxSqrtu) :
    Run.Meets ProbeOnly (prepare alph inter) (fun R => ∃ S,
      R = ⟨inter.size, inter.size, alph, inter, S, []⟩ ∧
      IndexInv S (labels inter (slots inter.size)) (fun _ => False) 0 ∧ S.L.size = inter.size ∧
      ∀ j, S.Rec.InB j → 2 ≤ (S.Rec.cells j).freq) := by
  obtain ⟨H, hrunH, hstart⟩ := prepareStart_meets hsize
  rw [prepare]
  dsimp only
  rw [hrunH, Run.ok_bind, Run.meets_bind]
  refine hstart.mono fun hash hhash => ?_
  rw [Run.meets_bind]
  refine (Run.meets_forLoop (Passed inter) ((inter.size - 1).toNat : Int)
    (fun i S hi hS => prepareStep_meets hS (by have := hS.nonneg; omega)) _ 0 _ (by omega)
    hhash).mono fun S hS => ?_
  obtain ⟨-, hS, hL, -⟩ := hS
  have hall : passedLabels inter inter.size ((inter.size - 1).toNat : Int) =
      labels inter (slots inter.size) := by
    funext x
    unfold passedLabels
    split
    · rfl
    · rw [labels_slots, if_neg (by omega)]
  rw [hall] at hS
  obtain ⟨S', hrun, hS', hfreq, hL', -⟩ := hS.purgeHeap_keeps
  rw [hrun, Run.ok_bind, Run.meets_pure]
  exact ⟨S', rfl, hS', hL'.trans hL, hfreq⟩

/-- `prepare` sets up the state for a text with at least one symbol. -/
theorem prepare_meets {alph : Int} {inter : Block Int}
    (hsize : inter.size ≤ HeapInv.maxSqrtu * HeapInv.maxSqrtu)
    (hcells : ∀ p, 0 ≤ p → p < inter.size → 0 ≤ inter.cells p ∧ inter.cells p < alph)
    (hpos : 0 < inter.size) :
    Run.Meets ProbeOnly (prepare alph inter) (fun R =>
      RepairInv R (slots inter.size) ∧ R.n = alph ∧ R.rule = [] ∧ R.inter = inter) := by
  refine (prepare_index (by omega) hsize).mono fun R hR => ?_
  obtain ⟨S, rfl, hS, hL, hfreq⟩ := hR
  have hrange := fun p hp => hcells p (mem_slots.mp hp).1 (mem_slots.mp hp).2
  refine ⟨⟨TextInv.of_slots rfl hpos fun p hp => (hrange p hp).1, ?_, hS, hL, hfreq,
    fun p hp => (hrange p hp).2⟩, rfl, rfl, rfl⟩
  dsimp only
  rw [length_slots]
  omega

/-- A text with more cells than the largest square of an `int` is not prepared. -/
theorem prepare_overflow {alph : Int} {inter : Block Int}
    (hsize : HeapInv.maxSqrtu * HeapInv.maxSqrtu < inter.size) :
    prepare alph inter = .error .overflow := by
  rw [prepare]
  dsimp only
  rw [createHeap, HeapInv.findSqrtu_overflow hsize]
  rfl

/-! ## The outer loop -/

section Run

variable {R : Repair} {ps : List Int} {alph : Int}

/-- One round of the outer loop: a turn, or the end. -/
theorem repairRound_meets (h : RepairInv R ps) (halph : R.n = alph + R.rule.length) :
    Run.Meets ProbeOnly (repairRound R) (fun s =>
      (s.1 = true ∧ ∃ ps', RepairInv s.2 ps' ∧ s.2.n = alph + s.2.rule.length ∧ s.2.c < R.c ∧
        Rewriting.Turn alph (R.view ps) (s.2.view ps')) ∨
      (s.1 = false ∧ s.2.u = R.u ∧ s.2.inter = R.inter ∧ s.2.rule = R.rule)) := by
  rw [repairRound]
  by_cases hleft : symbolsLeft R.n
  · rw [if_pos hleft]
    obtain ⟨id, H, hrun, hcase⟩ := h.index.extractMax_keeps
    rw [hrun, Run.ok_bind]
    dsimp only
    rcases hcase with ⟨rfl, -⟩ | ⟨hid, hindex, -⟩
    · rw [if_pos rfl, Run.meets_pure]
      exact Or.inr ⟨rfl, rfl, rfl, rfl⟩
    · have hid0 := hid.1
      rw [if_neg (by omega), Run.meets_bind]
      refine (repairTurn_meets h hid hindex halph).mono fun R' hR' => ?_
      obtain ⟨ps', h', hn, hc, hturn⟩ := hR'
      have hrules : R'.rule.length = R.rule.length + 1 := by
        rw [show R'.rule = R.rule ++ [_] from hturn.rules, List.length_append, List.length_singleton]
      exact Or.inl ⟨rfl, ps', h', by dsimp only; omega, hc, hturn.turn⟩
  · rw [if_neg hleft, Run.meets_pure]
    exact Or.inr ⟨rfl, rfl, rfl, rfl⟩

/-- The outer loop ends, and what it does is a run of the rewriting system. -/
theorem repairLoop_meets (k : Nat) (h : RepairInv R ps) (halph : R.n = alph + R.rule.length)
    (hk : R.c.toNat < k) :
    Run.Meets ProbeOnly (repairLoop k R) (fun R' => ∃ ps', TextInv R'.u R'.inter ps' ∧
      ReflTransGen (Rewriting.Turn alph) (R.view ps) (R'.view ps')) := by
  induction k generalizing R ps with
  | zero => omega
  | succ k ih =>
    rw [repairLoop, Run.meets_bind]
    refine (repairRound_meets h halph).mono fun s hs => ?_
    obtain ⟨b, R'⟩ := s
    rcases hs with ⟨rfl, ps', h', halph', hc, hturn⟩ | ⟨rfl, hu, hinter, hrule⟩
    · dsimp only at h' halph' hc hturn ⊢
      have := h'.c_pos
      rw [if_pos rfl]
      refine (ih h' halph' (by omega)).mono fun R'' hR'' => ?_
      obtain ⟨ps'', htext, hrun⟩ := hR''
      exact ⟨ps'', htext, hrun.head hturn⟩
    · dsimp only at hu hinter hrule ⊢
      rw [if_neg (by simp), Run.meets_pure, hu, hinter]
      refine ⟨ps, h.text, ?_⟩
      rw [Repair.view, Repair.view, hinter, hrule]

end Run

/-- The states at the head of the outer loop of `repair`. -/
inductive Reach (alph : Int) (inter : Block Int) : Repair → Prop
  | prepared {R : Repair} : prepare alph inter = .ok R → Reach alph inter R
  | turn {R R' : Repair} : Reach alph inter R → repairRound R = .ok (true, R') →
      Reach alph inter R'

/-- The representation invariant holds at the head of every iteration. -/
theorem Reach.repairInv {alph : Int} {inter : Block Int} {R : Repair} (h : Reach alph inter R)
    (hcells : ∀ p, 0 ≤ p → p < inter.size → 0 ≤ inter.cells p ∧ inter.cells p < alph)
    (hpos : 0 < inter.size) :
    ∃ ps, RepairInv R ps ∧ R.n = alph + R.rule.length := by
  induction h with
  | prepared hrun =>
    have hsize : inter.size ≤ HeapInv.maxSqrtu * HeapInv.maxSqrtu := by
      by_contra hn
      rw [prepare_overflow (by omega)] at hrun
      cases hrun
    obtain ⟨hinv, hn, hrule, -⟩ := (prepare_meets hsize hcells hpos).of_ok hrun
    exact ⟨_, hinv, by rw [hn, hrule]; simp⟩
  | turn _ hrun ih =>
    obtain ⟨ps, hinv, halph⟩ := ih
    rcases (repairRound_meets hinv halph).of_ok hrun with ⟨-, ps', h', halph', -⟩ | ⟨hf, -⟩
    · exact ⟨ps', h', halph'⟩
    · cases hf

end Laconic.RePair
