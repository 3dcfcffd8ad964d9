import Mathlib.Tactic.NormNum
import Laconic.Filter.Preserve

/-!
# The rule filter: when the two filters agree

The filters differ in one statement, which runs for the rules that an inlined rule refers to.  As
long as only rules are inlined whose own rules have all been inlined before, the statement never
runs: no frequency changes, and the rules that are inlined can be told from the input.
-/

namespace Laconic.Filter

open Slp Splice Relation

/-- The length of an entry when the rules of `t` are inlined; `t j` is the length of rule `j`. -/
def weight (V : Nat) (t : Nat → Option Nat) (x : Int) : Nat :=
  if x < V then 1 else (t (x - V).toNat).getD 1

/-- The length of a row when the rules of `t` are inlined. -/
def inlinedLen (V : Nat) (t : Nat → Option Nat) (row : List Int) : Nat :=
  (row.map (weight V t)).sum

/-- The rules before `i` that `judgeRule` drops, with their lengths, when the smaller dropped rules
are inlined and frequencies are those of the input. -/
def inlined (vlist elist : List Int) (V : Nat) (threshold : Int) : Nat → Nat → Option Nat
  | 0, _ => none
  | i + 1, j =>
    if j = i then
      let len := inlinedLen V (inlined vlist elist V threshold i) (Csr.row vlist elist (V + i))
      if judges threshold len (occurrences vlist elist (V + i)) then some len else none
    else inlined vlist elist V threshold i j

/-- The rules of a dropped rule are smaller and dropped as well. -/
def InlinesVertices (vlist elist : List Int) (V k : Nat) (threshold : Int) : Prop :=
  ∀ i, i < k → (inlined vlist elist V threshold (i + 1) i).isSome →
    ∀ x ∈ Csr.row vlist elist (V + i), (V : Int) ≤ x →
      (inlined vlist elist V threshold i (x - V).toNat).isSome

instance (vlist elist : List Int) (V k : Nat) (threshold : Int) :
    Decidable (InlinesVertices vlist elist V k threshold) :=
  inferInstanceAs (Decidable (∀ i, i < k → (inlined vlist elist V threshold (i + 1) i).isSome →
    ∀ x ∈ Csr.row vlist elist (V + i), (V : Int) ≤ x →
      (inlined vlist elist V threshold i (x - V).toNat).isSome))

section Inlined

variable {vlist elist : List Int} {threshold : Int} {V : Nat}

theorem inlined_of_le {i j : Nat} (h : i ≤ j) : inlined vlist elist V threshold i j = none := by
  induction i with
  | zero => rfl
  | succ i ih => rw [inlined, if_neg (by omega), ih (by omega)]

theorem inlined_succ_self (i : Nat) : inlined vlist elist V threshold (i + 1) i =
    if judges threshold (inlinedLen V (inlined vlist elist V threshold i)
      (Csr.row vlist elist (V + i))) (occurrences vlist elist (V + i))
    then some (inlinedLen V (inlined vlist elist V threshold i) (Csr.row vlist elist (V + i)))
    else none := by
  rw [inlined, if_pos rfl]

theorem inlined_succ_ne {i j : Nat} (h : j ≠ i) :
    inlined vlist elist V threshold (i + 1) j = inlined vlist elist V threshold i j := by
  rw [inlined, if_neg h]

/-- A rule that is not dropped changes nothing. -/
theorem inlined_succ_eq {i : Nat} (h : inlined vlist elist V threshold (i + 1) i = none) :
    inlined vlist elist V threshold (i + 1) = inlined vlist elist V threshold i := by
  funext j
  by_cases hj : j = i
  · rw [hj, h, inlined_of_le (Nat.le_refl i)]
  · exact inlined_succ_ne hj

/-- Inlining rule `i`, whose length is `len`, at each of its occurrences. -/
theorem inlinedLen_succ {i len : Nat} (h : inlined vlist elist V threshold (i + 1) i = some len)
    (row : List Int) :
    inlinedLen V (inlined vlist elist V threshold (i + 1)) row + row.count ((V : Int) + i) =
      inlinedLen V (inlined vlist elist V threshold i) row + row.count ((V : Int) + i) * len := by
  induction row with
  | nil => simp [inlinedLen]
  | cons x row ih =>
    simp only [inlinedLen, List.map_cons, List.sum_cons] at ih ⊢
    by_cases hx : x = (V : Int) + i
    · subst hx
      have hself : ((V : Int) + i - V).toNat = i := by omega
      have hnew : weight V (inlined vlist elist V threshold (i + 1)) (V + i) = len := by
        rw [weight, if_neg (by omega), hself, h]
        rfl
      have hold : weight V (inlined vlist elist V threshold i) (V + i) = 1 := by
        rw [weight, if_neg (by omega), hself, inlined_of_le (Nat.le_refl i)]
        rfl
      rw [hnew, hold, List.count_cons_self, Nat.add_mul]
      omega
    · have hsame : weight V (inlined vlist elist V threshold (i + 1)) x =
          weight V (inlined vlist elist V threshold i) x := by
        unfold weight
        split
        · rfl
        · rw [inlined_succ_ne (by omega)]
      rw [hsame, List.count_cons_of_ne hx]
      omega

end Inlined

/-- Before the turn of rule `i`: the rules told from the input are dropped, frequencies are as they
were, and the rules that are left occur where they did. -/
structure FlatInv (vlist elist : List Int) (threshold : Int) (V k : Nat) (i : Nat)
    (A : Int → Prop) (s : State) : Prop where
  graph : GraphInv vlist elist V k A s
  info : InfoInv threshold V k (fun _ _ => True) A 0 s
  vertices : ∀ v : Int, 0 ≤ v → v < V → A v
  alive : ∀ j : Nat, j < k → (A (V + j) ↔ inlined vlist elist V threshold i j = none)
  freq : ∀ j : Nat, j < k → A (V + j) → (s.rif.cells j).freq = occurrences vlist elist (V + j)
  count : ∀ v x, A v → A x → (V : Int) ≤ x →
    (s.graph.cells v).count x = (Csr.row vlist elist v.toNat).count x
  length : ∀ v, A v → (s.graph.cells v).length =
    inlinedLen V (inlined vlist elist V threshold i) (Csr.row vlist elist v.toNat)

theorem safe_any (variant : Variant) (threshold : Int) :
    Safe variant threshold (fun _ _ => True) 0 :=
  ⟨fun _ _ => trivial, fun h => absurd h (by decide), fun h => absurd h (by decide)⟩

section Lockstep

variable {vlist elist : List Int} {threshold : Int} {V k i : Nat} {A : Int → Prop} {s : State}

/-- The statement that differs does not run for vertices. -/
theorem updateChild_vertex (variant variant' : Variant) {ID child : Int} (hchild : child < V) :
    updateChild variant threshold V ID s child = updateChild variant' threshold V ID s child := by
  unfold updateChild
  simp only [if_neg (show ¬ (V : Int) ≤ child by omega)]

theorem foldlM_updateChild (variant variant' : Variant) {ID : Int} {children : List Int}
    (h : ∀ x ∈ children, x < (V : Int)) :
    children.foldlM (updateChild variant threshold V ID) s =
      children.foldlM (updateChild variant' threshold V ID) s := by
  induction children generalizing s with
  | nil => rw [List.foldlM_nil, List.foldlM_nil]
  | cons x children ih =>
    simp only [List.foldlM_cons, updateChild_vertex variant variant' (h x List.mem_cons_self)]
    refine congrArg (updateChild variant' threshold V ID s x >>= ·) (funext fun s' => ?_)
    exact ih fun y hy => h y (List.mem_cons_of_mem _ hy)

/-- A rule of vertices is merged alike. -/
theorem mergeRule_vertices (variant variant' : Variant) (hac : Acyclic (csrRhs V V vlist elist))
    (hg : GraphInv vlist elist V k A s) {r : Int} (h0 : 0 ≤ r) (hA : A (r + V))
    (hinfo : InfoInv threshold V k (fun _ _ => True) (Without A (r + V)) 0 s)
    (hbody : ∀ x ∈ s.graph.cells (r + V), x < (V : Int)) :
    mergeRule variant threshold V r s = mergeRule variant' threshold V r s := by
  have hall := insertAll_meets (safe_any variant threshold) (fun hc => absurd hc (by decide)) hac hg
    hA (by omega) hinfo
  unfold mergeRule
  dsimp only
  rw [Block.read_eq (hg.inB_col hA), Run.ok_bind, Run.ok_bind]
  cases hs : (s.graphT.cells (r + V)).foldlM (insertChildren threshold V (r + V)) s with
  | error e => rw [Run.error_bind, Run.error_bind]
  | ok s₁ =>
    rw [hs, Run.meets_ok] at hall
    have hin : s₁.graph.InB (r + V) := by
      rw [Block.InB, hall.splicing.size]
      exact hg.inB_row hA
    rw [Run.ok_bind, Run.ok_bind, Block.read_eq hin, Run.ok_bind, Run.ok_bind, hall.splicing.body]
    exact foldlM_updateChild variant variant' hbody

/-- The flag of rule `i` at its turn can be told from the input. -/
theorem FlatInv.flag_eq (h : FlatInv vlist elist threshold V k i A s) (hi : i < k) :
    s.mergeFlag.cells i = (inlined vlist elist V threshold (i + 1) i).isSome := by
  have hA : A (V + i) := (h.alive i hi).mpr (inlined_of_le (Nat.le_refl i))
  have hlen := h.length _ hA
  rw [show ((V : Int) + i).toNat = V + i by omega] at hlen
  rw [h.info.flag i (by omega) hA, h.freq i hi hA, h.info.len i (by omega) hA, hlen,
    inlined_succ_self]
  split
  · next hj =>
    rw [hj]
    rfl
  · next hj =>
    rw [Bool.not_eq_true] at hj
    rw [hj]
    rfl

/-- An inlined rule has no rules left. -/
theorem FlatInv.vertices_only {m : Nat} (h : FlatInv vlist elist threshold V k i A s)
    (hcond : InlinesVertices vlist elist V m threshold) (hi : i < k) (him : i < m)
    (hflag : s.mergeFlag.cells i = true) : ∀ x ∈ s.graph.cells (i + V), x < (V : Int) := by
  have hA : A (i + V) := by
    rw [Int.add_comm]
    exact (h.alive i hi).mpr (inlined_of_le (Nat.le_refl i))
  intro x hx
  by_contra hV
  have hxA := h.graph.closed _ hA x hx
  have hxr := h.graph.range x hxA
  -- the entry was there in the input, and its rule has been dropped since
  have hcount := h.count _ x hA hxA (by omega)
  have hmem : x ∈ Csr.row vlist elist (V + i) := by
    rw [show (((i : Nat) : Int) + V).toNat = V + i by omega] at hcount
    have hpos := List.count_pos_iff.mpr hx
    exact List.count_pos_iff.mp (by omega)
  rw [h.flag_eq hi] at hflag
  have hsome := hcond i him hflag x hmem (by omega)
  have hnone := (h.alive (x - V).toNat (by omega)).mp (by
    rwa [show (V : Int) + ((x - V).toNat : Nat) = x by omega])
  rw [hnone] at hsome
  cases hsome

/-- One turn of either filter. -/
theorem mergeRound_flat {m : Nat} (variant variant' : Variant)
    (hac : Acyclic (csrRhs V V vlist elist))
    (hcond : InlinesVertices vlist elist V m threshold) (hi : i < k) (him : i < m)
    (h : FlatInv vlist elist threshold V k i A s) :
    mergeRound variant threshold V i s = mergeRound variant' threshold V i s ∧
      Run.Meets OverflowOnly (mergeRound variant threshold V i s)
        (fun s' => ∃ A', FlatInv vlist elist threshold V k (i + 1) A' s') := by
  have hread : s.mergeFlag.read i = .ok (s.mergeFlag.cells i) :=
    Block.read_eq ⟨by omega, by rw [h.info.flagSize]; omega⟩
  have hflagEq := h.flag_eq hi
  unfold mergeRound
  rw [hread, Run.ok_bind, Run.ok_bind]
  cases hflag : s.mergeFlag.cells i with
  | false =>
    rw [hflag] at hflagEq
    have hnone : inlined vlist elist V threshold (i + 1) i = none := by
      rw [← Option.not_isSome_iff_eq_none, ← hflagEq]
      exact Bool.false_ne_true
    have hsame := inlined_succ_eq hnone
    rw [if_neg Bool.false_ne_true, if_neg Bool.false_ne_true, Run.meets_pure]
    refine ⟨rfl, ?_⟩
    exact ⟨A, h.graph, h.info, h.vertices, by rw [hsame]; exact h.alive, h.freq, h.count,
      by rw [hsame]; exact h.length⟩
  | true =>
    have hA : A (i + V) := by
      rw [Int.add_comm]
      exact (h.alive i hi).mpr (inlined_of_le (Nat.le_refl i))
    have hbody := h.vertices_only hcond hi him hflag
    have hinfo := h.info.without hflag
    refine ⟨by rw [if_pos rfl, if_pos rfl, mergeRule_vertices variant variant' hac h.graph
      (by omega) hA hinfo hbody],
      ?_⟩
    rw [if_pos rfl]
    refine ((mergeRule_meets (safe_any variant threshold) (fun hc => absurd hc (by decide)) hac
      h.graph (by omega) hA (f := 0) trivial hinfo).weaken fun e he => he.overflow).mono
      fun s' hs' => ?_
    obtain ⟨hm, hinfo'⟩ := hs'
    obtain ⟨len, hlen⟩ := Option.isSome_iff_exists.mp (hflagEq.symm.trans hflag)
    -- the length of the inlined row
    have hlenBody : (s.graph.cells (i + V)).length = len := by
      rw [h.length _ hA, show (((i : Nat) : Int) + V).toNat = V + i by omega]
      rw [inlined_succ_self] at hlen
      split at hlen
      · exact Option.some_inj.mp hlen
      · cases hlen
    have hnot : ∀ x, (V : Int) ≤ x → x ∉ s.graph.cells (i + V) := fun x hx hmem => by
      have := hbody x hmem
      omega
    refine ⟨Without A (i + V), h.graph.merged hac hA (by omega) hm, hinfo', fun v h0 hv =>
      ⟨h.vertices v h0 hv, by omega⟩, fun j hj => ?_, fun j hj hAj => ?_, fun v x hv hx hVx => ?_,
      fun v hv => ?_⟩
    · by_cases hji : j = i
      · subst hji
        rw [hlen]
        exact ⟨fun hw => absurd (Int.add_comm _ _) hw.2, fun hn => by cases hn⟩
      · rw [inlined_succ_ne hji, ← h.alive j hj]
        exact ⟨fun hw => hw.1, fun hw => ⟨hw, by omega⟩⟩
    · rw [hm.freqs j (hnot _ (by omega)), h.freq j hj hAj.1]
    · rw [hm.rows v hv, count_inline hx.2, List.count_eq_zero.mpr (hnot x hVx), Nat.mul_zero,
        Nat.add_zero, h.count v x hv.1 hx.1 hVx]
    · have hnew := inlinedLen_succ hlen (Csr.row vlist elist v.toNat)
      have hold : (inline ((i : Int) + V) (s.graph.cells (i + V)) (s.graph.cells v)).length +
          (s.graph.cells v).count ((i : Int) + V) = (s.graph.cells v).length +
          (s.graph.cells v).count ((i : Int) + V) * (s.graph.cells (i + V)).length := length_inline
      rw [h.count v _ hv.1 hA (by omega), h.length v hv.1, hlenBody] at hold
      rw [Int.add_comm (V : Int) i] at hnew
      rw [hm.rows v hv]
      omega

/-- Both filters go through the same states. -/
theorem forLoop_flat {m : Nat} (variant variant' : Variant)
    (hac : Acyclic (csrRhs V V vlist elist))
    (hcond : InlinesVertices vlist elist V m threshold) (hmk : m ≤ k) (n : Nat) :
    ∀ (i : Nat) (s : State) (A : Int → Prop), i + n = m →
      FlatInv vlist elist threshold V k i A s →
      Run.forLoop (mergeRound variant threshold V) n i s =
          Run.forLoop (mergeRound variant' threshold V) n i s ∧
        Run.Meets OverflowOnly (Run.forLoop (mergeRound variant threshold V) n i s)
          (fun s' => ∃ A', FlatInv vlist elist threshold V k m A' s') := by
  induction n with
  | zero =>
    intro i s A hik h
    obtain rfl : i = m := by omega
    rw [Run.forLoop, Run.forLoop]
    exact ⟨rfl, A, h⟩
  | succ n ih =>
    intro i s A hik h
    obtain ⟨heq, hmeets⟩ := mergeRound_flat variant variant' hac hcond (by omega) (by omega) h
    rw [Run.forLoop, Run.forLoop, ← heq]
    cases hs : mergeRound variant threshold V i s with
    | error e =>
      rw [hs] at hmeets
      rw [Run.error_bind, Run.error_bind]
      exact ⟨rfl, hmeets⟩
    | ok s' =>
      rw [hs, Run.meets_ok] at hmeets
      obtain ⟨A', h'⟩ := hmeets
      rw [Run.ok_bind, Run.ok_bind]
      exact ih (i + 1) s' A' (by omega) h'

/-- The input, before any rule has had its turn. -/
theorem initState_flat (h : GrammarInput vlist elist V k) :
    Run.Meets OverflowOnly (initState threshold vlist elist V k)
      (FlatInv vlist elist threshold V k 0 (Node V k)) := by
  refine (initState_meets (P := fun _ _ => True) h.ruleGraph fun _ _ => trivial).mono fun s hs => ?_
  obtain ⟨hg, hinfo, hrows, hfreq⟩ := hs
  have hcells : ∀ v, Node V k v → s.graph.cells v = Csr.row vlist elist v.toNat := by
    rintro v ⟨h0, hlt⟩
    have := hrows v.toNat (by omega)
    rwa [Int.toNat_of_nonneg h0] at this
  refine ⟨hg, hinfo, fun v h0 hv => ⟨h0, by omega⟩, fun j hj => ?_, fun j hj _ => hfreq j hj,
    fun v x hv _ _ => by rw [hcells v hv], fun v hv => ?_⟩
  · exact ⟨fun _ => rfl, fun _ => ⟨by omega, by omega⟩⟩
  · have hone : ∀ x : Int, weight V (inlined vlist elist V threshold 0) x = 1 := fun x => by
      unfold weight
      split <;> rfl
    rw [hcells v hv, inlinedLen,
      show weight V (inlined vlist elist V threshold 0) = fun _ => 1 from funext hone]
    simp

/-- The state before the turn of rule `m`. -/
def firstRounds (variant : Variant) (threshold : Int) (vlist elist : List Int) (V k m : Nat) :
    Run State := do
  let s ← initState threshold vlist elist V k
  Run.forLoop (mergeRound variant threshold V) m 0 s

theorem firstRounds_flat {m : Nat} (variant variant' : Variant) (h : GrammarInput vlist elist V k)
    (hcond : InlinesVertices vlist elist V m threshold) (hmk : m ≤ k) :
    firstRounds variant threshold vlist elist V k m =
        firstRounds variant' threshold vlist elist V k m ∧
      Run.Meets OverflowOnly (firstRounds variant threshold vlist elist V k m)
        (fun s => ∃ A, FlatInv vlist elist threshold V k m A s) := by
  have hinit : Run.Meets OverflowOnly (initState threshold vlist elist V k) _ := initState_flat h
  unfold firstRounds
  cases hs : initState threshold vlist elist V k with
  | error e =>
    rw [hs] at hinit
    rw [Run.error_bind, Run.error_bind]
    exact ⟨rfl, hinit⟩
  | ok s =>
    rw [hs, Run.meets_ok] at hinit
    rw [Run.ok_bind, Run.ok_bind]
    exact forLoop_flat variant variant' h.acyclic hcond hmk m 0 s _ (by omega) hinit

/-- Offsets that fit an `int` fit the `uint32_t` of the parallel core. -/
theorem genNewGraphCSR_parallel {ids : Block Int} {out : List Int × List Int}
    (h : genNewGraphCSR serial s ids V k = .ok out) : genNewGraphCSR parallel s ids V k = .ok out := by
  refine Run.forLoop_ok_mono (fun v o o' hv => ?_) (V + k) 0 ([0], []) out h
  unfold pushNode at hv ⊢
  cases hrow : s.graph.read v with
  | error e =>
    rw [hrow] at hv
    cases hv
  | ok row =>
    rw [hrow, Run.ok_bind] at hv
    rw [Run.ok_bind]
    cases hd : isDropped s.mergeFlag V v with
    | error e =>
      rw [hd] at hv
      cases hv
    | ok dropped =>
      rw [hd, Run.ok_bind] at hv
      rw [Run.ok_bind]
      cases dropped with
      | true =>
        rw [if_pos rfl] at hv ⊢
        exact hv
      | false =>
        rw [if_neg Bool.false_ne_true] at hv ⊢
        generalize List.foldlM (m := Run) _ o.2 row = r at hv ⊢
        cases r with
        | error e => cases hv
        | ok elist =>
          rw [Run.ok_bind] at hv ⊢
          by_cases hb : (elist.length : Int) < serial.offsetBound
          · have hb' : (elist.length : Int) < parallel.offsetBound :=
              Int.lt_trans hb (show (2 ^ 31 : Int) < 2 ^ 32 by norm_num)
            rw [if_pos hb] at hv
            rw [if_pos hb']
            exact hv
          · rw [if_neg hb] at hv
            cases hv

end Lockstep

/-- Both filters get to the same state before the turn of rule `i`, which is inlined although it
still contains a rule: here the update of `freq` differs. -/
def ReachesUpdate (vlist elist : List Int) (V k : Nat) (threshold : Int) (i : Nat) : Prop :=
  firstRounds serial threshold vlist elist V k i =
      firstRounds parallel threshold vlist elist V k i ∧
    Run.Meets OverflowOnly (firstRounds serial threshold vlist elist V k i)
      (fun s => s.mergeFlag.cells i = true ∧ ∃ x ∈ s.graph.cells (V + i), (V : Int) ≤ x)

section Agree

variable {vlist elist : List Int} {V k : Nat} {threshold : Int}

/-- The first rule that is inlined before its rules. -/
theorem exists_reachesUpdate (h : GrammarInput vlist elist V k)
    (hcond : ¬ InlinesVertices vlist elist V k threshold) :
    ∃ i, i < k ∧ ReachesUpdate vlist elist V k threshold i := by
  have hex : ∃ i, ¬ InlinesVertices vlist elist V (i + 1) threshold ∧ i < k := by
    by_contra hno
    exact hcond fun i hi => by
      by_contra hbad
      exact hno ⟨i, fun hall => hbad (hall i (Nat.lt_succ_self i)), hi⟩
  -- before the first such rule the condition holds
  obtain ⟨⟨hbad, hik⟩, hmin⟩ := Nat.find_spec hex, fun m hm => Nat.find_min hex (m := m) hm
  generalize Nat.find hex = i at hbad hik hmin
  have hbefore : InlinesVertices vlist elist V i threshold := by
    intro j hj
    by_contra hbadj
    exact hmin j hj ⟨fun hall => hbadj (hall j (Nat.lt_succ_self j)), by omega⟩
  obtain ⟨heq, hmeets⟩ := firstRounds_flat serial parallel h hbefore (Nat.le_of_lt hik)
  refine ⟨i, hik, heq, hmeets.mono fun s hs => ?_⟩
  obtain ⟨A, hf⟩ := hs
  have hA : A (V + i) := (hf.alive i hik).mpr (inlined_of_le (Nat.le_refl i))
  have hself : ¬ ((inlined vlist elist V threshold (i + 1) i).isSome →
      ∀ x ∈ Csr.row vlist elist (V + i), (V : Int) ≤ x →
        (inlined vlist elist V threshold i (x - V).toNat).isSome) := fun hgood =>
    hbad fun j hj => by
      rcases Nat.lt_or_eq_of_le (Nat.lt_succ_iff.mp hj) with hlt | rfl
      · exact hbefore j hlt
      · exact hgood
  rw [not_forall] at hself
  obtain ⟨hsome, hself⟩ := hself
  refine ⟨(hf.flag_eq hik).trans hsome, ?_⟩
  by_contra hno
  refine hself fun x hx hV => ?_
  -- a rule of the input that is left is still there
  by_contra hnone
  rw [Option.not_isSome_iff_eq_none] at hnone
  have hxr := h.entries (V + i) (by omega) x hx
  have hxA : A x := by
    have := (hf.alive (x - V).toNat (by omega)).mpr hnone
    rwa [show (V : Int) + ((x - V).toNat : Nat) = x by omega] at this
  have hcount := hf.count _ x hA hxA hV
  rw [show ((V : Int) + i).toNat = V + i by omega] at hcount
  have hpos := List.count_pos_iff.mpr hx
  exact hno ⟨x, List.count_pos_iff.mp (by omega), hV⟩

end Agree

end Laconic.Filter
