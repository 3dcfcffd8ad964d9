import Laconic.Filter.Convert

/-!
# The rule filter: the invariant of inlining

The nodes that are not dropped form a graph: their rows and columns belong together, and their rows
have the expansions they had in the input.  Inlining a rule keeps this up, whatever the order of the
rules.  What a variant of the filter does with `freq` matters for the flags only.
-/

namespace Laconic.Filter

open Slp Splice Relation
open RePair (intBound toInt)

/-- A compressed graph with `V` vertices and `k` rules: no rule is empty or leads back to itself. -/
structure GrammarInput (vlist elist : List Int) (V k : Nat) : Prop where
  valid : Csr.Valid vlist elist
  length : vlist.length = V + k + 1
  entries : ∀ v, v < V + k → ∀ x ∈ Csr.row vlist elist v, 0 ≤ x ∧ x < (V : Int) + k
  acyclic : Acyclic (csrRhs V V vlist elist)
  nonempty : ∀ i, i < k → Csr.row vlist elist (V + i) ≠ []

theorem GrammarInput.ruleGraph {vlist elist : List Int} {V k : Nat}
    (h : GrammarInput vlist elist V k) : RuleGraph vlist elist V k :=
  ⟨h.valid, h.length, h.entries, h.acyclic⟩

/-- The rows and columns of the nodes `A`, which are the ones that are not dropped. -/
structure GraphInv (vlist elist : List Int) (V k : Nat) (A : Int → Prop) (s : State) : Prop where
  rowSize : s.graph.size = (V : Int) + k
  colSize : s.graphT.size = (V : Int) + k
  range : ∀ v, A v → 0 ≤ v ∧ v < (V : Int) + k
  closed : ∀ v, A v → ∀ x ∈ s.graph.cells v, A x
  colClosed : ∀ x, A x → ∀ v ∈ s.graphT.cells x, A v
  link : ∀ x v, A x → A v → (s.graphT.cells x).count v = (s.graph.cells v).count x
  refs : ∀ v, A v → (V : Int) ≤ v → ∀ x ∈ s.graph.cells v,
    TransGen (Refers (csrRhs V V vlist elist)) v x
  expands : ∀ v, A v → ∀ ys, Expands (csrRhs V V vlist elist) (s.graph.cells v) ys ↔
    Expands (csrRhs V V vlist elist) (Csr.row vlist elist v.toNat) ys
  nonempty : (∀ i, i < k → Csr.row vlist elist (V + i) ≠ []) →
    ∀ v, A v → (V : Int) ≤ v → s.graph.cells v ≠ []

/-- The verdict of `judgeRule`. -/
def judges (threshold len freq : Int) : Bool := decide ((freq - 1) * (len - 1) - 1 ≤ threshold)

/-- Length, frequency and the product that `judgeRule` takes of them are `int`s. -/
def RuleInfo.Fits (info : RuleInfo) : Prop :=
  info.len < intBound ∧ info.freq < intBound ∧ (info.freq - 1) * (info.len - 1) < intBound

instance (info : RuleInfo) : Decidable info.Fits := inferInstanceAs (Decidable (_ ∧ _ ∧ _))

/-- Lengths, frequencies and flags.  `P` relates the frequency to the size of the column; the flags
of the rules before `c` that are not dropped are off. -/
structure InfoInv (threshold : Int) (V k : Nat) (P : Int → Nat → Prop) (A : Int → Prop) (c : Int)
    (s : State) : Prop where
  rifSize : s.rif.size = k
  flagSize : s.mergeFlag.size = k
  len : ∀ i : Int, 0 ≤ i → A (V + i) → (s.rif.cells i).len = (s.graph.cells (V + i)).length
  freq : ∀ i : Int, 0 ≤ i → A (V + i) → P (s.rif.cells i).freq (s.graphT.cells (V + i)).length
  flag : ∀ i : Int, 0 ≤ i → A (V + i) →
    s.mergeFlag.cells i = judges threshold (s.rif.cells i).len (s.rif.cells i).freq
  fits : ∀ i : Int, 0 ≤ i → A (V + i) → (s.rif.cells i).Fits
  passed : ∀ i : Int, 0 ≤ i → i < c → A (V + i) → s.mergeFlag.cells i = false
  dropped : ∀ i : Int, 0 ≤ i → i < k → ¬ A (V + i) → s.mergeFlag.cells i = true

/-- What the update of `freq` has to do: keep `P`, and never turn on the flag of a rule that has had
its turn. -/
structure Safe (variant : Variant) (threshold : Int) (P : Int → Nat → Prop) (c : Int) : Prop where
  step : ∀ {f g n m}, P f (n + 1) → P g m → P (variant.bump f (n + m : Nat)) (n + m)
  grow : 0 < c → ∀ {f g n m}, P f (n + 1) → P g m → f ≤ variant.bump f (n + m : Nat)
  keep : 0 < c → ∀ {f f' n len len'}, P f n → 1 ≤ len → judges threshold len f = false →
    len ≤ len' → f ≤ f' → judges threshold len' f' = false

def OverflowOnly (e : Fault) : Prop := e = .overflow

section Update

variable {threshold : Int} {s : State}

theorem toInt_meets (x : Int) : Run.Meets OverflowOnly (toInt x) (fun y => y = x) := by
  unfold toInt
  rw [Run.meets_ite]
  exact ⟨fun _ => rfl, fun _ => rfl⟩

/-- The state after `updateInfo`. -/
def State.setInfo (s : State) (threshold i : Int) (info : RuleInfo) : State :=
  { s with
    rif := s.rif.upd i fun _ => info
    mergeFlag := s.mergeFlag.upd i fun _ => judges threshold info.len info.freq }

/-- The information of one rule changes, and its flag with it, if it fits. -/
theorem updateInfo_eq {i : Int} (f : RuleInfo → RuleInfo) (hr : s.rif.InB i)
    (hf : s.mergeFlag.InB i) (hfits : (f (s.rif.cells i)).Fits) :
    updateInfo threshold i f s = .ok (s.setInfo threshold i (f (s.rif.cells i))) := by
  obtain ⟨hlen, hfreq, hprod⟩ := hfits
  rw [updateInfo, Block.read_eq hr, Run.ok_bind, toInt, if_pos hlen, Run.pure_bind, toInt,
    if_pos hfreq, Run.pure_bind, Block.write_eq hr, Run.ok_bind, judgeRule, toInt, if_pos hprod,
    Run.pure_bind, Run.pure_bind, Block.write_eq hf, Run.ok_bind]
  rfl

theorem updateInfo_overflow {i : Int} (f : RuleInfo → RuleInfo) (hr : s.rif.InB i)
    (hfits : ¬ (f (s.rif.cells i)).Fits) : updateInfo threshold i f s = .error .overflow := by
  rw [updateInfo, Block.read_eq hr, Run.ok_bind]
  by_cases hlen : (f (s.rif.cells i)).len < intBound
  · by_cases hfreq : (f (s.rif.cells i)).freq < intBound
    · rw [toInt, if_pos hlen, Run.pure_bind, toInt, if_pos hfreq, Run.pure_bind, Block.write_eq hr,
        Run.ok_bind, judgeRule, toInt, if_neg fun hprod => hfits ⟨hlen, hfreq, hprod⟩]
      rfl
    · rw [toInt, if_pos hlen, Run.pure_bind, toInt, if_neg hfreq]
      rfl
  · rw [toInt, if_neg hlen]
    rfl

theorem updateInfo_meets {i : Int} (f : RuleInfo → RuleInfo) (hr : s.rif.InB i)
    (hf : s.mergeFlag.InB i) :
    Run.Meets (fun e => e = .overflow ∧ ¬ (f (s.rif.cells i)).Fits) (updateInfo threshold i f s)
      (fun s' => s' = s.setInfo threshold i (f (s.rif.cells i)) ∧ (f (s.rif.cells i)).Fits) := by
  by_cases hfits : (f (s.rif.cells i)).Fits
  · rw [updateInfo_eq f hr hf hfits]
    exact ⟨rfl, hfits⟩
  · rw [updateInfo_overflow f hr hfits]
    exact ⟨rfl, hfits⟩

theorem replaceFirst_eq {ID : Int} {row : List Int} (body : List Int) (h : ID ∈ row) :
    ∃ row', replaceFirst ID body row = .ok row' ∧ Spliced ID body row row' := by
  obtain ⟨row', hrow, hs⟩ := exists_splice body h
  refine ⟨row', ?_, hs⟩
  rw [replaceFirst, hrow]
  rfl

end Update

/-- Lengths, frequencies and flags after a change of one rule. -/
theorem InfoInv.update {threshold c : Int} {V k : Nat} {P : Int → Nat → Prop} {A : Int → Prop}
    {s : State} (h : InfoInv threshold V k P A c s) {g t : Block (List Int)} {j : Int}
    {info : RuleInfo} (hA : A (V + j)) (hfits : info.Fits)
    (hrows : ∀ i, i ≠ j → g.cells (V + i) = s.graph.cells (V + i))
    (hcols : ∀ i, i ≠ j → t.cells (V + i) = s.graphT.cells (V + i))
    (hlen : info.len = (g.cells (V + j)).length) (hfreq : P info.freq (t.cells (V + j)).length)
    (hpassed : j < c → judges threshold info.len info.freq = false) :
    InfoInv threshold V k P A c ⟨g, t, s.rif.upd j fun _ => info,
      s.mergeFlag.upd j fun _ => judges threshold info.len info.freq⟩ := by
  refine ⟨h.rifSize, h.flagSize, fun i h0 hi => ?_, fun i h0 hi => ?_, fun i h0 hi => ?_,
    fun i h0 hi => ?_, fun i h0 hc hi => ?_, fun i h0 hk hi => ?_⟩
  · dsimp only
    by_cases hij : i = j
    · subst hij
      rw [Block.cells_upd_self, hlen]
    · rw [Block.cells_upd_ne _ _ hij, hrows i hij]
      exact h.len i h0 hi
  · dsimp only
    by_cases hij : i = j
    · subst hij
      rw [Block.cells_upd_self]
      exact hfreq
    · rw [Block.cells_upd_ne _ _ hij, hcols i hij]
      exact h.freq i h0 hi
  · dsimp only
    by_cases hij : i = j
    · subst hij
      rw [Block.cells_upd_self, Block.cells_upd_self]
    · rw [Block.cells_upd_ne _ _ hij, Block.cells_upd_ne _ _ hij]
      exact h.flag i h0 hi
  · dsimp only
    by_cases hij : i = j
    · subst hij
      rw [Block.cells_upd_self]
      exact hfits
    · rw [Block.cells_upd_ne _ _ hij]
      exact h.fits i h0 hi
  · dsimp only
    by_cases hij : i = j
    · subst hij
      rw [Block.cells_upd_self]
      exact hpassed hc
    · rw [Block.cells_upd_ne _ _ hij]
      exact h.passed i h0 hc hi
  · dsimp only
    rw [Block.cells_upd_ne _ _ (by rintro rfl; exact hi hA)]
    exact h.dropped i h0 hk hi

/-- Nothing depends on the rows and columns of the vertices. -/
theorem InfoInv.congr {threshold c : Int} {V k : Nat} {P : Int → Nat → Prop} {A : Int → Prop}
    {s : State} (h : InfoInv threshold V k P A c s) {g t : Block (List Int)}
    (hrows : ∀ i, 0 ≤ i → g.cells (V + i) = s.graph.cells (V + i))
    (hcols : ∀ i, 0 ≤ i → t.cells (V + i) = s.graphT.cells (V + i)) :
    InfoInv threshold V k P A c ⟨g, t, s.rif, s.mergeFlag⟩ :=
  ⟨h.rifSize, h.flagSize, fun i h0 hi => by rw [hrows i h0]; exact h.len i h0 hi,
    fun i h0 hi => by rw [hcols i h0]; exact h.freq i h0 hi, h.flag, h.fits, h.passed,
    h.dropped⟩

end Laconic.Filter
