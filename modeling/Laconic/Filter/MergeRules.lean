import Laconic.Filter.MergeRule

/-!
# The rule filter: the loop over the rules

The rules have their turns in the order of their numbers.  At the end the flags that are on are
those of the dropped rules: a flag that was off at its rule's turn never comes on afterwards.
-/

namespace Laconic.Filter

open Slp Splice Relation

/-- All nodes. -/
def Node (V k : Nat) (v : Int) : Prop := 0 ≤ v ∧ v < (V : Int) + k

/-- The number of occurrences of a symbol in the graph. -/
def occurrences (vlist elist : List Int) (x : Int) : Nat := (Csr.rows vlist elist).flatten.count x

section Init

variable {vlist elist : List Int} {threshold : Int} {V k : Nat} {P : Int → Nat → Prop}

/-- The rows and columns of the input. -/
theorem GraphInv.init (h : RuleGraph vlist elist V k) {s : State}
    (hrow : s.graph.size = (V + k : Nat)) (hcol : s.graphT.size = (V + k : Nat))
    (hrows : ∀ v, v < V + k → s.graph.cells v = Csr.row vlist elist v)
    (hcount : ∀ x w, (s.graphT.cells x).count w =
      if 0 ≤ w ∧ w < (V + k : Nat) then (Csr.row vlist elist w.toNat).count x else 0) :
    GraphInv vlist elist V k (Node V k) s := by
  have hcells : ∀ v, Node V k v → v.toNat < V + k ∧
      s.graph.cells v = Csr.row vlist elist v.toNat := by
    rintro v ⟨h0, hlt⟩
    have := hrows v.toNat (by omega)
    rw [Int.toNat_of_nonneg h0] at this
    exact ⟨by omega, this⟩
  refine ⟨by rw [hrow]; omega, by rw [hcol]; omega, fun v hv => hv, fun v hv x hx => ?_,
    fun x _ v hv => ?_, fun x v _ hv => ?_, fun v hv hVv x hx => ?_, fun v hv ys => ?_,
    fun hne v hv hVv => ?_⟩
  · obtain ⟨hlt, hr⟩ := hcells v hv
    rw [hr] at hx
    exact h.entries _ hlt x hx
  · by_contra hout
    have hzero := hcount x v
    rw [if_neg (fun hin => hout ⟨hin.1, by have := hin.2; push_cast at this; omega⟩)] at hzero
    exact List.count_eq_zero.mp hzero hv
  · rw [hcount, if_pos ⟨hv.1, by have := hv.2; push_cast; omega⟩, (hcells v hv).2]
  · obtain ⟨hlt, hr⟩ := hcells v hv
    rw [hr] at hx
    exact TransGen.single ⟨_, csrRhs_row hVv, hx⟩
  · rw [(hcells v hv).2]
  · obtain ⟨hlt, hr⟩ := hcells v hv
    rw [hr, show v.toNat = V + (v.toNat - V) by omega]
    exact hne _ (by omega)

/-- The information about rule `i` before anything is inlined. -/
def firstInfo (V : Nat) (s : State) (i : Int) : RuleInfo :=
  ⟨(s.graph.cells (V + i)).length, (s.graphT.cells (V + i)).length⟩

/-- A rule whose information does not fit makes `initInfoForRule` overflow. -/
def InitFault (V k : Nat) (s : State) (e : Fault) : Prop :=
  e = .overflow ∧ ∃ i : Nat, i < k ∧ ¬ (firstInfo V s i).Fits

/-- `initInfoForRule` fills in lengths, frequencies and flags. -/
theorem initInfoForRule_meets {s₀ : State} (hrow : s₀.graph.size = (V + k : Nat))
    (hcol : s₀.graphT.size = (V + k : Nat)) (hrif : s₀.rif.size = k) (hflag : s₀.mergeFlag.size = k)
    (hP : ∀ i : Nat, i < k → P (s₀.graphT.cells (V + i)).length (s₀.graphT.cells (V + i)).length) :
    Run.Meets (InitFault V k s₀) (initInfoForRule threshold V k s₀) (fun s =>
      s.graph = s₀.graph ∧ s.graphT = s₀.graphT ∧
      (∀ i : Nat, i < k → s.rif.cells i = firstInfo V s₀ i) ∧
      InfoInv threshold V k P (Node V k) 0 s) := by
  -- the graphs are only read; the rules before `i` have their information
  have hstep : ∀ (i : Int) (s : State), i < k →
      (0 ≤ i ∧ s.graph = s₀.graph ∧ s.graphT = s₀.graphT ∧ s.rif.size = k ∧ s.mergeFlag.size = k ∧
        ∀ j, 0 ≤ j → j < i →
          s.rif.cells j = firstInfo V s₀ j ∧ (firstInfo V s₀ j).Fits ∧
          s.mergeFlag.cells j = judges threshold (s.rif.cells j).len (s.rif.cells j).freq) →
      Run.Meets (InitFault V k s₀) (do
        let col ← s.graphT.read (i + V)
        let row ← s.graph.read (i + V)
        updateInfo threshold i (fun _ => ⟨row.length, col.length⟩) s) (fun s =>
        0 ≤ i + 1 ∧ s.graph = s₀.graph ∧ s.graphT = s₀.graphT ∧ s.rif.size = k ∧
        s.mergeFlag.size = k ∧ ∀ j, 0 ≤ j → j < i + 1 →
          s.rif.cells j = firstInfo V s₀ j ∧ (firstInfo V s₀ j).Fits ∧
          s.mergeFlag.cells j = judges threshold (s.rif.cells j).len (s.rif.cells j).freq) := by
    rintro i s hi ⟨h0, hg, ht, hr, hf, hdone⟩
    have hb : 0 ≤ i + V ∧ i + V < (V + k : Nat) := ⟨by omega, by push_cast; omega⟩
    rw [Block.read_eq ⟨hb.1, by rw [ht, hcol]; exact hb.2⟩, Run.ok_bind,
      Block.read_eq ⟨hb.1, by rw [hg, hrow]; exact hb.2⟩, Run.ok_bind]
    have hinfo : (⟨(s.graph.cells (i + V)).length, (s.graphT.cells (i + V)).length⟩ : RuleInfo) =
        firstInfo V s₀ i := by rw [hg, ht, Int.add_comm, firstInfo]
    rw [hinfo]
    have hrif : s.rif.InB i := ⟨h0, by rw [hr]; exact hi⟩
    by_cases hfits : (firstInfo V s₀ i).Fits
    · rw [updateInfo_eq (fun _ => firstInfo V s₀ i) hrif ⟨h0, by rw [hf]; exact hi⟩ hfits]
      refine ⟨by omega, hg, ht, hr, hf, fun j hj0 hj => ?_⟩
      rw [State.setInfo]
      dsimp only
      by_cases hji : j = i
      · rw [hji, Block.cells_upd_self, Block.cells_upd_self]
        exact ⟨rfl, hfits, rfl⟩
      · rw [Block.cells_upd_ne _ _ hji, Block.cells_upd_ne _ _ hji]
        exact hdone j hj0 (by omega)
    · rw [updateInfo_overflow (fun _ => firstInfo V s₀ i) hrif hfits]
      exact ⟨rfl, i.toNat, by omega, by rwa [Int.toNat_of_nonneg h0]⟩
  refine (Run.meets_forLoop _ (k : Int) hstep k 0 s₀ (by omega)
    ⟨by omega, rfl, rfl, hrif, hflag, fun j _ _ => by omega⟩).mono fun s hs => ?_
  obtain ⟨-, hg, ht, hr, hf, hdone⟩ := hs
  have hlt : ∀ i, 0 ≤ i → Node V k (V + i) → i < k := fun i _ hi => by
    have := hi.2
    omega
  refine ⟨hg, ht, fun i hi => by rw [(hdone i (by omega) (by omega)).1], hr, hf,
    fun i h0 hi => ?_, fun i h0 hi => ?_, fun i h0 hi => (hdone i h0 (hlt i h0 hi)).2.2,
    fun i h0 hi => ?_, fun i h0 hc => by omega, fun i h0 hk hi => absurd ⟨by omega, by omega⟩ hi⟩
  · rw [(hdone i h0 (hlt i h0 hi)).1, hg, firstInfo]
  · have := hP i.toNat (by have := hlt i h0 hi; omega)
    rw [Int.toNat_of_nonneg h0] at this
    rw [(hdone i h0 (hlt i h0 hi)).1, ht, firstInfo]
    exact this
  · rw [(hdone i h0 (hlt i h0 hi)).1]
    exact (hdone i h0 (hlt i h0 hi)).2.1

/-- The information about rule `i` that the graph gives. -/
def ruleInfo (vlist elist : List Int) (V i : Nat) : RuleInfo :=
  ⟨(Csr.row vlist elist (V + i)).length, occurrences vlist elist (V + i)⟩

/-- A rule whose information does not fit makes the filter overflow at its start. -/
def StartFault (vlist elist : List Int) (V k : Nat) (e : Fault) : Prop :=
  e = .overflow ∧ ∃ i : Nat, i < k ∧ ¬ (ruleInfo vlist elist V i).Fits

/-- The state before the loop over the rules. -/
theorem initState_run (hvalid : Csr.Valid vlist elist) (hlength : vlist.length = V + k + 1)
    (hentries : ∀ v, v < V + k → ∀ x ∈ Csr.row vlist elist v, 0 ≤ x ∧ x < (V : Int) + k)
    (hP : ∀ i : Nat, i < k → P (occurrences vlist elist (V + i)) (occurrences vlist elist (V + i))) :
    Run.Meets (StartFault vlist elist V k) (initState threshold vlist elist V k) (fun s =>
      s.graph.size = (V + k : Nat) ∧ s.graphT.size = (V + k : Nat) ∧
      (∀ v : Nat, v < V + k → s.graph.cells v = Csr.row vlist elist v) ∧
      (∀ x w, (s.graphT.cells x).count w =
        if 0 ≤ w ∧ w < (V + k : Nat) then (Csr.row vlist elist w.toNat).count x else 0) ∧
      (∀ i : Nat, i < k → s.rif.cells i = ruleInfo vlist elist V i) ∧
      InfoInv threshold V k P (Node V k) 0 s) := by
  obtain ⟨g, hg, hgs, hrows⟩ := csrConvert_eq hvalid hlength
  obtain ⟨t, ht, hts, hlen, hcount⟩ := csrConvertIdx_eq hvalid hlength
    fun v hv x hx => by
      have := hentries v hv x hx
      push_cast
      exact this
  have hinfo : ∀ (rif : Block RuleInfo) (flags : Block Bool) (i : Nat), i < k →
      firstInfo V ⟨g, t, rif, flags⟩ i = ruleInfo vlist elist V i := by
    intro rif flags i hi
    have hrow := hrows (V + i) (by omega)
    push_cast at hrow
    rw [firstInfo, ruleInfo]
    dsimp only
    rw [hrow, hlen, occurrences]
  rw [initState, hg, Run.ok_bind, ht, Run.ok_bind]
  refine ((initInfoForRule_meets (P := P) hgs hts rfl rfl fun i hi => ?_).weaken
    fun e he => ?_).mono fun s hs => ?_
  · rw [hlen]
    exact hP i hi
  · obtain ⟨rfl, i, hi, hfits⟩ := he
    exact ⟨rfl, i, hi, by rwa [← hinfo _ _ i hi]⟩
  · obtain ⟨hsg, hst, hrif, hinv⟩ := hs
    exact ⟨by rw [hsg, hgs], by rw [hst, hts], fun v hv => by rw [hsg]; exact hrows v hv,
      fun x w => by rw [hst]; exact hcount x w, fun i hi => by rw [hrif i hi, hinfo _ _ i hi], hinv⟩

/-- The nodes are those of the input, and so are their rows. -/
theorem initState_meets (h : RuleGraph vlist elist V k)
    (hP : ∀ i : Nat, i < k → P (occurrences vlist elist (V + i)) (occurrences vlist elist (V + i))) :
    Run.Meets OverflowOnly (initState threshold vlist elist V k) (fun s =>
      GraphInv vlist elist V k (Node V k) s ∧ InfoInv threshold V k P (Node V k) 0 s ∧
      (∀ v : Nat, v < V + k → s.graph.cells v = Csr.row vlist elist v) ∧
      ∀ i : Nat, i < k → (s.rif.cells i).freq = occurrences vlist elist (V + i)) := by
  refine ((initState_run h.valid h.length h.entries hP).weaken fun e he => he.1).mono fun s hs => ?_
  obtain ⟨hgs, hts, hrows, hcount, hrif, hinfo⟩ := hs
  exact ⟨GraphInv.init h hgs hts hrows hcount, hinfo, hrows,
    fun i hi => by rw [hrif i hi, ruleInfo]⟩

end Init

section Loop

variable {vlist elist : List Int} {threshold c i : Int} {V k : Nat} {P : Int → Nat → Prop}
  {A : Int → Prop} {variant : Variant} {s : State}

/-- Dropping a rule whose flag is on. -/
theorem InfoInv.without (h : InfoInv threshold V k P A c s) (hflag : s.mergeFlag.cells i = true) :
    InfoInv threshold V k P (Without A (i + V)) c s := by
  refine ⟨h.rifSize, h.flagSize, fun j h0 hj => h.len j h0 hj.1, fun j h0 hj => h.freq j h0 hj.1,
    fun j h0 hj => h.flag j h0 hj.1, fun j h0 hj => h.fits j h0 hj.1,
    fun j h0 hc hj => h.passed j h0 hc hj.1, fun j h0 hk hj => ?_⟩
  by_cases hji : j = i
  · rw [hji, hflag]
  · exact h.dropped j h0 hk fun hA => hj ⟨hA, by omega⟩

/-- The turn of rule `c` is over. -/
theorem InfoInv.advance (h : InfoInv threshold V k P A c s)
    (hflag : A (V + c) → s.mergeFlag.cells c = false) : InfoInv threshold V k P A (c + 1) s := by
  refine ⟨h.rifSize, h.flagSize, h.len, h.freq, h.flag, h.fits, fun j h0 hc hj => ?_, h.dropped⟩
  by_cases hjc : j = c
  · subst hjc
    exact hflag hj
  · exact h.passed j h0 (by omega) hj

/-- Before the turn of rule `i`.  `Q` is what a client keeps up beside the graph. -/
def RoundInv (vlist elist : List Int) (threshold : Int) (V k : Nat) (P : Int → Nat → Prop)
    (Q : (Int → Prop) → State → Prop) (i : Int) (s : State) : Prop :=
  0 ≤ i ∧ ∃ A, GraphInv vlist elist V k A s ∧ InfoInv threshold V k P A i s ∧
    (∀ v : Int, 0 ≤ v → v < V → A v) ∧ (∀ j : Int, i ≤ j → j < k → A (V + j)) ∧ Q A s

/-- Inlining a rule whose flag is on keeps up `Q`. -/
def MergeKeeps (vlist elist : List Int) (threshold : Int) (V k : Nat) (P : Int → Nat → Prop)
    (Q : (Int → Prop) → State → Prop) : Prop :=
  ∀ ⦃A i s s'⦄, GraphInv vlist elist V k A s → InfoInv threshold V k P A i s → 0 ≤ i → A (i + V) →
    s.mergeFlag.cells i = true → Merged V A (i + V) s s' → Q A s → Q (Without A (i + V)) s'

/-- One turn: the rule stays as it is, or is inlined.  The flags of the rules before `c` stay off. -/
theorem mergeRound_cases (hac : Acyclic (csrRhs V V vlist elist))
    (hsafe : Safe variant threshold P c)
    (hne : 0 < c → ∀ i, i < k → Csr.row vlist elist (V + i) ≠ [])
    (hg : GraphInv vlist elist V k A s) (hik : s.mergeFlag.InB i) (hA : A (i + V)) {f : Int}
    (hself : P f (s.graphT.cells (i + V)).length)
    (hinfo : s.mergeFlag.cells i = true → InfoInv threshold V k P (Without A (i + V)) c s) :
    Run.Meets (MergeFault variant V (Without A (i + V)) (i + V) s)
      (mergeRound variant threshold V i s) (fun s' =>
      (s.mergeFlag.cells i = false ∧ s' = s) ∨
        (s.mergeFlag.cells i = true ∧ Merged V A (i + V) s s' ∧
          GraphInv vlist elist V k (Without A (i + V)) s' ∧
          InfoInv threshold V k P (Without A (i + V)) c s')) := by
  have h0 := hik.1
  unfold mergeRound
  rw [Block.read_eq hik, Run.ok_bind]
  cases hflag : s.mergeFlag.cells i with
  | false =>
    rw [if_neg Bool.false_ne_true, Run.meets_pure]
    exact Or.inl ⟨rfl, rfl⟩
  | true =>
    rw [if_pos rfl]
    refine (mergeRule_meets hsafe hne hac hg h0 hA hself (hinfo hflag)).mono fun s' hs' => ?_
    exact Or.inr ⟨rfl, hs'.1, hg.merged hac hA (by omega) hs'.1, hs'.2⟩

/-- One turn: the rule is inlined, or stays for good. -/
theorem mergeRound_meets {Q : (Int → Prop) → State → Prop} (hac : Acyclic (csrRhs V V vlist elist))
    (hne : ∀ i, i < k → Csr.row vlist elist (V + i) ≠ [])
    (hsafe : ∀ c, Safe variant threshold P c) (hQ : MergeKeeps vlist elist threshold V k P Q)
    (hik : i < k) (h : RoundInv vlist elist threshold V k P Q i s) :
    Run.Meets OverflowOnly (mergeRound variant threshold V i s)
      (RoundInv vlist elist threshold V k P Q (i + 1)) := by
  obtain ⟨h0, A, hg, hinfo, hvert, hlater, hq⟩ := h
  have hA := hlater i (Int.le_refl i) hik
  have hself := hinfo.freq i h0 hA
  rw [Int.add_comm] at hA hself
  refine ((mergeRound_cases hac (hsafe (i + 1)) (fun _ => hne) hg
    ⟨h0, by rw [hinfo.flagSize]; exact hik⟩ hA hself fun hflag =>
      (hinfo.without hflag).advance fun hw => absurd (Int.add_comm _ _) hw.2).weaken
    fun e he => he.overflow).mono fun s' hs' => ?_
  -- a rule that is inlined leaves `A`; the rules after it are still all there
  rcases hs' with ⟨hflag, rfl⟩ | ⟨hflag, hm, hg', hinfo'⟩
  · exact ⟨by omega, A, hg, hinfo.advance fun _ => hflag, hvert,
      fun j hj hk => hlater j (by omega) hk, hq⟩
  · exact ⟨by omega, _, hg', hinfo', fun v h0 hv => ⟨hvert v h0 hv, by omega⟩,
      fun j hj hk => ⟨hlater j (by omega) hk, by omega⟩, hQ hg hinfo h0 hA hflag hm hq⟩

/-- The whole loop. -/
theorem mergeRules_meets {Q : (Int → Prop) → State → Prop} (h : GrammarInput vlist elist V k)
    (hsafe : ∀ c, Safe variant threshold P c)
    (hP : ∀ i : Nat, i < k → P (occurrences vlist elist (V + i)) (occurrences vlist elist (V + i)))
    (hinit : ∀ s, (∀ v : Nat, v < V + k → s.graph.cells v = Csr.row vlist elist v) →
      Q (Node V k) s) (hQ : MergeKeeps vlist elist threshold V k P Q) :
    Run.Meets OverflowOnly (mergeRules variant threshold vlist elist V k)
      (RoundInv vlist elist threshold V k P Q k) := by
  unfold mergeRules
  rw [Run.meets_bind]
  refine (initState_meets h.ruleGraph hP).mono fun s hs => ?_
  obtain ⟨hg, hinfo, hrows, -⟩ := hs
  refine Run.meets_forLoop (RoundInv vlist elist threshold V k P Q) (k : Int)
    (fun i s hi hs => mergeRound_meets h.acyclic h.nonempty hsafe hQ hi hs) k 0 s (by omega) ?_
  exact ⟨Int.le_refl 0, _, hg, hinfo, fun v h0 hv => ⟨h0, by omega⟩,
    fun j hj hk => ⟨by omega, by omega⟩, hinit s hrows⟩

end Loop

end Laconic.Filter
