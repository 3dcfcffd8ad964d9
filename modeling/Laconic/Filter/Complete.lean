import Laconic.Filter.Size

/-!
# The rule filter: what is left, and how large it is

At the end of the serial filter length and frequency of every rule that is left are those of the
returned graph, so a second run finds nothing to inline and returns the same graph.
-/

namespace Laconic.Filter

open RePair (Compressed intBound)

/-! ## References in the returned graph -/

theorem count_map_of_inj {f : Int → Int} {x : Int} {l : List Int}
    (hf : ∀ y ∈ l, f y = f x → y = x) : (l.map f).count (f x) = l.count x := by
  rw [List.count_eq_countP, List.countP_map, List.count_eq_countP]
  refine List.countP_congr fun y hy => ?_
  rw [Function.comp_apply, beq_iff_eq, beq_iff_eq]
  exact ⟨hf y hy, congrArg f⟩

theorem count_flatten_newRows {V : Nat} {s : State} (x : Int) (n : Nat) :
    (newRows V s n).flatten.count x = ∑ v ∈ Finset.range n,
      if kept V s v = true then ((s.graph.cells v).map fun x => (number V s x.toNat : Int)).count x
      else 0 := by
  induction n with
  | zero => rfl
  | succ n ih =>
    rw [Finset.sum_range_succ, ← ih, newRows_succ]
    split
    · rw [List.flatten_concat, List.count_append]
    · rw [List.append_nil, Nat.add_zero]

namespace Rebuilt

variable {vlist elist : List Int} {V k : Nat} {A : Int → Prop} {s : State} {out : Compressed}

theorem number_inj (h : Rebuilt vlist elist V k A s out) {v w : Int} (hv : A v) (hw : A w)
    (heq : number V s v.toNat = number V s w.toNat) : v = w := by
  have hrv := h.graph.range v hv
  have hrw := h.graph.range w hw
  have := Nat.count_injective ((h.left v hrv).mpr hv) ((h.left w hrw).mpr hw) heq
  omega

/-- The column of a node that is left counts the references in the new graph. -/
theorem occurrences_number (h : Rebuilt vlist elist V k A s out) {x : Int} (hx : A x) :
    occurrences out.vlist out.elist (number V s x.toNat) = (s.graphT.cells x).length := by
  -- both sides are sums over the rows that are left
  rw [occurrences, h.vlist_eq, h.elist_eq, Csr.rows_offsets, count_flatten_newRows,
    h.graph.length_col hx, live_eq h.left, Finset.sum_filter]
  refine Finset.sum_congr rfl fun v hv => ?_
  rw [Finset.mem_range] at hv
  split
  · next hk =>
    have hA : A v := (h.left v ⟨by omega, by omega⟩).mp hk
    refine count_map_of_inj (f := fun x => (number V s x.toNat : Int)) fun y hy heq => ?_
    exact h.number_inj (h.graph.closed v hA y hy) hx (Int.ofNat_inj.mp heq)
  · rfl

/-- A rule of the new graph and the rule that it comes from. -/
theorem exists_rule (h : Rebuilt vlist elist V k A s out) {i : Nat} (hi : (i : Int) < out.ruleCnt) :
    ∃ j : Int, 0 ≤ j ∧ j < k ∧ A (V + j) ∧
      ruleInfo out.vlist out.elist V i =
        ⟨(s.graph.cells (V + j)).length, (s.graphT.cells (V + j)).length⟩ := by
  rw [h.ruleCnt_eq] at hi
  obtain ⟨v, hA, hv⟩ := h.exists_number (show V + i < number V s (V + k) by omega)
  have hr := h.graph.range v hA
  -- a vertex keeps its number, so the node is a rule
  have hV : (V : Int) ≤ v := by
    by_contra hlt
    rw [number_vertex (by omega)] at hv
    omega
  have hvV : (V : Int) + (v - V) = v := by omega
  refine ⟨v - V, by omega, by omega, by rwa [hvV], ?_⟩
  have hcol := h.occurrences_number hA
  rw [ruleInfo, hvV, ← hv, h.row_number hA, List.length_map, ← hcol, hv]
  push_cast
  rfl

end Rebuilt

/-! ## A graph with nothing to inline -/

section Fixed

variable {vlist elist : List Int} {threshold : Int} {V k : Nat} {variant : Variant}

theorem newRows_of_kept {s : State} (hkept : ∀ v, v < V + k → kept V s v = true)
    (hlength : vlist.length = V + k + 1)
    (hrows : ∀ v : Nat, v < V + k → s.graph.cells v = Csr.row vlist elist v)
    (hentries : ∀ v, v < V + k → ∀ x ∈ Csr.row vlist elist v, 0 ≤ x ∧ x < (V : Int) + k) :
    number V s (V + k) = V + k ∧ newRows V s (V + k) = Csr.rows vlist elist := by
  have hnumber : ∀ v, v ≤ V + k → number V s v = v := fun v hv =>
    Nat.count_of_forall fun w hw => hkept w (by omega)
  refine ⟨hnumber _ (Nat.le_refl _), ?_⟩
  rw [newRows, Csr.rows, hlength, Nat.add_sub_cancel,
    List.filter_eq_self.mpr fun v hv => hkept v (List.mem_range.mp hv)]
  refine List.map_congr_left fun v hv => ?_
  rw [List.mem_range] at hv
  rw [hrows v hv]
  refine (List.map_congr_left fun x hx => ?_).trans (List.map_id _)
  have hr := hentries v hv x hx
  rw [hnumber _ (by omega), Int.toNat_of_nonneg hr.1, id]

/-- No flag is on, so that the filter returns what it was given. -/
theorem filterCsrOf_fixed (hvalid : Csr.Valid vlist elist) (hlength : vlist.length = V + k + 1)
    (hlast : vlist.getLast? = some (elist.length : Int))
    (hentries : ∀ v, v < V + k → ∀ x ∈ Csr.row vlist elist v, 0 ≤ x ∧ x < (V : Int) + k)
    (hfits : ∀ i, i < k → (ruleInfo vlist elist V i).Fits)
    (hoff : ∀ i, i < k → judges threshold (ruleInfo vlist elist V i).len
      (ruleInfo vlist elist V i).freq = false)
    (hbound : (elist.length : Int) < variant.offsetBound) :
    filterCsrOf variant vlist elist V k threshold = .ok ⟨vlist, elist, V, k⟩ := by
  have hinit : Run.Meets _ (initState threshold vlist elist V k) _ :=
    initState_run (P := fun _ _ => True) hvalid hlength hentries fun _ _ => trivial
  obtain ⟨s, hs, hgs, -, hrows, -, hrif, hinfo⟩ := hinit.exists_ok fun e he => by
    obtain ⟨-, i, hi, hn⟩ := he
    exact absurd (hfits i hi) hn
  have hflag : ∀ i : Nat, i < k → s.mergeFlag.cells i = false := fun i hi => by
    rw [hinfo.flag i (by omega) ⟨by omega, by omega⟩, hrif i hi]
    exact hoff i hi
  -- every round of `mergeRules` finds its flag off
  have hround : ∀ (i : Int) (s' : State), i < k → (0 ≤ i ∧ s' = s) →
      Run.Meets (fun _ => False) (mergeRound variant threshold V i s')
        (fun s' => 0 ≤ i + 1 ∧ s' = s) := by
    rintro i s' hi ⟨h0, rfl⟩
    have hcell := hflag i.toNat (by omega)
    rw [Int.toNat_of_nonneg h0] at hcell
    rw [mergeRound, Block.read_eq ⟨h0, by rw [hinfo.flagSize]; exact hi⟩, Run.ok_bind, hcell,
      if_neg Bool.false_ne_true, Run.meets_pure]
    exact ⟨by omega, rfl⟩
  obtain ⟨s', hloop, -, hs'⟩ := (Run.meets_forLoop _ (k : Int) hround k 0 s (by omega)
    ⟨Int.le_refl 0, rfl⟩).exists_ok fun e he => he.elim
  rw [hs'] at hloop
  have hkept : ∀ v, v < V + k → kept V s v = true := fun v hv => by
    by_cases hV : v < V
    · exact kept_vertex hV
    · rw [show v = V + (v - V) by omega, kept_rule, hflag _ (by omega)]
      rfl
  -- with all rules left the numbers are the old ones
  obtain ⟨hnumber, hnew⟩ := newRows_of_kept hkept hlength hrows hentries
  obtain ⟨hvl, hel⟩ := hvalid.eq_offsets hlast
  obtain ⟨ids, hids, hsize, hcells⟩ := genNewIdForRule_eq (V := V) hinfo.flagSize
  have hwrite : Run.Meets _ (genNewGraphCSR variant s ids V k) _ :=
    genNewGraphCSR_meets hsize hcells (by rw [hgs]; push_cast; rfl) hinfo.flagSize
      fun v hv _ x hx => by
        rw [hrows v hv] at hx
        exact hentries v hv x hx
  obtain ⟨out, hout, hout₁, hout₂, -⟩ := hwrite.exists_ok fun e he => by
    have hge := he.2
    rw [hnew, ← hel] at hge
    omega
  rw [hnew, ← hvl] at hout₁
  rw [hnew, ← hel] at hout₂
  rw [filterCsrOf, mergeRules, hs, Run.ok_bind, hloop, Run.ok_bind, hids, Run.ok_bind]
  dsimp only
  rw [hout, Run.ok_bind, hout₁, hout₂, hnumber]
  push_cast
  rw [show (V : Int) + k - V = k by omega]
  rfl

end Fixed

/-! ## The serial filter -/

section Serial

variable {vlist elist : List Int} {threshold : Int} {V k : Nat}

/-- Every rule is referred to. -/
theorem exactFreq_of_used (h : GrammarInput vlist elist V k)
    (hused : ∀ i, i < k → ∃ v, v < V + k ∧ ((V + i : Nat) : Int) ∈ Csr.row vlist elist v) (i : Nat)
    (hi : i < k) : ExactFreq (occurrences vlist elist (V + i)) (occurrences vlist elist (V + i)) := by
  obtain ⟨v, hv, hmem⟩ := hused i hi
  exact ⟨rfl, occurrences_pos h hv (by push_cast at hmem; exact hmem)⟩

/-- Each dropped rule has made the graph longer by at most `threshold - 1`. -/
def Economical (N V k : Nat) (threshold : Int) (A : Int → Prop) (s : State) : Prop :=
  (size V k A s : Int) ≤ N + ((V : Int) + k - (live V k A).card) * (threshold - 1)

theorem economical_init (s : State) (hvalid : Csr.Valid vlist elist)
    (hlength : vlist.length = V + k + 1)
    (hrows : ∀ v : Nat, v < V + k → s.graph.cells v = Csr.row vlist elist v) :
    Economical (elist.length + (V + k)) V k threshold (Node V k) s := by
  have hlive : live V k (Node V k) = Finset.range (V + k) := by
    ext v
    rw [mem_live, Finset.mem_range, Node]
    omega
  -- the lengths of the rows add up to that of the edge list
  have hflat : ∀ n, n ≤ V + k → ((Csr.rows vlist elist).take n).flatten.length =
      ∑ v ∈ Finset.range n, (s.graph.cells v).length := by
    intro n hn
    induction n with
    | zero => rfl
    | succ n ih =>
      rw [Finset.sum_range_succ, ← ih (by omega), hrows n (by omega),
        List.take_add_one, Csr.rows_getElem? (by omega), Option.toList_some, List.flatten_concat,
        List.length_append]
  have hall := hflat (V + k) (Nat.le_refl _)
  rw [List.take_of_length_le (by rw [Csr.length_rows]; omega), hvalid.flatten_rows,
    List.length_take] at hall
  rw [Economical, size, hlive, Finset.card_range, Finset.sum_add_distrib, ← hall,
    Finset.sum_const, Finset.card_range, Nat.nsmul_eq_mul, Nat.mul_one]
  push_cast
  rw [Int.sub_self, Int.zero_mul]
  omega

/-- The size bound goes through every inlining. -/
theorem economical_merged {N : Nat} (hac : Slp.Acyclic (csrRhs V V vlist elist)) :
    MergeKeeps vlist elist threshold V k ExactFreq (Economical N V k threshold) := by
  intro A i s s' hg hinfo h0 hA hflag hm hq
  have hA' : A (V + i) := by rwa [Int.add_comm]
  -- the flag was set by the test on the length and the frequency of now
  have hj := hinfo.flag i h0 hA'
  rw [hflag, hinfo.len i h0 hA', (hinfo.freq i h0 hA').1, Int.add_comm] at hj
  have hsize := hg.size_judged hA (hg.not_self hac hA (by omega)) hm hj.symm
  have hcard := card_live_without hg hA
  rw [Economical] at hq ⊢
  have hmul : ((V : Int) + k - (live V k (Without A (i + V))).card) * (threshold - 1) =
      ((V : Int) + k - (live V k A).card) * (threshold - 1) + (threshold - 1) := by
    rw [← hcard]
    push_cast
    ring
  omega

end Serial

end Laconic.Filter
